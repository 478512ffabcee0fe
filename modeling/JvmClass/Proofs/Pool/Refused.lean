import JvmClass.Proofs.Pool.Decoding
import JvmClass.Proofs.Pool.Distinct
import JvmClass.Proofs.Pool.Integrity
import JvmClass.Proofs.Pool.Sharing

/-!
# Constants that are refused

A constant that refers to others is interned after them, so that a refusal can come after any of
them: for a string that is too long, for a lack of slots, or because a method handle does not fit
its member.  What was interned by then stays.  It does no harm: the slots that were added hold
nothing but what the constant depends on, every one of them where it will be found again.  So the
same call goes through the same steps once more, adds nothing, and is refused for the same reason.

`Adds D p q` says that a pool grew by constants of a list only.  `Settles` and `Interns` pass it,
with the stability of refusals, from insertions to everything that is made of them.

## Key results

- `Adds.trans`, `adds_insert`: what growth adds, step by step
- `Settles.of_interns`: what comes before a constant, and then the constant
- `interns_internMember`, `interns_internHandle`: constants that depend on others
- `refusal_of_reachable`: refused calls in every reachable pool
-/

namespace JvmClass

/-! ## Dependents -/

/-- What a member is made of, in the order in which it is interned. -/
def Member.dependents (m : Member) : List Constant :=
  [.utf8 m.owner, .named .class m.owner, .utf8 m.name, .utf8 m.descriptor,
    .nameAndType m.name m.descriptor]

/-- All that a constant refers to, directly or through others. -/
def Constant.dependents : Constant → List Constant
  | named _ name => [.utf8 name]
  | nameAndType name descriptor => [.utf8 name, .utf8 descriptor]
  | member _ m => m.dependents
  | methodHandle _ kind m => .member kind m :: m.dependents
  | dynamic _ _ name descriptor =>
    [.utf8 name, .utf8 descriptor, .nameAndType name descriptor]
  | _ => []

/-- Nothing depends on itself. -/
theorem Constant.notMem_dependents (c : Constant) : c ∉ c.dependents := by
  cases c <;> simp [dependents, Member.dependents]

namespace Pool

open JvmClass.Action (except_bind_eq_ok)

variable {p q : Pool} {α β : Type} {D E : List Constant} {how : Placement} {slot : α → Slot}

/-! ## What growth adds -/

/-- The constant is shared at the slot. -/
def SharedAt (p : Pool) (c : Constant) (i : Slot) : Prop :=
  (intern .shared c).exec p = (.ok i, p)

theorem SharedAt.grows {c : Constant} {i : Slot} (h : p.SharedAt c i) (hp : p.Inv)
    (hq : p.Grows q) : q.SharedAt c i :=
  (repeats_intern c p p i hp h).2 q hq

theorem SharedAt.constant_eq {c : Constant} {i : Slot} (h : p.SharedAt c i) (hp : p.Inv) :
    p.constant i = .ok c :=
  (yields_intern hp .shared c i p h).2

/-- The pool has grown, by slots at which constants of the list are shared. -/
structure Adds (D : List Constant) (p q : Pool) : Prop where
  grows : p.Grows q
  shared : ∀ i, p.slots.size ≤ i → i < q.slots.size →
    ∃ s : Slot, s.toNat = i ∧ ∃ c ∈ D, q.SharedAt c s

theorem adds_refl (D : List Constant) (p : Pool) : Adds D p p where
  grows := .refl
  shared i hle hlt := by omega

theorem Adds.mono (h : Adds D p q) (hDE : D ⊆ E) : Adds E p q where
  grows := h.grows
  shared i hle hlt := by
    obtain ⟨s, hs, c, hc, hshared⟩ := h.shared i hle hlt
    exact ⟨s, hs, c, hDE hc, hshared⟩

/-- What is shared where it was added is shared there later, too. -/
theorem Adds.trans {r : Pool} (h : Adds D p q) (h' : Adds D q r) (hp : p.Inv) : Adds D p r where
  grows := trans_of Grows h.grows h'.grows
  shared i hle hlt := by
    by_cases hi : i < q.slots.size
    · obtain ⟨s, hs, c, hc, hshared⟩ := h.shared i hle hi
      exact ⟨s, hs, c, hc, hshared.grows (h.grows.inv hp) h'.grows⟩
    · exact h'.shared i (Nat.le_of_not_lt hi) hlt

/-- A record of one slot adds that slot, or none if it is found. -/
theorem adds_insert (hp : p.Inv) {r : Record} {i : Slot} {c : Constant} (hwidth : r.width = 1)
    (hins : (insert .shared r).exec p = (.ok i, q)) (hc : q.SharedAt c i) : Adds [c] p q := by
  have hgrows : p.Grows q := Relation.ReflTransGen.single ⟨.shared, r, by rw [hins]⟩
  refine ⟨hgrows, fun j hle hlt => ⟨i, ?_, c, List.mem_singleton_self c, hc⟩⟩
  cases hs : p.shared? .shared r with
  | some k =>
    have hfound : (insert .shared r).exec p = (.ok k, p) := by simp [insert, hs]
    rw [hfound] at hins
    cases hins
    omega
  | none =>
    rw [exec_insert_append hs] at hins
    split at hins
    · cases hins
    · split at hins
      · cases hins
      · cases hins
        rw [size_slots_append] at hlt
        rw [hp.toNat_nextSlot]
        omega

/-! ## Actions that settle -/

/-- A refused action has added constants of the list only, and is refused again without adding
anything. -/
def Refuses (D : List Constant) (act : Action Error Pool α) : Prop :=
  ∀ p q e, p.Inv → act.exec p = (.error e, q) → Adds D p q ∧ act.exec q = (.error e, q)

/-- The action adds constants of the list only, and ends as it did when it is done again. -/
structure Settles (D : List Constant) (act : Action Error Pool α) : Prop where
  refuses : Refuses D act
  adds : ∀ p q a, p.Inv → act.exec p = (.ok a, q) → Adds D p q
  again : Repeats act

/-- The action adds constants of the list, and then inserts a record at the slot of its result. -/
structure Interns (D : List Constant) (how : Placement) (slot : α → Slot)
    (act : Action Error Pool α) : Prop where
  refuses : Refuses D act
  adds : ∀ p q a, p.Inv → act.exec p = (.ok a, q) →
    ∃ p' r, Adds D p p' ∧ (insert how r).exec p' = (.ok (slot a), q)

/-- An action that leaves the pool alone if it is refused. -/
theorem refuses_of_eq {act : Action Error Pool α}
    (h : ∀ p q e, act.exec p = (.error e, q) → q = p) : Refuses D act := by
  intro p q e _ hact
  obtain rfl := h p q e hact
  exact ⟨adds_refl D _, hact⟩

theorem Refuses.mono {act : Action Error Pool α} (h : Refuses D act) (hDE : D ⊆ E) :
    Refuses E act := by
  intro p q e hp hact
  obtain ⟨hadds, hagain⟩ := h p q e hp hact
  exact ⟨hadds.mono hDE, hagain⟩

theorem Refuses.map {act : Action Error Pool α} (h : Refuses D act) (f : α → β) :
    Refuses D (f <$> act) := by
  intro p q e hp hact
  obtain ⟨hadds, hagain⟩ := h p q e hp (Action.exec_map_eq_error.mp hact)
  exact ⟨hadds, Action.exec_map_eq_error.mpr hagain⟩

theorem Settles.mono {act : Action Error Pool α} (h : Settles D act) (hDE : D ⊆ E) :
    Settles E act where
  refuses := h.refuses.mono hDE
  adds p q a hp hact := (h.adds p q a hp hact).mono hDE
  again := h.again

theorem settles_inspect {f : Pool → Except Error α}
    (hf : ∀ p q a, p.Grows q → f p = .ok a → f q = .ok a) : Settles D (Action.inspect f) where
  refuses := refuses_of_eq fun _ _ _ hact => (Prod.mk.inj hact).2.symm
  adds p q a _ hact := by
    cases (Prod.mk.inj hact).2
    exact adds_refl D p
  again := repeats_inspect hf

theorem settles_require (kind : Tag) : Settles D (require kind) :=
  settles_inspect fun p q _ h hp => by rwa [h.version_eq]

/-- The first part finds what it added when the second one was refused. -/
theorem Refuses.bind {act : Action Error Pool β} {k : β → Action Error Pool α}
    (h : Settles D act) (hk : ∀ b, Refuses D (k b)) : Refuses D (act >>= k) := by
  intro p q e hp hact
  rcases Action.exec_bind_eq_error.mp hact with hact | ⟨b, p', hb, hact⟩
  · obtain ⟨hadds, hagain⟩ := h.refuses p q e hp hact
    exact ⟨hadds, Action.exec_bind_eq_error.mpr (.inl hagain)⟩
  · have hfirst := h.adds p p' b hp hb
    obtain ⟨hadds, hagain⟩ := hk b p' q e (hfirst.grows.inv hp) hact
    have hfound := (h.again p p' b hp hb).2 q hadds.grows
    exact ⟨hfirst.trans hadds hp, Action.exec_bind_eq_error.mpr (.inr ⟨b, q, hfound, hagain⟩)⟩

theorem Interns.bind {act : Action Error Pool β} {k : β → Action Error Pool α}
    (h : Settles D act) (hk : ∀ b, Interns D how slot (k b)) : Interns D how slot (act >>= k) where
  refuses := .bind h fun b => (hk b).refuses
  adds p q a hp hact := by
    obtain ⟨b, p', hb, hact⟩ := Action.exec_bind_eq_ok.mp hact
    have hfirst := h.adds p p' b hp hb
    obtain ⟨p'', r, hadds, hins⟩ := (hk b).adds p' q a (hfirst.grows.inv hp) hact
    exact ⟨p'', r, hfirst.trans hadds hp, hins⟩

theorem Interns.mono {act : Action Error Pool α} (h : Interns D how slot act) (hDE : D ⊆ E) :
    Interns E how slot act where
  refuses := h.refuses.mono hDE
  adds p q a hp hact := by
    obtain ⟨p', r, hadds, hins⟩ := h.adds p q a hp hact
    exact ⟨p', r, hadds.mono hDE, hins⟩

theorem refuses_insert (how : Placement) (r : Record) : Refuses D (insert how r) :=
  refuses_of_eq fun _ _ _ hact => exec_insert_error hact

theorem interns_insert_ref {kind : Tag} (how : Placement) (r : Record) :
    Interns D how Ref.slot (do return ⟨← insert how r⟩ : Action Error Pool (Ref kind)) := by
  rw [bind_pure_comp]
  refine ⟨(refuses_insert how r).map _, fun p q a _ hact => ?_⟩
  obtain ⟨i, hins, rfl⟩ := Action.exec_map_eq_ok.mp hact
  exact ⟨p, r, adds_refl D p, hins⟩

/-- A constant of one slot that is interned with sharing adds itself after what came before. -/
theorem Settles.of_interns {c : Constant} {kind : Tag} {act : Action Error Pool (Ref kind)}
    (h : Interns D .shared Ref.slot act) (hc : intern .shared c = Ref.slot <$> act)
    (hwidth : c.tag.width = 1) (again : Repeats act) : Settles (c :: D) act where
  refuses := h.refuses.mono (List.subset_cons_self c D)
  again := again
  adds p q a hp hact := by
    obtain ⟨p', r, hadds, hins⟩ := h.adds p q a hp hact
    have hp' := hadds.grows.inv hp
    have hintern : (intern .shared c).exec p = (.ok a.slot, q) := by
      rw [hc]
      exact Action.exec_map_eq_ok.mpr ⟨a, hact, rfl⟩
    have hshared : q.SharedAt c a.slot := (repeats_intern c p q _ hp hintern).2 q .refl
    -- The record is of the kind of the constant, and so takes up one slot only.
    have hgrows : p'.Grows q := Relation.ReflTransGen.single ⟨.shared, r, by rw [hins]⟩
    have hrecord : q.record a.slot = .ok r := record_eq_ok_iff.mpr (hp'.holds_of_insert hins)
    have htag := tag_of_constant hrecord (hshared.constant_eq (hgrows.inv hp'))
    have hr : r.width = 1 := by rw [Record.width, ← htag, hwidth]
    have hlast : Adds (c :: D) p' q := (adds_insert hp' hr hins hshared).mono (by simp)
    exact (hadds.mono (List.subset_cons_self c D)).trans hlast hp

/-! ## Operations -/

theorem interns_internUtf8 (how : Placement) (s : String) :
    Interns D how Ref.slot (internUtf8 how s) :=
  interns_insert_ref how _

theorem settles_utf8 (s : String) (hs : .utf8 s ∈ D) : Settles D (utf8 s) := by
  have hutf8 : Settles [.utf8 s] (utf8 s) :=
    .of_interns (interns_internUtf8 .shared s) rfl rfl (repeats_utf8 s)
  exact hutf8.mono (by simpa using hs)

theorem interns_internNamed (how : Placement) (kind : NamedKind) (s : String)
    (hs : .utf8 s ∈ D) : Interns D how Ref.slot (internNamed how kind s) :=
  .bind (settles_require _) fun _ => .bind (settles_utf8 s hs) fun _ => interns_insert_ref how _

theorem settles_classNamed (s : String) (hs : .utf8 s ∈ D) (hclass : .named .class s ∈ D) :
    Settles D (classNamed s) := by
  have hsettles : Settles (.named .class s :: [.utf8 s]) (classNamed s) :=
    .of_interns (interns_internNamed .shared .class s List.mem_cons_self) rfl rfl
      (repeats_internNamed .class s)
  exact hsettles.mono (by simp [hs, hclass])

theorem interns_internNameAndType (how : Placement) (s t : String) (hs : .utf8 s ∈ D)
    (ht : .utf8 t ∈ D) : Interns D how Ref.slot (internNameAndType how s t) :=
  .bind (settles_utf8 s hs) fun _ => .bind (settles_utf8 t ht) fun _ => interns_insert_ref how _

theorem settles_internNameAndType (s t : String) (hs : .utf8 s ∈ D) (ht : .utf8 t ∈ D)
    (hpair : .nameAndType s t ∈ D) : Settles D (internNameAndType .shared s t) := by
  have hsettles : Settles (.nameAndType s t :: [.utf8 s, .utf8 t])
      (internNameAndType .shared s t) :=
    .of_interns (interns_internNameAndType .shared s t (by simp) (by simp)) rfl rfl
      (repeats_internNameAndType s t)
  exact hsettles.mono (by simp [hs, ht, hpair])

theorem interns_internMember (how : Placement) (kind : MemberKind) (m : Member) :
    Interns m.dependents how Ref.slot (internMember how kind m) := by
  refine .bind (settles_classNamed m.owner ?_ ?_) fun _ =>
    .bind (settles_internNameAndType m.name m.descriptor ?_ ?_ ?_) fun _ =>
      interns_insert_ref how _
  all_goals simp [Member.dependents]

theorem settles_internMember (kind : MemberKind) (m : Member) :
    Settles (.member kind m :: m.dependents) (internMember .shared kind m) :=
  .of_interns (interns_internMember .shared kind m) rfl (by cases kind <;> rfl)
    (repeats_internMember kind m)

theorem interns_handleAt (how : Placement) (kind : HandleKind) (target : Slot) :
    Interns D how Ref.slot (handleAt how kind target) :=
  .bind (settles_require _) fun _ =>
    .bind (settles_inspect fun _ _ _ h hr => h.handleRecord_eq hr) fun _ => interns_insert_ref how _

/-- Whether a handle fits its member is only seen when the member is there. -/
theorem interns_internHandle (how : Placement) (kind : HandleKind) (memberKind : MemberKind)
    (m : Member) : Interns (.member memberKind m :: m.dependents) how Ref.slot
      (internHandle how kind memberKind m) :=
  .bind (settles_require _) fun _ =>
    .bind (settles_internMember memberKind m) fun _ => interns_handleAt how kind _

theorem interns_internDynamic (how : Placement) (kind : DynamicKind) (bootstrap : UInt16)
    (s t : String) : Interns [.utf8 s, .utf8 t, .nameAndType s t] how Ref.slot
      (internDynamic how kind bootstrap s t) :=
  .bind (settles_require _) fun _ =>
    .bind (settles_internNameAndType s t (by simp) (by simp) (by simp)) fun _ =>
      interns_insert_ref how _

/-- A constant of any kind is refused after some of what it depends on, if at all. -/
theorem refuses_intern (how : Placement) (c : Constant) :
    Refuses c.dependents (intern how c) := by
  cases c with
  | utf8 s => exact (interns_internUtf8 how s).refuses.map _
  | integer value => exact refuses_insert how _
  | float bits => exact refuses_insert how _
  | long value => exact refuses_insert how _
  | double bits => exact refuses_insert how _
  | named kind s => exact (interns_internNamed how kind s List.mem_cons_self).refuses.map _
  | member kind m => exact (interns_internMember how kind m).refuses.map _
  | nameAndType s t =>
    have hinterns : Interns [.utf8 s, .utf8 t] how Ref.slot (internNameAndType how s t) :=
      interns_internNameAndType how s t (by simp) (by simp)
    exact hinterns.refuses.map _
  | methodHandle kind memberKind m =>
    exact (interns_internHandle how kind memberKind m).refuses.map _
  | dynamic kind bootstrap s t => exact (interns_internDynamic how kind bootstrap s t).refuses.map _

/-! ## Calls -/

/-- The call makes a constant from what it is given, and not from another pool. -/
def Call.makes : Call → Bool
  | copy _ _ | copyAs _ _ _ => false
  | _ => true

/-- The constant that a call makes, unless it is given by slots. -/
def Call.constant? : Call → Option Constant
  | intern _ c => some c
  | _ => none

/-- What is interned before the constant of a call; what is given by slots is there already. -/
def Call.dependents (call : Call) : List Constant := (call.constant?.map (·.dependents)).getD []

theorem refuses_perform {call : Call} (hmakes : call.makes) :
    Refuses call.dependents call.perform := by
  cases call with
  | intern how c => exact refuses_intern how c
  | classAt name => exact (interns_insert_ref .shared _).refuses.map _
  | nameAndTypeAt how name descriptor => exact (interns_insert_ref how _).refuses.map _
  | memberAt how kind owner nat => exact (interns_insert_ref how _).refuses.map _
  | handleAt how kind target => exact (interns_handleAt how kind target).refuses.map _
  | copy view i => cases hmakes
  | copyAs kind view i => cases hmakes

/-- A refused call leaves the slots of the pool as they were.  What it adds is shared at its slots,
and is part of what the constant depends on, which the constant itself is not.  The slots are laid
out as they have to be and what they refer to is there, insertions do what they have to, and the
bytes of the pool are read back slot by slot.  The same call is refused for the same reason
again, and changes nothing any more. -/
structure RefusalSpec (p : Pool) (call : Call) (e : Error) (q : Pool) : Prop where
  getElem?_slots : ∀ (i : Nat) (r : Option Record), p.slots[i]? = some r → q.slots[i]? = some r
  added : ∀ i, p.slots.size ≤ i → i < q.slots.size →
    ∃ s : Slot, s.toNat = i ∧ ∃ c ∈ call.dependents,
      q.constant s = .ok c ∧ (intern .shared c).exec q = (.ok s, q)
  constant_ne : ∀ s : Slot, p.slots.size ≤ s.toNat → ∀ c, q.constant s = .ok c →
    call.constant? ≠ some c
  insertions : q.InsertionSpec
  sound : p.Sound → q.Sound
  decoding : ∃ body slots, (Reader.uint 2).run q.encode = some (q.used + 1, body) ∧
    (readEntries (Record.readAs q.version) q.used).run body = some (slots, []) ∧
    slots.length = q.used ∧
    ∀ i r, q.record i = .ok r ↔ ∃ k, i.toNat = k + 1 ∧ slots[k]? = some (some r)
  again : call.perform.exec q = (.error e, q)

/-- A slot that was added does not hold the constant that was refused. -/
theorem Adds.constant_ne {call : Call} (h : Adds call.dependents p q) (hp : p.Inv) {s : Slot}
    (hs : p.slots.size ≤ s.toNat) {c : Constant} (hc : q.constant s = .ok c) :
    call.constant? ≠ some c := by
  intro hcall
  obtain ⟨r, hr, -⟩ := except_bind_eq_ok.mp hc
  obtain ⟨s', hs', d, hd, hshared⟩ := h.shared _ hs (record_eq_ok_iff.mp hr).lt_size
  cases UInt16.toNat_inj.mp hs'
  -- The slot holds one of the dependents, and so no other constant.
  rw [hshared.constant_eq (h.grows.inv hp)] at hc
  cases hc
  have hdependents : call.dependents = c.dependents := by rw [Call.dependents, hcall]; rfl
  exact c.notMem_dependents (hdependents ▸ hd)

theorem exec_insert_ref_error {kind : Tag} {r : Record} {e : Error}
    (h : (do return ⟨← insert how r⟩ : Action Error Pool (Ref kind)).exec p = (.error e, q)) :
    q = p := by
  rw [bind_pure_comp] at h
  exact exec_insert_error (Action.exec_map_eq_error.mp h)

/-- Also with references that the pool has not given out, since these are not in the slots that are
added. -/
theorem sound_of_perform_error (hsound : p.Sound) (hp : p.Inv) {call : Call} (hmakes : call.makes)
    {e : Error} (h : call.perform.exec p = (.error e, q)) : q.Sound := by
  cases call with
  | intern how c =>
    have hleaves := leavesSound_intern hsound hp how c
    rwa [LeavesSound, ← Call.perform, h] at hleaves
  | classAt name => rwa [exec_insert_ref_error (Action.exec_map_eq_error.mp h)]
  | nameAndTypeAt how name descriptor =>
    rwa [exec_insert_ref_error (Action.exec_map_eq_error.mp h)]
  | memberAt how kind owner nat => rwa [exec_insert_ref_error (Action.exec_map_eq_error.mp h)]
  | handleAt how kind target =>
    have hleaves := (leavesSound_handleAt hsound how kind target).map Ref.slot
    rwa [LeavesSound, ← Call.perform, h] at hleaves
  | copy view i => cases hmakes
  | copyAs kind view i => cases hmakes

theorem Inv.refusalSpec (hp : p.Inv) (hempty : (empty p.version).Grows p) {call : Call}
    (hmakes : call.makes) {e : Error} (h : call.perform.exec p = (.error e, q)) :
    RefusalSpec p call e q := by
  obtain ⟨hadds, hagain⟩ := refuses_perform hmakes p q e hp h
  have hq := hadds.grows.inv hp
  refine ⟨fun i r hi => hadds.grows.getElem?_slots hi, fun i hle hlt => ?_,
    fun s hs c hc => hadds.constant_ne hp hs hc, hq.insertionSpec, fun hsound => ?_, ?_, hagain⟩
  · obtain ⟨s, hs, c, hc, hshared⟩ := hadds.shared i hle hlt
    exact ⟨s, hs, c, hc, hshared.constant_eq hq, hshared⟩
  · exact sound_of_perform_error hsound hp hmakes h
  · have hversion := hadds.grows.version_eq
    have hdecoding := (trans_of Grows hempty hadds.grows).exists_decoding
    rwa [hversion]

/-- Whatever a call that makes a constant is refused for, and however the pool was used before. -/
theorem refusal_of_reachable (version : Version) (calls : List Call) (call : Call)
    (hmakes : call.makes) (e : Error) (q : Pool)
    (h : call.perform.exec ((empty version).afterCalls calls) = (.error e, q)) :
    RefusalSpec ((empty version).afterCalls calls) call e q := by
  have hgrows := grows_afterCalls (empty version) calls
  refine (inv_afterCalls version calls).refusalSpec ?_ hmakes h
  rwa [hgrows.version_eq]

/-- A string of as many bytes as characters. -/
def repeated (n : Nat) : String := String.ofList (List.replicate n 'a')

theorem textSize_repeated (version : Version) (n : Nat) :
    (Record.utf8 (repeated n)).textSize version = n := by
  have hchar : ModifiedUtf8.encodeChar (ModifiedUtf8.hasSurrogatePairs version) 'a' = [97] := rfl
  simp [Record.textSize, ModifiedUtf8.encode, repeated, List.length_flatMap, hchar]

/-- A call for a name and a descriptor that is too long. -/
def overlongDescriptor : Call := .intern .fresh (.nameAndType "f" (repeated 65536))

/-- The descriptor is refused after the name, which stays. -/
theorem refusal_of_overlong :
    overlongDescriptor.makes ∧
      overlongDescriptor.perform.exec ((empty .java8).afterCalls [])
        = (.error (.textTooLong 65536), (empty .java8).append (.utf8 "f")) ∧
      RefusalSpec ((empty .java8).afterCalls []) overlongDescriptor (.textTooLong 65536)
        ((empty .java8).append (.utf8 "f")) := by
  have hinv := inv_empty .java8
  have hnothing := fun r i => not_holds_empty .java8 i r
  have hname := hinv.exec_utf8_new (hnothing (.utf8 "f")) (by decide) (by decide)
  have hne : Record.utf8 "f" ≠ .utf8 (repeated 65536) := by
    intro heq
    have hsize := congrArg (Record.textSize .java8) heq
    rw [textSize_repeated] at hsize
    exact absurd hsize (by decide)
  have hshared : ((empty .java8).append (.utf8 "f")).shared? .shared
      (.utf8 (repeated 65536)) = none :=
    (hinv.append (by decide)).firstSlot_eq_none (not_holds_append (hnothing _) hne)
  have hlong : (utf8 (repeated 65536)).exec ((empty .java8).append (.utf8 "f"))
      = (.error (.textTooLong 65536), (empty .java8).append (.utf8 "f")) := by
    refine Action.exec_bind_eq_error.mpr (.inl ?_)
    rw [exec_insert_append hshared, textSize_repeated, if_pos (by decide)]
  have hexec : overlongDescriptor.perform.exec (empty .java8)
      = (.error (.textTooLong 65536), (empty .java8).append (.utf8 "f")) :=
    Action.exec_map_eq_error.mpr (Action.exec_bind_eq_error.mpr (.inr ⟨_, _, hname,
      Action.exec_bind_eq_error.mpr (.inl hlong)⟩))
  exact ⟨rfl, hexec, refusal_of_reachable .java8 [] overlongDescriptor rfl _ _ hexec⟩

end Pool

end JvmClass
