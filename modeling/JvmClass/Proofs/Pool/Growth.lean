import JvmClass.Pool.View
import JvmClass.Proofs.Action
import JvmClass.Proofs.Pool.Invariant
import Mathlib.Logic.Relation

/-!
# How a constant pool grows

`Grows p q` says that `q` is reached from `p` by insertions of records.  Every operation of a pool,
whether it succeeds or fails, lets the pool grow in this sense and changes it in no other way, so
that what one insertion preserves is preserved by every run of operations: the invariant, the
version, the records of all slots, and the least slot of every record.

## Key results

- `Grows.inv`, `Grows.holds`, `Grows.isFirst`: what growth preserves
- `places_intern`, `shares_copy`: operations insert what a record refers to and then the record
- `exec_perform_ok`, `shares_of_perform_error`: what a call that succeeds or fails has inserted
- `insertion_of_reachable`: slots, calls and insertions in every pool that a run of calls reaches
-/

namespace JvmClass.Pool

/-! ## Growth -/

/-- The second pool comes from the first by one insertion, which may have been refused. -/
def Inserts (p q : Pool) : Prop := ∃ how r, q = ((insert how r).exec p).2

/-- The second pool comes from the first by insertions. -/
def Grows : Pool → Pool → Prop := Relation.ReflTransGen Inserts

instance : Std.Refl Grows := ⟨fun _ => .refl⟩

instance : IsTrans Pool Grows := ⟨fun _ _ _ => Relation.ReflTransGen.trans⟩

/-- A property of pools that appending any record for which there is room, and whose string is not
too long, passes on is passed on by growth. -/
theorem Grows.induction {P : Pool → Pool → Prop} (hrefl : ∀ p, P p p)
    (happend : ∀ p q r, P p q → q.slots.size + r.width ≤ 65535 →
      r.textSize q.version ≤ 65535 → P p (q.append r))
    {p q : Pool} (h : p.Grows q) : P p q := by
  induction h with
  | refl => exact hrefl p
  | tail _ hstep ih =>
    obtain ⟨how, r, rfl⟩ := hstep
    rcases exec_insert_cases _ how r with heq | ⟨hroom, htext, heq⟩
    · rw [heq]
      exact ih
    · rw [heq]
      exact happend _ _ r ih hroom htext

theorem Grows.inv {p q : Pool} (h : p.Grows q) (hp : p.Inv) : q.Inv :=
  Grows.induction (P := fun p q => p.Inv → q.Inv) (fun _ hp => hp)
    (fun _ _ _ ih hroom _ hp => (ih hp).append hroom) h hp

/-- The slots of a pool stay as they are. -/
theorem Grows.getElem?_slots {p q : Pool} (h : p.Grows q) {i : Nat} {r : Option Record}
    (hi : p.slots[i]? = some r) : q.slots[i]? = some r :=
  Grows.induction (P := fun p q => p.slots[i]? = some r → q.slots[i]? = some r) (fun _ hi => hi)
    (fun _ q s ih _ _ hi => by
      have hq := ih hi
      rw [getElem?_slots_append_lt s (Array.getElem?_eq_some_iff.mp hq).1, hq])
    h hi

theorem Grows.holds {p q : Pool} (h : p.Grows q) {i : Nat} {r : Record} (hi : p.Holds i r) :
    q.Holds i r :=
  h.getElem?_slots hi

theorem Grows.version_eq {p q : Pool} (h : p.Grows q) : q.version = p.version :=
  Grows.induction (P := fun p q => q.version = p.version) (fun _ => rfl) (fun _ _ _ ih _ _ => ih) h

/-- New records never take the place of an older one as the shared one. -/
theorem Grows.isFirst {p q : Pool} (h : p.Grows q) {r : Record} {i : Nat} (hi : p.IsFirst r i) :
    q.IsFirst r i :=
  Grows.induction (P := fun p q => p.IsFirst r i → q.IsFirst r i) (fun _ hi => hi)
    (fun _ _ _ ih _ _ hi => isFirst_append_iff.mpr (.inl (ih hi))) h hi

/-- The second pool comes from the first by insertions of records that may be shared. -/
def Shares : Pool → Pool → Prop :=
  Relation.ReflTransGen fun p q => ∃ r, q = ((insert .shared r).exec p).2

instance : Std.Refl Shares := ⟨fun _ => .refl⟩

instance : IsTrans Pool Shares := ⟨fun _ _ _ => Relation.ReflTransGen.trans⟩

theorem Shares.grows {p q : Pool} (h : p.Shares q) : p.Grows q := by
  induction h with
  | refl => exact .refl
  | tail _ hstep ih =>
    obtain ⟨r, hr⟩ := hstep
    exact ih.tail ⟨.shared, r, hr⟩

/-! ## Operations -/

open JvmClass.Action (Moves)

variable {α β : Type} {how : Placement} {slot : α → Slot}

/-- The action first inserts what a record refers to, shared where possible, and then the record
itself, placed as asked, at the slot of its result.  A failure leaves no more behind than what the
record would have referred to. -/
structure Places (how : Placement) (slot : α → Slot) (act : Action Error Pool α) : Prop where
  of_error : ∀ {p q e}, act.exec p = (.error e, q) → p.Shares q
  of_ok : ∀ {p q a}, act.exec p = (.ok a, q) →
    ∃ p' r, p.Shares p' ∧ (insert how r).exec p' = (.ok (slot a), q)

/-- A refused insertion changes nothing. -/
theorem exec_insert_error {p q : Pool} {r : Record} {e : Error}
    (h : (insert how r).exec p = (.error e, q)) : q = p := by
  cases hs : p.shared? how r with
  | some i => simp [insert, hs] at h
  | none =>
    rw [exec_insert_append hs] at h
    split at h
    · exact (Prod.mk.inj h).2.symm
    · split at h
      · exact (Prod.mk.inj h).2.symm
      · cases h

theorem places_insert (how : Placement) (r : Record) : Places how id (insert how r) where
  of_error h := by rw [exec_insert_error h]; exact .refl
  of_ok h := ⟨_, r, .refl, h⟩

theorem Places.map {slot' : β → Slot} {act : Action Error Pool α} (h : Places how slot act)
    {f : α → β} (hf : ∀ a, slot' (f a) = slot a) : Places how slot' (f <$> act) where
  of_error he := h.of_error (Action.exec_map_eq_error.mp he)
  of_ok hok := by
    obtain ⟨a, ha, rfl⟩ := Action.exec_map_eq_ok.mp hok
    rw [hf]
    exact h.of_ok ha

theorem Places.slots {kind : Tag} {act : Action Error Pool (Ref kind)}
    (h : Places how Ref.slot act) : Places how id (Ref.slot <$> act) :=
  h.map fun _ => rfl

/-- What comes before the record is shared. -/
theorem Places.bind {act : Action Error Pool β} {k : β → Action Error Pool α}
    (h : act.Moves Shares) (hk : ∀ b, Places how slot (k b)) : Places how slot (act >>= k) where
  of_error he := by
    rcases Action.exec_bind_eq_error.mp he with he | ⟨b, p', hb, he⟩
    · exact h.of_exec he
    · exact trans_of Shares (h.of_exec hb) ((hk b).of_error he)
  of_ok hok := by
    obtain ⟨b, p', hb, hok⟩ := Action.exec_bind_eq_ok.mp hok
    obtain ⟨p'', r, hr, hins⟩ := (hk b).of_ok hok
    exact ⟨p'', r, trans_of Shares (h.of_exec hb) hr, hins⟩

theorem Places.shares {act : Action Error Pool α} (h : Places .shared slot act) :
    act.Moves Shares := by
  intro p
  rcases hact : act.exec p with ⟨e | a, q⟩
  · exact h.of_error hact
  · obtain ⟨p', r, hp', hins⟩ := h.of_ok hact
    exact hp'.tail ⟨r, by rw [hins]⟩

theorem Places.grows {act : Action Error Pool α} (h : Places how slot act) : act.Moves Grows := by
  intro p
  rcases hact : act.exec p with ⟨e | a, q⟩
  · exact (h.of_error hact).grows
  · obtain ⟨p', r, hp', hins⟩ := h.of_ok hact
    exact hp'.grows.tail ⟨how, r, by rw [hins]⟩

/-- The usual end of an operation. -/
theorem places_insert_ref {kind : Tag} (how : Placement) (r : Record) :
    Places how Ref.slot (do return ⟨← insert how r⟩ : Action Error Pool (Ref kind)) := by
  rw [bind_pure_comp]
  exact (places_insert how r).map fun _ => rfl

theorem places_internUtf8 (how : Placement) (text : String) :
    Places how Ref.slot (internUtf8 how text) :=
  places_insert_ref how _

theorem shares_utf8 (text : String) : (utf8 text).Moves Shares := (places_internUtf8 _ _).shares

theorem shares_require (kind : Tag) : (require kind).Moves Shares := Moves.inspect _

theorem places_internNamed (how : Placement) (kind : NamedKind) (name : String) :
    Places how Ref.slot (internNamed how kind name) :=
  .bind (shares_require _) fun _ => .bind (shares_utf8 _) fun _ => places_insert_ref how _

theorem places_classAt (name : Ref .utf8) : Places .shared Ref.slot (classAt name) :=
  places_insert_ref _ _

theorem places_nameAndTypeAt (how : Placement) (name descriptor : Ref .utf8) :
    Places how Ref.slot (nameAndTypeAt how name descriptor) :=
  places_insert_ref how _

theorem places_internNameAndType (how : Placement) (name descriptor : String) :
    Places how Ref.slot (internNameAndType how name descriptor) :=
  .bind (shares_utf8 _) fun _ => .bind (shares_utf8 _) fun _ => places_nameAndTypeAt how _ _

theorem places_memberAt (how : Placement) (kind : MemberKind) (owner : Ref .class)
    (nameAndType : Ref .nameAndType) : Places how Ref.slot (memberAt how kind owner nameAndType) :=
  places_insert_ref how _

theorem places_internMember (how : Placement) (kind : MemberKind) (member : Member) :
    Places how Ref.slot (internMember how kind member) :=
  .bind (places_internNamed _ _ _).shares fun _ =>
    .bind (places_internNameAndType _ _ _).shares fun _ => places_memberAt how _ _ _

theorem places_handleAt (how : Placement) (kind : HandleKind) (target : Slot) :
    Places how Ref.slot (handleAt how kind target) :=
  .bind (shares_require _) fun _ => .bind (Moves.inspect _) fun _ => places_insert_ref how _

theorem places_internHandle (how : Placement) (kind : HandleKind) (memberKind : MemberKind)
    (member : Member) : Places how Ref.slot (internHandle how kind memberKind member) :=
  .bind (shares_require _) fun _ =>
    .bind (places_internMember _ _ _).shares fun _ => places_handleAt how _ _

theorem places_internDynamic (how : Placement) (kind : DynamicKind) (bootstrap : UInt16)
    (name descriptor : String) :
    Places how Ref.slot (internDynamic how kind bootstrap name descriptor) :=
  .bind (shares_require _) fun _ =>
    .bind (places_internNameAndType _ _ _).shares fun _ => places_insert_ref how _

/-- A constant of any kind is placed as asked, after what it refers to. -/
theorem places_intern (how : Placement) (c : Constant) : Places how id (intern how c) := by
  cases c with
  | utf8 text => exact (places_internUtf8 how _).slots
  | integer value => exact places_insert how _
  | float bits => exact places_insert how _
  | long value => exact places_insert how _
  | double bits => exact places_insert how _
  | named kind name => exact (places_internNamed how _ _).slots
  | member kind member => exact (places_internMember how _ _).slots
  | nameAndType name descriptor => exact (places_internNameAndType how _ _).slots
  | methodHandle kind memberKind member => exact (places_internHandle how _ _ _).slots
  | dynamic kind bootstrap name descriptor => exact (places_internDynamic how _ _ _ _).slots

theorem shares_copy (view : View) (i : Slot) : (copy view i).Moves Shares := by
  unfold copy
  split
  · exact Moves.pure _
  · exact Moves.bind (Moves.ofExcept _) fun _ => (places_intern _ _).shares

theorem shares_copyAs (kind : Tag) (view : View) (i : Slot) :
    (copyAs kind view i).Moves Shares := by
  refine Moves.bind (shares_copy _ _) fun j => ?_
  split
  · exact Moves.pure _
  · exact Moves.inspect _

/-! ## Runs of calls -/

/-- A call of the interface of a pool.  Slots are whatever the caller passes, from this pool or from
another one. -/
inductive Call
  /-- A constant of any kind, with its strings, class, name and descriptor. -/
  | intern (how : Placement) (c : Constant)
  | classAt (name : Ref .utf8)
  | nameAndTypeAt (how : Placement) (name descriptor : Ref .utf8)
  | memberAt (how : Placement) (kind : MemberKind) (owner : Ref .class)
    (nameAndType : Ref .nameAndType)
  | handleAt (how : Placement) (kind : HandleKind) (target : Slot)
  /-- A constant of another pool. -/
  | copy (view : View) (i : Slot)
  | copyAs (kind : Tag) (view : View) (i : Slot)

/-- What a call does. -/
def Call.perform : Call → Action Error Pool Slot
  | intern how c => Pool.intern how c
  | classAt name => Ref.slot <$> Pool.classAt name
  | nameAndTypeAt how name descriptor => Ref.slot <$> Pool.nameAndTypeAt how name descriptor
  | memberAt how kind owner nameAndType => Ref.slot <$> Pool.memberAt how kind owner nameAndType
  | handleAt how kind target => Ref.slot <$> Pool.handleAt how kind target
  | copy view i => Pool.copy view i
  | copyAs kind view i => Ref.slot <$> Pool.copyAs kind view i

/-- The pool after some calls, of which any may have failed. -/
def afterCalls (p : Pool) (calls : List Call) : Pool :=
  calls.foldl (fun p call => (call.perform.exec p).2) p

/-- How a call places its record. -/
def Call.placement : Call → Placement
  | intern how _ | nameAndTypeAt how _ _ | memberAt how _ _ _ | handleAt how _ _ => how
  | classAt _ | copy _ _ | copyAs _ _ _ => .shared

/-- A call that fails only shares what its record refers to. -/
theorem shares_of_perform_error {call : Call} {p q : Pool} {e : Error}
    (h : call.perform.exec p = (.error e, q)) : p.Shares q := by
  cases call with
  | intern how c => exact (places_intern how c).of_error h
  | classAt name => exact (places_classAt name).slots.of_error h
  | nameAndTypeAt how name descriptor =>
    exact (places_nameAndTypeAt how name descriptor).slots.of_error h
  | memberAt how kind owner nameAndType =>
    exact (places_memberAt how kind owner nameAndType).slots.of_error h
  | handleAt how kind target => exact (places_handleAt how kind target).slots.of_error h
  | copy view i => exact (shares_copy view i).of_exec h
  | copyAs kind view i => exact ((shares_copyAs kind view i).map _).of_exec h

/-- A copy that succeeds inserts a record last, unless there was nothing to copy. -/
theorem exec_copy_ok {view : View} {p q : Pool} {i j : Slot}
    (h : (copy view i).exec p = (.ok j, q)) :
    j = 0 ∧ q = p ∨ ∃ p' r, p.Shares p' ∧ (insert .shared r).exec p' = (.ok j, q) := by
  unfold copy at h
  split at h
  · cases h
    exact .inl ⟨rfl, rfl⟩
  · obtain ⟨c, p', hc, hok⟩ := Action.exec_bind_eq_ok.mp h
    obtain ⟨-, rfl⟩ := Prod.mk.inj hc
    exact .inr ((places_intern .shared c).of_ok hok)

/-- A call that succeeds inserts its record last, unless there was nothing to copy. -/
theorem exec_perform_ok {call : Call} {p q : Pool} {i : Slot}
    (h : call.perform.exec p = (.ok i, q)) :
    i = 0 ∧ q = p ∨ ∃ p' r, p.Shares p' ∧ (insert call.placement r).exec p' = (.ok i, q) := by
  cases call with
  | intern how c => exact .inr ((places_intern how c).of_ok h)
  | classAt name => exact .inr ((places_classAt name).slots.of_ok h)
  | nameAndTypeAt how name descriptor =>
    exact .inr ((places_nameAndTypeAt how name descriptor).slots.of_ok h)
  | memberAt how kind owner nameAndType =>
    exact .inr ((places_memberAt how kind owner nameAndType).slots.of_ok h)
  | handleAt how kind target => exact .inr ((places_handleAt how kind target).slots.of_ok h)
  | copy view i => exact exec_copy_ok h
  | copyAs kind view i =>
    -- The check of the kind comes after the copy and looks at the pool only.
    obtain ⟨r, hok, rfl⟩ := Action.exec_map_eq_ok.mp h
    obtain ⟨j, p', hj, hok⟩ := Action.exec_bind_eq_ok.mp hok
    split at hok
    · rename_i hzero
      cases hok
      rw [hzero] at hj
      exact exec_copy_ok hj
    · simp only [Action.exec_inspect, Prod.mk.injEq] at hok
      obtain ⟨hcast, rfl⟩ := hok
      have hslot : r.slot = j := by
        unfold cast at hcast
        split at hcast
        · cases hcast
        · split at hcast
          · cases hcast
            rfl
          · cases hcast
      rw [hslot]
      exact exec_copy_ok hj

theorem grows_perform (call : Call) : call.perform.Moves Grows := by
  intro p
  rcases h : call.perform.exec p with ⟨e | i, q⟩
  · exact (shares_of_perform_error h).grows
  · rcases exec_perform_ok h with ⟨-, rfl⟩ | ⟨p', r, hp', hins⟩
    · exact .refl
    · exact hp'.grows.tail ⟨_, r, by rw [hins]⟩

theorem grows_afterCalls (p : Pool) (calls : List Call) : p.Grows (p.afterCalls calls) := by
  induction calls generalizing p with
  | nil => exact .refl
  | cons call calls ih => exact trans_of Grows (grows_perform call p) (ih _)

/-- Every pool that a run of calls reaches from an empty one satisfies the invariant. -/
theorem inv_afterCalls (version : Version) (calls : List Call) :
    ((empty version).afterCalls calls).Inv :=
  (grows_afterCalls _ calls).inv (inv_empty version)

/-! ## Slots and insertions of reachable pools -/

/-- Slots are laid out as they have to be, a record that is held is shared at its least slot, and
any other record is appended unless its string or the pool would become too long. -/
structure InsertionSpec (p : Pool) : Prop extends SlotLayout p where
  exec_shared : ∀ r i, p.IsFirst r i →
    ∃ slot : Slot, slot.toNat = i ∧ (insert .shared r).exec p = (.ok slot, p)
  exec_append : ∀ how r, how = .fresh ∨ (∀ i, ¬ p.Holds i r) →
    (insert how r).exec p =
      if 65535 < r.textSize p.version then (.error (.textTooLong (r.textSize p.version)), p)
      else if 65535 < p.slots.size + r.width then (.error (.poolOverflow r p.slots.size), p)
      else (.ok p.nextSlot, p.append r)
  toNat_nextSlot : p.nextSlot.toNat = p.slots.size
  toList_append : ∀ r,
    (p.append r).slots.toList = p.slots.toList ++ some r :: List.replicate (r.width - 1) none

/-- A call changes no slot.  It shares what its record refers to, and if it succeeds it inserts the
record after that, unless there was nothing to copy. -/
structure CallSpec (p : Pool) (call : Call) : Prop where
  getElem?_slots : ∀ (i : Nat) (r : Option Record), p.slots[i]? = some r →
    (call.perform.exec p).2.slots[i]? = some r
  of_error : ∀ e q, call.perform.exec p = (.error e, q) → p.Shares q
  of_ok : ∀ i q, call.perform.exec p = (.ok i, q) →
    i = 0 ∧ q = p ∨ ∃ p' r, p.Shares p' ∧ (insert call.placement r).exec p' = (.ok i, q)

theorem Inv.insertionSpec {p : Pool} (h : p.Inv) : p.InsertionSpec where
  toSlotLayout := h.toSlotLayout
  exec_shared r i hi := by
    have hlt := hi.1.lt_size
    have hsize := h.size_le
    -- A slot that is in use has a number of two bytes.
    have hi' : (UInt16.ofNat i).toNat = i := by
      rw [UInt16.toNat_ofNat']
      omega
    exact ⟨UInt16.ofNat i, hi', exec_insert_shared h (hi'.symm ▸ hi)⟩
  exec_append how r hr := by
    -- Nobody looks for a fresh record, and a record that no slot holds is not found.
    apply exec_insert_append
    cases how with
    | fresh => rfl
    | shared =>
      rcases hr with hr | hr
      · cases hr
      · exact h.firstSlot_eq_none hr
  toNat_nextSlot := h.toNat_nextSlot
  toList_append := toList_slots_append p

theorem callSpec (p : Pool) (call : Call) : p.CallSpec call where
  getElem?_slots _ _ hi := (grows_perform call p).getElem?_slots hi
  of_error _ _ he := shares_of_perform_error he
  of_ok _ _ hok := exec_perform_ok hok

/-- In every pool that a run of calls reaches, and in every pool that a further call passes through,
the slots are laid out as they have to be and insertions do what they have to. -/
theorem insertion_of_reachable (version : Version) (calls : List Call) :
    (∀ q, ((empty version).afterCalls calls).Shares q → q.InsertionSpec) ∧
      ∀ call, ((empty version).afterCalls calls).CallSpec call := by
  constructor
  · intro q hq
    exact (hq.grows.inv (inv_afterCalls version calls)).insertionSpec
  · intro call
    exact callSpec _ call

end JvmClass.Pool
