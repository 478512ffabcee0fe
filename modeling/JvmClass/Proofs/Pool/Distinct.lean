import JvmClass.Proofs.Pool.Available
import JvmClass.Proofs.Pool.Integrity

/-!
# Pools without duplicates

Records hold slot numbers, and sharing compares records.  That two slots mean different constants
says more: equal strings, classes, names and descriptors have to be at equal slots all the way down.
It holds as long as everything is shared.  Then no record is at two slots, and every constant is
found where it already is when it is interned once more, after its strings, its class, its name and
its descriptor have been found where they are.  So slots with the same meaning are the same slot.

Floating point numbers are told apart by their bits: the two zeros are different constants.

## Key results

- `HandleKind.accepts_of_fits`: a handle that is valid passes its checks again
- `Shares.unique`: no record is at two slots where everything is shared
- `Interned.exec_intern`: a constant is found where it is
- `distinct_of_interning`: meanings are distinct in every pool in which everything is shared
-/

namespace JvmClass

/-- A member that does what the kind of a handle demands passes both checks. -/
theorem HandleKind.accepts_of_fits {kind : HandleKind} {version : Version} {member : MemberKind}
    {name : String} (h : kind.Fits version member name) :
    kind.acceptsTag version member.tag = true ∧ kind.acceptsName name = true := by
  obtain ⟨haccess, hmethod, heither, hinterface, hnew, hcall⟩ := h
  cases kind <;> simp [byte] at haccess hmethod heither hinterface hnew hcall <;>
    cases member <;> simp_all [acceptsTag, acceptsName]

namespace Pool

open JvmClass.Action (Moves except_bind_eq_ok except_pure_eq_ok)

variable {p q : Pool}

/-! ## No record at two slots -/

/-- No record is at two slots. -/
def Unique (p : Pool) : Prop := ∀ i j r, p.Holds i r → p.Holds j r → i = j

theorem unique_empty (version : Version) : (empty version).Unique :=
  fun i _ r h => absurd h (not_holds_empty version i r)

/-- A record that no slot holds gets the next one, if there is room and its string is not too long. -/
theorem Inv.exec_insert_new (h : p.Inv) {r : Record} (hr : ∀ i, ¬ p.Holds i r)
    (htext : r.textSize p.version ≤ 65535) (hroom : p.slots.size + r.width ≤ 65535) :
    (insert .shared r).exec p = (.ok p.nextSlot, p.append r) := by
  have hnone : p.shared? .shared r = none := h.firstSlot_eq_none hr
  rw [exec_insert_append hnone, if_neg (by omega), if_neg (by omega)]

/-- What no slot holds is not there behind another record either. -/
theorem not_holds_append {r s : Record} (h : ∀ i, ¬ p.Holds i s) (hne : r ≠ s) (i : Nat) :
    ¬ (p.append r).Holds i s := by
  intro hi
  rcases holds_append_iff.mp hi with hold | ⟨-, hsame⟩
  · exact h i hold
  · exact hne hsame.symm

/-- A string that no slot holds gets the next one. -/
theorem Inv.exec_utf8_new (h : p.Inv) {text : String} (hnew : ∀ i, ¬ p.Holds i (.utf8 text))
    (htext : (Record.utf8 text).textSize p.version ≤ 65535) (hroom : p.slots.size < 65535) :
    (utf8 text).exec p = (.ok ⟨p.nextSlot⟩, p.append (.utf8 text)) :=
  Action.exec_bind_eq_ok.mpr ⟨_, _, h.exec_insert_new hnew htext hroom, rfl⟩

/-- A record that may be shared is appended only when no slot holds it. -/
theorem Unique.insert (h : p.Unique) (hp : p.Inv) (r : Record) :
    ((Pool.insert .shared r).exec p).2.Unique := by
  cases hs : p.firstSlot[r]? with
  | some i =>
    rw [exec_insert_shared hp ((hp.firstSlot_iff r i).mp hs)]
    exact h
  | none =>
    have hno := hp.not_holds_of_firstSlot hs
    rcases exec_insert_cases p .shared r with heq | ⟨-, -, heq⟩
    · rwa [heq]
    · rw [heq]
      intro i j s hi hj
      rcases holds_append_iff.mp hi with hi | ⟨rfl, rfl⟩ <;>
        rcases holds_append_iff.mp hj with hj | ⟨rfl, hsr⟩
      · exact h i j s hi hj
      · exact absurd (hsr ▸ hi) (hno i)
      · exact absurd hj (hno j)
      · rfl

theorem Shares.unique (h : p.Shares q) (hp : p.Inv) (hu : p.Unique) : q.Unique := by
  induction h with
  | refl => exact hu
  | tail hshares hstep ih =>
    obtain ⟨r, rfl⟩ := hstep
    exact ih.insert (Shares.grows hshares |>.inv hp) r

/-- A call that shares its own record shares everything. -/
theorem shares_perform {c : Call} (hc : c.placement = .shared) : c.perform.Moves Shares := by
  intro p
  rcases h : c.perform.exec p with ⟨e | i, q⟩
  · exact shares_of_perform_error h
  · rcases exec_perform_ok h with ⟨-, rfl⟩ | ⟨p', r, hp', hins⟩
    · exact .refl
    · rw [hc] at hins
      exact hp'.tail ⟨r, by rw [hins]⟩

/-! ## Pools in which everything is shared -/

/-- No record is at two slots, and every record would pass the checks of its kind again. -/
structure Interned (p : Pool) : Prop where
  inv : p.Inv
  unique : p.Unique
  kinds : p.KindsIn p.version
  handles : p.HandlesValid

theorem interned_empty (version : Version) : (empty version).Interned where
  inv := inv_empty version
  unique := unique_empty version
  kinds := kindsIn_empty version
  handles := handlesValid_empty version

theorem Interned.perform (h : p.Interned) {c : Call} (hc : c.placement = .shared) :
    (c.perform.exec p).2.Interned where
  inv := (grows_perform c p).inv h.inv
  unique := (shares_perform hc p).unique h.inv h.unique
  kinds := by
    rw [(grows_perform c p).version_eq]
    exact keepsKinds_perform c p h.kinds
  handles := keepsHandles_perform c p h.handles

/-! ## Constants that are found where they are -/

/-- A valid handle passes its checks again. -/
theorem ValidHandle.handleRecord_eq {kind : HandleKind} {target : Slot}
    (h : p.ValidHandle kind target) :
    p.handleRecord kind target = .ok (.methodHandle kind target) := by
  obtain ⟨-, memberKind, owner, nat, name, descriptor, text, hmember, hnat, hname, hfits⟩ := h
  have hfound : p.memberName target = .ok (memberKind.tag, text) := by
    refine except_bind_eq_ok.mpr ⟨_, record_eq_ok_iff.mpr hmember, ?_⟩
    refine except_bind_eq_ok.mpr ⟨_, record_eq_ok_iff.mpr hnat, ?_⟩
    exact except_bind_eq_ok.mpr ⟨text, text_eq_ok_iff.mpr (record_eq_ok_iff.mpr hname), rfl⟩
  obtain ⟨htag, htext⟩ := HandleKind.accepts_of_fits hfits
  refine except_bind_eq_ok.mpr ⟨_, hfound, ?_⟩
  simp only [htag, htext, Bool.and_self, if_true]
  rfl

/-- What is spelled out as a member is one. -/
theorem plainConstant_eq_member {i : Slot} {kind : MemberKind} {m : Member}
    (h : p.plainConstant i = .ok (.member kind m)) :
    ∃ owner nat, p.record i = .ok (.member kind owner nat) ∧ p.member owner nat = .ok m := by
  obtain ⟨r, hr, hspell⟩ := except_bind_eq_ok.mp h
  cases r with
  | utf8 _ | integer _ | float _ | long _ | double _ => cases hspell
  | named _ _ | dynamic _ _ _ =>
    obtain ⟨_, -, hspell⟩ := except_bind_eq_ok.mp hspell
    cases hspell
  | nameAndType _ _ =>
    obtain ⟨_, -, hspell⟩ := except_bind_eq_ok.mp hspell
    obtain ⟨_, -, hspell⟩ := except_bind_eq_ok.mp hspell
    cases hspell
  | methodHandle _ _ =>
    -- Here a handle is not followed.
    obtain ⟨_, hd, -⟩ := except_bind_eq_ok.mp hspell
    cases hd
  | member _ owner nat =>
    obtain ⟨m', hm, hspell⟩ := except_bind_eq_ok.mp hspell
    cases hspell
    exact ⟨owner, nat, hr, hm⟩

namespace Interned

variable {kind : Tag}

theorem exec_insert (h : p.Interned) {i : Slot} {r : Record} (hr : p.record i = .ok r) :
    (insert .shared r).exec p = (.ok i, p) := by
  have hi := record_eq_ok_iff.mp hr
  apply exec_insert_shared h.inv
  exact ⟨hi, fun j hj => Nat.le_of_eq (h.unique i.toNat j r hi hj)⟩

/-- The usual end of an operation. -/
theorem exec_insert_ref (h : p.Interned) {i : Ref kind} {r : Record}
    (hr : p.record i.slot = .ok r) :
    (do return ⟨← insert .shared r⟩ : Action Error Pool (Ref kind)).exec p = (.ok i, p) :=
  Action.exec_bind_eq_ok.mpr ⟨i.slot, p, h.exec_insert hr, rfl⟩

/-- The version has the kind of every record that is there. -/
theorem exec_require (h : p.Interned) {i : Slot} {r : Record} (hr : p.record i = .ok r) :
    (require r.tag).exec p = (.ok (), p) :=
  exec_require_eq_ok.mpr ⟨h.kinds.available i.toNat r (record_eq_ok_iff.mp hr), rfl⟩

theorem exec_utf8 (h : p.Interned) {i : Ref .utf8} {s : String} (hs : p.text i = .ok s) :
    (utf8 s).exec p = (.ok i, p) :=
  h.exec_insert_ref (text_eq_ok_iff.mp hs)

theorem exec_internNamed (h : p.Interned) {kind : NamedKind} {i : Ref kind.tag}
    {name : Ref .utf8} {s : String} (hr : p.record i.slot = .ok (.named kind name))
    (hs : p.text name = .ok s) : (internNamed .shared kind s).exec p = (.ok i, p) := by
  refine Action.exec_bind_eq_ok.mpr ⟨(), p, h.exec_require hr, ?_⟩
  refine Action.exec_bind_eq_ok.mpr ⟨name, p, h.exec_utf8 hs, ?_⟩
  exact h.exec_insert_ref hr

theorem exec_internNameAndType (h : p.Interned) {i : Ref .nameAndType} {s t : String}
    (hi : p.nameAndType i = .ok (s, t)) :
    (internNameAndType .shared s t).exec p = (.ok i, p) := by
  obtain ⟨name, descriptor, hr, hs, ht⟩ := nameAndType_eq_ok_iff.mp hi
  refine Action.exec_bind_eq_ok.mpr ⟨name, p, h.exec_utf8 hs, ?_⟩
  refine Action.exec_bind_eq_ok.mpr ⟨descriptor, p, h.exec_utf8 ht, ?_⟩
  exact h.exec_insert_ref hr

theorem exec_internMember (h : p.Interned) {kind : MemberKind} {i : Ref kind.tag}
    {owner : Ref .class} {nat : Ref .nameAndType} {m : Member}
    (hr : p.record i.slot = .ok (.member kind owner nat)) (hm : p.member owner nat = .ok m) :
    (internMember .shared kind m).exec p = (.ok i, p) := by
  obtain ⟨howner, hnat⟩ := member_eq_ok_iff.mp hm
  obtain ⟨name, hclass, hname⟩ := className_eq_ok_iff.mp howner
  refine Action.exec_bind_eq_ok.mpr ⟨owner, p, h.exec_internNamed hclass hname, ?_⟩
  refine Action.exec_bind_eq_ok.mpr ⟨nat, p, h.exec_internNameAndType hnat, ?_⟩
  exact h.exec_insert_ref hr

theorem exec_handleAt (h : p.Interned) {kind : HandleKind} {target : Slot}
    {i : Ref .methodHandle} (hr : p.record i.slot = .ok (.methodHandle kind target)) :
    (handleAt .shared kind target).exec p = (.ok i, p) := by
  have hvalid := h.handles i.slot.toNat kind target (record_eq_ok_iff.mp hr)
  have hrequire := h.exec_require hr
  refine Action.exec_bind_eq_ok.mpr ⟨(), p, hrequire, ?_⟩
  refine Action.exec_bind_eq_ok.mpr ⟨.methodHandle kind target, p, ?_, h.exec_insert_ref hr⟩
  rw [Action.exec_inspect, hvalid.handleRecord_eq]

theorem exec_internHandle (h : p.Interned) {kind : HandleKind} {memberKind : MemberKind}
    {target : Slot} {i : Ref .methodHandle} {m : Member}
    (hr : p.record i.slot = .ok (.methodHandle kind target))
    (hm : p.plainConstant target = .ok (.member memberKind m)) :
    (internHandle .shared kind memberKind m).exec p = (.ok i, p) := by
  obtain ⟨owner, nat, htarget, hmember⟩ := plainConstant_eq_member hm
  have hfound : (internMember .shared memberKind m).exec p = (.ok ⟨target⟩, p) :=
    h.exec_internMember htarget hmember
  have hrequire := h.exec_require hr
  refine Action.exec_bind_eq_ok.mpr ⟨(), p, hrequire, ?_⟩
  exact Action.exec_bind_eq_ok.mpr ⟨⟨target⟩, p, hfound, h.exec_handleAt hr⟩

theorem exec_internDynamic (h : p.Interned) {kind : DynamicKind} {bootstrap : UInt16}
    {i : Ref kind.tag} {nat : Ref .nameAndType} {s t : String}
    (hr : p.record i.slot = .ok (.dynamic kind bootstrap nat))
    (hnat : p.nameAndType nat = .ok (s, t)) :
    (internDynamic .shared kind bootstrap s t).exec p = (.ok i, p) := by
  refine Action.exec_bind_eq_ok.mpr ⟨(), p, h.exec_require hr, ?_⟩
  refine Action.exec_bind_eq_ok.mpr ⟨nat, p, h.exec_internNameAndType hnat, ?_⟩
  exact h.exec_insert_ref hr

/-- Interning the meaning of a slot finds the slot. -/
theorem exec_intern (h : p.Interned) {i : Slot} {c : Constant} (hc : p.constant i = .ok c) :
    (intern .shared c).exec p = (.ok i, p) := by
  obtain ⟨r, hr, hspell⟩ := except_bind_eq_ok.mp hc
  -- The result of an operation is a reference of some kind, of which only the slot is wanted.
  have hslot : ∀ {kind : Tag} {act : Action Error Pool (Ref kind)},
      act.exec p = (.ok ⟨i⟩, p) → (Ref.slot <$> act).exec p = (.ok i, p) :=
    fun hact => Action.exec_map_eq_ok.mpr ⟨⟨i⟩, hact, rfl⟩
  cases r with
  | utf8 s =>
    cases hspell
    exact hslot (h.exec_insert_ref hr)
  | integer _ | float _ | long _ | double _ =>
    cases hspell
    exact h.exec_insert hr
  | named kind name =>
    obtain ⟨s, hs, hspell⟩ := except_bind_eq_ok.mp hspell
    cases hspell
    exact hslot (h.exec_internNamed hr hs)
  | member kind owner nat =>
    obtain ⟨m, hm, hspell⟩ := except_bind_eq_ok.mp hspell
    cases hspell
    exact hslot (h.exec_internMember hr hm)
  | nameAndType name descriptor =>
    obtain ⟨s, hs, hspell⟩ := except_bind_eq_ok.mp hspell
    obtain ⟨t, ht, hspell⟩ := except_bind_eq_ok.mp hspell
    cases hspell
    exact hslot (h.exec_internNameAndType (nameAndType_eq_ok_iff.mpr ⟨_, _, hr, hs, ht⟩))
  | methodHandle kind target =>
    obtain ⟨d, hd, hspell⟩ := except_bind_eq_ok.mp hspell
    unfold handleOf at hspell
    split at hspell
    · cases hspell
      exact hslot (h.exec_internHandle hr hd)
    · cases hspell
  | dynamic kind bootstrap nat =>
    obtain ⟨⟨s, t⟩, hnat, hspell⟩ := except_bind_eq_ok.mp hspell
    cases hspell
    exact hslot (h.exec_internDynamic hr hnat)

/-- Slots with the same meaning are the same slot. -/
theorem constant_injective (h : p.Interned) {i j : Slot} {c : Constant}
    (hi : p.constant i = .ok c) (hj : p.constant j = .ok c) : i = j := by
  have hsame := (h.exec_intern hi).symm.trans (h.exec_intern hj)
  exact Except.ok.inj (Prod.mk.inj hsame).1

end Interned

/-! ## Reachable pools -/

/-- What can become of a pool when every call asks for sharing, and every reference that is passed to
it, where its kind matters, is one to something and was given out by this pool. -/
inductive Session.Interning (version : Version) : Session → Prop
  | start : Interning version (.start version)
  | call {s : Session} (c : Call) (hshared : c.placement = .shared) (h : Interning version s)
    (hargs : ∀ x ∈ c.arguments, x ∈ s.given ∧ x.slot ≠ 0) : Interning version (s.call c)
  | cast {s : Session} (kind : Tag) (i : Slot) (h : Interning version s) :
    Interning version (s.cast kind i)

namespace Session

variable {version : Version} {s : Session}

theorem Interning.reachable (h : s.Interning version) : s.Reachable version := by
  induction h with
  | start => exact .start
  | call c _ _ hargs ih => exact .call c ih hargs
  | cast kind i _ ih => exact .cast kind i ih

theorem pool_cast (s : Session) (kind : Tag) (i : Slot) : (s.cast kind i).pool = s.pool := by
  unfold cast
  split <;> rfl

theorem Interning.interned (h : s.Interning version) : s.pool.Interned := by
  induction h with
  | start => exact interned_empty version
  | call c hshared _ _ ih =>
    rw [pool_call]
    exact ih.perform hshared
  | cast kind i _ ih =>
    rw [pool_cast]
    exact ih

end Session

/-- However a pool was used, as long as every call asked for sharing and references that were passed
to it came from it: any two different slots that hold records mean different constants, and the
meaning of every slot that holds a record is found there, and nothing is added, when it is interned
once more. -/
theorem distinct_of_interning {version : Version} {s : Session} (h : s.Interning version) :
    (∀ (i j : Slot) (r t : Record), i ≠ j → s.pool.Holds i.toNat r → s.pool.Holds j.toNat t →
      ∃ c d, s.pool.constant i = .ok c ∧ s.pool.constant j = .ok d ∧ c ≠ d) ∧
    ∀ (i : Slot) (r : Record), s.pool.Holds i.toNat r →
      ∃ c, s.pool.constant i = .ok c ∧ (intern .shared c).exec s.pool = (.ok i, s.pool) := by
  have hinterned := h.interned
  have hsound := h.reachable.good.sound
  constructor
  · intro i j r t hij hi hj
    obtain ⟨c, hc⟩ := hsound.exists_constant hi
    obtain ⟨d, hd⟩ := hsound.exists_constant hj
    refine ⟨c, d, hc, hd, ?_⟩
    rintro rfl
    exact hij (hinterned.constant_injective hc hd)
  · intro i r hi
    obtain ⟨c, hc⟩ := hsound.exists_constant hi
    exact ⟨c, hc, hinterned.exec_intern hc⟩

/-- A string, the class of that name, and a handle to the class, which is refused. -/
def classX : Session :=
  (((Session.start .java8).call (.intern .shared (.utf8 "x"))).call (.classAt ⟨1⟩)).call
    (.handleAt .shared .getField 2)

/-- The name and the class mean different constants, and the class is found by its name. -/
theorem distinct_of_classX :
    classX.Interning .java8 ∧
      (∃ c d, classX.pool.constant 1 = .ok c ∧ classX.pool.constant 2 = .ok d ∧ c ≠ d) ∧
      ∃ c, classX.pool.constant 2 = .ok c ∧
        (intern .shared c).exec classX.pool = (.ok 2, classX.pool) := by
  let named := (empty .java8).append (.utf8 "x")
  -- Neither record is there when it is inserted.
  have hstring : ∀ i, ¬ (empty .java8).Holds i (.utf8 "x") :=
    fun i => not_holds_empty .java8 i _
  have hclass : ∀ i, ¬ named.Holds i (.named .class ⟨1⟩) := by
    intro i hi
    rcases holds_append_iff.mp hi with hold | ⟨-, hnew⟩
    · exact not_holds_empty .java8 i _ hold
    · cases hnew
  have hnamed : named.Inv := (inv_empty .java8).append (by decide)
  have hgiven : (Session.start .java8).call (.intern .shared (.utf8 "x"))
      = ⟨named, [⟨.utf8, 1⟩]⟩ := by
    have hins := (inv_empty .java8).exec_insert_new hstring (by decide) (by decide)
    have hcall : (Call.perform (.intern .shared (.utf8 "x"))).exec (empty .java8)
        = (.ok 1, named) :=
      Action.exec_map_eq_ok.mpr ⟨⟨1⟩, Action.exec_bind_eq_ok.mpr ⟨1, named, hins, rfl⟩, rfl⟩
    simp only [Session.call, Session.start, hcall]
    rfl
  have hpool : classX.pool = named.append (.named .class ⟨1⟩) := by
    have hins := hnamed.exec_insert_new hclass (by decide) (by decide)
    have hcall : (Call.perform (.classAt ⟨1⟩)).exec named
        = (.ok 2, named.append (.named .class ⟨1⟩)) :=
      Action.exec_map_eq_ok.mpr ⟨⟨2⟩, Action.exec_bind_eq_ok.mpr ⟨2, _, hins, rfl⟩, rfl⟩
    have hrefused : (Call.perform (.handleAt .shared .getField 2)).exec
        (named.append (.named .class ⟨1⟩)) = (.error (.invalidHandle .getField .class "" .java8),
          named.append (.named .class ⟨1⟩)) := by
      apply Action.exec_map_eq_error.mpr
      refine Action.exec_bind_eq_error.mpr (.inr ⟨(), _, exec_require_eq_ok.mpr ⟨?_, rfl⟩, ?_⟩)
      · intro since hsince
        cases hsince
        decide
      · exact Action.exec_bind_eq_error.mpr (.inl rfl)
    rw [classX, Session.pool_call, Session.pool_call, hgiven, hcall, hrefused]
  have hinterning : classX.Interning .java8 := by
    refine .call _ rfl (.call _ rfl (.call _ rfl .start nofun) ?_) nofun
    intro x hx
    have hx : x = ⟨.utf8, 1⟩ := by simpa [Call.arguments] using hx
    rw [hx, hgiven]
    exact ⟨List.mem_singleton_self _, by decide⟩
  obtain ⟨hdistinct, hfound⟩ := distinct_of_interning hinterning
  have hone : classX.pool.Holds 1 (.utf8 "x") := by rw [hpool]; rfl
  have htwo : classX.pool.Holds 2 (.named .class ⟨1⟩) := by rw [hpool]; rfl
  exact ⟨hinterning, hdistinct 1 2 _ _ (by decide) hone htwo, hfound 2 _ htwo⟩

end Pool

end JvmClass
