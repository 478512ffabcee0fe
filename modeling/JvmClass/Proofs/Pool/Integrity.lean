import JvmClass.Proofs.Pool.Soundness

/-!
# Referential integrity

Constants that are given by strings, or copied, make their own references.  Some calls of a pool
take references from the caller instead.  These have to come from the pool: a `Session` is a pool
with all the references that it has given out, and a session is `Reachable` when every reference
that was passed to it, where its kind matters, is one of these.  Such a pool is sound.

In a sound pool every record can be spelled out, so that the only slots without a constant are those
at which no record starts.

## Key results

- `Session.Good.call`: references that were given out stay good, and a new one is good
- `Sound.exists_constant`: every record of a sound pool can be spelled out
- `SlotLayout.not_holds_iff`: the slots at which no record starts
- `integrity_of_reachable`: soundness and views of all reachable pools
-/

namespace JvmClass.Pool

open JvmClass.Action (except_bind_eq_ok)

variable {p q : Pool}

/-! ## References that a pool gives out -/

/-- A slot that is meant to hold a constant of some kind. -/
structure AnyRef where
  kind : Tag
  slot : Slot

/-- The references that a caller passes to a call, where their kind matters. -/
def Call.arguments : Call → List AnyRef
  | intern _ _ | handleAt _ _ _ | copy _ _ | copyAs _ _ _ => []
  | classAt name => [⟨.utf8, name.slot⟩]
  | nameAndTypeAt _ name descriptor => [⟨.utf8, name.slot⟩, ⟨.utf8, descriptor.slot⟩]
  | memberAt _ _ owner nat => [⟨.class, owner.slot⟩, ⟨.nameAndType, nat.slot⟩]

/-- The kind of the reference that a call gives out, if that is known. -/
def Call.resultKind? : Call → Option Tag
  | intern _ c => some c.tag
  | classAt _ => some .class
  | nameAndTypeAt _ _ _ => some .nameAndType
  | memberAt _ kind _ _ => some kind.tag
  | handleAt _ _ _ => some .methodHandle
  | copy _ _ => none
  | copyAs kind _ _ => some kind

/-- The reference is to nothing, or to a record of its kind. -/
def Keeps (p : Pool) (x : AnyRef) : Prop := x.slot ≠ 0 → p.HoldsOneOf x.slot [x.kind]

theorem Keeps.grows {x : AnyRef} (h : p.Keeps x) (hq : p.Grows q) : q.Keeps x :=
  fun hx => (h hx).grows hq

/-- A call whose arguments are good leaves a sound pool. -/
theorem leavesSound_perform (h : p.Sound) (hinv : p.Inv) {call : Call}
    (hargs : ∀ x ∈ call.arguments, p.HoldsOneOf x.slot [x.kind]) :
    LeavesSound p call.perform := by
  cases call with
  | intern how c => exact leavesSound_intern h hinv how c
  | classAt name =>
    have hname := hargs _ List.mem_cons_self
    exact (leavesSound_insert_ref h .shared (supports_of_one rfl hname)).map _
  | nameAndTypeAt how name descriptor =>
    have hname := hargs _ List.mem_cons_self
    have hdescriptor := hargs _ (List.mem_cons_of_mem _ List.mem_cons_self)
    exact (leavesSound_nameAndTypeAt h how hname hdescriptor).map _
  | memberAt how kind owner nat =>
    have howner := hargs _ List.mem_cons_self
    have hi := hargs _ (List.mem_cons_of_mem _ List.mem_cons_self)
    exact (leavesSound_memberAt h how kind howner hi).map _
  | handleAt how kind target => exact (leavesSound_handleAt h how kind target).map _
  | copy view i => exact leavesSound_copy h hinv view i
  | copyAs kind view i => exact (leavesSound_copyAs h hinv kind view i).map _

/-- What a call gives out is a reference of its kind. -/
theorem keeps_of_perform (hinv : p.Inv) {call : Call} {i : Slot}
    (h : call.perform.exec p = (.ok i, q)) {kind : Tag} (hkind : call.resultKind? = some kind) :
    q.Keeps ⟨kind, i⟩ := by
  intro hi
  cases call with
  | intern how c =>
    cases hkind
    exact holdsOneOf_of_constant (yields_intern hinv how c i q h).2
  | classAt name =>
    cases hkind
    obtain ⟨a, hok, rfl⟩ := Action.exec_map_eq_ok.mp h
    exact holdsOneOf_of_record (yields_insert_ref hinv .shared _ a q hok).2
  | nameAndTypeAt how name descriptor =>
    cases hkind
    obtain ⟨a, hok, rfl⟩ := Action.exec_map_eq_ok.mp h
    exact holdsOneOf_of_record (yields_insert_ref hinv how _ a q hok).2
  | memberAt how kind owner nat =>
    cases hkind
    obtain ⟨a, hok, rfl⟩ := Action.exec_map_eq_ok.mp h
    exact holdsOneOf_of_record (yields_insert_ref hinv how _ a q hok).2
  | handleAt how kind target =>
    cases hkind
    obtain ⟨a, hok, rfl⟩ := Action.exec_map_eq_ok.mp h
    exact holdsOneOf_of_record (yields_handleAt hinv how kind target a q hok).2
  | copy view j => cases hkind
  | copyAs kind view j =>
    cases hkind
    obtain ⟨a, hok, rfl⟩ := Action.exec_map_eq_ok.mp h
    obtain ⟨hsame, hcopied⟩ := (yields_copyAs hinv kind view j a q hok).2
    -- Nothing is only copied to nothing.
    have hj : j ≠ 0 := by
      rintro rfl
      exact hi ((if_pos rfl).mp hsame)
    obtain ⟨c, hc, rfl⟩ := hcopied hj
    exact holdsOneOf_of_constant hc

/-- A pool, and all references that it has given out. -/
structure Session where
  pool : Pool
  given : List AnyRef

namespace Session

def start (version : Version) : Session := ⟨.empty version, []⟩

/-- Call the pool; a call that succeeds may give out a reference. -/
def call (s : Session) (c : Call) : Session :=
  match c.perform.exec s.pool with
  | (.ok i, pool) => ⟨pool, s.given ++ (c.resultKind?.toList.map (⟨·, i⟩))⟩
  | (.error _, pool) => ⟨pool, s.given⟩

/-- Ask the pool whether a slot holds a record of a kind; if so, it is a reference from then on. -/
def cast (s : Session) (kind : Tag) (i : Slot) : Session :=
  match s.pool.cast kind i with
  | .ok r => { s with given := s.given ++ [⟨kind, r.slot⟩] }
  | .error _ => s

/-- What can become of a pool when every reference that is passed to it, where its kind matters, is
one to something and was given out by this pool. -/
inductive Reachable (version : Version) : Session → Prop
  | start : Reachable version (.start version)
  | call {s : Session} (c : Call) (h : Reachable version s)
    (hargs : ∀ x ∈ c.arguments, x ∈ s.given ∧ x.slot ≠ 0) : Reachable version (s.call c)
  | cast {s : Session} (kind : Tag) (i : Slot) (h : Reachable version s) :
    Reachable version (s.cast kind i)

end Session

/-- Every reference that the pool has given out is still one to nothing or to its kind. -/
structure Session.Good (s : Session) : Prop where
  inv : s.pool.Inv
  sound : s.pool.Sound
  keeps : ∀ x ∈ s.given, s.pool.Keeps x

theorem Session.good_start (version : Version) : (start version).Good where
  inv := inv_empty version
  sound := sound_empty version
  keeps := nofun

theorem Session.pool_call (s : Session) (c : Call) :
    (s.call c).pool = (c.perform.exec s.pool).2 := by
  unfold call
  rcases c.perform.exec s.pool with ⟨e | i, q⟩ <;> rfl

/-- A call keeps what was given out before, and may give out one more. -/
theorem Session.Good.call {s : Session} (h : s.Good) {c : Call}
    (hargs : ∀ x ∈ c.arguments, x ∈ s.given ∧ x.slot ≠ 0) : (s.call c).Good := by
  have hgrows : s.pool.Grows (s.call c).pool := by
    rw [s.pool_call]
    exact grows_perform c s.pool
  have hsound : (s.call c).pool.Sound := by
    rw [s.pool_call]
    exact leavesSound_perform h.sound h.inv fun x hx => h.keeps x (hargs x hx).1 (hargs x hx).2
  refine ⟨hgrows.inv h.inv, hsound, fun x hx => ?_⟩
  have hold : x ∈ s.given → (s.call c).pool.Keeps x := fun hx => (h.keeps x hx).grows hgrows
  unfold Session.call at hx hold ⊢
  rcases hc : c.perform.exec s.pool with ⟨e | i, q⟩
  · rw [hc] at hx hold
    exact hold hx
  · rw [hc] at hx hold
    rcases List.mem_append.mp hx with hx | hx
    · exact hold hx
    · obtain ⟨kind, hkind, rfl⟩ := List.mem_map.mp hx
      exact keeps_of_perform h.inv hc (Option.mem_toList.mp hkind)

theorem Session.Good.cast {s : Session} (h : s.Good) (kind : Tag) (i : Slot) :
    (s.cast kind i).Good := by
  unfold Session.cast
  split
  · rename_i r hcast
    refine ⟨h.inv, h.sound, fun x hx => ?_⟩
    rcases List.mem_append.mp hx with hx | hx
    · exact h.keeps x hx
    · -- The cast has looked at the record.
      rw [List.mem_singleton.mp hx]
      intro _
      unfold Pool.cast at hcast
      split at hcast
      · cases hcast
      · rename_i t ht
        split at hcast
        · rename_i hkind
          cases hcast
          rw [← hkind]
          exact holdsOneOf_of_record ht
        · cases hcast
  · exact h

theorem Session.Reachable.good {version : Version} {s : Session} (h : s.Reachable version) :
    s.Good := by
  induction h with
  | start => exact good_start version
  | call c _ hargs ih => exact ih.call hargs
  | cast kind i _ ih => exact ih.cast kind i

/-! ## Records are spelled out -/

theorem exists_text {i : Ref .utf8} (h : p.HoldsOneOf i.slot [.utf8]) : ∃ s, p.text i = .ok s := by
  obtain ⟨r, hr, hkind⟩ := exists_record h
  obtain ⟨s, rfl⟩ := Record.eq_utf8_of_tag hkind
  exact ⟨s, text_eq_ok_iff.mpr hr⟩

namespace Sound

theorem exists_className (h : p.Sound) {i : Ref .class} (hi : p.HoldsOneOf i.slot [.class]) :
    ∃ s, p.className i = .ok s := by
  obtain ⟨r, hr, hkind⟩ := exists_record hi
  obtain ⟨name, rfl⟩ := Record.eq_class_of_tag hkind
  obtain ⟨s, hs⟩ := exists_text (h.supports (record_eq_ok_iff.mp hr) _ List.mem_cons_self)
  exact ⟨s, className_eq_ok_iff.mpr ⟨name, hr, hs⟩⟩

theorem exists_nameAndType (h : p.Sound) {i : Ref .nameAndType}
    (hi : p.HoldsOneOf i.slot [.nameAndType]) : ∃ s t, p.nameAndType i = .ok (s, t) := by
  obtain ⟨r, hr, hkind⟩ := exists_record hi
  obtain ⟨name, descriptor, rfl⟩ := Record.eq_nameAndType_of_tag hkind
  have hrefs := h.supports (record_eq_ok_iff.mp hr)
  obtain ⟨s, hs⟩ := exists_text (hrefs _ List.mem_cons_self)
  obtain ⟨t, ht⟩ := exists_text (hrefs _ (List.mem_cons_of_mem _ List.mem_cons_self))
  exact ⟨s, t, nameAndType_eq_ok_iff.mpr ⟨name, descriptor, hr, hs, ht⟩⟩

theorem exists_member (h : p.Sound) {kind : MemberKind} {owner : Ref .class}
    {nat : Ref .nameAndType} (hr : p.Supports (.member kind owner nat)) :
    ∃ m, p.member owner nat = .ok m := by
  obtain ⟨s, hs⟩ := h.exists_className (hr _ List.mem_cons_self)
  obtain ⟨name, descriptor, hnat⟩ :=
    h.exists_nameAndType (hr _ (List.mem_cons_of_mem _ List.mem_cons_self))
  exact ⟨⟨s, name, descriptor⟩, member_eq_ok_iff.mpr ⟨hs, hnat⟩⟩

/-- The target of a handle is spelled out as a member. -/
theorem exists_plainConstant (h : p.Sound) {i : Slot} (hi : p.HoldsOneOf i Tag.members) :
    ∃ kind m, p.plainConstant i = .ok (.member kind m) := by
  obtain ⟨r, hr, hkind⟩ := hi
  obtain ⟨kind, owner, nat, rfl⟩ := Record.eq_member_of_tag hkind
  obtain ⟨m, hm⟩ := h.exists_member (h.supports hr)
  refine ⟨kind, m, except_bind_eq_ok.mpr ⟨_, record_eq_ok_iff.mpr hr, ?_⟩⟩
  exact except_bind_eq_ok.mpr ⟨m, hm, rfl⟩

/-- Every record of a sound pool can be spelled out. -/
theorem exists_constant (h : p.Sound) {i : Slot} {r : Record} (hi : p.Holds i.toNat r) :
    ∃ c, p.constant i = .ok c := by
  suffices hspell : ∃ c, p.spellOut p.plainConstant r = .ok c by
    obtain ⟨c, hc⟩ := hspell
    exact ⟨c, constant_of_record (record_eq_ok_iff.mpr hi) hc⟩
  have hrefs := h.supports hi
  cases r with
  | utf8 s => exact ⟨.utf8 s, rfl⟩
  | integer value => exact ⟨.integer value, rfl⟩
  | float bits => exact ⟨.float bits, rfl⟩
  | long value => exact ⟨.long value, rfl⟩
  | double bits => exact ⟨.double bits, rfl⟩
  | named kind name =>
    obtain ⟨s, hs⟩ := exists_text (hrefs _ List.mem_cons_self)
    exact ⟨.named kind s, except_bind_eq_ok.mpr ⟨s, hs, rfl⟩⟩
  | member kind owner nat =>
    obtain ⟨m, hm⟩ := h.exists_member hrefs
    exact ⟨.member kind m, except_bind_eq_ok.mpr ⟨m, hm, rfl⟩⟩
  | nameAndType name descriptor =>
    obtain ⟨s, hs⟩ := exists_text (hrefs _ List.mem_cons_self)
    obtain ⟨t, ht⟩ := exists_text (hrefs _ (List.mem_cons_of_mem _ List.mem_cons_self))
    refine ⟨.nameAndType s t, except_bind_eq_ok.mpr ⟨s, hs, ?_⟩⟩
    exact except_bind_eq_ok.mpr ⟨t, ht, rfl⟩
  | methodHandle kind target =>
    obtain ⟨memberKind, m, hm⟩ := h.exists_plainConstant (hrefs _ List.mem_cons_self)
    exact ⟨.methodHandle kind memberKind m, except_bind_eq_ok.mpr ⟨_, hm, rfl⟩⟩
  | dynamic kind bootstrap nat =>
    obtain ⟨s, t, hnat⟩ := h.exists_nameAndType (hrefs _ List.mem_cons_self)
    exact ⟨.dynamic kind bootstrap s t, except_bind_eq_ok.mpr ⟨_, hnat, rfl⟩⟩

end Sound

/-! ## Slots without a record -/

theorem constant_eq_error {i : Slot} (h : ∀ r, ¬ p.Holds i.toNat r) :
    p.constant i = .error (.badSlot i (UInt16.ofNat p.slots.size)) := by
  have hrecord : p.record i = .error (.badSlot i (UInt16.ofNat p.slots.size)) := by
    unfold record
    split
    · rename_i r hr
      exact absurd hr (h r)
    · rfl
  unfold constant
  rw [hrecord]
  rfl

/-- No record starts at slot 0, at the second slot of a wide record, and behind the last slot. -/
theorem SlotLayout.not_holds_iff (h : p.SlotLayout) (i : Nat) :
    (∀ r, ¬ p.Holds i r) ↔
      i = 0 ∨ (∃ j r, i = j + 1 ∧ p.Holds j r ∧ (r.tag = .long ∨ r.tag = .double)) ∨
        p.slots.size ≤ i := by
  constructor
  · intro hno
    by_cases hlt : i < p.slots.size
    · -- The slot is there, and it is empty.
      have hnone : p.slots[i]? = some none := by
        rcases hslot : p.slots[i] with _ | r
        · rw [Array.getElem?_eq_getElem hlt, hslot]
        · refine absurd ?_ (hno r)
          show p.slots[i]? = some (some r)
          rw [Array.getElem?_eq_getElem hlt, hslot]
      cases i with
      | zero => exact .inl rfl
      | succ j =>
        obtain ⟨r, hr, hwide⟩ := (h.unusable_iff j).mp hnone
        exact .inr (.inl ⟨j, r, rfl, hr, hwide⟩)
    · exact .inr (.inr (Nat.le_of_not_lt hlt))
  · rintro (rfl | ⟨j, s, rfl, hs, hwide⟩ | hle) r hr
    · exact absurd (h.pos_of_holds hr) (Nat.lt_irrefl 0)
    · have hnone := (h.unusable_iff j).mpr ⟨s, hs, hwide⟩
      rw [Holds, hnone] at hr
      cases hr
    · have hlt := hr.lt_size
      omega

/-! ## Reachable pools -/

/-- However a pool was used, as long as references that were passed to it came from it: every record
refers to earlier slots that hold records of the kinds it needs.  So the constant at a slot is
spelled out wherever a record starts, and it is refused everywhere else, which is at slot 0, at the
second slot of a wide constant and behind the end. -/
theorem integrity_of_reachable {version : Version} {s : Session} (h : s.Reachable version) :
    s.pool.Sound ∧
    (∀ (i : Slot) (r : Record), s.pool.Holds i.toNat r → ∃ c, s.pool.constant i = .ok c) ∧
    (∀ i : Slot, (∀ r, ¬ s.pool.Holds i.toNat r) →
      s.pool.constant i = .error (.badSlot i (UInt16.ofNat s.pool.slots.size))) ∧
    ∀ i : Slot, (∀ r, ¬ s.pool.Holds i.toNat r) ↔
      i = 0 ∨ (∃ j r, i.toNat = j + 1 ∧ s.pool.Holds j r ∧ (r.tag = .long ∨ r.tag = .double)) ∨
        s.pool.slots.size ≤ i.toNat := by
  have hgood := h.good
  refine ⟨hgood.sound, fun i r hr => hgood.sound.exists_constant hr, ?_, ?_⟩
  · intro i hno
    exact constant_eq_error hno
  · intro i
    rw [← UInt16.toNat_inj]
    exact hgood.inv.not_holds_iff i.toNat

/-- A pool with a string. -/
def named : Session := (Session.start .java8).call (.intern .fresh (.utf8 "x"))

/-- The same with a name and descriptor made of the string, and a number.  In between a handle to
the name and descriptor was refused. -/
def described : Session :=
  ((named.call (.nameAndTypeAt .fresh ⟨1⟩ ⟨1⟩)).call (.handleAt .fresh .getField 2)).call
    (.intern .fresh (.long 7))

theorem integrity_of_described :
    described.Reachable .java8 ∧ described.pool.Sound ∧
      (∃ c, described.pool.constant 2 = .ok c) ∧ (∃ c, described.pool.constant 3 = .ok c) ∧
      described.pool.constant 4 = .error (.badSlot 4 5) := by
  have hgiven : named.given = [⟨.utf8, 1⟩] := by rfl
  have hnamed : named.Reachable .java8 := .call _ .start nofun
  have hreach : described.Reachable .java8 := by
    refine .call _ (.call _ (.call _ hnamed ?_) nofun) nofun
    intro x hx
    have hx : x = ⟨.utf8, 1⟩ := by simpa [Call.arguments] using hx
    rw [hx, hgiven]
    exact ⟨List.mem_singleton_self _, by decide⟩
  obtain ⟨hsound, hspelled, hrefused, hwhere⟩ := integrity_of_reachable hreach
  have hpair : described.pool.slots[2]? = some (some (.nameAndType ⟨1⟩ ⟨1⟩)) := by decide +kernel
  have hlong : described.pool.slots[3]? = some (some (.long 7)) := by decide +kernel
  have hempty := (hwhere 4).mpr (.inr (.inl ⟨3, .long 7, rfl, hlong, .inl rfl⟩))
  exact ⟨hreach, hsound, hspelled 2 _ hpair, hspelled 3 _ hlong, hrefused 4 hempty⟩

end JvmClass.Pool
