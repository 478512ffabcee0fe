import JvmClass.Pool.Basic
import Std.Data.HashMap.Lemmas

/-!
# The invariant of a constant pool

A pool is laid out in slots of which only some start a record, and it keeps a table from records to
slots beside them.  `SlotLayout` says which slots are unusable and how many there are; `Inv` adds
that the table gives for every record the least slot that holds it, and nothing for a record that no
slot holds.  Appending a record for which there is room keeps both.

## Key results

- `Inv.append`: an appended record keeps the invariant
- `exec_insert_shared`: a record that the pool holds is found at its least slot
- `exec_insert_append`: any other record goes to the end, or is refused there
-/

namespace JvmClass

/-- Only `long` and `double` constants take up two slots. -/
theorem Record.width_eq_two_iff (r : Record) :
    r.width = 2 ↔ r.tag = .long ∨ r.tag = .double := by
  unfold Record.width
  cases r.tag <;> simp [Tag.width]

theorem Record.width_le_two (r : Record) : r.width ≤ 2 := by
  unfold Record.width
  cases r.tag <;> simp [Tag.width]

theorem Record.eq_utf8_of_tag {r : Record} (h : r.tag = .utf8) : ∃ text, r = .utf8 text := by
  cases r with
  | utf8 text => exact ⟨text, rfl⟩
  | named kind => cases kind <;> cases h
  | member kind => cases kind <;> cases h
  | dynamic kind => cases kind <;> cases h
  | _ => cases h

/-- The number of bytes of the string that a record holds, if it holds one. -/
def Record.textSize (version : Version) : Record → Nat
  | utf8 text => (ModifiedUtf8.encode version text).length
  | _ => 0

namespace Pool

/-! ## Slots that hold a record -/

/-- A record starts at the slot with the given number. -/
def Holds (p : Pool) (i : Nat) (r : Record) : Prop := p.slots[i]? = some (some r)

/-- The given slot is the least that holds the record. -/
def IsFirst (p : Pool) (r : Record) (i : Nat) : Prop := p.Holds i r ∧ ∀ j, p.Holds j r → i ≤ j

theorem Holds.lt_size {p : Pool} {i : Nat} {r : Record} (h : p.Holds i r) : i < p.slots.size :=
  (Array.getElem?_eq_some_iff.mp h).1

/-- Of the slots that hold a record, one is the least. -/
theorem Holds.exists_isFirst {p : Pool} {r : Record} {i : Nat} (h : p.Holds i r) :
    ∃ j, p.IsFirst r j := by
  induction i using Nat.strongRecOn with
  | ind i ih =>
    by_cases hi : ∃ j, j < i ∧ p.Holds j r
    · obtain ⟨j, hj, hr⟩ := hi
      exact ih j hj hr
    · exact ⟨i, h, fun j hj => Nat.le_of_not_lt fun hlt => hi ⟨j, hlt, hj⟩⟩

theorem record_eq_ok_iff {p : Pool} {i : Slot} {r : Record} :
    p.record i = .ok r ↔ p.Holds i.toNat r := by
  unfold record Holds
  split
  · rename_i s h
    rw [h]
    simp
  · rename_i h
    simp only [reduceCtorEq, false_iff]
    exact h r

/-! ## The invariant -/

/-- Which slots of a pool are unusable, and how many slots it has at most. -/
structure SlotLayout (p : Pool) : Prop where
  zero_unusable : p.slots[0]? = some none
  unusable_iff : ∀ i, p.slots[i + 1]? = some none ↔
    ∃ r, p.Holds i r ∧ (r.tag = .long ∨ r.tag = .double)
  used_le : p.used ≤ 65534

/-- The slots are laid out as they have to be, and the table of shared records is in step with
them. -/
structure Inv (p : Pool) : Prop extends SlotLayout p where
  firstSlot_iff : ∀ r i, p.firstSlot[r]? = some i ↔ p.IsFirst r i.toNat

theorem SlotLayout.size_pos {p : Pool} (h : p.SlotLayout) : 0 < p.slots.size :=
  (Array.getElem?_eq_some_iff.mp h.zero_unusable).1

theorem SlotLayout.size_le {p : Pool} (h : p.SlotLayout) : p.slots.size ≤ 65535 := by
  have := h.used_le
  unfold used at this
  omega

/-- The number of the next slot fits its type, so that it is the slot that it says. -/
theorem SlotLayout.toNat_nextSlot {p : Pool} (h : p.SlotLayout) :
    p.nextSlot.toNat = p.slots.size := by
  have := h.size_le
  rw [nextSlot, UInt16.toNat_ofNat']
  omega

/-- Slot 0 holds nothing. -/
theorem SlotLayout.pos_of_holds {p : Pool} (h : p.SlotLayout) {i : Nat} {r : Record}
    (hr : p.Holds i r) : 0 < i := by
  refine Nat.pos_of_ne_zero fun hi => ?_
  subst hi
  have hzero := h.zero_unusable
  unfold Holds at hr
  rw [hr] at hzero
  cases hzero

theorem not_holds_empty (version : Version) (i : Nat) (r : Record) :
    ¬ (empty version).Holds i r := by
  cases i <;> simp [Holds, empty]

theorem inv_empty (version : Version) : (empty version).Inv where
  zero_unusable := rfl
  unusable_iff i := by
    simp only [not_holds_empty, false_and, exists_false, iff_false]
    simp [empty]
  used_le := by simp [used, empty]
  firstSlot_iff r i := by
    simp only [IsFirst, not_holds_empty, false_and, iff_false]
    simp [empty]

/-! ## Appending a record -/

theorem toList_slots_append (p : Pool) (r : Record) :
    (p.append r).slots.toList = p.slots.toList ++ some r :: List.replicate (r.width - 1) none := by
  have hpos := r.width_pos
  have hle := r.width_le_two
  unfold append
  split
  · rename_i h
    simp [h]
  · have hone : r.width - 1 = 0 := by omega
    simp [hone]

theorem size_slots_append (p : Pool) (r : Record) :
    (p.append r).slots.size = p.slots.size + r.width := by
  have hpos := r.width_pos
  rw [← Array.length_toList, toList_slots_append]
  simp
  omega

/-- The slots before an appended record stay as they were. -/
theorem getElem?_slots_append_lt {p : Pool} {i : Nat} (r : Record) (hi : i < p.slots.size) :
    (p.append r).slots[i]? = p.slots[i]? := by
  rw [← Array.getElem?_toList, toList_slots_append,
    List.getElem?_append_left (by simpa using hi), Array.getElem?_toList]

theorem getElem?_slots_append_size (p : Pool) (r : Record) :
    (p.append r).slots[p.slots.size]? = some (some r) := by
  rw [← Array.getElem?_toList, toList_slots_append, List.getElem?_append_right (by simp)]
  simp

/-- Whatever slot follows the first one of an appended record is unusable. -/
theorem getElem?_slots_append_gt {p : Pool} {i : Nat} (r : Record) (hi : p.slots.size < i) :
    (p.append r).slots[i]? = if i < p.slots.size + r.width then some none else none := by
  have hpos := r.width_pos
  -- Count from the first slot of the record.
  obtain ⟨k, rfl⟩ : ∃ k, i = p.slots.size + (k + 1) := ⟨i - p.slots.size - 1, by omega⟩
  rw [← Array.getElem?_toList, toList_slots_append, List.getElem?_append_right (by simp)]
  simp only [Array.length_toList, Nat.add_sub_cancel_left, List.getElem?_cons_succ,
    List.getElem?_replicate]
  congr 1
  exact propext (by omega)

theorem holds_append_iff {p : Pool} {i : Nat} {r s : Record} :
    (p.append r).Holds i s ↔ p.Holds i s ∨ i = p.slots.size ∧ s = r := by
  unfold Holds
  rcases Nat.lt_trichotomy i p.slots.size with hlt | rfl | hgt
  · rw [getElem?_slots_append_lt r hlt]
    exact ⟨.inl, fun h => h.elim id fun h => by omega⟩
  · rw [getElem?_slots_append_size]
    simp [eq_comm]
  · rw [getElem?_slots_append_gt r hgt]
    have hnone : p.slots[i]? = none := by simp; omega
    simp only [hnone, reduceCtorEq, false_or]
    constructor
    · intro h
      split at h <;> cases h
    · rintro ⟨h, -⟩
      omega

theorem isFirst_append_iff {p : Pool} {r s : Record} {i : Nat} :
    (p.append r).IsFirst s i ↔
      p.IsFirst s i ∨ (s = r ∧ i = p.slots.size ∧ ∀ j, ¬ p.Holds j r) := by
  constructor
  · rintro ⟨hi, hmin⟩
    rcases holds_append_iff.mp hi with hold | ⟨rfl, rfl⟩
    · exact .inl ⟨hold, fun j hj => hmin j (holds_append_iff.mpr (.inl hj))⟩
    · refine .inr ⟨rfl, rfl, fun j hj => ?_⟩
      have := hmin j (holds_append_iff.mpr (.inl hj))
      have := hj.lt_size
      omega
  · rintro (⟨hi, hmin⟩ | ⟨rfl, rfl, hnew⟩)
    · refine ⟨holds_append_iff.mpr (.inl hi), fun j hj => ?_⟩
      rcases holds_append_iff.mp hj with hold | ⟨rfl, -⟩
      · exact hmin j hold
      · exact Nat.le_of_lt hi.lt_size
    · refine ⟨holds_append_iff.mpr (.inr ⟨rfl, rfl⟩), fun j hj => ?_⟩
      rcases holds_append_iff.mp hj with hold | ⟨rfl, -⟩
      · exact absurd hold (hnew j)
      · exact Nat.le_refl _

/-- The slot after an appended record is unusable only if the record takes up two. -/
private theorem unusable_iff_append {p : Pool} (h : p.SlotLayout) (r : Record) (i : Nat) :
    (p.append r).slots[i + 1]? = some none ↔
      ∃ s, (p.append r).Holds i s ∧ (s.tag = .long ∨ s.tag = .double) := by
  have hpos := r.width_pos
  rcases Nat.lt_trichotomy (i + 1) p.slots.size with hlt | heq | hgt
  · -- Both slots were there before.
    rw [getElem?_slots_append_lt r hlt, h.unusable_iff i]
    simp only [holds_append_iff]
    constructor
    · rintro ⟨s, hs, hw⟩
      exact ⟨s, .inl hs, hw⟩
    · rintro ⟨s, hs | ⟨hi, -⟩, hw⟩
      · exact ⟨s, hs, hw⟩
      · omega
  · -- The slot is where the new record starts.
    rw [heq, getElem?_slots_append_size]
    simp only [Option.some.injEq, reduceCtorEq, false_iff]
    rintro ⟨s, hs, hw⟩
    rcases holds_append_iff.mp hs with hold | ⟨hi, -⟩
    · -- The slot before the end holds no wide record: it would have its second slot there.
      have hnone := (h.unusable_iff i).mpr ⟨s, hold, hw⟩
      have := (Array.getElem?_eq_some_iff.mp hnone).1
      omega
    · omega
  · -- The slot is behind the first one of the new record.
    rw [getElem?_slots_append_gt r hgt]
    constructor
    · intro hsome
      split at hsome
      · rename_i hi
        have hle := r.width_le_two
        have hiw : i = p.slots.size := by omega
        have hw : r.width = 2 := by omega
        exact ⟨r, holds_append_iff.mpr (.inr ⟨hiw, rfl⟩), r.width_eq_two_iff.mp hw⟩
      · cases hsome
    · rintro ⟨s, hs, hw⟩
      rcases holds_append_iff.mp hs with hold | ⟨rfl, rfl⟩
      · have := hold.lt_size
        omega
      · have := s.width_eq_two_iff.mpr hw
        rw [if_pos (by omega)]

/-- If any slot held the record, the table would know the least of these. -/
theorem Inv.not_holds_of_firstSlot {p : Pool} (h : p.Inv) {r : Record}
    (hnone : p.firstSlot[r]? = none) (j : Nat) : ¬ p.Holds j r := by
  intro hj
  obtain ⟨k, hk⟩ := hj.exists_isFirst
  have hkle := hk.1.lt_size
  have hsize := h.size_le
  have hkt : (UInt16.ofNat k).toNat = k := by
    rw [UInt16.toNat_ofNat']
    omega
  have hsome := (h.firstSlot_iff r (UInt16.ofNat k)).mpr (hkt.symm ▸ hk)
  rw [hnone] at hsome
  cases hsome

theorem Inv.append {p : Pool} (h : p.Inv) {r : Record} (hroom : p.slots.size + r.width ≤ 65535) :
    (p.append r).Inv where
  zero_unusable := by rw [getElem?_slots_append_lt r h.size_pos, h.zero_unusable]
  unusable_iff i := unusable_iff_append h.toSlotLayout r i
  used_le := by
    unfold used
    rw [size_slots_append]
    omega
  firstSlot_iff s i := by
    -- The table learns of the record only if it did not know it yet.
    have htable : (p.append r).firstSlot = p.firstSlot.insertIfNew r p.nextSlot := rfl
    rw [htable, isFirst_append_iff, Std.HashMap.getElem?_insertIfNew]
    split
    · rename_i hnew
      have hrs : r = s := eq_of_beq hnew.1
      subst hrs
      have hnone : p.firstSlot[r]? = none := Std.HashMap.getElem?_eq_none hnew.2
      have hno := h.not_holds_of_firstSlot hnone
      rw [Option.some.injEq, ← UInt16.toNat_inj, h.toNat_nextSlot]
      constructor
      · intro hi
        exact .inr ⟨rfl, hi.symm, hno⟩
      · rintro (hf | ⟨-, hi, -⟩)
        · exact absurd hf.1 (hno _)
        · exact hi.symm
    · rename_i hold
      rw [h.firstSlot_iff s i]
      refine ⟨.inl, ?_⟩
      rintro (hf | ⟨rfl, -, hno⟩)
      · exact hf
      · -- The table knows the record, so some slot holds it.
        exfalso
        have hmem : s ∈ p.firstSlot :=
          Classical.byContradiction fun hmem => hold ⟨beq_self_eq_true s, hmem⟩
        have hget := Std.HashMap.getElem?_eq_some_getElem hmem
        exact hno _ ((h.firstSlot_iff s _).mp hget).1

/-! ## Inserting a record -/

/-- A string that is too long is found first, then a lack of slots. -/
theorem checkRoom_eq (p : Pool) (r : Record) :
    p.checkRoom r =
      if 65535 < r.textSize p.version then .error (.textTooLong (r.textSize p.version))
      else if 65535 < p.slots.size + r.width then .error (.poolOverflow r p.slots.size)
      else .ok () := by
  cases r with
  | utf8 text =>
    have hsize : (Record.utf8 text).textSize p.version
        = (ModifiedUtf8.encode p.version text).length := rfl
    rw [hsize]
    simp only [checkRoom, ModifiedUtf8.encodeBounded]
    by_cases htext : (ModifiedUtf8.encode p.version text).length ≤ 65535
    · rw [if_pos htext, if_neg (Nat.not_lt.mpr htext)]
      rfl
    · rw [if_neg htext, if_pos (Nat.not_le.mp htext)]
      rfl
  | _ => rfl

/-- The table knows no slot for a record that the pool does not hold. -/
theorem Inv.firstSlot_eq_none {p : Pool} (h : p.Inv) {r : Record} (hr : ∀ i, ¬ p.Holds i r) :
    p.firstSlot[r]? = none := by
  cases hf : p.firstSlot[r]? with
  | none => rfl
  | some i => exact absurd ((h.firstSlot_iff r i).mp hf).1 (hr _)

/-- A record that the pool holds is shared at its least slot. -/
theorem exec_insert_shared {p : Pool} (h : p.Inv) {r : Record} {i : Slot}
    (hi : p.IsFirst r i.toNat) : (insert .shared r).exec p = (.ok i, p) := by
  have hf := (h.firstSlot_iff r i).mpr hi
  simp [insert, shared?, hf]

/-- What becomes of a record that is not shared. -/
theorem exec_insert_append {p : Pool} {how : Placement} {r : Record}
    (h : p.shared? how r = none) :
    (insert how r).exec p =
      if 65535 < r.textSize p.version then (.error (.textTooLong (r.textSize p.version)), p)
      else if 65535 < p.slots.size + r.width then (.error (.poolOverflow r p.slots.size), p)
      else (.ok p.nextSlot, p.append r) := by
  simp only [insert, Action.exec_ofFn, h, checkRoom_eq]
  by_cases htext : 65535 < r.textSize p.version
  · rw [if_pos htext, if_pos htext]
  · rw [if_neg htext, if_neg htext]
    by_cases hroom : 65535 < p.slots.size + r.width
    · rw [if_pos hroom, if_pos hroom]
    · rw [if_neg hroom, if_neg hroom]

/-- A record whose string is not too long and for which there is room is not refused. -/
theorem exists_exec_insert_ok {p : Pool} (how : Placement) {r : Record}
    (htext : r.textSize p.version ≤ 65535) (hroom : p.slots.size + r.width ≤ 65535) :
    ∃ i q, (insert how r).exec p = (.ok i, q) ∧ q.version = p.version ∧
      q.slots.size ≤ p.slots.size + r.width := by
  cases hs : p.shared? how r with
  | some i =>
    refine ⟨i, p, ?_, rfl, by omega⟩
    simp [insert, hs]
  | none =>
    refine ⟨p.nextSlot, p.append r, ?_, rfl, ?_⟩
    · rw [exec_insert_append hs, if_neg (by omega), if_neg (by omega)]
    · exact Nat.le_of_eq (size_slots_append p r)

/-- An insertion leaves the pool as it is, or appends a record for which there is room. -/
theorem exec_insert_cases (p : Pool) (how : Placement) (r : Record) :
    ((insert how r).exec p).2 = p ∨
      p.slots.size + r.width ≤ 65535 ∧ r.textSize p.version ≤ 65535 ∧
        ((insert how r).exec p).2 = p.append r := by
  cases hs : p.shared? how r with
  | some i => left; simp [insert, hs]
  | none =>
    rw [exec_insert_append hs]
    split
    · exact .inl rfl
    · split
      · exact .inl rfl
      · exact .inr ⟨by omega, by omega, rfl⟩

/-- After a successful insertion the record stands at the slot that was returned. -/
theorem Inv.holds_of_insert {p q : Pool} (h : p.Inv) {how : Placement} {r : Record} {i : Slot}
    (hi : (Pool.insert how r).exec p = (.ok i, q)) : q.Holds i.toNat r := by
  cases hs : p.shared? how r with
  | some j =>
    have hj : p.firstSlot[r]? = some j := by
      cases how with
      | shared => exact hs
      | fresh => cases hs
    simp only [Pool.insert, Action.exec_ofFn, hs, Prod.mk.injEq, Except.ok.injEq] at hi
    obtain ⟨rfl, rfl⟩ := hi
    exact ((h.firstSlot_iff r j).mp hj).1
  | none =>
    rw [exec_insert_append hs] at hi
    split at hi
    · cases hi
    · split at hi
      · cases hi
      · obtain ⟨hok, rfl⟩ := Prod.mk.inj hi
        rw [← Except.ok.inj hok, holds_append_iff, h.toNat_nextSlot]
        exact .inr ⟨rfl, rfl⟩

end Pool

end JvmClass
