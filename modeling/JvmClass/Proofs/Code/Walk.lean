import JvmClass.Proofs.Action
import JvmClass.Proofs.Byte.BigEndian
import JvmClass.Proofs.Byte.Reader

/-!
# Walks over code

The size of an instruction is decided by its own bytes alone, so that code is a sequence of
instructions in at most one way.  `Walk offset is` says that instructions stand one after the other
from `offset` on and that each has the size that its opcode and operands ask for; a listing without
an error is such a walk, and the bytes of a walk are listed as it is.

## Key results

- `instructionSize_congr`: only the bytes of an instruction decide its size
- `step_eq_ok_iff`: when an instruction is found at a position
- `listing_eq_map_iff`: listings without an error are walks
-/

namespace JvmClass

open JvmClass.Action (except_bind_eq_ok except_throw_ne_ok except_pure_eq_ok)

theorem Opcode.byte_eq_of_ofByte? {byte : UInt8} {op : Opcode} (h : ofByte? byte = some op) :
    op.byte = byte := by
  unfold ofByte? at h
  split at h <;> cases h
  rfl

namespace Listing

/-! ## The size of an instruction -/

theorem switchField_eq (offset i : Nat) (bytes : List UInt8) :
    switchField offset i bytes =
      if i + 4 ≤ bytes.length then .ok (BigEndian.decodeInt ((bytes.drop i).take 4))
      else .error (.malformedCode offset .truncatedSwitch) := by
  unfold switchField splitExactly
  rw [List.splitAt_eq]
  by_cases h : i + 4 ≤ bytes.length
  · have hlen : ((bytes.drop i).take 4).length = 4 := by
      rw [List.length_take, List.length_drop]
      omega
    simp only [hlen, if_true, h]
  · have hlen : ((bytes.drop i).take 4).length ≠ 4 := by
      rw [List.length_take, List.length_drop]
      omega
    simp only [hlen, if_false, h]

/-- A field that lies within the first `n` bytes is decided by them. -/
theorem switchField_congr {offset i n : Nat} {bytes bytes' : List UInt8} {z : Int}
    (hbytes : bytes.take n = bytes'.take n) (hi : i + 4 ≤ n)
    (h : switchField offset i bytes = .ok z) : switchField offset i bytes' = .ok z := by
  rw [switchField_eq] at h ⊢
  have hlen := congrArg List.length hbytes
  rw [List.length_take, List.length_take] at hlen
  have hfield : ∀ xs : List UInt8, (xs.drop i).take 4 = ((xs.take n).drop i).take 4 := by
    intro xs
    rw [List.drop_take, List.take_take]
    congr 1
    omega
  split at h
  · rw [if_pos (by omega), hfield bytes', ← hbytes, ← hfield bytes]
    exact h
  · cases h

theorem switchField_bounds {offset i : Nat} {bytes : List UInt8} {z : Int}
    (h : switchField offset i bytes = .ok z) : -2147483648 ≤ z ∧ z < 2147483648 := by
  rw [switchField_eq] at h
  split at h
  · cases h
    have hlen : ((bytes.drop i).take 4).length = 4 := by
      rw [List.length_take, List.length_drop]
      omega
    obtain ⟨hlow, hhigh⟩ := BigEndian.decodeInt_bounds ((bytes.drop i).take 4)
    rw [hlen] at hlow hhigh
    omega
  · cases h

theorem instructionSize_pos {offset n : Nat} {op : Opcode} {bytes : List UInt8}
    (h : instructionSize offset op bytes = .ok n) : 1 ≤ n := by
  unfold instructionSize at h
  split at h
  · split at h
    · split at h
      · cases h; omega
      · split at h <;> cases h
        omega
    · cases h
  · obtain ⟨low, -, h⟩ := except_bind_eq_ok.mp h
    obtain ⟨high, -, h⟩ := except_bind_eq_ok.mp h
    split at h
    · exact absurd h nofun
    · cases h
      omega
  · obtain ⟨pairs, -, h⟩ := except_bind_eq_ok.mp h
    split at h
    · exact absurd h nofun
    · cases h
      omega
  · cases h
    omega

/-- The largest instruction is a switch with a target for every key. -/
theorem instructionSize_le {offset n : Nat} {op : Opcode} {bytes : List UInt8}
    (h : instructionSize offset op bytes = .ok n) : n ≤ 17179869200 := by
  unfold instructionSize at h
  split at h
  · split at h
    · split at h
      · cases h; omega
      · split at h <;> cases h
        omega
    · cases h
  · obtain ⟨low, hlow, h⟩ := except_bind_eq_ok.mp h
    obtain ⟨high, hhigh, h⟩ := except_bind_eq_ok.mp h
    have := switchField_bounds hlow
    have := switchField_bounds hhigh
    split at h
    · exact absurd h nofun
    · cases h
      omega
  · obtain ⟨pairs, hpairs, h⟩ := except_bind_eq_ok.mp h
    have := switchField_bounds hpairs
    split at h
    · exact absurd h nofun
    · cases h
      omega
  · cases h
    cases op.kind <;> decide

/-- Only the bytes of an instruction decide its size. -/
theorem instructionSize_congr {offset n : Nat} {op : Opcode} {bytes bytes' : List UInt8}
    (hbytes : bytes.take n = bytes'.take n) (h : instructionSize offset op bytes = .ok n) :
    instructionSize offset op bytes' = .ok n := by
  unfold instructionSize at h ⊢
  cases hkind : op.kind with
  | wideModifier =>
    simp only [hkind] at h ⊢
    -- Both sizes of a modified instruction reach beyond its second byte.
    have hsecond : 1 < n → bytes'[1]? = bytes[1]? := by
      intro hn
      have := congrArg (·[1]?) hbytes
      simpa [List.getElem?_take, hn] using this.symm
    have hn : 1 < n := by
      split at h
      · split at h
        · cases h; omega
        · split at h <;> cases h
          omega
      · cases h
    rw [hsecond hn]
    exact h
  | tableSwitch =>
    simp only [hkind] at h ⊢
    obtain ⟨low, hlow, h⟩ := except_bind_eq_ok.mp h
    obtain ⟨high, hhigh, h⟩ := except_bind_eq_ok.mp h
    -- The fields that the size is computed from are part of the instruction.
    have hn : 1 + (3 - offset % 4) + 12 ≤ n := by
      split at h
      · exact absurd h nofun
      · cases h
        omega
    refine except_bind_eq_ok.mpr ⟨low, switchField_congr hbytes (by omega) hlow, ?_⟩
    exact except_bind_eq_ok.mpr ⟨high, switchField_congr hbytes (by omega) hhigh, h⟩
  | lookupSwitch =>
    simp only [hkind] at h ⊢
    obtain ⟨pairs, hpairs, h⟩ := except_bind_eq_ok.mp h
    have hn : 1 + (3 - offset % 4) + 8 ≤ n := by
      split at h
      · exact absurd h nofun
      · cases h
        omega
    exact except_bind_eq_ok.mpr ⟨pairs, switchField_congr hbytes (by omega) hpairs, h⟩
  | _ => simpa only [hkind] using h

end Listing

/-! ## Steps -/

/-- The instruction has the size that its opcode and operands ask for. -/
def CodedInstruction.Sized (i : CodedInstruction) : Prop :=
  Listing.instructionSize i.offset i.op i.encode = .ok i.encode.length

namespace Listing

/-- An instruction is found at a position if it stands there whole. -/
theorem step_eq_ok_iff {offset : Nat} {bytes rest : List UInt8} {i : CodedInstruction} :
    step offset bytes = .ok (i, rest) ↔
      i.offset = offset ∧ bytes = i.encode ++ rest ∧ i.Sized := by
  unfold step
  constructor
  · intro h
    simp only [] at h
    split at h
    · rename_i op hop
      obtain ⟨size, hsize, h⟩ := except_bind_eq_ok.mp h
      split at h
      · rename_i instruction tail hsplit
        cases except_pure_eq_ok.mp h
        obtain ⟨rfl, rfl⟩ := splitExactly_eq_some.mp hsplit
        -- An instruction has its opcode at least.
        have hpos := instructionSize_pos hsize
        cases instruction with
        | nil => simp at hpos
        | cons first operands =>
          obtain rfl : op.byte = first := Opcode.byte_eq_of_ofByte? hop
          refine ⟨rfl, rfl, ?_⟩
          exact instructionSize_congr (by simp [CodedInstruction.encode]) hsize
      · exact absurd h (except_throw_ne_ok _ _)
    · exact absurd h (except_throw_ne_ok _ _)
  · -- The size only depends on the instruction, and not on what stands behind it.
    rintro ⟨rfl, rfl, hsized⟩
    have hhead : (i.encode ++ rest).headD 0 = i.op.byte := rfl
    have hsize : instructionSize i.offset i.op (i.encode ++ rest) = .ok i.encode.length :=
      instructionSize_congr (by simp) hsized
    have hsplit : splitExactly i.encode.length (i.encode ++ rest) = some (i.encode, rest) :=
      splitExactly_eq_some.mpr ⟨rfl, rfl⟩
    simp only [hhead, Opcode.ofByte?_byte, hsize]
    refine except_bind_eq_ok.mpr ⟨_, rfl, ?_⟩
    simp only [hsplit]
    rfl

end Listing

/-! ## Walks -/

/-- The instructions stand one after the other from `offset` on, each with its own size. -/
def Walk : Nat → List CodedInstruction → Prop
  | _, [] => True
  | offset, i :: is => i.offset = offset ∧ i.Sized ∧ Walk (offset + i.encode.length) is

theorem sized_of_walk {offset : Nat} {is : List CodedInstruction} (h : Walk offset is) :
    ∀ i ∈ is, i.Sized := by
  induction is generalizing offset with
  | nil => exact nofun
  | cons i is ih =>
    intro j hj
    obtain ⟨-, hsized, hrest⟩ := h
    rcases List.mem_cons.mp hj with rfl | hj
    · exact hsized
    · exact ih hrest j hj

/-- The bytes of some instructions. -/
def encodeAll (is : List CodedInstruction) : List UInt8 := is.flatMap CodedInstruction.encode

namespace Listing

theorem collect_eq_append (n offset : Nat) (bytes : List UInt8)
    (listed : List (Except Error CodedInstruction)) :
    collect n offset bytes listed = listed.reverse ++ collect n offset bytes [] := by
  induction n generalizing offset bytes listed with
  | zero => cases bytes <;> simp [collect]
  | succ n ih =>
    cases bytes with
    | nil => simp [collect]
    | cons b bs =>
      simp only [collect]
      cases step offset (b :: bs) with
      | error e => simp
      | ok result =>
        simp only []
        rw [ih _ _ (_ :: listed), ih _ _ [_]]
        simp

theorem collect_cons (n offset : Nat) (b : UInt8) (bs : List UInt8) :
    collect (n + 1) offset (b :: bs) [] =
      match step offset (b :: bs) with
      | .error e => [.error e]
      | .ok (i, rest) => .ok i :: collect n (offset + i.encode.length) rest [] := by
  simp only [collect]
  rcases step offset (b :: bs) with e | ⟨i, rest⟩
  · rfl
  · exact collect_eq_append _ _ _ [.ok i]

theorem collect_eq_map_iff {n offset : Nat} {bytes : List UInt8} {is : List CodedInstruction}
    (hn : bytes.length ≤ n) :
    collect n offset bytes [] = is.map .ok ↔ bytes = encodeAll is ∧ Walk offset is := by
  induction n generalizing offset bytes is with
  | zero =>
    have hbytes : bytes = [] := List.length_eq_zero_iff.mp (by omega)
    subst hbytes
    cases is with
    | nil => simp [collect, encodeAll, Walk]
    | cons i is => simp [collect, encodeAll, CodedInstruction.encode]
  | succ n ih =>
    cases bytes with
    | nil =>
      cases is with
      | nil => simp [collect, encodeAll, Walk]
      | cons i is => simp [collect, encodeAll, CodedInstruction.encode]
    | cons b bs =>
      cases is with
      | nil =>
        simp only [collect]
        constructor
        · intro h
          split at h
          · cases h
          · rw [collect_eq_append] at h
            cases h
        · rintro ⟨h, -⟩
          cases h
      | cons i is =>
        simp only [collect]
        -- The walk starts with a step.
        have hstep : (b :: bs = encodeAll (i :: is) ∧ Walk offset (i :: is)) ↔
            ∃ rest, step offset (b :: bs) = .ok (i, rest) ∧ rest = encodeAll is ∧
              Walk (offset + i.encode.length) is := by
          simp only [step_eq_ok_iff]
          constructor
          · rintro ⟨hbytes, hoffset, hsized, hwalk⟩
            exact ⟨encodeAll is, ⟨hoffset, hbytes, hsized⟩, rfl, hwalk⟩
          · rintro ⟨rest, ⟨hoffset, hbytes, hsized⟩, rfl, hwalk⟩
            exact ⟨hbytes, hoffset, hsized, hwalk⟩
        rw [hstep]
        cases hfirst : step offset (b :: bs) with
        | error e => simp
        | ok result =>
          obtain ⟨j, rest⟩ := result
          -- The step takes up a byte at least, so that the fuel lasts for the rest.
          have hrest : rest.length ≤ n := by
            obtain ⟨-, hbytes, -⟩ := step_eq_ok_iff.mp hfirst
            have hlen := congrArg List.length hbytes
            simp only [List.length_cons, List.length_append, CodedInstruction.encode] at hlen hn
            omega
          simp only [List.map_cons]
          rw [collect_eq_append, List.reverse_singleton, List.singleton_append, List.cons.injEq,
            Except.ok.injEq, ih hrest]
          constructor
          · rintro ⟨rfl, hrest, hwalk⟩
            exact ⟨rest, rfl, hrest, hwalk⟩
          · rintro ⟨rest', hok, hrest, hwalk⟩
            cases hok
            exact ⟨rfl, hrest, hwalk⟩

end Listing

/-- A listing without an error is a walk over the code. -/
theorem listing_eq_map_iff {code : List UInt8} {is : List CodedInstruction} :
    listing code = is.map .ok ↔ code = encodeAll is ∧ Walk 0 is :=
  Listing.collect_eq_map_iff (Nat.le_refl _)

end JvmClass
