import JvmClass.Byte.BigEndian

/-!
# Signed big-endian fields

A signed number is read back from its field if it fits, and what is written does not depend on how a
number of four bytes is held.

## Key results

- `decodeInt_encodeInt`: reading undoes writing for every number that fits the field
- `u4_toUInt32`: a signed number of four bytes is written as its value
- `encodeInt_byte`, `encodeInt_u2`, `encodeInt_low`: the same for fields of one and two bytes
- `u2_decode`, `decode_u2`: any two bytes are the field of a number
-/

namespace JvmClass.BigEndian

-- Powers are those of the core library, also where Mathlib brings its own.
attribute [local instance (high)] instPowNat

theorem decodeInt_encodeInt {width : Nat} {z : Int} (hlow : -(256 ^ width : Int) ≤ 2 * z)
    (hhigh : 2 * z < 256 ^ width) : decodeInt (encodeInt width z) = z := by
  have hpow : ((256 ^ width : Nat) : Int) = 256 ^ width := by simp
  have hpos : (0 : Int) < 256 ^ width := by
    rw [← hpow]
    exact_mod_cast Nat.pow_pos (by decide)
  have hmod : (z % 256 ^ width).toNat < 256 ^ width := by
    have := Int.emod_lt_of_pos z hpos
    have := Int.emod_nonneg z (Int.ne_of_gt hpos)
    omega
  simp only [decodeInt, encodeInt, decode_encode_of_lt hmod, length_encode]
  by_cases hz : 0 ≤ z
  · -- A number that is not negative is its own remainder.
    have hself : z % 256 ^ width = z := Int.emod_eq_of_lt hz (by omega)
    rw [hself, if_pos (by omega)]
    omega
  · -- A negative one is found a whole field higher.
    have hself : z % 256 ^ width = z + 256 ^ width := by
      rw [← Int.add_emod_right, Int.emod_eq_of_lt (by omega) (by omega)]
    rw [hself, if_neg (by omega)]
    omega

/-- A field shows its number up to multiples of what it can hold. -/
theorem encodeInt_congr {width : Nat} {y z : Int} (h : y % 256 ^ width = z % 256 ^ width) :
    encodeInt width y = encodeInt width z := by
  rw [encodeInt, encodeInt, h]

theorem encodeInt_natCast (width n : Nat) : encodeInt width n = encode width n := by
  have hmod : ((n : Int) % 256 ^ width).toNat = n % 256 ^ width := by
    have hpow : (256 ^ width : Int) = ((256 ^ width : Nat) : Int) := by simp
    rw [hpow, ← Int.natCast_emod, Int.toNat_natCast]
  -- What does not fit the field is cut off by both.
  have hsplit := encode_add_mul width (n % 256 ^ width) (n / 256 ^ width)
  rw [Nat.mul_comm, Nat.mod_add_div] at hsplit
  rw [encodeInt, hmod, hsplit]

/-- The bits of a signed number of four bytes are those of its value. -/
theorem u4_toUInt32 (x : Int32) : u4 x.toUInt32 = encodeInt 4 x.toInt := by
  have hmod : x.toInt % 256 ^ 4 = (x.toUInt32.toNat : Int) % 256 ^ 4 := by
    rw [← Int32.toInt_toBitVec, BitVec.toInt_eq_toNat_bmod, Int32.toNat_toBitVec]
    exact Int.bmod_emod
  rw [u4, ← encodeInt_natCast]
  exact encodeInt_congr hmod.symm

theorem encode_byte (b : UInt8) : encode 1 b.toNat = [b] := by
  simp [encode]

theorem encodeInt_byte (v : Int8) : encodeInt 1 v.toInt = [v.toUInt8] := by
  have hmod : v.toInt % 256 ^ 1 = (v.toUInt8.toNat : Int) % 256 ^ 1 := by
    rw [← Int8.toInt_toBitVec, BitVec.toInt_eq_toNat_bmod, Int8.toNat_toBitVec]
    exact Int.bmod_emod
  rw [encodeInt_congr hmod, encodeInt_natCast, encode_byte]

theorem toInt_emod (v : Int16) : v.toInt % 65536 = v.toUInt16.toNat % 65536 := by
  rw [← Int16.toInt_toBitVec, BitVec.toInt_eq_toNat_bmod, Int16.toNat_toBitVec]
  exact Int.bmod_emod

theorem encodeInt_u2 (v : Int16) : encodeInt 2 v.toInt = u2 v.toUInt16 := by
  have hmod : v.toInt % 256 ^ 2 = (v.toUInt16.toNat : Int) % 256 ^ 2 := toInt_emod v
  rw [encodeInt_congr hmod, encodeInt_natCast]
  rfl

/-- A field of one byte has the low byte of its number. -/
theorem encodeInt_low (v : Int16) : encodeInt 1 v.toInt = [v.toUInt16.toUInt8] := by
  have hmod : v.toInt % 256 ^ 1 = (v.toUInt16.toUInt8.toNat : Int) % 256 ^ 1 := by
    have := toInt_emod v
    rw [UInt16.toNat_toUInt8]
    omega
  rw [encodeInt_congr hmod, encodeInt_natCast, encode_byte]

/-- A signed number that is read from a field fits it. -/
theorem decodeInt_bounds (bytes : List UInt8) :
    -(256 ^ bytes.length : Int) ≤ 2 * decodeInt bytes ∧
      2 * decodeInt bytes < 256 ^ bytes.length := by
  have hlt := decode_lt bytes
  have hpow : ((256 ^ bytes.length : Nat) : Int) = 256 ^ bytes.length := by simp
  unfold decodeInt
  dsimp only
  split <;> omega

/-- Two bytes are the field of the number that they spell. -/
theorem u2_decode {bytes : List UInt8} (h : bytes.length = 2) :
    u2 (UInt16.ofNat (decode bytes)) = bytes := by
  have hlt := decode_lt bytes
  have hself := encode_decode bytes
  rw [h] at hlt hself
  have hmod : (UInt16.ofNat (decode bytes)).toNat = decode bytes := by
    rw [UInt16.toNat_ofNat']
    omega
  rw [u2, hmod, hself]

/-- A number is spelled by its field. -/
theorem decode_u2 (n : UInt16) : UInt16.ofNat (decode (u2 n)) = n := by
  have hlt : n.toNat < 256 ^ 2 := n.toNat_lt
  rw [u2, decode_encode_of_lt hlt, UInt16.ofNat_toNat]

/-- Fields are told apart by their numbers, whatever follows them. -/
theorem u2_append_inj {m n : UInt16} {xs ys : List UInt8} (h : u2 m ++ xs = u2 n ++ ys) :
    m = n ∧ xs = ys := by
  have hlen : (u2 m).length = (u2 n).length :=
    (length_encode 2 _).trans (length_encode 2 _).symm
  obtain ⟨hfield, hrest⟩ := List.append_inj h hlen
  have hdecoded := congrArg (fun bytes => UInt16.ofNat (decode bytes)) hfield
  rw [decode_u2, decode_u2] at hdecoded
  exact ⟨hdecoded, hrest⟩

/-- A single byte spells its value. -/
theorem decode_byte (byte : UInt8) : UInt16.ofNat (decode [byte]) = byte.toUInt16 := by
  rw [decode_cons, decode_nil]
  simp

end JvmClass.BigEndian
