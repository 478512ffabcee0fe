/-!
# Big-endian fields

A field of a class file is an unsigned number of one, two, four or eight bytes, the most
significant byte first; a signed number is written as the unsigned one of the same bits.

`decode_encode` says that reading undoes writing up to the width of the field, and `encode_decode`
that a field has no other spelling.
-/

namespace JvmClass.BigEndian

-- Powers are those of the core library, also where Mathlib brings its own.
attribute [local instance (high)] instPowNat

/-- The low `width` bytes of `n`, the most significant first. -/
def encode : (width : Nat) → Nat → List UInt8
  | 0, _ => []
  | width + 1, n => UInt8.ofNat (n / 256 ^ width) :: encode width n

/-- A field of two bytes. -/
def u2 (n : UInt16) : List UInt8 := encode 2 n.toNat

/-- A field of four bytes. -/
def u4 (n : UInt32) : List UInt8 := encode 4 n.toNat

/-- A field of eight bytes. -/
def u8 (n : UInt64) : List UInt8 := encode 8 n.toNat

/-- A signed number in two's complement. -/
def encodeInt (width : Nat) (z : Int) : List UInt8 := encode width (z % 256 ^ width).toNat

/-- The number whose base-256 digits are the given bytes. -/
def decode (bytes : List UInt8) : Nat :=
  bytes.foldl (fun n byte => n * 256 + byte.toNat) 0

/-- The two's complement number with the given bytes. -/
def decodeInt (bytes : List UInt8) : Int :=
  let n := decode bytes
  if 2 * n < 256 ^ bytes.length then n else (n : Int) - 256 ^ bytes.length

@[simp] theorem length_encode (width n : Nat) : (encode width n).length = width := by
  induction width with
  | zero => rfl
  | succ width ih => simp [encode, ih]

@[simp] theorem length_encodeInt (width : Nat) (z : Int) : (encodeInt width z).length = width := by
  simp [encodeInt]

@[simp] theorem decode_nil : decode [] = 0 := rfl

private theorem foldl_digits (bytes : List UInt8) (n : Nat) :
    bytes.foldl (fun n byte => n * 256 + byte.toNat) n = n * 256 ^ bytes.length + decode bytes := by
  induction bytes generalizing n with
  | nil => simp
  | cons b bs ih =>
    have hb : decode (b :: bs) = b.toNat * 256 ^ bs.length + decode bs := by
      simpa [decode] using ih b.toNat
    rw [List.foldl_cons, ih, hb, List.length_cons, Nat.pow_succ, Nat.add_mul, Nat.mul_assoc,
      Nat.mul_comm 256, Nat.add_assoc]

theorem decode_cons (byte : UInt8) (bytes : List UInt8) :
    decode (byte :: bytes) = byte.toNat * 256 ^ bytes.length + decode bytes := by
  simpa [decode] using foldl_digits bytes byte.toNat

theorem decode_lt (bytes : List UInt8) : decode bytes < 256 ^ bytes.length := by
  induction bytes with
  | nil => simp
  | cons b bs ih =>
    have hb := b.toNat_lt
    rw [decode_cons, List.length_cons, Nat.pow_succ, Nat.mul_comm _ 256]
    have : b.toNat * 256 ^ bs.length ≤ 255 * 256 ^ bs.length :=
      Nat.mul_le_mul_right _ (by omega)
    omega

theorem decode_encode (width n : Nat) : decode (encode width n) = n % 256 ^ width := by
  induction width with
  | zero => simp [encode, Nat.mod_one]
  | succ width ih =>
    have hmod : n % 256 ^ (width + 1)
        = n % 256 ^ width + 256 ^ width * (n / 256 ^ width % 256) := by
      rw [Nat.pow_succ, Nat.mod_mul]
    rw [encode, decode_cons, ih, length_encode, hmod, UInt8.toNat_ofNat', Nat.mul_comm]
    exact Nat.add_comm _ _

theorem decode_encode_of_lt {width n : Nat} (h : n < 256 ^ width) :
    decode (encode width n) = n := by
  rw [decode_encode, Nat.mod_eq_of_lt h]

/-- Digits beyond the width of a field do not show in it. -/
theorem encode_add_mul (width n m : Nat) :
    encode width (n + m * 256 ^ width) = encode width n := by
  induction width generalizing m with
  | zero => rfl
  | succ width ih =>
    have hpos : 0 < 256 ^ width := Nat.pow_pos (by decide)
    have hmul : m * 256 ^ (width + 1) = m * 256 * 256 ^ width := by
      rw [Nat.pow_succ, Nat.mul_assoc, Nat.mul_comm 256]
    have hdiv : (n + m * 256 * 256 ^ width) / 256 ^ width = n / 256 ^ width + 256 * m := by
      rw [Nat.add_mul_div_right _ _ hpos, Nat.mul_comm m]
    rw [encode, encode, hmul, ih, hdiv]
    congr 1
    rw [← UInt8.toNat_inj, UInt8.toNat_ofNat', UInt8.toNat_ofNat', Nat.add_mul_mod_self_left]

theorem encode_decode (bytes : List UInt8) : encode bytes.length (decode bytes) = bytes := by
  induction bytes with
  | nil => rfl
  | cons b bs ih =>
    have hpos : 0 < 256 ^ bs.length := Nat.pow_pos (by decide)
    have hdiv : (b.toNat * 256 ^ bs.length + decode bs) / 256 ^ bs.length = b.toNat := by
      rw [Nat.add_comm, Nat.add_mul_div_right _ _ hpos, Nat.div_eq_of_lt (decode_lt bs),
        Nat.zero_add]
    rw [List.length_cons, decode_cons, encode, hdiv, Nat.add_comm, encode_add_mul, ih,
      UInt8.ofNat_toNat]

end JvmClass.BigEndian
