import JvmClass.Proofs.Byte.Reader
import JvmClass.Text.ModifiedUtf8

/-!
# Reading modified UTF-8

The bytes of a string are read code by code: a code takes one, two or three bytes if it is a UTF-16
code unit, and four if it is a supplementary character of an old class file.  Two surrogates in a
row are one character.  The same reader therefore serves both ways of writing supplementary
characters; `decodeAs` is the stricter one that knows which of them to expect.

## Key results

- `reads_unit`, `reads_supplementary`: the codes of the encoder are read back
- `reads_char`: a character is read back, whichever way it was written
- `decode_encode`: a string is read back
- `decodeAs_encode`: a string is read back by the rule of its version alone
- `encode_injective`: no two strings have the same bytes
-/

namespace JvmClass.ModifiedUtf8

open Reader (Reads)

/-- The six bits that a byte adds to those before it. -/
def continuation : Reader Nat := do
  let b ← Reader.byte
  if 0x80 ≤ b.toNat ∧ b.toNat < 0xC0 then
    return b.toNat - 0x80
  else
    failure

/-- The first bits of a code, and how many bytes follow that add to them. -/
def leading (b : Nat) : Option (Nat × Nat) :=
  if b < 0x80 then some (b, 0)
  else if b < 0xC0 then none
  else if b < 0xE0 then some (b - 0xC0, 1)
  else if b < 0xF0 then some (b - 0xE0, 2)
  else if b < 0xF8 then some (b - 0xF0, 3)
  else none

/-- Add the bits of the following bytes. -/
def continued : Nat → Nat → Reader Nat
  | n, 0 => pure n
  | n, more + 1 => do continued (n * 64 + (← continuation)) more

/-- Read a code: a UTF-16 code unit, or a whole supplementary character. -/
def readUnit : Reader Nat := do
  let b ← Reader.byte
  match leading b.toNat with
  | some (n, more) => continued n more
  | none => failure

/-- The character with a given number, if there is one. -/
def charOf (n : Nat) : Reader Char := if n.isValidChar then pure (Char.ofNat n) else failure

/-- Read the low surrogate that completes a high one to a character. -/
def readLowSurrogate (high : Nat) : Reader Char := do
  let m ← readUnit
  if 0xDC00 ≤ m ∧ m < 0xE000 then
    charOf (0x10000 + (high - 0xD800) * 1024 + (m - 0xDC00))
  else
    failure

def readChar : Reader Char := do
  let n ← readUnit
  if 0xD800 ≤ n ∧ n < 0xDC00 then
    let m ← readUnit
    if 0xDC00 ≤ m ∧ m < 0xE000 then
      charOf (0x10000 + (n - 0xD800) * 1024 + (m - 0xDC00))
    else
      failure
  else
    charOf n

/-- Read a character by the rule of its class file only: with surrogate pairs every code is a UTF-16
code unit, and without them every code is a character. -/
def readCharAs (pairs : Bool) : Reader Char := do
  let n ← readUnit
  if pairs then
    if 0x10000 ≤ n then failure
    else if 0xD800 ≤ n ∧ n < 0xDC00 then readLowSurrogate n
    else charOf n
  else
    charOf n

/-- The string with the given bytes. -/
def decode (bytes : List UInt8) : Option String :=
  String.ofList <$> Reader.untilEnd readChar bytes.length bytes

/-- The string with the given bytes in a class file of a given version. -/
def decodeAs (version : Version) (bytes : List UInt8) : Option String :=
  String.ofList <$> Reader.untilEnd (readCharAs (hasSurrogatePairs version)) bytes.length bytes

/-! ## Codes -/

private theorem reads_continuation {n : Nat} (h : n < 64) :
    Reads continuation [UInt8.ofNat (0x80 + n)] n := by
  have hb : (UInt8.ofNat (0x80 + n)).toNat = 0x80 + n := by
    rw [UInt8.toNat_ofNat']
    omega
  have hn : (UInt8.ofNat (0x80 + n)).toNat - 0x80 = n := by omega
  apply (Reader.reads_byte _).bind_nil
  rw [if_pos (by omega), hn]
  exact Reads.pure n

private theorem reads_complete (n : Nat) : Reads (continued n 0) [] n := Reads.pure n

/-- The bytes that follow the first one, the most significant bits first. -/
private theorem reads_continued {n k : Nat} {bytes : List UInt8} {m more : Nat} (hk : k < 64)
    (h : Reads (continued (n * 64 + k) more) bytes m) :
    Reads (continued n (more + 1)) (UInt8.ofNat (0x80 + k) :: bytes) m :=
  (reads_continuation hk).bind h

private theorem reads_leading {b n more : Nat} {bytes : List UInt8} {m : Nat} (hb : b < 256)
    (hlead : leading b = some (n, more)) (h : Reads (continued n more) bytes m) :
    Reads readUnit (UInt8.ofNat b :: bytes) m := by
  have hself : (UInt8.ofNat b).toNat = b := by
    rw [UInt8.toNat_ofNat']
    omega
  apply (Reader.reads_byte _).bind
  rw [hself, hlead]
  exact h

private theorem reads_one {n : Nat} (h : n < 0x80) : Reads readUnit [UInt8.ofNat n] n := by
  have hlead : leading n = some (n, 0) := if_pos h
  exact reads_leading (by omega) hlead (reads_complete n)

private theorem reads_two {a b : Nat} (ha : a < 32) (hb : b < 64) :
    Reads readUnit [UInt8.ofNat (0xC0 + a), UInt8.ofNat (0x80 + b)] (a * 64 + b) := by
  have hlead : leading (0xC0 + a) = some (a, 1) := by
    unfold leading
    rw [if_neg (by omega), if_neg (by omega), if_pos (by omega), Nat.add_sub_cancel_left]
  exact reads_leading (by omega) hlead (reads_continued hb (reads_complete _))

private theorem reads_three {a b c : Nat} (ha : a < 16) (hb : b < 64) (hc : c < 64) :
    Reads readUnit [UInt8.ofNat (0xE0 + a), UInt8.ofNat (0x80 + b), UInt8.ofNat (0x80 + c)]
      ((a * 64 + b) * 64 + c) := by
  have hlead : leading (0xE0 + a) = some (a, 2) := by
    unfold leading
    rw [if_neg (by omega), if_neg (by omega), if_neg (by omega), if_pos (by omega),
      Nat.add_sub_cancel_left]
  exact reads_leading (by omega) hlead (reads_continued hb (reads_continued hc (reads_complete _)))

theorem reads_unit {n : Nat} (h : n < 0x10000) : Reads readUnit (encodeUnit n) n := by
  unfold encodeUnit
  split
  · -- U+0000 is written in two bytes.
    rename_i hzero
    rw [hzero]
    exact reads_two (a := 0) (b := 0) (by omega) (by omega)
  · split
    · exact reads_one (by omega)
    · split
      · have hn : n / 64 * 64 + n % 64 = n := by omega
        have hreads := reads_two (a := n / 64) (b := n % 64) (by omega) (by omega)
        rwa [hn] at hreads
      · have hn : (n / 4096 * 64 + n / 64 % 64) * 64 + n % 64 = n := by omega
        have hreads := reads_three (a := n / 4096) (b := n / 64 % 64) (c := n % 64) (by omega)
          (by omega) (by omega)
        rwa [hn] at hreads

theorem reads_supplementary {n : Nat} (h : n < 0x110000) :
    Reads readUnit (encodeSupplementary n) n := by
  have hlead : leading (0xF0 + n / 262144) = some (n / 262144, 3) := by
    unfold leading
    rw [if_neg (by omega), if_neg (by omega), if_neg (by omega), if_neg (by omega),
      if_pos (by omega), Nat.add_sub_cancel_left]
  have hn : ((n / 262144 * 64 + n / 4096 % 64) * 64 + n / 64 % 64) * 64 + n % 64 = n := by omega
  have hfirst : n / 4096 % 64 < 64 := by omega
  have hsecond : n / 64 % 64 < 64 := by omega
  have hthird : n % 64 < 64 := by omega
  have hend := reads_continued hfirst (reads_continued hsecond (reads_continued hthird
    (reads_complete (((n / 262144 * 64 + n / 4096 % 64) * 64 + n / 64 % 64) * 64 + n % 64))))
  rw [hn] at hend
  exact reads_leading (by omega) hlead hend

/-! ## Characters and strings -/

private theorem charOf_toNat (c : Char) : charOf c.toNat = pure c := by
  have hvalid : c.toNat.isValidChar := c.valid
  rw [charOf, if_pos hvalid, Char.ofNat_toNat]

private theorem toNat_cases (c : Char) :
    c.toNat < 0xD800 ∨ 0xDFFF < c.toNat ∧ c.toNat < 0x110000 := c.valid

private theorem reads_charOf (c : Char) : Reads (charOf c.toNat) [] c := by
  rw [charOf_toNat]
  exact Reads.pure c

private theorem le_highSurrogate (n : Nat) : 0xD800 ≤ highSurrogate n := Nat.le_add_right _ _

private theorem highSurrogate_lt {n : Nat} (h : n < 0x110000) : highSurrogate n < 0xDC00 := by
  unfold highSurrogate
  omega

/-- The low surrogate of a character completes its high one. -/
private theorem reads_lowSurrogate {c : Char} (h : ¬ c.toNat < 0x10000) :
    Reads (readLowSurrogate (highSurrogate c.toNat)) (encodeUnit (lowSurrogate c.toNat)) c := by
  have hlow : 0xDC00 ≤ lowSurrogate c.toNat ∧ lowSurrogate c.toNat < 0xE000 := by
    unfold lowSurrogate
    omega
  have hsum : 0x10000 + (highSurrogate c.toNat - 0xD800) * 1024
      + (lowSurrogate c.toNat - 0xDC00) = c.toNat := by
    unfold highSurrogate lowSurrogate
    omega
  apply (reads_unit (by omega)).bind_nil
  rw [if_pos hlow, hsum]
  exact reads_charOf c

theorem reads_char (pairs : Bool) (c : Char) : Reads readChar (encodeChar pairs c) c := by
  -- No character is a surrogate, so that a high surrogate always starts a pair.
  have hcases := toNat_cases c
  unfold encodeChar
  split
  · rename_i hlt
    -- A character of the basic plane is its own code unit.
    apply (reads_unit hlt).bind_nil
    rw [if_neg (by omega)]
    exact reads_charOf c
  · rename_i hge
    split
    · -- The two surrogates put together are the character.
      have hhigh := highSurrogate_lt (n := c.toNat) (by omega)
      apply (reads_unit (by omega)).bind
      rw [if_pos ⟨le_highSurrogate _, hhigh⟩]
      exact reads_lowSurrogate hge
    · -- Written as a whole, the character is above all surrogates.
      apply (reads_supplementary (by omega)).bind_nil
      rw [if_neg (by omega)]
      exact reads_charOf c

/-- A character is read back by the rule that it was written by. -/
theorem reads_charAs (pairs : Bool) (c : Char) :
    Reads (readCharAs pairs) (encodeChar pairs c) c := by
  have hcases := toNat_cases c
  unfold encodeChar
  split
  · rename_i hlt
    apply (reads_unit hlt).bind_nil
    split
    · rw [if_neg (by omega), if_neg (by omega)]
      exact reads_charOf c
    · exact reads_charOf c
  · rename_i hge
    split
    · rename_i hpairs
      have hhigh := highSurrogate_lt (n := c.toNat) (by omega)
      apply (reads_unit (by omega)).bind
      rw [if_pos hpairs, if_neg (by omega), if_pos ⟨le_highSurrogate _, hhigh⟩]
      exact reads_lowSurrogate hge
    · rename_i hwhole
      apply (reads_supplementary (by omega)).bind_nil
      rw [if_neg hwhole]
      exact reads_charOf c

theorem encodeUnit_ne_nil (n : Nat) : encodeUnit n ≠ [] := by
  unfold encodeUnit
  split
  · simp
  · split
    · simp
    · split <;> simp

private theorem encodeChar_ne_nil (pairs : Bool) (c : Char) : encodeChar pairs c ≠ [] := by
  unfold encodeChar
  split
  · exact encodeUnit_ne_nil _
  · split
    · simp [encodeUnit_ne_nil]
    · simp [encodeSupplementary]

theorem length_le_length_flatMap {α β : Type} {f : α → List β} (hf : ∀ a, f a ≠ [])
    (xs : List α) : xs.length ≤ (xs.flatMap f).length := by
  induction xs with
  | nil => simp
  | cons x xs ih =>
    have hpos := List.length_pos_iff.mpr (hf x)
    rw [List.flatMap_cons, List.length_append, List.length_cons]
    omega

private theorem untilEnd_encode {r : Reader Char} {version : Version}
    (h : ∀ c, Reads r (encodeChar (hasSurrogatePairs version) c) c) (text : String) :
    Reader.untilEnd r (encode version text).length (encode version text) = some text.toList := by
  -- Every character takes a byte at least, so that the reader does not run out of fuel.
  have hlen := length_le_length_flatMap (encodeChar_ne_nil (hasSurrogatePairs version)) text.toList
  exact Reads.untilEnd (fun c _ => ⟨h c, encodeChar_ne_nil _ c⟩) hlen

/-- A string is read back from its bytes in a class file of any version. -/
theorem decode_encode (version : Version) (text : String) :
    decode (encode version text) = some text := by
  rw [decode, untilEnd_encode (reads_char _)]
  simp

/-- A string is read back by the rule of its version. -/
theorem decodeAs_encode (version : Version) (text : String) :
    decodeAs version (encode version text) = some text := by
  rw [decodeAs, untilEnd_encode (reads_charAs _)]
  simp

/-- No two strings have the same bytes in class files of one version. -/
theorem encode_injective (version : Version) : Function.Injective (encode version) := by
  intro text text' h
  have hread := decodeAs_encode version text
  rw [h, decodeAs_encode] at hread
  exact (Option.some.inj hread).symm

end JvmClass.ModifiedUtf8
