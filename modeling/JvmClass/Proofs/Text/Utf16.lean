import JvmClass.Error
import JvmClass.Proofs.Text.ModifiedUtf8

/-!
# What the bytes of a string stand for

The bytes of a string fall into groups, each announced by its first byte.  From version 48 on a
group has at most three bytes and is a UTF-16 code unit; the characters are had by pairing
surrogates once all groups have been read.  Before, the bytes are those of UTF-8, except that U+0000
takes two of them.

## Key results

- `units_encode`, `pairSurrogates_utf16`: the groups are the UTF-16 of the string, and pairing its
  surrogates gives back the characters
- `encode_eq_flatMap_utf8`, `encode_eq_toUTF8`: an old class file holds UTF-8, but for U+0000
- `encode_represents`: what the bytes of a string are, in every version
-/

namespace JvmClass.ModifiedUtf8

open Reader (Reads)

/-! ## The bytes of a code unit -/

/-- A code unit has no zero byte, and none that starts a group of four. -/
theorem bounds_of_mem_encodeUnit {n : Nat} (h : n < 0x10000) {b : UInt8} (hb : b ∈ encodeUnit n) :
    0 < b.toNat ∧ b.toNat < 0xF0 := by
  have hoctet : ∃ m, 0 < m ∧ m < 0xF0 ∧ b = UInt8.ofNat m := by
    unfold encodeUnit at hb
    split at hb
    · simp only [List.mem_cons, List.not_mem_nil, or_false] at hb
      rcases hb with hb | hb
      · exact ⟨0xC0, by omega, by omega, hb⟩
      · exact ⟨0x80, by omega, by omega, hb⟩
    · split at hb
      · exact ⟨n, by omega, by omega, List.mem_singleton.mp hb⟩
      · split at hb
        · simp only [List.mem_cons, List.not_mem_nil, or_false] at hb
          rcases hb with hb | hb
          · exact ⟨_, by omega, by omega, hb⟩
          · exact ⟨_, by omega, by omega, hb⟩
        · simp only [List.mem_cons, List.not_mem_nil, or_false] at hb
          rcases hb with hb | hb | hb
          · exact ⟨_, by omega, by omega, hb⟩
          · exact ⟨_, by omega, by omega, hb⟩
          · exact ⟨_, by omega, by omega, hb⟩
  obtain ⟨m, hpos, hlt, rfl⟩ := hoctet
  rw [UInt8.toNat_ofNat']
  omega

/-- The four bytes of a supplementary character are not zero either. -/
theorem pos_of_mem_encodeSupplementary {n : Nat} (h : n < 0x110000) {b : UInt8}
    (hb : b ∈ encodeSupplementary n) : 0 < b.toNat := by
  simp only [encodeSupplementary, List.mem_cons, List.not_mem_nil, or_false] at hb
  rcases hb with rfl | rfl | rfl | rfl <;> rw [UInt8.toNat_ofNat'] <;> omega

private theorem toNat_lt (c : Char) : c.toNat < 0x110000 := by
  have hvalid : c.toNat < 0xD800 ∨ 0xDFFF < c.toNat ∧ c.toNat < 0x110000 := c.valid
  omega

/-! ## UTF-16 -/

/-- The UTF-16 of a character: one code unit, or two surrogates. -/
def utf16 (c : Char) : List Nat :=
  if c.toNat < 0x10000 then [c.toNat] else [highSurrogate c.toNat, lowSurrogate c.toNat]

theorem lt_of_mem_utf16 {c : Char} {n : Nat} (h : n ∈ utf16 c) : n < 0x10000 := by
  have hlt := toNat_lt c
  unfold utf16 highSurrogate lowSurrogate at h
  split at h
  · rw [List.mem_singleton] at h
    omega
  · simp only [List.mem_cons, List.not_mem_nil, or_false] at h
    omega

/-- With surrogate pairs a character is written as the code units of its UTF-16. -/
theorem encodeChar_eq_utf16 (c : Char) : encodeChar true c = (utf16 c).flatMap encodeUnit := by
  unfold encodeChar utf16
  split <;> simp

theorem encode_eq_utf16 {version : Version} (h : Version.java1_4 ≤ version) (text : String) :
    encode version text = (text.toList.flatMap utf16).flatMap encodeUnit := by
  have hpairs : hasSurrogatePairs version = true := decide_eq_true h
  have hchar : encodeChar true = fun c => (utf16 c).flatMap encodeUnit :=
    funext encodeChar_eq_utf16
  rw [encode, hpairs, hchar, List.flatMap_assoc]

/-- Read a group of one, two or three bytes, which is a UTF-16 code unit. -/
def readGroup : Reader Nat := do
  let b ← Reader.byte
  match leading b.toNat with
  | some (n, more) => if more ≤ 2 then continued n more else failure
  | none => failure

/-- The code units that some bytes stand for, group by group. -/
def units (bytes : List UInt8) : Option (List Nat) := Reader.untilEnd readGroup bytes.length bytes

/-- The characters that some code units stand for: a high surrogate and the low one behind it are
one character, and a surrogate that stands alone is none. -/
def pairSurrogates : List Nat → Option (List Char)
  | [] => some []
  | n :: rest =>
    if 0xD800 ≤ n ∧ n < 0xDC00 then
      match rest with
      | [] => none
      | m :: rest =>
        if 0xDC00 ≤ m ∧ m < 0xE000 then
          let c := Char.ofNat (0x10000 + (n - 0xD800) * 1024 + (m - 0xDC00))
          (c :: ·) <$> pairSurrogates rest
        else
          none
    else if 0xDC00 ≤ n ∧ n < 0xE000 then
      none
    else
      (Char.ofNat n :: ·) <$> pairSurrogates rest

private theorem more_le_two {b n more : Nat} (h : b < 0xF0) (hlead : leading b = some (n, more)) :
    more ≤ 2 := by
  unfold leading at hlead
  split at hlead
  · simp only [Option.some.injEq, Prod.mk.injEq] at hlead
    omega
  · split at hlead
    · contradiction
    · split at hlead
      · simp only [Option.some.injEq, Prod.mk.injEq] at hlead
        omega
      · simp only [Option.some.injEq, Prod.mk.injEq] at hlead
        omega

/-- Below the bytes that start a group of four, a group is a code. -/
theorem readGroup_of_lt {b : UInt8} (h : b.toNat < 0xF0) (bytes : List UInt8) :
    readGroup.run (b :: bytes) = readUnit.run (b :: bytes) := by
  show (match leading b.toNat with
      | some (n, more) => if more ≤ 2 then continued n more else failure
      | none => failure : Reader Nat).run bytes
    = (match leading b.toNat with
      | some (n, more) => continued n more
      | none => failure : Reader Nat).run bytes
  split
  · rename_i n more hlead
    rw [if_pos (more_le_two h hlead)]
  · rfl

theorem reads_group {n : Nat} (h : n < 0x10000) :
    Reads readGroup (encodeUnit n) n ∧ encodeUnit n ≠ [] := by
  have hne := encodeUnit_ne_nil n
  refine ⟨fun rest => ?_, hne⟩
  obtain ⟨b, bytes, hbytes⟩ := List.exists_cons_of_ne_nil hne
  have hfirst := bounds_of_mem_encodeUnit h (b := b) (by simp [hbytes])
  have hread := reads_unit h rest
  rw [hbytes, List.cons_append] at hread ⊢
  rw [readGroup_of_lt hfirst.2, hread]

/-- The groups of a string are the code units of its UTF-16. -/
theorem units_encode {version : Version} (h : Version.java1_4 ≤ version) (text : String) :
    units (encode version text) = some (text.toList.flatMap utf16) := by
  have hbounds : ∀ n ∈ text.toList.flatMap utf16, n < 0x10000 := by
    intro n hn
    obtain ⟨c, _, hc⟩ := List.mem_flatMap.mp hn
    exact lt_of_mem_utf16 hc
  rw [encode_eq_utf16 h]
  -- Every code unit takes a byte at least.
  exact Reads.untilEnd (fun n hn => reads_group (hbounds n hn))
    (length_le_length_flatMap encodeUnit_ne_nil _)

private theorem pairSurrogates_utf16_append (c : Char) (rest : List Nat) :
    pairSurrogates (utf16 c ++ rest) = (c :: ·) <$> pairSurrogates rest := by
  have hvalid : c.toNat < 0xD800 ∨ 0xDFFF < c.toNat ∧ c.toNat < 0x110000 := c.valid
  unfold utf16
  split
  · -- No character is a surrogate.
    rw [List.singleton_append, pairSurrogates.eq_def]
    simp only []
    rw [if_neg (by omega), if_neg (by omega), Char.ofNat_toNat]
  · have hhigh : 0xD800 ≤ highSurrogate c.toNat ∧ highSurrogate c.toNat < 0xDC00 := by
      unfold highSurrogate
      omega
    have hlow : 0xDC00 ≤ lowSurrogate c.toNat ∧ lowSurrogate c.toNat < 0xE000 := by
      unfold lowSurrogate
      omega
    have hsum : 0x10000 + (highSurrogate c.toNat - 0xD800) * 1024
        + (lowSurrogate c.toNat - 0xDC00) = c.toNat := by
      unfold highSurrogate lowSurrogate
      omega
    show pairSurrogates (highSurrogate c.toNat :: lowSurrogate c.toNat :: rest) = _
    rw [pairSurrogates.eq_def]
    simp only []
    rw [if_pos hhigh, if_pos hlow, hsum, Char.ofNat_toNat]

/-- Pairing the surrogates of a UTF-16 text gives back its characters. -/
theorem pairSurrogates_utf16 (text : List Char) :
    pairSurrogates (text.flatMap utf16) = some text := by
  induction text with
  | nil => rfl
  | cons c text ih =>
    rw [List.flatMap_cons, pairSurrogates_utf16_append, ih]
    rfl

/-! ## UTF-8 -/

private theorem utf8_two {n : Nat} (h : n < 0x800) : n / 64 % 32 + 192 = 0xC0 + n / 64 := by omega

private theorem utf8_three {n : Nat} (h : n < 0x10000) :
    n / 4096 % 16 + 224 = 0xE0 + n / 4096 := by omega

private theorem utf8_four {n : Nat} (h : n < 0x110000) :
    n / 262144 % 8 + 240 = 0xF0 + n / 262144 := by omega

/-- The bytes of a character in an old class file. -/
theorem encodeChar_eq_utf8 (c : Char) :
    encodeChar false c = if c = '\x00' then [0xC0, 0x80] else String.utf8EncodeChar c := by
  have hlt := toNat_lt c
  have hzero : c = '\x00' ↔ c.toNat = 0 := by
    rw [← Char.toNat_inj]
    rfl
  have hval : c.val.toNat = c.toNat := rfl
  unfold encodeChar encodeUnit encodeSupplementary String.utf8EncodeChar
  simp only [hzero, hval]
  generalize c.toNat = n at hlt
  rw [Nat.add_comm (n % 64) 128, Nat.add_comm (n / 64 % 64) 128, Nat.add_comm (n / 4096 % 64) 128,
    if_neg Bool.false_ne_true]
  -- The ranges of the two encoders are the same, but for zero.
  by_cases hbasic : n < 0x10000
  · rw [if_pos hbasic]
    by_cases hnul : n = 0
    · rw [if_pos hnul, if_pos hnul]
    · rw [if_neg hnul, if_neg hnul]
      by_cases hone : n < 0x80
      · rw [if_pos hone, if_pos (Nat.le_of_lt_succ hone)]
      · rw [if_neg hone, if_neg (show ¬ n ≤ 127 by omega)]
        by_cases htwo : n < 0x800
        · rw [if_pos htwo, if_pos (Nat.le_of_lt_succ htwo), utf8_two htwo]
        · rw [if_neg htwo, if_neg (show ¬ n ≤ 2047 by omega),
            if_pos (Nat.le_of_lt_succ hbasic), utf8_three hbasic]
  · rw [if_neg hbasic, if_neg (show ¬ n = 0 by omega), if_neg (show ¬ n ≤ 127 by omega),
      if_neg (show ¬ n ≤ 2047 by omega), if_neg (show ¬ n ≤ 65535 by omega), utf8_four hlt]

/-- A string of an old class file is UTF-8, character by character but for U+0000. -/
theorem encode_eq_flatMap_utf8 {version : Version} (h : version < Version.java1_4)
    (text : String) :
    encode version text
      = text.toList.flatMap fun c => if c = '\x00' then [0xC0, 0x80] else String.utf8EncodeChar c := by
  have hwhole : hasSurrogatePairs version = false := decide_eq_false (Nat.not_le.mpr h)
  have hchar := funext encodeChar_eq_utf8
  rw [encode, hwhole, hchar]

/-! ## The whole string -/

theorem zero_notMem_encodeChar (pairs : Bool) (c : Char) : 0 ∉ encodeChar pairs c := by
  have hlt := toNat_lt c
  intro hmem
  have hpos : 0 < (0 : UInt8).toNat := by
    cases pairs with
    | true =>
      rw [encodeChar_eq_utf16] at hmem
      obtain ⟨n, hn, hzero⟩ := List.mem_flatMap.mp hmem
      exact (bounds_of_mem_encodeUnit (lt_of_mem_utf16 hn) hzero).1
    | false =>
      unfold encodeChar at hmem
      split at hmem
      · rename_i hbasic
        exact (bounds_of_mem_encodeUnit hbasic hmem).1
      · exact pos_of_mem_encodeSupplementary hlt hmem
  exact absurd hpos (by decide)

/-- No string has a zero byte. -/
theorem zero_notMem_encode (version : Version) (text : String) : 0 ∉ encode version text := by
  intro hmem
  obtain ⟨c, _, hzero⟩ := List.mem_flatMap.mp hmem
  exact zero_notMem_encodeChar _ c hzero

/-- With surrogate pairs no byte starts a group of four. -/
theorem lt_of_mem_encode {version : Version} (h : Version.java1_4 ≤ version) {text : String}
    {b : UInt8} (hb : b ∈ encode version text) : b < 0xF0 := by
  rw [encode_eq_utf16 h] at hb
  obtain ⟨n, hn, hmem⟩ := List.mem_flatMap.mp hb
  obtain ⟨c, _, hc⟩ := List.mem_flatMap.mp hn
  exact UInt8.lt_iff_toNat_lt.mpr (bounds_of_mem_encodeUnit (lt_of_mem_utf16 hc) hmem).2

/-- A byte of UTF-8 as an old class file has it.  The byte 0 is U+0000, and a part of no other
character. -/
def escapeNul (b : UInt8) : List UInt8 := if b = 0 then [0xC0, 0x80] else [b]

private theorem flatMap_escapeNul {bytes : List UInt8} (h : 0 ∉ bytes) :
    bytes.flatMap escapeNul = bytes := by
  induction bytes with
  | nil => rfl
  | cons b bytes ih =>
    rw [List.mem_cons, not_or] at h
    rw [List.flatMap_cons, ih h.2, escapeNul, if_neg (Ne.symm h.1)]
    rfl

private theorem flatMap_escapeNul_utf8 (c : Char) :
    (String.utf8EncodeChar c).flatMap escapeNul = encodeChar false c := by
  have hzero := zero_notMem_encodeChar false c
  rw [encodeChar_eq_utf8] at hzero ⊢
  split
  · rename_i hnul
    rw [hnul]
    rfl
  · rename_i hother
    rw [if_neg hother] at hzero
    exact flatMap_escapeNul hzero

/-- A string of an old class file is the UTF-8 of the text, with two bytes for each zero. -/
theorem encode_eq_toUTF8 {version : Version} (h : version < Version.java1_4) (text : String) :
    encode version text = text.toUTF8.data.toList.flatMap escapeNul := by
  have hwhole : hasSurrogatePairs version = false := decide_eq_false (Nat.not_le.mpr h)
  have hutf8 : text.toUTF8.data.toList = text.toList.flatMap String.utf8EncodeChar := by
    rw [String.toUTF8_eq_toByteArray, ← String.utf8Encode_toList, List.utf8Encode,
      List.data_toByteArray]
  have hchar : (fun c => (String.utf8EncodeChar c).flatMap escapeNul) = encodeChar false :=
    funext flatMap_escapeNul_utf8
  rw [hutf8, List.flatMap_assoc, hchar, encode, hwhole]

/-- The bytes of a string contain no zero and stand for no other string.  From version 48 on they
are groups of at most three bytes, which as UTF-16 give back the text; before, they are the UTF-8 of
the text, in which U+0000 takes the bytes `C0 80`.  Where a two-byte length has to say how many they
are, too many are refused, and otherwise they are the same. -/
theorem encode_represents (version : Version) (text : String) :
    0 ∉ encode version text
    ∧ (∀ other, encode version other = encode version text → other = text)
    ∧ (Version.java1_4 ≤ version →
        (∀ b ∈ encode version text, b < 0xF0)
        ∧ (units (encode version text)).bind pairSurrogates = some text.toList)
    ∧ (version < Version.java1_4 →
        encode version text = text.toList.flatMap
            (fun c => if c = '\x00' then [0xC0, 0x80] else String.utf8EncodeChar c)
        ∧ encode version text = text.toUTF8.data.toList.flatMap escapeNul)
    ∧ encodeBounded version text =
        if (encode version text).length ≤ 65535 then .ok (encode version text)
        else .error (.textTooLong (encode version text).length) := by
  refine ⟨zero_notMem_encode version text, fun other h => encode_injective version h, fun h => ?_,
    fun h => ⟨encode_eq_flatMap_utf8 h text, encode_eq_toUTF8 h text⟩, rfl⟩
  refine ⟨fun b hb => lt_of_mem_encode h hb, ?_⟩
  rw [units_encode h]
  exact pairSurrogates_utf16 text.toList

/-- A zero and a supplementary character, before surrogate pairs and since. -/
theorem nul_and_supplementary_represented :
    (units (encode ⟨48, 0⟩ "\x00😀")).bind pairSurrogates = some ['\x00', '😀']
    ∧ encode ⟨48, 0⟩ "\x00😀" = [0xC0, 0x80, 0xED, 0xA0, 0xBD, 0xED, 0xB8, 0x80]
    ∧ encode ⟨47, 65535⟩ "\x00😀" = [0xC0, 0x80, 0xF0, 0x9F, 0x98, 0x80] := by
  have hnew := (encode_represents ⟨48, 0⟩ "\x00😀").2.2.1 (by decide)
  have hold := (encode_represents ⟨47, 65535⟩ "\x00😀").2.2.2.1 (by decide)
  refine ⟨hnew.2, by decide, ?_⟩
  rw [hold.1]
  decide

end JvmClass.ModifiedUtf8
