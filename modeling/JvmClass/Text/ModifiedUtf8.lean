import JvmClass.Version

/-!
# Modified UTF-8

Strings of a class file are written in a variant of UTF-8.  U+0000 takes two bytes, so that no
encoded string contains a zero byte, and a supplementary character is written as the two surrogates
of its UTF-16 form, three bytes each.  Class files older than version 48 predate the second rule:
there a supplementary character keeps its four bytes of UTF-8.
-/

namespace JvmClass.ModifiedUtf8

/-- A UTF-16 code unit in one, two or three bytes. -/
def encodeUnit (n : Nat) : List UInt8 :=
  if n = 0 then
    [0xC0, 0x80]
  else if n < 0x80 then
    [UInt8.ofNat n]
  else if n < 0x800 then
    [UInt8.ofNat (0xC0 + n / 64), UInt8.ofNat (0x80 + n % 64)]
  else
    [UInt8.ofNat (0xE0 + n / 4096), UInt8.ofNat (0x80 + n / 64 % 64), UInt8.ofNat (0x80 + n % 64)]

/-- The high surrogate of a supplementary code point. -/
def highSurrogate (n : Nat) : Nat := 0xD800 + (n - 0x10000) / 1024

/-- The low surrogate of a supplementary code point. -/
def lowSurrogate (n : Nat) : Nat := 0xDC00 + (n - 0x10000) % 1024

/-- The four-byte form of a supplementary code point. -/
def encodeSupplementary (n : Nat) : List UInt8 :=
  [UInt8.ofNat (0xF0 + n / 262144), UInt8.ofNat (0x80 + n / 4096 % 64),
    UInt8.ofNat (0x80 + n / 64 % 64), UInt8.ofNat (0x80 + n % 64)]

/-- A character, with surrogate pairs or without. -/
def encodeChar (pairs : Bool) (c : Char) : List UInt8 :=
  if c.toNat < 0x10000 then
    encodeUnit c.toNat
  else if pairs then
    encodeUnit (highSurrogate c.toNat) ++ encodeUnit (lowSurrogate c.toNat)
  else
    encodeSupplementary c.toNat

/-- Does a class file of this version write supplementary characters as surrogate pairs? -/
def hasSurrogatePairs (version : Version) : Bool := decide (Version.java1_4 ≤ version)

/-- The bytes of a string, however many. -/
def encode (version : Version) (text : String) : List UInt8 :=
  text.toList.flatMap (encodeChar (hasSurrogatePairs version))

end JvmClass.ModifiedUtf8
