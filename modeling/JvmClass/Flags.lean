import JvmClass.Byte.BigEndian

/-!
# Access flags

What an access flag means depends on what carries it, so there is a set of named bits for each kind
of carrier.  `Flags` are bits of one set: unknown bits are dropped when they are made.
-/

namespace JvmClass

/-- What carries a set of access flags. -/
inductive FlagSet
  | «class» | method | field | innerClass | methodParameter | module | requires | exports
  deriving DecidableEq, Repr

namespace FlagSet

/-- The named bits of a set, in the order in which they are listed in texts. -/
def named : FlagSet → List (String × UInt16)
  | «class» =>
    [("PUBLIC", 0x0001), ("FINAL", 0x0010), ("SUPER", 0x0020), ("INTERFACE", 0x0200),
      ("ABSTRACT", 0x0400), ("SYNTHETIC", 0x1000), ("ANNOTATION", 0x2000), ("ENUM", 0x4000),
      ("MODULE", 0x8000)]
  | method =>
    [("PUBLIC", 0x0001), ("PRIVATE", 0x0002), ("PROTECTED", 0x0004), ("STATIC", 0x0008),
      ("FINAL", 0x0010), ("SYNCHRONIZED", 0x0020), ("BRIDGE", 0x0040), ("VARARGS", 0x0080),
      ("NATIVE", 0x0100), ("ABSTRACT", 0x0400), ("STRICT", 0x0800), ("SYNTHETIC", 0x1000)]
  | field =>
    [("PUBLIC", 0x0001), ("PRIVATE", 0x0002), ("PROTECTED", 0x0004), ("STATIC", 0x0008),
      ("FINAL", 0x0010), ("VOLATILE", 0x0040), ("TRANSIENT", 0x0080), ("SYNTHETIC", 0x1000),
      ("ENUM", 0x4000)]
  | innerClass =>
    [("PUBLIC", 0x0001), ("PRIVATE", 0x0002), ("PROTECTED", 0x0004), ("STATIC", 0x0008),
      ("FINAL", 0x0010), ("INTERFACE", 0x0200), ("ABSTRACT", 0x0400), ("SYNTHETIC", 0x1000),
      ("ANNOTATION", 0x2000), ("ENUM", 0x4000)]
  | methodParameter => [("FINAL", 0x0010), ("SYNTHETIC", 0x1000), ("MANDATED", 0x8000)]
  | module => [("OPEN", 0x0020), ("SYNTHETIC", 0x1000), ("MANDATED", 0x8000)]
  | requires =>
    [("TRANSITIVE", 0x0020), ("STATIC_PHASE", 0x0040), ("SYNTHETIC", 0x1000),
      ("MANDATED", 0x8000)]
  | exports => [("SYNTHETIC", 0x1000), ("MANDATED", 0x8000)]

/-- All bits that have a name in the set. -/
def mask (s : FlagSet) : UInt16 := s.named.foldl (fun bits flag => bits ||| flag.2) 0

end FlagSet

/-- Named bits of a flag set. -/
structure Flags (s : FlagSet) where
  bits : UInt16
  bits_named : bits &&& s.mask = bits

namespace Flags

variable {s : FlagSet}

/-- The named ones of the given bits. -/
def ofBits (s : FlagSet) (bits : UInt16) : Flags s :=
  ⟨bits &&& s.mask, by rw [UInt16.and_assoc, UInt16.and_self]⟩

/-- The named bits that are not among these. -/
def complement (f : Flags s) : Flags s := ofBits s (~~~f.bits)

/-- Are all named bits set? -/
def isAll (f : Flags s) : Bool := f.bits == s.mask

/-- The names of the flags that are set, joined by bars. -/
def describe (f : Flags s) : String :=
  match s.named.filter (fun flag => f.bits &&& flag.2 == flag.2) with
  | [] => "(empty)"
  | flags => " | ".intercalate (flags.map (·.1))

def encode (f : Flags s) : List UInt8 := BigEndian.u2 f.bits

end Flags

end JvmClass
