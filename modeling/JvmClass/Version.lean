import JvmClass.Byte.BigEndian

/-!
# Versions of the class file format

A version is a major and a minor number, compared in this order and printed as `major.minor`.  In
the file the minor number comes first.
-/

namespace JvmClass

structure Version where
  major : UInt16
  minor : UInt16
  deriving DecidableEq, Hashable, Repr, Inhabited

namespace Version

/-- The place of a version in the order: its major number weighs more than any minor one. -/
def rank (v : Version) : Nat := v.major.toNat * 65536 + v.minor.toNat

instance : LT Version := ⟨fun a b => a.rank < b.rank⟩

instance : LE Version := ⟨fun a b => a.rank ≤ b.rank⟩

instance (a b : Version) : Decidable (a < b) := inferInstanceAs (Decidable (a.rank < b.rank))

instance (a b : Version) : Decidable (a ≤ b) := inferInstanceAs (Decidable (a.rank ≤ b.rank))

instance : Ord Version := ⟨fun a b => compare a.rank b.rank⟩

instance : ToString Version := ⟨fun v => s!"{v.major}.{v.minor}"⟩

/-- The two fields as a class file holds them. -/
def encode (v : Version) : List UInt8 :=
  BigEndian.u2 v.minor ++ BigEndian.u2 v.major

/-- The version of J2SE 1.4, the first with surrogate pairs in strings. -/
def java1_4 : Version := ⟨48, 0⟩

/-- The version of Java SE 7, the first with method handles and dynamic calls. -/
def java7 : Version := ⟨51, 0⟩

/-- The version of Java SE 8, the first with static and private interface methods. -/
def java8 : Version := ⟨52, 0⟩

/-- The version of Java SE 9, the first with modules. -/
def java9 : Version := ⟨53, 0⟩

/-- The version of Java SE 11, the first with dynamic constants. -/
def java11 : Version := ⟨55, 0⟩

theorem lt_iff (a b : Version) :
    a < b ↔ a.major < b.major ∨ a.major = b.major ∧ a.minor < b.minor := by
  have ha := a.minor.toNat_lt
  have hb := b.minor.toNat_lt
  rw [UInt16.lt_iff_toNat_lt, UInt16.lt_iff_toNat_lt, ← UInt16.toNat_inj]
  show a.rank < b.rank ↔ _
  unfold rank
  omega

end Version

end JvmClass
