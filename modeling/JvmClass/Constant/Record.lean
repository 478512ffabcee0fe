import JvmClass.Constant.Tag
import JvmClass.Version
import JvmClass.Text.ModifiedUtf8
import JvmClass.Text.Quoted

/-!
# Records of a constant pool

A `Record` is a constant as the pool stores it: whatever it refers to is given by slot.  A
`Constant` is the same thing with every reference spelled out.  Floating point numbers are held by
their bits, so that a negative zero and every NaN keep their identity.

`encode` writes a record, tag byte first; `describe` is its form in messages.
-/

namespace JvmClass

/-- A number of a slot in a constant pool.  Slot 0 is never used and means "nothing". -/
abbrev Slot := UInt16

/-- A slot that is meant to hold a constant of a certain kind. -/
structure Ref (kind : Tag) where
  slot : Slot
  deriving DecidableEq, Hashable, Repr, Inhabited

/-- The reference to nothing. -/
def Ref.none {kind : Tag} : Ref kind := ⟨0⟩

/-- The two bytes of a reference in a class file. -/
def Ref.encode {kind : Tag} (r : Ref kind) : List UInt8 := BigEndian.u2 r.slot

/-- A constant with its references given by slot. -/
inductive Record
  | utf8 (text : String)
  | integer (value : Int32)
  | float (bits : UInt32)
  | long (value : Int64)
  | double (bits : UInt64)
  | named (kind : NamedKind) (name : Ref .utf8)
  | member (kind : MemberKind) (owner : Ref .class) (nameAndType : Ref .nameAndType)
  | nameAndType (name descriptor : Ref .utf8)
  | methodHandle (kind : HandleKind) (target : Slot)
  | dynamic (kind : DynamicKind) (bootstrap : UInt16) (nameAndType : Ref .nameAndType)
  deriving DecidableEq, Hashable, Repr

namespace Record

def tag : Record → Tag
  | utf8 _ => .utf8
  | integer _ => .integer
  | float _ => .float
  | long _ => .long
  | double _ => .double
  | named kind _ => kind.tag
  | member kind _ _ => kind.tag
  | nameAndType _ _ => .nameAndType
  | methodHandle _ _ => .methodHandle
  | dynamic kind _ _ => kind.tag

/-- The number of slots that the record takes up. -/
def width (r : Record) : Nat := r.tag.width

/-- What follows the tag byte. -/
def payload (version : Version) : Record → List UInt8
  | utf8 text =>
    let bytes := ModifiedUtf8.encode version text
    BigEndian.encode 2 bytes.length ++ bytes
  | integer value => BigEndian.u4 value.toUInt32
  | float bits => BigEndian.u4 bits
  | long value => BigEndian.u8 value.toUInt64
  | double bits => BigEndian.u8 bits
  | named _ name => name.encode
  | member _ owner nat => owner.encode ++ nat.encode
  | nameAndType name descriptor => name.encode ++ descriptor.encode
  | methodHandle kind target => kind.byte :: BigEndian.u2 target
  | dynamic _ bootstrap nat => BigEndian.u2 bootstrap ++ nat.encode

/-- The bytes of a record in a class file of the given version. -/
def encode (version : Version) (r : Record) : List UInt8 := r.tag.byte :: r.payload version

/-- The text of a record in a message: its kind, and its parts with slots written `#n`. -/
def describe : Record → String
  | utf8 text => s!"Utf8({Text.quote text})"
  | integer value => s!"Integer({value})"
  | float bits => s!"Float({bits})"
  | long value => s!"Long({value})"
  | double bits => s!"Double({bits})"
  | named .methodType name => s!"MethodType \x7b descriptor: #{name.slot} \x7d"
  | named kind name => s!"{kind.tag}(#{name.slot})"
  | member kind owner nat =>
    s!"{kind.tag} \x7b class: #{owner.slot}, name_and_type: #{nat.slot} \x7d"
  | nameAndType name descriptor =>
    s!"NameAndType \x7b name: #{name.slot}, descriptor: #{descriptor.slot} \x7d"
  | methodHandle kind target =>
    s!"MethodHandle \x7b handle_kind: {kind}, member: #{target} \x7d"
  | dynamic kind bootstrap nat =>
    s!"{kind.tag} \x7b bootstrap_method: {bootstrap}, name_and_type: #{nat.slot} \x7d"

theorem width_pos (r : Record) : 0 < r.width := r.tag.width_pos

end Record

/-- A field or method, by the name of its class, its own name and its descriptor. -/
structure Member where
  owner : String
  name : String
  descriptor : String
  deriving DecidableEq, Hashable, Repr, Inhabited

/-- A constant with every reference spelled out. -/
inductive Constant
  | utf8 (text : String)
  | integer (value : Int32)
  | float (bits : UInt32)
  | long (value : Int64)
  | double (bits : UInt64)
  | named (kind : NamedKind) (name : String)
  | member (kind : MemberKind) (member : Member)
  | nameAndType (name descriptor : String)
  | methodHandle (kind : HandleKind) (memberKind : MemberKind) (member : Member)
  | dynamic (kind : DynamicKind) (bootstrap : UInt16) (name descriptor : String)
  deriving DecidableEq, Hashable, Repr

def Constant.tag : Constant → Tag
  | utf8 _ => .utf8
  | integer _ => .integer
  | float _ => .float
  | long _ => .long
  | double _ => .double
  | named kind _ => kind.tag
  | member kind _ => kind.tag
  | nameAndType _ _ => .nameAndType
  | methodHandle _ _ _ => .methodHandle
  | dynamic kind _ _ _ => kind.tag

end JvmClass
