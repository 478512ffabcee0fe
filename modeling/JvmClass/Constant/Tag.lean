/-!
# Kinds of constants

Every record of a constant pool starts with a tag byte that says what kind of constant it is.  This
file holds the kinds, their numbers and names, and the finer kinds of the constants that come in
families: those that name something by one string, references to members, and dynamically computed
ones.
-/

namespace JvmClass

/-- The kind of a constant. -/
inductive Tag
  | utf8 | integer | float | long | double | «class» | string | fieldRef | methodRef
  | interfaceMethodRef | nameAndType | methodHandle | methodType | dynamic | invokeDynamic
  | module | package
  deriving DecidableEq, Hashable, Repr, Inhabited

namespace Tag

/-- Every kind, in the order of the tag bytes. -/
def all : List Tag :=
  [.utf8, .integer, .float, .long, .double, .class, .string, .fieldRef, .methodRef,
    .interfaceMethodRef, .nameAndType, .methodHandle, .methodType, .dynamic, .invokeDynamic,
    .module, .package]

/-- The tag byte. -/
def byte : Tag → UInt8
  | utf8 => 1
  | integer => 3
  | float => 4
  | long => 5
  | double => 6
  | «class» => 7
  | string => 8
  | fieldRef => 9
  | methodRef => 10
  | interfaceMethodRef => 11
  | nameAndType => 12
  | methodHandle => 15
  | methodType => 16
  | dynamic => 17
  | invokeDynamic => 18
  | module => 19
  | package => 20

def name : Tag → String
  | utf8 => "Utf8"
  | integer => "Integer"
  | float => "Float"
  | long => "Long"
  | double => "Double"
  | «class» => "Class"
  | string => "String"
  | fieldRef => "FieldRef"
  | methodRef => "MethodRef"
  | interfaceMethodRef => "InterfaceMethodRef"
  | nameAndType => "NameAndType"
  | methodHandle => "MethodHandle"
  | methodType => "MethodType"
  | dynamic => "Dynamic"
  | invokeDynamic => "InvokeDynamic"
  | module => "Module"
  | package => "Package"

instance : ToString Tag := ⟨name⟩

/-- The kind with a given tag byte. -/
def ofByte? (byte : UInt8) : Option Tag := all.find? (·.byte == byte)

/-- The kind with a given name. -/
def ofName? (name : String) : Option Tag := all.find? (·.name == name)

/-- The number of slots that a record takes up in the pool. -/
def width : Tag → Nat
  | long | double => 2
  | _ => 1

theorem mem_all (t : Tag) : t ∈ all := by cases t <;> decide

theorem ofByte?_byte (t : Tag) : ofByte? t.byte = some t := by cases t <;> rfl

theorem width_pos (t : Tag) : 0 < t.width := by cases t <;> decide

end Tag

/-- A constant that names something by a single string. -/
inductive NamedKind
  | «class» | string | methodType | module | package
  deriving DecidableEq, Hashable, Repr

/-- A reference to a member of a class. -/
inductive MemberKind
  | field | method | interfaceMethod
  deriving DecidableEq, Hashable, Repr

/-- Something that a bootstrap method computes: a constant, or the target of a call. -/
inductive DynamicKind
  | constant | call
  deriving DecidableEq, Hashable, Repr

def NamedKind.all : List NamedKind := [.class, .string, .methodType, .module, .package]

def MemberKind.all : List MemberKind := [.field, .method, .interfaceMethod]

@[reducible] def NamedKind.tag : NamedKind → Tag
  | «class» => .class
  | string => .string
  | methodType => .methodType
  | module => .module
  | package => .package

@[reducible] def MemberKind.tag : MemberKind → Tag
  | field => .fieldRef
  | method => .methodRef
  | interfaceMethod => .interfaceMethodRef

@[reducible] def DynamicKind.tag : DynamicKind → Tag
  | constant => .dynamic
  | call => .invokeDynamic

/-- What a method handle does with its member. -/
inductive HandleKind
  | getField | getStatic | putField | putStatic | invokeVirtual | invokeStatic | invokeSpecial
  | newInvokeSpecial | invokeInterface
  deriving DecidableEq, Hashable, Repr

namespace HandleKind

/-- Every kind of method handle, in the order of their numbers. -/
def all : List HandleKind :=
  [.getField, .getStatic, .putField, .putStatic, .invokeVirtual, .invokeStatic, .invokeSpecial,
    .newInvokeSpecial, .invokeInterface]

/-- The number of a kind in the class file. -/
def byte : HandleKind → UInt8
  | getField => 1
  | getStatic => 2
  | putField => 3
  | putStatic => 4
  | invokeVirtual => 5
  | invokeStatic => 6
  | invokeSpecial => 7
  | newInvokeSpecial => 8
  | invokeInterface => 9

def name : HandleKind → String
  | getField => "GetField"
  | getStatic => "GetStatic"
  | putField => "PutField"
  | putStatic => "PutStatic"
  | invokeVirtual => "InvokeVirtual"
  | invokeStatic => "InvokeStatic"
  | invokeSpecial => "InvokeSpecial"
  | newInvokeSpecial => "NewInvokeSpecial"
  | invokeInterface => "InvokeInterface"

instance : ToString HandleKind := ⟨name⟩

/-- The kind with a given number. -/
def ofByte? (byte : UInt8) : Option HandleKind := all.find? (·.byte == byte)

/-- Does a handle of this kind read or write a field? -/
def isFieldAccess : HandleKind → Bool
  | getField | getStatic | putField | putStatic => true
  | _ => false

theorem ofByte?_byte (k : HandleKind) : ofByte? k.byte = some k := by cases k <;> rfl

end HandleKind

end JvmClass
