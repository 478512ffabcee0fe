import JvmClass.CountedTable

/-!
# Annotations

An annotation names its type and gives values to some of its elements.  A value is a constant, an
enum constant, another annotation, or an array of values, to any depth.  An annotation of a type
says besides where in the code or declaration the type stands, and where in the type it applies.
-/

namespace JvmClass

/-- What a constant element value is meant to be. -/
inductive ElementKind
  | byte | char | double | float | int | long | short | boolean | string | «class»
  deriving DecidableEq, Repr

namespace ElementKind

/-- The letter that stands for a kind of value. -/
def letter : ElementKind → Char
  | byte => 'B'
  | char => 'C'
  | double => 'D'
  | float => 'F'
  | int => 'I'
  | long => 'J'
  | short => 'S'
  | boolean => 'Z'
  | string => 's'
  | «class» => 'c'

def all : List ElementKind :=
  [.byte, .char, .double, .float, .int, .long, .short, .boolean, .string, .class]

/-- The kind of the constant that holds such a value. -/
@[reducible] def constantTag : ElementKind → Tag
  | byte | char | int | short | boolean => .integer
  | double => .double
  | float => .float
  | long => .long
  | string | «class» => .utf8

def byteOf (kind : ElementKind) : UInt8 := UInt8.ofNat kind.letter.toNat

/-- The kind of value that a tag byte stands for, if it is a constant. -/
def ofByte? (byte : UInt8) : Option ElementKind := all.find? (·.byteOf == byte)

end ElementKind

/-- The tag byte of an enum constant, the letter `e`. -/
def enumTag : UInt8 := 0x65

/-- The tag byte of a nested annotation, an at sign. -/
def nestedTag : UInt8 := 0x40

/-- The tag byte of an array, an opening bracket. -/
def arrayTag : UInt8 := 0x5b

mutual

/-- The value of an element. -/
inductive ElementValue
  | constant (kind : ElementKind) (value : Ref kind.constantTag)
  | enumConstant (type name : Ref .utf8)
  | nested (entry : AnnotationEntry)
  | array (values : List ElementValue)

/-- An annotation: the descriptor of its type, and its elements in order. -/
inductive AnnotationEntry
  | mk (type : Ref .utf8) (elements : List ElementPair)

/-- The name of an element and its value. -/
inductive ElementPair
  | mk (name : Ref .utf8) (value : ElementValue)

end

instance : Inhabited ElementValue := ⟨.array []⟩

instance : Inhabited AnnotationEntry := ⟨.mk .none []⟩

mutual

def ElementValue.encode : ElementValue → Except Error (List UInt8)
  | .constant kind value => return kind.byteOf :: value.encode
  | .enumConstant type name => return enumTag :: (type.encode ++ name.encode)
  | .nested entry => do return nestedTag :: (← entry.encode)
  | .array values => do
    return arrayTag :: (← CountedTable.ofEntries "array_value" .two (encodeValues values))

def AnnotationEntry.encode : AnnotationEntry → Except Error (List UInt8)
  | .mk type elements => do
    return type.encode ++
      (← CountedTable.ofEntries "element_value_pairs" .two (encodePairs elements))

def ElementPair.encode : ElementPair → Except Error (List UInt8)
  | .mk name value => do return name.encode ++ (← value.encode)

def encodeValues : List ElementValue → List (Except Error (List UInt8))
  | [] => []
  | value :: rest => value.encode :: encodeValues rest

def encodePairs : List ElementPair → List (Except Error (List UInt8))
  | [] => []
  | pair :: rest => pair.encode :: encodePairs rest

end

/-- A range of the code in which a local variable lives. -/
structure LocalRange where
  start : UInt16
  length : UInt16
  index : UInt16
  deriving DecidableEq, Repr

def LocalRange.encode (r : LocalRange) : List UInt8 :=
  BigEndian.u2 r.start ++ BigEndian.u2 r.length ++ BigEndian.u2 r.index

/-- Where an annotated type stands. -/
inductive TargetInfo
  | typeParameter (index : UInt8)
  | supertype (index : UInt16)
  | typeParameterBound (parameter bound : UInt8)
  | empty
  | formalParameter (index : UInt8)
  | throws (index : UInt16)
  | localVariable (ranges : List LocalRange)
  | catch (handler : UInt16)
  | offset (position : UInt16)
  | typeArgument (position : UInt16) (index : UInt8)
  deriving DecidableEq, Repr

def TargetInfo.encode : TargetInfo → Except Error (List UInt8)
  | typeParameter index | formalParameter index => return [index]
  | supertype index | throws index => return BigEndian.u2 index
  | typeParameterBound parameter bound => return [parameter, bound]
  | empty => return []
  | localVariable ranges => CountedTable.ofList "localvar_target" .two LocalRange.encode ranges
  | «catch» handler => return BigEndian.u2 handler
  | offset position => return BigEndian.u2 position
  | typeArgument position index => return BigEndian.u2 position ++ [index]

/-- A step into a type. -/
structure TypePathStep where
  kind : UInt8
  argument : UInt8
  deriving DecidableEq, Repr

def TypePathStep.encode (s : TypePathStep) : List UInt8 := [s.kind, s.argument]

/-- An annotation of a type. -/
structure TypeAnnotationEntry where
  targetType : UInt8
  target : TargetInfo
  path : List TypePathStep
  entry : AnnotationEntry

def TypeAnnotationEntry.encode (a : TypeAnnotationEntry) : Except Error (List UInt8) := do
  let target ← a.target.encode
  let path ← CountedTable.ofList "type_path" .one TypePathStep.encode a.path
  return a.targetType :: (target ++ path ++ (← a.entry.encode))

end JvmClass
