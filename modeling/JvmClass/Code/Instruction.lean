import JvmClass.Error

/-!
# Instructions without jumps

An `Instruction` says what is to be done; `encode` finds the shortest form that can hold its
operands and refuses opcodes and constants that do not go together.  Jumps are not among them, since
their operands depend on where their targets end up.
-/

namespace JvmClass

/-- An instruction that does not jump. -/
inductive Instruction
  /-- An opcode without operands. -/
  | plain (op : Opcode)
  /-- A load, a store, or a return from a subroutine by a local variable. -/
  | localVar (op : Opcode) (index : UInt16)
  /-- Add a number to a local variable. -/
  | increment (index : UInt16) (delta : Int16)
  /-- An opcode with a two-byte pool slot; the kind of the constant is checked if it is known. -/
  | constant (op : Opcode) (slot : Slot) (kind : Option Tag)
  /-- Push a constant of one stack entry. -/
  | load (slot : Slot) (kind : Tag)
  /-- Push a constant of two stack entries. -/
  | loadWide (slot : Slot) (kind : Tag)
  | pushByte (value : Int8)
  | pushShort (value : Int16)
  | newArray (element : ArrayType)
  | multiANewArray (element : Ref .class) (dimensions : UInt8)
  /-- Call an interface method; `count` is the number of stack entries of its arguments. -/
  | invokeInterface (method : Ref .interfaceMethodRef) (count : UInt8)
  | invokeDynamic (site : Ref .invokeDynamic)

namespace Instruction

/-- Refuse an opcode that is not of the expected kind. -/
def expectKind (op : Opcode) (expected : OpcodeKind) : Except Error Unit :=
  if op.kind = expected then .ok () else .error (.wrongOpcodeKind op expected)

/-- Refuse a constant of a kind that the opcode does not take. -/
def expectConstant (op : Opcode) (slot : Slot) : Option Tag → Except Error Unit
  | none => .ok ()
  | some kind =>
    if kind ∈ op.constantTags then
      .ok ()
    else
      .error (.badKind slot (op.constantTags.headD .class) kind)

/-- An opcode with a two-byte pool slot. -/
def encodeConstant (op : Opcode) (slot : Slot) (kind : Option Tag) : Except Error (List UInt8) := do
  expectKind op .constantRef
  expectConstant op slot kind
  return op.byte :: BigEndian.u2 slot

/-- A local variable instruction: one byte for the first four variables where there is such a form,
an operand byte up to variable 255, and the `wide` form beyond. -/
def encodeLocal (op : Opcode) (index : UInt16) : List UInt8 :=
  match op.short? index with
  | some short => [short.byte]
  | none =>
    if index < 256 then
      [op.byte, index.toUInt8]
    else
      Opcode.wide.byte :: op.byte :: BigEndian.u2 index

/-- An increment, in the `wide` form only if an operand needs it. -/
def encodeIncrement (index : UInt16) (delta : Int16) : List UInt8 :=
  if index < 256 ∧ -128 ≤ delta.toInt ∧ delta.toInt ≤ 127 then
    [Opcode.iinc.byte, index.toUInt8, delta.toUInt16.toUInt8]
  else
    Opcode.wide.byte :: Opcode.iinc.byte ::
      (BigEndian.u2 index ++ BigEndian.u2 delta.toUInt16)

/-- The bytes of an instruction. -/
def encode : Instruction → Except Error (List UInt8)
  | plain op => do
    expectKind op .simple
    return [op.byte]
  | localVar op index => do
    expectKind op .localIndex
    return encodeLocal op index
  | increment index delta => return encodeIncrement index delta
  | constant op slot kind => encodeConstant op slot kind
  | load slot kind => do
    expectConstant .ldcW slot (some kind)
    if slot < 256 then
      return [Opcode.ldc.byte, slot.toUInt8]
    else
      encodeConstant .ldcW slot (some kind)
  | loadWide slot kind => encodeConstant .ldc2W slot (some kind)
  | pushByte value => return [0x10, value.toUInt8]
  | pushShort value => return 0x11 :: BigEndian.u2 value.toUInt16
  | newArray element => return [0xbc, element.code]
  | multiANewArray element dimensions =>
    return 0xc5 :: BigEndian.u2 element.slot ++ [dimensions]
  | invokeInterface method count =>
    return 0xb9 :: BigEndian.u2 method.slot ++ [count, 0]
  | invokeDynamic site => return 0xba :: BigEndian.u2 site.slot ++ [0, 0]

end Instruction

end JvmClass
