import JvmClass.Constant.Tag

/-!
# Opcodes

The operation codes of the virtual machine are the bytes 0x00 to 0xc9.  An opcode is held by its
byte; its mnemonic is looked up in a table, and its kind, which says what operands follow it, is
read off the range that the byte lies in.
-/

namespace JvmClass

/-- The shape of the operands that follow an opcode. -/
inductive OpcodeKind
  /-- No operands. -/
  | simple
  /-- The index of a local variable, one byte, or two behind `wide`. -/
  | localIndex
  /-- The index of a local variable and a signed increment. -/
  | increment
  /-- A two-byte pool slot. -/
  | constantRef
  /-- A one-byte pool slot. -/
  | narrowConstantRef
  /-- A two-byte pool slot, an argument count and a zero byte. -/
  | invokeInterface
  /-- A two-byte pool slot and two zero bytes. -/
  | invokeDynamic
  /-- A two-byte pool slot and a number of dimensions. -/
  | multiANewArray
  /-- A two-byte relative jump. -/
  | branch
  /-- A four-byte relative jump. -/
  | wideBranch
  /-- One immediate byte. -/
  | byteImmediate
  /-- Two immediate bytes. -/
  | shortImmediate
  | tableSwitch
  | lookupSwitch
  /-- The modifier of a following local variable instruction. -/
  | wideModifier
  deriving DecidableEq, Hashable, Repr

namespace OpcodeKind

/-- The name of a kind in messages. -/
def name : OpcodeKind → String
  | simple => "Simple"
  | localIndex => "LocalIndex"
  | increment => "Increment"
  | constantRef => "ConstantRef"
  | narrowConstantRef => "NarrowConstantRef"
  | invokeInterface => "InvokeInterface"
  | invokeDynamic => "InvokeDynamic"
  | multiANewArray => "MultiANewArray"
  | branch => "Branch"
  | wideBranch => "WideBranch"
  | byteImmediate => "ByteImmediate"
  | shortImmediate => "ShortImmediate"
  | tableSwitch => "TableSwitch"
  | lookupSwitch => "LookupSwitch"
  | wideModifier => "WidePrefix"

instance : ToString OpcodeKind := ⟨name⟩

/-- The number of operand bytes, where the kind alone decides it. -/
def operandBytes? : OpcodeKind → Option Nat
  | simple => some 0
  | localIndex | narrowConstantRef | byteImmediate => some 1
  | increment | constantRef | branch | shortImmediate => some 2
  | multiANewArray => some 3
  | invokeInterface | invokeDynamic | wideBranch => some 4
  | tableSwitch | lookupSwitch | wideModifier => none

/-- The kind of the opcode with the given byte. -/
def ofByte (byte : UInt8) : OpcodeKind :=
  match byte with
  | 0x10 | 0xbc => byteImmediate
  | 0x11 => shortImmediate
  | 0x12 => narrowConstantRef
  | 0x13 | 0x14 | 0xbb | 0xbd | 0xc0 | 0xc1 => constantRef
  | 0x84 => increment
  | 0xa9 => localIndex
  | 0xaa => tableSwitch
  | 0xab => lookupSwitch
  | 0xb9 => invokeInterface
  | 0xba => invokeDynamic
  | 0xc4 => wideModifier
  | 0xc5 => multiANewArray
  | 0xc6 | 0xc7 => branch
  | 0xc8 | 0xc9 => wideBranch
  | _ =>
    if 0x15 ≤ byte ∧ byte ≤ 0x19 then localIndex
    else if 0x36 ≤ byte ∧ byte ≤ 0x3a then localIndex
    else if 0x99 ≤ byte ∧ byte ≤ 0xa8 then branch
    else if 0xb2 ≤ byte ∧ byte ≤ 0xb8 then constantRef
    else simple

end OpcodeKind

/-- An operation code, held by its byte. -/
structure Opcode where
  byte : UInt8
  byte_lt : byte < 202 := by decide
  deriving DecidableEq, Hashable

namespace Opcode

instance : Inhabited Opcode := ⟨⟨0, by decide⟩⟩

/-- The mnemonics, in the order of the bytes. -/
def mnemonics : Array String :=
  #[
    "nop", "aconst_null", "iconst_m1", "iconst_0", "iconst_1", "iconst_2", "iconst_3", "iconst_4",
    "iconst_5", "lconst_0", "lconst_1", "fconst_0", "fconst_1", "fconst_2", "dconst_0", "dconst_1",
    "bipush", "sipush", "ldc", "ldc_w", "ldc2_w", "iload", "lload", "fload", "dload", "aload",
    "iload_0", "iload_1", "iload_2", "iload_3", "lload_0", "lload_1", "lload_2", "lload_3",
    "fload_0", "fload_1", "fload_2", "fload_3", "dload_0", "dload_1", "dload_2", "dload_3",
    "aload_0", "aload_1", "aload_2", "aload_3", "iaload", "laload", "faload", "daload", "aaload",
    "baload", "caload", "saload", "istore", "lstore", "fstore", "dstore", "astore", "istore_0",
    "istore_1", "istore_2", "istore_3", "lstore_0", "lstore_1", "lstore_2", "lstore_3", "fstore_0",
    "fstore_1", "fstore_2", "fstore_3", "dstore_0", "dstore_1", "dstore_2", "dstore_3", "astore_0",
    "astore_1", "astore_2", "astore_3", "iastore", "lastore", "fastore", "dastore", "aastore",
    "bastore", "castore", "sastore", "pop", "pop2", "dup", "dup_x1", "dup_x2", "dup2", "dup2_x1",
    "dup2_x2", "swap", "iadd", "ladd", "fadd", "dadd", "isub", "lsub", "fsub", "dsub", "imul",
    "lmul", "fmul", "dmul", "idiv", "ldiv", "fdiv", "ddiv", "irem", "lrem", "frem", "drem", "ineg",
    "lneg", "fneg", "dneg", "ishl", "lshl", "ishr", "lshr", "iushr", "lushr", "iand", "land",
    "ior", "lor", "ixor", "lxor", "iinc", "i2l", "i2f", "i2d", "l2i", "l2f", "l2d", "f2i", "f2l",
    "f2d", "d2i", "d2l", "d2f", "i2b", "i2c", "i2s", "lcmp", "fcmpl", "fcmpg", "dcmpl", "dcmpg",
    "ifeq", "ifne", "iflt", "ifge", "ifgt", "ifle", "if_icmpeq", "if_icmpne", "if_icmplt",
    "if_icmpge", "if_icmpgt", "if_icmple", "if_acmpeq", "if_acmpne", "goto", "jsr", "ret",
    "tableswitch", "lookupswitch", "ireturn", "lreturn", "freturn", "dreturn", "areturn", "return",
    "getstatic", "putstatic", "getfield", "putfield", "invokevirtual", "invokespecial",
    "invokestatic", "invokeinterface", "invokedynamic", "new", "newarray", "anewarray",
    "arraylength", "athrow", "checkcast", "instanceof", "monitorenter", "monitorexit", "wide",
    "multianewarray", "ifnull", "ifnonnull", "goto_w", "jsr_w"
  ]

def mnemonic (op : Opcode) : String := mnemonics.getD op.byte.toNat ""

instance : ToString Opcode := ⟨mnemonic⟩

/-- The opcode with the given byte. -/
def ofByte? (byte : UInt8) : Option Opcode :=
  if h : byte < 202 then some ⟨byte, h⟩ else none

/-- The opcode with the given mnemonic. -/
def ofMnemonic? (name : String) : Option Opcode :=
  (mnemonics.findIdx? (· == name)).bind fun i => ofByte? (UInt8.ofNat i)

def kind (op : Opcode) : OpcodeKind := .ofByte op.byte

/-- The number of operand bytes, where the opcode alone decides it. -/
def operandBytes? (op : Opcode) : Option Nat := op.kind.operandBytes?

def ldc : Opcode := ⟨0x12, by decide⟩

def ldcW : Opcode := ⟨0x13, by decide⟩

def ldc2W : Opcode := ⟨0x14, by decide⟩

def aload : Opcode := ⟨0x19, by decide⟩

def iinc : Opcode := ⟨0x84, by decide⟩

def tableSwitch : Opcode := ⟨0xaa, by decide⟩

def lookupSwitch : Opcode := ⟨0xab, by decide⟩

def voidReturn : Opcode := ⟨0xb1, by decide⟩

def getStatic : Opcode := ⟨0xb2, by decide⟩

def invokeVirtual : Opcode := ⟨0xb6, by decide⟩

def invokeSpecial : Opcode := ⟨0xb7, by decide⟩

def wide : Opcode := ⟨0xc4, by decide⟩

/-- The kinds of constants that an instruction with a two-byte pool slot may refer to; none for
every other kind of instruction. -/
def constantTags (op : Opcode) : List Tag :=
  match op.byte with
  | 0xb2 | 0xb3 | 0xb4 | 0xb5 => [.fieldRef]
  | 0xb6 => [.methodRef]
  | 0xb7 | 0xb8 => [.methodRef, .interfaceMethodRef]
  | 0xbb | 0xbd | 0xc0 | 0xc1 => [.class]
  | 0x13 => [.integer, .float, .class, .string, .methodHandle, .methodType, .dynamic]
  | 0x14 => [.long, .double, .dynamic]
  | _ => []

/-- The one-byte form of a load or store of one of the first four local variables. -/
def short? (op : Opcode) (index : UInt16) : Option Opcode :=
  if 3 < index then
    none
  else if 0x15 ≤ op.byte ∧ op.byte ≤ 0x19 then
    ofByte? (0x1a + (op.byte - 0x15) * 4 + index.toUInt8)
  else if 0x36 ≤ op.byte ∧ op.byte ≤ 0x3a then
    ofByte? (0x3b + (op.byte - 0x36) * 4 + index.toUInt8)
  else
    none

theorem ofByte?_byte (op : Opcode) : ofByte? op.byte = some op := by
  simp [ofByte?, op.byte_lt]

end Opcode

/-- The element type of an array of primitives. -/
inductive ArrayType
  | boolean | char | float | double | byte | short | int | long
  deriving DecidableEq, Repr

namespace ArrayType

def all : List ArrayType := [.boolean, .char, .float, .double, .byte, .short, .int, .long]

/-- The number that stands for an element type. -/
def code : ArrayType → UInt8
  | boolean => 4
  | char => 5
  | float => 6
  | double => 7
  | byte => 8
  | short => 9
  | int => 10
  | long => 11

/-- The element type with a given number. -/
def ofCode? (code : UInt8) : Option ArrayType := all.find? (·.code == code)

end ArrayType

/-- A position in the code of a method, known or still to come.  Labels are numbered from 0 in the
order in which they are defined. -/
structure Label where
  id : Nat
  deriving DecidableEq, Repr, Inhabited

instance : ToString Label := ⟨fun l => s!"l{l.id}"⟩

end JvmClass
