import JvmClass.Proofs.Checked
import JvmClass.Remap.Code

/-!
# Moving code along a cursor

A `Scanner` moves the code of a method as a processor does: along a cursor into the bytes, with
numbers that fit into words, through loops that end when a position has passed the end, and by
calling itself as deep as annotations are nested.  Nothing here makes it return.  An index or a
difference outside its range stops it, so does the branch for instructions of an unforeseen kind,
and the walk over the code (`View.walk`) and the reading of annotations (`View.annotationEntry`,
`View.elementValue`) have no bound on their steps.

The constants and attributes are those of `Remap.code`: what copies them always returns.
-/

namespace JvmClass

/-- A place in the bytes of an attribute with the given name. -/
structure Cursor where
  name : String
  bytes : List UInt8
  position : Nat

/-- The cursor, the pool that constants are copied to, and the attributes written for that pool so
far. -/
structure Scanner where
  cursor : Cursor
  output : AttributeWriter

open Checked

namespace Scanner

variable {σ α : Type}

/-! ## Reading bytes -/

/-- Report a fault of the attribute being read. -/
def fail (fault : AttributeFault) : Checked Scanner α := do
  throw (.malformedAttribute (← get).cursor.name fault)

/-- Report that the attribute ends before it should. -/
def truncated : Checked Scanner α := do
  fail (.truncated (← get).cursor.position)

def moveTo (position : Nat) : Checked Scanner Unit :=
  modify fun s => { s with cursor.position := position }

/-- Take a big-endian field of `width` bytes. -/
def field (width : Nat) : Checked Scanner Nat := do
  let c := (← get).cursor
  let rest := c.bytes.drop c.position
  if rest.length < width then
    -- A field that does not fit uses up what is left.
    moveTo c.bytes.length
    truncated
  else
    moveTo (← add c.position width)
    return BigEndian.decode (rest.take width)

def u1 : Checked Scanner UInt8 := UInt8.ofNat <$> field 1

def u2 : Checked Scanner UInt16 := UInt16.ofNat <$> field 2

def u4 : Checked Scanner Nat := field 4

/-- Take `count` bytes as they are.  Where they would end may be no word, which is not an error of
its own. -/
def bytes (count : Nat) : Checked Scanner (List UInt8) := do
  let c := (← get).cursor
  let stop := c.position + count
  let found := if stop < 18446744073709551616 then slice? c.bytes c.position stop else none
  match found with
  | some part =>
    moveTo (← add c.position count)
    return part
  | none => truncated

/-- Check that all of the attribute has been read. -/
def finish : Checked Scanner Unit := do
  let c := (← get).cursor
  let left ← sub c.bytes.length c.position
  if 0 < left then
    fail (.trailing left)
  else
    return ()

/-- Read a two-byte count and so many items.  It can be unfolded where the items are what is being
defined. -/
abbrev counted (item : Checked Scanner α) : Checked Scanner (List α) := do
  times (← u2).toNat item

/-- Do something to the attributes written so far and their pool. -/
def onOutput (act : Action Error AttributeWriter α) : Checked Scanner α := fun s =>
  match act.exec s.output with
  | (r, output) => some (r, { s with output })

/-- Copy a constant of any kind. -/
def copy (source : View) (i : Slot) : Checked Scanner Slot :=
  onOutput (AttributeWriter.onPool (Pool.copy source i))

/-- Read a reference to a constant of the given kind and copy the constant. -/
def ref (kind : Tag) (source : View) : Checked Scanner (Ref kind) := do
  let i ← u2
  onOutput (AttributeWriter.onPool (Pool.copyAs kind source i))

/-- Read another attribute to its end, with a cursor of its own. -/
def reading (inner : Cursor) (prog : Checked Scanner α) : Checked Scanner α := fun s =>
  let whole : Checked Scanner α := do
    let a ← prog
    finish
    return a
  (whole.exec ⟨inner, s.output⟩).map fun (r, s') => (r, ⟨s.cursor, s'.output⟩)

/-! ## Instructions -/

/-- The signed four-byte field at a position of the code, which is part of the switch at `pc`. -/
def switchField (code : List UInt8) (pc position : Nat) : Checked σ Int := do
  match slice? code position (← add position 4) with
  | some field => return BigEndian.decodeInt field
  | none => throw (.malformedCode pc .truncatedSwitch)

/-- The number of bytes of the instruction that starts at `pc`, opcode included. -/
def instructionSize (code : List UInt8) (pc : Nat) (op : Opcode) : Checked σ Nat := do
  match op.kind.operandBytes? with
  | some operands => add 1 operands
  | none =>
    let next ← add pc 1
    let padding := (← sub 4 (next % 4)) % 4
    let operands ← add next padding
    match op.kind with
    | .wideModifier =>
      match code[next]?.bind Opcode.ofByte? with
      | some modified =>
        if modified = .iinc then return 6
        else if modified.kind = .localIndex then return 4
        else throw (.malformedCode pc .notModifiable)
      | none => throw (.malformedCode pc .notModifiable)
    | .tableSwitch =>
      let low ← switchField code pc (← add operands 4)
      let high ← switchField code pc (← add operands 8)
      if high < (← signed (low - 1)) then
        throw (.malformedCode pc .emptyKeyRange)
      let keys ← signed ((← signed (high - low)) + 1)
      add (← add (← add 1 padding) 12) (← mul 4 (unsigned keys))
    | .lookupSwitch =>
      let pairs ← switchField code pc (← add operands 4)
      if pairs < 0 then
        throw (.malformedCode pc .negativePairCount)
      add (← add (← add 1 padding) 8) (← mul 8 pairs.toNat)
    | _ => crash

/-- The instruction that starts at `pc`: its opcode, and all of its bytes. -/
def instructionAt (code : List UInt8) (pc : Nat) : Checked σ (Opcode × List UInt8) := do
  let first ← index code pc
  match Opcode.ofByte? first with
  | none => throw (.malformedCode pc (.unknownOpcode first))
  | some op =>
    let size ← instructionSize code pc op
    match slice? code pc (← add pc size) with
    | none => throw (.malformedCode pc (.truncated op))
    | some bytes => return (op, bytes)

/-- The bytes of an instruction with its constant copied. -/
def instruction (source : View) (op : Opcode) (bytes : List UInt8) :
    Checked Scanner (List UInt8) := do
  match op.kind with
  | .constantRef | .multiANewArray | .invokeInterface | .invokeDynamic =>
    let slot ← copy source (UInt16.ofNat (BigEndian.decode (← slice bytes 1 3)))
    return (← index bytes 0) :: (BigEndian.u2 slot ++ (← slice bytes 3 bytes.length))
  | .narrowConstantRef =>
    let slot ← copy source (← index bytes 1).toUInt16
    if slot < 256 then
      return [← index bytes 0, slot.toUInt8]
    else
      throw (.narrowSlot op slot)
  | _ => return bytes

/-! ## Stack map frames -/

def verificationType (source : View) : Checked Scanner VerificationType := do
  match ← u1 with
  | 0 => return .top
  | 1 => return .integer
  | 2 => return .float
  | 3 => return .double
  | 4 => return .long
  | 5 => return .null
  | 6 => return .uninitializedThis
  | 7 => return .object (← ref .class source)
  | 8 => return .uninitialized (← u2)
  | tag => fail (.unknownVerificationType tag)

def frame (source : View) : Checked Scanner StackMapFrame := do
  let kind ← u1
  if kind < 64 then
    return .same kind.toUInt16
  else if kind < 128 then
    let delta ← subByte kind 64
    return .oneStack delta.toUInt16 (← verificationType source)
  else if kind < 247 then
    fail (.reservedFrame kind)
  else if kind = 247 then
    let delta ← u2
    return .oneStack delta (← verificationType source)
  else if kind < 251 then
    let delta ← u2
    return .chop delta (← subByte 251 kind)
  else if kind = 251 then
    return .same (← u2)
  else if kind < 255 then
    let delta ← u2
    let locals ← subByte kind 251
    return .append delta (← times locals.toNat (verificationType source))
  else
    let delta ← u2
    let locals ← counted (verificationType source)
    return .full delta locals (← counted (verificationType source))

/-! ## Targets of annotations -/

def localRange : Checked Scanner LocalRange := do
  let start ← u2
  let length ← u2
  return { start, length, index := ← u2 }

/-- Read where an annotated type stands; the kind of its target has been read before. -/
def targetInfo (targetType : UInt8) : Checked Scanner TargetInfo := do
  match targetType with
  | 0x00 | 0x01 => return .typeParameter (← u1)
  | 0x10 => return .supertype (← u2)
  | 0x11 | 0x12 =>
    let parameter ← u1
    return .typeParameterBound parameter (← u1)
  | 0x13 | 0x14 | 0x15 => return .empty
  | 0x16 => return .formalParameter (← u1)
  | 0x17 => return .throws (← u2)
  | 0x40 | 0x41 => return .localVariable (← counted localRange)
  | 0x42 => return .catch (← u2)
  | 0x43 | 0x44 | 0x45 | 0x46 => return .offset (← u2)
  | 0x47 | 0x48 | 0x49 | 0x4a | 0x4b =>
    let position ← u2
    return .typeArgument position (← u1)
  | _ => fail (.unknownTarget targetType)

def typePathStep : Checked Scanner TypePathStep := do
  let kind ← u1
  return { kind, argument := ← u1 }

end Scanner

/-! ## Programs without a bound -/

namespace View

open Scanner

/-- Go on with the instructions from `pc` on, behind the bytes written for those before. -/
def walk (source : View) (code : List UInt8) (pc : Nat) (written : List UInt8) :
    Checked Scanner (List UInt8) := do
  if pc < code.length then
    let (op, bytes) ← instructionAt code pc
    let moved ← instruction source op bytes
    let next ← add pc bytes.length
    source |>.walk code next (written ++ moved)
  else
    return written
partial_fixpoint

mutual

def annotationEntry (source : View) : Checked Scanner AnnotationEntry := do
  let type ← ref .utf8 source
  return .mk type (← counted do
    let name ← ref .utf8 source
    return .mk name (← source |>.elementValue))
partial_fixpoint

def elementValue (source : View) : Checked Scanner ElementValue := do
  let tag ← u1
  match ElementKind.ofByte? tag with
  | some kind => return .constant kind (← ref kind.constantTag source)
  | none =>
    if tag = enumTag then
      let type ← ref .utf8 source
      return .enumConstant type (← ref .utf8 source)
    else if tag = nestedTag then
      return .nested (← source |>.annotationEntry)
    else if tag = arrayTag then
      return .array (← counted (source |>.elementValue))
    else
      fail (.unknownElementValue tag)
partial_fixpoint

end

end View

namespace Scanner

/-! ## Attributes -/

def typeAnnotationEntry (source : View) : Checked Scanner TypeAnnotationEntry := do
  let targetType ← u1
  let target ← targetInfo targetType
  let path ← times (← u1).toNat typePathStep
  return { targetType, target, path, entry := ← source.annotationEntry }

def lineNumber : Checked Scanner LineNumber := do
  let start ← u2
  return { start, line := ← u2 }

def localVariable (source : View) : Checked Scanner LocalVariable := do
  let start ← u2
  let length ← u2
  let name ← ref .utf8 source
  let type ← ref .utf8 source
  return { start, length, name, type, index := ← u2 }

/-- How the attribute of the code with a given name is read, if its form is known. -/
def known? (source : View) (name : String) : Option (Checked Scanner Attribute) :=
  if name = "LineNumberTable" then
    some (.lineNumberTable <$> counted lineNumber)
  else if name = "LocalVariableTable" then
    some (.localVariableTable <$> counted (localVariable source))
  else if name = "LocalVariableTypeTable" then
    some (.localVariableTypeTable <$> counted (localVariable source))
  else if name = "StackMapTable" then
    some (.stackMapTable <$> counted (frame source))
  else if name = "RuntimeVisibleTypeAnnotations" then
    some (.typeAnnotations .visible <$> counted (typeAnnotationEntry source))
  else if name = "RuntimeInvisibleTypeAnnotations" then
    some (.typeAnnotations .invisible <$> counted (typeAnnotationEntry source))
  else
    none

/-- Move an attribute of the code. -/
def nestedAttribute (source : View) (name : String) (info : List UInt8) :
    Checked Scanner Unit := do
  match known? source name with
  | some read => do
    let a ← reading ⟨name, info, 0⟩ read
    onOutput (AttributeWriter.add a)
  | none => onOutput (AttributeWriter.addNamed name info)

/-- Read and move the next attribute of the code. -/
def nextAttribute (source : View) : Checked Scanner Unit := do
  let i ← u2
  let size ← u4
  let info ← bytes size
  nestedAttribute source (← Checked.ofExcept (Remap.nameAt source i)) info

/-- Read an entry of an exception table and copy its class. -/
def handler (source : View) : Checked Scanner (List UInt8) := do
  let positions ← bytes 6
  return positions ++ (← ref .class source).encode

/-- Read and move the code of a method up to its attributes, which are collected. -/
def body (source : View) : Checked Scanner (List UInt8) := do
  let maxStack ← u2
  let maxLocals ← u2
  let size ← u4
  if Assembler.maxCodeSize < size then
    throw (.codeOverflow size)
  let code ← bytes size
  let code ← source.walk code 0 []
  let handlers ← counted (handler source)
  discard <| counted (nextAttribute source)
  finish
  return BigEndian.u2 maxStack ++ BigEndian.u2 maxLocals ++ BigEndian.encode 4 size ++ code
    ++ BigEndian.encode 2 handlers.length ++ handlers.flatten

/-- Move a `Code` attribute, given by its bytes after name and length, to the pool, if that
returns. -/
def code (source : View) (info : List UInt8) (pool : Pool) :
    Option (Except Error (List UInt8) × Pool) :=
  match (body source).exec ⟨⟨"Code", info, 0⟩, .start pool⟩ with
  | some (.ok bytes, ⟨_, pool, table⟩) => some (.ok (bytes ++ table.encode), pool)
  | some (.error e, ⟨_, pool, _⟩) => some (.error e, pool)
  | none => none

end Scanner

end JvmClass
