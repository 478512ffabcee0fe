import JvmClass.Remap.Annotations
import JvmClass.Remap.StackMap

/-!
# Moving the code of a method to another pool

`Remap.code` takes the `Code` attribute of a method, copies every constant that it refers to into
another pool, and gives the attribute that says the same there.

Instructions keep their size, so that jumps and the padding of switches stay right.  Only the
one-byte operand of `ldc` may be too narrow for the new slot of its constant; then the method cannot
be moved.  Nested attributes whose form is not known here are moved byte for byte.
-/

namespace JvmClass

open Remapper

namespace Remap

/-- The bytes of an instruction with its constant copied. -/
def instruction (source : View) (i : CodedInstruction) : Action Error Remapper (List UInt8) := do
  match i.op.kind with
  | .constantRef | .multiANewArray | .invokeInterface | .invokeDynamic =>
    -- Whatever follows the slot, counts and zeros, is the same in every pool.
    let slot ← copy source (UInt16.ofNat (BigEndian.decode (i.operands.take 2)))
    return i.op.byte :: (BigEndian.u2 slot ++ i.operands.drop 2)
  | .narrowConstantRef =>
    let slot ← copy source (UInt16.ofNat (BigEndian.decode i.operands))
    if slot < 256 then
      return [i.op.byte, slot.toUInt8]
    else
      throw (.narrowSlot i.op slot)
  | _ => return i.encode

/-- The bytes of some code with its constants copied, instruction by instruction. -/
def instructions (source : View) (code : List UInt8) : Action Error Remapper (List UInt8) := do
  let parts ← (listing code).mapM fun i => do instruction source (← Action.ofExcept i)
  return parts.flatten

/-- The bytes of an entry of an exception table with its class copied. -/
def handler (source : View) : Action Error Remapper (List UInt8) := do
  let positions ← bytes 6
  return positions ++ (← ref .class source).encode

def lineNumber : Action Error Remapper LineNumber := do
  let start ← u2
  return { start, line := ← u2 }

def localVariable (source : View) : Action Error Remapper LocalVariable := do
  let start ← u2
  let length ← u2
  let name ← ref .utf8 source
  let type ← ref .utf8 source
  return { start, length, name, type, index := ← u2 }

/-- How the attribute of the code with a given name is read, if its form is known. -/
def known? (source : View) (name : String) : Option (Action Error Remapper Attribute) :=
  if name = "LineNumberTable" then
    some (.lineNumberTable <$> counted lineNumber)
  else if name = "LocalVariableTable" then
    some (.localVariableTable <$> counted (localVariable source))
  else if name = "LocalVariableTypeTable" then
    some (.localVariableTypeTable <$> counted (localVariable source))
  else if name = "StackMapTable" then
    some (.stackMapTable <$> counted (StackMapFrame.read source))
  else if name = "RuntimeVisibleTypeAnnotations" then
    some (.typeAnnotations .visible <$> counted (TypeAnnotationEntry.read source))
  else if name = "RuntimeInvisibleTypeAnnotations" then
    some (.typeAnnotations .invisible <$> counted (TypeAnnotationEntry.read source))
  else
    none

/-- Move an attribute of the code. -/
def nestedAttribute (source : View) (name : String) (info : List UInt8) :
    Action Error Remapper Unit := do
  match known? source name with
  | some read => do
    let a ← reading (.start name info) read
    onOutput (AttributeWriter.add a)
  | none => onOutput (AttributeWriter.addNamed name info)

/-- The string at a slot. -/
def nameAt (source : View) (i : Slot) : Except Error String := do
  match ← source i with
  | .utf8 text => return text
  | c => throw (.badKind i .utf8 c.tag)

/-- Read and move the next attribute of the code. -/
def nextAttribute (source : View) : Action Error Remapper Unit := do
  let i ← u2
  let size ← u4
  let info ← bytes size
  nestedAttribute source (← Action.ofExcept (nameAt source i)) info

/-- Read and move the code of a method up to its attributes, which are collected. -/
def body (source : View) : Action Error Remapper (List UInt8) := do
  let maxStack ← u2
  let maxLocals ← u2
  let size ← u4
  if Assembler.maxCodeSize < size then
    throw (.codeOverflow size)
  let code ← instructions source (← bytes size)
  let handlers ← counted (handler source)
  -- The attributes go to the output one by one; only what stands before them is returned.
  discard <| counted (nextAttribute source)
  finish
  return BigEndian.u2 maxStack ++ BigEndian.u2 maxLocals ++ BigEndian.encode 4 size ++ code
    ++ BigEndian.encode 2 handlers.length ++ handlers.flatten

/-- Move a `Code` attribute, given by its bytes after name and length, to the pool. -/
def code (source : View) (info : List UInt8) : Action Error Pool (List UInt8) :=
  .ofFn fun pool =>
    match (body source).exec ⟨.start "Code" info, .start pool⟩ with
    | (.ok bytes, ⟨_, pool, table⟩) => (.ok (bytes ++ table.encode), pool)
    | (.error e, ⟨_, pool, _⟩) => (.error e, pool)

end Remap

end JvmClass
