import JvmClass.Attribute.Writer
import JvmClass.Code.Listing
import JvmClass.Pool.View

/-!
# Reading attributes that move to another pool

A `Remapper` reads the bytes of an attribute and at the same time copies the constants that they
refer to into another pool, so that what it reads refers to that pool.

A field that ends after the last byte is reported at the end of the attribute, a stretch of plain
bytes at its own start.
-/

namespace JvmClass

/-- The part of an attribute that is still to be read, and the name and size of the whole. -/
structure Input where
  name : String
  size : Nat
  rest : List UInt8

/-- An attribute being read, the pool that its constants are copied to, and the attributes that were
written for that pool so far. -/
structure Remapper where
  input : Input
  output : AttributeWriter

namespace Input

/-- The whole of an attribute. -/
def start (name : String) (info : List UInt8) : Input := ⟨name, info.length, info⟩

/-- What is wrong with the attribute. -/
def malformed (input : Input) (fault : AttributeFault) : Error :=
  .malformedAttribute input.name fault

end Input

namespace Remapper

/-- Report a fault of the attribute being read. -/
def fail {α : Type} (fault : AttributeFault) : Action Error Remapper α :=
  .inspect fun r => .error (r.input.malformed fault)

/-- Take a big-endian field of `width` bytes. -/
def field (width : Nat) : Action Error Remapper Nat :=
  .ofFn fun r =>
    match splitExactly width r.input.rest with
    | some (bytes, rest) =>
      (.ok (BigEndian.decode bytes), { r with input := { r.input with rest } })
    | none => (.error (r.input.malformed (.truncated r.input.size)), r)

def u1 : Action Error Remapper UInt8 := UInt8.ofNat <$> field 1

def u2 : Action Error Remapper UInt16 := UInt16.ofNat <$> field 2

def u4 : Action Error Remapper Nat := field 4

/-- Take `count` bytes as they are. -/
def bytes (count : Nat) : Action Error Remapper (List UInt8) :=
  .ofFn fun r =>
    match splitExactly count r.input.rest with
    | some (bytes, rest) => (.ok bytes, { r with input := { r.input with rest } })
    | none =>
      (.error (r.input.malformed (.truncated (r.input.size - r.input.rest.length))), r)

/-- Check that all of the attribute has been read. -/
def finish : Action Error Remapper Unit :=
  .inspect fun r =>
    match r.input.rest.length with
    | 0 => .ok ()
    | left => .error (r.input.malformed (.trailing left))

/-- Read a two-byte count and so many items. -/
def counted {α : Type} (item : Action Error Remapper α) : Action Error Remapper (List α) := do
  Action.times (← u2).toNat item

/-- Do something to the attributes written so far and their pool. -/
def onOutput {α : Type} (act : Action Error AttributeWriter α) : Action Error Remapper α :=
  act.onPart (fun r => (r.output, r.input)) (fun output input => ⟨input, output⟩)

/-- Copy a constant of any kind. -/
def copy (source : View) (i : Slot) : Action Error Remapper Slot :=
  onOutput (AttributeWriter.onPool (Pool.copy source i))

/-- Read a reference to a constant of the given kind and copy the constant. -/
def ref (kind : Tag) (source : View) : Action Error Remapper (Ref kind) := do
  let i ← u2
  onOutput (AttributeWriter.onPool (Pool.copyAs kind source i))

/-- Read another attribute to its end in between. -/
def reading {α : Type} (input : Input) (act : Action Error Remapper α) :
    Action Error Remapper α :=
  Action.onPart (fun r => (⟨input, r.output⟩, r.input)) (fun r input => ⟨input, r.output⟩) do
    let a ← act
    finish
    return a

end Remapper

end JvmClass
