import JvmClass.Remap.Input

/-!
# Reading annotations of types

The inverse of writing them, with their constants copied to another pool.  Each value takes up at
least one byte, so that values cannot be nested deeper than the attribute has bytes.
-/

namespace JvmClass

open Remapper

/-- Read an annotation whose element values are read by `value`. -/
def AnnotationEntry.readWith (source : View) (value : Action Error Remapper ElementValue) :
    Action Error Remapper AnnotationEntry := do
  let type ← ref .utf8 source
  return .mk type (← counted do
    let name ← ref .utf8 source
    return .mk name (← value))

/-- Read an element value that holds others at most `depth` deep. -/
def ElementValue.readNested (source : View) : (depth : Nat) → Action Error Remapper ElementValue
  | 0 => .inspect fun r => .error (r.input.malformed (.truncated r.input.size))
  | depth + 1 => do
    let tag ← u1
    match ElementKind.ofByte? tag with
    | some kind => return .constant kind (← ref kind.constantTag source)
    | none =>
      if tag = enumTag then
        let type ← ref .utf8 source
        return .enumConstant type (← ref .utf8 source)
      else if tag = nestedTag then
        return .nested (← AnnotationEntry.readWith source (readNested source depth))
      else if tag = arrayTag then
        return .array (← counted (readNested source depth))
      else
        fail (.unknownElementValue tag)

def ElementValue.read (source : View) : Action Error Remapper ElementValue := do
  readNested source (← Action.inspect fun r => .ok r.input.size)

def AnnotationEntry.read (source : View) : Action Error Remapper AnnotationEntry := do
  readWith source (ElementValue.read source)

def LocalRange.read : Action Error Remapper LocalRange := do
  let start ← u2
  let length ← u2
  return { start, length, index := ← u2 }

/-- Read where an annotated type stands; the kind of its target has been read before. -/
def TargetInfo.read (targetType : UInt8) : Action Error Remapper TargetInfo := do
  match targetType with
  | 0x00 | 0x01 => return .typeParameter (← u1)
  | 0x10 => return .supertype (← u2)
  | 0x11 | 0x12 =>
    let parameter ← u1
    return .typeParameterBound parameter (← u1)
  | 0x13 | 0x14 | 0x15 => return .empty
  | 0x16 => return .formalParameter (← u1)
  | 0x17 => return .throws (← u2)
  | 0x40 | 0x41 => return .localVariable (← counted LocalRange.read)
  | 0x42 => return .catch (← u2)
  | 0x43 | 0x44 | 0x45 | 0x46 => return .offset (← u2)
  | 0x47 | 0x48 | 0x49 | 0x4a | 0x4b =>
    let position ← u2
    return .typeArgument position (← u1)
  | _ => fail (.unknownTarget targetType)

def TypePathStep.read : Action Error Remapper TypePathStep := do
  let kind ← u1
  return { kind, argument := ← u1 }

def TypeAnnotationEntry.read (source : View) : Action Error Remapper TypeAnnotationEntry := do
  let targetType ← u1
  let target ← TargetInfo.read targetType
  let path ← Action.times (← u1).toNat TypePathStep.read
  return { targetType, target, path, entry := ← AnnotationEntry.read source }

end JvmClass
