import JvmClass.Remap.Input

/-!
# Reading stack map frames

The inverse of writing them, with the classes of the frames copied to another pool.
-/

namespace JvmClass

open Remapper

def VerificationType.read (source : View) : Action Error Remapper VerificationType := do
  match ← u1 with
  | 0 => return .top
  | 1 => return .integer
  | 2 => return .float
  | 3 => return .double
  | 4 => return .long
  | 5 => return .null
  | 6 => return .uninitializedThis
  | 7 => return .object (← ref .class source)
  | 8 => return .uninitialized (← u2)
  | tag => fail (.unknownVerificationType tag)

def StackMapFrame.read (source : View) : Action Error Remapper StackMapFrame := do
  let kind ← u1
  if kind < 64 then
    return .same kind.toUInt16
  else if kind < 128 then
    return .oneStack (kind - 64).toUInt16 (← VerificationType.read source)
  else if kind < 247 then
    fail (.reservedFrame kind)
  else if kind = 247 then
    let delta ← u2
    return .oneStack delta (← VerificationType.read source)
  else if kind < 251 then
    return .chop (← u2) (251 - kind)
  else if kind = 251 then
    return .same (← u2)
  else if kind < 255 then
    let delta ← u2
    return .append delta (← Action.times (kind - 251).toNat (VerificationType.read source))
  else
    let delta ← u2
    let locals ← counted (VerificationType.read source)
    return .full delta locals (← counted (VerificationType.read source))

end JvmClass
