import JvmClass.CountedTable

/-!
# Stack map frames

A frame says what types the local variables and the operand stack have at some position of the code.
The first byte of a frame tells its shape, and for small distances from the frame before it the
distance too.
-/

namespace JvmClass

/-- The type of a local variable or of a stack entry. -/
inductive VerificationType
  | top | integer | float | double | long | null
  /-- The object under construction, before the constructor of its superclass was called. -/
  | uninitializedThis
  | object (type : Ref .class)
  /-- An object made by the `new` at the given position and not constructed yet. -/
  | uninitialized (offset : UInt16)
  deriving DecidableEq, Repr, Inhabited

def VerificationType.encode : VerificationType → List UInt8
  | top => [0]
  | integer => [1]
  | float => [2]
  | double => [3]
  | long => [4]
  | null => [5]
  | uninitializedThis => [6]
  | object type => 7 :: type.encode
  | uninitialized offset => 8 :: BigEndian.u2 offset

/-- A stack map frame; `offsetDelta` is the distance from the frame before it. -/
inductive StackMapFrame
  /-- The same locals as before, and an empty stack. -/
  | same (offsetDelta : UInt16)
  /-- The same locals as before, and one stack entry. -/
  | oneStack (offsetDelta : UInt16) (entry : VerificationType)
  /-- The locals without the last `count`, and an empty stack. -/
  | chop (offsetDelta : UInt16) (count : UInt8)
  /-- The locals and some more, and an empty stack. -/
  | append (offsetDelta : UInt16) (locals : List VerificationType)
  /-- All locals and stack entries. -/
  | full (offsetDelta : UInt16) (locals stack : List VerificationType)
  deriving DecidableEq, Repr

/-- The bytes of a frame.  Only one to three locals can be chopped or appended. -/
def StackMapFrame.encode : StackMapFrame → Except Error (List UInt8)
  | same delta =>
    if delta < 64 then return [delta.toUInt8] else return 251 :: BigEndian.u2 delta
  | oneStack delta entry =>
    if delta < 64 then
      return (delta.toUInt8 + 64) :: entry.encode
    else
      return 247 :: (BigEndian.u2 delta ++ entry.encode)
  | chop delta count =>
    if 1 ≤ count ∧ count ≤ 3 then
      return (251 - count) :: BigEndian.u2 delta
    else
      throw (.invalidFrame .chop count.toNat)
  | append delta locals =>
    if 1 ≤ locals.length ∧ locals.length ≤ 3 then
      return (251 + UInt8.ofNat locals.length) ::
        (BigEndian.u2 delta ++ locals.flatMap VerificationType.encode)
    else
      throw (.invalidFrame .append locals.length)
  | full delta locals stack => do
    let locals ← CountedTable.ofList "locals" .two VerificationType.encode locals
    let stack ← CountedTable.ofList "stack" .two VerificationType.encode stack
    return 255 :: (BigEndian.u2 delta ++ locals ++ stack)

end JvmClass
