import JvmClass.Error

/-!
# Taking code apart

The code of a method is a sequence of instructions without any marks between them: where one ends is
known from its opcode, or from its operands in the case of switches and of the `wide` modifier.
`listing` takes code apart from its first byte on.  It ends with an error where the bytes stop being
instructions; the instructions before that place are listed all the same.
-/

namespace JvmClass

/-- An instruction in the code of a method: its position, its opcode, and the bytes after that. -/
structure CodedInstruction where
  offset : Nat
  op : Opcode
  operands : List UInt8
  deriving DecidableEq

def CodedInstruction.encode (i : CodedInstruction) : List UInt8 := i.op.byte :: i.operands

/-- The first `n` elements of a list and the rest, if there are so many. -/
def splitExactly {α : Type} (n : Nat) (xs : List α) : Option (List α × List α) :=
  let parts := xs.splitAt n
  if parts.1.length = n then some parts else none

namespace Listing

/-- The signed four-byte field at position `i` of a switch. -/
def switchField (offset i : Nat) (bytes : List UInt8) : Except Error Int :=
  match splitExactly 4 (bytes.drop i) with
  | some (field, _) => .ok (BigEndian.decodeInt field)
  | none => .error (.malformedCode offset .truncatedSwitch)

/-- The number of bytes of the instruction that starts at `offset` with the given bytes, opcode
included. -/
def instructionSize (offset : Nat) (op : Opcode) (bytes : List UInt8) : Except Error Nat :=
  let padding := 3 - offset % 4
  match op.kind with
  | .wideModifier =>
    match bytes[1]?.bind Opcode.ofByte? with
    | some modified =>
      if modified = .iinc then .ok 6
      else if modified.kind = .localIndex then .ok 4
      else .error (.malformedCode offset .notModifiable)
    | none => .error (.malformedCode offset .notModifiable)
  | .tableSwitch => do
    -- default target, lowest key, highest key, and a target for each key
    let low ← switchField offset (1 + padding + 4) bytes
    let high ← switchField offset (1 + padding + 8) bytes
    if high < low - 1 then
      throw (.malformedCode offset .emptyKeyRange)
    return 1 + padding + 12 + 4 * (high - low + 1).toNat
  | .lookupSwitch => do
    -- default target, number of pairs, and the pairs of a key and a target
    let pairs ← switchField offset (1 + padding + 4) bytes
    if pairs < 0 then
      throw (.malformedCode offset .negativePairCount)
    return 1 + padding + 8 + 8 * pairs.toNat
  | kind => .ok (1 + kind.operandBytes?.getD 0)

/-- The first instruction of some code, and the bytes after it. -/
def step (offset : Nat) (bytes : List UInt8) : Except Error (CodedInstruction × List UInt8) := do
  let first := bytes.headD 0
  let some op := Opcode.ofByte? first
    | throw (.malformedCode offset (.unknownOpcode first))
  let size ← instructionSize offset op bytes
  let some (instruction, rest) := splitExactly size bytes
    | throw (.malformedCode offset (.truncated op))
  return (⟨offset, op, instruction.tail⟩, rest)

/-- The instructions of the code from `offset` on, behind those listed already in reverse.  There
are no more of them than bytes. -/
def collect : (bytesLeft : Nat) → (offset : Nat) → List UInt8 →
    List (Except Error CodedInstruction) → List (Except Error CodedInstruction)
  | _, _, [], listed => listed.reverse
  | 0, _, _, listed => listed.reverse
  | bytesLeft + 1, offset, bytes, listed =>
    match step offset bytes with
    | .error e => (.error e :: listed).reverse
    | .ok (i, rest) =>
      collect bytesLeft (offset + i.encode.length) rest (.ok i :: listed)

end Listing

/-- The instructions of some code, up to the first place where it is malformed. -/
def listing (code : List UInt8) : List (Except Error CodedInstruction) :=
  Listing.collect code.length 0 code []

end JvmClass
