import JvmClass.Code.Opcode
import JvmClass.Constant.Record

/-!
# Errors

One type of error serves the whole library.  A constructor names a cause and carries what its
message needs; `message` is the only place that words it.  `isFormat` tells errors of the data being
written from mistakes in how the writers were used.
-/

namespace JvmClass

/-- What a stack map frame does to the local variables that it cannot do to any number of them. -/
inductive LocalsChange
  | chop | append
  deriving DecidableEq, Repr

def LocalsChange.name : LocalsChange → String
  | chop => "chop"
  | append => "append"

/-- What is wrong with a sequence of instructions that is being read. -/
inductive CodeFault
  | unknownOpcode (byte : UInt8)
  | notModifiable
  | truncatedSwitch
  | emptyKeyRange
  | negativePairCount
  | truncated (op : Opcode)
  deriving DecidableEq

/-- What is wrong with an attribute that is being read. -/
inductive AttributeFault
  | truncated (position : Nat)
  | trailing (count : Nat)
  | reservedFrame (kind : UInt8)
  | unknownVerificationType (tag : UInt8)
  | unknownTarget (kind : UInt8)
  | unknownElementValue (tag : UInt8)
  deriving DecidableEq, Repr

/-- The cause of a refused operation. -/
inductive Error
  /-- The pool has no slot left for a record; `slot` is where it would have gone. -/
  | poolOverflow (record : Record) (slot : Nat)
  /-- No record starts at the slot; the pool has `count` slots, slot 0 included. -/
  | badSlot (slot : Slot) (count : UInt16)
  /-- The record at the slot is of another kind than it has to be. -/
  | badKind (slot : Slot) (expected actual : Tag)
  /-- The encoded string is longer than a two-byte length can say. -/
  | textTooLong (size : Nat)
  /-- A method handle of this kind cannot refer to such a member. -/
  | invalidHandle (kind : HandleKind) (member : Tag) (name : String) (version : Version)
  /-- The version of the class file is too old for this kind of constant. -/
  | unsupported (kind : Tag) (version : Version)
  /-- A table has more entries than its count can say. -/
  | tableOverflow (table : String) (limit : Nat)
  /-- A stack map frame changes a number of locals that has no encoding. -/
  | invalidFrame (change : LocalsChange) (count : Nat)
  /-- A plain sequence is longer than a two-byte count can say. -/
  | sequenceTooLong (count : Nat)
  /-- The code of a method would be longer than 65535 bytes. -/
  | codeOverflow (size : Nat)
  | duplicateLabel (label : Label)
  | unknownLabel (label : Label)
  | unmarkedLabel (label : Label)
  /-- The displacement of a jump does not fit its two-byte operand. -/
  | branchOutOfRange (op : Opcode) (offset : Int)
  /-- The opcode is not of the kind that this instruction form is for. -/
  | wrongOpcodeKind (op : Opcode) (expected : OpcodeKind)
  /-- The keys of a `lookupswitch` have to grow. -/
  | unorderedKeys (previous key : Int32)
  | noOpenBlock
  | openBlocks (count : Nat)
  /-- A slot does not fit the one-byte operand of an instruction. -/
  | narrowSlot (op : Opcode) (slot : Slot)
  | malformedCode (offset : Nat) (fault : CodeFault)
  | malformedAttribute (name : String) (fault : AttributeFault)
  deriving DecidableEq

/-- A byte as two lower-case hexadecimal digits. -/
def hexByte (byte : UInt8) : String :=
  let digits := Text.hex byte.toNat
  if byte < 16 then "0" ++ digits else digits

def CodeFault.message : CodeFault → String
  | unknownOpcode byte => s!"unknown opcode 0x{hexByte byte}"
  | notModifiable => "`wide` does not modify a local instruction"
  | truncatedSwitch => "truncated switch"
  | emptyKeyRange => "tableswitch high is below low"
  | negativePairCount => "negative lookupswitch npairs"
  | truncated op => s!"truncated `{op}`"

def AttributeFault.message : AttributeFault → String
  | truncated position => s!"truncated at byte {position}"
  | trailing count => s!"{count} trailing bytes"
  | reservedFrame kind => s!"reserved frame type {kind}"
  | unknownVerificationType tag => s!"unknown verification type {tag}"
  | unknownTarget kind => s!"unknown target type 0x{hexByte kind}"
  | unknownElementValue tag => s!"unknown element value tag {tag}"

namespace Error

/-- The wording of an error. -/
def message : Error → String
  | poolOverflow record slot =>
    s!"constant pool overflow at slot {slot} adding {record.describe}"
  | badSlot slot count => s!"constant index {slot} is not valid in a pool of {count}"
  | badKind slot expected actual => s!"constant #{slot} is a {actual} (expected {expected})"
  | textTooLong size => s!"encoded string of {size} bytes exceeds 65535"
  | invalidHandle kind target name version =>
    s!"invalid method handle {kind} to {target} `{name}` for version {version}"
  | unsupported kind version =>
    s!"CONSTANT_{kind} is not supported by class file version {version}"
  | tableOverflow table limit => s!"{table} has more than {limit} entries"
  | invalidFrame change count => s!"invalid stack map frame: cannot {change.name} {count} locals"
  | sequenceTooLong count => s!"sequence of {count} elements does not fit a u16 count"
  | codeOverflow size => s!"method code of {size} bytes exceeds 65535"
  | duplicateLabel label => s!"label {label} marked twice"
  | unknownLabel label => s!"label {label} is not defined"
  | unmarkedLabel label => s!"label {label} is never marked"
  | branchOutOfRange op offset => s!"branch offset {offset} does not fit in a `{op}`"
  | wrongOpcodeKind op expected => s!"`{op}` is a {op.kind} instruction, not {expected}"
  | unorderedKeys previous key =>
    s!"lookupswitch key {key} does not follow {previous} in increasing order"
  | noOpenBlock => "no exception block is open"
  | openBlocks count => s!"{count} exception block(s) still open"
  | narrowSlot op slot => s!"constant #{slot} does not fit the operand of `{op}`"
  | malformedCode offset fault => s!"malformed code at offset {offset}: {fault.message}"
  | malformedAttribute name fault => s!"malformed `{name}` attribute: {fault.message}"

/-- Does the error lie in the data being written?  Then the writer that refused it can go on. -/
def isFormat : Error → Bool
  | poolOverflow .. | textTooLong .. | invalidHandle .. | unsupported .. | tableOverflow ..
  | invalidFrame .. | narrowSlot .. | malformedCode .. | malformedAttribute .. => true
  | _ => false

end Error

/-- The bytes of a string, if a two-byte length can say how many there are. -/
def ModifiedUtf8.encodeBounded (version : Version) (text : String) : Except Error (List UInt8) :=
  let bytes := encode version text
  if bytes.length ≤ 65535 then .ok bytes else .error (.textTooLong bytes.length)

end JvmClass
