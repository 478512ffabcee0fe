import JvmClass.Code.Exceptions
import JvmClass.Code.Instruction

/-!
# Assembling the code of a method

An `Assembler` holds the code written so far, the labels with their positions or with the jumps that
wait for them, and the regions protected by exception handlers.

A jump operand is relative to the first byte of its instruction.  A jump to a position already
marked is written at once; any other leaves room for its operand and waits until its label is
marked.  `finish` refuses a method with a jump that still waits.
-/

namespace JvmClass

/-- The width of the operand of a jump. -/
inductive JumpWidth
  | narrow | wide
  deriving DecidableEq, Repr

def JumpWidth.bytes : JumpWidth → Nat
  | narrow => 2
  | wide => 4

/-- A jump whose target is not marked yet: where its operand goes, and the position and opcode of
its instruction. -/
structure PendingJump where
  operand : Buffer.Reservation
  origin : Nat
  width : JumpWidth
  op : Opcode
  deriving DecidableEq

/-- The operand of a jump to `target`, if it fits. -/
def PendingJump.displacement (j : PendingJump) (target : Nat) : Except Error (List UInt8) :=
  let offset : Int := target - j.origin
  match j.width with
  | .narrow =>
    if -32768 ≤ offset ∧ offset ≤ 32767 then
      .ok (BigEndian.encodeInt 2 offset)
    else
      .error (.branchOutOfRange j.op offset)
  | .wide => .ok (BigEndian.encodeInt 4 offset)

/-- What is known of a label: its position once it is marked, and before that the jumps to it, in
the order in which they were written. -/
structure LabelState where
  offset : Option Nat
  pending : Array PendingJump
  deriving Inhabited

/-- A range of code protected by a handler. -/
structure ProtectedRegion where
  start : Label
  stop : Label
  handler : Label
  catchType : Ref .class
  deriving DecidableEq

/-- A protected range that has begun but not ended. -/
structure OpenBlock where
  start : Label
  handler : Label
  catchType : Ref .class
  deriving DecidableEq

/-- The code of a method under construction.  The innermost open block comes first. -/
structure Assembler where
  code : Buffer
  labels : Array LabelState
  blocks : List OpenBlock
  regions : Array ProtectedRegion
  deriving Inhabited

/-- The finished code of a method. -/
structure MethodBody where
  code : List UInt8
  handlers : List ExceptionHandler
  labelOffsets : Array (Option Nat)

/-- The position at which a label was marked. -/
def MethodBody.labelOffset? (body : MethodBody) (l : Label) : Option Nat :=
  (body.labelOffsets[l.id]?).join

namespace Assembler

/-- The largest number of bytes that the code of a method can have. -/
def maxCodeSize : Nat := 65535

def empty : Assembler := ⟨.empty, #[], [], #[]⟩

/-- The position of the next instruction. -/
def offset (a : Assembler) : Nat := a.code.size

def isDefined (a : Assembler) (l : Label) : Bool := l.id < a.labels.size

/-- The position at which a label was marked. -/
def labelOffset? (a : Assembler) (l : Label) : Option Nat := (a.labels[l.id]?).bind (·.offset)

/-- Refuse `size` more bytes of code if they do not fit. -/
def ensureRoom (size : Nat) : Action Error Assembler Unit :=
  .inspect fun a =>
    if maxCodeSize < a.offset + size then .error (.codeOverflow (a.offset + size)) else .ok ()

def append (bytes : List UInt8) : Action Error Assembler Unit :=
  modify fun a => { a with code := a.code.append bytes }

/-- Set aside room for a field that is filled in later. -/
def reserve (size : Nat) : Action Error Assembler Buffer.Reservation :=
  .ofFn fun a =>
    match a with
    | ⟨code, labels, blocks, regions⟩ =>
      match code.reserve size with
      | (field, code) => (.ok field, ⟨code, labels, blocks, regions⟩)

/-- Fill in a field. -/
def patch (field : Buffer.Reservation) (bytes : List UInt8) : Action Error Assembler Unit :=
  modify fun a => { a with code := a.code.overwrite field 0 bytes }

/-- Refuse a label that was not defined here. -/
def expectLabel (l : Label) : Action Error Assembler Unit :=
  .inspect fun a => if a.isDefined l then .ok () else .error (.unknownLabel l)

/-- Make a label without a position. -/
def defineLabel : Action Error Assembler Label :=
  .ofFn fun a => (.ok ⟨a.labels.size⟩, { a with labels := a.labels.push ⟨none, #[]⟩ })

/-- Fill in the operands of jumps to `target`, up to the first that does not fit. -/
def resolve (target : Nat) : List PendingJump → Action Error Assembler Unit
  | [] => pure ()
  | j :: rest => do
    patch j.operand (← Action.ofExcept (j.displacement target))
    resolve target rest

/-- Give a label a position; the jumps that waited for it are returned. -/
def place (l : Label) (target : Nat) : Action Error Assembler (List PendingJump) :=
  .ofFn fun a =>
    let pending := match a.labels[l.id]? with
      | some state => state.pending.toList
      | none => []
    (.ok pending, { a with labels := a.labels.setIfInBounds l.id ⟨some target, #[]⟩ })

/-- Mark a label at the current position and fill in the jumps that waited for it. -/
def markLabel (l : Label) : Action Error Assembler Unit := do
  expectLabel l
  let target ← Action.inspect fun a =>
    match a.labelOffset? l with
    | some _ => .error (.duplicateLabel l)
    | none => .ok a.offset
  -- The label has its position already when a jump turns out not to reach it.
  resolve target (← place l target)

/-- Define a label and mark it at the current position. -/
def here : Action Error Assembler Label := do
  let l ← defineLabel
  markLabel l
  return l

/-- Let a jump wait for its label. -/
def await (l : Label) (j : PendingJump) : Action Error Assembler Unit :=
  modify fun a => { a with
    labels := a.labels.modify l.id fun state => { state with pending := state.pending.push j } }

/-- Write the operand of a jump from the instruction at `origin`, or leave room for it. -/
def jumpOperand (op : Opcode) (origin : Nat) (width : JumpWidth) (target : Label) :
    Action Error Assembler Unit := do
  expectLabel target
  let operand ← reserve width.bytes
  let j : PendingJump := ⟨operand, origin, width, op⟩
  -- A target behind the jump is known by now; one ahead is filled in when it is marked.
  match ← Action.inspect fun a => .ok (a.labelOffset? target) with
  | some position => resolve position [j]
  | none => await target j

/-- Write an instruction that does not jump. -/
def emit (i : Instruction) : Action Error Assembler Unit := do
  let bytes ← Action.ofExcept i.encode
  ensureRoom bytes.length
  append bytes

/-- The width of the operand of a jump instruction. -/
def branchWidth (op : Opcode) : Except Error JumpWidth :=
  match op.kind with
  | .branch => .ok .narrow
  | .wideBranch => .ok .wide
  | _ => .error (.wrongOpcodeKind op .branch)

/-- Write a jump to a label. -/
def branch (op : Opcode) (target : Label) : Action Error Assembler Unit := do
  let width ← Action.ofExcept (branchWidth op)
  ensureRoom (1 + width.bytes)
  let origin ← Action.inspect fun a => .ok a.offset
  append [op.byte]
  jumpOperand op origin width target

/-- Begin a range of code protected by a handler. -/
def beginBlock (handler : Label) (catchType : Ref .class) : Action Error Assembler Unit := do
  -- The block gets a label of its own, so that its start is a position like any other.
  expectLabel handler
  let start ← here
  modify fun a => { a with blocks := ⟨start, handler, catchType⟩ :: a.blocks }

/-- Take the innermost open block off the stack. -/
def popBlock : Action Error Assembler OpenBlock :=
  .ofFn fun a =>
    match a.blocks with
    | [] => (.error .noOpenBlock, a)
    | block :: rest => (.ok block, { a with blocks := rest })

/-- End the innermost open block.  Inner blocks end first, so they come first in the table. -/
def endBlock : Action Error Assembler Unit := do
  let block ← popBlock
  let stop ← here
  modify fun a => { a with
    regions := a.regions.push ⟨block.start, stop, block.handler, block.catchType⟩ }

/-- Add a protected range between two labels. -/
def addHandler (region : ProtectedRegion) : Action Error Assembler Unit := do
  expectLabel region.start
  expectLabel region.stop
  expectLabel region.handler
  modify fun a => { a with regions := a.regions.push region }

/-- The position of a label that has to be marked. -/
def position (a : Assembler) (l : Label) : Except Error UInt16 :=
  match a.labelOffset? l with
  | some offset => .ok (UInt16.ofNat offset)
  | none => .error (.unmarkedLabel l)

/-- The table entry of a protected range. -/
def handlerOf (a : Assembler) (region : ProtectedRegion) : Except Error ExceptionHandler := do
  let start ← a.position region.start
  let stop ← a.position region.stop
  let handler ← a.position region.handler
  return { start, stop, handler, catchType := region.catchType }

/-- The exception table: the ranges in the order in which they were completed. -/
def handlers (a : Assembler) : Except Error (List ExceptionHandler) :=
  match a.blocks with
  | [] => a.regions.toList.mapM a.handlerOf
  | blocks => .error (.openBlocks blocks.length)

/-- The bytes of the exception table. -/
def exceptionTable (a : Assembler) : Except Error (List UInt8) := do
  encodeExceptionTable (← a.handlers)

/-- The first label that jumps wait for. -/
def awaited? (a : Assembler) : Option Label :=
  (a.labels.findIdx? fun state => !state.pending.isEmpty).map Label.mk

/-- The finished method, unless a block is open, a label of its exception table is not marked, or a
jump still waits. -/
def finish (a : Assembler) : Except Error MethodBody := do
  let handlers ← a.handlers
  match a.awaited? with
  | some l => throw (.unmarkedLabel l)
  | none =>
    return { code := a.code.toList, handlers, labelOffsets := a.labels.map (·.offset) }

/-- Assemble a whole method. -/
def assemble (act : Action Error Assembler Unit) : Except Error MethodBody :=
  match act.exec empty with
  | (.ok (), a) => a.finish
  | (.error e, _) => .error e

end Assembler

end JvmClass
