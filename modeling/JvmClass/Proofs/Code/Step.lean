import JvmClass.Code.Switch
import JvmClass.Proofs.Action

/-!
# What the calls of an assembler do

One equation for each operation of an assembler: in which cases it is refused, and what it leaves
behind otherwise.  All that is refused before the first byte is written leaves the assembler as it
was.  Only an undefined target and a jump that is too long are found later.

## Key results

- `exec_resolve`: filling in jumps, up to the first that does not reach
- `exec_jumpOperand`, `exec_markLabel`: the two ends of a jump, in either order
- `exec_here`: a new label is always marked
- `exec_beginBlock`, `exec_endBlock`, `exec_addHandler`: blocks and regions
- `exec_emit`, `exec_branch`, `exec_switchHeader`: what is checked before anything is written
-/

namespace JvmClass

/-! ## Displacements -/

/-- A displacement fits an operand.  Wide operands are always taken to be wide enough. -/
def JumpWidth.reaches (width : JumpWidth) (displacement : Int) : Bool :=
  match width with
  | narrow => decide (-32768 ≤ displacement ∧ displacement ≤ 32767)
  | wide => true

/-- The jump reaches `target`. -/
def PendingJump.reaches (j : PendingJump) (target : Nat) : Bool :=
  j.width.reaches (target - j.origin)

/-- The operand of a jump that leads to `target`. -/
def PendingJump.encode (j : PendingJump) (target : Nat) : List UInt8 :=
  BigEndian.encodeInt j.width.bytes (target - j.origin)

theorem PendingJump.displacement_eq (j : PendingJump) (target : Nat) :
    j.displacement target = if j.reaches target then .ok (j.encode target)
      else .error (.branchOutOfRange j.op (target - j.origin)) := by
  unfold displacement reaches encode
  cases j.width <;> simp [JumpWidth.reaches, JumpWidth.bytes]

namespace Assembler

open JvmClass.Action

/-! ## Steps that only look or always succeed -/

/-- The assembler after some bytes of code. -/
def write (a : Assembler) (bytes : List UInt8) : Assembler :=
  { a with code := a.code.append bytes }

/-- The assembler after the operand of a jump is filled in. -/
def fillIn (target : Nat) (a : Assembler) (j : PendingJump) : Assembler :=
  { a with code := a.code.overwrite j.operand 0 (j.encode target) }

/-- The jumps that wait for a label. -/
def pending (a : Assembler) (l : Label) : List PendingJump :=
  match a.labels[l.id]? with
  | some state => state.pending.toList
  | none => []

/-- The assembler with one more label, which has no position yet. -/
def extended (a : Assembler) : Assembler := { a with labels := a.labels.push ⟨none, #[]⟩ }

/-- The assembler with a position for a label and no jump that waits for it. -/
def placed (a : Assembler) (l : Label) (target : Nat) : Assembler :=
  { a with labels := a.labels.setIfInBounds l.id ⟨some target, #[]⟩ }

/-- The assembler with one more jump that waits for a label. -/
def awaiting (a : Assembler) (l : Label) (j : PendingJump) : Assembler :=
  { a with
    labels := a.labels.modify l.id fun state => { state with pending := state.pending.push j } }

/-- The assembler after room for a field is set aside. -/
def reserved (a : Assembler) (size : Nat) : Assembler :=
  { a with code := (a.code.reserve size).2 }

@[simp] theorem exec_ensureRoom (size : Nat) (a : Assembler) :
    (ensureRoom size).exec a
      = (if maxCodeSize < a.offset + size then .error (.codeOverflow (a.offset + size))
          else .ok (), a) := rfl

theorem exec_ensureRoom_bind {α : Type} (size : Nat) (k : Unit → Action Error Assembler α)
    (a : Assembler) :
    (ensureRoom size >>= k).exec a =
      if maxCodeSize < a.offset + size then (.error (.codeOverflow (a.offset + size)), a)
      else (k ()).exec a := by
  rw [exec_bind, exec_ensureRoom]
  by_cases hroom : maxCodeSize < a.offset + size
  · rw [if_pos hroom, if_pos hroom]
  · rw [if_neg hroom, if_neg hroom]

@[simp] theorem exec_expectLabel (l : Label) (a : Assembler) :
    (expectLabel l).exec a = (if a.isDefined l then .ok () else .error (.unknownLabel l), a) := rfl

@[simp] theorem exec_append (bytes : List UInt8) (a : Assembler) :
    (append bytes).exec a = (.ok (), a.write bytes) := rfl

@[simp] theorem exec_reserve (size : Nat) (a : Assembler) :
    (reserve size).exec a = (.ok (a.code.reserve size).1, a.reserved size) := rfl

@[simp] theorem exec_patch (field : Buffer.Reservation) (bytes : List UInt8) (a : Assembler) :
    (patch field bytes).exec a = (.ok (), { a with code := a.code.overwrite field 0 bytes }) := rfl

@[simp] theorem exec_place (l : Label) (target : Nat) (a : Assembler) :
    (place l target).exec a = (.ok (a.pending l), a.placed l target) := rfl

@[simp] theorem exec_await (l : Label) (j : PendingJump) (a : Assembler) :
    (await l j).exec a = (.ok (), a.awaiting l j) := rfl

@[simp] theorem exec_defineLabel (a : Assembler) :
    defineLabel.exec a = (.ok ⟨a.labels.size⟩, a.extended) := rfl

/-! ## Jumps -/

/-- Jumps are filled in up to the first that does not reach its target. -/
theorem exec_resolve (target : Nat) (js : List PendingJump) (a : Assembler) :
    (resolve target js).exec a =
      (match js.find? fun j => !j.reaches target with
        | some j => .error (.branchOutOfRange j.op (target - j.origin))
        | none => .ok (),
       (js.takeWhile fun j => j.reaches target).foldl (fillIn target) a) := by
  induction js generalizing a with
  | nil => rfl
  | cons j js ih =>
    simp only [resolve, exec_bind, exec_ofExcept, j.displacement_eq target]
    -- The first jump that does not reach ends both the filling in and the list of those filled in.
    by_cases hreach : j.reaches target
    · simp only [hreach, if_true, exec_patch, ih, List.find?_cons, Bool.not_true,
        List.takeWhile_cons, List.foldl_cons]
      rfl
    · simp only [hreach, Bool.false_eq_true, if_false, List.find?_cons, Bool.not_false,
        List.takeWhile_cons, List.foldl_nil]

theorem exec_markLabel (l : Label) (a : Assembler) :
    (markLabel l).exec a =
      if a.isDefined l then
        match a.labelOffset? l with
        | some _ => (.error (.duplicateLabel l), a)
        | none => (resolve a.offset (a.pending l)).exec (a.placed l a.offset)
      else (.error (.unknownLabel l), a) := by
  simp only [markLabel, exec_bind, exec_expectLabel, exec_inspect]
  by_cases hdef : a.isDefined l
  · simp only [hdef, if_true]
    cases a.labelOffset? l <;> simp
  · simp [hdef]

theorem isDefined_extended (a : Assembler) : a.extended.isDefined ⟨a.labels.size⟩ := by
  simp [isDefined, extended]

theorem labelOffset?_extended (a : Assembler) :
    a.extended.labelOffset? ⟨a.labels.size⟩ = none := by
  simp [labelOffset?, extended]

theorem pending_extended (a : Assembler) : a.extended.pending ⟨a.labels.size⟩ = [] := by
  simp [pending, extended]

/-- No jump can wait for a label that is new, so that marking it is never refused. -/
theorem exec_here (a : Assembler) :
    here.exec a = (.ok ⟨a.labels.size⟩, a.extended.placed ⟨a.labels.size⟩ a.offset) := by
  have hmark : (markLabel ⟨a.labels.size⟩).exec a.extended
      = (.ok (), a.extended.placed ⟨a.labels.size⟩ a.offset) := by
    rw [exec_markLabel, if_pos a.isDefined_extended, labelOffset?_extended, pending_extended]
    rfl
  exact exec_bind_eq_ok.mpr ⟨_, a.extended, rfl, exec_bind_eq_ok.mpr ⟨_, _, hmark, rfl⟩⟩

theorem exec_jumpOperand (op : Opcode) (origin : Nat) (width : JumpWidth) (target : Label)
    (a : Assembler) :
    (jumpOperand op origin width target).exec a =
      if a.isDefined target then
        let j : PendingJump := ⟨(a.code.reserve width.bytes).1, origin, width, op⟩
        match a.labelOffset? target with
        | some position => (resolve position [j]).exec (a.reserved width.bytes)
        | none => (.ok (), (a.reserved width.bytes).awaiting target j)
      else (.error (.unknownLabel target), a) := by
  simp only [jumpOperand, exec_bind, exec_expectLabel, exec_inspect, exec_reserve]
  by_cases hdef : a.isDefined target
  · have hoffset : (a.reserved width.bytes).labelOffset? target = a.labelOffset? target := rfl
    simp only [hdef, if_true, hoffset]
    cases a.labelOffset? target <;> simp
  · simp [hdef]

/-! ## Blocks and regions -/

/-- The assembler with a new label at the current position. -/
def marked (a : Assembler) : Assembler := a.extended.placed ⟨a.labels.size⟩ a.offset

theorem exec_beginBlock (handler : Label) (catchType : Ref .class) (a : Assembler) :
    (beginBlock handler catchType).exec a =
      if a.isDefined handler then
        (.ok (), { a.marked with blocks := ⟨⟨a.labels.size⟩, handler, catchType⟩ :: a.blocks })
      else (.error (.unknownLabel handler), a) := by
  simp only [beginBlock, exec_bind, exec_expectLabel]
  by_cases hdef : a.isDefined handler
  · simp only [hdef, if_true, exec_here]
    rfl
  · simp [hdef]

theorem exec_endBlock (a : Assembler) :
    endBlock.exec a =
      match a.blocks with
      | [] => (.error .noOpenBlock, a)
      | block :: rest =>
        (.ok (), { a.marked with
          blocks := rest
          regions :=
            a.regions.push ⟨block.start, ⟨a.labels.size⟩, block.handler, block.catchType⟩ }) := by
  simp only [endBlock, popBlock, exec_bind, exec_ofFn]
  cases a.blocks with
  | nil => rfl
  | cons block rest =>
    simp only [exec_here]
    rfl

theorem exec_addHandler (region : ProtectedRegion) (a : Assembler) :
    (addHandler region).exec a =
      if !a.isDefined region.start then (.error (.unknownLabel region.start), a)
      else if !a.isDefined region.stop then (.error (.unknownLabel region.stop), a)
      else if !a.isDefined region.handler then (.error (.unknownLabel region.handler), a)
      else (.ok (), { a with regions := a.regions.push region }) := by
  simp only [addHandler, exec_bind, exec_expectLabel, exec_modify]
  by_cases hstart : a.isDefined region.start
  · by_cases hstop : a.isDefined region.stop
    · by_cases hhandler : a.isDefined region.handler <;> simp [hstart, hstop, hhandler]
    · simp [hstart, hstop]
  · simp [hstart]

/-! ## Instructions -/

theorem exec_emit (i : Instruction) (a : Assembler) :
    (emit i).exec a =
      match i.encode with
      | .error e => (.error e, a)
      | .ok bytes =>
        if maxCodeSize < a.offset + bytes.length then
          (.error (.codeOverflow (a.offset + bytes.length)), a)
        else (.ok (), a.write bytes) := by
  simp only [emit, exec_bind (Action.ofExcept _), exec_ofExcept, exec_ensureRoom_bind, exec_append]
  cases i.encode <;> rfl

theorem exec_branch (op : Opcode) (target : Label) (a : Assembler) :
    (branch op target).exec a =
      match branchWidth op with
      | .error e => (.error e, a)
      | .ok width =>
        if maxCodeSize < a.offset + (1 + width.bytes) then
          (.error (.codeOverflow (a.offset + (1 + width.bytes))), a)
        else (jumpOperand op a.offset width target).exec (a.write [op.byte]) := by
  simp only [branch, exec_bind (Action.ofExcept _), exec_ofExcept, exec_ensureRoom_bind,
    exec_bind (Action.inspect _), exec_inspect, exec_bind (append _), exec_append]
  cases branchWidth op <;> rfl

/-! ## Switches -/

theorem exec_switchHeader (op : Opcode) (size : Nat) (default : Label) (a : Assembler) :
    (switchHeader op size default).exec a =
      if maxCodeSize < a.offset + (1 + switchPadding a.offset + size) then
        (.error (.codeOverflow (a.offset + (1 + switchPadding a.offset + size))), a)
      else
        ((fun _ => a.offset) <$> jumpOperand op a.offset .wide default).exec
          (a.write (op.byte :: List.replicate (switchPadding a.offset) 0)) := by
  simp only [switchHeader, exec_bind (Action.inspect _), exec_inspect, exec_ensureRoom_bind,
    exec_bind (append _), exec_append, bind_pure_comp]

theorem exec_tableCase (s : TableSwitch) (target : Label) (a : Assembler) :
    (s.addCase target).exec a =
      match s.nextKey with
      | none => (.error (.tableOverflow "tableswitch" (TableSwitch.keyLimit s.low)), a)
      | some key =>
        if maxCodeSize < a.offset + 4 then (.error (.codeOverflow (a.offset + 4)), a)
        else
          (jumpOperand .tableSwitch s.origin .wide target >>= fun _ =>
            (fun _ => { s with nextKey := nextKey? key }) <$>
              patch s.high (BigEndian.u4 key.toUInt32)).exec a := by
  unfold TableSwitch.addCase
  cases s.nextKey with
  | none => rfl
  | some key => simp only [exec_ensureRoom_bind, bind_pure_comp]

theorem exec_lookupCase (s : LookupSwitch) (key : Int32) (target : Label) (a : Assembler) :
    (s.addCase key target).exec a =
      match s.checkKey key with
      | .error e => (.error e, a)
      | .ok () =>
        if maxCodeSize < a.offset + 8 then (.error (.codeOverflow (a.offset + 8)), a)
        else
          (jumpOperand .lookupSwitch s.origin .wide target >>= fun _ =>
            (fun _ => { s with pairs := s.pairs + 1, lastKey := some key }) <$>
              patch s.pairCount (BigEndian.encode 4 (s.pairs + 1))).exec
            (a.write (BigEndian.u4 key.toUInt32)) := by
  simp only [LookupSwitch.addCase, exec_bind (Action.ofExcept _), exec_ofExcept,
    exec_ensureRoom_bind, exec_bind (append _), exec_append, bind_pure_comp]
  cases s.checkKey key <;> rfl

end Assembler

end JvmClass
