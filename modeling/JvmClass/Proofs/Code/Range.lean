import JvmClass.Proofs.Code.Bounds
import JvmClass.Proofs.Code.LeftBehind
import Mathlib.Data.List.Find

/-!
# How far branches reach

The operand of a branch has two bytes, so that it leads at most 32768 bytes back and 32767 bytes
ahead.  A branch back is refused when it is written, and one ahead when its label is marked: the
first that is too long by then ends the filling in, and is reported.

Which jumps wait for a label is a matter of the whole run.  `jumps` reads off what a run returned
which jumps it wrote, in order, and `Waits` says that the ones that wait for a label are those of
them that lead to it.  A call that is refused writes no jump, wherever it stops: it is `Quiet`.

## Key results

- `waits_of_jumpOperand`, `quiet_of_jumpOperand_error`: an operand that is accepted, or refused
- `Waits.perform`, `waits_run`: what one call and what a run adds to the jumps that wait
- `Waits.markLabel_eq`: which jump is reported when a label is marked
- `branchRange_of_run`: the range of branches in any state
-/

namespace JvmClass

/-- The jump whose operand the part is. -/
def Part.jump? : Part → Option Jump
  | bytes _ => none
  | jump j => some j

/-- What a waiting jump is once it is known where it leads. -/
def PendingJump.toward (l : Label) (p : PendingJump) : Jump := ⟨p.op, p.origin, p.width, l⟩

/-- The operand of the jump is too short to lead that far ahead. -/
def Jump.overshot (target : Nat) (j : Jump) : Bool :=
  j.width = .narrow ∧ 32767 < (target : Int) - j.origin

/-- A jump that leads ahead, or nowhere, only fails to reach a position that is too far ahead. -/
theorem PendingJump.not_reaches_eq {p : PendingJump} {target : Nat} (hp : p.origin ≤ target)
    (l : Label) : (!p.reaches target) = (p.toward l).overshot target := by
  unfold reaches JumpWidth.reaches Jump.overshot toward
  cases p.width with
  | wide => simp
  | narrow =>
    rw [Bool.eq_iff_iff]
    simp only [Bool.not_eq_true', decide_eq_false_iff_not, decide_eq_true_eq, true_and]
    omega

namespace Assembler

open JvmClass.Action

variable {a b : Assembler} {js : List Jump} {e : Error}

/-! ## The jumps of a run -/

/-- The jumps that a call writes, in order. -/
def Call.jumps (call : Call) (a : Assembler) : List Jump :=
  (Report.parts a.offset ⟨call, (call.perform.exec a).1⟩).filterMap Part.jump?

/-- The jumps that a run writes, in order. -/
def jumps : List Call → Assembler → List Jump
  | [], _ => []
  | call :: calls, a => call.jumps a ++ jumps calls (call.perform.exec a).2

theorem Call.jumps_of_error {call : Call} (h : call.perform.exec a = (.error e, b)) :
    call.jumps a = [] := by
  rw [Call.jumps, h, Report.parts_error]
  rfl

/-- The jumps that wait for a label that is not marked are those that lead to it. -/
def Waits (js : List Jump) (a : Assembler) : Prop :=
  ∀ l, a.labelOffset? l = none →
    (a.pending l).map (PendingJump.toward l) = js.filter fun j => j.target = l

theorem waits_empty : Waits [] empty := by
  intro l _
  simp [pending, empty]

/-! ## Steps that make no jump wait -/

/-- A label that is not marked now was not marked before, and the same jumps waited for it. -/
def Quiet (a b : Assembler) : Prop :=
  ∀ l, b.labelOffset? l = none → a.labelOffset? l = none ∧ b.pending l = a.pending l

instance : Std.Refl Quiet := ⟨fun _ _ hl => ⟨hl, rfl⟩⟩

instance : IsTrans Assembler Quiet where
  trans _ _ _ hab hbc l hl := by
    obtain ⟨hl, hpending⟩ := hbc l hl
    obtain ⟨hl, hpending'⟩ := hab l hl
    exact ⟨hl, hpending.trans hpending'⟩

theorem Waits.of_quiet (h : Waits js a) (hab : Quiet a b) : Waits js b := by
  intro l hl
  obtain ⟨hl, hpending⟩ := hab l hl
  rw [hpending]
  exact h l hl

theorem quiet_of_labels (hlabels : b.labels = a.labels) : Quiet a b := by
  intro l hl
  have hoffset : b.labelOffset? l = a.labelOffset? l := by rw [labelOffset?, hlabels]; rfl
  have hpending : b.pending l = a.pending l := by rw [pending, hlabels]; rfl
  exact ⟨hoffset ▸ hl, hpending⟩

theorem quiet_fillIn (target : Nat) (ps : List PendingJump) :
    Quiet a (ps.foldl (fillIn target) a) :=
  quiet_of_labels (fillIn_spec target ps a).2

theorem quiet_extended : Quiet a a.extended := by
  intro l hl
  rw [labelOffset?_of_extended] at hl
  rw [pending_of_extended]
  exact ⟨hl, rfl⟩

/-- What waited for a label is forgotten when it is marked, and nothing else. -/
theorem quiet_placed {l : Label} (hdef : a.isDefined l) (target : Nat) :
    Quiet a (a.placed l target) := by
  intro k hk
  rw [labelOffset?_placed hdef, markAt] at hk
  rw [pending_placed]
  split at hk
  · cases hk
  · rename_i hne
    rw [if_neg hne]
    exact ⟨hk, rfl⟩

theorem quiet_resolve (target : Nat) (ps : List PendingJump) : (resolve target ps).Moves Quiet := by
  intro a
  rw [exec_resolve]
  exact quiet_fillIn target _

theorem quiet_expectLabel (l : Label) : (expectLabel l).Moves Quiet := Moves.inspect _

/-- Also where one of the jumps that waited does not reach. -/
theorem quiet_markLabel (l : Label) : (markLabel l).Moves Quiet := by
  intro a
  rw [exec_markLabel]
  split
  · rename_i hdef
    split
    · exact refl_of Quiet a
    · exact trans_of Quiet (quiet_placed hdef _) (quiet_resolve _ _ _)
  · exact refl_of Quiet a

theorem quiet_here : here.Moves Quiet := by
  intro a
  rw [exec_here]
  exact trans_of Quiet quiet_extended (quiet_placed a.isDefined_extended _)

theorem quiet_emit (i : Instruction) : (emit i).Moves Quiet := by
  intro a
  rw [exec_emit]
  split
  · exact refl_of Quiet a
  · split <;> exact quiet_of_labels rfl

theorem quiet_patch (field : Buffer.Reservation) (bytes : List UInt8) :
    (patch field bytes).Moves Quiet := fun _ => quiet_of_labels rfl

theorem quiet_beginBlock (handler : Label) (catchType : Ref .class) :
    (beginBlock handler catchType).Moves Quiet :=
  .bind (quiet_expectLabel _) fun _ => .bind quiet_here fun _ _ => quiet_of_labels rfl

theorem quiet_popBlock : popBlock.Moves Quiet := by
  intro a
  simp only [popBlock, exec_ofFn]
  split <;> exact quiet_of_labels rfl

theorem quiet_endBlock : endBlock.Moves Quiet :=
  .bind quiet_popBlock fun _ => .bind quiet_here fun _ _ => quiet_of_labels rfl

theorem quiet_addHandler (region : ProtectedRegion) : (addHandler region).Moves Quiet :=
  .bind (quiet_expectLabel _) fun _ => .bind (quiet_expectLabel _) fun _ =>
    .bind (quiet_expectLabel _) fun _ _ => quiet_of_labels rfl

/-! ## Operands -/

/-- An operand whose target is known is filled in at once, if the target can be reached. -/
theorem quiet_of_marked {op : Opcode} {origin : Nat} {width : JumpWidth} {target : Label} {t : Nat}
    {r : Except Error Unit} (ht : a.labelOffset? target = some t)
    (hexec : (jumpOperand op origin width target).exec a = (r, b)) : Quiet a b := by
  simp only [exec_jumpOperand, ht] at hexec
  split at hexec
  · have hmoves := quiet_resolve t
      [⟨(a.code.reserve width.bytes).1, origin, width, op⟩] (a.reserved width.bytes)
    rw [hexec] at hmoves
    exact trans_of Quiet (quiet_of_labels rfl) hmoves
  · cases hexec
    exact refl_of Quiet a

/-- A new jump waits behind the others, unless its label is marked. -/
theorem waits_of_jumpOperand (h : Waits js a) {op : Opcode} {origin : Nat} {width : JumpWidth}
    {target : Label} (hexec : (jumpOperand op origin width target).exec a = (.ok (), b)) :
    Waits (js ++ [⟨op, origin, width, target⟩]) b := by
  intro l hl
  cases ht : a.labelOffset? target with
  | some t =>
    -- A jump to a marked label does not wait, and is none of those that lead to another.
    have hquiet := quiet_of_marked ht hexec
    have hne : target ≠ l := by
      rintro rfl
      rw [(hquiet target hl).1] at ht
      cases ht
    rw [h.of_quiet hquiet l hl, List.filter_append]
    simp [hne]
  | none =>
    rw [exec_jumpOperand, ht] at hexec
    split at hexec
    · rename_i hdef
      cases hexec
      have hdef : (a.reserved width.bytes).isDefined target := hdef
      rw [labelOffset?_awaiting] at hl
      rw [pending_awaiting hdef, List.filter_append, ← h l hl]
      by_cases heq : l = target
      · subst heq
        rw [if_pos rfl, List.map_append]
        simp only [List.map_cons, List.map_nil, List.filter_cons, decide_true, if_true,
          List.filter_nil]
        rfl
      · have hne : target ≠ l := fun h => heq h.symm
        rw [if_neg heq]
        simp only [List.filter_cons, hne, decide_false, Bool.false_eq_true, if_false,
          List.filter_nil, List.append_nil]
        rfl
    · cases hexec

theorem quiet_of_jumpOperand_error {op : Opcode} {origin : Nat} {width : JumpWidth}
    {target : Label} (hexec : (jumpOperand op origin width target).exec a = (.error e, b)) :
    Quiet a b := by
  cases ht : a.labelOffset? target with
  | some t => exact quiet_of_marked ht hexec
  | none =>
    rw [exec_jumpOperand, ht] at hexec
    split at hexec
    · cases hexec
    · cases hexec
      exact refl_of Quiet a

/-! ## Branches -/

theorem waits_of_branch (h : Waits js a) {op : Opcode} {target : Label}
    (hexec : (branch op target).exec a = (.ok (), b)) :
    Waits (js ++ [⟨op, a.offset, op.jumpWidth, target⟩]) b := by
  rw [exec_branch] at hexec
  split at hexec
  · cases hexec
  · rename_i width hwidth
    split at hexec
    · cases hexec
    · have hop : Waits js (a.write [op.byte]) := h.of_quiet (quiet_of_labels rfl)
      rw [branchWidth_eq_ok hwidth]
      exact waits_of_jumpOperand hop hexec

theorem quiet_of_branch_error {op : Opcode} {target : Label}
    (hexec : (branch op target).exec a = (.error e, b)) : Quiet a b := by
  rw [exec_branch] at hexec
  split at hexec
  · cases hexec
    exact refl_of Quiet a
  · split at hexec
    · cases hexec
      exact refl_of Quiet a
    · have hop : Quiet a (a.write [op.byte]) := quiet_of_labels rfl
      exact trans_of Quiet hop (quiet_of_jumpOperand_error hexec)

/-! ## Switches -/

theorem waits_of_switchHeader (h : Waits js a) {op : Opcode} {size origin : Nat} {default : Label}
    (hexec : (switchHeader op size default).exec a = (.ok origin, b)) :
    origin = a.offset ∧ Waits (js ++ [⟨op, a.offset, .wide, default⟩]) b := by
  rw [exec_switchHeader] at hexec
  split at hexec
  · cases hexec
  · obtain ⟨_, hjump, rfl⟩ := exec_map_eq_ok.mp hexec
    have hop : Waits js (a.write (op.byte :: List.replicate (switchPadding a.offset) 0)) :=
      h.of_quiet (quiet_of_labels rfl)
    exact ⟨rfl, waits_of_jumpOperand hop hjump⟩

theorem quiet_of_switchHeader_error {op : Opcode} {size : Nat} {default : Label}
    (hexec : (switchHeader op size default).exec a = (.error e, b)) : Quiet a b := by
  rw [exec_switchHeader] at hexec
  split at hexec
  · cases hexec
    exact refl_of Quiet a
  · have hop : Quiet a (a.write (op.byte :: List.replicate (switchPadding a.offset) 0)) :=
      quiet_of_labels rfl
    exact trans_of Quiet hop (quiet_of_jumpOperand_error (exec_map_eq_error.mp hexec))

theorem waits_of_tableSwitch (h : Waits js a) {low : Int32} {default : Label} {s : TableSwitch}
    (hexec : (Assembler.tableSwitch low default).exec a = (.ok s, b)) :
    s.origin = a.offset ∧ Waits (js ++ [⟨.tableSwitch, a.offset, .wide, default⟩]) b := by
  obtain ⟨origin, c, hheader, hrest⟩ := exec_bind_eq_ok.mp hexec
  obtain ⟨rfl, hc⟩ := waits_of_switchHeader h hheader
  cases hrest
  exact ⟨rfl, hc.of_quiet (quiet_of_labels rfl)⟩

theorem waits_of_lookupSwitch (h : Waits js a) {default : Label} {s : LookupSwitch}
    (hexec : (Assembler.lookupSwitch default).exec a = (.ok s, b)) :
    s.origin = a.offset ∧ Waits (js ++ [⟨.lookupSwitch, a.offset, .wide, default⟩]) b := by
  obtain ⟨origin, c, hheader, hrest⟩ := exec_bind_eq_ok.mp hexec
  obtain ⟨rfl, hc⟩ := waits_of_switchHeader h hheader
  cases hrest
  exact ⟨rfl, hc.of_quiet (quiet_of_labels rfl)⟩

theorem waits_of_tableCase (h : Waits js a) {s s' : TableSwitch} {target : Label}
    (hexec : (s.addCase target).exec a = (.ok s', b)) :
    s'.origin = s.origin ∧ Waits (js ++ [⟨.tableSwitch, s.origin, .wide, target⟩]) b := by
  rw [exec_tableCase] at hexec
  split at hexec
  · cases hexec
  · split at hexec
    · cases hexec
    · obtain ⟨_, c, hjump, hrest⟩ := exec_bind_eq_ok.mp hexec
      cases hrest
      exact ⟨rfl, (waits_of_jumpOperand h hjump).of_quiet (quiet_of_labels rfl)⟩

theorem waits_of_lookupCase (h : Waits js a) {s s' : LookupSwitch} {key : Int32} {target : Label}
    (hexec : (s.addCase key target).exec a = (.ok s', b)) :
    s'.origin = s.origin ∧ Waits (js ++ [⟨.lookupSwitch, s.origin, .wide, target⟩]) b := by
  rw [exec_lookupCase] at hexec
  split at hexec
  · cases hexec
  · split at hexec
    · cases hexec
    · obtain ⟨_, c, hjump, hrest⟩ := exec_bind_eq_ok.mp hexec
      have hkey : Waits js (a.write (BigEndian.u4 key.toUInt32)) :=
        h.of_quiet (quiet_of_labels rfl)
      cases hrest
      exact ⟨rfl, (waits_of_jumpOperand hkey hjump).of_quiet (quiet_of_labels rfl)⟩

theorem quiet_of_lookupCase_error {s : LookupSwitch} {key : Int32} {target : Label}
    (hexec : (s.addCase key target).exec a = (.error e, b)) : Quiet a b := by
  rw [exec_lookupCase] at hexec
  split at hexec
  · cases hexec
    exact refl_of Quiet a
  · split at hexec
    · cases hexec
      exact refl_of Quiet a
    · have hkey : Quiet a (a.write (BigEndian.u4 key.toUInt32)) := quiet_of_labels rfl
      rcases exec_bind_eq_error.mp hexec with hjump | ⟨_, c, -, hpatch⟩
      · exact trans_of Quiet hkey (quiet_of_jumpOperand_error hjump)
      · cases hpatch

/-! ## Runs -/

/-- A call that writes no jump. -/
theorem Waits.perform_of_quiet (h : Waits js a) {call : Call} {α : Type}
    {act : Action Error Assembler α} (hact : act.Moves Quiet)
    (hperform : call.perform = (fun _ => []) <$> act)
    (hparts : ∀ r, (Report.parts a.offset ⟨call, r⟩).filterMap Part.jump? = []) :
    Waits (js ++ call.jumps a) (call.perform.exec a).2 := by
  rw [Call.jumps, hparts, List.append_nil, hperform]
  exact h.of_quiet (hact.map _ a)

/-- A call that writes a switch with its cases. -/
theorem Waits.perform_switch (h : Waits js a) {S K : Type} {start : Action Error Assembler S}
    {add : S → K → Action Error Assembler S} {call : Call} {ks : List K} {first : Jump}
    (origin : S → Nat) (jump : Nat → K → Jump)
    (hperform : call.perform
      = start >>= fun s => Action.ofFn fun a => (addEach add s ks a).map .ok id)
    (herror : ∀ {e b}, start.exec a = (.error e, b) → Quiet a b)
    (hstart : ∀ {s b}, start.exec a = (.ok s, b) → origin s = a.offset ∧ Waits (js ++ [first]) b)
    (hrefused : ∀ {s k a e b}, (add s k).exec a = (.error e, b) → Quiet a b)
    (hadd : ∀ {s s' k js a b}, Waits js a → (add s k).exec a = (.ok s', b) →
      origin s' = origin s ∧ Waits (js ++ [jump (origin s) k]) b)
    (hjumps : ∀ outcomes, (Report.parts a.offset ⟨call, .ok outcomes⟩).filterMap Part.jump?
      = first :: (accepted ks outcomes).map (jump a.offset)) :
    Waits (js ++ call.jumps a) (call.perform.exec a).2 := by
  rcases hexec : start.exec a with ⟨e | s, b⟩
  · have hcall : call.perform.exec a = (.error e, b) := by rw [hperform, exec_bind, hexec]
    rw [Call.jumps_of_error hcall, List.append_nil, hcall]
    exact h.of_quiet (herror hexec)
  · have hcall : call.perform.exec a
        = (.ok (addEach add s ks b).1, (addEach add s ks b).2) := by
      rw [hperform, exec_bind, hexec]
      rfl
    -- Every case that is accepted adds its jump to those of the cases before it.
    let builds (s : S) (done : List K) (b : Assembler) : Prop :=
      origin s = a.offset ∧ Waits (js ++ first :: done.map (jump a.offset)) b
    have hone : ∀ s done b k s' b', builds s done b → (add s k).exec b = (.ok s', b') →
        builds s' (done ++ [k]) b' := by
      intro s done b k s' b' ⟨hs, hwaits⟩ hact
      obtain ⟨hsame, hnext⟩ := hadd hwaits hact
      refine ⟨hsame.trans hs, ?_⟩
      rw [hs, List.append_assoc, List.cons_append] at hnext
      rwa [List.map_append, List.map_singleton]
    have hnone : ∀ s done b k e b', builds s done b → (add s k).exec b = (.error e, b') →
        True → builds s done b' :=
      fun s done b k e b' ⟨hs, hwaits⟩ hact _ => ⟨hs, hwaits.of_quiet (hrefused hact)⟩
    have hfirst : builds s [] b := hstart hexec
    obtain ⟨s', -, hwaits⟩ := builds_addEach hone hnone hfirst ks fun _ _ => trivial
    rw [List.nil_append] at hwaits
    rw [Call.jumps, hcall, hjumps]
    exact hwaits

/-- The targets of the cases of a table. -/
theorem jumps_of_tableCases (origin : Nat) (targets : List Label) :
    (targets.map (switchTarget .tableSwitch origin)).filterMap Part.jump?
      = targets.map fun target => ⟨.tableSwitch, origin, .wide, target⟩ := by
  rw [List.filterMap_map, ← List.filterMap_eq_map]
  rfl

/-- The targets of the cases of a `lookupswitch`, without their keys. -/
theorem jumps_of_lookupCases (origin : Nat) (cases : List (Int32 × Label)) :
    (cases.flatMap (lookupCase origin)).filterMap Part.jump?
      = cases.map fun c => ⟨.lookupSwitch, origin, .wide, c.2⟩ := by
  induction cases with
  | nil => rfl
  | cons c cases ih =>
    rw [List.flatMap_cons, List.filterMap_append, ih]
    rfl

theorem Waits.perform_branch (h : Waits js a) (op : Opcode) (target : Label) :
    Waits (js ++ (Call.branch op target).jumps a) ((Call.branch op target).perform.exec a).2 := by
  rcases hexec : (branch op target).exec a with ⟨e | u, b⟩
  · have hcall : (Call.branch op target).perform.exec a = (.error e, b) :=
      exec_map_eq_error.mpr hexec
    rw [Call.jumps_of_error hcall, List.append_nil, hcall]
    exact h.of_quiet (quiet_of_branch_error hexec)
  · have hcall : (Call.branch op target).perform.exec a = (.ok [], b) :=
      exec_map_eq_ok.mpr ⟨u, hexec, rfl⟩
    rw [Call.jumps, hcall]
    exact waits_of_branch h hexec

theorem Waits.perform_tableSwitch (h : Waits js a) (low : Int32) (default : Label)
    (targets : List Label) :
    Waits (js ++ (Call.tableSwitch low default targets).jumps a)
      ((Call.tableSwitch low default targets).perform.exec a).2 := by
  refine h.perform_switch TableSwitch.origin (fun origin k => ⟨.tableSwitch, origin, .wide, k⟩)
    rfl (fun hexec => ?_) (fun hexec => waits_of_tableSwitch h hexec) (fun hexec => ?_)
    (fun hb hexec => waits_of_tableCase hb hexec) fun outcomes => ?_
  · rcases exec_bind_eq_error.mp hexec with hheader | ⟨_, c, -, hrest⟩
    · exact quiet_of_switchHeader_error hheader
    · cases hrest
  · rw [exec_tableCase_error hexec]
    exact refl_of Quiet _
  · simp only [Report.parts, Report.instruction?, LabelledInstruction.parts,
      List.filterMap_append, jumps_of_tableCases]
    rfl

theorem Waits.perform_lookupSwitch (h : Waits js a) (default : Label)
    (cases : List (Int32 × Label)) :
    Waits (js ++ (Call.lookupSwitch default cases).jumps a)
      ((Call.lookupSwitch default cases).perform.exec a).2 := by
  have hcase : ∀ {s s' : LookupSwitch} {c : Int32 × Label} {js : List Jump} {a b : Assembler},
      Waits js a → (s.addCase c.1 c.2).exec a = (.ok s', b) →
        s'.origin = s.origin ∧ Waits (js ++ [⟨.lookupSwitch, s.origin, .wide, c.2⟩]) b :=
    fun hb hexec => waits_of_lookupCase hb hexec
  refine h.perform_switch LookupSwitch.origin
    (fun origin c => ⟨.lookupSwitch, origin, .wide, c.2⟩)
    rfl (fun hexec => ?_) (fun hexec => waits_of_lookupSwitch h hexec)
    (fun hexec => quiet_of_lookupCase_error hexec) hcase fun outcomes => ?_
  · rcases exec_bind_eq_error.mp hexec with hheader | ⟨_, c, -, hrest⟩
    · exact quiet_of_switchHeader_error hheader
    · cases hrest
  · simp only [Report.parts, Report.instruction?, LabelledInstruction.parts,
      List.filterMap_append, jumps_of_lookupCases]
    rfl

/-- A call adds the jumps that it writes to those that wait, as far as they do. -/
theorem Waits.perform (h : Waits js a) (call : Call) :
    Waits (js ++ call.jumps a) (call.perform.exec a).2 := by
  cases call with
  | defineLabel => exact h.perform_of_quiet (fun _ => quiet_extended) rfl fun _ => rfl
  | markLabel l => exact h.perform_of_quiet (quiet_markLabel l) rfl fun _ => rfl
  | here => exact h.perform_of_quiet quiet_here rfl fun _ => rfl
  | emit i => exact h.perform_of_quiet (quiet_emit i) rfl fun r => by cases r <;> rfl
  | branch op target => exact h.perform_branch op target
  | tableSwitch low default targets => exact h.perform_tableSwitch low default targets
  | lookupSwitch default cases => exact h.perform_lookupSwitch default cases
  | beginBlock handler catchType =>
    exact h.perform_of_quiet (quiet_beginBlock handler catchType) rfl fun _ => rfl
  | endBlock => exact h.perform_of_quiet quiet_endBlock rfl fun _ => rfl
  | addHandler region => exact h.perform_of_quiet (quiet_addHandler region) rfl fun _ => rfl

theorem waits_run (h : Waits js a) (calls : List Call) :
    Waits (js ++ jumps calls a) (run calls a).2 := by
  induction calls generalizing a js with
  | nil =>
    rw [jumps, List.append_nil]
    exact h
  | cons call calls ih =>
    rw [jumps, ← List.append_assoc]
    exact ih (h.perform call)

/-! ## Refusals -/

/-- A label is refused for the first of the jumps to it that does not reach so far. -/
theorem Waits.markLabel_eq (h : Waits js a) (hbounded : a.Bounded) {l : Label}
    (hdef : a.isDefined l) (hl : a.labelOffset? l = none) :
    ((markLabel l).exec a).1
      = match js.find? fun j => j.target = l ∧ j.overshot a.offset with
        | some j => .error (.branchOutOfRange j.op (a.offset - j.origin))
        | none => .ok () := by
  have hfind : (js.find? fun j => j.target = l ∧ j.overshot a.offset)
      = ((a.pending l).find? fun p => !p.reaches a.offset).map (PendingJump.toward l) := by
    calc (js.find? fun j => j.target = l ∧ j.overshot a.offset)
        = (js.filter fun j => j.target = l).find? fun j => j.overshot a.offset := by
          rw [List.find?_filter]
          simp only [decide_eq_true_eq]
      _ = ((a.pending l).find? fun p => (p.toward l).overshot a.offset).map
            (PendingJump.toward l) := by
          rw [← h l hl, List.find?_map]
          rfl
      _ = _ := by
          -- The jumps that wait have begun, so that none of them leads back.
          rw [List.find?_congr fun p hp =>
            (p.not_reaches_eq (hbounded.origin_le l p hp) l).symm]
  rw [exec_markLabel, if_pos hdef, hl, hfind]
  simp only [exec_resolve]
  cases (a.pending l).find? fun p => !p.reaches a.offset <;> rfl

theorem isDefined_of_labelOffset? {l : Label} {t : Nat} (h : a.labelOffset? l = some t) :
    a.isDefined l := by
  obtain ⟨state, hstate, -⟩ := Option.bind_eq_some_iff.mp h
  exact isDefined_iff.mpr (Array.getElem?_eq_some_iff.mp hstate).1

/-- A branch to a marked label leads back, and is refused if that is too far. -/
theorem Bounded.branch_eq (h : a.Bounded) {op : Opcode} {l : Label} {t : Nat}
    (hkind : op.kind = .branch) (hroom : a.offset + 3 ≤ maxCodeSize)
    (ht : a.labelOffset? l = some t) :
    ((branch op l).exec a).1
      = if (t : Int) - a.offset < -32768 then .error (.branchOutOfRange op (t - a.offset))
        else .ok () := by
  have hwidth : branchWidth op = .ok .narrow := by rw [branchWidth, hkind]
  have hdef : (a.write [op.byte]).isDefined l := isDefined_of_labelOffset? ht
  have ht' : (a.write [op.byte]).labelOffset? l = some t := ht
  have hle := h.labelOffset_le l t ht
  have hfits : ¬maxCodeSize < a.offset + (1 + JumpWidth.narrow.bytes) := Nat.not_lt.mpr hroom
  rw [exec_branch, hwidth]
  simp only [if_neg hfits, exec_jumpOperand, if_pos hdef, ht', exec_resolve, List.find?_cons,
    List.find?_nil]
  -- The label is not ahead, so that only one of the two limits matters.
  have hreach : PendingJump.reaches
      ⟨((a.write [op.byte]).code.reserve JumpWidth.narrow.bytes).1, a.offset, .narrow, op⟩ t
      = !decide ((t : Int) - a.offset < -32768) := by
    show decide (-32768 ≤ (t : Int) - a.offset ∧ (t : Int) - a.offset ≤ 32767) = _
    rw [← decide_not, decide_eq_decide]
    omega
  rw [hreach, Bool.not_not]
  by_cases hfar : (t : Int) - a.offset < -32768
  · simp only [hfar, decide_true, if_true]
  · simp only [hfar, decide_false, if_false]

/-- The emission has a target, and four bytes for how far that is. -/
def Emission.isWide : Emission → Bool
  | instruction _ => false
  | branch op _ => op.kind = .wideBranch
  | _ => true

/-- Four bytes are always enough, so that only an undefined target is refused. -/
theorem Emission.ne_branchOutOfRange {m : Emission} (hm : m.isWide) (op : Opcode) (z : Int) :
    (m.perform.exec a).1 ≠ .error (.branchOutOfRange op z) := by
  have hheader : ∀ {op' : Opcode} {size : Nat} {default : Label} {b : Assembler},
      (switchHeader op' size default).exec a ≠ (.error (.branchOutOfRange op z), b) := by
    intro op' size default b h
    rw [exec_switchHeader] at h
    split at h
    · cases h
    · cases (exec_wideOperand_error (exec_map_eq_error.mp h)).1
  intro hfst
  obtain ⟨b, h⟩ : ∃ b, m.perform.exec a = (.error (.branchOutOfRange op z), b) :=
    ⟨_, Prod.ext hfst rfl⟩
  cases m with
  | instruction i => cases hm
  | branch op' target =>
    have hwidth : branchWidth op' = .ok .wide := by
      rw [branchWidth, of_decide_eq_true hm]
    have h := exec_map_eq_error.mp h
    rw [exec_branch, hwidth] at h
    simp only at h
    split at h
    · cases h
    · cases (exec_wideOperand_error h).1
  | tableSwitch low default =>
    rcases exec_bind_eq_error.mp (exec_map_eq_error.mp h) with h | ⟨_, c, -, h⟩
    · exact hheader h
    · cases h
  | lookupSwitch default =>
    rcases exec_bind_eq_error.mp (exec_map_eq_error.mp h) with h | ⟨_, c, -, h⟩
    · exact hheader h
    · cases h
  | tableCase s target =>
    have h := exec_map_eq_error.mp h
    rw [exec_tableCase] at h
    split at h
    · cases h
    · split at h
      · cases h
      · rcases exec_bind_eq_error.mp h with hjump | ⟨_, c, -, hpatch⟩
        · cases (exec_wideOperand_error hjump).1
        · cases hpatch
  | lookupCase s key target =>
    have h := exec_map_eq_error.mp h
    rw [exec_lookupCase] at h
    split at h
    · rename_i hcheck
      cases h
      cases refusesJump_of_checkKey hcheck
    · split at h
      · cases h
      · rcases exec_bind_eq_error.mp h with hjump | ⟨_, c, -, hpatch⟩
        · cases (exec_wideOperand_error hjump).1
        · cases hpatch

/-! ## The range of branches -/

/-- The range of branches after a run that has written the given jumps.  A branch to a marked label
is refused if that is more than 32768 bytes back, and marking a label is refused if one of the
branches to it starts more than 32767 bytes before: the error is about the first of these, and says
how far it would have to lead.  What has four bytes for its targets is never refused for this. -/
structure RangeSpec (js : List Jump) (a : Assembler) : Prop where
  branch_eq : ∀ (op : Opcode) (l : Label) (t : Nat), op.kind = .branch → a.offset + 3 ≤ 65535 →
    a.labelOffset? l = some t →
    ((branch op l).exec a).1
      = if (t : Int) - a.offset < -32768 then .error (.branchOutOfRange op (t - a.offset))
        else .ok ()
  markLabel_eq : ∀ l : Label, a.isDefined l → a.labelOffset? l = none →
    ((markLabel l).exec a).1
      = match js.find? fun j =>
          j.target = l ∧ j.width = .narrow ∧ 32767 < (a.offset : Int) - j.origin with
        | some j => .error (.branchOutOfRange j.op (a.offset - j.origin))
        | none => .ok ()
  wide_ne : ∀ m : Emission, m.isWide → ∀ (op : Opcode) (z : Int),
    (m.perform.exec a).1 ≠ .error (.branchOutOfRange op z)

/-- Branches in the state after any run, whatever was refused in it. -/
theorem branchRange_of_run (calls : List Call) :
    RangeSpec (jumps calls empty) (run calls empty).2 := by
  have hwaits := waits_run waits_empty calls
  obtain ⟨_, hreached⟩ := reached_run .start calls
  have hbounded := (withinBounds_of_reached hreached).toBounded
  refine ⟨fun op l t hkind hroom ht => hbounded.branch_eq hkind hroom ht, fun l hdef hl => ?_,
    fun m hm op z => Emission.ne_branchOutOfRange hm op z⟩
  have hmark := hwaits.markLabel_eq hbounded hdef hl
  simp only [Jump.overshot, decide_eq_true_eq] at hmark
  exact hmark

/-- Two branches and a switch that lead to one label; a branch to an undefined label, which is
refused, writes no jump. -/
example :
    jumps [.defineLabel, .branch goto ⟨0⟩, .branch goto ⟨3⟩, .tableSwitch 5 ⟨0⟩ [⟨2⟩],
      .branch goto ⟨0⟩, .markLabel ⟨0⟩] empty
      = [⟨goto, 0, .narrow, ⟨0⟩⟩, ⟨.tableSwitch, 4, .wide, ⟨0⟩⟩, ⟨goto, 20, .narrow, ⟨0⟩⟩] := by
  decide +kernel

end Assembler

end JvmClass
