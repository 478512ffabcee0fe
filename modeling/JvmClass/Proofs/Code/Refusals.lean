import JvmClass.Proofs.Code.Jumps

/-!
# Going on after a call that was refused

Most calls check everything before they write, so that a refused one leaves the code as it was and
the run can go on.  This also holds of undefined labels wherever nothing is written before they are
looked up.  What remains are the calls that are `interrupted`: the opcode of a jump or the key of a
case is there already when its target is refused, or a label has its position already when one of
the jumps that waited for it does not reach.

Without interrupted calls a finished method consists of the instructions that were not refused, and
of nothing else.

## Key results

- `eq_of_markLabel_error`, `exec_emit_error`, `exec_tableCase_error`: what is refused in time
- `Realizes.perform_of_uninterrupted`, `realizes_run_of_uninterrupted`: one call, and a run
- `complete_of_finish`: what the code of a finished method consists of
-/

namespace JvmClass.Assembler

open JvmClass.Action

variable {a b : Assembler} {parts : List Part} {e : Error}

/-! ## What is refused in time -/

/-- Marking a label is refused in time unless one of the jumps to it does not reach. -/
theorem eq_of_markLabel_error {l : Label} (h : (markLabel l).exec a = (.error e, b))
    (hreach : ∀ op z, e ≠ .branchOutOfRange op z) : b = a := by
  rw [exec_markLabel] at h
  split at h
  · split at h
    · cases h
      rfl
    · rw [exec_resolve] at h
      split at h
      · cases h
        exact absurd rfl (hreach _ _)
      · cases h
  · cases h
    rfl

/-- Marking a label is interrupted only by a jump that does not reach it. -/
theorem Realizes.markLabel (h : a.Realizes parts) {l : Label} {r : Except Error Unit}
    (hexec : (markLabel l).exec a = (r, b)) (hreach : ∀ op z, r ≠ .error (.branchOutOfRange op z)) :
    b.Realizes parts := by
  have hends := ends_markLabel h l
  rw [hexec] at hends
  cases r with
  | ok u => exact hends
  | error e =>
    have hb : b = a := eq_of_markLabel_error hexec fun op z he => hreach op z (congrArg _ he)
    rw [hb]
    exact h

theorem exec_emit_error {i : Instruction} (h : (emit i).exec a = (.error e, b)) : b = a := by
  rw [exec_emit] at h
  split at h
  · cases h
    rfl
  · split at h <;> cases h
    rfl

/-- A wide operand reaches every target, so that only an undefined one is refused. -/
theorem exec_wideOperand_error {op : Opcode} {origin : Nat} {target : Label}
    (h : (jumpOperand op origin .wide target).exec a = (.error e, b)) :
    e = .unknownLabel target ∧ b = a := by
  rw [exec_jumpOperand] at h
  split at h
  · simp only at h
    split at h
    · rw [exec_resolve] at h
      cases h
    · cases h
  · cases h
    exact ⟨rfl, rfl⟩

/-- The next key of a table is not written, so that a case writes its target at once. -/
theorem exec_tableCase_error {s : TableSwitch} {target : Label}
    (h : (s.addCase target).exec a = (.error e, b)) : b = a := by
  rw [exec_tableCase] at h
  split at h
  · cases h
    rfl
  · split at h
    · cases h
      rfl
    · rcases exec_bind_eq_error.mp h with hjump | ⟨_, c, -, hpatch⟩
      · exact (exec_wideOperand_error hjump).2
      · cases hpatch

/-! ## Runs that are not interrupted -/

/-- The call, or a case of its switch, was refused when it had written a part of its bytes, or a
position for the label that it marks. -/
def Report.interrupted (r : Report) : Bool :=
  match r.call, r.outcome with
  | .branch _ _, _ => r.errors.any Error.refusesJump
  | .lookupSwitch _ _, _ => r.errors.any Error.refusesJump
  -- The cases of a table are refused in time.
  | .tableSwitch _ _ _, .error e => e.refusesJump
  | .markLabel _, .error (.branchOutOfRange _ _) => true
  | _, _ => false

theorem Report.clean_iff {r : Report} : r.Clean ↔ r.errors.any Error.refusesJump = false := by
  simp [Clean]

/-- A table of which every case is added or refused in time. -/
theorem Realizes.tableSwitch (h : a.Realizes parts) (low : Int32) (default : Label)
    (targets : List Label)
    (hr : Report.interrupted ⟨.tableSwitch low default targets,
      ((Call.tableSwitch low default targets).perform.exec a).1⟩ = false) :
    ((Call.tableSwitch low default targets).perform.exec a).2.Realizes
      (parts ++ Report.parts (sizeOf parts) ⟨.tableSwitch low default targets,
        ((Call.tableSwitch low default targets).perform.exec a).1⟩) := by
  have hstart := ends_tableSwitch h low default
  simp only [Call.perform, exec_bind] at hr ⊢
  cases hexec : (Assembler.tableSwitch low default).exec a with
  | mk r b =>
    rw [hexec] at hstart
    simp only [hexec] at hr ⊢
    cases r with
    | error e =>
      rw [Report.parts_error, List.append_nil]
      exact hstart hr
    | ok s =>
      -- A case that is refused leaves everything as it was, whatever the error.
      have hcases := builds_addEach
        (fun s done a target s' b hs hact => by
          have hends := ends_tableCase hs target
          rw [hact] at hends
          exact hends)
        (fun s done a target e b hs hact (_ : True) => exec_tableCase_error hact ▸ hs)
        hstart targets fun _ _ => trivial
      obtain ⟨s', hs'⟩ := hcases
      exact hs'.realizes

/-- A call that is not interrupted adds the instruction that it wrote to the layout, if any. -/
theorem Realizes.perform_of_uninterrupted (h : a.Realizes parts) (call : Call)
    (hr : Report.interrupted ⟨call, (call.perform.exec a).1⟩ = false) :
    (call.perform.exec a).2.Realizes
      (parts ++ Report.parts (sizeOf parts) ⟨call, (call.perform.exec a).1⟩) := by
  -- Calls that never write have no parts either.
  have hnothing : ∀ {α : Type} {act : Action Error Assembler α}, act.Moves Stays →
      call.perform = (fun _ => []) <$> act →
      (∀ outcome, Report.parts (sizeOf parts) ⟨call, outcome⟩ = []) →
      (call.perform.exec a).2.Realizes
        (parts ++ Report.parts (sizeOf parts) ⟨call, (call.perform.exec a).1⟩) := by
    intro α act hact hperform hparts
    rw [hparts, List.append_nil, hperform]
    exact hact.map _ a parts h
  cases call with
  | defineLabel => exact hnothing stays_defineLabel rfl fun outcome => by cases outcome <;> rfl
  | here => exact hnothing stays_here rfl fun outcome => by cases outcome <;> rfl
  | beginBlock handler catchType =>
    exact hnothing (stays_beginBlock handler catchType) rfl fun outcome => by cases outcome <;> rfl
  | endBlock => exact hnothing stays_endBlock rfl fun outcome => by cases outcome <;> rfl
  | addHandler region =>
    exact hnothing (stays_addHandler region) rfl fun outcome => by cases outcome <;> rfl
  | branch op target => exact h.perform _ (Report.clean_iff.mpr hr)
  | lookupSwitch default cases => exact h.perform _ (Report.clean_iff.mpr hr)
  | tableSwitch low default targets => exact h.tableSwitch low default targets hr
  | emit i =>
    simp only [Call.perform, exec_map] at hr ⊢
    have hends := ends_emit h i
    cases hexec : (emit i).exec a with
    | mk r b =>
      rw [hexec] at hends
      cases r with
      | error e =>
        cases exec_emit_error hexec
        simpa only [Except.map, Report.parts_error, List.append_nil] using h
      | ok u => exact hends
  | markLabel l =>
    simp only [Call.perform, exec_map] at hr ⊢
    cases hexec : (Assembler.markLabel l).exec a with
    | mk r b =>
      rw [hexec] at hr
      have hparts : Report.parts (sizeOf parts) ⟨.markLabel l, r.map fun _ => []⟩ = [] := by
        cases r <;> rfl
      rw [hparts, List.append_nil]
      refine h.markLabel hexec ?_
      rintro op z rfl
      cases hr

/-- A run that is not interrupted adds the instructions that it wrote to the layout, one after the
other, whatever else was refused. -/
theorem realizes_run_of_uninterrupted (h : a.Realizes parts) (calls : List Call)
    (hr : ∀ r ∈ (run calls a).1, r.interrupted = false) :
    (run calls a).2.Realizes (parts ++ layout (sizeOf parts) (written (run calls a).1)) := by
  induction calls generalizing a parts with
  | nil => simpa [run, written, layout] using h
  | cons call calls ih =>
    simp only [run, layout_written_cons] at hr ⊢
    have hcall := h.perform_of_uninterrupted call (hr _ List.mem_cons_self)
    have hrest := ih hcall fun r hmem => hr r (List.mem_cons_of_mem _ hmem)
    rwa [sizeOf_append, List.append_assoc] at hrest

/-! ## Finished methods -/

/-- The code of a method consists of the given instructions one after the other, with every operand
of a jump filled in: it says how far the label is from the start of the instruction. -/
structure Complete (body : MethodBody) (is : List LabelledInstruction) : Prop where
  code_eq : body.code = render body.labelOffset? (layout 0 is)
  standsAs : ∀ before part after, layout 0 is = before ++ part :: after →
    StandsAs body ((body.code.drop (sizeOf before)).take part.size) part

/-- A method that is finished after a run without interrupted calls consists of the instructions
that were written, however many calls and cases were refused. -/
theorem complete_of_finish (calls : List Call) (body : MethodBody)
    (hr : ∀ r ∈ (run calls empty).1, r.interrupted = false)
    (hfinish : (run calls empty).2.finish = .ok body) :
    Complete body (written (run calls empty).1) := by
  have hrun := realizes_run_of_uninterrupted realizes_empty calls hr
  rw [List.nil_append] at hrun
  obtain ⟨hcode, hoffset, -⟩ := finish_eq_ok hfinish
  constructor
  · rw [hcode, hoffset, hrun.code_eq]
    rfl
  · intro before part after hparts
    exact hrun.standsAs hfinish hparts

/-- Labels that do not exist, keys out of order and a label marked twice, around a table and a jump
back. -/
def refusedCalls : List Call :=
  [.markLabel ⟨0⟩, .here, .tableSwitch 5 ⟨0⟩ [⟨7⟩, ⟨0⟩], .beginBlock ⟨7⟩ .none,
    .lookupSwitch ⟨0⟩ [(3, ⟨0⟩), (2, ⟨0⟩)], .emit (.plain .wide), .markLabel ⟨0⟩, .endBlock,
    .branch goto ⟨0⟩]

theorem complete_of_refused :
    ∃ body, (∀ r ∈ (run refusedCalls empty).1, r.interrupted = false) ∧
      (run refusedCalls empty).2.finish = .ok body ∧
      Complete body (written (run refusedCalls empty).1) := by
  have hr : ∀ r ∈ (run refusedCalls empty).1, r.interrupted = false := by decide +kernel
  have hhandlers : (run refusedCalls empty).2.handlers = .ok [] := rfl
  have hawaited : (run refusedCalls empty).2.awaited? = none := by decide +kernel
  have hfinish := finish_of_handlers hhandlers hawaited
  exact ⟨_, hr, hfinish, complete_of_finish _ _ hr hfinish⟩

/-- The opcode of a jump stays behind when its label does not exist. -/
theorem not_complete_of_interrupted :
    ¬ ∀ (calls : List Call) (body : MethodBody), (run calls empty).2.finish = .ok body →
      Complete body (written (run calls empty).1) := by
  intro h
  have hhandlers : (run [.branch goto ⟨0⟩] empty).2.handlers = .ok [] := rfl
  have hawaited : (run [.branch goto ⟨0⟩] empty).2.awaited? = none := by
    decide +kernel
  -- One byte was written, but no instruction.
  have hcode := (h _ _ (finish_of_handlers hhandlers hawaited)).code_eq
  have hlen := congrArg List.length hcode
  rw [Buffer.length_toList, length_render] at hlen
  cases hlen

end JvmClass.Assembler
