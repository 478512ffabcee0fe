import JvmClass.Proofs.Code.Refusals
import JvmClass.Proofs.Code.Size

/-!
# What refused calls leave behind

A call that is refused before it has written anything leaves the whole assembler as it was: the
code, the labels and the jumps that wait for them, the open blocks and the regions.  The exceptions
are those where a jump is refused for its target.  If the label is not defined, what comes before
the operand of the jump stays in the code, and nothing else has changed.

So the refused calls of a run can be left out, and with them the refused cases of its switches: the
others lead to the same assembler.

## Key results

- `strays_of_jumpOperand`: an operand whose label is not defined is refused before it is written
- `Emission.left_of_error`, `eq_of_perform_error`: one emission, and one call
- `run_acceptedCalls`: a run without its refused calls
- `refused_leaves_no_trace`: what refused calls leave behind in any state
-/

namespace JvmClass.Assembler

open JvmClass.Action

variable {a b : Assembler} {e : Error}

/-! ## Labels, blocks and regions -/

theorem eq_of_beginBlock_error {handler : Label} {catchType : Ref .class}
    (h : (beginBlock handler catchType).exec a = (.error e, b)) : b = a := by
  rw [exec_beginBlock] at h
  split at h <;> cases h
  rfl

theorem eq_of_endBlock_error (h : endBlock.exec a = (.error e, b)) : b = a := by
  rw [exec_endBlock] at h
  split at h <;> cases h
  rfl

/-- All three labels are looked up before the region is added. -/
theorem eq_of_addHandler_error {region : ProtectedRegion}
    (h : (addHandler region).exec a = (.error e, b)) : b = a := by
  rw [exec_addHandler] at h
  split at h
  · cases h
    rfl
  split at h
  · cases h
    rfl
  split at h <;> cases h
  rfl

/-! ## Emissions -/

/-- What is refused for the target of a jump has written the stray bytes by then, and nothing else
if the label is not defined; what is refused for anything else has not written at all. -/
def Strays (stray : List UInt8) (a : Assembler) (e : Error) (b : Assembler) : Prop :=
  if e.refusesJump then ∀ l, e = .unknownLabel l → b = a.write stray else b = a

/-- The operand of a jump behind some bytes: a label is looked up before anything is reserved. -/
theorem strays_of_jumpOperand {op : Opcode} {origin : Nat} {width : JumpWidth} {target : Label}
    {stray : List UInt8}
    (h : (jumpOperand op origin width target).exec (a.write stray) = (.error e, b)) :
    Strays stray a e b := by
  rw [exec_jumpOperand] at h
  split at h
  · simp only at h
    split at h
    · rw [exec_resolve] at h
      split at h
      · cases h
        exact nofun
      · cases h
    · cases h
  · cases h
    exact fun _ _ => rfl

/-- The header of a switch is refused for its size, or for its default target. -/
theorem strays_of_switchHeader {op : Opcode} {size : Nat} {default : Label}
    (h : (switchHeader op size default).exec a = (.error e, b)) :
    Strays (op.byte :: List.replicate (switchPadding a.offset) 0) a e b := by
  rw [exec_switchHeader] at h
  split at h
  · cases h
    rfl
  · exact strays_of_jumpOperand (exec_map_eq_error.mp h)

theorem branchWidth_eq_error {op : Opcode} (h : branchWidth op = .error e) :
    e = .wrongOpcodeKind op .branch := by
  unfold branchWidth at h
  split at h <;> cases h
  rfl

theorem strays_of_branch {op : Opcode} {target : Label}
    (h : (branch op target).exec a = (.error e, b)) : Strays [op.byte] a e b := by
  rw [exec_branch] at h
  split at h
  · rename_i hwidth
    cases h
    cases branchWidth_eq_error hwidth
    rfl
  split at h
  · cases h
    rfl
  · exact strays_of_jumpOperand h

theorem refusesJump_of_checkKey {s : LookupSwitch} {key : Int32} (h : s.checkKey key = .error e) :
    e.refusesJump = false := by
  unfold LookupSwitch.checkKey at h
  split at h
  · split at h <;> cases h
    rfl
  · cases h

theorem strays_of_lookupCase {s : LookupSwitch} {key : Int32} {target : Label}
    (h : (s.addCase key target).exec a = (.error e, b)) :
    Strays (BigEndian.u4 key.toUInt32) a e b := by
  rw [exec_lookupCase] at h
  split at h
  · rename_i hcheck
    cases h
    simp [Strays, refusesJump_of_checkKey hcheck]
  split at h
  · cases h
    rfl
  rcases exec_bind_eq_error.mp h with h | ⟨_, c, -, h⟩
  · exact strays_of_jumpOperand h
  · -- The number of cases is always brought up to date.
    cases h

/-- The emission was refused for the target of its jump when something had been written already.
Nothing comes before the target of a case of a table. -/
def Emission.interrupted (m : Emission) (e : Error) : Bool :=
  match m with
  | instruction _ => false
  | tableCase _ _ => false
  | _ => e.refusesJump

/-- What an emission at `offset` writes before it looks up the target of its jump. -/
def Emission.stray (offset : Nat) : Emission → List UInt8
  | instruction _ => []
  | branch op _ => [op.byte]
  | tableSwitch _ _ => Opcode.tableSwitch.byte :: List.replicate (switchPadding offset) 0
  | lookupSwitch _ => Opcode.lookupSwitch.byte :: List.replicate (switchPadding offset) 0
  | tableCase _ _ => []
  | lookupCase _ key _ => BigEndian.u4 key.toUInt32

/-- What is left behind by an emission that is refused. -/
theorem Emission.left_of_error {m : Emission} (h : m.perform.exec a = (.error e, b)) :
    if m.interrupted e then ∀ l, e = .unknownLabel l → b = a.write (m.stray a.offset)
    else b = a := by
  cases m with
  | instruction i => exact exec_emit_error (exec_map_eq_error.mp h)
  | branch op target => exact strays_of_branch (exec_map_eq_error.mp h)
  | tableSwitch low default =>
    rcases exec_bind_eq_error.mp (exec_map_eq_error.mp h) with h | ⟨origin, c, -, h⟩
    · exact strays_of_switchHeader h
    · -- Behind the header nothing is refused.
      cases h
  | lookupSwitch default =>
    rcases exec_bind_eq_error.mp (exec_map_eq_error.mp h) with h | ⟨origin, c, -, h⟩
    · exact strays_of_switchHeader h
    · cases h
  | tableCase s target => exact exec_tableCase_error (exec_map_eq_error.mp h)
  | lookupCase s key target => exact strays_of_lookupCase (exec_map_eq_error.mp h)

/-! ## Calls -/

/-- A switch is refused as a whole if its header is. -/
theorem exec_switch_error {S K : Type} {start : Action Error Assembler S}
    {add : S → K → Action Error Assembler S} {ks : List K}
    (h : (start >>= fun s => Action.ofFn fun a => (addEach add s ks a).map .ok id).exec a
      = (.error e, b)) : start.exec a = (.error e, b) := by
  rcases exec_bind_eq_error.mp h with h | ⟨s, c, -, h⟩
  · exact h
  · cases h

/-- A call that is refused, but not interrupted, changes nothing. -/
theorem eq_of_perform_error {call : Call} (h : call.perform.exec a = (.error e, b))
    (hr : Report.interrupted ⟨call, .error e⟩ = false) : b = a := by
  have herrors : Report.errors ⟨call, .error e⟩ = [e] := rfl
  cases call with
  | defineLabel => cases h
  | here =>
    have h := exec_map_eq_error.mp h
    rw [exec_here] at h
    cases h
  | markLabel l =>
    refine eq_of_markLabel_error (exec_map_eq_error.mp h) ?_
    rintro op z rfl
    cases hr
  | emit i => exact exec_emit_error (exec_map_eq_error.mp h)
  | branch op target =>
    have hr : e.refusesJump = false := by simpa [Report.interrupted, herrors] using hr
    have hstrays := strays_of_branch (exec_map_eq_error.mp h)
    simpa [Strays, hr] using hstrays
  | tableSwitch low default targets =>
    have hleft := Emission.left_of_error (m := .tableSwitch low default)
      (exec_map_eq_error.mpr (exec_switch_error h))
    have hr : e.refusesJump = false := hr
    simpa [Emission.interrupted, hr] using hleft
  | lookupSwitch default cases =>
    have hr : e.refusesJump = false := by simpa [Report.interrupted, herrors] using hr
    have hleft := Emission.left_of_error (m := .lookupSwitch default)
      (exec_map_eq_error.mpr (exec_switch_error h))
    simpa [Emission.interrupted, hr] using hleft
  | beginBlock handler catchType => exact eq_of_beginBlock_error (exec_map_eq_error.mp h)
  | endBlock => exact eq_of_endBlock_error (exec_map_eq_error.mp h)
  | addHandler region => exact eq_of_addHandler_error (exec_map_eq_error.mp h)

/-! ## Runs -/

/-- The call without the cases that were refused, unless it was refused as a whole. -/
def Report.accepted? : Report → Option Call
  | ⟨_, .error _⟩ => none
  | ⟨.tableSwitch low default targets, .ok outcomes⟩ =>
    some (.tableSwitch low default (accepted targets outcomes))
  | ⟨.lookupSwitch default cases, .ok outcomes⟩ =>
    some (.lookupSwitch default (accepted cases outcomes))
  | ⟨call, .ok _⟩ => some call

/-- The calls of a run that were not refused, each without the cases that were. -/
def acceptedCalls (reports : List Report) : List Call := reports.filterMap Report.accepted?

/-- The refused cases of a switch can be left out if each of them changes nothing. -/
theorem addEach_accepted {S K : Type} {add : S → K → Action Error Assembler S}
    {allowed : Error → Prop}
    (hadd : ∀ s k a e b, (add s k).exec a = (.error e, b) → allowed e → b = a) (s : S)
    (ks : List K) (a : Assembler)
    (hallowed : ∀ e, .error e ∈ (addEach add s ks a).1 → allowed e) :
    (addEach add s (accepted ks (addEach add s ks a).1) a).2 = (addEach add s ks a).2 := by
  induction ks generalizing s a with
  | nil => rfl
  | cons k ks ih =>
    unfold addEach at hallowed
    cases hexec : (add s k).exec a with
    | mk r b =>
      rw [hexec] at hallowed
      cases r with
      | error e =>
        have heach : addEach add s (k :: ks) a
            = (.error e :: (addEach add s ks b).1, (addEach add s ks b).2) := by
          rw [addEach, hexec]
        -- The refused case is skipped, and the next one finds the same assembler.
        obtain rfl := hadd s k a e b hexec (hallowed e List.mem_cons_self)
        rw [heach]
        exact ih s b fun e' he' => hallowed e' (List.mem_cons_of_mem _ he')
      | ok s' =>
        have heach : ∀ more, addEach add s (k :: more) a
            = (.ok () :: (addEach add s' more b).1, (addEach add s' more b).2) := by
          intro more
          rw [addEach, hexec]
        rw [heach ks]
        show (addEach add s (k :: accepted ks (addEach add s' ks b).1) a).2 = _
        rw [heach]
        exact ih s' b fun e' he' => hallowed e' (List.mem_cons_of_mem _ he')

/-- A switch without its refused cases. -/
theorem exec_switch_accepted {S K : Type} {start : Action Error Assembler S}
    {add : S → K → Action Error Assembler S} {allowed : Error → Prop} {ks : List K}
    {outcomes : List (Except Error Unit)}
    (hadd : ∀ s k a e b, (add s k).exec a = (.error e, b) → allowed e → b = a)
    (h : (start >>= fun s => Action.ofFn fun a => (addEach add s ks a).map .ok id).exec a
      = (.ok outcomes, b))
    (hallowed : ∀ e, .error e ∈ outcomes → allowed e) :
    ((start >>= fun s => Action.ofFn fun a =>
      (addEach add s (accepted ks outcomes) a).map .ok id).exec a).2 = b := by
  obtain ⟨s, c, hstart, h⟩ := exec_bind_eq_ok.mp h
  cases h
  rw [exec_bind, hstart]
  exact addEach_accepted hadd s ks c hallowed

/-- A call without the cases that were refused leads to the same assembler. -/
theorem perform_accepted {call call' : Call}
    (hr : Report.interrupted ⟨call, (call.perform.exec a).1⟩ = false)
    (h : Report.accepted? ⟨call, (call.perform.exec a).1⟩ = some call') :
    (call'.perform.exec a).2 = (call.perform.exec a).2 := by
  cases hexec : call.perform.exec a with
  | mk r b =>
    rw [hexec] at hr h
    cases r with
    | error e => cases h
    | ok outcomes =>
      cases call with
      | tableSwitch low default targets =>
        cases h
        exact exec_switch_accepted (fun _ _ _ _ _ hcase _ => exec_tableCase_error hcase) hexec
          fun _ _ => trivial
      | lookupSwitch default cases =>
        cases h
        have hclean : Report.Clean ⟨.lookupSwitch default cases, .ok outcomes⟩ :=
          Report.clean_iff.mpr hr
        have hadd : ∀ (s : LookupSwitch) (c : Int32 × Label) (a : Assembler) (e : Error)
            (b : Assembler), (s.addCase c.1 c.2).exec a = (.error e, b) →
            e.refusesJump = false → b = a := by
          intro s c a e b hcase he
          have hstrays := strays_of_lookupCase hcase
          simpa [Strays, he] using hstrays
        exact exec_switch_accepted hadd hexec fun e he => Report.clean_cases hclean he
      | _ =>
        cases h
        rw [hexec]

/-- The refused calls of a run can be left out if none of them was interrupted. -/
theorem run_acceptedCalls (calls : List Call) (a : Assembler)
    (hr : ∀ r ∈ (run calls a).1, r.interrupted = false) :
    (run (acceptedCalls (run calls a).1) a).2 = (run calls a).2 := by
  induction calls generalizing a with
  | nil => rfl
  | cons call calls ih =>
    simp only [run, acceptedCalls, List.filterMap_cons] at hr ⊢
    have hcall := hr _ List.mem_cons_self
    have hrest := ih (call.perform.exec a).2 fun r hmem => hr r (List.mem_cons_of_mem _ hmem)
    cases haccepted : Report.accepted? ⟨call, (call.perform.exec a).1⟩ with
    | none =>
      -- The call was refused as a whole.
      cases hexec : call.perform.exec a with
      | mk r b =>
        rw [hexec] at hcall haccepted hrest
        cases r with
        | error e =>
          cases eq_of_perform_error hexec hcall
          exact hrest
        | ok outcomes => cases call <;> cases haccepted
    | some call' =>
      simp only [run]
      rw [perform_accepted hcall haccepted]
      exact hrest

/-! ## Refused calls -/

/-- What refused calls leave behind in an assembler: nothing, if they are refused in time, and what
comes before the operand of a jump if the label of that is not defined.  So a run can do without
those that are refused in time. -/
structure RefusalSpec (a : Assembler) : Prop where
  call_eq : ∀ (call : Call) (e : Error) (b : Assembler), call.perform.exec a = (.error e, b) →
    Report.interrupted ⟨call, .error e⟩ = false → b = a
  emission_eq : ∀ (m : Emission) (e : Error) (b : Assembler), m.perform.exec a = (.error e, b) →
    m.interrupted e = false → b = a
  stray_eq : ∀ (m : Emission) (l : Label) (b : Assembler),
    m.perform.exec a = (.error (.unknownLabel l), b) → m.interrupted (.unknownLabel l) →
    b = a.write (m.stray a.offset)
  run_eq : ∀ calls : List Call, (∀ r ∈ (run calls a).1, r.interrupted = false) →
    (run (acceptedCalls (run calls a).1) a).2 = (run calls a).2

/-- In every state a call leaves the code, the labels with the jumps that wait for them, the open
blocks and the regions as they were if it is refused, unless it is for the target of a jump: for a
position out of reach, or by an undefined label for a jump, the header of a switch or a case of a
`lookupswitch`. -/
theorem refused_leaves_no_trace (a : Assembler) : RefusalSpec a where
  call_eq _ _ _ h hr := eq_of_perform_error h hr
  emission_eq m e b h hr := by
    have hleft := Emission.left_of_error h
    rwa [if_neg (by simp [hr])] at hleft
  stray_eq m l b h hr := by
    have hleft := Emission.left_of_error h
    rw [if_pos hr] at hleft
    exact hleft l rfl
  run_eq calls hr := run_acceptedCalls calls a hr

end JvmClass.Assembler
