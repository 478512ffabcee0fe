import JvmClass.Proofs.Code.Layout
import JvmClass.Proofs.Code.Step

/-!
# Runs of an assembler

A run is a list of calls, of which any may be refused, together with what each of them returned.  A
switch is one call with its cases: nothing else can be written between them.  A case that is refused
is reported and the others still follow.

`written` reads off the reports of a run which instructions it wrote, in order.
-/

namespace JvmClass

/-- The error is about the target of a jump: it was not defined here, or it is too far away. -/
def Error.refusesJump : Error → Bool
  | unknownLabel _ => true
  | branchOutOfRange _ _ => true
  | _ => false

namespace Assembler

/-! ## Calls -/

/-- Add cases to a switch one after the other and report on each of them. -/
def addEach {S K : Type} (add : S → K → Action Error Assembler S) :
    S → List K → Assembler → List (Except Error Unit) × Assembler
  | _, [], a => ([], a)
  | s, k :: ks, a =>
    match (add s k).exec a with
    | (.ok s', a') => (.ok () :: (addEach add s' ks a').1, (addEach add s' ks a').2)
    | (.error e, a') => (.error e :: (addEach add s ks a').1, (addEach add s ks a').2)

/-- A call of the interface of an assembler. -/
inductive Call
  | defineLabel
  | markLabel (l : Label)
  | here
  | emit (i : Instruction)
  | branch (op : Opcode) (target : Label)
  /-- A switch with the targets of its keys. -/
  | tableSwitch (low : Int32) (default : Label) (targets : List Label)
  /-- A switch with its keys and their targets. -/
  | lookupSwitch (default : Label) (cases : List (Int32 × Label))
  | beginBlock (handler : Label) (catchType : Ref .class)
  | endBlock
  | addHandler (region : ProtectedRegion)

/-- What a call does.  It returns what became of the cases of a switch. -/
def Call.perform : Call → Action Error Assembler (List (Except Error Unit))
  | defineLabel => (fun _ => []) <$> Assembler.defineLabel
  | markLabel l => (fun _ => []) <$> Assembler.markLabel l
  | here => (fun _ => []) <$> Assembler.here
  | emit i => (fun _ => []) <$> Assembler.emit i
  | branch op target => (fun _ => []) <$> Assembler.branch op target
  | tableSwitch low default targets => do
    let s ← Assembler.tableSwitch low default
    Action.ofFn fun a => (addEach TableSwitch.addCase s targets a).map .ok id
  | lookupSwitch default cases => do
    let s ← Assembler.lookupSwitch default
    Action.ofFn fun a => (addEach (fun s c => s.addCase c.1 c.2) s cases a).map .ok id
  | beginBlock handler catchType => (fun _ => []) <$> Assembler.beginBlock handler catchType
  | endBlock => (fun _ => []) <$> Assembler.endBlock
  | addHandler region => (fun _ => []) <$> Assembler.addHandler region

/-! ## Runs -/

/-- A call and what it returned. -/
structure Report where
  call : Call
  outcome : Except Error (List (Except Error Unit))

/-- Perform some calls, going on after each that is refused. -/
def run : List Call → Assembler → List Report × Assembler
  | [], a => ([], a)
  | call :: calls, a =>
    (⟨call, (call.perform.exec a).1⟩ :: (run calls (call.perform.exec a).2).1,
      (run calls (call.perform.exec a).2).2)

/-- The cases that were not refused. -/
def accepted {K : Type} (cases : List K) (outcomes : List (Except Error Unit)) : List K :=
  (cases.zip outcomes).filterMap fun (k, outcome) =>
    match outcome with
    | .ok () => some k
    | .error _ => none

namespace Report

/-- The instruction that a call wrote, if it was not refused and writes one. -/
def instruction? : Report → Option LabelledInstruction
  | ⟨.emit i, .ok _⟩ => some (.plain i)
  | ⟨.branch op target, .ok _⟩ => some (.branch op target)
  | ⟨.tableSwitch low default targets, .ok outcomes⟩ =>
    some (.tableSwitch low default (accepted targets outcomes))
  | ⟨.lookupSwitch default cases, .ok outcomes⟩ =>
    some (.lookupSwitch default (accepted cases outcomes))
  | _ => none

/-- The errors of a call and of the cases of its switch. -/
def errors (r : Report) : List Error :=
  match r.outcome with
  | .error e => [e]
  | .ok outcomes => outcomes.filterMap fun
    | .ok () => none
    | .error e => some e

/-- Neither the call nor a case of its switch was refused for the target of a jump. -/
def Clean (r : Report) : Prop := ∀ e ∈ r.errors, e.refusesJump = false

instance (r : Report) : Decidable r.Clean :=
  inferInstanceAs (Decidable (∀ e ∈ r.errors, e.refusesJump = false))

end Report

/-- The instructions that a run wrote, in order. -/
def written (reports : List Report) : List LabelledInstruction :=
  reports.filterMap Report.instruction?

/-- The parts that a call has written at `origin`. -/
def Report.parts (origin : Nat) (r : Report) : List Part :=
  match r.instruction? with
  | some i => i.parts origin
  | none => []

theorem layout_written_cons (origin : Nat) (r : Report) (rs : List Report) :
    layout origin (written (r :: rs))
      = r.parts origin ++ layout (origin + sizeOf (r.parts origin)) (written rs) := by
  unfold written Report.parts
  rw [List.filterMap_cons]
  cases r.instruction? with
  | none => rfl
  | some i => rfl

/-- A call that is refused has written nothing. -/
theorem Report.parts_error (origin : Nat) (call : Call) (e : Error) :
    Report.parts origin ⟨call, .error e⟩ = [] := by
  cases call <;> rfl

theorem Report.clean_error {call : Call} {e : Error} (h : Report.Clean ⟨call, .error e⟩) :
    e.refusesJump = false :=
  h e List.mem_cons_self

theorem Report.clean_cases {call : Call} {outcomes : List (Except Error Unit)}
    (h : Report.Clean ⟨call, .ok outcomes⟩) {e : Error} (he : .error e ∈ outcomes) :
    e.refusesJump = false :=
  h e (List.mem_filterMap.mpr ⟨_, he, rfl⟩)

end Assembler

end JvmClass
