import JvmClass.Code.Switch
import JvmClass.Proofs.Byte.Buffer

/-!
# The layout of assembled code

A method is written as a list of instructions whose jumps name labels.  Its `layout` is a list of
parts: bytes that are known when an instruction is written, and operands of jumps, which depend on
the positions of labels.  The sizes of the parts do not, so that the layout fixes where everything
stands, and `render` gives the bytes for any positions of the labels.

## Key results

- `length_render`: the positions of labels do not change where parts stand
- `render_mark`: marking a label comes down to patching the operands that jump to it
-/

namespace JvmClass

-- Sums start from the zero of the core library, also where Mathlib brings its own.
attribute [local instance (high)] Zero.ofOfNat0

/-! ## Instructions with labels -/

/-- An instruction of a method in which jumps name their targets. -/
inductive LabelledInstruction
  | plain (i : Instruction)
  | branch (op : Opcode) (target : Label)
  /-- The targets of the keys from `low` on. -/
  | tableSwitch (low : Int32) (default : Label) (targets : List Label)
  | lookupSwitch (default : Label) (cases : List (Int32 × Label))

/-- The operand of a jump: the opcode and the position of its instruction, its width, and where it
leads. -/
structure Jump where
  op : Opcode
  origin : Nat
  width : JumpWidth
  target : Label
  deriving DecidableEq

/-- A stretch of code: bytes that are known, or the operand of a jump. -/
inductive Part
  | bytes (bs : List UInt8)
  | jump (j : Jump)
  deriving DecidableEq

def Part.size : Part → Nat
  | bytes bs => bs.length
  | jump j => j.width.bytes

/-- The number of bytes of some parts. -/
def sizeOf (parts : List Part) : Nat := (parts.map Part.size).sum

/-- The width of the operand of a jump instruction. -/
def Opcode.jumpWidth (op : Opcode) : JumpWidth :=
  match op.kind with
  | .wideBranch => .wide
  | _ => .narrow

/-- The bytes of an instruction without jumps; none if it is refused. -/
def Instruction.bytes (i : Instruction) : List UInt8 :=
  match i.encode with
  | .ok bytes => bytes
  | .error _ => []

/-- The target of a switch. -/
def switchTarget (op : Opcode) (origin : Nat) (target : Label) : Part :=
  .jump ⟨op, origin, .wide, target⟩

/-- The opcode of a switch, its padding, and the default target. -/
def switchStart (op : Opcode) (origin : Nat) (default : Label) : List Part :=
  [.bytes (op.byte :: List.replicate (Assembler.switchPadding origin) 0),
    switchTarget op origin default]

/-- A key of a `lookupswitch` and its target. -/
def lookupCase (origin : Nat) (c : Int32 × Label) : List Part :=
  [.bytes (BigEndian.u4 c.1.toUInt32), switchTarget .lookupSwitch origin c.2]

namespace LabelledInstruction

/-- The parts of the instruction at `origin`. -/
def parts (origin : Nat) : LabelledInstruction → List Part
  | plain i => [.bytes i.bytes]
  | branch op target => [.bytes [op.byte], .jump ⟨op, origin, op.jumpWidth, target⟩]
  | tableSwitch low default targets =>
    switchStart .tableSwitch origin default
      ++ [.bytes (BigEndian.encodeInt 4 low.toInt),
        .bytes (BigEndian.encodeInt 4 (low.toInt + targets.length - 1))]
      ++ targets.map (switchTarget .tableSwitch origin)
  | lookupSwitch default cases =>
    switchStart .lookupSwitch origin default
      ++ [.bytes (BigEndian.encode 4 cases.length)]
      ++ cases.flatMap (lookupCase origin)

end LabelledInstruction

/-- The parts of some instructions, the first of them at `origin`. -/
def layout (origin : Nat) : List LabelledInstruction → List Part
  | [] => []
  | i :: rest => i.parts origin ++ layout (origin + sizeOf (i.parts origin)) rest

/-! ## Sizes -/

@[simp] theorem sizeOf_nil : sizeOf [] = 0 := rfl

@[simp] theorem sizeOf_cons (part : Part) (parts : List Part) :
    sizeOf (part :: parts) = part.size + sizeOf parts := rfl

@[simp] theorem sizeOf_append (ps qs : List Part) :
    sizeOf (ps ++ qs) = sizeOf ps + sizeOf qs := by
  simp [sizeOf]

/-! ## Rendering -/

/-- The bytes of an operand that leads to position `target`. -/
def Jump.encode (j : Jump) (target : Nat) : List UInt8 :=
  BigEndian.encodeInt j.width.bytes (target - j.origin)

/-- The bytes of a part when labels are at the given positions.  An operand is zero until its target
is known. -/
def Part.render (offset? : Label → Option Nat) : Part → List UInt8
  | bytes bs => bs
  | jump j =>
    match offset? j.target with
    | some target => j.encode target
    | none => List.replicate j.width.bytes 0

/-- The bytes of some parts when labels are at the given positions. -/
def render (offset? : Label → Option Nat) (parts : List Part) : List UInt8 :=
  parts.flatMap (Part.render offset?)

@[simp] theorem Jump.length_encode (j : Jump) (target : Nat) :
    (j.encode target).length = j.width.bytes := by
  simp [Jump.encode]

theorem Part.length_render (offset? : Label → Option Nat) (part : Part) :
    (part.render offset?).length = part.size := by
  cases part with
  | bytes bs => rfl
  | jump j =>
    simp only [Part.render, Part.size]
    split
    · exact j.length_encode _
    · exact List.length_replicate

@[simp] theorem render_nil (offset? : Label → Option Nat) : render offset? [] = [] := rfl

@[simp] theorem render_cons (offset? : Label → Option Nat) (part : Part) (parts : List Part) :
    render offset? (part :: parts) = part.render offset? ++ render offset? parts := rfl

@[simp] theorem render_append (offset? : Label → Option Nat) (ps qs : List Part) :
    render offset? (ps ++ qs) = render offset? ps ++ render offset? qs := by
  simp [render]

/-- Where parts stand does not depend on the labels. -/
theorem length_render (offset? : Label → Option Nat) (parts : List Part) :
    (render offset? parts).length = sizeOf parts := by
  induction parts with
  | nil => rfl
  | cons part parts ih => simp [ih, Part.length_render]

/-! ## The operands that lead to a label -/

/-- The operands among some parts that lead to a label, with their positions, if the parts stand at
position `pos`. -/
def sites (l : Label) : Nat → List Part → List (Nat × Jump)
  | _, [] => []
  | pos, .bytes bs :: parts => sites l (pos + bs.length) parts
  | pos, .jump j :: parts =>
    if j.target = l then (pos, j) :: sites l (pos + j.width.bytes) parts
    else sites l (pos + j.width.bytes) parts

theorem sites_append (l : Label) (pos : Nat) (ps qs : List Part) :
    sites l pos (ps ++ qs) = sites l pos ps ++ sites l (pos + sizeOf ps) qs := by
  induction ps generalizing pos with
  | nil => rfl
  | cons p ps ih =>
    cases p with
    | bytes bs => simp only [List.cons_append, sites, ih, sizeOf_cons, Part.size, Nat.add_assoc]
    | jump j =>
      simp only [List.cons_append, sites, ih, sizeOf_cons, Part.size, Nat.add_assoc]
      split <;> rfl

/-- Every jump among the parts has a site. -/
theorem exists_mem_sites {j : Jump} {parts : List Part} (h : .jump j ∈ parts) (pos : Nat) :
    ∃ i, (i, j) ∈ sites j.target pos parts := by
  induction parts generalizing pos with
  | nil => cases h
  | cons p ps ih =>
    rcases List.mem_cons.mp h with heq | hrest
    · subst heq
      exact ⟨pos, by simp [sites]⟩
    · cases p with
      | bytes bs => exact ih hrest _
      | jump k =>
        obtain ⟨i, hi⟩ := ih hrest (pos + k.width.bytes)
        refine ⟨i, ?_⟩
        unfold sites
        split
        · exact List.mem_cons_of_mem _ hi
        · exact hi

/-! ## Marking a label -/

/-- The positions of labels after one more is marked. -/
def markAt (offset? : Label → Option Nat) (l : Label) (target : Nat) : Label → Option Nat :=
  fun k => if k = l then some target else offset? k

/-- Overwrite the operands at the given sites. -/
def patchSites (target : Nat) (bytes : List UInt8) (at_ : List (Nat × Jump)) : List UInt8 :=
  at_.foldl (fun bytes site => splice bytes site.1 (site.2.encode target)) bytes

private theorem patchSites_append_render {offset? : Label → Option Nat} {l : Label}
    (hl : offset? l = none) (target : Nat) (parts : List Part) (before : List UInt8) :
    patchSites target (before ++ render offset? parts) (sites l before.length parts)
      = before ++ render (markAt offset? l target) parts := by
  induction parts generalizing before with
  | nil => rfl
  | cons p ps ih =>
    -- Whatever the first part is, the rest is patched behind it.
    have hrest : ∀ new : List UInt8, new.length = p.size →
        patchSites target (before ++ (new ++ render offset? ps))
          (sites l (before.length + p.size) ps)
          = before ++ (new ++ render (markAt offset? l target) ps) := by
      intro new hnew
      have := ih (before ++ new)
      rwa [List.length_append, hnew, List.append_assoc, List.append_assoc] at this
    cases p with
    | bytes bs => exact hrest bs rfl
    | jump j =>
      simp only [render_cons, sites, Part.render, markAt]
      by_cases htarget : j.target = l
      · -- The operand is the first site, and is zero so far.
        have hsplice : splice (before ++ (List.replicate j.width.bytes 0 ++ render offset? ps))
            before.length (j.encode target) = before ++ (j.encode target ++ render offset? ps) :=
          splice_middle (by simp)
        rw [if_pos htarget, if_pos htarget, htarget, hl, patchSites, List.foldl_cons]
        simp only []
        rw [hsplice]
        exact hrest _ (j.length_encode target)
      · -- The operand leads elsewhere and stays, filled in or not.
        rw [if_neg htarget, if_neg htarget]
        apply hrest
        split
        · exact j.length_encode _
        · exact List.length_replicate

/-- Patching the operands that lead to a label gives the bytes with that label marked. -/
theorem render_mark {offset? : Label → Option Nat} {l : Label} (hl : offset? l = none)
    (target : Nat) (parts : List Part) :
    patchSites target (render offset? parts) (sites l 0 parts)
      = render (markAt offset? l target) parts :=
  patchSites_append_render hl target parts []

end JvmClass
