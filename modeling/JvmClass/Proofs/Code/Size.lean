import JvmClass.Proofs.Code.Step

/-!
# The size of what is written

Every form of an instruction has a size of its own.  Room for all of it is checked before its first
byte is written, so that a refusal for its size leaves the assembler as it was.

An `Emission` is a call that writes code, with the header and the cases of a switch taken one by
one.  `SizeBlind` says of an action that it is never refused for the size of code; what an emission
does after its check for room is of this kind.

## Key results

- `Instruction.length_encode`: an instruction is written in as many bytes as its form has
- `Emission.exec_of_passes`: an emission is refused for its size exactly if it does not fit
- `Emission.eq_of_overflow`: a refusal for its size is about all that would have been written
-/

namespace JvmClass

/-! ## Sizes of instructions -/

/-- The number of bytes of an instruction, in the form that it is written in. -/
def Instruction.size : Instruction → Nat
  | plain _ => 1
  | localVar op index => if (op.short? index).isSome then 1 else if index < 256 then 2 else 4
  | increment index delta => if index < 256 ∧ -128 ≤ delta.toInt ∧ delta.toInt ≤ 127 then 3 else 6
  | constant _ _ _ => 3
  | load slot _ => if slot < 256 then 2 else 3
  | loadWide _ _ => 3
  | pushByte _ => 2
  | pushShort _ => 3
  | newArray _ => 2
  | multiANewArray _ _ => 4
  | invokeInterface _ _ => 5
  | invokeDynamic _ => 5

theorem Instruction.length_encodeLocal (op : Opcode) (index : UInt16) :
    (encodeLocal op index).length = (localVar op index).size := by
  simp only [encodeLocal, size]
  cases op.short? index with
  | some short => rfl
  | none =>
    by_cases hindex : index < 256
    · simp [hindex]
    · simp [hindex, BigEndian.u2]

theorem Instruction.length_encodeIncrement (index : UInt16) (delta : Int16) :
    (encodeIncrement index delta).length = (increment index delta).size := by
  simp only [encodeIncrement, size]
  split
  · rfl
  · simp [BigEndian.u2]

theorem Instruction.length_encodeConstant {op : Opcode} {slot : Slot} {kind : Option Tag}
    {bytes : List UInt8} (h : encodeConstant op slot kind = .ok bytes) : bytes.length = 3 := by
  obtain ⟨_, -, h⟩ := Action.except_bind_eq_ok.mp h
  obtain ⟨_, -, h⟩ := Action.except_bind_eq_ok.mp h
  cases Action.except_pure_eq_ok.mp h
  simp [BigEndian.u2]

/-- An instruction that is not refused is written in as many bytes as its form has. -/
theorem Instruction.length_encode {i : Instruction} {bytes : List UInt8}
    (h : i.encode = .ok bytes) : bytes.length = i.size := by
  cases i with
  | plain op =>
    obtain ⟨_, -, h⟩ := Action.except_bind_eq_ok.mp h
    cases Action.except_pure_eq_ok.mp h
    rfl
  | localVar op index =>
    obtain ⟨_, -, h⟩ := Action.except_bind_eq_ok.mp h
    cases Action.except_pure_eq_ok.mp h
    exact length_encodeLocal op index
  | increment index delta =>
    cases Action.except_pure_eq_ok.mp h
    exact length_encodeIncrement index delta
  | constant op slot kind => exact length_encodeConstant h
  | load slot kind =>
    obtain ⟨_, -, h⟩ := Action.except_bind_eq_ok.mp h
    simp only [size]
    split at h
    · rename_i hslot
      cases Action.except_pure_eq_ok.mp h
      rw [if_pos hslot]
      rfl
    · rename_i hslot
      rw [if_neg hslot]
      exact length_encodeConstant h
  | loadWide slot kind => exact length_encodeConstant h
  | _ =>
    cases Action.except_pure_eq_ok.mp h
    rfl

/-- The errors of an encoding are not about its size. -/
theorem Instruction.encode_ne_codeOverflow (i : Instruction) (n : Nat) :
    i.encode ≠ .error (.codeOverflow n) := by
  have hkind : ∀ op expected, expectKind op expected ≠ .error (.codeOverflow n) := by
    intro op expected
    unfold expectKind
    split <;> nofun
  have htag : ∀ op slot kind, expectConstant op slot kind ≠ .error (.codeOverflow n) := by
    intro op slot kind
    unfold expectConstant
    split
    · nofun
    · split <;> nofun
  have hconstant : ∀ op slot kind, encodeConstant op slot kind ≠ .error (.codeOverflow n) :=
    fun op slot kind => Action.except_bind_ne_error (hkind _ _) fun _ =>
      Action.except_bind_ne_error (htag _ _ _) fun _ => nofun
  cases i with
  | plain op => exact Action.except_bind_ne_error (hkind _ _) fun _ => nofun
  | localVar op index => exact Action.except_bind_ne_error (hkind _ _) fun _ => nofun
  | constant op slot kind => exact hconstant op slot kind
  | load slot kind =>
    refine Action.except_bind_ne_error (htag _ _ _) fun _ => ?_
    split
    · nofun
    · exact hconstant _ _ _
  | loadWide slot kind => exact hconstant _ _ _
  | _ => nofun

namespace Assembler

open JvmClass.Action

variable {a b : Assembler}

/-! ## Emissions -/

/-- A switch that takes cases. -/
inductive OpenSwitch
  | table (s : TableSwitch)
  | lookup (s : LookupSwitch)

def OpenSwitch.origin : OpenSwitch → Nat
  | table s => s.origin
  | lookup s => s.origin

/-- A call that writes code. -/
inductive Emission
  | instruction (i : Instruction)
  | branch (op : Opcode) (target : Label)
  | tableSwitch (low : Int32) (default : Label)
  | lookupSwitch (default : Label)
  | tableCase (s : TableSwitch) (target : Label)
  | lookupCase (s : LookupSwitch) (key : Int32) (target : Label)

namespace Emission

/-- What an emission does.  It returns the switch that takes cases after it. -/
def perform : Emission → Action Error Assembler (Option OpenSwitch)
  | instruction i => (fun _ => none) <$> Assembler.emit i
  | branch op target => (fun _ => none) <$> Assembler.branch op target
  | tableSwitch low default => (fun s => some (.table s)) <$> Assembler.tableSwitch low default
  | lookupSwitch default => (fun s => some (.lookup s)) <$> Assembler.lookupSwitch default
  | tableCase s target => (fun s => some (.table s)) <$> s.addCase target
  | lookupCase s key target => (fun s => some (.lookup s)) <$> s.addCase key target

/-- The number of bytes of the form that is written at an offset.  A switch is padded so that its
operands start at a multiple of four. -/
def size (offset : Nat) : Emission → Nat
  | instruction i => i.size
  | branch op _ => if op.kind = .wideBranch then 5 else 3
  | tableSwitch _ _ => 1 + (4 - (offset + 1) % 4) % 4 + 12
  | lookupSwitch _ => 1 + (4 - (offset + 1) % 4) % 4 + 8
  | tableCase _ _ => 4
  | lookupCase _ _ _ => 8

/-- Nothing but its size can be wrong with the emission: the opcode and the operands go together,
there is a key for the case, the label is defined and, if it is marked, within reach. -/
def Passes (a : Assembler) : Emission → Prop
  | instruction i => ∃ bytes, i.encode = .ok bytes
  | branch op target => ∃ width, branchWidth op = .ok width ∧ a.isDefined target ∧
      ∀ t, a.labelOffset? target = some t → width.reaches ((t : Int) - a.offset)
  | tableSwitch _ default => a.isDefined default
  | lookupSwitch default => a.isDefined default
  | tableCase s target => s.nextKey ≠ none ∧ a.isDefined target
  | lookupCase s key target => s.checkKey key = .ok () ∧ a.isDefined target

/-- A case is added to the switch that takes cases; anything else may be written at any time. -/
def Continues (open? : Option OpenSwitch) : Emission → Prop
  | tableCase s _ => open? = some (.table s)
  | lookupCase s _ _ => open? = some (.lookup s)
  | _ => True

end Emission

theorem Emission.size_branch {op : Opcode} {width : JumpWidth} (h : branchWidth op = .ok width)
    (target : Label) {offset : Nat} : (branch op target).size offset = 1 + width.bytes := by
  unfold branchWidth at h
  unfold size
  split at h <;> cases h
  · rename_i hkind
    simp [hkind, JumpWidth.bytes]
  · rename_i hkind
    simp [hkind, JumpWidth.bytes]

theorem switchPadding_eq (offset : Nat) : switchPadding offset = (4 - (offset + 1) % 4) % 4 := by
  unfold switchPadding
  omega

/-! ## How far emissions get -/

@[simp] theorem offset_write (a : Assembler) (bytes : List UInt8) :
    (a.write bytes).offset = a.offset + bytes.length := rfl

@[simp] theorem offset_reserved (a : Assembler) (size : Nat) :
    (a.reserved size).offset = a.offset + size := by
  simp [offset, reserved, Buffer.reserve, Buffer.append]

@[simp] theorem offset_overwrite (a : Assembler) (field : Buffer.Reservation)
    (bytes : List UInt8) :
    ({ a with code := a.code.overwrite field 0 bytes } : Assembler).offset = a.offset := by
  unfold offset Buffer.overwrite
  split <;> rfl

/-- Filling in jumps leaves the labels and the size of the code as they are. -/
theorem fillIn_spec (target : Nat) (js : List PendingJump) (a : Assembler) :
    (js.foldl (fillIn target) a).offset = a.offset ∧
      (js.foldl (fillIn target) a).labels = a.labels := by
  induction js generalizing a with
  | nil => exact ⟨rfl, rfl⟩
  | cons j js ih =>
    obtain ⟨hoffset, hlabels⟩ := ih (fillIn target a j)
    exact ⟨hoffset.trans (offset_overwrite a _ _), hlabels⟩

theorem exec_jumpOperand_of_reaches (op : Opcode) {origin : Nat} {width : JumpWidth}
    {target : Label} (hdef : a.isDefined target)
    (hreach : ∀ t, a.labelOffset? target = some t → width.reaches ((t : Int) - origin)) :
    ∃ b, (jumpOperand op origin width target).exec a = (.ok (), b) ∧
      b.offset = a.offset + width.bytes := by
  rw [exec_jumpOperand, if_pos hdef]
  cases htarget : a.labelOffset? target with
  | none => exact ⟨_, rfl, offset_reserved a _⟩
  | some t =>
    have hreach : PendingJump.reaches ⟨(a.code.reserve width.bytes).1, origin, width, op⟩ t :=
      hreach t htarget
    simp only [exec_resolve, List.find?_cons, hreach, Bool.not_true, List.find?_nil]
    refine ⟨_, rfl, ?_⟩
    rw [(fillIn_spec _ _ _).1, offset_reserved]

/-- A wide operand is always long enough. -/
theorem exec_wideOperand (op : Opcode) (origin : Nat) {target : Label}
    (hdef : a.isDefined target) :
    ∃ b, (jumpOperand op origin .wide target).exec a = (.ok (), b) ∧ b.offset = a.offset + 4 :=
  exec_jumpOperand_of_reaches op hdef fun _ _ => rfl

theorem exec_switchHeader_of_fits (op : Opcode) {size : Nat} {default : Label}
    (hdef : a.isDefined default)
    (hfits : a.offset + (1 + switchPadding a.offset + size) ≤ maxCodeSize) :
    ∃ b, (switchHeader op size default).exec a = (.ok a.offset, b) ∧
      b.offset = a.offset + (1 + switchPadding a.offset + 4) := by
  rw [exec_switchHeader, if_neg (by omega)]
  obtain ⟨b, hb, hoffset⟩ := exec_wideOperand
    (a := a.write (op.byte :: List.replicate (switchPadding a.offset) 0)) op a.offset hdef
  refine ⟨b, by rw [exec_map, hb]; rfl, ?_⟩
  rw [hoffset, offset_write, List.length_cons, List.length_replicate]
  omega

/-- An emission with which nothing else is wrong is refused exactly if not all of it fits, and then
nothing is written. -/
theorem Emission.exec_of_passes {e : Emission} (h : e.Passes a) :
    (maxCodeSize < a.offset + e.size a.offset →
      e.perform.exec a = (.error (.codeOverflow (a.offset + e.size a.offset)), a)) ∧
    (a.offset + e.size a.offset ≤ maxCodeSize →
      ∃ open? b, e.perform.exec a = (.ok open?, b) ∧ b.offset = a.offset + e.size a.offset) := by
  cases e with
  | instruction i =>
    obtain ⟨bytes, hbytes⟩ := h
    have hsize : bytes.length = i.size := Instruction.length_encode hbytes
    simp only [perform, exec_map, exec_emit, hbytes, size, hsize]
    constructor
    · intro hover
      rw [if_pos hover]
      rfl
    · intro hfits
      rw [if_neg (by omega)]
      exact ⟨_, _, rfl, by rw [offset_write, hsize]⟩
  | branch op target =>
    obtain ⟨width, hwidth, hdef, hreach⟩ := h
    simp only [perform, exec_map, exec_branch, hwidth, size_branch hwidth target]
    constructor
    · intro hover
      rw [if_pos hover]
      rfl
    · intro hfits
      rw [if_neg (by omega)]
      -- Behind the opcode the operand has its width, whether the target is marked or not.
      obtain ⟨b, hb, hoffset⟩ :=
        exec_jumpOperand_of_reaches (a := a.write [op.byte]) op hdef hreach
      refine ⟨_, b, by rw [hb]; rfl, ?_⟩
      rw [hoffset, offset_write, List.length_singleton]
      omega
  | tableSwitch low default =>
    have hsize : (Emission.tableSwitch low default).size a.offset
        = 1 + switchPadding a.offset + 12 := by rw [size, switchPadding_eq]
    simp only [perform, exec_map, Assembler.tableSwitch, hsize]
    constructor
    · intro hover
      rw [exec_bind, exec_switchHeader, if_pos hover]
      rfl
    · intro hfits
      -- Behind the default target stand the lowest key and a field for the highest one.
      obtain ⟨b, hb, hoffset⟩ := exec_switchHeader_of_fits .tableSwitch h hfits
      simp only [exec_bind, hb, exec_append, exec_reserve, exec_patch, exec_pure]
      refine ⟨_, _, rfl, ?_⟩
      rw [offset_overwrite, offset_reserved, offset_write, hoffset, BigEndian.u4,
        BigEndian.length_encode]
      omega
  | lookupSwitch default =>
    have hsize : (Emission.lookupSwitch default).size a.offset
        = 1 + switchPadding a.offset + 8 := by rw [size, switchPadding_eq]
    simp only [perform, exec_map, Assembler.lookupSwitch, hsize]
    constructor
    · intro hover
      rw [exec_bind, exec_switchHeader, if_pos hover]
      rfl
    · intro hfits
      -- Behind the default target stands a field for the number of cases.
      obtain ⟨b, hb, hoffset⟩ := exec_switchHeader_of_fits .lookupSwitch h hfits
      simp only [exec_bind, hb, exec_reserve, exec_pure]
      refine ⟨_, _, rfl, ?_⟩
      rw [offset_reserved, hoffset]
      omega
  | tableCase s target =>
    obtain ⟨hkey, hdef⟩ := h
    obtain ⟨key, hkey⟩ := Option.ne_none_iff_exists'.mp hkey
    simp only [perform, exec_map, exec_tableCase, hkey, size]
    constructor
    · intro hover
      rw [if_pos hover]
      rfl
    · intro hfits
      rw [if_neg (by omega)]
      -- Only the target is added; the field for the highest key is there already.
      obtain ⟨b, hb, hoffset⟩ := exec_wideOperand .tableSwitch s.origin hdef
      simp only [exec_bind, hb, exec_map, exec_patch]
      exact ⟨_, _, rfl, by rw [offset_overwrite, hoffset]⟩
  | lookupCase s key target =>
    obtain ⟨hkey, hdef⟩ := h
    simp only [perform, exec_map, exec_lookupCase, hkey, size]
    constructor
    · intro hover
      rw [if_pos hover]
      rfl
    · intro hfits
      rw [if_neg (by omega)]
      obtain ⟨b, hb, hoffset⟩ := exec_wideOperand
        (a := a.write (BigEndian.u4 key.toUInt32)) .lookupSwitch s.origin hdef
      simp only [exec_bind, hb, exec_map, exec_patch]
      refine ⟨_, _, rfl, ?_⟩
      rw [offset_overwrite, hoffset, offset_write, BigEndian.u4, BigEndian.length_encode]

/-! ## Refusals for size -/

/-- The action never fails for the size of code. -/
def SizeBlind {σ α : Type} (act : Action Error σ α) : Prop :=
  ∀ s n, (act.exec s).1 ≠ .error (.codeOverflow n)

namespace SizeBlind

variable {σ τ ρ α β : Type}

theorem bind {act : Action Error σ α} {f : α → Action Error σ β} (h : SizeBlind act)
    (hf : ∀ x, SizeBlind (f x)) : SizeBlind (act >>= f) := by
  intro s n
  have hs := h s n
  rw [exec_bind]
  rcases hact : act.exec s with ⟨e | x, t⟩
  · rw [hact] at hs
    exact fun h => hs (congrArg Except.error (Except.error.inj h))
  · exact hf x t n

theorem map {act : Action Error σ α} (h : SizeBlind act) (f : α → β) : SizeBlind (f <$> act) := by
  rw [← bind_pure_comp]
  exact h.bind fun x => nofun

theorem ofExcept {r : Except Error α} (h : ∀ n, r ≠ .error (.codeOverflow n)) :
    SizeBlind (Action.ofExcept r : Action Error σ α) :=
  fun _ n => h n

theorem onPart {act : Action Error τ α} (h : SizeBlind act) (split : σ → τ × ρ)
    (join : τ → ρ → σ) : SizeBlind (act.onPart split join) :=
  fun s n => h (split s).1 n

end SizeBlind

theorem sizeBlind_append (bytes : List UInt8) : SizeBlind (append bytes) := fun _ _ => nofun

theorem sizeBlind_reserve (size : Nat) : SizeBlind (reserve size) := fun _ _ => nofun

theorem sizeBlind_patch (field : Buffer.Reservation) (bytes : List UInt8) :
    SizeBlind (patch field bytes) :=
  fun _ _ => nofun

theorem sizeBlind_resolve (target : Nat) (js : List PendingJump) :
    SizeBlind (resolve target js) := by
  intro a n
  rw [exec_resolve]
  simp only
  split <;> nofun

theorem sizeBlind_jumpOperand (op : Opcode) (origin : Nat) (width : JumpWidth) (target : Label) :
    SizeBlind (jumpOperand op origin width target) := by
  intro a n
  rw [exec_jumpOperand]
  split
  · simp only
    split
    · exact sizeBlind_resolve _ _ _ n
    · nofun
  · nofun

/-- What is left to do after the check for room is not refused for its size. -/
theorem eq_of_room {α : Type} {act : Action Error Assembler α} (hact : SizeBlind act) {m n : Nat}
    {c : Assembler}
    (h : (if maxCodeSize < m then (.error (.codeOverflow m), a) else act.exec c)
      = (.error (.codeOverflow n), b)) : n = m ∧ maxCodeSize < n ∧ b = a := by
  split at h
  · rename_i hover
    cases h
    exact ⟨rfl, hover, rfl⟩
  · have := hact c n
    rw [h] at this
    exact absurd rfl this

theorem eq_of_switchHeader_overflow {op : Opcode} {size n : Nat} {default : Label}
    (h : (switchHeader op size default).exec a = (.error (.codeOverflow n), b)) :
    n = a.offset + (1 + switchPadding a.offset + size) ∧ maxCodeSize < n ∧ b = a := by
  rw [exec_switchHeader] at h
  exact eq_of_room ((sizeBlind_jumpOperand _ _ _ _).map _) h

/-- A refusal for its size is about all that would have been written, and writes nothing. -/
theorem Emission.eq_of_overflow {e : Emission} {n : Nat}
    (h : e.perform.exec a = (.error (.codeOverflow n), b)) :
    n = a.offset + e.size a.offset ∧ maxCodeSize < n ∧ b = a := by
  cases e with
  | instruction i =>
    have h := exec_map_eq_error.mp h
    rw [exec_emit] at h
    split at h
    · -- An instruction without an encoding is refused before its size is looked at.
      rename_i e he
      cases h
      exact absurd he (i.encode_ne_codeOverflow n)
    · rename_i bytes hbytes
      rw [Instruction.length_encode hbytes] at h
      exact eq_of_room (sizeBlind_append bytes) h
  | branch op target =>
    have h := exec_map_eq_error.mp h
    rw [exec_branch] at h
    split at h
    · rename_i e he
      cases h
      unfold branchWidth at he
      split at he <;> cases he
    · rename_i width hwidth
      rw [size_branch hwidth target]
      exact eq_of_room (sizeBlind_jumpOperand _ _ _ _) h
  | tableSwitch low default =>
    rw [size, ← switchPadding_eq]
    rcases exec_bind_eq_error.mp (exec_map_eq_error.mp h) with h | ⟨origin, c, -, h⟩
    · exact eq_of_switchHeader_overflow h
    · -- What follows the header has its room already.
      have hrest := (sizeBlind_append (BigEndian.u4 low.toUInt32)).bind fun _ =>
        (sizeBlind_reserve 4).bind fun high =>
          (sizeBlind_patch high (BigEndian.u4 (low - 1).toUInt32)).map fun _ =>
            (⟨origin, low, some low, high⟩ : TableSwitch)
      have := hrest c n
      simp only [← bind_pure_comp] at this
      rw [h] at this
      exact absurd rfl this
  | lookupSwitch default =>
    rw [size, ← switchPadding_eq]
    rcases exec_bind_eq_error.mp (exec_map_eq_error.mp h) with h | ⟨origin, c, -, h⟩
    · exact eq_of_switchHeader_overflow h
    · cases h
  | tableCase s target =>
    have h := exec_map_eq_error.mp h
    rw [exec_tableCase] at h
    split at h
    · cases h
    · exact eq_of_room ((sizeBlind_jumpOperand _ _ _ _).bind fun _ =>
        (sizeBlind_patch _ _).map _) h
  | lookupCase s key target =>
    have h := exec_map_eq_error.mp h
    rw [exec_lookupCase] at h
    split at h
    · rename_i e he
      cases h
      unfold LookupSwitch.checkKey at he
      split at he
      · split at he <;> cases he
      · cases he
    · exact eq_of_room ((sizeBlind_jumpOperand _ _ _ _).bind fun _ =>
        (sizeBlind_patch _ _).map _) h

end Assembler

end JvmClass
