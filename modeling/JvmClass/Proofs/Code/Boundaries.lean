import JvmClass.Proofs.Code.Jumps
import JvmClass.Proofs.Code.Walk

/-!
# Assembled code is taken apart where it was put together

The assembler knows the size of an instruction from what it writes; a listing knows it from the
bytes alone.  Both agree on every instruction, whichever form it was written in: the fields of a
switch hold what its cases need, and the other sizes follow from the opcode.  Since the padding of a
switch depends on its position, this has to hold at every offset, and so it carries over to whole
methods by induction on the instructions.

The one exception is a `tableswitch` without cases whose lowest key has no predecessor.

## Key results

- `Instruction.exists_sized`, `LabelledInstruction.exists_sized`: one instruction is found again
- `exists_walk_layout`: a walk over the layout of a method
- `wellFormed_written`: every instruction of a run can be found again
- `listing_of_finish`: the listing of a finished method
-/

namespace JvmClass

open JvmClass.Action (except_bind_eq_ok except_pure_eq_ok except_throw_ne_ok)

/-! ## Instructions without jumps -/

/-- The kind of an opcode that is not modified or a switch decides the size. -/
theorem CodedInstruction.sized_of_length {i : CodedInstruction} {n : Nat}
    (hn : i.op.kind.operandBytes? = some n) (hlen : i.operands.length = n) : i.Sized := by
  have hsize : i.encode.length = 1 + n := by
    rw [encode, List.length_cons, hlen, Nat.add_comm]
  unfold Sized Listing.instructionSize
  rw [hsize]
  cases hkind : i.op.kind <;> rw [hkind] at hn <;> cases hn <;> rfl

/-- The loads of the five types stand in a row, and so do the stores.  The opcodes for the first four
variables follow in the same order. -/
theorem Opcode.short?_cases {op short : Opcode} {index : UInt16} (h : op.short? index = some short) :
    ∃ n < 5, index.toNat < 4 ∧
      (op.byte = UInt8.ofNat (21 + n) ∧ short.byte = UInt8.ofNat (26 + 4 * n + index.toNat) ∨
        op.byte = UInt8.ofNat (54 + n) ∧ short.byte = UInt8.ofNat (59 + 4 * n + index.toNat)) := by
  unfold short? at h
  split at h
  · cases h
  rename_i hindex
  have hindex : index.toNat ≤ 3 := Nat.le_of_not_lt hindex
  split at h
  · rename_i hload
    have hlow : 21 ≤ op.byte.toNat := hload.1
    have hhigh : op.byte.toNat ≤ 25 := hload.2
    refine ⟨op.byte.toNat - 21, by omega, by omega, .inl ⟨?_, ?_⟩⟩
    · rw [Nat.add_sub_cancel' hlow, UInt8.ofNat_toNat]
    · rw [byte_eq_of_ofByte? h, ← UInt8.toNat_inj]
      simp only [UInt8.toNat_add, UInt8.toNat_mul, UInt8.toNat_sub, UInt16.toNat_toUInt8,
        UInt8.toNat_ofNat', UInt8.reduceToNat]
      omega
  split at h
  · rename_i hstore
    have hlow : 54 ≤ op.byte.toNat := hstore.1
    have hhigh : op.byte.toNat ≤ 58 := hstore.2
    refine ⟨op.byte.toNat - 54, by omega, by omega, .inr ⟨?_, ?_⟩⟩
    · rw [Nat.add_sub_cancel' hlow, UInt8.ofNat_toNat]
    · rw [byte_eq_of_ofByte? h, ← UInt8.toNat_inj]
      simp only [UInt8.toNat_add, UInt8.toNat_mul, UInt8.toNat_sub, UInt16.toNat_toUInt8,
        UInt8.toNat_ofNat', UInt8.reduceToNat]
      omega
  · cases h

/-- The opcodes for the first four local variables have no operands. -/
theorem Opcode.kind_of_short? {op short : Opcode} {index : UInt16}
    (h : op.short? index = some short) : short.kind = .simple := by
  have hsimple : ∀ n < 5, ∀ m < 4, OpcodeKind.ofByte (UInt8.ofNat (26 + 4 * n + m)) = .simple ∧
      OpcodeKind.ofByte (UInt8.ofNat (59 + 4 * n + m)) = .simple := by decide
  show OpcodeKind.ofByte short.byte = .simple
  obtain ⟨n, hn, hindex, ⟨-, hshort⟩ | ⟨-, hshort⟩⟩ := short?_cases h
  · rw [hshort]
    exact (hsimple n hn _ hindex).1
  · rw [hshort]
    exact (hsimple n hn _ hindex).2

/-- The `wide` forms of local variable instructions. -/
theorem CodedInstruction.sized_of_wide {i : CodedInstruction} {modified : Opcode}
    {rest : List UInt8} (hop : i.op = .wide) (hoperands : i.operands = modified.byte :: rest)
    (hsize : modified = .iinc ∧ rest.length = 4 ∨
      modified.kind = .localIndex ∧ rest.length = 2) : i.Sized := by
  have hkind : i.op.kind = .wideModifier := by rw [hop]; rfl
  have hsecond : i.encode[1]?.bind Opcode.ofByte? = some modified := by
    rw [encode, hoperands]
    exact Opcode.ofByte?_byte modified
  have hlen : i.encode.length = 2 + rest.length := by
    rw [encode, hoperands, List.length_cons, List.length_cons]
    omega
  unfold Sized Listing.instructionSize
  simp only [hkind, hsecond, hlen]
  rcases hsize with ⟨rfl, hrest⟩ | ⟨hlocal, hrest⟩
  · rw [if_pos rfl, hrest]
  · have hne : modified ≠ .iinc := by
      rintro rfl
      cases hlocal
    rw [if_neg hne, if_pos hlocal, hrest]

namespace Instruction

theorem expectKind_eq_ok {op : Opcode} {kind : OpcodeKind} {u : Unit}
    (h : expectKind op kind = .ok u) : op.kind = kind := by
  unfold expectKind at h
  split at h
  · assumption
  · cases h

/-- What is written for an opcode and its operands is found again if the kind of the opcode says how
many operands there are. -/
private theorem exists_of_operandBytes (offset : Nat) (op : Opcode) {operands : List UInt8}
    {n : Nat} (hn : op.kind.operandBytes? = some n) (hlen : operands.length = n) :
    ∃ c : CodedInstruction, c.offset = offset ∧ c.encode = op.byte :: operands ∧ c.Sized :=
  ⟨⟨offset, op, operands⟩, rfl, rfl, CodedInstruction.sized_of_length hn hlen⟩

private theorem exists_of_constant (offset : Nat) {op : Opcode} {slot : Slot} {kind : Option Tag}
    {bytes : List UInt8} (h : encodeConstant op slot kind = .ok bytes) :
    ∃ c : CodedInstruction, c.offset = offset ∧ c.encode = bytes ∧ c.Sized := by
  obtain ⟨_, hop, h⟩ := except_bind_eq_ok.mp h
  obtain ⟨_, -, h⟩ := except_bind_eq_ok.mp h
  cases except_pure_eq_ok.mp h
  have hn : op.kind.operandBytes? = some 2 := by rw [expectKind_eq_ok hop]; rfl
  exact exists_of_operandBytes offset _ hn (BigEndian.length_encode 2 _)

private theorem exists_of_local (offset : Nat) {op : Opcode} (hop : op.kind = .localIndex)
    (index : UInt16) :
    ∃ c : CodedInstruction, c.offset = offset ∧ c.encode = encodeLocal op index ∧ c.Sized := by
  unfold encodeLocal
  split
  · rename_i short hshort
    have hn : short.kind.operandBytes? = some 0 := by rw [Opcode.kind_of_short? hshort]; rfl
    exact exists_of_operandBytes offset _ hn rfl
  split
  · have hn : op.kind.operandBytes? = some 1 := by rw [hop]; rfl
    exact exists_of_operandBytes offset _ hn rfl
  · refine ⟨⟨offset, .wide, op.byte :: BigEndian.u2 index⟩, rfl, rfl, ?_⟩
    exact CodedInstruction.sized_of_wide rfl rfl (.inr ⟨hop, BigEndian.length_encode 2 _⟩)

private theorem exists_of_increment (offset : Nat) (index : UInt16) (delta : Int16) :
    ∃ c : CodedInstruction, c.offset = offset ∧ c.encode = encodeIncrement index delta ∧
      c.Sized := by
  unfold encodeIncrement
  split
  · exact exists_of_operandBytes offset .iinc rfl rfl
  · refine ⟨⟨offset, .wide, Opcode.iinc.byte ::
      (BigEndian.u2 index ++ BigEndian.u2 delta.toUInt16)⟩, rfl, rfl, ?_⟩
    exact CodedInstruction.sized_of_wide rfl rfl (.inl ⟨rfl, rfl⟩)

/-- Every instruction without jumps is found again, in each of its forms. -/
theorem exists_sized {i : Instruction} {bytes : List UInt8} (h : i.encode = .ok bytes)
    (offset : Nat) :
    ∃ c : CodedInstruction, c.offset = offset ∧ c.encode = bytes ∧ c.Sized := by
  cases i with
  | plain op =>
    obtain ⟨_, hop, h⟩ := except_bind_eq_ok.mp h
    cases except_pure_eq_ok.mp h
    have hn : op.kind.operandBytes? = some 0 := by rw [expectKind_eq_ok hop]; rfl
    exact exists_of_operandBytes offset _ hn rfl
  | localVar op index =>
    obtain ⟨_, hop, h⟩ := except_bind_eq_ok.mp h
    cases except_pure_eq_ok.mp h
    exact exists_of_local offset (expectKind_eq_ok hop) index
  | increment index delta =>
    cases except_pure_eq_ok.mp h
    exact exists_of_increment offset index delta
  | constant op slot kind => exact exists_of_constant offset h
  | load slot kind =>
    obtain ⟨_, -, h⟩ := except_bind_eq_ok.mp h
    split at h
    · cases except_pure_eq_ok.mp h
      exact exists_of_operandBytes offset .ldc rfl rfl
    · exact exists_of_constant offset h
  | loadWide slot kind => exact exists_of_constant offset h
  | pushByte value =>
    cases except_pure_eq_ok.mp h
    exact exists_of_operandBytes offset ⟨0x10, by decide⟩ rfl rfl
  | pushShort value =>
    cases except_pure_eq_ok.mp h
    exact exists_of_operandBytes offset ⟨0x11, by decide⟩ rfl rfl
  | newArray element =>
    cases except_pure_eq_ok.mp h
    exact exists_of_operandBytes offset ⟨0xbc, by decide⟩ rfl rfl
  | multiANewArray element dimensions =>
    cases except_pure_eq_ok.mp h
    exact exists_of_operandBytes offset ⟨0xc5, by decide⟩ rfl rfl
  | invokeInterface method count =>
    cases except_pure_eq_ok.mp h
    exact exists_of_operandBytes offset ⟨0xb9, by decide⟩ rfl rfl
  | invokeDynamic site =>
    cases except_pure_eq_ok.mp h
    exact exists_of_operandBytes offset ⟨0xba, by decide⟩ rfl rfl

end Instruction

/-! ## Jumps and switches -/

/-- A signed field of a switch, wherever it stands. -/
theorem Listing.switchField_of_append (offset : Nat) {i : Nat} {bytes before after : List UInt8}
    {z : Int} (hbytes : bytes = before ++ (BigEndian.encodeInt 4 z ++ after))
    (hi : before.length = i)
    (hlow : -2147483648 ≤ z) (hhigh : z < 2147483648) : switchField offset i bytes = .ok z := by
  have hlen : (BigEndian.encodeInt 4 z).length = 4 := BigEndian.length_encodeInt 4 z
  have hfit : i + 4 ≤ bytes.length := by
    rw [hbytes, List.length_append, List.length_append, hlen, hi]
    omega
  have hfield : (bytes.drop i).take 4 = BigEndian.encodeInt 4 z := by
    rw [hbytes, ← hi, List.drop_left, List.take_left' hlen]
  rw [switchField_eq, if_pos hfit, hfield, BigEndian.decodeInt_encodeInt (by omega) (by omega)]

/-- A `tableswitch` with a target for every key from its lowest to its highest. -/
theorem CodedInstruction.sized_of_tableSwitch {i : CodedInstruction} {start rest : List UInt8}
    {low : Int} {n : Nat} (hop : i.op = .tableSwitch)
    (hbytes : i.encode
      = start ++ (BigEndian.encodeInt 4 low ++ (BigEndian.encodeInt 4 (low + n - 1) ++ rest)))
    (hstart : start.length = 1 + (3 - i.offset % 4) + 4) (hrest : rest.length = 4 * n)
    (hlow : -2147483648 ≤ low) (hlt : low < 2147483648)
    (hhigh : -2147483648 ≤ low + n - 1) (hfit : low + n ≤ 2147483648) : i.Sized := by
  have hlowField := Listing.switchField_of_append i.offset hbytes hstart hlow hlt
  have hbytes' : i.encode = (start ++ BigEndian.encodeInt 4 low)
      ++ (BigEndian.encodeInt 4 (low + n - 1) ++ rest) := by
    rw [hbytes, List.append_assoc]
  have hstart' : (start ++ BigEndian.encodeInt 4 low).length = 1 + (3 - i.offset % 4) + 8 := by
    rw [List.length_append, hstart, BigEndian.length_encodeInt]
  have hhighField := Listing.switchField_of_append i.offset hbytes' hstart' hhigh
    (by omega)
  have hlen : i.encode.length = 1 + (3 - i.offset % 4) + 12 + 4 * n := by
    rw [hbytes]
    simp only [List.length_append, hstart, BigEndian.length_encodeInt, hrest]
    omega
  have hkind : i.op.kind = .tableSwitch := by rw [hop]; rfl
  have hcount : low + n - 1 - low + 1 = n := by omega
  unfold Sized Listing.instructionSize
  simp only [hkind, hlowField, hhighField, hlen]
  refine except_bind_eq_ok.mpr ⟨_, rfl, except_bind_eq_ok.mpr ⟨_, rfl, ?_⟩⟩
  rw [if_neg (by omega), hcount, Int.toNat_natCast]
  rfl

/-- A `lookupswitch` with as many pairs as it says. -/
theorem CodedInstruction.sized_of_lookupSwitch {i : CodedInstruction} {start rest : List UInt8}
    {n : Nat} (hop : i.op = .lookupSwitch)
    (hbytes : i.encode = start ++ (BigEndian.encode 4 n ++ rest))
    (hstart : start.length = 1 + (3 - i.offset % 4) + 4) (hrest : rest.length = 8 * n)
    (hfit : n < 2147483648) : i.Sized := by
  rw [← BigEndian.encodeInt_natCast] at hbytes
  have hfield := Listing.switchField_of_append i.offset hbytes hstart (by omega)
    (by omega)
  have hlen : i.encode.length = 1 + (3 - i.offset % 4) + 8 + 8 * n := by
    rw [hbytes]
    simp only [List.length_append, hstart, BigEndian.length_encodeInt, hrest]
    omega
  have hkind : i.op.kind = .lookupSwitch := by rw [hop]; rfl
  unfold Sized Listing.instructionSize
  simp only [hkind, hfield, hlen]
  refine except_bind_eq_ok.mpr ⟨_, rfl, ?_⟩
  rw [if_neg (by omega), Int.toNat_natCast]
  rfl

namespace LabelledInstruction

/-- An instruction that can have been written: it is not refused, and the keys of a table are
numbers of four bytes, from the lowest up to the highest. -/
def WellFormed : LabelledInstruction → Prop
  | plain i => ∃ bytes, i.encode = .ok bytes
  | branch op _ => ∃ width, Assembler.branchWidth op = .ok width
  | tableSwitch low _ targets =>
    low.toInt + targets.length ≤ 2147483648 ∧ (targets = [] → low ≠ Int32.minValue)
  | lookupSwitch _ _ => True

variable {offset? : Label → Option Nat} {origin : Nat}

private theorem exists_sized_branch {op : Opcode} {width : JumpWidth}
    (h : Assembler.branchWidth op = .ok width) (target : Label) :
    ∃ c : CodedInstruction, c.offset = origin ∧
      c.encode = render offset? ((branch op target).parts origin) ∧ c.Sized := by
  have hlen : ((Part.jump ⟨op, origin, op.jumpWidth, target⟩).render offset?).length
      = op.jumpWidth.bytes := Part.length_render _ _
  have hn : op.kind.operandBytes? = some op.jumpWidth.bytes := by
    unfold Assembler.branchWidth at h
    unfold Opcode.jumpWidth
    split at h
    · rename_i hkind
      rw [hkind]
      rfl
    · rename_i hkind
      rw [hkind]
      rfl
    · cases h
  refine ⟨⟨origin, op, _⟩, rfl, ?_, CodedInstruction.sized_of_length hn hlen⟩
  simp [parts, Part.render, CodedInstruction.encode]

/-- The bytes of a switch up to its default target. -/
private theorem length_render_switchStart (op : Opcode) (default : Label) :
    (render offset? (switchStart op origin default)).length = 1 + (3 - origin % 4) + 4 := by
  rw [length_render]
  simp [switchStart, switchTarget, Part.size, JumpWidth.bytes, Assembler.switchPadding]
  omega

/-- A switch starts with its opcode. -/
private theorem exists_encode_switch (offset? : Label → Option Nat) (origin : Nat) (op : Opcode)
    (default : Label) (rest : List Part) :
    ∃ c : CodedInstruction, c.offset = origin ∧ c.op = op ∧
      c.encode = render offset? (switchStart op origin default ++ rest) := by
  refine ⟨⟨origin, op, List.replicate (Assembler.switchPadding origin) 0
    ++ ((switchTarget op origin default).render offset? ++ render offset? rest)⟩, rfl, rfl, ?_⟩
  simp [switchStart, Part.render, CodedInstruction.encode]

private theorem length_render_targets (op : Opcode) (targets : List Label) :
    (render offset? (targets.map (switchTarget op origin))).length = 4 * targets.length := by
  induction targets with
  | nil => rfl
  | cons target targets ih =>
    have hsize : (switchTarget op origin target).size = 4 := rfl
    rw [List.map_cons, render_cons, List.length_append, ih, Part.length_render, hsize,
      List.length_cons]
    omega

private theorem length_render_cases (offset? : Label → Option Nat) (origin : Nat)
    (cases : List (Int32 × Label)) :
    (render offset? (cases.flatMap (lookupCase origin))).length = 8 * cases.length := by
  induction cases with
  | nil => rfl
  | cons c cases ih =>
    have hsize : sizeOf (lookupCase origin c) = 8 := rfl
    rw [List.flatMap_cons, render_append, List.length_append, ih, length_render, hsize,
      List.length_cons]
    omega

private theorem exists_sized_tableSwitch {low : Int32} {targets : List Label}
    (hfit : low.toInt + targets.length ≤ 2147483648) (hmin : targets = [] → low ≠ Int32.minValue)
    (default : Label) :
    ∃ c : CodedInstruction, c.offset = origin ∧
      c.encode = render offset? ((tableSwitch low default targets).parts origin) ∧ c.Sized := by
  have hlow := low.le_toInt
  have hlt := low.toInt_lt
  -- The highest key is one below the lowest if there are no cases, and has to be a key then, too.
  have hhigh : -2147483648 ≤ low.toInt + targets.length - 1 := by
    cases targets with
    | nil =>
      have hne : low.toInt ≠ -2147483648 := fun heq => hmin rfl (Int32.toInt_inj.mp heq)
      simp only [List.length_nil]
      omega
    | cons target targets =>
      simp only [List.length_cons]
      omega
  obtain ⟨c, rfl, hop, hencode⟩ := exists_encode_switch offset? origin
    .tableSwitch default ([.bytes (BigEndian.encodeInt 4 low.toInt),
      .bytes (BigEndian.encodeInt 4 (low.toInt + targets.length - 1))]
      ++ targets.map (switchTarget .tableSwitch origin))
  refine ⟨c, rfl, by rw [hencode, parts, List.append_assoc], ?_⟩
  rw [render_append, render_append] at hencode
  simp only [render_cons, render_nil, Part.render, List.append_nil, List.append_assoc] at hencode
  exact CodedInstruction.sized_of_tableSwitch hop hencode (length_render_switchStart _ _)
    (length_render_targets _ _) hlow hlt hhigh hfit

private theorem exists_sized_lookupSwitch (default : Label) {cases : List (Int32 × Label)}
    (hsize : sizeOf ((lookupSwitch default cases).parts origin) ≤ Assembler.maxCodeSize) :
    ∃ c : CodedInstruction, c.offset = origin ∧
      c.encode = render offset? ((lookupSwitch default cases).parts origin) ∧ c.Sized := by
  obtain ⟨c, rfl, hop, hencode⟩ := exists_encode_switch offset? origin
    .lookupSwitch default ([.bytes (BigEndian.encode 4 cases.length)]
      ++ cases.flatMap (lookupCase origin))
  refine ⟨c, rfl, by rw [hencode, parts, List.append_assoc], ?_⟩
  have hcases := length_render_cases offset? c.offset cases
  -- There are no more pairs than fit the code of a method.
  have hfit : cases.length < 2147483648 := by
    unfold Assembler.maxCodeSize at hsize
    rw [length_render] at hcases
    rw [parts, sizeOf_append, hcases] at hsize
    omega
  rw [render_append, render_append] at hencode
  simp only [render_cons, render_nil, Part.render, List.append_nil] at hencode
  exact CodedInstruction.sized_of_lookupSwitch hop hencode (length_render_switchStart _ _) hcases
    hfit

/-- Every instruction is found again where it was written, wherever its labels are. -/
theorem exists_sized (offset? : Label → Option Nat) (origin : Nat) {i : LabelledInstruction}
    (h : i.WellFormed) (hsize : sizeOf (i.parts origin) ≤ Assembler.maxCodeSize) :
    ∃ c : CodedInstruction, c.offset = origin ∧ c.encode = render offset? (i.parts origin) ∧
      c.Sized := by
  cases i with
  | plain i =>
    obtain ⟨bytes, hbytes⟩ := h
    obtain ⟨c, hoffset, hencode, hsized⟩ := Instruction.exists_sized hbytes origin
    refine ⟨c, hoffset, ?_, hsized⟩
    rw [hencode]
    simp [parts, Part.render, Instruction.bytes, hbytes]
  | branch op target =>
    obtain ⟨width, hwidth⟩ := h
    exact exists_sized_branch hwidth target
  | tableSwitch low default targets => exact exists_sized_tableSwitch h.1 h.2 default
  | lookupSwitch default cases => exact exists_sized_lookupSwitch default hsize

end LabelledInstruction

/-! ## Layouts -/

/-- The positions of some instructions, the first of them at `origin`. -/
def origins (origin : Nat) : List LabelledInstruction → List Nat
  | [] => []
  | i :: rest => origin :: origins (origin + sizeOf (i.parts origin)) rest

/-- The bytes of a layout are walked instruction by instruction. -/
theorem exists_walk_layout (offset? : Label → Option Nat) {instructions : List LabelledInstruction}
    (h : ∀ i ∈ instructions, i.WellFormed) (origin : Nat)
    (hsize : sizeOf (layout origin instructions) ≤ Assembler.maxCodeSize) :
    ∃ cs, Walk origin cs ∧ encodeAll cs = render offset? (layout origin instructions) ∧
      cs.map (·.offset) = origins origin instructions := by
  induction instructions generalizing origin with
  | nil => exact ⟨[], trivial, rfl, rfl⟩
  | cons i rest ih =>
    rw [layout, sizeOf_append] at hsize
    obtain ⟨c, rfl, hencode, hsized⟩ := LabelledInstruction.exists_sized offset? origin
      (h i List.mem_cons_self) (by omega)
    have hlen : c.encode.length = sizeOf (i.parts c.offset) := by rw [hencode, length_render]
    obtain ⟨cs, hwalk, hall, horigins⟩ := ih (fun j hj => h j (List.mem_cons_of_mem _ hj))
      (c.offset + sizeOf (i.parts c.offset)) (by omega)
    refine ⟨c :: cs, ⟨rfl, hsized, ?_⟩, ?_, ?_⟩
    · rw [hlen]
      exact hwalk
    · rw [layout, render_append, ← hencode, ← hall]
      rfl
    · rw [List.map_cons, horigins]
      rfl

/-! ## Runs -/

namespace Assembler

open JvmClass.Action

/-- The keys of a `tableswitch` that has the given targets so far: the next one, or none if the
highest key of all has been used. -/
structure CountsKeys (low : Int32) (s : TableSwitch) (targets : List Label) : Prop where
  of_some : ∀ key, s.nextKey = some key → key.toInt = low.toInt + targets.length
  of_none : s.nextKey = none → low.toInt + targets.length = 2147483648

theorem CountsKeys.le {low : Int32} {s : TableSwitch} {targets : List Label}
    (h : CountsKeys low s targets) : low.toInt + targets.length ≤ 2147483648 := by
  cases hkey : s.nextKey with
  | none => exact Int.le_of_eq (h.of_none hkey)
  | some key =>
    rw [← h.of_some key hkey]
    exact Int.le_of_lt key.toInt_lt

/-- A case that is added takes the next key. -/
theorem exec_tableCase_eq_ok {s s' : TableSwitch} {target : Label} {a b : Assembler}
    (h : (s.addCase target).exec a = (.ok s', b)) :
    ∃ key, s.nextKey = some key ∧ s'.nextKey = nextKey? key := by
  rw [exec_tableCase] at h
  cases hkey : s.nextKey with
  | none =>
    rw [hkey] at h
    cases h
  | some key =>
    simp only [hkey] at h
    split at h
    · cases h
    · obtain ⟨_, _, -, h⟩ := exec_bind_eq_ok.mp h
      obtain ⟨_, -, rfl⟩ := exec_map_eq_ok.mp h
      exact ⟨key, rfl, rfl⟩

theorem countsKeys_addCase {low : Int32} {s : TableSwitch} {targets : List Label} (target : Label)
    (a : Assembler) (h : CountsKeys low s targets) :
    Ends (fun _ => CountsKeys low s targets)
      (fun s' _ => CountsKeys low s' (targets ++ [target])) ((s.addCase target).exec a) := by
  cases hact : (s.addCase target).exec a with
  | mk r b =>
    cases r with
    | error e => exact fun _ => h
    | ok s' =>
      obtain ⟨key, hkey, hnext⟩ := exec_tableCase_eq_ok hact
      have hself := h.of_some key hkey
      have hlen : ((targets ++ [target]).length : Int) = targets.length + 1 := by simp
      refine ⟨fun next hsome => ?_, fun hnone => ?_⟩
      · rw [hnext] at hsome
        rw [nextKey?_toInt hsome, hself, hlen]
        omega
      · -- There is no next key only after the highest key of all.
        rw [hnext] at hnone
        unfold nextKey? at hnone
        split at hnone
        · rename_i hmax
          have hvalue : Int32.maxValue.toInt = 2147483647 := rfl
          rw [hmax, hvalue] at hself
          rw [hlen]
          omega
        · cases hnone

/-- The keys of a `tableswitch` with the cases that were not refused. -/
theorem le_of_exec_tableSwitch {low : Int32} {default : Label} {targets : List Label}
    {outcomes : List (Except Error Unit)} {a b : Assembler}
    (h : (Call.tableSwitch low default targets).perform.exec a = (.ok outcomes, b))
    (hclean : Report.Clean ⟨.tableSwitch low default targets, .ok outcomes⟩) :
    low.toInt + (accepted targets outcomes).length ≤ 2147483648 := by
  obtain ⟨s, a', hstart, h⟩ := exec_bind_eq_ok.mp h
  obtain ⟨houtcomes, -⟩ := Prod.mk.inj h
  cases houtcomes
  -- The header comes with the lowest key as the next one.
  have hcounts : CountsKeys low s [] := by
    obtain ⟨origin, a₁, -, hstart⟩ := exec_bind_eq_ok.mp hstart
    obtain ⟨_, a₂, -, hstart⟩ := exec_bind_eq_ok.mp hstart
    obtain ⟨high, a₃, -, hstart⟩ := exec_bind_eq_ok.mp hstart
    obtain ⟨_, a₄, -, hstart⟩ := exec_bind_eq_ok.mp hstart
    cases hstart
    refine ⟨fun key hkey => ?_, nofun⟩
    cases hkey
    simp
  have hadd : ∀ s done (a : Assembler) target, CountsKeys low s done →
      Ends (fun _ => CountsKeys low s done) (fun s' _ => CountsKeys low s' (done ++ [target]))
        ((s.addCase target).exec a) :=
    fun _ _ a target hs => countsKeys_addCase target a hs
  obtain ⟨s', hs'⟩ := ends_addEach hadd hcounts targets fun e he => Report.clean_cases hclean he
  exact hs'.le

/-- What a call wrote is well-formed, unless it is a table without cases whose highest key would be
below all others. -/
theorem wellFormed_of_perform {call : Call} {a : Assembler} {i : LabelledInstruction}
    (hi : Report.instruction? ⟨call, (call.perform.exec a).1⟩ = some i)
    (hclean : Report.Clean ⟨call, (call.perform.exec a).1⟩)
    (hmin : ∀ default, i ≠ .tableSwitch Int32.minValue default []) : i.WellFormed := by
  cases hact : call.perform.exec a with
  | mk r b =>
    rw [hact] at hi hclean
    cases r with
    | error e => cases call <;> cases hi
    | ok outcomes =>
      cases call with
      | emit i =>
        cases hi
        obtain ⟨_, hemit, -⟩ := exec_map_eq_ok.mp hact
        rw [exec_emit] at hemit
        cases hbytes : i.encode with
        | error e =>
          rw [hbytes] at hemit
          cases hemit
        | ok bytes => exact ⟨bytes, hbytes⟩
      | branch op target =>
        cases hi
        obtain ⟨_, hbranch, -⟩ := exec_map_eq_ok.mp hact
        rw [exec_branch] at hbranch
        cases hwidth : branchWidth op with
        | error e =>
          rw [hwidth] at hbranch
          cases hbranch
        | ok width => exact ⟨width, hwidth⟩
      | tableSwitch low default targets =>
        cases hi
        refine ⟨le_of_exec_tableSwitch hact hclean, fun hempty hlow => ?_⟩
        rw [hempty, hlow] at hmin
        exact hmin default rfl
      | lookupSwitch default cases =>
        cases hi
        trivial
      | _ => cases hi

theorem written_cons (r : Report) (rs : List Report) :
    written (r :: rs) = r.instruction?.toList ++ written rs := by
  unfold written
  rw [List.filterMap_cons]
  cases r.instruction? <;> rfl

/-- Every instruction of a run can be found again. -/
theorem wellFormed_written {calls : List Call} {a : Assembler}
    (hclean : ∀ r ∈ (run calls a).1, r.Clean)
    (hmin : ∀ default, .tableSwitch Int32.minValue default [] ∉ written (run calls a).1) :
    ∀ i ∈ written (run calls a).1, i.WellFormed := by
  induction calls generalizing a with
  | nil => exact nofun
  | cons call calls ih =>
    simp only [run, written_cons] at hclean hmin ⊢
    intro i hi
    rcases List.mem_append.mp hi with hfirst | hrest
    · refine wellFormed_of_perform (Option.mem_toList.mp hfirst) (hclean _ List.mem_cons_self) ?_
      rintro default rfl
      exact hmin default hi
    · refine ih (fun r hr => hclean r (List.mem_cons_of_mem _ hr)) (fun default hmem => ?_) i hrest
      exact hmin default (List.mem_append_right _ hmem)

/-- The positions at which the calls of a run that wrote an instruction began. -/
def starts : List Call → Assembler → List Nat
  | [], _ => []
  | call :: calls, a =>
    match Report.instruction? ⟨call, (call.perform.exec a).1⟩ with
    | some _ => a.offset :: starts calls (call.perform.exec a).2
    | none => starts calls (call.perform.exec a).2

/-- Calls begin to write where the instructions before theirs end. -/
theorem starts_eq_origins {calls : List Call} {a : Assembler} {parts : List Part}
    (h : a.Realizes parts) (hclean : ∀ r ∈ (run calls a).1, r.Clean) :
    starts calls a = origins (sizeOf parts) (written (run calls a).1) := by
  induction calls generalizing a parts with
  | nil => rfl
  | cons call calls ih =>
    simp only [run] at hclean ⊢
    have hcall := h.perform call (hclean _ List.mem_cons_self)
    have hrest := ih hcall fun r hr => hclean r (List.mem_cons_of_mem _ hr)
    rw [starts, hrest, written_cons, sizeOf_append]
    unfold Report.parts
    cases Report.instruction? ⟨call, (call.perform.exec a).1⟩ with
    | none => rfl
    | some i =>
      simp only [h.offset_eq]
      rfl

/-- A finished method from a run in which nothing was refused for the target of a jump is taken
apart, without an error and to its end, where the calls of the run began to write. -/
theorem listing_of_finish (calls : List Call) (body : MethodBody)
    (hclean : ∀ r ∈ (run calls empty).1, r.Clean)
    (hmin : ∀ default, .tableSwitch Int32.minValue default [] ∉ written (run calls empty).1)
    (hfinish : (run calls empty).2.finish = .ok body) :
    ∃ is, listing body.code = is.map .ok ∧ is.map (·.offset) = starts calls empty ∧
      body.code = encodeAll is := by
  have hrun := realizes_run realizes_empty calls hclean
  rw [List.nil_append] at hrun
  have hsize := hrun.size_le
  obtain ⟨is, hwalk, hall, horigins⟩ := exists_walk_layout (run calls empty).2.labelOffset?
    (wellFormed_written hclean hmin) _ hsize
  have hcode : body.code = encodeAll is := by
    rw [(finish_eq_ok hfinish).1, hrun.code_eq, hall]
  refine ⟨is, listing_eq_map_iff.mpr ⟨hcode, hwalk⟩, ?_, hcode⟩
  rw [horigins, starts_eq_origins realizes_empty hclean]

/-- A jump over an increment in its `wide` form and a table that starts at the lowest key. -/
def tableCalls : List Call :=
  [.defineLabel, .branch goto ⟨0⟩, .emit (.increment 300 (-2)),
    .tableSwitch Int32.minValue ⟨0⟩ [⟨0⟩, ⟨0⟩], .markLabel ⟨0⟩, .emit (.plain .voidReturn)]

/-- The padding of the table depends on the instructions before it. -/
theorem listing_of_table :
    ∃ body, (∀ r ∈ (run tableCalls empty).1, r.Clean) ∧
      (∀ default, .tableSwitch Int32.minValue default [] ∉ written (run tableCalls empty).1) ∧
      (run tableCalls empty).2.finish = .ok body ∧
      ∃ is, listing body.code = is.map .ok ∧ is.map (·.offset) = starts tableCalls empty ∧
        body.code = encodeAll is := by
  have hclean : ∀ r ∈ (run tableCalls empty).1, r.Clean := by decide +kernel
  have hwritten : written (run tableCalls empty).1 =
      [.branch goto ⟨0⟩, .plain (.increment 300 (-2)),
        .tableSwitch Int32.minValue ⟨0⟩ [⟨0⟩, ⟨0⟩], .plain (.plain .voidReturn)] := by
    rfl
  have hmin : ∀ default,
      .tableSwitch Int32.minValue default [] ∉ written (run tableCalls empty).1 := by
    intro default
    rw [hwritten]
    simp
  have hhandlers : (run tableCalls empty).2.handlers = .ok [] := rfl
  have hawaited : (run tableCalls empty).2.awaited? = none := by decide +kernel
  have hfinish := finish_of_handlers hhandlers hawaited
  exact ⟨_, hclean, hmin, hfinish, listing_of_finish _ _ hclean hmin hfinish⟩

end Assembler

end JvmClass
