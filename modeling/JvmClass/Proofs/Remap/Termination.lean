import JvmClass.Proofs.Remap.Returns

/-!
# Moving code always returns

Whatever the bytes of some code say, moving it along a cursor (`Scanner.code`) returns, and with the
outcome of `Remap.code`.

The walk over the code leaves an instruction behind with every step.  The keys of a switch are given
by two numbers, or counted by one, that may be any four bytes; the size of the switch is a word all
the same, and so is the position behind it.  The opcode decides how many bytes an instruction has,
so that the slot of its constant lies within them.

## Key results

- `instructionSize_eq`: the size of an instruction, with every operation inside its range
- `returns_instruction`: an instruction has the bytes that are looked at
- `returns_walk`: the walk gives what the instructions listed from a position on give
- `code_eq_some`: moving code returns
-/

namespace JvmClass

namespace Scanner

open Checked

variable {σ α : Type} {n : Nat}

/-! ## Instructions -/

/-- A field of a switch at `pc`, seen from there. -/
theorem switchField_eq {code : List UInt8} {pc position : Nat} (hposition : pc ≤ position)
    (hlt : position + 4 < 18446744073709551616) :
    (switchField code pc position : Checked σ Int)
      = Checked.ofExcept (Listing.switchField pc (position - pc) (code.drop pc)) := by
  have hdrop : (code.drop pc).drop (position - pc) = code.drop position := by
    rw [List.drop_drop, Nat.add_sub_cancel' hposition]
  unfold switchField Listing.switchField
  rw [add_eq_pure hlt, pure_bind, hdrop]
  by_cases h : position ≤ code.length
  · rw [slice?_eq_splitExactly _ _ _ h]
    rcases splitExactly 4 (code.drop position) with _ | ⟨field, rest⟩ <;> rfl
  · have hslice : slice? code position (position + 4) = none := if_neg (by omega)
    have hsplit : splitExactly 4 (code.drop position) = none :=
      splitExactly_of_lt (by rw [List.length_drop]; omega)
    rw [hslice, hsplit]
    rfl

/-- The size of an instruction is what the listing takes it for. -/
theorem instructionSize_eq {code : List UInt8} {pc : Nat} (op : Opcode) (hpc : pc < 65536) :
    (instructionSize code pc op : Checked σ Nat)
      = Checked.ofExcept (Listing.instructionSize pc op (code.drop pc)) := by
  -- Both count the same padding, one from behind the opcode and one from the opcode on.
  have hpadding : (4 - (pc + 1) % 4) % 4 = 3 - pc % 4 := by omega
  have hfield (i : Nat) (hi : i < 65536) :
      (switchField code pc (pc + 1 + (3 - pc % 4) + i) : Checked σ Int)
        = Checked.ofExcept (Listing.switchField pc (1 + (3 - pc % 4) + i) (code.drop pc)) := by
    rw [switchField_eq (by omega) (by omega)]
    congr 2
    omega
  unfold instructionSize Listing.instructionSize
  simp (disch := omega) only [add_eq_pure, sub_eq_pure, pure_bind, hpadding]
  cases hkind : op.kind with
  | tableSwitch =>
    simp (disch := omega) only [OpcodeKind.operandBytes?, hfield]
    rw [ofExcept_bind]
    rcases hlow : Listing.switchField pc (1 + (3 - pc % 4) + 4) (code.drop pc) with e | low
    · rfl
    rcases hhigh : Listing.switchField pc (1 + (3 - pc % 4) + 8) (code.drop pc) with e | high
    · rfl
    -- From keys of 32 bits, neither the number of keys nor their size leaves 64 bits.
    have := Listing.switchField_bounds hlow
    have := Listing.switchField_bounds hhigh
    simp (disch := omega) only [signed_eq_pure, pure_bind, ofExcept_ok, ofExcept_bind]
    by_cases hempty : high < low - 1
    · simp only [if_pos hempty]
      rfl
    · simp (disch := omega) only [if_neg hempty, unsigned_eq_toNat, mul_eq_pure, add_eq_pure,
        pure_bind]
      rfl
  | lookupSwitch =>
    simp (disch := omega) only [OpcodeKind.operandBytes?, hfield]
    rw [ofExcept_bind]
    rcases hpairs : Listing.switchField pc (1 + (3 - pc % 4) + 4) (code.drop pc) with e | pairs
    · rfl
    have := Listing.switchField_bounds hpairs
    simp only [ofExcept_ok, pure_bind]
    by_cases hnegative : pairs < 0
    · simp only [if_pos hnegative]
      rfl
    · simp (disch := omega) only [if_neg hnegative, mul_eq_pure, add_eq_pure, pure_bind]
      rfl
  | wideModifier =>
    have hsecond : (code.drop pc)[1]? = code[pc + 1]? := List.getElem?_drop
    simp only [OpcodeKind.operandBytes?, hsecond]
    rcases code[pc + 1]?.bind Opcode.ofByte? with _ | modified
    · rfl
    · dsimp only
      split
      · rfl
      · split <;> rfl
  -- Of all other kinds the number of operand bytes is known: the last branch is not reached.
  | _ => exact add_eq_pure (by decide)

/-- A position in the code has an instruction exactly where the listing finds one. -/
theorem instructionAt_eq {code : List UInt8} {pc : Nat} (hpc : pc < code.length)
    (hlen : code.length < 65536) :
    (instructionAt code pc : Checked σ (Opcode × List UInt8))
      = Checked.ofExcept ((Listing.step pc (code.drop pc)).map fun x => (x.1.op, x.1.encode)) := by
  have hdrop : code.drop pc = code[pc] :: code.drop (pc + 1) := List.drop_eq_getElem_cons hpc
  have hfirst : (code.drop pc).headD 0 = code[pc] := by rw [hdrop]; rfl
  unfold instructionAt Listing.step
  rw [index_eq_pure hpc, pure_bind, hfirst]
  cases hop : Opcode.ofByte? code[pc] with
  | none =>
    simp only [hop]
    rfl
  | some op =>
    simp only [hop, instructionSize_eq op (show pc < 65536 by omega)]
    cases hsize : Listing.instructionSize pc op (code.drop pc) with
    | error e => rfl
    | ok size =>
      have := Listing.instructionSize_le hsize
      rw [ofExcept_ok, pure_bind, add_eq_pure (by omega), pure_bind,
        slice?_eq_splitExactly _ _ _ (by omega)]
      cases hsplit : splitExactly size (code.drop pc) with
      | none =>
        simp only [bind, Except.bind, hsplit]
        rfl
      | some parts =>
        obtain ⟨part, rest⟩ := parts
        obtain ⟨hpart, hpartLen⟩ := splitExactly_eq_some.mp hsplit
        -- The opcode is the first of the bytes.
        have hbytes : op.byte :: part.tail = part := by
          have := Listing.instructionSize_pos hsize
          cases part with
          | nil =>
            rw [List.length_nil] at hpartLen
            omega
          | cons first operands =>
            rw [hdrop] at hpart
            rw [Opcode.byte_eq_of_ofByte? hop, List.tail_cons, (List.cons.inj hpart).1]
        simp only [bind, Except.bind, hsplit, Option.map_some]
        exact congrArg (fun x => (pure (op, x) : Checked σ (Opcode × List UInt8))) hbytes.symm

/-! ## Walks -/

theorem returns_copy (source : View) (i : Slot) :
    Returns n n (copy source i) (Remapper.copy source i) :=
  returns_onOutput _

/-- A slot in the operands lies within the instruction, and whatever follows it does too. -/
private theorem returns_wideConstant (source : View) {i : CodedInstruction}
    (htwo : 2 ≤ i.operands.length) :
    Returns n n
      (do
        let slot ← copy source (UInt16.ofNat (BigEndian.decode (← slice i.encode 1 3)))
        return (← index i.encode 0) :: (BigEndian.u2 slot ++ (← slice i.encode 3 i.encode.length)))
      (do
        let slot ← Remapper.copy source (UInt16.ofNat (BigEndian.decode (i.operands.take 2)))
        return i.op.byte :: (BigEndian.u2 slot ++ i.operands.drop 2)) := by
  have hlen : i.encode.length = i.operands.length + 1 := rfl
  have hslot : (slice i.encode 1 3 : Checked Scanner _) = pure (i.operands.take 2) :=
    slice_eq_pure (by omega) (by omega)
  have hopcode : (index i.encode 0 : Checked Scanner _) = pure i.op.byte :=
    index_eq_pure (by omega)
  have hrest : (slice i.encode 3 i.encode.length : Checked Scanner _)
      = pure (i.operands.drop 2) := by
    rw [slice_eq_pure (by omega) (Nat.le_refl _), List.take_length]
    rfl
  simp only [hslot, hopcode, hrest, pure_bind]
  exact (returns_copy source _).bind fun _ => returns_pure _

theorem returns_instruction (source : View) {i : CodedInstruction} (hsized : i.Sized) :
    Returns n n (instruction source i.op i.encode) (Remap.instruction source i) := by
  unfold instruction Remap.instruction
  have hlen {k : Nat} (hk : i.op.kind.operandBytes? = some k) : i.operands.length = k :=
    Remap.length_operands hsized hk
  cases hkind : i.op.kind with
  | constantRef | multiANewArray | invokeInterface | invokeDynamic =>
    rw [hkind] at hlen
    have hoperands := hlen rfl
    exact returns_wideConstant source (by omega)
  | narrowConstantRef =>
    rw [hkind] at hlen
    obtain ⟨slot, hslot⟩ := List.length_eq_one_iff.mp (hlen rfl)
    have hencode : i.encode = [i.op.byte, slot] := congrArg (i.op.byte :: ·) hslot
    have hindex : (index [i.op.byte, slot] 1 : Checked Scanner UInt8) = pure slot := rfl
    have hopcode : (index [i.op.byte, slot] 0 : Checked Scanner UInt8) = pure i.op.byte := rfl
    simp only [hencode, hslot, hindex, hopcode, pure_bind, BigEndian.decode_byte]
    refine (returns_copy source _).bind fun moved => ?_
    split
    · exact returns_pure _
    · exact returns_throw _
  | _ => exact returns_pure _

/-- The bytes of the listed instructions with their constants copied, piece by piece. -/
def pieces (source : View) (listed : List (Except Error CodedInstruction)) :
    Action Error Remapper (List (List UInt8)) :=
  listed.mapM fun i => do Remap.instruction source (← Action.ofExcept i)

theorem pieces_cons (source : View) (i : CodedInstruction)
    (listed : List (Except Error CodedInstruction)) (written : List UInt8) :
    (fun parts => written ++ parts.flatten) <$> pieces source (.ok i :: listed)
      = Remap.instruction source i >>= fun bytes =>
        (fun parts => written ++ bytes ++ parts.flatten) <$> pieces source listed := by
  have hok : (Action.ofExcept (.ok i) : Action Error Remapper CodedInstruction) = pure i := rfl
  unfold pieces
  rw [List.mapM_cons, hok, pure_bind]
  simp only [map_bind, bind_pure_comp, Functor.map_map, List.flatten_cons, List.append_assoc]

/-- Behind the code the walk ends, and nothing is listed. -/
private theorem returns_walk_end (source : View) {code : List UInt8} {pc : Nat}
    (hpc : ¬ pc < code.length) (bytesLeft : Nat) (written : List UInt8) :
    Returns n n (source.walk code pc written)
      ((fun parts => written ++ parts.flatten) <$>
        pieces source (Listing.collect bytesLeft pc (code.drop pc) [])) := by
  have hdrop : code.drop pc = [] := List.drop_eq_nil_iff.mpr (by omega)
  rw [View.walk, if_neg hpc, hdrop, Listing.collect, pieces, List.reverse_nil, List.mapM_nil,
    map_pure, List.flatten_nil, List.append_nil]
  exact returns_pure _

/-- The walk over the code, from a position on, gives what the instructions listed from there give.
Each of them leaves fewer bytes to the next. -/
theorem returns_walk (source : View) {code : List UInt8} (hlen : code.length < 65536)
    {bytesLeft pc : Nat} (hleft : code.length ≤ pc + bytesLeft) (written : List UInt8) :
    Returns n n (source.walk code pc written)
      ((fun parts => written ++ parts.flatten) <$>
        pieces source (Listing.collect bytesLeft pc (code.drop pc) [])) := by
  induction bytesLeft generalizing pc written with
  | zero => exact returns_walk_end source (by omega) 0 written
  | succ bytesLeft ih =>
    by_cases hmore : pc < code.length
    · rw [View.walk, if_pos hmore, instructionAt_eq hmore hlen, List.drop_eq_getElem_cons hmore,
        Listing.collect_cons, ← List.drop_eq_getElem_cons hmore]
      cases hstep : Listing.step pc (code.drop pc) with
      | error e => exact returns_throw e
      | ok found =>
        obtain ⟨i, rest⟩ := found
        obtain ⟨-, hbytes, hsized⟩ := Listing.step_eq_ok_iff.mp hstep
        have hlength := congrArg List.length hbytes
        rw [List.length_drop, List.length_append] at hlength
        have hpos : 1 ≤ i.encode.length := Nat.succ_pos _
        have hrest : rest = code.drop (pc + i.encode.length) := by
          rw [← List.drop_drop, hbytes, List.drop_left]
        dsimp only
        rw [pieces_cons, hrest]
        refine (returns_instruction source hsized).bind fun bytes => ?_
        -- The next position is behind an instruction that lies within the code.
        dsimp only
        rw [add_eq_pure (by omega), pure_bind]
        exact ih (by omega) _
    · exact returns_walk_end source hmore (bytesLeft + 1) written

theorem returns_instructions (source : View) {code : List UInt8} (hlen : code.length < 65536) :
    Returns n n (source.walk code 0 []) (Remap.instructions source code) := by
  have hlisting : code.length ≤ 0 + code.length := Nat.le_add_left _ _
  exact returns_walk source hlen hlisting []

/-! ## Attributes -/

theorem returns_lineNumber : Returns n n lineNumber Remap.lineNumber :=
  (returns_u2 n).bind fun _ => (returns_u2 n).bind fun _ => returns_pure _

theorem returns_localVariable (source : View) :
    Returns n n (localVariable source) (Remap.localVariable source) := by
  refine (returns_u2 n).bind fun start => (returns_u2 n).bind fun length => ?_
  refine (returns_ref .utf8 source).bind fun name => (returns_ref .utf8 source).bind fun type => ?_
  exact (returns_u2 n).bind fun index => returns_pure _

private theorem rel_ite {α β : Type} {R : α → β → Prop} {c : Prop} [Decidable c]
    {x y : Option α} {x' y' : Option β} (h : Option.Rel R x x') (h' : Option.Rel R y y') :
    Option.Rel R (if c then x else y) (if c then x' else y') := by
  split
  · exact h
  · exact h'

/-- The attributes of known form are the same, and reading one of them returns. -/
theorem returns_known? (source : View) (name : String) :
    Option.Rel (fun prog act => ∀ n, Returns n n prog act) (known? source name)
      (Remap.known? source name) := by
  unfold known? Remap.known?
  refine rel_ite (.some fun n => returns_lineNumber.counted.map _) ?_
  refine rel_ite (.some fun n => (returns_localVariable source).counted.map _) ?_
  refine rel_ite (.some fun n => (returns_localVariable source).counted.map _) ?_
  refine rel_ite (.some fun n => (returns_frame source).counted.map _) ?_
  refine rel_ite (.some fun n => (returns_typeAnnotationEntry source).counted.map _) ?_
  refine rel_ite (.some fun n => (returns_typeAnnotationEntry source).counted.map _) ?_
  exact .none

theorem returns_nestedAttribute (source : View) (name : String) {info : List UInt8}
    (hinfo : info.length < 9223372036854775808) :
    Returns n n (nestedAttribute source name info) (Remap.nestedAttribute source name info) := by
  have hknown := returns_known? source name
  unfold nestedAttribute Remap.nestedAttribute
  cases hprog : known? source name <;> cases hact : Remap.known? source name <;>
    rw [hprog, hact] at hknown
  case none.none => exact returns_onOutput _
  case some.some prog act =>
    cases hknown with
    | some hread => exact ((hread _).reading hinfo).bind fun _ => returns_onOutput _
  all_goals cases hknown

theorem returns_nextAttribute (source : View) :
    Returns n n (nextAttribute source) (Remap.nextAttribute source) := by
  refine (returns_u2 n).bind fun i => (returns_u4 n).bind_of_ok fun size hsize => ?_
  refine ((returns_bytes n size).mono (Nat.sub_le _ _)).bind_of_ok fun info hinfo => ?_
  have hlength : info.length < 4294967296 := by
    obtain ⟨r, r', hu4⟩ := hsize
    obtain ⟨t, t', hbytes⟩ := hinfo
    have := (Remapper.field_ok hu4).2
    rw [(Remapper.bytes_ok hbytes).2]
    exact this
  refine (returns_ofExcept _).bind fun name => ?_
  exact returns_nestedAttribute source name (by omega)

theorem returns_handler (source : View) :
    Returns n n (handler source) (Remap.handler source) :=
  ((returns_bytes n 6).mono (Nat.sub_le _ _)).bind fun _ => (returns_ref _ _).bind fun _ =>
    returns_pure _

theorem returns_body (source : View) : Returns n n (body source) (Remap.body source) := by
  refine (returns_u2 n).bind fun maxStack => (returns_u2 n).bind fun maxLocals => ?_
  refine (returns_u4 n).bind fun size => ?_
  by_cases hsize : Assembler.maxCodeSize < size
  · simp only [if_pos hsize]
    exact returns_throw _
  simp only [if_neg hsize]
  refine ((returns_bytes n size).mono (Nat.sub_le _ _)).bind_of_ok fun code hcode => ?_
  have hlength : code.length < 65536 := by
    obtain ⟨r, r', hbytes⟩ := hcode
    rw [(Remapper.bytes_ok hbytes).2]
    unfold Assembler.maxCodeSize at hsize
    omega
  refine (returns_instructions source hlength).bind fun code' => ?_
  refine (returns_handler source).counted.bind fun handlers => ?_
  refine (returns_nextAttribute source).counted.discard.bind fun _ => ?_
  exact (returns_finish n).bind fun _ => returns_pure _

/-- Moving code returns, whatever its bytes are: no position, size, index or difference leaves its
range, no instruction is of an unforeseen kind, and nothing goes on forever.  The bytes lie in
memory, so that there are no more of them than a signed word counts. -/
theorem code_eq_some (source : View) (info : List UInt8) (pool : Pool)
    (h : info.length < 9223372036854775808) :
    code source info pool = some ((Remap.code source info).exec pool) := by
  have hrun := returns_body (n := info.length) source ⟨⟨"Code", info, 0⟩, .start pool⟩
    ⟨Nat.zero_le _, h⟩ (Nat.le_refl _)
  have hstart : remapper ⟨⟨"Code", info, 0⟩, .start pool⟩ = ⟨.start "Code" info, .start pool⟩ := rfl
  rw [hstart] at hrun
  unfold code Remap.code
  rw [Action.exec_ofFn]
  generalize (body source).exec ⟨⟨"Code", info, 0⟩, .start pool⟩ = x at hrun ⊢
  generalize (Remap.body source).exec ⟨.start "Code" info, .start pool⟩ = y at hrun ⊢
  cases hrun with
  | ok => rfl
  | @error e s r hout =>
    have hpool : s.output.pool = r.output.pool := by rw [hout]
    exact congrArg (fun pool => some (Except.error e, pool)) hpool

/-- Code that consists of a switch for every key there is, with nothing behind the keys. -/
def everyKeyInfo : List UInt8 :=
  [0, 0, 0, 0, 0, 0, 0, 16, 0xaa, 0, 0, 0, 0, 0, 0, 0, 0x80, 0, 0, 0, 0x7f, 0xff, 0xff, 0xff]

/-- The switch would be 17 179 869 200 bytes long, and is found to be cut off. -/
theorem code_of_everyKey :
    everyKeyInfo.length < 9223372036854775808 ∧
      code Remap.numberView everyKeyInfo (.empty .java8)
        = some (.error (.malformedCode 0 (.truncated .tableSwitch)), .empty .java8) := by
  have hlen : everyKeyInfo.length < 9223372036854775808 := by decide
  have hrefused : (Remap.code Remap.numberView everyKeyInfo).exec (.empty .java8)
      = (.error (.malformedCode 0 (.truncated .tableSwitch)), .empty .java8) := rfl
  refine ⟨hlen, ?_⟩
  rw [code_eq_some Remap.numberView everyKeyInfo (.empty .java8) hlen, hrefused]

end Scanner

end JvmClass
