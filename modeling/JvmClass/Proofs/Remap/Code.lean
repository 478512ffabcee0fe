import JvmClass.Proofs.Attribute.Grammar
import JvmClass.Proofs.Byte.BigEndian
import JvmClass.Proofs.Code.Walk
import JvmClass.Proofs.Pool.Meaning
import JvmClass.Proofs.Remap.Growth
import Mathlib.Data.List.Forall2

/-!
# Moved code means the same

The code of a method that was moved to another pool is compared with what it was moved from: every
instruction stands at the same position with the same opcode and operands, except that constants
have the slots in the new pool that mean the same, and so do the classes of its exception handlers.

`Takes r bytes r'` says that a remapper went from `r` to `r'` by reading `bytes`, while its pool has
grown.  A slot that was written early means the same in the end, since meanings stay while a pool
grows.

## Key results

- `instruction_ok`, `instructions_ok`: what becomes of the instructions
- `handler_ok`: what becomes of a handler
- `exec_body_eq_ok`: how the code of a method is gone through
- `same_meaning_of_exec_code`: what becomes of the code of a method
-/

namespace JvmClass

open Reader (Reads)

-- Powers are those of the core library, also where Mathlib brings its own.
attribute [local instance (high)] instPowNat

/-! ## Instructions and handlers that mean the same -/

open Pool (SameConstant)

/-- Operands that are the same but for a constant, which means the same. -/
def SameOperands (view : View) (p : Pool) : OpcodeKind → List UInt8 → List UInt8 → Prop
  | .constantRef, xs, ys | .multiANewArray, xs, ys | .invokeInterface, xs, ys
  | .invokeDynamic, xs, ys =>
    ∃ i j rest, xs = BigEndian.u2 i ++ rest ∧ ys = BigEndian.u2 j ++ rest ∧ SameConstant view p i j
  | .narrowConstantRef, xs, ys =>
    ∃ i j : UInt8, xs = [i] ∧ ys = [j] ∧ SameConstant view p i.toUInt16 j.toUInt16
  | _, xs, ys => ys = xs

/-- The second instruction does at its place what the first one does at its own. -/
structure SameInstruction (view : View) (p : Pool) (i i' : CodedInstruction) : Prop where
  offset_eq : i'.offset = i.offset
  op_eq : i'.op = i.op
  operands : SameOperands view p i.op.kind i.operands i'.operands

/-- The second handler does what the first one does.  What it catches is a class in both pools. -/
structure SameHandler (view : View) (p : Pool) (h h' : ExceptionHandler) : Prop where
  start_eq : h'.start = h.start
  stop_eq : h'.stop = h.stop
  handler_eq : h'.handler = h.handler
  catchType : if h.catchType.slot = 0 then h'.catchType.slot = 0 else
    h'.catchType.slot ≠ 0 ∧ ∃ name, view h.catchType.slot = .ok (.named .class name) ∧
      p.constant h'.catchType.slot = .ok (.named .class name)

section Mono

variable {view : View} {p q : Pool}

theorem SameOperands.mono (h : p.Grows q) {kind : OpcodeKind} {xs ys : List UInt8}
    (hxy : SameOperands view p kind xs ys) : SameOperands view q kind xs ys := by
  cases kind with
  | constantRef | multiANewArray | invokeInterface | invokeDynamic =>
    obtain ⟨i, j, rest, hxs, hys, hij⟩ := hxy
    exact ⟨i, j, rest, hxs, hys, hij.mono h⟩
  | narrowConstantRef =>
    obtain ⟨i, j, hxs, hys, hij⟩ := hxy
    exact ⟨i, j, hxs, hys, hij.mono h⟩
  | _ => exact hxy

theorem SameInstruction.mono (h : p.Grows q) {i i' : CodedInstruction}
    (hi : SameInstruction view p i i') : SameInstruction view q i i' :=
  { hi with operands := hi.operands.mono h }

theorem SameHandler.mono (h : p.Grows q) {e e' : ExceptionHandler}
    (he : SameHandler view p e e') : SameHandler view q e e' := by
  refine { he with catchType := ?_ }
  have hcatch := he.catchType
  split at hcatch
  · rename_i hzero
    rw [if_pos hzero]
    exact hcatch
  · rename_i hzero
    obtain ⟨hne, name, hview, hname⟩ := hcatch
    rw [if_neg hzero]
    exact ⟨hne, name, hview, h.constant_eq hname⟩

end Mono

/-! ## What a remapper reads -/

namespace Remapper

/-- The remapper went on by reading some bytes, and its pool has grown. -/
structure Takes (r : Remapper) (bytes : List UInt8) (r' : Remapper) : Prop where
  rest_eq : r.input.rest = bytes ++ r'.input.rest
  grows : r.output.pool.Grows r'.output.pool

theorem Takes.trans {r r' r'' : Remapper} {xs ys : List UInt8} (h : r.Takes xs r')
    (h' : r'.Takes ys r'') : r.Takes (xs ++ ys) r'' where
  rest_eq := by rw [h.rest_eq, h'.rest_eq, List.append_assoc]
  grows := trans_of Pool.Grows h.grows h'.grows

theorem field_ok {width n : Nat} {r r' : Remapper} (h : (field width).exec r = (.ok n, r')) :
    r.Takes (BigEndian.encode width n) r' ∧ n < 256 ^ width := by
  unfold field at h
  rw [Action.exec_ofFn] at h
  split at h
  · rename_i bytes rest hsplit
    obtain ⟨hrest, rfl⟩ := splitExactly_eq_some.mp hsplit
    cases h
    rw [BigEndian.encode_decode]
    exact ⟨⟨hrest, .refl⟩, BigEndian.decode_lt bytes⟩
  · cases h

theorem u2_ok {n : UInt16} {r r' : Remapper} (h : u2.exec r = (.ok n, r')) :
    r.Takes (BigEndian.u2 n) r' := by
  obtain ⟨m, hm, rfl⟩ := Action.exec_map_eq_ok.mp h
  obtain ⟨htakes, hlt⟩ := field_ok hm
  have hm : (UInt16.ofNat m).toNat = m := by
    rw [UInt16.toNat_ofNat']
    omega
  rwa [BigEndian.u2, hm]

theorem bytes_ok {count : Nat} {bs : List UInt8} {r r' : Remapper}
    (h : (bytes count).exec r = (.ok bs, r')) : r.Takes bs r' ∧ bs.length = count := by
  unfold bytes at h
  rw [Action.exec_ofFn] at h
  split at h
  · rename_i bs' rest hsplit
    obtain ⟨hrest, hlen⟩ := splitExactly_eq_some.mp hsplit
    cases h
    exact ⟨⟨hrest, .refl⟩, hlen⟩
  · cases h

theorem finish_ok {r r' : Remapper} {u : Unit} (h : finish.exec r = (.ok u, r')) :
    r' = r ∧ r.input.rest = [] := by
  unfold finish at h
  rw [Action.exec_inspect] at h
  obtain ⟨hcheck, rfl⟩ := Prod.mk.inj h
  split at hcheck
  · rename_i hnone
    exact ⟨rfl, List.length_eq_zero_iff.mp hnone⟩
  · cases hcheck

/-- An action on the output. -/
theorem onOutput_ok {α : Type} {eff : Action Error AttributeWriter α} {a : α} {r r' : Remapper}
    (h : (onOutput eff).exec r = (.ok a, r')) :
    eff.exec r.output = (.ok a, r'.output) ∧ r'.input = r.input := by
  unfold onOutput at h
  rw [Action.exec_onPart] at h
  obtain ⟨hok, rfl⟩ := Prod.mk.inj h
  exact ⟨Prod.ext hok rfl, rfl⟩

/-- An action on the pool of the output. -/
theorem onPool_ok {α : Type} {act : Action Error Pool α} {a : α} {r r' : Remapper}
    (h : (onOutput (AttributeWriter.onPool act)).exec r = (.ok a, r')) :
    act.exec r.output.pool = (.ok a, r'.output.pool) ∧ r'.input = r.input := by
  obtain ⟨hact, hinput⟩ := onOutput_ok h
  unfold AttributeWriter.onPool at hact
  rw [Action.exec_onPart] at hact
  obtain ⟨hok, hout⟩ := Prod.mk.inj hact
  exact ⟨Prod.ext hok (congrArg AttributeWriter.pool hout), hinput⟩

theorem copy_ok {source : View} {i j : Slot} {r r' : Remapper} (hinv : r.output.pool.Inv)
    (h : (copy source i).exec r = (.ok j, r')) :
    r.Takes [] r' ∧ SameConstant source r'.output.pool i j := by
  obtain ⟨hcopy, hinput⟩ := onPool_ok h
  obtain ⟨hgrows, hsame⟩ := Pool.yields_copy hinv source i j _ hcopy
  exact ⟨⟨by rw [hinput]; rfl, hgrows⟩, hsame⟩

theorem ref_ok {kind : Tag} {source : View} {j : Ref kind} {r r' : Remapper}
    (hinv : r.output.pool.Inv) (h : (ref kind source).exec r = (.ok j, r')) :
    ∃ i : Ref kind, r.Takes i.encode r' ∧ SameConstant source r'.output.pool i.slot j.slot ∧
      (i.slot ≠ 0 → ∃ c, r'.output.pool.constant j.slot = .ok c ∧ c.tag = kind) := by
  obtain ⟨i, r₁, hi, hcopy⟩ := Action.exec_bind_eq_ok.mp h
  have htakes := u2_ok hi
  obtain ⟨hcopy, hinput⟩ := onPool_ok hcopy
  have hinv₁ := htakes.grows.inv hinv
  obtain ⟨hgrows, hsame, hkind⟩ := Pool.yields_copyAs hinv₁ kind source i j _ hcopy
  have hstay : r₁.Takes [] r' := ⟨by rw [hinput]; rfl, hgrows⟩
  have hall := htakes.trans hstay
  rw [List.append_nil] at hall
  exact ⟨⟨i⟩, hall, hsame, hkind⟩

/-- Items that are read in a row are read one by one. -/
theorem times_ok {α β : Type} {act : Action Error Remapper β} (encode : α → List UInt8)
    (P : Pool → α → β → Prop) (hmono : ∀ {p q a b}, p.Grows q → P p a b → P q a b)
    (hact : ∀ {r b r'}, r.output.pool.Inv → act.exec r = (.ok b, r') →
      ∃ a, r.Takes (encode a) r' ∧ P r'.output.pool a b)
    {n : Nat} {bs : List β} {r r' : Remapper} (hinv : r.output.pool.Inv)
    (h : (Action.times n act).exec r = (.ok bs, r')) :
    ∃ as, as.length = n ∧ r.Takes (as.flatMap encode) r' ∧
      List.Forall₂ (P r'.output.pool) as bs := by
  induction n generalizing r bs with
  | zero =>
    cases h
    exact ⟨[], rfl, ⟨rfl, .refl⟩, .nil⟩
  | succ n ih =>
    -- The first item is read in a pool that grows while the others are read.
    obtain ⟨b, r₁, bs', hb, hbs', rfl⟩ := Action.exec_times_succ_eq_ok.mp h
    obtain ⟨a, ha, hab⟩ := hact hinv hb
    obtain ⟨as, rfl, has, hall⟩ := ih (ha.grows.inv hinv) hbs'
    refine ⟨a :: as, rfl, ?_, .cons (hmono has.grows hab) hall⟩
    rw [List.flatMap_cons]
    exact ha.trans has

end Remapper

/-! ## Instructions -/

namespace Remap

open Remapper

/-- An instruction without variable parts has the size that its kind says. -/
theorem length_operands {i : CodedInstruction} (hsized : i.Sized) {n : Nat}
    (hn : i.op.kind.operandBytes? = some n) : i.operands.length = n := by
  unfold CodedInstruction.Sized Listing.instructionSize at hsized
  cases hkind : i.op.kind <;> rw [hkind] at hn <;>
    simp_all [OpcodeKind.operandBytes?, CodedInstruction.encode]

/-- Two instructions of one opcode with operands of the size that its kind says have one size. -/
theorem sized_of_length {i i' : CodedInstruction} (hsized : i.Sized)
    (hoffset : i'.offset = i.offset) (hop : i'.op = i.op) {n : Nat}
    (hn : i.op.kind.operandBytes? = some n)
    (hlen : i'.operands.length = n) : i'.Sized ∧ i'.encode.length = i.encode.length := by
  have hlen' : i'.encode.length = i.encode.length := by
    rw [CodedInstruction.encode, CodedInstruction.encode, List.length_cons, List.length_cons, hlen,
      length_operands hsized hn]
  refine ⟨?_, hlen'⟩
  unfold CodedInstruction.Sized Listing.instructionSize at hsized ⊢
  rw [hoffset, hop, hlen']
  -- The kind alone decides the size, so that the operands do not matter.
  cases hkind : i.op.kind <;> rw [hkind] at hn hsized <;>
    first
    | exact hsized
    | cases hn

/-- The four kinds of instructions with a two-byte constant. -/
private theorem wideConstant_ok {source : View} {i : CodedInstruction} {out : List UInt8}
    {r r' : Remapper} (hinv : r.output.pool.Inv) (hsized : i.Sized) {n : Nat}
    (hn : i.op.kind.operandBytes? = some n) (htwo : 2 ≤ n)
    (h : (do
      let slot ← copy source (UInt16.ofNat (BigEndian.decode (i.operands.take 2)))
      return i.op.byte :: (BigEndian.u2 slot ++ i.operands.drop 2) : Action Error Remapper _).exec r
        = (.ok out, r')) :
    ∃ (j k : Slot) (rest : List UInt8), r.Takes [] r' ∧ i.operands = BigEndian.u2 j ++ rest ∧
      out = i.op.byte :: (BigEndian.u2 k ++ rest) ∧ (BigEndian.u2 k ++ rest).length = n ∧
      SameConstant source r'.output.pool j k := by
  obtain ⟨k, r₁, hcopy, hout⟩ := Action.exec_bind_eq_ok.mp h
  obtain ⟨htakes, hsame⟩ := copy_ok hinv hcopy
  cases hout
  have hlen := length_operands hsized hn
  have htake : (i.operands.take 2).length = 2 := by
    rw [List.length_take]
    omega
  refine ⟨_, k, i.operands.drop 2, htakes, ?_, rfl, ?_, hsame⟩
  · rw [BigEndian.u2_decode htake, List.take_append_drop]
  · rw [List.length_append, List.length_drop, BigEndian.u2, BigEndian.length_encode]
    omega

/-- The instruction with a one-byte constant. -/
private theorem narrowConstant_ok {source : View} {i : CodedInstruction} {out : List UInt8}
    {r r' : Remapper} (hinv : r.output.pool.Inv) (hsized : i.Sized)
    (hn : i.op.kind.operandBytes? = some 1)
    (h : (do
      let slot ← copy source (UInt16.ofNat (BigEndian.decode i.operands))
      if slot < 256 then
        return [i.op.byte, slot.toUInt8]
      else
        throw (.narrowSlot i.op slot) : Action Error Remapper _).exec r = (.ok out, r')) :
    ∃ j k : UInt8, r.Takes [] r' ∧ i.operands = [j] ∧ out = [i.op.byte, k] ∧
      SameConstant source r'.output.pool j.toUInt16 k.toUInt16 := by
  obtain ⟨slot, r₁, hcopy, hout⟩ := Action.exec_bind_eq_ok.mp h
  obtain ⟨htakes, hsame⟩ := copy_ok hinv hcopy
  -- The slot is a single byte here and has to be one afterwards.
  obtain ⟨j, hj⟩ := List.length_eq_one_iff.mp (length_operands hsized hn)
  have hslot : UInt16.ofNat (BigEndian.decode i.operands) = j.toUInt16 := by
    rw [hj, BigEndian.decode_byte]
  split at hout
  · rename_i hlt
    cases hout
    have hnarrow : slot.toUInt8.toUInt16 = slot := by
      rw [← UInt16.toNat_inj]
      have : slot.toNat < 256 := hlt
      simp
      omega
    rw [hslot] at hsame
    exact ⟨j, slot.toUInt8, htakes, hj, rfl, by rwa [hnarrow]⟩
  · cases hout

/-- What becomes of an instruction. -/
theorem instruction_ok {source : View} {i : CodedInstruction} {out : List UInt8}
    {r r' : Remapper} (hinv : r.output.pool.Inv) (hsized : i.Sized)
    (h : (instruction source i).exec r = (.ok out, r')) :
    ∃ i' : CodedInstruction, out = i'.encode ∧ i'.Sized ∧ i'.encode.length = i.encode.length ∧
      r.Takes [] r' ∧ SameInstruction source r'.output.pool i i' := by
  unfold instruction at h
  cases hkind : i.op.kind with
  | constantRef | multiANewArray | invokeInterface | invokeDynamic =>
    simp only [hkind] at h
    obtain ⟨n, hn, htwo⟩ : ∃ n, i.op.kind.operandBytes? = some n ∧ 2 ≤ n := by
      rw [hkind]
      exact ⟨_, rfl, by decide⟩
    obtain ⟨j, k, rest, htakes, hj, hout, hlen, hsame⟩ := wideConstant_ok hinv hsized hn htwo h
    let i' : CodedInstruction := ⟨i.offset, i.op, BigEndian.u2 k ++ rest⟩
    have hsized' : i'.Sized ∧ i'.encode.length = i.encode.length :=
      sized_of_length hsized rfl rfl hn hlen
    refine ⟨i', hout, hsized'.1, hsized'.2, htakes, rfl, rfl, ?_⟩
    rw [hkind]
    exact ⟨j, k, rest, hj, rfl, hsame⟩
  | narrowConstantRef =>
    simp only [hkind] at h
    have hn : i.op.kind.operandBytes? = some 1 := by rw [hkind]; rfl
    obtain ⟨j, k, htakes, hj, hout, hsame⟩ := narrowConstant_ok hinv hsized hn h
    let i' : CodedInstruction := ⟨i.offset, i.op, [k]⟩
    have hsized' : i'.Sized ∧ i'.encode.length = i.encode.length :=
      sized_of_length hsized rfl rfl hn rfl
    refine ⟨i', hout, hsized'.1, hsized'.2, htakes, rfl, rfl, ?_⟩
    rw [hkind]
    exact ⟨j, k, hj, rfl, hsame⟩
  | _ =>
    -- Nothing in the instruction depends on the pool.
    simp only [hkind] at h
    cases h
    refine ⟨i, rfl, hsized, rfl, ⟨rfl, .refl⟩, rfl, rfl, ?_⟩
    rw [hkind]
    rfl

/-- Instructions that keep their places and sizes walk as those before them. -/
theorem walk_of_forall₂ {R : CodedInstruction → CodedInstruction → Prop}
    {is is' : List CodedInstruction}
    (hR : ∀ {i i'}, R i i' → i'.offset = i.offset ∧ i'.Sized ∧ i'.encode.length = i.encode.length)
    (h : List.Forall₂ R is is') {offset : Nat} (hwalk : Walk offset is) :
    Walk offset is' ∧ (encodeAll is').length = (encodeAll is).length := by
  induction h generalizing offset with
  | nil => exact ⟨trivial, rfl⟩
  | cons hi _ ih =>
    obtain ⟨hoffset, -, hrest⟩ := hwalk
    obtain ⟨hoffset', hsized', hlen⟩ := hR hi
    obtain ⟨hwalk', hlens⟩ := ih hrest
    refine ⟨⟨hoffset'.trans hoffset, hsized', hlen ▸ hwalk'⟩, ?_⟩
    simp only [encodeAll, List.flatMap_cons, List.length_append] at hlens ⊢
    omega

/-- Going through the instructions of a listing. -/
private theorem mapM_instruction_ok {source : View} {is : List CodedInstruction}
    (hsized : ∀ i ∈ is, i.Sized) {outs : List (List UInt8)} {r r' : Remapper}
    (hinv : r.output.pool.Inv)
    (h : (is.mapM (instruction source)).exec r = (.ok outs, r')) :
    ∃ is', outs.flatten = encodeAll is' ∧ r.Takes [] r' ∧
      List.Forall₂ (fun i i' => (i'.Sized ∧ i'.encode.length = i.encode.length) ∧
        SameInstruction source r'.output.pool i i') is is' := by
  -- Induction on the instructions: what the first one means stays while the pool grows for others.
  induction is generalizing r outs with
  | nil =>
    cases h
    exact ⟨[], rfl, ⟨rfl, .refl⟩, .nil⟩
  | cons i is ih =>
    rw [List.mapM_cons] at h
    obtain ⟨out, r₁, hout, h⟩ := Action.exec_bind_eq_ok.mp h
    obtain ⟨outs', r₂, houts', h⟩ := Action.exec_bind_eq_ok.mp h
    cases h
    obtain ⟨i', rfl, hsized', hlen, htakes, hsame⟩ :=
      instruction_ok hinv (hsized i List.mem_cons_self) hout
    obtain ⟨is', hflatten, htakes', hall⟩ :=
      ih (fun i hi => hsized i (List.mem_cons_of_mem _ hi)) (htakes.grows.inv hinv) houts'
    refine ⟨i' :: is', ?_, htakes.trans htakes',
      .cons ⟨⟨hsized', hlen⟩, hsame.mono htakes'.grows⟩ hall⟩
    rw [List.flatten_cons, hflatten]
    rfl

/-- A listing in which no instruction was refused has no error. -/
theorem listed_of_mapM_ok {source : View} {listed : List (Except Error CodedInstruction)}
    {outs : List (List UInt8)} {r r' : Remapper}
    (h : (listed.mapM fun i => do instruction source (← Action.ofExcept i)).exec r
      = (.ok outs, r')) :
    ∃ is : List CodedInstruction, listed = is.map .ok ∧
      (is.mapM (instruction source)).exec r = (.ok outs, r') := by
  induction listed generalizing r outs with
  | nil => exact ⟨[], rfl, h⟩
  | cons x listed ih =>
    rw [List.mapM_cons] at h
    obtain ⟨out, r₁, hout, htail⟩ := Action.exec_bind_eq_ok.mp h
    obtain ⟨outs', r₂, houts', hend⟩ := Action.exec_bind_eq_ok.mp htail
    obtain ⟨i, r₀, hi, hexec⟩ := Action.exec_bind_eq_ok.mp hout
    obtain ⟨rfl, rfl⟩ := Prod.mk.inj hi
    rw [Action.exec_pure] at hend
    obtain ⟨houts, rfl⟩ := Prod.mk.inj hend
    obtain ⟨is, rfl, his⟩ := ih houts'
    refine ⟨i :: is, rfl, ?_⟩
    rw [List.mapM_cons]
    refine Action.exec_bind_eq_ok.mpr ⟨out, r₁, hexec, ?_⟩
    exact Action.exec_bind_eq_ok.mpr ⟨outs', r₂, his, Prod.ext houts rfl⟩

/-- What becomes of the instructions of some code. -/
theorem instructions_ok {source : View} {code out : List UInt8} {r r' : Remapper}
    (hinv : r.output.pool.Inv) (h : (instructions source code).exec r = (.ok out, r')) :
    ∃ is is', listing code = is.map .ok ∧ listing out = is'.map .ok ∧ out.length = code.length ∧
      r.Takes [] r' ∧ List.Forall₂ (SameInstruction source r'.output.pool) is is' := by
  obtain ⟨outs, r₁, houts, h⟩ := Action.exec_bind_eq_ok.mp h
  cases h
  obtain ⟨is, hlisting, his⟩ := listed_of_mapM_ok houts
  -- The listing is a walk, and the instructions walk the same way after they were rewritten.
  obtain ⟨hcode, hwalk⟩ := listing_eq_map_iff.mp hlisting
  obtain ⟨is', hout, htakes, hall⟩ := mapM_instruction_ok (sized_of_walk hwalk) hinv his
  obtain ⟨hwalk', hlen⟩ := walk_of_forall₂ (fun hi => ⟨hi.2.offset_eq, hi.1⟩) hall hwalk
  refine ⟨is, is', hlisting, listing_eq_map_iff.mpr ⟨hout, hwalk'⟩, ?_, htakes,
    hall.imp fun _ _ hi => hi.2⟩
  rw [hout, hcode, hlen]

/-! ## Handlers -/

/-- Any six bytes are three positions. -/
theorem exists_positions {bytes : List UInt8} (h : bytes.length = 6) :
    ∃ start stop handler,
      bytes = BigEndian.u2 start ++ BigEndian.u2 stop ++ BigEndian.u2 handler := by
  have hfirst : (bytes.take 2).length = 2 := by
    rw [List.length_take]
    omega
  have hsecond : ((bytes.drop 2).take 2).length = 2 := by
    rw [List.length_take, List.length_drop]
    omega
  have hthird : ((bytes.drop 2).drop 2).length = 2 := by
    rw [List.length_drop, List.length_drop]
    omega
  refine ⟨.ofNat (BigEndian.decode (bytes.take 2)),
    .ofNat (BigEndian.decode ((bytes.drop 2).take 2)),
    .ofNat (BigEndian.decode ((bytes.drop 2).drop 2)), ?_⟩
  rw [BigEndian.u2_decode hfirst, BigEndian.u2_decode hsecond, BigEndian.u2_decode hthird,
    List.append_assoc, List.take_append_drop, List.take_append_drop]

/-- A constant of the kind of classes names one. -/
theorem Constant.eq_class_of_tag {c : Constant} (h : c.tag = .class) :
    ∃ name, c = .named .class name := by
  cases c with
  | named kind name =>
    cases kind <;> first | exact ⟨name, rfl⟩ | cases h
  | member kind _ => cases kind <;> cases h
  | dynamic kind _ _ _ => cases kind <;> cases h
  | _ => cases h

/-- The bytes of a handler that does what the given one does. -/
def WritesHandler (view : View) (p : Pool) (e : ExceptionHandler) (out : List UInt8) : Prop :=
  ∃ e' : ExceptionHandler, out = e'.encode ∧ SameHandler view p e e'

/-- What becomes of a handler. -/
theorem handler_ok {source : View} {out : List UInt8} {r r' : Remapper}
    (hinv : r.output.pool.Inv) (h : (handler source).exec r = (.ok out, r')) :
    ∃ e : ExceptionHandler, r.Takes e.encode r' ∧ WritesHandler source r'.output.pool e out := by
  obtain ⟨positions, r₁, hpositions, h⟩ := Action.exec_bind_eq_ok.mp h
  obtain ⟨type', r₂, htype, hend⟩ := Action.exec_bind_eq_ok.mp h
  rw [Action.exec_pure] at hend
  obtain ⟨hout, rfl⟩ := Prod.mk.inj hend
  obtain ⟨htakes, hlen⟩ := bytes_ok hpositions
  obtain ⟨start, stop, position, rfl⟩ := exists_positions hlen
  obtain ⟨type, htakes', hsame, hkind⟩ := ref_ok (htakes.grows.inv hinv) htype
  refine ⟨⟨start, stop, position, type⟩, htakes.trans htakes', ⟨start, stop, position, type'⟩,
    (Except.ok.inj hout).symm, rfl, rfl, rfl, ?_⟩
  -- The reference is to a constant of the kind of classes, and so names a class.
  unfold Pool.SameConstant at hsame
  split at hsame
  · rename_i hzero
    rw [if_pos hzero]
    exact hsame
  · rename_i hzero
    obtain ⟨hne, c, hview, hc⟩ := hsame
    obtain ⟨c', hc', htag⟩ := hkind hzero
    rw [hc] at hc'
    cases hc'
    obtain ⟨name, rfl⟩ := Constant.eq_class_of_tag htag
    rw [if_neg hzero]
    exact ⟨hne, name, hview, hc⟩

/-- Handlers that are written one by one. -/
private theorem exists_handlers {source : View} {p : Pool} {es : List ExceptionHandler}
    {outs : List (List UInt8)}
    (h : List.Forall₂ (WritesHandler source p) es outs) :
    ∃ es', outs = es'.map ExceptionHandler.encode ∧ List.Forall₂ (SameHandler source p) es es' := by
  induction h with
  | nil => exact ⟨[], rfl, .nil⟩
  | cons he _ ih =>
    obtain ⟨e', rfl, hsame⟩ := he
    obtain ⟨es', rfl, hall⟩ := ih
    exact ⟨e' :: es', rfl, .cons hsame hall⟩

/-! ## The code of a method -/

/-- The second code does what the first one does: its instructions and handlers mean the same. -/
structure SameCode (view : View) (p : Pool) (c c' : CodeHead) : Prop where
  maxStack_eq : c'.maxStack = c.maxStack
  maxLocals_eq : c'.maxLocals = c.maxLocals
  length_eq : c'.code.length = c.code.length
  instructions : ∃ is is', listing c.code = is.map .ok ∧ listing c'.code = is'.map .ok ∧
    List.Forall₂ (SameInstruction view p) is is'
  handlers : List.Forall₂ (SameHandler view p) c.handlers c'.handlers

/-- How a method was gone through whose code could be moved. -/
theorem exec_body_eq_ok {source : View} {out : List UInt8} {r r' : Remapper}
    (h : (body source).exec r = (.ok out, r')) :
    ∃ maxStack maxLocals code code' handlers us, ∃ r₁ r₂ r₃ r₄ r₅ r₆ : Remapper,
      u2.exec r = (.ok maxStack, r₁) ∧ u2.exec r₁ = (.ok maxLocals, r₂) ∧
      u4.exec r₂ = (.ok code.length, r₃) ∧ code.length ≤ Assembler.maxCodeSize ∧
      (bytes code.length).exec r₃ = (.ok code, r₄) ∧
      (instructions source code).exec r₄ = (.ok code', r₅) ∧
      (counted (handler source)).exec r₅ = (.ok handlers, r₆) ∧
      (counted (nextAttribute source)).exec r₆ = (.ok us, r') ∧ r'.input.rest = [] ∧
      out = BigEndian.u2 maxStack ++ BigEndian.u2 maxLocals ++ BigEndian.encode 4 code.length
        ++ code' ++ BigEndian.encode 2 handlers.length ++ handlers.flatten := by
  obtain ⟨maxStack, r₁, hstack, h⟩ := Action.exec_bind_eq_ok.mp h
  obtain ⟨maxLocals, r₂, hlocals, h⟩ := Action.exec_bind_eq_ok.mp h
  obtain ⟨size, r₃, hsize, h⟩ := Action.exec_bind_eq_ok.mp h
  simp only [] at h
  split at h
  · obtain ⟨_, _, hthrow, -⟩ := Action.exec_bind_eq_ok.mp h
    cases hthrow
  · rename_i hbound
    obtain ⟨code, r₄, hcode, h⟩ := Action.exec_bind_eq_ok.mp h
    obtain ⟨code', r₅, hcode', h⟩ := Action.exec_bind_eq_ok.mp h
    obtain ⟨handlers, r₆, hhandlers, h⟩ := Action.exec_bind_eq_ok.mp h
    obtain ⟨_, r₇, hdiscard, h⟩ := Action.exec_bind_eq_ok.mp h
    obtain ⟨_, r₈, hfinish, hend⟩ := Action.exec_bind_eq_ok.mp h
    obtain ⟨us, hattributes⟩ := Action.exec_discard_eq_ok.mp hdiscard
    obtain ⟨rfl, hrest⟩ := finish_ok hfinish
    obtain rfl := (bytes_ok hcode).2
    rw [Action.exec_pure] at hend
    obtain ⟨hout, rfl⟩ := Prod.mk.inj hend
    exact ⟨maxStack, maxLocals, code, code', handlers, us, r₁, r₂, r₃, r₄, r₅, r₆, hstack, hlocals,
      hsize, Nat.le_of_not_lt hbound, hcode, hcode', hhandlers, hattributes, hrest,
      (Except.ok.inj hout).symm⟩

/-- What becomes of the code of a method before its attributes. -/
theorem body_ok {source : View} {out : List UInt8} {r r' : Remapper} (hinv : r.output.pool.Inv)
    (h : (body source).exec r = (.ok out, r')) :
    ∃ (c c' : CodeHead) (rest : List UInt8), r.input.rest = c.encode ++ rest ∧ out = c'.encode ∧
      c.code.length ≤ Assembler.maxCodeSize ∧ c.handlers.length ≤ 65535 ∧
      r.output.pool.Grows r'.output.pool ∧ SameCode source r'.output.pool c c' := by
  obtain ⟨maxStack, maxLocals, code, code', handlers, us, r₁, r₂, r₃, r₄, r₅, r₆, hstack, hlocals,
    hsize, hbound, hcode, hcode', hhandlers, hattributes, -, hout⟩ := exec_body_eq_ok h
  -- What was read before the code.
  have htakes := (u2_ok hstack).trans ((u2_ok hlocals).trans (field_ok hsize).1)
  have hread := (bytes_ok hcode).1
  -- The code and the handlers, each in the pool as it was right after them.
  have hinv₄ := (htakes.trans hread).grows.inv hinv
  obtain ⟨is, is', hlisting, hlisting', hlength, hkeeps, hsame⟩ := instructions_ok hinv₄ hcode'
  obtain ⟨count, r₇, hcount, htimes⟩ := Action.exec_bind_eq_ok.mp hhandlers
  have htakes₇ := hkeeps.trans (u2_ok hcount)
  have hinv₇ := htakes₇.grows.inv hinv₄
  obtain ⟨es, hes, hread', hall⟩ := times_ok ExceptionHandler.encode (WritesHandler source)
    (fun hpq ⟨e', he, hsame⟩ => ⟨e', he, hsame.mono hpq⟩) handler_ok hinv₇ htimes
  obtain ⟨es', rfl, hsame'⟩ := exists_handlers hall
  -- The pool may still grow while attributes are moved.
  have hgrows₆ : r₆.output.pool.Grows r'.output.pool :=
    (grows_counted (grows_nextAttribute source)).of_exec hattributes
  have hgrows₅ :=
    trans_of Pool.Grows (u2_ok hcount).grows (trans_of Pool.Grows hread'.grows hgrows₆)
  have hall := (htakes.trans hread).trans (htakes₇.trans hread')
  refine ⟨⟨maxStack, maxLocals, code, es⟩, ⟨maxStack, maxLocals, code', es'⟩, r₆.input.rest,
    ?_, ?_, hbound, ?_, trans_of Pool.Grows hall.grows hgrows₆, rfl, rfl, hlength, ?_, ?_⟩
  · have hcountField : BigEndian.u2 count = BigEndian.encode 2 es.length := by rw [hes]; rfl
    rw [hall.rest_eq, hcountField]
    simp only [CodeHead.encode, List.append_assoc, List.nil_append]
  · rw [hout, ← hlength, List.length_map]
    simp only [CodeHead.encode, List.append_assoc, List.flatMap_def]
  · have := count.toNat_lt
    show es.length ≤ 65535
    omega
  · exact ⟨is, is', hlisting, hlisting', hsame.imp fun _ _ hi => hi.mono hgrows₅⟩
  · exact hsame'.imp fun _ _ he => he.mono hgrows₆

/-- The code of a method that is moved to a reachable pool does there what it did before, and the
pool keeps what it held. -/
theorem same_meaning_of_exec_code (version : Version) (calls : List Pool.Call) (source : View)
    (info out : List UInt8) (p' : Pool)
    (h : (code source info).exec ((Pool.empty version).afterCalls calls) = (.ok out, p')) :
    ∃ c c' rest rest', CodeHead.read.run info = some (c, rest) ∧
      CodeHead.read.run out = some (c', rest') ∧ SameCode source p' c c' ∧
      ∀ (i : Nat) (r : Option Record),
        ((Pool.empty version).afterCalls calls).slots[i]? = some r → p'.slots[i]? = some r := by
  have hinv := Pool.inv_afterCalls version calls
  unfold code at h
  rw [Action.exec_ofFn] at h
  split at h
  · rename_i bytes input pool table hbody
    obtain ⟨hout, rfl⟩ := Prod.mk.inj h
    obtain ⟨c, c', rest, hinfo, rfl, hsize, hhandlers, hgrows, hsame⟩ := body_ok hinv hbody
    have hsize : c.code.length < 256 ^ 4 := Nat.lt_of_le_of_lt hsize (by decide)
    -- Both are read by the grammar of code, which does not look at the attributes behind.
    have hread : CodeHead.read.run info = some (c, rest) := by
      have hrest : info = c.encode ++ rest := hinfo
      rw [hrest]
      exact reads_codeHead hsize hhandlers rest
    have hread' : CodeHead.read.run out = some (c', table.encode) := by
      rw [← Except.ok.inj hout]
      refine reads_codeHead ?_ ?_ table.encode
      · rw [hsame.length_eq]
        exact hsize
      · rw [← hsame.handlers.length_eq]
        exact hhandlers
    exact ⟨c, c', rest, table.encode, hread, hread', hsame, fun _ _ hi => hgrows.getElem?_slots hi⟩
  · cases h

/-- A pool with a number at slot 5. -/
def numberView : View := fun i => if i = 5 then .ok (.integer 7) else .error (.badSlot i 6)

/-- A method that pushes the number at slot 5 and returns. -/
def numberInfo : List UInt8 := [0, 1, 0, 0, 0, 0, 0, 3, 0x12, 5, 0xb1, 0, 0, 0, 0]

private theorem exec_copy_number (v : Version) (input : Input) :
    (copy numberView 5).exec ⟨input, .start (.empty v)⟩
      = (.ok 1, ⟨input, .start ((Pool.empty v).append (.integer 7))⟩) := by
  have hshared : (Pool.empty v).shared? .shared (.integer 7) = none := by
    simp [Pool.shared?, Pool.empty]
  have hcopy : (Pool.copy numberView 5).exec (Pool.empty v)
      = (.ok 1, (Pool.empty v).append (.integer 7)) := Pool.exec_insert_append hshared
  unfold copy onOutput AttributeWriter.onPool
  rw [Action.exec_onPart, Action.exec_onPart]
  exact congrArg (fun x : Except Error Slot × Pool => (x.1, (⟨input, .start x.2⟩ : Remapper))) hcopy

private theorem exec_instructions_number (v : Version) (input : Input) :
    (instructions numberView [0x12, 5, 0xb1]).exec ⟨input, .start (.empty v)⟩
      = (.ok [0x12, 1, 0xb1], ⟨input, .start ((Pool.empty v).append (.integer 7))⟩) := by
  have hlisting : listing [0x12, 5, 0xb1] = [.ok ⟨0, .ldc, [5]⟩, .ok ⟨2, .voidReturn, []⟩] := rfl
  unfold instructions
  rw [hlisting]
  refine Action.exec_bind_eq_ok.mpr ⟨[[0x12, 1], [0xb1]], _, ?_, rfl⟩
  refine Action.exec_bind_eq_ok.mpr ⟨[0x12, 1], _, ?_, rfl⟩
  refine Action.exec_bind_eq_ok.mpr ⟨⟨0, .ldc, [5]⟩, _, rfl, ?_⟩
  exact Action.exec_bind_eq_ok.mpr ⟨1, _, exec_copy_number v input, rfl⟩

/-- The number moves to slot 1 of an empty pool. -/
theorem same_meaning_of_moved_number :
    ∃ out p',
      (code numberView numberInfo).exec ((Pool.empty .java8).afterCalls []) = (.ok out, p') ∧
      ∃ c c' rest rest', CodeHead.read.run numberInfo = some (c, rest) ∧
        CodeHead.read.run out = some (c', rest') ∧ SameCode numberView p' c c' ∧
        ∀ (i : Nat) (r : Option Record),
          ((Pool.empty .java8).afterCalls []).slots[i]? = some r → p'.slots[i]? = some r := by
  have hbody : (body numberView).exec ⟨.start "Code" numberInfo, .start (.empty .java8)⟩
      = (.ok [0, 1, 0, 0, 0, 0, 0, 3, 0x12, 1, 0xb1, 0, 0],
        ⟨⟨"Code", 15, []⟩, .start ((Pool.empty .java8).append (.integer 7))⟩) := by
    refine Action.exec_bind_eq_ok.mpr ⟨1, _, rfl, Action.exec_bind_eq_ok.mpr ⟨0, _, rfl, ?_⟩⟩
    refine Action.exec_bind_eq_ok.mpr ⟨3, _, rfl, ?_⟩
    refine Action.exec_bind_eq_ok.mpr ⟨[0x12, 5, 0xb1], _, rfl, ?_⟩
    refine Action.exec_bind_eq_ok.mpr ⟨[0x12, 1, 0xb1], _, exec_instructions_number _ _, ?_⟩
    refine Action.exec_bind_eq_ok.mpr ⟨[], _, rfl, Action.exec_bind_eq_ok.mpr ⟨(), _, rfl, ?_⟩⟩
    exact Action.exec_bind_eq_ok.mpr ⟨(), _, rfl, rfl⟩
  have hcode : (code numberView numberInfo).exec (Pool.empty .java8)
      = (.ok [0, 1, 0, 0, 0, 0, 0, 3, 0x12, 1, 0xb1, 0, 0, 0, 0],
        (Pool.empty .java8).append (.integer 7)) := by
    unfold code
    rw [Action.exec_ofFn, hbody]
    rfl
  exact ⟨_, _, hcode, same_meaning_of_exec_code .java8 [] numberView numberInfo _ _ hcode⟩

end Remap

end JvmClass
