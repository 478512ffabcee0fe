import JvmClass.Proofs.Code.Boundaries
import JvmClass.Proofs.Code.Refusals

/-!
# The layout of a table

`Extends a₀ parts a` says what has been written since an assembler was `a₀`, whatever it had written
before and whether or not that makes sense: its code goes on with the parts, and the operands among
them that lead to labels without a position have jumps that wait for them.

A `TableRun` starts a `tableswitch` behind any code and calls for cases, each of which is added or
refused.  After every such run the table stands behind the old code as `tableBytes` says, and how
the next call ends is known.

## Key results

- `Extends.write`, `Extends.patch`, `Extends.jumpOperand`: the steps of writing a switch
- `CountsKeys.exec_addCase`: when a case is refused, and that nothing changes then
- `tabulates_of_run`: what holds of a table throughout a run
- `tableSwitch_layout`: the table after every run
-/

namespace JvmClass.Assembler

open JvmClass.Action

variable {a₀ a b : Assembler} {parts : List Part}

/-! ## Code behind other code -/

/-- What has been written since the assembler was `a₀`. -/
structure Extends (a₀ : Assembler) (parts : List Part) (a : Assembler) : Prop where
  code_eq : a.code.toList = a₀.code.toList ++ render a₀.labelOffset? parts
  labelOffset?_eq : a.labelOffset? = a₀.labelOffset?
  isDefined_eq : a.isDefined = a₀.isDefined
  awaits : ∀ l, a₀.labelOffset? l = none → ∃ js, a.pending l = a₀.pending l ++ js ∧
    List.Forall₂ (Awaits a.code) js (sites l a₀.offset parts)

namespace Extends

protected theorem refl (a : Assembler) : Extends a [] a where
  code_eq := (List.append_nil _).symm
  labelOffset?_eq := rfl
  isDefined_eq := rfl
  awaits _ _ := ⟨[], (List.append_nil _).symm, .nil⟩

theorem offset_eq (h : Extends a₀ parts a) : a.offset = a₀.offset + sizeOf parts := by
  have hlen := congrArg List.length h.code_eq
  rwa [List.length_append, Buffer.length_toList, Buffer.length_toList, length_render] at hlen

theorem write (h : Extends a₀ parts a) (bytes : List UInt8) :
    Extends a₀ (parts ++ [.bytes bytes]) (a.write bytes) where
  code_eq := by
    have hcode : (a.write bytes).code.toList = a.code.toList ++ bytes := Buffer.toList_append _ _
    rw [hcode, h.code_eq, render_append, List.append_assoc]
    simp [Part.render]
  labelOffset?_eq := h.labelOffset?_eq
  isDefined_eq := h.isDefined_eq
  awaits l hl := by
    obtain ⟨js, hpending, hjs⟩ := h.awaits l hl
    refine ⟨js, hpending, ?_⟩
    rw [sites_append]
    simp only [sites, List.append_nil]
    exact forall₂_awaits_mono (fun _ _ hs => hs.append bytes) hjs

/-- Replacing bytes by as many others. -/
theorem patch {before after : List Part} {old new : List UInt8}
    (h : Extends a₀ (before ++ .bytes old :: after) a) {field : Buffer.Reservation}
    (hfield : a.code.Stands field (a₀.offset + sizeOf before)) (hold : new.length = old.length)
    (hsize : new.length ≤ field.size) :
    Extends a₀ (before ++ .bytes new :: after)
      { a with code := a.code.overwrite field 0 new } where
  code_eq := by
    have hoverwrite : (a.code.overwrite field 0 new).toList
        = splice a.code.toList (a₀.offset + sizeOf before) new :=
      Buffer.toList_overwrite hfield (by omega)
    have hpos : a₀.offset + sizeOf before
        = (a₀.code.toList ++ render a₀.labelOffset? before).length := by
      rw [List.length_append, Buffer.length_toList, length_render]
      rfl
    have hsplit : ∀ bytes, a₀.code.toList
        ++ render a₀.labelOffset? (before ++ .bytes bytes :: after)
        = (a₀.code.toList ++ render a₀.labelOffset? before)
          ++ (bytes ++ render a₀.labelOffset? after) := by
      intro bytes
      rw [render_append, render_cons, Part.render, List.append_assoc]
    show (a.code.overwrite field 0 new).toList = _
    rw [hoverwrite, h.code_eq, hpos, hsplit, hsplit]
    exact splice_middle hold
  labelOffset?_eq := h.labelOffset?_eq
  isDefined_eq := h.isDefined_eq
  awaits l hl := by
    obtain ⟨js, hpending, hjs⟩ := h.awaits l hl
    refine ⟨js, hpending, ?_⟩
    have hsites : sites l a₀.offset (before ++ .bytes new :: after)
        = sites l a₀.offset (before ++ .bytes old :: after) := by
      simp only [sites_append, sites, hold]
    rw [hsites]
    exact forall₂_awaits_mono (fun _ _ hs => hs.overwrite _ _ _) hjs

/-- The room for an operand, before anything is known of its target. -/
theorem reserved (h : Extends a₀ parts a) :
    Extends a₀ (parts ++ [.bytes (List.replicate 4 0)]) (a.reserved 4) ∧
      (a.reserved 4).code.Stands (a.code.reserve 4).1 (a₀.offset + sizeOf parts) := by
  refine ⟨h.write _, ?_⟩
  rw [← h.offset_eq]
  exact Buffer.stands_reserve a.code 4

/-- An operand whose target has a position is filled in at once. -/
theorem fillIn (h : Extends a₀ parts a) (op : Opcode) (origin : Nat) {target : Label}
    {position : Nat} (htarget : a.labelOffset? target = some position) :
    Extends a₀ (parts ++ [switchTarget op origin target])
      (fillIn position (a.reserved 4) ⟨(a.code.reserve 4).1, origin, .wide, op⟩) := by
  obtain ⟨hroom, hstands⟩ := h.reserved
  have hlen : (BigEndian.encodeInt 4 ((position : Int) - origin)).length = 4 :=
    BigEndian.length_encodeInt 4 _
  have hfilled := hroom.patch hstands hlen (Nat.le_of_eq hlen)
  have htarget₀ : a₀.labelOffset? target = some position := h.labelOffset?_eq ▸ htarget
  refine ⟨?_, hfilled.labelOffset?_eq, hfilled.isDefined_eq, fun l hl => ?_⟩
  · have hoperand : Part.render a₀.labelOffset? (switchTarget op origin target)
        = BigEndian.encodeInt 4 ((position : Int) - origin) := by
      simp only [switchTarget, Part.render, htarget₀]
      rfl
    have hcode := hfilled.code_eq
    rw [render_append] at hcode ⊢
    simp only [render_cons, hoperand]
    exact hcode
  · -- No other label gets a site by an operand whose target is marked.
    have hne : target ≠ l := by
      rintro rfl
      rw [htarget₀] at hl
      cases hl
    obtain ⟨js, hpending, hjs⟩ := hfilled.awaits l hl
    refine ⟨js, hpending, ?_⟩
    rw [sites_append] at hjs ⊢
    simp only [switchTarget, sites, hne, if_false] at hjs ⊢
    exact hjs

/-- An operand whose target has no position yet makes a jump wait. -/
theorem awaiting (h : Extends a₀ parts a) (op : Opcode) (origin : Nat) {target : Label}
    (hdef : a.isDefined target) (htarget : a.labelOffset? target = none) :
    Extends a₀ (parts ++ [switchTarget op origin target])
      ((a.reserved 4).awaiting target ⟨(a.code.reserve 4).1, origin, .wide, op⟩) := by
  obtain ⟨hroom, hstands⟩ := h.reserved
  have hpending := pending_awaiting (a := a.reserved 4) hdef
    ⟨(a.code.reserve 4).1, origin, .wide, op⟩
  refine ⟨?_, ?_, ?_, fun l hl => ?_⟩
  · have hoperand : Part.render a₀.labelOffset? (switchTarget op origin target)
        = List.replicate 4 0 := by
      rw [← h.labelOffset?_eq]
      simp only [switchTarget, Part.render, htarget]
      rfl
    have hcode := hroom.code_eq
    rw [render_append] at hcode ⊢
    simp only [render_cons, hoperand]
    exact hcode
  · rw [labelOffset?_awaiting]
    exact hroom.labelOffset?_eq
  · rw [← h.isDefined_eq]
    funext l
    simp [isDefined, Assembler.awaiting, Assembler.reserved]
  · obtain ⟨js, hjs, hawaits⟩ := hroom.awaits l hl
    rw [hpending, hjs, sites_append]
    rw [sites_append] at hawaits
    simp only [sites, List.append_nil] at hawaits
    -- The new jump waits last, as its operand is the last site of its target.
    by_cases heq : l = target
    · subst heq
      refine ⟨js ++ [_], by rw [if_pos rfl, List.append_assoc], ?_⟩
      simp only [switchTarget, sites, if_true]
      apply List.rel_append hawaits
      exact .cons ⟨hstands, rfl, rfl, rfl, rfl⟩ .nil
    · have hne : target ≠ l := fun h => heq h.symm
      refine ⟨js, by rw [if_neg heq], ?_⟩
      simp only [switchTarget, sites, hne, if_false, List.append_nil]
      exact hawaits

/-- The operand of a switch that leads to a defined label. -/
theorem jumpOperand (h : Extends a₀ parts a) (op : Opcode) (origin : Nat) {target : Label}
    (hdef : a.isDefined target) :
    ∃ b, (jumpOperand op origin .wide target).exec a = (.ok (), b) ∧
      Extends a₀ (parts ++ [switchTarget op origin target]) b := by
  rw [exec_jumpOperand, if_pos hdef]
  cases htarget : a.labelOffset? target with
  | some position => exact ⟨_, rfl, h.fillIn op origin htarget⟩
  | none => exact ⟨_, rfl, h.awaiting op origin hdef htarget⟩

end Extends

/-- A wide operand is refused only for an undefined label. -/
theorem isDefined_of_jumpOperand {op : Opcode} {origin : Nat} {target : Label}
    (h : (jumpOperand op origin .wide target).exec a = (.ok (), b)) : a.isDefined target := by
  rw [exec_jumpOperand] at h
  split at h
  · assumption
  · cases h

/-! ## Tables -/

/-- What is true of a table while cases are added: the parts that stand behind the old code, the
field of the highest key, and the next key. -/
structure Tabulates (a₀ : Assembler) (low : Int32) (default : Label) (targets : List Label)
    (s : TableSwitch) (a : Assembler) : Prop where
  extends_ : Extends a₀
    ((LabelledInstruction.tableSwitch low default targets).parts a₀.offset) a
  stands : a.code.Stands s.high (a₀.offset + sizeOf (tableStart a₀.offset low default))
  size_eq : s.high.size = 4
  origin_eq : s.origin = a₀.offset
  low_eq : s.low = low
  counts : CountsKeys low s targets

/-- The parts of a table around the field of its highest key. -/
theorem parts_tableSwitch (origin : Nat) (low : Int32) (default : Label) (targets : List Label) :
    (LabelledInstruction.tableSwitch low default targets).parts origin
      = tableStart origin low default
        ++ .bytes (BigEndian.encodeInt 4 (low.toInt + targets.length - 1))
          :: targets.map (switchTarget .tableSwitch origin) := by
  simp [LabelledInstruction.parts, tableStart]

/-- A table that has been started. -/
theorem tabulates_tableSwitch {low : Int32} {default : Label} {s : TableSwitch}
    (h : (tableSwitch low default).exec a₀ = (.ok s, a)) : Tabulates a₀ low default [] s a := by
  obtain ⟨origin, b, hheader, h⟩ := exec_bind_eq_ok.mp h
  rw [exec_switchHeader] at hheader
  split at hheader
  · cases hheader
  · obtain ⟨_, hjump, rfl⟩ := exec_map_eq_ok.mp hheader
    obtain ⟨b', hjump', hstart⟩ := ((Extends.refl a₀).write _).jumpOperand .tableSwitch a₀.offset
      (isDefined_of_jumpOperand hjump)
    rw [hjump'] at hjump
    cases hjump
    have hlow : Extends a₀ (tableStart a₀.offset low default)
        (b.write (BigEndian.u4 low.toUInt32)) := by
      rw [tableStart, ← BigEndian.u4_toUInt32]
      exact hstart.write _
    obtain ⟨hroom, hstands⟩ := hlow.reserved
    have hnew : (BigEndian.u4 (low - 1).toUInt32).length = 4 := BigEndian.length_encode _ _
    have hhigh := hroom.patch hstands hnew (Nat.le_of_eq hnew)
    -- Without cases the highest key is one below the lowest.
    have hkeys : low.toInt + (([] : List Label).length : Int) - 1 = low.toInt - 1 := by simp
    simp only [exec_bind (append _), exec_append, exec_bind (reserve _), exec_reserve,
      exec_bind (Assembler.patch _ _), exec_patch] at h
    cases h
    refine ⟨?_, hstands.overwrite _ 0 _, rfl, rfl, rfl, ?_⟩
    · rw [parts_tableSwitch, hkeys, ← u4_sub_one]
      exact hhigh
    · -- The lowest key is the next one.
      refine ⟨fun key hkey => ?_, fun hnone => ?_⟩
      · cases hkey
        simp
      · cases hnone

/-- A case that is added comes last, and is that of the highest key. -/
theorem Tabulates.addCase {low : Int32} {default target : Label} {targets : List Label}
    {s s' : TableSwitch} (h : Tabulates a₀ low default targets s a)
    (hexec : (s.addCase target).exec a = (.ok s', b)) :
    Tabulates a₀ low default (targets ++ [target]) s' b := by
  have hcounts := countsKeys_addCase target a h.counts
  rw [hexec] at hcounts
  rw [exec_tableCase] at hexec
  cases hkey : s.nextKey with
  | none =>
    rw [hkey] at hexec
    cases hexec
  | some key =>
    simp only [hkey] at hexec
    split at hexec
    · cases hexec
    · obtain ⟨_, c, hjump, hpatch⟩ := exec_bind_eq_ok.mp hexec
      obtain ⟨_, hpatch, rfl⟩ := exec_map_eq_ok.mp hpatch
      obtain ⟨c', hjump', hmore⟩ := h.extends_.jumpOperand .tableSwitch s.origin
        (isDefined_of_jumpOperand hjump)
      have hstands := keeps_jumpOperand .tableSwitch s.origin .wide target a _ _ h.stands
      rw [hjump'] at hjump hstands
      cases hjump
      cases hpatch
      -- The operand stands behind those of the other cases, and then the highest key is patched.
      rw [h.origin_eq, parts_tableSwitch, List.append_assoc, List.cons_append] at hmore
      have hnew : (BigEndian.u4 key.toUInt32).length = 4 := BigEndian.length_encode _ _
      have hhigh := hmore.patch hstands (hnew.trans (BigEndian.length_encodeInt 4 _).symm)
        (Nat.le_of_eq (hnew.trans h.size_eq.symm))
      have hkeys : low.toInt + ((targets ++ [target]).length : Int) - 1 = key.toInt := by
        rw [h.counts.of_some key hkey, List.length_append, List.length_singleton]
        omega
      refine ⟨?_, hstands.overwrite _ 0 _, h.size_eq, h.origin_eq, h.low_eq, hcounts⟩
      rw [parts_tableSwitch, hkeys, ← BigEndian.u4_toUInt32, List.map_append]
      exact hhigh

/-- A case is refused when there is no key for it or no room, and otherwise it is added. -/
theorem Tabulates.exec_addCase {low : Int32} {default target : Label} {targets : List Label}
    {s : TableSwitch} (h : Tabulates a₀ low default targets s a) (hdef : a.isDefined target) :
    if 2147483647 < low.toInt + targets.length then
      (s.addCase target).exec a
        = (.error (.tableOverflow "tableswitch" (TableSwitch.keyLimit low)), a)
    else if maxCodeSize < a.offset + 4 then
      (s.addCase target).exec a = (.error (.codeOverflow (a.offset + 4)), a)
    else
      ∃ s' b, (s.addCase target).exec a = (.ok s', b) := by
  rw [exec_tableCase, h.low_eq]
  cases hkey : s.nextKey with
  | none =>
    have hcount := h.counts.of_none hkey
    rw [if_pos (by omega)]
  | some key =>
    have hcount := h.counts.of_some key hkey
    have hlt := key.toInt_lt
    rw [if_neg (by omega)]
    by_cases hroom : maxCodeSize < a.offset + 4
    · rw [if_pos hroom]
      simp only [if_pos hroom]
    · rw [if_neg hroom]
      obtain ⟨b, hb, -⟩ := h.extends_.jumpOperand .tableSwitch s.origin hdef
      simp only [if_neg hroom, exec_bind, hb]
      exact ⟨_, _, rfl⟩

/-! ## Runs -/

/-- A table that is started behind any code, and calls for cases of it.  The targets are those of
the cases that were added. -/
inductive TableRun (a₀ : Assembler) (low : Int32) (default : Label) :
    List Label → TableSwitch → Assembler → Prop
  | start {s : TableSwitch} {a : Assembler} (h : (tableSwitch low default).exec a₀ = (.ok s, a)) :
    TableRun a₀ low default [] s a
  | added {targets : List Label} {target : Label} {s s' : TableSwitch} {a b : Assembler}
    (h : TableRun a₀ low default targets s a) (hexec : (s.addCase target).exec a = (.ok s', b)) :
    TableRun a₀ low default (targets ++ [target]) s' b
  | refused {targets : List Label} {target : Label} {s : TableSwitch} {a b : Assembler} {e : Error}
    (h : TableRun a₀ low default targets s a) (hexec : (s.addCase target).exec a = (.error e, b)) :
    TableRun a₀ low default targets s b

theorem tabulates_of_run {low : Int32} {default : Label} {targets : List Label} {s : TableSwitch}
    (h : TableRun a₀ low default targets s a) : Tabulates a₀ low default targets s a := by
  induction h with
  | start h => exact tabulates_tableSwitch h
  | added _ hexec ih => exact ih.addCase hexec
  | refused _ hexec ih => exact exec_tableCase_error hexec ▸ ih

/-! ## The bytes of a table -/

/-- The highest key of a table with so many cases. -/
def highestKey (low : Int32) (cases : Nat) : Int32 := Int32.ofInt (low.toInt + cases - 1)

/-- The operand of a table that leads to a label. -/
def tableOperand (offset? : Label → Option Nat) (origin : Nat) (target : Label) : List UInt8 :=
  (switchTarget .tableSwitch origin target).render offset?

/-- The opcode of a table, its padding, the default target, the lowest and the highest key, and a
target for each key. -/
def tableBytes (offset? : Label → Option Nat) (origin : Nat) (low : Int32) (default : Label)
    (targets : List Label) : List UInt8 :=
  Opcode.tableSwitch.byte :: List.replicate (switchPadding origin) 0
    ++ tableOperand offset? origin default
    ++ BigEndian.u4 low.toUInt32
    ++ BigEndian.u4 (highestKey low targets.length).toUInt32
    ++ targets.flatMap (tableOperand offset? origin)

theorem u4_highestKey (low : Int32) (cases : Nat) :
    BigEndian.u4 (highestKey low cases).toUInt32
      = BigEndian.encodeInt 4 (low.toInt + cases - 1) := by
  rw [BigEndian.u4_toUInt32, highestKey, Int32.toInt_ofInt]
  exact BigEndian.encodeInt_congr Int.bmod_emod

theorem render_tableSwitch (offset? : Label → Option Nat) (origin : Nat) (low : Int32)
    (default : Label) (targets : List Label) :
    render offset? ((LabelledInstruction.tableSwitch low default targets).parts origin)
      = tableBytes offset? origin low default targets := by
  have htargets : render offset? (targets.map (switchTarget .tableSwitch origin))
      = targets.flatMap (tableOperand offset? origin) := by
    rw [render, List.flatMap_map]
    rfl
  rw [parts_tableSwitch, tableStart, switchStart, tableBytes, u4_highestKey,
    BigEndian.u4_toUInt32, ← htargets]
  simp [Part.render, tableOperand]

@[simp] theorem length_tableOperand (offset? : Label → Option Nat) (origin : Nat) (l : Label) :
    (tableOperand offset? origin l).length = 4 := Part.length_render _ _

theorem length_targets (offset? : Label → Option Nat) (origin : Nat) (targets : List Label) :
    (targets.flatMap (tableOperand offset? origin)).length = 4 * targets.length := by
  simp [List.length_flatMap, Nat.mul_comm]

/-- The table without its cases. -/
theorem length_tableBytes (offset? : Label → Option Nat) (origin : Nat) (low : Int32)
    (default : Label) (targets : List Label) :
    (tableBytes offset? origin low default targets).length
      = 1 + switchPadding origin + 12 + 4 * targets.length := by
  rw [tableBytes, List.length_append, length_targets]
  simp [BigEndian.u4]
  omega

/-- The highest key is a number of four bytes, unless the lowest has no predecessor. -/
theorem toInt_highestKey {low : Int32} {cases : Nat} (hle : low.toInt + cases ≤ 2147483648)
    (hne : cases ≠ 0 ∨ low ≠ Int32.minValue) :
    (highestKey low cases).toInt = low.toInt + cases - 1 := by
  have hmin := low.le_toInt
  have hlow : -2147483648 ≤ low.toInt + cases - 1 := by
    rcases hne with hne | hne
    · omega
    · have hlow : low.toInt ≠ -2147483648 := fun heq => hne (Int32.toInt_inj.mp heq)
      omega
  exact Int32.toInt_ofInt_of_le (by omega) (by omega)

/-- A table has the size that its keys ask for, whatever stands behind it. -/
theorem instructionSize_tableBytes (offset? : Label → Option Nat) (origin : Nat) {low : Int32}
    (default : Label) {targets : List Label} (hle : low.toInt + targets.length ≤ 2147483648)
    (hne : targets.length ≠ 0 ∨ low ≠ Int32.minValue) (rest : List UInt8) :
    Listing.instructionSize origin .tableSwitch (tableBytes offset? origin low default targets ++ rest)
      = .ok (tableBytes offset? origin low default targets).length := by
  have hkeys := toInt_highestKey hle hne
  have hlow := (highestKey low targets.length).le_toInt
  let i : CodedInstruction :=
    ⟨origin, .tableSwitch, (tableBytes offset? origin low default targets).tail⟩
  have hencode : i.encode = tableBytes offset? origin low default targets := rfl
  have hbytes : i.encode = (Opcode.tableSwitch.byte :: List.replicate (switchPadding origin) 0
      ++ tableOperand offset? origin default)
      ++ (BigEndian.encodeInt 4 low.toInt
        ++ (BigEndian.encodeInt 4 (low.toInt + targets.length - 1)
          ++ targets.flatMap (tableOperand offset? origin))) := by
    rw [hencode, tableBytes, u4_highestKey, BigEndian.u4_toUInt32]
    simp only [List.append_assoc]
  have hstart : (Opcode.tableSwitch.byte :: List.replicate (switchPadding origin) 0
      ++ tableOperand offset? origin default).length = 1 + (3 - i.offset % 4) + 4 := by
    simp only [List.length_append, List.length_cons, List.length_replicate, length_tableOperand]
    show switchPadding origin + 1 + 4 = 1 + switchPadding origin + 4
    omega
  have hsized := CodedInstruction.sized_of_tableSwitch rfl hbytes hstart
    (length_targets offset? origin targets) low.le_toInt low.toInt_lt (by omega) hle
  rw [← hencode]
  exact Listing.instructionSize_congr (by simp) hsized

/-- The target of each case stands at the place of its key. -/
theorem target_of_tableBytes (offset? : Label → Option Nat) (origin : Nat) (low : Int32)
    (default target : Label) (before after : List Label) :
    ((tableBytes offset? origin low default (before ++ target :: after)).drop
        (1 + switchPadding origin + 12 + 4 * before.length)).take 4
      = tableOperand offset? origin target := by
  obtain ⟨start, hbytes, hstart⟩ : ∃ start,
      tableBytes offset? origin low default (before ++ target :: after)
        = start ++ (before ++ target :: after).flatMap (tableOperand offset? origin)
      ∧ start.length = 1 + switchPadding origin + 12 := by
    refine ⟨_, rfl, ?_⟩
    simp [BigEndian.u4]
    omega
  have hlen : (start ++ before.flatMap (tableOperand offset? origin)).length
      = 1 + switchPadding origin + 12 + 4 * before.length := by
    rw [List.length_append, hstart, length_targets]
  rw [hbytes, List.flatMap_append, List.flatMap_cons, ← List.append_assoc, List.drop_left' hlen,
    List.take_left' (length_tableOperand _ _ _)]

/-! ## The layout -/

/-- How a table stands behind the code that was there when it was started. -/
structure TableLayout (a₀ : Assembler) (low : Int32) (default : Label) (targets : List Label)
    (a : Assembler) : Prop where
  code_eq : a.code.toList
    = a₀.code.toList ++ tableBytes a₀.labelOffset? a₀.offset low default targets
  /-- The padding ends at a multiple of four. -/
  padding : switchPadding a₀.offset < 4 ∧ (a₀.offset + 1 + switchPadding a₀.offset) % 4 = 0
  length_eq : (tableBytes a₀.labelOffset? a₀.offset low default targets).length
    = 1 + switchPadding a₀.offset + 12 + 4 * targets.length
  /-- A jump waits at each operand that is not filled in. -/
  awaits : ∀ l, a₀.labelOffset? l = none → ∃ js, a.pending l = a₀.pending l ++ js ∧
    List.Forall₂ (Awaits a.code) js (sites l a₀.offset
      ((LabelledInstruction.tableSwitch low default targets).parts a₀.offset))
  /-- Every target is that of a key, counted up from the lowest. -/
  target_eq : ∀ before target after, targets = before ++ target :: after →
    (∃ key : Int32, key.toInt = low.toInt + before.length) ∧
    ((tableBytes a₀.labelOffset? a₀.offset low default targets).drop
        (1 + switchPadding a₀.offset + 12 + 4 * before.length)).take 4
      = tableOperand a₀.labelOffset? a₀.offset target
  /-- The keys are counted by the lowest and the highest, unless there is no number for these. -/
  keys : targets.length ≠ 0 ∨ low ≠ Int32.minValue →
    (highestKey low targets.length).toInt - low.toInt + 1 = targets.length
  sized : targets.length ≠ 0 ∨ low ≠ Int32.minValue → ∀ rest,
    Listing.instructionSize a₀.offset .tableSwitch
        (tableBytes a₀.labelOffset? a₀.offset low default targets ++ rest)
      = .ok (tableBytes a₀.labelOffset? a₀.offset low default targets).length

/-- A table that was started behind any code, after any calls for cases of it, consists of its
opcode, the padding, the default target, the lowest key and the highest one, and the targets of the
cases that were added; the keys count these targets, unless there are none and the lowest key has no
predecessor.  The next case is refused if its key would be too large or if there is no room for it,
and then nothing changes; a case with a defined label is not refused for any other reason. -/
theorem tableSwitch_layout {low : Int32} {default : Label} {targets : List Label} {s : TableSwitch}
    (h : TableRun a₀ low default targets s a) :
    TableLayout a₀ low default targets a ∧
    ∀ target, a.isDefined target →
      if 2147483647 < low.toInt + targets.length then
        (s.addCase target).exec a
          = (.error (.tableOverflow "tableswitch" (TableSwitch.keyLimit low)), a)
      else if maxCodeSize < a.offset + 4 then
        (s.addCase target).exec a = (.error (.codeOverflow (a.offset + 4)), a)
      else
        ∃ s' b, (s.addCase target).exec a = (.ok s', b) := by
  have htable := tabulates_of_run h
  have hle := htable.counts.le
  refine ⟨⟨?_, ?_, length_tableBytes _ _ _ _ _, htable.extends_.awaits, ?_, fun hne => ?_,
    fun hne => instructionSize_tableBytes _ _ _ hle hne⟩, fun _ hdef => htable.exec_addCase hdef⟩
  · rw [htable.extends_.code_eq, render_tableSwitch]
  · unfold switchPadding
    omega
  · rintro before target after rfl
    have hmin := low.le_toInt
    rw [List.length_append, List.length_cons] at hle
    exact ⟨⟨Int32.ofInt (low.toInt + before.length),
      Int32.toInt_ofInt_of_le (by omega) (by omega)⟩, target_of_tableBytes _ _ _ _ _ _ _⟩
  · have hkeys := toInt_highestKey hle hne
    omega

/-- An assembler with one label, at a position that is not a multiple of four. -/
def afterOneByte : Assembler := (here.exec (empty.write [0])).2

/-- The largest key of all and none after it: the second case is refused. -/
theorem tableSwitch_layout_of_maxValue :
    ∃ s a, TableRun afterOneByte Int32.maxValue ⟨0⟩ [⟨0⟩] s a ∧
      TableLayout afterOneByte Int32.maxValue ⟨0⟩ [⟨0⟩] a ∧
      (s.addCase ⟨0⟩).exec a = (.error (.tableOverflow "tableswitch" 1), a) := by
  have hstart : TableRun afterOneByte Int32.maxValue ⟨0⟩ [] _ _ := .start rfl
  have hadded : TableRun afterOneByte Int32.maxValue ⟨0⟩ [⟨0⟩] _ _ := hstart.added rfl
  have hlayout := tableSwitch_layout hadded
  exact ⟨_, _, hadded, hlayout.1, hlayout.2 ⟨0⟩ rfl⟩

/-- Without cases, the highest key is one below the lowest, and wraps around if there is none. -/
theorem highestKey_wraps :
    ¬ ∀ (a₀ : Assembler) (low : Int32) (default : Label) (targets : List Label) (s : TableSwitch)
      (a : Assembler), TableRun a₀ low default targets s a →
      ∃ high : Int, Listing.switchField a₀.offset (1 + switchPadding a₀.offset + 8)
          (a.code.toList.drop a₀.offset) = .ok high ∧
        high - low.toInt + 1 = targets.length := by
  intro h
  have hstart : TableRun afterOneByte Int32.minValue ⟨0⟩ [] _ _ := .start rfl
  obtain ⟨high, hfield, hcount⟩ := h _ _ _ _ _ _ hstart
  have hmax : (.ok 2147483647 : Except Error Int) = .ok high := hfield
  cases hmax
  exact absurd hcount (by decide)

end JvmClass.Assembler
