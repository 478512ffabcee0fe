import JvmClass.Proofs.Code.Bounds
import JvmClass.Proofs.Code.TableLayout

/-!
# The layout of a lookup

A `lookupswitch` is searched by halving, so that its keys have to stand in order.  The assembler
only compares a key with the last one that it took; since all others are below that one, this is
enough to keep the whole list in order, whichever keys were refused on the way.

A `LookupRun` starts a `lookupswitch` behind any code and calls for cases, each of which is added or
refused.  After every such run the switch stands behind the old code as `lookupBytes` says.

## Key results

- `OrdersKeys.checkKey_eq_ok_iff`: a key is taken if it is above all others
- `OrdersKeys.append`: the order is kept by a key that is taken
- `collects_of_run`: what holds of a lookup throughout a run
- `lookupSwitch_layout`: the lookup after every run
-/

namespace JvmClass.Assembler

open JvmClass.Action

variable {a₀ a b : Assembler}

/-! ## Keys in order -/

/-- The keys of a lookup with the given cases so far are in order, and the last of them is known. -/
structure OrdersKeys (s : LookupSwitch) (cases : List (Int32 × Label)) : Prop where
  increasing : (cases.map fun c => c.1.toInt).Pairwise (· < ·)
  lastKey_eq : s.lastKey = cases.getLast?.map Prod.fst

namespace OrdersKeys

variable {s : LookupSwitch} {cases : List (Int32 × Label)}

theorem lastKey_eq_none (h : OrdersKeys s cases) : s.lastKey = none ↔ cases = [] := by
  rw [h.lastKey_eq, Option.map_eq_none_iff, List.getLast?_eq_none_iff]

/-- The last key is the largest. -/
theorem le_lastKey (h : OrdersKeys s cases) {previous : Int32} (hlast : s.lastKey = some previous)
    {c : Int32 × Label} (hc : c ∈ cases) : c.1.toInt ≤ previous.toInt := by
  rcases List.eq_nil_or_concat cases with rfl | ⟨before, last, rfl⟩
  · cases hc
  · rw [List.concat_eq_append] at h hc
    have hprevious := h.lastKey_eq
    rw [hlast, List.getLast?_concat] at hprevious
    cases hprevious
    have hincreasing := h.increasing
    rw [List.map_append, List.pairwise_append] at hincreasing
    rcases List.mem_append.mp hc with hc | hc
    · exact Int.le_of_lt (hincreasing.2.2 _ (List.mem_map_of_mem hc) _ List.mem_cons_self)
    · cases List.mem_singleton.mp hc
      exact Int.le_refl _

/-- The last key is that of a case. -/
theorem exists_of_lastKey (h : OrdersKeys s cases) {previous : Int32}
    (hlast : s.lastKey = some previous) : ∃ target, (previous, target) ∈ cases := by
  rw [h.lastKey_eq] at hlast
  obtain ⟨⟨key, target⟩, hc, rfl⟩ := Option.map_eq_some_iff.mp hlast
  exact ⟨target, List.mem_of_getLast? hc⟩

/-- A key is taken if it is above all others, though it is compared with the last one only. -/
theorem checkKey_eq_ok_iff (h : OrdersKeys s cases) (key : Int32) :
    s.checkKey key = .ok () ↔ ∀ c ∈ cases, c.1.toInt < key.toInt := by
  unfold LookupSwitch.checkKey
  cases hlast : s.lastKey with
  | none => simp [h.lastKey_eq_none.mp hlast]
  | some previous =>
    obtain ⟨target, hmem⟩ := h.exists_of_lastKey hlast
    by_cases hle : key ≤ previous
    · have hle : key.toInt ≤ previous.toInt := Int32.le_iff_toInt_le.mp hle
      simp only [Int32.le_iff_toInt_le, hle, if_true, reduceCtorEq, false_iff]
      intro habove
      exact absurd (habove _ hmem) (Int.not_lt.mpr hle)
    · have hlt : previous.toInt < key.toInt := by
        rw [Int32.le_iff_toInt_le] at hle
        omega
      simp only [hle, if_false, true_iff]
      intro c hc
      have := h.le_lastKey hlast hc
      omega

/-- A key that is not above all others is refused for the last of them. -/
theorem checkKey_eq_error (h : OrdersKeys s cases) {key : Int32} {c : Int32 × Label}
    (hc : c ∈ cases) (hle : key.toInt ≤ c.1.toInt) :
    ∃ last, cases.getLast? = some last ∧ s.checkKey key = .error (.unorderedKeys last.1 key) := by
  cases hlast : s.lastKey with
  | none =>
    rw [h.lastKey_eq_none.mp hlast] at hc
    cases hc
  | some previous =>
    have hprevious : key ≤ previous := by
      have := h.le_lastKey hlast hc
      rw [Int32.le_iff_toInt_le]
      omega
    have heq := h.lastKey_eq
    rw [hlast] at heq
    obtain ⟨last, hgetLast, rfl⟩ := Option.map_eq_some_iff.mp heq.symm
    refine ⟨last, hgetLast, ?_⟩
    unfold LookupSwitch.checkKey
    simp only [hlast, hprevious, if_true]

/-- The order is kept by a key that is taken. -/
theorem append (h : OrdersKeys s cases) {key : Int32} (hkey : s.checkKey key = .ok ())
    (target : Label) (pairs : Nat) :
    OrdersKeys { s with pairs, lastKey := some key } (cases ++ [(key, target)]) := by
  constructor
  · rw [List.map_append, List.pairwise_append]
    refine ⟨h.increasing, List.pairwise_singleton _ _, fun z hz y hy => ?_⟩
    obtain ⟨c, hc, rfl⟩ := List.mem_map.mp hz
    cases List.mem_singleton.mp hy
    exact (h.checkKey_eq_ok_iff key).mp hkey c hc
  · rw [List.getLast?_concat]
    rfl

end OrdersKeys

/-! ## Lookups -/

/-- What is true of a lookup while cases are added: the parts that stand behind the old code, the
field that counts the cases, and the order of the keys. -/
structure Collects (a₀ : Assembler) (default : Label) (cases : List (Int32 × Label))
    (s : LookupSwitch) (a : Assembler) : Prop where
  extends_ : Extends a₀ ((LabelledInstruction.lookupSwitch default cases).parts a₀.offset) a
  stands : a.code.Stands s.pairCount
    (a₀.offset + sizeOf (switchStart .lookupSwitch a₀.offset default))
  size_eq : s.pairCount.size = 4
  origin_eq : s.origin = a₀.offset
  pairs_eq : s.pairs = cases.length
  orders : OrdersKeys s cases
  offset_le : a.offset ≤ maxCodeSize

/-- The parts of a lookup around the field that counts its cases. -/
theorem parts_lookupSwitch (origin : Nat) (default : Label) (cases : List (Int32 × Label)) :
    (LabelledInstruction.lookupSwitch default cases).parts origin
      = switchStart .lookupSwitch origin default
        ++ .bytes (BigEndian.encode 4 cases.length) :: cases.flatMap (lookupCase origin) := by
  simp [LabelledInstruction.parts]

/-- A lookup that has been started. -/
theorem collects_lookupSwitch {default : Label} {s : LookupSwitch}
    (h : (lookupSwitch default).exec a₀ = (.ok s, a)) : Collects a₀ default [] s a := by
  obtain ⟨origin, b, hheader, h⟩ := exec_bind_eq_ok.mp h
  obtain ⟨rfl, hoffset, hfits⟩ := switchHeader_eq_ok hheader
  rw [exec_switchHeader, if_neg (by omega)] at hheader
  obtain ⟨_, hjump, -⟩ := exec_map_eq_ok.mp hheader
  obtain ⟨b', hjump', hstart⟩ := ((Extends.refl a₀).write _).jumpOperand .lookupSwitch a₀.offset
    (isDefined_of_jumpOperand hjump)
  rw [hjump'] at hjump
  cases hjump
  -- There are no cases yet, which is what the room for their number says.
  obtain ⟨hroom, hstands⟩ := hstart.reserved
  have hle : (b.reserved 4).offset ≤ maxCodeSize := by
    rw [offset_reserved]
    omega
  cases h
  exact ⟨hroom, hstands, rfl, rfl, rfl, ⟨.nil, rfl⟩, hle⟩

/-- A case that is added has a key above all others, and comes last. -/
theorem Collects.addCase {default : Label} {cases : List (Int32 × Label)} {s s' : LookupSwitch}
    (h : Collects a₀ default cases s a) {key : Int32} {target : Label}
    (hexec : (s.addCase key target).exec a = (.ok s', b)) :
    Collects a₀ default (cases ++ [(key, target)]) s' b := by
  rw [exec_lookupCase] at hexec
  cases hkey : s.checkKey key with
  | error e =>
    rw [hkey] at hexec
    cases hexec
  | ok _ =>
    simp only [hkey] at hexec
    split at hexec
    · cases hexec
    rename_i hroom
    obtain ⟨_, c, hjump, hpatch⟩ := exec_bind_eq_ok.mp hexec
    obtain ⟨_, hpatch, rfl⟩ := exec_map_eq_ok.mp hpatch
    have hwritten := h.extends_.write (BigEndian.u4 key.toUInt32)
    obtain ⟨c', hjump', hmore⟩ := hwritten.jumpOperand .lookupSwitch s.origin
      (isDefined_of_jumpOperand hjump)
    have hstands := keeps_jumpOperand .lookupSwitch s.origin .wide target
      (a.write (BigEndian.u4 key.toUInt32)) _ _ (h.stands.append _)
    rw [hjump'] at hjump hstands
    cases hjump
    cases hpatch
    have hoffset : c.offset = a.offset + 8 := by
      have hkeyLen : (BigEndian.u4 key.toUInt32).length = 4 := BigEndian.length_encode _ _
      rw [hmore.offset_eq, h.extends_.offset_eq]
      simp [switchTarget, Part.size, JumpWidth.bytes, hkeyLen, Nat.add_assoc]
    -- The key and the operand stand behind the other cases, and then their number is patched.
    rw [h.origin_eq, parts_lookupSwitch, List.append_assoc, List.append_assoc, List.cons_append]
      at hmore
    have hnew : (BigEndian.encode 4 (s.pairs + 1)).length = 4 := BigEndian.length_encode _ _
    have hcount := hmore.patch hstands (hnew.trans (BigEndian.length_encode 4 _).symm)
      (Nat.le_of_eq (hnew.trans h.size_eq.symm))
    have hparts : (LabelledInstruction.lookupSwitch default (cases ++ [(key, target)])).parts
        a₀.offset = switchStart .lookupSwitch a₀.offset default
          ++ .bytes (BigEndian.encode 4 (s.pairs + 1))
            :: (cases.flatMap (lookupCase a₀.offset)
              ++ ([.bytes (BigEndian.u4 key.toUInt32)]
                ++ [switchTarget .lookupSwitch a₀.offset target])) := by
      rw [parts_lookupSwitch, List.length_append, h.pairs_eq]
      simp [lookupCase]
    refine ⟨hparts ▸ hcount, hstands.overwrite _ 0 _, h.size_eq, h.origin_eq, ?_,
      h.orders.append hkey target _, ?_⟩
    · rw [List.length_append, h.pairs_eq]
      rfl
    · rw [offset_overwrite, hoffset]
      omega

/-! ## Calls for cases -/

/-- A case with a defined label is only refused before anything is written. -/
theorem exec_lookupCase_error {s : LookupSwitch} {key : Int32} {target : Label} {e : Error}
    (hdef : a.isDefined target) (h : (s.addCase key target).exec a = (.error e, b)) : b = a := by
  rw [exec_lookupCase] at h
  split at h
  · cases h
    rfl
  split at h
  · cases h
    rfl
  · have hdef' : (a.write (BigEndian.u4 key.toUInt32)).isDefined target := hdef
    obtain ⟨c, hc, -⟩ := exec_wideOperand .lookupSwitch s.origin hdef'
    rcases exec_bind_eq_error.mp h with h | ⟨_, d, -, h⟩
    · rw [hc] at h
      cases h
    · cases h

/-- A key is refused before its target is looked at. -/
theorem exec_lookupCase_of_checkKey {s : LookupSwitch} {key : Int32} {e : Error}
    (h : s.checkKey key = .error e) (target : Label) (a : Assembler) :
    (s.addCase key target).exec a = (.error e, a) := by
  rw [exec_lookupCase, h]

/-- A key above all others is not refused for the order. -/
theorem checkKey_of_unorderedKeys {s : LookupSwitch} {key previous key' : Int32} {target : Label}
    (h : (s.addCase key target).exec a = (.error (.unorderedKeys previous key'), b)) :
    s.checkKey key ≠ .ok () := by
  intro hcheck
  rw [exec_lookupCase, hcheck] at h
  simp only at h
  split at h
  · cases h
  rcases exec_bind_eq_error.mp h with hjump | ⟨_, c, -, hpatch⟩
  · exact absurd (exec_wideOperand_error hjump).1 nofun
  · cases hpatch

/-- A case is refused for the order exactly if its key is not above all others. -/
theorem Collects.unordered_iff {default : Label} {cases : List (Int32 × Label)} {s : LookupSwitch}
    (h : Collects a₀ default cases s a) (key : Int32) (target : Label) :
    (∃ previous key' b, (s.addCase key target).exec a = (.error (.unorderedKeys previous key'), b))
      ↔ ∃ c ∈ cases, key.toInt ≤ c.1.toInt := by
  constructor
  · rintro ⟨previous, key', b, hexec⟩
    by_contra hnone
    apply checkKey_of_unorderedKeys hexec
    rw [h.orders.checkKey_eq_ok_iff]
    intro c hc
    by_contra hle
    exact hnone ⟨c, hc, by omega⟩
  · rintro ⟨c, hc, hle⟩
    obtain ⟨last, -, hcheck⟩ := h.orders.checkKey_eq_error hc hle
    exact ⟨_, _, _, exec_lookupCase_of_checkKey hcheck target a⟩

/-- A case with a key above all others is refused when there is no room, and otherwise added. -/
theorem Collects.exec_addCase {default : Label} {cases : List (Int32 × Label)} {s : LookupSwitch}
    (h : Collects a₀ default cases s a) {key : Int32} {target : Label} (hdef : a.isDefined target)
    (habove : ∀ c ∈ cases, c.1.toInt < key.toInt) :
    if maxCodeSize < a.offset + 8 then
      (s.addCase key target).exec a = (.error (.codeOverflow (a.offset + 8)), a)
    else
      ∃ s' b, (s.addCase key target).exec a = (.ok s', b) := by
  rw [exec_lookupCase, (h.orders.checkKey_eq_ok_iff key).mpr habove]
  by_cases hroom : maxCodeSize < a.offset + 8
  · simp only [if_pos hroom]
  · have hdef' : (a.write (BigEndian.u4 key.toUInt32)).isDefined target := hdef
    obtain ⟨b, hb, -⟩ := exec_wideOperand .lookupSwitch s.origin hdef'
    simp only [if_neg hroom, exec_bind, hb]
    exact ⟨_, _, rfl⟩

/-- A lookup that is started behind any code, and calls for cases of it with labels that are
defined.  The cases are those that were added. -/
inductive LookupRun (a₀ : Assembler) (default : Label) :
    List (Int32 × Label) → LookupSwitch → Assembler → Prop
  | start {s : LookupSwitch} {a : Assembler} (h : (lookupSwitch default).exec a₀ = (.ok s, a)) :
    LookupRun a₀ default [] s a
  | added {cases : List (Int32 × Label)} {key : Int32} {target : Label} {s s' : LookupSwitch}
    {a b : Assembler} (h : LookupRun a₀ default cases s a)
    (hexec : (s.addCase key target).exec a = (.ok s', b)) :
    LookupRun a₀ default (cases ++ [(key, target)]) s' b
  | refused {cases : List (Int32 × Label)} {key : Int32} {target : Label} {s : LookupSwitch}
    {a b : Assembler} {e : Error} (h : LookupRun a₀ default cases s a)
    (hdef : a.isDefined target) (hexec : (s.addCase key target).exec a = (.error e, b)) :
    LookupRun a₀ default cases s b

theorem collects_of_run {default : Label} {cases : List (Int32 × Label)} {s : LookupSwitch}
    (h : LookupRun a₀ default cases s a) : Collects a₀ default cases s a := by
  induction h with
  | start h => exact collects_lookupSwitch h
  | added _ hexec ih => exact ih.addCase hexec
  | refused _ hdef hexec ih => exact exec_lookupCase_error hdef hexec ▸ ih

/-! ## The bytes of a lookup -/

/-- The operand of a lookup that leads to a label. -/
def lookupOperand (offset? : Label → Option Nat) (origin : Nat) (target : Label) : List UInt8 :=
  (switchTarget .lookupSwitch origin target).render offset?

/-- A key and its target. -/
def pairBytes (offset? : Label → Option Nat) (origin : Nat) (c : Int32 × Label) : List UInt8 :=
  BigEndian.u4 c.1.toUInt32 ++ lookupOperand offset? origin c.2

/-- The opcode of a lookup, its padding, the default target, the number of cases, and a pair of a
key and a target for each of them. -/
def lookupBytes (offset? : Label → Option Nat) (origin : Nat) (default : Label)
    (cases : List (Int32 × Label)) : List UInt8 :=
  Opcode.lookupSwitch.byte :: List.replicate (switchPadding origin) 0
    ++ lookupOperand offset? origin default
    ++ BigEndian.encode 4 cases.length
    ++ cases.flatMap (pairBytes offset? origin)

theorem render_lookupSwitch (offset? : Label → Option Nat) (origin : Nat) (default : Label)
    (cases : List (Int32 × Label)) :
    render offset? ((LabelledInstruction.lookupSwitch default cases).parts origin)
      = lookupBytes offset? origin default cases := by
  have hcases : render offset? (cases.flatMap (lookupCase origin))
      = cases.flatMap (pairBytes offset? origin) := by
    rw [render, List.flatMap_assoc]
    congr 1
    funext c
    simp [lookupCase, pairBytes, lookupOperand, Part.render]
  rw [parts_lookupSwitch, render_append, render_cons, hcases, lookupBytes, switchStart]
  simp [Part.render, lookupOperand]

@[simp] theorem length_lookupOperand (offset? : Label → Option Nat) (origin : Nat) (l : Label) :
    (lookupOperand offset? origin l).length = 4 := Part.length_render _ _

@[simp] theorem length_pairBytes (offset? : Label → Option Nat) (origin : Nat)
    (c : Int32 × Label) : (pairBytes offset? origin c).length = 8 := by
  simp [pairBytes, BigEndian.u4]

theorem length_pairs (offset? : Label → Option Nat) (origin : Nat) (cases : List (Int32 × Label)) :
    (cases.flatMap (pairBytes offset? origin)).length = 8 * cases.length := by
  simp [List.length_flatMap, Nat.mul_comm]

theorem length_lookupBytes (offset? : Label → Option Nat) (origin : Nat) (default : Label)
    (cases : List (Int32 × Label)) :
    (lookupBytes offset? origin default cases).length
      = 1 + switchPadding origin + 8 + 8 * cases.length := by
  rw [lookupBytes, List.length_append, length_pairs]
  simp
  omega

/-- The pair of each case stands at its place. -/
theorem pair_of_lookupBytes (offset? : Label → Option Nat) (origin : Nat) (default : Label)
    (c : Int32 × Label) (before after : List (Int32 × Label)) :
    ((lookupBytes offset? origin default (before ++ c :: after)).drop
        (1 + switchPadding origin + 8 + 8 * before.length)).take 8
      = pairBytes offset? origin c := by
  obtain ⟨start, hbytes, hstart⟩ : ∃ start,
      lookupBytes offset? origin default (before ++ c :: after)
        = start ++ (before ++ c :: after).flatMap (pairBytes offset? origin)
      ∧ start.length = 1 + switchPadding origin + 8 := by
    refine ⟨_, rfl, ?_⟩
    simp
    omega
  have hlen : (start ++ before.flatMap (pairBytes offset? origin)).length
      = 1 + switchPadding origin + 8 + 8 * before.length := by
    rw [List.length_append, hstart, length_pairs]
  rw [hbytes, List.flatMap_append, List.flatMap_cons, ← List.append_assoc, List.drop_left' hlen,
    List.take_left' (length_pairBytes _ _ _)]

/-- The number of cases stands before them. -/
theorem count_of_lookupBytes (offset? : Label → Option Nat) (origin : Nat) (default : Label)
    (cases : List (Int32 × Label)) :
    ((lookupBytes offset? origin default cases).drop (1 + switchPadding origin + 4)).take 4
      = BigEndian.encode 4 cases.length := by
  have hstart : (Opcode.lookupSwitch.byte :: List.replicate (switchPadding origin) 0
      ++ lookupOperand offset? origin default).length = 1 + switchPadding origin + 4 := by
    simp
    omega
  rw [lookupBytes, List.append_assoc, List.drop_left' hstart,
    List.take_left' (BigEndian.length_encode 4 _)]

/-! ## The layout -/

/-- How a lookup stands behind the code that was there when it was started. -/
structure LookupLayout (a₀ : Assembler) (default : Label) (cases : List (Int32 × Label))
    (a : Assembler) : Prop where
  code_eq : a.code.toList
    = a₀.code.toList ++ lookupBytes a₀.labelOffset? a₀.offset default cases
  /-- The padding ends at a multiple of four. -/
  padding : switchPadding a₀.offset < 4 ∧ (a₀.offset + 1 + switchPadding a₀.offset) % 4 = 0
  length_eq : (lookupBytes a₀.labelOffset? a₀.offset default cases).length
    = 1 + switchPadding a₀.offset + 8 + 8 * cases.length
  /-- The field in front of the pairs says how many there are. -/
  count_eq : BigEndian.decode (((lookupBytes a₀.labelOffset? a₀.offset default cases).drop
      (1 + switchPadding a₀.offset + 4)).take 4) = cases.length
  pair_eq : ∀ before c after, cases = before ++ c :: after →
    ((lookupBytes a₀.labelOffset? a₀.offset default cases).drop
        (1 + switchPadding a₀.offset + 8 + 8 * before.length)).take 8
      = pairBytes a₀.labelOffset? a₀.offset c
  increasing : (cases.map fun c => c.1.toInt).Pairwise (· < ·)
  /-- A jump waits at each operand that is not filled in. -/
  awaits : ∀ l, a₀.labelOffset? l = none → ∃ js, a.pending l = a₀.pending l ++ js ∧
    List.Forall₂ (Awaits a.code) js (sites l a₀.offset
      ((LabelledInstruction.lookupSwitch default cases).parts a₀.offset))

/-- A lookup that was started behind any code, after any calls for cases of it, consists of its
opcode, the padding, the default target, the number of the cases that were added, and a pair for
each of these, with keys that increase.  The next case is refused for the order exactly if its key
is not above all of them, with the last of them in the error, or else if there is no room for it;
in both cases nothing changes, and a case with a defined label is not refused for any other
reason. -/
theorem lookupSwitch_layout {default : Label} {cases : List (Int32 × Label)} {s : LookupSwitch}
    (h : LookupRun a₀ default cases s a) :
    LookupLayout a₀ default cases a ∧
    ∀ key target,
      ((∃ previous key' b,
          (s.addCase key target).exec a = (.error (.unorderedKeys previous key'), b))
        ↔ ∃ c ∈ cases, key.toInt ≤ c.1.toInt) ∧
      ((∃ c ∈ cases, key.toInt ≤ c.1.toInt) → ∃ last, cases.getLast? = some last ∧
        (s.addCase key target).exec a = (.error (.unorderedKeys last.1 key), a)) ∧
      ((∀ c ∈ cases, c.1.toInt < key.toInt) → a.isDefined target →
        if maxCodeSize < a.offset + 8 then
          (s.addCase key target).exec a = (.error (.codeOverflow (a.offset + 8)), a)
        else
          ∃ s' b, (s.addCase key target).exec a = (.ok s', b)) := by
  have hlookup := collects_of_run h
  constructor
  · have hcode : a.code.toList
        = a₀.code.toList ++ lookupBytes a₀.labelOffset? a₀.offset default cases := by
      rw [hlookup.extends_.code_eq, render_lookupSwitch]
    -- There are no more pairs than fit the code of a method, so that their number fits its field.
    have hcount : cases.length < 256 ^ 4 := by
      have hlen := congrArg List.length hcode
      have hle := hlookup.offset_le
      rw [List.length_append, length_lookupBytes, Buffer.length_toList] at hlen
      unfold offset maxCodeSize at hle
      omega
    refine ⟨hcode, ?_, length_lookupBytes _ _ _ _, ?_, ?_, hlookup.orders.increasing,
      hlookup.extends_.awaits⟩
    · unfold switchPadding
      omega
    · rw [count_of_lookupBytes, BigEndian.decode_encode_of_lt hcount]
    · rintro before c after rfl
      exact pair_of_lookupBytes _ _ _ _ _ _
  · intro key target
    refine ⟨hlookup.unordered_iff key target, ?_,
      fun habove hdef => hlookup.exec_addCase hdef habove⟩
    rintro ⟨c, hc, hle⟩
    obtain ⟨last, hlast, hcheck⟩ := hlookup.orders.checkKey_eq_error hc hle
    exact ⟨last, hlast, exec_lookupCase_of_checkKey hcheck target a⟩

/-- Keys of both signs with one between them that comes too late: the number that the field holds
is that of the cases that were added. -/
theorem lookupSwitch_layout_of_lateKey :
    ∃ s a, LookupRun afterOneByte ⟨0⟩ [(-10, ⟨0⟩), (7, ⟨0⟩)] s a ∧
      LookupLayout afterOneByte ⟨0⟩ [(-10, ⟨0⟩), (7, ⟨0⟩)] a ∧
      ∃ c ∈ [((-10 : Int32), (⟨0⟩ : Label)), (7, ⟨0⟩)], (3 : Int32).toInt ≤ c.1.toInt ∧
        (s.addCase 3 ⟨0⟩).exec a = (.error (.unorderedKeys 7 3), a) := by
  have hstart : LookupRun afterOneByte ⟨0⟩ [] _ _ := .start rfl
  have hfirst : LookupRun afterOneByte ⟨0⟩ [(-10, ⟨0⟩)] _ _ := hstart.added rfl
  have hlate : LookupRun afterOneByte ⟨0⟩ [(-10, ⟨0⟩)] _ _ :=
    @LookupRun.refused _ _ _ (-10) ⟨0⟩ _ _ _ _ hfirst rfl rfl
  have hsecond : LookupRun afterOneByte ⟨0⟩ [(-10, ⟨0⟩), (7, ⟨0⟩)] _ _ := hlate.added rfl
  have hlayout := lookupSwitch_layout hsecond
  refine ⟨_, _, hsecond, hlayout.1, (7, ⟨0⟩), by simp, by decide, ?_⟩
  obtain ⟨last, hlast, hexec⟩ :=
    (hlayout.2 3 ⟨0⟩).2.1 ⟨(7, ⟨0⟩), by simp, by decide⟩
  cases hlast
  exact hexec

end JvmClass.Assembler
