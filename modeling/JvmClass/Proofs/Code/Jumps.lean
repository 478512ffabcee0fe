import JvmClass.Proofs.Code.Realization

/-!
# Jumps lead to their labels

Every call of an assembler that is not refused for the target of a jump adds the parts of the
instruction that it wrote to the layout that the assembler realizes, and nothing else.  For a switch
this goes case by case: `Fielded` follows the field that counts its cases while their operands are
written behind it.  A finished method has no jump that waits, so that all operands of its layout are
the displacements of labels.

## Key results

- `stays_here`, `stays_beginBlock`, `stays_endBlock`, `stays_addHandler`: calls that never write
- `Fielded.jumpOperand`, `Fielded.patch`: the two steps of adding a case
- `Realizes.perform`, `realizes_run`: what one call and what a run adds to the layout
- `jumps_lead_to_labels`: what stands in the code of a finished method
-/

namespace JvmClass.Assembler

open JvmClass.Action

variable {α β : Type} {a : Assembler} {parts : List Part}

/-! ## Sequences -/

theorem Ends.bind {refused : Assembler → Prop} {mid : α → Assembler → Prop}
    {done : β → Assembler → Prop} {act : Action Error Assembler α}
    {k : α → Action Error Assembler β} (h : Ends refused mid (act.exec a))
    (hk : ∀ x b, mid x b → Ends refused done ((k x).exec b)) :
    Ends refused done ((act >>= k).exec a) := by
  rw [exec_bind]
  cases hact : act.exec a with
  | mk r b =>
    rw [hact] at h
    cases r with
    | error e => exact h
    | ok x => exact hk x b h

theorem Ends.map {refused : Assembler → Prop} {done : β → Assembler → Prop}
    {act : Action Error Assembler α} {f : α → β}
    (h : Ends refused (fun x => done (f x)) (act.exec a)) :
    Ends refused done ((f <$> act).exec a) := by
  rw [← bind_pure_comp]
  exact h.bind fun x b hb => hb

theorem Ends.imp {refused : Assembler → Prop} {done done' : α → Assembler → Prop}
    {outcome : Except Error α × Assembler} (h : Ends refused done outcome)
    (himp : ∀ x b, done x b → done' x b) : Ends refused done' outcome := by
  rcases outcome with ⟨e | x, b⟩
  · exact h
  · exact himp x b h

/-! ## Instructions -/

theorem ends_emit (h : a.Realizes parts) (i : Instruction) :
    Ends (Realizes · parts)
      (fun _ => (Realizes · (parts ++ (LabelledInstruction.plain i).parts (sizeOf parts))))
      ((emit i).exec a) := by
  rw [exec_emit]
  cases hbytes : i.encode with
  | error e => exact fun _ => h
  | ok bytes =>
    simp only []
    split
    · exact fun _ => h
    · rename_i hroom
      rw [h.offset_eq] at hroom
      have hparts : (LabelledInstruction.plain i).parts (sizeOf parts) = [.bytes bytes] := by
        simp [LabelledInstruction.parts, Instruction.bytes, hbytes]
      rw [hparts]
      exact h.write bytes (Nat.le_of_not_lt hroom)

theorem branchWidth_eq_ok {op : Opcode} {width : JumpWidth} (h : branchWidth op = .ok width) :
    op.jumpWidth = width := by
  unfold branchWidth at h
  unfold Opcode.jumpWidth
  split at h <;> cases h
  · rename_i hkind
    rw [hkind]
  · rename_i hkind
    rw [hkind]

theorem ends_branch (h : a.Realizes parts) (op : Opcode) (target : Label) :
    Ends (Realizes · parts)
      (fun _ => (Realizes · (parts ++ (LabelledInstruction.branch op target).parts (sizeOf parts))))
      ((branch op target).exec a) := by
  rw [exec_branch]
  cases hwidth : branchWidth op with
  | error e => exact fun _ => h
  | ok width =>
    simp only []
    split
    · exact fun _ => h
    · rename_i hroom
      rw [h.offset_eq] at hroom
      have hop : (a.write [op.byte]).Realizes (parts ++ [.bytes [op.byte]]) :=
        h.write _ (by simp only [List.length_singleton]; omega)
      have hjump := ends_jumpOperand hop (Realizes · parts) op width target h.size_le
        (by simp [Part.size]; omega)
      have hparts : (LabelledInstruction.branch op target).parts (sizeOf parts)
          = [.bytes [op.byte]] ++ [.jump ⟨op, sizeOf parts, width, target⟩] := by
        simp [LabelledInstruction.parts, branchWidth_eq_ok hwidth]
      rw [h.offset_eq, hparts, ← List.append_assoc]
      exact hjump

/-! ## Calls that never write -/

/-- All that one assembler has written is what the other has written. -/
def Stays (a b : Assembler) : Prop := ∀ parts, a.Realizes parts → b.Realizes parts

instance : Std.Refl Stays := ⟨fun _ _ h => h⟩

instance : IsTrans Assembler Stays := ⟨fun _ _ _ hab hbc parts h => hbc parts (hab parts h)⟩

theorem stays_expectLabel (l : Label) : (expectLabel l).Moves Stays := Moves.inspect _

theorem stays_defineLabel : defineLabel.Moves Stays := fun _ _ h => h.extended

theorem stays_here : here.Moves Stays := by
  intro a parts h
  have hplaced := h.extended.placed a.isDefined_extended a.labelOffset?_extended
    (by rw [pending_extended]; exact nofun)
  rw [pending_extended] at hplaced
  rw [exec_here]
  exact hplaced

theorem stays_beginBlock (handler : Label) (catchType : Ref .class) :
    (beginBlock handler catchType).Moves Stays := by
  refine Moves.bind (stays_expectLabel _) fun _ => Moves.bind stays_here fun start => ?_
  exact fun _ _ h => h.congr rfl rfl

theorem stays_popBlock : popBlock.Moves Stays := by
  intro a parts h
  simp only [popBlock, exec_ofFn]
  split
  · exact h
  · exact h.congr rfl rfl

theorem stays_endBlock : endBlock.Moves Stays := by
  refine Moves.bind stays_popBlock fun block => Moves.bind stays_here fun stop => ?_
  exact fun _ _ h => h.congr rfl rfl

theorem stays_addHandler (region : ProtectedRegion) : (addHandler region).Moves Stays := by
  refine Moves.bind (stays_expectLabel _) fun _ => Moves.bind (stays_expectLabel _) fun _ => ?_
  refine Moves.bind (stays_expectLabel _) fun _ => ?_
  exact fun _ _ h => h.congr rfl rfl

theorem Realizes.ends_of_stays {act : Action Error Assembler α} (h : a.Realizes parts)
    (hact : act.Moves Stays) :
    Ends (Realizes · parts) (fun _ => (Realizes · parts)) (act.exec a) := by
  have hb := hact a parts h
  cases hexec : act.exec a with
  | mk r b =>
    rw [hexec] at hb
    cases r with
    | error e => exact fun _ => hb
    | ok x => exact hb

/-! ## The field of a switch -/

/-- Whatever stands in the code stays where it is. -/
def Keeps (a b : Assembler) : Prop := ∀ r pos, a.code.Stands r pos → b.code.Stands r pos

instance : Std.Refl Keeps := ⟨fun _ _ _ h => h⟩

instance : IsTrans Assembler Keeps := ⟨fun _ _ _ hab hbc r pos h => hbc r pos (hab r pos h)⟩

theorem keeps_patch (field : Buffer.Reservation) (bytes : List UInt8) :
    (patch field bytes).Moves Keeps := fun _ _ _ h => h.overwrite _ _ _

theorem keeps_reserve (size : Nat) : (reserve size).Moves Keeps := fun _ _ _ h => h.reserve _

theorem keeps_resolve (target : Nat) (js : List PendingJump) : (resolve target js).Moves Keeps := by
  induction js with
  | nil => exact Moves.pure _
  | cons j js ih => exact Moves.bind (Moves.ofExcept _) fun _ => .bind (keeps_patch _ _) fun _ => ih

theorem keeps_jumpOperand (op : Opcode) (origin : Nat) (width : JumpWidth) (target : Label) :
    (jumpOperand op origin width target).Moves Keeps := by
  refine Moves.bind (Moves.inspect _) fun _ => .bind (keeps_reserve _) fun _ => ?_
  refine .bind (Moves.inspect _) fun position? => ?_
  cases position? with
  | some position => exact keeps_resolve _ _
  | none => exact fun _ _ _ h => h

/-- A field of four bytes stands between the parts before it and those after it. -/
structure Fielded (a : Assembler) (field : Buffer.Reservation) (before : List Part)
    (bytes : List UInt8) (after : List Part) : Prop where
  realizes : a.Realizes (before ++ .bytes bytes :: after)
  stands : a.code.Stands field (sizeOf before)
  size_eq : field.size = 4
  length_eq : bytes.length = 4

namespace Fielded

variable {field : Buffer.Reservation} {before after : List Part} {bytes : List UInt8}

theorem write (h : a.Fielded field before bytes after) (more : List UInt8)
    (hroom : a.offset + more.length ≤ maxCodeSize) :
    (a.write more).Fielded field before bytes (after ++ [.bytes more]) where
  realizes := by
    rw [h.realizes.offset_eq] at hroom
    have := h.realizes.write more hroom
    rwa [List.append_assoc, List.cons_append] at this
  stands := h.stands.append _
  size_eq := h.size_eq
  length_eq := h.length_eq

theorem jumpOperand (h : a.Fielded field before bytes after) (refused : Assembler → Prop)
    (op : Opcode) {origin : Nat} (target : Label) (horigin : origin ≤ maxCodeSize)
    (hroom : a.offset + 4 ≤ maxCodeSize) :
    Ends refused
      (fun _ => (Fielded · field before bytes (after ++ [switchTarget op origin target])))
      ((jumpOperand op origin .wide target).exec a) := by
  rw [h.realizes.offset_eq] at hroom
  have hjump := ends_jumpOperand h.realizes refused op .wide target horigin hroom
  have hkeeps := keeps_jumpOperand op origin .wide target a
  cases hact : (Assembler.jumpOperand op origin .wide target).exec a with
  | mk r b =>
    rw [hact] at hjump hkeeps
    cases r with
    | error e => exact hjump
    | ok x =>
      refine ⟨?_, hkeeps _ _ h.stands, h.size_eq, h.length_eq⟩
      rwa [List.append_assoc, List.cons_append] at hjump

theorem patch (h : a.Fielded field before bytes after) (refused : Assembler → Prop)
    {new : List UInt8} (hnew : new.length = 4) :
    Ends refused (fun _ => (Fielded · field before new after)) ((patch field new).exec a) := by
  refine ⟨h.realizes.rewrite h.stands ?_ ?_, h.stands.overwrite _ _ _, h.size_eq, hnew⟩
  · rw [hnew, h.length_eq]
  · rw [hnew, h.size_eq]

end Fielded

/-- A new field at the end. -/
theorem Realizes.fielded (h : a.Realizes parts) (hroom : a.offset + 4 ≤ maxCodeSize) :
    (a.reserved 4).Fielded (a.code.reserve 4).1 parts (List.replicate 4 0) [] where
  realizes := by
    rw [h.offset_eq] at hroom
    exact h.write _ hroom
  stands := by
    rw [← h.offset_eq]
    exact Buffer.stands_reserve _ _
  size_eq := rfl
  length_eq := rfl

/-! ## Switches -/

/-- The start of a switch leaves the rest of the room that was asked for. -/
theorem ends_switchHeader (h : a.Realizes parts) (op : Opcode) (rest : Nat) (default : Label) :
    Ends (Realizes · parts)
      (fun origin b => origin = sizeOf parts ∧ b.offset + rest ≤ maxCodeSize ∧
        b.Realizes (parts ++ switchStart op (sizeOf parts) default))
      ((switchHeader op (4 + rest) default).exec a) := by
  rw [exec_switchHeader, h.offset_eq]
  split
  · exact fun _ => h
  · rename_i hroom
    have hlen : (op.byte :: List.replicate (switchPadding (sizeOf parts)) 0).length
        = 1 + switchPadding (sizeOf parts) := by
      simp only [List.length_cons, List.length_replicate]
      omega
    have hop := h.write _ (by rw [hlen]; omega)
    have hjump := ends_jumpOperand hop (Realizes · parts) op .wide default h.size_le
      (by
        simp only [sizeOf_append, sizeOf_cons, Part.size, hlen, JumpWidth.bytes, sizeOf_nil]
        omega)
    refine Ends.map (hjump.imp fun _ b hb => ⟨rfl, ?_, ?_⟩)
    · rw [hb.offset_eq]
      simp only [sizeOf_append, sizeOf_cons, Part.size, hlen, JumpWidth.bytes, sizeOf_nil]
      omega
    · rw [List.append_assoc] at hb
      exact hb

/-- What comes before the highest key of a `tableswitch`. -/
def tableStart (origin : Nat) (low : Int32) (default : Label) : List Part :=
  switchStart .tableSwitch origin default ++ [.bytes (BigEndian.encodeInt 4 low.toInt)]

/-- A `tableswitch` behind some parts has the given targets so far. -/
structure TableBuilds (parts : List Part) (low : Int32) (default : Label) (s : TableSwitch)
    (targets : List Label) (a : Assembler) : Prop where
  fielded : a.Fielded s.high (parts ++ tableStart (sizeOf parts) low default)
    (BigEndian.encodeInt 4 (low.toInt + targets.length - 1))
    (targets.map (switchTarget .tableSwitch (sizeOf parts)))
  origin_eq : s.origin = sizeOf parts
  nextKey_eq : ∀ key, s.nextKey = some key → key.toInt = low.toInt + targets.length

theorem TableBuilds.realizes {low : Int32} {default : Label} {s : TableSwitch}
    {targets : List Label} (h : TableBuilds parts low default s targets a) :
    a.Realizes
      (parts ++ (LabelledInstruction.tableSwitch low default targets).parts (sizeOf parts)) := by
  have := h.fielded.realizes
  simpa [LabelledInstruction.parts, tableStart] using this

theorem nextKey?_toInt {key next : Int32} (h : nextKey? key = some next) :
    next.toInt = key.toInt + 1 := by
  unfold nextKey? at h
  split at h
  · cases h
  · rename_i hmax
    -- The next key does not wrap, since there is none after the greatest.
    have hne : key.toInt ≠ 2147483647 := fun heq => hmax (Int32.toInt_inj.mp heq)
    have hlt := key.toInt_lt
    have hle := key.le_toInt
    have hone : (1 : Int32).toInt = 1 := rfl
    rw [← Option.some.inj h, Int32.toInt_add, hone, Int.bmod_eq_of_le] <;> omega

/-- The highest key of a table without cases is one below its lowest, also where that wraps. -/
theorem u4_sub_one (low : Int32) :
    BigEndian.u4 (low - 1).toUInt32 = BigEndian.encodeInt 4 (low.toInt - 1) := by
  have hone : (1 : Int32).toInt = 1 := rfl
  rw [BigEndian.u4_toUInt32, Int32.toInt_sub, hone]
  exact BigEndian.encodeInt_congr Int.bmod_emod

theorem ends_tableSwitch (h : a.Realizes parts) (low : Int32) (default : Label) :
    Ends (Realizes · parts) (fun s => TableBuilds parts low default s [])
      ((tableSwitch low default).exec a) := by
  have hheader := ends_switchHeader h .tableSwitch 8 default
  refine hheader.bind fun origin b ⟨horigin, hroom, hb⟩ => ?_
  subst horigin
  have hlowLen : (BigEndian.u4 low.toUInt32).length = 4 := BigEndian.length_encode _ _
  have hlow : (b.write (BigEndian.u4 low.toUInt32)).Realizes
      (parts ++ tableStart (sizeOf parts) low default) := by
    have hstart : parts ++ tableStart (sizeOf parts) low default
        = parts ++ switchStart .tableSwitch (sizeOf parts) default
          ++ [.bytes (BigEndian.u4 low.toUInt32)] := by
      rw [tableStart, BigEndian.u4_toUInt32, List.append_assoc]
    rw [hb.offset_eq] at hroom
    rw [hstart]
    exact hb.write _ (by omega)
  have hoffset : (b.write (BigEndian.u4 low.toUInt32)).offset = b.offset + 4 := by
    rw [hlow.offset_eq, hb.offset_eq]
    simp [tableStart, Part.size, Nat.add_assoc]
  have hfield := hlow.fielded (by omega)
  have hnew : (BigEndian.u4 (low - 1).toUInt32).length = 4 := BigEndian.length_encode _ _
  -- The field behind the lowest key gets the highest one, which is below it as yet.
  simp only [exec_bind (append _), exec_append, exec_bind (reserve _), exec_reserve]
  refine (hfield.patch (Realizes · parts) hnew).bind fun _ c hc => ?_
  rw [u4_sub_one] at hc
  refine ⟨?_, rfl, ?_⟩
  · have hcount : low.toInt + (([] : List Label).length : Int) - 1 = low.toInt - 1 := by simp
    rw [hcount]
    exact hc
  · intro key hkey
    cases hkey
    simp

theorem ends_tableCase {low : Int32} {default : Label} {s : TableSwitch} {targets : List Label}
    (h : TableBuilds parts low default s targets a) (target : Label) :
    Ends (TableBuilds parts low default s targets)
      (fun s' => TableBuilds parts low default s' (targets ++ [target]))
      ((s.addCase target).exec a) := by
  rw [exec_tableCase]
  cases hkey : s.nextKey with
  | none => exact fun _ => h
  | some key =>
    simp only []
    split
    · exact fun _ => h
    · rename_i hroom
      have horigin : s.origin ≤ maxCodeSize := by
        have := h.fielded.realizes.size_le
        rw [h.origin_eq]
        simp only [sizeOf_append] at this
        omega
      -- The target of the case comes last, and then the highest key in the field is patched.
      have hjump := h.fielded.jumpOperand (TableBuilds parts low default s targets) .tableSwitch
        target horigin (Nat.le_of_not_lt hroom)
      refine hjump.bind fun _ b hb => ?_
      have hnew : (BigEndian.u4 key.toUInt32).length = 4 := BigEndian.length_encode _ _
      refine Ends.map ((hb.patch (TableBuilds parts low default s targets) hnew).imp
        fun _ c hc => ⟨?_, h.origin_eq, ?_⟩)
      · have hhigh : low.toInt + ((targets ++ [target]).length : Int) - 1 = key.toInt := by
          rw [h.nextKey_eq key hkey]
          simp
          omega
        rw [hhigh, ← BigEndian.u4_toUInt32, List.map_append, ← h.origin_eq]
        rw [← h.origin_eq] at hc
        exact hc
      · intro next hnext
        have := nextKey?_toInt hnext
        rw [this, h.nextKey_eq key hkey]
        simp
        omega

/-- A `lookupswitch` behind some parts has the given cases so far. -/
structure LookupBuilds (parts : List Part) (default : Label) (s : LookupSwitch)
    (cases : List (Int32 × Label)) (a : Assembler) : Prop where
  fielded : a.Fielded s.pairCount (parts ++ switchStart .lookupSwitch (sizeOf parts) default)
    (BigEndian.encode 4 cases.length) (cases.flatMap (lookupCase (sizeOf parts)))
  origin_eq : s.origin = sizeOf parts
  pairs_eq : s.pairs = cases.length

theorem LookupBuilds.realizes {default : Label} {s : LookupSwitch}
    {cases : List (Int32 × Label)} (h : LookupBuilds parts default s cases a) :
    a.Realizes
      (parts ++ (LabelledInstruction.lookupSwitch default cases).parts (sizeOf parts)) := by
  have := h.fielded.realizes
  simpa [LabelledInstruction.parts] using this

theorem ends_lookupSwitch (h : a.Realizes parts) (default : Label) :
    Ends (Realizes · parts) (fun s => LookupBuilds parts default s [])
      ((lookupSwitch default).exec a) := by
  have hheader := ends_switchHeader h .lookupSwitch 4 default
  refine hheader.bind fun origin b ⟨horigin, hroom, hb⟩ => ?_
  subst horigin
  exact ⟨hb.fielded hroom, rfl, rfl⟩

theorem ends_lookupCase {default : Label} {s : LookupSwitch} {cases : List (Int32 × Label)}
    (h : LookupBuilds parts default s cases a) (c : Int32 × Label) :
    Ends (LookupBuilds parts default s cases)
      (fun s' => LookupBuilds parts default s' (cases ++ [c])) ((s.addCase c.1 c.2).exec a) := by
  rw [exec_lookupCase]
  cases s.checkKey c.1 with
  | error e => exact fun _ => h
  | ok _ =>
    simp only []
    split
    · exact fun _ => h
    · rename_i hroom
      have hkeyLen : (BigEndian.u4 c.1.toUInt32).length = 4 := BigEndian.length_encode _ _
      -- The key and the target of the case come last, and then the field that counts the cases.
      have hkey := h.fielded.write (BigEndian.u4 c.1.toUInt32) (by omega)
      have hoffset : (a.write (BigEndian.u4 c.1.toUInt32)).offset = a.offset + 4 := by
        rw [hkey.realizes.offset_eq, h.fielded.realizes.offset_eq]
        simp [Part.size, hkeyLen]
        omega
      have horigin : s.origin ≤ maxCodeSize := by
        have := h.fielded.realizes.size_le
        rw [h.origin_eq]
        simp only [sizeOf_append] at this
        omega
      have hjump := hkey.jumpOperand (LookupBuilds parts default s cases) .lookupSwitch c.2
        horigin (by omega)
      refine hjump.bind fun _ b hb => ?_
      have hnew : (BigEndian.encode 4 (s.pairs + 1)).length = 4 := BigEndian.length_encode _ _
      refine Ends.map ((hb.patch (LookupBuilds parts default s cases) hnew).imp
        fun _ c' hc' => ⟨?_, h.origin_eq, ?_⟩)
      · have hcases : (cases ++ [c]).flatMap (lookupCase (sizeOf parts))
            = cases.flatMap (lookupCase (sizeOf parts)) ++ [.bytes (BigEndian.u4 c.1.toUInt32)]
              ++ [switchTarget .lookupSwitch s.origin c.2] := by
          rw [h.origin_eq]
          simp [lookupCase]
        rw [hcases, List.length_append, List.length_singleton, ← h.pairs_eq]
        exact hc'
      · rw [List.length_append, List.length_singleton, ← h.pairs_eq]

/-! ## Runs -/

/-- What one case does to a switch goes on through all of its cases, as long as cases are refused
for allowed reasons only. -/
theorem builds_addEach {S K : Type} {add : S → K → Action Error Assembler S}
    {builds : S → List K → Assembler → Prop} {allowed : Error → Prop}
    (hok : ∀ s done a k s' b, builds s done a → (add s k).exec a = (.ok s', b) →
      builds s' (done ++ [k]) b)
    (herror : ∀ s done a k e b, builds s done a → (add s k).exec a = (.error e, b) →
      allowed e → builds s done b)
    {s : S} {done : List K} (h : builds s done a) (ks : List K)
    (hallowed : ∀ e, .error e ∈ (addEach add s ks a).1 → allowed e) :
    ∃ s', builds s' (done ++ accepted ks (addEach add s ks a).1) (addEach add s ks a).2 := by
  -- Induction on the cases: a refused one leaves the switch as it was, with the cases before it.
  induction ks generalizing s done a with
  | nil => exact ⟨s, by simpa [addEach, accepted] using h⟩
  | cons k ks ih =>
    unfold addEach at hallowed ⊢
    cases hact : (add s k).exec a with
    | mk r b =>
      simp only [hact] at hallowed ⊢
      cases r with
      | error e =>
        have hb := herror _ _ _ _ _ _ h hact (hallowed e List.mem_cons_self)
        exact ih hb fun e he => hallowed e (List.mem_cons_of_mem _ he)
      | ok s' =>
        have hb := hok _ _ _ _ _ _ h hact
        obtain ⟨s'', hs''⟩ := ih hb fun e he => hallowed e (List.mem_cons_of_mem _ he)
        refine ⟨s'', ?_⟩
        rwa [List.append_assoc] at hs''

theorem ends_addEach {S K : Type} {add : S → K → Action Error Assembler S}
    {builds : S → List K → Assembler → Prop}
    (hadd : ∀ s done a k, builds s done a →
      Ends (builds s done) (fun s' => builds s' (done ++ [k])) ((add s k).exec a))
    {s : S} {done : List K} (h : builds s done a) (ks : List K)
    (hclean : ∀ e, .error e ∈ (addEach add s ks a).1 → e.refusesJump = false) :
    ∃ s', builds s' (done ++ accepted ks (addEach add s ks a).1) (addEach add s ks a).2 := by
  refine builds_addEach (fun s done a k s' b hs hact => ?_) (fun s done a k e b hs hact he => ?_)
    h ks hclean
  · have hk := hadd s done a k hs
    rw [hact] at hk
    exact hk
  · have hk := hadd s done a k hs
    rw [hact] at hk
    exact hk he

/-- A call that writes at most one instruction without cases. -/
theorem realizes_of_ends {act : Action Error Assembler α} {ps : List Part} (call : Call)
    (hact : Ends (Realizes · parts) (fun _ => (Realizes · (parts ++ ps))) (act.exec a))
    (hps : Report.parts (sizeOf parts) ⟨call, .ok []⟩ = ps)
    (hperform : call.perform = (fun _ => []) <$> act)
    (hclean : Report.Clean ⟨call, (call.perform.exec a).1⟩) :
    (call.perform.exec a).2.Realizes
      (parts ++ Report.parts (sizeOf parts) ⟨call, (call.perform.exec a).1⟩) := by
  rw [hperform, exec_map] at hclean ⊢
  cases hexec : act.exec a with
  | mk r b =>
    rw [hexec] at hact
    simp only [hexec] at hclean ⊢
    cases r with
    | error e =>
      have hb := hact (Report.clean_error hclean)
      simp only [Except.map, Report.parts_error, List.append_nil]
      exact hb
    | ok x =>
      simp only [Except.map, hps]
      exact hact

/-- A call that writes a switch with its cases. -/
theorem realizes_of_ends_addEach {S K : Type} {start : Action Error Assembler S}
    {add : S → K → Action Error Assembler S} {builds : S → List K → Assembler → Prop}
    (call : Call) (ks : List K) (instruction : List K → LabelledInstruction)
    (hstart : Ends (Realizes · parts) (fun s => builds s []) (start.exec a))
    (hadd : ∀ s done a k, builds s done a →
      Ends (builds s done) (fun s' => builds s' (done ++ [k])) ((add s k).exec a))
    (hrealizes : ∀ s done a, builds s done a →
      a.Realizes (parts ++ (instruction done).parts (sizeOf parts)))
    (hparts : ∀ outcomes, Report.instruction? ⟨call, .ok outcomes⟩
      = some (instruction (accepted ks outcomes)))
    (hperform : call.perform
      = start >>= fun s => Action.ofFn fun a => (addEach add s ks a).map .ok id)
    (hclean : Report.Clean ⟨call, (call.perform.exec a).1⟩) :
    (call.perform.exec a).2.Realizes
      (parts ++ Report.parts (sizeOf parts) ⟨call, (call.perform.exec a).1⟩) := by
  rw [hperform, exec_bind] at hclean ⊢
  cases hexec : start.exec a with
  | mk r b =>
    rw [hexec] at hstart
    simp only [hexec] at hclean ⊢
    cases r with
    | error e =>
      have hb := hstart (Report.clean_error hclean)
      simp only [Report.parts_error, List.append_nil]
      exact hb
    | ok s =>
      simp only [exec_ofFn, Prod.map, id] at hclean ⊢
      obtain ⟨s', hs'⟩ := ends_addEach hadd hstart ks fun e he => Report.clean_cases hclean he
      have hwritten := hrealizes _ _ _ hs'
      rw [List.nil_append] at hwritten
      simp only [Report.parts, hparts]
      exact hwritten

/-- One call adds the instruction that it wrote to the layout. -/
theorem Realizes.perform (h : a.Realizes parts) (call : Call)
    (hclean : Report.Clean ⟨call, (call.perform.exec a).1⟩) :
    (call.perform.exec a).2.Realizes
      (parts ++ Report.parts (sizeOf parts) ⟨call, (call.perform.exec a).1⟩) := by
  -- Most calls write nothing.
  have hnothing : ∀ {α : Type} {act : Action Error Assembler α},
      Ends (Realizes · parts) (fun _ => (Realizes · parts)) (act.exec a) →
      Ends (Realizes · parts) (fun _ => (Realizes · (parts ++ []))) (act.exec a) := by
    intro α act hact
    rwa [List.append_nil]
  cases call with
  | defineLabel =>
    exact realizes_of_ends _ (hnothing (h.ends_of_stays stays_defineLabel)) rfl rfl hclean
  | markLabel l => exact realizes_of_ends _ (hnothing (ends_markLabel h l)) rfl rfl hclean
  | here => exact realizes_of_ends _ (hnothing (h.ends_of_stays stays_here)) rfl rfl hclean
  | emit i => exact realizes_of_ends _ (ends_emit h i) rfl rfl hclean
  | branch op target => exact realizes_of_ends _ (ends_branch h op target) rfl rfl hclean
  | tableSwitch low default targets =>
    exact realizes_of_ends_addEach _ targets (.tableSwitch low default)
      (ends_tableSwitch h low default) (fun _ _ _ target hb => ends_tableCase hb target)
      (fun _ _ _ hb => hb.realizes) (fun _ => rfl) rfl hclean
  | lookupSwitch default cases =>
    exact realizes_of_ends_addEach _ cases (.lookupSwitch default)
      (ends_lookupSwitch h default) (fun _ _ _ c hb => ends_lookupCase hb c)
      (fun _ _ _ hb => hb.realizes) (fun _ => rfl) rfl hclean
  | beginBlock handler catchType =>
    have hstays := stays_beginBlock handler catchType
    exact realizes_of_ends _ (hnothing (h.ends_of_stays hstays)) rfl rfl hclean
  | endBlock => exact realizes_of_ends _ (hnothing (h.ends_of_stays stays_endBlock)) rfl rfl hclean
  | addHandler region =>
    exact realizes_of_ends _ (hnothing (h.ends_of_stays (stays_addHandler region))) rfl rfl hclean

/-- A run adds the instructions that it wrote to the layout, one after the other. -/
theorem realizes_run (h : a.Realizes parts) (calls : List Call)
    (hclean : ∀ r ∈ (run calls a).1, r.Clean) :
    (run calls a).2.Realizes (parts ++ layout (sizeOf parts) (written (run calls a).1)) := by
  induction calls generalizing a parts with
  | nil => simpa [run, written, layout] using h
  | cons call calls ih =>
    simp only [run, layout_written_cons] at hclean ⊢
    have hcall := h.perform call (hclean _ List.mem_cons_self)
    have hrest := ih hcall fun r hr => hclean r (List.mem_cons_of_mem _ hr)
    rwa [sizeOf_append, List.append_assoc] at hrest

/-! ## Finished methods -/

/-- A part stands in a method as the given bytes: those that were written, or an operand that says
how far its label is from the start of its instruction. -/
def StandsAs (body : MethodBody) (bytes : List UInt8) : Part → Prop
  | .bytes written => bytes = written
  | .jump j => bytes.length = j.width.bytes ∧
    ∃ target, body.labelOffset? j.target = some target ∧
      BigEndian.decodeInt bytes = (target : Int) - j.origin

/-- Reading the operand of a jump that reaches its target. -/
theorem decodeInt_encode {j : Jump} {target : Nat} (horigin : j.origin ≤ maxCodeSize)
    (htarget : target ≤ maxCodeSize) (hreach : j.reaches target) :
    BigEndian.decodeInt (j.encode target) = (target : Int) - j.origin := by
  unfold maxCodeSize at horigin htarget
  unfold Jump.reaches JumpWidth.reaches at hreach
  unfold Jump.encode
  cases hwidth : j.width with
  | narrow =>
    rw [hwidth] at hreach
    -- Filling in the operand has checked that the displacement fits.
    have hrange := of_decide_eq_true hreach
    exact BigEndian.decodeInt_encodeInt (by simp [JumpWidth.bytes]; omega)
      (by simp [JumpWidth.bytes]; omega)
  -- A wide operand holds any displacement within a method.
  | wide =>
    exact BigEndian.decodeInt_encodeInt (by simp [JumpWidth.bytes]; omega)
      (by simp [JumpWidth.bytes]; omega)

/-- A method can be finished if its handlers are known and no jump waits. -/
theorem finish_of_handlers {handlers : List ExceptionHandler}
    (hhandlers : a.handlers = .ok handlers) (hawaited : a.awaited? = none) :
    a.finish = .ok ⟨a.code.toList, handlers, a.labels.map (·.offset)⟩ := by
  unfold finish
  rw [hhandlers]
  simp only [hawaited]
  rfl

/-- A method is finished only if its handlers are known and no jump waits. -/
theorem finish_eq_ok {body : MethodBody} (h : a.finish = .ok body) :
    body.code = a.code.toList ∧ body.labelOffset? = a.labelOffset? ∧ ∀ l, a.pending l = [] := by
  unfold finish at h
  cases hhandlers : a.handlers with
  | error e =>
    rw [hhandlers] at h
    cases h
  | ok handlers =>
    rw [hhandlers] at h
    cases hawaited : a.awaited? with
    | some l =>
      simp only [hawaited] at h
      cases h
    | none =>
      simp only [hawaited] at h
      cases h
      refine ⟨rfl, ?_, ?_⟩
      · funext l
        simp only [MethodBody.labelOffset?, labelOffset?, Array.getElem?_map]
        cases a.labels[l.id]? <;> rfl
      · intro l
        unfold pending
        split
        · rename_i state hstate
          unfold awaited? at hawaited
          rw [Option.map_eq_none_iff, Array.findIdx?_eq_none_iff] at hawaited
          have hmem := hawaited state (Array.mem_of_getElem? hstate)
          simpa using hmem
        · rfl

/-- In a finished method every label that a jump leads to is marked. -/
theorem Realizes.exists_target (h : a.Realizes parts) (hsettled : ∀ l, a.pending l = []) {j : Jump}
    (hj : .jump j ∈ parts) : ∃ target, a.labelOffset? j.target = some target := by
  cases hl : a.labelOffset? j.target with
  | some target => exact ⟨target, rfl⟩
  | none =>
    -- A jump would wait for the label.
    obtain ⟨i, hi⟩ := exists_mem_sites hj 0
    obtain ⟨p, hp, -⟩ := exists_awaits (h.awaits _ hl) hi
    rw [hsettled] at hp
    cases hp

/-- Every part of a finished method stands in its code. -/
theorem Realizes.standsAs {body : MethodBody} (h : a.Realizes parts)
    (hfinish : a.finish = .ok body) {before after : List Part} {part : Part}
    (hparts : parts = before ++ part :: after) :
    StandsAs body ((body.code.drop (sizeOf before)).take part.size) part := by
  obtain ⟨hcode, hoffset, hsettled⟩ := finish_eq_ok hfinish
  -- Cut out of the code, the part is what the layout renders.
  have hslice : (body.code.drop (sizeOf before)).take part.size = part.render a.labelOffset? := by
    rw [hcode, h.code_eq, hparts, render_append, render_cons, ← length_render a.labelOffset? before,
      List.drop_left, ← Part.length_render a.labelOffset? part, List.take_left]
  rw [hslice]
  cases part with
  | bytes bs => rfl
  | jump j =>
    have hj : .jump j ∈ parts := by simp [hparts]
    obtain ⟨target, htarget⟩ := h.exists_target hsettled hj
    have hleads := h.leads j hj
    simp only [Part.render, htarget]
    refine ⟨j.length_encode target, target, by rw [hoffset, htarget], ?_⟩
    exact decodeInt_encode hleads.origin_le (h.offset_le _ _ htarget) (hleads.reaches _ htarget)

/-- In a finished method from a run in which nothing was refused for the target of a jump, the
instructions stand one after the other as they were written, and every jump leads to its label. -/
theorem jumps_lead_to_labels (calls : List Call) (body : MethodBody)
    (hclean : ∀ r ∈ (run calls empty).1, r.Clean)
    (hfinish : (run calls empty).2.finish = .ok body) :
    body.code.length = sizeOf (layout 0 (written (run calls empty).1)) ∧
      ∀ before part after, layout 0 (written (run calls empty).1) = before ++ part :: after →
        StandsAs body ((body.code.drop (sizeOf before)).take part.size) part := by
  have hrun := realizes_run realizes_empty calls hclean
  rw [List.nil_append] at hrun
  constructor
  · rw [(finish_eq_ok hfinish).1, hrun.code_eq, length_render]
    rfl
  · intro before part after hparts
    exact hrun.standsAs hfinish hparts

/-- The opcode of a jump without a condition. -/
def goto : Opcode := ⟨0xa7, by decide⟩

/-- A label with a jump ahead to it, a table of two more, and a jump back. -/
def sharedLabelCalls : List Call :=
  [.defineLabel, .defineLabel, .branch goto ⟨0⟩, .tableSwitch 5 ⟨1⟩ [⟨0⟩, ⟨0⟩],
    .markLabel ⟨0⟩, .branch ⟨0xc8, by decide⟩ ⟨0⟩, .markLabel ⟨1⟩]

/-- Jumps of both widths, ahead and back, to one label. -/
theorem jumps_lead_to_shared_label :
    ∃ body, (∀ r ∈ (run sharedLabelCalls empty).1, r.Clean) ∧
      (run sharedLabelCalls empty).2.finish = .ok body ∧
      body.code.length = sizeOf (layout 0 (written (run sharedLabelCalls empty).1)) ∧
      ∀ before part after,
        layout 0 (written (run sharedLabelCalls empty).1) = before ++ part :: after →
          StandsAs body ((body.code.drop (sizeOf before)).take part.size) part := by
  have hclean : ∀ r ∈ (run sharedLabelCalls empty).1, r.Clean := by decide +kernel
  have hhandlers : (run sharedLabelCalls empty).2.handlers = .ok [] := rfl
  have hawaited : (run sharedLabelCalls empty).2.awaited? = none := by decide +kernel
  have hfinish := finish_of_handlers hhandlers hawaited
  exact ⟨_, hclean, hfinish, jumps_lead_to_labels _ _ hclean hfinish⟩

end JvmClass.Assembler
