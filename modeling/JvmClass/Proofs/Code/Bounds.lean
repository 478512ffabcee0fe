import JvmClass.Attribute.Writer
import JvmClass.Proofs.Code.Jumps
import JvmClass.Proofs.Code.Size
import JvmClass.Proofs.Pool.Invariant

/-!
# The limit on the size of code

Code never has more than 65535 bytes, wherever a run stands and whatever has been refused before.
Labels are marked in the code that is there, and jumps and switches start in it, so that all
positions and displacements fit the fields that hold them.

`Reached` are the states between calls, with the header and the cases of a switch taken one by one.

## Key results

- `keepsBounds_jumpOperand`, `keepsBounds_here`: the bounds that every operation keeps
- `withinBounds_of_reached`: the bounds in every state that a run reaches
- `sizeSpec_of_reached`: what follows for refusals, labels, handlers, displacements and attributes
-/

namespace JvmClass.Assembler

open JvmClass.Action

variable {a b : Assembler}

/-! ## Bounds that every run keeps -/

/-- There is no more code than there may be, and labels are marked and jumps start no later than at
its end. -/
structure Bounded (a : Assembler) : Prop where
  offset_le : a.offset ≤ maxCodeSize
  labelOffset_le : ∀ l t, a.labelOffset? l = some t → t ≤ a.offset
  origin_le : ∀ l, ∀ j ∈ a.pending l, j.origin ≤ a.offset

/-- The bounds are kept, and the code does not get shorter. -/
def KeepsBounds (a b : Assembler) : Prop := a.Bounded → b.Bounded ∧ a.offset ≤ b.offset

instance : Std.Refl KeepsBounds := ⟨fun _ h => ⟨h, Nat.le_refl _⟩⟩

instance : IsTrans Assembler KeepsBounds where
  trans a b c hab hbc h := by
    obtain ⟨hb, hle⟩ := hab h
    obtain ⟨hc, hle'⟩ := hbc hb
    exact ⟨hc, Nat.le_trans hle hle'⟩

theorem bounded_empty : empty.Bounded where
  offset_le := Nat.zero_le _
  labelOffset_le l t h := by simp [labelOffset?, empty] at h
  origin_le l j h := by simp [pending, empty] at h

/-- More code does not matter to the labels. -/
theorem keepsBounds_of_labels (hlabels : b.labels = a.labels) (hle : a.offset ≤ b.offset)
    (hmax : b.offset ≤ maxCodeSize) : KeepsBounds a b := by
  intro h
  refine ⟨⟨hmax, fun l t hl => ?_, fun l j hj => ?_⟩, hle⟩
  · have hl : a.labelOffset? l = some t := by rwa [labelOffset?, hlabels] at hl
    have := h.labelOffset_le l t hl
    omega
  · have hj : j ∈ a.pending l := by rwa [pending, hlabels] at hj
    have := h.origin_le l j hj
    omega

theorem keepsBounds_write {bytes : List UInt8}
    (hroom : a.offset + bytes.length ≤ maxCodeSize) : KeepsBounds a (a.write bytes) :=
  keepsBounds_of_labels rfl (by simp) hroom

theorem keepsBounds_fillIn (target : Nat) (js : List PendingJump) :
    KeepsBounds a (js.foldl (fillIn target) a) := by
  intro h
  obtain ⟨hoffset, hlabels⟩ := fillIn_spec target js a
  exact keepsBounds_of_labels hlabels (by omega) (hoffset ▸ h.offset_le) h

theorem keepsBounds_extended : KeepsBounds a a.extended := by
  intro h
  refine ⟨⟨h.offset_le, ?_, ?_⟩, Nat.le_refl _⟩
  · rw [labelOffset?_of_extended]
    exact h.labelOffset_le
  · rw [pending_of_extended]
    exact h.origin_le

theorem keepsBounds_placed {l : Label} (hdef : a.isDefined l) :
    KeepsBounds a (a.placed l a.offset) := by
  intro h
  refine ⟨⟨h.offset_le, fun k t hk => ?_, fun k j hj => ?_⟩, Nat.le_refl _⟩
  · -- The label is marked at the end of the code, all others stay where they are.
    rw [labelOffset?_placed hdef] at hk
    unfold markAt at hk
    split at hk
    · cases hk
      exact Nat.le_refl _
    · exact h.labelOffset_le k t hk
  · rw [pending_placed] at hj
    split at hj
    · cases hj
    · exact h.origin_le k j hj

theorem keepsBounds_awaiting {l : Label} {j : PendingJump} (hdef : a.isDefined l)
    (horigin : j.origin ≤ a.offset) : KeepsBounds a (a.awaiting l j) := by
  intro h
  refine ⟨⟨h.offset_le, ?_, fun k i hi => ?_⟩, Nat.le_refl _⟩
  · rw [labelOffset?_awaiting]
    exact h.labelOffset_le
  · rw [pending_awaiting hdef] at hi
    split at hi
    · -- The new jump comes after those that wait for the label already.
      rcases List.mem_append.mp hi with hi | hi
      · exact h.origin_le k i hi
      · rw [List.mem_singleton.mp hi]
        exact horigin
    · exact h.origin_le k i hi

/-! ### Calls that write nothing -/

theorem keepsBounds_resolve (target : Nat) (js : List PendingJump) :
    (resolve target js).Moves KeepsBounds := by
  intro a
  rw [exec_resolve]
  exact keepsBounds_fillIn target _

theorem keepsBounds_markLabel (l : Label) : (markLabel l).Moves KeepsBounds := by
  intro a
  rw [exec_markLabel]
  split
  · rename_i hdef
    split
    · exact refl_of KeepsBounds a
    · exact trans_of KeepsBounds (keepsBounds_placed hdef) (keepsBounds_resolve _ _ _)
  · exact refl_of KeepsBounds a

theorem keepsBounds_here : here.Moves KeepsBounds := by
  intro a
  rw [exec_here]
  have hplaced := keepsBounds_placed (a := a.extended) a.isDefined_extended
  exact trans_of KeepsBounds keepsBounds_extended hplaced

/-- Blocks and regions do not matter. -/
theorem keepsBounds_modify {f : Assembler → Assembler}
    (hf : ∀ a, (f a).code = a.code ∧ (f a).labels = a.labels) :
    (modify f : Action Error Assembler Unit).Moves KeepsBounds := by
  intro a h
  obtain ⟨hcode, hlabels⟩ := hf a
  have hoffset : (f a).offset = a.offset := congrArg Buffer.size hcode
  exact keepsBounds_of_labels hlabels (Nat.le_of_eq hoffset.symm) (hoffset ▸ h.offset_le) h

theorem keepsBounds_expectLabel (l : Label) : (expectLabel l).Moves KeepsBounds := Moves.inspect _

theorem keepsBounds_beginBlock (handler : Label) (catchType : Ref .class) :
    (beginBlock handler catchType).Moves KeepsBounds :=
  .bind (keepsBounds_expectLabel _) fun _ => .bind keepsBounds_here fun _ =>
    keepsBounds_modify fun _ => ⟨rfl, rfl⟩

theorem keepsBounds_popBlock : popBlock.Moves KeepsBounds := by
  intro a
  simp only [popBlock, exec_ofFn]
  split
  · exact refl_of KeepsBounds a
  · exact fun h => keepsBounds_of_labels rfl (Nat.le_refl _) h.offset_le h

theorem keepsBounds_endBlock : endBlock.Moves KeepsBounds :=
  .bind keepsBounds_popBlock fun _ => .bind keepsBounds_here fun _ =>
    keepsBounds_modify fun _ => ⟨rfl, rfl⟩

theorem keepsBounds_addHandler (region : ProtectedRegion) :
    (addHandler region).Moves KeepsBounds :=
  .bind (keepsBounds_expectLabel _) fun _ => .bind (keepsBounds_expectLabel _) fun _ =>
    .bind (keepsBounds_expectLabel _) fun _ => keepsBounds_modify fun _ => ⟨rfl, rfl⟩

/-! ### Calls that write -/

/-- The operand of a jump, for which there is room, from an instruction that has begun already. -/
theorem keepsBounds_jumpOperand (op : Opcode) {origin : Nat} (width : JumpWidth) (target : Label)
    (horigin : origin ≤ a.offset) (hroom : a.offset + width.bytes ≤ maxCodeSize) :
    KeepsBounds a ((jumpOperand op origin width target).exec a).2 := by
  have hreserved : KeepsBounds a (a.reserved width.bytes) :=
    keepsBounds_of_labels rfl (by simp) (by simpa using hroom)
  rw [exec_jumpOperand]
  split
  · rename_i hdef
    simp only
    split
    · exact trans_of KeepsBounds hreserved (keepsBounds_resolve _ _ _)
    · refine trans_of KeepsBounds hreserved (keepsBounds_awaiting hdef ?_)
      rw [offset_reserved]
      exact Nat.le_trans horigin (Nat.le_add_right _ _)
  · exact refl_of KeepsBounds a

theorem keepsBounds_emit (i : Instruction) : (emit i).Moves KeepsBounds := by
  intro a
  rw [exec_emit]
  split
  · exact refl_of KeepsBounds a
  · split
    · exact refl_of KeepsBounds a
    · exact keepsBounds_write (by omega)

theorem keepsBounds_branch (op : Opcode) (target : Label) :
    (branch op target).Moves KeepsBounds := by
  intro a
  rw [exec_branch]
  split
  · exact refl_of KeepsBounds a
  · split
    · exact refl_of KeepsBounds a
    · -- The opcode has its room, and the operand after it.
      have hop : KeepsBounds a (a.write [op.byte]) :=
        keepsBounds_write (by rw [List.length_singleton]; omega)
      refine trans_of KeepsBounds hop (keepsBounds_jumpOperand op _ target ?_ ?_)
      · simp
      · rw [offset_write, List.length_singleton]
        omega

theorem keepsBounds_switchHeader (op : Opcode) (size : Nat) (default : Label) (hsize : 4 ≤ size) :
    (switchHeader op size default).Moves KeepsBounds := by
  intro a
  rw [exec_switchHeader]
  split
  · exact refl_of KeepsBounds a
  · have hlength : (op.byte :: List.replicate (switchPadding a.offset) 0).length
        = 1 + switchPadding a.offset := by
      rw [List.length_cons, List.length_replicate, Nat.add_comm]
    have hop : KeepsBounds a (a.write (op.byte :: List.replicate (switchPadding a.offset) 0)) :=
      keepsBounds_write (by omega)
    rw [exec_map]
    refine trans_of KeepsBounds hop (keepsBounds_jumpOperand op _ default ?_ ?_)
    · rw [offset_write]
      omega
    · rw [offset_write, JumpWidth.bytes]
      omega

/-- A header that is written leaves the rest of its room to its other fields. -/
theorem switchHeader_eq_ok {op : Opcode} {size origin : Nat} {default : Label}
    (h : (switchHeader op size default).exec a = (.ok origin, b)) :
    origin = a.offset ∧ b.offset = a.offset + (1 + switchPadding a.offset + 4) ∧
      a.offset + (1 + switchPadding a.offset + size) ≤ maxCodeSize := by
  by_cases hfits : a.offset + (1 + switchPadding a.offset + size) ≤ maxCodeSize
  · by_cases hdef : a.isDefined default
    · obtain ⟨c, hc, hoffset⟩ := exec_switchHeader_of_fits op hdef hfits
      rw [hc] at h
      cases h
      exact ⟨rfl, hoffset, hfits⟩
    · have hdef' : (a.write (op.byte :: List.replicate (switchPadding a.offset) 0)).isDefined
          default = false := Bool.eq_false_iff.mpr hdef
      rw [exec_switchHeader, if_neg (by omega), exec_map, exec_jumpOperand, hdef'] at h
      cases h
  · rw [exec_switchHeader, if_pos (by omega)] at h
    cases h

/-- The fields of a switch behind its default target. -/
theorem keepsBounds_tableSwitch (low : Int32) (default : Label) :
    (Assembler.tableSwitch low default).Moves KeepsBounds := by
  intro a
  have hheader := keepsBounds_switchHeader .tableSwitch 12 default (by omega) a
  rw [Assembler.tableSwitch, exec_bind]
  rcases hexec : (switchHeader .tableSwitch 12 default).exec a with ⟨e | origin, b⟩
  · rw [hexec] at hheader
    exact hheader
  · obtain ⟨-, hoffset, hroom⟩ := switchHeader_eq_ok hexec
    rw [hexec] at hheader
    have hheader : KeepsBounds a b := hheader
    simp only [exec_bind, exec_append, exec_reserve, exec_patch, exec_pure]
    have hlength : (BigEndian.u4 low.toUInt32).length = 4 := BigEndian.length_encode 4 _
    refine trans_of KeepsBounds hheader ?_
    refine keepsBounds_of_labels (by rfl) ?_ ?_
    all_goals
      rw [offset_overwrite, offset_reserved, offset_write]
      omega

theorem keepsBounds_lookupSwitch (default : Label) :
    (Assembler.lookupSwitch default).Moves KeepsBounds := by
  intro a
  have hheader := keepsBounds_switchHeader .lookupSwitch 8 default (by omega) a
  rw [Assembler.lookupSwitch, exec_bind]
  rcases hexec : (switchHeader .lookupSwitch 8 default).exec a with ⟨e | origin, b⟩
  · rw [hexec] at hheader
    exact hheader
  · obtain ⟨-, hoffset, hroom⟩ := switchHeader_eq_ok hexec
    rw [hexec] at hheader
    have hheader : KeepsBounds a b := hheader
    simp only [exec_bind, exec_reserve, exec_pure]
    refine trans_of KeepsBounds hheader ?_
    refine keepsBounds_of_labels (by rfl) ?_ ?_
    all_goals
      rw [offset_reserved]
      omega

theorem keepsBounds_patch (field : Buffer.Reservation) (bytes : List UInt8) :
    (patch field bytes).Moves KeepsBounds := by
  intro a h
  rw [exec_patch]
  have hoffset := offset_overwrite a field bytes
  exact keepsBounds_of_labels rfl (Nat.le_of_eq hoffset.symm) (hoffset ▸ h.offset_le) h

theorem keepsBounds_tableCase {s : TableSwitch} (target : Label) (horigin : s.origin ≤ a.offset) :
    KeepsBounds a ((s.addCase target).exec a).2 := by
  rw [exec_tableCase]
  split
  · exact refl_of KeepsBounds a
  · rename_i key _
    split
    · exact refl_of KeepsBounds a
    · rename_i hroom
      have hjump := keepsBounds_jumpOperand .tableSwitch .wide target horigin
        (Nat.le_of_not_lt hroom)
      rw [exec_bind]
      rcases hexec : (jumpOperand .tableSwitch s.origin .wide target).exec a with ⟨e | u, b⟩
      · rwa [hexec] at hjump
      · rw [hexec] at hjump
        exact trans_of KeepsBounds hjump ((keepsBounds_patch _ _).map _ b)

theorem keepsBounds_lookupCase {s : LookupSwitch} (key : Int32) (target : Label)
    (horigin : s.origin ≤ a.offset) : KeepsBounds a ((s.addCase key target).exec a).2 := by
  rw [exec_lookupCase]
  split
  · exact refl_of KeepsBounds a
  · split
    · exact refl_of KeepsBounds a
    · rename_i hroom
      have hlength : (BigEndian.u4 key.toUInt32).length = 4 := BigEndian.length_encode 4 _
      have hkey : KeepsBounds a (a.write (BigEndian.u4 key.toUInt32)) :=
        keepsBounds_write (by omega)
      have hbegun : s.origin ≤ (a.write (BigEndian.u4 key.toUInt32)).offset := by
        rw [offset_write]
        omega
      have hjump := keepsBounds_jumpOperand .lookupSwitch .wide target hbegun
        (by rw [offset_write, JumpWidth.bytes]; omega)
      refine trans_of KeepsBounds hkey ?_
      rw [exec_bind]
      rcases hexec : (jumpOperand .lookupSwitch s.origin .wide target).exec
        (a.write (BigEndian.u4 key.toUInt32)) with ⟨e | u, b⟩
      · rwa [hexec] at hjump
      · rw [hexec] at hjump
        exact trans_of KeepsBounds hjump ((keepsBounds_patch _ _).map _ b)

/-! ### Runs -/

/-- The origin of a switch stays where it is. -/
theorem origin_of_perform {e : Emission} {open? : Option OpenSwitch} (he : e.Continues open?)
    {s : OpenSwitch} (h : e.perform.exec a = (.ok (some s), b)) :
    s.origin = a.offset ∨ ∃ s', open? = some s' ∧ s.origin = s'.origin := by
  cases e with
  | instruction i =>
    obtain ⟨_, -, hs⟩ := exec_map_eq_ok.mp h
    cases hs
  | branch op target =>
    obtain ⟨_, -, hs⟩ := exec_map_eq_ok.mp h
    cases hs
  | tableSwitch low default =>
    obtain ⟨s', hswitch, hs⟩ := exec_map_eq_ok.mp h
    obtain ⟨origin, c, hheader, hrest⟩ := exec_bind_eq_ok.mp hswitch
    cases hs
    cases hrest
    exact .inl (switchHeader_eq_ok hheader).1
  | lookupSwitch default =>
    obtain ⟨s', hswitch, hs⟩ := exec_map_eq_ok.mp h
    obtain ⟨origin, c, hheader, hrest⟩ := exec_bind_eq_ok.mp hswitch
    cases hs
    cases hrest
    exact .inl (switchHeader_eq_ok hheader).1
  | tableCase s₀ target =>
    obtain ⟨s', hcase, hs⟩ := exec_map_eq_ok.mp h
    refine .inr ⟨_, he, ?_⟩
    rw [exec_tableCase] at hcase
    split at hcase
    · cases hcase
    · split at hcase
      · cases hcase
      · obtain ⟨_, c, -, hrest⟩ := exec_bind_eq_ok.mp hcase
        cases hs
        cases hrest
        rfl
  | lookupCase s₀ key target =>
    obtain ⟨s', hcase, hs⟩ := exec_map_eq_ok.mp h
    refine .inr ⟨_, he, ?_⟩
    rw [exec_lookupCase] at hcase
    split at hcase
    · cases hcase
    · split at hcase
      · cases hcase
      · obtain ⟨_, c, -, hrest⟩ := exec_bind_eq_ok.mp hcase
        cases hs
        cases hrest
        rfl

theorem keepsBounds_perform {e : Emission} {open? : Option OpenSwitch} (he : e.Continues open?)
    (horigin : ∀ s, open? = some s → s.origin ≤ a.offset) :
    KeepsBounds a (e.perform.exec a).2 := by
  cases e with
  | instruction i => exact (keepsBounds_emit i).map _ a
  | branch op target => exact (keepsBounds_branch op target).map _ a
  | tableSwitch low default => exact (keepsBounds_tableSwitch low default).map _ a
  | lookupSwitch default => exact (keepsBounds_lookupSwitch default).map _ a
  | tableCase s target =>
    rw [Emission.perform, exec_map]
    exact keepsBounds_tableCase target (horigin _ he)
  | lookupCase s key target =>
    rw [Emission.perform, exec_map]
    exact keepsBounds_lookupCase key target (horigin _ he)

/-- The code is within its bounds, and the switch that takes cases starts in it. -/
structure WithinBounds (open? : Option OpenSwitch) (a : Assembler) : Prop extends Bounded a where
  switch_le : ∀ s, open? = some s → s.origin ≤ a.offset

/-- The switch that takes cases after an emission: one that was just begun or got a case, or the
same as before if a case was refused. -/
def Emission.next (open? : Option OpenSwitch) (e : Emission) :
    Except Error (Option OpenSwitch) → Option OpenSwitch
  | .ok after => after
  | .error _ =>
    match e with
    | tableCase _ _ => open?
    | lookupCase _ _ _ => open?
    | _ => none

/-- What calls can lead to, one after the other, whether they are refused or not: an assembler, and
the switch that takes cases, if the last calls were about one. -/
inductive Reached : Option OpenSwitch → Assembler → Prop
  | start : Reached none empty
  | call {open? : Option OpenSwitch} {a : Assembler} (call : Call) (h : Reached open? a) :
    Reached none (call.perform.exec a).2
  | emission {open? : Option OpenSwitch} {a : Assembler} (e : Emission) (h : Reached open? a)
    (he : e.Continues open?) :
    Reached (e.next open? (e.perform.exec a).1) (e.perform.exec a).2

/-- One more emission. -/
theorem WithinBounds.perform {open? : Option OpenSwitch} (h : WithinBounds open? a) {e : Emission}
    (he : e.Continues open?) :
    WithinBounds (e.next open? (e.perform.exec a).1) (e.perform.exec a).2 := by
  obtain ⟨hbounded, hle⟩ := keepsBounds_perform he h.switch_le h.toBounded
  refine ⟨hbounded, fun s hs => ?_⟩
  rcases hexec : e.perform.exec a with ⟨e' | after, b⟩
  · rw [hexec] at hs hle
    -- Only a case that is refused leaves a switch open, the one that it was meant for.
    have hs : open? = some s := by
      cases e with
      | tableCase s₀ target => exact hs
      | lookupCase s₀ key target => exact hs
      | _ => cases hs
    exact Nat.le_trans (h.switch_le s hs) hle
  · rw [hexec] at hs hle
    cases hs
    rcases origin_of_perform he hexec with hs | ⟨s', hs', hs⟩
    · rw [hs]
      exact hle
    · rw [hs]
      exact Nat.le_trans (h.switch_le s' hs') hle

/-- The cases of a switch that is one call, one after the other. -/
theorem bounded_addEach {S K : Type} {add : S → K → Action Error Assembler S} {s : S}
    (within : S → Assembler → Prop) (hbounded : ∀ s a, within s a → a.Bounded)
    (hadd : ∀ s a k r b, within s a → (add s k).exec a = (r, b) →
      within (match r with | .ok s' => s' | .error _ => s) b)
    (h : within s a) (ks : List K) : (addEach add s ks a).2.Bounded := by
  obtain ⟨s', hs'⟩ := @builds_addEach a S K add (fun s _ a => within s a) (fun _ => True)
    (fun s _ a k s' b hs hexec => hadd s a k _ b hs hexec)
    (fun s _ a k e b hs hexec _ => hadd s a k _ b hs hexec) s [] h ks fun _ _ => trivial
  exact hbounded s' _ hs'

theorem bounded_call (h : a.Bounded) (call : Call) : (call.perform.exec a).2.Bounded := by
  have hwithin : WithinBounds none a := ⟨h, nofun⟩
  cases call with
  | defineLabel => exact (keepsBounds_extended h).1
  | markLabel l => exact ((keepsBounds_markLabel l).map _ a h).1
  | here => exact (keepsBounds_here.map _ a h).1
  | emit i => exact ((keepsBounds_emit i).map _ a h).1
  | branch op target => exact ((keepsBounds_branch op target).map _ a h).1
  | beginBlock handler catchType => exact ((keepsBounds_beginBlock handler catchType).map _ a h).1
  | endBlock => exact (keepsBounds_endBlock.map _ a h).1
  | addHandler region => exact ((keepsBounds_addHandler region).map _ a h).1
  | tableSwitch low default targets =>
    have hstart := hwithin.perform (e := .tableSwitch low default) trivial
    rw [Emission.perform, exec_map] at hstart
    rw [Call.perform, exec_bind]
    rcases hexec : (Assembler.tableSwitch low default).exec a with ⟨e | s, b⟩
    · rw [hexec] at hstart
      exact hstart.toBounded
    · rw [hexec] at hstart
      refine bounded_addEach (fun s a => WithinBounds (some (.table s)) a)
        (fun _ _ hs => hs.toBounded) (fun s a target r b hs hexec => ?_) hstart targets
      have hcase := hs.perform (e := .tableCase s target) rfl
      rw [Emission.perform, exec_map, hexec] at hcase
      cases r <;> exact hcase
  | lookupSwitch default cases =>
    have hstart := hwithin.perform (e := .lookupSwitch default) trivial
    rw [Emission.perform, exec_map] at hstart
    rw [Call.perform, exec_bind]
    rcases hexec : (Assembler.lookupSwitch default).exec a with ⟨e | s, b⟩
    · rw [hexec] at hstart
      exact hstart.toBounded
    · rw [hexec] at hstart
      refine bounded_addEach (fun s a => WithinBounds (some (.lookup s)) a)
        (fun _ _ hs => hs.toBounded) (fun s a c r b hs hexec => ?_) hstart cases
      have hcase := hs.perform (e := .lookupCase s c.1 c.2) rfl
      rw [Emission.perform, exec_map, hexec] at hcase
      cases r <;> exact hcase

theorem withinBounds_of_reached {open? : Option OpenSwitch} (h : Reached open? a) :
    WithinBounds open? a := by
  induction h with
  | start => exact ⟨bounded_empty, nofun⟩
  | call call _ ih => exact ⟨bounded_call ih.toBounded call, nofun⟩
  | emission e _ he ih => exact ih.perform he

/-- Runs of whole calls are among these. -/
theorem reached_run {open? : Option OpenSwitch} (h : Reached open? a) (calls : List Call) :
    ∃ open?, Reached open? (run calls a).2 := by
  induction calls generalizing open? a with
  | nil => exact ⟨open?, h⟩
  | cons call calls ih => exact ih (.call call h)

/-! ## Positions in fields of two and four bytes -/

/-- The entry of an exception table gives the positions of the labels of a range. -/
structure Locates (a : Assembler) (region : ProtectedRegion) (h : ExceptionHandler) : Prop where
  start : a.labelOffset? region.start = some h.start.toNat
  stop : a.labelOffset? region.stop = some h.stop.toNat
  handler : a.labelOffset? region.handler = some h.handler.toNat
  catchType : h.catchType = region.catchType

/-- Within the bounds a position is not cut off by a field of two bytes. -/
theorem Bounded.position_eq_ok (h : a.Bounded) {l : Label} {pc : UInt16}
    (hpc : a.position l = .ok pc) : a.labelOffset? l = some pc.toNat := by
  unfold position at hpc
  split at hpc
  · rename_i t ht
    cases hpc
    have hle := h.labelOffset_le l t ht
    have hmax := h.offset_le
    unfold maxCodeSize at hmax
    rw [ht, UInt16.toNat_ofNat', Nat.mod_eq_of_lt (by omega)]
  · cases hpc

theorem Bounded.handlerOf_eq_ok (h : a.Bounded) {region : ProtectedRegion}
    {handler : ExceptionHandler} (hexec : a.handlerOf region = .ok handler) :
    a.Locates region handler := by
  obtain ⟨start, hstart, hexec⟩ := except_bind_eq_ok.mp hexec
  obtain ⟨stop, hstop, hexec⟩ := except_bind_eq_ok.mp hexec
  obtain ⟨pc, hpc, hexec⟩ := except_bind_eq_ok.mp hexec
  cases except_pure_eq_ok.mp hexec
  exact ⟨h.position_eq_ok hstart, h.position_eq_ok hstop, h.position_eq_ok hpc, rfl⟩

theorem Bounded.handlers_eq_ok (h : a.Bounded) {table : List ExceptionHandler}
    (hexec : a.handlers = .ok table) : List.Forall₂ a.Locates a.regions.toList table := by
  have hmap : ∀ regions table, List.mapM a.handlerOf regions = .ok table →
      List.Forall₂ a.Locates regions table := by
    intro regions
    induction regions with
    | nil =>
      intro table hexec
      rw [List.mapM_nil] at hexec
      cases except_pure_eq_ok.mp hexec
      exact .nil
    | cons region regions ih =>
      intro table hexec
      rw [List.mapM_cons] at hexec
      obtain ⟨handler, hhandler, hexec⟩ := except_bind_eq_ok.mp hexec
      obtain ⟨rest, hrest, hexec⟩ := except_bind_eq_ok.mp hexec
      cases except_pure_eq_ok.mp hexec
      exact .cons (h.handlerOf_eq_ok hhandler) (ih rest hrest)
  unfold handlers at hexec
  split at hexec
  · exact hmap _ _ hexec
  · cases hexec

/-- A jump for which a displacement is found next: it starts at the first position, and the second
is that of its label.  It waits for a label that is marked now, or leads to a label that is marked
from an instruction that begins now or from the switch that takes cases. -/
inductive Spans (open? : Option OpenSwitch) (a : Assembler) : Nat → Nat → Prop
  | waiting {l : Label} {j : PendingJump} (h : j ∈ a.pending l) : Spans open? a j.origin a.offset
  | beginning {l : Label} {t : Nat} (h : a.labelOffset? l = some t) : Spans open? a a.offset t
  | switch {s : OpenSwitch} {l : Label} {t : Nat} (hs : open? = some s)
    (h : a.labelOffset? l = some t) : Spans open? a s.origin t

theorem WithinBounds.le_of_spans {open? : Option OpenSwitch} (h : WithinBounds open? a)
    {origin target : Nat} (hspans : Spans open? a origin target) :
    origin ≤ maxCodeSize ∧ target ≤ maxCodeSize := by
  have hmax := h.offset_le
  cases hspans with
  | waiting hj => exact ⟨Nat.le_trans (h.origin_le _ _ hj) hmax, hmax⟩
  | beginning ht => exact ⟨hmax, Nat.le_trans (h.labelOffset_le _ _ ht) hmax⟩
  | switch hs ht =>
    exact ⟨Nat.le_trans (h.switch_le _ hs) hmax, Nat.le_trans (h.labelOffset_le _ _ ht) hmax⟩

/-! ## Code attributes -/

theorem sizeBlind_utf8 (text : String) : SizeBlind (Pool.utf8 text) := by
  have hinsert : SizeBlind (Pool.insert .shared (.utf8 text)) := by
    intro p n
    simp only [Pool.insert, exec_ofFn]
    intro h
    split at h
    · cases h
    · split at h
      · -- A record is refused for its text or for the number of slots.
        rename_i e he
        cases h
        rw [Pool.checkRoom_eq] at he
        split at he
        · cases he
        · split at he <;> cases he
      · cases h
  exact hinsert.map Ref.mk

theorem encodeExceptionTable_ne_codeOverflow (handlers : List ExceptionHandler) (n : Nat) :
    encodeExceptionTable handlers ≠ .error (.codeOverflow n) := by
  unfold encodeExceptionTable encodeSequence
  split
  · nofun
  · split <;> nofun

theorem sizeBlind_addBuffer (name : Ref .utf8) (info : Buffer) :
    SizeBlind (AttributeWriter.addBuffer name info) := by
  intro w n
  simp only [AttributeWriter.addBuffer, exec_ofFn]
  split
  · rename_i e he
    unfold AttributeWriter.refusal? CountedTable.overflow at he
    split at he
    · cases he
      nofun
    · split at he <;> cases he
      nofun
  · nofun

theorem sizeBlind_extend (buffer : Buffer) {act : Action Error AttributeWriter Unit}
    (h : SizeBlind act) : SizeBlind (AttributeWriter.extend buffer act) := by
  intro pool n
  have hact := h (AttributeWriter.start pool buffer) n
  simp only [AttributeWriter.extend, AttributeWriter.collect, exec_bind, exec_ofFn]
  rcases hexec : act.exec (AttributeWriter.start pool buffer) with ⟨e | u, w⟩
  · rw [hexec] at hact
    exact fun h => hact (congrArg Except.error (Except.error.inj h))
  · nofun

/-- Code that is no longer than it may be is not refused for its size as an attribute. -/
theorem sizeBlind_addCode (maxStack maxLocals : UInt16) {body : MethodBody}
    (hsize : body.code.length ≤ maxCodeSize) {nested : Action Error AttributeWriter Unit}
    (hnested : SizeBlind nested) :
    SizeBlind (AttributeWriter.addCode maxStack maxLocals body nested) := by
  have hbody : ∀ n, AttributeWriter.encodeBody maxStack maxLocals body
      ≠ .error (.codeOverflow n) := by
    intro n
    unfold AttributeWriter.encodeBody
    rw [if_neg (Nat.not_lt.mpr hsize)]
    exact except_bind_ne_error (encodeExceptionTable_ne_codeOverflow _ n) fun _ => nofun
  have hbegin : SizeBlind (AttributeWriter.beginCode maxStack maxLocals body) :=
    (sizeBlind_utf8 _).bind fun _ => (SizeBlind.ofExcept hbody).bind fun _ => nofun
  refine (hbegin.onPart _ _).bind fun head => ?_
  exact ((sizeBlind_extend head.2 hnested).onPart _ _).bind fun info => sizeBlind_addBuffer _ info

/-! ## The size of code -/

/-- What the limit on the size of code comes to: emissions are refused for it exactly if they do not
fit, without writing anything; the fields for positions and displacements hold all of them; and the
attribute with the code is not refused for its size. -/
structure SizeSpec (open? : Option OpenSwitch) (a : Assembler) : Prop where
  offset_le : a.offset ≤ 65535
  of_overflow : ∀ (e : Emission) (n : Nat) (b : Assembler),
    e.perform.exec a = (.error (.codeOverflow n), b) →
      n = a.offset + e.size a.offset ∧ 65535 < n ∧ b = a
  of_passes : ∀ e : Emission, e.Continues open? → e.Passes a →
    (65535 < a.offset + e.size a.offset →
      e.perform.exec a = (.error (.codeOverflow (a.offset + e.size a.offset)), a)) ∧
    (a.offset + e.size a.offset ≤ 65535 →
      ∃ next b, e.perform.exec a = (.ok next, b) ∧ b.offset = a.offset + e.size a.offset)
  labelOffset_le : ∀ l t, a.labelOffset? l = some t → t ≤ 65535
  locates : ∀ handlers, a.handlers = .ok handlers →
    List.Forall₂ a.Locates a.regions.toList handlers
  displacement_fits : ∀ origin target : Nat, Spans open? a origin target →
    -2147483648 ≤ (target : Int) - origin ∧ (target : Int) - origin ≤ 2147483647
  addCode : ∀ (body : MethodBody), a.finish = .ok body →
    ∀ (maxStack maxLocals : UInt16) (nested : Action Error AttributeWriter Unit),
      (∀ w n, (nested.exec w).1 ≠ .error (.codeOverflow n)) →
        ∀ w n, ((AttributeWriter.addCode maxStack maxLocals body nested).exec w).1
          ≠ .error (.codeOverflow n)

/-- Wherever a run stands, whatever was refused in it. -/
theorem sizeSpec_of_reached {open? : Option OpenSwitch} (h : Reached open? a) :
    SizeSpec open? a := by
  have hbounds := withinBounds_of_reached h
  refine ⟨hbounds.offset_le, fun e n b => Emission.eq_of_overflow,
    fun e _ he => Emission.exec_of_passes he, fun l t hl => ?_,
    fun handlers => hbounds.toBounded.handlers_eq_ok, fun origin target hspans => ?_,
    fun body hbody maxStack maxLocals nested hnested => ?_⟩
  · exact Nat.le_trans (hbounds.labelOffset_le l t hl) hbounds.offset_le
  · obtain ⟨horigin, htarget⟩ := hbounds.le_of_spans hspans
    unfold maxCodeSize at horigin htarget
    omega
  · have hsize : body.code.length ≤ maxCodeSize := by
      rw [(finish_eq_ok hbody).1, Buffer.length_toList]
      exact hbounds.offset_le
    exact sizeBlind_addCode maxStack maxLocals hsize hnested

/-- Code of every size up to the limit can be reached. -/
theorem exists_reached {n : Nat} (h : n ≤ maxCodeSize) :
    ∃ open? a, Reached open? a ∧ a.offset = n := by
  induction n with
  | zero => exact ⟨none, empty, .start, rfl⟩
  | succ n ih =>
    obtain ⟨open?, a, ha, hoffset⟩ := ih (by omega)
    have hpasses : (Emission.instruction (.plain .voidReturn)).Passes a := ⟨_, rfl⟩
    have hsize : (Emission.instruction (.plain .voidReturn)).size a.offset = 1 := rfl
    obtain ⟨_, b, hb, hnext⟩ := (Emission.exec_of_passes hpasses).2 (by rw [hsize]; omega)
    have hreached := Reached.emission (.instruction (.plain .voidReturn)) ha trivial
    rw [hb] at hreached
    exact ⟨_, b, hreached, by rw [hnext, hsize, hoffset]⟩

/-- When the code is full, a switch is refused for all that it would have added. -/
theorem sizeSpec_of_full :
    ∃ open? a, Reached open? a ∧ a.offset = 65535 ∧
      ∀ default, a.isDefined default →
        (Emission.lookupSwitch default).perform.exec a = (.error (.codeOverflow 65544), a) := by
  obtain ⟨open?, a, ha, hoffset⟩ := exists_reached (n := 65535) (by decide)
  refine ⟨open?, a, ha, hoffset, fun default hdef => ?_⟩
  have hspec := ((sizeSpec_of_reached ha).of_passes (.lookupSwitch default) trivial hdef).1
  have hsize : (Emission.lookupSwitch default).size 65535 = 9 := rfl
  rw [hoffset, hsize] at hspec
  exact hspec (by decide)

end JvmClass.Assembler
