import JvmClass.Proofs.Code.Realization
import JvmClass.Proofs.Code.Size

/-!
# What is settled once and for all

The code of a method only grows, and a label that is marked stays where it is, whatever is refused
afterwards.  Only three calls have to do with exception handlers; all others leave the open blocks
and the regions alone.

## Key results

- `Later`, `Aside`: what every call, and every call that is not about handlers, leaves as it is
- `aside_marked`, `labelOffset?_marked`: a new label at the current position
- `aside_perform`: calls that are not about handlers
-/

namespace JvmClass.Assembler

open JvmClass.Action

/-! ## Later states -/

/-- The code has not become shorter, and the labels that were marked are where they were. -/
structure Later (a b : Assembler) : Prop where
  offset_le : a.offset ≤ b.offset
  labelOffset? : ∀ {l : Label} {t : Nat}, a.labelOffset? l = some t → b.labelOffset? l = some t

/-- In addition nothing has happened to the open blocks and the regions. -/
structure Aside (a b : Assembler) : Prop extends Later a b where
  blocks_eq : b.blocks = a.blocks
  regions_eq : b.regions = a.regions

variable {a b : Assembler}

theorem later_refl (a : Assembler) : Later a a := ⟨Nat.le_refl _, id⟩

theorem Later.trans {c : Assembler} (hab : Later a b) (hbc : Later b c) : Later a c :=
  ⟨Nat.le_trans hab.offset_le hbc.offset_le, fun hl => hbc.labelOffset? (hab.labelOffset? hl)⟩

instance : Std.Refl Aside := ⟨fun a => ⟨later_refl a, rfl, rfl⟩⟩

instance : IsTrans Assembler Aside where
  trans _ _ _ hab hbc :=
    ⟨hab.toLater.trans hbc.toLater, hbc.blocks_eq.trans hab.blocks_eq,
      hbc.regions_eq.trans hab.regions_eq⟩

/-- Where the labels are the same, only the size of the code matters. -/
theorem aside_of_labels (hlabels : b.labels = a.labels) (hle : a.offset ≤ b.offset)
    (hblocks : b.blocks = a.blocks) (hregions : b.regions = a.regions) : Aside a b := by
  refine ⟨⟨hle, fun {l t} hl => ?_⟩, hblocks, hregions⟩
  rwa [labelOffset?, hlabels]

theorem aside_write (bytes : List UInt8) : Aside a (a.write bytes) :=
  aside_of_labels rfl (by simp) rfl rfl

theorem aside_reserved (size : Nat) : Aside a (a.reserved size) :=
  aside_of_labels rfl (by simp) rfl rfl

theorem aside_fillIn (target : Nat) (js : List PendingJump) :
    Aside a (js.foldl (fillIn target) a) := by
  obtain ⟨hoffset, hlabels⟩ := fillIn_spec target js a
  have hself := foldl_fillIn target js a
  exact aside_of_labels hlabels (Nat.le_of_eq hoffset.symm) (by rw [hself]) (by rw [hself])

theorem aside_extended : Aside a a.extended := by
  refine ⟨⟨Nat.le_refl _, fun hl => ?_⟩, rfl, rfl⟩
  rwa [labelOffset?_of_extended]

theorem aside_awaiting (l : Label) (j : PendingJump) : Aside a (a.awaiting l j) := by
  refine ⟨⟨Nat.le_refl _, fun hl => ?_⟩, rfl, rfl⟩
  rwa [labelOffset?_awaiting]

/-- A label that is given a position had none. -/
theorem aside_placed {l : Label} (hdef : a.isDefined l) (hl : a.labelOffset? l = none)
    (target : Nat) : Aside a (a.placed l target) := by
  refine ⟨⟨Nat.le_refl _, fun {k t} hk => ?_⟩, rfl, rfl⟩
  have hne : k ≠ l := by
    rintro rfl
    rw [hl] at hk
    cases hk
  rw [labelOffset?_placed hdef, markAt, if_neg hne]
  exact hk

/-! ## Operations -/

theorem aside_resolve (target : Nat) (js : List PendingJump) : (resolve target js).Moves Aside := by
  intro a
  rw [exec_resolve]
  exact aside_fillIn target _

theorem aside_markLabel (l : Label) : (markLabel l).Moves Aside := by
  intro a
  rw [exec_markLabel]
  by_cases hdef : a.isDefined l
  · rw [if_pos hdef]
    cases hl : a.labelOffset? l with
    | some t => exact refl_of Aside a
    | none => exact trans_of Aside (aside_placed hdef hl _) (aside_resolve _ _ _)
  · rw [if_neg hdef]
    exact refl_of Aside a

/-- A new label at the current position. -/
theorem aside_marked (a : Assembler) : Aside a a.marked := by
  have hplaced := aside_placed (a := a.extended) a.isDefined_extended a.labelOffset?_extended
    a.offset
  exact trans_of Aside aside_extended hplaced

theorem labelOffset?_marked (a : Assembler) :
    a.marked.labelOffset? ⟨a.labels.size⟩ = some a.offset := by
  rw [marked, labelOffset?_placed a.isDefined_extended, markAt, if_pos rfl]

theorem aside_jumpOperand (op : Opcode) (origin : Nat) (width : JumpWidth) (target : Label) :
    (jumpOperand op origin width target).Moves Aside := by
  intro a
  rw [exec_jumpOperand]
  by_cases hdef : a.isDefined target
  · rw [if_pos hdef]
    cases a.labelOffset? target with
    | some position => exact trans_of Aside (aside_reserved _) (aside_resolve _ _ _)
    | none => exact trans_of Aside (aside_reserved _) (aside_awaiting _ _)
  · rw [if_neg hdef]
    exact refl_of Aside a

theorem aside_append (bytes : List UInt8) : (append bytes).Moves Aside := fun _ => aside_write bytes

theorem aside_reserve (size : Nat) : (reserve size).Moves Aside := fun _ => aside_reserved size

theorem aside_patch (field : Buffer.Reservation) (bytes : List UInt8) :
    (patch field bytes).Moves Aside := by
  intro a
  rw [exec_patch]
  exact aside_of_labels rfl (Nat.le_of_eq (offset_overwrite a field bytes).symm) rfl rfl

theorem aside_ensureRoom (size : Nat) : (ensureRoom size).Moves Aside := Moves.inspect _

theorem aside_emit (i : Instruction) : (emit i).Moves Aside :=
  .bind (Moves.ofExcept _) fun _ => .bind (aside_ensureRoom _) fun _ => aside_append _

theorem aside_branch (op : Opcode) (target : Label) : (branch op target).Moves Aside :=
  .bind (Moves.ofExcept _) fun _ => .bind (aside_ensureRoom _) fun _ =>
    .bind (Moves.inspect _) fun _ => .bind (aside_append _) fun _ => aside_jumpOperand _ _ _ _

theorem aside_switchHeader (op : Opcode) (size : Nat) (default : Label) :
    (switchHeader op size default).Moves Aside :=
  .bind (Moves.inspect _) fun _ => .bind (aside_ensureRoom _) fun _ =>
    .bind (aside_append _) fun _ => .bind (aside_jumpOperand _ _ _ _) fun _ => Moves.pure _

theorem aside_tableSwitch (low : Int32) (default : Label) :
    (tableSwitch low default).Moves Aside :=
  .bind (aside_switchHeader _ _ _) fun _ => .bind (aside_append _) fun _ =>
    .bind (aside_reserve _) fun _ => .bind (aside_patch _ _) fun _ => Moves.pure _

theorem aside_lookupSwitch (default : Label) : (lookupSwitch default).Moves Aside :=
  .bind (aside_switchHeader _ _ _) fun _ => .bind (aside_reserve _) fun _ => Moves.pure _

theorem aside_tableCase (s : TableSwitch) (target : Label) : (s.addCase target).Moves Aside := by
  unfold TableSwitch.addCase
  cases s.nextKey with
  | none => exact Moves.inspect _
  | some key =>
    exact .bind (aside_ensureRoom _) fun _ => .bind (aside_jumpOperand _ _ _ _) fun _ =>
      .bind (aside_patch _ _) fun _ => Moves.pure _

theorem aside_lookupCase (s : LookupSwitch) (key : Int32) (target : Label) :
    (s.addCase key target).Moves Aside :=
  .bind (Moves.ofExcept _) fun _ => .bind (aside_ensureRoom _) fun _ =>
    .bind (aside_append _) fun _ => .bind (aside_jumpOperand _ _ _ _) fun _ =>
      .bind (aside_patch _ _) fun _ => Moves.pure _

/-- Cases that are added one after the other, whether they are refused or not. -/
theorem aside_addEach {S K : Type} {add : S → K → Action Error Assembler S}
    (hadd : ∀ s k, (add s k).Moves Aside) (s : S) (ks : List K) :
    (Action.ofFn fun a => (addEach add s ks a).map .ok id :
      Action Error Assembler (List (Except Error Unit))).Moves Aside := by
  intro a
  show Aside a (addEach add s ks a).2
  induction ks generalizing s a with
  | nil => exact refl_of Aside a
  | cons k ks ih =>
    have hfirst := hadd s k a
    unfold addEach
    rcases hexec : (add s k).exec a with ⟨e | s', b⟩
    · rw [hexec] at hfirst
      exact trans_of Aside hfirst (ih s b)
    · rw [hexec] at hfirst
      exact trans_of Aside hfirst (ih s' b)

/-! ## Calls -/

/-- The call is about exception handlers. -/
def Call.isAboutHandlers : Call → Bool
  | beginBlock _ _ | endBlock | addHandler _ => true
  | _ => false

/-- All other calls leave the blocks and the regions alone. -/
theorem aside_perform {call : Call} (h : call.isAboutHandlers = false) :
    call.perform.Moves Aside := by
  cases call with
  | defineLabel => exact Moves.map (fun _ => aside_extended) _
  | markLabel l => exact (aside_markLabel l).map _
  | here =>
    have hhere : Assembler.here.Moves Aside := fun a => by
      rw [exec_here]
      exact aside_marked a
    exact hhere.map _
  | emit i => exact (aside_emit i).map _
  | branch op target => exact (aside_branch op target).map _
  | tableSwitch low default targets =>
    unfold Call.perform
    exact .bind (aside_tableSwitch low default) fun s => aside_addEach aside_tableCase s targets
  | lookupSwitch default cases =>
    have hcase : ∀ (s : LookupSwitch) (c : Int32 × Label), (s.addCase c.1 c.2).Moves Aside :=
      fun s c => aside_lookupCase s c.1 c.2
    unfold Call.perform
    exact .bind (aside_lookupSwitch default) fun s => aside_addEach hcase s cases
  | beginBlock handler catchType => simp [Call.isAboutHandlers] at h
  | endBlock => simp [Call.isAboutHandlers] at h
  | addHandler region => simp [Call.isAboutHandlers] at h

end JvmClass.Assembler
