import JvmClass.Proofs.Code.Bounds
import JvmClass.Proofs.Code.LeftBehind
import JvmClass.Proofs.Code.Nesting
import JvmClass.Proofs.Code.Onward

/-!
# Exception tables

The virtual machine takes the first entry of an exception table that fits, so that the order of the
entries matters.  A table has one entry for each region that was completed, in that order, and the
entry of a block has the positions at which the block was opened and closed.  Since the block that
was opened last is closed first, inner blocks come before those around them.

`Traces` is the invariant: it says how the open blocks and the regions of an assembler come from the
events so far.  Each call about handlers adds one event; all other calls keep it because they leave
blocks and regions alone and no label moves.

## Key results

- `Traces.concat`: what an event has to do to keep the invariant
- `traces_run`: a run keeps it
- `Traces.handlers_cases`: when there is a table, and what is reported otherwise
- `Traces.inside_or_before`: the ranges of two blocks
- `exceptionTable_of_run`: the table after a run
-/

namespace JvmClass

/-- The labels of a region, in the order in which they are looked up. -/
def ProtectedRegion.labels (region : ProtectedRegion) : List Label :=
  [region.start, region.stop, region.handler]

namespace Assembler

open JvmClass.Action

variable {a b : Assembler} {events : List Event}

/-! ## Blocks and regions of a history -/

/-- The block was opened by an event, and so many blocks have been open ever since, itself and those
around it. -/
structure OpenedAt (events : List Event) (a : Assembler) (level : Nat) (block : OpenBlock)
    (opened start : Nat) : Prop where
  opened_eq : events[opened]? = some ⟨start, .opened block.handler block.catchType⟩
  start_eq : a.labelOffset? block.start = some start
  depth_eq : depthAt events (opened + 1) = level
  depth_le : ∀ n, opened < n → n ≤ events.length → level ≤ depthAt events n

/-- The region was completed by the `j`-th event. -/
inductive CompletedBy (events : List Event) (a : Assembler) (j : Nat) (region : ProtectedRegion) :
    Prop
  | block (block : ClosedBlock) (hblock : block.Of events) (hclosed : block.closed = j)
    (hstart : a.labelOffset? region.start = some block.start)
    (hstop : a.labelOffset? region.stop = some block.stop)
    (hhandler : region.handler = block.handler) (hcatch : region.catchType = block.catchType)
  | added (offset : Nat) (hadded : events[j]? = some ⟨offset, .added region⟩)

/-- How the open blocks and the regions come from the events so far. -/
structure Traces (events : List Event) (a : Assembler) : Prop where
  ordered : events.Pairwise fun e e' => e.offset ≤ e'.offset
  offset_le : ∀ e ∈ events, e.offset ≤ a.offset
  depth_eq : depth events = a.blocks.length
  blocks : ∀ inner block outer, a.blocks = inner ++ block :: outer →
    ∃ opened start, OpenedAt events a (outer.length + 1) block opened start
  regions : List.Forall₂ (CompletedBy events a) (completions events) a.regions.toList

theorem traces_empty : Traces [] empty where
  ordered := .nil
  offset_le := nofun
  depth_eq := rfl
  blocks inner block outer h := by simp [empty] at h
  regions := .nil

theorem OpenedAt.later {level : Nat} {block : OpenBlock} {opened start : Nat}
    (h : OpenedAt events a level block opened start) (hlater : Later a b) :
    OpenedAt events b level block opened start :=
  { h with start_eq := hlater.labelOffset? h.start_eq }

/-- A block stays open as long as there are so many. -/
theorem OpenedAt.concat {level : Nat} {block : OpenBlock} {opened start : Nat}
    (h : OpenedAt events a level block opened start) {e : Event}
    (hlevel : level ≤ depth (events ++ [e])) :
    OpenedAt (events ++ [e]) a level block opened start := by
  have hlt : opened < events.length := (List.getElem?_eq_some_iff.mp h.opened_eq).1
  refine ⟨getElem?_append_of_some _ h.opened_eq, h.start_eq, ?_, fun n hn hle => ?_⟩
  · rw [depthAt_append _ hlt]
    exact h.depth_eq
  · by_cases hlast : n ≤ events.length
    · rw [depthAt_append _ hlast]
      exact h.depth_le n hn hlast
    · rw [List.length_append, List.length_singleton] at hle
      rw [show n = events.length + 1 by omega, depthAt_concat]
      exact hlevel

theorem CompletedBy.later {j : Nat} {region : ProtectedRegion} (h : CompletedBy events a j region)
    (hlater : Later a b) (more : List Event) : CompletedBy (events ++ more) b j region := by
  cases h with
  | block block hblock hclosed hstart hstop hhandler hcatch =>
    exact .block block (hblock.append more) hclosed (hlater.labelOffset? hstart)
      (hlater.labelOffset? hstop) hhandler hcatch
  | added offset hadded => exact .added offset (getElem?_append_of_some more hadded)

/-! ## Calls -/

/-- Calls that leave blocks and regions alone keep the invariant. -/
theorem Traces.aside (h : Traces events a) (haside : Aside a b) : Traces events b where
  ordered := h.ordered
  offset_le e he := Nat.le_trans (h.offset_le e he) haside.offset_le
  depth_eq := by
    rw [haside.blocks_eq]
    exact h.depth_eq
  blocks inner block outer heq := by
    rw [haside.blocks_eq] at heq
    obtain ⟨opened, start, hopened⟩ := h.blocks inner block outer heq
    exact ⟨opened, start, hopened.later haside.toLater⟩
  regions := by
    rw [haside.regions_eq]
    refine h.regions.imp fun j region hregion => ?_
    have hlater := hregion.later haside.toLater []
    rwa [List.append_nil] at hlater

/-- A block that was open before an event, and still is. -/
theorem Traces.openedAt_concat (h : Traces events a) (hlater : Later a b) {e : Event}
    (hdepth : depth (events ++ [e]) = b.blocks.length) {inner : List OpenBlock} {block : OpenBlock}
    {outer : List OpenBlock} (heq : a.blocks = inner ++ block :: outer)
    (hlevel : outer.length < b.blocks.length) :
    ∃ opened start, OpenedAt (events ++ [e]) b (outer.length + 1) block opened start := by
  obtain ⟨opened, start, hopened⟩ := h.blocks inner block outer heq
  refine ⟨opened, start, (hopened.concat ?_).later hlater⟩
  rw [hdepth]
  exact_mod_cast hlevel

/-- An event keeps the invariant if the depth is the number of open blocks again, these were opened
by events, and the region that it completes, if any, is put behind the others. -/
theorem Traces.concat (h : Traces events a) (hlater : Later a b) {change : Change}
    (hdepth : depth events + change.rise = b.blocks.length)
    (hblocks : ∀ inner block outer, b.blocks = inner ++ block :: outer →
      ∃ opened start,
        OpenedAt (events ++ [⟨a.offset, change⟩]) b (outer.length + 1) block opened start)
    {regions : List ProtectedRegion} (hregions : b.regions.toList = a.regions.toList ++ regions)
    (hcompleted : List.Forall₂ (CompletedBy (events ++ [⟨a.offset, change⟩]) b)
      (if change.completes then [events.length] else []) regions) :
    Traces (events ++ [⟨a.offset, change⟩]) b where
  ordered := by
    rw [List.pairwise_append]
    refine ⟨h.ordered, List.pairwise_singleton _ _, fun e he e' he' => ?_⟩
    rw [List.mem_singleton.mp he']
    exact h.offset_le e he
  offset_le e he := by
    rcases List.mem_append.mp he with he | he
    · exact Nat.le_trans (h.offset_le e he) hlater.offset_le
    · rw [List.mem_singleton.mp he]
      exact hlater.offset_le
  depth_eq := by simpa using hdepth
  blocks := hblocks
  regions := by
    rw [completions_concat, hregions]
    refine List.rel_append (h.regions.imp fun j region hregion => ?_) hcompleted
    exact hregion.later hlater _

theorem getElem?_concat_length (events : List Event) (e : Event) :
    (events ++ [e])[events.length]? = some e := by
  simp

theorem later_of_marked (hlabels : b.labels = a.marked.labels) (hcode : b.code = a.code) :
    Later a b := by
  have hmarked := (aside_marked a).toLater
  refine ⟨Nat.le_of_eq (congrArg Buffer.size hcode).symm, fun {l t} hl => ?_⟩
  have hl := hmarked.labelOffset? hl
  rwa [labelOffset?, ← hlabels] at hl

/-- The new block is the innermost one. -/
theorem Traces.beginBlock (h : Traces events a) (handler : Label) (catchType : Ref .class) :
    Traces (events ++ [⟨a.offset, .opened handler catchType⟩])
      { a.marked with blocks := ⟨⟨a.labels.size⟩, handler, catchType⟩ :: a.blocks } := by
  have hlater : Later a
      { a.marked with blocks := ⟨⟨a.labels.size⟩, handler, catchType⟩ :: a.blocks } :=
    later_of_marked rfl rfl
  have hdepth : depth events + 1 = (a.blocks.length + 1 : Nat) := by
    rw [h.depth_eq]
    rfl
  refine h.concat hlater hdepth (fun inner block outer heq => ?_) (List.append_nil _).symm .nil
  have hdepth' : depth (events ++ [⟨a.offset, .opened handler catchType⟩])
      = (a.blocks.length + 1 : Nat) := by
    rw [depth_append, depth_singleton]
    exact hdepth
  cases inner with
  | cons newest inner =>
    -- The other blocks are still open.
    rw [List.cons_append] at heq
    have heq := (List.cons.inj heq).2
    apply h.openedAt_concat hlater hdepth' heq
    simp only [heq, List.length_cons, List.length_append]
    omega
  | nil =>
    rw [List.nil_append] at heq
    obtain ⟨rfl, rfl⟩ := List.cons.inj heq
    refine ⟨events.length, a.offset, getElem?_concat_length _ _, labelOffset?_marked a, ?_, ?_⟩
    · rw [depthAt_concat]
      exact hdepth'
    · intro n hn hle
      rw [List.length_append, List.length_singleton] at hle
      rw [show n = events.length + 1 by omega, depthAt_concat]
      exact Int.le_of_eq hdepth'.symm

/-- The innermost block is closed, and its region completed. -/
theorem Traces.endBlock (h : Traces events a) {block : OpenBlock} {rest : List OpenBlock}
    (hblocks : a.blocks = block :: rest) :
    Traces (events ++ [⟨a.offset, .closed⟩])
      { a.marked with
        blocks := rest
        regions :=
          a.regions.push ⟨block.start, ⟨a.labels.size⟩, block.handler, block.catchType⟩ } := by
  have hlater : Later a { a.marked with
        blocks := rest
        regions :=
          a.regions.push ⟨block.start, ⟨a.labels.size⟩, block.handler, block.catchType⟩ } :=
    later_of_marked rfl rfl
  have hbefore : depth events = (rest.length + 1 : Nat) := by
    rw [h.depth_eq, hblocks, List.length_cons]
  have hdepth : depth events + -1 = (rest.length : Nat) := by
    rw [hbefore]
    omega
  refine h.concat hlater hdepth (fun inner b outer heq => ?_) (Array.toList_push ..) ?_
  · -- The blocks around it are still open.
    have heq : rest = inner ++ b :: outer := heq
    have hlevel : outer.length < rest.length := by
      rw [heq, List.length_append, List.length_cons]
      omega
    have hall : a.blocks = (block :: inner) ++ b :: outer := by rw [hblocks, heq, List.cons_append]
    apply h.openedAt_concat hlater _ hall hlevel
    rw [depth_append, depth_singleton]
    exact hdepth
  · obtain ⟨opened, start, hopened⟩ := h.blocks [] block rest hblocks
    have hlt : opened < events.length := (List.getElem?_eq_some_iff.mp hopened.opened_eq).1
    let closed : ClosedBlock :=
      ⟨opened, events.length, start, a.offset, block.handler, block.catchType⟩
    have hclosed : closed.Of (events ++ [⟨a.offset, .closed⟩]) := by
      refine ⟨getElem?_append_of_some _ hopened.opened_eq, getElem?_concat_length _ _, hlt, ?_,
        fun n hn hle => ?_⟩
      · show depthAt _ events.length = depthAt _ (opened + 1)
        rw [depthAt_append _ (Nat.le_refl _), depthAt_append _ hlt, depthAt_length, hbefore,
          hopened.depth_eq]
      · show depthAt _ (opened + 1) ≤ _
        rw [depthAt_append _ hlt, depthAt_append _ hle, hopened.depth_eq]
        exact hopened.depth_le n hn hle
    refine .cons (.block closed hclosed rfl ?_ (labelOffset?_marked a) rfl rfl) .nil
    exact hlater.labelOffset? hopened.start_eq

theorem Traces.addHandler (h : Traces events a) (region : ProtectedRegion) :
    Traces (events ++ [⟨a.offset, .added region⟩])
      { a with regions := a.regions.push region } := by
  have hlater : Later a { a with regions := a.regions.push region } := ⟨Nat.le_refl _, id⟩
  have hdepth : depth events + 0 = (a.blocks.length : Nat) := by
    rw [Int.add_zero]
    exact h.depth_eq
  refine h.concat hlater hdepth (fun inner block outer heq => ?_) (Array.toList_push ..) ?_
  · apply h.openedAt_concat hlater _ heq
    · show outer.length < a.blocks.length
      rw [show a.blocks = inner ++ block :: outer from heq, List.length_append, List.length_cons]
      omega
    · rw [depth_append, depth_singleton]
      exact hdepth
  · exact .cons (.added a.offset (getElem?_concat_length _ _)) .nil

/-- A call is looked at through what it returned and where it led. -/
theorem traces_of_exec {call : Call} {r : Except Error (List (Except Error Unit))}
    (hexec : call.perform.exec a = (r, b))
    (h : Traces (events ++ match Report.change? ⟨call, r⟩ with
      | some change => [⟨a.offset, change⟩]
      | none => []) b) :
    Traces (events ++ call.events a) (call.perform.exec a).2 := by
  rw [Call.events, hexec]
  exact h

theorem Traces.refused (h : Traces events a) {call : Call} {e : Error}
    (hexec : call.perform.exec a = (.error e, b)) (hb : b = a) :
    Traces (events ++ call.events a) (call.perform.exec a).2 := by
  have hnone : Report.change? ⟨call, .error e⟩ = none := by cases call <;> rfl
  apply traces_of_exec hexec
  rw [hnone, hb]
  simpa using h

/-- Every call keeps the invariant, and adds its event to the history if it is about handlers and is
not refused. -/
theorem Traces.perform (h : Traces events a) (call : Call) :
    Traces (events ++ call.events a) (call.perform.exec a).2 := by
  have hother : call.isAboutHandlers = false → (∀ r, Report.change? ⟨call, r⟩ = none) →
      Traces (events ++ call.events a) (call.perform.exec a).2 := by
    intro hcall hnone
    rw [Call.events, hnone]
    simpa using h.aside (aside_perform hcall a)
  cases call with
  | beginBlock handler catchType =>
    rcases hexec : (Assembler.beginBlock handler catchType).exec a with ⟨e | u, b⟩
    · exact h.refused (exec_map_eq_error.mpr hexec) (eq_of_beginBlock_error hexec)
    · apply traces_of_exec (exec_map_eq_ok.mpr ⟨u, hexec, rfl⟩)
      rw [exec_beginBlock] at hexec
      split at hexec <;> cases hexec
      exact h.beginBlock handler catchType
  | endBlock =>
    rcases hexec : Assembler.endBlock.exec a with ⟨e | u, b⟩
    · exact h.refused (exec_map_eq_error.mpr hexec) (eq_of_endBlock_error hexec)
    · apply traces_of_exec (exec_map_eq_ok.mpr ⟨u, hexec, rfl⟩)
      rw [exec_endBlock] at hexec
      split at hexec
      · cases hexec
      · rename_i block rest hblocks
        cases hexec
        exact h.endBlock hblocks
  | addHandler region =>
    rcases hexec : (Assembler.addHandler region).exec a with ⟨e | u, b⟩
    · exact h.refused (exec_map_eq_error.mpr hexec) (eq_of_addHandler_error hexec)
    · apply traces_of_exec (exec_map_eq_ok.mpr ⟨u, hexec, rfl⟩)
      rw [exec_addHandler] at hexec
      -- All three labels have to be defined.
      split at hexec
      · cases hexec
      split at hexec
      · cases hexec
      split at hexec <;> cases hexec
      exact h.addHandler region
  | _ => exact hother rfl fun r => by cases r <;> rfl

/-- A run adds its history to the events. -/
theorem traces_run (h : Traces events a) (calls : List Call) :
    Traces (events ++ history calls a) (run calls a).2 := by
  induction calls generalizing events a with
  | nil => simpa [history, run] using h
  | cons call calls ih =>
    have hrest := ih (h.perform call)
    rwa [List.append_assoc] at hrest

/-! ## Handlers -/

theorem position_of_marked {l : Label} {t : Nat} (h : a.labelOffset? l = some t) :
    a.position l = .ok (UInt16.ofNat t) := by
  rw [position, h]

theorem position_of_unmarked {l : Label} (h : a.labelOffset? l = none) :
    a.position l = .error (.unmarkedLabel l) := by
  rw [position, h]

/-- A region has an entry if all of its labels are marked. -/
theorem handlerOf_cases (a : Assembler) (region : ProtectedRegion) :
    (∃ entry, a.handlerOf region = .ok entry) ∧
        (∀ l ∈ region.labels, a.labelOffset? l ≠ none) ∨
      ∃ l ∈ region.labels, a.labelOffset? l = none ∧
        a.handlerOf region = .error (.unmarkedLabel l) := by
  unfold handlerOf
  cases hstart : a.labelOffset? region.start with
  | none =>
    rw [position_of_unmarked hstart]
    exact .inr ⟨region.start, by simp [ProtectedRegion.labels], hstart, rfl⟩
  | some start =>
    rw [position_of_marked hstart]
    cases hstop : a.labelOffset? region.stop with
    | none =>
      rw [position_of_unmarked hstop]
      exact .inr ⟨region.stop, by simp [ProtectedRegion.labels], hstop, rfl⟩
    | some stop =>
      rw [position_of_marked hstop]
      cases hhandler : a.labelOffset? region.handler with
      | none =>
        rw [position_of_unmarked hhandler]
        exact .inr ⟨region.handler, by simp [ProtectedRegion.labels], hhandler, rfl⟩
      | some handler =>
        rw [position_of_marked hhandler]
        refine .inl ⟨⟨_, rfl⟩, ?_⟩
        simp [ProtectedRegion.labels, hstart, hstop, hhandler]

/-- Regions have entries if all of their labels are marked; otherwise one that is not is reported. -/
theorem mapM_handlerOf_cases (a : Assembler) (regions : List ProtectedRegion) :
    (∃ table, regions.mapM a.handlerOf = .ok table) ∧
        (∀ region ∈ regions, ∀ l ∈ region.labels, a.labelOffset? l ≠ none) ∨
      ∃ region ∈ regions, ∃ l ∈ region.labels, a.labelOffset? l = none ∧
        regions.mapM a.handlerOf = .error (.unmarkedLabel l) := by
  induction regions with
  | nil => exact .inl ⟨⟨[], rfl⟩, nofun⟩
  | cons region regions ih =>
    rw [List.mapM_cons]
    rcases handlerOf_cases a region with ⟨⟨entry, hentry⟩, hmarked⟩ | ⟨l, hl, hnone, herror⟩
    · rw [hentry]
      rcases ih with ⟨⟨table, htable⟩, hrest⟩ | ⟨region', hregion', l, hl, hnone, herror⟩
      · refine .inl ⟨⟨entry :: table, by rw [htable]; rfl⟩, fun r hr => ?_⟩
        rcases List.mem_cons.mp hr with rfl | hr
        · exact hmarked
        · exact hrest r hr
      · refine .inr ⟨region', List.mem_cons_of_mem _ hregion', l, hl, hnone, ?_⟩
        rw [herror]
        rfl
    · refine .inr ⟨region, List.mem_cons_self, l, hl, hnone, ?_⟩
      rw [herror]
      rfl

theorem finish_of_handlers_error {e : Error} (h : a.handlers = .error e) :
    a.finish = .error e := by
  unfold finish
  rw [h]
  rfl

theorem handlers_of_finish {body : MethodBody} (h : a.finish = .ok body) :
    a.handlers = .ok body.handlers := by
  unfold finish at h
  cases hhandlers : a.handlers with
  | error e =>
    rw [hhandlers] at h
    cases h
  | ok table =>
    rw [hhandlers] at h
    cases hawaited : a.awaited? with
    | some l =>
      simp only [hawaited] at h
      cases h
    | none =>
      simp only [hawaited] at h
      cases h
      rfl

/-! ## Entries -/

/-- The entry of the region that the `j`-th event completed: a block has the positions at which it
was opened and closed, and the handler and the class that it was opened with. -/
inductive EntryOf (events : List Event) (a : Assembler) (j : Nat) (entry : ExceptionHandler) : Prop
  | block (block : ClosedBlock) (hblock : block.Of events) (hclosed : block.closed = j)
    (hstart : entry.start.toNat = block.start) (hstop : entry.stop.toNat = block.stop)
    (hhandler : a.labelOffset? block.handler = some entry.handler.toNat)
    (hcatch : entry.catchType = block.catchType)
  | added (offset : Nat) (region : ProtectedRegion)
    (hadded : events[j]? = some ⟨offset, .added region⟩) (hentry : a.Locates region entry)

/-- The label belongs to a region that was completed. -/
inductive Names (events : List Event) (l : Label) : Prop
  | block (block : ClosedBlock) (hblock : block.Of events) (hhandler : block.handler = l)
  | added (j offset : Nat) (region : ProtectedRegion)
    (hadded : events[j]? = some ⟨offset, .added region⟩) (hl : l ∈ region.labels)

theorem CompletedBy.entryOf {j : Nat} {region : ProtectedRegion} {entry : ExceptionHandler}
    (h : CompletedBy events a j region) (hentry : a.Locates region entry) :
    EntryOf events a j entry := by
  cases h with
  | block block hblock hclosed hstart hstop hhandler hcatch =>
    have hstart' := hentry.start
    have hstop' := hentry.stop
    have hhandler' := hentry.handler
    rw [hstart] at hstart'
    rw [hstop] at hstop'
    rw [hhandler] at hhandler'
    exact .block block hblock hclosed (Option.some.inj hstart').symm (Option.some.inj hstop').symm
      hhandler' (hentry.catchType.trans hcatch)
  | added offset hadded => exact .added offset region hadded hentry

theorem exists_of_forall₂ {α β : Type} {R : α → β → Prop} {xs : List α} {ys : List β}
    (h : List.Forall₂ R xs ys) {x : α} (hx : x ∈ xs) : ∃ y ∈ ys, R x y := by
  induction h with
  | nil => cases hx
  | cons hxy _ ih =>
    rcases List.mem_cons.mp hx with rfl | hx
    · exact ⟨_, List.mem_cons_self, hxy⟩
    · obtain ⟨y, hy, hxy⟩ := ih hx
      exact ⟨y, List.mem_cons_of_mem _ hy, hxy⟩

theorem forall₂_comp {α β γ : Type} {R : α → β → Prop} {S : β → γ → Prop} {xs : List α}
    {ys : List β} {zs : List γ} (h : List.Forall₂ R xs ys) (h' : List.Forall₂ S ys zs) :
    List.Forall₂ (fun x z => ∃ y, R x y ∧ S y z) xs zs := by
  induction h generalizing zs with
  | nil =>
    cases h'
    exact .nil
  | cons hxy _ ih =>
    cases h' with
    | cons hyz hrest => exact .cons ⟨_, hxy, hyz⟩ (ih hrest)

theorem ClosedBlock.Of.mem_completions {block : ClosedBlock} (h : block.Of events) :
    block.closed ∈ completions events :=
  Assembler.mem_completions.mpr ⟨_, h.closed_eq, rfl⟩

namespace Traces

/-- Positions of events do not decrease. -/
theorem offset_mono (h : Traces events a) {m n : Nat} {e e' : Event} (hm : events[m]? = some e)
    (hn : events[n]? = some e') (hlt : m < n) : e.offset ≤ e'.offset := by
  obtain ⟨hm', rfl⟩ := List.getElem?_eq_some_iff.mp hm
  obtain ⟨hn', rfl⟩ := List.getElem?_eq_some_iff.mp hn
  exact List.pairwise_iff_getElem.mp h.ordered m n hm' hn' hlt

/-- Of a block only the handler can be without a position. -/
theorem names_of_unmarked (h : Traces events a) {region : ProtectedRegion}
    (hregion : region ∈ a.regions.toList) {l : Label} (hl : l ∈ region.labels)
    (hnone : a.labelOffset? l = none) : Names events l := by
  obtain ⟨j, -, hj⟩ := exists_of_forall₂ h.regions.flip hregion
  cases hj with
  | added offset hadded => exact .added j offset region hadded hl
  | block block hblock hclosed hstart hstop hhandler hcatch =>
    have hcases : l = region.start ∨ l = region.stop ∨ l = region.handler := by
      simpa [ProtectedRegion.labels] using hl
    rcases hcases with rfl | rfl | rfl
    · rw [hstart] at hnone
      cases hnone
    · rw [hstop] at hnone
      cases hnone
    · exact .block block hblock hhandler.symm

/-- The regions have all labels of the completed ones. -/
theorem exists_region_of_names (h : Traces events a) {l : Label} (hl : Names events l) :
    ∃ region ∈ a.regions.toList, l ∈ region.labels := by
  cases hl with
  | block block hblock hhandler =>
    obtain ⟨region, hregion, hcompleted⟩ := exists_of_forall₂ h.regions hblock.mem_completions
    refine ⟨region, hregion, ?_⟩
    cases hcompleted with
    | added offset hadded =>
      rw [hblock.closed_eq] at hadded
      simp at hadded
    | block block' hblock' hclosed _ _ hhandler' _ =>
      cases hblock'.eq_of_closed hblock hclosed
      simp [ProtectedRegion.labels, hhandler', hhandler]
  | added j offset region hadded hl =>
    have hmem : j ∈ completions events := Assembler.mem_completions.mpr ⟨_, hadded, rfl⟩
    obtain ⟨region', hregion', hcompleted⟩ := exists_of_forall₂ h.regions hmem
    cases hcompleted with
    | added offset' hadded' =>
      rw [hadded] at hadded'
      cases hadded'
      exact ⟨region, hregion', hl⟩
    | block block hblock hclosed _ _ _ _ =>
      rw [← hclosed, hblock.closed_eq] at hadded
      simp at hadded

/-- There is a table if no block is open and all labels of the completed regions are marked. -/
theorem handlers_cases (h : Traces events a) :
    (∃ n : Nat, 0 < n ∧ depth events = n ∧ a.handlers = .error (.openBlocks n)) ∨
    (depth events = 0 ∧ (∀ l, Names events l → a.labelOffset? l ≠ none) ∧
      ∃ table, a.handlers = .ok table) ∨
    (depth events = 0 ∧ ∃ l, Names events l ∧ a.labelOffset? l = none ∧
      a.handlers = .error (.unmarkedLabel l)) := by
  have hdepth := h.depth_eq
  unfold handlers
  cases hblocks : a.blocks with
  | cons block rest =>
    rw [hblocks] at hdepth
    exact .inl ⟨_, Nat.succ_pos rest.length, hdepth, rfl⟩
  | nil =>
    rw [hblocks] at hdepth
    right
    rcases mapM_handlerOf_cases a a.regions.toList with
      ⟨htable, hmarked⟩ | ⟨region, hregion, l, hl, hnone, herror⟩
    · refine .inl ⟨hdepth, fun l hl => ?_, htable⟩
      obtain ⟨region, hregion, hl⟩ := h.exists_region_of_names hl
      exact hmarked region hregion l hl
    · exact .inr ⟨hdepth, l, h.names_of_unmarked hregion hl hnone, hnone, herror⟩

theorem error_iff (h : Traces events a) :
    (∃ e, a.handlers = .error e) ↔
      0 < depth events ∨ ∃ l, Names events l ∧ a.labelOffset? l = none := by
  rcases h.handlers_cases with
    ⟨n, hpos, hdepth, hopen⟩ | ⟨hdepth, hmarked, table, htable⟩ | ⟨hdepth, l, hl, hnone, herror⟩
  · rw [hopen, hdepth]
    exact ⟨fun _ => .inl (by omega), fun _ => ⟨_, rfl⟩⟩
  · rw [htable, hdepth]
    constructor
    · rintro ⟨e, he⟩
      cases he
    · rintro (hpos | ⟨l, hl, hnone⟩)
      · omega
      · exact absurd hnone (hmarked l hl)
  · rw [herror]
    exact ⟨fun _ => .inr ⟨l, hl, hnone⟩, fun _ => ⟨_, rfl⟩⟩

/-- Open blocks are reported before labels are looked at. -/
theorem openBlocks_iff (h : Traces events a) (n : Nat) :
    a.handlers = .error (.openBlocks n) ↔ 0 < n ∧ depth events = n := by
  rcases h.handlers_cases with
    ⟨m, hpos, hdepth, hopen⟩ | ⟨hdepth, -, table, htable⟩ | ⟨hdepth, l, -, -, herror⟩
  · rw [hopen, hdepth]
    constructor
    · intro heq
      cases heq
      exact ⟨hpos, rfl⟩
    · rintro ⟨-, heq⟩
      rw [Int.natCast_inj.mp heq]
  · rw [htable, hdepth]
    exact ⟨nofun, fun ⟨hpos, heq⟩ => by omega⟩
  · rw [herror, hdepth]
    exact ⟨nofun, fun ⟨hpos, heq⟩ => by omega⟩

theorem error_eq (h : Traces events a) {e : Error} (he : a.handlers = .error e) :
    (∃ n, e = .openBlocks n) ∨
      ∃ l, e = .unmarkedLabel l ∧ Names events l ∧ a.labelOffset? l = none := by
  rcases h.handlers_cases with
    ⟨n, -, -, hopen⟩ | ⟨-, -, table, htable⟩ | ⟨-, l, hl, hnone, herror⟩
  · rw [hopen] at he
    cases he
    exact .inl ⟨n, rfl⟩
  · rw [htable] at he
    cases he
  · rw [herror] at he
    cases he
    exact .inr ⟨l, rfl, hl, hnone⟩

/-- The entries of the table are those of the completed regions, in their order. -/
theorem entries (h : Traces events a) (hbounded : a.Bounded) {table : List ExceptionHandler}
    (htable : a.handlers = .ok table) :
    List.Forall₂ (EntryOf events a) (completions events) table := by
  have hboth := forall₂_comp h.regions (hbounded.handlers_eq_ok htable)
  exact hboth.imp fun j entry ⟨region, hcompleted, hentry⟩ => hcompleted.entryOf hentry

/-- Every event that closes a block closes exactly one. -/
theorem existsUnique_block (h : Traces events a) {j stop : Nat}
    (hj : events[j]? = some ⟨stop, .closed⟩) :
    ∃! block : ClosedBlock, block.Of events ∧ block.closed = j := by
  have hmem : j ∈ completions events := Assembler.mem_completions.mpr ⟨_, hj, rfl⟩
  obtain ⟨region, -, hcompleted⟩ := exists_of_forall₂ h.regions hmem
  cases hcompleted with
  | added offset hadded =>
    rw [hj] at hadded
    simp at hadded
  | block block hblock hclosed _ _ _ _ =>
    refine ⟨block, ⟨hblock, hclosed⟩, fun block' hblock' => ?_⟩
    exact hblock'.1.eq_of_closed hblock (hblock'.2.trans hclosed.symm)

end Traces

/-! ## Nesting -/

/-- A block was opened and closed within another, and so its range lies within that of the other. -/
structure ClosedBlock.Inside (block block' : ClosedBlock) : Prop where
  opened_lt : block'.opened < block.opened
  closed_lt : block.closed < block'.closed
  start_le : block'.start ≤ block.start
  stop_le : block.stop ≤ block'.stop

/-- A block was closed before another was opened, and so its range ends before that of the other. -/
structure ClosedBlock.Before (block block' : ClosedBlock) : Prop where
  closed_lt : block.closed < block'.opened
  stop_le : block.stop ≤ block'.start

/-- A block that is closed before another is inside it or before it. -/
theorem Traces.inside_or_before (h : Traces events a) {block block' : ClosedBlock}
    (hblock : block.Of events) (hblock' : block'.Of events) (hlt : block.closed < block'.closed) :
    block.Inside block' ∨ block.Before block' := by
  rcases hblock.inside_or_before hblock' hlt with hopened | hclosed
  · exact .inl ⟨hopened, hlt, h.offset_mono hblock'.opened_eq hblock.opened_eq hopened,
      h.offset_mono hblock.closed_eq hblock'.closed_eq hlt⟩
  · exact .inr ⟨hclosed, h.offset_mono hblock.closed_eq hblock'.opened_eq hclosed⟩

/-! ## Calls that are accepted -/

theorem beginBlock_eq_ok {handler : Label} {catchType : Ref .class} :
    ((beginBlock handler catchType).exec a).1 = .ok () ↔ a.isDefined handler := by
  rw [exec_beginBlock]
  by_cases hdef : a.isDefined handler
  · simp [hdef]
  · simp [hdef]

theorem addHandler_eq_ok {region : ProtectedRegion} :
    ((addHandler region).exec a).1 = .ok () ↔ ∀ l ∈ region.labels, a.isDefined l := by
  rw [exec_addHandler]
  simp only [ProtectedRegion.labels, List.forall_mem_cons, List.not_mem_nil]
  by_cases hstart : a.isDefined region.start
  · by_cases hstop : a.isDefined region.stop
    · by_cases hhandler : a.isDefined region.handler <;> simp [hstart, hstop, hhandler]
    · simp [hstart, hstop]
  · simp [hstart]

/-- An end is accepted as long as there is something to end. -/
theorem Traces.endBlock_eq_ok (h : Traces events a) :
    (Assembler.endBlock.exec a).1 = .ok () ↔ 0 < depth events := by
  rw [exec_endBlock, h.depth_eq]
  cases a.blocks with
  | nil => simp
  | cons block rest => simp

/-! ## Tables -/

/-- The exception table of an assembler with the given history.  Blocks are begun and regions added
if their labels are defined, and a block is ended if one is open.  The table has an entry for each
completed region in their order, so that of two blocks the one that comes first is inside the other
or before it; and there is one unless a block is open or a label of a region is not marked. -/
structure TableSpec (events : List Event) (a : Assembler) : Prop where
  begin_ok : ∀ (handler : Label) (catchType : Ref .class),
    ((beginBlock handler catchType).exec a).1 = .ok () ↔ a.isDefined handler
  end_ok : (endBlock.exec a).1 = .ok () ↔ 0 < depth events
  add_ok : ∀ region : ProtectedRegion,
    ((addHandler region).exec a).1 = .ok () ↔ ∀ l ∈ region.labels, a.isDefined l
  matched : ∀ j stop, events[j]? = some ⟨stop, .closed⟩ →
    ∃! block : ClosedBlock, block.Of events ∧ block.closed = j
  listed : ∀ block : ClosedBlock, block.Of events → block.closed ∈ completions events
  entries : ∀ table, a.handlers = .ok table →
    List.Forall₂ (EntryOf events a) (completions events) table
  nested : ∀ (p p' : Nat) (block block' : ClosedBlock), p < p' →
    (completions events)[p]? = some block.closed → (completions events)[p']? = some block'.closed →
    block.Of events → block'.Of events → block.Inside block' ∨ block.Before block'
  error_iff : (∃ e, a.handlers = .error e) ↔
    0 < depth events ∨ ∃ l, Names events l ∧ a.labelOffset? l = none
  openBlocks_iff : ∀ n, a.handlers = .error (.openBlocks n) ↔ 0 < n ∧ depth events = n
  error_eq : ∀ e, a.handlers = .error e →
    (∃ n, e = .openBlocks n) ∨ ∃ l, e = .unmarkedLabel l ∧ Names events l ∧ a.labelOffset? l = none
  finish_ok : ∀ body, a.finish = .ok body → a.handlers = .ok body.handlers
  finish_error : ∀ e, a.handlers = .error e → a.finish = .error e

/-- The exception table after any run, whatever was refused in it. -/
theorem exceptionTable_of_run (calls : List Call) :
    TableSpec (history calls empty) (run calls empty).2 := by
  have htraces : Traces (history calls empty) (run calls empty).2 := traces_run traces_empty calls
  obtain ⟨_, hreached⟩ := reached_run .start calls
  have hbounded := (withinBounds_of_reached hreached).toBounded
  generalize history calls empty = events at htraces
  generalize (run calls empty).2 = a at htraces hbounded
  refine ⟨fun _ _ => beginBlock_eq_ok, htraces.endBlock_eq_ok, fun _ => addHandler_eq_ok,
    fun j stop => htraces.existsUnique_block, fun block hblock => hblock.mem_completions,
    fun table htable => htraces.entries hbounded htable,
    fun p p' block block' hlt hp hp' hblock hblock' => ?_, htraces.error_iff,
    htraces.openBlocks_iff, fun e he => htraces.error_eq he, fun body => handlers_of_finish,
    fun e => finish_of_handlers_error⟩
  -- Regions are listed in the order in which they were completed.
  obtain ⟨hp, hclosed⟩ := List.getElem?_eq_some_iff.mp hp
  obtain ⟨hp', hclosed'⟩ := List.getElem?_eq_some_iff.mp hp'
  have hless := List.pairwise_iff_getElem.mp (pairwise_completions events) p p' hp hp' hlt
  rw [hclosed, hclosed'] at hless
  exact htraces.inside_or_before hblock hblock' hless

/-- A block inside another, both of which are closed at the same position; a third end is refused. -/
example :
    (run [.defineLabel, .defineLabel, .beginBlock ⟨0⟩ .none, .emit (.plain .voidReturn),
      .beginBlock ⟨1⟩ ⟨7⟩, .emit (.plain .voidReturn), .endBlock, .endBlock, .endBlock,
      .markLabel ⟨1⟩, .emit (.plain .voidReturn), .markLabel ⟨0⟩] empty).2.handlers
      = .ok [⟨1, 2, 2, ⟨7⟩⟩, ⟨0, 2, 3, .none⟩] := by
  rfl

end Assembler

end JvmClass
