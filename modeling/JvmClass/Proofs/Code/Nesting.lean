import JvmClass.Proofs.Code.Run

/-!
# Nested blocks

The calls of a run that are about exception handlers, and were not refused, are its `history`: they
open blocks, close them, and add regions between labels.  Which block an event closes is read off
the history alone: the number of open blocks is the same just after the block was opened and just
before it is closed, and it is never smaller in between.

## Key results

- `ClosedBlock.inside_or_before`: two blocks are nested, or one is closed before the other is opened
- `ClosedBlock.eq_of_closed`: an event closes one block only
- `completions_concat`: regions are completed one after the other
-/

namespace JvmClass.Assembler

/-! ## Histories -/

/-- What a call does to the blocks and regions. -/
inductive Change
  | opened (handler : Label) (catchType : Ref .class)
  | closed
  | added (region : ProtectedRegion)

/-- What a call did, if it was not refused and is about exception handlers. -/
def Report.change? : Report → Option Change
  | ⟨.beginBlock handler catchType, .ok _⟩ => some (.opened handler catchType)
  | ⟨.endBlock, .ok _⟩ => some .closed
  | ⟨.addHandler region, .ok _⟩ => some (.added region)
  | _ => none

/-- A change, and the position at which it was made. -/
structure Event where
  offset : Nat
  change : Change

/-- The event of a call, if there is one. -/
def Call.events (call : Call) (a : Assembler) : List Event :=
  match Report.change? ⟨call, (call.perform.exec a).1⟩ with
  | some change => [⟨a.offset, change⟩]
  | none => []

/-- The events of a run. -/
def history : List Call → Assembler → List Event
  | [], _ => []
  | call :: calls, a => call.events a ++ history calls (call.perform.exec a).2

/-! ## Depth -/

/-- How much a change adds to the number of open blocks. -/
def Change.rise : Change → Int
  | opened _ _ => 1
  | closed => -1
  | added _ => 0

/-- The number of blocks that are opened less the number of those that are closed. -/
def depth : List Event → Int
  | [] => 0
  | e :: events => e.change.rise + depth events

/-- The same for the events before the `n`-th. -/
def depthAt (events : List Event) (n : Nat) : Int := depth (events.take n)

@[simp] theorem depth_append (events more : List Event) :
    depth (events ++ more) = depth events + depth more := by
  induction events with
  | nil => simp [depth]
  | cons e events ih =>
    simp only [List.cons_append, depth, ih]
    omega

@[simp] theorem depth_singleton (e : Event) : depth [e] = e.change.rise := by
  simp [depth]

theorem depthAt_succ {events : List Event} {n : Nat} {e : Event} (h : events[n]? = some e) :
    depthAt events (n + 1) = depthAt events n + e.change.rise := by
  unfold depthAt
  rw [List.take_add_one, h, depth_append]
  simp

theorem depthAt_append {events : List Event} (more : List Event) {n : Nat}
    (h : n ≤ events.length) : depthAt (events ++ more) n = depthAt events n := by
  rw [depthAt, List.take_append_of_le_length h]
  rfl

theorem depthAt_length (events : List Event) : depthAt events events.length = depth events := by
  rw [depthAt, List.take_length]

theorem depthAt_concat (events : List Event) (e : Event) :
    depthAt (events ++ [e]) (events.length + 1) = depth (events ++ [e]) := by
  rw [← @List.length_singleton _ e, ← List.length_append, depthAt_length]

theorem getElem?_append_of_some {events : List Event} (more : List Event) {n : Nat} {e : Event}
    (h : events[n]? = some e) : (events ++ more)[n]? = some e := by
  rw [List.getElem?_append_left (List.getElem?_eq_some_iff.mp h).1]
  exact h

/-! ## Closed blocks -/

/-- A block with the events that open and close it, the positions of these, and its handler. -/
structure ClosedBlock where
  opened : Nat
  closed : Nat
  start : Nat
  stop : Nat
  handler : Label
  catchType : Ref .class

namespace ClosedBlock

variable {events : List Event} {b b' : ClosedBlock}

/-- The block that was opened last is closed first: as many blocks are opened as closed in between,
and no block is closed there that was not opened there. -/
structure Of (events : List Event) (b : ClosedBlock) : Prop where
  opened_eq : events[b.opened]? = some ⟨b.start, .opened b.handler b.catchType⟩
  closed_eq : events[b.closed]? = some ⟨b.stop, .closed⟩
  opened_lt : b.opened < b.closed
  depth_eq : depthAt events b.closed = depthAt events (b.opened + 1)
  depth_le : ∀ n, b.opened < n → n ≤ b.closed → depthAt events (b.opened + 1) ≤ depthAt events n

/-- A block stays what it is when more happens. -/
theorem Of.append (h : Of events b) (more : List Event) : Of (events ++ more) b := by
  have hclosed : b.closed < events.length := (List.getElem?_eq_some_iff.mp h.closed_eq).1
  have hlt := h.opened_lt
  have hsame : ∀ n, n ≤ b.closed → depthAt (events ++ more) n = depthAt events n :=
    fun n hn => depthAt_append more (by omega)
  refine ⟨getElem?_append_of_some more h.opened_eq, getElem?_append_of_some more h.closed_eq, hlt, ?_, ?_⟩
  · rw [hsame _ (Nat.le_refl _), hsame _ hlt]
    exact h.depth_eq
  · intro n hn hle
    rw [hsame _ hlt, hsame n hle]
    exact h.depth_le n hn hle

/-- Opening a block raises the depth. -/
theorem Of.depth_opened (h : Of events b) :
    depthAt events (b.opened + 1) = depthAt events b.opened + 1 :=
  depthAt_succ h.opened_eq

/-- Closing a block takes the depth back to what it was before the block. -/
theorem Of.depth_closed (h : Of events b) :
    depthAt events (b.closed + 1) = depthAt events b.opened := by
  have hopened := h.depth_opened
  have hclosed : depthAt events (b.closed + 1) = depthAt events b.closed + -1 :=
    depthAt_succ h.closed_eq
  have heq := h.depth_eq
  omega

/-- No event both opens and closes a block. -/
theorem Of.opened_ne_closed (h : Of events b) (h' : Of events b') : b.opened ≠ b'.closed := by
  intro heq
  have hopened := h.opened_eq
  rw [heq, h'.closed_eq] at hopened
  simp at hopened

/-- Two blocks are nested, or the one that is closed first is closed before the other is opened. -/
theorem Of.inside_or_before (h : Of events b) (h' : Of events b') (hlt : b.closed < b'.closed) :
    b'.opened < b.opened ∨ b.closed < b'.opened := by
  by_cases hbefore : b.closed < b'.opened
  · exact .inr hbefore
  · left
    apply Nat.lt_of_not_le
    intro hle
    have hne := h'.opened_ne_closed h
    have hopened := h.depth_opened
    have hopened' := h'.depth_opened
    have hclosed := h.depth_closed
    -- The other block is open when the first is closed, which takes the depth below that block.
    have hlow := h'.depth_le (b.closed + 1) (by omega) hlt
    rcases Nat.lt_or_eq_of_le hle with hn | heq
    · have hhigh := h.depth_le b'.opened hn (by omega)
      omega
    · rw [heq] at hopened hclosed
      omega

/-- An event closes one block only. -/
theorem Of.eq_of_closed (h : Of events b) (h' : Of events b') (heq : b.closed = b'.closed) :
    b = b' := by
  have hfirst : ∀ {b b' : ClosedBlock}, Of events b → Of events b' → b.closed = b'.closed →
      ¬b.opened < b'.opened := by
    intro b b' h h' heq hlt
    -- The depth just before the event is that of the inner block, and of the outer one.
    have hinner := h.depth_le b'.opened hlt (by have := h'.opened_lt; omega)
    have hdepth := h.depth_eq
    rw [heq, h'.depth_eq, h'.depth_opened] at hdepth
    omega
  have hopened : b.opened = b'.opened :=
    Nat.le_antisymm (Nat.le_of_not_lt (hfirst h' h heq.symm)) (Nat.le_of_not_lt (hfirst h h' heq))
  have hstart := h.opened_eq
  have hstop := h.closed_eq
  rw [hopened, h'.opened_eq] at hstart
  rw [heq, h'.closed_eq] at hstop
  cases b
  cases b'
  cases hopened
  cases heq
  cases hstart
  cases hstop
  rfl

end ClosedBlock

/-! ## Completed regions -/

/-- The change completes a region. -/
def Change.completes : Change → Bool
  | opened _ _ => false
  | closed => true
  | added _ => true

/-- The events that complete regions, in order. -/
def completions (events : List Event) : List Nat :=
  (List.range events.length).filter fun j => events[j]?.any (·.change.completes)

theorem mem_completions {events : List Event} {j : Nat} :
    j ∈ completions events ↔ ∃ e, events[j]? = some e ∧ e.change.completes := by
  unfold completions
  rw [List.mem_filter, List.mem_range, Option.any_eq_true]
  constructor
  · exact And.right
  · rintro ⟨e, he, hcompletes⟩
    exact ⟨(List.getElem?_eq_some_iff.mp he).1, e, he, hcompletes⟩

theorem pairwise_completions (events : List Event) : (completions events).Pairwise (· < ·) :=
  List.pairwise_lt_range.filter _

/-- A new event comes behind the others, if it completes a region. -/
theorem completions_concat (events : List Event) (e : Event) :
    completions (events ++ [e])
      = completions events ++ if e.change.completes then [events.length] else [] := by
  have hsame : (List.range events.length).filter
      (fun j => (events ++ [e])[j]?.any (·.change.completes)) = completions events := by
    apply List.filter_congr
    intro j hj
    rw [List.getElem?_append_left (List.mem_range.mp hj)]
  rw [completions, List.length_append, List.length_singleton, List.range_succ, List.filter_append,
    hsame]
  simp [List.filter_cons]

end JvmClass.Assembler
