import JvmClass.Proofs.Action
import JvmClass.Proofs.Byte.Buffer
import Mathlib.Data.List.Forall2

/-!
# A buffer is a flat list of bytes

Behind its pieces a buffer is one list of bytes.  `Op.perform` does one operation to a buffer and
keeps the reservations that were made in it; `Op.flatten` does the same to a plain list, in which a
reservation is just a range.  A linked buffer comes out of operations of its own, so that links
nest to any depth.

`Refines b f` says that the buffer reads as the list, and that its reservations are the ranges of
the list, one after the other.  Every operation keeps this, whatever the pieces of the buffer are.

## Key results

- `Refines.patch`, `Refines.link`: what keeps a reservation where it is
- `refines_performAll`: any number of operations
- `flat_view`: what can be seen of a buffer is a flat list
-/

namespace JvmClass

namespace Buffer

/-! ## Operations -/

/-- What is done to a buffer.  A patch names a reservation by its number. -/
inductive Op
  | append (bytes : List UInt8)
  | reserve (n : Nat)
  | patch (k offset : Nat) (bytes : List UInt8)
  | link (other : List Op)

/-- A buffer, and the reservations that were made in it, the first one first. -/
structure Build where
  buffer : Buffer
  reservations : List Reservation

namespace Build

def start : Build := ⟨.empty, []⟩

def append (b : Build) (bytes : List UInt8) : Build :=
  { b with buffer := b.buffer.append bytes }

def reserve (b : Build) (n : Nat) : Build :=
  ⟨(b.buffer.reserve n).2, b.reservations ++ [(b.buffer.reserve n).1]⟩

/-- Fill in a reservation.  A patch that does not fit is refused, and so nothing changes. -/
def patch (b : Build) (k offset : Nat) (bytes : List UInt8) : Build :=
  match b.reservations[k]? with
  | none => b
  | some r =>
    match b.buffer.patchAt r offset bytes with
    | .ok buffer => { b with buffer }
    | .error _ => b

/-- Link a buffer in; the reservations that were made in it are given up. -/
def link (b other : Build) : Build := { b with buffer := b.buffer.link other.buffer }

end Build

/-- A range of a list. -/
structure Range where
  start : Nat
  size : Nat

def Range.stop (r : Range) : Nat := r.start + r.size

/-- A list of bytes, and the ranges that were reserved in it, the first one first. -/
structure Flat where
  bytes : List UInt8
  ranges : List Range

namespace Flat

def start : Flat := ⟨[], []⟩

def append (f : Flat) (bytes : List UInt8) : Flat := { f with bytes := f.bytes ++ bytes }

def reserve (f : Flat) (n : Nat) : Flat :=
  ⟨f.bytes ++ List.replicate n 0, f.ranges ++ [⟨f.bytes.length, n⟩]⟩

/-- Overwrite the bytes of a range from an offset on, if they lie within it. -/
def patch (f : Flat) (k offset : Nat) (bytes : List UInt8) : Flat :=
  match f.ranges[k]? with
  | none => f
  | some r =>
    if offset + bytes.length ≤ r.size then
      { f with bytes := splice f.bytes (r.start + offset) bytes }
    else
      f

end Flat

mutual

/-- Do something to a buffer. -/
def Op.perform : Op → Build → Build
  | .append bytes, b => b.append bytes
  | .reserve n, b => b.reserve n
  | .patch k offset bytes, b => b.patch k offset bytes
  | .link other, b => b.link (performAll other .start)

def performAll : List Op → Build → Build
  | [], b => b
  | op :: ops, b => performAll ops (op.perform b)

end

mutual

/-- Do the same to a flat list. -/
def Op.flatten : Op → Flat → Flat
  | .append bytes, f => f.append bytes
  | .reserve n, f => f.reserve n
  | .patch k offset bytes, f => f.patch k offset bytes
  | .link other, f => f.append (flattenAll other .start).bytes

def flattenAll : List Op → Flat → Flat
  | [], f => f
  | op :: ops, f => flattenAll ops (op.flatten f)

end

theorem performAll_append (ops more : List Op) (b : Build) :
    performAll (ops ++ more) b = performAll more (performAll ops b) := by
  induction ops generalizing b with
  | nil => rfl
  | cons op ops ih => exact ih (op.perform b)

theorem flattenAll_append (ops more : List Op) (f : Flat) :
    flattenAll (ops ++ more) f = flattenAll more (flattenAll ops f) := by
  induction ops generalizing f with
  | nil => rfl
  | cons op ops ih => exact ih (op.flatten f)

/-! ## Ranges of a flat list -/

/-- The ranges lie in the list, one behind the other. -/
structure Flat.Laid (f : Flat) : Prop where
  pairwise : f.ranges.Pairwise fun r s => r.stop ≤ s.start
  stop_le : ∀ r ∈ f.ranges, r.stop ≤ f.bytes.length

theorem Flat.laid_start : start.Laid where
  pairwise := .nil
  stop_le := nofun

variable {f : Flat}

theorem Flat.Laid.append (h : f.Laid) (bytes : List UInt8) : (f.append bytes).Laid where
  pairwise := h.pairwise
  stop_le r hr := by
    have hle := h.stop_le r hr
    show r.stop ≤ (f.bytes ++ bytes).length
    rw [List.length_append]
    omega

theorem Flat.Laid.reserve (h : f.Laid) (n : Nat) : (f.reserve n).Laid where
  pairwise := by
    -- The new range starts where the list ended, behind all others.
    refine List.pairwise_append.mpr ⟨h.pairwise, List.pairwise_singleton _ _, ?_⟩
    intro r hr s hs
    rw [List.mem_singleton.mp hs]
    exact h.stop_le r hr
  stop_le r hr := by
    show r.stop ≤ (f.bytes ++ List.replicate n 0).length
    rw [List.length_append, List.length_replicate]
    rcases List.mem_append.mp hr with hr | hr
    · have hle := h.stop_le r hr
      omega
    · rw [List.mem_singleton.mp hr]
      exact Nat.le_refl _

/-- A patch either changes nothing or replaces bytes of one range by as many others. -/
theorem Flat.patch_cases (f : Flat) (k offset : Nat) (bytes : List UInt8) :
    f.patch k offset bytes = f ∨ ∃ r ∈ f.ranges, offset + bytes.length ≤ r.size ∧
      f.patch k offset bytes = { f with bytes := splice f.bytes (r.start + offset) bytes } := by
  unfold Flat.patch
  split
  · exact .inl rfl
  · rename_i r hr
    split
    · rename_i hfit
      exact .inr ⟨r, List.mem_of_getElem? hr, hfit, rfl⟩
    · exact .inl rfl

theorem Flat.Laid.patch (h : f.Laid) (k offset : Nat) (bytes : List UInt8) :
    (f.patch k offset bytes).Laid := by
  rcases f.patch_cases k offset bytes with heq | ⟨r, hr, hfit, heq⟩
  · rwa [heq]
  · have hstop := h.stop_le r hr
    have hlen : (splice f.bytes (r.start + offset) bytes).length = f.bytes.length := by
      refine length_splice ?_
      unfold Range.stop at hstop
      omega
    rw [heq]
    exact ⟨h.pairwise, fun s hs => hlen.symm ▸ h.stop_le s hs⟩

theorem Op.laid_flatten (op : Op) (h : f.Laid) : (op.flatten f).Laid := by
  cases op with
  | append bytes => exact h.append bytes
  | reserve n => exact h.reserve n
  | patch k offset bytes => exact h.patch k offset bytes
  | link other => exact h.append _

theorem laid_flattenAll (ops : List Op) (h : f.Laid) : (flattenAll ops f).Laid := by
  induction ops generalizing f with
  | nil => exact h
  | cons op ops ih => exact ih (op.laid_flatten h)

/-! ## Reservations never move -/

theorem Flat.ranges_patch (f : Flat) (k offset : Nat) (bytes : List UInt8) :
    (f.patch k offset bytes).ranges = f.ranges := by
  rcases f.patch_cases k offset bytes with heq | ⟨r, -, -, heq⟩
  · rw [heq]
  · rw [heq]

/-- An operation may add a range and leaves the others where they are. -/
theorem Op.ranges_flatten (op : Op) (f : Flat) : f.ranges <+: (op.flatten f).ranges := by
  cases op with
  | append bytes => exact List.prefix_rfl
  | reserve n => exact List.prefix_append _ _
  | patch k offset bytes =>
    have hranges : (f.patch k offset bytes).ranges = f.ranges := f.ranges_patch k offset bytes
    exact hranges ▸ List.prefix_rfl
  | link other => exact List.prefix_rfl

theorem ranges_flattenAll (ops : List Op) (f : Flat) : f.ranges <+: (flattenAll ops f).ranges := by
  induction ops generalizing f with
  | nil => exact List.prefix_rfl
  | cons op ops ih => exact (op.ranges_flatten f).trans (ih (op.flatten f))

theorem Build.reservations_patch (b : Build) (k offset : Nat) (bytes : List UInt8) :
    (b.patch k offset bytes).reservations = b.reservations := by
  unfold Build.patch
  split
  · rfl
  · split
    · rfl
    · rfl

theorem Op.reservations_perform (op : Op) (b : Build) :
    b.reservations <+: (op.perform b).reservations := by
  cases op with
  | append bytes => exact List.prefix_rfl
  | reserve n => exact List.prefix_append _ _
  | patch k offset bytes =>
    have hsame : (b.patch k offset bytes).reservations = b.reservations :=
      b.reservations_patch k offset bytes
    exact hsame ▸ List.prefix_rfl
  | link other => exact List.prefix_rfl

theorem reservations_performAll (ops : List Op) (b : Build) :
    b.reservations <+: (performAll ops b).reservations := by
  induction ops generalizing b with
  | nil => exact List.prefix_rfl
  | cons op ops ih => exact (op.reservations_perform b).trans (ih (op.perform b))

/-! ## Refinement -/

/-- The reservation is the given range of the whole buffer. -/
structure Marks (b : Buffer) (r : Reservation) (range : Range) : Prop where
  size_eq : r.size = range.size
  stands : b.Stands r range.start

/-- The buffer reads as the flat list, and its reservations are the ranges. -/
structure Refines (b : Build) (f : Flat) : Prop where
  toList_eq : b.buffer.toList = f.bytes
  marks : List.Forall₂ b.buffer.Marks b.reservations f.ranges

theorem refines_start : Refines .start .start := ⟨rfl, .nil⟩

variable {b : Build}

/-- Ranges are marked in any buffer that keeps the reservations of the first one. -/
theorem Refines.marks_of_keeps (h : Refines b f) {b' : Buffer}
    (hkeeps : ∀ r pos, b.buffer.Stands r pos → b'.Stands r pos) :
    List.Forall₂ b'.Marks b.reservations f.ranges :=
  h.marks.imp fun r range hr => ⟨hr.size_eq, hkeeps r range.start hr.stands⟩

theorem Refines.append (h : Refines b f) (bytes : List UInt8) :
    Refines (b.append bytes) (f.append bytes) where
  toList_eq := by
    show (b.buffer.append bytes).toList = f.bytes ++ bytes
    rw [toList_append, h.toList_eq]
  marks := h.marks_of_keeps fun _ _ hr => hr.append bytes

theorem Refines.reserve (h : Refines b f) (n : Nat) : Refines (b.reserve n) (f.reserve n) where
  toList_eq := by
    show (b.buffer.reserve n).2.toList = f.bytes ++ List.replicate n 0
    rw [toList_reserve, h.toList_eq]
  marks := by
    have hold := h.marks_of_keeps fun _ _ hr => hr.reserve n
    have hnew := b.buffer.stands_reserve n
    rw [← length_toList, h.toList_eq] at hnew
    exact List.rel_append hold (.cons ⟨rfl, hnew⟩ .nil)

theorem Refines.exists_range (h : Refines b f) {k : Nat} {r : Reservation}
    (hk : b.reservations[k]? = some r) :
    ∃ range, f.ranges[k]? = some range ∧ b.buffer.Marks r range := by
  obtain ⟨hlt, rfl⟩ := List.getElem?_eq_some_iff.mp hk
  have hlt' : k < f.ranges.length := by rwa [← h.marks.length_eq]
  exact ⟨f.ranges[k], List.getElem?_eq_getElem hlt', h.marks.get hlt hlt'⟩

/-- What a patch of a reservation does, seen from the flat list. -/
theorem Refines.patchAt (h : Refines b f) {r : Reservation} {range : Range}
    (hr : b.buffer.Marks r range) (offset : Nat) (bytes : List UInt8) :
    (range.size < offset + bytes.length →
      b.buffer.patchAt r offset bytes = .error ⟨bytes.length, offset, range.size⟩) ∧
    (offset + bytes.length ≤ range.size →
      b.buffer.patchAt r offset bytes = .ok (b.buffer.overwrite r offset bytes) ∧
      (b.buffer.overwrite r offset bytes).toList = splice f.bytes (range.start + offset) bytes) := by
  have hsize := hr.size_eq
  unfold Buffer.patchAt
  constructor
  · intro hlong
    rw [if_neg (by omega), hsize]
  · intro hfit
    have hfit : offset + bytes.length ≤ r.size := by omega
    rw [if_pos hfit, toList_overwrite hr.stands hfit, h.toList_eq]
    exact ⟨rfl, rfl⟩

theorem Refines.patch (h : Refines b f) (k offset : Nat) (bytes : List UInt8) :
    Refines (b.patch k offset bytes) (f.patch k offset bytes) := by
  unfold Build.patch Flat.patch
  -- Reservations and ranges are numbered alike.
  rcases hk : b.reservations[k]? with _ | r
  · have hnone : f.ranges[k]? = none := by
      rw [List.getElem?_eq_none_iff] at hk ⊢
      rwa [← h.marks.length_eq]
    rw [hnone]
    exact h
  · obtain ⟨range, hrange, hr⟩ := h.exists_range hk
    obtain ⟨hlong, hfits⟩ := h.patchAt hr offset bytes
    rw [hrange]
    by_cases hfit : offset + bytes.length ≤ range.size
    · obtain ⟨hpatch, hlist⟩ := hfits hfit
      simp only [hpatch, if_pos hfit]
      exact ⟨hlist, h.marks_of_keeps fun _ _ hs => hs.overwrite r offset bytes⟩
    · simp only [hlong (by omega), if_neg hfit]
      exact h

/-- Linking is appending what the other buffer reads as. -/
theorem Refines.link (h : Refines b f) {other : Build} {g : Flat} (hother : Refines other g) :
    Refines (b.link other) (f.append g.bytes) where
  toList_eq := by
    show (b.buffer.link other.buffer).toList = f.bytes ++ g.bytes
    rw [toList_link, h.toList_eq, hother.toList_eq]
  marks := h.marks_of_keeps fun _ _ hr => hr.link other.buffer

mutual

/-- An operation does to the buffer what it does to the flat list. -/
theorem Op.refines (op : Op) {b : Build} {f : Flat} (h : Refines b f) :
    Refines (op.perform b) (op.flatten f) :=
  match op with
  | .append bytes => h.append bytes
  | .reserve n => h.reserve n
  | .patch k offset bytes => h.patch k offset bytes
  | .link other => h.link (refines_performAll other refines_start)

/-- Whatever is done to a buffer, it goes on to read as the flat list. -/
theorem refines_performAll (ops : List Op) {b : Build} {f : Flat} (h : Refines b f) :
    Refines (performAll ops b) (flattenAll ops f) :=
  match ops with
  | [] => h
  | op :: ops => refines_performAll ops (op.refines h)

end

/-! ## What is read from a buffer -/

variable {ε σ : Type}

/-- A writer that takes in all bytes that it is given, behind those that it has seen. -/
def Sink (write : ByteArray → Action ε σ Unit) (seen : σ → List UInt8) : Prop :=
  ∀ piece s, ∃ s', (write piece).exec s = (.ok (), s') ∧ seen s' = seen s ++ piece.data.toList

/-- Collecting bytes in a list is one. -/
example : Sink (fun piece => (modify (· ++ piece.data.toList) : Action ε (List UInt8) Unit)) id :=
  fun _ _ => ⟨_, rfl, rfl⟩

theorem Sink.forM {write : ByteArray → Action ε σ Unit} {seen : σ → List UInt8}
    (h : Sink write seen) (pieces : List ByteArray) (s : σ) :
    ∃ s', (pieces.forM write).exec s = (.ok (), s') ∧
      seen s' = seen s ++ pieces.flatMap (·.data.toList) := by
  induction pieces generalizing s with
  | nil => exact ⟨s, rfl, (List.append_nil _).symm⟩
  | cons piece pieces ih =>
    obtain ⟨t, hfirst, hseen⟩ := h piece s
    obtain ⟨t', hrest, hseen'⟩ := ih t
    refine ⟨t', Action.exec_bind_eq_ok.mpr ⟨(), t, hfirst, hrest⟩, ?_⟩
    rw [hseen', hseen, List.flatMap_cons, List.append_assoc]

/-- Writing a buffer out piece by piece writes its flat list. -/
theorem Sink.writeTo {write : ByteArray → Action ε σ Unit} {seen : σ → List UInt8}
    (h : Sink write seen) (b : Buffer) (s : σ) :
    ∃ s', (b.writeTo write).exec s = (.ok (), s') ∧ seen s' = seen s ++ b.toList := by
  obtain ⟨t, hfinished, hseen⟩ := h.forM b.finished.toList s
  obtain ⟨t', htail, hseen'⟩ := h b.tail t
  refine ⟨t', Action.exec_bind_eq_ok.mpr ⟨(), t, hfinished, htail⟩, ?_⟩
  rw [hseen', hseen, toList, List.append_assoc]

theorem isEmpty_iff (b : Buffer) : b.isEmpty = true ↔ b.toList = [] := by
  rw [← List.length_eq_zero_iff, length_toList, isEmpty, beq_iff_eq]

/-- A reservation that stands anywhere lies within its piece. -/
theorem Stands.exists_piece {b : Buffer} {r : Reservation} {pos : Nat} (h : b.Stands r pos) :
    ∃ piece, b.pieces[r.piece]? = some piece ∧ r.start + r.size ≤ piece.size := by
  obtain ⟨before, n, after, hsizes, hlen, hfit, -⟩ := h
  have hn : (b.pieces.map ByteArray.size)[r.piece]? = some n := by
    rw [← pieceSizes, hsizes, ← hlen, List.getElem?_append_right (Nat.le_refl _), Nat.sub_self]
    rfl
  rw [List.getElem?_map] at hn
  obtain ⟨piece, hpiece, rfl⟩ := Option.map_eq_some_iff.mp hn
  exact ⟨piece, hpiece, hfit⟩

/-- Whatever operations a buffer comes out of, it is a flat list of bytes to everyone who reads it
or writes it out.  Its reservations are ranges of that list, none of which overlap and which no
further operation moves.  A patch that does not fit its range is refused, and any other one lies
within a piece of the buffer and replaces its own bytes of the list. -/
theorem flat_view (ops : List Op) :
    let b := performAll ops .start
    let f := flattenAll ops .start
    b.buffer.toList = f.bytes ∧
    (∀ {ε σ : Type} {write : ByteArray → Action ε σ Unit} {seen : σ → List UInt8},
      Sink write seen → ∀ s, ∃ s', (b.buffer.writeTo write).exec s = (.ok (), s') ∧
        seen s' = seen s ++ f.bytes) ∧
    b.buffer.size = f.bytes.length ∧ (b.buffer.isEmpty = true ↔ f.bytes = []) ∧
    f.ranges.Pairwise (fun r s => r.stop ≤ s.start) ∧
    (∀ more, b.reservations <+: (performAll (ops ++ more) .start).reservations ∧
      f.ranges <+: (flattenAll (ops ++ more) .start).ranges) ∧
    b.reservations.length = f.ranges.length ∧
    ∀ (k : Nat) (r : Reservation), b.reservations[k]? = some r →
      ∃ range, f.ranges[k]? = some range ∧ r.size = range.size ∧ range.stop ≤ f.bytes.length ∧
        (∃ piece, b.buffer.pieces[r.piece]? = some piece ∧ r.start + r.size ≤ piece.size) ∧
        ∀ (offset : Nat) (bytes : List UInt8),
          (range.size < offset + bytes.length →
            b.buffer.patchAt r offset bytes = .error ⟨bytes.length, offset, range.size⟩) ∧
          (offset + bytes.length ≤ range.size → ∃ b', b.buffer.patchAt r offset bytes = .ok b' ∧
            b'.toList = splice f.bytes (range.start + offset) bytes) := by
  intro b f
  have hrefines : Refines b f := refines_performAll ops refines_start
  have hlaid : f.Laid := laid_flattenAll ops Flat.laid_start
  have hlist := hrefines.toList_eq
  refine ⟨hlist, ?_, ?_, ?_, hlaid.pairwise, ?_, hrefines.marks.length_eq, ?_⟩
  · intro ε σ write seen hsink s
    rw [← hlist]
    exact hsink.writeTo b.buffer s
  · rw [← length_toList, hlist]
  · rw [isEmpty_iff, hlist]
  · intro more
    rw [performAll_append, flattenAll_append]
    exact ⟨reservations_performAll more b, ranges_flattenAll more f⟩
  · intro k r hk
    obtain ⟨range, hrange, hr⟩ := hrefines.exists_range hk
    have hstop := hlaid.stop_le range (List.mem_of_getElem? hrange)
    refine ⟨range, hrange, hr.size_eq, hstop, hr.stands.exists_piece, ?_⟩
    intro offset bytes
    obtain ⟨hlong, hfits⟩ := hrefines.patchAt hr offset bytes
    exact ⟨hlong, fun hfit => ⟨_, hfits hfit⟩⟩

/-- A reservation that is filled in after another buffer was linked in behind it. -/
example :
    (performAll [.append [1, 2], .reserve 1, .link [.append [3, 4, 5]], .append [6],
      .patch 0 0 [9], .patch 0 0 [7, 8]] .start).buffer.toList = [1, 2, 9, 3, 4, 5, 6] := by
  decide +kernel

end Buffer

end JvmClass
