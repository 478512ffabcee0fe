import JvmClass.Byte.Buffer

/-!
# Patching a buffer

A reservation names a piece of a buffer and a place in it.  `Stands b r pos` says that it lies
within that piece and that its first byte is number `pos` of the whole buffer.  Whatever is done to
the buffer, the reservation keeps standing there, and overwriting it replaces just its own bytes in
the flat list of the buffer.

## Key results

- `Buffer.stands_reserve`: a new reservation stands at the end
- `Buffer.Stands.append`, `Buffer.Stands.overwrite`, `Buffer.Stands.link`: it never moves
- `Buffer.toList_overwrite`: what a patch does to the flat list
-/

namespace JvmClass

-- Sums start from the zero of the core library, also where Mathlib brings its own.
attribute [local instance (high)] Zero.ofOfNat0

/-! ## Replacing a stretch of a list -/

variable {α : Type}

/-- The list with `ys` in place of the elements from position `i` on. -/
def splice (xs : List α) (i : Nat) (ys : List α) : List α :=
  xs.take i ++ ys ++ xs.drop (i + ys.length)

@[simp] theorem splice_nil (xs : List α) (i : Nat) : splice xs i [] = xs := by
  simp [splice]

theorem length_splice {xs ys : List α} {i : Nat} (h : i + ys.length ≤ xs.length) :
    (splice xs i ys).length = xs.length := by
  simp only [splice, List.length_append, List.length_take, List.length_drop]
  omega

/-- A stretch that lies in the first of two lists. -/
theorem splice_append_left {xs ys : List α} {i : Nat} (zs : List α)
    (h : i + ys.length ≤ xs.length) : splice (xs ++ zs) i ys = splice xs i ys ++ zs := by
  unfold splice
  rw [List.take_append_of_le_length (by omega), List.drop_append_of_le_length h]
  simp only [List.append_assoc]

/-- A stretch that lies in the second of two lists. -/
theorem splice_append_right (xs ys zs : List α) (i : Nat) :
    splice (xs ++ zs) (xs.length + i) ys = xs ++ splice zs i ys := by
  unfold splice
  rw [Nat.add_assoc, List.take_length_add_append, List.drop_length_add_append]
  simp only [List.append_assoc]

/-- A stretch that is replaced as a whole. -/
theorem splice_middle {xs ys zs old : List α} (h : ys.length = old.length) :
    splice (xs ++ (old ++ zs)) xs.length ys = xs ++ (ys ++ zs) := by
  have hold : splice (old ++ zs) 0 ys = ys ++ zs := by
    simp [splice, h]
  rw [← Nat.add_zero xs.length, splice_append_right, hold]

/-- Replacing a stretch element by element. -/
theorem splice_set {xs ys : List α} {i : Nat} {y : α} (h : i < xs.length) :
    splice (xs.set i y) (i + 1) ys = splice xs i (y :: ys) := by
  unfold splice
  have htake : (xs.set i y).take (i + 1) = xs.take i ++ [y] := by
    rw [List.take_add_one, List.take_set_of_le (Nat.le_refl i), List.getElem?_set_self h]
    rfl
  have hdrop : (xs.set i y).drop (i + 1 + ys.length) = xs.drop (i + (y :: ys).length) := by
    rw [List.drop_set_of_lt (by omega), List.length_cons]
    congr 1
    omega
  rw [htake, hdrop]
  simp

/-! ## Overwriting bytes -/

theorem ByteArray.toList_overwrite {data : ByteArray} {i : Nat} {bytes : List UInt8}
    (h : i + bytes.length ≤ data.size) :
    (overwrite data i bytes).data.toList = splice data.data.toList i bytes := by
  induction bytes generalizing data i with
  | nil => rw [overwrite, splice_nil]
  | cons b bs ih =>
    rw [List.length_cons] at h
    have hset : (data.set! i b).data.toList = data.data.toList.set i b := Array.toList_setIfInBounds
    have hsize : (data.set! i b).size = data.size := Array.size_setIfInBounds
    have hlen : i < data.data.toList.length := by
      rw [Array.length_toList]
      exact Nat.lt_of_lt_of_le (by omega) h
    rw [overwrite, ih (by omega), hset, splice_set hlen]

namespace Buffer

/-! ## Where a reservation stands -/

/-- All pieces of a buffer, the tail last. -/
def pieces (b : Buffer) : List ByteArray := b.finished.toList ++ [b.tail]

/-- The sizes of the pieces of a buffer. -/
def pieceSizes (b : Buffer) : List Nat := b.pieces.map ByteArray.size

/-- The reservation lies within its piece, and starts at position `pos` of the whole buffer. -/
def Stands (b : Buffer) (r : Reservation) (pos : Nat) : Prop :=
  ∃ before n after, b.pieceSizes = before ++ n :: after ∧ before.length = r.piece ∧
    r.start + r.size ≤ n ∧ pos = before.sum + r.start

theorem toList_eq_flatMap (b : Buffer) : b.toList = b.pieces.flatMap (·.data.toList) := by
  simp [toList, pieces]

theorem sum_pieceSizes (b : Buffer) : b.pieceSizes.sum = b.size := by
  rw [← length_toList, toList_eq_flatMap, length_flatMap_toList, pieceSizes, piecesSize]

/-- The pieces only matter by their sizes, and the last one may get longer. -/
theorem Stands.of_pieceSizes {b b' : Buffer} {r : Reservation} {pos : Nat} (h : b.Stands r pos)
    {sizes more : List Nat} {last k : Nat} (hb : b.pieceSizes = sizes ++ [last])
    (hb' : b'.pieceSizes = sizes ++ (last + k) :: more) : b'.Stands r pos := by
  obtain ⟨before, n, after, hsizes, hlen, hfit, hpos⟩ := h
  rw [hb] at hsizes
  -- The piece of the reservation is either the last one, which may get longer, or an earlier one.
  rcases List.eq_nil_or_concat after with rfl | ⟨after, m, rfl⟩
  · have hinj := List.append_inj' hsizes rfl
    obtain ⟨rfl, hn⟩ := hinj
    have hn : last = n := List.head_eq_of_cons_eq hn
    exact ⟨sizes, last + k, more, hb', hlen, by omega, hpos⟩
  · have hsplit : sizes ++ [last] = (before ++ n :: after) ++ [m] := by
      rw [hsizes]
      simp
    have hinj := List.append_inj' hsplit rfl
    refine ⟨before, n, after ++ (last + k) :: more, ?_, hlen, hfit, hpos⟩
    rw [hb', hinj.1]
    simp

theorem pieceSizes_eq (b : Buffer) :
    b.pieceSizes = b.finished.toList.map ByteArray.size ++ [b.tail.size] := by
  simp [pieceSizes, pieces]

theorem pieceSizes_append (b : Buffer) (bytes : List UInt8) :
    (b.append bytes).pieceSizes
      = b.finished.toList.map ByteArray.size ++ [b.tail.size + bytes.length] := by
  rw [pieceSizes_eq]
  simp [append, ByteArray.size_appendList]

theorem pieceSizes_overwrite (b : Buffer) (r : Reservation) (offset : Nat) (bytes : List UInt8) :
    (b.overwrite r offset bytes).pieceSizes = b.pieceSizes := by
  rw [pieceSizes_eq, pieceSizes_eq]
  unfold overwrite
  split
  · rw [map_size_modify _ _ fun _ => ByteArray.size_overwrite _ _ _]
  · simp [ByteArray.size_overwrite]

theorem Stands.append {b : Buffer} {r : Reservation} {pos : Nat} (h : b.Stands r pos)
    (bytes : List UInt8) : (b.append bytes).Stands r pos :=
  h.of_pieceSizes (pieceSizes_eq b) (pieceSizes_append b bytes)

theorem Stands.reserve {b : Buffer} {r : Reservation} {pos : Nat} (h : b.Stands r pos) (n : Nat) :
    (b.reserve n).2.Stands r pos :=
  h.append _

theorem Stands.overwrite {b : Buffer} {r : Reservation} {pos : Nat} (h : b.Stands r pos)
    (s : Reservation) (offset : Nat) (bytes : List UInt8) :
    (b.overwrite s offset bytes).Stands r pos :=
  h.of_pieceSizes (k := 0) (pieceSizes_eq b)
    ((pieceSizes_overwrite b s offset bytes).trans (pieceSizes_eq b))

theorem Stands.link {b : Buffer} {r : Reservation} {pos : Nat} (h : b.Stands r pos)
    (other : Buffer) : (b.link other).Stands r pos := by
  obtain ⟨more, hmore⟩ : ∃ more, (b.link other).pieceSizes
      = b.finished.toList.map ByteArray.size ++ b.tail.size :: more := by
    simp [pieceSizes_eq, Buffer.link]
  exact h.of_pieceSizes (k := 0) (pieceSizes_eq b) hmore

/-- A new reservation stands at the end of the buffer. -/
theorem stands_reserve (b : Buffer) (n : Nat) :
    (b.reserve n).2.Stands (b.reserve n).1 b.size := by
  refine ⟨b.finished.toList.map ByteArray.size, b.tail.size + n, [], ?_, ?_, Nat.le_refl _, ?_⟩
  · have := pieceSizes_append b (List.replicate n 0)
    rwa [List.length_replicate] at this
  · rw [List.length_map, Array.length_toList]
    rfl
  · rw [← sum_pieceSizes, pieceSizes_eq, List.sum_append, List.sum_singleton]
    rfl

/-! ## What a patch does -/

/-- Overwriting touches one piece. -/
private theorem pieces_overwrite {b : Buffer} {r : Reservation} {before after : List ByteArray}
    {piece : ByteArray} (hpieces : b.pieces = before ++ piece :: after)
    (hlen : before.length = r.piece) (offset : Nat) (bytes : List UInt8) :
    (b.overwrite r offset bytes).pieces
      = before ++ ByteArray.overwrite piece (r.start + offset) bytes :: after := by
  unfold overwrite
  rcases List.eq_nil_or_concat after with rfl | ⟨after, last, rfl⟩
  · -- The piece is the tail.
    obtain ⟨hfinished, htail⟩ := List.append_inj' hpieces rfl
    have htail : b.tail = piece := List.head_eq_of_cons_eq htail
    have hsize : b.finished.size = r.piece := by
      rw [← Array.length_toList, hfinished, hlen]
    rw [if_neg (by omega)]
    simp only [pieces, hfinished, htail]
  · -- The piece is one of the finished ones.
    have hsplit : b.finished.toList ++ [b.tail] = (before ++ piece :: after) ++ [last] := by
      have : b.finished.toList ++ [b.tail] = b.pieces := rfl
      rw [this, hpieces]
      simp
    obtain ⟨hfinished, htail⟩ := List.append_inj' hsplit rfl
    have hsize : b.finished.size = before.length + (after.length + 1) := by
      rw [← Array.length_toList, hfinished]
      simp
    have hmodify : (before ++ piece :: after).modify r.piece
        (ByteArray.overwrite · (r.start + offset) bytes)
        = before ++ ByteArray.overwrite piece (r.start + offset) bytes :: after := by
      rw [List.modify_eq_take_drop, ← hlen, List.take_left, List.drop_left]
      rfl
    rw [if_pos (by omega)]
    simp only [pieces, Array.toList_modify, hfinished, hmodify, htail]
    simp

/-- A patch that fits its reservation replaces its own bytes in the flat list. -/
theorem toList_overwrite {b : Buffer} {r : Reservation} {pos offset : Nat} {bytes : List UInt8}
    (h : b.Stands r pos) (hfit : offset + bytes.length ≤ r.size) :
    (b.overwrite r offset bytes).toList = splice b.toList (pos + offset) bytes := by
  obtain ⟨before, n, after, hsizes, hlen, hsize, rfl⟩ := h
  -- From the sizes of the pieces to the pieces themselves.
  obtain ⟨before, pieces, hpieces, rfl, hrest⟩ := List.map_eq_append_iff.mp hsizes
  obtain ⟨piece, after, rfl, rfl, -⟩ := List.map_eq_cons_iff.mp hrest
  have hpiece := ByteArray.length_toList piece
  have hbytes : r.start + offset + bytes.length ≤ piece.size := by omega
  rw [List.length_map] at hlen
  rw [toList_eq_flatMap, toList_eq_flatMap, pieces_overwrite hpieces hlen, hpieces,
    List.flatMap_append, List.flatMap_append, List.flatMap_cons, List.flatMap_cons,
    ByteArray.toList_overwrite hbytes, Nat.add_assoc, ← piecesSize, ← length_flatMap_toList,
    splice_append_right, splice_append_left _ (hpiece.symm ▸ hbytes)]

end Buffer

end JvmClass
