import JvmClass.Action
import JvmClass.Byte.BigEndian

/-!
# Patchable byte buffers

A `Buffer` grows at its end only.  Room for a field whose value is not known yet is set aside by
`reserve` and filled in later by `patchAt`; a whole other buffer is appended by `link`, which takes
over its pieces instead of copying their bytes.

A reader of a buffer sees one flat list of bytes, `toList`:

* `length_toList`   the list is as long as the buffer says;
* `toList_append`   appending adds the bytes at the end;
* `toList_reserve`  reserving adds zeros;
* `toList_link`     linking adds the other buffer's bytes.

The size of a buffer is counted along with every operation rather than summed up over the pieces, and
a buffer carries the proof that the two agree.
-/

namespace JvmClass

-- Sums start from the zero of the core library, also where Mathlib brings its own.
attribute [local instance (high)] Zero.ofOfNat0

/-- Replace the bytes of `data` from position `i` on by `bytes`; positions past the end are left
alone. -/
def ByteArray.overwrite (data : ByteArray) (i : Nat) : List UInt8 → ByteArray
  | [] => data
  | byte :: rest => overwrite (data.set! i byte) (i + 1) rest

theorem ByteArray.size_overwrite (data : ByteArray) (i : Nat) (bytes : List UInt8) :
    (overwrite data i bytes).size = data.size := by
  induction bytes generalizing data i with
  | nil => rfl
  | cons b bs ih =>
    rw [overwrite, ih]
    exact Array.size_setIfInBounds

/-- Append a list of bytes. -/
def ByteArray.appendList (data : ByteArray) (bytes : List UInt8) : ByteArray :=
  bytes.foldl ByteArray.push data

theorem ByteArray.toList_appendList (data : ByteArray) (bytes : List UInt8) :
    (appendList data bytes).data.toList = data.data.toList ++ bytes := by
  unfold appendList
  induction bytes generalizing data with
  | nil => simp
  | cons b bs ih => rw [List.foldl_cons, ih, ByteArray.data_push, Array.toList_push]; simp

theorem ByteArray.length_toList (data : ByteArray) : data.data.toList.length = data.size :=
  Array.length_toList

theorem ByteArray.size_appendList (data : ByteArray) (bytes : List UInt8) :
    (appendList data bytes).size = data.size + bytes.length := by
  rw [← length_toList, toList_appendList, List.length_append, length_toList]

/-- The number of bytes of some pieces. -/
def piecesSize (pieces : List ByteArray) : Nat := (pieces.map ByteArray.size).sum

@[simp] theorem piecesSize_nil : piecesSize [] = 0 := rfl

@[simp] theorem piecesSize_cons (piece : ByteArray) (pieces : List ByteArray) :
    piecesSize (piece :: pieces) = piece.size + piecesSize pieces := by
  rw [piecesSize, List.map_cons, List.sum_cons, piecesSize]

@[simp] theorem piecesSize_append (pieces more : List ByteArray) :
    piecesSize (pieces ++ more) = piecesSize pieces + piecesSize more := by
  rw [piecesSize, List.map_append, List.sum_append, piecesSize, piecesSize]

/-- A change of one piece that keeps its size keeps all sizes. -/
theorem map_size_modify (pieces : Array ByteArray) (i : Nat) {f : ByteArray → ByteArray}
    (h : ∀ piece, (f piece).size = piece.size) :
    (pieces.modify i f).toList.map ByteArray.size = pieces.toList.map ByteArray.size := by
  apply List.ext_getElem?
  intro j
  rw [List.getElem?_map, List.getElem?_map, Array.getElem?_toList, Array.getElem?_toList,
    Array.getElem?_modify]
  split
  · rw [Option.map_map]
    congr 1
    funext piece
    exact h piece
  · rfl

/-- Empty pieces do not count. -/
theorem piecesSize_filter (pieces : List ByteArray) :
    piecesSize (pieces.filter (fun piece => piece.size != 0)) = piecesSize pieces := by
  induction pieces with
  | nil => rfl
  | cons piece pieces ih =>
    by_cases h : piece.size = 0
    · simp [h, ih]
    · simp [h, ih]

/-- A growing sequence of bytes, held in pieces: the finished ones, and the tail that appends go
to. -/
structure Buffer where
  finished : Array ByteArray
  tail : ByteArray
  /-- The number of bytes written or reserved so far. -/
  size : Nat
  size_eq : size = piecesSize finished.toList + tail.size

namespace Buffer

/-- Room set aside in a buffer: `size` bytes of its piece number `piece`, from `start` on.  Pieces
are only ever added after it, so it stays where it is. -/
structure Reservation where
  piece : Nat
  start : Nat
  size : Nat
  deriving DecidableEq, Repr

/-- A patch of `length` bytes at `offset` that does not fit its reservation of `size` bytes. -/
structure PatchOverflow where
  length : Nat
  offset : Nat
  size : Nat
  deriving DecidableEq, Repr

/-- The wording of a refused patch. -/
def PatchOverflow.message (o : PatchOverflow) : String :=
  s!"write of {o.length} bytes at {o.offset} overflows {o.size}-byte blob"

def empty : Buffer where
  finished := #[]
  tail := ByteArray.empty
  size := 0
  size_eq := rfl

instance : Inhabited Buffer := ⟨empty⟩

/-- The bytes of a buffer, in order. -/
def toList (b : Buffer) : List UInt8 :=
  b.finished.toList.flatMap (·.data.toList) ++ b.tail.data.toList

def isEmpty (b : Buffer) : Bool := b.size == 0

/-- The number of pieces, the tail included. -/
def pieceCount (b : Buffer) : Nat := b.finished.size + 1

def append (b : Buffer) (bytes : List UInt8) : Buffer where
  finished := b.finished
  tail := ByteArray.appendList b.tail bytes
  size := b.size + bytes.length
  size_eq := by rw [b.size_eq, ByteArray.size_appendList, Nat.add_assoc]

/-- Append a big-endian field of `width` bytes. -/
def appendField (b : Buffer) (width n : Nat) : Buffer := b.append (BigEndian.encode width n)

/-- Append `n` zeros, to be overwritten later. -/
def reserve (b : Buffer) (n : Nat) : Reservation × Buffer :=
  (⟨b.finished.size, b.tail.size, n⟩, b.append (List.replicate n 0))

/-- Overwrite the reserved bytes from `offset` on, whatever the size of the reservation. -/
def overwrite (b : Buffer) (r : Reservation) (offset : Nat) (bytes : List UInt8) : Buffer :=
  if r.piece < b.finished.size then
    { b with
      finished := b.finished.modify r.piece (ByteArray.overwrite · (r.start + offset) bytes)
      size_eq := by
        rw [b.size_eq, piecesSize, piecesSize,
          map_size_modify _ _ fun _ => ByteArray.size_overwrite _ _ _] }
  else
    { b with
      tail := ByteArray.overwrite b.tail (r.start + offset) bytes
      size_eq := by rw [b.size_eq, ByteArray.size_overwrite] }

/-- Fill in a reservation from `offset` on; a patch that does not fit changes nothing. -/
def patchAt (b : Buffer) (r : Reservation) (offset : Nat) (bytes : List UInt8) :
    Except PatchOverflow Buffer :=
  if offset + bytes.length ≤ r.size then
    .ok (b.overwrite r offset bytes)
  else
    .error ⟨bytes.length, offset, r.size⟩

/-- Fill in a reservation with a big-endian number of its size. -/
def patchField (b : Buffer) (r : Reservation) (n : Nat) : Buffer :=
  b.overwrite r 0 (BigEndian.encode r.size n)

/-- Append the pieces of another buffer that hold anything, and start a new piece after them. -/
def link (b other : Buffer) : Buffer where
  finished := b.finished.push b.tail
    ++ (other.finished.push other.tail).filter (fun piece => piece.size != 0)
  tail := ByteArray.empty
  size := b.size + other.size
  size_eq := by
    simp only [Array.toList_append, Array.toList_push, Array.toList_filter, piecesSize_append,
      piecesSize_filter, piecesSize_cons, piecesSize_nil, b.size_eq, other.size_eq]
    rfl

/-- Write out every piece in order, until a write fails. -/
def writeTo {ε σ : Type} (write : ByteArray → Action ε σ Unit) (b : Buffer) : Action ε σ Unit := do
  b.finished.toList.forM write
  write b.tail

theorem length_flatMap_toList (pieces : List ByteArray) :
    (pieces.flatMap (·.data.toList)).length = piecesSize pieces := by
  induction pieces with
  | nil => rfl
  | cons p ps ih =>
    rw [List.flatMap_cons, List.length_append, ih, ByteArray.length_toList, piecesSize_cons]

theorem length_toList (b : Buffer) : b.toList.length = b.size := by
  rw [toList, List.length_append, length_flatMap_toList, ByteArray.length_toList, b.size_eq]

@[simp] theorem toList_empty : empty.toList = [] := rfl

@[simp] theorem toList_append (b : Buffer) (bytes : List UInt8) :
    (b.append bytes).toList = b.toList ++ bytes := by
  simp [toList, append, ByteArray.toList_appendList]

@[simp] theorem toList_reserve (b : Buffer) (n : Nat) :
    (b.reserve n).2.toList = b.toList ++ List.replicate n 0 := by
  simp [reserve]

private theorem flatMap_filter_pieces (pieces : List ByteArray) :
    (pieces.filter (fun piece => piece.size != 0)).flatMap (·.data.toList)
      = pieces.flatMap (·.data.toList) := by
  induction pieces with
  | nil => rfl
  | cons p ps ih =>
    by_cases h : p.size = 0
    · have hp : p.data.toList = [] := by
        rw [List.eq_nil_iff_length_eq_zero, ByteArray.length_toList]; exact h
      simp [h, hp, ih]
    · simp [h, ih]

@[simp] theorem toList_link (b other : Buffer) :
    (b.link other).toList = b.toList ++ other.toList := by
  simp only [toList, link, Array.toList_append, Array.toList_push, Array.toList_filter,
    List.flatMap_append, flatMap_filter_pieces]
  simp

end Buffer

end JvmClass
