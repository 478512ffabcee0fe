import JvmClass.Action
import JvmClass.Byte.Buffer
import JvmClass.Error

/-!
# Counted tables

Many parts of a class file are a count of one or two bytes followed by that many entries.  A
`CountedTable` is such a table under construction at the end of a buffer: room for the count is set
aside first, and every entry raises it.  `ofEntries` and `ofList` write a whole table at once.

An entry that is written piece by piece counts from the moment it is begun, so one that turns out to
have no encoding leaves a count without bytes behind it; whoever builds a larger thing drops it
then.  An entry that was built on its own is linked in as a whole, and counts from then on.
-/

namespace JvmClass

-- Powers are those of the core library, also where Mathlib brings its own.
attribute [local instance (high)] instPowNat

/-- The width of a count. -/
inductive CountWidth
  | one | two
  deriving DecidableEq, Repr

namespace CountWidth

def bytes : CountWidth → Nat
  | one => 1
  | two => 2

/-- The largest count of this width. -/
def limit : CountWidth → Nat
  | one => 255
  | two => 65535

theorem limit_lt (w : CountWidth) : w.limit < 256 ^ w.bytes := by cases w <;> decide

end CountWidth

/-- A table under construction: the buffer that ends in it, where its count stands there, and the
number of entries begun. -/
structure CountedTable where
  name : String
  width : CountWidth
  buffer : Buffer
  countField : Buffer.Reservation
  count : Nat

namespace CountedTable

/-- Start a table at the end of a buffer. -/
def start (name : String) (width : CountWidth) (buffer : Buffer) : CountedTable :=
  match buffer.reserve width.bytes with
  | (countField, buffer) => ⟨name, width, buffer, countField, 0⟩

/-- The number of entries. -/
def size (t : CountedTable) : Nat := t.count

/-- The bytes of the buffer that ends in the table. -/
def encode (t : CountedTable) : List UInt8 := t.buffer.toList

def isFull (t : CountedTable) : Bool := t.width.limit ≤ t.count

/-- What is said of a table that is full. -/
def overflow (t : CountedTable) : Error := .tableOverflow t.name t.width.limit

/-- The table with its count raised. -/
def raiseCount (t : CountedTable) : CountedTable :=
  let count := t.count + 1
  { t with count, buffer := t.buffer.patchField t.countField count }

/-- Begin an entry; a full table refuses it and stays as it is. -/
def beginEntry : Action Error CountedTable Unit :=
  .ofFn fun t =>
    if t.isFull then (.error t.overflow, t) else (.ok (), t.raiseCount)

/-- Add an entry that was built on its own, behind a head of plain bytes. -/
def link (t : CountedTable) (head : List UInt8) (entry : Buffer) : CountedTable :=
  raiseCount { t with buffer := (t.buffer.append head).link entry }

/-- Append bytes to the entry that was begun last. -/
def append (bytes : List UInt8) : Action Error CountedTable Unit :=
  modify fun t => { t with buffer := t.buffer.append bytes }

/-- Add an entry with the given encoding, if it has one. -/
def push (entry : Except Error (List UInt8)) : Action Error CountedTable Unit := do
  beginEntry
  append (← Action.ofExcept entry)

/-- The bytes of a whole table of the given entries, if each has an encoding and they are not too
many. -/
def ofEntries (name : String) (width : CountWidth) (entries : List (Except Error (List UInt8))) :
    Except Error (List UInt8) :=
  match (entries.forM push).exec (start name width .empty) with
  | (.ok (), t) => .ok t.buffer.toList
  | (.error e, _) => .error e

/-- The bytes of a table of items that all have an encoding. -/
def ofList {α : Type} (name : String) (width : CountWidth) (encode : α → List UInt8)
    (items : List α) : Except Error (List UInt8) :=
  ofEntries name width (items.map fun item => .ok (encode item))

end CountedTable

/-- The bytes of a sequence of items behind a two-byte count. -/
def encodeSequence {α : Type} (encode : α → List UInt8) (items : List α) :
    Except Error (List UInt8) :=
  if items.length ≤ 65535 then
    .ok (BigEndian.encode 2 items.length ++ items.flatMap encode)
  else
    .error (.sequenceTooLong items.length)

end JvmClass
