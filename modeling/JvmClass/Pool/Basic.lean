import JvmClass.Action
import JvmClass.Error
import Std.Data.HashMap

/-!
# Constant pools

A pool is a growing array of slots.  A record takes up one slot, or two if it holds a `long` or a
`double`, the second of which stays unusable; slot 0 is unusable too.  Records are never changed or
removed.

`insert` adds a record.  It can share: then a record that the pool already holds is found by a
table from records to their first slots instead of being added again.
-/

namespace JvmClass

structure Pool where
  version : Version
  slots : Array (Option Record)
  firstSlot : Std.HashMap Record Slot

/-- Whether a record may share a slot with an equal one, or always gets a new one. -/
inductive Placement
  | shared | fresh
  deriving DecidableEq, Repr

namespace Pool

/-- A pool without constants, for a class file of the given version. -/
def empty (version : Version) : Pool := ⟨version, #[none], ∅⟩

instance : Inhabited Pool := ⟨empty default⟩

/-- The number of slots in use. -/
def used (p : Pool) : Nat := p.slots.size - 1

def isEmpty (p : Pool) : Bool := p.used == 0

/-- The record that starts at a slot. -/
def record (p : Pool) (i : Slot) : Except Error Record :=
  match p.slots[i.toNat]? with
  | some (some r) => .ok r
  | _ => .error (.badSlot i (UInt16.ofNat p.slots.size))

def tagOf (p : Pool) (i : Slot) : Except Error Tag :=
  match p.record i with
  | .ok r => .ok r.tag
  | .error e => .error e

/-- Check that a slot holds a record of the given kind. -/
def cast (p : Pool) (kind : Tag) (i : Slot) : Except Error (Ref kind) :=
  match p.record i with
  | .error e => .error e
  | .ok r => if r.tag = kind then .ok ⟨i⟩ else .error (.badKind i kind r.tag)

/-- Check that a slot holds a record at all. -/
def castAny (p : Pool) (i : Slot) : Except Error Slot :=
  match p.record i with
  | .error e => .error e
  | .ok _ => .ok i

/-- The string at a slot. -/
def text (p : Pool) (i : Ref .utf8) : Except Error String :=
  match p.record i.slot with
  | .error e => .error e
  | .ok (.utf8 text) => .ok text
  | .ok r => .error (.badKind i.slot .utf8 r.tag)

/-- Why a record cannot be appended, if it cannot: its string is too long, or there are not enough
slots left.  The last slot that a pool may use is 65534. -/
def checkRoom (p : Pool) (r : Record) : Except Error Unit := do
  if let .utf8 text := r then
    discard <| ModifiedUtf8.encodeBounded p.version text
  if 65535 < p.slots.size + r.width then
    throw (.poolOverflow r p.slots.size)

/-- The slot that the next record will get. -/
def nextSlot (p : Pool) : Slot := UInt16.ofNat p.slots.size

/-- Append a record, whether there is room for it or not. -/
def append (p : Pool) (r : Record) : Pool :=
  let i := p.nextSlot
  -- The second slot of a wide record stays empty, and an older equal record stays the shared one.
  { p with
    slots := if r.width = 2 then (p.slots.push (some r)).push none else p.slots.push (some r)
    firstSlot := p.firstSlot.insertIfNew r i }

/-- The slot at which a record may be shared. -/
def shared? (p : Pool) (how : Placement) (r : Record) : Option Slot :=
  match how with
  | .shared => p.firstSlot[r]?
  | .fresh => none

/-- Find or append a record. -/
def insert (how : Placement) (r : Record) : Action Error Pool Slot :=
  .ofFn fun p =>
    match p.shared? how r with
    | some i => (.ok i, p)
    | none =>
      match p.checkRoom r with
      | .error e => (.error e, p)
      | .ok () => (.ok p.nextSlot, p.append r)

/-- The bytes of the pool in a class file: the number of its slots, slot 0 included, and the records
in order. -/
def encode (p : Pool) : List UInt8 :=
  BigEndian.encode 2 p.slots.size ++ p.slots.toList.flatMap fun
    | some r => r.encode p.version
    | none => []

end Pool

end JvmClass
