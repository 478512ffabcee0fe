import JvmClass.Code.Assembler

/-!
# Switches

A switch is a jump with many targets.  Its header is written first: the opcode, zeros up to the next
multiple of four, the default target, and the fields that say how many cases there are.  Cases are
added one by one, and each brings those fields up to date.
-/

namespace JvmClass

/-- A `tableswitch` under construction.  `nextKey` is the key of the next case, until the largest
key has been used; `high` is where the largest key of the table stands. -/
structure TableSwitch where
  origin : Nat
  low : Int32
  nextKey : Option Int32
  high : Buffer.Reservation

/-- A `lookupswitch` under construction.  `pairCount` is where the number of cases stands. -/
structure LookupSwitch where
  origin : Nat
  pairCount : Buffer.Reservation
  pairs : Nat
  lastKey : Option Int32

namespace Assembler

/-- The number of zeros between the opcode of a switch at `offset` and its operands. -/
def switchPadding (offset : Nat) : Nat := 3 - offset % 4

/-- The start of a switch: its opcode, the padding and the default target.  `size` is the size of
the header without opcode and padding. -/
def switchHeader (op : Opcode) (size : Nat) (default : Label) : Action Error Assembler Nat := do
  let origin ← Action.inspect fun a => .ok a.offset
  let padding := switchPadding origin
  ensureRoom (1 + padding + size)
  append (op.byte :: List.replicate padding 0)
  jumpOperand op origin .wide default
  return origin

/-- Start a `tableswitch` for the keys `low`, `low + 1` and so on. -/
def tableSwitch (low : Int32) (default : Label) : Action Error Assembler TableSwitch := do
  let origin ← switchHeader .tableSwitch 12 default
  append (BigEndian.u4 low.toUInt32)
  -- Without cases the highest key is one below the lowest.
  let high ← reserve 4
  patch high (BigEndian.u4 (low - 1).toUInt32)
  return ⟨origin, low, some low, high⟩

/-- Start a `lookupswitch`. -/
def lookupSwitch (default : Label) : Action Error Assembler LookupSwitch := do
  let origin ← switchHeader .lookupSwitch 8 default
  let pairCount ← reserve 4
  return ⟨origin, pairCount, 0, none⟩

end Assembler

/-- The key after a given one, unless that was the largest. -/
def nextKey? (key : Int32) : Option Int32 :=
  if key = Int32.maxValue then none else some (key + 1)

/-- The number of keys from `low` up to the largest. -/
def TableSwitch.keyLimit (low : Int32) : Nat := (2147483648 - low.toInt).toNat

open Assembler in
/-- Add the target for the next key. -/
def TableSwitch.addCase (s : TableSwitch) (target : Label) : Action Error Assembler TableSwitch :=
  match s.nextKey with
  | none => throw (.tableOverflow "tableswitch" (keyLimit s.low))
  | some key => do
    ensureRoom 4
    jumpOperand .tableSwitch s.origin .wide target
    patch s.high (BigEndian.u4 key.toUInt32)
    return { s with nextKey := nextKey? key }

/-- Refuse a key that is not above the last one. -/
def LookupSwitch.checkKey (s : LookupSwitch) (key : Int32) : Except Error Unit :=
  match s.lastKey with
  | some previous => if key ≤ previous then .error (.unorderedKeys previous key) else .ok ()
  | none => .ok ()

open Assembler in
/-- Add a key, above the last one, and its target. -/
def LookupSwitch.addCase (s : LookupSwitch) (key : Int32) (target : Label) :
    Action Error Assembler LookupSwitch := do
  -- The order of the keys is checked before anything is written.
  Action.ofExcept (s.checkKey key)
  ensureRoom 8
  append (BigEndian.u4 key.toUInt32)
  jumpOperand .lookupSwitch s.origin .wide target
  let pairs := s.pairs + 1
  patch s.pairCount (BigEndian.encode 4 pairs)
  return { s with pairs, lastKey := some key }

end JvmClass
