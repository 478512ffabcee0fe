import JvmClass.Proofs.Byte.Reader

/-!
# Programs that may not return

A `Checked` program ends in a result or an error, like an action, or in nothing at all.  It comes to
nothing when an operation is outside its range, an index beyond the end of a list or a sum too large
for its word, and when it goes on forever.  So whoever proves that such a program returns has proved
that none of this happens.

An operation inside its range is the plain one: `add_eq_pure` and its siblings take the checks away
from a program that keeps to the ranges.

## Key results

- `exec_bind`: a sequence stops where its first part does not succeed
- `ofExcept_bind`: results without a state are sequenced as programs are
- `add_eq_pure`, `slice_eq_pure` and others: what an operation does inside its range
-/

namespace JvmClass

/-- A program over a state `σ` that ends in an `α` or an error, and in either case in a state, or
does not return. -/
abbrev Checked (σ α : Type) := ExceptT Error (StateT σ Option) α

namespace Checked

variable {σ α β : Type}

/-- Run a program: what it ends in, and the state that it leaves, if it returns. -/
def exec (prog : Checked σ α) (s : σ) : Option (Except Error α × σ) := prog s

/-- Stop without a result. -/
def crash : Checked σ α := fun _ => none

/-- End in a result that is already known. -/
def ofExcept (r : Except Error α) : Checked σ α := fun s => some (r, s)

/-- Run a program a number of times and list the results. -/
abbrev times (n : Nat) (prog : Checked σ α) : Checked σ (List α) :=
  (List.replicate n ()).mapM fun _ => prog

@[simp] theorem exec_crash (s : σ) : (crash : Checked σ α).exec s = none := rfl

@[simp] theorem exec_ofExcept (r : Except Error α) (s : σ) :
    (ofExcept r : Checked σ α).exec s = some (r, s) := rfl

@[simp] theorem exec_pure (a : α) (s : σ) :
    (pure a : Checked σ α).exec s = some (.ok a, s) := rfl

@[simp] theorem exec_throw (e : Error) (s : σ) :
    (throw e : Checked σ α).exec s = some (.error e, s) := rfl

@[simp] theorem exec_get (s : σ) : (get : Checked σ σ).exec s = some (.ok s, s) := rfl

@[simp] theorem exec_modify (f : σ → σ) (s : σ) :
    (modify f : Checked σ Unit).exec s = some (.ok (), f s) := rfl

/-- A sequence stops where its first part does not succeed. -/
theorem exec_bind (prog : Checked σ α) (k : α → Checked σ β) (s : σ) :
    (prog >>= k).exec s =
      match prog.exec s with
      | some (.ok a, s') => (k a).exec s'
      | some (.error e, s') => some (.error e, s')
      | none => none := by
  simp only [exec, bind, ExceptT.bind, ExceptT.mk, StateT.bind, ExceptT.bindCont]
  rcases prog s with _ | ⟨_ | _, _⟩ <;> rfl

theorem ofExcept_ok (a : α) : (ofExcept (.ok a) : Checked σ α) = pure a := rfl

theorem ofExcept_bind (r : Except Error α) (k : α → Except Error β) :
    (ofExcept (r >>= k) : Checked σ β) = ofExcept r >>= fun a => ofExcept (k a) := by
  cases r <;> rfl

/-! ## Operations with a range -/

/-- Add words of 64 bits. -/
def add (a b : Nat) : Checked σ Nat :=
  if a + b < 18446744073709551616 then return a + b else crash

/-- Subtract words. -/
def sub (a b : Nat) : Checked σ Nat :=
  if b ≤ a then return a - b else crash

/-- Multiply words of 64 bits. -/
def mul (a b : Nat) : Checked σ Nat :=
  if a * b < 18446744073709551616 then return a * b else crash

/-- Subtract bytes. -/
def subByte (a b : UInt8) : Checked σ UInt8 :=
  if b ≤ a then return a - b else crash

/-- A signed word of 64 bits. -/
def signed (z : Int) : Checked σ Int :=
  if -9223372036854775808 ≤ z ∧ z < 9223372036854775808 then return z else crash

/-- The bits of a signed word as an unsigned one. -/
def unsigned (z : Int) : Nat := (z % 18446744073709551616).toNat

/-- The byte at an index. -/
def index (bytes : List UInt8) (i : Nat) : Checked σ UInt8 :=
  match bytes[i]? with
  | some byte => return byte
  | none => crash

/-- The bytes from `start` up to `stop`, if there are so many. -/
def slice? (bytes : List UInt8) (start stop : Nat) : Option (List UInt8) :=
  if start ≤ stop ∧ stop ≤ bytes.length then some ((bytes.take stop).drop start) else none

/-- The bytes from `start` up to `stop`. -/
def slice (bytes : List UInt8) (start stop : Nat) : Checked σ (List UInt8) :=
  match slice? bytes start stop with
  | some part => return part
  | none => crash

theorem add_eq_pure {a b : Nat} (h : a + b < 18446744073709551616) :
    (add a b : Checked σ Nat) = pure (a + b) := if_pos h

theorem sub_eq_pure {a b : Nat} (h : b ≤ a) : (sub a b : Checked σ Nat) = pure (a - b) := if_pos h

theorem mul_eq_pure {a b : Nat} (h : a * b < 18446744073709551616) :
    (mul a b : Checked σ Nat) = pure (a * b) := if_pos h

theorem subByte_eq_pure {a b : UInt8} (h : b ≤ a) :
    (subByte a b : Checked σ UInt8) = pure (a - b) := if_pos h

theorem signed_eq_pure {z : Int} (hlow : -9223372036854775808 ≤ z)
    (hhigh : z < 9223372036854775808) : (signed z : Checked σ Int) = pure z := if_pos ⟨hlow, hhigh⟩

/-- The bits of a number that is not negative are the number itself. -/
theorem unsigned_eq_toNat {z : Int} (hlow : 0 ≤ z) (hhigh : z < 9223372036854775808) :
    unsigned z = z.toNat := by
  unfold unsigned
  rw [Int.emod_eq_of_lt hlow (by omega)]

theorem index_eq_pure {bytes : List UInt8} {i : Nat} (h : i < bytes.length) :
    (index bytes i : Checked σ UInt8) = pure bytes[i] := by
  unfold index
  rw [List.getElem?_eq_getElem h]

/-- A stretch of bytes is there exactly when it can be split off. -/
theorem slice?_eq_splitExactly (bytes : List UInt8) (start n : Nat) (h : start ≤ bytes.length) :
    slice? bytes start (start + n) = (splitExactly n (bytes.drop start)).map (·.1) := by
  have hlen : (bytes.drop start).length = bytes.length - start := List.length_drop
  unfold slice?
  by_cases hstop : start + n ≤ bytes.length
  · rw [if_pos ⟨Nat.le_add_right _ _, hstop⟩, splitExactly_of_le (by omega), List.drop_take,
      Nat.add_sub_cancel_left]
    rfl
  · rw [if_neg (by omega), splitExactly_of_lt (by omega)]
    rfl

theorem slice_eq_pure {bytes : List UInt8} {start stop : Nat} (hstart : start ≤ stop)
    (hstop : stop ≤ bytes.length) :
    (slice bytes start stop : Checked σ (List UInt8)) = pure ((bytes.take stop).drop start) := by
  unfold slice slice?
  rw [if_pos ⟨hstart, hstop⟩]

/-- There is no third byte. -/
example : (slice [1, 2] 1 3 : Checked Unit (List UInt8)).exec () = none := rfl

end Checked

end JvmClass
