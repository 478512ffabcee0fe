/-!
# Actions whose failures keep the state

Most of what this library does to a constant pool, a method body or a class file happens in small
steps, and a step that is refused may have been half done: constants interned on the way stay in
the pool.  An `Action` therefore always returns the state that it reached, beside its result or its
error.

`exec` runs an action; the `exec_` lemmas say what each building block does to result and state.
-/

namespace JvmClass

/-- A computation over a state `σ` that ends in an `α` or an error `ε`, and in either case in a
state. -/
abbrev Action (ε σ α : Type) := ExceptT ε (StateM σ) α

namespace Action

variable {ε σ τ α β : Type}

/-- Run an action: what it ends in, and the state that it leaves. -/
def exec (act : Action ε σ α) (s : σ) : Except ε α × σ := act s

/-- The action that does what `f` does. -/
def ofFn (f : σ → Except ε α × σ) : Action ε σ α := fun s => f s

/-- The action that only looks at the state. -/
def inspect (f : σ → Except ε α) : Action ε σ α := fun s => (f s, s)

/-- End in a result that is already known. -/
def ofExcept (r : Except ε α) : Action ε σ α := inspect fun _ => r

/-- Run an action and go on, whether it failed or not. -/
def outcome (act : Action ε σ α) : Action ε σ (Except ε α) :=
  fun s => match act.exec s with
    | (r, s') => (.ok r, s')

/-- Run an action on a part of a larger state: `split` takes the state apart, `join` puts it
together again. -/
@[inline] def onPart {ρ : Type} (split : σ → τ × ρ) (join : τ → ρ → σ) (act : Action ε τ α) :
    Action ε σ α :=
  fun s => match split s with
    | (part, rest) =>
      match act.exec part with
      | (r, part) => (r, join part rest)

/-- Run an action a number of times and list the results. -/
def times (n : Nat) (act : Action ε σ α) : Action ε σ (List α) :=
  (List.replicate n ()).mapM fun _ => act

@[simp] theorem exec_ofFn (f : σ → Except ε α × σ) (s : σ) : (ofFn f).exec s = f s := rfl

@[simp] theorem exec_inspect (f : σ → Except ε α) (s : σ) : (inspect f).exec s = (f s, s) := rfl

@[simp] theorem exec_ofExcept (r : Except ε α) (s : σ) :
    (ofExcept r : Action ε σ α).exec s = (r, s) := rfl

@[simp] theorem exec_outcome (act : Action ε σ α) (s : σ) :
    act.outcome.exec s = (.ok (act.exec s).1, (act.exec s).2) := rfl

@[simp] theorem exec_onPart {ρ : Type} (split : σ → τ × ρ) (join : τ → ρ → σ)
    (act : Action ε τ α) (s : σ) :
    (act.onPart split join).exec s
      = ((act.exec (split s).1).1, join (act.exec (split s).1).2 (split s).2) := rfl

@[simp] theorem exec_pure (a : α) (s : σ) : (pure a : Action ε σ α).exec s = (.ok a, s) := rfl

@[simp] theorem exec_throw (e : ε) (s : σ) : (throw e : Action ε σ α).exec s = (.error e, s) := rfl

@[simp] theorem exec_get (s : σ) : (get : Action ε σ σ).exec s = (.ok s, s) := rfl

@[simp] theorem exec_set (t s : σ) : (set t : Action ε σ Unit).exec s = (.ok (), t) := rfl

@[simp] theorem exec_modify (f : σ → σ) (s : σ) :
    (modify f : Action ε σ Unit).exec s = (.ok (), f s) := rfl

/-- A sequence stops at the first error, with the state reached by then. -/
theorem exec_bind (act : Action ε σ α) (k : α → Action ε σ β) (s : σ) :
    (act >>= k).exec s =
      match act.exec s with
      | (.ok a, s') => (k a).exec s'
      | (.error e, s') => (.error e, s') := by
  simp only [exec, bind, ExceptT.bind, ExceptT.mk, StateT.bind, ExceptT.bindCont]
  rcases act s with ⟨_ | _, _⟩ <;> rfl

end Action

end JvmClass
