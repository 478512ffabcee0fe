import JvmClass.Action
import Mathlib.Order.Defs.Unbundled

/-!
# Reasoning about actions

Two ways to look at a run.  `exec_bind_eq_ok` and `exec_bind_eq_error` take the run of a sequence
apart into the runs of its parts.  `Moves R` says of an action that every run of it, whether it
succeeds or fails, takes the state to one that is related to it by `R`; for a reflexive and
transitive relation this passes from the building blocks of an action to the whole.

## Key results

- `exec_bind_eq_ok`, `exec_bind_eq_error`: what the outcome of a sequence says about its parts
- `exec_times_succ_eq_ok`: the same for an action that is run a number of times
- `except_bind_eq_ok`: the same for results without a state
- `Moves.bind`, `Moves.mapM`, `Moves.times`: the closure of `Moves` under composition
- `Moves.onPart`: from an action on a part of the state to the same action on the whole
-/

namespace JvmClass.Action

variable {ε σ τ ρ α β : Type}

/-! ## Runs of sequences -/

/-- A sequence succeeds when both of its parts do, the second from where the first ends. -/
theorem exec_bind_eq_ok {act : Action ε σ α} {k : α → Action ε σ β} {s t : σ} {b : β} :
    (act >>= k).exec s = (.ok b, t) ↔
      ∃ a s', act.exec s = (.ok a, s') ∧ (k a).exec s' = (.ok b, t) := by
  rw [exec_bind]
  cases h : act.exec s with
  | mk r s' =>
    cases r with
    | error e => simp
    | ok a => exact ⟨fun hk => ⟨a, s', rfl, hk⟩, by rintro ⟨_, _, ⟨⟩, hk⟩; exact hk⟩

/-- A sequence fails when its first part does, or its second one after the first succeeded. -/
theorem exec_bind_eq_error {act : Action ε σ α} {k : α → Action ε σ β} {s t : σ} {e : ε} :
    (act >>= k).exec s = (.error e, t) ↔
      act.exec s = (.error e, t) ∨
        ∃ a s', act.exec s = (.ok a, s') ∧ (k a).exec s' = (.error e, t) := by
  rw [exec_bind]
  cases h : act.exec s with
  | mk r s' =>
    cases r with
    | error e => simp
    | ok a =>
      refine ⟨fun hk => .inr ⟨a, s', rfl, hk⟩, ?_⟩
      rintro (⟨⟨⟩⟩ | ⟨_, _, ⟨⟩, hk⟩)
      exact hk

@[simp] theorem exec_map (f : α → β) (act : Action ε σ α) (s : σ) :
    (f <$> act).exec s = ((act.exec s).1.map f, (act.exec s).2) := by
  rw [← bind_pure_comp, exec_bind]
  rcases act.exec s with ⟨_ | _, _⟩ <;> rfl

theorem exec_map_eq_ok {f : α → β} {act : Action ε σ α} {s t : σ} {b : β} :
    (f <$> act).exec s = (.ok b, t) ↔ ∃ a, act.exec s = (.ok a, t) ∧ f a = b := by
  rw [exec_map]
  cases h : act.exec s with
  | mk r s' =>
    cases r with
    | error e => simp [Except.map]
    | ok a =>
      simp only [Except.map, Prod.mk.injEq, Except.ok.injEq]
      exact ⟨fun ⟨hb, ht⟩ => ⟨a, ⟨rfl, ht⟩, hb⟩, by rintro ⟨_, ⟨rfl, ht⟩, hb⟩; exact ⟨hb, ht⟩⟩

theorem exec_map_eq_error {f : α → β} {act : Action ε σ α} {s t : σ} {e : ε} :
    (f <$> act).exec s = (.error e, t) ↔ act.exec s = (.error e, t) := by
  rw [exec_map]
  cases h : act.exec s with
  | mk r s' => cases r <;> simp [Except.map]

@[simp] theorem exec_discard (act : Action ε σ α) (s : σ) :
    (discard act).exec s = ((act.exec s).1.map fun _ => (), (act.exec s).2) := by
  show (Functor.mapConst () act).exec s = _
  rw [LawfulFunctor.map_const]
  exact exec_map _ act s

theorem exec_discard_eq_ok {act : Action ε σ α} {s t : σ} {u : Unit} :
    (discard act).exec s = (.ok u, t) ↔ ∃ a, act.exec s = (.ok a, t) := by
  rw [exec_discard]
  rcases act.exec s with ⟨_ | a, s'⟩ <;> simp [Except.map]

/-! ## Items in a row -/

theorem times_succ (n : Nat) (act : Action ε σ α) :
    times (n + 1) act = act >>= fun a => times n act >>= fun as => pure (a :: as) := by
  unfold times
  rw [List.replicate_succ, List.mapM_cons]

/-- One item more is that item and then the others. -/
theorem exec_times_succ_eq_ok {n : Nat} {act : Action ε σ α} {s t : σ} {as : List α} :
    (times (n + 1) act).exec s = (.ok as, t) ↔
      ∃ a s' rest, act.exec s = (.ok a, s') ∧ (times n act).exec s' = (.ok rest, t) ∧
        as = a :: rest := by
  rw [times_succ, exec_bind_eq_ok]
  constructor
  · rintro ⟨a, s', ha, hrest⟩
    obtain ⟨rest, t', hrest, hend⟩ := exec_bind_eq_ok.mp hrest
    cases hend
    exact ⟨a, s', rest, ha, hrest, rfl⟩
  · rintro ⟨a, s', rest, ha, hrest, rfl⟩
    exact ⟨a, s', ha, exec_bind_eq_ok.mpr ⟨rest, t, hrest, rfl⟩⟩

/-! ## Plain results -/

theorem except_bind_eq_ok {x : Except ε α} {f : α → Except ε β} {b : β} :
    (x >>= f) = .ok b ↔ ∃ a, x = .ok a ∧ f a = .ok b := by
  cases x with
  | error e => simp [bind, Except.bind]
  | ok a => simp [bind, Except.bind]

theorem except_bind_eq_error {x : Except ε α} {f : α → Except ε β} {e : ε} :
    (x >>= f) = .error e ↔ x = .error e ∨ ∃ a, x = .ok a ∧ f a = .error e := by
  cases x with
  | error e => simp [bind, Except.bind]
  | ok a => simp [bind, Except.bind]

/-- A sequence does not fail in a way in which none of its parts fails. -/
theorem except_bind_ne_error {x : Except ε α} {f : α → Except ε β} {e : ε} (hx : x ≠ .error e)
    (hf : ∀ a, f a ≠ .error e) : (x >>= f) ≠ .error e := by
  cases x with
  | error e' => simpa [bind, Except.bind] using hx
  | ok a => exact hf a

@[simp] theorem except_throw_ne_ok (e : ε) (a : α) : (throw e : Except ε α) ≠ .ok a := nofun

@[simp] theorem except_pure_eq_ok {a b : α} : (pure a : Except ε α) = .ok b ↔ a = b := by
  simp [pure, Except.pure]

/-! ## Where runs lead -/

/-- Every run of the action leads to a related state. -/
def Moves (R : σ → σ → Prop) (act : Action ε σ α) : Prop := ∀ s, R s (act.exec s).2

namespace Moves

variable {R : σ → σ → Prop}

/-- The state after an action is known to be related also when its outcome is known. -/
theorem of_exec {act : Action ε σ α} (h : act.Moves R) {s s' : σ} {r : Except ε α}
    (hr : act.exec s = (r, s')) : R s s' := by
  have := h s
  rwa [hr] at this

theorem mono {S : σ → σ → Prop} (hRS : ∀ s t, R s t → S s t) {act : Action ε σ α}
    (h : act.Moves R) : act.Moves S :=
  fun s => hRS _ _ (h s)

section Stay

variable [Std.Refl R]

theorem pure (a : α) : (Pure.pure a : Action ε σ α).Moves R := fun s => Std.Refl.refl s

theorem inspect (f : σ → Except ε α) : (Action.inspect f).Moves R := fun s => Std.Refl.refl s

theorem ofExcept (r : Except ε α) : (Action.ofExcept r : Action ε σ α).Moves R :=
  fun s => Std.Refl.refl s

end Stay

theorem map {act : Action ε σ α} (h : act.Moves R) (f : α → β) : (f <$> act).Moves R := by
  intro s
  rw [exec_map]
  exact h s

section Compose

variable [IsTrans σ R]

theorem bind {act : Action ε σ α} {k : α → Action ε σ β} (h : act.Moves R)
    (hk : ∀ a, (k a).Moves R) : (act >>= k).Moves R := by
  intro s
  rw [exec_bind]
  have hs := h s
  -- A failure skips the rest, so that only the first part has moved the state.
  rcases he : act.exec s with ⟨_ | a, s'⟩
  · simpa [he] using hs
  · rw [he] at hs
    exact trans_of R hs (hk a s')

variable [Std.Refl R]

/-- Going through a list, each item in turn. -/
theorem mapM {f : α → Action ε σ β} (hf : ∀ a, (f a).Moves R) (xs : List α) :
    (xs.mapM f).Moves R := by
  induction xs with
  | nil => rw [List.mapM_nil]; exact pure _
  | cons x xs ih =>
    rw [List.mapM_cons]
    exact bind (hf x) fun _ => bind ih fun _ => pure _

theorem times {act : Action ε σ α} (h : act.Moves R) (n : Nat) : (act.times n).Moves R :=
  mapM (fun _ => h) _

end Compose

/-- An action on a part of the state moves the whole as it moves the part. -/
theorem onPart {S : τ → τ → Prop} {split : σ → τ × ρ} {join : τ → ρ → σ} {act : Action ε τ α}
    (h : act.Moves S) (hjoin : ∀ s t, S (split s).1 t → R s (join t (split s).2)) :
    (act.onPart split join).Moves R :=
  fun s => hjoin s _ (h (split s).1)

end Moves

end JvmClass.Action
