import JvmClass.Proofs.Pool.Integrity
import JvmClass.Proofs.Remap.Imports

/-!
# Copying references in order

What is read from an attribute refers to constants of several kinds.  `importRefs` imports the
constants that some references stand for, one after the other, and does nothing else.
`Copies view refs act result` says of an action that it makes these imports, too, and that its
result has them in the places of the references: `result` takes what becomes of each reference, so
that the results of parts are put together although the pool grows on.

## Key results

- `Pool.isImport_of_importRefs`: where all imports have been made, the pool gives that of each
  reference
- `Copies.bind`, `Copies.mapM`: actions in a row
- `copies_importRefs`: the imports themselves
-/

namespace JvmClass

open Pool (AnyRef)
open JvmClass.Action (exec_bind_eq_ok exec_map_eq_ok)

/-- The reference with its kind. -/
def Ref.any {kind : Tag} (i : Ref kind) : AnyRef := ⟨kind, i.slot⟩

theorem Ref.slot_any_ne_zero {kind : Tag} {i : Ref kind} : i.any.slot ≠ 0 ↔ i ≠ .none := by
  cases i
  simp [any, none]

/-- What becomes of references, of each kind. -/
abbrev Renaming := (kind : Tag) → Ref kind → Ref kind

def Pool.AnyRef.rename (f : Renaming) (i : AnyRef) : AnyRef := (f i.kind ⟨i.slot⟩).any

/-! ## Importing constants -/

namespace Pool

/-- Import what some references stand for, in order; nothing needs no import. -/
def importRefs (view : View) (refs : List AnyRef) : Action Error Pool (List AnyRef) :=
  (refs.filter (·.slot ≠ 0)).mapM fun i => Ref.any <$> copyAs i.kind view i.slot

/-- What a pool gives for a reference; nothing if the constant cannot be imported. -/
def given (view : View) (q : Pool) : Renaming := fun kind i =>
  match ((copyAs kind view i.slot).exec q).1 with
  | .ok j => j
  | .error _ => .none

variable {view : View} {p p' : Pool} {refs imports : List AnyRef}

/-- Nothing is passed over. -/
theorem importRefs_cons_of_zero {i : AnyRef} (hi : i.slot = 0) :
    importRefs view (i :: refs) = importRefs view refs := by
  unfold importRefs
  rw [List.filter_cons_of_neg (by simpa using hi)]

/-- Anything else is imported before the rest is. -/
theorem exec_importRefs_cons {i : AnyRef} (hi : i.slot ≠ 0) :
    (importRefs view (i :: refs)).exec p = (.ok imports, p') ↔
      ∃ (j : Ref i.kind) (p₁ : Pool) (js : List AnyRef),
        (copyAs i.kind view i.slot).exec p = (.ok j, p₁) ∧
          (importRefs view refs).exec p₁ = (.ok js, p') ∧ imports = j.any :: js := by
  unfold importRefs
  rw [List.filter_cons_of_pos (by simpa using hi), List.mapM_cons]
  constructor
  · intro h
    obtain ⟨_, p₁, hfirst, h⟩ := exec_bind_eq_ok.mp h
    obtain ⟨js, p₂, hrest, hend⟩ := exec_bind_eq_ok.mp h
    obtain ⟨j, hcopy, rfl⟩ := exec_map_eq_ok.mp hfirst
    cases hend
    exact ⟨j, p₁, js, hcopy, hrest, rfl⟩
  · rintro ⟨j, p₁, js, hcopy, hrest, rfl⟩
    exact exec_bind_eq_ok.mpr ⟨j.any, p₁, exec_map_eq_ok.mpr ⟨j, hcopy, rfl⟩,
      exec_bind_eq_ok.mpr ⟨js, p', hrest, rfl⟩⟩

/-- A constant that was imported is given from then on. -/
theorem given_of_copyAs {kind : Tag} {i j : Ref kind} (hinv : p.Inv)
    (h : (copyAs kind view i.slot).exec p = (.ok j, p')) :
    p.Grows p' ∧ ∀ q, p'.Grows q → q.given view kind i = j := by
  obtain ⟨hgrows, hagain⟩ := repeats_copyAs kind view i.slot p p' j hinv h
  refine ⟨hgrows, fun q hq => ?_⟩
  unfold given
  rw [hagain q hq]

/-- Nothing is its own import. -/
theorem isImport_given_none (hinv : p.Inv) (kind : Tag) :
    IsImport view p kind 0 (p.given view kind ⟨0⟩).slot :=
  isImport_of_copyAs hinv rfl

/-- Where all imports have been made, the pool gives the import of each reference. -/
theorem isImport_of_importRefs (hinv : p.Inv)
    (h : (importRefs view refs).exec p = (.ok imports, p')) :
    p.Grows p' ∧
      ∀ i ∈ refs, IsImport view p' i.kind i.slot (i.rename (p'.given view)).slot := by
  -- Induction on the references: the first import stays one while the others are made.
  induction refs generalizing p imports with
  | nil =>
    cases h
    exact ⟨.refl, fun i hi => absurd hi List.not_mem_nil⟩
  | cons i refs ih =>
    by_cases hi : i.slot = 0
    · rw [importRefs_cons_of_zero hi] at h
      obtain ⟨hgrows, hall⟩ := ih hinv h
      refine ⟨hgrows, List.forall_mem_cons.mpr ⟨?_, hall⟩⟩
      unfold AnyRef.rename
      rw [hi]
      exact isImport_given_none (hgrows.inv hinv) i.kind
    · obtain ⟨j, p₁, js, hcopy, hrest, -⟩ := (exec_importRefs_cons hi).mp h
      obtain ⟨hgrows, hgiven⟩ := given_of_copyAs (i := ⟨i.slot⟩) hinv hcopy
      obtain ⟨hgrows', hall⟩ := ih (hgrows.inv hinv) hrest
      refine ⟨trans_of Grows hgrows hgrows', List.forall_mem_cons.mpr ⟨?_, hall⟩⟩
      unfold AnyRef.rename
      rw [hgiven p' hgrows']
      exact (isImport_of_copyAs hinv hcopy).mono hgrows'

end Pool

/-! ## Actions that make imports -/

open Pool (importRefs given_of_copyAs)

variable {α β : Type} {view : View} {xs ys : List AnyRef}

/-- Where the constants can be imported, the action does it and succeeds.  Its result is told from
what any later pool gives for the references. -/
def Copies (view : View) (refs : List AnyRef) (act : Action Error Pool α) (result : Renaming → α) :
    Prop :=
  ∀ p imports p', p.Inv → (importRefs view refs).exec p = (.ok imports, p') →
    p.Grows p' ∧ ∀ q, p'.Grows q → act.exec p = (.ok (result (q.given view)), p')

theorem copies_pure (view : View) (a : α) : Copies view [] (pure a) fun _ => a := by
  intro p imports p' _ h
  cases h
  exact ⟨.refl, fun q _ => rfl⟩

/-- The constants of the first action are imported before those of the second one. -/
theorem Copies.bind {act : Action Error Pool α} {k : α → Action Error Pool β} {f : Renaming → α}
    {g : α → Renaming → β} (h : Copies view xs act f) (hk : ∀ a, Copies view ys (k a) (g a)) :
    Copies view (xs ++ ys) (act >>= k) fun imp => g (f imp) imp := by
  intro p imports p' hinv hall
  unfold importRefs at hall
  rw [List.filter_append, List.mapM_append] at hall
  obtain ⟨as, p₁, has, hall⟩ := exec_bind_eq_ok.mp hall
  obtain ⟨bs, p₂, hbs, hend⟩ := exec_bind_eq_ok.mp hall
  cases hend
  obtain ⟨hgrows, hact⟩ := h p as p₁ hinv has
  have hsecond := fun a => hk a p₁ bs p' (hgrows.inv hinv) hbs
  have hgrows' := (hsecond (f (p₁.given view))).1
  refine ⟨trans_of Pool.Grows hgrows hgrows', fun q hq => ?_⟩
  -- What the first action made is told from the last pool as well.
  have hfirst := hact q (trans_of Pool.Grows hgrows' hq)
  exact exec_bind_eq_ok.mpr ⟨_, p₁, hfirst, (hsecond _).2 q hq⟩

theorem Copies.map {act : Action Error Pool α} {f : Renaming → α} (h : Copies view xs act f)
    (g : α → β) : Copies view xs (act >>= fun a => pure (g a)) fun imp => g (f imp) := by
  have hall := h.bind fun a => copies_pure view (g a)
  rwa [List.append_nil] at hall

theorem Copies.mapM {act : β → Action Error Pool α} {refs : β → List AnyRef}
    {f : β → Renaming → α} {bs : List β} (h : ∀ b ∈ bs, Copies view (refs b) (act b) (f b)) :
    Copies view (bs.flatMap refs) (bs.mapM act) fun imp => bs.map (f · imp) := by
  induction bs with
  | nil => exact copies_pure view []
  | cons b bs ih =>
    obtain ⟨hb, hbs⟩ := List.forall_mem_cons.mp h
    rw [List.flatMap_cons, List.mapM_cons]
    exact hb.bind fun a => (ih hbs).map (a :: ·)

/-- A single reference, which may be nothing. -/
theorem copies_copyAs (view : View) {kind : Tag} (i : Ref kind) :
    Copies view [i.any] (Pool.copyAs kind view i.slot) fun imp => imp kind i := by
  intro p imports p' hinv hall
  by_cases hi : i.slot = 0
  · obtain ⟨slot⟩ := i
    obtain rfl : slot = 0 := hi
    cases hall
    exact ⟨.refl, fun q _ => rfl⟩
  · obtain ⟨j, p₁, js, hcopy, hend, -⟩ := (Pool.exec_importRefs_cons hi).mp hall
    cases hend
    obtain ⟨hgrows, hgiven⟩ := given_of_copyAs (i := i) hinv hcopy
    refine ⟨hgrows, fun q hq => ?_⟩
    show _ = (Except.ok (q.given view kind i), p')
    rw [hgiven q hq]
    exact hcopy

/-- References to nothing do not count. -/
theorem Copies.of_filter {act : Action Error Pool α} {f : Renaming → α}
    (h : Copies view (xs.filter (·.slot ≠ 0)) act f) : Copies view xs act f := by
  intro p imports p' hinv hall
  refine h p imports p' hinv ?_
  unfold importRefs at hall ⊢
  rwa [List.filter_filter, List.filter_congr fun _ _ => Bool.and_self _]

/-- The imports themselves are what any later pool gives. -/
theorem copies_importRefs (view : View) (refs : List AnyRef) :
    Copies view refs (importRefs view refs) fun imp =>
      (refs.filter (·.slot ≠ 0)).map (·.rename imp) := by
  have hsingle : ∀ i ∈ refs.filter (·.slot ≠ 0),
      Copies view [i] (Ref.any <$> Pool.copyAs i.kind view i.slot) (i.rename ·) := by
    intro i _
    rw [← bind_pure_comp]
    exact (copies_copyAs view ⟨i.slot⟩).map Ref.any
  have hall := Copies.mapM hsingle
  rw [List.flatMap_singleton'] at hall
  exact hall.of_filter

end JvmClass
