import JvmClass.Proofs.Pool.Meaning

/-!
# What is shared is found again

A constant that has been interned with sharing is found when it is interned once more, in any pool
that grows from there: its strings, class, name and descriptor are found one after the other, and at
last the constant itself, and nothing is added.  `Repeats act` says this of an action, and it passes
from insertions that share to everything that is made of them.

## Key results

- `repeats_insert`: an insertion that shares finds its record again
- `Repeats.bind`: a sequence finds again what its parts do
- `repeats_intern`, `repeats_copy`: shared constants and copies are found again
- `constant_of_reachable`: interned and copied constants in every reachable pool and later
-/

namespace JvmClass.Pool

open JvmClass.Action (except_bind_eq_ok except_throw_ne_ok except_pure_eq_ok)

variable {α β : Type} {p q : Pool}

/-! ## What checks see -/

theorem Grows.memberName_eq (h : p.Grows q) {target : Slot} {found : Tag × String}
    (hp : p.memberName target = .ok found) : q.memberName target = .ok found := by
  obtain ⟨r, hr, hp⟩ := except_bind_eq_ok.mp hp
  refine except_bind_eq_ok.mpr ⟨r, h.record_eq hr, ?_⟩
  split at hp
  · obtain ⟨s, hs, hp⟩ := except_bind_eq_ok.mp hp
    refine except_bind_eq_ok.mpr ⟨s, h.record_eq hs, ?_⟩
    split at hp
    · obtain ⟨name, hname, hp⟩ := except_bind_eq_ok.mp hp
      exact except_bind_eq_ok.mpr ⟨name, h.text_eq hname, hp⟩
    · exact absurd hp (except_throw_ne_ok _ _)
  · exact hp

/-- A method handle that fits its member fits it later, too. -/
theorem Grows.handleRecord_eq (h : p.Grows q) {kind : HandleKind} {target : Slot} {r : Record}
    (hp : p.handleRecord kind target = .ok r) : q.handleRecord kind target = .ok r := by
  obtain ⟨found, hfound, hp⟩ := except_bind_eq_ok.mp hp
  refine except_bind_eq_ok.mpr ⟨found, h.memberName_eq hfound, ?_⟩
  rwa [h.version_eq]

/-! ## Actions that find their result again -/

/-- When the action succeeds, it succeeds again on every pool that grows from where it ended, with
the same result and without changing the pool. -/
def Repeats (act : Action Error Pool α) : Prop :=
  ∀ p q a, p.Inv → act.exec p = (.ok a, q) →
    p.Grows q ∧ ∀ q', q.Grows q' → act.exec q' = (.ok a, q')

theorem repeats_pure (a : α) : Repeats (pure a : Action Error Pool α) := by
  intro p q b _ h
  cases h
  exact ⟨.refl, fun _ _ => rfl⟩

/-- Looking for something that stays. -/
theorem repeats_inspect {f : Pool → Except Error α}
    (hf : ∀ p q a, p.Grows q → f p = .ok a → f q = .ok a) : Repeats (Action.inspect f) := by
  intro p q a _ h
  obtain ⟨ha, rfl⟩ := Prod.mk.inj h
  refine ⟨.refl, fun q' hq' => ?_⟩
  rw [Action.exec_inspect, hf _ _ a hq' ha]

theorem Repeats.bind {act : Action Error Pool α} {k : α → Action Error Pool β} (h : Repeats act)
    (hk : ∀ a, Repeats (k a)) : Repeats (act >>= k) := by
  intro p q b hp hact
  obtain ⟨a, p', ha, hb⟩ := Action.exec_bind_eq_ok.mp hact
  obtain ⟨hgrows, hagain⟩ := h p p' a hp ha
  obtain ⟨hgrows', hagain'⟩ := hk a p' q b (hgrows.inv hp) hb
  refine ⟨trans_of Grows hgrows hgrows', fun q' hq' => ?_⟩
  have hfirst := hagain q' (trans_of Grows hgrows' hq')
  exact Action.exec_bind_eq_ok.mpr ⟨a, q', hfirst, hagain' q' hq'⟩

theorem Repeats.map {act : Action Error Pool α} (h : Repeats act) (f : α → β) :
    Repeats (f <$> act) := by
  rw [← bind_pure_comp]
  exact h.bind fun _ => repeats_pure _

/-! ## Insertions that share -/

/-- An insertion that shares ends at the least slot of its record. -/
theorem Inv.isFirst_of_insert (h : p.Inv) {r : Record} {i : Slot}
    (hins : (insert .shared r).exec p = (.ok i, q)) : q.IsFirst r i.toNat := by
  cases hs : p.firstSlot[r]? with
  | some j =>
    have hfirst := (h.firstSlot_iff r j).mp hs
    rw [exec_insert_shared h hfirst] at hins
    cases hins
    exact hfirst
  | none =>
    have hnew : p.shared? .shared r = none := hs
    have hno := h.not_holds_of_firstSlot hs
    rw [exec_insert_append hnew] at hins
    split at hins
    · cases hins
    · split at hins
      · cases hins
      · cases hins
        exact isFirst_append_iff.mpr (.inr ⟨rfl, h.toNat_nextSlot, hno⟩)

theorem repeats_insert (r : Record) : Repeats (insert .shared r) := by
  intro p q i hp hins
  have hgrows : p.Grows q := Relation.ReflTransGen.single ⟨.shared, r, by rw [hins]⟩
  have hfirst := hp.isFirst_of_insert hins
  refine ⟨hgrows, fun q' hq' => ?_⟩
  exact exec_insert_shared (hq'.inv (hgrows.inv hp)) (hq'.isFirst hfirst)

theorem repeats_insert_ref {kind : Tag} (r : Record) :
    Repeats (do return ⟨← insert .shared r⟩ : Action Error Pool (Ref kind)) :=
  (repeats_insert r).bind fun _ => repeats_pure _

/-- A version is recent enough or not. -/
theorem repeats_require (kind : Tag) : Repeats (require kind) := by
  refine repeats_inspect fun p q _ h hp => ?_
  rwa [h.version_eq]

theorem repeats_utf8 (s : String) : Repeats (utf8 s) := repeats_insert_ref _

theorem repeats_internNamed (kind : NamedKind) (s : String) :
    Repeats (internNamed .shared kind s) :=
  (repeats_require _).bind fun _ => (repeats_utf8 s).bind fun _ => repeats_insert_ref _

theorem repeats_internNameAndType (s t : String) : Repeats (internNameAndType .shared s t) :=
  (repeats_utf8 s).bind fun _ => (repeats_utf8 t).bind fun _ => repeats_insert_ref _

theorem repeats_internMember (kind : MemberKind) (m : Member) :
    Repeats (internMember .shared kind m) :=
  (repeats_internNamed _ _).bind fun _ =>
    (repeats_internNameAndType _ _).bind fun _ => repeats_insert_ref _

theorem repeats_handleAt (kind : HandleKind) (target : Slot) :
    Repeats (handleAt .shared kind target) :=
  (repeats_require _).bind fun _ =>
    (repeats_inspect fun _ _ _ h hr => h.handleRecord_eq hr).bind fun _ => repeats_insert_ref _

theorem repeats_internHandle (kind : HandleKind) (memberKind : MemberKind) (m : Member) :
    Repeats (internHandle .shared kind memberKind m) :=
  (repeats_require _).bind fun _ =>
    (repeats_internMember _ _).bind fun _ => repeats_handleAt _ _

theorem repeats_internDynamic (kind : DynamicKind) (bootstrap : UInt16) (s t : String) :
    Repeats (internDynamic .shared kind bootstrap s t) :=
  (repeats_require _).bind fun _ =>
    (repeats_internNameAndType _ _).bind fun _ => repeats_insert_ref _

/-- A shared constant of any kind is found again. -/
theorem repeats_intern (c : Constant) : Repeats (intern .shared c) := by
  cases c with
  | utf8 s => exact (repeats_utf8 s).map _
  | integer value => exact repeats_insert _
  | float bits => exact repeats_insert _
  | long value => exact repeats_insert _
  | double bits => exact repeats_insert _
  | named kind s => exact (repeats_internNamed kind s).map _
  | member kind m => exact (repeats_internMember kind m).map _
  | nameAndType s t => exact (repeats_internNameAndType s t).map _
  | methodHandle kind memberKind m => exact (repeats_internHandle kind memberKind m).map _
  | dynamic kind bootstrap s t => exact (repeats_internDynamic kind bootstrap s t).map _

/-- A constant that was copied is found again, and nothing is copied twice. -/
theorem repeats_copy (view : View) (i : Slot) : Repeats (copy view i) := by
  unfold copy
  split
  · exact repeats_pure _
  · have hview : Repeats (Action.ofExcept (view i)) := repeats_inspect fun _ _ _ _ hc => hc
    exact hview.bind repeats_intern

/-- A slot that holds a record of some kind holds it later, too. -/
theorem Grows.cast_eq (h : p.Grows q) {kind : Tag} {i : Slot} {r : Ref kind}
    (hp : p.cast kind i = .ok r) : q.cast kind i = .ok r := by
  unfold cast at hp ⊢
  cases hr : p.record i with
  | error e => simp [hr] at hp
  | ok s =>
    rw [h.record_eq hr]
    simpa only [hr] using hp

theorem repeats_copyAs (kind : Tag) (view : View) (i : Slot) : Repeats (copyAs kind view i) := by
  refine (repeats_copy view i).bind fun j => ?_
  split
  · exact repeats_pure _
  · exact repeats_inspect fun _ _ _ h hcast => h.cast_eq hcast

/-! ## Reachable pools -/

/-- In every reachable pool, whatever records it holds: an interned constant is the meaning of its
slot from then on, and a copied one means the same as in the view that it comes from and is found
again whenever it is copied once more. -/
theorem constant_of_reachable (version : Version) (calls : List Call) :
    (∀ how c i q later, (intern how c).exec ((empty version).afterCalls calls) = (.ok i, q) →
      (q.afterCalls later).constant i = .ok c) ∧
    ∀ view n j q later, n ≠ 0 →
      (copy view n).exec ((empty version).afterCalls calls) = (.ok j, q) →
      (∃ c, view n = .ok c ∧ (q.afterCalls later).constant j = .ok c) ∧
        (copy view n).exec (q.afterCalls later) = (.ok j, q.afterCalls later) := by
  have hinv := inv_afterCalls version calls
  constructor
  · intro how c i q later hintern
    have hc := (yields_intern hinv how c i q hintern).2
    exact (grows_afterCalls q later).constant_eq hc
  · intro view n j q later hn hcopy
    have hlater := grows_afterCalls q later
    have hsame := ((yields_copy hinv view n j q hcopy).2).mono hlater
    unfold SameConstant at hsame
    rw [if_neg hn] at hsame
    exact ⟨hsame.2, (repeats_copy view n _ q j hinv hcopy).2 _ hlater⟩

/-- Two equal numbers, each at a slot of its own. -/
def duplicates : List Call := [.intern .fresh (.integer 7), .intern .fresh (.integer 7)]

/-- A pool with two equal numbers. -/
def duplicated : Pool := (empty .java8).afterCalls duplicates

/-- The later of two equal numbers is copied to the earlier one, and so it is after two more. -/
theorem constant_of_duplicated :
    (intern .shared (.integer 7)).exec duplicated = (.ok 1, duplicated) ∧
      (duplicated.afterCalls duplicates).constant 1 = .ok (.integer 7) ∧
      (2 : Slot) ≠ 0 ∧ (copy duplicated.constant 2).exec duplicated = (.ok 1, duplicated) ∧
      (∃ c, duplicated.constant 2 = .ok c ∧
        (duplicated.afterCalls duplicates).constant 1 = .ok c) ∧
      (copy duplicated.constant 2).exec (duplicated.afterCalls duplicates)
        = (.ok 1, duplicated.afterCalls duplicates) := by
  have hinv : duplicated.Inv := inv_afterCalls .java8 duplicates
  have hfirst : duplicated.IsFirst (.integer 7) 1 := ⟨rfl, fun _ hj => hinv.pos_of_holds hj⟩
  have hintern : (intern .shared (.integer 7)).exec duplicated = (.ok 1, duplicated) :=
    exec_insert_shared hinv hfirst
  have hcopy : (copy duplicated.constant 2).exec duplicated = (.ok 1, duplicated) :=
    Action.exec_bind_eq_ok.mpr ⟨.integer 7, duplicated, rfl, hintern⟩
  obtain ⟨hmeans, hagain⟩ := constant_of_reachable .java8 duplicates
  exact ⟨hintern, hmeans _ _ _ _ duplicates hintern, by decide, hcopy,
    hagain _ _ _ _ duplicates (by decide) hcopy⟩

end JvmClass.Pool
