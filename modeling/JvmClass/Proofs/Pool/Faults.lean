import JvmClass.Pool.View
import JvmClass.Proofs.Action
import Mathlib.Data.List.Forall2

/-!
# What can be wrong with a constant

A constant is read from one pool and made in another one.  On the way it may turn out not to be
there, to be of another kind than was asked for, or to have no place in the other pool; these are
the only errors there are.  An error of any other kind is one of the bytes that refer to the
constants, and copying constants never ends in such an error.

`Delivers R` says of a result that `R` holds of it, or that there is none because of a constant.
Like the ways in which actions move states, this passes from the parts of an action to the whole.

## Key results

- `Action.Delivers.bind`, `Action.Delivers.mapM`: the closure of `Delivers` under composition
- `delivers_constant`: reading a constant of a pool
- `delivers_intern`, `delivers_copy`, `delivers_copyAs`: making one
-/

namespace JvmClass

variable {σ τ ρ α β : Type}

/-- The error is about a constant: it is not there, it is of the wrong kind, or there is no place
for it. -/
def Error.isAboutConstant : Error → Bool
  | poolOverflow .. | badSlot .. | badKind .. | textTooLong .. | invalidHandle .. | unsupported ..
  | narrowSlot .. => true
  | _ => false

/-! ## Results -/

/-- The result is one that `R` holds of, or a constant is to blame that there is none. -/
def Delivers (R : α → Prop) : Except Error α → Prop
  | .ok a => R a
  | .error e => e.isAboutConstant = true

namespace Delivers

variable {R : α → Prop} {S : β → Prop}

theorem bind {x : Except Error α} {k : α → Except Error β} (h : Delivers R x)
    (hk : ∀ a, R a → Delivers S (k a)) : Delivers S (x >>= k) := by
  cases x with
  | error e => exact h
  | ok a => exact hk a h

/-- Whatever else is known of the result. -/
theorem weaken {x : Except Error α} (h : Delivers R x) : Delivers (fun _ => True) x := by
  cases x with
  | error e => exact h
  | ok a => trivial

theorem discard {x : Except Error α} (h : Delivers R x) :
    Delivers (fun _ => True) (discard x) := by
  cases x with
  | error e => exact h
  | ok a => trivial

end Delivers

namespace Action

/-- From whatever state, the action ends in a result that `R` holds of, unless a constant is to
blame. -/
def Delivers (R : α → Prop) (act : Action Error σ α) : Prop :=
  ∀ s, JvmClass.Delivers R (act.exec s).1

theorem delivers_inspect {R : α → Prop} {f : σ → Except Error α}
    (h : ∀ s, JvmClass.Delivers R (f s)) : (inspect f).Delivers R := h

theorem delivers_ofExcept {R : α → Prop} {r : Except Error α} (h : JvmClass.Delivers R r) :
    (ofExcept r : Action Error σ α).Delivers R := fun _ => h

theorem delivers_pure {R : α → Prop} {a : α} (h : R a) :
    (pure a : Action Error σ α).Delivers R := fun _ => h

namespace Delivers

variable {R : α → Prop} {S : β → Prop} {act : Action Error σ α}

theorem bind {k : α → Action Error σ β} (h : act.Delivers R)
    (hk : ∀ a, R a → (k a).Delivers S) : (act >>= k).Delivers S := by
  intro s
  have hs := h s
  rw [exec_bind]
  rcases he : act.exec s with ⟨e | a, s'⟩
  · -- What is to blame for the first part is to blame for the whole.
    rw [he] at hs
    exact hs
  · rw [he] at hs
    exact hk a hs s'

theorem map {f : α → β} (h : act.Delivers R) (hf : ∀ a, R a → S (f a)) :
    (f <$> act).Delivers S := by
  rw [← bind_pure_comp]
  exact h.bind fun a ha => delivers_pure (hf a ha)

theorem weaken (h : act.Delivers R) : act.Delivers fun _ => True := fun s => (h s).weaken

/-- Going through a list, each item in turn. -/
theorem mapM {R : α → β → Prop} {f : α → Action Error σ β} {as : List α}
    (h : ∀ a ∈ as, (f a).Delivers (R a)) : (as.mapM f).Delivers (List.Forall₂ R as) := by
  induction as with
  | nil =>
    rw [List.mapM_nil]
    exact delivers_pure .nil
  | cons a as ih =>
    obtain ⟨ha, has⟩ := List.forall_mem_cons.mp h
    rw [List.mapM_cons]
    refine ha.bind fun b hb => (ih has).bind fun bs hbs => ?_
    exact delivers_pure (.cons hb hbs)

/-- An action on a part of the state. -/
theorem onPart {act : Action Error τ α} (h : act.Delivers R) (split : σ → τ × ρ)
    (join : τ → ρ → σ) : (act.onPart split join).Delivers R :=
  fun s => h (split s).1

end Delivers

end Action

open JvmClass.Action (delivers_pure delivers_inspect delivers_ofExcept)

namespace Pool

/-! ## Reading constants -/

variable (p : Pool)

theorem delivers_record (i : Slot) : Delivers (fun _ => True) (p.record i) := by
  unfold record
  split
  · trivial
  · rfl

theorem delivers_text (i : Ref .utf8) : Delivers (fun _ => True) (p.text i) := by
  have hrecord := p.delivers_record i.slot
  unfold text
  split
  · rename_i e he
    rwa [he] at hrecord
  · trivial
  · rfl

theorem delivers_className (i : Ref .class) : Delivers (fun _ => True) (p.className i) := by
  refine (p.delivers_record i.slot).bind fun r _ => ?_
  split
  · exact p.delivers_text _
  · rfl

theorem delivers_nameAndType (i : Ref .nameAndType) :
    Delivers (fun _ => True) (p.nameAndType i) := by
  refine (p.delivers_record i.slot).bind fun r _ => ?_
  split
  · exact (p.delivers_text _).bind fun _ _ => (p.delivers_text _).bind fun _ _ => trivial
  · rfl

theorem delivers_member (owner : Ref .class) (nameAndType : Ref .nameAndType) :
    Delivers (fun _ => True) (p.member owner nameAndType) :=
  (p.delivers_nameAndType nameAndType).bind fun _ _ =>
    (p.delivers_className owner).bind fun _ _ => trivial

theorem delivers_handleOf (kind : HandleKind) (target : Slot) (c : Constant) :
    Delivers (fun _ => True) (handleOf kind target c) := by
  cases c <;> trivial

/-- A record is spelled out if the members of handles are. -/
theorem delivers_spellOut {handled : View} (h : ∀ i, Delivers (fun _ => True) (handled i))
    (r : Record) : Delivers (fun _ => True) (p.spellOut handled r) := by
  cases r with
  | named kind name => exact (p.delivers_text name).bind fun _ _ => trivial
  | member kind owner nat => exact (p.delivers_member owner nat).bind fun _ _ => trivial
  | nameAndType name descriptor =>
    exact (p.delivers_text name).bind fun _ _ =>
      (p.delivers_text descriptor).bind fun _ _ => trivial
  -- A handle is the only record with a constant in it that is looked up elsewhere.
  | methodHandle kind target => exact (h target).bind fun c _ => delivers_handleOf kind target c
  | dynamic kind bootstrap nat => exact (p.delivers_nameAndType nat).bind fun _ _ => trivial
  | _ => trivial

theorem delivers_plainConstant (i : Slot) : Delivers (fun _ => True) (p.plainConstant i) := by
  refine (p.delivers_record i).bind fun r _ => p.delivers_spellOut ?_ r
  -- Here a handle is of the wrong kind itself.
  exact fun _ => rfl

theorem delivers_constant (i : Slot) : Delivers (fun _ => True) (p.constant i) :=
  (p.delivers_record i).bind fun r _ => p.delivers_spellOut p.delivers_plainConstant r

theorem delivers_cast (kind : Tag) (i : Slot) : Delivers (fun _ => True) (p.cast kind i) := by
  have hrecord := p.delivers_record i
  unfold cast
  split
  · rename_i e he
    rwa [he] at hrecord
  · split
    · trivial
    · rfl

theorem delivers_memberName (target : Slot) : Delivers (fun _ => True) (p.memberName target) := by
  refine (p.delivers_record target).bind fun r _ => ?_
  split
  · refine (p.delivers_record _).bind fun s _ => ?_
    split
    · exact (p.delivers_text _).bind fun _ _ => trivial
    · rfl
  · trivial

theorem delivers_handleRecord (kind : HandleKind) (target : Slot) :
    Delivers (fun _ => True) (p.handleRecord kind target) := by
  refine (p.delivers_memberName target).bind fun (tag, name) _ => ?_
  show Delivers _ (if kind.acceptsTag p.version tag && kind.acceptsName name then _ else _)
  split
  · trivial
  · rfl

theorem delivers_encodeBounded (version : Version) (text : String) :
    Delivers (fun _ => True) (ModifiedUtf8.encodeBounded version text) := by
  show Delivers _ (if (ModifiedUtf8.encode version text).length ≤ 65535 then _ else _)
  split
  · trivial
  · rfl

theorem delivers_checkRoom (r : Record) : Delivers (fun _ => True) (p.checkRoom r) := by
  have hroom : Delivers (fun _ => True)
      (if 65535 < p.slots.size + r.width then throw (.poolOverflow r p.slots.size)
        else pure () : Except Error Unit) := by
    split
    · rfl
    · trivial
  cases r with
  -- A string is too long for its length field before it is too much for the pool.
  | utf8 text => exact (delivers_encodeBounded p.version text).discard.bind fun _ _ => hroom
  | _ => exact hroom

/-! ## Making constants -/

variable (how : Placement)

theorem delivers_insert (r : Record) : (insert how r).Delivers fun _ => True := by
  intro p
  have hroom := p.delivers_checkRoom r
  unfold insert
  rw [Action.exec_ofFn]
  split
  · -- A record that is shared needs no room.
    trivial
  · split
    · rename_i e he
      rwa [he] at hroom
    · trivial

theorem delivers_insert_ref {kind : Tag} (r : Record) :
    (do return ⟨← insert how r⟩ : Action Error Pool (Ref kind)).Delivers fun _ => True :=
  (delivers_insert how r).bind fun _ _ => delivers_pure trivial

theorem delivers_require (kind : Tag) : (require kind).Delivers fun _ => True := by
  refine delivers_inspect fun p => ?_
  split
  · split
    · rfl
    · trivial
  · trivial

theorem delivers_utf8 (text : String) : (utf8 text).Delivers fun _ => True :=
  delivers_insert_ref _ _

theorem delivers_internNamed (kind : NamedKind) (name : String) :
    (internNamed how kind name).Delivers fun _ => True :=
  (delivers_require _).bind fun _ _ => (delivers_utf8 name).bind fun _ _ =>
    delivers_insert_ref how _

theorem delivers_internNameAndType (name descriptor : String) :
    (internNameAndType how name descriptor).Delivers fun _ => True :=
  (delivers_utf8 name).bind fun _ _ => (delivers_utf8 descriptor).bind fun _ _ =>
    delivers_insert_ref how _

theorem delivers_internMember (kind : MemberKind) (member : Member) :
    (internMember how kind member).Delivers fun _ => True :=
  (delivers_internNamed _ _ _).bind fun _ _ => (delivers_internNameAndType _ _ _).bind fun _ _ =>
    delivers_insert_ref how _

theorem delivers_handleAt (kind : HandleKind) (target : Slot) :
    (handleAt how kind target).Delivers fun _ => True := by
  refine (delivers_require _).bind fun _ _ => ?_
  refine (delivers_inspect fun p => p.delivers_handleRecord kind target).bind fun r _ => ?_
  exact delivers_insert_ref how r

theorem delivers_internHandle (kind : HandleKind) (memberKind : MemberKind) (member : Member) :
    (internHandle how kind memberKind member).Delivers fun _ => True :=
  (delivers_require _).bind fun _ _ => (delivers_internMember _ _ _).bind fun _ _ =>
    delivers_handleAt how kind _

theorem delivers_internDynamic (kind : DynamicKind) (bootstrap : UInt16)
    (name descriptor : String) :
    (internDynamic how kind bootstrap name descriptor).Delivers fun _ => True :=
  (delivers_require _).bind fun _ _ => (delivers_internNameAndType _ _ _).bind fun _ _ =>
    delivers_insert_ref how _

theorem delivers_intern (c : Constant) : (intern how c).Delivers fun _ => True := by
  cases c with
  | utf8 text => exact (delivers_insert_ref how _).map fun _ => id
  | named kind name => exact (delivers_internNamed how kind name).map fun _ => id
  | member kind member => exact (delivers_internMember how kind member).map fun _ => id
  | nameAndType name descriptor => exact (delivers_internNameAndType how _ _).map fun _ => id
  | methodHandle kind memberKind member => exact (delivers_internHandle how _ _ _).map fun _ => id
  | dynamic kind bootstrap name descriptor =>
    exact (delivers_internDynamic how _ _ _ _).map fun _ => id
  | _ => exact delivers_insert how _

/-! ## Copying constants -/

/-- Copying a constant of a pool to any other one. -/
theorem delivers_copy (i : Slot) : (copy p.constant i).Delivers fun _ => True := by
  unfold copy
  split
  · exact delivers_pure trivial
  · refine (delivers_ofExcept (p.delivers_constant i)).bind fun c _ => ?_
    exact delivers_intern .shared c

theorem delivers_copyAs (kind : Tag) (i : Slot) :
    (copyAs kind p.constant i).Delivers fun _ => True := by
  refine (p.delivers_copy i).bind fun j _ => ?_
  split
  · exact delivers_pure trivial
  · exact delivers_inspect fun target => target.delivers_cast kind j

end Pool

end JvmClass
