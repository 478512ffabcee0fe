import JvmClass.Proofs.Pool.Handles

/-!
# Kinds of constants and versions

Some kinds of constants need a recent enough class file, and an operation that adds one of these
asks for the version first.  So all records of a pool are of kinds that its version has, and the
question is never answered with no for a constant that is already there.

## Key results

- `exec_require_eq_ok`: which kinds are not refused
- `keepsKinds_perform`: every call keeps the kinds of a pool within its version
-/

namespace JvmClass

/-- Class files of this version have constants of the kind. -/
def Tag.AvailableIn (tag : Tag) (version : Version) : Prop :=
  ∀ since, tag.since? = some since → since ≤ version

/-- Most kinds of constants have been there from the beginning. -/
theorem Tag.availableIn_of_since? {tag : Tag} (h : tag.since? = none) (version : Version) :
    tag.AvailableIn version := by
  intro since hsince
  rw [h] at hsince
  cases hsince

namespace Pool

open JvmClass.Action (Moves)

variable {α : Type} {p q : Pool} {version : Version}

theorem exec_require_eq_ok {kind : Tag} {u : Unit} :
    (require kind).exec p = (.ok u, q) ↔ kind.AvailableIn p.version ∧ q = p := by
  simp only [require, Action.exec_inspect, Prod.mk.injEq, Tag.AvailableIn]
  cases kind.since? with
  | none => simp [eq_comm]
  | some since =>
    by_cases hlt : p.version < since
    · have hle : ¬ since ≤ p.version := Nat.not_le.mpr hlt
      simp [hlt, hle]
    · have hle : since ≤ p.version := Nat.not_lt.mp hlt
      simp [hlt, hle, eq_comm]

/-- The pool is of this version, and the version has the kinds of all its records. -/
structure KindsIn (version : Version) (p : Pool) : Prop where
  version_eq : p.version = version
  available : ∀ i r, p.Holds i r → r.tag.AvailableIn version

theorem kindsIn_empty (version : Version) : (empty version).KindsIn version where
  version_eq := rfl
  available i r h := absurd h (not_holds_empty version i r)

/-- The second pool keeps within the version if the first one does. -/
def KeepsKinds (version : Version) (p q : Pool) : Prop := p.KindsIn version → q.KindsIn version

instance : Std.Refl (KeepsKinds version) := ⟨fun _ h => h⟩

instance : IsTrans Pool (KeepsKinds version) := ⟨fun _ _ _ hpq hqr h => hqr (hpq h)⟩

/-! ## Operations -/

variable {how : Placement}

theorem keepsKinds_insert (how : Placement) {r : Record} (hr : r.tag.AvailableIn version) :
    (insert how r).Moves (KeepsKinds version) := by
  intro p h
  rcases exec_insert_cases p how r with heq | ⟨-, -, heq⟩
  · rwa [heq]
  · rw [heq]
    refine ⟨h.version_eq, fun i s hs => ?_⟩
    rcases holds_append_iff.mp hs with hold | ⟨-, rfl⟩
    · exact h.available i s hold
    · exact hr

theorem keepsKinds_insert_ref {kind : Tag} (how : Placement) {r : Record}
    (hr : r.tag.AvailableIn version) :
    (do return ⟨← insert how r⟩ : Action Error Pool (Ref kind)).Moves (KeepsKinds version) := by
  rw [bind_pure_comp]
  exact (keepsKinds_insert how hr).map _

/-- What comes after the question for a kind may rely on it. -/
theorem keepsKinds_require {kind : Tag} {k : Unit → Action Error Pool α}
    (hk : kind.AvailableIn version → (k ()).Moves (KeepsKinds version)) :
    (require kind >>= k).Moves (KeepsKinds version) := by
  intro p hp
  rw [Action.exec_bind]
  rcases hrequire : (require kind).exec p with ⟨e | u, p'⟩
  · -- A refusal leaves the pool alone.
    obtain ⟨-, rfl⟩ := Prod.mk.inj hrequire
    exact hp
  · obtain ⟨hkind, rfl⟩ := exec_require_eq_ok.mp hrequire
    rw [hp.version_eq] at hkind
    exact hk hkind p' hp

theorem keepsKinds_utf8 (text : String) : (utf8 text).Moves (KeepsKinds version) :=
  keepsKinds_insert_ref _ (Tag.availableIn_of_since? rfl _)

theorem keepsKinds_internNamed (how : Placement) (kind : NamedKind) (name : String) :
    (internNamed how kind name).Moves (KeepsKinds version) :=
  keepsKinds_require fun hkind => .bind (keepsKinds_utf8 _) fun _ => keepsKinds_insert_ref how hkind

theorem keepsKinds_nameAndTypeAt (how : Placement) (name descriptor : Ref .utf8) :
    (nameAndTypeAt how name descriptor).Moves (KeepsKinds version) :=
  keepsKinds_insert_ref how (Tag.availableIn_of_since? rfl _)

theorem keepsKinds_internNameAndType (how : Placement) (name descriptor : String) :
    (internNameAndType how name descriptor).Moves (KeepsKinds version) :=
  .bind (keepsKinds_utf8 _) fun _ => .bind (keepsKinds_utf8 _) fun _ =>
    keepsKinds_nameAndTypeAt how _ _

theorem keepsKinds_memberAt (how : Placement) (kind : MemberKind) (owner : Ref .class)
    (nat : Ref .nameAndType) : (memberAt how kind owner nat).Moves (KeepsKinds version) :=
  keepsKinds_insert_ref how (Tag.availableIn_of_since? (by cases kind <;> rfl) _)

theorem keepsKinds_internMember (how : Placement) (kind : MemberKind) (member : Member) :
    (internMember how kind member).Moves (KeepsKinds version) :=
  .bind (keepsKinds_internNamed _ _ _) fun _ =>
    .bind (keepsKinds_internNameAndType _ _ _) fun _ => keepsKinds_memberAt how kind _ _

theorem keepsKinds_handleAt (how : Placement) (kind : HandleKind) (target : Slot) :
    (handleAt how kind target).Moves (KeepsKinds version) := by
  refine keepsKinds_require fun hkind p hp => ?_
  rw [Action.exec_bind, Action.exec_inspect]
  rcases hr : p.handleRecord kind target with e | r
  · exact hp
  · have hkind : (Record.methodHandle kind target).tag.AvailableIn version := hkind
    rw [handleRecord_eq_ok hr]
    exact keepsKinds_insert_ref how hkind p hp

theorem keepsKinds_internHandle (how : Placement) (kind : HandleKind) (memberKind : MemberKind)
    (member : Member) : (internHandle how kind memberKind member).Moves (KeepsKinds version) :=
  keepsKinds_require fun _ => .bind (keepsKinds_internMember _ _ _) fun _ =>
    keepsKinds_handleAt how kind _

theorem keepsKinds_internDynamic (how : Placement) (kind : DynamicKind) (bootstrap : UInt16)
    (name descriptor : String) :
    (internDynamic how kind bootstrap name descriptor).Moves (KeepsKinds version) :=
  keepsKinds_require fun hkind => .bind (keepsKinds_internNameAndType _ _ _) fun _ =>
    keepsKinds_insert_ref how hkind

theorem keepsKinds_intern (how : Placement) (c : Constant) :
    (intern how c).Moves (KeepsKinds version) := by
  cases c with
  | utf8 text => exact (keepsKinds_insert_ref how (Tag.availableIn_of_since? rfl _)).map _
  | integer value => exact keepsKinds_insert how (Tag.availableIn_of_since? rfl _)
  | float bits => exact keepsKinds_insert how (Tag.availableIn_of_since? rfl _)
  | long value => exact keepsKinds_insert how (Tag.availableIn_of_since? rfl _)
  | double bits => exact keepsKinds_insert how (Tag.availableIn_of_since? rfl _)
  | named kind name => exact (keepsKinds_internNamed how _ _).map _
  | member kind member => exact (keepsKinds_internMember how _ _).map _
  | nameAndType name descriptor => exact (keepsKinds_internNameAndType how _ _).map _
  | methodHandle kind memberKind member => exact (keepsKinds_internHandle how _ _ _).map _
  | dynamic kind bootstrap name descriptor => exact (keepsKinds_internDynamic how _ _ _ _).map _

theorem keepsKinds_copy (view : View) (i : Slot) : (copy view i).Moves (KeepsKinds version) := by
  unfold copy
  split
  · exact Moves.pure _
  · exact Moves.bind (Moves.ofExcept _) fun c => keepsKinds_intern .shared c

/-- Whatever a caller asks for, the kinds of all records stay within the version. -/
theorem keepsKinds_perform (call : Call) : call.perform.Moves (KeepsKinds version) := by
  cases call with
  | intern how c => exact keepsKinds_intern how c
  | classAt name => exact (keepsKinds_insert_ref _ (Tag.availableIn_of_since? rfl _)).map _
  | nameAndTypeAt how name descriptor => exact (keepsKinds_nameAndTypeAt how _ _).map _
  | memberAt how kind owner nat => exact (keepsKinds_memberAt how kind _ _).map _
  | handleAt how kind target => exact (keepsKinds_handleAt how kind target).map _
  | copy view i => exact keepsKinds_copy view i
  | copyAs kind view i =>
    refine Moves.map (Moves.bind (keepsKinds_copy view i) fun j => ?_) _
    split
    · exact Moves.pure _
    · exact Moves.inspect _

end Pool

end JvmClass
