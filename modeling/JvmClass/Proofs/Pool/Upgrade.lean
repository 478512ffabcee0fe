import JvmClass.Proofs.Pool.Reading

/-!
# Raising the version of a pool

The version of a class file decides which kinds of constants a pool takes, which members a method
handle may refer to, and how a supplementary character is written.  The first two only ever get more
permissive.  The third changes once, with version 48.0.  So from there on whatever a pool of some
version takes, a pool of a later version takes as well, at the same slots, and both are the same
bytes.

`Rises old new act` says this of one action: when it succeeds on a pool of the old version, it has
the same result on that pool at the new version.

## Key results

- `encode_eq_of_le`, `unsupported_mono`, `acceptsTag_mono`: what the version decides
- `rises_insert`: a record that finds room at the old version finds it at the new one
- `rises_perform`: operations of a pool rise
- `run_of_le`: whole runs of operations rise, and the pools that they reach are the same bytes
-/

namespace JvmClass

open JvmClass.Action (except_bind_eq_ok)

variable {old new : Version}

/-! ## What the version decides -/

theorem Version.le_trans {u v w : Version} (huv : u ≤ v) (hvw : v ≤ w) : u ≤ w :=
  Nat.le_trans (m := v.rank) huv hvw

theorem Version.not_lt {v w : Version} : ¬ v < w ↔ w ≤ v := Nat.not_lt

/-- All versions with surrogate pairs write a string in the same way. -/
theorem ModifiedUtf8.encode_eq_of_le (hold : Version.java1_4 ≤ old) (hnew : old ≤ new)
    (text : String) : encode new text = encode old text := by
  have hpairs : hasSurrogatePairs new = hasSurrogatePairs old := by
    rw [hasSurrogatePairs, hasSurrogatePairs, decide_eq_true hold,
      decide_eq_true (Version.le_trans hold hnew)]
  unfold encode
  rw [hpairs]

/-- The last version without surrogate pairs writes a supplementary character differently. -/
example : ModifiedUtf8.encode ⟨47, 65535⟩ "𝄞" ≠ ModifiedUtf8.encode .java1_4 "𝄞" := by decide

theorem Record.encode_eq_of_le (hold : Version.java1_4 ≤ old) (hnew : old ≤ new) (r : Record) :
    r.encode new = r.encode old := by
  cases r with
  | utf8 text =>
    show Tag.utf8.byte :: (BigEndian.encode 2 (ModifiedUtf8.encode new text).length
      ++ ModifiedUtf8.encode new text) = _
    rw [ModifiedUtf8.encode_eq_of_le hold hnew]
    rfl
  | _ => rfl

theorem Record.textSize_eq_of_le (hold : Version.java1_4 ≤ old) (hnew : old ≤ new) (r : Record) :
    r.textSize new = r.textSize old := by
  cases r with
  | utf8 text =>
    show (ModifiedUtf8.encode new text).length = (ModifiedUtf8.encode old text).length
    rw [ModifiedUtf8.encode_eq_of_le hold hnew]
  | _ => rfl

/-- What a version of the format has, later versions have. -/
theorem HandleKind.acceptsTag_mono (hnew : old ≤ new) {kind : HandleKind} {tag : Tag}
    (h : kind.acceptsTag old tag = true) : kind.acceptsTag new tag = true := by
  -- Only two kinds look at the version, and these ask for one that is recent enough.
  have hjava8 : Version.java8 ≤ old → Version.java8 ≤ new := fun h => Version.le_trans h hnew
  cases kind with
  | invokeStatic | invokeSpecial =>
    simp only [acceptsTag, Bool.or_eq_true, Bool.and_eq_true, decide_eq_true_eq] at h ⊢
    exact h.imp_right fun ⟨htag, hle⟩ => ⟨htag, hjava8 hle⟩
  | _ => exact h

namespace Pool

/-! ## The same pool at another version -/

/-- The same constants in a class file of another version. -/
def atVersion (p : Pool) (version : Version) : Pool := { p with version }

variable {p : Pool}

@[simp] theorem version_atVersion (p : Pool) (v : Version) : (p.atVersion v).version = v := rfl

@[simp] theorem slots_atVersion (p : Pool) (v : Version) : (p.atVersion v).slots = p.slots := rfl

@[simp] theorem shared?_atVersion (p : Pool) (v : Version) (how : Placement) (r : Record) :
    (p.atVersion v).shared? how r = p.shared? how r := by
  cases how <;> rfl

/-- The bytes of a pool stay what they are. -/
theorem encode_atVersion (hold : Version.java1_4 ≤ p.version) (hnew : p.version ≤ new) :
    (p.atVersion new).encode = p.encode := by
  have hslot : encodeSlot new = encodeSlot p.version := by
    funext slot
    cases slot with
    | none => rfl
    | some r => exact r.encode_eq_of_le hold hnew
  rw [encode_eq, encode_eq, slots_atVersion, version_atVersion, hslot]

/-! ## Actions that rise -/

variable {α β : Type}

/-- When the action succeeds on a pool of the old version, it succeeds on that pool at the new
version, with the same result and the same constants. -/
def Rises (old new : Version) (act : Action Error Pool α) : Prop :=
  ∀ p q a, p.version = old → act.exec p = (.ok a, q) →
    q.version = old ∧ act.exec (p.atVersion new) = (.ok a, q.atVersion new)

theorem rises_pure (a : α) : Rises old new (pure a : Action Error Pool α) := by
  intro p q b hp h
  cases h
  exact ⟨hp, rfl⟩

/-- A look at the pool that a later version does not refuse. -/
theorem rises_inspect {f : Pool → Except Error α}
    (hf : ∀ p a, p.version = old → f p = .ok a → f (p.atVersion new) = .ok a) :
    Rises old new (Action.inspect f) := by
  intro p q a hp h
  obtain ⟨ha, rfl⟩ := Prod.mk.inj h
  refine ⟨hp, ?_⟩
  rw [Action.exec_inspect, hf p a hp ha]

theorem Rises.bind {act : Action Error Pool α} {k : α → Action Error Pool β}
    (h : Rises old new act) (hk : ∀ a, Rises old new (k a)) : Rises old new (act >>= k) := by
  intro p q b hp hact
  obtain ⟨a, p', ha, hb⟩ := Action.exec_bind_eq_ok.mp hact
  obtain ⟨hp', hfirst⟩ := h p p' a hp ha
  obtain ⟨hq, hsecond⟩ := hk a p' q b hp' hb
  exact ⟨hq, Action.exec_bind_eq_ok.mpr ⟨a, p'.atVersion new, hfirst, hsecond⟩⟩

theorem Rises.map {act : Action Error Pool α} (h : Rises old new act) (f : α → β) :
    Rises old new (f <$> act) := by
  rw [← bind_pure_comp]
  exact h.bind fun _ => rises_pure _

/-- Going through a list, each item in turn. -/
theorem rises_mapM {f : α → Action Error Pool β} (hf : ∀ a, Rises old new (f a)) (xs : List α) :
    Rises old new (xs.mapM f) := by
  induction xs with
  | nil => rw [List.mapM_nil]; exact rises_pure _
  | cons x xs ih =>
    rw [List.mapM_cons]
    exact (hf x).bind fun _ => ih.bind fun _ => rises_pure _

section Supported

variable (hold : Version.java1_4 ≤ old) (hnew : old ≤ new)
include hold hnew

/-- A record that finds room in a pool of the old version finds it at the new one: its string is
no longer there. -/
theorem rises_insert (how : Placement) (r : Record) : Rises old new (insert how r) := by
  intro p q i hp h
  cases hs : p.shared? how r with
  | some j =>
    have hs' := (shared?_atVersion p new how r).trans hs
    simp only [insert, Action.exec_ofFn, hs] at h
    cases h
    refine ⟨hp, ?_⟩
    simp only [insert, Action.exec_ofFn, hs']
  | none =>
    have hs' := (shared?_atVersion p new how r).trans hs
    have hsize : r.textSize new = r.textSize p.version := by
      rw [hp]
      exact r.textSize_eq_of_le hold hnew
    rw [exec_insert_append hs] at h
    split at h
    · cases h
    · rename_i htext
      split at h
      · cases h
      · rename_i hroom
        cases h
        refine ⟨hp, ?_⟩
        rw [exec_insert_append hs', version_atVersion, hsize, if_neg htext, slots_atVersion,
          if_neg hroom]
        rfl

/-- The usual end of an operation. -/
theorem rises_insert_ref {kind : Tag} (how : Placement) (r : Record) :
    Rises old new (do return ⟨← insert how r⟩ : Action Error Pool (Ref kind)) :=
  (rises_insert hold hnew how r).bind fun _ => rises_pure _

omit hold in
/-- A kind of constant that the old version has, the new one has. -/
theorem rises_require (kind : Tag) : Rises old new (require kind) := by
  refine rises_inspect fun p _ hp h => ?_
  cases hsince : kind.since? with
  | none => rfl
  | some since =>
    simp only [hsince, hp] at h
    split at h
    · cases h
    · rename_i hle
      have hlater : ¬ new < since :=
        Version.not_lt.mpr (Version.le_trans (Version.not_lt.mp hle) hnew)
      show (if new < since then _ else _) = _
      rw [if_neg hlater]

omit hold in
/-- A handle that fits its member at the old version fits it at the new one. -/
theorem rises_handleRecord (kind : HandleKind) (target : Slot) :
    Rises old new (Action.inspect fun p => p.handleRecord kind target) := by
  refine rises_inspect fun p r hp h => ?_
  obtain ⟨⟨tag, name⟩, hmember, h⟩ := except_bind_eq_ok.mp h
  refine except_bind_eq_ok.mpr ⟨(tag, name), hmember, ?_⟩
  simp only [hp] at h
  split at h
  · rename_i hfits
    rw [Bool.and_eq_true] at hfits
    have hlater : (kind.acceptsTag new tag && kind.acceptsName name) = true :=
      Bool.and_eq_true_iff.mpr ⟨HandleKind.acceptsTag_mono hnew hfits.1, hfits.2⟩
    show (if (kind.acceptsTag new tag && kind.acceptsName name) = true then _ else _) = _
    rw [if_pos hlater]
    exact h
  · cases h

theorem rises_utf8 (s : String) : Rises old new (utf8 s) := rises_insert_ref hold hnew _ _

theorem rises_internNamed (how : Placement) (kind : NamedKind) (s : String) :
    Rises old new (internNamed how kind s) :=
  (rises_require hnew _).bind fun _ => (rises_utf8 hold hnew s).bind fun _ =>
    rises_insert_ref hold hnew _ _

theorem rises_internNameAndType (how : Placement) (s t : String) :
    Rises old new (internNameAndType how s t) :=
  (rises_utf8 hold hnew s).bind fun _ => (rises_utf8 hold hnew t).bind fun _ =>
    rises_insert_ref hold hnew _ _

theorem rises_internMember (how : Placement) (kind : MemberKind) (m : Member) :
    Rises old new (internMember how kind m) :=
  (rises_internNamed hold hnew _ _ _).bind fun _ =>
    (rises_internNameAndType hold hnew _ _ _).bind fun _ => rises_insert_ref hold hnew _ _

theorem rises_handleAt (how : Placement) (kind : HandleKind) (target : Slot) :
    Rises old new (handleAt how kind target) :=
  (rises_require hnew _).bind fun _ => (rises_handleRecord hnew kind target).bind fun _ =>
    rises_insert_ref hold hnew _ _

theorem rises_internHandle (how : Placement) (kind : HandleKind) (memberKind : MemberKind)
    (m : Member) : Rises old new (internHandle how kind memberKind m) :=
  (rises_require hnew _).bind fun _ => (rises_internMember hold hnew _ _ _).bind fun _ =>
    rises_handleAt hold hnew _ _ _

theorem rises_internDynamic (how : Placement) (kind : DynamicKind) (bootstrap : UInt16)
    (s t : String) : Rises old new (internDynamic how kind bootstrap s t) :=
  (rises_require hnew _).bind fun _ => (rises_internNameAndType hold hnew _ _ _).bind fun _ =>
    rises_insert_ref hold hnew _ _

theorem rises_intern (how : Placement) (c : Constant) : Rises old new (intern how c) := by
  cases c with
  | utf8 s => exact (rises_insert_ref hold hnew how _).map _
  | integer value => exact rises_insert hold hnew how _
  | float bits => exact rises_insert hold hnew how _
  | long value => exact rises_insert hold hnew how _
  | double bits => exact rises_insert hold hnew how _
  | named kind s => exact (rises_internNamed hold hnew how kind s).map _
  | member kind m => exact (rises_internMember hold hnew how kind m).map _
  | nameAndType s t => exact (rises_internNameAndType hold hnew how s t).map _
  | methodHandle kind memberKind m =>
    exact (rises_internHandle hold hnew how kind memberKind m).map _
  | dynamic kind bootstrap s t => exact (rises_internDynamic hold hnew how kind bootstrap s t).map _

theorem rises_copy (view : View) (i : Slot) : Rises old new (copy view i) := by
  unfold copy
  split
  · exact rises_pure _
  · have hview : Rises old new (Action.ofExcept (view i)) := rises_inspect fun _ _ _ hc => hc
    exact hview.bind fun c => rises_intern hold hnew .shared c

theorem rises_copyAs (kind : Tag) (view : View) (i : Slot) :
    Rises old new (copyAs kind view i) := by
  refine (rises_copy hold hnew view i).bind fun j => ?_
  split
  · exact rises_pure _
  · exact rises_inspect fun _ _ _ hcast => hcast

theorem rises_call (call : Call) : Rises old new call.perform := by
  cases call with
  | intern how c => exact rises_intern hold hnew how c
  | classAt name => exact (rises_insert_ref hold hnew _ _).map _
  | nameAndTypeAt how name descriptor => exact (rises_insert_ref hold hnew how _).map _
  | memberAt how kind owner nat => exact (rises_insert_ref hold hnew how _).map _
  | handleAt how kind target => exact (rises_handleAt hold hnew how kind target).map _
  | copy view i => exact rises_copy hold hnew view i
  | copyAs kind view i => exact (rises_copyAs hold hnew kind view i).map _

end Supported

/-! ## Runs of operations -/

/-- What can be asked of a pool for a slot: a constant, or whether a slot holds a record of some
kind or of any kind. -/
inductive Operation
  | call (c : Call)
  | cast (kind : Tag) (i : Slot)
  | castAny (i : Slot)

/-- What an operation does. -/
def Operation.perform : Operation → Action Error Pool Slot
  | call c => c.perform
  | cast kind i => Ref.slot <$> Action.inspect fun p => p.cast kind i
  | castAny i => Action.inspect fun p => p.castAny i

/-- Operations one after the other, up to the first that fails, and the slots that they return. -/
def run (operations : List Operation) : Action Error Pool (List Slot) :=
  operations.mapM Operation.perform

theorem rises_perform (hold : Version.java1_4 ≤ old) (hnew : old ≤ new) (op : Operation) :
    Rises old new op.perform := by
  cases op with
  | call c => exact rises_call hold hnew c
  | cast kind i =>
    have hcast : Rises old new (Action.inspect fun p => p.cast kind i) :=
      rises_inspect fun _ _ _ h => h
    exact hcast.map _
  | castAny i => exact rises_inspect fun _ _ _ hcast => hcast

/-- A run of operations that all succeed on a pool of version 48.0 or later also succeeds on one of
any later version.  It returns the same slots there and reaches the same constants, and the two
pools are the same bytes. -/
theorem run_of_le {slots : List Slot} {operations : List Operation}
    (hold : Version.java1_4 ≤ old) (hnew : old ≤ new)
    (h : (run operations).exec (empty old) = (.ok slots, p)) :
    (run operations).exec (empty new) = (.ok slots, p.atVersion new) ∧
      (p.atVersion new).encode = p.encode := by
  have hrun : Rises old new (run operations) := rises_mapM (rises_perform hold hnew) operations
  obtain ⟨hversion, hrises⟩ := hrun (empty old) p slots rfl h
  exact ⟨hrises, encode_atVersion (hversion ▸ hold) (hversion ▸ hnew)⟩

/-- A name with a supplementary character that is its own descriptor, a method of that name, whose
interface is not in the pool, a handle that calls it, and the question whether that is a handle. -/
def clef : List Operation :=
  [.call (.intern .fresh (.utf8 "𝄞")), .call (.nameAndTypeAt .fresh ⟨1⟩ ⟨1⟩),
    .call (.memberAt .fresh .interfaceMethod ⟨9⟩ ⟨2⟩), .call (.handleAt .fresh .invokeStatic 3),
    .cast .methodHandle 4]

/-- Java SE 8 is the first version that takes such a handle, and Java SE 11 still takes it. -/
theorem run_clef_of_java8 :
    Version.java1_4 ≤ .java8 ∧ Version.java8 ≤ .java11 ∧
      ∃ p, (run clef).exec (empty .java8) = (.ok [1, 2, 3, 4, 4], p) ∧
        (run clef).exec (empty .java11) = (.ok [1, 2, 3, 4, 4], p.atVersion .java11) ∧
        (p.atVersion .java11).encode = p.encode := by
  have hold : Version.java1_4 ≤ .java8 := by decide
  have hnew : Version.java8 ≤ .java11 := by decide
  have hrun : (run clef).exec (empty .java8)
      = (.ok [1, 2, 3, 4, 4], ((run clef).exec (empty .java8)).2) := Prod.ext (by rfl) rfl
  exact ⟨hold, hnew, _, hrun, run_of_le hold hnew hrun⟩

end Pool

end JvmClass
