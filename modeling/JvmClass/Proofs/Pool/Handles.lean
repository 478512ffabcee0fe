import JvmClass.Proofs.Pool.Soundness

/-!
# Method handles

A method handle is checked once, when its record is inserted, against records that may have been
put together from slots of any other pool.  As records never change, the check holds forever:
`HandlesValid` is kept by every operation of a pool, whatever slots it is given.

`follow` reads a constant in the way that a handle asks for, by reading the constant at its target
in turn.  Nothing in the recursion makes it end, and in a pool with a handle to itself it would
not.  A valid handle refers to a member, so that one further look is enough.

## Key results

- `HandleKind.fits_of_accepts`: what the check of a handle says about its member
- `keepsHandles_perform`: every call keeps all handles valid
- `HandlesValid.follow_eq`: among valid handles, reading ends after one further look at most
- `handles_of_reachable`: both of these in every pool that a run of calls reaches
-/

namespace JvmClass

theorem Record.eq_methodHandle_of_tag {r : Record} (h : r.tag = .methodHandle) :
    ∃ kind target, r = .methodHandle kind target := by
  cases r with
  | methodHandle kind target => exact ⟨kind, target, rfl⟩
  | named kind => cases kind <;> cases h
  | member kind => cases kind <;> cases h
  | dynamic kind => cases kind <;> cases h
  | _ => cases h

/-- What the kind of a method handle, by its number in a class file, demands of its member. -/
structure HandleKind.Fits (kind : HandleKind) (version : Version) (member : MemberKind)
    (name : String) : Prop where
  of_access : kind.byte ≤ 4 → member = .field
  of_method : kind.byte = 5 ∨ kind.byte = 8 → member = .method
  of_either : kind.byte = 6 ∨ kind.byte = 7 →
    member = .method ∨ member = .interfaceMethod ∧ Version.java8 ≤ version
  of_interface : kind.byte = 9 → member = .interfaceMethod
  of_new : kind.byte = 8 → name = "<init>"
  of_call : kind.byte = 5 ∨ kind.byte = 6 ∨ kind.byte = 7 ∨ kind.byte = 9 →
    name ≠ "<init>" ∧ name ≠ "<clinit>"

/-- The two checks of a handle come to what its kind demands. -/
theorem HandleKind.fits_of_accepts {kind : HandleKind} {version : Version} {member : MemberKind}
    {name : String} (htag : kind.acceptsTag version member.tag = true)
    (hname : kind.acceptsName name = true) : kind.Fits version member name := by
  constructor <;> intro hkind <;> cases kind <;>
    simp_all [HandleKind.byte, acceptsTag, acceptsName] <;> cases member <;> simp_all

namespace Pool

open JvmClass.Action (Moves except_bind_eq_ok except_throw_ne_ok except_pure_eq_ok)

variable {p q : Pool}

/-! ## Valid handles -/

/-- Class files of this version have method handles, and the target is a member whose name can be
read and that fits the kind of the handle. -/
def ValidHandle (p : Pool) (kind : HandleKind) (target : Slot) : Prop :=
  Version.java7 ≤ p.version ∧
    ∃ memberKind owner nat name descriptor text,
      p.Holds target.toNat (.member memberKind owner nat) ∧
        p.Holds nat.slot.toNat (.nameAndType name descriptor) ∧
        p.Holds name.slot.toNat (.utf8 text) ∧ kind.Fits p.version memberKind text

/-- Every method handle of the pool is valid. -/
def HandlesValid (p : Pool) : Prop :=
  ∀ i kind target, p.Holds i (.methodHandle kind target) → p.ValidHandle kind target

theorem handlesValid_empty (version : Version) : (empty version).HandlesValid :=
  fun i _ _ h => absurd h (not_holds_empty version i _)

/-- Later records do not spoil a handle. -/
theorem ValidHandle.grows {kind : HandleKind} {target : Slot} (h : p.ValidHandle kind target)
    (hq : p.Grows q) : q.ValidHandle kind target := by
  obtain ⟨hversion, memberKind, owner, nat, name, descriptor, text, hmember, hnat, hname, hfits⟩ :=
    h
  have hsame := hq.version_eq
  refine ⟨hsame ▸ hversion, memberKind, owner, nat, name, descriptor, text, ?_⟩
  exact ⟨hq.holds hmember, hq.holds hnat, hq.holds hname, hsame ▸ hfits⟩

/-- A handle never refers to another handle. -/
theorem ValidHandle.target_ne_handle {kind : HandleKind} {target : Slot}
    (h : p.ValidHandle kind target) {r : Record} (hr : p.Holds target.toNat r) :
    r.tag ≠ .methodHandle := by
  obtain ⟨-, memberKind, owner, nat, -, -, -, hmember, -⟩ := h
  unfold Holds at hr hmember
  rw [hmember] at hr
  cases hr
  cases memberKind <;> simp [Record.tag]

/-- What the check of a handle has read, when it finds the name of a member. -/
theorem memberName_eq_ok {target : Slot} {tag : Tag} {text : String}
    (h : p.memberName target = .ok (tag, text)) (htag : tag ∈ Tag.members) :
    ∃ memberKind owner nat name descriptor,
      memberKind.tag = tag ∧ p.Holds target.toNat (.member memberKind owner nat) ∧
        p.Holds nat.slot.toNat (.nameAndType name descriptor) ∧
        p.Holds name.slot.toNat (.utf8 text) := by
  obtain ⟨r, hr, h⟩ := except_bind_eq_ok.mp h
  split at h
  · rename_i memberKind owner nat
    obtain ⟨s, hs, h⟩ := except_bind_eq_ok.mp h
    split at h
    · rename_i name descriptor
      obtain ⟨found, hfound, h⟩ := except_bind_eq_ok.mp h
      cases except_pure_eq_ok.mp h
      refine ⟨memberKind, owner, nat, name, descriptor, rfl, ?_, ?_, ?_⟩
      · exact record_eq_ok_iff.mp hr
      · exact record_eq_ok_iff.mp hs
      · exact record_eq_ok_iff.mp (text_eq_ok_iff.mp hfound)
    · exact absurd h (except_throw_ne_ok _ _)
  · -- The record is no member, and its kind is returned for the message.
    rename_i hne
    cases except_pure_eq_ok.mp h
    obtain ⟨memberKind, owner, nat, rfl⟩ := Record.eq_member_of_tag htag
    exact absurd rfl (hne memberKind owner nat)

/-- A handle that passes the checks is valid, whatever slot the caller passes. -/
theorem validHandle_of_handleRecord {kind : HandleKind} {target : Slot} {r : Record}
    (hversion : Version.java7 ≤ p.version) (h : p.handleRecord kind target = .ok r) :
    p.ValidHandle kind target := by
  obtain ⟨⟨tag, text⟩, hfound, h⟩ := except_bind_eq_ok.mp h
  simp only [] at h
  split at h
  · rename_i haccepts
    obtain ⟨htag, hname⟩ := Bool.and_eq_true_iff.mp haccepts
    have hmembers := HandleKind.mem_members_of_acceptsTag htag
    obtain ⟨memberKind, owner, nat, name, descriptor, rfl, hmember, hnat, htext⟩ :=
      memberName_eq_ok hfound hmembers
    refine ⟨hversion, memberKind, owner, nat, name, descriptor, text, hmember, hnat, htext, ?_⟩
    exact HandleKind.fits_of_accepts htag hname
  · exact absurd h (except_throw_ne_ok _ _)

/-- Appending a record keeps the handles valid, if it is no handle or a valid one. -/
theorem HandlesValid.append (h : p.HandlesValid) {r : Record} (hroom : p.Grows (p.append r))
    (hr : ∀ kind target, r = .methodHandle kind target → p.ValidHandle kind target) :
    (p.append r).HandlesValid := by
  intro i kind target hi
  rcases holds_append_iff.mp hi with hold | ⟨-, hnew⟩
  · exact (h i kind target hold).grows hroom
  · exact (hr kind target hnew.symm).grows hroom

/-! ## Operations -/

/-- The second pool has only valid handles if the first one does. -/
def KeepsHandles (p q : Pool) : Prop := p.HandlesValid → q.HandlesValid

instance : Std.Refl KeepsHandles := ⟨fun _ h => h⟩

instance : IsTrans Pool KeepsHandles := ⟨fun _ _ _ hpq hqr h => hqr (hpq h)⟩

theorem keepsHandles_exec_insert (how : Placement) {r : Record}
    (hr : ∀ kind target, r = .methodHandle kind target → p.ValidHandle kind target) :
    p.KeepsHandles ((insert how r).exec p).2 := by
  intro h
  have hgrows : p.Grows ((insert how r).exec p).2 := .single ⟨how, r, rfl⟩
  rcases exec_insert_cases p how r with heq | ⟨-, -, heq⟩
  · rwa [heq]
  · rw [heq] at hgrows ⊢
    exact h.append hgrows hr

/-- Records that are no handles can be inserted at any time. -/
theorem keepsHandles_insert (how : Placement) {r : Record} (hr : r.tag ≠ .methodHandle) :
    (insert how r).Moves KeepsHandles := by
  intro p
  apply keepsHandles_exec_insert how
  rintro kind target rfl
  exact absurd rfl hr

theorem keepsHandles_insert_ref {kind : Tag} (how : Placement) {r : Record}
    (hr : r.tag ≠ .methodHandle) :
    (do return ⟨← insert how r⟩ : Action Error Pool (Ref kind)).Moves KeepsHandles := by
  rw [bind_pure_comp]
  exact (keepsHandles_insert how hr).map _

theorem keepsHandles_require (kind : Tag) : (require kind).Moves KeepsHandles := Moves.inspect _

theorem keepsHandles_utf8 (text : String) : (utf8 text).Moves KeepsHandles :=
  keepsHandles_insert_ref _ (by simp [Record.tag])

theorem keepsHandles_internNamed (how : Placement) (kind : NamedKind) (name : String) :
    (internNamed how kind name).Moves KeepsHandles := by
  refine .bind (keepsHandles_require _) fun _ => .bind (keepsHandles_utf8 _) fun _ => ?_
  exact keepsHandles_insert_ref how (by cases kind <;> simp [Record.tag])

theorem keepsHandles_nameAndTypeAt (how : Placement) (name descriptor : Ref .utf8) :
    (nameAndTypeAt how name descriptor).Moves KeepsHandles :=
  keepsHandles_insert_ref how (by simp [Record.tag])

theorem keepsHandles_internNameAndType (how : Placement) (name descriptor : String) :
    (internNameAndType how name descriptor).Moves KeepsHandles :=
  .bind (keepsHandles_utf8 _) fun _ => .bind (keepsHandles_utf8 _) fun _ =>
    keepsHandles_nameAndTypeAt how _ _

theorem keepsHandles_memberAt (how : Placement) (kind : MemberKind) (owner : Ref .class)
    (nat : Ref .nameAndType) : (memberAt how kind owner nat).Moves KeepsHandles :=
  keepsHandles_insert_ref how (by cases kind <;> simp [Record.tag])

theorem keepsHandles_internMember (how : Placement) (kind : MemberKind) (member : Member) :
    (internMember how kind member).Moves KeepsHandles :=
  .bind (keepsHandles_internNamed _ _ _) fun _ =>
    .bind (keepsHandles_internNameAndType _ _ _) fun _ => keepsHandles_memberAt how kind _ _

/-- A handle is inserted into the pool in which it was checked. -/
theorem keepsHandles_handleAt (how : Placement) (kind : HandleKind) (target : Slot) :
    (handleAt how kind target).Moves KeepsHandles := by
  intro p
  unfold handleAt
  rw [Action.exec_bind]
  rcases hrequire : (require .methodHandle).exec p with ⟨e | u, p'⟩
  · exact (keepsHandles_require _).of_exec hrequire
  · obtain ⟨hversion, rfl⟩ := Prod.mk.inj hrequire
    have hversion : Version.java7 ≤ p.version := by
      refine Nat.le_of_not_lt fun hlt => ?_
      have hlt : p.version < Version.java7 := hlt
      simp [Tag.since?, hlt] at hversion
    simp only [Action.exec_bind, Action.exec_inspect]
    rcases hr : p.handleRecord kind target with e | r
    · exact fun h => h
    · have hvalid := validHandle_of_handleRecord hversion hr
      have hins : p.KeepsHandles ((insert how r).exec p).2 := by
        apply keepsHandles_exec_insert how
        rintro kind' target' rfl
        cases handleRecord_eq_ok hr
        exact hvalid
      rcases hinsert : (insert how r).exec p with ⟨e | i, q⟩ <;> simpa [hinsert] using hins

theorem keepsHandles_internHandle (how : Placement) (kind : HandleKind) (memberKind : MemberKind)
    (member : Member) : (internHandle how kind memberKind member).Moves KeepsHandles :=
  .bind (keepsHandles_require _) fun _ =>
    .bind (keepsHandles_internMember _ _ _) fun _ => keepsHandles_handleAt how kind _

theorem keepsHandles_internDynamic (how : Placement) (kind : DynamicKind) (bootstrap : UInt16)
    (name descriptor : String) :
    (internDynamic how kind bootstrap name descriptor).Moves KeepsHandles := by
  refine .bind (keepsHandles_require _) fun _ =>
    .bind (keepsHandles_internNameAndType _ _ _) fun _ => ?_
  exact keepsHandles_insert_ref how (by cases kind <;> simp [Record.tag])

theorem keepsHandles_intern (how : Placement) (c : Constant) :
    (intern how c).Moves KeepsHandles := by
  cases c with
  | utf8 text => exact (keepsHandles_insert_ref how (by simp [Record.tag])).map _
  | integer value => exact keepsHandles_insert how (by simp [Record.tag])
  | float bits => exact keepsHandles_insert how (by simp [Record.tag])
  | long value => exact keepsHandles_insert how (by simp [Record.tag])
  | double bits => exact keepsHandles_insert how (by simp [Record.tag])
  | named kind name => exact (keepsHandles_internNamed how _ _).map _
  | member kind member => exact (keepsHandles_internMember how _ _).map _
  | nameAndType name descriptor => exact (keepsHandles_internNameAndType how _ _).map _
  | methodHandle kind memberKind member => exact (keepsHandles_internHandle how _ _ _).map _
  | dynamic kind bootstrap name descriptor => exact (keepsHandles_internDynamic how _ _ _ _).map _

theorem keepsHandles_copy (view : View) (i : Slot) : (copy view i).Moves KeepsHandles := by
  unfold copy
  split
  · exact Moves.pure _
  · exact Moves.bind (Moves.ofExcept _) fun c => keepsHandles_intern .shared c

/-- Whatever a caller asks for, from this pool or another one, all handles stay valid. -/
theorem keepsHandles_perform (call : Call) : call.perform.Moves KeepsHandles := by
  cases call with
  | intern how c => exact keepsHandles_intern how c
  | classAt name => exact (keepsHandles_insert_ref _ (by simp [Record.tag])).map _
  | nameAndTypeAt how name descriptor => exact (keepsHandles_nameAndTypeAt how _ _).map _
  | memberAt how kind owner nat => exact (keepsHandles_memberAt how kind _ _).map _
  | handleAt how kind target => exact (keepsHandles_handleAt how kind target).map _
  | copy view i => exact keepsHandles_copy view i
  | copyAs kind view i =>
    refine Moves.map (Moves.bind (keepsHandles_copy view i) fun j => ?_) _
    split
    · exact Moves.pure _
    · exact Moves.inspect _

theorem HandlesValid.afterCalls (h : p.HandlesValid) (calls : List Call) :
    (p.afterCalls calls).HandlesValid := by
  induction calls generalizing p with
  | nil => exact h
  | cons call calls ih => exact ih (keepsHandles_perform call p h)

/-! ## Following references -/

/-- Read the constant at a slot, where a handle reads the constant at its target in the same way:
the constant, and the number of further slots that were looked at.  There is no result if this
goes on forever. -/
def follow (p : Pool) (i : Slot) : Option (Except Error Constant × Nat) :=
  match p.record i with
  | .error e => some (.error e, 0)
  | .ok (.methodHandle kind target) => do
    let (c, looks) ← p |>.follow target
    return (c >>= handleOf kind target, looks + 1)
  | .ok r => some (p.spellOut p.plainConstant r, 0)
partial_fixpoint

theorem follow_of_error {i : Slot} {e : Error} (h : p.record i = .error e) :
    p.follow i = some (.error e, 0) := by
  rw [follow, h]

theorem follow_of_handle {i target : Slot} {kind : HandleKind}
    (h : p.record i = .ok (.methodHandle kind target)) :
    p.follow i = (p.follow target).map fun x => (x.1 >>= handleOf kind target, x.2 + 1) := by
  rw [follow]
  simp only [h]
  cases p.follow target <;> rfl

/-- A handle to itself would be followed forever. -/
theorem follow_of_self {i : Slot} {kind : HandleKind}
    (h : p.record i = .ok (.methodHandle kind i)) : p.follow i = none := by
  have hstep := follow_of_handle h
  rcases hfollow : p.follow i with - | ⟨c, looks⟩
  · rfl
  · -- It would take one look more than it takes.
    simp [hfollow] at hstep

theorem follow_of_plain {i : Slot} {r : Record} (h : p.record i = .ok r)
    (hr : r.tag ≠ .methodHandle) : p.follow i = some (p.spellOut p.plainConstant r, 0) := by
  rw [follow, h]
  cases r with
  | methodHandle kind target => exact absurd rfl hr
  | _ => rfl

/-- Where no handle refers to a handle, following references ends, and gives the constant that
looking once further gives. -/
theorem HandlesValid.follow_eq (h : p.HandlesValid) (i : Slot) :
    ∃ looks, looks ≤ 1 ∧ p.follow i = some (p.constant i, looks) := by
  unfold constant
  rcases hr : p.record i with e | r
  · exact ⟨0, by omega, follow_of_error hr⟩
  · by_cases hhandle : r.tag = .methodHandle
    · obtain ⟨kind, target, rfl⟩ := Record.eq_methodHandle_of_tag hhandle
      -- The target holds a member, which refers to no further handle.
      have hvalid := h i.toNat kind target (record_eq_ok_iff.mp hr)
      obtain ⟨-, memberKind, owner, nat, -, -, -, hmember, -⟩ := id hvalid
      have htarget := record_eq_ok_iff.mpr hmember
      have hplain := follow_of_plain htarget (hvalid.target_ne_handle hmember)
      refine ⟨1, by omega, ?_⟩
      have hlook : p.plainConstant target
          = p.spellOut p.plainConstant (.member memberKind owner nat) := by
        unfold plainConstant
        rw [htarget]
        rfl
      rw [follow_of_handle hr, hplain, ← hlook]
      rfl
    · exact ⟨0, by omega, follow_of_plain hr hhandle⟩

/-- In every pool that a run of calls reaches, whatever slots the calls were given: every method
handle is valid, none refers to a method handle, and reading the constant at a slot by following
references ends after at most one further look. -/
theorem handles_of_reachable (version : Version) (calls : List Call) :
    ((empty version).afterCalls calls).HandlesValid ∧
      (∀ i kind target r,
        ((empty version).afterCalls calls).Holds i (.methodHandle kind target) →
        ((empty version).afterCalls calls).Holds target.toNat r → r.tag ≠ .methodHandle) ∧
      ∀ i, ∃ looks, looks ≤ 1 ∧ ((empty version).afterCalls calls).follow i =
        some (((empty version).afterCalls calls).constant i, looks) := by
  have hvalid := (handlesValid_empty version).afterCalls calls
  refine ⟨hvalid, fun i kind target r hi hr => ?_, hvalid.follow_eq⟩
  exact (hvalid i kind target hi).target_ne_handle hr

/-- A handle to a field that is put together from slots of which only some make sense in this pool,
and two handles that are refused: a call of that field, and a handle to the first handle. -/
def foreignCalls : List Call :=
  [.intern .fresh (.utf8 "f"), .nameAndTypeAt .fresh ⟨1⟩ ⟨7⟩, .memberAt .fresh .field ⟨9⟩ ⟨2⟩,
    .handleAt .fresh .getField 3, .handleAt .fresh .invokeStatic 3, .handleAt .fresh .getField 4]

/-- Of the three handles only the first one is in the pool, and it is read with one further look. -/
theorem handles_of_foreignCalls :
    ((empty .java8).afterCalls foreignCalls).slots =
        #[none, some (.utf8 "f"), some (.nameAndType ⟨1⟩ ⟨7⟩), some (.member .field ⟨9⟩ ⟨2⟩),
          some (.methodHandle .getField 3)] ∧
      ((empty .java8).afterCalls foreignCalls).ValidHandle .getField 3 ∧
      ∃ looks, looks ≤ 1 ∧ ((empty .java8).afterCalls foreignCalls).follow 4 =
        some (((empty .java8).afterCalls foreignCalls).constant 4, looks) := by
  obtain ⟨hvalid, -, hfollow⟩ := handles_of_reachable .java8 foreignCalls
  have hslots : ((empty .java8).afterCalls foreignCalls).slots =
      #[none, some (.utf8 "f"), some (.nameAndType ⟨1⟩ ⟨7⟩), some (.member .field ⟨9⟩ ⟨2⟩),
        some (.methodHandle .getField 3)] := by decide
  have hhandle : ((empty .java8).afterCalls foreignCalls).Holds 4 (.methodHandle .getField 3) := by
    rw [Holds, hslots]
    rfl
  exact ⟨hslots, hvalid 4 .getField 3 hhandle, hfollow 4⟩

end Pool

end JvmClass
