import JvmClass.Proofs.Pool.Meaning

/-!
# Sound constant pools

A record refers to others by slot, and nothing in a pool says that the slot holds what the record
needs.  A pool is `Sound` when it does: every reference of a record leads to an earlier slot, with a
record of a kind that fits.

Pools are sound because constants are only ever added after what they refer to.  `LeavesSound` says
so of an action, which may fail after a part of its constants has been added.

## Key results

- `Sound.append`: a record may be appended when what it refers to is there
- `LeavesSound.bind`: a sequence of actions, wherever it stops
- `supports_handleRecord`: a method handle refers to a member
- `leavesSound_intern`, `leavesSound_copy`: constants that make their own references
-/

namespace JvmClass

/-! ## References of records -/

/-- What kind of record a method handle refers to. -/
def Tag.members : List Tag := [.fieldRef, .methodRef, .interfaceMethodRef]

/-- The slots that a record refers to, with the kinds that are allowed there. -/
def Record.references : Record → List (Slot × List Tag)
  | utf8 _ | integer _ | float _ | long _ | double _ => []
  | named _ name => [(name.slot, [.utf8])]
  | member _ owner nat => [(owner.slot, [.class]), (nat.slot, [.nameAndType])]
  | nameAndType name descriptor => [(name.slot, [.utf8]), (descriptor.slot, [.utf8])]
  | methodHandle _ target => [(target, Tag.members)]
  | dynamic _ _ nat => [(nat.slot, [.nameAndType])]

namespace Record

variable {r : Record}

theorem eq_class_of_tag (h : r.tag = .class) : ∃ name, r = .named .class name := by
  cases r with
  | named kind name =>
    cases kind with
    | «class» => exact ⟨name, rfl⟩
    | _ => cases h
  | member kind => cases kind <;> cases h
  | dynamic kind => cases kind <;> cases h
  | _ => cases h

theorem eq_nameAndType_of_tag (h : r.tag = .nameAndType) :
    ∃ name descriptor, r = .nameAndType name descriptor := by
  cases r with
  | nameAndType name descriptor => exact ⟨name, descriptor, rfl⟩
  | named kind => cases kind <;> cases h
  | member kind => cases kind <;> cases h
  | dynamic kind => cases kind <;> cases h
  | _ => cases h

theorem eq_member_of_tag (h : r.tag ∈ Tag.members) :
    ∃ kind owner nat, r = .member kind owner nat := by
  cases r with
  | member kind owner nat => exact ⟨kind, owner, nat, rfl⟩
  | named kind => cases kind <;> simp [tag, Tag.members] at h
  | dynamic kind => cases kind <;> simp [tag, Tag.members] at h
  | _ => simp [tag, Tag.members] at h

end Record

theorem HandleKind.mem_members_of_acceptsTag {kind : HandleKind} {version : Version} {tag : Tag}
    (h : kind.acceptsTag version tag = true) : tag ∈ Tag.members := by
  cases kind <;> simp [acceptsTag, Tag.members] at h ⊢ <;> grind

namespace Pool

open JvmClass.Action (except_bind_eq_ok except_throw_ne_ok except_pure_eq_ok)

variable {p q : Pool}

/-- The slot holds a record of one of the given kinds. -/
def HoldsOneOf (p : Pool) (i : Slot) (kinds : List Tag) : Prop :=
  ∃ r, p.Holds i.toNat r ∧ r.tag ∈ kinds

theorem HoldsOneOf.lt_size {i : Slot} {kinds : List Tag} (h : p.HoldsOneOf i kinds) :
    i.toNat < p.slots.size := by
  obtain ⟨r, hr, -⟩ := h
  exact hr.lt_size

theorem HoldsOneOf.grows {i : Slot} {kinds : List Tag} (h : p.HoldsOneOf i kinds)
    (hq : p.Grows q) : q.HoldsOneOf i kinds := by
  obtain ⟨r, hr, hkind⟩ := h
  exact ⟨r, hq.holds hr, hkind⟩

theorem holdsOneOf_of_record {i : Slot} {r : Record} (h : p.record i = .ok r) :
    p.HoldsOneOf i [r.tag] :=
  ⟨r, record_eq_ok_iff.mp h, List.mem_singleton_self _⟩

theorem exists_record {i : Slot} {kind : Tag} (h : p.HoldsOneOf i [kind]) :
    ∃ r, p.record i = .ok r ∧ r.tag = kind := by
  obtain ⟨r, hr, hkind⟩ := h
  exact ⟨r, record_eq_ok_iff.mpr hr, List.mem_singleton.mp hkind⟩

theorem holdsOneOf_of_text {i : Ref .utf8} {s : String} (h : p.text i = .ok s) :
    p.HoldsOneOf i.slot [.utf8] :=
  holdsOneOf_of_record (text_eq_ok_iff.mp h)

theorem holdsOneOf_of_className {i : Ref .class} {s : String} (h : p.className i = .ok s) :
    p.HoldsOneOf i.slot [.class] := by
  obtain ⟨name, hr, -⟩ := className_eq_ok_iff.mp h
  exact holdsOneOf_of_record hr

theorem holdsOneOf_of_nameAndType {i : Ref .nameAndType} {s t : String}
    (h : p.nameAndType i = .ok (s, t)) : p.HoldsOneOf i.slot [.nameAndType] := by
  obtain ⟨name, descriptor, hr, -⟩ := nameAndType_eq_ok_iff.mp h
  exact holdsOneOf_of_record hr

/-- What is spelled out at a slot has the kind of the record there. -/
theorem holdsOneOf_of_constant {i : Slot} {c : Constant} (h : p.constant i = .ok c) :
    p.HoldsOneOf i [c.tag] := by
  obtain ⟨r, hr, -⟩ := except_bind_eq_ok.mp h
  rw [tag_of_constant hr h]
  exact holdsOneOf_of_record hr

/-! ## Sound pools -/

/-- Whatever the record refers to is there, in records of kinds that fit. -/
def Supports (p : Pool) (r : Record) : Prop := ∀ x ∈ r.references, p.HoldsOneOf x.1 x.2

/-- Every record refers to earlier slots only, which hold records of kinds that fit. -/
def Sound (p : Pool) : Prop :=
  ∀ i r, p.Holds i r → ∀ x ∈ r.references, x.1.toNat < i ∧ p.HoldsOneOf x.1 x.2

theorem sound_empty (version : Version) : (empty version).Sound :=
  fun i r hr => absurd hr (not_holds_empty version i r)

theorem Sound.supports (h : p.Sound) {i : Nat} {r : Record} (hr : p.Holds i r) : p.Supports r :=
  fun x hx => (h i r hr x hx).2

theorem holdsOneOf_append {i : Slot} {kinds : List Tag} (h : p.HoldsOneOf i kinds) (r : Record) :
    (p.append r).HoldsOneOf i kinds := by
  obtain ⟨s, hs, hkind⟩ := h
  exact ⟨s, holds_append_iff.mpr (.inl hs), hkind⟩

/-- A record whose references are good comes after all of them. -/
theorem Sound.append (h : p.Sound) {r : Record} (hr : p.Supports r) : (p.append r).Sound := by
  intro i s hs x hx
  rcases holds_append_iff.mp hs with hold | ⟨rfl, rfl⟩
  · obtain ⟨hlt, hkind⟩ := h i s hold x hx
    exact ⟨hlt, holdsOneOf_append hkind r⟩
  · have hkind := hr x hx
    exact ⟨hkind.lt_size, holdsOneOf_append hkind s⟩

/-! ## Actions -/

variable {α β : Type}

/-- The action ends in a sound pool, whether it fails or not. -/
def LeavesSound (p : Pool) (act : Action Error Pool α) : Prop := (act.exec p).2.Sound

/-- A sequence may fail in its first part, or go on from what that part yields. -/
theorem LeavesSound.bind {act : Action Error Pool α} {k : α → Action Error Pool β}
    {mid : α → Pool → Prop} (h : LeavesSound p act) (hy : Yields p act mid)
    (hk : ∀ a q, p.Grows q → q.Sound → mid a q → LeavesSound q (k a)) :
    LeavesSound p (act >>= k) := by
  unfold LeavesSound at h ⊢
  rw [Action.exec_bind]
  rcases hact : act.exec p with ⟨e | a, q⟩
  · rwa [hact] at h
  · rw [hact] at h
    obtain ⟨hgrows, hmid⟩ := hy a q hact
    exact hk a q hgrows h hmid

theorem LeavesSound.map {act : Action Error Pool α} (h : LeavesSound p act) (f : α → β) :
    LeavesSound p (f <$> act) := by
  unfold LeavesSound
  rw [Action.exec_map]
  exact h

theorem leavesSound_inspect (h : p.Sound) (f : Pool → Except Error α) :
    LeavesSound p (Action.inspect f) :=
  h

theorem leavesSound_require (h : p.Sound) (kind : Tag) : LeavesSound p (require kind) :=
  leavesSound_inspect h _

theorem leavesSound_insert (h : p.Sound) (how : Placement) {r : Record} (hr : p.Supports r) :
    LeavesSound p (insert how r) := by
  unfold LeavesSound
  rcases exec_insert_cases p how r with heq | ⟨-, -, heq⟩
  · rwa [heq]
  · rw [heq]
    exact h.append hr

theorem leavesSound_insert_ref {kind : Tag} (h : p.Sound) (how : Placement) {r : Record}
    (hr : p.Supports r) :
    LeavesSound p (do return ⟨← insert how r⟩ : Action Error Pool (Ref kind)) := by
  rw [bind_pure_comp]
  exact (leavesSound_insert h how hr).map _

theorem supports_of_nil {r : Record} (h : r.references = []) : p.Supports r := by
  intro x hx
  rw [h] at hx
  cases hx

theorem supports_of_one {r : Record} {x : Slot × List Tag} (h : r.references = [x])
    (hx : p.HoldsOneOf x.1 x.2) : p.Supports r := by
  intro y hy
  rw [h] at hy
  rwa [List.mem_singleton.mp hy]

theorem supports_of_two {r : Record} {x y : Slot × List Tag} (h : r.references = [x, y])
    (hx : p.HoldsOneOf x.1 x.2) (hy : p.HoldsOneOf y.1 y.2) : p.Supports r := by
  intro z hz
  rw [h] at hz
  rcases List.mem_cons.mp hz with rfl | hz
  · exact hx
  · rwa [List.mem_singleton.mp hz]

/-- The kind under which the target of a handle is checked is that of its record. -/
theorem holdsOneOf_of_memberName {target : Slot} {tag : Tag} {name : String}
    (h : p.memberName target = .ok (tag, name)) : p.HoldsOneOf target [tag] := by
  obtain ⟨r, hr, h⟩ := except_bind_eq_ok.mp h
  split at h
  · obtain ⟨s, -, h⟩ := except_bind_eq_ok.mp h
    split at h
    · obtain ⟨text, -, h⟩ := except_bind_eq_ok.mp h
      cases except_pure_eq_ok.mp h
      exact holdsOneOf_of_record hr
    · exact absurd h (except_throw_ne_ok _ _)
  · cases except_pure_eq_ok.mp h
    exact holdsOneOf_of_record hr

/-- Handles are only made for members, whatever slot the caller passes. -/
theorem supports_handleRecord {kind : HandleKind} {target : Slot} {r : Record}
    (h : p.handleRecord kind target = .ok r) : p.Supports r := by
  have hr := handleRecord_eq_ok h
  obtain ⟨⟨tag, name⟩, hfound, h⟩ := except_bind_eq_ok.mp h
  simp only [] at h
  split at h
  · rename_i haccepts
    obtain ⟨htag, -⟩ := Bool.and_eq_true_iff.mp haccepts
    obtain ⟨s, hs, hkind⟩ := holdsOneOf_of_memberName hfound
    have hmember := HandleKind.mem_members_of_acceptsTag htag
    rw [← List.mem_singleton.mp hkind] at hmember
    rw [hr]
    exact supports_of_one rfl ⟨s, hs, hmember⟩
  · exact absurd h (except_throw_ne_ok _ _)

/-! ## Constants -/

theorem leavesSound_internUtf8 (h : p.Sound) (how : Placement) (s : String) :
    LeavesSound p (internUtf8 how s) :=
  leavesSound_insert_ref h how (supports_of_nil rfl)

theorem leavesSound_internNamed (h : p.Sound) (hinv : p.Inv) (how : Placement) (kind : NamedKind)
    (s : String) : LeavesSound p (internNamed how kind s) := by
  refine (leavesSound_require h _).bind (yields_require _) fun _ p₁ _ _ hp₁ => ?_
  subst hp₁
  refine (leavesSound_internUtf8 h _ s).bind (yields_utf8 hinv s) fun name p₂ _ h₂ hname => ?_
  exact leavesSound_insert_ref h₂ how (supports_of_one rfl (holdsOneOf_of_text hname))

theorem leavesSound_nameAndTypeAt (h : p.Sound) (how : Placement) {name descriptor : Ref .utf8}
    (hname : p.HoldsOneOf name.slot [.utf8]) (hdescriptor : p.HoldsOneOf descriptor.slot [.utf8]) :
    LeavesSound p (nameAndTypeAt how name descriptor) :=
  leavesSound_insert_ref h how (supports_of_two rfl hname hdescriptor)

theorem leavesSound_internNameAndType (h : p.Sound) (hinv : p.Inv) (how : Placement)
    (s t : String) : LeavesSound p (internNameAndType how s t) := by
  refine (leavesSound_internUtf8 h _ s).bind (yields_utf8 hinv s) fun name p₁ hp₁ h₁ hname => ?_
  have hinv₁ := hp₁.inv hinv
  refine (leavesSound_internUtf8 h₁ _ t).bind (yields_utf8 hinv₁ t)
    fun descriptor p₂ hp₂ h₂ hdescriptor => ?_
  have hname := holdsOneOf_of_text (hp₂.text_eq hname)
  exact leavesSound_nameAndTypeAt h₂ how hname (holdsOneOf_of_text hdescriptor)

theorem leavesSound_memberAt (h : p.Sound) (how : Placement) (kind : MemberKind)
    {owner : Ref .class} {i : Ref .nameAndType} (howner : p.HoldsOneOf owner.slot [.class])
    (hi : p.HoldsOneOf i.slot [.nameAndType]) : LeavesSound p (memberAt how kind owner i) :=
  leavesSound_insert_ref h how (supports_of_two rfl howner hi)

theorem leavesSound_internMember (h : p.Sound) (hinv : p.Inv) (how : Placement)
    (kind : MemberKind) (m : Member) : LeavesSound p (internMember how kind m) := by
  refine (leavesSound_internNamed h hinv _ _ _).bind (yields_classNamed hinv m.owner)
    fun owner p₁ hp₁ h₁ howner => ?_
  have hinv₁ := hp₁.inv hinv
  refine (leavesSound_internNameAndType h₁ hinv₁ _ _ _).bind
    (yields_internNameAndType hinv₁ .shared m.name m.descriptor) fun i p₂ hp₂ h₂ hi => ?_
  have howner := holdsOneOf_of_className (hp₂.className_eq howner)
  exact leavesSound_memberAt h₂ how kind howner (holdsOneOf_of_nameAndType hi)

/-- The target of a handle need not have been given out by the pool: it is checked. -/
theorem leavesSound_handleAt (h : p.Sound) (how : Placement) (kind : HandleKind) (target : Slot) :
    LeavesSound p (handleAt how kind target) := by
  refine (leavesSound_require h _).bind (yields_require _) fun _ p₁ _ _ hp₁ => ?_
  subst hp₁
  refine (leavesSound_inspect h _).bind (yields_inspect _) fun r p₂ _ h₂ hr => ?_
  obtain ⟨rfl, hr⟩ := hr
  exact leavesSound_insert_ref h₂ how (supports_handleRecord hr)

theorem leavesSound_internHandle (h : p.Sound) (hinv : p.Inv) (how : Placement)
    (kind : HandleKind) (memberKind : MemberKind) (m : Member) :
    LeavesSound p (internHandle how kind memberKind m) := by
  refine (leavesSound_require h _).bind (yields_require _) fun _ p₁ _ _ hp₁ => ?_
  subst hp₁
  refine (leavesSound_internMember h hinv _ _ _).bind
    (yields_internMember hinv .shared memberKind m) fun target p₂ _ h₂ _ => ?_
  exact leavesSound_handleAt h₂ how kind target.slot

theorem leavesSound_internDynamic (h : p.Sound) (hinv : p.Inv) (how : Placement)
    (kind : DynamicKind) (bootstrap : UInt16) (s t : String) :
    LeavesSound p (internDynamic how kind bootstrap s t) := by
  refine (leavesSound_require h _).bind (yields_require _) fun _ p₁ _ _ hp₁ => ?_
  subst hp₁
  refine (leavesSound_internNameAndType h hinv _ _ _).bind
    (yields_internNameAndType hinv .shared s t) fun i p₂ _ h₂ hi => ?_
  exact leavesSound_insert_ref h₂ how (supports_of_one rfl (holdsOneOf_of_nameAndType hi))

/-- A constant that is given by its strings makes its own references. -/
theorem leavesSound_intern (h : p.Sound) (hinv : p.Inv) (how : Placement) (c : Constant) :
    LeavesSound p (intern how c) := by
  cases c with
  | utf8 s => exact (leavesSound_internUtf8 h how s).map _
  | integer value => exact leavesSound_insert h how (supports_of_nil rfl)
  | float bits => exact leavesSound_insert h how (supports_of_nil rfl)
  | long value => exact leavesSound_insert h how (supports_of_nil rfl)
  | double bits => exact leavesSound_insert h how (supports_of_nil rfl)
  | named kind s => exact (leavesSound_internNamed h hinv how kind s).map _
  | member kind m => exact (leavesSound_internMember h hinv how kind m).map _
  | nameAndType s t => exact (leavesSound_internNameAndType h hinv how s t).map _
  | methodHandle kind memberKind m =>
    exact (leavesSound_internHandle h hinv how kind memberKind m).map _
  | dynamic kind bootstrap s t =>
    exact (leavesSound_internDynamic h hinv how kind bootstrap s t).map _

theorem leavesSound_copy (h : p.Sound) (hinv : p.Inv) (view : View) (i : Slot) :
    LeavesSound p (copy view i) := by
  unfold copy
  split
  · exact h
  · refine (leavesSound_inspect h _).bind (yields_inspect _) fun c p₁ _ h₁ hc => ?_
    obtain ⟨rfl, -⟩ := hc
    exact leavesSound_intern h₁ hinv .shared c

theorem leavesSound_copyAs (h : p.Sound) (hinv : p.Inv) (kind : Tag) (view : View) (i : Slot) :
    LeavesSound p (copyAs kind view i) := by
  refine (leavesSound_copy h hinv view i).bind (yields_copy hinv view i) fun j q _ hq _ => ?_
  split
  · exact hq
  · exact leavesSound_inspect hq _

end Pool

end JvmClass
