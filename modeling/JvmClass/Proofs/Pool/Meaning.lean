import JvmClass.Proofs.Pool.Growth

/-!
# What slots mean

The meaning of a slot is the constant that is read from it with all references followed.  Since no
record ever changes, a slot that means a constant means it in every pool that grows from there, and
so the slots that an operation was given or has just made can be relied on until the end.

`Yields p act post` says what an action leaves behind when it succeeds on `p`; with it the meaning
of an interned constant is put together from the insertions that make it up.

## Key results

- `Grows.record_eq`, `Grows.constant_eq`: what is read once is read again later
- `Yields.bind`: results of a sequence from the results of its parts
- `yields_intern`: an interned constant is the meaning of its slot
- `yields_copy`, `yields_copyAs`: a copied constant means the same as in the pool it comes from
- `SameConstant.copy_eq`: what means the same is copied the same way
-/

namespace JvmClass.Pool

open JvmClass.Action (except_bind_eq_ok except_throw_ne_ok except_pure_eq_ok)

/-! ## Meanings stay -/

theorem Grows.record_eq {p q : Pool} (h : p.Grows q) {i : Slot} {r : Record}
    (hr : p.record i = .ok r) : q.record i = .ok r :=
  record_eq_ok_iff.mpr (h.holds (record_eq_ok_iff.mp hr))

theorem text_eq_ok_iff {p : Pool} {i : Ref .utf8} {s : String} :
    p.text i = .ok s ↔ p.record i.slot = .ok (.utf8 s) := by
  unfold text
  split
  · rename_i e h
    simp [h]
  · rename_i s' h
    simp [h]
  · rename_i r hne h
    rw [h]
    simp only [reduceCtorEq, Except.ok.injEq, false_iff]
    rintro rfl
    exact hne _ rfl

theorem Grows.text_eq {p q : Pool} (h : p.Grows q) {i : Ref .utf8} {s : String}
    (hs : p.text i = .ok s) : q.text i = .ok s :=
  text_eq_ok_iff.mpr (h.record_eq (text_eq_ok_iff.mp hs))

theorem className_eq_ok_iff {p : Pool} {i : Ref .class} {s : String} :
    p.className i = .ok s ↔
      ∃ name, p.record i.slot = .ok (.named .class name) ∧ p.text name = .ok s := by
  unfold className
  rw [except_bind_eq_ok]
  constructor
  · rintro ⟨r, hr, hs⟩
    split at hs
    · rename_i name
      exact ⟨name, hr, hs⟩
    · exact absurd hs (except_throw_ne_ok _ _)
  · rintro ⟨name, hr, hs⟩
    exact ⟨_, hr, hs⟩

theorem nameAndType_eq_ok_iff {p : Pool} {i : Ref .nameAndType} {s t : String} :
    p.nameAndType i = .ok (s, t) ↔
      ∃ name descriptor, p.record i.slot = .ok (.nameAndType name descriptor) ∧
        p.text name = .ok s ∧ p.text descriptor = .ok t := by
  unfold nameAndType
  rw [except_bind_eq_ok]
  constructor
  · rintro ⟨r, hr, hs⟩
    split at hs
    · rename_i name descriptor
      obtain ⟨s', hs', hs⟩ := except_bind_eq_ok.mp hs
      obtain ⟨t', ht', hs⟩ := except_bind_eq_ok.mp hs
      cases except_pure_eq_ok.mp hs
      exact ⟨name, descriptor, hr, hs', ht'⟩
    · exact absurd hs (except_throw_ne_ok _ _)
  · rintro ⟨name, descriptor, hr, hs, ht⟩
    refine ⟨_, hr, ?_⟩
    simp only [hs, ht]
    rfl

theorem member_eq_ok_iff {p : Pool} {owner : Ref .class} {i : Ref .nameAndType} {m : Member} :
    p.member owner i = .ok m ↔
      p.className owner = .ok m.owner ∧ p.nameAndType i = .ok (m.name, m.descriptor) := by
  unfold member
  constructor
  · intro h
    obtain ⟨⟨s, t⟩, hnat, h⟩ := except_bind_eq_ok.mp h
    obtain ⟨c, hc, h⟩ := except_bind_eq_ok.mp h
    cases except_pure_eq_ok.mp h
    exact ⟨hc, hnat⟩
  · rintro ⟨hc, hnat⟩
    rw [hnat, hc]
    rfl

theorem Grows.className_eq {p q : Pool} (h : p.Grows q) {i : Ref .class} {s : String}
    (hs : p.className i = .ok s) : q.className i = .ok s := by
  obtain ⟨name, hr, hs⟩ := className_eq_ok_iff.mp hs
  exact className_eq_ok_iff.mpr ⟨name, h.record_eq hr, h.text_eq hs⟩

theorem Grows.nameAndType_eq {p q : Pool} (h : p.Grows q) {i : Ref .nameAndType}
    {names : String × String} (hi : p.nameAndType i = .ok names) : q.nameAndType i = .ok names := by
  obtain ⟨name, descriptor, hr, hs, ht⟩ := nameAndType_eq_ok_iff.mp hi
  exact nameAndType_eq_ok_iff.mpr ⟨name, descriptor, h.record_eq hr, h.text_eq hs, h.text_eq ht⟩

theorem Grows.member_eq {p q : Pool} (h : p.Grows q) {owner : Ref .class} {i : Ref .nameAndType}
    {m : Member} (hm : p.member owner i = .ok m) : q.member owner i = .ok m := by
  obtain ⟨hc, hnat⟩ := member_eq_ok_iff.mp hm
  exact member_eq_ok_iff.mpr ⟨h.className_eq hc, h.nameAndType_eq hnat⟩

/-- What a record spells out stays if what handles refer to does. -/
theorem Grows.spellOut_eq {p q : Pool} (h : p.Grows q) {handled handled' : View}
    (hhandled : ∀ i c, handled i = .ok c → handled' i = .ok c) {r : Record} {c : Constant}
    (hc : p.spellOut handled r = .ok c) : q.spellOut handled' r = .ok c := by
  cases r with
  | utf8 _ => exact hc
  | integer _ => exact hc
  | float _ => exact hc
  | long _ => exact hc
  | double _ => exact hc
  | named kind name =>
    obtain ⟨s, hs, hc⟩ := except_bind_eq_ok.mp hc
    exact except_bind_eq_ok.mpr ⟨s, h.text_eq hs, hc⟩
  | member kind owner nat =>
    obtain ⟨m, hm, hc⟩ := except_bind_eq_ok.mp hc
    exact except_bind_eq_ok.mpr ⟨m, h.member_eq hm, hc⟩
  | nameAndType name descriptor =>
    obtain ⟨s, hs, hc⟩ := except_bind_eq_ok.mp hc
    obtain ⟨t, ht, hc⟩ := except_bind_eq_ok.mp hc
    exact except_bind_eq_ok.mpr ⟨s, h.text_eq hs, except_bind_eq_ok.mpr ⟨t, h.text_eq ht, hc⟩⟩
  | methodHandle kind target =>
    obtain ⟨d, hd, hc⟩ := except_bind_eq_ok.mp hc
    exact except_bind_eq_ok.mpr ⟨d, hhandled _ _ hd, hc⟩
  | dynamic kind bootstrap nat =>
    obtain ⟨names, hnames, hc⟩ := except_bind_eq_ok.mp hc
    exact except_bind_eq_ok.mpr ⟨names, h.nameAndType_eq hnames, hc⟩

theorem Grows.plainConstant_eq {p q : Pool} (h : p.Grows q) {i : Slot} {c : Constant}
    (hc : p.plainConstant i = .ok c) : q.plainConstant i = .ok c := by
  obtain ⟨r, hr, hc⟩ := except_bind_eq_ok.mp hc
  exact except_bind_eq_ok.mpr ⟨r, h.record_eq hr, h.spellOut_eq (fun _ _ hd => hd) hc⟩

/-- A slot keeps its meaning. -/
theorem Grows.constant_eq {p q : Pool} (h : p.Grows q) {i : Slot} {c : Constant}
    (hc : p.constant i = .ok c) : q.constant i = .ok c := by
  obtain ⟨r, hr, hc⟩ := except_bind_eq_ok.mp hc
  exact except_bind_eq_ok.mpr
    ⟨r, h.record_eq hr, h.spellOut_eq (fun _ _ hd => h.plainConstant_eq hd) hc⟩

/-! ## What successful actions leave behind -/

variable {α β : Type} {p : Pool}

/-- When the action succeeds on the pool, the pool has grown, and the result is as described. -/
def Yields (p : Pool) (act : Action Error Pool α) (post : α → Pool → Prop) : Prop :=
  ∀ a q, act.exec p = (.ok a, q) → p.Grows q ∧ post a q

theorem Yields.imp {act : Action Error Pool α} {post post' : α → Pool → Prop}
    (h : Yields p act post) (himp : ∀ a q, p.Grows q → post a q → post' a q) :
    Yields p act post' := by
  intro a q hact
  obtain ⟨hgrows, hpost⟩ := h a q hact
  exact ⟨hgrows, himp a q hgrows hpost⟩

theorem Yields.bind {act : Action Error Pool α} {k : α → Action Error Pool β}
    {mid : α → Pool → Prop} {post : β → Pool → Prop} (h : Yields p act mid)
    (hk : ∀ a q, p.Grows q → mid a q → Yields q (k a) post) : Yields p (act >>= k) post := by
  intro b q hact
  obtain ⟨a, p', ha, hb⟩ := Action.exec_bind_eq_ok.mp hact
  obtain ⟨hgrows, hmid⟩ := h a p' ha
  obtain ⟨hgrows', hpost⟩ := hk a p' hgrows hmid b q hb
  exact ⟨trans_of Grows hgrows hgrows', hpost⟩

theorem Yields.map {act : Action Error Pool α} {f : α → β} {post : β → Pool → Prop}
    (h : Yields p act fun a => post (f a)) : Yields p (f <$> act) post := by
  intro b q hact
  obtain ⟨a, ha, rfl⟩ := Action.exec_map_eq_ok.mp hact
  exact h a q ha

theorem yields_pure {a : α} {post : α → Pool → Prop} (h : post a p) :
    Yields p (pure a : Action Error Pool α) post := by
  intro b q hact
  cases hact
  exact ⟨.refl, h⟩

/-- Looking at the pool. -/
theorem yields_inspect (f : Pool → Except Error α) :
    Yields p (Action.inspect f) fun a q => q = p ∧ f p = .ok a := by
  intro a q hact
  obtain ⟨ha, rfl⟩ := Prod.mk.inj hact
  exact ⟨.refl, rfl, ha⟩

/-! ## Interned constants -/

theorem yields_insert (h : p.Inv) (how : Placement) (r : Record) :
    Yields p (insert how r) fun i q => q.record i = .ok r := by
  intro i q hins
  have hgrows : p.Grows q := Relation.ReflTransGen.single ⟨how, r, by rw [hins]⟩
  exact ⟨hgrows, record_eq_ok_iff.mpr (h.holds_of_insert hins)⟩

/-- The usual end of an operation. -/
theorem yields_insert_ref {kind : Tag} (h : p.Inv) (how : Placement) (r : Record) :
    Yields p (do return ⟨← insert how r⟩ : Action Error Pool (Ref kind))
      fun i q => q.record i.slot = .ok r := by
  rw [bind_pure_comp]
  exact (yields_insert h how r).map

theorem yields_internUtf8 (h : p.Inv) (how : Placement) (s : String) :
    Yields p (internUtf8 how s) fun i q => q.text i = .ok s :=
  (yields_insert_ref h how _).imp fun _ _ _ hr => text_eq_ok_iff.mpr hr

theorem yields_utf8 (h : p.Inv) (s : String) : Yields p (utf8 s) fun i q => q.text i = .ok s :=
  yields_internUtf8 h _ _

theorem yields_require (kind : Tag) : Yields p (require kind) fun _ q => q = p :=
  (yields_inspect _).imp fun _ _ _ hq => hq.1

theorem yields_internNamed (h : p.Inv) (how : Placement) (kind : NamedKind) (s : String) :
    Yields p (internNamed how kind s) fun i q =>
      ∃ name, q.record i.slot = .ok (.named kind name) ∧ q.text name = .ok s := by
  refine (yields_require _).bind fun _ p₁ _ hp₁ => ?_
  subst hp₁
  refine (yields_utf8 h s).bind fun name p₂ hp₂ hname => ?_
  refine (yields_insert_ref (hp₂.inv h) how _).imp fun i q hq hr => ?_
  exact ⟨name, hr, hq.text_eq hname⟩

theorem yields_classNamed (h : p.Inv) (s : String) :
    Yields p (classNamed s) fun i q => q.className i = .ok s :=
  (yields_internNamed h _ _ _).imp fun _ _ _ hr => className_eq_ok_iff.mpr hr

theorem yields_internNameAndType (h : p.Inv) (how : Placement) (s t : String) :
    Yields p (internNameAndType how s t) fun i q => q.nameAndType i = .ok (s, t) := by
  refine (yields_utf8 h s).bind fun name p₁ hp₁ hname => ?_
  refine (yields_utf8 (hp₁.inv h) t).bind fun descriptor p₂ hp₂ hdescriptor => ?_
  refine (yields_insert_ref (hp₂.inv (hp₁.inv h)) how _).imp fun i q hq hr => ?_
  have hname := hq.text_eq (hp₂.text_eq hname)
  exact nameAndType_eq_ok_iff.mpr ⟨name, descriptor, hr, hname, hq.text_eq hdescriptor⟩

theorem yields_internMember (h : p.Inv) (how : Placement) (kind : MemberKind) (m : Member) :
    Yields p (internMember how kind m) fun i q =>
      ∃ owner nat, q.record i.slot = .ok (.member kind owner nat) ∧ q.member owner nat = .ok m := by
  refine (yields_classNamed h m.owner).bind fun owner p₁ hp₁ howner => ?_
  refine (yields_internNameAndType (hp₁.inv h) .shared _ _).bind fun nat p₂ hp₂ hnat => ?_
  refine (yields_insert_ref (hp₂.inv (hp₁.inv h)) how _).imp fun i q hq hr => ?_
  have howner := hq.className_eq (hp₂.className_eq howner)
  exact ⟨owner, nat, hr, member_eq_ok_iff.mpr ⟨howner, hq.nameAndType_eq hnat⟩⟩

/-- A method handle refers to the slot that it was made for. -/
theorem handleRecord_eq_ok {kind : HandleKind} {target : Slot} {r : Record}
    (h : p.handleRecord kind target = .ok r) : r = .methodHandle kind target := by
  obtain ⟨⟨tag, name⟩, -, h⟩ := except_bind_eq_ok.mp h
  simp only [] at h
  split at h
  · exact (except_pure_eq_ok.mp h).symm
  · exact absurd h (except_throw_ne_ok _ _)

theorem yields_handleAt (h : p.Inv) (how : Placement) (kind : HandleKind) (target : Slot) :
    Yields p (handleAt how kind target) fun i q =>
      q.record i.slot = .ok (.methodHandle kind target) := by
  refine (yields_require _).bind fun _ p₁ _ hp₁ => ?_
  subst hp₁
  refine (yields_inspect _).bind fun r p₂ _ hp₂ => ?_
  obtain ⟨rfl, hr⟩ := hp₂
  rw [handleRecord_eq_ok hr]
  exact yields_insert_ref h how _

theorem yields_internHandle (h : p.Inv) (how : Placement) (kind : HandleKind)
    (memberKind : MemberKind) (m : Member) :
    Yields p (internHandle how kind memberKind m) fun i q =>
      q.constant i.slot = .ok (.methodHandle kind memberKind m) := by
  refine (yields_require _).bind fun _ p₁ _ hp₁ => ?_
  subst hp₁
  refine (yields_internMember h .shared memberKind m).bind fun target p₂ hp₂ htarget => ?_
  obtain ⟨owner, nat, hr, hm⟩ := htarget
  refine (yields_handleAt (hp₂.inv h) how kind _).imp fun i q hq hi => ?_
  -- The target of a handle is spelled out without looking into further handles.
  have hplain : q.plainConstant target.slot = .ok (.member memberKind m) := by
    refine except_bind_eq_ok.mpr ⟨_, hq.record_eq hr, ?_⟩
    exact except_bind_eq_ok.mpr ⟨m, hq.member_eq hm, rfl⟩
  refine except_bind_eq_ok.mpr ⟨_, hi, ?_⟩
  exact except_bind_eq_ok.mpr ⟨_, hplain, rfl⟩

theorem yields_internDynamic (h : p.Inv) (how : Placement) (kind : DynamicKind)
    (bootstrap : UInt16) (s t : String) :
    Yields p (internDynamic how kind bootstrap s t) fun i q =>
      q.constant i.slot = .ok (.dynamic kind bootstrap s t) := by
  refine (yields_require _).bind fun _ p₁ _ hp₁ => ?_
  subst hp₁
  refine (yields_internNameAndType h .shared s t).bind fun nat p₂ hp₂ hnat => ?_
  refine (yields_insert_ref (hp₂.inv h) how _).imp fun i q hq hr => ?_
  refine except_bind_eq_ok.mpr ⟨_, hr, ?_⟩
  exact except_bind_eq_ok.mpr ⟨_, hq.nameAndType_eq hnat, rfl⟩

/-- The constant of a record that refers to nothing else. -/
theorem constant_of_record {i : Slot} {r : Record} {c : Constant} (hr : p.record i = .ok r)
    (hc : p.spellOut p.plainConstant r = .ok c) : p.constant i = .ok c :=
  except_bind_eq_ok.mpr ⟨r, hr, hc⟩

/-- An interned constant is the meaning of its slot. -/
theorem yields_intern (h : p.Inv) (how : Placement) (c : Constant) :
    Yields p (intern how c) fun i q => q.constant i = .ok c := by
  cases c with
  | utf8 s =>
    refine Yields.map ((yields_internUtf8 h how s).imp fun i q _ hs => ?_)
    exact constant_of_record (text_eq_ok_iff.mp hs) rfl
  | integer value => exact (yields_insert h how _).imp fun i q _ hr => constant_of_record hr rfl
  | float bits => exact (yields_insert h how _).imp fun i q _ hr => constant_of_record hr rfl
  | long value => exact (yields_insert h how _).imp fun i q _ hr => constant_of_record hr rfl
  | double bits => exact (yields_insert h how _).imp fun i q _ hr => constant_of_record hr rfl
  | named kind s =>
    refine Yields.map ((yields_internNamed h how kind s).imp fun i q _ hi => ?_)
    obtain ⟨name, hr, hs⟩ := hi
    exact constant_of_record hr (except_bind_eq_ok.mpr ⟨s, hs, rfl⟩)
  | member kind m =>
    refine Yields.map ((yields_internMember h how kind m).imp fun i q _ hi => ?_)
    obtain ⟨owner, nat, hr, hm⟩ := hi
    exact constant_of_record hr (except_bind_eq_ok.mpr ⟨m, hm, rfl⟩)
  | nameAndType s t =>
    refine Yields.map ((yields_internNameAndType h how s t).imp fun i q _ hi => ?_)
    obtain ⟨name, descriptor, hr, hs, ht⟩ := nameAndType_eq_ok_iff.mp hi
    refine constant_of_record hr (except_bind_eq_ok.mpr ⟨s, hs, ?_⟩)
    exact except_bind_eq_ok.mpr ⟨t, ht, rfl⟩
  | methodHandle kind memberKind m => exact Yields.map (yields_internHandle h how kind memberKind m)
  | dynamic kind bootstrap s t => exact Yields.map (yields_internDynamic h how kind bootstrap s t)

/-! ## Copied constants -/

/-- The slot `j` means in the pool what `i` means in a view; nothing means nothing. -/
def SameConstant (view : View) (p : Pool) (i j : Slot) : Prop :=
  if i = 0 then j = 0 else j ≠ 0 ∧ ∃ c, view i = .ok c ∧ p.constant j = .ok c

theorem SameConstant.mono {view : View} {p q : Pool} (h : p.Grows q) {i j : Slot}
    (hij : SameConstant view p i j) : SameConstant view q i j := by
  unfold SameConstant at hij ⊢
  split at hij
  · rename_i hi
    rw [if_pos hi]
    exact hij
  · rename_i hi
    obtain ⟨hj, c, hview, hc⟩ := hij
    rw [if_neg hi]
    exact ⟨hj, c, hview, h.constant_eq hc⟩

/-- A slot that means the same is copied the same way. -/
theorem SameConstant.copy_eq {view : View} {p : Pool} {i j : Slot}
    (h : SameConstant view p i j) : copy view i = copy p.constant j := by
  unfold SameConstant at h
  unfold copy
  split at h
  · rename_i hi
    rw [if_pos hi, if_pos h]
  · rename_i hi
    obtain ⟨hj, c, hview, hc⟩ := h
    rw [if_neg hi, if_neg hj, hview, hc]

theorem SameConstant.copyAs_eq {view : View} {p : Pool} {i j : Slot}
    (h : SameConstant view p i j) (kind : Tag) :
    copyAs kind view i = copyAs kind p.constant j := by
  unfold copyAs
  rw [h.copy_eq]

/-- Only slots that are in use mean something. -/
theorem ne_zero_of_constant (h : p.SlotLayout) {i : Slot} {c : Constant}
    (hc : p.constant i = .ok c) : i ≠ 0 := by
  rintro rfl
  obtain ⟨r, hr, -⟩ := except_bind_eq_ok.mp hc
  have hpos := h.pos_of_holds (record_eq_ok_iff.mp hr)
  exact absurd hpos (by decide)

theorem yields_copy (h : p.Inv) (view : View) (i : Slot) :
    Yields p (copy view i) fun j q => SameConstant view q i j := by
  unfold copy SameConstant
  split
  · exact yields_pure rfl
  · refine (yields_inspect _).bind fun c p₁ _ hc => ?_
    obtain ⟨rfl, hc⟩ := hc
    refine (yields_intern h .shared c).imp fun j q hq hj => ?_
    exact ⟨ne_zero_of_constant (hq.inv h).toSlotLayout hj, c, hc, hj⟩

/-- The constant at a slot is of the kind of its record. -/
theorem tag_of_constant {i : Slot} {r : Record} {c : Constant} (hr : p.record i = .ok r)
    (hc : p.constant i = .ok c) : c.tag = r.tag := by
  obtain ⟨r', hr', hc⟩ := except_bind_eq_ok.mp hc
  rw [hr] at hr'
  cases hr'
  cases r with
  | utf8 _ => cases hc; rfl
  | integer _ => cases hc; rfl
  | float _ => cases hc; rfl
  | long _ => cases hc; rfl
  | double _ => cases hc; rfl
  | named kind name =>
    obtain ⟨s, -, hc⟩ := except_bind_eq_ok.mp hc
    cases hc
    rfl
  | member kind owner nat =>
    obtain ⟨m, -, hc⟩ := except_bind_eq_ok.mp hc
    cases hc
    rfl
  | nameAndType name descriptor =>
    obtain ⟨s, -, hc⟩ := except_bind_eq_ok.mp hc
    obtain ⟨t, -, hc⟩ := except_bind_eq_ok.mp hc
    cases hc
    rfl
  | methodHandle kind target =>
    obtain ⟨d, -, hc⟩ := except_bind_eq_ok.mp hc
    unfold handleOf at hc
    split at hc <;> cases hc
    rfl
  | dynamic kind bootstrap nat =>
    obtain ⟨names, -, hc⟩ := except_bind_eq_ok.mp hc
    cases hc
    rfl

theorem yields_copyAs (h : p.Inv) (kind : Tag) (view : View) (i : Slot) :
    Yields p (copyAs kind view i) fun j q =>
      SameConstant view q i j.slot ∧ (i ≠ 0 → ∃ c, q.constant j.slot = .ok c ∧ c.tag = kind) := by
  refine (yields_copy h view i).bind fun j p₁ hp₁ hj => ?_
  split
  · -- Only slot 0 is copied to slot 0, so that there is no constant to speak of.
    rename_i hzero
    refine yields_pure ⟨?_, fun hi => ?_⟩
    · rwa [hzero] at hj
    · unfold SameConstant at hj
      rw [if_neg hi] at hj
      exact absurd hzero hj.1
  · refine (yields_inspect _).imp fun r q _ hr => ?_
    obtain ⟨rfl, hcast⟩ := hr
    unfold cast at hcast
    split at hcast
    · cases hcast
    · rename_i r' hr'
      split at hcast
      · -- The record at the slot is of the kind that was asked for, and so is its constant.
        rename_i htag
        cases hcast
        refine ⟨hj, fun hi => ?_⟩
        unfold SameConstant at hj
        rw [if_neg hi] at hj
        obtain ⟨-, c, -, hc⟩ := hj
        exact ⟨c, hc, (tag_of_constant hr' hc).trans htag⟩
      · cases hcast

end JvmClass.Pool
