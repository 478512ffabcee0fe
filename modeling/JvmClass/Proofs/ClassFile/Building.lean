import JvmClass.Proofs.Attribute.Nested
import JvmClass.Proofs.ClassFile.Grammar

/-!
# What is put into a class

A class is built by calls that add interfaces, fields, methods and attributes, of which any may
fail.  `ClassContent` is what was put into a class, and `ClassCall.add` is what a call adds to this:
an interface, a field or a method if the call succeeded, and whatever the callback for the
attributes of the class added, even if it failed in the end.

`Built c head x` says that the tables of a class under construction hold the content `x`.  Every
call keeps this, since it changes one table and lets the pool grow.

## Key results

- `built_start`: a class that was started has no members yet
- `Built.call`: one call
- `built_afterCalls`: a run of calls
-/

namespace JvmClass

/-! ## Contents -/

/-- What a field or a method says. -/
structure MemberContent where
  flags : UInt16
  name : String
  descriptor : String
  attributes : List AttributeContent

/-- What is said of a class when it is started. -/
structure ClassHead where
  version : Version
  flags : UInt16
  thisClass : String
  superClass : Option String

/-- What is put into a class after it was started. -/
structure ClassContent where
  interfaces : List String
  fields : List MemberContent
  methods : List MemberContent
  attributes : List AttributeContent

namespace Pool

/-- With the constants of the pool, a member of a class file says what it has to. -/
structure ShowsMember (p : Pool) (x : MemberContent) (m : RawMember) : Prop where
  flags_eq : m.flags = x.flags
  name_eq : p.text m.name = .ok x.name
  descriptor_eq : p.text m.descriptor = .ok x.descriptor
  attributes : List.Forall₂ p.Shows x.attributes m.attributes

/-- A reference to a class that need not be there. -/
def NamesClass? (p : Pool) (i : Ref .class) : Option String → Prop
  | some name => p.className i = .ok name
  | none => i = .none

theorem ShowsMember.mono {p q : Pool} (h : p.TextsStay q) {x : MemberContent} {m : RawMember}
    (hm : p.ShowsMember x m) : q.ShowsMember x m where
  flags_eq := hm.flags_eq
  name_eq := h.text_eq _ _ hm.name_eq
  descriptor_eq := h.text_eq _ _ hm.descriptor_eq
  attributes := showsAll_mono h hm.attributes

theorem NamesClass?.grows {p q : Pool} (h : p.Grows q) {i : Ref .class} {name : Option String}
    (hi : p.NamesClass? i name) : q.NamesClass? i name := by
  cases name with
  | none => exact hi
  | some name => exact h.className_eq hi

end Pool

/-! ## Calls -/

/-- A call of the interface of a class under construction.  Whatever a caller makes of the results
of earlier calls, it makes a list of these. -/
inductive ClassCall
  | interface (name : String)
  | field (flags : Flags .field) (name descriptor : String) (callback : TableCallback)
  | method (flags : Flags .method) (name descriptor : String) (callback : TableCallback)
  | attributes (callback : TableCallback)
  | onPool (first : Pool.Call)

def ClassCall.perform : ClassCall → Action Error ClassBuilder Unit
  | .interface name => discard (ClassBuilder.addInterface name)
  | .field flags name descriptor callback =>
    ClassBuilder.addField flags name descriptor callback.perform
  | .method flags name descriptor callback =>
    ClassBuilder.addMethod flags name descriptor callback.perform
  | .attributes callback => ClassBuilder.addAttributes callback.perform
  | .onPool first => discard (ClassBuilder.onPool first.perform)

/-- The member that is built with the attributes that a callback adds. -/
def MemberContent.build (flags : UInt16) (name descriptor : String) (callback : TableCallback)
    (p : Pool) : MemberContent where
  flags := flags
  name := name
  descriptor := descriptor
  attributes :=
    match (ClassBuilder.beginMember flags name descriptor).exec p with
    | (.ok head, q) => callback.added (.start q head)
    | (.error _, _) => []

/-- Nothing has been put into the class. -/
def ClassContent.empty : ClassContent := ⟨[], [], [], []⟩

/-- What is in a class after a call. -/
def ClassCall.add (call : ClassCall) (c : ClassBuilder) (x : ClassContent) : ClassContent :=
  match call, (call.perform.exec c).1 with
  | .interface name, .ok () => { x with interfaces := x.interfaces ++ [name] }
  | .field flags name descriptor callback, .ok () =>
    { x with fields := x.fields ++ [.build flags.bits name descriptor callback c.pool] }
  | .method flags name descriptor callback, .ok () =>
    { x with methods := x.methods ++ [.build flags.bits name descriptor callback c.pool] }
  | .attributes callback, _ =>
    { x with attributes := x.attributes ++ callback.added ⟨c.pool, c.attributes⟩ }
  | _, _ => x

namespace ClassBuilder

/-- The class after some calls, of which any may have failed. -/
def afterCalls (c : ClassBuilder) (calls : List ClassCall) : ClassBuilder :=
  calls.foldl (fun c call => (call.perform.exec c).2) c

/-- What is in a class after some calls. -/
def contentAfter : ClassBuilder → ClassContent → List ClassCall → ClassContent
  | _, x, [] => x
  | c, x, call :: calls => contentAfter (call.perform.exec c).2 (call.add c x) calls

/-! ## The invariant -/

/-- The tables of the class hold what was put into it. -/
structure Built (c : ClassBuilder) (head : ClassHead) (x : ClassContent) : Prop where
  inv : c.pool.Inv
  lists : ∃ rs, c.pool.Lists rs
  version_eq : c.pool.version = head.version
  flags_eq : c.flags.bits = head.flags
  thisClass_eq : c.pool.className c.thisClass = .ok head.thisClass
  superClass_eq : c.pool.NamesClass? c.superClass head.superClass
  interfaces_le : c.interfaces.size ≤ 65535
  interfaces : List.Forall₂ (fun name i => c.pool.className i = .ok name) x.interfaces
    c.interfaces.toList
  fields : c.fields.Carries [] RawMember.encode RawMember.Fits c.pool.ShowsMember x.fields
  methods : c.methods.Carries [] RawMember.encode RawMember.Fits c.pool.ShowsMember x.methods
  attributes : c.attributes.Carries [] RawAttribute.encode RawAttribute.Fits c.pool.Shows
    x.attributes

/-- A class says the same when its pool has grown. -/
theorem Built.of_grows {c : ClassBuilder} {head : ClassHead} {x : ClassContent}
    (h : c.Built head x) {p : Pool} (hp : c.pool.Grows p) :
    Built { c with pool := p } head x where
  inv := hp.inv h.inv
  lists := by
    obtain ⟨rs, hrs⟩ := h.lists
    exact hrs.grows hp
  version_eq := hp.version_eq.trans h.version_eq
  flags_eq := h.flags_eq
  thisClass_eq := hp.className_eq h.thisClass_eq
  superClass_eq := h.superClass_eq.grows hp
  interfaces_le := h.interfaces_le
  interfaces := h.interfaces.imp fun _ _ hi => hp.className_eq hi
  fields := h.fields.mono fun _ _ hm => hm.mono hp.textsStay
  methods := h.methods.mono fun _ _ hm => hm.mono hp.textsStay
  attributes := h.attributes.mono fun _ _ ha => ha.mono hp.textsStay

/-- The classes that a new class refers to have the names that they have to. -/
theorem yields_ownClasses {p : Pool} (hinv : p.Inv) (thisClass : String)
    (superClass : Option String) :
    Pool.Yields p (ownClasses thisClass superClass) fun classes q =>
      q.className classes.1 = .ok thisClass ∧ q.NamesClass? classes.2 superClass := by
  -- The name of the class stays while the superclass is added to the pool.
  refine (Pool.yields_classNamed hinv thisClass).bind fun this q hq hthis => ?_
  cases superClass with
  | none => exact Pool.yields_pure ⟨hthis, rfl⟩
  | some name =>
    refine (Pool.yields_classNamed (hq.inv hinv) name).bind fun super q' hq' hsuper => ?_
    exact Pool.yields_pure ⟨hq'.className_eq hthis, hsuper⟩

theorem built_start {version : Version} {flags : Flags .class} {thisClass : String}
    {superClass : Option String} {c : ClassBuilder}
    (h : start version flags thisClass superClass = .ok c) :
    c.Built ⟨version, flags.bits, thisClass, superClass⟩ .empty := by
  have hinv := Pool.inv_empty version
  unfold start at h
  split at h
  · rename_i this super pool hclasses
    cases h
    obtain ⟨hgrows, hthis, hsuper⟩ := yields_ownClasses hinv thisClass superClass _ _ hclasses
    obtain ⟨rs, hrs⟩ := (Pool.lists_empty version).grows hgrows
    exact {
      inv := hgrows.inv hinv
      lists := ⟨rs, hrs⟩
      version_eq := hgrows.version_eq
      flags_eq := rfl
      thisClass_eq := hthis
      superClass_eq := hsuper
      interfaces_le := Nat.zero_le _
      interfaces := .nil
      fields := CountedTable.carries_start "fields" .empty _ _ _
      methods := CountedTable.carries_start "methods" .empty _ _ _
      attributes := CountedTable.carries_start "attributes" .empty _ _ _ }
  · cases h

/-- A class is not refused when its name is not too long and there is room in the pool. -/
theorem exists_exec_classNamed_ok {p : Pool} {name : String}
    (hname : (ModifiedUtf8.encode p.version name).length ≤ 65535)
    (hroom : p.slots.size + 2 ≤ 65535) :
    ∃ i q, (Pool.classNamed name).exec p = (.ok i, q) ∧ q.version = p.version ∧
      q.slots.size ≤ p.slots.size + 2 := by
  -- Two records: the string, and the class that refers to it.
  have hwidth : (Record.utf8 name).width = 1 := rfl
  obtain ⟨i, q, hi, hversion, hsize⟩ :=
    Pool.exists_exec_insert_ok .shared (r := .utf8 name) hname (by omega)
  have hwidth' : (Record.named .class ⟨i⟩).width = 1 := rfl
  have htext : (Record.named .class ⟨i⟩).textSize q.version ≤ 65535 := Nat.zero_le _
  obtain ⟨j, q', hj, hversion', hsize'⟩ := Pool.exists_exec_insert_ok .shared htext (by omega)
  refine ⟨⟨j⟩, q', ?_, hversion'.trans hversion, by omega⟩
  refine Action.exec_bind_eq_ok.mpr ⟨(), p, rfl, ?_⟩
  refine Action.exec_bind_eq_ok.mpr ⟨⟨i⟩, q, ?_, ?_⟩
  · exact Action.exec_bind_eq_ok.mpr ⟨i, q, hi, rfl⟩
  · exact Action.exec_bind_eq_ok.mpr ⟨j, q', hj, rfl⟩

/-- Only a name that is too long keeps a class from being started. -/
theorem exists_start_eq_ok {version : Version} (flags : Flags .class) {thisClass : String}
    {superClass : Option String} (hthis : (ModifiedUtf8.encode version thisClass).length ≤ 65535)
    (hsuper : ∀ name ∈ superClass, (ModifiedUtf8.encode version name).length ≤ 65535) :
    ∃ c, start version flags thisClass superClass = .ok c := by
  have hempty : (Pool.empty version).slots.size = 1 := rfl
  obtain ⟨this, p, hp, hversion, hsize⟩ :=
    exists_exec_classNamed_ok (p := .empty version) hthis (by omega)
  obtain ⟨classes, q, hclasses⟩ : ∃ classes q,
      (ownClasses thisClass superClass).exec (.empty version) = (.ok classes, q) := by
    cases superClass with
    | none => exact ⟨_, p, Action.exec_bind_eq_ok.mpr ⟨this, p, hp, rfl⟩⟩
    | some name =>
      have hname : (ModifiedUtf8.encode p.version name).length ≤ 65535 := by
        rw [hversion]
        exact hsuper name rfl
      obtain ⟨super, q, hq, -⟩ := exists_exec_classNamed_ok hname (by omega)
      refine ⟨(this, super), q, Action.exec_bind_eq_ok.mpr ⟨this, p, hp, ?_⟩⟩
      exact Action.exec_bind_eq_ok.mpr ⟨super, q, hq, rfl⟩
  unfold start
  rw [hclasses]
  exact ⟨_, rfl⟩

/-! ## Calls keep the invariant -/

/-- An operation of the pool does nothing else. -/
theorem exec_onPool {α : Type} (act : Action Error Pool α) (c : ClassBuilder) :
    (onPool act).exec c = ((act.exec c.pool).1, { c with pool := (act.exec c.pool).2 }) := by
  rfl

theorem beginMember_ok {p q : Pool} (hinv : p.Inv) {flags : UInt16} {name descriptor : String}
    {head : Buffer} (h : (beginMember flags name descriptor).exec p = (.ok head, q)) :
    p.Grows q ∧ ∃ i j : Ref .utf8, q.text i = .ok name ∧ q.text j = .ok descriptor ∧
      head.toList = BigEndian.u2 flags ++ (i.encode ++ j.encode) := by
  obtain ⟨i, p₁, hi, h⟩ := Action.exec_bind_eq_ok.mp h
  obtain ⟨j, p₂, hj, h⟩ := Action.exec_bind_eq_ok.mp h
  obtain ⟨hgrows, hname⟩ := Pool.yields_utf8 hinv name i p₁ hi
  obtain ⟨hgrows', hdescriptor⟩ := Pool.yields_utf8 (hgrows.inv hinv) descriptor j p₂ hj
  rw [Action.exec_pure] at h
  obtain ⟨hhead, rfl⟩ := Prod.mk.inj h
  cases hhead
  refine ⟨trans_of Pool.Grows hgrows hgrows', i, j, hgrows'.text_eq hname, hdescriptor, ?_⟩
  simp

theorem grows_beginMember (flags : UInt16) (name descriptor : String) :
    (beginMember flags name descriptor).Moves Pool.Grows :=
  .bind (Pool.places_internUtf8 _ _).grows fun _ =>
    .bind (Pool.places_internUtf8 _ _).grows fun _ => Action.Moves.pure _

/-- A member is built as a whole, with the attributes that its callback adds. -/
theorem buildMember_ok {p q : Pool} (hinv : p.Inv) {flags : UInt16} {name descriptor : String}
    {callback : TableCallback} {member : Buffer}
    (h : (buildMember flags name descriptor callback.perform).exec p = (.ok member, q)) :
    ∃ m : RawMember, m.encode = [] ++ member.toList ∧ m.Fits ∧
      q.ShowsMember (.build flags name descriptor callback p) m := by
  obtain ⟨head, p₁, hbegin, hextend⟩ := Action.exec_bind_eq_ok.mp h
  obtain ⟨hgrows, i, j, hname, hdescriptor, hhead⟩ := beginMember_ok hinv hbegin
  obtain ⟨w, hw, rfl, rfl⟩ := AttributeWriter.extend_ok hextend
  -- The attributes are written behind the flags, the name and the descriptor.
  have hadds := callback.adds (w := .start p₁ head) (hgrows.inv hinv)
  rw [hw] at hadds
  obtain ⟨as, hlist, hlen, hfits, hshows⟩ := AttributeWriter.exists_toList_eq_of_adds hadds
  refine ⟨⟨flags, i, j, as⟩, ?_, ⟨hlen, hfits⟩, ?_⟩
  · rw [hlist, hhead, RawMember.encode]
    simp only [List.append_assoc, List.nil_append]
  · exact {
      flags_eq := rfl
      name_eq := hadds.grows.text_eq hname
      descriptor_eq := hadds.grows.text_eq hdescriptor
      attributes := by
        simp only [MemberContent.build, hbegin]
        exact hshows }

theorem grows_buildMember {p : Pool} (hinv : p.Inv) (flags : UInt16) (name descriptor : String)
    (callback : TableCallback) :
    p.Grows ((buildMember flags name descriptor callback.perform).exec p).2 := by
  unfold buildMember
  rw [Action.exec_bind]
  rcases hbegin : (beginMember flags name descriptor).exec p with ⟨e | head, q⟩
  · exact (grows_beginMember flags name descriptor).of_exec hbegin
  · have hgrows := (grows_beginMember flags name descriptor).of_exec hbegin
    have hadds := callback.adds (w := .start q head) (hgrows.inv hinv)
    show p.Grows ((AttributeWriter.extend head callback.perform).exec q).2
    rw [AttributeWriter.exec_extend]
    exact trans_of Pool.Grows hgrows hadds.grows

/-- A member is linked into its table if there is room and it could be built. -/
theorem exec_addMember (table : ClassBuilder → CountedTable)
    (link : Buffer → ClassBuilder → ClassBuilder) (act : Action Error Pool Buffer)
    (c : ClassBuilder) :
    (do
      ensureRoom table
      let member ← onPool act
      modify (link member) : Action Error ClassBuilder Unit).exec c
      = if (table c).isFull then (.error (table c).overflow, c)
        else match act.exec c.pool with
          | (.ok member, q) => (.ok (), link member { c with pool := q })
          | (.error e, q) => (.error e, { c with pool := q }) := by
  rw [Action.exec_bind, ensureRoom, Action.exec_inspect]
  split
  · rename_i hok
    split at hok
    · cases hok
    rename_i hroom
    obtain ⟨-, rfl⟩ := Prod.mk.inj hok
    rw [if_neg hroom, Action.exec_bind, exec_onPool]
    rcases act.exec c.pool with ⟨e | member, q⟩
    · rfl
    · rfl
  · rename_i herror
    split at herror
    · rename_i hfull
      rw [if_pos hfull]
      exact herror.symm
    · cases herror

theorem exec_addField (flags : Flags .field) (name descriptor : String)
    (act : Action Error AttributeWriter Unit) (c : ClassBuilder) :
    (addField flags name descriptor act).exec c
      = if c.fields.isFull then (.error c.fields.overflow, c)
        else match (buildMember flags.bits name descriptor act).exec c.pool with
          | (.ok member, q) => (.ok (), { c with pool := q, fields := c.fields.link [] member })
          | (.error e, q) => (.error e, { c with pool := q }) :=
  exec_addMember (·.fields) (fun member c => { c with fields := c.fields.link [] member }) _ c

theorem exec_addMethod (flags : Flags .method) (name descriptor : String)
    (act : Action Error AttributeWriter Unit) (c : ClassBuilder) :
    (addMethod flags name descriptor act).exec c
      = if c.methods.isFull then (.error c.methods.overflow, c)
        else match (buildMember flags.bits name descriptor act).exec c.pool with
          | (.ok member, q) => (.ok (), { c with pool := q, methods := c.methods.link [] member })
          | (.error e, q) => (.error e, { c with pool := q }) :=
  exec_addMember (·.methods) (fun member c => { c with methods := c.methods.link [] member }) _ c

theorem exec_addInterface (name : String) (c : ClassBuilder) :
    (addInterface name).exec c
      = if c.interfaces.size < maxInterfaces then
          match (Pool.classNamed name).exec c.pool with
          | (.ok i, q) => (.ok i, { c with pool := q, interfaces := c.interfaces.push i })
          | (.error e, q) => (.error e, { c with pool := q })
        else (.error (.tableOverflow "interfaces" maxInterfaces), c) := by
  unfold addInterface
  rw [Action.exec_bind, Action.exec_inspect]
  by_cases hroom : c.interfaces.size < maxInterfaces
  · rw [if_pos hroom, if_pos hroom]
    show (onPool (Pool.classNamed name) >>= _).exec c = _
    rw [Action.exec_bind, exec_onPool]
    rcases (Pool.classNamed name).exec c.pool with ⟨e | i, q⟩
    · rfl
    · rfl
  · rw [if_neg hroom, if_neg hroom]

variable {c : ClassBuilder} {head : ClassHead} {x : ClassContent}

theorem built_interface (h : c.Built head x) (name : String) :
    ((ClassCall.interface name).perform.exec c).2.Built head
      ((ClassCall.interface name).add c x) := by
  simp only [ClassCall.add, ClassCall.perform, Action.exec_discard, exec_addInterface]
  by_cases hroom : c.interfaces.size < maxInterfaces
  · rw [if_pos hroom]
    rcases hclass : (Pool.classNamed name).exec c.pool with ⟨e | i, q⟩
    · -- The class was refused, but its name may have been added to the pool.
      have hgrows := (Pool.places_internNamed .shared .class name).grows.of_exec hclass
      exact h.of_grows hgrows
    · obtain ⟨hgrows, hname⟩ := Pool.yields_classNamed h.inv name i q hclass
      have hgrown := h.of_grows hgrows
      have hmax : maxInterfaces = 65535 := rfl
      exact { hgrown with
        interfaces_le := by
          rw [Array.size_push]
          omega
        interfaces := by
          rw [Array.toList_push]
          exact List.rel_append hgrown.interfaces (.cons hname .nil) }
  · rw [if_neg hroom]
    exact h

/-- Building a member does nothing to the class but let its pool grow. -/
theorem Built.of_buildMember (h : c.Built head x) {flags : UInt16} {name descriptor : String}
    {callback : TableCallback} {result : Except Error Buffer} {q : Pool}
    (hbuild : (buildMember flags name descriptor callback.perform).exec c.pool = (result, q)) :
    Built { c with pool := q } head x := by
  have hgrows := grows_buildMember h.inv flags name descriptor callback
  rw [hbuild] at hgrows
  exact h.of_grows hgrows

/-- A member that was built is the last one of the table that it is linked into. -/
theorem carries_link_member {p q : Pool} (hinv : p.Inv) {table : CountedTable}
    {xs : List MemberContent}
    (h : table.Carries [] RawMember.encode RawMember.Fits p.ShowsMember xs)
    (hroom : table.isFull = false) {flags : UInt16} {name descriptor : String}
    {callback : TableCallback} {member : Buffer}
    (hbuild : (buildMember flags name descriptor callback.perform).exec p = (.ok member, q)) :
    (table.link [] member).Carries [] RawMember.encode RawMember.Fits q.ShowsMember
      (xs ++ [.build flags name descriptor callback p]) := by
  obtain ⟨m, hm, hfits, hshows⟩ := buildMember_ok hinv hbuild
  have hgrows := grows_buildMember hinv flags name descriptor callback
  rw [hbuild] at hgrows
  have hmono := h.mono fun _ _ hmember => hmember.mono hgrows.textsStay
  exact hmono.link hroom hm hfits hshows

theorem built_field (h : c.Built head x) (flags : Flags .field) (name descriptor : String)
    (callback : TableCallback) :
    ((ClassCall.field flags name descriptor callback).perform.exec c).2.Built head
      ((ClassCall.field flags name descriptor callback).add c x) := by
  simp only [ClassCall.add, ClassCall.perform, exec_addField]
  cases hfull : c.fields.isFull with
  | true => exact h
  | false =>
    rcases hbuild : (buildMember flags.bits name descriptor callback.perform).exec c.pool
      with ⟨e | member, q⟩
    · exact h.of_buildMember hbuild
    · have hlinked := carries_link_member h.inv h.fields hfull hbuild
      exact { h.of_buildMember hbuild with fields := hlinked }

theorem built_method (h : c.Built head x) (flags : Flags .method) (name descriptor : String)
    (callback : TableCallback) :
    ((ClassCall.method flags name descriptor callback).perform.exec c).2.Built head
      ((ClassCall.method flags name descriptor callback).add c x) := by
  simp only [ClassCall.add, ClassCall.perform, exec_addMethod]
  cases hfull : c.methods.isFull with
  | true => exact h
  | false =>
    rcases hbuild : (buildMember flags.bits name descriptor callback.perform).exec c.pool
      with ⟨e | member, q⟩
    · exact h.of_buildMember hbuild
    · have hlinked := carries_link_member h.inv h.methods hfull hbuild
      exact { h.of_buildMember hbuild with methods := hlinked }

/-- Attributes of the class that were added before a refused one stay. -/
theorem built_attributes (h : c.Built head x) (callback : TableCallback) :
    ((ClassCall.attributes callback).perform.exec c).2.Built head
      ((ClassCall.attributes callback).add c x) := by
  have hadds := callback.adds (w := ⟨c.pool, c.attributes⟩) h.inv
  have hgrown := h.of_grows hadds.grows
  have hattributes := hadds.built [] x.attributes h.attributes
  simp only [ClassCall.add]
  exact { hgrown with attributes := hattributes }

/-- A call changes one table at most and lets the pool grow. -/
theorem Built.call (h : c.Built head x) (call : ClassCall) :
    (call.perform.exec c).2.Built head (call.add c x) := by
  cases call with
  | interface name => exact built_interface h name
  | field flags name descriptor callback => exact built_field h flags name descriptor callback
  | method flags name descriptor callback => exact built_method h flags name descriptor callback
  | attributes callback => exact built_attributes h callback
  | onPool first =>
    have hgrown := h.of_grows (Pool.grows_perform first c.pool)
    simp only [ClassCall.add, ClassCall.perform, Action.exec_discard, exec_onPool]
    exact hgrown

/-- A run of calls keeps the invariant. -/
theorem built_afterCalls (h : c.Built head x) (calls : List ClassCall) :
    (c.afterCalls calls).Built head (c.contentAfter x calls) := by
  induction calls generalizing c x with
  | nil => exact h
  | cons call calls ih => exact ih (h.call call)

end ClassBuilder

end JvmClass
