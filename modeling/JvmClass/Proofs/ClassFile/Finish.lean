import JvmClass.Proofs.ClassFile.Building

/-!
# Class files say what was put into them

A class that was started and went through some calls has a class file.  Read by the grammar of class
files, this gives the version, flags and names that the class was started with, the slots of the
pool, and what the calls have put into the class, at every depth of its attributes.

## Key results

- `Built.finish`: a class under construction and its class file
- `parse_finish_of_start`: every class that can be built
-/

namespace JvmClass

/-- A class file says what it has to.  References are looked up in its own pool. -/
structure ClassFile.Shows (f : ClassFile) (head : ClassHead) (x : ClassContent) : Prop where
  version_eq : f.version = head.version
  flags_eq : f.flags = head.flags
  thisClass_eq : f.pool.className f.thisClass = .ok head.thisClass
  superClass_eq : f.pool.NamesClass? f.superClass head.superClass
  interfaces : List.Forall₂ (fun name i => f.pool.className i = .ok name) x.interfaces f.interfaces
  fields : List.Forall₂ f.pool.ShowsMember x.fields f.fields
  methods : List.Forall₂ f.pool.ShowsMember x.methods f.methods
  attributes : List.Forall₂ f.pool.Shows x.attributes f.attributes

namespace ClassBuilder

variable {c : ClassBuilder} {head : ClassHead} {x : ClassContent}

/-- The class file of a class under construction. -/
def toFile (c : ClassBuilder) (fields methods : List RawMember) (attributes : List RawAttribute) :
    ClassFile :=
  ⟨c.pool.version, c.pool.slots.toList, c.flags.bits, c.thisClass, c.superClass,
    c.interfaces.toList, fields, methods, attributes⟩

/-- The bytes that the pieces of a class file make up. -/
theorem finish_eq_ok {fields methods : List RawMember} {attributes : List RawAttribute}
    (hinterfaces : c.interfaces.size ≤ 65535)
    (hfields : c.fields.buffer.toList = encodeCounted RawMember.encode fields)
    (hmethods : c.methods.buffer.toList = encodeCounted RawMember.encode methods)
    (hattributes : c.attributes.buffer.toList = encodeCounted RawAttribute.encode attributes) :
    c.finish = .ok (magic ++ (c.pool.version.encode ++ (c.pool.encode ++
      (c.toFile fields methods attributes).encodeBody))) := by
  have hcount : c.interfaces.toList.length ≤ 65535 := by
    rw [Array.length_toList]
    exact hinterfaces
  have hbytes : (c.assemble (encodeCounted Ref.encode c.interfaces.toList)).toList
      = magic ++ (c.pool.version.encode ++ (c.pool.encode ++
        (c.toFile fields methods attributes).encodeBody)) := by
    unfold assemble
    simp only [Buffer.toList_link, Buffer.toList_append, Buffer.toList_empty, List.nil_append,
      hfields, hmethods, hattributes, List.append_assoc]
    rfl
  unfold finish
  rw [encodeSequence_eq hcount, ← hbytes]
  rfl

/-- The pool of the class file differs from that of the class only in what is not written. -/
theorem pool_toFile (fields methods : List RawMember) (attributes : List RawAttribute) :
    (c.toFile fields methods attributes).pool = { c.pool with firstSlot := ∅ } := by
  simp [ClassFile.pool, toFile]

theorem Built.finish (h : c.Built head x) :
    ∃ bytes f, c.finish = .ok bytes ∧ ClassFile.parse bytes = some f ∧
      f.slots = c.pool.slots.toList ∧ f.Shows head x := by
  obtain ⟨rs, hrs⟩ := h.lists
  obtain ⟨fields, hfields, hfieldsLe, hfieldsFit, hfieldsShow⟩ := h.fields.exists_toList_eq
  obtain ⟨methods, hmethods, hmethodsLe, hmethodsFit, hmethodsShow⟩ := h.methods.exists_toList_eq
  obtain ⟨attributes, hattributes, hattributesLe, hattributesFit, hattributesShow⟩ :=
    h.attributes.exists_toList_eq
  -- The pool and each of the tables are read back, and so are all of them in a row.
  have hslots := hrs.reads_encode h.inv.size_le
  have hfits : (c.toFile fields methods attributes).Fits := {
    interfaces_le := by
      show c.interfaces.toList.length ≤ 65535
      rw [Array.length_toList]
      exact h.interfaces_le
    fields_le := hfieldsLe
    fields_fit := hfieldsFit
    methods_le := hmethodsLe
    methods_fit := hmethodsFit
    attributes_le := hattributesLe
    attributes_fit := hattributesFit }
  have hreads := reads_classFile hfits hslots
  have hpool := c.pool_toFile fields methods attributes
  -- The table of shared records is no part of the file and does not matter for what slots say.
  have hstay : c.pool.TextsStay { c.pool with firstSlot := ∅ } := ⟨fun _ _ hs => hs, rfl⟩
  refine ⟨_, _, finish_eq_ok h.interfaces_le hfields hmethods hattributes, hreads.whole, rfl, ?_⟩
  exact {
    version_eq := h.version_eq
    flags_eq := h.flags_eq
    thisClass_eq := by
      rw [hpool]
      exact h.thisClass_eq
    superClass_eq := by
      rw [hpool]
      exact h.superClass_eq
    interfaces := by
      rw [hpool]
      exact h.interfaces
    fields := by
      rw [hpool]
      exact hfieldsShow.imp fun _ _ hm => hm.mono hstay
    methods := by
      rw [hpool]
      exact hmethodsShow.imp fun _ _ hm => hm.mono hstay
    attributes := by
      rw [hpool]
      exact Pool.showsAll_mono hstay hattributesShow }

/-- Every class that was started, whatever calls it went through and whichever of these failed, has
a class file, which reads as what was put into the class. -/
theorem parse_finish_of_start {version : Version} {flags : Flags .class} {thisClass : String}
    {superClass : Option String} {c : ClassBuilder}
    (h : start version flags thisClass superClass = .ok c) (calls : List ClassCall) :
    ∃ bytes f, (c.afterCalls calls).finish = .ok bytes ∧ ClassFile.parse bytes = some f ∧
      f.slots = (c.afterCalls calls).pool.slots.toList ∧
      f.Shows ⟨version, flags.bits, thisClass, superClass⟩ (c.contentAfter .empty calls) :=
  (built_afterCalls (built_start h) calls).finish

/-- An interface, and an attribute of the class that is added before its callback fails. -/
def failingCalls : List ClassCall :=
  [.interface "B", .attributes (.call (.named "N" [1]) fun _ => .finish (.error (.textTooLong 0)))]

theorem parse_finish_of_failingCalls :
    ∃ c, start .java8 (Flags.ofBits .class 0x0001) "A" none = .ok c ∧
      ∃ bytes f, (c.afterCalls failingCalls).finish = .ok bytes ∧ ClassFile.parse bytes = some f ∧
        f.slots = (c.afterCalls failingCalls).pool.slots.toList ∧
        f.Shows ⟨.java8, (Flags.ofBits .class 0x0001).bits, "A", none⟩
          (c.contentAfter .empty failingCalls) := by
  have hthis : (ModifiedUtf8.encode .java8 "A").length ≤ 65535 := by decide
  have hsuper : ∀ name ∈ (none : Option String),
      (ModifiedUtf8.encode .java8 name).length ≤ 65535 := nofun
  obtain ⟨c, hc⟩ := exists_start_eq_ok (Flags.ofBits .class 0x0001) hthis hsuper
  exact ⟨c, hc, parse_finish_of_start hc failingCalls⟩

end ClassBuilder

end JvmClass
