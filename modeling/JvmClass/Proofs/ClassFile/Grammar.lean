import JvmClass.ClassFile
import JvmClass.Proofs.Attribute.Grammar
import JvmClass.Proofs.Pool.Reading

/-!
# The grammar of class files

A class file is read field by field: the magic bytes, the version, the pool, the flags, the class
and its superclass, and then the counted tables of interfaces, fields, methods and attributes.
`parse` reads all of some bytes in this way, so that there must be none left at the end.

## Key results

- `reads_member`: a field or a method is read back
- `reads_classFile`: so is a class file
-/

namespace JvmClass

open Reader (Reads)

/-! ## Members -/

/-- A field or a method of a class file. -/
structure RawMember where
  flags : UInt16
  name : Ref .utf8
  descriptor : Ref .utf8
  attributes : List RawAttribute

namespace RawMember

def encode (m : RawMember) : List UInt8 :=
  BigEndian.u2 m.flags ++ (m.name.encode ++ (m.descriptor.encode ++
    encodeCounted RawAttribute.encode m.attributes))

def read : Reader RawMember := do
  let flags ← Reader.u2
  let name ← Reader.ref
  let descriptor ← Reader.ref
  return ⟨flags, name, descriptor, ← Reader.counted RawAttribute.read⟩

/-- The attributes of the member can be counted, and so can the bytes of each. -/
def Fits (m : RawMember) : Prop := m.attributes.length ≤ 65535 ∧ ∀ a ∈ m.attributes, a.Fits

end RawMember

theorem reads_member {m : RawMember} (h : m.Fits) : Reads RawMember.read m.encode m := by
  apply (Reader.reads_u2 m.flags).bind
  refine (Reader.reads_ref m.name).bind ((Reader.reads_ref m.descriptor).bind ?_)
  exact (reads_attributes h.1 h.2).bind_nil (Reads.pure _)

/-! ## Classes -/

/-- What stands in a class file. -/
structure ClassFile where
  version : Version
  slots : List (Option Record)
  flags : UInt16
  thisClass : Ref .class
  superClass : Ref .class
  interfaces : List (Ref .class)
  fields : List RawMember
  methods : List RawMember
  attributes : List RawAttribute

namespace ClassFile

/-- The pool of a class file, by which its references are looked up. -/
def pool (f : ClassFile) : Pool := ⟨f.version, f.slots.toArray, ∅⟩

def readVersion : Reader Version := do
  let minor ← Reader.u2
  return ⟨← Reader.u2, minor⟩

def read : Reader ClassFile := do
  let start ← Reader.take 4
  if start = ClassBuilder.magic then
    let version ← readVersion
    let slots ← Pool.readSlots
    let flags ← Reader.u2
    let thisClass ← Reader.ref
    let superClass ← Reader.ref
    let interfaces ← Reader.counted Reader.ref
    let fields ← Reader.counted RawMember.read
    let methods ← Reader.counted RawMember.read
    let attributes ← Reader.counted RawAttribute.read
    return ⟨version, slots, flags, thisClass, superClass, interfaces, fields, methods, attributes⟩
  else
    failure

/-- Read all of some bytes as a class file. -/
def parse (bytes : List UInt8) : Option ClassFile := Reader.whole read bytes

/-- What follows the pool. -/
def encodeBody (f : ClassFile) : List UInt8 :=
  BigEndian.u2 f.flags ++ (f.thisClass.encode ++ (f.superClass.encode ++
    (encodeCounted Ref.encode f.interfaces ++ (encodeCounted RawMember.encode f.fields ++
      (encodeCounted RawMember.encode f.methods ++
        encodeCounted RawAttribute.encode f.attributes)))))

/-- Everything can be counted, and so can the bytes of each attribute. -/
structure Fits (f : ClassFile) : Prop where
  interfaces_le : f.interfaces.length ≤ 65535
  fields_le : f.fields.length ≤ 65535
  fields_fit : ∀ m ∈ f.fields, m.Fits
  methods_le : f.methods.length ≤ 65535
  methods_fit : ∀ m ∈ f.methods, m.Fits
  attributes_le : f.attributes.length ≤ 65535
  attributes_fit : ∀ a ∈ f.attributes, a.Fits

end ClassFile

theorem reads_version (v : Version) : Reads ClassFile.readVersion v.encode v := by
  apply (Reader.reads_u2 v.minor).bind
  exact (Reader.reads_u2 v.major).bind_nil (Reads.pure _)

/-- A class file is read back if its pool is. -/
theorem reads_classFile {f : ClassFile} (h : f.Fits) {pool : List UInt8}
    (hpool : Reads Pool.readSlots pool f.slots) :
    Reads ClassFile.read
      (ClassBuilder.magic ++ (f.version.encode ++ (pool ++ f.encodeBody))) f := by
  have hmagic : Reads (Reader.take 4) ClassBuilder.magic ClassBuilder.magic := Reader.reads_take rfl
  have hinterfaces := Reads.counted h.interfaces_le fun i _ => Reader.reads_ref i
  have hfields := Reads.counted h.fields_le fun m hm => reads_member (h.fields_fit m hm)
  have hmethods := Reads.counted h.methods_le fun m hm => reads_member (h.methods_fit m hm)
  have hattributes := reads_attributes h.attributes_le h.attributes_fit
  apply hmagic.bind
  rw [if_pos rfl]
  refine (reads_version f.version).bind (hpool.bind ?_)
  apply (Reader.reads_u2 f.flags).bind
  refine (Reader.reads_ref f.thisClass).bind ((Reader.reads_ref f.superClass).bind ?_)
  refine hinterfaces.bind (hfields.bind (hmethods.bind ?_))
  exact hattributes.bind_nil (Reads.pure _)

end JvmClass
