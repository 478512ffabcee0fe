import JvmClass.Attribute.Writer
import JvmClass.Proofs.Byte.Reader
import JvmClass.Proofs.CountedTable

/-!
# The grammar of attributes

An attribute of a class file is a name, a length and so many bytes, whatever they mean.  The bytes
of the code of a method and of the components of a record contain tables of attributes again, which
have the same form.

## Key results

- `reads_attributes`: a table of attributes is read back
- `reads_codeInfo`, `reads_components`: so are the code of a method and the components of a record
- `reads_ofEntries`, `reads_ofList`: tables that are written as a whole
-/

namespace JvmClass

open Reader (Reads)

-- Powers are those of the core library, also where Mathlib brings its own.
attribute [local instance (high)] instPowNat

/-! ## Attributes -/

/-- An attribute as it stands in a class file. -/
structure RawAttribute where
  name : Ref .utf8
  info : List UInt8

namespace RawAttribute

def encode (a : RawAttribute) : List UInt8 :=
  a.name.encode ++ (BigEndian.encode 4 a.info.length ++ a.info)

def read : Reader RawAttribute := do
  let name ← Reader.ref
  let size ← Reader.uint 4
  return ⟨name, ← Reader.take size⟩

/-- The length field can say how many bytes the attribute has. -/
def Fits (a : RawAttribute) : Prop := a.info.length ≤ AttributeWriter.maxInfo

end RawAttribute

theorem reads_attribute {a : RawAttribute} (h : a.Fits) : Reads RawAttribute.read a.encode a := by
  have hlen : a.info.length < 256 ^ 4 := Nat.lt_succ_of_le h
  have htake := Reader.reads_take (Eq.refl a.info.length)
  refine (Reader.reads_ref a.name).bind ((Reader.reads_uint hlen).bind ?_)
  exact htake.bind_nil (Reads.pure _)

theorem reads_attributes {as : List RawAttribute} (hlen : as.length ≤ 65535)
    (h : ∀ a ∈ as, a.Fits) :
    Reads (Reader.counted RawAttribute.read) (encodeCounted RawAttribute.encode as) as :=
  Reads.counted hlen fun a ha => reads_attribute (h a ha)

/-! ## The code of a method -/

def ExceptionHandler.read : Reader ExceptionHandler := do
  let start ← Reader.u2
  let stop ← Reader.u2
  let handler ← Reader.u2
  return ⟨start, stop, handler, ← Reader.ref⟩

/-- What stands in the code of a method before its attributes. -/
structure CodeHead where
  maxStack : UInt16
  maxLocals : UInt16
  code : List UInt8
  handlers : List ExceptionHandler

namespace CodeHead

def encode (c : CodeHead) : List UInt8 :=
  BigEndian.u2 c.maxStack ++ (BigEndian.u2 c.maxLocals ++ (BigEndian.encode 4 c.code.length ++
    (c.code ++
      (BigEndian.encode 2 c.handlers.length ++ c.handlers.flatMap ExceptionHandler.encode))))

def read : Reader CodeHead := do
  let maxStack ← Reader.u2
  let maxLocals ← Reader.u2
  let size ← Reader.uint 4
  let code ← Reader.take size
  return ⟨maxStack, maxLocals, code, ← Reader.counted ExceptionHandler.read⟩

end CodeHead

theorem reads_handler (h : ExceptionHandler) : Reads ExceptionHandler.read h.encode h := by
  unfold ExceptionHandler.encode
  rw [List.append_assoc, List.append_assoc]
  refine (Reader.reads_u2 _).bind ((Reader.reads_u2 _).bind ((Reader.reads_u2 _).bind ?_))
  exact (Reader.reads_ref h.catchType).bind_nil (Reads.pure _)

theorem reads_codeHead {c : CodeHead} (hcode : c.code.length < 256 ^ (4 : Nat))
    (hhandlers : c.handlers.length ≤ 65535) : Reads CodeHead.read c.encode c := by
  unfold CodeHead.encode
  have htable := Reads.counted hhandlers fun h _ => reads_handler h
  refine (Reader.reads_u2 _).bind ((Reader.reads_u2 _).bind ((Reader.reads_uint hcode).bind ?_))
  apply (Reader.reads_take rfl).bind
  exact htable.bind_nil (Reads.pure _)

/-- The code of a method. -/
structure CodeInfo where
  head : CodeHead
  attributes : List RawAttribute

def CodeInfo.read : Reader CodeInfo := do
  let head ← CodeHead.read
  return ⟨head, ← Reader.counted RawAttribute.read⟩

theorem reads_codeInfo {c : CodeHead} (hcode : c.code.length < 256 ^ (4 : Nat))
    (hhandlers : c.handlers.length ≤ 65535) {as : List RawAttribute} (hlen : as.length ≤ 65535)
    (h : ∀ a ∈ as, a.Fits) :
    Reads CodeInfo.read (c.encode ++ encodeCounted RawAttribute.encode as) ⟨c, as⟩ := by
  apply (reads_codeHead hcode hhandlers).bind
  exact (reads_attributes hlen h).bind_nil (Reads.pure _)

/-! ## The components of a record -/

/-- A component of a record. -/
structure RawComponent where
  name : Ref .utf8
  descriptor : Ref .utf8
  attributes : List RawAttribute

namespace RawComponent

def encode (c : RawComponent) : List UInt8 :=
  c.name.encode ++ (c.descriptor.encode ++ encodeCounted RawAttribute.encode c.attributes)

def read : Reader RawComponent := do
  let name ← Reader.ref
  let descriptor ← Reader.ref
  return ⟨name, descriptor, ← Reader.counted RawAttribute.read⟩

/-- The attributes of the component can be counted, and so can the bytes of each. -/
def Fits (c : RawComponent) : Prop := c.attributes.length ≤ 65535 ∧ ∀ a ∈ c.attributes, a.Fits

end RawComponent

theorem reads_component {c : RawComponent} (h : c.Fits) : Reads RawComponent.read c.encode c := by
  refine (Reader.reads_ref c.name).bind ((Reader.reads_ref c.descriptor).bind ?_)
  exact (reads_attributes h.1 h.2).bind_nil (Reads.pure _)

theorem reads_components {cs : List RawComponent} (hlen : cs.length ≤ 65535)
    (h : ∀ c ∈ cs, c.Fits) :
    Reads (Reader.counted RawComponent.read) (encodeCounted RawComponent.encode cs) cs :=
  Reads.counted hlen fun c hc => reads_component (h c hc)

/-! ## Tables that are written as a whole -/

/-- A table is read back if each of its items is. -/
theorem reads_ofEntries {α : Type} {r : Reader α} {encode : α → Except Error (List UInt8)}
    {items : List α} {name : String} {bytes : List UInt8}
    (h : CountedTable.ofEntries name .two (items.map encode) = .ok bytes)
    (hitems : ∀ a ∈ items, ∀ body, encode a = .ok body → Reads r body a) :
    Reads (Reader.counted r) bytes items := by
  obtain ⟨bodies, hbodies, hlen, rfl⟩ := CountedTable.ofEntries_eq_ok h
  have hlengths : items.length = bodies.length := by
    simpa using congrArg List.length hbodies
  have hall : List.Forall₂ (fun a body => Reads r body a) items bodies :=
    CountedTable.forall₂_of_map_encode hbodies fun a ha body hbody _ => hitems a ha body hbody
  rw [← hlengths] at hlen ⊢
  exact Reads.counted_of_forall₂ hlen hall

theorem reads_ofList {α : Type} {r : Reader α} {encode : α → List UInt8} {items : List α}
    {name : String} {bytes : List UInt8}
    (h : CountedTable.ofList name .two encode items = .ok bytes)
    (hitems : ∀ a ∈ items, Reads r (encode a) a) : Reads (Reader.counted r) bytes items := by
  refine reads_ofEntries h fun a ha body hbody => ?_
  cases hbody
  exact hitems a ha

end JvmClass
