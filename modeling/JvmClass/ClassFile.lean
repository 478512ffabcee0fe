import JvmClass.Attribute.Writer

/-!
# Class files

A `ClassBuilder` puts a class together: its interfaces, its fields and methods, and its attributes,
which all share one constant pool.  A field or method is built on its own and linked into its table
only if all of its attributes could be added; class attributes stay when a later one is refused.
`finish` puts the class file together from the tables.
-/

namespace JvmClass

/-- A class under construction. -/
structure ClassBuilder where
  pool : Pool
  flags : Flags .class
  thisClass : Ref .class
  superClass : Ref .class
  interfaces : Array (Ref .class)
  fields : CountedTable
  methods : CountedTable
  attributes : CountedTable

namespace ClassBuilder

/-- The first bytes of every class file. -/
def magic : List UInt8 := [0xca, 0xfe, 0xba, 0xbe]

/-- The largest number of interfaces. -/
def maxInterfaces : Nat := 65535

/-- The classes that a new class refers to: itself and its superclass, if it has one. -/
def ownClasses (thisClass : String) (superClass : Option String) :
    Action Error Pool (Ref .class × Ref .class) := do
  let this ← Pool.classNamed thisClass
  match superClass with
  | some name => return (this, ← Pool.classNamed name)
  | none => return (this, .none)

/-- Start a class. -/
def start (version : Version) (flags : Flags .class) (thisClass : String)
    (superClass : Option String) : Except Error ClassBuilder :=
  match (ownClasses thisClass superClass).exec (.empty version) with
  | (.ok (thisClass, superClass), pool) =>
    let fields := .start "fields" .two .empty
    let methods := .start "methods" .two .empty
    let attributes := .start "attributes" .two .empty
    .ok { pool, flags, thisClass, superClass, interfaces := #[], fields, methods, attributes }
  | (.error e, _) => .error e

/-- Do something to the pool. -/
def onPool {α : Type} (act : Action Error Pool α) : Action Error ClassBuilder α :=
  .ofFn fun c =>
    match c with
    | ⟨pool, flags, this, super, interfaces, fields, methods, attributes⟩ =>
      match act.exec pool with
      | (r, pool) => (r, ⟨pool, flags, this, super, interfaces, fields, methods, attributes⟩)

/-- Refuse an entry of a table that is full. -/
def ensureRoom (table : ClassBuilder → CountedTable) : Action Error ClassBuilder Unit :=
  .inspect fun c => if (table c).isFull then .error (table c).overflow else .ok ()

/-- Add an interface. -/
def addInterface (name : String) : Action Error ClassBuilder (Ref .class) := do
  -- Room is asked for before the name goes into the pool.
  Action.inspect fun c =>
    if c.interfaces.size < maxInterfaces then .ok ()
    else .error (.tableOverflow "interfaces" maxInterfaces)
  let type ← onPool (Pool.classNamed name)
  modify fun c => { c with interfaces := c.interfaces.push type }
  return type

/-- What stands in a member before its attributes. -/
def beginMember (flags : UInt16) (name descriptor : String) : Action Error Pool Buffer := do
  let name ← Pool.utf8 name
  let descriptor ← Pool.utf8 descriptor
  return Buffer.empty.append (BigEndian.u2 flags ++ name.encode ++ descriptor.encode)

/-- A member with the attributes that `attributes` adds, if all could be added. -/
def buildMember (flags : UInt16) (name descriptor : String)
    (attributes : Action Error AttributeWriter Unit) : Action Error Pool Buffer := do
  let head ← beginMember flags name descriptor
  AttributeWriter.extend head attributes

/-- Add a field. -/
def addField (flags : Flags .field) (name descriptor : String)
    (attributes : Action Error AttributeWriter Unit) : Action Error ClassBuilder Unit := do
  -- What a refused field has put into the pool stays there.
  ensureRoom (·.fields)
  let member ← onPool (buildMember flags.bits name descriptor attributes)
  modify fun c => { c with fields := c.fields.link [] member }

/-- Add a method. -/
def addMethod (flags : Flags .method) (name descriptor : String)
    (attributes : Action Error AttributeWriter Unit) : Action Error ClassBuilder Unit := do
  ensureRoom (·.methods)
  let member ← onPool (buildMember flags.bits name descriptor attributes)
  modify fun c => { c with methods := c.methods.link [] member }

/-- Add attributes of the class itself.  Those added before a refused one stay. -/
def addAttributes (act : Action Error AttributeWriter Unit) : Action Error ClassBuilder Unit :=
  .ofFn fun c =>
    match c with
    | ⟨pool, flags, this, super, interfaces, fields, methods, attributes⟩ =>
      match act.exec ⟨pool, attributes⟩ with
      | (r, ⟨pool, attributes⟩) =>
        (r, ⟨pool, flags, this, super, interfaces, fields, methods, attributes⟩)

/-- The class file, given the bytes of its interfaces. -/
def assemble (c : ClassBuilder) (interfaces : List UInt8) : Buffer :=
  -- The members are linked in as they are, each table behind its own count.
  let head := magic ++ c.pool.version.encode ++ c.pool.encode
    ++ c.flags.encode ++ c.thisClass.encode ++ c.superClass.encode ++ interfaces
  (((Buffer.empty.append head).link c.fields.buffer).link c.methods.buffer).link c.attributes.buffer

/-- The bytes of the class file, if its interfaces can be counted. -/
def finish (c : ClassBuilder) : Except Error (List UInt8) := do
  return (c.assemble (← encodeSequence Ref.encode c.interfaces.toList)).toList

/-- The bytes of the class file, however many interfaces it has. -/
def encode (c : ClassBuilder) : List UInt8 :=
  (c.assemble
    (BigEndian.encode 2 c.interfaces.size ++ c.interfaces.toList.flatMap Ref.encode)).toList

end ClassBuilder

end JvmClass
