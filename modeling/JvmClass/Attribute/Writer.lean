import JvmClass.Attribute.Basic
import JvmClass.Code.Assembler
import JvmClass.Pool.Intern

/-!
# Attribute tables

An `AttributeWriter` is a table of attributes under construction at the end of a buffer, together
with the constant pool that its attributes refer to.  Every operation adds one attribute or none: a
refused one leaves the table as it was, though constants that it needed may have been added to the
pool.

The code of a method and the components of a record have attributes themselves.  These are added by
an action that is passed in, after the name of the outer attribute has been added to the pool; their
table stands at the end of the buffer that will be linked in as the outer attribute.
-/

namespace JvmClass

/-- A table of attributes under construction, and the pool that it refers to. -/
structure AttributeWriter where
  pool : Pool
  table : CountedTable

/-- The components of a record under construction, and the pool that they refer to. -/
structure RecordWriter where
  pool : Pool
  components : CountedTable

namespace AttributeWriter

/-- The largest number of bytes of one attribute. -/
def maxInfo : Nat := 4294967295

/-- Start an empty table at the end of a buffer. -/
def start (pool : Pool) (buffer : Buffer := .empty) : AttributeWriter :=
  ⟨pool, .start "attributes" .two buffer⟩

instance : Inhabited AttributeWriter := ⟨start default⟩

/-- Do something to the pool. -/
def onPool {α : Type} (act : Action Error Pool α) : Action Error AttributeWriter α :=
  act.onPart (fun w => (w.pool, w.table)) (fun pool table => ⟨pool, table⟩)

/-- Why an attribute cannot be added, if it cannot. -/
def refusal? (table : CountedTable) (info : Buffer) : Option Error :=
  if table.isFull then some table.overflow
  else if maxInfo < info.size then some (.tableOverflow "attribute_info" maxInfo)
  else none

/-- Add an attribute by the slot of its name and a buffer with its bytes. -/
def addBuffer (name : Ref .utf8) (info : Buffer) : Action Error AttributeWriter Unit :=
  .ofFn fun w =>
    match refusal? w.table info with
    | some e => (.error e, w)
    | none =>
      (.ok (), { w with table := w.table.link (name.encode ++ BigEndian.encode 4 info.size) info })

/-- Add an attribute by the slot of its name and its bytes. -/
def addRaw (name : Ref .utf8) (info : List UInt8) : Action Error AttributeWriter Unit :=
  addBuffer name (Buffer.empty.append info)

/-- Add an attribute by its name and its bytes. -/
def addNamed (name : String) (info : List UInt8) : Action Error AttributeWriter Unit := do
  addRaw (← onPool (Pool.utf8 name)) info

/-- Add a predefined attribute. -/
def add (a : Attribute) : Action Error AttributeWriter Unit := do
  let name ← onPool (Pool.utf8 a.name)
  -- An attribute without an encoding is refused only here, so that its name stays in the pool.
  let info ← Action.inspect fun w => a.encode w.pool.version
  addRaw name info

/-- Add the generic signature of the class or member. -/
def addSignature (text : String) : Action Error AttributeWriter Unit := do
  add (.signature (← onPool (Pool.utf8 text)))

/-- Add the name of the source file. -/
def addSourceFile (name : String) : Action Error AttributeWriter Unit := do
  add (.sourceFile (← onPool (Pool.utf8 name)))

/-- Collect the attributes that an action adds to an empty table at the end of a buffer, whether the
action fails or not. -/
def collect (act : Action Error AttributeWriter Unit) (buffer : Buffer := .empty) :
    Action Error Pool (Except Error Unit × CountedTable) :=
  .ofFn fun pool =>
    match act.exec (start pool buffer) with
    | (r, ⟨pool, table⟩) => (.ok (r, table), pool)

/-- A buffer that goes on with the attributes that an action adds, if all of them could be added. -/
def extend (buffer : Buffer) (act : Action Error AttributeWriter Unit) :
    Action Error Pool Buffer := do
  let (result, table) ← collect act buffer
  Action.ofExcept result
  return table.buffer

/-- The code of a method up to its attributes. -/
def encodeBody (maxStack maxLocals : UInt16) (body : MethodBody) : Except Error Buffer := do
  if Assembler.maxCodeSize < body.code.length then
    throw (.codeOverflow body.code.length)
  let handlers ← encodeExceptionTable body.handlers
  let head := BigEndian.u2 maxStack ++ BigEndian.u2 maxLocals
    ++ BigEndian.encode 4 body.code.length
  return ((Buffer.empty.append head).append body.code).append handlers

/-- The name of the attribute that holds the code of a method, and the code up to its attributes. -/
def beginCode (maxStack maxLocals : UInt16) (body : MethodBody) :
    Action Error Pool (Ref .utf8 × Buffer) := do
  let name ← Pool.utf8 "Code"
  return (name, ← Action.ofExcept (encodeBody maxStack maxLocals body))

/-- Add the code of a method, with the attributes that `nested` adds. -/
def addCode (maxStack maxLocals : UInt16) (body : MethodBody)
    (nested : Action Error AttributeWriter Unit) : Action Error AttributeWriter Unit := do
  -- The name comes first in the pool, before anything that the nested attributes need.
  let (name, code) ← onPool (beginCode maxStack maxLocals body)
  addBuffer name (← onPool (extend code nested))

end AttributeWriter

namespace RecordWriter

/-- Start without components. -/
def start (pool : Pool) : RecordWriter := ⟨pool, .start "Record" .two .empty⟩

def onPool {α : Type} (act : Action Error Pool α) : Action Error RecordWriter α :=
  act.onPart (fun w => (w.pool, w.components)) (fun pool components => ⟨pool, components⟩)

def onComponents {α : Type} (act : Action Error CountedTable α) : Action Error RecordWriter α :=
  act.onPart (fun w => (w.components, w.pool)) (fun components pool => ⟨pool, components⟩)

/-- Begin a component with its name and descriptor. -/
def beginComponent (name descriptor : String) : Action Error RecordWriter Unit := do
  let name ← onPool (Pool.utf8 name)
  let descriptor ← onPool (Pool.utf8 descriptor)
  -- The entry counts from here on, whatever becomes of its attributes.
  onComponents CountedTable.beginEntry
  onComponents (CountedTable.append (name.encode ++ descriptor.encode))

/-- Write the attributes of a component behind it.  When one is refused, those before it stay. -/
def endComponent (attributes : Action Error AttributeWriter Unit) :
    Action Error RecordWriter Unit :=
  .ofFn fun w =>
    match w with
    | ⟨pool, components⟩ =>
      -- The table of attributes starts behind the entry, in the buffer of the components.
      match attributes.exec (.start pool components.buffer) with
      | (r, ⟨pool, table⟩) => (r, ⟨pool, { components with buffer := table.buffer }⟩)

/-- Add a component, with the attributes that `attributes` adds.  When these fail, the entry stays
as far as it was written. -/
def addComponent (name descriptor : String) (attributes : Action Error AttributeWriter Unit) :
    Action Error RecordWriter Unit := do
  beginComponent name descriptor
  endComponent attributes

/-- A buffer with the components that an action adds. -/
def collect (act : Action Error RecordWriter Unit) : Action Error Pool Buffer :=
  .ofFn fun pool =>
    match act.exec (start pool) with
    | (.ok (), ⟨pool, components⟩) => (.ok components.buffer, pool)
    | (.error e, ⟨pool, _⟩) => (.error e, pool)

end RecordWriter

/-- Add the components of a record, as `components` adds them. -/
def AttributeWriter.addRecord (components : Action Error RecordWriter Unit) :
    Action Error AttributeWriter Unit := do
  let name ← onPool (Pool.utf8 "Record")
  addBuffer name (← onPool (RecordWriter.collect components))

end JvmClass
