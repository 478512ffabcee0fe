import JvmClass.Pool.Basic

/-!
# Adding constants to a pool

A constant that refers to others is added after them: its strings, class, name and descriptor are
always shared, and only the constant itself is placed as asked.  What a refused constant needed
stays in the pool.

Some kinds of constants need a recent enough class file, and a method handle has to fit its member.
-/

namespace JvmClass

/-- The first version of the class file format with constants of a kind. -/
def Tag.since? : Tag → Option Version
  | methodHandle | methodType | invokeDynamic => some .java7
  | module | package => some .java9
  | dynamic => some .java11
  | _ => none

/-- Can a method handle of this kind refer to a member of that kind? -/
def HandleKind.acceptsTag (version : Version) : HandleKind → Tag → Bool
  | getField, kind | getStatic, kind | putField, kind | putStatic, kind => kind == .fieldRef
  | invokeVirtual, kind | newInvokeSpecial, kind => kind == .methodRef
  | invokeStatic, kind | invokeSpecial, kind =>
    kind == .methodRef || kind == .interfaceMethodRef && decide (Version.java8 ≤ version)
  | invokeInterface, kind => kind == .interfaceMethodRef

/-- Can a method handle of this kind refer to a member of that name?  Only constructors are made by
`newInvokeSpecial`, and they and class initializers are called in no other way. -/
def HandleKind.acceptsName : HandleKind → String → Bool
  | newInvokeSpecial, name => name == "<init>"
  | invokeVirtual, name | invokeStatic, name | invokeSpecial, name | invokeInterface, name =>
    name != "<init>" && name != "<clinit>"
  | getField, _ | getStatic, _ | putField, _ | putStatic, _ => true

namespace Pool

/-- Refuse a kind of constant that the version of the class file does not have. -/
def require (kind : Tag) : Action Error Pool Unit :=
  .inspect fun p =>
    match kind.since? with
    | some since => if p.version < since then .error (.unsupported kind p.version) else .ok ()
    | none => .ok ()

def internUtf8 (how : Placement) (text : String) : Action Error Pool (Ref .utf8) := do
  return ⟨← insert how (.utf8 text)⟩

/-- A string to refer to. -/
def utf8 (text : String) : Action Error Pool (Ref .utf8) := internUtf8 .shared text

def internNamed (how : Placement) (kind : NamedKind) (name : String) :
    Action Error Pool (Ref kind.tag) := do
  require kind.tag
  let name ← utf8 name
  return ⟨← insert how (.named kind name)⟩

/-- A class to refer to, by its binary name. -/
def classNamed (name : String) : Action Error Pool (Ref .class) := internNamed .shared .class name

/-- The class whose name is at a slot. -/
def classAt (name : Ref .utf8) : Action Error Pool (Ref .class) := do
  return ⟨← insert .shared (.named .class name)⟩

def nameAndTypeAt (how : Placement) (name descriptor : Ref .utf8) :
    Action Error Pool (Ref .nameAndType) := do
  return ⟨← insert how (.nameAndType name descriptor)⟩

def internNameAndType (how : Placement) (name descriptor : String) :
    Action Error Pool (Ref .nameAndType) := do
  let name ← utf8 name
  let descriptor ← utf8 descriptor
  nameAndTypeAt how name descriptor

def memberAt (how : Placement) (kind : MemberKind) (owner : Ref .class)
    (nameAndType : Ref .nameAndType) : Action Error Pool (Ref kind.tag) := do
  return ⟨← insert how (.member kind owner nameAndType)⟩

def internMember (how : Placement) (kind : MemberKind) (member : Member) :
    Action Error Pool (Ref kind.tag) := do
  -- The class comes first in the pool, then the name with the descriptor, then the member.
  let owner ← classNamed member.owner
  let nameAndType ← internNameAndType .shared member.name member.descriptor
  memberAt how kind owner nameAndType

/-- The kind of the record at a slot and, if it is a member, the name of the member. -/
def memberName (p : Pool) (target : Slot) : Except Error (Tag × String) := do
  match ← p.record target with
  | .member kind _ nameAndType =>
    match ← p.record nameAndType.slot with
    | .nameAndType name _ => return (kind.tag, ← p.text name)
    | r => throw (.badKind nameAndType.slot .nameAndType r.tag)
  | r => return (r.tag, "")

/-- The record of a method handle to the member at a slot, if they fit each other. -/
def handleRecord (p : Pool) (kind : HandleKind) (target : Slot) : Except Error Record := do
  let (tag, name) ← p.memberName target
  if kind.acceptsTag p.version tag && kind.acceptsName name then
    return .methodHandle kind target
  else
    throw (.invalidHandle kind tag name p.version)

/-- A method handle to the member at a slot. -/
def handleAt (how : Placement) (kind : HandleKind) (target : Slot) :
    Action Error Pool (Ref .methodHandle) := do
  require .methodHandle
  let r ← Action.inspect fun p => p.handleRecord kind target
  return ⟨← insert how r⟩

def internHandle (how : Placement) (kind : HandleKind) (memberKind : MemberKind)
    (member : Member) : Action Error Pool (Ref .methodHandle) := do
  require .methodHandle
  let target ← internMember .shared memberKind member
  handleAt how kind target.slot

def internDynamic (how : Placement) (kind : DynamicKind) (bootstrap : UInt16)
    (name descriptor : String) : Action Error Pool (Ref kind.tag) := do
  require kind.tag
  let nameAndType ← internNameAndType .shared name descriptor
  return ⟨← insert how (.dynamic kind bootstrap nameAndType)⟩

/-- Add a constant and whatever it refers to. -/
def intern (how : Placement) : Constant → Action Error Pool Slot
  | .utf8 text => Ref.slot <$> internUtf8 how text
  | .integer value => insert how (.integer value)
  | .float bits => insert how (.float bits)
  | .long value => insert how (.long value)
  | .double bits => insert how (.double bits)
  | .named kind name => Ref.slot <$> internNamed how kind name
  | .member kind member => Ref.slot <$> internMember how kind member
  | .nameAndType name descriptor => Ref.slot <$> internNameAndType how name descriptor
  | .methodHandle kind memberKind member => Ref.slot <$> internHandle how kind memberKind member
  | .dynamic kind bootstrap name descriptor =>
    Ref.slot <$> internDynamic how kind bootstrap name descriptor

end Pool

end JvmClass
