import JvmClass.Pool.Intern

/-!
# Reading constants and copying them between pools

A `View` of a pool gives the constant at a slot with all references followed.  That is all that
copying needs to know about the pool that a constant comes from.
-/

namespace JvmClass

/-- Read access to the constants of a class file. -/
abbrev View := Slot → Except Error Constant

namespace Pool

/-- The name of the class at a slot. -/
def className (p : Pool) (i : Ref .class) : Except Error String := do
  match ← p.record i.slot with
  | .named .class name => p.text name
  | r => throw (.badKind i.slot .class r.tag)

/-- The name and the descriptor at a slot. -/
def nameAndType (p : Pool) (i : Ref .nameAndType) : Except Error (String × String) := do
  match ← p.record i.slot with
  | .nameAndType name descriptor => return (← p.text name, ← p.text descriptor)
  | r => throw (.badKind i.slot .nameAndType r.tag)

/-- The member that a record refers to. -/
def member (p : Pool) (owner : Ref .class) (nameAndType : Ref .nameAndType) :
    Except Error Member := do
  let (name, descriptor) ← p.nameAndType nameAndType
  return { owner := ← p.className owner, name, descriptor }

/-- A method handle from the constant at the slot of its member. -/
def handleOf (kind : HandleKind) (target : Slot) : Constant → Except Error Constant
  | .member memberKind member => .ok (.methodHandle kind memberKind member)
  | c => .error (.badKind target .methodRef c.tag)

/-- The constant of a record.  A method handle takes its member from `handled`. -/
def spellOut (p : Pool) (handled : View) : Record → Except Error Constant
  | .utf8 text => return .utf8 text
  | .integer value => return .integer value
  | .float bits => return .float bits
  | .long value => return .long value
  | .double bits => return .double bits
  | .named kind name => return .named kind (← p.text name)
  | .member kind owner nameAndType => return .member kind (← p.member owner nameAndType)
  | .nameAndType name descriptor => return .nameAndType (← p.text name) (← p.text descriptor)
  -- the only record that refers to another without a fixed kind
  | .methodHandle kind target => do handleOf kind target (← handled target)
  | .dynamic kind bootstrap nameAndType => do
    let (name, descriptor) ← p.nameAndType nameAndType
    return .dynamic kind bootstrap name descriptor

/-- The constant at a slot that may hold anything but a method handle. -/
def plainConstant (p : Pool) : View := fun i => do
  p.spellOut (fun _ => throw (.badKind i .methodRef .methodHandle)) (← p.record i)

/-- The constant at a slot.  A method handle refers to a member, never to another handle, so that
one look further is enough. -/
def constant (p : Pool) : View := fun i => do p.spellOut p.plainConstant (← p.record i)

/-- Copy a constant and whatever it refers to out of another pool; nothing stays nothing. -/
def copy (view : View) (i : Slot) : Action Error Pool Slot := do
  if i = 0 then
    return 0
  else
    intern .shared (← Action.ofExcept (view i))

/-- Copy a constant that has to be of the given kind. -/
def copyAs (kind : Tag) (view : View) (i : Slot) : Action Error Pool (Ref kind) := do
  let j ← copy view i
  if j = 0 then
    return .none
  else
    Action.inspect fun p => p.cast kind j

end Pool

end JvmClass
