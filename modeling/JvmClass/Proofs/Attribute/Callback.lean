import JvmClass.Attribute.Writer
import JvmClass.Proofs.Attribute.Grammar
import JvmClass.Proofs.Pool.Meaning
import Mathlib.Data.List.Forall2

/-!
# Callbacks that add attributes

Attributes are added by callbacks: a `TableCallback` makes calls on a table of attributes and its
pool, sees whether each of them succeeded, and goes on as it likes, so that it may stop at a
failure, pass it on or ignore it.  The calls that add the code of a method or the components of a
record take callbacks themselves.

`perform` is what a callback does.  `added` is what it has added: one attribute for every call that
succeeded, with the attributes that the callbacks of that call have added inside.  `Shows` compares
this with the attributes of a class file.

## Key results

- `exec_call`, `exec_onPool`: a callback goes on from where its first call ends
- `Shows.mono`: what attributes show stays while the pool grows
-/

namespace JvmClass

/-! ## Callbacks -/

mutual

/-- A call on a table of attributes. -/
inductive TableCall
  | raw (name : Ref .utf8) (info : List UInt8)
  | named (name : String) (info : List UInt8)
  | predefined (a : Attribute)
  | signature (text : String)
  | sourceFile (name : String)
  | code (maxStack maxLocals : UInt16) (body : MethodBody) (nested : TableCallback)
  | record (components : RecordCallback)

/-- What is done to a table of attributes. -/
inductive TableCallback
  | finish (result : Except Error Unit)
  | call (first : TableCall) (next : Except Error Unit → TableCallback)
  | onPool (first : Pool.Call) (next : Except Error Slot → TableCallback)

/-- What is done to the components of a record. -/
inductive RecordCallback
  | finish (result : Except Error Unit)
  | component (name descriptor : String) (attributes : TableCallback)
    (next : Except Error Unit → RecordCallback)
  | onPool (first : Pool.Call) (next : Except Error Slot → RecordCallback)

end

mutual

def TableCall.perform : TableCall → Action Error AttributeWriter Unit
  | .raw name info => AttributeWriter.addRaw name info
  | .named name info => AttributeWriter.addNamed name info
  | .predefined a => AttributeWriter.add a
  | .signature text => AttributeWriter.addSignature text
  | .sourceFile name => AttributeWriter.addSourceFile name
  | .code maxStack maxLocals body nested =>
    AttributeWriter.addCode maxStack maxLocals body nested.perform
  | .record components => AttributeWriter.addRecord components.perform

def TableCallback.perform : TableCallback → Action Error AttributeWriter Unit
  | .finish result => Action.ofExcept result
  | .call first next => do
    let r ← first.perform.outcome
    (next r).perform
  | .onPool first next => do
    let r ← (AttributeWriter.onPool first.perform).outcome
    (next r).perform

def RecordCallback.perform : RecordCallback → Action Error RecordWriter Unit
  | .finish result => Action.ofExcept result
  | .component name descriptor attributes next => do
    let r ← (RecordWriter.addComponent name descriptor attributes.perform).outcome
    (next r).perform
  | .onPool first next => do
    let r ← (RecordWriter.onPool first.perform).outcome
    (next r).perform

end

theorem TableCallback.exec_call (first : TableCall) (next : Except Error Unit → TableCallback)
    (w : AttributeWriter) :
    (call first next).perform.exec w
      = (next (first.perform.exec w).1).perform.exec (first.perform.exec w).2 := by
  rw [perform, Action.exec_bind, Action.exec_outcome]

theorem TableCallback.exec_onPool (first : Pool.Call) (next : Except Error Slot → TableCallback)
    (w : AttributeWriter) :
    (onPool first next).perform.exec w
      = (next (first.perform.exec w.pool).1).perform.exec
        ⟨(first.perform.exec w.pool).2, w.table⟩ := by
  rw [perform, Action.exec_bind, Action.exec_outcome]
  rfl

theorem RecordCallback.exec_component (name descriptor : String) (attributes : TableCallback)
    (next : Except Error Unit → RecordCallback) (w : RecordWriter) :
    (component name descriptor attributes next).perform.exec w
      = (next
          ((RecordWriter.addComponent name descriptor attributes.perform).exec w).1).perform.exec
        ((RecordWriter.addComponent name descriptor attributes.perform).exec w).2 := by
  rw [perform, Action.exec_bind, Action.exec_outcome]

theorem RecordCallback.exec_onPool (first : Pool.Call) (next : Except Error Slot → RecordCallback)
    (w : RecordWriter) :
    (onPool first next).perform.exec w
      = (next (first.perform.exec w.pool).1).perform.exec
        ⟨(first.perform.exec w.pool).2, w.components⟩ := by
  rw [perform, Action.exec_bind, Action.exec_outcome]
  rfl

/-! ## What callbacks have added -/

mutual

/-- What an attribute says. -/
inductive AttributeContent
  | raw (name : Ref .utf8) (info : List UInt8)
  | named (name : String) (info : List UInt8)
  | predefined (a : Attribute)
  /-- An attribute that is a string. -/
  | text (name text : String)
  | code (head : CodeHead) (nested : List AttributeContent)
  | record (components : List ComponentContent)

/-- What a component of a record says. -/
inductive ComponentContent
  | mk (name descriptor : String) (attributes : List AttributeContent)

end

mutual

/-- What a call adds if it succeeds. -/
def TableCall.content : TableCall → AttributeWriter → AttributeContent
  | .raw name info, _ => .raw name info
  | .named name info, _ => .named name info
  | .predefined a, _ => .predefined a
  | .signature text, _ => .text "Signature" text
  | .sourceFile name, _ => .text "SourceFile" name
  | .code maxStack maxLocals body nested, w =>
    .code ⟨maxStack, maxLocals, body.code, body.handlers⟩
      (match (AttributeWriter.beginCode maxStack maxLocals body).exec w.pool with
        | (.ok (_, code), pool) => nested.added (.start pool code)
        | (.error _, _) => [])
  | .record components, w =>
    .record (components.added (.start ((Pool.utf8 "Record").exec w.pool).2))

/-- What the calls of a callback that succeed add. -/
def TableCallback.added : TableCallback → AttributeWriter → List AttributeContent
  | .finish _, _ => []
  | .call first next, w =>
    (match first.perform.exec w with
      | (.ok (), _) => [first.content w]
      | (.error _, _) => [])
    ++ (next (first.perform.exec w).1).added (first.perform.exec w).2
  | .onPool first next, w =>
    (next (first.perform.exec w.pool).1).added ⟨(first.perform.exec w.pool).2, w.table⟩

/-- The components that a callback begins, with the attributes that theirs add. -/
def RecordCallback.added : RecordCallback → RecordWriter → List ComponentContent
  | .finish _, _ => []
  | .component name descriptor attributes next, w =>
    (match (RecordWriter.beginComponent name descriptor).exec w with
      | (.ok (), w') => [⟨name, descriptor, attributes.added (.start w'.pool w'.components.buffer)⟩]
      | (.error _, _) => [])
    ++ (next ((RecordWriter.addComponent name descriptor attributes.perform).exec w).1).added
      ((RecordWriter.addComponent name descriptor attributes.perform).exec w).2
  | .onPool first next, w =>
    (next (first.perform.exec w.pool).1).added ⟨(first.perform.exec w.pool).2, w.components⟩

end

/-! ## What attributes show -/

namespace Pool

mutual

/-- With the constants of the pool, an attribute of a class file says what it has to. -/
inductive Shows (p : Pool) : AttributeContent → RawAttribute → Prop
  | raw (name : Ref .utf8) (info : List UInt8) : Shows p (.raw name info) ⟨name, info⟩
  | named {i : Ref .utf8} {name : String} {info : List UInt8} (hname : p.text i = .ok name) :
    Shows p (.named name info) ⟨i, info⟩
  | predefined {i : Ref .utf8} {a : Attribute} {info : List UInt8} (hname : p.text i = .ok a.name)
    (hinfo : a.encode p.version = .ok info) : Shows p (.predefined a) ⟨i, info⟩
  | text {i j : Ref .utf8} {name text : String} (hname : p.text i = .ok name)
    (htext : p.text j = .ok text) : Shows p (.text name text) ⟨i, j.encode⟩
  | code {i : Ref .utf8} {info : List UInt8} {head : CodeHead} {nested : List AttributeContent}
    {as : List RawAttribute} (hname : p.text i = .ok "Code")
    (hinfo : Reader.whole CodeInfo.read info = some ⟨head, as⟩)
    (hnested : List.Forall₂ (Shows p) nested as) : Shows p (.code head nested) ⟨i, info⟩
  | record {i : Ref .utf8} {info : List UInt8} {components : List ComponentContent}
    {cs : List RawComponent} (hname : p.text i = .ok "Record")
    (hinfo : Reader.whole (Reader.counted RawComponent.read) info = some cs)
    (hcomponents : List.Forall₂ (ShowsComponent p) components cs) :
    Shows p (.record components) ⟨i, info⟩

/-- The same for a component of a record. -/
inductive ShowsComponent (p : Pool) : ComponentContent → RawComponent → Prop
  | mk {i j : Ref .utf8} {name descriptor : String} {attributes : List AttributeContent}
    {as : List RawAttribute} (hname : p.text i = .ok name)
    (hdescriptor : p.text j = .ok descriptor) (hattributes : List.Forall₂ (Shows p) attributes as) :
    ShowsComponent p ⟨name, descriptor, attributes⟩ ⟨i, j, as⟩

end

/-- The second pool has the version of the first one and all of its strings. -/
structure TextsStay (p q : Pool) : Prop where
  text_eq : ∀ i s, p.text i = .ok s → q.text i = .ok s
  version_eq : q.version = p.version

theorem Grows.textsStay {p q : Pool} (h : p.Grows q) : p.TextsStay q where
  text_eq _ _ := h.text_eq
  version_eq := h.version_eq

variable {p q : Pool}

mutual

/-- An attribute goes on to say what it says. -/
theorem Shows.mono (h : p.TextsStay q) {x : AttributeContent} {a : RawAttribute} :
    p.Shows x a → q.Shows x a
  | .raw name info => .raw name info
  | .named hname => .named (h.text_eq _ _ hname)
  | .predefined hname hinfo => .predefined (h.text_eq _ _ hname) (h.version_eq ▸ hinfo)
  | .text hname hs => .text (h.text_eq _ _ hname) (h.text_eq _ _ hs)
  | .code hname hinfo hnested => .code (h.text_eq _ _ hname) hinfo (showsAll_mono h hnested)
  | .record hname hinfo hcs => .record (h.text_eq _ _ hname) hinfo (showsComponents_mono h hcs)

theorem ShowsComponent.mono (h : p.TextsStay q) {x : ComponentContent} {c : RawComponent} :
    p.ShowsComponent x c → q.ShowsComponent x c
  | .mk hname hdescriptor has =>
    .mk (h.text_eq _ _ hname) (h.text_eq _ _ hdescriptor) (showsAll_mono h has)

theorem showsAll_mono (h : p.TextsStay q) {xs : List AttributeContent} {as : List RawAttribute} :
    List.Forall₂ p.Shows xs as → List.Forall₂ q.Shows xs as
  | .nil => .nil
  | .cons hx hxs => .cons (hx.mono h) (showsAll_mono h hxs)

theorem showsComponents_mono (h : p.TextsStay q) {xs : List ComponentContent}
    {cs : List RawComponent} :
    List.Forall₂ p.ShowsComponent xs cs → List.Forall₂ q.ShowsComponent xs cs
  | .nil => .nil
  | .cons hx hxs => .cons (hx.mono h) (showsComponents_mono h hxs)

end

end Pool

end JvmClass
