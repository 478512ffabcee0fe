import JvmClass.Attribute.Writer
import JvmClass.Proofs.Pool.Growth

/-!
# Adding attributes lets the pool grow

Whatever is done to a table of attributes, its constant pool grows and changes in no other way.

## Key results

- `AttributeWriter.grows_add`, `AttributeWriter.grows_addNamed`: adding one attribute
- `AttributeWriter.grows_addCode`, `AttributeWriter.grows_addRecord`: attributes with others inside
-/

namespace JvmClass

open JvmClass.Action (Moves)

variable {α : Type}

namespace AttributeWriter

/-- The pool of the second writer comes from that of the first by insertions. -/
def Grows (w w' : AttributeWriter) : Prop := w.pool.Grows w'.pool

instance : Std.Refl Grows := ⟨fun _ => Relation.ReflTransGen.refl⟩

instance : IsTrans AttributeWriter Grows := ⟨fun _ _ _ => Relation.ReflTransGen.trans⟩

theorem grows_onPool {act : Action Error Pool α} (h : act.Moves Pool.Grows) :
    (onPool act).Moves Grows :=
  h.onPart fun _ _ ht => ht

theorem grows_utf8 (text : String) : (onPool (Pool.utf8 text)).Moves Grows :=
  grows_onPool (Pool.places_internUtf8 _ _).grows

theorem grows_addBuffer (name : Ref .utf8) (info : Buffer) : (addBuffer name info).Moves Grows := by
  intro w
  unfold addBuffer
  rw [Action.exec_ofFn]
  split
  · exact Relation.ReflTransGen.refl
  · exact Relation.ReflTransGen.refl

theorem grows_addRaw (name : Ref .utf8) (info : List UInt8) : (addRaw name info).Moves Grows :=
  grows_addBuffer _ _

theorem grows_addNamed (name : String) (info : List UInt8) : (addNamed name info).Moves Grows :=
  .bind (grows_utf8 name) fun _ => grows_addRaw _ _

theorem grows_add (a : Attribute) : (add a).Moves Grows :=
  .bind (grows_utf8 _) fun _ => .bind (Moves.inspect _) fun _ => grows_addRaw _ _

theorem grows_addSignature (text : String) : (addSignature text).Moves Grows :=
  .bind (grows_utf8 _) fun _ => grows_add _

theorem grows_addSourceFile (name : String) : (addSourceFile name).Moves Grows :=
  .bind (grows_utf8 _) fun _ => grows_add _

theorem grows_extend (buffer : Buffer) {act : Action Error AttributeWriter Unit}
    (h : act.Moves Grows) : (extend buffer act).Moves Pool.Grows := by
  -- The pool is handed over and taken back, whether the action fails or not.
  have hcollect : (collect act buffer).Moves Pool.Grows := fun pool => h (start pool buffer)
  exact .bind hcollect fun _ => .bind (Moves.ofExcept _) fun _ => Moves.pure _

theorem grows_beginCode (maxStack maxLocals : UInt16) (body : MethodBody) :
    (beginCode maxStack maxLocals body).Moves Pool.Grows :=
  .bind (Pool.places_internUtf8 _ _).grows fun _ =>
    .bind (Moves.ofExcept _) fun _ => Moves.pure _

theorem grows_addCode (maxStack maxLocals : UInt16) (body : MethodBody)
    {nested : Action Error AttributeWriter Unit} (h : nested.Moves Grows) :
    (addCode maxStack maxLocals body nested).Moves Grows := by
  refine Moves.bind (grows_onPool (grows_beginCode _ _ _)) fun _ => ?_
  exact .bind (grows_onPool (grows_extend _ h)) fun _ => grows_addBuffer _ _

end AttributeWriter

namespace RecordWriter

/-- The pool of the second writer comes from that of the first by insertions. -/
def Grows (w w' : RecordWriter) : Prop := w.pool.Grows w'.pool

instance : Std.Refl Grows := ⟨fun _ => Relation.ReflTransGen.refl⟩

instance : IsTrans RecordWriter Grows := ⟨fun _ _ _ => Relation.ReflTransGen.trans⟩

theorem grows_onPool {act : Action Error Pool α} (h : act.Moves Pool.Grows) :
    (onPool act).Moves Grows :=
  h.onPart fun _ _ ht => ht

theorem grows_onComponents (act : Action Error CountedTable α) : (onComponents act).Moves Grows :=
  fun _ => Relation.ReflTransGen.refl

theorem grows_beginComponent (name descriptor : String) :
    (beginComponent name descriptor).Moves Grows := by
  have hutf8 : ∀ text, (onPool (Pool.utf8 text)).Moves Grows :=
    fun text => grows_onPool (Pool.places_internUtf8 _ _).grows
  refine Moves.bind (hutf8 _) fun _ => .bind (hutf8 _) fun _ => ?_
  exact .bind (grows_onComponents _) fun _ => grows_onComponents _

theorem grows_endComponent {attributes : Action Error AttributeWriter Unit}
    (h : attributes.Moves AttributeWriter.Grows) : (endComponent attributes).Moves Grows :=
  fun w => h (.start w.pool w.components.buffer)

theorem grows_addComponent (name descriptor : String)
    {attributes : Action Error AttributeWriter Unit} (h : attributes.Moves AttributeWriter.Grows) :
    (addComponent name descriptor attributes).Moves Grows :=
  .bind (grows_beginComponent _ _) fun _ => grows_endComponent h

theorem grows_collect {act : Action Error RecordWriter Unit} (h : act.Moves Grows) :
    (collect act).Moves Pool.Grows := by
  intro pool
  have hact : pool.Grows (act.exec (start pool)).2.pool := h (start pool)
  unfold collect
  rw [Action.exec_ofFn]
  split <;> simpa only [*] using hact

end RecordWriter

theorem AttributeWriter.grows_addRecord {components : Action Error RecordWriter Unit}
    (h : components.Moves RecordWriter.Grows) : (addRecord components).Moves Grows :=
  .bind (grows_utf8 _) fun _ =>
    .bind (grows_onPool (RecordWriter.grows_collect h)) fun _ => grows_addBuffer _ _

end JvmClass
