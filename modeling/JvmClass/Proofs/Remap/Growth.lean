import JvmClass.Proofs.Attribute.Growth
import JvmClass.Remap.Code

/-!
# Remapping lets the pool grow

Whatever is read from an attribute and copied, the pool that constants are copied to grows and
changes in no other way.

## Key results

- `Remapper.grows_copy`, `Remapper.grows_ref`: copying one constant
- `Remap.grows_nextAttribute`: moving an attribute of the code, with everything in it
-/

namespace JvmClass

open JvmClass.Action (Moves)

variable {α : Type}

namespace Remapper

/-- The pool of the second remapper comes from that of the first by insertions. -/
def Grows (r r' : Remapper) : Prop := r.output.pool.Grows r'.output.pool

instance : Std.Refl Grows := ⟨fun _ => Relation.ReflTransGen.refl⟩

instance : IsTrans Remapper Grows := ⟨fun _ _ _ => Relation.ReflTransGen.trans⟩

theorem grows_fail (fault : AttributeFault) : (fail fault : Action Error Remapper α).Moves Grows :=
  Moves.inspect _

theorem grows_field (width : Nat) : (field width).Moves Grows := by
  intro r
  unfold field
  rw [Action.exec_ofFn]
  split <;> exact Relation.ReflTransGen.refl

theorem grows_bytes (count : Nat) : (bytes count).Moves Grows := by
  intro r
  unfold bytes
  rw [Action.exec_ofFn]
  split <;> exact Relation.ReflTransGen.refl

theorem grows_u1 : u1.Moves Grows := (grows_field 1).map _

theorem grows_u2 : u2.Moves Grows := (grows_field 2).map _

theorem grows_counted {item : Action Error Remapper α} (h : item.Moves Grows) :
    (counted item).Moves Grows :=
  .bind grows_u2 fun _ => h.times _

theorem grows_onOutput {act : Action Error AttributeWriter α}
    (h : act.Moves AttributeWriter.Grows) :
    (onOutput act).Moves Grows :=
  h.onPart fun _ _ ht => ht

theorem grows_copy (source : View) (i : Slot) : (copy source i).Moves Grows :=
  have hcopy : (Pool.copy source i).Moves Pool.Grows :=
    (Pool.shares_copy source i).mono fun _ _ => Pool.Shares.grows
  grows_onOutput (AttributeWriter.grows_onPool hcopy)

theorem grows_ref (kind : Tag) (source : View) : (ref kind source).Moves Grows := by
  have hcopy : ∀ i, (Pool.copyAs kind source i).Moves Pool.Grows :=
    fun i => (Pool.shares_copyAs kind source i).mono fun _ _ => Pool.Shares.grows
  exact Moves.bind grows_u2 fun i => grows_onOutput (AttributeWriter.grows_onPool (hcopy i))

theorem grows_reading {act : Action Error Remapper α} (h : act.Moves Grows) (input : Input) :
    (reading input act).Moves Grows := by
  have hact : (do let a ← act; finish; return a : Action Error Remapper α).Moves Grows :=
    .bind h fun _ => .bind (Moves.inspect _) fun _ => Moves.pure _
  exact hact.onPart fun _ _ ht => ht

end Remapper

open Remapper

/-! ## Stack map frames -/

theorem VerificationType.grows_read (source : View) : (read source).Moves Grows := by
  refine Moves.bind grows_u1 fun tag => ?_
  split
  case h_8 => exact Moves.bind (grows_ref _ _) fun _ => Moves.pure _
  case h_9 => exact Moves.bind grows_u2 fun _ => Moves.pure _
  case h_10 => exact grows_fail _
  all_goals exact Moves.pure _

theorem StackMapFrame.grows_read (source : View) : (read source).Moves Grows := by
  have htype := VerificationType.grows_read source
  refine Moves.bind grows_u1 fun kind => ?_
  split
  · exact Moves.pure _
  split
  · exact Moves.bind htype fun _ => Moves.pure _
  split
  · exact grows_fail _
  split
  · exact Moves.bind grows_u2 fun _ => .bind htype fun _ => Moves.pure _
  split
  · exact Moves.bind grows_u2 fun _ => Moves.pure _
  split
  · exact Moves.bind grows_u2 fun _ => Moves.pure _
  split
  · exact Moves.bind grows_u2 fun _ => .bind (htype.times _) fun _ => Moves.pure _
  · refine Moves.bind grows_u2 fun _ => .bind (grows_counted htype) fun _ => ?_
    exact .bind (grows_counted htype) fun _ => Moves.pure _

/-! ## Annotations -/

theorem AnnotationEntry.grows_readWith (source : View) {value : Action Error Remapper ElementValue}
    (h : value.Moves Grows) : (readWith source value).Moves Grows := by
  have hpair : (do
      let name ← ref .utf8 source
      return .mk name (← value) : Action Error Remapper ElementPair).Moves Grows :=
    .bind (grows_ref _ _) fun _ => .bind h fun _ => Moves.pure _
  exact Moves.bind (grows_ref _ _) fun _ => .bind (grows_counted hpair) fun _ => Moves.pure _

theorem ElementValue.grows_readNested (source : View) (depth : Nat) :
    (readNested source depth).Moves Grows := by
  induction depth with
  | zero => exact Moves.inspect _
  | succ depth ih =>
    refine Moves.bind grows_u1 fun tag => ?_
    split
    · exact Moves.bind (grows_ref _ _) fun _ => Moves.pure _
    · split
      · exact Moves.bind (grows_ref _ _) fun _ => .bind (grows_ref _ _) fun _ => Moves.pure _
      split
      · exact Moves.bind (AnnotationEntry.grows_readWith source ih) fun _ => Moves.pure _
      split
      · exact Moves.bind (grows_counted ih) fun _ => Moves.pure _
      · exact grows_fail _

theorem AnnotationEntry.grows_read (source : View) : (read source).Moves Grows :=
  grows_readWith source (.bind (Moves.inspect _) fun _ => ElementValue.grows_readNested source _)

theorem LocalRange.grows_read : read.Moves Grows :=
  .bind grows_u2 fun _ => .bind grows_u2 fun _ => .bind grows_u2 fun _ => Moves.pure _

theorem TargetInfo.grows_read (targetType : UInt8) : (read targetType).Moves Grows := by
  unfold read
  split
  case h_1 | h_2 | h_9 => exact Moves.bind grows_u1 fun _ => Moves.pure _
  case h_4 | h_5 => exact Moves.bind grows_u1 fun _ => .bind grows_u1 fun _ => Moves.pure _
  case h_6 | h_7 | h_8 => exact Moves.pure _
  case h_11 | h_12 => exact Moves.bind (grows_counted LocalRange.grows_read) fun _ => Moves.pure _
  case h_3 | h_10 | h_13 | h_14 | h_15 | h_16 | h_17 =>
    exact Moves.bind grows_u2 fun _ => Moves.pure _
  case h_18 | h_19 | h_20 | h_21 | h_22 =>
    exact Moves.bind grows_u2 fun _ => .bind grows_u1 fun _ => Moves.pure _
  case h_23 => exact grows_fail _

theorem TypePathStep.grows_read : read.Moves Grows :=
  .bind grows_u1 fun _ => .bind grows_u1 fun _ => Moves.pure _

theorem TypeAnnotationEntry.grows_read (source : View) : (read source).Moves Grows := by
  refine Moves.bind grows_u1 fun _ => .bind (TargetInfo.grows_read _) fun _ => ?_
  refine .bind grows_u1 fun _ => .bind (TypePathStep.grows_read.times _) fun _ => ?_
  exact .bind (AnnotationEntry.grows_read source) fun _ => Moves.pure _

namespace Remap

/-! ## Attributes of the code -/

theorem grows_lineNumber : lineNumber.Moves Grows :=
  .bind grows_u2 fun _ => .bind grows_u2 fun _ => Moves.pure _

theorem grows_localVariable (source : View) : (localVariable source).Moves Grows := by
  refine Moves.bind grows_u2 fun _ => .bind grows_u2 fun _ => .bind (grows_ref _ _) fun _ => ?_
  exact .bind (grows_ref _ _) fun _ => .bind grows_u2 fun _ => Moves.pure _

theorem grows_of_known? {source : View} {name : String} {act : Action Error Remapper Attribute}
    (h : known? source name = some act) : act.Moves Grows := by
  have hlines := grows_counted grows_lineNumber
  have hlocals := grows_counted (grows_localVariable source)
  have hframes := grows_counted (StackMapFrame.grows_read source)
  have hannotations := grows_counted (TypeAnnotationEntry.grows_read source)
  unfold known? at h
  split at h
  · cases h; exact hlines.map _
  split at h
  · cases h; exact hlocals.map _
  split at h
  · cases h; exact hlocals.map _
  split at h
  · cases h; exact hframes.map _
  split at h
  · cases h; exact hannotations.map _
  split at h
  · cases h; exact hannotations.map _
  · cases h

theorem grows_nestedAttribute (source : View) (name : String) (info : List UInt8) :
    (nestedAttribute source name info).Moves Grows := by
  unfold nestedAttribute
  split
  · rename_i read hread
    refine Moves.bind (grows_reading (grows_of_known? hread) _) fun a => ?_
    exact grows_onOutput (AttributeWriter.grows_add a)
  · exact grows_onOutput (AttributeWriter.grows_addNamed name info)

theorem grows_nextAttribute (source : View) : (nextAttribute source).Moves Grows := by
  refine Moves.bind grows_u2 fun _ => .bind (grows_field _) fun _ =>
    .bind (grows_bytes _) fun _ => ?_
  exact .bind (Moves.ofExcept _) fun _ => grows_nestedAttribute _ _ _

end Remap

end JvmClass
