import JvmClass.Proofs.Attribute.Annotations
import JvmClass.Proofs.Remap.Effect

/-!
# Annotations that move

Annotations refer to the pool by their types, by the names of their elements and by the values of
these, at any depth.  Reading copies all of these in order.  How deep a value may be nested is
bounded by the bytes that there are, and no value is nested deeper than it has bytes itself.

## Key results

- `AnnotationEntry.tracks_read`, `TypeAnnotationEntry.tracks_read`: what was read once is read again
  by copying its constants
- `ElementValue.rereads_of_encode`: the bytes of a value are read as the value
- `TypeAnnotationEntry.rereads_of_encode`: so are those of an annotation of a type
-/

namespace JvmClass

open Remapper
open AttributeWriter (onPool)
open JvmClass.Action (except_bind_eq_ok)

/-! ## Copying annotations -/

mutual

/-- Copy the constants of a value in order. -/
def ElementValue.copied (view : View) : ElementValue → Action Error Pool ElementValue
  | .constant kind value => do
    return .constant kind (← Pool.copyAs kind.constantTag view value.slot)
  | .enumConstant type name => do
    let type ← Pool.copyAs .utf8 view type.slot
    return .enumConstant type (← Pool.copyAs .utf8 view name.slot)
  | .nested entry => do return .nested (← entry.copied view)
  | .array values => do return .array (← copiedValues view values)

/-- Copy the constants of an annotation in order. -/
def AnnotationEntry.copied (view : View) : AnnotationEntry → Action Error Pool AnnotationEntry
  | .mk type elements => do
    let type ← Pool.copyAs .utf8 view type.slot
    return .mk type (← copiedPairs view elements)

def ElementPair.copied (view : View) : ElementPair → Action Error Pool ElementPair
  | .mk name value => do
    let name ← Pool.copyAs .utf8 view name.slot
    return .mk name (← value.copied view)

def copiedValues (view : View) : List ElementValue → Action Error Pool (List ElementValue)
  | [] => return []
  | value :: rest => do
    let value ← value.copied view
    return value :: (← copiedValues view rest)

def copiedPairs (view : View) : List ElementPair → Action Error Pool (List ElementPair)
  | [] => return []
  | pair :: rest => do
    let pair ← pair.copied view
    return pair :: (← copiedPairs view rest)

end

theorem copiedValues_eq (view : View) (values : List ElementValue) :
    copiedValues view values = values.mapM (ElementValue.copied view) := by
  induction values with
  | nil => rfl
  | cons value rest ih => rw [copiedValues, ih, List.mapM_cons]

theorem copiedPairs_eq (view : View) (elements : List ElementPair) :
    copiedPairs view elements = elements.mapM (ElementPair.copied view) := by
  induction elements with
  | nil => rfl
  | cons pair rest ih => rw [copiedPairs, ih, List.mapM_cons]

theorem ElementKind.ofByte?_byteOf (kind : ElementKind) : ofByte? kind.byteOf = some kind := by
  cases kind <;> rfl

/-! ## Annotations that were read -/

theorem AnnotationEntry.tracks_readWith (source : View) {value : Action Error Remapper ElementValue}
    (h : Tracks value ElementValue.copied) : Tracks (readWith source value) copied := by
  have hpair : Tracks (do
      let name ← ref .utf8 source
      return .mk name (← value) : Action Error Remapper ElementPair) ElementPair.copied :=
    (tracks_ref .utf8 source).map₂ h fun _ _ _ => by rw [ElementPair.copied]
  refine (tracks_ref .utf8 source).map₂ hpair.counted fun view type elements => ?_
  rw [copied, copiedPairs_eq]

theorem ElementValue.tracks_readNested (source : View) (depth : Nat) :
    Tracks (readNested source depth) copied := by
  induction depth with
  | zero => exact nofun
  | succ depth ih =>
    refine .bind_plain plain_u1 fun tag => ?_
    split
    · exact (tracks_ref _ source).map fun _ _ => by rw [copied]
    · split
      · exact (tracks_ref .utf8 source).map₂ (tracks_ref .utf8 source) fun _ _ _ => by rw [copied]
      split
      · exact (AnnotationEntry.tracks_readWith source ih).map fun _ _ => by rw [copied]
      split
      · exact ih.counted.map fun _ _ => by rw [copied, copiedValues_eq]
      · exact tracks_fail _

theorem AnnotationEntry.tracks_read (source : View) : Tracks (read source) copied := by
  have hvalue : Tracks (ElementValue.read source) ElementValue.copied :=
    .bind_plain (plain_inspect fun input => .ok input.size) fun depth =>
      ElementValue.tracks_readNested source depth
  exact tracks_readWith source hvalue

/-! ## Bytes of annotations -/

variable (view : View)

/-- A value of an element is reread if the reader is allowed to go deep enough. -/
def ElementValue.RereadsNested (value : ElementValue) : Prop :=
  ∀ depth bytes, value.encode = .ok bytes → bytes.length ≤ depth →
    Rereads (readNested view depth) bytes (onPool (value.copied view))

/-- An annotation is reread with a reader that rereads the values of its elements. -/
theorem AnnotationEntry.rereads_readWith {value : Action Error Remapper ElementValue}
    {entry : AnnotationEntry} {bytes : List UInt8} (h : entry.encode = .ok bytes)
    (hvalue : ∀ pair ∈ entry.elements, ∀ body, pair.value.encode = .ok body →
      body.length ≤ bytes.length → Rereads value body (onPool (pair.value.copied view))) :
    Rereads (readWith view value) bytes (onPool (entry.copied view)) := by
  cases entry with
  | mk type elements =>
    rw [encode, encodePairs_eq] at h
    obtain ⟨table, htable, h⟩ := except_bind_eq_ok.mp h
    cases h
    rw [List.length_append] at hvalue
    have hpairs : Rereads (counted do
        let name ← ref .utf8 view
        return .mk name (← value)) table (onPool (elements.mapM (ElementPair.copied view))) := by
      refine Rereads.table htable fun pair hpair body hbody hle => ?_
      cases pair with
      | mk name element =>
        rw [ElementPair.encode] at hbody
        obtain ⟨inner, hinner, hbody⟩ := except_bind_eq_ok.mp hbody
        cases hbody
        rw [List.length_append] at hle
        rw [ElementPair.copied]
        refine (rereads_ref view name).bind_onPool fun name' => ?_
        exact (hvalue _ hpair inner hinner (by omega)).map _
    rw [copied, copiedPairs_eq]
    exact (rereads_ref view type).bind_onPool fun type' => hpairs.map _

theorem ElementValue.rereadsNested (value : ElementValue) : value.RereadsNested view := by
  induction value using nestedInduction with
  | constant kind value =>
    rintro (_ | depth) bytes h hdepth <;> cases h
    · cases hdepth
    · refine (rereads_u1 kind.byteOf).bind_known ?_
      rw [ElementKind.ofByte?_byteOf, copied]
      exact (rereads_ref view value).map _
  | enumConstant type name =>
    rintro (_ | depth) bytes h hdepth <;> cases h
    · cases hdepth
    · rw [copied]
      refine (rereads_u1 enumTag).bind_known ?_
      exact (rereads_ref view type).bind_onPool fun type' => (rereads_ref view name).map _
  | nested type elements ih =>
    intro depth bytes h hdepth
    rw [encode] at h
    obtain ⟨inner, hinner, h⟩ := except_bind_eq_ok.mp h
    cases h
    obtain _ | depth := depth
    · cases hdepth
    · rw [List.length_cons] at hdepth
      have hentry := AnnotationEntry.rereads_readWith view hinner fun pair hpair body hbody hle =>
        ih pair hpair depth body hbody (by omega)
      rw [copied]
      exact (rereads_u1 nestedTag).bind_known (hentry.map _)
  | array values ih =>
    intro depth bytes h hdepth
    rw [encode, encodeValues_eq] at h
    obtain ⟨table, htable, h⟩ := except_bind_eq_ok.mp h
    cases h
    obtain _ | depth := depth
    · cases hdepth
    · rw [List.length_cons] at hdepth
      have htable := Rereads.table htable fun value hvalue body hbody hle =>
        ih value hvalue depth body hbody (by omega)
      rw [copied, copiedValues_eq]
      exact (rereads_u1 arrayTag).bind_known (htable.map _)

/-- The bytes of a value are read as the value, with its constants copied. -/
theorem ElementValue.rereads_of_encode {value : ElementValue} {bytes : List UInt8}
    (h : value.encode = .ok bytes) :
    Rereads (read view) bytes (onPool (value.copied view)) := by
  intro input rest hsize
  have hdepth : bytes.length ≤ input.size := Nat.le_trans (Nat.le_add_right _ _) hsize
  have hnested := value.rereadsNested view input.size bytes h hdepth
  have hstart : Does (Action.inspect fun r => .ok r.input.size) { input with rest := bytes ++ rest }
      { input with rest := bytes ++ rest } (pure input.size) :=
    does_inspect (f := fun input => .ok input.size) rfl
  exact hstart.bind_known (hnested input rest hsize)

theorem AnnotationEntry.rereads_of_encode {entry : AnnotationEntry} {bytes : List UInt8}
    (h : entry.encode = .ok bytes) :
    Rereads (read view) bytes (onPool (entry.copied view)) :=
  rereads_readWith view h fun _ _ _ hbody _ => ElementValue.rereads_of_encode view hbody

/-! ## Where types stand -/

theorem LocalRange.plain_read : Plain read :=
  plain_u2.bind fun _ => plain_u2.bind fun _ => plain_u2.bind fun _ => plain_pure _

theorem TypePathStep.plain_read : Plain read :=
  plain_u1.bind fun _ => plain_u1.bind fun _ => plain_pure _

theorem TargetInfo.plain_read (targetType : UInt8) : Plain (read targetType) := by
  unfold read
  split
  case h_1 | h_2 | h_9 => exact plain_u1.bind fun _ => plain_pure _
  case h_4 | h_5 => exact plain_u1.bind fun _ => plain_u1.bind fun _ => plain_pure _
  case h_6 | h_7 | h_8 => exact plain_pure _
  case h_11 | h_12 => exact LocalRange.plain_read.counted.bind fun _ => plain_pure _
  case h_3 | h_10 | h_13 | h_14 | h_15 | h_16 | h_17 => exact plain_u2.bind fun _ => plain_pure _
  case h_18 | h_19 | h_20 | h_21 | h_22 =>
    exact plain_u2.bind fun _ => plain_u1.bind fun _ => plain_pure _
  case h_23 => exact plain_fail _

/-- The target is written the way that targets of the given kind are. -/
def TargetInfo.Fits (targetType : UInt8) : TargetInfo → Prop
  | typeParameter _ => targetType = 0x00 ∨ targetType = 0x01
  | supertype _ => targetType = 0x10
  | typeParameterBound _ _ => targetType = 0x11 ∨ targetType = 0x12
  | empty => targetType = 0x13 ∨ targetType = 0x14 ∨ targetType = 0x15
  | formalParameter _ => targetType = 0x16
  | throws _ => targetType = 0x17
  | localVariable _ => targetType = 0x40 ∨ targetType = 0x41
  | «catch» _ => targetType = 0x42
  | offset _ => targetType = 0x43 ∨ targetType = 0x44 ∨ targetType = 0x45 ∨ targetType = 0x46
  | typeArgument _ _ =>
    targetType = 0x47 ∨ targetType = 0x48 ∨ targetType = 0x49 ∨ targetType = 0x4a ∨
      targetType = 0x4b

/-- The kind of a target decides how it is read. -/
theorem TargetInfo.fits_of_read {targetType : UInt8} {target : TargetInfo} {r r' : Remapper}
    (h : (read targetType).exec r = (.ok target, r')) : target.Fits targetType := by
  unfold read at h
  split at h
  case h_6 | h_7 | h_8 =>
    cases h
    simp [Fits]
  case h_23 => cases h
  case h_4 | h_5 | h_18 | h_19 | h_20 | h_21 | h_22 =>
    obtain ⟨_, _, -, h⟩ := Action.exec_bind_eq_ok.mp h
    obtain ⟨_, _, -, h⟩ := Action.exec_bind_eq_ok.mp h
    cases h
    simp [Fits]
  all_goals
    obtain ⟨_, _, -, h⟩ := Action.exec_bind_eq_ok.mp h
    cases h
    simp [Fits]

theorem LocalRange.rereads_encode (range : LocalRange) :
    Rereads read range.encode (pure range) := by
  unfold encode
  rw [List.append_assoc]
  refine (rereads_u2 range.start).bind_known ((rereads_u2 range.length).bind_known ?_)
  exact (rereads_u2 range.index).map_known (LocalRange.mk range.start range.length)

theorem TypePathStep.rereads_encode (step : TypePathStep) : Rereads read step.encode (pure step) :=
  (rereads_u1 step.kind).bind_known
    ((rereads_u1 step.argument).map_known (TypePathStep.mk step.kind))

theorem LocalRange.rereads_table {name : String} {ranges : List LocalRange} {bytes : List UInt8}
    (h : CountedTable.ofList name .two encode ranges = .ok bytes) :
    Rereads (counted read) bytes (pure ranges) := by
  rw [← onPool_mapM_pure ranges]
  refine Rereads.table h fun range _ body hbody _ => ?_
  cases hbody
  exact range.rereads_encode

/-- The bytes of a target are read as the target, if they are read as of its kind. -/
theorem TargetInfo.rereads_of_encode {targetType : UInt8} {target : TargetInfo}
    {bytes : List UInt8} (h : target.encode = .ok bytes) (hfits : target.Fits targetType) :
    Rereads (read targetType) bytes (pure target) := by
  cases target with
  | typeParameter index =>
    cases h
    rcases hfits with rfl | rfl <;> exact (rereads_u1 index).map_known typeParameter
  | supertype index =>
    cases h
    cases hfits
    exact (rereads_u2 index).map_known supertype
  | typeParameterBound parameter bound =>
    cases h
    have hbound := (rereads_u1 bound).map_known (typeParameterBound parameter)
    rcases hfits with rfl | rfl <;> exact (rereads_u1 parameter).bind_known hbound
  | empty =>
    cases h
    rcases hfits with rfl | rfl | rfl <;> exact rereads_pure empty
  | formalParameter index =>
    cases h
    cases hfits
    exact (rereads_u1 index).map_known formalParameter
  | throws index =>
    cases h
    cases hfits
    exact (rereads_u2 index).map_known throws
  | localVariable ranges =>
    have hranges := (LocalRange.rereads_table h).map_known localVariable
    rcases hfits with rfl | rfl <;> exact hranges
  | «catch» handler =>
    cases h
    cases hfits
    exact (rereads_u2 handler).map_known TargetInfo.catch
  | offset position =>
    cases h
    rcases hfits with rfl | rfl | rfl | rfl <;> exact (rereads_u2 position).map_known offset
  | typeArgument position index =>
    cases h
    have hindex := (rereads_u1 index).map_known (typeArgument position)
    rcases hfits with rfl | rfl | rfl | rfl | rfl <;>
      exact (rereads_u2 position).bind_known hindex

/-- A path is reread behind the byte that counts its steps. -/
theorem TypePathStep.rereads_path {name : String} {path : List TypePathStep} {bytes : List UInt8}
    (h : CountedTable.ofList name .one encode path = .ok bytes) :
    ∃ (count : UInt8) (body : List UInt8), bytes = count :: body ∧
      Rereads (Action.times count.toNat read) body (pure path) := by
  obtain ⟨bodies, hbodies, hlen, rfl⟩ := CountedTable.ofEntries_eq_ok h
  have hlengths : path.length = bodies.length := by
    simpa using congrArg List.length hbodies
  have hle : bodies.length ≤ 255 := hlen
  have hcount : (UInt8.ofNat bodies.length).toNat = path.length := by
    rw [UInt8.toNat_ofNat']
    omega
  refine ⟨UInt8.ofNat bodies.length, bodies.flatten, by simp [BigEndian.encode, CountWidth.bytes],
    ?_⟩
  rw [hcount, ← onPool_mapM_pure path, onPool_mapM]
  refine Rereads.times (CountedTable.forall₂_of_map_encode hbodies fun step _ body hbody _ => ?_)
  cases hbody
  exact step.rereads_encode

/-- Copy the constants of an annotation of a type. -/
def TypeAnnotationEntry.copied (view : View) (a : TypeAnnotationEntry) :
    Action Error Pool TypeAnnotationEntry := do
  return { a with entry := ← a.entry.copied view }

theorem TypeAnnotationEntry.tracks_read (source : View) : Tracks (read source) copied := by
  refine .bind_plain plain_u1 fun targetType => ?_
  refine .bind_plain (TargetInfo.plain_read targetType) fun target => ?_
  refine .bind_plain plain_u1 fun count => ?_
  refine .bind_plain (TypePathStep.plain_read.times _) fun path => ?_
  exact (AnnotationEntry.tracks_read source).map fun _ _ => rfl

/-- The target of an annotation that was read is of its kind. -/
theorem TypeAnnotationEntry.fits_of_read {source : View} {a : TypeAnnotationEntry}
    {r r' : Remapper} (h : (read source).exec r = (.ok a, r')) : a.target.Fits a.targetType := by
  obtain ⟨targetType, _, -, h⟩ := Action.exec_bind_eq_ok.mp h
  obtain ⟨target, _, htarget, h⟩ := Action.exec_bind_eq_ok.mp h
  obtain ⟨count, _, -, h⟩ := Action.exec_bind_eq_ok.mp h
  obtain ⟨path, _, -, h⟩ := Action.exec_bind_eq_ok.mp h
  obtain ⟨entry, _, -, h⟩ := Action.exec_bind_eq_ok.mp h
  cases h
  exact TargetInfo.fits_of_read htarget

/-- The bytes of an annotation of a type are read as the annotation, with its constants copied. -/
theorem TypeAnnotationEntry.rereads_of_encode {a : TypeAnnotationEntry} {bytes : List UInt8}
    (h : a.encode = .ok bytes) (hfits : a.target.Fits a.targetType) :
    Rereads (read view) bytes (onPool (a.copied view)) := by
  obtain ⟨target, htarget, h⟩ := except_bind_eq_ok.mp h
  obtain ⟨path, hpath, h⟩ := except_bind_eq_ok.mp h
  obtain ⟨entry, hentry, h⟩ := except_bind_eq_ok.mp h
  cases h
  obtain ⟨count, steps, rfl, hsteps⟩ := TypePathStep.rereads_path hpath
  have hentry := AnnotationEntry.rereads_of_encode view hentry
  rw [List.append_assoc]
  refine (rereads_u1 a.targetType).bind_known ?_
  refine (TargetInfo.rereads_of_encode htarget hfits).bind_known ?_
  refine (rereads_u1 count).bind_known (hsteps.bind_known ?_)
  exact hentry.map _

end JvmClass
