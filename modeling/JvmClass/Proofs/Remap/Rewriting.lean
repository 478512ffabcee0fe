import JvmClass.Proofs.Pool.Faults
import JvmClass.Proofs.Remap.Composition

/-!
# What was copied can be written

Frames, annotations and entries of tables refer to constants by slots of two bytes, whatever the
slots are.  When their constants are copied, they change in nothing else, so that they have an
encoding afterwards if they had one before, with as many bytes.  All that can be in the way of
copying one is a constant.

## Key results

- `AsLong.ofEntries`: tables of entries that are as long
- `StackMapFrame.delivers_copied`, `TypeAnnotationEntry.delivers_copied`: items of the tables of a
  known form
- `delivers_instructions`: instructions that a listing finds
-/

namespace JvmClass

open Remapper
open JvmClass.Action (delivers_pure delivers_ofExcept)

-- Powers are those of the core library, also where Mathlib brings its own.
attribute [local instance (high)] instPowNat

variable {α β : Type}

/-! ## Encodings of the same length -/

/-- If there is a first encoding, there is a second one, with as many bytes. -/
def AsLong (x x' : Except Error (List UInt8)) : Prop :=
  ∀ bytes, x = .ok bytes → ∃ bytes', x' = .ok bytes' ∧ bytes'.length = bytes.length

theorem asLong_ok {bytes bytes' : List UInt8} (h : bytes'.length = bytes.length) :
    AsLong (.ok bytes) (.ok bytes') := by
  rintro _ ⟨⟩
  exact ⟨bytes', rfl, h⟩

namespace AsLong

theorem refl (x : Except Error (List UInt8)) : AsLong x x := fun bytes h => ⟨bytes, h, rfl⟩

theorem bind {x x' : Except Error (List UInt8)} {k k' : List UInt8 → Except Error (List UInt8)}
    (h : AsLong x x')
    (hk : ∀ bytes bytes' : List UInt8, bytes'.length = bytes.length → AsLong (k bytes) (k' bytes')) :
    AsLong (x >>= k) (x' >>= k') := by
  intro all hall
  obtain ⟨bytes, rfl, hrest⟩ := Action.except_bind_eq_ok.mp hall
  obtain ⟨bytes', rfl, hlen⟩ := h bytes rfl
  exact hk bytes bytes' hlen all hrest

theorem ofEntries (name : String) (width : CountWidth) {xs xs' : List (Except Error (List UInt8))}
    (h : List.Forall₂ AsLong xs xs') :
    AsLong (CountedTable.ofEntries name width xs) (CountedTable.ofEntries name width xs') := by
  intro bytes hbytes
  obtain ⟨bodies, rfl, hlimit, rfl⟩ := CountedTable.ofEntries_eq_ok hbytes
  -- The entries have encodings one by one, which are as long together.
  have hall : ∃ bodies' : List (List UInt8), xs' = bodies'.map .ok ∧
      bodies'.length = bodies.length ∧ bodies'.flatten.length = bodies.flatten.length := by
    clear hbytes hlimit
    rw [List.forall₂_map_left_iff] at h
    induction h with
    | nil => exact ⟨[], rfl, rfl, rfl⟩
    | @cons body x bodies xs hfirst _ ih =>
      obtain ⟨body', rfl, hbody⟩ := hfirst body rfl
      obtain ⟨bodies', rfl, hlen, hflatten⟩ := ih
      refine ⟨body' :: bodies', rfl, congrArg (· + 1) hlen, ?_⟩
      rw [List.flatten_cons, List.flatten_cons, List.length_append, List.length_append, hbody,
        hflatten]
  obtain ⟨bodies', rfl, hlen, hflatten⟩ := hall
  refine ⟨_, CountedTable.ofEntries_map_ok name (hlen ▸ hlimit), ?_⟩
  rw [List.length_append, List.length_append, BigEndian.length_encode, BigEndian.length_encode,
    hflatten]

end AsLong

/-! ## Frames -/

variable (p : Pool)

namespace VerificationType

theorem delivers_copied (type : VerificationType) :
    (type.copied p.constant).Delivers fun type' => type'.encode.length = type.encode.length := by
  cases type with
  | object type =>
    refine (p.delivers_copyAs .class type.slot).bind fun type' _ => delivers_pure ?_
    simp [encode, Ref.encode, BigEndian.u2]
  | _ => exact delivers_pure rfl

/-- The types are as long one by one. -/
abbrev AllAsLong (types types' : List VerificationType) : Prop :=
  List.Forall₂ (fun type type' => type'.encode.length = type.encode.length) types types'

theorem delivers_mapM_copied (types : List VerificationType) :
    (types.mapM (copied p.constant)).Delivers (AllAsLong types) :=
  .mapM fun type _ => delivers_copied p type

theorem AllAsLong.length_flatMap {types types' : List VerificationType}
    (h : AllAsLong types types') :
    (types'.flatMap encode).length = (types.flatMap encode).length := by
  induction h with
  | nil => rfl
  | cons hfirst _ ih => simp only [List.flatMap_cons, List.length_append, hfirst, ih]

theorem AllAsLong.ofList (name : String) {types types' : List VerificationType}
    (h : AllAsLong types types') : AsLong (CountedTable.ofList name .two encode types)
      (CountedTable.ofList name .two encode types') := by
  refine AsLong.ofEntries name .two ?_
  rw [List.forall₂_map_left_iff, List.forall₂_map_right_iff]
  exact h.imp fun _ _ hlen => asLong_ok hlen

end VerificationType

/-- A frame with other classes has the same form. -/
theorem StackMapFrame.delivers_copied (frame : StackMapFrame) :
    (frame.copied p.constant).Delivers fun frame' => AsLong frame.encode frame'.encode := by
  cases frame with
  | same delta => exact delivers_pure (AsLong.refl _)
  | chop delta count => exact delivers_pure (AsLong.refl _)
  -- The distance stays, and with it the choice between a short and a long form.
  | oneStack delta entry =>
    refine (entry.delivers_copied p).bind fun entry' hentry => delivers_pure ?_
    rw [encode, encode]
    split
    · exact asLong_ok (by simp only [List.length_cons, hentry])
    · exact asLong_ok (by simp only [List.length_cons, List.length_append, hentry])
  | append delta locals =>
    refine (VerificationType.delivers_mapM_copied p locals).bind fun locals' hlocals =>
      delivers_pure ?_
    have hbytes := hlocals.length_flatMap
    -- The number of locals is what the first byte says.
    rw [encode, encode, ← hlocals.length_eq]
    split
    · exact asLong_ok (by simp only [List.length_cons, List.length_append, hbytes])
    · intro bytes hbytes
      cases hbytes
  | full delta locals stack =>
    refine (VerificationType.delivers_mapM_copied p locals).bind fun locals' hlocals => ?_
    refine (VerificationType.delivers_mapM_copied p stack).bind fun stack' hstack =>
      delivers_pure ?_
    rw [encode, encode]
    refine (hlocals.ofList "locals").bind fun xs xs' hxs => ?_
    refine (hstack.ofList "stack").bind fun ys ys' hys => asLong_ok ?_
    simp only [List.length_cons, List.length_append, hxs, hys]

/-! ## Annotations -/

/-- References take up as many bytes, whatever they refer to. -/
theorem Ref.length_encode {kind : Tag} (i : Ref kind) : i.encode.length = 2 :=
  BigEndian.length_encode 2 _

-- Values and annotations contain each other, so their proofs do, too; lists of them are gone through
-- in the order in which their constants are copied.
mutual

/-- A value with other constants has the same form. -/
theorem ElementValue.delivers_copied : (value : ElementValue) →
    (value.copied p.constant).Delivers fun value' => AsLong value.encode value'.encode
  | .constant kind value => by
    rw [ElementValue.copied]
    refine (p.delivers_copyAs _ _).bind fun value' _ => delivers_pure (asLong_ok ?_)
    simp only [List.length_cons, Ref.length_encode]
  | .enumConstant type name => by
    rw [ElementValue.copied]
    refine (p.delivers_copyAs _ _).bind fun type' _ => ?_
    refine (p.delivers_copyAs _ _).bind fun name' _ => delivers_pure (asLong_ok ?_)
    simp only [List.length_cons, List.length_append, Ref.length_encode]
  | .nested entry => by
    rw [ElementValue.copied, ElementValue.encode]
    refine (AnnotationEntry.delivers_copied entry).bind fun entry' hentry => delivers_pure ?_
    rw [ElementValue.encode]
    exact hentry.bind fun xs xs' hxs => asLong_ok (congrArg (· + 1) hxs)
  | .array values => by
    rw [ElementValue.copied, ElementValue.encode]
    refine (delivers_copiedValues values).bind fun values' hvalues => delivers_pure ?_
    rw [ElementValue.encode]
    exact (AsLong.ofEntries _ _ hvalues).bind fun xs xs' hxs => asLong_ok (congrArg (· + 1) hxs)

theorem AnnotationEntry.delivers_copied : (entry : AnnotationEntry) →
    (entry.copied p.constant).Delivers fun entry' => AsLong entry.encode entry'.encode
  | .mk type elements => by
    rw [AnnotationEntry.copied, AnnotationEntry.encode]
    refine (p.delivers_copyAs _ _).bind fun type' _ => ?_
    refine (delivers_copiedPairs elements).bind fun elements' helements => delivers_pure ?_
    rw [AnnotationEntry.encode]
    refine (AsLong.ofEntries _ _ helements).bind fun xs xs' hxs => asLong_ok ?_
    simp only [List.length_append, Ref.length_encode, hxs]

theorem ElementPair.delivers_copied : (pair : ElementPair) →
    (pair.copied p.constant).Delivers fun pair' => AsLong pair.encode pair'.encode
  | .mk name value => by
    rw [ElementPair.copied, ElementPair.encode]
    refine (p.delivers_copyAs _ _).bind fun name' _ => ?_
    refine (ElementValue.delivers_copied value).bind fun value' hvalue => delivers_pure ?_
    rw [ElementPair.encode]
    refine hvalue.bind fun xs xs' hxs => asLong_ok ?_
    simp only [List.length_append, Ref.length_encode, hxs]

theorem delivers_copiedValues : (values : List ElementValue) →
    (copiedValues p.constant values).Delivers fun values' =>
      List.Forall₂ AsLong (encodeValues values) (encodeValues values')
  | [] => by
    rw [copiedValues]
    exact delivers_pure .nil
  | value :: rest => by
    rw [copiedValues, encodeValues]
    refine (ElementValue.delivers_copied value).bind fun value' hvalue => ?_
    refine (delivers_copiedValues rest).bind fun rest' hrest => delivers_pure ?_
    rw [encodeValues]
    exact .cons hvalue hrest

theorem delivers_copiedPairs : (elements : List ElementPair) →
    (copiedPairs p.constant elements).Delivers fun elements' =>
      List.Forall₂ AsLong (encodePairs elements) (encodePairs elements')
  | [] => by
    rw [copiedPairs]
    exact delivers_pure .nil
  | pair :: rest => by
    rw [copiedPairs, encodePairs]
    refine (ElementPair.delivers_copied pair).bind fun pair' hpair => ?_
    refine (delivers_copiedPairs rest).bind fun rest' hrest => delivers_pure ?_
    rw [encodePairs]
    exact .cons hpair hrest

end

theorem TypeAnnotationEntry.delivers_copied (a : TypeAnnotationEntry) :
    (a.copied p.constant).Delivers fun a' => AsLong a.encode a'.encode := by
  refine (a.entry.delivers_copied p).bind fun entry' hentry => delivers_pure ?_
  refine (AsLong.refl a.target.encode).bind fun target target' htarget => ?_
  refine (AsLong.refl _).bind fun path path' hpath => ?_
  refine hentry.bind fun xs xs' hxs => asLong_ok ?_
  simp only [List.length_cons, List.length_append, htarget, hpath, hxs]

namespace Remap

/-! ## Tables of the code -/

theorem delivers_copiedLocal (v : LocalVariable) :
    (copiedLocal p.constant v).Delivers fun v' => AsLong (.ok v.encode) (.ok v'.encode) := by
  refine (p.delivers_copyAs _ _).bind fun name' _ => ?_
  refine (p.delivers_copyAs _ _).bind fun type' _ => delivers_pure (asLong_ok ?_)
  simp only [LocalVariable.encode, List.length_append, Ref.length_encode]

theorem delivers_copiedHandler (out : List UInt8) :
    (copiedHandler p.constant out).Delivers fun _ => True :=
  (p.delivers_copyAs _ _).bind fun _ _ => delivers_pure trivial

/-! ## Instructions -/

theorem delivers_instruction (i : CodedInstruction) :
    (instruction p.constant i).Delivers fun _ => True := by
  have hcopy : ∀ i, (copy p.constant i).Delivers fun _ => True :=
    fun i => ((p.delivers_copy i).onPart _ _).onPart _ _
  unfold instruction
  split
  case h_5 =>
    refine (hcopy _).bind fun slot _ => ?_
    -- The slot may be too large for the operand.
    split
    · exact delivers_pure trivial
    · exact delivers_ofExcept rfl
  case h_6 => exact delivers_pure trivial
  all_goals exact (hcopy _).bind fun _ _ => delivers_pure trivial

/-- Code that a listing takes apart to its end. -/
theorem delivers_instructions {code : List UInt8} {is : List CodedInstruction}
    (h : listing code = is.map .ok) : (instructions p.constant code).Delivers fun _ => True := by
  -- The listing has an instruction at every place and no fault at any.
  have hparts : ((listing code).mapM fun i => do
      instruction p.constant (← Action.ofExcept i)).Delivers
        (List.Forall₂ (fun _ _ => True) (listing code)) := by
    refine .mapM fun i hi => ?_
    rw [h] at hi
    obtain ⟨i, -, rfl⟩ := List.mem_map.mp hi
    exact delivers_instruction p i
  exact hparts.bind fun _ _ => delivers_pure trivial

end Remap

end JvmClass
