import JvmClass.Proofs.Remap.Effect

/-!
# Stack map frames that move

A frame refers to the pool by the classes in it.  Reading frames copies these in order; frames that
were read for one pool and written there are read for any other as if from where they came, although
the short forms of the bytes are used wherever there is one.

## Key results

- `StackMapFrame.tracks_read`: a frame that was read once is read again by copying its classes
- `StackMapFrame.written_of_encode`: how a frame is written
- `StackMapFrame.rereads_of_encode`: the bytes of a frame are read again in the same way
-/

namespace JvmClass

open Remapper
open AttributeWriter (onPool)
open JvmClass.Action (except_bind_eq_ok)

/-! ## Verification types -/

namespace VerificationType

/-- Copy the class of a type, if it has one. -/
def copied (view : View) : VerificationType → Action Error Pool VerificationType
  | object type => do return object (← Pool.copyAs .class view type.slot)
  | type => return type

theorem tracks_read (source : View) : Tracks (read source) copied := by
  refine .bind_plain plain_u1 fun tag => ?_
  split
  case h_8 => exact (tracks_ref .class source).map fun _ _ => rfl
  case h_9 => exact .bind_plain plain_u2 fun offset => tracks_pure fun _ => rfl
  case h_10 => exact tracks_fail _
  all_goals exact tracks_pure fun _ => rfl

theorem rereads_encode (view : View) (type : VerificationType) :
    Rereads (read view) type.encode (onPool (type.copied view)) := by
  cases type with
  | object type => exact (rereads_u1 7).bind_known ((rereads_ref view type).map _)
  | uninitialized offset =>
    exact (rereads_u1 8).bind_known ((rereads_u2 offset).map_known uninitialized)
  | top => exact (rereads_u1 0).bind_known (rereads_pure top)
  | integer => exact (rereads_u1 1).bind_known (rereads_pure integer)
  | float => exact (rereads_u1 2).bind_known (rereads_pure float)
  | double => exact (rereads_u1 3).bind_known (rereads_pure double)
  | long => exact (rereads_u1 4).bind_known (rereads_pure long)
  | null => exact (rereads_u1 5).bind_known (rereads_pure null)
  | uninitializedThis => exact (rereads_u1 6).bind_known (rereads_pure uninitializedThis)

end VerificationType

/-! ## Frames -/

namespace StackMapFrame

/-- Copy the classes of a frame in order. -/
def copied (view : View) : StackMapFrame → Action Error Pool StackMapFrame
  | same delta => return same delta
  | oneStack delta entry => do return oneStack delta (← entry.copied view)
  | chop delta count => return chop delta count
  | append delta locals => do
    return append delta (← locals.mapM (VerificationType.copied view))
  | full delta locals stack => do
    let locals ← locals.mapM (VerificationType.copied view)
    return full delta locals (← stack.mapM (VerificationType.copied view))

theorem tracks_read (source : View) : Tracks (read source) copied := by
  have htype := VerificationType.tracks_read source
  refine .bind_plain plain_u1 fun kind => ?_
  split
  · exact tracks_pure fun _ => rfl
  split
  · exact htype.map fun _ _ => rfl
  split
  · exact tracks_fail _
  split
  · exact .bind_plain plain_u2 fun delta => htype.map fun _ _ => rfl
  split
  · exact .bind_plain plain_u2 fun delta => tracks_pure fun _ => rfl
  split
  · exact .bind_plain plain_u2 fun delta => tracks_pure fun _ => rfl
  split
  · exact .bind_plain plain_u2 fun delta => (htype.times _).map fun _ _ => rfl
  · exact .bind_plain plain_u2 fun delta => htype.counted.map₂ htype.counted fun _ _ _ => rfl

/-! ### Bytes of frames -/

/-- A short distance is the first byte of a frame that changes nothing. -/
theorem same_of_lt {delta : UInt16} (h : delta < 64) :
    delta.toUInt8 < 64 ∧ delta.toUInt8.toUInt16 = delta := by
  have hlt : delta.toNat < 64 := h
  have hkind : delta.toUInt8.toNat = delta.toNat := by
    rw [UInt16.toNat_toUInt8]
    omega
  exact ⟨UInt8.lt_iff_toNat_lt.mpr (hkind ▸ hlt),
    by rw [← UInt16.toNat_inj, UInt8.toNat_toUInt16, hkind]⟩

/-- A short distance is told from the first byte of a frame with one stack entry. -/
theorem oneStack_of_lt {delta : UInt16} (h : delta < 64) :
    ¬delta.toUInt8 + 64 < 64 ∧ delta.toUInt8 + 64 < 128 ∧
      (delta.toUInt8 + 64 - 64).toUInt16 = delta := by
  have hlt : delta.toNat < 64 := h
  have hbit : (64 : UInt8).toNat = 64 := rfl
  have hend : (128 : UInt8).toNat = 128 := rfl
  have hkind : (delta.toUInt8 + 64).toNat = delta.toNat + 64 := by
    rw [UInt8.toNat_add, UInt16.toNat_toUInt8, hbit]
    omega
  refine ⟨?_, ?_, ?_⟩
  · rw [UInt8.lt_iff_toNat_lt, hkind, hbit]
    omega
  · rw [UInt8.lt_iff_toNat_lt, hkind, hend]
    omega
  · rw [UInt8.add_sub_cancel, ← UInt16.toNat_inj, UInt8.toNat_toUInt16, UInt16.toNat_toUInt8]
    omega

/-- The number of locals that a frame can lose. -/
theorem count_of_chop {count : UInt8} :
    1 ≤ count ∧ count ≤ 3 ↔ count = 1 ∨ count = 2 ∨ count = 3 := by
  simp only [UInt8.le_iff_toNat_le, ← UInt8.toNat_inj, UInt8.reduceToNat]
  omega

/-- How a frame is written: in the short form, if there is one and the distance fits into it. -/
inductive Written : StackMapFrame → List UInt8 → Prop
  | sameShort {delta : UInt16} (h : delta < 64) : Written (.same delta) [delta.toUInt8]
  | same {delta : UInt16} (h : ¬delta < 64) : Written (.same delta) (251 :: BigEndian.u2 delta)
  | oneStackShort {delta : UInt16} (entry : VerificationType) (h : delta < 64) :
    Written (.oneStack delta entry) ((delta.toUInt8 + 64) :: entry.encode)
  | oneStack {delta : UInt16} (entry : VerificationType) (h : ¬delta < 64) :
    Written (.oneStack delta entry) (247 :: (BigEndian.u2 delta ++ entry.encode))
  | chop (delta : UInt16) {count : UInt8} (h : count = 1 ∨ count = 2 ∨ count = 3) :
    Written (.chop delta count) ((251 - count) :: BigEndian.u2 delta)
  | append (delta : UInt16) {locals : List VerificationType}
    (h : locals.length = 1 ∨ locals.length = 2 ∨ locals.length = 3) :
    Written (.append delta locals) ((251 + UInt8.ofNat locals.length) ::
      (BigEndian.u2 delta ++ locals.flatMap VerificationType.encode))
  | full (delta : UInt16) {locals stack : List VerificationType} (hlocals : locals.length ≤ 65535)
    (hstack : stack.length ≤ 65535) : Written (.full delta locals stack)
      (255 :: (BigEndian.u2 delta ++ encodeCounted VerificationType.encode locals
        ++ encodeCounted VerificationType.encode stack))

theorem written_of_encode {frame : StackMapFrame} {body : List UInt8} (h : frame.encode = .ok body) :
    Written frame body := by
  cases frame with
  | same delta =>
    rw [encode] at h
    split at h
    · cases h
      exact .sameShort ‹_›
    · cases h
      exact .same ‹_›
  | oneStack delta entry =>
    rw [encode] at h
    split at h
    · cases h
      exact .oneStackShort entry ‹_›
    · cases h
      exact .oneStack entry ‹_›
  | chop delta count =>
    rw [encode] at h
    split at h
    · cases h
      exact .chop delta (count_of_chop.mp ‹_›)
    · cases h
  | append delta locals =>
    rw [encode] at h
    split at h
    · rename_i hcount
      cases h
      exact .append delta (by omega)
    · cases h
  | full delta locals stack =>
    obtain ⟨xs, hxs, h⟩ := except_bind_eq_ok.mp h
    obtain ⟨ys, hys, h⟩ := except_bind_eq_ok.mp h
    obtain ⟨hlocals, rfl⟩ := CountedTable.ofList_eq_ok.mp hxs
    obtain ⟨hstack, rfl⟩ := CountedTable.ofList_eq_ok.mp hys
    cases h
    exact .full delta hlocals hstack

theorem Written.encode_eq {frame : StackMapFrame} {body : List UInt8} (h : Written frame body) :
    frame.encode = .ok body := by
  cases h with
  | sameShort h => exact if_pos h
  | same h => exact if_neg h
  | oneStackShort entry h => exact if_pos h
  | oneStack entry h => exact if_neg h
  | chop delta h => exact if_pos (count_of_chop.mpr h)
  | append delta h => exact if_pos (by omega)
  | full delta hlocals hstack =>
    exact except_bind_eq_ok.mpr ⟨_, CountedTable.ofList_eq_ok.mpr ⟨hlocals, rfl⟩,
      except_bind_eq_ok.mpr ⟨_, CountedTable.ofList_eq_ok.mpr ⟨hstack, rfl⟩, rfl⟩⟩

variable (view : View)

private theorem rereads_types (types : List VerificationType) :
    Rereads (Action.times types.length (VerificationType.read view))
      (types.flatMap VerificationType.encode)
      (onPool (types.mapM (VerificationType.copied view))) := by
  have htypes : List.Forall₂ (fun type body => Rereads (VerificationType.read view) body
      (onPool (VerificationType.copied view type))) types (types.map VerificationType.encode) := by
    rw [List.forall₂_map_right_iff]
    exact List.forall₂_same.mpr fun type _ => type.rereads_encode view
  rw [List.flatMap_def, onPool_mapM]
  exact Rereads.times htypes

private theorem rereads_table {types : List VerificationType} (hlen : types.length ≤ 65535) :
    Rereads (counted (VerificationType.read view)) (encodeCounted VerificationType.encode types)
      (onPool (types.mapM (VerificationType.copied view))) := by
  have htable : CountedTable.ofList "" .two VerificationType.encode types = .ok _ :=
    CountedTable.ofList_eq_ok.mpr ⟨hlen, rfl⟩
  refine Rereads.table htable fun type _ body hbody _ => ?_
  cases hbody
  exact type.rereads_encode view

/-- The bytes of a frame are read as the frame, with its classes copied. -/
theorem rereads_of_encode {frame : StackMapFrame} {bytes : List UInt8}
    (h : frame.encode = .ok bytes) : Rereads (read view) bytes (onPool (frame.copied view)) := by
  cases written_of_encode h with
  | @sameShort delta hlt =>
    obtain ⟨hkind, hself⟩ := same_of_lt hlt
    refine (rereads_u1 delta.toUInt8).bind_known ?_
    rw [if_pos hkind, hself]
    exact rereads_pure (same delta)
  | @same delta => exact (rereads_u1 251).bind_known ((rereads_u2 delta).map_known same)
  | @oneStackShort delta entry hlt =>
    obtain ⟨hlow, hhigh, hself⟩ := oneStack_of_lt hlt
    refine (rereads_u1 (delta.toUInt8 + 64)).bind_known ?_
    rw [if_neg hlow, if_pos hhigh, hself]
    exact (entry.rereads_encode view).map _
  | @oneStack delta entry =>
    have htype := entry.rereads_encode view
    exact (rereads_u1 247).bind_known ((rereads_u2 delta).bind_known (htype.map _))
  | chop delta hcount =>
    obtain rfl | rfl | rfl := hcount
    · exact (rereads_u1 250).bind_known ((rereads_u2 delta).map_known fun delta => chop delta 1)
    · exact (rereads_u1 249).bind_known ((rereads_u2 delta).map_known fun delta => chop delta 2)
    · exact (rereads_u1 248).bind_known ((rereads_u2 delta).map_known fun delta => chop delta 3)
  | @append delta locals hlen =>
    have htypes := rereads_types view locals
    obtain hlen | hlen | hlen := hlen <;> rw [hlen] at htypes ⊢
    · exact (rereads_u1 252).bind_known ((rereads_u2 delta).bind_known (htypes.map _))
    · exact (rereads_u1 253).bind_known ((rereads_u2 delta).bind_known (htypes.map _))
    · exact (rereads_u1 254).bind_known ((rereads_u2 delta).bind_known (htypes.map _))
  | full delta hlocals hstack =>
    rw [List.append_assoc]
    refine (rereads_u1 255).bind_known ((rereads_u2 delta).bind_known ?_)
    exact (rereads_table view hlocals).bind_onPool fun locals =>
      (rereads_table view hstack).map _

end StackMapFrame

end JvmClass
