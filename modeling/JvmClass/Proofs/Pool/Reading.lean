import JvmClass.Proofs.Pool.Growth
import JvmClass.Proofs.Text.ModifiedUtf8

/-!
# Reading a constant pool

A record is read by its tag byte, and a pool by the number of its slots: a record that takes up two
slots is followed by an unusable one, for which there are no bytes.  `Lists p rs` says that the
slots of a pool are those of a list of records whose strings fit their length fields; every pool
that grows from an empty one is of this form, and so its bytes are read back as its slots.

## Key results

- `reads_record`: a record is read back
- `Lists.grows`: a pool that grows lists its records
- `Lists.reads_encode`: the slots of a pool are read back
-/

namespace JvmClass

open Reader (Reads)

/-! ## Records -/

namespace Record

/-- Read a string behind its length. -/
def readText : Reader String := do
  let n ← Reader.uint 2
  let bytes ← Reader.take n
  match ModifiedUtf8.decode bytes with
  | some text => return text
  | none => failure

/-- Read what follows a tag byte. -/
def readPayload : Tag → Reader Record
  | .utf8 => .utf8 <$> readText
  | .integer => (fun n => .integer (UInt32.ofNat n).toInt32) <$> Reader.uint 4
  | .float => (fun n => .float (UInt32.ofNat n)) <$> Reader.uint 4
  | .long => (fun n => .long (UInt64.ofNat n).toInt64) <$> Reader.uint 8
  | .double => (fun n => .double (UInt64.ofNat n)) <$> Reader.uint 8
  | .class => .named .class <$> Reader.ref
  | .string => .named .string <$> Reader.ref
  | .methodType => .named .methodType <$> Reader.ref
  | .module => .named .module <$> Reader.ref
  | .package => .named .package <$> Reader.ref
  | .fieldRef => do return .member .field (← Reader.ref) (← Reader.ref)
  | .methodRef => do return .member .method (← Reader.ref) (← Reader.ref)
  | .interfaceMethodRef => do return .member .interfaceMethod (← Reader.ref) (← Reader.ref)
  | .nameAndType => do return .nameAndType (← Reader.ref) (← Reader.ref)
  | .methodHandle => do
    match HandleKind.ofByte? (← Reader.byte) with
    | some kind => return .methodHandle kind (← Reader.u2)
    | none => failure
  | .dynamic => do return .dynamic .constant (← Reader.u2) (← Reader.ref)
  | .invokeDynamic => do return .dynamic .call (← Reader.u2) (← Reader.ref)

def read : Reader Record := do
  match Tag.ofByte? (← Reader.byte) with
  | some tag => readPayload tag
  | none => failure

/-- The slots that a record takes up. -/
def slots (r : Record) : List (Option Record) := some r :: List.replicate (r.width - 1) none

end Record

/-- Two references in a row. -/
private theorem reads_two_refs {first second : Tag} {α : Type} (i : Ref first) (j : Ref second)
    (f : Ref first → Ref second → α) :
    Reads (do return f (← Reader.ref) (← Reader.ref)) (i.encode ++ j.encode) (f i j) := by
  apply (Reader.reads_ref i).bind
  exact (Reader.reads_ref j).bind_nil (Reads.pure _)

/-- A plain number and a reference. -/
private theorem reads_number_ref {kind : Tag} {α : Type} (n : UInt16) (i : Ref kind)
    (f : UInt16 → Ref kind → α) :
    Reads (do return f (← Reader.u2) (← Reader.ref)) (BigEndian.u2 n ++ i.encode) (f n i) := by
  apply (Reader.reads_u2 n).bind
  exact (Reader.reads_ref i).bind_nil (Reads.pure _)

private theorem reads_u4 (n : UInt32) :
    Reads (UInt32.ofNat <$> Reader.uint 4) (BigEndian.u4 n) n := by
  have hfield : Reads (Reader.uint 4) (BigEndian.u4 n) n.toNat := Reader.reads_uint n.toNat_lt
  have hmap := hfield.map UInt32.ofNat
  rwa [UInt32.ofNat_toNat] at hmap

private theorem reads_u8 (n : UInt64) :
    Reads (UInt64.ofNat <$> Reader.uint 8) (BigEndian.u8 n) n := by
  have hfield : Reads (Reader.uint 8) (BigEndian.u8 n) n.toNat := Reader.reads_uint n.toNat_lt
  have hmap := hfield.map UInt64.ofNat
  rwa [UInt64.ofNat_toNat] at hmap

theorem reads_text {version : Version} {text : String}
    (h : (ModifiedUtf8.encode version text).length ≤ 65535) :
    Reads Record.readText (BigEndian.encode 2 (ModifiedUtf8.encode version text).length
      ++ ModifiedUtf8.encode version text) text := by
  have htake := Reader.reads_take (Eq.refl (ModifiedUtf8.encode version text).length)
  apply (Reader.reads_uint (by omega)).bind
  -- The length says how many bytes the string has, and these are decoded on their own.
  apply htake.bind_nil
  rw [ModifiedUtf8.decode_encode]
  exact Reads.pure text

/-- What follows the tag byte is read back if the string of the record is not too long. -/
theorem reads_payload {version : Version} {r : Record} (h : r.textSize version ≤ 65535) :
    Reads (Record.readPayload r.tag) (r.payload version) r := by
  cases r with
  | utf8 text => exact (reads_text h).map Record.utf8
  | integer value =>
    have hfield := (reads_u4 value.toUInt32).map fun n => Record.integer n.toInt32
    rwa [Int32.toInt32_toUInt32, Functor.map_map] at hfield
  | float bits =>
    have hfield := (reads_u4 bits).map Record.float
    rwa [Functor.map_map] at hfield
  | long value =>
    have hfield := (reads_u8 value.toUInt64).map fun n => Record.long n.toInt64
    rwa [Int64.toInt64_toUInt64, Functor.map_map] at hfield
  | double bits =>
    have hfield := (reads_u8 bits).map Record.double
    rwa [Functor.map_map] at hfield
  | named kind name => cases kind <;> exact (Reader.reads_ref name).map _
  | member kind owner nat => cases kind <;> exact reads_two_refs owner nat _
  | nameAndType name descriptor => exact reads_two_refs name descriptor _
  | methodHandle kind target =>
    apply (Reader.reads_byte kind.byte).bind
    rw [HandleKind.ofByte?_byte]
    exact (Reader.reads_u2 target).bind_nil (Reads.pure _)
  | dynamic kind bootstrap nat => cases kind <;> exact reads_number_ref bootstrap nat _

theorem reads_record {version : Version} {r : Record} (h : r.textSize version ≤ 65535) :
    Reads Record.read (r.encode version) r := by
  apply (Reader.reads_byte r.tag.byte).bind
  rw [Tag.ofByte?_byte]
  exact reads_payload h

/-! ## Slots -/

namespace Pool

/-- Read the records of a number of slots. -/
def readRecords : Nat → Reader (List (Option Record))
  | 0 => pure []
  | 1 => do
    let r ← Record.read
    if r.width = 1 then return [some r] else failure
  | n + 2 => do
    let r ← Record.read
    if r.width = 1 then
      return some r :: (← readRecords (n + 1))
    else
      return some r :: none :: (← readRecords n)

/-- Read a number of slots with any reader of records. -/
def readEntries (record : Reader Record) : Nat → Reader (List (Option Record))
  | 0 => pure []
  | 1 => do
    let r ← record
    if r.width = 1 then return [some r] else failure
  | n + 2 => do
    let r ← record
    if r.width = 1 then
      return some r :: (← readEntries record (n + 1))
    else
      return some r :: none :: (← readEntries record n)

/-- Read the slots of a pool. -/
def readSlots : Reader (List (Option Record)) := do
  match ← Reader.uint 2 with
  | 0 => failure
  | n + 1 => return none :: (← readRecords n)

/-- The bytes for a slot. -/
def encodeSlot (version : Version) : Option Record → List UInt8
  | some r => r.encode version
  | none => []

theorem encode_eq (p : Pool) :
    p.encode =
      BigEndian.encode 2 p.slots.size ++ p.slots.toList.flatMap (encodeSlot p.version) := by
  rfl

theorem flatMap_encodeSlot_slots (version : Version) (r : Record) :
    r.slots.flatMap (encodeSlot version) = r.encode version := by
  -- The second slot of a wide record has no bytes.
  have hnone : ∀ n, (List.replicate n none).flatMap (encodeSlot version) = [] := by
    intro n
    simp [List.flatMap_eq_nil_iff, encodeSlot]
  rw [Record.slots, List.flatMap_cons, hnone, List.append_nil]
  rfl

/-- Records that are read one by one are read as the slots that they take up. -/
theorem reads_entries {record : Reader Record} {version : Version} {rs : List Record}
    (h : ∀ r ∈ rs, Reads record (r.encode version) r) :
    Reads (readEntries record (rs.flatMap Record.slots).length)
      ((rs.flatMap Record.slots).flatMap (encodeSlot version)) (rs.flatMap Record.slots) := by
  -- Induction on the records: the number of slots to read drops by the width of the first one.
  induction rs with
  | nil => exact Reads.pure []
  | cons r rs ih =>
    have hr := h r List.mem_cons_self
    have hrest := ih fun s hs => h s (List.mem_cons_of_mem _ hs)
    have hpos := r.width_pos
    have hle := r.width_le_two
    rw [List.flatMap_cons, List.flatMap_append, flatMap_encodeSlot_slots]
    by_cases hone : r.width = 1
    · have hslots : r.slots = [some r] := by simp [Record.slots, hone]
      rw [hslots]
      -- The reader tells the last slot from others, since no wide record can start there.
      cases hmore : rs.flatMap Record.slots with
      | nil =>
        apply hr.bind
        rw [if_pos hone]
        exact Reads.pure _
      | cons slot more =>
        rw [hmore] at hrest
        apply hr.bind
        rw [if_pos hone]
        exact hrest.bind_nil (Reads.pure _)
    · have hslots : r.slots = [some r, none] := by
        have htwo : r.width = 2 := by omega
        simp [Record.slots, htwo]
      rw [hslots]
      apply hr.bind
      rw [if_neg hone]
      exact hrest.bind_nil (Reads.pure _)

theorem readRecords_eq (n : Nat) : readRecords n = readEntries Record.read n := by
  induction n using readRecords.induct with
  | case1 => rfl
  | case2 => rfl
  | case3 n ihone ihtwo => rw [readRecords, readEntries, ihone, ihtwo]

theorem reads_records {version : Version} {rs : List Record}
    (h : ∀ r ∈ rs, r.textSize version ≤ 65535) :
    Reads (readRecords (rs.flatMap Record.slots).length)
      ((rs.flatMap Record.slots).flatMap (encodeSlot version)) (rs.flatMap Record.slots) := by
  rw [readRecords_eq]
  exact reads_entries fun r hr => reads_record (h r hr)

/-- The slots of the pool are those of the records, whose strings are not too long. -/
structure Lists (p : Pool) (rs : List Record) : Prop where
  slots_eq : p.slots.toList = none :: rs.flatMap Record.slots
  textSize_le : ∀ r ∈ rs, r.textSize p.version ≤ 65535

theorem lists_empty (version : Version) : (empty version).Lists [] where
  slots_eq := rfl
  textSize_le _ hr := by cases hr

theorem Lists.append {p : Pool} {rs : List Record} (h : p.Lists rs) {r : Record}
    (htext : r.textSize p.version ≤ 65535) : (p.append r).Lists (rs ++ [r]) where
  slots_eq := by
    rw [toList_slots_append, h.slots_eq, List.flatMap_append]
    simp [Record.slots]
  textSize_le s hs := by
    rcases List.mem_append.mp hs with hs | hs
    · exact h.textSize_le s hs
    · rw [List.mem_singleton.mp hs]
      exact htext

/-- A pool that grows lists its records. -/
theorem Lists.grows {p q : Pool} (h : p.Grows q) {rs : List Record} (hp : p.Lists rs) :
    ∃ rs', q.Lists rs' :=
  Grows.induction (P := fun p q => (∃ rs, p.Lists rs) → ∃ rs, q.Lists rs) (fun _ hp => hp)
    (fun _ _ _ ih _ htext hp =>
      have ⟨rs, hrs⟩ := ih hp
      ⟨rs ++ [_], hrs.append htext⟩)
    h ⟨rs, hp⟩

/-- The slots of a pool are read back from its bytes. -/
theorem Lists.reads_encode {p : Pool} {rs : List Record} (h : p.Lists rs)
    (hsize : p.slots.size ≤ 65535) : Reads readSlots p.encode p.slots.toList := by
  have hlen : p.slots.size = (rs.flatMap Record.slots).length + 1 := by
    rw [← Array.length_toList, h.slots_eq]
    rfl
  have hnone : encodeSlot p.version none = [] := rfl
  rw [encode_eq, h.slots_eq, List.flatMap_cons, hnone, List.nil_append]
  apply (Reader.reads_uint (by omega)).bind
  rw [hlen]
  exact (reads_records h.textSize_le).bind_nil (Reads.pure _)

end Pool

end JvmClass
