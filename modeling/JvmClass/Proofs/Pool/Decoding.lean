import JvmClass.Proofs.Pool.Reading

/-!
# Decoding a constant pool

The bytes of a pool determine it: a reader that goes by the tag bytes, and that decodes strings by
the rule of the version, gets every slot back and leaves no bytes.  The bytes of a single record
determine the record as well, also if its string is too long for its length field to say so.

## Key results

- `reads_recordAs`: a record is read back by the rule of its version
- `Record.encode_injective`: no two records have the same bytes
- `Lists.reads_entries`: the records of a pool are read back behind their count
- `Grows.exists_decoding`, `decoding_of_reachable`: every reachable pool is read back slot by slot
-/

namespace JvmClass

open Reader (Reads)

/-! ## Records of a given version -/

theorem Tag.byte_injective : Function.Injective byte := by
  intro t t' h
  have htag := ofByte?_byte t
  rw [h, ofByte?_byte] at htag
  exact (Option.some.inj htag).symm

namespace Record

/-- Only strings have a length that could be too large. -/
theorem textSize_of_tag {version : Version} {r : Record} (h : r.tag ≠ .utf8) :
    r.textSize version = 0 := by
  cases r with
  | utf8 text => exact absurd rfl h
  | _ => rfl

/-- Read a string behind its length in a class file of a given version. -/
def readTextAs (version : Version) : Reader String := do
  let n ← Reader.uint 2
  let bytes ← Reader.take n
  match ModifiedUtf8.decodeAs version bytes with
  | some text => return text
  | none => failure

/-- Read what follows a tag byte; only strings depend on the version. -/
def readPayloadAs (version : Version) : Tag → Reader Record
  | .utf8 => .utf8 <$> readTextAs version
  | tag => readPayload tag

/-- Read a record in a class file of a given version. -/
def readAs (version : Version) : Reader Record := do
  match Tag.ofByte? (← Reader.byte) with
  | some tag => readPayloadAs version tag
  | none => failure

end Record

theorem reads_textAs {version : Version} {text : String}
    (h : (ModifiedUtf8.encode version text).length ≤ 65535) :
    Reads (Record.readTextAs version) (BigEndian.encode 2 (ModifiedUtf8.encode version text).length
      ++ ModifiedUtf8.encode version text) text := by
  have htake := Reader.reads_take (Eq.refl (ModifiedUtf8.encode version text).length)
  apply (Reader.reads_uint (by omega)).bind
  apply htake.bind_nil
  rw [ModifiedUtf8.decodeAs_encode]
  exact Reads.pure text

theorem reads_payloadAs {version : Version} {r : Record} (h : r.textSize version ≤ 65535) :
    Reads (Record.readPayloadAs version r.tag) (r.payload version) r := by
  by_cases htag : r.tag = .utf8
  · obtain ⟨text, rfl⟩ := Record.eq_utf8_of_tag htag
    exact (reads_textAs h).map Record.utf8
  · have hsame : Record.readPayloadAs version r.tag = Record.readPayload r.tag := by
      unfold Record.readPayloadAs
      split
      · contradiction
      · rfl
    rw [hsame]
    exact reads_payload h

/-- A record is read back by the rule of its version if its string is not too long. -/
theorem reads_recordAs {version : Version} {r : Record} (h : r.textSize version ≤ 65535) :
    Reads (Record.readAs version) (r.encode version) r := by
  apply (Reader.reads_byte r.tag.byte).bind
  rw [Tag.ofByte?_byte]
  exact reads_payloadAs h

/-- No two records have the same bytes in class files of one version. -/
theorem Record.encode_injective (version : Version) : Function.Injective (encode version) := by
  intro r r' h
  obtain ⟨hbyte, hpayload⟩ := List.cons.inj h
  have htag : r.tag = r'.tag := Tag.byte_injective hbyte
  by_cases hutf8 : r.tag = .utf8
  · obtain ⟨text, rfl⟩ := eq_utf8_of_tag hutf8
    obtain ⟨text', rfl⟩ := eq_utf8_of_tag (htag.symm.trans hutf8)
    -- The bytes of a string say what it is, even where the field for their number cuts it off.
    have hbytes := List.append_inj_right hpayload (by simp)
    rw [ModifiedUtf8.encode_injective version hbytes]
  · have hsize : r.textSize version ≤ 65535 := by
      rw [textSize_of_tag hutf8]
      omega
    have hsize' : r'.textSize version ≤ 65535 := by
      rw [textSize_of_tag (htag ▸ hutf8)]
      omega
    have hrun := reads_recordAs hsize []
    rw [h, reads_recordAs hsize' []] at hrun
    cases hrun
    rfl

/-! ## Pools -/

namespace Pool

/-- The records of a pool are read back from the bytes behind their count. -/
theorem Lists.reads_entries {p : Pool} {rs : List Record} (h : p.Lists rs) :
    ∃ slots, p.slots.toList = none :: slots ∧
      Reads (readEntries (Record.readAs p.version) p.used)
        (p.slots.toList.flatMap (encodeSlot p.version)) slots := by
  have hused : p.used = (rs.flatMap Record.slots).length := by
    rw [used, ← Array.length_toList, h.slots_eq, List.length_cons, Nat.add_sub_cancel]
  refine ⟨_, h.slots_eq, ?_⟩
  -- Slot 0 has no bytes.
  rw [hused, h.slots_eq]
  exact Pool.reads_entries fun r hr => reads_recordAs (h.textSize_le r hr)

/-- A pool that grows from an empty one is read back behind its count, slot by slot. -/
theorem Grows.exists_decoding {version : Version} {p : Pool} (h : (empty version).Grows p) :
    ∃ body slots, (Reader.uint 2).run p.encode = some (p.used + 1, body) ∧
      (readEntries (Record.readAs version) p.used).run body = some (slots, []) ∧
      slots.length = p.used ∧
      ∀ i r, p.record i = .ok r ↔ ∃ k, i.toNat = k + 1 ∧ slots[k]? = some (some r) := by
  have hversion : p.version = version := h.version_eq
  have hsize := (h.inv (inv_empty version)).size_le
  obtain ⟨rs, hlists⟩ := (lists_empty version).grows h
  obtain ⟨slots, hslots, hreads⟩ := hlists.reads_entries
  have hlen : p.slots.size = slots.length + 1 := by
    rw [← Array.length_toList, hslots, List.length_cons]
  have hused : p.slots.size = p.used + 1 := by
    unfold used
    omega
  have hcount : Reads (Reader.uint 2) (BigEndian.encode 2 (p.used + 1)) (p.used + 1) :=
    Reader.reads_uint (by omega)
  refine ⟨p.slots.toList.flatMap (encodeSlot p.version), slots, ?_, ?_, by omega, ?_⟩
  · rw [encode_eq, hused]
    exact hcount _
  · have hrun := hreads []
    rw [List.append_nil] at hrun
    rwa [← hversion]
  · intro i r
    rw [record_eq_ok_iff, Holds, ← Array.getElem?_toList, hslots]
    cases i.toNat with
    | zero => simp
    | succ k => simp

/-- The bytes of every reachable pool are the number of its slots, one more than are in use, and
bytes that a reader by tags takes exactly; it gets at every slot the record that the pool reports
there.  No two records have the same bytes in class files of one version. -/
theorem decoding_of_reachable (version : Version) (calls : List Call) :
    (∃ body slots,
      (Reader.uint 2).run ((empty version).afterCalls calls).encode
        = some (((empty version).afterCalls calls).used + 1, body) ∧
      (readEntries (Record.readAs version) ((empty version).afterCalls calls).used).run body
        = some (slots, []) ∧
      slots.length = ((empty version).afterCalls calls).used ∧
      ∀ i r, ((empty version).afterCalls calls).record i = .ok r ↔
        ∃ k, i.toNat = k + 1 ∧ slots[k]? = some (some r)) ∧
    ∀ r r' : Record, r.encode version = r'.encode version → r = r' := by
  constructor
  · exact (grows_afterCalls (empty version) calls).exists_decoding
  · intro r r' h
    exact Record.encode_injective version h

end Pool

end JvmClass
