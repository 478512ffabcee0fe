import JvmClass.Proofs.Attribute.Nested

/-!
# Attributes are added as a whole or not at all

A table of attributes stands at the end of some buffer: a class or a member, the code of a method,
or a component of a record that is itself under construction.  Wherever it stands and whatever was
done to it before, a call on it either puts one attribute behind the others and raises the count, or
fails and leaves every byte of the table as it is.  So the table can be read at any time, and holds
the attributes of the calls that succeeded.

`Spells w front as` says what the bytes of a table are; `AllOrNothing` says what a call does.

## Key results

- `Spells.link`: the bytes of a table with one attribute more
- `allOrNothing`: one call, of whatever kind
- `table_of_reachable`: any table, after any calls
-/

namespace JvmClass

/-! ## Names -/

/-- The slot holds the name of the attribute; it is the caller's for an attribute that is given by
the slot of its name. -/
def Pool.Names (p : Pool) (i : Ref .utf8) : AttributeContent → Prop
  | .raw name _ => i = name
  | .named name _ => p.text i = .ok name
  | .predefined a => p.text i = .ok a.name
  | .text name _ => p.text i = .ok name
  | .code _ _ => p.text i = .ok "Code"
  | .record _ => p.text i = .ok "Record"

theorem Pool.Shows.names {p : Pool} {x : AttributeContent} {a : RawAttribute} (h : p.Shows x a) :
    p.Names a.name x := by
  cases h with
  | raw name info => exact rfl
  | named hname => exact hname
  | predefined hname _ => exact hname
  | text hname _ => exact hname
  | code hname _ _ => exact hname
  | record hname _ _ => exact hname

namespace AttributeWriter

/-! ## The bytes of a table -/

/-- The buffer ends in a table of the given attributes, behind the front. -/
structure Spells (w : AttributeWriter) (front : List UInt8) (as : List RawAttribute) : Prop where
  size_eq : w.table.size = as.length
  length_le : as.length ≤ 65535
  fits : ∀ a ∈ as, a.Fits
  encode_eq : w.table.encode = front ++ encodeCounted RawAttribute.encode as

variable {w w' : AttributeWriter} {front : List UInt8} {as : List RawAttribute}

/-- A table that holds the encodings of attributes spells them. -/
theorem spells_of_holds (hwidth : w.table.width = .two)
    (h : w.table.Holds front (as.map RawAttribute.encode)) (hfits : ∀ a ∈ as, a.Fits) :
    w.Spells front as where
  size_eq := by
    show w.table.count = as.length
    rw [h.count_eq, List.length_map]
  length_le := by
    have hle := h.length_le
    rwa [hwidth, List.length_map] at hle
  fits := hfits
  encode_eq := by
    have hlist := h.toList_eq
    rw [hwidth, List.length_map] at hlist
    rw [CountedTable.encode, hlist, encodeCounted, List.flatMap_def]
    rfl

/-- What stands behind the front is read as a table of attributes. -/
theorem Spells.run_counted (h : w.Spells front as) :
    (Reader.counted RawAttribute.read).run (w.table.encode.drop front.length) = some (as, []) := by
  have hreads := reads_attributes h.length_le h.fits []
  rwa [h.encode_eq, List.drop_left, ← List.append_nil (encodeCounted _ _)]

/-! ## Calls -/

/-- A call on a table that spells the given attributes puts its own behind them if it succeeds, and
leaves the table alone if it fails.  In either case the pool has grown. -/
def AllOrNothing (w : AttributeWriter) (front : List UInt8) (as : List RawAttribute)
    (c : TableCall) : Prop :=
  match c.perform.exec w with
  | (.ok (), w') => w.pool.Grows w'.pool ∧ ∃ a, w'.pool.Names a.name (c.content w) ∧
      w'.pool.Shows (c.content w) a ∧ w'.Spells front (as ++ [a])
  | (.error _, w') => w.pool.Grows w'.pool ∧ w'.table = w.table

/-- A linked attribute comes behind the others, and the count is one more. -/
theorem Links.spells {x : AttributeContent} (h : w.Links x w') (hwidth : w.table.width = .two)
    (hholds : w.table.Holds front (as.map RawAttribute.encode)) (hfits : ∀ a ∈ as, a.Fits) :
    ∃ a, w'.pool.Shows x a ∧ w'.Spells front (as ++ [a]) := by
  obtain ⟨name, info, hsize, htable, hshows⟩ := h.exists_info
  refine ⟨⟨name, info.toList⟩, hshows, spells_of_holds ?_ ?_ fun a ha => ?_⟩
  · rw [htable, CountedTable.width_link, hwidth]
  · -- The length in front of the attribute was taken from the size of its buffer.
    rw [List.map_append, List.map_singleton, encode_eq_of_size, htable]
    exact hholds.link h.isFull_eq _ info
  · rcases List.mem_append.mp ha with ha | ha
    · exact hfits a ha
    · rw [List.mem_singleton.mp ha]
      exact fits_of_size hsize

/-- The effect of a call, of whatever kind and with whatever callbacks. -/
theorem allOrNothing (c : TableCall) (hinv : w.pool.Inv) (hwidth : w.table.width = .two)
    (hholds : w.table.Holds front (as.map RawAttribute.encode)) (hfits : ∀ a ∈ as, a.Fits) :
    w.AllOrNothing front as c := by
  have hone := c.addsOne hinv
  unfold AllOrNothing
  rcases hexec : c.perform.exec w with ⟨e | u, w₁⟩
  · have hleaves := hone.of_error hexec
    exact ⟨hleaves.grows, hleaves.table_eq⟩
  · have hlinks := hone.of_ok hexec
    obtain ⟨a, hshows, hspells⟩ := hlinks.spells hwidth hholds hfits
    exact ⟨hlinks.grows, a, hshows.names, hshows, hspells⟩

/-! ## Reachable tables -/

/-- Take a table of attributes that was started at the end of any buffer, with any pool, and do
anything to it, with calls that succeed and calls that fail.  Its bytes are then those of the buffer
and of a table that is read as the attributes of the calls that succeeded, in their order, and every
further call adds one attribute to it or none.  The tables in the code of a method and in the
components of a record are such tables, too: they start at the end of what stands before them. -/
theorem table_of_reachable {version : Version} {p : Pool} (hp : (Pool.empty version).Grows p)
    (buffer : Buffer) (before : TableCallback) (c : TableCall) :
    let w := (before.perform.exec (.start p buffer)).2
    ∃ as : List RawAttribute, w.Spells buffer.toList as ∧
      (Reader.counted RawAttribute.read).run (w.table.encode.drop buffer.toList.length)
        = some (as, []) ∧
      List.Forall₂ w.pool.Shows (before.added (.start p buffer)) as ∧
      w.AllOrNothing buffer.toList as c := by
  intro w
  have hinv : p.Inv := hp.inv (Pool.inv_empty version)
  have hadds := before.adds (w := .start p buffer) hinv
  -- The table started without attributes, and carries those that were added.
  have hbuilt := hadds.built buffer.toList [] (CountedTable.carries_start _ buffer _ _ _)
  rw [List.nil_append] at hbuilt
  obtain ⟨as, hholds, hfits, hshows⟩ := hbuilt.exists_items
  have hwidth : w.table.width = .two := hbuilt.width_eq
  have hspells := spells_of_holds hwidth hholds hfits
  have hgrown : w.pool.Inv := hadds.grows.inv hinv
  exact ⟨as, hspells, hspells.run_counted, hshows, allOrNothing c hgrown hwidth hholds hfits⟩

/-- Two attributes, with the code of a method between them whose own attributes are refused after
one was added. -/
def interrupted : TableCallback :=
  .call (.raw ⟨1⟩ [7]) fun _ =>
  .call (.code 1 1 ⟨[0xb1], [], #[]⟩
    (.call (.named "Deprecated" []) fun _ => .finish (.error (.sequenceTooLong 65536)))) fun _ =>
  .call (.named "Synthetic" []) fun _ =>
  .finish (.ok ())

/-- A table behind one byte, after these calls, and a record that is to be added to it. -/
theorem table_of_interrupted :
    (Pool.empty .java8).Grows (Pool.empty .java8) ∧
      let w := (interrupted.perform.exec
        (.start (.empty .java8) (Buffer.empty.append [0xca]))).2
      ∃ as : List RawAttribute, w.Spells [0xca] as ∧
        (Reader.counted RawAttribute.read).run (w.table.encode.drop 1) = some (as, []) ∧
        List.Forall₂ w.pool.Shows
          (interrupted.added (.start (.empty .java8) (Buffer.empty.append [0xca]))) as ∧
        w.AllOrNothing [0xca] as (.record (.finish (.ok ()))) :=
  ⟨.refl, table_of_reachable .refl (Buffer.empty.append [0xca]) interrupted _⟩

/-- The bytes of a table with one attribute. -/
example :
    ((TableCall.raw ⟨3⟩ [7, 8]).perform.exec
      (.start (.empty .java8) (Buffer.empty.append [0xca]))).2.table.encode
      = [0xca, 0, 1, 0, 3, 0, 0, 0, 2, 7, 8] := by
  decide +kernel

end AttributeWriter

end JvmClass
