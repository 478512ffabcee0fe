import JvmClass.Proofs.Attribute.AllOrNothing
import JvmClass.Proofs.Pool.Distinct
import JvmClass.Proofs.WritingOrder

/-!
# Module declarations are read back

The attribute of a module declaration consists of a name, flags, a version, and five counted tables.
The packages that are exported or opened and the services that are provided have a counted list each
inside their entries.  All of this is written only if every table and every list can say how many
entries it has; then the grammar, which has the same shape, reads the declaration back and takes
exactly its bytes.

`tableEntries` lists the entries of all tables and lists in the order in which they are written.  A
declaration that cannot be written is refused for the first of these that is one too many.

## Key results

- `ModuleInfo.reads_encode`: the bytes of a declaration are read as the declaration
- `ModuleInfo.stops_encode`, `ModuleInfo.countable_iff`: which declarations have no bytes, and what
  is said of them
- `ModuleInfo.addSpec_of_holds`: adding a declaration to a table of attributes
-/

namespace JvmClass

open JvmClass.Action (except_bind_eq_ok)
open Reader (Reads)
open TableEntry (Stops firstExcess? ofItems stops_ofEntries stops_ofList exists_excess_ofItems)

/-! ## The grammar -/

/-- Flags have no bits but those with a name. -/
def Flags.read {s : FlagSet} : Reader (Flags s) := do
  let bits ← Reader.u2
  if h : bits &&& s.mask = bits then
    return ⟨bits, h⟩
  else
    failure

def Requires.read : Reader Requires := do
  let module ← Reader.ref
  let flags ← Flags.read
  return ⟨module, flags, ← Reader.ref⟩

def Exports.read : Reader Exports := do
  let package ← Reader.ref
  let flags ← Flags.read
  return ⟨package, flags, ← Reader.counted Reader.ref⟩

def Provides.read : Reader Provides := do
  let service ← Reader.ref
  return ⟨service, ← Reader.counted Reader.ref⟩

def ModuleInfo.read : Reader ModuleInfo := do
  let name ← Reader.ref
  let flags ← Flags.read
  let version ← Reader.ref
  let requires ← Reader.counted Requires.read
  let exports ← Reader.counted Exports.read
  let opens ← Reader.counted Exports.read
  let uses ← Reader.counted Reader.ref
  let provides ← Reader.counted Provides.read
  return ⟨name, flags, version, requires, exports, opens, uses, provides⟩

theorem reads_flags {s : FlagSet} (f : Flags s) : Reads Flags.read f.encode f := by
  refine (Reader.reads_u2 f.bits).bind_nil ?_
  rw [dif_pos f.bits_named]
  exact Reads.pure f

theorem Requires.reads_encode (r : Requires) : Reads read r.encode r := by
  unfold encode
  rw [List.append_assoc]
  refine (Reader.reads_ref r.module).bind ((reads_flags r.flags).bind ?_)
  exact (Reader.reads_ref r.version).bind_nil (Reads.pure r)

theorem Exports.reads_encode {table : String} {e : Exports} {bytes : List UInt8}
    (h : e.encode table = .ok bytes) : Reads read bytes e := by
  obtain ⟨targets, htargets, h⟩ := except_bind_eq_ok.mp h
  cases h
  have hlist := reads_ofList htargets fun i _ => Reader.reads_ref i
  rw [List.append_assoc]
  refine (Reader.reads_ref e.package).bind ((reads_flags e.flags).bind ?_)
  exact hlist.bind_nil (Reads.pure e)

theorem Provides.reads_encode {p : Provides} {bytes : List UInt8} (h : p.encode = .ok bytes) :
    Reads read bytes p := by
  obtain ⟨implementations, himplementations, h⟩ := except_bind_eq_ok.mp h
  cases h
  have hlist := reads_ofList himplementations fun i _ => Reader.reads_ref i
  exact (Reader.reads_ref p.service).bind (hlist.bind_nil (Reads.pure p))

/-- The bytes of a declaration are read as the declaration, and nothing behind them is touched. -/
theorem ModuleInfo.reads_encode {m : ModuleInfo} {bytes : List UInt8} (h : m.encode = .ok bytes) :
    Reads read bytes m := by
  obtain ⟨requires, hrequires, h⟩ := except_bind_eq_ok.mp h
  obtain ⟨exports, hexports, h⟩ := except_bind_eq_ok.mp h
  obtain ⟨opens, hopens, h⟩ := except_bind_eq_ok.mp h
  obtain ⟨uses, huses, h⟩ := except_bind_eq_ok.mp h
  obtain ⟨provides, hprovides, h⟩ := except_bind_eq_ok.mp h
  cases h
  have hrequires := reads_ofList hrequires fun r _ => r.reads_encode
  have hexports := reads_ofEntries hexports fun _ _ _ => Exports.reads_encode
  have hopens := reads_ofEntries hopens fun _ _ _ => Exports.reads_encode
  have huses := reads_ofList huses fun i _ => Reader.reads_ref i
  have hprovides := reads_ofEntries hprovides fun _ _ _ => Provides.reads_encode
  simp only [List.append_assoc]
  refine (Reader.reads_ref m.name).bind ((reads_flags m.flags).bind ?_)
  refine (Reader.reads_ref m.version).bind ?_
  refine hrequires.bind (hexports.bind (hopens.bind (huses.bind ?_)))
  exact hprovides.bind_nil (Reads.pure m)

/-! ## Declarations without bytes -/

def Exports.tableEntries (table : String) (e : Exports) : List TableEntry :=
  ofItems table .two (fun _ => []) 0 e.targets

def Provides.tableEntries (p : Provides) : List TableEntry :=
  ofItems "provides_with" .two (fun _ => []) 0 p.implementations

/-- The entries of all tables, and of the lists inside them, in the order in which they are
written. -/
def ModuleInfo.tableEntries (m : ModuleInfo) : List TableEntry :=
  ofItems "requires" .two (fun _ => []) 0 m.requires
    ++ (ofItems "exports" .two (·.tableEntries "exports") 0 m.exports
    ++ (ofItems "opens" .two (·.tableEntries "opens") 0 m.opens
    ++ (ofItems "uses" .two (fun _ => []) 0 m.uses
    ++ ofItems "provides" .two (·.tableEntries) 0 m.provides)))

/-- Every table, and every list inside one, can say how many entries it has. -/
structure ModuleInfo.Countable (m : ModuleInfo) : Prop where
  requires : m.requires.length ≤ 65535
  exports : m.exports.length ≤ 65535
  exportTargets : ∀ e ∈ m.exports, e.targets.length ≤ 65535
  opens : m.opens.length ≤ 65535
  openTargets : ∀ e ∈ m.opens, e.targets.length ≤ 65535
  uses : m.uses.length ≤ 65535
  provides : m.provides.length ≤ 65535
  implementations : ∀ p ∈ m.provides, p.implementations.length ≤ 65535

theorem Exports.stops_encode (table : String) (e : Exports) :
    Stops (e.tableEntries table) (e.encode table) :=
  (stops_ofList table .two e.targets).map _

theorem Provides.stops_encode (p : Provides) : Stops p.tableEntries p.encode :=
  (stops_ofList "provides_with" .two p.implementations).map _

/-- A declaration is refused for the first entry that is one too many. -/
theorem ModuleInfo.stops_encode (m : ModuleInfo) : Stops m.tableEntries m.encode := by
  refine (stops_ofList "requires" .two m.requires).bind fun _ => ?_
  refine (stops_ofEntries "exports" .two fun e _ => e.stops_encode "exports").bind fun _ => ?_
  refine (stops_ofEntries "opens" .two fun e _ => e.stops_encode "opens").bind fun _ => ?_
  refine (stops_ofList "uses" .two m.uses).bind fun _ => ?_
  exact (stops_ofEntries "provides" .two fun p _ => p.stops_encode).map _

/-- No entry is one too many if and only if every table can be counted. -/
theorem ModuleInfo.countable_iff (m : ModuleInfo) :
    m.Countable ↔ ¬ ∃ x ∈ m.tableEntries, x.isExcess = true := by
  have hlimit : CountWidth.two.limit = 65535 := rfl
  simp only [tableEntries, Exports.tableEntries, Provides.tableEntries, List.mem_append,
    or_and_right, exists_or, exists_excess_ofItems (Nat.zero_le _), hlimit, Nat.zero_add,
    List.not_mem_nil, false_and, exists_false, and_false, or_false, not_or, not_exists, not_and,
    Nat.not_lt]
  constructor
  · intro h
    exact ⟨h.requires, ⟨h.exports, h.exportTargets⟩, ⟨h.opens, h.openTargets⟩, h.uses,
      h.provides, h.implementations⟩
  · rintro ⟨hrequires, ⟨hexports, hexports'⟩, ⟨hopens, hopens'⟩, huses, hprovides, hprovides'⟩
    exact ⟨hrequires, hexports, hexports', hopens, hopens', huses, hprovides, hprovides'⟩

/-! ## Adding declarations -/

namespace ModuleInfo

/-- How a table of attributes that spells `as` behind the front takes a declaration, where the name
of the attribute makes the pool `q`.  If everything can be counted, an attribute comes behind the
others whose bytes are read as the declaration.  Otherwise the declaration is refused for the first
entry that is one too many, and the table is left alone. -/
structure AddSpec (m : ModuleInfo) (w : AttributeWriter) (front : List UInt8)
    (as : List RawAttribute) (q : Pool) : Prop where
  added : m.Countable → ∃ w' a, (AttributeWriter.add (.moduleInfo m)).exec w = (.ok (), w') ∧
    w'.pool = q ∧ w'.Spells front (as ++ [a]) ∧ q.text a.name = .ok "Module" ∧
    Reads read a.info m
  refused : ¬ m.Countable → ∃ x, firstExcess? m.tableEntries = some x ∧
    (AttributeWriter.add (.moduleInfo m)).exec w = (.error x.refusal, ⟨q, w.table⟩)

variable {m : ModuleInfo} {w : AttributeWriter} {front : List UInt8} {as : List RawAttribute}
  {i : Ref .utf8} {q : Pool}

/-- A declaration that can be counted has bytes. -/
theorem Countable.exists_encode (h : m.Countable) : ∃ body, m.encode = .ok body := by
  cases hbody : m.encode with
  | ok body => exact ⟨body, rfl⟩
  | error e => exact absurd (m.stops_encode.exists_error_iff.mp ⟨e, hbody⟩) (m.countable_iff.mp h)

/-- Whether a table with room for another attribute takes a declaration is decided by the
declaration alone. -/
theorem addSpec_of_holds (hinv : w.pool.Inv) (hwidth : w.table.width = .two)
    (hholds : w.table.Holds front (as.map RawAttribute.encode)) (hfits : ∀ a ∈ as, a.Fits)
    (hroom : w.table.isFull = false) (hname : (Pool.utf8 "Module").exec w.pool = (.ok i, q))
    (hsize : ∀ body, m.encode = .ok body → body.length ≤ AttributeWriter.maxInfo) :
    m.AddSpec w front as q where
  added hcount := by
    obtain ⟨body, hbody⟩ := hcount.exists_encode
    have hexec := AttributeWriter.exec_add (a := .moduleInfo m) hname hbody
      (AttributeWriter.refusal?_eq_none hroom (hsize body hbody))
    have hone := AttributeWriter.allOrNothing (.predefined (.moduleInfo m)) hinv hwidth hholds hfits
    unfold AttributeWriter.AllOrNothing at hone
    rw [TableCall.perform, hexec] at hone
    obtain ⟨-, a, -, hshows, hspells⟩ := hone
    rw [TableCall.content] at hshows
    -- The attribute that was added has the bytes of the declaration.
    cases hshows with
    | predefined hmodule hinfo =>
      exact ⟨_, _, hexec, rfl, hspells, hmodule, reads_encode hinfo⟩
  refused hcount := by
    have hexcess := not_not.mp (mt m.countable_iff.mpr hcount)
    obtain ⟨e, he⟩ := m.stops_encode.exists_error_iff.mpr hexcess
    obtain ⟨x, hx, rfl⟩ := (m.stops_encode e).mp he
    exact ⟨x, hx, AttributeWriter.exec_add_error (a := .moduleInfo m) hname he⟩

/-- Take any table of attributes with fewer than 65535 of them, a pool that has or can get the name
of the attribute, and a declaration that is not too long for an attribute if it has bytes.  The
declaration is added if and only if all of its tables, and all lists inside them, have at most 65535
entries; what is added is then read as the declaration, up to its last byte.  Otherwise writing goes
on to the first entry, in the order of the tables and of the entries in each, that its table has no
room for; that table is named in the refusal, and nothing is added. -/
theorem addSpec_of_reachable {version : Version} {p : Pool} (hp : (Pool.empty version).Grows p)
    (buffer : Buffer) (before : TableCallback) (m : ModuleInfo) {i : Ref .utf8} {q : Pool} :
    let w := (before.perform.exec (.start p buffer)).2
    w.table.size < 65535 → (Pool.utf8 "Module").exec w.pool = (.ok i, q) →
      (∀ body, m.encode = .ok body → body.length ≤ AttributeWriter.maxInfo) →
      ∃ as, w.Spells buffer.toList as ∧ m.AddSpec w buffer.toList as q := by
  intro w hcount hname hsize
  have hinv : p.Inv := hp.inv (Pool.inv_empty version)
  have hadds := before.adds (w := .start p buffer) hinv
  have hbuilt := hadds.built buffer.toList [] (CountedTable.carries_start _ buffer _ _ _)
  rw [List.nil_append] at hbuilt
  obtain ⟨as, hholds, hfits, -⟩ := hbuilt.exists_items
  have hwidth : w.table.width = .two := hbuilt.width_eq
  have hroom : w.table.isFull = false := by
    unfold CountedTable.isFull
    rw [hwidth]
    exact decide_eq_false (Nat.not_le.mpr hcount)
  exact ⟨as, AttributeWriter.spells_of_holds hwidth hholds hfits,
    addSpec_of_holds (hadds.grows.inv hinv) hwidth hholds hfits hroom hname hsize⟩

/-- A module that requires another one, exports a package to it, and provides a service. -/
def greeter : ModuleInfo where
  name := ⟨2⟩
  flags := .ofBits .module 0x0020
  version := .none
  requires := [⟨⟨4⟩, .ofBits .requires 0x8000, ⟨5⟩⟩]
  exports := [⟨⟨7⟩, .ofBits .exports 0, [⟨4⟩]⟩]
  opens := []
  uses := [⟨9⟩]
  provides := [⟨⟨9⟩, [⟨11⟩, ⟨13⟩]⟩]

/-- One attribute. -/
def marked : TableCallback := .call (.raw ⟨1⟩ [7]) fun _ => .finish (.ok ())

/-- The module is declared behind one attribute, in a table that stands behind one byte. -/
theorem addSpec_of_greeter :
    let w := (marked.perform.exec (.start (.empty .java9) (Buffer.empty.append [0xca]))).2
    let q := (Pool.empty .java9).append (.utf8 "Module")
    (Pool.empty .java9).Grows (Pool.empty .java9) ∧ w.table.size < 65535 ∧
      (Pool.utf8 "Module").exec w.pool = (.ok ⟨1⟩, q) ∧
      (∀ body, greeter.encode = .ok body → body.length ≤ AttributeWriter.maxInfo) ∧
      ∃ as, w.Spells [0xca] as ∧ greeter.AddSpec w [0xca] as q := by
  intro w q
  have hcount : w.table.size < 65535 := by decide +kernel
  have hname : (Pool.utf8 "Module").exec w.pool = (.ok ⟨1⟩, q) :=
    (Pool.inv_empty .java9).exec_utf8_new (fun i => Pool.not_holds_empty .java9 i _) (by decide)
      (by decide)
  have hencode : greeter.encode = .ok [0, 2, 0, 32, 0, 0, 0, 1, 0, 4, 128, 0, 0, 5, 0, 1, 0, 7, 0,
      0, 0, 1, 0, 4, 0, 0, 0, 1, 0, 9, 0, 1, 0, 9, 0, 2, 0, 11, 0, 13] := by
    decide +kernel
  have hsize : ∀ body, greeter.encode = .ok body → body.length ≤ AttributeWriter.maxInfo := by
    intro body hbody
    cases hencode.symm.trans hbody
    decide
  exact ⟨.refl, hcount, hname, hsize, addSpec_of_reachable .refl (Buffer.empty.append [0xca]) marked
    greeter hcount hname hsize⟩

end ModuleInfo

end JvmClass
