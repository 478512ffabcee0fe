import JvmClass.Proofs.Remap.Acceptance
import JvmClass.Proofs.Remap.Annotations
import JvmClass.Proofs.Remap.Copies

/-!
# Annotations that are written are read back

Reading the bytes of an annotation for some pool imports its constants one after the other: the
string of its type, and for each element the string of its name and whatever its value refers to, at
any depth.  `refs` lists all of these.  Where all of them can be imported, the annotation comes back
with each of them replaced by its import, and what follows the bytes is left.

## Key results

- `ElementValue.copies_copied`: a value has its constants imported in order
- `TypeAnnotationEntry.readsBack_of_importRefs`: writing an annotation and reading it back
-/

namespace JvmClass

open Remapper
open AttributeWriter (onPool)
open Pool (AnyRef importRefs)
open TableEntry (firstExcess?)
open JvmClass.Action (exec_bind_eq_ok exec_map_eq_ok)

/-! ## References of annotations -/

mutual

/-- The references of a value in the order of its bytes, with the kinds of constants that they are
meant to be to. -/
def ElementValue.refs : ElementValue → List AnyRef
  | .constant _ value => [value.any]
  | .enumConstant type name => [type.any, name.any]
  | .nested entry => entry.refs
  | .array values => refsOfValues values

def AnnotationEntry.refs : AnnotationEntry → List AnyRef
  | .mk type elements => type.any :: refsOfPairs elements

def ElementPair.refs : ElementPair → List AnyRef
  | .mk name value => name.any :: value.refs

def refsOfValues : List ElementValue → List AnyRef
  | [] => []
  | value :: rest => value.refs ++ refsOfValues rest

def refsOfPairs : List ElementPair → List AnyRef
  | [] => []
  | pair :: rest => pair.refs ++ refsOfPairs rest

end

mutual

/-- The value with its references replaced. -/
def ElementValue.mapRefs (f : Renaming) : ElementValue → ElementValue
  | .constant kind value => .constant kind (f _ value)
  | .enumConstant type name => .enumConstant (f _ type) (f _ name)
  | .nested entry => .nested (entry.mapRefs f)
  | .array values => .array (mapValues f values)

def AnnotationEntry.mapRefs (f : Renaming) : AnnotationEntry → AnnotationEntry
  | .mk type elements => .mk (f _ type) (mapPairs f elements)

def ElementPair.mapRefs (f : Renaming) : ElementPair → ElementPair
  | .mk name value => .mk (f _ name) (value.mapRefs f)

def mapValues (f : Renaming) : List ElementValue → List ElementValue
  | [] => []
  | value :: rest => value.mapRefs f :: mapValues f rest

def mapPairs (f : Renaming) : List ElementPair → List ElementPair
  | [] => []
  | pair :: rest => pair.mapRefs f :: mapPairs f rest

end

theorem refsOfValues_eq (values : List ElementValue) :
    refsOfValues values = values.flatMap ElementValue.refs := by
  induction values with
  | nil => rfl
  | cons value rest ih => rw [refsOfValues, ih, List.flatMap_cons]

theorem refsOfPairs_eq (elements : List ElementPair) :
    refsOfPairs elements = elements.flatMap ElementPair.refs := by
  induction elements with
  | nil => rfl
  | cons pair rest ih => rw [refsOfPairs, ih, List.flatMap_cons]

theorem mapValues_eq (f : Renaming) (values : List ElementValue) :
    mapValues f values = values.map (·.mapRefs f) := by
  induction values with
  | nil => rfl
  | cons value rest ih => rw [mapValues, ih, List.map_cons]

theorem mapPairs_eq (f : Renaming) (elements : List ElementPair) :
    mapPairs f elements = elements.map (·.mapRefs f) := by
  induction elements with
  | nil => rfl
  | cons pair rest ih => rw [mapPairs, ih, List.map_cons]

/-! ## Imports of annotations -/

variable (view : View)

theorem ElementPair.copies_copied {pair : ElementPair}
    (h : Copies view pair.value.refs (pair.value.copied view) fun imp => pair.value.mapRefs imp) :
    Copies view pair.refs (pair.copied view) fun imp => pair.mapRefs imp := by
  cases pair with
  | mk name value =>
    simp only [refs, mapRefs, copied]
    exact (copies_copyAs view name).bind fun name' => h.map (ElementPair.mk name')

/-- An annotation has its type imported, and then what its elements refer to. -/
theorem AnnotationEntry.copies_of_values (type : Ref .utf8) {elements : List ElementPair}
    (h : ∀ pair ∈ elements,
      Copies view pair.value.refs (pair.value.copied view) fun imp => pair.value.mapRefs imp) :
    Copies view (mk type elements).refs ((mk type elements).copied view) fun imp =>
      (mk type elements).mapRefs imp := by
  have hpairs := Copies.mapM fun pair hpair => ElementPair.copies_copied view (h pair hpair)
  simp only [refs, mapRefs, copied, refsOfPairs_eq, mapPairs_eq, copiedPairs_eq]
  exact (copies_copyAs view type).bind fun type' => hpairs.map (AnnotationEntry.mk type')

/-- The constants of a value are imported in order. -/
theorem ElementValue.copies_copied (value : ElementValue) :
    Copies view value.refs (value.copied view) fun imp => value.mapRefs imp := by
  induction value using nestedInduction with
  | constant kind value =>
    simp only [refs, mapRefs, copied]
    exact (copies_copyAs view value).map (ElementValue.constant kind)
  | enumConstant type name =>
    simp only [refs, mapRefs, copied]
    exact (copies_copyAs view type).bind fun type' =>
      (copies_copyAs view name).map (ElementValue.enumConstant type')
  | nested type elements ih =>
    simp only [refs, mapRefs, copied]
    exact (AnnotationEntry.copies_of_values view type ih).map ElementValue.nested
  | array values ih =>
    simp only [refs, mapRefs, copied, refsOfValues_eq, mapValues_eq, copiedValues_eq]
    exact (Copies.mapM ih).map ElementValue.array

theorem AnnotationEntry.copies_copied (entry : AnnotationEntry) :
    Copies view entry.refs (entry.copied view) fun imp => entry.mapRefs imp := by
  cases entry with
  | mk type elements => exact copies_of_values view type fun pair _ => pair.value.copies_copied view

namespace TypeAnnotationEntry

/-- Only the annotation itself refers to constants, not the place where its type stands. -/
def refs (a : TypeAnnotationEntry) : List AnyRef := a.entry.refs

def mapRefs (f : Renaming) (a : TypeAnnotationEntry) : TypeAnnotationEntry :=
  { a with entry := a.entry.mapRefs f }

theorem copies_copied (a : TypeAnnotationEntry) :
    Copies view a.refs (a.copied view) fun imp => a.mapRefs imp :=
  (a.entry.copies_copied view).map (TypeAnnotationEntry.mk a.targetType a.target a.path)

/-! ## Reading back -/

/-- The bytes are read for a pool as the annotation with its constants imported, in the middle of any
attribute: what follows them is left, the pool is the one that the imports alone end with, and in
that pool each reference has been replaced by its import. -/
structure ReadsBack (view : View) (a : TypeAnnotationEntry) (bytes : List UInt8) (p : Pool)
    (imports : List AnyRef) (p' : Pool) : Prop where
  imports_eq : imports = (a.refs.filter (·.slot ≠ 0)).map (·.rename (p'.given view))
  isImport : ∀ i ∈ a.refs, IsImport view p' i.kind i.slot (i.rename (p'.given view)).slot
  exec_read : ∀ (name : String) (before : Nat) (rest : List UInt8) (table : CountedTable),
    (read view).exec ⟨⟨name, before + (bytes ++ rest).length, bytes ++ rest⟩, ⟨p, table⟩⟩
      = (.ok (a.mapRefs (p'.given view)),
        ⟨⟨name, before + (bytes ++ rest).length, rest⟩, ⟨p', table⟩⟩)

variable {view}

theorem readsBack_of_importRefs {a : TypeAnnotationEntry} {bytes : List UInt8} {p p' : Pool}
    {imports : List AnyRef} (hinv : p.Inv) (hfits : a.target.Fits a.targetType)
    (hbytes : a.encode = .ok bytes) (h : (importRefs view a.refs).exec p = (.ok imports, p')) :
    a.ReadsBack view bytes p imports p' where
  imports_eq := by
    obtain ⟨-, hexec⟩ := copies_importRefs view a.refs p imports p' hinv h
    cases h.symm.trans (hexec p' .refl)
    rfl
  isImport := (Pool.isImport_of_importRefs hinv h).2
  exec_read name before rest table := by
    -- Reading copies the constants, and copying makes just these imports.
    obtain ⟨-, hcopied⟩ := a.copies_copied view p imports p' hinv h
    have heff : (onPool (a.copied view)).exec ⟨p, table⟩
        = (.ok (a.mapRefs (p'.given view)), ⟨p', table⟩) :=
      AttributeWriter.exec_onPool_eq.mpr ⟨hcopied p' .refl, rfl⟩
    exact (rereads_of_encode view hbytes hfits).exec_eq_ok heff name before rest

/-- Reading undoes writing.  Where the target of an annotation is one of its kind, and the constants
that the annotation refers to can be imported to a reachable pool one after the other, its bytes are
read as the annotation with its constants imported, and what follows them is left.  An annotation is
refused for the first entry, in writing order, that the count of its table has no room for; there is
such an entry if and only if the path, the ranges, or a table at any depth is too long. -/
theorem roundTrip_of_imports (version : Version) (calls : List Pool.Call) (view : View)
    (a : TypeAnnotationEntry) :
    (∀ bytes imports p', a.target.Fits a.targetType → a.encode = .ok bytes →
      (importRefs view a.refs).exec ((Pool.empty version).afterCalls calls) = (.ok imports, p') →
      a.ReadsBack view bytes ((Pool.empty version).afterCalls calls) imports p') ∧
    (∀ e, a.encode = .error e ↔ ∃ x, firstExcess? a.tableEntries = some x ∧ e = x.refusal) ∧
    ((∃ e, a.encode = .error e) ↔ a.Overlong) :=
  ⟨fun _ _ _ hfits hbytes h =>
    readsBack_of_importRefs (Pool.inv_afterCalls version calls) hfits hbytes h,
    a.stops_encode, a.exists_error_iff⟩

end TypeAnnotationEntry

namespace Remap

/-- A pool with a string at slot 5 and a number at slot 7. -/
def elementView : View := fun i =>
  if i = 5 then .ok (.utf8 "A") else if i = 7 then .ok (.integer 9) else .error (.badSlot i 8)

/-- A pool with that string at slot 1 and that number at slot 2. -/
def elementPool : Pool := ((Pool.empty .java8).append (.utf8 "A")).append (.integer 9)

/-- An annotation of the type of a local variable, with an array of a number and of another
annotation, which has an element without a name. -/
def deepEntry (string : Ref .utf8) (number : Ref .integer) : TypeAnnotationEntry :=
  ⟨0x40, .localVariable [⟨1, 2, 3⟩], [⟨0, 0⟩, ⟨3, 1⟩],
    .mk string [.mk string (.array [.constant .int number,
      .nested (.mk string [.mk .none (.enumConstant string .none)])])]⟩

private theorem exec_copyAs_string : (Pool.copyAs .utf8 elementView 5).exec (.empty .java8)
    = (.ok ⟨1⟩, (Pool.empty .java8).append (.utf8 "A")) := by
  have hnew := (Pool.inv_empty .java8).exec_utf8_new
    (fun i => Pool.not_holds_empty .java8 i (.utf8 "A")) (by decide) (by decide)
  exact exec_bind_eq_ok.mpr ⟨1, _, exec_map_eq_ok.mpr ⟨⟨1⟩, hnew, rfl⟩, rfl⟩

private theorem exec_copyAs_number :
    (Pool.copyAs .integer elementView 7).exec ((Pool.empty .java8).append (.utf8 "A"))
      = (.ok ⟨2⟩, elementPool) := by
  have hnothing := Pool.not_holds_append
    (fun i => Pool.not_holds_empty .java8 i (.integer 9))
    (by simp : Record.utf8 "A" ≠ .integer 9)
  have hnew := ((Pool.inv_empty .java8).append (by decide)).exec_insert_new hnothing (by decide)
    (by decide)
  exact exec_bind_eq_ok.mpr ⟨2, _, hnew, rfl⟩

/-- The annotation is read back for an empty pool, in front of another byte.  With a longer path it
is refused. -/
theorem roundTrip_deepEntry :
    let a := deepEntry ⟨5⟩ ⟨7⟩
    let bytes := [0x40, 0, 1, 0, 1, 0, 2, 0, 3, 2, 0, 0, 3, 1, 0, 5, 0, 1, 0, 5, 0x5b, 0, 2,
      0x49, 0, 7, 0x40, 0, 5, 0, 1, 0, 0, 0x65, 0, 5, 0, 0]
    let imports : List AnyRef := [⟨.utf8, 1⟩, ⟨.utf8, 1⟩, ⟨.integer, 2⟩, ⟨.utf8, 1⟩, ⟨.utf8, 1⟩]
    a.target.Fits a.targetType ∧ a.encode = .ok bytes ∧
      (importRefs elementView a.refs).exec ((Pool.empty .java8).afterCalls [])
        = (.ok imports, elementPool) ∧
      a.ReadsBack elementView bytes ((Pool.empty .java8).afterCalls []) imports elementPool ∧
      (∀ table : CountedTable, (TypeAnnotationEntry.read elementView).exec
          ⟨.start "RuntimeVisibleTypeAnnotations" (bytes ++ [9]),
            ⟨(Pool.empty .java8).afterCalls [], table⟩⟩
        = (.ok (deepEntry ⟨1⟩ ⟨2⟩),
          ⟨⟨"RuntimeVisibleTypeAnnotations", 39, [9]⟩, ⟨elementPool, table⟩⟩)) ∧
      { a with path := List.replicate 256 ⟨0, 0⟩ }.encode = .error (.tableOverflow "type_path" 255)
    := by
  have hfits : (deepEntry ⟨5⟩ ⟨7⟩).target.Fits (deepEntry ⟨5⟩ ⟨7⟩).targetType := .inl rfl
  have hbytes : (deepEntry ⟨5⟩ ⟨7⟩).encode
      = .ok [0x40, 0, 1, 0, 1, 0, 2, 0, 3, 2, 0, 0, 3, 1, 0, 5, 0, 1, 0, 5, 0x5b, 0, 2,
        0x49, 0, 7, 0x40, 0, 5, 0, 1, 0, 0, 0x65, 0, 5, 0, 0] := by decide +kernel
  have hrefs : (deepEntry ⟨5⟩ ⟨7⟩).refs = [⟨.utf8, 5⟩, ⟨.utf8, 5⟩, ⟨.integer, 7⟩, ⟨.utf8, 5⟩,
      ⟨.utf8, 0⟩, ⟨.utf8, 5⟩, ⟨.utf8, 0⟩] := rfl
  have hinv := Pool.inv_empty .java8
  obtain ⟨hgrows, hstring⟩ := Pool.repeats_copyAs .utf8 elementView 5 _ _ _ hinv exec_copyAs_string
  obtain ⟨hgrows', -⟩ := Pool.repeats_copyAs .integer elementView 7 _ _ _ (hgrows.inv hinv)
    exec_copyAs_number
  have himports : (importRefs elementView (deepEntry ⟨5⟩ ⟨7⟩).refs).exec
      ((Pool.empty .java8).afterCalls [])
        = (.ok [⟨.utf8, 1⟩, ⟨.utf8, 1⟩, ⟨.integer, 2⟩, ⟨.utf8, 1⟩, ⟨.utf8, 1⟩], elementPool) := by
    -- Asking for the string again gives the slot that it has already.
    rw [hrefs]
    refine (Pool.exec_importRefs_cons (by decide)).mpr ⟨⟨1⟩, _, _, exec_copyAs_string, ?_, rfl⟩
    refine (Pool.exec_importRefs_cons (by decide)).mpr ⟨⟨1⟩, _, _, hstring _ .refl, ?_, rfl⟩
    refine (Pool.exec_importRefs_cons (by decide)).mpr ⟨⟨2⟩, _, _, exec_copyAs_number, ?_, rfl⟩
    refine (Pool.exec_importRefs_cons (by decide)).mpr ⟨⟨1⟩, _, _, hstring _ hgrows', ?_, rfl⟩
    rw [Pool.importRefs_cons_of_zero rfl]
    refine (Pool.exec_importRefs_cons (by decide)).mpr ⟨⟨1⟩, _, _, hstring _ hgrows', ?_, rfl⟩
    rw [Pool.importRefs_cons_of_zero rfl]
    rfl
  have hback := (TypeAnnotationEntry.roundTrip_of_imports .java8 [] elementView _).1 _ _ _ hfits
    hbytes himports
  have hlong := (TypeAnnotationEntry.roundTrip_of_imports .java8 [] elementView
    { deepEntry ⟨5⟩ ⟨7⟩ with path := List.replicate 256 ⟨0, 0⟩ }).2.1
  refine ⟨hfits, hbytes, himports, hback, fun table => ?_,
    (hlong _).mpr ⟨⟨"type_path", .one, 255⟩, by decide +kernel, rfl⟩⟩
  have hgiven : elementPool.given elementView .utf8 ⟨5⟩ = ⟨1⟩ :=
    (Pool.given_of_copyAs hinv exec_copyAs_string).2 _ hgrows'
  have hgiven' : elementPool.given elementView .integer ⟨7⟩ = ⟨2⟩ :=
    (Pool.given_of_copyAs (hgrows.inv hinv) exec_copyAs_number).2 _ .refl
  have hnothing : elementPool.given elementView .utf8 .none = .none := rfl
  have hread := hback.exec_read "RuntimeVisibleTypeAnnotations" 0 [9] table
  simp only [TypeAnnotationEntry.mapRefs, AnnotationEntry.mapRefs, ElementPair.mapRefs,
    ElementValue.mapRefs, mapPairs, mapValues, deepEntry, hgiven, hgiven', hnothing] at hread
  exact hread

end Remap

end JvmClass
