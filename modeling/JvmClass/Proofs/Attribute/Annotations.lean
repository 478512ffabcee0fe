import JvmClass.Attribute.Annotations
import JvmClass.Proofs.WritingOrder

/-!
# Annotations without bytes

Annotations, the values of their elements and the arrays among these can be nested to any depth.
What holds of all of them is shown by `ElementValue.nestedInduction`, which has one case for each
kind of value.

`tableEntries` lists the entries of all tables of an annotation in the order in which they are
written.  An annotation is refused for the first of these that is one too many.  There is such an
entry if and only if some table somewhere inside is longer than its count can say, which is what
`Overlong` says.

## Key results

- `TypeAnnotationEntry.stops_encode`: what an annotation without bytes is refused for
- `TypeAnnotationEntry.overlong_iff`: which annotations these are
-/

namespace JvmClass

open TableEntry (Stops ofItems stops_ok stops_ofEntries stops_ofList exists_excess_ofItems
  exists_excess_ofItems_nil)

/-! ## Values inside values -/

def ElementPair.value : ElementPair → ElementValue
  | .mk _ value => value

def AnnotationEntry.elements : AnnotationEntry → List ElementPair
  | .mk _ elements => elements

/-- What holds of a value if it holds of the values inside it holds of all values. -/
@[elab_as_elim]
theorem ElementValue.nestedInduction {P : ElementValue → Prop}
    (constant : ∀ kind value, P (.constant kind value))
    (enumConstant : ∀ type name, P (.enumConstant type name))
    (nested : ∀ type elements, (∀ pair ∈ elements, P pair.value) →
      P (.nested (.mk type elements)))
    (array : ∀ values, (∀ value ∈ values, P value) → P (.array values)) (value : ElementValue) :
    P value := by
  -- The recursor wants something of annotations and of lists, too: that `P` holds of all in them.
  refine @ElementValue.rec P (fun entry => ∀ pair ∈ entry.elements, P pair.value) (P ·.value)
    (fun values => ∀ value ∈ values, P value) (fun elements => ∀ pair ∈ elements, P pair.value)
    constant enumConstant ?_ array (fun _ _ h => h) (fun _ _ h => h) ?_ ?_ ?_ ?_ value
  · exact fun ⟨type, elements⟩ h => nested type elements h
  · exact nofun
  · exact fun _ _ h hrest => List.forall_mem_cons.mpr ⟨h, hrest⟩
  · exact nofun
  · exact fun _ _ h hrest => List.forall_mem_cons.mpr ⟨h, hrest⟩

theorem encodeValues_eq (values : List ElementValue) :
    encodeValues values = values.map ElementValue.encode := by
  induction values with
  | nil => rfl
  | cons value rest ih => rw [encodeValues, ih, List.map_cons]

theorem encodePairs_eq (elements : List ElementPair) :
    encodePairs elements = elements.map ElementPair.encode := by
  induction elements with
  | nil => rfl
  | cons pair rest ih => rw [encodePairs, ih, List.map_cons]

/-! ## Entries in writing order -/

mutual

/-- The entries of all arrays and lists of elements inside a value. -/
def ElementValue.tableEntries : ElementValue → List TableEntry
  | .constant _ _ => []
  | .enumConstant _ _ => []
  | .nested entry => entry.tableEntries
  | .array values => entriesOfValues 0 values

def AnnotationEntry.tableEntries : AnnotationEntry → List TableEntry
  | .mk _ elements => entriesOfPairs 0 elements

def ElementPair.tableEntries : ElementPair → List TableEntry
  | .mk _ value => value.tableEntries

def entriesOfValues : Nat → List ElementValue → List TableEntry
  | _, [] => []
  | n, value :: rest =>
    ⟨"array_value", .two, n⟩ :: (value.tableEntries ++ entriesOfValues (n + 1) rest)

def entriesOfPairs : Nat → List ElementPair → List TableEntry
  | _, [] => []
  | n, pair :: rest =>
    ⟨"element_value_pairs", .two, n⟩ :: (pair.tableEntries ++ entriesOfPairs (n + 1) rest)

end

theorem entriesOfValues_eq (n : Nat) (values : List ElementValue) :
    entriesOfValues n values = ofItems "array_value" .two ElementValue.tableEntries n values := by
  induction values generalizing n with
  | nil => rfl
  | cons value rest ih => rw [entriesOfValues, ih, ofItems]

theorem entriesOfPairs_eq (n : Nat) (elements : List ElementPair) :
    entriesOfPairs n elements
      = ofItems "element_value_pairs" .two ElementPair.tableEntries n elements := by
  induction elements generalizing n with
  | nil => rfl
  | cons pair rest ih => rw [entriesOfPairs, ih, ofItems]

def TargetInfo.tableEntries : TargetInfo → List TableEntry
  | .localVariable ranges => ofItems "localvar_target" .two (fun _ => []) 0 ranges
  | _ => []

/-- The entries of all tables of an annotation of a type, in the order in which they are written. -/
def TypeAnnotationEntry.tableEntries (a : TypeAnnotationEntry) : List TableEntry :=
  a.target.tableEntries
    ++ (ofItems "type_path" .one (fun _ => []) 0 a.path ++ a.entry.tableEntries)

/-! ## What is refused -/

theorem ElementPair.stops_encode {pair : ElementPair}
    (h : Stops pair.value.tableEntries pair.value.encode) :
    Stops pair.tableEntries pair.encode := by
  cases pair with
  | mk name value =>
    rw [tableEntries, encode]
    exact h.map _

/-- An annotation is refused for the number of its elements, and for what their values are refused
for. -/
theorem AnnotationEntry.stops_of_values (type : Ref .utf8) {elements : List ElementPair}
    (h : ∀ pair ∈ elements, Stops pair.value.tableEntries pair.value.encode) :
    Stops (mk type elements).tableEntries (mk type elements).encode := by
  rw [tableEntries, encode, entriesOfPairs_eq, encodePairs_eq]
  exact (stops_ofEntries _ .two fun pair hpair => ElementPair.stops_encode (h pair hpair)).map _

theorem ElementValue.stops_encode (value : ElementValue) :
    Stops value.tableEntries value.encode := by
  induction value using nestedInduction with
  | constant kind value =>
    rw [tableEntries, encode]
    exact stops_ok _
  | enumConstant type name =>
    rw [tableEntries, encode]
    exact stops_ok _
  | nested type elements ih =>
    rw [tableEntries, encode]
    exact (AnnotationEntry.stops_of_values type ih).map _
  | array values ih =>
    rw [tableEntries, encode, entriesOfValues_eq, encodeValues_eq]
    exact (stops_ofEntries _ .two ih).map _

theorem AnnotationEntry.stops_encode (entry : AnnotationEntry) :
    Stops entry.tableEntries entry.encode := by
  cases entry with
  | mk type elements => exact stops_of_values type fun pair _ => pair.value.stops_encode

theorem TargetInfo.stops_encode (target : TargetInfo) :
    Stops target.tableEntries target.encode := by
  cases target with
  | localVariable ranges => exact stops_ofList "localvar_target" .two ranges
  | _ => exact stops_ok _

/-- An annotation of a type is refused for the first entry that is one too many. -/
theorem TypeAnnotationEntry.stops_encode (a : TypeAnnotationEntry) :
    Stops a.tableEntries a.encode := by
  refine a.target.stops_encode.bind fun _ => ?_
  refine (stops_ofList "type_path" .one a.path).bind fun _ => ?_
  exact a.entry.stops_encode.map _

/-! ## Tables that are too long -/

mutual

/-- An array, or a list of elements, somewhere inside has more entries than two bytes can count. -/
inductive ElementValue.Overlong : ElementValue → Prop
  | array {values : List ElementValue} (h : 65535 < values.length) :
    ElementValue.Overlong (.array values)
  | inside {values : List ElementValue} {value : ElementValue} (hvalue : value ∈ values)
    (h : ElementValue.Overlong value) : ElementValue.Overlong (.array values)
  | nested {entry : AnnotationEntry} (h : AnnotationEntry.Overlong entry) :
    ElementValue.Overlong (.nested entry)

inductive AnnotationEntry.Overlong : AnnotationEntry → Prop
  | elements {type : Ref .utf8} {elements : List ElementPair} (h : 65535 < elements.length) :
    AnnotationEntry.Overlong (.mk type elements)
  | inside {type name : Ref .utf8} {elements : List ElementPair} {value : ElementValue}
    (hpair : .mk name value ∈ elements) (h : ElementValue.Overlong value) :
    AnnotationEntry.Overlong (.mk type elements)

end

/-- The path, the ranges of local variables, or a table inside the annotation itself is too long. -/
inductive TypeAnnotationEntry.Overlong (a : TypeAnnotationEntry) : Prop
  | path (h : 255 < a.path.length)
  | ranges (ranges : List LocalRange) (htarget : a.target = .localVariable ranges)
    (h : 65535 < ranges.length)
  | entry (h : a.entry.Overlong)

theorem AnnotationEntry.overlong_iff_of_values (type : Ref .utf8) {elements : List ElementPair}
    (h : ∀ pair ∈ elements,
      pair.value.Overlong ↔ ∃ x ∈ pair.value.tableEntries, x.isExcess = true) :
    (mk type elements).Overlong ↔ ∃ x ∈ (mk type elements).tableEntries, x.isExcess = true := by
  rw [tableEntries, entriesOfPairs_eq, exists_excess_ofItems (Nat.zero_le _), Nat.zero_add]
  constructor
  · rintro (hlong | ⟨hpair, hvalue⟩)
    · exact .inl hlong
    · refine .inr ⟨_, hpair, ?_⟩
      rw [ElementPair.tableEntries]
      exact (h _ hpair).mp hvalue
  · rintro (hlong | ⟨⟨name, value⟩, hpair, hexcess⟩)
    · exact .elements hlong
    · rw [ElementPair.tableEntries] at hexcess
      exact .inside hpair ((h _ hpair).mpr hexcess)

/-- A value is too long somewhere if and only if some entry is one too many. -/
theorem ElementValue.overlong_iff (value : ElementValue) :
    value.Overlong ↔ ∃ x ∈ value.tableEntries, x.isExcess = true := by
  induction value using nestedInduction with
  | constant kind value =>
    rw [tableEntries]
    exact ⟨nofun, nofun⟩
  | enumConstant type name =>
    rw [tableEntries]
    exact ⟨nofun, nofun⟩
  | nested type elements ih =>
    rw [tableEntries, ← AnnotationEntry.overlong_iff_of_values type ih]
    exact ⟨fun | .nested h => h, .nested⟩
  | array values ih =>
    rw [tableEntries, entriesOfValues_eq, exists_excess_ofItems (Nat.zero_le _), Nat.zero_add]
    constructor
    · rintro (hlong | ⟨hvalue, h⟩)
      · exact .inl hlong
      · exact .inr ⟨_, hvalue, (ih _ hvalue).mp h⟩
    · rintro (hlong | ⟨value, hvalue, hexcess⟩)
      · exact .array hlong
      · exact .inside hvalue ((ih value hvalue).mpr hexcess)

theorem AnnotationEntry.overlong_iff (entry : AnnotationEntry) :
    entry.Overlong ↔ ∃ x ∈ entry.tableEntries, x.isExcess = true := by
  cases entry with
  | mk type elements => exact overlong_iff_of_values type fun pair _ => pair.value.overlong_iff

theorem TargetInfo.exists_excess_iff (target : TargetInfo) :
    (∃ x ∈ target.tableEntries, x.isExcess = true) ↔
      ∃ ranges, target = .localVariable ranges ∧ 65535 < ranges.length := by
  cases target with
  | localVariable ranges =>
    rw [tableEntries, exists_excess_ofItems_nil]
    simp [CountWidth.limit]
  | _ => simp [tableEntries]

/-- An annotation of a type is too long somewhere if and only if some entry is one too many. -/
theorem TypeAnnotationEntry.overlong_iff (a : TypeAnnotationEntry) :
    a.Overlong ↔ ∃ x ∈ a.tableEntries, x.isExcess = true := by
  have hpath : (∃ x ∈ ofItems "type_path" .one (fun _ => []) 0 a.path, x.isExcess = true) ↔
      255 < a.path.length := exists_excess_ofItems_nil "type_path" .one a.path
  simp only [tableEntries, List.mem_append, or_and_right, exists_or, TargetInfo.exists_excess_iff,
    hpath, ← AnnotationEntry.overlong_iff]
  constructor
  · rintro (hpath | ⟨ranges, htarget, hranges⟩ | hentry)
    · exact .inr (.inl hpath)
    · exact .inl ⟨ranges, htarget, hranges⟩
    · exact .inr (.inr hentry)
  · rintro (⟨ranges, htarget, hranges⟩ | hpath | hentry)
    · exact .ranges ranges htarget hranges
    · exact .path hpath
    · exact .entry hentry

/-- An annotation of a type has no bytes if and only if it is too long somewhere. -/
theorem TypeAnnotationEntry.exists_error_iff (a : TypeAnnotationEntry) :
    (∃ e, a.encode = .error e) ↔ a.Overlong := by
  rw [a.stops_encode.exists_error_iff, overlong_iff]

end JvmClass
