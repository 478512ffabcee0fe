import JvmClass.Proofs.Remap.Copies
import JvmClass.Proofs.Remap.Frames

/-!
# Frames that are written are read back

Reading the bytes of a frame for some pool imports the classes of the frame one after the other.
Where all of them can be imported, the frame comes back with each class replaced by its import, and
what follows the bytes is left.  A frame has no bytes only if it chops or appends a number of locals
that no first byte stands for, or has more locals or stack entries than a count can say.

`Pool.importAll` makes the imports alone.  `Imports view classes act result` says of an action that
it makes them, too, and that its result has them in the places of the classes.  Classes are one kind
of reference, and this is what `Copies` says of references to them.

## Key results

- `Pool.isImport_of_importAll`: where all imports have been made, the pool gives that of each class
- `Copies.imports`: copying references to classes is importing classes
- `StackMapFrame.imports_copied`: a frame has its classes imported in order
- `StackMapFrame.unwritable_of_encode`: the frames that have no bytes
- `StackMapFrame.readsBack_of_importAll`: writing a frame and reading it back
-/

namespace JvmClass

open Remapper
open AttributeWriter (onPool)
open JvmClass.Action (exec_bind_eq_ok except_bind_eq_error)

/-! ## Importing classes -/

namespace Pool

/-- Import some classes in order; nothing needs no import. -/
def importAll (view : View) (classes : List (Ref .class)) :
    Action Error Pool (List (Ref .class)) :=
  (classes.filter (· ≠ .none)).mapM fun c => copyAs .class view c.slot

/-- What a pool gives for a class; nothing if it cannot be imported. -/
def importOf (view : View) (q : Pool) (c : Ref .class) : Ref .class :=
  match ((copyAs .class view c.slot).exec q).1 with
  | .ok c' => c'
  | .error _ => .none

variable {view : View} {p p' : Pool} {c : Ref .class} {classes imports : List (Ref .class)}

/-- What a pool gives for a class is what it gives for the reference. -/
theorem given_class (view : View) (q : Pool) : q.given view .class = q.importOf view := by
  funext c
  unfold given importOf
  rcases (copyAs .class view c.slot).exec q with ⟨e | j, q'⟩ <;> rfl

/-- Classes are imported as references to constants of their kind. -/
theorem exec_importRefs_of_importAll (h : (importAll view classes).exec p = (.ok imports, p')) :
    (importRefs view (classes.map Ref.any)).exec p = (.ok (imports.map Ref.any), p') := by
  -- Induction on the classes, of which nothing is passed over.
  induction classes generalizing p imports with
  | nil =>
    cases h
    rfl
  | cons c classes ih =>
    unfold importAll at h
    rw [List.map_cons]
    by_cases hc : c = .none
    · rw [List.filter_cons_of_neg (by simpa using hc)] at h
      rw [importRefs_cons_of_zero (congrArg Ref.slot hc)]
      exact ih h
    · rw [List.filter_cons_of_pos (by simpa using hc), List.mapM_cons] at h
      obtain ⟨c', p₁, hcopy, h⟩ := exec_bind_eq_ok.mp h
      obtain ⟨imports, p₂, hrest, hend⟩ := exec_bind_eq_ok.mp h
      cases hend
      exact (exec_importRefs_cons (Ref.slot_any_ne_zero.mpr hc)).mpr
        ⟨c', p₁, imports.map Ref.any, hcopy, ih hrest, rfl⟩

/-- Where all imports have been made, the pool gives the import of each class. -/
theorem isImport_of_importAll (hinv : p.Inv)
    (h : (importAll view classes).exec p = (.ok imports, p')) (hc : c ∈ classes) :
    IsImport view p' .class c.slot (p'.importOf view c).slot := by
  rw [← given_class]
  exact (isImport_of_importRefs hinv (exec_importRefs_of_importAll h)).2 c.any
    (List.mem_map_of_mem hc)

end Pool

open Pool (importAll isImport_of_importAll exec_importRefs_of_importAll)

variable {α : Type} {view : View}

/-- Where the classes can be imported, the action does it and succeeds.  Its result is told from
what any later pool gives for the classes. -/
def Imports (view : View) (classes : List (Ref .class)) (act : Action Error Pool α)
    (result : (Ref .class → Ref .class) → α) : Prop :=
  ∀ p imports p', p.Inv → (importAll view classes).exec p = (.ok imports, p') →
    p.Grows p' ∧ ∀ q, p'.Grows q → act.exec p = (.ok (result (q.importOf view)), p')

/-- Importing classes is importing references, all of the same kind. -/
theorem Copies.imports {classes : List (Ref .class)} {act : Action Error Pool α}
    {result : (Ref .class → Ref .class) → α}
    (h : Copies view (classes.map Ref.any) act fun imp => result (imp .class)) :
    Imports view classes act result := by
  intro p imports p' hinv hall
  simp only [← Pool.given_class]
  exact h p _ p' hinv (exec_importRefs_of_importAll hall)

/-- The imports themselves are what any later pool gives. -/
theorem imports_importAll (view : View) (classes : List (Ref .class)) :
    Imports view classes (importAll view classes) fun imp =>
      (classes.filter (· ≠ .none)).map imp := by
  have hused : (classes.map Ref.any).filter (·.slot ≠ 0)
      = (classes.filter (· ≠ .none)).flatMap fun c => [c.any] := by
    have hnone : ∀ c ∈ classes, decide (c.any.slot ≠ 0) = decide (c ≠ .none) :=
      fun _ _ => decide_eq_decide.mpr Ref.slot_any_ne_zero
    rw [← List.filter_congr hnone, List.filter_map, List.map_eq_flatMap]
    rfl
  -- Making the imports is copying one class after the other.
  have hall := Copies.mapM fun c (_ : c ∈ classes.filter (· ≠ .none)) => copies_copyAs view c
  rw [← hused] at hall
  exact hall.of_filter.imports

/-! ## Classes of frames -/

namespace VerificationType

/-- The class of a type, if it has one; this may be nothing. -/
def classes : VerificationType → List (Ref .class)
  | object type => [type]
  | _ => []

/-- The type with its class replaced. -/
def mapClass (f : Ref .class → Ref .class) : VerificationType → VerificationType
  | object type => object (f type)
  | type => type

theorem copies_copied (view : View) (type : VerificationType) :
    Copies view (type.classes.map Ref.any) (type.copied view) fun imp =>
      type.mapClass (imp .class) := by
  cases type with
  | object c => exact (copies_copyAs view c).map object
  | _ => exact copies_pure view _

end VerificationType

namespace StackMapFrame

/-- The classes of a frame in the order of its bytes. -/
def classes : StackMapFrame → List (Ref .class)
  | same _ => []
  | oneStack _ entry => entry.classes
  | chop _ _ => []
  | append _ locals => locals.flatMap VerificationType.classes
  | full _ locals stack =>
    locals.flatMap VerificationType.classes ++ stack.flatMap VerificationType.classes

/-- The frame with its classes replaced. -/
def mapClasses (f : Ref .class → Ref .class) : StackMapFrame → StackMapFrame
  | same delta => same delta
  | oneStack delta entry => oneStack delta (entry.mapClass f)
  | chop delta count => chop delta count
  | append delta locals => append delta (locals.map (·.mapClass f))
  | full delta locals stack => full delta (locals.map (·.mapClass f)) (stack.map (·.mapClass f))

theorem copies_copied (view : View) (frame : StackMapFrame) :
    Copies view (frame.classes.map Ref.any) (frame.copied view) fun imp =>
      frame.mapClasses (imp .class) := by
  have htypes := fun types : List VerificationType =>
    Copies.mapM fun type (_ : type ∈ types) => type.copies_copied view
  simp only [← List.map_flatMap] at htypes
  cases frame with
  | same delta => exact copies_pure view _
  | oneStack delta entry => exact (entry.copies_copied view).map (oneStack delta)
  | chop delta count => exact copies_pure view _
  | append delta locals => exact (htypes locals).map (StackMapFrame.append delta)
  | full delta locals stack =>
    rw [classes, List.map_append]
    exact (htypes locals).bind fun locals' => (htypes stack).map (full delta locals')

/-- A frame has its classes imported in order. -/
theorem imports_copied (view : View) (frame : StackMapFrame) :
    Imports view frame.classes (frame.copied view) fun imp => frame.mapClasses imp :=
  (frame.copies_copied view).imports

/-! ## Frames without bytes -/

/-- A frame has no bytes, for one of the reasons that there are. -/
inductive Unwritable : StackMapFrame → Error → Prop
  | chop (delta : UInt16) {count : UInt8} (h : count < 1 ∨ 3 < count) :
    Unwritable (.chop delta count) (.invalidFrame .chop count.toNat)
  | append (delta : UInt16) {locals : List VerificationType}
    (h : locals.length < 1 ∨ 3 < locals.length) :
    Unwritable (.append delta locals) (.invalidFrame .append locals.length)
  | locals (delta : UInt16) {locals : List VerificationType} (stack : List VerificationType)
    (h : 65535 < locals.length) :
    Unwritable (.full delta locals stack) (.tableOverflow "locals" 65535)
  | stack (delta : UInt16) {locals stack : List VerificationType} (hlocals : locals.length ≤ 65535)
    (h : 65535 < stack.length) :
    Unwritable (.full delta locals stack) (.tableOverflow "stack" 65535)

theorem unwritable_of_encode {frame : StackMapFrame} {e : Error} (h : frame.encode = .error e) :
    frame.Unwritable e := by
  cases frame with
  | same delta =>
    rw [encode] at h
    split at h <;> cases h
  | oneStack delta entry =>
    rw [encode] at h
    split at h <;> cases h
  | chop delta count =>
    rw [encode] at h
    split at h
    · cases h
    · rename_i hcount
      cases h
      refine .chop delta ?_
      simp only [UInt8.lt_iff_toNat_lt, UInt8.le_iff_toNat_le] at hcount ⊢
      omega
  | append delta locals =>
    rw [encode] at h
    split at h
    · cases h
    · cases h
      exact .append delta (by omega)
  | full delta locals stack =>
    -- The stack is looked at only after the locals were accepted.
    rcases except_bind_eq_error.mp h with h | ⟨xs, hlocals, h⟩
    · obtain ⟨hlong, rfl⟩ := CountedTable.ofList_eq_error.mp h
      exact .locals delta stack hlong
    rcases except_bind_eq_error.mp h with h | ⟨ys, -, h⟩
    · obtain ⟨hlong, rfl⟩ := CountedTable.ofList_eq_error.mp h
      exact .stack delta (CountedTable.ofList_eq_ok.mp hlocals).1 hlong
    · cases h

theorem Unwritable.encode_eq {frame : StackMapFrame} {e : Error} (h : frame.Unwritable e) :
    frame.encode = .error e := by
  cases h with
  | chop delta h =>
    refine if_neg fun hcount => ?_
    simp only [UInt8.lt_iff_toNat_lt, UInt8.le_iff_toNat_le] at h hcount
    omega
  | append delta h => exact if_neg (by omega)
  | locals delta stack h =>
    exact except_bind_eq_error.mpr (.inl (CountedTable.ofList_eq_error.mpr ⟨h, rfl⟩))
  | stack delta hlocals h =>
    exact except_bind_eq_error.mpr (.inr ⟨_, CountedTable.ofList_eq_ok.mpr ⟨hlocals, rfl⟩,
      except_bind_eq_error.mpr (.inl (CountedTable.ofList_eq_error.mpr ⟨h, rfl⟩))⟩)

/-! ## Reading back -/

/-- The bytes are read for a pool as the frame with its classes imported, in the middle of any
attribute: what follows them is left, the pool is the one that the imports alone end with, and in
that pool each class has been replaced by its import. -/
structure ReadsBack (view : View) (frame : StackMapFrame) (bytes : List UInt8) (p : Pool)
    (imports : List (Ref .class)) (p' : Pool) : Prop where
  imports_eq : imports = (frame.classes.filter (· ≠ .none)).map (p'.importOf view)
  isImport : ∀ c ∈ frame.classes, IsImport view p' .class c.slot (p'.importOf view c).slot
  exec_read : ∀ (name : String) (before : Nat) (rest : List UInt8) (table : CountedTable),
    (read view).exec ⟨⟨name, before + (bytes ++ rest).length, bytes ++ rest⟩, ⟨p, table⟩⟩
      = (.ok (frame.mapClasses (p'.importOf view)),
        ⟨⟨name, before + (bytes ++ rest).length, rest⟩, ⟨p', table⟩⟩)

theorem readsBack_of_importAll {view : View} {frame : StackMapFrame} {bytes : List UInt8}
    {p p' : Pool} {imports : List (Ref .class)} (hinv : p.Inv) (hbytes : frame.encode = .ok bytes)
    (h : (importAll view frame.classes).exec p = (.ok imports, p')) :
    frame.ReadsBack view bytes p imports p' where
  imports_eq := by
    obtain ⟨-, hexec⟩ := imports_importAll view frame.classes p imports p' hinv h
    cases h.symm.trans (hexec p' .refl)
    rfl
  isImport c hc := isImport_of_importAll hinv h hc
  exec_read name before rest table := by
    obtain ⟨-, hcopied⟩ := frame.imports_copied view p imports p' hinv h
    have heff : (onPool (frame.copied view)).exec ⟨p, table⟩
        = (.ok (frame.mapClasses (p'.importOf view)), ⟨p', table⟩) :=
      AttributeWriter.exec_onPool_eq.mpr ⟨hcopied p' .refl, rfl⟩
    exact (rereads_of_encode view hbytes).exec_eq_ok heff name before rest

/-- Reading undoes writing.  Where the classes of a frame, but for nothing, can be imported to a
reachable pool one after the other, the bytes of the frame are read as the frame with its classes
imported, and what follows them is left.  A frame has no bytes if and only if it chops or appends a
number of locals other than one, two or three, or has more locals or stack entries than a count can
say. -/
theorem readsBack_of_encode (version : Version) (calls : List Pool.Call) (view : View)
    (frame : StackMapFrame) :
    (∀ bytes imports p', frame.encode = .ok bytes →
      (importAll view frame.classes).exec ((Pool.empty version).afterCalls calls)
        = (.ok imports, p') →
      frame.ReadsBack view bytes ((Pool.empty version).afterCalls calls) imports p') ∧
    ∀ e, frame.encode = .error e ↔ frame.Unwritable e :=
  ⟨fun _ _ _ hbytes h => readsBack_of_importAll (Pool.inv_afterCalls version calls) hbytes h,
    fun _ => ⟨unwritable_of_encode, Unwritable.encode_eq⟩⟩

end StackMapFrame

namespace Remap

/-- A frame with a class and with nothing in the place of another one. -/
def classFrame : StackMapFrame := .full 70 [.object ⟨5⟩, .uninitialized 3] [.object .none]

/-- A pool with the class of that frame at slot 2. -/
def classPool : Pool := ((Pool.empty .java8).append (.utf8 "A")).append (.named .class ⟨1⟩)

/-- The frame is read back for an empty pool, in front of another byte. -/
theorem readsBack_classFrame :
    let bytes := [255, 0, 70, 0, 2, 7, 0, 5, 8, 0, 3, 0, 1, 7, 0, 0]
    classFrame.encode = .ok bytes ∧
      (importAll classView classFrame.classes).exec ((Pool.empty .java8).afterCalls [])
        = (.ok [⟨2⟩], classPool) ∧
      classFrame.ReadsBack classView bytes ((Pool.empty .java8).afterCalls []) [⟨2⟩] classPool ∧
      ∀ table : CountedTable, (StackMapFrame.read classView).exec
          ⟨.start "StackMapTable" (bytes ++ [9]), ⟨(Pool.empty .java8).afterCalls [], table⟩⟩
        = (.ok (.full 70 [.object ⟨2⟩, .uninitialized 3] [.object .none]),
          ⟨⟨"StackMapTable", 17, [9]⟩, ⟨classPool, table⟩⟩) := by
  have hbytes : classFrame.encode
      = .ok [255, 0, 70, 0, 2, 7, 0, 5, 8, 0, 3, 0, 1, 7, 0, 0] := by decide +kernel
  have himports : (importAll classView classFrame.classes).exec
      ((Pool.empty .java8).afterCalls []) = (.ok [⟨2⟩], classPool) :=
    exec_bind_eq_ok.mpr ⟨⟨2⟩, _, exec_copyAs_class, rfl⟩
  have hback := (StackMapFrame.readsBack_of_encode .java8 [] classView classFrame).1 _ _ _ hbytes
    himports
  refine ⟨hbytes, himports, hback, fun table => ?_⟩
  have himport : classPool.importOf classView ⟨5⟩ = ⟨2⟩ :=
    (List.cons.inj hback.imports_eq).1.symm
  have hread := hback.exec_read "StackMapTable" 0 [9] table
  simp only [classFrame, StackMapFrame.mapClasses, List.map_cons, List.map_nil,
    VerificationType.mapClass, himport] at hread
  exact hread

end Remap

end JvmClass
