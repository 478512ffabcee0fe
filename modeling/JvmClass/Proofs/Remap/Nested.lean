import JvmClass.Proofs.Attribute.Tables
import JvmClass.Proofs.Remap.Annotations
import JvmClass.Proofs.Remap.StackMap

/-!
# Attributes of the code that move

The attributes of the code of a method are moved one by one, each under its name.  Those of a known
form are tables; they are read item by item, copied, and written again.  The others keep their
bytes.

A `MovedAttribute` is what there is to know about an attribute that was moved once: what it says
where it went, and how it moves from there.  Moving it from where it came is the same.

## Key results

- `known?_cases`: a name stands for the same form whatever the attribute is read for
- `moved_nextAttribute`: an attribute that was moved is moved again as from where it came
- `moved_attributes`, `rereads_attributes`: so are all attributes of the code
-/

namespace JvmClass

open Remapper
open AttributeWriter (onPool Adds)

namespace Remapper

variable {α : Type} {act : Action Error Remapper α}

/-- A tracked reader writes no attributes. -/
theorem Tracks.table_eq {copied : View → α → Action Error Pool α} (h : Tracks act copied)
    {r r' : Remapper} {a : α} (hinv : r.output.pool.Inv) (hrun : act.exec r = (.ok a, r')) :
    r'.output.table = r.output.table := by
  obtain ⟨-, hdoes⟩ := h r a r' hinv hrun
  exact (hdoes _ .refl).table_eq hrun

/-- An attribute that was read in between was read to its end. -/
theorem reading_ok {input : Input} {a : α} {r r' : Remapper}
    (h : (reading input act).exec r = (.ok a, r')) :
    ∃ r₁, act.exec ⟨input, r.output⟩ = (.ok a, r₁) ∧ r₁.input.rest = [] ∧
      r'.output = r₁.output ∧ r'.input = r.input := by
  unfold reading at h
  rw [Action.exec_onPart] at h
  obtain ⟨hok, rfl⟩ := Prod.mk.inj h
  obtain ⟨b, r₁, hact, htail⟩ := Action.exec_bind_eq_ok.mp (Prod.ext hok rfl)
  obtain ⟨_, r₂, hfinish, hend⟩ := Action.exec_bind_eq_ok.mp htail
  obtain ⟨rfl, hrest⟩ := finish_ok hfinish
  rw [Action.exec_pure] at hend
  obtain ⟨hb, hr⟩ := Prod.mk.inj hend
  cases hb
  exact ⟨r₂, hact, hrest, (congrArg Remapper.output hr).symm, rfl⟩

/-- So many items are read in a row, and what holds of each that is read holds of all. -/
theorem results_of_times {P : α → Prop} (h : ∀ r a r', act.exec r = (.ok a, r') → P a) {n : Nat}
    {r r' : Remapper} {as : List α} (hrun : (Action.times n act).exec r = (.ok as, r')) :
    as.length = n ∧ ∀ a ∈ as, P a := by
  induction n generalizing r as with
  | zero =>
    cases hrun
    exact ⟨rfl, nofun⟩
  | succ n ih =>
    obtain ⟨a, r₁, rest, ha, hrest, rfl⟩ := Action.exec_times_succ_eq_ok.mp hrun
    obtain ⟨rfl, hall⟩ := ih hrest
    exact ⟨rfl, List.forall_mem_cons.mpr ⟨h r a r₁ ha, hall⟩⟩

theorem results_of_counted {P : α → Prop} (h : ∀ r a r', act.exec r = (.ok a, r') → P a)
    {r r' : Remapper} {as : List α} (hrun : (counted act).exec r = (.ok as, r')) :
    as.length ≤ 65535 ∧ ∀ a ∈ as, P a := by
  obtain ⟨count, r₁, -, htimes⟩ := Action.exec_bind_eq_ok.mp hrun
  obtain ⟨hlen, hall⟩ := results_of_times h htimes
  have := count.toNat_lt
  exact ⟨by omega, hall⟩

/-- An attribute is read to its end in between. -/
theorem Rereads.reading {bytes : List UInt8} {eff : Action Error AttributeWriter α}
    (h : Rereads act bytes eff) (name : String) (input : Input) :
    Does (reading (.start name bytes) act) input input eff := by
  have hall := h (.start name bytes) [] (Nat.le_refl _)
  rw [List.append_nil] at hall
  exact hall.reading rfl input

end Remapper

namespace Remap

/-! ## Lines and local variables -/

theorem plain_lineNumber : Plain lineNumber :=
  plain_u2.bind fun _ => plain_u2.bind fun _ => plain_pure _

theorem rereads_lineNumber (l : LineNumber) : Rereads lineNumber l.encode (pure l) :=
  (rereads_u2 l.start).bind_known ((rereads_u2 l.line).map_known (LineNumber.mk l.start))

/-- Copy the name and the type of a local variable. -/
def copiedLocal (view : View) (v : LocalVariable) : Action Error Pool LocalVariable := do
  let name ← Pool.copyAs .utf8 view v.name.slot
  return { v with name, type := ← Pool.copyAs .utf8 view v.type.slot }

theorem tracks_localVariable (source : View) : Tracks (localVariable source) copiedLocal := by
  refine .bind_plain plain_u2 fun start => .bind_plain plain_u2 fun length => ?_
  -- The index comes behind the two references.
  have htype : Tracks (do
      let type ← ref .utf8 source
      return (type, ← u2)) fun view x => do return (← Pool.copyAs .utf8 view x.1.slot, x.2) :=
    (tracks_ref .utf8 source).map₂ plain_u2.tracks fun _ _ _ => rfl
  have hall : Tracks _ copiedLocal := (tracks_ref .utf8 source).map₂
    (f := fun name x => ⟨start, length, name, x.1, x.2⟩) htype fun _ _ _ => by
      simp only [copiedLocal, bind_assoc, pure_bind]
  simpa only [bind_assoc, pure_bind] using hall

theorem rereads_localVariable (view : View) (v : LocalVariable) :
    Rereads (localVariable view) v.encode (onPool (copiedLocal view v)) := by
  unfold LocalVariable.encode
  simp only [List.append_assoc]
  refine (rereads_u2 v.start).bind_known ((rereads_u2 v.length).bind_known ?_)
  refine (rereads_ref view v.name).bind_onPool fun name => ?_
  rw [← List.append_nil (BigEndian.u2 v.index)]
  refine (rereads_ref view v.type).bind_onPool fun type => ?_
  exact (rereads_u2 v.index).bind_known (rereads_pure _)

/-! ## Attributes of a known form -/

/-- The attribute was read under the given name, and wherever it is written it is read again as if
from where it came: its constants are copied. -/
structure Reread (name : String) (read : View → Action Error Remapper Attribute) (source : View)
    (r : Remapper) (a : Attribute) (r' : Remapper)
    (copied : View → Action Error Pool Attribute) : Prop where
  name_eq : a.name = name
  grows : r.output.pool.Grows r'.output.pool
  table_eq : r'.output.table = r.output.table
  does : ∀ q, r'.output.pool.Grows q →
    Does (read source) r.input r'.input (onPool (copied q.constant))
  rereads : ∀ view version bytes, a.encode version = .ok bytes →
    Rereads (read view) bytes (onPool (copied view))

/-- Attributes that are read this way under the given name are reread. -/
def IsReread (name : String) (read : View → Action Error Remapper Attribute) : Prop :=
  ∀ source r a r', r.output.pool.Inv → (read source).exec r = (.ok a, r') →
    ∃ copied, Reread name read source r a r' copied

/-- Tables are reread if their items are. -/
theorem isReread_table {α : Type} {name : String} {item : View → Action Error Remapper α}
    {copied : View → α → Action Error Pool α} {encode : α → Except Error (List UInt8)}
    {P : α → Prop} (wrap : List α → Attribute) (hname : ∀ items, (wrap items).name = name)
    (hencode : ∀ version items,
      (wrap items).encode version = CountedTable.ofEntries name .two (items.map encode))
    (htracks : ∀ source, Tracks (item source) copied)
    (hfits : ∀ source r a r', (item source).exec r = (.ok a, r') → P a)
    (hrereads : ∀ view a bytes, encode a = .ok bytes → P a →
      Rereads (item view) bytes (onPool (copied view a))) :
    IsReread name fun view => wrap <$> counted (item view) := by
  intro source r a r' hinv hrun
  obtain ⟨items, hitems, rfl⟩ := Action.exec_map_eq_ok.mp hrun
  have hcounted := (htracks source).counted
  obtain ⟨hgrows, hdoes⟩ := hcounted r items r' hinv hitems
  obtain ⟨-, hall⟩ := results_of_counted (hfits source) hitems
  refine ⟨fun view => do return wrap (← items.mapM (copied view)), hname items, hgrows,
    hcounted.table_eq hinv hitems, fun q hq => ?_, fun view version bytes hbytes => ?_⟩
  · rw [← bind_pure_comp]
    exact (hdoes q hq).bind_onPool fun items' => does_pure _ _
  · rw [hencode] at hbytes
    rw [← bind_pure_comp]
    refine Rereads.map (Rereads.table hbytes fun b hb body hbody _ => ?_) wrap
    exact hrereads view b body hbody (hall b hb)

/-- Tables of local variables, whichever they are. -/
private theorem isReread_locals {name : String} (wrap : List LocalVariable → Attribute)
    (hname : ∀ items, (wrap items).name = name)
    (hencode : ∀ version items,
      (wrap items).encode version = CountedTable.ofList name .two LocalVariable.encode items) :
    IsReread name fun view => wrap <$> counted (localVariable view) := by
  refine isReread_table (P := fun _ => True) wrap hname hencode tracks_localVariable
    (fun _ _ _ _ _ => trivial) fun view v bytes hbytes _ => ?_
  cases hbytes
  exact rereads_localVariable view v

private theorem isReread_typeAnnotations (retention : Retention) :
    IsReread (retention.name ++ "TypeAnnotations")
      fun view => .typeAnnotations retention <$> counted (TypeAnnotationEntry.read view) :=
  isReread_table (.typeAnnotations retention) (fun _ => rfl) (fun _ _ => rfl)
    TypeAnnotationEntry.tracks_read (fun _ _ _ _ h => TypeAnnotationEntry.fits_of_read h)
    fun view _ _ h hfits => TypeAnnotationEntry.rereads_of_encode view h hfits

private theorem isReread_lineNumbers :
    IsReread "LineNumberTable" fun _ => .lineNumberTable <$> counted lineNumber := by
  refine isReread_table (P := fun _ => True) Attribute.lineNumberTable (fun _ => rfl)
    (fun _ _ => rfl) (fun _ => plain_lineNumber.tracks) (fun _ _ _ _ _ => trivial)
    fun view l bytes hbytes _ => ?_
  cases hbytes
  exact rereads_lineNumber l

private theorem isReread_frames :
    IsReread "StackMapTable" fun view => .stackMapTable <$> counted (StackMapFrame.read view) :=
  isReread_table (P := fun _ => True) Attribute.stackMapTable (fun _ => rfl) (fun _ _ => rfl)
    StackMapFrame.tracks_read (fun _ _ _ _ _ => trivial)
    fun view _ _ h _ => StackMapFrame.rereads_of_encode view h

/-- A name stands for the same form whatever the attribute is read for. -/
theorem known?_cases (name : String) :
    (∀ view, known? view name = none) ∨
      ∃ read, (∀ view, known? view name = some (read view)) ∧ IsReread name read := by
  unfold known?
  split
  · rename_i h
    exact .inr ⟨_, fun _ => rfl, h ▸ isReread_lineNumbers⟩
  split
  · rename_i h
    exact .inr ⟨_, fun _ => rfl, h ▸ isReread_locals _ (fun _ => rfl) fun _ _ => rfl⟩
  split
  · rename_i h
    exact .inr ⟨_, fun _ => rfl, h ▸ isReread_locals _ (fun _ => rfl) fun _ _ => rfl⟩
  split
  · rename_i h
    exact .inr ⟨_, fun _ => rfl, h ▸ isReread_frames⟩
  split
  · rename_i h
    exact .inr ⟨_, fun _ => rfl, h ▸ isReread_typeAnnotations .visible⟩
  split
  · rename_i h
    exact .inr ⟨_, fun _ => rfl, h ▸ isReread_typeAnnotations .invisible⟩
  · exact .inl fun _ => rfl

/-! ## Moving an attribute -/

/-- An attribute that was moved: what it says where it went, and how it moves from there. -/
structure MovedAttribute where
  content : AttributeContent
  move : View → Action Error AttributeWriter Unit

/-- Wherever the attribute stands, it moves on as it is said to. -/
def MovedAttribute.MovesOn (x : MovedAttribute) : Prop :=
  ∀ (q : Pool) (a : RawAttribute), q.Shows x.content a → a.Fits →
    Rereads (nextAttribute q.constant) a.encode (x.move q.constant)

/-- An attribute in a class file is taken with the slot of its name and its bytes. -/
theorem rereads_nextAttribute_of_slot {source : View} {a : RawAttribute}
    {eff : Action Error AttributeWriter Unit} (hfits : a.Fits)
    (h : ∀ input, Does (do
      nestedAttribute source (← Action.ofExcept (nameAt source a.name.slot)) a.info)
        input input eff) : Rereads (nextAttribute source) a.encode eff := by
  have hlen : a.info.length < 256 ^ 4 := Nat.lt_succ_of_le hfits
  refine (rereads_u2 a.name.slot).bind_known ((rereads_field hlen).bind_known ?_)
  exact (rereads_bytes a.info).bind_does h

/-- The slot stands for the name. -/
theorem rereads_nextAttribute {q : Pool} {a : RawAttribute} {name : String}
    {eff : Action Error AttributeWriter Unit} (hname : q.text a.name = .ok name) (hfits : a.Fits)
    (h : ∀ input, Does (nestedAttribute q.constant name a.info) input input eff) :
    Rereads (nextAttribute q.constant) a.encode eff := by
  have hconstant : q.constant a.name.slot = .ok (.utf8 name) :=
    Pool.constant_of_record (Pool.text_eq_ok_iff.mp hname) rfl
  have hnameAt : nameAt q.constant a.name.slot = .ok name := by
    unfold nameAt
    rw [hconstant]
    rfl
  refine rereads_nextAttribute_of_slot hfits fun input => ?_
  exact (does_inspect (f := fun _ => _) hnameAt).bind_known (h input)

theorem nestedAttribute_known {source : View} {name : String}
    {read : Action Error Remapper Attribute} (h : known? source name = some read)
    (info : List UInt8) : nestedAttribute source name info
      = reading (.start name info) read >>= fun a => onOutput (AttributeWriter.add a) := by
  unfold nestedAttribute
  rw [h]

theorem nestedAttribute_unknown {source : View} {name : String} (h : known? source name = none)
    (info : List UInt8) :
    nestedAttribute source name info = onOutput (AttributeWriter.addNamed name info) := by
  unfold nestedAttribute
  rw [h]

/-- The attribute moves on, and from where it came it moves the same way. -/
structure Moved (act : Action Error Remapper Unit) (r : Remapper) (x : MovedAttribute)
    (r' : Remapper) : Prop where
  movesOn : x.MovesOn
  adds : r.output.Adds [x.content] r'.output
  does : ∀ q, r'.output.pool.Grows q → Does act r.input r'.input (x.move q.constant)

/-- The bytes of an attribute of unknown form stay. -/
theorem moved_unknown {source : View} {name : String} {info : List UInt8} {r r' : Remapper}
    (hinv : r.output.pool.Inv) (hknown : ∀ view, known? view name = none)
    (h : (nestedAttribute source name info).exec r = (.ok (), r')) :
    Moved (nestedAttribute source name info) r
      ⟨.named name info, fun _ => AttributeWriter.addNamed name info⟩ r' := by
  rw [nestedAttribute_unknown (hknown source)] at h ⊢
  obtain ⟨hadd, hinput⟩ := onOutput_ok h
  refine ⟨fun q a hshows hfits => ?_, ?_, fun q _ => ?_⟩
  · cases hshows with
    | named hname =>
      refine rereads_nextAttribute hname hfits fun input => ?_
      rw [nestedAttribute_unknown (hknown q.constant)]
      exact does_onOutput _ input
  · exact ((AttributeWriter.addsOne_addNamed hinv name info).of_ok hadd).adds
  · rw [hinput]
    exact does_onOutput _ r.input

/-- An attribute of known form is read again wherever it was written. -/
theorem moved_known {source : View} {name : String} {info : List UInt8} {r r' : Remapper}
    (hinv : r.output.pool.Inv) {read : View → Action Error Remapper Attribute}
    (hknown : ∀ view, known? view name = some (read view)) (hread : IsReread name read)
    (h : (nestedAttribute source name info).exec r = (.ok (), r')) :
    ∃ x, Moved (nestedAttribute source name info) r x r' := by
  rw [nestedAttribute_known (hknown source)] at h ⊢
  obtain ⟨a, r₁, hreading, hadd⟩ := Action.exec_bind_eq_ok.mp h
  obtain ⟨r₂, hrun, hend, houtput, hinput⟩ := reading_ok hreading
  obtain ⟨copied, hreread⟩ := hread source ⟨.start name info, r.output⟩ a r₂ hinv hrun
  obtain ⟨hadd, hinput'⟩ := onOutput_ok hadd
  obtain rfl := hreread.name_eq
  -- Only the pool has changed when the attribute is added.
  have hpool : r₁.output = ⟨r₁.output.pool, r.output.table⟩ := by
    rw [houtput, ← hreread.table_eq]
  have hgrows : r.output.pool.Grows r₁.output.pool := by
    rw [houtput]
    exact hreread.grows
  have hadds := ((AttributeWriter.addsOne_add (hgrows.inv hinv) a).of_ok hadd).adds
  have hadds₁ : r.output.Adds [] r₁.output := by
    rw [hpool]
    exact AttributeWriter.adds_of_grows hgrows
  refine ⟨⟨.predefined a, fun view => do AttributeWriter.add (← onPool (copied view))⟩,
    fun q raw hshows hfits => ?_, hadds₁.trans hadds, fun q hq => ?_⟩
  · cases hshows with
    | @predefined i a info hname hinfo =>
      refine rereads_nextAttribute hname hfits fun input => ?_
      rw [nestedAttribute_known (hknown q.constant)]
      have hbytes := (hreread.rereads q.constant q.version info hinfo).reading a.name input
      exact hbytes.bind fun a' => does_onOutput _ input
  · rw [hinput', hinput]
    have hq₂ : r₂.output.pool.Grows q := by
      rw [← houtput]
      exact trans_of Pool.Grows hadds.grows hq
    have hbytes := (hreread.does q hq₂).reading hend r.input
    exact hbytes.bind fun a' => does_onOutput _ r.input

theorem moved_nestedAttribute {source : View} {name : String} {info : List UInt8}
    {r r' : Remapper} (hinv : r.output.pool.Inv)
    (h : (nestedAttribute source name info).exec r = (.ok (), r')) :
    ∃ x, Moved (nestedAttribute source name info) r x r' := by
  obtain hknown | ⟨read, hknown, hread⟩ := known?_cases name
  · exact ⟨_, moved_unknown hinv hknown h⟩
  · exact moved_known hinv hknown hread h

/-- Plain bytes come before the attribute. -/
theorem Moved.bind_plain {α : Type} {act : Action Error Remapper α}
    {k : α → Action Error Remapper Unit} {a : α} {r r₁ r' : Remapper} {x : MovedAttribute}
    (hact : Plain act) (hrun : act.exec r = (.ok a, r₁)) (h : Moved (k a) r₁ x r') :
    Moved (act >>= k) r x r' := by
  obtain ⟨hout, hdoes⟩ := hact r a r₁ hrun
  refine ⟨h.movesOn, hout ▸ h.adds, fun q hq => hdoes.bind_known (h.does q hq)⟩

/-- An attribute that was moved is moved again as from where it came. -/
theorem moved_nextAttribute {source : View} {r r' : Remapper} (hinv : r.output.pool.Inv)
    (h : (nextAttribute source).exec r = (.ok (), r')) :
    ∃ x, Moved (nextAttribute source) r x r' := by
  obtain ⟨i, r₁, hi, h⟩ := Action.exec_bind_eq_ok.mp h
  obtain ⟨size, r₂, hsize, h⟩ := Action.exec_bind_eq_ok.mp h
  obtain ⟨info, r₃, hinfo, h⟩ := Action.exec_bind_eq_ok.mp h
  obtain ⟨name, r₄, hname, h⟩ := Action.exec_bind_eq_ok.mp h
  have hnameAt : Plain (Action.ofExcept (nameAt source i)) := plain_inspect fun _ => _
  have hinv₄ : r₄.output.pool.Inv := by
    rwa [(hnameAt _ _ _ hname).1, (plain_bytes size _ _ _ hinfo).1, (plain_u4 _ _ _ hsize).1,
      (plain_u2 _ _ _ hi).1]
  obtain ⟨x, hx⟩ := moved_nestedAttribute hinv₄ h
  exact ⟨x, .bind_plain plain_u2 hi <| .bind_plain plain_u4 hsize <|
    .bind_plain (plain_bytes size) hinfo <| .bind_plain hnameAt hname hx⟩

/-! ## All attributes of the code -/

/-- The attributes move on one by one, and from where they came they move the same way. -/
structure MovedAll (act : Action Error Remapper (List Unit)) (r : Remapper)
    (xs : List MovedAttribute) (r' : Remapper) : Prop where
  movesOn : ∀ x ∈ xs, x.MovesOn
  adds : r.output.Adds (xs.map MovedAttribute.content) r'.output
  does : ∀ q, r'.output.pool.Grows q →
    Does act r.input r'.input (xs.mapM fun x => x.move q.constant)

theorem moved_times {source : View} {n : Nat} {us : List Unit} {r r' : Remapper}
    (hinv : r.output.pool.Inv)
    (h : (Action.times n (nextAttribute source)).exec r = (.ok us, r')) :
    ∃ xs, MovedAll (Action.times n (nextAttribute source)) r xs r' := by
  -- Induction on the attributes: the first one is read again in the pool that is there in the end.
  induction n generalizing r us with
  | zero =>
    cases h
    exact ⟨[], nofun, AttributeWriter.adds_nil _, fun q _ => does_pure [] _⟩
  | succ n ih =>
    obtain ⟨_, r₁, us', hfirst, hrest, -⟩ := Action.exec_times_succ_eq_ok.mp h
    obtain ⟨x, hx⟩ := moved_nextAttribute hinv hfirst
    obtain ⟨xs, hxs⟩ := ih (hx.adds.grows.inv hinv) hrest
    refine ⟨x :: xs, List.forall_mem_cons.mpr ⟨hx.movesOn, hxs.movesOn⟩, hx.adds.trans hxs.adds,
      fun q hq => ?_⟩
    rw [Action.times_succ, List.mapM_cons]
    refine (hx.does q (trans_of Pool.Grows hxs.adds.grows hq)).bind fun _ => ?_
    exact (hxs.does q hq).bind fun us => does_pure _ r'.input

/-- Attributes that were moved one by one move again one by one. -/
theorem moved_attributes {source : View} {us : List Unit} {r r' : Remapper}
    (hinv : r.output.pool.Inv) (h : (counted (nextAttribute source)).exec r = (.ok us, r')) :
    ∃ xs, MovedAll (counted (nextAttribute source)) r xs r' := by
  obtain ⟨count, r₁, hcount, h⟩ := Action.exec_bind_eq_ok.mp h
  obtain ⟨hout, hdoes⟩ := plain_u2 r count r₁ hcount
  obtain ⟨xs, hxs⟩ := moved_times (hout ▸ hinv) h
  exact ⟨xs, hxs.movesOn, hout ▸ hxs.adds, fun q hq => hdoes.bind_known (hxs.does q hq)⟩

/-- The attributes of a table move on one by one. -/
theorem rereads_attributes {q : Pool} {xs : List MovedAttribute} {as : List RawAttribute}
    (hon : ∀ x ∈ xs, x.MovesOn) (hshows : List.Forall₂ q.Shows (xs.map MovedAttribute.content) as)
    (hlen : as.length ≤ 65535) (hfits : ∀ a ∈ as, a.Fits) :
    Rereads (counted (nextAttribute q.constant)) (encodeCounted RawAttribute.encode as)
      (xs.mapM fun x => x.move q.constant) := by
  rw [List.forall₂_map_left_iff] at hshows
  have hmoves : List.Forall₂ (fun x body => Rereads (nextAttribute q.constant) body
      (x.move q.constant)) xs (as.map RawAttribute.encode) := by
    rw [List.forall₂_map_right_iff]
    clear hlen
    induction hshows with
    | nil => exact .nil
    | @cons x a xs as hx _ ih =>
      obtain ⟨hon, hons⟩ := List.forall_mem_cons.mp hon
      obtain ⟨hfit, hfits⟩ := List.forall_mem_cons.mp hfits
      exact .cons (hon q a hx hfit) (ih hons hfits)
  have hlengths := hshows.length_eq
  have hall := Rereads.counted (by omega) hmoves
  rwa [hlengths, ← List.flatMap_def] at hall

end Remap

end JvmClass
