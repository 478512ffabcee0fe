import JvmClass.Proofs.Attribute.AllOrNothing
import JvmClass.Proofs.Code.Boundaries
import JvmClass.Proofs.Pool.Distinct
import JvmClass.Proofs.Remap.PrefixFree
import JvmClass.Proofs.Remap.Rewriting

/-!
# Code that was written can be moved

Code that an assembler has put together and a table of attributes has taken in can be moved to
any pool, unless one of its constants is in the way: every count, every tag and every length that is
read is one that was written, and what is written again is no longer than what was read.

What is read is settled by the bytes (`Rereads`), what is written by the room in the table that is
written to (`Fills`).  They meet at the attributes of the code: `CanMove` says both of one of them.

The attributes of a known form have to have been written in this form.  One that was given by its
name and its bytes may hold anything.

## Key results

- `canMove_content`: an attribute that a call has added
- `exists_holdsCode`: what a call for the code of a method has added
- `delivers_code`: moving the code of a method, put together from its parts
- `isAboutConstant_of_finish`: moving the code of a finished method
-/

namespace JvmClass

open Remapper
open AttributeWriter (onPool)
open Remap (knownNames nameAt known? nextAttribute)

-- Powers are those of the core library, also where Mathlib brings its own.
attribute [local instance (high)] instPowNat

variable {α β : Type}

/-! ## Room in a table -/

namespace AttributeWriter

/-- There is room for `n` attributes more. -/
structure HasRoom (w : AttributeWriter) (n : Nat) : Prop where
  width_eq : w.table.width = .two
  count_le : w.table.count + n ≤ 65535

/-- A table with room for them gets `n` attributes, and the result is one that `R` holds of, unless
a constant is to blame. -/
def Fills (n : Nat) (act : Action Error AttributeWriter α) (R : α → Prop) : Prop :=
  ∀ w m, w.HasRoom (n + m) →
    match act.exec w with
    | (.ok a, w') => R a ∧ w'.HasRoom m
    | (.error e, _) => e.isAboutConstant = true

theorem fills_pure {R : α → Prop} {a : α} (h : R a) : Fills 0 (pure a) R := by
  intro w m hroom
  rw [Nat.zero_add] at hroom
  exact ⟨h, hroom⟩

namespace Fills

variable {R : α → Prop} {S : β → Prop} {n m : Nat}

theorem bind {act : Action Error AttributeWriter α} {k : α → Action Error AttributeWriter β}
    (h : Fills n act R) (hk : ∀ a, R a → Fills m (k a) S) : Fills (n + m) (act >>= k) S := by
  intro w l hroom
  rw [Nat.add_assoc] at hroom
  have hfirst := h w (m + l) hroom
  rw [Action.exec_bind]
  rcases hact : act.exec w with ⟨e | a, w'⟩
  · rw [hact] at hfirst
    exact hfirst
  · -- The second part begins with the room that the first one has left.
    rw [hact] at hfirst
    obtain ⟨ha, hroom'⟩ := hfirst
    exact hk a ha w' l hroom'

/-- Constants that are needed first take no room. -/
theorem bind_onPool {act : Action Error Pool α} {k : α → Action Error AttributeWriter β}
    (h : act.Delivers R) (hk : ∀ a, R a → Fills n (k a) S) : Fills n (onPool act >>= k) S := by
  have hact : Fills 0 (onPool act) R := by
    intro w m hroom
    have hpool := h w.pool
    rw [Nat.zero_add] at hroom
    unfold onPool
    rw [Action.exec_onPart]
    rcases hexec : act.exec w.pool with ⟨e | a, p⟩
    · rw [hexec] at hpool
      exact hpool
    · rw [hexec] at hpool
      exact ⟨hpool, hroom.width_eq, hroom.count_le⟩
  have hall := hact.bind hk
  rwa [Nat.zero_add] at hall

theorem discard {act : Action Error AttributeWriter α} (h : Fills n act R) :
    Fills n (discard act) fun _ => True := by
  intro w m hroom
  have hact := h w m hroom
  rw [Action.exec_discard]
  rcases hexec : act.exec w with ⟨e | a, w'⟩
  · rw [hexec] at hact
    exact hact
  · rw [hexec] at hact
    exact ⟨trivial, hact.2⟩

/-- One attribute for each item of a list. -/
theorem mapM {f : β → Action Error AttributeWriter α} {bs : List β}
    (h : ∀ b ∈ bs, Fills 1 (f b) fun _ => True) : Fills bs.length (bs.mapM f) fun _ => True := by
  induction bs with
  | nil =>
    rw [List.mapM_nil]
    exact fills_pure trivial
  | cons b bs ih =>
    obtain ⟨hb, hbs⟩ := List.forall_mem_cons.mp h
    rw [List.mapM_cons, List.length_cons, Nat.add_comm]
    exact hb.bind fun _ _ => (ih hbs).bind fun _ _ => fills_pure trivial

end Fills

theorem fills_addBuffer (name : Ref .utf8) {info : Buffer} (h : info.size ≤ maxInfo) :
    Fills 1 (addBuffer name info) fun _ => True := by
  intro w m hroom
  obtain ⟨hwidth, hcount⟩ := hroom
  have hlimit : w.table.width.limit = 65535 := by rw [hwidth]; rfl
  have hrefusal : refusal? w.table info = none := by
    unfold refusal? CountedTable.isFull
    rw [if_neg, if_neg]
    · omega
    · simp only [decide_eq_true_eq]
      omega
  unfold addBuffer
  rw [Action.exec_ofFn]
  simp only [hrefusal]
  -- Linking raises the count by one.
  refine ⟨trivial, hwidth, ?_⟩
  show w.table.count + 1 + m ≤ 65535
  omega

theorem fills_addRaw (name : Ref .utf8) {info : List UInt8} (h : info.length ≤ maxInfo) :
    Fills 1 (addRaw name info) fun _ => True := by
  refine fills_addBuffer name ?_
  rw [← Buffer.length_toList]
  simpa using h

theorem fills_addNamed (name : String) {info : List UInt8} (h : info.length ≤ maxInfo) :
    Fills 1 (addNamed name info) fun _ => True :=
  .bind_onPool (Pool.delivers_utf8 name) fun i _ => fills_addRaw i h


/-- An attribute with an encoding that is not too long in any version. -/
theorem fills_add {a : Attribute}
    (h : ∀ version, ∃ info, a.encode version = .ok info ∧ info.length ≤ maxInfo) :
    Fills 1 (add a) fun _ => True := by
  refine .bind_onPool (Pool.delivers_utf8 a.name) fun i _ w m hroom => ?_
  obtain ⟨info, hinfo, hlen⟩ := h w.pool.version
  rw [Action.exec_bind, Action.exec_inspect, hinfo]
  exact fills_addRaw i hlen w m hroom

end AttributeWriter

open AttributeWriter (Fills)

/-! ## Attributes that can be moved -/

/-- Read from the pool, the attribute gives one for any other pool, unless a constant is to
blame. -/
def Pool.CanMove (q : Pool) (a : RawAttribute) : Prop :=
  ∃ eff, Rereads (nextAttribute q.constant) a.encode eff ∧ Fills 1 eff fun _ => True

namespace Remap

variable {q : Pool} {a : RawAttribute}

theorem known?_eq_none {name : String} (h : name ∉ knownNames) (view : View) :
    known? view name = none := by
  rw [mem_knownNames_iff view] at h
  exact Option.not_isSome_iff_eq_none.mp h

/-- The bytes of an attribute of another form stay as they are. -/
theorem does_nestedAttribute_unknown {name : String} (h : name ∉ knownNames) (view : View)
    (info : List UInt8) (input : Input) :
    Does (nestedAttribute view name info) input input (AttributeWriter.addNamed name info) := by
  rw [nestedAttribute_unknown (known?_eq_none h view)]
  exact does_onOutput _ input

theorem canMove_unknown {name : String} (hname : q.text a.name = .ok name)
    (hunknown : name ∉ knownNames) (hfits : a.Fits) : q.CanMove a :=
  ⟨AttributeWriter.addNamed name a.info,
    rereads_nextAttribute hname hfits (does_nestedAttribute_unknown hunknown _ a.info),
    AttributeWriter.fills_addNamed name hfits⟩

theorem delivers_nameAt (q : Pool) (i : Slot) :
    Delivers (fun _ => True) (nameAt q.constant i) := by
  refine (q.delivers_constant i).bind fun c _ => ?_
  split
  · trivial
  · rfl

/-- The slot of a name that the caller gave may stand for anything, or for nothing. -/
theorem canMove_raw (h : ∀ name, nameAt q.constant a.name.slot = .ok name → name ∉ knownNames)
    (hfits : a.Fits) : q.CanMove a := by
  have hconstant := delivers_nameAt q a.name.slot
  cases hname : nameAt q.constant a.name.slot with
  | error e =>
    -- There is no name to move the attribute under.
    rw [hname] at hconstant
    refine ⟨throw e, rereads_nextAttribute_of_slot hfits fun input => ?_, fun _ _ _ => hconstant⟩
    rw [hname]
    exact fun w => ⟨input, rfl, nofun⟩
  | ok name =>
    refine ⟨AttributeWriter.addNamed name a.info,
      rereads_nextAttribute_of_slot hfits fun input => ?_,
      AttributeWriter.fills_addNamed name hfits⟩
    rw [hname]
    exact does_nestedAttribute_unknown (h name hname) _ a.info input

/-- A table of a known form whose items are read as they were written. -/
theorem canMove_table {name : String} {item : View → Action Error Remapper β}
    {copied : View → β → Action Error Pool β} {encode : β → Except Error (List UInt8)}
    {items : List β} (wrap : List β → Attribute) (hname : ∀ items, (wrap items).name = name)
    (hknown : ∀ view, known? view name = some (wrap <$> counted (item view)))
    (hencode : ∀ version items,
      (wrap items).encode version = CountedTable.ofEntries name .two (items.map encode))
    (hrereads : ∀ b ∈ items, ∀ body, encode b = .ok body →
      Rereads (item q.constant) body (onPool (copied q.constant b)))
    (hcopied : ∀ b, (copied q.constant b).Delivers fun b' => AsLong (encode b) (encode b'))
    (hshows : q.Shows (.predefined (wrap items)) a) (hfits : a.Fits) : q.CanMove a := by
  cases hshows with
  | @predefined i _ info hi hinfo =>
    rw [hname] at hi
    rw [hencode] at hinfo
    have hread := (Rereads.table hinfo fun b hb body hbody _ => hrereads b hb body hbody).map wrap
    rw [bind_pure_comp] at hread
    -- What was copied has as many bytes as what was read.
    have hdelivers : (items.mapM (copied q.constant) >>= fun items => pure (wrap items)).Delivers
        fun table => ∀ version, ∃ info, table.encode version = .ok info ∧
          info.length ≤ AttributeWriter.maxInfo := by
      refine Action.Delivers.bind (.mapM fun b _ => hcopied b) fun items' hitems' => ?_
      refine Action.delivers_pure fun version => ?_
      have hentries : List.Forall₂ AsLong (items.map encode) (items'.map encode) := by
        rwa [List.forall₂_map_left_iff, List.forall₂_map_right_iff]
      obtain ⟨info', hinfo', hlen⟩ := AsLong.ofEntries _ _ hentries info hinfo
      exact ⟨info', (hencode version items').trans hinfo', hlen ▸ hfits⟩
    refine ⟨_, rereads_nextAttribute hi hfits fun input => ?_,
      .bind_onPool hdelivers fun table h => AttributeWriter.fills_add h⟩
    rw [nestedAttribute_known (hknown q.constant)]
    exact (hread.reading _ input).bind fun table => does_onOutput _ input

/-- The annotations say where their types stand in the way that annotations of their kind do. -/
def FitTargets (entries : List TypeAnnotationEntry) : Prop :=
  ∀ a ∈ entries, a.target.Fits a.targetType

private theorem canMove_typeAnnotations (retention : Retention)
    {entries : List TypeAnnotationEntry} (hentries : FitTargets entries)
    (hshows : q.Shows (.predefined (.typeAnnotations retention entries)) a) (hfits : a.Fits) :
    q.CanMove a := by
  have hknown : ∀ view, known? view (retention.name ++ "TypeAnnotations")
      = some (.typeAnnotations retention <$> counted (TypeAnnotationEntry.read view)) := by
    intro view
    cases retention <;> rfl
  exact canMove_table (.typeAnnotations retention) (fun _ => rfl) hknown (fun _ _ => rfl)
    (fun b hb _ hbody => TypeAnnotationEntry.rereads_of_encode _ hbody (hentries b hb))
    (TypeAnnotationEntry.delivers_copied q) hshows hfits

private theorem canMove_lineNumbers {lines : List LineNumber}
    (hshows : q.Shows (.predefined (.lineNumberTable lines)) a) (hfits : a.Fits) :
    q.CanMove a := by
  -- Lines refer to nothing.
  refine @canMove_table _ q a _ _ (fun _ => pure) _ _ .lineNumberTable (fun _ => rfl)
    (fun _ => rfl) (fun _ _ => rfl) (fun l _ body hbody => ?_)
    (fun l => Action.delivers_pure (AsLong.refl _)) hshows hfits
  cases hbody
  exact rereads_lineNumber l

/-- Tables of local variables, whichever they are. -/
private theorem canMove_locals {name : String} {locals : List LocalVariable}
    (wrap : List LocalVariable → Attribute) (hname : ∀ items, (wrap items).name = name)
    (hknown : ∀ view, known? view name = some (wrap <$> counted (localVariable view)))
    (hencode : ∀ version items,
      (wrap items).encode version = CountedTable.ofList name .two LocalVariable.encode items)
    (hshows : q.Shows (.predefined (wrap locals)) a) (hfits : a.Fits) : q.CanMove a := by
  refine canMove_table wrap hname hknown hencode (fun v _ body hbody => ?_)
    (delivers_copiedLocal q) hshows hfits
  cases hbody
  exact rereads_localVariable q.constant v

private theorem canMove_frames {frames : List StackMapFrame}
    (hshows : q.Shows (.predefined (.stackMapTable frames)) a) (hfits : a.Fits) : q.CanMove a :=
  canMove_table .stackMapTable (fun _ => rfl) (fun _ => rfl) (fun _ _ => rfl)
    (fun _ _ _ hbody => StackMapFrame.rereads_of_encode _ hbody) (StackMapFrame.delivers_copied q)
    hshows hfits

end Remap

open Remap (FitTargets)

/-- The attribute can be moved with the code that it is in: it is not one of a known form that was
given by its bytes, and its annotations of types say where these stand. -/
def AttributeContent.Movable (q : Pool) : AttributeContent → Prop
  | .raw name _ => ∀ s, nameAt q.constant name.slot = .ok s → s ∉ knownNames
  | .named name _ => name ∉ knownNames
  | .predefined (.typeAnnotations _ entries) => FitTargets entries
  | _ => True

namespace Remap

variable {q : Pool} {a : RawAttribute}

/-- An attribute of a predefined kind has a known form or another name. -/
theorem canMove_predefined {x : Attribute} (hx : (AttributeContent.predefined x).Movable q)
    (hshows : q.Shows (.predefined x) a) (hfits : a.Fits) : q.CanMove a := by
  -- Whatever is not a table of a known form keeps its bytes.
  have hother : x.name ∉ knownNames → q.CanMove a :=
    fun hname => canMove_unknown hshows.names hname hfits
  cases x with
  | lineNumberTable lines => exact canMove_lineNumbers hshows hfits
  | localVariableTable locals =>
    exact canMove_locals .localVariableTable (fun _ => rfl) (fun _ => rfl) (fun _ _ => rfl) hshows
      hfits
  | localVariableTypeTable locals =>
    exact canMove_locals .localVariableTypeTable (fun _ => rfl) (fun _ => rfl) (fun _ _ => rfl)
      hshows hfits
  | stackMapTable frames => exact canMove_frames hshows hfits
  | typeAnnotations retention entries => exact canMove_typeAnnotations retention hx hshows hfits
  | annotations retention _ | parameterAnnotations retention _ =>
    refine hother ?_
    cases retention <;> simp [Attribute.name, Retention.name, knownNames]
  | _ => exact hother (by simp [Attribute.name, knownNames])

/-- What a call adds to the attributes of the code can be moved. -/
theorem canMove_content {c : TableCall} {w : AttributeWriter} (hx : (c.content w).Movable q)
    (hshows : q.Shows (c.content w) a) (hfits : a.Fits) : q.CanMove a := by
  have hnames := hshows.names
  cases c with
  | predefined x => exact canMove_predefined hx hshows hfits
  | named name info => exact canMove_unknown hnames hx hfits
  | raw name info =>
    -- Nothing is known of the name but the slot.
    have hslot : a.name = name := hnames
    subst hslot
    exact canMove_raw hx hfits
  | signature text | sourceFile text => exact canMove_unknown hnames (by decide) hfits
  | code maxStack maxLocals body nested => exact canMove_unknown hnames (by decide) hfits
  | record components => exact canMove_unknown hnames (by decide) hfits

/-- Attributes that can be moved one by one are moved in a row. -/
theorem exists_rereads_of_canMove {as : List RawAttribute} (hlen : as.length ≤ 65535)
    (h : ∀ a ∈ as, q.CanMove a) :
    ∃ eff, Rereads (counted (nextAttribute q.constant)) (encodeCounted RawAttribute.encode as) eff ∧
      Fills as.length eff fun _ => True := by
  have hall : ∀ a, ∃ eff : Action Error AttributeWriter Unit, a ∈ as →
      Rereads (nextAttribute q.constant) a.encode eff ∧ Fills 1 eff fun _ => True := by
    intro a
    by_cases ha : a ∈ as
    · obtain ⟨eff, heff⟩ := h a ha
      exact ⟨eff, fun _ => heff⟩
    · exact ⟨pure (), fun hmem => absurd hmem ha⟩
  choose eff heff using hall
  refine ⟨as.mapM eff, ?_, .mapM fun a ha => (heff a ha).2⟩
  have hmoves : List.Forall₂ (fun a body => Rereads (nextAttribute q.constant) body (eff a)) as
      (as.map RawAttribute.encode) := by
    rw [List.forall₂_map_right_iff]
    exact List.forall₂_same.mpr fun a ha => (heff a ha).1
  have htable := Rereads.counted hlen hmoves
  rwa [← List.flatMap_def] at htable

end Remap

/-! ## The code of a method -/

/-- The attribute is the code of a method, with the given attributes inside. -/
structure Pool.HoldsCode (p : Pool) (head : CodeHead) (xs : List AttributeContent)
    (a : RawAttribute) : Prop where
  text_eq : p.text a.name = .ok "Code"
  code_le : head.code.length ≤ Assembler.maxCodeSize
  handlers_le : head.handlers.length ≤ 65535
  exists_attributes : ∃ as : List RawAttribute,
    a.info = head.encode ++ encodeCounted RawAttribute.encode as ∧ as.length ≤ 65535 ∧
      (∀ b ∈ as, b.Fits) ∧ List.Forall₂ p.Shows xs as

namespace Pool.HoldsCode

variable {p q : Pool} {head : CodeHead} {xs : List AttributeContent} {a : RawAttribute}

theorem mono (h : p.TextsStay q) (hcode : p.HoldsCode head xs a) : q.HoldsCode head xs a where
  text_eq := h.text_eq _ _ hcode.text_eq
  code_le := hcode.code_le
  handlers_le := hcode.handlers_le
  exists_attributes := by
    obtain ⟨as, hinfo, hlen, hfits, hshows⟩ := hcode.exists_attributes
    exact ⟨as, hinfo, hlen, hfits, Pool.showsAll_mono h hshows⟩

end Pool.HoldsCode

/-- What a callback adds is what its calls do. -/
theorem TableCallback.mem_added : (c : TableCallback) → {w : AttributeWriter} →
    {x : AttributeContent} → x ∈ c.added w → ∃ (call : TableCall) (v : AttributeWriter),
      x = call.content v
  | .finish _, _, _, h => by
    rw [added] at h
    cases h
  | .call first next, w, x, h => by
    rw [added] at h
    rcases List.mem_append.mp h with hfirst | hnext
    · split at hfirst
      · exact ⟨first, w, List.mem_singleton.mp hfirst⟩
      · cases hfirst
    · exact (next _).mem_added hnext
  | .onPool first next, w, x, h => by
    rw [added] at h
    exact (next _).mem_added h

namespace AttributeWriter

/-- An operation of the pool leaves the table as it is. -/
theorem exec_onPool_eq {act : Action Error Pool α} {w w' : AttributeWriter} {r : Except Error α} :
    (onPool act).exec w = (r, w') ↔ act.exec w.pool = (r, w'.pool) ∧ w'.table = w.table := by
  constructor
  · intro h
    obtain ⟨hr, rfl⟩ := Prod.mk.inj h
    exact ⟨Prod.ext hr rfl, rfl⟩
  · rintro ⟨hact, htable⟩
    unfold onPool
    rw [Action.exec_onPart, hact, ← htable]

/-- What a call for the code of a method adds to a table. -/
theorem exists_holdsCode {w w' : AttributeWriter} (hinv : w.pool.Inv)
    {front : List UInt8} {as : List RawAttribute} (hwidth : w.table.width = .two)
    (hholds : w.table.Holds front (as.map RawAttribute.encode)) (hfits : ∀ a ∈ as, a.Fits)
    {maxStack maxLocals : UInt16} {body : MethodBody} {nested : TableCallback}
    (h : (TableCall.code maxStack maxLocals body nested).perform.exec w = (.ok (), w')) :
    ∃ (xs : List AttributeContent) (a : RawAttribute),
      (TableCall.code maxStack maxLocals body nested).content w
        = .code ⟨maxStack, maxLocals, body.code, body.handlers⟩ xs ∧
      (∀ x ∈ xs, ∃ (c : TableCall) (v : AttributeWriter), x = c.content v) ∧
      w'.Spells front (as ++ [a]) ∧
      w'.pool.HoldsCode ⟨maxStack, maxLocals, body.code, body.handlers⟩ xs a := by
  rw [TableCall.perform] at h
  obtain ⟨⟨name, code⟩, w₁, hbegin, h⟩ := Action.exec_bind_eq_ok.mp h
  obtain ⟨info, w₂, hextend, hadd⟩ := Action.exec_bind_eq_ok.mp h
  obtain ⟨hbegin, htable₁⟩ := exec_onPool_eq.mp hbegin
  obtain ⟨hextend, htable₂⟩ := exec_onPool_eq.mp hextend
  have htable : w₂.table = w.table := htable₂.trans htable₁
  obtain ⟨hgrows, hname, hcode⟩ := beginCode_ok hinv hbegin
  obtain ⟨hhead, hsize, hhandlers⟩ := encodeBody_ok hcode
  -- The attributes inside are added to a table at the end of the code.
  obtain ⟨v, hv, hpool, rfl⟩ := extend_ok hextend
  have hadds := nested.adds (w := .start w₁.pool code) (hgrows.inv hinv)
  rw [hv] at hadds
  obtain ⟨bs, hlist, hlen, hbs, hshows⟩ := exists_toList_eq_of_adds hadds
  -- The buffer is linked in with these bytes, whatever they are said to be.
  have hraw : w₂.AddsOne (addBuffer name v.table.buffer) (.raw name v.table.buffer.toList) :=
    adds_addBuffer (.raw name v.table.buffer.toList)
  have hlinks := hraw.of_ok hadd
  obtain ⟨a, ha, hspells⟩ := hlinks.spells (htable ▸ hwidth) (htable ▸ hholds) hfits
  cases ha
  have hpool : v.pool.Grows w'.pool := hpool ▸ hlinks.grows
  refine ⟨nested.added (.start w₁.pool code), ⟨name, v.table.buffer.toList⟩, ?_, ?_, hspells, ?_⟩
  · simp only [TableCall.content, hbegin]
  · exact fun x hx => nested.mem_added hx
  · have hmax : Assembler.maxCodeSize = 65535 := rfl
    have htext : w'.pool.text name = .ok "Code" := hpool.text_eq (hadds.grows.text_eq hname)
    refine ⟨htext, hmax ▸ hsize, hhandlers, bs, ?_, hlen, hbs,
      Pool.showsAll_mono hpool.textsStay hshows⟩
    rw [hlist, hhead]

end AttributeWriter

/-- The instructions of a finished method are found again. -/
theorem Assembler.exists_listing {calls : List Assembler.Call} {body : MethodBody}
    (hclean : ∀ r ∈ (run calls empty).1, r.Clean)
    (hmin : ∀ default, .tableSwitch Int32.minValue default [] ∉ written (run calls empty).1)
    (hfinish : (run calls empty).2.finish = .ok body) :
    ∃ is : List CodedInstruction, listing body.code = is.map .ok := by
  have hrun := realizes_run realizes_empty calls hclean
  rw [List.nil_append] at hrun
  obtain ⟨is, hwalk, hall, -⟩ := exists_walk_layout (run calls empty).2.labelOffset?
    (wellFormed_written hclean hmin) _ hrun.size_le
  have hcode : body.code = encodeAll is := by
    rw [(finish_eq_ok hfinish).1, hrun.code_eq, hall]
  exact ⟨is, listing_eq_map_iff.mpr ⟨hcode, hwalk⟩⟩

namespace Remap

variable {q : Pool}

/-- An effect on the pool delivers what the action that has it delivers. -/
theorem delivers_of_does {act : Action Error Remapper α} {input input' : Input}
    {eff : Action Error Pool α} {R : α → Prop} (h : Does act input input' (onPool eff))
    (hact : act.Delivers R) : eff.Delivers R := by
  intro p
  obtain ⟨stop, hexec, -⟩ := h (.start p)
  have hresult := hact ⟨input, .start p⟩
  rw [hexec] at hresult
  exact hresult

/-- The handlers of a method are copied one by one. -/
theorem rereads_exceptionTable (view : View) {handlers : List ExceptionHandler}
    (hlen : handlers.length ≤ 65535) :
    Rereads (counted (handler view))
      (BigEndian.encode 2 handlers.length ++ handlers.flatMap ExceptionHandler.encode)
      (onPool ((handlers.map ExceptionHandler.encode).mapM (copiedHandler view))) := by
  have houts : ∀ out ∈ handlers.map ExceptionHandler.encode, IsHandler out := by
    intro out hout
    obtain ⟨h, -, rfl⟩ := List.mem_map.mp hout
    refine ⟨BigEndian.u2 h.start ++ BigEndian.u2 h.stop ++ BigEndian.u2 h.handler, h.catchType,
      ?_, rfl⟩
    simp [BigEndian.u2]
  have hall := rereads_handlers view (by rwa [List.length_map]) houts
  rwa [List.length_map, ← List.flatMap_def] at hall

/-- An empty table has room for all attributes that a table can have. -/
theorem delivers_code_of_does {source : View} {info : List UInt8} {stop : Input}
    {eff : Action Error AttributeWriter (List UInt8)}
    (h : Does (body source) (.start "Code" info) stop eff) {n : Nat} (hn : n ≤ 65535)
    (hfills : Fills n eff fun _ => True) : (code source info).Delivers fun _ => True := by
  intro target
  have hroom : (AttributeWriter.start target).HasRoom (n + 0) := ⟨rfl, by
    show 0 + (n + 0) ≤ 65535
    omega⟩
  have hend := hfills _ 0 hroom
  obtain ⟨stop', hexec, -⟩ := h (.start target)
  unfold code
  rw [Action.exec_ofFn, hexec]
  rcases heff : eff.exec (.start target) with ⟨e | out, w⟩
  · rw [heff] at hend
    exact hend
  · trivial

/-- The code of a method can be moved if a listing finds its instructions and its attributes can. -/
theorem delivers_code {head : CodeHead} {is : List CodedInstruction}
    (hlisting : listing head.code = is.map .ok) (hcode : head.code.length ≤ Assembler.maxCodeSize)
    (hhandlers : head.handlers.length ≤ 65535) {as : List RawAttribute} (hlen : as.length ≤ 65535)
    (hmove : ∀ a ∈ as, q.CanMove a) :
    (code q.constant (head.encode ++ encodeCounted RawAttribute.encode as)).Delivers
      fun _ => True := by
  obtain ⟨effCode, hdoes⟩ := onlyPool_instructions q.constant head.code
  have hcodeDelivers := delivers_of_does (hdoes (.start "" [])) (delivers_instructions q hlisting)
  have hcodeReads : Rereads (instructions q.constant head.code) [] (onPool effCode) :=
    fun input rest _ => hdoes { input with rest }
  have hhandlersReads := rereads_exceptionTable q.constant hhandlers
  have hhandlersDelivers :
      ((head.handlers.map ExceptionHandler.encode).mapM (copiedHandler q.constant)).Delivers
        fun _ => True :=
    (Action.Delivers.mapM fun out _ => delivers_copiedHandler q out).weaken
  obtain ⟨effAttributes, hattributes, hfills⟩ := exists_rereads_of_canMove hlen hmove
  obtain ⟨stop, hbody⟩ := does_body_of_rereads head.maxStack head.maxLocals hcode hcodeReads
    hhandlersReads hattributes
  have hinfo : head.encode ++ encodeCounted RawAttribute.encode as
      = BigEndian.u2 head.maxStack ++ (BigEndian.u2 head.maxLocals ++
        (BigEndian.encode 4 head.code.length ++ (head.code ++
          ((BigEndian.encode 2 head.handlers.length ++
            head.handlers.flatMap ExceptionHandler.encode) ++
              encodeCounted RawAttribute.encode as)))) := by
    simp only [CodeHead.encode, List.append_assoc]
  rw [← hinfo] at hbody
  -- Nothing is written but the attributes.
  refine delivers_code_of_does hbody hlen ?_
  refine .bind_onPool hcodeDelivers fun _ _ => .bind_onPool hhandlersDelivers fun _ _ => ?_
  exact hfills.discard.bind fun _ _ => AttributeWriter.fills_pure trivial

end Remap

/-- What calls have added to the attributes of the code can be moved. -/
theorem Remap.canMove_of_shows {q : Pool} {xs : List AttributeContent} {as : List RawAttribute}
    (hshows : List.Forall₂ q.Shows xs as)
    (hxs : ∀ x ∈ xs, x.Movable q ∧ ∃ (c : TableCall) (v : AttributeWriter), x = c.content v) :
    ∀ a ∈ as, a.Fits → q.CanMove a := by
  induction hshows with
  | nil => exact nofun
  | cons hx _ ih =>
    obtain ⟨⟨hmovable, c, v, rfl⟩, hrest⟩ := List.forall_mem_cons.mp hxs
    exact List.forall_mem_cons.mpr ⟨canMove_content hmovable hx, ih hrest⟩

/-- The attributes inside the code of a method. -/
def AttributeContent.inner : AttributeContent → List AttributeContent
  | .code _ nested => nested
  | _ => []

namespace Assembler

/-- A method is put together by an assembler, without a jump that is refused and without a
`tableswitch` that has no cases and starts at the lowest key of all.  Its code is added to a table
of attributes, with attributes inside that can be moved.  Then the table ends in the code, and
moving that from the pool that it refers to, whatever has been added to the pool since, to any other
one succeeds or fails over a constant. -/
theorem isAboutConstant_of_finish {version : Version} {p : Pool} (hp : (Pool.empty version).Grows p)
    (buffer : Buffer) (before : TableCallback) (calls : List Call) (body : MethodBody)
    (hclean : ∀ r ∈ (run calls empty).1, r.Clean)
    (hmin : ∀ default, .tableSwitch Int32.minValue default [] ∉ written (run calls empty).1)
    (hfinish : (run calls empty).2.finish = .ok body) (maxStack maxLocals : UInt16)
    (nested : TableCallback) (w' : AttributeWriter)
    (hcode : (TableCall.code maxStack maxLocals body nested).perform.exec
      (before.perform.exec (.start p buffer)).2 = (.ok (), w'))
    (source : Pool) (hsource : w'.pool.Grows source)
    (hnested : ∀ x ∈ ((TableCall.code maxStack maxLocals body nested).content
      (before.perform.exec (.start p buffer)).2).inner, x.Movable source) :
    ∃ as a, w'.Spells buffer.toList (as ++ [a]) ∧ w'.pool.text a.name = .ok "Code" ∧
      ∀ target e, ((Remap.code source.constant a.info).exec target).1 = .error e →
        e.isAboutConstant = true := by
  have hinv : p.Inv := hp.inv (Pool.inv_empty version)
  have hadds := before.adds (w := .start p buffer) hinv
  have hbuilt := hadds.built buffer.toList [] (CountedTable.carries_start _ buffer _ _ _)
  obtain ⟨as, hholds, hfits, -⟩ := hbuilt.exists_items
  obtain ⟨xs, a, hcontent, hcalls, hspells, hholdsCode⟩ :=
    AttributeWriter.exists_holdsCode (hadds.grows.inv hinv) hbuilt.width_eq hholds hfits hcode
  refine ⟨as, a, hspells, hholdsCode.text_eq, fun target e he => ?_⟩
  obtain ⟨is, hlisting⟩ := exists_listing hclean hmin hfinish
  -- The attributes say in the pool that is there now what they said in the end.
  have hsourceCode := hholdsCode.mono hsource.textsStay
  obtain ⟨bs, hinfo, hlen, hbs, hshows⟩ := hsourceCode.exists_attributes
  rw [hcontent] at hnested
  have hmove := Remap.canMove_of_shows hshows fun x hx => ⟨hnested x hx, hcalls x hx⟩
  have hdelivers := Remap.delivers_code hlisting hsourceCode.code_le hsourceCode.handlers_le hlen
    fun b hb => hmove b hb (hbs b hb)
  rw [← hinfo] at hdelivers
  have htarget := hdelivers target
  rwa [he] at htarget

/-- A jump to itself. -/
def loopCalls : List Call := [.defineLabel, .markLabel ⟨0⟩, .branch goto ⟨0⟩]

def loopBody : MethodBody := ⟨[0xa7, 0, 0], [], #[some 0]⟩

/-- The line that the jump stands in. -/
def loopLines : TableCallback := .call (.predefined (.lineNumberTable [⟨0, 7⟩])) .finish

private theorem finish_loop : (run loopCalls empty).2.finish = .ok loopBody := by
  have hhandlers : (run loopCalls empty).2.handlers = .ok [] := rfl
  have hawaited : (run loopCalls empty).2.awaited? = none := by decide +kernel
  have hcode : (run loopCalls empty).2.code.toList = [0xa7, 0, 0] := by decide +kernel
  have hlabels : (run loopCalls empty).2.labels.map (·.offset) = #[some 0] := by decide +kernel
  rw [finish_of_handlers hhandlers hawaited, hcode, hlabels]
  rfl

private theorem exec_loopLines {p q : Pool} {i : Ref .utf8} {code : Buffer}
    (h : (Pool.utf8 "LineNumberTable").exec p = (.ok i, q)) :
    loopLines.perform.exec (.start p code)
      = (.ok (), ⟨q, (AttributeWriter.start p code).table.link (i.encode ++ [0, 0, 0, 6])
        (Buffer.empty.append [0, 1, 0, 0, 0, 7])⟩) := by
  have hadd : (TableCall.predefined (.lineNumberTable [⟨0, 7⟩])).perform.exec (.start p code)
      = (.ok (), ⟨q, (AttributeWriter.start p code).table.link (i.encode ++ [0, 0, 0, 6])
        (Buffer.empty.append [0, 1, 0, 0, 0, 7])⟩) := by
    rw [TableCall.perform]
    exact Action.exec_bind_eq_ok.mpr
      ⟨i, ⟨q, _⟩, AttributeWriter.exec_onPool_eq.mpr ⟨h, rfl⟩, rfl⟩
  rw [loopLines, TableCallback.exec_call, hadd]
  rfl

/-- The loop is added to a table if the names of the two attributes are to the pool. -/
private theorem exec_loop {p q q' : Pool} {i j : Ref .utf8}
    (hname : (Pool.utf8 "Code").exec p = (.ok i, q))
    (hlines : (Pool.utf8 "LineNumberTable").exec q = (.ok j, q')) :
    ∃ table, (TableCall.code 0 0 loopBody loopLines).perform.exec (.start p)
      = (.ok (), ⟨q', table⟩) := by
  let code := ((Buffer.empty.append [0, 0, 0, 0, 0, 0, 0, 3]).append [0xa7, 0, 0]).append [0, 0]
  have hbegin : (AttributeWriter.beginCode 0 0 loopBody).exec p = (.ok (i, code), q) :=
    Action.exec_bind_eq_ok.mpr ⟨i, q, hname, rfl⟩
  have hextend := AttributeWriter.exec_extend code loopLines.perform q
  rw [exec_loopLines hlines] at hextend
  -- The table outside is not touched before the code is added to it.
  have hfirst : (onPool (AttributeWriter.beginCode 0 0 loopBody)).exec (.start p)
      = (_, ⟨q, (AttributeWriter.start p).table⟩) :=
    AttributeWriter.exec_onPool_eq.mpr ⟨hbegin, rfl⟩
  have hsecond : (onPool (AttributeWriter.extend code loopLines.perform)).exec
      ⟨q, (AttributeWriter.start p).table⟩ = (_, ⟨q', (AttributeWriter.start p).table⟩) :=
    AttributeWriter.exec_onPool_eq.mpr ⟨hextend, rfl⟩
  rw [TableCall.perform]
  exact ⟨_, Action.exec_bind_eq_ok.mpr ⟨_, _, hfirst,
    Action.exec_bind_eq_ok.mpr ⟨_, _, hsecond, rfl⟩⟩⟩

/-- A table of lines can be moved, whether it was added or not. -/
private theorem movable_loopLines (w : AttributeWriter) (q : Pool) :
    ∀ x ∈ ((TableCall.code 0 0 loopBody loopLines).content w).inner, x.Movable q := by
  intro x hx
  rw [TableCall.content, AttributeContent.inner] at hx
  split at hx
  · rw [loopLines, TableCallback.added, TableCallback.added, List.append_nil] at hx
    split at hx
    · rw [List.mem_singleton.mp hx, TableCall.content]
      trivial
    · cases hx
  · cases hx

/-- The loop is added to an empty table with the line that it stands in, and moved from there. -/
theorem isAboutConstant_of_loop :
    ∃ w', (Pool.empty .java8).Grows (Pool.empty .java8) ∧
      (∀ r ∈ (run loopCalls empty).1, r.Clean) ∧
      (∀ default, .tableSwitch Int32.minValue default [] ∉ written (run loopCalls empty).1) ∧
      (run loopCalls empty).2.finish = .ok loopBody ∧
      (TableCall.code 0 0 loopBody loopLines).perform.exec (.start (.empty .java8))
        = (.ok (), w') ∧
      w'.pool.Grows w'.pool ∧
      (∀ x ∈ ((TableCall.code 0 0 loopBody loopLines).content (.start (.empty .java8))).inner,
        x.Movable w'.pool) ∧
      ∃ as a, w'.Spells [] (as ++ [a]) ∧ w'.pool.text a.name = .ok "Code" ∧
        ∀ target e, ((Remap.code w'.pool.constant a.info).exec target).1 = .error e →
          e.isAboutConstant = true := by
  have hclean : ∀ r ∈ (run loopCalls empty).1, r.Clean := by decide +kernel
  have hmin : ∀ default,
      .tableSwitch Int32.minValue default [] ∉ written (run loopCalls empty).1 := by
    intro default
    have hwritten : written (run loopCalls empty).1 = [.branch goto ⟨0⟩] := rfl
    rw [hwritten]
    simp
  -- The names of the two attributes come into the pool one after the other.
  have hinv := Pool.inv_empty .java8
  have hname := hinv.exec_utf8_new (fun i => Pool.not_holds_empty .java8 i (.utf8 "Code"))
    (by decide) (by decide)
  have hnew : ∀ i, ¬ ((Pool.empty .java8).append (.utf8 "Code")).Holds i
      (.utf8 "LineNumberTable") := by
    intro i hi
    rcases Pool.holds_append_iff.mp hi with hold | ⟨-, hsame⟩
    · exact Pool.not_holds_empty .java8 i _ hold
    · exact absurd (Record.utf8.inj hsame) (by decide)
  have hlines := (hinv.append (by decide)).exec_utf8_new hnew (by decide) (by decide)
  obtain ⟨table, hexec⟩ := exec_loop hname hlines
  exact ⟨_, .refl, hclean, hmin, finish_loop, hexec, .refl, movable_loopLines _ _,
    isAboutConstant_of_finish .refl .empty (.finish (.ok ())) loopCalls loopBody hclean hmin
      finish_loop 0 0 loopLines _ hexec _ .refl (movable_loopLines _ _)⟩

end Assembler

end JvmClass
