import JvmClass.Proofs.Attribute.Tables

/-!
# Attributes that hold attributes

The code of a method and the components of a record hold tables that further callbacks fill.  What
such a callback adds is read back from the bytes of the outer attribute, whose pieces were linked
together before any of them was laid out as a list.

## Key results

- `addsOne_addCode`, `addsOne_addRecord`: attributes with others inside
- `adds_addComponent`: a component that was begun stays, with what was added to it
- `TableCallback.adds`: what a callback adds, at every depth
-/

namespace JvmClass

namespace AttributeWriter

/-! ## The code of a method -/

/-- The code of a method up to its attributes is what the grammar says. -/
theorem encodeBody_ok {maxStack maxLocals : UInt16} {body : MethodBody} {code : Buffer}
    (h : encodeBody maxStack maxLocals body = .ok code) :
    code.toList = CodeHead.encode ⟨maxStack, maxLocals, body.code, body.handlers⟩ ∧
      body.code.length ≤ 65535 ∧ body.handlers.length ≤ 65535 := by
  unfold encodeBody at h
  have hmax : Assembler.maxCodeSize = 65535 := rfl
  by_cases hlen : Assembler.maxCodeSize < body.code.length
  · rw [if_pos hlen] at h
    cases h
  rw [if_neg hlen] at h
  obtain ⟨handlers, hhandlers, h⟩ := Action.except_bind_eq_ok.mp h
  unfold encodeExceptionTable at hhandlers
  split at hhandlers
  · cases hhandlers
  rename_i hcount
  rw [encodeSequence_eq (by omega)] at hhandlers
  cases hhandlers
  cases Action.except_pure_eq_ok.mp h
  refine ⟨?_, by omega, by omega⟩
  simp [CodeHead.encode, encodeCounted]

theorem beginCode_ok {maxStack maxLocals : UInt16} {body : MethodBody} {p q : Pool}
    (hinv : p.Inv) {name : Ref .utf8} {code : Buffer}
    (h : (beginCode maxStack maxLocals body).exec p = (.ok (name, code), q)) :
    p.Grows q ∧ q.text name = .ok "Code" ∧ encodeBody maxStack maxLocals body = .ok code := by
  obtain ⟨i, p₁, hname, h⟩ := Action.exec_bind_eq_ok.mp h
  obtain ⟨hgrows, htext⟩ := Pool.yields_utf8 hinv "Code" i p₁ hname
  obtain ⟨b, p₂, hcode, h⟩ := Action.exec_bind_eq_ok.mp h
  rw [Action.exec_ofExcept] at hcode
  obtain ⟨hbody, rfl⟩ := Prod.mk.inj hcode
  rw [Action.exec_pure] at h
  obtain ⟨hend, rfl⟩ := Prod.mk.inj h
  cases hend
  exact ⟨hgrows, htext, hbody⟩

/-- The pool is left where the action has left it, whether the action failed or not. -/
theorem exec_extend (buffer : Buffer) (act : Action Error AttributeWriter Unit) (p : Pool) :
    (extend buffer act).exec p
      = ((act.exec (start p buffer)).1.map fun _ => (act.exec (start p buffer)).2.table.buffer,
        (act.exec (start p buffer)).2.pool) := by
  have hcollect : (collect act buffer).exec p
      = (.ok ((act.exec (start p buffer)).1, (act.exec (start p buffer)).2.table),
        (act.exec (start p buffer)).2.pool) := rfl
  unfold extend
  rw [Action.exec_bind, hcollect]
  simp only [Action.exec_bind, Action.exec_ofExcept]
  cases (act.exec (start p buffer)).1 <;> rfl

theorem extend_ok {buffer b : Buffer} {act : Action Error AttributeWriter Unit} {p q : Pool}
    (h : (extend buffer act).exec p = (.ok b, q)) :
    ∃ w, act.exec (start p buffer) = (.ok (), w) ∧ q = w.pool ∧ b = w.table.buffer := by
  rw [exec_extend] at h
  obtain ⟨hb, hq⟩ := Prod.mk.inj h
  cases hr : (act.exec (start p buffer)).1 with
  | error e =>
    rw [hr] at hb
    cases hb
  | ok u =>
    rw [hr] at hb
    exact ⟨_, Prod.ext hr rfl, hq.symm, (Except.ok.inj hb).symm⟩

/-- What becomes of a buffer whose end is filled by a callback. -/
theorem exists_toList_eq_of_adds {p : Pool} {buffer : Buffer} {w : AttributeWriter}
    {xs : List AttributeContent} (h : (start p buffer).Adds xs w) :
    ∃ as : List RawAttribute,
      w.table.buffer.toList = buffer.toList ++ encodeCounted RawAttribute.encode as ∧
      as.length ≤ 65535 ∧ (∀ a ∈ as, a.Fits) ∧ List.Forall₂ w.pool.Shows xs as := by
  have hbuilt := h.built buffer.toList [] (CountedTable.carries_start _ buffer _ _ _)
  rw [List.nil_append] at hbuilt
  exact CountedTable.Carries.exists_toList_eq hbuilt

theorem addsOne_addCode {w : AttributeWriter} (hinv : w.pool.Inv) {maxStack maxLocals : UInt16}
    {body : MethodBody} {nested : TableCallback}
    (hnested : ∀ v : AttributeWriter, v.pool.Inv →
      v.Adds (nested.added v) (nested.perform.exec v).2) :
    w.AddsOne (addCode maxStack maxLocals body nested.perform)
      ((TableCall.code maxStack maxLocals body nested).content w) := by
  refine AddsOne.bind_onPool (grows_beginCode _ _ _ w.pool) fun begun q hbegin => ?_
  obtain ⟨name, code⟩ := begun
  obtain ⟨hq, hname, hcode⟩ := beginCode_ok hinv hbegin
  -- The nested table is built at the end of the code, in the pool that has the name already.
  have hadds := hnested (start q code) (hq.inv hinv)
  have hgrows : q.Grows ((extend code nested.perform).exec q).2 := by
    rw [exec_extend]
    exact hadds.grows
  refine AddsOne.bind_onPool hgrows fun info p hextend => ?_
  obtain ⟨v, hv, rfl, rfl⟩ := extend_ok hextend
  rw [hv] at hadds
  obtain ⟨as, hlist, hlen, hfits, hshows⟩ := exists_toList_eq_of_adds hadds
  obtain ⟨hhead, hsize, hhandlers⟩ := encodeBody_ok hcode
  have hcode : body.code.length < 256 ^ 4 := by omega
  have hreads := reads_codeInfo (c := ⟨maxStack, maxLocals, body.code, body.handlers⟩) hcode
    hhandlers hlen hfits
  -- Put together, the pieces are what the grammar reads.
  rw [← hhead, ← hlist] at hreads
  apply adds_addBuffer
  simp only [TableCall.content, hbegin]
  exact .code (hadds.grows.text_eq hname) hreads.whole hshows

end AttributeWriter

/-! ## The components of a record -/

namespace RecordWriter

/-- The buffer is a table of components, and they say what is given. -/
def Built (w : RecordWriter) (xs : List ComponentContent) : Prop :=
  w.components.Carries [] RawComponent.encode RawComponent.Fits w.pool.ShowsComponent xs

/-- Going from the first writer to the second one adds the given components and nothing else. -/
structure Adds (w : RecordWriter) (xs : List ComponentContent) (w' : RecordWriter) : Prop where
  grows : w.pool.Grows w'.pool
  built : ∀ ys, w.Built ys → w'.Built (ys ++ xs)

/-- Components say the same when the pool has grown. -/
theorem Built.of_grows {w : RecordWriter} {xs : List ComponentContent} (h : w.Built xs) {p : Pool}
    (hp : w.pool.Grows p) : Built ⟨p, w.components⟩ xs :=
  h.mono fun _ _ hx => hx.mono hp.textsStay

theorem adds_nil (w : RecordWriter) : w.Adds [] w where
  grows := .refl
  built ys h := by rwa [List.append_nil]

theorem Adds.trans {w w' w'' : RecordWriter} {xs ys : List ComponentContent}
    (h : w.Adds xs w') (h' : w'.Adds ys w'') : w.Adds (xs ++ ys) w'' where
  grows := trans_of Pool.Grows h.grows h'.grows
  built zs hzs := by
    have hboth := h'.built _ (h.built zs hzs)
    rwa [List.append_assoc] at hboth

/-- Constants that are added to the pool add no components. -/
theorem adds_of_grows {w : RecordWriter} {p : Pool} (h : w.pool.Grows p) :
    w.Adds [] ⟨p, w.components⟩ where
  grows := h
  built ys hys := by
    rw [List.append_nil]
    exact hys.of_grows h

/-- An operation of the pool leaves the components as they are. -/
theorem exec_onPool_eq {α : Type} {act : Action Error Pool α} {w w' : RecordWriter}
    {r : Except Error α} (h : (onPool act).exec w = (r, w')) :
    act.exec w.pool = (r, w'.pool) ∧ w'.components = w.components := by
  obtain ⟨hr, rfl⟩ := Prod.mk.inj h
  exact ⟨Prod.ext hr rfl, rfl⟩

/-- An operation of the components leaves the pool as it is. -/
theorem exec_onComponents_eq {α : Type} {act : Action Error CountedTable α} {w w' : RecordWriter}
    {r : Except Error α} (h : (onComponents act).exec w = (r, w')) :
    act.exec w.components = (r, w'.components) ∧ w'.pool = w.pool := by
  obtain ⟨hr, rfl⟩ := Prod.mk.inj h
  exact ⟨Prod.ext hr rfl, rfl⟩

/-- A component that is begun has its name and its descriptor at the end of the table. -/
theorem beginComponent_ok {w w' : RecordWriter} (hinv : w.pool.Inv) {name descriptor : String}
    (h : (beginComponent name descriptor).exec w = (.ok (), w')) :
    w.pool.Grows w'.pool ∧ w.components.isFull = false ∧ ∃ i j : Ref .utf8,
      w'.pool.text i = .ok name ∧ w'.pool.text j = .ok descriptor ∧
      w'.components = { w.components.raiseCount with
        buffer := w.components.raiseCount.buffer.append (i.encode ++ j.encode) } := by
  obtain ⟨i, w₁, hi, h⟩ := Action.exec_bind_eq_ok.mp h
  obtain ⟨j, w₂, hj, h⟩ := Action.exec_bind_eq_ok.mp h
  obtain ⟨u, w₃, hentry, happend⟩ := Action.exec_bind_eq_ok.mp h
  obtain ⟨hi, hcomponents₁⟩ := exec_onPool_eq hi
  obtain ⟨hj, hcomponents₂⟩ := exec_onPool_eq hj
  obtain ⟨hentry, hpool₃⟩ := exec_onComponents_eq hentry
  obtain ⟨happend, hpool⟩ := exec_onComponents_eq happend
  obtain ⟨hgrows, hname⟩ := Pool.yields_utf8 hinv name i _ hi
  obtain ⟨hgrows', hdescriptor⟩ := Pool.yields_utf8 (hgrows.inv hinv) descriptor j _ hj
  obtain ⟨hroom, hraise⟩ := CountedTable.exec_beginEntry_eq_ok hentry
  -- The constants are made before the entry is begun, and do not touch the table.
  have hcomponents : w₂.components = w.components := hcomponents₂.trans hcomponents₁
  have hlast := (Prod.mk.inj happend).2
  rw [hcomponents] at hroom hraise
  rw [hraise] at hlast
  rw [hpool, hpool₃]
  exact ⟨trans_of Pool.Grows hgrows hgrows', hroom, i, j, hgrows'.text_eq hname, hdescriptor,
    hlast.symm⟩

/-- A component that cannot be begun leaves the table as it is. -/
theorem beginComponent_error {w w' : RecordWriter} {name descriptor : String} {e : Error}
    (h : (beginComponent name descriptor).exec w = (.error e, w')) :
    w'.components = w.components := by
  rcases Action.exec_bind_eq_error.mp h with hfirst | ⟨i, w₁, hfirst, h⟩
  · exact (exec_onPool_eq hfirst).2
  have hcomponents₁ := (exec_onPool_eq hfirst).2
  rcases Action.exec_bind_eq_error.mp h with hsecond | ⟨j, w₂, hsecond, h⟩
  · exact (exec_onPool_eq hsecond).2.trans hcomponents₁
  have hcomponents := (exec_onPool_eq hsecond).2.trans hcomponents₁
  rcases Action.exec_bind_eq_error.mp h with hentry | ⟨u, w₃, hentry, happend⟩
  · have hkept := CountedTable.exec_beginEntry_eq_error (exec_onComponents_eq hentry).1
    exact hkept.trans hcomponents
  · -- Appending bytes never fails.
    have hr := (exec_onComponents_eq happend).1
    cases hr

/-- A component that was begun stays, with what is added to it behind its name and descriptor. -/
theorem adds_addComponent {w : RecordWriter} (hinv : w.pool.Inv) (name descriptor : String)
    {attributes : TableCallback}
    (hattributes : ∀ v : AttributeWriter, v.pool.Inv →
      v.Adds (attributes.added v) (attributes.perform.exec v).2) :
    w.Adds
      (match (beginComponent name descriptor).exec w with
        | (.ok (), w') =>
          [⟨name, descriptor, attributes.added (.start w'.pool w'.components.buffer)⟩]
        | (.error _, _) => [])
      ((addComponent name descriptor attributes.perform).exec w).2 := by
  unfold addComponent
  rw [Action.exec_bind]
  rcases hbegin : (beginComponent name descriptor).exec w with ⟨e | u, w₁⟩
  · -- Nothing was begun, but constants may have been added.
    have hgrows : w.pool.Grows w₁.pool := (grows_beginComponent name descriptor).of_exec hbegin
    have hadds := adds_of_grows hgrows
    rwa [← beginComponent_error hbegin] at hadds
  · obtain ⟨hgrows, hroom, i, j, hname, hdescriptor, hw₁⟩ := beginComponent_ok hinv hbegin
    have hadds := hattributes (.start w₁.pool w₁.components.buffer) (hgrows.inv hinv)
    obtain ⟨as, hlist, hlen, hfits, hshows⟩ := AttributeWriter.exists_toList_eq_of_adds hadds
    -- The table of attributes starts behind the entry and is filled there, and the count of the
    -- components stays where it is.
    have hkeeps :=
      (CountedTable.keeps_start "attributes" .two w₁.components.buffer).trans hadds.keeps
    refine ⟨trans_of Pool.Grows hgrows hadds.grows, fun ys hys => ?_⟩
    have hgrown := hys.of_grows (trans_of Pool.Grows hgrows hadds.grows)
    have hlast := Pool.ShowsComponent.mk (hadds.grows.text_eq hname)
      (hadds.grows.text_eq hdescriptor) hshows
    refine CountedTable.Carries.of_holds hgrown ?_ ⟨hlen, hfits⟩ hlast fun entries hentries => ?_
    · show w₁.components.width = w.components.width
      rw [hw₁]
      rfl
    · -- The entry is begun, gets its name and descriptor, and then its attributes.
      have hbegun := (hentries.raiseCount hroom).extend
        (Buffer.keeps_append _ (i.encode ++ j.encode)) (Buffer.toList_append _ _)
      rw [← hw₁] at hbegun
      have hended := hbegun.extend hkeeps hlist
      rw [RawComponent.encode, ← List.append_assoc i.encode]
      exact hended

theorem exec_collect (act : Action Error RecordWriter Unit) (p : Pool) :
    (collect act).exec p =
      ((act.exec (start p)).1.map fun _ => (act.exec (start p)).2.components.buffer,
        (act.exec (start p)).2.pool) := by
  unfold collect
  rw [Action.exec_ofFn]
  rcases act.exec (start p) with ⟨_ | _, _⟩ <;> rfl

theorem collect_ok {act : Action Error RecordWriter Unit} {p q : Pool} {b : Buffer}
    (h : (collect act).exec p = (.ok b, q)) :
    ∃ w, act.exec (start p) = (.ok (), w) ∧ q = w.pool ∧ b = w.components.buffer := by
  rw [exec_collect] at h
  obtain ⟨hb, hq⟩ := Prod.mk.inj h
  cases hr : (act.exec (start p)).1 with
  | error e =>
    rw [hr] at hb
    cases hb
  | ok u =>
    rw [hr] at hb
    exact ⟨_, Prod.ext hr rfl, hq.symm, (Except.ok.inj hb).symm⟩

end RecordWriter

namespace AttributeWriter

theorem addsOne_addRecord {w : AttributeWriter} (hinv : w.pool.Inv) {components : RecordCallback}
    (hcomponents : ∀ v : RecordWriter, v.pool.Inv →
      v.Adds (components.added v) (components.perform.exec v).2) :
    w.AddsOne (addRecord components.perform) ((TableCall.record components).content w) := by
  refine AddsOne.bind_onPool ((Pool.places_internUtf8 _ _).grows w.pool) fun name q hname => ?_
  obtain ⟨hq, htext⟩ := Pool.yields_utf8 hinv "Record" name q hname
  have hadds := hcomponents (.start q) (hq.inv hinv)
  have hgrows : q.Grows ((RecordWriter.collect components.perform).exec q).2 := by
    rw [RecordWriter.exec_collect]
    exact hadds.grows
  refine AddsOne.bind_onPool hgrows fun info p hcollect => ?_
  obtain ⟨v, hv, rfl, rfl⟩ := RecordWriter.collect_ok hcollect
  rw [hv] at hadds
  -- The components are written into a buffer of their own.
  have hbuilt := hadds.built [] (CountedTable.carries_start "Record" .empty _ _ _)
  obtain ⟨cs, hlist, hlen, hfits, hshows⟩ := CountedTable.Carries.exists_toList_eq hbuilt
  have hreads := reads_components hlen hfits
  rw [← List.nil_append (encodeCounted _ _), ← hlist] at hreads
  apply adds_addBuffer
  have hstart : ((Pool.utf8 "Record").exec w.pool).2 = q := congrArg Prod.snd hname
  simp only [TableCall.content, hstart]
  exact .record (hadds.grows.text_eq htext) hreads.whole hshows

end AttributeWriter

/-! ## Callbacks -/

open AttributeWriter in
mutual

/-- A call adds one attribute or none. -/
theorem TableCall.addsOne (c : TableCall) {w : AttributeWriter} (hinv : w.pool.Inv) :
    w.AddsOne c.perform (c.content w) :=
  match c with
  | .raw name info => by
    simp only [TableCall.perform, TableCall.content]
    exact adds_addRaw (.raw name info)
  | .named name info => by
    simp only [TableCall.perform, TableCall.content]
    exact addsOne_addNamed hinv name info
  | .predefined a => by
    simp only [TableCall.perform, TableCall.content]
    exact addsOne_add hinv a
  | .signature text => by
    simp only [TableCall.perform, TableCall.content]
    exact addsOne_addSignature hinv text
  | .sourceFile name => by
    simp only [TableCall.perform, TableCall.content]
    exact addsOne_addSourceFile hinv name
  | .code maxStack maxLocals body nested => by
    rw [TableCall.perform]
    exact addsOne_addCode hinv fun v hv => nested.adds hv
  | .record components => by
    rw [TableCall.perform]
    exact addsOne_addRecord hinv fun v hv => components.adds hv

/-- A callback adds what its calls do, one after the other. -/
theorem TableCallback.adds (c : TableCallback) {w : AttributeWriter} (hinv : w.pool.Inv) :
    w.Adds (c.added w) (c.perform.exec w).2 :=
  match c with
  | .finish result => by
    rw [TableCallback.added, TableCallback.perform]
    exact adds_nil w
  | .call first next => by
    have hfirst := first.addsOne hinv
    rw [TableCallback.added, TableCallback.exec_call]
    rcases hexec : first.perform.exec w with ⟨e | u, w₁⟩
    · have hadds := (hfirst.of_error hexec).adds
      exact hadds.trans ((next _).adds (hadds.grows.inv hinv))
    · have hadds := (hfirst.of_ok hexec).adds
      exact hadds.trans ((next _).adds (hadds.grows.inv hinv))
  | .onPool first next => by
    have hgrows := Pool.grows_perform first w.pool
    rw [TableCallback.added, TableCallback.exec_onPool]
    exact (adds_of_grows hgrows).trans ((next _).adds (hgrows.inv hinv))

/-- The components that a callback begins are added one after the other. -/
theorem RecordCallback.adds (c : RecordCallback) {w : RecordWriter} (hinv : w.pool.Inv) :
    w.Adds (c.added w) (c.perform.exec w).2 :=
  match c with
  | .finish result => by
    rw [RecordCallback.added, RecordCallback.perform]
    exact RecordWriter.adds_nil w
  | .component name descriptor attributes next => by
    have hadds := RecordWriter.adds_addComponent hinv name descriptor
      fun v hv => attributes.adds hv
    rw [RecordCallback.added, RecordCallback.exec_component]
    exact hadds.trans ((next _).adds (hadds.grows.inv hinv))
  | .onPool first next => by
    have hgrows := Pool.grows_perform first w.pool
    rw [RecordCallback.added, RecordCallback.exec_onPool]
    exact (RecordWriter.adds_of_grows hgrows).trans ((next _).adds (hgrows.inv hinv))

end

end JvmClass
