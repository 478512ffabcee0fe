import JvmClass.Proofs.Remap.Composition

/-!
# Code is moved only as a whole

The code of a method says by itself where it ends: by the sizes and counts that stand in it, and
not by the number of bytes that there are.  So no code that can be moved is the beginning of other
code that can, and garbage behind it is never passed over.

`SelfDelimiting` says this of an action: of two inputs, the one that starts with what the action has
taken of the other is taken as far.  It passes from the readers of fields to whatever is put
together from them.  Attributes inside the code whose form is known are read on their own and to
their end, which `MovesAttribute` follows one by one.

## Key results

- `SelfDelimiting.bind`, `selfDelimiting_body`: the end of what is read is found without looking
- `whole_of_counted`: the items of a table are all that stands in it
- `Consists`: what the code of a method is put together from, to the last byte
- `whole_of_exec_code`: what the code of a method consists of, and that nothing shorter or longer
  can be moved in its place
-/

namespace JvmClass

open Remapper

variable {α β : Type}

namespace Remapper

/-! ## Where reading ends -/

/-- The action finds out by itself where what it reads ends: an input that starts with what it took
of another one, together with the same output, it takes as far, and ends in the same way. -/
def SelfDelimiting (act : Action Error Remapper α) : Prop :=
  ∀ r a r', act.exec r = (.ok a, r') → ∃ taken, r.input.rest = taken ++ r'.input.rest ∧
    ∀ s b s' more, s.output = r.output → s.input.rest = taken ++ more →
      act.exec s = (.ok b, s') → b = a ∧ s'.output = r'.output ∧ s'.input.rest = more

/-- What leaves the input as it is takes nothing. -/
theorem selfDelimiting_of_does {act : Action Error Remapper α}
    {eff : Action Error AttributeWriter α} (h : ∀ input, Does act input input eff) :
    SelfDelimiting act := by
  intro r a r' hr
  obtain ⟨heff, hinput⟩ := (h r.input).of_exec hr
  refine ⟨[], by rw [hinput]; rfl, fun s b s' more hout hrest hs => ?_⟩
  obtain ⟨heff', hinput'⟩ := (h s.input).of_exec hs
  rw [hout, heff] at heff'
  obtain ⟨hab, hout'⟩ := Prod.mk.inj heff'
  refine ⟨(Except.ok.inj hab).symm, hout'.symm, ?_⟩
  rw [hinput', hrest]
  rfl

theorem selfDelimiting_pure (a : α) : SelfDelimiting (pure a) :=
  selfDelimiting_of_does (does_pure a)

theorem selfDelimiting_ofExcept (x : Except Error α) :
    SelfDelimiting (Action.ofExcept x : Action Error Remapper α) := by
  cases x with
  | error e => exact nofun
  | ok a => exact selfDelimiting_pure a

theorem selfDelimiting_onOutput (act : Action Error AttributeWriter α) :
    SelfDelimiting (onOutput act) :=
  selfDelimiting_of_does (does_onOutput act)

/-- Another input that is read in between is not part of this one. -/
theorem selfDelimiting_reading (inner : Input) (act : Action Error Remapper α) :
    SelfDelimiting (reading inner act) := by
  let whole : Action Error Remapper α := do
    let a ← act
    finish
    return a
  let eff : Action Error AttributeWriter α :=
    .ofFn fun w => ((whole.exec ⟨inner, w⟩).1, (whole.exec ⟨inner, w⟩).2.output)
  have hdoes (input : Input) : Does (reading inner act) input input eff :=
    fun w => ⟨input, rfl, fun _ _ => rfl⟩
  exact selfDelimiting_of_does hdoes

theorem SelfDelimiting.bind {act : Action Error Remapper α} {k : α → Action Error Remapper β}
    (h : SelfDelimiting act) (hk : ∀ a, SelfDelimiting (k a)) : SelfDelimiting (act >>= k) := by
  intro r b r' hr
  obtain ⟨a, r₁, ha, hb⟩ := Action.exec_bind_eq_ok.mp hr
  obtain ⟨xs, hxs, hfirst⟩ := h r a r₁ ha
  obtain ⟨ys, hys, hsecond⟩ := hk a r₁ b r' hb
  refine ⟨xs ++ ys, by rw [hxs, hys, List.append_assoc], ?_⟩
  intro s c s' more hout hrest hs
  obtain ⟨a', s₁, ha', hc⟩ := Action.exec_bind_eq_ok.mp hs
  -- After the first part both runs are in the same place with the same output.
  rw [List.append_assoc] at hrest
  obtain ⟨rfl, hout₁, hrest₁⟩ := hfirst s a' s₁ (ys ++ more) hout hrest ha'
  exact hsecond s₁ c s' more hout₁ hrest₁ hc

theorem SelfDelimiting.map {act : Action Error Remapper α} (h : SelfDelimiting act) (f : α → β) :
    SelfDelimiting (f <$> act) := by
  rw [← bind_pure_comp]
  exact h.bind fun _ => selfDelimiting_pure _

theorem SelfDelimiting.discard {act : Action Error Remapper α} (h : SelfDelimiting act) :
    SelfDelimiting (discard act) := by
  intro r u r' hr
  obtain ⟨a, ha⟩ := Action.exec_discard_eq_ok.mp hr
  obtain ⟨taken, htaken, hagain⟩ := h r a r' ha
  refine ⟨taken, htaken, fun s v s' more hout hrest hs => ?_⟩
  obtain ⟨b, hb⟩ := Action.exec_discard_eq_ok.mp hs
  exact ⟨rfl, (hagain s b s' more hout hrest hb).2⟩

theorem SelfDelimiting.mapM {f : β → Action Error Remapper α} (h : ∀ b, SelfDelimiting (f b))
    (bs : List β) : SelfDelimiting (bs.mapM f) := by
  induction bs with
  | nil =>
    rw [List.mapM_nil]
    exact selfDelimiting_pure []
  | cons b bs ih =>
    rw [List.mapM_cons]
    exact (h b).bind fun _ => ih.bind fun _ => selfDelimiting_pure _

theorem selfDelimiting_field (width : Nat) : SelfDelimiting (field width) := by
  intro r n r' hr
  unfold field at hr
  rw [Action.exec_ofFn] at hr
  split at hr
  · rename_i front back hsplit
    obtain ⟨hrest, hlen⟩ := splitExactly_eq_some.mp hsplit
    cases hr
    refine ⟨front, hrest, fun s m s' more hout hmore hs => ?_⟩
    have hsplit' : splitExactly width s.input.rest = some (front, more) :=
      splitExactly_eq_some.mpr ⟨hmore, hlen⟩
    simp only [field, Action.exec_ofFn, hsplit'] at hs
    cases hs
    exact ⟨rfl, hout, rfl⟩
  · cases hr

theorem selfDelimiting_bytes (count : Nat) : SelfDelimiting (bytes count) := by
  intro r bs r' hr
  unfold bytes at hr
  rw [Action.exec_ofFn] at hr
  split at hr
  · rename_i front back hsplit
    obtain ⟨hrest, hlen⟩ := splitExactly_eq_some.mp hsplit
    cases hr
    refine ⟨bs, hrest, fun s bs' s' more hout hmore hs => ?_⟩
    have hsplit' : splitExactly count s.input.rest = some (bs, more) :=
      splitExactly_eq_some.mpr ⟨hmore, hlen⟩
    simp only [bytes, Action.exec_ofFn, hsplit'] at hs
    cases hs
    exact ⟨rfl, hout, rfl⟩
  · cases hr

theorem selfDelimiting_u2 : SelfDelimiting u2 := (selfDelimiting_field 2).map _

theorem selfDelimiting_u4 : SelfDelimiting u4 := selfDelimiting_field 4

/-- The check for the end takes nothing, wherever it succeeds. -/
theorem selfDelimiting_finish : SelfDelimiting finish := by
  intro r u r' hr
  obtain ⟨rfl, -⟩ := finish_ok hr
  refine ⟨[], rfl, fun s v s' more hout hrest hs => ?_⟩
  obtain ⟨rfl, -⟩ := finish_ok hs
  exact ⟨rfl, hout, hrest⟩

theorem SelfDelimiting.counted {item : Action Error Remapper α} (h : SelfDelimiting item) :
    SelfDelimiting (counted item) :=
  selfDelimiting_u2.bind fun _ => SelfDelimiting.mapM (fun _ => h) _

theorem selfDelimiting_ref (kind : Tag) (source : View) : SelfDelimiting (ref kind source) :=
  selfDelimiting_u2.bind fun _ => selfDelimiting_onOutput _

end Remapper

namespace Remap

theorem selfDelimiting_instructions (source : View) (code : List UInt8) :
    SelfDelimiting (instructions source code) := by
  obtain ⟨eff, heff⟩ := onlyPool_instructions source code
  exact selfDelimiting_of_does heff

theorem selfDelimiting_handler (source : View) : SelfDelimiting (handler source) :=
  (selfDelimiting_bytes 6).bind fun _ => (selfDelimiting_ref .class source).bind fun _ =>
    selfDelimiting_pure _

theorem selfDelimiting_nextAttribute (source : View) : SelfDelimiting (nextAttribute source) := by
  refine selfDelimiting_u2.bind fun i => selfDelimiting_u4.bind fun size => ?_
  refine (selfDelimiting_bytes size).bind fun info => ?_
  refine (selfDelimiting_ofExcept _).bind fun name => ?_
  unfold nestedAttribute
  split
  · exact (selfDelimiting_reading _ _).bind fun a => selfDelimiting_onOutput _
  · exact selfDelimiting_onOutput _

theorem selfDelimiting_body (source : View) : SelfDelimiting (body source) := by
  refine selfDelimiting_u2.bind fun maxStack => selfDelimiting_u2.bind fun maxLocals => ?_
  refine selfDelimiting_u4.bind fun size => ?_
  simp only
  split
  · -- Code that is too long is refused before anything else.
    intro r out r' hr
    obtain ⟨_, _, hthrow, -⟩ := Action.exec_bind_eq_ok.mp hr
    cases hthrow
  · refine (selfDelimiting_bytes size).bind fun code => ?_
    refine (selfDelimiting_instructions source code).bind fun code' => ?_
    refine (selfDelimiting_handler source).counted.bind fun handlers => ?_
    refine (selfDelimiting_nextAttribute source).counted.discard.bind fun _ => ?_
    exact selfDelimiting_finish.bind fun _ => selfDelimiting_pure _

/-! ## What code consists of -/

/-- The attributes of the code whose form is known. -/
def knownNames : List String :=
  ["LineNumberTable", "LocalVariableTable", "LocalVariableTypeTable", "StackMapTable",
    "RuntimeVisibleTypeAnnotations", "RuntimeInvisibleTypeAnnotations"]

theorem mem_knownNames_iff (source : View) (name : String) :
    name ∈ knownNames ↔ (known? source name).isSome := by
  unfold known? knownNames
  grind

/-- An attribute of the code is moved, from one output to another.  One of known form is read by its
name, on its own and to its last byte. -/
inductive MovesAttribute (source : View) (w : AttributeWriter) (a : RawAttribute)
    (w' : AttributeWriter) : Prop
  | known (name : String) (read : Action Error Remapper Attribute) (moved : Attribute)
    (r : Remapper) (hname : nameAt source a.name.slot = .ok name)
    (hread : known? source name = some read)
    (hrun : read.exec ⟨.start name a.info, w⟩ = (.ok moved, r)) (hend : r.input.rest = [])
    (hadd : (AttributeWriter.add moved).exec r.output = (.ok (), w'))
  | unknown (name : String) (hname : nameAt source a.name.slot = .ok name)
    (hread : known? source name = none)
    (hadd : (AttributeWriter.addNamed name a.info).exec w = (.ok (), w'))

/-- Items in a row, each with a step from where the one before it led. -/
inductive Steps {σ : Type} (step : σ → α → σ → Prop) : σ → List α → σ → Prop
  | nil (s : σ) : Steps step s [] s
  | cons {s t u : σ} {a : α} {as : List α} (h : step s a t) (hs : Steps step t as u) :
    Steps step s (a :: as) u

/-- The items of a table are all that stands in it. -/
theorem whole_of_times {act : Action Error Remapper β} (encode : α → List UInt8)
    (step : AttributeWriter → α → AttributeWriter → Prop)
    (h : ∀ r b r', act.exec r = (.ok b, r') →
      ∃ a, r.input.rest = encode a ++ r'.input.rest ∧ step r.output a r'.output)
    {n : Nat} {bs : List β} {r r' : Remapper}
    (hrun : (Action.times n act).exec r = (.ok bs, r')) :
    ∃ as : List α, as.length = n ∧ r.input.rest = as.flatMap encode ++ r'.input.rest ∧
      Steps step r.output as r'.output := by
  induction n generalizing r bs with
  | zero =>
    cases hrun
    exact ⟨[], rfl, rfl, .nil _⟩
  | succ n ih =>
    -- The first item stands in front, the others begin where it ends.
    obtain ⟨b, r₁, bs', hb, hbs', -⟩ := Action.exec_times_succ_eq_ok.mp hrun
    obtain ⟨a, ha, hstep⟩ := h r b r₁ hb
    obtain ⟨as, rfl, has, hsteps⟩ := ih hbs'
    refine ⟨a :: as, rfl, ?_, .cons hstep hsteps⟩
    rw [List.flatMap_cons, List.append_assoc, ← has, ha]

theorem u2_rest {n : UInt16} {r r' : Remapper} (h : u2.exec r = (.ok n, r')) :
    r.input.rest = BigEndian.u2 n ++ r'.input.rest ∧ r'.output = r.output :=
  ⟨(u2_ok h).rest_eq, (plain_u2 r n r' h).1⟩

theorem whole_of_counted {act : Action Error Remapper β} (encode : α → List UInt8)
    (step : AttributeWriter → α → AttributeWriter → Prop)
    (h : ∀ r b r', act.exec r = (.ok b, r') →
      ∃ a, r.input.rest = encode a ++ r'.input.rest ∧ step r.output a r'.output)
    {bs : List β} {r r' : Remapper} (hrun : (counted act).exec r = (.ok bs, r')) :
    ∃ as : List α, as.length ≤ 65535 ∧
      r.input.rest = encodeCounted encode as ++ r'.input.rest ∧
      Steps step r.output as r'.output := by
  obtain ⟨count, r₁, hcount, htimes⟩ := Action.exec_bind_eq_ok.mp hrun
  obtain ⟨hrest, hout⟩ := u2_rest hcount
  obtain ⟨as, hlen, has, hsteps⟩ := whole_of_times encode step h htimes
  have hcount := count.toNat_lt
  refine ⟨as, by omega, ?_, hout ▸ hsteps⟩
  rw [hrest, has, encodeCounted, hlen, BigEndian.u2, List.append_assoc]

theorem whole_of_handler {source : View} {out : List UInt8} {r r' : Remapper}
    (h : (handler source).exec r = (.ok out, r')) :
    ∃ e : ExceptionHandler, r.input.rest = e.encode ++ r'.input.rest := by
  obtain ⟨positions, r₁, hpositions, h⟩ := Action.exec_bind_eq_ok.mp h
  obtain ⟨type', r₂, htype, hend⟩ := Action.exec_bind_eq_ok.mp h
  obtain ⟨i, r₃, hi, hcopy⟩ := Action.exec_bind_eq_ok.mp htype
  cases hend
  obtain ⟨htakes, hlen⟩ := bytes_ok hpositions
  obtain ⟨start, stop, position, rfl⟩ := exists_positions hlen
  refine ⟨⟨start, stop, position, ⟨i⟩⟩, ?_⟩
  rw [htakes.rest_eq, (u2_rest hi).1, (onOutput_ok hcopy).2, ExceptionHandler.encode]
  simp only [List.append_assoc]

/-- An attribute of known form is read on its own and to its end. -/
theorem movesAttribute_of_exec {source : View} {name : String} {a : RawAttribute}
    {r r' : Remapper} (hname : nameAt source a.name.slot = .ok name)
    (h : (nestedAttribute source name a.info).exec r = (.ok (), r')) :
    MovesAttribute source r.output a r'.output ∧ r'.input = r.input := by
  cases hread : known? source name with
  | some read =>
    rw [nestedAttribute_known hread] at h
    obtain ⟨moved, r₁, hreading, hadd⟩ := Action.exec_bind_eq_ok.mp h
    obtain ⟨r₂, hrun, hend, hout, hinput⟩ := reading_ok hreading
    obtain ⟨hadd, hinput'⟩ := onOutput_ok hadd
    rw [hout] at hadd
    exact ⟨.known name read moved r₂ hname hread hrun hend hadd, hinput'.trans hinput⟩
  | none =>
    rw [nestedAttribute_unknown hread] at h
    obtain ⟨hadd, hinput⟩ := onOutput_ok h
    exact ⟨.unknown name hname hread hadd, hinput⟩

theorem whole_of_nextAttribute {source : View} {r r' : Remapper}
    (h : (nextAttribute source).exec r = (.ok (), r')) :
    ∃ a : RawAttribute, r.input.rest = a.encode ++ r'.input.rest ∧
      a.Fits ∧ MovesAttribute source r.output a r'.output := by
  obtain ⟨i, r₁, hi, h⟩ := Action.exec_bind_eq_ok.mp h
  obtain ⟨size, r₂, hsize, h⟩ := Action.exec_bind_eq_ok.mp h
  obtain ⟨info, r₃, hinfo, h⟩ := Action.exec_bind_eq_ok.mp h
  obtain ⟨name, r₄, hname, hmove⟩ := Action.exec_bind_eq_ok.mp h
  obtain ⟨hnameAt, rfl⟩ := Prod.mk.inj hname
  obtain ⟨hrest, hout⟩ := u2_rest hi
  obtain ⟨htakes, rfl⟩ := bytes_ok hinfo
  have hmoves := movesAttribute_of_exec (a := ⟨⟨i⟩, info⟩) hnameAt hmove
  refine ⟨⟨⟨i⟩, info⟩, ?_, Nat.le_of_lt_succ (field_ok hsize).2, ?_⟩
  · rw [hrest, (field_ok hsize).1.rest_eq, htakes.rest_eq, hmoves.2, RawAttribute.encode,
      Ref.encode]
    simp only [List.append_assoc]
  · rw [← hout, ← (plain_u4 _ _ _ hsize).1, ← (plain_bytes _ _ _ _ hinfo).1]
    exact hmoves.1

/-- A step that every item takes. -/
theorem Steps.exists_step {σ : Type} {step : σ → α → σ → Prop} {s t : σ} {as : List α}
    (h : Steps step s as t) {a : α} (ha : a ∈ as) : ∃ s' t', step s' a t' := by
  induction h with
  | nil => cases ha
  | cons hstep _ ih =>
    rcases List.mem_cons.mp ha with rfl | ha
    · exact ⟨_, _, hstep⟩
    · exact ih ha

theorem Steps.imp {σ : Type} {step step' : σ → α → σ → Prop}
    (himp : ∀ s a t, step s a t → step' s a t) {s t : σ} {as : List α} (h : Steps step s as t) :
    Steps step' s as t := by
  induction h with
  | nil s => exact .nil s
  | cons hstep _ ih => exact .cons (himp _ _ _ hstep) ih

/-- What the code of a method consists of: its instructions fill the code exactly, and behind a
table of handlers stands a table of attributes, which are moved one by one, with nothing after it.
Those of known form are read to their ends. -/
structure Consists (source : View) (info : List UInt8) (q : Pool) (c : CodeInfo) : Prop where
  info_eq : info = c.head.encode ++ encodeCounted RawAttribute.encode c.attributes
  read_eq : CodeInfo.read.run info = some (c, [])
  instructions : ∃ is, c.head.code = encodeAll is ∧ Walk 0 is
  moves : ∃ w w', Steps (MovesAttribute source) w c.attributes w' ∧ w'.pool = q
  known : ∀ a ∈ c.attributes, ∀ name ∈ knownNames, nameAt source a.name.slot = .ok name →
    ∃ w read moved r, known? source name = some read ∧
      read.exec ⟨.start name a.info, w⟩ = (.ok moved, r) ∧ r.input.rest = []

/-- An attribute under a known name is read to its end. -/
theorem MovesAttribute.read_to_end {source : View} {w w' : AttributeWriter} {a : RawAttribute}
    (h : MovesAttribute source w a w') {name : String} (hmem : name ∈ knownNames)
    (hname : nameAt source a.name.slot = .ok name) :
    ∃ w read moved r, known? source name = some read ∧
      read.exec ⟨.start name a.info, w⟩ = (.ok moved, r) ∧ r.input.rest = [] := by
  have hsome := (mem_knownNames_iff source name).mp hmem
  cases h with
  | known name' read moved r hname' hread hrun hend =>
    rw [hname] at hname'
    cases hname'
    exact ⟨w, read, moved, r, hread, hrun, hend⟩
  | unknown name' hname' hread =>
    rw [hname] at hname'
    cases hname'
    rw [hread] at hsome
    cases hsome

theorem exists_body_of_exec_code {source : View} {info out : List UInt8} {pool q : Pool}
    (h : (code source info).exec pool = (.ok out, q)) :
    ∃ bytes r', (body source).exec ⟨.start "Code" info, .start pool⟩ = (.ok bytes, r') ∧
      r'.output.pool = q := by
  unfold code at h
  rw [Action.exec_ofFn] at h
  split at h
  · rename_i bytes input pool' table hbody
    exact ⟨bytes, _, hbody, (Prod.mk.inj h).2⟩
  · cases h

theorem rest_of_exec_body {source : View} {out : List UInt8} {r r' : Remapper}
    (h : (body source).exec r = (.ok out, r')) : r'.input.rest = [] := by
  obtain ⟨_, _, _, _, _, _, _, _, _, _, _, _, -, -, -, -, -, -, -, -, hrest, -⟩ := exec_body_eq_ok h
  exact hrest

/-- Code that can be moved is not the beginning of other code that can. -/
theorem eq_of_append {source : View} {info info' out out' : List UInt8} {pool q q' : Pool}
    (h : (code source info).exec pool = (.ok out, q))
    (h' : (code source info').exec pool = (.ok out', q')) (hmore : info <+: info') :
    info' = info := by
  obtain ⟨bytes, r, hbody, -⟩ := exists_body_of_exec_code h
  obtain ⟨bytes', r', hbody', -⟩ := exists_body_of_exec_code h'
  obtain ⟨more, rfl⟩ := hmore
  obtain ⟨taken, htaken, hagain⟩ := selfDelimiting_body source _ _ _ hbody
  -- All of the shorter code was taken, and no more than that is taken of the longer one.
  rw [rest_of_exec_body hbody, List.append_nil] at htaken
  have hstart : (Input.start "Code" (info ++ more)).rest = taken ++ more := by
    rw [← htaken]
    rfl
  obtain ⟨-, -, hrest⟩ :=
    hagain ⟨.start "Code" (info ++ more), .start pool⟩ _ _ more rfl hstart hbody'
  rw [rest_of_exec_body hbody'] at hrest
  rw [← hrest, List.append_nil]

theorem consists_of_exec_code {source : View} {info out : List UInt8} {pool q : Pool}
    (h : (code source info).exec pool = (.ok out, q)) : ∃ c, Consists source info q c := by
  obtain ⟨bytes, r', hbody, rfl⟩ := exists_body_of_exec_code h
  obtain ⟨maxStack, maxLocals, code, code', handlers, us, r₁, r₂, r₃, r₄, r₅, r₆, hstack, hlocals,
    hsize, hbound, hcode, hcode', hhandlers, hattributes, hend, -⟩ := exec_body_eq_ok hbody
  obtain ⟨outs, r₇, houts, hflatten⟩ := Action.exec_bind_eq_ok.mp hcode'
  -- No instruction of the listing is an error, or there would be no result.
  obtain ⟨is, hlisting, -⟩ := listed_of_mapM_ok houts
  -- The code has been read before its constants are copied.
  have hinput : r₅.input = r₄.input := by
    obtain ⟨eff, heff⟩ := onlyPool_instructions source code
    exact ((heff r₄.input).of_exec hcode').2
  obtain ⟨es, hes, hhandlersRest, -⟩ := whole_of_counted ExceptionHandler.encode
    (fun _ _ _ => True) (fun r b r' h => (whole_of_handler h).imp fun e he => ⟨he, trivial⟩)
    hhandlers
  obtain ⟨as, has, hattributesRest, hsteps⟩ := whole_of_counted RawAttribute.encode
    (fun w a w' => a.Fits ∧ MovesAttribute source w a w')
    (fun r b r' h => whole_of_nextAttribute h) hattributes
  let c : CodeInfo := ⟨⟨maxStack, maxLocals, code, es⟩, as⟩
  -- What each reader has taken, one after the other, is all there is.
  have hinfo : info = c.head.encode ++ encodeCounted RawAttribute.encode c.attributes := by
    have hstart : (Input.start "Code" info).rest = info := rfl
    rw [← hstart, (u2_rest hstack).1, (u2_rest hlocals).1, (field_ok hsize).1.rest_eq,
      (bytes_ok hcode).1.rest_eq, ← hinput, hhandlersRest, hattributesRest, hend, List.append_nil]
    simp only [c, CodeHead.encode, encodeCounted, List.append_assoc]
  have hfits : ∀ a ∈ as, a.Fits := fun a ha => by
    obtain ⟨_, _, hstep⟩ := hsteps.exists_step ha
    exact hstep.1
  have hread := reads_codeInfo (c := c.head) (field_ok hsize).2 hes has hfits []
  rw [List.append_nil, ← hinfo] at hread
  have hmoves : Steps (MovesAttribute source) r₆.output as r'.output :=
    hsteps.imp fun _ _ _ hstep => hstep.2
  refine ⟨c, hinfo, hread, ⟨is, listing_eq_map_iff.mp hlisting⟩, ⟨_, _, hmoves, rfl⟩, ?_⟩
  intro a ha name hmem hname
  obtain ⟨_, _, hstep⟩ := hmoves.exists_step ha
  exact hstep.read_to_end hmem hname

/-- Code that can be moved consists of what it has to, down to the last byte of each attribute of
known form, and nothing shorter or longer can be moved in its place. -/
theorem whole_of_exec_code {source : View} {info out : List UInt8} {pool q : Pool}
    (h : (code source info).exec pool = (.ok out, q)) :
    (∀ info', info' ≠ info → info' <+: info ∨ info <+: info' →
      ∀ out' q', (code source info').exec pool ≠ (.ok out', q')) ∧
    ∃ c, Consists source info q c := by
  refine ⟨fun info' hne hmore out' q' h' => ?_, consists_of_exec_code h⟩
  rcases hmore with hmore | hmore
  · exact hne (eq_of_append h' h hmore).symm
  · exact hne (eq_of_append h h' hmore)

/-- A pool with the name of a line number table at slot 1. -/
def lineView : View := fun i =>
  if i = 1 then .ok (.utf8 "LineNumberTable") else .error (.badSlot i 2)

/-- A method that only returns, with the line number of that. -/
def lineInfo : List UInt8 :=
  [0, 0, 0, 0, 0, 0, 0, 1, 0xb1, 0, 0, 0, 1, 0, 1, 0, 0, 0, 6, 0, 1, 0, 0, 0, 7]

/-- The table goes to a pool that gets its name. -/
private theorem exec_addLines :
    ∃ w, (AttributeWriter.add (.lineNumberTable [⟨0, 7⟩])).exec (.start (.empty .java8))
      = (.ok (), w) := by
  have hshared : (Pool.empty .java8).shared? .shared (.utf8 "LineNumberTable") = none := by
    simp [Pool.shared?, Pool.empty]
  have hname : (Pool.utf8 "LineNumberTable").exec (.empty .java8)
      = (.ok ⟨1⟩, (Pool.empty .java8).append (.utf8 "LineNumberTable")) :=
    Action.exec_bind_eq_ok.mpr ⟨1, _, Pool.exec_insert_append hshared, rfl⟩
  have honPool : (AttributeWriter.onPool (Pool.utf8 "LineNumberTable")).exec
      (.start (.empty .java8))
      = (.ok ⟨1⟩, .start ((Pool.empty .java8).append (.utf8 "LineNumberTable"))) := by
    unfold AttributeWriter.onPool AttributeWriter.start
    rw [Action.exec_onPart, hname]
  exact ⟨_, Action.exec_bind_eq_ok.mpr ⟨⟨1⟩, _, honPool, rfl⟩⟩

/-- The code is moved together with its table of line numbers, and would not be with a byte less or
more. -/
theorem whole_of_moved_line :
    ∃ out q, (code lineView lineInfo).exec (.empty .java8) = (.ok out, q) ∧
      (∀ info', info' ≠ lineInfo → info' <+: lineInfo ∨ lineInfo <+: info' →
        ∀ out' q', (code lineView info').exec (.empty .java8) ≠ (.ok out', q')) ∧
      ∃ c, Consists lineView lineInfo q c := by
  obtain ⟨w, hadd⟩ := exec_addLines
  have hnested (input : Input) :
      (nestedAttribute lineView "LineNumberTable" [0, 1, 0, 0, 0, 7]).exec
        ⟨input, .start (.empty .java8)⟩ = (.ok (), ⟨input, w⟩) := by
    refine Action.exec_bind_eq_ok.mpr
      ⟨.lineNumberTable [⟨0, 7⟩], ⟨input, .start (.empty .java8)⟩, rfl, ?_⟩
    unfold onOutput
    rw [Action.exec_onPart, hadd]
  have hattribute : (nextAttribute lineView).exec
      ⟨⟨"Code", 25, lineInfo.drop 13⟩, .start (.empty .java8)⟩
        = (.ok (), ⟨⟨"Code", 25, []⟩, w⟩) := by
    refine Action.exec_bind_eq_ok.mpr ⟨1, _, rfl, Action.exec_bind_eq_ok.mpr ⟨6, _, rfl, ?_⟩⟩
    refine Action.exec_bind_eq_ok.mpr ⟨[0, 1, 0, 0, 0, 7], _, rfl, ?_⟩
    exact Action.exec_bind_eq_ok.mpr ⟨"LineNumberTable", _, rfl, hnested _⟩
  have hattributes : (discard (counted (nextAttribute lineView))).exec
      ⟨⟨"Code", 25, lineInfo.drop 11⟩, .start (.empty .java8)⟩
        = (.ok (), ⟨⟨"Code", 25, []⟩, w⟩) := by
    refine Action.exec_discard_eq_ok.mpr ⟨[()], Action.exec_bind_eq_ok.mpr ⟨1, _, rfl, ?_⟩⟩
    exact Action.exec_times_succ_eq_ok.mpr ⟨(), _, [], hattribute, rfl, rfl⟩
  have hbody : (body lineView).exec ⟨.start "Code" lineInfo, .start (.empty .java8)⟩
      = (.ok (lineInfo.take 11), ⟨⟨"Code", 25, []⟩, w⟩) := by
    refine Action.exec_bind_eq_ok.mpr ⟨0, _, rfl, Action.exec_bind_eq_ok.mpr ⟨0, _, rfl, ?_⟩⟩
    refine Action.exec_bind_eq_ok.mpr ⟨1, _, rfl, ?_⟩
    refine Action.exec_bind_eq_ok.mpr ⟨[0xb1], _, rfl, ?_⟩
    refine Action.exec_bind_eq_ok.mpr ⟨[0xb1], _, rfl, ?_⟩
    refine Action.exec_bind_eq_ok.mpr ⟨[], _, rfl, ?_⟩
    exact Action.exec_bind_eq_ok.mpr ⟨(), _, hattributes, rfl⟩
  have hcode : (code lineView lineInfo).exec (.empty .java8)
      = (.ok (lineInfo.take 11 ++ w.table.encode), w.pool) := by
    unfold code
    rw [Action.exec_ofFn, hbody]
  exact ⟨_, _, hcode, whole_of_exec_code hcode⟩

end Remap

end JvmClass
