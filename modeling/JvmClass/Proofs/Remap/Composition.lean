import JvmClass.Proofs.Attribute.Nested
import JvmClass.Proofs.Remap.Nested

/-!
# Moving code twice

Code that was moved to one pool and from there to another is the code that would have been moved
there at once: the bytes are the same, and so is the pool, down to the order in which constants came
into it.  This holds although the slots of the pool in between may be any, and although what stands
in attributes may have been written in another form than it was read.

The reason is that every part of the code has the same effect when it is read from where it came and
when it is read from what was written, which is what `MovesAgain` says of a part.

## Key results

- `instructions_again`, `handlers_again`, `attributes_again`: the parts of the code
- `does_body_again`: the code as a whole
- `code_eq_of_exec_code`: moving code from where it was moved to is moving it from where it came
- `exec_code_trans`: moving code twice
-/

namespace JvmClass

open Remapper
open AttributeWriter (onPool)

variable {α β : Type}

namespace Remapper

/-- The action leaves the input as it is and does something to the pool of the output. -/
def OnlyPool (act : Action Error Remapper α) : Prop :=
  ∃ eff : Action Error Pool α, ∀ input, Does act input input (onPool eff)

theorem onlyPool_ofExcept (r : Except Error α) :
    OnlyPool (Action.ofExcept r : Action Error Remapper α) :=
  ⟨Action.ofExcept r, fun input _ => ⟨input, rfl, fun _ _ => rfl⟩⟩

theorem onlyPool_pure (a : α) : OnlyPool (pure a : Action Error Remapper α) :=
  onlyPool_ofExcept (.ok a)

theorem onlyPool_throw (e : Error) : OnlyPool (throw e : Action Error Remapper α) :=
  onlyPool_ofExcept (.error e)

theorem onlyPool_copy (source : View) (i : Slot) : OnlyPool (copy source i) :=
  ⟨Pool.copy source i, does_onOutput _⟩

/-- The table of attributes stays. -/
theorem OnlyPool.table_eq {act : Action Error Remapper α} (h : OnlyPool act) {r r' : Remapper}
    {a : α} (hrun : act.exec r = (.ok a, r')) : r'.output.table = r.output.table := by
  obtain ⟨eff, heff⟩ := h
  exact (heff r.input).table_eq hrun

theorem OnlyPool.bind {act : Action Error Remapper α} {k : α → Action Error Remapper β}
    (h : OnlyPool act) (hk : ∀ a, OnlyPool (k a)) : OnlyPool (act >>= k) := by
  obtain ⟨eff, heff⟩ := h
  choose effk heffk using hk
  exact ⟨eff >>= effk, fun input => (heff input).bind_onPool fun a => heffk a input⟩

theorem OnlyPool.mapM {f : β → Action Error Remapper α} (hf : ∀ b, OnlyPool (f b)) (bs : List β) :
    OnlyPool (bs.mapM f) := by
  induction bs with
  | nil =>
    rw [List.mapM_nil]
    exact onlyPool_pure []
  | cons b bs ih =>
    rw [List.mapM_cons]
    exact (hf b).bind fun _ => ih.bind fun _ => onlyPool_pure _

/-- A slot that means the same is copied the same way. -/
theorem copy_eq_of_same {view : View} {q : Pool} {j k : Slot} (h : Pool.SameConstant view q j k) :
    copy view j = copy q.constant k := by
  unfold copy
  rw [h.copy_eq]

end Remapper

namespace Remap

/-! ## Instructions -/

theorem onlyPool_instruction (source : View) (i : CodedInstruction) :
    OnlyPool (instruction source i) := by
  unfold instruction
  split
  case h_5 =>
    refine (onlyPool_copy _ _).bind fun slot => ?_
    split
    · exact onlyPool_pure _
    · exact onlyPool_throw _
  case h_6 => exact onlyPool_pure _
  all_goals exact (onlyPool_copy _ _).bind fun slot => onlyPool_pure _

theorem onlyPool_instructions (source : View) (code : List UInt8) :
    OnlyPool (instructions source code) := by
  have hone : ∀ i, OnlyPool (do instruction source (← Action.ofExcept i)) :=
    fun i => (onlyPool_ofExcept i).bind fun i => onlyPool_instruction source i
  exact (OnlyPool.mapM hone _).bind fun _ => onlyPool_pure _

/-- Instructions that mean the same are moved the same way. -/
theorem instruction_eq_of_same {view : View} {q : Pool} {i i' : CodedInstruction}
    (h : SameInstruction view q i i') : instruction view i = instruction q.constant i' := by
  obtain ⟨-, hop, hoperands⟩ := h
  unfold instruction
  rw [hop]
  cases hkind : i.op.kind with
  | constantRef | multiANewArray | invokeInterface | invokeDynamic =>
    rw [hkind] at hoperands
    obtain ⟨j, k, rest, hj, hk, hsame⟩ := hoperands
    have hlen : ∀ n, (BigEndian.u2 n).length = 2 := fun n => BigEndian.length_encode 2 n.toNat
    simp only [hj, hk, List.take_left' (hlen _), List.drop_left' (hlen _), BigEndian.decode_u2,
      copy_eq_of_same hsame]
  | narrowConstantRef =>
    rw [hkind] at hoperands
    obtain ⟨j, k, hj, hk, hsame⟩ := hoperands
    simp only [hj, hk, BigEndian.decode_byte, copy_eq_of_same hsame]
  | _ =>
    rw [hkind] at hoperands
    have hsame : i'.encode = i.encode := by
      rw [CodedInstruction.encode, CodedInstruction.encode, hop]
      exact congrArg _ hoperands
    rw [hsame]

/-- Code with instructions that mean the same is moved the same way. -/
theorem instructions_eq_of_same {view : View} {q : Pool} {code code' : List UInt8}
    {is is' : List CodedInstruction} (h : listing code = is.map .ok)
    (h' : listing code' = is'.map .ok) (hall : List.Forall₂ (SameInstruction view q) is is') :
    instructions view code = instructions q.constant code' := by
  have hparts : (is.map .ok).mapM (fun i => do instruction view (← Action.ofExcept i))
      = (is'.map .ok).mapM
        fun i => (do instruction q.constant (← Action.ofExcept i) : Action Error Remapper _) := by
    clear h h'
    induction hall with
    | nil => rfl
    | cons hi _ ih =>
      rw [List.map_cons, List.map_cons, List.mapM_cons, List.mapM_cons, ih]
      exact congrArg (· >>= _) (instruction_eq_of_same hi)
  unfold instructions
  rw [h, h', hparts]

/-! ## Handlers -/

/-- Copy the class of a handler, given by its bytes. -/
def copiedHandler (view : View) (out : List UInt8) : Action Error Pool (List UInt8) := do
  let type ← Pool.copyAs .class view (UInt16.ofNat (BigEndian.decode (out.drop 6)))
  return out.take 6 ++ type.encode

theorem copiedHandler_append (view : View) {positions : List UInt8} (h : positions.length = 6)
    (type : Ref .class) : copiedHandler view (positions ++ type.encode)
      = Pool.copyAs .class view type.slot >>= fun type => pure (positions ++ type.encode) := by
  unfold copiedHandler
  rw [List.drop_left' h, List.take_left' h, Ref.encode, BigEndian.decode_u2]

theorem tracks_handler (source : View) : Tracks (handler source) copiedHandler :=
  .bind_of_plain (plain_bytes 6) fun _ _ _ hrun =>
    (tracks_ref .class source).map fun view type => copiedHandler_append view (bytes_ok hrun).2 type

theorem rereads_handler (view : View) {positions : List UInt8} (h : positions.length = 6)
    (type : Ref .class) : Rereads (handler view) (positions ++ type.encode)
      (onPool (copiedHandler view (positions ++ type.encode))) := by
  rw [copiedHandler_append view h]
  have hpositions := rereads_bytes positions
  rw [h] at hpositions
  exact hpositions.bind_known ((rereads_ref view type).map fun type => positions ++ type.encode)

/-- A handler is six bytes and a reference to a class. -/
def IsHandler (out : List UInt8) : Prop :=
  ∃ (positions : List UInt8) (type : Ref .class),
    positions.length = 6 ∧ out = positions ++ type.encode

theorem isHandler_of_exec {source : View} {out : List UInt8} {r r' : Remapper}
    (h : (handler source).exec r = (.ok out, r')) : IsHandler out := by
  obtain ⟨positions, r₁, hpositions, h⟩ := Action.exec_bind_eq_ok.mp h
  obtain ⟨type, r₂, -, hend⟩ := Action.exec_bind_eq_ok.mp h
  cases hend
  exact ⟨positions, type, (bytes_ok hpositions).2, rfl⟩

/-- The handlers of a table are copied one by one. -/
theorem rereads_handlers (view : View) {outs : List (List UInt8)} (hlen : outs.length ≤ 65535)
    (h : ∀ out ∈ outs, IsHandler out) :
    Rereads (counted (handler view)) (BigEndian.encode 2 outs.length ++ outs.flatten)
      (onPool (outs.mapM (copiedHandler view))) := by
  rw [onPool_mapM]
  refine Rereads.counted hlen (List.forall₂_same.mpr fun out hout => ?_)
  obtain ⟨positions, type, hpositions, rfl⟩ := h out hout
  exact rereads_handler view hpositions type

/-! ## Moving on -/

/-- What the action did, going from the first remapper to the second one, is done again by reading
the given bytes for any pool that the one that was moved to has become. -/
structure MovesAgain (act : Action Error Remapper α) (r r' : Remapper)
    (again : View → Action Error Remapper α) (bytes : List UInt8) : Prop where
  grows : r.output.pool.Grows r'.output.pool
  does : ∀ q, r'.output.pool.Grows q →
    ∃ eff, Does act r.input r'.input eff ∧ Rereads (again q.constant) bytes eff

/-- Instructions take no bytes; they are given theirs. -/
theorem instructions_again {source : View} {code out : List UInt8} {r r' : Remapper}
    (hinv : r.output.pool.Inv) (h : (instructions source code).exec r = (.ok out, r')) :
    MovesAgain (instructions source code) r r' (fun view => instructions view out) [] := by
  obtain ⟨is, is', hlisting, hlisting', -, htakes, hsame⟩ := instructions_ok hinv h
  obtain ⟨eff, hdoes⟩ := onlyPool_instructions source code
  have hinput := ((hdoes r.input).of_exec h).2
  refine ⟨htakes.grows, fun q hq => ⟨onPool eff, ?_, fun input rest _ => ?_⟩⟩
  · rw [hinput]
    exact hdoes r.input
  · rw [← instructions_eq_of_same hlisting hlisting' (hsame.imp fun _ _ hi => hi.mono hq)]
    exact hdoes { input with rest }

theorem handlers_again {source : View} {outs : List (List UInt8)} {r r' : Remapper}
    (hinv : r.output.pool.Inv) (h : (counted (handler source)).exec r = (.ok outs, r')) :
    MovesAgain (counted (handler source)) r r' (fun view => counted (handler view))
      (BigEndian.encode 2 outs.length ++ outs.flatten) := by
  obtain ⟨hgrows, hdoes⟩ := (tracks_handler source).counted r outs r' hinv h
  obtain ⟨hlen, hall⟩ := results_of_counted (fun _ _ _ hrun => isHandler_of_exec hrun) h
  exact ⟨hgrows, fun q hq => ⟨_, hdoes q hq, rereads_handlers q.constant hlen hall⟩⟩

/-- The attributes are read from the table that they were written to. -/
theorem attributes_again {source : View} {us : List Unit} {r r' : Remapper}
    (hinv : r.output.pool.Inv) (htable : r.output.table = .start "attributes" .two .empty)
    (h : (counted (nextAttribute source)).exec r = (.ok us, r')) :
    MovesAgain (counted (nextAttribute source)) r r' (fun view => counted (nextAttribute view))
      r'.output.table.encode := by
  obtain ⟨xs, hxs⟩ := moved_attributes hinv h
  have hstart : r.output = .start r.output.pool := by
    unfold AttributeWriter.start
    rw [← htable]
  have hadds : (AttributeWriter.start r.output.pool).Adds (xs.map MovedAttribute.content)
      r'.output := by
    rw [← hstart]
    exact hxs.adds
  obtain ⟨as, hlist, hlen, hfits, hshows⟩ := AttributeWriter.exists_toList_eq_of_adds hadds
  rw [Buffer.toList_empty, List.nil_append] at hlist
  refine ⟨hxs.adds.grows, fun q hq => ⟨_, hxs.does q hq, ?_⟩⟩
  -- What they say stays while the pool grows.
  have hshows : List.Forall₂ q.Shows (xs.map MovedAttribute.content) as :=
    hshows.imp fun _ _ hx => hx.mono hq.textsStay
  rw [CountedTable.encode, hlist]
  exact rereads_attributes hxs.movesOn hshows hlen hfits

/-! ## The code of a method -/

/-- What moving the code of a method does to the output, put together from what its parts do. -/
def moveBody (maxStack maxLocals : UInt16) (size : Nat)
    (code : Action Error AttributeWriter (List UInt8))
    (handlers : Action Error AttributeWriter (List (List UInt8)))
    (attributes : Action Error AttributeWriter (List Unit)) :
    Action Error AttributeWriter (List UInt8) := do
  let code ← code
  let handlers ← handlers
  discard attributes
  return BigEndian.u2 maxStack ++ BigEndian.u2 maxLocals ++ BigEndian.encode 4 size ++ code
    ++ BigEndian.encode 2 handlers.length ++ handlers.flatten

section Body

variable {source : View} {code : List UInt8} {effCode : Action Error AttributeWriter (List UInt8)}
  {effHandlers : Action Error AttributeWriter (List (List UInt8))}
  {effAttributes : Action Error AttributeWriter (List Unit)}

theorem does_body {maxStack maxLocals : UInt16} {size : Nat}
    {input₀ input₁ input₂ input₃ input₄ input₅ input₆ input₇ : Input}
    (hstack : Does u2 input₀ input₁ (pure maxStack))
    (hlocals : Does u2 input₁ input₂ (pure maxLocals))
    (hsize : Does u4 input₂ input₃ (pure size)) (hbound : size ≤ Assembler.maxCodeSize)
    (hbytes : Does (bytes size) input₃ input₄ (pure code))
    (hcode : Does (instructions source code) input₄ input₅ effCode)
    (hhandlers : Does (counted (handler source)) input₅ input₆ effHandlers)
    (hattributes : Does (counted (nextAttribute source)) input₆ input₇ effAttributes)
    (hend : input₇.rest = []) :
    Does (body source) input₀ input₇
      (moveBody maxStack maxLocals size effCode effHandlers effAttributes) := by
  refine hstack.bind_known (hlocals.bind_known (hsize.bind_known ?_))
  rw [if_neg (Nat.not_lt.mpr hbound)]
  refine hbytes.bind_known (hcode.bind fun code' => hhandlers.bind fun handlers => ?_)
  refine hattributes.discard.bind fun _ => ?_
  exact (does_finish hend).bind_known (does_pure _ input₇)

/-- The code of a method is read from the bytes of its parts. -/
theorem does_body_of_rereads (maxStack maxLocals : UInt16) {handlers attributes : List UInt8}
    (hbound : code.length ≤ Assembler.maxCodeSize)
    (hcode : Rereads (instructions source code) [] effCode)
    (hhandlers : Rereads (counted (handler source)) handlers effHandlers)
    (hattributes : Rereads (counted (nextAttribute source)) attributes effAttributes) :
    ∃ stop, Does (body source) (.start "Code" (BigEndian.u2 maxStack ++ (BigEndian.u2 maxLocals ++
        (BigEndian.encode 4 code.length ++ (code ++ (handlers ++ attributes)))))) stop
      (moveBody maxStack maxLocals code.length effCode effHandlers effAttributes) := by
  have hlen : code.length < 256 ^ 4 := Nat.lt_of_le_of_lt hbound (by decide)
  unfold Input.start
  generalize hsize : List.length (_ ++ _) = size
  simp only [List.length_append] at hsize
  -- Each part is read from where the one before it ends.
  have hpart : ∀ {γ : Type} {act : Action Error Remapper γ} {xs : List UInt8}
      {eff : Action Error AttributeWriter γ} (rest : List UInt8), Rereads act xs eff →
      (xs ++ rest).length ≤ size →
      Does act ⟨"Code", size, xs ++ rest⟩ ⟨"Code", size, rest⟩ eff :=
    fun rest h hle => h ⟨"Code", size, []⟩ rest (by rwa [← List.length_append])
  have hinner := hpart (handlers ++ attributes) hcode
  rw [List.nil_append, List.length_append] at hinner
  have hlast := hpart [] hattributes
  rw [List.append_nil] at hlast
  refine ⟨_, does_body (hpart _ (rereads_u2 maxStack) ?_) (hpart _ (rereads_u2 maxLocals) ?_)
    (hpart _ (rereads_field hlen) ?_) hbound (hpart _ (rereads_bytes code) ?_) (hinner (by omega))
    (hpart _ hhandlers ?_) (hlast (by omega)) rfl⟩
  all_goals
    simp only [List.length_append]
    omega

end Body

/-- Code that was moved to a pool is moved on from there as from where it came. -/
theorem does_body_again {source : View} {input : Input} {p : Pool} {out : List UInt8}
    {r' : Remapper} (hinv : p.Inv) (h : (body source).exec ⟨input, .start p⟩ = (.ok out, r')) :
    ∃ eff stop stop', Does (body source) input stop eff ∧
      Does (body r'.output.pool.constant) (.start "Code" (out ++ r'.output.table.encode)) stop'
        eff := by
  obtain ⟨maxStack, maxLocals, code, code', handlers, us, r₁, r₂, r₃, r₄, r₅, r₆, hstack, hlocals,
    hsize, hbound, hcode, hcode', hhandlers, hattributes, hrest, rfl⟩ := exec_body_eq_ok h
  -- What stands before the code is plain bytes.
  obtain ⟨hout₁, hdoes₁⟩ := plain_u2 _ maxStack r₁ hstack
  obtain ⟨hout₂, hdoes₂⟩ := plain_u2 r₁ maxLocals r₂ hlocals
  obtain ⟨hout₃, hdoes₃⟩ := plain_u4 r₂ code.length r₃ hsize
  obtain ⟨hout₄, hdoes₄⟩ := plain_bytes code.length r₃ code r₄ hcode
  have hstart : r₄.output = .start p := by rw [hout₄, hout₃, hout₂, hout₁]
  have hinv₄ : r₄.output.pool.Inv := by rwa [hstart]
  -- Nothing but attributes is written to the table.
  have hlength : code'.length = code.length := by
    obtain ⟨_, _, -, -, hlength, -⟩ := instructions_ok hinv₄ hcode'
    exact hlength
  have hcodeAgain := instructions_again hinv₄ hcode'
  have hinv₅ := hcodeAgain.grows.inv hinv₄
  have hhandlersAgain := handlers_again hinv₅ hhandlers
  have htable : r₆.output.table = .start "attributes" .two .empty := by
    rw [(tracks_handler source).counted.table_eq hinv₅ hhandlers,
      (onlyPool_instructions source code).table_eq hcode', hstart]
    rfl
  have hattributesAgain := attributes_again (hhandlersAgain.grows.inv hinv₅) htable hattributes
  -- The parts have the same effects once more in the pool that is there in the end.
  have hgrows := trans_of Pool.Grows hhandlersAgain.grows hattributesAgain.grows
  obtain ⟨effCode, hdoes₅, hcodeRead⟩ := hcodeAgain.does _ hgrows
  obtain ⟨effHandlers, hdoes₆, hhandlersRead⟩ := hhandlersAgain.does _ hattributesAgain.grows
  obtain ⟨effAttributes, hdoes₇, hattributesRead⟩ := hattributesAgain.does _ .refl
  have hfirst := does_body hdoes₁ hdoes₂ hdoes₃ hbound hdoes₄ hdoes₅ hdoes₆ hdoes₇ hrest
  obtain ⟨stop, hagain⟩ := does_body_of_rereads maxStack maxLocals (hlength.symm ▸ hbound)
    hcodeRead hhandlersRead hattributesRead
  rw [hlength] at hagain
  refine ⟨_, r'.input, stop, hfirst, ?_⟩
  simpa only [List.append_assoc] using hagain

/-- What the code of a method becomes is decided by what moving it does. -/
theorem code_eq_of_does {source source' : View} {info info' : List UInt8} {stop stop' : Input}
    {eff : Action Error AttributeWriter (List UInt8)}
    (h : Does (body source) (.start "Code" info) stop eff)
    (h' : Does (body source') (.start "Code" info') stop' eff) :
    code source info = code source' info' := by
  funext target
  obtain ⟨end₁, hexec, -⟩ := h (.start target)
  obtain ⟨end₂, hexec', -⟩ := h' (.start target)
  show (code source info).exec target = (code source' info').exec target
  unfold code
  rw [Action.exec_ofFn, Action.exec_ofFn, hexec, hexec']
  cases (eff.exec (.start target)).1 <;> rfl

/-- Code that was moved to a reachable pool is, seen from there, the code that it was: moving it on
to any pool is moving what it came from, whether that succeeds or fails. -/
theorem code_eq_of_exec_code {version : Version} {calls : List Pool.Call} {source : View}
    {info out : List UInt8} {p' : Pool}
    (h : (code source info).exec ((Pool.empty version).afterCalls calls) = (.ok out, p')) :
    code source info = code p'.constant out := by
  have hinv := Pool.inv_afterCalls version calls
  unfold code at h
  rw [Action.exec_ofFn] at h
  split at h
  · rename_i bytes input pool table hbody
    obtain ⟨hout, rfl⟩ := Prod.mk.inj h
    cases hout
    obtain ⟨eff, stop, stop', hfirst, hagain⟩ := does_body_again hinv hbody
    exact code_eq_of_does hfirst hagain
  · cases h

/-! ## A method that pushes a constant -/

/-- A method that pushes the constant at a slot and returns. -/
def pushConstant (i : UInt8) : List UInt8 := [0, 1, 0, 0, 0, 0, 0, 3, 0x12, i, 0xb1, 0, 0, 0, 0]

section PushConstant

variable {view : View} {i j : UInt8} {p q : Pool}

private theorem exec_ldc (h : (Pool.copy view i.toUInt16).exec p = (.ok j.toUInt16, q))
    (input : Input) : (instruction view ⟨0, .ldc, [i]⟩).exec ⟨input, .start p⟩
      = (.ok [0x12, j], ⟨input, .start q⟩) := by
  have hcopy : (copy view i.toUInt16).exec ⟨input, .start p⟩
      = (.ok j.toUInt16, ⟨input, .start q⟩) := by
    unfold copy onOutput AttributeWriter.onPool
    rw [Action.exec_onPart, Action.exec_onPart]
    exact congrArg (fun x : Except Error Slot × Pool => (x.1, (⟨input, .start x.2⟩ : Remapper))) h
  have hlt : j.toUInt16 < 256 := by
    rw [UInt16.lt_iff_toNat_lt, UInt8.toNat_toUInt16]
    exact j.toNat_lt
  refine Action.exec_bind_eq_ok.mpr ⟨j.toUInt16, ⟨input, .start q⟩, ?_, ?_⟩
  · show (copy view (UInt16.ofNat (BigEndian.decode [i]))).exec _ = _
    rw [BigEndian.decode_byte, hcopy]
  · rw [if_pos hlt, UInt8.toUInt8_toUInt16]
    rfl

private theorem exec_instructions_ldc
    (h : (Pool.copy view i.toUInt16).exec p = (.ok j.toUInt16, q)) (input : Input) :
    (instructions view [0x12, i, 0xb1]).exec ⟨input, .start p⟩
      = (.ok [0x12, j, 0xb1], ⟨input, .start q⟩) := by
  have hlisting : listing [0x12, i, 0xb1] = [.ok ⟨0, .ldc, [i]⟩, .ok ⟨2, .voidReturn, []⟩] := rfl
  unfold instructions
  rw [hlisting]
  refine Action.exec_bind_eq_ok.mpr ⟨[[0x12, j], [0xb1]], _, ?_, rfl⟩
  refine Action.exec_bind_eq_ok.mpr ⟨[0x12, j], _, ?_, rfl⟩
  exact Action.exec_bind_eq_ok.mpr ⟨⟨0, .ldc, [i]⟩, _, rfl, exec_ldc h input⟩

/-- The method pushes the constant from where it was copied to. -/
theorem exec_code_pushConstant
    (h : (Pool.copy view i.toUInt16).exec p = (.ok j.toUInt16, q)) :
    (code view (pushConstant i)).exec p = (.ok (pushConstant j), q) := by
  have hbody : (body view).exec ⟨.start "Code" (pushConstant i), .start p⟩
      = (.ok [0, 1, 0, 0, 0, 0, 0, 3, 0x12, j, 0xb1, 0, 0], ⟨⟨"Code", 15, []⟩, .start q⟩) := by
    refine Action.exec_bind_eq_ok.mpr ⟨1, _, rfl, Action.exec_bind_eq_ok.mpr ⟨0, _, rfl, ?_⟩⟩
    refine Action.exec_bind_eq_ok.mpr ⟨3, _, rfl, ?_⟩
    refine Action.exec_bind_eq_ok.mpr ⟨[0x12, i, 0xb1], _, rfl, ?_⟩
    refine Action.exec_bind_eq_ok.mpr ⟨[0x12, j, 0xb1], _, exec_instructions_ldc h _, ?_⟩
    refine Action.exec_bind_eq_ok.mpr ⟨[], ⟨⟨"Code", 15, [0, 0]⟩, .start q⟩, rfl, ?_⟩
    refine Action.exec_bind_eq_ok.mpr ⟨(), ⟨⟨"Code", 15, []⟩, .start q⟩, rfl, ?_⟩
    exact Action.exec_bind_eq_ok.mpr ⟨(), ⟨⟨"Code", 15, []⟩, .start q⟩, rfl, rfl⟩
  unfold code
  rw [Action.exec_ofFn, hbody]
  rfl

end PushConstant

/-- Copying a number that a pool already has. -/
private theorem exec_copy_shared {view : View} {i j : Slot} {value : Int32} {p : Pool}
    (hinv : p.Inv) (hi : i ≠ 0) (hview : view i = .ok (.integer value))
    (hfirst : p.IsFirst (.integer value) j.toNat) : (Pool.copy view i).exec p = (.ok j, p) := by
  unfold Pool.copy
  rw [if_neg hi, hview]
  exact Pool.exec_insert_shared hinv hfirst

/-- A pool that has the number at slot 2, behind another one. -/
def crowdedPool : Pool :=
  (Pool.empty .java8).afterCalls [.intern .fresh (.integer 3), .intern .fresh (.integer 7)]

/-- A pool that has it at slot 1. -/
def smallPool : Pool := (Pool.empty .java8).afterCalls [.intern .fresh (.integer 7)]

/-! ## Moving code twice -/

/-- Moving code to a reachable pool and from there to any other gives the same bytes and leaves the
same pool as moving it to the other at once. -/
theorem exec_code_trans (version : Version) (calls : List Pool.Call) (source : View)
    (info out₁ out₂ : List UInt8) (p₁ target p₂ : Pool)
    (h₁ : (code source info).exec ((Pool.empty version).afterCalls calls) = (.ok out₁, p₁))
    (h₂ : (code p₁.constant out₁).exec target = (.ok out₂, p₂)) :
    (code source info).exec target = (.ok out₂, p₂) := by
  rw [code_eq_of_exec_code h₁]
  exact h₂

/-- A number moves from slot 5 to slot 2 and from there to slot 1, or there at once. -/
theorem exec_code_trans_of_number :
    (code numberView (pushConstant 5)).exec crowdedPool = (.ok (pushConstant 2), crowdedPool) ∧
      (code crowdedPool.constant (pushConstant 2)).exec smallPool
        = (.ok (pushConstant 1), smallPool) ∧
      (code numberView (pushConstant 5)).exec smallPool = (.ok (pushConstant 1), smallPool) := by
  have hinv₁ : crowdedPool.Inv := Pool.inv_afterCalls .java8 _
  have hinv₂ : smallPool.Inv := Pool.inv_afterCalls .java8 _
  have hfirst₁ : crowdedPool.IsFirst (.integer 7) 2 := by
    refine ⟨rfl, fun k hk => ?_⟩
    have hpos := hinv₁.pos_of_holds hk
    by_contra hlt
    -- Slot 1 has another number.
    obtain rfl : k = 1 := by omega
    have hone : some (some (Record.integer 3)) = some (some (Record.integer 7)) := hk
    exact absurd hone (by decide)
  have hfirst₂ : smallPool.IsFirst (.integer 7) 1 := ⟨rfl, fun _ hk => hinv₂.pos_of_holds hk⟩
  have hcopy₁ : (Pool.copy numberView (5 : UInt8).toUInt16).exec crowdedPool
      = (.ok (2 : UInt8).toUInt16, crowdedPool) := exec_copy_shared hinv₁ (by decide) rfl hfirst₁
  have hcopy₂ : (Pool.copy crowdedPool.constant (2 : UInt8).toUInt16).exec smallPool
      = (.ok (1 : UInt8).toUInt16, smallPool) := exec_copy_shared hinv₂ (by decide) rfl hfirst₂
  have h₁ := exec_code_pushConstant hcopy₁
  have h₂ := exec_code_pushConstant hcopy₂
  exact ⟨h₁, h₂, exec_code_trans .java8 _ _ _ _ _ _ _ _ h₁ h₂⟩

end Remap

end JvmClass
