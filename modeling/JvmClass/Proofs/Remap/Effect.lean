import JvmClass.Proofs.Remap.Code

/-!
# What a remapper does to its output

A remapper goes through some input and copies constants as it meets them.  `Does act input input'
eff` parts the two: on that input the action ends as `eff` does, which knows nothing of the input,
and leaves the same output; if it succeeds, it has come to `input'`.

Two kinds of facts about an action on its input follow from this.  `Tracks act copied` starts from
a run: what was made of the input for one pool is made of the same input for any other pool by
copying it from the one to the other.  `Rereads act bytes eff` starts from bytes: the action takes
exactly these, whatever follows them.

## Key results

- `Does.bind`: the effect of a sequence
- `Tracks.map`, `Tracks.map₂`, `Tracks.counted`: readers that are put together from tracked ones
- `tracks_ref`: a reference is tracked, whatever view it was read with
- `Rereads.bind`, `Rereads.counted`, `rereads_ref`: the same for bytes
-/

namespace JvmClass

-- Powers are those of the core library, also where Mathlib brings its own.
attribute [local instance (high)] instPowNat

variable {α β γ : Type}

namespace AttributeWriter

theorem onPool_pure (a : α) : onPool (pure a) = pure a := rfl

theorem onPool_bind (act : Action Error Pool α) (k : α → Action Error Pool β) :
    onPool (act >>= k) = onPool act >>= fun a => onPool (k a) := by
  funext w
  show (onPool (act >>= k)).exec w = (onPool act >>= fun a => onPool (k a)).exec w
  unfold onPool
  rw [Action.exec_bind, Action.exec_onPart, Action.exec_onPart, Action.exec_bind]
  rcases act.exec w.pool with ⟨_ | _, _⟩ <;> rfl

end AttributeWriter

namespace Remapper

open AttributeWriter (onPool onPool_pure onPool_bind)

/-! ## Effects -/

/-- On this input the action ends as the effect does, with the same output, and it has come to the
second input if it succeeds. -/
def Does (act : Action Error Remapper α) (input input' : Input)
    (eff : Action Error AttributeWriter α) : Prop :=
  ∀ w, ∃ stop, act.exec ⟨input, w⟩ = ((eff.exec w).1, ⟨stop, (eff.exec w).2⟩) ∧
    ∀ a, (eff.exec w).1 = .ok a → stop = input'

section Does

variable {act : Action Error Remapper α} {k : α → Action Error Remapper β}
  {input input' input'' : Input}

theorem does_pure (a : α) (input : Input) : Does (pure a) input input (pure a) :=
  fun _ => ⟨input, rfl, fun _ _ => rfl⟩

theorem Does.bind {eff : Action Error AttributeWriter α} {effk : α → Action Error AttributeWriter β}
    (h : Does act input input' eff) (hk : ∀ a, Does (k a) input' input'' (effk a)) :
    Does (act >>= k) input input'' (eff >>= effk) := by
  intro w
  obtain ⟨stop, hact, hstop⟩ := h w
  rw [Action.exec_bind, Action.exec_bind, hact]
  rcases heff : eff.exec w with ⟨e | a, w'⟩
  · -- Neither goes on after a failure.
    exact ⟨stop, rfl, nofun⟩
  · have hinput : stop = input' := hstop a (by rw [heff])
    subst hinput
    exact hk a w'

/-- What was read before without an effect is known. -/
theorem Does.bind_known {a : α} {eff : Action Error AttributeWriter β}
    (h : Does act input input' (pure a)) (hk : Does (k a) input' input'' eff) :
    Does (act >>= k) input input'' eff := by
  intro w
  obtain ⟨stop, hact, hstop⟩ := h w
  rw [Action.exec_bind, hact, hstop a rfl]
  exact hk w

/-- The same for effects on the pool. -/
theorem Does.bind_onPool {eff : Action Error Pool α} {effk : α → Action Error Pool β}
    (h : Does act input input' (onPool eff))
    (hk : ∀ a, Does (k a) input' input'' (onPool (effk a))) :
    Does (act >>= k) input input'' (onPool (eff >>= effk)) := by
  rw [onPool_bind]
  exact h.bind hk

/-- An action on the output leaves the input as it is. -/
theorem does_onOutput (act : Action Error AttributeWriter α) (input : Input) :
    Does (onOutput act) input input act :=
  fun _ => ⟨input, rfl, fun _ _ => rfl⟩

theorem Does.discard {eff : Action Error AttributeWriter α} (h : Does act input input' eff) :
    Does (discard act) input input' (discard eff) := by
  intro w
  obtain ⟨stop, hexec, hstop⟩ := h w
  refine ⟨stop, by rw [Action.exec_discard, Action.exec_discard, hexec], fun u hu => ?_⟩
  have hok : (Functor.discard eff).exec w = (.ok u, ((Functor.discard eff).exec w).2) :=
    Prod.ext hu rfl
  obtain ⟨a, ha⟩ := Action.exec_discard_eq_ok.mp hok
  exact hstop a (congrArg Prod.fst ha)

theorem does_inspect {f : Input → Except Error α} {a : α} (h : f input = .ok a) :
    Does (Action.inspect fun r => f r.input) input input (pure a) :=
  fun _ => ⟨input, Prod.ext h rfl, fun _ _ => rfl⟩

theorem does_finish (h : input.rest = []) : Does finish input input (pure ()) := by
  intro w
  refine ⟨input, ?_, fun _ _ => rfl⟩
  unfold finish
  rw [Action.exec_inspect, h]
  rfl

/-- What an action that succeeded did. -/
theorem Does.of_exec {eff : Action Error AttributeWriter α} {r r' : Remapper} {a : α}
    (h : Does act r.input input' eff) (hrun : act.exec r = (.ok a, r')) :
    eff.exec r.output = (.ok a, r'.output) ∧ r'.input = input' := by
  obtain ⟨stop, hexec, hstop⟩ := h r.output
  obtain ⟨hok, rfl⟩ := Prod.mk.inj (hexec.symm.trans hrun)
  exact ⟨Prod.ext hok rfl, hstop a hok⟩

/-- An effect on the pool leaves the table as it is. -/
theorem Does.table_eq {eff : Action Error Pool α} {r r' : Remapper} {a : α}
    (h : Does act r.input input' (onPool eff)) (hrun : act.exec r = (.ok a, r')) :
    r'.output.table = r.output.table := by
  obtain ⟨hexec, -⟩ := h.of_exec hrun
  exact (congrArg (fun end' => end'.2.table) hexec).symm

/-- An input that is read in between does not change where the outer one is. -/
theorem Does.reading {eff : Action Error AttributeWriter α} {inner inner' : Input}
    (h : Does act inner inner' eff) (hend : inner'.rest = []) (input : Input) :
    Does (reading inner act) input input eff := by
  have hall : Does (do let a ← act; finish; return a : Action Error Remapper α) inner inner'
      (eff >>= pure) :=
    h.bind fun a => (does_finish hend).bind_known (does_pure a inner')
  rw [bind_pure] at hall
  intro w
  obtain ⟨stop, hexec, -⟩ := hall w
  refine ⟨input, ?_, fun _ _ => rfl⟩
  unfold Remapper.reading
  rw [Action.exec_onPart, hexec]

end Does

/-! ## Plain bytes -/

/-- The action only reads: the input decides what it makes of it, and the output stays. -/
def Plain (act : Action Error Remapper α) : Prop :=
  ∀ r a r', act.exec r = (.ok a, r') → r'.output = r.output ∧ Does act r.input r'.input (pure a)

theorem plain_pure (a : α) : Plain (pure a) := by
  intro r b r' h
  cases h
  exact ⟨rfl, does_pure a r.input⟩

theorem Plain.bind {act : Action Error Remapper α} {k : α → Action Error Remapper β} (h : Plain act)
    (hk : ∀ a, Plain (k a)) : Plain (act >>= k) := by
  intro r b r' hrun
  obtain ⟨a, r₁, ha, hb⟩ := Action.exec_bind_eq_ok.mp hrun
  obtain ⟨hout, hdoes⟩ := h r a r₁ ha
  obtain ⟨hout', hdoes'⟩ := hk a r₁ b r' hb
  exact ⟨hout'.trans hout, hdoes.bind_known hdoes'⟩

theorem Plain.map {act : Action Error Remapper α} (h : Plain act) (f : α → β) :
    Plain (f <$> act) := by
  rw [← bind_pure_comp]
  exact h.bind fun _ => plain_pure _

theorem plain_fail (fault : AttributeFault) : Plain (fail fault : Action Error Remapper α) := nofun

/-- Looking at the input. -/
theorem plain_inspect (f : Input → Except Error α) : Plain (Action.inspect fun r => f r.input) := by
  intro r a r' h
  obtain ⟨ha, rfl⟩ := Prod.mk.inj h
  exact ⟨rfl, does_inspect ha⟩

theorem plain_field (width : Nat) : Plain (field width) := by
  intro r n r' h
  unfold field at h
  rw [Action.exec_ofFn] at h
  split at h
  · rename_i bytes rest hsplit
    cases h
    refine ⟨rfl, fun w => ⟨{ r.input with rest }, ?_, fun _ _ => rfl⟩⟩
    unfold field
    rw [Action.exec_ofFn]
    simp only [hsplit]
    rfl
  · cases h

theorem plain_bytes (count : Nat) : Plain (bytes count) := by
  intro r n r' h
  unfold bytes at h
  rw [Action.exec_ofFn] at h
  split at h
  · rename_i bytes rest hsplit
    cases h
    refine ⟨rfl, fun w => ⟨{ r.input with rest }, ?_, fun _ _ => rfl⟩⟩
    unfold Remapper.bytes
    rw [Action.exec_ofFn]
    simp only [hsplit]
    rfl
  · cases h

theorem plain_u1 : Plain u1 := (plain_field 1).map _

theorem plain_u2 : Plain u2 := (plain_field 2).map _

theorem plain_u4 : Plain u4 := plain_field 4

theorem plain_mapM {f : β → Action Error Remapper α} (hf : ∀ b, Plain (f b)) (bs : List β) :
    Plain (bs.mapM f) := by
  induction bs with
  | nil =>
    rw [List.mapM_nil]
    exact plain_pure []
  | cons b bs ih =>
    rw [List.mapM_cons]
    exact (hf b).bind fun _ => ih.bind fun _ => plain_pure _

theorem Plain.times {act : Action Error Remapper α} (h : Plain act) (n : Nat) :
    Plain (Action.times n act) :=
  plain_mapM (fun _ => h) _

theorem Plain.counted {item : Action Error Remapper α} (h : Plain item) : Plain (counted item) :=
  plain_u2.bind fun _ => h.times _

/-! ## From one pool to another -/

/-- What the action made of its input for one pool it makes of the same input for any other, by
copying it from the pool that it was made for. -/
def Tracks (act : Action Error Remapper α) (copied : View → α → Action Error Pool α) : Prop :=
  ∀ r a r', r.output.pool.Inv → act.exec r = (.ok a, r') →
    r.output.pool.Grows r'.output.pool ∧
      ∀ q, r'.output.pool.Grows q → Does act r.input r'.input (onPool (copied q.constant a))

section Tracks

variable {act : Action Error Remapper α} {copied : View → α → Action Error Pool α}

theorem Plain.tracks (h : Plain act) : Tracks act fun _ => pure := by
  intro r a r' _ hrun
  obtain ⟨hout, hdoes⟩ := h r a r' hrun
  rw [hout]
  exact ⟨.refl, fun _ _ => hdoes⟩

/-- What refers to nothing is copied as it is. -/
theorem tracks_pure {a : α} (h : ∀ view, copied view a = pure a) : Tracks (pure a) copied := by
  intro r b r' _ hrun
  cases hrun
  refine ⟨.refl, fun q _ => ?_⟩
  rw [h]
  exact does_pure a r.input

theorem tracks_fail (fault : AttributeFault) : Tracks (fail fault) copied := nofun

/-- Plain bytes come first, about which something may be known. -/
theorem Tracks.bind_of_plain {first : Action Error Remapper β} {k : β → Action Error Remapper α}
    (h : Plain first) (hk : ∀ r b r', first.exec r = (.ok b, r') → Tracks (k b) copied) :
    Tracks (first >>= k) copied := by
  intro r a r' hinv hrun
  obtain ⟨b, r₁, hb, ha⟩ := Action.exec_bind_eq_ok.mp hrun
  obtain ⟨hout, hdoes⟩ := h r b r₁ hb
  obtain ⟨hgrows, hdoes'⟩ := hk r b r₁ hb r₁ a r' (hout ▸ hinv) ha
  exact ⟨hout ▸ hgrows, fun q hq => hdoes.bind_known (hdoes' q hq)⟩

theorem Tracks.bind_plain {first : Action Error Remapper β} {k : β → Action Error Remapper α}
    (h : Plain first) (hk : ∀ b, Tracks (k b) copied) : Tracks (first >>= k) copied :=
  .bind_of_plain h fun _ b _ _ => hk b

/-- Two readers in a row. -/
theorem Tracks.map₂ {act₂ : Action Error Remapper β} {copied₂ : View → β → Action Error Pool β}
    {f : α → β → γ} {copied' : View → γ → Action Error Pool γ} (h : Tracks act copied)
    (h₂ : Tracks act₂ copied₂)
    (hf : ∀ view a b, copied' view (f a b)
      = copied view a >>= fun a => copied₂ view b >>= fun b => pure (f a b)) :
    Tracks (act >>= fun a => act₂ >>= fun b => pure (f a b)) copied' := by
  intro r c r' hinv hrun
  obtain ⟨a, r₁, ha, hrun⟩ := Action.exec_bind_eq_ok.mp hrun
  obtain ⟨b, r₂, hb, hend⟩ := Action.exec_bind_eq_ok.mp hrun
  cases hend
  obtain ⟨hgrows, hdoes⟩ := h r a r₁ hinv ha
  obtain ⟨hgrows₂, hdoes₂⟩ := h₂ r₁ b r' (hgrows.inv hinv) hb
  refine ⟨trans_of Pool.Grows hgrows hgrows₂, fun q hq => ?_⟩
  rw [hf]
  -- The second reader does the same whatever the first one was copied to.
  refine (hdoes q (trans_of Pool.Grows hgrows₂ hq)).bind_onPool fun a' => ?_
  exact (hdoes₂ q hq).bind_onPool fun b' => does_pure _ _

theorem Tracks.map {f : α → γ} {copied' : View → γ → Action Error Pool γ} (h : Tracks act copied)
    (hf : ∀ view a, copied' view (f a) = copied view a >>= fun a => pure (f a)) :
    Tracks (act >>= fun a => pure (f a)) copied' := by
  intro r c r' hinv hrun
  obtain ⟨a, r₁, ha, hend⟩ := Action.exec_bind_eq_ok.mp hrun
  cases hend
  obtain ⟨hgrows, hdoes⟩ := h r a r' hinv ha
  refine ⟨hgrows, fun q hq => ?_⟩
  rw [hf]
  exact (hdoes q hq).bind_onPool fun a' => does_pure _ _

theorem Tracks.times (h : Tracks act copied) (n : Nat) :
    Tracks (Action.times n act) fun view as => as.mapM (copied view) := by
  induction n with
  | zero =>
    intro r as r' _ hrun
    cases hrun
    exact ⟨.refl, fun _ _ => does_pure [] r.input⟩
  | succ n ih =>
    rw [Action.times_succ]
    exact h.map₂ ih fun _ _ _ => List.mapM_cons

theorem Tracks.counted (h : Tracks act copied) :
    Tracks (counted act) fun view as => as.mapM (copied view) :=
  .bind_plain plain_u2 fun _ => h.times _

theorem tracks_ref (kind : Tag) (source : View) :
    Tracks (ref kind source) fun view j => Pool.copyAs kind view j.slot := by
  intro r j r' hinv hrun
  obtain ⟨i, r₁, hi, hj⟩ := Action.exec_bind_eq_ok.mp hrun
  obtain ⟨hout, hdoes⟩ := plain_u2 r i r₁ hi
  obtain ⟨hcopy, hinput⟩ := onPool_ok hj
  rw [hout] at hcopy
  obtain ⟨hgrows, hsame, -⟩ := Pool.yields_copyAs hinv kind source i j _ hcopy
  refine ⟨hgrows, fun q hq => ?_⟩
  -- Copying what the slot means in the pool is copying what it came from.
  simp only [← (hsame.mono hq).copyAs_eq kind]
  rw [hinput]
  exact hdoes.bind_known (does_onOutput _ _)

end Tracks

/-! ## From bytes -/

/-- The action takes exactly these bytes, whatever follows them, and does what the effect does.  No
more bytes are left than the attribute has. -/
def Rereads (act : Action Error Remapper α) (bytes : List UInt8)
    (eff : Action Error AttributeWriter α) : Prop :=
  ∀ (input : Input) (rest : List UInt8), bytes.length + rest.length ≤ input.size →
    Does act { input with rest := bytes ++ rest } { input with rest } eff

section Rereads

variable {act : Action Error Remapper α} {k : α → Action Error Remapper β} {xs ys : List UInt8}

theorem rereads_pure (a : α) : Rereads (pure a) [] (pure a) := fun _ _ _ => does_pure a _

theorem Rereads.bind {eff : Action Error AttributeWriter α}
    {effk : α → Action Error AttributeWriter β} (h : Rereads act xs eff)
    (hk : ∀ a, Rereads (k a) ys (effk a)) : Rereads (act >>= k) (xs ++ ys) (eff >>= effk) := by
  intro input rest hsize
  rw [List.length_append] at hsize
  rw [List.append_assoc]
  have hfirst := h input (ys ++ rest) (by rw [List.length_append]; omega)
  exact hfirst.bind fun a => hk a input rest (by omega)

/-- What was reread before without an effect is known. -/
theorem Rereads.bind_known {a : α} {eff : Action Error AttributeWriter β}
    (h : Rereads act xs (pure a)) (hk : Rereads (k a) ys eff) :
    Rereads (act >>= k) (xs ++ ys) eff := by
  intro input rest hsize
  rw [List.length_append] at hsize
  rw [List.append_assoc]
  have hfirst := h input (ys ++ rest) (by rw [List.length_append]; omega)
  exact hfirst.bind_known (hk input rest (by omega))

theorem Rereads.bind_onPool {eff : Action Error Pool α} {effk : α → Action Error Pool β}
    (h : Rereads act xs (onPool eff)) (hk : ∀ a, Rereads (k a) ys (onPool (effk a))) :
    Rereads (act >>= k) (xs ++ ys) (onPool (eff >>= effk)) := by
  rw [onPool_bind]
  exact h.bind hk

/-- The last reader, behind which something is made of the result. -/
theorem Rereads.map {eff : Action Error Pool α} (h : Rereads act xs (onPool eff)) (f : α → β) :
    Rereads (act >>= fun a => pure (f a)) xs (onPool (eff >>= fun a => pure (f a))) := by
  have hend : ∀ a, Rereads (pure (f a)) [] (onPool (pure (f a))) := fun a => rereads_pure (f a)
  have hall := h.bind_onPool hend
  rwa [List.append_nil] at hall

/-- What follows looks at nothing but what was reread. -/
theorem Rereads.bind_does {a : α} {eff : Action Error AttributeWriter β}
    (h : Rereads act xs (pure a)) (hk : ∀ input, Does (k a) input input eff) :
    Rereads (act >>= k) xs eff :=
  fun input rest hsize => (h input rest hsize).bind_known (hk { input with rest })

theorem Rereads.map_known {a : α} (h : Rereads act xs (pure a)) (f : α → β) :
    Rereads (act >>= fun a => pure (f a)) xs (pure (f a)) :=
  h.bind_does fun input => does_pure (f a) input

theorem rereads_field {width n : Nat} (h : n < 256 ^ width) :
    Rereads (field width) (BigEndian.encode width n) (pure n) := by
  intro input rest _ w
  have hsplit : splitExactly width (BigEndian.encode width n ++ rest)
      = some (BigEndian.encode width n, rest) :=
    splitExactly_eq_some.mpr ⟨rfl, BigEndian.length_encode width n⟩
  refine ⟨_, ?_, fun _ _ => rfl⟩
  unfold field
  rw [Action.exec_ofFn]
  simp only [hsplit, BigEndian.decode_encode_of_lt h]
  rfl

theorem rereads_bytes (xs : List UInt8) : Rereads (bytes xs.length) xs (pure xs) := by
  intro input rest _ w
  have hsplit : splitExactly xs.length (xs ++ rest) = some (xs, rest) :=
    splitExactly_eq_some.mpr ⟨rfl, rfl⟩
  refine ⟨_, ?_, fun _ _ => rfl⟩
  unfold bytes
  rw [Action.exec_ofFn]
  simp only [hsplit]
  rfl

theorem rereads_u1 (b : UInt8) : Rereads u1 [b] (pure b) := by
  have hb : BigEndian.encode 1 b.toNat = [b] := by simp [BigEndian.encode]
  have hfield : Rereads (field 1) (BigEndian.encode 1 b.toNat) (pure b.toNat) :=
    rereads_field b.toNat_lt
  have hall := hfield.map_known UInt8.ofNat
  rwa [hb, UInt8.ofNat_toNat, bind_pure_comp] at hall

theorem rereads_u2 (n : UInt16) : Rereads u2 (BigEndian.u2 n) (pure n) := by
  have hfield : Rereads (field 2) (BigEndian.u2 n) (pure n.toNat) := rereads_field n.toNat_lt
  have hall := hfield.map_known UInt16.ofNat
  rwa [UInt16.ofNat_toNat, bind_pure_comp] at hall

theorem rereads_ref {kind : Tag} (view : View) (j : Ref kind) :
    Rereads (ref kind view) j.encode (onPool (Pool.copyAs kind view j.slot)) :=
  (rereads_u2 j.slot).bind_does fun input => does_onOutput _ input

/-- Items that are reread one by one are reread in a row. -/
theorem Rereads.times {eff : β → Action Error AttributeWriter α} {items : List β}
    {bodies : List (List UInt8)}
    (h : List.Forall₂ (fun b body => Rereads act body (eff b)) items bodies) :
    Rereads (Action.times items.length act) bodies.flatten (items.mapM eff) := by
  induction h with
  | nil => exact rereads_pure []
  | cons hfirst _ ih =>
    rw [List.length_cons, Action.times_succ, List.mapM_cons, List.flatten_cons]
    refine hfirst.bind fun a => ?_
    have hrest := ih.bind fun as => rereads_pure (a :: as)
    rwa [List.append_nil] at hrest

theorem Rereads.counted {eff : β → Action Error AttributeWriter α} {items : List β}
    {bodies : List (List UInt8)} (hlen : items.length ≤ 65535)
    (h : List.Forall₂ (fun b body => Rereads act body (eff b)) items bodies) :
    Rereads (counted act) (BigEndian.encode 2 items.length ++ bodies.flatten) (items.mapM eff) := by
  have hcount : (UInt16.ofNat items.length).toNat = items.length := by
    rw [UInt16.toNat_ofNat']
    omega
  have htimes := Rereads.times h
  have hfirst := rereads_u2 (UInt16.ofNat items.length)
  rw [BigEndian.u2, hcount] at hfirst
  refine hfirst.bind_known ?_
  rwa [hcount]

theorem onPool_mapM (f : β → Action Error Pool α) (bs : List β) :
    onPool (bs.mapM f) = bs.mapM fun b => onPool (f b) := by
  induction bs with
  | nil => rfl
  | cons b bs ih =>
    rw [List.mapM_cons, List.mapM_cons, onPool_bind]
    congr 1
    funext a
    rw [onPool_bind, ih]
    rfl

/-- A table is reread item by item, and no item has more bytes than the table. -/
theorem Rereads.table {encode : α → Except Error (List UInt8)}
    {copied : α → Action Error Pool α} {items : List α} {name : String} {bytes : List UInt8}
    (htable : CountedTable.ofEntries name .two (items.map encode) = .ok bytes)
    (h : ∀ a ∈ items, ∀ body, encode a = .ok body → body.length ≤ bytes.length →
      Rereads act body (onPool (copied a))) :
    Rereads (Remapper.counted act) bytes (onPool (items.mapM copied)) := by
  obtain ⟨bodies, hbodies, hlen, rfl⟩ := CountedTable.ofEntries_eq_ok htable
  have hlengths : items.length = bodies.length := by
    simpa using congrArg List.length hbodies
  have hle : bodies.length ≤ 65535 := hlen
  rw [List.length_append] at h
  have hitems := CountedTable.forall₂_of_map_encode hbodies fun a ha body hbody hle =>
    h a ha body hbody (Nat.le_trans hle (Nat.le_add_left _ _))
  have hall := Rereads.counted (by omega) hitems
  rwa [hlengths, ← onPool_mapM] at hall

/-- Items without constants are known when they have been reread. -/
theorem onPool_mapM_pure (items : List α) :
    onPool (items.mapM (pure : α → Action Error Pool α)) = pure items := by
  have hpure : items.mapM (pure : α → Action Error Pool α) = pure items := by
    rw [List.mapM_pure, List.map_id']
  rw [hpure, onPool_pure]

/-- Where the effect succeeds, the bytes are taken in the middle of any attribute, and what follows
them is left. -/
theorem Rereads.exec_eq_ok {eff : Action Error AttributeWriter α} {a : α} {w w' : AttributeWriter}
    (h : Rereads act xs eff) (heff : eff.exec w = (.ok a, w')) (name : String) (before : Nat)
    (rest : List UInt8) : act.exec ⟨⟨name, before + (xs ++ rest).length, xs ++ rest⟩, w⟩
      = (.ok a, ⟨⟨name, before + (xs ++ rest).length, rest⟩, w'⟩) := by
  have hsize : xs.length + rest.length ≤ before + (xs ++ rest).length := by
    rw [List.length_append]
    omega
  obtain ⟨stop, hexec, hstop⟩ := h ⟨name, before + (xs ++ rest).length, rest⟩ rest hsize w
  rw [heff] at hexec hstop
  rw [hexec, hstop a rfl]

end Rereads

end Remapper

end JvmClass
