import JvmClass.Proofs.Remap.Repetition

/-!
# Following a grammar while constants move

The bytes of an attribute are plain bytes with slots of constants among them.  When the attribute
moves to another pool, the plain bytes stay, and each slot becomes that of the copied constant: its
import.  `Becomes source q ps bytes` says so of some pieces and of the bytes that are written for the
pool `q`.

`Follows n g act R` compares a remapper with a grammar that knows nothing of pools: whatever `act`
makes of its input, `g` takes the same bytes off it, and the two results are related by `R` in the
pool that `act` leaves.  The related results get along with any growth of the pool, so that those of
a sequence are put together in the pool that is there in the end.

## Key results

- `isImport_of_copyAs`: a constant that was copied is an import, whatever the pool grows to
- `Becomes.append`, `Becomes.flatten`: pieces in a row
- `Follows.bind`, `Follows.times`, `Follows.counted`: remappers that are put together
- `follows_ref`: a reference is followed by an import
- `links_of_follows`: an attribute that a grammar knows
-/

namespace JvmClass

-- Powers are those of the core library, also where Mathlib brings its own.
attribute [local instance (high)] instPowNat

/-! ## Imports -/

/-- The slot `j` of the pool is the import of the slot `i` of a view: it means the same, nothing
being nothing, it is of the kind that was asked for, and asking again gives it again. -/
structure IsImport (source : View) (q : Pool) (kind : Tag) (i j : Slot) : Prop where
  same : Pool.SameConstant source q i j
  kind_eq : i ≠ 0 → ∃ c, q.constant j = .ok c ∧ c.tag = kind
  copyAs_eq : ∀ q', q.Grows q' → (Pool.copyAs kind source i).exec q' = (.ok ⟨j⟩, q')

section IsImport

variable {source : View} {p q : Pool} {kind : Tag} {i j : Slot}

theorem IsImport.mono (hq : p.Grows q) (h : IsImport source p kind i j) :
    IsImport source q kind i j where
  same := h.same.mono hq
  kind_eq hi :=
    have ⟨c, hc, hkind⟩ := h.kind_eq hi
    ⟨c, hq.constant_eq hc, hkind⟩
  copyAs_eq q' hq' := h.copyAs_eq q' (trans_of Pool.Grows hq hq')

theorem isImport_of_copyAs (hinv : p.Inv) {j : Ref kind}
    (h : (Pool.copyAs kind source i).exec p = (.ok j, q)) : IsImport source q kind i j.slot := by
  obtain ⟨-, hsame, hkind⟩ := Pool.yields_copyAs hinv kind source i j q h
  obtain ⟨-, hagain⟩ := Pool.repeats_copyAs kind source i p q j hinv h
  exact ⟨hsame, hkind, hagain⟩

end IsImport

/-! ## Pieces -/

/-- A part of the bytes of an attribute: a plain byte, or the slot of a constant. -/
inductive Piece
  | byte (b : UInt8)
  | slot (kind : Tag) (i : Slot)
  deriving DecidableEq, Repr

namespace Piece

def encode : Piece → List UInt8
  | byte b => [b]
  | slot _ i => BigEndian.u2 i

/-- The second piece is what the first one is in another pool. -/
inductive Imported (source : View) (q : Pool) : Piece → Piece → Prop
  | byte (b : UInt8) : Imported source q (.byte b) (.byte b)
  | slot {kind : Tag} {i j : Slot} (h : IsImport source q kind i j) :
    Imported source q (.slot kind i) (.slot kind j)

theorem Imported.mono {source : View} {p q : Pool} (hq : p.Grows q) {x y : Piece}
    (h : Imported source p x y) : Imported source q x y := by
  cases h with
  | byte b => exact .byte b
  | slot h => exact .slot (h.mono hq)

theorem Imported.length_eq {source : View} {q : Pool} {x y : Piece} (h : Imported source q x y) :
    y.encode.length = x.encode.length := by
  cases h with
  | byte b => rfl
  | slot h => exact (BigEndian.length_encode 2 _).trans (BigEndian.length_encode 2 _).symm

/-- Plain bytes. -/
def plain (bytes : List UInt8) : List Piece := bytes.map .byte

@[simp] theorem flatMap_encode_plain (bytes : List UInt8) :
    (plain bytes).flatMap encode = bytes := by
  unfold plain
  rw [List.flatMap_map]
  exact List.flatMap_singleton' bytes

end Piece

/-- The bytes are those of the pieces once these have moved to the pool. -/
def Becomes (source : View) (q : Pool) (ps : List Piece) (bytes : List UInt8) : Prop :=
  ∃ ps', List.Forall₂ (Piece.Imported source q) ps ps' ∧ bytes = ps'.flatMap Piece.encode

section Becomes

variable {source : View} {p q : Pool} {ps qs : List Piece} {xs ys : List UInt8}

theorem Becomes.mono (hq : p.Grows q) (h : Becomes source p ps xs) : Becomes source q ps xs := by
  obtain ⟨ps', hps, hxs⟩ := h
  exact ⟨ps', hps.imp fun _ _ hx => hx.mono hq, hxs⟩

theorem becomes_nil (source : View) (q : Pool) : Becomes source q [] [] := ⟨[], .nil, rfl⟩

theorem becomes_plain (source : View) (q : Pool) (bytes : List UInt8) :
    Becomes source q (Piece.plain bytes) bytes := by
  refine ⟨Piece.plain bytes, ?_, (Piece.flatMap_encode_plain bytes).symm⟩
  unfold Piece.plain
  rw [List.forall₂_map_left_iff, List.forall₂_map_right_iff]
  exact List.forall₂_same.mpr fun b _ => .byte b

theorem becomes_slot {kind : Tag} {i j : Slot} (h : IsImport source q kind i j) :
    Becomes source q [.slot kind i] (BigEndian.u2 j) :=
  ⟨[.slot kind j], .cons (.slot h) .nil, (List.append_nil _).symm⟩

theorem Becomes.append (h : Becomes source q ps xs) (h' : Becomes source q qs ys) :
    Becomes source q (ps ++ qs) (xs ++ ys) := by
  obtain ⟨ps', hps, rfl⟩ := h
  obtain ⟨qs', hqs, rfl⟩ := h'
  exact ⟨ps' ++ qs', List.rel_append hps hqs, List.flatMap_append.symm⟩

theorem Becomes.cons (b : UInt8) (h : Becomes source q ps xs) :
    Becomes source q (.byte b :: ps) (b :: xs) :=
  (becomes_plain source q [b]).append h

theorem Becomes.flatten {pss : List (List Piece)} {bodies : List (List UInt8)}
    (h : List.Forall₂ (Becomes source q) pss bodies) :
    Becomes source q pss.flatten bodies.flatten := by
  induction h with
  | nil => exact becomes_nil source q
  | cons hfirst _ ih => exact hfirst.append ih

/-- Slots are as wide in one pool as in another. -/
theorem Becomes.length_eq (h : Becomes source q ps xs) :
    xs.length = (ps.flatMap Piece.encode).length := by
  obtain ⟨ps', hps, rfl⟩ := h
  induction hps with
  | nil => rfl
  | cons hx _ ih =>
    rw [List.flatMap_cons, List.flatMap_cons, List.length_append, List.length_append, ih,
      hx.length_eq]

end Becomes

/-- The second bytes are the first ones, but for slots of constants, in whose place their imports
stand. -/
def Verbatim (source : View) (q : Pool) (xs ys : List UInt8) : Prop :=
  ∃ ps, xs = ps.flatMap Piece.encode ∧ Becomes source q ps ys

section Verbatim

variable {source : View} {q : Pool} {xs ys xs' ys' : List UInt8}

theorem verbatim_refl (source : View) (q : Pool) (xs : List UInt8) : Verbatim source q xs xs :=
  ⟨Piece.plain xs, (Piece.flatMap_encode_plain xs).symm, becomes_plain source q xs⟩

theorem Verbatim.mono {p : Pool} (hq : p.Grows q) (h : Verbatim source p xs ys) :
    Verbatim source q xs ys := by
  obtain ⟨ps, hxs, hps⟩ := h
  exact ⟨ps, hxs, hps.mono hq⟩

theorem verbatim_slot {kind : Tag} {i j : Slot} (h : IsImport source q kind i j) :
    Verbatim source q (BigEndian.u2 i) (BigEndian.u2 j) :=
  ⟨[.slot kind i], (List.append_nil _).symm, becomes_slot h⟩

theorem Verbatim.append (h : Verbatim source q xs ys) (h' : Verbatim source q xs' ys') :
    Verbatim source q (xs ++ xs') (ys ++ ys') := by
  obtain ⟨ps, rfl, hps⟩ := h
  obtain ⟨qs, rfl, hqs⟩ := h'
  exact ⟨ps ++ qs, List.flatMap_append.symm, hps.append hqs⟩

/-- The same bytes come first. -/
theorem Verbatim.after (front : List UInt8) (h : Verbatim source q xs ys) :
    Verbatim source q (front ++ xs) (front ++ ys) :=
  (verbatim_refl source q front).append h

theorem Verbatim.flatMap {α : Type} {encode : α → List UInt8} {as bs : List α}
    (h : List.Forall₂ (fun a b => Verbatim source q (encode a) (encode b)) as bs) :
    Verbatim source q (as.flatMap encode) (bs.flatMap encode) := by
  induction h with
  | nil => exact verbatim_refl source q []
  | cons hfirst _ ih => exact hfirst.append ih

theorem Verbatim.length_eq (h : Verbatim source q xs ys) : ys.length = xs.length := by
  obtain ⟨ps, rfl, hps⟩ := h
  exact hps.length_eq

end Verbatim

/-! ## Remappers and grammars -/

namespace Remapper

variable {α β γ δ : Type}

/-- Whatever the action makes of an input of the given size, the grammar takes the same bytes off it,
and the results are related in the pool that the action leaves. -/
def Follows (n : Nat) (g : Reader α) (act : Action Error Remapper β)
    (R : Pool → α → β → Prop) : Prop :=
  ∀ r b r', r.output.pool.Inv → r.input.size = n → act.exec r = (.ok b, r') →
    r.output.Leaves r'.output ∧ r'.input.size = n ∧
      ∃ a, g.run r.input.rest = some (a, r'.input.rest) ∧ R r'.output.pool a b

namespace Follows

variable {n : Nat} {g : Reader α} {act : Action Error Remapper β} {R S : Pool → α → β → Prop}

theorem imp (h : Follows n g act R) (hRS : ∀ q a b, R q a b → S q a b) : Follows n g act S := by
  intro r b r' hinv hsize hrun
  obtain ⟨hleaves, hsize', a, hread, hab⟩ := h r b r' hinv hsize hrun
  exact ⟨hleaves, hsize', a, hread, hRS _ a b hab⟩

/-- The first results stay related while the others are read. -/
theorem bind {kg : α → Reader γ} {k : β → Action Error Remapper δ} {T : Pool → γ → δ → Prop}
    (h : Follows n g act R) (hmono : ∀ {p q a b}, p.Grows q → R p a b → R q a b)
    (hk : ∀ p a b, R p a b → Follows n (kg a) (k b) fun q c d => R q a b → T q c d) :
    Follows n (g >>= kg) (act >>= k) T := by
  intro r d r' hinv hsize hrun
  obtain ⟨b, r₁, hfirst, hrest⟩ := Action.exec_bind_eq_ok.mp hrun
  obtain ⟨hleaves, hsize₁, a, ha, hab⟩ := h r b r₁ hinv hsize hfirst
  obtain ⟨hleaves', hsize', c, hc, hcd⟩ :=
    hk _ a b hab r₁ d r' (hleaves.grows.inv hinv) hsize₁ hrest
  refine ⟨hleaves.trans hleaves', hsize', c, ?_, hcd (hmono hleaves'.grows hab)⟩
  rw [StateT.run_bind, ha]
  exact hc

/-- Only what the grammar finds is put in another way. -/
theorem mapGrammar {T : Pool → γ → β → Prop} (h : Follows n g act R) (f : α → γ)
    (hRT : ∀ q a b, R q a b → T q (f a) b) : Follows n (f <$> g) act T := by
  intro r b r' hinv hsize hrun
  obtain ⟨hleaves, hsize', a, hread, hab⟩ := h r b r' hinv hsize hrun
  refine ⟨hleaves, hsize', f a, ?_, hRT _ a b hab⟩
  rw [StateT.run_map, hread]
  rfl

/-- Only what the remapper makes of it is put in another way. -/
theorem mapResult {T : Pool → α → δ → Prop} (h : Follows n g act R) (f : β → δ)
    (hRT : ∀ q a b, R q a b → T q a (f b)) : Follows n g (f <$> act) T := by
  intro r d r' hinv hsize hrun
  obtain ⟨b, hb, rfl⟩ := Action.exec_map_eq_ok.mp hrun
  obtain ⟨hleaves, hsize', a, hread, hab⟩ := h r b r' hinv hsize hb
  exact ⟨hleaves, hsize', a, hread, hRT _ a b hab⟩

end Follows

variable {n : Nat}

theorem follows_pure {a : α} {b : β} {R : Pool → α → β → Prop} (h : ∀ q, R q a b) :
    Follows n (pure a) (pure b) R := by
  intro r b r' _ hsize hrun
  cases hrun
  exact ⟨⟨.refl, rfl⟩, hsize, a, rfl, h _⟩

theorem follows_fail {g : Reader α} {fault : AttributeFault} {R : Pool → α → β → Prop} :
    Follows n g (fail fault) R := nofun

/-- Both decide in the same way. -/
theorem Follows.ite {c : Prop} [Decidable c] {g g' : Reader α} {act act' : Action Error Remapper β}
    {R : Pool → α → β → Prop} (h : c → Follows n g act R) (h' : ¬c → Follows n g' act' R) :
    Follows n (if c then g else g') (if c then act else act') R := by
  split
  · exact h ‹_›
  · exact h' ‹_›

/-- Only the remapper looks at the size of the input. -/
theorem Follows.bind_size {g : Reader α} {k : Nat → Action Error Remapper β}
    {R : Pool → α → β → Prop} (h : Follows n g (k n) R) :
    Follows n g ((Action.inspect fun r => .ok r.input.size) >>= k) R := by
  intro r b r' hinv hsize hrun
  obtain ⟨m, r₁, hm, hrun⟩ := Action.exec_bind_eq_ok.mp hrun
  cases hm
  rw [hsize] at hrun
  exact h r b r' hinv hsize hrun

/-! ### Fields -/

theorem follows_take (width : Nat) : Follows n (Reader.take width) (field width)
    fun _ bytes m => bytes.length = width ∧ m = BigEndian.decode bytes := by
  intro r m r' _ hsize hrun
  unfold field at hrun
  rw [Action.exec_ofFn] at hrun
  split at hrun
  · rename_i bytes rest hsplit
    cases hrun
    exact ⟨⟨.refl, rfl⟩, hsize, bytes, hsplit, (splitExactly_eq_some.mp hsplit).2, rfl⟩
  · cases hrun

theorem follows_uint (width : Nat) : Follows n (Reader.uint width) (field width)
    fun _ k m => k < 256 ^ width ∧ m = k := by
  refine (follows_take width).mapGrammar _ fun _ bytes m h => ?_
  obtain ⟨rfl, rfl⟩ := h
  exact ⟨BigEndian.decode_lt bytes, rfl⟩

/-- A count of one byte. -/
theorem follows_count_one : Follows n (Reader.uint 1) u1 fun _ k m => k ≤ 255 ∧ m.toNat = k := by
  refine (follows_uint 1).mapResult _ fun _ k m h => ?_
  obtain ⟨hlt, rfl⟩ := h
  rw [UInt8.toNat_ofNat']
  omega

/-- A count of two bytes. -/
theorem follows_count_two :
    Follows n (Reader.uint 2) u2 fun _ k m => k ≤ 65535 ∧ m.toNat = k := by
  refine (follows_uint 2).mapResult _ fun _ k m h => ?_
  obtain ⟨hlt, rfl⟩ := h
  rw [UInt16.toNat_ofNat']
  omega

theorem follows_u1 : Follows n Reader.byte u1 fun _ a b => b = a := by
  intro r b r' hinv hsize hrun
  obtain ⟨hleaves, hsize', k, hread, hle, rfl⟩ := follows_count_one r b r' hinv hsize hrun
  obtain ⟨front, hrest, -, rfl⟩ := Reader.finds_uint 1 _ _ _ hread
  refine ⟨hleaves, hsize', b, ?_, rfl⟩
  rw [hrest]
  simp [BigEndian.encode, Reader.byte, StateT.run]

theorem follows_u2 : Follows n Reader.u2 u2 fun _ a b => b = a :=
  (follows_count_two.mapGrammar _) fun _ k m h => by rw [← h.2, UInt16.ofNat_toNat]

theorem follows_ref (kind : Tag) (source : View) :
    Follows n (Reader.ref : Reader (Ref kind)) (ref kind source) fun q i j =>
      IsImport source q kind i.slot j.slot := by
  intro r j r' hinv hsize hrun
  obtain ⟨i, r₁, hi, hcopy⟩ := Action.exec_bind_eq_ok.mp hrun
  obtain ⟨hleaves, hsize₁, i, hread, rfl⟩ := follows_u2 r i r₁ hinv hsize hi
  -- Copying touches the pool, and neither the table nor the input.
  have htable : r'.output.table = r₁.output.table := (does_onOutput _ r₁.input).table_eq hcopy
  obtain ⟨hcopy, hinput⟩ := onPool_ok hcopy
  have hinv₁ := hleaves.grows.inv hinv
  obtain ⟨hgrows, -⟩ := Pool.yields_copyAs hinv₁ kind source i j _ hcopy
  refine ⟨hleaves.trans ⟨hgrows, htable⟩, by rw [hinput, hsize₁], ⟨i⟩, ?_,
    isImport_of_copyAs hinv₁ hcopy⟩
  unfold Reader.ref
  rw [StateT.run_map, hread, hinput]
  rfl

/-- The slot is copied as it would be copied on its own. -/
theorem exec_ref {kind : Tag} {source : View} {i : Slot} {j : Ref kind} {p q : Pool}
    (h : (Pool.copyAs kind source i).exec p = (.ok j, q)) (name : String) (size : Nat)
    (rest : List UInt8) (table : CountedTable) :
    (ref kind source).exec ⟨⟨name, size, BigEndian.u2 i ++ rest⟩, ⟨p, table⟩⟩
      = (.ok j, ⟨⟨name, size, rest⟩, ⟨q, table⟩⟩) := by
  have hsplit : splitExactly 2 (BigEndian.u2 i ++ rest) = some (BigEndian.u2 i, rest) :=
    splitExactly_eq_some.mpr ⟨rfl, BigEndian.length_encode 2 _⟩
  have hslot : u2.exec ⟨⟨name, size, BigEndian.u2 i ++ rest⟩, ⟨p, table⟩⟩
      = (.ok i, ⟨⟨name, size, rest⟩, ⟨p, table⟩⟩) := by
    unfold u2 field
    rw [Action.exec_map, Action.exec_ofFn]
    simp only [hsplit]
    show (Except.ok (UInt16.ofNat (BigEndian.decode (BigEndian.u2 i))), _) = _
    rw [BigEndian.decode_u2]
  refine Action.exec_bind_eq_ok.mpr ⟨i, _, hslot, ?_⟩
  unfold onOutput AttributeWriter.onPool
  rw [Action.exec_onPart, Action.exec_onPart, h]

/-! ### Items in a row -/

section Items

variable {g : Reader α} {act : Action Error Remapper β} {R : Pool → α → β → Prop}

theorem Follows.times (h : Follows n g act R)
    (hmono : ∀ {p q a b}, p.Grows q → R p a b → R q a b) (k : Nat) :
    Follows n (Reader.times k g) (Action.times k act) fun q as bs =>
      bs.length = k ∧ List.Forall₂ (R q) as bs := by
  -- Induction on the items: the first one is related in the pool that the others leave.
  induction k with
  | zero => exact follows_pure fun _ => ⟨rfl, .nil⟩
  | succ k ih =>
    rw [Action.times_succ]
    refine h.bind hmono fun _ a b _ => ?_
    refine ih.bind (fun hq hall => ⟨hall.1, hall.2.imp fun _ _ => hmono hq⟩) fun _ as bs _ => ?_
    exact follows_pure fun q hall hab => ⟨congrArg Nat.succ hall.1, .cons hab hall.2⟩

theorem Follows.counted (h : Follows n g act R)
    (hmono : ∀ {p q a b}, p.Grows q → R p a b → R q a b) :
    Follows n (Reader.counted g) (counted act) fun q => List.Forall₂ (R q) := by
  refine follows_count_two.bind (fun _ hk => hk) fun _ k m hm => ?_
  obtain ⟨-, rfl⟩ := hm
  exact (h.times hmono m.toNat).imp fun q as bs hall _ => hall.2

end Items

end Remapper

/-! ## Attributes of a known form -/

/-- A predefined attribute was linked in with its bytes. -/
theorem AttributeWriter.Links.named {w w' : AttributeWriter} {a : Attribute}
    (h : w.Links (.predefined a) w') :
    ∃ out, a.encode w'.pool.version = .ok out ∧ w.Links (.named a.name out) w' := by
  obtain ⟨name, info, hsize, htable, hshows⟩ := h.exists_info
  cases hshows with
  | predefined hname hinfo =>
    exact ⟨info.toList, hinfo, h.grows, h.isFull_eq, name, info, hsize, htable, .named hname⟩

/-- An attribute that a grammar knows is read to its end by it, and then linked in. -/
theorem Remap.links_of_follows {α : Type} {source : View} {name : String} {info : List UInt8}
    {g : Reader α} {read : Action Error Remapper Attribute} {R : Pool → α → Attribute → Prop}
    {r r' : Remapper} (hknown : known? source name = some read)
    (hread : Remapper.Follows info.length g read R) (hinv : r.output.pool.Inv)
    (h : (nestedAttribute source name info).exec r = (.ok (), r')) :
    ∃ a x p out, Reader.whole g info = some a ∧ R p a x ∧ p.Grows r'.output.pool ∧
      x.encode r'.output.pool.version = .ok out ∧ r.output.Links (.named x.name out) r'.output ∧
      r'.input = r.input := by
  rw [nestedAttribute_known hknown] at h
  obtain ⟨x, r₁, hreading, hadd⟩ := Action.exec_bind_eq_ok.mp h
  obtain ⟨r₂, hrun, hend, houtput, hinput⟩ := Remapper.reading_ok hreading
  obtain ⟨hleaves, -, a, ha, hax⟩ := hread ⟨.start name info, r.output⟩ x r₂ hinv rfl hrun
  obtain ⟨hadd, hinput'⟩ := Remapper.onOutput_ok hadd
  have hinv₁ : r₁.output.pool.Inv := by
    rw [houtput]
    exact hleaves.grows.inv hinv
  have hlinks := (AttributeWriter.addsOne_add hinv₁ x).of_ok hadd
  rw [← houtput] at hleaves hax
  obtain ⟨out, hout, hnamed⟩ := (hleaves.links hlinks).named
  rw [hend] at ha
  exact ⟨a, x, _, out, Reader.whole_eq_some.mpr ha, hax, hlinks.grows, hout, hnamed,
    hinput'.trans hinput⟩

/-- What is read to its end is read in between. -/
theorem Remapper.exec_reading {α : Type} {input : Input} {act : Action Error Remapper α} {a : α}
    {r r₁ : Remapper} (hact : act.exec ⟨input, r.output⟩ = (.ok a, r₁)) (hend : r₁.input.rest = []) :
    (reading input act).exec r = (.ok a, ⟨r.input, r₁.output⟩) := by
  have hfinish : finish.exec r₁ = (.ok (), r₁) := by
    unfold finish
    rw [Action.exec_inspect, hend]
    rfl
  unfold reading
  rw [Action.exec_onPart, Action.exec_bind_eq_ok.mpr
    ⟨a, r₁, hact, Action.exec_bind_eq_ok.mpr ⟨(), r₁, hfinish, rfl⟩⟩]

/-- An attribute of a known form is read to its end and added. -/
theorem Remap.exec_nestedAttribute {source : View} {name : String} {info : List UInt8}
    {read : Action Error Remapper Attribute} {a : Attribute} {r r₁ : Remapper}
    {w : AttributeWriter} (hknown : known? source name = some read)
    (hreading : (Remapper.reading (.start name info) read).exec r = (.ok a, r₁))
    (hadd : (AttributeWriter.add a).exec r₁.output = (.ok (), w)) :
    (nestedAttribute source name info).exec r = (.ok (), ⟨r₁.input, w⟩) := by
  rw [nestedAttribute_known hknown]
  refine Action.exec_bind_eq_ok.mpr ⟨a, _, hreading, ?_⟩
  unfold Remapper.onOutput
  rw [Action.exec_onPart, hadd]

end JvmClass
