import JvmClass.Proofs.Byte.BigEndian
import JvmClass.Proofs.Code.Run
import Mathlib.Data.List.Forall2
import Mathlib.Data.List.TakeWhile

/-!
# Assemblers realize layouts

`Realizes a parts` relates an assembler to the layout of what it has written: its code is the layout
rendered with the labels marked so far, and the jumps that wait for a label are exactly those of the
layout that lead to it, in order, each with a reservation that stands where its operand does.

## Key results

- `Realizes.write`, `Realizes.rewrite`: writing bytes, and replacing some by as many others
- `ends_markLabel`: marking a label, which fills in the jumps that wait for it
- `ends_jumpOperand`: writing the operand of a jump, whether its label is marked yet or not
-/

namespace JvmClass

/-- The displacement of a jump to `target` fits its operand. -/
def Jump.reaches (j : Jump) (target : Nat) : Bool := j.width.reaches (target - j.origin)

namespace Assembler

/-! ## The invariant -/

/-- A jump that waits has its reservation at the site of an operand, and agrees with it. -/
structure Awaits (code : Buffer) (p : PendingJump) (site : Nat × Jump) : Prop where
  stands : code.Stands p.operand site.1
  size_eq : p.operand.size = site.2.width.bytes
  origin_eq : p.origin = site.2.origin
  width_eq : p.width = site.2.width
  op_eq : p.op = site.2.op

/-- A jump leads to a label that is defined and, once that is marked, within reach. -/
structure Leads (a : Assembler) (j : Jump) : Prop where
  isDefined : a.isDefined j.target
  origin_le : j.origin ≤ maxCodeSize
  reaches : ∀ t, a.labelOffset? j.target = some t → j.reaches t

/-- The assembler has written the parts, as far as labels are marked. -/
structure Realizes (a : Assembler) (parts : List Part) : Prop where
  code_eq : a.code.toList = render a.labelOffset? parts
  size_le : sizeOf parts ≤ maxCodeSize
  offset_le : ∀ l t, a.labelOffset? l = some t → t ≤ maxCodeSize
  awaits : ∀ l, a.labelOffset? l = none →
    List.Forall₂ (Awaits a.code) (a.pending l) (sites l 0 parts)
  settled : ∀ l t, a.labelOffset? l = some t → a.pending l = []
  leads : ∀ j, .jump j ∈ parts → a.Leads j

theorem realizes_empty : empty.Realizes [] where
  code_eq := rfl
  size_le := Nat.zero_le _
  offset_le l t h := by simp [labelOffset?, empty] at h
  awaits l _ := by simp [pending, empty, sites]
  settled l t h := by simp [labelOffset?, empty] at h
  leads j h := by cases h

namespace Realizes

variable {a : Assembler} {parts : List Part}

theorem offset_eq (h : a.Realizes parts) : a.offset = sizeOf parts := by
  rw [offset, ← Buffer.length_toList, h.code_eq, length_render]

/-- Blocks and regions do not matter. -/
theorem congr (h : a.Realizes parts) {b : Assembler} (hcode : b.code = a.code)
    (hlabels : b.labels = a.labels) : b.Realizes parts := by
  obtain ⟨code, labels, blocks, regions⟩ := a
  obtain ⟨code', labels', blocks', regions'⟩ := b
  cases hcode
  cases hlabels
  exact ⟨h.code_eq, h.size_le, h.offset_le, h.awaits, h.settled,
    fun j hj => ⟨(h.leads j hj).isDefined, (h.leads j hj).origin_le, (h.leads j hj).reaches⟩⟩

end Realizes

/-! ## Writing bytes -/

theorem Awaits.mono {code code' : Buffer} (h : ∀ r pos, code.Stands r pos → code'.Stands r pos)
    {p : PendingJump} {site : Nat × Jump} (ha : Awaits code p site) : Awaits code' p site :=
  { ha with stands := h _ _ ha.stands }

theorem forall₂_awaits_mono {code code' : Buffer}
    (h : ∀ r pos, code.Stands r pos → code'.Stands r pos) {js : List PendingJump}
    {ss : List (Nat × Jump)} (ha : List.Forall₂ (Awaits code) js ss) :
    List.Forall₂ (Awaits code') js ss :=
  ha.imp fun _ _ => Awaits.mono h

theorem Realizes.write {a : Assembler} {parts : List Part} (h : a.Realizes parts)
    (bytes : List UInt8) (hroom : sizeOf parts + bytes.length ≤ maxCodeSize) :
    (a.write bytes).Realizes (parts ++ [.bytes bytes]) where
  code_eq := by
    have hcode : (a.write bytes).code.toList = a.code.toList ++ bytes := Buffer.toList_append _ _
    rw [hcode, h.code_eq, render_append]
    simp [Part.render]
    rfl
  size_le := by simpa [Part.size] using hroom
  offset_le := h.offset_le
  awaits l hl := by
    rw [sites_append]
    simp only [sites, List.append_nil]
    exact forall₂_awaits_mono (fun _ _ hs => hs.append bytes) (h.awaits l hl)
  settled := h.settled
  leads j hj := by
    have hj : .jump j ∈ parts := by simpa using hj
    obtain ⟨hdef, horigin, hreach⟩ := h.leads j hj
    exact ⟨hdef, horigin, hreach⟩

/-- Replacing bytes by as many others. -/
theorem Realizes.rewrite {a : Assembler} {before after : List Part} {old bytes : List UInt8}
    (h : a.Realizes (before ++ .bytes old :: after)) {field : Buffer.Reservation}
    (hfield : a.code.Stands field (sizeOf before)) (hold : bytes.length = old.length)
    (hsize : bytes.length ≤ field.size) :
    ({ a with code := a.code.overwrite field 0 bytes } : Assembler).Realizes
      (before ++ .bytes bytes :: after) where
  code_eq := by
    have hoverwrite : (a.code.overwrite field 0 bytes).toList
        = splice a.code.toList (sizeOf before) bytes :=
      Buffer.toList_overwrite hfield (by omega)
    show (a.code.overwrite field 0 bytes).toList = render a.labelOffset? _
    -- The parts before the field have the same size whichever labels are marked.
    rw [hoverwrite, h.code_eq, render_append, render_append, ← length_render a.labelOffset?]
    exact splice_middle hold
  size_le := by
    have := h.size_le
    simp only [sizeOf_append, sizeOf_cons, Part.size] at this ⊢
    omega
  offset_le := h.offset_le
  awaits l hl := by
    have hsites : sites l 0 (before ++ .bytes bytes :: after)
        = sites l 0 (before ++ .bytes old :: after) := by
      simp only [sites_append, sites, hold]
    rw [hsites]
    exact forall₂_awaits_mono (fun _ _ hs => hs.overwrite _ _ _) (h.awaits l hl)
  settled := h.settled
  leads j hj := by
    have hj : .jump j ∈ before ++ .bytes old :: after := by simpa using hj
    obtain ⟨hdef, horigin, hreach⟩ := h.leads j hj
    exact ⟨hdef, horigin, hreach⟩

/-! ## Labels -/

theorem isDefined_iff {a : Assembler} {l : Label} : a.isDefined l ↔ l.id < a.labels.size := by
  simp [isDefined]

theorem Label.eq_of_id {k l : Label} (h : k.id = l.id) : k = l := by
  cases k
  cases l
  cases h
  rfl

theorem labelOffset?_placed {a : Assembler} {l : Label} (hdef : a.isDefined l) (target : Nat) :
    (a.placed l target).labelOffset? = markAt a.labelOffset? l target := by
  funext k
  unfold labelOffset? placed markAt
  simp only [Array.getElem?_setIfInBounds]
  by_cases hk : k = l
  · subst hk
    rw [if_pos rfl, if_pos rfl, if_pos (isDefined_iff.mp hdef)]
    rfl
  · have hid : l.id ≠ k.id := fun hid => hk (Label.eq_of_id hid.symm)
    rw [if_neg hid, if_neg hk]

theorem pending_placed (a : Assembler) (l k : Label) (target : Nat) :
    (a.placed l target).pending k = if k = l then [] else a.pending k := by
  unfold pending placed
  simp only [Array.getElem?_setIfInBounds]
  by_cases hk : k = l
  · subst hk
    rw [if_pos rfl, if_pos rfl]
    split
    · rename_i h
      split at h <;> cases h
      rfl
    · rfl
  · have hid : l.id ≠ k.id := fun hid => hk (Label.eq_of_id hid.symm)
    rw [if_neg hid, if_neg hk]

theorem labelOffset?_awaiting (a : Assembler) (l : Label) (j : PendingJump) :
    (a.awaiting l j).labelOffset? = a.labelOffset? := by
  funext k
  unfold labelOffset? awaiting
  simp only [Array.getElem?_modify]
  split
  · cases a.labels[k.id]? <;> rfl
  · rfl

theorem pending_awaiting {a : Assembler} {l : Label} (hdef : a.isDefined l) (j : PendingJump)
    (k : Label) :
    (a.awaiting l j).pending k = if k = l then a.pending k ++ [j] else a.pending k := by
  unfold pending awaiting
  simp only [Array.getElem?_modify]
  by_cases hk : k = l
  · subst hk
    rw [if_pos rfl, if_pos rfl, Array.getElem?_eq_getElem (isDefined_iff.mp hdef)]
    simp
  · have hid : l.id ≠ k.id := fun hid => hk (Label.eq_of_id hid.symm)
    rw [if_neg hid, if_neg hk]

/-- A new label changes nothing for the others. -/
theorem labelOffset?_of_extended (a : Assembler) : a.extended.labelOffset? = a.labelOffset? := by
  funext l
  unfold labelOffset? Assembler.extended
  simp only [Array.getElem?_push]
  split
  · rename_i hl
    rw [hl]
    simp
  · rfl

theorem pending_of_extended (a : Assembler) : a.extended.pending = a.pending := by
  funext l
  unfold pending Assembler.extended
  simp only [Array.getElem?_push]
  by_cases hl : l.id = a.labels.size
  · rw [if_pos hl, hl]
    simp
  · rw [if_neg hl]

theorem Realizes.extended {a : Assembler} {parts : List Part} (h : a.Realizes parts) :
    a.extended.Realizes parts := by
  have hoffset := a.labelOffset?_of_extended
  have hpending := a.pending_of_extended
  constructor
  · rw [hoffset]
    exact h.code_eq
  · exact h.size_le
  · rw [hoffset]
    exact h.offset_le
  · rw [hoffset, hpending]
    exact h.awaits
  · rw [hoffset, hpending]
    exact h.settled
  · intro j hj
    obtain ⟨hdef, horigin, hreach⟩ := h.leads j hj
    refine ⟨?_, horigin, ?_⟩
    · rw [isDefined_iff] at hdef ⊢
      simp only [Assembler.extended, Array.size_push]
      omega
    · rw [hoffset]
      exact hreach

/-! ## Filling in operands -/

/-- Everything but the code stays as it is when jumps are filled in. -/
theorem foldl_fillIn (target : Nat) (js : List PendingJump) (a : Assembler) :
    js.foldl (fillIn target) a
      = { a with
          code :=
            js.foldl (fun code j => code.overwrite j.operand 0 (j.encode target)) a.code } := by
  induction js generalizing a with
  | nil => rfl
  | cons j js ih => rw [List.foldl_cons, ih]; rfl

theorem stands_fillIn (target : Nat) (js : List PendingJump) {code : Buffer}
    {r : Buffer.Reservation} {pos : Nat} (h : code.Stands r pos) :
    (js.foldl (fun code j => code.overwrite j.operand 0 (j.encode target)) code).Stands r pos := by
  induction js generalizing code with
  | nil => exact h
  | cons j js ih => exact ih (h.overwrite _ _ _)

theorem Awaits.encode_eq {code : Buffer} {p : PendingJump} {site : Nat × Jump}
    (h : Awaits code p site) (target : Nat) : p.encode target = site.2.encode target := by
  rw [PendingJump.encode, Jump.encode, h.width_eq, h.origin_eq]

theorem Awaits.reaches_eq {code : Buffer} {p : PendingJump} {site : Nat × Jump}
    (h : Awaits code p site) (target : Nat) : p.reaches target = site.2.reaches target := by
  rw [PendingJump.reaches, Jump.reaches, h.width_eq, h.origin_eq]

/-- At every site of a label that is not marked a jump waits. -/
theorem exists_awaits {code : Buffer} {js : List PendingJump} {ss : List (Nat × Jump)}
    (h : List.Forall₂ (Awaits code) js ss) {site : Nat × Jump} (hsite : site ∈ ss) :
    ∃ p ∈ js, Awaits code p site := by
  induction h with
  | nil => cases hsite
  | cons hp _ ih =>
    rcases List.mem_cons.mp hsite with rfl | hsite
    · exact ⟨_, List.mem_cons_self, hp⟩
    · obtain ⟨p, hmem, hp⟩ := ih hsite
      exact ⟨p, List.mem_cons_of_mem _ hmem, hp⟩

/-- The jumps that wait are filled in at the sites of their operands. -/
theorem toList_fillIn (target : Nat) {js : List PendingJump} {ss : List (Nat × Jump)}
    {code : Buffer} (h : List.Forall₂ (Awaits code) js ss) :
    (js.foldl (fun code j => code.overwrite j.operand 0 (j.encode target)) code).toList
      = patchSites target code.toList ss := by
  induction js generalizing code ss with
  | nil =>
    cases h
    rfl
  | cons j js ih =>
    cases h with
    | cons hj hrest =>
      have hsize : 0 + (j.encode target).length ≤ j.operand.size := by
        rw [hj.encode_eq, Jump.length_encode, hj.size_eq]
        omega
      rw [List.foldl_cons, ih (forall₂_awaits_mono (fun _ _ hs => hs.overwrite _ _ _) hrest),
        Buffer.toList_overwrite hj.stands hsize, hj.encode_eq]
      rfl

/-! ## Marking labels and writing jumps -/

/-- What holds after an action that succeeds, and after one that is refused for something else than
the target of a jump. -/
def Ends {α : Type} (refused : Assembler → Prop) (done : α → Assembler → Prop) :
    Except Error α × Assembler → Prop
  | (.ok x, a) => done x a
  | (.error e, a) => e.refusesJump = false → refused a

/-- Marking a label at the current position. -/
theorem Realizes.placed {a : Assembler} {parts : List Part} (h : a.Realizes parts) {l : Label}
    (hdef : a.isDefined l) (hl : a.labelOffset? l = none)
    (hreach : ∀ j ∈ a.pending l, j.reaches a.offset) :
    ((a.pending l).foldl (fillIn a.offset) (a.placed l a.offset)).Realizes parts := by
  -- The code and the labels are changed independently of each other.
  rw [foldl_fillIn]
  have hoffset := labelOffset?_placed hdef a.offset
  have hmark : ∀ k t, markAt a.labelOffset? l a.offset k = some t →
      k = l ∧ t = a.offset ∨ k ≠ l ∧ a.labelOffset? k = some t := by
    intro k t hk
    unfold markAt at hk
    split at hk
    · rename_i heq
      exact .inl ⟨heq, (Option.some.inj hk).symm⟩
    · rename_i hne
      exact .inr ⟨hne, hk⟩
  constructor
  · -- The jumps that wait are filled in exactly where the layout has operands for the label.
    show _ = render (a.placed l a.offset).labelOffset? parts
    rw [hoffset, ← render_mark hl, ← h.code_eq]
    exact toList_fillIn a.offset (h.awaits l hl)
  · exact h.size_le
  · intro k t hk
    rcases hmark k t (hoffset ▸ hk) with ⟨-, rfl⟩ | ⟨-, hk⟩
    · rw [h.offset_eq]
      exact h.size_le
    · exact h.offset_le k t hk
  · intro k hk
    have hk : markAt a.labelOffset? l a.offset k = none := hoffset ▸ hk
    unfold markAt at hk
    split at hk
    · cases hk
    · rename_i hne
      -- The jumps that wait for other labels keep their reservations.
      have hpending : (a.placed l a.offset).pending k = a.pending k := by
        rw [pending_placed, if_neg hne]
      show List.Forall₂ _ ((a.placed l a.offset).pending k) _
      rw [hpending]
      exact forall₂_awaits_mono (fun _ _ hs => stands_fillIn _ _ hs) (h.awaits k hk)
  · intro k t hk
    show (a.placed l a.offset).pending k = []
    rw [pending_placed]
    rcases hmark k t (hoffset ▸ hk) with ⟨rfl, -⟩ | ⟨hne, hk⟩
    · rw [if_pos rfl]
    · rw [if_neg hne]
      exact h.settled k t hk
  · intro j hj
    obtain ⟨hjdef, horigin, hjreach⟩ := h.leads j hj
    refine ⟨?_, horigin, ?_⟩
    · rw [isDefined_iff] at hjdef ⊢
      simpa [Assembler.placed] using hjdef
    · intro t ht
      rcases hmark _ t (hoffset ▸ ht) with ⟨rfl, rfl⟩ | ⟨-, ht⟩
      · -- The jump is among those that wait, and all of them reach.
        obtain ⟨i, hi⟩ := exists_mem_sites hj 0
        obtain ⟨p, hp, hawaits⟩ := exists_awaits (h.awaits _ hl) hi
        rw [← hawaits.reaches_eq]
        exact hreach p hp
      · exact hjreach t ht

/-- Filling in jumps either succeeds for all of them or is refused for one. -/
theorem ends_resolve {a : Assembler} {refused done : Assembler → Prop} {target : Nat}
    {js : List PendingJump}
    (h : (∀ j ∈ js, j.reaches target) → done (js.foldl (fillIn target) a)) :
    Ends refused (fun _ => done) ((resolve target js).exec a) := by
  rw [exec_resolve]
  -- Either some jump does not reach, and the error says so, or all are filled in.
  cases hfind : js.find? fun j => !j.reaches target with
  | some j => exact fun hjump => by cases hjump
  | none =>
    have hreach : ∀ j ∈ js, j.reaches target := by simpa using hfind
    have htake : js.takeWhile (fun j => j.reaches target) = js :=
      List.takeWhile_eq_self_iff.mpr hreach
    simp only [Ends, htake]
    exact h hreach

theorem ends_markLabel {a : Assembler} {parts : List Part} (h : a.Realizes parts) (l : Label) :
    Ends (Realizes · parts) (fun _ => (Realizes · parts)) ((markLabel l).exec a) := by
  rw [exec_markLabel]
  by_cases hdef : a.isDefined l
  · rw [if_pos hdef]
    cases hl : a.labelOffset? l with
    | some t => exact fun _ => h
    | none => exact ends_resolve fun hreach => h.placed hdef hl hreach
  · rw [if_neg hdef]
    exact fun hjump => by cases hjump

/-- One more operand at the end. -/
theorem Realizes.append_jump {a b : Assembler} {parts : List Part} (h : a.Realizes parts)
    {j : Jump} (hroom : sizeOf parts + j.width.bytes ≤ maxCodeSize)
    (hoffset : b.labelOffset? = a.labelOffset?) (hdef : b.isDefined = a.isDefined)
    (hcode : b.code.toList = a.code.toList ++ Part.render a.labelOffset? (.jump j))
    (hawaits : ∀ l, a.labelOffset? l = none →
      List.Forall₂ (Awaits b.code) (b.pending l) (sites l 0 (parts ++ [.jump j])))
    (hsettled : ∀ l t, a.labelOffset? l = some t → b.pending l = [])
    (hleads : a.Leads j) : b.Realizes (parts ++ [.jump j]) where
  code_eq := by
    rw [hcode, hoffset, h.code_eq, render_append]
    simp
  size_le := by simpa [Part.size] using hroom
  offset_le := by rw [hoffset]; exact h.offset_le
  awaits := by rw [hoffset]; exact hawaits
  settled := by rw [hoffset]; exact hsettled
  leads k hk := by
    have hk : a.Leads k := by
      rcases List.mem_append.mp hk with hk | hk
      · exact h.leads k hk
      · cases List.mem_singleton.mp hk
        exact hleads
    exact ⟨hdef ▸ hk.isDefined, hk.origin_le, hoffset ▸ hk.reaches⟩

/-- Writing the operand of a jump, whether its label is marked yet or not. -/
theorem ends_jumpOperand {a : Assembler} {parts : List Part} (h : a.Realizes parts)
    (refused : Assembler → Prop) (op : Opcode) {origin : Nat} (width : JumpWidth) (target : Label)
    (horigin : origin ≤ maxCodeSize) (hroom : sizeOf parts + width.bytes ≤ maxCodeSize) :
    Ends refused (fun _ => (Realizes · (parts ++ [.jump ⟨op, origin, width, target⟩])))
      ((jumpOperand op origin width target).exec a) := by
  rw [exec_jumpOperand]
  by_cases hdef : a.isDefined target
  · rw [if_pos hdef]
    have hsize : a.code.size = sizeOf parts := h.offset_eq
    have hstands : (a.reserved width.bytes).code.Stands (a.code.reserve width.bytes).1
        (sizeOf parts) := hsize ▸ Buffer.stands_reserve a.code width.bytes
    -- The operand gets its room first, whether the target is known or not.
    have hold : ∀ r pos, a.code.Stands r pos → (a.reserved width.bytes).code.Stands r pos :=
      fun _ _ hs => hs.reserve _
    have hcode : (a.reserved width.bytes).code.toList
        = a.code.toList ++ List.replicate width.bytes 0 := Buffer.toList_reserve _ _
    cases hl : a.labelOffset? target with
    | some position =>
      refine ends_resolve fun hreach => ?_
      have hreach := hreach _ List.mem_cons_self
      refine h.append_jump hroom rfl rfl ?_ (fun l hl' => ?_) h.settled ⟨hdef, horigin, ?_⟩
      · -- The room that was set aside at the end is filled in at once.
        have hfit : 0 + (BigEndian.encodeInt width.bytes (position - origin)).length
            ≤ (a.code.reserve width.bytes).1.size := by
          rw [BigEndian.length_encodeInt]
          exact Nat.le_of_eq (Nat.zero_add _)
        have hlen : a.code.toList.length = sizeOf parts := by rw [Buffer.length_toList, hsize]
        have hover := Buffer.toList_overwrite hstands hfit
        rw [hcode, Nat.add_zero, ← hlen] at hover
        have hmid : splice (a.code.toList ++ (List.replicate width.bytes 0 ++ []))
            a.code.toList.length (BigEndian.encodeInt width.bytes (position - origin))
            = a.code.toList ++ (BigEndian.encodeInt width.bytes (position - origin) ++ []) :=
          splice_middle (by simp)
        rw [List.append_nil, List.append_nil] at hmid
        simp only [Part.render, hl]
        exact hover.trans hmid
      · -- No other label gets a site by an operand whose target is marked.
        have hne : target ≠ l := by
          rintro rfl
          rw [hl] at hl'
          cases hl'
        have hsites :
            sites l 0 (parts ++ [.jump ⟨op, origin, width, target⟩]) = sites l 0 parts := by
          rw [sites_append]
          simp [sites, hne]
        rw [hsites]
        exact forall₂_awaits_mono (fun _ _ hs => (hold _ _ hs).overwrite _ _ _) (h.awaits l hl')
      · intro t ht
        rw [hl] at ht
        cases ht
        exact hreach
    | none =>
      have hpending := pending_awaiting (a := a.reserved width.bytes) hdef
        ⟨(a.code.reserve width.bytes).1, origin, width, op⟩
      refine h.append_jump hroom (labelOffset?_awaiting _ _ _) ?_ ?_ (fun l hl' => ?_)
        (fun l t hl' => ?_) ⟨hdef, horigin, ?_⟩
      · funext l
        simp [isDefined, awaiting, reserved]
      · simp only [Part.render, hl]
        exact hcode
      · -- The new jump waits last, as its operand is the last site of its target.
        rw [hpending, sites_append]
        by_cases heq : l = target
        · subst heq
          rw [if_pos rfl]
          simp only [sites, if_true, Nat.zero_add]
          apply List.rel_append (forall₂_awaits_mono hold (h.awaits l hl'))
          exact .cons ⟨hstands, rfl, rfl, rfl, rfl⟩ .nil
        · have hne : target ≠ l := fun h => heq h.symm
          rw [if_neg heq]
          simp only [sites, hne, if_false, List.append_nil]
          exact forall₂_awaits_mono hold (h.awaits l hl')
      · have hne : l ≠ target := by
          rintro rfl
          rw [hl] at hl'
          cases hl'
        rw [hpending, if_neg hne]
        exact h.settled l t hl'
      · intro t ht
        rw [hl] at ht
        cases ht
  · rw [if_neg hdef]
    exact fun hjump => by cases hjump

end Assembler

end JvmClass
