import JvmClass.Proofs.Remap.Acceptance
import JvmClass.Proofs.Remap.Imports

/-!
# Stack maps that move describe the same frames

A frame can be put in more than one way: two of the forms have a long variant, which takes two bytes
for a distance even if it would fit into the first byte.  Reading forgets which variant it was, and
writing takes the short one wherever there is one.  So the bytes of a stack map that moves may get
fewer, while the frames stay the same but for the slots of their classes.

`Spells` lists the ways to put a frame, `Imported` says what a frame becomes in another pool, and
`Rewritten` what becomes of its bytes.

## Key results

- `StackMapFrame.finds_grammar`, `Spells.reads`: the grammar reads these ways and no others
- `StackMapFrame.follows_read`: what is read for another pool is the imported frame
- `Spells.exists_rewritten`: how an imported frame is written
- `stackMap_moves`: a stack map as a whole, and why writing it cannot fail
-/

namespace JvmClass

open Remapper
open Reader (Reads Finds finds_pure finds_byte finds_u2 finds_failure)

-- Powers are those of the core library, also where Mathlib brings its own.
attribute [local instance (high)] instPowNat

/-! ## Verification types -/

namespace VerificationType

/-- The grammar of types, which leaves their classes as slots. -/
def grammar : Reader VerificationType := do
  match ← Reader.byte with
  | 0 => return .top
  | 1 => return .integer
  | 2 => return .float
  | 3 => return .double
  | 4 => return .long
  | 5 => return .null
  | 6 => return .uninitializedThis
  | 7 => return .object (← Reader.ref)
  | 8 => return .uninitialized (← Reader.u2)
  | _ => failure

/-- The same type in another pool. -/
inductive Imported (source : View) (q : Pool) : VerificationType → VerificationType → Prop
  | object {c c' : Ref .class} (h : IsImport source q .class c.slot c'.slot) :
    Imported source q (.object c) (.object c')
  | other {type : VerificationType} (h : ∀ c, type ≠ .object c) : Imported source q type type

variable {source : View} {p q : Pool} {type type' : VerificationType}

theorem Imported.mono (hq : p.Grows q) (h : Imported source p type type') :
    Imported source q type type' := by
  cases h with
  | object h => exact .object (h.mono hq)
  | other h => exact .other h

theorem Imported.verbatim (h : Imported source q type type') :
    Verbatim source q type.encode type'.encode := by
  cases h with
  | object h => exact (verbatim_slot h).after [7]
  | other h => exact verbatim_refl source q _

theorem finds_grammar : Finds grammar fun type front => front = type.encode := by
  refine finds_byte.bind fun tag front hfront => ?_
  subst hfront
  split
  case h_8 =>
    refine Reader.finds_ref.bind fun c front hfront => finds_pure ?_
    rw [hfront, List.append_nil]
    rfl
  case h_9 =>
    refine finds_u2.bind fun offset front hfront => finds_pure ?_
    rw [hfront, List.append_nil]
    rfl
  case h_10 => exact finds_failure
  all_goals exact finds_pure rfl

theorem reads_encode (type : VerificationType) : Reads grammar type.encode type := by
  cases type with
  | object c => exact (Reader.reads_byte 7).bind ((Reader.reads_ref c).map object)
  | uninitialized offset =>
    exact (Reader.reads_byte 8).bind ((Reader.reads_u2 offset).map uninitialized)
  | _ => exact (Reader.reads_byte _).bind_nil (Reads.pure _)

theorem follows_read (n : Nat) (source : View) :
    Follows n grammar (read source) (Imported source) := by
  refine follows_u1.bind (fun _ htag => htag) fun _ tag tag' htag => ?_
  subst htag
  split
  case h_8 =>
    refine (follows_ref .class source).bind IsImport.mono fun _ c c' _ => ?_
    exact follows_pure fun q hc _ => .object hc
  case h_9 =>
    refine follows_u2.bind (fun _ hoffset => hoffset) fun _ offset offset' hoffset => ?_
    subst hoffset
    exact follows_pure fun q _ _ => .other (by simp)
  case h_10 =>
    -- What the one does not know the other does not know either.
    first
    | exact follows_fail
    | split <;> first | contradiction | exact follows_fail
  all_goals exact follows_pure fun q _ => .other (by simp)

end VerificationType

/-! ## Frames -/

namespace StackMapFrame

/-- The grammar of frames, which leaves the classes in them as slots. -/
def grammar : Reader StackMapFrame := do
  let kind ← Reader.byte
  if kind < 64 then
    return .same kind.toUInt16
  else if kind < 128 then
    return .oneStack (kind - 64).toUInt16 (← VerificationType.grammar)
  else if kind < 247 then
    failure
  else if kind = 247 then
    let delta ← Reader.u2
    return .oneStack delta (← VerificationType.grammar)
  else if kind < 251 then
    return .chop (← Reader.u2) (251 - kind)
  else if kind = 251 then
    return .same (← Reader.u2)
  else if kind < 255 then
    let delta ← Reader.u2
    return .append delta (← Reader.times (kind - 251).toNat VerificationType.grammar)
  else
    let delta ← Reader.u2
    let locals ← Reader.counted VerificationType.grammar
    return .full delta locals (← Reader.counted VerificationType.grammar)

/-- The same frame in another pool. -/
inductive Imported (source : View) (q : Pool) : StackMapFrame → StackMapFrame → Prop
  | same (delta : UInt16) : Imported source q (.same delta) (.same delta)
  | oneStack (delta : UInt16) {entry entry' : VerificationType} (h : entry.Imported source q entry') :
    Imported source q (.oneStack delta entry) (.oneStack delta entry')
  | chop (delta : UInt16) (count : UInt8) : Imported source q (.chop delta count) (.chop delta count)
  | append (delta : UInt16) {locals locals' : List VerificationType}
    (h : List.Forall₂ (VerificationType.Imported source q) locals locals') :
    Imported source q (.append delta locals) (.append delta locals')
  | full (delta : UInt16) {locals locals' stack stack' : List VerificationType}
    (hlocals : List.Forall₂ (VerificationType.Imported source q) locals locals')
    (hstack : List.Forall₂ (VerificationType.Imported source q) stack stack') :
    Imported source q (.full delta locals stack) (.full delta locals' stack')

theorem Imported.mono {source : View} {p q : Pool} {frame frame' : StackMapFrame}
    (hq : p.Grows q) (h : Imported source p frame frame') : Imported source q frame frame' := by
  cases h with
  | same delta => exact .same delta
  | oneStack delta h => exact .oneStack delta (h.mono hq)
  | chop delta count => exact .chop delta count
  | append delta h => exact .append delta (h.imp fun _ _ hx => hx.mono hq)
  | full delta hlocals hstack =>
    exact .full delta (hlocals.imp fun _ _ hx => hx.mono hq) (hstack.imp fun _ _ hx => hx.mono hq)

/-- Frames are read for another pool as the grammar reads them, with their classes copied. -/
theorem follows_read (n : Nat) (source : View) :
    Follows n grammar (read source) (Imported source) := by
  have htype := VerificationType.follows_read n source
  have hmono {p q : Pool} {types types' : List VerificationType} (hq : p.Grows q)
      (h : List.Forall₂ (VerificationType.Imported source p) types types') :
      List.Forall₂ (VerificationType.Imported source q) types types' :=
    h.imp fun _ _ hx => hx.mono hq
  refine follows_u1.bind (fun _ hkind => hkind) fun _ kind kind' hkind => ?_
  subst hkind
  refine .imp ?_ fun q frame frame' h _ => h
  refine .ite (fun _ => follows_pure fun q => .same _) fun _ => ?_
  refine .ite (fun _ => ?oneStack) fun _ => ?_
  case oneStack =>
    refine htype.bind VerificationType.Imported.mono fun _ _ _ _ => ?_
    exact follows_pure fun q hentry => .oneStack _ hentry
  refine .ite (fun _ => follows_fail) fun _ => ?_
  -- The other forms have a distance of two bytes.
  have hdelta {α β : Type} {g : UInt16 → Reader α} {act : UInt16 → Action Error Remapper β}
      {R : Pool → α → β → Prop} (h : ∀ delta, Follows n (g delta) (act delta) R) :
      Follows n (Reader.u2 >>= g) (u2 >>= act) R := by
    refine follows_u2.bind (fun _ hdelta => hdelta) fun _ delta delta' hdelta => ?_
    subst hdelta
    exact (h _).imp fun _ _ _ hR _ => hR
  refine .ite (fun _ => hdelta fun delta => ?_) fun _ => ?_
  · refine htype.bind VerificationType.Imported.mono fun _ _ _ _ => ?_
    exact follows_pure fun q hentry => .oneStack delta hentry
  refine .ite (fun _ => hdelta fun delta => follows_pure fun q => .chop delta _) fun _ => ?_
  refine .ite (fun _ => hdelta fun delta => follows_pure fun q => .same delta) fun _ => ?_
  refine .ite (fun _ => hdelta fun delta => ?_) fun _ => hdelta fun delta => ?_
  · refine (htype.times VerificationType.Imported.mono _).bind
      (fun hq h => ⟨h.1, hmono hq h.2⟩) fun _ _ _ _ => ?_
    exact follows_pure fun q hlocals => .append delta hlocals.2
  · have htypes := htype.counted VerificationType.Imported.mono
    refine htypes.bind hmono fun _ _ _ _ => htypes.bind hmono fun _ _ _ _ => ?_
    exact follows_pure fun q hstack hlocals => .full delta hlocals hstack

/-! ### Ways to put a frame -/

/-- Distances of one byte are written as they are read. -/
theorem written_same_kind {kind : UInt8} (h : kind < 64) : Written (same kind.toUInt16) [kind] := by
  have hlt : kind.toUInt16 < 64 := by
    rw [UInt16.lt_iff_toNat_lt, UInt8.toNat_toUInt16]
    exact h
  have hshort := Written.sameShort hlt
  rwa [UInt8.toUInt8_toUInt16] at hshort

theorem written_oneStack_kind {kind : UInt8} (hlow : ¬kind < 64) (hhigh : kind < 128)
    (entry : VerificationType) :
    Written (oneStack (kind - 64).toUInt16 entry) (kind :: entry.encode) := by
  have hle : (64 : UInt8) ≤ kind := UInt8.not_lt.mp hlow
  have hbound : kind.toNat < 128 := hhigh
  have hlt : (kind - 64).toUInt16 < 64 := by
    rw [UInt16.lt_iff_toNat_lt, UInt8.toNat_toUInt16, UInt8.toNat_sub_of_le _ _ hle]
    show kind.toNat - 64 < 64
    omega
  have hshort := Written.oneStackShort entry hlt
  rwa [UInt8.toUInt8_toUInt16, UInt8.sub_add_cancel] at hshort

/-- Three first bytes belong together: those of frames that lose locals, and those of frames that get
more of them. -/
theorem kind_of_three {first kind : UInt8} (hfirst : first.toNat < 252) (hlow : ¬kind < first)
    (hne : kind ≠ first) (hhigh : kind < first + 4) :
    kind = first + 1 ∨ kind = first + 2 ∨ kind = first + 3 := by
  have hle : first.toNat ≤ kind.toNat := UInt8.le_iff_toNat_le.mp (UInt8.not_lt.mp hlow)
  have hlt := UInt8.lt_iff_toNat_lt.mp hhigh
  simp only [ne_eq, ← UInt8.toNat_inj, UInt8.toNat_add, UInt8.reduceToNat] at hlt hne ⊢
  omega

theorem kind_of_full {kind : UInt8} (h : ¬kind < 255) : kind = 255 := by
  have hle : 255 ≤ kind.toNat := UInt8.le_iff_toNat_le.mp (UInt8.not_lt.mp h)
  have hlt := kind.toNat_lt
  simp only [← UInt8.toNat_inj, UInt8.reduceToNat]
  omega

theorem written_chop_kind {kind : UInt8} (hlow : ¬kind < 247) (hne : kind ≠ 247)
    (hhigh : kind < 251) (delta : UInt16) :
    Written (chop delta (251 - kind)) (kind :: BigEndian.u2 delta) := by
  obtain rfl | rfl | rfl := kind_of_three (by decide) hlow hne hhigh
  · exact .chop delta (.inr (.inr rfl))
  · exact .chop delta (.inr (.inl rfl))
  · exact .chop delta (.inl rfl)

theorem written_append_kind {kind : UInt8} (hlow : ¬kind < 251) (hne : kind ≠ 251)
    (hhigh : kind < 255) (delta : UInt16) {locals : List VerificationType}
    (hlen : locals.length = (kind - 251).toNat) : Written (append delta locals)
      (kind :: (BigEndian.u2 delta ++ locals.flatMap VerificationType.encode)) := by
  have happend := @Written.append delta locals
  rw [hlen] at happend
  obtain rfl | rfl | rfl := kind_of_three (by decide) hlow hne hhigh
  · exact happend (.inl rfl)
  · exact happend (.inr (.inl rfl))
  · exact happend (.inr (.inr rfl))

/-- The bytes are a way to put the frame: how it is written, or the long variant of a form that has
a short one. -/
inductive Spells : StackMapFrame → List UInt8 → Prop
  | written {frame : StackMapFrame} {body : List UInt8} (h : Written frame body) : Spells frame body
  | longSame {delta : UInt16} (h : delta < 64) : Spells (.same delta) (251 :: BigEndian.u2 delta)
  | longOneStack {delta : UInt16} (entry : VerificationType) (h : delta < 64) :
    Spells (.oneStack delta entry) (247 :: (BigEndian.u2 delta ++ entry.encode))

theorem spells_same (delta : UInt16) : Spells (.same delta) (251 :: BigEndian.u2 delta) := by
  by_cases h : delta < 64
  · exact .longSame h
  · exact .written (.same h)

theorem spells_oneStack (delta : UInt16) (entry : VerificationType) :
    Spells (.oneStack delta entry) (247 :: (BigEndian.u2 delta ++ entry.encode)) := by
  by_cases h : delta < 64
  · exact .longOneStack entry h
  · exact .written (.oneStack entry h)

/-- What the grammar reads was a way to put it. -/
theorem finds_grammar : Finds grammar Spells := by
  have htype := VerificationType.finds_grammar
  refine finds_byte.bind fun kind front hfront => ?_
  subst hfront
  -- The ranges of the first byte, from the lowest to the highest.
  split
  · rename_i hlt
    exact finds_pure (.written (written_same_kind hlt))
  rename_i hlow
  split
  · rename_i hhigh
    refine htype.bind fun entry front hentry => finds_pure (.written ?_)
    rw [hentry, List.append_nil]
    exact written_oneStack_kind hlow hhigh entry
  split
  · exact finds_failure
  rename_i hreserved
  split
  · rename_i hkind
    refine finds_u2.bind fun delta xs hxs => htype.bind fun entry ys hys => finds_pure ?_
    rw [hkind, hxs, hys, List.append_nil]
    exact spells_oneStack delta entry
  rename_i hne
  split
  · rename_i hhigh
    refine finds_u2.bind fun delta xs hxs => finds_pure (.written ?_)
    rw [hxs, List.append_nil]
    exact written_chop_kind hreserved hne hhigh delta
  rename_i hchop
  split
  · rename_i hkind
    refine finds_u2.bind fun delta xs hxs => finds_pure ?_
    rw [hkind, hxs, List.append_nil]
    exact spells_same delta
  rename_i hne'
  split
  · rename_i hhigh
    refine finds_u2.bind fun delta xs hxs => ?_
    refine (htype.times_encode _).bind fun locals ys hlocals => finds_pure (.written ?_)
    obtain ⟨hlen, rfl⟩ := hlocals
    rw [hxs, List.append_nil]
    exact written_append_kind hchop hne' hhigh delta hlen
  · rename_i hkind
    cases kind_of_full hkind
    refine finds_u2.bind fun delta xs hxs => htype.counted_encode.bind fun locals ys hlocals => ?_
    refine htype.counted_encode.bind fun stack zs hstack => finds_pure (.written ?_)
    obtain ⟨hlocals, rfl⟩ := hlocals
    obtain ⟨hstack, rfl⟩ := hstack
    have hfull := Written.full delta hlocals hstack
    rw [List.append_assoc] at hfull
    rw [hxs, List.append_nil]
    exact hfull

theorem reads_same (delta : UInt16) : Reads grammar (251 :: BigEndian.u2 delta) (same delta) :=
  (Reader.reads_byte 251).bind ((Reader.reads_u2 delta).map same)

theorem reads_oneStack (delta : UInt16) (entry : VerificationType) :
    Reads grammar (247 :: (BigEndian.u2 delta ++ entry.encode)) (oneStack delta entry) :=
  (Reader.reads_byte 247).bind ((Reader.reads_u2 delta).bind (entry.reads_encode.map _))

/-- The grammar reads what is written as what it was. -/
theorem Written.reads {frame : StackMapFrame} {body : List UInt8} (h : Written frame body) :
    Reads grammar body frame := by
  cases h with
  | @sameShort delta hlt =>
    obtain ⟨hkind, hself⟩ := same_of_lt hlt
    refine (Reader.reads_byte delta.toUInt8).bind_nil ?_
    rw [if_pos hkind, hself]
    exact Reads.pure _
  | @same delta => exact reads_same delta
  | @oneStackShort delta entry hlt =>
    obtain ⟨hlow, hhigh, hself⟩ := oneStack_of_lt hlt
    refine (Reader.reads_byte (delta.toUInt8 + 64)).bind ?_
    rw [if_neg hlow, if_pos hhigh, hself]
    exact entry.reads_encode.map _
  | @oneStack delta entry => exact reads_oneStack delta entry
  | chop delta hcount =>
    obtain rfl | rfl | rfl := hcount
    · exact (Reader.reads_byte 250).bind ((Reader.reads_u2 delta).map (StackMapFrame.chop · 1))
    · exact (Reader.reads_byte 249).bind ((Reader.reads_u2 delta).map (StackMapFrame.chop · 2))
    · exact (Reader.reads_byte 248).bind ((Reader.reads_u2 delta).map (StackMapFrame.chop · 3))
  | @append delta locals hlen =>
    have htypes : Reads (Reader.times locals.length VerificationType.grammar) _ locals :=
      Reads.times fun type _ => type.reads_encode
    obtain hlen | hlen | hlen := hlen <;> rw [hlen] at htypes ⊢
    · exact (Reader.reads_byte 252).bind ((Reader.reads_u2 delta).bind (htypes.map _))
    · exact (Reader.reads_byte 253).bind ((Reader.reads_u2 delta).bind (htypes.map _))
    · exact (Reader.reads_byte 254).bind ((Reader.reads_u2 delta).bind (htypes.map _))
  | full delta hlocals hstack =>
    have hlocals := Reads.counted hlocals fun type _ => type.reads_encode
    have hstack := Reads.counted hstack fun type _ => type.reads_encode
    rw [List.append_assoc]
    refine (Reader.reads_byte 255).bind ((Reader.reads_u2 delta).bind ?_)
    exact hlocals.bind (hstack.map _)

/-- The grammar reads each way to put a frame. -/
theorem Spells.reads {frame : StackMapFrame} {body : List UInt8} (h : Spells frame body) :
    Reads grammar body frame := by
  cases h with
  | written h => exact h.reads
  | longSame => exact reads_same _
  | longOneStack entry => exact reads_oneStack _ entry

/-! ### Writing frames again -/

/-- The bytes of a frame say in two bytes what would fit into the first one. -/
def Loose (body : List UInt8) : Prop :=
  ∃ (kind : UInt8) (delta : UInt16) (rest : List UInt8),
    (kind = 247 ∨ kind = 251) ∧ delta < 64 ∧ body = kind :: (BigEndian.u2 delta ++ rest)

/-- What becomes of the bytes of a frame.  Those that are not loose stay, but for slots of classes,
in whose place their imports stand; the others take the short form. -/
inductive Rewritten (source : View) (q : Pool) : List UInt8 → List UInt8 → Prop
  | kept {body body' : List UInt8} (hloose : ¬Loose body) (h : Verbatim source q body body') :
    Rewritten source q body body'
  | same {delta : UInt16} (h : delta < 64) :
    Rewritten source q (251 :: BigEndian.u2 delta) [delta.toUInt8]
  | oneStack {delta : UInt16} {entry entry' : VerificationType} (h : delta < 64)
    (hentry : entry.Imported source q entry') :
    Rewritten source q (247 :: (BigEndian.u2 delta ++ entry.encode))
      ((delta.toUInt8 + 64) :: entry'.encode)

variable {source : View} {q : Pool} {frame frame' : StackMapFrame} {body body' : List UInt8}

theorem Rewritten.length_le (h : Rewritten source q body body') : body'.length ≤ body.length := by
  cases h with
  | kept _ h => exact h.length_eq.le
  | same h => exact Nat.le_add_left 1 _
  | oneStack h hentry =>
    simp only [List.length_cons, List.length_append, hentry.verbatim.length_eq]
    omega

theorem Rewritten.mono {p : Pool} (hq : p.Grows q) (h : Rewritten source p body body') :
    Rewritten source q body body' := by
  cases h with
  | kept hloose h => exact .kept hloose (h.mono hq)
  | same h => exact .same h
  | oneStack h hentry => exact .oneStack h (hentry.mono hq)

theorem Rewritten.length_flatten_le {bodies bodies' : List (List UInt8)}
    (h : List.Forall₂ (Rewritten source q) bodies bodies') :
    bodies'.flatten.length ≤ bodies.flatten.length := by
  induction h with
  | nil => exact Nat.le_refl _
  | cons hfirst _ ih =>
    rw [List.flatten_cons, List.flatten_cons, List.length_append, List.length_append]
    exact Nat.add_le_add hfirst.length_le ih

/-- What is written is never loose. -/
theorem Written.not_loose (h : Written frame body) : ¬Loose body := by
  rintro ⟨kind, delta, rest, hkind, hlt, hbody⟩
  cases h with
  | sameShort =>
    have hlen := congrArg List.length (List.cons.inj hbody).2
    simp [BigEndian.u2] at hlen
    omega
  | @same delta' hlong =>
    -- The two bytes behind the first one are those of the distance, which would have to be short.
    have hdelta := (List.cons.inj hbody).2
    rw [← List.append_nil (BigEndian.u2 delta')] at hdelta
    rw [(BigEndian.u2_append_inj hdelta).1] at hlong
    exact hlong hlt
  | oneStackShort entry hshort =>
    -- The first byte is too low.
    obtain ⟨-, hhigh, -⟩ := oneStack_of_lt hshort
    rw [(List.cons.inj hbody).1] at hhigh
    obtain rfl | rfl := hkind <;> revert hhigh <;> decide
  | oneStack entry hlong =>
    rw [(BigEndian.u2_append_inj (List.cons.inj hbody).2).1] at hlong
    exact hlong hlt
  | chop delta' hcount =>
    rw [← (List.cons.inj hbody).1] at hkind
    obtain rfl | rfl | rfl := hcount <;> revert hkind <;> decide
  | append delta' hlen =>
    rw [← (List.cons.inj hbody).1] at hkind
    obtain hlen | hlen | hlen := hlen <;> rw [hlen] at hkind <;> revert hkind <;> decide
  | full =>
    rw [← (List.cons.inj hbody).1] at hkind
    revert hkind
    decide

/-- An imported frame is written in the same form. -/
theorem Written.exists_imported (h : Written frame body) (h' : Imported source q frame frame') :
    ∃ body', Written frame' body' ∧ Verbatim source q body body' := by
  have htypes {types types' : List VerificationType}
      (h : List.Forall₂ (VerificationType.Imported source q) types types') :
      Verbatim source q (types.flatMap VerificationType.encode)
        (types'.flatMap VerificationType.encode) := .flatMap (h.imp fun _ _ hx => hx.verbatim)
  have htable {types types' : List VerificationType}
      (h : List.Forall₂ (VerificationType.Imported source q) types types') :
      Verbatim source q (encodeCounted VerificationType.encode types)
        (encodeCounted VerificationType.encode types') := by
    unfold encodeCounted
    rw [← h.length_eq]
    exact (htypes h).after _
  cases h' with
  | same delta => exact ⟨body, h, verbatim_refl source q body⟩
  | chop delta count => exact ⟨body, h, verbatim_refl source q body⟩
  | oneStack delta hentry =>
    cases h with
    | oneStackShort _ hlt => exact ⟨_, .oneStackShort _ hlt, hentry.verbatim.after [_]⟩
    | oneStack _ hlong =>
      exact ⟨_, .oneStack _ hlong, hentry.verbatim.after (247 :: BigEndian.u2 delta)⟩
  | @append delta locals locals' hlocals =>
    cases h with
    | append _ hlen =>
      -- The number of locals is what the first byte says.
      have happend := @Written.append delta locals'
      rw [← hlocals.length_eq] at happend
      exact ⟨_, happend hlen, (htypes hlocals).after (_ :: BigEndian.u2 delta)⟩
  | full delta hlocals hstack =>
    cases h with
    | full _ hlen hlen' =>
      refine ⟨_, .full delta (hlocals.length_eq ▸ hlen) (hstack.length_eq ▸ hlen'), ?_⟩
      exact ((htable hlocals).after (255 :: BigEndian.u2 delta)).append (htable hstack)

/-- A frame is written for another pool in the shortest way. -/
theorem Spells.exists_rewritten (h : Spells frame body) (h' : Imported source q frame frame') :
    ∃ body', Written frame' body' ∧ Rewritten source q body body' := by
  cases h with
  | written h =>
    obtain ⟨body', hbody', hverbatim⟩ := h.exists_imported h'
    exact ⟨body', hbody', .kept h.not_loose hverbatim⟩
  | longSame h =>
    cases h'
    exact ⟨_, .sameShort h, .same h⟩
  | longOneStack entry h =>
    cases h' with
    | oneStack delta hentry => exact ⟨_, .oneStackShort _ h, .oneStack h hentry⟩

/-- So is each frame of a row. -/
theorem exists_rewritten_row {frames frames' : List StackMapFrame} {bodies : List (List UInt8)}
    (h : List.Forall₂ Spells frames bodies) (h' : List.Forall₂ (Imported source q) frames frames') :
    ∃ bodies' : List (List UInt8), List.Forall₂ Written frames' bodies' ∧
      List.Forall₂ (Rewritten source q) bodies bodies' := by
  -- Induction on the frames that were found; the imported ones go along.
  induction h generalizing frames' with
  | nil =>
    cases h'
    exact ⟨[], .nil, .nil⟩
  | cons hfirst _ ih =>
    obtain _ | ⟨hfirst', hrest'⟩ := h'
    obtain ⟨body', hbody', hrewritten⟩ := hfirst.exists_rewritten hfirst'
    obtain ⟨bodies', hbodies', hall⟩ := ih hrest'
    exact ⟨body' :: bodies', .cons hbody' hbodies', .cons hrewritten hall⟩

end StackMapFrame

/-! ## Stack maps -/

namespace StackMapFrame

/-- Some bytes are a table of these frames, each with its own bytes. -/
structure TableOf (info : List UInt8) (frames : List StackMapFrame) (bodies : List (List UInt8)) :
    Prop where
  whole_eq : Reader.whole (Reader.counted grammar) info = some frames
  info_eq : info = BigEndian.encode 2 bodies.length ++ bodies.flatten
  reads : List.Forall₂ (fun frame body => Reads grammar body frame) frames bodies

theorem tableOf_of_reads {frames : List StackMapFrame} {bodies : List (List UInt8)}
    (hlen : frames.length ≤ 65535)
    (h : List.Forall₂ (fun frame body => Reads grammar body frame) frames bodies) :
    TableOf (BigEndian.encode 2 bodies.length ++ bodies.flatten) frames bodies where
  whole_eq := by
    rw [← h.length_eq]
    exact (Reads.counted_of_forall₂ hlen h).whole
  info_eq := rfl
  reads := h

/-- The second table describes the same frames for another pool: as many, in the same order, with
nothing but their classes replaced.  The bytes of a frame stay as well, unless they were loose. -/
def SameFrames (source : View) (q : Pool) (info out : List UInt8) : Prop :=
  ∃ frames bodies frames' bodies', TableOf info frames bodies ∧ TableOf out frames' bodies' ∧
    List.Forall₂ (Imported source q) frames frames' ∧
      List.Forall₂ (Rewritten source q) bodies bodies'

variable {source : View} {p q : Pool}

theorem SameFrames.mono {info out : List UInt8} (hq : p.Grows q)
    (h : SameFrames source p info out) : SameFrames source q info out := by
  obtain ⟨frames, bodies, frames', bodies', hinfo, hout, himported, hrewritten⟩ := h
  exact ⟨frames, bodies, frames', bodies', hinfo, hout, himported.imp fun _ _ hx => hx.mono hq,
    hrewritten.imp fun _ _ hx => hx.mono hq⟩

/-- Frames that were read have an encoding for any other pool. -/
theorem exists_sameFrames {info : List UInt8} {frames frames' : List StackMapFrame}
    (hinfo : Reader.whole (Reader.counted grammar) info = some frames)
    (hframes : List.Forall₂ (Imported source q) frames frames') :
    ∃ out, (∀ version, (Attribute.stackMapTable frames').encode version = .ok out) ∧
      SameFrames source q info out ∧ out.length ≤ info.length := by
  -- Each frame was put in some way, and is written in the shortest one.
  obtain ⟨front, hfront, hlen, bodies, rfl, hspells⟩ :=
    finds_grammar.counted info frames [] (Reader.whole_eq_some.mp hinfo)
  rw [List.append_nil, hspells.length_eq] at hfront
  obtain ⟨bodies', hwritten, hrewritten⟩ := exists_rewritten_row hspells hframes
  have hbodies' : frames'.map encode = bodies'.map .ok := by
    rw [← List.forall₂_eq_eq_eq, List.forall₂_map_left_iff, List.forall₂_map_right_iff]
    exact hwritten.imp fun _ _ h => h.encode_eq
  have hreads := hwritten.imp fun _ _ h => h.reads
  have hlen' : frames'.length ≤ 65535 := hframes.length_eq ▸ hlen
  have hcount : bodies'.length ≤ 65535 := hreads.length_eq ▸ hlen'
  refine ⟨_, fun version => ?_, ⟨frames, bodies, frames', bodies', ?_,
    tableOf_of_reads hlen' hreads, hframes, hrewritten⟩, ?_⟩
  · show CountedTable.ofEntries "StackMapTable" .two (frames'.map encode) = _
    rw [hbodies']
    exact CountedTable.ofEntries_map_ok "StackMapTable" hcount
  · exact ⟨hinfo, hfront, hspells.imp fun _ _ hx => hx.reads⟩
  · rw [hfront, List.length_append, List.length_append, BigEndian.length_encode,
      BigEndian.length_encode]
    exact Nat.add_le_add_left (Rewritten.length_flatten_le hrewritten) 2

end StackMapFrame

/-! ## Adding what was read -/

namespace AttributeWriter

/-- A table that refuses some bytes is full or the bytes are too many for it. -/
theorem refusal?_eq_some {table : CountedTable} {info : Buffer} {e : Error}
    (h : refusal? table info = some e) :
    (∃ name limit, e = .tableOverflow name limit) ∧
      (table.isFull = true ∨ maxInfo < info.size) := by
  unfold refusal? at h
  split at h
  · rename_i hfull
    cases h
    exact ⟨⟨_, _, rfl⟩, .inl hfull⟩
  · split at h
    · rename_i hlong
      cases h
      exact ⟨⟨_, _, rfl⟩, .inr hlong⟩
    · cases h

/-- Nothing but its name or the table stops an attribute with an encoding from being added. -/
theorem error_of_add {a : Attribute} {out : List UInt8}
    (hout : ∀ version, a.encode version = .ok out) {w w' : AttributeWriter} {e : Error}
    (h : (add a).exec w = (.error e, w')) :
    e.isAboutConstant = true ∨ refusal? w.table (Buffer.empty.append out) = some e := by
  rcases Action.exec_bind_eq_error.mp h with hname | ⟨i, w₁, hname, h⟩
  · obtain ⟨hname, -⟩ := exec_onPool_eq.mp hname
    have hdelivers := Pool.delivers_utf8 a.name w.pool
    rw [hname] at hdelivers
    exact .inl hdelivers
  · obtain ⟨-, htable⟩ := exec_onPool_eq.mp hname
    rcases Action.exec_bind_eq_error.mp h with hinfo | ⟨info, w₂, hinfo, h⟩
    · rw [Action.exec_inspect, hout] at hinfo
      cases hinfo
    · rw [Action.exec_inspect, hout] at hinfo
      cases hinfo
      unfold addRaw addBuffer at h
      rw [Action.exec_ofFn, htable] at h
      split at h
      · rename_i e' hrefusal
        cases h
        exact .inr hrefusal
      · cases h

end AttributeWriter

namespace Remap

/-- The attributes of some code are being moved one by one to a new table, and there have been fewer
of them than a count can say. -/
def Moving (source : View) (w : AttributeWriter) : Prop :=
  ∃ (input : Input) (p : Pool) (k : Nat) (us : List Unit) (r : Remapper), p.Inv ∧ k < 65535 ∧
    (Action.times k (nextAttribute source)).exec ⟨input, .start p⟩ = (.ok us, r) ∧ r.output = w

/-- Each attribute that is moved is one more in the table. -/
theorem exists_built_of_times {source : View} {front : List UInt8} {k : Nat} {us : List Unit}
    {r r' : Remapper} {xs : List AttributeContent} (hinv : r.output.pool.Inv)
    (hxs : r.output.Built front xs)
    (h : (Action.times k (nextAttribute source)).exec r = (.ok us, r')) :
    ∃ ys, ys.length = xs.length + k ∧ r'.output.Built front ys := by
  -- Induction on the attributes still to be moved: the first one is in the table of the others.
  induction k generalizing r us xs with
  | zero =>
    cases h
    exact ⟨xs, rfl, hxs⟩
  | succ k ih =>
    obtain ⟨_, r₁, us', hfirst, hrest, -⟩ := Action.exec_times_succ_eq_ok.mp h
    obtain ⟨x, hx⟩ := moved_nextAttribute hinv hfirst
    obtain ⟨ys, hlen, hys⟩ := ih (hx.adds.grows.inv hinv) (hx.adds.built front xs hxs) hrest
    refine ⟨ys, ?_, hys⟩
    rw [hlen, List.length_append, List.length_singleton]
    omega

/-- The table that they are moved to has room for another one. -/
theorem isFull_of_moving {source : View} {w : AttributeWriter} (h : Moving source w) :
    w.table.isFull = false := by
  obtain ⟨input, p, k, us, r, hinv, hk, hrun, rfl⟩ := h
  have hstart : (AttributeWriter.start p).Built [] [] := CountedTable.carries_start _ .empty _ _ _
  obtain ⟨ys, hlen, hys⟩ := exists_built_of_times hinv hstart hrun
  have hcount : r.output.table.count = k := by
    rw [hys.count_eq, hlen]
    exact Nat.zero_add k
  unfold CountedTable.isFull
  rw [hys.width_eq, hcount]
  exact decide_eq_false (Nat.not_le.mpr hk)

/-- The frames of a stack map are read one by one. -/
theorem follows_stackMap (n : Nat) (source : View) :
    Follows n (Reader.counted StackMapFrame.grammar)
      (Attribute.stackMapTable <$> counted (StackMapFrame.read source)) fun q frames a =>
        ∃ frames', a = .stackMapTable frames' ∧
          List.Forall₂ (StackMapFrame.Imported source q) frames frames' :=
  ((StackMapFrame.follows_read n source).counted StackMapFrame.Imported.mono).mapResult _
    fun _ _ frames' h => ⟨frames', rfl, h⟩

section Reading

variable {source : View} {info : List UInt8} {r r₁ r' : Remapper} {a : Attribute} {e : Error}

/-- A stack map that was linked in describes the frames that it was read from. -/
theorem sameFrames_of_nestedAttribute (hinv : r.output.pool.Inv)
    (h : (nestedAttribute source "StackMapTable" info).exec r = (.ok (), r')) :
    ∃ out, StackMapFrame.SameFrames source r'.output.pool info out ∧ out.length ≤ info.length ∧
      r.output.Links (.named "StackMapTable" out) r'.output ∧ r'.input = r.input := by
  obtain ⟨frames, a, p, out, hframes, ⟨frames', rfl, himported⟩, hgrows, hout, hlinks, hinput⟩ :=
    links_of_follows rfl (follows_stackMap info.length source) hinv h
  obtain ⟨out', hout', hsame, hle⟩ := StackMapFrame.exists_sameFrames hframes himported
  cases hout.symm.trans (hout' _)
  exact ⟨out, hsame.mono hgrows, hle, hlinks, hinput⟩

/-- A stack map that was read has an encoding in any version. -/
theorem exists_encode_of_reading (hinv : r.output.pool.Inv)
    (h : (reading (.start "StackMapTable" info)
      (Attribute.stackMapTable <$> counted (StackMapFrame.read source))).exec r = (.ok a, r₁)) :
    r.output.Leaves r₁.output ∧ ∃ out, (∀ version, a.encode version = .ok out) ∧
      StackMapFrame.SameFrames source r₁.output.pool info out ∧ out.length ≤ info.length := by
  obtain ⟨r₂, hrun, hend, houtput, -⟩ := reading_ok h
  obtain ⟨hleaves, -, frames, hframes, frames', rfl, himported⟩ :=
    follows_stackMap info.length source ⟨.start "StackMapTable" info, r.output⟩ a r₂ hinv rfl hrun
  rw [hend] at hframes
  have hwhole : Reader.whole (Reader.counted StackMapFrame.grammar) info = some frames :=
    Reader.whole_eq_some.mpr hframes
  rw [houtput]
  exact ⟨hleaves, StackMapFrame.exists_sameFrames hwhole himported⟩

/-- With the frames read, the error is one of adding the attribute. -/
theorem error_of_reading {out : List UInt8} (hout : ∀ version, a.encode version = .ok out)
    (hleaves : r.output.Leaves r₁.output)
    (hreading : (reading (.start "StackMapTable" info)
      (Attribute.stackMapTable <$> counted (StackMapFrame.read source))).exec r = (.ok a, r₁))
    (h : (nestedAttribute source "StackMapTable" info).exec r = (.error e, r')) :
    e.isAboutConstant = true ∨
      AttributeWriter.refusal? r.output.table (Buffer.empty.append out) = some e := by
  rw [nestedAttribute_known rfl, Action.exec_bind, hreading] at h
  have hadd : (AttributeWriter.add a).exec r₁.output = (.error e, r'.output) := by
    obtain ⟨he, rfl⟩ := Prod.mk.inj h
    exact Prod.ext he rfl
  rw [← hleaves.table_eq]
  exact AttributeWriter.error_of_add hout hadd

end Reading

/-- A stack map that is moved to a reachable pool describes the same frames there and does not get
longer.  Once its frames have been read, they have an encoding, and nothing but a constant is in the
way of adding it: no frame is refused, and no count is too high, since the code that the attribute
comes from has no more attributes than a table has room for. -/
theorem stackMap_moves (version : Version) (calls : List Pool.Call) (source : View)
    (info : List UInt8) (r : Remapper)
    (hpool : r.output.pool = (Pool.empty version).afterCalls calls) :
    (∀ r', (nestedAttribute source "StackMapTable" info).exec r = (.ok (), r') →
      ∃ out, StackMapFrame.SameFrames source r'.output.pool info out ∧
        out.length ≤ info.length ∧ r.output.Links (.named "StackMapTable" out) r'.output ∧
        r'.input = r.input) ∧
    (∀ a r₁, (reading (.start "StackMapTable" info)
        (Attribute.stackMapTable <$> counted (StackMapFrame.read source))).exec r = (.ok a, r₁) →
      (∃ out, (∀ version, a.encode version = .ok out) ∧
        StackMapFrame.SameFrames source r₁.output.pool info out ∧ out.length ≤ info.length) ∧
      ∀ e r', (nestedAttribute source "StackMapTable" info).exec r = (.error e, r') →
        (∀ change count, e ≠ .invalidFrame change count) ∧
          (Moving source r.output → info.length ≤ AttributeWriter.maxInfo →
            ∀ table limit, e ≠ .tableOverflow table limit)) := by
  have hinv : r.output.pool.Inv := by
    rw [hpool]
    exact Pool.inv_afterCalls version calls
  refine ⟨fun r' h => sameFrames_of_nestedAttribute hinv h, fun a r₁ hreading => ?_⟩
  obtain ⟨hleaves, out, hout, hsame, hle⟩ := exists_encode_of_reading hinv hreading
  refine ⟨⟨out, hout, hsame, hle⟩, fun e r' h => ?_⟩
  rcases error_of_reading hout hleaves hreading h with hconstant | hrefusal
  · refine ⟨?_, fun _ _ => ?_⟩
    all_goals
      rintro _ _ rfl
      cases hconstant
  · -- Only the table can refuse it, which has room for it as long as the code is being moved.
    obtain ⟨⟨table, limit, rfl⟩, hwhy⟩ := AttributeWriter.refusal?_eq_some hrefusal
    refine ⟨fun _ _ => Error.noConfusion, fun hmoving hfits => ?_⟩
    have hsize : (Buffer.empty.append out).size = out.length := by
      rw [← Buffer.length_toList, Buffer.toList_append, Buffer.toList_empty, List.nil_append]
    rcases hwhy with hfull | hlong
    · rw [isFull_of_moving hmoving] at hfull
      cases hfull
    · omega

/-- A pool with a class at slot 5. -/
def classView : View := fun i => if i = 5 then .ok (.named .class "A") else .error (.badSlot i 6)

/-- A frame with an entry and one without, which both say a short distance in two bytes. -/
def looseInfo : List UInt8 := [0, 2, 247, 0, 5, 7, 0, 5, 251, 0, 3]

/-- The frames for a pool with the class at slot 2. -/
def shortFrames : List StackMapFrame := [.oneStack 5 (.object ⟨2⟩), .same 3]

theorem exec_copyAs_class : (Pool.copyAs .class classView 5).exec (.empty .java8)
    = (.ok ⟨2⟩, ((Pool.empty .java8).append (.utf8 "A")).append (.named .class ⟨1⟩)) := by
  have hinv := Pool.inv_empty .java8
  have hnothing := fun r i => Pool.not_holds_empty .java8 i r
  have hname := hinv.exec_utf8_new (hnothing (.utf8 "A")) (by decide) (by decide)
  have hnew := Pool.not_holds_append (hnothing (.named .class ⟨1⟩))
    (by simp : Record.utf8 "A" ≠ .named .class ⟨1⟩)
  have hclass := (hinv.append (by decide)).exec_insert_new hnew (by decide) (by decide)
  have hnamed : (Pool.internNamed .shared .class "A").exec (.empty .java8) = (.ok ⟨2⟩, _) :=
    Action.exec_bind_eq_ok.mpr ⟨(), _, Pool.exec_require_eq_ok.mpr ⟨nofun, rfl⟩,
      Action.exec_bind_eq_ok.mpr ⟨⟨1⟩, _, hname, Action.exec_bind_eq_ok.mpr ⟨2, _, hclass, rfl⟩⟩⟩
  exact Action.exec_bind_eq_ok.mpr ⟨2, _, Action.exec_map_eq_ok.mpr ⟨⟨2⟩, hnamed, rfl⟩, rfl⟩

private theorem exec_read_frames {p q : Pool} (table : CountedTable)
    (h : (Pool.copyAs .class classView 5).exec p = (.ok ⟨2⟩, q)) :
    (counted (StackMapFrame.read classView)).exec ⟨.start "StackMapTable" looseInfo, ⟨p, table⟩⟩
      = (.ok shortFrames, ⟨⟨"StackMapTable", 11, []⟩, ⟨q, table⟩⟩) := by
  have htype : (VerificationType.read classView).exec
      ⟨⟨"StackMapTable", 11, looseInfo.drop 5⟩, ⟨p, table⟩⟩
        = (.ok (.object ⟨2⟩), ⟨⟨"StackMapTable", 11, looseInfo.drop 8⟩, ⟨q, table⟩⟩) := by
    refine Action.exec_bind_eq_ok.mpr ⟨7, _, rfl, ?_⟩
    exact Action.exec_bind_eq_ok.mpr ⟨⟨2⟩, _, exec_ref h _ _ _ _, rfl⟩
  have hfirst : (StackMapFrame.read classView).exec
      ⟨⟨"StackMapTable", 11, looseInfo.drop 2⟩, ⟨p, table⟩⟩
        = (.ok (.oneStack 5 (.object ⟨2⟩)),
          ⟨⟨"StackMapTable", 11, looseInfo.drop 8⟩, ⟨q, table⟩⟩) := by
    refine Action.exec_bind_eq_ok.mpr ⟨247, _, rfl, ?_⟩
    refine Action.exec_bind_eq_ok.mpr ⟨5, _, rfl, ?_⟩
    exact Action.exec_bind_eq_ok.mpr ⟨_, _, htype, rfl⟩
  refine Action.exec_bind_eq_ok.mpr ⟨2, _, rfl, ?_⟩
  refine Action.exec_times_succ_eq_ok.mpr ⟨_, _, [.same 3], hfirst, ?_, rfl⟩
  refine Action.exec_times_succ_eq_ok.mpr ⟨.same 3, _, [], ?_, rfl, rfl⟩
  refine Action.exec_bind_eq_ok.mpr ⟨251, _, rfl, ?_⟩
  exact Action.exec_bind_eq_ok.mpr ⟨3, _, rfl, rfl⟩

/-- The frames are read, and added under a name that is new to the pool. -/
private theorem exec_looseInfo : ∃ r₁ r',
    (reading (.start "StackMapTable" looseInfo)
      (Attribute.stackMapTable <$> counted (StackMapFrame.read classView))).exec
        ⟨.start "Code" [], .start (.empty .java8)⟩ = (.ok (.stackMapTable shortFrames), r₁) ∧
    (nestedAttribute classView "StackMapTable" looseInfo).exec
      ⟨.start "Code" [], .start (.empty .java8)⟩ = (.ok (), r') := by
  have hinv := Pool.inv_empty .java8
  have hnothing := fun i => Pool.not_holds_empty .java8 i (.utf8 "StackMapTable")
  have hnew := Pool.not_holds_append (Pool.not_holds_append hnothing
    (by simp : Record.utf8 "A" ≠ _)) (by simp : Record.named .class ⟨1⟩ ≠ _)
  have hname := ((hinv.append (by decide)).append (by decide)).exec_utf8_new hnew (by decide)
    (by decide)
  have hread : (Attribute.stackMapTable <$> counted (StackMapFrame.read classView)).exec
      ⟨.start "StackMapTable" looseInfo, .start (.empty .java8)⟩
        = (.ok (.stackMapTable shortFrames), _) :=
    Action.exec_map_eq_ok.mpr ⟨_, exec_read_frames _ exec_copyAs_class, rfl⟩
  have hreading := @exec_reading _ _ _ _ ⟨.start "Code" [], .start (.empty .java8)⟩ _ hread rfl
  have hout : (Attribute.stackMapTable shortFrames).encode .java8
      = .ok [0, 2, 69, 7, 0, 2, 3] := by
    decide +kernel
  have hadd := @AttributeWriter.exec_add (.stackMapTable shortFrames)
    ⟨_, (AttributeWriter.start (.empty .java8)).table⟩ _ _ _ hname hout rfl
  exact ⟨_, _, hreading, exec_nestedAttribute rfl hreading hadd⟩

/-- Two loose frames are moved to an empty pool. -/
theorem stackMap_of_loose_frames :
    ∃ r₁ r', (reading (.start "StackMapTable" looseInfo)
        (Attribute.stackMapTable <$> counted (StackMapFrame.read classView))).exec
          ⟨.start "Code" [], .start ((Pool.empty .java8).afterCalls [])⟩
            = (.ok (.stackMapTable shortFrames), r₁) ∧
      (nestedAttribute classView "StackMapTable" looseInfo).exec
        ⟨.start "Code" [], .start ((Pool.empty .java8).afterCalls [])⟩ = (.ok (), r') ∧
      (∃ out, StackMapFrame.SameFrames classView r'.output.pool looseInfo out ∧
        out.length ≤ looseInfo.length ∧
        (AttributeWriter.start ((Pool.empty .java8).afterCalls [])).Links
          (.named "StackMapTable" out) r'.output ∧ r'.input = .start "Code" []) ∧
      ∃ out, (∀ version, (Attribute.stackMapTable shortFrames).encode version = .ok out) ∧
        StackMapFrame.SameFrames classView r₁.output.pool looseInfo out ∧
          out.length ≤ looseInfo.length := by
  obtain ⟨r₁, r', hreading, hnested⟩ := exec_looseInfo
  obtain ⟨hmoved, hwritten⟩ := stackMap_moves .java8 [] classView looseInfo
    ⟨.start "Code" [], .start ((Pool.empty .java8).afterCalls [])⟩ rfl
  exact ⟨r₁, r', hreading, hnested, hmoved r' hnested, (hwritten _ r₁ hreading).1⟩

end Remap

end JvmClass
