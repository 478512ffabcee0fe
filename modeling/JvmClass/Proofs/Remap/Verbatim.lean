import JvmClass.Proofs.Pool.Distinct
import JvmClass.Proofs.Remap.Imports

/-!
# Debug tables and annotations of types move byte for byte

The attributes of the code that hold lines, local variables and annotations of types are written
again as they were read: the bytes that come out are those that went in, but for the slots of
constants, in whose place their imports stand.

A `Layout` is a grammar that tells the one from the other.  It carries the proof that the pieces it
finds spell the bytes that it takes, so that the layouts below, which are put together from bytes and
slots, need none.  `Layout.ofTable` gives the layout of each of these attributes; like the reader it
has to be told how deep values may be nested, which is never deeper than there are bytes.

## Key results

- `Follows.seq`, `Follows.tagged`, `Follows.table`: remappers that go by a layout
- `follows_readNested`, `follows_targetInfo`, `follows_typeAnnotationEntry`: annotations of types
- `exists_follows_ofTable`: each of the attributes
- `table_moves_verbatim`: what is linked into the table of the output
-/

namespace JvmClass

-- Powers are those of the core library, also where Mathlib brings its own.
attribute [local instance (high)] instPowNat

/-! ## Layouts -/

/-- A grammar that parts plain bytes from the slots of constants. -/
structure Layout where
  read : Reader (List Piece)
  spells : Reader.Finds read fun ps front => front = ps.flatMap Piece.encode

namespace Layout

/-- Nothing is of this form. -/
def none : Layout where
  read := failure
  spells := Reader.finds_failure

instance : Inhabited Layout := ⟨none⟩

/-- Plain bytes. -/
def bytes (n : Nat) : Layout where
  read := Piece.plain <$> Reader.take n
  spells := by
    rw [← bind_pure_comp]
    refine (Reader.finds_take n).bind fun bs front hfront => Reader.finds_pure ?_
    rw [List.append_nil, Piece.flatMap_encode_plain, hfront]

/-- The slot of a constant of a kind. -/
def slot (kind : Tag) : Layout where
  read := (fun i => [.slot kind i.slot]) <$> (Reader.ref : Reader (Ref kind))
  spells := by
    rw [← bind_pure_comp]
    refine Reader.finds_ref.bind fun i front hfront => Reader.finds_pure ?_
    rw [List.append_nil, hfront]
    exact (List.append_nil _).symm

/-- One after the other. -/
def seq : List Layout → Layout
  | [] => ⟨pure [], Reader.finds_pure rfl⟩
  | g :: gs =>
    { read := g.read >>= fun ps => (ps ++ ·) <$> (seq gs).read
      spells := by
        refine g.spells.bind fun ps front hps => ?_
        rw [← bind_pure_comp]
        refine (seq gs).spells.bind fun qs front' hqs => Reader.finds_pure ?_
        rw [List.append_nil, List.flatMap_append, hps, hqs] }

/-- A byte, and what it calls for. -/
def tagged (body : UInt8 → Layout) : Layout where
  read := Reader.byte >>= fun tag => (.byte tag :: ·) <$> (body tag).read
  spells := by
    refine Reader.finds_byte.bind fun tag front htag => ?_
    rw [← bind_pure_comp]
    refine (body tag).spells.bind fun ps front' hps => Reader.finds_pure ?_
    rw [List.append_nil, List.flatMap_cons, htag, hps]
    rfl

/-- A count, and so many items. -/
def counted (width : CountWidth) (item : Layout) : Layout where
  read := Reader.uint width.bytes >>= fun k =>
    (fun pss => Piece.plain (BigEndian.encode width.bytes k) ++ pss.flatten)
      <$> Reader.times k item.read
  spells := by
    refine (Reader.finds_uint width.bytes).bind fun k front hk => ?_
    rw [← bind_pure_comp]
    refine (item.spells.times_encode k).bind fun pss front' hpss => Reader.finds_pure ?_
    obtain ⟨-, rfl⟩ := hk
    obtain ⟨-, rfl⟩ := hpss
    rw [List.append_nil, List.flatMap_append, Piece.flatMap_encode_plain,
      List.flatten_eq_flatMap, List.flatMap_assoc]
    rfl

/-! ## The attributes -/

/-- A position and a line. -/
def lineNumber : Layout := seq [bytes 2, bytes 2]

/-- A range of the code, a name, a descriptor or signature, and a local variable. -/
def localVariable : Layout := seq [bytes 2, bytes 2, slot .utf8, slot .utf8, bytes 2]

/-- The type of an annotation, and the names of its elements with their values. -/
def annotationEntry (value : Layout) : Layout :=
  seq [slot .utf8, counted .two (seq [slot .utf8, value])]

/-- What follows the letter of a value in which others are of the form `value`. -/
def valueOf (tag : UInt8) (value : Layout) : Layout :=
  match Char.ofNat tag.toNat with
  | 'B' | 'C' | 'I' | 'S' | 'Z' => slot .integer
  | 'D' => slot .double
  | 'F' => slot .float
  | 'J' => slot .long
  | 's' | 'c' => slot .utf8
  | 'e' => seq [slot .utf8, slot .utf8]
  | '@' => annotationEntry value
  | '[' => counted .two value
  | _ => none

/-- The value of an element, with others at most `depth` deep in it. -/
def elementValue : (depth : Nat) → Layout
  | 0 => none
  | depth + 1 => tagged fun tag => valueOf tag (elementValue depth)

/-- Where an annotated type stands. -/
def targetInfo : (targetType : UInt8) → Layout
  | 0x00 | 0x01 | 0x16 => bytes 1
  | 0x10 | 0x17 | 0x42 | 0x43 | 0x44 | 0x45 | 0x46 => bytes 2
  | 0x11 | 0x12 => seq [bytes 1, bytes 1]
  | 0x13 | 0x14 | 0x15 => seq []
  | 0x40 | 0x41 => counted .two (seq [bytes 2, bytes 2, bytes 2])
  | 0x47 | 0x48 | 0x49 | 0x4a | 0x4b => seq [bytes 2, bytes 1]
  | _ => none

/-- Where the type stands, where in it the annotation applies, and the annotation. -/
def typeAnnotationEntry (depth : Nat) : Layout :=
  tagged fun targetType =>
    seq [targetInfo targetType, counted .one (seq [bytes 1, bytes 1]),
      annotationEntry (elementValue depth)]

/-- The layout of an attribute of the code by its name. -/
def ofTable (depth : Nat) (name : String) : Layout :=
  if name = "LineNumberTable" then
    counted .two lineNumber
  else if name = "LocalVariableTable" ∨ name = "LocalVariableTypeTable" then
    counted .two localVariable
  else if name = "RuntimeVisibleTypeAnnotations" ∨ name = "RuntimeInvisibleTypeAnnotations" then
    counted .two (typeAnnotationEntry depth)
  else
    none

/-- The names of the attributes that have a layout. -/
def names : List String :=
  ["LineNumberTable", "LocalVariableTable", "LocalVariableTypeTable",
    "RuntimeVisibleTypeAnnotations", "RuntimeInvisibleTypeAnnotations"]

end Layout

/-! ## Going by a layout -/

namespace Remapper

open Layout (seq tagged)

variable {α β δ : Type} {n : Nat} {source : View}

/-- What was read has an encoding, and these are the bytes that the pieces become. -/
def Renders (source : View) (encode : β → Except Error (List UInt8)) (q : Pool)
    (ps : List Piece) (b : β) : Prop :=
  ∃ bytes, encode b = .ok bytes ∧ Becomes source q ps bytes

theorem Renders.mono {encode : β → Except Error (List UInt8)} {p q : Pool} {ps : List Piece} {b : β}
    (hq : p.Grows q) (h : Renders source encode p ps b) : Renders source encode q ps b := by
  obtain ⟨bytes, hbytes, hps⟩ := h
  exact ⟨bytes, hbytes, hps.mono hq⟩

/-- The first of the layouts is gone by, and then the others. -/
theorem Follows.seq {g : Layout} {gs : List Layout} {act : Action Error Remapper β}
    {k : β → Action Error Remapper δ} {R : Pool → List Piece → β → Prop}
    {T : Pool → List Piece → δ → Prop} (h : Follows n g.read act R)
    (hmono : ∀ {p q ps b}, p.Grows q → R p ps b → R q ps b)
    (hk : ∀ ps b, Follows n (seq gs).read (k b) fun q qs d => R q ps b → T q (ps ++ qs) d) :
    Follows n (seq (g :: gs)).read (act >>= k) T :=
  h.bind hmono fun _ ps b _ => (hk ps b).mapGrammar _ fun _ _ _ hd => hd

theorem follows_seq_nil {b : β} {R : Pool → List Piece → β → Prop} (h : ∀ q, R q [] b) :
    Follows n (seq []).read (pure b) R :=
  follows_pure h

theorem Follows.tagged {body : UInt8 → Layout} {k : UInt8 → Action Error Remapper β}
    {T : Pool → List Piece → β → Prop}
    (h : ∀ tag, Follows n (body tag).read (k tag) fun q ps b => T q (.byte tag :: ps) b) :
    Follows n (tagged body).read (u1 >>= k) T := by
  refine follows_u1.bind (fun _ htag => htag) fun _ tag tag' htag => ?_
  subst htag
  exact (h tag').mapGrammar _ fun _ _ _ hb _ => hb

theorem follows_bytes_one (source : View) :
    Follows n (Layout.bytes 1).read u1 fun q ps b => Becomes source q ps [b] := by
  refine ((follows_take 1).mapGrammar _ fun _ bytes m h => ?_).mapResult _ fun _ _ _ h => h
  obtain ⟨hlen, rfl⟩ := h
  obtain ⟨b, rfl⟩ := List.length_eq_one_iff.mp hlen
  have hself : UInt8.ofNat (BigEndian.decode [b]) = b := by
    rw [BigEndian.decode_cons, BigEndian.decode_nil]
    simp
  rw [hself]
  exact becomes_plain source _ [b]

theorem follows_bytes_two (source : View) :
    Follows n (Layout.bytes 2).read u2 fun q ps m => Becomes source q ps (BigEndian.u2 m) := by
  refine ((follows_take 2).mapGrammar _ fun _ bytes m h => ?_).mapResult _ fun _ _ _ h => h
  obtain ⟨hlen, rfl⟩ := h
  rw [BigEndian.u2_decode hlen]
  exact becomes_plain source _ bytes

theorem follows_slot (kind : Tag) (source : View) :
    Follows n (Layout.slot kind).read (ref kind source) fun q ps j =>
      Becomes source q ps j.encode :=
  (follows_ref kind source).mapGrammar _ fun _ _ _ h => becomes_slot h

/-! ### Tables -/

section Tables

variable {g : Layout} {act : Action Error Remapper β} {encode : β → Except Error (List UInt8)}

theorem exists_bodies_of_renders {q : Pool} {pss : List (List Piece)} {bs : List β}
    (h : List.Forall₂ (Renders source encode q) pss bs) :
    ∃ bodies : List (List UInt8), bs.map encode = bodies.map .ok ∧
      List.Forall₂ (Becomes source q) pss bodies := by
  induction h with
  | nil => exact ⟨[], rfl, .nil⟩
  | cons hfirst _ ih =>
    obtain ⟨body, hbody, hps⟩ := hfirst
    obtain ⟨bodies, hbodies, hall⟩ := ih
    refine ⟨body :: bodies, ?_, .cons hps hall⟩
    rw [List.map_cons, List.map_cons, hbody, hbodies]

/-- The items of a table whose count has been read. -/
private theorem Follows.items (h : Follows n g.read act (Renders source encode)) (name : String)
    {width : CountWidth} {k : Nat} (hk : k ≤ width.limit) :
    Follows n ((fun pss => Piece.plain (BigEndian.encode width.bytes k) ++ pss.flatten)
        <$> Reader.times k g.read) (Action.times k act)
      (Renders source fun bs => CountedTable.ofEntries name width (bs.map encode)) := by
  refine (h.times Renders.mono k).mapGrammar _ fun q pss bs hall => ?_
  obtain ⟨rfl, hall⟩ := hall
  obtain ⟨bodies, hbodies, hall⟩ := exists_bodies_of_renders hall
  have hlen : bs.length = bodies.length := by simpa using congrArg List.length hbodies
  refine ⟨_, ?_, (becomes_plain source q _).append (Becomes.flatten hall)⟩
  show CountedTable.ofEntries name width (bs.map encode) = _
  rw [hlen] at hk ⊢
  rw [hbodies, CountedTable.ofEntries_map_ok name hk]

/-- A table is written as it was read, item by item. -/
theorem Follows.table (h : Follows n g.read act (Renders source encode)) (name : String) :
    Follows n (Layout.counted .two g).read (Remapper.counted act)
      (Renders source fun bs => CountedTable.ofEntries name .two (bs.map encode)) := by
  refine follows_count_two.bind (fun _ hcount => hcount) fun _ k count hcount => ?_
  obtain ⟨hk, rfl⟩ := hcount
  exact (h.items name hk).imp fun _ _ _ hbs _ => hbs

theorem Follows.smallTable (h : Follows n g.read act (Renders source encode)) (name : String) :
    Follows n (Layout.counted .one g).read (u1 >>= fun count => Action.times count.toNat act)
      (Renders source fun bs => CountedTable.ofEntries name .one (bs.map encode)) := by
  refine follows_count_one.bind (fun _ hcount => hcount) fun _ k count hcount => ?_
  obtain ⟨hk, rfl⟩ := hcount
  exact (h.items name hk).imp fun _ _ _ hbs _ => hbs

end Tables

end Remapper

/-! ## Lines and local variables -/

open Remapper
open JvmClass.Action (except_bind_eq_ok)

variable {n : Nat} (source : View)

theorem follows_lineNumber : Follows n Layout.lineNumber.read Remap.lineNumber
    (Renders source fun l => .ok l.encode) := by
  refine (follows_bytes_two source).seq Becomes.mono fun _ start => ?_
  refine (follows_bytes_two source).seq Becomes.mono fun _ line => ?_
  refine follows_seq_nil fun q hline hstart => ⟨_, rfl, ?_⟩
  simpa [LineNumber.encode] using hstart.append hline

theorem follows_localVariable : Follows n Layout.localVariable.read (Remap.localVariable source)
    (Renders source fun v => .ok v.encode) := by
  refine (follows_bytes_two source).seq Becomes.mono fun _ start => ?_
  refine (follows_bytes_two source).seq Becomes.mono fun _ length => ?_
  refine (follows_slot .utf8 source).seq Becomes.mono fun _ name => ?_
  refine (follows_slot .utf8 source).seq Becomes.mono fun _ type => ?_
  refine (follows_bytes_two source).seq Becomes.mono fun _ index => ?_
  refine follows_seq_nil fun q hindex htype hname hlength hstart => ⟨_, rfl, ?_⟩
  have hall := hstart.append (hlength.append (hname.append (htype.append hindex)))
  simpa [LocalVariable.encode] using hall

/-! ## Annotations -/

theorem follows_readWith {value : Layout} {act : Action Error Remapper ElementValue}
    (h : Follows n value.read act (Renders source ElementValue.encode)) :
    Follows n (Layout.annotationEntry value).read (AnnotationEntry.readWith source act)
      (Renders source AnnotationEntry.encode) := by
  have hpair : Follows n (Layout.seq [.slot .utf8, value]).read (do
      let name ← ref .utf8 source
      return .mk name (← act)) (Renders source ElementPair.encode) := by
    refine (follows_slot .utf8 source).seq Becomes.mono fun _ name => ?_
    refine h.seq Renders.mono fun _ v => follows_seq_nil fun q hv hname => ?_
    obtain ⟨bytes, hbytes, hv⟩ := hv
    refine ⟨name.encode ++ bytes, ?_, by simpa using hname.append hv⟩
    rw [ElementPair.encode]
    exact except_bind_eq_ok.mpr ⟨bytes, hbytes, rfl⟩
  refine (follows_slot .utf8 source).seq Becomes.mono fun _ type => ?_
  refine (hpair.table "element_value_pairs").seq Renders.mono fun _ elements => ?_
  refine follows_seq_nil fun q helements htype => ?_
  obtain ⟨bytes, hbytes, helements⟩ := helements
  refine ⟨type.encode ++ bytes, ?_, by simpa using htype.append helements⟩
  rw [AnnotationEntry.encode, encodePairs_eq]
  exact except_bind_eq_ok.mpr ⟨bytes, hbytes, rfl⟩

theorem ElementKind.eq_byteOf_of_ofByte? {byte : UInt8} {kind : ElementKind}
    (h : ofByte? byte = some kind) : byte = kind.byteOf := by
  have hfound := List.find?_some h
  exact (beq_iff_eq.mp hfound).symm

/-- The letter of a constant calls for a constant of the kind that holds such a value. -/
theorem Layout.valueOf_byteOf (kind : ElementKind) (value : Layout) :
    valueOf kind.byteOf value = slot kind.constantTag := by
  cases kind <;> rfl

theorem follows_readNested (depth : Nat) :
    Follows n (Layout.elementValue depth).read (ElementValue.readNested source depth)
      (Renders source ElementValue.encode) := by
  -- Induction on the depth that is left; what is nested in a value has one less.
  induction depth with
  | zero => exact nofun
  | succ depth ih =>
    refine Follows.tagged fun tag => ?_
    split
    · rename_i kind hkind
      rw [ElementKind.eq_byteOf_of_ofByte? hkind, Layout.valueOf_byteOf, bind_pure_comp]
      refine (follows_slot kind.constantTag source).mapResult _ fun q ps value hvalue => ?_
      exact ⟨_, rfl, hvalue.cons kind.byteOf⟩
    split
    · rename_i htag
      subst htag
      refine (follows_slot .utf8 source).seq Becomes.mono fun _ type => ?_
      refine (follows_slot .utf8 source).seq Becomes.mono fun _ name => ?_
      refine follows_seq_nil fun q hname htype => ⟨_, rfl, ?_⟩
      simpa using (htype.append hname).cons enumTag
    split
    · rename_i htag
      subst htag
      rw [bind_pure_comp]
      refine (follows_readWith source ih).mapResult _ fun q ps entry hentry => ?_
      obtain ⟨bytes, hbytes, hps⟩ := hentry
      refine ⟨nestedTag :: bytes, ?_, hps.cons nestedTag⟩
      rw [ElementValue.encode]
      exact except_bind_eq_ok.mpr ⟨bytes, hbytes, rfl⟩
    split
    · rename_i htag
      subst htag
      rw [bind_pure_comp]
      refine (ih.table "array_value").mapResult _ fun q ps values hvalues => ?_
      obtain ⟨bytes, hbytes, hps⟩ := hvalues
      refine ⟨arrayTag :: bytes, ?_, hps.cons arrayTag⟩
      rw [ElementValue.encode, encodeValues_eq]
      exact except_bind_eq_ok.mpr ⟨bytes, hbytes, rfl⟩
    · exact follows_fail

/-! ## Annotations of types -/

private theorem follows_byteTarget {f : UInt8 → TargetInfo} (hf : ∀ b, (f b).encode = .ok [b]) :
    Follows n (Layout.bytes 1).read (u1 >>= fun b => pure (f b))
      (Renders source TargetInfo.encode) := by
  rw [bind_pure_comp]
  exact (follows_bytes_one source).mapResult f fun q ps b hb => ⟨_, hf b, hb⟩

private theorem follows_fieldTarget {f : UInt16 → TargetInfo}
    (hf : ∀ m, (f m).encode = .ok (BigEndian.u2 m)) :
    Follows n (Layout.bytes 2).read (u2 >>= fun m => pure (f m))
      (Renders source TargetInfo.encode) := by
  rw [bind_pure_comp]
  exact (follows_bytes_two source).mapResult f fun q ps m hm => ⟨_, hf m, hm⟩

private theorem follows_boundTarget :
    Follows n (Layout.seq [.bytes 1, .bytes 1]).read (do
      let parameter ← u1
      return .typeParameterBound parameter (← u1)) (Renders source TargetInfo.encode) := by
  refine (follows_bytes_one source).seq Becomes.mono fun _ parameter => ?_
  refine (follows_bytes_one source).seq Becomes.mono fun _ bound => ?_
  refine follows_seq_nil fun q hbound hparameter => ⟨_, rfl, ?_⟩
  simpa using hparameter.append hbound

private theorem follows_argumentTarget :
    Follows n (Layout.seq [.bytes 2, .bytes 1]).read (do
      let position ← u2
      return .typeArgument position (← u1)) (Renders source TargetInfo.encode) := by
  refine (follows_bytes_two source).seq Becomes.mono fun _ position => ?_
  refine (follows_bytes_one source).seq Becomes.mono fun _ index => ?_
  refine follows_seq_nil fun q hindex hposition => ⟨_, rfl, ?_⟩
  simpa using hposition.append hindex

theorem follows_localRange : Follows n (Layout.seq [.bytes 2, .bytes 2, .bytes 2]).read
    LocalRange.read (Renders source fun range => .ok range.encode) := by
  refine (follows_bytes_two source).seq Becomes.mono fun _ start => ?_
  refine (follows_bytes_two source).seq Becomes.mono fun _ length => ?_
  refine (follows_bytes_two source).seq Becomes.mono fun _ index => ?_
  refine follows_seq_nil fun q hindex hlength hstart => ⟨_, rfl, ?_⟩
  simpa [LocalRange.encode] using hstart.append (hlength.append hindex)

private theorem follows_rangesTarget :
    Follows n (Layout.counted .two (.seq [.bytes 2, .bytes 2, .bytes 2])).read (do
      return .localVariable (← counted LocalRange.read)) (Renders source TargetInfo.encode) := by
  rw [bind_pure_comp]
  refine ((follows_localRange source).table "localvar_target").mapResult _ fun q ps ranges h => ?_
  exact h

/-- The byte in front decides what is read and what is written. -/
theorem follows_targetInfo (targetType : UInt8) :
    Follows n (Layout.targetInfo targetType).read (TargetInfo.read targetType)
      (Renders source TargetInfo.encode) := by
  have hempty : Follows n (Layout.seq []).read (pure .empty) (Renders source TargetInfo.encode) :=
    follows_seq_nil fun q => ⟨[], rfl, becomes_nil source q⟩
  unfold TargetInfo.read
  split
  case h_1 | h_2 | h_9 => exact follows_byteTarget source fun _ => rfl
  case h_4 | h_5 => exact follows_boundTarget source
  case h_6 | h_7 | h_8 => exact hempty
  case h_11 | h_12 => exact follows_rangesTarget source
  case h_18 | h_19 | h_20 | h_21 | h_22 => exact follows_argumentTarget source
  case h_23 => exact follows_fail
  -- What is left are plain numbers of two bytes.
  all_goals exact follows_fieldTarget source fun _ => rfl

theorem follows_typePathStep : Follows n (Layout.seq [.bytes 1, .bytes 1]).read TypePathStep.read
    (Renders source fun step => .ok step.encode) := by
  refine (follows_bytes_one source).seq Becomes.mono fun _ kind => ?_
  refine (follows_bytes_one source).seq Becomes.mono fun _ argument => ?_
  refine follows_seq_nil fun q hargument hkind => ⟨_, rfl, ?_⟩
  simpa [TypePathStep.encode] using hkind.append hargument

theorem follows_annotationEntry : Follows n (Layout.annotationEntry (.elementValue n)).read
    (AnnotationEntry.read source) (Renders source AnnotationEntry.encode) :=
  follows_readWith source (follows_readNested source n).bind_size

theorem follows_typeAnnotationEntry : Follows n (Layout.typeAnnotationEntry n).read
    (TypeAnnotationEntry.read source) (Renders source TypeAnnotationEntry.encode) := by
  have hpath := (follows_typePathStep (n := n) source).smallTable "type_path"
  refine Follows.tagged fun targetType => ?_
  refine (follows_targetInfo source targetType).seq Renders.mono fun _ target => ?_
  rw [← bind_assoc]
  refine hpath.seq Renders.mono fun _ path => ?_
  refine (follows_annotationEntry source).seq Renders.mono fun _ entry => ?_
  refine follows_seq_nil fun q hentry hpath htarget => ?_
  obtain ⟨xs, hxs, htarget⟩ := htarget
  obtain ⟨ys, hys, hpath⟩ := hpath
  obtain ⟨zs, hzs, hentry⟩ := hentry
  refine ⟨targetType :: (xs ++ ys ++ zs), ?_, ?_⟩
  · refine except_bind_eq_ok.mpr ⟨xs, hxs, except_bind_eq_ok.mpr ⟨ys, hys, ?_⟩⟩
    exact except_bind_eq_ok.mpr ⟨zs, hzs, rfl⟩
  · simpa using (htarget.append (hpath.append hentry)).cons targetType

/-! ## The attributes of the code -/

/-- What is read is an attribute of this name, and its bytes are what the pieces become. -/
def RendersTable (source : View) (name : String) (q : Pool) (ps : List Piece) (a : Attribute) :
    Prop :=
  a.name = name ∧ ∀ version, Renders source (Attribute.encode version) q ps a

theorem exists_follows_ofTable {name : String} (hname : name ∈ Layout.names) :
    ∃ read, Remap.known? source name = some read ∧
      Follows n (Layout.ofTable n name).read read (RendersTable source name) := by
  have hlines := (follows_lineNumber (n := n) source).table
  have hlocals := (follows_localVariable (n := n) source).table
  have htypes := (follows_typeAnnotationEntry (n := n) source).table
  simp only [Layout.names, List.mem_cons, List.not_mem_nil, or_false] at hname
  obtain rfl | rfl | rfl | rfl | rfl := hname
  · exact ⟨_, rfl, (hlines _).mapResult _ fun _ _ _ h => ⟨rfl, fun _ => h⟩⟩
  · exact ⟨_, rfl, (hlocals _).mapResult _ fun _ _ _ h => ⟨rfl, fun _ => h⟩⟩
  · exact ⟨_, rfl, (hlocals _).mapResult _ fun _ _ _ h => ⟨rfl, fun _ => h⟩⟩
  · exact ⟨_, rfl, (htypes _).mapResult _ fun _ _ _ h => ⟨rfl, fun _ => h⟩⟩
  · exact ⟨_, rfl, (htypes _).mapResult _ fun _ _ _ h => ⟨rfl, fun _ => h⟩⟩

/-- An attribute with lines, local variables or annotations of types that is moved to a reachable
pool is linked into the table there with the bytes that it came with, but for the slots of constants,
in whose place their imports stand. -/
theorem Remap.table_moves_verbatim (version : Version) (calls : List Pool.Call) (source : View)
    (name : String) (info : List UInt8) (r r' : Remapper) (hname : name ∈ Layout.names)
    (hpool : r.output.pool = (Pool.empty version).afterCalls calls)
    (h : (nestedAttribute source name info).exec r = (.ok (), r')) :
    ∃ ps out, Reader.whole (Layout.ofTable info.length name).read info = some ps ∧
      info = ps.flatMap Piece.encode ∧ Becomes source r'.output.pool ps out ∧
      out.length = info.length ∧ r.output.Links (.named name out) r'.output ∧
      r'.input = r.input := by
  have hinv : r.output.pool.Inv := by
    rw [hpool]
    exact Pool.inv_afterCalls version calls
  obtain ⟨read, hknown, hfollows⟩ := exists_follows_ofTable (n := info.length) source hname
  obtain ⟨ps, a, p, out, hps, ha, hgrows, hout, hlinks, hinput⟩ :=
    links_of_follows hknown hfollows hinv h
  obtain ⟨rfl, hrenders⟩ := ha
  obtain ⟨bytes, hbytes, hbecomes⟩ := hrenders r'.output.pool.version
  cases hout.symm.trans hbytes
  obtain ⟨front, hinfo, hfront⟩ :=
    (Layout.ofTable info.length a.name).spells info ps [] (Reader.whole_eq_some.mp hps)
  have hspelled : info = ps.flatMap Piece.encode := by
    rw [hinfo, List.append_nil, hfront]
  have hlen : out.length = info.length := by
    rw [hbecomes.length_eq, ← hspelled]
  exact ⟨ps, out, hps, hspelled, hbecomes.mono hgrows, hlen, hlinks, hinput⟩

namespace Remap

/-- A pool with a string at slot 5. -/
def stringView : View := fun i => if i = 5 then .ok (.utf8 "A") else .error (.badSlot i 6)

/-- An annotation of the type of a field, with an element that is a string. -/
def stringInfo : List UInt8 := [0, 1, 0x13, 0, 0, 5, 0, 1, 0, 5, 0x73, 0, 5]

/-- The annotation for a pool with the string at slot 1. -/
def movedString : TypeAnnotationEntry :=
  ⟨0x13, .empty, [], .mk ⟨1⟩ [.mk ⟨1⟩ (.constant .string ⟨1⟩)]⟩

private theorem exec_read_string {p q : Pool} (table : CountedTable)
    (h : (Pool.copyAs .utf8 stringView 5).exec p = (.ok ⟨1⟩, q))
    (hagain : (Pool.copyAs .utf8 stringView 5).exec q = (.ok ⟨1⟩, q)) :
    (counted (TypeAnnotationEntry.read stringView)).exec
      ⟨.start "RuntimeVisibleTypeAnnotations" stringInfo, ⟨p, table⟩⟩
        = (.ok [movedString], ⟨⟨"RuntimeVisibleTypeAnnotations", 13, []⟩, ⟨q, table⟩⟩) := by
  have hvalue : (ElementValue.read stringView).exec
      ⟨⟨"RuntimeVisibleTypeAnnotations", 13, [0x73, 0, 5]⟩, ⟨q, table⟩⟩
        = (.ok (.constant .string ⟨1⟩),
          ⟨⟨"RuntimeVisibleTypeAnnotations", 13, []⟩, ⟨q, table⟩⟩) := by
    refine Action.exec_bind_eq_ok.mpr ⟨13, _, rfl, ?_⟩
    refine Action.exec_bind_eq_ok.mpr ⟨0x73, _, rfl, ?_⟩
    exact Action.exec_bind_eq_ok.mpr ⟨⟨1⟩, _, exec_ref hagain _ _ _ _, rfl⟩
  have hentry : (AnnotationEntry.read stringView).exec
      ⟨⟨"RuntimeVisibleTypeAnnotations", 13, stringInfo.drop 4⟩, ⟨p, table⟩⟩
        = (.ok (.mk ⟨1⟩ [.mk ⟨1⟩ (.constant .string ⟨1⟩)]),
          ⟨⟨"RuntimeVisibleTypeAnnotations", 13, []⟩, ⟨q, table⟩⟩) := by
    refine Action.exec_bind_eq_ok.mpr ⟨⟨1⟩, _, exec_ref h _ _ _ _, ?_⟩
    refine Action.exec_bind_eq_ok.mpr ⟨_, _, ?_, rfl⟩
    refine Action.exec_bind_eq_ok.mpr ⟨1, _, rfl, ?_⟩
    refine Action.exec_times_succ_eq_ok.mpr ⟨_, _, [], ?_, rfl, rfl⟩
    refine Action.exec_bind_eq_ok.mpr ⟨⟨1⟩, _, exec_ref hagain _ _ _ _, ?_⟩
    exact Action.exec_bind_eq_ok.mpr ⟨_, _, hvalue, rfl⟩
  refine Action.exec_bind_eq_ok.mpr ⟨1, _, rfl, ?_⟩
  refine Action.exec_times_succ_eq_ok.mpr ⟨_, _, [], ?_, rfl, rfl⟩
  refine Action.exec_bind_eq_ok.mpr ⟨0x13, _, rfl, ?_⟩
  refine Action.exec_bind_eq_ok.mpr ⟨.empty, _, rfl, ?_⟩
  refine Action.exec_bind_eq_ok.mpr ⟨0, _, rfl, ?_⟩
  refine Action.exec_bind_eq_ok.mpr ⟨[], _, rfl, ?_⟩
  exact Action.exec_bind_eq_ok.mpr ⟨_, _, hentry, rfl⟩

private theorem exec_nestedAttribute_string :
    ∃ r', (nestedAttribute stringView "RuntimeVisibleTypeAnnotations" stringInfo).exec
      ⟨.start "Code" [], .start (.empty .java8)⟩ = (.ok (), r') := by
  have hinv := Pool.inv_empty .java8
  have hstring : (Pool.copyAs .utf8 stringView 5).exec (.empty .java8)
      = (.ok ⟨1⟩, (Pool.empty .java8).append (.utf8 "A")) := by
    have hnew := hinv.exec_utf8_new (fun i => Pool.not_holds_empty .java8 i (.utf8 "A"))
      (by decide) (by decide)
    refine Action.exec_bind_eq_ok.mpr ⟨1, (Pool.empty .java8).append (.utf8 "A"), ?_, rfl⟩
    exact Action.exec_map_eq_ok.mpr ⟨⟨1⟩, hnew, rfl⟩
  have hagain := (Pool.repeats_copyAs .utf8 stringView 5 _ _ _ hinv hstring).2 _ .refl
  -- The name of the attribute is another string.
  have hnew : ∀ i, ¬ ((Pool.empty .java8).append (.utf8 "A")).Holds i
      (.utf8 "RuntimeVisibleTypeAnnotations") :=
    Pool.not_holds_append (fun i => Pool.not_holds_empty .java8 i _) (by simp)
  have hname := (hinv.append (by decide)).exec_utf8_new hnew (by decide) (by decide)
  have hread := exec_read_string (AttributeWriter.start (.empty .java8)).table hstring hagain
  have hinfo : (Attribute.typeAnnotations .visible [movedString]).encode .java8
      = .ok [0, 1, 0x13, 0, 0, 1, 0, 1, 0, 1, 0x73, 0, 1] := by
    decide +kernel
  have hadd := AttributeWriter.exec_add (a := .typeAnnotations .visible [movedString])
    (w := ⟨_, (AttributeWriter.start (.empty .java8)).table⟩) hname hinfo rfl
  exact ⟨_, exec_nestedAttribute rfl
    (exec_reading (Action.exec_map_eq_ok.mpr ⟨_, hread, rfl⟩) rfl) hadd⟩

/-- The string goes to slot 1 of an empty pool, and its slots in the annotation become 1. -/
theorem table_of_moved_string :
    ∃ r', "RuntimeVisibleTypeAnnotations" ∈ Layout.names ∧
      (nestedAttribute stringView "RuntimeVisibleTypeAnnotations" stringInfo).exec
        ⟨.start "Code" [], .start ((Pool.empty .java8).afterCalls [])⟩ = (.ok (), r') ∧
      ∃ ps out, Reader.whole (Layout.ofTable stringInfo.length
          "RuntimeVisibleTypeAnnotations").read stringInfo = some ps ∧
        stringInfo = ps.flatMap Piece.encode ∧ Becomes stringView r'.output.pool ps out ∧
        out.length = stringInfo.length ∧
        (AttributeWriter.start ((Pool.empty .java8).afterCalls [])).Links
          (.named "RuntimeVisibleTypeAnnotations" out) r'.output ∧
        r'.input = .start "Code" [] := by
  obtain ⟨r', hrun⟩ := exec_nestedAttribute_string
  have hname : "RuntimeVisibleTypeAnnotations" ∈ Layout.names := by decide
  exact ⟨r', hname, hrun, table_moves_verbatim .java8 [] stringView _ stringInfo _ r' hname rfl hrun⟩

end Remap

end JvmClass
