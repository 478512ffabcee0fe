import JvmClass.CountedTable
import JvmClass.Proofs.Action
import JvmClass.Proofs.Byte.Buffer
import Mathlib.Data.List.Forall2

/-!
# What a table under construction holds

A counted table stands at the end of a buffer, and its count is patched each time an entry is begun
or linked in.  `Holds t front entries` says that the buffer consists of `front`, of the count of the
entries and of the entries, and that the room for the count stands where it has to.  Every operation
keeps this, with one entry more or a longer last one.

`Carries` says the same of a table whose entries are items of one form, and which things these items
stand for.

A table may stand in the last entry of another one.  What is done to it happens behind the other
table's count, which therefore keeps standing: `Buffer.Keeps` says so of what becomes of a buffer.

## Key results

- `holds_start`: a new table has no entries
- `Holds.link`: a linked entry is the last one
- `Holds.raiseCount`, `Holds.extend`: an entry that is written piece by piece
- `Carries.link`, `Carries.exists_toList_eq`: items that are linked in, and the bytes of all
- `ofEntries_eq_ok`, `ofEntries_map_ok`: a table that is written as a whole
- `ofList_eq_ok`: a table of items that all have an encoding
- `pushSpec_of_start`: a table that goes on after entries that are refused
-/

namespace JvmClass

theorem BigEndian.encode_zero (width : Nat) : encode width 0 = List.replicate width 0 := by
  induction width with
  | zero => rfl
  | succ width ih =>
    rw [encode, ih, Nat.zero_div]
    rfl

/-- What is written as a two-byte count and so many items. -/
def encodeCounted {α : Type} (encode : α → List UInt8) (items : List α) : List UInt8 :=
  BigEndian.encode 2 items.length ++ items.flatMap encode

theorem encodeSequence_eq {α : Type} {encode : α → List UInt8} {items : List α}
    (h : items.length ≤ 65535) : encodeSequence encode items = .ok (encodeCounted encode items) :=
  if_pos h

namespace Buffer

/-- Every reservation of the first buffer stands at the same position in the second one. -/
def Keeps (b b' : Buffer) : Prop := ∀ r pos, b.Stands r pos → b'.Stands r pos

theorem Keeps.refl (b : Buffer) : b.Keeps b := fun _ _ h => h

theorem Keeps.trans {b b' b'' : Buffer} (h : b.Keeps b') (h' : b'.Keeps b'') : b.Keeps b'' :=
  fun r pos hr => h' r pos (h r pos hr)

theorem keeps_append (b : Buffer) (bytes : List UInt8) : b.Keeps (b.append bytes) :=
  fun _ _ h => h.append bytes

theorem keeps_reserve (b : Buffer) (n : Nat) : b.Keeps (b.reserve n).2 := fun _ _ h => h.reserve n

theorem keeps_link (b other : Buffer) : b.Keeps (b.link other) := fun _ _ h => h.link other

theorem keeps_patchField (b : Buffer) (r : Reservation) (n : Nat) : b.Keeps (b.patchField r n) :=
  fun _ _ h => h.overwrite r 0 _

end Buffer

namespace CountedTable

/-- The buffer consists of the front, the count of the entries, and the entries.  There is room set
aside for the count. -/
structure Holds (t : CountedTable) (front : List UInt8) (entries : List (List UInt8)) : Prop where
  size_countField : t.countField.size = t.width.bytes
  stands : t.buffer.Stands t.countField front.length
  count_eq : t.count = entries.length
  length_le : entries.length ≤ t.width.limit
  toList_eq : t.buffer.toList
    = front ++ (BigEndian.encode t.width.bytes entries.length ++ entries.flatten)

@[simp] theorem width_start (name : String) (width : CountWidth) (buffer : Buffer) :
    (start name width buffer).width = width :=
  rfl

@[simp] theorem width_raiseCount (t : CountedTable) : t.raiseCount.width = t.width := rfl

@[simp] theorem width_link (t : CountedTable) (head : List UInt8) (entry : Buffer) :
    (t.link head entry).width = t.width :=
  rfl

variable {t : CountedTable} {front : List UInt8} {entries : List (List UInt8)}

theorem holds_start (name : String) (width : CountWidth) (buffer : Buffer) :
    (start name width buffer).Holds buffer.toList [] where
  size_countField := rfl
  stands := by
    -- The room for the count is the last thing in the buffer.
    have hstands := buffer.stands_reserve width.bytes
    rwa [← Buffer.length_toList] at hstands
  count_eq := rfl
  length_le := Nat.zero_le _
  toList_eq := by
    have hzero := BigEndian.encode_zero width.bytes
    show (buffer.reserve width.bytes).2.toList = _
    rw [Buffer.toList_reserve, width_start, List.length_nil, hzero, List.flatten_nil,
      List.append_nil]

theorem keeps_start (name : String) (width : CountWidth) (buffer : Buffer) :
    buffer.Keeps (start name width buffer).buffer :=
  buffer.keeps_reserve width.bytes

/-! ## Raising the count -/

/-- A patch of the count changes nothing behind it. -/
theorem toList_raiseCount {n : Nat} {body : List UInt8}
    (hsize : t.countField.size = t.width.bytes)
    (hstands : t.buffer.Stands t.countField front.length)
    (hlist : t.buffer.toList = front ++ (BigEndian.encode t.width.bytes n ++ body)) :
    t.raiseCount.buffer.toList
      = front ++ (BigEndian.encode t.width.bytes (t.count + 1) ++ body) := by
  show (t.buffer.overwrite t.countField 0
    (BigEndian.encode t.countField.size (t.count + 1))).toList = _
  have hfit : 0 + (BigEndian.encode t.countField.size (t.count + 1)).length
      ≤ t.countField.size := by
    rw [BigEndian.length_encode]
    omega
  -- The new count has the width of the old one, so that nothing behind it moves.
  have hlen : (BigEndian.encode t.width.bytes (t.count + 1)).length
      = (BigEndian.encode t.width.bytes n).length := by
    rw [BigEndian.length_encode, BigEndian.length_encode]
  rw [Buffer.toList_overwrite hstands hfit, hlist, hsize, Nat.add_zero, splice_middle hlen]

/-- A table with room for another entry, which has been written already. -/
private theorem Holds.raise_of_toList (h : t.Holds front entries) (hroom : t.isFull = false)
    {buffer : Buffer} {entry : List UInt8} (hkeeps : t.buffer.Keeps buffer)
    (hlist : buffer.toList = t.buffer.toList ++ entry) :
    (raiseCount { t with buffer }).Holds front (entries ++ [entry]) := by
  have hlt : t.count < t.width.limit := by
    have hle := of_decide_eq_false hroom
    omega
  have hcount := h.count_eq
  have hstands := hkeeps _ _ h.stands
  have hbuffer : buffer.toList = front ++ (BigEndian.encode t.width.bytes entries.length
      ++ (entries.flatten ++ entry)) := by
    rw [hlist, h.toList_eq]
    simp only [List.append_assoc]
  -- The old count still stands before the new entry, and is patched there.
  have hraised := toList_raiseCount (t := { t with buffer }) h.size_countField hstands hbuffer
  have hlen : (entries ++ [entry]).length = t.count + 1 := by
    rw [List.length_append, ← hcount]
    rfl
  exact {
    size_countField := h.size_countField
    stands := Buffer.keeps_patchField _ _ _ _ _ hstands
    count_eq := hlen.symm
    length_le := by
      rw [hlen]
      exact hlt
    toList_eq := by
      rw [hraised, hlen, width_raiseCount, List.flatten_append]
      simp }

/-! ## Entries -/

/-- An entry that is linked in is the last one. -/
theorem Holds.link (h : t.Holds front entries) (hroom : t.isFull = false) (head : List UInt8)
    (entry : Buffer) : (t.link head entry).Holds front (entries ++ [head ++ entry.toList]) := by
  -- Neither the head nor the linked pieces touch what stands before them.
  have hkeeps := (t.buffer.keeps_append head).trans ((t.buffer.append head).keeps_link entry)
  apply h.raise_of_toList hroom hkeeps
  rw [Buffer.toList_link, Buffer.toList_append, List.append_assoc]

theorem keeps_link (t : CountedTable) (head : List UInt8) (entry : Buffer) :
    t.buffer.Keeps (t.link head entry).buffer := by
  have hkeeps := (t.buffer.keeps_append head).trans ((t.buffer.append head).keeps_link entry)
  exact hkeeps.trans (Buffer.keeps_patchField _ _ _)

/-- An entry that has just been begun is empty. -/
theorem Holds.raiseCount (h : t.Holds front entries) (hroom : t.isFull = false) :
    t.raiseCount.Holds front (entries ++ [[]]) :=
  h.raise_of_toList hroom (Buffer.Keeps.refl _) (List.append_nil _).symm

/-- What is written behind a table belongs to its last entry. -/
theorem Holds.extend {entry bytes : List UInt8} (h : t.Holds front (entries ++ [entry]))
    {buffer : Buffer} (hkeeps : t.buffer.Keeps buffer)
    (hlist : buffer.toList = t.buffer.toList ++ bytes) :
    CountedTable.Holds { t with buffer } front (entries ++ [entry ++ bytes]) := by
  -- The number of entries does not change, and so the count needs no patch.
  have hlen : (entries ++ [entry ++ bytes]).length = (entries ++ [entry]).length := by
    rw [List.length_append, List.length_append]
    rfl
  exact {
    size_countField := h.size_countField
    stands := hkeeps _ _ h.stands
    count_eq := by rw [hlen, ← h.count_eq]
    length_le := by
      rw [hlen]
      exact h.length_le
    toList_eq := by
      rw [hlist, h.toList_eq, hlen]
      simp }

/-! ## Tables of items -/

variable {α β : Type} {encode : α → List UInt8} {Fits : α → Prop} {R S : β → α → Prop}
  {xs : List β}

/-- The buffer ends in a table of items of one form behind the front, and these correspond to what
is given. -/
structure Carries (t : CountedTable) (front : List UInt8) (encode : α → List UInt8)
    (Fits : α → Prop) (R : β → α → Prop) (xs : List β) : Prop where
  width_eq : t.width = .two
  exists_items : ∃ as, t.Holds front (as.map encode) ∧ (∀ a ∈ as, Fits a) ∧ List.Forall₂ R xs as

theorem carries_start (name : String) (buffer : Buffer) (encode : α → List UInt8) (Fits : α → Prop)
    (R : β → α → Prop) : (start name .two buffer).Carries buffer.toList encode Fits R [] where
  width_eq := rfl
  exists_items := by
    refine ⟨[], holds_start name .two buffer, ?_, .nil⟩
    intro a ha
    cases ha

theorem Carries.mono (h : t.Carries front encode Fits R xs) (hRS : ∀ x a, R x a → S x a) :
    t.Carries front encode Fits S xs where
  width_eq := h.width_eq
  exists_items := by
    obtain ⟨as, hholds, hfits, hxs⟩ := h.exists_items
    exact ⟨as, hholds, hfits, hxs.imp hRS⟩

/-- The bytes of a buffer that ends in a table are those of the front and of the table. -/
theorem Carries.exists_toList_eq (h : t.Carries front encode Fits R xs) :
    ∃ as, t.buffer.toList = front ++ encodeCounted encode as ∧ as.length ≤ 65535 ∧
      (∀ a ∈ as, Fits a) ∧ List.Forall₂ R xs as := by
  obtain ⟨as, hholds, hfits, hxs⟩ := h.exists_items
  have hlist := hholds.toList_eq
  have hlen := hholds.length_le
  rw [h.width_eq, List.length_map] at hlist hlen
  refine ⟨as, ?_, hlen, hfits, hxs⟩
  rw [hlist, encodeCounted, List.flatMap_def]
  rfl

theorem Carries.count_eq (h : t.Carries front encode Fits R xs) : t.count = xs.length := by
  obtain ⟨as, hholds, -, hxs⟩ := h.exists_items
  rw [hholds.count_eq, List.length_map, hxs.length_eq]

/-- A table that holds one more entry carries one more item. -/
theorem Carries.of_holds (h : t.Carries front encode Fits R xs) {t' : CountedTable} {x : β} {a : α}
    (hwidth : t'.width = t.width) (hfit : Fits a) (hx : R x a)
    (hholds : ∀ entries, t.Holds front entries → t'.Holds front (entries ++ [encode a])) :
    t'.Carries front encode Fits R (xs ++ [x]) where
  width_eq := hwidth.trans h.width_eq
  exists_items := by
    obtain ⟨as, hentries, hfits, hxs⟩ := h.exists_items
    refine ⟨as ++ [a], ?_, ?_, List.rel_append hxs (.cons hx .nil)⟩
    · rw [List.map_append, List.map_singleton]
      exact hholds _ hentries
    · intro b hb
      rcases List.mem_append.mp hb with hb | hb
      · exact hfits b hb
      · rw [List.mem_singleton.mp hb]
        exact hfit

/-- An item that is linked in comes last. -/
theorem Carries.link (h : t.Carries front encode Fits R xs) (hroom : t.isFull = false)
    {head : List UInt8} {entry : Buffer} {x : β} {a : α} (ha : encode a = head ++ entry.toList)
    (hfit : Fits a) (hx : R x a) : (t.link head entry).Carries front encode Fits R (xs ++ [x]) := by
  refine h.of_holds (width_link t head entry) hfit hx fun entries hentries => ?_
  rw [ha]
  exact hentries.link hroom head entry

/-! ## Beginning an entry -/

/-- A table that can be begun an entry of has room for it. -/
theorem exec_beginEntry_eq_ok {t' : CountedTable} (h : beginEntry.exec t = (.ok (), t')) :
    t.isFull = false ∧ t' = t.raiseCount := by
  unfold beginEntry at h
  rw [Action.exec_ofFn] at h
  cases hfull : t.isFull with
  | true =>
    rw [hfull] at h
    cases h
  | false =>
    rw [hfull] at h
    exact ⟨rfl, (Prod.mk.inj h).2.symm⟩

theorem exec_beginEntry_of_room (hroom : t.isFull = false) :
    beginEntry.exec t = (.ok (), t.raiseCount) := by
  unfold beginEntry
  rw [Action.exec_ofFn, if_neg (by rw [hroom]; decide)]

/-- A table that cannot be begun an entry of stays as it is. -/
theorem exec_beginEntry_eq_error {t' : CountedTable} {e : Error}
    (h : beginEntry.exec t = (.error e, t')) : t' = t := by
  unfold beginEntry at h
  rw [Action.exec_ofFn] at h
  split at h
  · exact (Prod.mk.inj h).2.symm
  · cases h

/-! ## Whole tables -/

/-- An entry with an encoding comes last. -/
theorem Holds.push (h : t.Holds front entries) {entry : Except Error (List UInt8)}
    {t' : CountedTable} (hpush : (push entry).exec t = (.ok (), t')) :
    ∃ body, entry = .ok body ∧ t'.Holds front (entries ++ [body]) ∧ t'.width = t.width := by
  obtain ⟨_, t₁, hbegin, hpush⟩ := Action.exec_bind_eq_ok.mp hpush
  obtain ⟨body, t₂, hbody, happend⟩ := Action.exec_bind_eq_ok.mp hpush
  obtain ⟨hroom, rfl⟩ := exec_beginEntry_eq_ok hbegin
  obtain ⟨rfl, rfl⟩ := Prod.mk.inj hbody
  obtain ⟨-, rfl⟩ := Prod.mk.inj happend
  have hextend := (h.raiseCount hroom).extend (Buffer.keeps_append _ body)
    (Buffer.toList_append _ body)
  exact ⟨body, rfl, hextend, rfl⟩

theorem Holds.forM_push (h : t.Holds front entries) {more : List (Except Error (List UInt8))}
    {t' : CountedTable} (hrun : (more.forM CountedTable.push).exec t = (.ok (), t')) :
    ∃ bodies : List (List UInt8), more = bodies.map .ok ∧ t'.Holds front (entries ++ bodies) ∧
      t'.width = t.width := by
  induction more generalizing t entries with
  | nil =>
    cases hrun
    exact ⟨[], rfl, by rwa [List.append_nil], rfl⟩
  | cons entry more ih =>
    obtain ⟨_, t₁, hpush, hmore⟩ := Action.exec_bind_eq_ok.mp hrun
    obtain ⟨body, rfl, hholds, hwidth⟩ := h.push hpush
    obtain ⟨bodies, rfl, hholds', hwidth'⟩ := ih hholds hmore
    rw [List.append_assoc] at hholds'
    exact ⟨body :: bodies, rfl, hholds', hwidth'.trans hwidth⟩

/-- The bytes of a whole table are a count that fits its field and the encodings of the entries. -/
theorem ofEntries_eq_ok {name : String} {width : CountWidth}
    {entries : List (Except Error (List UInt8))} {bytes : List UInt8}
    (h : ofEntries name width entries = .ok bytes) :
    ∃ bodies : List (List UInt8), entries = bodies.map .ok ∧ bodies.length ≤ width.limit ∧
      bytes = BigEndian.encode width.bytes bodies.length ++ bodies.flatten := by
  unfold ofEntries at h
  split at h
  · rename_i t hrun
    cases h
    obtain ⟨bodies, rfl, hholds, hwidth⟩ := (holds_start name width .empty).forM_push hrun
    have hlen := hholds.length_le
    have hlist := hholds.toList_eq
    rw [hwidth, width_start, List.nil_append] at hlen hlist
    rw [Buffer.toList_empty, List.nil_append] at hlist
    exact ⟨bodies, rfl, hlen, hlist⟩
  · cases h

/-- An entry with an encoding is accepted by a table that is not full. -/
theorem exec_push_of_room {t : CountedTable} (hroom : t.isFull = false) (body : List UInt8) :
    (push (.ok body)).exec t
      = (.ok (), { t.raiseCount with buffer := t.raiseCount.buffer.append body }) :=
  Action.exec_bind_eq_ok.mpr ⟨(), _, exec_beginEntry_of_room hroom, rfl⟩

/-- A full table refuses every entry and stays as it is. -/
theorem exec_push_of_full (hfull : t.isFull = true) (entry : Except Error (List UInt8)) :
    (push entry).exec t = (.error t.overflow, t) := by
  have hbegin : beginEntry.exec t = (.error t.overflow, t) := by
    unfold beginEntry
    rw [Action.exec_ofFn, if_pos hfull]
  exact Action.exec_bind_eq_error.mpr (.inl hbegin)

/-- Entries with encodings are accepted as long as the count can say how many there are. -/
theorem exists_forM_push {t : CountedTable} {bodies : List (List UInt8)}
    (h : t.count + bodies.length ≤ t.width.limit) :
    ∃ t', ((bodies.map .ok).forM push).exec t = (.ok (), t') := by
  induction bodies generalizing t with
  | nil => exact ⟨t, rfl⟩
  | cons body bodies ih =>
    rw [List.length_cons] at h
    have hroom : t.isFull = false := by
      unfold isFull
      simp only [decide_eq_false_iff_not]
      omega
    have hcount : t.raiseCount.count = t.count + 1 := rfl
    obtain ⟨t', hrest⟩ := @ih { t.raiseCount with buffer := t.raiseCount.buffer.append body }
      (by rw [hcount, width_raiseCount]; omega)
    exact ⟨t', Action.exec_bind_eq_ok.mpr ⟨(), _, exec_push_of_room hroom body, hrest⟩⟩

/-- A table of entries with encodings has one if its count can say how many there are. -/
theorem ofEntries_map_ok (name : String) {width : CountWidth} {bodies : List (List UInt8)}
    (h : bodies.length ≤ width.limit) : ofEntries name width (bodies.map .ok)
      = .ok (BigEndian.encode width.bytes bodies.length ++ bodies.flatten) := by
  have hstart : (start name width .empty).count + bodies.length
      ≤ (start name width .empty).width.limit := by
    rw [width_start]
    show 0 + bodies.length ≤ _
    omega
  obtain ⟨t, hrun⟩ := exists_forM_push hstart
  have hok : ofEntries name width (bodies.map .ok) = .ok t.buffer.toList := by
    unfold ofEntries
    rw [hrun]
  obtain ⟨bodies', hbodies, -, hbytes⟩ := ofEntries_eq_ok hok
  rw [hok, hbytes, List.map_injective_iff.mpr (fun _ _ => Except.ok.inj) hbodies]

/-- The encodings of some items, none of which is longer than all of them. -/
theorem forall₂_of_map_encode {encode : α → Except Error (List UInt8)} {P : α → List UInt8 → Prop}
    {items : List α} {bodies : List (List UInt8)} (hbodies : items.map encode = bodies.map .ok)
    (h : ∀ b ∈ items, ∀ body, encode b = .ok body → body.length ≤ bodies.flatten.length →
      P b body) : List.Forall₂ P items bodies := by
  induction items generalizing bodies with
  | nil =>
    cases bodies with
    | nil => exact .nil
    | cons body bodies => cases hbodies
  | cons b items ih =>
    cases bodies with
    | nil => cases hbodies
    | cons body bodies =>
      obtain ⟨hbody, hbodies⟩ := List.cons.inj hbodies
      rw [List.flatten_cons, List.length_append] at h
      refine .cons (h b List.mem_cons_self body hbody (Nat.le_add_right _ _)) ?_
      exact ih hbodies fun b' hb' body' hbody' hle =>
        h b' (List.mem_cons_of_mem _ hb') body' hbody' (Nat.le_trans hle (Nat.le_add_left _ _))

/-- Items that have an encoding each are a table if they are not too many. -/
theorem ofList_eq_ok {α : Type} {name : String} {encode : α → List UInt8} {items : List α}
    {bytes : List UInt8} : ofList name .two encode items = .ok bytes ↔
      items.length ≤ 65535 ∧ bytes = encodeCounted encode items := by
  have hentries : items.map (fun a => Except.ok (encode a))
      = ((items.map encode).map .ok : List (Except Error (List UInt8))) := List.map_map.symm
  unfold ofList encodeCounted
  rw [hentries, List.flatMap_def]
  constructor
  · intro h
    obtain ⟨bodies, hbodies, hlen, hbytes⟩ := ofEntries_eq_ok h
    cases List.map_injective_iff.mpr (fun _ _ => Except.ok.inj) hbodies
    rw [List.length_map] at hlen hbytes
    exact ⟨hlen, hbytes⟩
  · rintro ⟨hlen, rfl⟩
    have hall := @ofEntries_map_ok name .two (items.map encode) (by rwa [List.length_map])
    rwa [List.length_map] at hall

/-! ## One entry after the other -/

/-- Push some entries, going on after each that is refused. -/
def pushEach : List (Except Error (List UInt8)) → CountedTable →
    List (Except Error Unit) × CountedTable
  | [], t => ([], t)
  | entry :: entries, t =>
    (((push entry).exec t).1 :: (pushEach entries ((push entry).exec t).2).1,
      (pushEach entries ((push entry).exec t).2).2)

/-- What becomes of an entry that a table has room for. -/
def outcome (entry : Except Error (List UInt8)) : Except Error Unit := entry.map fun _ => ()

/-- The bytes of an entry; none if it has no encoding. -/
def body (entry : Except Error (List UInt8)) : List UInt8 :=
  match entry with
  | .ok bytes => bytes
  | .error _ => []

/-- A table with room counts the entry before it is known whether that has an encoding. -/
theorem Holds.exec_push (h : t.Holds front entries) (hroom : t.isFull = false)
    (entry : Except Error (List UInt8)) :
    ∃ t', (CountedTable.push entry).exec t = (outcome entry, t') ∧
      t'.Holds front (entries ++ [body entry]) ∧ t'.name = t.name ∧ t'.width = t.width := by
  cases entry with
  | ok bytes =>
    exact ⟨_, exec_push_of_room hroom bytes,
      (h.raiseCount hroom).extend (Buffer.keeps_append _ bytes) (Buffer.toList_append _ bytes),
      rfl, rfl⟩
  | error e =>
    have hpush : (CountedTable.push (.error e)).exec t = (.error e, t.raiseCount) :=
      Action.exec_bind_eq_error.mpr (.inr ⟨(), _, exec_beginEntry_of_room hroom, rfl⟩)
    exact ⟨_, hpush, h.raiseCount hroom, rfl, rfl⟩

theorem pushEach_of_full (hfull : t.isFull = true) (more : List (Except Error (List UInt8))) :
    pushEach more t = (List.replicate more.length (.error t.overflow), t) := by
  induction more with
  | nil => rfl
  | cons entry more ih => rw [pushEach, exec_push_of_full hfull, ih]; rfl

/-- A table takes as many entries as it has room for, and refuses the others. -/
theorem Holds.pushEach (h : t.Holds front entries) (more : List (Except Error (List UInt8)))
    {room : Nat} (hroom : t.count + room = t.width.limit) :
    ∃ t', CountedTable.pushEach more t
        = ((more.take room).map outcome
            ++ List.replicate (more.length - room) (.error t.overflow), t') ∧
      t'.Holds front (entries ++ (more.take room).map body) ∧ t'.width = t.width := by
  -- Induction on the entries: each of them takes up room until there is none.
  induction more generalizing t entries room with
  | nil =>
    refine ⟨t, ?_, ?_, rfl⟩
    · simp [CountedTable.pushEach]
    · simpa using h
  | cons entry more ih =>
    cases room with
    | zero =>
      have hfull : t.isFull = true := decide_eq_true (Nat.le_of_eq hroom.symm)
      refine ⟨t, pushEach_of_full hfull _, ?_, rfl⟩
      simpa using h
    | succ room =>
      have hnot : t.isFull = false := decide_eq_false (by omega)
      obtain ⟨t₁, hpush, hholds, hname, hwidth⟩ := h.exec_push hnot entry
      have hcount : t₁.count + room = t₁.width.limit := by
        have hold := h.count_eq
        have hnew := hholds.count_eq
        rw [List.length_append, List.length_singleton] at hnew
        rw [hwidth]
        omega
      have hoverflow : t₁.overflow = t.overflow := by rw [overflow, hname, hwidth]; rfl
      obtain ⟨t', hrest, hholds', hwidth'⟩ := ih hholds hcount
      refine ⟨t', ?_, ?_, hwidth'.trans hwidth⟩
      · rw [CountedTable.pushEach, hpush, hrest, hoverflow, List.length_cons,
          Nat.add_sub_add_right]
        rfl
      · rw [List.append_assoc] at hholds'
        exact hholds'

/-- How a new table takes some entries, any of which may have no encoding: all of them count, until
the table is full; the encodings of those that have one follow the count.  So the count is the
number of the entries behind it unless one that there was room for has no encoding. -/
structure PushSpec (name : String) (width : CountWidth) (buffer : Buffer)
    (entries : List (Except Error (List UInt8))) : Prop where
  outcomes_eq : (pushEach entries (start name width buffer)).1
    = (entries.take width.limit).map outcome
      ++ List.replicate (entries.length - width.limit) (.error (.tableOverflow name width.limit))
  size_eq : (pushEach entries (start name width buffer)).2.size = min width.limit entries.length
  encode_eq : (pushEach entries (start name width buffer)).2.encode
    = buffer.toList
      ++ (BigEndian.encode width.bytes (pushEach entries (start name width buffer)).2.size
        ++ (entries.take width.limit).flatMap body)
  size_eq_iff : (pushEach entries (start name width buffer)).2.size
      = ((pushEach entries (start name width buffer)).1.filter Except.isOk).length
    ↔ ∀ entry ∈ entries.take width.limit, entry.isOk
  full : ∀ (t : CountedTable) (entry : Except Error (List UInt8)), t.width.limit ≤ t.size →
    (push entry).exec t = (.error (.tableOverflow t.name t.width.limit), t)

theorem isOk_outcome (entry : Except Error (List UInt8)) : (outcome entry).isOk = entry.isOk := by
  cases entry <;> rfl

/-- The entries of a new table, behind anything that the buffer holds already. -/
theorem pushSpec_of_start (name : String) (width : CountWidth) (buffer : Buffer)
    (entries : List (Except Error (List UInt8))) : PushSpec name width buffer entries := by
  obtain ⟨t, hrun, hholds, hwidth⟩ := (holds_start name width buffer).pushEach entries
    (Nat.zero_add width.limit)
  have hsize : t.size = min width.limit entries.length := by
    rw [size, hholds.count_eq, List.nil_append, List.length_map, List.length_take]
  have hlist := hholds.toList_eq
  rw [← hholds.count_eq, hwidth, width_start, List.nil_append] at hlist
  refine ⟨by rw [hrun]; rfl, by rw [hrun]; exact hsize, ?_, ?_, fun t entry hfull => ?_⟩
  · rw [hrun, List.flatMap_def]
    exact hlist
  · rw [hrun, hsize]
    -- Only entries that there was room for can have been accepted.
    have hrefused : ∀ n, (List.replicate n (Except.error (start name width buffer).overflow :
        Except Error Unit)).filter Except.isOk = [] := by
      intro n
      simp [Except.isOk, Except.toBool]
    have haccepted : (((entries.take width.limit).map outcome).filter Except.isOk).length
        = ((entries.take width.limit).filter Except.isOk).length := by
      rw [List.filter_map, List.length_map]
      exact congrArg List.length (List.filter_congr fun entry _ => isOk_outcome entry)
    rw [List.filter_append, hrefused, List.append_nil, haccepted, ← List.length_take, eq_comm,
      List.length_filter_eq_length_iff]
  · exact exec_push_of_full (decide_eq_true hfull) entry

/-- A sequence that is too long is refused and has written nothing, and still it counts. -/
theorem overlong_sequence_counts :
    let entries := [encodeSequence (BigEndian.encode 1) (List.replicate 65536 0), .ok [7]]
    let result := pushEach entries (start "entries" .two .empty)
    result.1 = [.error (.sequenceTooLong 65536), .ok ()] ∧ result.2.size = 2 ∧
      result.2.encode = [0, 2, 7] := by
  have hlong : encodeSequence (BigEndian.encode 1) (List.replicate 65536 0)
      = .error (.sequenceTooLong 65536) := by
    unfold encodeSequence
    rw [List.length_replicate, if_neg (by decide)]
  simp only [hlong]
  exact ⟨rfl, rfl, rfl⟩

end CountedTable

end JvmClass
