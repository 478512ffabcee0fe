import JvmClass.Code.Listing
import Mathlib.Data.List.Forall2

/-!
# Reading bytes

A `Reader` takes what it reads off the front of some bytes.  `Reads r bytes a` says that it takes
exactly `bytes`, whatever follows them, and reads them as `a`; what a sequence of readers reads is
put together from what each of them does.  `Finds r P` is about the other direction: it says what
stood there if `r` has read something.  Readers give the grammar of what is written elsewhere.

## Key results

- `Reads.bind`, `Reads.times`, `Reads.counted`: readers in sequence
- `Reads.untilEnd`, `Reads.whole`: reading all of some bytes
- `reads_uint`, `reads_u2`, `reads_ref`: the fields of a class file
- `Finds.bind`, `Finds.times`, `Finds.counted`: what was there when something was read
-/

namespace JvmClass

-- Powers are those of the core library, also where Mathlib brings its own.
attribute [local instance (high)] instPowNat

/-! ## Splitting lists -/

theorem splitExactly_eq_some {α : Type} {n : Nat} {xs front back : List α} :
    splitExactly n xs = some (front, back) ↔ xs = front ++ back ∧ front.length = n := by
  unfold splitExactly
  rw [List.splitAt_eq]
  constructor
  · intro h
    simp only [] at h
    split at h
    · rename_i hlen
      cases h
      exact ⟨(List.take_append_drop n xs).symm, hlen⟩
    · cases h
  · rintro ⟨rfl, rfl⟩
    simp

theorem splitExactly_of_le {α : Type} {n : Nat} {xs : List α} (h : n ≤ xs.length) :
    splitExactly n xs = some (xs.take n, xs.drop n) :=
  splitExactly_eq_some.mpr ⟨(List.take_append_drop n xs).symm, List.length_take_of_le h⟩

theorem splitExactly_of_lt {α : Type} {n : Nat} {xs : List α} (h : xs.length < n) :
    splitExactly n xs = none := by
  rw [Option.eq_none_iff_forall_ne_some]
  rintro ⟨front, back⟩ hsplit
  obtain ⟨rfl, rfl⟩ := splitExactly_eq_some.mp hsplit
  rw [List.length_append] at h
  omega

/-! ## Readers -/

/-- Something that takes what it reads off the front of some bytes, if it is there. -/
abbrev Reader (α : Type) := StateT (List UInt8) Option α

namespace Reader

variable {α β : Type}

/-- Take `n` bytes as they are. -/
def take (n : Nat) : Reader (List UInt8) := fun bytes => splitExactly n bytes

/-- Take one byte. -/
def byte : Reader UInt8 := fun
  | [] => none
  | b :: rest => some (b, rest)

/-- Read a big-endian number of `width` bytes. -/
def uint (width : Nat) : Reader Nat := BigEndian.decode <$> take width

def u2 : Reader UInt16 := UInt16.ofNat <$> uint 2

/-- Read a reference to a constant. -/
def ref {kind : Tag} : Reader (Ref kind) := Ref.mk <$> u2

/-- Read a number of items. -/
def times : Nat → Reader α → Reader (List α)
  | 0, _ => pure []
  | n + 1, r => do
    let a ← r
    return a :: (← times n r)

/-- Read a two-byte count and so many items. -/
def counted (r : Reader α) : Reader (List α) := do
  let n ← uint 2
  times n r

/-- Read items until no bytes are left, at most `n` of them. -/
def untilEnd (r : Reader α) : (n : Nat) → List UInt8 → Option (List α)
  | _, [] => some []
  | 0, _ :: _ => none
  | n + 1, b :: bs => do
    let (a, rest) ← r.run (b :: bs)
    return a :: (← untilEnd r n rest)

/-- Read all of some bytes. -/
def whole (r : Reader α) (bytes : List UInt8) : Option α :=
  match r.run bytes with
  | some (a, []) => some a
  | _ => none

/-! ## What is read -/

/-- The reader takes exactly these bytes, whatever follows them, and reads them as `a`. -/
def Reads (r : Reader α) (bytes : List UInt8) (a : α) : Prop :=
  ∀ rest, r.run (bytes ++ rest) = some (a, rest)

theorem Reads.pure (a : α) : Reads (Pure.pure a) [] a := fun _ => rfl

theorem Reads.bind {r : Reader α} {k : α → Reader β} {xs ys : List UInt8} {a : α} {b : β}
    (hr : Reads r xs a) (hk : Reads (k a) ys b) : Reads (r >>= k) (xs ++ ys) b := by
  intro rest
  have hfirst : r.run (xs ++ (ys ++ rest)) = some (a, ys ++ rest) := hr _
  rw [List.append_assoc, StateT.run_bind, hfirst]
  exact hk rest

/-- A reader behind the last bytes takes none. -/
theorem Reads.bind_nil {r : Reader α} {k : α → Reader β} {bytes : List UInt8} {a : α} {b : β}
    (hr : Reads r bytes a) (hk : Reads (k a) [] b) : Reads (r >>= k) bytes b := by
  have hboth := hr.bind hk
  rwa [List.append_nil] at hboth

theorem Reads.map {r : Reader α} {bytes : List UInt8} {a : α} (h : Reads r bytes a) (f : α → β) :
    Reads (f <$> r) bytes (f a) := by
  intro rest
  rw [StateT.run_map, h rest]
  rfl

theorem reads_take {n : Nat} {bytes : List UInt8} (h : bytes.length = n) :
    Reads (take n) bytes bytes :=
  fun _ => splitExactly_eq_some.mpr ⟨rfl, h⟩

theorem reads_byte (b : UInt8) : Reads byte [b] b := fun _ => rfl

theorem reads_uint {width n : Nat} (h : n < 256 ^ width) :
    Reads (uint width) (BigEndian.encode width n) n := by
  have htake := reads_take (BigEndian.length_encode width n)
  have hmap := htake.map BigEndian.decode
  rwa [BigEndian.decode_encode_of_lt h] at hmap

theorem reads_u2 (n : UInt16) : Reads u2 (BigEndian.u2 n) n := by
  have hfield : Reads (uint 2) (BigEndian.u2 n) n.toNat := reads_uint n.toNat_lt
  have hmap := hfield.map UInt16.ofNat
  rwa [UInt16.ofNat_toNat] at hmap

theorem reads_ref {kind : Tag} (i : Ref kind) : Reads ref i.encode i := (reads_u2 i.slot).map Ref.mk

/-- Items that are read one by one are read in a row. -/
theorem Reads.times_of_forall₂ {r : Reader α} {items : List α} {bodies : List (List UInt8)}
    (h : List.Forall₂ (fun a body => Reads r body a) items bodies) :
    Reads (Reader.times items.length r) bodies.flatten items := by
  induction h with
  | nil => exact Reads.pure []
  | cons hfirst _ hrest =>
    rw [List.flatten_cons]
    exact hfirst.bind (hrest.bind_nil (Reads.pure _))

/-- The same for items that are written by one encoding. -/
theorem Reads.times {r : Reader α} {encode : α → List UInt8} {items : List α}
    (h : ∀ a ∈ items, Reads r (encode a) a) :
    Reads (times items.length r) (items.flatMap encode) items := by
  have hall : List.Forall₂ (fun a body => Reads r body a) items (items.map encode) := by
    rw [List.forall₂_map_right_iff]
    exact List.forall₂_same.mpr h
  rw [List.flatMap_def]
  exact Reads.times_of_forall₂ hall

theorem Reads.counted_of_forall₂ {r : Reader α} {items : List α} {bodies : List (List UInt8)}
    (hlen : items.length ≤ 65535)
    (h : List.Forall₂ (fun a body => Reads r body a) items bodies) :
    Reads (Reader.counted r) (BigEndian.encode 2 items.length ++ bodies.flatten) items :=
  (reads_uint (by omega)).bind (Reads.times_of_forall₂ h)

theorem Reads.counted {r : Reader α} {encode : α → List UInt8} {items : List α}
    (hlen : items.length ≤ 65535) (h : ∀ a ∈ items, Reads r (encode a) a) :
    Reads (counted r) (BigEndian.encode 2 items.length ++ items.flatMap encode) items :=
  (reads_uint (by omega)).bind (Reads.times h)

/-- Items that are not empty are read up to the last. -/
theorem Reads.untilEnd_of_forall₂ {r : Reader α} {items : List α} {bodies : List (List UInt8)}
    {n : Nat} (h : List.Forall₂ (fun a body => Reads r body a ∧ body ≠ []) items bodies)
    (hn : items.length ≤ n) : untilEnd r n bodies.flatten = some items := by
  induction h generalizing n with
  | nil => cases n <;> rfl
  | @cons a body items bodies hbody _ ih =>
    obtain ⟨hfirst, hne⟩ := hbody
    -- The reader looks whether there are bytes left, and those of an item are.
    obtain ⟨b, bs, hbs⟩ := List.exists_cons_of_ne_nil hne
    rw [List.length_cons] at hn
    obtain ⟨n, rfl⟩ : ∃ m, n = m + 1 := ⟨n - 1, by omega⟩
    have hrun := hfirst bodies.flatten
    rw [hbs, List.cons_append] at hrun
    rw [List.flatten_cons, hbs, List.cons_append, Reader.untilEnd, hrun]
    show (do return a :: (← Reader.untilEnd r n bodies.flatten)) = _
    rw [ih (by omega)]
    rfl

/-- Items that are not empty are no more than their bytes. -/
theorem Reads.length_le_length_flatten {r : Reader α} {items : List α}
    {bodies : List (List UInt8)}
    (h : List.Forall₂ (fun a body => Reads r body a ∧ body ≠ []) items bodies) :
    items.length ≤ bodies.flatten.length := by
  induction h with
  | nil => exact Nat.le_refl 0
  | cons hbody _ ih =>
    have hpos := List.length_pos_iff.mpr hbody.2
    rw [List.flatten_cons, List.length_append, List.length_cons]
    omega

theorem Reads.untilEnd {r : Reader α} {encode : α → List UInt8} {items : List α} {n : Nat}
    (h : ∀ a ∈ items, Reads r (encode a) a ∧ encode a ≠ []) (hn : items.length ≤ n) :
    untilEnd r n (items.flatMap encode) = some items := by
  have hall : List.Forall₂ (fun a body => Reads r body a ∧ body ≠ []) items
      (items.map encode) := by
    rw [List.forall₂_map_right_iff]
    exact List.forall₂_same.mpr h
  rw [List.flatMap_def]
  exact Reads.untilEnd_of_forall₂ hall hn

theorem Reads.whole {r : Reader α} {bytes : List UInt8} {a : α} (h : Reads r bytes a) :
    whole r bytes = some a := by
  have hrun := h []
  rw [List.append_nil] at hrun
  rw [Reader.whole, hrun]

theorem whole_eq_some {r : Reader α} {bytes : List UInt8} {a : α} :
    whole r bytes = some a ↔ r.run bytes = some (a, []) := by
  unfold whole
  split
  · rename_i b hrun
    simp [hrun]
  · rename_i hne
    simp only [reduceCtorEq, false_iff]
    exact hne a

/-! ## What was there -/

/-- Whatever the reader makes `a` of, it took bytes off the front that `P` holds of. -/
def Finds (r : Reader α) (P : α → List UInt8 → Prop) : Prop :=
  ∀ bytes a rest, r.run bytes = some (a, rest) → ∃ front, bytes = front ++ rest ∧ P a front

theorem Finds.imp {r : Reader α} {P Q : α → List UInt8 → Prop} (h : Finds r P)
    (hPQ : ∀ a front, P a front → Q a front) : Finds r Q := by
  intro bytes a rest hrun
  obtain ⟨front, hbytes, hP⟩ := h bytes a rest hrun
  exact ⟨front, hbytes, hPQ a front hP⟩

theorem finds_failure {P : α → List UInt8 → Prop} : Finds failure P := nofun

theorem finds_pure {a : α} {P : α → List UInt8 → Prop} (h : P a []) : Finds (Pure.pure a) P := by
  intro bytes b rest hrun
  cases hrun
  exact ⟨[], rfl, h⟩

theorem Finds.bind {r : Reader α} {k : α → Reader β} {P : α → List UInt8 → Prop}
    {Q : β → List UInt8 → Prop} (h : Finds r P)
    (hk : ∀ a xs, P a xs → Finds (k a) fun b ys => Q b (xs ++ ys)) : Finds (r >>= k) Q := by
  intro bytes b rest hrun
  rw [StateT.run_bind] at hrun
  obtain ⟨⟨a, mid⟩, ha, hb⟩ := Option.bind_eq_some_iff.mp hrun
  obtain ⟨xs, rfl, hP⟩ := h bytes a mid ha
  obtain ⟨ys, rfl, hQ⟩ := hk a xs hP mid b rest hb
  exact ⟨xs ++ ys, (List.append_assoc xs ys rest).symm, hQ⟩

theorem Finds.map {r : Reader α} {P : α → List UInt8 → Prop} {Q : β → List UInt8 → Prop}
    (h : Finds r P) {f : α → β} (hf : ∀ a front, P a front → Q (f a) front) :
    Finds (f <$> r) Q := by
  rw [← bind_pure_comp]
  refine h.bind fun a front ha => finds_pure ?_
  rw [List.append_nil]
  exact hf a front ha

theorem finds_take (n : Nat) : Finds (take n) fun bytes front => front = bytes := by
  intro bytes front rest hrun
  obtain ⟨rfl, -⟩ := splitExactly_eq_some.mp hrun
  exact ⟨front, rfl, rfl⟩

theorem finds_byte : Finds byte fun b front => front = [b] := by
  intro bytes b rest hrun
  cases bytes with
  | nil => cases hrun
  | cons b bytes =>
    cases hrun
    exact ⟨[b], rfl, rfl⟩

theorem finds_uint (width : Nat) : Finds (uint width) fun n front =>
    n < 256 ^ width ∧ front = BigEndian.encode width n := by
  intro bytes n rest hrun
  obtain ⟨⟨front, mid⟩, htake, hn⟩ := Option.bind_eq_some_iff.mp hrun
  obtain ⟨rfl, rfl⟩ := splitExactly_eq_some.mp htake
  cases hn
  exact ⟨front, rfl, BigEndian.decode_lt front, (BigEndian.encode_decode front).symm⟩

theorem finds_u2 : Finds u2 fun n front => front = BigEndian.u2 n := by
  unfold u2
  rw [← bind_pure_comp]
  refine (finds_uint 2).bind fun n front ⟨hlt, hfront⟩ => finds_pure ?_
  have hn : (UInt16.ofNat n).toNat = n := by
    rw [UInt16.toNat_ofNat']
    omega
  rw [List.append_nil, hfront, BigEndian.u2, hn]

theorem finds_ref {kind : Tag} : Finds (ref : Reader (Ref kind)) fun i front => front = i.encode := by
  unfold ref
  rw [← bind_pure_comp]
  refine finds_u2.bind fun n front hfront => finds_pure ?_
  rw [List.append_nil, hfront]
  rfl

/-- Items that are read one by one stand in a row. -/
theorem Finds.times {r : Reader α} {P : α → List UInt8 → Prop} (h : Finds r P) (n : Nat) :
    Finds (Reader.times n r) fun items front => items.length = n ∧
      ∃ bodies : List (List UInt8), front = bodies.flatten ∧ List.Forall₂ P items bodies := by
  induction n with
  | zero => exact finds_pure ⟨rfl, [], rfl, .nil⟩
  | succ n ih =>
    refine h.bind fun a body hbody => ih.bind fun items front hitems => finds_pure ?_
    obtain ⟨hlen, bodies, rfl, hbodies⟩ := hitems
    refine ⟨congrArg Nat.succ hlen, body :: bodies, ?_, .cons hbody hbodies⟩
    rw [List.append_nil, List.flatten_cons]

theorem Finds.counted {r : Reader α} {P : α → List UInt8 → Prop} (h : Finds r P) :
    Finds (Reader.counted r) fun items front => items.length ≤ 65535 ∧
      ∃ bodies : List (List UInt8),
        front = BigEndian.encode 2 items.length ++ bodies.flatten ∧
          List.Forall₂ P items bodies := by
  refine (finds_uint 2).bind fun n head hhead => (h.times n).imp fun items front hitems => ?_
  obtain ⟨hlt, rfl⟩ := hhead
  obtain ⟨rfl, bodies, rfl, hbodies⟩ := hitems
  exact ⟨Nat.le_of_lt_succ hlt, bodies, rfl, hbodies⟩

theorem flatten_eq_flatMap {encode : α → List UInt8} {items : List α} {bodies : List (List UInt8)}
    (h : List.Forall₂ (fun a body => body = encode a) items bodies) :
    bodies.flatten = items.flatMap encode := by
  have hbodies : items.map encode = bodies := by
    rw [← List.forall₂_eq_eq_eq, List.forall₂_map_left_iff]
    exact h.imp fun _ _ hbody => hbody.symm
  rw [List.flatMap_def, hbodies]

/-- The same when each item is the only one with its bytes. -/
theorem Finds.times_encode {r : Reader α} {encode : α → List UInt8}
    (h : Finds r fun a front => front = encode a) (n : Nat) :
    Finds (Reader.times n r) fun items front =>
      items.length = n ∧ front = items.flatMap encode := by
  refine (h.times n).imp fun items front hitems => ?_
  obtain ⟨hlen, bodies, rfl, hbodies⟩ := hitems
  exact ⟨hlen, flatten_eq_flatMap hbodies⟩

theorem Finds.counted_encode {r : Reader α} {encode : α → List UInt8}
    (h : Finds r fun a front => front = encode a) :
    Finds (Reader.counted r) fun items front => items.length ≤ 65535 ∧
      front = BigEndian.encode 2 items.length ++ items.flatMap encode := by
  refine h.counted.imp fun items front hitems => ?_
  obtain ⟨hlen, bodies, rfl, hbodies⟩ := hitems
  exact ⟨hlen, congrArg _ (flatten_eq_flatMap hbodies)⟩

end Reader

end JvmClass
