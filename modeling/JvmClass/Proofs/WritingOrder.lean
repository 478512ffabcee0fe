import JvmClass.Proofs.CountedTable

/-!
# The order in which entries are written

A table can stand in an entry of another one.  Writing such tables begins one entry after the other,
each of them before the entries of the tables inside it, and stops at the first entry that the count
of its table has no room for.  `TableEntry` is an entry in this order, `ofItems` lists those of a
table, and `Stops xs r` says of a result that it is refused for the first entry too many among `xs`,
and for nothing else.

## Key results

- `Stops.bind`, `stops_ofEntries`, `stops_ofList`: results that are put together
- `Stops.exists_error_iff`: a result is refused if and only if some entry is one too many
- `exists_excess_ofItems`: this is so if a table has more items than its count can say, or if it is
  so inside one of them
- `CountedTable.ofList_eq_error`: a table of items that all have an encoding
-/

namespace JvmClass

variable {α β : Type}

/-- An entry of a table: the name of the table, the width of its count, and the number of entries
that stand before this one. -/
structure TableEntry where
  table : String
  width : CountWidth
  before : Nat
  deriving DecidableEq, Repr

namespace TableEntry

/-- Has the count of the table no room for the entry? -/
def isExcess (x : TableEntry) : Bool := x.width.limit ≤ x.before

/-- What is said of the table then. -/
def refusal (x : TableEntry) : Error := .tableOverflow x.table x.width.limit

/-- The first entry that is one too many. -/
def firstExcess? (xs : List TableEntry) : Option TableEntry := xs.find? isExcess

/-- The entries of a table from the `n`-th on, each followed by what is written inside it. -/
def ofItems (table : String) (width : CountWidth) (inside : α → List TableEntry) :
    (n : Nat) → List α → List TableEntry
  | _, [] => []
  | n, a :: as => ⟨table, width, n⟩ :: (inside a ++ ofItems table width inside (n + 1) as)

/-- The result is refused for the first of the entries that is one too many. -/
def Stops (xs : List TableEntry) (r : Except Error α) : Prop :=
  ∀ e, r = .error e ↔ ∃ x, firstExcess? xs = some x ∧ e = x.refusal

variable {xs ys : List TableEntry} {r : Except Error α}

theorem stops_ok (a : α) : Stops [] (.ok a) := by
  intro e
  simp [firstExcess?]

/-- Where nothing is one too many there is a result. -/
theorem Stops.firstExcess?_eq_none (h : Stops xs r) {a : α} (hr : r = .ok a) :
    firstExcess? xs = none := by
  cases hx : firstExcess? xs with
  | none => rfl
  | some x => cases hr.symm.trans ((h x.refusal).mpr ⟨x, hx, rfl⟩)

/-- What is written later decides only if nothing before was one too many. -/
theorem Stops.bind {k : α → Except Error β} (h : Stops xs r) (hk : ∀ a, Stops ys (k a)) :
    Stops (xs ++ ys) (r >>= k) := by
  intro e
  have happend : firstExcess? (xs ++ ys) = (firstExcess? xs).or (firstExcess? ys) :=
    List.find?_append
  rw [happend, Action.except_bind_eq_error]
  cases hr : r with
  | ok a =>
    rw [h.firstExcess?_eq_none hr, Option.none_or, ← hk a e]
    simp
  | error e' =>
    obtain ⟨x, hx, rfl⟩ := (h e').mp hr
    rw [hx, Option.some_or]
    simp [eq_comm]

theorem Stops.map (h : Stops xs r) (f : α → β) : Stops xs (r >>= fun a => pure (f a)) := by
  have hall := h.bind fun a => stops_ok (f a)
  rwa [List.append_nil] at hall

/-- An entry that there is room for decides nothing. -/
theorem Stops.cons {x : TableEntry} (hx : x.isExcess = false) (h : Stops xs r) :
    Stops (x :: xs) r := by
  have hfirst : firstExcess? (x :: xs) = firstExcess? xs :=
    List.find?_cons_of_neg (by rw [hx]; decide)
  intro e
  rw [hfirst]
  exact h e

/-- Entries are pushed up to the first one that is one too many, in this table or inside it. -/
theorem stops_forM_push {encode : α → Except Error (List UInt8)} {inside : α → List TableEntry}
    {items : List α} (h : ∀ a ∈ items, Stops (inside a) (encode a)) (t : CountedTable) :
    Stops (ofItems t.name t.width inside t.count items)
      (((items.map encode).forM CountedTable.push).exec t).1 := by
  -- Induction on the items: each of them raises the count if there is room for it.
  induction items generalizing t with
  | nil => exact stops_ok ()
  | cons a items ih =>
    obtain ⟨ha, hitems⟩ := List.forall_mem_cons.mp h
    rw [ofItems]
    show Stops _ ((CountedTable.push (encode a) >>= fun _ =>
      (items.map encode).forM CountedTable.push).exec t).1
    rw [Action.exec_bind]
    cases hfull : t.isFull with
    | true =>
      intro e
      have hfirst : firstExcess? (⟨t.name, t.width, t.count⟩ ::
          (inside a ++ ofItems t.name t.width inside (t.count + 1) items))
          = some ⟨t.name, t.width, t.count⟩ := List.find?_cons_of_pos hfull
      rw [CountedTable.exec_push_of_full hfull, hfirst]
      simp [CountedTable.overflow, refusal, eq_comm]
    | false =>
      refine Stops.cons hfull ?_
      have hrest : ∀ body, Stops (ofItems t.name t.width inside (t.count + 1) items)
          (((items.map encode).forM CountedTable.push).exec
            { t.raiseCount with buffer := t.raiseCount.buffer.append body }).1 :=
        fun body => ih hitems _
      have hall := ha.bind hrest
      cases hbody : encode a with
      | ok body =>
        rw [hbody] at hall
        rw [CountedTable.exec_push_of_room hfull]
        exact hall
      | error e =>
        rw [hbody] at hall
        have hpush : (CountedTable.push (.error e)).exec t = (.error e, t.raiseCount) :=
          Action.exec_bind_eq_error.mpr
            (.inr ⟨(), _, CountedTable.exec_beginEntry_of_room hfull, rfl⟩)
        rw [hpush]
        exact hall

/-- A whole table is refused for the first entry that is one too many, in it or inside it. -/
theorem stops_ofEntries {encode : α → Except Error (List UInt8)} {inside : α → List TableEntry}
    {items : List α} (name : String) (width : CountWidth)
    (h : ∀ a ∈ items, Stops (inside a) (encode a)) :
    Stops (ofItems name width inside 0 items)
      (CountedTable.ofEntries name width (items.map encode)) := by
  have hpush := stops_forM_push h (.start name width .empty)
  intro e
  refine Iff.trans ?_ (hpush e)
  unfold CountedTable.ofEntries
  rcases ((items.map encode).forM CountedTable.push).exec (.start name width .empty)
    with ⟨e' | u, t⟩ <;> simp

/-- Items that all have an encoding have no tables inside. -/
theorem stops_ofList {encode : α → List UInt8} (name : String) (width : CountWidth)
    (items : List α) : Stops (ofItems name width (fun _ => []) 0 items)
      (CountedTable.ofList name width encode items) :=
  stops_ofEntries name width fun a _ => stops_ok (encode a)

/-! ## Whether there is an entry too many -/

theorem Stops.exists_error_iff (h : Stops xs r) :
    (∃ e, r = .error e) ↔ ∃ x ∈ xs, x.isExcess = true := by
  have hsome : (∃ x ∈ xs, x.isExcess = true) ↔ ∃ x, firstExcess? xs = some x := by
    unfold firstExcess?
    rw [← List.find?_isSome, Option.isSome_iff_exists]
  rw [hsome]
  constructor
  · rintro ⟨e, he⟩
    obtain ⟨x, hx, -⟩ := (h e).mp he
    exact ⟨x, hx⟩
  · rintro ⟨x, hx⟩
    exact ⟨x.refusal, (h _).mpr ⟨x, hx, rfl⟩⟩

/-- There is an entry too many in a table, or inside one of its items. -/
theorem exists_excess_ofItems {table : String} {width : CountWidth}
    {inside : α → List TableEntry} {n : Nat} {items : List α} (hn : n ≤ width.limit) :
    (∃ x ∈ ofItems table width inside n items, x.isExcess = true) ↔
      width.limit < n + items.length ∨ ∃ a ∈ items, ∃ x ∈ inside a, x.isExcess = true := by
  induction items generalizing n with
  | nil => simp [ofItems, hn]
  | cons a items ih =>
    have hsplit : (∃ x ∈ ofItems table width inside n (a :: items), x.isExcess = true) ↔
        width.limit ≤ n ∨ (∃ x ∈ inside a, x.isExcess = true) ∨
          ∃ x ∈ ofItems table width inside (n + 1) items, x.isExcess = true := by
      simp [ofItems, isExcess, or_and_right, exists_or]
    have hmember : (∃ b ∈ a :: items, ∃ x ∈ inside b, x.isExcess = true) ↔
        (∃ x ∈ inside a, x.isExcess = true) ∨ ∃ b ∈ items, ∃ x ∈ inside b, x.isExcess = true := by
      simp [or_and_right, exists_or]
    rw [hsplit, hmember, List.length_cons]
    by_cases hfull : width.limit ≤ n
    · exact ⟨fun _ => .inl (by omega), fun _ => .inl hfull⟩
    · have hlength : width.limit < n + 1 + items.length ↔ width.limit < n + (items.length + 1) := by
        omega
      rw [ih (by omega), hlength, or_iff_right hfull]
      exact or_left_comm

/-- Where items have no tables inside, their number decides. -/
theorem exists_excess_ofItems_nil (table : String) (width : CountWidth) (items : List α) :
    (∃ x ∈ ofItems table width (fun _ => []) 0 items, x.isExcess = true) ↔
      width.limit < items.length := by
  rw [exists_excess_ofItems (Nat.zero_le _), Nat.zero_add]
  simp

/-- All entries of such a table are refused alike. -/
theorem refusal_of_mem_ofItems {table : String} {width : CountWidth} {n : Nat} {items : List α}
    {x : TableEntry} (h : x ∈ ofItems table width (fun _ => []) n items) :
    x.refusal = .tableOverflow table width.limit := by
  induction items generalizing n with
  | nil => cases h
  | cons a items ih =>
    rcases List.mem_cons.mp h with rfl | hrest
    · rfl
    · exact ih hrest

end TableEntry

open TableEntry (stops_ofList exists_excess_ofItems_nil refusal_of_mem_ofItems)

/-- Items that have an encoding each are refused as a table if they are too many. -/
theorem CountedTable.ofList_eq_error {name : String} {encode : α → List UInt8} {items : List α}
    {e : Error} : ofList name .two encode items = .error e ↔
      65535 < items.length ∧ e = .tableOverflow name 65535 := by
  have hstops : TableEntry.Stops _ (ofList name .two encode items) := stops_ofList name .two items
  have hlong : (∃ e, ofList name .two encode items = .error e) ↔ 65535 < items.length :=
    hstops.exists_error_iff.trans (exists_excess_ofItems_nil name .two items)
  have hsame : ∀ e, ofList name .two encode items = .error e → e = .tableOverflow name 65535 := by
    intro e he
    obtain ⟨x, hx, rfl⟩ := (hstops e).mp he
    exact refusal_of_mem_ofItems (List.mem_of_find?_eq_some hx)
  constructor
  · intro h
    exact ⟨hlong.mp ⟨e, h⟩, hsame e h⟩
  · rintro ⟨h, rfl⟩
    obtain ⟨e, he⟩ := hlong.mpr h
    rwa [← hsame e he]

end JvmClass
