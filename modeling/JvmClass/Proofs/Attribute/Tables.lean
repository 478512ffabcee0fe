import JvmClass.Proofs.Attribute.Callback
import JvmClass.Proofs.Attribute.Growth
import JvmClass.Proofs.CountedTable

/-!
# Tables of attributes hold what callbacks add

`Built w front xs` says that the buffer of a writer ends in a table of attributes behind `front`,
and that these show `xs`.  `Adds w xs w'` says that going from `w` to `w'` adds `xs` to whatever the
table shows, lets the pool grow, and leaves all older reservations of the buffer where they are.
The last part is what makes tables nest: the count of an outer table stands in the front of an inner
one.

Every call links one attribute into the table if it succeeds and leaves the table alone otherwise:
`AddsOne` says so of an action.

## Key results

- `Links.adds`, `Leaves.adds`: what becomes of the table
- `adds_addBuffer`: an attribute is added as a whole or not at all
- `addsOne_addNamed`, `addsOne_add`: attributes without others inside
- `exec_add`, `exec_add_error`: what decides whether one is added
-/

namespace JvmClass

variable {α : Type}

namespace AttributeWriter

/-! ## Tables -/

/-- The buffer ends in a table of attributes behind the front, and they say what is given. -/
def Built (w : AttributeWriter) (front : List UInt8) (xs : List AttributeContent) : Prop :=
  w.table.Carries front RawAttribute.encode RawAttribute.Fits w.pool.Shows xs

/-- Going from the first writer to the second one adds the given attributes and nothing else. -/
structure Adds (w : AttributeWriter) (xs : List AttributeContent) (w' : AttributeWriter) :
    Prop where
  grows : w.pool.Grows w'.pool
  keeps : w.table.buffer.Keeps w'.table.buffer
  built : ∀ front ys, w.Built front ys → w'.Built front (ys ++ xs)

/-- A table says the same when the pool has grown. -/
theorem Built.of_grows {w : AttributeWriter} {front : List UInt8} {xs : List AttributeContent}
    (h : w.Built front xs) {p : Pool} (hp : w.pool.Grows p) : Built ⟨p, w.table⟩ front xs :=
  h.mono fun _ _ hx => hx.mono hp.textsStay

theorem adds_nil (w : AttributeWriter) : w.Adds [] w where
  grows := .refl
  keeps := .refl _
  built front ys h := by rwa [List.append_nil]

theorem Adds.trans {w w' w'' : AttributeWriter} {xs ys : List AttributeContent}
    (h : w.Adds xs w') (h' : w'.Adds ys w'') : w.Adds (xs ++ ys) w'' where
  grows := trans_of Pool.Grows h.grows h'.grows
  keeps := h.keeps.trans h'.keeps
  built front zs hzs := by
    have hboth := h'.built front _ (h.built front zs hzs)
    rwa [List.append_assoc] at hboth

/-- Constants that are added to the pool add no attributes. -/
theorem adds_of_grows {w : AttributeWriter} {p : Pool} (h : w.pool.Grows p) :
    w.Adds [] ⟨p, w.table⟩ where
  grows := h
  keeps := .refl _
  built front ys hys := by
    rw [List.append_nil]
    exact hys.of_grows h

/-! ## Single attributes -/

/-- From the first writer to the second one a single attribute, which says what is given, was linked
into the table, behind its name and its length. -/
structure Links (w : AttributeWriter) (x : AttributeContent) (w' : AttributeWriter) : Prop where
  grows : w.pool.Grows w'.pool
  isFull_eq : w.table.isFull = false
  exists_info : ∃ (name : Ref .utf8) (info : Buffer), info.size ≤ maxInfo ∧
    w'.table = w.table.link (name.encode ++ BigEndian.encode 4 info.size) info ∧
    w'.pool.Shows x ⟨name, info.toList⟩

/-- From the first writer to the second one the table was left alone. -/
structure Leaves (w w' : AttributeWriter) : Prop where
  grows : w.pool.Grows w'.pool
  table_eq : w'.table = w.table

theorem Leaves.adds {w w' : AttributeWriter} (h : w.Leaves w') : w.Adds [] w' := by
  have hadds := adds_of_grows h.grows
  rwa [← h.table_eq] at hadds

theorem Leaves.trans {w w' w'' : AttributeWriter} (h : w.Leaves w') (h' : w'.Leaves w'') :
    w.Leaves w'' where
  grows := trans_of Pool.Grows h.grows h'.grows
  table_eq := h'.table_eq.trans h.table_eq

/-- Whatever was left alone before counts as untouched. -/
theorem Leaves.links {w w' w'' : AttributeWriter} {x : AttributeContent} (h : w.Leaves w')
    (h' : w'.Links x w'') : w.Links x w'' where
  grows := trans_of Pool.Grows h.grows h'.grows
  isFull_eq := by rw [← h.table_eq, h'.isFull_eq]
  exists_info := by rw [← h.table_eq]; exact h'.exists_info

/-- What is linked in as an attribute is one in the sense of the grammar: the length has room for
the size of the buffer, which is that of its bytes put together. -/
theorem encode_eq_of_size {name : Ref .utf8} {info : Buffer} :
    RawAttribute.encode ⟨name, info.toList⟩
      = name.encode ++ BigEndian.encode 4 info.size ++ info.toList := by
  rw [RawAttribute.encode, info.length_toList, List.append_assoc]

theorem fits_of_size {name : Ref .utf8} {info : Buffer} (h : info.size ≤ maxInfo) :
    RawAttribute.Fits ⟨name, info.toList⟩ := by
  show info.toList.length ≤ maxInfo
  rwa [info.length_toList]

theorem Links.adds {w w' : AttributeWriter} {x : AttributeContent} (h : w.Links x w') :
    w.Adds [x] w' := by
  obtain ⟨name, info, hsize, htable, hshows⟩ := h.exists_info
  refine ⟨h.grows, ?_, fun front ys hys => ?_⟩
  · rw [htable]
    exact w.table.keeps_link _ _
  · have hgrown := hys.of_grows h.grows
    unfold Built
    rw [htable]
    exact CountedTable.Carries.link hgrown h.isFull_eq encode_eq_of_size (fits_of_size hsize) hshows

/-- The action adds the given attribute if it succeeds, and leaves the table alone if it fails. -/
structure AddsOne (w : AttributeWriter) (act : Action Error AttributeWriter Unit)
    (x : AttributeContent) : Prop where
  of_ok : ∀ {w'}, act.exec w = (.ok (), w') → w.Links x w'
  of_error : ∀ {e w'}, act.exec w = (.error e, w') → w.Leaves w'

/-- A buffer is linked into the table as an attribute, with its size as the length. -/
theorem adds_addBuffer {w : AttributeWriter} {name : Ref .utf8} {info : Buffer}
    {x : AttributeContent} (hshows : w.pool.Shows x ⟨name, info.toList⟩) :
    w.AddsOne (addBuffer name info) x where
  of_ok {w'} h := by
    unfold addBuffer at h
    rw [Action.exec_ofFn] at h
    cases hrefusal : refusal? w.table info with
    | some e =>
      rw [hrefusal] at h
      cases h
    | none =>
      rw [hrefusal] at h
      obtain ⟨-, rfl⟩ := Prod.mk.inj h
      unfold refusal? at hrefusal
      split at hrefusal
      · cases hrefusal
      rename_i hroom
      split at hrefusal
      · cases hrefusal
      rename_i hsize
      have hroom : w.table.isFull = false := by simpa using hroom
      exact ⟨.refl, hroom, name, info, by omega, rfl, hshows⟩
  of_error {e w'} h := by
    unfold addBuffer at h
    rw [Action.exec_ofFn] at h
    split at h
    · obtain ⟨-, rfl⟩ := Prod.mk.inj h
      exact ⟨.refl, rfl⟩
    · cases h

theorem adds_addRaw {w : AttributeWriter} {name : Ref .utf8} {info : List UInt8}
    {x : AttributeContent} (hshows : w.pool.Shows x ⟨name, info⟩) :
    w.AddsOne (addRaw name info) x := by
  have hlist : (Buffer.empty.append info).toList = info := by simp
  exact adds_addBuffer (by rwa [hlist])

/-- An operation of the pool comes first. -/
theorem AddsOne.bind_onPool {w : AttributeWriter} {act : Action Error Pool α}
    {k : α → Action Error AttributeWriter Unit} {x : AttributeContent}
    (hact : w.pool.Grows (act.exec w.pool).2)
    (hk : ∀ a q, act.exec w.pool = (.ok a, q) → AddsOne ⟨q, w.table⟩ (k a) x) :
    w.AddsOne (onPool act >>= k) x := by
  have hleaves : w.Leaves ⟨(act.exec w.pool).2, w.table⟩ := ⟨hact, rfl⟩
  constructor
  · intro w' h
    obtain ⟨a, w₁, hfirst, hrest⟩ := Action.exec_bind_eq_ok.mp h
    obtain ⟨ha, rfl⟩ := Prod.mk.inj hfirst
    exact hleaves.links ((hk a _ (Prod.ext ha rfl)).of_ok hrest)
  · intro e w' h
    rcases Action.exec_bind_eq_error.mp h with hfirst | ⟨a, w₁, hfirst, hrest⟩
    · obtain ⟨-, rfl⟩ := Prod.mk.inj hfirst
      exact hleaves
    · obtain ⟨ha, rfl⟩ := Prod.mk.inj hfirst
      exact hleaves.trans ((hk a _ (Prod.ext ha rfl)).of_error hrest)

/-- A look at the writer comes first. -/
theorem AddsOne.bind_inspect {w : AttributeWriter} {f : AttributeWriter → Except Error α}
    {k : α → Action Error AttributeWriter Unit} {x : AttributeContent}
    (hk : ∀ a, f w = .ok a → w.AddsOne (k a) x) : w.AddsOne (Action.inspect f >>= k) x where
  of_ok h := by
    obtain ⟨a, w₁, hfirst, hrest⟩ := Action.exec_bind_eq_ok.mp h
    obtain ⟨ha, rfl⟩ := Prod.mk.inj hfirst
    exact (hk a ha).of_ok hrest
  of_error h := by
    rcases Action.exec_bind_eq_error.mp h with hfirst | ⟨a, w₁, hfirst, hrest⟩
    · obtain ⟨-, rfl⟩ := Prod.mk.inj hfirst
      exact ⟨.refl, rfl⟩
    · obtain ⟨ha, rfl⟩ := Prod.mk.inj hfirst
      exact (hk a ha).of_error hrest

/-- The name of the attribute comes first. -/
theorem AddsOne.bind_utf8 {w : AttributeWriter} (hinv : w.pool.Inv) {s : String}
    {k : Ref .utf8 → Action Error AttributeWriter Unit} {x : AttributeContent}
    (hk : ∀ i q, w.pool.Grows q → q.text i = .ok s → AddsOne ⟨q, w.table⟩ (k i) x) :
    w.AddsOne (onPool (Pool.utf8 s) >>= k) x := by
  refine AddsOne.bind_onPool ((Pool.places_internUtf8 _ _).grows w.pool) fun i q hi => ?_
  obtain ⟨hgrows, htext⟩ := Pool.yields_utf8 hinv s i q hi
  exact hk i q hgrows htext

theorem addsOne_addNamed {w : AttributeWriter} (hinv : w.pool.Inv) (name : String)
    (info : List UInt8) : w.AddsOne (addNamed name info) (.named name info) := by
  refine AddsOne.bind_utf8 hinv fun i q _ hname => ?_
  have hshows : q.Shows (.named name info) ⟨i, info⟩ := .named hname
  exact adds_addRaw hshows

/-- A predefined attribute shows what its bytes say, whichever way this is put. -/
theorem addsOne_add_of_shows {w : AttributeWriter} (hinv : w.pool.Inv) (a : Attribute)
    {x : AttributeContent}
    (hx : ∀ i info q, w.pool.Grows q → q.text i = .ok a.name → a.encode q.version = .ok info →
      q.Shows x ⟨i, info⟩) : w.AddsOne (add a) x := by
  refine AddsOne.bind_utf8 hinv fun i q hgrows hname => ?_
  refine AddsOne.bind_inspect fun info hinfo => ?_
  exact adds_addRaw (hx i info q hgrows hname hinfo)

theorem addsOne_add {w : AttributeWriter} (hinv : w.pool.Inv) (a : Attribute) :
    w.AddsOne (add a) (.predefined a) :=
  addsOne_add_of_shows hinv a fun _ _ _ _ hname hinfo => .predefined hname hinfo

/-- The name of an attribute comes first, and then its bytes. -/
theorem exec_add_of_name {a : Attribute} {w : AttributeWriter} {i : Ref .utf8} {q : Pool}
    (hname : (Pool.utf8 a.name).exec w.pool = (.ok i, q)) :
    (add a).exec w
      = (do addRaw i (← Action.ofExcept (a.encode q.version)) :
          Action Error AttributeWriter Unit).exec ⟨q, w.table⟩ := by
  have hfirst : (onPool (Pool.utf8 a.name)).exec w = (.ok i, ⟨q, w.table⟩) := by
    unfold onPool
    rw [Action.exec_onPart, hname]
  unfold add
  simp only [Action.exec_bind, hfirst, Action.exec_inspect, Action.exec_ofExcept]

/-- An attribute with an encoding is added behind its name if there is room for it. -/
theorem exec_add {a : Attribute} {w : AttributeWriter} {i : Ref .utf8} {q : Pool}
    {info : List UInt8} (hname : (Pool.utf8 a.name).exec w.pool = (.ok i, q))
    (hinfo : a.encode q.version = .ok info)
    (hroom : refusal? w.table (Buffer.empty.append info) = none) :
    (add a).exec w = (.ok (), ⟨q, w.table.link
      (i.encode ++ BigEndian.encode 4 (Buffer.empty.append info).size)
      (Buffer.empty.append info)⟩) := by
  rw [exec_add_of_name hname, hinfo]
  refine Action.exec_bind_eq_ok.mpr ⟨info, ⟨q, w.table⟩, rfl, ?_⟩
  unfold addRaw addBuffer
  rw [Action.exec_ofFn, hroom]

/-- An attribute without an encoding is refused behind its name. -/
theorem exec_add_error {a : Attribute} {w : AttributeWriter} {i : Ref .utf8} {q : Pool} {e : Error}
    (hname : (Pool.utf8 a.name).exec w.pool = (.ok i, q)) (hinfo : a.encode q.version = .error e) :
    (add a).exec w = (.error e, ⟨q, w.table⟩) := by
  rw [exec_add_of_name hname, hinfo]
  exact Action.exec_bind_eq_error.mpr (.inl rfl)

/-- There is room for an attribute in a table that is not full, if its length can say how many bytes
it has. -/
theorem refusal?_eq_none {table : CountedTable} {info : List UInt8} (hroom : table.isFull = false)
    (hsize : info.length ≤ maxInfo) : refusal? table (Buffer.empty.append info) = none := by
  have hlen : (Buffer.empty.append info).size = info.length := by
    rw [← Buffer.length_toList, Buffer.toList_append, Buffer.toList_empty, List.nil_append]
  unfold refusal?
  rw [hroom, hlen, if_neg Bool.false_ne_true, if_neg (Nat.not_lt.mpr hsize)]

theorem addsOne_addSignature {w : AttributeWriter} (hinv : w.pool.Inv) (text : String) :
    w.AddsOne (addSignature text) (.text "Signature" text) := by
  refine AddsOne.bind_utf8 hinv fun j q hgrows htext => ?_
  refine addsOne_add_of_shows (hgrows.inv hinv) _ fun i info p hp hname hinfo => ?_
  cases hinfo
  exact .text hname (hp.text_eq htext)

theorem addsOne_addSourceFile {w : AttributeWriter} (hinv : w.pool.Inv) (name : String) :
    w.AddsOne (addSourceFile name) (.text "SourceFile" name) := by
  refine AddsOne.bind_utf8 hinv fun j q hgrows htext => ?_
  refine addsOne_add_of_shows (hgrows.inv hinv) _ fun i info p hp hname hinfo => ?_
  cases hinfo
  exact .text hname (hp.text_eq htext)

end AttributeWriter

end JvmClass
