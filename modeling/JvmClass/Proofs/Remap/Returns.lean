import JvmClass.Proofs.Remap.Code
import JvmClass.Proofs.Remap.Scanner

/-!
# Reading along a cursor returns

A scanner keeps its range as long as the attribute does, which is no longer than a signed word
counts: then no position on the way and no difference of positions leaves the range of its
operation.  `Returns n m` relates a program to an action.  From any cursor with at most `n` bytes
left the program returns, with the outcome of the action, and if it succeeds with at most `m` bytes
left.

The two numbers carry the recursion through nested values, where a tag leaves one byte less for what
it announces; everything else leaves no more bytes than it has found.

## Key results

- `Returns.bind`, `Returns.times`, `Returns.counted`: programs in sequence
- `returns_field`, `returns_bytes`, `returns_finish`: the cursor stays in its range
- `returns_frame`: every difference in a frame is taken from what is no smaller
- `returns_nested`, `returns_elementValue`: values return, however deep they are nested
-/

namespace JvmClass

namespace Cursor

/-- The number of bytes that are still to be read. -/
def left (c : Cursor) : Nat := c.bytes.length - c.position

/-- The cursor has not passed the end, and no place in the bytes is too far for a signed word. -/
structure InRange (c : Cursor) : Prop where
  position_le : c.position ≤ c.bytes.length
  length_lt : c.bytes.length < 9223372036854775808

end Cursor

namespace Scanner

open Checked

variable {α β : Type} {n m l : Nat}

/-- The scanner as a remapper: what is left of the attribute, and the size of the whole. -/
def remapper (s : Scanner) : Remapper :=
  ⟨⟨s.cursor.name, s.cursor.bytes.length, s.cursor.bytes.drop s.cursor.position⟩, s.output⟩

/-- A program has returned as an action has: with the same result and the same input left, at most
`m` bytes of it, or with the same error and the same output. -/
inductive Agrees (m : Nat) :
    Option (Except Error α × Scanner) → Except Error α × Remapper → Prop
  | ok {a : α} {s : Scanner} (hrange : s.cursor.InRange) (hleft : s.cursor.left ≤ m) :
    Agrees m (some (.ok a, s)) (.ok a, s.remapper)
  | error {e : Error} {s : Scanner} {r : Remapper} (hout : s.output = r.output) :
    Agrees m (some (.error e, s)) (.error e, r)

/-- From at most `n` bytes left, the program returns as the action does, with at most `m` bytes. -/
def Returns (n m : Nat) (prog : Checked Scanner α) (act : Action Error Remapper α) : Prop :=
  ∀ s : Scanner, s.cursor.InRange → s.cursor.left ≤ n →
    Agrees m (prog.exec s) (act.exec s.remapper)

/-! ## Composition -/

section

variable {prog : Checked Scanner α} {act : Action Error Remapper α}
  {k : α → Checked Scanner β} {k' : α → Action Error Remapper β}

theorem Agrees.mono {x : Option (Except Error α × Scanner)} {y : Except Error α × Remapper}
    (h : Agrees m x y) (hm : m ≤ l) : Agrees l x y := by
  cases h with
  | ok hrange hleft => exact .ok hrange (by omega)
  | error hout => exact .error hout

/-- Bytes that are left may be left out of account. -/
theorem Returns.mono (h : Returns n m prog act) (hm : m ≤ l) : Returns n l prog act :=
  fun s hs hn => (h s hs hn).mono hm

theorem returns_pure (a : α) : Returns n n (pure a) (pure a) :=
  fun _ hs hn => .ok hs hn

theorem returns_throw (e : Error) : Returns n m (throw e : Checked Scanner α) (throw e) :=
  fun _ _ _ => .error rfl

/-- What comes second only has to return on results of the first part. -/
theorem Returns.bind_of_ok (h : Returns n m prog act)
    (hk : ∀ a, (∃ r r', act.exec r = (.ok a, r')) → Returns m l (k a) (k' a)) :
    Returns n l (prog >>= k) (act >>= k') := by
  intro s hs hn
  have hfirst := h s hs hn
  rw [Checked.exec_bind, Action.exec_bind]
  generalize hprog : prog.exec s = x, hact : act.exec s.remapper = y at hfirst ⊢
  cases hfirst with
  | ok hrange hleft => exact hk _ ⟨_, _, hact⟩ _ hrange hleft
  | error hout => exact .error hout

theorem Returns.bind (h : Returns n m prog act) (hk : ∀ a, Returns m l (k a) (k' a)) :
    Returns n l (prog >>= k) (act >>= k') :=
  h.bind_of_ok fun a _ => hk a

theorem Returns.map (h : Returns n m prog act) (f : α → β) :
    Returns n m (f <$> prog) (f <$> act) := by
  rw [← bind_pure_comp, ← bind_pure_comp]
  exact h.bind fun _ => returns_pure _

theorem Returns.mapM {f : β → Checked Scanner α} {f' : β → Action Error Remapper α}
    (h : ∀ b, Returns n n (f b) (f' b)) (bs : List β) : Returns n n (bs.mapM f) (bs.mapM f') := by
  induction bs with
  | nil =>
    rw [List.mapM_nil, List.mapM_nil]
    exact returns_pure []
  | cons b bs ih =>
    rw [List.mapM_cons, List.mapM_cons]
    exact (h b).bind fun _ => ih.bind fun _ => returns_pure _

theorem Returns.times (h : Returns n n prog act) (count : Nat) :
    Returns n n (Checked.times count prog) (Action.times count act) :=
  Returns.mapM (fun _ => h) _

theorem Returns.discard (h : Returns n m prog act) :
    Returns n m (discard prog) (discard act) :=
  h.map fun _ => ()

end

/-! ## Reading bytes -/

theorem returns_fail (fault : AttributeFault) :
    Returns n m (fail fault : Checked Scanner α) (Remapper.fail fault) :=
  fun _ _ _ => .error rfl

/-- The cursor can be moved on over the next bytes. -/
theorem Agrees.moveTo {s : Scanner} (hs : s.cursor.InRange) {count : Nat}
    (hcount : count ≤ s.cursor.left) (hm : s.cursor.left - count ≤ m) (a : α) :
    Agrees m (some (.ok a, { s with cursor.position := s.cursor.position + count }))
      (.ok a, ⟨⟨s.cursor.name, s.cursor.bytes.length,
        s.cursor.bytes.drop (s.cursor.position + count)⟩, s.output⟩) := by
  have := hs.position_le
  have := hs.length_lt
  unfold Cursor.left at hcount hm
  have hrange : Cursor.InRange { s.cursor with position := s.cursor.position + count } :=
    ⟨by dsimp only; omega, hs.length_lt⟩
  have hleft : Cursor.left { s.cursor with position := s.cursor.position + count } ≤ m := by
    unfold Cursor.left
    dsimp only
    omega
  exact .ok hrange hleft

theorem returns_field (n width : Nat) :
    Returns n (n - width) (field width) (Remapper.field width) := by
  intro s hs hn
  have hleft : (s.cursor.bytes.drop s.cursor.position).length = s.cursor.left := List.length_drop
  have hposition := hs.position_le
  have hlength := hs.length_lt
  unfold field Remapper.field
  rw [Checked.exec_bind, exec_get, Action.exec_ofFn]
  dsimp only [remapper]
  -- A field that is cut off is reported at the end of the attribute by both.
  by_cases hwidth : s.cursor.left < width
  · rw [splitExactly_of_lt (by omega), if_pos (by omega)]
    exact .error rfl
  · have hadd : s.cursor.position + width < 18446744073709551616 := by
      unfold Cursor.left at hwidth
      omega
    rw [splitExactly_of_le (by omega), if_neg (by omega), add_eq_pure hadd, pure_bind,
      List.drop_drop]
    exact Agrees.moveTo hs (by omega) (by omega) _

theorem returns_bytes (n count : Nat) :
    Returns n (n - count) (bytes count) (Remapper.bytes count) := by
  intro s hs hn
  have hleft : (s.cursor.bytes.drop s.cursor.position).length = s.cursor.left := List.length_drop
  have hposition := hs.position_le
  have hlength := hs.length_lt
  unfold bytes Remapper.bytes
  rw [Checked.exec_bind, exec_get, Action.exec_ofFn]
  dsimp only [remapper]
  rw [slice?_eq_splitExactly _ _ _ hposition]
  by_cases hcount : s.cursor.left < count
  · -- The place where the bytes should start is what is left, seen from the end.
    have hstart : s.cursor.bytes.length - (s.cursor.bytes.drop s.cursor.position).length
        = s.cursor.position := by
      rw [List.length_drop]
      omega
    rw [splitExactly_of_lt (by omega), Option.map_none, ite_self, hstart]
    exact .error rfl
  · have hadd : s.cursor.position + count < 18446744073709551616 := by
      unfold Cursor.left at hcount
      omega
    rw [splitExactly_of_le (by omega), if_pos hadd, Option.map_some, List.drop_drop]
    dsimp only
    rw [add_eq_pure hadd, pure_bind]
    exact Agrees.moveTo hs (by omega) (by omega) _

theorem returns_u1 (n : Nat) : Returns n (n - 1) u1 Remapper.u1 := (returns_field n 1).map _

theorem returns_byte (n : Nat) : Returns n n u1 Remapper.u1 := (returns_u1 n).mono (Nat.sub_le _ _)

theorem returns_u2 (n : Nat) : Returns n n u2 Remapper.u2 :=
  ((returns_field n 2).map _).mono (Nat.sub_le _ _)

theorem returns_u4 (n : Nat) : Returns n n u4 Remapper.u4 :=
  (returns_field n 4).mono (Nat.sub_le _ _)

theorem returns_finish (n : Nat) : Returns n n finish Remapper.finish := by
  intro s hs hn
  have hleft : (s.cursor.bytes.drop s.cursor.position).length = s.cursor.left := List.length_drop
  unfold finish Remapper.finish
  rw [Checked.exec_bind, exec_get, Action.exec_inspect]
  dsimp only [remapper]
  rw [sub_eq_pure hs.position_le, pure_bind, hleft]
  cases hcount : s.cursor.left with
  | zero =>
    rw [show s.cursor.bytes.length - s.cursor.position = 0 from hcount, if_neg (by omega)]
    exact .ok hs hn
  | succ left =>
    rw [show s.cursor.bytes.length - s.cursor.position = left + 1 from hcount, if_pos (by omega)]
    exact .error rfl

theorem Returns.counted {prog : Checked Scanner α} {act : Action Error Remapper α}
    (h : Returns n n prog act) : Returns n n (counted prog) (Remapper.counted act) :=
  (returns_u2 n).bind fun _ => h.times _

theorem returns_onOutput (act : Action Error AttributeWriter α) :
    Returns n n (onOutput act) (Remapper.onOutput act) := by
  intro s hs hn
  unfold Remapper.onOutput
  rw [Action.exec_onPart]
  unfold onOutput Checked.exec
  dsimp only [remapper]
  -- What happens to the output leaves the cursor alone.
  rcases act.exec s.output with ⟨e | a, output⟩
  · exact .error rfl
  · exact .ok hs hn

theorem returns_ref (kind : Tag) (source : View) :
    Returns n n (ref kind source) (Remapper.ref kind source) :=
  (returns_u2 n).bind fun _ => returns_onOutput _

theorem returns_ofExcept (r : Except Error α) :
    Returns n n (Checked.ofExcept r) (Action.ofExcept r) := by
  cases r with
  | error e => exact returns_throw e
  | ok a => exact returns_pure a

/-- The cursor stays while another one is used. -/
theorem Agrees.putBack {x : Option (Except Error α × Scanner)} {y : Except Error α × Remapper}
    (h : Agrees m x y) {s : Scanner} (hs : s.cursor.InRange) (hn : s.cursor.left ≤ n) :
    Agrees n (x.map fun (r, s') => (r, ⟨s.cursor, s'.output⟩))
      (y.1, ⟨s.remapper.input, y.2.output⟩) := by
  cases h with
  | ok => exact .ok (s := ⟨s.cursor, _⟩) hs hn
  | error hout => exact .error hout

/-- Another attribute is read to its end on its own. -/
theorem Returns.reading {prog : Checked Scanner α} {act : Action Error Remapper α} {name : String}
    {info : List UInt8} (hinfo : info.length < 9223372036854775808)
    (h : Returns info.length info.length prog act) :
    Returns n n (reading ⟨name, info, 0⟩ prog) (Remapper.reading (.start name info) act) := by
  intro s hs hn
  have hwhole : Returns info.length info.length (prog >>= fun a => finish >>= fun _ => pure a)
      (act >>= fun a => Remapper.finish >>= fun _ => pure a) :=
    h.bind fun a => (returns_finish _).bind fun _ => returns_pure a
  exact (hwhole ⟨⟨name, info, 0⟩, s.output⟩ ⟨Nat.zero_le _, hinfo⟩ (Nat.le_refl _)).putBack hs hn

/-! ## Stack map frames -/

theorem returns_verificationType (source : View) :
    Returns n n (verificationType source) (VerificationType.read source) := by
  refine (returns_byte n).bind fun tag => ?_
  split
  · exact returns_pure _
  · exact returns_pure _
  · exact returns_pure _
  · exact returns_pure _
  · exact returns_pure _
  · exact returns_pure _
  · exact returns_pure _
  · exact (returns_ref _ _).bind fun _ => returns_pure _
  · exact (returns_u2 n).bind fun _ => returns_pure _
  · -- No tag is left but unknown ones.
    try split
    all_goals first
      | contradiction
      | exact returns_fail _

theorem returns_frame (source : View) :
    Returns n n (frame source) (StackMapFrame.read source) := by
  have hword := returns_u2 n
  have htype := returns_verificationType (n := n) source
  refine (returns_byte n).bind fun kind => ?_
  by_cases h64 : kind < 64
  · simp only [if_pos h64]
    exact returns_pure _
  -- A difference is taken only where the kind has been compared to what it is taken from.
  have hsub : (subByte kind 64 : Checked Scanner UInt8) = pure (kind - 64) :=
    subByte_eq_pure (UInt8.not_lt.mp h64)
  simp only [if_neg h64, hsub, pure_bind]
  by_cases h128 : kind < 128
  · simp only [if_pos h128]
    exact htype.bind fun _ => returns_pure _
  simp only [if_neg h128]
  by_cases h247 : kind < 247
  · simp only [if_pos h247]
    exact returns_fail _
  simp only [if_neg h247]
  by_cases hone : kind = 247
  · simp only [if_pos hone]
    exact hword.bind fun _ => htype.bind fun _ => returns_pure _
  simp only [if_neg hone]
  by_cases h251 : kind < 251
  · have hsub : (subByte 251 kind : Checked Scanner UInt8) = pure (251 - kind) :=
      subByte_eq_pure (UInt8.le_of_lt h251)
    simp only [if_pos h251, hsub, pure_bind]
    exact hword.bind fun _ => returns_pure _
  have hsub : (subByte kind 251 : Checked Scanner UInt8) = pure (kind - 251) :=
    subByte_eq_pure (UInt8.not_lt.mp h251)
  simp only [if_neg h251, hsub, pure_bind]
  by_cases hsame : kind = 251
  · simp only [if_pos hsame]
    exact hword.bind fun _ => returns_pure _
  simp only [if_neg hsame]
  by_cases h255 : kind < 255
  · simp only [if_pos h255]
    exact hword.bind fun _ => (htype.times _).bind fun _ => returns_pure _
  · simp only [if_neg h255]
    exact hword.bind fun _ => htype.counted.bind fun _ => htype.counted.bind fun _ =>
      returns_pure _

/-! ## Annotations -/

theorem Returns.annotationEntry {source : View} {value : Action Error Remapper ElementValue}
    (h : Returns n n source.elementValue value) :
    Returns n n source.annotationEntry (AnnotationEntry.readWith source value) := by
  rw [View.annotationEntry, AnnotationEntry.readWith]
  refine (returns_ref _ _).bind fun _ => Returns.bind ?_ fun _ => returns_pure _
  exact Returns.counted ((returns_ref _ _).bind fun _ => h.bind fun _ => returns_pure _)

/-- Values are nested no deeper than there are bytes left, for a tag stands before each. -/
theorem returns_nested (source : View) {depth : Nat} (h : n ≤ depth) :
    Returns n n source.elementValue (ElementValue.readNested source depth) := by
  induction depth generalizing n with
  | zero =>
    -- Without bytes left the tag cannot be read.
    intro s hs hn
    have hrest : s.cursor.bytes.drop s.cursor.position = [] := by
      rw [List.drop_eq_nil_iff]
      unfold Cursor.left at hn
      omega
    have hfail : Remapper.u1.exec s.remapper
        = (.error (s.remapper.input.malformed (.truncated s.remapper.input.size)), s.remapper) := by
      unfold Remapper.u1 Remapper.field remapper
      rw [Action.exec_map, Action.exec_ofFn, hrest]
      rfl
    have htag := returns_byte n s hs hn
    rw [hfail] at htag
    rw [View.elementValue, Checked.exec_bind]
    generalize u1.exec s = x at htag ⊢
    cases htag with
    | error hout => exact .error hout
  | succ depth ih =>
    -- Behind the tag there is a byte less.
    have hvalue : Returns (n - 1) (n - 1) source.elementValue
        (ElementValue.readNested source depth) := ih (by omega)
    have htext := returns_ref (n := n - 1) .utf8 source
    suffices hbehind : Returns n (n - 1) source.elementValue
        (ElementValue.readNested source (depth + 1)) from hbehind.mono (Nat.sub_le _ _)
    rw [View.elementValue, ElementValue.readNested]
    refine (returns_u1 n).bind fun tag => ?_
    cases ElementKind.ofByte? tag with
    | some kind => exact (returns_ref _ _).bind fun _ => returns_pure _
    | none =>
      by_cases henum : tag = enumTag
      · simp only [if_pos henum]
        exact htext.bind fun _ => htext.bind fun _ => returns_pure _
      simp only [if_neg henum]
      by_cases hnested : tag = nestedTag
      · simp only [if_pos hnested]
        exact hvalue.annotationEntry.bind fun _ => returns_pure _
      simp only [if_neg hnested]
      by_cases harray : tag = arrayTag
      · simp only [if_pos harray]
        exact hvalue.counted.bind fun _ => returns_pure _
      · simp only [if_neg harray]
        exact returns_fail _

theorem returns_elementValue (source : View) :
    Returns n n source.elementValue (ElementValue.read source) := by
  intro s hs hn
  have hdepth : s.cursor.left ≤ s.cursor.bytes.length := Nat.sub_le _ _
  exact (returns_nested source hdepth s hs (Nat.le_refl _)).mono hn

theorem returns_localRange : Returns n n localRange LocalRange.read :=
  (returns_u2 n).bind fun _ => (returns_u2 n).bind fun _ => (returns_u2 n).bind fun _ =>
    returns_pure _

theorem returns_targetInfo (targetType : UInt8) :
    Returns n n (targetInfo targetType) (TargetInfo.read targetType) := by
  have hbyte := returns_byte n
  have hword := returns_u2 n
  unfold targetInfo TargetInfo.read
  split
  case h_1 | h_2 | h_9 => exact hbyte.bind fun _ => returns_pure _
  case h_4 | h_5 => exact hbyte.bind fun _ => hbyte.bind fun _ => returns_pure _
  case h_6 | h_7 | h_8 => exact returns_pure _
  case h_11 | h_12 => exact returns_localRange.counted.bind fun _ => returns_pure _
  case h_3 | h_10 | h_13 | h_14 | h_15 | h_16 | h_17 => exact hword.bind fun _ => returns_pure _
  case h_18 | h_19 | h_20 | h_21 | h_22 =>
    exact hword.bind fun _ => hbyte.bind fun _ => returns_pure _
  case h_23 =>
    -- No kind of target is left but unknown ones.
    try split
    all_goals first
      | contradiction
      | exact returns_fail _

theorem returns_typeAnnotationEntry (source : View) :
    Returns n n (typeAnnotationEntry source) (TypeAnnotationEntry.read source) := by
  refine (returns_byte n).bind fun targetType => ?_
  refine (returns_targetInfo targetType).bind fun target => (returns_byte n).bind fun count => ?_
  have hstep : Returns n n typePathStep TypePathStep.read :=
    (returns_byte n).bind fun _ => (returns_byte n).bind fun _ => returns_pure _
  refine (hstep.times _).bind fun path => ?_
  exact (returns_elementValue source).annotationEntry.bind fun _ => returns_pure _

end Scanner

end JvmClass
