import JvmClass.Proofs.Pool.Sharing
import JvmClass.Proofs.Remap.Composition

/-!
# Moving code once more

Everything that moving code adds to a pool is shared.  So when the same code is moved to the same
pool once more, whatever was added to the pool in between, every constant and every name is found
where it was, nothing is added, and the bytes are the same.

`Repeats act` says this of a part of the work: when it succeeds, it succeeds from the same input and
table on every pool that grows from the one it ended with, with the same result, and leaves that
pool alone.  It holds of everything that only reads, of everything that interns with sharing, and of
sequences of such parts.

## Key results

- `Plain.repeats`, `repeats_onPool`: reading and interning
- `Repeats.bind`, `Repeats.counted`, `Repeats.reading`: how parts are put together
- `repeats_add`: an attribute is added with the same name and the same bytes
- `repeats_body`: the code of a method
- `exec_code_again`: moving code once more
-/

namespace JvmClass

open AttributeWriter (onPool)

variable {α β : Type}

namespace Remapper

/-- The same remapper with another pool. -/
def withPool (r : Remapper) (p : Pool) : Remapper := ⟨r.input, ⟨p, r.output.table⟩⟩

/-- When the action succeeds, it does the same on every pool that grows from where it ended, without
changing that pool. -/
def Repeats (act : Action Error Remapper α) : Prop :=
  ∀ r r' a, r.output.pool.Inv → act.exec r = (.ok a, r') →
    r.output.pool.Grows r'.output.pool ∧
      ∀ q, r'.output.pool.Grows q → act.exec (r.withPool q) = (.ok a, r'.withPool q)

/-! ## How parts are put together -/

section Parts

variable {act : Action Error Remapper α} {k : α → Action Error Remapper β}

/-- What only reads does not see the pool. -/
theorem Plain.repeats (h : Plain act) : Repeats act := by
  intro r r' a _ hrun
  obtain ⟨hout, hdoes⟩ := h r a r' hrun
  rw [hout]
  refine ⟨.refl, fun q _ => ?_⟩
  obtain ⟨stop, hexec, hstop⟩ := hdoes ⟨q, r.output.table⟩
  have hstop : stop = r'.input := hstop a rfl
  subst hstop
  rw [withPool, withPool, hout]
  exact hexec

theorem repeats_pure (a : α) : Repeats (pure a) := (plain_pure a).repeats

theorem repeats_fail (fault : AttributeFault) : Repeats (fail fault : Action Error Remapper α) :=
  (plain_fail fault).repeats

/-- A result that does not depend on anything. -/
theorem repeats_ofExcept (r : Except Error α) : Repeats (Action.ofExcept r) :=
  (plain_inspect fun _ => r).repeats

theorem Repeats.bind (h : Repeats act) (hk : ∀ a, Repeats (k a)) : Repeats (act >>= k) := by
  intro r r' b hinv hrun
  obtain ⟨a, r₁, ha, hb⟩ := Action.exec_bind_eq_ok.mp hrun
  obtain ⟨hgrows, hagain⟩ := h r r₁ a hinv ha
  obtain ⟨hgrows', hagain'⟩ := hk a r₁ r' b (hgrows.inv hinv) hb
  refine ⟨trans_of Pool.Grows hgrows hgrows', fun q hq => ?_⟩
  have hfirst := hagain q (trans_of Pool.Grows hgrows' hq)
  exact Action.exec_bind_eq_ok.mpr ⟨a, r₁.withPool q, hfirst, hagain' q hq⟩

theorem Repeats.map (h : Repeats act) (f : α → β) : Repeats (f <$> act) := by
  rw [← bind_pure_comp]
  exact h.bind fun _ => repeats_pure _

theorem Repeats.discard (h : Repeats act) : Repeats (discard act) := by
  intro r r' u hinv hrun
  obtain ⟨a, ha⟩ := Action.exec_discard_eq_ok.mp hrun
  obtain ⟨hgrows, hagain⟩ := h r r' a hinv ha
  exact ⟨hgrows, fun q hq => Action.exec_discard_eq_ok.mpr ⟨a, hagain q hq⟩⟩

theorem repeats_mapM {f : α → Action Error Remapper β} (hf : ∀ a, Repeats (f a)) (as : List α) :
    Repeats (as.mapM f) := by
  induction as with
  | nil => rw [List.mapM_nil]; exact repeats_pure _
  | cons a as ih =>
    rw [List.mapM_cons]
    exact (hf a).bind fun _ => ih.bind fun _ => repeats_pure _

theorem Repeats.times (h : Repeats act) (n : Nat) : Repeats (Action.times n act) :=
  repeats_mapM (fun _ => h) _

theorem Repeats.counted (h : Repeats act) : Repeats (counted act) :=
  plain_u2.repeats.bind fun _ => h.times _

theorem repeats_finish : Repeats finish := by
  refine Plain.repeats fun r u r' h => ?_
  obtain ⟨rfl, hrest⟩ := finish_ok h
  exact ⟨rfl, does_finish hrest⟩

/-- Another attribute that is read in between is the same each time. -/
theorem Repeats.reading (h : Repeats act) (input : Input) : Repeats (reading input act) := by
  have hall : Repeats (do let a ← act; finish; return a : Action Error Remapper α) :=
    h.bind fun _ => repeats_finish.bind fun _ => repeats_pure _
  intro r r' a hinv hrun
  unfold Remapper.reading at hrun ⊢
  rw [Action.exec_onPart] at hrun
  obtain ⟨hok, rfl⟩ := Prod.mk.inj hrun
  obtain ⟨hgrows, hagain⟩ := hall ⟨input, r.output⟩ _ a hinv (Prod.ext hok rfl)
  refine ⟨hgrows, fun q hq => ?_⟩
  rw [Action.exec_onPart]
  exact congrArg (fun x : Except Error _ × Remapper => (x.1, (⟨r.input, x.2.output⟩ : Remapper)))
    (hagain q hq)

end Parts

/-! ## What is done to the output -/

theorem onOutput_bind (act : Action Error AttributeWriter α)
    (k : α → Action Error AttributeWriter β) :
    onOutput (act >>= k) = onOutput act >>= fun a => onOutput (k a) := by
  funext r
  show (onOutput (act >>= k)).exec r = (onOutput act >>= fun a => onOutput (k a)).exec r
  unfold onOutput
  rw [Action.exec_bind, Action.exec_onPart, Action.exec_onPart, Action.exec_bind]
  rcases act.exec r.output with ⟨_ | _, _⟩ <;> rfl

/-- What is interned with sharing is found again. -/
theorem repeats_onPool {act : Action Error Pool α} (h : Pool.Repeats act) :
    Repeats (onOutput (onPool act)) := by
  intro r r' a hinv hrun
  unfold onOutput onPool at hrun ⊢
  rw [Action.exec_onPart, Action.exec_onPart] at hrun
  obtain ⟨hok, rfl⟩ := Prod.mk.inj hrun
  obtain ⟨hgrows, hagain⟩ := h _ _ a hinv (Prod.ext hok rfl)
  refine ⟨hgrows, fun q hq => ?_⟩
  rw [Action.exec_onPart, Action.exec_onPart]
  exact congrArg (fun x : Except Error _ × Pool =>
    (x.1, (⟨r.input, ⟨x.2, r.output.table⟩⟩ : Remapper))) (hagain q hq)

/-- Whether an attribute fits into the table does not depend on the pool. -/
theorem repeats_addBuffer (name : Ref .utf8) (info : Buffer) :
    Repeats (onOutput (AttributeWriter.addBuffer name info)) := by
  intro r r' u _ hrun
  unfold onOutput AttributeWriter.addBuffer at hrun ⊢
  rw [Action.exec_onPart, Action.exec_ofFn] at hrun
  cases hrefusal : AttributeWriter.refusal? r.output.table info with
  | some e =>
    simp only [hrefusal] at hrun
    cases hrun
  | none =>
    simp only [hrefusal] at hrun
    cases hrun
    refine ⟨.refl, fun q _ => ?_⟩
    rw [Action.exec_onPart, Action.exec_ofFn]
    simp only [withPool, hrefusal]

/-- The bytes of an attribute depend on the version of the pool only. -/
theorem repeats_encode (a : Attribute) :
    Repeats (onOutput (Action.inspect fun w => a.encode w.pool.version)) := by
  intro r r' info _ hrun
  obtain ⟨hok, rfl⟩ := Prod.mk.inj hrun
  refine ⟨.refl, fun q hq => Prod.ext ?_ rfl⟩
  have hversion : q.version = r.output.pool.version := hq.version_eq
  show a.encode q.version = .ok info
  rw [hversion]
  exact hok

/-- An attribute is added with the same name and the same bytes. -/
theorem repeats_add (a : Attribute) : Repeats (onOutput (AttributeWriter.add a)) := by
  unfold AttributeWriter.add
  rw [onOutput_bind]
  refine (repeats_onPool (Pool.repeats_utf8 a.name)).bind fun name => ?_
  rw [onOutput_bind]
  exact (repeats_encode a).bind fun info => repeats_addBuffer name _

theorem repeats_addNamed (name : String) (info : List UInt8) :
    Repeats (onOutput (AttributeWriter.addNamed name info)) := by
  unfold AttributeWriter.addNamed
  rw [onOutput_bind]
  exact (repeats_onPool (Pool.repeats_utf8 name)).bind fun name => repeats_addBuffer name _

theorem repeats_copy (source : View) (i : Slot) : Repeats (copy source i) :=
  repeats_onPool (Pool.repeats_copy source i)

theorem repeats_ref (kind : Tag) (source : View) : Repeats (ref kind source) :=
  plain_u2.repeats.bind fun i => repeats_onPool (Pool.repeats_copyAs kind source i)

end Remapper

open Remapper

/-! ## Attributes of the code -/

theorem VerificationType.repeats_read (source : View) : Repeats (read source) := by
  refine plain_u1.repeats.bind fun tag => ?_
  split
  case h_8 => exact (repeats_ref _ _).bind fun _ => repeats_pure _
  case h_9 => exact plain_u2.repeats.bind fun _ => repeats_pure _
  case h_10 => exact repeats_fail _
  all_goals exact repeats_pure _

theorem StackMapFrame.repeats_read (source : View) : Repeats (read source) := by
  have htype := VerificationType.repeats_read source
  refine plain_u1.repeats.bind fun kind => ?_
  split
  · exact repeats_pure _
  split
  · exact htype.bind fun _ => repeats_pure _
  split
  · exact repeats_fail _
  split
  · exact plain_u2.repeats.bind fun _ => htype.bind fun _ => repeats_pure _
  split
  · exact plain_u2.repeats.bind fun _ => repeats_pure _
  split
  · exact plain_u2.repeats.bind fun _ => repeats_pure _
  split
  · exact plain_u2.repeats.bind fun _ => (htype.times _).bind fun _ => repeats_pure _
  · refine plain_u2.repeats.bind fun _ => htype.counted.bind fun _ => ?_
    exact htype.counted.bind fun _ => repeats_pure _

theorem AnnotationEntry.repeats_readWith (source : View)
    {value : Action Error Remapper ElementValue} (h : Repeats value) :
    Repeats (readWith source value) := by
  have hpair : Repeats (do
      let name ← ref .utf8 source
      return .mk name (← value) : Action Error Remapper ElementPair) :=
    (repeats_ref _ _).bind fun _ => h.bind fun _ => repeats_pure _
  exact (repeats_ref _ _).bind fun _ => hpair.counted.bind fun _ => repeats_pure _

theorem ElementValue.repeats_readNested (source : View) (depth : Nat) :
    Repeats (readNested source depth) := by
  induction depth with
  | zero =>
    exact Plain.repeats (plain_inspect fun input => .error (input.malformed (.truncated input.size)))
  | succ depth ih =>
    refine plain_u1.repeats.bind fun tag => ?_
    split
    · exact (repeats_ref _ _).bind fun _ => repeats_pure _
    · split
      · exact (repeats_ref _ _).bind fun _ => (repeats_ref _ _).bind fun _ => repeats_pure _
      split
      · exact (AnnotationEntry.repeats_readWith source ih).bind fun _ => repeats_pure _
      split
      · exact ih.counted.bind fun _ => repeats_pure _
      · exact repeats_fail _

theorem AnnotationEntry.repeats_read (source : View) : Repeats (read source) := by
  have hsize : Repeats (Action.inspect fun r => .ok r.input.size) :=
    Plain.repeats (plain_inspect fun input => .ok input.size)
  exact repeats_readWith source (hsize.bind fun size => ElementValue.repeats_readNested source size)

theorem TypeAnnotationEntry.repeats_read (source : View) : Repeats (read source) := by
  refine plain_u1.repeats.bind fun targetType => ?_
  refine (TargetInfo.plain_read targetType).repeats.bind fun _ => ?_
  refine plain_u1.repeats.bind fun _ => (TypePathStep.plain_read.times _).repeats.bind fun _ => ?_
  exact (AnnotationEntry.repeats_read source).bind fun _ => repeats_pure _

namespace Remap

theorem repeats_localVariable (source : View) : Repeats (localVariable source) := by
  refine plain_u2.repeats.bind fun _ => plain_u2.repeats.bind fun _ => ?_
  refine (repeats_ref _ _).bind fun _ => (repeats_ref _ _).bind fun _ => ?_
  exact plain_u2.repeats.bind fun _ => repeats_pure _

theorem repeats_of_known? {source : View} {name : String} {act : Action Error Remapper Attribute}
    (h : known? source name = some act) : Repeats act := by
  have hlines := plain_lineNumber.counted.repeats
  have hlocals := (repeats_localVariable source).counted
  have hframes := (StackMapFrame.repeats_read source).counted
  have hannotations := (TypeAnnotationEntry.repeats_read source).counted
  unfold known? at h
  split at h
  · cases h; exact hlines.map _
  split at h
  · cases h; exact hlocals.map _
  split at h
  · cases h; exact hlocals.map _
  split at h
  · cases h; exact hframes.map _
  split at h
  · cases h; exact hannotations.map _
  split at h
  · cases h; exact hannotations.map _
  · cases h

theorem repeats_nestedAttribute (source : View) (name : String) (info : List UInt8) :
    Repeats (nestedAttribute source name info) := by
  unfold nestedAttribute
  split
  · rename_i read hread
    exact ((repeats_of_known? hread).reading _).bind fun a => repeats_add a
  · exact repeats_addNamed name info

theorem repeats_nextAttribute (source : View) : Repeats (nextAttribute source) := by
  refine plain_u2.repeats.bind fun _ => plain_u4.repeats.bind fun _ => ?_
  refine (plain_bytes _).repeats.bind fun _ => (repeats_ofExcept _).bind fun name => ?_
  exact repeats_nestedAttribute source name _

/-! ## The code of a method -/

theorem repeats_instruction (source : View) (i : CodedInstruction) :
    Repeats (instruction source i) := by
  unfold instruction
  split
  case h_5 =>
    refine (repeats_copy _ _).bind fun slot => ?_
    split
    · exact repeats_pure _
    · exact repeats_ofExcept _
  case h_6 => exact repeats_pure _
  all_goals exact (repeats_copy _ _).bind fun slot => repeats_pure _

theorem repeats_instructions (source : View) (code : List UInt8) :
    Repeats (instructions source code) := by
  have hone : ∀ i, Repeats (do instruction source (← Action.ofExcept i)) :=
    fun i => (repeats_ofExcept i).bind fun i => repeats_instruction source i
  exact (repeats_mapM hone _).bind fun _ => repeats_pure _

theorem repeats_handler (source : View) : Repeats (handler source) :=
  (plain_bytes 6).repeats.bind fun _ => (repeats_ref _ _).bind fun _ => repeats_pure _

theorem repeats_body (source : View) : Repeats (body source) := by
  refine plain_u2.repeats.bind fun _ => plain_u2.repeats.bind fun _ =>
    plain_u4.repeats.bind fun size => ?_
  split
  · intro r r' out _ hrun
    obtain ⟨_, _, hthrow, -⟩ := Action.exec_bind_eq_ok.mp hrun
    cases hthrow
  · refine (plain_bytes size).repeats.bind fun code => (repeats_instructions source code).bind
      fun _ => (repeats_handler source).counted.bind fun _ => ?_
    refine (repeats_nextAttribute source).counted.discard.bind fun _ => ?_
    exact repeats_finish.bind fun _ => repeats_pure _

/-- Code that was moved is moved once more to a pool that the first one has become. -/
theorem repeats_code (source : View) (info : List UInt8) : Pool.Repeats (code source info) := by
  intro p p' out hinv h
  unfold code at h ⊢
  rw [Action.exec_ofFn] at h
  split at h
  · rename_i bytes input pool table hbody
    obtain ⟨hout, rfl⟩ := Prod.mk.inj h
    obtain ⟨hgrows, hagain⟩ := repeats_body source ⟨.start "Code" info, .start p⟩ _ bytes hinv hbody
    refine ⟨hgrows, fun q hq => ?_⟩
    have hbody : (body source).exec ⟨.start "Code" info, .start q⟩
        = (.ok bytes, ⟨input, q, table⟩) := hagain q hq
    rw [Action.exec_ofFn, hbody, ← hout]
  · cases h

/-- Code that was moved to a reachable pool gives the same bytes when it is moved there once more,
and leaves the pool alone, whatever has been done with the pool in the meantime. -/
theorem exec_code_again {version : Version} {calls : List Pool.Call} {source : View}
    {info out : List UInt8} {p' : Pool} (later : List Pool.Call)
    (h : (code source info).exec ((Pool.empty version).afterCalls calls) = (.ok out, p')) :
    (code source info).exec (p'.afterCalls later) = (.ok out, p'.afterCalls later) := by
  have hinv := Pool.inv_afterCalls version calls
  obtain ⟨-, hagain⟩ := repeats_code source info _ p' out hinv h
  exact hagain _ (Pool.grows_afterCalls p' later)

/-- A number is copied to slot 1 of an empty pool.  It is found there although it gets two more slots
before the method is moved once more. -/
theorem exec_code_again_of_number :
    (code numberView (pushConstant 5)).exec ((Pool.empty .java8).afterCalls [])
        = (.ok (pushConstant 1), (Pool.empty .java8).append (.integer 7)) ∧
      (code numberView (pushConstant 5)).exec
          (((Pool.empty .java8).append (.integer 7)).afterCalls Pool.duplicates)
        = (.ok (pushConstant 1),
          ((Pool.empty .java8).append (.integer 7)).afterCalls Pool.duplicates) := by
  have hnew : (Pool.empty .java8).shared? .shared (.integer 7) = none :=
    (Pool.inv_empty .java8).firstSlot_eq_none fun i => Pool.not_holds_empty .java8 i _
  have hcopy : (Pool.copy numberView (5 : UInt8).toUInt16).exec (Pool.empty .java8)
      = (.ok (1 : UInt8).toUInt16, (Pool.empty .java8).append (.integer 7)) :=
    Pool.exec_insert_append hnew
  have hfirst : (code numberView (pushConstant 5)).exec ((Pool.empty .java8).afterCalls [])
      = (.ok (pushConstant 1), (Pool.empty .java8).append (.integer 7)) :=
    exec_code_pushConstant hcopy
  exact ⟨hfirst, exec_code_again Pool.duplicates hfirst⟩

end Remap

end JvmClass
