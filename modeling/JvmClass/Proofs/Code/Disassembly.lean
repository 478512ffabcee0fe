import JvmClass.Proofs.Byte.BigEndian
import JvmClass.Proofs.Byte.Reader
import JvmClass.Proofs.Code.Run
import JvmClass.Proofs.Code.Size
import JvmClass.Proofs.Code.Boundaries

/-!
# What emitted instructions mean

An `Operation` is what an instruction that does not jump asks of the machine: an opcode and the
values of its operands, whichever of its forms it is written in.  `Operation.read` is the reader of
a disassembler.  It has its own table of opcodes and operand layouts, which lists what the virtual
machine expects behind each byte, and knows nothing of how instructions are written.

What is emitted is read back as it was requested, one instruction after the other.  An instruction
for which there is a choice is written in the shortest form that the reader takes for the same
operation.

## Key results

- `operandLayout_eq`: the table of layouts agrees with the kinds of opcodes
- `Instruction.reads_encode`: an instruction is read as the operation that it requests
- `Operation.leastSize_le`: no form of an operation is shorter than its least size
- `meaning_of_run`: what a run adds to the code is taken apart into what was requested
-/

namespace JvmClass

-- Powers are those of the core library, also where Mathlib brings its own.
attribute [local instance (high)] instPowNat

/-! ## Operations -/

/-- An opcode, by its byte, and the values of its operands.  A load or store says which variable it
is about, also where the opcode implies it, and `ldc` is taken for `ldc_w`. -/
inductive Operation
  | plain (op : UInt8)
  | localVar (op : UInt8) (index : Nat)
  | increment (index : Nat) (delta : Int)
  | constant (op : UInt8) (slot : Nat)
  | push (op : UInt8) (value : Int)
  | newArray (element : ArrayType)
  | multiANewArray (slot dimensions : Nat)
  | invokeInterface (slot count : Nat)
  | invokeDynamic (slot : Nat)
  deriving DecidableEq

namespace Operation

/-- The opcode and the index that a load or store of one of the first four variables stands for. -/
def implied? (op : UInt8) : Option (UInt8 × Nat) :=
  if 0x1a ≤ op ∧ op ≤ 0x2d then
    some (0x15 + (op - 0x1a) / 4, ((op - 0x1a) % 4).toNat)
  else if 0x3b ≤ op ∧ op ≤ 0x4e then
    some (0x36 + (op - 0x3b) / 4, ((op - 0x3b) % 4).toNat)
  else
    none

/-- An opcode without operands. -/
def bare (op : UInt8) : Operation :=
  match implied? op with
  | some (base, index) => localVar base index
  | none => plain op

end Operation

namespace Instruction

/-- What an instruction requests. -/
def operation : Instruction → Operation
  | plain op => .bare op.byte
  | localVar op index => .localVar op.byte index.toNat
  | increment index delta => .increment index.toNat delta.toInt
  | constant op slot _ => .constant op.byte slot.toNat
  | load slot _ => .constant 0x13 slot.toNat
  | loadWide slot _ => .constant 0x14 slot.toNat
  | pushByte value => .push 0x10 value.toInt
  | pushShort value => .push 0x11 value.toInt
  | newArray element => .newArray element
  | multiANewArray element dimensions => .multiANewArray element.slot.toNat dimensions.toNat
  | invokeInterface method count => .invokeInterface method.slot.toNat count.toNat
  | invokeDynamic site => .invokeDynamic site.slot.toNat

end Instruction

/-! ## The disassembler -/

/-- What follows an opcode. -/
inductive OperandLayout
  | nothing
  | localIndex
  | increment
  | slot
  | narrowSlot
  | immediateByte
  | immediateShort
  | arrayType
  | slotAndDimensions
  /-- A slot, a count and a zero. -/
  | interfaceCall
  /-- A slot and two zeros. -/
  | dynamicCall
  /-- A local variable instruction with operands of twice the width. -/
  | wide
  deriving DecidableEq

/-- What follows an opcode with the given byte.  Jumps and switches have no layout here. -/
def operandLayout (op : UInt8) : Option OperandLayout :=
  if op ≤ 0x0f then some .nothing -- nop to dconst_1
  else if op = 0x10 then some .immediateByte -- bipush
  else if op = 0x11 then some .immediateShort -- sipush
  else if op = 0x12 then some .narrowSlot -- ldc
  else if op ≤ 0x14 then some .slot -- ldc_w, ldc2_w
  else if op ≤ 0x19 then some .localIndex -- iload to aload
  else if op ≤ 0x35 then some .nothing -- iload_0 to saload
  else if op ≤ 0x3a then some .localIndex -- istore to astore
  else if op ≤ 0x83 then some .nothing -- istore_0 to lxor
  else if op = 0x84 then some .increment -- iinc
  else if op ≤ 0x98 then some .nothing -- i2l to dcmpg
  else if op ≤ 0xa8 then none -- ifeq to jsr
  else if op = 0xa9 then some .localIndex -- ret
  else if op ≤ 0xab then none -- tableswitch, lookupswitch
  else if op ≤ 0xb1 then some .nothing -- ireturn to return
  else if op ≤ 0xb8 then some .slot -- getstatic to invokestatic
  else if op = 0xb9 then some .interfaceCall -- invokeinterface
  else if op = 0xba then some .dynamicCall -- invokedynamic
  else if op = 0xbb then some .slot -- new
  else if op = 0xbc then some .arrayType -- newarray
  else if op = 0xbd then some .slot -- anewarray
  else if op ≤ 0xbf then some .nothing -- arraylength, athrow
  else if op ≤ 0xc1 then some .slot -- checkcast, instanceof
  else if op ≤ 0xc3 then some .nothing -- monitorenter, monitorexit
  else if op = 0xc4 then some .wide -- wide
  else if op = 0xc5 then some .slotAndDimensions -- multianewarray
  else none -- ifnull to jsr_w, and no opcodes

namespace Operation

open Reader

/-- Read a signed number in two's complement. -/
def signed (width : Nat) : Reader Int := BigEndian.decodeInt <$> take width

/-- Take some zeros. -/
def zeros (n : Nat) : Reader Unit := do
  if (← take n) = List.replicate n 0 then return () else failure

/-- Read the operands of a local variable instruction, each of them of `width` bytes. -/
def readLocal (width : Nat) (op : UInt8) : Option OperandLayout → Reader Operation
  | some .localIndex => localVar op <$> uint width
  | some .increment => do
    let index ← uint width
    increment index <$> signed width
  | _ => failure

/-- Read the operands of an opcode. -/
def readOperands (op : UInt8) : OperandLayout → Reader Operation
  | .nothing => return bare op
  | .localIndex => readLocal 1 op (some .localIndex)
  | .increment => readLocal 1 op (some .increment)
  | .slot => constant op <$> uint 2
  | .narrowSlot => constant 0x13 <$> uint 1
  | .immediateByte => push op <$> signed 1
  | .immediateShort => push op <$> signed 2
  | .arrayType => do
    match ArrayType.ofCode? (← byte) with
    | some element => return newArray element
    | none => failure
  | .slotAndDimensions => do
    let slot ← uint 2
    multiANewArray slot <$> uint 1
  | .interfaceCall => do
    let slot ← uint 2
    let count ← uint 1
    (fun _ => invokeInterface slot count) <$> zeros 1
  | .dynamicCall => do
    let slot ← uint 2
    (fun _ => invokeDynamic slot) <$> zeros 2
  | .wide => do
    let modified ← byte
    readLocal 2 modified (operandLayout modified)

/-- Read an instruction that does not jump. -/
def read : Reader Operation := do
  let op ← byte
  match operandLayout op with
  | some operands => readOperands op operands
  | none => failure

end Operation

/-- The operations of some code without jumps. -/
def disassemble (code : List UInt8) : Option (List Operation) :=
  Reader.untilEnd Operation.read code.length code

/-! ## Opcodes -/

/-- What holds of all numbers below 256 holds of all bytes. -/
theorem forall_byte {p : UInt8 → Prop} (h : ∀ n < 256, p (UInt8.ofNat n)) (b : UInt8) : p b := by
  have hb := h b.toNat b.toNat_lt
  rwa [UInt8.ofNat_toNat] at hb

/-- What follows the opcodes of a kind.  The immediate byte of `newarray` is a number of its own. -/
def OpcodeKind.layout (op : UInt8) : OpcodeKind → Option OperandLayout
  | simple => some .nothing
  | localIndex => some .localIndex
  | increment => some .increment
  | constantRef => some .slot
  | narrowConstantRef => some .narrowSlot
  | invokeInterface => some .interfaceCall
  | invokeDynamic => some .dynamicCall
  | multiANewArray => some .slotAndDimensions
  | byteImmediate => if op = 0xbc then some .arrayType else some .immediateByte
  | shortImmediate => some .immediateShort
  | wideModifier => some .wide
  | branch | wideBranch | tableSwitch | lookupSwitch => none

/-- The assembler and the disassembler agree on what follows an opcode. -/
theorem operandLayout_eq (op : Opcode) : operandLayout op.byte = op.kind.layout op.byte := by
  have hall : ∀ b : UInt8, b < 202 → operandLayout b = (OpcodeKind.ofByte b).layout b :=
    forall_byte (by decide +kernel)
  exact hall op.byte op.byte_lt

/-- The one-byte form of a load or store implies its opcode and its variable. -/
theorem implied?_of_short? {op short : Opcode} {index : UInt16}
    (h : op.short? index = some short) :
    Operation.implied? short.byte = some (op.byte, index.toNat) := by
  have hforms : ∀ n < 5, ∀ m < 4,
      Operation.implied? (UInt8.ofNat (26 + 4 * n + m)) = some (UInt8.ofNat (21 + n), m) ∧
        Operation.implied? (UInt8.ofNat (59 + 4 * n + m)) = some (UInt8.ofNat (54 + n), m) := by
    decide
  obtain ⟨n, hn, hindex, ⟨hop, hshort⟩ | ⟨hop, hshort⟩⟩ := Opcode.short?_cases h
  · rw [hop, hshort]
    exact (hforms n hn _ hindex).1
  · rw [hop, hshort]
    exact (hforms n hn _ hindex).2

/-- Every local variable instruction but `ret` has such forms. -/
theorem isSome_short? {op : Opcode} {index : UInt16} (hkind : op.kind = .localIndex)
    (hret : op.byte ≠ 0xa9) (hindex : index.toNat < 4) : (op.short? index).isSome := by
  have hall : ∀ b : UInt8, OpcodeKind.ofByte b = .localIndex → b ≠ 0xa9 →
      0x15 ≤ b ∧ b ≤ 0x19 ∨ 0x36 ≤ b ∧ b ≤ 0x3a := forall_byte (by decide +kernel)
  have hle : ¬3 < index := Nat.not_lt.mpr (Nat.le_of_lt_succ hindex)
  have hmod : index.toUInt8.toNat = index.toNat := by
    rw [UInt16.toNat_toUInt8]
    omega
  have hsome : ∀ b : UInt8, b.toNat < 202 → (Opcode.ofByte? b).isSome := by
    intro b hb
    have hb : b < 202 := hb
    simp [Opcode.ofByte?, hb]
  unfold Opcode.short?
  rw [if_neg hle]
  rcases hall op.byte hkind hret with ⟨hlow, hhigh⟩ | ⟨hlow, hhigh⟩
  · rw [if_pos ⟨hlow, hhigh⟩]
    have hlow : 21 ≤ op.byte.toNat := hlow
    have hhigh : op.byte.toNat ≤ 25 := hhigh
    apply hsome
    simp only [UInt8.toNat_add, UInt8.toNat_mul, UInt8.toNat_sub, hmod, UInt8.reduceToNat]
    omega
  · have hload : ¬(0x15 ≤ op.byte ∧ op.byte ≤ 0x19) := fun h =>
      absurd (UInt8.le_trans hlow h.2) (by decide)
    rw [if_neg hload, if_pos ⟨hlow, hhigh⟩]
    have hlow : 54 ≤ op.byte.toNat := hlow
    have hhigh : op.byte.toNat ≤ 58 := hhigh
    apply hsome
    simp only [UInt8.toNat_add, UInt8.toNat_mul, UInt8.toNat_sub, hmod, UInt8.reduceToNat]
    omega

theorem ofCode?_code (element : ArrayType) : ArrayType.ofCode? element.code = some element := by
  cases element <;> rfl

/-! ## Reading what was written -/

namespace Operation

open Reader

theorem reads_uint_byte (b : UInt8) : Reads (uint 1) [b] b.toNat := by
  rw [← BigEndian.encode_byte]
  exact reads_uint b.toNat_lt

/-- A number that fits one byte. -/
theorem reads_uint_low {n : UInt16} (h : n < 256) : Reads (uint 1) [n.toUInt8] n.toNat := by
  have hread := reads_uint_byte n.toUInt8
  have hlow : n.toUInt8.toNat = n.toNat := by
    rw [UInt16.toNat_toUInt8]
    exact Nat.mod_eq_of_lt h
  rwa [hlow] at hread

theorem reads_uint_u2 (n : UInt16) : Reads (uint 2) (BigEndian.u2 n) n.toNat :=
  reads_uint n.toNat_lt

theorem reads_signed {width : Nat} {z : Int} (hlow : -(256 ^ width : Int) ≤ 2 * z)
    (hhigh : 2 * z < 256 ^ width) : Reads (signed width) (BigEndian.encodeInt width z) z := by
  have htake := reads_take (BigEndian.length_encodeInt width z)
  have hmap := htake.map BigEndian.decodeInt
  rwa [BigEndian.decodeInt_encodeInt hlow hhigh] at hmap

theorem reads_signed_u2 (v : Int16) : Reads (signed 2) (BigEndian.u2 v.toUInt16) v.toInt := by
  rw [← BigEndian.encodeInt_u2]
  have hlow := v.le_toInt
  have hhigh := v.toInt_lt
  apply reads_signed <;> omega

theorem reads_zeros (n : Nat) : Reads (zeros n) (List.replicate n 0) () := by
  refine (reads_take List.length_replicate).bind_nil ?_
  rw [if_pos rfl]
  exact Reads.pure ()

/-- An opcode and its operands. -/
theorem reads_read {op : UInt8} (layout : OperandLayout) {operands : List UInt8} {o : Operation}
    (hlayout : operandLayout op = some layout) (h : Reads (readOperands op layout) operands o) :
    Reads read (op :: operands) o := by
  show Reads read ([op] ++ operands) o
  apply (reads_byte op).bind
  rw [hlayout]
  exact h

/-- An opcode that stands for itself. -/
theorem reads_bare {op : UInt8} (hlayout : operandLayout op = some .nothing) :
    Reads read [op] (bare op) :=
  reads_read _ hlayout (Reads.pure _)

/-- The operands of a modified opcode. -/
theorem reads_wide {op : UInt8} {operands : List UInt8} {o : Operation}
    (h : Reads (readLocal 2 op (operandLayout op)) operands o) :
    Reads read (0xc4 :: op :: operands) o :=
  reads_read .wide rfl ((reads_byte op).bind h)

end Operation

namespace Instruction

open Reader Operation
open JvmClass.Action (except_bind_eq_ok except_pure_eq_ok)

/-- Each of the three forms says which variable it is about. -/
theorem reads_encodeLocal {op : Opcode} (hkind : op.kind = .localIndex) (index : UInt16) :
    Reads read (encodeLocal op index) (.localVar op.byte index.toNat) := by
  have hlayout : operandLayout op.byte = some .localIndex := by
    rw [operandLayout_eq, hkind]
    rfl
  unfold encodeLocal
  split
  · rename_i short hshort
    have hsimple : operandLayout short.byte = some .nothing := by
      rw [operandLayout_eq, Opcode.kind_of_short? hshort]
      rfl
    have hbare := reads_bare hsimple
    rwa [bare, implied?_of_short? hshort] at hbare
  by_cases hindex : index < 256
  · rw [if_pos hindex]
    exact reads_read _ hlayout ((reads_uint_low hindex).map _)
  · rw [if_neg hindex]
    apply reads_wide
    rw [hlayout]
    exact (reads_uint_u2 index).map _

theorem reads_encodeIncrement (index : UInt16) (delta : Int16) :
    Reads read (encodeIncrement index delta) (.increment index.toNat delta.toInt) := by
  unfold encodeIncrement
  by_cases hnarrow : index < 256 ∧ -128 ≤ delta.toInt ∧ delta.toInt ≤ 127
  · rw [if_pos hnarrow]
    obtain ⟨hindex, hlow, hhigh⟩ := hnarrow
    have hdelta : Reads (signed 1) [delta.toUInt16.toUInt8] delta.toInt := by
      rw [← BigEndian.encodeInt_low]
      apply reads_signed <;> omega
    exact reads_read .increment rfl ((reads_uint_low hindex).bind (hdelta.map _))
  · rw [if_neg hnarrow]
    exact reads_wide ((reads_uint_u2 index).bind ((reads_signed_u2 delta).map _))

theorem reads_encodeConstant {op : Opcode} {slot : Slot} {kind : Option Tag} {bytes : List UInt8}
    (h : encodeConstant op slot kind = .ok bytes) :
    Reads read bytes (.constant op.byte slot.toNat) := by
  obtain ⟨_, hkind, h⟩ := except_bind_eq_ok.mp h
  obtain ⟨_, -, h⟩ := except_bind_eq_ok.mp h
  cases except_pure_eq_ok.mp h
  have hlayout : operandLayout op.byte = some .slot := by
    rw [operandLayout_eq, expectKind_eq_ok hkind]
    rfl
  exact reads_read _ hlayout ((reads_uint_u2 slot).map _)

/-- What is written for an instruction is read as the operation that it requests. -/
theorem reads_encode {i : Instruction} {bytes : List UInt8} (h : i.encode = .ok bytes) :
    Reads read bytes i.operation := by
  cases i with
  | plain op =>
    obtain ⟨_, hkind, h⟩ := except_bind_eq_ok.mp h
    cases except_pure_eq_ok.mp h
    apply reads_bare
    rw [operandLayout_eq, expectKind_eq_ok hkind]
    rfl
  | localVar op index =>
    obtain ⟨_, hkind, h⟩ := except_bind_eq_ok.mp h
    cases except_pure_eq_ok.mp h
    exact reads_encodeLocal (expectKind_eq_ok hkind) index
  | increment index delta =>
    cases except_pure_eq_ok.mp h
    exact reads_encodeIncrement index delta
  | constant op slot kind => exact reads_encodeConstant h
  | load slot kind =>
    obtain ⟨_, -, h⟩ := except_bind_eq_ok.mp h
    split at h
    · rename_i hslot
      cases except_pure_eq_ok.mp h
      exact reads_read .narrowSlot rfl ((reads_uint_low hslot).map _)
    · exact reads_encodeConstant h
  | loadWide slot kind => exact reads_encodeConstant h
  | pushByte value =>
    cases except_pure_eq_ok.mp h
    have hvalue : Reads (signed 1) [value.toUInt8] value.toInt := by
      have hlow := value.le_toInt
      have hhigh := value.toInt_lt
      rw [← BigEndian.encodeInt_byte]
      apply reads_signed <;> omega
    exact reads_read .immediateByte rfl (hvalue.map _)
  | pushShort value =>
    cases except_pure_eq_ok.mp h
    exact reads_read .immediateShort rfl ((reads_signed_u2 value).map _)
  | newArray element =>
    cases except_pure_eq_ok.mp h
    refine reads_read .arrayType rfl ((reads_byte element.code).bind_nil ?_)
    rw [ofCode?_code]
    exact Reads.pure _
  | multiANewArray element dimensions =>
    cases except_pure_eq_ok.mp h
    exact reads_read .slotAndDimensions rfl
      ((reads_uint_u2 element.slot).bind ((reads_uint_byte dimensions).map _))
  | invokeInterface method count =>
    cases except_pure_eq_ok.mp h
    exact reads_read .interfaceCall rfl ((reads_uint_u2 method.slot).bind
      ((reads_uint_byte count).bind ((reads_zeros 1).map _)))
  | invokeDynamic site =>
    cases except_pure_eq_ok.mp h
    exact reads_read .dynamicCall rfl
      ((reads_uint_u2 site.slot).bind ((reads_zeros 2).map _))

end Instruction

/-! ## The shortest form -/

namespace Operation

open Reader

/-- The number of bytes of the shortest form of an operation. -/
def leastSize : Operation → Nat
  | plain _ => 1
  | localVar op index => if index < 4 ∧ op ≠ 0xa9 then 1 else if index < 256 then 2 else 4
  | increment index delta => if index < 256 ∧ -128 ≤ delta ∧ delta ≤ 127 then 3 else 6
  | constant op slot => if op = 0x13 ∧ slot < 256 then 2 else 3
  | push op _ => if op = 0x10 then 2 else 3
  | newArray _ => 2
  | multiANewArray _ _ => 4
  | invokeInterface _ _ => 5
  | invokeDynamic _ => 5

theorem leastSize_bare (op : UInt8) : (bare op).leastSize = 1 := by
  have hall : ∀ b : UInt8, (bare b).leastSize = 1 := forall_byte (by decide +kernel)
  exact hall op

/-- A reader of operations takes no fewer bytes than the operation has in its shortest form, with
the given number of bytes in front. -/
def TakesEnough (before : Nat) (r : Reader Operation) : Prop :=
  Finds r fun o front => o.leastSize ≤ before + front.length

theorem finds_signed (width : Nat) : Finds (signed width) fun z front =>
    (-(256 ^ width : Int) ≤ 2 * z ∧ 2 * z < 256 ^ width) ∧ front.length = width := by
  have htake : Finds (take width) fun bytes front => front = bytes ∧ bytes.length = width := by
    intro bytes front rest hrun
    obtain ⟨rfl, hlen⟩ := splitExactly_eq_some.mp hrun
    exact ⟨front, rfl, rfl, hlen⟩
  refine htake.map fun bytes front hbytes => ?_
  obtain ⟨rfl, rfl⟩ := hbytes
  exact ⟨BigEndian.decodeInt_bounds front, rfl⟩

theorem finds_number (width : Nat) :
    Finds (uint width) fun n front => n < 256 ^ width ∧ front.length = width := by
  refine (finds_uint width).imp fun n front hn => ⟨hn.1, ?_⟩
  rw [hn.2]
  exact BigEndian.length_encode width n

theorem finds_zeros (n : Nat) : Finds (zeros n) fun _ front => front.length = n := by
  have htake : Finds (take n) fun bytes front => front = bytes := finds_take n
  refine htake.bind fun bytes front hbytes => ?_
  subst hbytes
  split
  · rename_i hzeros
    refine finds_pure ?_
    rw [List.append_nil, hzeros, List.length_replicate]
  · exact finds_failure

/-- Behind its opcode a local variable instruction has operands that hold its numbers. -/
theorem takesEnough_narrowLocal (op : UInt8) (layout : Option OperandLayout) :
    TakesEnough 1 (readLocal 1 op layout) := by
  unfold readLocal
  split
  · refine (finds_number 1).map fun index front hindex => ?_
    obtain ⟨hlt, hlen⟩ := hindex
    have hlt : index < 256 := hlt
    rw [hlen, leastSize, if_pos hlt]
    split <;> omega
  · refine (finds_number 1).bind fun index xs hindex =>
      (finds_signed 1).map fun delta ys hdelta => ?_
    obtain ⟨hlt, hlen⟩ := hindex
    obtain ⟨⟨hlow, hhigh⟩, hlen'⟩ := hdelta
    have hnarrow : index < 256 ∧ -128 ≤ delta ∧ delta ≤ 127 := by omega
    rw [List.length_append, hlen, hlen', leastSize, if_pos hnarrow]
  · exact finds_failure

/-- No form is longer than a modified one. -/
theorem takesEnough_wideLocal (op : UInt8) (layout : Option OperandLayout) :
    TakesEnough 2 (readLocal 2 op layout) := by
  unfold readLocal
  split
  · refine (finds_number 2).map fun index front hindex => ?_
    rw [hindex.2, leastSize]
    split
    · omega
    · split <;> omega
  · refine (finds_number 2).bind fun index xs hindex =>
      (finds_signed 2).map fun delta ys hdelta => ?_
    rw [List.length_append, hindex.2, hdelta.2, leastSize]
    split <;> omega
  · exact finds_failure

/-- Only one opcode is followed by an immediate number of one byte. -/
theorem eq_of_immediateByte {op : UInt8} (h : operandLayout op = some .immediateByte) :
    op = 0x10 := by
  have hall : ∀ b : UInt8, operandLayout b = some .immediateByte → b = 0x10 :=
    forall_byte (by decide +kernel)
  exact hall op h

theorem takesEnough_readOperands {op : UInt8} {layout : OperandLayout}
    (h : operandLayout op = some layout) : TakesEnough 1 (readOperands op layout) := by
  cases layout with
  | nothing =>
    refine finds_pure ?_
    rw [leastSize_bare]
    exact Nat.le_refl 1
  | localIndex => exact takesEnough_narrowLocal op (some .localIndex)
  | increment => exact takesEnough_narrowLocal op (some .increment)
  | slot =>
    refine (finds_number 2).map fun slot front hslot => ?_
    rw [hslot.2, leastSize]
    split <;> omega
  | narrowSlot =>
    refine (finds_number 1).map fun slot front hslot => ?_
    rw [hslot.2, leastSize, if_pos ⟨rfl, hslot.1⟩]
  | immediateByte =>
    refine (finds_signed 1).map fun value front hvalue => ?_
    rw [hvalue.2, leastSize, if_pos (eq_of_immediateByte h)]
  | immediateShort =>
    refine (finds_signed 2).map fun value front hvalue => ?_
    rw [hvalue.2, leastSize]
    split <;> omega
  | arrayType =>
    refine finds_byte.bind fun code front hcode => ?_
    split
    · refine finds_pure ?_
      rw [hcode]
      exact Nat.le_refl 2
    · exact finds_failure
  | slotAndDimensions =>
    refine (finds_number 2).bind fun slot xs hslot =>
      (finds_number 1).map fun dimensions ys hdimensions => ?_
    rw [List.length_append, hslot.2, hdimensions.2]
    exact Nat.le_refl 4
  | interfaceCall =>
    refine (finds_number 2).bind fun slot xs hslot => (finds_number 1).bind fun count ys hcount =>
      (finds_zeros 1).map fun _ zs hzeros => ?_
    rw [List.length_append, List.length_append, hslot.2, hcount.2, hzeros]
    exact Nat.le_refl 5
  | dynamicCall =>
    refine (finds_number 2).bind fun slot xs hslot =>
      (finds_zeros 2).map fun _ ys hzeros => ?_
    rw [List.length_append, hslot.2, hzeros]
    exact Nat.le_refl 5
  | wide =>
    refine finds_byte.bind fun modified front hmodified => ?_
    refine (takesEnough_wideLocal modified _).imp fun o rest ho => ?_
    rw [List.length_append, hmodified, List.length_singleton]
    omega

/-- No form of an operation is shorter than its least size. -/
theorem takesEnough_read : TakesEnough 0 read := by
  refine finds_byte.bind fun op front hop => ?_
  split
  · rename_i layout hlayout
    refine (takesEnough_readOperands hlayout).imp fun o rest ho => ?_
    rw [List.length_append, hop, List.length_singleton]
    omega
  · exact finds_failure

theorem leastSize_le {bytes : List UInt8} {o : Operation} (h : whole read bytes = some o) :
    o.leastSize ≤ bytes.length := by
  obtain ⟨front, hbytes, hfront⟩ := takesEnough_read bytes o [] (whole_eq_some.mp h)
  rw [List.append_nil] at hbytes
  rw [hbytes]
  omega

end Operation

theorem Instruction.size_localVar {op : Opcode} (hkind : op.kind = .localIndex) (index : UInt16) :
    (localVar op index).size = (Operation.localVar op.byte index.toNat).leastSize := by
  simp only [size, Operation.leastSize]
  by_cases hform : index.toNat < 4 ∧ op.byte ≠ 0xa9
  · rw [if_pos (isSome_short? hkind hform.2 hform.1), if_pos hform]
  · -- If there were a form of one byte, it would have this least size.
    have hnone : ¬(op.short? index).isSome := by
      intro hsome
      obtain ⟨short, hshort⟩ := Option.isSome_iff_exists.mp hsome
      have hleast := Operation.leastSize_bare short.byte
      rw [Operation.bare, implied?_of_short? hshort] at hleast
      simp only [Operation.leastSize, if_neg hform] at hleast
      split at hleast <;> cases hleast
    rw [if_neg hnone, if_neg hform]
    rfl

/-- Where there is a choice the shortest form is written.  An instruction that asks for `ldc_w` by
name has no choice. -/
theorem Instruction.size_eq_leastSize {i : Instruction} {bytes : List UInt8}
    (h : i.encode = .ok bytes) (hldc : ∀ slot kind, i ≠ .constant .ldcW slot kind) :
    i.size = i.operation.leastSize := by
  cases i with
  | plain op => exact (Operation.leastSize_bare op.byte).symm
  | localVar op index =>
    obtain ⟨_, hkind, -⟩ := Action.except_bind_eq_ok.mp h
    exact size_localVar (expectKind_eq_ok hkind) index
  | increment index delta =>
    have hindex : index < 256 ↔ index.toNat < 256 := Iff.rfl
    simp only [size, operation, Operation.leastSize, hindex]
  | constant op slot kind =>
    have hbyte : op.byte ≠ 0x13 := by
      rintro hbyte
      apply hldc slot kind
      cases op
      cases hbyte
      rfl
    simp [size, operation, Operation.leastSize, hbyte]
  | load slot kind =>
    have hslot : slot < 256 ↔ slot.toNat < 256 := Iff.rfl
    simp [size, operation, Operation.leastSize, hslot]
  | _ => rfl

/-- No other bytes for the same operation are shorter. -/
theorem Instruction.length_le {i : Instruction} {bytes : List UInt8} (h : i.encode = .ok bytes)
    (hldc : ∀ slot kind, i ≠ .constant .ldcW slot kind) {other : List UInt8}
    (hother : Reader.whole Operation.read other = some i.operation) :
    bytes.length ≤ other.length := by
  rw [length_encode h, size_eq_leastSize h hldc]
  exact Operation.leastSize_le hother

/-! ## Runs -/

/-- Instructions one after the other are taken apart into their operations. -/
theorem disassemble_flatMap {is : List Instruction} (h : ∀ i ∈ is, i.encode = .ok i.bytes) :
    disassemble (is.flatMap Instruction.bytes) = some (is.map Instruction.operation) := by
  have hall : List.Forall₂ (fun o body => Reader.Reads Operation.read body o ∧ body ≠ [])
      (is.map Instruction.operation) (is.map Instruction.bytes) := by
    rw [List.forall₂_map_left_iff, List.forall₂_map_right_iff, List.forall₂_same]
    intro i hi
    have hreads := Instruction.reads_encode (h i hi)
    refine ⟨hreads, fun hnil => ?_⟩
    -- There is no operation without an opcode.
    have hrun := hreads []
    rw [hnil] at hrun
    cases hrun
  rw [List.flatMap_def]
  exact Reader.Reads.untilEnd_of_forall₂ hall (Reader.Reads.length_le_length_flatten hall)

namespace Assembler

open JvmClass.Action

/-- The instructions of a run that were not refused. -/
def emitted (reports : List Report) : List Instruction :=
  reports.filterMap fun
    | ⟨.emit i, .ok _⟩ => some i
    | _ => none

/-- An instruction is refused without a trace, or its bytes are added to the code. -/
theorem perform_emit_cases (i : Instruction) (a : Assembler) :
    (∃ e, (Call.emit i).perform.exec a = (.error e, a)) ∨
      i.encode = .ok i.bytes ∧ (Call.emit i).perform.exec a = (.ok [], a.write i.bytes) := by
  simp only [Call.perform, exec_map, exec_emit, Instruction.bytes]
  cases i.encode with
  | error e => exact .inl ⟨e, rfl⟩
  | ok bytes =>
    by_cases hroom : maxCodeSize < a.offset + bytes.length
    · exact .inl ⟨_, by simp only [if_pos hroom]; rfl⟩
    · exact .inr ⟨rfl, by simp only [if_neg hroom]; rfl⟩

/-- Each instruction that is not refused adds its bytes to the code. -/
theorem code_of_run (is : List Instruction) (a : Assembler) :
    (run (is.map .emit) a).2.code.toList
        = a.code.toList ++ (emitted (run (is.map .emit) a).1).flatMap Instruction.bytes ∧
      ∀ i ∈ emitted (run (is.map .emit) a).1, i.encode = .ok i.bytes := by
  induction is generalizing a with
  | nil => exact ⟨(List.append_nil _).symm, nofun⟩
  | cons i is ih =>
    simp only [List.map_cons, run]
    rcases perform_emit_cases i a with ⟨e, hrefused⟩ | ⟨hbytes, hwritten⟩
    · rw [hrefused]
      exact ih a
    · rw [hwritten]
      obtain ⟨hcode, hencode⟩ := ih (a.write i.bytes)
      have hwrite : (a.write i.bytes).code.toList = a.code.toList ++ i.bytes :=
        Buffer.toList_append _ _
      constructor
      · show (run (is.map .emit) (a.write i.bytes)).2.code.toList
          = a.code.toList ++ (i :: emitted (run (is.map .emit) (a.write i.bytes)).1).flatMap
            Instruction.bytes
        rw [hcode, hwrite, List.flatMap_cons, List.append_assoc]
      · intro j hj
        rcases List.mem_cons.mp hj with rfl | hj
        · exact hbytes
        · exact hencode j hj

/-- If nothing is refused, all that was requested is emitted. -/
theorem emitted_eq_of_accepted (is : List Instruction) (a : Assembler)
    (h : ∀ r ∈ (run (is.map .emit) a).1, ∃ cases, r.outcome = .ok cases) :
    emitted (run (is.map .emit) a).1 = is := by
  induction is generalizing a with
  | nil => rfl
  | cons i is ih =>
    simp only [List.map_cons, run] at h ⊢
    have hrest := ih _ fun r hr => h r (List.mem_cons_of_mem _ hr)
    obtain ⟨cases, hfirst⟩ := h _ List.mem_cons_self
    have hfirst : ((Call.emit i).perform.exec a).1 = .ok cases := hfirst
    rw [hfirst]
    show i :: emitted _ = i :: is
    rw [hrest]

/-- The code that a run of instructions adds means what was requested: it is taken apart into the
operations of the instructions that were not refused, in their order, and no other form of one of
them is shorter, unless it asks for `ldc_w` by name. -/
structure MeaningSpec (a : Assembler) (is : List Instruction) : Prop where
  code_eq : (run (is.map .emit) a).2.code.toList
    = a.code.toList ++ (emitted (run (is.map .emit) a).1).flatMap Instruction.bytes
  disassemble_eq : disassemble ((run (is.map .emit) a).2.code.toList.drop a.offset)
    = some ((emitted (run (is.map .emit) a).1).map Instruction.operation)
  emitted_eq : (∀ r ∈ (run (is.map .emit) a).1, ∃ cases, r.outcome = .ok cases) →
    emitted (run (is.map .emit) a).1 = is
  read_bytes : ∀ i ∈ emitted (run (is.map .emit) a).1,
    Reader.whole Operation.read i.bytes = some i.operation
  shortest : ∀ i ∈ emitted (run (is.map .emit) a).1,
    (∀ slot kind, i ≠ .constant .ldcW slot kind) → ∀ other : List UInt8,
      Reader.whole Operation.read other = some i.operation → i.bytes.length ≤ other.length

/-- Whatever instructions are emitted, in whatever order and wherever the code has got to. -/
theorem meaning_of_run (a : Assembler) (is : List Instruction) : MeaningSpec a is := by
  obtain ⟨hcode, hencode⟩ := code_of_run is a
  refine ⟨hcode, ?_, emitted_eq_of_accepted is a, fun i hi => ?_, fun i hi hldc other hother => ?_⟩
  · have hdrop : (run (is.map .emit) a).2.code.toList.drop a.offset
        = (emitted (run (is.map .emit) a).1).flatMap Instruction.bytes := by
      rw [hcode, offset, ← Buffer.length_toList, List.drop_left]
    rw [hdrop]
    exact disassemble_flatMap hencode
  · exact (Instruction.reads_encode (hencode i hi)).whole
  · exact Instruction.length_le (hencode i hi) hldc hother

/-- Variables 3 and 4, the largest and the smallest increment of one byte, and a `ret`, which has no
form of one byte. -/
example :
    disassemble (run [.emit (.localVar .aload 3), .emit (.localVar .aload 4),
      .emit (.increment 255 (-128)), .emit (.increment 0 128),
      .emit (.localVar ⟨0xa9, by decide⟩ 0),
      .emit (.localVar .aload 256)] empty).2.code.toList
      = some [.localVar 0x19 3, .localVar 0x19 4, .increment 255 (-128), .increment 0 128,
        .localVar 0xa9 0, .localVar 0x19 256] := by
  decide +kernel

end Assembler

end JvmClass
