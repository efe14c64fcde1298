import NachOS.Machine.LoadDelay
import NachOS.Machine.Multiply

/-!
# Integer instructions

What the R2000 does for the words that encode its arithmetic, logical, shift, compare, multiply
and divide instructions, and what `Decode` and `OneInstruction` do for the same words. They
differ for `OR`, for `SRL` and `SRLV`, for one division, and where the pending load is for the
register that the instruction writes.
-/

namespace NachOS

open PartialRun

/-! ## The processor -/

namespace R2000

/-- The integer instructions with an immediate operand, by the highest six bits. -/
def immediateOp : ℕ → Option OpCode
  | 8 => some .addi | 9 => some .addiu | 10 => some .slti | 11 => some .sltiu
  | 12 => some .andi | 13 => some .ori | 14 => some .xori | 15 => some .lui
  | _ => none

/-- The integer instructions on registers, by the lowest six bits. -/
def functionOp : ℕ → Option OpCode
  | 0 => some .sll | 2 => some .srl | 3 => some .sra
  | 4 => some .sllv | 6 => some .srlv | 7 => some .srav
  | 16 => some .mfhi | 17 => some .mthi | 18 => some .mflo | 19 => some .mtlo
  | 24 => some .mult | 25 => some .multu | 26 => some .div | 27 => some .divu
  | 32 => some .add | 33 => some .addu | 34 => some .sub | 35 => some .subu
  | 36 => some .and | 37 => some .or | 38 => some .xor | 39 => some .nor
  | 42 => some .slt | 43 => some .sltu
  | _ => none

/-- The integer instruction that a word encodes. -/
def operation (raw : Word) : Option OpCode :=
  if raw.toNat / 2 ^ 26 = 0 then functionOp (raw.toNat % 2 ^ 6)
  else immediateOp (raw.toNat / 2 ^ 26)

/-- The number of a register: the five bits from a position on. -/
def registerAt (raw : Word) (position : ℕ) : Fin numGPRegs := Fin.ofNat _ (raw.toNat / 2 ^ position)

/-- The immediate operand. -/
def immediate (raw : Word) : BitVec 16 := raw.setWidth 16

/-- The amount of a shift. -/
def shiftAmount (raw : Word) : ℕ := raw.toNat / 2 ^ 6 % 2 ^ 5

/-- What an instruction does. -/
inductive Result where
  /-- The exception. -/
  | overflow
  | register (r : Fin numGPRegs) (value : Word)
  /-- Values for `HI` and `LO`; `none` where nothing is defined or nothing is written. -/
  | hiLo (hi lo : Option Word)

/-- The exact result, if it fits. -/
def exactly (r : Fin numGPRegs) (value : ℤ) : Result :=
  if -2 ^ 31 ≤ value ∧ value < 2 ^ 31 then .register r (BitVec.ofInt 32 value) else .overflow

/-- The two words of a product. -/
def product (p : BitVec 64) : Result := .hiLo (some (p.extractLsb' 32 32)) (some (p.extractLsb' 0 32))

/-- The value of a comparison. -/
def truth (p : Prop) [Decidable p] : Word := if p then 1 else 0

/-- The result of an integer instruction. -/
def result (raw : Word) (registers : Fin numTotalRegs → Word) : Option Result :=
  let rs := registers (gp (registerAt raw 21))
  let rt := registers (gp (registerAt raw 16))
  let toRt := Result.register (registerAt raw 16)
  let toRd := Result.register (registerAt raw 11)
  let signed := (immediate raw).signExtend 32
  let zeroed := (immediate raw).setWidth 32
  match operation raw with
  | some .add => some (exactly (registerAt raw 11) (rs.toInt + rt.toInt))
  | some .addi => some (exactly (registerAt raw 16) (rs.toInt + (immediate raw).toInt))
  | some .addiu => some (toRt (rs + signed))
  | some .addu => some (toRd (rs + rt))
  | some .sub => some (exactly (registerAt raw 11) (rs.toInt - rt.toInt))
  | some .subu => some (toRd (rs - rt))
  | some .and => some (toRd (rs &&& rt))
  | some .andi => some (toRt (rs &&& zeroed))
  | some .or => some (toRd (rs ||| rt))
  | some .ori => some (toRt (rs ||| zeroed))
  | some .xor => some (toRd (rs ^^^ rt))
  | some .xori => some (toRt (rs ^^^ zeroed))
  | some .nor => some (toRd (~~~(rs ||| rt)))
  | some .lui => some (toRt (immediate raw ++ (0 : BitVec 16)))
  | some .sll => some (toRd (rt <<< shiftAmount raw))
  | some .srl => some (toRd (rt >>> shiftAmount raw))
  | some .sra => some (toRd (rt.sshiftRight (shiftAmount raw)))
  | some .sllv => some (toRd (rt <<< (rs.toNat % 32)))
  | some .srlv => some (toRd (rt >>> (rs.toNat % 32)))
  | some .srav => some (toRd (rt.sshiftRight (rs.toNat % 32)))
  | some .slt => some (toRd (truth (rs.toInt < rt.toInt)))
  | some .slti => some (toRt (truth (rs.toInt < (immediate raw).toInt)))
  | some .sltu => some (toRd (truth (rs.toNat < rt.toNat)))
  | some .sltiu => some (toRt (truth (rs.toNat < signed.toNat)))
  | some .mult => some (product (BitVec.ofInt 64 (rs.toInt * rt.toInt)))
  | some .multu => some (product (BitVec.ofNat 64 (rs.toNat * rt.toNat)))
  | some .div => some (if rt = 0 then .hiLo none none
      else .hiLo (some (BitVec.ofInt 32 (rs.toInt.tmod rt.toInt)))
        (some (BitVec.ofInt 32 (rs.toInt.tdiv rt.toInt))))
  | some .divu => some (if rt = 0 then .hiLo none none
      else .hiLo (some (BitVec.ofNat 32 (rs.toNat % rt.toNat)))
        (some (BitVec.ofNat 32 (rs.toNat / rt.toNat))))
  | some .mfhi => some (toRd (registers hiReg))
  | some .mflo => some (toRd (registers loReg))
  | some .mthi => some (.hiLo (some rs) none)
  | some .mtlo => some (.hiLo none (some rs))
  | _ => none

end R2000

/-- The arithmetic, logical, shift, compare, multiply and divide instructions. -/
def OpCode.isInteger : OpCode → Bool
  | .add | .addi | .addiu | .addu | .sub | .subu | .and | .andi | .or | .ori | .xor | .xori | .nor
  | .lui | .sll | .srl | .sra | .sllv | .srlv | .srav | .slt | .slti | .sltu | .sltiu | .mult
  | .multu | .div | .divu | .mfhi | .mflo | .mthi | .mtlo => true
  | _ => false

/-! ## What `Decode` makes of the words -/

open R2000

/-- An entry of one of the tables of 64. -/
theorem tableEntry_eq {α : Type} (table : List α) (h : table.length = 64) (value : Word) (d : α) :
    tableEntry table h value = table.getD (value.toNat % 64) d := by
  rw [List.getD_eq_getElem?_getD, List.getElem?_eq_getElem (by omega)]
  rfl

/-- The entry of `opTable` for the highest six bits. -/
def opEntry (k : ℕ) : OpCode × Format := opTable.getD k (.res, .ifmt)

/-- The entry of `specialTable` for the lowest six bits. -/
def specialEntry (k : ℕ) : OpCode := specialTable.getD k .res

/-- Operation `0` means that the function field decides. -/
theorem opEntry_special : opEntry 0 = (.special, .rfmt) := rfl

/-- The other operations that are integer instructions are the ones with an immediate. -/
theorem opEntry_other : ∀ k < 64, k ≠ 0 → (opEntry k).1 ≠ .special ∧
    immediateOp k = (if (opEntry k).1.isInteger then some (opEntry k).1 else none) ∧
    ((opEntry k).1.isInteger = true → (opEntry k).2 = .ifmt) := by
  decide

/-- The function field names the integer instructions with registers only. -/
theorem specialEntry_integer : ∀ k < 64, functionOp k =
    if (specialEntry k).isInteger then some (specialEntry k) else none := by
  decide

/-- The field of the operation has six bits. -/
theorem toNat_shiftRight_26 (raw : Word) : (raw >>> 26).toNat % 64 = raw.toNat / 2 ^ 26 := by
  have hlt := raw.isLt
  rw [BitVec.toNat_ushiftRight, Nat.shiftRight_eq_div_pow]
  omega

/-- What the field that `BCOND` looks at decodes to. -/
def bcondOp (raw : Word) : OpCode :=
  let i := raw &&& 0x1f0000
  if i = 0 then .bltz
  else if i = 0x10000 then .bgez
  else if i = 0x100000 then .bltzal
  else if i = 0x110000 then .bgezal
  else .unimp

/-- A branch is no integer instruction. -/
theorem bcondOp_not_integer (raw : Word) : (bcondOp raw).isInteger = false := by
  unfold bcondOp
  dsimp only
  split
  · rfl
  split
  · rfl
  split
  · rfl
  split <;> rfl

/-- Which instruction `Decode` finds. -/
theorem decode_opCode (raw : Word) : (decode raw).opCode =
    match (opEntry (raw.toNat / 2 ^ 26)).1 with
    | .special => specialEntry (raw.toNat % 64)
    | .bcond => bcondOp raw
    | opCode => opCode := by
  have hop := tableEntry_eq opTable (by decide) (raw >>> 26) (.res, .ifmt)
  have hspecial := tableEntry_eq specialTable (by decide) raw .res
  rw [toNat_shiftRight_26] at hop
  rw [opEntry, specialEntry, ← hop, ← hspecial]
  rfl

/-- `Decode` finds the integer instructions, and these alone, as the processor encodes them. -/
theorem operation_eq (raw : Word) : operation raw =
    if (decode raw).opCode.isInteger then some (decode raw).opCode else none := by
  have hlt := raw.isLt
  rw [operation, decode_opCode]
  by_cases hspecial : raw.toNat / 2 ^ 26 = 0
  · rw [if_pos hspecial, hspecial, opEntry_special]
    exact specialEntry_integer _ (by omega)
  · obtain ⟨hne, hop, -⟩ := opEntry_other (raw.toNat / 2 ^ 26) (by omega) hspecial
    rw [if_neg hspecial, hop]
    generalize (opEntry (raw.toNat / 2 ^ 26)).1 = opCode at hne
    cases opCode with
    | special => exact absurd rfl hne
    | bcond =>
      dsimp only
      rw [bcondOp_not_integer]
      rfl
    | _ => rfl

/-! ## The operands -/

/-- The register fields, as in the manual. -/
theorem registerField_eq (raw : Word) (position : ℕ) :
    registerField raw position = registerAt raw position := by
  rw [registerField, BitVec.toNat_ushiftRight, Nat.shiftRight_eq_div_pow, registerAt]

/-- The mask of a half word. -/
theorem toNat_and_0xffff (value : Word) : (value &&& 0xffff).toNat = value.toNat % 2 ^ 16 := by
  rw [BitVec.toNat_and]
  exact Nat.and_two_pow_sub_one_eq_mod _ 16

/-- The mask of a shift amount. -/
theorem toNat_and_0x1f (value : Word) : (value &&& 0x1f).toNat = value.toNat % 2 ^ 5 := by
  rw [BitVec.toNat_and]
  exact Nat.and_two_pow_sub_one_eq_mod _ 5

/-- `extra |= 0xffff0000` extends the sign. -/
theorem signExtend_immediate (raw : Word) :
    (if raw &&& 0xffff &&& 0x8000 ≠ 0 then raw &&& 0xffff ||| 0xffff0000 else raw &&& 0xffff) =
      (immediate raw).signExtend 32 := by
  have hsign : raw &&& 0xffff &&& 0x8000 ≠ 0 ↔ (immediate raw).msb = true := by
    have htwoPow : (0x8000 : Word) = BitVec.twoPow 32 15 := rfl
    have hbit : (raw &&& 0xffff).getLsbD 15 = (immediate raw).msb := by
      rw [immediate, BitVec.msb_eq_getLsbD_last, BitVec.getLsbD_setWidth, BitVec.getLsbD_and]
      simp
    rw [htwoPow, BitVec.and_twoPow, ← hbit]
    cases (raw &&& 0xffff).getLsbD 15 <;> decide
  have himmediate : (immediate raw).toNat = raw.toNat % 2 ^ 16 := BitVec.toNat_setWidth _ _
  have hlow := toNat_and_0xffff raw
  apply BitVec.eq_of_toNat_eq
  rw [BitVec.toNat_signExtend, BitVec.toNat_setWidth, himmediate]
  by_cases hneg : (immediate raw).msb = true
  · have hor : (raw &&& 0xffff ||| 0xffff0000).toNat = raw.toNat % 2 ^ 16 + 0xffff * 2 ^ 16 := by
      rw [BitVec.toNat_or, hlow, Nat.or_comm, Nat.add_comm, ← Nat.shiftLeft_eq,
        Nat.shiftLeft_add_eq_or_of_lt (by omega)]
      rfl
    rw [if_pos (hsign.mpr hneg), if_pos hneg, hor]
    omega
  · rw [if_neg (hsign.not.mpr hneg), if_neg hneg, hlow]
    omega

/-- `extra & 0xffff` gives the immediate operand back. -/
theorem setWidth_immediate (raw : Word) :
    (immediate raw).signExtend 32 &&& 0xffff = (immediate raw).setWidth 32 := by
  apply BitVec.eq_of_toNat_eq
  have hlt := (immediate raw).isLt
  rw [toNat_and_0xffff, BitVec.toNat_signExtend, BitVec.toNat_setWidth]
  split <;> omega

/-- The shift amount in the instruction. -/
theorem toNat_shiftAmount (raw : Word) : ((raw >>> 6) &&& 0x1f).toNat = shiftAmount raw := by
  rw [toNat_and_0x1f, BitVec.toNat_ushiftRight, Nat.shiftRight_eq_div_pow, shiftAmount]

/-- What `Decode` puts into `extra`. -/
theorem decode_extra (raw : Word) : (decode raw).extra =
    match (opEntry (raw.toNat / 2 ^ 26)).2 with
    | .ifmt => (immediate raw).signExtend 32
    | .rfmt => (raw >>> 6) &&& 0x1f
    | .jfmt => raw &&& 0x3ffffff := by
  have hop := tableEntry_eq opTable (by decide) (raw >>> 26) (.res, .ifmt)
  rw [toNat_shiftRight_26] at hop
  rw [opEntry, ← hop, ← signExtend_immediate]
  rfl

/-- The instructions with an immediate operand. -/
def OpCode.hasImmediate : OpCode → Bool
  | .addi | .addiu | .slti | .sltiu | .andi | .ori | .xori | .lui => true
  | _ => false

/-- No instruction with a function field has an immediate. -/
theorem functionOp_hasImmediate : ∀ k < 64, ∀ op ∈ functionOp k, op.hasImmediate = false := by
  decide

/-- All the others have one. -/
theorem immediateOp_hasImmediate : ∀ k < 64, ∀ op ∈ immediateOp k, op.hasImmediate = true := by
  decide

/-- There `extra` is the immediate, with its sign. -/
theorem extra_of_immediate {raw : Word} {op : OpCode} (h : operation raw = some op)
    (hop : op.hasImmediate = true) : (decode raw).extra = (immediate raw).signExtend 32 := by
  have hlt := raw.isLt
  have hdecoded := operation_eq raw
  rw [operation] at h hdecoded
  by_cases hspecial : raw.toNat / 2 ^ 26 = 0
  · rw [if_pos hspecial] at h
    have hnot := functionOp_hasImmediate _ (by omega) op h
    rw [hop] at hnot
    cases hnot
  · obtain ⟨-, hentry, hformat⟩ := opEntry_other (raw.toNat / 2 ^ 26) (by omega) hspecial
    rw [if_neg hspecial, hentry] at h
    have hinteger : (opEntry (raw.toNat / 2 ^ 26)).1.isInteger = true := by
      by_contra hnot
      rw [if_neg hnot] at h
      cases h
    rw [decode_extra, hformat hinteger]

/-- Else it is the shift amount. -/
theorem extra_of_shift {raw : Word} {op : OpCode} (h : operation raw = some op)
    (hop : op.hasImmediate = false) : (decode raw).extra.toNat = shiftAmount raw := by
  have hlt := raw.isLt
  rw [operation] at h
  by_cases hspecial : raw.toNat / 2 ^ 26 = 0
  · rw [decode_extra, hspecial, opEntry_special]
    exact toNat_shiftAmount raw
  · rw [if_neg hspecial] at h
    have hnot := immediateOp_hasImmediate _ (by omega) op h
    rw [hop] at hnot
    cases hnot

/-! ## Overflow -/

/-- The test of the signs that `OP_ADD` and `OP_SUB` make. -/
theorem xor_signBit_ne_zero_iff (x y : Word) :
    (x ^^^ y) &&& signBit ≠ 0 ↔ ¬ (x.toInt < 0 ↔ y.toInt < 0) := by
  rw [signBit, and_signBit_ne_zero_iff, BitVec.msb_xor, BitVec.msb_eq_toInt, BitVec.msb_eq_toInt]
  by_cases hx : x.toInt < 0 <;> by_cases hy : y.toInt < 0 <;> simp [hx, hy]

/-- The test of `ADD`. -/
theorem add_overflows_iff (x y : Word) :
    (x ^^^ y) &&& signBit = 0 ∧ (x ^^^ (x + y)) &&& signBit ≠ 0 ↔
      ¬ (-2 ^ 31 ≤ x.toInt + y.toInt ∧ x.toInt + y.toInt < 2 ^ 31) := by
  have hsum : (x + y).toInt = (x.toInt + y.toInt).bmod (2 ^ 32) := BitVec.toInt_add x y
  rw [← not_ne_iff, xor_signBit_ne_zero_iff, xor_signBit_ne_zero_iff, hsum, Int.bmod_def]
  have hx := BitVec.le_toInt x
  have hx' := BitVec.toInt_lt (x := x)
  have hy := BitVec.le_toInt y
  have hy' := BitVec.toInt_lt (x := y)
  omega

/-- The test of `ADDI`. -/
theorem addi_overflows_iff (x y : Word) :
    (x ^^^ y) &&& signBit = 0 ∧ (y ^^^ (x + y)) &&& signBit ≠ 0 ↔
      ¬ (-2 ^ 31 ≤ x.toInt + y.toInt ∧ x.toInt + y.toInt < 2 ^ 31) := by
  rw [BitVec.xor_comm x y, BitVec.add_comm x y, Int.add_comm]
  exact add_overflows_iff y x

/-- The test of `SUB`. -/
theorem sub_overflows_iff (x y : Word) :
    (x ^^^ y) &&& signBit ≠ 0 ∧ (x ^^^ (x - y)) &&& signBit ≠ 0 ↔
      ¬ (-2 ^ 31 ≤ x.toInt - y.toInt ∧ x.toInt - y.toInt < 2 ^ 31) := by
  have hdiff : (x - y).toInt = (x.toInt - y.toInt).bmod (2 ^ 32) := BitVec.toInt_sub
  rw [xor_signBit_ne_zero_iff, xor_signBit_ne_zero_iff, hdiff, Int.bmod_def]
  have hx := BitVec.le_toInt x
  have hx' := BitVec.toInt_lt (x := x)
  have hy := BitVec.le_toInt y
  have hy' := BitVec.toInt_lt (x := y)
  omega

/-! ## The cases of the `switch` -/

namespace Machine

variable {μ : Type} {env : Environment μ} {m : Machine μ}

/-- The cases of the source that do something else: `OR` has its first operand twice, and `SRL`
and `SRLV` shift an `int`. -/
def Slips (m : Machine μ) (instr : Instruction) : Prop :=
  (instr.opCode = .or ∧ m.reg instr.rs ||| m.reg instr.rt ≠ m.reg instr.rs) ∨
    ((m.reg instr.rt).msb = true ∧ ((instr.opCode = .srl ∧ instr.extra ≠ 0) ∨
      (instr.opCode = .srlv ∧ m.reg instr.rs &&& 0x1f ≠ 0)))

/-- The division that the host cannot do. -/
def DivisionFails (m : Machine μ) (instr : Instruction) : Prop :=
  instr.opCode = .div ∧ m.reg instr.rs = intMin ∧ m.reg instr.rt = -1

/-- The `switch` is left with the result, or with another value in its place exactly if the case
slips. -/
def Performs (env : Environment μ) (m : Machine μ) (instr : Instruction) (pcAfter : Word)
    (x : Except Fault (Effect μ)) : Result → Prop
  | .overflow => x = m.raise env .overflow 0
  | .register r value => ∃ computed,
      x = .ok (.executed (m.set (gp r) computed) pcAfter 0 0) ∧
        (computed = value ↔ ¬ m.Slips instr)
  | .hiLo hi lo => ∃ m', x = .ok (.executed m' pcAfter 0 0) ∧
      (∀ value ∈ hi, m'.registers hiReg = value) ∧ (∀ value ∈ lo, m'.registers loReg = value) ∧
      ∀ i, i ≠ hiReg → i ≠ loReg → m'.registers i = m.registers i

/-- All instructions but three do what the manual says. -/
theorem not_slips {opCode : OpCode} {rs rt rd : Fin numGPRegs} {extra : Word}
    (h : opCode ≠ .or ∧ opCode ≠ .srl ∧ opCode ≠ .srlv) :
    ¬ m.Slips ⟨opCode, rs, rt, rd, extra⟩ := by
  obtain ⟨hor, hsrl, hsrlv⟩ := h
  rintro (⟨hop, -⟩ | ⟨-, ⟨hop, -⟩ | ⟨hop, -⟩⟩)
  · exact hor hop
  · exact hsrl hop
  · exact hsrlv hop

/-- `OP_OR` drops its second operand. -/
theorem slips_or {rs rt rd : Fin numGPRegs} {extra : Word} :
    m.Slips ⟨.or, rs, rt, rd, extra⟩ ↔ m.reg rs ||| m.reg rt ≠ m.reg rs := by
  simp [Slips]

/-- `OP_SRL` shifts in copies of the sign. -/
theorem slips_srl {rs rt rd : Fin numGPRegs} {extra : Word} :
    m.Slips ⟨.srl, rs, rt, rd, extra⟩ ↔ (m.reg rt).msb = true ∧ extra ≠ 0 := by
  simp [Slips]

/-- `OP_SRLV` does so too. -/
theorem slips_srlv {rs rt rd : Fin numGPRegs} {extra : Word} :
    m.Slips ⟨.srlv, rs, rt, rd, extra⟩ ↔ (m.reg rt).msb = true ∧ m.reg rs &&& 0x1f ≠ 0 := by
  simp [Slips]

/-- An instruction that sets one register, to the right value unless it slips. -/
theorem performs_register {instr : Instruction} {pcAfter computed value : Word}
    {r : Fin numGPRegs} (hslips : ¬ m.Slips instr) (h : computed = value) :
    Performs env m instr pcAfter (.ok (.executed (m.set (gp r) computed) pcAfter 0 0))
      (.register r value) := ⟨computed, rfl, iff_of_true h hslips⟩

/-- An instruction that traps if the exact value does not fit. -/
theorem performs_exactly {instr : Instruction} {pcAfter sum : Word} {r : Fin numGPRegs}
    {value : ℤ} {overflows : Prop} [Decidable overflows] (hslips : ¬ m.Slips instr)
    (hoverflows : overflows ↔ ¬ (-2 ^ 31 ≤ value ∧ value < 2 ^ 31))
    (hsum : sum = BitVec.ofInt 32 value) :
    Performs env m instr pcAfter (if overflows then m.raise env .overflow 0
      else .ok (.executed (m.set (gp r) sum) pcAfter 0 0)) (exactly r value) := by
  rw [exactly]
  by_cases hfits : -2 ^ 31 ≤ value ∧ value < 2 ^ 31
  · rw [if_neg (fun h => hoverflows.mp h hfits), if_pos hfits]
    exact performs_register hslips hsum
  · rw [if_pos (hoverflows.mpr hfits), if_neg hfits]
    rfl

/-- An instruction that sets `HI` or `LO`, and no other register. -/
theorem performs_hiLo {instr : Instruction} {pcAfter : Word} {m' : Machine μ}
    {hi lo : Option Word} (hhi : ∀ value ∈ hi, m'.registers hiReg = value)
    (hlo : ∀ value ∈ lo, m'.registers loReg = value)
    (hothers : ∀ i, i ≠ hiReg → i ≠ loReg → m'.registers i = m.registers i) :
    Performs env m instr pcAfter (.ok (.executed m' pcAfter 0 0)) (.hiLo hi lo) :=
  ⟨m', rfl, hhi, hlo, hothers⟩

theorem set_hi_lo (hi lo : Word) : ((m.set hiReg hi).set loReg lo).registers hiReg = hi := by
  rw [set_registers_of_ne (by decide), set_registers_self]

theorem set_lo_hi (hi lo : Word) : ((m.set loReg lo).set hiReg hi).registers loReg = lo := by
  rw [set_registers_of_ne (by decide), set_registers_self]

/-- `OP_MULT` and `OP_MULTU` put the two words of the product into `HI` and `LO`. -/
theorem performs_product {instr : Instruction} {pcAfter : Word} {p : BitVec 64}
    {words : Word × Word} (h : doubleWord words.1 words.2 = p) :
    Performs env m instr pcAfter
      (.ok (.executed ((m.set hiReg words.1).set loReg words.2) pcAfter 0 0)) (product p) := by
  apply performs_hiLo
  · intro value hvalue
    rw [Option.mem_some_iff] at hvalue
    rw [set_hi_lo, ← hvalue, ← h]
    exact BitVec.extractLsb'_append_eq_left.symm
  · intro value hvalue
    rw [Option.mem_some_iff] at hvalue
    rw [set_registers_self, ← hvalue, ← h]
    exact BitVec.extractLsb'_append_eq_right.symm
  · intro i hhi hlo
    rw [set_registers_of_ne hlo, set_registers_of_ne hhi]

/-- `OP_DIV` and `OP_DIVU` put the quotient into `LO` and the remainder into `HI`. -/
theorem performs_division {instr : Instruction} {pcAfter quotient remainder : Word}
    {hi lo : Option Word} (hhi : ∀ value ∈ hi, remainder = value)
    (hlo : ∀ value ∈ lo, quotient = value) :
    Performs env m instr pcAfter
      (.ok (.executed ((m.set loReg quotient).set hiReg remainder) pcAfter 0 0)) (.hiLo hi lo) := by
  apply performs_hiLo
  · intro value hvalue
    rw [set_registers_self]
    exact hhi value hvalue
  · intro value hvalue
    rw [set_lo_hi]
    exact hlo value hvalue
  · intro i hhi hlo
    rw [set_registers_of_ne hhi, set_registers_of_ne hlo]

/-! ## The operations -/

/-- The two words of a signed product. -/
theorem doubleWord_signed (x y : Word) :
    doubleWord (mult x y true).1 (mult x y true).2 = BitVec.ofInt 64 (x.toInt * y.toInt) := by
  rw [← mult_signed, BitVec.ofInt_toInt]

/-- The two words of an unsigned product. -/
theorem doubleWord_unsigned (x y : Word) :
    doubleWord (mult x y false).1 (mult x y false).2 = BitVec.ofNat 64 (x.toNat * y.toNat) := by
  rw [← mult_unsigned, BitVec.ofNat_toNat, BitVec.setWidth_eq]

/-- The sum of words is the exact sum, wrapped around. -/
theorem add_eq_ofInt (x y : Word) : x + y = BitVec.ofInt 32 (x.toInt + y.toInt) := by
  apply BitVec.eq_of_toInt_eq
  rw [BitVec.toInt_add, BitVec.toInt_ofInt]

/-- The difference too. -/
theorem sub_eq_ofInt (x y : Word) : x - y = BitVec.ofInt 32 (x.toInt - y.toInt) := by
  apply BitVec.eq_of_toInt_eq
  rw [BitVec.toInt_sub, BitVec.toInt_ofInt]

/-- The comparison of words is that of the numbers. -/
theorem slt_eq_truth (x y : Word) : (if x.slt y then (1 : Word) else 0) = truth (x.toInt < y.toInt) := by
  simp only [truth, BitVec.slt_iff_toInt_lt]

/-- The quotient rounds towards zero. -/
theorem sdiv_eq_ofInt (x y : Word) : x.sdiv y = BitVec.ofInt 32 (x.toInt.tdiv y.toInt) := by
  apply BitVec.eq_of_toInt_eq
  rw [BitVec.toInt_sdiv, BitVec.toInt_ofInt]

/-- The remainder has the sign of the dividend. -/
theorem srem_eq_ofInt (x y : Word) : x.srem y = BitVec.ofInt 32 (x.toInt.tmod y.toInt) := by
  rw [← BitVec.toInt_srem, BitVec.ofInt_toInt]

theorem umod_eq_ofNat (x y : Word) : x % y = BitVec.ofNat 32 (x.toNat % y.toNat) := by
  rw [← BitVec.toNat_umod, BitVec.ofNat_toNat, BitVec.setWidth_eq]

/-- `OP_LUI` puts the immediate into the upper half. -/
theorem lui_eq (imm : BitVec 16) : imm.signExtend 32 <<< 16 = imm ++ (0 : BitVec 16) := by
  apply BitVec.eq_of_getLsbD_eq
  intro i hi
  simp only [BitVec.getLsbD_shiftLeft, BitVec.getLsbD_signExtend, BitVec.getLsbD_append]
  grind

/-- An arithmetic shift is the logical one for a word without sign and for the amount 0. -/
theorem sshiftRight_eq_iff (x : Word) {n : ℕ} (hn : n < 32) :
    x.sshiftRight n = x >>> n ↔ ¬ (x.msb = true ∧ n ≠ 0) := by
  constructor
  · rintro heq ⟨hmsb, hzero⟩
    -- the highest bit is the sign, and 0 in a logical shift
    have hbit := congrArg (fun y : Word => y.getLsbD 31) heq
    simp only [BitVec.getLsbD_sshiftRight, BitVec.getLsbD_ushiftRight] at hbit
    rw [if_neg (by omega), BitVec.getLsbD_of_ge _ _ (by omega), hmsb] at hbit
    simp at hbit
  · intro h
    by_cases hmsb : x.msb = true
    · have hzero : n = 0 := by
        by_contra hzero
        exact h ⟨hmsb, hzero⟩
      rw [hzero, BitVec.sshiftRight_zero, BitVec.ushiftRight_zero]
    · exact BitVec.sshiftRight_eq_of_msb_false (Bool.eq_false_iff.mpr hmsb)

/-- Each integer instruction whose division does not fail does what the manual says, unless it
slips. -/
theorem execute_performs (env : Environment μ) (m : Machine μ) {raw : Word}
    (hinteger : (decode raw).opCode.isInteger = true) (hdiv : ¬ m.DivisionFails (decode raw))
    (pcAfter : Word) :
    ∃ value, result raw m.registers = some value ∧
      Performs env m (decode raw) pcAfter (m.execute env (decode raw) pcAfter) value := by
  have hop := operation_eq raw
  rw [if_pos hinteger] at hop
  have hrs : registerAt raw 21 = (decode raw).rs := (registerField_eq raw 21).symm
  have hrt : registerAt raw 16 = (decode raw).rt := (registerField_eq raw 16).symm
  have hrd : registerAt raw 11 = (decode raw).rd := (registerField_eq raw 11).symm
  have hext := fun himm => extra_of_immediate hop himm
  have hlow := fun himm => extra_of_shift hop himm
  rw [result, hop, hrs, hrt, hrd]
  have hshift := (decode_handled raw).2
  -- the fields of the word are known now, so the instruction itself can be taken apart
  generalize decode raw = instr at *
  obtain ⟨opCode, rs, rt, rd, extra⟩ := instr
  dsimp only at *
  cases opCode with
  | addu | subu | and | xor | nor | mfhi | mflo =>
    exact ⟨_, rfl, performs_register (not_slips (by decide)) rfl⟩
  | addiu =>
    exact ⟨_, rfl, performs_register (not_slips (by decide)) (by rw [hext rfl]; rfl)⟩
  | andi | ori | xori =>
    refine ⟨_, rfl, performs_register (not_slips (by decide)) ?_⟩
    dsimp only
    rw [hext rfl, setWidth_immediate]
    rfl
  | lui =>
    refine ⟨_, rfl, performs_register (not_slips (by decide)) ?_⟩
    dsimp only
    rw [hext rfl, lui_eq]
  | add =>
    exact ⟨_, rfl, performs_exactly (not_slips (by decide)) (add_overflows_iff _ _)
      (add_eq_ofInt _ _)⟩
  | addi =>
    have hint : (immediate raw).toInt = extra.toInt := by
      rw [hext rfl, BitVec.toInt_signExtend_of_le (by decide)]
    rw [hint]
    exact ⟨_, rfl, performs_exactly (not_slips (by decide)) (addi_overflows_iff _ _)
      (add_eq_ofInt _ _)⟩
  | sub =>
    exact ⟨_, rfl, performs_exactly (not_slips (by decide)) (sub_overflows_iff _ _)
      (sub_eq_ofInt _ _)⟩
  | slt => exact ⟨_, rfl, performs_register (not_slips (by decide)) (slt_eq_truth _ _)⟩
  | slti =>
    have hint : (immediate raw).toInt = extra.toInt := by
      rw [hext rfl, BitVec.toInt_signExtend_of_le (by decide)]
    rw [hint]
    exact ⟨_, rfl, performs_register (not_slips (by decide)) (slt_eq_truth _ _)⟩
  | sltu => exact ⟨_, rfl, performs_register (not_slips (by decide)) rfl⟩
  | sltiu =>
    rw [← hext rfl]
    exact ⟨_, rfl, performs_register (not_slips (by decide)) rfl⟩
  | or =>
    refine ⟨_, rfl, _, rfl, ?_⟩
    -- the code computes `rs | rs`
    rw [slips_or, not_ne_iff, BitVec.or_self]
    exact eq_comm
  | sll =>
    have hlt : extra.toNat < 32 := hshift (by decide)
    unfold execute
    dsimp only
    rw [shiftLeft_eq hlt, ← hlow rfl]
    exact ⟨_, rfl, performs_register (not_slips (by decide)) rfl⟩
  | sra =>
    have hlt : extra.toNat < 32 := hshift (by decide)
    unfold execute
    dsimp only
    rw [shiftRight_eq hlt, ← hlow rfl]
    exact ⟨_, rfl, performs_register (not_slips (by decide)) rfl⟩
  | srl =>
    have hlt : extra.toNat < 32 := hshift (by decide)
    unfold execute
    dsimp only
    rw [shiftRight_eq hlt, ← hlow rfl]
    -- the code shifts the sign in, so it is right exactly where the two shifts agree
    refine ⟨_, rfl, _, rfl, (sshiftRight_eq_iff _ hlt).trans ?_⟩
    rw [slips_srl, ne_eq, ne_eq, ← BitVec.toNat_inj]
    rfl
  | sllv =>
    unfold execute
    dsimp only
    rw [shiftLeft_eq (and_0x1f_lt _), toNat_and_0x1f]
    exact ⟨_, rfl, performs_register (not_slips (by decide)) rfl⟩
  | srav =>
    unfold execute
    dsimp only
    rw [shiftRight_eq (and_0x1f_lt _), toNat_and_0x1f]
    exact ⟨_, rfl, performs_register (not_slips (by decide)) rfl⟩
  | srlv =>
    unfold execute
    dsimp only
    rw [shiftRight_eq (and_0x1f_lt _), toNat_and_0x1f]
    -- the same slip with the count in a register
    refine ⟨_, rfl, _, rfl, (sshiftRight_eq_iff _ (by omega)).trans ?_⟩
    rw [slips_srlv, ne_eq, ne_eq, ← BitVec.toNat_inj, toNat_and_0x1f]
    rfl
  | mult => exact ⟨_, rfl, performs_product (doubleWord_signed _ _)⟩
  | multu => exact ⟨_, rfl, performs_product (doubleWord_unsigned _ _)⟩
  | div =>
    unfold execute
    dsimp only
    by_cases hzero : m.reg rt = 0
    · rw [if_pos hzero]
      exact ⟨_, congrArg some (if_pos hzero), performs_division (by simp) (by simp)⟩
    · -- C leaves the quotient of the smallest number by -1 undefined; `hdiv` excludes it
      have hfits : ¬ (m.reg rt = 0 ∨ m.reg rs = intMin ∧ m.reg rt = -1) := by
        rintro (h | ⟨hmin, hneg⟩)
        · exact hzero h
        · exact hdiv ⟨rfl, hmin, hneg⟩
      rw [if_neg hzero, divide, if_neg hfits, sdiv_eq_ofInt, srem_eq_ofInt]
      exact ⟨_, congrArg some (if_neg hzero), performs_division (by simp [reg]) (by simp [reg])⟩
  | divu =>
    unfold execute
    dsimp only
    by_cases hzero : m.reg rt = 0
    · rw [if_pos hzero]
      exact ⟨_, congrArg some (if_pos hzero), performs_division (by simp) (by simp)⟩
    · rw [if_neg hzero, divideUnsigned, if_neg hzero, BitVec.udiv_def, umod_eq_ofNat]
      exact ⟨_, congrArg some (if_neg hzero), performs_division (by simp [reg]) (by simp [reg])⟩
  | mthi =>
    refine ⟨_, rfl, performs_hiLo ?_ (by simp) fun i hhi _ => set_registers_of_ne hhi _⟩
    intro value hvalue
    rw [set_registers_self]
    exact Option.mem_some_iff.mp hvalue
  | mtlo =>
    refine ⟨_, rfl, performs_hiLo (by simp) ?_ fun i _ hlo => set_registers_of_ne hlo _⟩
    intro value hvalue
    rw [set_registers_self]
    exact Option.mem_some_iff.mp hvalue
  | _ => cases hinteger

/-! ## One instruction -/

/-- The pending load is for the register. -/
def Pending (m : Machine μ) (i : Fin numTotalRegs) : Prop := (m.registers loadReg).toNat = i

instance (m : Machine μ) (i : Fin numTotalRegs) : Decidable (m.Pending i) :=
  inferInstanceAs (Decidable (_ = _))

/-- What a register holds after an instruction that does not write it. -/
def settled (m : Machine μ) (r : Fin numGPRegs) : Word :=
  if r = 0 then 0 else if m.Pending (gp r) then m.registers loadValueReg else m.reg r

/-- The instruction raises `OverflowException`, or leaves the value in its destination; the other
general-purpose registers are unchanged apart from the pending load. -/
def Leaves (env : Environment μ) (m : Machine μ) (x : Except Fault (Outcome μ)) : Result → Prop
  | .overflow => ∃ m', x = .ok (.raised (env.exceptionHandler .overflow m')) ∧
      ∀ r, m'.reg r = m.settled r
  | .register r value => ∃ m', x = .ok (.completed m') ∧
      m'.reg r = (if r = 0 then 0 else value) ∧ ∀ r', r' ≠ r → m'.reg r' = m.settled r'
  | .hiLo hi lo => ∃ m', x = .ok (.completed m') ∧
      (∀ value ∈ hi, m'.registers hiReg = value) ∧ (∀ value ∈ lo, m'.registers loReg = value) ∧
      ∀ r, m'.reg r = m.settled r

/-- Neither the operation nor the pending load stands in the way of the result. -/
def Meets (m : Machine μ) (instr : Instruction) : Result → Prop
  | .overflow => True
  | .register r value => r = 0 ∨ (m.Pending (gp r) ∧ m.registers loadValueReg = value) ∨
      (¬ m.Pending (gp r) ∧ ¬ m.Slips instr)
  | .hiLo hi lo => (∀ value ∈ hi, m.Pending hiReg → m.registers loadValueReg = value) ∧
      ∀ value ∈ lo, m.Pending loReg → m.registers loadValueReg = value

theorem gp_eq_iff {r r' : Fin numGPRegs} : gp r = gp r' ↔ r = r' := by
  rw [Fin.ext_iff, Fin.ext_iff]
  rfl

/-- A general register after the pending load. -/
theorem afterLoad_gp (r : Fin numGPRegs) : m.afterLoad 0 0 (gp r) = m.settled r := by
  have hvalue : gp r ≠ loadValueReg := gp_ne (by decide)
  have hload : gp r ≠ loadReg := gp_ne (by decide)
  rw [afterLoad, settled, if_neg hvalue, if_neg hload]
  simp only [gp_eq_iff, Pending, eq_comm (a := ((gp r : Fin numTotalRegs) : ℕ))]
  rfl

/-- A special register after the pending load. -/
theorem afterLoad_special {i : Fin numTotalRegs} (hzero : i ≠ gp 0) (hvalue : i ≠ loadValueReg)
    (hload : i ≠ loadReg) : m.afterLoad 0 0 i =
      if m.Pending i then m.registers loadValueReg else m.registers i := by
  rw [afterLoad, if_neg hzero, if_neg hvalue, if_neg hload]
  simp only [Pending, eq_comm]

theorem pending_congr {m' : Machine μ} (h : m'.registers loadReg = m.registers loadReg)
    (i : Fin numTotalRegs) : m'.Pending i ↔ m.Pending i := by
  rw [Pending, Pending, h]

/-- What a register settles to depends on the pending load and on the register only. -/
theorem settled_congr {m' : Machine μ} {r : Fin numGPRegs}
    (hload : m'.registers loadReg = m.registers loadReg)
    (hvalue : m'.registers loadValueReg = m.registers loadValueReg)
    (hreg : m'.registers (gp r) = m.registers (gp r)) : m'.settled r = m.settled r := by
  simp only [settled, pending_congr hload, reg, hvalue, hreg]

/-- The rest of `OneInstruction` applies the pending load and moves the program counters. -/
theorem finish_executed (h : (m.registers loadReg).toNat < numTotalRegs) (pcAfter : Word) :
    ∃ m', finish (.executed m pcAfter 0 0) = .ok (.completed m') ∧
      ∀ i, i ≠ prevPCReg → i ≠ pcReg → i ≠ nextPCReg →
        m'.registers i = m.afterLoad 0 0 i := by
  let after : Machine μ := { m with registers := m.afterLoad 0 0 }
  let advanced := (after.set prevPCReg (after.registers pcReg))
  refine ⟨(advanced.set pcReg (advanced.registers nextPCReg)).set nextPCReg pcAfter, ?_,
    fun i hprev hpc hnext => ?_⟩
  · exact congrArg (· >>= _) (delayedLoad_of_lt h 0 0)
  · rw [set_registers_of_ne hnext, set_registers_of_ne hpc, set_registers_of_ne hprev]

/-- With a pending load for a register that there is, the instruction does its work exactly if
nothing stands in the way. -/
theorem leaves_iff {instr : Instruction} {pcAfter : Word} {x : Except Fault (Effect μ)}
    {value : Result} (h : (m.registers loadReg).toNat < numTotalRegs)
    (hperforms : Performs env m instr pcAfter x value) :
    Leaves env m (x >>= finish) value ↔ m.Meets instr value := by
  cases value with
  | overflow =>
    -- an overflow raises the exception and writes no general register
    refine iff_of_true ?_ trivial
    have hraise : m.raise env .overflow 0 >>= finish = .ok (.raised (env.exceptionHandler .overflow
        { m.set badVAddrReg 0 with registers := (m.set badVAddrReg 0).afterLoad 0 0 })) := by
      have hload := delayedLoad_of_lt (m := m.set badVAddrReg 0)
        (by rwa [set_registers_of_ne (by decide)]) 0 0
      rw [raise, raiseException, hload]
      rfl
    refine ⟨_, (congrArg (· >>= finish) hperforms).trans hraise, fun r => ?_⟩
    refine (afterLoad_gp r).trans ?_
    exact settled_congr (set_registers_of_ne (by decide) _) (set_registers_of_ne (by decide) _)
      (set_registers_of_ne (gp_ne (by decide)) _)
  | register r value =>
    obtain ⟨computed, rfl, hcomputed⟩ := hperforms
    have hload : (m.set (gp r) computed).registers loadReg = m.registers loadReg :=
      set_registers_of_ne (loadReg_ne_gp r) computed
    have hvalue : (m.set (gp r) computed).registers loadValueReg = m.registers loadValueReg :=
      set_registers_of_ne (gp_ne (by decide)).symm computed
    obtain ⟨m', hfinish, hregs⟩ := finish_executed (by rwa [hload]) pcAfter
    have hgp : ∀ r', m'.reg r' = (m.set (gp r) computed).settled r' := fun r' =>
      (hregs (gp r') (gp_ne (by decide)) (gp_ne (by decide)) (gp_ne (by decide))).trans
        (afterLoad_gp r')
    have hothers : ∀ r', r' ≠ r → m'.reg r' = m.settled r' := fun r' hr' =>
      (hgp r').trans (settled_congr hload hvalue (set_registers_of_ne (gp_eq_iff.not.mpr hr') _))
    -- a pending load into `r` is done after the instruction and wins
    have hself : m'.reg r = if r = 0 then 0
        else if m.Pending (gp r) then m.registers loadValueReg else computed := by
      rw [hgp, settled]
      simp only [pending_congr hload, reg, hvalue, set_registers_self]
    have hmeets : m'.reg r = (if r = 0 then 0 else value) ↔ m.Meets instr (.register r value) := by
      rw [hself, Meets]
      by_cases hzero : r = 0
      · simp [hzero]
      · by_cases hpending : m.Pending (gp r) <;> simp [hzero, hpending, hcomputed]
    rw [← hmeets, ok_bind, hfinish]
    constructor
    · rintro ⟨m'', heq, hregister, -⟩
      cases heq
      exact hregister
    · exact fun hregister => ⟨m', rfl, hregister, hothers⟩
  | hiLo hi lo =>
    obtain ⟨m₁, rfl, hhi, hlo, hkept⟩ := hperforms
    have hload : m₁.registers loadReg = m.registers loadReg := hkept _ (by decide) (by decide)
    have hvalue : m₁.registers loadValueReg = m.registers loadValueReg :=
      hkept _ (by decide) (by decide)
    obtain ⟨m', hfinish, hregs⟩ := finish_executed (by rwa [hload]) pcAfter
    have hothers : ∀ r, m'.reg r = m.settled r := fun r =>
      ((hregs (gp r) (gp_ne (by decide)) (gp_ne (by decide)) (gp_ne (by decide))).trans
        (afterLoad_gp r)).trans
          (settled_congr hload hvalue (hkept _ (gp_ne (by decide)) (gp_ne (by decide))))
    -- the same for a pending load that names one of the two words
    have hhi' : m'.registers hiReg =
        if m.Pending hiReg then m.registers loadValueReg else m₁.registers hiReg := by
      rw [hregs _ (by decide) (by decide) (by decide),
        afterLoad_special (by decide) (by decide) (by decide)]
      simp only [pending_congr hload, hvalue]
    have hlo' : m'.registers loReg =
        if m.Pending loReg then m.registers loadValueReg else m₁.registers loReg := by
      rw [hregs _ (by decide) (by decide) (by decide),
        afterLoad_special (by decide) (by decide) (by decide)]
      simp only [pending_congr hload, hvalue]
    rw [ok_bind, hfinish]
    constructor
    · rintro ⟨m'', heq, hhi'', hlo'', -⟩
      cases heq
      constructor
      · intro value hmem hpending
        rw [← hhi'' value hmem, hhi', if_pos hpending]
      · intro value hmem hpending
        rw [← hlo'' value hmem, hlo', if_pos hpending]
    · rintro ⟨hhi'', hlo''⟩
      refine ⟨m', rfl, fun value hmem => ?_, fun value hmem => ?_, hothers⟩
      · rw [hhi']
        split
        · exact hhi'' value hmem ‹_›
        · exact hhi value hmem
      · rw [hlo']
        split
        · exact hlo'' value hmem ‹_›
        · exact hlo value hmem

/-- A pending load for a register that there is not stops the simulator. -/
theorem finish_error {instr : Instruction} {pcAfter : Word} {x : Except Fault (Effect μ)}
    {value : Result} (h : ¬ (m.registers loadReg).toNat < numTotalRegs)
    (hperforms : Performs env m instr pcAfter x value) : x >>= finish = .error .registers := by
  have hload : ∀ {m' : Machine μ}, m'.registers loadReg = m.registers loadReg →
      m'.delayedLoad 0 0 = .error .registers := by
    intro m' hm'
    rw [delayedLoad, dif_neg (by rwa [hm'])]
  cases value with
  | overflow =>
    have hraise : m.raise env .overflow 0 = .error .registers := by
      rw [raise, raiseException, hload (set_registers_of_ne (by decide) _)]
      rfl
    exact (congrArg (· >>= finish) hperforms).trans (congrArg (· >>= finish) hraise)
  | register r value =>
    obtain ⟨computed, rfl, -⟩ := hperforms
    rw [ok_bind, finish]
    exact congrArg (· >>= _) (hload (set_registers_of_ne (loadReg_ne_gp r) computed))
  | hiLo hi lo =>
    obtain ⟨m', rfl, -, -, hkept⟩ := hperforms
    rw [ok_bind, finish]
    exact congrArg (· >>= _) (hload (hkept _ (by decide) (by decide)))

/-- A crash leaves nothing that could be right. -/
theorem not_leaves_error (fault : Fault) (value : Result) :
    ¬ Leaves env m (.error fault) value := by
  cases value <;> rintro ⟨m', heq, -⟩ <;> cases heq

/-- `Decode` and `OneInstruction` do for an integer instruction what the processor does exactly
if the pending load is for a register that there is, the host can divide, and neither the slip
of an operation nor the pending load gets in the way of the result. -/
theorem oneInstruction_integer_iff (env : Environment μ) (debug : Bool) (m : Machine μ) {pa : ℕ}
    {memory : μ}
    (hfetch : env.translate m.memory (m.registers pcReg) .word false = (.ok pa, memory))
    (hinteger : (decode (env.fetch memory pa .word)).opCode.isInteger = true) :
    (∃ value, result (env.fetch memory pa .word) m.registers = some value ∧
      Leaves env m (m.oneInstruction env debug) value) ↔
      (m.registers loadReg).toNat < numTotalRegs ∧
        ¬ m.DivisionFails (decode (env.fetch memory pa .word)) ∧
        ∃ value, result (env.fetch memory pa .word) m.registers = some value ∧
          m.Meets (decode (env.fetch memory pa .word)) value := by
  have hread : m.readMem env (m.registers pcReg) .word =
      .ok (some (env.fetch memory pa .word), { m with memory }) := by
    rw [readMem, resolve, hfetch]
    rfl
  rw [oneInstruction_of_read hread]
  -- the division that the host refuses leaves no machine at all
  by_cases hdiv : m.DivisionFails (decode (env.fetch memory pa .word))
  · obtain ⟨fault, herror⟩ := execute_crashes (m := { m with memory }) env (.inl hdiv)
      (m.registers nextPCReg + 4)
    rw [herror]
    refine iff_of_false ?_ fun h => h.2.1 hdiv
    rintro ⟨value, -, hleaves⟩
    exact not_leaves_error fault value hleaves
  · obtain ⟨value, hvalue, hperforms⟩ := execute_performs env { m with memory } hinteger hdiv
      (m.registers nextPCReg + 4)
    -- the reference gives one result, so the two sides speak of the same one
    have hunique : ∀ {P : Result → Prop},
        (∃ value', result (env.fetch memory pa .word) m.registers = some value' ∧ P value') ↔
          P value := by
      intro P
      rw [show result (env.fetch memory pa .word) m.registers = some value from hvalue]
      simp
    rw [hunique, hunique]
    -- a pending load for a register that does not exist stops the instruction at its end
    by_cases hload : (m.registers loadReg).toNat < numTotalRegs
    · have hleaves := leaves_iff (m := { m with memory }) hload hperforms
      exact Iff.trans hleaves ⟨fun h => ⟨hload, hdiv, h⟩, fun h => h.2.2⟩
    · have herror := finish_error (m := { m with memory }) hload hperforms
      refine iff_of_false (fun h => ?_) fun h => hload h.1
      rw [herror] at h
      exact not_leaves_error _ _ h

/-- `ADD r3,r1,r2` of 1 and 2. -/
theorem oneInstruction_integer_add : ∃ value,
    result 0x00221820 (operands 0x00221820 1 2).registers = some value ∧
      Leaves wordMemory (operands 0x00221820 1 2)
        ((operands 0x00221820 1 2).oneInstruction wordMemory true) value := by
  refine (oneInstruction_integer_iff wordMemory true (operands 0x00221820 1 2) rfl rfl).mpr
    ⟨by decide, fun h => absurd h.1 (by decide), .register 3 3, rfl, .inr (.inr ⟨by decide, ?_⟩)⟩
  rintro (⟨hop, -⟩ | ⟨-, ⟨hop, -⟩ | ⟨hop, -⟩⟩) <;> exact absurd hop (by decide)

/-- `OR r3,r1,r2` of 1 and 2 leaves 1. -/
theorem oneInstruction_not_integer : ¬ ∀ (env : Environment (List Word)) (debug : Bool)
    (m : Machine (List Word)) (pa : ℕ) (memory : List Word),
    env.translate m.memory (m.registers pcReg) .word false = (.ok pa, memory) →
    (decode (env.fetch memory pa .word)).opCode.isInteger = true →
    ∃ value, result (env.fetch memory pa .word) m.registers = some value ∧
      Leaves env m (m.oneInstruction env debug) value := by
  intro h
  obtain ⟨value, hvalue, hleaves⟩ :=
    h wordMemory false (operands 0x00221825 1 2) 0 [0x00221825] rfl rfl
  have hresult : result 0x00221825 (operands 0x00221825 1 2).registers =
      some (.register 3 3) := rfl
  have hdoes : ((operands 0x00221825 1 2).oneInstruction wordMemory false).map
      (fun outcome => outcome.machine.reg 3) = .ok 1 := rfl
  cases hresult.symm.trans hvalue
  obtain ⟨m', heq, hreg, -⟩ := hleaves
  rw [heq] at hdoes
  have hone : m'.reg 3 = 1 := Except.ok.inj hdoes
  rw [hone] at hreg
  exact absurd hreg (by decide)

end Machine
end NachOS
