import NachOS.Machine.Mips
import NachOS.Lib.Run

/-!
# Instructions that stop the simulator

Whatever the tables of `mipssim.h` answer to the bits of an instruction has a case in the
`switch` of `OneInstruction`, and every shift there is by less than 32. A division of the host
and the assertions on the addresses of `LWL`, `LWR`, `SWL` and `SWR` can fail.
-/

namespace NachOS

open PartialRun

/-! ## What comes out of the tables -/

/-- The `switch` has a case for the code. -/
def OpCode.Handled (opCode : OpCode) : Prop :=
  opCode ≠ .rfe ∧ opCode ≠ .special ∧ opCode ≠ .bcond

instance (opCode : OpCode) : Decidable opCode.Handled := inferInstanceAs (Decidable (_ ∧ _))

/-- The shifts by a constant amount. -/
def OpCode.IsShift (opCode : OpCode) : Prop := opCode = .sll ∨ opCode = .sra ∨ opCode = .srl

instance (opCode : OpCode) : Decidable opCode.IsShift := inferInstanceAs (Decidable (_ ∨ _))

theorem tableEntry_mem {α : Type} {table : List α} (h : table.length = 64) (value : Word) :
    tableEntry table h value ∈ table := List.get_mem _ _

/-- Every entry of `opTable` that decides alone names an instruction `OneInstruction` has a case
for. -/
theorem opTable_handled : ∀ entry ∈ opTable,
    entry.1 ≠ .special → entry.1 ≠ .bcond → entry.1.Handled ∧ ¬ entry.1.IsShift := by
  decide

/-- The entry that is looked up in `specialTable` has the R format, so `extra` holds the shift
count. -/
theorem opTable_special : ∀ entry ∈ opTable, entry.1 = .special → entry.2 = .rfmt := by
  decide

/-- `specialTable` too names only handled instructions. -/
theorem specialTable_handled : ∀ opCode ∈ specialTable, opCode.Handled := by
  decide

/-- The five bits of a register field always name a register. -/
theorem and_0x1f_lt (value : Word) : (value &&& 0x1f).toNat < 32 := by
  have hle : (value &&& 0x1f).toNat ≤ 31 := by
    rw [BitVec.toNat_and]
    exact Nat.and_le_right
  omega

/-- Every instruction word is decoded to a code that the `switch` has a case for, and a shift
has an amount below 32. -/
theorem decode_handled (value : Word) : (decode value).opCode.Handled ∧
    ((decode value).opCode.IsShift → (decode value).extra.toNat < 32) := by
  unfold decode
  obtain ⟨⟨opCode, format⟩, hentry⟩ : ∃ entry,
      tableEntry opTable (by decide) (value >>> 26) = entry := ⟨_, rfl⟩
  have hmem : (opCode, format) ∈ opTable := hentry ▸ tableEntry_mem _ _
  rw [hentry]
  dsimp only
  by_cases hspecial : opCode = .special
  · have hformat : format = .rfmt := opTable_special _ hmem hspecial
    subst hspecial hformat
    exact ⟨specialTable_handled _ (tableEntry_mem _ _), fun _ => and_0x1f_lt _⟩
  · by_cases hbcond : opCode = .bcond
    · subst hbcond
      dsimp only
      split
      · exact ⟨by decide, fun h => absurd h (by decide)⟩
      split
      · exact ⟨by decide, fun h => absurd h (by decide)⟩
      split
      · exact ⟨by decide, fun h => absurd h (by decide)⟩
      split
      · exact ⟨by decide, fun h => absurd h (by decide)⟩
      · exact ⟨by decide, fun h => absurd h (by decide)⟩
    · obtain ⟨hhandled, hshift⟩ := opTable_handled _ hmem hspecial hbcond
      split
      · exact absurd rfl hspecial
      · exact absurd rfl hbcond
      · exact ⟨hhandled, fun h => absurd h hshift⟩

/-- The `ASSERT` on `MaxOpcode` before the `switch` cannot fail. -/
theorem OpCode.Handled.number_le {opCode : OpCode} (h : opCode.Handled) :
    opCode.number ≤ maxOpcode := by
  obtain ⟨-, hspecial, hbcond⟩ := h
  cases opCode with
  | special => exact absurd rfl hspecial
  | bcond => exact absurd rfl hbcond
  | _ => decide

namespace Machine

variable {μ : Type} {env : Environment μ} {m : Machine μ}

/-! ## The pending load -/

/-- The pending load is for a general-purpose register. -/
def LoadsGP (m : Machine μ) : Prop := (m.registers loadReg).toNat < numGPRegs

instance (m : Machine μ) : Decidable m.LoadsGP := inferInstanceAs (Decidable (_ < _))

/-- Register `0` holds 0, and the pending load is for a general-purpose register. -/
structure Regular (m : Machine μ) : Prop where
  zero : m.reg 0 = 0
  loadsGP : m.LoadsGP

/-- The kernel leaves the registers so. -/
def KeepsRegular (env : Environment μ) : Prop :=
  ∀ which (m : Machine μ), m.Regular → (env.exceptionHandler which m).Regular

theorem set_registers_of_ne {r i : Fin numTotalRegs} (h : i ≠ r) (value : Word) :
    (m.set r value).registers i = m.registers i := Function.update_of_ne h _ _

theorem set_registers_self (r : Fin numTotalRegs) (value : Word) :
    (m.set r value).registers r = value := Function.update_self _ _ _

/-- A register field never names one of the special registers. -/
theorem gp_ne {r : Fin numGPRegs} {i : Fin numTotalRegs} (h : numGPRegs ≤ i) : gp r ≠ i := by
  intro heq
  have hlt : (gp r : ℕ) < numGPRegs := r.isLt
  rw [heq] at hlt
  omega

theorem loadReg_ne_gp (r : Fin numGPRegs) : loadReg ≠ gp r := (gp_ne (by decide)).symm

/-- Only the register of the pending load matters. -/
theorem LoadsGP.set (h : m.LoadsGP) {r : Fin numTotalRegs} (hr : loadReg ≠ r) (value : Word) :
    (m.set r value).LoadsGP := by
  unfold LoadsGP
  rw [set_registers_of_ne hr]
  exact h

/-- `DelayedLoad` puts the machine back into the state between two instructions. -/
theorem delayedLoad_ok (h : m.LoadsGP) (nextReg : Fin numGPRegs) (nextValue : Word) :
    ∃ m', m.delayedLoad (BitVec.ofNat 32 nextReg) nextValue = .ok m' ∧ m'.Regular := by
  have hlt : (m.registers loadReg).toNat < numTotalRegs := Nat.lt_trans h (by decide)
  refine ⟨_, dif_pos hlt, set_registers_self _ _, ?_⟩
  refine LoadsGP.set ?_ (loadReg_ne_gp 0) 0
  refine LoadsGP.set ?_ (by decide) nextValue
  show ((Machine.set _ loadReg (BitVec.ofNat 32 nextReg)).registers loadReg).toNat < numGPRegs
  rw [set_registers_self, BitVec.toNat_ofNat]
  exact Nat.lt_of_le_of_lt (Nat.mod_le _ _) nextReg.isLt

/-- So does an exception, if its handler keeps the machine regular. -/
theorem raiseException_ok (hkeeps : KeepsRegular env) (h : m.LoadsGP) (which : ExceptionType)
    (badVAddr : Word) :
    ∃ m', m.raiseException env which badVAddr = .ok m' ∧ m'.Regular := by
  obtain ⟨m₁, hload, hm₁⟩ := delayedLoad_ok (h.set (r := badVAddrReg) (by decide) badVAddr) 0 0
  refine ⟨env.exceptionHandler which m₁, ?_, hkeeps which m₁ hm₁⟩
  rw [raiseException]
  exact congrArg (· >>= _) hload

/-- A translation either gives an address and lets the instruction go on, or has raised an
exception. -/
theorem resolve_ok (hkeeps : KeepsRegular env) (h : m.LoadsGP) (addr : Word) (size : Size)
    (writing : Bool) : ∃ result m', m.resolve env addr size writing = .ok (result, m') ∧
      m'.LoadsGP ∧ (result = none → m'.Regular) := by
  unfold resolve
  obtain ⟨result, memory⟩ := env.translate m.memory addr size writing
  cases result with
  | ok pa => exact ⟨_, _, rfl, h, by simp⟩
  | error exception =>
    obtain ⟨m₁, hraise, hm₁⟩ :=
      raiseException_ok (m := { m with memory }) hkeeps h exception addr
    dsimp only
    rw [hraise, ok_bind]
    cases env.vm with
    | false => exact ⟨_, _, rfl, hm₁.loadsGP, fun _ => hm₁⟩
    | true =>
      obtain ⟨second, memory'⟩ := env.translate m₁.memory addr size true
      cases second with
      | ok pa => exact ⟨_, _, rfl, hm₁.loadsGP, by simp⟩
      | error _ => exact ⟨_, _, rfl, hm₁.loadsGP, fun _ => ⟨hm₁.zero, hm₁.loadsGP⟩⟩

/-! ## The switch -/

/-- The case is left without a failure. -/
def Fine (x : Except Fault (Effect μ)) : Prop :=
  (∃ m, x = .ok (.raised m) ∧ m.Regular) ∨
    ∃ m pcAfter nextLoadReg nextLoadValue,
      x = .ok (.executed m pcAfter nextLoadReg nextLoadValue) ∧ m.LoadsGP

theorem fine_executed (h : m.LoadsGP) (pcAfter : Word) (nextLoadReg : Fin numGPRegs)
    (nextLoadValue : Word) : Fine (.ok (.executed m pcAfter nextLoadReg nextLoadValue)) :=
  .inr ⟨m, pcAfter, nextLoadReg, nextLoadValue, rfl, h⟩

theorem fine_raise (hkeeps : KeepsRegular env) (h : m.LoadsGP) (which : ExceptionType)
    (badVAddr : Word) : Fine (m.raise env which badVAddr) := by
  obtain ⟨m', hraise, hm'⟩ := raiseException_ok hkeeps h which badVAddr
  refine .inl ⟨m', ?_, hm'⟩
  rw [raise, hraise]
  rfl

/-- The instructions that read memory are fine if what they do with the value is. -/
theorem fine_reading (hkeeps : KeepsRegular env) (h : m.LoadsGP) (addr : Word) (size : Size)
    {rest : Machine μ → Word → Except Fault (Effect μ)}
    (hrest : ∀ m value, m.LoadsGP → Fine (rest m value)) :
    Fine (m.reading env addr size rest) := by
  obtain ⟨result, m', hresolve, hm', hnone⟩ := resolve_ok hkeeps h addr size false
  rw [reading, readMem, hresolve]
  cases result with
  | none => exact .inl ⟨m', rfl, hnone rfl⟩
  | some pa => exact hrest m' _ hm'

/-- The instructions that write memory are fine whatever they write. -/
theorem fine_writing (hkeeps : KeepsRegular env) (h : m.LoadsGP) (pcAfter addr : Word)
    (size : Size) (value : Word) : Fine (m.writing env pcAfter addr size value) := by
  obtain ⟨result, m', hresolve, hm', hnone⟩ := resolve_ok hkeeps h addr size true
  rw [writing, writeMem, hresolve]
  cases result with
  | none => exact .inl ⟨m', rfl, hnone rfl⟩
  | some pa =>
    exact fine_executed (m := { m' with memory := env.store m'.memory pa size value }) hm' _ _ _

/-- A shift by fewer than 32 bits is defined in C. -/
theorem shiftLeft_eq {x n : Word} (h : n.toNat < 32) : shiftLeft x n = .ok (x <<< n.toNat) :=
  if_pos h

theorem shiftRight_eq {x n : Word} (h : n.toNat < 32) :
    shiftRight x n = .ok (x.sshiftRight n.toNat) := if_pos h

/-- The instructions that need an aligned address. -/
def NeedsAligned (opCode : OpCode) : Prop :=
  opCode = .lwl ∨ opCode = .lwr ∨ opCode = .swl ∨ opCode = .swr

/-- What the host cannot do: divide the least `int` by `-1`, or go on after the assertion on an
address that is not a multiple of 4. -/
def Crashes (m : Machine μ) (instr : Instruction) : Prop :=
  (instr.opCode = .div ∧ m.reg instr.rs = intMin ∧ m.reg instr.rt = -1) ∨
    (NeedsAligned instr.opCode ∧ (m.reg instr.rs + instr.extra) &&& 0x3 ≠ 0)

/-- No handled instruction ends in a fault, the crashing ones aside; the cases are those of the
`switch`. -/
theorem execute_fine (hkeeps : KeepsRegular env) (h : m.LoadsGP) {instr : Instruction}
    (hhandled : instr.opCode.Handled) (hshift : instr.opCode.IsShift → instr.extra.toNat < 32)
    (hcrash : ¬ m.Crashes instr) (pcAfter : Word) : Fine (m.execute env instr pcAfter) := by
  have hgp : ∀ r value, (m.set (gp r) value).LoadsGP := fun r => h.set (loadReg_ne_gp r)
  have hhilo : ∀ r r' value value', loadReg ≠ r → loadReg ≠ r' →
      ((m.set r value).set r' value').LoadsGP :=
    fun r r' value value' hr hr' => (h.set hr value).set hr' value'
  have haligned : NeedsAligned instr.opCode →
      ¬ (m.reg instr.rs + instr.extra) &&& 0x3 ≠ 0 := fun hop hne => hcrash (.inr ⟨hop, hne⟩)
  -- the cases that need a hypothesis are the divisions, the shifts and the four partial accesses
  unfold execute
  cases hop : instr.opCode with
  | add | addi | sub =>
    dsimp only
    split
    · exact fine_raise hkeeps h _ _
    · exact fine_executed (hgp _ _) _ _ _
  | addiu | addu | and | andi | lui | mfhi | mflo | nor | or | ori | slt | slti | sltiu | sltu
  | subu | xor | xori | bgezal | bltzal | jal | jalr => exact fine_executed (hgp _ _) _ _ _
  | beq | bgez | bgtz | blez | bltz | bne | j | jr => exact fine_executed h _ _ _
  | div =>
    dsimp only
    split
    · exact fine_executed (hhilo _ _ _ _ (by decide) (by decide)) _ _ _
    · rename_i hzero
      -- the overflow of the quotient is one of the crashes excluded
      rw [divide, if_neg (by
        rintro (hrt | ⟨hrs, hrt⟩)
        · exact hzero hrt
        · exact hcrash (.inl ⟨hop, hrs, hrt⟩))]
      exact fine_executed (hhilo _ _ _ _ (by decide) (by decide)) _ _ _
  | divu =>
    dsimp only
    split
    · exact fine_executed (hhilo _ _ _ _ (by decide) (by decide)) _ _ _
    · rename_i hzero
      rw [divideUnsigned, if_neg hzero]
      exact fine_executed (hhilo _ _ _ _ (by decide) (by decide)) _ _ _
  | lb | lbu => exact fine_reading hkeeps h _ _ fun m value hm => fine_executed hm _ _ _
  | lh | lhu | lw =>
    dsimp only
    split
    · exact fine_raise hkeeps h _ _
    · exact fine_reading hkeeps h _ _ fun m value hm => fine_executed hm _ _ _
  | lwl =>
    dsimp only
    rw [if_neg (haligned (.inl hop))]
    exact fine_reading hkeeps h _ _ fun m value hm => fine_executed hm _ _ _
  | lwr =>
    dsimp only
    rw [if_neg (haligned (.inr (.inl hop)))]
    exact fine_reading hkeeps h _ _ fun m value hm => fine_executed hm _ _ _
  | mthi | mtlo => exact fine_executed (h.set (by decide) _) _ _ _
  | mult | multu => exact fine_executed (hhilo _ _ _ _ (by decide) (by decide)) _ _ _
  | sb | sh | sw => exact fine_writing hkeeps h _ _ _ _
  | sll =>
    dsimp only
    rw [shiftLeft_eq (hshift (.inl hop))]
    exact fine_executed (hgp _ _) _ _ _
  | sra =>
    dsimp only
    rw [shiftRight_eq (hshift (.inr (.inl hop)))]
    exact fine_executed (hgp _ _) _ _ _
  | srl =>
    dsimp only
    rw [shiftRight_eq (hshift (.inr (.inr hop)))]
    exact fine_executed (hgp _ _) _ _ _
  | sllv =>
    dsimp only
    -- the mask keeps the count below 32, so `hshift` is not needed for the variable shifts
    rw [shiftLeft_eq (and_0x1f_lt _)]
    exact fine_executed (hgp _ _) _ _ _
  | srav | srlv =>
    dsimp only
    rw [shiftRight_eq (and_0x1f_lt _)]
    exact fine_executed (hgp _ _) _ _ _
  | swl =>
    dsimp only
    rw [if_neg (haligned (.inr (.inr (.inl hop))))]
    exact fine_reading hkeeps h _ _ fun m value hm => fine_writing hkeeps hm _ _ _ _
  | swr =>
    dsimp only
    rw [if_neg (haligned (.inr (.inr (.inr hop))))]
    exact fine_reading hkeeps h _ _ fun m value hm => fine_writing hkeeps hm _ _ _ _
  | syscall | res | unimp => exact fine_raise hkeeps h _ _
  | rfe => exact absurd hop hhandled.1
  | special => exact absurd hop hhandled.2.1
  | bcond => exact absurd hop hhandled.2.2

/-- In these cases the `switch` is not left. -/
theorem execute_crashes (env : Environment μ) {instr : Instruction} (h : m.Crashes instr)
    (pcAfter : Word) :
    ∃ fault, m.execute env instr pcAfter = .error fault := by
  unfold execute
  rcases h with ⟨hop, hrs, hrt⟩ | ⟨hop, haddr⟩
  · have hzero : ¬ m.reg instr.rt = 0 := by
      rw [hrt]
      decide
    rw [hop]
    dsimp only
    rw [if_neg hzero, divide, if_pos (.inr ⟨hrs, hrt⟩)]
    exact ⟨_, rfl⟩
  · rcases hop with hop | hop | hop | hop <;>
    · rw [hop]
      dsimp only
      rw [if_pos haddr]
      exact ⟨_, rfl⟩

/-! ## One instruction -/

/-- What follows the `switch`, the delayed load and the program counters, cannot fault. -/
theorem finish_ok {x : Except Fault (Effect μ)} (h : Fine x) :
    ∃ outcome, (x >>= finish) = .ok outcome ∧ outcome.machine.Regular := by
  rcases h with ⟨m, rfl, hm⟩ | ⟨m, pcAfter, nextLoadReg, nextLoadValue, rfl, hm⟩
  · exact ⟨_, rfl, hm⟩
  · obtain ⟨m', hload, hm'⟩ := delayedLoad_ok hm nextLoadReg nextLoadValue
    rw [ok_bind, finish, hload]
    refine ⟨_, rfl, ?_, ?_⟩
    · exact hm'.zero
    · exact hm'.loadsGP

/-- The instruction after its fetch. -/
theorem oneInstruction_of_read {debug : Bool} {raw : Word} {m' : Machine μ}
    (h : m.readMem env (m.registers pcReg) .word = .ok (some raw, m')) :
    m.oneInstruction env debug =
      m'.execute env (decode raw) (m'.registers nextPCReg + 4) >>= finish := by
  have hdebug : ¬ (debug && !decide ((decode raw).opCode.number ≤ maxOpcode)) = true := by
    simp [(decode_handled raw).1.number_le]
  rw [oneInstruction, h, ok_bind]
  dsimp only
  rw [if_neg hdebug]

/-- The registers are regular after every instruction. -/
theorem oneInstruction_regular {debug : Bool} {outcome : Outcome μ} (hkeeps : KeepsRegular env)
    (h : m.LoadsGP) (hok : m.oneInstruction env debug = .ok outcome) :
    outcome.machine.Regular := by
  obtain ⟨result, m', hresolve, hm', hnone⟩ := resolve_ok hkeeps h (m.registers pcReg) .word false
  have hread : m.readMem env (m.registers pcReg) .word =
      .ok (result.map fun pa => env.fetch m'.memory pa .word, m') := by
    rw [readMem, hresolve]
    rfl
  cases result with
  | none =>
    rw [oneInstruction, hread] at hok
    cases hok
    exact hnone rfl
  | some pa =>
    obtain ⟨hhandled, hshift⟩ := decode_handled (env.fetch m'.memory pa .word)
    rw [oneInstruction_of_read hread] at hok
    by_cases hcrash : m'.Crashes (decode (env.fetch m'.memory pa .word))
    · obtain ⟨fault, herror⟩ := execute_crashes env hcrash (m'.registers nextPCReg + 4)
      rw [herror] at hok
      cases hok
    · obtain ⟨outcome', hok', hregular⟩ :=
        finish_ok (execute_fine hkeeps hm' hhandled hshift hcrash (m'.registers nextPCReg + 4))
      rw [hok', Except.ok.injEq] at hok
      exact hok ▸ hregular

/-- An instruction on a mapped page either completes or raises an exception, and does not stop
the simulator, exactly if it is neither a division of the least `int` by `-1` nor an `LWL`,
`LWR`, `SWL` or `SWR` at an address that is not a multiple of 4. -/
theorem oneInstruction_ok_iff (env : Environment μ) (debug : Bool) (m : Machine μ)
    (hkeeps : KeepsRegular env) (hload : m.LoadsGP) {pa : ℕ} {memory : μ}
    (hfetch : env.translate m.memory (m.registers pcReg) .word false = (.ok pa, memory)) :
    (∃ outcome, m.oneInstruction env debug = .ok outcome) ↔
      ¬ m.Crashes (decode (env.fetch memory pa .word)) := by
  obtain ⟨hhandled, hshift⟩ := decode_handled (env.fetch memory pa .word)
  have hread : m.readMem env (m.registers pcReg) .word =
      .ok (some (env.fetch memory pa .word), { m with memory }) := by
    rw [readMem, resolve, hfetch]
    rfl
  rw [oneInstruction_of_read hread]
  constructor
  · -- an instruction that crashes does so before its end
    rintro ⟨outcome, hok⟩ hcrash
    obtain ⟨fault, herror⟩ := execute_crashes (m := { m with memory }) env hcrash
      (m.registers nextPCReg + 4)
    rw [herror] at hok
    cases hok
  · intro hcrash
    obtain ⟨outcome, hok, -⟩ := finish_ok
      (execute_fine (m := { m with memory }) hkeeps hload hhandled hshift hcrash _)
    exact ⟨outcome, hok⟩

/-- A memory of words, mapped from address `0` on. -/
def wordMemory : Environment (List Word) where
  vm := false
  translate := fun memory addr _ _ =>
    (if addr.toNat / 4 < memory.length then .ok addr.toNat else .error .addressError, memory)
  fetch := fun memory pa _ => memory.getD (pa / 4) 0
  store := fun memory pa _ value => memory.set (pa / 4) value
  exceptionHandler := fun _ m => m

/-- Registers `1` and `2` hold the two values, and the program is one instruction. -/
def operands (instr x y : Word) : Machine (List Word) where
  registers := Function.update (Function.update (fun _ => 0) (gp 1) x) (gp 2) y
  memory := [instr]

/-- `DIV r1,r2` of 7 and -1. -/
theorem oneInstruction_ok_div : ∃ outcome,
    (operands 0x0022001a 7 (-1)).oneInstruction wordMemory true = .ok outcome := by
  refine (oneInstruction_ok_iff wordMemory true (operands 0x0022001a 7 (-1)) (fun _ _ h => h)
    (by decide) rfl).mpr ?_
  rintro (⟨-, hrs, -⟩ | ⟨hop, -⟩)
  · exact absurd hrs (by decide)
  · rcases hop with hop | hop | hop | hop <;> exact absurd hop (by decide)

/-- `DIV r1,r2` of the least `int` and -1. -/
theorem oneInstruction_not_ok : ¬ ∀ (env : Environment (List Word)) (debug : Bool)
    (m : Machine (List Word)) (pa : ℕ) (memory : List Word), KeepsRegular env → m.LoadsGP →
    env.translate m.memory (m.registers pcReg) .word false = (.ok pa, memory) →
    ∃ outcome, m.oneInstruction env debug = .ok outcome := by
  intro h
  obtain ⟨outcome, hok⟩ := h wordMemory false (operands 0x0022001a intMin (-1)) 0 [0x0022001a]
    (fun _ _ h => h) (by decide) rfl
  have herror : (operands 0x0022001a intMin (-1)).oneInstruction wordMemory false =
      .error .division := rfl
  rw [herror] at hok
  cases hok

end Machine
end NachOS
