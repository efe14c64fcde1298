import NachOS.Machine.Crashes

/-!
# Delayed loads and traps

A load changes its register only after the next instruction. An interrupt or an exception
between the two applies it at once (`DelayedLoad(0, 0)` in `CheckIfDue` and `RaiseException`).
A program that keeps to the load-delay rule of the MIPS cannot tell the difference.
-/

namespace NachOS

open PartialRun

/-! ## The registers of an instruction -/

/-- The source operands. `LWL` and `LWR` take the register they merge with from the pending
load, so that it is not one of them. -/
def Instruction.sources (instr : Instruction) : List (Fin numGPRegs) :=
  match instr.opCode with
  | .add | .addu | .and | .beq | .bne | .div | .divu | .mult | .multu | .nor | .or | .sb | .sh
  | .sllv | .slt | .sltu | .srav | .srlv | .sub | .subu | .sw | .swl | .swr | .xor =>
    [instr.rs, instr.rt]
  | .addi | .addiu | .andi | .bgezal | .bgez | .bgtz | .blez | .bltzal | .bltz | .jalr | .jr
  | .lb | .lbu | .lh | .lhu | .lw | .lwl | .lwr | .mthi | .mtlo | .ori | .slti | .sltiu
  | .xori => [instr.rs]
  | .sll | .sra | .srl => [instr.rt]
  | .j | .jal | .lui | .mfhi | .mflo | .syscall | .unimp | .res | .rfe | .special | .bcond => []

/-- The registers that are written without delay. -/
def Instruction.writes (instr : Instruction) : List (Fin numGPRegs) :=
  match instr.opCode with
  | .add | .addu | .and | .jalr | .mfhi | .mflo | .nor | .or | .sll | .sllv | .slt | .sltu | .sra
  | .srav | .srl | .srlv | .sub | .subu | .xor => [instr.rd]
  | .addi | .addiu | .andi | .lui | .ori | .slti | .sltiu | .xori => [instr.rt]
  | .bgezal | .bltzal | .jal => [31]
  | .beq | .bne | .bgez | .bgtz | .blez | .bltz | .div | .divu | .mult | .multu | .mthi | .mtlo
  | .j | .jr | .lb | .lbu | .lh | .lhu | .lw | .lwl | .lwr | .sb | .sh | .sw | .swl | .swr
  | .syscall | .unimp | .res | .rfe | .special | .bcond => []

namespace Machine

variable {μ : Type} {env : Environment μ} {m m' : Machine μ}

/-! ## Applying the pending load early -/

/-- The register is not the one of the pending load, unless it is register `0`. -/
def Free (m : Machine μ) (r : Fin numTotalRegs) : Prop :=
  (r : ℕ) = (m.registers loadReg).toNat → (r : ℕ) = 0

/-- Setting a register does not change which load is pending. -/
theorem Free.set {r : Fin numTotalRegs} (h : m.Free r) {r' : Fin numTotalRegs} (hr' : r' ≠ loadReg)
    (value : Word) : (m.set r' value).Free r := by
  unfold Free
  rw [set_registers_of_ne hr'.symm]
  exact h

/-- The second machine has applied the pending load of the first. What is pending for register
`0` does not matter. -/
structure Drained (m m' : Machine μ) : Prop where
  memory : m'.memory = m.memory
  loadsGP : m.LoadsGP
  nothing : m'.registers loadReg = 0
  others : ∀ r, r ≠ loadReg → r ≠ loadValueReg → m.Free r → m'.registers r = m.registers r
  loaded : ∀ r : Fin numTotalRegs, (r : ℕ) = (m.registers loadReg).toNat → (r : ℕ) ≠ 0 →
    m'.registers r = m.registers loadValueReg

/-- All registers agree but the one that waits for its load. -/
theorem Drained.reg (h : Drained m m') {r : Fin numGPRegs} (hr : m.Free (gp r)) :
    m'.reg r = m.reg r :=
  h.others (gp r) (gp_ne (by decide)) (gp_ne (by decide)) hr

/-- The registers beyond the general-purpose ones are not loaded. -/
theorem LoadsGP.free (h : m.LoadsGP) {r : Fin numTotalRegs} (hr : numGPRegs ≤ r) : m.Free r := by
  intro heq
  unfold LoadsGP at h
  omega

/-- The special registers agree. -/
theorem Drained.special (h : Drained m m') {r : Fin numTotalRegs} (hr : numGPRegs ≤ r)
    (hload : r ≠ loadReg) (hvalue : r ≠ loadValueReg) : m'.registers r = m.registers r :=
  h.others r hload hvalue (h.loadsGP.free hr)

/-- Both machines may set a register that does not wait for a load. -/
theorem Drained.set (h : Drained m m') {r : Fin numTotalRegs} (hload : r ≠ loadReg)
    (hvalue : r ≠ loadValueReg) (hfree : m.Free r) (value : Word) :
    Drained (m.set r value) (m'.set r value) := by
  have hreg : (m.set r value).registers loadReg = m.registers loadReg :=
    set_registers_of_ne hload.symm value
  refine ⟨h.memory, h.loadsGP.set hload.symm value, ?_, fun i hi hi' hfree' => ?_,
    fun i hi hzero => ?_⟩
  · rw [set_registers_of_ne hload.symm]
    exact h.nothing
  · by_cases hir : i = r
    · rw [hir, set_registers_self, set_registers_self]
    · unfold Free at hfree'
      rw [hreg] at hfree'
      rw [set_registers_of_ne hir, set_registers_of_ne hir]
      exact h.others i hi hi' hfree'
  · rw [hreg] at hi
    have hir : i ≠ r := by
      rintro rfl
      exact hzero (hfree hi)
    rw [set_registers_of_ne hir, set_registers_of_ne hvalue.symm]
    exact h.loaded i hi hzero

/-- Both memories may change alike. -/
theorem Drained.withMemory (h : Drained m m') (memory : μ) :
    Drained { m with memory } { m' with memory } :=
  ⟨rfl, h.loadsGP, h.nothing, h.others, h.loaded⟩

/-- The registers after `DelayedLoad`. -/
def afterLoad (m : Machine μ) (nextReg nextValue : Word) (r : Fin numTotalRegs) : Word :=
  if r = gp 0 then 0
  else if r = loadValueReg then nextValue
  else if r = loadReg then nextReg
  else if (r : ℕ) = (m.registers loadReg).toNat then m.registers loadValueReg
  else m.registers r

/-- The pending load is applied, if it is for a register at all. -/
theorem delayedLoad_of_lt (h : (m.registers loadReg).toNat < numTotalRegs)
    (nextReg nextValue : Word) :
    m.delayedLoad nextReg nextValue =
      .ok { m with registers := m.afterLoad nextReg nextValue } := by
  rw [delayedLoad, dif_pos h]
  refine congrArg (fun registers => Except.ok (Machine.mk registers m.memory)) ?_
  funext r
  simp only [Machine.set, Function.update_apply, afterLoad, Fin.ext_iff]

/-- It is, for a general register. -/
theorem delayedLoad_eq (h : m.LoadsGP) (nextReg nextValue : Word) :
    m.delayedLoad nextReg nextValue =
      .ok { m with registers := m.afterLoad nextReg nextValue } :=
  delayedLoad_of_lt (Nat.lt_trans h (by decide)) nextReg nextValue

/-- With the pending load applied the two machines are the same. -/
theorem Drained.delayedLoad (h : Drained m m') (nextReg nextValue : Word) :
    m'.delayedLoad nextReg nextValue = m.delayedLoad nextReg nextValue := by
  have hzero : (m'.registers loadReg).toNat = 0 := by
    rw [h.nothing]
    rfl
  have hloads : m'.LoadsGP := by
    unfold LoadsGP
    rw [hzero]
    decide
  rw [delayedLoad_eq h.loadsGP, delayedLoad_eq hloads, h.memory]
  refine congrArg (fun registers => Except.ok (Machine.mk registers m.memory)) ?_
  funext r
  rw [afterLoad, afterLoad, hzero]
  by_cases hr : r = gp 0
  · rw [if_pos hr, if_pos hr]
  rw [if_neg hr, if_neg hr]
  by_cases hvalue : r = loadValueReg
  · rw [if_pos hvalue, if_pos hvalue]
  rw [if_neg hvalue, if_neg hvalue]
  by_cases hload : r = loadReg
  · rw [if_pos hload, if_pos hload]
  have hne : (r : ℕ) ≠ 0 := fun heq => hr (Fin.ext heq)
  rw [if_neg hload, if_neg hload, if_neg hne]
  by_cases hpending : (r : ℕ) = (m.registers loadReg).toNat
  · rw [if_pos hpending, h.loaded r hpending hne]
  · rw [if_neg hpending, h.others r hload hvalue fun heq => absurd heq hpending]

/-- A flush applies the pending load. -/
theorem delayedLoad_drained (h : m.Regular) (hflush : m.delayedLoad 0 0 = .ok m') :
    Drained m m' := by
  rw [delayedLoad_eq h.loadsGP, Except.ok.injEq] at hflush
  subst hflush
  have hlt := h.loadsGP
  unfold LoadsGP at hlt
  refine ⟨rfl, h.loadsGP, rfl, fun r hload hvalue hfree => ?_, fun r hr hzero => ?_⟩
  · show m.afterLoad 0 0 r = _
    rw [afterLoad]
    by_cases hr : r = gp 0
    · rw [if_pos hr, hr]
      exact h.zero.symm
    · have hne : ¬ (r : ℕ) = (m.registers loadReg).toNat := fun heq => hr (Fin.ext (hfree heq))
      rw [if_neg hr, if_neg hvalue, if_neg hload, if_neg hne]
  · have hne : r ≠ gp 0 := fun heq => hzero (by rw [heq]; rfl)
    have hgp : (r : ℕ) < numGPRegs := hr ▸ hlt
    have hvalue : r ≠ loadValueReg := by
      rintro rfl
      exact absurd hgp (by decide)
    have hload : r ≠ loadReg := by
      rintro rfl
      exact absurd hgp (by decide)
    show m.afterLoad 0 0 r = _
    rw [afterLoad, if_neg hne, if_neg hvalue, if_neg hload, if_pos hr]

/-! ## Exceptions and memory -/

/-- A trap applies the pending load, so both machines are the same in the kernel. -/
theorem Drained.raiseException (h : Drained m m') (which : ExceptionType) (badVAddr : Word) :
    m'.raiseException env which badVAddr = m.raiseException env which badVAddr := by
  have hset := h.set (r := badVAddrReg) (by decide) (by decide) (h.loadsGP.free (by decide))
    badVAddr
  rw [Machine.raiseException, Machine.raiseException, hset.delayedLoad]

/-- So are they when an instruction ends with an exception. -/
theorem Drained.raise (h : Drained m m') (which : ExceptionType) (badVAddr : Word) :
    m'.raise env which badVAddr = m.raise env which badVAddr := by
  rw [Machine.raise, Machine.raise, h.raiseException]

/-- The same answer without an exception: the registers are as they were, and the second machine
has applied the pending load. -/
def SameAnswer {α : Type} (registers : Fin numTotalRegs → Word) (success : α → Prop)
    (x y : α × Machine μ) : Prop :=
  x.1 = y.1 ∧ success x.1 ∧ x.2.registers = registers ∧ Drained x.2 y.2

/-- After an exception the machines are the same. -/
theorem Drained.resolve (h : Drained m m') (addr : Word) (size : Size) (writing : Bool) :
    AgreeUpTo (SameAnswer m.registers (· ≠ none)) (m.resolve env addr size writing)
      (m'.resolve env addr size writing) := by
  unfold Machine.resolve
  rw [h.memory]
  obtain ⟨result, memory⟩ := env.translate m.memory addr size writing
  cases result with
  | ok pa => exact .ok ⟨rfl, by simp, rfl, h.withMemory memory⟩
  | error exception =>
    dsimp only
    rw [(h.withMemory memory).raiseException]
    exact .refl _

/-- A load finds the same value, or traps into the same state. -/
theorem Drained.readMem (h : Drained m m') (addr : Word) (size : Size) :
    AgreeUpTo (SameAnswer m.registers (· ≠ none)) (m.readMem env addr size)
      (m'.readMem env addr size) := by
  refine (h.resolve addr size false).bind (fun _ => .refl _) ?_
  rintro ⟨pa, m⟩ ⟨pa', m'⟩ ⟨rfl, hsome, hregs, hdrained⟩
  refine .ok ⟨?_, ?_, hregs, hdrained⟩
  · dsimp only
    rw [hdrained.memory]
  · simpa using hsome

/-- A store does the same, or traps into the same state. -/
theorem Drained.writeMem (h : Drained m m') (addr : Word) (size : Size) (value : Word) :
    AgreeUpTo (SameAnswer m.registers (· = true)) (m.writeMem env addr size value)
      (m'.writeMem env addr size value) := by
  refine (h.resolve addr size true).bind (fun _ => .refl _) ?_
  rintro ⟨pa, m⟩ ⟨pa', m'⟩ ⟨rfl, hsome, hregs, hdrained⟩
  cases pa with
  | none => exact absurd rfl hsome
  | some pa =>
    dsimp only
    rw [hdrained.memory]
    exact .ok ⟨rfl, rfl, hregs, hdrained.withMemory _⟩

/-! ## The switch -/

/-- The `switch` is left by `break` in the same way. The next load may have another value if it
is for register `0`. -/
inductive SameEffect : Effect μ → Effect μ → Prop where
  | executed {m m' : Machine μ} (h : Drained m m') (pcAfter : Word) {nextLoadReg : Fin numGPRegs}
    {value value' : Word} (hvalue : nextLoadReg ≠ 0 → value' = value) :
    SameEffect (.executed m pcAfter nextLoadReg value) (.executed m' pcAfter nextLoadReg value')

/-- Both have executed an instruction with the same results. -/
theorem Drained.executed (h : Drained m m') (pcAfter : Word) (nextLoadReg : Fin numGPRegs)
    (nextLoadValue : Word) :
    AgreeUpTo SameEffect (.ok (.executed m pcAfter nextLoadReg nextLoadValue) : Except Fault _)
      (.ok (.executed m' pcAfter nextLoadReg nextLoadValue)) :=
  .ok (.executed h pcAfter fun _ => rfl)

/-- A load, and what is done with its value. -/
theorem Drained.reading (h : Drained m m') (addr : Word) (size : Size)
    {rest : Machine μ → Word → Except Fault (Effect μ)}
    (hrest : ∀ {m₁ m₁' : Machine μ} value, m₁.registers = m.registers → Drained m₁ m₁' →
      AgreeUpTo SameEffect (rest m₁ value) (rest m₁' value)) :
    AgreeUpTo SameEffect (m.reading env addr size rest) (m'.reading env addr size rest) := by
  refine (h.readMem addr size).bind (fun _ => .refl _) ?_
  rintro ⟨value, m₁⟩ ⟨value', m₁'⟩ ⟨rfl, hsome, hregs, hdrained⟩
  cases value with
  | none => exact absurd rfl hsome
  | some value => exact hrest value hregs hdrained

/-- A store. -/
theorem Drained.writing (h : Drained m m') (pcAfter addr : Word) (size : Size) (value : Word) :
    AgreeUpTo SameEffect (m.writing env pcAfter addr size value)
      (m'.writing env pcAfter addr size value) := by
  refine (h.writeMem addr size value).bind (fun _ => .refl _) ?_
  rintro ⟨success, m₁⟩ ⟨success', m₁'⟩ ⟨rfl, hsuccess, -, hdrained⟩
  obtain rfl : success = true := hsuccess
  exact hdrained.executed pcAfter 0 0

/-- The register that `LWL` and `LWR` merge with is the pending load or what it has become. -/
theorem Drained.merged (h : Drained m m') {r : Fin numGPRegs} (hr : r ≠ 0) :
    m'.merged r = m.merged r := by
  have hlt : (r : ℕ) < 2 ^ 32 := Nat.lt_trans r.isLt (by decide)
  have hne : ¬ m'.registers loadReg = BitVec.ofNat 32 r := by
    rw [h.nothing]
    intro heq
    have := congrArg BitVec.toNat heq
    rw [BitVec.toNat_ofNat, Nat.mod_eq_of_lt hlt] at this
    exact hr (Fin.ext this.symm)
  rw [Machine.merged, Machine.merged, if_neg hne]
  by_cases hpending : m.registers loadReg = BitVec.ofNat 32 r
  · have hreg : (gp r : ℕ) = (m.registers loadReg).toNat := by
      rw [hpending, BitVec.toNat_ofNat, Nat.mod_eq_of_lt hlt]
      rfl
    rw [if_pos hpending]
    exact h.loaded (gp r) hreg fun heq => hr (Fin.ext heq)
  · rw [if_neg hpending]
    refine h.reg fun heq => absurd ?_ hpending
    have heq : (r : ℕ) = (m.registers loadReg).toNat := heq
    rw [heq, BitVec.ofNat_toNat, BitVec.setWidth_eq]

/-- The instruction keeps to the load-delay rule. -/
def KeepsDelay (m : Machine μ) (instr : Instruction) : Prop :=
  (∀ r ∈ instr.sources, m.Free (gp r)) ∧ ∀ r ∈ instr.writes, m.Free (gp r)

/-- An instruction that keeps to the rule sees no difference. -/
theorem Drained.execute (h : Drained m m') {instr : Instruction} (hrule : m.KeepsDelay instr)
    (pcAfter : Word) : AgreeUpTo SameEffect (m.execute env instr pcAfter)
      (m'.execute env instr pcAfter) := by
  have hfree := hrule.1
  have hsource : ∀ r ∈ instr.sources, m'.reg r = m.reg r := fun r hr => h.reg (hfree r hr)
  have hgp : ∀ r ∈ instr.writes, ∀ value, Drained (m.set (gp r) value) (m'.set (gp r) value) :=
    fun r hr => h.set (gp_ne (by decide)) (gp_ne (by decide)) (hrule.2 r hr)
  have hhi : m'.registers hiReg = m.registers hiReg :=
    h.special (by decide) (by decide) (by decide)
  have hlo : m'.registers loReg = m.registers loReg :=
    h.special (by decide) (by decide) (by decide)
  have hnext : m'.registers nextPCReg = m.registers nextPCReg :=
    h.special (by decide) (by decide) (by decide)
  have hhilo : ∀ {m m' : Machine μ} {r : Fin numTotalRegs} value, Drained m m' →
      r = hiReg ∨ r = loReg → Drained (m.set r value) (m'.set r value) := by
    intro m m' r value h hr
    rcases hr with rfl | rfl
    · exact h.set (by decide) (by decide) (h.loadsGP.free (by decide)) value
    · exact h.set (by decide) (by decide) (h.loadsGP.free (by decide)) value
  -- from here on one case for each group of the `switch` that reads and writes the same registers
  unfold Instruction.sources at hfree hsource
  unfold Instruction.writes at hgp
  unfold Machine.execute
  cases hop : instr.opCode with
  | add | sub =>
    rw [hop] at hsource hgp
    have hrs := hsource instr.rs (.head _)
    have hrt := hsource instr.rt (.tail _ (.head _))
    dsimp only
    rw [hrs, hrt, h.raise]
    split
    · exact .refl _
    · exact (hgp _ (.head _) _).executed _ _ _
  | addi =>
    rw [hop] at hsource hgp
    have hrs := hsource instr.rs (.head _)
    dsimp only
    rw [hrs, h.raise]
    split
    · exact .refl _
    · exact (hgp _ (.head _) _).executed _ _ _
  | addu | and | nor | or | slt | sltu | subu | xor =>
    rw [hop] at hsource hgp
    have hrs := hsource instr.rs (.head _)
    have hrt := hsource instr.rt (.tail _ (.head _))
    simp only [hrs, hrt]
    exact (hgp _ (.head _) _).executed _ _ _
  | addiu | andi | ori | slti | sltiu | xori =>
    rw [hop] at hsource hgp
    have hrs := hsource instr.rs (.head _)
    simp only [hrs]
    exact (hgp _ (.head _) _).executed _ _ _
  | lui | mfhi | mflo | jal =>
    rw [hop] at hgp
    simp only [hhi, hlo, hnext]
    exact (hgp _ (.head _) _).executed _ _ _
  | beq | bne =>
    rw [hop] at hsource
    have hrs := hsource instr.rs (.head _)
    have hrt := hsource instr.rt (.tail _ (.head _))
    simp only [hrs, hrt, hnext]
    exact h.executed _ _ _
  | bgez | bgtz | blez | bltz | jr =>
    rw [hop] at hsource
    have hrs := hsource instr.rs (.head _)
    simp only [hrs, hnext]
    exact h.executed _ _ _
  | bgezal | bltzal | jalr =>
    -- The test is made, or the target taken, after the return address is written.
    rw [hop] at hfree hgp
    have hlink := hgp _ (.head _) (m.registers nextPCReg + 4)
    have hrs := hlink.reg ((hfree instr.rs (.head _)).set (gp_ne (by decide)) _)
    simp only [hnext]
    rw [hrs]
    exact hlink.executed _ _ _
  | j => exact h.executed _ _ _
  | div | divu =>
    rw [hop] at hsource
    have hrs := hsource instr.rs (.head _)
    have hrt := hsource instr.rt (.tail _ (.head _))
    dsimp only
    rw [hrs, hrt]
    split
    · exact (hhilo _ (hhilo _ h (.inr rfl)) (.inl rfl)).executed _ _ _
    · exact .bind_same _ fun _ =>
        (hhilo _ (hhilo _ h (.inr rfl)) (.inl rfl)).executed _ _ _
  | mult | multu =>
    rw [hop] at hsource
    have hrs := hsource instr.rs (.head _)
    have hrt := hsource instr.rt (.tail _ (.head _))
    simp only [hrs, hrt]
    exact (hhilo _ (hhilo _ h (.inl rfl)) (.inr rfl)).executed _ _ _
  | mthi =>
    rw [hop] at hsource
    have hrs := hsource instr.rs (.head _)
    simp only [hrs]
    exact (hhilo _ h (.inl rfl)).executed _ _ _
  | mtlo =>
    rw [hop] at hsource
    have hrs := hsource instr.rs (.head _)
    simp only [hrs]
    exact (hhilo _ h (.inr rfl)).executed _ _ _
  | lb | lbu =>
    rw [hop] at hsource
    have hrs := hsource instr.rs (.head _)
    simp only [hrs]
    exact h.reading _ _ fun value _ hdrained => hdrained.executed _ _ _
  | lh | lhu | lw =>
    rw [hop] at hsource
    have hrs := hsource instr.rs (.head _)
    dsimp only
    rw [hrs, h.raise]
    split
    · exact .refl _
    · exact h.reading _ _ fun value _ hdrained => hdrained.executed _ _ _
  | lwl | lwr =>
    rw [hop] at hsource
    have hrs := hsource instr.rs (.head _)
    dsimp only
    rw [hrs]
    split
    · exact .refl _
    · -- a partial load merges with the pending one, so `rt` may be the delayed register
      refine h.reading _ _ fun value _ hdrained => .ok (.executed hdrained _ fun hrt => ?_)
      rw [hdrained.merged hrt]
  | sb | sh | sw =>
    rw [hop] at hsource
    have hrs := hsource instr.rs (.head _)
    have hrt := hsource instr.rt (.tail _ (.head _))
    simp only [hrs, hrt]
    exact h.writing _ _ _ _
  | swl | swr =>
    rw [hop] at hsource hfree
    have hrs := hsource instr.rs (.head _)
    dsimp only
    rw [hrs]
    split
    · exact .refl _
    · refine h.reading _ _ fun {m₁ m₁'} value hregs hdrained => ?_
      -- `rt` is read after the memory, when an exception may already have drained the load
      have hrt : m₁'.reg instr.rt = m₁.reg instr.rt := by
        refine hdrained.reg ?_
        unfold Free
        rw [hregs]
        exact hfree instr.rt (.tail _ (.head _))
      rw [hrt]
      exact hdrained.writing _ _ _ _
  | sll | sra | srl =>
    rw [hop] at hsource hgp
    have hrt := hsource instr.rt (.head _)
    simp only [hrt]
    -- the shift itself faults or not in both machines alike
    exact .bind_same _ fun _ => (hgp _ (.head _) _).executed _ _ _
  | sllv | srav | srlv =>
    rw [hop] at hsource hgp
    have hrs := hsource instr.rs (.head _)
    have hrt := hsource instr.rt (.tail _ (.head _))
    simp only [hrs, hrt]
    exact .bind_same _ fun _ => (hgp _ (.head _) _).executed _ _ _
  | syscall | res | unimp =>
    dsimp only
    rw [h.raise]
    exact .refl _
  | rfe | special | bcond => exact .refl _

/-! ## One instruction -/

/-- Both have completed, and what is pending is the same or is for register `0`. -/
def SameOutcome (x y : Outcome μ) : Prop :=
  ∃ m m', x = .completed m ∧ y = .completed m' ∧ Drained m m'

/-- What is pending for register `0` does not matter. -/
theorem drained_of_pending_zero (m : Machine μ) (value value' : Word) :
    Drained { m with registers := m.afterLoad 0 value }
      { m with registers := m.afterLoad 0 value' } := by
  refine ⟨rfl, ?_, rfl, fun r hload hvalue _ => ?_, fun r hr hzero => absurd hr hzero⟩
  · show (m.afterLoad 0 value loadReg).toNat < numGPRegs
    exact Nat.zero_lt_succ 31
  · show m.afterLoad 0 value' r = m.afterLoad 0 value r
    rw [afterLoad, afterLoad, if_neg hvalue, if_neg hvalue]

/-- After the next load has become the pending one the machines are the same. -/
theorem SameEffect.finish {x y : Effect μ} (h : SameEffect x y) :
    AgreeUpTo SameOutcome (finish x) (finish y) := by
  cases h with
  | @executed m m' h pcAfter nextLoadReg value value' hvalue =>
    rw [Machine.finish, Machine.finish, h.delayedLoad]
    by_cases hreg : nextLoadReg = 0
    · subst hreg
      rw [delayedLoad_eq h.loadsGP, delayedLoad_eq h.loadsGP]
      have hpending := drained_of_pending_zero m value value'
      have hset : ∀ {m₁ m₁' : Machine μ} {r : Fin numTotalRegs} (w : Word), Drained m₁ m₁' →
          r = prevPCReg ∨ r = pcReg ∨ r = nextPCReg → Drained (m₁.set r w) (m₁'.set r w) := by
        intro m₁ m₁' r w h hr
        rcases hr with rfl | rfl | rfl <;>
          exact h.set (by decide) (by decide) (h.loadsGP.free (by decide)) w
      refine .ok ⟨_, _, rfl, rfl, ?_⟩
      exact hset _ (hset _ (hset _ hpending (.inl rfl)) (.inr (.inl rfl))) (.inr (.inr rfl))
    · rw [hvalue hreg]
      exact .refl _

/-- The instruction that is fetched keeps to the load-delay rule. -/
def KeepsDelayRule (env : Environment μ) (m : Machine μ) : Prop :=
  ∀ raw m', m.readMem env (m.registers pcReg) .word = .ok (some raw, m') →
    m.KeepsDelay (decode raw)

instance (m : Machine μ) (r : Fin numTotalRegs) : Decidable (m.Free r) :=
  inferInstanceAs (Decidable (_ → _))

instance (m : Machine μ) (instr : Instruction) : Decidable (m.KeepsDelay instr) :=
  inferInstanceAs (Decidable (_ ∧ _))

instance (env : Environment μ) (m : Machine μ) : Decidable (m.KeepsDelayRule env) :=
  match h : m.readMem env (m.registers pcReg) .word with
  | .ok (some raw, m') => decidable_of_iff (m.KeepsDelay (decode raw)) (by
      constructor
      · intro hkeeps raw' m'' h'
        rw [h] at h'
        cases h'
        exact hkeeps
      · exact fun hkeeps => hkeeps raw m' h)
  | .ok (none, _) => isTrue fun _ _ h' => by rw [h] at h'; cases h'
  | .error _ => isTrue fun _ _ h' => by rw [h] at h'; cases h'

/-- So the difference lasts for one instruction. -/
theorem Drained.oneInstruction (h : Drained m m') (hrule : m.KeepsDelayRule env) (debug : Bool) :
    AgreeUpTo SameOutcome (m.oneInstruction env debug) (m'.oneInstruction env debug) := by
  have hpc : m'.registers pcReg = m.registers pcReg :=
    h.special (by decide) (by decide) (by decide)
  have hagree : AgreeUpTo (SameAnswer m.registers (· ≠ none))
      (m.readMem env (m.registers pcReg) .word) (m'.readMem env (m.registers pcReg) .word) :=
    h.readMem (m.registers pcReg) .word
  rcases hagree with
    hsame | ⟨⟨value, m₁⟩, ⟨value', m₁'⟩, hread, hread', rfl, hsome, hregs, hdrained⟩
  · rw [Machine.oneInstruction, Machine.oneInstruction, hpc, hsame]
    exact .refl _
  · cases value with
    | none => exact absurd rfl hsome
    | some raw =>
      rw [← hpc] at hread'
      have hnext : m₁'.registers nextPCReg = m₁.registers nextPCReg :=
        hdrained.special (by decide) (by decide) (by decide)
      have hkeeps : m₁.KeepsDelay (decode raw) := by
        unfold KeepsDelay Free
        rw [hregs]
        exact hrule raw m₁ hread
      rw [oneInstruction_of_read hread, oneInstruction_of_read hread', hnext]
      exact (hdrained.execute hkeeps _).bind (fun _ => .refl _) fun _ _ hsame => hsame.finish

/-! ## Runs -/

/-- What happens at an instruction boundary. -/
inductive Event where
  | instruction
  /-- `DelayedLoad(0, 0)`. -/
  | flush
deriving DecidableEq, Repr

def step (env : Environment μ) (debug : Bool) (m : Machine μ) : Event → Except Fault (Machine μ)
  | .instruction => do
    let outcome ← m.oneInstruction env debug
    return outcome.machine
  | .flush => m.delayedLoad 0 0

/-- The machines are the same once any pending load is applied, and so are their memory and
program counters as they are. -/
structure SameState (m m' : Machine μ) : Prop where
  registers : m'.delayedLoad 0 0 = m.delayedLoad 0 0
  memory : m'.memory = m.memory
  pc : m'.registers pcReg = m.registers pcReg
  nextPC : m'.registers nextPCReg = m.registers nextPCReg

/-- Once the pending load is applied there is no difference. -/
theorem Drained.sameState (h : Drained m m') : SameState m m' :=
  ⟨h.delayedLoad 0 0, h.memory, h.special (by decide) (by decide) (by decide),
    h.special (by decide) (by decide) (by decide)⟩

/-- A machine that may be ahead by the pending load stays so. -/
theorem step_instruction (debug : Bool) (hsim : m' = m ∨ Drained m m')
    (hrule : m.KeepsDelayRule env) :
    AgreeUpTo Drained (m.step env debug .instruction) (m'.step env debug .instruction) := by
  rcases hsim with rfl | hdrained
  · exact .refl _
  · refine (hdrained.oneInstruction hrule debug).bind (fun _ => .refl _) ?_
    rintro _ _ ⟨m₁, m₁', rfl, rfl, hdrained⟩
    exact .ok hdrained

/-- A flush applies the pending load early. -/
theorem step_flush (env : Environment μ) (debug : Bool) (hregular : m.Regular) (hsim : m' = m ∨ Drained m m') :
    ∃ m'', m'.step env debug .flush = .ok m'' ∧ Drained m m'' := by
  obtain ⟨m'', hflush, -⟩ := delayedLoad_ok hregular.loadsGP 0 0
  refine ⟨m'', ?_, delayedLoad_drained hregular hflush⟩
  rcases hsim with rfl | hdrained
  · exact hflush
  · exact (hdrained.delayedLoad 0 0).trans hflush

/-- An instruction leaves register `0` zero. -/
theorem step_regular {debug : Bool} (hkeeps : KeepsRegular env) (hregular : m.Regular)
    (h : m.step env debug .instruction = .ok m') : m'.Regular := by
  obtain ⟨outcome, hone, h⟩ := bind_ok_iff.mp h
  rw [← pure_ok_iff.mp h]
  exact oneInstruction_regular hkeeps hregular.loadsGP hone

/-- A run with flushes, against the run without them. -/
theorem run_drained {debug : Bool} (hkeeps : KeepsRegular env) {es : List Event}
    (hregular : m.Regular) (hsim : m' = m ∨ Drained m m')
    (hrule : Along (step env debug) (fun m _ => m.KeepsDelayRule env) m
      (es.filter (· = .instruction))) :
    AgreeUpTo Drained (run (step env debug) m (es.filter (· = .instruction)))
      (run (step env debug) m' es) := by
  induction es generalizing m m' with
  | nil =>
    rcases hsim with rfl | hdrained
    · exact .refl _
    · exact .ok hdrained
  | cons e es ih =>
    cases e with
    | flush =>
      obtain ⟨m'', hflush, hdrained⟩ := step_flush env debug hregular hsim
      rw [run_cons, hflush, ok_bind]
      exact ih hregular (.inr hdrained) hrule
    | instruction =>
      have hfilter : (Event.instruction :: es).filter (· = .instruction) =
          .instruction :: es.filter (· = .instruction) := rfl
      rw [hfilter] at hrule ⊢
      rw [run_cons, run_cons]
      cases hst : m.step env debug .instruction with
      | error fault =>
        rcases step_instruction debug hsim hrule.1 with hsame | ⟨a, b, ha, -⟩
        · rw [← hsame, hst]
          exact .refl _
        · rw [hst] at ha
          cases ha
      | ok a =>
        have hregular' := step_regular hkeeps hregular hst
        have hrule' := hrule.2 a hst
        rcases step_instruction debug hsim hrule.1 with hsame | ⟨a', b, ha, hb, hdrained⟩
        · rw [← hsame, hst, ok_bind, ok_bind]
          exact ih hregular' (.inl rfl) hrule'
        · rw [hst, Except.ok.injEq] at ha
          subst ha
          rw [hb, ok_bind, ok_bind]
          exact ih hregular' (.inr hdrained) hrule'

/-- A run that keeps to the load-delay rule, and the same run with pending loads applied at any
of its instruction boundaries: they fail alike, or end with the same registers once any
pending load is applied, the same memory and the same program counters. -/
theorem run_flush {debug : Bool} (hkeeps : KeepsRegular env) (es : List Event)
    (hregular : m.Regular)
    (hrule : Along (step env debug) (fun m _ => m.KeepsDelayRule env) m
      (es.filter (· = .instruction))) :
    (∀ m₁, run (step env debug) m (es.filter (· = .instruction)) = .ok m₁ →
      ∃ m₂, run (step env debug) m es = .ok m₂ ∧ SameState m₁ m₂) ∧
    ∀ fault, run (step env debug) m (es.filter (· = .instruction)) = .error fault →
      run (step env debug) m es = .error fault := by
  -- both runs stop with the same fault, or their ends differ by a pending load at most
  rcases run_drained hkeeps hregular (.inl (Eq.refl m)) hrule with
    hsame | ⟨m₁, m₂, hrun, hrun', hdrained⟩
  · rw [hsame]
    exact ⟨fun m₁ h => ⟨m₁, h, ⟨rfl, rfl, rfl, rfl⟩⟩, fun fault h => h⟩
  · rw [hrun]
    constructor
    · intro m h
      rw [Except.ok.injEq] at h
      exact ⟨m₂, hrun', h ▸ hdrained.sameState⟩
    · intro fault h
      cases h

/-- `LW r1,12(r0)`, `ADDIU r2,r0,5` and `ADDU r3,r1,r2`, before the word 7. -/
def addLoaded : Machine (List Word) where
  registers := Function.update (fun _ => 0) nextPCReg 4
  memory := [0x8c01000c, 0x24020005, 0x00221821, 7]

theorem run_flush_addLoaded : ∃ m₁ m₂,
    run (step wordMemory false) addLoaded [.instruction, .instruction, .instruction] = .ok m₁ ∧
    run (step wordMemory false) addLoaded [.instruction, .flush, .instruction, .instruction] =
      .ok m₂ ∧ m₁.reg 3 = 12 ∧ SameState m₁ m₂ := by
  obtain ⟨m₁, hrun, hreg⟩ : ∃ m₁, run (step wordMemory false) addLoaded
      [.instruction, .instruction, .instruction] = .ok m₁ ∧ m₁.reg 3 = 12 := by
    decide +kernel
  obtain ⟨hok, -⟩ := @run_flush _ wordMemory addLoaded false
    (fun _ _ h => h) [.instruction, .flush, .instruction, .instruction]
    ⟨by decide, by decide⟩ (by decide +kernel)
  obtain ⟨m₂, hrun', hsame⟩ := hok m₁ hrun
  exact ⟨m₁, m₂, hrun, hrun', hreg, hsame⟩

end Machine
end NachOS
