import NachOS.Machine.Lockstep
import NachOS.Machine.LoadDelay
import NachOS.Machine.RegisterFile

/-!
# What happens to a process

While a process has the machine its instructions are executed, interrupts occur at the boundaries
of the instructions, and in a system call the kernel reads and writes its registers and its memory.
The kernel comes after `RaiseException`, which applies the pending load.
-/

namespace NachOS

open PartialRun

/-- What happens to the machine while a process has it. -/
inductive ProcessEvent where
  | instruction
  /-- `DelayedLoad(0, 0)` of `CheckIfDue`. -/
  | interrupt
  /-- `WriteRegister`, `ReadMem` and `WriteMem`, when the kernel calls them. -/
  | writeRegister (num : Fin numTotalRegs) (value : Word)
  | readMem (addr : Word) (size : Size)
  | writeMem (addr : Word) (size : Size) (value : Word)
deriving DecidableEq, Repr

namespace Machine

variable {μ ν : Type} {env : Environment μ} {env' : Environment ν} {debug : Bool}
  {m m' : Machine μ}

def happen (env : Environment μ) (debug : Bool) (m : Machine μ) :
    ProcessEvent → Except Fault (Machine μ)
  | .instruction => m.step env debug .instruction
  | .interrupt => m.step env debug .flush
  | .writeRegister num value => .ok (m.set num value)
  | .readMem addr size => do
    let (_, m) ← m.readMem env addr size
    return m
  | .writeMem addr size value => do
    let (_, m) ← m.writeMem env addr size value
    return m

/-- On memories that answer alike the same happens. -/
theorem happen_twins {R : μ → ν → Prop} (hlock : env.Lockstep env' R) (debug : Bool)
    {m : Machine μ} {m' : Machine ν} (h : Twins R m m') (e : ProcessEvent) :
    Matches (Twins R) (m.happen env debug e) (m'.happen env' debug e) := by
  cases e with
  | instruction => exact (h.oneInstruction hlock debug).bind fun _ _ h' => .ok h'
  | interrupt => exact h.delayedLoad 0 0
  | writeRegister num value => exact .ok (h.set num value)
  | readMem addr size => exact (h.readMem hlock addr size).bind fun _ _ h' => .ok h'.2
  | writeMem addr size value =>
    exact (h.writeMem hlock addr size value).bind fun _ _ h' => .ok h'.2

/-! ## Interrupts that are not noticed -/

/-- The program keeps to the load-delay rule. The kernel has its turn when no load is pending, and
does not write the registers of the pending load, nor register `0`. -/
def Disciplined (env : Environment μ) (m : Machine μ) : ProcessEvent → Prop
  | .instruction => m.KeepsDelayRule env
  | .interrupt => True
  | .writeRegister num _ =>
    m.registers loadReg = 0 ∧ gp 0 ≠ num ∧ loadReg ≠ num ∧ loadValueReg ≠ num
  | .readMem _ _ => m.registers loadReg = 0
  | .writeMem _ _ _ => m.registers loadReg = 0

instance (env : Environment μ) (m : Machine μ) :
    (e : ProcessEvent) → Decidable (m.Disciplined env e)
  | .instruction => inferInstanceAs (Decidable (m.KeepsDelayRule env))
  | .interrupt => inferInstanceAs (Decidable True)
  | .writeRegister _ _ => inferInstanceAs (Decidable (_ ∧ _))
  | .readMem _ _ => inferInstanceAs (Decidable (_ = _))
  | .writeMem _ _ _ => inferInstanceAs (Decidable (_ = _))

/-- With nothing pending every register may be written. -/
theorem free_of_nothing (h : m.registers loadReg = 0) (r : Fin numTotalRegs) : m.Free r := by
  intro hr
  rw [hr, h]
  rfl

theorem happen_drained (debug : Bool) (hsim : m' = m ∨ Drained m m') {e : ProcessEvent}
    (he : m.Disciplined env e) (hinterrupt : e ≠ .interrupt) :
    AgreeUpTo Drained (m.happen env debug e) (m'.happen env debug e) := by
  rcases hsim with rfl | h
  · exact .refl _
  cases e with
  | instruction => exact step_instruction debug (.inr h) he
  | interrupt => exact absurd rfl hinterrupt
  | writeRegister num value =>
    exact .ok (h.set he.2.2.1.symm he.2.2.2.symm (free_of_nothing he.1 num) value)
  | readMem addr size =>
    refine (h.readMem addr size).bind (fun _ => .refl _) ?_
    rintro ⟨_, a⟩ ⟨_, b⟩ ⟨-, -, -, hdrained⟩
    exact .ok hdrained
  | writeMem addr size value =>
    refine (h.writeMem addr size value).bind (fun _ => .refl _) ?_
    rintro ⟨_, a⟩ ⟨_, b⟩ ⟨-, -, -, hdrained⟩
    exact .ok hdrained

theorem resolve_regular (hkeeps : KeepsRegular env) (h : m.Regular) {addr : Word} {size : Size}
    {writing : Bool} {result : Option ℕ}
    (hresolve : m.resolve env addr size writing = .ok (result, m')) : m'.Regular := by
  unfold resolve at hresolve
  split at hresolve
  · obtain ⟨-, rfl⟩ := Prod.mk.inj (pure_ok_iff.mp hresolve)
    exact h.congr rfl
  · rename_i exception memory _
    have hmemory : Machine.Regular { m with memory } := h.congr rfl
    obtain ⟨m₁, hraise, hm₁⟩ := raiseException_ok hkeeps hmemory.loadsGP exception addr
    rw [hraise, ok_bind] at hresolve
    split at hresolve
    · split at hresolve
      · obtain ⟨-, rfl⟩ := Prod.mk.inj (pure_ok_iff.mp hresolve)
        exact hm₁.congr rfl
      · obtain ⟨-, rfl⟩ := Prod.mk.inj (pure_ok_iff.mp hresolve)
        exact hm₁.congr rfl
    · obtain ⟨-, rfl⟩ := Prod.mk.inj (pure_ok_iff.mp hresolve)
      exact hm₁

theorem happen_regular (hkeeps : KeepsRegular env) (h : m.Regular) {e : ProcessEvent}
    (he : m.Disciplined env e) (hhappen : m.happen env debug e = .ok m') : m'.Regular := by
  cases e with
  | instruction => exact step_regular hkeeps h hhappen
  | interrupt => exact h.flush hhappen
  | writeRegister num value =>
    rw [happen, Except.ok.injEq] at hhappen
    rw [← hhappen]
    exact h.set he.2.1 he.2.2.1 value
  | readMem addr size =>
    obtain ⟨⟨value, m₁⟩, hread, hhappen⟩ := bind_ok_iff.mp hhappen
    obtain ⟨⟨pa, m₂⟩, hresolve, hread⟩ := bind_ok_iff.mp hread
    obtain ⟨-, rfl⟩ := Prod.mk.inj (pure_ok_iff.mp hread)
    rw [← pure_ok_iff.mp hhappen]
    exact resolve_regular hkeeps h hresolve
  | writeMem addr size value =>
    obtain ⟨⟨wrote, m₁⟩, hwrite, hhappen⟩ := bind_ok_iff.mp hhappen
    obtain ⟨⟨pa, m₂⟩, hresolve, hwrite⟩ := bind_ok_iff.mp hwrite
    rw [← pure_ok_iff.mp hhappen]
    have hm₂ := resolve_regular hkeeps h hresolve
    cases pa with
    | none =>
      obtain ⟨-, rfl⟩ := Prod.mk.inj (pure_ok_iff.mp hwrite)
      exact hm₂
    | some pa =>
      obtain ⟨-, rfl⟩ := Prod.mk.inj (pure_ok_iff.mp hwrite)
      exact hm₂.congr rfl

/-- A run with interrupts at any of the boundaries, and the run without them. -/
theorem happen_interrupted (hkeeps : KeepsRegular env) {es : List ProcessEvent}
    (hregular : m.Regular) (hsim : m' = m ∨ Drained m m')
    (hrule : Along (happen env debug) (Disciplined env) m (es.filter (· ≠ .interrupt))) :
    AgreeUpTo Drained (run (happen env debug) m (es.filter (· ≠ .interrupt)))
      (run (happen env debug) m' es) := by
  induction es generalizing m m' with
  | nil =>
    rcases hsim with rfl | hdrained
    · exact .refl _
    · exact .ok hdrained
  | cons e es ih =>
    by_cases he : e = .interrupt
    · subst he
      rw [List.filter_cons_of_neg (by simp)] at hrule ⊢
      obtain ⟨m'', hflush, hdrained⟩ := step_flush env debug hregular hsim
      have hhappen : m'.happen env debug .interrupt = .ok m'' := hflush
      rw [run_cons, hhappen, ok_bind]
      exact ih hregular (.inr hdrained) hrule
    · rw [List.filter_cons_of_pos (by simpa using he)] at hrule ⊢
      rw [run_cons, run_cons]
      rcases happen_drained debug hsim hrule.1 he with hsame | ⟨a, b, ha, hb, hdrained⟩
      · rw [← hsame]
        cases hst : m.happen env debug e with
        | error fault => exact .refl _
        | ok a =>
          exact ih (happen_regular hkeeps hregular hrule.1 hst) (.inl rfl) (hrule.2 a hst)
      · rw [ha, hb, ok_bind, ok_bind]
        exact ih (happen_regular hkeeps hregular hrule.1 ha) (.inr hdrained) (hrule.2 a ha)

/-- The interrupted run ends as the other one does, up to a pending load. -/
theorem run_interrupted (hkeeps : KeepsRegular env) (es : List ProcessEvent) (hregular : m.Regular)
    (hrule : Along (happen env debug) (Disciplined env) m (es.filter (· ≠ .interrupt)))
    (hrun : run (happen env debug) m (es.filter (· ≠ .interrupt)) = .ok m') :
    ∃ m'', run (happen env debug) m es = .ok m'' ∧ SameState m' m'' := by
  rcases happen_interrupted hkeeps hregular (.inl (Eq.refl m)) hrule with
    hsame | ⟨a, b, ha, hb, hdrained⟩
  · exact ⟨m', hsame.symm.trans hrun, rfl, rfl, rfl, rfl⟩
  · rw [hrun, Except.ok.injEq] at ha
    exact ⟨b, hb, ha ▸ hdrained.sameState⟩

end Machine
end NachOS
