import NachOS.Machine.LoadDelay

/-!
# The registers over a run

What changes the registers: the instructions of the user programs, the traps to the kernel in
the middle of them, the interrupts, the system calls of `exception.cc`, and `Scheduler::Run`,
which saves them for one thread and restores them for another. Register 0 holds 0 all the time,
and the pending load is for a general-purpose register.
-/

namespace NachOS

open PartialRun

/-! ## An instruction with its traps -/

variable {μ : Type}

/-- The processor, when the calls of the exception handler have returned with the given machines
in turn. What is added to the memory counts the calls; a call too many is one that has not
returned. -/
def Environment.answering (env : Environment μ) (answers : List (Machine μ)) :
    Environment (μ × ℕ) where
  vm := env.vm
  translate := fun memory addr size writing =>
    let (result, rest) := env.translate memory.1 addr size writing
    (result, (rest, memory.2))
  fetch := fun memory pa size => env.fetch memory.1 pa size
  store := fun memory pa size value => (env.store memory.1 pa size value, memory.2)
  exceptionHandler := fun _ m =>
    match answers[m.memory.2]? with
    | some answer => ⟨answer.registers, (answer.memory, m.memory.2 + 1)⟩
    | none => ⟨m.registers, (m.memory.1, answers.length + 1)⟩

namespace Machine

variable {env : Environment μ} {m : Machine μ}

/-- The machine with the calls of the handler counted from 0. -/
def counting (m : Machine μ) : Machine (μ × ℕ) := ⟨m.registers, (m.memory, 0)⟩

/-- `OneInstruction` to its end, when it has called the handler once for each answer. -/
def retire (env : Environment μ) (debug : Bool) (start : Machine μ) (answers : List (Machine μ)) :
    Except Fault (Machine μ) := do
  let outcome ← start.counting.oneInstruction (env.answering answers) debug
  if outcome.machine.memory.2 = answers.length then
    return ⟨outcome.machine.registers, outcome.machine.memory.1⟩
  else .error .assertion

/-! ## The registers that the kernel writes -/

/-- `AddrSpace::InitRegisters`. -/
def initRegisters (m : Machine μ) (numPages : ℕ) : Machine μ :=
  ((({ m with registers := fun _ => 0 }.set pcReg 0).set nextPCReg 4).set stackReg
    (BitVec.ofInt 32 (numPages * pageSize - 16)))

/-- `returnFromSystemCall`. -/
def returnFromSystemCall (m : Machine μ) : Machine μ :=
  let m := m.set prevPCReg (m.registers pcReg)
  let m := m.set pcReg (m.registers nextPCReg)
  m.set nextPCReg (m.registers nextPCReg + 4)

/-- The registers that `ForkAux` writes after `InitRegisters`: `RetAddrReg`, `PCReg` and
`NextPCReg`. -/
def forkRegisters (m : Machine μ) (p : Word) : Machine μ :=
  ((m.set (gp 31) 4).set pcReg p).set nextPCReg (p + 4)

/-- `RaiseException` up to the call of the handler. -/
def enterKernel (m : Machine μ) (badVAddr : Word) : Except Fault (Machine μ) :=
  (m.set badVAddrReg badVAddr).delayedLoad 0 0

end Machine

/-! ## What keeps the registers regular -/

namespace Machine

variable {env : Environment μ} {m : Machine μ}

/-- Only the registers matter. -/
theorem Regular.congr {ν : Type} {m' : Machine ν} (h : m.Regular)
    (hsame : m'.registers = m.registers) : m'.Regular := by
  have hzero : m'.registers (gp 0) = 0 := by
    rw [hsame]
    exact h.zero
  have hload : (m'.registers loadReg).toNat < numGPRegs := by
    rw [hsame]
    exact h.loadsGP
  exact ⟨hzero, hload⟩

/-- Other registers may be set to anything. -/
theorem Regular.set (h : m.Regular) {r : Fin numTotalRegs} (hzero : gp 0 ≠ r) (hload : loadReg ≠ r)
    (value : Word) : (m.set r value).Regular :=
  ⟨(set_registers_of_ne hzero value).trans h.zero, h.loadsGP.set hload value⟩

/-- Advancing the program counters leaves them so. -/
theorem Regular.returnFromSystemCall (h : m.Regular) : m.returnFromSystemCall.Regular := by
  have hprev := h.set (r := prevPCReg) (by decide) (by decide) (m.registers pcReg)
  have hpc := hprev.set (r := pcReg) (by decide) (by decide)
  exact (hpc _).set (by decide) (by decide) _

/-- The registers of a forked thread are the parent's but for some others. -/
theorem Regular.forkRegisters (h : m.Regular) (p : Word) : (m.forkRegisters p).Regular := by
  have hreturn := h.set (r := gp 31) (by decide) (by decide) 4
  have hpc := hreturn.set (r := pcReg) (by decide) (by decide) p
  exact hpc.set (by decide) (by decide) _

/-- With all registers zero nothing is pending. -/
theorem zeros_regular (memory : μ) : Machine.Regular ⟨fun _ => 0, memory⟩ :=
  ⟨rfl, show (0 : Word).toNat < numGPRegs by decide⟩

/-- `InitRegisters` clears them all before it sets some. -/
theorem initRegisters_regular (m : Machine μ) (numPages : ℕ) :
    (m.initRegisters numPages).Regular := by
  have hpc := (zeros_regular m.memory).set (r := pcReg) (by decide) (by decide) 0
  have hnext := hpc.set (r := nextPCReg) (by decide) (by decide) 4
  exact hnext.set (by decide) (by decide) _

/-- Applying the pending load leaves register `0` alone. -/
theorem Regular.flush (h : m.Regular) {m' : Machine μ} (hflush : m.delayedLoad 0 0 = .ok m') :
    m'.Regular := by
  obtain ⟨m'', hload, hregular⟩ := delayedLoad_ok h.loadsGP 0 0
  cases hload.symm.trans hflush
  exact hregular

/-- A trap applies the pending load first. -/
theorem Regular.enterKernel (h : m.Regular) {badVAddr : Word} {m' : Machine μ}
    (henter : m.enterKernel badVAddr = .ok m') : m'.Regular :=
  (h.set (by decide) (by decide) badVAddr).flush henter

/-- A kernel that gives such answers keeps the registers so. -/
theorem answering_keepsRegular {answers : List (Machine μ)}
    (h : ∀ answer ∈ answers, answer.Regular) : KeepsRegular (env.answering answers) := by
  intro which m hm
  show Machine.Regular (match answers[m.memory.2]? with
    | some answer => ⟨answer.registers, (answer.memory, m.memory.2 + 1)⟩
    | none => ⟨m.registers, (m.memory.1, answers.length + 1)⟩)
  cases hanswer : answers[m.memory.2]? with
  | none => exact hm.congr rfl
  | some answer => exact (h answer (List.mem_of_getElem? hanswer)).congr rfl

/-- The load that `DelayedLoad` applies when the instruction ends is for a general-purpose
register. -/
def RetiresGP (env : Environment μ) (m : Machine μ) : Prop :=
  ∀ raw m₁, m.readMem env (m.registers pcReg) .word = .ok (some raw, m₁) →
    ∀ pcAfter m' pcAfter' nextLoadReg nextLoadValue,
      m₁.execute env (decode raw) pcAfter =
        .ok (.executed m' pcAfter' nextLoadReg nextLoadValue) → m'.LoadsGP

/-- An instruction leaves a pending load for a general register, or none. -/
theorem retiresGP (hkeeps : KeepsRegular env) (h : m.LoadsGP) : m.RetiresGP env := by
  intro raw m₁ hread pcAfter m' pcAfter' nextLoadReg nextLoadValue hexecute
  obtain ⟨result, m₂, hresolve, hm₂, -⟩ := resolve_ok hkeeps h (m.registers pcReg) .word false
  have hm₁ : m₁.LoadsGP := by
    rw [readMem, hresolve] at hread
    obtain ⟨-, rfl⟩ := Prod.mk.inj (Except.ok.inj hread)
    exact hm₂
  obtain ⟨hhandled, hshift⟩ := decode_handled raw
  by_cases hcrash : m₁.Crashes (decode raw)
  · obtain ⟨fault, herror⟩ := execute_crashes env hcrash pcAfter
    rw [herror] at hexecute
    cases hexecute
  · rcases execute_fine hkeeps hm₁ hhandled hshift hcrash pcAfter with
      ⟨m₃, hraised, -⟩ | ⟨m₃, _, _, _, hexecuted, hm₃⟩
    · rw [hraised] at hexecute
      cases hexecute
    · rw [hexecuted] at hexecute
      cases hexecute
      exact hm₃

/-- An instruction, with the answers of the kernel while it was executed. -/
theorem Regular.retire {start : Machine μ} {answers : List (Machine μ)} (hstart : start.Regular)
    (hanswers : ∀ answer ∈ answers, answer.Regular) {debug : Bool} {m' : Machine μ}
    (h : start.retire env debug answers = .ok m') : m'.Regular := by
  obtain ⟨outcome, hone, h⟩ := bind_ok_iff.mp h
  have hregular : outcome.machine.Regular :=
    oneInstruction_regular (answering_keepsRegular hanswers) hstart.loadsGP hone
  split at h
  · rw [← pure_ok_iff.mp h]
    exact hregular.congr rfl
  · cases h

end Machine

/-! ## Runs -/

/-- What matters of a thread here. -/
structure UserThread (μ : Type) where
  /-- `space` is not `NULL`. -/
  hasSpace : Bool
  /-- `SWITCH` returns into the `Scheduler::Run` that the thread called. -/
  started : Bool
  /-- `userRegisters`, which the constructor does not set. -/
  userRegisters : Fin numTotalRegs → Word
  /-- The instruction it is in, from its start, and what the handler has returned with since. -/
  instruction : Option (Machine μ × List (Machine μ))

/-- The machine and the threads of the kernel. -/
structure Simulator (μ : Type) where
  machine : Machine μ
  threads : ℕ → Option (UserThread μ)
  currentThread : ℕ

namespace Simulator

variable {env : Environment μ} {s s' : Simulator μ}

/-- What the running thread does to the registers. -/
inductive Event (μ : Type) where
  /-- `Machine::Run` calls `OneInstruction`. -/
  | instruction
  /-- `RaiseException`, in an instruction or in a memory access of a system call. -/
  | raise (badVAddr : Word)
  /-- `ExceptionHandler` returns into the instruction. -/
  | handled
  /-- `OneInstruction` returns. -/
  | retire (debug : Bool)
  /-- `DelayedLoad(0, 0)` of `CheckIfDue`. -/
  | interrupt
  /-- The kernel or a device changes the memory, or what belongs to it. -/
  | memory (memory : μ)
  /-- `WriteRegister(2, value)` of a system call. -/
  | result (value : Word)
  | returnFromSystemCall
  /-- `currentThread->space = space` of `StartProcess` and `AuxExec`. -/
  | setSpace
  | initRegisters (numPages : ℕ)
  /-- The rest of `ForkAux` up to `machine->Run()`. -/
  | forkRegisters (p : Word)
  /-- `new Thread`, in `Exec` without and in `Fork` with an address space. -/
  | newThread (t : ℕ) (hasSpace : Bool) (userRegisters : Fin numTotalRegs → Word)
  /-- `Scheduler::Run`. -/
  | run (nextThread : ℕ)
  /-- `delete threadToBeDestroyed`. -/
  | delete (t : ℕ)

def setThread (s : Simulator μ) (t : ℕ) (thread : Option (UserThread μ)) : Simulator μ :=
  { s with threads := Function.update s.threads t thread }

theorem setThread_self (s : Simulator μ) (t : ℕ) (thread : Option (UserThread μ)) :
    (s.setThread t thread).threads t = thread := Function.update_self _ _ _

theorem setThread_of_ne (s : Simulator μ) {t t' : ℕ} (h : t' ≠ t)
    (thread : Option (UserThread μ)) : (s.setThread t thread).threads t' = s.threads t' :=
  Function.update_of_ne h _ _

/-- `SaveUserState`, if the thread has an address space. -/
def saveUserState (machine : Machine μ) (old : UserThread μ) : UserThread μ :=
  if old.hasSpace then { old with userRegisters := machine.registers } else old

/-- `Scheduler::Run`, called by the thread `old`. -/
def switch (s : Simulator μ) (old : UserThread μ) (nextThread : ℕ) :
    Except Fault (Simulator μ) :=
  let s := { s.setThread s.currentThread (some (saveUserState s.machine old)) with
    currentThread := nextThread }
  match s.threads nextThread with
  | none => .error .deleted
  | some next =>
    if next.started then
      -- `RestoreUserState`
      .ok (if next.hasSpace then
        { s with machine := ⟨next.userRegisters, s.machine.memory⟩ } else s)
    else .ok (s.setThread nextThread (some { next with started := true }))

def step (env : Environment μ) (s : Simulator μ) (e : Event μ) : Except Fault (Simulator μ) :=
  match s.threads s.currentThread with
  | none => .error .deleted
  | some current =>
    match e with
    | .instruction => .ok (s.setThread s.currentThread
        (some { current with instruction := some (s.machine, []) }))
    | .raise badVAddr => do
      let machine ← s.machine.enterKernel badVAddr
      return { s with machine }
    | .handled =>
      match current.instruction with
      | none => .error .assertion
      | some (start, answers) => .ok (s.setThread s.currentThread
          (some { current with instruction := some (start, answers ++ [s.machine]) }))
    | .retire debug =>
      match current.instruction with
      | none => .error .assertion
      | some (start, answers) => do
        let machine ← start.retire env debug answers
        return { s.setThread s.currentThread (some { current with instruction := none }) with
          machine }
    | .interrupt => do
      let machine ← s.machine.delayedLoad 0 0
      return { s with machine }
    | .memory memory => .ok { s with machine := ⟨s.machine.registers, memory⟩ }
    | .result value => .ok { s with machine := s.machine.set (gp 2) value }
    | .returnFromSystemCall => .ok { s with machine := s.machine.returnFromSystemCall }
    | .setSpace => .ok (s.setThread s.currentThread (some { current with hasSpace := true }))
    | .initRegisters numPages => .ok { s with machine := s.machine.initRegisters numPages }
    | .forkRegisters p => .ok { s with machine := s.machine.forkRegisters p }
    | .newThread t hasSpace userRegisters =>
      match s.threads t with
      | some _ => .error .assertion
      | none => .ok (s.setThread t (some ⟨hasSpace, false, userRegisters, none⟩))
    | .run nextThread => s.switch current nextThread
    | .delete t => if t = s.currentThread then .error .assertion else .ok (s.setThread t none)

/-- The registers after `Machine::Machine`, and the main thread without an address space. -/
def boot (memory : μ) (userRegisters : Fin numTotalRegs → Word) : Simulator μ where
  machine := ⟨fun _ => 0, memory⟩
  threads := Function.update (fun _ => none) 0 (some ⟨false, true, userRegisters, none⟩)
  currentThread := 0

/-! ## The invariant -/

/-- All registers that may be used again are regular: those of the machine, those saved for the
threads that `Scheduler::Run` will restore, and those of the instructions in progress. -/
structure Inv (s : Simulator μ) : Prop where
  machine : s.machine.Regular
  saved : ∀ t thread, s.threads t = some thread → t ≠ s.currentThread →
    thread.started = true → thread.hasSpace = true →
    Machine.Regular (⟨thread.userRegisters, ()⟩ : Machine Unit)
  instruction : ∀ t thread start answers, s.threads t = some thread →
    thread.instruction = some (start, answers) →
    start.Regular ∧ ∀ answer ∈ answers, answer.Regular

/-- Nothing has been saved yet. -/
theorem boot_inv (memory : μ) (userRegisters : Fin numTotalRegs → Word) :
    Inv (boot memory userRegisters) := by
  have honly : ∀ t thread, (boot memory userRegisters).threads t = some thread →
      t = 0 ∧ thread = ⟨false, true, userRegisters, none⟩ := by
    intro t thread ht
    by_cases hzero : t = 0
    · subst hzero
      exact ⟨rfl, (Option.some.inj ht).symm⟩
    · have hnone : Function.update (fun _ => none) 0 (some ⟨false, true, userRegisters, none⟩) t =
          some thread := ht
      rw [Function.update_of_ne hzero] at hnone
      cases hnone
  refine ⟨Machine.zeros_regular memory, fun t thread ht hcurrent => ?_,
    fun t thread start answers ht h => ?_⟩
  · exact absurd (honly t thread ht).1 hcurrent
  · rw [(honly t thread ht).2] at h
    cases h

/-- With other registers the machine stays regular if they are. -/
theorem Inv.withMachine (hinv : Inv s) {machine : Machine μ} (h : machine.Regular) :
    Inv { s with machine } := ⟨h, hinv.saved, hinv.instruction⟩

/-- The running thread goes on with another record. -/
theorem Inv.setCurrent (hinv : Inv s) {thread : UserThread μ}
    (h : ∀ start answers, thread.instruction = some (start, answers) →
      start.Regular ∧ ∀ answer ∈ answers, answer.Regular) :
    Inv (s.setThread s.currentThread (some thread)) := by
  refine ⟨hinv.machine, fun t thread' ht hcurrent => ?_, fun t thread' start answers ht hinstr => ?_⟩
  · rw [setThread_of_ne s (t := s.currentThread) hcurrent] at ht
    exact hinv.saved t thread' ht hcurrent
  · by_cases heq : t = s.currentThread
    · subst heq
      rw [setThread_self, Option.some.injEq] at ht
      subst ht
      exact h start answers hinstr
    · rw [setThread_of_ne s heq] at ht
      exact hinv.instruction t thread' start answers ht hinstr

/-- A thread that has not run yet. -/
theorem Inv.newThread (hinv : Inv s) {t : ℕ} (ht : s.threads t = none) (hasSpace : Bool)
    (userRegisters : Fin numTotalRegs → Word) :
    Inv (s.setThread t (some ⟨hasSpace, false, userRegisters, none⟩)) := by
  have hcases : ∀ t' thread,
      (s.setThread t (some ⟨hasSpace, false, userRegisters, none⟩)).threads t' = some thread →
      s.threads t' = some thread ∨ (thread.started = false ∧ thread.instruction = none) := by
    intro t' thread h
    by_cases heq : t' = t
    · subst heq
      rw [setThread_self, Option.some.injEq] at h
      subst h
      exact .inr ⟨rfl, rfl⟩
    · rw [setThread_of_ne s heq] at h
      exact .inl h
  refine ⟨hinv.machine, fun t' thread h hcurrent hstarted => ?_, fun t' thread start answers h hi => ?_⟩
  · rcases hcases t' thread h with h | ⟨hnot, -⟩
    · exact hinv.saved t' thread h hcurrent hstarted
    · rw [hnot] at hstarted
      cases hstarted
  · rcases hcases t' thread h with h | ⟨-, hnone⟩
    · exact hinv.instruction t' thread start answers h hi
    · rw [hnone] at hi
      cases hi

/-- A thread that is deleted takes its saved registers with it. -/
theorem Inv.delete (hinv : Inv s) (t : ℕ) : Inv (s.setThread t none) := by
  have hsub : ∀ t' thread, (s.setThread t none).threads t' = some thread →
      s.threads t' = some thread := by
    intro t' thread h
    by_cases heq : t' = t
    · rw [heq, setThread_self] at h
      cases h
    · rw [setThread_of_ne s heq] at h
      exact h
  exact ⟨hinv.machine, fun t' thread h => hinv.saved t' thread (hsub t' thread h),
    fun t' thread start answers h => hinv.instruction t' thread start answers (hsub t' thread h)⟩

/-- What is saved for the old thread is regular, so that any thread can be resumed. -/
theorem Inv.resumable (hinv : Inv s) {old : UserThread μ} {t : ℕ} {thread : UserThread μ}
    (ht : (s.setThread s.currentThread (some (saveUserState s.machine old))).threads t = some thread)
    (hstarted : thread.started = true) (hspace : thread.hasSpace = true) :
    Machine.Regular (⟨thread.userRegisters, ()⟩ : Machine Unit) := by
  by_cases heq : t = s.currentThread
  · subst heq
    rw [setThread_self, Option.some.injEq] at ht
    subst ht
    unfold saveUserState at hspace ⊢
    by_cases hold : old.hasSpace = true
    · rw [if_pos hold]
      exact hinv.machine.congr rfl
    · rw [if_neg hold] at hspace
      exact absurd hspace hold
  · rw [setThread_of_ne s heq] at ht
    exact hinv.saved t thread ht heq hstarted hspace

/-- A switch saves the registers of one thread and restores those of another. -/
theorem Inv.switch (hinv : Inv s) {old : UserThread μ} {nextThread : ℕ}
    (hold : s.threads s.currentThread = some old) (h : s.switch old nextThread = .ok s') :
    Inv s' := by
  have hsaved : Inv (s.setThread s.currentThread (some (saveUserState s.machine old))) := by
    apply hinv.setCurrent
    intro start answers hinstr
    have hsame : (saveUserState s.machine old).instruction = old.instruction := by
      unfold saveUserState
      split <;> rfl
    exact hinv.instruction s.currentThread old start answers hold (hsame ▸ hinstr)
  have hswitched : Inv { s.setThread s.currentThread (some (saveUserState s.machine old)) with
      currentThread := nextThread } :=
    ⟨hsaved.machine, fun t thread ht _ => hinv.resumable ht, hsaved.instruction⟩
  unfold Simulator.switch at h
  dsimp only at h
  cases hnext : (s.setThread s.currentThread (some (saveUserState s.machine old))).threads nextThread with
  | none =>
    rw [hnext] at h
    cases h
  | some next =>
    have hresumable := hinv.resumable hnext
    have hinstr := hsaved.instruction nextThread next
    rw [hnext] at h
    dsimp only at h
    split at h
    · rename_i hstarted
      cases h
      by_cases hspace : next.hasSpace = true
      · rw [if_pos hspace]
        exact hswitched.withMachine ((hresumable hstarted hspace).congr rfl)
      · rw [if_neg hspace]
        exact hswitched
    · cases h
      exact hswitched.setCurrent fun start answers hsome => hinstr start answers hnext hsome

/-- One step of the simulator. -/
theorem step_inv {e : Event μ} (hinv : Inv s) (h : step env s e = .ok s') : Inv s' := by
  cases hcurrent : s.threads s.currentThread with
  | none =>
    rw [step, hcurrent] at h
    cases h
  | some current =>
    have hinstr := hinv.instruction s.currentThread current
    rw [step, hcurrent] at h
    cases e with
    | instruction =>
      cases h
      apply hinv.setCurrent
      rintro start answers hsome
      cases hsome
      exact ⟨hinv.machine, by simp⟩
    | raise badVAddr =>
      obtain ⟨machine, henter, h⟩ := bind_ok_iff.mp h
      rw [← pure_ok_iff.mp h]
      exact hinv.withMachine (hinv.machine.enterKernel henter)
    | handled =>
      cases hin : current.instruction with
      | none =>
        simp only [hin] at h
        cases h
      | some pair =>
        simp only [hin] at h
        cases h
        obtain ⟨hstart, hanswers⟩ := hinstr pair.1 pair.2 hcurrent hin
        apply hinv.setCurrent
        rintro start answers hsome
        cases hsome
        -- the new answer is what the handler leaves, a machine that is regular by the invariant
        refine ⟨hstart, fun answer hanswer => ?_⟩
        rcases List.mem_append.mp hanswer with hmem | hmem
        · exact hanswers answer hmem
        · rw [List.mem_singleton.mp hmem]
          exact hinv.machine
    | retire debug =>
      cases hin : current.instruction with
      | none =>
        simp only [hin] at h
        cases h
      | some pair =>
        simp only [hin] at h
        obtain ⟨machine, hretire, h⟩ := bind_ok_iff.mp h
        rw [← pure_ok_iff.mp h]
        obtain ⟨hstart, hanswers⟩ := hinstr pair.1 pair.2 hcurrent hin
        -- the instruction is over; only then are its delayed load and its answers put together
        have hthread : Inv (s.setThread s.currentThread
            (some { current with instruction := none })) := by
          apply hinv.setCurrent
          intro start answers hnone
          cases hnone
        exact hthread.withMachine (hstart.retire hanswers hretire)
    | interrupt =>
      obtain ⟨machine, hflush, h⟩ := bind_ok_iff.mp h
      rw [← pure_ok_iff.mp h]
      exact hinv.withMachine (hinv.machine.flush hflush)
    | memory memory =>
      cases h
      exact hinv.withMachine (hinv.machine.congr rfl)
    | result value =>
      cases h
      exact hinv.withMachine (hinv.machine.set (by decide) (by decide) value)
    | returnFromSystemCall =>
      cases h
      exact hinv.withMachine hinv.machine.returnFromSystemCall
    | setSpace =>
      cases h
      exact hinv.setCurrent fun start answers hsome => hinstr start answers hcurrent hsome
    | initRegisters numPages =>
      cases h
      exact hinv.withMachine (Machine.initRegisters_regular s.machine numPages)
    | forkRegisters p =>
      cases h
      exact hinv.withMachine (hinv.machine.forkRegisters p)
    | newThread t hasSpace userRegisters =>
      cases ht : s.threads t with
      | some _ =>
        simp only [ht] at h
        cases h
      | none =>
        simp only [ht] at h
        cases h
        exact hinv.newThread ht hasSpace userRegisters
    -- the registers of both threads go through the saved ones
    | run nextThread => exact hinv.switch hcurrent h
    | delete t =>
      dsimp only at h
      split at h
      · cases h
      · cases h
        exact hinv.delete t

/-- Whatever `DelayedLoad` the simulator comes to next, it is for a general-purpose register: that
of an interrupt or an exception, and that at the end of an instruction in progress. -/
structure LoadsOnlyGP (env : Environment μ) (s : Simulator μ) : Prop where
  flush : s.machine.LoadsGP
  retire : ∀ t thread start answers, s.threads t = some thread →
    thread.instruction = some (start, answers) →
    start.LoadsGP ∧ start.counting.RetiresGP (env.answering answers)

/-- In every state that a run reaches, between two instructions and in the kernel, register 0
holds 0 and the pending load is for a general-purpose register, and so is every load that
`DelayedLoad` applies. -/
theorem run_registers (env : Environment μ) (memory : μ)
    (userRegisters : Fin numTotalRegs → Word) {es : List (Event μ)}
    (h : PartialRun.run (step env) (boot memory userRegisters) es = .ok s) :
    s.machine.reg 0 = 0 ∧ s.machine.LoadsGP ∧ s.LoadsOnlyGP env := by
  have hinv : Inv s :=
    run_invariant (fun _ _ _ hinv hstep => step_inv hinv hstep) (boot_inv memory userRegisters) h
  refine ⟨hinv.machine.zero, hinv.machine.loadsGP, hinv.machine.loadsGP, ?_⟩
  intro t thread start answers ht hinstr
  obtain ⟨hstart, hanswers⟩ := hinv.instruction t thread start answers ht hinstr
  exact ⟨hstart.loadsGP,
    Machine.retiresGP (Machine.answering_keepsRegular hanswers) (hstart.congr rfl).loadsGP⟩

/-- `LW r0,0(r0)`, an interrupt before the next instruction, and a switch to a new thread and
back. -/
def loadEvents : List (Event (List Word)) :=
  [.setSpace, .initRegisters 10, .instruction, .retire false, .interrupt,
    .newThread 1 false fun _ => 7, .run 1, .result 5, .run 0]

theorem run_registers_load : ∃ s,
    PartialRun.run (step Machine.wordMemory) (boot [0x8c000000] fun _ => 7) loadEvents = .ok s ∧
    s.machine.reg 0 = 0 ∧ s.machine.LoadsGP ∧ s.LoadsOnlyGP Machine.wordMemory := by
  obtain ⟨s, hrun⟩ : ∃ s, PartialRun.run (step Machine.wordMemory)
      (boot [0x8c000000] fun _ => 7) loadEvents = .ok s := ⟨_, rfl⟩
  exact ⟨s, hrun, run_registers Machine.wordMemory [0x8c000000] (fun _ => 7) hrun⟩

end Simulator
end NachOS
