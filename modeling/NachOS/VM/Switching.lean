import NachOS.Threads.UserThreads
import NachOS.VM.Agreement

/-!
# Switching between user threads

A switch saves and restores the registers of user threads, and leaves the TLB as it is. So
a thread gets its registers back whatever runs in between, but the translations it finds in
the TLB are its own only if those of the threads before it happen to be: every valid entry
must have the frame that the next address space has for the page.
-/

namespace NachOS
namespace UserThreads

open PartialRun NachOS.System

/-! ## What is wanted, and when -/

/-- What the running thread finds of its own. The entries of the TLB that `Translate` can hit
are those of its address space; and when it is next switched to after it has been switched
out, it has the registers it has now. -/
structure Private (u : UserThreads) : Prop where
  tlb : ∀ b ∈ u.space, ∀ (v : ℕ) (i : Fin tlbSize), lookup u.sys.tlb v = some i →
    ((u.sys.spaces b).pageTable v).virtualPage = v ∧
      ((u.sys.spaces b).pageTable v).physicalPage = (u.sys.tlb i).physicalPage
  registers : u.space.isSome → ∀ (es : List Event) (u' : UserThreads),
    (∀ e ∈ es.head?, ∃ nextThread, e = .run nextThread) →
    (∀ e ∈ es, e ≠ .run u.currentThread) →
    PartialRun.run step u (es ++ [.run u.currentThread]) = .ok u' → u'.registers = u.registers

/-- Every valid entry of the TLB for a page has the frame that address space `b` has for it. -/
def TLBFor (s : System) (b : ℕ) : Prop := ∀ i : Fin tlbSize,
  (s.tlb i).valid = true → 0 ≤ (s.tlb i).virtualPage →
    ((s.spaces b).pageTable (s.tlb i).virtualPage.toNat).virtualPage = (s.tlb i).virtualPage ∧
    ((s.spaces b).pageTable (s.tlb i).virtualPage.toNat).physicalPage = (s.tlb i).physicalPage

/-- A thread that is switched to finds a TLB for its address space, and a thread that gets a
new address space finds no valid entry for a page. -/
def Undisturbed (u : UserThreads) : Event → Prop
  | .run nextThread => ∀ b ∈ (u.threads nextThread).bind Thread.space, TLBFor u.sys b
  | .startProcess _ => ∀ i : Fin tlbSize, (u.sys.tlb i).valid = true →
      (u.sys.tlb i).virtualPage < 0
  | _ => True

instance (s : System) (b : ℕ) : Decidable (TLBFor s b) := by
  unfold TLBFor
  infer_instance

instance (u : UserThreads) : (e : Event) → Decidable (Undisturbed u e)
  | .run nextThread => inferInstanceAs
      (Decidable (∀ b ∈ (u.threads nextThread).bind Thread.space, TLBFor u.sys b))
  | .startProcess _ => inferInstanceAs (Decidable (∀ _ : Fin tlbSize, _ → _))
  | .access _ => isTrue trivial
  | .writeRegister _ _ => isTrue trivial
  | .exec _ => isTrue trivial
  | .fork _ => isTrue trivial

/-- A TLB that belongs to an address space agrees with its page table. -/
theorem TLBFor.agrees {s : System} {b : ℕ} (h : TLBFor s b) : Agrees (s.switchTo b) := by
  intro i v hvalid hv
  have hi := h i hvalid (by rw [show (s.tlb i).virtualPage = v from hv]; exact Int.natCast_nonneg v)
  rw [show (s.tlb i).virtualPage = v from hv, Int.toNat_natCast] at hi
  exact hi

/-! ## What one event does -/

/-- The thread once `Scheduler::Run` has saved its registers. -/
def saved (u : UserThreads) (old : Thread) : Thread :=
  if old.space.isSome then { old with userRegisters := some u.registers } else old

@[simp] theorem saved_space (u : UserThreads) (old : Thread) : (u.saved old).space = old.space := by
  unfold saved
  split <;> rfl

@[simp] theorem saved_started (u : UserThreads) (old : Thread) :
    (u.saved old).started = old.started := by
  unfold saved
  split <;> rfl

/-- The state in which `SWITCH` is called. -/
def left (u : UserThreads) (old : Thread) (nextThread : ℕ) : UserThreads :=
  { u.setThread u.currentThread (u.saved old) with currentThread := nextThread }

/-- The outcomes of `Scheduler::Run` from thread `old` to thread `next`. -/
inductive Switched (u : UserThreads) (nextThread : ℕ) (old next : Thread) : UserThreads → Prop where
  /-- The next thread is a kernel thread that goes on. -/
  | kernel (hstarted : next.started = true) (hspace : next.space = none) :
    Switched u nextThread old next (u.left old nextThread)
  /-- The next thread is a user thread that goes on. -/
  | user {registers : Registers} (hstarted : next.started = true) (hspace : next.space.isSome)
    (hsaved : next.userRegisters = some registers) :
    Switched u nextThread old next { u.left old nextThread with registers := registers }
  /-- The next thread runs for the first time. -/
  | first (hstarted : next.started = false) :
    Switched u nextThread old next
      ((u.left old nextThread).setThread nextThread { next with started := true })

/-- What `Scheduler::Run` did, if it came to an end: it saved one thread and restored another. -/
theorem run_ok {u u' : UserThreads} {nextThread : ℕ} (h : u.run nextThread = .ok u') :
    ∃ old next, u.current = some old ∧ (u.left old nextThread).current = some next ∧
      Switched u nextThread old next u' := by
  unfold UserThreads.run at h
  cases hold : u.current with
  | none =>
    rw [hold] at h
    cases h
  | some old =>
    rw [hold] at h
    dsimp only at h
    cases hnext : (u.left old nextThread).current with
    | none =>
      have hnext' := hnext
      unfold left saved at hnext'
      rw [hnext'] at h
      cases h
    | some next =>
      refine ⟨old, next, rfl, hnext, ?_⟩
      unfold left saved at hnext
      rw [hnext] at h
      dsimp only at h
      split at h
      · rename_i hstarted
        split at h
        · rename_i hspace
          cases hsaved : next.userRegisters with
          | none => rw [hsaved] at h; cases h
          | some registers =>
            rw [hsaved] at h
            cases h
            exact .user hstarted hspace hsaved
        · rename_i hspace
          cases h
          exact .kernel hstarted (by simpa using hspace)
      · rename_i hstarted
        cases h
        exact .first (by simpa using hstarted)

/-- `Thread::Fork` creates a thread that was not there. -/
theorem newThread_ok {u u' : UserThreads} {t : ℕ} {space : Option ℕ}
    (h : u.newThread t space = .ok u') :
    u.threads t = none ∧ u' = u.setThread t ⟨space, none, false⟩ := by
  unfold newThread at h
  split at h
  · cases h
  · rename_i hnone
    cases h
    exact ⟨hnone, rfl⟩

/-- `StartProcess` gives the current thread an address space of its own. -/
theorem startProcess_ok {u u' : UserThreads} {executable : HostFile}
    (h : u.startProcess executable = .ok u') : ∃ thread space,
      u.current = some thread ∧
      AddrSpace.exeVirtualMemoryConstructor executable = .ok space ∧
      u' = { (u.allocate space).setThread u.currentThread
        { thread with space := some u.numSpaces } with
          registers := initRegisters space.numPages } := by
  unfold startProcess at h
  cases hcur : u.current with
  | none =>
    rw [hcur] at h
    cases h
  | some thread =>
    rw [hcur] at h
    obtain ⟨space, hspace, h⟩ := bind_ok_iff.mp h
    cases h
    exact ⟨thread, space, rfl, hspace, rfl⟩

/-- `Fork` allocates a space whose entries are copied from the current one. -/
theorem fork_ok {u u' : UserThreads} {t : ℕ} (h : u.fork t = .ok u') : ∃ b space,
    u.space = some b ∧ AddrSpace.virtualMemoryConstructor (u.sys.spaces b) = .ok space ∧
      (u.allocate space).newThread t (some u.numSpaces) = .ok u' := by
  unfold fork at h
  cases hcur : u.space with
  | none =>
    rw [hcur] at h
    cases h
  | some b =>
    rw [hcur] at h
    obtain ⟨space, hspace, h⟩ := bind_ok_iff.mp h
    exact ⟨b, space, rfl, hspace, h⟩

/-- An access of a thread is an access to its address space. -/
theorem access_step_ok {u u' : UserThreads} {a : Access} (h : u.step (.access a) = .ok u') :
    ∃ b sys, u.space = some b ∧ u.sys.step { a with space := b } = .ok sys ∧
      u' = { u with sys := sys } := by
  rw [step] at h
  split at h
  · rename_i b hspace
    obtain ⟨sys, hstep, h⟩ := bind_ok_iff.mp h
    cases h
    exact ⟨b, sys, hspace, hstep, rfl⟩
  · cases h

/-- The TLB is not touched by a switch. -/
theorem Switched.sys {u u' : UserThreads} {t : ℕ} {old next : Thread}
    (h : Switched u t old next u') : u'.sys = u.sys := by
  cases h <;> rfl

/-! ## The registers -/

/-- The thread that runs has left `ThreadRoot`. -/
def Entered (u : UserThreads) : Prop := ∃ thread, u.current = some thread ∧ thread.started = true

/-- Thread `t` waits to be switched to. -/
def Waiting (t : ℕ) (thread : Thread) (u : UserThreads) : Prop :=
  u.currentThread ≠ t ∧ u.threads t = some thread

theorem setThread_current (u : UserThreads) (t : ℕ) (thread : Thread)
    (ht : u.currentThread = t) : (u.setThread t thread).current = some thread := by
  rw [← ht]
  exact Function.update_self _ _ _

theorem setThread_current_of_ne (u : UserThreads) (t : ℕ) (thread : Thread)
    (ht : u.currentThread ≠ t) : (u.setThread t thread).current = u.current :=
  Function.update_of_ne ht _ _

theorem setThread_of_ne (u : UserThreads) {t t' : ℕ} (thread : Thread) (h : t' ≠ t) :
    (u.setThread t thread).threads t' = u.threads t' :=
  Function.update_of_ne h _ _

/-- A new thread is not the one that runs. -/
theorem newThread_current {u u' : UserThreads} {t : ℕ} {space : Option ℕ} {thread : Thread}
    (hcur : u.current = some thread) (h : u.newThread t space = .ok u') :
    u'.current = some thread := by
  obtain ⟨hnone, rfl⟩ := newThread_ok h
  rw [setThread_current_of_ne u t _ ?_]
  · exact hcur
  · intro heq
    rw [← heq] at hnone
    exact absurd (hcur.symm.trans hnone) (Option.some_ne_none thread)

/-- The step lemma: the thread that runs has left `ThreadRoot`. -/
theorem step_entered {u u' : UserThreads} {e : Event} (hentered : Entered u)
    (h : u.step e = .ok u') : Entered u' := by
  obtain ⟨thread, hcur, hstarted⟩ := hentered
  cases e with
  | run nextThread =>
    obtain ⟨old, next, -, hnext, hswitched⟩ := run_ok h
    cases hswitched with
    | kernel hstarted hspace => exact ⟨next, hnext, hstarted⟩
    | user hstarted hspace hsaved => exact ⟨next, hnext, hstarted⟩
    | first hstarted => exact ⟨_, setThread_current _ _ _ rfl, rfl⟩
  | access a =>
    obtain ⟨b, sys, -, -, rfl⟩ := access_step_ok h
    exact ⟨thread, hcur, hstarted⟩
  | writeRegister num value =>
    cases h
    exact ⟨thread, hcur, hstarted⟩
  | startProcess executable =>
    obtain ⟨thread', space, hcur', -, rfl⟩ := startProcess_ok h
    rw [hcur] at hcur'
    cases hcur'
    exact ⟨{ thread with space := some u.numSpaces }, Function.update_self _ _ _, hstarted⟩
  | exec t => exact ⟨thread, newThread_current hcur h, hstarted⟩
  | fork t =>
    obtain ⟨b, space, -, -, hnew⟩ := fork_ok h
    exact ⟨thread, newThread_current (u := u.allocate space) hcur hnew, hstarted⟩

/-- A new thread does not disturb those that wait. -/
theorem newThread_waiting {u u' : UserThreads} {t t' : ℕ} {space : Option ℕ} {thread : Thread}
    (hwait : Waiting t thread u) (h : u.newThread t' space = .ok u') : Waiting t thread u' := by
  obtain ⟨hnone, rfl⟩ := newThread_ok h
  have hne : t ≠ t' := by
    rintro rfl
    rw [hwait.2] at hnone
    cases hnone
  exact ⟨hwait.1, (setThread_of_ne u _ hne).trans hwait.2⟩

/-- `SWITCH` itself does not touch a thread other than the next one. -/
theorem Switched.waiting {u u' : UserThreads} {t nextThread : ℕ} {old next thread : Thread}
    (h : Switched u nextThread old next u') (hne : t ≠ nextThread)
    (hleft : (u.left old nextThread).threads t = some thread) : Waiting t thread u' := by
  cases h with
  | kernel hstarted hspace => exact ⟨hne.symm, hleft⟩
  | user hstarted hspace hsaved => exact ⟨hne.symm, hleft⟩
  | first hstarted => exact ⟨hne.symm, (setThread_of_ne _ _ hne).trans hleft⟩

/-- What the other threads do does not touch a thread that waits. -/
theorem step_waiting {u u' : UserThreads} {e : Event} {t : ℕ} {thread : Thread}
    (hwait : Waiting t thread u) (he : e ≠ .run t) (h : u.step e = .ok u') :
    Waiting t thread u' := by
  cases e with
  | run nextThread =>
    have hne : t ≠ nextThread := by
      rintro rfl
      exact he rfl
    obtain ⟨old, next, -, -, hswitched⟩ := run_ok h
    have hleft : (u.left old nextThread).threads t = some thread :=
      (setThread_of_ne u _ hwait.1.symm).trans hwait.2
    exact hswitched.waiting hne hleft
  | access a =>
    obtain ⟨b, sys, -, -, rfl⟩ := access_step_ok h
    exact hwait
  | writeRegister num value =>
    cases h
    exact hwait
  | startProcess executable =>
    obtain ⟨thread', space, -, -, rfl⟩ := startProcess_ok h
    exact ⟨hwait.1, (setThread_of_ne _ _ hwait.1.symm).trans hwait.2⟩
  | exec t' => exact newThread_waiting hwait h
  | fork t' =>
    obtain ⟨b, space, -, -, hnew⟩ := fork_ok h
    exact newThread_waiting (u := u.allocate space) hwait hnew

/-- A user thread that is switched to has the registers that were saved for it. -/
theorem Switched.registers {u u' : UserThreads} {t : ℕ} {old next : Thread}
    {registers : Registers} (h : Switched u t old next u') (hstarted : next.started = true)
    (hspace : next.space.isSome) (hsaved : next.userRegisters = some registers) :
    u'.registers = registers := by
  cases h with
  | kernel hstarted' hspace' =>
    rw [hspace'] at hspace
    cases hspace
  | user hstarted' hspace' hsaved' =>
    rw [hsaved] at hsaved'
    exact (Option.some.inj hsaved').symm
  | first hstarted' =>
    rw [hstarted] at hstarted'
    cases hstarted'

theorem left_current_of_ne {u : UserThreads} {old : Thread} {t : ℕ} (h : t ≠ u.currentThread) :
    (u.left old t).current = u.threads t := setThread_of_ne u _ h

theorem left_current_self (u : UserThreads) (old : Thread) :
    (u.left old u.currentThread).current = some (u.saved old) := Function.update_self _ _ _

/-- A user thread gets the registers back with which it was switched out. -/
theorem registers_restored {u u' : UserThreads} (hentered : Entered u) (huser : u.space.isSome)
    {es : List Event} (hfirst : ∀ e ∈ es.head?, ∃ nextThread, e = .run nextThread)
    (hothers : ∀ e ∈ es, e ≠ .run u.currentThread)
    (hrun : PartialRun.run step u (es ++ [.run u.currentThread]) = .ok u') :
    u'.registers = u.registers := by
  obtain ⟨old, hold, hstarted⟩ := hentered
  have hspace : old.space.isSome := by
    rw [UserThreads.space, hold] at huser
    exact huser
  have hsaved : (u.saved old).userRegisters = some u.registers := by
    rw [saved, if_pos hspace]
  rw [← saved_space u] at hspace
  rw [← saved_started u] at hstarted
  obtain ⟨u₁, hrun, hlast⟩ := run_append_eq_ok.mp hrun
  obtain ⟨u₂, hlast, hnil⟩ := run_cons_eq_ok.mp hlast
  cases hnil
  obtain ⟨old₁, next, hold₁, hnext, hswitched⟩ := run_ok hlast
  cases es with
  | nil =>
    cases hrun
    -- the thread is switched to itself
    rw [hold] at hold₁
    cases hold₁
    rw [left_current_self] at hnext
    cases hnext
    exact hswitched.registers hstarted hspace hsaved
  | cons e es =>
    obtain ⟨nextThread, rfl⟩ := hfirst e rfl
    obtain ⟨u₀, hstep, hrun⟩ := run_cons_eq_ok.mp hrun
    have hne : u.currentThread ≠ nextThread := by
      intro heq
      exact hothers _ List.mem_cons_self (by rw [heq])
    -- it waits from the first switch to the last
    have hwait : Waiting u.currentThread (u.saved old) u₀ := by
      obtain ⟨old₀, next₀, hold₀, -, hswitched₀⟩ := run_ok hstep
      rw [hold] at hold₀
      cases hold₀
      exact hswitched₀.waiting hne (Function.update_self _ _ _)
    have hwait : Waiting u.currentThread (u.saved old) u₁ :=
      Along.invariant (fun s e s' hw (he : e ≠ .run u.currentThread) hst => step_waiting hw he hst)
        hwait (Along.of_forall fun e he => hothers e (List.mem_cons_of_mem _ he)) hrun
    rw [left_current_of_ne hwait.1.symm, hwait.2] at hnext
    cases hnext
    exact hswitched.registers hstarted hspace hsaved

/-! ## The TLB -/

/-- Every address space of a thread has been allocated. -/
def Allocated (u : UserThreads) : Prop := ∀ t, ∀ thread ∈ u.threads t, ∀ b ∈ thread.space,
  b < u.numSpaces

/-- Threads only refer to address spaces that were allocated. -/
theorem Allocated.setThread {u : UserThreads} {t : ℕ} {thread : Thread} (halloc : Allocated u)
    (h : ∀ b ∈ thread.space, b < u.numSpaces) : Allocated (u.setThread t thread) := by
  intro t' thread' ht' b hb
  have ht' : Function.update u.threads t (some thread) t' = some thread' := ht'
  by_cases htt : t' = t
  · rw [htt, Function.update_self] at ht'
    cases ht'
    exact h b hb
  · rw [Function.update_of_ne htt] at ht'
    exact halloc t' thread' ht' b hb

theorem Allocated.allocate {u : UserThreads} (halloc : Allocated u) (space : AddrSpace) :
    Allocated (u.allocate space) :=
  fun t thread ht b hb => (halloc t thread ht b hb).trans (Nat.lt_succ_self _)

theorem Allocated.newThread {u u' : UserThreads} {t : ℕ} {space : Option ℕ}
    (halloc : Allocated u) (hspace : ∀ b ∈ space, b < u.numSpaces)
    (h : u.newThread t space = .ok u') : Allocated u' := by
  obtain ⟨-, rfl⟩ := newThread_ok h
  exact halloc.setThread hspace

/-- No step refers to another one. -/
theorem step_allocated {u u' : UserThreads} {e : Event} (halloc : Allocated u)
    (h : u.step e = .ok u') : Allocated u' := by
  cases e with
  | run nextThread =>
    obtain ⟨old, next, hold, hnext, hswitched⟩ := run_ok h
    have hleft : Allocated (u.left old nextThread) := by
      refine halloc.setThread fun b hb => ?_
      rw [saved_space] at hb
      exact halloc u.currentThread old hold b hb
    cases hswitched with
    | kernel hstarted hspace => exact hleft
    | user hstarted hspace hsaved => exact hleft
    | first hstarted => exact hleft.setThread fun b hb => hleft nextThread next hnext b hb
  | access a =>
    obtain ⟨b, sys, -, -, rfl⟩ := access_step_ok h
    exact halloc
  | writeRegister num value =>
    cases h
    exact halloc
  | startProcess executable =>
    obtain ⟨thread, space, -, -, rfl⟩ := startProcess_ok h
    refine (halloc.allocate space).setThread fun b hb => ?_
    cases hb
    exact Nat.lt_succ_self _
  | exec t => exact halloc.newThread (fun b hb => absurd hb (Option.not_mem_none b)) h
  | fork t =>
    obtain ⟨b, space, -, -, hnew⟩ := fork_ok h
    refine (halloc.allocate space).newThread (fun b hb => ?_) hnew
    cases hb
    exact Nat.lt_succ_self _

/-- The page tables of all address spaces number their pages, also the new one's. -/
theorem numbered_allocate {u : UserThreads} {space : AddrSpace} (hnum : Numbered u.sys)
    (hspace : ∀ p, (space.pageTable p).virtualPage = -1 ∨ (space.pageTable p).virtualPage = p) :
    Numbered (u.allocate space).sys := by
  intro b p
  show ((Function.update u.sys.spaces u.numSpaces space b).pageTable p).virtualPage = -1 ∨
    ((Function.update u.sys.spaces u.numSpaces space b).pageTable p).virtualPage = p
  by_cases hb : b = u.numSpaces
  · rw [hb, Function.update_self]
    exact hspace p
  · rw [Function.update_of_ne hb]
    exact hnum b p

/-- A copy of a page table has the pages of the original where it has any. -/
theorem virtualMemoryConstructor_numbered {other space : AddrSpace}
    (h : AddrSpace.virtualMemoryConstructor other = .ok space) (hother : ∀ p,
      (other.pageTable p).virtualPage = -1 ∨ (other.pageTable p).virtualPage = p) (p : ℕ) :
    (space.pageTable p).virtualPage = -1 ∨ (space.pageTable p).virtualPage = p := by
  unfold AddrSpace.virtualMemoryConstructor at h
  dsimp only at h
  split at h
  · cases h
  · cases h
    dsimp only
    split
    · exact hother p
    · exact .inl rfl

/-- Every event keeps the numbering of the page tables. -/
theorem step_sys_numbered {u u' : UserThreads} {e : Event} (hnum : Numbered u.sys)
    (h : u.step e = .ok u') : Numbered u'.sys := by
  cases e with
  | run nextThread =>
    obtain ⟨old, next, -, -, hswitched⟩ := run_ok h
    rw [hswitched.sys]
    exact hnum
  | access a =>
    obtain ⟨b, sys, -, hstep, rfl⟩ := access_step_ok h
    exact step_numbered hnum hstep
  | writeRegister num value =>
    cases h
    exact hnum
  | startProcess executable =>
    obtain ⟨thread, space, -, hspace, rfl⟩ := startProcess_ok h
    obtain ⟨noffH, -, hspace⟩ := bind_ok_iff.mp hspace
    cases hspace
    exact numbered_allocate hnum fun p => .inl rfl
  | exec t =>
    obtain ⟨-, rfl⟩ := newThread_ok h
    exact hnum
  | fork t =>
    obtain ⟨b, space, -, hspace, hnew⟩ := fork_ok h
    obtain ⟨-, rfl⟩ := newThread_ok hnew
    exact numbered_allocate hnum (virtualMemoryConstructor_numbered hspace (hnum b))

/-- The TLB agrees with the page table of the thread that runs. -/
def OwnTLB (u : UserThreads) : Prop := ∀ b ∈ u.space, Agrees (u.sys.switchTo b)

/-- The thread that is switched to runs in the address space it had. -/
theorem left_space {u : UserThreads} {old next : Thread} {t : ℕ} (hold : u.current = some old)
    (hnext : (u.left old t).current = some next) :
    (u.threads t).bind Thread.space = next.space := by
  by_cases ht : t = u.currentThread
  · rw [ht, left_current_self] at hnext
    cases hnext
    have hold : u.threads t = some old := by rw [ht]; exact hold
    rw [hold, saved_space]
    rfl
  · rw [left_current_of_ne ht] at hnext
    rw [hnext]
    rfl

/-- A thread that is switched to keeps its address space. -/
theorem Switched.space {u u' : UserThreads} {t : ℕ} {old next : Thread}
    (h : Switched u t old next u') (hnext : (u.left old t).current = some next) :
    u'.space = next.space := by
  cases h with
  | kernel hstarted hspace => rw [UserThreads.space, hnext]; rfl
  | user hstarted hspace hsaved =>
    show (u.left old t).current.bind Thread.space = next.space
    rw [hnext]
    rfl
  | first hstarted => rw [UserThreads.space, setThread_current _ t _ rfl]; rfl

theorem space_eq_of_current {u u' : UserThreads} {thread : Thread}
    (hcur : u.current = some thread) (hcur' : u'.current = some thread) : u'.space = u.space := by
  rw [UserThreads.space, UserThreads.space, hcur, hcur']

/-- The step lemma: away from the switches that leave the old translations in the TLB, it holds
those of the running thread. -/
theorem step_ownTLB {u u' : UserThreads} {e : Event} (hnum : Numbered u.sys)
    (hentered : Entered u) (halloc : Allocated u) (hown : OwnTLB u) (hcond : Undisturbed u e)
    (h : u.step e = .ok u') : OwnTLB u' := by
  obtain ⟨thread, hcur, -⟩ := hentered
  cases e with
  | run nextThread =>
    obtain ⟨old, next, hold, hnext, hswitched⟩ := run_ok h
    intro b hb
    -- nothing flushes the TLB here; that it fits is the condition
    rw [hswitched.space hnext, ← left_space hold hnext] at hb
    rw [hswitched.sys]
    exact (hcond b hb).agrees
  | access a =>
    obtain ⟨b, sys, hspace, hstep, rfl⟩ := access_step_ok h
    intro b' hb'
    have hb' : u.space = some b' := hb'
    rw [hspace] at hb'
    cases hb'
    have hagree := step_agrees hnum (hown b hspace) hstep
    have hcurrent : sys.currentSpace = b := step_currentSpace hnum hstep
    rw [← hcurrent]
    exact hagree
  | writeRegister num value =>
    cases h
    exact hown
  | startProcess executable =>
    obtain ⟨thread', space, -, -, rfl⟩ := startProcess_ok h
    intro b _ i v hvalid hv
    -- the new address space is empty, and so is the TLB by the condition
    have hneg : (u.sys.tlb i).virtualPage < 0 := hcond i hvalid
    have hv : (u.sys.tlb i).virtualPage = v := hv
    omega
  | exec t =>
    have hspace := space_eq_of_current hcur (newThread_current hcur h)
    obtain ⟨-, rfl⟩ := newThread_ok h
    intro b hb
    rw [hspace] at hb
    exact hown b hb
  | fork t =>
    obtain ⟨b, space, -, -, hnew⟩ := fork_ok h
    have hspace := space_eq_of_current (u := u) hcur (newThread_current (u := u.allocate space)
      hcur hnew)
    obtain ⟨-, rfl⟩ := newThread_ok hnew
    intro b hb
    rw [hspace] at hb
    -- the copy goes to a new address space
    have hlt : b < u.numSpaces := by
      rw [UserThreads.space, hcur] at hb
      exact halloc u.currentThread thread hcur b hb
    have htable : (u.allocate space).sys.spaces b = u.sys.spaces b :=
      Function.update_of_ne hlt.ne _ _
    intro i v hvalid hv
    show (((u.allocate space).sys.spaces b).pageTable v).virtualPage = v ∧
      (((u.allocate space).sys.spaces b).pageTable v).physicalPage = (u.sys.tlb i).physicalPage
    rw [htable]
    exact hown b hb i v hvalid hv

/-! ## Every schedule -/

/-- What every state of a run satisfies. -/
structure Sound (u : UserThreads) : Prop where
  numbered : Numbered u.sys
  entered : Entered u
  allocated : Allocated u
  ownTLB : OwnTLB u

/-- All parts of the invariant are kept together. -/
theorem Sound.step {u u' : UserThreads} {e : Event} (hsound : Sound u) (hcond : Undisturbed u e)
    (h : u.step e = .ok u') : Sound u' where
  numbered := step_sys_numbered hsound.numbered h
  entered := step_entered hsound.entered h
  allocated := step_allocated hsound.allocated h
  ownTLB := step_ownTLB hsound.numbered hsound.entered hsound.allocated hsound.ownTLB hcond h

theorem Booted.sound {u : UserThreads} (hboot : Booted u) : Sound u := by
  have hmain : ∀ {t thread}, u.threads t = some thread →
      t = u.currentThread ∧ thread = ⟨none, none, true⟩ := by
    intro t thread ht
    rw [hboot.threads] at ht
    by_cases hmain : t = u.currentThread
    · rw [hmain, Function.update_self] at ht
      exact ⟨hmain, (Option.some.inj ht).symm⟩
    · rw [Function.update_of_ne hmain] at ht
      cases ht
  have hcur : u.current = some ⟨none, none, true⟩ := by
    rw [current, hboot.threads, Function.update_self]
  refine ⟨fun b p => .inl ?_, ⟨_, hcur, rfl⟩, fun t thread ht b hb => ?_, fun b hb => ?_⟩
  · rw [hboot.spaces]
    rfl
  · rw [(hmain ht).2] at hb
    cases hb
  · rw [UserThreads.space, hcur] at hb
    cases hb

/-- In every schedule in which a thread that is switched to finds a TLB for its address space,
and a thread that gets a new address space finds an empty one, the running thread finds its
own translations and gets its own registers back. -/
theorem run_private {u u' : UserThreads} {es : List Event} (hboot : Booted u)
    (hcond : Along step Undisturbed u es) (hrun : PartialRun.run step u es = .ok u') :
    Private u' := by
  have hsound : Sound u' :=
    Along.invariant (fun u e u' hsound hcond hst => hsound.step hcond hst) hboot.sound hcond hrun
  refine ⟨fun b hb v i hlookup => ?_, fun huser es u'' hfirst hothers hrun' => ?_⟩
  · obtain ⟨hvalid, hpage⟩ := lookup_some hlookup
    exact hsound.ownTLB b hb i v hvalid hpage
  · exact registers_restored hsound.entered huser hfirst hothers hrun'

/-! ## Two schedules -/

/-- A kernel that has just been booted. -/
def freshKernel : UserThreads where
  sys := boot .leastUsed fun _ => ⟨0, fun _ => 0⟩
  registers := fun _ => 0
  threads := Function.update (fun _ => none) 0 (some ⟨none, none, true⟩)
  currentThread := 0
  numSpaces := 0

theorem freshKernel_booted : Booted freshKernel :=
  ⟨rfl, fun _ => rfl, rfl, rfl, fun _ _ => rfl, rfl, rfl⟩

/-- A process reads a page, forks a thread and is switched out for it. -/
def forkingSchedule : List Event :=
  [.startProcess (.program [7] (80 * 128)), .access (.read 0 0), .fork 1, .run 1]

/-- The forked thread shares the page, so the entry it finds in the TLB is its own. -/
theorem forkingSchedule_private : ∃ u, PartialRun.run step freshKernel forkingSchedule = .ok u ∧
    u.space = some 1 ∧ lookup u.sys.tlb 0 = some 0 ∧ Private u := by
  obtain ⟨u, hrun, hspace, hhit⟩ : ∃ u,
      PartialRun.run step freshKernel forkingSchedule = .ok u ∧
      u.space = some 1 ∧ lookup u.sys.tlb 0 = some 0 := by decide +kernel
  exact ⟨u, hrun, hspace, hhit, run_private freshKernel_booted (by decide +kernel) hrun⟩

/-- A process reads a page and executes another one, which is switched to. -/
def executingSchedule : List Event :=
  [.startProcess (.program [7] (80 * 128)), .access (.read 0 0), .exec 1, .run 1,
    .startProcess (.program [8] (80 * 128))]

/-- The new process has no page in memory, and finds the first one's page `0` in the TLB. -/
theorem run_not_private : ¬ ∀ (u u' : UserThreads) (es : List Event), Booted u →
    PartialRun.run step u es = .ok u' → Private u' := by
  intro h
  obtain ⟨u, hrun, hspace, hhit, habsent⟩ : ∃ u,
      PartialRun.run step freshKernel executingSchedule = .ok u ∧
      u.space = some 1 ∧ lookup u.sys.tlb 0 = some 0 ∧
      ((u.sys.spaces 1).pageTable 0).virtualPage = -1 := by decide +kernel
  have hprivate := h freshKernel u executingSchedule freshKernel_booted hrun
  obtain ⟨hpage, -⟩ := hprivate.tlb 1 hspace 0 0 hhit
  rw [habsent] at hpage
  cases hpage

end UserThreads
end NachOS
