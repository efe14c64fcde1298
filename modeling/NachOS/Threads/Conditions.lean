import NachOS.Threads.Scheduling

/-!
# Condition variables

`Wait` switches interrupts off and then calls `Release`, which switches them off again and
restores what it found: they stay off until the thread sleeps. So a thread that has released
the lock in `Wait` and is not in the list yet is still the one that runs, and nobody has the
lock. After that only `Signal` and `Broadcast` take it out of the list.
-/

namespace NachOS
namespace Kernel

open PartialRun Placement

/-! ## From the call of `Wait` to the list -/

/-- What is left of `Wait` when the thread is about to enter the list. -/
def waitTail (c l : ℕ) : List Instr :=
  [.appendHilos c, .sleep] ++ lockAcquire l ++ [.restoreLevel]

/-- Where a thread is in `Wait` before it is in the list, with the interrupt level and the
saved levels there. -/
inductive Entering (c l : ℕ) : IntStatus → List IntStatus → List Instr → Prop where
  | called (level : IntStatus) (olds : List IntStatus) :
    Entering c l level olds (conditionWait c l)
  | saved (olds : List IntStatus) : Entering c l .intOff olds (lockRelease l ++ waitTail c l)
  | releasing (olds : List IntStatus) : Entering c l .intOff (.intOff :: olds)
      (.v (.lock l) :: .restoreLevel :: .clearOwner l :: waitTail c l)
  | released (olds : List IntStatus) : Entering c l .intOff (.intOff :: olds)
      (.restoreLevel :: .clearOwner l :: waitTail c l)
  | restored (olds : List IntStatus) : Entering c l .intOff olds (.clearOwner l :: waitTail c l)
  | cleared (olds : List IntStatus) : Entering c l .intOff olds (waitTail c l)

/-- Past the `V` of the lock in `Wait`, and not yet in the list. -/
def Leaving (c l : ℕ) (code : List Instr) : Prop :=
  ∃ done, code = done ++ waitTail c l ∧ .v (.lock l) ∉ done

/-- Only the running thread is on its way into a list. -/
def Waits (k : Kernel) : Prop :=
  ∀ t c, .appendHilos c ∈ k.code t →
    t = k.currentThread ∧ ∃ l, Entering c l k.level (k.oldLevels t) (k.code t)

/-- The code that a thread in `Wait` has left names its condition and its lock. -/
theorem waitTail_injective {c l c' l' : ℕ} (h : waitTail c l = waitTail c' l') :
    c = c' ∧ l = l' := by
  simpa [waitTail, lockAcquire, semaphoreP] using h

theorem Leaving.mem {c l : ℕ} {code : List Instr} (h : Leaving c l code) :
    .appendHilos c ∈ code := by
  obtain ⟨done, rfl, -⟩ := h
  simp [waitTail]

/-- The three points of `Wait` past the `V`. -/
theorem Leaving.cases {c l c' l' : ℕ} {level : IntStatus} {olds : List IntStatus}
    {code : List Instr} (h : Leaving c l code) (hentering : Entering c' l' level olds code) :
    l' = l ∧ (code = .restoreLevel :: .clearOwner l :: waitTail c l ∨
      code = .clearOwner l :: waitTail c l ∨ code = waitTail c l) := by
  obtain ⟨done, rfl, hdone⟩ := h
  have hsplit : ∀ before, before ++ waitTail c' l' = done ++ waitTail c l →
      done = before ∧ c = c' ∧ l = l' := by
    intro before heq
    obtain ⟨hbefore, htail⟩ := List.append_inj' heq rfl
    exact ⟨hbefore.symm, waitTail_injective htail.symm⟩
  generalize hcode : done ++ waitTail c l = code at hentering
  cases hentering with
  | called level olds =>
    obtain ⟨rfl, rfl, rfl⟩ := hsplit ([.saveLevel] ++ lockRelease l') hcode.symm
    exact absurd (by simp [lockRelease, semaphoreV]) hdone
  | saved olds =>
    obtain ⟨rfl, rfl, rfl⟩ := hsplit (lockRelease l') hcode.symm
    exact absurd (by simp [lockRelease, semaphoreV]) hdone
  | releasing olds =>
    obtain ⟨rfl, rfl, rfl⟩ := hsplit [.v (.lock l'), .restoreLevel, .clearOwner l'] hcode.symm
    exact absurd (by simp) hdone
  | released olds =>
    obtain ⟨rfl, rfl, rfl⟩ := hsplit [.restoreLevel, .clearOwner l'] hcode.symm
    exact ⟨rfl, .inl rfl⟩
  | restored olds =>
    obtain ⟨rfl, rfl, rfl⟩ := hsplit [.clearOwner l'] hcode.symm
    exact ⟨rfl, .inr (.inl rfl)⟩
  | cleared olds =>
    obtain ⟨rfl, rfl, rfl⟩ := hsplit [] hcode.symm
    exact ⟨rfl, .inr (.inr rfl)⟩

/-- After `SetLevel` interrupts are as it says. -/
@[simp] theorem setLevel_level (k : Kernel) (now : IntStatus) : (k.setLevel now).level = now := by
  unfold setLevel
  dsimp only
  split <;> rfl

@[simp] theorem setLevel_oldLevels (k : Kernel) (now : IntStatus) :
    (k.setLevel now).oldLevels = k.oldLevels := by
  unfold setLevel
  dsimp only
  split <;> rfl

@[simp] theorem leave_level (k : Kernel) (s : SemId) : (k.leave s).level = k.level := by
  cases s <;> rfl

@[simp] theorem leave_oldLevels (k : Kernel) (s : SemId) :
    (k.leave s).oldLevels = k.oldLevels := by
  cases s <;> rfl

theorem increment_level {k k' : Kernel} {s : SemId} (h : k.increment s = .ok k') :
    k'.level = k.level ∧ k'.oldLevels = k.oldLevels := by
  unfold increment at h
  dsimp only at h
  split at h
  · cases h
  · split at h <;>
    · cases h
      exact ⟨rfl, rfl⟩

/-- One instruction of `Wait` before the thread is in the list. Interrupts stay off, so that
the thread goes on with the next one. -/
theorem Entering.exec {c l : ℕ} {k k' : Kernel} {instr : Instr} {rest : List Instr}
    (hentering : Entering c l k.level (k.oldLevels k.currentThread) (instr :: rest))
    (hmem : .appendHilos c ∈ rest) (h : (k.withRest rest).exec instr = .ok k') :
    k'.currentThread = k.currentThread ∧ k'.code k.currentThread = rest ∧
      Entering c l k'.level (k'.oldLevels k.currentThread) rest := by
  -- one case for each place of `Wait`: the level and the saved levels there decide the next one
  generalize hlevel : k.level = level at hentering
  generalize holds : k.oldLevels k.currentThread = olds at hentering
  generalize hcode : instr :: rest = code at hentering
  cases hentering with
  | called level olds =>
    obtain ⟨rfl, rfl⟩ := List.cons.inj hcode
    cases h
    refine ⟨setLevel_currentThread _ _, withRest_code_self k _, ?_⟩
    rw [setLevel_level]
    exact .saved _
  | saved olds =>
    obtain ⟨rfl, rfl⟩ := List.cons.inj hcode
    cases h
    refine ⟨setLevel_currentThread _ _, withRest_code_self k _, ?_⟩
    rw [setLevel_level, setLevel_oldLevels]
    show Entering c l _ (Function.update k.oldLevels k.currentThread
      (k.level :: k.oldLevels k.currentThread) k.currentThread) _
    rw [Function.update_self, hlevel]
    exact .releasing _
  | releasing olds =>
    obtain ⟨rfl, rfl⟩ := List.cons.inj hcode
    obtain ⟨k₁, hinc, h⟩ := bind_ok_iff.mp h
    cases h
    obtain ⟨-, hcode₁, hcur, -⟩ := increment_frame hinc
    obtain ⟨hlevel₁, holds₁⟩ := increment_level hinc
    have hlevel₁ : k₁.level = .intOff := hlevel₁.trans hlevel
    have holds₁ : k₁.oldLevels = k.oldLevels := holds₁
    refine ⟨(leave_currentThread k₁ _).trans hcur, ?_, ?_⟩
    · rw [leave_code, hcode₁]
      exact withRest_code_self k _
    · rw [leave_level, leave_oldLevels, hlevel₁, holds₁, holds]
      exact .released olds
  | released olds =>
    -- the level that `Wait` saved is the one on top
    obtain ⟨rfl, rfl⟩ := List.cons.inj hcode
    rw [Kernel.exec] at h
    split at h
    · cases h
    · rename_i old olds' heq
      have heq : k.oldLevels k.currentThread = old :: olds' := heq
      rw [holds] at heq
      cases heq
      cases h
      refine ⟨setLevel_currentThread _ _, withRest_code_self k _, ?_⟩
      rw [setLevel_level]
      exact .restored _
  | restored olds =>
    obtain ⟨rfl, rfl⟩ := List.cons.inj hcode
    cases h
    refine ⟨rfl, withRest_code_self k _, ?_⟩
    show Entering c l k.level (k.oldLevels k.currentThread) _
    rw [hlevel]
    exact .cleared _
  | cleared olds =>
    -- this instruction is the `Append`, and there is none after it
    obtain ⟨rfl, rfl⟩ := List.cons.inj hcode
    simp [lockAcquire, semaphoreP] at hmem

/-- Only `Condition::Wait` queues on a condition. -/
theorem Call.appendHilos_mem_routine {call : Call} {c : ℕ} (h : .appendHilos c ∈ call.routine) :
    ∃ l, call = .wait c l := by
  cases call with
  | wait c' l =>
    simp [Call.routine, conditionWait, lockAcquire, lockRelease, semaphoreP, semaphoreV] at h
    exact ⟨l, by rw [h]⟩
  | _ =>
    simp [Call.routine, semaphoreP, semaphoreV, semaphoreDestroy, lockAcquire, lockRelease,
      conditionSignal, conditionBroadcast, threadYield, threadFork, threadFinish] at h

/-- The instructions that a thread executes on its way into the list. -/
theorem Entering.head {c l : ℕ} {level : IntStatus} {olds : List IntStatus} {instr : Instr}
    {rest : List Instr} (h : Entering c l level olds (instr :: rest)) :
    instr = .saveLevel ∨ instr = .v (.lock l) ∨ instr = .restoreLevel ∨ instr = .clearOwner l ∨
      instr = .appendHilos c := by
  generalize hcode : instr :: rest = code at h
  cases h <;>
    · obtain ⟨rfl, -⟩ := List.cons.inj hcode
      simp

/-- At the last of them the tail of `Wait` is left. -/
theorem Entering.eq_waitTail {c l c' : ℕ} {level : IntStatus} {olds : List IntStatus}
    {rest : List Instr} (h : Entering c l level olds (.appendHilos c' :: rest)) :
    .appendHilos c' :: rest = waitTail c l := by
  generalize hcode : .appendHilos c' :: rest = code at h
  cases h with
  | cleared olds => rfl
  | _ => cases (List.cons.inj hcode).1

/-- A thread that is about to sleep, or in `OneTick`, is not on its way into a list. -/
theorem Waits.not_mem {k : Kernel} {instr : Instr} {rest : List Instr} (hwaits : Waits k)
    (hcode : k.code k.currentThread = instr :: rest) (hinstr : instr = .oneTick ∨ instr = .sleep)
    (t c : ℕ) : .appendHilos c ∉ k.code t := by
  intro hmem
  obtain ⟨rfl, l, hentering⟩ := hwaits t c hmem
  rw [hcode] at hentering
  have hhead := hentering.head
  rcases hinstr with rfl | rfl <;> simp at hhead

/-- A tick comes with interrupts on, so no thread is on its way into a list. -/
theorem tick_not_entering {k k' : Kernel} {handlers : List Handler} (hwaits : Waits k)
    (h : k.step (.tick handlers) = .ok k') (t c : ℕ) : .appendHilos c ∉ k'.code t := by
  obtain ⟨rest, hcode, h⟩ := tick_ok h
  have hnot := hwaits.not_mem hcode (.inl rfl)
  obtain ⟨k₁, pushed, -, hpushed, rfl⟩ := tick_frame h
  intro hmem
  have hmem : .appendHilos c ∈ Function.update k.code k.currentThread (pushed ++ rest) t := hmem
  by_cases ht : t = k.currentThread
  · rw [ht, Function.update_self] at hmem
    rcases List.mem_append.mp hmem with hmem | hmem
    · rcases hpushed with rfl | rfl <;> simp [threadYield] at hmem
    · exact hnot k.currentThread c (by rw [hcode]; exact List.mem_cons_of_mem _ hmem)
  · rw [Function.update_of_ne ht] at hmem
    exact hnot t c hmem

/-- Nor is one when the machine is idle. -/
theorem idle_not_entering {k k' : Kernel} {handlers : List Handler} (hwaits : Waits k)
    (h : k.step (.idle handlers) = .ok k') (t c : ℕ) : .appendHilos c ∉ k'.code t := by
  obtain ⟨rest, hcode⟩ := idle_ok_code h
  obtain ⟨k₁, hhandle, h⟩ := bind_ok_iff.mp (idle_ok h)
  obtain ⟨-, hcode₁, -⟩ := handle_frame hhandle
  rw [← pure_ok_iff.mp h]
  show .appendHilos c ∉ k₁.code t
  rw [hcode₁]
  exact hwaits.not_mem hcode (.inr rfl) t c

/-- The step lemma: a thread on its way into a list is the running one, at one of the places of
`Wait`. -/
theorem step_waits {k k' : Kernel} {e : Event} (hplaced : Placed k) (hwaits : Waits k)
    (h : k.step e = .ok k') : Waits k' := by
  intro t c hmem
  cases e with
  | call call =>
    have hcalled := call_called hplaced.current h
    by_cases ht : t = k.currentThread
    · rw [ht, hcalled.code] at hmem ⊢
      obtain ⟨l, rfl⟩ := Call.appendHilos_mem_routine hmem
      exact ⟨hcalled.currentThread.symm, l, .called _ _⟩
    · rcases hcalled.others t ht with hcode | ⟨-, hcode⟩
      · rw [hcode] at hmem
        exact absurd (hwaits t c hmem).1 ht
      · rw [hcode] at hmem
        simp [threadRoot] at hmem
  | exec =>
    obtain ⟨instr, rest, hcode, h⟩ := exec_ok h
    obtain ⟨-, pushed, hcode', hre⟩ := exec_withRest_rearranged h
    by_cases ht : t = k.currentThread
    · rw [ht, hcode', Function.update_self] at hmem
      have hmem : .appendHilos c ∈ rest := by
        rcases List.mem_append.mp hmem with hmem | hmem
        · exact absurd hmem (hre.pushed_plain.1 c)
        · exact hmem
      obtain ⟨-, l, hentering⟩ := hwaits k.currentThread c
        (by rw [hcode]; exact List.mem_cons_of_mem _ hmem)
      rw [hcode] at hentering
      obtain ⟨hcur, hself, hentering⟩ := hentering.exec hmem h
      rw [ht, hself]
      exact ⟨hcur.symm, l, hentering⟩
    · rw [hcode', Function.update_of_ne ht] at hmem
      exact absurd (hwaits t c hmem).1 ht
  | tick handlers => exact absurd hmem (tick_not_entering hwaits h t c)
  | idle handlers => exact absurd hmem (idle_not_entering hwaits h t c)

/-! ## The release and the list -/

/-- With one more instruction in front, other than the `V` of the lock, the thread is still
leaving. -/
theorem Leaving.cons {c l : ℕ} {instr : Instr} {rest : List Instr} (h : Leaving c l rest)
    (hinstr : instr ≠ .v (.lock l)) : Leaving c l (instr :: rest) := by
  obtain ⟨done, rfl, hdone⟩ := h
  refine ⟨instr :: done, rfl, fun hmem => ?_⟩
  rcases List.mem_cons.mp hmem with heq | hmem
  · exact hinstr heq.symm
  · exact hdone hmem

/-- A thread that is at the `V` of the lock is inside. -/
theorem Exclusive.inside_of_v {l : ℕ} {k : Kernel} {rest : List Instr} (hexcl : Exclusive l k)
    (hcode : k.code k.currentThread = .v (.lock l) :: rest) :
    k.currentThread ∈ (k.lock l).inside := by
  have hsafe := hexcl.safe k.currentThread
  rw [hcode] at hsafe
  obtain ⟨inside', hafter, -⟩ := hsafe
  rw [after, if_pos rfl] at hafter
  by_contra hnot
  simp [hnot] at hafter

/-- After the `V` of the lock nobody is inside. -/
theorem exec_v_inside {l : ℕ} {k k' : Kernel} {rest : List Instr} (hexcl : Exclusive l k)
    (hcode : k.code k.currentThread = .v (.lock l) :: rest)
    (h : (k.withRest rest).exec (.v (.lock l)) = .ok k') : (k'.lock l).inside = [] := by
  have hinside := hexcl.inside_of_v hcode
  obtain ⟨k₁, hinc, h⟩ := bind_ok_iff.mp h
  cases h
  obtain ⟨hlock, -, hcur, -⟩ := increment_frame hinc
  show (Function.update k₁.lock l _ l).inside = []
  rw [Function.update_self, hlock, hcur]
  show (k.lock l).inside.filter (· ≠ k.currentThread) = []
  rw [hexcl.inside_eq hinside]
  simp

/-- As long as a thread that has released the lock in `Wait` is not in the list, nobody is
inside the lock. -/
def FreeWhileLeaving (l : ℕ) (k : Kernel) : Prop :=
  ∀ t c, Leaving c l (k.code t) → (k.lock l).inside = []

/-- As long as a thread leaves, nobody gets into the lock; the cases are the instructions. -/
theorem exec_freeWhileLeaving {l : ℕ} {k k' : Kernel} {instr : Instr} {rest : List Instr}
    (hwaits : Waits k) (hexcl : Exclusive l k) (hfree : FreeWhileLeaving l k)
    (hcode : k.code k.currentThread = instr :: rest)
    (h : (k.withRest rest).exec instr = .ok k') : FreeWhileLeaving l k' := by
  intro t c hleaving
  obtain ⟨-, pushed, hcode', hre⟩ := exec_withRest_rearranged h
  by_cases ht : t = k.currentThread
  · have hmem := hleaving.mem
    rw [ht, hcode', Function.update_self] at hmem
    have hmem : .appendHilos c ∈ rest := by
      rcases List.mem_append.mp hmem with hmem | hmem
      · exact absurd hmem (hre.pushed_plain.1 c)
      · exact hmem
    obtain ⟨-, l', hentering⟩ := hwaits k.currentThread c
      (by rw [hcode]; exact List.mem_cons_of_mem _ hmem)
    rw [hcode] at hentering
    obtain ⟨-, hself, -⟩ := hentering.exec hmem h
    rw [ht, hself] at hleaving
    by_cases hv : instr = .v (.lock l)
    · subst hv
      exact exec_v_inside hexcl hcode h
    · -- the thread has released the lock before, and works on it no more
      have hinside : (k.lock l).inside = [] := by
        refine hfree k.currentThread c ?_
        rw [hcode]
        exact hleaving.cons hv
      have hsame : (k'.lock l).inside = (k.lock l).inside := by
        by_cases hclear : instr = .clearOwner l
        · subst hclear
          cases h
          rw [setLock_lock_self]
          rfl
        · have hquiet : ¬ Touches l instr := by
            rcases hentering.head with rfl | rfl | rfl | rfl | rfl
            · exact id
            · exact fun heq => hv (by rw [heq])
            · exact id
            · exact fun heq => hclear (by rw [heq])
            · exact id
          rw [(exec_quiet hquiet h).lock]
          rfl
      rw [hsame, hinside]
  · rw [hcode', Function.update_of_ne ht] at hleaving
    exact absurd (hwaits t c hleaving.mem).1 ht

/-- The same for the events of the kernel. -/
theorem step_freeWhileLeaving {l : ℕ} {k k' : Kernel} {e : Event} (hplaced : Placed k)
    (hwaits : Waits k) (hexcl : Exclusive l k) (hfree : FreeWhileLeaving l k)
    (h : k.step e = .ok k') : FreeWhileLeaving l k' := by
  cases e with
  | call call =>
    intro t c hleaving
    have hcalled := call_called hplaced.current h
    by_cases ht : t = k.currentThread
    · rw [ht, hcalled.code] at hleaving
      obtain ⟨l', rfl⟩ := Call.appendHilos_mem_routine hleaving.mem
      obtain ⟨rfl, hshape⟩ := hleaving.cases (.called .intOn [])
      simp [Call.routine, conditionWait, waitTail, lockRelease, semaphoreV] at hshape
    · have hmem := hleaving.mem
      rcases hcalled.others t ht with hcode | ⟨-, hcode⟩
      · rw [hcode] at hmem
        exact absurd (hwaits t c hmem).1 ht
      · rw [hcode] at hmem
        simp [threadRoot] at hmem
  | exec =>
    obtain ⟨instr, rest, hcode, h⟩ := exec_ok h
    exact exec_freeWhileLeaving hwaits hexcl hfree hcode h
  | tick handlers =>
    exact fun t c hleaving => absurd hleaving.mem (tick_not_entering hwaits h t c)
  | idle handlers =>
    exact fun t c hleaving => absurd hleaving.mem (idle_not_entering hwaits h t c)

/-! ## Who leaves the list -/

/-- The thread that enters the list of `c` in the step. -/
def enlists (c : ℕ) (k : Kernel) (e : Event) : List ℕ :=
  if e = .exec ∧ (k.code k.currentThread).head? = some (.appendHilos c)
  then [k.currentThread] else []

/-- `Signal` takes the first thread out of the list of `c` in the step, if there is one. -/
def Signals (c : ℕ) (k : Kernel) (e : Event) : Prop :=
  e = .exec ∧ (k.code k.currentThread).head? = some (.signal c)

/-- `Broadcast` empties the list of `c` in the step. -/
def Broadcasts (c : ℕ) (k : Kernel) (e : Event) : Prop :=
  e = .exec ∧ (k.code k.currentThread).head? = some (.broadcast c)

instance (c : ℕ) (k : Kernel) (e : Event) : Decidable (Signals c k e) :=
  inferInstanceAs (Decidable (_ ∧ _))

instance (c : ℕ) (k : Kernel) (e : Event) : Decidable (Broadcasts c k e) :=
  inferInstanceAs (Decidable (_ ∧ _))

/-- The threads that `Signal` and `Broadcast` are to take out of the list of `c` in the step. -/
def wakes (c : ℕ) (k : Kernel) (e : Event) : List ℕ :=
  if Signals c k e then (k.hilos c).take 1
  else if Broadcasts c k e then k.hilos c
  else []

theorem takeOrSleep_hilos (k : Kernel) (s : SemId) : (k.takeOrSleep s).hilos = k.hilos := by
  unfold takeOrSleep
  dsimp only
  split
  · rfl
  · exact enter_hilos _ s

theorem increment_hilos {k k' : Kernel} {s : SemId} (h : k.increment s = .ok k') :
    k'.hilos = k.hilos := by
  unfold increment at h
  dsimp only at h
  split at h
  · cases h
  · split at h <;>
    · cases h
      rfl

theorem handle_hilos {handlers : List Handler} {k k' : Kernel}
    (h : k.handle handlers = .ok k') : k'.hilos = k.hilos := by
  induction handlers generalizing k with
  | nil =>
    cases h
    rfl
  | cons handler handlers ih =>
    cases handler with
    | v n =>
      obtain ⟨k₁, hinc, h⟩ := bind_ok_iff.mp h
      exact (ih h).trans (increment_hilos hinc)
    | timer => exact ih (k := { k with yieldOnReturn := true }) h

/-- What an instruction does to the list of a condition variable. -/
theorem exec_hilos {k k' : Kernel} {instr : Instr} (h : k.exec instr = .ok k') (c : ℕ) :
    k.hilos c ++ (if instr = .appendHilos c then [k.currentThread] else []) =
      (if instr = .signal c then (k.hilos c).take 1
        else if instr = .broadcast c then k.hilos c else []) ++ k'.hilos c := by
  -- only `Wait`, `Signal` and `Broadcast` have an instruction that changes a condition's list
  cases instr with
  | setLevel now =>
    cases h
    simp
  | saveLevel =>
    cases h
    simp [setOldLevels]
  | restoreLevel =>
    rw [exec] at h
    split at h
    · cases h
    · cases h
      simp [setOldLevels]
  | oneTick => cases h
  | p s =>
    cases h
    simp [takeOrSleep_hilos]
  | pRetry s =>
    cases h
    simp [takeOrSleep_hilos, resumed, setSemaphore]
  | v s =>
    obtain ⟨k₁, hinc, h⟩ := bind_ok_iff.mp h
    cases h
    simp [increment_hilos hinc]
  | appendHilos c' =>
    cases h
    by_cases hc : c = c'
    · simp [hc]
    · simp [hc, Ne.symm hc]
  | signal c' =>
    -- `Signal` takes the thread that has waited longest
    rw [exec] at h
    split at h
    · rename_i hhilos
      cases h
      by_cases hc : c' = c
      · simp [← hc, hhilos]
      · simp [hc]
    · rename_i t ts hhilos
      cases h
      by_cases hc : c' = c
      · simp [← hc, hhilos, Kernel.readyToRun]
      · simp [hc, Ne.symm hc, Kernel.readyToRun]
  | broadcast c' =>
    -- `Broadcast` takes all of them
    cases h
    by_cases hc : c' = c
    · simp [hc]
    · simp [hc, Ne.symm hc]
  | yieldCPU =>
    rw [exec] at h
    split at h
    · cases h
      simp
    · cases h
      simp [Kernel.readyToRun]
  | sleep =>
    rw [exec] at h
    split at h
    · cases h
    · split at h
      · cases h
      · cases h
        simp
  | _ =>
    cases h
    simp [setLock, setSemaphore, Kernel.readyToRun]

/-- Threads enter the list of a condition variable at its end, and `Signal` and `Broadcast`
take them from its front. -/
theorem step_hilos {k k' : Kernel} {e : Event} (h : k.step e = .ok k') (c : ℕ) :
    k.hilos c ++ enlists c k e = wakes c k e ++ k'.hilos c := by
  cases e with
  | call call =>
    obtain ⟨-, k₁, rfl, hk₁⟩ := call_ok h
    have hhilos : k₁.hilos = k.hilos := by
      rcases hk₁ with ⟨rfl, -⟩ | ⟨t, -, hnew⟩
      · rfl
      · obtain ⟨-, rfl⟩ := newThread_ok hnew
        rfl
    simp [enlists, wakes, Signals, Broadcasts, push, hhilos]
  | exec =>
    obtain ⟨instr, rest, hcode, h⟩ := exec_ok h
    simp only [enlists, wakes, Signals, Broadcasts, hcode, List.head?_cons, Option.some.injEq,
      true_and]
    exact exec_hilos h c
  | tick handlers =>
    obtain ⟨rest, hcode, h⟩ := tick_ok h
    obtain ⟨k₁, pushed, hhandle, -, rfl⟩ := tick_frame h
    have hhilos := handle_hilos hhandle
    have hhilos : k₁.hilos = k.hilos := hhilos
    simp [enlists, wakes, Signals, Broadcasts, hhilos]
  | idle handlers =>
    obtain ⟨k₁, hhandle, h⟩ := bind_ok_iff.mp (idle_ok h)
    rw [← pure_ok_iff.mp h]
    simp [enlists, wakes, Signals, Broadcasts, handle_hilos hhandle]

/-- `Signal` moves the first thread of the list to the ready list, `Broadcast` moves all of
them, and nothing else takes a thread out of the list. -/
theorem step_wakes {k k' : Kernel} {e : Event} (h : k.step e = .ok k') (c : ℕ) :
    (∀ t ts, Signals c k e → k.hilos c = t :: ts →
      k'.hilos c = ts ∧ k'.readyList = k.readyList ++ [t]) ∧
    (Broadcasts c k e → k'.hilos c = [] ∧ k'.readyList = k.readyList ++ k.hilos c) ∧
    (¬ Signals c k e → ¬ Broadcasts c k e → k.hilos c <+: k'.hilos c) := by
  have hhilos := step_hilos h c
  have hready := step_readyList h
  refine ⟨?_, ?_, ?_⟩
  · rintro t ts ⟨rfl, hhead⟩ hlist
    obtain ⟨rest, hcode⟩ := List.head?_eq_some_iff.mp hhead
    simp only [enlists, wakes, Signals, hcode, hlist, List.head?_cons, Option.some.injEq,
      reduceCtorEq, and_false, and_self, if_true, if_false, List.append_nil, List.take_succ_cons,
      List.take_zero, List.singleton_append, List.cons.injEq, true_and] at hhilos
    simp only [madeReady, dispatched, Dispatches, hcode, instrMakesReady, hlist, List.head?_cons,
      Option.some.injEq, reduceCtorEq, or_self, and_false, if_false, List.nil_append,
      Option.toList_some] at hready
    exact ⟨hhilos.symm, hready.symm⟩
  · rintro ⟨rfl, hhead⟩
    obtain ⟨rest, hcode⟩ := List.head?_eq_some_iff.mp hhead
    simp only [enlists, wakes, Signals, Broadcasts, hcode, List.head?_cons, Option.some.injEq,
      reduceCtorEq, and_false, and_self, if_true, if_false,
      List.self_eq_append_right, List.append_nil] at hhilos
    simp only [madeReady, dispatched, Dispatches, hcode, instrMakesReady, List.head?_cons,
      Option.some.injEq, reduceCtorEq, or_self, and_false, if_false, List.nil_append] at hready
    exact ⟨hhilos, hready.symm⟩
  · intro hsignal hbroadcast
    rw [wakes, if_neg hsignal, if_neg hbroadcast, List.nil_append] at hhilos
    exact ⟨_, hhilos⟩

/-! ## Returning from `Wait` -/

/-- Whether a thread holds the lock after an instruction, given whether it does before. -/
def holdsAfter (l : ℕ) (holds : Bool) : Instr → Bool
  | .v s => if s = .lock l then false else holds
  | .setOwner l' => if l' = l then true else holds
  | _ => holds

/-- An instruction that does not touch the lock does not change who holds it. -/
theorem holdsAfter_of_not_touches {l : ℕ} {instr : Instr} (h : ¬ Touches l instr)
    (holds : Bool) : holdsAfter l holds instr = holds := by
  cases instr with
  | v s => exact if_neg h
  | setOwner l' => exact if_neg h
  | _ => rfl

/-- The thread will hold the lock when it has executed the rest of its code. -/
def EndsHolding (l t : ℕ) (k : Kernel) : Prop :=
  (k.code t).foldl (holdsAfter l) (decide (t ∈ (k.lock l).holding)) = true

/-- The code that an instruction pushes does not change who holds the lock. -/
theorem Rearranged.pushed_holds {place place₁ : Place → List ℕ} {current current₁ : ℕ}
    {instr : Instr} {pushed : List Instr}
    (h : Rearranged place current instr pushed place₁ current₁) (l : ℕ) (holds : Bool) :
    pushed.foldl (holdsAfter l) holds = holds := by
  cases h with
  | same _ hpushed => rcases hpushed with rfl | ⟨rfl, -⟩ <;> rfl
  | _ => rfl

/-- Only the running thread starts or ends holding a lock. -/
theorem exec_holding {l : ℕ} {k k' : Kernel} {instr : Instr} (h : k.exec instr = .ok k')
    (t : ℕ) : decide (t ∈ (k'.lock l).holding) =
      if t = k.currentThread then holdsAfter l (decide (t ∈ (k.lock l).holding)) instr
      else decide (t ∈ (k.lock l).holding) := by
  by_cases htouches : Touches l instr
  · cases instr with
    | p s =>
      obtain rfl : s = .lock l := htouches
      cases h
      obtain ⟨inside, hlock⟩ := takeOrSleep_lock k l
      simp [hlock, holdsAfter]
    | pRetry s =>
      obtain rfl : s = .lock l := htouches
      cases h
      obtain ⟨inside, hlock⟩ := takeOrSleep_lock (k.resumed (.lock l)) l
      have hlock' : ((k.resumed (.lock l)).takeOrSleep (.lock l)).lock l =
        { k.lock l with inside := inside } := hlock
      simp [hlock', holdsAfter]
    | v s =>
      -- who leaves the lock holds it no more
      obtain rfl : s = .lock l := htouches
      obtain ⟨k₁, hinc, h⟩ := bind_ok_iff.mp h
      cases h
      obtain ⟨hlock, -, hcur, -⟩ := increment_frame hinc
      have hholding : ((k₁.leave (.lock l)).lock l).holding =
          (k.lock l).holding.filter (· ≠ k.currentThread) := by
        show (Function.update k₁.lock l _ l).holding = _
        rw [Function.update_self, hlock, hcur]
      rw [hholding]
      by_cases ht : t = k.currentThread
      · simp [ht, holdsAfter]
      · simp [ht]
    | setOwner l' =>
      obtain rfl : l' = l := htouches
      cases h
      rw [setLock_lock_self]
      by_cases ht : t = k.currentThread
      · simp [ht, holdsAfter]
      · simp [ht]
    | clearOwner l' =>
      obtain rfl : l' = l := htouches
      cases h
      rw [setLock_lock_self]
      simp [holdsAfter]
    | _ => exact absurd htouches id
  · rw [(exec_quiet htouches h).lock, holdsAfter_of_not_touches htouches]
    simp

/-- The thread does not call a routine in the step. -/
def Silent (t : ℕ) (k : Kernel) (e : Event) : Prop := k.currentThread = t → ∀ c, e ≠ .call c

instance (t : ℕ) (k : Kernel) : (e : Event) → Decidable (Silent t k e)
  | .call c => decidable_of_iff (k.currentThread ≠ t)
      ⟨fun hne ht => absurd ht hne, fun h ht => h ht c rfl⟩
  | .exec => isTrue fun _ _ => Event.noConfusion
  | .tick _ => isTrue fun _ _ => Event.noConfusion
  | .idle _ => isTrue fun _ _ => Event.noConfusion

/-- The step lemma: a thread that will hold the lock at the end of its code still will. -/
theorem step_endsHolding {l t : ℕ} {k k' : Kernel} {e : Event} (hplaced : Placed k)
    (hcreated : k.created t = true) (hends : EndsHolding l t k) (hsilent : Silent t k e)
    (h : k.step e = .ok k') : EndsHolding l t k' := by
  unfold EndsHolding at hends ⊢
  cases e with
  | call c =>
    have hne : t ≠ k.currentThread := fun ht => hsilent ht.symm c rfl
    have hcalled := call_called hplaced.current h
    have hcode : k'.code t = k.code t := by
      rcases hcalled.others t hne with hcode | ⟨hnew, -⟩
      · exact hcode
      · rw [hcreated] at hnew
        cases hnew
    have hlock : k'.lock = k.lock := by rw [hcalled.frame]
    rw [hcode, hlock]
    exact hends
  | exec =>
    obtain ⟨instr, rest, hcode, h⟩ := exec_ok h
    obtain ⟨-, pushed, hcode', hre⟩ := exec_withRest_rearranged h
    have hholding := exec_holding (l := l) h t
    have hholding : decide (t ∈ (k'.lock l).holding) =
      if t = k.currentThread then holdsAfter l (decide (t ∈ (k.lock l).holding)) instr
      else decide (t ∈ (k.lock l).holding) := hholding
    rw [hholding, hcode']
    by_cases ht : t = k.currentThread
    · -- what is pushed neither takes nor leaves the lock
      rw [ht, hcode] at hends
      rw [ht, if_pos rfl, Function.update_self, List.foldl_append, hre.pushed_holds]
      exact hends
    · rw [if_neg ht, Function.update_of_ne ht]
      exact hends
  | tick handlers =>
    obtain ⟨rest, hcode, h⟩ := tick_ok h
    rw [(tick_quiet h).lock]
    obtain ⟨k₁, pushed, -, hpushed, rfl⟩ := tick_frame h
    show (Function.update k.code k.currentThread (pushed ++ rest) t).foldl _
      (decide (t ∈ (k.lock l).holding)) = true
    by_cases ht : t = k.currentThread
    · rw [ht, hcode] at hends
      rw [ht, Function.update_self, List.foldl_append]
      rcases hpushed with rfl | rfl <;> exact hends
    · rw [Function.update_of_ne ht]
      exact hends
  | idle handlers =>
    obtain ⟨k₁, hhandle, h⟩ := bind_ok_iff.mp (idle_ok h)
    obtain ⟨hlock, hcode, -⟩ := handle_frame hhandle
    rw [← pure_ok_iff.mp h]
    show (k₁.code t).foldl _ (decide (t ∈ (k₁.lock l).holding)) = true
    rw [hlock, hcode]
    exact hends

theorem step_created {t : ℕ} {k k' : Kernel} {e : Event} (hplaced : Placed k)
    (hcreated : k.created t = true) (h : k.step e = .ok k') : k'.created t = true := by
  cases e with
  | call c => exact (call_called hplaced.current h).created t hcreated
  | exec =>
    obtain ⟨instr, rest, -, h⟩ := exec_ok h
    rw [(exec_withRest_rearranged h).1]
    exact hcreated
  | tick handlers =>
    obtain ⟨rest, -, h⟩ := tick_ok h
    obtain ⟨k₁, pushed, hhandle, -, rfl⟩ := tick_frame h
    show k₁.created t = true
    rw [(handle_placed (k := k.withRest rest) hplaced.apart hhandle).2.1]
    exact hcreated
  | idle handlers =>
    obtain ⟨k₁, hhandle, h⟩ := bind_ok_iff.mp (idle_ok h)
    rw [← pure_ok_iff.mp h]
    show k₁.created t = true
    rw [(handle_placed hplaced.apart hhandle).2.1]
    exact hcreated

/-- A thread that has called `Wait` and nothing since holds the lock when it has returned. -/
theorem wait_returns_holding {c l : ℕ} {k k₁ k' : Kernel} {es : List Event} (hplaced : Placed k)
    (hcall : k.step (.call (.wait c l)) = .ok k₁)
    (hsilent : Along step (Silent k.currentThread) k₁ es)
    (hrun : PartialRun.run step k₁ es = .ok k') (hreturned : k'.code k.currentThread = []) :
    k.currentThread ∈ (k'.lock l).holding := by
  have hcalled := call_called hplaced.current hcall
  have hstart : EndsHolding l k.currentThread k₁ := by
    rw [EndsHolding, hcalled.code]
    simp [Call.routine, conditionWait, lockRelease, lockAcquire, semaphoreV, semaphoreP,
      holdsAfter]
  have hinv : Placed k' ∧ k'.created k.currentThread = true ∧
      EndsHolding l k.currentThread k' := by
    refine Along.invariant (I := fun k' => Placed k' ∧ k'.created k.currentThread = true ∧
      EndsHolding l k.currentThread k') ?_ ?_ hsilent hrun
    · rintro k e k' ⟨hplaced, hcreated, hends⟩ hsilent hst
      exact ⟨step_placed hplaced hst, step_created hplaced hcreated hst,
        step_endsHolding hplaced hcreated hends hsilent hst⟩
    · exact ⟨step_placed hplaced hcall, hcalled.created _ hplaced.current, hstart⟩
  have hends := hinv.2.2
  rw [EndsHolding, hreturned] at hends
  simpa using hends

/-! ## Every schedule -/

theorem Booted.waits {k : Kernel} (hboot : Booted k) : Waits k := by
  intro t c hmem
  rw [hboot.code] at hmem
  cases hmem

/-- Condition variables under every schedule, if threads release only locks they hold. A
thread that has released the lock in `Wait` and is not in the list yet is the one that runs,
and nobody is inside the lock. Threads are taken out of the list in the order in which they
have entered it: by a `Signal` the first, by a `Broadcast` all, and by nothing else. A thread
that has returned from `Wait` holds the lock. -/
theorem run_condition {k k' : Kernel} {es : List Event} (hboot : Booted k)
    (hown : Along step ReleasesOwn k es) (hrun : PartialRun.run step k es = .ok k') (c l : ℕ) :
    (∀ t, Leaving c l (k'.code t) → t = k'.currentThread ∧ (k'.lock l).inside = []) ∧
    trace step (enlists c) k es = trace step (wakes c) k es ++ k'.hilos c ∧
    (∀ e k'', k'.step e = .ok k'' →
      (∀ t ts, Signals c k' e → k'.hilos c = t :: ts →
        k''.hilos c = ts ∧ k''.readyList = k'.readyList ++ [t]) ∧
      (Broadcasts c k' e → k''.hilos c = [] ∧ k''.readyList = k'.readyList ++ k'.hilos c) ∧
      (¬ Signals c k' e → ¬ Broadcasts c k' e → k'.hilos c <+: k''.hilos c)) ∧
    (∀ es₁ es₂ k₁ k₂, es = es₁ ++ .call (.wait c l) :: es₂ →
      PartialRun.run step k es₁ = .ok k₁ → k₁.step (.call (.wait c l)) = .ok k₂ →
      Along step (Silent k₁.currentThread) k₂ es₂ → k'.code k₁.currentThread = [] →
      k₁.currentThread ∈ (k'.lock l).holding) := by
  have hinv : (Placed k' ∧ Waits k') ∧ Exclusive l k' ∧ FreeWhileLeaving l k' := by
    refine Along.invariant (I := fun k => (Placed k ∧ Waits k) ∧ Exclusive l k ∧
      FreeWhileLeaving l k) ?_ ?_ hown hrun
    · rintro k e k' ⟨⟨hplaced, hwaits⟩, hexcl, hfree⟩ hown hst
      exact ⟨⟨step_placed hplaced hst, step_waits hplaced hwaits hst⟩,
        step_exclusive hexcl hown hst, step_freeWhileLeaving hplaced hwaits hexcl hfree hst⟩
    · refine ⟨⟨hboot.placed, hboot.waits⟩, hboot.exclusive l, fun t c hleaving => ?_⟩
      have hmem := hleaving.mem
      rw [hboot.code] at hmem
      cases hmem
  obtain ⟨⟨-, hwaits⟩, -, hfree⟩ := hinv
  refine ⟨fun t hleaving => ⟨(hwaits t c hleaving.mem).1, hfree t c hleaving⟩, ?_,
    fun e k'' hst => step_wakes hst c, ?_⟩
  · have hqueue : k.hilos c ++ trace step (enlists c) k es =
        trace step (wakes c) k es ++ k'.hilos c :=
      trace_queue (q := fun k => k.hilos c) (fun _ _ _ hst => step_hilos hst c) hrun
    rwa [hboot.hilos, List.nil_append] at hqueue
  · -- the run is cut at the call of `Wait`
    intro es₁ es₂ k₁ k₂ hes hrun₁ hcall hsilent hreturned
    have hplaced : Placed k₁ := run_invariant (fun _ _ _ => step_placed) hboot.placed hrun₁
    refine wait_returns_holding hplaced hcall hsilent ?_ hreturned
    rw [hes, run_append_eq_ok] at hrun
    obtain ⟨k₁', hrun₁', hrun⟩ := hrun
    rw [hrun₁, Except.ok.injEq] at hrun₁'
    subst hrun₁'
    obtain ⟨k₂', hcall', hrun⟩ := run_cons_eq_ok.mp hrun
    rw [hcall, Except.ok.injEq] at hcall'
    subst hcall'
    exact hrun

/-- Thread `0` waits for a condition with lock `0`, thread `1` signals it while it has the
lock, and thread `0` returns from `Wait`. -/
def signallingRun : List Event := [
  .call (.fork 1), .exec, .exec, .exec, .tick [],
  .call (.acquire 0), .exec, .exec, .exec, .tick [], .exec,
  -- thread 0 releases the lock, enters the list and sleeps
  .call (.wait 0 0), .exec, .exec, .exec, .exec, .exec, .exec, .exec,
  .exec, .tick [], .call (.acquire 0), .exec, .exec, .exec, .tick [], .exec,
  .call (.signal 0), .exec, .exec, .exec, .tick [],
  .call (.release 0), .exec, .exec, .exec, .tick [], .exec,
  .call .yield, .exec, .exec,
  -- and acquires the lock again
  .exec, .exec, .exec, .exec, .exec, .tick []]

theorem signallingRun_condition : ∃ k,
    PartialRun.run step (boot fun _ => 0) signallingRun = .ok k ∧ k.code 0 = [] ∧
    0 ∈ (k.lock 0).holding ∧
    trace step (enlists 0) (boot fun _ => 0) signallingRun =
      trace step (wakes 0) (boot fun _ => 0) signallingRun := by
  obtain ⟨k, hrun, hcode, hhilos⟩ : ∃ k,
      PartialRun.run step (boot fun _ => 0) signallingRun = .ok k ∧ k.code 0 = [] ∧
      k.hilos 0 = [] := by decide +kernel
  obtain ⟨-, htrace, -, hreturns⟩ :=
    run_condition (boot_booted fun _ => 0) (by decide +kernel) hrun 0 0
  rw [hhilos, List.append_nil] at htrace
  obtain ⟨k₁, hrun₁, hcur, k₂, hcall, hsilent⟩ : ∃ k₁,
      PartialRun.run step (boot fun _ => 0) (signallingRun.take 11) = .ok k₁ ∧
      k₁.currentThread = 0 ∧ ∃ k₂, k₁.step (.call (.wait 0 0)) = .ok k₂ ∧
      Along step (Silent 0) k₂ (signallingRun.drop 12) := by decide +kernel
  have hholding := hreturns _ _ k₁ k₂ rfl hrun₁ hcall (hcur.symm ▸ hsilent) (hcur.symm ▸ hcode)
  rw [hcur] at hholding
  exact ⟨k, hrun, hcode, hholding, htrace⟩

end Kernel
end NachOS
