import NachOS.Threads.Semaphores

/-!
# Locks

A lock is a semaphore with initial value one, and two fields that say who has it. The
semaphore alone gives mutual exclusion, whatever the schedule, if only threads that have the
lock release it. The two fields are written outside of `P` and `V`: a thread that is
preempted in the `V` of its `Release` clears them after another thread may have set them.
-/

namespace NachOS
namespace Kernel

open PartialRun

/-! ## What is assumed of the threads -/

/-- A thread calls `Release` and `Wait` only while it has the lock. -/
def ReleasesOwn (k : Kernel) : Event → Prop
  | .call (.release l) => k.currentThread ∈ (k.lock l).holding
  | .call (.wait _ l) => k.currentThread ∈ (k.lock l).holding
  | _ => True

/-- The lock whose fields are cleared next. -/
def clearing : List Instr → Option ℕ
  | .clearOwner l :: _ => some l
  | _ => none

/-- A thread that has released a lock clears the fields before another thread has returned
from `Acquire`. -/
def ClearsInTime (k : Kernel) : Event → Prop
  | .exec => ∀ l ∈ clearing (k.code k.currentThread), (k.lock l).holding = []
  | _ => True

/-- What is assumed for the two fields to be right. -/
def ReleasesInTime (k : Kernel) (e : Event) : Prop := ReleasesOwn k e ∧ ClearsInTime k e

instance (k : Kernel) : (e : Event) → Decidable (ReleasesOwn k e)
  | .call c => by
    cases c
    all_goals
      unfold ReleasesOwn
      infer_instance
  | .exec => isTrue trivial
  | .tick _ => isTrue trivial
  | .idle _ => isTrue trivial

instance (k : Kernel) : (e : Event) → Decidable (ClearsInTime k e)
  | .exec => inferInstanceAs (Decidable (∀ l ∈ clearing (k.code k.currentThread), _ = []))
  | .call _ => isTrue trivial
  | .tick _ => isTrue trivial
  | .idle _ => isTrue trivial

instance (k : Kernel) (e : Event) : Decidable (ReleasesInTime k e) :=
  inferInstanceAs (Decidable (_ ∧ _))

/-- `isHeldByCurrentThread`, evaluated by thread `t`. -/
def isHeldBy (k : Kernel) (l t : ℕ) : Bool :=
  (k.lock l).isHeld && decide ((k.lock l).owner = some t)

/-! ## The code of a thread and a lock -/

/-- The instruction works on the lock. -/
def Touches (l : ℕ) : Instr → Prop
  | .p s => s = .lock l
  | .pRetry s => s = .lock l
  | .v s => s = .lock l
  | .setOwner l' => l' = l
  | .clearOwner l' => l' = l
  | _ => False

/-- Whether a thread is inside the lock after an instruction, given that it is (`true`) or is
not inside before. A thread outside neither releases the lock nor makes itself the owner. -/
def after (l : ℕ) (inside : Bool) : Instr → Option Bool
  | .p s => if s = .lock l then some true else some inside
  | .pRetry s => if s = .lock l then some true else some inside
  | .v s => if s = .lock l then (if inside then some false else none) else some inside
  | .setOwner l' => if l' = l ∧ inside = false then none else some inside
  | _ => some inside

/-- A thread that is inside the lock or not can go through the code. -/
def Safe (l : ℕ) : Bool → List Instr → Prop
  | _, [] => True
  | inside, instr :: rest => ∃ inside', after l inside instr = some inside' ∧ Safe l inside' rest

theorem after_of_not_touches {l : ℕ} {instr : Instr} (h : ¬ Touches l instr) (inside : Bool) :
    after l inside instr = some inside := by
  cases instr with
  | p s => exact if_neg h
  | pRetry s => exact if_neg h
  | v s => exact if_neg h
  | setOwner l' => exact if_neg fun hl => h hl.1
  | _ => rfl

/-- An instruction that does not touch the lock does not count. -/
theorem safe_cons_of_not_touches {l : ℕ} {instr : Instr} (h : ¬ Touches l instr) {inside : Bool}
    {rest : List Instr} : Safe l inside (instr :: rest) ↔ Safe l inside rest := by
  rw [Safe, after_of_not_touches h]
  constructor
  · rintro ⟨inside', heq, hrest⟩
    cases heq
    exact hrest
  · exact fun hrest => ⟨inside, rfl, hrest⟩

/-- Nor do several of them. -/
theorem safe_append_of_not_touches {l : ℕ} {instrs : List Instr}
    (h : ∀ instr ∈ instrs, ¬ Touches l instr) {inside : Bool} {rest : List Instr} :
    Safe l inside (instrs ++ rest) ↔ Safe l inside rest := by
  induction instrs with
  | nil => rfl
  | cons instr instrs ih =>
    rw [List.cons_append, safe_cons_of_not_touches (h instr List.mem_cons_self)]
    exact ih fun i hi => h i (List.mem_cons_of_mem instr hi)

/-! ## What leaves a lock alone -/

/-- Between the two states lock `l` is not worked on, and the running thread has `rest` left
to do, behind instructions that do not work on it either. -/
structure Quiet (l : ℕ) (k k' : Kernel) (rest : List Instr) : Prop where
  value : (k'.semaphore (.lock l)).value = (k.semaphore (.lock l)).value
  lock : k'.lock l = k.lock l
  code : ∃ pushed, (∀ instr ∈ pushed, ¬ Touches l instr) ∧
    k'.code = Function.update k.code k.currentThread (pushed ++ rest)

section

variable (k : Kernel)

@[simp] theorem run_lock (t : ℕ) : (k.run t).lock = k.lock := by
  unfold Kernel.run
  split <;> rfl

@[simp] theorem run_code (t : ℕ) : (k.run t).code = k.code := by
  unfold Kernel.run
  split <;> rfl

@[simp] theorem setLevel_lock (now : IntStatus) : (k.setLevel now).lock = k.lock := by
  unfold setLevel
  dsimp only
  split <;> rfl

/-- `SetLevel` pushes at most a tick. -/
theorem setLevel_code (now : IntStatus) : ∃ pushed : List Instr,
    (∀ instr ∈ pushed, instr = .oneTick) ∧ (k.setLevel now).code =
      Function.update k.code k.currentThread (pushed ++ k.code k.currentThread) := by
  unfold setLevel
  dsimp only
  split
  · exact ⟨[.oneTick], fun instr h => List.mem_singleton.mp h, rfl⟩
  · exact ⟨[], fun instr h => absurd h List.not_mem_nil, (Function.update_eq_self _ _).symm⟩

end

/-- Nothing is pushed. -/
theorem Quiet.of_code {l : ℕ} {k k' : Kernel}
    (hvalue : (k'.semaphore (.lock l)).value = (k.semaphore (.lock l)).value)
    (hlock : k'.lock l = k.lock l) (hcode : k'.code = k.code) :
    Quiet l k k' (k.code k.currentThread) :=
  ⟨hvalue, hlock, [], fun _ h => absurd h List.not_mem_nil,
    hcode.trans (Function.update_eq_self _ _).symm⟩

/-- So it is quiet about every lock. -/
theorem setLevel_quiet (l : ℕ) (k : Kernel) (now : IntStatus) :
    Quiet l k (k.setLevel now) (k.code k.currentThread) := by
  obtain ⟨pushed, hpushed, hcode⟩ := setLevel_code k now
  refine ⟨by rw [setLevel_semaphore], by rw [setLevel_lock], pushed, fun instr hi => ?_, hcode⟩
  rw [hpushed instr hi]
  exact id

theorem enter_lock_of_ne (k : Kernel) {s : SemId} {l : ℕ} (h : s ≠ .lock l) :
    (k.enter s).lock l = k.lock l := by
  cases s with
  | user n => rfl
  | lock l' => exact Function.update_of_ne (fun hl => h (by rw [hl])) _ _

theorem leave_lock_of_ne (k : Kernel) {s : SemId} {l : ℕ} (h : s ≠ .lock l) :
    (k.leave s).lock l = k.lock l := by
  cases s with
  | user n => rfl
  | lock l' => exact Function.update_of_ne (fun hl => h (by rw [hl])) _ _

@[simp] theorem enter_code (k : Kernel) (s : SemId) : (k.enter s).code = k.code := by
  cases s <;> rfl

@[simp] theorem leave_code (k : Kernel) (s : SemId) : (k.leave s).code = k.code := by
  cases s <;> rfl

/-- What the `V` of a semaphore leaves alone. -/
theorem increment_frame {k k' : Kernel} {s : SemId} (h : k.increment s = .ok k') :
    k'.lock = k.lock ∧ k'.code = k.code ∧ k'.currentThread = k.currentThread ∧
      (k'.semaphore s).value = (k.semaphore s).value + 1 ∧
      ∀ s', s' ≠ s → k'.semaphore s' = k.semaphore s' := by
  unfold increment at h
  dsimp only at h
  split at h
  · cases h
  · split at h
    · cases h
      refine ⟨rfl, rfl, rfl, ?_, fun s' hs => Function.update_of_ne hs _ _⟩
      show (Function.update k.semaphore s _ s).value = _
      rw [Function.update_self]
    · cases h
      refine ⟨rfl, rfl, rfl, ?_, fun s' hs => Function.update_of_ne hs _ _⟩
      show (Function.update k.semaphore s _ s).value = _
      rw [Function.update_self]

/-- Waiting for one semaphore is quiet about the others. -/
theorem takeOrSleep_quiet {k : Kernel} {s : SemId} {l : ℕ} (h : s ≠ .lock l) :
    Quiet l k (k.takeOrSleep s) (k.code k.currentThread) := by
  unfold takeOrSleep
  dsimp only
  split
  · refine ⟨?_, rfl, [.sleep, .pRetry s], fun instr hi => ?_, rfl⟩
    · exact congrArg Semaphore.value (Function.update_of_ne h.symm _ _)
    · rcases List.mem_cons.mp hi with rfl | hi
      · exact id
      · rw [List.mem_singleton.mp hi]
        exact h
  · refine .of_code ?_ (enter_lock_of_ne _ h) (enter_code _ s)
    rw [enter_semaphore]
    exact congrArg Semaphore.value (Function.update_of_ne h.symm _ _)

/-- A handler does not touch the locks. -/
theorem handle_frame {handlers : List Handler} {k k' : Kernel}
    (h : k.handle handlers = .ok k') : k'.lock = k.lock ∧ k'.code = k.code ∧
      k'.currentThread = k.currentThread ∧
      ∀ l, k'.semaphore (.lock l) = k.semaphore (.lock l) := by
  induction handlers generalizing k with
  | nil =>
    cases h
    exact ⟨rfl, rfl, rfl, fun _ => rfl⟩
  | cons handler handlers ih =>
    cases handler with
    | v n =>
      obtain ⟨k₁, hinc, h⟩ := bind_ok_iff.mp h
      obtain ⟨hlock, hcode, hcur, -, hsem⟩ := increment_frame hinc
      obtain ⟨hlock', hcode', hcur', hsem'⟩ := ih h
      refine ⟨hlock'.trans hlock, hcode'.trans hcode, hcur'.trans hcur, fun l => ?_⟩
      exact (hsem' l).trans (hsem (.lock l) (by simp))
    | timer => exact ih (k := { k with yieldOnReturn := true }) h

/-- An instruction that does not work on the lock leaves it alone. -/
theorem exec_quiet {k k' : Kernel} {instr : Instr} {l : ℕ} (hquiet : ¬ Touches l instr)
    (h : k.exec instr = .ok k') : Quiet l k k' (k.code k.currentThread) := by
  -- one case for each instruction: those of other semaphores, and those of no semaphore at all
  cases instr with
  | setLevel now =>
    cases h
    exact setLevel_quiet l k now
  | saveLevel =>
    cases h
    have hq := setLevel_quiet l (k.setOldLevels (k.level :: k.oldLevels k.currentThread)) .intOff
    exact ⟨hq.value, hq.lock, hq.code⟩
  | restoreLevel =>
    rw [exec] at h
    split at h
    · cases h
    · rename_i old olds _
      cases h
      have hq := setLevel_quiet l (k.setOldLevels olds) old
      exact ⟨hq.value, hq.lock, hq.code⟩
  | oneTick => cases h
  | p s =>
    cases h
    exact takeOrSleep_quiet hquiet
  | pRetry s =>
    cases h
    have hq := takeOrSleep_quiet (k := k.resumed s) hquiet
    refine ⟨hq.value.trans ?_, hq.lock, hq.code⟩
    exact congrArg Semaphore.value (Function.update_of_ne (Ne.symm hquiet) _ _)
  | v s =>
    obtain ⟨k₁, hinc, h⟩ := bind_ok_iff.mp h
    cases h
    obtain ⟨hlock, hcode, -, -, hsem⟩ := increment_frame hinc
    refine .of_code ?_ ?_ ((leave_code k₁ s).trans hcode)
    · rw [leave_semaphore, hsem _ (Ne.symm hquiet)]
    · rw [leave_lock_of_ne k₁ hquiet, hlock]
  | destroy s =>
    cases h
    refine .of_code ?_ rfl rfl
    show (Function.update k.semaphore s _ (.lock l)).value = _
    -- `Destroy` keeps the value, also that of the lock's own semaphore
    by_cases hs : s = .lock l
    · rw [hs, Function.update_self]
    · rw [Function.update_of_ne (Ne.symm hs)]
  | setOwner l' =>
    cases h
    exact .of_code rfl (Function.update_of_ne (Ne.symm hquiet) _ _) rfl
  | clearOwner l' =>
    cases h
    exact .of_code rfl (Function.update_of_ne (Ne.symm hquiet) _ _) rfl
  | appendHilos c =>
    cases h
    exact .of_code rfl rfl rfl
  | signal c =>
    rw [exec] at h
    split at h
    · cases h
      exact .of_code rfl rfl rfl
    · cases h
      exact .of_code rfl rfl rfl
  | broadcast c =>
    cases h
    exact .of_code rfl rfl rfl
  | readyToRun t =>
    cases h
    exact .of_code rfl rfl rfl
  | yieldCPU =>
    rw [exec] at h
    split at h
    · cases h
      exact .of_code rfl rfl rfl
    · cases h
      exact .of_code (by rw [run_semaphore]; rfl) (by rw [run_lock]; rfl) (run_code _ _)
  | sleep =>
    rw [exec] at h
    split at h
    · cases h
    · split at h
      · cases h
      · cases h
        exact .of_code (by rw [run_semaphore]) (by rw [run_lock]) (run_code _ _)
  | toBeDestroyed =>
    cases h
    exact .of_code rfl rfl rfl

/-- Nor does a tick, also if it switches threads. -/
theorem tick_quiet {k k' : Kernel} {handlers : List Handler} {l : ℕ}
    (h : k.tick handlers = .ok k') : Quiet l k k' (k.code k.currentThread) := by
  obtain ⟨k₁, hhandle, h⟩ := bind_ok_iff.mp h
  obtain ⟨hlock, hcode, hcur, hsem⟩ := handle_frame hhandle
  have h := pure_ok_iff.mp h
  dsimp only at h
  split at h
  · rw [← h]
    refine ⟨congrArg Semaphore.value (hsem l), congrFun hlock l, threadYield, ?_, ?_⟩
    · intro instr hi
      simp only [threadYield, List.mem_cons, List.not_mem_nil, or_false] at hi
      rcases hi with rfl | rfl | rfl <;> exact id
    · show Function.update k₁.code k₁.currentThread (threadYield ++ k₁.code k₁.currentThread) = _
      rw [hcode, hcur]
  · rw [← h]
    exact .of_code (congrArg Semaphore.value (hsem l)) (congrFun hlock l) hcode

/-- Nor does the idle loop. -/
theorem idle_quiet {k k' : Kernel} {handlers : List Handler} {l : ℕ}
    (h : k.idle handlers = .ok k') : Quiet l k k' (k.code k.currentThread) := by
  obtain ⟨k₁, hhandle, h⟩ := bind_ok_iff.mp h
  obtain ⟨hlock, hcode, -, hsem⟩ := handle_frame hhandle
  rw [← pure_ok_iff.mp h]
  exact .of_code (congrArg Semaphore.value (hsem l)) (congrFun hlock l) hcode

/-! ## Mutual exclusion -/

/-- The semaphore of the lock says whether a thread is inside, at most one is, and every
thread can go through the rest of its code. -/
structure Exclusive (l : ℕ) (k : Kernel) : Prop where
  value : (k.semaphore (.lock l)).value = 1 - (k.lock l).inside.length
  single : (k.lock l).inside.length ≤ 1
  holding : ∀ t ∈ (k.lock l).holding, t ∈ (k.lock l).inside
  safe : ∀ t, Safe l (decide (t ∈ (k.lock l).inside)) (k.code t)

/-- A quiet step keeps the lock exclusive. -/
theorem Exclusive.of_quiet {l : ℕ} {k k' : Kernel} {rest : List Instr} (hexcl : Exclusive l k)
    (hrest : Safe l (decide (k.currentThread ∈ (k.lock l).inside)) rest)
    (hquiet : Quiet l k k' rest) : Exclusive l k' := by
  obtain ⟨hvalue, hlock, pushed, hpushed, hcode⟩ := hquiet
  refine ⟨?_, ?_, ?_, fun t => ?_⟩
  · rw [hvalue, hlock]
    exact hexcl.value
  · rw [hlock]
    exact hexcl.single
  · rw [hlock]
    exact hexcl.holding
  · rw [hlock, hcode]
    by_cases ht : t = k.currentThread
    · rw [ht, Function.update_self, safe_append_of_not_touches hpushed]
      exact hrest
    · rw [Function.update_of_ne ht]
      exact hexcl.safe t

/-- A thread that is inside is alone. -/
theorem Exclusive.inside_eq {l t : ℕ} {k : Kernel} (hexcl : Exclusive l k)
    (ht : t ∈ (k.lock l).inside) : (k.lock l).inside = [t] := by
  have hsingle := hexcl.single
  cases hinside : (k.lock l).inside with
  | nil =>
    rw [hinside] at ht
    cases ht
  | cons u us =>
    rw [hinside, List.length_cons] at hsingle
    have hus : us = [] := List.length_eq_zero_iff.mp (by omega)
    rw [hinside, hus, List.mem_singleton] at ht
    rw [hus, ht]

theorem withRest_code_self (k : Kernel) (rest : List Instr) :
    (k.withRest rest).code k.currentThread = rest := Function.update_self _ _ _

theorem withRest_code_of_ne (k : Kernel) (rest : List Instr) {t : ℕ} (ht : t ≠ k.currentThread) :
    (k.withRest rest).code t = k.code t := Function.update_of_ne ht _ _

/-- The instruction has been taken off the code before it is executed. -/
theorem Quiet.of_withRest {l : ℕ} {k k' : Kernel} {rest : List Instr}
    (h : Quiet l (k.withRest rest) k' ((k.withRest rest).code k.currentThread)) :
    Quiet l k k' rest := by
  obtain ⟨hvalue, hlock, pushed, hpushed, hcode⟩ := h
  refine ⟨hvalue, hlock, pushed, hpushed, ?_⟩
  rw [hcode, withRest_code_self]
  exact Function.update_idem _ _ _

/-- The test in `P`, for the semaphore of the lock: the thread goes on waiting, or enters the
lock with nobody inside. -/
theorem Exclusive.takeOrSleep {l : ℕ} {k : Kernel} {rest : List Instr} (hexcl : Exclusive l k)
    (hrest : Safe l true rest) : Exclusive l ((k.withRest rest).takeOrSleep (.lock l)) := by
  unfold Kernel.takeOrSleep
  dsimp only
  split
  · refine ⟨?_, hexcl.single, hexcl.holding, fun t => ?_⟩
    · show (Function.update k.semaphore (.lock l) _ (.lock l)).value = _
      rw [Function.update_self]
      exact hexcl.value
    · show Safe l _ (Function.update (k.withRest rest).code k.currentThread
        ([.sleep, .pRetry (.lock l)] ++ (k.withRest rest).code k.currentThread) t)
      by_cases ht : t = k.currentThread
      · rw [ht, Function.update_self, withRest_code_self]
        exact ⟨_, rfl, true, if_pos rfl, hrest⟩
      · rw [Function.update_of_ne ht, withRest_code_of_ne k rest ht]
        exact hexcl.safe t
  · rename_i hvalue
    have hvalue : (k.semaphore (.lock l)).value ≠ 0 := hvalue
    -- a value that is not 0 leaves nobody inside
    have hnobody : (k.lock l).inside = [] := by
      have h₁ := hexcl.value
      have h₂ := hexcl.single
      exact List.length_eq_zero_iff.mp (by omega)
    have hfree : (k.semaphore (.lock l)).value = 1 := by
      rw [hexcl.value, hnobody]
      rfl
    have hlock : ∀ sem, (((k.withRest rest).setSemaphore (.lock l) sem).enter (.lock l)).lock l =
        { k.lock l with inside := [k.currentThread] } := by
      intro sem
      refine (Function.update_self _ _ _).trans ?_
      show { k.lock l with inside := k.currentThread :: (k.lock l).inside } = _
      rw [hnobody]
    refine ⟨?value, ?single, ?holding, fun t => ?safe⟩
    case value =>
      rw [hlock, enter_semaphore]
      show (Function.update k.semaphore (.lock l) _ (.lock l)).value = _
      rw [Function.update_self]
      show (k.semaphore (.lock l)).value - 1 = 1 - 1
      rw [hfree]
    case single =>
      rw [hlock]
      exact Nat.le_refl 1
    case holding =>
      rw [hlock]
      intro t ht
      have := hexcl.holding t ht
      rw [hnobody] at this
      cases this
    case safe =>
      rw [hlock, enter_code]
      show Safe l (decide (t ∈ [k.currentThread])) ((k.withRest rest).code t)
      by_cases ht : t = k.currentThread
      · rw [ht, decide_eq_true (List.mem_singleton_self _), withRest_code_self]
        exact hrest
      · have hsafe := hexcl.safe t
        rw [hnobody, decide_eq_false List.not_mem_nil] at hsafe
        rw [decide_eq_false (by simpa using ht), withRest_code_of_ne k rest ht]
        exact hsafe

/-- The `V` of a thread that is inside: it leaves the lock free. -/
theorem Exclusive.leave {l : ℕ} {k k₁ : Kernel} {rest : List Instr} (hexcl : Exclusive l k)
    (hinside : k.currentThread ∈ (k.lock l).inside) (hrest : Safe l false rest)
    (h : (k.withRest rest).increment (.lock l) = .ok k₁) :
    Exclusive l (k₁.leave (.lock l)) := by
  obtain ⟨hlock₁, hcode, hcur, hvalue, -⟩ := increment_frame h
  have hself := hexcl.inside_eq hinside
  have hlock : (k₁.leave (.lock l)).lock l = { k.lock l with inside := [], holding := [] } := by
    refine (Function.update_self _ _ _).trans ?_
    rw [hlock₁, hcur]
    show { k.lock l with
      inside := (k.lock l).inside.filter (· ≠ k.currentThread)
      holding := (k.lock l).holding.filter (· ≠ k.currentThread) } = _
    have hholding : (k.lock l).holding.filter (· ≠ k.currentThread) = [] := by
      rw [List.filter_eq_nil_iff]
      intro t ht
      have := hexcl.holding t ht
      rw [hself, List.mem_singleton] at this
      simp [this]
    rw [hholding, hself]
    simp
  have hvalue₀ : (k.semaphore (.lock l)).value = 0 := by
    rw [hexcl.value, hself]
    rfl
  refine ⟨?_, ?_, ?_, fun t => ?_⟩
  · rw [hlock, leave_semaphore, hvalue]
    show (k.semaphore (.lock l)).value + 1 = 1 - 0
    rw [hvalue₀]
    rfl
  · rw [hlock]
    exact Nat.zero_le 1
  · rw [hlock]
    exact fun t ht => ht
  · rw [hlock, leave_code, hcode, decide_eq_false List.not_mem_nil]
    by_cases ht : t = k.currentThread
    · rw [ht, withRest_code_self]
      exact hrest
    · have hsafe := hexcl.safe t
      rw [hself, decide_eq_false (by simpa using ht)] at hsafe
      rw [withRest_code_of_ne k rest ht]
      exact hsafe

theorem setLock_lock_self (k : Kernel) (l : ℕ) (lock : Lock) : (k.setLock l lock).lock l = lock :=
  Function.update_self _ _ _

/-- Other fields of the lock are written, and who is inside stays the same. -/
theorem Exclusive.setLock {l : ℕ} {k : Kernel} {rest : List Instr} {lock : Lock}
    (hexcl : Exclusive l k)
    (hrest : Safe l (decide (k.currentThread ∈ (k.lock l).inside)) rest)
    (hinside : lock.inside = (k.lock l).inside)
    (hholding : ∀ t ∈ lock.holding, t ∈ (k.lock l).inside) :
    Exclusive l ((k.withRest rest).setLock l lock) := by
  refine ⟨?_, ?_, ?_, fun t => ?_⟩
  · rw [setLock_lock_self, hinside]
    exact hexcl.value
  · rw [setLock_lock_self, hinside]
    exact hexcl.single
  · rw [setLock_lock_self, hinside]
    exact hholding
  · rw [setLock_lock_self, hinside]
    show Safe l _ ((k.withRest rest).code t)
    by_cases ht : t = k.currentThread
    · rw [ht, withRest_code_self]
      exact hrest
    · rw [withRest_code_of_ne k rest ht]
      exact hexcl.safe t

/-- Every instruction keeps the lock exclusive. -/
theorem exec_exclusive {l : ℕ} {k k' : Kernel} {instr : Instr} {rest : List Instr}
    (hexcl : Exclusive l k) (hcode : k.code k.currentThread = instr :: rest)
    (h : (k.withRest rest).exec instr = .ok k') : Exclusive l k' := by
  have hsafe := hexcl.safe k.currentThread
  rw [hcode] at hsafe
  -- the safety of the code says what each instruction that touches the lock may assume
  by_cases htouches : Touches l instr
  · obtain ⟨inside', hafter, hrest⟩ := hsafe
    cases instr with
    | p s =>
      obtain rfl : s = .lock l := htouches
      rw [after, if_pos rfl] at hafter
      cases hafter
      cases h
      exact hexcl.takeOrSleep hrest
    | pRetry s =>
      obtain rfl : s = .lock l := htouches
      rw [after, if_pos rfl] at hafter
      cases hafter
      cases h
      have hresumed : Exclusive l (k.resumed (.lock l)) := by
        refine ⟨?_, hexcl.single, hexcl.holding, hexcl.safe⟩
        show (Function.update k.semaphore (.lock l) _ (.lock l)).value = _
        rw [Function.update_self]
        exact hexcl.value
      exact hresumed.takeOrSleep hrest
    | v s =>
      obtain rfl : s = .lock l := htouches
      rw [after, if_pos rfl] at hafter
      split at hafter
      · rename_i hinside
        cases hafter
        obtain ⟨k₁, hinc, h⟩ := bind_ok_iff.mp h
        cases h
        exact hexcl.leave (by simpa using hinside) hrest hinc
      · cases hafter
    | setOwner l' =>
      -- the thread that becomes the holder is inside
      obtain rfl : l' = l := htouches
      rw [after] at hafter
      split at hafter
      · cases hafter
      · rename_i hinside
        cases hafter
        cases h
        refine hexcl.setLock hrest rfl fun t ht => ?_
        rcases List.mem_cons.mp ht with rfl | ht
        · show k.currentThread ∈ _
          simpa using hinside
        · exact hexcl.holding t ht
    | clearOwner l' =>
      obtain rfl : l' = l := htouches
      cases hafter
      cases h
      exact hexcl.setLock hrest rfl hexcl.holding
    | _ => exact absurd htouches id
  · rw [safe_cons_of_not_touches htouches] at hsafe
    exact hexcl.of_quiet hsafe (Quiet.of_withRest (exec_quiet htouches h))

/-- A thread can go through any routine, and releases a lock it is inside of. -/
theorem routine_safe {l : ℕ} {inside : Bool} {c : Call} {rest : List Instr}
    (hrelease : (c = .release l ∨ ∃ n, c = .wait n l) → inside = true)
    (hrest : ∀ inside', Safe l inside' rest) : Safe l inside (c.routine ++ rest) := by
  cases c with
  | acquire l' =>
    by_cases hl : l' = l
    · simp [Call.routine, lockAcquire, semaphoreP, Safe, after, hl, hrest]
    · simp [Call.routine, lockAcquire, semaphoreP, Safe, after, hl, hrest]
  | release l' =>
    by_cases hl : l' = l
    · have hinside := hrelease (.inl (by rw [hl]))
      simp [Call.routine, lockRelease, semaphoreV, Safe, after, hl, hinside, hrest]
    · simp [Call.routine, lockRelease, semaphoreV, Safe, after, hl, hrest]
  | wait n l' =>
    by_cases hl : l' = l
    · have hinside := hrelease (.inr ⟨n, by rw [hl]⟩)
      simp [Call.routine, conditionWait, lockRelease, lockAcquire, semaphoreV, semaphoreP, Safe,
        after, hl, hinside, hrest]
    · simp [Call.routine, conditionWait, lockRelease, lockAcquire, semaphoreV, semaphoreP, Safe,
        after, hl, hrest]
  | _ =>
    simp [Call.routine, semaphoreP, semaphoreV, semaphoreDestroy, conditionSignal,
      conditionBroadcast, threadYield, threadFork, threadFinish, Safe, after, hrest]

/-- A new thread can go through its code. -/
theorem Exclusive.newThread {l t : ℕ} {k k' : Kernel} (hexcl : Exclusive l k)
    (h : k.newThread t = .ok k') : Exclusive l k' := by
  obtain ⟨-, rfl⟩ := newThread_ok h
  refine ⟨hexcl.value, hexcl.single, hexcl.holding, fun t' => ?_⟩
  show Safe l _ (Function.update k.code t threadRoot t')
  by_cases ht : t' = t
  · rw [ht, Function.update_self]
    exact ⟨_, rfl, trivial⟩
  · rw [Function.update_of_ne ht]
    exact hexcl.safe t'

/-- A step keeps the lock exclusive if it does not call `Release` or `Wait` for this lock
without holding it. -/
theorem step_exclusive_of_own {l : ℕ} {k k' : Kernel} {e : Event} (hexcl : Exclusive l k)
    (hown : ∀ c, e = .call c → (c = .release l ∨ ∃ n, c = .wait n l) →
      k.currentThread ∈ (k.lock l).holding)
    (h : k.step e = .ok k') : Exclusive l k' := by
  cases e with
  | call c =>
    obtain ⟨hcode, k₁, rfl, hk₁⟩ := call_ok h
    have hrelease : (c = .release l ∨ ∃ n, c = .wait n l) →
        decide (k.currentThread ∈ (k.lock l).inside) = true :=
      fun hc => decide_eq_true (hexcl.holding _ (hown c rfl hc))
    -- what is left of the thread's code is nothing, or the start of a thread forked as itself
    obtain ⟨hexcl₁, hcur, hlock, hrest⟩ : Exclusive l k₁ ∧ k₁.currentThread = k.currentThread ∧
        k₁.lock = k.lock ∧ ∀ inside', Safe l inside' (k₁.code k₁.currentThread) := by
      rcases hk₁ with ⟨rfl, -⟩ | ⟨t, -, hnew⟩
      · refine ⟨hexcl, rfl, rfl, fun inside' => ?_⟩
        rw [hcode]
        trivial
      · refine ⟨hexcl.newThread hnew, ?_⟩
        obtain ⟨-, rfl⟩ := newThread_ok hnew
        refine ⟨rfl, rfl, fun inside' => ?_⟩
        show Safe l inside' (Function.update k.code t threadRoot k.currentThread)
        by_cases ht : k.currentThread = t
        · rw [ht, Function.update_self]
          exact ⟨_, rfl, trivial⟩
        · rw [Function.update_of_ne ht, hcode]
          trivial
    refine ⟨hexcl₁.value, hexcl₁.single, hexcl₁.holding, fun t => ?_⟩
    show Safe l (decide (t ∈ (k₁.lock l).inside)) (Function.update k₁.code k₁.currentThread
      (c.routine ++ k₁.code k₁.currentThread) t)
    by_cases ht : t = k₁.currentThread
    · rw [ht, Function.update_self]
      refine routine_safe ?_ hrest
      rw [hlock, hcur]
      exact hrelease
    · rw [Function.update_of_ne ht]
      exact hexcl₁.safe t
  | exec =>
    obtain ⟨instr, rest, hcode, h⟩ := exec_ok h
    exact exec_exclusive hexcl hcode h
  | tick handlers =>
    obtain ⟨rest, hcode, h⟩ := tick_ok h
    have hsafe := hexcl.safe k.currentThread
    rw [hcode, safe_cons_of_not_touches id] at hsafe
    exact hexcl.of_quiet hsafe (Quiet.of_withRest (tick_quiet h))
  | idle handlers => exact hexcl.of_quiet (hexcl.safe k.currentThread) (idle_quiet (idle_ok h))

/-- The step lemma: at most one thread is inside. -/
theorem step_exclusive {l : ℕ} {k k' : Kernel} {e : Event} (hexcl : Exclusive l k)
    (hown : ReleasesOwn k e) (h : k.step e = .ok k') : Exclusive l k' := by
  refine step_exclusive_of_own hexcl (fun c he hc => ?_) h
  subst he
  rcases hc with rfl | ⟨n, rfl⟩
  · exact hown
  · exact hown

theorem Booted.exclusive {k : Kernel} (hboot : Booted k) (l : ℕ) : Exclusive l k := by
  have hlock := hboot.lock l
  refine ⟨?_, ?_, ?_, fun t => ?_⟩
  · rw [hboot.lockSemaphore, hlock]
    rfl
  · rw [hlock]
    exact Nat.zero_le 1
  · rw [hlock]
    exact fun t ht => ht
  · rw [hboot.code]
    trivial

/-- If threads release only locks they hold, then in every state of every run at most one
thread is inside a lock, at most one holds it, and the semaphore has the value one whenever
nobody is inside. -/
theorem run_exclusive {k k' : Kernel} {es : List Event} (hboot : Booted k)
    (hown : Along step ReleasesOwn k es) (hrun : PartialRun.run step k es = .ok k') (l : ℕ) :
    (k'.lock l).inside.length ≤ 1 ∧
    (∀ t ∈ (k'.lock l).holding, ∀ u ∈ (k'.lock l).holding, t = u) ∧
    ((k'.lock l).inside = [] → (k'.semaphore (.lock l)).value = 1) := by
  have hexcl : Exclusive l k' :=
    Along.invariant (I := Exclusive l) (fun _ _ _ hexcl hown hst => step_exclusive hexcl hown hst)
      (hboot.exclusive l) hown hrun
  refine ⟨hexcl.single, fun t ht u hu => ?_, fun hnobody => ?_⟩
  · have := hexcl.holding u hu
    rw [hexcl.inside_eq (hexcl.holding t ht), List.mem_singleton] at this
    exact this.symm
  · rw [hexcl.value, hnobody]
    rfl

/-- Thread `1` waits for the lock that thread `0` holds, and gets it. -/
def contendingRun : List Event := [
  .call (.acquire 0), .exec, .exec, .exec, .tick [], .exec,
  .call (.fork 1), .exec, .exec, .exec, .tick [],
  .call .yield, .exec, .exec,
  -- thread 1 goes to sleep in `P`
  .exec, .tick [], .call (.acquire 0), .exec, .exec, .exec,
  .exec, .tick [], .call (.release 0), .exec, .exec, .exec, .tick [], .exec,
  .call .yield, .exec, .exec,
  -- and is woken in it
  .exec, .exec, .tick [], .exec]

theorem contendingRun_exclusive : ∃ k,
    PartialRun.run step (boot fun _ => 0) contendingRun = .ok k ∧
    1 ∈ (k.lock 0).holding ∧ (k.lock 0).inside.length ≤ 1 := by
  obtain ⟨k, hrun, hholding⟩ : ∃ k,
      PartialRun.run step (boot fun _ => 0) contendingRun = .ok k ∧ 1 ∈ (k.lock 0).holding := by
    decide +kernel
  obtain ⟨hsingle, -⟩ := run_exclusive (boot_booted fun _ => 0) (by decide +kernel) hrun 0
  exact ⟨k, hrun, hholding, hsingle⟩

/-! ## The owner -/

/-- Every thread that holds the lock is its recorded owner. -/
def Recorded (l : ℕ) (k : Kernel) : Prop :=
  ∀ t ∈ (k.lock l).holding, (k.lock l).isHeld = true ∧ (k.lock l).owner = some t

theorem recorded_of_lock_eq {l : ℕ} {k k' : Kernel} (hrec : Recorded l k)
    (hlock : k'.lock l = k.lock l) : Recorded l k' := by
  unfold Recorded
  rw [hlock]
  exact hrec

/-- Entering a lock changes who is inside, and nothing else of it. -/
theorem takeOrSleep_lock (k : Kernel) (l : ℕ) : ∃ inside,
    (k.takeOrSleep (.lock l)).lock l = { k.lock l with inside := inside } := by
  unfold takeOrSleep
  dsimp only
  split
  · exact ⟨(k.lock l).inside, rfl⟩
  · exact ⟨_, Function.update_self _ _ _⟩

/-- The fields of the lock name its holder; the cases are the instructions that write them. -/
theorem exec_recorded {l : ℕ} {k k' : Kernel} {instr : Instr} {rest : List Instr}
    (hexcl : Exclusive l k) (hrec : Recorded l k)
    (hcode : k.code k.currentThread = instr :: rest)
    (hclear : instr = .clearOwner l → (k.lock l).holding = [])
    (h : (k.withRest rest).exec instr = .ok k') : Recorded l k' := by
  by_cases htouches : Touches l instr
  · cases instr with
    | p s =>
      obtain rfl : s = .lock l := htouches
      cases h
      obtain ⟨inside, hlock⟩ := takeOrSleep_lock (k.withRest rest) l
      rw [Recorded, hlock]
      exact hrec
    | pRetry s =>
      obtain rfl : s = .lock l := htouches
      cases h
      obtain ⟨inside, hlock⟩ := takeOrSleep_lock ((k.withRest rest).resumed (.lock l)) l
      rw [Recorded, hlock]
      exact hrec
    | v s =>
      -- a thread that leaves is no holder any more, and nobody becomes one
      obtain rfl : s = .lock l := htouches
      obtain ⟨k₁, hinc, h⟩ := bind_ok_iff.mp h
      cases h
      obtain ⟨hlock₁, -⟩ := increment_frame hinc
      have hlock : (k₁.leave (.lock l)).lock l = { k₁.lock l with
          inside := (k₁.lock l).inside.filter (· ≠ k₁.currentThread)
          holding := (k₁.lock l).holding.filter (· ≠ k₁.currentThread) } :=
        Function.update_self _ _ _
      rw [Recorded, hlock, hlock₁]
      exact fun t ht => hrec t (List.mem_of_mem_filter ht)
    | setOwner l' =>
      obtain rfl : l' = l := htouches
      have hexcl' := exec_exclusive hexcl hcode h
      have hlock : k'.lock l' = { k.lock l' with
          isHeld := true
          owner := some k.currentThread
          holding := k.currentThread :: (k.lock l').holding } := by
        rw [← Except.ok.inj h]
        exact setLock_lock_self _ _ _
      -- the thread is now among the holders, and the holders are one
      have hself : k.currentThread ∈ (k'.lock l').holding := by
        rw [hlock]
        exact List.mem_cons_self
      intro t ht
      have htself := hexcl'.holding t ht
      rw [hexcl'.inside_eq (hexcl'.holding _ hself), List.mem_singleton] at htself
      rw [hlock, htself]
      exact ⟨rfl, rfl⟩
    | clearOwner l' =>
      -- the fields are cleared: by hypothesis nobody holds the lock then
      obtain rfl : l' = l := htouches
      cases h
      intro t ht
      rw [setLock_lock_self] at ht
      have ht : t ∈ (k.lock l').holding := ht
      rw [hclear rfl] at ht
      cases ht
    | _ => exact absurd htouches id
  · exact recorded_of_lock_eq hrec (exec_quiet htouches h).lock

/-- The step lemma of the fields, for the steps that clear them in time. -/
theorem step_recorded {l : ℕ} {k k' : Kernel} {e : Event} (hexcl : Exclusive l k)
    (hrec : Recorded l k) (hclear : ClearsInTime k e) (h : k.step e = .ok k') :
    Recorded l k' := by
  cases e with
  | call c =>
    obtain ⟨-, k₁, rfl, hk₁⟩ := call_ok h
    rcases hk₁ with ⟨rfl, -⟩ | ⟨t, -, hnew⟩
    · exact hrec
    · obtain ⟨-, rfl⟩ := newThread_ok hnew
      exact hrec
  | exec =>
    obtain ⟨instr, rest, hcode, h⟩ := exec_ok h
    refine exec_recorded hexcl hrec hcode (fun hinstr => hclear l ?_) h
    rw [hcode, hinstr]
    rfl
  | tick handlers =>
    obtain ⟨rest, -, h⟩ := tick_ok h
    exact recorded_of_lock_eq hrec (tick_quiet h).lock
  | idle handlers => exact recorded_of_lock_eq hrec (idle_quiet (idle_ok h)).lock

/-- If threads release only locks they hold, and clear the fields of a lock before another
thread has returned from `Acquire`, then `isHeldByCurrentThread` is true of the thread that
holds a lock and of no other. -/
theorem run_isHeldBy {k k' : Kernel} {es : List Event} (hboot : Booted k)
    (hcond : Along step ReleasesInTime k es) (hrun : PartialRun.run step k es = .ok k')
    (l t : ℕ) (ht : t ∈ (k'.lock l).holding) :
    k'.isHeldBy l t = true ∧ ∀ u, u ≠ t → k'.isHeldBy l u = false := by
  -- the fields name every holder, as long as they are not cleared too late
  have hinv : Exclusive l k' ∧ Recorded l k' := by
    refine Along.invariant (I := fun k => Exclusive l k ∧ Recorded l k) ?_ ?_ hcond hrun
    · rintro k e k' ⟨hexcl, hrec⟩ ⟨hown, hclear⟩ hst
      exact ⟨step_exclusive hexcl hown hst, step_recorded hexcl hrec hclear hst⟩
    · refine ⟨hboot.exclusive l, fun t ht => ?_⟩
      rw [hboot.lock l] at ht
      cases ht
  obtain ⟨hheld, howner⟩ := hinv.2 t ht
  refine ⟨?_, fun u hu => ?_⟩
  · rw [isHeldBy, hheld, howner]
    simp
  · rw [isHeldBy, hheld, howner]
    simpa using Ne.symm hu

/-- The same threads, where thread `0` is not preempted between its `V` and the assignments. -/
theorem contendingRun_isHeldBy : ∃ k,
    PartialRun.run step (boot fun _ => 0) contendingRun = .ok k ∧
    k.isHeldBy 0 1 = true ∧ k.isHeldBy 0 0 = false := by
  obtain ⟨k, hrun, hholding⟩ : ∃ k,
      PartialRun.run step (boot fun _ => 0) contendingRun = .ok k ∧ 1 ∈ (k.lock 0).holding := by
    decide +kernel
  obtain ⟨hheld, hothers⟩ := run_isHeldBy (boot_booted fun _ => 0) (by decide +kernel) hrun 0 1
    hholding
  exact ⟨k, hrun, hheld, hothers 0 (by decide)⟩

/-- Thread `0` is preempted at the end of the `V` of its `Release`, thread `1` returns from
`Acquire`, and thread `0` goes on. -/
def preemptedRelease : List Event := [
  .call (.acquire 0), .exec, .exec, .exec, .tick [], .exec,
  .call (.fork 1), .exec, .exec, .exec, .tick [],
  .call .yield, .exec, .exec,
  .exec, .tick [], .call (.acquire 0), .exec, .exec, .exec,
  .exec, .tick [], .call (.release 0), .exec, .exec, .exec,
  -- the timer
  .tick [.timer], .exec, .exec,
  .exec, .exec, .tick [], .exec, .call .yield, .exec, .exec,
  .exec, .tick [], .exec]

/-- Thread `1` holds the lock, and `isHeldByCurrentThread` is false of it. -/
theorem run_not_isHeldBy : ¬ ∀ (k k' : Kernel) (es : List Event) (l t : ℕ), Booted k →
    Along step ReleasesOwn k es → PartialRun.run step k es = .ok k' →
    t ∈ (k'.lock l).holding →
    k'.isHeldBy l t = true ∧ ∀ u, u ≠ t → k'.isHeldBy l u = false := by
  intro h
  obtain ⟨k, hrun, hholding, hheld⟩ : ∃ k,
      PartialRun.run step (boot fun _ => 0) preemptedRelease = .ok k ∧
      1 ∈ (k.lock 0).holding ∧ k.isHeldBy 0 1 = false := by decide +kernel
  have htrue := (h _ k preemptedRelease 0 1 (boot_booted fun _ => 0) (by decide +kernel) hrun
    hholding).1
  rw [hheld] at htrue
  cases htrue

end Kernel
end NachOS
