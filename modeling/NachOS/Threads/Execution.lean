import NachOS.Threads.Conditions

/-!
# What a step does to a thread

A component of the kernel that has locks, semaphores and condition variables of its own is
understood from what is left of them in the code of each thread. A step adds to that code only in
a call, and where a thread that tests a semaphore goes to sleep; it takes from the code only the
instruction that is executed.
-/

namespace NachOS

/-- The instruction works on a semaphore, a lock or a condition variable. -/
def Instr.synchronises : Instr → Bool
  | .p _ | .pRetry _ | .v _ | .destroy _ | .setOwner _ | .clearOwner _ | .appendHilos _
  | .signal _ | .broadcast _ => true
  | _ => false

namespace Kernel

open PartialRun

/-- The running thread executes the instruction in the step. -/
def Executes (instr : Instr) (k : Kernel) (e : Event) : Prop :=
  e = .exec ∧ (k.code k.currentThread).head? = some instr

instance (instr : Instr) (k : Kernel) (e : Event) : Decidable (Executes instr k e) :=
  inferInstanceAs (Decidable (_ ∧ _))

/-- The running thread tests the semaphore in the step. -/
def Tests (s : SemId) (k : Kernel) (e : Event) : Prop :=
  Executes (.p s) k e ∨ Executes (.pRetry s) k e

/-- The test of the semaphore is left in the code. -/
def WillTest (s : SemId) (code : List Instr) : Prop := .p s ∈ code ∨ .pRetry s ∈ code

section

variable {k k' : Kernel} {e : Event} {instr : Instr} {rest : List Instr} {t : ℕ}

theorem Executes.mem (h : Executes instr k e) : instr ∈ k.code k.currentThread :=
  List.mem_of_mem_head? h.2

theorem Executes.eq {instr' : Instr} (h : Executes instr k e) (h' : Executes instr' k e) :
    instr = instr' := Option.some.inj (h.2.symm.trans h'.2)

theorem executes_exec (hcode : k.code k.currentThread = instr :: rest) :
    Executes instr k .exec := by
  refine ⟨rfl, ?_⟩
  rw [hcode]
  rfl

/-- The next instruction is the one executed. -/
theorem executes_iff {instr' : Instr} (hcode : k.code k.currentThread = instr :: rest) :
    Executes instr' k .exec ↔ instr = instr' := by
  rw [Executes, hcode]
  simp

/-- A thread that tests a semaphore was going to. -/
theorem Tests.willTest {s : SemId} (h : Tests s k e) :
    WillTest s (k.code k.currentThread) := h.imp Executes.mem Executes.mem

/-! ## The code -/

/-- The code of a thread that does not run stays as it is. -/
theorem step_code (hplaced : Placed k) (hcreated : k.created t = true)
    (hne : t ≠ k.currentThread) (h : k.step e = .ok k') : k'.code t = k.code t := by
  cases e with
  | call c =>
    rcases (call_called hplaced.current h).others t hne with hcode | ⟨hnew, -⟩
    · exact hcode
    · rw [hcreated] at hnew
      cases hnew
  | exec =>
    obtain ⟨instr, rest, -, h⟩ := exec_ok h
    obtain ⟨-, pushed, hcode, -⟩ := exec_withRest_rearranged h
    rw [hcode, Function.update_of_ne hne]
  | tick handlers =>
    obtain ⟨rest, -, h⟩ := tick_ok h
    obtain ⟨k₁, pushed, -, -, rfl⟩ := tick_frame h
    exact Function.update_of_ne hne _ _
  | idle handlers =>
    obtain ⟨k₁, hhandle, h⟩ := bind_ok_iff.mp (idle_ok h)
    obtain ⟨-, hcode, -⟩ := handle_frame hhandle
    rw [← pure_ok_iff.mp h]
    exact congrFun hcode t

/-- Where an instruction in the code of a thread comes from. -/
theorem step_old (hplaced : Placed k) (h : k.step e = .ok k')
    (hinstr : instr.synchronises = true) (hmem : instr ∈ k'.code t) :
    instr ∈ k.code t ∨ (t = k.currentThread ∧ ((∃ c, e = .call c ∧ instr ∈ c.routine) ∨
      ∃ s, instr = .pRetry s ∧ Tests s k e)) := by
  cases e with
  | call c =>
    have hcalled := call_called hplaced.current h
    by_cases ht : t = k.currentThread
    · rw [ht, hcalled.code] at hmem
      exact .inr ⟨ht, .inl ⟨c, rfl, hmem⟩⟩
    · rcases hcalled.others t ht with hcode | ⟨-, hcode⟩
      · rw [hcode] at hmem
        exact .inl hmem
      · rw [hcode, threadRoot, List.mem_singleton] at hmem
        rw [hmem] at hinstr
        cases hinstr
  | exec =>
    obtain ⟨instr', rest, hcode, h⟩ := exec_ok h
    obtain ⟨-, pushed, hcode', hre⟩ := exec_withRest_rearranged h
    rw [hcode'] at hmem
    by_cases ht : t = k.currentThread
    · rw [ht, Function.update_self] at hmem
      rcases List.mem_append.mp hmem with hmem | hmem
      · -- the only synchronising instruction that is pushed is the retry of a test that failed
        rcases hre.mem_pushed hmem with rfl | rfl | ⟨s, rfl, hs⟩
        · cases hinstr
        · cases hinstr
        · refine .inr ⟨ht, .inr ⟨s, rfl, ?_⟩⟩
          unfold Tests
          rw [executes_iff hcode, executes_iff hcode]
          exact hs
      · rw [ht, hcode]
        exact .inl (List.mem_cons_of_mem instr' hmem)
    · rw [Function.update_of_ne ht] at hmem
      exact .inl hmem
  | tick handlers =>
    -- what a tick may push is a `Yield`, which synchronises nothing
    obtain ⟨rest, hcode, h⟩ := tick_ok h
    obtain ⟨k₁, pushed, -, hpushed, rfl⟩ := tick_frame h
    have hmem : instr ∈ Function.update k.code k.currentThread (pushed ++ rest) t := hmem
    refine .inl ?_
    by_cases ht : t = k.currentThread
    · rw [ht, Function.update_self] at hmem
      rw [ht, hcode]
      rcases List.mem_append.mp hmem with hmem | hmem
      · rcases hpushed with rfl | rfl
        · cases hmem
        · simp only [threadYield, List.mem_cons, List.not_mem_nil, or_false] at hmem
          rcases hmem with rfl | rfl | rfl <;> cases hinstr
      · exact List.mem_cons_of_mem _ hmem
    · rwa [Function.update_of_ne ht] at hmem
  | idle handlers =>
    obtain ⟨k₁, hhandle, h⟩ := bind_ok_iff.mp (idle_ok h)
    obtain ⟨-, hcode, -⟩ := handle_frame hhandle
    rw [← pure_ok_iff.mp h] at hmem
    have hmem : instr ∈ k₁.code t := hmem
    rw [hcode] at hmem
    exact .inl hmem

/-- An instruction stays in the code of a thread until it is executed. -/
theorem step_kept (hplaced : Placed k) (h : k.step e = .ok k')
    (hinstr : instr.synchronises = true) (hcreated : k.created t = true)
    (hmem : instr ∈ k.code t) :
    instr ∈ k'.code t ∨ (t = k.currentThread ∧ Executes instr k e) := by
  by_cases ht : t = k.currentThread
  · subst ht
    cases e with
    | call c =>
      rw [(call_called hplaced.current h).outside] at hmem
      cases hmem
    | exec =>
      obtain ⟨instr', rest, hcode, h⟩ := exec_ok h
      obtain ⟨-, pushed, hcode', -⟩ := exec_withRest_rearranged h
      rw [hcode] at hmem
      rw [hcode', Function.update_self]
      rcases List.mem_cons.mp hmem with rfl | hmem
      · exact .inr ⟨rfl, executes_exec hcode⟩
      · exact .inl (List.mem_append_right pushed hmem)
    | tick handlers =>
      obtain ⟨rest, hcode, h⟩ := tick_ok h
      obtain ⟨k₁, pushed, -, -, rfl⟩ := tick_frame h
      rw [hcode] at hmem
      refine .inl ?_
      show instr ∈ Function.update k.code k.currentThread (pushed ++ rest) k.currentThread
      rw [Function.update_self]
      rcases List.mem_cons.mp hmem with rfl | hmem
      · cases hinstr
      · exact List.mem_append_right pushed hmem
    | idle handlers =>
      obtain ⟨k₁, hhandle, h⟩ := bind_ok_iff.mp (idle_ok h)
      obtain ⟨-, hcode, -⟩ := handle_frame hhandle
      rw [← pure_ok_iff.mp h]
      refine .inl ?_
      show instr ∈ k₁.code k.currentThread
      rw [hcode]
      exact hmem
  · rw [step_code hplaced hcreated ht h]
    exact .inl hmem

/-- A thread has the test of a semaphore in its code from the call on. -/
theorem WillTest.old {s : SemId} (hplaced : Placed k) (h : k.step e = .ok k')
    (htest : WillTest s (k'.code t)) : WillTest s (k.code t) ∨
      (t = k.currentThread ∧ ∃ c, e = .call c ∧ WillTest s c.routine) := by
  rcases htest with hmem | hmem
  · rcases step_old hplaced h rfl hmem with hmem | ⟨ht, ⟨c, he, hmem⟩ | ⟨s', hs, -⟩⟩
    · exact .inl (.inl hmem)
    · exact .inr ⟨ht, c, he, .inl hmem⟩
    · cases hs
  · rcases step_old hplaced h rfl hmem with hmem | ⟨ht, ⟨c, he, hmem⟩ | ⟨s', hs, htests⟩⟩
    · exact .inl (.inr hmem)
    · exact .inr ⟨ht, c, he, .inr hmem⟩
    · cases hs
      rw [ht]
      exact .inl htests.willTest

/-! ## A lock -/

/-- The loop of `P` either enters the lock, if it is free, or sleeps. -/
theorem takeOrSleep_inside {l : ℕ}
    (hvalue : (k.semaphore (.lock l)).value = 1 - (k.lock l).inside.length)
    (hsingle : (k.lock l).inside.length ≤ 1) :
    ((k.takeOrSleep (.lock l)).lock l).inside = (k.lock l).inside ∨
      ((k.lock l).inside = [] ∧
        ((k.takeOrSleep (.lock l)).lock l).inside = [k.currentThread]) := by
  unfold takeOrSleep
  dsimp only
  split
  · exact .inl rfl
  · have hnobody : (k.lock l).inside = [] := List.length_eq_zero_iff.mp (by omega)
    refine .inr ⟨hnobody, ?_⟩
    show (Function.update k.lock l _ l).inside = _
    rw [Function.update_self]
    show k.currentThread :: (k.lock l).inside = _
    rw [hnobody]

/-- Who is inside a lock after an instruction; only `P` and `V` on its semaphore change it. -/
theorem exec_inside {l : ℕ} (hexcl : Exclusive l k)
    (hcode : k.code k.currentThread = instr :: rest)
    (h : (k.withRest rest).exec instr = .ok k') :
    ((k'.lock l).inside = (k.lock l).inside ∧ instr ≠ .v (.lock l)) ∨
    ((instr = .p (.lock l) ∨ instr = .pRetry (.lock l)) ∧ (k.lock l).inside = [] ∧
      (k'.lock l).inside = [k.currentThread]) ∨
    (instr = .v (.lock l) ∧ (k.lock l).inside = [k.currentThread] ∧
      (k'.lock l).inside = []) := by
  by_cases htouches : Touches l instr
  · cases instr with
    | p s =>
      obtain rfl : s = .lock l := htouches
      cases h
      rcases takeOrSleep_inside (k := k.withRest rest) hexcl.value hexcl.single with h | h
      · exact .inl ⟨h, by simp⟩
      · exact .inr (.inl ⟨.inl rfl, h⟩)
    | pRetry s =>
      obtain rfl : s = .lock l := htouches
      cases h
      have hvalue : (((k.withRest rest).resumed (.lock l)).semaphore (.lock l)).value =
          1 - (k.lock l).inside.length := by
        show (Function.update k.semaphore (.lock l) _ (.lock l)).value = _
        rw [Function.update_self]
        exact hexcl.value
      rcases takeOrSleep_inside (k := (k.withRest rest).resumed (.lock l)) hvalue hexcl.single
        with h | h
      · exact .inl ⟨h, by simp⟩
      · exact .inr (.inl ⟨.inr rfl, h⟩)
    | v s =>
      obtain rfl : s = .lock l := htouches
      exact .inr (.inr ⟨rfl, hexcl.inside_eq (hexcl.inside_of_v hcode),
        exec_v_inside hexcl hcode h⟩)
    | setOwner l' =>
      obtain rfl : l' = l := htouches
      cases h
      rw [setLock_lock_self]
      exact .inl ⟨rfl, by simp⟩
    | clearOwner l' =>
      obtain rfl : l' = l := htouches
      cases h
      rw [setLock_lock_self]
      exact .inl ⟨rfl, by simp⟩
    | _ => exact absurd htouches id
  · -- an instruction that is not about this lock
    rw [(exec_quiet htouches h).lock]
    refine .inl ⟨rfl, ?_⟩
    rintro rfl
    exact htouches rfl

/-- A thread enters a lock by the test in `P` when nobody is inside, and leaves it by the `V`. -/
theorem step_inside {l : ℕ} (hexcl : Exclusive l k) (h : k.step e = .ok k') :
    ((k'.lock l).inside = (k.lock l).inside ∧ ¬ Executes (.v (.lock l)) k e) ∨
    (Tests (.lock l) k e ∧ (k.lock l).inside = [] ∧
      (k'.lock l).inside = [k.currentThread]) ∨
    (Executes (.v (.lock l)) k e ∧ (k.lock l).inside = [k.currentThread] ∧
      (k'.lock l).inside = []) := by
  cases e with
  | call c =>
    obtain ⟨-, k₁, rfl, hk₁⟩ := call_ok h
    have hlock : k₁.lock = k.lock := by
      rcases hk₁ with ⟨rfl, -⟩ | ⟨t, -, hnew⟩
      · rfl
      · obtain ⟨-, rfl⟩ := newThread_ok hnew
        rfl
    refine .inl ⟨?_, by simp [Executes]⟩
    show (k₁.lock l).inside = _
    rw [hlock]
  | exec =>
    obtain ⟨instr, rest, hcode, h⟩ := exec_ok h
    unfold Tests
    rw [executes_iff hcode, executes_iff hcode, executes_iff hcode]
    exact exec_inside hexcl hcode h
  | tick handlers =>
    obtain ⟨rest, -, h⟩ := tick_ok h
    exact .inl ⟨congrArg Lock.inside (tick_quiet h).lock, by simp [Executes]⟩
  | idle handlers =>
    exact .inl ⟨congrArg Lock.inside (idle_quiet (idle_ok h)).lock, by simp [Executes]⟩

/-! ## A semaphore -/

/-- With the value 0 the thread goes to sleep, and will test again. -/
theorem takeOrSleep_sleeps {s : SemId} (hzero : (k.semaphore s).value = 0) :
    ((k.takeOrSleep s).semaphore s).value = 0 ∧ (k.takeOrSleep s).code =
      Function.update k.code k.currentThread (.sleep :: .pRetry s :: k.code k.currentThread) := by
  unfold takeOrSleep
  dsimp only
  rw [if_pos hzero]
  refine ⟨?_, rfl⟩
  show (Function.update k.semaphore s _ s).value = 0
  rw [Function.update_self]
  exact hzero

/-- Otherwise it takes a unit. -/
theorem takeOrSleep_takes {s : SemId} (hvalue : (k.semaphore s).value ≠ 0) :
    ((k.takeOrSleep s).semaphore s).value = (k.semaphore s).value - 1 ∧
      (k.takeOrSleep s).code = k.code := by
  unfold takeOrSleep
  dsimp only
  rw [if_neg hvalue]
  refine ⟨?_, enter_code _ s⟩
  rw [enter_semaphore]
  show (Function.update k.semaphore s _ s).value = _
  rw [Function.update_self]

theorem takeOrSleep_others {s s' : SemId} (hs : s' ≠ s) :
    (k.takeOrSleep s).semaphore s' = k.semaphore s' := by
  unfold takeOrSleep
  dsimp only
  split
  · exact Function.update_of_ne hs _ _
  · rw [enter_semaphore]
    exact Function.update_of_ne hs _ _

/-- The value is not touched when a thread is woken. -/
theorem resumed_value (s s' : SemId) :
    ((k.resumed s).semaphore s').value = (k.semaphore s').value := by
  show (Function.update k.semaphore s _ s').value = _
  by_cases hs : s' = s
  · rw [hs, Function.update_self]
  · rw [Function.update_of_ne hs]

/-- The test of a semaphore: the thread goes to sleep and will test it again, or takes a unit. -/
theorem exec_tests {s : SemId} (hinstr : instr = .p s ∨ instr = .pRetry s)
    (h : (k.withRest rest).exec instr = .ok k') :
    ((k.semaphore s).value = 0 ∧ (k'.semaphore s).value = 0 ∧
      k'.code k.currentThread = .sleep :: .pRetry s :: rest) ∨
    ((k.semaphore s).value ≠ 0 ∧ (k'.semaphore s).value = (k.semaphore s).value - 1 ∧
      k'.code k.currentThread = rest) := by
  have htest : ∀ k₁ : Kernel, k₁.currentThread = k.currentThread →
      k₁.code k.currentThread = rest → (k₁.semaphore s).value = (k.semaphore s).value →
      k' = k₁.takeOrSleep s →
      ((k.semaphore s).value = 0 ∧ (k'.semaphore s).value = 0 ∧
        k'.code k.currentThread = .sleep :: .pRetry s :: rest) ∨
      ((k.semaphore s).value ≠ 0 ∧ (k'.semaphore s).value = (k.semaphore s).value - 1 ∧
        k'.code k.currentThread = rest) := by
    intro k₁ hcur hcode hvalue hk'
    subst hk'
    by_cases hzero : (k.semaphore s).value = 0
    · obtain ⟨hvalue', hcode'⟩ := takeOrSleep_sleeps (hvalue.trans hzero)
      refine .inl ⟨hzero, hvalue', ?_⟩
      rw [hcode', hcur, Function.update_self, hcode]
    · have hne : (k₁.semaphore s).value ≠ 0 := by
        rw [hvalue]
        exact hzero
      obtain ⟨hvalue', hcode'⟩ := takeOrSleep_takes hne
      refine .inr ⟨hzero, ?_, ?_⟩
      · rw [hvalue', hvalue]
      · rw [hcode', hcode]
  rcases hinstr with rfl | rfl
  · cases h
    exact htest (k.withRest rest) rfl (withRest_code_self k rest) rfl rfl
  · cases h
    exact htest ((k.withRest rest).resumed s) rfl (withRest_code_self k rest)
      (resumed_value s s) rfl

/-- Only the test and the `V` of a semaphore change its value. -/
theorem exec_value {s : SemId} (h : k.exec instr = .ok k') (hv : instr ≠ .v s)
    (hp : instr ≠ .p s) (hretry : instr ≠ .pRetry s) :
    (k'.semaphore s).value = (k.semaphore s).value := by
  -- the instructions on other semaphores, `Destroy`, and those that only move threads
  cases instr with
  | setLevel now =>
    cases h
    rw [setLevel_semaphore]
  | saveLevel =>
    cases h
    rw [setLevel_semaphore]
    rfl
  | restoreLevel =>
    rw [exec] at h
    split at h
    · cases h
    · cases h
      rw [setLevel_semaphore]
      rfl
  | oneTick => cases h
  | p s' =>
    cases h
    have hs : s ≠ s' := fun hs => hp (by rw [hs])
    rw [takeOrSleep_others hs]
  | pRetry s' =>
    cases h
    have hs : s ≠ s' := fun hs => hretry (by rw [hs])
    rw [takeOrSleep_others hs, resumed_value]
  | v s' =>
    obtain ⟨k₁, hinc, h⟩ := bind_ok_iff.mp h
    cases h
    have hs : s ≠ s' := fun hs => hv (by rw [hs])
    obtain ⟨-, -, -, -, hothers⟩ := increment_frame hinc
    rw [leave_semaphore, hothers s hs]
  | destroy s' =>
    -- the queue is emptied and the value stays
    cases h
    show (Function.update k.semaphore s' _ s).value = _
    by_cases hs : s = s'
    · subst hs
      rw [Function.update_self]
    · rw [Function.update_of_ne hs]
  | signal c =>
    rw [exec] at h
    split at h <;>
    · cases h
      rfl
  | yieldCPU =>
    rw [exec] at h
    split at h
    · cases h
      rfl
    · cases h
      rw [run_semaphore]
      rfl
  | sleep =>
    rw [exec] at h
    split at h
    · cases h
    · split at h
      · cases h
      · cases h
        rw [run_semaphore]
  | _ =>
    cases h
    rfl

/-- The `V` operations that devices do on the semaphore in the step. -/
def Event.deviceV (n : ℕ) : Event → ℕ
  | .tick handlers | .idle handlers => handlers.count (.v n)
  | .call _ | .exec => 0

/-- The handlers of an interrupt add what they signal. -/
theorem handle_value {n : ℕ} {handlers : List Handler} (h : k.handle handlers = .ok k') :
    (k'.semaphore (.user n)).value =
      (k.semaphore (.user n)).value + (handlers.count (.v n) : ℕ) := by
  induction handlers generalizing k with
  | nil =>
    cases h
    simp
  | cons handler handlers ih =>
    cases handler with
    | v m =>
      obtain ⟨k₁, hinc, h⟩ := bind_ok_iff.mp h
      obtain ⟨-, -, -, hvalue, hothers⟩ := increment_frame hinc
      rw [ih h]
      by_cases hm : m = n
      · subst hm
        rw [hvalue, List.count_cons_self]
        omega
      · rw [hothers _ (by simpa using Ne.symm hm), List.count_cons_of_ne (by simpa using hm)]
    | timer =>
      rw [List.count_cons_of_ne (by simp)]
      exact ih (k := { k with yieldOnReturn := true }) h

/-- The running thread tests the semaphore in the step and goes on. -/
def TakesUnit (s : SemId) (k : Kernel) (e : Event) : Prop :=
  Tests s k e ∧ (k.semaphore s).value ≠ 0

theorem not_tests (he : e ≠ .exec) (s : SemId) : ¬ Tests s k e := by
  unfold Tests Executes
  simp [he]

/-- What the running thread and the devices do to the value of a semaphore. -/
theorem step_value {n : ℕ} (h : k.step e = .ok k') (hv : ¬ Executes (.v (.user n)) k e) :
    (TakesUnit (.user n) k e ∧ e.deviceV n = 0 ∧
      (k'.semaphore (.user n)).value = (k.semaphore (.user n)).value - 1) ∨
    (¬ TakesUnit (.user n) k e ∧
      (k'.semaphore (.user n)).value = (k.semaphore (.user n)).value + e.deviceV n) := by
  cases e with
  | call c =>
    obtain ⟨-, k₁, rfl, hk₁⟩ := call_ok h
    have hsem : k₁.semaphore = k.semaphore := by
      rcases hk₁ with ⟨rfl, -⟩ | ⟨t, -, hnew⟩
      · rfl
      · obtain ⟨-, rfl⟩ := newThread_ok hnew
        rfl
    refine .inr ⟨fun htakes => not_tests (by simp) _ htakes.1, ?_⟩
    show (k₁.semaphore _).value = _
    rw [hsem]
    exact (Int.add_zero _).symm
  | exec =>
    obtain ⟨instr, rest, hcode, h⟩ := exec_ok h
    rw [executes_iff hcode] at hv
    unfold TakesUnit Tests
    rw [executes_iff hcode, executes_iff hcode]
    by_cases hinstr : instr = .p (.user n) ∨ instr = .pRetry (.user n)
    · rcases exec_tests hinstr h with ⟨hzero, hvalue, -⟩ | ⟨hne, hvalue, -⟩
      · refine .inr ⟨fun htakes => htakes.2 hzero, ?_⟩
        rw [hvalue, hzero]
        rfl
      · exact .inl ⟨⟨hinstr, hne⟩, rfl, hvalue⟩
    · refine .inr ⟨fun htakes => hinstr htakes.1, ?_⟩
      rw [not_or] at hinstr
      rw [exec_value h hv hinstr.1 hinstr.2]
      exact (Int.add_zero _).symm
  | tick handlers =>
    obtain ⟨rest, -, h⟩ := tick_ok h
    obtain ⟨k₁, pushed, hhandle, -, rfl⟩ := tick_frame h
    have hvalue := handle_value (n := n) hhandle
    exact .inr ⟨fun htakes => not_tests (by simp) _ htakes.1, hvalue⟩
  | idle handlers =>
    obtain ⟨k₁, hhandle, h⟩ := bind_ok_iff.mp (idle_ok h)
    rw [← pure_ok_iff.mp h]
    have hvalue := handle_value (n := n) hhandle
    exact .inr ⟨fun htakes => not_tests (by simp) _ htakes.1, hvalue⟩

/-- The tests of the semaphore that are left in the code. -/
def testsLeft (s : SemId) (code : List Instr) : ℕ :=
  code.countP fun instr => decide (instr = .p s ∨ instr = .pRetry s)

theorem testsLeft_append (s : SemId) (code code' : List Instr) :
    testsLeft s (code ++ code') = testsLeft s code + testsLeft s code' := List.countP_append

/-- The tests that a thread still has to make, instruction by instruction. -/
theorem testsLeft_cons (s : SemId) (instr : Instr) (code : List Instr) :
    testsLeft s (instr :: code) = testsLeft s code +
      if instr = .p s ∨ instr = .pRetry s then 1 else 0 := by
  unfold testsLeft
  rw [List.countP_cons]
  simp

/-- Code that an instruction pushes tests no semaphore. -/
theorem testsLeft_pushed {place place₁ : Place → List ℕ} {current current₁ : ℕ}
    {pushed : List Instr} {s : SemId}
    (hre : Rearranged place current instr pushed place₁ current₁)
    (hinstr : ¬ (instr = .p s ∨ instr = .pRetry s)) : testsLeft s pushed = 0 := by
  unfold testsLeft
  rw [List.countP_eq_zero]
  intro x hx
  rcases hre.mem_pushed hx with rfl | rfl | ⟨s', rfl, hs'⟩
  · simp
  · simp
  · simp only [reduceCtorEq, Instr.pRetry.injEq, false_or, decide_eq_true_eq]
    rintro rfl
    exact hinstr hs'

/-- A thread that has taken a unit has one test less to do. -/
theorem step_testsLeft {s : SemId} (hplaced : Placed k) (h : k.step e = .ok k')
    (hcreated : k.created t = true) (hsilent : Silent t k e) :
    (t = k.currentThread ∧ TakesUnit s k e ∧
      testsLeft s (k.code t) = testsLeft s (k'.code t) + 1) ∨
    (¬ (t = k.currentThread ∧ TakesUnit s k e) ∧
      testsLeft s (k'.code t) = testsLeft s (k.code t)) := by
  by_cases ht : t = k.currentThread
  · subst ht
    cases e with
    | call c => exact absurd rfl (hsilent rfl c)
    | exec =>
      obtain ⟨instr, rest, hcode, h⟩ := exec_ok h
      unfold TakesUnit Tests
      rw [executes_iff hcode, executes_iff hcode, hcode, testsLeft_cons]
      -- a test that finds 0 is left to be made again, and one that does not is over
      by_cases hinstr : instr = .p s ∨ instr = .pRetry s
      · rw [if_pos hinstr]
        rcases exec_tests hinstr h with ⟨hzero, -, hcode'⟩ | ⟨hne, -, hcode'⟩
        · rw [hcode', testsLeft_cons, testsLeft_cons]
          exact .inr ⟨fun htakes => htakes.2.2 hzero, by simp⟩
        · rw [hcode']
          exact .inl ⟨rfl, ⟨hinstr, hne⟩, rfl⟩
      · rw [if_neg hinstr]
        obtain ⟨-, pushed, hcode', hre⟩ := exec_withRest_rearranged h
        refine .inr ⟨fun htakes => hinstr htakes.2.1, ?_⟩
        rw [hcode', Function.update_self, testsLeft_append, testsLeft_pushed hre hinstr]
        omega
    | tick handlers =>
      obtain ⟨rest, hcode, h⟩ := tick_ok h
      obtain ⟨k₁, pushed, -, hpushed, rfl⟩ := tick_frame h
      refine .inr ⟨fun htakes => not_tests (by simp) _ htakes.2.1, ?_⟩
      show testsLeft s (Function.update k.code k.currentThread (pushed ++ rest) _) = _
      rw [Function.update_self, hcode, testsLeft_append, testsLeft_cons]
      rcases hpushed with rfl | rfl
      · simp [testsLeft]
      · simp [testsLeft, threadYield]
    | idle handlers =>
      obtain ⟨k₁, hhandle, h⟩ := bind_ok_iff.mp (idle_ok h)
      obtain ⟨-, hcode, -⟩ := handle_frame hhandle
      rw [← pure_ok_iff.mp h]
      refine .inr ⟨fun htakes => not_tests (by simp) _ htakes.2.1, ?_⟩
      show testsLeft s (k₁.code _) = _
      rw [hcode]
  · -- the code of the other threads is not touched
    rw [step_code hplaced hcreated ht h]
    exact .inr ⟨fun hcur => ht hcur.1, rfl⟩

/-- No test is left exactly if the code has none. -/
theorem testsLeft_eq_zero {s : SemId} {code : List Instr} :
    testsLeft s code = 0 ↔ ¬ WillTest s code := by
  unfold testsLeft WillTest
  rw [List.countP_eq_zero, not_or]
  constructor
  · intro h
    exact ⟨fun hmem => by simpa using h _ hmem, fun hmem => by simpa using h _ hmem⟩
  · intro h instr hmem hinstr
    rcases of_decide_eq_true hinstr with rfl | rfl
    · exact h.1 hmem
    · exact h.2 hmem

/-- The running thread that takes a unit had a test to do. -/
theorem TakesUnit.testsLeft_ne_zero {s : SemId} (h : TakesUnit s k e) :
    testsLeft s (k.code k.currentThread) ≠ 0 := fun hzero =>
  testsLeft_eq_zero.mp hzero h.1.willTest

/-! ## The semaphore of a device -/

/-- Of the calls only `P` on a semaphore of the program tests it. -/
theorem not_willTest_routine_of_ne {n : ℕ} {c : Call} (hp : c ≠ .p n) :
    ¬ WillTest (.user n) c.routine := by
  cases c with
  | p m =>
    have hne : ¬ n = m := fun h => hp (congrArg _ h.symm)
    simp [Call.routine, semaphoreP, WillTest, hne]
  | _ =>
    simp [Call.routine, semaphoreV, semaphoreP, semaphoreDestroy, lockAcquire, lockRelease,
      conditionWait, conditionSignal, conditionBroadcast, threadYield, threadFork, threadFinish,
      WillTest]

theorem not_mem_routine_of_ne {n : ℕ} {c : Call} (hv : c ≠ .v n) :
    .v (.user n) ∉ c.routine := by
  cases c with
  | v m =>
    have hne : ¬ n = m := fun h => hv (congrArg _ h.symm)
    simp [Call.routine, semaphoreV, hne]
  | _ =>
    simp [Call.routine, semaphoreV, semaphoreP, semaphoreDestroy, lockAcquire, lockRelease,
      conditionWait, conditionSignal, conditionBroadcast, threadYield, threadFork, threadFinish]

/-- As long as no thread calls `V`, none is in it. -/
theorem step_quiet {n : ℕ} (hplaced : Placed k) (h : k.step e = .ok k')
    (hcalls : ∀ c, e = .call c → c ≠ .v n) (hquiet : ∀ t, .v (.user n) ∉ k.code t) (t : ℕ) :
    .v (.user n) ∉ k'.code t := by
  intro hmem
  rcases step_old hplaced h rfl hmem with hmem | ⟨-, ⟨c, he, hmem⟩ | ⟨_, hp, -⟩⟩
  · exact hquiet t hmem
  · exact not_mem_routine_of_ne (hcalls c he) hmem
  · cases hp

/-- No test comes into the code of a thread that has none and does not call `P`. -/
theorem step_testsLeft_zero {n : ℕ} (hplaced : Placed k) (h : k.step e = .ok k')
    (hcalls : ∀ c, e = .call c → c ≠ .p n) (hzero : testsLeft (.user n) (k.code t) = 0) :
    testsLeft (.user n) (k'.code t) = 0 := by
  rw [testsLeft_eq_zero] at hzero ⊢
  intro htest
  rcases htest.old hplaced h with htest | ⟨-, c, he, htest⟩
  · exact hzero htest
  · exact not_willTest_routine_of_ne (hcalls c he) htest

/-- The threads other than the one that calls a routine. -/
theorem Called.code_eq {c : Call} (hcalled : Called k c k') (ht : t ≠ k.currentThread)
    (hcreated : k.created t = true) : k'.code t = k.code t := by
  rcases hcalled.others t ht with hcode | ⟨hnew, -⟩
  · exact hcode
  · rw [hcreated] at hnew
    cases hnew

/-- A call by another thread adds no test. -/
theorem Called.testsLeft_zero {c : Call} {s : SemId} (hcalled : Called k c k')
    (ht : t ≠ k.currentThread) (hzero : testsLeft s (k.code t) = 0) :
    testsLeft s (k'.code t) = 0 := by
  rcases hcalled.others t ht with hcode | ⟨-, hcode⟩
  · rw [hcode]
    exact hzero
  · rw [hcode]
    rfl

end

end Kernel
end NachOS
