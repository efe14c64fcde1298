import NachOS.Lib.Costs
import NachOS.Threads.Whereabouts
import Mathlib.Algebra.GroupWithZero.Nat
import Mathlib.Algebra.Order.BigOperators.Group.Finset

/-!
# How much the kernel works

A thread that has been woken in `P` may find the value taken, and goes back to sleep. How often it
does is bounded all the same: each time somebody has taken it out of the queue. So whatever the
schedule, the kernel executes no more instructions than its routines have, with one more round of
the loop for every `V` and for every thread that `Destroy` wakes, and a `Yield` for every interrupt
of the timer.
-/

namespace NachOS

/-- An instruction, and what it can put before the rest of the code or make another thread do. -/
def Instr.work : Instr → ℕ
  | .v _ => 3
  | .p _ | .pRetry _ | .setLevel _ | .restoreLevel => 2
  | _ => 1

/-- A round of the loop in `P`: `Sleep` and the test. -/
def roundWork : ℕ := 2

/-- The work in some code. -/
def codeWork (code : List Instr) : ℕ := (code.map Instr.work).sum

/-- The work of a routine is the sum of its instructions' work. -/
theorem codeWork_append (code code' : List Instr) :
    codeWork (code ++ code') = codeWork code + codeWork code' := by
  rw [codeWork, List.map_append, List.sum_append]
  rfl

theorem codeWork_cons (instr : Instr) (code : List Instr) :
    codeWork (instr :: code) = instr.work + codeWork code := rfl

theorem Instr.work_pos (instr : Instr) : 1 ≤ instr.work := by
  cases instr <;> exact Nat.succ_le_succ (Nat.zero_le _)

namespace Kernel

open PartialRun Placement

/-! ## What is charged -/

/-- What a call is charged for: its routine, and what a new thread does before it is started. -/
def Call.charge : Call → ℕ
  | .fork t => codeWork (threadFork t) + codeWork threadRoot
  | c => codeWork c.routine

def Handler.charge : Handler → ℕ
  | .v _ => roundWork
  | .timer => codeWork threadYield

/-- What a step is charged for. -/
def charge (k : Kernel) : Event → ℕ
  | .call c => c.charge
  | .exec =>
    match k.code k.currentThread with
    | .destroy s :: _ => roundWork * (k.semaphore s).queue.length
    | _ => 0
  | .tick handlers | .idle handlers => (handlers.map Handler.charge).sum

/-- The kernel executes an instruction, or `OneTick`. -/
def Event.works : Event → Bool
  | .exec | .tick _ => true
  | .call _ | .idle _ => false

/-- The thread is in the queue of a semaphore. -/
def Queued (t : ℕ) (k : Kernel) : Prop := ∃ s, t ∈ (k.semaphore s).queue

open Classical in
/-- The work that a thread has ahead. If it is in a queue, whoever takes it out pays for the next
round of the loop. -/
noncomputable def ahead (k : Kernel) (t : ℕ) : ℕ :=
  codeWork (k.code t) - if Queued t k then roundWork else 0

/-- The `Yield` of the timer is still to come. -/
def yieldAhead (k : Kernel) : ℕ := if k.yieldOnReturn then codeWork threadYield else 0

/-- The work ahead of some threads. -/
noncomputable def workAhead (threads : Finset ℕ) (k : Kernel) : ℕ :=
  threads.sum k.ahead + k.yieldAhead

section

variable {k k' : Kernel} {e : Event} {t : ℕ}

/-- A thread that waits in no queue has all its work ahead. -/
theorem ahead_of_not_queued (h : ¬ Queued t k) : k.ahead t = codeWork (k.code t) := by
  rw [ahead, if_neg h, Nat.sub_zero]

/-- One that waits will go on one round less. -/
theorem ahead_of_queued (h : Queued t k) : k.ahead t = codeWork (k.code t) - roundWork := by
  rw [ahead, if_pos h]

theorem ahead_le (k : Kernel) (t : ℕ) : k.ahead t ≤ codeWork (k.code t) := Nat.sub_le _ _

/-- A thread that keeps its code has no more work ahead, unless it leaves a queue. -/
theorem ahead_le_of_code {woken : List ℕ} (hcode : k'.code t = k.code t)
    (hqueued : Queued t k → Queued t k' ∨ t ∈ woken) :
    k'.ahead t ≤ k.ahead t + if t ∈ woken then roundWork else 0 := by
  by_cases hold : Queued t k
  · rw [ahead_of_queued hold]
    rcases hqueued hold with hnew | hwoken
    · rw [ahead_of_queued hnew, hcode]
      exact Nat.le_add_right _ _
    · -- its next round is not paid for any more
      rw [if_pos hwoken]
      have hle := ahead_le k' t
      rw [hcode] at hle
      omega
  · rw [ahead_of_not_queued hold, ← hcode]
    exact (ahead_le k' t).trans (Nat.le_add_right _ _)

/-- What a step does to the work ahead: that of the running thread changes by `more` and `less`,
and the others have a round more each if they are among the woken ones. -/
structure Pays (k k' : Kernel) (woken : List ℕ) (more less : ℕ) : Prop where
  current : k'.ahead k.currentThread + less ≤ k.ahead k.currentThread + more
  others : ∀ t, t ≠ k.currentThread →
    k'.ahead t ≤ k.ahead t + if t ∈ woken then roundWork else 0

/-- A thread that is woken costs one round of the loop in `P`. -/
theorem sum_woken_le (threads : Finset ℕ) (woken : List ℕ) :
    threads.sum (fun t => if t ∈ woken then roundWork else 0) ≤ roundWork * woken.length := by
  rw [← Finset.sum_filter, Finset.sum_const_nat fun _ _ => rfl, Nat.mul_comm]
  refine Nat.mul_le_mul_left _ ?_
  have hsub : threads.filter (· ∈ woken) ⊆ woken.toFinset := by
    intro t ht
    exact List.mem_toFinset.mpr (Finset.mem_filter.mp ht).2
  exact (Finset.card_le_card hsub).trans (List.toFinset_card_le woken)

/-- The work ahead of all threads together. -/
theorem Pays.sum {threads : Finset ℕ} {woken : List ℕ} {more less : ℕ}
    (h : Pays k k' woken more less) (hcur : k.currentThread ∈ threads) :
    threads.sum k'.ahead + less ≤ threads.sum k.ahead + more + roundWork * woken.length := by
  have hothers : (threads.erase k.currentThread).sum k'.ahead ≤
      (threads.erase k.currentThread).sum k.ahead + roundWork * woken.length := by
    calc (threads.erase k.currentThread).sum k'.ahead
        ≤ (threads.erase k.currentThread).sum
            (fun t => k.ahead t + if t ∈ woken then roundWork else 0) :=
          Finset.sum_le_sum fun t ht => h.others t (Finset.ne_of_mem_erase ht)
      _ = (threads.erase k.currentThread).sum k.ahead +
            (threads.erase k.currentThread).sum (fun t => if t ∈ woken then roundWork else 0) :=
          Finset.sum_add_distrib
      _ ≤ _ := Nat.add_le_add_left (sum_woken_le _ woken) _
  have hafter : (threads.erase k.currentThread).sum k'.ahead + k'.ahead k.currentThread =
      threads.sum k'.ahead := Finset.sum_erase_add threads k'.ahead hcur
  have hbefore : (threads.erase k.currentThread).sum k.ahead + k.ahead k.currentThread =
      threads.sum k.ahead := Finset.sum_erase_add threads k.ahead hcur
  have hcurrent := h.current
  omega

/-! ## Instructions -/

/-- Outside of the loop in `P`, an instruction is worth more than what it puts before the rest of
the code. -/
theorem Rearranged.codeWork {place place₁ : Place → List ℕ} {current current₁ : ℕ} {instr : Instr}
    {pushed : List Instr} (h : Rearranged place current instr pushed place₁ current₁)
    (hp : ∀ s, instr ≠ .p s ∧ instr ≠ .pRetry s) : codeWork pushed + 1 ≤ instr.work := by
  cases h with
  | same _ hpushed =>
    rcases hpushed with rfl | ⟨rfl, rfl | rfl⟩
    · exact instr.work_pos
    · exact Nat.le_refl 2
    · exact Nat.le_refl 2
  | @queued _ s hinstr =>
    rcases hinstr with rfl | rfl
    · exact absurd rfl (hp s).1
    · exact absurd rfl (hp s).2
  | _ => exact Instr.work_pos _

/-- Going to sleep takes no thread out of a queue. -/
theorem takeOrSleep_queued (s : SemId) (h : Queued t k) : Queued t (k.takeOrSleep s) := by
  obtain ⟨s', hmem⟩ := h
  refine ⟨s', ?_⟩
  by_cases hs : s' = s
  · subst hs
    by_cases hzero : (k.semaphore s').value = 0
    · rw [takeOrSleep_queue hzero]
      exact List.mem_append_left _ hmem
    · unfold takeOrSleep
      dsimp only
      rw [if_neg hzero, enter_semaphore]
      show t ∈ (Function.update k.semaphore s' _ s').queue
      rw [Function.update_self]
      exact hmem
  · rw [takeOrSleep_others hs]
    exact hmem

/-- Nor does what `V` does after it has taken one out. -/
theorem resumed_queued (s : SemId) (h : Queued t k) : Queued t (k.resumed s) := by
  obtain ⟨s', hmem⟩ := h
  refine ⟨s', ?_⟩
  show t ∈ (Function.update k.semaphore s _ s').queue
  by_cases hs : s' = s
  · subst hs
    rw [Function.update_self]
    exact hmem
  · rw [Function.update_of_ne hs]
    exact hmem

/-- After the test in `P` the thread has decremented the value, or waits in the queue. -/
theorem takeOrSleep_ahead (k : Kernel) (s : SemId) :
    (k.takeOrSleep s).ahead k.currentThread ≤ codeWork (k.code k.currentThread) + 1 := by
  by_cases hzero : (k.semaphore s).value = 0
  · have hqueued : Queued k.currentThread (k.takeOrSleep s) := by
      refine ⟨s, ?_⟩
      rw [takeOrSleep_queue hzero]
      exact List.mem_append_right _ List.mem_cons_self
    rw [ahead_of_queued hqueued, (takeOrSleep_sleeps hzero).2, Function.update_self,
      codeWork_cons, codeWork_cons]
    simp only [Instr.work, roundWork]
    omega
  · have hle := ahead_le (k.takeOrSleep s) k.currentThread
    rw [(takeOrSleep_takes hzero).2] at hle
    exact hle.trans (Nat.le_succ _)

theorem increment_yieldOnReturn {s : SemId} (h : k.increment s = .ok k') :
    k'.yieldOnReturn = k.yieldOnReturn := by
  unfold increment at h
  dsimp only at h
  split at h
  · cases h
  · split at h <;>
    · cases h
      rfl

theorem takeOrSleep_yieldOnReturn (k : Kernel) (s : SemId) :
    (k.takeOrSleep s).yieldOnReturn = k.yieldOnReturn := by
  unfold takeOrSleep
  dsimp only
  split
  · rfl
  · cases s <;> rfl

theorem setLevel_yieldOnReturn (k : Kernel) (now : IntStatus) :
    (k.setLevel now).yieldOnReturn = k.yieldOnReturn := by
  unfold setLevel
  dsimp only
  split <;> rfl

theorem run_yieldOnReturn (k : Kernel) (u : ℕ) : (k.run u).yieldOnReturn = k.yieldOnReturn := by
  unfold Kernel.run
  split <;> rfl

/-- Only handlers ask for a `Yield`. -/
theorem exec_yieldOnReturn {instr : Instr} (h : k.exec instr = .ok k') :
    k'.yieldOnReturn = k.yieldOnReturn := by
  cases instr with
  | setLevel now =>
    cases h
    exact setLevel_yieldOnReturn _ _
  | saveLevel =>
    cases h
    exact setLevel_yieldOnReturn _ _
  | restoreLevel =>
    rw [exec] at h
    split at h
    · cases h
    · cases h
      exact setLevel_yieldOnReturn _ _
  | oneTick => cases h
  | p s =>
    cases h
    exact takeOrSleep_yieldOnReturn k s
  | pRetry s =>
    cases h
    exact takeOrSleep_yieldOnReturn (k.resumed s) s
  | v s =>
    obtain ⟨k₁, hinc, h⟩ := bind_ok_iff.mp h
    rw [← pure_ok_iff.mp h, ← increment_yieldOnReturn hinc]
    cases s <;> rfl
  | signal c =>
    rw [exec] at h
    split at h <;>
    · cases h
      rfl
  | yieldCPU =>
    rw [exec] at h
    split at h
    · cases h
      rfl
    · cases h
      exact run_yieldOnReturn _ _
  | sleep =>
    rw [exec] at h
    split at h
    · cases h
    · split at h
      · cases h
      · cases h
        exact run_yieldOnReturn _ _
  | _ =>
    cases h
    rfl

/-- `V` takes at most one thread out of the queues. -/
theorem increment_queued {s : SemId} (h : k.increment s = .ok k') : ∃ woken : List ℕ,
    woken.length ≤ 1 ∧ ∀ t, Queued t k → Queued t k' ∨ t ∈ woken := by
  obtain ⟨-, -, -, hplace | ⟨u, us, hqueue, hplace⟩⟩ := increment_rearranged h
  · refine ⟨[], Nat.zero_le 1, fun t hold => .inl ?_⟩
    obtain ⟨s', hmem⟩ := hold
    refine ⟨s', ?_⟩
    show t ∈ k'.place (.queue s')
    rw [hplace]
    exact hmem
  · refine ⟨[u], Nat.le_refl 1, fun t hold => ?_⟩
    obtain ⟨s', hmem⟩ := hold
    have hmem : t ∈ k.place (.queue s') := hmem
    by_cases hs : s' = s
    · subst hs
      rw [hqueue] at hmem
      rcases List.mem_cons.mp hmem with rfl | hmem
      · exact .inr List.mem_cons_self
      · refine .inl ⟨s', ?_⟩
        show t ∈ k'.place (.queue s')
        rw [hplace, Function.update_of_ne (by simp), Function.update_self]
        exact hmem
    · refine .inl ⟨s', ?_⟩
      show t ∈ k'.place (.queue s')
      rw [hplace, Function.update_of_ne (by simp), Function.update_of_ne (by simpa using hs)]
      exact hmem

/-- The handlers take no more threads out of the queues than is charged for, up to the `Yield` that
the timer asks for. -/
theorem handle_queued {handlers : List Handler} (h : k.handle handlers = .ok k') :
    ∃ woken : List ℕ, roundWork * woken.length + k'.yieldAhead ≤
      k.yieldAhead + (handlers.map Handler.charge).sum ∧
      ∀ t, Queued t k → Queued t k' ∨ t ∈ woken := by
  induction handlers generalizing k with
  | nil =>
    cases h
    exact ⟨[], by simp, fun t => .inl⟩
  | cons handler handlers ih =>
    cases handler with
    | v n =>
      obtain ⟨k₁, hinc, h⟩ := bind_ok_iff.mp h
      obtain ⟨first, hone, hfirst⟩ := increment_queued hinc
      obtain ⟨woken, hle, hwoken⟩ := ih h
      have hyield : k₁.yieldAhead = k.yieldAhead := by
        rw [yieldAhead, yieldAhead, increment_yieldOnReturn hinc]
      refine ⟨first ++ woken, ?_, fun t hold => ?_⟩
      · rw [hyield] at hle
        rw [List.length_append, List.map_cons, List.sum_cons, Nat.mul_add]
        simp only [Handler.charge, roundWork] at hle ⊢
        omega
      · rcases hfirst t hold with hkept | hout
        · exact (hwoken t hkept).imp_right (List.mem_append_right first)
        · exact .inr (List.mem_append_left woken hout)
    | timer =>
      obtain ⟨woken, hle, hwoken⟩ := ih (k := { k with yieldOnReturn := true }) h
      refine ⟨woken, ?_, hwoken⟩
      have hyield : ({ k with yieldOnReturn := true } : Kernel).yieldAhead ≤
          k.yieldAhead + codeWork threadYield := Nat.le_add_left _ _
      rw [List.map_cons, List.sum_cons]
      simp only [Handler.charge] at hle ⊢
      omega

/-- An instruction other than a test. The threads that it takes out of the queues are paid for. -/
theorem exec_woken_le {instr : Instr} {rest : List Instr}
    (hcode : k.code k.currentThread = instr :: rest) (hp : ∀ s, instr ≠ .p s ∧ instr ≠ .pRetry s)
    (h : (k.withRest rest).exec instr = .ok k') : ∃ (woken : List ℕ) (less : ℕ),
      codeWork (k'.code k.currentThread) + less ≤ instr.work + codeWork rest ∧
      1 + roundWork * woken.length ≤ less + k.charge .exec ∧
      ∀ t, Queued t k → Queued t k' ∨ t ∈ woken := by
  obtain ⟨-, pushed, hcode', hre⟩ := exec_withRest_rearranged h
  have hwork := hre.codeWork hp
  have hcurrent : codeWork (k'.code k.currentThread) = codeWork pushed + codeWork rest := by
    rw [hcode', Function.update_self, codeWork_append]
  by_cases hv : ∃ s, instr = .v s
  · obtain ⟨s, rfl⟩ := hv
    have hpushed : pushed = [] := hre.pushed_eq_nil (by simp) (by simp) (by simp)
    obtain ⟨k₁, hinc, h⟩ := bind_ok_iff.mp h
    obtain ⟨woken, hone, hwoken⟩ := increment_queued hinc
    -- two of the three units are for the thread that it wakes
    refine ⟨woken, 3, ?_, ?_, fun t hold => ?_⟩
    · rw [hcurrent, hpushed]
      simp only [Instr.work, codeWork, List.map_nil, List.sum_nil]
      omega
    · simp only [roundWork]
      omega
    · have hkept : k'.semaphore = k₁.semaphore := by
        rw [← pure_ok_iff.mp h, leave_semaphore]
      unfold Queued
      rw [hkept]
      exact hwoken t hold
  · by_cases hdestroy : ∃ s, instr = .destroy s
    · obtain ⟨s, rfl⟩ := hdestroy
      have hcharge : k.charge .exec = roundWork * (k.semaphore s).queue.length := by
        rw [charge, hcode]
      cases h
      refine ⟨(k.semaphore s).queue, 1, ?_, ?_, fun t hold => ?_⟩
      · rw [hcurrent]
        omega
      · rw [hcharge]
      · obtain ⟨s', hmem⟩ := hold
        by_cases hs : s' = s
        · subst hs
          exact .inr hmem
        · refine .inl ⟨s', ?_⟩
          show t ∈ (Function.update k.semaphore s _ s').queue
          rw [Function.update_of_ne hs]
          exact hmem
    · have hsame := exec_semaphore h (fun s => (hp s).1) (fun s => (hp s).2)
        (fun s hs => hv ⟨s, hs⟩) fun s hs => hdestroy ⟨s, hs⟩
      refine ⟨[], 1, ?_, Nat.le_add_right 1 _, fun t hold => .inl ?_⟩
      · rw [hcurrent]
        omega
      · unfold Queued
        rw [hsame]
        exact hold

/-- The test of the value. -/
theorem test_pays {instr : Instr} {rest : List Instr} {s : SemId} (hplaced : Placed k)
    (hinstr : instr = .p s ∨ instr = .pRetry s) (hcode : k.code k.currentThread = instr :: rest)
    (h : (k.withRest rest).exec instr = .ok k') :
    k'.ahead k.currentThread + 1 ≤ k.ahead k.currentThread ∧
      ∀ t, Queued t k → Queued t k' := by
  have hnot : ¬ Queued k.currentThread k := by
    intro hold
    obtain ⟨s', hmem⟩ := hold
    exact hplaced.nowhere hcode (by rcases hinstr with rfl | rfl <;> simp) ⟨.queue s', hmem⟩
  have hbefore : k.ahead k.currentThread = 2 + codeWork rest := by
    rw [ahead_of_not_queued hnot, hcode, codeWork_cons]
    rcases hinstr with rfl | rfl <;> rfl
  have hrest : (k.withRest rest).code k.currentThread = rest := withRest_code_self k rest
  rw [hbefore]
  rcases hinstr with rfl | rfl
  · cases h
    have hafter := takeOrSleep_ahead (k.withRest rest) s
    have hafter : ((k.withRest rest).takeOrSleep s).ahead k.currentThread ≤
        codeWork ((k.withRest rest).code k.currentThread) + 1 := hafter
    rw [hrest] at hafter
    refine ⟨by omega, fun t hold => takeOrSleep_queued s ?_⟩
    exact hold
  · cases h
    have hafter := takeOrSleep_ahead ((k.withRest rest).resumed s) s
    have hafter : (((k.withRest rest).resumed s).takeOrSleep s).ahead k.currentThread ≤
        codeWork ((k.withRest rest).code k.currentThread) + 1 := hafter
    rw [hrest] at hafter
    refine ⟨by omega, fun t hold => takeOrSleep_queued s (resumed_queued s ?_)⟩
    exact hold

/-- Every instruction pays for itself and the threads it wakes; the cases are the instructions. -/
theorem exec_pays {instr : Instr} {rest : List Instr} (hplaced : Placed k) (hloop : InLoop k)
    (hcode : k.code k.currentThread = instr :: rest)
    (h : (k.withRest rest).exec instr = .ok k') : ∃ (woken : List ℕ) (less : ℕ),
      Pays k k' woken 0 less ∧ 1 + roundWork * woken.length ≤ less + k.charge .exec := by
  obtain ⟨-, pushed, hcode', hre⟩ := exec_withRest_rearranged h
  have hothers : ∀ {woken : List ℕ}, (∀ t, Queued t k → Queued t k' ∨ t ∈ woken) →
      ∀ t, t ≠ k.currentThread →
        k'.ahead t ≤ k.ahead t + if t ∈ woken then roundWork else 0 := by
    intro woken hwoken t hne
    refine ahead_le_of_code ?_ (hwoken t)
    rw [hcode', Function.update_of_ne hne]
  -- the tests and `Sleep` make the loop of `P`; the other instructions may wake threads
  by_cases htest : ∃ s, instr = .p s ∨ instr = .pRetry s
  · obtain ⟨s, hinstr⟩ := htest
    obtain ⟨hcurrent, hkept⟩ := test_pays hplaced hinstr hcode h
    exact ⟨[], 1, ⟨hcurrent, hothers fun t hold => .inl (hkept t hold)⟩, Nat.le_add_right 1 _⟩
  · have hp : ∀ s, instr ≠ .p s ∧ instr ≠ .pRetry s :=
      fun s => ⟨fun hs => htest ⟨s, .inl hs⟩, fun hs => htest ⟨s, .inr hs⟩⟩
    by_cases hsleep : instr = .sleep
    · subst hsleep
      have hsame : k'.semaphore = (k.withRest rest).semaphore :=
        exec_semaphore h (by simp) (by simp) (by simp) (by simp)
      have hqueued : ∀ t, Queued t k' ↔ Queued t k := by
        intro t
        unfold Queued
        rw [hsame]
        rfl
      have hafter : k'.code k.currentThread = rest := by
        rw [hcode', Function.update_self, hre.pushed_eq_nil (by simp) (by simp) (by simp)]
        rfl
      refine ⟨[], 1, ⟨?_, hothers fun t hold => .inl ((hqueued t).mpr hold)⟩,
        Nat.le_add_right 1 _⟩
      by_cases hold : Queued k.currentThread k
      · -- the test that comes next is paid for by whoever wakes the thread
        obtain ⟨s, hmem⟩ := hold
        have hin := hloop s k.currentThread hmem
        rw [if_pos rfl, hcode] at hin
        obtain ⟨rest', hin⟩ := hin
        obtain ⟨-, rfl⟩ := List.cons.inj hin
        rw [ahead_of_queued ((hqueued _).mpr ⟨s, hmem⟩), ahead_of_queued ⟨s, hmem⟩, hafter, hcode]
        simp only [codeWork_cons, Instr.work, roundWork]
        omega
      · rw [ahead_of_not_queued (fun hnew => hold ((hqueued _).mp hnew)),
          ahead_of_not_queued hold, hafter, hcode, codeWork_cons]
        simp only [Instr.work]
        omega
    · obtain ⟨woken, less, hcurrent, hpaid, hwoken⟩ := exec_woken_le hcode hp h
      have hnot : ¬ Queued k.currentThread k := by
        intro hold
        obtain ⟨s, hmem⟩ := hold
        exact hplaced.nowhere hcode hsleep ⟨.queue s, hmem⟩
      refine ⟨woken, less, ⟨?_, hothers hwoken⟩, hpaid⟩
      -- the instruction itself is done, and what it pushes is part of its work
      have hle := ahead_le k' k.currentThread
      rw [ahead_of_not_queued hnot, hcode, codeWork_cons]
      omega

/-! ## Steps -/

/-- `Fork` makes one thread, and no other call makes any. -/
def Call.forked : Call → List ℕ
  | .fork t => [t]
  | _ => []

theorem Call.charge_eq (c : Call) :
    c.charge = codeWork c.routine + roundWork * c.forked.length := by
  cases c <;> rfl

/-- A call is charged for its routine. -/
theorem call_pays {c : Call} (hplaced : Placed k) (h : k.step (.call c) = .ok k') :
    Pays k k' c.forked (codeWork c.routine) 0 := by
  have hcalled := call_called hplaced.current h
  have hqueued : ∀ t, Queued t k → Queued t k' := by
    intro t hold
    unfold Queued
    rw [hcalled.frame]
    exact hold
  refine ⟨?_, fun t hne => ?_⟩
  · have hle := ahead_le k' k.currentThread
    rw [hcalled.code] at hle
    omega
  · by_cases hfork : t ∈ c.forked
    · have hc : c = .fork t := by
        cases c with
        | fork u => rw [List.mem_singleton.mp hfork]
        | _ => cases hfork
      rcases hcalled.others t hne with hcode | ⟨-, hcode⟩
      · exact ahead_le_of_code hcode fun hold => .inl (hqueued t hold)
      · have hle := ahead_le k' t
        rw [hcode] at hle
        rw [if_pos hfork]
        exact hle.trans (Nat.le_add_left _ _)
    · have hcode : k'.code t = k.code t := by
        obtain ⟨-, k₁, rfl, ⟨rfl, -⟩ | ⟨u, rfl, hmade⟩⟩ := call_ok h
        · exact Function.update_of_ne hne _ _
        · obtain ⟨-, rfl⟩ := newThread_ok hmade
          have htu : t ≠ u := fun heq => hfork (List.mem_singleton.mpr heq)
          show Function.update (Function.update k.code u threadRoot) k.currentThread _ t = _
          rw [Function.update_of_ne hne, Function.update_of_ne htu]
      exact ahead_le_of_code hcode fun hold => .inl (hqueued t hold)

/-- The `Yield` that a tick puts before the rest of the code. -/
theorem tick_yield {handlers : List Handler} {rest : List Instr}
    (h : (k.withRest rest).tick handlers = .ok k') : ∃ k₁ pushed,
      (k.withRest rest).handle handlers = .ok k₁ ∧ codeWork pushed = k₁.yieldAhead ∧
      k'.semaphore = k₁.semaphore ∧ k'.yieldOnReturn = false ∧
      k'.code = Function.update k.code k.currentThread (pushed ++ rest) := by
  obtain ⟨k₁, hhandle, h⟩ := bind_ok_iff.mp h
  obtain ⟨-, hcode, hcur, -⟩ := handle_frame hhandle
  have hcode : k₁.code = Function.update k.code k.currentThread rest := hcode
  have hcur : k₁.currentThread = k.currentThread := hcur
  rw [← pure_ok_iff.mp h]
  dsimp only
  split
  · rename_i hyield
    refine ⟨k₁, threadYield, hhandle, ?_, rfl, rfl, ?_⟩
    · rw [yieldAhead, if_pos hyield]
    · show Function.update k₁.code k₁.currentThread (threadYield ++ k₁.code k₁.currentThread) = _
      rw [hcode, hcur, Function.update_self, Function.update_idem]
  · rename_i hyield
    refine ⟨k₁, [], hhandle, ?_, rfl, by simpa using hyield, hcode⟩
    rw [yieldAhead, if_neg hyield]
    rfl

/-- A step in the run of the kernel takes no more work than is charged for it. -/
theorem step_workAhead {threads : Finset ℕ} (hplaced : Placed k) (hloop : InLoop k)
    (hcur : k.currentThread ∈ threads) (h : k.step e = .ok k') :
    workAhead threads k' + (if e.works then 1 else 0) ≤ workAhead threads k + k.charge e := by
  cases e with
  | call c =>
    have hsum := (call_pays hplaced h).sum hcur
    have hyield : k'.yieldAhead = k.yieldAhead := by
      rw [yieldAhead, yieldAhead, (call_called hplaced.current h).frame]
    rw [workAhead, workAhead, hyield, charge, Call.charge_eq]
    simp only [Event.works, Bool.false_eq_true, if_false]
    omega
  | exec =>
    obtain ⟨instr, rest, hcode, h⟩ := exec_ok h
    obtain ⟨woken, less, hpays, hpaid⟩ := exec_pays hplaced hloop hcode h
    have hsum := hpays.sum hcur
    have hyield : k'.yieldAhead = k.yieldAhead := by
      rw [yieldAhead, yieldAhead, exec_yieldOnReturn h]
      rfl
    rw [workAhead, workAhead, hyield]
    simp only [Event.works, if_true]
    omega
  | tick handlers =>
    obtain ⟨rest, hcode, h⟩ := tick_ok h
    obtain ⟨k₁, pushed, hhandle, hpushed, hsame, hoff, hcode'⟩ := tick_yield h
    -- the `Yield` has been charged for when the timer asked for it
    obtain ⟨woken, hle, hwoken⟩ := handle_queued hhandle
    have hqueued : ∀ t, Queued t k → Queued t k' ∨ t ∈ woken := by
      intro t hold
      unfold Queued
      rw [hsame]
      exact hwoken t hold
    -- a running thread is in a queue only just before it sleeps
    have hnot : ¬ Queued k.currentThread k := by
      intro hold
      obtain ⟨s, hmem⟩ := hold
      exact hplaced.nowhere hcode (by simp) ⟨.queue s, hmem⟩
    have hpays : Pays k k' woken (codeWork pushed) 1 := by
      refine ⟨?_, fun t hne => ahead_le_of_code ?_ (hqueued t)⟩
      · have hcurrent := ahead_le k' k.currentThread
        rw [hcode', Function.update_self, codeWork_append] at hcurrent
        rw [ahead_of_not_queued hnot, hcode, codeWork_cons]
        simp only [Instr.work]
        omega
      · rw [hcode', Function.update_of_ne hne]
    have hsum := hpays.sum hcur
    have hnone : k'.yieldAhead = 0 := by
      rw [yieldAhead, hoff]
      rfl
    have hyield : (k.withRest rest).yieldAhead = k.yieldAhead := rfl
    rw [hyield] at hle
    rw [workAhead, workAhead, hnone, charge]
    simp only [Event.works, if_true]
    omega
  | idle handlers =>
    obtain ⟨k₁, hhandle, h⟩ := bind_ok_iff.mp (idle_ok h)
    obtain ⟨-, hcode, hcur', -⟩ := handle_frame hhandle
    obtain ⟨woken, hle, hwoken⟩ := handle_queued hhandle
    rw [← pure_ok_iff.mp h]
    -- the idle loop executes nothing; only the handlers wake threads, and they are charged for it
    have hsum : threads.sum k₁.ahead ≤ threads.sum k.ahead + roundWork * woken.length := by
      calc threads.sum k₁.ahead
          ≤ threads.sum (fun t => k.ahead t + if t ∈ woken then roundWork else 0) :=
            Finset.sum_le_sum fun t _ => ahead_le_of_code (congrFun hcode t) (hwoken t)
        _ = threads.sum k.ahead + threads.sum (fun t => if t ∈ woken then roundWork else 0) :=
            Finset.sum_add_distrib
        _ ≤ _ := Nat.add_le_add_left (sum_woken_le _ woken) _
    have hsame : threads.sum ({ k₁ with yieldOnReturn := false } : Kernel).ahead =
        threads.sum k₁.ahead := rfl
    have hnone : ({ k₁ with yieldOnReturn := false } : Kernel).yieldAhead = 0 := rfl
    rw [workAhead, workAhead, hsame, hnone, charge]
    simp only [Event.works, Bool.false_eq_true, if_false]
    omega

/-! ## Every run -/

def Event.forked : Event → List ℕ
  | .call c => c.forked
  | _ => []

/-- A thread exists because it was forked. -/
theorem mem_forked_of_step (hplaced : Placed k) (h : k.step e = .ok k')
    (ht : k'.created t = true) : k.created t = true ∨ t ∈ e.forked := by
  rcases created_of_step hplaced h ht with hold | rfl
  · exact .inl hold
  · exact .inr List.mem_cons_self

/-- In every run the kernel executes no more instructions and clock ticks than is charged for: of a
call the work of its routine, of a `V` by a device and of each thread that `Destroy` wakes a round
of the loop in `P`, and of an interrupt of the timer the work of a `Yield`. -/
theorem run_work {es : List Event} (hboot : Booted k)
    (hrun : PartialRun.run step k es = .ok k') :
    es.countP Event.works ≤ totalCost step charge k es := by
  -- all threads that there are in the run
  generalize hthreads : insert k.currentThread (es.flatMap Event.forked).toFinset = threads
  have hstep : ∀ k e k', (Placed k ∧ InLoop k ∧ ∀ t, k.created t = true → t ∈ threads) →
      (∀ t ∈ e.forked, t ∈ threads) → step k e = .ok k' →
      (Placed k' ∧ InLoop k' ∧ ∀ t, k'.created t = true → t ∈ threads) ∧
        workAhead threads k' + (if e.works then 1 else 0) ≤ workAhead threads k + charge k e := by
    intro k e k' hinv hforked hst
    obtain ⟨hplaced, hloop, hall⟩ := hinv
    refine ⟨⟨step_placed hplaced hst, step_inLoop hplaced hloop hst, fun t ht => ?_⟩,
      step_workAhead hplaced hloop (hall _ hplaced.current) hst⟩
    exact (mem_forked_of_step hplaced hst ht).elim (hall t) (hforked t)
  have hstart : ∀ t, k.created t = true → t ∈ threads := by
    intro t ht
    have hcur : t = k.currentThread := by
      by_contra hne
      rw [hboot.created, Function.update_of_ne hne] at ht
      cases ht
    rw [← hthreads, hcur]
    exact Finset.mem_insert_self _ _
  have hgood : Along step (fun _ e => ∀ t ∈ e.forked, t ∈ threads) k es := by
    refine Along.of_forall fun e he t ht => ?_
    rw [← hthreads]
    exact Finset.mem_insert_of_mem (List.mem_toFinset.mpr (List.mem_flatMap.mpr ⟨e, he, ht⟩))
  have hpaid := Along.amortised hstep ⟨hboot.placed, hboot.inLoop, hstart⟩ hgood hrun
  have hnothing : workAhead threads k = 0 := by
    have hzero : threads.sum k.ahead = 0 := Finset.sum_eq_zero fun t _ => by
      have hle := ahead_le k t
      rw [hboot.code] at hle
      exact Nat.le_zero.mp hle
    rw [workAhead, hzero, yieldAhead, hboot.yieldOnReturn]
    rfl
  rw [totalCost_count Event.works hrun, hnothing, Nat.zero_add] at hpaid
  exact (Nat.le_add_left _ _).trans hpaid

/-- Thread `1` waits at semaphore `0`. Thread `0` does a `V` and takes the unit itself before thread
`1` tests the value again. -/
def bargingRun : List Event := [
  .call (.fork 1), .exec, .exec, .exec, .tick [],
  .call .yield, .exec, .exec,
  .exec, .tick [], .call (.p 0), .exec, .exec, .exec,
  .exec, .tick [], .call (.v 0), .exec, .exec, .exec, .tick [],
  .call (.p 0), .exec, .exec, .exec, .tick [],
  .call .yield, .exec, .exec, .exec, .exec]

/-- Thread `1` sleeps for the second time. -/
theorem bargingRun_work : ∃ k, PartialRun.run step (boot fun _ => 0) bargingRun = .ok k ∧
    (k.semaphore (.user 0)).queue = [1] ∧ bargingRun.countP Event.works = 25 ∧
    25 ≤ totalCost step charge (boot fun _ => 0) bargingRun := by
  obtain ⟨k, hrun, hqueue⟩ : ∃ k,
      PartialRun.run step (boot fun _ => 0) bargingRun = .ok k ∧
      (k.semaphore (.user 0)).queue = [1] := by decide +kernel
  have hcount : bargingRun.countP Event.works = 25 := by decide
  have hwork := run_work (boot_booted fun _ => 0) hrun
  rw [hcount] at hwork
  exact ⟨k, hrun, hqueue, hcount, hwork⟩

end

end Kernel
end NachOS
