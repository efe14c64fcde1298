import NachOS.Threads.Kernel
import Mathlib.Data.List.Basic
import Mathlib.Logic.Relation

/-!
# Semaphores

A `V` increments the value and wakes one waiter, who has to test the value again and may find
it taken by a newcomer. So the value is not tied to the queue alone: as long as threads wait,
there is a woken thread for every unit of the value.
-/

namespace NachOS

open Relation

namespace Semaphore

/-- What can happen to a semaphore in one go. A thread that tests the value again is taken
out of `woken` first. -/
inductive Moved (sem : Semaphore) : Semaphore → Prop where
  /-- `P` decrements the value. -/
  | took {woken : List ℕ} (hvalue : sem.value ≠ 0)
    (hwoken : sem.woken.length ≤ woken.length + 1) :
    Moved sem { sem with
      value := sem.value - 1
      completedP := sem.completedP + 1
      woken := woken }
  /-- `P` goes to sleep. -/
  | slept (t : ℕ) (woken : List ℕ) (hvalue : sem.value = 0) :
    Moved sem { sem with queue := sem.queue ++ [t], woken := woken }
  /-- `V` with nobody in the queue. -/
  | gave (hqueue : sem.queue = []) :
    Moved sem { sem with
      value := sem.value + 1
      completedV := sem.completedV + 1 }
  /-- `V` with thread `t` first in the queue. -/
  | woke {t : ℕ} {queue : List ℕ} (hqueue : sem.queue = t :: queue) :
    Moved sem { sem with
      value := sem.value + 1
      queue := queue
      completedV := sem.completedV + 1
      woken := t :: sem.woken }
  /-- `Destroy`. -/
  | emptied : Moved sem { sem with queue := [] }

/-- The value is what the operations have left of `initial`, it is not negative, and no
wake-up is lost. -/
structure Sound (initial : ℤ) (sem : Semaphore) : Prop where
  nonneg : 0 ≤ sem.value
  balance : sem.value = initial + sem.completedV - sem.completedP
  woken : sem.queue ≠ [] → sem.value ≤ sem.woken.length

/-- No move makes the value negative, and none loses a wake-up. -/
theorem Moved.sound {initial : ℤ} {sem sem' : Semaphore} (h : Moved sem sem')
    (hsound : Sound initial sem) : Sound initial sem' := by
  obtain ⟨hnonneg, hbalance, hwoken⟩ := hsound
  cases h with
  | took hvalue hlength =>
    refine ⟨?_, ?_, fun hqueue => ?_⟩
    · show 0 ≤ sem.value - 1
      omega
    · show sem.value - 1 = initial + sem.completedV - ((sem.completedP + 1 : ℕ) : ℤ)
      omega
    · -- the unit taken is that of the thread that takes it, or of one that goes on waiting
      have hle := hwoken hqueue
      show sem.value - 1 ≤ _
      dsimp only
      omega
  | slept t woken hvalue =>
    refine ⟨hnonneg, hbalance, fun _ => ?_⟩
    show sem.value ≤ _
    rw [hvalue]
    exact Int.natCast_nonneg _
  | gave hqueue =>
    refine ⟨?_, ?_, fun hne => absurd hqueue hne⟩
    · show 0 ≤ sem.value + 1
      omega
    · show sem.value + 1 = initial + ((sem.completedV + 1 : ℕ) : ℤ) - sem.completedP
      omega
  | @woke t queue hqueue =>
    have hle := hwoken (by rw [hqueue]; exact List.cons_ne_nil t queue)
    refine ⟨?_, ?_, fun _ => ?_⟩
    · show 0 ≤ sem.value + 1
      omega
    · show sem.value + 1 = initial + ((sem.completedV + 1 : ℕ) : ℤ) - sem.completedP
      omega
    · show sem.value + 1 ≤ ((t :: sem.woken).length : ℤ)
      rw [List.length_cons]
      omega
  | emptied => exact ⟨hnonneg, hbalance, fun hne => absurd rfl hne⟩

/-- So does any number of moves. -/
theorem Sound.of_moved {initial : ℤ} {sem sem' : Semaphore} (hsound : Sound initial sem)
    (h : ReflTransGen Moved sem sem') : Sound initial sem' := by
  induction h with
  | refl => exact hsound
  | tail _ hmoved ih => exact hmoved.sound ih

end Semaphore

namespace Kernel

open PartialRun

/-! ## What leaves the semaphores alone -/

section

variable (k : Kernel)

@[simp] theorem push_semaphore (instrs : List Instr) :
    (k.push instrs).semaphore = k.semaphore := rfl

@[simp] theorem run_semaphore (t : ℕ) : (k.run t).semaphore = k.semaphore := by
  unfold Kernel.run
  split <;> rfl

@[simp] theorem setLevel_semaphore (now : IntStatus) :
    (k.setLevel now).semaphore = k.semaphore := by
  unfold setLevel
  dsimp only
  split <;> rfl

@[simp] theorem enter_semaphore (s : SemId) : (k.enter s).semaphore = k.semaphore := by
  cases s <;> rfl

@[simp] theorem leave_semaphore (s : SemId) : (k.leave s).semaphore = k.semaphore := by
  cases s <;> rfl

end

/-! ## What one event does to a semaphore -/

/-- Every semaphore of `k'` comes from that of `k` by the operations. -/
def Moves (k k' : Kernel) : Prop :=
  ∀ s, ReflTransGen Semaphore.Moved (k.semaphore s) (k'.semaphore s)

/-- A step that leaves the semaphores alone is no move of any of them. -/
theorem Moves.refl_of_eq {k k' : Kernel} (h : k'.semaphore = k.semaphore) : Moves k k' := by
  intro s
  rw [h]

/-- One step after the other. -/
theorem Moves.trans {k k' k'' : Kernel} (h : Moves k k') (h' : Moves k' k'') : Moves k k'' :=
  fun s => (h s).trans (h' s)

/-- One operation on semaphore `s`. -/
theorem Moves.single {k k' : Kernel} {s : SemId} {sem : Semaphore}
    (hmoved : Semaphore.Moved (k.semaphore s) sem)
    (h : k'.semaphore = Function.update k.semaphore s sem) : Moves k k' := by
  intro s'
  rw [h]
  by_cases hs : s' = s
  · rw [hs, Function.update_self]
    exact .single hmoved
  · rw [Function.update_of_ne hs]

/-- `value++` is a move of its semaphore, and there is no other. -/
theorem increment_moves {k k' : Kernel} {s : SemId} (h : k.increment s = .ok k') :
    Moves k k' := by
  unfold increment at h
  dsimp only at h
  split at h
  · cases h
  · split at h
    · rename_i hqueue
      cases h
      exact .single (.gave hqueue) rfl
    · rename_i hqueue
      cases h
      exact .single (.woke hqueue) rfl

/-- The test of the value takes one from it or does nothing to it. -/
theorem takeOrSleep_moves (k : Kernel) (s : SemId) : Moves k (k.takeOrSleep s) := by
  unfold takeOrSleep
  dsimp only
  split
  · rename_i hvalue
    exact .single (.slept k.currentThread (k.semaphore s).woken hvalue) rfl
  · rename_i hvalue
    refine .single (.took hvalue ?_) (enter_semaphore _ s)
    exact Nat.le_succ _

/-- A thread that tests the value again is no longer counted as woken. -/
theorem retry_moves (k : Kernel) (s : SemId) : Moves k ((k.resumed s).takeOrSleep s) := by
  have hsem : (k.resumed s).semaphore s = { k.semaphore s with
      woken := (k.semaphore s).woken.erase k.currentThread } := Function.update_self _ _ _
  have hlength : (k.semaphore s).woken.length ≤
      ((k.semaphore s).woken.erase k.currentThread).length + 1 := by
    have := List.le_length_erase (a := k.currentThread) (l := (k.semaphore s).woken)
    omega
  unfold takeOrSleep
  dsimp only
  rw [hsem]
  split
  · rename_i hvalue
    exact .single (.slept k.currentThread _ hvalue) (Function.update_idem _ _ _)
  · rename_i hvalue
    refine .single (.took hvalue hlength) ?_
    rw [enter_semaphore]
    exact Function.update_idem _ _ _

/-- The handlers of a tick call `V` only. -/
theorem handle_moves {handlers : List Handler} {k k' : Kernel}
    (h : k.handle handlers = .ok k') : Moves k k' := by
  induction handlers generalizing k with
  | nil =>
    cases h
    exact .refl_of_eq rfl
  | cons handler handlers ih =>
    cases handler with
    | v n =>
      obtain ⟨k₁, hinc, h⟩ := bind_ok_iff.mp h
      exact (increment_moves hinc).trans (ih h)
    | timer => exact ih (k := { k with yieldOnReturn := true }) h

/-- Only two instructions of the routines move a semaphore. -/
theorem exec_moves {k k' : Kernel} {instr : Instr} (h : k.exec instr = .ok k') : Moves k k' := by
  -- only `P`, `V` and `Destroy` touch a semaphore
  cases instr with
  | setLevel now =>
    cases h
    exact .refl_of_eq (setLevel_semaphore k now)
  | saveLevel =>
    cases h
    exact .refl_of_eq (setLevel_semaphore _ _)
  | restoreLevel =>
    rw [exec] at h
    split at h
    · cases h
    · cases h
      exact .refl_of_eq (setLevel_semaphore _ _)
  | oneTick => cases h
  | p s =>
    cases h
    exact takeOrSleep_moves k s
  | pRetry s =>
    cases h
    exact retry_moves k s
  | v s =>
    obtain ⟨k₁, hinc, h⟩ := bind_ok_iff.mp h
    cases h
    exact (increment_moves hinc).trans (.refl_of_eq (leave_semaphore k₁ s))
  | destroy s =>
    -- `Destroy` takes everybody off the queue at once
    cases h
    exact .single .emptied rfl
  | setOwner l =>
    cases h
    exact .refl_of_eq rfl
  | clearOwner l =>
    cases h
    exact .refl_of_eq rfl
  | appendHilos c =>
    cases h
    exact .refl_of_eq rfl
  | signal c =>
    rw [exec] at h
    split at h <;> (cases h; exact .refl_of_eq rfl)
  | broadcast c =>
    cases h
    exact .refl_of_eq rfl
  | readyToRun t =>
    cases h
    exact .refl_of_eq rfl
  | yieldCPU =>
    rw [exec] at h
    split at h
    · cases h
      exact .refl_of_eq rfl
    · cases h
      exact .refl_of_eq (run_semaphore _ _)
  | sleep =>
    rw [exec] at h
    split at h
    · cases h
    · split at h
      · cases h
      · cases h
        exact .refl_of_eq (run_semaphore _ _)
  | toBeDestroyed =>
    cases h
    exact .refl_of_eq rfl

/-- A tick moves semaphores by its handlers. -/
theorem tick_moves {k k' : Kernel} {handlers : List Handler} (h : k.tick handlers = .ok k') :
    Moves k k' := by
  obtain ⟨k₁, hhandle, h⟩ := bind_ok_iff.mp h
  refine (handle_moves hhandle).trans (.refl_of_eq ?_)
  rw [← pure_ok_iff.mp h]
  dsimp only
  split <;> rfl

/-- An idle kernel moves them by the handlers of the next interrupt. -/
theorem idle_moves {k k' : Kernel} {handlers : List Handler} (h : k.idle handlers = .ok k') :
    Moves k k' := by
  obtain ⟨k₁, hhandle, h⟩ := bind_ok_iff.mp h
  refine (handle_moves hhandle).trans (.refl_of_eq ?_)
  rw [← pure_ok_iff.mp h]

/-- A thread is made once. -/
theorem newThread_ok {k k' : Kernel} {t : ℕ} (h : k.newThread t = .ok k') :
    k.created t = false ∧ k' = { k with
      created := Function.update k.created t true
      code := Function.update k.code t threadRoot } := by
  unfold newThread at h
  split at h
  · cases h
  · rename_i hcreated
    cases h
    exact ⟨by simpa using hcreated, rfl⟩

/-- The outcomes of a call: the thread is about to execute the routine, and if it forks a
thread, that thread is new. -/
theorem call_ok {k k' : Kernel} {c : Call} (h : k.step (.call c) = .ok k') :
    k.code k.currentThread = [] ∧ ∃ k₁, k' = k₁.push c.routine ∧
      ((k₁ = k ∧ ∀ t, c ≠ .fork t) ∨ ∃ t, c = .fork t ∧ k.newThread t = .ok k₁) := by
  rw [step] at h
  split at h
  · rename_i hcode
    obtain ⟨k₁, hprepare, h⟩ := bind_ok_iff.mp h
    refine ⟨hcode, k₁, (pure_ok_iff.mp h).symm, ?_⟩
    unfold prepare at hprepare
    split at hprepare
    · exact .inr ⟨_, rfl, hprepare⟩
    · rename_i hfork
      cases hprepare
      exact .inl ⟨rfl, hfork⟩
  · cases h

/-- The running thread executes the next instruction of its routine. -/
theorem exec_ok {k k' : Kernel} (h : k.step .exec = .ok k') : ∃ instr rest,
    k.code k.currentThread = instr :: rest ∧ (k.withRest rest).exec instr = .ok k' := by
  rw [step] at h
  split at h
  · cases h
  · rename_i instr rest hcode
    exact ⟨instr, rest, hcode, h⟩

/-- A tick ends with the code behind it. -/
theorem tick_ok {k k' : Kernel} {handlers : List Handler} (h : k.step (.tick handlers) = .ok k') :
    ∃ rest, k.code k.currentThread = .oneTick :: rest ∧
      (k.withRest rest).tick handlers = .ok k' := by
  rw [step] at h
  split at h
  · rename_i rest hcode
    exact ⟨rest, hcode, h⟩
  · cases h

/-- The event of an idle kernel. -/
theorem idle_ok {k k' : Kernel} {handlers : List Handler} (h : k.step (.idle handlers) = .ok k') :
    k.idle handlers = .ok k' := by
  rw [step] at h
  split at h
  · exact h
  · cases h

/-- No step changes the value of a semaphore other than by moves. -/
theorem step_moves {k k' : Kernel} {e : Event} (h : k.step e = .ok k') : Moves k k' := by
  cases e with
  | call c =>
    obtain ⟨-, k₁, rfl, hk₁⟩ := call_ok h
    rcases hk₁ with ⟨rfl, -⟩ | ⟨t, -, hnew⟩
    · exact .refl_of_eq rfl
    · obtain ⟨-, rfl⟩ := newThread_ok hnew
      exact .refl_of_eq rfl
  | exec =>
    obtain ⟨instr, rest, -, h⟩ := exec_ok h
    exact exec_moves (k := k.withRest rest) h
  | tick handlers =>
    obtain ⟨rest, -, h⟩ := tick_ok h
    exact tick_moves (k := k.withRest rest) h
  | idle handlers => exact idle_moves (idle_ok h)

/-! ## Every interleaving -/

/-- The invariant of a semaphore, for one step of the kernel. -/
theorem step_sound {k k' : Kernel} {e : Event} {s : SemId} {initial : ℤ}
    (hsound : (k.semaphore s).Sound initial) (h : k.step e = .ok k') :
    (k'.semaphore s).Sound initial := hsound.of_moved (step_moves h s)

/-- A semaphore whose initial value is not negative, in every state of every run: the value is
not negative and is what the operations have left of the initial one, and as long as a thread
waits every unit of the value has a woken thread that has yet to test it. -/
theorem run_semaphore_sound {k k' : Kernel} {es : List Event} {s : SemId} (hboot : Booted k)
    (hinitial : 0 ≤ (k.semaphore s).value) (hrun : PartialRun.run step k es = .ok k') :
    0 ≤ (k'.semaphore s).value ∧
    (k'.semaphore s).value = (k.semaphore s).value + (k'.semaphore s).completedV
      - (k'.semaphore s).completedP ∧
    ((k'.semaphore s).queue ≠ [] →
      (k'.semaphore s).value ≤ (k'.semaphore s).woken.length) ∧
    ((k'.semaphore s).queue ≠ [] → (k'.semaphore s).woken = [] → (k'.semaphore s).value = 0) := by
  obtain ⟨hqueue, hP, hV, -⟩ := hboot.semaphore s
  have hstart : (k.semaphore s).Sound (k.semaphore s).value := by
    refine ⟨hinitial, ?_, fun hne => absurd hqueue hne⟩
    rw [hP, hV]
    omega
  have hsound : (k'.semaphore s).Sound (k.semaphore s).value :=
    run_invariant (I := fun k' => (k'.semaphore s).Sound (k.semaphore s).value)
      (fun _ _ _ hsound hst => step_sound hsound hst) hstart hrun
  refine ⟨hsound.nonneg, hsound.balance, hsound.woken, fun hne hnone => ?_⟩
  -- with nobody woken the bound on the value is 0
  have hle := hsound.woken hne
  rw [hnone] at hle
  exact Int.le_antisymm hle hsound.nonneg

/-- Threads `1` and `2` wait at semaphore `0`, then thread `0` does a `V`. -/
def wakingRun : List Event := [
  .call (.fork 1), .exec, .exec, .exec, .tick [],
  .call (.fork 2), .exec, .exec, .exec, .tick [],
  .call .yield, .exec, .exec,
  .exec, .tick [], .call (.p 0), .exec, .exec, .exec,
  .exec, .tick [], .call (.p 0), .exec, .exec, .exec,
  .exec, .tick [], .call (.v 0), .exec, .exec]

/-- Thread `2` still waits, and the unit is there for thread `1`. -/
theorem wakingRun_sound : ∃ k, PartialRun.run step (boot fun _ => 0) wakingRun = .ok k ∧
    (k.semaphore (.user 0)).queue = [2] ∧ (k.semaphore (.user 0)).woken = [1] ∧
    (k.semaphore (.user 0)).value ≤ (k.semaphore (.user 0)).woken.length := by
  obtain ⟨k, hrun, hqueue, hwoken⟩ : ∃ k,
      PartialRun.run step (boot fun _ => 0) wakingRun = .ok k ∧
      (k.semaphore (.user 0)).queue = [2] ∧ (k.semaphore (.user 0)).woken = [1] := by
    decide +kernel
  obtain ⟨-, -, hle, -⟩ := run_semaphore_sound (s := .user 0) (boot_booted fun _ => 0)
    (Int.le_refl 0) hrun
  refine ⟨k, hrun, hqueue, hwoken, hle ?_⟩
  rw [hqueue]
  exact List.cons_ne_nil 2 []

end Kernel
end NachOS
