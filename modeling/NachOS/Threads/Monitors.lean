import NachOS.Threads.Execution

/-!
# Methods with a lock

A component with a lock of its own, whose methods take the lock when they are called and release
it before they return. In between a method may call `Wait` with that lock, and routines that have
nothing to do with it. As long as nobody else uses the lock, a thread is back from `Acquire` and
from `Wait` with the lock, and keeps it until it is in `Release`.
-/

namespace NachOS
namespace Kernel

open PartialRun

/-- Where a thread is in the methods of the component. -/
inductive Role where
  /-- In none of them. -/
  | outside
  /-- In `Acquire` or in `Wait`. -/
  | acquiring
  /-- Between `Acquire` and `Release`, and not in `Wait`. -/
  | holding
  /-- In `Release`. -/
  | releasing
deriving DecidableEq, Repr

/-- The call is one of a routine of the lock. -/
def UsesLock (l : ℕ) : Call → Prop
  | .acquire l' | .release l' | .wait _ l' => l' = l
  | _ => False

instance (l : ℕ) : (c : Call) → Decidable (UsesLock l c)
  | .acquire _ | .release _ | .wait _ _ => inferInstanceAs (Decidable (_ = _))
  | .setLevel _ | .p _ | .v _ | .destroy _ | .signal _ | .broadcast _ | .yield | .sleep
  | .fork _ | .finish | .userInstruction => isFalse id

/-- The lock is used as the roles of the threads say. -/
structure Monitor (l : ℕ) (role : ℕ → Role) (k : Kernel) : Prop where
  placed : Placed k
  waits : Waits k
  exclusive : Exclusive l k
  created : ∀ t, role t ≠ .outside → k.created t = true
  locked : ∀ t, role t = .acquiring ∨ role t = .holding → EndsHolding l t k
  outside : ∀ t, role t = .outside → t ∉ (k.lock l).inside
  holding : ∀ t, role t = .holding → t ∈ (k.lock l).inside
  releasing : ∀ t, role t = .releasing → t ∈ (k.lock l).inside → .v (.lock l) ∈ k.code t
  release : ∀ t, .v (.lock l) ∈ k.code t → role t = .releasing ∨
    (role t = .acquiring ∧ ∃ c, .appendHilos c ∈ k.code t)
  acquire : ∀ t, WillTest (.lock l) (k.code t) → role t = .acquiring

section

variable {k k' : Kernel} {e : Event} {l : ℕ} {role : ℕ → Role}

/-- A routine that does not use the lock has no instruction of it. -/
theorem not_touches_of_mem_routine {c : Call} (huses : ¬ UsesLock l c) :
    ∀ instr ∈ c.routine, ¬ Touches l instr := by
  cases c with
  | acquire l' =>
    have huses : ¬ l' = l := huses
    simp [Call.routine, lockAcquire, semaphoreP, Touches, huses]
  | release l' =>
    have huses : ¬ l' = l := huses
    simp [Call.routine, lockRelease, semaphoreV, Touches, huses]
  | wait c l' =>
    have huses : ¬ l' = l := huses
    simp [Call.routine, conditionWait, lockAcquire, semaphoreP, lockRelease, semaphoreV,
      Touches, huses]
  | _ =>
    simp [Call.routine, semaphoreP, semaphoreV, semaphoreDestroy, conditionSignal,
      conditionBroadcast, threadYield, threadFork, threadFinish, Touches]

theorem not_willTest_routine {c : Call} (huses : ¬ UsesLock l c) :
    ¬ WillTest (.lock l) c.routine := by
  intro htest
  rcases htest with hmem | hmem
  · exact not_touches_of_mem_routine huses _ hmem rfl
  · exact not_touches_of_mem_routine huses _ hmem rfl

/-- A thread that is back from a routine after which it has the lock holds it. -/
theorem Monitor.mem_holding (h : Monitor l role k) (hcode : k.code k.currentThread = [])
    (hrole : role k.currentThread = .acquiring ∨ role k.currentThread = .holding) :
    k.currentThread ∈ (k.lock l).holding := by
  have hends := h.locked _ hrole
  rw [EndsHolding, hcode] at hends
  simpa using hends

theorem Monitor.inside_eq (h : Monitor l role k) (hcode : k.code k.currentThread = [])
    (hrole : role k.currentThread = .acquiring ∨ role k.currentThread = .holding) :
    (k.lock l).inside = [k.currentThread] :=
  h.exclusive.inside_eq (h.exclusive.holding _ (h.mem_holding hcode hrole))

/-- A thread that enters the list in `Wait` has released the lock before. -/
theorem not_mem_waitTail {c : ℕ} (hwaits : Waits k) (h : Executes (.appendHilos c) k e) :
    .v (.lock l) ∉ k.code k.currentThread := by
  obtain ⟨-, l', hentering⟩ := hwaits _ c h.mem
  obtain ⟨rest, hcode⟩ := List.head?_eq_some_iff.mp h.2
  rw [hcode] at hentering ⊢
  rw [hentering.eq_waitTail]
  simp [waitTail, lockAcquire, semaphoreP]

/-! ## Steps of the kernel -/

/-- A step that is not a call of a method, and no use of the lock by others. -/
theorem Monitor.step (hm : Monitor l role k) (hsilent : ∀ t, role t ≠ .outside → Silent t k e)
    (huses : ∀ c, e = .call c → ¬ UsesLock l c) (h : k.step e = .ok k') :
    Monitor l role k' := by
  have hinside := step_inside hm.exclusive h
  refine ⟨step_placed hm.placed h, step_waits hm.placed hm.waits h, ?exclusive,
    fun t ht => ?created, fun t ht => ?locked, fun t ht hin => ?outside, fun t ht => ?holding,
    fun t ht hin => ?releasing, fun t hmem => ?release, fun t htest => ?acquire⟩
  case exclusive =>
    refine step_exclusive_of_own hm.exclusive (fun c he hc => absurd ?_ (huses c he)) h
    rcases hc with rfl | ⟨n, rfl⟩
    · exact rfl
    · exact rfl
  case created => exact step_created hm.placed (hm.created t ht) h
  case locked =>
    have hne : role t ≠ .outside := by
      intro hout
      rw [hout] at ht
      simp at ht
    exact step_endsHolding hm.placed (hm.created t hne) (hm.locked t ht) (hsilent t hne) h
  case outside =>
    rcases hinside with ⟨hsame, -⟩ | ⟨htests, -, henter⟩ | ⟨-, -, hleave⟩
    · rw [hsame] at hin
      exact hm.outside t ht hin
    · rw [henter, List.mem_singleton] at hin
      -- who tests the lock's semaphore is on its way in
      have hrole := hm.acquire _ htests.willTest
      rw [← hin, ht] at hrole
      cases hrole
    · rw [hleave] at hin
      cases hin
  case holding =>
    have hin := hm.holding t ht
    rcases hinside with ⟨hsame, -⟩ | ⟨-, hnobody, -⟩ | ⟨hv, hself, -⟩
    · rw [hsame]
      exact hin
    · rw [hnobody] at hin
      cases hin
    · -- only a thread in `Release` or `Wait` executes the `V`
      rw [hself, List.mem_singleton] at hin
      have hrel := hm.release _ hv.mem
      rw [← hin, ht] at hrel
      simp at hrel
  case releasing =>
    rcases hinside with ⟨hsame, hnot⟩ | ⟨htests, -, henter⟩ | ⟨-, -, hleave⟩
    · rw [hsame] at hin
      have hcreated := hm.created t (by rw [ht]; simp)
      rcases step_kept hm.placed h rfl hcreated (hm.releasing t ht hin) with hmem | ⟨-, hv⟩
      · exact hmem
      · exact absurd hv hnot
    · rw [henter, List.mem_singleton] at hin
      have hrole := hm.acquire _ htests.willTest
      rw [← hin, ht] at hrole
      cases hrole
    · rw [hleave] at hin
      cases hin
  case release =>
    rcases step_old hm.placed h rfl hmem with hmem | ⟨-, ⟨c, he, hmem⟩ | ⟨s, hs, -⟩⟩
    · rcases hm.release t hmem with hrel | ⟨hacq, c, happend⟩
      · exact .inl hrel
      · refine .inr ⟨hacq, c, ?_⟩
        obtain ⟨rfl, -⟩ := hm.waits t c happend
        rcases step_kept hm.placed h rfl hm.placed.current happend with hkept | ⟨-, hexec⟩
        · exact hkept
        · exact absurd hmem (not_mem_waitTail hm.waits hexec)
    · exact absurd rfl (not_touches_of_mem_routine (huses c he) _ hmem)
    · cases hs
  case acquire =>
    rcases htest.old hm.placed h with htest | ⟨-, c, he, htest⟩
    · exact hm.acquire t htest
    · exact absurd htest (not_willTest_routine (huses c he))

/-! ## Calls of a method -/

/-- What a method in a new role has called. -/
structure Enters (l : ℕ) (c : Call) (role' : Role) (k : Kernel) : Prop where
  ne : role' ≠ .outside
  locked : role' = .acquiring ∨ role' = .holding →
    c.routine.foldl (holdsAfter l) (decide (k.currentThread ∈ (k.lock l).holding)) = true
  holding : role' = .holding → k.currentThread ∈ (k.lock l).inside
  releasing : role' = .releasing → .v (.lock l) ∈ c.routine
  release : .v (.lock l) ∈ c.routine → role' = .releasing ∨
    (role' = .acquiring ∧ ∃ n, .appendHilos n ∈ c.routine)
  acquire : WillTest (.lock l) c.routine → role' = .acquiring
  own : c = .release l ∨ (∃ n, c = .wait n l) → k.currentThread ∈ (k.lock l).holding

/-- The code of a thread other than the one that calls a routine. -/
theorem Called.mem_code {c : Call} (hcalled : Called k c k') {t : ℕ} (ht : t ≠ k.currentThread)
    {instr : Instr} (hinstr : instr.synchronises = true) :
    (instr ∈ k'.code t → instr ∈ k.code t) ∧
      (k.created t = true → instr ∈ k.code t → instr ∈ k'.code t) := by
  rcases hcalled.others t ht with hcode | ⟨hnew, hcode⟩
  · rw [hcode]
    exact ⟨id, fun _ => id⟩
  · refine ⟨fun hmem => ?_, fun hcreated => ?_⟩
    · rw [hcode, threadRoot, List.mem_singleton] at hmem
      rw [hmem] at hinstr
      cases hinstr
    · rw [hcreated] at hnew
      cases hnew

/-- The running thread calls a routine in a method. -/
theorem Monitor.call {c : Call} {role' : Role} (hm : Monitor l role k)
    (henters : Enters l c role' k) (h : k.step (.call c) = .ok k') :
    Monitor l (Function.update role k.currentThread role') k' := by
  have hcalled := call_called hm.placed.current h
  have hlock : k'.lock = k.lock := by rw [hcalled.frame]
  have hself : ∀ {t}, t = k.currentThread →
      Function.update role k.currentThread role' t = role' := by
    rintro t rfl
    rw [Function.update_self]
  -- the routine goes in front of the running thread's code, and nothing else changes
  have hother : ∀ {t}, t ≠ k.currentThread →
      Function.update role k.currentThread role' t = role t := fun ht =>
    Function.update_of_ne ht _ _
  refine ⟨step_placed hm.placed h, step_waits hm.placed hm.waits h, ?exclusive,
    fun t ht => ?created, fun t ht => ?locked, fun t ht hin => ?outside, fun t ht => ?holding,
    fun t ht hin => ?releasing, fun t hmem => ?release, fun t htest => ?acquire⟩
  case exclusive =>
    refine step_exclusive_of_own hm.exclusive (fun c' he hc => ?_) h
    cases he
    exact henters.own hc
  case created =>
    by_cases hcur : t = k.currentThread
    · rw [hcur]
      exact hcalled.created _ hm.placed.current
    · rw [hother hcur] at ht
      exact hcalled.created t (hm.created t ht)
  case locked =>
    by_cases hcur : t = k.currentThread
    · rw [hself hcur] at ht
      rw [hcur, EndsHolding, hcalled.code, hlock]
      exact henters.locked ht
    · rw [hother hcur] at ht
      -- another thread that will hold the lock was created, so its code is kept
      have hne : role t ≠ .outside := by
        intro hout
        rw [hout] at ht
        simp at ht
      refine step_endsHolding hm.placed (hm.created t hne) (hm.locked t ht) ?_ h
      exact fun heq => absurd heq.symm hcur
  case outside =>
    rw [hlock] at hin
    by_cases hcur : t = k.currentThread
    · rw [hself hcur] at ht
      exact henters.ne ht
    · rw [hother hcur] at ht
      exact hm.outside t ht hin
  case holding =>
    rw [hlock]
    by_cases hcur : t = k.currentThread
    · rw [hself hcur] at ht
      rw [hcur]
      exact henters.holding ht
    · rw [hother hcur] at ht
      exact hm.holding t ht
  case releasing =>
    rw [hlock] at hin
    by_cases hcur : t = k.currentThread
    · rw [hself hcur] at ht
      rw [hcur, hcalled.code]
      exact henters.releasing ht
    · rw [hother hcur] at ht
      have hcreated := hm.created t (by rw [ht]; simp)
      exact (hcalled.mem_code hcur rfl).2 hcreated (hm.releasing t ht hin)
  case release =>
    by_cases hcur : t = k.currentThread
    · rw [hcur, hcalled.code] at hmem
      rw [hself hcur, hcur, hcalled.code]
      exact henters.release hmem
    · rw [hother hcur]
      rcases hm.release t ((hcalled.mem_code hcur rfl).1 hmem) with hrel | ⟨-, n, happend⟩
      · exact .inl hrel
      · exact absurd (hm.waits t n happend).1 hcur
  case acquire =>
    by_cases hcur : t = k.currentThread
    · rw [hcur, hcalled.code] at htest
      rw [hself hcur]
      exact henters.acquire htest
    · rw [hother hcur]
      refine hm.acquire t ?_
      rcases htest with hmem | hmem
      · exact .inl ((hcalled.mem_code hcur rfl).1 hmem)
      · exact .inr ((hcalled.mem_code hcur rfl).1 hmem)

theorem enters_acquire : Enters l (.acquire l) .acquiring k where
  ne := by simp
  locked _ := by simp [Call.routine, lockAcquire, semaphoreP, holdsAfter]
  holding h := by cases h
  releasing h := by cases h
  release h := by simp [Call.routine, lockAcquire, semaphoreP] at h
  acquire _ := rfl
  own h := by simp at h

theorem enters_release (hholding : k.currentThread ∈ (k.lock l).holding) :
    Enters l (.release l) .releasing k where
  ne := by simp
  locked h := by simp at h
  holding h := by cases h
  releasing _ := by simp [Call.routine, lockRelease, semaphoreV]
  release _ := .inl rfl
  acquire h := by simp [WillTest, Call.routine, lockRelease, semaphoreV] at h
  own _ := hholding

theorem enters_wait (hholding : k.currentThread ∈ (k.lock l).holding) (c : ℕ) :
    Enters l (.wait c l) .acquiring k where
  ne := by simp
  locked _ := by
    simp [Call.routine, conditionWait, lockRelease, lockAcquire, semaphoreV, semaphoreP,
      holdsAfter]
  holding h := by cases h
  releasing h := by cases h
  release _ := .inr ⟨rfl, c, by simp [Call.routine, conditionWait]⟩
  acquire _ := rfl
  own _ := hholding

/-- The lock stays held in a routine that does not use it. -/
theorem foldl_holdsAfter_of_not_touches {code : List Instr} (h : ∀ instr ∈ code, ¬ Touches l instr)
    (holds : Bool) : code.foldl (holdsAfter l) holds = holds := by
  induction code with
  | nil => rfl
  | cons instr code ih =>
    rw [List.foldl_cons, holdsAfter_of_not_touches (h instr List.mem_cons_self)]
    exact ih fun i hi => h i (List.mem_cons_of_mem instr hi)

theorem enters_other {c : Call} (hexcl : Exclusive l k)
    (hholding : k.currentThread ∈ (k.lock l).holding) (huses : ¬ UsesLock l c) :
    Enters l c .holding k where
  ne := by simp
  locked _ := by
    rw [foldl_holdsAfter_of_not_touches (not_touches_of_mem_routine huses)]
    simpa using hholding
  holding _ := hexcl.holding _ hholding
  releasing h := by cases h
  release h := absurd rfl (not_touches_of_mem_routine huses _ h)
  acquire h := absurd h (not_willTest_routine huses)
  own h := by
    rcases h with rfl | ⟨n, rfl⟩
    · exact absurd rfl huses
    · exact absurd rfl huses

/-- The running thread returns from a method. -/
theorem Monitor.finish (hm : Monitor l role k) (hcode : k.code k.currentThread = [])
    (hrole : role k.currentThread = .releasing) :
    Monitor l (Function.update role k.currentThread .outside) k := by
  -- the releasing thread inside the lock has the `V` ahead of it, and no code is left here
  have hout : k.currentThread ∉ (k.lock l).inside := by
    intro hin
    have hv := hm.releasing _ hrole hin
    rw [hcode] at hv
    cases hv
  have hself : ∀ {t}, t = k.currentThread →
      Function.update role k.currentThread .outside t = .outside := by
    rintro t rfl
    rw [Function.update_self]
  have hother : ∀ {t}, t ≠ k.currentThread →
      Function.update role k.currentThread .outside t = role t := fun ht =>
    Function.update_of_ne ht _ _
  refine ⟨hm.placed, hm.waits, hm.exclusive, fun t ht => ?created, fun t ht => ?locked,
    fun t ht => ?outside, fun t ht => ?holding, fun t ht => ?releasing, fun t hmem => ?release,
    fun t htest => ?acquire⟩
  case created =>
    by_cases hcur : t = k.currentThread
    · exact absurd (hself hcur) ht
    · rw [hother hcur] at ht
      exact hm.created t ht
  case locked =>
    by_cases hcur : t = k.currentThread
    · rw [hself hcur] at ht
      simp at ht
    · rw [hother hcur] at ht
      exact hm.locked t ht
  case outside =>
    by_cases hcur : t = k.currentThread
    · rw [hcur]
      exact hout
    · rw [hother hcur] at ht
      exact hm.outside t ht
  case holding =>
    by_cases hcur : t = k.currentThread
    · rw [hself hcur] at ht
      cases ht
    · rw [hother hcur] at ht
      exact hm.holding t ht
  case releasing =>
    by_cases hcur : t = k.currentThread
    · rw [hself hcur] at ht
      cases ht
    · rw [hother hcur] at ht
      exact hm.releasing t ht
  case release =>
    by_cases hcur : t = k.currentThread
    · rw [hcur, hcode] at hmem
      cases hmem
    · rw [hother hcur]
      exact hm.release t hmem
  case acquire =>
    by_cases hcur : t = k.currentThread
    · rw [hcur, hcode] at htest
      simp [WillTest] at htest
    · rw [hother hcur]
      exact hm.acquire t htest

end

theorem Booted.monitor {k : Kernel} (hboot : Booted k) (l : ℕ) :
    Monitor l (fun _ => .outside) k := by
  have hcode : ∀ t instr, instr ∉ k.code t := by
    intro t instr hmem
    rw [hboot.code] at hmem
    cases hmem
  refine ⟨hboot.placed, hboot.waits, hboot.exclusive l, by simp, by simp, fun t _ => ?_, by simp,
    by simp, fun t hmem => absurd hmem (hcode t _), fun t htest => ?_⟩
  · rw [hboot.lock]
    exact List.not_mem_nil
  · rcases htest with hmem | hmem
    · exact absurd hmem (hcode t _)
    · exact absurd hmem (hcode t _)

end Kernel
end NachOS
