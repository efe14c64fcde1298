import NachOS.Threads.Locks
import NachOS.Lib.Placement

/-!
# Where the threads are

A thread that does not run is in the ready list, in the queue of a semaphore, in the list of a
condition variable, or nowhere: it has finished, or sleeps for good. The routines move threads
between these lists, and the running thread may be in one of them only between the point where
it is put there and `Sleep`.
-/

namespace NachOS
namespace Kernel

open PartialRun Placement

/-- The lists a thread can be in. -/
inductive Place where
  | ready
  | queue (s : SemId)
  | hilos (c : ℕ)
deriving DecidableEq, Repr

/-- The threads in each list. -/
def place (k : Kernel) : Place → List ℕ
  | .ready => k.readyList
  | .queue s => (k.semaphore s).queue
  | .hilos c => k.hilos c

/-! ## What an instruction does to the lists -/

/-- The places depend on the lists only. -/
theorem place_eq {k k' : Kernel} (hready : k'.readyList = k.readyList)
    (hqueue : ∀ s, (k'.semaphore s).queue = (k.semaphore s).queue) (hhilos : k'.hilos = k.hilos) :
    k'.place = k.place := by
  funext p
  cases p with
  | ready => exact hready
  | queue s => exact hqueue s
  | hilos c => exact congrFun hhilos c

/-- The ready list and the queue of one semaphore are others now. -/
theorem place_of_queue {k k' : Kernel} {s : SemId} {queue : List ℕ}
    (hqueue : (k'.semaphore s).queue = queue)
    (hothers : ∀ s', s' ≠ s → k'.semaphore s' = k.semaphore s') (hhilos : k'.hilos = k.hilos) :
    k'.place = Function.update (Function.update k.place (.queue s) queue) .ready k'.readyList := by
  funext p
  cases p with
  | ready => rfl
  | queue s' =>
    have hne : Place.queue s' ≠ .ready := by simp
    show (k'.semaphore s').queue = _
    rw [Function.update_of_ne hne]
    by_cases hs : s' = s
    · rw [hs, Function.update_self, hqueue]
    · rw [hothers s' hs, Function.update_of_ne (by simpa using hs)]
      rfl
  | hilos c =>
    rw [Function.update_of_ne (by simp), Function.update_of_ne (by simp)]
    exact congrFun hhilos c

/-- The ready list and the list of one condition variable are others now. -/
theorem place_of_hilos {k k' : Kernel} {c : ℕ} {threads : List ℕ}
    (hsem : k'.semaphore = k.semaphore) (hhilos : k'.hilos = Function.update k.hilos c threads) :
    k'.place = Function.update (Function.update k.place (.hilos c) threads)
      .ready k'.readyList := by
  funext p
  cases p with
  | ready => rfl
  | queue s =>
    rw [Function.update_of_ne (by simp), Function.update_of_ne (by simp)]
    show (k'.semaphore s).queue = _
    rw [hsem]
    rfl
  | hilos c' =>
    have hne : Place.hilos c' ≠ .ready := by simp
    show k'.hilos c' = _
    rw [hhilos, Function.update_of_ne hne]
    by_cases hc : c' = c
    · rw [hc, Function.update_self, Function.update_self]
    · rw [Function.update_of_ne hc, Function.update_of_ne (by simpa using hc)]
      rfl

/-- Only the ready list is another now. -/
theorem place_of_ready {k k' : Kernel} (hsem : k'.semaphore = k.semaphore)
    (hhilos : k'.hilos = k.hilos) :
    k'.place = Function.update k.place .ready k'.readyList := by
  funext p
  cases p with
  | ready => rfl
  | queue s =>
    rw [Function.update_of_ne (by simp)]
    show (k'.semaphore s).queue = _
    rw [hsem]
    rfl
  | hilos c =>
    rw [Function.update_of_ne (by simp)]
    exact congrFun hhilos c

/-- Taking a thread from another list leaves the ready list. -/
theorem update_ready_self (k : Kernel) {p : Place} {threads : List ℕ} (hp : .ready ≠ p) :
    Function.update (Function.update k.place p threads) .ready k.readyList =
      Function.update k.place p threads := by
  rw [Function.update_eq_self_iff, Function.update_of_ne hp]
  rfl

/-- What an instruction does to the lists and to the processor, and what it puts in front of
the code of the thread. -/
inductive Rearranged (place : Place → List ℕ) (current : ℕ) :
    Instr → List Instr → (Place → List ℕ) → ℕ → Prop where
  | same {instr : Instr} {pushed : List Instr} (h : instr ≠ .sleep)
    (hpushed : pushed = [] ∨
      (pushed = [.oneTick] ∧ (instr = .restoreLevel ∨ instr = .setLevel .intOn))) :
    Rearranged place current instr pushed place current
  | queued {instr : Instr} {s : SemId} (h : instr = .p s ∨ instr = .pRetry s) :
    Rearranged place current instr [.sleep, .pRetry s]
      (Function.update place (.queue s) (place (.queue s) ++ [current])) current
  | enlisted (c : ℕ) : Rearranged place current (.appendHilos c) []
      (Function.update place (.hilos c) (place (.hilos c) ++ [current])) current
  | woke {instr : Instr} {p : Place} {t : ℕ} {ts : List ℕ} (h : instr ≠ .sleep)
    (hsave : instr ≠ .saveLevel) (hready : .ready ≠ p) (hp : place p = t :: ts) :
    Rearranged place current instr [] (Function.update (Function.update place p ts) .ready
      (place .ready ++ [t])) current
  | wokeAll {instr : Instr} {p : Place} (h : instr ≠ .sleep) (hsave : instr ≠ .saveLevel)
    (hready : .ready ≠ p) :
    Rearranged place current instr [] (Function.update (Function.update place p []) .ready
      (place .ready ++ place p)) current
  | forked (t : ℕ) : Rearranged place current (.readyToRun t) []
      (Function.update place .ready (place .ready ++ [t])) current
  | yielded {t : ℕ} {ts : List ℕ} (hready : place .ready = t :: ts) :
    Rearranged place current .yieldCPU [] (Function.update place .ready (ts ++ [current])) t
  | slept {t : ℕ} {ts : List ℕ} (hready : place .ready = t :: ts) :
    Rearranged place current .sleep [] (Function.update place .ready ts) t

section

variable {place place₁ place₂ : Place → List ℕ} {current current₁ current₂ : ℕ} {instr : Instr}
  {pushed : List Instr}

theorem Rearranged.of_eq (h : Rearranged place current instr pushed place₁ current₁)
    (hplace : place₂ = place₁) (hcur : current₂ = current₁) :
    Rearranged place current instr pushed place₂ current₂ := by
  rw [hplace, hcur]
  exact h

/-- What an instruction can put in front of the code. -/
theorem Rearranged.mem_pushed (h : Rearranged place current instr pushed place₁ current₁)
    {x : Instr} (hx : x ∈ pushed) : x = .oneTick ∨ x = .sleep ∨
      ∃ s, x = .pRetry s ∧ (instr = .p s ∨ instr = .pRetry s) := by
  cases h with
  | same _ hpushed =>
    rcases hpushed with rfl | ⟨rfl, -⟩
    · cases hx
    · exact .inl (List.mem_singleton.mp hx)
  | @queued _ s hinstr =>
    rcases List.mem_cons.mp hx with rfl | hx
    · exact .inr (.inl rfl)
    · exact .inr (.inr ⟨s, List.mem_singleton.mp hx, hinstr⟩)
  | _ => cases hx

/-- It puts nobody into a list of a condition, and forks nobody. -/
theorem Rearranged.pushed_plain (h : Rearranged place current instr pushed place₁ current₁) :
    (∀ c, .appendHilos c ∉ pushed) ∧ ∀ t, .readyToRun t ∉ pushed := by
  constructor
  · intro c hc
    simpa using h.mem_pushed hc
  · intro t ht
    simpa using h.mem_pushed ht

/-- Only switching interrupts on and the loop of `P` put something in front of the code. -/
theorem Rearranged.pushed_eq_nil (h : Rearranged place current instr pushed place₁ current₁)
    (hrestore : instr ≠ .restoreLevel) (hlevel : instr ≠ .setLevel .intOn)
    (hp : ∀ s, instr ≠ .p s ∧ instr ≠ .pRetry s) : pushed = [] := by
  cases h with
  | same _ hpushed =>
    rcases hpushed with hpushed | ⟨-, hinstr | hinstr⟩
    · exact hpushed
    · exact absurd hinstr hrestore
    · exact absurd hinstr hlevel
  | @queued _ s hinstr =>
    rcases hinstr with hinstr | hinstr
    · exact absurd hinstr (hp s).1
    · exact absurd hinstr (hp s).2
  | _ => rfl

/-- What an instruction can put in a list that was nowhere: the running thread, or one that it
has made. -/
theorem Rearranged.occurs {t : ℕ} (h : Rearranged place current instr pushed place₁ current₁)
    (hoccurs : Occurs place₁ t) : Occurs place t ∨ instr = .readyToRun t ∨
      (t = current ∧ instr ≠ .setLevel .intOff ∧ instr ≠ .toBeDestroyed ∧
        instr ≠ .sleep) := by
  cases h with
  | same _ _ => exact .inl hoccurs
  | queued hinstr =>
    rcases occurs_append.mp hoccurs with rfl | hoccurs
    · refine .inr (.inr ⟨rfl, ?_⟩)
      rcases hinstr with rfl | rfl <;> simp
    · exact .inl hoccurs
  | enlisted c =>
    rcases occurs_append.mp hoccurs with rfl | hoccurs
    · exact .inr (.inr ⟨rfl, by simp⟩)
    · exact .inl hoccurs
  | woke _ _ hready hp => exact .inl (occurs_of_move hp hready hoccurs)
  | wokeAll _ _ _ => exact .inl (occurs_of_moveAll hoccurs)
  | forked t' =>
    rcases occurs_append.mp hoccurs with rfl | hoccurs
    · exact .inr (.inl rfl)
    · exact .inl hoccurs
  | yielded hready =>
    rcases occurs_of_rotate hready hoccurs with rfl | hoccurs
    · exact .inr (.inr ⟨rfl, by simp⟩)
    · exact .inl hoccurs
  | slept hready => exact .inl (occurs_of_tail hready hoccurs)

/-- Every thread stays in at most one list. -/
theorem Rearranged.apart (h : Rearranged place current instr pushed place₁ current₁)
    (hapart : Apart place) (hnowhere : instr ≠ .sleep → ¬ Occurs place current)
    (hfork : ∀ t, instr = .readyToRun t → ¬ Occurs place t) : Apart place₁ := by
  cases h with
  | same _ _ => exact hapart
  | queued hinstr => exact hapart.append (hnowhere (by rcases hinstr with rfl | rfl <;> simp))
  | enlisted c => exact hapart.append (hnowhere (by simp))
  | woke _ _ hready hp => exact hapart.move hp hready
  | wokeAll _ _ hready => exact hapart.moveAll hready
  | forked t => exact hapart.append (hfork t rfl)
  | yielded hready => exact (hapart.rotate hready (hnowhere (by simp))).1
  | slept hready => exact hapart.tail hready

/-- The thread that runs next is in a list only if it has put itself there to sleep. -/
theorem Rearranged.parked (h : Rearranged place current instr pushed place₁ current₁)
    (hapart : Apart place) (hnowhere : instr ≠ .sleep → ¬ Occurs place current)
    (hfork : ∀ t, instr = .readyToRun t → t ≠ current) (hoccurs : Occurs place₁ current₁) :
    current₁ = current ∧ ((∃ s, pushed = [.sleep, .pRetry s]) ∨
      ∃ c, instr = .appendHilos c ∧ pushed = []) := by
  cases h with
  | same hinstr _ => exact absurd hoccurs (hnowhere hinstr)
  | @queued _ s hinstr => exact ⟨rfl, .inl ⟨s, rfl⟩⟩
  | enlisted c => exact ⟨rfl, .inr ⟨c, rfl, rfl⟩⟩
  | woke hinstr _ hready hp => exact absurd (occurs_of_move hp hready hoccurs) (hnowhere hinstr)
  | wokeAll hinstr _ _ => exact absurd (occurs_of_moveAll hoccurs) (hnowhere hinstr)
  | forked t =>
    rcases occurs_append.mp hoccurs with heq | hoccurs
    · exact absurd heq.symm (hfork t rfl)
    · exact absurd hoccurs (hnowhere (by simp))
  | yielded hready => exact absurd hoccurs (hapart.rotate hready (hnowhere (by simp))).2
  | slept hready => exact absurd hoccurs (hapart.not_occurs_tail hready)

/-- Saving the level moves nobody. -/
theorem Rearranged.saveLevel (h : Rearranged place current .saveLevel pushed place₁ current₁) :
    pushed = [] ∧ place₁ = place ∧ current₁ = current := by
  cases h with
  | same _ hpushed =>
    rcases hpushed with hpushed | ⟨-, hinstr⟩
    · exact ⟨hpushed, rfl, rfl⟩
    · simp at hinstr
  | queued hinstr => simp at hinstr
  | woke _ hsave _ _ => exact absurd rfl hsave
  | wokeAll _ hsave _ => exact absurd rfl hsave

/-- The processor goes to a thread of the ready list. -/
theorem Rearranged.next (h : Rearranged place current instr pushed place₁ current₁) :
    (current₁ = current ∧ instr ≠ .sleep) ∨ current₁ ∈ place .ready := by
  cases h with
  | same h _ => exact .inl ⟨rfl, h⟩
  | queued hinstr => exact .inl ⟨rfl, by rcases hinstr with rfl | rfl <;> simp⟩
  | enlisted c => exact .inl ⟨rfl, by simp⟩
  | woke h _ _ _ => exact .inl ⟨rfl, h⟩
  | wokeAll h _ _ => exact .inl ⟨rfl, h⟩
  | forked t => exact .inl ⟨rfl, by simp⟩
  | yielded hready =>
    rw [hready]
    exact .inr List.mem_cons_self
  | slept hready =>
    rw [hready]
    exact .inr List.mem_cons_self

end

section

variable (k : Kernel)

@[simp] theorem setLevel_readyList (now : IntStatus) :
    (k.setLevel now).readyList = k.readyList := by
  unfold setLevel
  dsimp only
  split <;> rfl

@[simp] theorem setLevel_hilos (now : IntStatus) : (k.setLevel now).hilos = k.hilos := by
  unfold setLevel
  dsimp only
  split <;> rfl

@[simp] theorem setLevel_currentThread (now : IntStatus) :
    (k.setLevel now).currentThread = k.currentThread := by
  unfold setLevel
  dsimp only
  split <;> rfl

@[simp] theorem setLevel_created (now : IntStatus) : (k.setLevel now).created = k.created := by
  unfold setLevel
  dsimp only
  split <;> rfl

@[simp] theorem run_readyList (t : ℕ) : (k.run t).readyList = k.readyList := by
  unfold Kernel.run
  split <;> rfl

@[simp] theorem run_hilos (t : ℕ) : (k.run t).hilos = k.hilos := by
  unfold Kernel.run
  split <;> rfl

@[simp] theorem run_currentThread (t : ℕ) : (k.run t).currentThread = t := by
  unfold Kernel.run
  split <;> rfl

@[simp] theorem run_created (t : ℕ) : (k.run t).created = k.created := by
  unfold Kernel.run
  split <;> rfl

@[simp] theorem enter_readyList (s : SemId) : (k.enter s).readyList = k.readyList := by
  cases s <;> rfl

@[simp] theorem enter_hilos (s : SemId) : (k.enter s).hilos = k.hilos := by
  cases s <;> rfl

@[simp] theorem enter_currentThread (s : SemId) :
    (k.enter s).currentThread = k.currentThread := by
  cases s <;> rfl

@[simp] theorem enter_created (s : SemId) : (k.enter s).created = k.created := by
  cases s <;> rfl

@[simp] theorem leave_readyList (s : SemId) : (k.leave s).readyList = k.readyList := by
  cases s <;> rfl

@[simp] theorem leave_hilos (s : SemId) : (k.leave s).hilos = k.hilos := by
  cases s <;> rfl

@[simp] theorem leave_currentThread (s : SemId) :
    (k.leave s).currentThread = k.currentThread := by
  cases s <;> rfl

@[simp] theorem leave_created (s : SemId) : (k.leave s).created = k.created := by
  cases s <;> rfl

end

/-- Interrupts on or off, the threads stay where they are. -/
theorem setLevel_place (k : Kernel) (now : IntStatus) : (k.setLevel now).place = k.place :=
  place_eq (setLevel_readyList k now) (fun s => by rw [setLevel_semaphore]) (setLevel_hilos k now)

/-- So they do when a call of `P` begins. -/
theorem enter_place (k : Kernel) (s : SemId) : (k.enter s).place = k.place :=
  place_eq (enter_readyList k s) (fun s' => by rw [enter_semaphore]) (enter_hilos k s)

/-- And when it ends. -/
theorem leave_place (k : Kernel) (s : SemId) : (k.leave s).place = k.place :=
  place_eq (leave_readyList k s) (fun s' => by rw [leave_semaphore]) (leave_hilos k s)

theorem queue_setSemaphore (k : Kernel) (s : SemId) (sem : Semaphore) :
    ((k.setSemaphore s sem).semaphore s).queue = sem.queue := by
  show (Function.update k.semaphore s sem s).queue = _
  rw [Function.update_self]

/-- Writing other fields of a semaphore moves nobody. -/
theorem setSemaphore_place {k : Kernel} {s : SemId} {sem : Semaphore}
    (hqueue : sem.queue = (k.semaphore s).queue) : (k.setSemaphore s sem).place = k.place := by
  refine place_eq rfl (fun s' => ?_) rfl
  by_cases hs : s' = s
  · rw [hs, queue_setSemaphore, hqueue]
  · exact congrArg Semaphore.queue (Function.update_of_ne hs _ _)

/-- And when a woken thread goes on. -/
theorem resumed_place (k : Kernel) (s : SemId) : (k.resumed s).place = k.place :=
  setSemaphore_place rfl

/-- `V` moves the first thread of the queue to the end of the ready list. -/
theorem increment_rearranged {k k' : Kernel} {s : SemId} (h : k.increment s = .ok k') :
    k'.currentThread = k.currentThread ∧ k'.created = k.created ∧ k'.code = k.code ∧
      (k'.place = k.place ∨ ∃ t ts, k.place (.queue s) = t :: ts ∧
        k'.place = Function.update (Function.update k.place (.queue s) ts) .ready
          (k.readyList ++ [t])) := by
  unfold increment at h
  dsimp only at h
  split at h
  · cases h
  · split at h
    · rename_i hqueue
      cases h
      exact ⟨rfl, rfl, rfl, .inl (setSemaphore_place rfl)⟩
    · rename_i t ts hqueue
      cases h
      refine ⟨rfl, rfl, rfl, .inr ⟨t, ts, hqueue, ?_⟩⟩
      exact place_of_queue (queue_setSemaphore k s _)
        (fun s' hs => Function.update_of_ne hs _ _) rfl

/-- `P` takes a unit, or puts the running thread at the end of the queue. -/
theorem takeOrSleep_rearranged (k : Kernel) (s : SemId) :
    (k.takeOrSleep s).currentThread = k.currentThread ∧
      (k.takeOrSleep s).created = k.created ∧
      (((k.takeOrSleep s).place = k.place ∧ (k.takeOrSleep s).code = k.code) ∨
        ((k.takeOrSleep s).place =
          Function.update k.place (.queue s) (k.place (.queue s) ++ [k.currentThread]) ∧
        (k.takeOrSleep s).code = Function.update k.code k.currentThread
          ([.sleep, .pRetry s] ++ k.code k.currentThread))) := by
  unfold takeOrSleep
  dsimp only
  split
  · refine ⟨rfl, rfl, .inr ⟨?_, rfl⟩⟩
    refine Eq.trans (place_of_queue (k := k) (queue_setSemaphore k s _)
      (fun s' hs => Function.update_of_ne hs _ _) rfl) (update_ready_self k (by simp))
  · refine ⟨enter_currentThread _ s, enter_created _ s, .inl ⟨?_, enter_code _ s⟩⟩
    exact (enter_place _ s).trans (setSemaphore_place rfl)

/-- Enabling interrupts is followed by a tick. -/
theorem setLevel_code_eq (k : Kernel) (now : IntStatus) :
    (k.setLevel now).code = Function.update k.code k.currentThread
      ((if now = .intOn ∧ k.level = .intOff then [.oneTick] else []) ++
        k.code k.currentThread) := by
  unfold setLevel
  dsimp only
  split
  · rfl
  · exact (Function.update_eq_self _ _).symm

/-- Nothing is put in front of the code. -/
theorem code_eq_update {k k' : Kernel} (h : k'.code = k.code) :
    k'.code = Function.update k.code k.currentThread ([] ++ k.code k.currentThread) :=
  h.trans (Function.update_eq_self _ _).symm

/-- One instruction, as far as lists, processor and code are concerned. -/
theorem exec_rearranged {k k' : Kernel} {instr : Instr} (h : k.exec instr = .ok k') :
    k'.created = k.created ∧ ∃ pushed, k'.code = Function.update k.code k.currentThread
        (pushed ++ k.code k.currentThread) ∧
      Rearranged k.place k.currentThread instr pushed k'.place k'.currentThread := by
  cases instr with
  | setLevel now =>
    cases h
    rw [setLevel_created, setLevel_place, setLevel_currentThread]
    -- turning interrupts on pushes the tick of `ChangeLevel`
    refine ⟨rfl, _, setLevel_code_eq k now, .same (by simp) ?_⟩
    by_cases hnow : now = .intOn ∧ k.level = .intOff
    · rw [if_pos hnow, hnow.1]
      exact .inr ⟨rfl, .inr rfl⟩
    · rw [if_neg hnow]
      exact .inl rfl
  | saveLevel =>
    cases h
    rw [setLevel_created, setLevel_place, setLevel_currentThread]
    exact ⟨rfl, _, setLevel_code_eq _ .intOff, .same (by simp) (.inl rfl)⟩
  | restoreLevel =>
    rw [exec] at h
    split at h
    · cases h
    · rename_i old olds _
      cases h
      rw [setLevel_created, setLevel_place, setLevel_currentThread]
      refine ⟨rfl, _, setLevel_code_eq _ old, .same (by simp) ?_⟩
      split
      · exact .inr ⟨rfl, .inl rfl⟩
      · exact .inl rfl
  | oneTick => cases h
  | p s =>
    cases h
    obtain ⟨hcur, hcreated, ⟨hplace, hcode⟩ | ⟨hplace, hcode⟩⟩ := takeOrSleep_rearranged k s
    · rw [hcur, hcreated, hplace]
      exact ⟨rfl, _, code_eq_update hcode, .same (by simp) (.inl rfl)⟩
    · rw [hcur, hcreated, hplace]
      exact ⟨rfl, _, hcode, .queued (.inl rfl)⟩
  | pRetry s =>
    cases h
    obtain ⟨hcur, hcreated, ⟨hplace, hcode⟩ | ⟨hplace, hcode⟩⟩ :=
      takeOrSleep_rearranged (k.resumed s) s
    · rw [hcur, hcreated, hplace, resumed_place]
      exact ⟨rfl, _, code_eq_update hcode, .same (by simp) (.inl rfl)⟩
    · rw [hcur, hcreated, hplace, resumed_place]
      exact ⟨rfl, _, hcode, .queued (.inr rfl)⟩
  | v s =>
    obtain ⟨k₁, hinc, h⟩ := bind_ok_iff.mp h
    cases h
    obtain ⟨hcur, hcreated, hcode, hplace⟩ := increment_rearranged hinc
    rw [leave_created, leave_currentThread, leave_place, hcur, hcreated]
    refine ⟨rfl, [], code_eq_update ((leave_code k₁ s).trans hcode), ?_⟩
    -- the queue was empty, or `V` has made its first thread ready
    rcases hplace with hplace | ⟨t, ts, hqueue, hplace⟩
    · rw [hplace]
      exact .same (by simp) (.inl rfl)
    · rw [hplace]
      exact .woke (by simp) (by simp) (by simp) hqueue
  | destroy s =>
    cases h
    refine ⟨rfl, [], code_eq_update rfl, ?_⟩
    -- every thread of the queue becomes ready, in order
    refine (Rearranged.wokeAll (p := .queue s) (by simp) (by simp) (by simp)).of_eq ?_ rfl
    exact place_of_queue (queue_setSemaphore k s _)
      (fun s' hs => Function.update_of_ne hs _ _) rfl
  | setOwner l =>
    cases h
    exact ⟨rfl, [], code_eq_update rfl, .same (by simp) (.inl rfl)⟩
  | clearOwner l =>
    cases h
    exact ⟨rfl, [], code_eq_update rfl, .same (by simp) (.inl rfl)⟩
  | appendHilos c =>
    cases h
    refine ⟨rfl, [], code_eq_update rfl, (Rearranged.enlisted c).of_eq ?_ rfl⟩
    exact Eq.trans (place_of_hilos (k := k) (c := c) rfl rfl) (update_ready_self k (by simp))
  | signal c =>
    rw [exec] at h
    split at h
    · cases h
      exact ⟨rfl, [], code_eq_update rfl, .same (by simp) (.inl rfl)⟩
    · rename_i hhilos
      cases h
      refine ⟨rfl, [], code_eq_update rfl, ?_⟩
      -- only the first thread of the list becomes ready
      refine (Rearranged.woke (p := .hilos c) (by simp) (by simp) (by simp) hhilos).of_eq ?_ rfl
      exact place_of_hilos rfl rfl
  | broadcast c =>
    cases h
    refine ⟨rfl, [], code_eq_update rfl, ?_⟩
    -- all threads of the list become ready
    refine (Rearranged.wokeAll (p := .hilos c) (by simp) (by simp) (by simp)).of_eq ?_ rfl
    exact place_of_hilos rfl rfl
  | readyToRun t =>
    cases h
    exact ⟨rfl, [], code_eq_update rfl, (Rearranged.forked t).of_eq (place_of_ready rfl rfl) rfl⟩
  | yieldCPU =>
    rw [exec] at h
    split at h
    · cases h
      exact ⟨rfl, [], code_eq_update rfl, .same (by simp) (.inl rfl)⟩
    · rename_i hready
      cases h
      refine ⟨run_created _ _, [], code_eq_update (run_code _ _), ?_⟩
      refine (Rearranged.yielded hready).of_eq ?_ (run_currentThread _ _)
      refine Eq.trans (place_of_ready (k := k) (run_semaphore _ _) (run_hilos _ _)) ?_
      rw [run_readyList]
      rfl
  | sleep =>
    rw [exec] at h
    split at h
    · cases h
    · split at h
      · cases h
      · rename_i hready
        cases h
        refine ⟨run_created _ _, [], code_eq_update (run_code _ _), ?_⟩
        refine (Rearranged.slept hready).of_eq ?_ (run_currentThread _ _)
        refine Eq.trans (place_of_ready (k := k) (run_semaphore _ _) (run_hilos _ _)) ?_
        rw [run_readyList]
  | toBeDestroyed =>
    cases h
    exact ⟨rfl, [], code_eq_update rfl, .same (by simp) (.inl rfl)⟩

/-- The same for the next instruction of the code. -/
theorem exec_withRest_rearranged {k k' : Kernel} {instr : Instr} {rest : List Instr}
    (h : (k.withRest rest).exec instr = .ok k') :
    k'.created = k.created ∧ ∃ pushed,
      k'.code = Function.update k.code k.currentThread (pushed ++ rest) ∧
      Rearranged k.place k.currentThread instr pushed k'.place k'.currentThread := by
  obtain ⟨hcreated, pushed, hcode, hre⟩ := exec_rearranged h
  refine ⟨hcreated, pushed, ?_, hre⟩
  rw [hcode]
  show Function.update (Function.update k.code k.currentThread rest) k.currentThread
    (pushed ++ Function.update k.code k.currentThread rest k.currentThread) = _
  rw [Function.update_self, Function.update_idem]

/-! ## The code of a thread that goes to sleep or forks another -/

/-- A thread that puts itself in the list of a condition variable goes to sleep next. -/
def Parks (code : List Instr) : Prop :=
  ∀ c rest, (.appendHilos c :: rest) <:+ code → ∃ rest', rest = .sleep :: rest'

/-- The rest of the code. -/
theorem Parks.tail {instr : Instr} {rest : List Instr} (h : Parks (instr :: rest)) :
    Parks rest := fun c rest' hsuffix => h c rest' (hsuffix.trans (List.suffix_cons instr rest))

/-- What is put in front of it puts nobody into a list of a condition. -/
theorem Parks.append {pushed rest : List Instr} (hrest : Parks rest)
    (hpushed : ∀ c, .appendHilos c ∉ pushed) : Parks (pushed ++ rest) := by
  induction pushed with
  | nil => exact hrest
  | cons instr pushed ih =>
    intro c rest' hsuffix
    rcases List.suffix_cons_iff.mp hsuffix with heq | hsuffix
    · obtain ⟨rfl, -⟩ := List.cons.inj heq
      exact absurd List.mem_cons_self (hpushed c)
    · exact ih (fun c' hc => hpushed c' (List.mem_cons_of_mem instr hc)) c rest' hsuffix

/-- In every routine `Sleep` follows at once. -/
theorem Call.routine_parks (c : Call) : Parks c.routine := by
  intro c' rest hsuffix
  cases c with
  | wait c l =>
    simp only [Call.routine, conditionWait, lockRelease, lockAcquire, semaphoreV, semaphoreP,
      List.cons_append, List.nil_append, List.suffix_cons_iff, List.cons.injEq, reduceCtorEq,
      false_and, List.suffix_nil, or_false, false_or] at hsuffix
    exact ⟨_, hsuffix.2⟩
  | _ =>
    simp [Call.routine, semaphoreP, semaphoreV, semaphoreDestroy, lockAcquire, lockRelease,
      conditionSignal, conditionBroadcast, threadYield, threadFork, threadFinish,
      List.suffix_cons_iff] at hsuffix

/-- Thread `u` has made thread `t` and is about to put it in the ready list. -/
structure Forking (k : Kernel) (t u : ℕ) : Prop where
  current : u = k.currentThread
  ne : t ≠ u
  created : k.created t = true
  nowhere : ¬ Occurs k.place t
  code : k.code u = threadFork t ∨ k.code u = [.readyToRun t, .restoreLevel]

/-- Every thread is in at most one list and there once. The one that runs is in none, except
before its `Sleep`. -/
structure Placed (k : Kernel) : Prop where
  apart : Apart k.place
  created : ∀ t, Occurs k.place t → k.created t = true
  current : k.created k.currentThread = true
  running : Occurs k.place k.currentThread → ∃ rest, k.code k.currentThread = .sleep :: rest
  parks : ∀ t, Parks (k.code t)
  forks : ∀ t u, .readyToRun t ∈ k.code u → Forking k t u

/-- Only a thread about to sleep is in a list while it runs. -/
theorem Placed.nowhere {k : Kernel} {instr : Instr} {rest : List Instr} (h : Placed k)
    (hcode : k.code k.currentThread = instr :: rest) (hinstr : instr ≠ .sleep) :
    ¬ Occurs k.place k.currentThread := by
  intro hoccurs
  obtain ⟨rest', hcode'⟩ := h.running hoccurs
  rw [hcode] at hcode'
  exact hinstr (List.cons.inj hcode').1

/-- Only a thread that saves the level has yet to put another one in the ready list
afterwards. -/
theorem Placed.not_forks {k : Kernel} {instr : Instr} {rest pushed : List Instr} (h : Placed k)
    (hcode : k.code k.currentThread = instr :: rest) (hinstr : instr ≠ .saveLevel)
    (hpushed : ∀ t, .readyToRun t ∉ pushed) (t u : ℕ) :
    .readyToRun t ∉ Function.update k.code k.currentThread (pushed ++ rest) u := by
  intro hmem
  by_cases hu : u = k.currentThread
  · rw [hu, Function.update_self] at hmem
    rcases List.mem_append.mp hmem with hmem | hmem
    · exact hpushed t hmem
    · have hfork := h.forks t k.currentThread (by rw [hcode]; exact List.mem_cons_of_mem _ hmem)
      rcases hfork.code with hcode' | hcode'
      · rw [hcode] at hcode'
        exact hinstr (List.cons.inj hcode').1
      · rw [hcode, List.cons.injEq] at hcode'
        rw [hcode'.2] at hmem
        simp at hmem
  · rw [Function.update_of_ne hu] at hmem
    exact hu (h.forks t u hmem).current

theorem Placed.parks_update {k : Kernel} {instr : Instr} {rest pushed : List Instr}
    (h : Placed k) (hcode : k.code k.currentThread = instr :: rest)
    (hpushed : ∀ c, .appendHilos c ∉ pushed) (t : ℕ) :
    Parks (Function.update k.code k.currentThread (pushed ++ rest) t) := by
  by_cases ht : t = k.currentThread
  · have hparks := h.parks k.currentThread
    rw [hcode] at hparks
    rw [ht, Function.update_self]
    exact hparks.tail.append hpushed
  · rw [Function.update_of_ne ht]
    exact h.parks t

/-! ## Steps -/

/-- The routine of `Fork`: the new thread is put in the ready list next. -/
theorem Placed.forks_saveLevel {k k' : Kernel} {rest : List Instr} (hplaced : Placed k)
    (hcode : k.code k.currentThread = .saveLevel :: rest) (hplace : k'.place = k.place)
    (hcreated : k'.created = k.created) (hcur : k'.currentThread = k.currentThread)
    (hcode' : k'.code = Function.update k.code k.currentThread rest) {t u : ℕ}
    (hmem : .readyToRun t ∈ k'.code u) : Forking k' t u := by
  have hu : u = k.currentThread := by
    by_contra hu
    rw [hcode', Function.update_of_ne hu] at hmem
    exact hu (hplaced.forks t u hmem).current
  have hself : k'.code k.currentThread = rest := by
    rw [hcode', Function.update_self]
  rw [hu, hself] at hmem
  have hfork := hplaced.forks t k.currentThread
    (by rw [hcode]; exact List.mem_cons_of_mem _ hmem)
  refine ⟨hu.trans hcur.symm, ?_, ?_, ?_, .inr ?_⟩
  · rw [hu]
    exact hfork.ne
  · rw [hcreated]
    exact hfork.created
  · rw [hplace]
    exact hfork.nowhere
  · have hcode₀ := hfork.code
    rw [hcode] at hcode₀
    rw [hu, hself]
    simpa [threadFork] using hcode₀

/-- One instruction keeps everybody in place. -/
theorem exec_placed {k k' : Kernel} {instr : Instr} {rest : List Instr} (hplaced : Placed k)
    (hcode : k.code k.currentThread = instr :: rest)
    (h : (k.withRest rest).exec instr = .ok k') : Placed k' := by
  obtain ⟨hcreated, pushed, hcode', hre⟩ := exec_withRest_rearranged h
  obtain ⟨hnoHilos, hnoFork⟩ := hre.pushed_plain
  have hnowhere : instr ≠ .sleep → ¬ Occurs k.place k.currentThread := hplaced.nowhere hcode
  have hforking : ∀ t, instr = .readyToRun t → Forking k t k.currentThread := by
    rintro t rfl
    exact hplaced.forks t k.currentThread (by rw [hcode]; exact List.mem_cons_self)
  refine ⟨?apart, fun t hoccurs => ?created, ?current, fun hoccurs => ?running, ?parks,
    fun t u hmem => ?forks⟩
  case apart => exact hre.apart hplaced.apart hnowhere fun t ht => (hforking t ht).nowhere
  case created =>
    rw [hcreated]
    rcases hre.occurs hoccurs with hoccurs | hfork | ⟨rfl, -⟩
    · exact hplaced.created t hoccurs
    · exact (hforking t hfork).created
    · exact hplaced.current
  case current =>
    rw [hcreated]
    rcases hre.next with ⟨hcur, -⟩ | hready
    · rw [hcur]
      exact hplaced.current
    · exact hplaced.created _ ⟨.ready, hready⟩
  case running =>
    -- the running thread is in a queue only while it is about to sleep
    obtain ⟨hcur, hpushed⟩ :=
      hre.parked hplaced.apart hnowhere (fun t ht => (hforking t ht).ne) hoccurs
    rw [hcur, hcode', Function.update_self]
    rcases hpushed with ⟨s, rfl⟩ | ⟨c, rfl, rfl⟩
    · exact ⟨_, rfl⟩
    · exact hplaced.parks k.currentThread c rest ⟨[], hcode.symm⟩
  case parks =>
    rw [hcode']
    exact hplaced.parks_update hcode hnoHilos
  case forks =>
    by_cases hsave : instr = .saveLevel
    · subst hsave
      obtain ⟨rfl, hplace, hcur⟩ := hre.saveLevel
      exact hplaced.forks_saveLevel hcode hplace hcreated hcur hcode' hmem
    · rw [hcode'] at hmem
      exact absurd hmem (hplaced.not_forks hcode hsave hnoFork t u)

/-- What the handlers do to the lists: they move waiting threads to the ready list. -/
theorem handle_placed {handlers : List Handler} {k k' : Kernel} (hapart : Apart k.place)
    (h : k.handle handlers = .ok k') : Apart k'.place ∧ k'.created = k.created ∧
      ∀ t, Occurs k'.place t → Occurs k.place t := by
  induction handlers generalizing k with
  | nil =>
    cases h
    exact ⟨hapart, rfl, fun _ hoccurs => hoccurs⟩
  | cons handler handlers ih =>
    cases handler with
    | v n =>
      obtain ⟨k₁, hinc, h⟩ := bind_ok_iff.mp h
      obtain ⟨-, hcreated, -, hplace⟩ := increment_rearranged hinc
      obtain ⟨hapart₁, hoccurs₁⟩ : Apart k₁.place ∧ ∀ t, Occurs k₁.place t → Occurs k.place t := by
        rcases hplace with hplace | ⟨t, ts, hqueue, hplace⟩
        · rw [hplace]
          exact ⟨hapart, fun _ hoccurs => hoccurs⟩
        · rw [hplace]
          exact ⟨hapart.move hqueue (by simp), fun _ => occurs_of_move hqueue (by simp)⟩
      obtain ⟨hapart', hcreated', hoccurs'⟩ := ih hapart₁ h
      exact ⟨hapart', hcreated'.trans hcreated, fun t ht => hoccurs₁ t (hoccurs' t ht)⟩
    | timer => exact ih (k := { k with yieldOnReturn := true }) hapart h

/-- What a tick does: the handlers run, and the thread goes on, after a `Yield` if the timer
has asked for one. -/
theorem tick_frame {k k' : Kernel} {handlers : List Handler} {rest : List Instr}
    (h : (k.withRest rest).tick handlers = .ok k') : ∃ k₁ pushed,
      (k.withRest rest).handle handlers = .ok k₁ ∧ (pushed = [] ∨ pushed = threadYield) ∧
      k' = { k₁ with
        level := .intOn
        yieldOnReturn := false
        code := Function.update k.code k.currentThread (pushed ++ rest) } := by
  obtain ⟨k₁, hhandle, h⟩ := bind_ok_iff.mp h
  obtain ⟨-, hcode, hcur, -⟩ := handle_frame hhandle
  have hcode : k₁.code = Function.update k.code k.currentThread rest := hcode
  have hcur : k₁.currentThread = k.currentThread := hcur
  rw [← pure_ok_iff.mp h]
  dsimp only
  split
  · refine ⟨k₁, threadYield, hhandle, .inr rfl, ?_⟩
    unfold push
    dsimp only
    rw [hcode, hcur, Function.update_self, Function.update_idem]
  · rename_i hyield
    refine ⟨k₁, [], hhandle, .inl rfl, ?_⟩
    have hyield : k₁.yieldOnReturn = false := by simpa using hyield
    rw [List.nil_append, ← hcode, ← hyield]

/-- A tick moves the threads that its handlers wake, and may yield. -/
theorem tick_placed {k k' : Kernel} {handlers : List Handler} {rest : List Instr}
    (hplaced : Placed k) (hcode : k.code k.currentThread = .oneTick :: rest)
    (h : (k.withRest rest).tick handlers = .ok k') : Placed k' := by
  obtain ⟨k₁, pushed, hhandle, hpushed, rfl⟩ := tick_frame h
  obtain ⟨hapart, hcreated, hoccurs⟩ :=
    handle_placed (k := k.withRest rest) hplaced.apart hhandle
  obtain ⟨-, -, hcur, -⟩ := handle_frame hhandle
  have hnoHilos : ∀ c, .appendHilos c ∉ pushed := by
    intro c
    rcases hpushed with rfl | rfl <;> simp [threadYield]
  have hnoFork : ∀ t, .readyToRun t ∉ pushed := by
    intro t
    rcases hpushed with rfl | rfl <;> simp [threadYield]
  refine ⟨hapart, fun t ht => ?_, ?_, fun ht => ?_, hplaced.parks_update hcode hnoHilos,
    fun t u hmem => ?_⟩
  · show k₁.created t = true
    rw [hcreated]
    exact hplaced.created t (hoccurs t ht)
  · show k₁.created k₁.currentThread = true
    rw [hcreated, hcur]
    exact hplaced.current
  · have ht : Occurs k₁.place k₁.currentThread := ht
    rw [hcur] at ht
    exact absurd (hoccurs _ ht) (hplaced.nowhere hcode (by simp))
  · exact absurd hmem (hplaced.not_forks hcode (by simp) hnoFork t u)

/-- An idle kernel moves the threads that the handlers wake. -/
theorem idle_placed {k k' : Kernel} {handlers : List Handler} {rest : List Instr}
    (hplaced : Placed k) (hcode : k.code k.currentThread = .sleep :: rest)
    (h : k.idle handlers = .ok k') : Placed k' := by
  obtain ⟨k₁, hhandle, h⟩ := bind_ok_iff.mp h
  obtain ⟨hapart, hcreated, hoccurs⟩ := handle_placed hplaced.apart hhandle
  obtain ⟨-, hcode₁, hcur, -⟩ := handle_frame hhandle
  rw [← pure_ok_iff.mp h]
  refine ⟨hapart, fun t ht => ?_, ?_, fun _ => ⟨rest, ?_⟩, fun t => ?_, fun t u hmem => ?_⟩
  · show k₁.created t = true
    rw [hcreated]
    exact hplaced.created t (hoccurs t ht)
  · show k₁.created k₁.currentThread = true
    rw [hcreated, hcur]
    exact hplaced.current
  · show k₁.code k₁.currentThread = _
    rw [hcode₁, hcur, hcode]
  · show Parks (k₁.code t)
    rw [hcode₁]
    exact hplaced.parks t
  · have hmem : .readyToRun t ∈ k₁.code u := hmem
    rw [hcode₁] at hmem
    obtain ⟨hu, -, -, -, hcodeu⟩ := hplaced.forks t u hmem
    rw [hu, hcode] at hcodeu
    simp [threadFork] at hcodeu

/-- Only `Fork` puts a thread in the ready list that was nowhere. -/
theorem Call.readyToRun_mem_routine {c : Call} {t : ℕ} (h : .readyToRun t ∈ c.routine) :
    c = .fork t := by
  cases c with
  | fork t' =>
    simp [Call.routine, threadFork] at h
    rw [h]
  | _ =>
    simp [Call.routine, semaphoreP, semaphoreV, semaphoreDestroy, lockAcquire, lockRelease,
      conditionWait, conditionSignal, conditionBroadcast, threadYield, threadFinish] at h

/-- What a call does: the thread is about to execute the routine. -/
structure Called (k : Kernel) (c : Call) (k' : Kernel) : Prop where
  outside : k.code k.currentThread = []
  frame : k' = { k with code := k'.code, created := k'.created }
  code : k'.code k.currentThread = c.routine
  others : ∀ u, u ≠ k.currentThread →
    k'.code u = k.code u ∨ (k.created u = false ∧ k'.code u = threadRoot)
  created : ∀ u, k.created u = true → k'.created u = true
  forked : ∀ t, c = .fork t → k.created t = false ∧ k'.created t = true

/-- A call puts its routine into the code, and a forked thread into the world. -/
theorem call_called {k k' : Kernel} {c : Call} (hcurrent : k.created k.currentThread = true)
    (h : k.step (.call c) = .ok k') : Called k c k' := by
  obtain ⟨hcode, k₁, rfl, hk₁⟩ := call_ok h
  rcases hk₁ with ⟨rfl, hfork⟩ | ⟨t, rfl, hnew⟩
  · refine ⟨hcode, rfl, ?_, fun u hu => .inl (Function.update_of_ne hu _ _), fun u hu => hu,
      fun t ht => absurd ht (hfork t)⟩
    show Function.update k₁.code k₁.currentThread _ k₁.currentThread = _
    rw [Function.update_self, hcode, List.append_nil]
  · obtain ⟨hnotCreated, rfl⟩ := newThread_ok hnew
    have hne : k.currentThread ≠ t := by
      intro heq
      rw [← heq, hcurrent] at hnotCreated
      cases hnotCreated
    refine ⟨hcode, rfl, ?_, fun u hu => ?_, fun u hu => ?_, fun u hu => ?_⟩
    · show Function.update (Function.update k.code t threadRoot) k.currentThread
        (threadFork t ++ Function.update k.code t threadRoot k.currentThread) k.currentThread = _
      rw [Function.update_self, Function.update_of_ne hne, hcode, List.append_nil]
      rfl
    · have heq : Function.update (Function.update k.code t threadRoot) k.currentThread
          (threadFork t ++ Function.update k.code t threadRoot k.currentThread) u =
          Function.update k.code t threadRoot u := Function.update_of_ne hu _ _
      by_cases hut : u = t
      · subst hut
        rw [Function.update_self] at heq
        exact .inr ⟨hnotCreated, heq⟩
      · rw [Function.update_of_ne hut] at heq
        exact .inl heq
    · show Function.update k.created t true u = true
      by_cases hut : u = t
      · rw [hut, Function.update_self]
      · rw [Function.update_of_ne hut]
        exact hu
    · cases hu
      exact ⟨hnotCreated, Function.update_self _ _ _⟩

/-- A call by itself moves nobody. -/
theorem Called.place {k k' : Kernel} {c : Call} (h : Called k c k') : k'.place = k.place := by
  rw [h.frame]
  rfl

theorem Called.currentThread {k k' : Kernel} {c : Call} (h : Called k c k') :
    k'.currentThread = k.currentThread := by
  rw [h.frame]

/-- A thread outside of the routines is in no list. -/
theorem Placed.outside {k : Kernel} (hplaced : Placed k) (hcode : k.code k.currentThread = []) :
    ¬ Occurs k.place k.currentThread := by
  intro hoccurs
  obtain ⟨rest, hsleep⟩ := hplaced.running hoccurs
  rw [hcode] at hsleep
  cases hsleep

/-- A new thread begins with enabling interrupts. -/
theorem threadRoot_parks : Parks threadRoot := (Call.setLevel .intOn).routine_parks

/-- A call keeps everybody in place. -/
theorem call_placed {k k' : Kernel} {c : Call} (hplaced : Placed k)
    (h : k.step (.call c) = .ok k') : Placed k' := by
  have hcalled := call_called hplaced.current h
  have hnowhere := hplaced.outside hcalled.outside
  have hcur := hcalled.currentThread
  have hplace := hcalled.place
  refine ⟨?apart, fun t ht => ?created, ?current, fun hoccurs => ?running, fun t => ?parks,
    fun t u hmem => ?forks⟩
  case apart =>
    rw [hplace]
    exact hplaced.apart
  case created =>
    rw [hplace] at ht
    exact hcalled.created t (hplaced.created t ht)
  case current =>
    rw [hcur]
    exact hcalled.created _ hplaced.current
  case running =>
    -- a thread calls only when it is in no queue
    rw [hplace, hcur] at hoccurs
    exact absurd hoccurs hnowhere
  case parks =>
    by_cases ht : t = k.currentThread
    · rw [ht, hcalled.code]
      exact c.routine_parks
    · rcases hcalled.others t ht with hcode | ⟨-, hcode⟩
      · rw [hcode]
        exact hplaced.parks t
      · rw [hcode]
        exact threadRoot_parks
  case forks =>
    -- a `Fork` that is pending is this call, or one of another thread, which does not run
    by_cases hu : u = k.currentThread
    · rw [hu, hcalled.code] at hmem
      obtain rfl := Call.readyToRun_mem_routine hmem
      obtain ⟨hnew, hcreated⟩ := hcalled.forked t rfl
      refine ⟨hu.trans hcur.symm, fun heq => ?_, hcreated, fun hoccurs => ?_, .inl ?_⟩
      · rw [heq, hu, hplaced.current] at hnew
        cases hnew
      · rw [hplace] at hoccurs
        rw [hplaced.created t hoccurs] at hnew
        cases hnew
      · rw [hu]
        exact hcalled.code
    · rcases hcalled.others u hu with hcode | ⟨-, hcode⟩
      · rw [hcode] at hmem
        exact absurd (hplaced.forks t u hmem).current hu
      · rw [hcode] at hmem
        simp [threadRoot] at hmem

theorem idle_ok_code {k k' : Kernel} {handlers : List Handler}
    (h : k.step (.idle handlers) = .ok k') : ∃ rest, k.code k.currentThread = .sleep :: rest := by
  rw [step] at h
  split at h
  · rename_i rest hcode _
    exact ⟨rest, hcode⟩
  · cases h

/-- So does every step. -/
theorem step_placed {k k' : Kernel} {e : Event} (hplaced : Placed k) (h : k.step e = .ok k') :
    Placed k' := by
  cases e with
  | call c => exact call_placed hplaced h
  | exec =>
    obtain ⟨instr, rest, hcode, h⟩ := exec_ok h
    exact exec_placed hplaced hcode h
  | tick handlers =>
    obtain ⟨rest, hcode, h⟩ := tick_ok h
    exact tick_placed hplaced hcode h
  | idle handlers =>
    obtain ⟨rest, hcode⟩ := idle_ok_code h
    exact idle_placed hplaced hcode (idle_ok h)

/-- There is only the main thread, which runs. -/
theorem Booted.placed {k : Kernel} (hboot : Booted k) : Placed k := by
  have hplace : ∀ p, k.place p = [] := by
    intro p
    cases p with
    | ready => exact hboot.readyList
    | queue s => exact (hboot.semaphore s).1
    | hilos c => exact hboot.hilos c
  have hnowhere : ∀ t, ¬ Occurs k.place t := by
    rintro t ⟨p, hp⟩
    rw [hplace p] at hp
    cases hp
  refine ⟨⟨fun p => ?_, fun {p _ t} hp _ => absurd ⟨p, hp⟩ (hnowhere t)⟩,
    fun t ht => absurd ht (hnowhere t), ?_, fun h => absurd h (hnowhere _), fun t => ?_,
    fun t u hmem => ?_⟩
  · rw [hplace p]
    exact List.nodup_nil
  · rw [hboot.created, Function.update_self]
  · rw [hboot.code]
    intro c rest hsuffix
    simp at hsuffix
  · rw [hboot.code] at hmem
    cases hmem

/-! ## Threads that have finished -/

/-- What is left of `Finish`. -/
def Finishing (code : List Instr) : Prop :=
  code = threadFinish ∨ code = [.toBeDestroyed, .sleep] ∨ code = [.sleep]

/-- The thread is in no list, and if it still runs it is in `Finish`. -/
structure Gone (t : ℕ) (k : Kernel) : Prop where
  nowhere : ¬ Occurs k.place t
  created : k.created t = true
  forks : ∀ u, .readyToRun t ∉ k.code u
  finishing : k.currentThread = t → Finishing (k.code t)

/-- A thread that has finished does not come back by an instruction. -/
theorem exec_gone {t : ℕ} {k k' : Kernel} {instr : Instr} {rest : List Instr}
    (hgone : Gone t k) (hcode : k.code k.currentThread = instr :: rest)
    (h : (k.withRest rest).exec instr = .ok k') : Gone t k' := by
  obtain ⟨hcreated, pushed, hcode', hre⟩ := exec_withRest_rearranged h
  have hinstr : k.currentThread = t → instr = .setLevel .intOff ∨ instr = .toBeDestroyed ∨
      instr = .sleep := by
    intro ht
    have hfin := hgone.finishing ht
    rw [← ht, hcode, Finishing, threadFinish] at hfin
    simp only [List.cons.injEq] at hfin
    rcases hfin with ⟨h, -⟩ | ⟨h, -⟩ | ⟨h, -⟩
    · exact .inl h
    · exact .inr (.inl h)
    · exact .inr (.inr h)
  refine ⟨fun hoccurs => ?_, ?_, fun u hmem => ?_, fun ht => ?_⟩
  · rcases hre.occurs hoccurs with hoccurs | rfl | ⟨ht, h₁, h₂, h₃⟩
    · exact hgone.nowhere hoccurs
    · exact hgone.forks k.currentThread (by rw [hcode]; exact List.mem_cons_self)
    · rcases hinstr ht.symm with h | h | h
      · exact h₁ h
      · exact h₂ h
      · exact h₃ h
  · rw [hcreated]
    exact hgone.created
  · rw [hcode'] at hmem
    by_cases hu : u = k.currentThread
    · rw [hu, Function.update_self] at hmem
      rcases List.mem_append.mp hmem with hmem | hmem
      · exact hre.pushed_plain.2 t hmem
      · exact hgone.forks k.currentThread (by rw [hcode]; exact List.mem_cons_of_mem _ hmem)
    · rw [Function.update_of_ne hu] at hmem
      exact hgone.forks u hmem
  · rcases hre.next with ⟨hcur, hsleep⟩ | hready
    · have ht : k.currentThread = t := hcur.symm.trans ht
      have hpushed : pushed = [] := by
        rcases hinstr ht with rfl | rfl | rfl <;>
          exact hre.pushed_eq_nil (by simp) (by simp) (by simp)
      have hfin := hgone.finishing ht
      rw [← ht, hcode] at hfin
      rw [← ht, hcode', Function.update_self, hpushed, List.nil_append]
      rcases hfin with hfin | hfin | hfin
      · rw [(List.cons.inj hfin).2]
        exact .inr (.inl rfl)
      · rw [(List.cons.inj hfin).2]
        exact .inr (.inr rfl)
      · exact absurd (List.cons.inj hfin).1 hsleep
    · exact absurd ⟨.ready, ht ▸ hready⟩ hgone.nowhere

/-- It does not run outside of `Finish`. -/
theorem Gone.current_ne {t : ℕ} {k : Kernel} (hgone : Gone t k)
    (hcode : ¬ Finishing (k.code k.currentThread)) : k.currentThread ≠ t := by
  intro ht
  refine hcode ?_
  rw [ht]
  exact hgone.finishing ht

/-- It does not come back by any step. -/
theorem step_gone {t : ℕ} {k k' : Kernel} {e : Event} (hplaced : Placed k) (hgone : Gone t k)
    (h : k.step e = .ok k') : Gone t k' := by
  cases e with
  | call c =>
    have hcalled := call_called hplaced.current h
    have hne : k.currentThread ≠ t :=
      hgone.current_ne (by rw [hcalled.outside]; simp [Finishing, threadFinish])
    refine ⟨?_, hcalled.created t hgone.created, fun u hmem => ?_, fun ht => ?_⟩
    · rw [hcalled.place]
      exact hgone.nowhere
    · by_cases hu : u = k.currentThread
      · rw [hu, hcalled.code] at hmem
        -- `Fork` makes a new thread, and this one exists already
        have hnew := (hcalled.forked t (Call.readyToRun_mem_routine hmem)).1
        rw [hgone.created] at hnew
        cases hnew
      · rcases hcalled.others u hu with hcode | ⟨-, hcode⟩
        · rw [hcode] at hmem
          exact hgone.forks u hmem
        · rw [hcode] at hmem
          simp [threadRoot] at hmem
    · rw [hcalled.currentThread] at ht
      exact absurd ht hne
  | exec =>
    obtain ⟨instr, rest, hcode, h⟩ := exec_ok h
    exact exec_gone hgone hcode h
  | tick handlers =>
    obtain ⟨rest, hcode, h⟩ := tick_ok h
    -- a finishing thread has nothing left to tick for
    have hne : k.currentThread ≠ t :=
      hgone.current_ne (by rw [hcode]; simp [Finishing, threadFinish])
    obtain ⟨k₁, pushed, hhandle, hpushed, rfl⟩ := tick_frame h
    obtain ⟨-, hcreated, hoccurs⟩ :=
      handle_placed (k := k.withRest rest) hplaced.apart hhandle
    obtain ⟨-, -, hcur, -⟩ := handle_frame hhandle
    refine ⟨fun ht => hgone.nowhere (hoccurs t ht), ?_, fun u hmem => ?_, fun ht => ?_⟩
    · show k₁.created t = true
      rw [hcreated]
      exact hgone.created
    · have hmem : .readyToRun t ∈ Function.update k.code k.currentThread (pushed ++ rest) u := hmem
      refine hplaced.not_forks hcode (by simp) (fun t => ?_) t u hmem
      rcases hpushed with rfl | rfl <;> simp [threadYield]
    · exact absurd (hcur.symm.trans ht) hne
  | idle handlers =>
    obtain ⟨k₁, hhandle, h⟩ := bind_ok_iff.mp (idle_ok h)
    obtain ⟨-, hcreated, hoccurs⟩ := handle_placed hplaced.apart hhandle
    obtain ⟨-, hcode, hcur, -⟩ := handle_frame hhandle
    rw [← pure_ok_iff.mp h]
    refine ⟨fun ht => hgone.nowhere (hoccurs t ht), ?_, fun u => ?_, fun ht => ?_⟩
    · show k₁.created t = true
      rw [hcreated]
      exact hgone.created
    · show .readyToRun t ∉ k₁.code u
      rw [hcode]
      exact hgone.forks u
    · show Finishing (k₁.code t)
      rw [hcode]
      exact hgone.finishing (hcur.symm.trans ht)

/-- A thread that calls `Finish` is in no list, and is in none from then on. -/
theorem call_finish_gone {k k' : Kernel} (hplaced : Placed k)
    (h : k.step (.call .finish) = .ok k') : Gone k.currentThread k' := by
  have hcalled := call_called hplaced.current h
  refine ⟨?_, hcalled.created _ hplaced.current, fun u hmem => ?_, fun _ => .inl hcalled.code⟩
  · rw [hcalled.place]
    exact hplaced.outside hcalled.outside
  · by_cases hu : u = k.currentThread
    · rw [hu, hcalled.code] at hmem
      simp [Call.routine, threadFinish] at hmem
    · rcases hcalled.others u hu with hcode | ⟨-, hcode⟩
      · rw [hcode] at hmem
        exact hu (hplaced.forks _ u hmem).current
      · rw [hcode] at hmem
        simp [threadRoot] at hmem

/-! ## The order of the ready list -/

/-- The threads the handlers put in the ready list. -/
def handlersMakeReady (k : Kernel) : List Handler → List ℕ
  | [] => []
  | .v n :: handlers => (k.semaphore (.user n)).queue.head?.toList ++
    match k.increment (.user n) with
    | .error _ => []
    | .ok k' => k'.handlersMakeReady handlers
  | .timer :: handlers => { k with yieldOnReturn := true }.handlersMakeReady handlers

/-- The threads that `ReadyToRun` is called for in an instruction. -/
def instrMakesReady (k : Kernel) : Instr → List ℕ
  | .v s => (k.semaphore s).queue.head?.toList
  | .destroy s => (k.semaphore s).queue
  | .signal c => (k.hilos c).head?.toList
  | .broadcast c => k.hilos c
  | .readyToRun t => [t]
  | .yieldCPU => if k.readyList = [] then [] else [k.currentThread]
  | _ => []

/-- The threads that are made ready in a step, in this order. -/
def madeReady (k : Kernel) : Event → List ℕ
  | .call _ => []
  | .exec =>
    match k.code k.currentThread with
    | [] => []
    | instr :: _ => k.instrMakesReady instr
  | .tick handlers =>
    match k.code k.currentThread with
    | [] => []
    | _ :: rest => (k.withRest rest).handlersMakeReady handlers
  | .idle handlers => k.handlersMakeReady handlers

/-- `Scheduler::Run` is called in the step. -/
def Dispatches (k : Kernel) (e : Event) : Prop :=
  e = .exec ∧ k.readyList ≠ [] ∧
    ((k.code k.currentThread).head? = some .yieldCPU ∨
      (k.code k.currentThread).head? = some .sleep)

instance (k : Kernel) (e : Event) : Decidable (Dispatches k e) :=
  inferInstanceAs (Decidable (_ ∧ _))

/-- The thread that gets the processor in the step. -/
def dispatched (k : Kernel) (e : Event) : List ℕ :=
  if Dispatches k e then
    match k.step e with
    | .error _ => []
    | .ok k' => [k'.currentThread]
  else []

/-- `V` makes one thread ready, if there is one in the queue. -/
theorem increment_readyList {k k' : Kernel} {s : SemId} (h : k.increment s = .ok k') :
    k'.readyList = k.readyList ++ (k.semaphore s).queue.head?.toList := by
  unfold increment at h
  dsimp only at h
  split at h
  · cases h
  · split at h
    · rename_i hqueue
      cases h
      rw [hqueue]
      exact (List.append_nil _).symm
    · rename_i hqueue
      cases h
      rw [hqueue]
      rfl

/-- Handlers make ready whom they wake, in this order. -/
theorem handle_readyList {handlers : List Handler} {k k' : Kernel}
    (h : k.handle handlers = .ok k') :
    k'.readyList = k.readyList ++ k.handlersMakeReady handlers := by
  induction handlers generalizing k with
  | nil =>
    cases h
    exact (List.append_nil _).symm
  | cons handler handlers ih =>
    cases handler with
    | v n =>
      obtain ⟨k₁, hinc, h⟩ := bind_ok_iff.mp h
      have hready : k₁.readyList =
          k.readyList ++ (k.semaphore (.user n)).queue.head?.toList := increment_readyList hinc
      rw [ih h, hready, handlersMakeReady, hinc, List.append_assoc]
    | timer => exact ih (k := { k with yieldOnReturn := true }) h

/-- `P` makes nobody ready. -/
theorem takeOrSleep_readyList (k : Kernel) (s : SemId) :
    (k.takeOrSleep s).readyList = k.readyList := by
  unfold takeOrSleep
  dsimp only
  split
  · rfl
  · exact enter_readyList _ s

/-- Whom an instruction makes ready goes to the end, and whom it dispatches was the first. -/
theorem exec_readyList {k k' : Kernel} {instr : Instr} (h : k.exec instr = .ok k') :
    k.readyList ++ k.instrMakesReady instr =
      (if k.readyList ≠ [] ∧ (instr = .yieldCPU ∨ instr = .sleep) then [k'.currentThread] else [])
        ++ k'.readyList := by
  -- a thread leaves the front of the list when another one yields or sleeps, and joins at its end
  cases instr with
  | setLevel now =>
    cases h
    simp [instrMakesReady]
  | saveLevel =>
    cases h
    simp [instrMakesReady, setOldLevels]
  | restoreLevel =>
    rw [exec] at h
    split at h
    · cases h
    · cases h
      simp [instrMakesReady, setOldLevels]
  | oneTick => cases h
  | p s =>
    cases h
    have hready : (k.takeOrSleep s).readyList = k.readyList := takeOrSleep_readyList k s
    simp [instrMakesReady, hready]
  | pRetry s =>
    cases h
    have hready : ((k.resumed s).takeOrSleep s).readyList = k.readyList :=
      takeOrSleep_readyList (k.resumed s) s
    simp [instrMakesReady, hready]
  | v s =>
    -- `V` makes the thread ready that it takes off the queue
    obtain ⟨k₁, hinc, h⟩ := bind_ok_iff.mp h
    cases h
    simp [instrMakesReady, increment_readyList hinc]
  | signal c =>
    rw [exec] at h
    split at h
    · rename_i hhilos
      cases h
      simp [instrMakesReady, hhilos]
    · rename_i hhilos
      cases h
      simp [instrMakesReady, hhilos, Kernel.readyToRun]
  | readyToRun t =>
    cases h
    simp [instrMakesReady, Kernel.readyToRun]
  | yieldCPU =>
    rw [exec] at h
    split at h
    · rename_i hready
      cases h
      simp [instrMakesReady, hready]
    · rename_i hready
      cases h
      simp [instrMakesReady, hready, Kernel.readyToRun]
  | sleep =>
    rw [exec] at h
    split at h
    · cases h
    · split at h
      · cases h
      · rename_i hready
        cases h
        simp [instrMakesReady, hready]
  | _ =>
    cases h
    simp [instrMakesReady, setLock]

/-- A step takes threads from the front of the ready list and adds them at the back. -/
theorem step_readyList {k k' : Kernel} {e : Event} (h : k.step e = .ok k') :
    k.readyList ++ madeReady k e = dispatched k e ++ k'.readyList := by
  cases e with
  | call c =>
    obtain ⟨-, k₁, rfl, hk₁⟩ := call_ok h
    have hready : k₁.readyList = k.readyList := by
      rcases hk₁ with ⟨rfl, -⟩ | ⟨t, -, hnew⟩
      · rfl
      · obtain ⟨-, rfl⟩ := newThread_ok hnew
        rfl
    simp [madeReady, dispatched, Dispatches, push, hready]
  | exec =>
    have hst := h
    obtain ⟨instr, rest, hcode, h⟩ := exec_ok h
    have hready := exec_readyList h
    simp only [madeReady, dispatched, Dispatches, hst, hcode, List.head?_cons, Option.some.injEq,
      true_and]
    exact hready
  | tick handlers =>
    obtain ⟨rest, hcode, h⟩ := tick_ok h
    obtain ⟨k₁, pushed, hhandle, -, rfl⟩ := tick_frame h
    simp only [madeReady, hcode, dispatched, Dispatches, reduceCtorEq, false_and, if_false,
      List.nil_append]
    exact (handle_readyList hhandle).symm
  | idle handlers =>
    obtain ⟨k₁, hhandle, h⟩ := bind_ok_iff.mp (idle_ok h)
    rw [← pure_ok_iff.mp h]
    simp only [madeReady, dispatched, Dispatches, reduceCtorEq, false_and, if_false,
      List.nil_append]
    exact (handle_readyList hhandle).symm

/-! ## Every run -/

/-- Thread `t` has called `Finish` in the run. -/
def CalledFinish (t : ℕ) (k : Kernel) (es : List Event) : Prop :=
  ∃ es₁ es₂ k₁, es = es₁ ++ .call .finish :: es₂ ∧ PartialRun.run step k es₁ = .ok k₁ ∧
    k₁.currentThread = t

/-- After `Finish` has been called the thread stays gone, for any run. -/
theorem run_gone {t : ℕ} {k k' : Kernel} {es : List Event} (hboot : Booted k)
    (hfinish : CalledFinish t k es) (hrun : PartialRun.run step k es = .ok k') : Gone t k' := by
  obtain ⟨es₁, es₂, k₁, rfl, hrun₁, rfl⟩ := hfinish
  obtain ⟨k₁', hrun₁', hrun⟩ := run_append_eq_ok.mp hrun
  obtain rfl : k₁ = k₁' := Except.ok.inj (hrun₁.symm.trans hrun₁')
  obtain ⟨k₂, hst, hrun⟩ := run_cons_eq_ok.mp hrun
  have hplaced : Placed k₁ := run_invariant (fun _ _ _ => step_placed) hboot.placed hrun₁
  have hinv : Placed k' ∧ Gone k₁.currentThread k' := by
    refine run_invariant (I := fun k => Placed k ∧ Gone k₁.currentThread k) ?_ ?_ hrun
    · rintro k e k' ⟨hplaced, hgone⟩ hst
      exact ⟨step_placed hplaced hst, step_gone hplaced hgone hst⟩
    · exact ⟨step_placed hplaced hst, call_finish_gone hplaced hst⟩
  exact hinv.2

/-- In every state of every run a thread is at most once in the ready list, the queues of the
semaphores and the lists of the condition variables together, a thread that has called
`Finish` is in none of them and does not get the processor again, and the threads have got the
processor in the order in which they were made ready. -/
theorem run_placement {k k' : Kernel} {es : List Event} (hboot : Booted k)
    (hrun : PartialRun.run step k es = .ok k') :
    (∀ p, (k'.place p).Nodup) ∧
    (∀ p q t, t ∈ k'.place p → t ∈ k'.place q → p = q) ∧
    (∀ t, CalledFinish t k es → (∀ p, t ∉ k'.place p) ∧
      (k'.currentThread = t → Finishing (k'.code t))) ∧
    trace step madeReady k es = trace step dispatched k es ++ k'.readyList := by
  have hplaced : Placed k' := run_invariant (fun _ _ _ => step_placed) hboot.placed hrun
  refine ⟨hplaced.apart.nodup, fun p q t => hplaced.apart.unique, fun t ht => ?_, ?_⟩
  · have hgone := run_gone hboot ht hrun
    exact ⟨fun p hp => hgone.nowhere ⟨p, hp⟩, hgone.finishing⟩
  · have hqueue : k.readyList ++ trace step madeReady k es =
        trace step dispatched k es ++ k'.readyList := trace_queue (fun _ _ _ => step_readyList) hrun
    rwa [hboot.readyList, List.nil_append] at hqueue

/-- Threads `1` and `2` wait at semaphore `0`, thread `0` does a `V` and finishes. -/
def finishingRun : List Event := [
  .call (.fork 1), .exec, .exec, .exec, .tick [],
  .call (.fork 2), .exec, .exec, .exec, .tick [],
  .call .yield, .exec, .exec,
  .exec, .tick [], .call (.p 0), .exec, .exec, .exec,
  .exec, .tick [], .call (.p 0), .exec, .exec, .exec,
  .exec, .tick [], .call (.v 0), .exec, .exec, .exec, .tick [],
  .call .finish, .exec, .exec, .exec]

theorem finishingRun_placement : ∃ k,
    PartialRun.run step (boot fun _ => 0) finishingRun = .ok k ∧
    k.place (.queue (.user 0)) = [2] ∧ k.currentThread = 1 ∧ (∀ p, 0 ∉ k.place p) ∧
    trace step madeReady (boot fun _ => 0) finishingRun =
      trace step dispatched (boot fun _ => 0) finishingRun := by
  obtain ⟨k, hrun, hqueue, hcur, hready⟩ : ∃ k,
      PartialRun.run step (boot fun _ => 0) finishingRun = .ok k ∧
      k.place (.queue (.user 0)) = [2] ∧ k.currentThread = 1 ∧ k.readyList = [] := by
    decide +kernel
  obtain ⟨-, -, hgone, htrace⟩ := run_placement (boot_booted fun _ => 0) hrun
  have hfinish : CalledFinish 0 (boot fun _ => 0) finishingRun := by
    obtain ⟨k₁, hrun₁, hcur₁⟩ : ∃ k₁,
        PartialRun.run step (boot fun _ => 0) (finishingRun.take 32) = .ok k₁ ∧
        k₁.currentThread = 0 := by decide +kernel
    exact ⟨finishingRun.take 32, [.exec, .exec, .exec], k₁, rfl, hrun₁, hcur₁⟩
  rw [hready, List.append_nil] at htrace
  exact ⟨k, hrun, hqueue, hcur, (hgone 0 hfinish).1, htrace⟩

end Kernel
end NachOS
