import NachOS.Threads.Execution

/-!
# `Semaphore::Destroy`

`Destroy` is there to free the threads that wait in `P`. It moves them to the ready list and
leaves the value alone, so each of them finds the value at `0` when it is resumed in the loop of
`P`, and enters the queue again.
-/

namespace NachOS
namespace Kernel

open PartialRun Placement

/-! ## Threads in a queue -/

/-- A thread in the queue of a semaphore is in the loop of `P`. If it still runs, it is about to
call `Sleep`. -/
def InLoop (k : Kernel) : Prop :=
  ∀ s, ∀ t ∈ k.place (.queue s),
    if t = k.currentThread then ∃ rest, k.code t = .sleep :: .pRetry s :: rest
    else ∃ rest, k.code t = .pRetry s :: rest

theorem InLoop.sleeping {k : Kernel} (h : InLoop k) {s : SemId} {t : ℕ}
    (ht : t ∈ k.place (.queue s)) (hne : t ≠ k.currentThread) :
    ∃ rest, k.code t = .pRetry s :: rest := by
  have hcode := h s t ht
  rwa [if_neg hne] at hcode

/-- Only the running thread enters a queue, and then it sleeps next. -/
theorem Rearranged.queue {place place₁ : Place → List ℕ} {current current₁ : ℕ} {instr : Instr}
    {pushed : List Instr} (h : Rearranged place current instr pushed place₁ current₁)
    {s : SemId} {t : ℕ} (ht : t ∈ place₁ (.queue s)) : t ∈ place (.queue s) ∨
      (t = current ∧ current₁ = current ∧ pushed = [.sleep, .pRetry s]) := by
  cases h with
  | same _ _ => exact .inl ht
  | @queued _ s' _ =>
    rcases mem_update.mp ht with ⟨hs, ht⟩ | ⟨-, ht⟩
    · cases hs
      rcases List.mem_append.mp ht with ht | ht
      · exact .inl ht
      · exact .inr ⟨List.mem_singleton.mp ht, rfl, rfl⟩
    · exact .inl ht
  | enlisted c =>
    rw [Function.update_of_ne (by simp)] at ht
    exact .inl ht
  | @woke _ p u us _ _ _ hp =>
    rw [Function.update_of_ne (by simp)] at ht
    rcases mem_update.mp ht with ⟨hq, ht⟩ | ⟨-, ht⟩
    · rw [hq, hp]
      exact .inl (List.mem_cons_of_mem u ht)
    · exact .inl ht
  | wokeAll _ _ _ =>
    rw [Function.update_of_ne (by simp)] at ht
    rcases mem_update.mp ht with ⟨-, ht⟩ | ⟨-, ht⟩
    · cases ht
    · exact .inl ht
  | forked u =>
    rw [Function.update_of_ne (by simp)] at ht
    exact .inl ht
  | yielded _ =>
    rw [Function.update_of_ne (by simp)] at ht
    exact .inl ht
  | slept _ =>
    rw [Function.update_of_ne (by simp)] at ht
    exact .inl ht

theorem exec_inLoop {k k' : Kernel} {instr : Instr} {rest : List Instr} (hplaced : Placed k)
    (hloop : InLoop k) (hcode : k.code k.currentThread = instr :: rest)
    (h : (k.withRest rest).exec instr = .ok k') : InLoop k' := by
  obtain ⟨-, pushed, hcode', hre⟩ := exec_withRest_rearranged h
  intro s t ht
  rcases hre.queue ht with hold | ⟨rfl, hcur, rfl⟩
  · have hne' : t ≠ k'.currentThread := by
      rcases hre.next with ⟨hcur, hinstr⟩ | hready
      · rw [hcur]
        rintro rfl
        exact hplaced.nowhere hcode hinstr ⟨_, hold⟩
      · rintro rfl
        have hplace := hplaced.apart.unique hold hready
        cases hplace
    rw [if_neg hne', hcode']
    by_cases hne : t = k.currentThread
    · -- the thread that sleeps next gives up the processor
      have hsleep := hloop s t hold
      rw [if_pos hne, hne, hcode] at hsleep
      obtain ⟨rest', hsleep⟩ := hsleep
      obtain ⟨rfl, rfl⟩ := List.cons.inj hsleep
      rw [hre.pushed_eq_nil (by simp) (by simp) (by simp), hne, Function.update_self]
      exact ⟨rest', rfl⟩
    · rw [Function.update_of_ne hne]
      exact hloop.sleeping hold hne
  · rw [if_pos hcur.symm, hcode', Function.update_self]
    exact ⟨rest, rfl⟩

/-- The handlers take threads out of the queues only. -/
theorem handle_queue {handlers : List Handler} {k k' : Kernel} (h : k.handle handlers = .ok k')
    {s : SemId} {t : ℕ} (ht : t ∈ k'.place (.queue s)) : t ∈ k.place (.queue s) := by
  induction handlers generalizing k with
  | nil =>
    cases h
    exact ht
  | cons handler handlers ih =>
    cases handler with
    | v n =>
      obtain ⟨k₁, hinc, h⟩ := bind_ok_iff.mp h
      have ht₁ := ih h
      obtain ⟨-, -, -, hplace | ⟨u, us, hqueue, hplace⟩⟩ := increment_rearranged hinc
      · rw [hplace] at ht₁
        exact ht₁
      · rw [hplace, Function.update_of_ne (by simp)] at ht₁
        rcases mem_update.mp ht₁ with ⟨hs, ht₁⟩ | ⟨-, ht₁⟩
        · rw [hs, hqueue]
          exact List.mem_cons_of_mem u ht₁
        · exact ht₁
    | timer => exact ih (k := { k with yieldOnReturn := true }) h

/-- A step in which no thread enters a queue and the same one runs on. -/
theorem InLoop.of_step {k k' : Kernel} {e : Event} (hloop : InLoop k) (hplaced : Placed k)
    (h : k.step e = .ok k') (hcur : k'.currentThread = k.currentThread)
    (hcode : k'.code k.currentThread = k.code k.currentThread ∨
      ¬ Occurs k.place k.currentThread)
    (hqueue : ∀ s t, t ∈ k'.place (.queue s) → t ∈ k.place (.queue s)) : InLoop k' := by
  intro s t ht
  have hold := hqueue s t ht
  have hstill : k'.code t = k.code t := by
    by_cases hne : t = k.currentThread
    · rw [hne] at hold ⊢
      rcases hcode with hcode | hnowhere
      · exact hcode
      · exact absurd ⟨_, hold⟩ hnowhere
    · exact step_code hplaced (hplaced.created t ⟨_, hold⟩) hne h
  rw [hcur, hstill]
  exact hloop s t hold

theorem step_inLoop {k k' : Kernel} {e : Event} (hplaced : Placed k) (hloop : InLoop k)
    (h : k.step e = .ok k') : InLoop k' := by
  cases e with
  | call c =>
    have hcalled := call_called hplaced.current h
    refine hloop.of_step hplaced h hcalled.currentThread
      (.inr (hplaced.outside hcalled.outside)) fun s t ht => ?_
    rw [hcalled.place] at ht
    exact ht
  | exec =>
    obtain ⟨instr, rest, hcode, h⟩ := exec_ok h
    exact exec_inLoop hplaced hloop hcode h
  | tick handlers =>
    obtain ⟨rest, hcode, htick⟩ := tick_ok h
    obtain ⟨k₁, pushed, hhandle, -, rfl⟩ := tick_frame htick
    obtain ⟨-, -, hcur, -⟩ := handle_frame hhandle
    exact hloop.of_step hplaced h hcur (.inr (hplaced.nowhere hcode (by simp)))
      fun s t ht => handle_queue (k := k.withRest rest) hhandle ht
  | idle handlers =>
    obtain ⟨k₁, hhandle, hidle⟩ := bind_ok_iff.mp (idle_ok h)
    obtain ⟨-, hcode, hcur, -⟩ := handle_frame hhandle
    have hk' := pure_ok_iff.mp hidle
    subst hk'
    exact hloop.of_step hplaced h hcur (.inl (congrFun hcode _))
      fun s t ht => handle_queue hhandle ht

theorem Booted.inLoop {k : Kernel} (hboot : Booted k) : InLoop k := by
  intro s t ht
  have ht : t ∈ (k.semaphore s).queue := ht
  rw [(hboot.semaphore s).1] at ht
  cases ht

/-! ## Without a `V` the value stays at `0` -/

/-- The semaphore a handler does a `V` on. -/
def Handler.semaphore? : Handler → Option SemId
  | .v n => some (.user n)
  | .timer => none

/-- A `V` on the semaphore is done in the step, by the running thread or by a device. -/
def PerformsV (s : SemId) (k : Kernel) : Event → Prop
  | .call _ => False
  | .exec => (k.code k.currentThread).head? = some (.v s)
  | .tick handlers | .idle handlers => s ∈ handlers.filterMap Handler.semaphore?

instance (s : SemId) (k : Kernel) : (e : Event) → Decidable (PerformsV s k e)
  | .call _ => isFalse id
  | .exec => inferInstanceAs (Decidable (_ = _))
  | .tick _ => inferInstanceAs (Decidable (_ ∈ _))
  | .idle _ => inferInstanceAs (Decidable (_ ∈ _))

theorem takeOrSleep_queue {k : Kernel} {s : SemId} (hzero : (k.semaphore s).value = 0) :
    ((k.takeOrSleep s).semaphore s).queue = (k.semaphore s).queue ++ [k.currentThread] := by
  unfold takeOrSleep
  dsimp only
  rw [if_pos hzero, push_semaphore]
  exact queue_setSemaphore k s _

theorem exec_zero {k k' : Kernel} {instr : Instr} {rest : List Instr} {s : SemId}
    (h : (k.withRest rest).exec instr = .ok k') (hv : instr ≠ .v s)
    (hzero : (k.semaphore s).value = 0) : (k'.semaphore s).value = 0 := by
  by_cases hinstr : instr = .p s ∨ instr = .pRetry s
  · rcases exec_tests hinstr h with ⟨-, hvalue, -⟩ | ⟨hne, -⟩
    · exact hvalue
    · exact absurd hzero hne
  · rw [not_or] at hinstr
    rw [exec_value h hv hinstr.1 hinstr.2]
    exact hzero

/-- The handlers that are due do no `V` on the semaphore. -/
theorem handle_semaphore {handlers : List Handler} {k k' : Kernel} {s : SemId}
    (h : k.handle handlers = .ok k') (hv : s ∉ handlers.filterMap Handler.semaphore?) :
    k'.semaphore s = k.semaphore s := by
  induction handlers generalizing k with
  | nil =>
    cases h
    rfl
  | cons handler handlers ih =>
    cases handler with
    | v n =>
      obtain ⟨k₁, hinc, h⟩ := bind_ok_iff.mp h
      simp only [List.filterMap_cons, Handler.semaphore?, List.mem_cons, not_or] at hv
      obtain ⟨-, -, -, -, hothers⟩ := increment_frame hinc
      rw [ih h hv.2, hothers s hv.1]
    | timer => exact ih (k := { k with yieldOnReturn := true }) h hv

theorem step_zero {k k' : Kernel} {e : Event} {s : SemId} (h : k.step e = .ok k')
    (hv : ¬ PerformsV s k e) (hzero : (k.semaphore s).value = 0) :
    (k'.semaphore s).value = 0 := by
  cases e with
  | call c =>
    obtain ⟨-, k₁, rfl, hk₁⟩ := call_ok h
    rcases hk₁ with ⟨rfl, -⟩ | ⟨t, -, hnew⟩
    · exact hzero
    · obtain ⟨-, rfl⟩ := newThread_ok hnew
      exact hzero
  | exec =>
    obtain ⟨instr, rest, hcode, h⟩ := exec_ok h
    refine exec_zero h (fun hinstr => hv ?_) hzero
    rw [PerformsV, hcode, hinstr]
    rfl
  | tick handlers =>
    obtain ⟨rest, -, h⟩ := tick_ok h
    obtain ⟨k₁, pushed, hhandle, -, rfl⟩ := tick_frame h
    show (k₁.semaphore s).value = 0
    rw [handle_semaphore hhandle hv]
    exact hzero
  | idle handlers =>
    obtain ⟨k₁, hhandle, h⟩ := bind_ok_iff.mp (idle_ok h)
    rw [← pure_ok_iff.mp h]
    show (k₁.semaphore s).value = 0
    rw [handle_semaphore hhandle hv]
    exact hzero

/-! ## The freed threads -/

/-- The thread is about to test the value again, and the value is `0`. -/
structure Doomed (s : SemId) (t : ℕ) (k : Kernel) : Prop where
  placed : Placed k
  created : k.created t = true
  code : ∃ rest, k.code t = .pRetry s :: rest
  value : (k.semaphore s).value = 0

theorem step_doomed {s : SemId} {t : ℕ} {k k' : Kernel} {e : Event} (h : k.step e = .ok k')
    (hdoomed : Doomed s t k) (hv : ¬ PerformsV s k e) (hne : k.currentThread ≠ t) :
    Doomed s t k' := by
  obtain ⟨hplaced, hcreated, hcode, hvalue⟩ := hdoomed
  refine ⟨step_placed hplaced h, step_created hplaced hcreated h, ?_, step_zero h hv hvalue⟩
  rw [step_code hplaced hcreated hne.symm h]
  exact hcode

/-- When it runs, it enters the queue. -/
theorem Doomed.requeued {s : SemId} {k k' : Kernel} {e : Event}
    (hdoomed : Doomed s k.currentThread k) (h : k.step e = .ok k') :
    k.currentThread ∈ (k'.semaphore s).queue := by
  obtain ⟨rest, hcode⟩ := hdoomed.code
  cases e with
  | call c =>
    obtain ⟨hnil, -⟩ := call_ok h
    rw [hcode] at hnil
    cases hnil
  | exec =>
    obtain ⟨instr, rest', hcode', h⟩ := exec_ok h
    rw [hcode] at hcode'
    obtain ⟨rfl, rfl⟩ := List.cons.inj hcode'
    cases h
    have hsem : ((k.withRest rest).resumed s).semaphore s = { k.semaphore s with
        woken := (k.semaphore s).woken.erase k.currentThread } := Function.update_self _ _ _
    rw [takeOrSleep_queue (by rw [hsem]; exact hdoomed.value)]
    exact List.mem_append_right _ List.mem_cons_self
  | tick handlers =>
    obtain ⟨rest', htick, -⟩ := tick_ok h
    rw [hcode] at htick
    cases htick
  | idle handlers =>
    obtain ⟨rest', hsleep⟩ := idle_ok_code h
    rw [hcode] at hsleep
    cases hsleep

theorem destroy_doomed {k k₁ : Kernel} {s : SemId} {rest : List Instr} {t : ℕ}
    (hplaced : Placed k) (hloop : InLoop k)
    (hcode : k.code k.currentThread = .destroy s :: rest) (hzero : (k.semaphore s).value = 0)
    (hdestroy : k.step .exec = .ok k₁) (ht : t ∈ (k.semaphore s).queue) : Doomed s t k₁ := by
  have hplace : t ∈ k.place (.queue s) := ht
  have hcreated := hplaced.created t ⟨_, hplace⟩
  have hne : t ≠ k.currentThread := by
    rintro rfl
    exact hplaced.nowhere hcode (by simp) ⟨_, hplace⟩
  have hv : ¬ PerformsV s k .exec := by
    rw [PerformsV, hcode]
    simp
  refine ⟨step_placed hplaced hdestroy, step_created hplaced hcreated hdestroy, ?_,
    step_zero hdestroy hv hzero⟩
  rw [step_code hplaced hcreated hne hdestroy]
  exact hloop.sleeping hplace hne

/-- In no state of the run one of these threads is in the queue of the semaphore. -/
def StayOut (s : SemId) (threads : List ℕ) (k : Kernel) (es : List Event) : Prop :=
  ∀ es₁ es₂ k₁, es = es₁ ++ es₂ → PartialRun.run step k es₁ = .ok k₁ →
    ∀ t ∈ threads, t ∉ (k₁.semaphore s).queue

/-- `Destroy` on a semaphore whose value is `0`, and any schedule after it in which no `V` is
done on the semaphore and every thread that has waited runs again: the threads stay out of the
queue only if there was none. -/
theorem destroy_stayOut_iff {k k₀ k₁ k' : Kernel} {es₀ es : List Event} {s : SemId}
    {rest : List Instr} (hboot : Booted k) (hrun₀ : PartialRun.run step k es₀ = .ok k₀)
    (hcode : k₀.code k₀.currentThread = .destroy s :: rest)
    (hzero : (k₀.semaphore s).value = 0) (hdestroy : k₀.step .exec = .ok k₁)
    (hrun : PartialRun.run step k₁ es = .ok k')
    (hv : Along step (fun k e => ¬ PerformsV s k e) k₁ es)
    (hresume : ∀ t ∈ (k₀.semaphore s).queue,
      Sometime step (fun k _ => k.currentThread = t) k₁ es) :
    StayOut s (k₀.semaphore s).queue k₁ es ↔ (k₀.semaphore s).queue = [] := by
  obtain ⟨hplaced, hloop⟩ : Placed k₀ ∧ InLoop k₀ := by
    refine run_invariant (I := fun k => Placed k ∧ InLoop k) ?_ ⟨hboot.placed, hboot.inLoop⟩ hrun₀
    rintro k e k' ⟨hplaced, hloop⟩ hst
    exact ⟨step_placed hplaced hst, step_inLoop hplaced hloop hst⟩
  constructor
  · intro hout
    rw [List.eq_nil_iff_forall_not_mem]
    intro t ht
    have hdoomed := destroy_doomed hplaced hloop hcode hzero hdestroy ht
    -- the first step of the thread takes it back to the queue
    obtain ⟨es₁, es₂, k₂, hes, hrun₁, hqueue⟩ :=
      Sometime.reaches (I := Doomed s t) (J := fun k => t ∈ (k.semaphore s).queue)
        (fun k e k' hdoomed hv hne hst => step_doomed hst hdoomed hv hne)
        (fun k e k' hdoomed _ hcur hst => by
          subst hcur
          exact hdoomed.requeued hst)
        hdoomed hv (hresume t ht) hrun
    exact hout es₁ es₂ k₂ hes hrun₁ t ht hqueue
  · intro hnil es₁ es₂ k₂ _ _ t ht
    rw [hnil] at ht
    cases ht

/-- Threads `1` and `2` wait at semaphore `0`, and thread `0` calls `Destroy`. -/
def destroyingRun : List Event := [
  .call (.fork 1), .exec, .exec, .exec, .tick [],
  .call (.fork 2), .exec, .exec, .exec, .tick [],
  .call .yield, .exec, .exec,
  .exec, .tick [], .call (.p 0), .exec, .exec, .exec,
  .exec, .tick [], .call (.p 0), .exec, .exec, .exec,
  .exec, .tick [], .call (.destroy 0), .exec]

/-- Thread `0` returns from `Destroy` and yields, and threads `1` and `2` test the value. -/
def resumingRun : List Event := [
  .exec, .tick [], .call .yield, .exec, .exec, .exec, .exec, .exec, .exec]

/-- Both are in the queue again. -/
theorem destroy_not_stayOut : ∃ k₀, PartialRun.run step (boot fun _ => 0) destroyingRun = .ok k₀ ∧
    (k₀.code k₀.currentThread).head? = some (.destroy (.user 0)) ∧
    (k₀.semaphore (.user 0)).value = 0 ∧ (k₀.semaphore (.user 0)).queue = [1, 2] ∧
    ∃ k₁, k₀.step .exec = .ok k₁ ∧ ∃ k', PartialRun.run step k₁ resumingRun = .ok k' ∧
    Along step (fun k e => ¬ PerformsV (.user 0) k e) k₁ resumingRun ∧
    (∀ t ∈ (k₀.semaphore (.user 0)).queue,
      Sometime step (fun k _ => k.currentThread = t) k₁ resumingRun) ∧
    (k'.semaphore (.user 0)).queue = [1, 2] ∧
    ¬ StayOut (.user 0) (k₀.semaphore (.user 0)).queue k₁ resumingRun := by
  obtain ⟨k₀, hrun₀, hcode, hvalue, hqueue, k₁, hdestroy, k', hrun, hv, hresume, hqueue'⟩ :
      ∃ k₀, PartialRun.run step (boot fun _ => 0) destroyingRun = .ok k₀ ∧
      (k₀.code k₀.currentThread).head? = some (.destroy (.user 0)) ∧
      (k₀.semaphore (.user 0)).value = 0 ∧ (k₀.semaphore (.user 0)).queue = [1, 2] ∧
      ∃ k₁, k₀.step .exec = .ok k₁ ∧ ∃ k', PartialRun.run step k₁ resumingRun = .ok k' ∧
      Along step (fun k e => ¬ PerformsV (.user 0) k e) k₁ resumingRun ∧
      (∀ t ∈ (k₀.semaphore (.user 0)).queue,
        Sometime step (fun k _ => k.currentThread = t) k₁ resumingRun) ∧
      (k'.semaphore (.user 0)).queue = [1, 2] := by
    decide +kernel
  refine ⟨k₀, hrun₀, hcode, hvalue, hqueue, k₁, hdestroy, k', hrun, hv, hresume, hqueue',
    fun hout => ?_⟩
  refine hout resumingRun [] k' rfl hrun 1 ?_ ?_
  · rw [hqueue]
    exact List.mem_cons_self
  · rw [hqueue']
    exact List.mem_cons_self

/-- The general result at that run, whose steps meet all its conditions. -/
theorem destroy_stayOut_iff_resuming : ∃ k₀ k₁,
    PartialRun.run step (boot fun _ => 0) destroyingRun = .ok k₀ ∧ k₀.step .exec = .ok k₁ ∧
    (StayOut (.user 0) (k₀.semaphore (.user 0)).queue k₁ resumingRun ↔
      (k₀.semaphore (.user 0)).queue = []) := by
  obtain ⟨k₀, hrun₀, hcode, hvalue, k₁, hdestroy, k', hrun, hv, hresume⟩ :
      ∃ k₀, PartialRun.run step (boot fun _ => 0) destroyingRun = .ok k₀ ∧
      (k₀.code k₀.currentThread).head? = some (.destroy (.user 0)) ∧
      (k₀.semaphore (.user 0)).value = 0 ∧
      ∃ k₁, k₀.step .exec = .ok k₁ ∧ ∃ k', PartialRun.run step k₁ resumingRun = .ok k' ∧
      Along step (fun k e => ¬ PerformsV (.user 0) k e) k₁ resumingRun ∧
      ∀ t ∈ (k₀.semaphore (.user 0)).queue,
        Sometime step (fun k _ => k.currentThread = t) k₁ resumingRun := by
    decide +kernel
  obtain ⟨rest, hcode⟩ := List.head?_eq_some_iff.mp hcode
  exact ⟨k₀, k₁, hrun₀, hdestroy, destroy_stayOut_iff (boot_booted fun _ => 0) hrun₀ hcode hvalue
    hdestroy hrun hv hresume⟩

end Kernel
end NachOS
