import NachOS.Threads.Destroy
import NachOS.Threads.Reclamation

/-!
# No thread is lost

A thread that does not run and has not finished is in one of the lists, or about to be put into the
ready list by the thread that has made it, as long as nobody calls `Sleep` but the routines of the
kernel, which put the thread into a list before. A thread that has been taken out of the queue of a
semaphore is ready until it tests the value again. So when the kernel is idle every thread that has
not finished waits for a condition, or at a semaphore whose value is `0`.
-/

namespace NachOS

/-- The instructions after which a routine goes to sleep. -/
def Instr.parks : Instr → Bool
  | .appendHilos _ | .toBeDestroyed => true
  | _ => false

namespace Kernel

open PartialRun Placement

/-! ## What stays in the lists -/

section

variable {place place₁ : Place → List ℕ} {current current₁ : ℕ} {instr : Instr}
  {pushed : List Instr} {t : ℕ}

/-- A thread leaves the lists only for the processor. -/
theorem Rearranged.keeps (h : Rearranged place current instr pushed place₁ current₁)
    (hoccurs : Occurs place t) : t = current₁ ∨ Occurs place₁ t := by
  cases h with
  | same _ _ => exact .inr hoccurs
  | queued _ => exact .inr (occurs_append.mpr (.inr hoccurs))
  | enlisted c => exact .inr (occurs_append.mpr (.inr hoccurs))
  | woke _ _ hready hp => exact .inr (hoccurs.move hp hready)
  | wokeAll _ _ _ => exact .inr (hoccurs.moveAll)
  | forked u => exact .inr (occurs_append.mpr (.inr hoccurs))
  | yielded hready => exact hoccurs.rotate hready
  | slept hready => exact hoccurs.tail hready

/-- A thread leaves the ready list only for the processor. -/
theorem Rearranged.keeps_ready (h : Rearranged place current instr pushed place₁ current₁)
    (hready : t ∈ place .ready) : t = current₁ ∨ t ∈ place₁ .ready := by
  cases h with
  | same _ _ => exact .inr hready
  | queued _ =>
    rw [Function.update_of_ne (by simp)]
    exact .inr hready
  | enlisted c =>
    rw [Function.update_of_ne (by simp)]
    exact .inr hready
  | woke _ _ _ _ =>
    rw [Function.update_self]
    exact .inr (List.mem_append_left _ hready)
  | wokeAll _ _ _ =>
    rw [Function.update_self]
    exact .inr (List.mem_append_left _ hready)
  | forked u =>
    rw [Function.update_self]
    exact .inr (List.mem_append_left _ hready)
  | yielded hlist =>
    rw [hlist] at hready
    rw [Function.update_self]
    rcases List.mem_cons.mp hready with rfl | hready
    · exact .inl rfl
    · exact .inr (List.mem_append_left _ hready)
  | slept hlist =>
    rw [hlist] at hready
    rw [Function.update_self]
    exact List.mem_cons.mp hready

/-- The thread that loses the processor has gone to sleep, or is ready. -/
theorem Rearranged.loses (h : Rearranged place current instr pushed place₁ current₁)
    (hne : current ≠ current₁) : instr = .sleep ∨ current ∈ place₁ .ready := by
  cases h with
  | yielded _ =>
    rw [Function.update_self]
    exact .inr (List.mem_append_right _ List.mem_cons_self)
  | slept _ => exact .inl rfl
  | _ => exact absurd rfl hne

/-- A thread that is about to sleep because of what it has tested is in the queue. -/
theorem Rearranged.queued_of_pushed (h : Rearranged place current instr pushed place₁ current₁)
    {rest : List Instr} (hpushed : pushed = .sleep :: rest) :
    Occurs place₁ current ∧ current₁ = current := by
  cases h with
  | queued _ => exact ⟨occurs_append.mpr (.inl rfl), rfl⟩
  | same _ hnone =>
    rcases hnone with rfl | ⟨rfl, -⟩
    · cases hpushed
    · cases hpushed
  | _ => cases hpushed

end

/-- Who is in some queue is in some queue after the handlers. -/
theorem handle_keeps {handlers : List Handler} {k k' : Kernel} {t : ℕ}
    (h : k.handle handlers = .ok k') (hoccurs : Occurs k.place t) : Occurs k'.place t := by
  induction handlers generalizing k with
  | nil =>
    cases h
    exact hoccurs
  | cons handler handlers ih =>
    cases handler with
    | v n =>
      obtain ⟨k₁, hinc, h⟩ := bind_ok_iff.mp h
      refine ih h ?_
      obtain ⟨-, -, -, hplace | ⟨u, us, hqueue, hplace⟩⟩ := increment_rearranged hinc
      · rw [hplace]
        exact hoccurs
      · rw [hplace]
        exact hoccurs.move hqueue (by simp)
    | timer => exact ih (k := { k with yieldOnReturn := true }) h hoccurs

/-! ## Where `Sleep` is called -/

/-- Unless it comes first, `Sleep` comes after one of these instructions. -/
def SleepsParked : List Instr → Prop
  | [] => True
  | instr :: rest => (rest.head? = some .sleep → instr.parks = true) ∧ SleepsParked rest

theorem SleepsParked.cons {instr : Instr} {rest : List Instr} (h : SleepsParked rest)
    (hhead : rest.head? ≠ some .sleep) : SleepsParked (instr :: rest) :=
  ⟨fun hsleep => absurd hsleep hhead, h⟩

/-- What is left of the code after an instruction that parks nobody does not begin with `Sleep`. -/
theorem SleepsParked.head_ne {instr : Instr} {rest : List Instr}
    (h : SleepsParked (instr :: rest)) (hinstr : instr.parks = false) :
    rest.head? ≠ some .sleep := by
  intro hsleep
  have hparks := h.1 hsleep
  rw [hinstr] at hparks
  cases hparks

theorem Call.routine_sleepsParked {c : Call} (hc : c ≠ .sleep) :
    SleepsParked c.routine ∧ c.routine.head? ≠ some .sleep := by
  cases c with
  | sleep => exact absurd rfl hc
  | _ =>
    simp [Call.routine, semaphoreP, semaphoreV, semaphoreDestroy, lockAcquire, lockRelease,
      conditionWait, conditionSignal, conditionBroadcast, threadYield, threadFork, threadFinish,
      SleepsParked, Instr.parks]

/-- Nobody but the routines of the kernel calls `Sleep`. -/
def KeepsAwake (_ : Kernel) (e : Event) : Prop := e ≠ .call .sleep

instance (k : Kernel) : DecidablePred k.KeepsAwake := fun _ => inferInstanceAs (Decidable (_ ≠ _))

/-! ## No thread is lost -/

/-- A thread is where it should be; `finished` is said of those that have called `Finish`. -/
structure Located (finished : ℕ → Prop) (k : Kernel) : Prop where
  sleeps : ∀ t, SleepsParked (k.code t)
  parked : ∀ t, (k.code t).head? = some .sleep →
    t = k.currentThread ∧ (Occurs k.place t ∨ finished t)
  finishing : ∀ t, .toBeDestroyed ∈ k.code t → finished t
  somewhere : ∀ t, k.created t = true →
    t = k.currentThread ∨ Occurs k.place t ∨ (∃ u, .readyToRun t ∈ k.code u) ∨ finished t

section

variable {finished finished' : ℕ → Prop} {k k' : Kernel} {e : Event} {t : ℕ}

theorem Located.mono (hl : Located finished k) (hle : ∀ t, finished t → finished' t) :
    Located finished' k where
  sleeps := hl.sleeps
  parked t hhead := ⟨(hl.parked t hhead).1, (hl.parked t hhead).2.imp_right (hle t)⟩
  finishing t hmem := hle t (hl.finishing t hmem)
  somewhere t ht := by
    rcases hl.somewhere t ht with hcur | hoccurs | hfork | hfinished
    · exact .inl hcur
    · exact .inr (.inl hoccurs)
    · exact .inr (.inr (.inl hfork))
    · exact .inr (.inr (.inr (hle t hfinished)))

/-- The code that is left of a thread after a step, `Sleep` aside. -/
theorem SleepsParked.push {instr : Instr} {pushed rest : List Instr}
    {place place₁ : Place → List ℕ} {current current₁ : ℕ}
    (hre : Rearranged place current instr pushed place₁ current₁)
    (h : SleepsParked (instr :: rest)) : SleepsParked (pushed ++ rest) := by
  cases hre with
  | same hinstr hpushed =>
    rcases hpushed with rfl | ⟨rfl, hswitch⟩
    · exact h.2
    · refine h.2.cons (h.head_ne ?_)
      rcases hswitch with rfl | rfl <;> rfl
  | @queued _ s hinstr =>
    have hne := h.head_ne (by rcases hinstr with rfl | rfl <;> rfl)
    exact (h.2.cons hne).cons (by simp)
  | _ => exact h.2

/-- An instruction that parks the thread puts it into a list, or ends it. -/
theorem exec_parks {instr : Instr} {rest : List Instr} (hparks : instr.parks = true)
    (hfinishing : instr = .toBeDestroyed → finished k.currentThread)
    (h : (k.withRest rest).exec instr = .ok k') :
    k'.currentThread = k.currentThread ∧
      (Occurs k'.place k.currentThread ∨ finished k.currentThread) := by
  cases instr with
  | appendHilos c =>
    cases h
    refine ⟨rfl, .inl ⟨.hilos c, ?_⟩⟩
    show k.currentThread ∈ Function.update k.hilos c (k.hilos c ++ [k.currentThread]) c
    rw [Function.update_self]
    exact List.mem_append_right _ List.mem_cons_self
  | toBeDestroyed =>
    cases h
    exact ⟨rfl, .inr (hfinishing rfl)⟩
  | _ => cases hparks

/-- An instruction leaves every thread somewhere. -/
theorem exec_located {instr : Instr} {rest : List Instr} (hplaced : Placed k)
    (hl : Located finished k) (hcode : k.code k.currentThread = instr :: rest)
    (hst : k.step .exec = .ok k') (h : (k.withRest rest).exec instr = .ok k') :
    Located finished k' := by
  obtain ⟨hcreated, pushed, hcode', hre⟩ := exec_withRest_rearranged h
  have hsleeps := hl.sleeps k.currentThread
  rw [hcode] at hsleeps
  refine ⟨fun t => ?_, fun t hhead => ?_, fun t hmem => ?_, fun t ht => ?_⟩
  · rw [hcode']
    by_cases ht : t = k.currentThread
    · rw [ht, Function.update_self]
      exact hsleeps.push hre
    · rw [Function.update_of_ne ht]
      exact hl.sleeps t
  · rw [hcode'] at hhead
    by_cases ht : t = k.currentThread
    · rw [ht, Function.update_self] at hhead
      rw [ht]
      cases hpushed : pushed with
      | nil =>
        -- the instruction before has parked the thread
        rw [hpushed, List.nil_append] at hhead
        obtain ⟨hcur, hparked⟩ := exec_parks (hsleeps.1 hhead) (fun hinstr => hl.finishing _ (by
          rw [hcode, hinstr]
          exact List.mem_cons_self)) h
        exact ⟨hcur.symm, hparked⟩
      | cons first pushed' =>
        rw [hpushed, List.cons_append, List.head?_cons, Option.some.injEq] at hhead
        obtain ⟨hoccurs, hcur⟩ := hre.queued_of_pushed (hpushed.trans (by rw [hhead]))
        exact ⟨hcur.symm, .inl hoccurs⟩
    · rw [Function.update_of_ne ht] at hhead
      exact absurd (hl.parked t hhead).1 ht
  · rcases step_finishing hplaced hst hmem with hmem | ⟨he, -⟩
    · exact hl.finishing t hmem
    · cases he
  · -- a thread leaves the processor only for the ready list or because it is parked
    rw [hcreated] at ht
    rcases hl.somewhere t ht with rfl | hoccurs | ⟨u, hfork⟩ | hfinished
    · by_cases hcur : k.currentThread = k'.currentThread
      · exact .inl hcur
      · rcases hre.loses hcur with rfl | hready
        · rcases (hl.parked _ (by rw [hcode]; rfl)).2 with hoccurs | hfinished
          · exact .inr (.inl ((hre.keeps hoccurs).resolve_left hcur))
          · exact .inr (.inr (.inr hfinished))
        · exact .inr (.inl ⟨.ready, hready⟩)
    · rcases hre.keeps hoccurs with hcur | hoccurs
      · exact .inl hcur
      · exact .inr (.inl hoccurs)
    · -- the thread that has made it runs
      have hu := (hplaced.forks t u hfork).current
      rw [hu, hcode] at hfork
      rcases List.mem_cons.mp hfork with rfl | hmem
      · cases h
        refine .inr (.inl ⟨.ready, ?_⟩)
        exact List.mem_append_right _ List.mem_cons_self
      · refine .inr (.inr (.inl ⟨k.currentThread, ?_⟩))
        rw [hcode', Function.update_self]
        exact List.mem_append_right pushed hmem
    · exact .inr (.inr (.inr hfinished))

/-- A step that leaves the processor and the lists alone, but for threads that it makes ready. -/
theorem Located.of_same (hl : Located finished k) (hle : ∀ t, finished t → finished' t)
    (hcur : k'.currentThread = k.currentThread)
    (hkeeps : ∀ t, Occurs k.place t → Occurs k'.place t)
    (hsleeps : ∀ t, k'.code t = k.code t ∨
      (SleepsParked (k'.code t) ∧ (k'.code t).head? ≠ some .sleep))
    (hfinishing : ∀ t, .toBeDestroyed ∈ k'.code t → finished' t)
    (hforks : ∀ t u, .readyToRun t ∈ k.code u → .readyToRun t ∈ k'.code u)
    (hcreated : ∀ t, k'.created t = true →
      k.created t = true ∨ ∃ u, .readyToRun t ∈ k'.code u) : Located finished' k' := by
  refine ⟨fun t => ?_, fun t hhead => ?_, hfinishing, fun t ht => ?_⟩
  · rcases hsleeps t with hcode | ⟨hsleeps, -⟩
    · rw [hcode]
      exact hl.sleeps t
    · exact hsleeps
  · rcases hsleeps t with hcode | ⟨-, hne⟩
    · rw [hcode] at hhead
      obtain ⟨ht, hparked⟩ := hl.parked t hhead
      exact ⟨ht.trans hcur.symm, hparked.imp (hkeeps t) (hle t)⟩
    · exact absurd hhead hne
  · rcases hcreated t ht with hold | hfork
    · rcases hl.somewhere t hold with hself | hoccurs | ⟨u, hfork⟩ | hfinished
      · exact .inl (hself.trans hcur.symm)
      · exact .inr (.inl (hkeeps t hoccurs))
      · exact .inr (.inr (.inl ⟨u, hforks t u hfork⟩))
      · exact .inr (.inr (.inr (hle t hfinished)))
    · exact .inr (.inr (.inl hfork))

/-- A call makes at most the thread that is to be forked. -/
theorem call_created {c : Call} (h : k.step (.call c) = .ok k') (ht : k'.created t = true) :
    k.created t = true ∨ c = .fork t := by
  obtain ⟨-, k₁, rfl, hk₁⟩ := call_ok h
  rcases hk₁ with ⟨rfl, -⟩ | ⟨u, rfl, hnew⟩
  · exact .inl ht
  · obtain ⟨-, rfl⟩ := newThread_ok hnew
    have ht : Function.update k.created u true t = true := ht
    by_cases htu : t = u
    · rw [htu]
      exact .inr rfl
    · rw [Function.update_of_ne htu] at ht
      exact .inl ht

/-- Only `Fork` makes a thread. -/
theorem created_of_step (hplaced : Placed k) (h : k.step e = .ok k')
    (ht : k'.created t = true) : k.created t = true ∨ e = .call (.fork t) := by
  cases e with
  | call c =>
    refine (call_created h ht).imp_right fun hc => ?_
    rw [hc]
  | exec =>
    obtain ⟨instr, rest, -, h⟩ := exec_ok h
    rw [(exec_withRest_rearranged h).1] at ht
    exact .inl ht
  | tick handlers =>
    obtain ⟨rest, -, h⟩ := tick_ok h
    obtain ⟨k₁, pushed, hhandle, -, rfl⟩ := tick_frame h
    have ht : k₁.created t = true := ht
    rw [(handle_placed (k := k.withRest rest) hplaced.apart hhandle).2.1] at ht
    exact .inl ht
  | idle handlers =>
    obtain ⟨k₁, hhandle, h⟩ := bind_ok_iff.mp (idle_ok h)
    rw [← pure_ok_iff.mp h] at ht
    have ht : k₁.created t = true := ht
    rw [(handle_placed hplaced.apart hhandle).2.1] at ht
    exact .inl ht

/-- The threads that have called `Finish` once the step is done. -/
def finishedAfter (finished : ℕ → Prop) (k : Kernel) (e : Event) (t : ℕ) : Prop :=
  finished t ∨ (e = .call .finish ∧ t = k.currentThread)

/-- So does a call, and `Finish` is noted. -/
theorem call_located {c : Call} (hplaced : Placed k) (hl : Located finished k) (hc : c ≠ .sleep)
    (h : k.step (.call c) = .ok k') : Located (finishedAfter finished k (.call c)) k' := by
  have hcalled := call_called hplaced.current h
  have hroutine := Call.routine_sleepsParked hc
  refine hl.of_same (fun t => .inl) hcalled.currentThread (fun t hoccurs => ?_) (fun t => ?_)
    (fun t hmem => ?_) (fun t u hfork => ?_) (fun t ht => ?_)
  · rw [hcalled.place]
    exact hoccurs
  · by_cases ht : t = k.currentThread
    · rw [ht, hcalled.code]
      exact .inr hroutine
    · rcases hcalled.others t ht with hcode | ⟨-, hcode⟩
      · exact .inl hcode
      · rw [hcode]
        exact .inr (by simp [threadRoot, SleepsParked])
  · rcases step_finishing hplaced h hmem with hmem | hfinish
    · exact .inl (hl.finishing t hmem)
    · exact .inr hfinish
  · have hu := (hplaced.forks t u hfork).current
    rw [hu, hcalled.outside] at hfork
    cases hfork
  · rcases call_created h ht with hold | rfl
    · exact .inl hold
    · refine .inr ⟨k.currentThread, ?_⟩
      rw [hcalled.code]
      simp [Call.routine, threadFork]

/-- A tick leaves every thread somewhere. -/
theorem tick_located {handlers : List Handler} (hplaced : Placed k) (hl : Located finished k)
    (h : k.step (.tick handlers) = .ok k') : Located finished k' := by
  have hst := h
  obtain ⟨rest, hcode, h⟩ := tick_ok h
  obtain ⟨k₁, pushed, hhandle, hpushed, rfl⟩ := tick_frame h
  obtain ⟨-, -, hcur, -⟩ := handle_frame hhandle
  have hcreated := (handle_placed (k := k.withRest rest) hplaced.apart hhandle).2.1
  have hsleeps := hl.sleeps k.currentThread
  rw [hcode] at hsleeps
  have hne := hsleeps.head_ne rfl
  refine hl.of_same (fun _ => id) hcur (fun t hoccurs => ?_) (fun t => ?_) (fun t hmem => ?_)
    (fun t u hfork => ?_) (fun t ht => ?_)
  · have hkept : Occurs k₁.place t := handle_keeps (k := k.withRest rest) hhandle hoccurs
    exact hkept
  · show Function.update k.code k.currentThread (pushed ++ rest) t = k.code t ∨
      SleepsParked (Function.update k.code k.currentThread (pushed ++ rest) t) ∧
        (Function.update k.code k.currentThread (pushed ++ rest) t).head? ≠ some .sleep
    by_cases ht : t = k.currentThread
    · rw [ht, Function.update_self]
      refine .inr ?_
      rcases hpushed with rfl | rfl
      · exact ⟨hsleeps.2, hne⟩
      · exact ⟨((hsleeps.2.cons hne).cons (by simp)).cons (by simp), by simp [threadYield]⟩
    · rw [Function.update_of_ne ht]
      exact .inl rfl
  · rcases step_finishing hplaced hst hmem with hmem | ⟨he, -⟩
    · exact hl.finishing t hmem
    · cases he
  · have hu := (hplaced.forks t u hfork).current
    rw [hu, hcode] at hfork
    rw [hu]
    show _ ∈ Function.update k.code k.currentThread (pushed ++ rest) k.currentThread
    rw [Function.update_self]
    rcases List.mem_cons.mp hfork with hfork | hfork
    · cases hfork
    · exact List.mem_append_right pushed hfork
  · have ht : k₁.created t = true := ht
    rw [hcreated] at ht
    exact .inl ht

/-- So does waiting for an interrupt. -/
theorem idle_located {handlers : List Handler} (hplaced : Placed k) (hl : Located finished k)
    (h : k.step (.idle handlers) = .ok k') : Located finished k' := by
  obtain ⟨k₁, hhandle, h⟩ := bind_ok_iff.mp (idle_ok h)
  obtain ⟨-, hcode, hcur, -⟩ := handle_frame hhandle
  have hcreated := (handle_placed hplaced.apart hhandle).2.1
  rw [← pure_ok_iff.mp h]
  have hsame : ∀ t, k₁.code t = k.code t := fun t => congrFun hcode t
  have hkept : ∀ t, Occurs k.place t → Occurs k₁.place t := fun t => handle_keeps hhandle
  refine hl.of_same (fun _ => id) hcur hkept
    (fun t => .inl (hsame t)) (fun t hmem => ?_) (fun t u hfork => ?_) (fun t ht => .inl ?_)
  · have hmem : .toBeDestroyed ∈ k₁.code t := hmem
    rw [hsame] at hmem
    exact hl.finishing t hmem
  · show .readyToRun t ∈ k₁.code u
    rw [hsame]
    exact hfork
  · have ht : k₁.created t = true := ht
    rwa [hcreated] at ht

/-- Every step leaves every thread somewhere. -/
theorem step_located (hplaced : Placed k) (hl : Located finished k) (hawake : KeepsAwake k e)
    (h : k.step e = .ok k') : Located (finishedAfter finished k e) k' := by
  cases e with
  | call c => exact call_located hplaced hl (fun hc => hawake (by rw [hc])) h
  | exec =>
    obtain ⟨instr, rest, hcode, hexec⟩ := exec_ok h
    exact (exec_located hplaced hl hcode h hexec).mono fun t => .inl
  | tick handlers => exact (tick_located hplaced hl h).mono fun t => .inl
  | idle handlers => exact (idle_located hplaced hl h).mono fun t => .inl

theorem Booted.located (hboot : Booted k) : Located (fun _ => False) k := by
  have hcode := hboot.code
  refine ⟨fun t => ?_, fun t hhead => ?_, fun t hmem => ?_, fun t ht => .inl ?_⟩
  · rw [hcode]
    trivial
  · rw [hcode] at hhead
    cases hhead
  · rw [hcode] at hmem
    cases hmem
  · by_contra hne
    rw [hboot.created, Function.update_of_ne hne] at ht
    cases ht

theorem CalledFinish.cons {k₁ : Kernel} {es : List Event} (hst : k.step e = .ok k₁)
    (h : CalledFinish t k₁ es) : CalledFinish t k (e :: es) := by
  obtain ⟨es₁, es₂, k₂, rfl, hrun, hcur⟩ := h
  exact ⟨e :: es₁, es₂, k₂, rfl, run_cons_eq_ok.mpr ⟨k₁, hst, hrun⟩, hcur⟩

/-! ## Threads that have been woken -/

/-- The thread has been taken out of the queue of the semaphore, and tests the value again next. -/
inductive Retries (s : SemId) (t : ℕ) (k : Kernel) : Prop where
  /-- It has not slept yet. -/
  | sleeping {rest : List Instr} (hcur : t = k.currentThread) (hready : t ∈ k.readyList)
    (hcode : k.code t = .sleep :: .pRetry s :: rest)
  | ready {rest : List Instr} (hcur : t ≠ k.currentThread) (hready : t ∈ k.readyList)
    (hcode : k.code t = .pRetry s :: rest)
  | running {rest : List Instr} (hcur : t = k.currentThread) (hcode : k.code t = .pRetry s :: rest)

/-- The threads that have been woken are those that test the value again. -/
structure Awake (k : Kernel) : Prop where
  nodup : ∀ s, (k.semaphore s).woken.Nodup
  retries : ∀ s, ∀ t ∈ (k.semaphore s).woken, Retries s t k

variable {s : SemId}

/-- A woken thread that does not run is ready to test its semaphore again. -/
theorem Retries.ready_of_ne (h : Retries s t k) (hne : t ≠ k.currentThread) :
    t ∈ k.readyList ∧ ∃ rest, k.code t = .pRetry s :: rest := by
  cases h with
  | sleeping hcur _ _ => exact absurd hcur hne
  | ready _ hready hcode => exact ⟨hready, _, hcode⟩
  | running hcur _ => exact absurd hcur hne

/-- A thread that runs and has been woken is at `Sleep`, or at the test. -/
theorem Retries.head (h : Retries s t k) (ht : t = k.currentThread) {instr : Instr}
    {rest : List Instr} (hcode : k.code k.currentThread = instr :: rest) :
    instr = .sleep ∨ instr = .pRetry s := by
  subst ht
  cases h with
  | sleeping _ _ hcode' =>
    rw [hcode] at hcode'
    exact .inl (List.cons.inj hcode').1
  | ready hne _ _ => exact absurd rfl hne
  | running _ hcode' =>
    rw [hcode] at hcode'
    exact .inr (List.cons.inj hcode').1

theorem Retries.of_same (h : Retries s t k) (hcur : k'.currentThread = k.currentThread)
    (hcode : k'.code t = k.code t) (hready : t ∈ k.readyList → t ∈ k'.readyList) :
    Retries s t k' := by
  cases h with
  | sleeping ht hr hc => exact .sleeping (ht.trans hcur.symm) (hready hr) (hcode.trans hc)
  | ready ht hr hc =>
    refine .ready ?_ (hready hr) (hcode.trans hc)
    rw [hcur]
    exact ht
  | running ht hc => exact .running (ht.trans hcur.symm) (hcode.trans hc)

/-- What the `V` of a semaphore does to the threads that wait there. -/
theorem increment_woken (h : k.increment s = .ok k') :
    ((k'.semaphore s).woken = (k.semaphore s).woken ∧ k'.readyList = k.readyList) ∨
    ∃ t ts, (k.semaphore s).queue = t :: ts ∧
      (k'.semaphore s).woken = t :: (k.semaphore s).woken ∧
      k'.readyList = k.readyList ++ [t] := by
  unfold increment at h
  dsimp only at h
  split at h
  · cases h
  · split at h
    · cases h
      refine .inl ⟨?_, rfl⟩
      show (Function.update k.semaphore s _ s).woken = _
      rw [Function.update_self]
    · rename_i t ts hqueue
      cases h
      refine .inr ⟨t, ts, hqueue, ?_, rfl⟩
      show (Function.update k.semaphore s _ s).woken = _
      rw [Function.update_self]

/-- `V` wakes a thread that then tests the semaphore again. -/
theorem increment_awake (hapart : Apart k.place) (hloop : InLoop k) (ha : Awake k)
    (h : k.increment s = .ok k') : Awake k' := by
  obtain ⟨-, hcode, hcur, -, hothers⟩ := increment_frame h
  have hold : ∀ {s' : SemId} {t : ℕ}, t ∈ (k.semaphore s').woken → Retries s' t k' := by
    intro s' t ht
    refine (ha.retries s' t ht).of_same hcur (congrFun hcode t) fun hready => ?_
    rcases increment_woken h with ⟨-, hsame⟩ | ⟨u, us, -, -, hmore⟩
    · rw [hsame]
      exact hready
    · rw [hmore]
      exact List.mem_append_left _ hready
  refine ⟨fun s' => ?_, fun s' t ht => ?_⟩
  · by_cases hs : s' = s
    · subst hs
      rcases increment_woken h with ⟨hsame, -⟩ | ⟨u, us, hqueue, hmore, -⟩
      · rw [hsame]
        exact ha.nodup s'
      · rw [hmore, List.nodup_cons]
        refine ⟨fun hwoken => ?_, ha.nodup s'⟩
        -- a thread in the queue has not been woken yet
        have hin : u ∈ k.place (.queue s') := by
          show u ∈ (k.semaphore s').queue
          rw [hqueue]
          exact List.mem_cons_self
        have hsleep := hloop s' u hin
        -- a woken thread is ready or runs its retry, and a queued one is neither
        cases ha.retries s' u hwoken with
        | sleeping _ hready _ =>
          have hplace := hapart.unique (p := .ready) hready hin
          cases hplace
        | ready _ hready _ =>
          have hplace := hapart.unique (p := .ready) hready hin
          cases hplace
        | running hu hcode =>
          rw [if_pos hu, hcode] at hsleep
          obtain ⟨rest, hsleep⟩ := hsleep
          cases hsleep
    · rw [hothers s' hs]
      exact ha.nodup s'
  · by_cases hs : s' = s
    · subst hs
      rcases increment_woken h with ⟨hsame, -⟩ | ⟨u, us, hqueue, hmore, hready⟩
      · rw [hsame] at ht
        exact hold ht
      · rw [hmore] at ht
        rcases List.mem_cons.mp ht with rfl | ht
        · have hin : t ∈ k.place (.queue s') := by
            show t ∈ (k.semaphore s').queue
            rw [hqueue]
            exact List.mem_cons_self
          have hsleep := hloop s' t hin
          have hready' : t ∈ k'.readyList := by
            rw [hready]
            exact List.mem_append_right _ List.mem_cons_self
          -- an interrupt may wake the thread that is just about to sleep
          by_cases hself : t = k.currentThread
          · rw [if_pos hself] at hsleep
            obtain ⟨rest, hsleep⟩ := hsleep
            exact .sleeping (hself.trans hcur.symm) hready' ((congrFun hcode t).trans hsleep)
          · rw [if_neg hself] at hsleep
            obtain ⟨rest, hsleep⟩ := hsleep
            refine .ready ?_ hready' ((congrFun hcode t).trans hsleep)
            rw [hcur]
            exact hself
        · exact hold ht
    · rw [hothers s' hs] at ht
      exact hold ht

theorem increment_inLoop (hloop : InLoop k) (h : k.increment s = .ok k') : InLoop k' := by
  obtain ⟨hcur, -, hcode, hplace⟩ := increment_rearranged h
  intro s' t ht
  have hold : t ∈ k.place (.queue s') := by
    rcases hplace with hplace | ⟨u, us, hqueue, hplace⟩
    · rw [hplace] at ht
      exact ht
    · rw [hplace, Function.update_of_ne (by simp)] at ht
      rcases mem_update.mp ht with ⟨hs, ht⟩ | ⟨-, ht⟩
      · rw [hs, hqueue]
        exact List.mem_cons_of_mem u ht
      · exact ht
  rw [hcur, hcode]
  exact hloop s' t hold

/-- So do the handlers. -/
theorem handle_awake {handlers : List Handler} (hapart : Apart k.place) (hloop : InLoop k)
    (ha : Awake k) (h : k.handle handlers = .ok k') : Awake k' := by
  induction handlers generalizing k with
  | nil =>
    cases h
    exact ha
  | cons handler handlers ih =>
    cases handler with
    | v n =>
      obtain ⟨k₁, hinc, h⟩ := bind_ok_iff.mp h
      have hone : k.handle [.v n] = .ok k₁ := bind_ok_iff.mpr ⟨k₁, hinc, rfl⟩
      have hapart₁ := (handle_placed hapart hone).1
      exact ih hapart₁ (increment_inLoop hloop hinc) (increment_awake hapart hloop ha hinc) h
    | timer =>
      exact ih (k := { k with yieldOnReturn := true }) hapart hloop ⟨ha.nodup, fun s t ht =>
        (ha.retries s t ht).of_same rfl rfl id⟩ h

/-- The handlers wake threads that wait. -/
theorem handle_woken {handlers : List Handler} (h : k.handle handlers = .ok k')
    (ht : t ∈ (k'.semaphore s).woken) :
    t ∈ (k.semaphore s).woken ∨ t ∈ (k.semaphore s).queue := by
  induction handlers generalizing k with
  | nil =>
    cases h
    exact .inl ht
  | cons handler handlers ih =>
    cases handler with
    | v n =>
      obtain ⟨k₁, hinc, h⟩ := bind_ok_iff.mp h
      by_cases hs : s = .user n
      · subst hs
        have hone : k.handle [.v n] = .ok k₁ := bind_ok_iff.mpr ⟨k₁, hinc, rfl⟩
        have hqueue : ∀ u ∈ (k₁.semaphore (.user n)).queue, u ∈ (k.semaphore (.user n)).queue :=
          fun u hu => handle_queue hone hu
        rcases ih h with hwoken | hin
        · rcases increment_woken hinc with ⟨hsame, -⟩ | ⟨u, us, hlist, hmore, -⟩
          · rw [hsame] at hwoken
            exact .inl hwoken
          · rw [hmore] at hwoken
            rcases List.mem_cons.mp hwoken with rfl | hwoken
            · rw [hlist]
              exact .inr List.mem_cons_self
            · exact .inl hwoken
        · exact .inr (hqueue t hin)
      · obtain ⟨-, -, -, -, hothers⟩ := increment_frame hinc
        rw [← hothers s hs]
        exact ih h
    | timer => exact ih (k := { k with yieldOnReturn := true }) h

/-- The state with the rest of the code, if the instruction is neither `Sleep` nor a test. -/
theorem Awake.withRest {instr : Instr} {rest : List Instr} (hplaced : Placed k) (hloop : InLoop k)
    (ha : Awake k) (hcode : k.code k.currentThread = instr :: rest) (hsleep : instr ≠ .sleep)
    (hretry : ∀ s, instr ≠ .pRetry s) : InLoop (k.withRest rest) ∧ Awake (k.withRest rest) := by
  refine ⟨fun s t ht => ?_, ha.nodup, fun s t ht => ?_⟩
  · have hne : t ≠ k.currentThread := by
      rintro rfl
      exact hplaced.nowhere hcode hsleep ⟨.queue s, ht⟩
    have hne' : t ≠ (k.withRest rest).currentThread := hne
    rw [if_neg hne']
    show ∃ rest', Function.update k.code k.currentThread rest t = _
    rw [Function.update_of_ne hne]
    exact hloop.sleeping ht hne
  · have hr := ha.retries s t ht
    have hne : t ≠ k.currentThread := by
      intro hself
      rcases hr.head hself hcode with hinstr | hinstr
      · exact hsleep hinstr
      · exact hretry s hinstr
    exact hr.of_same rfl (Function.update_of_ne hne _ _) id

/-! ## Steps -/

/-- `P` wakes nobody. -/
theorem takeOrSleep_woken (k : Kernel) (s s' : SemId) :
    ((k.takeOrSleep s).semaphore s').woken = (k.semaphore s').woken := by
  by_cases hs : s' = s
  · subst hs
    unfold takeOrSleep
    dsimp only
    split
    · show (Function.update k.semaphore s' _ s').woken = _
      rw [Function.update_self]
    · rw [enter_semaphore]
      show (Function.update k.semaphore s' _ s').woken = _
      rw [Function.update_self]
  · rw [takeOrSleep_others hs]

/-- Most instructions leave the semaphores alone. -/
theorem exec_semaphore {instr : Instr} (h : k.exec instr = .ok k') (hp : ∀ s, instr ≠ .p s)
    (hretry : ∀ s, instr ≠ .pRetry s) (hv : ∀ s, instr ≠ .v s)
    (hdestroy : ∀ s, instr ≠ .destroy s) : k'.semaphore = k.semaphore := by
  cases instr with
  | setLevel now =>
    cases h
    exact setLevel_semaphore _ _
  | saveLevel =>
    cases h
    exact setLevel_semaphore _ _
  | restoreLevel =>
    rw [exec] at h
    split at h
    · cases h
    · cases h
      exact setLevel_semaphore _ _
  | oneTick => cases h
  | p s => exact absurd rfl (hp s)
  | pRetry s => exact absurd rfl (hretry s)
  | v s => exact absurd rfl (hv s)
  | destroy s => exact absurd rfl (hdestroy s)
  | signal c =>
    rw [exec] at h
    split at h <;>
    · cases h
      rfl
  | yieldCPU =>
    rw [exec] at h
    split at h
    · cases h
      rfl
    · cases h
      exact run_semaphore _ _
  | sleep =>
    rw [exec] at h
    split at h
    · cases h
    · split at h
      · cases h
      · cases h
        exact run_semaphore _ _
  | _ =>
    cases h
    rfl

/-- Only `V` and the test after a wake-up change who has been woken. -/
theorem exec_woken {instr : Instr} (h : k.exec instr = .ok k') (hv : ∀ s, instr ≠ .v s)
    (hretry : ∀ s, instr ≠ .pRetry s) (s : SemId) :
    (k'.semaphore s).woken = (k.semaphore s).woken := by
  by_cases hp : ∃ s', instr = .p s'
  · obtain ⟨s', rfl⟩ := hp
    cases h
    exact takeOrSleep_woken k s' s
  · by_cases hdestroy : ∃ s', instr = .destroy s'
    · obtain ⟨s', rfl⟩ := hdestroy
      cases h
      show (Function.update k.semaphore s' _ s).woken = _
      by_cases hs : s = s'
      · subst hs
        rw [Function.update_self]
      · rw [Function.update_of_ne hs]
    · rw [exec_semaphore h (fun s' hs => hp ⟨s', hs⟩) hretry hv fun s' hs => hdestroy ⟨s', hs⟩]

/-- A thread that has been woken stays so until it tests the value. -/
theorem exec_retries {instr : Instr} {rest : List Instr}
    (hcode : k.code k.currentThread = instr :: rest) (h : (k.withRest rest).exec instr = .ok k')
    (hr : Retries s t k) (hne : instr = .pRetry s → t ≠ k.currentThread) : Retries s t k' := by
  obtain ⟨-, pushed, hcode', hre⟩ := exec_withRest_rearranged h
  have hnow : ∀ rest', k'.code t = .pRetry s :: rest' → t ∈ k.readyList → Retries s t k' := by
    intro rest' hcode hready
    by_cases hself : t = k'.currentThread
    · exact .running hself hcode
    · exact .ready hself ((hre.keeps_ready hready).resolve_left hself) hcode
  cases hr with
  | @sleeping rest' ht hready hc =>
    subst ht
    rw [hcode] at hc
    obtain ⟨rfl, rfl⟩ := List.cons.inj hc
    refine hnow rest' ?_ hready
    rw [hcode', Function.update_self, hre.pushed_eq_nil (by simp) (by simp) (by simp)]
    rfl
  | @ready rest' ht hready hc =>
    refine hnow rest' ?_ hready
    rw [hcode', Function.update_of_ne ht]
    exact hc
  | running ht hc =>
    subst ht
    rw [hcode] at hc
    exact absurd rfl (hne (List.cons.inj hc).1)

/-- Every instruction keeps the woken threads on their way to the test. -/
theorem exec_awake {instr : Instr} {rest : List Instr} (hplaced : Placed k) (hloop : InLoop k)
    (ha : Awake k) (hcode : k.code k.currentThread = instr :: rest)
    (h : (k.withRest rest).exec instr = .ok k') : Awake k' := by
  by_cases hv : ∃ s, instr = .v s
  · obtain ⟨s, rfl⟩ := hv
    obtain ⟨hloop', ha'⟩ := ha.withRest hplaced hloop hcode (by simp) (by simp)
    obtain ⟨k₁, hinc, h⟩ := bind_ok_iff.mp h
    have ha₁ := increment_awake (k := k.withRest rest) hplaced.apart hloop' ha' hinc
    rw [← pure_ok_iff.mp h]
    refine ⟨fun s' => ?_, fun s' t ht => ?_⟩
    · rw [leave_semaphore]
      exact ha₁.nodup s'
    · rw [leave_semaphore] at ht
      refine (ha₁.retries s' t ht).of_same (leave_currentThread k₁ s)
        (congrFun (leave_code k₁ s) t) fun hready => ?_
      rw [leave_readyList]
      exact hready
  · by_cases hretry : ∃ s, instr = .pRetry s
    · -- the thread that tests again is no longer among the woken ones of its semaphore
      obtain ⟨s, rfl⟩ := hretry
      have hk' : k' = ((k.withRest rest).resumed s).takeOrSleep s := (Except.ok.inj h).symm
      have hwoken : ∀ s', (k'.semaphore s').woken =
          if s' = s then (k.semaphore s).woken.erase k.currentThread
          else (k.semaphore s').woken := by
        intro s'
        rw [hk', takeOrSleep_woken]
        show (Function.update k.semaphore s _ s').woken = _
        by_cases hs : s' = s
        · subst hs
          rw [Function.update_self, if_pos rfl]
          rfl
        · rw [Function.update_of_ne hs, if_neg hs]
      refine ⟨fun s' => ?_, fun s' t ht => ?_⟩
      · rw [hwoken]
        split
        · exact (ha.nodup s).erase _
        · exact ha.nodup s'
      · rw [hwoken] at ht
        by_cases hs : s' = s
        · subst hs
          rw [if_pos rfl, (ha.nodup s').mem_erase_iff] at ht
          exact exec_retries hcode h (ha.retries s' t ht.2) fun _ => ht.1
        · rw [if_neg hs] at ht
          refine exec_retries hcode h (ha.retries s' t ht) fun hinstr => ?_
          exact absurd (Instr.pRetry.inj hinstr).symm hs
    · -- nothing else wakes a thread or lets one test
      have hsame := exec_woken h (fun s hs => hv ⟨s, hs⟩) fun s hs => hretry ⟨s, hs⟩
      refine ⟨fun s => ?_, fun s t ht => ?_⟩
      · rw [hsame]
        exact ha.nodup s
      · rw [hsame] at ht
        exact exec_retries hcode h (ha.retries s t ht) fun hinstr => absurd ⟨s, hinstr⟩ hretry

/-- Every step does. -/
theorem step_awake (hplaced : Placed k) (hloop : InLoop k) (ha : Awake k)
    (h : k.step e = .ok k') : Awake k' := by
  cases e with
  | call c =>
    have hcalled := call_called hplaced.current h
    have hsem : k'.semaphore = k.semaphore := by rw [hcalled.frame]
    have hready : k'.readyList = k.readyList := by rw [hcalled.frame]
    refine ⟨fun s => ?_, fun s t ht => ?_⟩
    · rw [hsem]
      exact ha.nodup s
    · rw [hsem] at ht
      have hr := ha.retries s t ht
      -- a thread that makes a call is outside all routines, so it is not one that was woken
      have hne : t ≠ k.currentThread := by
        intro hself
        cases hr with
        | sleeping _ _ hcode =>
          rw [hself, hcalled.outside] at hcode
          cases hcode
        | ready hne _ _ => exact hne hself
        | running _ hcode =>
          rw [hself, hcalled.outside] at hcode
          cases hcode
      have hcreated := hplaced.created t ⟨.ready, (hr.ready_of_ne hne).1⟩
      refine hr.of_same hcalled.currentThread (hcalled.code_eq hne hcreated) fun hmem => ?_
      rw [hready]
      exact hmem
  | exec =>
    obtain ⟨instr, rest, hcode, h⟩ := exec_ok h
    exact exec_awake hplaced hloop ha hcode h
  | tick handlers =>
    obtain ⟨rest, hcode, h⟩ := tick_ok h
    obtain ⟨k₁, pushed, hhandle, -, rfl⟩ := tick_frame h
    obtain ⟨hloop', ha'⟩ := ha.withRest hplaced hloop hcode (by simp) (by simp)
    obtain ⟨-, hcode₁, hcur, -⟩ := handle_frame hhandle
    -- the tick itself wakes nobody; its handlers do
    have ha₁ := handle_awake (k := k.withRest rest) hplaced.apart hloop' ha' hhandle
    refine ⟨ha₁.nodup, fun s t ht => ?_⟩
    have hne : t ≠ k.currentThread := by
      intro hself
      rcases handle_woken hhandle ht with hwoken | hqueue
      · have hhead := (ha.retries s t hwoken).head hself hcode
        simp at hhead
      · rw [hself] at hqueue
        exact hplaced.nowhere hcode (by simp) ⟨.queue s, hqueue⟩
    refine (ha₁.retries s t ht).of_same rfl ?_ id
    show Function.update k.code k.currentThread (pushed ++ rest) t = k₁.code t
    rw [hcode₁, Function.update_of_ne hne]
    exact (Function.update_of_ne hne _ _).symm
  | idle handlers =>
    obtain ⟨k₁, hhandle, h⟩ := bind_ok_iff.mp (idle_ok h)
    have ha₁ := handle_awake hplaced.apart hloop ha hhandle
    rw [← pure_ok_iff.mp h]
    exact ⟨ha₁.nodup, fun s t ht => (ha₁.retries s t ht).of_same rfl rfl id⟩

theorem Booted.awake (hboot : Booted k) : Awake k := by
  have hnone : ∀ s, (k.semaphore s).woken = [] := fun s => (hboot.semaphore s).2.2.2
  refine ⟨fun s => ?_, fun s t ht => ?_⟩
  · rw [hnone]
    exact List.nodup_nil
  · rw [hnone] at ht
    cases ht

/-! ## An idle kernel -/

/-- The running thread is in `Sleep`, and no thread is ready: `Idle` is called. -/
def IsIdle (k : Kernel) : Prop :=
  (k.code k.currentThread).head? = some .sleep ∧ k.readyList = []

instance (k : Kernel) : Decidable k.IsIdle := inferInstanceAs (Decidable (_ ∧ _))

/-- The thread waits for somebody else. -/
def Blocked (t : ℕ) (k : Kernel) : Prop :=
  (∃ s, t ∈ (k.semaphore s).queue ∧ (k.semaphore s).value = 0) ∨ ∃ c, t ∈ k.hilos c

/-- In an idle kernel, who has not finished is blocked. -/
theorem Located.blocked (hl : Located finished k) (hplaced : Placed k) (ha : Awake k)
    (hsound : ∀ s, ∃ initial, (k.semaphore s).Sound initial) (hidle : IsIdle k)
    (hcreated : k.created t = true) : finished t ∨ Blocked t k := by
  obtain ⟨hhead, hready⟩ := hidle
  obtain ⟨rest, hcode⟩ := List.head?_eq_some_iff.mp hhead
  -- nobody has been woken, since nobody is ready
  have hnone : ∀ s, (k.semaphore s).woken = [] := by
    intro s
    refine List.eq_nil_iff_forall_not_mem.mpr fun u hu => ?_
    cases ha.retries s u hu with
    | sleeping _ hmem _ =>
      rw [hready] at hmem
      cases hmem
    | ready _ hmem _ =>
      rw [hready] at hmem
      cases hmem
    | running hcur hcode' =>
      rw [hcur, hcode] at hcode'
      cases hcode'
  have hblocked : Occurs k.place t → Blocked t k := by
    intro hoccurs
    obtain ⟨p, hp⟩ := hoccurs
    cases p with
    | ready =>
      have hp : t ∈ k.readyList := hp
      rw [hready] at hp
      cases hp
    | queue s =>
      obtain ⟨initial, hs⟩ := hsound s
      have hle := hs.woken (List.ne_nil_of_mem hp)
      rw [hnone s] at hle
      exact .inl ⟨s, hp, Int.le_antisymm hle hs.nonneg⟩
    | hilos c => exact .inr ⟨c, hp⟩
  rcases hl.somewhere t hcreated with rfl | hoccurs | ⟨u, hfork⟩ | hfinished
  · rcases (hl.parked _ hhead).2 with hoccurs | hfinished
    · exact .inr (hblocked hoccurs)
    · exact .inl hfinished
  · exact .inr (hblocked hoccurs)
  · -- a thread that forks another one is not about to sleep
    obtain ⟨hu, -, -, -, hforking⟩ := hplaced.forks t u hfork
    rw [hu, hcode] at hforking
    simp [threadFork] at hforking
  · exact .inl hfinished

/-- What is always true of the threads. -/
structure Tracked (finished : ℕ → Prop) (k : Kernel) : Prop where
  placed : Placed k
  inLoop : InLoop k
  awake : Awake k
  sound : ∀ s, ∃ initial, (k.semaphore s).Sound initial
  located : Located finished k

theorem step_tracked (ht : Tracked finished k) (hawake : KeepsAwake k e) (h : k.step e = .ok k') :
    Tracked (finishedAfter finished k e) k' where
  placed := step_placed ht.placed h
  inLoop := step_inLoop ht.placed ht.inLoop h
  awake := step_awake ht.placed ht.inLoop ht.awake h
  sound s := by
    obtain ⟨initial, hsound⟩ := ht.sound s
    exact ⟨initial, step_sound hsound h⟩
  located := step_located ht.placed ht.located hawake h

theorem Booted.tracked (hboot : Booted k) (hinitial : ∀ n, 0 ≤ (k.semaphore (.user n)).value) :
    Tracked (fun _ => False) k where
  placed := hboot.placed
  inLoop := hboot.inLoop
  awake := hboot.awake
  sound s := by
    obtain ⟨hqueue, hP, hV, -⟩ := hboot.semaphore s
    refine ⟨(k.semaphore s).value, ?_, ?_, fun hne => absurd hqueue hne⟩
    · cases s with
      | user n => exact hinitial n
      | lock l =>
        rw [hboot.lockSemaphore l]
        decide
    · rw [hP, hV]
      omega
  located := hboot.located

/-- Along a run, the threads that have called `Finish` are those of the run. -/
theorem run_tracked {es : List Event} : ∀ {finished : ℕ → Prop} {k : Kernel},
    Tracked finished k → Along step KeepsAwake k es → PartialRun.run step k es = .ok k' →
    Tracked (fun t => finished t ∨ CalledFinish t k es) k' := by
  induction es with
  | nil =>
    intro finished k ht hawake hrun
    cases hrun
    exact { ht with located := ht.located.mono fun t => .inl }
  | cons e es ih =>
    intro finished k ht hawake hrun
    obtain ⟨k₁, hst, hrun⟩ := run_cons_eq_ok.mp hrun
    have ht' := ih (step_tracked ht hawake.1 hst) (hawake.2 k₁ hst) hrun
    refine { ht' with located := ht'.located.mono fun t hfinished => ?_ }
    rcases hfinished with (hbefore | ⟨rfl, hcur⟩) | hlater
    · exact .inl hbefore
    -- the step is the call of `Finish`
    · exact .inr ⟨[], es, k, rfl, rfl, hcur.symm⟩
    · exact .inr (hlater.cons hst)

/-- A thread that has called `Finish` waits for nobody. -/
theorem Blocked.occurs (h : Blocked t k) : Occurs k.place t := by
  rcases h with ⟨s, hqueue, -⟩ | ⟨c, hhilos⟩
  · exact ⟨.queue s, hqueue⟩
  · exact ⟨.hilos c, hhilos⟩

/-- In every state of every run in which nobody calls `Sleep` outside the routines of the kernel,
a thread runs, is in one of the lists, is being forked by the running thread or has called
`Finish`. When the kernel is idle, the threads that have not called `Finish` are those that wait
for a condition, or at a semaphore without units. -/
theorem run_whereabouts {es : List Event} (hboot : Booted k)
    (hinitial : ∀ n, 0 ≤ (k.semaphore (.user n)).value) (hawake : Along step KeepsAwake k es)
    (hrun : PartialRun.run step k es = .ok k') :
    (∀ t, k'.created t = true → t = k'.currentThread ∨ Occurs k'.place t ∨
      .readyToRun t ∈ k'.code k'.currentThread ∨ CalledFinish t k es) ∧
    (IsIdle k' → ∀ t, k'.created t = true → (Blocked t k' ↔ ¬ CalledFinish t k es)) := by
  have htracked := run_tracked (hboot.tracked hinitial) hawake hrun
  refine ⟨fun t ht => ?_, fun hidle t ht => ⟨fun hblocked hfinish => ?_, fun hnot => ?_⟩⟩
  · rcases htracked.located.somewhere t ht with hcur | hoccurs | ⟨u, hfork⟩ | hno | hfinish
    · exact .inl hcur
    · exact .inr (.inl hoccurs)
    · rw [(htracked.placed.forks t u hfork).current] at hfork
      exact .inr (.inr (.inl hfork))
    · exact hno.elim
    · exact .inr (.inr (.inr hfinish))
  · -- a finished thread is on no queue
    exact (run_gone hboot hfinish hrun).nowhere hblocked.occurs
  · rcases htracked.located.blocked htracked.placed htracked.awake htracked.sound hidle ht with
      hfinished | hblocked
    · exact absurd (hfinished.resolve_left id) hnot
    · exact hblocked

/-- Thread `1` waits at semaphore `0`, thread `2` for condition `0`, and thread `0` finishes. -/
def abandoningRun : List Event := [
  .call (.fork 1), .exec, .exec, .exec, .tick [],
  .call (.fork 2), .exec, .exec, .exec, .tick [],
  .call .yield, .exec, .exec,
  .exec, .tick [], .call (.p 0), .exec, .exec, .exec,
  .exec, .tick [], .call (.acquire 0), .exec, .exec, .exec, .tick [], .exec,
  .call (.wait 0 0), .exec, .exec, .exec, .exec, .exec, .exec, .exec,
  .exec, .tick [], .call .finish, .exec, .exec]

theorem abandoningRun_whereabouts : ∃ k,
    PartialRun.run step (boot fun _ => 0) abandoningRun = .ok k ∧ IsIdle k ∧
    Blocked 1 k ∧ Blocked 2 k ∧ ¬ CalledFinish 1 (boot fun _ => 0) abandoningRun ∧
    ¬ CalledFinish 2 (boot fun _ => 0) abandoningRun := by
  obtain ⟨k, hrun, hidle, hfirst, hsecond, hqueue, hvalue, hhilos⟩ : ∃ k,
      PartialRun.run step (boot fun _ => 0) abandoningRun = .ok k ∧ IsIdle k ∧
      k.created 1 = true ∧ k.created 2 = true ∧ 1 ∈ (k.semaphore (.user 0)).queue ∧
      (k.semaphore (.user 0)).value = 0 ∧ 2 ∈ k.hilos 0 := by decide +kernel
  have hawake : Along step KeepsAwake (boot fun _ => 0) abandoningRun := by decide +kernel
  obtain ⟨-, hblocked⟩ := run_whereabouts (boot_booted fun _ => 0) (fun _ => Int.le_refl 0)
    hawake hrun
  have hone : Blocked 1 k := .inl ⟨.user 0, hqueue, hvalue⟩
  have htwo : Blocked 2 k := .inr ⟨0, hhilos⟩
  exact ⟨k, hrun, hidle, hone, htwo, (hblocked hidle 1 hfirst).mp hone,
    (hblocked hidle 2 hsecond).mp htwo⟩

end

end Kernel
end NachOS
