import NachOS.Threads.Scheduling

/-!
# The threads that have finished

A thread cannot delete itself: `Finish` leaves it in `threadToBeDestroyed`, and the thread
that `SWITCH` resumes in `Scheduler::Run` deletes it. A thread that is started enters
`ThreadRoot` instead, and deletes nothing.
-/

namespace NachOS
namespace Kernel

open PartialRun Placement

/-! ## What a step does to them -/

/-- The thread that waits to be deleted, and the deleted ones. -/
def carcasses (k : Kernel) : List ℕ := k.threadToBeDestroyed.toList ++ k.deleted

/-- The step is the assignment to `threadToBeDestroyed` in `Finish`. -/
def Finishes (k : Kernel) (e : Event) : Prop :=
  e = .exec ∧ (k.code k.currentThread).head? = some .toBeDestroyed

/-- `Scheduler::Run` resumes a thread that has run before. -/
def Resumes (k : Kernel) (e : Event) : Prop :=
  Dispatches k e ∧ ∃ t ∈ k.readyList.head?, k.started t = true

instance (k : Kernel) (e : Event) : Decidable (Finishes k e) :=
  inferInstanceAs (Decidable (_ ∧ _))

instance (k : Kernel) (e : Event) : Decidable (Resumes k e) :=
  match hready : k.readyList.head? with
  | none => isFalse (by simp [Resumes, hready])
  | some t => decidable_of_iff (Dispatches k e ∧ k.started t = true) (by simp [Resumes, hready])

/-- A thread that finishes gives up the processor only in the next step. -/
theorem not_finishes_of_dispatches {k : Kernel} {e : Event} (h : Dispatches k e) :
    ¬ Finishes k e := by
  rintro ⟨-, hcode⟩
  rcases h.2.2 with h | h
  · rw [h] at hcode
    cases hcode
  · rw [h] at hcode
    cases hcode

/-- The thread that has finished in the step. -/
def finished (k : Kernel) (e : Event) : List ℕ :=
  if Finishes k e then [k.currentThread] else []

/-- Neither variable is written. -/
structure Undisturbed (k k' : Kernel) : Prop where
  threadToBeDestroyed : k'.threadToBeDestroyed = k.threadToBeDestroyed
  deleted : k'.deleted = k.deleted

theorem Undisturbed.refl (k : Kernel) : Undisturbed k k := ⟨rfl, rfl⟩

/-- Two moves that leave the finished threads alone do so one after the other. -/
theorem Undisturbed.trans {k m n : Kernel} (h : Undisturbed k m) (h' : Undisturbed m n) :
    Undisturbed k n :=
  ⟨h'.threadToBeDestroyed.trans h.threadToBeDestroyed, h'.deleted.trans h.deleted⟩

theorem Undisturbed.carcasses_eq {k k' : Kernel} (h : Undisturbed k k') :
    k'.carcasses = k.carcasses := by
  rw [carcasses, h.threadToBeDestroyed, h.deleted]
  rfl

theorem setLevel_undisturbed (k : Kernel) (now : IntStatus) : Undisturbed k (k.setLevel now) := by
  unfold setLevel
  dsimp only
  split <;> exact ⟨rfl, rfl⟩

theorem enter_undisturbed (k : Kernel) (s : SemId) : Undisturbed k (k.enter s) := by
  cases s <;> exact ⟨rfl, rfl⟩

theorem leave_undisturbed (k : Kernel) (s : SemId) : Undisturbed k (k.leave s) := by
  cases s <;> exact ⟨rfl, rfl⟩

theorem takeOrSleep_undisturbed (k : Kernel) (s : SemId) : Undisturbed k (k.takeOrSleep s) := by
  unfold takeOrSleep
  dsimp only
  split
  · exact ⟨rfl, rfl⟩
  · exact .trans (m := k.setSemaphore s _) ⟨rfl, rfl⟩ (enter_undisturbed _ s)

/-- `V` makes a thread ready and deletes none. -/
theorem increment_undisturbed {k k' : Kernel} {s : SemId} (h : k.increment s = .ok k') :
    Undisturbed k k' := by
  unfold increment at h
  dsimp only at h
  split at h
  · cases h
  · split at h <;> (cases h; exact ⟨rfl, rfl⟩)

/-- The interrupt handlers delete no thread. -/
theorem handle_undisturbed {handlers : List Handler} {k k' : Kernel}
    (h : k.handle handlers = .ok k') : Undisturbed k k' := by
  induction handlers generalizing k with
  | nil =>
    cases h
    exact .refl _
  | cons handler handlers ih =>
    cases handler with
    | v n =>
      obtain ⟨k₁, hinc, h⟩ := bind_ok_iff.mp h
      exact (increment_undisturbed hinc).trans (ih h)
    | timer => exact .trans (m := { k with yieldOnReturn := true }) ⟨rfl, rfl⟩ (ih h)

/-- `Scheduler::Run` empties the variable when it resumes a thread, and leaves it alone when
it starts one. -/
theorem run_deletes (k : Kernel) (t : ℕ) :
    (k.started t = true ∧ (k.run t).threadToBeDestroyed = none ∧
        (k.run t).deleted = k.carcasses) ∨
      (k.started t = false ∧ Undisturbed k (k.run t)) := by
  unfold Kernel.run
  cases hstarted : k.started t with
  | true => exact .inl ⟨rfl, rfl, rfl⟩
  | false => exact .inr ⟨rfl, rfl, rfl⟩

/-- What a step does to the finished threads. -/
inductive Disposes (k : Kernel) (e : Event) (k' : Kernel) : Prop where
  | finishes (h : Finishes k e) (hpending : k'.threadToBeDestroyed = some k.currentThread)
    (hdeleted : k'.deleted = k.deleted)
  | resumes (h : Resumes k e) (hpending : k'.threadToBeDestroyed = none)
    (hdeleted : k'.deleted = k.carcasses)
  | other (hfinishes : ¬ Finishes k e) (hresumes : ¬ Resumes k e) (h : Undisturbed k k')

/-- A step that neither finishes a thread nor dispatches one leaves the finished threads alone. -/
theorem disposes_of_undisturbed {k k' : Kernel} {e : Event} (hfinishes : ¬ Finishes k e)
    (hdispatches : ¬ Dispatches k e) (h : Undisturbed k k') : Disposes k e k' :=
  .other hfinishes (fun hresumes => hdispatches hresumes.1) h

/-- The same for a step in which `Scheduler::Run` is called. -/
theorem disposes_of_run {k k₁ : Kernel} {e : Event} {t : ℕ} {ts : List ℕ}
    (hdispatches : Dispatches k e) (hready : k.readyList = t :: ts)
    (hstarted : k₁.started = k.started) (hsame : Undisturbed k k₁) :
    Disposes k e (k₁.run t) := by
  have hresumes : Resumes k e ↔ k.started t = true := by
    simp [Resumes, hdispatches, hready]
  rcases run_deletes k₁ t with ⟨hold, hpending, hdeleted⟩ | ⟨hnew, hrun⟩
  · rw [hstarted] at hold
    exact .resumes (hresumes.mpr hold) hpending (hdeleted.trans hsame.carcasses_eq)
  · rw [hstarted] at hnew
    refine .other (not_finishes_of_dispatches hdispatches) ?_ (hsame.trans hrun)
    rw [hresumes, hnew]
    simp

/-- An instruction that neither finishes nor gives up the processor. -/
theorem exec_undisturbed {k k' : Kernel} {instr : Instr} (hfinish : instr ≠ .toBeDestroyed)
    (hyield : instr ≠ .yieldCPU) (hsleep : instr ≠ .sleep) (h : k.exec instr = .ok k') :
    Undisturbed k k' := by
  cases instr with
  | setLevel now =>
    cases h
    exact setLevel_undisturbed k now
  | saveLevel =>
    cases h
    exact .trans (m := k.setOldLevels _) ⟨rfl, rfl⟩ (setLevel_undisturbed _ .intOff)
  | restoreLevel =>
    rw [exec] at h
    split at h
    · cases h
    · rename_i old olds _
      cases h
      exact .trans (m := k.setOldLevels olds) ⟨rfl, rfl⟩ (setLevel_undisturbed _ old)
  | p s =>
    cases h
    exact takeOrSleep_undisturbed k s
  | pRetry s =>
    cases h
    exact .trans (m := k.resumed s) ⟨rfl, rfl⟩ (takeOrSleep_undisturbed _ s)
  | v s =>
    obtain ⟨k₁, hinc, h⟩ := bind_ok_iff.mp h
    cases h
    exact (increment_undisturbed hinc).trans (leave_undisturbed k₁ s)
  | signal c =>
    rw [exec] at h
    split at h <;> (cases h; exact ⟨rfl, rfl⟩)
  | yieldCPU => exact absurd rfl hyield
  | sleep => exact absurd rfl hsleep
  | toBeDestroyed => exact absurd rfl hfinish
  | oneTick => cases h
  | _ =>
    cases h
    exact ⟨rfl, rfl⟩

/-- What an instruction does to the finished threads. -/
theorem exec_disposes {k k' : Kernel} {instr : Instr} {rest : List Instr}
    (hcode : k.code k.currentThread = instr :: rest)
    (h : (k.withRest rest).exec instr = .ok k') : Disposes k .exec k' := by
  have hhead : (k.code k.currentThread).head? = some instr := by rw [hcode]; rfl
  by_cases hfinish : instr = .toBeDestroyed
  · subst hfinish
    cases h
    exact .finishes ⟨rfl, hhead⟩ rfl rfl
  have hfinishes : ¬ Finishes k .exec := by
    rintro ⟨-, hcode'⟩
    rw [hhead, Option.some.injEq] at hcode'
    exact hfinish hcode'
  -- the two instructions that may switch threads
  by_cases hyield : instr = .yieldCPU
  · subst hyield
    rw [exec] at h
    split at h
    · rename_i hready
      cases h
      exact disposes_of_undisturbed hfinishes (fun hdis => hdis.2.1 hready) ⟨rfl, rfl⟩
    · rename_i t ts hready
      cases h
      have hne : k.readyList ≠ [] := by
        rw [show k.readyList = t :: ts from hready]
        simp
      exact disposes_of_run ⟨rfl, hne, .inl hhead⟩ hready rfl ⟨rfl, rfl⟩
  by_cases hsleep : instr = .sleep
  · subst hsleep
    rw [exec] at h
    split at h
    · cases h
    · split at h
      · cases h
      · rename_i t ts hready
        cases h
        have hne : k.readyList ≠ [] := by
          rw [show k.readyList = t :: ts from hready]
          simp
        exact disposes_of_run ⟨rfl, hne, .inr hhead⟩ hready rfl ⟨rfl, rfl⟩
  refine disposes_of_undisturbed hfinishes ?_
    (.trans (m := k.withRest rest) ⟨rfl, rfl⟩ (exec_undisturbed hfinish hyield hsleep h))
  rintro ⟨-, -, hcode'⟩
  rw [hhead, Option.some.injEq, Option.some.injEq] at hcode'
  exact hcode'.elim hyield hsleep

/-- What any step does to the finished threads. -/
theorem step_disposes {k k' : Kernel} {e : Event} (h : k.step e = .ok k') : Disposes k e k' := by
  cases e with
  | call c =>
    refine disposes_of_undisturbed (by simp [Finishes]) (by simp [Dispatches]) ?_
    obtain ⟨-, k₁, rfl, hk₁⟩ := call_ok h
    rcases hk₁ with ⟨rfl, -⟩ | ⟨t, -, hnew⟩
    · exact ⟨rfl, rfl⟩
    · obtain ⟨-, rfl⟩ := newThread_ok hnew
      exact ⟨rfl, rfl⟩
  | exec =>
    obtain ⟨instr, rest, hcode, h⟩ := exec_ok h
    exact exec_disposes hcode h
  | tick handlers =>
    refine disposes_of_undisturbed (by simp [Finishes]) (by simp [Dispatches]) ?_
    obtain ⟨rest, -, h⟩ := tick_ok h
    obtain ⟨k₁, pushed, hhandle, -, rfl⟩ := tick_frame h
    have hsame : Undisturbed (k.withRest rest) k₁ := handle_undisturbed hhandle
    exact ⟨hsame.threadToBeDestroyed, hsame.deleted⟩
  | idle handlers =>
    refine disposes_of_undisturbed (by simp [Finishes]) (by simp [Dispatches]) ?_
    obtain ⟨k₁, hhandle, h⟩ := bind_ok_iff.mp (idle_ok h)
    rw [← pure_ok_iff.mp h]
    have hsame := handle_undisturbed hhandle
    exact ⟨hsame.threadToBeDestroyed, hsame.deleted⟩

/-! ## Finished threads do not come back -/

/-- The thread has given up the processor for good, or is about to. -/
structure Finished (t : ℕ) (k : Kernel) : Prop extends Gone t k where
  sleeping : k.currentThread = t → k.code t = [.sleep]

/-- A thread that has finished stays so: it is on no list and its code is not run. -/
theorem step_finished {t : ℕ} {k k' : Kernel} {e : Event} (hplaced : Placed k)
    (hfinished : Finished t k) (h : k.step e = .ok k') : Finished t k' := by
  refine ⟨step_gone hplaced hfinished.toGone h, fun ht => ?_⟩
  cases e with
  | call c =>
    have hcalled := call_called hplaced.current h
    have hcur : k.currentThread = t := hcalled.currentThread.symm.trans ht
    have hcode := hfinished.sleeping hcur
    rw [← hcur, hcalled.outside] at hcode
    cases hcode
  | exec =>
    obtain ⟨instr, rest, hcode, h⟩ := exec_ok h
    obtain ⟨-, pushed, -, hre⟩ := exec_withRest_rearranged h
    rcases hre.next with ⟨hcur, hsleep⟩ | hready
    · have hcur : k.currentThread = t := hcur.symm.trans ht
      have hcode' := hfinished.sleeping hcur
      rw [← hcur, hcode] at hcode'
      exact absurd (List.cons.inj hcode').1 hsleep
    · exact absurd ⟨.ready, ht ▸ hready⟩ hfinished.nowhere
  | tick handlers =>
    obtain ⟨rest, hcode, h⟩ := tick_ok h
    obtain ⟨k₁, pushed, hhandle, -, rfl⟩ := tick_frame h
    obtain ⟨-, -, hcur, -⟩ := handle_frame hhandle
    have hcur : k.currentThread = t := hcur.symm.trans ht
    have hcode' := hfinished.sleeping hcur
    rw [← hcur, hcode] at hcode'
    cases hcode'
  | idle handlers =>
    obtain ⟨k₁, hhandle, h⟩ := bind_ok_iff.mp (idle_ok h)
    obtain ⟨-, hcode, hcur, -⟩ := handle_frame hhandle
    rw [← pure_ok_iff.mp h] at ht ⊢
    show k₁.code t = _
    rw [hcode]
    exact hfinished.sleeping (hcur.symm.trans ht)

/-- Only `Finish` marks its thread for the destructor. -/
theorem Call.toBeDestroyed_mem_routine {c : Call} (h : .toBeDestroyed ∈ c.routine) :
    c = .finish := by
  cases c with
  | finish => rfl
  | _ =>
    simp [Call.routine, semaphoreP, semaphoreV, semaphoreDestroy, lockAcquire, lockRelease,
      conditionWait, conditionSignal, conditionBroadcast, threadYield, threadFork] at h

/-- The threads that are deleted or wait for it have finished and are different, and so has
every thread that is still in `Finish`, up to its `Sleep`. -/
structure Disposed (k : Kernel) : Prop where
  placed : Placed k
  nodup : k.carcasses.Nodup
  finished : ∀ t ∈ k.carcasses, Finished t k
  finishing : ∀ t, .toBeDestroyed ∈ k.code t → Gone t k

/-- Only `Finish` puts the assignment in the code of a thread. -/
theorem step_finishing {t : ℕ} {k k' : Kernel} {e : Event} (hplaced : Placed k)
    (h : k.step e = .ok k') (hmem : .toBeDestroyed ∈ k'.code t) :
    .toBeDestroyed ∈ k.code t ∨ (e = .call .finish ∧ t = k.currentThread) := by
  -- What the running thread has left of its code, after something without the assignment.
  have hrest : ∀ {instr : Instr} {pushed rest : List Instr},
      k.code k.currentThread = instr :: rest → .toBeDestroyed ∉ pushed →
      .toBeDestroyed ∈ Function.update k.code k.currentThread (pushed ++ rest) t →
      .toBeDestroyed ∈ k.code t := by
    intro instr pushed rest hcode hpushed hmem
    by_cases ht : t = k.currentThread
    · rw [ht, Function.update_self] at hmem
      rw [ht, hcode]
      exact List.mem_cons_of_mem _ ((List.mem_append.mp hmem).resolve_left hpushed)
    · rwa [Function.update_of_ne ht] at hmem
  cases e with
  | call c =>
    have hcalled := call_called hplaced.current h
    by_cases ht : t = k.currentThread
    · rw [ht, hcalled.code] at hmem
      exact .inr ⟨by rw [Call.toBeDestroyed_mem_routine hmem], ht⟩
    · rcases hcalled.others t ht with hcode | ⟨-, hcode⟩
      · exact .inl (hcode ▸ hmem)
      · rw [hcode] at hmem
        simp [threadRoot] at hmem
  | exec =>
    obtain ⟨instr, rest, hcode, h⟩ := exec_ok h
    obtain ⟨-, pushed, hcode', hre⟩ := exec_withRest_rearranged h
    rw [hcode'] at hmem
    exact .inl (hrest hcode (fun hp => by simpa using hre.mem_pushed hp) hmem)
  | tick handlers =>
    obtain ⟨rest, hcode, h⟩ := tick_ok h
    obtain ⟨k₁, pushed, hhandle, hpushed, rfl⟩ := tick_frame h
    refine .inl (hrest hcode ?_ hmem)
    rcases hpushed with rfl | rfl <;> simp [threadYield]
  | idle handlers =>
    obtain ⟨k₁, hhandle, h⟩ := bind_ok_iff.mp (idle_ok h)
    obtain ⟨-, hcode, -, -⟩ := handle_frame hhandle
    rw [← pure_ok_iff.mp h] at hmem
    have hmem : .toBeDestroyed ∈ k₁.code t := hmem
    rw [hcode] at hmem
    exact .inl hmem

/-- A thread that finishes is not deleted and does not wait for it. -/
theorem Disposed.current_not_mem {k : Kernel} {e : Event} (hdisposed : Disposed k)
    (h : Finishes k e) : k.currentThread ∉ k.carcasses := by
  intro hmem
  have hcode := (hdisposed.finished _ hmem).sleeping rfl
  have hhead := h.2
  rw [hcode] at hhead
  cases hhead

/-- A thread that finishes has nothing left to run. -/
theorem Disposed.finishes {k k' : Kernel} {e : Event} (hdisposed : Disposed k)
    (hfinishes : Finishes k e) (h : k.step e = .ok k') : Finished k.currentThread k' := by
  obtain ⟨rfl, hhead⟩ := hfinishes
  have hgone : Gone k.currentThread k :=
    hdisposed.finishing _ (List.mem_of_mem_head? (by rw [hhead]; rfl))
  refine ⟨step_gone hdisposed.placed hgone h, fun _ => ?_⟩
  obtain ⟨instr, rest, hcode, h⟩ := exec_ok h
  rw [hcode, List.head?_cons, Option.some.injEq] at hhead
  subst hhead
  have hrest : rest = [.sleep] := by
    have hfin := hgone.finishing rfl
    rw [hcode] at hfin
    simpa [Finishing, threadFinish] using hfin
  cases h
  show Function.update k.code k.currentThread rest k.currentThread = _
  rw [Function.update_self, hrest]

/-- Every step keeps what is known of the finished threads. -/
theorem step_disposed {k k' : Kernel} {e : Event} (hdisposed : Disposed k)
    (h : k.step e = .ok k') : Disposed k' := by
  have hplaced := hdisposed.placed
  have hold : ∀ t ∈ k.carcasses, Finished t k' := fun t ht =>
    step_finished hplaced (hdisposed.finished t ht) h
  have hfinishing : ∀ t, .toBeDestroyed ∈ k'.code t → Gone t k' := by
    intro t ht
    rcases step_finishing hplaced h ht with hmem | ⟨rfl, rfl⟩
    · exact step_gone hplaced (hdisposed.finishing t hmem) h
    · exact call_finish_gone hplaced h
  cases step_disposes h with
  | finishes hfinishes hpending hdeleted =>
    have heq : k'.carcasses = k.currentThread :: k.deleted := by
      rw [carcasses, hpending, hdeleted]
      rfl
    have hnew := hdisposed.current_not_mem hfinishes
    refine ⟨step_placed hplaced h, ?_, fun t ht => ?_, hfinishing⟩
    · rw [heq, List.nodup_cons]
      exact ⟨fun hmem => hnew (List.mem_append_right _ hmem),
        (List.nodup_append.mp hdisposed.nodup).2.1⟩
    · rw [heq] at ht
      rcases List.mem_cons.mp ht with rfl | ht
      · exact hdisposed.finishes hfinishes h
      · exact hold t (List.mem_append_right _ ht)
  | resumes _ hpending hdeleted =>
    have heq : k'.carcasses = k.carcasses := by
      rw [carcasses, hpending, hdeleted]
      rfl
    refine ⟨step_placed hplaced h, ?_, fun t ht => hold t (heq ▸ ht), hfinishing⟩
    rw [heq]
    exact hdisposed.nodup
  | other _ _ hsame =>
    have heq := hsame.carcasses_eq
    refine ⟨step_placed hplaced h, ?_, fun t ht => hold t (heq ▸ ht), hfinishing⟩
    rw [heq]
    exact hdisposed.nodup

theorem Booted.disposed {k : Kernel} (hboot : Booted k) : Disposed k := by
  have hempty : k.carcasses = [] := by
    rw [carcasses, hboot.threadToBeDestroyed, hboot.deleted]
    rfl
  refine ⟨hboot.placed, ?_, fun t ht => ?_, fun t ht => ?_⟩
  · rw [hempty]
    exact List.nodup_nil
  · rw [hempty] at ht
    cases ht
  · rw [hboot.code] at ht
    cases ht

/-! ## Every run -/

/-- `threadToBeDestroyed` holds a thread that has not been deleted. -/
def Pending (k : Kernel) : Prop := ∃ t, k.threadToBeDestroyed = some t ∧ t ∉ k.deleted

/-- Every thread that has finished in the run is deleted once or waits for it:
`threadToBeDestroyed` is not overwritten before. -/
structure Reclaims (k : Kernel) (es : List Event) (k' : Kernel) : Prop where
  kept : Along step (fun k e => Finishes k e → ¬ Pending k) k es
  once : k'.deleted.Nodup
  noneDropped : ∀ t ∈ trace step finished k es,
    t ∈ k'.deleted ∨ k'.threadToBeDestroyed = some t

/-- A step that overwrites no thread loses none. -/
theorem step_keeps {t : ℕ} {k k' : Kernel} {e : Event} (hkept : Finishes k e → ¬ Pending k)
    (h : k.step e = .ok k') (ht : t ∈ finished k e ∨ t ∈ k.carcasses) : t ∈ k'.carcasses := by
  cases step_disposes h with
  | finishes hfinishes hpending hdeleted =>
    rw [carcasses, hpending, hdeleted]
    rcases ht with ht | ht
    · rw [finished, if_pos hfinishes] at ht
      exact List.mem_append_left _ ht
    · rcases List.mem_append.mp ht with ht | ht
      · -- The thread that is overwritten has been deleted.
        have hslot : k.threadToBeDestroyed = some t := by simpa using ht
        exact List.mem_append_right _ (not_not.mp fun hnot => hkept hfinishes ⟨t, hslot, hnot⟩)
      · exact List.mem_append_right _ ht
  | resumes hresumes hpending hdeleted =>
    rw [carcasses, hpending, hdeleted]
    refine ht.elim (fun ht => ?_) id
    rw [finished, if_neg (not_finishes_of_dispatches hresumes.1)] at ht
    cases ht
  | other hfinishes _ hsame =>
    rw [hsame.carcasses_eq]
    refine ht.elim (fun ht => ?_) id
    rw [finished, if_neg hfinishes] at ht
    cases ht

/-- As long as nobody finishes while a finished thread is pending, all of them are kept track of. -/
theorem run_keeps {t : ℕ} {es : List Event} {k k' : Kernel}
    (hkept : Along step (fun k e => Finishes k e → ¬ Pending k) k es)
    (hrun : PartialRun.run step k es = .ok k')
    (ht : t ∈ trace step finished k es ∨ t ∈ k.carcasses) : t ∈ k'.carcasses := by
  induction es generalizing k with
  | nil =>
    rw [run_nil, Except.ok.injEq] at hrun
    rw [← hrun]
    exact ht.resolve_left List.not_mem_nil
  | cons e es ih =>
    obtain ⟨k₁, hst, hrun⟩ := run_cons_eq_ok.mp hrun
    refine ih (hkept.2 k₁ hst) hrun ?_
    simp only [trace, hst, List.mem_append] at ht
    rcases ht with (ht | ht) | ht
    · exact .inr (step_keeps hkept.1 hst (.inl ht))
    · exact .inl ht
    · exact .inr (step_keeps hkept.1 hst (.inr ht))

/-- The variable is full from a `Finish` to the next thread that is resumed. -/
theorem along_not_pending_iff {k k' : Kernel} {es : List Event} (hboot : Booted k)
    (hrun : PartialRun.run step k es = .ok k') :
    Along step (fun k e => Finishes k e → ¬ Pending k) k es ↔
      Separated step Finishes Resumes k es := by
  have hempty : ¬ Pending k := by
    rintro ⟨t, hslot, -⟩
    rw [hboot.threadToBeDestroyed] at hslot
    cases hslot
  have hiff := along_not_iff_separated (p := Finishes) (q := Resumes) (I := Disposed)
    Pending (fun _ _ _ => step_disposed) ?_ ?_ ?_ hboot.disposed hrun
  · rw [hiff]
    exact and_iff_right fun hpending => absurd hpending hempty
  · intro k e k' hdisposed hfinishes hst
    have hnew := hdisposed.current_not_mem hfinishes
    cases step_disposes hst with
    | finishes _ hslot hdeleted =>
      refine ⟨k.currentThread, hslot, fun hmem => hnew ?_⟩
      rw [hdeleted] at hmem
      exact List.mem_append_right _ hmem
    | resumes hresumes => exact absurd hfinishes (not_finishes_of_dispatches hresumes.1)
    | other hnot => exact absurd hfinishes hnot
  · rintro k e k' - hfinishes hresumes hst ⟨t, hslot, -⟩
    cases step_disposes hst with
    | finishes hfinishes' => exact hfinishes hfinishes'
    | resumes _ hnone =>
      rw [hnone] at hslot
      cases hslot
    | other _ hnot => exact hnot hresumes
  · intro k e k' _ hfinishes hresumes hst
    cases step_disposes hst with
    | finishes hfinishes' => exact absurd hfinishes' hfinishes
    | resumes hresumes' => exact absurd hresumes' hresumes
    | other _ _ hsame => rw [Pending, hsame.threadToBeDestroyed, hsame.deleted, Pending]

/-- A run reclaims the threads that finish in it exactly if between any two of them
`Scheduler::Run` has resumed a thread that had run before. -/
theorem run_reclaims_iff {k k' : Kernel} {es : List Event} (hboot : Booted k)
    (hrun : PartialRun.run step k es = .ok k') :
    Reclaims k es k' ↔ Separated step Finishes Resumes k es := by
  rw [← along_not_pending_iff hboot hrun]
  constructor
  · exact fun h => h.kept
  · intro hkept
    have hdisposed : Disposed k' := run_invariant (fun _ _ _ => step_disposed) hboot.disposed hrun
    refine ⟨hkept, (List.nodup_append.mp hdisposed.nodup).2.1, fun t ht => ?_⟩
    rcases List.mem_append.mp (run_keeps hkept hrun (.inl ht)) with hmem | hmem
    · exact .inr (by simpa using hmem)
    · exact .inl hmem

/-- Threads `1` and `2` are forked and finish one after the other. Thread `0` yields to each
of them separately. -/
def reclaimingRun : List Event := [
  .call (.fork 1), .exec, .exec, .exec, .tick [],
  .call .yield, .exec, .exec,
  .exec, .tick [], .call .finish, .exec, .exec, .exec,
  .exec, .tick [],
  .call (.fork 2), .exec, .exec, .exec, .tick [],
  .call .yield, .exec, .exec,
  .exec, .tick [], .call .finish, .exec, .exec, .exec]

theorem reclaimingRun_reclaims : ∃ k,
    PartialRun.run step (boot fun _ => 0) reclaimingRun = .ok k ∧ k.deleted = [2, 1] ∧
    Reclaims (boot fun _ => 0) reclaimingRun k := by
  obtain ⟨k, hrun, hdeleted⟩ : ∃ k,
      PartialRun.run step (boot fun _ => 0) reclaimingRun = .ok k ∧ k.deleted = [2, 1] := by
    decide +kernel
  have hseparated : Separated step Finishes Resumes (boot fun _ => 0) reclaimingRun := by
    decide +kernel
  exact ⟨k, hrun, hdeleted, (run_reclaims_iff (boot_booted fun _ => 0) hrun).mpr hseparated⟩

/-- The same threads, forked before thread `0` yields: thread `2` is started by the `Finish` of
thread `1`. -/
def droppingRun : List Event := [
  .call (.fork 1), .exec, .exec, .exec, .tick [],
  .call (.fork 2), .exec, .exec, .exec, .tick [],
  .call .yield, .exec, .exec,
  .exec, .tick [], .call .finish, .exec, .exec, .exec,
  .exec, .tick [], .call .finish, .exec, .exec, .exec]

/-- Thread `1` is overwritten and never deleted. -/
theorem run_not_reclaims : ¬ ∀ (k k' : Kernel) (es : List Event), Booted k →
    PartialRun.run step k es = .ok k' → Reclaims k es k' := by
  intro h
  obtain ⟨k, hrun, hdeleted, hslot, hfinished⟩ : ∃ k,
      PartialRun.run step (boot fun _ => 0) droppingRun = .ok k ∧ k.deleted = [2] ∧
      k.threadToBeDestroyed = none ∧ 1 ∈ trace step finished (boot fun _ => 0) droppingRun := by
    decide +kernel
  have hreclaims := h _ k droppingRun (boot_booted fun _ => 0) hrun
  rcases hreclaims.noneDropped 1 hfinished with hmem | hmem
  · rw [hdeleted] at hmem
    simp at hmem
  · rw [hslot] at hmem
    cases hmem

end Kernel
end NachOS
