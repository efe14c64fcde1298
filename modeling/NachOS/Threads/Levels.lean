import NachOS.Threads.Whereabouts
import NachOS.Threads.Conditions

/-!
# The interrupt level of each thread

The routines of the kernel switch interrupts off and put the level back that they have found, and
the processor changes hands with interrupts off only. So the level is as good as a variable of each
thread: outside of the routines it is what the thread has set last, whatever the others have done
since. The assertion in `Sleep` holds, and whatever touches the lists or the value of a semaphore
runs with interrupts off.
-/

namespace NachOS

/-- The instructions that rely on interrupts being off. -/
def Instr.interruptsOff : Instr → Bool
  | .setLevel _ | .saveLevel | .restoreLevel | .oneTick | .setOwner _ | .clearOwner _ => false
  | _ => true

/-- The level and the saved levels after an instruction, if it finds them as it expects. -/
def Instr.levels : Instr → IntStatus × List IntStatus → Option (IntStatus × List IntStatus)
  | .setLevel now, s => some (now, s.2)
  | .saveLevel, s => some (.intOff, s.1 :: s.2)
  | .restoreLevel, s =>
    match s.2 with
    | [] => none
    | old :: olds => some (old, olds)
  | .oneTick, s => some (.intOn, s.2)
  | instr, s => if instr.interruptsOff ∧ s.1 = .intOn then none else some s

/-- The level at the end of the code, where no level is saved any more. -/
def levelAfter : List Instr → IntStatus × List IntStatus → Option IntStatus
  | [], s => if s.2 = [] then some s.1 else none
  | instr :: code, s => (instr.levels s).bind (levelAfter code)

/-- The level after some code, instruction by instruction. -/
theorem levelAfter_cons_eq_some {instr : Instr} {code : List Instr}
    {s : IntStatus × List IntStatus} {level : IntStatus} :
    levelAfter (instr :: code) s = some level ↔
      ∃ s', instr.levels s = some s' ∧ levelAfter code s' = some level :=
  Option.bind_eq_some_iff

/-- What relies on interrupts being off finds them so, and leaves them so. -/
theorem Instr.levels_interruptsOff {instr : Instr} {s s' : IntStatus × List IntStatus}
    (hoff : instr.interruptsOff = true) (h : instr.levels s = some s') :
    s.1 = .intOff ∧ s' = s := by
  obtain ⟨level, olds⟩ := s
  cases instr with
  | setLevel now => cases hoff
  | saveLevel => cases hoff
  | restoreLevel => cases hoff
  | oneTick => cases hoff
  | setOwner l => cases hoff
  | clearOwner l => cases hoff
  | _ =>
    cases level with
    | intOff => exact ⟨rfl, (Option.some.inj h).symm⟩
    | intOn => cases h

/-- The level that a call is for. -/
def Kernel.Call.level? : Kernel.Call → Option IntStatus
  | .setLevel now => some now
  | .finish => some .intOff
  | .userInstruction => some .intOn
  | _ => none

/-- Every other routine puts back the level that it has found. -/
theorem Kernel.Call.levelAfter_routine {c : Kernel.Call} (hc : c ≠ .sleep) (level : IntStatus) :
    levelAfter c.routine (level, []) = some (c.level?.getD level) := by
  cases c with
  | sleep => exact absurd rfl hc
  | _ => rfl

namespace Kernel

open PartialRun Placement

/-- The level that the thread has outside of the routines, or will have once it is there. -/
def ownLevel (k : Kernel) (t : ℕ) : Option IntStatus :=
  if k.created t then
    levelAfter (k.code t) (if t = k.currentThread then k.level else .intOff, k.oldLevels t)
  else none

/-- The routines that the threads are in find the levels as they expect. -/
structure Disciplined (k : Kernel) : Prop where
  fresh : ∀ t, k.created t = false → k.oldLevels t = []
  levels : ∀ t, k.created t = true → ∃ level, k.ownLevel t = some level

/-- The level that is given to the thread in the step. -/
def given (t : ℕ) (k : Kernel) : Event → Option IntStatus
  | .call c =>
    if c = .fork t then some .intOn
    else if t = k.currentThread then c.level? else none
  | _ => none

section

variable {k k' : Kernel} {e : Event} {t : ℕ}

/-- The running thread's own level is the one it will have when its code has been run. -/
theorem ownLevel_current (hplaced : Placed k) :
    k.ownLevel k.currentThread =
      levelAfter (k.code k.currentThread) (k.level, k.oldLevels k.currentThread) := by
  rw [ownLevel, if_pos hplaced.current, if_pos rfl]

/-- A thread that waits was switched out with interrupts off. -/
theorem ownLevel_of_ne (hcreated : k.created t = true) (hne : t ≠ k.currentThread) :
    k.ownLevel t = levelAfter (k.code t) (.intOff, k.oldLevels t) := by
  rw [ownLevel, if_pos hcreated, if_neg hne]

/-- A thread outside of the routines runs at its own level, and has saved no other. -/
theorem Disciplined.outside (hd : Disciplined k) (hplaced : Placed k)
    (hcode : k.code k.currentThread = []) :
    k.ownLevel k.currentThread = some k.level ∧ k.oldLevels k.currentThread = [] := by
  obtain ⟨level, hown⟩ := hd.levels _ hplaced.current
  have hlevel := hown
  rw [ownLevel_current hplaced, hcode, levelAfter] at hlevel
  split_ifs at hlevel with holds
  rw [hown, ← hlevel]
  exact ⟨rfl, holds⟩

/-- What the next instruction of the running thread finds. -/
theorem Disciplined.next (hd : Disciplined k) (hplaced : Placed k) {instr : Instr}
    {rest : List Instr} (hcode : k.code k.currentThread = instr :: rest) :
    ∃ s, instr.levels (k.level, k.oldLevels k.currentThread) = some s ∧
      k.ownLevel k.currentThread = levelAfter rest s := by
  obtain ⟨level, hown⟩ := hd.levels _ hplaced.current
  have hlevel := hown
  rw [ownLevel_current hplaced, hcode, levelAfter_cons_eq_some] at hlevel
  obtain ⟨s, hs, hrest⟩ := hlevel
  exact ⟨s, hs, hown.trans hrest.symm⟩

/-! ## Instructions -/

@[simp] theorem takeOrSleep_level (k : Kernel) (s : SemId) :
    (k.takeOrSleep s).level = k.level ∧ (k.takeOrSleep s).oldLevels = k.oldLevels := by
  unfold takeOrSleep
  dsimp only
  split
  · exact ⟨rfl, rfl⟩
  · cases s <;> exact ⟨rfl, rfl⟩

@[simp] theorem run_level (k : Kernel) (u : ℕ) :
    (k.run u).level = k.level ∧ (k.run u).oldLevels = k.oldLevels := by
  unfold run
  split <;> exact ⟨rfl, rfl⟩

/-- Only the instructions that are there for it change the level, or save one. -/
theorem exec_level {instr : Instr} (hoff : instr.interruptsOff = true)
    (h : k.exec instr = .ok k') : k'.level = k.level ∧ k'.oldLevels = k.oldLevels := by
  cases instr with
  | setLevel now => cases hoff
  | saveLevel => cases hoff
  | restoreLevel => cases hoff
  | oneTick => cases hoff
  | p s =>
    cases h
    exact takeOrSleep_level k s
  | pRetry s =>
    cases h
    exact takeOrSleep_level (k.resumed s) s
  | v s =>
    obtain ⟨k₁, hinc, h⟩ := bind_ok_iff.mp h
    rw [← pure_ok_iff.mp h, leave_level, leave_oldLevels]
    exact increment_level hinc
  | signal c =>
    rw [exec] at h
    split at h <;>
    · cases h
      exact ⟨rfl, rfl⟩
  | yieldCPU =>
    rw [exec] at h
    split at h
    · cases h
      exact ⟨rfl, rfl⟩
    · cases h
      exact run_level _ _
  | sleep =>
    rw [exec] at h
    split at h
    · cases h
    · split at h
      · cases h
      · cases h
        exact run_level _ _
  | _ =>
    cases h
    exact ⟨rfl, rfl⟩

/-- `SetLevel`, with the `OneTick` that it may call. -/
theorem levelAfter_setLevel (k : Kernel) (now : IntStatus) :
    levelAfter ((k.setLevel now).code k.currentThread)
        ((k.setLevel now).level, (k.setLevel now).oldLevels k.currentThread) =
      levelAfter (k.code k.currentThread) (now, k.oldLevels k.currentThread) := by
  rw [setLevel_level, setLevel_oldLevels]
  unfold setLevel
  dsimp only
  split
  · rename_i hticks
    show levelAfter (Function.update k.code k.currentThread _ k.currentThread) _ = _
    rw [Function.update_self, hticks.1]
    rfl
  · rfl

/-- The processor changes hands with interrupts off. -/
theorem Rearranged.interruptsOff {place place₁ : Place → List ℕ} {current current₁ : ℕ}
    {instr : Instr} {pushed : List Instr}
    (h : Rearranged place current instr pushed place₁ current₁) (hne : current₁ ≠ current) :
    instr.interruptsOff = true := by
  cases h with
  | yielded _ => rfl
  | slept _ => rfl
  | _ => exact absurd rfl hne

/-- What an instruction puts before the rest of the code, if it relies on interrupts being off. -/
theorem Rearranged.levelAfter {place place₁ : Place → List ℕ} {current current₁ : ℕ}
    {instr : Instr} {pushed : List Instr}
    (h : Rearranged place current instr pushed place₁ current₁)
    (hoff : instr.interruptsOff = true) (rest : List Instr) (olds : List IntStatus) :
    levelAfter (pushed ++ rest) (.intOff, olds) = levelAfter rest (.intOff, olds) := by
  cases h with
  | same _ hpushed =>
    rcases hpushed with rfl | ⟨-, rfl | rfl⟩
    · rfl
    · cases hoff
    · cases hoff
  | _ => rfl

/-- An instruction leaves the level that the running thread will have as it is. -/
theorem exec_ownLevel_current {instr : Instr} {rest : List Instr} (hplaced : Placed k)
    (hd : Disciplined k) (hcode : k.code k.currentThread = instr :: rest)
    (h : (k.withRest rest).exec instr = .ok k') :
    levelAfter (k'.code k.currentThread)
        (if k.currentThread = k'.currentThread then k'.level else .intOff,
          k'.oldLevels k.currentThread) = k.ownLevel k.currentThread ∧
      (k'.currentThread ≠ k.currentThread → k'.level = .intOff) ∧
      ∀ u, u ≠ k.currentThread → k'.oldLevels u = k.oldLevels u := by
  obtain ⟨s, hs, hown⟩ := hd.next hplaced hcode
  obtain ⟨-, pushed, hcode', hre⟩ := exec_withRest_rearranged h
  have hrest : (k.withRest rest).code k.currentThread = rest := withRest_code_self k rest
  rw [hown]
  -- an instruction that may switch threads is executed with interrupts off and leaves them off
  by_cases hoff : instr.interruptsOff = true
  · obtain ⟨hlevel, holds⟩ := exec_level hoff h
    obtain ⟨hlevel₀, rfl⟩ := Instr.levels_interruptsOff hoff hs
    have hlevel₀ : k.level = .intOff := hlevel₀
    have hlevel' : k'.level = .intOff := hlevel.trans hlevel₀
    have holds' : k'.oldLevels = k.oldLevels := holds
    refine ⟨?_, fun _ => hlevel', fun u _ => congrFun holds' u⟩
    rw [hlevel', ite_self, holds', hlevel₀, hcode', Function.update_self]
    exact hre.levelAfter hoff rest _
  · -- the others keep the thread running, and only three of them write its levels
    have hcur : k'.currentThread = k.currentThread := by
      by_contra hne
      exact hoff (hre.interruptsOff hne)
    rw [if_pos hcur.symm]
    refine ⟨?_, fun hne => absurd hcur hne, fun u hu => ?_⟩
    · cases instr with
      | setLevel now =>
        cases h
        cases hs
        refine (levelAfter_setLevel (k.withRest rest) now).trans ?_
        show levelAfter ((k.withRest rest).code k.currentThread)
          (now, k.oldLevels k.currentThread) = _
        rw [hrest]
      | saveLevel =>
        cases h
        cases hs
        have hset := levelAfter_setLevel
          ((k.withRest rest).setOldLevels (k.level :: k.oldLevels k.currentThread)) .intOff
        refine hset.trans ?_
        show levelAfter ((k.withRest rest).code k.currentThread)
          (.intOff, Function.update k.oldLevels k.currentThread _ k.currentThread) = _
        rw [hrest, Function.update_self]
      | restoreLevel =>
        rw [exec] at h
        split at h
        · cases h
        · rename_i old olds holds
          have holds : k.oldLevels k.currentThread = old :: olds := holds
          rw [Instr.levels, holds] at hs
          cases hs
          cases h
          have hset := levelAfter_setLevel ((k.withRest rest).setOldLevels olds) old
          refine hset.trans ?_
          show levelAfter ((k.withRest rest).code k.currentThread)
            (old, Function.update k.oldLevels k.currentThread _ k.currentThread) = _
          rw [hrest, Function.update_self]
      | oneTick => cases h
      | setOwner l =>
        cases h
        cases hs
        exact congrArg (fun code => NachOS.levelAfter code _) hrest
      | clearOwner l =>
        cases h
        cases hs
        exact congrArg (fun code => NachOS.levelAfter code _) hrest
      | _ => exact absurd rfl hoff
    · cases instr with
      | setLevel now =>
        cases h
        rw [setLevel_oldLevels]
        rfl
      | saveLevel =>
        cases h
        rw [setLevel_oldLevels]
        exact Function.update_of_ne hu _ _
      | restoreLevel =>
        rw [exec] at h
        split at h
        · cases h
        · cases h
          rw [setLevel_oldLevels]
          exact Function.update_of_ne hu _ _
      | oneTick => cases h
      | setOwner l =>
        cases h
        rfl
      | clearOwner l =>
        cases h
        rfl
      | _ => exact absurd rfl hoff

/-! ## Steps -/

/-- The levels of the threads change only where one is given. -/
def Keeps (k : Kernel) (e : Event) (k' : Kernel) : Prop :=
  ∀ t, k'.ownLevel t = (given t k e).or (k.ownLevel t)

theorem Keeps.of_same (he : ∀ t, given t k e = none) (h : ∀ t, k'.ownLevel t = k.ownLevel t) :
    Keeps k e k' := by
  intro t
  rw [he t, h t]
  rfl

/-- A thread that does not run keeps its level, unless it is made by the call. -/
theorem Called.ownLevel_of_ne {c : Call} (hcalled : Called k c k')
    (hcreated : k'.created t = k.created t) (hne : t ≠ k.currentThread) :
    k'.ownLevel t = k.ownLevel t := by
  have holds : k'.oldLevels = k.oldLevels := by rw [hcalled.frame]
  have hne' : t ≠ k'.currentThread := by
    rw [hcalled.currentThread]
    exact hne
  by_cases ht : k.created t = true
  · rw [Kernel.ownLevel_of_ne ht hne, Kernel.ownLevel_of_ne (hcreated.trans ht) hne',
      hcalled.code_eq hne ht, holds]
  · rw [ownLevel, ownLevel, hcreated, if_neg ht, if_neg ht]

/-- A call gives the level it says to its thread, and the others keep theirs. -/
theorem call_keeps {c : Call} (hplaced : Placed k) (hd : Disciplined k) (hc : c ≠ .sleep)
    (h : k.step (.call c) = .ok k') : Keeps k (.call c) k' := by
  have hcalled := call_called hplaced.current h
  have hcur := hcalled.currentThread
  have holds : k'.oldLevels = k.oldLevels := by rw [hcalled.frame]
  have hlevel : k'.level = k.level := by rw [hcalled.frame]
  intro t
  by_cases hfork : c = .fork t
  · -- the new thread starts with interrupts on
    subst hfork
    obtain ⟨hnew, hcreated⟩ := hcalled.forked t rfl
    have hne : t ≠ k.currentThread := by
      rintro rfl
      rw [hplaced.current] at hnew
      cases hnew
    have hne' : t ≠ k'.currentThread := by
      rw [hcur]
      exact hne
    have hcode : k'.code t = threadRoot := by
      obtain ⟨-, k₁, rfl, ⟨-, hno⟩ | ⟨u, hu, hmade⟩⟩ := call_ok h
      · exact absurd rfl (hno t)
      · obtain rfl := Call.fork.inj hu
        obtain ⟨-, rfl⟩ := newThread_ok hmade
        show Function.update (Function.update k.code t threadRoot) k.currentThread _ t = _
        rw [Function.update_of_ne hne, Function.update_self]
    rw [given, if_pos rfl, Kernel.ownLevel_of_ne hcreated hne', hcode, holds, hd.fresh t hnew]
    rfl
  · rw [given, if_neg hfork]
    by_cases ht : t = k.currentThread
    · subst ht
      obtain ⟨hown, hnone⟩ := hd.outside hplaced hcalled.outside
      rw [if_pos rfl, hown, ownLevel, if_pos (hcalled.created _ hplaced.current),
        if_pos hcur.symm, hcalled.code, holds, hnone, hlevel, Call.levelAfter_routine hc]
      cases c.level? <;> rfl
    · rw [if_neg ht]
      refine hcalled.ownLevel_of_ne ?_ ht
      -- the only thread that a call creates is the one that `Fork` makes
      by_contra hchanged
      cases hbefore : k.created t with
      | true => exact hchanged ((hcalled.created t hbefore).trans hbefore.symm)
      | false =>
        rcases call_created h (by simpa [hbefore] using hchanged) with hold | hfork'
        · rw [hbefore] at hold
          cases hold
        · exact hfork hfork'

/-- An instruction changes nobody's own level. -/
theorem exec_keeps (hplaced : Placed k) (hd : Disciplined k) (h : k.step .exec = .ok k') :
    Keeps k .exec k' := by
  obtain ⟨instr, rest, hcode, h⟩ := exec_ok h
  obtain ⟨hcreated, pushed, hcode', hre⟩ := exec_withRest_rearranged h
  obtain ⟨hcurrent, hswitch, hothers⟩ := exec_ownLevel_current hplaced hd hcode h
  refine .of_same (fun _ => rfl) fun t => ?_
  by_cases ht : k.created t = true
  · by_cases hne : t = k.currentThread
    · rw [hne, ← hcurrent, ownLevel, if_pos (by rw [hcreated]; exact hplaced.current)]
    · -- if it gets the processor, the level is the one it has been switched out with
      have hlevel : (if t = k'.currentThread then k'.level else .intOff) = IntStatus.intOff := by
        split_ifs with hcur
        · exact hswitch fun heq => hne (hcur.trans heq)
        · rfl
      rw [ownLevel, if_pos (by rw [hcreated]; exact ht), hlevel, hothers t hne, hcode',
        Function.update_of_ne hne, ownLevel_of_ne ht hne]
  · rw [ownLevel, ownLevel, hcreated, if_neg ht, if_neg ht]

/-- The handlers run with interrupts off and leave the level as it is. -/
theorem handle_level {handlers : List Handler} (h : k.handle handlers = .ok k') :
    k'.level = k.level ∧ k'.oldLevels = k.oldLevels := by
  induction handlers generalizing k with
  | nil =>
    cases h
    exact ⟨rfl, rfl⟩
  | cons handler handlers ih =>
    cases handler with
    | v n =>
      obtain ⟨k₁, hinc, h⟩ := bind_ok_iff.mp h
      obtain ⟨hlevel, holds⟩ := increment_level hinc
      obtain ⟨hlevel', holds'⟩ := ih h
      exact ⟨hlevel'.trans hlevel, holds'.trans holds⟩
    | timer => exact ih (k := { k with yieldOnReturn := true }) h

/-- A tick changes nobody's own level. -/
theorem tick_keeps {handlers : List Handler} (hplaced : Placed k) (hd : Disciplined k)
    (h : k.step (.tick handlers) = .ok k') : Keeps k (.tick handlers) k' := by
  obtain ⟨rest, hcode, h⟩ := tick_ok h
  obtain ⟨k₁, pushed, hhandle, hpushed, rfl⟩ := tick_frame h
  obtain ⟨-, -, hcur, -⟩ := handle_frame hhandle
  have hcur : k₁.currentThread = k.currentThread := hcur
  have hcreated : k₁.created = k.created :=
    (handle_placed (k := k.withRest rest) hplaced.apart hhandle).2.1
  have holds : k₁.oldLevels = k.oldLevels := (handle_level hhandle).2
  obtain ⟨s, hs, hown⟩ := hd.next hplaced hcode
  cases hs
  refine .of_same (fun _ => rfl) fun t => ?_
  show (if k₁.created t then levelAfter (Function.update k.code k.currentThread (pushed ++ rest) t)
    (if t = k₁.currentThread then .intOn else .intOff, k₁.oldLevels t) else none) = _
  rw [hcreated, hcur, holds]
  by_cases ht : t = k.currentThread
  · -- `OneTick` ends with interrupts on, and so does the `Yield` of the timer
    rw [ht, hown, if_pos hplaced.current, if_pos rfl, Function.update_self]
    rcases hpushed with rfl | rfl <;> rfl
  · rw [if_neg ht, Function.update_of_ne ht, ownLevel, if_neg ht]

/-- Waiting for an interrupt changes nobody's own level. -/
theorem idle_keeps {handlers : List Handler} (hplaced : Placed k)
    (h : k.step (.idle handlers) = .ok k') : Keeps k (.idle handlers) k' := by
  obtain ⟨k₁, hhandle, h⟩ := bind_ok_iff.mp (idle_ok h)
  obtain ⟨-, hcode, hcur, -⟩ := handle_frame hhandle
  have hcreated := (handle_placed hplaced.apart hhandle).2.1
  obtain ⟨hlevel, holds⟩ := handle_level hhandle
  rw [← pure_ok_iff.mp h]
  refine .of_same (fun _ => rfl) fun t => ?_
  show (if k₁.created t then levelAfter (k₁.code t)
    (if t = k₁.currentThread then k₁.level else .intOff, k₁.oldLevels t) else none) = _
  rw [hcreated, hcur, hcode, hlevel, holds]
  rfl

/-- A step gives the levels that its call says, and every other thread keeps its own. -/
theorem step_levels (hplaced : Placed k) (hd : Disciplined k) (hawake : KeepsAwake k e)
    (h : k.step e = .ok k') : Keeps k e k' := by
  cases e with
  | call c => exact call_keeps hplaced hd (fun hc => hawake (by rw [hc])) h
  | exec => exact exec_keeps hplaced hd h
  | tick handlers => exact tick_keeps hplaced hd h
  | idle handlers => exact idle_keeps hplaced h

/-- A thread that has not been made has saved no level. -/
theorem step_fresh (hplaced : Placed k) (hd : Disciplined k) (h : k.step e = .ok k')
    (ht : k'.created t = false) : k'.oldLevels t = [] := by
  have hbefore : k.created t = false := by
    by_contra hcreated
    rw [step_created hplaced (by simpa using hcreated) h] at ht
    cases ht
  have hne : t ≠ k.currentThread := by
    rintro rfl
    rw [hplaced.current] at hbefore
    cases hbefore
  suffices hsame : k'.oldLevels t = k.oldLevels t from hsame.trans (hd.fresh t hbefore)
  cases e with
  | call c => rw [(call_called hplaced.current h).frame]
  | exec =>
    obtain ⟨instr, rest, hcode, h⟩ := exec_ok h
    exact (exec_ownLevel_current hplaced hd hcode h).2.2 t hne
  | tick handlers =>
    obtain ⟨rest, hcode, h⟩ := tick_ok h
    obtain ⟨k₁, pushed, hhandle, -, rfl⟩ := tick_frame h
    exact congrFun (handle_level hhandle).2 t
  | idle handlers =>
    obtain ⟨k₁, hhandle, h⟩ := bind_ok_iff.mp (idle_ok h)
    rw [← pure_ok_iff.mp h]
    exact congrFun (handle_level hhandle).2 t

/-- Every step keeps the discipline of the levels. -/
theorem step_disciplined (hplaced : Placed k) (hd : Disciplined k) (hawake : KeepsAwake k e)
    (h : k.step e = .ok k') : Disciplined k' := by
  refine ⟨fun t => step_fresh hplaced hd h, fun t ht => ?_⟩
  rw [step_levels hplaced hd hawake h t]
  rcases created_of_step hplaced h ht with hold | rfl
  · obtain ⟨level, hlevel⟩ := hd.levels t hold
    rw [hlevel]
    exact ⟨(given t k e).getD level, by cases given t k e <;> rfl⟩
  · rw [given, if_pos rfl]
    exact ⟨.intOn, rfl⟩

theorem Booted.disciplined (hboot : Booted k) : Disciplined k := by
  refine ⟨fun t _ => hboot.oldLevels t, fun t ht => ?_⟩
  have hcur : t = k.currentThread := by
    by_contra hne
    rw [hboot.created, Function.update_of_ne hne] at ht
    cases ht
  rw [hcur, ownLevel_current hboot.placed, hboot.code, hboot.oldLevels]
  exact ⟨k.level, rfl⟩

/-! ## Every run -/

/-- The levels that the thread is given in a run, in order. -/
def givenLevels (t : ℕ) (k : Kernel) (es : List Event) : List IntStatus :=
  trace step (fun k e => (given t k e).toList) k es

/-- Every run keeps it, and each thread has the level it was given last. -/
theorem run_disciplined {es : List Event} : ∀ {k : Kernel}, Placed k → Disciplined k →
    Along step KeepsAwake k es → PartialRun.run step k es = .ok k' →
    Placed k' ∧ Disciplined k' ∧
      ∀ t, k'.ownLevel t = (givenLevels t k es).getLast?.or (k.ownLevel t) := by
  induction es with
  | nil =>
    intro k hplaced hd hawake hrun
    cases hrun
    exact ⟨hplaced, hd, fun t => rfl⟩
  | cons e es ih =>
    intro k hplaced hd hawake hrun
    obtain ⟨k₁, hst, hrun⟩ := run_cons_eq_ok.mp hrun
    obtain ⟨hplaced', hd', hlevels⟩ := ih (step_placed hplaced hst)
      (step_disciplined hplaced hd hawake.1 hst) (hawake.2 k₁ hst) hrun
    refine ⟨hplaced', hd', fun t => ?_⟩
    have htrace : givenLevels t k (e :: es) = (given t k e).toList ++ givenLevels t k₁ es := by
      rw [givenLevels, trace, hst]
      rfl
    rw [hlevels t, step_levels hplaced hd hawake.1 hst t, htrace, List.getLast?_append]
    cases (givenLevels t k₁ es).getLast? with
    | some level => rfl
    | none => cases given t k e <;> rfl

/-! ## Nothing fails, and somebody can go on -/

/-- `V` fails no assertion. -/
theorem increment_asserts (k : Kernel) (s : SemId) : Avoids .assertion (k.increment s) := by
  unfold increment
  dsimp only
  split
  · exact .error (by simp)
  · split <;> exact .ok _ _

theorem handle_asserts (handlers : List Handler) :
    ∀ k : Kernel, Avoids .assertion (k.handle handlers) := by
  induction handlers with
  | nil => exact fun k => .ok _ _
  | cons handler handlers ih =>
    intro k
    cases handler with
    | v n => exact (increment_asserts k _).bind fun k₁ _ => ih k₁
    | timer => exact ih { k with yieldOnReturn := true }

/-- The only assertion is that of `Sleep`. -/
theorem exec_asserts {instr : Instr} (hsleep : instr = .sleep → k.level = .intOff) :
    Avoids .assertion (k.exec instr) := by
  cases instr with
  | sleep =>
    rw [exec, if_neg (by simp [hsleep rfl])]
    split
    · exact .error (by simp)
    · exact .ok _ _
  | restoreLevel =>
    rw [exec]
    split
    · exact .error (by simp)
    · exact .ok _ _
  | oneTick => exact .error (by simp)
  | v s => exact (increment_asserts k s).bind fun _ _ => .pure _ _
  | signal c =>
    rw [exec]
    split <;> exact .ok _ _
  | yieldCPU =>
    rw [exec]
    split <;> exact .ok _ _
  | _ => exact .ok _ _

/-- `Sleep` finds interrupts off. -/
theorem Disciplined.sleep_level (hd : Disciplined k) (hplaced : Placed k) {rest : List Instr}
    (hcode : k.code k.currentThread = .sleep :: rest) : k.level = .intOff := by
  obtain ⟨s, hs, -⟩ := hd.next hplaced hcode
  exact (Instr.levels_interruptsOff rfl hs).1

/-- No assertion fails: `Sleep` finds interrupts off. -/
theorem Disciplined.asserts (hd : Disciplined k) (hplaced : Placed k) (e : Event) :
    Avoids .assertion (k.step e) := by
  cases e with
  | call c =>
    rw [step]
    split
    · refine .bind ?_ fun k' _ => .pure _ _
      cases c with
      | fork t =>
        rw [prepare, newThread]
        split
        · exact .error (by simp)
        · exact .ok _ _
      | _ => exact .ok _ _
    · exact .error (by simp)
  | exec =>
    rw [step]
    split
    · exact .error (by simp)
    · rename_i instr rest hcode
      refine exec_asserts fun hsleep => ?_
      subst hsleep
      exact hd.sleep_level hplaced hcode
  | tick handlers =>
    rw [step]
    split
    · exact (handle_asserts handlers _).bind fun _ _ => .pure _ _
    · exact .error (by simp)
  | idle handlers =>
    rw [step]
    split
    · exact (handle_asserts handlers _).bind fun _ _ => .pure _ _
    · exact .error (by simp)

/-- The running thread, in a routine, can go on, or the kernel waits for an interrupt, or the value
of a semaphore is the largest `int`. -/
def GoesOn (k : Kernel) : Prop :=
  (∃ k', k.step .exec = .ok k') ∨ (∃ k', k.step (.tick []) = .ok k') ∨ IsIdle k ∨
    ∃ s, (k.code k.currentThread).head? = some (.v s) ∧ (k.semaphore s).value = intMax

/-- A thread with code left goes on, unless it waits for the devices or its `V` overflows. -/
theorem Disciplined.goesOn (hd : Disciplined k) (hplaced : Placed k) {instr : Instr}
    {rest : List Instr} (hcode : k.code k.currentThread = instr :: rest) : GoesOn k := by
  have hexec : k.step .exec = (k.withRest rest).exec instr := by
    rw [step, hcode]
  have hok : (∃ k', (k.withRest rest).exec instr = .ok k') → GoesOn k := by
    rw [← hexec]
    exact .inl
  cases instr with
  | oneTick =>
    refine .inr (.inl ?_)
    rw [step, hcode]
    exact ⟨_, rfl⟩
  | restoreLevel =>
    -- the level to restore was saved: the discipline of the code says so
    obtain ⟨s, hs, -⟩ := hd.next hplaced hcode
    cases holds : k.oldLevels k.currentThread with
    | nil =>
      rw [holds] at hs
      cases hs
    | cons old olds =>
      refine hok ?_
      have holds : (k.withRest rest).oldLevels (k.withRest rest).currentThread = old :: olds :=
        holds
      rw [exec, holds]
      exact ⟨_, rfl⟩
  | v s =>
    by_cases hmax : (k.semaphore s).value = intMax
    · refine .inr (.inr (.inr ⟨s, ?_, hmax⟩))
      rw [hcode]
      rfl
    · refine hok ?_
      have hinc : ∃ k₁, (k.withRest rest).increment s = .ok k₁ := by
        unfold increment
        dsimp only
        have hmax : ¬ ((k.withRest rest).semaphore s).value = intMax := hmax
        rw [if_neg hmax]
        split <;> exact ⟨_, rfl⟩
      obtain ⟨k₁, hinc⟩ := hinc
      exact ⟨k₁.leave s, bind_ok_iff.mpr ⟨k₁, hinc, rfl⟩⟩
  | signal c =>
    refine hok ?_
    rw [exec]
    split <;> exact ⟨_, rfl⟩
  | yieldCPU =>
    refine hok ?_
    rw [exec]
    split <;> exact ⟨_, rfl⟩
  | sleep =>
    -- with nobody ready `Sleep` waits for an interrupt
    cases hready : k.readyList with
    | nil =>
      refine .inr (.inr (.inl ⟨?_, hready⟩))
      rw [hcode]
      rfl
    | cons u us =>
      refine hok ?_
      have hlevel : (k.withRest rest).level = .intOff := hd.sleep_level hplaced hcode
      have hready : (k.withRest rest).readyList = u :: us := hready
      rw [exec, hlevel, if_neg (by simp), hready]
      exact ⟨_, rfl⟩
  -- the others have no way to fail
  | _ => exact hok ⟨_, rfl⟩

/-- In every run in which nobody calls `Sleep` outside the routines of the kernel: a thread that is
in no routine runs at the level that it was given last, by its own calls or when it was made; what
relies on interrupts being off finds them off; a thread in a routine can go on, unless the kernel
is idle or a value would overflow; and no assertion fails, whatever happens next. -/
theorem run_levels {es : List Event} (hboot : Booted k) (hawake : Along step KeepsAwake k es)
    (hrun : PartialRun.run step k es = .ok k') :
    (k'.code k'.currentThread = [] → some k'.level =
      (givenLevels k'.currentThread k es).getLast?.or
        (if k'.currentThread = k.currentThread then some k.level else none)) ∧
    (∀ instr rest, k'.code k'.currentThread = instr :: rest →
      (instr.interruptsOff = true → k'.level = .intOff) ∧ GoesOn k') ∧
    ∀ e, k'.step e ≠ .error .assertion := by
  obtain ⟨hplaced, hd, hlevels⟩ := run_disciplined hboot.placed hboot.disciplined hawake hrun
  refine ⟨fun hcode => ?_, fun instr rest hcode => ⟨fun hoff => ?_, hd.goesOn hplaced hcode⟩,
    hd.asserts hplaced⟩
  · rw [← (hd.outside hplaced hcode).1, hlevels k'.currentThread]
    congr 1
    -- the running thread is the one from the start, or it was made by `Fork`
    split_ifs with hcur
    · rw [hcur]
      exact (hboot.disciplined.outside hboot.placed (hboot.code _)).1
    · rw [ownLevel, hboot.created, Function.update_of_ne hcur]
      rfl
  · obtain ⟨s, hs, -⟩ := hd.next hplaced hcode
    exact (Instr.levels_interruptsOff hoff hs).1

/-- Thread `0` forks thread `1`, switches interrupts off and yields; thread `1` runs with interrupts
on and yields. -/
def switchingRun : List Event := [
  .call (.fork 1), .exec, .exec, .exec, .tick [],
  .call (.setLevel .intOff), .exec, .call .yield, .exec, .exec,
  .exec, .tick [], .call .yield, .exec, .exec, .exec]

/-- Thread `0` is back, with interrupts off. -/
theorem switchingRun_levels : ∃ k, PartialRun.run step (boot fun _ => 0) switchingRun = .ok k ∧
    k.currentThread = 0 ∧ k.level = .intOff ∧ ∀ e, k.step e ≠ .error .assertion := by
  obtain ⟨k, hrun, hcur, hcode⟩ : ∃ k,
      PartialRun.run step (boot fun _ => 0) switchingRun = .ok k ∧ k.currentThread = 0 ∧
      k.code k.currentThread = [] := by decide +kernel
  have hawake : Along step KeepsAwake (boot fun _ => 0) switchingRun := by decide +kernel
  obtain ⟨hlevel, -, hasserts⟩ := run_levels (boot_booted fun _ => 0) hawake hrun
  have hgiven : (givenLevels 0 (boot fun _ => 0) switchingRun).getLast? = some .intOff := by
    decide +kernel
  refine ⟨k, hrun, hcur, ?_, hasserts⟩
  have hown := hlevel hcode
  rw [hcur, hgiven] at hown
  exact Option.some.inj hown

end

end Kernel
end NachOS
