import NachOS.NoVM.FrameSharing

/-!
# Address spaces and the threads that use them

The system calls `Exec`, `Fork` and `Exit` (`exception.cc`) with `Thread::Finish` and
`Scheduler::Run`. A thread that finishes is deleted by the thread that runs next, but `~Thread`
does not delete the address space, so its frames stay marked in `MiMapa` for ever.
-/

namespace NachOS
namespace NoVM

open PartialRun BitMap

/-! ## Frames of one address space only -/

namespace State

variable {s s' : State}

/-- The frame of the last page of a live address space is its own. -/
def Private (s : State) : Prop :=
  ∀ b ∈ s.live, ∀ front f, (s.spaces b).frames = front ++ [f] →
    f ∉ front ∧ ∀ c ∈ s.live, c ≠ b → f ∉ (s.spaces c).frames

/-- A frame that was free is of no live address space. -/
theorem Safe.notMem_frames {b i : ℕ} (hsafe : s.Safe) (hb : b ∈ s.live)
    (hclear : s.miMapa.marked i = false) : (i : ℤ) ∉ (s.spaces b).frames := by
  intro hmem
  have hmarked : s.miMapa.marked i = true := hsafe b hb i hmem
  rw [hclear] at hmarked
  cases hmarked

/-- Away from the destructor, frames are shared only between the spaces that may. -/
theorem step_private {e : Event} (hc : s.Consistent) (hsafe : s.Safe) (hpriv : s.Private)
    (hnot : ∀ b, e ≠ .destroy b) (h : s.step e = .ok s') : s'.Private := by
  cases step_effect hc h with
  | constructed space old frames _ hold hframes _ _ htaken hspaces _ hlive =>
    have hfresh : ∀ i ∈ frames, ∀ b ∈ s.live, (i : ℤ) ∉ (s.spaces b).frames :=
      fun i hi b hb => hsafe.notMem_frames hb (htaken.clear i hi)
    have hstill : ∀ c ∈ s.live, s'.spaces c = s.spaces c := by
      intro c hmem
      rw [hspaces, Function.update_of_ne]
      exact fun heq => hc.numSpaces_notMem (heq ▸ hmem)
    have hnew : s'.spaces s.numSpaces = space := by rw [hspaces, Function.update_self]
    intro b hb front f hlast
    rw [hlive, Finset.mem_insert] at hb
    rcases hb with rfl | hb
    · -- the last page of the new address space has one of the frames that were free
      rw [hnew, hframes] at hlast
      rcases List.eq_nil_or_concat frames with hnil | ⟨frames', i, hconcat⟩
      · have hold' : old = [] := by
          rcases hold with hold | ⟨hne, -⟩
          · exact hold
          · exact absurd hnil hne
        rw [hnil, hold'] at hlast
        simp at hlast
      · rw [List.concat_eq_append] at hconcat
        have hi : i ∈ frames := by simp [hconcat]
        have hnodup := htaken.nodup
        rw [hconcat, List.map_append, ← List.append_assoc] at hlast
        obtain ⟨hfront, hf⟩ := List.append_inj' hlast rfl
        simp only [List.map_cons, List.map_nil, List.cons.injEq, and_true] at hf
        subst hf
        constructor
        · rw [← hfront, List.mem_append, not_or]
          constructor
          · intro hmem
            obtain ⟨c, hmem', hc'⟩ := mem_of_mem_old hold _ hmem
            exact hfresh i hi c hmem' hc'
          · rw [mem_map_natCast]
            rw [hconcat, List.nodup_append] at hnodup
            intro hmem
            exact hnodup.2.2 i hmem i (List.mem_singleton_self i) rfl
        · intro c hmem hne
          have hmem' : c ∈ s.live := (Finset.mem_insert.mp (hlive ▸ hmem)).resolve_left hne
          rw [hstill c hmem']
          exact hfresh i hi c hmem'
    · -- an old address space: the new one shares less of it than its last page
      rw [hstill b hb] at hlast
      obtain ⟨hfront, hothers⟩ := hpriv b hb front f hlast
      refine ⟨hfront, fun c hmem hne => ?_⟩
      rcases Finset.mem_insert.mp (hlive ▸ hmem) with rfl | hmem'
      · rw [hnew, hframes, List.mem_append, not_or]
        constructor
        · rcases hold with rfl | ⟨-, d, hd, k, hk, rfl⟩
          · simp
          · by_cases hdb : d = b
            · -- what is shared of `b` ends before its last page
              subst hdb
              rw [hlast, List.length_append, List.length_singleton] at hk
              rw [hlast, List.take_append_of_le_length (by omega)]
              exact fun hmem => hfront (List.mem_of_mem_take hmem)
            · exact fun hmem => hothers d hd hdb (List.mem_of_mem_take hmem)
        · intro hmem
          obtain ⟨i, hi, rfl⟩ := List.mem_map.mp hmem
          exact hfresh i hi b hb (hlast ▸ by simp)
      · rw [hstill c hmem']
        exact hothers c hmem' hne
  -- the only event that clears a frame is the destructor's
  | destroyed b hevent => exact absurd hevent (hnot b)
  | unchanged _ _ hspaces _ hlive =>
    unfold Private
    rw [hspaces, hlive]
    exact hpriv

/-- The address spaces after an event that made one. -/
theorem live_of_numSpaces {e : Event} (hc : s.Consistent) (h : s.step e = .ok s')
    (hnumSpaces : s'.numSpaces = s.numSpaces + 1) :
    (∀ b, b ≠ s.numSpaces → s'.spaces b = s.spaces b) ∧ s'.live = insert s.numSpaces s.live := by
  cases step_effect hc h with
  | constructed space old frames _ _ _ _ _ _ hspaces _ hlive =>
    refine ⟨fun b hb => ?_, hlive⟩
    rw [hspaces, Function.update_of_ne hb]
  | destroyed b _ _ _ _ _ hsame => omega
  | unchanged _ _ _ hsame => omega

end State

/-! ## Threads -/

/-- What of a thread matters here. -/
structure Thread where
  space : Option ℕ
  /-- `Finish` was called. -/
  finished : Bool
  /-- `SWITCH` returns into the `Scheduler::Run` that the thread called. Before that it
  enters `ThreadRoot`. -/
  started : Bool

/-- The threads and the address spaces. -/
structure Threads where
  state : State
  threads : ℕ → Option Thread
  currentThread : ℕ
  threadToBeDestroyed : Option ℕ

namespace Threads

/-- The state after `Initialize`: the main thread. -/
def initial : Threads where
  state := State.initial
  threads := Function.update (fun _ => none) 0 (some ⟨none, false, true⟩)
  currentThread := 0
  threadToBeDestroyed := none

variable (u : Threads)

def setThread (t : ℕ) (thread : Thread) : Threads :=
  { u with threads := Function.update u.threads t (some thread) }

/-- `new Thread` and its `Fork`. -/
def newThread (t : ℕ) (space : Option ℕ) : Except Fault Threads :=
  match u.threads t with
  | some _ => .error .assertion
  | none => .ok (u.setThread t ⟨space, false, false⟩)

/-- The thread that makes a system call: one that has called `Finish` does nothing more. -/
def running : Except Fault Thread :=
  match u.threads u.currentThread with
  | some thread => if thread.finished then .error .assertion else .ok thread
  | none => .error .deleted

/-- `Thread::Finish`. The `Sleep` in it is the next event, a `run`. -/
def finish (thread : Thread) : Threads :=
  { u.setThread u.currentThread { thread with finished := true } with
    threadToBeDestroyed := some u.currentThread }

/-- `delete threadToBeDestroyed`. -/
def deleteThread : Threads :=
  match u.threadToBeDestroyed with
  | some t => { u with threads := Function.update u.threads t none, threadToBeDestroyed := none }
  | none => u

/-- `Scheduler::Run`. A finished thread is on no list it could be taken from. -/
def run (nextThread : ℕ) : Except Fault Threads :=
  match u.threads nextThread with
  | none => .error .deleted
  | some next =>
    if next.finished then .error .assertion
    -- only a thread that is resumed comes to the deletion at the end of `Run`
    else if next.started then .ok { u.deleteThread with currentThread := nextThread }
    else .ok { u.setThread nextThread { next with started := true } with
      currentThread := nextThread }

/-- `AuxExec` or `StartProcess`, for a file that was opened or not. `RestoreState` uses the
page table. -/
def auxExec (executable : Option HostFile) : Except Fault Threads := do
  let thread ← u.running
  -- the thread must not have an address space yet
  if thread.space.isSome then .error .assertion
  else match executable with
    | none => return u.finish thread
    | some executable =>
      match ← u.state.exeNoVirtualMemoryConstructor executable with
      | (none, state) => return { u with state := state }.finish thread
      | (some space, state) =>
        if space.pageTable.isNone then .error .uninitialised
        else
          let thread := { thread with space := some u.state.numSpaces }
          return { u with state := state.allocate space }.setThread u.currentThread thread

/-- `NachOS_Fork`. -/
def fork (t : ℕ) : Except Fault Threads := do
  let thread ← u.running
  match thread.space with
  | none => .error .assertion
  | some b =>
    match ← u.state.noVirtualMemoryConstructor (u.state.spaces b) with
    | (none, state) => return { u with state := state }.finish thread
    | (some space, state) =>
      let unstarted := insert u.state.numSpaces u.state.unstarted
      let state := { state.allocate space with unstarted := unstarted }
      { u with state := state }.newThread t (some u.state.numSpaces)

/-- `ForkAux`. -/
def forkAux : Except Fault Threads := do
  let thread ← u.running
  match thread.space with
  | none => .error .assertion
  | some b => do
    let state ← u.state.step (.forkAux b)
    return { u with state := state }

/-- What the running thread and the scheduler can do. -/
inductive Event where
  | run (nextThread : ℕ)
  /-- `NachOS_Exec`: the new thread has no address space before it runs `AuxExec`. -/
  | exec (t : ℕ)
  | auxExec (executable : Option HostFile)
  | fork (t : ℕ)
  | forkAux
  /-- `NachOS_Exit`. -/
  | exit

def step : Event → Except Fault Threads
  | .run nextThread => u.run nextThread
  | .exec t => do
    let _ ← u.running
    u.newThread t none
  | .auxExec executable => u.auxExec executable
  | .fork t => u.fork t
  | .forkAux => u.forkAux
  | .exit => do
    let thread ← u.running
    return u.finish thread

/-! ## Accounting for frames -/

/-- A thread that has not finished has the address space. -/
def Owner (t b : ℕ) : Prop :=
  ∃ thread, u.threads t = some thread ∧ thread.finished = false ∧ thread.space = some b

/-- The marked frames are those of the threads that have not finished. -/
def Accounted : Prop :=
  ∀ f : ℕ, u.state.miMapa.marked f = true ↔
    ∃ t b, u.Owner t b ∧ (f : ℤ) ∈ (u.state.spaces b).frames

def KeepsAccounts (e : Event) : Prop := ∀ u', u.step e = .ok u' → u'.Accounted

/-- The address space of the running thread. -/
def currentSpace : Option ℕ := (u.threads u.currentThread).bind Thread.space

/-- The frames of the running thread. -/
def currentFrames : List ℤ := (u.currentSpace.map fun b => (u.state.spaces b).frames).getD []

/-- No thread that has frames is finished: it does not call `Exit`, nor `Fork` when there are
not enough frames for a stack. -/
def LosesNothing : Event → Prop
  | .exit => u.currentFrames = []
  | .fork _ => ∀ b ∈ u.currentSpace,
      (u.state.spaces b).numPages - sharedMemory (u.state.spaces b).numPages
        ≤ u.state.miMapa.numClear
  | _ => True

instance : (e : Event) → Decidable (u.LosesNothing e)
  | .exit => inferInstanceAs (Decidable (u.currentFrames = []))
  | .fork _ => inferInstanceAs (Decidable (∀ b ∈ u.currentSpace,
      (u.state.spaces b).numPages - sharedMemory (u.state.spaces b).numPages
        ≤ u.state.miMapa.numClear))
  | .run _ | .exec _ | .auxExec _ | .forkAux => isTrue trivial

variable {u}
variable {u' : Threads}

/-- What holds of threads and address spaces in every run. -/
structure Consistent (u : Threads) : Prop where
  state : u.state.Consistent
  safe : u.state.Safe
  priv : u.state.Private
  owner_live : ∀ t b, u.Owner t b → b ∈ u.state.live
  owner_unique : ∀ t t' b, u.Owner t b → u.Owner t' b → t = t'
  owner_table : ∀ t b, u.Owner t b → (u.state.spaces b).pageTable ≠ none
  destroyed : ∀ t, u.threadToBeDestroyed = some t →
    ∃ thread, u.threads t = some thread ∧ thread.finished = true

theorem running_ok {thread : Thread} (h : u.running = .ok thread) :
    u.threads u.currentThread = some thread ∧ thread.finished = false := by
  unfold running at h
  split at h
  · rename_i thread' hthread
    split at h
    · cases h
    · rename_i hfinished
      rw [Except.ok.injEq] at h
      subst h
      exact ⟨hthread, by simpa using hfinished⟩
  · cases h

/-- Which thread owns which address space, after a change to one thread. -/
theorem owner_update {t : ℕ} {thread : Option Thread}
    (hthreads : u'.threads = Function.update u.threads t thread) (t' b : ℕ) :
    u'.Owner t' b ↔
      if t' = t then ∃ th, thread = some th ∧ th.finished = false ∧ th.space = some b
      else u.Owner t' b := by
  unfold Owner
  rw [hthreads]
  split
  · rename_i heq
    rw [heq, Function.update_self]
  · rename_i hne
    rw [Function.update_of_ne hne]

/-- What an event does to the threads and the frames. -/
inductive Effect (u u' : Threads) (e : Event) : Prop where
  | same (hloses : u.LosesNothing e)
      (howner : ∀ t b, u'.Owner t b ↔ u.Owner t b)
      (hstate : u'.state = u.state ∨ ∃ b, u.state.step (.forkAux b) = .ok u'.state)
  /-- A thread gets a new address space. -/
  | constructed (t : ℕ) (event : State.Event) (hloses : u.LosesNothing e)
      (howner : ∀ t' b, u'.Owner t' b ↔ u.Owner t' b ∨ t' = t ∧ b = u.state.numSpaces)
      (hstep : u.state.step event = .ok u'.state)
      (hnot : ∀ b, event ≠ .destroy b)
      (hnumSpaces : u'.state.numSpaces = u.state.numSpaces + 1)
      (htable : (u'.state.spaces u.state.numSpaces).pageTable ≠ none)
  /-- The running thread is finished. -/
  | finished (hloses : u.LosesNothing e ↔ u.currentFrames = [])
      (howner : ∀ t b, u'.Owner t b ↔ u.Owner t b ∧ t ≠ u.currentThread)
      (hstate : u'.state = u.state)
      (hcurrent : ∀ b ∈ u.currentSpace, u.Owner u.currentThread b)

/-- The running thread is finished. -/
theorem finish_effect {e : Event} {thread : Thread} {state : State} (hrun : u.running = .ok thread)
    (hstate : state = u.state) (hloses : u.LosesNothing e ↔ u.currentFrames = []) :
    Effect u ({ u with state := state }.finish thread) e := by
  obtain ⟨hthread, hfinished⟩ := running_ok hrun
  subst hstate
  refine .finished hloses ?_ rfl ?_
  · intro t b
    rw [owner_update (u := u) rfl]
    split
    · rename_i heq
      simp [heq]
    · rename_i hne
      simp only [hne, ne_eq, not_false_eq_true, and_true]
  · intro b hb
    rw [currentSpace, hthread] at hb
    exact ⟨thread, hthread, hfinished, hb⟩

/-- Switching threads changes no owner, and deletes a finished thread. -/
theorem run_effect {nextThread : ℕ} (hc : u.Consistent) (h : u.run nextThread = .ok u') :
    Effect u u' (.run nextThread) := by
  unfold run at h
  split at h
  · cases h
  · rename_i next hnext
    split at h
    · cases h
    · rename_i hfinished
      split at h
      · rw [Except.ok.injEq] at h
        subst h
        refine .same trivial (fun t b => ?_) (.inl ?_)
        · unfold deleteThread
          split
          · rename_i gone hgone
            rw [owner_update (u := u) rfl]
            split
            · rename_i heq
              subst heq
              -- the deleted thread has finished
              constructor
              · rintro ⟨th, hth, -⟩
                cases hth
              · rintro ⟨th, hth, hrunning, -⟩
                obtain ⟨th', hth', hfinished'⟩ := hc.destroyed t hgone
                rw [hth, Option.some.injEq] at hth'
                rw [hth', hfinished'] at hrunning
                cases hrunning
            · rfl
          · rfl
        · unfold deleteThread
          split
          · rfl
          · rfl
      · rw [Except.ok.injEq] at h
        subst h
        refine .same trivial (fun t b => ?_) (.inl rfl)
        rw [owner_update (u := u) rfl]
        split
        · rename_i heq
          subst heq
          simp [Owner, hnext]
        · rfl

theorem newThread_ok {t : ℕ} {space : Option ℕ} (h : u.newThread t space = .ok u') :
    u.threads t = none ∧ u' = u.setThread t ⟨space, false, false⟩ := by
  unfold newThread at h
  split at h
  · cases h
  · rename_i hnone
    rw [Except.ok.injEq] at h
    exact ⟨hnone, h.symm⟩

/-- `Exec` constructs a space for the thread that runs it, or fails. -/
theorem auxExec_effect {executable : Option HostFile}
    (h : u.auxExec executable = .ok u') : Effect u u' (.auxExec executable) := by
  unfold auxExec at h
  obtain ⟨thread, hrun, h⟩ := bind_ok_iff.mp h
  obtain ⟨hthread, hfinished⟩ := running_ok hrun
  split at h
  · cases h
  · rename_i hspace
    have hspace' : thread.space = none := by simpa using hspace
    have hloses : u.LosesNothing (.auxExec executable) ↔ u.currentFrames = [] := by
      simp [LosesNothing, currentFrames, currentSpace, hthread, hspace']
    cases executable with
    | none =>
      -- the file cannot be opened: the thread ends with nothing to lose
      rw [pure_ok_iff] at h
      exact h ▸ finish_effect hrun rfl hloses
    | some file =>
      obtain ⟨⟨result, state⟩, hnew, h⟩ := bind_ok_iff.mp h
      obtain ⟨noffH, pageTable, m', mainMemory, -, -, rfl, hstate⟩ :=
        State.exeNoVirtualMemoryConstructor_ok hnew
      have hstep : u.state.step (.exec file) = .ok (state.allocate
          ⟨pageTable, noffH.numPages, u.state.numTables, file⟩) := by
        rw [State.step, hnew, ok_bind]
        rfl
      have hnumSpaces : state.numSpaces = u.state.numSpaces := by rw [hstate]; rfl
      simp only at h
      split at h
      · cases h
      · rename_i htable
        rw [pure_ok_iff] at h
        subst h
        refine .constructed u.currentThread (.exec file) trivial ?_ hstep (by simp) ?_ ?_
        · intro t b
          rw [owner_update (u := u) rfl]
          split
          · rename_i heq
            subst heq
            have hnone : ¬ u.Owner u.currentThread b := by
              rintro ⟨th, hth, -, hsome⟩
              rw [hthread, Option.some.injEq] at hth
              rw [← hth, hspace'] at hsome
              cases hsome
            simp only [hnone, false_or, true_and, Option.some.injEq, exists_eq_left', hfinished]
            exact eq_comm
          · rename_i hne
            simp [hne]
        · exact congrArg (· + 1) hnumSpaces
        · simpa [setThread, State.allocate, hnumSpaces] using htable

/-- `Fork` gives the new thread an address space of its own, with the frames of its parent's. -/
theorem fork_effect {t : ℕ} (hc : u.Consistent) (h : u.fork t = .ok u') :
    Effect u u' (.fork t) := by
  unfold fork at h
  obtain ⟨thread, hrun, h⟩ := bind_ok_iff.mp h
  obtain ⟨hthread, hfinished⟩ := running_ok hrun
  split at h
  · cases h
  · rename_i b hspace
    obtain ⟨⟨result, state⟩, hnew, h⟩ := bind_ok_iff.mp h
    have howner : u.Owner u.currentThread b := ⟨thread, hthread, hfinished, hspace⟩
    have hlive := hc.owner_live _ _ howner
    have hsize := hc.state.size b hlive
    have hcurrent : u.currentSpace = some b := by rw [currentSpace, hthread]; exact hspace
    obtain ⟨shared, hshared, hcase⟩ := State.noVirtualMemoryConstructor_ok hsize hnew
    rcases hcase with ⟨hfew, rfl, hstate⟩ | ⟨hmany, frames, m', -, -, -, rfl, hstate⟩
    · -- the thread has frames, those of its stack
      have hframes : u.currentFrames ≠ [] := by
        obtain ⟨hle, -, -⟩ := sharedPages_ok hsize hshared
        have hpages := sharedMemory_lt hle
        rw [currentFrames, hcurrent, Option.map_some, Option.getD_some, AddrSpace.frames]
        cases htable : (u.state.spaces b).pageTable with
        | none => exact absurd htable (hc.owner_table _ _ howner)
        | some pageTable =>
          have hlength := hsize pageTable htable
          apply List.ne_nil_of_length_pos
          rw [Option.getD_some, List.length_map]
          omega
      rw [pure_ok_iff] at h
      refine h ▸ finish_effect hrun hstate ?_
      simp only [LosesNothing, hcurrent, Option.mem_def, Option.some.injEq, forall_eq', hframes,
        iff_false]
      omega
    · -- the copy has a table of its own, and the new thread is the only one that owns it
      obtain ⟨hfree, rfl⟩ := newThread_ok h
      have hstep : u.state.step (.fork b) = .ok { state.allocate { u.state.spaces b with
          pageTable := some (shared ++ entriesFrom shared.length frames) } with
            unstarted := insert u.state.numSpaces u.state.unstarted } := by
        rw [State.step, if_pos hlive, hnew, ok_bind]
        rfl
      have hnumSpaces : state.numSpaces = u.state.numSpaces := by rw [hstate]
      refine .constructed t (.fork b) ?_ ?_ hstep (by simp) ?_ ?_
      · simp only [LosesNothing, hcurrent, Option.mem_def, Option.some.injEq, forall_eq']
        exact hmany
      · intro t' c
        rw [owner_update (u := u) rfl]
        split
        · rename_i heq
          subst heq
          have hnone : ¬ u.Owner t' c := by
            rintro ⟨th, hth, -⟩
            have hfree' : u.threads t' = none := hfree
            rw [hfree'] at hth
            cases hth
          simp only [hnone, false_or, true_and, Option.some.injEq, exists_eq_left']
          exact eq_comm
        · rename_i hne
          simp [hne]
      · exact congrArg (· + 1) hnumSpaces
      · simp [setThread, State.allocate, hnumSpaces]

/-- What every event does to the owners and the frames. -/
theorem step_effect {e : Event} (hc : u.Consistent) (h : u.step e = .ok u') :
    Effect u u' e := by
  cases e with
  | run nextThread => exact run_effect hc h
  | exec t =>
    obtain ⟨thread, -, h⟩ := bind_ok_iff.mp h
    obtain ⟨hfree, rfl⟩ := newThread_ok h
    refine .same trivial (fun t' b => ?_) (.inl rfl)
    rw [owner_update (u := u) rfl]
    split
    · rename_i heq
      subst heq
      simp [Owner, hfree]
    · rfl
  | auxExec executable => exact auxExec_effect h
  | fork t => exact fork_effect hc h
  | forkAux =>
    obtain ⟨thread, -, h⟩ := bind_ok_iff.mp h
    split at h
    · cases h
    · rename_i b hspace
      obtain ⟨state, hstep, h⟩ := bind_ok_iff.mp h
      rw [pure_ok_iff] at h
      subst h
      exact .same trivial (fun t b => Iff.rfl) (.inr ⟨b, hstep⟩)
  | exit =>
    obtain ⟨thread, hrun, h⟩ := bind_ok_iff.mp h
    rw [pure_ok_iff] at h
    exact h ▸ finish_effect hrun rfl Iff.rfl

/-! ## Every run -/

/-- A thread that has not finished is not the one to be destroyed. -/
theorem Consistent.ne_destroyed {t : ℕ} {thread : Thread} (hc : u.Consistent)
    (hthread : u.threads t = some thread) (hfinished : thread.finished = false) :
    u.threadToBeDestroyed ≠ some t := by
  intro hgone
  obtain ⟨thread', hthread', hfinished'⟩ := hc.destroyed t hgone
  rw [hthread, Option.some.injEq] at hthread'
  rw [hthread', hfinished'] at hfinished
  cases hfinished

/-- The thread to be destroyed is as it was after a change of another one. -/
theorem Consistent.destroyed_update {t : ℕ} {thread : Option Thread} (hc : u.Consistent)
    (hne : u.threadToBeDestroyed ≠ some t)
    (hthreads : u'.threads = Function.update u.threads t thread)
    (hgone : u'.threadToBeDestroyed = u.threadToBeDestroyed) :
    ∀ t', u'.threadToBeDestroyed = some t' →
      ∃ thread, u'.threads t' = some thread ∧ thread.finished = true := by
  intro t' ht'
  rw [hgone] at ht'
  have hne' : t' ≠ t := fun heq => hne (heq ▸ ht')
  rw [hthreads, Function.update_of_ne hne']
  exact hc.destroyed t' ht'

/-- `Finish` leaves itself to be destroyed. -/
theorem finish_destroyed (thread : Thread) :
    ∀ t, (u.finish thread).threadToBeDestroyed = some t →
      ∃ thread', (u.finish thread).threads t = some thread' ∧ thread'.finished = true := by
  intro t ht
  simp only [finish, Option.some.injEq] at ht
  exact ⟨{ thread with finished := true }, by simp [finish, setThread, ht], rfl⟩

theorem Consistent.newThread_destroyed {t : ℕ} {space : Option ℕ} (hc : u.Consistent)
    (hfree : u.threads t = none) (hthreads : u'.threads =
      Function.update u.threads t (some ⟨space, false, false⟩))
    (hgone : u'.threadToBeDestroyed = u.threadToBeDestroyed) :
    ∀ t', u'.threadToBeDestroyed = some t' →
      ∃ thread, u'.threads t' = some thread ∧ thread.finished = true := by
  refine hc.destroyed_update (fun heq => ?_) hthreads hgone
  obtain ⟨thread, hthread, -⟩ := hc.destroyed t heq
  rw [hfree] at hthread
  cases hthread

/-- Only a finished thread is ever destroyed. -/
theorem step_destroyed {e : Event} (hc : u.Consistent) (h : u.step e = .ok u') :
    ∀ t, u'.threadToBeDestroyed = some t →
      ∃ thread, u'.threads t = some thread ∧ thread.finished = true := by
  cases e with
  | run nextThread =>
    change u.run nextThread = .ok u' at h
    unfold run at h
    split at h
    · cases h
    · rename_i next hnext
      split at h
      · cases h
      · rename_i hfinished
        -- a finished thread is not switched to, so the one to be destroyed is another
        have hfinished' : next.finished = false := by simpa using hfinished
        split at h
        · rw [Except.ok.injEq] at h
          subst h
          intro t ht
          unfold deleteThread at ht ⊢
          cases hgone : u.threadToBeDestroyed with
          | none =>
            rw [hgone] at ht
            simp only at ht
            rw [hgone] at ht
            cases ht
          | some gone =>
            rw [hgone] at ht
            cases ht
        · rw [Except.ok.injEq] at h
          subst h
          exact hc.destroyed_update (hc.ne_destroyed hnext hfinished') rfl rfl
  | exec t =>
    obtain ⟨thread, -, h⟩ := bind_ok_iff.mp h
    obtain ⟨hfree, rfl⟩ := newThread_ok h
    exact hc.newThread_destroyed hfree rfl rfl
  | auxExec executable =>
    obtain ⟨thread, hrun, h⟩ := bind_ok_iff.mp h
    obtain ⟨hthread, hfinished⟩ := running_ok hrun
    split at h
    · cases h
    · cases executable with
      | none =>
        rw [pure_ok_iff] at h
        exact h ▸ finish_destroyed thread
      | some file =>
        obtain ⟨⟨result, state⟩, -, h⟩ := bind_ok_iff.mp h
        cases result with
        | none =>
          rw [pure_ok_iff] at h
          exact h ▸ finish_destroyed thread
        | some space =>
          simp only at h
          split at h
          · cases h
          · rw [pure_ok_iff] at h
            subst h
            exact hc.destroyed_update (hc.ne_destroyed hthread hfinished) rfl rfl
  | fork t =>
    obtain ⟨thread, -, h⟩ := bind_ok_iff.mp h
    split at h
    · cases h
    · obtain ⟨⟨result, state⟩, -, h⟩ := bind_ok_iff.mp h
      cases result with
      | none =>
        rw [pure_ok_iff] at h
        exact h ▸ finish_destroyed thread
      | some space =>
        obtain ⟨hfree, rfl⟩ := newThread_ok h
        exact hc.newThread_destroyed hfree rfl rfl
  | forkAux =>
    obtain ⟨thread, -, h⟩ := bind_ok_iff.mp h
    split at h
    · cases h
    · obtain ⟨state, -, h⟩ := bind_ok_iff.mp h
      rw [pure_ok_iff] at h
      exact h ▸ hc.destroyed
  | exit =>
    obtain ⟨thread, -, h⟩ := bind_ok_iff.mp h
    rw [pure_ok_iff] at h
    exact h ▸ finish_destroyed thread

/-- The frames and the address spaces are as they were. -/
theorem same_state (hstate : u'.state = u.state ∨ ∃ b, u.state.step (.forkAux b) = .ok u'.state) :
    u'.state.miMapa = u.state.miMapa ∧ u'.state.spaces = u.state.spaces ∧
      u'.state.live = u.state.live := by
  rcases hstate with hstate | ⟨b, hstep⟩
  · rw [hstate]
    exact ⟨rfl, rfl, rfl⟩
  · obtain ⟨-, -, table, -, hstate⟩ := State.step_forkAux_ok hstep
    rw [hstate]
    exact ⟨rfl, rfl, rfl⟩

/-- The step lemma of the threads and their spaces. -/
theorem step_consistent {e : Event} (hc : u.Consistent) (h : u.step e = .ok u') :
    u'.Consistent := by
  have hdestroyed := step_destroyed hc h
  cases step_effect hc h with
  | same _ howner hstate =>
    obtain ⟨-, hspaces, hlive⟩ := same_state hstate
    have hkept : u'.state.Consistent ∧ u'.state.Safe ∧ u'.state.Private := by
      rcases hstate with hstate | ⟨b, hstep⟩
      · rw [hstate]
        exact ⟨hc.state, hc.safe, hc.priv⟩
      · -- `ForkAux` only counts a user of the table
        have hunshared : u.state.Unshared (.forkAux b) := trivial
        exact ⟨State.step_consistent hc.state hstep,
          State.step_safe hc.state hc.safe hunshared hstep,
          State.step_private hc.state hc.safe hc.priv (by simp) hstep⟩
    refine ⟨hkept.1, hkept.2.1, hkept.2.2, ?owner_live, ?owner_unique, ?owner_table, hdestroyed⟩
    case owner_live =>
      intro t b ho
      rw [hlive]
      exact hc.owner_live t b ((howner t b).mp ho)
    case owner_unique =>
      intro t t' b ho ho'
      exact hc.owner_unique t t' b ((howner t b).mp ho) ((howner t' b).mp ho')
    case owner_table =>
      intro t b ho
      rw [hspaces]
      exact hc.owner_table t b ((howner t b).mp ho)
  | constructed t₀ event _ howner hstep hnot hnumSpaces htable =>
    -- the new address space is numbered as none that is live, so the old owners keep theirs
    have hsafe := State.step_safe hc.state hc.safe (State.unshared_of_ne_destroy hnot) hstep
    have hpriv := State.step_private hc.state hc.safe hc.priv hnot hstep
    have hold : ∀ t b, u.Owner t b → b ≠ u.state.numSpaces := by
      intro t b ho heq
      exact hc.state.numSpaces_notMem (heq ▸ hc.owner_live t b ho)
    refine ⟨State.step_consistent hc.state hstep, hsafe, hpriv, ?owner_live, ?owner_unique,
      ?owner_table, hdestroyed⟩
    case owner_live =>
      intro t b ho
      obtain ⟨-, hlive⟩ := State.live_of_numSpaces hc.state hstep hnumSpaces
      rw [hlive, Finset.mem_insert]
      rcases (howner t b).mp ho with ho | ⟨-, rfl⟩
      · exact .inr (hc.owner_live t b ho)
      · exact .inl rfl
    case owner_unique =>
      intro t t' b ho ho'
      rcases (howner t b).mp ho with ho | ⟨rfl, rfl⟩
      · rcases (howner t' b).mp ho' with ho' | ⟨-, hnew⟩
        · exact hc.owner_unique t t' b ho ho'
        · exact absurd hnew (hold t b ho)
      · rcases (howner t' u.state.numSpaces).mp ho' with ho' | ⟨rfl, -⟩
        · exact absurd rfl (hold t' _ ho')
        · rfl
    case owner_table =>
      intro t b ho
      obtain ⟨hspaces, -⟩ := State.live_of_numSpaces hc.state hstep hnumSpaces
      rcases (howner t b).mp ho with ho | ⟨-, rfl⟩
      · rw [hspaces b (hold t b ho)]
        exact hc.owner_table t b ho
      · exact htable
  | finished _ howner hstate =>
    -- a thread that ends only stops being an owner; its address space stays
    have hold : ∀ t b, u'.Owner t b → u.Owner t b := fun t b ho => ((howner t b).mp ho).1
    refine ⟨?state, ?safe, ?priv, ?owner_live, ?owner_unique, ?owner_table, hdestroyed⟩
    case state =>
      rw [hstate]
      exact hc.state
    case safe =>
      rw [hstate]
      exact hc.safe
    case priv =>
      rw [hstate]
      exact hc.priv
    case owner_live =>
      intro t b ho
      rw [hstate]
      exact hc.owner_live t b (hold t b ho)
    case owner_unique =>
      intro t t' b ho ho'
      exact hc.owner_unique t t' b (hold t b ho) (hold t' b ho')
    case owner_table =>
      intro t b ho
      rw [hstate]
      exact hc.owner_table t b (hold t b ho)

/-- Which events keep the account of the frames. -/
theorem keepsAccounts_iff {e : Event} (hc : u.Consistent) (hacc : u.Accounted)
    (h : u.step e = .ok u') : u.KeepsAccounts e ↔ u.LosesNothing e := by
  -- the step has one outcome, so the property is about `u'` alone
  have honly : u.KeepsAccounts e ↔ u'.Accounted := by
    constructor
    · exact fun hkeeps => hkeeps u' h
    · intro hkeeps u₁ h₁
      rw [h, Except.ok.injEq] at h₁
      exact h₁ ▸ hkeeps
  rw [honly]
  cases step_effect hc h with
  | same hloses howner hstate =>
    -- no frame and no owner changes
    obtain ⟨hmiMapa, hspaces, -⟩ := same_state hstate
    refine ⟨fun _ => hloses, fun _ f => ?_⟩
    simp only [hmiMapa, hspaces, howner]
    exact hacc f
  | constructed t₀ event hloses howner hstep hnot hnumSpaces htable =>
    -- a new address space: its own frames are marked, those it shares were
    refine ⟨fun _ => hloses, fun _ f => ?_⟩
    cases State.step_effect hc.state hstep with
    | constructed space old frames _ hold hframes _ _ htaken hspaces _ _ =>
      have hstill : ∀ t b, u.Owner t b → u'.state.spaces b = u.state.spaces b := by
        intro t b ho
        rw [hspaces, Function.update_of_ne]
        exact fun heq => hc.state.numSpaces_notMem (heq ▸ hc.owner_live t b ho)
      have hnew : u'.state.spaces u.state.numSpaces = space := by
        rw [hspaces, Function.update_self]
      rw [htaken.marked]
      constructor
      · rintro (hmarked | hmem)
        · obtain ⟨t, b, ho, hf⟩ := (hacc f).mp hmarked
          exact ⟨t, b, (howner t b).mpr (.inl ho), by rwa [hstill t b ho]⟩
        · refine ⟨t₀, _, (howner t₀ _).mpr (.inr ⟨rfl, rfl⟩), ?_⟩
          rw [hnew, hframes]
          exact List.mem_append_right old (mem_map_natCast.mpr hmem)
      · rintro ⟨t, b, ho, hf⟩
        rcases (howner t b).mp ho with ho | ⟨-, rfl⟩
        · rw [hstill t b ho] at hf
          exact .inl ((hacc f).mpr ⟨t, b, ho, hf⟩)
        · rw [hnew, hframes] at hf
          rcases List.mem_append.mp hf with hf | hf
          · -- a frame of the parent was marked before
            obtain ⟨c, hlive, hf⟩ := State.mem_of_mem_old hold _ hf
            exact .inl (hc.safe c hlive f hf)
          · exact .inr (mem_map_natCast.mp hf)
    | destroyed b hevent => exact absurd hevent (hnot b)
    | unchanged _ _ _ hsame => omega
  | finished hloses howner hstate hcurrent =>
    -- the thread ends and keeps its frames marked, so nothing is lost only if it had none
    rw [hloses]
    constructor
    · intro hacc'
      rcases List.eq_nil_or_concat u.currentFrames with hnil | ⟨front, f, hlast⟩
      · exact hnil
      · -- nobody else has the frame of the last page
        exfalso
        rw [List.concat_eq_append] at hlast
        cases hspace : u.currentSpace with
        | none =>
          rw [currentFrames, hspace] at hlast
          simp at hlast
        | some b =>
          rw [currentFrames, hspace, Option.map_some, Option.getD_some] at hlast
          have hb := hcurrent b hspace
          have hlive := hc.owner_live _ b hb
          have hmem : f ∈ (u.state.spaces b).frames := by simp [hlast]
          have hcast : ((f.toNat : ℕ) : ℤ) = f :=
            Int.toNat_of_nonneg (hc.state.frames b hlive f hmem).1
          have hmarked : u'.state.miMapa.marked f.toNat = true := by
            rw [hstate]
            exact hc.safe b hlive f hmem
          obtain ⟨t, c, ho, hf⟩ := (hacc' f.toNat).mp hmarked
          obtain ⟨ho, hne⟩ := (howner t c).mp ho
          rw [hstate, hcast] at hf
          have hcb : c ≠ b := fun heq => hne (hc.owner_unique _ _ b (heq ▸ ho) hb)
          exact (hc.priv b hlive front f hlast).2 c (hc.owner_live t c ho) hcb hf
    · intro hnil f
      rw [hstate, hacc f]
      constructor
      · rintro ⟨t, b, ho, hf⟩
        refine ⟨t, b, (howner t b).mpr ⟨ho, ?_⟩, hf⟩
        rintro rfl
        obtain ⟨thread, hthread, -, hspace⟩ := ho
        rw [currentFrames, currentSpace, hthread, Option.bind_some, hspace] at hnil
        rw [Option.map_some, Option.getD_some] at hnil
        rw [hnil] at hf
        cases hf
      · rintro ⟨t, b, ho, hf⟩
        exact ⟨t, b, ((howner t b).mp ho).1, hf⟩

theorem initial_consistent : initial.Consistent := by
  have hnone : ∀ t b, ¬ initial.Owner t b := by
    rintro t b ⟨thread, hthread, -, hspace⟩
    simp only [initial, Function.update_apply] at hthread
    split at hthread
    · rw [Option.some.injEq] at hthread
      rw [← hthread] at hspace
      cases hspace
    · cases hthread
  refine ⟨State.initial_consistent, ?safe, ?priv, ?owner_live, ?owner_unique, ?owner_table,
    ?destroyed⟩
  case safe => simp [State.Safe, initial, State.initial]
  case priv => simp [State.Private, initial, State.initial]
  case owner_live => exact fun t b ho => absurd ho (hnone t b)
  case owner_unique => exact fun t _ b ho => absurd ho (hnone t b)
  case owner_table => exact fun t b ho => absurd ho (hnone t b)
  case destroyed => simp [initial]

theorem initial_accounted : initial.Accounted := by
  intro f
  simp [initial, State.initial, Owner, Function.update_apply]

/-- In every run the marked frames are those of the threads that have not finished, exactly if
no thread that has frames is finished. -/
theorem run_accounted_iff {events : List Event}
    (hrun : PartialRun.run step initial events = .ok u) :
    Along step KeepsAccounts initial events ↔ Along step LosesNothing initial events := by
  refine Along.iff_of_run (I := fun u => u.Consistent ∧ u.Accounted) ?_ ?_
    ⟨initial_consistent, initial_accounted⟩ hrun
  · rintro u e u' ⟨hc, hacc⟩ hloses hstep
    exact ⟨step_consistent hc hstep, (keepsAccounts_iff hc hacc hstep).mpr hloses u' hstep⟩
  · rintro u e u' ⟨hc, hacc⟩ hstep
    exact keepsAccounts_iff hc hacc hstep

/-- A program, its child, and a second program whose file cannot be opened. -/
theorem running_programs_accounted :
    ∃ u, PartialRun.run step initial [.auxExec (some State.onePage), .fork 1, .exec 2, .run 1,
      .forkAux, .run 2, .auxExec none, .run 0] = .ok u ∧
      Along step KeepsAccounts initial [.auxExec (some State.onePage), .fork 1, .exec 2, .run 1,
        .forkAux, .run 2, .auxExec none, .run 0] := by
  have hrun : ∃ u, PartialRun.run step initial [.auxExec (some State.onePage), .fork 1, .exec 2,
      .run 1, .forkAux, .run 2, .auxExec none, .run 0] = .ok u ∧ True := by decide +kernel
  obtain ⟨u, hrun, -⟩ := hrun
  exact ⟨u, hrun, (run_accounted_iff hrun).mpr (by decide +kernel)⟩

/-- A program that exits leaves its frames marked. -/
theorem exit_loses_frames :
    ∃ u, PartialRun.run step initial [.auxExec (some State.onePage), .exit] = .ok u ∧
      ¬ u.Accounted := by
  have hexit : ∃ u, PartialRun.run step initial [.auxExec (some State.onePage), .exit] = .ok u ∧
      True := by decide +kernel
  have hframes : ∃ u, PartialRun.run step initial [.auxExec (some State.onePage)] = .ok u ∧
      u.currentFrames ≠ [] := by decide +kernel
  obtain ⟨u', hexit, -⟩ := hexit
  obtain ⟨u, hstart, hframes⟩ := hframes
  obtain ⟨u₁, hfirst, hsecond⟩ := run_cons_eq_ok.mp hexit
  rw [run_cons, hfirst, ok_bind, run_nil, Except.ok.injEq] at hstart
  subst hstart
  obtain ⟨u₂, hexit', hend⟩ := run_cons_eq_ok.mp hsecond
  rw [run_nil, Except.ok.injEq] at hend
  subst hend
  have hc := step_consistent initial_consistent hfirst
  have hacc := (keepsAccounts_iff initial_consistent initial_accounted hfirst).mpr trivial u₁ hfirst
  refine ⟨u₂, hexit, fun hacc' => hframes ?_⟩
  refine (keepsAccounts_iff hc hacc hexit').mp ?_
  intro u₃ h₃
  rw [hexit', Except.ok.injEq] at h₃
  exact h₃ ▸ hacc'

end Threads

end NoVM
end NachOS
