import NachOS.Lib.Run
import Mathlib.Algebra.Group.Nat.Defs
import Mathlib.Algebra.Group.Int.Defs
import Mathlib.Logic.Function.Basic

/-!
# Threads and their synchronisation

The kernel's threads (`thread.cc`, `scheduler.cc`), the simulated interrupts
(`interrupt.cc`), and semaphores, locks and condition variables (`synch.cc`).

A thread is in the middle of some routines of the kernel: `code` is what is left of them, a
list of `Instr`. The bodies the source runs with interrupts off are single instructions. A
thread loses the processor only in `Yield`, in `Sleep` and in the `Yield` that `OneTick`
calls for the timer, and `OneTick` runs when interrupts are switched on again. What happens
at a tick is up to the devices, so a run is any sequence of calls, instructions and ticks.

Some fields only record what has happened, for the sake of the statements: nothing in the
step function reads them.
-/

namespace NachOS

/-- `IntStatus`. -/
inductive IntStatus where
  | intOff
  | intOn
deriving DecidableEq, Repr

/-- A semaphore: one made by a client, or the one inside a lock. -/
inductive SemId where
  | user (n : ℕ)
  | lock (l : ℕ)
deriving DecidableEq, Repr

/-- What a routine of the kernel does next. -/
inductive Instr where
  /-- `interrupt->SetLevel(now)`. -/
  | setLevel (now : IntStatus)
  /-- `oldLevel = interrupt->SetLevel(IntOff)`. -/
  | saveLevel
  /-- `interrupt->SetLevel(oldLevel)`. -/
  | restoreLevel
  /-- `OneTick()`. -/
  | oneTick
  /-- The loop and the decrement of `Semaphore::P`. -/
  | p (s : SemId)
  /-- The same, after `Sleep` has returned in the loop. -/
  | pRetry (s : SemId)
  /-- The body of `Semaphore::V`. -/
  | v (s : SemId)
  /-- The loop of `Semaphore::Destroy`. -/
  | destroy (s : SemId)
  /-- `isHeld = true; owner = currentThread`. -/
  | setOwner (l : ℕ)
  /-- `isHeld = false; owner = NULL`. -/
  | clearOwner (l : ℕ)
  /-- `hilos->Append(currentThread)`. -/
  | appendHilos (c : ℕ)
  /-- The body of `Condition::Signal`. -/
  | signal (c : ℕ)
  /-- The loop of `Condition::Broadcast`. -/
  | broadcast (c : ℕ)
  /-- `scheduler->ReadyToRun(thread)`. -/
  | readyToRun (t : ℕ)
  /-- The body of `Thread::Yield`. -/
  | yieldCPU
  /-- `Thread::Sleep`. -/
  | sleep
  /-- `threadToBeDestroyed = currentThread`. -/
  | toBeDestroyed
deriving DecidableEq, Repr

/-! ## The routines -/

def semaphoreP (s : SemId) : List Instr := [.saveLevel, .p s, .restoreLevel]

def semaphoreV (s : SemId) : List Instr := [.saveLevel, .v s, .restoreLevel]

def semaphoreDestroy (s : SemId) : List Instr := [.saveLevel, .destroy s, .restoreLevel]

def lockAcquire (l : ℕ) : List Instr := semaphoreP (.lock l) ++ [.setOwner l]

def lockRelease (l : ℕ) : List Instr := semaphoreV (.lock l) ++ [.clearOwner l]

def conditionWait (c l : ℕ) : List Instr :=
  [.saveLevel] ++ lockRelease l ++ [.appendHilos c, .sleep] ++ lockAcquire l ++ [.restoreLevel]

def conditionSignal (c : ℕ) : List Instr := [.saveLevel, .signal c, .restoreLevel]

def conditionBroadcast (c : ℕ) : List Instr := [.saveLevel, .broadcast c, .restoreLevel]

def threadYield : List Instr := [.saveLevel, .yieldCPU, .restoreLevel]

def threadFinish : List Instr := [.setLevel .intOff, .toBeDestroyed, .sleep]

def threadFork (t : ℕ) : List Instr := [.saveLevel, .readyToRun t, .restoreLevel]

/-- What `ThreadRoot` does before it calls the forked procedure. -/
def threadRoot : List Instr := [.setLevel .intOn]

/-! ## State -/

/-- `Semaphore`, and what has been done with it. -/
structure Semaphore where
  value : ℤ
  queue : List ℕ
  /-- The `P` operations that have decremented the value. -/
  completedP : ℕ
  /-- The `V` operations that have incremented it. -/
  completedV : ℕ
  /-- The threads that `V` has moved from the queue to the ready list and that have not
  tested the value again since. -/
  woken : List ℕ

/-- `Lock` without its semaphore, and who is in it. -/
structure Lock where
  isHeld : Bool
  owner : Option ℕ
  /-- The threads between the decrement of their `Acquire` and the increment of their
  `Release`. -/
  inside : List ℕ
  /-- The threads that have returned from `Acquire` and have not come to the increment of
  their `Release`. -/
  holding : List ℕ

/-- The kernel. -/
structure Kernel where
  currentThread : ℕ
  level : IntStatus
  yieldOnReturn : Bool
  readyList : List ℕ
  semaphore : SemId → Semaphore
  lock : ℕ → Lock
  /-- The waiting list of each condition variable. -/
  hilos : ℕ → List ℕ
  /-- What is left of the routines each thread is in. -/
  code : ℕ → List Instr
  /-- The variables `oldLevel` of the routines each thread is in, the innermost first. -/
  oldLevels : ℕ → List IntStatus
  /-- The threads made by `new Thread`. -/
  created : ℕ → Bool
  /-- The threads that `SWITCH` resumes in `Scheduler::Run`; it starts the others. -/
  started : ℕ → Bool
  threadToBeDestroyed : Option ℕ
  deleted : List ℕ

/-- Why a run ends. -/
inductive Stop where
  /-- A failed `ASSERT`. -/
  | assertion
  /-- `value++` at the largest `int`. -/
  | overflow
  /-- The event cannot happen in this state. -/
  | impossible
deriving DecidableEq, Repr

/-- The largest `int`. -/
def intMax : ℤ := 2 ^ 31 - 1

namespace Kernel

/-! ## The ready list and the processor -/

/-- The running thread goes on with these instructions. -/
def push (k : Kernel) (instrs : List Instr) : Kernel :=
  { k with code := Function.update k.code k.currentThread (instrs ++ k.code k.currentThread) }

/-- `Scheduler::ReadyToRun`. -/
def readyToRun (k : Kernel) (thread : ℕ) : Kernel :=
  { k with readyList := k.readyList ++ [thread] }

/-- `Scheduler::Run`. A thread that is resumed deletes the one that has finished. -/
def run (k : Kernel) (nextThread : ℕ) : Kernel :=
  if k.started nextThread then
    { k with
      currentThread := nextThread
      deleted := k.threadToBeDestroyed.toList ++ k.deleted
      threadToBeDestroyed := none }
  else
    -- a thread that starts goes to `ThreadRoot` and not to the end of `Run`
    { k with
      currentThread := nextThread
      started := Function.update k.started nextThread true }

/-- `Interrupt::SetLevel`, and the `OneTick` it may call. -/
def setLevel (k : Kernel) (now : IntStatus) : Kernel :=
  let old := k.level
  let k := { k with level := now }
  if now = .intOn ∧ old = .intOff then k.push [.oneTick] else k

/-! ## Semaphores -/

def setSemaphore (k : Kernel) (s : SemId) (sem : Semaphore) : Kernel :=
  { k with semaphore := Function.update k.semaphore s sem }

def setLock (k : Kernel) (l : ℕ) (lock : Lock) : Kernel :=
  { k with lock := Function.update k.lock l lock }

/-- The thread is past the decrement in the `Acquire` of a lock. -/
def enter (k : Kernel) : SemId → Kernel
  | .user _ => k
  | .lock l => k.setLock l { k.lock l with inside := k.currentThread :: (k.lock l).inside }

/-- The thread is past the increment in the `Release` of a lock. -/
def leave (k : Kernel) : SemId → Kernel
  | .user _ => k
  | .lock l => k.setLock l { k.lock l with
      inside := (k.lock l).inside.filter (· ≠ k.currentThread)
      holding := (k.lock l).holding.filter (· ≠ k.currentThread) }

/-- The loop of `Semaphore::P` from its test on: the thread goes to sleep in the queue, or
the value is decremented. -/
def takeOrSleep (k : Kernel) (s : SemId) : Kernel :=
  let sem := k.semaphore s
  -- a `while` in the source: a thread that wakes up tests the value again
  if sem.value = 0 then
    (k.setSemaphore s { sem with queue := sem.queue ++ [k.currentThread] }).push
      [.sleep, .pRetry s]
  else
    (k.setSemaphore s { sem with
      value := sem.value - 1
      completedP := sem.completedP + 1 }).enter s

/-- The thread tests the value again. -/
def resumed (k : Kernel) (s : SemId) : Kernel :=
  k.setSemaphore s { k.semaphore s with
    woken := (k.semaphore s).woken.erase k.currentThread }

/-- The body of `Semaphore::V`. -/
def increment (k : Kernel) (s : SemId) : Except Stop Kernel :=
  let sem := k.semaphore s
  if sem.value = intMax then .error .overflow
  else match sem.queue with
    | [] => .ok (k.setSemaphore s { sem with
        value := sem.value + 1
        completedV := sem.completedV + 1 })
    -- the thread is made ready and the value goes up: the unit is not handed over
    | thread :: queue => .ok ((k.setSemaphore s { sem with
        value := sem.value + 1
        queue := queue
        completedV := sem.completedV + 1
        woken := thread :: sem.woken }).readyToRun thread)

/-! ## Interrupts -/

/-- What an interrupt handler does to threads. -/
inductive Handler where
  /-- A device has finished: `Semaphore::V`. -/
  | v (n : ℕ)
  /-- The timer: `YieldOnReturn`. -/
  | timer
deriving DecidableEq, Repr

/-- The handlers that are due, one after the other. -/
def handle (k : Kernel) : List Handler → Except Stop Kernel
  | [] => .ok k
  | .v n :: handlers => do
    let k ← k.increment (.user n)
    k.handle handlers
  | .timer :: handlers => { k with yieldOnReturn := true }.handle handlers

/-- `Interrupt::OneTick`. -/
def tick (k : Kernel) (handlers : List Handler) : Except Stop Kernel := do
  let k ← k.handle handlers
  let k := { k with level := .intOn }
  return if k.yieldOnReturn then { k with yieldOnReturn := false }.push threadYield else k

/-- `Interrupt::Idle`. -/
def idle (k : Kernel) (handlers : List Handler) : Except Stop Kernel := do
  let k ← k.handle handlers
  return { k with yieldOnReturn := false }

/-! ## Steps -/

/-- The running thread has these variables `oldLevel`. -/
def setOldLevels (k : Kernel) (oldLevels : List IntStatus) : Kernel :=
  { k with oldLevels := Function.update k.oldLevels k.currentThread oldLevels }

/-- One instruction, already taken off the code of the running thread. What depends on the
devices is left to the events. -/
def exec (k : Kernel) : Instr → Except Stop Kernel
  | .setLevel now => .ok (k.setLevel now)
  | .saveLevel =>
    .ok ((k.setOldLevels (k.level :: k.oldLevels k.currentThread)).setLevel .intOff)
  | .restoreLevel =>
    match k.oldLevels k.currentThread with
    | [] => .error .impossible
    | old :: olds => .ok ((k.setOldLevels olds).setLevel old)
  -- what a tick does depends on the devices: it is the event `tick`
  | .oneTick => .error .impossible
  | .p s => .ok (k.takeOrSleep s)
  | .pRetry s => .ok ((k.resumed s).takeOrSleep s)
  -- `leave` keeps the account of who is inside a lock; the source has no such thing
  | .v s => do
    let k ← k.increment s
    return k.leave s
  | .destroy s => .ok { k.setSemaphore s { k.semaphore s with queue := [] } with
      readyList := k.readyList ++ (k.semaphore s).queue }
  | .setOwner l => .ok (k.setLock l { k.lock l with
      isHeld := true
      owner := some k.currentThread
      holding := k.currentThread :: (k.lock l).holding })
  -- `holding` is left alone: the `V` before it has taken the thread out
  | .clearOwner l => .ok (k.setLock l { k.lock l with isHeld := false, owner := none })
  | .appendHilos c => .ok { k with
      hilos := Function.update k.hilos c (k.hilos c ++ [k.currentThread]) }
  | .signal c =>
    match k.hilos c with
    | [] => .ok k
    | thread :: hilos => .ok ({ k with
        hilos := Function.update k.hilos c hilos }.readyToRun thread)
  | .broadcast c => .ok { k with
      hilos := Function.update k.hilos c []
      readyList := k.readyList ++ k.hilos c }
  | .readyToRun t => .ok (k.readyToRun t)
  | .yieldCPU =>
    -- the thread is put on the list only if there is another one to run
    match k.readyList with
    | [] => .ok k
    | nextThread :: readyList =>
      .ok (({ k with readyList := readyList }.readyToRun k.currentThread).run nextThread)
  | .sleep =>
    -- with nobody ready `Sleep` loops in `Idle`, which is the event `idle`
    if k.level = .intOn then .error .assertion
    else match k.readyList with
      | [] => .error .impossible
      | nextThread :: readyList => .ok ({ k with readyList := readyList }.run nextThread)
  | .toBeDestroyed => .ok { k with threadToBeDestroyed := some k.currentThread }

/-- What a thread that is in no routine can call. -/
inductive Call where
  | setLevel (now : IntStatus)
  | p (n : ℕ)
  | v (n : ℕ)
  | destroy (n : ℕ)
  | acquire (l : ℕ)
  | release (l : ℕ)
  | wait (c l : ℕ)
  | signal (c : ℕ)
  | broadcast (c : ℕ)
  | yield
  | sleep
  | fork (t : ℕ)
  | finish
  /-- A user instruction, after which the machine calls `OneTick`. -/
  | userInstruction
deriving DecidableEq, Repr

def Call.routine : Call → List Instr
  | .setLevel now => [.setLevel now]
  | .p n => semaphoreP (.user n)
  | .v n => semaphoreV (.user n)
  | .destroy n => semaphoreDestroy (.user n)
  | .acquire l => lockAcquire l
  | .release l => lockRelease l
  | .wait c l => conditionWait c l
  | .signal c => conditionSignal c
  | .broadcast c => conditionBroadcast c
  | .yield => threadYield
  | .sleep => [.sleep]
  | .fork t => threadFork t
  | .finish => threadFinish
  | .userInstruction => [.oneTick]

/-- `new Thread` and `Thread::StackAllocate`. -/
def newThread (k : Kernel) (t : ℕ) : Except Stop Kernel :=
  if k.created t then .error .impossible
  else .ok { k with
    created := Function.update k.created t true
    code := Function.update k.code t threadRoot }

/-- What a call does before the routine: the thread to be forked is made first. -/
def prepare (k : Kernel) : Call → Except Stop Kernel
  | .fork t => k.newThread t
  | _ => .ok k

/-- What can happen. -/
inductive Event where
  /-- The running thread calls a routine. -/
  | call (c : Call)
  /-- It executes its next instruction. -/
  | exec
  /-- It is in `OneTick`, and these handlers are due. -/
  | tick (handlers : List Handler)
  /-- It is in `Sleep` with no thread ready, and these handlers are due. -/
  | idle (handlers : List Handler)
deriving DecidableEq, Repr

/-- The kernel with the rest of its code for the running thread. -/
def withRest (k : Kernel) (rest : List Instr) : Kernel :=
  { k with code := Function.update k.code k.currentThread rest }

def step (k : Kernel) : Event → Except Stop Kernel
  | .call c =>
    -- a thread calls when it has run the code of the call before
    match k.code k.currentThread with
    | [] => do
      let k ← k.prepare c
      return k.push c.routine
    | _ :: _ => .error .impossible
  | .exec =>
    match k.code k.currentThread with
    | [] => .error .impossible
    | instr :: rest => (k.withRest rest).exec instr
  | .tick handlers =>
    match k.code k.currentThread with
    | .oneTick :: rest => (k.withRest rest).tick handlers
    | _ => .error .impossible
  | .idle handlers =>
    match k.code k.currentThread, k.readyList with
    | .sleep :: _, [] => k.idle handlers
    | _, _ => .error .impossible

/-- The state in which the threads are started: nobody waits for anything, and every lock is
free. -/
structure Booted (k : Kernel) : Prop where
  readyList : k.readyList = []
  semaphore : ∀ s, (k.semaphore s).queue = [] ∧ (k.semaphore s).completedP = 0 ∧
    (k.semaphore s).completedV = 0 ∧ (k.semaphore s).woken = []
  lockSemaphore : ∀ l, (k.semaphore (.lock l)).value = 1
  lock : ∀ l, k.lock l = ⟨false, none, [], []⟩
  hilos : ∀ c, k.hilos c = []
  code : ∀ t, k.code t = []
  oldLevels : ∀ t, k.oldLevels t = []
  created : k.created = Function.update (fun _ => false) k.currentThread true
  started : k.started = Function.update (fun _ => false) k.currentThread true
  threadToBeDestroyed : k.threadToBeDestroyed = none
  deleted : k.deleted = []
  yieldOnReturn : k.yieldOnReturn = false

/-- The kernel with the given semaphores and thread `0` running. -/
def boot (values : ℕ → ℤ) : Kernel where
  currentThread := 0
  level := .intOn
  yieldOnReturn := false
  readyList := []
  semaphore
    | .user n => ⟨values n, [], 0, 0, []⟩
    | .lock _ => ⟨1, [], 0, 0, []⟩
  lock := fun _ => ⟨false, none, [], []⟩
  hilos := fun _ => []
  code := fun _ => []
  oldLevels := fun _ => []
  created := Function.update (fun _ => false) 0 true
  started := Function.update (fun _ => false) 0 true
  threadToBeDestroyed := none
  deleted := []

theorem boot_booted (values : ℕ → ℤ) : Booted (boot values) := by
  refine ⟨rfl, fun s => ?_, fun _ => rfl, fun _ => rfl, fun _ => rfl, fun _ => rfl, fun _ => rfl,
    rfl, rfl, rfl, rfl, rfl⟩
  cases s with
  | user n => exact ⟨rfl, rfl, rfl, rfl⟩
  | lock l => exact ⟨rfl, rfl, rfl, rfl⟩

end Kernel
end NachOS
