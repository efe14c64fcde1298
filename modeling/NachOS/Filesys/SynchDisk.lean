import NachOS.Threads.Monitors
import NachOS.Filesys.FileHeader

/-!
# The synchronous disk

`Disk` (`disk.cc`) starts an operation at once and says with a `DiskInt` interrupt, later, that it
is done; it takes one request at a time. `SynchDisk` (`synchdisk.cc`) waits for the interrupt at a
semaphore, and keeps a lock over request and wait. When the interrupt comes is left to the
schedule, so the latency that the disk computes for it is not part of the state.

The host file is the disk of the file system's model, where a sector is read and written in one
go: what is proved here is that threads which share the disk see no more than that.
-/

namespace NachOS

open PartialRun

/-- `Disk`. -/
structure DiskDevice where
  active : Bool
  /-- The host file. -/
  sectors : Disk
  /-- The requests whose `DiskInt` is pending, by number, the first due first. -/
  pending : List ℕ

namespace DiskDevice

/-- The end of both requests: `active = true`, and `interrupt->Schedule`. -/
def schedule (disk : DiskDevice) (number : ℕ) : DiskDevice :=
  { disk with active := true, pending := disk.pending ++ [number] }

/-- `Disk::ReadRequest`, the request with this number. -/
def readRequest (disk : DiskDevice) (number : ℕ) (sectorNumber : ℤ) :
    Except Stop (Bytes × DiskDevice) :=
  if disk.active then .error .assertion
  else match disk.sectors.readSector sectorNumber with
    | .error _ => .error .assertion
    | .ok data => .ok (data, disk.schedule number)

/-- `Disk::WriteRequest`. -/
def writeRequest (disk : DiskDevice) (number : ℕ) (sectorNumber : ℤ) (data : Bytes) :
    Except Stop (Bytes × DiskDevice) :=
  if disk.active then .error .assertion
  else match disk.sectors.writeSector sectorNumber data with
    | .error _ => .error .assertion
    | .ok sectors => .ok (data, { disk with sectors := sectors }.schedule number)

/-- `Disk::HandleInterrupt` for so many interrupts, without the call of the handler. The numbers
of the requests are added to those completed. -/
def handleInterrupt (disk : DiskDevice) (completed : List ℕ) :
    ℕ → Except Stop (DiskDevice × List ℕ)
  | 0 => .ok (disk, completed)
  | n + 1 =>
    match disk.pending with
    | [] => .error .impossible
    | number :: pending =>
      { disk with active := false, pending := pending }.handleInterrupt (completed ++ [number]) n

end DiskDevice

/-- The lock and the semaphore of a synchronous disk. -/
structure SynchDisk where
  lock : ℕ
  semaphore : ℕ

namespace SynchDisk

/-- A call of `ReadSector` or `WriteSector`. -/
inductive Call where
  | read (sectorNumber : ℤ)
  | write (sectorNumber : ℤ) (data : Bytes)

/-- Where a thread is in a method. The number is that of its request, and the data is what is in
the buffer of the call. -/
inductive Method where
  | none
  /-- In `lock->Acquire()`. -/
  | acquire (call : Call)
  /-- In `semaphore->P()`. -/
  | wait (call : Call) (number : ℕ) (data : Bytes)
  /-- In `lock->Release()`. -/
  | release (call : Call) (number : ℕ) (data : Bytes)

/-- A request to the disk, and what is in the buffer after it. -/
structure Request where
  thread : ℕ
  call : Call
  data : Bytes

/-- A synchronous disk, the threads that use it, and what has happened to it. -/
structure State where
  kernel : Kernel
  disk : DiskDevice
  method : ℕ → Method
  /-- The requests to the disk, in this order. -/
  requests : List Request
  /-- The requests whose interrupt has been handled. -/
  completed : List ℕ
  /-- The calls that have returned, with the numbers of their requests. -/
  returned : List (ℕ × Request)

/-- What can happen. -/
inductive Event where
  /-- Something that is not part of a method, or the next instruction of the routine a method
  has called. A `V` of the semaphore by a device is that of the handler of a `DiskInt`. -/
  | kernel (e : Kernel.Event)
  /-- The running thread calls a method. -/
  | call (call : Call)
  /-- The running thread is back from the routine that its method has called, and goes on. -/
  | proceed

/-- A call that has to do with the lock or the semaphore. -/
def Uses (q : SynchDisk) : Kernel.Call → Prop
  | .acquire l | .release l | .wait _ l => l = q.lock
  | .p n | .v n | .destroy n => n = q.semaphore
  | _ => False

instance (q : SynchDisk) : (c : Kernel.Call) → Decidable (q.Uses c)
  | .acquire _ | .release _ | .wait _ _ | .p _ | .v _ | .destroy _ =>
    inferInstanceAs (Decidable (_ = _))
  | .setLevel _ | .signal _ | .broadcast _ | .yield | .sleep | .fork _ | .finish
  | .userInstruction => isFalse id

section

variable (q : SynchDisk)

def Method.role : Method → Kernel.Role
  | .none => .outside
  | .acquire _ => .acquiring
  | .wait _ _ _ => .holding
  | .release _ _ _ => .releasing

/-- The running thread, in no method, calls a routine that does not use the disk. -/
def Foreign (s : State) : Kernel.Event → Prop
  | .call c => (s.method s.kernel.currentThread).role = .outside ∧ ¬ q.Uses c
  | _ => True

instance (s : State) : (e : Kernel.Event) → Decidable (q.Foreign s e)
  | .call _ => inferInstanceAs (Decidable (_ ∧ _))
  | .exec | .tick _ | .idle _ => isTrue trivial

/-- The running thread calls a routine of the lock or the semaphore. -/
def callRoutine (s : State) (c : Kernel.Call) (method : Method) : Except Stop State := do
  let kernel ← s.kernel.step (.call c)
  return { s with
    kernel := kernel
    method := Function.update s.method s.kernel.currentThread method }

/-- The request of a call, and what is in its buffer after it. -/
def request (disk : DiskDevice) (number : ℕ) : Call → Except Stop (Bytes × DiskDevice)
  | .read sectorNumber => disk.readRequest number sectorNumber
  | .write sectorNumber data => disk.writeRequest number sectorNumber data

/-- The rest of `ReadSector` and `WriteSector`, up to the next call. -/
def proceed (s : State) : Except Stop State :=
  match s.kernel.code s.kernel.currentThread with
  | _ :: _ => .error .impossible
  | [] =>
    match s.method s.kernel.currentThread with
    | .none => .error .impossible
    -- the lock is held: the disk takes one request at a time
    | .acquire call => do
      let (data, disk) ← request s.disk s.requests.length call
      callRoutine { s with
          disk := disk
          requests := s.requests ++ [⟨s.kernel.currentThread, call, data⟩] }
        (.p q.semaphore) (.wait call s.requests.length data)
    | .wait call number data => callRoutine s (.release q.lock) (.release call number data)
    | .release call number data => .ok { s with
        method := Function.update s.method s.kernel.currentThread .none
        returned := s.returned ++ [(number, ⟨s.kernel.currentThread, call, data⟩)] }

def step (s : State) : Event → Except Stop State
  | .kernel e =>
    if q.Foreign s e then do
      let kernel ← s.kernel.step e
      let (disk, completed) ← s.disk.handleInterrupt s.completed (e.deviceV q.semaphore)
      return { s with kernel := kernel, disk := disk, completed := completed }
    else .error .impossible
  | .call c =>
    match s.method s.kernel.currentThread with
    | .none => callRoutine s (.acquire q.lock) (.acquire c)
    | _ => .error .impossible
  | .proceed => q.proceed s

/-- The disk that has just been made, and that nobody uses yet. -/
structure Booted (s : State) : Prop where
  kernel : s.kernel.Booted
  semaphore : (s.kernel.semaphore (.user q.semaphore)).value = 0
  active : s.disk.active = false
  pending : s.disk.pending = []
  method : ∀ t, s.method t = .none
  requests : s.requests = []
  completed : s.completed = []
  returned : s.returned = []

/-- The sector of the call is one of the disk's. -/
def Call.Valid : Call → Prop
  | .read sectorNumber | .write sectorNumber _ => 0 ≤ sectorNumber ∧ sectorNumber < numSectors

/-- Methods are called with sectors of the disk. -/
def Event.Valid : Event → Prop
  | .call c => c.Valid
  | _ => True

instance : (c : Call) → Decidable c.Valid
  | .read _ | .write _ _ => inferInstanceAs (Decidable (_ ∧ _))

instance : (e : Event) → Decidable e.Valid
  | .call c => inferInstanceAs (Decidable c.Valid)
  | .kernel _ | .proceed => isTrue trivial

/-! ## What the sectors should hold -/

/-- What the call writes to the sector. -/
def Call.written? (sector : ℤ) : Call → Option Bytes
  | .write sectorNumber data => if sectorNumber = sector then some data else Option.none
  | .read _ => Option.none

/-- What the last of the requests that writes the sector has written. -/
def lastWritten (initial : Disk) (requests : List Request) (sector : ℤ) : Bytes :=
  (requests.filterMap fun r => r.call.written? sector).getLastD (initial sector.toNat)

/-- One more request: a write sets its sector, a read none. -/
theorem lastWritten_append (initial : Disk) (requests : List Request) (r : Request) (sector : ℤ) :
    lastWritten initial (requests ++ [r]) sector =
      (r.call.written? sector).getD (lastWritten initial requests sector) := by
  unfold lastWritten
  rw [List.filterMap_append]
  cases hwritten : r.call.written? sector with
  | none => simp [hwritten]
  | some data => simp [hwritten]

/-! ## The invariant -/

/-- The thread is in `semaphore->P()` after this request, alone, and has yet to take the unit. -/
structure Awaits (s : State) (t number : ℕ) : Prop where
  method : ∃ call data, s.method t = .wait call number data
  tests : Kernel.testsLeft (.user q.semaphore) (s.kernel.code t) = 1
  others : ∀ u, u ≠ t → Kernel.testsLeft (.user q.semaphore) (s.kernel.code u) = 0

/-- What the disk and the semaphore are like. -/
inductive Phase (s : State) : Prop where
  | idle (hactive : s.disk.active = false) (hpending : s.disk.pending = [])
    (hvalue : (s.kernel.semaphore (.user q.semaphore)).value = 0)
    (htests : ∀ t, Kernel.testsLeft (.user q.semaphore) (s.kernel.code t) = 0)
  | busy {t number : ℕ} (hawaits : q.Awaits s t number) (hpending : s.disk.pending = [number])
    (hvalue : (s.kernel.semaphore (.user q.semaphore)).value = 0)
  | done {t number : ℕ} (hawaits : q.Awaits s t number) (hactive : s.disk.active = false)
    (hpending : s.disk.pending = []) (hcompleted : number ∈ s.completed)
    (hvalue : (s.kernel.semaphore (.user q.semaphore)).value = 1)

/-- The thread is in a method and has made this request. -/
def Requested (m : Method) (call : Call) (number : ℕ) (data : Bytes) : Prop :=
  m = .wait call number data ∨ m = .release call number data

/-- The requests that have been made, and what the sectors hold. -/
structure Ledger (initial : Disk) (s : State) : Prop where
  own : ∀ t call number data, Requested (s.method t) call number data →
    s.requests[number]? = some ⟨t, call, data⟩
  returned : ∀ number r, (number, r) ∈ s.returned →
    number ∈ s.completed ∧ s.requests[number]? = some r
  valid : ∀ t call, s.method t = .acquire call → call.Valid
  contents : ∀ sector : ℤ, 0 ≤ sector → Bytes.EqUpTo sectorSize (s.disk.sectors sector.toNat)
    (lastWritten initial s.requests sector)
  reads : ∀ (number t : ℕ) (sector : ℤ) (data : Bytes),
    s.requests[number]? = some ⟨t, .read sector, data⟩ →
    Bytes.EqUpTo sectorSize data (lastWritten initial (s.requests.take number) sector)

structure Consistent (initial : Disk) (s : State) : Prop where
  monitor : Kernel.Monitor q.lock (fun t => (s.method t).role) s.kernel
  quiet : ∀ t, .v (.user q.semaphore) ∉ s.kernel.code t
  phase : q.Phase s
  completed : ∀ t call number data, Requested (s.method t) call number data →
    Kernel.testsLeft (.user q.semaphore) (s.kernel.code t) = 0 → number ∈ s.completed
  ledger : Ledger initial s

end

end SynchDisk

/-! ## The interrupts -/

namespace DiskDevice

variable {disk : DiskDevice} {completed : List ℕ} {n : ℕ} {r : DiskDevice × List ℕ}

/-- With nothing pending the disk interrupts nobody. -/
theorem handleInterrupt_none (hpending : disk.pending = [])
    (h : disk.handleInterrupt completed n = .ok r) : n = 0 ∧ r = (disk, completed) := by
  cases n with
  | zero => exact ⟨rfl, (Except.ok.inj h).symm⟩
  | succ n =>
    rw [handleInterrupt, hpending] at h
    cases h

/-- With one request pending there is no interrupt, or the one that completes it. -/
theorem handleInterrupt_single {number : ℕ} (hpending : disk.pending = [number])
    (h : disk.handleInterrupt completed n = .ok r) : (n = 0 ∧ r = (disk, completed)) ∨
      (n = 1 ∧ r = ({ disk with active := false, pending := [] }, completed ++ [number])) := by
  cases n with
  | zero => exact .inl ⟨rfl, (Except.ok.inj h).symm⟩
  | succ n =>
    rw [handleInterrupt, hpending] at h
    obtain ⟨rfl, hr⟩ := handleInterrupt_none rfl h
    exact .inr ⟨rfl, hr⟩

/-- The interrupt does not change the sectors, and what is completed stays so. -/
theorem handleInterrupt_frame (h : disk.handleInterrupt completed n = .ok r) :
    r.1.sectors = disk.sectors ∧ ∀ number ∈ completed, number ∈ r.2 := by
  induction n generalizing disk completed with
  | zero =>
    cases h
    exact ⟨rfl, fun _ hmem => hmem⟩
  | succ n ih =>
    rw [handleInterrupt] at h
    split at h
    · cases h
    · obtain ⟨hsectors, hkept⟩ := ih h
      exact ⟨hsectors, fun number hmem => hkept number (List.mem_append_left _ hmem)⟩

end DiskDevice

namespace SynchDisk

section

variable {q : SynchDisk} {s s' : State} {initial : Disk} {e : Kernel.Event} {k' : Kernel}

/-! ## Steps of the kernel -/

theorem not_usesLock {c : Kernel.Call} (huses : ¬ q.Uses c) : ¬ Kernel.UsesLock q.lock c := by
  cases c with
  | acquire l => exact huses
  | release l => exact huses
  | wait n l => exact huses
  | _ => exact id

/-- What a step outside the methods, or in a routine that a method has called, does to the tests
and the `V` operations of the semaphore. -/
structure Outer (q : SynchDisk) (s : State) (e : Kernel.Event) (k' : Kernel) : Prop where
  step : s.kernel.step e = .ok k'
  silent : ∀ t, (s.method t).role ≠ .outside → s.kernel.Silent t e
  uses : ∀ c, e = .call c → ¬ q.Uses c

theorem Foreign.outer (hforeign : q.Foreign s e) (h : s.kernel.step e = .ok k') :
    Outer q s e k' := by
  refine ⟨h, fun t ht hcur c he => ?_, fun c he => ?_⟩
  · subst he
    rw [← hcur] at ht
    exact ht hforeign.1
  · subst he
    exact hforeign.2

namespace Outer

variable (h : Outer q s e k') (hm : Kernel.Monitor q.lock (fun t => (s.method t).role) s.kernel)

include h hm

/-- No thread gets a `V` on the disk's semaphore. -/
theorem quiet (hquiet : ∀ t, .v (.user q.semaphore) ∉ s.kernel.code t) (t : ℕ) :
    .v (.user q.semaphore) ∉ k'.code t := by
  refine Kernel.step_quiet hm.placed h.step (fun c he => ?_) hquiet t
  rintro rfl
  exact h.uses _ he rfl

/-- No test comes into the code of a thread that has none. -/
theorem tests_zero {t : ℕ}
    (hzero : Kernel.testsLeft (.user q.semaphore) (s.kernel.code t) = 0) :
    Kernel.testsLeft (.user q.semaphore) (k'.code t) = 0 := by
  refine Kernel.step_testsLeft_zero hm.placed h.step (fun c he => ?_) hzero
  rintro rfl
  exact h.uses _ he rfl

theorem awaits {t number : ℕ} (hawaits : q.Awaits s t number)
    (hnot : ¬ (t = s.kernel.currentThread ∧
      Kernel.TakesUnit (.user q.semaphore) s.kernel e)) (disk : DiskDevice)
    (completed : List ℕ) :
    q.Awaits { s with kernel := k', disk := disk, completed := completed } t number := by
  obtain ⟨⟨call, data, hmethod⟩, htests, hothers⟩ := hawaits
  have hrole : (s.method t).role ≠ .outside := by simp [hmethod, Method.role]
  refine ⟨⟨call, data, hmethod⟩, ?_, fun u hu => h.tests_zero hm (hothers u hu)⟩
  rcases Kernel.step_testsLeft hm.placed h.step (hm.created t hrole) (h.silent t hrole) with
    ⟨ht, htakes, -⟩ | ⟨-, hsame⟩
  · exact absurd ⟨ht, htakes⟩ hnot
  · exact hsame.trans htests

end Outer

/-- A step of the kernel and its interrupts keep the phase of the disk. -/
theorem Phase.kernel {disk : DiskDevice} {completed : List ℕ} (hphase : q.Phase s)
    (hm : Kernel.Monitor q.lock (fun t => (s.method t).role) s.kernel)
    (hquiet : ∀ t, .v (.user q.semaphore) ∉ s.kernel.code t) (h : Outer q s e k')
    (hdisk : s.disk.handleInterrupt s.completed (e.deviceV q.semaphore) =
      .ok (disk, completed)) :
    q.Phase { s with kernel := k', disk := disk, completed := completed } := by
  have hvalue := Kernel.step_value h.step fun hv => hquiet _ hv.mem
  cases hphase with
  | idle hactive hpending hzero htests =>
    obtain ⟨hnone, hr⟩ := DiskDevice.handleInterrupt_none hpending hdisk
    cases hr
    refine .idle hactive hpending ?_ fun t => h.tests_zero hm (htests t)
    rcases hvalue with ⟨htakes, -⟩ | ⟨-, hvalue⟩
    · exact absurd (htests _) htakes.testsLeft_ne_zero
    · rw [hvalue, hzero, hnone]
      rfl
  | @busy t number hawaits hpending hzero =>
    -- the value is `0`, so the unit can only come from the disk
    have hnot : ¬ Kernel.TakesUnit (.user q.semaphore) s.kernel e := fun htakes => htakes.2 hzero
    have hvalue : (k'.semaphore (.user q.semaphore)).value = e.deviceV q.semaphore := by
      rcases hvalue with ⟨htakes, -⟩ | ⟨-, hvalue⟩
      · exact absurd htakes hnot
      · rw [hvalue, hzero, Int.zero_add]
    have hawaits := h.awaits hm hawaits (fun ht => hnot ht.2) disk completed
    rcases DiskDevice.handleInterrupt_single hpending hdisk with ⟨hnone, hr⟩ | ⟨hone, hr⟩
    · cases hr
      refine .busy hawaits hpending ?_
      rw [hvalue, hnone]
      rfl
    · cases hr
      refine .done hawaits rfl rfl (List.mem_append_right _ List.mem_cons_self) ?_
      rw [hvalue, hone]
      rfl
  | @done t number hawaits hactive hpending hcompleted hone =>
    obtain ⟨hnone, hr⟩ := DiskDevice.handleInterrupt_none hpending hdisk
    cases hr
    rcases hvalue with ⟨htakes, -, hvalue⟩ | ⟨hnot, hvalue⟩
    · -- the thread that waits is the one that takes the unit
      have hcur : s.kernel.currentThread = t := by
        by_contra hne
        exact htakes.testsLeft_ne_zero (hawaits.others _ hne)
      refine .idle hactive hpending ?_ fun u => ?_
      · rw [hvalue, hone]
        rfl
      · by_cases hu : u = t
        · obtain ⟨⟨call, data, hmethod⟩, htests, -⟩ := hawaits
          have hrole : (s.method t).role ≠ .outside := by simp [hmethod, Method.role]
          rw [hu]
          rcases Kernel.step_testsLeft (s := .user q.semaphore) hm.placed h.step
            (hm.created t hrole) (h.silent t hrole) with ⟨-, -, hless⟩ | ⟨hnot, -⟩
          · show Kernel.testsLeft (.user q.semaphore) (k'.code t) = 0
            omega
          · exact absurd ⟨hcur.symm, htakes⟩ hnot
        · exact h.tests_zero hm (hawaits.others u hu)
    · refine .done (h.awaits hm hawaits (fun ht => hnot ht.2) _ _) hactive hpending hcompleted ?_
      rw [hvalue, hone, hnone]
      rfl

theorem Requested.role {m : Method} {call : Call} {number : ℕ} {data : Bytes}
    (h : Requested m call number data) : m.role ≠ .outside := by
  rcases h with rfl | rfl
  · simp [Method.role]
  · simp [Method.role]

/-- A thread that takes the unit waits for the request that has been completed. -/
theorem Consistent.takes (hs : q.Consistent initial s)
    (htakes : Kernel.TakesUnit (.user q.semaphore) s.kernel e) {call : Call} {number : ℕ}
    {data : Bytes} (h : Requested (s.method s.kernel.currentThread) call number data) :
    number ∈ s.completed := by
  have htests := htakes.testsLeft_ne_zero
  cases hs.phase with
  | idle _ _ _ hnone => exact absurd (hnone _) htests
  | busy _ _ hzero => exact absurd hzero htakes.2
  | @done t number' hawaits _ _ hcompleted _ =>
    have hcur : s.kernel.currentThread = t := by
      by_contra hne
      exact htests (hawaits.others _ hne)
    obtain ⟨call', data', hmethod⟩ := hawaits.method
    rw [hcur, Requested, hmethod] at h
    rcases h with h | h
    · cases h
      exact hcompleted
    · cases h

theorem Consistent.kernel {disk : DiskDevice} {completed : List ℕ}
    (hs : q.Consistent initial s) (hforeign : q.Foreign s e) (h : s.kernel.step e = .ok k')
    (hdisk : s.disk.handleInterrupt s.completed (e.deviceV q.semaphore) =
      .ok (disk, completed)) :
    q.Consistent initial { s with kernel := k', disk := disk, completed := completed } := by
  have houter := hforeign.outer h
  obtain ⟨hsectors, hkept⟩ := DiskDevice.handleInterrupt_frame hdisk
  refine ⟨?_, houter.quiet hs.monitor hs.quiet, hs.phase.kernel hs.monitor hs.quiet houter hdisk,
    fun t call number data hreq htests => hkept number ?_, ?_⟩
  · exact hs.monitor.step houter.silent (fun c he => not_usesLock (houter.uses c he)) h
  · by_cases hold : Kernel.testsLeft (.user q.semaphore) (s.kernel.code t) = 0
    · exact hs.completed t call number data hreq hold
    · have hrole := hreq.role
      rcases Kernel.step_testsLeft hs.monitor.placed h (hs.monitor.created t hrole)
        (houter.silent t hrole) with ⟨rfl, htakes, -⟩ | ⟨-, hsame⟩
      · exact hs.takes htakes hreq
      · exact absurd (hsame.symm.trans htests) hold
  · refine ⟨hs.ledger.own, fun number r hr => ?_, hs.ledger.valid, fun sector hsector => ?_,
      hs.ledger.reads⟩
    · obtain ⟨hmem, hr⟩ := hs.ledger.returned number r hr
      exact ⟨hkept number hmem, hr⟩
    · show Bytes.EqUpTo sectorSize (disk.sectors sector.toNat) _
      rw [hsectors]
      exact hs.ledger.contents sector hsector

/-! ## Steps of the methods -/

theorem callRoutine_ok {c : Kernel.Call} {m : Method} (h : callRoutine s c m = .ok s') :
    s.kernel.step (.call c) = .ok s'.kernel ∧
      s' = { s with
        kernel := s'.kernel
        method := Function.update s.method s.kernel.currentThread m } := by
  obtain ⟨k', hst, h⟩ := bind_ok_iff.mp h
  rw [← pure_ok_iff.mp h]
  exact ⟨hst, rfl⟩

/-- The roles after a call. -/
theorem role_update (method : ℕ → Method) (t : ℕ) (m : Method) :
    (fun u => (Function.update method t m u).role) =
      Function.update (fun u => (method u).role) t m.role := by
  funext u
  by_cases hu : u = t
  · rw [hu, Function.update_self, Function.update_self]
  · rw [Function.update_of_ne hu, Function.update_of_ne hu]

/-- The running thread calls a routine of the lock: disk and semaphore stay as they are. -/
theorem Phase.call {c : Kernel.Call} {m : Method} (hphase : q.Phase s)
    (hm : Kernel.Monitor q.lock (fun t => (s.method t).role) s.kernel)
    (hcalled : s.kernel.Called c k')
    (htests : Kernel.testsLeft (.user q.semaphore) c.routine = 0) :
    q.Phase { s with
      kernel := k'
      method := Function.update s.method s.kernel.currentThread m } := by
  have hsem : k'.semaphore = s.kernel.semaphore := by rw [hcalled.frame]
  have hzero : ∀ t, Kernel.testsLeft (.user q.semaphore) (s.kernel.code t) = 0 →
      Kernel.testsLeft (.user q.semaphore) (k'.code t) = 0 := by
    intro t ht
    by_cases hcur : t = s.kernel.currentThread
    · rw [hcur, hcalled.code]
      exact htests
    · exact hcalled.testsLeft_zero hcur ht
  have hawaits : ∀ {t number}, q.Awaits s t number → q.Awaits { s with
      kernel := k'
      method := Function.update s.method s.kernel.currentThread m } t number := by
    intro t number hawaits
    obtain ⟨⟨call, data, hmethod⟩, hone, hothers⟩ := hawaits
    have hne : t ≠ s.kernel.currentThread := by
      rintro rfl
      rw [hcalled.outside] at hone
      cases hone
    have hcode := hcalled.code_eq hne (hm.created t (by simp [hmethod, Method.role]))
    refine ⟨⟨call, data, ?_⟩, ?_, fun u hu => hzero u (hothers u hu)⟩
    · rw [← hmethod]
      exact Function.update_of_ne hne _ _
    · show Kernel.testsLeft _ (k'.code t) = 1
      rw [hcode]
      exact hone
  cases hphase with
  | idle hactive hpending hvalue hnone =>
    exact .idle hactive hpending (by rw [hsem]; exact hvalue) fun t => hzero t (hnone t)
  | busy h hpending hvalue => exact .busy (hawaits h) hpending (by rw [hsem]; exact hvalue)
  | done h hactive hpending hcompleted hvalue =>
    exact .done (hawaits h) hactive hpending hcompleted (by rw [hsem]; exact hvalue)

/-- A call between the requests changes no account. -/
theorem Ledger.call {m : Method} (hl : Ledger initial s)
    (hreq : ∀ call number data, Requested m call number data →
      Requested (s.method s.kernel.currentThread) call number data)
    (hvalid : ∀ call, m = .acquire call → call.Valid) : Ledger initial { s with
      kernel := k'
      method := Function.update s.method s.kernel.currentThread m } := by
  refine ⟨fun t call number data h => ?_, hl.returned, fun t call h => ?_, hl.contents, hl.reads⟩
  · by_cases ht : t = s.kernel.currentThread
    · subst ht
      have h : Requested (Function.update s.method s.kernel.currentThread m _) _ _ _ := h
      rw [Function.update_self] at h
      exact hl.own _ call number data (hreq call number data h)
    · have h : Requested (Function.update s.method s.kernel.currentThread m t) _ _ _ := h
      rw [Function.update_of_ne ht] at h
      exact hl.own t call number data h
  · have h : Function.update s.method s.kernel.currentThread m t = .acquire call := h
    by_cases ht : t = s.kernel.currentThread
    · rw [ht, Function.update_self] at h
      exact hvalid call h
    · rw [Function.update_of_ne ht] at h
      exact hl.valid t call h

/-- A call of a routine of the lock. -/
theorem lockCall_consistent {c : Kernel.Call} {m : Method} (hs : q.Consistent initial s)
    (henters : Kernel.Enters q.lock c m.role s.kernel)
    (hplain : Kernel.testsLeft (.user q.semaphore) c.routine = 0 ∧
      .v (.user q.semaphore) ∉ c.routine)
    (hreq : ∀ call number data, Requested m call number data →
      Requested (s.method s.kernel.currentThread) call number data)
    (hvalid : ∀ call, m = .acquire call → call.Valid) (h : callRoutine s c m = .ok s') :
    q.Consistent initial s' := by
  obtain ⟨hst, hs'⟩ := callRoutine_ok h
  have hcalled := Kernel.call_called hs.monitor.placed.current hst
  have hmonitor := hs.monitor.call henters hst
  generalize s'.kernel = k' at hst hs' hcalled hmonitor
  subst hs'
  rw [← role_update] at hmonitor
  refine ⟨hmonitor, fun t hmem => ?_, hs.phase.call hs.monitor hcalled hplain.1,
    fun t call number data hr htests => ?_, hs.ledger.call hreq hvalid⟩
  · by_cases ht : t = s.kernel.currentThread
    · subst ht
      have hmem : _ ∈ k'.code s.kernel.currentThread := hmem
      rw [hcalled.code] at hmem
      exact hplain.2 hmem
    · exact hs.quiet t ((hcalled.mem_code ht rfl).1 hmem)
  · have hr : Requested (Function.update s.method s.kernel.currentThread m t) _ _ _ := hr
    by_cases ht : t = s.kernel.currentThread
    · subst ht
      rw [Function.update_self] at hr
      refine hs.completed _ call number data (hreq call number data hr) ?_
      rw [hcalled.outside]
      rfl
    · rw [Function.update_of_ne ht] at hr
      have hcode := hcalled.code_eq ht (hs.monitor.created t hr.role)
      have htests : Kernel.testsLeft _ (k'.code t) = 0 := htests
      rw [hcode] at htests
      exact hs.completed t call number data hr htests

/-- The start of a method. -/
theorem acquire_consistent {call : Call} (hs : q.Consistent initial s) (hvalid : call.Valid)
    (h : callRoutine s (.acquire q.lock) (.acquire call) = .ok s') :
    q.Consistent initial s' := by
  refine lockCall_consistent hs Kernel.enters_acquire ?_ (fun _ _ _ hr => ?_) ?_ h
  · simp [Kernel.Call.routine, lockAcquire, semaphoreP, Kernel.testsLeft]
  · rcases hr with hr | hr
    · cases hr
    · cases hr
  · intro call' heq
    cases heq
    exact hvalid

/-- The end of the wait: the request has been completed. -/
theorem release_consistent {call : Call} {number : ℕ} {data : Bytes}
    (hs : q.Consistent initial s) (hcode : s.kernel.code s.kernel.currentThread = [])
    (hwait : s.method s.kernel.currentThread = .wait call number data)
    (h : callRoutine s (.release q.lock) (.release call number data) = .ok s') :
    q.Consistent initial s' := by
  have hholding : s.kernel.currentThread ∈ (s.kernel.lock q.lock).holding := by
    refine hs.monitor.mem_holding hcode (.inr ?_)
    rw [hwait]
    rfl
  refine lockCall_consistent hs (Kernel.enters_release hholding) ?_ (fun _ _ _ hr => ?_) ?_ h
  · simp [Kernel.Call.routine, lockRelease, semaphoreV, Kernel.testsLeft]
  · rcases hr with hr | hr
    · cases hr
    · cases hr
      exact .inl hwait
  · intro call' heq
    cases heq

/-- The return from a method. -/
theorem return_consistent {call : Call} {number : ℕ} {data : Bytes}
    (hs : q.Consistent initial s) (hcode : s.kernel.code s.kernel.currentThread = [])
    (hrelease : s.method s.kernel.currentThread = .release call number data) :
    q.Consistent initial { s with
      method := Function.update s.method s.kernel.currentThread .none
      returned := s.returned ++ [(number, ⟨s.kernel.currentThread, call, data⟩)] } := by
  have hreq : Requested (s.method s.kernel.currentThread) call number data := .inr hrelease
  have htests : Kernel.testsLeft (.user q.semaphore) (s.kernel.code s.kernel.currentThread) =
      0 := by
    rw [hcode]
    rfl
  have hcompleted := hs.completed _ call number data hreq htests
  -- the thread leaves its method; the places of the others are what they were
  have hother : ∀ {t m}, Function.update s.method s.kernel.currentThread .none t = m →
      m.role ≠ .outside → s.method t = m := by
    intro t m h hm
    by_cases ht : t = s.kernel.currentThread
    · rw [ht, Function.update_self] at h
      rw [← h] at hm
      exact absurd rfl hm
    · rwa [Function.update_of_ne ht] at h
  have hmonitor := hs.monitor.finish hcode (by rw [hrelease]; rfl)
  have hrole := role_update s.method s.kernel.currentThread .none
  rw [Method.role] at hrole
  rw [← hrole] at hmonitor
  refine ⟨hmonitor, hs.quiet, ?phase, fun t call number data hr => ?completed, ?own,
    fun number r hr => ?returned, fun t call h => ?valid, hs.ledger.contents, hs.ledger.reads⟩
  case phase =>
    -- whoever waits for the disk is another thread
    have hawaits : ∀ {t number'}, q.Awaits s t number' → q.Awaits { s with
        method := Function.update s.method s.kernel.currentThread .none
        returned := s.returned ++ [(number, ⟨s.kernel.currentThread, call, data⟩)] }
        t number' := by
      intro t number' hawaits
      obtain ⟨⟨call', data', hmethod⟩, hone, hothers⟩ := hawaits
      refine ⟨⟨call', data', ?_⟩, hone, hothers⟩
      rw [← hmethod]
      refine Function.update_of_ne ?_ _ _
      rintro rfl
      rw [hrelease] at hmethod
      cases hmethod
    cases hs.phase with
    | idle hactive hpending hvalue hnone => exact .idle hactive hpending hvalue hnone
    | busy h hpending hvalue => exact .busy (hawaits h) hpending hvalue
    | done h hactive hpending hcompleted hvalue =>
      exact .done (hawaits h) hactive hpending hcompleted hvalue
  case completed =>
    exact hs.completed t call number data
      (hr.imp (fun h => hother h (by simp [Method.role])) fun h => hother h (by simp [Method.role]))
  case own =>
    intro t call number data hr
    exact hs.ledger.own t call number data
      (hr.imp (fun h => hother h (by simp [Method.role])) fun h => hother h (by simp [Method.role]))
  case returned =>
    rcases List.mem_append.mp hr with hr | hr
    · exact hs.ledger.returned number r hr
    · rw [List.mem_singleton] at hr
      cases hr
      exact ⟨hcompleted, hs.ledger.own _ _ _ _ hreq⟩
  case valid => exact hs.ledger.valid t call (hother h (by simp [Method.role]))

/-- What a request does to the sectors and to the buffer. -/
structure Served (disk disk' : DiskDevice) (number : ℕ) (call : Call) (data : Bytes) : Prop where
  pending : disk'.pending = disk.pending ++ [number]
  contents : ∀ sector : ℤ, 0 ≤ sector → Bytes.EqUpTo sectorSize (disk'.sectors sector.toNat)
    ((call.written? sector).getD (disk.sectors sector.toNat))
  read : ∀ sector, call = .read sector → 0 ≤ sector ∧ data = disk.sectors sector.toNat

/-- The assertions of the requests hold if the disk is not active. -/
theorem request_ok {disk : DiskDevice} {call : Call} (hactive : disk.active = false)
    (hvalid : call.Valid) (number : ℕ) : ∃ data disk',
      request disk number call = .ok (data, disk') ∧ Served disk disk' number call data := by
  cases call with
  | read sectorNumber =>
    have hin : 0 ≤ sectorNumber ∧ sectorNumber < numSectors := hvalid
    refine ⟨disk.sectors sectorNumber.toNat, disk.schedule number, ?_, rfl, fun _ _ _ _ => rfl,
      fun sector heq => ?_⟩
    · rw [request, DiskDevice.readRequest, hactive, Disk.readSector, if_pos hin]
      rfl
    · cases heq
      exact ⟨hin.1, rfl⟩
  | write sectorNumber data =>
    have hin : 0 ≤ sectorNumber ∧ sectorNumber < numSectors := hvalid
    have hsectors : disk.sectors.writeSector sectorNumber data =
        .ok (Function.update disk.sectors sectorNumber.toNat
          (Bytes.blit (disk.sectors sectorNumber.toNat) 0 sectorSize data)) := if_pos hin
    refine ⟨data, DiskDevice.schedule { disk with
      sectors := Function.update disk.sectors sectorNumber.toNat
        (Bytes.blit (disk.sectors sectorNumber.toNat) 0 sectorSize data) } number, ?_, rfl,
      fun sector hsector => ?_, fun sector heq => by cases heq⟩
    · rw [request, DiskDevice.writeRequest, hactive, hsectors]
      rfl
    · show Bytes.EqUpTo sectorSize (Function.update disk.sectors sectorNumber.toNat _
        sector.toNat) _
      rw [Call.written?]
      by_cases heq : sectorNumber = sector
      · rw [if_pos heq, heq, Function.update_self]
        intro o ho
        rw [Bytes.blit_of_mem (Nat.zero_le o) (by omega)]
        rfl
      · rw [if_neg heq, Function.update_of_ne (by omega)]
        exact fun o _ => rfl

/-- A request is served from the sectors that the requests before have left. -/
theorem Ledger.request {call : Call} {data : Bytes} {disk : DiskDevice} {k' : Kernel}
    (hl : Ledger initial s) (hserved : Served s.disk disk s.requests.length call data) :
    Ledger initial { s with
      kernel := k'
      disk := disk
      method := Function.update s.method s.kernel.currentThread
        (.wait call s.requests.length data)
      requests := s.requests ++ [⟨s.kernel.currentThread, call, data⟩] } := by
  -- the earlier requests keep their numbers
  have hold : ∀ {number : ℕ} {r : Request}, s.requests[number]? = some r →
      (s.requests ++ [⟨s.kernel.currentThread, call, data⟩])[number]? = some r := by
    intro number r hr
    obtain ⟨hlt, -⟩ := List.getElem?_eq_some_iff.mp hr
    rw [List.getElem?_append_left hlt]
    exact hr
  refine ⟨fun t call' number data' h => ?own, fun number r hr => ?returned, fun t call' h => ?valid,
    fun sector hsector => ?contents, fun number t sector data' h => ?reads⟩
  case own =>
    have h : Requested (Function.update s.method s.kernel.currentThread _ t) _ _ _ := h
    by_cases ht : t = s.kernel.currentThread
    · rw [ht, Function.update_self] at h
      rcases h with h | h
      · cases h
        show (s.requests ++ _)[s.requests.length]? = _
        rw [List.getElem?_concat_length, ht]
      · cases h
    · rw [Function.update_of_ne ht] at h
      exact hold (hl.own t call' number data' h)
  case returned =>
    obtain ⟨hmem, hr⟩ := hl.returned number r hr
    exact ⟨hmem, hold hr⟩
  case valid =>
    have h : Function.update s.method s.kernel.currentThread _ t = _ := h
    by_cases ht : t = s.kernel.currentThread
    · rw [ht, Function.update_self] at h
      cases h
    · rw [Function.update_of_ne ht] at h
      exact hl.valid t call' h
  case contents =>
    -- the last write of the sector is this one, or the last one before it
    show Bytes.EqUpTo sectorSize (disk.sectors sector.toNat) (lastWritten initial (_ ++ _) sector)
    rw [lastWritten_append]
    refine (hserved.contents sector hsector).trans ?_
    cases call.written? sector with
    | none => exact hl.contents sector hsector
    | some written => exact fun o _ => rfl
  case reads =>
    have h : (s.requests ++ [⟨s.kernel.currentThread, call, data⟩])[number]? = _ := h
    show Bytes.EqUpTo sectorSize data' (lastWritten initial ((s.requests ++ _).take number) sector)
    by_cases hlt : number < s.requests.length
    · rw [List.getElem?_append_left hlt] at h
      rw [List.take_append_of_le_length (by omega)]
      exact hl.reads number t sector data' h
    · -- the request made now reads what the disk has at this moment
      have hnumber : number = s.requests.length := by
        obtain ⟨hlt', -⟩ := List.getElem?_eq_some_iff.mp h
        rw [List.length_append, List.length_singleton] at hlt'
        omega
      rw [hnumber, List.getElem?_concat_length, Option.some.injEq, Request.mk.injEq] at h
      obtain ⟨-, hcall, rfl⟩ := h
      obtain ⟨hsector, hdata⟩ := hserved.read sector hcall
      rw [hnumber, List.take_left', hdata]
      · exact hl.contents sector hsector
      · rfl

/-- A thread that has just taken the lock finds the disk idle. -/
theorem Consistent.idle {call : Call} (hs : q.Consistent initial s)
    (hcode : s.kernel.code s.kernel.currentThread = [])
    (hacquire : s.method s.kernel.currentThread = .acquire call) :
    s.disk.active = false ∧ s.disk.pending = [] ∧
      (s.kernel.semaphore (.user q.semaphore)).value = 0 ∧
      ∀ t, Kernel.testsLeft (.user q.semaphore) (s.kernel.code t) = 0 := by
  have hinside := hs.monitor.inside_eq hcode (.inl (by rw [hacquire]; rfl))
  have hno : ∀ {t number}, ¬ q.Awaits s t number := by
    intro t number hawaits
    obtain ⟨call', data, hmethod⟩ := hawaits.method
    -- the thread that waits has the lock
    have hin := hs.monitor.holding t (by rw [hmethod]; rfl)
    rw [hinside, List.mem_singleton] at hin
    rw [hin, hacquire] at hmethod
    cases hmethod
  cases hs.phase with
  | idle hactive hpending hvalue htests => exact ⟨hactive, hpending, hvalue, htests⟩
  | busy h _ _ => exact absurd h hno
  | done h _ _ _ _ => exact absurd h hno

/-- The request, and the call of `P`. -/
theorem request_consistent {call : Call} {data : Bytes} {disk : DiskDevice}
    (hs : q.Consistent initial s) (hcode : s.kernel.code s.kernel.currentThread = [])
    (hacquire : s.method s.kernel.currentThread = .acquire call)
    (hserved : Served s.disk disk s.requests.length call data)
    (h : callRoutine { s with
        disk := disk
        requests := s.requests ++ [⟨s.kernel.currentThread, call, data⟩] }
      (.p q.semaphore) (.wait call s.requests.length data) = .ok s') :
    q.Consistent initial s' := by
  obtain ⟨-, hpending, hvalue, htests⟩ := hs.idle hcode hacquire
  obtain ⟨hst, hs'⟩ := callRoutine_ok h
  have hst : s.kernel.step (.call (.p q.semaphore)) = .ok s'.kernel := hst
  have hcalled := Kernel.call_called hs.monitor.placed.current hst
  have hholding := hs.monitor.mem_holding hcode (.inl (by rw [hacquire]; rfl))
  have hmonitor := hs.monitor.call
    (Kernel.enters_other (c := .p q.semaphore) hs.monitor.exclusive hholding id) hst
  generalize s'.kernel = k' at hst hs' hcalled hmonitor
  subst hs'
  have hrole := role_update s.method s.kernel.currentThread (.wait call s.requests.length data)
  rw [Method.role] at hrole
  rw [← hrole] at hmonitor
  have hone : Kernel.testsLeft (.user q.semaphore) (k'.code s.kernel.currentThread) = 1 := by
    rw [hcalled.code]
    simp [Kernel.Call.routine, semaphoreP, Kernel.testsLeft]
  refine ⟨hmonitor, fun t hmem => ?quiet, ?phase, fun t call' number data' hr hzero => ?completed,
    hs.ledger.request hserved⟩
  case quiet =>
    by_cases ht : t = s.kernel.currentThread
    · subst ht
      have hmem : _ ∈ k'.code s.kernel.currentThread := hmem
      rw [hcalled.code] at hmem
      simp [Kernel.Call.routine, semaphoreP] at hmem
    · exact hs.quiet t ((hcalled.mem_code ht rfl).1 hmem)
  case phase =>
    -- the disk is busy with this request, and its thread is in the `P` that waits for it
    refine .busy ⟨⟨call, data, Function.update_self _ _ _⟩, hone, fun u hu => ?_⟩ ?_ ?_
    · exact hcalled.testsLeft_zero hu (htests u)
    · rw [hserved.pending, hpending]
      rfl
    · rw [hcalled.frame]
      exact hvalue
  case completed =>
    -- the request is not answered yet: its thread has a test of the semaphore ahead
    have hr : Requested (Function.update s.method s.kernel.currentThread _ t) _ _ _ := hr
    have hzero : Kernel.testsLeft (.user q.semaphore) (k'.code t) = 0 := hzero
    by_cases ht : t = s.kernel.currentThread
    · rw [ht, hone] at hzero
      cases hzero
    · rw [Function.update_of_ne ht] at hr
      exact hs.completed t call' number data' hr (htests t)

/-- Going on in `ReadSector` or `WriteSector` keeps the invariant. -/
theorem proceed_consistent (hs : q.Consistent initial s) (h : q.proceed s = .ok s') :
    q.Consistent initial s' := by
  unfold proceed at h
  split at h
  · cases h
  · rename_i hcode
    split at h
    · cases h
    · rename_i call hacquire
      obtain ⟨data, disk, hrequest, hserved⟩ := request_ok (hs.idle hcode hacquire).1
        (hs.ledger.valid _ call hacquire) s.requests.length
      rw [hrequest] at h
      exact request_consistent hs hcode hacquire hserved h
    · rename_i call number data hwait
      exact release_consistent hs hcode hwait h
    · rename_i call number data hrelease
      cases h
      exact return_consistent hs hcode hrelease

/-- Every step keeps the invariant. -/
theorem step_consistent {ev : Event} (hs : q.Consistent initial s) (hvalid : ev.Valid)
    (h : q.step s ev = .ok s') : q.Consistent initial s' := by
  cases ev with
  | kernel e =>
    rw [step] at h
    split at h
    · rename_i hforeign
      obtain ⟨k', hst, h⟩ := bind_ok_iff.mp h
      obtain ⟨⟨disk, completed⟩, hdisk, h⟩ := bind_ok_iff.mp h
      rw [← pure_ok_iff.mp h]
      exact hs.kernel hforeign hst hdisk
    · cases h
  | call call =>
    rw [step] at h
    split at h
    · exact acquire_consistent hs hvalid h
    · cases h
  | proceed => exact proceed_consistent hs h

theorem Booted.consistent (hboot : q.Booted s) : q.Consistent s.disk.sectors s := by
  have hcode : ∀ t, s.kernel.code t = [] := hboot.kernel.code
  have hno : ∀ {t call number data}, ¬ Requested (s.method t) call number data := by
    intro t call number data h
    rw [hboot.method] at h
    rcases h with h | h
    · cases h
    · cases h
  have hrole : (fun t => (s.method t).role) = fun _ => .outside := by
    funext t
    rw [hboot.method]
    rfl
  refine ⟨?_, fun t hmem => ?_, ?_, fun t call number data h => absurd h hno,
    fun t call number data h => absurd h hno, fun number r hr => ?_, fun t call h => ?_,
    fun sector _ => ?_, fun number t sector data h => ?_⟩
  · rw [hrole]
    exact hboot.kernel.monitor q.lock
  · rw [hcode] at hmem
    cases hmem
  · refine .idle hboot.active hboot.pending hboot.semaphore fun t => ?_
    rw [hcode]
    rfl
  · rw [hboot.returned] at hr
    cases hr
  · rw [hboot.method] at h
    cases h
  · rw [hboot.requests]
    exact fun o _ => rfl
  · rw [hboot.requests] at h
    cases h

/-- `proceed` does not fail an assertion. -/
theorem Consistent.proceed_asserts (hs : q.Consistent initial s) :
    q.proceed s ≠ .error .assertion := by
  have hcall : ∀ {s₁ : State} {c : Kernel.Call} {m : Method},
      s₁.kernel.code s₁.kernel.currentThread = [] → (∀ t, c ≠ .fork t) →
      callRoutine s₁ c m ≠ .error .assertion := by
    intro s₁ c m hcode hfork h
    have hprepare : s₁.kernel.prepare c = .ok s₁.kernel := by
      cases c with
      | fork t => exact absurd rfl (hfork t)
      | _ => rfl
    rw [callRoutine, Kernel.step, hcode] at h
    dsimp only at h
    rw [hprepare] at h
    cases h
  unfold proceed
  split
  · intro h
    cases h
  · rename_i hcode
    split
    · intro h
      cases h
    · rename_i call hacquire
      obtain ⟨data, disk, hrequest, -⟩ := request_ok (hs.idle hcode hacquire).1
        (hs.ledger.valid _ call hacquire) s.requests.length
      rw [hrequest]
      exact hcall hcode (by simp)
    · exact hcall hcode (by simp)
    · intro h
      cases h

/-- A synchronous disk under every schedule, if its sectors are asked for only. No assertion of
the disk fails when the thread that runs goes on in a method, at most one `DiskInt` is pending,
a call has returned only if the interrupt of its own request has been handled, and what a
`ReadSector` has got is what the last `WriteSector` to the sector before it has written. -/
theorem run_serialised {es : List Event} (hboot : q.Booted s) (hvalid : ∀ ev ∈ es, ev.Valid)
    (hrun : PartialRun.run q.step s es = .ok s') :
    q.step s' .proceed ≠ .error .assertion ∧
    s'.disk.pending.length ≤ 1 ∧
    (∀ number r, (number, r) ∈ s'.returned →
      number ∈ s'.completed ∧ s'.requests[number]? = some r) ∧
    (∀ (number t : ℕ) (sector : ℤ) (data : Bytes),
      s'.requests[number]? = some ⟨t, .read sector, data⟩ → Bytes.EqUpTo sectorSize data
        (lastWritten s.disk.sectors (s'.requests.take number) sector)) := by
  have hs : q.Consistent s.disk.sectors s' := by
    have hkeep : ∀ t ev t', q.Consistent s.disk.sectors t → ev.Valid → q.step t ev = .ok t' →
        q.Consistent s.disk.sectors t' := fun _ _ _ ht hev hst => step_consistent ht hev hst
    exact Along.invariant hkeep hboot.consistent (Along.of_forall hvalid) hrun
  refine ⟨hs.proceed_asserts, ?_, hs.ledger.returned, hs.ledger.reads⟩
  -- only a busy disk has a request pending
  cases hs.phase with
  | idle _ hpending _ _ =>
    rw [hpending]
    exact Nat.zero_le 1
  | busy _ hpending _ =>
    rw [hpending]
    exact Nat.le_refl 1
  | done _ _ hpending _ _ =>
    rw [hpending]
    exact Nat.zero_le 1

end

/-- A disk of zeros in a kernel that has just been booted. -/
def boot : State where
  kernel := Kernel.boot fun _ => 0
  disk := ⟨false, fun _ _ => 0, []⟩
  method := fun _ => .none
  requests := []
  completed := []
  returned := []

theorem boot_booted : Booted ⟨0, 0⟩ boot :=
  ⟨Kernel.boot_booted fun _ => 0, rfl, rfl, rfl, fun _ => rfl, rfl, rfl, rfl⟩

/-- Thread `0` writes sector `5`, and thread `1` calls `ReadSector` before the write is done. -/
def sharingRun : List Event := [
  .kernel (.call (.fork 1)), .kernel .exec, .kernel .exec, .kernel .exec, .kernel (.tick []),
  .call (.write 5 fun _ => 7), .kernel .exec, .kernel .exec, .kernel .exec, .kernel (.tick []),
  .kernel .exec, .proceed, .kernel .exec, .kernel .exec, .kernel .exec,
  -- thread 1 waits for the lock, and the write is done
  .kernel .exec, .kernel (.tick []), .call (.read 5), .kernel .exec, .kernel .exec,
  .kernel (.idle [.v 0]), .kernel .exec,
  .kernel .exec, .kernel .exec, .kernel (.tick []), .proceed, .kernel .exec, .kernel .exec,
  .kernel .exec, .kernel (.tick []), .kernel .exec, .proceed,
  .kernel (.call .yield), .kernel .exec, .kernel .exec,
  .kernel .exec, .kernel .exec, .kernel (.tick []), .kernel .exec, .proceed,
  .kernel .exec, .kernel .exec, .kernel .exec,
  -- thread 0 runs while the disk reads
  .kernel .exec, .kernel (.tick [.v 0]), .kernel (.call .yield), .kernel .exec, .kernel .exec,
  .kernel .exec, .kernel .exec, .kernel (.tick []), .proceed, .kernel .exec, .kernel .exec,
  .kernel .exec, .kernel (.tick []), .kernel .exec, .proceed]

/-- The read has returned what was written. -/
theorem sharingRun_serialised : ∃ s, PartialRun.run (step ⟨0, 0⟩) boot sharingRun = .ok s ∧
    s.returned.map Prod.fst = [0, 1] ∧ s.disk.pending.length ≤ 1 ∧
    ∃ r, s.requests[1]? = some r ∧ r.data 0 = 7 ∧ 1 ∈ s.completed := by
  obtain ⟨s, hrun, hreturned, hdata⟩ : ∃ s,
      PartialRun.run (step ⟨0, 0⟩) boot sharingRun = .ok s ∧
      s.returned.map Prod.fst = [0, 1] ∧ s.returned.map (fun r => r.2.data 0) = [7, 7] := by
    decide +kernel
  obtain ⟨-, hpending, hown, -⟩ := run_serialised boot_booted (by decide +kernel) hrun
  refine ⟨s, hrun, hreturned, hpending, ?_⟩
  obtain ⟨⟨n, r⟩, hmem, rfl⟩ : ∃ p ∈ s.returned, p.1 = 1 := by
    rw [← List.mem_map, hreturned]
    simp
  obtain ⟨hcompleted, hrequest⟩ := hown 1 r hmem
  refine ⟨r, hrequest, ?_, hcompleted⟩
  have hseven := List.mem_map_of_mem (f := fun r : ℕ × Request => r.2.data 0) hmem
  rw [hdata] at hseven
  simpa using hseven

end SynchDisk
end NachOS
