import NachOS.Filesys.SynchDisk
import NachOS.Network.Delivery

/-!
# Sending

`PostOffice::Send` (`post.cc`), and what `Network` (`network.cc`) does for it: a packet goes into the
socket of the other machine at once, or is lost, and a `NetworkSendInt` interrupt says later that
the next one can be sent. `Send` waits for the interrupt at a semaphore, and keeps a lock over
packet and wait. On the same machine the post office receives.

A synchronous disk uses its lock and its semaphore in the same way. The lock and the semaphore of
`Send` are therefore those of a disk, with packets for requests.
-/

namespace NachOS

open PartialRun

/-! ## What the receiving side does -/

namespace PostOffice

variable {q : PostOffice} {s s' : State}

/-- The routines that the methods of the receiving side call. -/
def Calls (q : PostOffice) (c : Kernel.Call) : Prop :=
  c = .p q.messageAvailable ∨ ∃ b, c = .acquire (q.messages b).lock ∨
    c = .release (q.messages b).lock ∨ c = .signal (q.messages b).listEmpty ∨
    c = .wait (q.messages b).listEmpty (q.messages b).lock

/-- The thread that runs calls a routine, goes on in a method without a call, or does something that
is not part of a method. -/
inductive Acts (q : PostOffice) (s s' : State) : Event → Prop where
  | kernel {e : Kernel.Event} (h : s.kernel.step e = .ok s'.kernel) (hmethod : s'.method = s.method) :
    Acts q s s' (.kernel e)
  | call {ev : Event} {c : Kernel.Call} (hkernel : ∀ e, ev ≠ .kernel e) (hcalls : q.Calls c)
    (h : s.kernel.step (.call c) = .ok s'.kernel) : Acts q s s' ev
  | stay {ev : Event} (hkernel : ∀ e, ev ≠ .kernel e) (h : s'.kernel = s.kernel) : Acts q s s' ev

/-- A step leaves the messages that have come and the methods of the other threads alone. -/
structure Frame (s s' : State) : Prop where
  ident : s'.network.ident = s.network.ident
  arrived : s'.arrived = s.arrived
  method : ∀ t ≠ s.kernel.currentThread, s'.method t = s.method t

end PostOffice

theorem Network.checkPktAvail_ident {net net' : Network} {calls : Bool}
    (h : net.checkPktAvail = .ok (calls, net')) : net'.ident = net.ident := by
  unfold checkPktAvail at h
  split at h
  · cases h
    rfl
  · split at h
    · cases h
      rfl
    · dsimp only at h
      split at h
      · cases h
        rfl
      · cases h

theorem Network.polls_ident {n : ℕ} : ∀ {net net' : Network}, net.polls n = .ok net' →
    net'.ident = net.ident := by
  induction n with
  | zero =>
    intro net net' h
    rw [← Except.ok.inj h]
  | succ n ih =>
    intro net net' h
    obtain ⟨⟨calls, net₁⟩, hcheck, h⟩ := bind_ok_iff.mp h
    dsimp only at h
    split at h
    · exact (ih h).trans (checkPktAvail_ident hcheck)
    · cases h

namespace PostOffice

section

variable {q : PostOffice} {s s₁ s' : State}

theorem callRoutine_acts {c : Kernel.Call} {m : Method} {ev : Event}
    (h : callRoutine s₁ c m = .ok s') (hcalls : q.Calls c) (hkernel : ∀ e, ev ≠ .kernel e)
    (hsame : s₁.kernel = s.kernel) (hmethod : s₁.method = s.method)
    (hident : s₁.network.ident = s.network.ident) (harrived : s₁.arrived = s.arrived) :
    Acts q s s' ev ∧ Frame s s' := by
  obtain ⟨hst, hs'⟩ := callRoutine_ok h
  rw [hsame] at hst
  refine ⟨.call hkernel hcalls hst, ?_⟩
  rw [hs']
  refine ⟨hident, harrived, fun t ht => ?_⟩
  dsimp only
  rw [hsame, Function.update_of_ne ht, hmethod]

theorem proceed_acts (h : q.proceed s = .ok s') : Acts q s s' .proceed ∧ Frame s s' := by
  have hkernel : ∀ e, Event.proceed ≠ .kernel e := fun e he => by cases he
  unfold proceed at h
  split at h
  · cases h
  · -- the worker takes the packet out of the inbox
    unfold sort at h
    dsimp only at h
    split_ifs at h
    obtain ⟨mail, -, h⟩ := bind_ok_iff.mp h
    exact callRoutine_acts h (.inr ⟨_, .inl rfl⟩) hkernel rfl rfl rfl rfl
  · exact callRoutine_acts h (.inr ⟨_, .inr (.inr (.inl rfl))⟩) hkernel rfl rfl rfl rfl
  · exact callRoutine_acts h (.inr ⟨_, .inr (.inl rfl)⟩) hkernel rfl rfl rfl rfl
  · exact callRoutine_acts h (.inl rfl) hkernel rfl rfl rfl rfl
  · split at h
    · exact callRoutine_acts h (.inr ⟨_, .inr (.inr (.inr rfl))⟩) hkernel rfl rfl rfl rfl
    · exact callRoutine_acts h (.inr ⟨_, .inr (.inl rfl)⟩) hkernel rfl rfl rfl rfl
  · split_ifs at h
    rw [← Except.ok.inj h]
    exact ⟨.stay hkernel rfl, rfl, rfl, fun t ht => Function.update_of_ne ht _ _⟩

theorem step_acts {ev : Event} (harrive : ∀ m, ev ≠ .arrive m) (h : q.step s ev = .ok s') :
    Acts q s s' ev ∧ Frame s s' := by
  cases ev with
  | kernel e =>
    rw [step] at h
    split_ifs at h
    obtain ⟨k', hst, h⟩ := bind_ok_iff.mp h
    obtain ⟨network, hpolls, h⟩ := bind_ok_iff.mp h
    rw [← pure_ok_iff.mp h]
    exact ⟨.kernel hst rfl, Network.polls_ident hpolls, rfl, fun _ _ => rfl⟩
  | arrive m => exact absurd rfl (harrive m)
  | postalDelivery =>
    rw [step] at h
    split_ifs at h
    exact callRoutine_acts h (.inl rfl) (fun e he => by cases he) rfl rfl rfl rfl
  | receive box data =>
    rw [step] at h
    split_ifs at h
    exact callRoutine_acts h (.inr ⟨_, .inl rfl⟩) (fun e he => by cases he) rfl rfl rfl rfl
  | proceed =>
    rw [step] at h
    split at h
    · exact proceed_acts h
    · cases h

end

end PostOffice

/-! ## The sending side -/

/-- A post office, and the lock and the semaphore of `Send`. -/
structure Sender where
  post : PostOffice
  sendLock : ℕ
  messageSent : ℕ
  lock_ne : ∀ b, (post.messages b).lock ≠ sendLock
  semaphore_ne : post.messageAvailable ≠ messageSent

namespace Sender

/-- Where a thread is in `Send`. The number is that of its packet. -/
inductive Method where
  | none
  /-- In `sendLock->Acquire()`. -/
  | acquire (m : Message)
  /-- In `messageSent->P()`. -/
  | wait (number : ℕ)
  /-- In `sendLock->Release()`. -/
  | release (number : ℕ)

/-- A call of `Network::Send`. -/
structure Packet where
  thread : ℕ
  message : Message
  lost : Bool

/-- The machine with both sides of the post office. -/
structure State where
  office : PostOffice.State
  method : ℕ → Method
  /-- The calls of `Send`, by thread. -/
  called : List (ℕ × Message)
  /-- The packets whose `NetworkSendInt` is pending, by number, the first due first. -/
  pending : List ℕ
  /-- The calls of `Network::Send`, in this order. -/
  packets : List Packet
  /-- The packets whose interrupt has been handled. -/
  completed : List ℕ
  /-- The packets of the calls that have returned, with the threads. -/
  returned : List (ℕ × ℕ)

/-- What can happen on a machine. -/
inductive Event where
  /-- Something on the receiving side, something that is part of neither, or the next instruction
  of the routine that a method of either side has called. A `V` of `messageSent` by a device is
  that of `PacketSent`. -/
  | office (ev : PostOffice.Event)
  /-- The running thread calls `Send`. -/
  | send (m : Message)
  /-- The running thread is back from the routine that `Send` has called, and goes on. If it goes on
  with `Network::Send` then `Random` says whether the packet is lost. -/
  | proceed (lost : Bool)

def Method.isNone : Method → Bool
  | .none => true
  | _ => false

section

variable (q : Sender)

/-- The lock and the semaphore, as those of a disk. -/
def disk : SynchDisk := ⟨q.sendLock, q.messageSent⟩

/-- The running thread is not in `Send` if it calls a routine, which is not one of the sending side,
or goes on on the receiving side. -/
def Foreign (s : State) : PostOffice.Event → Prop
  | .kernel (.call c) =>
    (s.method s.office.kernel.currentThread).isNone = true ∧ ¬ q.disk.Uses c
  | .kernel _ => True
  | .arrive _ => False
  | .postalDelivery | .receive _ _ | .proceed =>
    (s.method s.office.kernel.currentThread).isNone = true

instance (s : State) : (ev : PostOffice.Event) → Decidable (q.Foreign s ev)
  | .kernel (.call _) => inferInstanceAs (Decidable (_ ∧ _))
  | .kernel .exec | .kernel (.tick _) | .kernel (.idle _) => isTrue trivial
  | .arrive _ => isFalse id
  | .postalDelivery | .receive _ _ | .proceed => inferInstanceAs (Decidable (_ = _))

/-- `Network::SendDone` for so many interrupts, without the call of the handler. -/
def sendDone (pending completed : List ℕ) : ℕ → Except Stop (List ℕ × List ℕ)
  | 0 => .ok (pending, completed)
  | n + 1 =>
    match pending with
    | [] => .error .impossible
    | number :: pending => sendDone pending (completed ++ [number]) n
termination_by structural n => n

/-- The `V` operations that devices do on the semaphore. -/
def deviceV : PostOffice.Event → ℕ
  | .kernel e => e.deviceV q.messageSent
  | _ => 0

/-- The running thread calls a routine of the lock or the semaphore. -/
def callRoutine (s : State) (c : Kernel.Call) (method : Method) : Except Stop State := do
  let office ← q.post.step s.office (.kernel (.call c))
  return { s with
    office := office
    method := Function.update s.method s.office.kernel.currentThread method }

/-- The rest of `Send`, up to the next call, and what it puts into the socket of another machine. -/
def proceed (s : State) (lost : Bool) : Except Stop (Option Message × State) :=
  match s.office.kernel.code s.office.kernel.currentThread with
  | _ :: _ => .error .impossible
  | [] =>
    match s.method s.office.kernel.currentThread with
    | .none => .error .impossible
    | .acquire m => do
      -- the packet is checked before it is lost
      let _ ← networkSend s.office.network.ident m.filledHdr m.payload m.wireBuffer
      let number := s.packets.length
      let s ← q.callRoutine { s with
          pending := s.pending ++ [number]
          packets := s.packets ++ [⟨s.office.kernel.currentThread, m, lost⟩] }
        (.p q.messageSent) (.wait number)
      return (if lost then none else some m, s)
    | .wait number => do
      let s ← q.callRoutine s (.release q.sendLock) (.release number)
      return (none, s)
    | .release number => .ok (none, { s with
        method := Function.update s.method s.office.kernel.currentThread .none
        returned := s.returned ++ [(number, s.office.kernel.currentThread)] })

def step (s : State) : Event → Except Stop (Option Message × State)
  | .office ev =>
    if q.Foreign s ev then do
      let office ← q.post.step s.office ev
      let (pending, completed) ← sendDone s.pending s.completed (q.deviceV ev)
      return (none, { s with office, pending, completed })
    else .error .impossible
  | .send m =>
    if (s.method s.office.kernel.currentThread).isNone = true ∧
        (s.office.method s.office.kernel.currentThread).isNone = true ∧
        m.netAddr = q.post.netAddr ∧ m.numBoxes = q.post.numBoxes then do
      let _ ← m.postSend
      let s ← q.callRoutine { s with called := s.called ++ [(s.office.kernel.currentThread, m)] }
        (.acquire q.sendLock) (.acquire m)
      return (none, s)
    else .error .impossible
  | .proceed lost => q.proceed s lost

/-- The post office has just been made, and nobody uses it yet. -/
structure Booted (s : State) : Prop where
  office : q.post.Booted s.office
  semaphore : (s.office.kernel.semaphore (.user q.messageSent)).value = 0
  method : ∀ t, s.method t = .none
  called : s.called = []
  pending : s.pending = []
  packets : s.packets = []
  completed : s.completed = []
  returned : s.returned = []

/-! ## The invariant -/

/-- Where a thread is in the methods of the disk. -/
def Method.disk : Method → SynchDisk.Method
  | .none => .none
  | .acquire _ => .acquire (.read 0)
  | .wait number => .wait (.read 0) number fun _ => 0
  | .release number => .release (.read 0) number fun _ => 0

/-- The state of the disk. -/
structure Views (s : State) (d : SynchDisk.State) : Prop where
  kernel : d.kernel = s.office.kernel
  sectors : d.disk.sectors = fun _ _ => 0
  pending : d.disk.pending = s.pending
  method : d.method = fun t => (s.method t).disk
  requests : d.requests = s.packets.map fun p => ⟨p.thread, .read 0, fun _ => 0⟩
  completed : d.completed = s.completed
  returned : d.returned = s.returned.map fun p => (p.1, ⟨p.2, .read 0, fun _ => 0⟩)

/-- What is put into the sockets of other machines. -/
def State.handedOver (s : State) : List Message :=
  (s.packets.filter fun p => !p.lost).map Packet.message

/-- The message that a thread is about to hand to the network. -/
def Method.pending : Method → List Message
  | .acquire m => [m]
  | _ => []

/-- The messages that a thread has called `Send` for. -/
def State.calledBy (s : State) (t : ℕ) : List Message :=
  (s.called.filter fun c => c.1 = t).map Prod.snd

/-- Those of its packets. -/
def State.packetsOf (s : State) (t : ℕ) : List Message :=
  (s.packets.filter fun p => p.thread = t).map Packet.message

/-- The message is one that `Send` of this machine accepts. -/
structure Accepted (m : Message) : Prop where
  netAddr : m.netAddr = q.post.netAddr
  numBoxes : m.numBoxes = q.post.numBoxes
  length : m.mailHdr.length.toNat ≤ maxMailSize
  box : m.mailHdr.Valid m.numBoxes

structure Consistent (s : State) : Prop where
  office : q.post.Consistent s.office
  ident : s.office.network.ident = q.post.netAddr
  mirrored : ∃ d, Views s d ∧ q.disk.Consistent (fun _ _ => 0) d
  apart : ∀ t, s.method t ≠ .none → s.office.method t = .none
  acquiring : ∀ t m, s.method t = .acquire m → q.Accepted m
  accepted : ∀ p ∈ s.packets, q.Accepted p.message
  called : ∀ t, s.packetsOf t ++ (s.method t).pending = s.calledBy t

end

section

variable {q : Sender} {s s₁ s' : State} {d : SynchDisk.State} {message : Option Message}

theorem isNone_eq_true {m : Method} : m.isNone = true ↔ m = .none := by
  cases m with
  | none => exact ⟨fun _ => rfl, fun _ => rfl⟩
  | _ => exact ⟨fun h => (by cases h), fun h => (by cases h)⟩

theorem disk_update (method : ℕ → Method) (t : ℕ) (m : Method) :
    (fun u => (Function.update method t m u).disk) =
      Function.update (fun u => (method u).disk) t m.disk := by
  funext u
  by_cases hu : u = t
  · rw [hu, Function.update_self, Function.update_self]
  · rw [Function.update_of_ne hu, Function.update_of_ne hu]

theorem disk_role_outside {m : Method} : m.disk.role = .outside ↔ m = .none := by
  cases m with
  | none => exact ⟨fun _ => rfl, fun _ => rfl⟩
  | _ => exact ⟨fun h => (by cases h), fun h => (by cases h)⟩

/-! ## Steps of the kernel -/

/-- The interrupts are those of the disk. -/
theorem handleInterrupt_of_sendDone {n : ℕ} : ∀ (disk : DiskDevice) {completed : List ℕ}
    {r : List ℕ × List ℕ}, sendDone disk.pending completed n = .ok r →
    ∃ disk', disk.handleInterrupt completed n = .ok (disk', r.2) ∧ disk'.pending = r.1 := by
  induction n with
  | zero =>
    intro disk completed r h
    cases h
    exact ⟨disk, rfl, rfl⟩
  | succ n ih =>
    intro disk completed r h
    rw [DiskDevice.handleInterrupt]
    cases hpending : disk.pending with
    | nil =>
      rw [hpending] at h
      cases h
    | cons number pending =>
      rw [hpending] at h
      exact ih { disk with active := false, pending := pending } h

/-- A step in which `Send` takes no part. -/
theorem Views.kernelStep (hv : Views s d) (hd : q.disk.Consistent (fun _ _ => 0) d)
    {e : Kernel.Event} (hforeign : q.disk.Foreign d e) (hmethod : s'.method = s.method)
    (hpackets : s'.packets = s.packets) (hreturned : s'.returned = s.returned)
    (h : s.office.kernel.step e = .ok s'.office.kernel)
    (hdone : sendDone s.pending s.completed (e.deviceV q.messageSent) =
      .ok (s'.pending, s'.completed)) :
    ∃ d', Views s' d' ∧ q.disk.Consistent (fun _ _ => 0) d' := by
  rw [← hv.pending, ← hv.completed] at hdone
  obtain ⟨disk, hdisk, hpending⟩ := handleInterrupt_of_sendDone _ hdone
  obtain ⟨hsectors, -⟩ := DiskDevice.handleInterrupt_frame hdisk
  have hst : d.kernel.step e = .ok s'.office.kernel := by
    rw [hv.kernel]
    exact h
  refine ⟨_, ⟨rfl, ?_, hpending, ?_, ?_, rfl, ?_⟩, hd.kernel hforeign hst hdisk⟩
  · exact hsectors.trans hv.sectors
  · rw [hmethod]
    exact hv.method
  · rw [hpackets]
    exact hv.requests
  · rw [hreturned]
    exact hv.returned

/-- The routines of the receiving side do not use the lock and the semaphore of the other. -/
theorem not_uses_of_calls {c : Kernel.Call} (h : q.post.Calls c) : ¬ q.disk.Uses c := by
  rcases h with rfl | ⟨b, rfl | rfl | rfl | rfl⟩
  · exact q.semaphore_ne
  · exact q.lock_ne b
  · exact q.lock_ne b
  · exact id
  · exact q.lock_ne b

/-- On the receiving side only a thread that is not in `Send` goes on, and no device does a `V` of
the semaphore. -/
theorem Foreign.plain {ev : PostOffice.Event} (h : q.Foreign s ev) (hkernel : ∀ e, ev ≠ .kernel e) :
    (s.method s.office.kernel.currentThread).isNone = true ∧ q.deviceV ev = 0 := by
  cases ev with
  | kernel e => exact absurd rfl (hkernel e)
  | arrive m => exact absurd h id
  | postalDelivery => exact ⟨h, rfl⟩
  | receive box data => exact ⟨h, rfl⟩
  | proceed => exact ⟨h, rfl⟩

/-- A step of the receiving side, or of something that is part of neither side. -/
theorem Views.officeStep (hv : Views s d) (hd : q.disk.Consistent (fun _ _ => 0) d)
    {ev : PostOffice.Event} (hforeign : q.Foreign s ev) (hmethod : s'.method = s.method)
    (hpackets : s'.packets = s.packets) (hreturned : s'.returned = s.returned)
    (hacts : PostOffice.Acts q.post s.office s'.office ev)
    (hdone : sendDone s.pending s.completed (q.deviceV ev) = .ok (s'.pending, s'.completed)) :
    ∃ d', Views s' d' ∧ q.disk.Consistent (fun _ _ => 0) d' := by
  have hrole : (s.method s.office.kernel.currentThread).isNone = true →
      (d.method d.kernel.currentThread).role = .outside := by
    intro hnone
    rw [hv.method, hv.kernel]
    exact disk_role_outside.mpr (isNone_eq_true.mp hnone)
  cases hacts with
  | @kernel e hst _ =>
    refine hv.kernelStep hd ?_ hmethod hpackets hreturned hst hdone
    cases e with
    | call c => exact ⟨hrole hforeign.1, hforeign.2⟩
    | exec => trivial
    | tick handlers => trivial
    | idle handlers => trivial
  | @call _ c hkernel hcalls hst =>
    obtain ⟨hnone, hnothing⟩ := hforeign.plain hkernel
    rw [hnothing] at hdone
    exact hv.kernelStep hd (e := .call c) ⟨hrole hnone, not_uses_of_calls hcalls⟩ hmethod hpackets
      hreturned hst hdone
  | stay hkernel hsame =>
    rw [(hforeign.plain hkernel).2] at hdone
    obtain ⟨hpending, hcompleted⟩ := Prod.mk.inj (Except.ok.inj hdone)
    refine ⟨d, ⟨hv.kernel.trans hsame.symm, hv.sectors, hv.pending.trans hpending, ?_, ?_,
      hv.completed.trans hcompleted, ?_⟩, hd⟩
    · rw [hmethod]
      exact hv.method
    · rw [hpackets]
      exact hv.requests
    · rw [hreturned]
      exact hv.returned

/-! ## Steps of `Send` -/

theorem callRoutine_ok {c : Kernel.Call} {m : Method} (h : q.callRoutine s c m = .ok s') :
    q.post.step s.office (.kernel (.call c)) = .ok s'.office ∧
      s.office.kernel.step (.call c) = .ok s'.office.kernel ∧
      s' = { s with
        office := s'.office
        method := Function.update s.method s.office.kernel.currentThread m } := by
  obtain ⟨office, hst, h⟩ := bind_ok_iff.mp h
  rw [← pure_ok_iff.mp h]
  refine ⟨hst, ?_, rfl⟩
  obtain ⟨hacts, -⟩ := PostOffice.step_acts (fun m hm => by cases hm) hst
  cases hacts with
  | kernel hst _ => exact hst
  | call hkernel _ _ => exact absurd rfl (hkernel _)
  | stay hkernel _ => exact absurd rfl (hkernel _)

/-- `Send` calls a routine of the lock or the semaphore. -/
theorem Views.call (hv : Views s₁ d) {c : Kernel.Call} {m : Method}
    (h : q.callRoutine s₁ c m = .ok s') :
    ∃ d', SynchDisk.callRoutine d c m.disk = .ok d' ∧ Views s' d' := by
  obtain ⟨-, hst, hs'⟩ := callRoutine_ok h
  have hcall : SynchDisk.callRoutine d c m.disk = .ok { d with
      kernel := s'.office.kernel
      method := Function.update d.method d.kernel.currentThread m.disk } := by
    rw [SynchDisk.callRoutine, hv.kernel, hst]
    rfl
  refine ⟨_, hcall, ?_⟩
  rw [hs']
  refine ⟨rfl, hv.sectors, hv.pending, ?_, hv.requests, hv.completed, hv.returned⟩
  rw [hv.kernel, hv.method]
  exact (disk_update s₁.method s₁.office.kernel.currentThread m).symm

/-- The thread that has the lock hands its packet to the network. -/
theorem Views.request (hv : Views s d) (hd : q.disk.Consistent (fun _ _ => 0) d) {m : Message}
    (hcode : s.office.kernel.code s.office.kernel.currentThread = [])
    (hacquire : s.method s.office.kernel.currentThread = .acquire m) {lost : Bool}
    (h : q.callRoutine { s with
        pending := s.pending ++ [s.packets.length]
        packets := s.packets ++ [⟨s.office.kernel.currentThread, m, lost⟩] }
      (.p q.messageSent) (.wait s.packets.length) = .ok s') :
    ∃ d', Views s' d' ∧ q.disk.Consistent (fun _ _ => 0) d' := by
  have hlength : d.requests.length = s.packets.length := by rw [hv.requests, List.length_map]
  have hdcode : d.kernel.code d.kernel.currentThread = [] := by
    rw [hv.kernel]
    exact hcode
  have hdmethod : d.method d.kernel.currentThread = .acquire (.read 0) := by
    rw [hv.method, hv.kernel]
    dsimp only
    rw [hacquire]
    rfl
  obtain ⟨hactive, -⟩ := hd.idle hdcode hdmethod
  have hrequest : SynchDisk.request d.disk d.requests.length (.read 0) =
      .ok (fun _ => 0, d.disk.schedule d.requests.length) := by
    have hsector : d.disk.sectors.readSector 0 = .ok fun _ => 0 := by
      rw [hv.sectors]
      rfl
    rw [SynchDisk.request, DiskDevice.readRequest, hactive, hsector]
    rfl
  -- the packet is pending, and a request of the disk
  have hv₁ : Views { s with
      pending := s.pending ++ [s.packets.length]
      packets := s.packets ++ [⟨s.office.kernel.currentThread, m, lost⟩] } { d with
      disk := d.disk.schedule d.requests.length
      requests := d.requests ++ [⟨d.kernel.currentThread, .read 0, fun _ => 0⟩] } := by
    refine ⟨hv.kernel, hv.sectors, ?_, hv.method, ?_, hv.completed, hv.returned⟩
    · dsimp only [DiskDevice.schedule]
      rw [hv.pending, hlength]
    · dsimp only
      rw [hv.requests, hv.kernel, List.map_append]
      rfl
  obtain ⟨d', hcall, hviews⟩ := hv₁.call h
  have hproceed : q.disk.proceed d = .ok d' := by
    rw [SynchDisk.proceed, hdcode]
    dsimp only
    rw [hdmethod]
    dsimp only
    rw [hrequest, ok_bind, hlength]
    rw [hlength] at hcall
    exact hcall
  exact ⟨d', hviews, SynchDisk.proceed_consistent hd hproceed⟩

/-- The packet has been sent. -/
theorem Views.release (hv : Views s d) (hd : q.disk.Consistent (fun _ _ => 0) d) {number : ℕ}
    (hcode : s.office.kernel.code s.office.kernel.currentThread = [])
    (hwait : s.method s.office.kernel.currentThread = .wait number)
    (h : q.callRoutine s (.release q.sendLock) (.release number) = .ok s') :
    ∃ d', Views s' d' ∧ q.disk.Consistent (fun _ _ => 0) d' := by
  obtain ⟨d', hcall, hviews⟩ := hv.call h
  have hdmethod : d.method d.kernel.currentThread = .wait (.read 0) number fun _ => 0 := by
    rw [hv.method, hv.kernel]
    dsimp only
    rw [hwait]
    rfl
  have hproceed : q.disk.proceed d = .ok d' := by
    rw [SynchDisk.proceed, hv.kernel, hcode]
    dsimp only
    rw [← hv.kernel, hdmethod]
    exact hcall
  exact ⟨d', hviews, SynchDisk.proceed_consistent hd hproceed⟩

/-- `Send` returns. -/
theorem Views.return (hv : Views s d) (hd : q.disk.Consistent (fun _ _ => 0) d) {number : ℕ}
    (hcode : s.office.kernel.code s.office.kernel.currentThread = [])
    (hrelease : s.method s.office.kernel.currentThread = .release number) :
    ∃ d', Views { s with
        method := Function.update s.method s.office.kernel.currentThread .none
        returned := s.returned ++ [(number, s.office.kernel.currentThread)] } d' ∧
      q.disk.Consistent (fun _ _ => 0) d' := by
  have hdmethod : d.method d.kernel.currentThread = .release (.read 0) number fun _ => 0 := by
    rw [hv.method, hv.kernel]
    dsimp only
    rw [hrelease]
    rfl
  have hproceed : q.disk.proceed d = .ok { d with
      method := Function.update d.method d.kernel.currentThread .none
      returned := d.returned ++ [(number, ⟨d.kernel.currentThread, .read 0, fun _ => 0⟩)] } := by
    rw [SynchDisk.proceed, hv.kernel, hcode]
    dsimp only
    rw [← hv.kernel, hdmethod]
  refine ⟨_, ?_, SynchDisk.proceed_consistent hd hproceed⟩
  refine ⟨hv.kernel, hv.sectors, hv.pending, ?_, hv.requests, hv.completed, ?_⟩
  · dsimp only
    rw [hv.kernel, hv.method]
    exact (disk_update s.method s.office.kernel.currentThread .none).symm
  · dsimp only
    rw [hv.returned, hv.kernel, List.map_append]
    rfl

/-- `Send` is called. -/
theorem Views.acquire (hv : Views s d) (hd : q.disk.Consistent (fun _ _ => 0) d) {m : Message}
    {called : List (ℕ × Message)}
    (h : q.callRoutine { s with called } (.acquire q.sendLock) (.acquire m) = .ok s') :
    ∃ d', Views s' d' ∧ q.disk.Consistent (fun _ _ => 0) d' := by
  have hv₁ : Views { s with called } d :=
    ⟨hv.kernel, hv.sectors, hv.pending, hv.method, hv.requests, hv.completed, hv.returned⟩
  obtain ⟨d', hcall, hviews⟩ := hv₁.call h
  have hvalid : (SynchDisk.Call.read 0).Valid := by decide
  exact ⟨d', hviews, SynchDisk.acquire_consistent hd hvalid hcall⟩

/-! ## All steps -/

theorem postSend_ok {m : Message} {r : PacketHeader × Bytes} (h : m.postSend = .ok r) :
    m.mailHdr.length.toNat ≤ maxMailSize ∧ m.mailHdr.Valid m.numBoxes := by
  unfold Message.postSend at h
  split_ifs at h with hlegal
  exact hlegal

/-- What a step can be, and what it hands over. -/
inductive Taken (q : Sender) (s : State) : Event → Option Message → State → Prop where
  | office {ev : PostOffice.Event} {office : PostOffice.State} {pending completed : List ℕ}
    (hforeign : q.Foreign s ev) (hst : q.post.step s.office ev = .ok office)
    (hdone : sendDone s.pending s.completed (q.deviceV ev) = .ok (pending, completed)) :
    Taken q s (.office ev) none { s with office, pending, completed }
  | send {m : Message} {s' : State} (hm : q.Accepted m)
    (hnone : s.method s.office.kernel.currentThread = .none)
    (hfree : s.office.method s.office.kernel.currentThread = .none)
    (hcall : q.callRoutine { s with called := s.called ++ [(s.office.kernel.currentThread, m)] }
      (.acquire q.sendLock) (.acquire m) = .ok s') : Taken q s (.send m) none s'
  | request {lost : Bool} {m : Message} {s' : State}
    (hcode : s.office.kernel.code s.office.kernel.currentThread = [])
    (hacquire : s.method s.office.kernel.currentThread = .acquire m)
    (hcall : q.callRoutine { s with
        pending := s.pending ++ [s.packets.length]
        packets := s.packets ++ [⟨s.office.kernel.currentThread, m, lost⟩] }
      (.p q.messageSent) (.wait s.packets.length) = .ok s') :
    Taken q s (.proceed lost) (if lost then none else some m) s'
  | release {lost : Bool} {number : ℕ} {s' : State}
    (hcode : s.office.kernel.code s.office.kernel.currentThread = [])
    (hwait : s.method s.office.kernel.currentThread = .wait number)
    (hcall : q.callRoutine s (.release q.sendLock) (.release number) = .ok s') :
    Taken q s (.proceed lost) none s'
  | return {lost : Bool} {number : ℕ}
    (hcode : s.office.kernel.code s.office.kernel.currentThread = [])
    (hrelease : s.method s.office.kernel.currentThread = .release number) :
    Taken q s (.proceed lost) none { s with
      method := Function.update s.method s.office.kernel.currentThread .none
      returned := s.returned ++ [(number, s.office.kernel.currentThread)] }

theorem proceed_taken {lost : Bool} (h : q.proceed s lost = .ok (message, s')) :
    Taken q s (.proceed lost) message s' := by
  unfold Sender.proceed at h
  split at h
  · cases h
  · rename_i hcode
    split at h
    · cases h
    · rename_i m hacquire
      obtain ⟨datagram, -, h⟩ := bind_ok_iff.mp h
      obtain ⟨s₁, hcall, h⟩ := bind_ok_iff.mp h
      obtain ⟨rfl, rfl⟩ := Prod.mk.inj (pure_ok_iff.mp h)
      exact .request hcode hacquire hcall
    · rename_i number hwait
      obtain ⟨s₁, hcall, h⟩ := bind_ok_iff.mp h
      obtain ⟨rfl, rfl⟩ := Prod.mk.inj (pure_ok_iff.mp h)
      exact .release hcode hwait hcall
    · rename_i number hrelease
      obtain ⟨rfl, rfl⟩ := Prod.mk.inj (Except.ok.inj h)
      exact .return hcode hrelease

theorem step_taken {ev : Event} (h : q.step s ev = .ok (message, s')) : Taken q s ev message s' := by
  cases ev with
  | office ev =>
    rw [step] at h
    split_ifs at h with hforeign
    obtain ⟨office, hst, h⟩ := bind_ok_iff.mp h
    obtain ⟨⟨pending, completed⟩, hdone, h⟩ := bind_ok_iff.mp h
    obtain ⟨rfl, rfl⟩ := Prod.mk.inj (pure_ok_iff.mp h)
    exact .office hforeign hst hdone
  | send m =>
    rw [step] at h
    split_ifs at h with hcan
    obtain ⟨hnone, hfree, hnetAddr, hboxes⟩ := hcan
    obtain ⟨r, hpost, h⟩ := bind_ok_iff.mp h
    obtain ⟨s₁, hcall, h⟩ := bind_ok_iff.mp h
    obtain ⟨rfl, rfl⟩ := Prod.mk.inj (pure_ok_iff.mp h)
    obtain ⟨hlength, hbox⟩ := postSend_ok hpost
    exact .send ⟨hnetAddr, hboxes, hlength, hbox⟩ (isNone_eq_true.mp hnone)
      (PostOffice.isNone_eq_true.mp hfree) hcall
  | proceed lost => exact proceed_taken h

/-- What a step hands over to the network is added to what it has been handed before. -/
structure HandsOver (q : Sender) (s s' : State) (message : Option Message) : Prop where
  arrived : s'.office.arrived = s.office.arrived
  handedOver : s'.handedOver = s.handedOver ++ message.toList
  accepted : ∀ m ∈ message, q.Accepted m

theorem handsOver_none (harrived : s'.office.arrived = s.office.arrived)
    (hpackets : s'.packets = s.packets) : HandsOver q s s' none := by
  refine ⟨harrived, ?_, fun m hm => by cases hm⟩
  rw [State.handedOver, hpackets, Option.toList_none, List.append_nil]
  rfl

/-- A thread in `Send` is in no method of the receiving side. -/
theorem apart_update {m : Method} (happart : ∀ t, s.method t ≠ .none → s.office.method t = .none)
    (hcurrent : m ≠ .none → s.office.method s.office.kernel.currentThread = .none)
    (hmethod : s'.method = Function.update s.method s.office.kernel.currentThread m)
    (hoffice : s'.office.method = s.office.method) :
    ∀ t, s'.method t ≠ .none → s'.office.method t = .none := by
  intro t ht
  rw [hoffice]
  rw [hmethod] at ht
  by_cases hcur : t = s.office.kernel.currentThread
  · subst hcur
    rw [Function.update_self] at ht
    exact hcurrent ht
  · rw [Function.update_of_ne hcur] at ht
    exact happart t ht

/-- What the running thread has called `Send` for has become a packet, or will. -/
theorem called_update {m : Method}
    (hcalled : ∀ t, s.packetsOf t ++ (s.method t).pending = s.calledBy t)
    (hmethod : s'.method = Function.update s.method s.office.kernel.currentThread m)
    (hothers : ∀ t ≠ s.office.kernel.currentThread,
      s'.packetsOf t = s.packetsOf t ∧ s'.calledBy t = s.calledBy t)
    (hcurrent : s'.packetsOf s.office.kernel.currentThread ++ m.pending =
      s'.calledBy s.office.kernel.currentThread) :
    ∀ t, s'.packetsOf t ++ (s'.method t).pending = s'.calledBy t := by
  intro t
  rw [hmethod]
  by_cases hcur : t = s.office.kernel.currentThread
  · rw [hcur, Function.update_self]
    exact hcurrent
  · obtain ⟨hpackets, hcalls⟩ := hothers t hcur
    rw [Function.update_of_ne hcur, hpackets, hcalls]
    exact hcalled t

/-- `Send` calls a routine. -/
theorem Consistent.call (hs : q.Consistent s) {c : Kernel.Call} {m : Method}
    (h : q.callRoutine s₁ c m = .ok s') (hoffice : s₁.office = s.office)
    (hmethod : s₁.method = s.method) (hpackets : ∀ p ∈ s₁.packets, q.Accepted p.message)
    (hcurrent : m ≠ .none → s.office.method s.office.kernel.currentThread = .none)
    (hacquire : ∀ m', m = .acquire m' → q.Accepted m')
    (hothers : ∀ t ≠ s.office.kernel.currentThread,
      s₁.packetsOf t = s.packetsOf t ∧ s₁.calledBy t = s.calledBy t)
    (hcalled : s₁.packetsOf s.office.kernel.currentThread ++ m.pending =
      s₁.calledBy s.office.kernel.currentThread)
    (hmirrored : ∃ d, Views s' d ∧ q.disk.Consistent (fun _ _ => 0) d) :
    q.Consistent s' ∧ s'.office.arrived = s.office.arrived ∧ s'.packets = s₁.packets := by
  obtain ⟨hst, -, hs'⟩ := callRoutine_ok h
  rw [hoffice] at hst hs'
  obtain ⟨hacts, hframe⟩ := PostOffice.step_acts (fun m hm => by cases hm) hst
  have hsame : s'.office.method = s.office.method := by
    cases hacts with
    | kernel _ hmethod => exact hmethod
    | call hkernel _ _ => exact absurd rfl (hkernel _)
    | stay hkernel _ => exact absurd rfl (hkernel _)
  have hupdate : s'.method = Function.update s.method s.office.kernel.currentThread m := by
    rw [hs', ← hmethod]
  have hvalid : PostOffice.Event.Valid q.post (.kernel (.call c)) := trivial
  refine ⟨⟨PostOffice.step_consistent hs.office hvalid hst, hframe.ident.trans hs.ident, hmirrored,
    apart_update hs.apart hcurrent hupdate hsame, fun t m' ht => ?_, ?_, ?_⟩, hframe.arrived, ?_⟩
  · rw [hupdate] at ht
    by_cases hcur : t = s.office.kernel.currentThread
    · rw [hcur, Function.update_self] at ht
      exact hacquire m' ht
    · rw [Function.update_of_ne hcur] at ht
      exact hs.acquiring t m' ht
  · rw [hs']
    exact hpackets
  · refine called_update hs.called hupdate ?_ ?_
    · rw [hs']
      exact hothers
    · rw [hs']
      exact hcalled
  · rw [hs']

/-- A step of the receiving side, or of something that is part of neither side. -/
theorem Consistent.officeStep (hs : q.Consistent s) {ev : PostOffice.Event}
    (hforeign : q.Foreign s ev) (hst : q.post.step s.office ev = .ok s'.office)
    (hdone : sendDone s.pending s.completed (q.deviceV ev) = .ok (s'.pending, s'.completed))
    (hmethod : s'.method = s.method) (hpackets : s'.packets = s.packets)
    (hcalled : s'.called = s.called) (hreturned : s'.returned = s.returned) :
    q.Consistent s' ∧ HandsOver q s s' none := by
  have harrive : ∀ m, ev ≠ .arrive m := by
    rintro m rfl
    exact hforeign
  have hvalid : PostOffice.Event.Valid q.post ev := by
    cases ev with
    | arrive m => exact absurd rfl (harrive m)
    | _ => trivial
  obtain ⟨hacts, hframe⟩ := PostOffice.step_acts harrive hst
  obtain ⟨d, hv, hd⟩ := hs.mirrored
  refine ⟨⟨PostOffice.step_consistent hs.office hvalid hst, hframe.ident.trans hs.ident,
    hv.officeStep hd hforeign hmethod hpackets hreturned hacts hdone, fun t ht => ?_,
    by rw [hmethod]; exact hs.acquiring, by rw [hpackets]; exact hs.accepted, fun t => ?_⟩,
    handsOver_none hframe.arrived hpackets⟩
  swap
  · rw [State.packetsOf, State.calledBy, hpackets, hmethod, hcalled]
    exact hs.called t
  rw [hmethod] at ht
  have hplain : (∀ e, ev ≠ .kernel e) → t ≠ s.office.kernel.currentThread := by
    rintro hkernel rfl
    exact ht (isNone_eq_true.mp (hforeign.plain hkernel).1)
  cases hacts with
  | kernel _ hsame =>
    rw [hsame]
    exact hs.apart t ht
  | call hkernel _ _ =>
    rw [hframe.method t (hplain hkernel)]
    exact hs.apart t ht
  | stay hkernel _ =>
    rw [hframe.method t (hplain hkernel)]
    exact hs.apart t ht

/-- Network accepts what `Send` has accepted. -/
theorem Accepted.networkSend {m : Message} (h : q.Accepted m) (data buffer : Bytes) :
    ∃ datagram, NachOS.networkSend q.post.netAddr m.filledHdr data buffer = .ok datagram := by
  obtain ⟨hlength, hmax, -⟩ := Message.filledHdr_length h.length
  refine ⟨_, if_pos ⟨?_, hmax, h.netAddr⟩⟩
  rw [hlength]
  exact Nat.lt_add_left _ (by decide)

/-- `Send` is called for a message that it accepts. -/
theorem Consistent.acquire (hs : q.Consistent s) {m : Message} (hm : q.Accepted m)
    (hnone : s.method s.office.kernel.currentThread = .none)
    (hfree : s.office.method s.office.kernel.currentThread = .none)
    (h : q.callRoutine { s with called := s.called ++ [(s.office.kernel.currentThread, m)] }
      (.acquire q.sendLock) (.acquire m) = .ok s') :
    q.Consistent s' ∧ HandsOver q s s' none := by
  obtain ⟨d, hv, hd⟩ := hs.mirrored
  have hbefore := hs.called s.office.kernel.currentThread
  rw [hnone] at hbefore
  obtain ⟨hconsistent, harrived, hpackets⟩ := hs.call h rfl rfl hs.accepted (fun _ => hfree)
    (fun m' hm' => by
      cases hm'
      exact hm)
    (fun t ht => ⟨rfl, by simp [State.calledBy, Ne.symm ht]⟩)
    (by simpa [State.packetsOf, State.calledBy, Method.pending] using hbefore) (hv.acquire hd h)
  exact ⟨hconsistent, handsOver_none harrived hpackets⟩

/-- The thread that has the lock hands its packet to the network. -/
theorem Consistent.request (hs : q.Consistent s) {m : Message} {lost : Bool}
    (hcode : s.office.kernel.code s.office.kernel.currentThread = [])
    (hacquire : s.method s.office.kernel.currentThread = .acquire m)
    (h : q.callRoutine { s with
        pending := s.pending ++ [s.packets.length]
        packets := s.packets ++ [⟨s.office.kernel.currentThread, m, lost⟩] }
      (.p q.messageSent) (.wait s.packets.length) = .ok s') :
    q.Consistent s' ∧ HandsOver q s s' (if lost then none else some m) := by
  obtain ⟨d, hv, hd⟩ := hs.mirrored
  have haccepted := hs.acquiring _ m hacquire
  have hbefore := hs.called s.office.kernel.currentThread
  rw [hacquire] at hbefore
  have hbusy : s.office.method s.office.kernel.currentThread = .none := by
    refine hs.apart _ fun hnone => ?_
    rw [hacquire] at hnone
    cases hnone
  obtain ⟨hconsistent, harrived, hpackets⟩ := hs.call h rfl rfl (fun p hp => by
      rcases List.mem_append.mp hp with hp | hp
      · exact hs.accepted p hp
      · rw [List.mem_singleton.mp hp]
        exact haccepted)
    (fun _ => hbusy) (fun m' hm' => by cases hm')
    (fun t ht => ⟨by simp [State.packetsOf, Ne.symm ht], rfl⟩)
    (by simpa [State.packetsOf, State.calledBy, Method.pending] using hbefore)
    (hv.request hd hcode hacquire h)
  refine ⟨hconsistent, harrived, ?_, fun m' hm' => ?_⟩
  · rw [State.handedOver, hpackets, List.filter_append, List.map_append]
    cases lost with
    | true => rfl
    | false => rfl
  · cases lost with
    | true => cases hm'
    | false =>
      cases hm'
      exact haccepted

/-- The packet has been sent. -/
theorem Consistent.release (hs : q.Consistent s) {number : ℕ}
    (hcode : s.office.kernel.code s.office.kernel.currentThread = [])
    (hwait : s.method s.office.kernel.currentThread = .wait number)
    (h : q.callRoutine s (.release q.sendLock) (.release number) = .ok s') :
    q.Consistent s' ∧ HandsOver q s s' none := by
  obtain ⟨d, hv, hd⟩ := hs.mirrored
  have hbefore := hs.called s.office.kernel.currentThread
  rw [hwait] at hbefore
  have hbusy : s.office.method s.office.kernel.currentThread = .none := by
    refine hs.apart _ fun hnone => ?_
    rw [hwait] at hnone
    cases hnone
  obtain ⟨hconsistent, harrived, hpackets⟩ := hs.call h rfl rfl hs.accepted (fun _ => hbusy)
    (fun m' hm' => by cases hm') (fun _ _ => ⟨rfl, rfl⟩) hbefore (hv.release hd hcode hwait h)
  exact ⟨hconsistent, handsOver_none harrived hpackets⟩

/-- `Send` returns. -/
theorem Consistent.return (hs : q.Consistent s) {number : ℕ}
    (hcode : s.office.kernel.code s.office.kernel.currentThread = [])
    (hrelease : s.method s.office.kernel.currentThread = .release number) :
    q.Consistent { s with
      method := Function.update s.method s.office.kernel.currentThread .none
      returned := s.returned ++ [(number, s.office.kernel.currentThread)] } := by
  obtain ⟨d, hv, hd⟩ := hs.mirrored
  have hbefore := hs.called s.office.kernel.currentThread
  rw [hrelease] at hbefore
  refine ⟨hs.office, hs.ident, hv.return hd hcode hrelease,
    apart_update hs.apart (fun h => absurd rfl h) rfl rfl, fun t m ht => ?_, hs.accepted,
    called_update hs.called rfl (fun _ _ => ⟨rfl, rfl⟩) hbefore⟩
  dsimp only at ht
  by_cases hcur : t = s.office.kernel.currentThread
  · rw [hcur, Function.update_self] at ht
    cases ht
  · rw [Function.update_of_ne hcur] at ht
    exact hs.acquiring t m ht

theorem step_consistent {ev : Event} (hs : q.Consistent s) (h : q.step s ev = .ok (message, s')) :
    q.Consistent s' ∧ HandsOver q s s' message := by
  cases step_taken h with
  | office hforeign hst hdone => exact hs.officeStep hforeign hst hdone rfl rfl rfl rfl
  | send hm hnone hfree hcall => exact hs.acquire hm hnone hfree hcall
  | request hcode hacquire hcall => exact hs.request hcode hacquire hcall
  | release hcode hwait hcall => exact hs.release hcode hwait hcall
  | «return» hcode hrelease => exact ⟨hs.return hcode hrelease, handsOver_none rfl rfl⟩

theorem method_of_callRoutine {c : Kernel.Call} {m : Method} {t : ℕ}
    (h : q.callRoutine s₁ c m = .ok s') : s'.method t = s₁.method t ∨ s'.method t = m := by
  rw [(callRoutine_ok h).2.2]
  dsimp only
  by_cases ht : t = s₁.office.kernel.currentThread
  · rw [ht, Function.update_self]
    exact .inr rfl
  · rw [Function.update_of_ne ht]
    exact .inl rfl

/-- Only `Send` is called for a message. -/
theorem step_acquiring {ev : Event} (h : q.step s ev = .ok (message, s')) {t : ℕ} {m : Message}
    (hm : s'.method t = .acquire m) : s.method t = .acquire m ∨ ev = .send m := by
  cases step_taken h with
  | office hforeign hst hdone => exact .inl hm
  | send hm' hnone hfree hcall =>
    rcases method_of_callRoutine hcall with hold | hnew
    · exact .inl (hold.symm.trans hm)
    · cases hm.symm.trans hnew
      exact .inr rfl
  | request hcode hacquire hcall =>
    rcases method_of_callRoutine hcall with hold | hnew
    · exact .inl (hold.symm.trans hm)
    · cases hm.symm.trans hnew
  | release hcode hwait hcall =>
    rcases method_of_callRoutine hcall with hold | hnew
    · exact .inl (hold.symm.trans hm)
    · cases hm.symm.trans hnew
  | «return» hcode hrelease =>
    dsimp only at hm
    by_cases hcur : t = s.office.kernel.currentThread
    · rw [hcur, Function.update_self] at hm
      cases hm
    · rw [Function.update_of_ne hcur] at hm
      exact .inl hm

/-- What a step hands over is the message of a thread that has the lock. -/
theorem step_message {ev : Event} {m : Message} (h : q.step s ev = .ok (some m, s')) :
    ∃ t, s.method t = .acquire m := by
  generalize hmessage : some m = message at h
  cases step_taken h with
  | office hforeign hst hdone => cases hmessage
  | send hm hnone hfree hcall => cases hmessage
  | @request lost m' s' hcode hacquire hcall =>
    cases lost with
    | true => cases hmessage
    | false =>
      cases hmessage
      exact ⟨_, hacquire⟩
  | release hcode hwait hcall => cases hmessage
  | «return» hcode hrelease => cases hmessage

/-- A message from another machine comes into the socket. -/
theorem Consistent.arrive (hs : q.Consistent s) {m : Message} {office : PostOffice.State}
    (hbox : m.mailHdr.Valid q.post.numBoxes) (h : q.post.step s.office (.arrive m) = .ok office) :
    q.Consistent { s with office } ∧ office.arrived = s.office.arrived ++ [m] := by
  have hvalid : PostOffice.Event.Valid q.post (.arrive m) := hbox
  have hconsistent := PostOffice.step_consistent hs.office hvalid h
  rw [PostOffice.step] at h
  split at h
  · cases h
  · rename_i datagram hsend
    split_ifs at h with hto
    have hoffice := Except.ok.inj h
    obtain ⟨d, hv, hd⟩ := hs.mirrored
    refine ⟨⟨hconsistent, ?_, ⟨d, ⟨hv.kernel.trans ?_, hv.sectors, hv.pending, hv.method, hv.requests,
      hv.completed, hv.returned⟩, hd⟩, fun t ht => ?_, hs.acquiring, hs.accepted, hs.called⟩, ?_⟩
    · rw [← hoffice]
      exact hs.ident
    · rw [← hoffice]
    · rw [← hoffice]
      exact hs.apart t ht
    · rw [← hoffice]

theorem Booted.consistent (hboot : q.Booted s) : q.Consistent s := by
  have hbooted : q.disk.Booted
      ⟨s.office.kernel, ⟨false, fun _ _ => 0, []⟩, fun _ => .none, [], [], []⟩ :=
    ⟨hboot.office.kernel, hboot.semaphore, rfl, rfl, fun _ => rfl, rfl, rfl, rfl⟩
  refine ⟨hboot.office.consistent, hboot.office.ident, ⟨_, ⟨rfl, rfl, hboot.pending.symm, ?_, ?_,
    hboot.completed.symm, ?_⟩, SynchDisk.Booted.consistent hbooted⟩,
    fun t ht => absurd (hboot.method t) ht, fun t m ht => ?_, fun p hp => ?_, fun t => ?_⟩
  · funext t
    rw [hboot.method]
    rfl
  · rw [hboot.packets]
    rfl
  · rw [hboot.returned]
    rfl
  · rw [hboot.method] at ht
    cases ht
  · rw [hboot.packets] at hp
    cases hp
  · rw [State.packetsOf, State.calledBy, hboot.packets, hboot.called, hboot.method]
    rfl

/-- One packet after the other is sent, and no call returns before its own packet. -/
theorem Consistent.serialised (hs : q.Consistent s) : s.pending.length ≤ 1 ∧
    ∀ number t, (number, t) ∈ s.returned →
      number ∈ s.completed ∧ ∃ p, s.packets[number]? = some p ∧ p.thread = t := by
  obtain ⟨d, hv, hd⟩ := hs.mirrored
  constructor
  · rw [← hv.pending]
    cases hd.phase with
    | idle _ hpending _ _ =>
      rw [hpending]
      exact Nat.zero_le 1
    | busy _ hpending _ =>
      rw [hpending]
      exact le_rfl
    | done _ _ hpending _ _ =>
      rw [hpending]
      exact Nat.zero_le 1
  · intro number t hreturned
    have hmem : (number, ⟨t, .read 0, fun _ => 0⟩) ∈ d.returned := by
      rw [hv.returned]
      exact List.mem_map.mpr ⟨_, hreturned, rfl⟩
    obtain ⟨hcompleted, hrequest⟩ := hd.ledger.returned _ _ hmem
    rw [hv.requests, List.getElem?_map, Option.map_eq_some_iff] at hrequest
    obtain ⟨p, hp, hthread⟩ := hrequest
    rw [hv.completed] at hcompleted
    exact ⟨hcompleted, p, hp, congrArg SynchDisk.Request.thread hthread⟩

theorem callRoutine_asserts (s : State) (c : Kernel.Call) (m : Method) :
    Avoids .assertion (q.callRoutine s c m) := by
  refine .bind ?_ fun _ _ => .pure _ _
  rw [PostOffice.step]
  split
  · refine (PostOffice.call_asserts _ c).bind fun _ _ => ?_
    exact .pure _ _
  · exact .error (by simp)

/-- No assertion fails when a thread goes on in `Send`. -/
theorem Consistent.proceed_asserts (hs : q.Consistent s) (lost : Bool) :
    Avoids .assertion (q.proceed s lost) := by
  unfold Sender.proceed
  split
  · exact .error (by simp)
  · split
    · exact .error (by simp)
    · rename_i m hacquire
      obtain ⟨datagram, hsend⟩ := (hs.acquiring _ m hacquire).networkSend m.payload m.wireBuffer
      rw [hs.ident, hsend]
      exact (callRoutine_asserts _ _ _).bind fun _ _ => .pure _ _
    · exact (callRoutine_asserts _ _ _).bind fun _ _ => .pure _ _
    · exact .ok _ _

/-- A call of `Send` with arguments that it accepts. -/
theorem send_asserts {m : Message} (hlength : m.mailHdr.length.toNat ≤ maxMailSize)
    (hbox : m.mailHdr.Valid m.numBoxes) : Avoids .assertion (q.step s (.send m)) := by
  rw [step]
  split
  · rw [Message.postSend, if_pos ⟨hlength, hbox⟩, ok_bind]
    exact (callRoutine_asserts _ _ _).bind fun _ _ => .pure _ _
  · exact .error (by simp)

/-- A call of `Receive` for a mailbox that there is. -/
theorem receive_asserts {box : ℤ} {data : Bytes} (hnonneg : 0 ≤ box)
    (hbox : box < q.post.numBoxes) :
    Avoids .assertion (q.step s (.office (.receive box data))) := by
  rw [step]
  split
  · refine .bind ?_ fun _ _ => .pure _ _
    rw [PostOffice.step]
    split
    · rw [if_pos ⟨hnonneg, hbox⟩]
      exact PostOffice.callRoutine_asserts _ _ _
    · exact .error (by simp)
  · exact .error (by simp)

theorem postalDelivery_asserts : Avoids .assertion (q.step s (.office .postalDelivery)) := by
  rw [step]
  split
  · refine .bind ?_ fun _ _ => .pure _ _
    rw [PostOffice.step]
    split
    · exact PostOffice.callRoutine_asserts _ _ _
    · exact .error (by simp)
  · exact .error (by simp)

/-- A thread calls `Send`, `Receive` or `PostalDelivery`, with the arguments that they ask for, or
goes on in one of them. -/
def Event.Legal (numBoxes : ℕ) : Event → Prop
  | .send m => m.mailHdr.length.toNat ≤ maxMailSize ∧ m.mailHdr.Valid numBoxes
  | .office (.receive box _) => 0 ≤ box ∧ box < numBoxes
  | .office .postalDelivery | .office .proceed | .proceed _ => True
  | .office (.kernel _) | .office (.arrive _) => False

/-- No assertion fails in `Send`, `PostalDelivery` or `Receive`. -/
theorem Consistent.step_asserts (hs : q.Consistent s) {ev : Event}
    (hev : ev.Legal q.post.numBoxes) : Avoids .assertion (q.step s ev) := by
  cases ev with
  | send m =>
    by_cases hboxes : m.numBoxes = q.post.numBoxes
    · exact send_asserts hev.1 (hboxes ▸ hev.2)
    · rw [step, if_neg fun hcan => hboxes hcan.2.2.2]
      exact .error (by simp)
  | proceed lost => exact hs.proceed_asserts lost
  | office ev =>
    cases ev with
    | receive box data => exact receive_asserts hev.1 hev.2
    | postalDelivery => exact postalDelivery_asserts
    | proceed =>
      rw [step]
      split
      · exact hs.office.proceed_asserts.bind fun _ _ => .pure _ _
      · exact .error (by simp)
    | kernel e => exact hev.elim
    | arrive m => exact hev.elim

end

end Sender
end NachOS
