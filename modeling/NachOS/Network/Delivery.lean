import NachOS.Network.PostOffice
import Mathlib.Data.List.Forall2

/-!
# Delivery of the mail

Every message that comes into the socket of a machine is in the socket, in the inbox, in the
hands of the postal worker or in the mailbox it is for, and it gets there in its turn. The
semaphore is `1` while there is a packet in the inbox that the worker has not been told of.
-/

namespace NachOS
namespace PostOffice

open PartialRun

/-! ## The invariant -/

/-- A method of the postal worker. -/
def Method.Puts : Method → Prop
  | .wait | .putAcquire _ _ | .putSignal _ | .putRelease _ => True
  | _ => False

/-- The mail that the worker is about to put into a mailbox. -/
def Method.held : Method → List (ℕ × Mail)
  | .putAcquire box mail => [(box, mail)]
  | _ => []

/-- The mail that `Receive` is about to return to the thread. -/
def Method.pending (t : ℕ) : Method → List Receipt
  | .getRelease box _ mail => [⟨t, box, mail⟩]
  | _ => []

/-- The mail is the message, and the mailbox is the one that its header names. -/
def Fits (m : Message) (p : ℕ × Mail) : Prop := p.1 = m.mailHdr.box ∧ m.Delivers p.2

/-- What `Receive` has returned is what it has taken out of the mailbox. -/
structure Receipt.Same (r r' : Receipt) : Prop where
  thread : r.thread = r'.thread
  box : r.box = r'.box
  pktHdr : r.mail.pktHdr = r'.mail.pktHdr
  mailHdr : r.mail.mailHdr = r'.mail.mailHdr
  data : Bytes.EqUpTo r'.mail.mailHdr.length.toNat r.mail.data r'.mail.data

/-- What a thread has got out of the mailboxes. -/
def ofThread (t : ℕ) (l : List Receipt) : List Receipt := l.filter fun r => r.thread = t

section

variable (q : PostOffice)

/-- The threads, and the operations of the semaphore that they are in. -/
structure Threads (s : State) : Prop where
  placed : s.kernel.Placed
  created : ∀ t, s.method t ≠ .none → s.kernel.created t = true
  sound : (s.kernel.semaphore (.user q.messageAvailable)).Sound 0
  quiet : ∀ t, .v (.user q.messageAvailable) ∉ s.kernel.code t
  tests : ∀ t, s.method t ≠ .wait →
    Kernel.testsLeft (.user q.messageAvailable) (s.kernel.code t) = 0
  worker : ∀ t, (s.method t).Puts → t = q.worker

/-- The worker has a unit of the semaphore to take, if it is in `P`. -/
def Waiting (s : State) : Prop := s.method q.worker = .wait →
  Kernel.testsLeft (.user q.messageAvailable) (s.kernel.code q.worker) = 1

/-- The inbox and the semaphore. -/
inductive Phase (s : State) : Prop where
  | empty (hlength : s.network.inHdr.length = 0)
    (hvalue : (s.kernel.semaphore (.user q.messageAvailable)).value = 0) (hwait : q.Waiting s)
  | full (hlength : s.network.inHdr.length ≠ 0)
    (hvalue : (s.kernel.semaphore (.user q.messageAvailable)).value = 1) (hwait : q.Waiting s)
  /-- The worker has taken the unit. -/
  | awake (hlength : s.network.inHdr.length ≠ 0)
    (hvalue : (s.kernel.semaphore (.user q.messageAvailable)).value = 0)
    (hmethod : s.method q.worker = .wait)
    (htests : Kernel.testsLeft (.user q.messageAvailable) (s.kernel.code q.worker) = 0)

/-- Where the messages are: in the mailboxes, with the worker, in the inbox, in the socket. -/
structure Carried (s : State) (done held boxed queued : List Message) : Prop where
  arrived : s.arrived = done ++ held ++ boxed ++ queued
  done : List.Forall₂ Fits done s.delivered
  held : List.Forall₂ Fits held (s.method q.worker).held
  boxed : (s.network.inHdr.length = 0 ∧ boxed = []) ∨
    ∃ m, boxed = [m] ∧ m.Buffered s.network
  queued : List.Forall₂ Message.Sent queued s.network.sock

/-- The message may be sent to this post office. -/
structure Admissible (s : State) (m : Message) : Prop where
  toAddr : m.pktHdr.toAddr = s.network.ident
  length : m.mailHdr.length.toNat ≤ maxMailSize
  box : m.mailHdr.Valid q.numBoxes

/-- No mail is too long for `Receive`. -/
structure Sized (s : State) : Prop where
  messages : ∀ b, ∀ mail ∈ s.messages b, mail.mailHdr.length.toNat ≤ maxMailSize
  pending : ∀ t, ∀ r ∈ (s.method t).pending t, r.mail.mailHdr.length.toNat ≤ maxMailSize

structure Consistent (s : State) : Prop where
  mirrored : ∀ b < q.numBoxes, q.Mirrored s b
  threads : q.Threads s
  phase : q.Phase s
  admissible : ∀ m ∈ s.arrived, q.Admissible s m
  carried : ∃ done held boxed queued, q.Carried s done held boxed queued
  sized : Sized s
  returned : ∀ t, List.Forall₂ Receipt.Same
    (ofThread t s.received ++ (s.method t).pending t) (ofThread t s.taken)

end

section

variable {q : PostOffice} {s s₁ s' : State} {c : Kernel.Call} {m : Method} {e : Kernel.Event}
  {k' : Kernel} {done held boxed queued : List Message}

theorem Receipt.same_refl (r : Receipt) : r.Same r := ⟨rfl, rfl, rfl, rfl, fun _ _ => rfl⟩

/-- What may arrive depends on the network's address only. -/
theorem Admissible.congr {msg : Message} (h : q.Admissible s msg)
    (hident : s'.network.ident = s.network.ident) : q.Admissible s' msg :=
  ⟨h.toAddr.trans hident.symm, h.length, h.box⟩

theorem isNone_eq_true : m.isNone = true ↔ m = .none := by
  cases m <;> simp [Method.isNone]

/-! ## Polls -/

/-- With a packet still waiting, or an empty socket, `CheckPktAvail` reads nothing. -/
theorem polls_none {network network' : Network} {n : ℕ}
    (h : network.inHdr.length ≠ 0 ∨ network.sock = []) (hpolls : network.polls n = .ok network') :
    n = 0 ∧ network' = network := by
  cases n with
  | zero => exact ⟨rfl, (Except.ok.inj hpolls).symm⟩
  | succ n =>
    have hcheck : network.checkPktAvail = .ok (false, network) := by
      unfold Network.checkPktAvail
      rcases h with hlength | hsock
      · rw [if_pos hlength]
      · rw [hsock, ite_self]
    rw [Network.polls, hcheck] at hpolls
    cases hpolls

/-- Otherwise one poll takes the first datagram, which is a message that some machine sent here. -/
theorem polls_sent {network network' : Network} {n : ℕ} {msg : Message} {datagram : Bytes}
    {sock : List Bytes} (hsent : msg.Sent datagram) (hempty : network.inHdr.length = 0)
    (hsock : network.sock = datagram :: sock) (hto : msg.pktHdr.toAddr = network.ident)
    (hlength : msg.mailHdr.length.toNat ≤ maxMailSize) (hpolls : network.polls n = .ok network') :
    (n = 0 ∧ network' = network) ∨
      (n = 1 ∧ msg.Buffered network' ∧ network'.sock = sock ∧ network'.ident = network.ident) := by
  cases n with
  | zero => exact .inl ⟨rfl, (Except.ok.inj hpolls).symm⟩
  | succ n =>
    obtain ⟨net₁, hcheck, hbuffered, hrest, hident⟩ :=
      hsent.checkPktAvail hempty hsock hto hlength
    rw [Network.polls, hcheck] at hpolls
    have hpolls : net₁.polls n = .ok network' := hpolls
    obtain ⟨-, -, hne⟩ := Message.filledHdr_length hlength
    -- the second of two polls finds a full inbox
    obtain ⟨rfl, rfl⟩ := polls_none (.inl (by rw [hbuffered.inHdr]; exact hne)) hpolls
    exact .inr ⟨rfl, hbuffered, hrest, hident⟩

/-- A poll moves a message from the socket into an empty inbox, or does nothing. -/
theorem Carried.polls {network' : Network} {n : ℕ} (hc : q.Carried s done held boxed queued)
    (hadm : ∀ msg ∈ s.arrived, q.Admissible s msg) (h : s.network.polls n = .ok network') :
    (n = 0 ∧ network' = s.network) ∨
    (n = 1 ∧ s.network.inHdr.length = 0 ∧ network'.inHdr.length ≠ 0 ∧
      network'.ident = s.network.ident ∧ ∃ boxed queued, ∀ k,
        q.Carried { s with kernel := k, network := network' } done held boxed queued) := by
  rcases hc.boxed with ⟨hempty, hboxed⟩ | ⟨msg, hboxed, hbuffered⟩
  · cases hqueued : queued with
    | nil =>
      have hnone := hc.queued
      rw [hqueued, List.forall₂_nil_left_iff] at hnone
      exact .inl (polls_none (.inr hnone) h)
    | cons msg queued =>
      have hsock := hc.queued
      rw [hqueued, List.forall₂_cons_left_iff] at hsock
      obtain ⟨datagram, sock, hsent, hrest, hsock⟩ := hsock
      have harrived := hc.arrived
      rw [hboxed, hqueued, List.append_nil] at harrived
      obtain ⟨hto, hlength, -⟩ := hadm msg (by simp [harrived])
      rcases polls_sent hsent hempty hsock hto hlength h with
        hnone | ⟨hone, hbuffered, hsock', hident⟩
      · exact .inl hnone
      · obtain ⟨-, -, hne⟩ := Message.filledHdr_length hlength
        refine .inr ⟨hone, hempty, by rw [hbuffered.inHdr]; exact hne, hident, [msg], queued,
          fun k => ⟨?_, hc.done, hc.held, .inr ⟨msg, rfl, hbuffered⟩, ?_⟩⟩
        · simp [harrived]
        · rw [← hsock'] at hrest
          exact hrest
  · have harrived := hc.arrived
    rw [hboxed] at harrived
    obtain ⟨-, hlength, -⟩ := hadm msg (by simp [harrived])
    obtain ⟨-, -, hne⟩ := Message.filledHdr_length hlength
    exact .inl (polls_none (.inl (by rw [hbuffered.inHdr]; exact hne)) h)

/-! ## Steps of the kernel -/

/-- A thread inside a method makes no call from outside of it. -/
theorem Foreign.silent (h : q.Foreign s e) {t : ℕ} (ht : s.method t ≠ .none) :
    s.kernel.Silent t e := by
  intro hcur call he
  subst he
  rw [← hcur] at ht
  exact ht (isNone_eq_true.mp h.1)

/-- A call from outside the methods does not use the semaphores of the post office. -/
theorem Foreign.uses (h : q.Foreign s e) (c : Kernel.Call) (he : e = .call c) : ¬ q.Uses c := by
  subst he
  exact h.2

theorem Foreign.ne_p (h : q.Foreign s e) (c : Kernel.Call) (he : e = .call c) :
    c ≠ .p q.messageAvailable := fun hp => h.uses c he (.inl hp)

theorem Foreign.ne_v (h : q.Foreign s e) (c : Kernel.Call) (he : e = .call c) :
    c ≠ .v q.messageAvailable := fun hv => h.uses c he (.inr (.inl hv))

/-- What holds of the threads is kept by a step of the kernel. -/
theorem Threads.kernelStep {network : Network} (ht : q.Threads s) (hforeign : q.Foreign s e)
    (h : s.kernel.step e = .ok k') : q.Threads { s with kernel := k', network := network } where
  placed := Kernel.step_placed ht.placed h
  created t hmethod := Kernel.step_created ht.placed (ht.created t hmethod) h
  sound := Kernel.step_sound ht.sound h
  quiet := Kernel.step_quiet ht.placed h hforeign.ne_v ht.quiet
  tests t hmethod := Kernel.step_testsLeft_zero ht.placed h hforeign.ne_p (ht.tests t hmethod)
  worker := ht.worker

/-- Only the worker takes a unit. -/
theorem Threads.takes (ht : q.Threads s)
    (h : Kernel.TakesUnit (.user q.messageAvailable) s.kernel e) :
    s.method q.worker = .wait ∧ s.kernel.currentThread = q.worker := by
  have hwait : s.method s.kernel.currentThread = .wait := by
    by_contra hne
    exact h.testsLeft_ne_zero (ht.tests _ hne)
  have hworker : s.kernel.currentThread = q.worker := by
    apply ht.worker
    rw [hwait]
    trivial
  rw [← hworker]
  exact ⟨hwait, rfl⟩

/-- The worker in `P` has what it had to do, or has taken a unit. -/
theorem Threads.testsLeft (ht : q.Threads s) (hforeign : q.Foreign s e)
    (h : s.kernel.step e = .ok k') (hmethod : s.method q.worker = .wait) :
    (Kernel.TakesUnit (.user q.messageAvailable) s.kernel e ∧
      Kernel.testsLeft (.user q.messageAvailable) (s.kernel.code q.worker) =
        Kernel.testsLeft (.user q.messageAvailable) (k'.code q.worker) + 1) ∨
    (¬ Kernel.TakesUnit (.user q.messageAvailable) s.kernel e ∧
      Kernel.testsLeft (.user q.messageAvailable) (k'.code q.worker) =
        Kernel.testsLeft (.user q.messageAvailable) (s.kernel.code q.worker)) := by
  have hne : s.method q.worker ≠ .none := by simp [hmethod]
  rcases Kernel.step_testsLeft ht.placed h (ht.created _ hne) (hforeign.silent hne) with
    ⟨-, htakes, hless⟩ | ⟨hnot, hsame⟩
  · exact .inl ⟨htakes, hless⟩
  · exact .inr ⟨fun htakes => hnot ⟨(ht.takes htakes).2.symm, htakes⟩, hsame⟩

/-- While no unit of `messageAvailable` is taken, the worker keeps waiting for it. -/
theorem Waiting.kernelStep {network : Network} (hwait : q.Waiting s) (ht : q.Threads s)
    (hforeign : q.Foreign s e) (h : s.kernel.step e = .ok k')
    (hnot : ¬ Kernel.TakesUnit (.user q.messageAvailable) s.kernel e) :
    q.Waiting { s with kernel := k', network := network } := by
  intro hmethod
  rcases ht.testsLeft hforeign h hmethod with ⟨htakes, -⟩ | ⟨-, hsame⟩
  · exact absurd htakes hnot
  · exact hsame.trans (hwait hmethod)

/-- A packet arrives exactly where the kernel saw the interrupt that signals it. -/
theorem Phase.kernelStep {network : Network} (hp : q.Phase s) (ht : q.Threads s)
    (hforeign : q.Foreign s e) (h : s.kernel.step e = .ok k')
    (hpolls : (e.deviceV q.messageAvailable = 0 ∧ network = s.network) ∨
      (e.deviceV q.messageAvailable = 1 ∧ s.network.inHdr.length = 0 ∧
        network.inHdr.length ≠ 0)) :
    q.Phase { s with kernel := k', network := network } := by
  have hvalue := Kernel.step_value h fun hv => ht.quiet _ hv.mem
  cases hp with
  | empty hlength hzero hwait =>
    -- the semaphore is 0, so nobody gets past it in this step
    have hnot : ¬ Kernel.TakesUnit (.user q.messageAvailable) s.kernel e :=
      fun htakes => htakes.2 hzero
    have hwait' : q.Waiting { s with kernel := k', network := network } :=
      hwait.kernelStep ht hforeign h hnot
    have hvalue : (k'.semaphore (.user q.messageAvailable)).value =
        e.deviceV q.messageAvailable := by
      rcases hvalue with ⟨htakes, -⟩ | ⟨-, hvalue⟩
      · exact absurd htakes hnot
      · rw [hvalue, hzero, Int.zero_add]
    rcases hpolls with ⟨hnone, rfl⟩ | ⟨hone, -, hfull⟩
    · exact .empty hlength (by rw [hvalue, hnone]; rfl) hwait'
    · exact .full hfull (by rw [hvalue, hone]; rfl) hwait'
  | full hlength hone hwait =>
    rcases hpolls with ⟨hnone, rfl⟩ | ⟨-, hempty, -⟩
    · rcases hvalue with ⟨htakes, -, hvalue⟩ | ⟨hnot, hvalue⟩
      · -- the worker is back from `P`, or on its way
        obtain ⟨hmethod, -⟩ := ht.takes htakes
        refine .awake hlength (by rw [hvalue, hone]; rfl) hmethod ?_
        have hleft := hwait hmethod
        rcases ht.testsLeft hforeign h hmethod with ⟨-, hless⟩ | ⟨hnot, -⟩
        · show Kernel.testsLeft _ (k'.code q.worker) = 0
          omega
        · exact absurd htakes hnot
      · exact .full hlength (by rw [hvalue, hone, hnone]; rfl)
          (hwait.kernelStep ht hforeign h hnot)
    · exact absurd hempty hlength
  | awake hlength hzero hmethod htests =>
    rcases hpolls with ⟨hnone, rfl⟩ | ⟨-, hempty, -⟩
    · have hnot : ¬ Kernel.TakesUnit (.user q.messageAvailable) s.kernel e :=
        fun htakes => htakes.2 hzero
      refine .awake hlength ?_ hmethod ?_
      · rcases hvalue with ⟨htakes, -⟩ | ⟨-, hvalue⟩
        · exact absurd htakes hnot
        · rw [hvalue, hzero, hnone]
          rfl
      · exact Kernel.step_testsLeft_zero ht.placed h hforeign.ne_p htests
    · exact absurd hempty hlength

/-- A step of the kernel keeps the invariant, if the lists of the boxes are kept. -/
theorem Consistent.kernelStep {network : Network} (hs : q.Consistent s)
    (hmirrored : ∀ b < q.numBoxes, q.Mirrored { s with kernel := k', network := network } b)
    (hforeign : q.Foreign s e) (h : s.kernel.step e = .ok k')
    (hpolls : s.network.polls (e.deviceV q.messageAvailable) = .ok network) :
    q.Consistent { s with kernel := k', network := network } := by
  obtain ⟨done, held, boxed, queued, hc⟩ := hs.carried
  rcases hc.polls hs.admissible hpolls with
    ⟨hnone, rfl⟩ | ⟨hone, hempty, hfull, hident, boxed', queued', hc'⟩
  · exact ⟨hmirrored, hs.threads.kernelStep hforeign h,
      hs.phase.kernelStep hs.threads hforeign h (.inl ⟨hnone, rfl⟩),
      fun msg hmsg => (hs.admissible msg hmsg).congr rfl,
      ⟨done, held, boxed, queued, hc.arrived, hc.done, hc.held, hc.boxed, hc.queued⟩,
      ⟨hs.sized.messages, hs.sized.pending⟩, hs.returned⟩
  · exact ⟨hmirrored, hs.threads.kernelStep hforeign h,
      hs.phase.kernelStep hs.threads hforeign h (.inr ⟨hone, hempty, hfull⟩),
      fun msg hmsg => (hs.admissible msg hmsg).congr hident,
      ⟨done, held, boxed', queued', hc' k'⟩, ⟨hs.sized.messages, hs.sized.pending⟩, hs.returned⟩

/-! ## Calls of the methods -/

/-- So does a call that a method makes, one clause for each of the worker's obligations. -/
theorem Threads.call (ht : q.Threads s) (h : callRoutine s₁ c m = .ok s')
    (hkernel : s₁.kernel = s.kernel) (hmethod : s₁.method = s.method)
    (hv : c ≠ .v q.messageAvailable) (hp : c = .p q.messageAvailable → m = .wait)
    (hputs : m.Puts → s.kernel.currentThread = q.worker) : q.Threads s' := by
  obtain ⟨hst, hs'⟩ := callRoutine_ok h
  rw [hkernel] at hst hs'
  rw [hmethod] at hs'
  have hcalled := Kernel.call_called ht.placed.current hst
  generalize s'.kernel = k' at hst hs' hcalled
  subst hs'
  have hother : ∀ {t}, t ≠ s.kernel.currentThread →
      Function.update s.method s.kernel.currentThread m t = s.method t :=
    fun hne => Function.update_of_ne hne _ _
  refine ⟨Kernel.step_placed ht.placed hst, fun t hne => ?_, Kernel.step_sound ht.sound hst, ?_,
    fun t hne => ?_, fun t hputs' => ?_⟩
  · by_cases hcur : t = s.kernel.currentThread
    · rw [hcur]
      exact hcalled.created _ ht.placed.current
    · have hne : Function.update s.method s.kernel.currentThread m t ≠ .none := hne
      rw [hother hcur] at hne
      exact hcalled.created t (ht.created t hne)
  · refine Kernel.step_quiet ht.placed hst (fun c' he => ?_) ht.quiet
    cases he
    exact hv
  · have hne : Function.update s.method s.kernel.currentThread m t ≠ .wait := hne
    by_cases hcur : t = s.kernel.currentThread
    · rw [hcur, Function.update_self] at hne
      rw [hcur]
      show Kernel.testsLeft _ (k'.code _) = 0
      rw [hcalled.code, Kernel.testsLeft_eq_zero]
      exact Kernel.not_willTest_routine_of_ne fun heq => hne (hp heq)
    · rw [hother hcur] at hne
      exact hcalled.testsLeft_zero hcur (ht.tests t hne)
  · have hputs' : (Function.update s.method s.kernel.currentThread m t).Puts := hputs'
    by_cases hcur : t = s.kernel.currentThread
    · rw [hcur, Function.update_self] at hputs'
      rw [hcur]
      exact hputs hputs'
    · rw [hother hcur] at hputs'
      exact ht.worker t hputs'

/-- A call that leaves the inbox as it is, by a thread that does not wait for a packet. -/
theorem Phase.call (hp : q.Phase s) (ht : q.Threads s) (h : callRoutine s₁ c m = .ok s')
    (hkernel : s₁.kernel = s.kernel) (hmethod : s₁.method = s.method)
    (hnetwork : s₁.network = s.network) (hold : s.method s.kernel.currentThread ≠ .wait)
    (hone : m = .wait → c = .p q.messageAvailable) : q.Phase s' := by
  obtain ⟨hst, hs'⟩ := callRoutine_ok h
  rw [hkernel] at hst hs'
  rw [hmethod, hnetwork] at hs'
  have hcalled := Kernel.call_called ht.placed.current hst
  generalize s'.kernel = k' at hst hs' hcalled
  subst hs'
  have hsem : k'.semaphore = s.kernel.semaphore := by rw [hcalled.frame]
  have hkept : s.kernel.currentThread ≠ q.worker → s.method q.worker = .wait →
      k'.code q.worker = s.kernel.code q.worker := by
    intro hne hwait
    exact hcalled.code_eq (Ne.symm hne) (ht.created _ (by simp [hwait]))
  have hwait : q.Waiting s → q.Waiting { s₁ with
      kernel := k'
      network := s.network
      method := Function.update s.method s.kernel.currentThread m } := by
    intro hwait hmethod'
    have hmethod' : Function.update s.method s.kernel.currentThread m q.worker = .wait := hmethod'
    show Kernel.testsLeft _ (k'.code q.worker) = 1
    by_cases hcur : s.kernel.currentThread = q.worker
    · rw [← hcur, Function.update_self] at hmethod'
      rw [← hcur, hcalled.code, hone hmethod']
      simp [Kernel.Call.routine, semaphoreP, Kernel.testsLeft]
    · rw [Function.update_of_ne (Ne.symm hcur)] at hmethod'
      rw [hkept hcur hmethod']
      exact hwait hmethod'
  cases hp with
  | empty hlength hvalue hw => exact .empty hlength (by rw [hsem]; exact hvalue) (hwait hw)
  | full hlength hvalue hw => exact .full hlength (by rw [hsem]; exact hvalue) (hwait hw)
  | awake hlength hvalue hmethod' htests =>
    -- the worker is awake in `wait`, so the caller is another thread
    have hcur : s.kernel.currentThread ≠ q.worker := by
      intro heq
      rw [heq] at hold
      exact hold hmethod'
    refine .awake hlength (by rw [hsem]; exact hvalue) ?_ ?_
    · show Function.update s.method s.kernel.currentThread m q.worker = .wait
      rw [Function.update_of_ne (Ne.symm hcur)]
      exact hmethod'
    · show Kernel.testsLeft _ (k'.code q.worker) = 0
      rw [hkept hcur hmethod']
      exact htests

/-- The thread has no mail in its hands. -/
structure Method.Free (m : Method) : Prop where
  held : m.held = []
  pending : ∀ t, m.pending t = []

/-- A step that neither takes nor gives up a message leaves what the worker holds. -/
theorem held_update (hold : (s.method s.kernel.currentThread).held = []) (hnew : m.held = []) :
    (Function.update s.method s.kernel.currentThread m q.worker).held =
      (s.method q.worker).held := by
  by_cases hcur : q.worker = s.kernel.currentThread
  · rw [hcur, Function.update_self, hold, hnew]
  · rw [Function.update_of_ne hcur]

theorem pending_update (hold : ∀ t, (s.method s.kernel.currentThread).pending t = [])
    (hnew : ∀ t, m.pending t = []) (t : ℕ) :
    (Function.update s.method s.kernel.currentThread m t).pending t = (s.method t).pending t := by
  by_cases hcur : t = s.kernel.currentThread
  · rw [hcur, Function.update_self, hold, hnew]
  · rw [Function.update_of_ne hcur]

/-- A call of a method, by a thread that has no mail in its hands before and after it. -/
theorem Consistent.freeCall (hs : q.Consistent s) (h : callRoutine s c m = .ok s')
    (hmirrored : ∀ b < q.numBoxes, q.Mirrored s' b)
    (hold : (s.method s.kernel.currentThread).Free)
    (hwait : s.method s.kernel.currentThread ≠ .wait) (hnew : m.Free)
    (hv : c ≠ .v q.messageAvailable) (hp : c = .p q.messageAvailable ↔ m = .wait)
    (hputs : m.Puts → s.kernel.currentThread = q.worker) : q.Consistent s' := by
  have hthreads := hs.threads.call h rfl rfl hv hp.mp hputs
  have hphase := hs.phase.call hs.threads h rfl rfl rfl hwait hp.mpr
  obtain ⟨done, held, boxed, queued, hc⟩ := hs.carried
  obtain ⟨-, hs'⟩ := callRoutine_ok h
  rw [hs'] at hmirrored hthreads hphase ⊢
  have hpending := pending_update hold.pending hnew.pending
  refine ⟨hmirrored, hthreads, hphase,
    fun msg hmsg => (hs.admissible msg hmsg).congr rfl,
    ⟨done, held, boxed, queued, hc.arrived, hc.done, ?_, hc.boxed, hc.queued⟩,
    ⟨hs.sized.messages, fun t r hr => ?_⟩, fun t => ?_⟩
  · show List.Forall₂ Fits held (Function.update s.method s.kernel.currentThread m q.worker).held
    rw [held_update hold.held hnew.held]
    exact hc.held
  · have hr : r ∈ (Function.update s.method s.kernel.currentThread m t).pending t := hr
    rw [hpending] at hr
    exact hs.sized.pending t r hr
  · show List.Forall₂ Receipt.Same (_ ++
      (Function.update s.method s.kernel.currentThread m t).pending t) _
    rw [hpending]
    exact hs.returned t

/-! ## The postal worker -/

/-- The worker that is back from `P` finds a packet in the inbox. -/
theorem Consistent.buffered (hs : q.Consistent s)
    (hcode : s.kernel.code s.kernel.currentThread = [])
    (hmethod : s.method s.kernel.currentThread = .wait) :
    s.kernel.currentThread = q.worker ∧
    (s.kernel.semaphore (.user q.messageAvailable)).value = 0 ∧
    ∃ done msg queued, q.Carried s done [] [msg] queued ∧ msg.Buffered s.network := by
  have hcur : s.kernel.currentThread = q.worker := by
    apply hs.threads.worker
    rw [hmethod]
    trivial
  have hawake : ¬ q.Waiting s := by
    intro hwait
    rw [hcur] at hmethod hcode
    have hone := hwait hmethod
    rw [hcode] at hone
    cases hone
  cases hs.phase with
  | empty _ _ hwait => exact absurd hwait hawake
  | full _ _ hwait => exact absurd hwait hawake
  | awake hlength hvalue hworker _ =>
    obtain ⟨done, held, boxed, queued, hc⟩ := hs.carried
    rcases hc.boxed with ⟨hempty, -⟩ | ⟨msg, rfl, hbuffered⟩
    · exact absurd hempty hlength
    · have hheld := hc.held
      rw [hworker] at hheld
      obtain rfl := List.forall₂_nil_right_iff.mp hheld
      exact ⟨hcur, hvalue, done, msg, queued, hc, hbuffered⟩

/-- The worker takes the message out of the inbox, and goes to the mailbox it is for. -/
theorem sort_buffered {msg : Message} (hbuffered : msg.Buffered s.network)
    (hadm : q.Admissible s msg) : ∃ network buffer mail, msg.Delivers mail ∧
      network.inHdr.length = 0 ∧ network.sock = s.network.sock ∧
      network.ident = s.network.ident ∧
      q.sort s = callRoutine { s with network := network, buffer := buffer }
        (.acquire (q.messages msg.mailHdr.box).lock) (.putAcquire msg.mailHdr.box mail) := by
  obtain ⟨buffer, network, hreceive, hheader, hdata, hempty, hsock, hident⟩ :=
    hbuffered.receive hadm.length s.buffer
  obtain ⟨mail, hmail, hdelivers⟩ := Message.newMail_delivers hadm.length hdata
  refine ⟨network, buffer, mail, hdelivers, hempty, hsock, hident, ?_⟩
  unfold sort
  rw [hreceive]
  dsimp only
  rw [hheader, if_pos ⟨hadm.box, hadm.length⟩, hmail]
  rfl

/-- The worker takes the message out of the inbox and holds it from then on. -/
theorem Consistent.sort (hs : q.Consistent s)
    (hcode : s.kernel.code s.kernel.currentThread = [])
    (hmethod : s.method s.kernel.currentThread = .wait) (h : q.sort s = .ok s')
    (hmirrored : ∀ b < q.numBoxes, q.Mirrored s' b) : q.Consistent s' := by
  obtain ⟨hcur, hvalue, done, msg, queued, hc, hbuffered⟩ := hs.buffered hcode hmethod
  have hadm := hs.admissible msg (by simp [hc.arrived])
  obtain ⟨network, buffer, mail, hdelivers, hempty, hsock, hident, hsort⟩ :=
    sort_buffered hbuffered hadm
  rw [hsort] at h
  have hthreads : q.Threads s' :=
    hs.threads.call h rfl rfl (by simp) (by simp) fun _ => hcur
  obtain ⟨hst, hs'⟩ := callRoutine_ok h
  have hcalled : s.kernel.Called _ s'.kernel := Kernel.call_called hs.threads.placed.current hst
  have hself : s'.method q.worker = .putAcquire msg.mailHdr.box mail := by
    rw [hs', ← hcur]
    exact Function.update_self _ _ _
  have hnetwork : s'.network = network := by rw [hs']
  have hpending : ∀ t, (s'.method t).pending t = (s.method t).pending t := by
    rw [hs']
    exact pending_update (by rw [hmethod]; exact fun _ => rfl) fun _ => rfl
  refine ⟨hmirrored, hthreads, ?phase, fun m hm => ?admissible, ⟨done, [msg], [], queued, ?arrived,
    ?done, ?held, ?boxed, ?queued⟩, ⟨?messages, fun t r hr => ?pending⟩, fun t => ?returned⟩
  case phase =>
    -- the packet is out of the inbox and the worker out of `P`
    refine .empty (by rw [hnetwork]; exact hempty) ?_ fun hwait => ?_
    · rw [hcalled.frame]
      exact hvalue
    · rw [hself] at hwait
      cases hwait
  case admissible =>
    rw [hs'] at hm
    exact (hs.admissible m hm).congr (by rw [hnetwork, hident])
  case arrived =>
    rw [hs']
    exact hc.arrived.trans (by simp)
  case done =>
    rw [hs']
    exact hc.done
  case held =>
    -- the message goes from the inbox to the worker
    rw [hself]
    exact .cons ⟨rfl, hdelivers⟩ .nil
  case boxed =>
    rw [hnetwork]
    exact .inl ⟨hempty, rfl⟩
  case queued =>
    rw [hnetwork, hsock]
    exact hc.queued
  case messages =>
    rw [hs']
    exact hs.sized.messages
  case pending =>
    rw [hpending] at hr
    exact hs.sized.pending t r hr
  case returned =>
    rw [hpending, hs']
    exact hs.returned t

/-- `Put` appends the mail under the lock of the box: what was held is now in the box. -/
theorem Consistent.append {box : ℕ} {mail : Mail} (hs : q.Consistent s)
    (hmethod : s.method s.kernel.currentThread = .putAcquire box mail)
    (h : callRoutine { s with
        messages := Function.update s.messages box (s.messages box ++ [mail])
        delivered := s.delivered ++ [(box, mail)] }
      (.signal (q.messages box).listEmpty) (.putSignal box) = .ok s')
    (hmirrored : ∀ b < q.numBoxes, q.Mirrored s' b) : q.Consistent s' := by
  have hcur : s.kernel.currentThread = q.worker := by
    apply hs.threads.worker
    rw [hmethod]
    trivial
  have hthreads : q.Threads s' :=
    hs.threads.call h rfl rfl (by simp) (by simp) fun _ => hcur
  have hphase : q.Phase s' :=
    hs.phase.call hs.threads h rfl rfl rfl (by simp [hmethod]) (by simp)
  obtain ⟨done, held, boxed, queued, hc⟩ := hs.carried
  have hheld := hc.held
  rw [← hcur, hmethod] at hheld
  -- the worker holds this one message
  obtain ⟨msg, rest, hfits, hrest, rfl⟩ := List.forall₂_cons_right_iff.mp hheld
  obtain rfl := List.forall₂_nil_right_iff.mp hrest
  have hadm := hs.admissible msg (by simp [hc.arrived])
  obtain ⟨-, hs'⟩ := callRoutine_ok h
  have hpending : ∀ t, (s'.method t).pending t = (s.method t).pending t := by
    rw [hs']
    exact pending_update (by rw [hmethod]; exact fun _ => rfl) fun _ => rfl
  refine ⟨hmirrored, hthreads, hphase, ?admissible, ⟨done ++ [msg], [], boxed, queued, ?arrived,
    ?done, ?held, ?boxed, ?queued⟩, ⟨fun b letter hmem => ?messages, fun t r hr => ?pending⟩,
    fun t => ?returned⟩
  case admissible =>
    rw [hs']
    exact fun m hm => (hs.admissible m hm).congr rfl
  case arrived =>
    rw [hs']
    exact hc.arrived.trans (by simp)
  case done =>
    rw [hs']
    exact List.rel_append hc.done (.cons hfits .nil)
  case held =>
    rw [hs', ← hcur]
    dsimp only
    rw [Function.update_self]
    exact .nil
  case boxed =>
    rw [hs']
    exact hc.boxed
  case queued =>
    rw [hs']
    exact hc.queued
  case messages =>
    rw [hs'] at hmem
    have hmem : letter ∈ Function.update s.messages box (s.messages box ++ [mail]) b := hmem
    by_cases hb : b = box
    · rw [hb, Function.update_self] at hmem
      rcases List.mem_append.mp hmem with hmem | hmem
      · exact hs.sized.messages box letter hmem
      · rw [List.mem_singleton.mp hmem, hfits.2.mailHdr]
        exact hadm.length
    · rw [Function.update_of_ne hb] at hmem
      exact hs.sized.messages b letter hmem
  case pending =>
    rw [hpending] at hr
    exact hs.sized.pending t r hr
  case returned =>
    rw [hpending, hs']
    exact hs.returned t

/-! ## `Receive` -/

/-- A receipt is counted to its own thread. -/
theorem ofThread_append_self (l : List Receipt) (r : Receipt) :
    ofThread r.thread (l ++ [r]) = ofThread r.thread l ++ [r] := by
  simp [ofThread]

/-- And to no other. -/
theorem ofThread_append_of_ne {t : ℕ} (l : List Receipt) {r : Receipt} (h : t ≠ r.thread) :
    ofThread t (l ++ [r]) = ofThread t l := by
  simp [ofThread, Ne.symm h]

theorem Receipt.Same.get {t box : ℕ} {mail : Mail} {r : Receipt}
    (h : Receipt.Same ⟨t, box, mail⟩ r) (data : Bytes) :
    Receipt.Same ⟨t, box, mail.get data⟩ r := by
  have hcopied := Bytes.blit_start data mail.data mail.mailHdr.length.toNat
  have hmailHdr : mail.mailHdr = r.mail.mailHdr := h.mailHdr
  rw [hmailHdr] at hcopied
  refine ⟨h.thread, h.box, h.pktHdr, h.mailHdr, ?_⟩
  show Bytes.EqUpTo _ (data.blit 0 mail.mailHdr.length.toNat mail.data) _
  rw [hmailHdr]
  exact hcopied.trans h.data

theorem forall₂_concat_imp {α β : Type} {R : α → β → Prop} {a a' : α}
    (himp : ∀ b, R a b → R a' b) {l : List α} {u : List β} (h : List.Forall₂ R (l ++ [a]) u) :
    List.Forall₂ R (l ++ [a']) u := by
  induction l generalizing u with
  | nil =>
    obtain ⟨b, rest, hb, hrest, rfl⟩ := List.forall₂_cons_left_iff.mp h
    exact .cons (himp b hb) hrest
  | cons x l ih =>
    obtain ⟨b, rest, hb, hrest, rfl⟩ := List.forall₂_cons_left_iff.mp h
    exact .cons hb (ih hrest)

/-- `Get` takes the first mail of the box, which becomes the mail pending for the calling thread. -/
theorem Consistent.remove {box : ℕ} {data : Bytes} {mail : Mail} {mails : List Mail}
    (hs : q.Consistent s) (hmethod : s.method s.kernel.currentThread = .getLoop box data)
    (hmessages : s.messages box = mail :: mails)
    (h : callRoutine { s with
        messages := Function.update s.messages box mails
        taken := s.taken ++ [⟨s.kernel.currentThread, box, mail⟩] }
      (.release (q.messages box).lock) (.getRelease box data mail) = .ok s')
    (hmirrored : ∀ b < q.numBoxes, q.Mirrored s' b) : q.Consistent s' := by
  have hthreads : q.Threads s' :=
    hs.threads.call h rfl rfl (by simp) (by simp) fun hputs => absurd hputs id
  have hphase : q.Phase s' :=
    hs.phase.call hs.threads h rfl rfl rfl (by simp [hmethod]) (by simp)
  obtain ⟨done, held, boxed, queued, hc⟩ := hs.carried
  obtain ⟨-, hs'⟩ := callRoutine_ok h
  -- the mail taken out of the box is now pending for the running thread
  have hlength : mail.mailHdr.length.toNat ≤ maxMailSize :=
    hs.sized.messages box mail (by rw [hmessages]; exact List.mem_cons_self)
  have hself : s'.method s.kernel.currentThread = .getRelease box data mail := by
    rw [hs']
    exact Function.update_self _ _ _
  have hother : ∀ t, t ≠ s.kernel.currentThread → s'.method t = s.method t := by
    rw [hs']
    exact fun t ht => Function.update_of_ne ht _ _
  have htaken : s'.taken = s.taken ++ [⟨s.kernel.currentThread, box, mail⟩] := by rw [hs']
  have hreceived : s'.received = s.received := by rw [hs']
  refine ⟨hmirrored, hthreads, hphase, ?admissible, ⟨done, held, boxed, queued, ?arrived, ?done,
    ?held, ?boxed, ?queued⟩, ⟨fun b letter hmem => ?messages, fun t r hr => ?pending⟩,
    fun t => ?returned⟩
  case admissible =>
    rw [hs']
    exact fun m hm => (hs.admissible m hm).congr rfl
  case arrived =>
    rw [hs']
    exact hc.arrived
  case done =>
    rw [hs']
    exact hc.done
  case held =>
    rw [hs']
    dsimp only
    rw [held_update (by rw [hmethod]; rfl) rfl]
    exact hc.held
  case boxed =>
    rw [hs']
    exact hc.boxed
  case queued =>
    rw [hs']
    exact hc.queued
  case messages =>
    rw [hs'] at hmem
    have hmem : letter ∈ Function.update s.messages box mails b := hmem
    by_cases hb : b = box
    · rw [hb, Function.update_self] at hmem
      exact hs.sized.messages box letter (by rw [hmessages]; exact List.mem_cons_of_mem _ hmem)
    · rw [Function.update_of_ne hb] at hmem
      exact hs.sized.messages b letter hmem
  case pending =>
    by_cases ht : t = s.kernel.currentThread
    · rw [ht, hself] at hr
      rw [List.mem_singleton.mp hr]
      exact hlength
    · rw [hother t ht] at hr
      exact hs.sized.pending t r hr
  case returned =>
    have hreturned := hs.returned t
    rw [hreceived, htaken]
    by_cases ht : t = s.kernel.currentThread
    · subst ht
      have hnone : (s.method s.kernel.currentThread).pending s.kernel.currentThread = [] := by
        rw [hmethod]
        rfl
      rw [hnone, List.append_nil] at hreturned
      rw [hself, ofThread_append_self s.taken ⟨_, box, mail⟩]
      exact List.rel_append hreturned (.cons (Receipt.same_refl _) .nil)
    · rw [hother t ht, ofThread_append_of_ne _ ht]
      exact hreturned

/-- When `Receive` returns, the pending mail becomes a receipt. -/
theorem Consistent.return {box : ℕ} {data : Bytes} {mail : Mail} (hs : q.Consistent s)
    (hcode : s.kernel.code s.kernel.currentThread = [])
    (hmethod : s.method s.kernel.currentThread = .getRelease box data mail)
    (hs' : s' = { s with
      method := Function.update s.method s.kernel.currentThread .none
      received := s.received ++ [⟨s.kernel.currentThread, box, mail.get data⟩] })
    (hmirrored : ∀ b < q.numBoxes, q.Mirrored s' b) : q.Consistent s' := by
  obtain ⟨done, held, boxed, queued, hc⟩ := hs.carried
  have hself : s'.method s.kernel.currentThread = .none := by
    rw [hs']
    exact Function.update_self _ _ _
  have hother : ∀ t, t ≠ s.kernel.currentThread → s'.method t = s.method t := by
    rw [hs']
    exact fun t ht => Function.update_of_ne ht _ _
  have hkernel : s'.kernel = s.kernel := by rw [hs']
  have hnetwork : s'.network = s.network := by rw [hs']
  have htaken : s'.taken = s.taken := by rw [hs']
  have hreceived : s'.received =
      s.received ++ [⟨s.kernel.currentThread, box, mail.get data⟩] := by rw [hs']
  -- the thread is in no method of the worker, before and after
  have hwait : s'.method q.worker = .wait ↔ s.method q.worker = .wait := by
    by_cases ht : q.worker = s.kernel.currentThread
    · rw [ht, hself, hmethod]
      simp
    · rw [hother _ ht]
  have hwaiting : q.Waiting s → q.Waiting s' := by
    intro hw hmethod'
    rw [hkernel]
    exact hw (hwait.mp hmethod')
  refine ⟨hmirrored, ⟨?placed, fun t ht => ?created, ?sound, ?quiet, fun t ht => ?tests,
    fun t hputs => ?worker⟩, ?phase, ?admissible, ⟨done, held, boxed, queued, ?arrived, ?done,
    ?held, ?boxed, ?queued⟩, ⟨?messages, fun t r hr => ?pending⟩, fun t => ?returned⟩
  case placed =>
    rw [hkernel]
    exact hs.threads.placed
  case created =>
    rw [hkernel]
    by_cases hcur : t = s.kernel.currentThread
    · rw [hcur, hself] at ht
      exact absurd rfl ht
    · rw [hother t hcur] at ht
      exact hs.threads.created t ht
  case sound =>
    rw [hkernel]
    exact hs.threads.sound
  case quiet =>
    rw [hkernel]
    exact hs.threads.quiet
  case tests =>
    rw [hkernel]
    by_cases hcur : t = s.kernel.currentThread
    · rw [hcur, hcode]
      rfl
    · rw [hother t hcur] at ht
      exact hs.threads.tests t ht
  case worker =>
    by_cases hcur : t = s.kernel.currentThread
    · rw [hcur, hself] at hputs
      exact absurd hputs id
    · rw [hother t hcur] at hputs
      exact hs.threads.worker t hputs
  case phase =>
    -- the inbox and the semaphore are not touched, and the worker's method is what it was
    cases hs.phase with
    | empty hlength hvalue hw =>
      exact .empty (by rw [hnetwork]; exact hlength) (by rw [hkernel]; exact hvalue) (hwaiting hw)
    | full hlength hvalue hw =>
      exact .full (by rw [hnetwork]; exact hlength) (by rw [hkernel]; exact hvalue) (hwaiting hw)
    | awake hlength hvalue hworker htests =>
      exact .awake (by rw [hnetwork]; exact hlength) (by rw [hkernel]; exact hvalue)
        (hwait.mpr hworker) (by rw [hkernel]; exact htests)
  case admissible =>
    rw [hs']
    exact fun m hm => (hs.admissible m hm).congr rfl
  case arrived =>
    rw [hs']
    exact hc.arrived
  case done =>
    rw [hs']
    exact hc.done
  case held =>
    rw [hs']
    dsimp only
    rw [held_update (by rw [hmethod]; rfl) rfl]
    exact hc.held
  case boxed =>
    rw [hnetwork]
    exact hc.boxed
  case queued =>
    rw [hnetwork]
    exact hc.queued
  case messages =>
    rw [hs']
    exact hs.sized.messages
  case pending =>
    by_cases hcur : t = s.kernel.currentThread
    · rw [hcur, hself] at hr
      cases hr
    · rw [hother t hcur] at hr
      exact hs.sized.pending t r hr
  case returned =>
    -- the mail that was pending for the running thread is the receipt it gets
    have hreturned := hs.returned t
    rw [htaken, hreceived]
    by_cases ht : t = s.kernel.currentThread
    · subst ht
      have hnone : (s'.method s.kernel.currentThread).pending s.kernel.currentThread = [] := by
        rw [hself]
        rfl
      rw [hmethod] at hreturned
      rw [hnone, List.append_nil, ofThread_append_self _ ⟨_, box, mail.get data⟩]
      exact forall₂_concat_imp (fun _ hsame => hsame.get data) hreturned
    · rw [hother t ht, ofThread_append_of_ne _ ht]
      exact hreturned

/-! ## All steps -/

/-- A message comes into the socket. -/
theorem Consistent.arrive {msg : Message} {datagram : Bytes} (hs : q.Consistent s)
    (hsend : msg.send = .ok datagram) (hto : msg.pktHdr.toAddr = s.network.ident)
    (hbox : msg.mailHdr.Valid q.numBoxes)
    (hs' : s' = { s with
      network := { s.network with sock := s.network.sock ++ [datagram] }
      arrived := s.arrived ++ [msg] })
    (hmirrored : ∀ b < q.numBoxes, q.Mirrored s' b) : q.Consistent s' := by
  subst hs'
  obtain ⟨done, held, boxed, queued, hc⟩ := hs.carried
  refine ⟨hmirrored, ⟨hs.threads.placed, hs.threads.created, hs.threads.sound, hs.threads.quiet,
    hs.threads.tests, hs.threads.worker⟩, ?_, fun m hm => ?_,
    ⟨done, held, boxed, queued ++ [msg], ?_, hc.done, hc.held, hc.boxed.imp id ?_, ?_⟩,
    ⟨hs.sized.messages, hs.sized.pending⟩, hs.returned⟩
  · cases hs.phase with
    | empty hlength hvalue hwait => exact .empty hlength hvalue hwait
    | full hlength hvalue hwait => exact .full hlength hvalue hwait
    | awake hlength hvalue hworker htests => exact .awake hlength hvalue hworker htests
  · rcases List.mem_append.mp hm with hm | hm
    · exact (hs.admissible m hm).congr rfl
    · rw [List.mem_singleton.mp hm]
      exact ⟨hto, (Message.send_ok_iff.mp hsend).1.1, hbox⟩
  · show s.arrived ++ [msg] = _
    rw [hc.arrived, List.append_assoc _ queued]
  · rintro ⟨m, hm, hbuffered⟩
    exact ⟨m, hm, hbuffered.inHdr, hbuffered.inbox⟩
  · exact List.rel_append hc.queued (.cons (Message.sent_of_send hsend) .nil)

/-- A thread goes on in its method; the cases are the points where it made a call. -/
theorem Consistent.proceed (hs : q.Consistent s)
    (hcode : s.kernel.code s.kernel.currentThread = []) (h : q.proceed s = .ok s')
    (hmirrored : ∀ b < q.numBoxes, q.Mirrored s' b) : q.Consistent s' := by
  have hworker : (s.method s.kernel.currentThread).Puts → s.kernel.currentThread = q.worker :=
    hs.threads.worker s.kernel.currentThread
  unfold PostOffice.proceed at h
  split at h
  · cases h
  · rename_i hmethod
    exact hs.sort hcode hmethod h hmirrored
  · rename_i box mail hmethod
    exact hs.append hmethod h hmirrored
  · rename_i box hmethod
    rw [hmethod] at hworker
    exact hs.freeCall h hmirrored (by rw [hmethod]; exact ⟨rfl, fun _ => rfl⟩) (by simp [hmethod])
      ⟨rfl, fun _ => rfl⟩ (by simp) (by simp) fun _ => hworker trivial
  · rename_i box hmethod
    rw [hmethod] at hworker
    exact hs.freeCall h hmirrored (by rw [hmethod]; exact ⟨rfl, fun _ => rfl⟩) (by simp [hmethod])
      ⟨rfl, fun _ => rfl⟩ (by simp) (by simp) fun _ => hworker trivial
  · rename_i box data hmethod
    split at h
    · exact hs.freeCall h hmirrored (by rw [hmethod]; exact ⟨rfl, fun _ => rfl⟩)
        (by simp [hmethod]) ⟨rfl, fun _ => rfl⟩ (by simp) (by simp) fun hputs => absurd hputs id
    · rename_i mail mails hmessages
      exact hs.remove hmethod hmessages h hmirrored
  · rename_i box data mail hmethod
    split_ifs at h with hlength
    exact hs.return hcode hmethod (Except.ok.inj h).symm hmirrored

/-- The step lemma: every event of the post office keeps what has arrived in order and accounted
for. -/
theorem step_consistent {ev : Event} (hs : q.Consistent s) (hvalid : Event.Valid q ev)
    (h : q.step s ev = .ok s') : q.Consistent s' := by
  have hmirrored : ∀ b < q.numBoxes, q.Mirrored s' b :=
    fun b hb => step_mirrored hb (hs.mirrored b hb) h
  cases ev with
  | kernel e =>
    rw [step] at h
    split_ifs at h with hforeign
    obtain ⟨k', hst, h⟩ := bind_ok_iff.mp h
    obtain ⟨network, hpolls, h⟩ := bind_ok_iff.mp h
    rw [← pure_ok_iff.mp h] at hmirrored ⊢
    exact hs.kernelStep hmirrored hforeign hst hpolls
  | arrive msg =>
    rw [step] at h
    split at h
    · cases h
    · rename_i datagram hsend
      split_ifs at h with hto
      exact hs.arrive hsend hto hvalid (Except.ok.inj h).symm hmirrored
  | postalDelivery =>
    rw [step] at h
    split_ifs at h with hworker
    have hnone : s.method s.kernel.currentThread = .none := by
      rw [hworker.1]
      exact isNone_eq_true.mp hworker.2
    exact hs.freeCall h hmirrored (by rw [hnone]; exact ⟨rfl, fun _ => rfl⟩) (by simp [hnone])
      ⟨rfl, fun _ => rfl⟩ (by simp) (by simp) fun _ => hworker.1
  | receive box data =>
    rw [step] at h
    split_ifs at h with hcur hbox
    have hnone := isNone_eq_true.mp hcur.2
    exact hs.freeCall h hmirrored (by rw [hnone]; exact ⟨rfl, fun _ => rfl⟩) (by simp [hnone])
      ⟨rfl, fun _ => rfl⟩ (by simp) (by simp) fun hputs => absurd hputs id
  | proceed =>
    rw [step] at h
    split at h
    · rename_i hcode
      exact hs.proceed hcode h hmirrored
    · cases h

theorem Booted.consistent (hboot : q.Booted s) : q.Consistent s := by
  have hcode : ∀ t, s.kernel.code t = [] := hboot.kernel.code
  have hzero := hboot.semaphore
  obtain ⟨hqueue, hP, hV, -⟩ := hboot.kernel.semaphore (.user q.messageAvailable)
  refine ⟨fun b _ => ?mirrored, ⟨hboot.kernel.placed, fun t ht => ?created, ⟨?nonneg, ?balance,
    ?woken⟩, fun t hmem => ?quiet, fun t _ => ?tests, fun t hputs => ?worker⟩,
    .empty hboot.inHdr hzero fun hwait => ?waits, fun m hm => ?admissible, ⟨[], [], [], [],
    ?arrived, ?done, ?held, .inl ⟨hboot.inHdr, rfl⟩, ?queued⟩, ⟨fun b mail hmem => ?messages,
    fun t r hr => ?pending⟩, fun t => ?returned⟩
  case mirrored =>
    -- the list of a mailbox with nothing in it
    refine ⟨⟨s.kernel, [], fun _ => .none, [], [], [], [], []⟩, ⟨rfl, ?_, ?_, ?_, ?_⟩, ?_⟩
    · exact (hboot.messages b).symm
    · funext t
      rw [hboot.method]
      rfl
    · rw [State.putInto, hboot.delivered]
      rfl
    · rw [State.takenFrom, hboot.taken]
      rfl
    · exact SynchList.Booted.consistent
        ⟨hboot.kernel, rfl, fun _ => rfl, rfl, rfl, rfl, rfl, rfl⟩
  case created => exact absurd (hboot.method t) ht
  case nonneg => exact Int.le_of_eq hzero.symm
  case balance =>
    rw [hzero, hP, hV]
    rfl
  case woken => exact fun hne => absurd hqueue hne
  case quiet =>
    rw [hcode] at hmem
    cases hmem
  case tests =>
    rw [hcode]
    rfl
  case worker =>
    rw [hboot.method] at hputs
    exact absurd hputs id
  case waits =>
    rw [hboot.method] at hwait
    cases hwait
  case admissible =>
    rw [hboot.arrived] at hm
    cases hm
  case arrived => exact hboot.arrived
  case done =>
    rw [hboot.delivered]
    exact .nil
  case held =>
    rw [hboot.method]
    exact .nil
  case queued =>
    rw [hboot.sock]
    exact .nil
  case messages =>
    rw [hboot.messages] at hmem
    cases hmem
  case pending =>
    rw [hboot.method] at hr
    cases hr
  case returned =>
    rw [hboot.received, hboot.taken, hboot.method]
    exact .nil

/-- A thread that waits in `SynchList::Remove` is in `MailBox::Get`. -/
theorem getLoop_of_list {b : ℕ} (h : m.list b = .removeLoop) : ∃ data, m = .getLoop b data := by
  cases m with
  | getLoop box data =>
    simp only [Method.list] at h
    split_ifs at h with hbox
    exact ⟨data, by rw [hbox]⟩
  | none => cases h
  | wait => cases h
  | _ =>
    simp only [Method.list] at h
    split_ifs at h

/-! ## Assertions -/

/-- A call only pushes the instructions of its routine. -/
theorem call_asserts (k : Kernel) (c : Kernel.Call) : Avoids .assertion (k.step (.call c)) := by
  rw [Kernel.step]
  split
  · refine .bind ?_ fun k' _ => .pure _ _
    cases c with
    | fork t =>
      rw [Kernel.prepare, Kernel.newThread]
      split
      · exact .error (by simp)
      · exact .ok _ _
    | _ => exact .ok _ _
  · exact .error (by simp)

theorem callRoutine_asserts (s : State) (c : Kernel.Call) (m : Method) :
    Avoids .assertion (callRoutine s c m) :=
  (call_asserts s.kernel c).bind fun _ _ => .pure _ _

/-- No assertion fails when the thread that runs goes on in a method. -/
theorem Consistent.proceed_asserts (hs : q.Consistent s) :
    Avoids .assertion (q.step s .proceed) := by
  rw [step]
  split
  · rename_i hcode
    unfold PostOffice.proceed
    split
    · exact .error (by simp)
    · rename_i hmethod
      obtain ⟨-, -, done, msg, queued, hc, hbuffered⟩ := hs.buffered hcode hmethod
      obtain ⟨network, buffer, mail, -, -, -, -, hsort⟩ :=
        sort_buffered hbuffered (hs.admissible msg (by simp [hc.arrived]))
      rw [hsort]
      exact callRoutine_asserts _ _ _
    · exact callRoutine_asserts _ _ _
    · exact callRoutine_asserts _ _ _
    · exact callRoutine_asserts _ _ _
    · split
      · exact callRoutine_asserts _ _ _
      · exact callRoutine_asserts _ _ _
    · rename_i box data mail hmethod
      have hlength : mail.mailHdr.length.toNat ≤ maxMailSize := by
        refine hs.sized.pending s.kernel.currentThread ⟨s.kernel.currentThread, box, mail⟩ ?_
        rw [hmethod]
        exact List.mem_singleton_self _
      rw [if_pos hlength]
      exact .ok _ _
  · exact .error (by simp)

/-- No assertion fails in a poll. -/
theorem Consistent.poll_asserts (hs : q.Consistent s) :
    Avoids .assertion s.network.checkPktAvail := by
  obtain ⟨done, held, boxed, queued, hc⟩ := hs.carried
  by_cases hempty : s.network.inHdr.length = 0
  · cases hqueued : queued with
    | nil =>
      have hsock := hc.queued
      rw [hqueued, List.forall₂_nil_left_iff] at hsock
      rw [Network.checkPktAvail, if_neg (by simp [hempty]), hsock]
      exact .ok _ _
    | cons msg queued =>
      have hsock := hc.queued
      rw [hqueued, List.forall₂_cons_left_iff] at hsock
      obtain ⟨datagram, sock, hsent, -, hsock⟩ := hsock
      have hadm := hs.admissible msg (by simp [hc.arrived, hqueued])
      obtain ⟨network, hcheck, -⟩ := hsent.checkPktAvail hempty hsock hadm.toAddr hadm.length
      rw [hcheck]
      exact .ok _ _
  · rw [Network.checkPktAvail, if_pos hempty]
    exact .ok _ _

end

/-- The messages that have come and are in no mailbox yet. -/
def State.undelivered (q : PostOffice) (s : State) : ℕ :=
  (s.method q.worker).held.length + (if s.network.inHdr.length = 0 then 0 else 1) +
    s.network.sock.length

section

variable {q : PostOffice} {s s' : State}

/-- What arrived and is not yet delivered is in the packet, in the worker's hands, in a box or
pending. -/
theorem Consistent.delivered (hs : q.Consistent s) :
    s.arrived.length = s.delivered.length + s.undelivered q ∧
    List.Forall₂ Fits (s.arrived.take s.delivered.length) s.delivered := by
  obtain ⟨done, held, boxed, queued, hc⟩ := hs.carried
  have hboxed : boxed.length = if s.network.inHdr.length = 0 then 0 else 1 := by
    rcases hc.boxed with ⟨hempty, rfl⟩ | ⟨msg, rfl, hbuffered⟩
    · rw [if_pos hempty]
      rfl
    · have hadm := hs.admissible msg (by simp [hc.arrived])
      rw [if_neg]
      · rfl
      · rw [hbuffered.inHdr]
        exact (Message.filledHdr_length hadm.length).2.2
  have hdone := hc.done.length_eq
  constructor
  · rw [hc.arrived, State.undelivered, ← hc.held.length_eq, ← hc.queued.length_eq, ← hboxed,
      ← hdone]
    simp only [List.length_append]
    omega
  · rw [hc.arrived, ← hdone, List.append_assoc, List.append_assoc, List.take_left']
    · exact hc.done
    · rfl

/-- What has been put into a mailbox are the messages for it, in the order in which they came. -/
theorem Consistent.putInto (hs : q.Consistent s) (b : ℕ) : List.Forall₂ Message.Delivers
    ((s.arrived.take s.delivered.length).filter fun m => m.mailHdr.box = b) (s.putInto b) := by
  rw [State.putInto, List.forall₂_map_right_iff]
  have hiff : ∀ ⦃m p⦄, Fits m p → (decide (m.mailHdr.box = b) ↔ decide (p.1 = b)) := by
    intro m p hfits
    rw [hfits.1]
  have hfiltered := List.rel_filter hiff hs.delivered.2
  exact hfiltered.imp fun m p hfits => hfits.2

/-- The post office of a machine under every schedule, if the messages that come into its socket
are for mailboxes that it has.

Those that are in no mailbox are in the socket, in the inbox or with the postal worker, and the
others came before them. What has been put into a mailbox, taken out of it or not, are the
messages for it, in the order in which they came and each once. What `Receive` has returned to a
thread is the mail that the thread has taken, but for the one it is about to return. While there
is a packet in the inbox, the semaphore tells the worker so. As long as a thread waits for mail
and the lock of the mailbox is free, there is no more mail in it than threads that have been
signalled for it. No assertion fails. -/
theorem run_delivers {es : List Event} (hboot : q.Booted s)
    (hvalid : ∀ ev ∈ es, Event.Valid q ev) (hrun : PartialRun.run q.step s es = .ok s') :
    s'.arrived.length = s'.delivered.length + s'.undelivered q ∧
    (∀ b < q.numBoxes, List.Forall₂ Message.Delivers
      ((s'.arrived.take s'.delivered.length).filter fun m => m.mailHdr.box = b)
      (s'.takenFrom b ++ s'.messages b)) ∧
    (∀ t, List.Forall₂ Receipt.Same (ofThread t s'.received ++ (s'.method t).pending t)
      (ofThread t s'.taken)) ∧
    (s'.network.inHdr.length ≠ 0 →
      ((s'.kernel.semaphore (.user q.messageAvailable)).value = 1 ∧
        ((s'.kernel.semaphore (.user q.messageAvailable)).queue ≠ [] →
          (s'.kernel.semaphore (.user q.messageAvailable)).woken ≠ [])) ∨
      (s'.method q.worker = .wait ∧
        Kernel.testsLeft (.user q.messageAvailable) (s'.kernel.code q.worker) = 0)) ∧
    (∀ b < q.numBoxes, (s'.kernel.semaphore (.lock (q.messages b).lock)).value = 1 →
      s'.kernel.hilos (q.messages b).listEmpty ≠ [] → ∃ signalled : List ℕ, signalled.Nodup ∧
        (∀ t ∈ signalled, (∃ data, s'.method t = .getLoop b data) ∧
          t ∉ s'.kernel.hilos (q.messages b).listEmpty) ∧
        (s'.messages b).length ≤ signalled.length) ∧
    q.step s' .proceed ≠ .error .assertion ∧
    s'.network.checkPktAvail ≠ .error .assertion := by
  have hs : q.Consistent s' := by
    have hkeep : ∀ t ev t', q.Consistent t → Event.Valid q ev → q.step t ev = .ok t' →
        q.Consistent t' := fun _ _ _ ht hev hst => step_consistent ht hev hst
    exact Along.invariant hkeep hboot.consistent (Along.of_forall hvalid) hrun
  refine ⟨hs.delivered.1, fun b hb => ?_, hs.returned, fun hfull => ?_,
    fun b hb hfree hwaiting => ?_, hs.proceed_asserts, hs.poll_asserts⟩
  · -- the mailbox is a list as `SynchList` has it, which hands out in order
    obtain ⟨l, hv, hl⟩ := hs.mirrored b hb
    have hfifo := hl.items.fifo
    rw [hv.appended, hv.removed, hv.list] at hfifo
    rw [← hfifo]
    exact hs.putInto b
  · cases hs.phase with
    | empty hempty _ _ => exact absurd hempty hfull
    | full _ hvalue _ =>
      refine .inl ⟨hvalue, fun hqueue hwoken => ?_⟩
      have hle := hs.threads.sound.woken hqueue
      rw [hvalue, hwoken] at hle
      exact absurd hle (by decide)
    -- the worker has passed its `P` and has not sorted the packet yet
    | awake _ _ hworker htests => exact .inr ⟨hworker, htests⟩
  · obtain ⟨l, hv, hl⟩ := hs.mirrored b hb
    rw [← hv.kernel] at hfree hwaiting ⊢
    refine ⟨l.signalled, hl.waiters.nodup, fun t ht => ⟨?_, fun hmem => ?_⟩, ?_⟩
    · have hloop := (hl.waiters.signalled t ht).1
      rw [hv.method] at hloop
      exact getLoop_of_list hloop
    · exact (hl.waiters.waiting t hmem).2.2 ht
    · rw [← hv.list]
      exact hl.length_le hfree hwaiting

end

/-- The post office of machine `1`, with two mailboxes, and thread `1` for the postal worker. -/
def office : PostOffice where
  netAddr := 1
  numBoxes := 2
  messages b := ⟨b, b⟩
  messageAvailable := 0
  worker := 1
  lock_injective _ _ h := h
  listEmpty_injective _ _ h := h

/-- The post office in a kernel that has just been booted. -/
def boot : State where
  kernel := Kernel.boot fun _ => 0
  network := ⟨1, [], ⟨0, 0, 0⟩, fun _ => 0⟩
  buffer := fun _ => 0
  messages := fun _ => []
  method := fun _ => .none
  arrived := []
  delivered := []
  taken := []
  received := []

theorem boot_booted : office.Booted boot :=
  ⟨Kernel.boot_booted fun _ => 0, rfl, rfl, rfl, rfl, fun _ => rfl, fun _ => rfl, rfl, rfl, rfl,
    rfl⟩

/-- A byte that machine `0` sends to mailbox `1` of machine `1`. -/
def letter (text : UInt8) : Message :=
  ⟨0, 2, ⟨1, 0, 0⟩, ⟨1, 0, 1⟩, fun _ => text, fun _ => 0, fun _ => 0⟩

/-- The letter comes before the worker has started, and is read in a later poll. -/
def letterRun : List Event := [
  .kernel (.call (.fork 1)), .kernel .exec, .kernel .exec, .kernel .exec, .kernel (.tick []),
  .arrive (letter 9), .kernel (.call .yield), .kernel .exec, .kernel .exec, .kernel .exec,
  .kernel (.tick [.v 0]), .postalDelivery, .kernel .exec, .kernel .exec, .kernel .exec,
  -- the worker is back from `P`, puts the letter into the mailbox and waits again
  .kernel (.tick []), .proceed, .kernel .exec, .kernel .exec, .kernel .exec, .kernel (.tick []),
  .kernel .exec, .proceed, .kernel .exec, .kernel .exec, .kernel .exec, .kernel (.tick []),
  .proceed, .kernel .exec, .kernel .exec, .kernel .exec, .kernel (.tick []), .kernel .exec,
  .proceed, .kernel .exec, .kernel .exec, .kernel .exec, .kernel .exec, .kernel (.tick []),
  .receive 1 fun _ => 0, .kernel .exec, .kernel .exec, .kernel .exec, .kernel (.tick []),
  .kernel .exec, .proceed, .kernel .exec, .kernel .exec, .kernel .exec, .kernel (.tick []),
  .kernel .exec, .proceed]

/-- Thread `0` has the letter. -/
theorem letterRun_delivers : ∃ s, PartialRun.run office.step boot letterRun = .ok s ∧
    s.received.map (fun r => (r.thread, r.box, r.mail.data 0)) = [(0, 1, 9)] ∧
    s.arrived.length = s.delivered.length ∧
    List.Forall₂ Message.Delivers
      ((s.arrived.take s.delivered.length).filter fun m => m.mailHdr.box = 1)
      (s.takenFrom 1 ++ s.messages 1) := by
  obtain ⟨s, hrun, hreceived, hnone⟩ : ∃ s,
      PartialRun.run office.step boot letterRun = .ok s ∧
      s.received.map (fun r => (r.thread, r.box, r.mail.data 0)) = [(0, 1, 9)] ∧
      s.undelivered office = 0 := by
    decide +kernel
  obtain ⟨hlength, hboxes, -⟩ := run_delivers boot_booted (by decide +kernel) hrun
  rw [hnone, Nat.add_zero] at hlength
  exact ⟨s, hrun, hreceived, hlength, hboxes 1 (by decide)⟩

end PostOffice
end NachOS
