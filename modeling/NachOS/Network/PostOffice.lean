import NachOS.Network.Packets
import NachOS.Threads.SynchList

/-!
# The post office

`PostOffice` (`post.cc`) on the machine that receives. The network interrupt reads a packet into
the inbox and counts it at a semaphore; the postal worker, a thread, waits there, takes the packet
out of the inbox and puts it into the mailbox it is for, a synchronised list; `Receive` takes the
mail out of a mailbox. What has been sent to this machine comes into its socket at any time.

A poll that finds no packet, or a full inbox, does nothing. `arrived`, `delivered`, `taken` and
`received` only record what has happened: nothing in the functions reads them.
-/

namespace NachOS

open PartialRun

/-- The address of the machine, the mailboxes with their lists, the semaphore of the packets and
the thread of the postal worker. -/
structure PostOffice where
  netAddr : BitVec 32
  numBoxes : ℕ
  messages : ℕ → SynchList
  messageAvailable : ℕ
  worker : ℕ
  lock_injective : Function.Injective fun b => (messages b).lock
  listEmpty_injective : Function.Injective fun b => (messages b).listEmpty

namespace PostOffice

/-- Where a thread is in the methods. -/
inductive Method where
  | none
  /-- In `messageAvailable->P()`. -/
  | wait
  /-- In `lock->Acquire()` of `Append(mail)` for the mailbox. -/
  | putAcquire (box : ℕ) (mail : Mail)
  /-- In `listEmpty->Signal(lock)` of `Append`. -/
  | putSignal (box : ℕ)
  /-- In `lock->Release()` of `Append`. -/
  | putRelease (box : ℕ)
  /-- In `lock->Acquire()` or in `listEmpty->Wait(lock)` of `Remove` for the mailbox, called by
  `Receive` with this buffer. -/
  | getLoop (box : ℕ) (data : Bytes)
  /-- In `lock->Release()` of `Remove`, which returns the mail. -/
  | getRelease (box : ℕ) (data : Bytes) (mail : Mail)

/-- Mail that a thread has got out of a mailbox. -/
structure Receipt where
  thread : ℕ
  box : ℕ
  mail : Mail

/-- The machine, its threads, and what has happened to the mail. -/
structure State where
  kernel : Kernel
  network : Network
  /-- The buffer of `PostalDelivery`. -/
  buffer : Bytes
  messages : ℕ → List Mail
  method : ℕ → Method
  /-- The messages that have come into the socket, in this order. -/
  arrived : List Message
  /-- What has been put into the mailboxes, and into which ones, in this order. -/
  delivered : List (ℕ × Mail)
  /-- What has been taken out of them, in this order. -/
  taken : List Receipt
  /-- What `Receive` has returned. -/
  received : List Receipt

/-- What can happen. -/
inductive Event where
  /-- Something that is not part of a method, or the next instruction of the routine a method
  has called. A `V` of the semaphore by a device is that of a poll that has read a packet. -/
  | kernel (e : Kernel.Event)
  /-- A message that has been sent to this machine comes into its socket. -/
  | arrive (m : Message)
  /-- The postal worker starts. -/
  | postalDelivery
  /-- The running thread calls `Receive` for the mailbox, with a buffer. -/
  | receive (box : ℤ) (data : Bytes)
  /-- The running thread is back from the routine that its method has called, and goes on. -/
  | proceed

end PostOffice

/-- So many polls, each of which calls the handler. -/
def Network.polls (net : Network) : ℕ → Except Stop Network
  | 0 => .ok net
  | n + 1 => do
    let (calls, net) ← net.checkPktAvail
    if calls then net.polls n else .error .impossible

namespace PostOffice

section

variable (q : PostOffice)

/-- A call that has to do with the semaphore or a mailbox. -/
def Uses (c : Kernel.Call) : Prop :=
  c = .p q.messageAvailable ∨ c = .v q.messageAvailable ∨ c = .destroy q.messageAvailable ∨
    ∃ b < q.numBoxes, (q.messages b).Uses c

instance (c : Kernel.Call) : Decidable (q.Uses c) := inferInstanceAs (Decidable (_ ∨ _ ∨ _ ∨ _))

def Method.isNone : Method → Bool
  | .none => true
  | _ => false

/-- The running thread, in no method, calls a routine that does not use the post office. -/
def Foreign (s : State) : Kernel.Event → Prop
  | .call c => (s.method s.kernel.currentThread).isNone = true ∧ ¬ q.Uses c
  | _ => True

instance (s : State) : (e : Kernel.Event) → Decidable (q.Foreign s e)
  | .call _ => inferInstanceAs (Decidable (_ ∧ _))
  | .exec | .tick _ | .idle _ => isTrue trivial

/-- The running thread calls a routine. -/
def callRoutine (s : State) (c : Kernel.Call) (method : Method) : Except Stop State := do
  let kernel ← s.kernel.step (.call c)
  return { s with
    kernel := kernel
    method := Function.update s.method s.kernel.currentThread method }

/-- `PostalDelivery` from `Receive` to `Append`, for a packet in the inbox. -/
def sort (s : State) : Except Stop State := do
  let (pktHdr, buffer, network) := s.network.receive s.buffer
  let mailHdr := buffer.header
  -- the assertions on the header
  if mailHdr.Valid q.numBoxes ∧ mailHdr.length.toNat ≤ maxMailSize then
    let mail ← newMail pktHdr mailHdr (buffer.window sizeofHeader)
    callRoutine { s with network := network, buffer := buffer }
      (.acquire (q.messages mailHdr.box).lock) (.putAcquire mailHdr.box mail)
  else .error .assertion

/-- The rest of a method, up to the next call. -/
def proceed (s : State) : Except Stop State :=
  match s.method s.kernel.currentThread with
  | .none => .error .impossible
  -- a packet is in the inbox
  | .wait => q.sort s
  | .putAcquire box mail =>
    callRoutine { s with
        messages := Function.update s.messages box (s.messages box ++ [mail])
        delivered := s.delivered ++ [(box, mail)] }
      (.signal (q.messages box).listEmpty) (.putSignal box)
  | .putSignal box => callRoutine s (.release (q.messages box).lock) (.putRelease box)
  -- back at the head of the worker's loop
  | .putRelease _ => callRoutine s (.p q.messageAvailable) .wait
  | .getLoop box data =>
    -- the `while` of `SynchList::Remove`: the list is tested again after each `Wait`
    match s.messages box with
    | [] => callRoutine s (.wait (q.messages box).listEmpty (q.messages box).lock)
        (.getLoop box data)
    | mail :: mails =>
      callRoutine { s with
          messages := Function.update s.messages box mails
          taken := s.taken ++ [⟨s.kernel.currentThread, box, mail⟩] }
        (.release (q.messages box).lock) (.getRelease box data mail)
  | .getRelease box data mail =>
    if mail.mailHdr.length.toNat ≤ maxMailSize then
      .ok { s with
        method := Function.update s.method s.kernel.currentThread .none
        received := s.received ++ [⟨s.kernel.currentThread, box, mail.get data⟩] }
    else .error .assertion

def step (s : State) : Event → Except Stop State
  | .kernel e =>
    -- for each `V` on `messageAvailable` the handler has read a packet
    if q.Foreign s e then do
      let kernel ← s.kernel.step e
      let network ← s.network.polls (e.deviceV q.messageAvailable)
      return { s with kernel := kernel, network := network }
    else .error .impossible
  | .arrive m =>
    -- sent by another machine: it waits in the socket for a poll
    match m.send with
    | .error _ => .error .impossible
    | .ok datagram =>
      if m.pktHdr.toAddr = s.network.ident then
        .ok { s with
          network := { s.network with sock := s.network.sock ++ [datagram] }
          arrived := s.arrived ++ [m] }
      else .error .impossible
  | .postalDelivery =>
    if s.kernel.currentThread = q.worker ∧ (s.method q.worker).isNone = true then
      callRoutine s (.p q.messageAvailable) .wait
    else .error .impossible
  | .receive box data =>
    -- `Receive` asserts on the number of the box before it calls `Get`
    if s.kernel.currentThread ≠ q.worker ∧
        (s.method s.kernel.currentThread).isNone = true then
      if 0 ≤ box ∧ box < q.numBoxes then
        callRoutine s (.acquire (q.messages box.toNat).lock) (.getLoop box.toNat data)
      else .error .assertion
    else .error .impossible
  | .proceed =>
    match s.kernel.code s.kernel.currentThread with
    | [] => q.proceed s
    | _ :: _ => .error .impossible

/-- The post office that has just been made, and that nobody uses yet. -/
structure Booted (s : State) : Prop where
  kernel : s.kernel.Booted
  semaphore : (s.kernel.semaphore (.user q.messageAvailable)).value = 0
  ident : s.network.ident = q.netAddr
  sock : s.network.sock = []
  inHdr : s.network.inHdr.length = 0
  messages : ∀ b, s.messages b = []
  method : ∀ t, s.method t = .none
  arrived : s.arrived = []
  delivered : s.delivered = []
  taken : s.taken = []
  received : s.received = []

/-- The messages that come are for mailboxes of this post office. -/
def Event.Valid : Event → Prop
  | .arrive m => m.mailHdr.Valid q.numBoxes
  | _ => True

instance : (ev : Event) → Decidable (Event.Valid q ev)
  | .arrive _ => inferInstanceAs (Decidable (Header.Valid _ _))
  | .kernel _ | .postalDelivery | .receive _ _ | .proceed => isTrue trivial

end

/-! ## The mailboxes are synchronised lists -/

/-- Where a thread is in the methods of the list of a mailbox. -/
def Method.list (b : ℕ) : Method → SynchList.Method Mail
  | .none | .wait => .none
  | .putAcquire box mail => if box = b then .appendAcquire mail else .none
  | .putSignal box => if box = b then .appendSignal else .none
  | .putRelease box => if box = b then .appendRelease else .none
  | .getLoop box _ => if box = b then .removeLoop else .none
  | .getRelease box _ mail => if box = b then .removeRelease mail else .none

/-- What has been put into a mailbox. -/
def State.putInto (s : State) (b : ℕ) : List Mail :=
  (s.delivered.filter fun p => p.1 = b).map Prod.snd

/-- What has been taken out of it. -/
def State.takenFrom (s : State) (b : ℕ) : List Mail :=
  (s.taken.filter fun r => r.box = b).map Receipt.mail

/-- The state of the list of a mailbox. -/
structure Views (s : State) (b : ℕ) (l : SynchList.State Mail) : Prop where
  kernel : l.kernel = s.kernel
  list : l.list = s.messages b
  method : l.method = fun t => (s.method t).list b
  appended : l.appended = s.putInto b
  removed : l.removed.map Prod.snd = s.takenFrom b

/-- The mailbox is a synchronised list in a state that it can be in. -/
def Mirrored (q : PostOffice) (s : State) (b : ℕ) : Prop :=
  ∃ l, Views s b l ∧ (q.messages b).Consistent l

section

variable {q : PostOffice} {s s₁ s' : State} {l l₁ : SynchList.State Mail} {b box : ℕ}
  {c : Kernel.Call} {m : Method}

theorem callRoutine_ok (h : callRoutine s c m = .ok s') :
    s.kernel.step (.call c) = .ok s'.kernel ∧
      s' = { s with
        kernel := s'.kernel
        method := Function.update s.method s.kernel.currentThread m } := by
  obtain ⟨k', hst, h⟩ := bind_ok_iff.mp h
  rw [← pure_ok_iff.mp h]
  exact ⟨hst, rfl⟩

theorem list_update (method : ℕ → Method) (t : ℕ) (m : Method) :
    (fun u => (Function.update method t m u).list b) =
      Function.update (fun u => (method u).list b) t (m.list b) := by
  funext u
  by_cases hu : u = t
  · rw [hu, Function.update_self, Function.update_self]
  · rw [Function.update_of_ne hu, Function.update_of_ne hu]

/-- A step of the kernel that the list takes no part in. -/
theorem Views.kernelStep {e : Kernel.Event} {k' : Kernel} (hv : Views s b l)
    (hl : (q.messages b).Consistent l) (hforeign : (q.messages b).Foreign l e)
    (h : s.kernel.step e = .ok k') (hkernel : s'.kernel = k')
    (hmessages : s'.messages b = s.messages b)
    (hmethod : (fun t => (s'.method t).list b) = fun t => (s.method t).list b)
    (hput : s'.putInto b = s.putInto b) (htaken : s'.takenFrom b = s.takenFrom b) :
    q.Mirrored s' b := by
  have hstep : (q.messages b).step l (.kernel e) = .ok ((q.messages b).observe l e k') := by
    rw [SynchList.step, if_pos hforeign, hv.kernel, h]
    rfl
  refine ⟨_, ?_, SynchList.step_consistent hl hstep⟩
  have hframe : ((q.messages b).observe l e k').kernel = k' ∧
      ((q.messages b).observe l e k').list = l.list ∧
      ((q.messages b).observe l e k').method = l.method ∧
      ((q.messages b).observe l e k').appended = l.appended ∧
      ((q.messages b).observe l e k').removed = l.removed := by
    unfold SynchList.observe
    dsimp only
    split
    · exact ⟨rfl, rfl, rfl, rfl, rfl⟩
    · exact ⟨rfl, rfl, rfl, rfl, rfl⟩
  obtain ⟨hk, hlist, hm, happended, hremoved⟩ := hframe
  refine ⟨hk.trans hkernel.symm, ?_, ?_, ?_, ?_⟩
  · rw [hlist, hv.list, hmessages]
  · rw [hm, hv.method, hmethod]
  · rw [happended, hv.appended, hput]
  · rw [hremoved, hv.removed, htaken]

/-- The running thread, in no method of the list, calls a routine that does not use it. -/
theorem Views.foreignCall (hv : Views s b l) (hl : (q.messages b).Consistent l)
    (h : callRoutine s₁ c m = .ok s') (huses : ¬ (q.messages b).Uses c)
    (hnone : (s.method s.kernel.currentThread).list b = .none) (hm : m.list b = .none)
    (hkernel : s₁.kernel = s.kernel) (hmethod : s₁.method = s.method)
    (hmessages : s₁.messages b = s.messages b) (hput : s₁.putInto b = s.putInto b)
    (htaken : s₁.takenFrom b = s.takenFrom b) : q.Mirrored s' b := by
  obtain ⟨hst, hs'⟩ := callRoutine_ok h
  rw [hkernel] at hst hs'
  have hforeign : (q.messages b).Foreign l (.call c) := by
    refine ⟨?_, huses⟩
    rw [hv.method, hv.kernel]
    dsimp only
    rw [hnone]
    rfl
  refine hv.kernelStep hl hforeign hst rfl ?_ ?_ ?_ ?_
  · rw [hs']
    exact hmessages
  · rw [hs', hmethod]
    dsimp only
    rw [list_update, hm, ← hnone]
    exact Function.update_eq_self s.kernel.currentThread fun t => (s.method t).list b
  · rw [hs']
    exact hput
  · rw [hs']
    exact htaken

/-- The running thread calls a routine in a method of the list. -/
theorem Views.ownCall {ev : SynchList.Event Mail} (hv : Views s₁ b l₁)
    (hl : (q.messages b).Consistent l)
    (hstep : (q.messages b).step l ev = SynchList.call l₁ c (m.list b))
    (h : callRoutine s₁ c m = .ok s') : q.Mirrored s' b := by
  obtain ⟨hst, hs'⟩ := callRoutine_ok h
  have hcall : SynchList.call l₁ c (m.list b) = .ok { l₁ with
      kernel := s'.kernel
      method := Function.update l₁.method l₁.kernel.currentThread (m.list b) } := by
    rw [SynchList.call, hv.kernel, hst]
    rfl
  refine ⟨_, ?_, SynchList.step_consistent hl (hstep.trans hcall)⟩
  refine ⟨rfl, ?_, ?_, ?_, ?_⟩
  · rw [hs']
    exact hv.list
  · rw [hs', hv.kernel, hv.method]
    exact (list_update _ _ _).symm
  · rw [hs']
    exact hv.appended
  · rw [hs']
    exact hv.removed

/-- A routine for one mailbox does not use another one. -/
theorem not_uses_of_ne (hne : box ≠ b) :
    ¬ (q.messages b).Uses (.acquire (q.messages box).lock) ∧
    ¬ (q.messages b).Uses (.release (q.messages box).lock) ∧
    ¬ (q.messages b).Uses (.signal (q.messages box).listEmpty) ∧
    ¬ (q.messages b).Uses (.wait (q.messages box).listEmpty (q.messages box).lock) := by
  have hlock : ¬ (q.messages box).lock = (q.messages b).lock := fun h => hne (q.lock_injective h)
  have hempty : ¬ (q.messages box).listEmpty = (q.messages b).listEmpty :=
    fun h => hne (q.listEmpty_injective h)
  exact ⟨hlock, hlock, hempty, fun h => h.elim hempty hlock⟩

/-- `Append` puts the mail into the list. -/
theorem append_mirrored {mail : Mail} (hmirror : q.Mirrored s b)
    (hmethod : s.method s.kernel.currentThread = .putAcquire box mail)
    (h : callRoutine { s with
        messages := Function.update s.messages box (s.messages box ++ [mail])
        delivered := s.delivered ++ [(box, mail)] }
      (.signal (q.messages box).listEmpty) (.putSignal box) = .ok s') : q.Mirrored s' b := by
  obtain ⟨l, hv, hl⟩ := hmirror
  by_cases hbox : box = b
  · subst hbox
    have hlist : l.method l.kernel.currentThread = .appendAcquire mail := by
      rw [hv.method, hv.kernel]
      dsimp only
      rw [hmethod]
      exact if_pos rfl
    have hv₁ : Views { s with
        messages := Function.update s.messages box (s.messages box ++ [mail])
        delivered := s.delivered ++ [(box, mail)] } box
        { l with list := l.list ++ [mail], appended := l.appended ++ [mail] } := by
      refine ⟨hv.kernel, ?_, hv.method, ?_, hv.removed⟩
      · simp [hv.list]
      · rw [hv.appended]
        simp [State.putInto]
    have hstep : (q.messages box).step l .proceed = SynchList.call
        { l with list := l.list ++ [mail], appended := l.appended ++ [mail] }
        (.signal (q.messages box).listEmpty) .appendSignal := by
      rw [SynchList.step, SynchList.proceed, hlist]
    exact hv₁.ownCall hl (hstep.trans (congrArg _ (if_pos rfl).symm)) h
  · refine hv.foreignCall hl h (not_uses_of_ne hbox).2.2.1 ?_ (if_neg hbox) rfl rfl ?_ ?_ rfl
    · rw [hmethod]
      exact if_neg hbox
    · exact Function.update_of_ne (Ne.symm hbox) _ _
    · simp [State.putInto, hbox]

/-- `Remove` takes mail out of the list. -/
theorem remove_mirrored {data : Bytes} {mail : Mail} {mails : List Mail}
    (hmirror : q.Mirrored s b) (hmethod : s.method s.kernel.currentThread = .getLoop box data)
    (hmessages : s.messages box = mail :: mails)
    (h : callRoutine { s with
        messages := Function.update s.messages box mails
        taken := s.taken ++ [⟨s.kernel.currentThread, box, mail⟩] }
      (.release (q.messages box).lock) (.getRelease box data mail) = .ok s') :
    q.Mirrored s' b := by
  obtain ⟨l, hv, hl⟩ := hmirror
  by_cases hbox : box = b
  · subst hbox
    have hlist : l.method l.kernel.currentThread = .removeLoop := by
      rw [hv.method, hv.kernel]
      dsimp only
      rw [hmethod]
      exact if_pos rfl
    have hv₁ : Views { s with
        messages := Function.update s.messages box mails
        taken := s.taken ++ [⟨s.kernel.currentThread, box, mail⟩] } box
        { l with list := mails, removed := l.removed ++ [(l.kernel.currentThread, mail)] } := by
      refine ⟨hv.kernel, by simp, hv.method, hv.appended, ?_⟩
      rw [List.map_append, hv.removed]
      simp [State.takenFrom]
    have hstep : (q.messages box).step l .proceed = SynchList.call
        { l with list := mails, removed := l.removed ++ [(l.kernel.currentThread, mail)] }
        (.release (q.messages box).lock) (.removeRelease mail) := by
      rw [SynchList.step, SynchList.proceed, hlist, hv.list, hmessages]
    exact hv₁.ownCall hl (hstep.trans (congrArg _ (if_pos rfl).symm)) h
  · refine hv.foreignCall hl h (not_uses_of_ne hbox).2.1 ?_ (if_neg hbox) rfl rfl ?_ rfl ?_
    · rw [hmethod]
      exact if_neg hbox
    · exact Function.update_of_ne (Ne.symm hbox) _ _
    · simp [State.takenFrom, hbox]

/-- A call in a method of the list of one mailbox, which leaves all lists as they are. -/
theorem plain_mirrored (ev : SynchList.Event Mail) (m₀ m₁ : SynchList.Method Mail)
    (hmirror : q.Mirrored s b) (h : callRoutine s₁ c m = .ok s') (hkernel : s₁.kernel = s.kernel)
    (hmethod : s₁.method = s.method) (hmessages : s₁.messages = s.messages)
    (hdelivered : s₁.delivered = s.delivered) (htaken : s₁.taken = s.taken)
    (hbefore : (s.method s.kernel.currentThread).list b = if box = b then m₀ else .none)
    (hafter : m.list b = if box = b then m₁ else .none)
    (huses : box ≠ b → ¬ (q.messages b).Uses c)
    (hstep : ∀ l, Views s b l → box = b → l.method l.kernel.currentThread = m₀ →
      (q.messages b).step l ev = SynchList.call l c m₁) : q.Mirrored s' b := by
  obtain ⟨l, hv, hl⟩ := hmirror
  have hput : s₁.putInto b = s.putInto b := by rw [State.putInto, hdelivered, State.putInto]
  have htook : s₁.takenFrom b = s.takenFrom b := by rw [State.takenFrom, htaken, State.takenFrom]
  by_cases hbox : box = b
  · rw [if_pos hbox] at hbefore hafter
    have hlist : l.method l.kernel.currentThread = m₀ := by
      rw [hv.method, hv.kernel]
      exact hbefore
    have hv₁ : Views s₁ b l := by
      refine ⟨hv.kernel.trans hkernel.symm, ?_, ?_, hv.appended.trans hput.symm,
        hv.removed.trans htook.symm⟩
      · rw [hv.list, hmessages]
      · rw [hv.method, hmethod]
    have hown := hstep l hv hbox hlist
    rw [← hafter] at hown
    exact hv₁.ownCall hl hown h
  · rw [if_neg hbox] at hbefore hafter
    exact hv.foreignCall hl h (huses hbox) hbefore hafter hkernel hmethod (by rw [hmessages]) hput
      htook

/-- A call does not depend on where the thread was before. -/
theorem callRoutine_update (m₀ : Method) : callRoutine
    { s with method := Function.update s.method s.kernel.currentThread m₀ } c m =
      callRoutine s c m := by
  unfold callRoutine
  dsimp only
  rw [Function.update_idem]

/-- The running thread returns from a method of the list. -/
theorem Views.finish {m₀ : SynchList.Method Mail} (hv : Views s b l)
    (hl : (q.messages b).Consistent l) (hcode : s.kernel.code s.kernel.currentThread = [])
    (hlist : (s.method s.kernel.currentThread).list b = m₀) (hm₀ : m₀.Releasing) :
    ∃ l', Views { s with method := Function.update s.method s.kernel.currentThread .none } b l' ∧
      (q.messages b).Consistent l' := by
  have hmethod : l.method l.kernel.currentThread = m₀ := by
    rw [hv.method, hv.kernel]
    exact hlist
  have hfinish : SynchList.finish l m₀.returns? = .ok { l with
      method := Function.update l.method l.kernel.currentThread .none
      returned := l.returned ++
        m₀.returns?.toList.map fun mail => (l.kernel.currentThread, mail) } := by
    rw [SynchList.finish, hv.kernel, hcode]
  have hstep : (q.messages b).step l .proceed = SynchList.finish l m₀.returns? := by
    rw [SynchList.step, SynchList.proceed, hmethod]
    cases m₀ with
    | appendRelease => rfl
    | removeRelease _ => rfl
    | _ => exact absurd hm₀ id
  refine ⟨_, ?_, SynchList.step_consistent hl (hstep.trans hfinish)⟩
  refine ⟨hv.kernel, hv.list, ?_, hv.appended, hv.removed⟩
  rw [hv.kernel, hv.method]
  exact (list_update s.method s.kernel.currentThread .none).symm

theorem sort_ok (h : q.sort s = .ok s') : ∃ network buffer box mail,
    callRoutine { s with network := network, buffer := buffer }
      (.acquire (q.messages box).lock) (.putAcquire box mail) = .ok s' := by
  unfold sort at h
  dsimp only at h
  split_ifs at h with hlegal
  obtain ⟨mail, -, h⟩ := bind_ok_iff.mp h
  exact ⟨_, _, _, mail, h⟩

theorem sort_mirrored (hmirror : q.Mirrored s b)
    (hmethod : s.method s.kernel.currentThread = .wait) (h : q.sort s = .ok s') :
    q.Mirrored s' b := by
  obtain ⟨network, buffer, box, mail, h⟩ := sort_ok h
  refine plain_mirrored (.append mail) .none (.appendAcquire mail) hmirror h rfl rfl rfl rfl rfl
    ?_ rfl (fun hbox => (not_uses_of_ne hbox).1) (fun l hv hbox hl => ?_)
  · rw [hmethod, ite_self]
    rfl
  · subst hbox
    rw [SynchList.step, hl]

theorem receive_mirrored {data : Bytes} (hmirror : q.Mirrored s b)
    (hnone : (s.method s.kernel.currentThread).isNone = true)
    (h : callRoutine s (.acquire (q.messages box).lock) (.getLoop box data) = .ok s') :
    q.Mirrored s' b := by
  refine plain_mirrored .remove .none .removeLoop hmirror h rfl rfl rfl rfl rfl ?_ rfl
    (fun hbox => (not_uses_of_ne hbox).1) (fun l hv hbox hl => ?_)
  · cases hmethod : s.method s.kernel.currentThread with
    | none =>
      rw [ite_self]
      rfl
    | _ =>
      rw [hmethod] at hnone
      cases hnone
  · subst hbox
    rw [SynchList.step, hl]

/-- The worker is out of `Append` before it calls `P`. -/
theorem loop_mirrored (hmirror : q.Mirrored s b)
    (hcode : s.kernel.code s.kernel.currentThread = [])
    (hmethod : s.method s.kernel.currentThread = .putRelease box)
    (h : callRoutine s (.p q.messageAvailable) .wait = .ok s') : q.Mirrored s' b := by
  obtain ⟨l, hv, hl⟩ := hmirror
  by_cases hbox : box = b
  · have hlist : (s.method s.kernel.currentThread).list b = .appendRelease := by
      rw [hmethod]
      exact if_pos hbox
    obtain ⟨l₁, hv₁, hl₁⟩ := hv.finish hl hcode hlist trivial
    rw [← callRoutine_update .none] at h
    refine hv₁.foreignCall hl₁ h id ?_ rfl rfl rfl rfl rfl rfl
    dsimp only
    rw [Function.update_self]
    rfl
  · refine hv.foreignCall hl h id ?_ rfl rfl rfl rfl rfl rfl
    rw [hmethod]
    exact if_neg hbox

theorem return_mirrored {data : Bytes} {mail : Mail} {received : List Receipt}
    (hmirror : q.Mirrored s b) (hcode : s.kernel.code s.kernel.currentThread = [])
    (hmethod : s.method s.kernel.currentThread = .getRelease box data mail) :
    q.Mirrored { s with
      method := Function.update s.method s.kernel.currentThread .none
      received := received } b := by
  obtain ⟨l, hv, hl⟩ := hmirror
  by_cases hbox : box = b
  · have hlist : (s.method s.kernel.currentThread).list b = .removeRelease mail := by
      rw [hmethod]
      exact if_pos hbox
    obtain ⟨l₁, hv₁, hl₁⟩ := hv.finish hl hcode hlist trivial
    exact ⟨_, ⟨hv₁.kernel, hv₁.list, hv₁.method, hv₁.appended, hv₁.removed⟩, hl₁⟩
  · refine ⟨l, ⟨hv.kernel, hv.list, ?_, hv.appended, hv.removed⟩, hl⟩
    rw [hv.method]
    dsimp only
    rw [list_update]
    refine (Function.update_eq_self_iff.mpr ?_).symm
    rw [hmethod]
    exact (if_neg hbox).symm

theorem proceed_mirrored (hmirror : q.Mirrored s b)
    (hcode : s.kernel.code s.kernel.currentThread = []) (h : q.proceed s = .ok s') :
    q.Mirrored s' b := by
  unfold proceed at h
  split at h
  · cases h
  · rename_i hmethod
    exact sort_mirrored hmirror hmethod h
  · rename_i box mail hmethod
    exact append_mirrored hmirror hmethod h
  · rename_i box hmethod
    refine plain_mirrored .proceed .appendSignal .appendRelease hmirror h rfl rfl rfl rfl rfl
      (congrArg _ hmethod) rfl (fun hbox => (not_uses_of_ne hbox).2.1) (fun l hv hbox hl => ?_)
    subst hbox
    rw [SynchList.step, SynchList.proceed, hl]
  · rename_i box hmethod
    exact loop_mirrored hmirror hcode hmethod h
  · rename_i box data hmethod
    split at h
    · rename_i hmessages
      refine plain_mirrored .proceed .removeLoop .removeLoop hmirror h rfl rfl rfl rfl rfl
        (congrArg _ hmethod) rfl (fun hbox => (not_uses_of_ne hbox).2.2.2)
        (fun l hv hbox hl => ?_)
      subst hbox
      rw [SynchList.step, SynchList.proceed, hl, hv.list, hmessages]
    · rename_i mail mails hmessages
      exact remove_mirrored hmirror hmethod hmessages h
  · rename_i box data mail hmethod
    split_ifs at h with hlength
    cases h
    exact return_mirrored hmirror hcode hmethod

/-- Every mailbox stays a synchronised list, whatever happens. -/
theorem step_mirrored {ev : Event} (hb : b < q.numBoxes) (hmirror : q.Mirrored s b)
    (h : q.step s ev = .ok s') : q.Mirrored s' b := by
  cases ev with
  | kernel e =>
    rw [step] at h
    split_ifs at h with hforeign
    obtain ⟨k', hst, h⟩ := bind_ok_iff.mp h
    obtain ⟨network, -, h⟩ := bind_ok_iff.mp h
    rw [← pure_ok_iff.mp h]
    obtain ⟨l, hv, hl⟩ := hmirror
    -- a box sees the steps of the other boxes as steps of the kernel
    refine hv.kernelStep hl ?_ hst rfl rfl rfl rfl rfl
    cases e with
    | call c =>
      refine ⟨?_, fun huses => hforeign.2 (.inr (.inr (.inr ⟨b, hb, huses⟩)))⟩
      have hnone := hforeign.1
      rw [hv.method, hv.kernel]
      dsimp only
      cases hmethod : s.method s.kernel.currentThread with
      | none => rfl
      | _ =>
        rw [hmethod] at hnone
        cases hnone
    | _ => exact trivial
  | arrive msg =>
    rw [step] at h
    split at h
    · cases h
    · split_ifs at h with hto
      cases h
      obtain ⟨l, hv, hl⟩ := hmirror
      exact ⟨l, ⟨hv.kernel, hv.list, hv.method, hv.appended, hv.removed⟩, hl⟩
  | postalDelivery =>
    rw [step] at h
    split_ifs at h with hworker
    obtain ⟨l, hv, hl⟩ := hmirror
    refine hv.foreignCall hl h id ?_ rfl rfl rfl rfl rfl rfl
    obtain ⟨hcur, hnone⟩ := hworker
    rw [hcur]
    cases hmethod : s.method q.worker with
    | none => rfl
    | _ =>
      rw [hmethod] at hnone
      cases hnone
  | receive box data =>
    rw [step] at h
    split_ifs at h with hnone hbox
    exact receive_mirrored hmirror hnone.2 h
  | proceed =>
    rw [step] at h
    split at h
    · rename_i hcode
      exact proceed_mirrored hmirror hcode h
    · cases h

end

end PostOffice
end NachOS
