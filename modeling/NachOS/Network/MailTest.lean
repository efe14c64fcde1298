import NachOS.Network.Machines

/-!
# The mail test

`MailTest` (`nettest.cc`) on any number of machines. Each of them sends a letter to mailbox `0` of
another one, takes the letter of some machine out of its own, answers it, takes the answer to its
own letter out of mailbox `1`, and halts. A machine that has halted has no socket any more.

What is in the memory that nothing has been written to is given with each step.
-/

namespace NachOS

open PartialRun

namespace PostOffice

/-- The mailbox that a thread in `Receive` takes mail out of. -/
def Method.mailbox : Method → Option ℕ
  | .getLoop box _ | .getRelease box _ _ => .some box
  | _ => Option.none

/-- What a step that is no call of `Receive` means for a thread: it stays in `Receive`, or out of
it, or returns. -/
inductive Receives (t : ℕ) (s s' : State) : Prop where
  | stay (hmailbox : (s'.method t).mailbox = (s.method t).mailbox)
    (hreceived : ofThread t s'.received = ofThread t s.received)
  | back {r : Receipt} (hmailbox : (s.method t).mailbox = some r.box)
    (hnone : (s'.method t).mailbox = none)
    (hreceived : ofThread t s'.received = ofThread t s.received ++ [r])

section

variable {q : PostOffice} {s s₁ s' : State} {t : ℕ}

theorem Receives.congr (h : Receives t s s₁) (hmethod : s'.method = s₁.method)
    (hreceived : s'.received = s₁.received) : Receives t s s' := by
  cases h with
  | stay hmailbox hsame =>
    refine .stay ?_ ?_
    · rw [hmethod]
      exact hmailbox
    · rw [hreceived]
      exact hsame
  | back hmailbox hnone hsame =>
    refine .back hmailbox ?_ ?_
    · rw [hmethod]
      exact hnone
    · rw [hreceived]
      exact hsame

theorem mailbox_of_isNone {m : Method} (h : m.isNone = true) : m.mailbox = none := by
  rw [isNone_eq_true.mp h]
  rfl

/-- Making a call inside a method does not return from `Receive`. -/
theorem callRoutine_receives {c : Kernel.Call} {m : Method} (h : callRoutine s₁ c m = .ok s')
    (hkernel : s₁.kernel = s.kernel) (hmethod : s₁.method = s.method)
    (hreceived : s₁.received = s.received)
    (hmailbox : m.mailbox = (s.method s.kernel.currentThread).mailbox) : Receives t s s' := by
  obtain ⟨-, hs'⟩ := callRoutine_ok h
  rw [hs', hkernel, hmethod]
  refine .stay ?_ (congrArg _ hreceived)
  dsimp only
  by_cases ht : t = s.kernel.currentThread
  · rw [ht, Function.update_self]
    exact hmailbox
  · rw [Function.update_of_ne ht]

/-- Going on in a method either stays inside of it or returns what it received. -/
theorem proceed_receives (h : q.proceed s = .ok s') : Receives t s s' := by
  unfold proceed at h
  split at h
  · cases h
  · rename_i hmethod
    obtain ⟨network, buffer, box, mail, hcall⟩ := sort_ok h
    refine callRoutine_receives hcall rfl rfl rfl ?_
    rw [hmethod]
    rfl
  · rename_i hmethod
    exact callRoutine_receives h rfl rfl rfl (by rw [hmethod]; rfl)
  · rename_i hmethod
    exact callRoutine_receives h rfl rfl rfl (by rw [hmethod]; rfl)
  · rename_i hmethod
    exact callRoutine_receives h rfl rfl rfl (by rw [hmethod]; rfl)
  · rename_i hmethod
    split at h
    · exact callRoutine_receives h rfl rfl rfl (by rw [hmethod])
    · exact callRoutine_receives h rfl rfl rfl (by rw [hmethod]; rfl)
  · rename_i box data mail hmethod
    split_ifs at h
    rw [← Except.ok.inj h]
    by_cases ht : t = s.kernel.currentThread
    · subst ht
      have hreceived :=
        ofThread_append_self s.received ⟨s.kernel.currentThread, box, mail.get data⟩
      refine .back ?_ ?_ hreceived
      · rw [hmethod]
        rfl
      · dsimp only
        rw [Function.update_self]
        rfl
    · refine .stay ?_ (ofThread_append_of_ne _ ht)
      dsimp only
      rw [Function.update_of_ne ht]

/-- So an event of the post office other than `Receive` returns at most one mail to a thread. -/
theorem step_receives {ev : Event} (hev : ∀ box data, ev ≠ .receive box data)
    (h : q.step s ev = .ok s') : Receives t s s' := by
  cases ev with
  | kernel e =>
    rw [step] at h
    split_ifs at h
    obtain ⟨k', -, h⟩ := bind_ok_iff.mp h
    obtain ⟨network, -, h⟩ := bind_ok_iff.mp h
    rw [← pure_ok_iff.mp h]
    exact .stay rfl rfl
  | arrive m =>
    rw [step] at h
    split at h
    · cases h
    · split_ifs at h
      rw [← Except.ok.inj h]
      exact .stay rfl rfl
  | postalDelivery =>
    rw [step] at h
    split_ifs at h with hworker
    refine callRoutine_receives h rfl rfl rfl ?_
    rw [hworker.1, mailbox_of_isNone hworker.2]
    rfl
  | receive box data => exact absurd rfl (hev box data)
  | proceed =>
    rw [step] at h
    split at h
    · exact proceed_receives h
    · cases h

/-- `Receive` starts in the loop of `MailBox::Get`. -/
theorem receive_ok {box : ℤ} {data : Bytes} (h : q.step s (.receive box data) = .ok s') :
    s'.method = Function.update s.method s.kernel.currentThread (.getLoop box.toNat data) := by
  rw [step] at h
  split_ifs at h
  obtain ⟨-, hs'⟩ := callRoutine_ok h
  rw [hs']

end

end PostOffice

namespace Sender

variable {q : Sender} {s s' : State} {message : Option Message}

/-- The calls of `Send` in a step. -/
def Event.calls (t : ℕ) : Event → List (ℕ × Message)
  | .send m => [(t, m)]
  | _ => []

theorem step_receives {ev : Event} (hev : ∀ box data, ev ≠ .office (.receive box data)) (t : ℕ)
    (h : q.step s ev = .ok (message, s')) : PostOffice.Receives t s.office s'.office := by
  have hcalled : ∀ {s₁ s₂ : State} {c : Kernel.Call} {m : Method},
      q.callRoutine s₁ c m = .ok s₂ → s₁.office = s.office →
      PostOffice.Receives t s.office s₂.office := by
    intro s₁ s₂ c m hcall hoffice
    rw [← hoffice]
    exact PostOffice.step_receives (fun _ _ h => by cases h) (callRoutine_ok hcall).1
  cases step_taken h with
  | office hforeign hst hdone =>
    exact PostOffice.step_receives (fun box data heq => hev box data (congrArg _ heq)) hst
  | send hm hnone hfree hcall => exact hcalled hcall rfl
  | request hcode hacquire hcall => exact hcalled hcall rfl
  | release hcode hwait hcall => exact hcalled hcall rfl
  | «return» hcode hrelease => exact .stay rfl rfl

/-- The messages that a machine was asked to send are logged. -/
theorem step_called {ev : Event} (h : q.step s ev = .ok (message, s')) :
    s'.called = s.called ++ ev.calls s.office.kernel.currentThread := by
  have hcalled : ∀ {s₁ s₂ : State} {c : Kernel.Call} {m : Method},
      q.callRoutine s₁ c m = .ok s₂ → s₂.called = s₁.called := by
    intro s₁ s₂ c m hcall
    rw [(callRoutine_ok hcall).2.2]
  cases step_taken h with
  | send hm hnone hfree hcall => exact hcalled hcall
  | office hforeign hst hdone => exact (List.append_nil _).symm
  | request hcode hacquire hcall => exact (hcalled hcall).trans (List.append_nil _).symm
  | release hcode hwait hcall => exact (hcalled hcall).trans (List.append_nil _).symm
  | «return» hcode hrelease => exact (List.append_nil _).symm

end Sender

namespace Machines

variable {n : Machines} {s s' : State} {m : Message}

/-- What a message that comes leaves of a machine. -/
structure Sent (before after : Sender.State) : Prop where
  called : after.called = before.called
  method : after.office.method = before.office.method
  received : after.office.received = before.office.received

/-- A message that comes to another machine changes nothing but its socket. -/
theorem sendToSocket_sent (h : n.sendToSocket s m = .ok s') (b : BitVec 32) :
    Sent (s.machine b) (s'.machine b) := by
  obtain ⟨-, office, hst, rfl⟩ := sendToSocket_ok h
  rw [PostOffice.step] at hst
  split at hst
  · cases hst
  · split_ifs at hst
    rw [← Except.ok.inj hst]
    dsimp only
    by_cases hb : b = m.pktHdr.toAddr
    · subst hb
      rw [Function.update_self]
      exact ⟨rfl, rfl, rfl⟩
    · rw [Function.update_of_ne hb]
      exact ⟨rfl, rfl, rfl⟩

/-- A step concerns one machine and the sockets that its message goes to. -/
theorem step_sent {e : Event} (h : n.step s e = .ok s') : ∃ message machine,
    (n.sender e.address).step (s.machine e.address) e.event = .ok (message, machine) ∧
    s.wire ⊆ s'.wire ∧
    ∀ b, Sent (Function.update s.machine e.address machine b) (s'.machine b) := by
  obtain ⟨-, message, machine, hst, hcases⟩ := step_ok h
  refine ⟨message, machine, hst, ?_⟩
  rcases hcases with ⟨rfl, rfl⟩ | ⟨m, rfl, hsend⟩
  · exact ⟨fun _ h => h, fun b => ⟨rfl, rfl, rfl⟩⟩
  · refine ⟨?_, sendToSocket_sent hsend⟩
    obtain ⟨-, office, -, rfl⟩ := sendToSocket_ok hsend
    exact List.subset_append_left _ _

/-- Each machine logs its own. -/
theorem step_called {e : Event} (h : n.step s e = .ok s') (b : BitVec 32) :
    (s'.machine b).called = (s.machine b).called ++ if b = e.address then
      e.event.calls (s.machine b).office.kernel.currentThread else [] := by
  obtain ⟨message, machine, hst, -, hsent⟩ := step_sent h
  rw [(hsent b).called]
  by_cases hb : b = e.address
  · subst hb
    rw [Function.update_self, if_pos rfl]
    exact Sender.step_called hst
  · rw [Function.update_of_ne hb, if_neg hb, List.append_nil]

/-- The same of the machines together. -/
theorem step_receives {e : Event} (h : n.step s e = .ok s') {b : BitVec 32}
    (hb : b = e.address → ∀ box data, e.event ≠ .office (.receive box data)) (t : ℕ) :
    PostOffice.Receives t (s.machine b).office (s'.machine b).office := by
  obtain ⟨message, machine, hst, -, hsent⟩ := step_sent h
  refine PostOffice.Receives.congr ?_ (hsent b).method (hsent b).received
  by_cases hsame : b = e.address
  · subst hsame
    rw [Function.update_self]
    exact Sender.step_receives (hb rfl) t hst
  · rw [Function.update_of_ne hsame]
    exact .stay rfl rfl

/-- Fewer machines can do no more. -/
theorem step_of_subset {addresses : Finset (BitVec 32)} {e : Event}
    (hsubset : addresses ⊆ n.addresses) (h : step { n with addresses } s e = .ok s') :
    n.step s e = .ok s' := by
  obtain ⟨haddress, message, machine, hst, hcases⟩ := step_ok h
  rw [step, if_pos (hsubset haddress), hst, ok_bind]
  rcases hcases with ⟨rfl, rfl⟩ | ⟨m, rfl, hsend⟩
  · rfl
  · obtain ⟨hto, office, harrive, rfl⟩ := sendToSocket_ok hsend
    dsimp only
    rw [sendToSocket, if_pos (hsubset hto), harrive]
    rfl

end Machines

/-- The machines, the one that each of them writes to, and its thread that calls `MailTest`. Nothing
else uses the post offices. -/
structure MailTest where
  machines : Machines
  farAddr : BitVec 32 → BitVec 32
  thread : BitVec 32 → ℕ
  mem : ∀ a ∈ machines.addresses, farAddr a ∈ machines.addresses
  injective : ∀ a ∈ machines.addresses, ∀ b ∈ machines.addresses, farAddr a = farAddr b → a = b
  boxes : 2 ≤ machines.numBoxes

namespace MailTest

/-- Where the thread is in `MailTest`. -/
inductive Stage where
  | start
  /-- In `Send(outPktHdr, outMailHdr, data)`. -/
  | sending
  /-- In `Receive(0, &inPktHdr, &inMailHdr, buffer)`. -/
  | receiving
  /-- In `Send(outPktHdr, outMailHdr, ack)`. -/
  | answering
  /-- In `Receive(1, &inPktHdr, &inMailHdr, buffer)`. -/
  | waiting
  /-- `Halt` has been called. -/
  | halted
deriving DecidableEq, Repr

/-- The machines, where the test is on each of them, and what has been printed. -/
structure State where
  net : Machines.State
  stage : BitVec 32 → Stage
  got : BitVec 32 → List Mail

/-- What the memory has: the packet header and the buffer of `MailTest`, and those of `Send`. -/
structure Garbage where
  outPktHdr : PacketHeader
  buffer : Bytes
  postBuffer : Bytes
  wireBuffer : Bytes

/-- What can happen. -/
inductive Event where
  /-- Something on a machine that is no call of `Send` or `Receive`. -/
  | machine (e : Machines.Event)
  /-- The thread that is in `MailTest` goes on, up to the next call. -/
  | proceed (address : BitVec 32) (garbage : Garbage)

/-- A C string, with its NUL. -/
def cString (s : String) : List UInt8 := s.toList.map (fun ch => ch.val.toUInt8) ++ [0]

def data : List UInt8 := cString "Hello there!"

def ack : List UInt8 := cString "Got it!"

/-- The text in memory. -/
def bytes (text : List UInt8) : Bytes := fun k => text.getD k 0

/-- A call of `Send` or `Receive`. -/
def isCall : Sender.Event → Bool
  | .send _ | .office (.receive _ _) => true
  | _ => false

section

variable (c : MailTest)

/-- The letter that `MailTest` sends. The reply is to go to mailbox `1`. -/
def letter (a : BitVec 32) (g : Garbage) (toAddr toBox : BitVec 32) (text : List UInt8) :
    Message where
  netAddr := a
  numBoxes := c.machines.numBoxes
  pktHdr := { g.outPktHdr with toAddr }
  mailHdr := ⟨toBox, 1, BitVec.ofNat 32 text.length⟩
  data := bytes text
  postBuffer := g.postBuffer
  wireBuffer := g.wireBuffer

/-- The machines that have not halted. -/
def running (s : State) : Machines :=
  { c.machines with addresses := c.machines.addresses.filter fun a => s.stage a ≠ .halted }

/-- What the last call of `Receive` has returned. -/
def receipt (s : State) (a : BitVec 32) : Option PostOffice.Receipt :=
  (PostOffice.ofThread (c.thread a) (s.net.machine a).office.received).getLast?

/-- The next call. -/
def call (s : State) (a : BitVec 32) (ev : Sender.Event) (stage : Stage) : Except Stop State := do
  let net ← (c.running s).step s.net ⟨a, ev⟩
  return { s with net, stage := Function.update s.stage a stage }

/-- The rest of `MailTest`, up to the next call. -/
def proceed (s : State) (a : BitVec 32) (g : Garbage) : Except Stop State :=
  match s.stage a with
  | .start => c.call s a (.send (c.letter a g (c.farAddr a) 0 data)) .sending
  | .sending => c.call s a (.office (.receive 0 g.buffer)) .receiving
  | .receiving =>
    match c.receipt s a with
    | none => .error .impossible
    | some r => c.call { s with got := Function.update s.got a (s.got a ++ [r.mail]) } a
        (.send (c.letter a g r.mail.pktHdr.fromAddr r.mail.mailHdr.fromAddr ack)) .answering
  | .answering => c.call s a (.office (.receive 1 g.buffer)) .waiting
  | .waiting =>
    match c.receipt s a with
    | none => .error .impossible
    | some r => .ok { s with
        got := Function.update s.got a (s.got a ++ [r.mail])
        stage := Function.update s.stage a .halted }
  | .halted => .error .impossible

/-- The thread runs, and is in neither `Send` nor `Receive`. -/
def Back (s : State) (a : BitVec 32) : Prop :=
  a ∈ c.machines.addresses ∧
    (s.net.machine a).office.kernel.currentThread = c.thread a ∧
    ((s.net.machine a).method (c.thread a)).isNone = true ∧
    ((s.net.machine a).office.method (c.thread a)).isNone = true

instance (s : State) (a : BitVec 32) : Decidable (c.Back s a) :=
  inferInstanceAs (Decidable (_ ∧ _ ∧ _ ∧ _))

def step (s : State) : Event → Except Stop State
  | .machine e =>
    if isCall e.event = false then do
      let net ← (c.running s).step s.net e
      return { s with net }
    else .error .impossible
  | .proceed a g => if c.Back s a then c.proceed s a g else .error .impossible

/-- The machines have just been booted. -/
structure Booted (s : State) : Prop where
  net : c.machines.Booted s.net
  stage : ∀ a, s.stage a = .start
  got : ∀ a, s.got a = []

/-! ## The invariant -/

/-- So many letters has the thread called `Send` for. -/
def Stage.sent : Stage → ℕ
  | .start => 0
  | .sending | .receiving => 1
  | .answering | .waiting | .halted => 2

/-- So many has it printed. -/
def Stage.printed : Stage → ℕ
  | .start | .sending | .receiving => 0
  | .answering | .waiting => 1
  | .halted => 2

/-- The mailbox that it waits for. -/
def Stage.mailbox : Stage → Option ℕ
  | .receiving => some 0
  | .waiting => some 1
  | _ => none

/-- The first letter of a machine. -/
structure Greeting (m : Message) : Prop where
  toAddr : m.pktHdr.toAddr = c.farAddr m.netAddr
  mailHdr : m.mailHdr = ⟨0, 1, BitVec.ofNat 32 data.length⟩
  text : m.data = bytes data

/-- The answer to the first letter of a machine. -/
structure Answer (m : Message) : Prop where
  netAddr : m.netAddr = c.farAddr m.pktHdr.toAddr
  mailHdr : m.mailHdr = ⟨1, 1, BitVec.ofNat 32 ack.length⟩
  text : m.data = bytes ack

/-- What a machine has called `Send` for. -/
def State.letters (s : State) (a : BitVec 32) : List Message :=
  (s.net.machine a).called.map Prod.snd

/-- The thread is in `Receive` for the mailbox, or has just returned from it. -/
def Waits (s : State) (a : BitVec 32) (mailbox : Option ℕ) : Prop :=
  ((s.net.machine a).office.method (c.thread a)).mailbox = mailbox ∨
    ((s.net.machine a).office.method (c.thread a)).mailbox = none ∧
      ∃ r, c.receipt s a = some r ∧ mailbox = some r.box

/-- A machine, and what it knows of the others. -/
structure Standing (s : State) (a : BitVec 32) : Prop where
  thread : ∀ p ∈ (s.net.machine a).called, p.1 = c.thread a
  sent : (s.letters a).length = (s.stage a).sent
  printed : (s.got a).length = (s.stage a).printed
  greeting : ∀ m, (s.letters a)[0]? = some m → c.Greeting m
  answer : ∀ m, (s.letters a)[1]? = some m →
    c.Answer m ∧ ∃ mail, (s.got a)[0]? = some mail ∧ mail.pktHdr.fromAddr = m.pktHdr.toAddr
  greeted : ∀ mail, (s.got a)[0]? = some mail →
    ∃ m ∈ s.net.wire, m.pktHdr.toAddr = a ∧ c.Greeting m ∧ m.Delivers mail
  answered : ∀ mail, (s.got a)[1]? = some mail →
    ∃ m ∈ s.net.wire, m.pktHdr.toAddr = a ∧ c.Answer m ∧ m.Delivers mail
  waits : c.Waits s a (s.stage a).mailbox

structure Consistent (s : State) : Prop where
  net : c.machines.Consistent s.net
  standing : ∀ a ∈ c.machines.addresses, c.Standing s a

end

section

variable {c : MailTest} {s s' : State} {a : BitVec 32} {m : Message} {g : Garbage}

theorem Booted.consistent (hboot : c.Booted s) : c.Consistent s := by
  refine ⟨hboot.net.consistent, fun a ha => ?_⟩
  have hmachine := hboot.net.machine a ha
  have hletters : s.letters a = [] := by
    rw [State.letters, hmachine.called]
    rfl
  refine ⟨fun p hp => ?thread, ?sent, ?printed, fun m hm => ?greeting, fun m hm => ?answer,
    fun mail hmail => ?greeted, fun mail hmail => ?answered, .inl ?waits⟩
  case thread =>
    rw [hmachine.called] at hp
    cases hp
  case sent =>
    rw [hletters, hboot.stage]
    rfl
  case printed =>
    rw [hboot.got, hboot.stage]
    rfl
  case greeting =>
    rw [hletters] at hm
    cases hm
  case answer =>
    rw [hletters] at hm
    cases hm
  case greeted =>
    rw [hboot.got] at hmail
    cases hmail
  case answered =>
    rw [hboot.got] at hmail
    cases hmail
  case waits =>
    rw [hboot.stage, hmachine.office.method]
    rfl

/-- The thread stays where it is. -/
theorem Waits.frame {mailbox : Option ℕ} (h : c.Waits s a mailbox)
    (hreceives : PostOffice.Receives (c.thread a) (s.net.machine a).office
      (s'.net.machine a).office) : c.Waits s' a mailbox := by
  cases hreceives with
  | stay hmailbox hreceived =>
    rw [Waits, receipt, hmailbox, hreceived]
    exact h
  | @back r hmailbox hnone hreceived =>
    refine .inr ⟨hnone, r, ?_, ?_⟩
    · rw [receipt, hreceived, List.getLast?_concat]
    · rcases h with h | ⟨h, -⟩
      · rw [← h, hmailbox]
      · rw [hmailbox] at h
        cases h

/-- Something that is no call of the thread. -/
theorem Standing.frame (h : c.Standing s a) (hstage : s'.stage a = s.stage a)
    (hgot : s'.got a = s.got a) (hwire : s.net.wire ⊆ s'.net.wire)
    (hcalled : (s'.net.machine a).called = (s.net.machine a).called)
    (hreceives : PostOffice.Receives (c.thread a) (s.net.machine a).office
      (s'.net.machine a).office) : c.Standing s' a := by
  have hletters : s'.letters a = s.letters a := by rw [State.letters, hcalled, State.letters]
  refine ⟨?thread, ?sent, ?printed, ?greeting, ?answer, fun mail hmail => ?greeted,
    fun mail hmail => ?answered, ?waits⟩
  case thread =>
    rw [hcalled]
    exact h.thread
  case sent =>
    rw [hletters, hstage]
    exact h.sent
  case printed =>
    rw [hgot, hstage]
    exact h.printed
  case greeting =>
    rw [hletters]
    exact h.greeting
  case answer =>
    rw [hletters, hgot]
    exact h.answer
  case greeted =>
    rw [hgot] at hmail
    obtain ⟨m, hm, hgreeted⟩ := h.greeted mail hmail
    exact ⟨m, hwire hm, hgreeted⟩
  case answered =>
    rw [hgot] at hmail
    obtain ⟨m, hm, hanswered⟩ := h.answered mail hmail
    exact ⟨m, hwire hm, hanswered⟩
  case waits =>
    rw [hstage]
    exact h.waits.frame hreceives

theorem running_step {net : Machines.State} {e : Machines.Event}
    (h : (c.running s).step s.net e = .ok net) : c.machines.step s.net e = .ok net :=
  Machines.step_of_subset (Finset.filter_subset _ _) h

/-- A step of the machine below makes no call of the program. -/
theorem not_isCall {ev : Sender.Event} (h : isCall ev = false) :
    (∀ t, ev.calls t = []) ∧ (∀ box data, ev ≠ .office (.receive box data)) ∧
      Machines.Event.Valid c.machines ⟨a, ev⟩ := by
  cases ev with
  | office ev =>
    refine ⟨fun _ => rfl, ?_, trivial⟩
    rintro box data heq
    cases heq
    cases h
  | send m => cases h
  | proceed lost => exact ⟨fun _ => rfl, fun _ _ heq => (by cases heq), trivial⟩

/-- Something that is no call of `Send` or `Receive`. -/
theorem Consistent.machine (hs : c.Consistent s) {e : Machines.Event} {net : Machines.State}
    (hcall : isCall e.event = false) (h : (c.running s).step s.net e = .ok net) :
    c.Consistent { s with net } := by
  have hst := running_step h
  obtain ⟨hcalls, hreceive, hvalid⟩ := not_isCall (c := c) (a := e.address) hcall
  obtain ⟨-, -, -, hwire, -⟩ := Machines.step_sent hst
  refine ⟨Machines.step_consistent hs.net hvalid hst, fun a ha => ?_⟩
  refine (hs.standing a ha).frame rfl rfl hwire ?_
    (Machines.step_receives hst (fun _ => hreceive) _)
  rw [Machines.step_called hst a, hcalls, ite_self, List.append_nil]

/-! ## What the letters are -/

theorem Greeting.box (h : c.Greeting m) : m.mailHdr.box = 0 := by
  rw [h.mailHdr]
  decide

theorem Answer.box (h : c.Answer m) : m.mailHdr.box = 1 := by
  rw [h.mailHdr]
  decide

/-- The greeting and the answer go to different boxes. -/
theorem Greeting.not_answer (h : c.Greeting m) (h' : c.Answer m) : False := by
  have hbox := h.box
  rw [h'.box] at hbox
  cases hbox

/-- Every letter that a machine sent is one of the two. -/
theorem Standing.letter (h : c.Standing s a) (hm : m ∈ s.letters a) : c.Greeting m ∨ c.Answer m := by
  obtain ⟨i, hi⟩ := List.getElem?_of_mem hm
  obtain ⟨hlt, -⟩ := List.getElem?_eq_some_iff.mp hi
  have hle : (s.stage a).sent ≤ 2 := by
    cases s.stage a <;> decide
  rw [h.sent] at hlt
  obtain rfl | rfl : i = 0 ∨ i = 1 := by omega
  · exact .inl (h.greeting m hi)
  · exact .inr (h.answer m hi).1

/-- What comes into a socket is a letter of the thread of another machine. -/
theorem Consistent.wire (hs : c.Consistent s) (hm : m ∈ s.net.wire) :
    m.netAddr ∈ c.machines.addresses ∧
      m ∈ (s.net.machine m.netAddr).packetsOf (c.thread m.netAddr) ∧
      m ∈ s.letters m.netAddr := by
  have ha := hs.net.senders m hm
  have hconnected := hs.net.connected _ ha
  have hhanded : m ∈ (s.net.machine m.netAddr).handedOver := by
    rw [hconnected.handedOver]
    exact List.mem_filter.mpr ⟨hm, decide_eq_true rfl⟩
  obtain ⟨p, hp, hmessage⟩ := List.mem_map.mp hhanded
  have hpackets : m ∈ (s.net.machine m.netAddr).packetsOf p.thread :=
    List.mem_map.mpr ⟨p, List.mem_filter.mpr ⟨(List.mem_filter.mp hp).1, decide_eq_true rfl⟩,
      hmessage⟩
  have hcalled : m ∈ (s.net.machine m.netAddr).calledBy p.thread := by
    rw [← hconnected.consistent.called]
    exact List.mem_append_left _ hpackets
  obtain ⟨⟨t, m'⟩, hmem, rfl⟩ := List.mem_map.mp hcalled
  obtain ⟨hmem, ht⟩ := List.mem_filter.mp hmem
  have hthread := (hs.standing _ ha).thread _ hmem
  rw [← of_decide_eq_true ht, hthread] at hpackets
  exact ⟨ha, hpackets, List.mem_map.mpr ⟨_, hmem, rfl⟩⟩

/-- What `Receive` has returned is a letter to this machine. -/
theorem Consistent.received (hs : c.Consistent s) (ha : a ∈ c.machines.addresses)
    {r : PostOffice.Receipt} {box : ℕ} (hr : c.receipt s a = some r) (hbox : r.box = box)
    (hlt : box < c.machines.numBoxes) :
    ∃ m ∈ s.net.wire, m.pktHdr.toAddr = a ∧ m.mailHdr.box = box ∧ m.Delivers r.mail ∧
      (c.Greeting m ∨ c.Answer m) := by
  have hmem : r ∈ (s.net.machine a).office.received :=
    (List.mem_filter.mp (List.mem_of_getLast? hr)).1
  subst hbox
  obtain ⟨m, hm, hto, hmbox, hdelivers⟩ := hs.net.receipt ha hmem hlt
  obtain ⟨hfrom, -, hletter⟩ := hs.wire hm
  exact ⟨m, hm, hto, hmbox, hdelivers, (hs.standing _ hfrom).letter hletter⟩

/-- The thread has returned from `Receive` for the mailbox that it waited for. -/
theorem Standing.receipt_box (h : c.Standing s a) (hback : c.Back s a) {box : ℕ}
    (hstage : (s.stage a).mailbox = some box) {r : PostOffice.Receipt}
    (hr : c.receipt s a = some r) : r.box = box := by
  have hnone := PostOffice.mailbox_of_isNone hback.2.2.2
  rcases h.waits with hwaits | ⟨-, r', hr', hwaits⟩
  · rw [hnone, hstage] at hwaits
    cases hwaits
  · rw [hr, Option.some.injEq] at hr'
    rw [hstage, ← hr', Option.some.injEq] at hwaits
    exact hwaits.symm

/-! ## The calls of `MailTest` -/

/-- A call of the program is an event of its machine, and moves its stage on. -/
theorem call_ok {ev : Sender.Event} {stage : Stage} (h : c.call s a ev stage = .ok s') :
    c.machines.step s.net ⟨a, ev⟩ = .ok s'.net ∧ s'.stage a = stage ∧
      (∀ b ≠ a, s'.stage b = s.stage b) ∧ s'.got = s.got := by
  obtain ⟨net, hst, h⟩ := bind_ok_iff.mp h
  rw [← pure_ok_iff.mp h]
  exact ⟨running_step hst, Function.update_self a stage s.stage,
    fun b hb => Function.update_of_ne hb stage s.stage, rfl⟩

/-- Only the machine that makes the call is not as it was. -/
theorem Consistent.call (hs : c.Consistent s) {ev : Sender.Event}
    (hst : c.machines.step s.net ⟨a, ev⟩ = .ok s'.net)
    (hvalid : Machines.Event.Valid c.machines ⟨a, ev⟩)
    (hstage : ∀ b ≠ a, s'.stage b = s.stage b) (hgot : ∀ b ≠ a, s'.got b = s.got b)
    (ha : c.Standing s' a) : c.Consistent s' := by
  obtain ⟨-, -, -, hwire, -⟩ := Machines.step_sent hst
  refine ⟨Machines.step_consistent hs.net hvalid hst, fun b hb => ?_⟩
  by_cases hsame : b = a
  · rw [hsame]
    exact ha
  · refine (hs.standing b hb).frame (hstage b hsame) (hgot b hsame) hwire ?_
      (Machines.step_receives hst (fun h => absurd h hsame) _)
    rw [Machines.step_called hst b, if_neg hsame, List.append_nil]

/-- What a call of `Send` changes on the machine. -/
theorem Standing.send (h : c.Standing s a) (hback : c.Back s a)
    (hst : c.machines.step s.net ⟨a, .send m⟩ = .ok s'.net) :
    (∀ p ∈ (s'.net.machine a).called, p.1 = c.thread a) ∧ s'.letters a = s.letters a ++ [m] ∧
      ((s'.net.machine a).office.method (c.thread a)).mailbox = none := by
  have hcalled := Machines.step_called hst a
  rw [if_pos rfl, hback.2.1, Sender.Event.calls] at hcalled
  refine ⟨fun p hp => ?_, ?_, ?_⟩
  · rw [hcalled] at hp
    rcases List.mem_append.mp hp with hp | hp
    · exact h.thread p hp
    · rw [List.mem_singleton.mp hp]
  · rw [State.letters, hcalled, List.map_append]
    rfl
  · have hnone := PostOffice.mailbox_of_isNone hback.2.2.2
    cases Machines.step_receives hst (b := a) (fun _ _ _ heq => by cases heq) (c.thread a) with
    | stay hmailbox _ => rw [hmailbox, hnone]
    | back hmailbox _ _ =>
      rw [hnone] at hmailbox
      cases hmailbox

/-- The first call of `Send`. -/
theorem Standing.greet (h : c.Standing s a) (hback : c.Back s a) (hstart : s.stage a = .start)
    (hst : c.machines.step s.net ⟨a, .send (c.letter a g (c.farAddr a) 0 data)⟩ = .ok s'.net)
    (hstage : s'.stage a = .sending) (hgot : s'.got a = s.got a) : c.Standing s' a := by
  obtain ⟨hthread, hletters, hmailbox⟩ := h.send hback hst
  have hempty : s.letters a = [] := by
    have hsent := h.sent
    rw [hstart] at hsent
    exact List.eq_nil_of_length_eq_zero hsent
  have hnothing : s.got a = [] := by
    have hprinted := h.printed
    rw [hstart] at hprinted
    exact List.eq_nil_of_length_eq_zero hprinted
  rw [hempty, List.nil_append] at hletters
  rw [hnothing] at hgot
  refine ⟨hthread, ?sent, ?printed, fun m hm => ?greeting, fun m hm => ?answer,
    fun mail hmail => ?greeted, fun mail hmail => ?answered, .inl ?waits⟩
  case sent =>
    rw [hletters, hstage]
    rfl
  case printed =>
    rw [hgot, hstage]
    rfl
  case greeting =>
    rw [hletters] at hm
    obtain rfl := Option.some.inj hm
    exact ⟨rfl, rfl, rfl⟩
  case answer =>
    rw [hletters] at hm
    cases hm
  case greeted =>
    rw [hgot] at hmail
    cases hmail
  case answered =>
    rw [hgot] at hmail
    cases hmail
  case waits =>
    rw [hmailbox, hstage]
    rfl

/-- A call of `Receive`. -/
theorem Standing.receive (h : c.Standing s a) (hback : c.Back s a) {box : ℤ} {buffer : Bytes}
    {stage : Stage}
    (hst : c.machines.step s.net ⟨a, .office (.receive box buffer)⟩ = .ok s'.net)
    (hstage : s'.stage a = stage) (hgot : s'.got a = s.got a)
    (hsent : stage.sent = (s.stage a).sent) (hprinted : stage.printed = (s.stage a).printed)
    (hmailbox : stage.mailbox = some box.toNat) : c.Standing s' a := by
  obtain ⟨message, machine, hmachine, hwire, hrest⟩ := Machines.step_sent hst
  have hcalled : (s'.net.machine a).called = (s.net.machine a).called := by
    rw [Machines.step_called hst a, if_pos rfl]
    exact List.append_nil _
  have hletters : s'.letters a = s.letters a := by rw [State.letters, hcalled, State.letters]
  refine ⟨?thread, ?sent, ?printed, ?greeting, ?answer, fun mail hmail => ?greeted,
    fun mail hmail => ?answered, .inl ?waits⟩
  case thread =>
    rw [hcalled]
    exact h.thread
  case sent =>
    rw [hletters, hstage, hsent]
    exact h.sent
  case printed =>
    rw [hgot, hstage, hprinted]
    exact h.printed
  case greeting =>
    rw [hletters]
    exact h.greeting
  case answer =>
    rw [hletters, hgot]
    exact h.answer
  case greeted =>
    rw [hgot] at hmail
    obtain ⟨m, hm, hgreeted⟩ := h.greeted mail hmail
    exact ⟨m, hwire hm, hgreeted⟩
  case answered =>
    rw [hgot] at hmail
    obtain ⟨m, hm, hanswered⟩ := h.answered mail hmail
    exact ⟨m, hwire hm, hanswered⟩
  case waits =>
    -- the machine is now in `Receive` of the box that its stage says
    rw [(hrest a).method, Function.update_self, hstage, hmailbox]
    cases Sender.step_taken hmachine with
    | office _ hreceive _ =>
      dsimp only
      rw [PostOffice.receive_ok hreceive, hback.2.1, Function.update_self]
      rfl

/-- The first letter has been received, and `Send` is called for the answer. -/
theorem Standing.reply (h : c.Standing s a) (hback : c.Back s a)
    (hreceiving : s.stage a = .receiving) {r : PostOffice.Receipt} {m : Message}
    (hm : m ∈ s.net.wire) (hto : m.pktHdr.toAddr = a) (hgreeting : c.Greeting m)
    (hdelivers : m.Delivers r.mail)
    (hst : c.machines.step s.net ⟨a,
      .send (c.letter a g r.mail.pktHdr.fromAddr r.mail.mailHdr.fromAddr ack)⟩ = .ok s'.net)
    (hstage : s'.stage a = .answering) (hgot : s'.got a = s.got a ++ [r.mail]) :
    c.Standing s' a := by
  obtain ⟨hthread, hletters, hmailbox⟩ := h.send hback hst
  obtain ⟨-, -, -, hwire, -⟩ := Machines.step_sent hst
  -- before the answer the machine has sent its greeting and printed nothing
  obtain ⟨first, hfirst⟩ : ∃ first, s.letters a = [first] := by
    have hsent := h.sent
    rw [hreceiving] at hsent
    exact List.length_eq_one_iff.mp hsent
  have hnothing : s.got a = [] := by
    have hprinted := h.printed
    rw [hreceiving] at hprinted
    exact List.eq_nil_of_length_eq_zero hprinted
  rw [hfirst] at hletters
  rw [hnothing, List.nil_append] at hgot
  have hfrom : r.mail.pktHdr.fromAddr = m.netAddr := by
    rw [hdelivers.pktHdr]
    rfl
  have hbox : r.mail.mailHdr.fromAddr = 1 := by
    rw [hdelivers.mailHdr, hgreeting.mailHdr]
  refine ⟨hthread, ?sent, ?printed, fun m' hm' => ?greeting, fun m' hm' => ?answer,
    fun mail hmail => ?greeted, fun mail hmail => ?answered, .inl ?waits⟩
  case sent =>
    rw [hletters, hstage]
    rfl
  case printed =>
    rw [hgot, hstage]
    rfl
  case greeting =>
    rw [hletters] at hm'
    refine h.greeting m' ?_
    rw [hfirst]
    exact hm'
  case answer =>
    rw [hletters] at hm'
    obtain rfl := Option.some.inj hm'
    refine ⟨⟨?_, ?_, rfl⟩, r.mail, ?_, rfl⟩
    · change a = c.farAddr r.mail.pktHdr.fromAddr
      rw [hfrom, ← hgreeting.toAddr, hto]
    · change (⟨r.mail.mailHdr.fromAddr, 1, BitVec.ofNat 32 ack.length⟩ : MailHeader) = _
      rw [hbox]
    · rw [hgot]
      rfl
  case greeted =>
    rw [hgot] at hmail
    obtain rfl := Option.some.inj hmail
    exact ⟨m, hwire hm, hto, hgreeting, hdelivers⟩
  case answered =>
    rw [hgot] at hmail
    cases hmail
  case waits =>
    rw [hmailbox, hstage]
    rfl

/-- The answer has been received. -/
theorem Standing.halt (h : c.Standing s a) (hback : c.Back s a) (hwaiting : s.stage a = .waiting)
    {r : PostOffice.Receipt} {m : Message} (hm : m ∈ s.net.wire) (hto : m.pktHdr.toAddr = a)
    (hanswer : c.Answer m) (hdelivers : m.Delivers r.mail) :
    c.Standing { s with
      got := Function.update s.got a (s.got a ++ [r.mail])
      stage := Function.update s.stage a .halted } a := by
  -- a machine that waits has printed the greeting, so this is its second letter
  obtain ⟨first, hfirst⟩ : ∃ first, s.got a = [first] := by
    have hprinted := h.printed
    rw [hwaiting] at hprinted
    exact List.length_eq_one_iff.mp hprinted
  have hsent := h.sent
  rw [hwaiting] at hsent
  have hgot : (Function.update s.got a (s.got a ++ [r.mail])) a = [first, r.mail] := by
    rw [Function.update_self, hfirst]
    rfl
  refine ⟨h.thread, ?sent, ?printed, h.greeting, fun m' hm' => ?answer, fun mail hmail => ?greeted,
    fun mail hmail => ?answered, .inl ?waits⟩
  case sent =>
    dsimp only
    rw [Function.update_self]
    exact hsent
  case printed =>
    dsimp only
    rw [hgot, Function.update_self]
    rfl
  case answer =>
    dsimp only
    rw [hgot]
    obtain ⟨hanswered, mail, hmail, hfrom⟩ := h.answer m' hm'
    rw [hfirst] at hmail
    exact ⟨hanswered, mail, hmail, hfrom⟩
  case greeted =>
    dsimp only at hmail
    rw [hgot] at hmail
    refine h.greeted mail ?_
    rw [hfirst]
    exact hmail
  case answered =>
    dsimp only at hmail
    rw [hgot] at hmail
    obtain rfl := Option.some.inj hmail
    exact ⟨m, hm, hto, hanswer, hdelivers⟩
  case waits =>
    dsimp only
    rw [PostOffice.mailbox_of_isNone hback.2.2.2, Function.update_self]
    rfl

/-- The program goes on when its call has returned; the cases are its stages. -/
theorem Consistent.proceed (hs : c.Consistent s) (hback : c.Back s a)
    (h : c.proceed s a g = .ok s') : c.Consistent s' := by
  have ha := hback.1
  have hstanding := hs.standing a ha
  have hboxes := c.boxes
  unfold MailTest.proceed at h
  split at h
  · rename_i hstart
    obtain ⟨hst, hstage, hothers, hgot⟩ := call_ok h
    exact hs.call hst (c.mem a ha) hothers (fun b _ => congrFun hgot b)
      (hstanding.greet hback hstart hst hstage (congrFun hgot a))
  · rename_i hsending
    obtain ⟨hst, hstage, hothers, hgot⟩ := call_ok h
    exact hs.call hst trivial hothers (fun b _ => congrFun hgot b)
      (hstanding.receive hback hst hstage (congrFun hgot a) (by rw [hsending]; rfl)
        (by rw [hsending]; rfl) rfl)
  · rename_i hreceiving
    split at h
    · cases h
    · rename_i r hr
      obtain ⟨hst, hstage, hothers, hgot⟩ := call_ok h
      have hbox := hstanding.receipt_box hback (by rw [hreceiving]; rfl) hr
      obtain ⟨m, hm, hto, hmbox, hdelivers, hletter⟩ := hs.received ha hr hbox (by omega)
      -- box 0 takes greetings only
      have hgreeting : c.Greeting m := by
        rcases hletter with hgreeting | hanswer
        · exact hgreeting
        · rw [hanswer.box] at hmbox
          cases hmbox
      have hvalid : r.mail.pktHdr.fromAddr ∈ c.machines.addresses := by
        rw [hdelivers.pktHdr]
        exact (hs.wire hm).1
      refine hs.call hst hvalid hothers (fun b hb => ?_)
        (hstanding.reply hback hreceiving hm hto hgreeting hdelivers hst hstage ?_)
      · rw [hgot]
        exact Function.update_of_ne hb _ _
      · rw [hgot]
        exact Function.update_self _ _ _
  · rename_i hanswering
    obtain ⟨hst, hstage, hothers, hgot⟩ := call_ok h
    exact hs.call hst trivial hothers (fun b _ => congrFun hgot b)
      (hstanding.receive hback hst hstage (congrFun hgot a) (by rw [hanswering]; rfl)
        (by rw [hanswering]; rfl) rfl)
  · rename_i hwaiting
    split at h
    · cases h
    · rename_i r hr
      rw [← Except.ok.inj h]
      have hbox := hstanding.receipt_box hback (by rw [hwaiting]; rfl) hr
      obtain ⟨m, hm, hto, hmbox, hdelivers, hletter⟩ := hs.received ha hr hbox (by omega)
      -- and box 1 answers only
      have hanswer : c.Answer m := by
        rcases hletter with hgreeting | hanswer
        · rw [hgreeting.box] at hmbox
          cases hmbox
        · exact hanswer
      refine ⟨hs.net, fun b hb => ?_⟩
      by_cases hsame : b = a
      · rw [hsame]
        exact hstanding.halt hback hwaiting hm hto hanswer hdelivers
      · exact (hs.standing b hb).frame (Function.update_of_ne hsame _ _)
          (Function.update_of_ne hsame _ _) (fun _ h => h) rfl (.stay rfl rfl)
  · cases h

/-- The step lemma: both machines are at matching places of `MailTest`. -/
theorem step_consistent {ev : Event} (hs : c.Consistent s) (h : c.step s ev = .ok s') :
    c.Consistent s' := by
  cases ev with
  | machine e =>
    rw [step] at h
    split_ifs at h with hcall
    obtain ⟨net, hst, h⟩ := bind_ok_iff.mp h
    rw [← pure_ok_iff.mp h]
    exact hs.machine hcall hst
  | proceed a g =>
    rw [step] at h
    split_ifs at h with hback
    exact hs.proceed hback h

/-! ## No assertion fails -/

/-- The thread of a machine that is about to hand over a letter has at most one that it has handed
over before. -/
theorem Consistent.pending (hs : c.Consistent s) (ha : a ∈ c.machines.addresses) {t : ℕ}
    (hm : (s.net.machine a).method t = .acquire m) : m.netAddr = a ∧
    s.letters a = (s.net.machine a).packetsOf (c.thread a) ++ [m] := by
  have hmachine := (hs.net.connected a ha).consistent
  refine ⟨(hmachine.acquiring t m hm).netAddr.trans (c.machines.netAddr_eq a), ?_⟩
  have hcalled := hmachine.called t
  rw [hm, Sender.Method.pending] at hcalled
  have hmem : m ∈ (s.net.machine a).calledBy t := by
    rw [← hcalled]
    exact List.mem_append_right _ (List.mem_singleton_self m)
  obtain ⟨p, hp, -⟩ := List.mem_map.mp hmem
  obtain ⟨hp, ht⟩ := List.mem_filter.mp hp
  have hthread := (hs.standing a ha).thread
  rw [← hthread p hp, of_decide_eq_true ht, hcalled, State.letters, Sender.State.calledBy]
  refine congrArg _ (List.filter_eq_self.mpr fun p' hp' => ?_).symm
  rw [hthread p' hp', ← hthread p hp]
  exact ht

/-- Nobody writes to a machine that has halted: its two letters came before that. -/
theorem Consistent.up (hs : c.Consistent s) (ha : a ∈ c.machines.addresses) {t : ℕ}
    (hm : (s.net.machine a).method t = .acquire m) : s.stage m.pktHdr.toAddr ≠ .halted := by
  intro hhalted
  have hto := (hs.net.connected a ha).acquiring t m hm
  obtain ⟨hfrom, hletters⟩ := hs.pending ha hm
  have hstanding := hs.standing a ha
  have hlength : ((s.net.machine a).packetsOf (c.thread a)).length ≤ 1 := by
    have hsent := hstanding.sent
    rw [hletters, List.length_append, List.length_singleton] at hsent
    have hle : (s.stage a).sent ≤ 2 := by
      cases s.stage a <;> decide
    omega
  obtain ⟨first, second, hgot⟩ : ∃ first second, s.got m.pktHdr.toAddr = [first, second] := by
    have hprinted := (hs.standing _ hto).printed
    rw [hhalted] at hprinted
    exact List.length_eq_two.mp hprinted
  rcases hstanding.letter (hletters ▸ List.mem_append_right _ (List.mem_singleton_self m)) with
    hgreeting | hanswer
  · obtain ⟨m₀, hm₀, hto₀, hgreeting₀, -⟩ := (hs.standing _ hto).greeted first (by rw [hgot]; rfl)
    obtain ⟨hfrom₀, hpacket, -⟩ := hs.wire hm₀
    have hsame : m₀.netAddr = a := by
      refine c.injective _ hfrom₀ a ha ?_
      rw [← hgreeting₀.toAddr, hto₀, hgreeting.toAddr, hfrom]
    -- then this is the second letter
    rw [hsame] at hpacket
    have hone : ((s.net.machine a).packetsOf (c.thread a)).length = 1 :=
      le_antisymm hlength (List.length_pos_of_mem hpacket)
    refine hgreeting.not_answer (hstanding.answer m ?_).1
    rw [hletters, List.getElem?_append_right hone.le, hone]
    rfl
  · obtain ⟨m₁, hm₁, hto₁, hanswer₁, -⟩ := (hs.standing _ hto).answered second (by rw [hgot]; rfl)
    obtain ⟨-, hpacket, -⟩ := hs.wire hm₁
    have hsame : m₁.netAddr = a := by
      rw [hanswer₁.netAddr, hto₁, ← hanswer.netAddr, hfrom]
    -- then the first letter was an answer
    rw [hsame] at hpacket
    obtain ⟨i, hi⟩ := List.getElem?_of_mem hpacket
    obtain ⟨hlt, -⟩ := List.getElem?_eq_some_iff.mp hi
    obtain rfl : i = 0 := by omega
    refine (hstanding.greeting m₁ ?_).not_answer hanswer₁
    rw [hletters, List.getElem?_append_left hlt]
    exact hi

/-- Between the calls of the program its machine meets the assertions of the network. -/
theorem Consistent.machine_asserts (hs : c.Consistent s) (ha : a ∈ c.machines.addresses)
    {ev : Sender.Event} (hev : (∃ lost, ev = .proceed lost) ∨ ev = .office .proceed) :
    Avoids .assertion (c.step s (.machine ⟨a, ev⟩)) := by
  have hcall : isCall ev = false := by
    rcases hev with ⟨lost, rfl⟩ | rfl
    · rfl
    · rfl
  have hlegal : ev.Legal (c.running s).numBoxes := by
    rcases hev with ⟨lost, rfl⟩ | rfl
    · exact trivial
    · exact trivial
  rw [step, if_pos hcall]
  refine .bind ?_ fun _ _ => .pure _ _
  by_cases hup : a ∈ (c.running s).addresses
  · refine Machines.step_asserts (n := c.running s) (hs.net.connected a ha).consistent hup
      (fun t m hm => ?_) hlegal
    refine Finset.mem_filter.mpr ⟨(hs.net.connected a ha).acquiring t m hm, ?_⟩
    exact hs.up ha hm
  · rw [Machines.step, if_neg hup]
    exact .error (by simp)

theorem call_asserts {ev : Sender.Event} {stage : Stage}
    (h : Avoids .assertion ((c.machines.sender a).step (s.net.machine a) ev))
    (hnone : ∀ machine message, (c.machines.sender a).step (s.net.machine a) ev =
      .ok (message, machine) → message = none) : Avoids .assertion (c.call s a ev stage) := by
  refine .bind ?_ fun _ _ => .pure _ _
  rw [Machines.step]
  split
  · refine Avoids.bind h fun r hst => ?_
    obtain ⟨message, machine⟩ := r
    rw [hnone machine message hst]
    exact .pure _ _
  · exact .error (by simp)

/-- The arguments of its `Send` are legal. -/
theorem send_asserts {stage : Stage} (hlength : m.mailHdr.length.toNat ≤ maxMailSize)
    (hbox : m.mailHdr.Valid m.numBoxes) : Avoids .assertion (c.call s a (.send m) stage) := by
  refine call_asserts (Sender.send_asserts hlength hbox) fun machine message hst => ?_
  cases Sender.step_taken hst with
  | send _ _ _ _ => rfl

/-- And those of its `Receive`. -/
theorem receive_asserts {stage : Stage} {box : ℤ} {buffer : Bytes} (hnonneg : 0 ≤ box)
    (hbox : box < c.machines.numBoxes) :
    Avoids .assertion (c.call s a (.office (.receive box buffer)) stage) := by
  rw [← c.machines.numBoxes_eq a] at hbox
  refine call_asserts (Sender.receive_asserts hnonneg hbox) fun machine message hst => ?_
  cases Sender.step_taken hst with
  | office _ _ _ => rfl

theorem data_fits : (BitVec.ofNat 32 data.length).toNat ≤ maxMailSize := by decide

theorem ack_fits : (BitVec.ofNat 32 ack.length).toNat ≤ maxMailSize := by decide

theorem valid_box {box : BitVec 32} (h : box = 0 ∨ box = 1) :
    0 ≤ box.toInt ∧ box.toInt < c.machines.numBoxes := by
  have hboxes := c.boxes
  rcases h with rfl | rfl
  · exact ⟨le_rfl, by simp; omega⟩
  · have hone : (1 : BitVec 32).toInt = 1 := by decide
    rw [hone]
    exact ⟨by decide, by omega⟩

/-- So `MailTest` fails no assertion. -/
theorem Consistent.proceed_asserts (hs : c.Consistent s) :
    Avoids .assertion (c.step s (.proceed a g)) := by
  have hboxes := c.boxes
  rw [step]
  split
  · rename_i hback
    have ha := hback.1
    have hstanding := hs.standing a ha
    unfold MailTest.proceed
    split
    · exact send_asserts data_fits (valid_box (.inl rfl))
    · exact receive_asserts le_rfl (by omega)
    · rename_i hreceiving
      split
      · exact .error (by simp)
      · rename_i r hr
        have hbox := hstanding.receipt_box hback (by rw [hreceiving]; rfl) hr
        obtain ⟨m, hm, hto, hmbox, hdelivers, hletter⟩ := hs.received ha hr hbox (by omega)
        refine send_asserts (m := c.letter a g _ _ ack) ack_fits (valid_box (.inr ?_))
        change r.mail.mailHdr.fromAddr = 1
        rcases hletter with hgreeting | hanswer
        · rw [hdelivers.mailHdr, hgreeting.mailHdr]
        · rw [hdelivers.mailHdr, hanswer.mailHdr]
    · exact receive_asserts (by decide) (by omega)
    · split
      · exact .error (by simp)
      · exact .ok _ _
    · exact .error (by simp)
  · exact .error (by simp)

/-! ## What has been printed -/

/-- The mail is from a machine, and the text with its header for this mailbox. -/
structure Reads (mail : Mail) (fromAddr toBox : BitVec 32) (text : List UInt8) : Prop where
  fromAddr : mail.pktHdr.fromAddr = fromAddr
  mailHdr : mail.mailHdr = ⟨toBox, 1, BitVec.ofNat 32 text.length⟩
  text : Bytes.EqUpTo text.length mail.data (bytes text)

/-- A delivered greeting is read as it was sent. -/
theorem Greeting.reads (h : c.Greeting m) {mail : Mail} (hdelivers : m.Delivers mail) :
    Reads mail m.netAddr 0 data := by
  refine ⟨?_, hdelivers.mailHdr.trans h.mailHdr, ?_⟩
  · rw [hdelivers.pktHdr]
    rfl
  · have hdata := hdelivers.data
    rw [h.mailHdr, h.text] at hdata
    exact hdata

/-- And so is the answer. -/
theorem Answer.reads (h : c.Answer m) {mail : Mail} (hdelivers : m.Delivers mail) :
    Reads mail m.netAddr 1 ack := by
  refine ⟨?_, hdelivers.mailHdr.trans h.mailHdr, ?_⟩
  · rw [hdelivers.pktHdr]
    rfl
  · have hdata := hdelivers.data
    rw [h.mailHdr, h.text] at hdata
    exact hdata

/-- A machine that has its answer was heard: the machine that it has written to has its letter. -/
theorem Consistent.heard (hs : c.Consistent s) (ha : a ∈ c.machines.addresses) {mail : Mail}
    (hmail : (s.got a)[1]? = some mail) : Reads mail (c.farAddr a) 1 ack ∧
      ∃ mail', (s.got (c.farAddr a))[0]? = some mail' ∧ Reads mail' a 0 data := by
  obtain ⟨m, hm, hto, hanswer, hdelivers⟩ := (hs.standing a ha).answered mail hmail
  obtain ⟨hfrom, -, hletter⟩ := hs.wire hm
  have hnetAddr : m.netAddr = c.farAddr a := by rw [hanswer.netAddr, hto]
  rw [hnetAddr] at hfrom hletter
  have hfar := hs.standing _ hfrom
  refine ⟨hnetAddr ▸ hanswer.reads hdelivers, ?_⟩
  -- the answer is the second letter of the other machine
  obtain ⟨i, hi⟩ := List.getElem?_of_mem hletter
  obtain ⟨hlt, -⟩ := List.getElem?_eq_some_iff.mp hi
  have hle : (s.stage (c.farAddr a)).sent ≤ 2 := by
    cases s.stage (c.farAddr a) <;> decide
  rw [hfar.sent] at hlt
  obtain rfl | rfl : i = 0 ∨ i = 1 := by omega
  · exact ((hfar.greeting m hi).not_answer hanswer).elim
  · obtain ⟨-, mail', hmail', hanswered⟩ := hfar.answer m hi
    obtain ⟨m', -, -, hgreeting, hdelivers'⟩ := hfar.greeted mail' hmail'
    have hreads := hgreeting.reads hdelivers'
    have hsame : m'.netAddr = a := by rw [← hreads.fromAddr, hanswered, hto]
    exact ⟨mail', hmail', hsame ▸ hreads⟩

/-- `MailTest` under every schedule and whatever packets are lost, if no two machines write to the
same one. What a machine prints first is the letter of the machine that writes to it, and what it
prints then is the answer of the machine that it has written to, which has printed its letter before.
It halts after that, and nobody writes to it any more. No assertion fails. -/
theorem run_agrees {es : List Event} (hboot : c.Booted s) (hrun : PartialRun.run c.step s es = .ok s')
    (ha : a ∈ c.machines.addresses) :
    (s'.got a).length ≤ 2 ∧ (s'.stage a = .halted ↔ (s'.got a).length = 2) ∧
    (∀ mail, (s'.got a)[0]? = some mail →
      ∃ b ∈ c.machines.addresses, c.farAddr b = a ∧ Reads mail b 0 data) ∧
    (∀ mail, (s'.got a)[1]? = some mail → Reads mail (c.farAddr a) 1 ack ∧
      ∃ mail', (s'.got (c.farAddr a))[0]? = some mail' ∧ Reads mail' a 0 data) ∧
    (∀ lost, c.step s' (.machine ⟨a, .proceed lost⟩) ≠ .error .assertion) ∧
    c.step s' (.machine ⟨a, .office .proceed⟩) ≠ .error .assertion ∧
    (∀ g, c.step s' (.proceed a g) ≠ .error .assertion) ∧
    (s'.net.machine a).office.network.checkPktAvail ≠ .error .assertion := by
  have hs : c.Consistent s' := by
    have hkeep : ∀ t ev t', c.Consistent t → True → c.step t ev = .ok t' → c.Consistent t' :=
      fun _ _ _ ht _ hst => step_consistent ht hst
    exact Along.invariant hkeep hboot.consistent (Along.of_forall fun _ _ => trivial) hrun
  have hprinted := (hs.standing a ha).printed
  refine ⟨?_, ?_, fun mail hmail => ?_, fun mail hmail => hs.heard ha hmail,
    fun lost => hs.machine_asserts ha (.inl ⟨lost, rfl⟩), hs.machine_asserts ha (.inr rfl),
    fun g => hs.proceed_asserts, (hs.net.connected a ha).consistent.office.poll_asserts⟩
  · rw [hprinted]
    cases s'.stage a <;> decide
  · rw [hprinted]
    cases s'.stage a <;> decide
  · obtain ⟨m, hm, hto, hgreeting, hdelivers⟩ := (hs.standing a ha).greeted mail hmail
    exact ⟨m.netAddr, (hs.wire hm).1, hgreeting.toAddr.symm.trans hto, hgreeting.reads hdelivers⟩

end

/-- Machines `0` and `1`, which write to each other. -/
def pairTest : MailTest where
  machines := Machines.pair
  farAddr a := if a = 0 then 1 else 0
  thread _ := 0
  mem a _ := by
    split
    · decide
    · decide
  injective a ha b hb h := by
    have hpair : ∀ a ∈ Machines.pair.addresses, a = 0 ∨ a = 1 := fun a ha => by
      simpa [Machines.pair] using ha
    rcases hpair a ha with rfl | rfl <;> rcases hpair b hb with rfl | rfl
    · rfl
    · exact absurd h (by decide)
    · exact absurd h (by decide)
    · rfl
  boxes := le_rfl

def pairBoot : State := ⟨Machines.boot, fun _ => .start, fun _ => []⟩

theorem pairBoot_booted : pairTest.Booted pairBoot := ⟨Machines.boot_booted, fun _ => rfl, fun _ => rfl⟩

/-- The events of the run below, by letter. -/
def event (a : BitVec 32) : Char → Event
  | 'f' => .machine ⟨a, .office (.kernel (.call (.fork 1)))⟩
  | 'x' => .machine ⟨a, .office (.kernel .exec)⟩
  | 't' => .machine ⟨a, .office (.kernel (.tick []))⟩
  -- a packet has come, or has been sent
  | 'A' => .machine ⟨a, .office (.kernel (.tick [.v 0]))⟩
  | 'a' => .machine ⟨a, .office (.kernel (.idle [.v 0]))⟩
  | 'S' => .machine ⟨a, .office (.kernel (.tick [.v 1]))⟩
  | 's' => .machine ⟨a, .office (.kernel (.idle [.v 1]))⟩
  | 'w' => .machine ⟨a, .office .postalDelivery⟩
  | 'o' => .machine ⟨a, .office .proceed⟩
  | 'p' => .machine ⟨a, .proceed false⟩
  | _ => .proceed a ⟨⟨0, 0, 0⟩, fun _ => 0, fun _ => 0, fun _ => 0⟩

/-- Machine `0` runs until it waits for the letter, machine `1` until it waits for the answer, and
machine `0` again until it halts. -/
def pairTestRun : List Event :=
  "fxxxtmxxxtxpxxxxSwxxxxxtpxxxtxpmxxxtxoxxxxxx".toList.map (event 0) ++
  ("fxxxtmxxxAxpxxxxSwxxxtoxxxtxoxxxtoxxxtxoxxxxxtpxxxtxpmxxxtxoxxxtxomxxxtxpxxsxxxtpxxxtxpmxxxtxo" ++
    "xxxxxx").toList.map (event 1) ++
  ("axxxtoxxxAxoxxxtoxxxtxoxxxtoxxxtxoxxxtoxxxtxoxxxxxxxxtoxxxtxomxxxtxpxxsxxxtpxxxtxpmxxxtxoxxxtx" ++
    "om").toList.map (event 0)

/-- Machine `0` has halted, and machine `1` has printed its letter. -/
theorem pairTestRun_agrees : ∃ s, PartialRun.run pairTest.step pairBoot pairTestRun = .ok s ∧
    s.stage 0 = .halted ∧ (s.got 0).length = 2 ∧
    ∃ mail, (s.got 1)[0]? = some mail ∧ Reads mail 0 0 data := by
  obtain ⟨s, hrun, hstage⟩ : ∃ s, PartialRun.run pairTest.step pairBoot pairTestRun = .ok s ∧
      s.stage 0 = .halted := by
    decide +kernel
  obtain ⟨-, hhalted, -, hheard, -⟩ := run_agrees (a := 0) pairBoot_booted hrun (by decide)
  have htwo := hhalted.mp hstage
  obtain ⟨first, second, hgot⟩ := List.length_eq_two.mp htwo
  obtain ⟨-, mail, hmail, hreads⟩ := hheard second (by rw [hgot]; rfl)
  exact ⟨s, hrun, hstage, htwo, mail, hmail, hreads⟩

end MailTest
end NachOS
