import Mathlib.Data.Finset.Basic
import NachOS.Network.Sending

/-!
# Machines

Machines with post offices, each of them with the address that its socket is named for. What
`Network::Send` hands over comes into the socket of the machine that the packet is for. The machines
run at any speed, and none of them stops.
-/

namespace NachOS

open PartialRun

/-- The addresses of the machines, and the post office of each. All have as many mailboxes. -/
structure Machines where
  addresses : Finset (BitVec 32)
  sender : BitVec 32 → Sender
  numBoxes : ℕ
  netAddr_eq : ∀ a, (sender a).post.netAddr = a
  numBoxes_eq : ∀ a, (sender a).post.numBoxes = numBoxes

namespace Machines

/-- The machines, and the messages whose packets have been put into a socket, in this order. -/
structure State where
  machine : BitVec 32 → Sender.State
  wire : List Message

/-- What can happen, and on which machine. -/
structure Event where
  address : BitVec 32
  event : Sender.Event

section

variable (n : Machines)

/-- `SendToSocket`. There has to be a machine with the address. -/
def sendToSocket (s : State) (m : Message) : Except Stop State :=
  let toName := m.pktHdr.toAddr
  if toName ∈ n.addresses then do
    let office ← (n.sender toName).post.step (s.machine toName).office (.arrive m)
    return {
      machine := Function.update s.machine toName { s.machine toName with office }
      wire := s.wire ++ [m] }
  else .error .assertion

def step (s : State) (e : Event) : Except Stop State :=
  if e.address ∈ n.addresses then do
    let (message, machine) ← (n.sender e.address).step (s.machine e.address) e.event
    let s := { s with machine := Function.update s.machine e.address machine }
    match message with
    | none => return s
    | some m => n.sendToSocket s m
  else .error .impossible

/-- The post offices have just been made. -/
structure Booted (s : State) : Prop where
  machine : ∀ a ∈ n.addresses, (n.sender a).Booted (s.machine a)
  wire : s.wire = []

/-- The messages that are sent are for machines that there are. -/
def Event.Valid (e : Event) : Prop :=
  match e.event with
  | .send m => m.pktHdr.toAddr ∈ n.addresses
  | _ => True

instance : (e : Event) → Decidable (Event.Valid n e)
  | ⟨_, .send m⟩ => inferInstanceAs (Decidable (m.pktHdr.toAddr ∈ n.addresses))
  | ⟨_, .office _⟩ | ⟨_, .proceed _⟩ => isTrue trivial

/-! ## The invariant -/

/-- The messages from a machine. -/
def sentBy (wire : List Message) (a : BitVec 32) : List Message :=
  wire.filter fun m => m.netAddr = a

/-- The messages to a machine. -/
def sentTo (wire : List Message) (a : BitVec 32) : List Message :=
  wire.filter fun m => m.pktHdr.toAddr = a

/-- A machine has handed over what is in the first list from it, and what is in the second list to
it has come into its socket. -/
structure Connected (handed put : List Message) (a : BitVec 32) (machine : Sender.State) :
    Prop where
  consistent : (n.sender a).Consistent machine
  handedOver : machine.handedOver = sentBy handed a
  arrived : machine.office.arrived = sentTo put a
  acquiring : ∀ t m, machine.method t = .acquire m → m.pktHdr.toAddr ∈ n.addresses

structure Consistent (s : State) : Prop where
  connected : ∀ a ∈ n.addresses, n.Connected s.wire s.wire a (s.machine a)
  senders : ∀ m ∈ s.wire, m.netAddr ∈ n.addresses

end

section

variable {n : Machines} {s s' : State} {handed put : List Message} {m : Message} {a : BitVec 32}
  {machine : Sender.State}

theorem Booted.consistent (hboot : n.Booted s) : n.Consistent s := by
  refine ⟨fun a ha => ?_, fun m hm => by rw [hboot.wire] at hm; cases hm⟩
  have hmachine := hboot.machine a ha
  refine ⟨hmachine.consistent, ?_, ?_, fun t m hm => ?_⟩
  · rw [Sender.State.handedOver, hmachine.packets, hboot.wire]
    rfl
  · rw [hmachine.office.arrived, hboot.wire]
    rfl
  · rw [hmachine.method] at hm
    cases hm

theorem Connected.handOver_other (h : n.Connected handed put a machine) (hne : m.netAddr ≠ a) :
    n.Connected (handed ++ [m]) put a machine :=
  ⟨h.consistent, by simp [h.handedOver, sentBy, hne], h.arrived, h.acquiring⟩

theorem Connected.put_other (h : n.Connected handed put a machine) (hne : m.pktHdr.toAddr ≠ a) :
    n.Connected handed (put ++ [m]) a machine :=
  ⟨h.consistent, h.handedOver, by simp [h.arrived, sentTo, hne], h.acquiring⟩

/-- The message comes into the socket that it is for. -/
theorem Connected.arrive {office : PostOffice.State} (h : n.Connected handed put a machine)
    (hto : m.pktHdr.toAddr = a) (hbox : m.mailHdr.Valid n.numBoxes)
    (hst : (n.sender a).post.step machine.office (.arrive m) = .ok office) :
    n.Connected handed (put ++ [m]) a { machine with office } := by
  rw [← n.numBoxes_eq a] at hbox
  obtain ⟨hconsistent, harrived⟩ := h.consistent.arrive hbox hst
  refine ⟨hconsistent, h.handedOver, ?_, h.acquiring⟩
  rw [harrived, h.arrived]
  simp [sentTo, hto]

/-- A step of the machine itself. -/
theorem Connected.step {ev : Sender.Event} {message : Option Message} {machine' : Sender.State}
    (h : n.Connected handed put a machine) (hvalid : Event.Valid n ⟨a, ev⟩)
    (hst : (n.sender a).step machine ev = .ok (message, machine')) :
    n.Connected (handed ++ message.toList) put a machine' ∧
      ∀ m ∈ message, m.netAddr = a ∧ m.mailHdr.Valid n.numBoxes := by
  obtain ⟨hconsistent, hhands⟩ := Sender.step_consistent h.consistent hst
  have hlegal : ∀ m ∈ message, m.netAddr = a ∧ m.mailHdr.Valid n.numBoxes := by
    intro m hm
    have haccepted := hhands.accepted m hm
    have hbox := haccepted.box
    rw [haccepted.numBoxes, n.numBoxes_eq] at hbox
    exact ⟨haccepted.netAddr.trans (n.netAddr_eq a), hbox⟩
  refine ⟨⟨hconsistent, ?_, hhands.arrived.trans h.arrived, fun t m hm => ?_⟩, hlegal⟩
  · rw [hhands.handedOver, h.handedOver, sentBy, sentBy, List.filter_append]
    refine congrArg _ (List.filter_eq_self.mpr fun m hm => ?_).symm
    exact decide_eq_true (hlegal m (Option.mem_toList.mp hm)).1
  · rcases Sender.step_acquiring hst hm with hold | rfl
    · exact h.acquiring t m hold
    · exact hvalid

theorem sendToSocket_ok (h : n.sendToSocket s m = .ok s') : m.pktHdr.toAddr ∈ n.addresses ∧
    ∃ office, (n.sender m.pktHdr.toAddr).post.step (s.machine m.pktHdr.toAddr).office (.arrive m) =
      .ok office ∧
    s' = ⟨Function.update s.machine m.pktHdr.toAddr { s.machine m.pktHdr.toAddr with office },
      s.wire ++ [m]⟩ := by
  unfold sendToSocket at h
  dsimp only at h
  split_ifs at h with hto
  obtain ⟨office, hst, h⟩ := bind_ok_iff.mp h
  exact ⟨hto, office, hst, (pure_ok_iff.mp h).symm⟩

theorem step_ok {e : Event} (h : n.step s e = .ok s') : e.address ∈ n.addresses ∧
    ∃ message machine, (n.sender e.address).step (s.machine e.address) e.event =
      .ok (message, machine) ∧
    ((message = none ∧ s' = { s with machine := Function.update s.machine e.address machine }) ∨
      ∃ m, message = some m ∧
        n.sendToSocket { s with machine := Function.update s.machine e.address machine } m =
          .ok s') := by
  unfold step at h
  split_ifs at h with haddress
  obtain ⟨⟨message, machine⟩, hst, h⟩ := bind_ok_iff.mp h
  refine ⟨haddress, message, machine, hst, ?_⟩
  cases message with
  | none => exact .inl ⟨rfl, (pure_ok_iff.mp h).symm⟩
  | some m => exact .inr ⟨m, rfl, h⟩

/-- What has been handed over goes into the socket of the other machine. -/
theorem sendToSocket_consistent (hsend : n.sendToSocket s m = .ok s')
    (h : ∀ a ∈ n.addresses, n.Connected (s.wire ++ [m]) s.wire a (s.machine a))
    (hsenders : ∀ m ∈ s.wire, m.netAddr ∈ n.addresses) (hfrom : m.netAddr ∈ n.addresses)
    (hbox : m.mailHdr.Valid n.numBoxes) : n.Consistent s' := by
  obtain ⟨hto, office, hst, rfl⟩ := sendToSocket_ok hsend
  constructor
  · refine (Function.forall_update_iff s.machine fun a machine => a ∈ n.addresses →
      n.Connected (s.wire ++ [m]) (s.wire ++ [m]) a machine).mpr ⟨fun ha => ?_, fun a hne ha => ?_⟩
    · exact (h _ ha).arrive rfl hbox hst
    · exact (h a ha).put_other (Ne.symm hne)
  · intro m' hm'
    rcases List.mem_append.mp hm' with hm' | hm'
    · exact hsenders m' hm'
    · rw [List.mem_singleton.mp hm']
      exact hfrom

/-- Every step of a machine keeps the invariant of all. -/
theorem step_consistent {e : Event} (hs : n.Consistent s) (hvalid : Event.Valid n e)
    (h : n.step s e = .ok s') : n.Consistent s' := by
  obtain ⟨haddress, message, machine, hst, hcases⟩ := step_ok h
  obtain ⟨hconnected, hlegal⟩ := (hs.connected _ haddress).step hvalid hst
  rcases hcases with ⟨rfl, rfl⟩ | ⟨m, rfl, hsend⟩
  · rw [Option.toList_none, List.append_nil] at hconnected
    exact ⟨(Function.forall_update_iff s.machine fun a machine => a ∈ n.addresses →
      n.Connected s.wire s.wire a machine).mpr
        ⟨fun _ => hconnected, fun a _ ha => hs.connected a ha⟩, hs.senders⟩
  · obtain ⟨hfrom, hbox⟩ := hlegal m rfl
    refine sendToSocket_consistent hsend ?_ hs.senders (by rwa [hfrom]) hbox
    refine (Function.forall_update_iff s.machine fun a machine => a ∈ n.addresses →
      n.Connected (s.wire ++ [m]) s.wire a machine).mpr ⟨fun _ => hconnected, fun a hne ha => ?_⟩
    exact (hs.connected a ha).handOver_other (hfrom.trans_ne (Ne.symm hne))

/-! ## What the machines have of each other's messages -/

/-- What a machine has handed over for a mailbox of a machine. -/
def State.letters (s : State) (a b : BitVec 32) (box : ℕ) : List Message :=
  (s.machine a).handedOver.filter fun m => m.pktHdr.toAddr = b ∧ m.mailHdr.box = box

/-- The mail from a machine that has been put into a mailbox of a machine. -/
def State.mailFrom (s : State) (a b : BitVec 32) (box : ℕ) : List Mail :=
  ((s.machine b).office.takenFrom box ++ (s.machine b).office.messages box).filter
    fun mail => mail.pktHdr.fromAddr = a

theorem filter_filter_comm {α : Type} (l : List α) (p q r : α → Prop) [DecidablePred p]
    [DecidablePred q] [DecidablePred r] :
    (l.filter (p ·)).filter (fun x => q x ∧ r x) = ((l.filter (q ·)).filter (r ·)).filter (p ·) := by
  rw [List.filter_filter, List.filter_filter, List.filter_filter]
  refine List.filter_congr fun x _ => ?_
  rw [Bool.eq_iff_iff]
  simp only [Bool.and_eq_true, decide_eq_true_eq]
  tauto

/-- The mail from one machine for one mailbox are the messages that it has handed over, up to those
that are in no mailbox yet. -/
theorem Consistent.channel (hs : n.Consistent s) {b : BitVec 32} {box : ℕ} (ha : a ∈ n.addresses)
    (hb : b ∈ n.addresses) (hbox : box < n.numBoxes) :
    ∃ delivered rest, s.letters a b box = delivered ++ rest ∧
      List.Forall₂ Message.Delivers delivered (s.mailFrom a b box) ∧
      rest.length ≤ (s.machine b).office.undelivered (n.sender b).post := by
  have hoffice := (hs.connected b hb).consistent.office
  set k := (s.machine b).office.delivered.length with hk
  have hlength := hoffice.delivered.1
  rw [(hs.connected b hb).arrived] at hlength
  refine ⟨(((sentTo s.wire b).take k).filter fun m => m.mailHdr.box = box).filter
      fun m => m.netAddr = a, (((sentTo s.wire b).drop k).filter fun m => m.mailHdr.box = box).filter
      fun m => m.netAddr = a, ?_, ?_, ?_⟩
  · rw [← List.filter_append, ← List.filter_append, List.take_append_drop, State.letters,
      (hs.connected a ha).handedOver]
    exact filter_filter_comm _ _ _ _
  · -- what has been put into the mailbox has been taken out of it, or is in it
    rw [← n.numBoxes_eq b] at hbox
    obtain ⟨l, hv, hl⟩ := hoffice.mirrored box hbox
    have hfifo := hl.items.fifo
    rw [hv.appended, hv.removed, hv.list] at hfifo
    have hput := hoffice.putInto box
    rw [hfifo, (hs.connected b hb).arrived] at hput
    refine List.rel_filter (fun m mail hdelivers => ?_) hput
    have hfrom : mail.pktHdr.fromAddr = m.netAddr := by
      rw [hdelivers.pktHdr]
      rfl
    dsimp only
    rw [hfrom]
  · refine (List.length_filter_le _ _).trans ((List.length_filter_le _ _).trans ?_)
    rw [List.length_drop]
    omega

/-- What is in the second list has its counterpart in the first. -/
theorem exists_of_forall₂ {α β : Type} {R : α → β → Prop} {l : List α} {l' : List β} {b : β}
    (h : List.Forall₂ R l l') (hb : b ∈ l') : ∃ a ∈ l, R a b := by
  induction h with
  | nil => exact absurd hb List.not_mem_nil
  | @cons a b' l l' hab _ ih =>
    rcases List.mem_cons.mp hb with rfl | hb
    · exact ⟨a, List.mem_cons_self, hab⟩
    · obtain ⟨a', ha', hR⟩ := ih hb
      exact ⟨a', List.mem_cons_of_mem a ha', hR⟩

/-- What `Receive` returns is a message that has been put into the socket for this mailbox. -/
theorem Consistent.receipt (hs : n.Consistent s) (ha : a ∈ n.addresses) {r : PostOffice.Receipt}
    (hr : r ∈ (s.machine a).office.received) (hbox : r.box < n.numBoxes) :
    ∃ m ∈ s.wire, m.pktHdr.toAddr = a ∧ m.mailHdr.box = r.box ∧ m.Delivers r.mail := by
  have hoffice := (hs.connected a ha).consistent.office
  have hmem : r ∈ PostOffice.ofThread r.thread (s.machine a).office.received ++
      ((s.machine a).office.method r.thread).pending r.thread :=
    List.mem_append_left _ (List.mem_filter.mpr ⟨hr, decide_eq_true rfl⟩)
  obtain ⟨r', hr', hsame⟩ := exists_of_forall₂ (hoffice.returned r.thread).flip hmem
  -- it has been taken out of the mailbox, so it was put into it
  have hmail : r'.mail ∈ (s.machine a).office.takenFrom r.box := by
    refine List.mem_map.mpr ⟨r', List.mem_filter.mpr ⟨(List.mem_filter.mp hr').1, ?_⟩, rfl⟩
    exact decide_eq_true hsame.box.symm
  rw [← n.numBoxes_eq a] at hbox
  obtain ⟨l, hv, hl⟩ := hoffice.mirrored r.box hbox
  have hfifo := hl.items.fifo
  rw [hv.appended, hv.removed, hv.list] at hfifo
  have hput : r'.mail ∈ (s.machine a).office.putInto r.box := by
    rw [hfifo]
    exact List.mem_append_left _ hmail
  obtain ⟨m, hm, hdelivers⟩ := exists_of_forall₂ (hoffice.putInto r.box) hput
  obtain ⟨harrived, hmbox⟩ := List.mem_filter.mp hm
  have hwire := List.mem_of_mem_take harrived
  rw [(hs.connected a ha).arrived] at hwire
  obtain ⟨hwire, hto⟩ := List.mem_filter.mp hwire
  refine ⟨m, hwire, of_decide_eq_true hto, of_decide_eq_true hmbox, hsame.pktHdr.trans
    hdelivers.pktHdr, hsame.mailHdr.trans hdelivers.mailHdr, ?_⟩
  have hdata := hsame.data
  rw [hdelivers.mailHdr] at hdata
  exact hdata.trans hdelivers.data

/-- No assertion fails when a packet is put into the socket of a known machine. -/
theorem sendToSocket_asserts (hto : m.pktHdr.toAddr ∈ n.addresses) :
    Avoids .assertion (n.sendToSocket s m) := by
  unfold sendToSocket
  dsimp only
  rw [if_pos hto]
  refine .bind ?_ fun _ _ => .pure _ _
  rw [PostOffice.step]
  split
  · exact .error (by simp)
  · split
    · exact .ok _ _
    · exact .error (by simp)

/-- No assertion fails in `Send`, `PostalDelivery` or `Receive`. -/
theorem step_asserts (hs : (n.sender a).Consistent (s.machine a)) (ha : a ∈ n.addresses)
    (hto : ∀ t m, (s.machine a).method t = .acquire m → m.pktHdr.toAddr ∈ n.addresses)
    {ev : Sender.Event} (hev : ev.Legal n.numBoxes) : Avoids .assertion (n.step s ⟨a, ev⟩) := by
  rw [← n.numBoxes_eq a] at hev
  unfold step
  rw [if_pos ha]
  refine .bind (hs.step_asserts hev) fun r hst => ?_
  obtain ⟨message, machine⟩ := r
  cases message with
  | none => exact .pure _ _
  | some m =>
    obtain ⟨t, hacquire⟩ := Sender.step_message hst
    exact sendToSocket_asserts (hto t m hacquire)

/-- Machines under every schedule of each of them, if every message is for one of them.

What a thread has called `Send` for reaches the network in the order of the calls and each message
once, but for the one that the thread waits to send. One packet after the other is sent, and no call
returns before its own packet. The mail from one machine in a mailbox of another, taken out of it or
not, are the messages for it that the network has not lost, in the order in which they were handed
over and each once; only as many of the last ones are missing as have come to the other machine and
are in none of its mailboxes. What `Receive` has returned to a thread is the mail that it has taken,
but for the one it is about to return. No assertion fails if `Send` and `Receive` are called with
the arguments that they ask for. -/
theorem run_mail {es : List Event} (hboot : n.Booted s) (hvalid : ∀ e ∈ es, Event.Valid n e)
    (hrun : PartialRun.run n.step s es = .ok s') (ha : a ∈ n.addresses) :
    (∀ t, (s'.machine a).packetsOf t ++ ((s'.machine a).method t).pending =
      (s'.machine a).calledBy t) ∧
    (s'.machine a).pending.length ≤ 1 ∧
    (∀ number t, (number, t) ∈ (s'.machine a).returned → number ∈ (s'.machine a).completed ∧
      ∃ p, (s'.machine a).packets[number]? = some p ∧ p.thread = t) ∧
    (∀ b ∈ n.addresses, ∀ box < n.numBoxes, ∃ delivered rest,
      s'.letters a b box = delivered ++ rest ∧
      List.Forall₂ Message.Delivers delivered (s'.mailFrom a b box) ∧
      rest.length ≤ (s'.machine b).office.undelivered (n.sender b).post) ∧
    (∀ t, List.Forall₂ PostOffice.Receipt.Same
      (PostOffice.ofThread t (s'.machine a).office.received ++
        ((s'.machine a).office.method t).pending t)
      (PostOffice.ofThread t (s'.machine a).office.taken)) ∧
    (∀ ev : Sender.Event, ev.Legal n.numBoxes → n.step s' ⟨a, ev⟩ ≠ .error .assertion) ∧
    (s'.machine a).office.network.checkPktAvail ≠ .error .assertion := by
  have hs : n.Consistent s' := by
    have hkeep : ∀ t e t', n.Consistent t → Event.Valid n e → n.step t e = .ok t' →
        n.Consistent t' := fun _ _ _ ht he hst => step_consistent ht he hst
    exact Along.invariant hkeep hboot.consistent (Along.of_forall hvalid) hrun
  have hmachine := (hs.connected a ha).consistent
  have hto := (hs.connected a ha).acquiring
  exact ⟨hmachine.called, hmachine.serialised.1, hmachine.serialised.2,
    fun b hb box hbox => hs.channel ha hb hbox, hmachine.office.returned,
    fun _ hev => step_asserts hmachine ha hto hev, hmachine.office.poll_asserts⟩

end

/-- The machines `0` and `1`, with two mailboxes each. -/
def pair : Machines where
  addresses := {0, 1}
  sender a :=
    { post :=
        { netAddr := a
          numBoxes := 2
          messages := fun b => ⟨b + 1, b⟩
          messageAvailable := 0
          worker := 1
          lock_injective := fun _ _ h => Nat.succ.inj h
          listEmpty_injective := fun _ _ h => h }
      sendLock := 0
      messageSent := 1
      lock_ne := fun b => Nat.succ_ne_zero b
      semaphore_ne := Nat.zero_ne_one }
  numBoxes := 2
  netAddr_eq _ := rfl
  numBoxes_eq _ := rfl

/-- Both have just been booted. -/
def boot : State where
  machine a :=
    { office := { PostOffice.boot with network := ⟨a, [], ⟨0, 0, 0⟩, fun _ => 0⟩ }
      method := fun _ => .none
      called := []
      pending := []
      packets := []
      completed := []
      returned := [] }
  wire := []

theorem boot_booted : pair.Booted boot where
  machine _ _ :=
    ⟨⟨Kernel.boot_booted fun _ => 0, rfl, rfl, rfl, rfl, fun _ => rfl, fun _ => rfl, rfl, rfl, rfl,
      rfl⟩, rfl, fun _ => rfl, rfl, rfl, rfl, rfl, rfl⟩
  wire := rfl

/-- Machine `0` sends a letter to mailbox `1` of machine `1`, where it is received. -/
def pairRun : List Event :=
  [.office (.kernel (.call (.fork 1))), .office (.kernel .exec), .office (.kernel .exec),
    .office (.kernel .exec), .office (.kernel (.tick []))].map (Event.mk 1) ++
  -- thread `0` hands its packet over, and sleeps until it has been sent
  [.send (PostOffice.letter 9), .office (.kernel .exec), .office (.kernel .exec),
    .office (.kernel .exec), .office (.kernel (.tick [])), .office (.kernel .exec), .proceed false,
    .office (.kernel .exec), .office (.kernel .exec),
    .office (.kernel (.idle [.v 1]))].map (Event.mk 0) ++
  [.kernel (.call .yield), .kernel .exec, .kernel .exec, .kernel .exec, .kernel (.tick [.v 0]),
    .postalDelivery, .kernel .exec, .kernel .exec, .kernel .exec, .kernel (.tick []), .proceed,
    .kernel .exec, .kernel .exec, .kernel .exec, .kernel (.tick []), .kernel .exec, .proceed,
    .kernel .exec, .kernel .exec, .kernel .exec, .kernel (.tick []), .proceed, .kernel .exec,
    .kernel .exec, .kernel .exec, .kernel (.tick []), .kernel .exec, .proceed, .kernel .exec,
    .kernel .exec, .kernel .exec, .kernel .exec, .kernel (.tick []), .receive 1 fun _ => 0,
    .kernel .exec, .kernel .exec, .kernel .exec, .kernel (.tick []), .kernel .exec, .proceed,
    .kernel .exec, .kernel .exec, .kernel .exec, .kernel (.tick []), .kernel .exec,
    .proceed].map (fun ev => ⟨1, .office ev⟩) ++
  [.office (.kernel .exec), .office (.kernel .exec), .office (.kernel .exec),
    .office (.kernel (.tick [])), .proceed false, .office (.kernel .exec), .office (.kernel .exec),
    .office (.kernel .exec), .office (.kernel (.tick [])), .office (.kernel .exec),
    .proceed false].map (Event.mk 0)

/-- The letter has been received, and its `Send` has returned. -/
theorem pairRun_mail : ∃ s, PartialRun.run pair.step boot pairRun = .ok s ∧
    (s.machine 1).office.received.map (fun r => (r.thread, r.box, r.mail.data 0)) = [(0, 1, 9)] ∧
    (s.machine 0).returned = [(0, 0)] ∧ 0 ∈ (s.machine 0).completed ∧
    ∃ delivered rest, s.letters 0 1 1 = delivered ++ rest ∧
      List.Forall₂ Message.Delivers delivered (s.mailFrom 0 1 1) ∧
      rest.length ≤ (s.machine 1).office.undelivered (pair.sender 1).post := by
  obtain ⟨s, hrun, hreceived, hreturned⟩ : ∃ s, PartialRun.run pair.step boot pairRun = .ok s ∧
      (s.machine 1).office.received.map (fun r => (r.thread, r.box, r.mail.data 0)) =
        [(0, 1, 9)] ∧
      (s.machine 0).returned = [(0, 0)] := by
    decide +kernel
  obtain ⟨-, -, hown, hmail, -⟩ := run_mail (a := 0) boot_booted (by decide +kernel) hrun
    (by decide)
  refine ⟨s, hrun, hreceived, hreturned, ?_, hmail 1 (by decide) 1 (by decide)⟩
  refine (hown 0 0 ?_).1
  rw [hreturned]
  exact List.mem_singleton_self _

end Machines
end NachOS
