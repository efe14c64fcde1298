import NachOS.Machine.DiskLatency
import NachOS.Machine.Interrupt
import NachOS.Network.Packets

/-!
# Devices and their interrupts

The hardware on top of the simulation of interrupts: the timer (`timer.cc`), the console
(`console.cc`), the network (`network.cc`) and the disk (`disk.cc`), as far as they schedule
interrupts, and `Interrupt::Idle`. A device that polls has one interrupt pending at all times, and a
device that was given something to do has one until it is done.

What the devices read and write, and what the kernel's handlers change, is up to the surroundings.
-/

namespace NachOS

open PartialRun

/-- `ConsoleTime` of `stats.h`. -/
def consoleTime : ℤ := 100

/-- `NetworkTime`. -/
def networkTime : ℤ := 100

/-- `TimerTicks`. -/
def timerTicks : ℤ := 100

theorem consoleTime_eq : consoleTime = 100 := rfl
theorem networkTime_eq : networkTime = 100 := rfl
theorem timerTicks_eq : timerTicks = 100 := rfl

/-- The functions that the devices give to `Schedule`. -/
inductive DeviceHandler where
  | timerHandler
  | consoleReadPoll
  | consoleWriteDone
  | diskDone
  | networkReadPoll
  | networkSendDone
deriving DecidableEq, Repr

/-- The type that goes with the function. -/
def DeviceHandler.intType : DeviceHandler → IntType
  | .timerHandler => .timerInt
  | .consoleReadPoll => .consoleReadInt
  | .consoleWriteDone => .consoleWriteInt
  | .diskDone => .diskInt
  | .networkReadPoll => .networkRecvInt
  | .networkSendDone => .networkSendInt

/-- The assertion on a packet that comes in. -/
def PacketHeader.Received (inHdr : PacketHeader) (ident : BitVec 32) : Prop :=
  inHdr.toAddr = ident ∧ inHdr.length.toNat ≤ maxPacketSize

/-- The assertion on a packet that is sent: `sendBusy` is `false` at all times. -/
def PacketHeader.Sendable (hdr : PacketHeader) (ident : BitVec 32) : Prop :=
  0 < hdr.length.toNat ∧ hdr.length.toNat ≤ maxPacketSize ∧ hdr.fromAddr = ident

instance (inHdr : PacketHeader) (ident : BitVec 32) : Decidable (inHdr.Received ident) :=
  inferInstanceAs (Decidable (_ ∧ _))

instance (hdr : PacketHeader) (ident : BitVec 32) : Decidable (hdr.Sendable ident) :=
  inferInstanceAs (Decidable (_ ∧ _ ∧ _))

/-- What the code outside of the devices does: the numbers that `Random` returns, whether a poll
finds something and calls `readHandler`, and what the handlers of the kernel and
`machine->DelayedLoad` change. -/
structure Surroundings (R : Type) where
  /-- The address of the machine. -/
  netAddr : BitVec 32
  random : R → ℕ × R
  checkCharAvail : R → Bool × R
  /-- The header of the packet that is taken from the socket. -/
  checkPktAvail : R → Option PacketHeader × R
  /-- `Random`, and `SendToSocket` unless the packet gets lost. -/
  sendToSocket : PacketHeader → R → R
  handled : IntType → R → R
  delayedLoad : R → R
  /-- Packets were let through by `Network::Send`, and put into the socket that is named there. -/
  received : ∀ r inHdr, (checkPktAvail r).1 = some inHdr → inHdr.Received netAddr

/-- The devices. `sends` only counts the calls of `Network::Send`: nothing reads it. -/
structure Devices (R : Type) where
  /-- `randomize` of the timer, if there is one. -/
  timer : Option Bool
  console : Bool
  network : Bool
  putBusy : Bool
  active : Bool
  lastSector : ℤ
  bufferInit : ℤ
  sends : ℕ
  numPacketsSent : ℕ
  rest : R

/-- The simulation of the hardware. -/
abbrev Simulation (R : Type) := Interrupt DeviceHandler Unit (Devices R)

namespace Devices

variable {R : Type}

/-- `Timer::TimeOfNextInterrupt`. -/
def timeOfNextInterrupt (env : Surroundings R) (w : Devices R) : ℤ × Devices R :=
  if w.timer = some true then
    let drawn := env.random w.rest
    (1 + (drawn.1 : ℤ) % (timerTicks * 2), { w with rest := drawn.2 })
  else (timerTicks, w)

/-- What `Semaphore::V` calls in a handler, where interrupts are off already. -/
def semaphoreV : List (HandlerCall DeviceHandler Unit) := [.setLevel .intOff, .setLevel .intOff]

/-- The handlers of the devices, each with that of the kernel it calls. -/
def call (env : Surroundings R) (w : Devices R) :
    DeviceHandler → Devices R × List (HandlerCall DeviceHandler Unit)
  | .timerHandler =>
    -- the next interrupt of the timer is scheduled first
    let next := w.timeOfNextInterrupt env
    (next.2, [.schedule .timerHandler () next.1 .timerInt, .yieldOnReturn])
  | .consoleReadPoll =>
    -- the next poll comes whether or not there is a character
    let found := env.checkCharAvail w.rest
    ({ w with rest := if found.1 then env.handled .consoleReadInt found.2 else found.2 },
      .schedule .consoleReadPoll () consoleTime .consoleReadInt ::
        if found.1 then semaphoreV else [])
  | .consoleWriteDone =>
    ({ w with putBusy := false, rest := env.handled .consoleWriteInt w.rest }, semaphoreV)
  | .diskDone => ({ w with active := false, rest := env.handled .diskInt w.rest }, semaphoreV)
  | .networkReadPoll =>
    let found := env.checkPktAvail w.rest
    ({ w with rest := if found.1.isSome then env.handled .networkRecvInt found.2 else found.2 },
      .schedule .networkReadPoll () networkTime .networkRecvInt ::
        match found.1 with
        | some inHdr => .assert (inHdr.Received env.netAddr) :: semaphoreV
        | none => [])
  | .networkSendDone =>
    ({ w with
      numPacketsSent := w.numPacketsSent + 1
      rest := env.handled .networkSendInt w.rest }, semaphoreV)

def code (env : Surroundings R) : HandlerCode DeviceHandler Unit (Devices R) where
  call handler _ _ w := w.call env handler
  delayedLoad w := { w with rest := env.delayedLoad w.rest }

/-! ## What the kernel does -/

/-- Enough rounds for all pending interrupts. -/
def rounds (s : Simulation R) : ℕ := s.scheduled.length + 1

/-- `OneTick`, up to the `Yield` that it may perform. -/
def tick (env : Surroundings R) (s : Simulation R) : Except Fault (Simulation R) := do
  let (_, s) ← s.oneTick (code env) (rounds s)
  return s

/-- `Interrupt::Idle`. If it calls `Halt` the machine stays in idle mode. -/
def idle (env : Surroundings R) (s : Simulation R) : Except Fault (Simulation R) := do
  let (fired, s) ← Interrupt.checkIfDue (code env) { s with status := .idleMode } true
  if fired then
    let s ← Interrupt.checkLoop (code env) (rounds s) s
    return { s with yieldOnReturn := false, status := .systemMode }
  else return s

/-- The devices are made, used and waited for; `Yield` and everything else that the kernel does
between is nothing to them but changes of the interrupt level and of the mode. -/
inductive Event where
  | newTimer (doRandom : Bool)
  | newConsole
  | newNetwork
  /-- An instruction of a user program. -/
  | instruction
  | setLevel (now : IntStatus)
  | setStatus (st : MachineStatus)
  | putChar
  /-- `Disk::ReadRequest` or `Disk::WriteRequest`. -/
  | request (newSector : ℤ) (writing : Bool)
  /-- `Network::Send`. -/
  | send (hdr : PacketHeader)
  | idle

instance (sector : ℤ) : Decidable (DiskHead.IsSector sector) :=
  inferInstanceAs (Decidable (_ ∧ _))

/-- `Disk::ReadRequest` and `Disk::WriteRequest`. -/
def request (s : Simulation R) (newSector : ℤ) (writing : Bool) : Except Fault (Simulation R) :=
  let head : DiskHead := ⟨s.world.lastSector, s.world.bufferInit, s.stats.totalTicks⟩
  let ticks := head.computeLatency newSector writing
  if s.world.active then .error .assertion
  else if ¬ DiskHead.IsSector newSector then .error .assertion
  else
    -- `UpdateLast`: the buffer starts at the first sector that comes by on the new track
    let (seek, rotate) := head.timeToSeek newSector
    let bufferInit :=
      if seek ≠ 0 then toInt (toInt (s.stats.totalTicks + seek) + rotate) else s.world.bufferInit
    Interrupt.schedule { s with world := { s.world with
      active := true
      bufferInit := bufferInit
      lastSector := newSector } } .diskDone () ticks .diskInt

def step (env : Surroundings R) (s : Simulation R) : Event → Except Fault (Simulation R)
  | .newTimer doRandom =>
    let next := { s.world with timer := some doRandom }.timeOfNextInterrupt env
    Interrupt.schedule { s with world := next.2 } .timerHandler () next.1 .timerInt
  | .newConsole =>
    Interrupt.schedule { s with world := { s.world with console := true, putBusy := false } }
      .consoleReadPoll () consoleTime .consoleReadInt
  | .newNetwork =>
    Interrupt.schedule { s with world := { s.world with network := true } }
      .networkReadPoll () networkTime .networkRecvInt
  | .instruction => tick env s
  -- `OneTick` when interrupts are switched on again
  | .setLevel now => do
    let changed ← s.setLevel now
    if now = .intOn ∧ s.level = .intOff then tick env changed else return changed
  | .setStatus st => return { s with status := st }
  | .putChar =>
    -- one character at a time
    if s.world.putBusy then .error .assertion
    else Interrupt.schedule { s with world := { s.world with putBusy := true } }
      .consoleWriteDone () consoleTime .consoleWriteInt
  | .request newSector writing => request s newSector writing
  | .send hdr =>
    if hdr.Sendable env.netAddr then
      Interrupt.schedule { s with world := { s.world with
        sends := s.world.sends + 1
        rest := env.sendToSocket hdr s.world.rest } } .networkSendDone () networkTime .networkSendInt
    else .error .assertion
  | .idle => idle env s

/-- `Initialize`, before the devices are made. -/
def boot (rest : R) : Simulation R where
  level := .intOff
  pending := .empty
  inHandler := false
  yieldOnReturn := false
  status := .systemMode
  stats := ⟨0, 0, 0, 0⟩
  world := ⟨none, false, false, false, false, 0, 0, 0, 0, rest⟩
  scheduled := []
  invoked := []
  levels := []

/-- The machine has not halted, its clock is not about to wrap around, no device is made twice, a
character or a request is given to a device that is not busy, a packet has the header that
`Network::Send` asks for, and the kernel idles with interrupts off. -/
def Proper (env : Surroundings R) (s : Simulation R) (e : Event) : Prop :=
  s.status ≠ .idleMode ∧ s.stats.totalTicks < 2 ^ 30 ∧
    match e with
    | .newTimer _ => s.world.timer = none
    | .newConsole => s.world.console = false
    | .newNetwork => s.world.network = false
    | .instruction => s.level = .intOn ∧ s.status = .userMode
    | .setLevel _ => True
    | .setStatus st => st ≠ .idleMode
    | .putChar => s.world.console = true ∧ s.world.putBusy = false
    | .request newSector _ => DiskHead.IsSector newSector ∧ s.world.active = false
    | .send hdr => s.world.network = true ∧ hdr.Sendable env.netAddr
    | .idle => s.level = .intOff

end Devices

/-! ## What handlers put on the list -/

namespace Interrupt

variable {H A W : Type} {s s' : Interrupt H A W} {p : PendingInterrupt H A}
  {ps new : List (PendingInterrupt H A)}

/-- The interrupts that calls schedule at a time. -/
def schedules (now : ℤ) (calls : List (HandlerCall H A)) : List (PendingInterrupt H A) :=
  calls.filterMap fun call => match call with
    | .schedule handler arg fromNow type => some ⟨handler, arg, toInt (now + fromNow), type⟩
    | .setLevel _ => none
    | .yieldOnReturn => none
    | .assert _ => none

/-- What the calls of a handler leave. -/
structure Performed (s s' : Interrupt H A W) (new : List (PendingInterrupt H A)) : Prop where
  world : s'.world = s.world
  scheduled : s'.scheduled = s.scheduled ++ new
  totalTicks : s'.stats.totalTicks = s.stats.totalTicks

/-- A call out of a handler adds what it schedules, and changes nothing else. -/
theorem perform_performed {call : HandlerCall H A} (hcall : s.perform call = .ok s') :
    Performed s s' (schedules s.stats.totalTicks [call]) := by
  cases call with
  | schedule handler arg fromNow type =>
    rw [perform, schedule] at hcall
    split at hcall
    · cases hcall
    obtain ⟨pending, -, hcall⟩ := bind_ok_iff.mp hcall
    rw [pure_ok_iff] at hcall
    subst hcall
    exact ⟨rfl, rfl, rfl⟩
  | setLevel now =>
    rw [perform, setLevel] at hcall
    split at hcall
    · rw [Except.ok.injEq] at hcall
      subst hcall
      exact ⟨rfl, (List.append_nil _).symm, rfl⟩
    · cases hcall
  | yieldOnReturn =>
    rw [perform, Except.ok.injEq] at hcall
    subst hcall
    exact ⟨rfl, (List.append_nil _).symm, rfl⟩
  | assert condition =>
    rw [perform] at hcall
    split at hcall
    · rw [Except.ok.injEq] at hcall
      subst hcall
      exact ⟨rfl, (List.append_nil _).symm, rfl⟩
    · cases hcall

/-- So do all of them together. -/
theorem run_performed {calls : List (HandlerCall H A)} : ∀ {s : Interrupt H A W},
    run perform s calls = .ok s' → Performed s s' (schedules s.stats.totalTicks calls) := by
  induction calls with
  | nil =>
    intro s hrun
    rw [run_nil, Except.ok.injEq] at hrun
    subst hrun
    exact ⟨rfl, (List.append_nil _).symm, rfl⟩
  | cons call calls ih =>
    intro s hrun
    obtain ⟨s₁, hcall, hrun⟩ := run_cons_eq_ok.mp hrun
    have hfirst := perform_performed hcall
    have hrest := ih hrun
    refine ⟨hrest.world.trans hfirst.world, ?_, hrest.totalTicks.trans hfirst.totalTicks⟩
    rw [hrest.scheduled, hfirst.scheduled, hfirst.totalTicks, List.append_assoc, schedules,
      schedules, ← List.filterMap_append]
    rfl

/-- A handler that is called changes the devices and schedules what it says it does. -/
theorem fire_performed {code : HandlerCode H A W} {when : ℤ}
    (hfire : s.fire code p when = .ok (true, s')) :
    s'.world = (code.call p.handler p.arg s.stats.totalTicks (code.delayedLoad s.world)).1 ∧
    s'.scheduled = s.scheduled ++ schedules s.stats.totalTicks
      (code.call p.handler p.arg s.stats.totalTicks (code.delayedLoad s.world)).2 ∧
    s'.inHandler = false := by
  unfold fire at hfire
  split at hfire
  · obtain ⟨pending, -, hfire⟩ := bind_ok_iff.mp hfire
    cases hfire
  · obtain ⟨after, hcall, hfire⟩ := bind_ok_iff.mp hfire
    rw [pure_ok_iff, Prod.mk.injEq] at hfire
    rw [← hfire.2]
    have hperformed := run_performed hcall
    exact ⟨hperformed.world, hperformed.scheduled, rfl⟩

/-- In idle mode a handler is called as in the other modes, unless the timer is all there is. -/
theorem fire_idle {code : HandlerCode H A W} {when : ℤ}
    (hmore : ¬ (s.status = .idleMode ∧ p.type = .timerInt ∧ s.pending.isEmpty))
    (hfire : fire code { s with status := .systemMode } p when = .ok (true, s')) :
    s.fire code p when = .ok (true, { s' with status := s.status }) := by
  unfold fire at hfire ⊢
  rw [if_neg hmore]
  rw [if_neg (fun hand => by cases hand.1)] at hfire
  obtain ⟨after, hcall, hfire⟩ := bind_ok_iff.mp hfire
  rw [pure_ok_iff, Prod.mk.injEq] at hfire
  refine bind_ok_iff.mpr ⟨after, hcall, ?_⟩
  rw [← hfire.2]
  rfl

theorem Holds.isEmpty_iff {l : NachosList (Option (PendingInterrupt H A))} (h : Holds l ps) :
    l.isEmpty = true ↔ ps = [] := by
  obtain ⟨cells, hchain, hentries⟩ := h
  have hleads := hchain.leads
  rw [NachosList.isEmpty, Option.isNone_iff_eq_none]
  cases cells with
  | nil =>
    have hnil : ps = [] := List.map_eq_nil_iff.mp hentries.symm
    simp only [hnil, iff_true]
    exact hleads
  | cons cell cells =>
    have hne : ps ≠ [] := by
      intro hnil
      rw [hnil] at hentries
      cases hentries
    simp only [hne, iff_false, hleads.1]
    exact Option.some_ne_none _

end Interrupt

/-! ## What a device has pending -/

namespace Devices

open Interrupt

variable {R : Type} {env : Surroundings R} {s s' : Simulation R} {w w' : Devices R} {now : ℤ}
  {p : PendingInterrupt DeviceHandler Unit} {ps ps' : List (PendingInterrupt DeviceHandler Unit)}

/-- How many interrupts with this handler are on the list. -/
def waiting (ps : List (PendingInterrupt DeviceHandler Unit)) (h : DeviceHandler) : ℕ :=
  ps.countP fun p => p.handler = h

/-- How many there are for a device: one for a device that polls or is busy, and one for each packet
that is on its way. -/
def owed (w : Devices R) : DeviceHandler → ℕ
  | .timerHandler => if w.timer.isSome then 1 else 0
  | .consoleReadPoll => w.console.toNat
  | .consoleWriteDone => w.putBusy.toNat
  | .diskDone => w.active.toNat
  | .networkReadPoll => w.network.toNat
  | .networkSendDone => w.sends - w.numPacketsSent

/-- How long it takes at most until the interrupt occurs. -/
def period (w : Devices R) : DeviceHandler → ℤ
  | .timerHandler => if w.timer = some true then timerTicks * 2 else timerTicks
  | .consoleReadPoll => consoleTime
  | .consoleWriteDone => consoleTime
  | .diskDone => 32000
  | .networkReadPoll => networkTime
  | .networkSendDone => networkTime

/-- Every device comes back after at least one tick, and at most a random period of the timer. -/
theorem period_bounds (w : Devices R) (h : DeviceHandler) :
    0 < period w h ∧ period w h ≤ 32000 := by
  have hhundred : (0 : ℤ) < 100 ∧ (100 : ℤ) ≤ 32000 := by omega
  cases h with
  | timerHandler =>
    rw [period, timerTicks_eq]
    split
    · omega
    · omega
  | consoleReadPoll => exact hhundred
  | consoleWriteDone => exact hhundred
  | diskDone =>
    show (0 : ℤ) < 32000 ∧ (32000 : ℤ) ≤ 32000
    omega
  | networkReadPoll => exact hhundred
  | networkSendDone => exact hhundred

/-- The interrupts a device waits for are counted one by one. -/
theorem waiting_cons (p : PendingInterrupt DeviceHandler Unit)
    (ps : List (PendingInterrupt DeviceHandler Unit)) (h : DeviceHandler) :
    waiting (p :: ps) h = waiting ps h + if p.handler = h then 1 else 0 := by
  simp only [waiting, List.countP_cons, decide_eq_true_eq]

theorem waiting_append (ps ps' : List (PendingInterrupt DeviceHandler Unit)) (h : DeviceHandler) :
    waiting (ps ++ ps') h = waiting ps h + waiting ps' h := List.countP_append

/-- The order of the queue does not matter to the count. -/
theorem waiting_perm (hperm : ps.Perm ps') (h : DeviceHandler) : waiting ps h = waiting ps' h :=
  hperm.countP_eq _

/-- The interrupts on the list are those of the devices, none of them later than its device
permits. -/
structure Owing (w : Devices R) (now : ℤ) (ps : List (PendingInterrupt DeviceHandler Unit)) :
    Prop where
  waiting_eq : ∀ h, waiting ps h = owed w h
  types : ∀ p ∈ ps, p.type = p.handler.intType
  soon : ∀ p ∈ ps, p.when ≤ now + period w p.handler
  sent : w.numPacketsSent ≤ w.sends
  busy : w.putBusy = true → w.console = true
  bufferInit : 0 ≤ w.bufferInit
  lastSector : DiskHead.IsSector w.lastSector

/-- Nor to what the devices are owed. -/
theorem Owing.perm (h : Owing w now ps) (hperm : ps'.Perm ps) : Owing w now ps' where
  waiting_eq := fun k => (waiting_perm hperm k).trans (h.waiting_eq k)
  types := fun p hp => h.types p (hperm.mem_iff.mp hp)
  soon := fun p hp => h.soon p (hperm.mem_iff.mp hp)
  sent := h.sent
  busy := h.busy
  bufferInit := h.bufferInit
  lastSector := h.lastSector

/-- Time passes. -/
theorem Owing.advance (h : Owing w now ps) {now' : ℤ} (hle : now ≤ now') : Owing w now' ps := by
  refine { h with soon := fun p hp => ?_ }
  have hsoon := h.soon p hp
  omega

/-! ## Handlers -/

/-- What the handler of a device changes, with the interrupts it schedules. -/
structure Called (w w' : Devices R) (now : ℤ) (h : DeviceHandler)
    (new : List (PendingInterrupt DeviceHandler Unit)) : Prop where
  owed_eq : ∀ k, owed w' k + (if h = k then 1 else 0) = owed w k + waiting new k
  period_eq : ∀ k, period w' k = period w k
  types : ∀ p ∈ new, p.type = p.handler.intType
  later : ∀ p ∈ new, now < p.when
  soon : ∀ p ∈ new, p.when ≤ now + period w p.handler
  sent : w'.numPacketsSent ≤ w'.sends
  busy : w'.putBusy = true → w.putBusy = true
  console : w'.console = w.console
  head : w'.bufferInit = w.bufferInit ∧ w'.lastSector = w.lastSector

/-- `TimeOfNextInterrupt` stays within the timer's period. -/
theorem timeOfNextInterrupt_bounds (env : Surroundings R) (w : Devices R) :
    0 < (w.timeOfNextInterrupt env).1 ∧
      (w.timeOfNextInterrupt env).1 ≤ period w .timerHandler := by
  unfold timeOfNextInterrupt period
  rw [timerTicks_eq]
  split
  · dsimp only
    omega
  · dsimp only
    omega

/-- The time of an interrupt does not overflow within the bound on the clock. -/
theorem toInt_schedule {fromNow : ℤ} (hmin : 0 ≤ now) (hmax : now < 2 ^ 30 + 2 ^ 20)
    (hpos : 0 < fromNow) (hle : fromNow ≤ 32000) : toInt (now + fromNow) = now + fromNow := by
  unfold toInt
  omega

/-- Handlers schedule interrupts for later, and enable none. -/
theorem call_allowed (hmax : now < 2 ^ 30 + 2 ^ 20) (h : DeviceHandler) (w : Devices R) :
    ∀ call ∈ (w.call env h).2, HandlerCall.Allowed now call := by
  have hv : ∀ call ∈ semaphoreV, HandlerCall.Allowed now call := by
    intro call hcall
    simp only [semaphoreV, List.mem_cons, List.not_mem_nil, or_false, or_self] at hcall
    rw [hcall]
    rfl
  have hpoll : ∀ handler type (calls : List (HandlerCall DeviceHandler Unit)),
      (∀ call ∈ calls, HandlerCall.Allowed now call) →
      ∀ call ∈ .schedule handler () 100 type :: calls, HandlerCall.Allowed now call := by
    intro handler type calls hcalls call hcall
    rcases List.mem_cons.mp hcall with rfl | hcall
    · exact ⟨by decide, by omega⟩
    · exact hcalls call hcall
  cases h with
  | timerHandler =>
    have hbounds := timeOfNextInterrupt_bounds env w
    have hperiod := period_bounds w .timerHandler
    intro call hcall
    simp only [Devices.call, List.mem_cons, List.not_mem_nil, or_false] at hcall
    rcases hcall with rfl | rfl
    · exact ⟨hbounds.1, by omega⟩
    · trivial
  | consoleReadPoll =>
    refine hpoll _ _ _ fun call hcall => ?_
    split at hcall
    · exact hv call hcall
    · cases hcall
  | consoleWriteDone => exact hv
  | diskDone => exact hv
  | networkReadPoll =>
    refine hpoll _ _ _ fun call hcall => ?_
    split at hcall
    case h_1 inHdr hfound =>
      -- the packet that was polled is one for this machine
      rcases List.mem_cons.mp hcall with rfl | hcall
      · exact decide_eq_true (env.received w.rest inHdr hfound)
      · exact hv call hcall
    case h_2 => cases hcall
  | networkSendDone => exact hv

/-- A poll schedules the next one, whatever it finds. -/
theorem schedules_poll (handler : DeviceHandler) (type : IntType)
    {calls : List (HandlerCall DeviceHandler Unit)} (hcalls : schedules now calls = []) :
    schedules now (.schedule handler () 100 type :: calls) =
      [⟨handler, (), toInt (now + 100), type⟩] := by
  show _ :: schedules now calls = _
  rw [hcalls]

/-- A handler that schedules itself again. -/
theorem Called.again (hsent : w.numPacketsSent ≤ w.sends) (rest : R) {h : DeviceHandler}
    {fromNow : ℤ} (hmin : 0 ≤ now) (hmax : now < 2 ^ 30 + 2 ^ 20) (hpos : 0 < fromNow)
    (hle : fromNow ≤ period w h) :
    Called w { w with rest := rest } now h [⟨h, (), toInt (now + fromNow), h.intType⟩] := by
  have hperiod := period_bounds w h
  rw [toInt_schedule hmin hmax hpos (by omega)]
  refine ⟨fun k => ?_, fun k => rfl, ?_, ?_, ?_, hsent, id, rfl, rfl, rfl⟩
  · rw [waiting_cons]
    show owed w k + _ = owed w k + (0 + _)
    rw [Nat.zero_add]
  · exact fun p hp => by rw [List.mem_singleton.mp hp]
  · intro p hp
    rw [List.mem_singleton.mp hp]
    dsimp only
    omega
  · intro p hp
    rw [List.mem_singleton.mp hp]
    dsimp only
    omega

/-- A handler of a device that is done. -/
theorem Called.done {h : DeviceHandler}
    (howed : ∀ k, owed w' k + (if h = k then 1 else 0) = owed w k)
    (hsent : w'.numPacketsSent ≤ w'.sends) (htimer : w'.timer = w.timer)
    (hbusy : w'.putBusy = true → w.putBusy = true) (hconsole : w'.console = w.console)
    (hhead : w'.bufferInit = w.bufferInit ∧ w'.lastSector = w.lastSector) :
    Called w w' now h [] := by
  refine ⟨fun k => (howed k).trans (Nat.add_zero _).symm, fun k => ?_, ?_, ?_, ?_, hsent, hbusy,
    hconsole, hhead⟩
  · cases k with
    | timerHandler => rw [period, period, htimer]
    | consoleReadPoll => rfl
    | consoleWriteDone => rfl
    | diskDone => rfl
    | networkReadPoll => rfl
    | networkSendDone => rfl
  · exact fun p hp => absurd hp List.not_mem_nil
  · exact fun p hp => absurd hp List.not_mem_nil
  · exact fun p hp => absurd hp List.not_mem_nil

/-- A handler that is called was owed its interrupt, and schedules the next one that its device
owes. -/
theorem call_called (env : Surroundings R) (w : Devices R) {h : DeviceHandler}
    (howed : 0 < owed w h) (hsent : w.numPacketsSent ≤ w.sends) (hmin : 0 ≤ now)
    (hmax : now < 2 ^ 30 + 2 ^ 20) :
    Called w (w.call env h).1 now h (schedules now (w.call env h).2) := by
  cases h with
  | timerHandler =>
    -- the timer schedules itself again before it calls its handler
    have hbounds := timeOfNextInterrupt_bounds env w
    have hrest : (w.timeOfNextInterrupt env).2 =
        { w with rest := (w.timeOfNextInterrupt env).2.rest } := by
      unfold timeOfNextInterrupt
      split
      · rfl
      · rfl
    have hagain :=
      Called.again hsent (w.timeOfNextInterrupt env).2.rest hmin hmax hbounds.1 hbounds.2
    rw [← hrest] at hagain
    exact hagain
  | consoleReadPoll =>
    have hcalls : schedules now (if (env.checkCharAvail w.rest).1 then semaphoreV else []) = [] := by
      split
      · rfl
      · rfl
    rw [call, consoleTime_eq, schedules_poll _ _ hcalls]
    exact Called.again hsent _ hmin hmax (by omega) (Int.le_refl 100)
  | consoleWriteDone =>
    -- the display owes an interrupt only while it is busy
    have hbusy : w.putBusy = true := by
      by_contra hfree
      rw [Bool.not_eq_true] at hfree
      rw [owed, hfree] at howed
      cases howed
    refine Called.done (fun k => ?_) hsent rfl (fun hfalse => absurd hfalse Bool.false_ne_true) rfl
      ⟨rfl, rfl⟩
    cases k with
    | timerHandler => rfl
    | consoleReadPoll => rfl
    | consoleWriteDone =>
      show 0 + 1 = w.putBusy.toNat
      rw [hbusy]
      rfl
    | diskDone => rfl
    | networkReadPoll => rfl
    | networkSendDone => rfl
  | diskDone =>
    -- and the disk only while it is active
    have hactive : w.active = true := by
      by_contra hfree
      rw [Bool.not_eq_true] at hfree
      rw [owed, hfree] at howed
      cases howed
    refine Called.done (fun k => ?_) hsent rfl id rfl ⟨rfl, rfl⟩
    cases k with
    | timerHandler => rfl
    | consoleReadPoll => rfl
    | consoleWriteDone => rfl
    | diskDone =>
      show 0 + 1 = w.active.toNat
      rw [hactive]
      rfl
    | networkReadPoll => rfl
    | networkSendDone => rfl
  | networkReadPoll =>
    rw [call, networkTime_eq, schedules_poll]
    · exact Called.again hsent _ hmin hmax (by omega) (Int.le_refl 100)
    · split
      · rfl
      · rfl
  | networkSendDone =>
    rw [owed] at howed
    refine Called.done (fun k => ?_) (by dsimp only [call]; omega) rfl id rfl ⟨rfl, rfl⟩
    cases k with
    | timerHandler => rfl
    | consoleReadPoll => rfl
    | consoleWriteDone => rfl
    | diskDone => rfl
    | networkReadPoll => rfl
    | networkSendDone =>
      show w.sends - (w.numPacketsSent + 1) + 1 = w.sends - w.numPacketsSent
      omega

/-- The interrupt that is taken from the list and those that its handler puts there. -/
theorem Owing.called {new : List (PendingInterrupt DeviceHandler Unit)}
    (h : Owing w now (p :: ps)) (hcalled : Called w w' now p.handler new) :
    Owing w' now (ps ++ new) where
  waiting_eq := by
    intro k
    have hwaiting := h.waiting_eq k
    have howed := hcalled.owed_eq k
    rw [waiting_cons] at hwaiting
    rw [waiting_append]
    omega
  types := by
    intro q hq
    rcases List.mem_append.mp hq with hq | hq
    · exact h.types q (.tail _ hq)
    · exact hcalled.types q hq
  soon := by
    intro q hq
    rw [hcalled.period_eq]
    rcases List.mem_append.mp hq with hq | hq
    · exact h.soon q (.tail _ hq)
    · exact hcalled.soon q hq
  sent := hcalled.sent
  busy := fun hbusy => hcalled.console.trans (h.busy (hcalled.busy hbusy))
  bufferInit := by
    rw [hcalled.head.1]
    exact h.bufferInit
  lastSector := by
    rw [hcalled.head.2]
    exact h.lastSector

end Devices
end NachOS
