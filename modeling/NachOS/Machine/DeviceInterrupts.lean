import NachOS.Machine.Devices

/-!
# No interrupt is lost

Runs of the simulation with the devices on top of it: the loop of `OneTick`, `Interrupt::Idle` and
what the kernel asks of the devices. Between two steps the interrupts pending are those of the
devices, and none of them is late.
-/

namespace NachOS
namespace Devices

open PartialRun Interrupt

variable {R : Type} {s s' : Simulation R} {w w' : Devices R} {now : ℤ}
  {p : PendingInterrupt DeviceHandler Unit} {ps ps' : List (PendingInterrupt DeviceHandler Unit)}

/-! ## Rounds of the loop -/

/-- What a device is owed does not depend on the rest of the machine. -/
theorem Owing.withRest (h : Owing w now ps) (rest : R) : Owing { w with rest := rest } now ps where
  waiting_eq := h.waiting_eq
  types := h.types
  soon := h.soon
  sent := h.sent
  busy := h.busy
  bufferInit := h.bufferInit
  lastSector := h.lastSector

/-- The clock is made of three parts. -/
structure ClockAdds (t : Ticks) : Prop where
  totalTicks : t.totalTicks = t.idleTicks + t.systemTicks + t.userTicks
  idleTicks : 0 ≤ t.idleTicks
  systemTicks : 0 ≤ t.systemTicks
  userTicks : 0 ≤ t.userTicks

/-- A handler that was called was so at its time, or within the tick after it. -/
def Punctual (i : Invocation DeviceHandler Unit) : Prop :=
  i.interrupt.when ≤ i.totalTicks ∧ i.totalTicks ≤ i.interrupt.when + systemTick

/-- A state in which the interrupts on the list are those of the devices, and none of them is late
by more than `slack`. What was scheduled is on the list or was called. -/
structure Serviced (s : Simulation R) (ps : List (PendingInterrupt DeviceHandler Unit))
    (slack : ℤ) : Prop where
  holds : Holds s.pending ps
  inOrder : InOrder ps
  owing : Owing s.world s.stats.totalTicks ps
  accounted : s.scheduled.Perm (s.invoked.map (·.interrupt) ++ ps)
  punctual : ∀ i ∈ s.invoked, Punctual i
  late : ∀ p ∈ ps, s.stats.totalTicks ≤ p.when + slack
  clock : ClockAdds s.stats
  inHandler : s.inHandler = false

/-- The loop may start, or go on. -/
structure Ready (s : Simulation R) (ps : List (PendingInterrupt DeviceHandler Unit)) : Prop extends
    Serviced s ps systemTick where
  level : s.level = .intOff
  max : s.stats.totalTicks < 2 ^ 30 + 2 ^ 20

theorem ClockAdds.min {t : Ticks} (h : ClockAdds t) : 0 ≤ t.totalTicks := by
  have htotal := h.totalTicks
  have hidle := h.idleTicks
  have hsystem := h.systemTicks
  have huser := h.userTicks
  omega

/-- One handler is called. -/
structure Fired (s s' : Simulation R) (p : PendingInterrupt DeviceHandler Unit)
    (ps ps' : List (PendingInterrupt DeviceHandler Unit)) : Prop where
  ready : Ready s' ps'
  status : s'.status = s.status
  stats : s'.stats = s.stats
  invoked : s'.invoked = s.invoked ++ [⟨p, s.stats.totalTicks⟩]
  filter_due : ps'.filter (due s.stats.totalTicks) = ps.filter (due s.stats.totalTicks)
  later : ∀ q ∈ ps', q ∈ ps ∨ s.stats.totalTicks < q.when

/-- The first interrupt was taken from the list, and its handler is called. -/
theorem Ready.fire (env : Surroundings R) (h : Ready s (p :: ps))
    {l : NachosList (Option (PendingInterrupt DeviceHandler Unit))} (hholds : Holds l ps)
    (hdue : p.when ≤ s.stats.totalTicks)
    (hmore : ¬ (s.status = .idleMode ∧ p.type = .timerInt ∧ ps = [])) :
    ∃ s' ps', Interrupt.fire (code env) { s with pending := l } p p.when = .ok (true, s') ∧
      Fired s s' p ps ps' := by
  have hmin := h.clock.min
  have hmax := h.max
  have hrange : -2 ^ 31 ≤ s.stats.totalTicks := by omega
  have hcalls : ∀ h arg w, ∀ call ∈ ((code env).call h arg s.stats.totalTicks w).2,
      HandlerCall.Allowed s.stats.totalTicks call := fun h _ w => call_allowed hmax h w
  obtain ⟨s₂, ps', new, hfire, -, hprogress, hafter, horder, hperm, hfilter⟩ :=
    fire_ok (s := { s with pending := l, status := .systemMode }) (p := p) hholds
      (List.pairwise_cons.mp h.inOrder).2 h.level hrange (by simp) hcalls
  obtain ⟨hworld, hscheduled, hinHandler⟩ := fire_performed hfire
  -- the interrupts that were scheduled are those of the handler
  have hnew : new = schedules s.stats.totalTicks
      (Devices.call env { s.world with rest := env.delayedLoad s.world.rest } p.handler).2 :=
    List.append_cancel_left (hprogress.scheduled_eq.symm.trans hscheduled)
  -- the interrupt was pending, so the device owed it
  have howed : 0 < owed s.world p.handler := by
    rw [← h.owing.waiting_eq, waiting_cons, if_pos rfl]
    omega
  have hcalled := call_called env { s.world with rest := env.delayedLoad s.world.rest }
    (h := p.handler) howed h.owing.sent hmin hmax
  rw [← hnew] at hcalled
  have howing := ((h.owing.withRest (env.delayedLoad s.world.rest)).called hcalled).perm hperm
  have hlater : ∀ q ∈ ps', q ∈ ps ∨ s.stats.totalTicks < q.when := by
    intro q hq
    rcases List.mem_append.mp (hperm.mem_iff.mp hq) with hq | hq
    · exact .inl hq
    · exact .inr (hcalled.later q hq)
  -- the case where the timer alone is put back has been excluded
  have hidle : ¬ (s.status = .idleMode ∧ p.type = .timerInt ∧ l.isEmpty) :=
    fun halone => hmore ⟨halone.1, halone.2.1, hholds.isEmpty_iff.mp halone.2.2⟩
  have hticks : s₂.stats = s.stats := hprogress.stats_eq
  have hinvoked : s₂.invoked = s.invoked ++ [⟨p, s.stats.totalTicks⟩] := hprogress.invoked_eq
  have hfired : Interrupt.fire (code env) { s with pending := l } p p.when =
      .ok (true, { s₂ with status := s.status }) := fire_idle hidle hfire
  refine ⟨_, ps', hfired, ⟨⟨⟨hafter, horder, ?owing, ?accounted, ?punctual, ?late, ?clock,
    hinHandler⟩, hprogress.level_eq, ?max⟩, rfl, hticks, hinvoked, hfilter, hlater⟩⟩
  case owing =>
    show Owing s₂.world s₂.stats.totalTicks ps'
    rw [hworld, hticks]
    exact howing
  case accounted =>
    show s₂.scheduled.Perm (s₂.invoked.map (·.interrupt) ++ ps')
    have hold : (s.scheduled ++ new).Perm (s.invoked.map (·.interrupt) ++ p :: ps ++ new) :=
      h.accounted.append_right new
    rw [hprogress.scheduled_eq, hinvoked, List.map_append, List.append_assoc]
    refine hold.trans ?_
    rw [List.append_assoc]
    exact (hperm.symm.cons p).append_left _
  case punctual =>
    show ∀ i ∈ s₂.invoked, Punctual i
    rw [hinvoked]
    intro i hi
    rcases List.mem_append.mp hi with hi | hi
    · exact h.punctual i hi
    · rw [List.mem_singleton.mp hi]
      exact ⟨hdue, h.late p List.mem_cons_self⟩
  case late =>
    show ∀ q ∈ ps', s₂.stats.totalTicks ≤ q.when + systemTick
    rw [hticks]
    intro q hq
    rcases hlater q hq with hq | hq
    · exact h.late q (.tail _ hq)
    · have htick : systemTick = 10 := rfl
      omega
  case clock =>
    show ClockAdds s₂.stats
    rw [hticks]
    exact h.clock
  case max =>
    show s₂.stats.totalTicks < _
    rw [hticks]
    exact hmax

/-- The only interrupt pending is that of the timer. -/
def TimerAlone (ps : List (PendingInterrupt DeviceHandler Unit)) : Prop :=
  ∃ p, ps = [p] ∧ p.type = .timerInt

/-- What a round of the loop leaves if it calls no handler: nothing is due, or the machine idles and
nothing but the timer is pending. -/
structure Waits (s s' : Simulation R) (ps ps' : List (PendingInterrupt DeviceHandler Unit)) :
    Prop where
  ready : Ready s' ps'
  status : s'.status = s.status
  stats : s'.stats = s.stats
  invoked : s'.invoked = s.invoked
  perm : ps'.Perm ps
  reason : (∀ p ∈ ps, s.stats.totalTicks < p.when) ∨ s.status = .idleMode ∧ TimerAlone ps

/-- An interrupt is put back. -/
theorem Serviced.withPending {slack : ℤ} (h : Serviced s ps slack)
    {l : NachosList (Option (PendingInterrupt DeviceHandler Unit))} (hholds : Holds l ps')
    (horder : InOrder ps') (hperm : ps'.Perm ps) : Serviced { s with pending := l } ps' slack where
  holds := hholds
  inOrder := horder
  owing := h.owing.perm hperm
  accounted := h.accounted.trans (hperm.symm.append_left _)
  punctual := h.punctual
  late := fun p hp => h.late p (hperm.mem_iff.mp hp)
  clock := h.clock
  inHandler := h.inHandler

/-- Nor on how the queue is laid out in the list. -/
theorem Ready.withPending (h : Ready s ps)
    {l : NachosList (Option (PendingInterrupt DeviceHandler Unit))} (hholds : Holds l ps')
    (horder : InOrder ps') (hperm : ps'.Perm ps)
    (hreason : (∀ p ∈ ps, s.stats.totalTicks < p.when) ∨ s.status = .idleMode ∧ TimerAlone ps) :
    Waits s { s with pending := l } ps ps' where
  ready := ⟨h.toServiced.withPending hholds horder hperm, h.level, h.max⟩
  status := rfl
  stats := rfl
  invoked := rfl
  perm := hperm
  reason := hreason

/-- One round of the loop calls the handler of the first interrupt or leaves all of them. -/
theorem Ready.checkIfDue (env : Surroundings R) (h : Ready s ps) :
    (∃ p rest s' ps', ps = p :: rest ∧ p.when ≤ s.stats.totalTicks ∧
        Interrupt.checkIfDue (code env) s false = .ok (true, s') ∧ Fired s s' p rest ps') ∨
      ∃ s' ps', Interrupt.checkIfDue (code env) s false = .ok (false, s') ∧ Waits s s' ps ps' := by
  cases ps with
  | nil =>
    -- nothing is pending
    right
    obtain ⟨l, hremove, hrest⟩ := h.holds.sortedRemove_nil
    refine ⟨{ s with pending := l }, [], ?_,
      h.withPending hrest h.inOrder (.refl _) (.inl fun p hp => absurd hp List.not_mem_nil)⟩
    rw [Interrupt.checkIfDue, if_neg (not_not.mpr h.level), hremove]
    rfl
  | cons p rest =>
    obtain ⟨l, hremove, hrest⟩ := h.holds.sortedRemove_cons
    obtain ⟨l', hinsert, hafter⟩ := hrest.sortedInsert p
    have horder : InOrder rest := (List.pairwise_cons.mp h.inOrder).2
    have hcheck : Interrupt.checkIfDue (code env) s false =
        if p.when > s.stats.totalTicks then
          Interrupt.putBack { s with pending := l } p p.when
        else Interrupt.fire (code env) { s with pending := l } p p.when := by
      rw [Interrupt.checkIfDue, if_neg (not_not.mpr h.level), hremove, ok_bind]
      dsimp only
      rw [if_neg (by simp)]
    -- the interrupt that is taken out goes back behind those of its own time
    have hback : Interrupt.putBack { s with pending := l } p p.when =
        .ok (false, { s with pending := l' }) := by
      rw [putBack]
      dsimp only
      rw [hinsert]
      rfl
    have hput := fun hreason => h.withPending hafter (horder.add p) (add_perm p rest) hreason
    by_cases hlater : p.when > s.stats.totalTicks
    · -- the first one is not due, so none is
      right
      refine ⟨_, _, hcheck.trans ((if_pos hlater).trans hback), hput (.inl fun q hq => ?_)⟩
      rcases List.mem_cons.mp hq with rfl | hq
      · exact hlater
      · exact hlater.trans_le ((List.pairwise_cons.mp h.inOrder).1 q hq)
    rw [if_neg hlater] at hcheck
    by_cases halone : s.status = .idleMode ∧ p.type = .timerInt ∧ rest = []
    · -- the timer alone does not wake the machine
      right
      obtain ⟨hstatus, htype, hnil⟩ := halone
      refine ⟨_, _, ?_, hput (.inr ⟨hstatus, p, by rw [hnil], htype⟩)⟩
      rw [hcheck, Interrupt.fire, if_pos ⟨hstatus, htype, hrest.isEmpty_iff.mpr hnil⟩, hback]
    · left
      obtain ⟨s', ps', hfire, hfired⟩ := h.fire env hrest (not_lt.mp hlater) halone
      exact ⟨p, rest, s', ps', rfl, not_lt.mp hlater, hcheck.trans hfire, hfired⟩

/-- What the whole loop leaves. -/
structure Looped (s s' : Simulation R) (ps ps' : List (PendingInterrupt DeviceHandler Unit)) :
    Prop where
  ready : Ready s' ps'
  status : s'.status = s.status
  stats : s'.stats = s.stats
  invoked : ∃ more, s'.invoked = s.invoked ++ more
  later : ∀ q ∈ ps', q ∈ ps ∨ s.stats.totalTicks < q.when
  reason : (∀ p ∈ ps', s.stats.totalTicks < p.when) ∨ s.status = .idleMode ∧ TimerAlone ps'

theorem Waits.looped (h : Waits s s' ps ps') : Looped s s' ps ps' where
  ready := h.ready
  status := h.status
  stats := h.stats
  invoked := ⟨[], h.invoked.trans (List.append_nil _).symm⟩
  later := fun q hq => .inl (h.perm.mem_iff.mp hq)
  reason := by
    rcases h.reason with hlater | ⟨hstatus, p, rfl, htype⟩
    · exact .inl fun p hp => hlater p (h.perm.mem_iff.mp hp)
    · exact .inr ⟨hstatus, p, List.perm_singleton.mp h.perm, htype⟩

/-- One handler called, and the loop goes on. -/
theorem Fired.looped {s₁ : Simulation R} {rest ps₁ : List (PendingInterrupt DeviceHandler Unit)}
    (h : Fired s s₁ p rest ps₁) (h' : Looped s₁ s' ps₁ ps') : Looped s s' (p :: rest) ps' where
  ready := h'.ready
  status := h'.status.trans h.status
  stats := h'.stats.trans h.stats
  invoked := by
    obtain ⟨more, hmore⟩ := h'.invoked
    exact ⟨⟨p, s.stats.totalTicks⟩ :: more, by rw [hmore, h.invoked, List.append_assoc]; rfl⟩
  later := by
    intro q hq
    rcases h'.later q hq with hq | hlater
    · rcases h.later q hq with hq | hlater
      · exact .inl (.tail _ hq)
      · exact .inr hlater
    · exact .inr (h.stats ▸ hlater)
  reason := by
    rw [← h.stats, ← h.status]
    exact h'.reason

/-- The loop ends after as many rounds as interrupts were due, and one more: what handlers schedule
is for later. -/
theorem Ready.checkLoop (env : Surroundings R) {count : ℕ} :
    ∀ {s : Simulation R} {ps : List (PendingInterrupt DeviceHandler Unit)}, Ready s ps →
      (ps.filter (due s.stats.totalTicks)).length ≤ count → ∀ fuel, count < fuel →
      ∃ s' ps', Interrupt.checkLoop (code env) fuel s = .ok s' ∧ Looped s s' ps ps' := by
  induction count with
  | zero =>
    intro s ps h hcount fuel hfuel
    obtain ⟨fuel, rfl⟩ : ∃ m, fuel = m + 1 := ⟨fuel - 1, by omega⟩
    rcases h.checkIfDue env with ⟨p, rest, -, -, rfl, hle, -⟩ | ⟨s', ps', hcheck, hwaits⟩
    · have hdue : due s.stats.totalTicks p = true := by simpa [due] using hle
      rw [List.filter_cons_of_pos hdue, List.length_cons] at hcount
      omega
    · refine ⟨s', ps', ?_, hwaits.looped⟩
      rw [Interrupt.checkLoop, hcheck]
      rfl
  | succ count ih =>
    intro s ps h hcount fuel hfuel
    obtain ⟨fuel, rfl⟩ : ∃ m, fuel = m + 1 := ⟨fuel - 1, by omega⟩
    rcases h.checkIfDue env with ⟨p, rest, s₁, ps₁, rfl, hle, hcheck, hfired⟩ |
      ⟨s', ps', hcheck, hwaits⟩
    · have hdue : due s.stats.totalTicks p = true := by simpa [due] using hle
      rw [List.filter_cons_of_pos hdue, List.length_cons] at hcount
      have hcount₁ : (ps₁.filter (due s₁.stats.totalTicks)).length ≤ count := by
        rw [hfired.stats, hfired.filter_due]
        omega
      obtain ⟨s', ps', hloop, hlooped⟩ := ih hfired.ready hcount₁ fuel (by omega)
      refine ⟨s', ps', ?_, hfired.looped hlooped⟩
      rw [Interrupt.checkLoop, hcheck]
      exact hloop
    · refine ⟨s', ps', ?_, hwaits.looped⟩
      rw [Interrupt.checkLoop, hcheck]
      rfl

/-- There are rounds enough for all interrupts on the list. -/
theorem Ready.loop (env : Surroundings R) (h : Ready s ps) :
    ∃ s' ps', Interrupt.checkLoop (code env) (rounds s) s = .ok s' ∧ Looped s s' ps ps' := by
  refine h.checkLoop env le_rfl (rounds s) ?_
  calc (ps.filter (due s.stats.totalTicks)).length
      ≤ ps.length := List.length_filter_le _ _
    _ ≤ (s.invoked.map (·.interrupt) ++ ps).length := by
        rw [List.length_append]
        omega
    _ = s.scheduled.length := h.accounted.length_eq.symm
    _ < rounds s := Nat.lt_succ_self _

/-! ## Ticks -/

/-- Every tick but those of `Idle` is the kernel's or the user's. -/
theorem advance_clock (hclock : ClockAdds s.stats) (hmax : s.stats.totalTicks < 2 ^ 30) :
    ClockAdds s.advance.stats ∧ s.stats.totalTicks < s.advance.stats.totalTicks ∧
      s.advance.stats.totalTicks ≤ s.stats.totalTicks + systemTick := by
  have htotal := hclock.totalTicks
  have hidle := hclock.idleTicks
  have hsystem := hclock.systemTicks
  have huser := hclock.userTicks
  have hten : systemTick = 10 := rfl
  have hone : userTick = 1 := rfl
  have hint : ∀ x : ℤ, 0 ≤ x → x < 2 ^ 31 → toInt x = x :=
    fun x hmin hmax => toInt_of_range (by omega) hmax
  unfold advance
  split
  · dsimp only
    rw [hten, hint _ (by omega) (by omega), hint _ (by omega) (by omega)]
    exact ⟨⟨by dsimp only; omega, hidle, by dsimp only; omega, by dsimp only; omega⟩, by omega,
      by omega⟩
  · dsimp only
    rw [hten, hone, hint _ (by omega) (by omega), hint _ (by omega) (by omega)]
    exact ⟨⟨by dsimp only; omega, hidle, by dsimp only; omega, by dsimp only; omega⟩, by omega,
      by omega⟩

theorem advance_devices (s : Simulation R) :
    s.advance.world = s.world ∧ s.advance.inHandler = s.inHandler := by
  unfold advance
  split
  · exact ⟨rfl, rfl⟩
  · exact ⟨rfl, rfl⟩

/-- What a step leaves. -/
structure Kept (s s' : Simulation R) (ps' : List (PendingInterrupt DeviceHandler Unit)) : Prop where
  serviced : Serviced s' ps' 0
  invoked : ∃ more, s'.invoked = s.invoked ++ more

/-- `OneTick` serves what is due and keeps the invariant. -/
theorem Serviced.tick (env : Surroundings R) (h : Serviced s ps 0) (hstatus : s.status ≠ .idleMode)
    (hmax : s.stats.totalTicks < 2 ^ 30) :
    ∃ s' ps', Devices.tick env s = .ok s' ∧ Kept s s' ps' := by
  obtain ⟨hclock, hless, hmore⟩ := advance_clock h.clock hmax
  obtain ⟨hworld, hinHandler⟩ := advance_devices s
  obtain ⟨hsame, hinvoked, hscheduled, -⟩ := s.advance_history
  have hten : systemTick = 10 := rfl
  -- the clock has moved on; the devices and the pending interrupts have not
  have hready : Ready { s.advance with level := .intOff } ps := {
    holds := s.advance_pending ▸ h.holds
    inOrder := h.inOrder
    owing := by
      show Owing s.advance.world s.advance.stats.totalTicks ps
      rw [hworld]
      exact h.owing.advance hless.le
    accounted := by
      show s.advance.scheduled.Perm (s.advance.invoked.map (·.interrupt) ++ ps)
      rw [hscheduled, hinvoked]
      exact h.accounted
    punctual := by
      show ∀ i ∈ s.advance.invoked, Punctual i
      rw [hinvoked]
      exact h.punctual
    late := by
      intro p hp
      have hlate := h.late p hp
      show s.advance.stats.totalTicks ≤ _
      omega
    clock := hclock
    inHandler := hinHandler.trans h.inHandler
    level := rfl
    max := by
      show s.advance.stats.totalTicks < _
      omega }
  obtain ⟨s₂, ps', hloop, hlooped⟩ := hready.loop env
  have hrounds : rounds { s.advance with level := .intOff } = rounds s := by
    show s.advance.scheduled.length + 1 = s.scheduled.length + 1
    rw [hscheduled]
  have hinvoked₂ : ∃ more, s₂.invoked = s.invoked ++ more := by
    obtain ⟨more, hmore⟩ := hlooped.invoked
    exact ⟨more, hmore.trans (congrArg (· ++ more) hinvoked)⟩
  -- outside of idle mode nothing that is due is left
  have hlate : ∀ p ∈ ps', s₂.stats.totalTicks ≤ p.when + 0 := by
    intro p hp
    rcases hlooped.reason with hlater | ⟨hidle, -⟩
    · have hlater := hlater p hp
      rw [hlooped.stats]
      omega
    · exact absurd (hsame.symm.trans hidle) hstatus
  have hserviced : Serviced s₂ ps' 0 := { hlooped.ready.toServiced with late := hlate }
  rw [hrounds] at hloop
  have htick : Devices.tick env s = .ok s₂.afterLoop.2 := by
    rw [Devices.tick, oneTick, hloop]
    rfl
  refine ⟨_, ps', htick, ?_⟩
  unfold afterLoop
  dsimp only
  split
  · exact ⟨{ hserviced with }, hinvoked₂⟩
  · exact ⟨{ hserviced with }, hinvoked₂⟩

/-! ## Idling -/

/-- How `Idle` ends: it halts since nothing but the timer could wake the machine, or it calls the
handler of the next interrupt, with the clock set to its time. -/
structure Idled (s s' : Simulation R) (ps : List (PendingInterrupt DeviceHandler Unit)) : Prop where
  halts : s'.status = .idleMode ↔ ps = [] ∨ TimerAlone ps
  wakes : s'.status ≠ .idleMode → s'.status = .systemMode ∧ ∃ p more, p ∈ ps ∧
    (∀ q ∈ ps, p.when ≤ q.when) ∧ s'.stats.totalTicks = p.when ∧
    s'.invoked = s.invoked ++ ⟨p, p.when⟩ :: more

/-- The clock is set to the time of the next interrupt. -/
def skipTo (s : Simulation R) (when : ℤ) : Simulation R :=
  { s with
    status := .idleMode
    stats := { s.stats with
      idleTicks := s.stats.idleTicks + (when - s.stats.totalTicks)
      totalTicks := when } }

/-- The idle loop moves the clock to the first pending interrupt, so it is due then. -/
theorem Serviced.skip (h : Serviced s (p :: ps) 0) (hlevel : s.level = .intOff)
    (hmax : s.stats.totalTicks < 2 ^ 30) : Ready (skipTo s p.when) (p :: ps) := by
  have hlate := h.late p List.mem_cons_self
  have hsoon := h.owing.soon p List.mem_cons_self
  have hperiod := period_bounds s.world p.handler
  have htotal := h.clock.totalTicks
  have hidle := h.clock.idleTicks
  have hten : systemTick = 10 := rfl
  exact {
    holds := h.holds
    inOrder := h.inOrder
    owing := h.owing.advance (by show _ ≤ p.when; omega)
    accounted := h.accounted
    punctual := h.punctual
    late := by
      intro q hq
      show p.when ≤ q.when + systemTick
      have hle : p.when ≤ q.when := by
        rcases List.mem_cons.mp hq with rfl | hq
        · exact le_rfl
        · exact (List.pairwise_cons.mp h.inOrder).1 q hq
      omega
    clock := {
      totalTicks := by
        show p.when = s.stats.idleTicks + (p.when - s.stats.totalTicks) + s.stats.systemTicks +
          s.stats.userTicks
        omega
      idleTicks := by
        show 0 ≤ s.stats.idleTicks + (p.when - s.stats.totalTicks)
        omega
      systemTicks := h.clock.systemTicks
      userTicks := h.clock.userTicks }
    inHandler := h.inHandler
    level := hlevel
    max := by
      show p.when < _
      omega }

/-- `CheckIfDue(true)`, once the first interrupt was taken from the list. -/
theorem checkIfDue_skip (env : Surroundings R) (h : Serviced s (p :: ps) 0)
    (hlevel : s.level = .intOff) (hmax : s.stats.totalTicks < 2 ^ 30)
    {l : NachosList (Option (PendingInterrupt DeviceHandler Unit))}
    (hremove : s.pending.sortedRemove = .ok ((some p, some p.when), l)) :
    Interrupt.checkIfDue (code env) { s with status := .idleMode } true =
      Interrupt.fire (code env) { skipTo s p.when with pending := l } p p.when := by
  have hlate := h.late p List.mem_cons_self
  have hsoon := h.owing.soon p List.mem_cons_self
  have hperiod := period_bounds s.world p.handler
  have htotal := h.clock.totalTicks
  have hidle := h.clock.idleTicks
  have hsystem := h.clock.systemTicks
  have huser := h.clock.userTicks
  have hint : toInt (s.stats.idleTicks + (p.when - s.stats.totalTicks)) =
      s.stats.idleTicks + (p.when - s.stats.totalTicks) :=
    toInt_of_range (by omega) (by omega)
  rw [Interrupt.checkIfDue, if_neg (not_not.mpr hlevel)]
  dsimp only
  rw [hremove, ok_bind]
  dsimp only
  by_cases hlater : p.when > s.stats.totalTicks
  · rw [if_pos ⟨rfl, hlater⟩, hint]
    rfl
  · -- it is due at this very tick, and the clock stays
    have hnow : p.when = s.stats.totalTicks := by omega
    rw [if_neg (fun hand => hlater hand.2), if_neg hlater]
    have hskip : ({ s with status := .idleMode } : Simulation R) = skipTo s p.when := by
      rw [skipTo, hnow, Int.sub_self, Int.add_zero]
    have hpending := congrArg (fun t : Simulation R => { t with pending := l }) hskip
    dsimp only at hpending
    rw [hpending]

/-- `Idle` serves it and goes on, or halts if there is none. -/
theorem Serviced.idle (env : Surroundings R) (h : Serviced s ps 0) (hlevel : s.level = .intOff)
    (hmax : s.stats.totalTicks < 2 ^ 30) :
    ∃ s' ps', Devices.idle env s = .ok s' ∧ Kept s s' ps' ∧ Idled s s' ps := by
  cases ps with
  | nil =>
    -- nothing is pending: the machine halts
    obtain ⟨l, hremove, hrest⟩ := h.holds.sortedRemove_nil
    refine ⟨{ s with status := .idleMode, pending := l }, [], ?_,
      ⟨?_, [], (List.append_nil _).symm⟩, ⟨fun _ => .inl rfl, fun _ => rfl⟩,
      fun hne => absurd rfl hne⟩
    · rw [Devices.idle, Interrupt.checkIfDue, if_neg (not_not.mpr hlevel)]
      dsimp only
      rw [hremove]
      rfl
    · exact { h.withPending hrest h.inOrder (.refl _) with }
  | cons p rest =>
    obtain ⟨l, hremove, hrest⟩ := h.holds.sortedRemove_cons
    -- the clock moves to the first interrupt, which is due then
    have hcheck := checkIfDue_skip env h hlevel hmax hremove
    have hready := h.skip hlevel hmax
    have hfirst := (List.pairwise_cons.mp h.inOrder).1
    by_cases halone : p.type = .timerInt ∧ rest = []
    · -- the timer is put back, at the time that the clock shows now
      obtain ⟨htype, rfl⟩ := halone
      obtain ⟨l', hinsert, hafter⟩ := hrest.sortedInsert p
      refine ⟨{ skipTo s p.when with pending := l' }, [p], ?_,
        ⟨?_, [], (List.append_nil _).symm⟩, ⟨fun _ => .inr ⟨p, rfl, htype⟩, fun _ => rfl⟩,
        fun hne => absurd rfl hne⟩
      · rw [Devices.idle, hcheck, Interrupt.fire, if_pos ⟨rfl, htype, hrest.isEmpty_iff.mpr rfl⟩,
          putBack]
        dsimp only
        rw [hinsert]
        rfl
      · have hback := hready.toServiced.withPending hafter h.inOrder (.refl _)
        refine { hback with late := fun q hq => ?_ }
        rw [List.mem_singleton.mp hq]
        exact (Int.add_zero p.when).ge
    · -- otherwise it fires, and the loop fires all the others that are due by then
      have hmore : ¬ ((skipTo s p.when).status = .idleMode ∧ p.type = .timerInt ∧ rest = []) :=
        fun hand => halone hand.2
      obtain ⟨s₁, ps₁, hfire, hfired⟩ := hready.fire env hrest le_rfl hmore
      obtain ⟨s₂, ps₂, hloop, hlooped⟩ := hfired.ready.loop env
      have hnow : s₂.stats.totalTicks = p.when := by
        rw [hlooped.stats, hfired.stats]
        rfl
      obtain ⟨more, hinvoked⟩ := hlooped.invoked
      have hcalled : s₂.invoked = s.invoked ++ ⟨p, p.when⟩ :: more := by
        rw [hinvoked, hfired.invoked, List.append_assoc]
        rfl
      have hlate : ∀ q ∈ ps₂, s₂.stats.totalTicks ≤ q.when + 0 := by
        intro q hq
        rw [hnow]
        rcases hlooped.later q hq with hq | hlater
        · rcases hfired.later q hq with hq | hlater
          · have hle := hfirst q hq
            omega
          · have hlater : p.when < q.when := hlater
            omega
        · rw [hfired.stats] at hlater
          have hlater : p.when < q.when := hlater
          omega
      have hserviced : Serviced s₂ ps₂ 0 := { hlooped.ready.toServiced with late := hlate }
      refine ⟨{ s₂ with yieldOnReturn := false, status := .systemMode }, ps₂, ?_,
        ⟨{ hserviced with }, _, hcalled⟩, ⟨?_, ?_⟩, ?_⟩
      · rw [Devices.idle, hcheck, hfire, ok_bind]
        dsimp only
        rw [if_pos rfl, hloop]
        rfl
      · exact fun hidle => by cases hidle
      · rintro (hnil | ⟨q, hq, htype⟩)
        · cases hnil
        · obtain ⟨rfl, rfl⟩ := List.cons.inj hq
          exact absurd ⟨htype, rfl⟩ halone
      · refine fun _ => ⟨rfl, p, more, List.mem_cons_self, fun q hq => ?_, hnow, hcalled⟩
        rcases List.mem_cons.mp hq with rfl | hq
        · exact le_rfl
        · exact hfirst q hq

/-! ## Requests -/

/-- What a device that is given something to do changes before it schedules its interrupt. -/
structure Begun (w w' : Devices R) (h : DeviceHandler) : Prop where
  owed_eq : ∀ k, owed w' k = owed w k + if h = k then 1 else 0
  period_le : ∀ k, 0 < owed w k → period w k ≤ period w' k
  sent : w'.numPacketsSent ≤ w'.sends
  busy : w'.putBusy = true → w'.console = true
  bufferInit : 0 ≤ w'.bufferInit
  lastSector : DiskHead.IsSector w'.lastSector

/-- A device that begins something schedules the interrupt it is owed. -/
theorem Serviced.schedule (h : Serviced s ps 0) (hmax : s.stats.totalTicks < 2 ^ 30)
    (w' : Devices R) (handler : DeviceHandler) (fromNow : ℤ) (hbegun : Begun s.world w' handler)
    (hpos : 0 < fromNow) (hle : fromNow ≤ period w' handler) :
    ∃ s' ps', Interrupt.schedule { s with world := w' } handler () fromNow handler.intType =
      .ok s' ∧ Kept s s' ps' := by
  have hperiod := period_bounds w' handler
  have hwhen : toInt (s.stats.totalTicks + fromNow) = s.stats.totalTicks + fromNow :=
    toInt_schedule h.clock.min (by omega) hpos (by omega)
  -- the interrupt goes to its place in the queue, and the device has begun what it is owed for
  let p : PendingInterrupt DeviceHandler Unit :=
    ⟨handler, (), s.stats.totalTicks + fromNow, handler.intType⟩
  obtain ⟨l', hinsert, hafter⟩ := h.holds.sortedInsert p
  have hperm := add_perm p ps
  refine ⟨{ s with world := w', pending := l', scheduled := s.scheduled ++ [p] }, add p ps, ?_,
    ⟨?_, [], (List.append_nil _).symm⟩⟩
  · rw [Interrupt.schedule]
    dsimp only
    rw [if_neg (not_not.mpr hpos), hwhen, hinsert]
    rfl
  refine ⟨hafter, h.inOrder.add p, ?owing, ?accounted, h.punctual, ?late, h.clock, h.inHandler⟩
  case owing =>
    constructor
    case waiting_eq =>
      intro k
      rw [waiting_perm hperm, waiting_cons, h.owing.waiting_eq, hbegun.owed_eq]
    case types =>
      intro q hq
      rcases List.mem_cons.mp (hperm.mem_iff.mp hq) with rfl | hq
      · rfl
      · exact h.owing.types q hq
    case soon =>
      intro q hq
      rcases List.mem_cons.mp (hperm.mem_iff.mp hq) with rfl | hq
      · show s.stats.totalTicks + fromNow ≤ s.stats.totalTicks + period w' handler
        omega
      · have hsoon := h.owing.soon q hq
        have howed : 0 < owed s.world q.handler := by
          rw [← h.owing.waiting_eq]
          exact List.countP_pos_iff.mpr ⟨q, hq, decide_eq_true rfl⟩
        have hmore := hbegun.period_le q.handler howed
        show q.when ≤ s.stats.totalTicks + period w' q.handler
        omega
    case sent => exact hbegun.sent
    case busy => exact hbegun.busy
    case bufferInit => exact hbegun.bufferInit
    case lastSector => exact hbegun.lastSector
  case accounted =>
    show (s.scheduled ++ [p]).Perm (s.invoked.map (·.interrupt) ++ add p ps)
    calc (s.scheduled ++ [p]).Perm (s.invoked.map (·.interrupt) ++ ps ++ [p]) :=
          h.accounted.append_right [p]
      _ = s.invoked.map (·.interrupt) ++ (ps ++ [p]) := List.append_assoc _ _ _
      List.Perm _ (s.invoked.map (·.interrupt) ++ add p ps) :=
          ((List.perm_append_singleton p ps).trans hperm.symm).append_left _
  case late =>
    intro q hq
    show s.stats.totalTicks ≤ q.when + 0
    rcases List.mem_cons.mp (hperm.mem_iff.mp hq) with rfl | hq
    · show s.stats.totalTicks ≤ s.stats.totalTicks + fromNow + 0
      omega
    · exact h.late q hq

/-- The disk takes at most a seek over all tracks and a rotation. -/
theorem computeLatency_le {d : DiskHead} {newSector : ℤ} (h : d.Request newSector)
    (writing : Bool) : d.computeLatency newSector writing ≤ 32000 := by
  by_cases hbuffer : d.BufferApplies newSector writing
  · rw [DiskHead.computeLatency, if_pos hbuffer, rotationTime_eq]
    decide
  · have heq := h.computeLatency_eq hbuffer
    have hbounds := h.seekTicks_bounds
    have hboundary := DiskHead.boundary_spec (d.totalTicks + d.seekTicks newSector)
    rw [rotationTime_eq] at heq hboundary
    rw [sectorsPerTrack_eq] at heq
    omega

/-- A disk request is served if the disk is idle. -/
theorem Serviced.request (h : Serviced s ps 0) (hmax : s.stats.totalTicks < 2 ^ 30)
    {newSector : ℤ} (hsector : DiskHead.IsSector newSector) (hactive : s.world.active = false)
    (writing : Bool) :
    ∃ s' ps', Devices.request s newSector writing = .ok s' ∧ Kept s s' ps' := by
  let head : DiskHead := ⟨s.world.lastSector, s.world.bufferInit, s.stats.totalTicks⟩
  have hmin := h.clock.min
  -- the bound on the clock keeps the seek and the rotation below 2^31
  have hrequest : head.Request newSector := by
    refine ⟨h.owing.lastSector, hsector, h.owing.bufferInit, hmin, ?_⟩
    have hboundary := DiskHead.boundary_spec (head.totalTicks + head.seekTicks newSector)
    rw [rotationTime_eq] at hboundary
    have hlast := h.owing.lastSector
    unfold DiskHead.IsSector at hlast hsector
    rw [sectorsPerTrack_eq, numTracks_eq] at hlast hsector
    have hseek : head.seekTicks newSector ≤ 31 * 500 := by
      rw [DiskHead.seekTicks, sectorsPerTrack_eq, seekTime_eq]
      show ((newSector / 32 - s.world.lastSector / 32).natAbs : ℤ) * 500 ≤ 31 * 500
      omega
    have htotal : head.totalTicks = s.stats.totalTicks := rfl
    omega
  have hafter : 0 ≤ toInt (toInt (s.stats.totalTicks + (head.timeToSeek newSector).1) +
      (head.timeToSeek newSector).2) := by
    have heq : toInt (toInt (s.stats.totalTicks + (head.timeToSeek newSector).1) +
        (head.timeToSeek newSector).2) = _ := hrequest.timeAfter_eq
    have hseek := hrequest.seekTicks_bounds
    have hboundary := DiskHead.boundary_spec (head.totalTicks + head.seekTicks newSector)
    have htotal : head.totalTicks = s.stats.totalTicks := rfl
    rw [heq]
    omega
  -- the disk as `ReadRequest` and `WriteRequest` leave it
  let begun : Devices R := { s.world with
    active := true
    bufferInit := if (head.timeToSeek newSector).1 ≠ 0 then
        toInt (toInt (s.stats.totalTicks + (head.timeToSeek newSector).1) +
          (head.timeToSeek newSector).2)
      else s.world.bufferInit
    lastSector := newSector }
  -- it owes one interrupt more
  have hbegun : Begun s.world begun .diskDone := by
    constructor
    case owed_eq =>
      intro k
      cases k with
      | timerHandler => rfl
      | consoleReadPoll => rfl
      | consoleWriteDone => rfl
      | diskDone =>
        show 1 = s.world.active.toNat + 1
        rw [hactive]
        rfl
      | networkReadPoll => rfl
      | networkSendDone => rfl
    case period_le => exact fun k _ => le_rfl
    case sent => exact h.owing.sent
    case busy => exact h.owing.busy
    case bufferInit =>
      dsimp only [begun]
      split
      · exact hafter
      · exact h.owing.bufferInit
    case lastSector => exact hsector
  obtain ⟨s', ps', hok, hkept⟩ := h.schedule hmax begun .diskDone
    (head.computeLatency newSector writing) hbegun (hrequest.computeLatency_pos writing)
    (computeLatency_le hrequest writing)
  refine ⟨s', ps', ?_, hkept⟩
  rw [Devices.request]
  dsimp only
  rw [hactive, if_neg Bool.false_ne_true, if_neg (not_not.mpr hsector)]
  exact hok

/-! ## Runs -/

/-- The timer is built once. -/
theorem Serviced.newTimer (env : Surroundings R) (h : Serviced s ps 0)
    (hmax : s.stats.totalTicks < 2 ^ 30) (hnone : s.world.timer = none) (doRandom : Bool) :
    ∃ s' ps', step env s (.newTimer doRandom) = .ok s' ∧ Kept s s' ps' := by
  have hbounds := timeOfNextInterrupt_bounds env { s.world with timer := some doRandom }
  -- drawing a number changes nothing but the numbers to come
  have hdrawn : ∃ rest, (timeOfNextInterrupt env { s.world with timer := some doRandom }).2 =
      { s.world with timer := some doRandom, rest } := by
    unfold timeOfNextInterrupt
    split
    · exact ⟨_, rfl⟩
    · exact ⟨_, rfl⟩
  obtain ⟨rest, hdrawn⟩ := hdrawn
  refine h.schedule hmax _ .timerHandler _ ?_ hbounds.1 ?_
  · rw [hdrawn]
    refine ⟨fun k => ?_, fun k howed => ?_, h.owing.sent, h.owing.busy, h.owing.bufferInit,
      h.owing.lastSector⟩
    · cases k with
      | timerHandler =>
        show 1 = (if s.world.timer.isSome then 1 else 0) + 1
        rw [hnone]
        rfl
      | consoleReadPoll => rfl
      | consoleWriteDone => rfl
      | diskDone => rfl
      | networkReadPoll => rfl
      | networkSendDone => rfl
    · cases k with
      | timerHandler =>
        rw [owed, hnone] at howed
        cases howed
      | consoleReadPoll => exact le_rfl
      | consoleWriteDone => exact le_rfl
      | diskDone => exact le_rfl
      | networkReadPoll => exact le_rfl
      | networkSendDone => exact le_rfl
  · rw [hdrawn]
    exact hbounds.2

/-- A device other than the timer and the disk is made or given something to do. -/
theorem Begun.of_eq {h : DeviceHandler} (howing : Owing w now ps)
    (howed : ∀ k, owed w' k = owed w k + if h = k then 1 else 0) (htimer : w'.timer = w.timer)
    (hsent : w'.numPacketsSent ≤ w'.sends) (hbusy : w'.putBusy = true → w'.console = true)
    (hinit : w'.bufferInit = w.bufferInit) (hlast : w'.lastSector = w.lastSector) :
    Begun w w' h where
  owed_eq := howed
  period_le := by
    intro k _
    cases k with
    | timerHandler => rw [period, period, htimer]
    | consoleReadPoll => exact le_rfl
    | consoleWriteDone => exact le_rfl
    | diskDone => exact le_rfl
    | networkReadPoll => exact le_rfl
    | networkSendDone => exact le_rfl
  sent := hsent
  busy := hbusy
  bufferInit := hinit ▸ howing.bufferInit
  lastSector := hlast ▸ howing.lastSector

/-- So is the console, which polls the keyboard from then on. -/
theorem Serviced.newConsole (env : Surroundings R) (h : Serviced s ps 0)
    (hmax : s.stats.totalTicks < 2 ^ 30) (hnone : s.world.console = false) :
    ∃ s' ps', step env s .newConsole = .ok s' ∧ Kept s s' ps' := by
  have hfree : s.world.putBusy = false := by
    by_contra hbusy
    rw [Bool.not_eq_false] at hbusy
    rw [h.owing.busy hbusy] at hnone
    cases hnone
  refine h.schedule hmax _ .consoleReadPoll consoleTime (.of_eq h.owing (fun k => ?_) rfl
    h.owing.sent (fun _ => rfl) rfl rfl) (by decide) le_rfl
  cases k with
  | timerHandler => rfl
  | consoleReadPoll =>
    show 1 = s.world.console.toNat + 1
    rw [hnone]
    rfl
  | consoleWriteDone =>
    show 0 = s.world.putBusy.toNat + 0
    rw [hfree]
    rfl
  | diskDone => rfl
  | networkReadPoll => rfl
  | networkSendDone => rfl

/-- And the network, which polls its socket. -/
theorem Serviced.newNetwork (env : Surroundings R) (h : Serviced s ps 0)
    (hmax : s.stats.totalTicks < 2 ^ 30) (hnone : s.world.network = false) :
    ∃ s' ps', step env s .newNetwork = .ok s' ∧ Kept s s' ps' := by
  refine h.schedule hmax _ .networkReadPoll networkTime (.of_eq h.owing (fun k => ?_) rfl
    h.owing.sent h.owing.busy rfl rfl) (by decide) le_rfl
  cases k with
  | timerHandler => rfl
  | consoleReadPoll => rfl
  | consoleWriteDone => rfl
  | diskDone => rfl
  | networkReadPoll =>
    show 1 = s.world.network.toNat + 1
    rw [hnone]
    rfl
  | networkSendDone => rfl

/-- `PutChar` meets its `ASSERT` while the output is free. -/
theorem Serviced.putChar (env : Surroundings R) (h : Serviced s ps 0)
    (hmax : s.stats.totalTicks < 2 ^ 30) (hconsole : s.world.console = true)
    (hfree : s.world.putBusy = false) :
    ∃ s' ps', step env s .putChar = .ok s' ∧ Kept s s' ps' := by
  rw [step, hfree, if_neg Bool.false_ne_true]
  refine h.schedule hmax _ .consoleWriteDone consoleTime (.of_eq h.owing (fun k => ?_) rfl
    h.owing.sent (fun _ => hconsole) rfl rfl) (by decide) le_rfl
  cases k with
  | timerHandler => rfl
  | consoleReadPoll => rfl
  | consoleWriteDone =>
    show 1 = s.world.putBusy.toNat + 1
    rw [hfree]
    rfl
  | diskDone => rfl
  | networkReadPoll => rfl
  | networkSendDone => rfl

/-- `Send` meets its `ASSERT`s for a packet from this machine that fits. -/
theorem Serviced.send (env : Surroundings R) (h : Serviced s ps 0)
    (hmax : s.stats.totalTicks < 2 ^ 30) {hdr : PacketHeader} (hhdr : hdr.Sendable env.netAddr) :
    ∃ s' ps', step env s (.send hdr) = .ok s' ∧ Kept s s' ps' := by
  have hsent := h.owing.sent
  rw [step, if_pos hhdr]
  refine h.schedule hmax _ .networkSendDone networkTime (.of_eq h.owing (fun k => ?_) rfl
    (Nat.le_succ_of_le hsent) h.owing.busy rfl rfl) (by decide) le_rfl
  cases k with
  | timerHandler => rfl
  | consoleReadPoll => rfl
  | consoleWriteDone => rfl
  | diskDone => rfl
  | networkReadPoll => rfl
  | networkSendDone =>
    show s.world.sends + 1 - s.world.numPacketsSent = s.world.sends - s.world.numPacketsSent + 1
    omega

/-- Turning interrupts on ticks the clock. -/
theorem Serviced.setLevel (env : Surroundings R) (h : Serviced s ps 0)
    (hstatus : s.status ≠ .idleMode) (hmax : s.stats.totalTicks < 2 ^ 30) (now : IntStatus) :
    ∃ s' ps', step env s (.setLevel now) = .ok s' ∧ Kept s s' ps' := by
  have hset : s.setLevel now = .ok { s with level := now } := if_pos (.inr h.inHandler)
  have hserviced : Serviced { s with level := now } ps 0 := { h with }
  rw [step, hset, ok_bind]
  split
  · obtain ⟨s', ps', htick, hkept⟩ := hserviced.tick env hstatus hmax
    exact ⟨s', ps', htick, hkept.serviced, hkept.invoked⟩
  · exact ⟨_, ps, rfl, hserviced, [], (List.append_nil _).symm⟩

/-- What one step does. -/
theorem Serviced.step (env : Surroundings R) (h : Serviced s ps 0) {e : Event} (he : Proper env s e) :
    ∃ s' ps', Devices.step env s e = .ok s' ∧ Kept s s' ps' := by
  obtain ⟨hstatus, hmax, he⟩ := he
  cases e with
  | newTimer doRandom => exact h.newTimer env hmax he doRandom
  | newConsole => exact h.newConsole env hmax he
  | newNetwork => exact h.newNetwork env hmax he
  | instruction => exact h.tick env hstatus hmax
  | setLevel now => exact h.setLevel env hstatus hmax now
  | setStatus st => exact ⟨_, ps, rfl, { h with }, [], (List.append_nil _).symm⟩
  | putChar => exact h.putChar env hmax he.1 he.2
  | request newSector writing => exact h.request hmax he.1 he.2 writing
  | send hdr => exact h.send env hmax he.2
  | idle =>
    obtain ⟨s', ps', hidle, hkept, -⟩ := h.idle env he hmax
    exact ⟨s', ps', hidle, hkept⟩

theorem boot_serviced (rest : R) : Serviced (boot rest) [] 0 where
  holds := NachosList.empty_represents
  inOrder := List.Pairwise.nil
  owing := {
    waiting_eq := by
      intro k
      cases k with
      | timerHandler => rfl
      | consoleReadPoll => rfl
      | consoleWriteDone => rfl
      | diskDone => rfl
      | networkReadPoll => rfl
      | networkSendDone => rfl
    types := fun p hp => absurd hp List.not_mem_nil
    soon := fun p hp => absurd hp List.not_mem_nil
    sent := le_rfl
    busy := id
    bufferInit := le_rfl
    lastSector := ⟨le_rfl, Int.zero_lt_one.trans (by decide)⟩ }
  accounted := .refl _
  punctual := fun i hi => absurd hi List.not_mem_nil
  late := fun p hp => absurd hp List.not_mem_nil
  clock := ⟨rfl, le_rfl, le_rfl, le_rfl⟩
  inHandler := rfl

/-- Every proper run can be made to its end, with the invariant. -/
theorem boot_run (env : Surroundings R) (rest : R) {es : List Event}
    (hes : Along (Devices.step env) (Proper env) (boot rest) es) :
    ∃ s, run (Devices.step env) (boot rest) es = .ok s ∧ ∃ ps, Serviced s ps 0 := by
  refine Along.total (I := fun s => ∃ ps, Serviced s ps 0) (fun s e hs he => ?_)
    ⟨[], boot_serviced rest⟩ hes
  obtain ⟨ps, hserviced⟩ := hs
  obtain ⟨s', ps', hstep, hkept⟩ := hserviced.step env he
  exact ⟨s', hstep, ps', hkept.serviced⟩

/-- The simulation never fails, and no interrupt is lost: a device that polls or is busy has exactly
one pending, which is no further away than the device takes, every handler was called once for each
time that it was scheduled, not before its time and at most one tick after it, and the clock adds
up. -/
theorem run_serviced (env : Surroundings R) (rest : R) (es : List Event)
    (hes : Along (Devices.step env) (Proper env) (boot rest) es) :
    ∃ s ps, run (Devices.step env) (boot rest) es = .ok s ∧ Holds s.pending ps ∧
      (∀ h, waiting ps h = owed s.world h) ∧
      (∀ p ∈ ps, p.type = p.handler.intType ∧ s.stats.totalTicks ≤ p.when ∧
        p.when ≤ s.stats.totalTicks + period s.world p.handler) ∧
      s.scheduled.Perm (s.invoked.map (·.interrupt) ++ ps) ∧
      (∀ i ∈ s.invoked, i.interrupt.when ≤ i.totalTicks ∧
        i.totalTicks ≤ i.interrupt.when + systemTick) ∧
      s.stats.totalTicks = s.stats.idleTicks + s.stats.systemTicks + s.stats.userTicks ∧
      0 ≤ s.stats.idleTicks ∧ 0 ≤ s.stats.systemTicks ∧ 0 ≤ s.stats.userTicks := by
  obtain ⟨s, hrun, ps, hserviced⟩ := boot_run env rest hes
  refine ⟨s, ps, hrun, hserviced.holds, hserviced.owing.waiting_eq, fun p hp => ?_,
    hserviced.accounted, hserviced.punctual, hserviced.clock.totalTicks, hserviced.clock.idleTicks,
    hserviced.clock.systemTicks, hserviced.clock.userTicks⟩
  have hlate := hserviced.late p hp
  exact ⟨hserviced.owing.types p hp, by omega, hserviced.owing.soon p hp⟩

instance (env : Surroundings R) (s : Simulation R) : (e : Event) → Decidable (Proper env s e)
  | .newTimer _ => inferInstanceAs (Decidable (_ ∧ _ ∧ _))
  | .newConsole => inferInstanceAs (Decidable (_ ∧ _ ∧ _))
  | .newNetwork => inferInstanceAs (Decidable (_ ∧ _ ∧ _))
  | .instruction => inferInstanceAs (Decidable (_ ∧ _ ∧ _))
  | .setLevel _ => inferInstanceAs (Decidable (_ ∧ _ ∧ _))
  | .setStatus _ => inferInstanceAs (Decidable (_ ∧ _ ∧ _))
  | .putChar => inferInstanceAs (Decidable (_ ∧ _ ∧ _))
  | .request _ _ => inferInstanceAs (Decidable (_ ∧ _ ∧ _))
  | .send _ => inferInstanceAs (Decidable (_ ∧ _ ∧ _ ∧ _))
  | .idle => inferInstanceAs (Decidable (_ ∧ _ ∧ _))

/-- Nobody types and no packet arrives. -/
def quiet : Surroundings Unit where
  netAddr := 0
  random _ := (0, ())
  checkCharAvail _ := (false, ())
  checkPktAvail _ := (none, ())
  sendToSocket _ _ := ()
  handled _ _ := ()
  delayedLoad _ := ()
  received _ _ hnone := by cases hnone

/-- A timer, a console and a network are made, a sector, a character and a packet are written, and
an instruction is executed before the kernel idles. -/
def requests : List Event :=
  [.newTimer true, .newConsole, .newNetwork, .request 40 true, .putChar, .send ⟨1, 0, 20⟩,
    .setLevel .intOn, .setStatus .userMode, .instruction, .setStatus .systemMode,
    .setLevel .intOff, .idle, .idle]

theorem run_serviced_requests :
    ∃ s, run (Devices.step quiet) (boot ()) requests = .ok s ∧
      (∀ i ∈ s.invoked, i.interrupt.when ≤ i.totalTicks) ∧
      s.stats.totalTicks = s.stats.idleTicks + s.stats.systemTicks + s.stats.userTicks := by
  obtain ⟨s, -, hrun, -, -, -, -, hpunctual, htotal, -⟩ :=
    run_serviced quiet () requests (by decide +kernel)
  exact ⟨s, hrun, fun i hi => (hpunctual i hi).1, htotal⟩

/-- The timer is the only one whose handler needs nothing to be there. -/
theorem Owing.timerAlone_iff (h : Owing w now ps) :
    ps = [] ∨ TimerAlone ps ↔ ∀ k, k ≠ .timerHandler → owed w k = 0 := by
  constructor
  · rintro (rfl | ⟨p, rfl, htype⟩) k hk
    · exact (h.waiting_eq k).symm
    · have hhandler : p.handler = .timerHandler := by
        have htypes := h.types p List.mem_cons_self
        rw [htype] at htypes
        cases hcase : p.handler with
        | timerHandler => rfl
        | consoleReadPoll => rw [hcase] at htypes; cases htypes
        | consoleWriteDone => rw [hcase] at htypes; cases htypes
        | diskDone => rw [hcase] at htypes; cases htypes
        | networkReadPoll => rw [hcase] at htypes; cases htypes
        | networkSendDone => rw [hcase] at htypes; cases htypes
      rw [← h.waiting_eq, waiting_cons, hhandler, if_neg hk.symm]
      rfl
  · intro hnone
    -- every interrupt is one of the timer, of which there is at most one
    have hall : ∀ p ∈ ps, p.handler = .timerHandler := by
      intro p hp
      by_contra hother
      have hwaiting := h.waiting_eq p.handler
      rw [hnone p.handler hother] at hwaiting
      have hpos : 0 < waiting ps p.handler := List.countP_pos_iff.mpr ⟨p, hp, decide_eq_true rfl⟩
      omega
    have hlength : ps.length ≤ 1 := by
      have hwaiting : waiting ps .timerHandler = ps.length :=
        List.countP_eq_length.mpr fun p hp => decide_eq_true (hall p hp)
      rw [← hwaiting, h.waiting_eq, owed]
      split
      · exact le_rfl
      · exact Nat.zero_le 1
    cases ps with
    | nil => exact .inl rfl
    | cons p rest =>
      rw [List.length_cons] at hlength
      have hrest : rest = [] := List.length_eq_zero_iff.mp (by omega)
      refine .inr ⟨p, by rw [hrest], ?_⟩
      rw [h.types p List.mem_cons_self, hall p List.mem_cons_self]
      rfl

/-- With nothing to run, the machine halts exactly if no device but the timer has an interrupt to
come, so it never does with a console or a network; else the clock is set to the next interrupt,
whose handler is called, and the kernel goes on. -/
theorem idle_halts_iff (env : Surroundings R) (rest : R) (es : List Event) (s : Simulation R)
    (hes : Along (Devices.step env) (Proper env) (boot rest) es)
    (hrun : run (Devices.step env) (boot rest) es = .ok s) (hidle : Proper env s .idle) :
    ∃ s' ps, Devices.step env s .idle = .ok s' ∧ Holds s.pending ps ∧
      (s'.status = .idleMode ↔ ∀ h, h ≠ .timerHandler → owed s.world h = 0) ∧
      (s'.status ≠ .idleMode → s'.status = .systemMode ∧ ∃ p more, p ∈ ps ∧
        (∀ q ∈ ps, p.when ≤ q.when) ∧ s'.stats.totalTicks = p.when ∧
        s'.invoked = s.invoked ++ ⟨p, p.when⟩ :: more) := by
  obtain ⟨s₁, hrun₁, ps, hserviced⟩ := boot_run env rest hes
  rw [hrun, Except.ok.injEq] at hrun₁
  subst hrun₁
  obtain ⟨s', ps', hstep, -, hidled⟩ := hserviced.idle env hidle.2.2 hidle.2.1
  exact ⟨s', ps, hstep, hserviced.holds, hidled.halts.trans hserviced.owing.timerAlone_iff,
    hidled.wakes⟩

/-- The disk has something to write. -/
theorem idle_halts_iff_request :
    ∃ s s', run (Devices.step quiet) (boot ()) [.newTimer false, .request 40 true] = .ok s ∧
      Devices.step quiet s .idle = .ok s' ∧ s'.status ≠ .idleMode := by
  obtain ⟨s, hrun, hidle, howed⟩ :
      ∃ s, run (Devices.step quiet) (boot ()) [.newTimer false, .request 40 true] = .ok s ∧
        Proper quiet s .idle ∧ owed s.world .diskDone = 1 := by decide +kernel
  obtain ⟨s', -, hstep, -, hhalts, -⟩ :=
    idle_halts_iff quiet () [.newTimer false, .request 40 true] s (by decide +kernel) hrun hidle
  refine ⟨s, s', hrun, hstep, fun hhalted => ?_⟩
  rw [hhalts.mp hhalted .diskDone (by decide)] at howed
  cases howed

end Devices
end NachOS
