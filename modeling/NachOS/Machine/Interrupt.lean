import NachOS.Threads.Lists
import NachOS.Threads.Kernel

/-!
# Pending interrupts

The simulated interrupts of `interrupt.cc`: the list of those that are to occur, and the loop of
`OneTick` that calls the handlers of those whose time has come. What a handler does to the devices
is up to it; on the simulation of interrupts it makes a list of calls.

`scheduled`, `invoked` and `levels` only record what has happened: nothing in the functions reads
them.
-/

namespace NachOS

open PartialRun

/-- `SystemTick` of `stats.h`. -/
def systemTick : ℤ := 10

/-- `UserTick` of `stats.h`. -/
def userTick : ℤ := 1

/-- `MachineStatus`. -/
inductive MachineStatus where
  | idleMode
  | systemMode
  | userMode
deriving DecidableEq, Repr

/-- `IntType`. -/
inductive IntType where
  | timerInt
  | diskInt
  | consoleWriteInt
  | consoleReadInt
  | networkSendInt
  | networkRecvInt
deriving DecidableEq, Repr

/-- `PendingInterrupt`. -/
structure PendingInterrupt (H A : Type) where
  handler : H
  arg : A
  when : ℤ
  type : IntType

/-- The times of `Statistics`. -/
structure Ticks where
  totalTicks : ℤ
  idleTicks : ℤ
  systemTicks : ℤ
  userTicks : ℤ

/-- A call of a handler, with the time. -/
structure Invocation (H A : Type) where
  interrupt : PendingInterrupt H A
  totalTicks : ℤ

/-- `Interrupt`, with `stats` and what the handlers work on. -/
structure Interrupt (H A W : Type) where
  level : IntStatus
  pending : NachosList (Option (PendingInterrupt H A))
  inHandler : Bool
  yieldOnReturn : Bool
  status : MachineStatus
  stats : Ticks
  world : W
  /-- The interrupts that were put on the list by `Schedule`. -/
  scheduled : List (PendingInterrupt H A)
  /-- The handlers that were called. -/
  invoked : List (Invocation H A)
  /-- The interrupt level when a handler was called, whenever it called something itself, and when
  it returned. -/
  levels : List IntStatus

/-- What a handler calls. -/
inductive HandlerCall (H A : Type) where
  | schedule (handler : H) (arg : A) (fromNow : ℤ) (type : IntType)
  | setLevel (now : IntStatus)
  | yieldOnReturn
  /-- An `ASSERT` of the handler's own. -/
  | assert (condition : Bool)

/-- The code that handlers run: a handler with its argument changes the devices and makes some
calls, and `machine->DelayedLoad(0, 0)` changes the machine. -/
structure HandlerCode (H A W : Type) where
  call : H → A → ℤ → W → W × List (HandlerCall H A)
  delayedLoad : W → W

namespace Interrupt

variable {H A W : Type}

/-- `Schedule`. -/
def schedule (s : Interrupt H A W) (handler : H) (arg : A) (fromNow : ℤ) (type : IntType) :
    Except Fault (Interrupt H A W) :=
  let when := toInt (s.stats.totalTicks + fromNow)
  let toOccur : PendingInterrupt H A := ⟨handler, arg, when, type⟩
  if ¬ fromNow > 0 then .error .assertion
  else do
    let pending ← s.pending.sortedInsert (some toOccur) when
    return { s with pending, scheduled := s.scheduled ++ [toOccur] }

/-- `SetLevel`, up to the `OneTick` that it calls outside of handlers. -/
def setLevel (s : Interrupt H A W) (now : IntStatus) : Except Fault (Interrupt H A W) :=
  if now = .intOff ∨ s.inHandler = false then .ok { s with level := now } else .error .assertion

/-- Record the interrupt level. -/
def noteLevel (s : Interrupt H A W) : Interrupt H A W := { s with levels := s.levels ++ [s.level] }

/-- What a handler calls. -/
def perform (s : Interrupt H A W) : HandlerCall H A → Except Fault (Interrupt H A W)
  | .schedule handler arg fromNow type => s.noteLevel.schedule handler arg fromNow type
  | .setLevel now => s.noteLevel.setLevel now
  | .yieldOnReturn => .ok { s.noteLevel with yieldOnReturn := true }
  | .assert condition => if condition then .ok s.noteLevel else .error .assertion

/-- `(*(toOccur->handler))(toOccur->arg)`. -/
def callHandler (code : HandlerCode H A W) (s : Interrupt H A W)
    (toOccur : PendingInterrupt H A) : Except Fault (Interrupt H A W) :=
  let result := code.call toOccur.handler toOccur.arg s.stats.totalTicks s.world
  run perform { s.noteLevel with
    world := result.1
    invoked := s.invoked ++ [⟨toOccur, s.stats.totalTicks⟩] } result.2

/-- `pending->SortedInsert(toOccur, when); return false;`. -/
def putBack (s : Interrupt H A W) (toOccur : PendingInterrupt H A) (when : ℤ) :
    Except Fault (Bool × Interrupt H A W) := do
  let pending ← s.pending.sortedInsert (some toOccur) when
  return (false, { s with pending })

/-- What `CheckIfDue` does with an interrupt whose time has come. -/
def fire (code : HandlerCode H A W) (s : Interrupt H A W) (toOccur : PendingInterrupt H A)
    (when : ℤ) : Except Fault (Bool × Interrupt H A W) :=
  -- nothing but the timer is left: the machine is about to halt
  if s.status = .idleMode ∧ toOccur.type = .timerInt ∧ s.pending.isEmpty then
    s.putBack toOccur when
  else do
    let after ← callHandler code { s with
      world := code.delayedLoad s.world
      inHandler := true
      status := .systemMode } toOccur
    return (true, { after.noteLevel with status := s.status, inHandler := false })

/-- `CheckIfDue`. -/
def checkIfDue (code : HandlerCode H A W) (s : Interrupt H A W) (advanceClock : Bool) :
    Except Fault (Bool × Interrupt H A W) :=
  if s.level ≠ .intOff then .error .assertion
  else do
    -- the first interrupt is taken off the list, and put back if it is not due
    let removed ← s.pending.sortedRemove
    let s := { s with pending := removed.2 }
    match removed.1 with
    | (none, _) => return (false, s)
    | (some _, none) => .error .uninitialised
    | (some toOccur, some when) =>
      -- `Idle` moves the clock on to it instead
      if advanceClock ∧ when > s.stats.totalTicks then
        fire code { s with stats := { s.stats with
          idleTicks := toInt (s.stats.idleTicks + (when - s.stats.totalTicks))
          totalTicks := when } } toOccur when
      else if when > s.stats.totalTicks then s.putBack toOccur when
      else s.fire code toOccur when

/-- `while (CheckIfDue(false));`. -/
def checkLoop (code : HandlerCode H A W) : ℕ → Interrupt H A W → Except Fault (Interrupt H A W)
  | 0, _ => .error .loop
  | fuel + 1, s => do
    let checked ← s.checkIfDue code false
    if checked.1 then checkLoop code fuel checked.2 else return checked.2

/-- "advance simulated time". -/
def advance (s : Interrupt H A W) : Interrupt H A W :=
  if s.status = .systemMode then
    { s with stats := { s.stats with
        totalTicks := toInt (s.stats.totalTicks + systemTick)
        systemTicks := toInt (s.stats.systemTicks + systemTick) } }
  else
    { s with stats := { s.stats with
        totalTicks := toInt (s.stats.totalTicks + userTick)
        userTicks := toInt (s.stats.userTicks + userTick) } }

/-- What `OneTick` does after the loop, up to `currentThread->Yield()`, and whether it calls
that. -/
def afterLoop (s : Interrupt H A W) : Bool × Interrupt H A W :=
  let s := { s with level := .intOn }
  if s.yieldOnReturn then (true, { s with yieldOnReturn := false, status := .systemMode })
  else (false, s)

/-- `OneTick`, up to `currentThread->Yield()`. -/
def oneTick (code : HandlerCode H A W) (fuel : ℕ) (s : Interrupt H A W) :
    Except Fault (Bool × Interrupt H A W) := do
  let checked ← checkLoop code fuel { s.advance with level := .intOff }
  return checked.afterLoop

/-! ## Lists of pending interrupts -/

/-- The lists that are built by `Schedule` calls, and what is left of them. -/
inductive Built : NachosList (Option (PendingInterrupt H A)) → Prop
  | empty : Built .empty
  | schedule {l l'} (p : PendingInterrupt H A) (h : Built l)
      (hinsert : l.sortedInsert (some p) p.when = .ok l') : Built l'
  | remove {l l' removed} (h : Built l) (hremove : l.sortedRemove = .ok (removed, l')) : Built l'

/-- The interrupts on a list. -/
def Holds (l : NachosList (Option (PendingInterrupt H A))) (ps : List (PendingInterrupt H A)) :
    Prop :=
  l.Represents (ps.map fun p => (p.when, some p))

/-- The times do not decrease. -/
def InOrder (ps : List (PendingInterrupt H A)) : Prop := ps.Pairwise fun p p' => p.when ≤ p'.when

/-- The time of an interrupt has come. -/
def due (now : ℤ) (p : PendingInterrupt H A) : Bool := p.when ≤ now

/-- Calls that a handler may make: times in the future, which are numbers of type `int`, and
interrupts are not enabled. What it asserts is true. -/
def HandlerCall.Allowed (now : ℤ) : HandlerCall H A → Prop
  | .schedule _ _ fromNow _ => 0 < fromNow ∧ now + fromNow < 2 ^ 31
  | .setLevel level => level = .intOff
  | .yieldOnReturn => True
  | .assert condition => condition = true

section Lists

variable {l l' : NachosList (Option (PendingInterrupt H A))} {p : PendingInterrupt H A}
  {ps : List (PendingInterrupt H A)} {now : ℤ}

/-- Where `SortedInsert` puts an interrupt. -/
def add (p : PendingInterrupt H A) (ps : List (PendingInterrupt H A)) :
    List (PendingInterrupt H A) :=
  ps.orderedInsert (fun p p' => p.when < p'.when) p

/-- Scheduling an interrupt loses none of the others. -/
theorem add_perm (p : PendingInterrupt H A) (ps : List (PendingInterrupt H A)) :
    (add p ps).Perm (p :: ps) := List.perm_orderedInsert _ p ps

/-- The new interrupt goes to its place, so the queue stays sorted by time. -/
theorem InOrder.add (h : InOrder ps) (p : PendingInterrupt H A) : InOrder (add p ps) := by
  induction ps with
  | nil => exact List.pairwise_singleton _ _
  | cons first ps ih =>
    obtain ⟨hfirst, hrest⟩ := List.pairwise_cons.mp h
    rw [Interrupt.add, List.orderedInsert_cons]
    by_cases hlt : p.when < first.when
    · rw [if_pos hlt]
      refine List.pairwise_cons.mpr ⟨fun p' hp' => ?_, h⟩
      rcases List.mem_cons.mp hp' with rfl | hmem
      · exact hlt.le
      · exact hlt.le.trans (hfirst p' hmem)
    · rw [if_neg hlt]
      refine List.pairwise_cons.mpr ⟨fun p' hp' => ?_, ih hrest⟩
      rcases List.mem_cons.mp ((add_perm p ps).mem_iff.mp hp') with rfl | hmem
      · exact not_lt.mp hlt
      · exact hfirst p' hmem

/-- An interrupt that is not due does not change which ones are, nor their order. -/
theorem filter_due_add (h : now < p.when) : (add p ps).filter (due now) = ps.filter (due now) := by
  have hnot : due now p = false := by simp [due, h]
  induction ps with
  | nil => simp [add, hnot]
  | cons first ps ih =>
    rw [add, List.orderedInsert_cons]
    split_ifs with hlt
    · rw [List.filter_cons_of_neg (by simp [hnot])]
    · rw [List.filter_cons, List.filter_cons]
      rw [add] at ih
      rw [ih]

/-- `SortedInsert` on the cells of the list is `add` on its contents. -/
theorem Holds.sortedInsert (h : Holds l ps) (p : PendingInterrupt H A) :
    ∃ l', l.sortedInsert (some p) p.when = .ok l' ∧ Holds l' (add p ps) := by
  obtain ⟨l', hinsert, hafter⟩ := NachosList.sortedInsert_represents h (some p) p.when
  have hmap : (add p ps).map (fun p => (p.when, some p)) =
      KeyedQueue.insert (p.when, some p) (ps.map fun p => (p.when, some p)) :=
    List.map_orderedInsert _ _ _ _ _ (fun _ _ => Iff.rfl) (fun _ _ => Iff.rfl)
  refine ⟨l', hinsert, ?_⟩
  rw [Holds, hmap]
  exact hafter

/-- `SortedRemove` on an empty list gives `NULL` and changes nothing. -/
theorem Holds.sortedRemove_nil (h : Holds l []) :
    ∃ l', l.sortedRemove = .ok ((none, none), l') ∧ Holds l' [] :=
  NachosList.sortedRemove_represents h

/-- Otherwise it takes the first interrupt off. -/
theorem Holds.sortedRemove_cons (h : Holds l (p :: ps)) :
    ∃ l', l.sortedRemove = .ok ((some p, some p.when), l') ∧ Holds l' ps :=
  NachosList.sortedRemove_represents h

/-- The lists that `Interrupt` builds hold their interrupts in the order of time. -/
theorem Built.holds (h : Built l) : ∃ ps, Holds l ps ∧ InOrder ps := by
  induction h with
  | empty => exact ⟨[], NachosList.empty_represents, List.Pairwise.nil⟩
  | schedule p _ hinsert ih =>
    obtain ⟨ps, hholds, horder⟩ := ih
    obtain ⟨l', hinsert', hafter⟩ := hholds.sortedInsert p
    rw [hinsert, Except.ok.injEq] at hinsert'
    exact ⟨add p ps, hinsert' ▸ hafter, horder.add p⟩
  | remove _ hremove ih =>
    obtain ⟨ps, hholds, horder⟩ := ih
    cases ps with
    | nil =>
      obtain ⟨l', hremove', hafter⟩ := hholds.sortedRemove_nil
      rw [hremove, Except.ok.injEq, Prod.mk.injEq] at hremove'
      exact ⟨[], hremove'.2 ▸ hafter, horder⟩
    | cons p ps =>
      obtain ⟨l', hremove', hafter⟩ := hholds.sortedRemove_cons
      rw [hremove, Except.ok.injEq, Prod.mk.injEq] at hremove'
      exact ⟨ps, hremove'.2 ▸ hafter, (List.pairwise_cons.mp horder).2⟩

end Lists

/-! ## One interrupt -/

/-- What has happened between two states in which handlers ran: which interrupts were fired, and
which ones the handlers scheduled. -/
structure Progress (s s' : Interrupt H A W) (fired new : List (PendingInterrupt H A)) : Prop where
  stats_eq : s'.stats = s.stats
  level_eq : s'.level = .intOff
  invoked_eq : s'.invoked = s.invoked ++ fired.map fun p => ⟨p, s.stats.totalTicks⟩
  scheduled_eq : s'.scheduled = s.scheduled ++ new
  levels_eq : ∃ levels, s'.levels = s.levels ++ levels ∧ ∀ level ∈ levels, level = .intOff
  later : ∀ p ∈ new, s.stats.totalTicks < p.when
  built : Built s.pending → Built s'.pending

section Handlers

variable {code : HandlerCode H A W} {s s' s'' : Interrupt H A W}
  {p : PendingInterrupt H A} {ps fired fired' new new' : List (PendingInterrupt H A)}

theorem Progress.refl (h : s.level = .intOff) : Progress s s [] [] where
  stats_eq := rfl
  level_eq := h
  invoked_eq := (List.append_nil _).symm
  scheduled_eq := (List.append_nil _).symm
  levels_eq := ⟨[], (List.append_nil _).symm, by simp⟩
  later := by simp
  built := id

/-- Two stretches of the simulation, one after the other. -/
theorem Progress.trans (h : Progress s s' fired new) (h' : Progress s' s'' fired' new') :
    Progress s s'' (fired ++ fired') (new ++ new') where
  stats_eq := h'.stats_eq.trans h.stats_eq
  level_eq := h'.level_eq
  invoked_eq := by
    rw [h'.invoked_eq, h.invoked_eq, h.stats_eq, List.map_append, List.append_assoc]
  scheduled_eq := by rw [h'.scheduled_eq, h.scheduled_eq, List.append_assoc]
  levels_eq := by
    obtain ⟨levels, hlevels, hoff⟩ := h.levels_eq
    obtain ⟨levels', hlevels', hoff'⟩ := h'.levels_eq
    refine ⟨levels ++ levels', by rw [hlevels', hlevels, List.append_assoc], ?_⟩
    intro level hlevel
    rcases List.mem_append.mp hlevel with hmem | hmem
    · exact hoff level hmem
    · exact hoff' level hmem
  later := by
    intro p hp
    rcases List.mem_append.mp hp with hmem | hmem
    · exact h.later p hmem
    · exact h.stats_eq ▸ h'.later p hmem
  built := h'.built ∘ h.built

/-- Besides the history and the pending interrupts, what handlers change does not matter. -/
theorem Progress.of_eq (hstats : s'.stats = s.stats) (hlevel : s'.level = .intOff)
    (hinvoked : s'.invoked = s.invoked ++ fired.map fun p => ⟨p, s.stats.totalTicks⟩)
    (hscheduled : s'.scheduled = s.scheduled) (hlevels : s'.levels = s.levels ++ [.intOff])
    (hpending : s'.pending = s.pending) : Progress s s' fired [] where
  stats_eq := hstats
  level_eq := hlevel
  invoked_eq := hinvoked
  scheduled_eq := by rw [hscheduled, List.append_nil]
  levels_eq := ⟨[.intOff], hlevels, by simp⟩
  later := by simp
  built := by
    rw [hpending]
    exact id

/-- A handler, or some of what it calls, adds interrupts to the pending ones. -/
structure Adds (s s' : Interrupt H A W) (ps ps' new : List (PendingInterrupt H A)) : Prop where
  progress : Progress s s' [] new
  holds : Holds s'.pending ps'
  inOrder : InOrder ps'
  perm : ps'.Perm (ps ++ new)
  filter_due : ps'.filter (due s.stats.totalTicks) = ps.filter (due s.stats.totalTicks)

theorem Adds.of_progress (h : Progress s s' [] []) (hholds : Holds s'.pending ps)
    (horder : InOrder ps) : Adds s s' ps ps [] where
  progress := h
  holds := hholds
  inOrder := horder
  perm := by rw [List.append_nil]
  filter_due := rfl

/-- Two calls of a handler, one after the other. -/
theorem Adds.trans {ps' ps'' : List (PendingInterrupt H A)} (h : Adds s s' ps ps' new)
    (h' : Adds s' s'' ps' ps'' new') : Adds s s'' ps ps'' (new ++ new') where
  progress := h.progress.trans h'.progress
  holds := h'.holds
  inOrder := h'.inOrder
  perm := by
    rw [← List.append_assoc]
    exact h'.perm.trans (h.perm.append_right _)
  filter_due := by
    have hfilter := h'.filter_due
    rw [h.progress.stats_eq] at hfilter
    rw [hfilter, h.filter_due]

/-- `Schedule` meets its `ASSERT` and adds one pending interrupt, as long as the clock does not
overflow. -/
theorem schedule_ok {handler : H} {arg : A} {fromNow : ℤ} {type : IntType}
    (hholds : Holds s.pending ps) (horder : InOrder ps) (hlevel : s.level = .intOff)
    (hmin : -2 ^ 31 ≤ s.stats.totalTicks) (hpos : 0 < fromNow)
    (hmax : s.stats.totalTicks + fromNow < 2 ^ 31) :
    ∃ s' ps' new, s.noteLevel.schedule handler arg fromNow type = .ok s' ∧ Adds s s' ps ps' new := by
  have hwhen : toInt (s.stats.totalTicks + fromNow) = s.stats.totalTicks + fromNow := by
    unfold toInt
    omega
  have hlater : s.stats.totalTicks < toInt (s.stats.totalTicks + fromNow) := by omega
  obtain ⟨l', hinsert, hafter⟩ :=
    hholds.sortedInsert ⟨handler, arg, toInt (s.stats.totalTicks + fromNow), type⟩
  have hschedule : s.noteLevel.schedule handler arg fromNow type =
      .ok { s.noteLevel with
        pending := l'
        scheduled := s.scheduled ++
          [⟨handler, arg, toInt (s.stats.totalTicks + fromNow), type⟩] } := by
    rw [schedule]
    dsimp only [noteLevel]
    rw [if_neg (not_not.mpr hpos), hinsert]
    rfl
  refine ⟨_, _, _, hschedule, ?_, hafter, horder.add _,
    (add_perm _ ps).trans (List.perm_append_singleton _ ps).symm, filter_due_add hlater⟩
  exact {
    stats_eq := rfl
    level_eq := hlevel
    invoked_eq := (List.append_nil _).symm
    scheduled_eq := rfl
    levels_eq := ⟨[s.level], rfl, by simpa using hlevel⟩
    later := by simpa using hlater
    built := fun h => .schedule _ h hinsert }

/-- One call out of a handler only adds interrupts to come. -/
theorem perform_ok {call : HandlerCall H A} (hholds : Holds s.pending ps) (horder : InOrder ps)
    (hlevel : s.level = .intOff) (hmin : -2 ^ 31 ≤ s.stats.totalTicks)
    (hcall : HandlerCall.Allowed s.stats.totalTicks call) :
    ∃ s' ps' new, s.perform call = .ok s' ∧ Adds s s' ps ps' new := by
  have hlevels : s.noteLevel.levels = s.levels ++ [.intOff] := by rw [noteLevel, hlevel]
  have hinvoked : s.noteLevel.invoked = s.invoked ++ [] := (List.append_nil _).symm
  cases call with
  | schedule handler arg fromNow type =>
    exact schedule_ok hholds horder hlevel hmin hcall.1 hcall.2
  | setLevel level =>
    have hset : s.noteLevel.setLevel level = .ok { s.noteLevel with level } :=
      if_pos (.inl hcall)
    exact ⟨_, ps, [], hset,
      .of_progress (.of_eq rfl hcall hinvoked rfl hlevels rfl) hholds horder⟩
  | yieldOnReturn =>
    exact ⟨_, ps, [], rfl,
      .of_progress (.of_eq rfl hlevel hinvoked rfl hlevels rfl) hholds horder⟩
  | assert condition =>
    exact ⟨_, ps, [], if_pos hcall,
      .of_progress (.of_eq rfl hlevel hinvoked rfl hlevels rfl) hholds horder⟩

/-- So do all of them. -/
theorem run_perform_ok {calls : List (HandlerCall H A)} (hholds : Holds s.pending ps)
    (horder : InOrder ps) (hlevel : s.level = .intOff) (hmin : -2 ^ 31 ≤ s.stats.totalTicks)
    (hcalls : ∀ call ∈ calls, HandlerCall.Allowed s.stats.totalTicks call) :
    ∃ s' ps' new, run perform s calls = .ok s' ∧ Adds s s' ps ps' new := by
  induction calls generalizing s ps with
  | nil => exact ⟨s, ps, [], rfl, .of_progress (.refl hlevel) hholds horder⟩
  | cons call calls ih =>
    obtain ⟨s₁, ps₁, new₁, hcall, hadds⟩ :=
      perform_ok hholds horder hlevel hmin (hcalls call List.mem_cons_self)
    have hticks : s₁.stats.totalTicks = s.stats.totalTicks := by rw [hadds.progress.stats_eq]
    have hrest : ∀ call ∈ calls, HandlerCall.Allowed s₁.stats.totalTicks call := by
      intro call' hcall'
      rw [hticks]
      exact hcalls call' (List.mem_cons_of_mem call hcall')
    obtain ⟨s', ps', new', hrun, hadds'⟩ :=
      ih hadds.holds hadds.inOrder hadds.progress.level_eq (hticks ▸ hmin) hrest
    exact ⟨s', ps', new₁ ++ new', run_cons_eq_ok.mpr ⟨s₁, hcall, hrun⟩, hadds.trans hadds'⟩

/-- The handler of the first interrupt is called. -/
theorem fire_ok (hholds : Holds s.pending ps) (horder : InOrder ps) (hlevel : s.level = .intOff)
    (hmin : -2 ^ 31 ≤ s.stats.totalTicks) (hstatus : s.status ≠ .idleMode)
    (hcode : ∀ handler arg w, ∀ call ∈ (code.call handler arg s.stats.totalTicks w).2,
      HandlerCall.Allowed s.stats.totalTicks call) :
    ∃ s' ps' new, s.fire code p p.when = .ok (true, s') ∧ s'.status = s.status ∧
      Progress s s' [p] new ∧ Holds s'.pending ps' ∧ InOrder ps' ∧ ps'.Perm (ps ++ new) ∧
      ps'.filter (due s.stats.totalTicks) = ps.filter (due s.stats.totalTicks) := by
  have hlevels : s.levels ++ [s.level] = s.levels ++ [.intOff] := by rw [hlevel]
  -- the handler starts in system mode, with the call recorded
  let started : Interrupt H A W := { s.noteLevel with
    world := (code.call p.handler p.arg s.stats.totalTicks (code.delayedLoad s.world)).1
    inHandler := true
    status := .systemMode
    invoked := s.invoked ++ [⟨p, s.stats.totalTicks⟩] }
  have hstarted : Progress s started [p] [] := .of_eq rfl hlevel rfl rfl hlevels rfl
  obtain ⟨after, ps', new, hrun, hadds⟩ :=
    run_perform_ok (s := started) hholds horder hlevel hmin (hcode _ _ _)
  let finished : Interrupt H A W := { after.noteLevel with status := s.status, inHandler := false }
  have hafter : after.levels ++ [after.level] = after.levels ++ [.intOff] := by
    rw [hadds.progress.level_eq]
  have hfinished : Progress after finished [] [] :=
    .of_eq rfl hadds.progress.level_eq (List.append_nil _).symm rfl hafter rfl
  have hfire : s.fire code p p.when = .ok (true, finished) := by
    rw [fire, if_neg (fun h => hstatus h.1), callHandler, bind_ok_iff]
    exact ⟨after, hrun, rfl⟩
  refine ⟨finished, ps', new, hfire, rfl, ?_, hadds.holds, hadds.inOrder, hadds.perm,
    hadds.filter_due⟩
  have hprogress := (hstarted.trans hadds.progress).trans hfinished
  simpa only [List.append_nil, List.nil_append] using hprogress

/-- What happens to the pending list before the first interrupt is looked at. -/
theorem Progress.removed {removed} {l : NachosList (Option (PendingInterrupt H A))}
    (hlevel : s.level = .intOff) (hremove : s.pending.sortedRemove = .ok (removed, l)) :
    Progress s { s with pending := l } [] [] where
  stats_eq := rfl
  level_eq := hlevel
  invoked_eq := (List.append_nil _).symm
  scheduled_eq := (List.append_nil _).symm
  levels_eq := ⟨[], (List.append_nil _).symm, by simp⟩
  later := by simp
  built := fun h => .remove h hremove

/-- With nothing pending `CheckIfDue` returns `FALSE`. -/
theorem checkIfDue_nil (code : HandlerCode H A W) (hholds : Holds s.pending [])
    (hlevel : s.level = .intOff) :
    ∃ s', s.checkIfDue code false = .ok (false, s') ∧ s'.status = s.status ∧
      Progress s s' [] [] ∧ Holds s'.pending [] := by
  obtain ⟨l, hremove, hrest⟩ := hholds.sortedRemove_nil
  refine ⟨{ s with pending := l }, ?_, rfl, .removed hlevel hremove, hrest⟩
  rw [checkIfDue, if_neg (not_not.mpr hlevel), hremove]
  rfl

/-- An interrupt that is not due is put back. -/
theorem checkIfDue_notDue (code : HandlerCode H A W) (hholds : Holds s.pending (p :: ps))
    (hlevel : s.level = .intOff) (hlater : s.stats.totalTicks < p.when) :
    ∃ s', s.checkIfDue code false = .ok (false, s') ∧ s'.status = s.status ∧
      Progress s s' [] [] ∧ Holds s'.pending (add p ps) := by
  obtain ⟨l, hremove, hrest⟩ := hholds.sortedRemove_cons
  obtain ⟨l', hinsert, hafter⟩ := hrest.sortedInsert p
  have hremoved : Progress s { s with pending := l } [] [] := .removed hlevel hremove
  refine ⟨{ s with pending := l' }, ?_, rfl, ?_, hafter⟩
  · rw [checkIfDue, if_neg (not_not.mpr hlevel), hremove, ok_bind]
    dsimp only
    rw [if_neg (by simp), if_pos hlater, putBack]
    dsimp only
    rw [hinsert]
    rfl
  · exact { hremoved with built := fun h => .schedule p (hremoved.built h) hinsert }

/-- An interrupt that is due is taken off the list and its handler called, with interrupts off. -/
theorem checkIfDue_due (hholds : Holds s.pending (p :: ps)) (horder : InOrder (p :: ps))
    (hlevel : s.level = .intOff) (hmin : -2 ^ 31 ≤ s.stats.totalTicks)
    (hstatus : s.status ≠ .idleMode)
    (hcode : ∀ handler arg w, ∀ call ∈ (code.call handler arg s.stats.totalTicks w).2,
      HandlerCall.Allowed s.stats.totalTicks call)
    (hdue : p.when ≤ s.stats.totalTicks) :
    ∃ s' ps' new, s.checkIfDue code false = .ok (true, s') ∧ s'.status = s.status ∧
      Progress s s' [p] new ∧ Holds s'.pending ps' ∧ InOrder ps' ∧ ps'.Perm (ps ++ new) ∧
      ps'.filter (due s.stats.totalTicks) = ps.filter (due s.stats.totalTicks) := by
  obtain ⟨l, hremove, hrest⟩ := hholds.sortedRemove_cons
  have hremoved : Progress s { s with pending := l } [] [] := .removed hlevel hremove
  obtain ⟨s', ps', new, hfire, hsame, hprogress, hafter⟩ :=
    fire_ok (s := { s with pending := l }) (p := p) hrest (List.pairwise_cons.mp horder).2 hlevel
      hmin hstatus hcode
  refine ⟨s', ps', new, ?_, hsame, hremoved.trans hprogress, hafter⟩
  rw [checkIfDue, if_neg (not_not.mpr hlevel), hremove, ok_bind]
  dsimp only
  rw [if_neg (by simp), if_neg (not_lt.mpr hdue)]
  exact hfire

/-! ## All of them -/

/-- If the first interrupt is not due, none is. -/
theorem InOrder.all_later {now : ℤ} (h : InOrder (p :: ps)) (hlater : now < p.when) :
    ∀ p' ∈ p :: ps, due now p' = false := by
  intro p' hp'
  have hle : p.when ≤ p'.when := by
    rcases List.mem_cons.mp hp' with rfl | hmem
    · exact le_rfl
    · exact (List.pairwise_cons.mp h).1 p' hmem
  simpa [due] using hlater.trans_le hle

/-- Every round calls the handler of one of the interrupts that were due at the start, and what
handlers schedule is not due, so the loop ends. -/
theorem checkLoop_ok {n : ℕ} (hdue : (ps.filter (due s.stats.totalTicks)).length = n)
    (hholds : Holds s.pending ps) (horder : InOrder ps) (hlevel : s.level = .intOff)
    (hmin : -2 ^ 31 ≤ s.stats.totalTicks) (hstatus : s.status ≠ .idleMode)
    (hcode : ∀ handler arg w, ∀ call ∈ (code.call handler arg s.stats.totalTicks w).2,
      HandlerCall.Allowed s.stats.totalTicks call) :
    ∃ s' ps' new, (∀ fuel, n < fuel → checkLoop code fuel s = .ok s') ∧ s'.status = s.status ∧
      Progress s s' (ps.filter (due s.stats.totalTicks)) new ∧ Holds s'.pending ps' ∧
      ps'.Perm ((ps ++ new).filter fun p => !due s.stats.totalTicks p) := by
  -- the induction is on the number of interrupts that are due: each round fires one of them, and
  -- what its handler schedules is due later
  induction n generalizing s ps with
  | zero =>
    have hnone : ps.filter (due s.stats.totalTicks) = [] := List.length_eq_zero_iff.mp hdue
    -- one round, which finds that nothing is due
    obtain ⟨s', ps', hcheck, hsame, hprogress, hafter, hperm⟩ :
        ∃ s' ps', s.checkIfDue code false = .ok (false, s') ∧ s'.status = s.status ∧
          Progress s s' [] [] ∧ Holds s'.pending ps' ∧ ps'.Perm ps := by
      cases ps with
      | nil =>
        obtain ⟨s', hcheck, hsame, hprogress, hafter⟩ := checkIfDue_nil code hholds hlevel
        exact ⟨s', [], hcheck, hsame, hprogress, hafter, .refl _⟩
      | cons p ps =>
        have hlater : s.stats.totalTicks < p.when := by
          have hfirst := List.filter_eq_nil_iff.mp hnone p List.mem_cons_self
          simpa [due] using hfirst
        obtain ⟨s', hcheck, hsame, hprogress, hafter⟩ :=
          checkIfDue_notDue code hholds hlevel hlater
        exact ⟨s', add p ps, hcheck, hsame, hprogress, hafter, add_perm p ps⟩
    refine ⟨s', ps', [], ?_, hsame, hnone ▸ hprogress, hafter, ?_⟩
    · intro fuel hfuel
      obtain ⟨fuel, rfl⟩ : ∃ m, fuel = m + 1 := ⟨fuel - 1, by omega⟩
      rw [checkLoop, hcheck]
      rfl
    · have hall : ps.filter (fun p => !due s.stats.totalTicks p) = ps := by
        apply List.filter_eq_self.mpr
        intro p hp
        simpa using List.filter_eq_nil_iff.mp hnone p hp
      rwa [List.append_nil, hall]
  | succ n ih =>
    cases ps with
    | nil => simp at hdue
    | cons p ps =>
      have hfirst : p.when ≤ s.stats.totalTicks := by
        by_contra hlater
        rw [List.filter_eq_nil_iff.mpr fun p' hp' => by
          simp [horder.all_later (not_le.mp hlater) p' hp']] at hdue
        simp at hdue
      have hpdue : due s.stats.totalTicks p = true := by simpa [due] using hfirst
      obtain ⟨s₁, ps₁, new₁, hcheck, hsame, hprogress, hholds₁, horder₁, hperm, hfilter⟩ :=
        checkIfDue_due hholds horder hlevel hmin hstatus hcode hfirst
      have hstats := hprogress.stats_eq
      rw [List.filter_cons_of_pos hpdue, List.length_cons, Nat.add_right_cancel_iff] at hdue
      have hdue₁ : (ps₁.filter (due s₁.stats.totalTicks)).length = n := by
        rw [hstats, hfilter, hdue]
      -- the clock stands still in the loop, so the others are still due
      obtain ⟨s', ps', new', hloop, hsame', hprogress', hafter, hperm'⟩ :=
        ih hdue₁ hholds₁ horder₁
          hprogress.level_eq (hstats ▸ hmin) (hsame ▸ hstatus) (hstats ▸ hcode)
      rw [hstats] at hprogress' hperm'
      refine ⟨s', ps', new₁ ++ new', ?_, hsame'.trans hsame, ?_, hafter, ?_⟩
      · intro fuel hfuel
        obtain ⟨fuel, rfl⟩ : ∃ m, fuel = m + 1 := ⟨fuel - 1, by omega⟩
        rw [checkLoop, hcheck]
        exact hloop fuel (by omega)
      · rw [List.filter_cons_of_pos hpdue, ← hfilter]
        exact hprogress.trans hprogress'
      · rw [List.cons_append, List.filter_cons_of_neg (by simp [hpdue]), ← List.append_assoc]
        exact hperm'.trans ((hperm.append_right new').filter _)

end Handlers

/-- The clock stays an `int`, also where it wraps around. -/
theorem advance_min (s : Interrupt H A W) : -2 ^ 31 ≤ s.advance.stats.totalTicks := by
  unfold advance
  split_ifs
  · dsimp only
    unfold toInt
    omega
  · dsimp only
    unfold toInt
    omega

theorem advance_pending (s : Interrupt H A W) : s.advance.pending = s.pending := by
  unfold advance
  split_ifs <;> rfl

theorem advance_history (s : Interrupt H A W) : s.advance.status = s.status ∧
    s.advance.invoked = s.invoked ∧ s.advance.scheduled = s.scheduled ∧
    s.advance.levels = s.levels := by
  unfold advance
  split_ifs
  · exact ⟨rfl, rfl, rfl, rfl⟩
  · exact ⟨rfl, rfl, rfl, rfl⟩

theorem afterLoop_history (s : Interrupt H A W) : s.afterLoop.2.level = .intOn ∧
    s.afterLoop.2.pending = s.pending ∧ s.afterLoop.2.stats = s.stats ∧
    s.afterLoop.2.invoked = s.invoked ∧ s.afterLoop.2.scheduled = s.scheduled ∧
    s.afterLoop.2.levels = s.levels := by
  unfold afterLoop
  dsimp only
  split_ifs
  · exact ⟨rfl, rfl, rfl, rfl, rfl, rfl⟩
  · exact ⟨rfl, rfl, rfl, rfl, rfl, rfl⟩

/-- Outside of idle mode `OneTick` comes to an end: of the interrupts that were pending and those
that its handlers schedule it fires the ones whose time has come, each once and in the order of
their times, with interrupts off, and the other ones are pending. -/
theorem oneTick_delivers (code : HandlerCode H A W) (s : Interrupt H A W)
    (hbuilt : Built s.pending) (hstatus : s.status ≠ .idleMode)
    (hcode : ∀ handler arg w, ∀ call ∈ (code.call handler arg s.advance.stats.totalTicks w).2,
      HandlerCall.Allowed s.advance.stats.totalTicks call) :
    ∃ yields s' ps ps' fired new levels,
      (∃ n, ∀ fuel, n ≤ fuel → oneTick code fuel s = .ok (yields, s')) ∧
      Holds s.pending ps ∧ Holds s'.pending ps' ∧ Built s'.pending ∧ s'.level = .intOn ∧
      s'.stats.totalTicks = s.advance.stats.totalTicks ∧
      s'.invoked = s.invoked ++ fired.map (fun p => ⟨p, s'.stats.totalTicks⟩) ∧
      s'.scheduled = s.scheduled ++ new ∧ s'.levels = s.levels ++ levels ∧
      fired.Perm ((ps ++ new).filter (due s'.stats.totalTicks)) ∧ InOrder fired ∧
      ps'.Perm ((ps ++ new).filter fun p => !due s'.stats.totalTicks p) ∧
      ∀ level ∈ levels, level = .intOff := by
  obtain ⟨ps, hholds, horder⟩ := hbuilt.holds
  obtain ⟨hsame, hinvoked, hscheduled, hlevels⟩ := s.advance_history
  let started : Interrupt H A W := { s.advance with level := .intOff }
  have hpending : Holds started.pending ps := s.advance_pending ▸ hholds
  obtain ⟨checked, ps', new, hloop, -, hprogress, hafter, hperm⟩ :=
    checkLoop_ok (s := started) rfl hpending horder rfl s.advance_min (hsame ▸ hstatus) hcode
  obtain ⟨levels, hlevels', hoff⟩ := hprogress.levels_eq
  obtain ⟨hon, hpending', hstats', hinvoked', hscheduled', hlevels''⟩ := checked.afterLoop_history
  have hticks : checked.afterLoop.2.stats.totalTicks = s.advance.stats.totalTicks := by
    rw [hstats', hprogress.stats_eq]
  -- what the handlers schedule is for later
  have hlater : new.filter (due s.advance.stats.totalTicks) = [] := by
    apply List.filter_eq_nil_iff.mpr
    intro p hp
    have hp' : s.advance.stats.totalTicks < p.when := hprogress.later p hp
    simpa [due] using hp'
  refine ⟨checked.afterLoop.1, checked.afterLoop.2, ps, ps',
    ps.filter (due s.advance.stats.totalTicks), new, levels, ?_, hholds, hpending' ▸ hafter, ?_, hon,
    hticks, ?_, ?_, ?_, ?_, ?_, ?_, hoff⟩
  · refine ⟨(ps.filter (due s.advance.stats.totalTicks)).length + 1, fun fuel hfuel => ?_⟩
    rw [oneTick, hloop fuel hfuel]
    rfl
  · rw [hpending']
    exact hprogress.built (s.advance_pending ▸ hbuilt)
  · rw [hinvoked', hticks, hprogress.invoked_eq, show started.invoked = s.invoked from hinvoked]
  · rw [hscheduled', hprogress.scheduled_eq, show started.scheduled = s.scheduled from hscheduled]
  · rw [hlevels'', hlevels', show started.levels = s.levels from hlevels]
  · rw [hticks, List.filter_append, hlater, List.append_nil]
  · exact horder.sublist List.filter_sublist
  · rw [hticks]
    exact hperm

/-- A clock that is due at the first tick, and whose handler schedules the next one. -/
theorem oneTick_delivers_timer :
    let code : HandlerCode Unit Unit ℕ :=
      ⟨fun _ _ _ w => (w + 1, [.schedule () () 100 .timerInt]), id⟩
    let timer : PendingInterrupt Unit Unit := ⟨(), (), 10, .timerInt⟩
    ∃ l yields s', NachosList.empty.sortedInsert (some timer) timer.when = .ok l ∧
      (∃ n, ∀ fuel, n ≤ fuel → oneTick code fuel
        ⟨.intOn, l, false, false, .systemMode, ⟨0, 0, 0, 0⟩, 0, [], [], []⟩ = .ok (yields, s')) ∧
      Built s'.pending ∧ s'.level = .intOn ∧ s'.stats.totalTicks = 10 := by
  intro code timer
  have hempty : Holds (.empty : NachosList (Option (PendingInterrupt Unit Unit))) [] :=
    NachosList.empty_represents
  obtain ⟨l, hinsert, -⟩ := hempty.sortedInsert timer
  have hcode : ∀ handler arg w, ∀ call ∈ (code.call handler arg 10 w).2,
      HandlerCall.Allowed 10 call := by
    intro handler arg w call hcall
    rw [List.mem_singleton.mp hcall]
    exact ⟨by decide, by decide⟩
  obtain ⟨yields, s', -, -, -, -, -, htick, -, -, hbuilt, hlevel, hticks, -⟩ :=
    oneTick_delivers code ⟨.intOn, l, false, false, .systemMode, ⟨0, 0, 0, 0⟩, 0, [], [], []⟩
      (.schedule timer .empty hinsert) (show MachineStatus.systemMode ≠ .idleMode by decide) hcode
  exact ⟨l, yields, s', hinsert, htick, hbuilt, hlevel, hticks⟩

end Interrupt
end NachOS
