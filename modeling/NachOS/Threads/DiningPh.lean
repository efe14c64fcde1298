import NachOS.Threads.Monitors

/-!
# The dining philosophers

`DiningPh` of `diningph.cc`, a monitor with a lock and a condition variable for each philosopher.
`pickup` waits only once, without testing again what it waits for. That is enough: whoever signals
a philosopher has made it eat before, and only itself can end that.

`returns` only records what has happened: nothing in the functions reads it.
-/

namespace NachOS

open PartialRun

/-- What a philosopher does. -/
inductive PhState where
  | thinking
  | hungry
  | eating
deriving DecidableEq, Repr

/-- The lock, the condition variables, and the thread of each philosopher. -/
structure DiningPh where
  dp : ℕ
  self : Fin 5 → ℕ
  thread : Fin 5 → ℕ
  self_injective : Function.Injective self
  thread_injective : Function.Injective thread

namespace DiningPh

/-- Where the thread of a philosopher is. -/
inductive Method where
  /-- In no method, and `pickup` is the next one. -/
  | think
  /-- In `dp->Acquire()` of `pickup`. -/
  | pickupAcquire
  /-- In the `Signal` of `test`, in `pickup`. -/
  | pickupSignal
  /-- In `self[who]->Wait(dp)`. -/
  | pickupWait
  /-- In `dp->Release()` of `pickup`. -/
  | pickupRelease
  /-- In no method, and `putdown` is the next one. -/
  | eat
  | putdownAcquire
  /-- In the `Signal` of the first `test`, in `putdown`. -/
  | putdownSignalLeft
  /-- In that of the second one. -/
  | putdownSignalRight
  | putdownRelease
deriving DecidableEq, Repr

def Method.role : Method → Kernel.Role
  | .think | .eat => .outside
  | .pickupAcquire | .pickupWait | .putdownAcquire => .acquiring
  | .pickupSignal | .putdownSignalLeft | .putdownSignalRight => .holding
  | .pickupRelease | .putdownRelease => .releasing

/-- The philosophers, and their threads. -/
structure State where
  kernel : Kernel
  state : Fin 5 → PhState
  method : Fin 5 → Method
  /-- Who has returned from `pickup`, and what the philosophers did then. -/
  returns : List (Fin 5 × (Fin 5 → PhState))

/-- What can happen. -/
inductive Event where
  /-- Something that is not part of a method, or the next instruction of the routine a method
  has called. -/
  | kernel (e : Kernel.Event)
  /-- The running thread calls `pickup` for its philosopher. -/
  | pickup
  | putdown
  /-- The running thread is back from the routine that its method has called, and goes on. -/
  | proceed
deriving DecidableEq, Repr

section

variable (q : DiningPh)

/-- The philosopher of a thread. -/
def who (t : ℕ) : Option (Fin 5) := (List.finRange 5).find? fun i => q.thread i = t

/-- Where a thread is in the methods. -/
def role (method : Fin 5 → Method) (t : ℕ) : Kernel.Role :=
  match q.who t with
  | none => .outside
  | some i => (method i).role

/-- A call that has to do with the lock or the condition variables. -/
def Uses : Kernel.Call → Prop
  | .acquire l | .release l => l = q.dp
  | .wait c l => l = q.dp ∨ ∃ i, c = q.self i
  | .signal c | .broadcast c => ∃ i, c = q.self i
  | _ => False

instance : (c : Kernel.Call) → Decidable (q.Uses c)
  | .acquire _ | .release _ => inferInstanceAs (Decidable (_ = _))
  | .wait _ _ => inferInstanceAs (Decidable (_ ∨ ∃ _, _))
  | .signal _ | .broadcast _ => inferInstanceAs (Decidable (∃ _, _))
  | .setLevel _ | .p _ | .v _ | .destroy _ | .yield | .sleep | .fork _ | .finish
  | .userInstruction => isFalse id

/-- The running thread, in no method, calls a routine that does not use the monitor. -/
def Foreign (s : State) : Kernel.Event → Prop
  | .call c => q.role s.method s.kernel.currentThread = .outside ∧ ¬ q.Uses c
  | _ => True

instance (s : State) : (e : Kernel.Event) → Decidable (q.Foreign s e)
  | .call _ => inferInstanceAs (Decidable (_ ∧ _))
  | .exec | .tick _ | .idle _ => isTrue trivial

/-! ## The methods -/

/-- The condition in `test`. -/
def CanEat (state : Fin 5 → PhState) (i : Fin 5) : Prop :=
  state (i + 4) ≠ .eating ∧ state i = .hungry ∧ state (i + 1) ≠ .eating

instance (state : Fin 5 → PhState) (i : Fin 5) : Decidable (CanEat state i) :=
  inferInstanceAs (Decidable (_ ∧ _ ∧ _))

/-- The running thread, that of a philosopher, calls a routine. -/
def callRoutine (s : State) (i : Fin 5) (c : Kernel.Call) (method : Method) :
    Except Stop State := do
  let kernel ← s.kernel.step (.call c)
  return { s with kernel := kernel, method := Function.update s.method i method }

/-- `state[j] = Eating; self[j]->Signal(dp);` in `test`. -/
def signal (s : State) (i j : Fin 5) (method : Method) : Except Stop State :=
  callRoutine { s with state := Function.update s.state j .eating } i (.signal (q.self j)) method

/-- `pickup` after `test`. -/
def pickupRest (s : State) (i : Fin 5) : Except Stop State :=
  if s.state i = .hungry then callRoutine s i (.wait (q.self i) q.dp) .pickupWait
  else callRoutine s i (.release q.dp) .pickupRelease

/-- `putdown` from the second `test` on. -/
def putdownRest (s : State) (i : Fin 5) : Except Stop State :=
  if CanEat s.state (i + 1) then q.signal s i (i + 1) .putdownSignalRight
  else callRoutine s i (.release q.dp) .putdownRelease

/-- The rest of a method, up to the next call. -/
def proceed (s : State) (i : Fin 5) : Except Stop State :=
  match s.method i with
  | .think | .eat => .error .impossible
  | .pickupAcquire =>
    -- `test` of the philosopher itself: both sticks at once, or a wait
    let s := { s with state := Function.update s.state i .hungry }
    if CanEat s.state i then q.signal s i i .pickupSignal else q.pickupRest s i
  | .pickupSignal => q.pickupRest s i
  -- an `if` around the `Wait`: the state is not tested again
  | .pickupWait => callRoutine s i (.release q.dp) .pickupRelease
  | .pickupRelease => .ok { s with
      method := Function.update s.method i .eat
      returns := s.returns ++ [(i, s.state)] }
  | .putdownAcquire =>
    -- `test` of the neighbours, one after the other: the left one is `i + 4`
    let s := { s with state := Function.update s.state i .thinking }
    if CanEat s.state (i + 4) then q.signal s i (i + 4) .putdownSignalLeft
    else q.putdownRest s i
  | .putdownSignalLeft => q.putdownRest s i
  | .putdownSignalRight => callRoutine s i (.release q.dp) .putdownRelease
  | .putdownRelease => .ok { s with method := Function.update s.method i .think }

def step (s : State) : Event → Except Stop State
  | .kernel e =>
    if q.Foreign s e then do
      let kernel ← s.kernel.step e
      return { s with kernel := kernel }
    else .error .impossible
  | .pickup =>
    match q.who s.kernel.currentThread with
    | none => .error .impossible
    | some i =>
      if s.method i = .think then callRoutine s i (.acquire q.dp) .pickupAcquire
      else .error .impossible
  | .putdown =>
    match q.who s.kernel.currentThread with
    | none => .error .impossible
    | some i =>
      if s.method i = .eat then callRoutine s i (.acquire q.dp) .putdownAcquire
      else .error .impossible
  | .proceed =>
    match q.who s.kernel.currentThread, s.kernel.code s.kernel.currentThread with
    | some i, [] => q.proceed s i
    | _, _ => .error .impossible

/-- The monitor that has just been made, and that nobody uses yet. -/
structure Booted (s : State) : Prop where
  kernel : s.kernel.Booted
  state : ∀ i, s.state i = .thinking
  method : ∀ i, s.method i = .think
  returns : s.returns = []

end

/-! ## Who sits where -/

section

variable {q : DiningPh} {method : Fin 5 → Method} {t : ℕ} {i : Fin 5}

/-- A thread is the philosopher it runs. -/
theorem who_eq_some : q.who t = some i ↔ q.thread i = t := by
  constructor
  · intro h
    simpa using List.find?_some h
  · intro h
    cases hfind : q.who t with
    | none =>
      have hnot := List.find?_eq_none.mp hfind i (List.mem_finRange i)
      simp [h] at hnot
    | some j =>
      have hj : q.thread j = t := by simpa using List.find?_some hfind
      rw [q.thread_injective (hj.trans h.symm)]

theorem role_thread (method : Fin 5 → Method) (i : Fin 5) :
    q.role method (q.thread i) = (method i).role := by
  rw [role, who_eq_some.mpr rfl]

/-- A philosopher's step changes the role of its own thread. -/
theorem role_update (method : Fin 5 → Method) (i : Fin 5) (m : Method) :
    q.role (Function.update method i m) =
      Function.update (q.role method) (q.thread i) m.role := by
  funext t
  by_cases ht : t = q.thread i
  · rw [ht, role_thread, Function.update_self, Function.update_self]
  · rw [Function.update_of_ne ht, role, role]
    cases hwho : q.who t with
    | none => rfl
    | some j =>
      have hne : j ≠ i := by
        rintro rfl
        exact ht (who_eq_some.mp hwho).symm
      dsimp only
      rw [Function.update_of_ne hne]

end

/-! ## Chopsticks -/

section

variable {state : Fin 5 → PhState} {i j : Fin 5}

/-- A neighbour eats. -/
def Fed (state : Fin 5 → PhState) (j : Fin 5) : Prop :=
  state (j + 4) = .eating ∨ state (j + 1) = .eating

/-- No two neighbours eat. -/
def Apart (state : Fin 5 → PhState) : Prop :=
  ∀ i, ¬ (state i = .eating ∧ state (i + 1) = .eating)

theorem right_left (i : Fin 5) : i + 1 + 4 = i := by
  revert i
  decide

theorem left_right (i : Fin 5) : i + 4 + 1 = i := by
  revert i
  decide

theorem right_ne (i : Fin 5) : i + 1 ≠ i := by
  revert i
  decide

theorem left_ne (i : Fin 5) : i + 4 ≠ i := by
  revert i
  decide

theorem eq_left_of_right (h : j + 1 = i) : j = i + 4 := by rw [← h, right_left]

theorem eq_right_of_left (h : j + 4 = i) : j = i + 1 := by rw [← h, left_right]

/-- A philosopher that `CanEat` may start to, without a neighbour eating. -/
theorem CanEat.apart (hcan : CanEat state j) (h : Apart state) :
    Apart (Function.update state j .eating) := by
  intro i hboth
  obtain ⟨hi, hright⟩ := hboth
  by_cases heq : i = j
  · rw [heq, Function.update_of_ne (right_ne j)] at hright
    exact hcan.2.2 hright
  · rw [Function.update_of_ne heq] at hi
    by_cases hnext : i + 1 = j
    · rw [eq_left_of_right hnext] at hi
      exact hcan.1 hi
    · rw [Function.update_of_ne hnext] at hright
      exact h i ⟨hi, hright⟩

/-- Stopping to eat, or becoming hungry, brings no two neighbours together. -/
theorem Apart.update (h : Apart state) {x : PhState} (hx : x ≠ .eating) :
    Apart (Function.update state j x) := by
  intro i hboth
  obtain ⟨hi, hright⟩ := hboth
  have hkept : ∀ k, Function.update state j x k = .eating → state k = .eating := by
    intro k hk
    by_cases heq : k = j
    · rw [heq, Function.update_self] at hk
      exact absurd hk hx
    · rwa [Function.update_of_ne heq] at hk
  exact h i ⟨hkept i hi, hkept _ hright⟩

/-- A hungry philosopher who cannot eat has a neighbour who does. -/
theorem fed_of_not_canEat (hungry : state j = .hungry) (h : ¬ CanEat state j) : Fed state j := by
  by_contra hfed
  exact h ⟨fun hleft => hfed (.inl hleft), hungry, fun hright => hfed (.inr hright)⟩

/-- A philosopher next to one that eats stays so when another one starts to eat. -/
theorem Fed.eat (h : Fed state j) (k : Fin 5) : Fed (Function.update state k .eating) j := by
  have hkept : ∀ n, state n = .eating → Function.update state k .eating n = .eating := by
    intro n hn
    by_cases heq : n = k
    · rw [heq, Function.update_self]
    · rwa [Function.update_of_ne heq]
  exact h.imp (hkept _) (hkept _)

/-- Whether a neighbour eats depends on the two neighbours only. -/
theorem Fed.update_of_ne (h : Fed state j) {x : PhState} (hleft : j + 4 ≠ i)
    (hright : j + 1 ≠ i) : Fed (Function.update state i x) j := by
  unfold Fed
  rwa [Function.update_of_ne hleft, Function.update_of_ne hright]

/-- One who did not eat feeds nobody. -/
theorem Fed.update (h : Fed state j) (hi : state i ≠ .eating) (x : PhState) :
    Fed (Function.update state i x) j := by
  have hkept : ∀ n, state n = .eating → Function.update state i x n = .eating := by
    intro n hn
    rw [Function.update_of_ne]
    · exact hn
    · rintro rfl
      exact hi hn
  exact h.imp (hkept _) (hkept _)

end

/-! ## The invariant -/

/-- What a philosopher does, by where its thread is. -/
def Method.Agrees (m : Method) (x : PhState) : Prop :=
  match m with
  | .think | .pickupAcquire | .putdownSignalLeft | .putdownSignalRight | .putdownRelease =>
    x = .thinking
  | .pickupSignal | .pickupRelease | .eat | .putdownAcquire => x = .eating
  | .pickupWait => x = .hungry ∨ x = .eating

/-- The threads, the lock and the condition variables are as the states of the philosophers
say. -/
structure Consistent (q : DiningPh) (s : State) : Prop where
  monitor : Kernel.Monitor q.dp (q.role s.method) s.kernel
  agrees : ∀ i, (s.method i).Agrees (s.state i)
  signals : ∀ t i, .signal (q.self i) ∈ s.kernel.code t →
    s.state i = .eating ∧ q.role s.method t = .holding
  broadcasts : ∀ t i, .broadcast (q.self i) ∉ s.kernel.code t
  waits : ∀ i, s.method i = .pickupWait → s.state i = .eating ∨
    .appendHilos (q.self i) ∈ s.kernel.code (q.thread i) ∨
    q.thread i ∈ s.kernel.hilos (q.self i)
  apart : Apart s.state
  fed : ∀ j, s.state j = .hungry → Fed s.state j ∨ s.method (j + 4) = .putdownSignalLeft
  returns : ∀ r ∈ s.returns, r.2 r.1 = .eating

section

variable {q : DiningPh} {s s' : State} {k' : Kernel} {e : Kernel.Event} {c : Kernel.Call}
  {i : Fin 5}

/-! ## Steps of the kernel -/

theorem not_usesLock (huses : ¬ q.Uses c) : ¬ Kernel.UsesLock q.dp c := by
  cases c with
  | acquire l => exact huses
  | release l => exact huses
  | wait n l => exact fun h => huses (.inl h)
  | _ => exact id

/-- A routine that does not use the monitor does not use its condition variables. -/
theorem not_mem_routine (huses : ¬ q.Uses c) (i : Fin 5) :
    .signal (q.self i) ∉ c.routine ∧ .broadcast (q.self i) ∉ c.routine := by
  cases c with
  | signal n =>
    have hne : ¬ q.self i = n := fun h => huses ⟨i, h.symm⟩
    simp [Kernel.Call.routine, conditionSignal, hne]
  | broadcast n =>
    have hne : ¬ q.self i = n := fun h => huses ⟨i, h.symm⟩
    simp [Kernel.Call.routine, conditionBroadcast, hne]
  | _ =>
    simp [Kernel.Call.routine, semaphoreP, semaphoreV, semaphoreDestroy, lockAcquire, lockRelease,
      conditionWait, threadYield, threadFork, threadFinish]

/-- A thread that enters the list of a condition variable is in it. -/
theorem mem_hilos_of_executes {k : Kernel} {n : ℕ} (h : k.step e = .ok k')
    (hexec : Kernel.Executes (.appendHilos n) k e) : k.currentThread ∈ k'.hilos n := by
  have hhilos := Kernel.step_hilos h n
  have hsignals : ¬ Kernel.Signals n k e := fun hs => by cases hexec.eq hs
  have hbroadcasts : ¬ Kernel.Broadcasts n k e := fun hb => by cases hexec.eq hb
  have henlists : Kernel.enlists n k e = [k.currentThread] := if_pos hexec
  rw [Kernel.wakes, if_neg hsignals, if_neg hbroadcasts, List.nil_append, henlists] at hhilos
  rw [← hhilos]
  exact List.mem_append_right _ List.mem_cons_self

/-- Something outside of the methods, or in a routine that a method has called. -/
theorem Consistent.kernel (hs : q.Consistent s) (hforeign : q.Foreign s e)
    (h : s.kernel.step e = .ok k') : q.Consistent { s with kernel := k' } := by
  have hsilent : ∀ t, q.role s.method t ≠ .outside → s.kernel.Silent t e := by
    intro t ht hcur c he
    subst he
    rw [← hcur] at ht
    exact ht hforeign.1
  have huses : ∀ c, e = .call c → ¬ q.Uses c := by
    intro c he
    subst he
    exact hforeign.2
  refine ⟨hs.monitor.step hsilent (fun c he => not_usesLock (huses c he)) h, hs.agrees,
    fun t i hmem => ?signals, fun t i hmem => ?broadcasts, fun i hwait => ?waits, hs.apart, hs.fed,
    hs.returns⟩
  case signals =>
    -- the calls of others signal none of the philosophers' conditions
    rcases Kernel.step_old hs.monitor.placed h rfl hmem with hmem | hnew
    · exact hs.signals t i hmem
    · rcases hnew.2 with hcall | hretry
      · obtain ⟨c, he, hmem⟩ := hcall
        exact absurd hmem (not_mem_routine (huses c he) i).1
      · obtain ⟨n, hn, -⟩ := hretry
        cases hn
  case broadcasts =>
    rcases Kernel.step_old hs.monitor.placed h rfl hmem with hmem | hnew
    · exact hs.broadcasts t i hmem
    · rcases hnew.2 with hcall | hretry
      · obtain ⟨c, he, hmem⟩ := hcall
        exact absurd hmem (not_mem_routine (huses c he) i).2
      · obtain ⟨n, hn, -⟩ := hretry
        cases hn
  case waits =>
    have hcreated : s.kernel.created (q.thread i) = true := by
      apply hs.monitor.created
      rw [role_thread, hwait]
      simp [Method.role]
    rcases hs.waits i hwait with heating | happend | hlist
    · exact .inl heating
    · -- still on its way into the list, or in it by this step
      rcases Kernel.step_kept hs.monitor.placed h rfl hcreated happend with hmem | hexec
      · exact .inr (.inl hmem)
      · refine .inr (.inr ?_)
        show q.thread i ∈ k'.hilos (q.self i)
        rw [hexec.1]
        exact mem_hilos_of_executes h hexec.2
    · -- whoever signals it has made it eat
      by_cases hsignals : Kernel.Signals (q.self i) s.kernel e
      · exact .inl (hs.signals _ i (Kernel.Executes.mem hsignals)).1
      · have hbroadcasts : ¬ Kernel.Broadcasts (q.self i) s.kernel e :=
          fun hb => hs.broadcasts _ i (Kernel.Executes.mem hb)
        have hkept := (Kernel.step_wakes h (q.self i)).2.2 hsignals hbroadcasts
        exact .inr (.inr (hkept.mem hlist))

/-! ## Steps of a method -/

/-- A thread that goes on with the lock is the only one that holds it. -/
theorem Consistent.alone (hs : q.Consistent s) (hcur : q.thread i = s.kernel.currentThread)
    (hcode : s.kernel.code s.kernel.currentThread = [])
    (hrole : (s.method i).role = .acquiring ∨ (s.method i).role = .holding) {t : ℕ}
    (ht : q.role s.method t = .holding) : t = q.thread i := by
  have hrole' : q.role s.method s.kernel.currentThread = .acquiring ∨
      q.role s.method s.kernel.currentThread = .holding := by
    rw [← hcur, role_thread]
    exact hrole
  have hinside := hs.monitor.inside_eq hcode hrole'
  have hin := hs.monitor.holding t ht
  rw [hinside, List.mem_singleton] at hin
  rw [hin, hcur]

/-- What a method may do before it calls the next routine. -/
structure Turn (q : DiningPh) (s : State) (i : Fin 5) (state' : Fin 5 → PhState)
    (c : Kernel.Call) (m : Method) : Prop where
  enters : Kernel.Enters q.dp c m.role s.kernel
  others : ∀ j, j ≠ i → state' j = s.state j ∨ s.state j = .hungry ∧ state' j = .eating
  own : state' i = s.state i ∨ ∀ t, q.role s.method t = .holding → t = q.thread i
  agrees : m.Agrees (state' i)
  signals : ∀ j, .signal (q.self j) ∈ c.routine → state' j = .eating ∧ m.role = .holding
  broadcasts : ∀ j, .broadcast (q.self j) ∉ c.routine
  waits : m = .pickupWait → .appendHilos (q.self i) ∈ c.routine
  apart : Apart state'
  fed : ∀ j, state' j = .hungry →
    Fed state' j ∨ Function.update s.method i m (j + 4) = .putdownSignalLeft

/-- One who eats goes on to, unless it is its own turn. -/
theorem Turn.eating {state' : Fin 5 → PhState} {m : Method} (h : Turn q s i state' c m)
    {j : Fin 5} (hj : j ≠ i) (heating : s.state j = .eating) : state' j = .eating := by
  rcases h.others j hj with hsame | hnew
  · rw [hsame, heating]
  · exact hnew.2

/-- One turn under the lock keeps the invariant, given what it does to the states. -/
theorem Turn.consistent {state' : Fin 5 → PhState} {m : Method} (h : Turn q s i state' c m)
    (hs : q.Consistent s) (hcur : q.thread i = s.kernel.currentThread)
    (hcall : callRoutine { s with state := state' } i c m = .ok s') : q.Consistent s' := by
  obtain ⟨k', hst, hs'⟩ := bind_ok_iff.mp hcall
  rw [pure_ok_iff] at hs'
  subst hs'
  have hst : s.kernel.step (.call c) = .ok k' := hst
  have hcalled := Kernel.call_called hs.monitor.placed.current hst
  have hmonitor := hs.monitor.call h.enters hst
  rw [← hcur, ← role_update] at hmonitor
  have hself : Function.update s.method i m i = m := Function.update_self _ _ _
  have hother : ∀ {j}, j ≠ i → Function.update s.method i m j = s.method j :=
    fun hj => Function.update_of_ne hj _ _
  -- the call changes the role of the running thread only
  have hrole : ∀ {t}, t ≠ s.kernel.currentThread →
      q.role (Function.update s.method i m) t = q.role s.method t := by
    intro t ht
    rw [role_update, Function.update_of_ne (by rw [hcur]; exact ht)]
  refine ⟨hmonitor, fun j => ?agrees, fun t j hmem => ?signals, fun t j hmem => ?broadcasts,
    fun j hwait => ?waits, h.apart, h.fed, hs.returns⟩
  case agrees =>
    show (Function.update s.method i m j).Agrees (state' j)
    by_cases hj : j = i
    · rw [hj, hself]
      exact h.agrees
    · rw [hother hj]
      have hagrees := hs.agrees j
      rcases h.others j hj with hsame | hnew
      · rwa [hsame]
      · -- only one who waits is hungry
        rw [hnew.1] at hagrees
        rw [hnew.2]
        cases hmethod : s.method j with
        | pickupWait => exact .inr rfl
        | _ =>
          rw [hmethod] at hagrees
          cases hagrees
  case signals =>
    show state' j = .eating ∧ q.role (Function.update s.method i m) t = .holding
    by_cases ht : t = s.kernel.currentThread
    · have hmem : _ ∈ k'.code t := hmem
      rw [ht, hcalled.code] at hmem
      rw [ht, ← hcur, role_thread, hself]
      exact h.signals j hmem
    · -- a signal that another thread has ahead: the philosopher it is for still eats
      obtain ⟨heating, hholding⟩ := hs.signals t j ((hcalled.mem_code ht rfl).1 hmem)
      rw [hrole ht]
      refine ⟨?_, hholding⟩
      by_cases hj : j = i
      · rcases h.own with hsame | halone
        · rw [hj, hsame, ← hj, heating]
        · exact absurd ((halone t hholding).trans hcur) ht
      · exact h.eating hj heating
  case broadcasts =>
    by_cases ht : t = s.kernel.currentThread
    · have hmem : _ ∈ k'.code t := hmem
      rw [ht, hcalled.code] at hmem
      exact h.broadcasts j hmem
    · exact hs.broadcasts t j ((hcalled.mem_code ht rfl).1 hmem)
  case waits =>
    -- who waits is in the list, on the way into it, or has been fed
    have hwait : Function.update s.method i m j = .pickupWait := hwait
    show state' j = .eating ∨ .appendHilos (q.self j) ∈ k'.code (q.thread j) ∨
      q.thread j ∈ k'.hilos (q.self j)
    by_cases hj : j = i
    · rw [hj, hself] at hwait
      rw [hj, hcur, hcalled.code]
      exact .inr (.inl (h.waits hwait))
    · rw [hother hj] at hwait
      have hne : q.thread j ≠ s.kernel.currentThread := by
        intro heq
        exact hj (q.thread_injective (heq.trans hcur.symm))
      have hcreated : s.kernel.created (q.thread j) = true := by
        apply hs.monitor.created
        rw [role_thread, hwait]
        simp [Method.role]
      rcases hs.waits j hwait with heating | happend | hlist
      · exact .inl (h.eating hj heating)
      · exact .inr (.inl ((hcalled.mem_code hne rfl).2 hcreated happend))
      · refine .inr (.inr ?_)
        rw [hcalled.frame]
        exact hlist

/-- Another philosopher in the middle of `putdown` would hold the lock. -/
theorem Consistent.fed_of_alone (hs : q.Consistent s)
    (halone : ∀ t, q.role s.method t = .holding → t = q.thread i)
    {j : Fin 5} (hj : j ≠ i + 1 ∨ s.method i ≠ .putdownSignalLeft)
    (hungry : s.state j = .hungry) : Fed s.state j := by
  rcases hs.fed j hungry with hfed | hleft
  · exact hfed
  · have hthread : q.thread (j + 4) = q.thread i := by
      apply halone
      rw [role_thread, hleft]
      rfl
    have heq : j + 4 = i := q.thread_injective hthread
    rcases hj with hj | hj
    · exact absurd (eq_right_of_left heq) hj
    · rw [heq] at hleft
      exact absurd hleft hj

/-- A `Signal` is on the condition of the philosopher it is for. -/
theorem signal_mem_routine {j k : Fin 5}
    (h : .signal (q.self j) ∈ (Kernel.Call.signal (q.self k)).routine) : j = k := by
  simp only [Kernel.Call.routine, conditionSignal, List.mem_cons, reduceCtorEq, Instr.signal.injEq,
    List.not_mem_nil, or_false, false_or] at h
  exact q.self_injective h

theorem lock_routine_plain (n : ℕ) (j : Fin 5) :
    (.signal (q.self j) ∉ (Kernel.Call.acquire n).routine ∧
      .broadcast (q.self j) ∉ (Kernel.Call.acquire n).routine) ∧
    (.signal (q.self j) ∉ (Kernel.Call.release n).routine ∧
      .broadcast (q.self j) ∉ (Kernel.Call.release n).routine) := by
  simp [Kernel.Call.routine, lockAcquire, lockRelease, semaphoreP, semaphoreV]

theorem wait_routine_plain (n l : ℕ) (j : Fin 5) :
    .signal (q.self j) ∉ (Kernel.Call.wait n l).routine ∧
      .broadcast (q.self j) ∉ (Kernel.Call.wait n l).routine ∧
      .appendHilos n ∈ (Kernel.Call.wait n l).routine := by
  simp [Kernel.Call.routine, conditionWait, lockAcquire, lockRelease, semaphoreP, semaphoreV]

/-- The first step of a method. -/
theorem acquire_consistent {m : Method} (hs : q.Consistent s)
    (hcur : q.thread i = s.kernel.currentThread) (hm : m.role = .acquiring) (hne : m ≠ .pickupWait)
    (hold : s.method i ≠ .putdownSignalLeft) (hagrees : m.Agrees (s.state i))
    (h : callRoutine s i (.acquire q.dp) m = .ok s') : q.Consistent s' := by
  suffices hturn : Turn q s i s.state (.acquire q.dp) m from hturn.consistent hs hcur h
  refine ⟨hm ▸ Kernel.enters_acquire, fun j _ => .inl rfl, .inl rfl, hagrees,
    fun j hmem => absurd hmem (lock_routine_plain q.dp j).1.1,
    fun j => (lock_routine_plain q.dp j).1.2, fun hwait => absurd hwait hne, hs.apart,
    fun j hungry => ?_⟩
  rcases hs.fed j hungry with hfed | hleft
  · exact .inl hfed
  · refine .inr ?_
    rw [Function.update_of_ne]
    · exact hleft
    · rintro heq
      rw [heq] at hleft
      exact hold hleft

/-- The thread of the philosopher goes on, and has the lock. -/
structure Owns (q : DiningPh) (s : State) (i : Fin 5) : Prop where
  cur : q.thread i = s.kernel.currentThread
  code : s.kernel.code s.kernel.currentThread = []
  role : (s.method i).role = .acquiring ∨ (s.method i).role = .holding

/-- The philosopher that goes on inside the monitor holds its lock. -/
theorem Owns.holding (h : Owns q s i) (hs : q.Consistent s) :
    s.kernel.currentThread ∈ (s.kernel.lock q.dp).holding := by
  apply hs.monitor.mem_holding h.code
  rw [← h.cur, role_thread]
  exact h.role

/-- So no other philosopher is at the same place. -/
theorem Owns.alone (h : Owns q s i) (hs : q.Consistent s) :
    ∀ t, q.role s.method t = .holding → t = q.thread i :=
  fun _ ht => hs.alone h.cur h.code h.role ht

/-- The last step of a method with the lock. -/
theorem release_consistent {state' : Fin 5 → PhState} {m : Method} (hs : q.Consistent s)
    (howns : Owns q s i) (hm : m.role = .releasing)
    (hothers : ∀ j, j ≠ i → state' j = s.state j ∨ s.state j = .hungry ∧ state' j = .eating)
    (hagrees : m.Agrees (state' i)) (hapart : Apart state')
    (hfed : ∀ j, state' j = .hungry → Fed state' j)
    (h : callRoutine { s with state := state' } i (.release q.dp) m = .ok s') :
    q.Consistent s' := by
  refine Turn.consistent ?_ hs howns.cur h
  refine ⟨hm ▸ Kernel.enters_release (howns.holding hs), hothers, .inr (howns.alone hs), hagrees,
    fun j hmem => absurd hmem (lock_routine_plain q.dp j).2.1,
    fun j => (lock_routine_plain q.dp j).2.2, fun hwait => ?_, hapart,
    fun j hungry => .inl (hfed j hungry)⟩
  rw [hwait] at hm
  cases hm

/-- A philosopher is made to eat and signalled. -/
theorem signal_consistent {state' : Fin 5 → PhState} {k : Fin 5} {m : Method}
    (hs : q.Consistent s) (howns : Owns q s i) (hm : m.role = .holding)
    (hcan : CanEat state' k)
    (hothers : ∀ j, j ≠ i → state' j = s.state j ∨ s.state j = .hungry ∧ state' j = .eating)
    (hagrees : m.Agrees (Function.update state' k .eating i)) (hapart : Apart state')
    (hfed : ∀ j, state' j = .hungry → j ≠ k → Fed state' j ∨
      Function.update s.method i m (j + 4) = .putdownSignalLeft)
    (h : q.signal { s with state := state' } i k m = .ok s') : q.Consistent s' := by
  suffices hturn : Turn q s i (Function.update state' k .eating) (.signal (q.self k)) m from
    hturn.consistent hs howns.cur h
  have hfree : ¬ Kernel.UsesLock q.dp (.signal (q.self k)) := id
  refine ⟨?enters, fun j hj => ?others, .inr (howns.alone hs), hagrees, fun j hmem => ?signals,
    fun j => ?broadcasts, fun hwait => ?waits, hcan.apart hapart, fun j hungry => ?fed⟩
  case enters =>
    rw [hm]
    exact Kernel.enters_other hs.monitor.exclusive (howns.holding hs) hfree
  case others =>
    by_cases heq : j = k
    · rw [heq, Function.update_self]
      rw [heq] at hj
      rcases hothers k hj with hsame | hnew
      · exact .inr ⟨hsame.symm.trans hcan.2.1, rfl⟩
      · exact .inr ⟨hnew.1, rfl⟩
    · rw [Function.update_of_ne heq]
      exact hothers j hj
  case signals =>
    rw [signal_mem_routine hmem, Function.update_self]
    exact ⟨rfl, hm⟩
  case broadcasts => simp [Kernel.Call.routine, conditionSignal]
  case waits =>
    rw [hwait] at hm
    cases hm
  case fed =>
    have hne : j ≠ k := by
      rintro rfl
      rw [Function.update_self] at hungry
      cases hungry
    rw [Function.update_of_ne hne] at hungry
    exact (hfed j hungry hne).imp_left fun hfed => hfed.eat k

/-! ## `pickup` -/

/-- The test of `pickup` fails, and the philosopher waits. -/
theorem wait_consistent (hs : q.Consistent s) (howns : Owns q s i)
    (hmethod : s.method i = .pickupAcquire)
    (hcan : ¬ CanEat (Function.update s.state i .hungry) i)
    (h : callRoutine { s with state := Function.update s.state i .hungry } i
      (.wait (q.self i) q.dp) .pickupWait = .ok s') : q.Consistent s' := by
  have hthinking : s.state i = .thinking := by
    have hagrees := hs.agrees i
    rwa [hmethod] at hagrees
  have hold : s.method i ≠ .putdownSignalLeft := by simp [hmethod]
  refine Turn.consistent ?_ hs howns.cur h
  refine ⟨Kernel.enters_wait (howns.holding hs) (q.self i), fun j hj => ?_,
    .inr (howns.alone hs), ?_, fun j hmem => absurd hmem (wait_routine_plain _ _ j).1,
    fun j => (wait_routine_plain _ _ j).2.1, fun _ => (wait_routine_plain (q := q) _ _ i).2.2,
    hs.apart.update (by simp), fun j hungry => ?_⟩
  · exact .inl (Function.update_of_ne hj _ _)
  · rw [Function.update_self]
    exact .inl rfl
  · by_cases hj : j = i
    · rw [hj] at hungry ⊢
      exact .inl (fed_of_not_canEat hungry hcan)
    · rw [Function.update_of_ne hj] at hungry
      have hfed := hs.fed_of_alone (howns.alone hs) (.inr hold) hungry
      exact .inl (hfed.update (by simp [hthinking]) _)

/-- `Pickup`: the philosopher eats at once or waits, hungry. -/
theorem pickup_consistent (hs : q.Consistent s) (howns : Owns q s i)
    (hmethod : s.method i = .pickupAcquire) (h : q.proceed s i = .ok s') : q.Consistent s' := by
  have hthinking : s.state i = .thinking := by
    have hagrees := hs.agrees i
    rwa [hmethod] at hagrees
  have hold : s.method i ≠ .putdownSignalLeft := by simp [hmethod]
  rw [proceed, hmethod] at h
  dsimp only at h
  split_ifs at h with hcan
  · refine signal_consistent hs howns rfl hcan (fun j hj => ?_) ?_ (hs.apart.update (by simp))
      (fun j hungry hj => ?_) h
    · exact .inl (Function.update_of_ne hj _ _)
    · rw [Function.update_self]
      rfl
    · rw [Function.update_of_ne hj] at hungry
      have hfed := hs.fed_of_alone (howns.alone hs) (.inr hold) hungry
      exact .inl (hfed.update (by simp [hthinking]) _)
  · rw [pickupRest, if_pos (Function.update_self _ _ _)] at h
    exact wait_consistent hs howns hmethod hcan h

/-- `pickup` goes on to release the lock, and the philosopher eats. -/
theorem pickupRelease_consistent (hs : q.Consistent s) (howns : Owns q s i)
    (hold : s.method i ≠ .putdownSignalLeft) (heating : s.state i = .eating)
    (h : callRoutine s i (.release q.dp) .pickupRelease = .ok s') : q.Consistent s' := by
  have hagrees : Method.Agrees .pickupRelease (s.state i) := heating
  exact release_consistent hs howns rfl (fun j _ => .inl rfl) hagrees hs.apart
    (fun j hungry => hs.fed_of_alone (howns.alone hs) (.inr hold) hungry) h

/-- A thread is back from `Wait` only after it was signalled. -/
theorem Consistent.eating_of_wait (hs : q.Consistent s) (howns : Owns q s i)
    (hmethod : s.method i = .pickupWait) : s.state i = .eating := by
  rcases hs.waits i hmethod with heating | happend | hlist
  · exact heating
  · rw [howns.cur, howns.code] at happend
    cases happend
  · rw [howns.cur] at hlist
    exact absurd ⟨.hilos (q.self i), hlist⟩ (hs.monitor.placed.outside howns.code)

/-! ## `putdown` -/

/-- What `Putdown` does to its neighbours keeps the invariant. -/
theorem putdownRest_consistent {state' : Fin 5 → PhState} (hs : q.Consistent s)
    (howns : Owns q s i)
    (hothers : ∀ j, j ≠ i → state' j = s.state j ∨ s.state j = .hungry ∧ state' j = .eating)
    (hthinking : state' i = .thinking) (hapart : Apart state')
    (hfed : ∀ j, j ≠ i + 1 → state' j = .hungry → Fed state' j)
    (h : q.putdownRest { s with state := state' } i = .ok s') : q.Consistent s' := by
  rw [putdownRest] at h
  split_ifs at h with hcan
  · refine signal_consistent hs howns rfl hcan hothers ?_ hapart (fun j hungry hj => ?_) h
    · rw [Function.update_of_ne (right_ne i).symm]
      exact hthinking
    · exact .inl (hfed j hj hungry)
  · have hagrees : Method.Agrees .putdownRelease (state' i) := hthinking
    refine release_consistent hs howns rfl hothers hagrees hapart (fun j hungry => ?_) h
    by_cases hj : j = i + 1
    · rw [hj] at hungry ⊢
      exact fed_of_not_canEat hungry hcan
    · exact hfed j hj hungry

/-- `Putdown` tests both neighbours, the left one first. -/
theorem putdown_consistent (hs : q.Consistent s) (howns : Owns q s i)
    (hmethod : s.method i = .putdownAcquire) (h : q.proceed s i = .ok s') : q.Consistent s' := by
  have hold : s.method i ≠ .putdownSignalLeft := by simp [hmethod]
  have hothers : ∀ j, j ≠ i → Function.update s.state i .thinking j = s.state j ∨
      s.state j = .hungry ∧ Function.update s.state i .thinking j = .eating :=
    fun j hj => .inl (Function.update_of_ne hj _ _)
  -- only the neighbours can have lost what they waited for
  have hfed : ∀ j, j ≠ i + 1 → j ≠ i + 4 → Function.update s.state i .thinking j = .hungry →
      Fed (Function.update s.state i .thinking) j := by
    intro j hright hleft hungry
    have hj : j ≠ i := by
      rintro rfl
      rw [Function.update_self] at hungry
      cases hungry
    rw [Function.update_of_ne hj] at hungry
    have hfed := hs.fed_of_alone (howns.alone hs) (.inr hold) hungry
    exact hfed.update_of_ne (fun heq => hright (eq_right_of_left heq))
      (fun heq => hleft (eq_left_of_right heq))
  have hapart : Apart (Function.update s.state i .thinking) := hs.apart.update (by simp)
  rw [proceed, hmethod] at h
  dsimp only at h
  split_ifs at h with hcan
  · refine signal_consistent hs howns rfl hcan hothers ?_ hapart (fun j hungry hj => ?_) h
    · rw [Function.update_of_ne (left_ne i).symm, Function.update_self]
      rfl
    · by_cases hright : j = i + 1
      · -- the second neighbour is tested after the `Signal`
        rw [hright, right_left, Function.update_self]
        exact .inr rfl
      · exact .inl (hfed j hright hj hungry)
  · refine putdownRest_consistent hs howns hothers (Function.update_self _ _ _) hapart
      (fun j hright hungry => ?_) h
    by_cases hleft : j = i + 4
    · rw [hleft] at hungry ⊢
      exact fed_of_not_canEat hungry hcan
    · exact hfed j hright hleft hungry

/-! ## All steps -/

/-- The return from a method. -/
theorem return_consistent {m : Method} {returns : List (Fin 5 × (Fin 5 → PhState))}
    (hs : q.Consistent s) (hcur : q.thread i = s.kernel.currentThread)
    (hcode : s.kernel.code s.kernel.currentThread = [])
    (hold : (s.method i).role = .releasing) (hm : m.role = .outside)
    (hagrees : m.Agrees (s.state i)) (hreturns : ∀ r ∈ returns, r.2 r.1 = .eating) :
    q.Consistent { s with method := Function.update s.method i m, returns := returns } := by
  have hmonitor := hs.monitor.finish hcode (by rw [← hcur, role_thread]; exact hold)
  rw [← hcur, ← hm, ← role_update] at hmonitor
  have hother : ∀ {j}, j ≠ i → Function.update s.method i m j = s.method j :=
    fun hj => Function.update_of_ne hj _ _
  refine ⟨hmonitor, fun j => ?agrees, fun t j hmem => ?signals, hs.broadcasts,
    fun j hwait => ?waits, hs.apart, fun j hungry => ?fed, hreturns⟩
  case agrees =>
    show (Function.update s.method i m j).Agrees (s.state j)
    by_cases hj : j = i
    · rw [hj, Function.update_self]
      exact hagrees
    · rw [hother hj]
      exact hs.agrees j
  case signals =>
    obtain ⟨heating, hholding⟩ := hs.signals t j hmem
    refine ⟨heating, ?_⟩
    show q.role (Function.update s.method i m) t = .holding
    have hne : t ≠ q.thread i := by
      rintro rfl
      rw [role_thread, hold] at hholding
      cases hholding
    rw [role_update, Function.update_of_ne hne, hholding]
  case waits =>
    have hwait : Function.update s.method i m j = .pickupWait := hwait
    have hj : j ≠ i := by
      rintro rfl
      rw [Function.update_self] at hwait
      rw [hwait] at hm
      cases hm
    rw [hother hj] at hwait
    exact hs.waits j hwait
  case fed =>
    -- the one who owes `j` a test is still in `putdown`, and `i` is not
    rcases hs.fed j hungry with hfed | hleft
    · exact .inl hfed
    · refine .inr ?_
      show Function.update s.method i m (j + 4) = .putdownSignalLeft
      rw [hother]
      · exact hleft
      · intro heq
        rw [heq] at hleft
        rw [hleft] at hold
        cases hold

/-- A philosopher goes on in its method; the cases are the places it may be at. -/
theorem proceed_consistent (hs : q.Consistent s) (hcur : q.thread i = s.kernel.currentThread)
    (hcode : s.kernel.code s.kernel.currentThread = []) (h : q.proceed s i = .ok s') :
    q.Consistent s' := by
  have hagrees := hs.agrees i
  have howns : (s.method i).role = .acquiring ∨ (s.method i).role = .holding → Owns q s i :=
    fun hrole => ⟨hcur, hcode, hrole⟩
  cases hmethod : s.method i with
  | think =>
    rw [proceed, hmethod] at h
    cases h
  | eat =>
    rw [proceed, hmethod] at h
    cases h
  | pickupAcquire => exact pickup_consistent hs (howns (by rw [hmethod]; exact .inl rfl)) hmethod h
  | pickupSignal =>
    -- after the test in `Pickup` the philosopher eats already and does not wait
    have heating : s.state i = .eating := by rwa [hmethod] at hagrees
    rw [proceed, hmethod] at h
    dsimp only at h
    rw [pickupRest, if_neg (by simp [heating])] at h
    exact pickupRelease_consistent hs (howns (by rw [hmethod]; exact .inr rfl)) (by simp [hmethod])
      heating h
  | pickupWait =>
    have howns' := howns (by rw [hmethod]; exact .inl rfl)
    rw [proceed, hmethod] at h
    exact pickupRelease_consistent hs howns' (by simp [hmethod])
      (hs.eating_of_wait howns' hmethod) h
  | pickupRelease =>
    have heating : s.state i = .eating := by rwa [hmethod] at hagrees
    rw [proceed, hmethod] at h
    cases h
    refine return_consistent hs hcur hcode (by rw [hmethod]; rfl) rfl heating fun r hr => ?_
    rcases List.mem_append.mp hr with hold | hnew
    · exact hs.returns r hold
    · rw [List.mem_singleton.mp hnew]
      exact heating
  | putdownAcquire =>
    exact putdown_consistent hs (howns (by rw [hmethod]; exact .inl rfl)) hmethod h
  | putdownSignalLeft =>
    have howns' := howns (by rw [hmethod]; exact .inr rfl)
    rw [proceed, hmethod] at h
    -- the left neighbour has been tested, the right one is next
    refine putdownRest_consistent hs howns' (fun j _ => .inl rfl) (by rwa [hmethod] at hagrees)
      hs.apart (fun j hj hungry => ?_) h
    exact hs.fed_of_alone (howns'.alone hs) (.inl hj) hungry
  | putdownSignalRight =>
    have howns' := howns (by rw [hmethod]; exact .inr rfl)
    rw [proceed, hmethod] at h
    exact release_consistent hs howns' rfl (fun j _ => .inl rfl) (by rwa [hmethod] at hagrees)
      hs.apart
      (fun j hungry => hs.fed_of_alone (howns'.alone hs) (.inr (by simp [hmethod])) hungry) h
  | putdownRelease =>
    rw [proceed, hmethod] at h
    cases h
    exact return_consistent hs hcur hcode (by rw [hmethod]; rfl) rfl (by rwa [hmethod] at hagrees)
      hs.returns

/-- The step lemma of the monitor. -/
theorem step_consistent {ev : Event} (hs : q.Consistent s) (h : q.step s ev = .ok s') :
    q.Consistent s' := by
  cases ev with
  | kernel e =>
    rw [step] at h
    split_ifs at h with hforeign
    obtain ⟨k', hst, hs'⟩ := bind_ok_iff.mp h
    rw [← pure_ok_iff.mp hs']
    exact hs.kernel hforeign hst
  | pickup =>
    rw [step] at h
    cases hwho : q.who s.kernel.currentThread with
    | none =>
      rw [hwho] at h
      cases h
    | some i =>
      rw [hwho] at h
      dsimp only at h
      split_ifs at h with hmethod
      have hagrees : Method.Agrees .pickupAcquire (s.state i) := by
        have hbefore := hs.agrees i
        rwa [hmethod] at hbefore
      exact acquire_consistent hs (who_eq_some.mp hwho) rfl (by simp) (by simp [hmethod]) hagrees h
  | putdown =>
    rw [step] at h
    cases hwho : q.who s.kernel.currentThread with
    | none =>
      rw [hwho] at h
      cases h
    | some i =>
      rw [hwho] at h
      dsimp only at h
      split_ifs at h with hmethod
      have hagrees : Method.Agrees .putdownAcquire (s.state i) := by
        have hbefore := hs.agrees i
        rwa [hmethod] at hbefore
      exact acquire_consistent hs (who_eq_some.mp hwho) rfl (by simp) (by simp [hmethod]) hagrees h
  | proceed =>
    rw [step] at h
    split at h
    · rename_i i hwho hcode
      exact proceed_consistent hs (who_eq_some.mp hwho) hcode h
    · cases h

theorem Booted.consistent (hboot : Booted s) : q.Consistent s := by
  have hcode : ∀ t instr, instr ∉ s.kernel.code t := by
    intro t instr hmem
    rw [hboot.kernel.code] at hmem
    cases hmem
  have hrole : q.role s.method = fun _ => .outside := by
    funext t
    rw [role]
    cases q.who t with
    | none => rfl
    | some i =>
      dsimp only
      rw [hboot.method]
      rfl
  refine ⟨?monitor, fun i => ?agrees, fun t i hmem => absurd hmem (hcode t _), fun t i => hcode t _,
    fun i hwait => ?waits, fun i hboth => ?apart, fun j hungry => ?fed, fun r hr => ?returns⟩
  case monitor =>
    rw [hrole]
    exact hboot.kernel.monitor q.dp
  case agrees =>
    rw [hboot.method, hboot.state]
    rfl
  case waits =>
    rw [hboot.method] at hwait
    cases hwait
  case apart =>
    rw [hboot.state] at hboth
    cases hboth.1
  case fed =>
    rw [hboot.state] at hungry
    cases hungry
  case returns =>
    rw [hboot.returns] at hr
    cases hr

/-- Under every schedule no two neighbours eat, whoever returns from `pickup` eats, and while
nobody has the lock every hungry philosopher has a neighbour who eats. -/
theorem run_dines {es : List Event} (hboot : Booted s)
    (hrun : PartialRun.run q.step s es = .ok s') :
    (∀ i, ¬ (s'.state i = .eating ∧ s'.state (i + 1) = .eating)) ∧
    (∀ r ∈ s'.returns, r.2 r.1 = .eating) ∧
    (0 < (s'.kernel.semaphore (.lock q.dp)).value →
      ∀ i, s'.state i = .hungry → s'.state (i + 4) = .eating ∨ s'.state (i + 1) = .eating) := by
  have hs : q.Consistent s' :=
    run_invariant (fun _ _ _ hs hst => step_consistent hs hst) hboot.consistent hrun
  refine ⟨hs.apart, hs.returns, fun hfree i hungry => ?_⟩
  rcases hs.fed i hungry with hfed | hleft
  · exact hfed
  · -- a thread in the middle of `putdown` has the lock
    have hin := hs.monitor.holding (q.thread (i + 4)) (by rw [role_thread, hleft]; rfl)
    have hvalue := hs.monitor.exclusive.value
    have hnonempty := List.length_pos_of_mem hin
    omega

end

/-- The monitor whose lock is `0`, and whose condition variables and threads are numbered as the
philosophers are. -/
def table : DiningPh :=
  ⟨0, Fin.val, Fin.val, fun _ _ h => Fin.ext h, fun _ _ h => Fin.ext h⟩

/-- The philosophers in a kernel that has just been booted. -/
def boot : State where
  kernel := Kernel.boot fun _ => 0
  state := fun _ => .thinking
  method := fun _ => .think
  returns := []

theorem boot_booted : Booted boot :=
  ⟨Kernel.boot_booted fun _ => 0, fun _ => rfl, fun _ => rfl, rfl⟩

/-- Philosopher `1` is hungry while philosopher `0` eats, and eats when that one is done. -/
def neighboursRun : List Event := [
  .kernel (.call (.fork 1)), .kernel .exec, .kernel .exec, .kernel .exec, .kernel (.tick []),
  .pickup, .kernel .exec, .kernel .exec, .kernel .exec, .kernel (.tick []), .kernel .exec,
  .proceed, .kernel .exec, .kernel .exec, .kernel .exec, .kernel (.tick []),
  .proceed, .kernel .exec, .kernel .exec, .kernel .exec, .kernel (.tick []), .kernel .exec,
  .proceed, .kernel (.call .yield), .kernel .exec, .kernel .exec, .kernel .exec,
  -- thread 1 waits, and thread 0 is back from `Yield`
  .kernel (.tick []), .pickup, .kernel .exec, .kernel .exec, .kernel .exec, .kernel (.tick []),
  .kernel .exec, .proceed, .kernel .exec, .kernel .exec, .kernel .exec, .kernel .exec,
  .kernel .exec, .kernel .exec, .kernel .exec, .kernel .exec, .kernel (.tick []),
  .putdown, .kernel .exec, .kernel .exec, .kernel .exec, .kernel (.tick []), .kernel .exec,
  .proceed, .kernel .exec, .kernel .exec, .kernel .exec, .kernel (.tick []),
  .proceed, .kernel .exec, .kernel .exec, .kernel .exec, .kernel (.tick []), .kernel .exec,
  .proceed, .kernel (.call .yield), .kernel .exec, .kernel .exec, .kernel .exec, .kernel .exec,
  -- thread 1 is back from `Wait`
  .kernel .exec, .kernel .exec, .kernel .exec, .kernel (.tick []),
  .proceed, .kernel .exec, .kernel .exec, .kernel .exec, .kernel (.tick []), .kernel .exec,
  .proceed]

/-- Both have eaten, in turn. -/
theorem neighboursRun_dines : ∃ s, PartialRun.run table.step boot neighboursRun = .ok s ∧
    s.returns.map Prod.fst = [0, 1] ∧ (∀ r ∈ s.returns, r.2 r.1 = .eating) ∧
    s.state 1 = .eating ∧ s.state 0 ≠ .eating := by
  obtain ⟨s, hrun, hreturns, hone⟩ : ∃ s,
      PartialRun.run table.step boot neighboursRun = .ok s ∧
      s.returns.map Prod.fst = [0, 1] ∧ s.state 1 = .eating := by
    decide +kernel
  obtain ⟨hapart, heating, -⟩ := run_dines boot_booted hrun
  exact ⟨s, hrun, hreturns, heating, hone, fun hzero => hapart 0 ⟨hzero, hone⟩⟩

end DiningPh
end NachOS
