import NachOS.Threads.Execution

/-!
# Synchronised lists

`SynchList` (`synchlist.h`): a list with a lock and a condition variable of its own. The
bodies of `Append` and `Remove` between two calls to these run without a switch, so a thread in
one of the methods is where the last call has left it. The other threads do what they like,
except with the lock and the condition variable.

A signalled thread can be overtaken: its item may be gone when it has the lock again. So what
no wake-up lost means is a count: as long as a thread waits while the lock is free, there are
no more items than signalled threads that have yet to take the lock.
-/

namespace NachOS

open PartialRun Placement

/-- The lock and the condition variable of a synchronised list. -/
structure SynchList where
  lock : ℕ
  listEmpty : ℕ

namespace SynchList

/-- Where a thread is in a method of the list. -/
inductive Method (α : Type) where
  | none
  /-- In `lock->Acquire()` of `Append(item)`. -/
  | appendAcquire (item : α)
  /-- In `listEmpty->Signal(lock)`. -/
  | appendSignal
  /-- In `lock->Release()` of `Append`. -/
  | appendRelease
  /-- In `lock->Acquire()` or in `listEmpty->Wait(lock)` of `Remove`. -/
  | removeLoop
  /-- In `lock->Release()` of `Remove`, which returns the item. -/
  | removeRelease (item : α)

def Method.isNone {α : Type} : Method α → Bool
  | .none => true
  | _ => false

/-- A synchronised list, the threads that use it, and what has happened to it. -/
structure State (α : Type) where
  kernel : Kernel
  list : List α
  method : ℕ → Method α
  /-- The items appended to the list, in this order. -/
  appended : List α
  /-- The items of the threads in `Append`, in the order in which they have taken the lock. -/
  took : List α
  /-- The items removed from the list, in this order, with the threads that have removed them. -/
  removed : List (ℕ × α)
  /-- What the calls of `Remove` have returned, with the threads that have called it. -/
  returned : List (ℕ × α)
  /-- The threads that `Signal` has taken out of the list of `listEmpty` and that have not
  taken the lock since. -/
  signalled : List ℕ

/-- What can happen. -/
inductive Event (α : Type) where
  /-- Something that is not part of a method, or the next instruction of the routine a method
  has called. -/
  | kernel (e : Kernel.Event)
  /-- The running thread calls `Append(item)`. -/
  | append (item : α)
  /-- The running thread calls `Remove()`. -/
  | remove
  /-- The running thread is back from the routine that its method has called, and goes on. -/
  | proceed

/-- A call that has to do with the lock or the condition variable of the list. -/
def Uses (q : SynchList) : Kernel.Call → Prop
  | .acquire l => l = q.lock
  | .release l => l = q.lock
  | .wait c l => c = q.listEmpty ∨ l = q.lock
  | .signal c => c = q.listEmpty
  | .broadcast c => c = q.listEmpty
  | _ => False

instance (q : SynchList) : (c : Kernel.Call) → Decidable (q.Uses c)
  | .acquire _ | .release _ | .signal _ | .broadcast _ => inferInstanceAs (Decidable (_ = _))
  | .wait _ _ => inferInstanceAs (Decidable (_ ∨ _))
  | .setLevel _ | .p _ | .v _ | .destroy _ | .yield | .sleep | .fork _ | .finish
  | .userInstruction => isFalse id

section

variable {α : Type} (q : SynchList)

/-- The running thread, in no method, calls a routine that does not use the list. -/
def Foreign (s : State α) : Kernel.Event → Prop
  | .call c => (s.method s.kernel.currentThread).isNone = true ∧ ¬ q.Uses c
  | _ => True

instance (s : State α) : (e : Kernel.Event) → Decidable (q.Foreign s e)
  | .call _ => inferInstanceAs (Decidable (_ ∧ _))
  | .exec => isTrue trivial
  | .tick _ => isTrue trivial
  | .idle _ => isTrue trivial

/-- The running thread calls a routine of the lock or the condition variable. -/
def call (s : State α) (c : Kernel.Call) (method : Method α) : Except Stop (State α) := do
  let kernel ← s.kernel.step (.call c)
  return { s with
    kernel := kernel
    method := Function.update s.method s.kernel.currentThread method }

/-- The item of a thread that is in `lock->Acquire()` of `Append`. -/
def Method.item? : Method α → Option α
  | .appendAcquire item => some item
  | _ => Option.none

/-- The running thread has taken the lock of the list. -/
def Takes (s : State α) (kernel : Kernel) : Prop :=
  s.kernel.currentThread ∉ (s.kernel.lock q.lock).inside ∧
    s.kernel.currentThread ∈ (kernel.lock q.lock).inside

instance (s : State α) (kernel : Kernel) : Decidable (q.Takes s kernel) :=
  inferInstanceAs (Decidable (_ ∧ _))

/-- The state after a step of the kernel. -/
def observe (s : State α) (e : Kernel.Event) (kernel : Kernel) : State α :=
  let t := s.kernel.currentThread
  let woken := if Kernel.Signals q.listEmpty s.kernel e
    then (s.kernel.hilos q.listEmpty).take 1 else []
  if q.Takes s kernel then
    { s with
      kernel := kernel
      took := s.took ++ (s.method t).item?.toList
      signalled := s.signalled.erase t ++ woken }
  else
    { s with
      kernel := kernel
      signalled := s.signalled ++ woken }

/-- The running thread returns from its method, with an item if that is `Remove`. -/
def finish (s : State α) (item : Option α) : Except Stop (State α) :=
  match s.kernel.code s.kernel.currentThread with
  | [] => .ok { s with
      method := Function.update s.method s.kernel.currentThread .none
      returned := s.returned ++ item.toList.map fun item => (s.kernel.currentThread, item) }
  | _ :: _ => .error .impossible

/-- The rest of `Append` and `Remove`, up to the next call. -/
def proceed (s : State α) : Except Stop (State α) :=
  match s.method s.kernel.currentThread with
  | .none => .error .impossible
  | .appendAcquire item =>
    call { s with list := s.list ++ [item], appended := s.appended ++ [item] }
      (.signal q.listEmpty) .appendSignal
  | .appendSignal => call s (.release q.lock) .appendRelease
  | .appendRelease => finish s none
  | .removeLoop =>
    match s.list with
    | [] => call s (.wait q.listEmpty q.lock) .removeLoop
    | item :: list =>
      call { s with list := list, removed := s.removed ++ [(s.kernel.currentThread, item)] }
        (.release q.lock) (.removeRelease item)
  | .removeRelease item => finish s (some item)

def step (s : State α) : Event α → Except Stop (State α)
  | .kernel e =>
    if q.Foreign s e then do
      let kernel ← s.kernel.step e
      return q.observe s e kernel
    else .error .impossible
  | .append item =>
    match s.method s.kernel.currentThread with
    | .none => call s (.acquire q.lock) (.appendAcquire item)
    | _ => .error .impossible
  | .remove =>
    match s.method s.kernel.currentThread with
    | .none => call s (.acquire q.lock) .removeLoop
    | _ => .error .impossible
  | .proceed => q.proceed s

/-- An empty list that nobody uses yet. -/
structure Booted (s : State α) : Prop where
  kernel : s.kernel.Booted
  list : s.list = []
  method : ∀ t, s.method t = .none
  appended : s.appended = []
  took : s.took = []
  removed : s.removed = []
  returned : s.returned = []
  signalled : s.signalled = []

/-! ## What a step of the kernel does to the lock and the condition variable -/

/-- The instruction that is executed in the step. -/
def next (k : Kernel) : Kernel.Event → Option Instr
  | .exec => (k.code k.currentThread).head?
  | _ => .none

/-- An instruction of the lock or the condition variable. -/
def Relevant (instr : Instr) : Prop :=
  Kernel.Touches q.lock instr ∨ instr = .appendHilos q.listEmpty ∨ instr = .signal q.listEmpty

theorem relevant_v : q.Relevant (.v (.lock q.lock)) := .inl rfl

theorem relevant_p : q.Relevant (.p (.lock q.lock)) := .inl rfl

theorem relevant_pRetry : q.Relevant (.pRetry (.lock q.lock)) := .inl rfl

/-- The test in the `P` of the lock is executed in the step. -/
def Tests (k : Kernel) (e : Kernel.Event) : Prop :=
  next k e = some (.p (.lock q.lock)) ∨ next k e = some (.pRetry (.lock q.lock))

/-- What a step of the kernel does: who is inside the lock, and which instructions of the lock
and the condition variable are left. -/
structure Advance (k : Kernel) (e : Kernel.Event) (k' : Kernel) : Prop where
  inside :
    ((k'.lock q.lock).inside = (k.lock q.lock).inside ∧ next k e ≠ some (.v (.lock q.lock))) ∨
    (q.Tests k e ∧ (k.lock q.lock).inside = [] ∧
      (k'.lock q.lock).inside = [k.currentThread]) ∨
    (next k e = some (.v (.lock q.lock)) ∧ (k.lock q.lock).inside = [k.currentThread] ∧
      (k'.lock q.lock).inside = [])
  old : ∀ t instr, q.Relevant instr → instr ∈ k'.code t →
    instr ∈ k.code t ∨ (t = k.currentThread ∧ instr = .pRetry (.lock q.lock) ∧ q.Tests k e)
  kept : ∀ t instr, q.Relevant instr → k.created t = true → instr ∈ k.code t →
    instr ∈ k'.code t ∨ (t = k.currentThread ∧ next k e = some instr)

end

section

variable {q : SynchList} {k k' : Kernel} {instr : Instr} {rest : List Instr}

theorem executes_iff_next {e : Kernel.Event} :
    Kernel.Executes instr k e ↔ next k e = some instr := by
  cases e <;> simp [Kernel.Executes, next]

theorem tests_iff {e : Kernel.Event} :
    Kernel.Tests (.lock q.lock) k e ↔ q.Tests k e := or_congr executes_iff_next executes_iff_next

theorem Relevant.synchronises (h : q.Relevant instr) : instr.synchronises = true := by
  rcases h with htouches | rfl | rfl
  · cases instr with
    | p s => rfl
    | pRetry s => rfl
    | v s => rfl
    | setOwner l => rfl
    | clearOwner l => rfl
    | _ => exact absurd htouches id
  · rfl
  · rfl

/-- A routine that does not use the list has no instruction of its lock or condition variable. -/
theorem not_relevant_of_mem_routine {c : Kernel.Call} (huses : ¬ q.Uses c) :
    ∀ instr ∈ c.routine, ¬ q.Relevant instr := by
  cases c with
  | acquire l =>
    have huses : ¬ l = q.lock := huses
    simp [Kernel.Call.routine, lockAcquire, semaphoreP, Relevant, Kernel.Touches, huses]
  | release l =>
    have huses : ¬ l = q.lock := huses
    simp [Kernel.Call.routine, lockRelease, semaphoreV, Relevant, Kernel.Touches, huses]
  | wait c l =>
    have huses : ¬ (c = q.listEmpty ∨ l = q.lock) := huses
    rw [not_or] at huses
    simp [Kernel.Call.routine, conditionWait, lockAcquire, semaphoreP, lockRelease, semaphoreV,
      Relevant, Kernel.Touches, huses]
  | signal c =>
    have huses : ¬ c = q.listEmpty := huses
    simp [Kernel.Call.routine, conditionSignal, Relevant, Kernel.Touches, huses]
  | _ =>
    simp [Kernel.Call.routine, semaphoreP, semaphoreV, semaphoreDestroy, conditionBroadcast,
      threadYield, threadFork, threadFinish, Relevant, Kernel.Touches]

/-- The step lemma on the kernel: a step of another thread, or of this one, as the list sees it. -/
theorem step_advance {e : Kernel.Event} (hplaced : k.Placed) (hexcl : Kernel.Exclusive q.lock k)
    (hforeign : ∀ c, e = .call c → ¬ q.Uses c) (h : k.step e = .ok k') : q.Advance k e k' := by
  refine ⟨?_, fun t instr hinstr hmem => ?_, fun t instr hinstr hcreated hmem => ?_⟩
  · have hinside := Kernel.step_inside hexcl h
    rwa [executes_iff_next, tests_iff] at hinside
  · rcases Kernel.step_old hplaced h hinstr.synchronises hmem with
      hmem | ⟨ht, ⟨c, he, hmem⟩ | ⟨s, rfl, htests⟩⟩
    · exact .inl hmem
    · exact absurd hinstr (not_relevant_of_mem_routine (hforeign c he) instr hmem)
    · obtain rfl : s = .lock q.lock := by simpa [Relevant, Kernel.Touches] using hinstr
      exact .inr ⟨ht, rfl, tests_iff.mp htests⟩
  · rcases Kernel.step_kept hplaced h hinstr.synchronises hcreated hmem with hmem | ⟨ht, hexec⟩
    · exact .inl hmem
    · exact .inr ⟨ht, executes_iff_next.mp hexec⟩

theorem signals_iff {c : ℕ} {e : Kernel.Event} :
    Kernel.Signals c k e ↔ next k e = some (.signal c) := by
  cases e <;> simp [Kernel.Signals, next]

/-- What a step of the kernel does to the list of the condition variable. -/
theorem step_hilos_cases {c : ℕ} {e : Kernel.Event} (h : k.step e = .ok k') :
    (next k e = some (.appendHilos c) ∧ k'.hilos c = k.hilos c ++ [k.currentThread]) ∨
    (next k e = some (.signal c) ∧ k.hilos c = (k.hilos c).take 1 ++ k'.hilos c) ∨
    (next k e ≠ some (.signal c) ∧ (k'.hilos c = k.hilos c ∨ k'.hilos c = [])) := by
  have hhilos := Kernel.step_hilos h c
  by_cases hsignal : next k e = some (.signal c)
  · have henlists : Kernel.enlists c k e = [] := by
      refine if_neg ?_
      rintro ⟨rfl, hhead⟩
      have hhead' : next k .exec = some (.appendHilos c) := hhead
      rw [hsignal] at hhead'
      cases hhead'
    rw [henlists, List.append_nil, Kernel.wakes, if_pos (signals_iff.mpr hsignal)] at hhilos
    exact .inr (.inl ⟨hsignal, hhilos⟩)
  · rw [Kernel.wakes, if_neg (mt signals_iff.mp hsignal)] at hhilos
    by_cases hbroadcast : Kernel.Broadcasts c k e
    · have henlists : Kernel.enlists c k e = [] := by
        refine if_neg ?_
        rintro ⟨-, hhead⟩
        rw [hbroadcast.2] at hhead
        cases hhead
      rw [if_pos hbroadcast, henlists, List.append_nil, List.self_eq_append_right] at hhilos
      exact .inr (.inr ⟨hsignal, .inr hhilos⟩)
    · rw [if_neg hbroadcast, List.nil_append] at hhilos
      unfold Kernel.enlists at hhilos
      split at hhilos
      · rename_i henlists
        obtain ⟨rfl, hhead⟩ := henlists
        exact .inl ⟨hhead, hhilos.symm⟩
      · rw [List.append_nil] at hhilos
        exact .inr (.inr ⟨hsignal, .inl hhilos.symm⟩)

end

/-! ## The invariant -/

section

variable {α : Type}

/-- The thread is in `Acquire`, or in `Wait`. -/
def Method.Acquiring : Method α → Prop
  | .appendAcquire _ => True
  | .removeLoop => True
  | _ => False

/-- The thread has the lock when it is back from the routine. -/
def Method.Locked : Method α → Prop
  | .appendAcquire _ => True
  | .appendSignal => True
  | .removeLoop => True
  | _ => False

/-- The thread is in `Release`. -/
def Method.Releasing : Method α → Prop
  | .appendRelease => True
  | .removeRelease _ => True
  | _ => False

variable (q : SynchList)

/-- The thread is to take an item or to signal one: the list may have one item more than there
are signalled threads. -/
def Owing (s : State α) (t : ℕ) : Prop :=
  s.method t = .removeLoop ∨
    (s.method t = .appendSignal ∧ .signal q.listEmpty ∈ s.kernel.code t)

/-- The kernel's part of the invariant. -/
structure KernelOk (k : Kernel) : Prop where
  placed : k.Placed
  waits : k.Waits
  exclusive : Kernel.Exclusive q.lock k
  free : Kernel.FreeWhileLeaving q.lock k

/-- Where the threads in the methods are, with respect to the lock. -/
structure Methods (s : State α) : Prop where
  created : ∀ t, s.method t ≠ .none → s.kernel.created t = true
  locked : ∀ t, (s.method t).Locked → s.kernel.EndsHolding q.lock t
  outside : ∀ t, s.method t = .none → t ∉ (s.kernel.lock q.lock).inside
  releasing : ∀ t, (s.method t).Releasing → t ∈ (s.kernel.lock q.lock).inside →
    .v (.lock q.lock) ∈ s.kernel.code t
  release : ∀ t, .v (.lock q.lock) ∈ s.kernel.code t →
    (s.method t).Releasing ∨ .appendHilos q.listEmpty ∈ s.kernel.code t
  acquire : ∀ t,
    (.p (.lock q.lock) ∈ s.kernel.code t ∨ .pRetry (.lock q.lock) ∈ s.kernel.code t) →
      (s.method t).Acquiring

/-- The threads that wait for an item, and those that have been signalled. -/
structure Waiters (s : State α) : Prop where
  entering : ∀ t, .appendHilos q.listEmpty ∈ s.kernel.code t →
    s.method t = .removeLoop ∧ s.list = [] ∧ t ∉ s.signalled ∧
      .setOwner q.lock ∈ s.kernel.code t
  waiting : ∀ t ∈ s.kernel.hilos q.listEmpty,
    s.method t = .removeLoop ∧ t ∉ (s.kernel.lock q.lock).inside ∧ t ∉ s.signalled
  signalled : ∀ t ∈ s.signalled,
    s.method t = .removeLoop ∧ t ∉ (s.kernel.lock q.lock).inside
  nodup : s.signalled.Nodup

/-- The items. -/
structure Items (s : State α) : Prop where
  fifo : s.appended = s.removed.map Prod.snd ++ s.list
  took : s.took = s.appended ++
    (s.kernel.lock q.lock).inside.filterMap fun t => (s.method t).item?
  wakeups : s.kernel.hilos q.listEmpty ≠ [] → s.list.length ≤ s.signalled.length ∨
    ((∃ t ∈ (s.kernel.lock q.lock).inside, q.Owing s t) ∧
      s.list.length ≤ s.signalled.length + 1)

structure Consistent (s : State α) : Prop where
  kernel : q.KernelOk s.kernel
  methods : q.Methods s
  waiters : q.Waiters s
  items : q.Items s

end

/-! ## Steps of the kernel -/

section

variable {α : Type} {q : SynchList} {s s' : State α} {e : Kernel.Event} {k' : Kernel}

/-- The next instruction is the head of the current thread's code. -/
theorem mem_of_next {k : Kernel} {instr : Instr} (h : next k e = some instr) :
    instr ∈ k.code k.currentThread := by
  cases e with
  | exec => exact List.mem_of_mem_head? h
  | _ => cases h

/-- The lock of the list stays exclusive, as `Release` and `Wait` are called by its holder. -/
theorem KernelOk.step {k : Kernel} (hk : q.KernelOk k)
    (hown : ∀ c, e = .call c → (c = .release q.lock ∨ ∃ n, c = .wait n q.lock) →
      k.currentThread ∈ (k.lock q.lock).holding)
    (h : k.step e = .ok k') : q.KernelOk k' :=
  ⟨Kernel.step_placed hk.placed h, Kernel.step_waits hk.placed hk.waits h,
    Kernel.step_exclusive_of_own hk.exclusive hown h,
    Kernel.step_freeWhileLeaving hk.placed hk.waits hk.exclusive hk.free h⟩

theorem Method.Locked.ne_none {m : Method α} (h : m.Locked) : m ≠ .none := by
  rintro rfl
  exact h

theorem Method.Releasing.ne_none {m : Method α} (h : m.Releasing) : m ≠ .none := by
  rintro rfl
  exact h

/-- The thread that tests the value is in `Acquire` or `Wait`. -/
theorem Methods.acquiring (hm : q.Methods s) (h : q.Tests s.kernel e) :
    (s.method s.kernel.currentThread).Acquiring := by
  refine hm.acquire _ ?_
  rcases h with h | h
  · exact .inl (mem_of_next h)
  · exact .inr (mem_of_next h)

/-- A thread at the end of its way into the list does not release the lock any more. -/
theorem not_mem_waitTail {k : Kernel} {c l : ℕ} (hwaits : k.Waits)
    (h : next k e = some (.appendHilos c)) : .v (.lock l) ∉ k.code k.currentThread := by
  obtain ⟨-, l', hentering⟩ := hwaits _ c (mem_of_next h)
  cases e with
  | exec =>
    obtain ⟨rest, hcode⟩ := List.head?_eq_some_iff.mp h
    rw [hcode] at hentering ⊢
    rw [hentering.eq_waitTail]
    simp [Kernel.waitTail, lockAcquire, semaphoreP]
  | _ => cases h

/-- A step of the kernel keeps every thread at the place its method says. -/
theorem Methods.advance (hk : q.KernelOk s.kernel) (hm : q.Methods s)
    (hadv : q.Advance s.kernel e k') (hkernel : s'.kernel = k') (hmethod : s'.method = s.method)
    (hsilent : ∀ t, s.method t ≠ .none → s.kernel.Silent t e)
    (h : s.kernel.step e = .ok k') : q.Methods s' := by
  subst hkernel
  refine ⟨fun t ht => ?created, fun t ht => ?locked, fun t ht hinside => ?outside,
    fun t ht hinside => ?releasing, fun t hmem => ?release, fun t hmem => ?acquire⟩
  case created =>
    rw [hmethod] at ht
    exact Kernel.step_created hk.placed (hm.created t ht) h
  case locked =>
    rw [hmethod] at ht
    exact Kernel.step_endsHolding hk.placed (hm.created t ht.ne_none) (hm.locked t ht)
      (hsilent t ht.ne_none) h
  case outside =>
    rw [hmethod] at ht
    rcases hadv.inside with ⟨hsame, -⟩ | ⟨htests, -, henter⟩ | ⟨-, -, hleave⟩
    · rw [hsame] at hinside
      exact hm.outside t ht hinside
    · rw [henter, List.mem_singleton] at hinside
      -- who takes the lock is in `Acquire` or in `Wait`
      have hacq := hm.acquiring htests
      rw [← hinside, ht] at hacq
      exact hacq
    · rw [hleave] at hinside
      cases hinside
  case releasing =>
    rw [hmethod] at ht
    rcases hadv.inside with ⟨hsame, hnext⟩ | ⟨htests, -, henter⟩ | ⟨-, -, hleave⟩
    · rw [hsame] at hinside
      have hmem := hm.releasing t ht hinside
      rcases hadv.kept t _ q.relevant_v (hm.created t ht.ne_none) hmem
        with hmem | ⟨-, hv⟩
      · exact hmem
      · exact absurd hv hnext
    · rw [henter, List.mem_singleton] at hinside
      have hacq := hm.acquiring htests
      rw [← hinside] at hacq
      revert ht hacq
      cases s.method t <;> simp [Method.Releasing, Method.Acquiring]
    · rw [hleave] at hinside
      cases hinside
  case release =>
    rw [hmethod]
    rcases hadv.old t _ q.relevant_v hmem with hmem | ⟨-, hne, -⟩
    · rcases hm.release t hmem with hrel | happend
      · exact .inl hrel
      · obtain ⟨rfl, -⟩ := hk.waits t _ happend
        rcases hadv.kept _ _ (.inr (.inl rfl)) hk.placed.current happend with hkept | ⟨-, hnext⟩
        · exact .inr hkept
        · exact absurd hmem (not_mem_waitTail hk.waits hnext)
    · cases hne
  case acquire =>
    rw [hmethod]
    rcases hmem with hmem | hmem
    · rcases hadv.old t _ q.relevant_p hmem with hmem | ⟨-, hne, -⟩
      · exact hm.acquire t (.inl hmem)
      · cases hne
    · rcases hadv.old t _ q.relevant_pRetry hmem with hmem | ⟨rfl, -, htests⟩
      · exact hm.acquire t (.inr hmem)
      · exact hm.acquiring htests

section

variable (q) (s) (e) (k')

@[simp] theorem observe_kernel : (q.observe s e k').kernel = k' := by
  unfold observe
  dsimp only
  split <;> rfl

@[simp] theorem observe_list : (q.observe s e k').list = s.list := by
  unfold observe
  dsimp only
  split <;> rfl

@[simp] theorem observe_method : (q.observe s e k').method = s.method := by
  unfold observe
  dsimp only
  split <;> rfl

@[simp] theorem observe_appended : (q.observe s e k').appended = s.appended := by
  unfold observe
  dsimp only
  split <;> rfl

@[simp] theorem observe_removed : (q.observe s e k').removed = s.removed := by
  unfold observe
  dsimp only
  split <;> rfl

/-- The item of an `Append` is logged as its thread takes the lock. -/
theorem observe_took : (q.observe s e k').took = s.took ++
    if q.Takes s k' then (s.method s.kernel.currentThread).item?.toList else [] := by
  unfold observe
  dsimp only
  split
  · rfl
  · exact (List.append_nil _).symm

theorem observe_signalled : (q.observe s e k').signalled =
    (if q.Takes s k' then s.signalled.erase s.kernel.currentThread else s.signalled) ++
      if Kernel.Signals q.listEmpty s.kernel e
      then (s.kernel.hilos q.listEmpty).take 1 else [] := by
  unfold observe
  dsimp only
  split <;> rfl

end

/-- Who has been signalled and not yet gone on. -/
theorem mem_observe_signalled {t : ℕ} (hw : q.Waiters s)
    (ht : t ∈ (q.observe s e k').signalled) :
    (t ∈ s.signalled ∧ (q.Takes s k' → t ≠ s.kernel.currentThread)) ∨
      (next s.kernel e = some (.signal q.listEmpty) ∧
        t ∈ (s.kernel.hilos q.listEmpty).take 1) := by
  rw [observe_signalled] at ht
  rcases List.mem_append.mp ht with ht | ht
  · left
    split at ht
    · obtain ⟨hne, hmem⟩ := hw.nodup.mem_erase_iff.mp ht
      exact ⟨hmem, fun _ => hne⟩
    · rename_i hnot
      exact ⟨ht, fun htakes => absurd htakes hnot⟩
  · right
    split at ht
    · rename_i hsignals
      exact ⟨signals_iff.mp hsignals, ht⟩
    · cases ht

/-- The instruction a thread on its way into the list executes is one of `Wait`. -/
theorem entering_next {k : Kernel} {instr : Instr} {c : ℕ} (hwaits : k.Waits)
    (hmem : .appendHilos c ∈ k.code k.currentThread) (h : next k e = some instr) :
    ∃ l, instr = .saveLevel ∨ instr = .v (.lock l) ∨ instr = .restoreLevel ∨
      instr = .clearOwner l ∨ instr = .appendHilos c := by
  obtain ⟨-, l, hentering⟩ := hwaits _ c hmem
  cases e with
  | exec =>
    obtain ⟨rest, hcode⟩ := List.head?_eq_some_iff.mp h
    rw [hcode] at hentering
    exact ⟨l, hentering.head⟩
  | _ => cases h

/-- A waiting thread does not get into the lock. -/
theorem Waiters.not_inside (hk : q.KernelOk s.kernel) (hw : q.Waiters s)
    (hadv : q.Advance s.kernel e k') {t : ℕ} (ht : t ∈ s.kernel.hilos q.listEmpty) :
    t ∉ (k'.lock q.lock).inside := by
  intro hinside
  rcases hadv.inside with ⟨hsame, -⟩ | ⟨htests, -, henter⟩ | ⟨-, -, hleave⟩
  · rw [hsame] at hinside
    exact (hw.waiting t ht).2.1 hinside
  · rw [henter, List.mem_singleton] at hinside
    subst hinside
    -- the thread that runs is in a list only when it is about to sleep
    obtain ⟨rest, hsleep⟩ := hk.placed.running ⟨.hilos q.listEmpty, ht⟩
    cases e with
    | exec => simp [Tests, next, hsleep] at htests
    | _ => simp [Tests, next] at htests
  · rw [hleave] at hinside
    cases hinside

/-- A thread that enters the list has released the lock of the list. -/
theorem Waiters.leaving (hk : q.KernelOk s.kernel) (hw : q.Waiters s)
    (h : next s.kernel e = some (.appendHilos q.listEmpty)) :
    Kernel.Leaving q.listEmpty q.lock (s.kernel.code s.kernel.currentThread) := by
  obtain ⟨-, l, hentering⟩ := hk.waits _ _ (mem_of_next h)
  obtain ⟨-, -, -, howner⟩ := hw.entering _ (mem_of_next h)
  cases e with
  | exec =>
    obtain ⟨rest, hcode⟩ := List.head?_eq_some_iff.mp h
    rw [hcode] at hentering howner ⊢
    rw [hentering.eq_waitTail] at howner ⊢
    obtain rfl : q.lock = l := by
      simpa [Kernel.waitTail, lockAcquire, semaphoreP] using howner
    exact ⟨[], rfl, List.not_mem_nil⟩
  | _ => cases h

/-- Those who wait are in the queue of the condition, or were signalled. -/
theorem Waiters.advance (hk : q.KernelOk s.kernel) (hw : q.Waiters s)
    (hadv : q.Advance s.kernel e k') (h : s.kernel.step e = .ok k') :
    q.Waiters (q.observe s e k') := by
  refine ⟨fun t hmem => ?entering, fun t ht => ?waiting, fun t ht => ?signalled, ?nodup⟩
  case entering =>
    rw [observe_kernel] at hmem
    rw [observe_method, observe_list, observe_kernel]
    rcases hadv.old t _ (.inr (.inl rfl)) hmem with hmem | ⟨-, hne, -⟩
    · obtain ⟨hmethod, hlist, hnot, howner⟩ := hw.entering t hmem
      obtain ⟨rfl, -⟩ := hk.waits t _ hmem
      refine ⟨hmethod, hlist, fun hsignalled => ?_, ?_⟩
      · rcases mem_observe_signalled hw hsignalled with ⟨hold, -⟩ | ⟨hnext, -⟩
        · exact hnot hold
        · obtain ⟨l, hinstr⟩ := entering_next hk.waits hmem hnext
          simp at hinstr
      · rcases hadv.kept _ (.setOwner q.lock) (.inl rfl) hk.placed.current howner
          with hkept | ⟨-, hnext⟩
        · exact hkept
        · obtain ⟨l, hinstr⟩ := entering_next hk.waits hmem hnext
          simp at hinstr
    · cases hne
  case waiting =>
    rw [observe_kernel] at ht
    rw [observe_method, observe_kernel]
    -- who was in the list and is not the one signalled is as before
    have hstays : t ∈ s.kernel.hilos q.listEmpty →
        (next s.kernel e = some (.signal q.listEmpty) →
          t ∉ (s.kernel.hilos q.listEmpty).take 1) →
        s.method t = .removeLoop ∧ t ∉ (k'.lock q.lock).inside ∧
          t ∉ (q.observe s e k').signalled := by
      intro hmem hfirst
      refine ⟨(hw.waiting t hmem).1, hw.not_inside hk hadv hmem, fun hsignalled => ?_⟩
      rcases mem_observe_signalled hw hsignalled with ⟨hold, -⟩ | ⟨hnext, hwoken⟩
      · exact (hw.waiting t hmem).2.2 hold
      · exact hfirst hnext hwoken
    -- the thread queues itself, a signal takes the first one out, or the list is kept
    rcases step_hilos_cases (c := q.listEmpty) h with ⟨hnext, hhilos⟩ | ⟨-, hhilos⟩ |
      ⟨hnext, hhilos⟩
    · rw [hhilos] at ht
      rcases List.mem_append.mp ht with ht | ht
      · refine hstays ht fun hsignal => ?_
        rw [hnext] at hsignal
        cases hsignal
      · rw [List.mem_singleton] at ht
        subst ht
        obtain ⟨hmethod, -, hnot, -⟩ := hw.entering _ (mem_of_next hnext)
        refine ⟨hmethod, ?_, fun hsignalled => ?_⟩
        · rcases hadv.inside with ⟨hsame, -⟩ | ⟨htests, -⟩ | ⟨hv, -⟩
          · rw [hsame, hk.free _ _ (hw.leaving hk hnext)]
            exact List.not_mem_nil
          · simp [Tests, hnext] at htests
          · simp [hnext] at hv
        · rcases mem_observe_signalled hw hsignalled with ⟨hold, -⟩ | ⟨hsignal, -⟩
          · exact hnot hold
          · rw [hnext] at hsignal
            cases hsignal
    · have hnodup := hk.placed.apart.nodup (.hilos q.listEmpty)
      have hnodup : (s.kernel.hilos q.listEmpty).Nodup := hnodup
      rw [hhilos] at hnodup
      have hmem : t ∈ s.kernel.hilos q.listEmpty := by
        rw [hhilos]
        exact List.mem_append_right _ ht
      refine hstays hmem fun _ hfirst => ?_
      exact List.disjoint_of_nodup_append hnodup hfirst ht
    · rcases hhilos with hhilos | hhilos
      · rw [hhilos] at ht
        exact hstays ht fun hsignal => absurd hsignal hnext
      · rw [hhilos] at ht
        cases ht
  case signalled =>
    rw [observe_method, observe_kernel]
    rcases mem_observe_signalled hw ht with ⟨hold, hne⟩ | ⟨-, hwoken⟩
    · obtain ⟨hmethod, hnot⟩ := hw.signalled t hold
      refine ⟨hmethod, fun hinside => ?_⟩
      rcases hadv.inside with ⟨hsame, -⟩ | ⟨-, hnobody, henter⟩ | ⟨-, -, hleave⟩
      · rw [hsame] at hinside
        exact hnot hinside
      · -- whoever enters has taken the lock, and is struck off the signalled ones then
        have htakes : q.Takes s k' := by
          rw [Takes, hnobody, henter]
          exact ⟨List.not_mem_nil, List.mem_singleton_self _⟩
        rw [henter, List.mem_singleton] at hinside
        exact hne htakes hinside
      · rw [hleave] at hinside
        cases hinside
    · have hmem := List.mem_of_mem_take hwoken
      exact ⟨(hw.waiting t hmem).1, hw.not_inside hk hadv hmem⟩
  case nodup =>
    rw [observe_signalled]
    refine List.Nodup.append ?_ ?_ fun t ht hwoken => ?_
    · split
      · exact hw.nodup.erase _
      · exact hw.nodup
    · split
      · exact (hk.placed.apart.nodup (.hilos q.listEmpty)).sublist (List.take_sublist 1 _)
      · exact List.nodup_nil
    · split at hwoken
      · have hold : t ∈ s.signalled := by
          split at ht
          · exact List.mem_of_mem_erase ht
          · exact ht
        exact (hw.waiting t (List.mem_of_mem_take hwoken)).2.2 hold
      · cases hwoken

theorem Method.Releasing.item?_eq_none {m : Method α} (h : m.Releasing) :
    m.item? = Option.none := by
  cases m with
  | appendRelease => rfl
  | removeRelease item => rfl
  | _ => exact absurd h id

/-- A thread that leaves the lock has no item to append, and owes nothing, unless the list is
empty. -/
theorem releasing_or_empty (hm : q.Methods s) (hw : q.Waiters s)
    (h : next s.kernel e = some (.v (.lock q.lock))) :
    (s.method s.kernel.currentThread).Releasing ∨
      (s.method s.kernel.currentThread = .removeLoop ∧ s.list = []) := by
  rcases hm.release _ (mem_of_next h) with hrel | happend
  · exact .inl hrel
  · obtain ⟨hmethod, hlist, -⟩ := hw.entering _ happend
    exact .inr ⟨hmethod, hlist⟩

/-- Nobody takes an item while the lock is with the same thread. -/
theorem not_takes_of_same (hsame : (k'.lock q.lock).inside = (s.kernel.lock q.lock).inside) :
    ¬ q.Takes s k' := by
  rintro ⟨hnot, hmem⟩
  rw [hsame] at hmem
  exact hnot hmem

/-- The items taken and those in the hands of the lock's holder are the ones appended, in order. -/
theorem Items.advance_took (hm : q.Methods s) (hw : q.Waiters s) (hi : q.Items s)
    (hadv : q.Advance s.kernel e k') : (q.observe s e k').took = s.appended ++
      (k'.lock q.lock).inside.filterMap fun t => (s.method t).item? := by
  rw [observe_took, hi.took]
  rcases hadv.inside with ⟨hsame, -⟩ | ⟨-, hnobody, henter⟩ | ⟨hv, hself, hleave⟩
  · rw [if_neg (not_takes_of_same hsame), hsame, List.append_nil]
  · have htakes : q.Takes s k' := by
      rw [Takes, hnobody, henter]
      exact ⟨List.not_mem_nil, List.mem_singleton_self _⟩
    rw [if_pos htakes, hnobody, henter, List.append_assoc]
    cases hitem : (s.method s.kernel.currentThread).item? <;> simp [hitem]
  · have hnot : ¬ q.Takes s k' := by
      rintro ⟨hnot, -⟩
      rw [hself] at hnot
      exact hnot (List.mem_singleton_self _)
    have hitem : (s.method s.kernel.currentThread).item? = Option.none := by
      rcases releasing_or_empty hm hw hv with hrel | ⟨hmethod, -⟩
      · exact hrel.item?_eq_none
      · rw [hmethod]
        rfl
    rw [if_neg hnot, hself, hleave]
    simp [hitem]

/-- No wake-up is lost in a step that neither signals nor changes the list of waiting threads. -/
theorem Items.advance_wakeups (hm : q.Methods s) (hw : q.Waiters s) (hi : q.Items s)
    (hadv : q.Advance s.kernel e k') (hwaiting : s.kernel.hilos q.listEmpty ≠ [])
    (hsignal : next s.kernel e ≠ some (.signal q.listEmpty)) :
    s.list.length ≤ (q.observe s e k').signalled.length ∨
      ((∃ t ∈ (k'.lock q.lock).inside, q.Owing (q.observe s e k') t) ∧
        s.list.length ≤ (q.observe s e k').signalled.length + 1) := by
  have hsignals : ¬ Kernel.Signals q.listEmpty s.kernel e := mt signals_iff.mp hsignal
  rw [observe_signalled, if_neg hsignals, List.append_nil]
  -- the lock is where it was, or is taken, or is given up
  rcases hadv.inside with ⟨hsame, -⟩ | ⟨htests, hnobody, henter⟩ | ⟨hv, hself, -⟩
  · rw [if_neg (not_takes_of_same hsame), hsame]
    rcases hi.wakeups hwaiting with hle | ⟨⟨t, ht, howing⟩, hle⟩
    · exact .inl hle
    · refine .inr ⟨⟨t, ht, ?_⟩, hle⟩
      rw [Owing, observe_method, observe_kernel]
      rcases howing with hmethod | ⟨hmethod, hmem⟩
      · exact .inl hmethod
      · have hcreated := hm.created t (by rw [hmethod]; simp)
        rcases hadv.kept t _ (.inr (.inr rfl)) hcreated hmem with hkept | ⟨-, hnext⟩
        · exact .inr ⟨hmethod, hkept⟩
        · exact absurd hnext hsignal
  · have hle : s.list.length ≤ s.signalled.length := by
      rcases hi.wakeups hwaiting with hle | ⟨⟨t, ht, -⟩, -⟩
      · exact hle
      · rw [hnobody] at ht
        cases ht
    have htakes : q.Takes s k' := by
      rw [Takes, hnobody, henter]
      exact ⟨List.not_mem_nil, List.mem_singleton_self _⟩
    rw [if_pos htakes, henter]
    by_cases hmem : s.kernel.currentThread ∈ s.signalled
    · -- a signalled thread has the lock again: the item is still there for it, or taken
      refine .inr ⟨⟨_, List.mem_singleton_self _, .inl ?_⟩, ?_⟩
      · rw [observe_method]
        exact (hw.signalled _ hmem).1
      · rw [List.length_erase_of_mem hmem]
        omega
    · rw [List.erase_of_not_mem hmem]
      exact .inl hle
  · have hnot : ¬ q.Takes s k' := by
      rintro ⟨hnot, -⟩
      rw [hself] at hnot
      exact hnot (List.mem_singleton_self _)
    rw [if_neg hnot]
    -- the lock is given up in `Release`, or in `Wait`, which finds the list empty
    rcases releasing_or_empty hm hw hv with hrel | ⟨-, hlist⟩
    · rcases hi.wakeups hwaiting with hle | ⟨⟨t, ht, howing⟩, -⟩
      · exact .inl hle
      · rw [hself, List.mem_singleton] at ht
        rw [ht, Owing] at howing
        rcases howing with hmethod | ⟨hmethod, -⟩ <;>
          · rw [hmethod] at hrel
            exact absurd hrel id
    · rw [hlist]
      exact .inl (Nat.zero_le _)

/-- A step of the kernel keeps the items in order. -/
theorem Items.advance (hm : q.Methods s) (hw : q.Waiters s) (hi : q.Items s)
    (hadv : q.Advance s.kernel e k') (h : s.kernel.step e = .ok k') :
    q.Items (q.observe s e k') := by
  refine ⟨?_, ?_, fun hwaiting => ?_⟩
  · rw [observe_appended, observe_removed, observe_list]
    exact hi.fifo
  · rw [observe_appended, observe_kernel, observe_method]
    exact hi.advance_took hm hw hadv
  · rw [observe_kernel] at hwaiting ⊢
    rw [observe_list]
    rcases step_hilos_cases (c := q.listEmpty) h with ⟨hnext, -⟩ | ⟨hnext, hhilos⟩ |
      ⟨hnext, hhilos⟩
    · rw [(hw.entering _ (mem_of_next hnext)).2.1]
      exact .inl (Nat.zero_le _)
    · have hne : s.kernel.hilos q.listEmpty ≠ [] := by
        rw [hhilos]
        exact List.append_ne_nil_of_right_ne_nil _ hwaiting
      have hfirst : ((s.kernel.hilos q.listEmpty).take 1).length = 1 := by
        rw [List.length_take]
        have := List.length_pos_iff.mpr hne
        omega
      have hnot : ¬ q.Takes s k' := by
        rcases hadv.inside with ⟨hsame, -⟩ | ⟨htests, -⟩ | ⟨hv, -⟩
        · exact not_takes_of_same hsame
        · simp [Tests, hnext] at htests
        · simp [hnext] at hv
      rw [observe_signalled, if_neg hnot, if_pos (signals_iff.mpr hnext), List.length_append,
        hfirst]
      rcases hi.wakeups hne with hle | ⟨-, hle⟩
      · exact .inl (by omega)
      · exact .inl hle
    · rcases hhilos with hhilos | hhilos
      · rw [hhilos] at hwaiting
        exact hi.advance_wakeups hm hw hadv hwaiting hnext
      · exact absurd hhilos hwaiting

/-- A step of the kernel that is not part of a method, or inside a routine a method has called,
keeps the invariant. -/
theorem Consistent.advance (hs : q.Consistent s) (hforeign : q.Foreign s e)
    (h : s.kernel.step e = .ok k') : q.Consistent (q.observe s e k') := by
  have huses : ∀ c, e = .call c → ¬ q.Uses c := by
    rintro c rfl
    exact hforeign.2
  have hsilent : ∀ t, s.method t ≠ .none → s.kernel.Silent t e := by
    rintro t ht hcur c rfl
    have hnone := hforeign.1
    rw [hcur] at hnone
    revert ht hnone
    cases s.method t <;> simp [Method.isNone]
  have hadv := step_advance hs.kernel.placed hs.kernel.exclusive huses h
  refine ⟨?_, ?_, hs.waiters.advance hs.kernel hadv h,
    hs.items.advance hs.methods hs.waiters hadv h⟩
  · rw [observe_kernel]
    refine hs.kernel.step (fun c he hc => absurd ?_ (huses c he)) h
    rcases hc with rfl | ⟨n, rfl⟩
    · exact rfl
    · exact .inr rfl
  · exact hs.methods.advance hs.kernel hadv (observe_kernel q s e k') (observe_method q s e k')
      hsilent h

/-! ## Steps of the methods -/

section

variable {c : Kernel.Call} {m : Method α}

/-- A call that a method makes, and what it leaves alone. -/
theorem call_ok (h : call s c m = .ok s') : s.kernel.step (.call c) = .ok s'.kernel ∧
    s' = { s with
      kernel := s'.kernel
      method := Function.update s.method s.kernel.currentThread m } := by
  obtain ⟨k', hst, h⟩ := bind_ok_iff.mp h
  rw [← pure_ok_iff.mp h]
  exact ⟨hst, rfl⟩

/-- A thread that is back from a routine in which it has taken the lock holds it. -/
theorem Methods.holding (hm : q.Methods s)
    (hcode : s.kernel.code s.kernel.currentThread = [])
    (hlocked : (s.method s.kernel.currentThread).Locked) :
    s.kernel.currentThread ∈ (s.kernel.lock q.lock).holding := by
  have hends := hm.locked _ hlocked
  rw [Kernel.EndsHolding, hcode] at hends
  simpa using hends

/-- The running thread, back from a routine, is not one of the signalled threads. -/
theorem Consistent.not_signalled (hs : q.Consistent s)
    (hcode : s.kernel.code s.kernel.currentThread = []) :
    s.kernel.currentThread ∉ s.signalled := by
  intro hmem
  obtain ⟨hmethod, hnot⟩ := hs.waiters.signalled _ hmem
  refine hnot (hs.kernel.exclusive.holding _ (hs.methods.holding hcode ?_))
  rw [hmethod]
  trivial

/-- The code of a thread in a method after a call by the running thread. -/
theorem code_of_called {k k' : Kernel} (hcalled : k.Called c k') {t : ℕ}
    (ht : t ≠ k.currentThread) {instr : Instr} (hinstr : q.Relevant instr) :
    (instr ∈ k'.code t → instr ∈ k.code t) ∧
      (k.created t = true → instr ∈ k.code t → instr ∈ k'.code t) := by
  rcases hcalled.others t ht with hcode | ⟨hnew, hcode⟩
  · rw [hcode]
    exact ⟨id, fun _ => id⟩
  · refine ⟨fun hmem => ?_, fun hcreated => ?_⟩
    · rw [hcode, threadRoot, List.mem_singleton] at hmem
      rw [hmem] at hinstr
      simp [Relevant, Kernel.Touches] at hinstr
    · rw [hcreated] at hnew
      cases hnew

/-- The caller is then at the place after the call. -/
theorem Methods.call (hk : q.KernelOk s.kernel) (hm : q.Methods s)
    (h : s.kernel.step (.call c) = .ok k') (hkernel : s'.kernel = k')
    (hmethod : s'.method = Function.update s.method s.kernel.currentThread m)
    (hne : m ≠ .none) (hlocked : m.Locked → k'.EndsHolding q.lock s.kernel.currentThread)
    (hreleasing : m.Releasing → .v (.lock q.lock) ∈ c.routine)
    (hrelease : .v (.lock q.lock) ∈ c.routine →
      m.Releasing ∨ .appendHilos q.listEmpty ∈ c.routine)
    (hacquire : .p (.lock q.lock) ∈ c.routine ∨ .pRetry (.lock q.lock) ∈ c.routine →
      m.Acquiring) : q.Methods s' := by
  have hcalled := Kernel.call_called hk.placed.current h
  have hlock : k'.lock = s.kernel.lock := by rw [hcalled.frame]
  subst hkernel
  have hself : s'.method s.kernel.currentThread = m := by
    rw [hmethod, Function.update_self]
  -- the caller is judged by the new method and its routine, the others as before
  have hother : ∀ {t}, t ≠ s.kernel.currentThread → s'.method t = s.method t := by
    intro t ht
    rw [hmethod, Function.update_of_ne ht]
  refine ⟨fun t ht => ?created, fun t ht => ?locked, fun t ht hinside => ?outside,
    fun t ht hinside => ?releasing, fun t hmem => ?release, fun t hmem => ?acquire⟩
  case created =>
    by_cases hcur : t = s.kernel.currentThread
    · rw [hcur]
      exact hcalled.created _ hk.placed.current
    · rw [hother hcur] at ht
      exact hcalled.created t (hm.created t ht)
  case locked =>
    by_cases hcur : t = s.kernel.currentThread
    · rw [hcur, hself] at ht
      rw [hcur]
      exact hlocked ht
    · rw [hother hcur] at ht
      refine Kernel.step_endsHolding hk.placed (hm.created t ht.ne_none) (hm.locked t ht) ?_ h
      exact fun heq => absurd heq.symm hcur
  case outside =>
    rw [hlock] at hinside
    by_cases hcur : t = s.kernel.currentThread
    · rw [hcur, hself] at ht
      exact hne ht
    · rw [hother hcur] at ht
      exact hm.outside t ht hinside
  case releasing =>
    rw [hlock] at hinside
    by_cases hcur : t = s.kernel.currentThread
    · rw [hcur, hself] at ht
      rw [hcur, hcalled.code]
      exact hreleasing ht
    · rw [hother hcur] at ht
      exact (code_of_called hcalled hcur q.relevant_v).2 (hm.created t ht.ne_none)
        (hm.releasing t ht hinside)
  case release =>
    by_cases hcur : t = s.kernel.currentThread
    · rw [hcur, hcalled.code] at hmem
      rw [hcur, hself, hcalled.code]
      exact hrelease hmem
    · rw [hother hcur]
      rcases hm.release t ((code_of_called hcalled hcur q.relevant_v).1 hmem)
        with hrel | happend
      · exact .inl hrel
      · exact absurd (hk.waits t _ happend).1 hcur
  case acquire =>
    by_cases hcur : t = s.kernel.currentThread
    · rw [hcur, hcalled.code] at hmem
      rw [hcur, hself]
      exact hacquire hmem
    · rw [hother hcur]
      refine hm.acquire t ?_
      rcases hmem with hmem | hmem
      · exact .inl ((code_of_called hcalled hcur q.relevant_p).1 hmem)
      · exact .inr ((code_of_called hcalled hcur q.relevant_pRetry).1 hmem)

/-- And it is not among those who wait, unless it called `Wait`. -/
theorem Waiters.call (hs : q.Consistent s) (h : s.kernel.step (.call c) = .ok k')
    (hkernel : s'.kernel = k')
    (hmethod : s'.method = Function.update s.method s.kernel.currentThread m)
    (hsignalled : s'.signalled = s.signalled)
    (hentering : .appendHilos q.listEmpty ∈ c.routine →
      m = .removeLoop ∧ s'.list = [] ∧ .setOwner q.lock ∈ c.routine) : q.Waiters s' := by
  have hk := hs.kernel
  have hcalled := Kernel.call_called hk.placed.current h
  have hlock : k'.lock = s.kernel.lock := by rw [hcalled.frame]
  have hhilos : k'.hilos = s.kernel.hilos := by rw [hcalled.frame]
  subst hkernel
  have hnot := hs.not_signalled hcalled.outside
  refine ⟨fun t hmem => ?_, fun t ht => ?_, fun t ht => ?_, ?_⟩
  · by_cases hcur : t = s.kernel.currentThread
    · rw [hcur, hcalled.code] at hmem
      obtain ⟨hm, hlist, howner⟩ := hentering hmem
      rw [hcur, hmethod, Function.update_self, hsignalled, hcalled.code]
      exact ⟨hm, hlist, hnot, howner⟩
    · have hold := (code_of_called (q := q) hcalled hcur (.inr (.inl rfl))).1 hmem
      exact absurd (hk.waits t _ hold).1 hcur
  · rw [hhilos] at ht
    have hcur : t ≠ s.kernel.currentThread := by
      rintro rfl
      exact hk.placed.outside hcalled.outside ⟨.hilos q.listEmpty, ht⟩
    rw [hmethod, Function.update_of_ne hcur, hlock, hsignalled]
    exact hs.waiters.waiting t ht
  · rw [hsignalled] at ht
    have hcur : t ≠ s.kernel.currentThread := by
      rintro rfl
      exact hnot ht
    rw [hmethod, Function.update_of_ne hcur, hlock]
    exact hs.waiters.signalled t ht
  · rw [hsignalled]
    exact hs.waiters.nodup

/-- The items that are taken and not appended yet are those of the same threads as before. -/
theorem filterMap_item_eq {inside : List ℕ} {t : ℕ}
    (h : t ∉ inside ∨ (s.method t).item? = m.item?) :
    (inside.filterMap fun u => (Function.update s.method t m u).item?) =
      inside.filterMap fun u => (s.method u).item? := by
  refine List.filterMap_congr fun u hu => ?_
  by_cases hut : u = t
  · subst hut
    rw [Function.update_self]
    rcases h with hnot | heq
    · exact absurd hu hnot
    · exact heq.symm
  · rw [Function.update_of_ne hut]

/-- A thread other than the running one owes what it did. -/
theorem Owing.call (hm : q.Methods s) (hcalled : s.kernel.Called c k') (hkernel : s'.kernel = k')
    (hmethod : s'.method = Function.update s.method s.kernel.currentThread m) {t : ℕ}
    (ht : t ≠ s.kernel.currentThread) (h : q.Owing s t) : q.Owing s' t := by
  subst hkernel
  rw [Owing, hmethod, Function.update_of_ne ht]
  rcases h with hremove | ⟨hsignal, hmem⟩
  · exact .inl hremove
  · have hcreated := hm.created t (by rw [hsignal]; simp)
    exact .inr ⟨hsignal, (code_of_called (q := q) hcalled ht (.inr (.inr rfl))).2 hcreated hmem⟩

/-- A call with which the items stay as they are, by a thread that owes nothing. -/
theorem Items.call (hm : q.Methods s) (hi : q.Items s) (hcalled : s.kernel.Called c k')
    (hs' : s' = { s with
      kernel := k'
      method := Function.update s.method s.kernel.currentThread m })
    (hitem : s.kernel.currentThread ∉ (s.kernel.lock q.lock).inside ∨
      (s.method s.kernel.currentThread).item? = m.item?)
    (howing : s.kernel.currentThread ∈ (s.kernel.lock q.lock).inside →
      ¬ q.Owing s s.kernel.currentThread) : q.Items s' := by
  have hlock : k'.lock = s.kernel.lock := by rw [hcalled.frame]
  have hhilos : k'.hilos = s.kernel.hilos := by rw [hcalled.frame]
  subst hs'
  refine ⟨hi.fifo, ?_, fun hwaiting => ?_⟩
  · show s.took = s.appended ++ (k'.lock q.lock).inside.filterMap fun u =>
      (Function.update s.method s.kernel.currentThread m u).item?
    rw [hlock, filterMap_item_eq hitem]
    exact hi.took
  · have hwaiting : k'.hilos q.listEmpty ≠ [] := hwaiting
    rw [hhilos] at hwaiting
    rcases hi.wakeups hwaiting with hle | ⟨⟨t, ht, hot⟩, hle⟩
    · exact .inl hle
    · refine .inr ⟨⟨t, ?_, hot.call hm hcalled rfl rfl ?_⟩, hle⟩
      · show t ∈ (k'.lock q.lock).inside
        rw [hlock]
        exact ht
      · rintro rfl
        exact howing ht hot

theorem Method.Acquiring.locked (h : m.Acquiring) : m.Locked := by
  cases m with
  | appendAcquire item => trivial
  | removeLoop => trivial
  | _ => exact absurd h id

theorem Method.Acquiring.not_releasing (h : m.Acquiring) : ¬ m.Releasing := by
  cases m with
  | appendAcquire item => exact id
  | removeLoop => exact id
  | _ => exact absurd h id

/-- The start of `Append` and `Remove`. -/
theorem acquire_consistent (hs : q.Consistent s)
    (hnone : s.method s.kernel.currentThread = .none) (hm : m.Acquiring)
    (h : call s (.acquire q.lock) m = .ok s') : q.Consistent s' := by
  obtain ⟨hst, hs'⟩ := call_ok h
  have hcalled := Kernel.call_called hs.kernel.placed.current hst
  have hmethod : s'.method = Function.update s.method s.kernel.currentThread m := by rw [hs']
  refine ⟨hs.kernel.step (by simp) hst, ?_, ?_, ?_⟩
  · refine hs.methods.call hs.kernel hst rfl hmethod hm.locked.ne_none (fun _ => ?_)
      (fun hrel => absurd hrel hm.not_releasing) (fun hv => ?_) (fun _ => hm)
    · rw [Kernel.EndsHolding, hcalled.code]
      simp [Kernel.Call.routine, lockAcquire, semaphoreP, Kernel.holdsAfter]
    · simp [Kernel.Call.routine, lockAcquire, semaphoreP] at hv
  · refine Waiters.call hs hst rfl hmethod (by rw [hs']) fun hmem => ?_
    simp [Kernel.Call.routine, lockAcquire, semaphoreP] at hmem
  · have hout := hs.methods.outside _ hnone
    exact hs.items.call hs.methods hcalled hs' (.inl hout) fun hin => absurd hin hout

/-- A method that goes on under the lock is alone with it. -/
theorem Consistent.inside_eq (hs : q.Consistent s)
    (hcode : s.kernel.code s.kernel.currentThread = [])
    (hlocked : (s.method s.kernel.currentThread).Locked) :
    (s.kernel.lock q.lock).inside = [s.kernel.currentThread] :=
  hs.kernel.exclusive.inside_eq
    (hs.kernel.exclusive.holding _ (hs.methods.holding hcode hlocked))

/-- `Append` has the lock: the item goes to the end of the list. -/
theorem append_consistent {item : α} (hs : q.Consistent s)
    (hacquired : s.method s.kernel.currentThread = .appendAcquire item)
    (h : call { s with list := s.list ++ [item], appended := s.appended ++ [item] }
      (.signal q.listEmpty) .appendSignal = .ok s') : q.Consistent s' := by
  obtain ⟨hst, hs'⟩ := call_ok h
  have hst : s.kernel.step (.call (.signal q.listEmpty)) = .ok s'.kernel := hst
  have hcalled := Kernel.call_called hs.kernel.placed.current hst
  have hlocked : (s.method s.kernel.currentThread).Locked := by
    rw [hacquired]
    trivial
  have hholding := hs.methods.holding hcalled.outside hlocked
  have hinside := hs.inside_eq hcalled.outside hlocked
  have hmethod : s'.method = Function.update s.method s.kernel.currentThread .appendSignal := by
    rw [hs']
  have hlock : s'.kernel.lock = s.kernel.lock := by rw [hcalled.frame]
  have hhilos : s'.kernel.hilos = s.kernel.hilos := by rw [hcalled.frame]
  refine ⟨hs.kernel.step (by simp) hst, ?methods, ?waiters, ?fifo, ?took, fun hwaiting => ?wakeups⟩
  case methods =>
    refine hs.methods.call hs.kernel hst rfl hmethod (by simp) (fun _ => ?_) (fun hrel => ?_)
      (fun hv => ?_) (fun hp => ?_)
    · rw [Kernel.EndsHolding, hcalled.code, hlock]
      simp [Kernel.Call.routine, conditionSignal, Kernel.holdsAfter, hholding]
    · exact absurd hrel id
    · simp [Kernel.Call.routine, conditionSignal] at hv
    · simp [Kernel.Call.routine, conditionSignal] at hp
  case waiters =>
    refine Waiters.call hs hst rfl hmethod (by rw [hs']) fun hmem => ?_
    simp [Kernel.Call.routine, conditionSignal] at hmem
  case fifo =>
    rw [hs']
    show s.appended ++ [item] = s.removed.map Prod.snd ++ (s.list ++ [item])
    rw [hs.items.fifo, List.append_assoc]
  case took =>
    -- the item of the holder is in the list now, so it no longer counts as on its way
    rw [hlock, hmethod, hinside]
    have htook := hs.items.took
    rw [hinside] at htook
    rw [hs']
    simpa [hacquired, Method.item?] using htook
  case wakeups =>
    -- one item more than before, and the thread owes the `Signal` for it
    rw [hhilos] at hwaiting
    have hlength : s'.list.length = s.list.length + 1 := by
      rw [hs']
      exact List.length_append
    have hsignalled : s'.signalled = s.signalled := by rw [hs']
    rw [hlength, hsignalled, hlock, hinside]
    refine .inr ⟨⟨_, List.mem_singleton_self _, .inr ⟨?_, ?_⟩⟩, ?_⟩
    · rw [hmethod, Function.update_self]
    · rw [hcalled.code]
      simp [Kernel.Call.routine, conditionSignal]
    · rcases hs.items.wakeups hwaiting with hle | ⟨⟨t, ht, howing⟩, -⟩
      · omega
      · rw [hinside, List.mem_singleton] at ht
        rw [ht, Owing, hacquired] at howing
        simp at howing

/-- The call of `Release` at the end of a method, as far as the items are not concerned. -/
theorem release_consistent (hs : q.Consistent s)
    (hst : s.kernel.step (.call (.release q.lock)) = .ok s'.kernel)
    (hlocked : (s.method s.kernel.currentThread).Locked)
    (hmethod : s'.method = Function.update s.method s.kernel.currentThread m)
    (hm : m.Releasing) (hsignalled : s'.signalled = s.signalled) (hi : q.Items s') :
    q.Consistent s' := by
  have hcalled := Kernel.call_called hs.kernel.placed.current hst
  have hholding := hs.methods.holding hcalled.outside hlocked
  refine ⟨hs.kernel.step (fun _ _ _ => hholding) hst, ?_, ?_, hi⟩
  · refine hs.methods.call hs.kernel hst rfl hmethod hm.ne_none (fun hlocked => ?_)
      (fun _ => ?_) (fun _ => .inl hm) (fun hp => ?_)
    · revert hm hlocked
      cases m <;> simp [Method.Releasing, Method.Locked]
    · simp [Kernel.Call.routine, lockRelease, semaphoreV]
    · simp [Kernel.Call.routine, lockRelease, semaphoreV] at hp
  · refine Waiters.call hs hst rfl hmethod hsignalled fun hmem => ?_
    simp [Kernel.Call.routine, lockRelease, semaphoreV] at hmem

/-- `Append` has signalled. -/
theorem signalled_consistent (hs : q.Consistent s)
    (hsignal : s.method s.kernel.currentThread = .appendSignal)
    (h : call s (.release q.lock) .appendRelease = .ok s') : q.Consistent s' := by
  obtain ⟨hst, hs'⟩ := call_ok h
  have hcalled := Kernel.call_called hs.kernel.placed.current hst
  refine release_consistent hs hst ?_ (m := .appendRelease) (by rw [hs']) trivial (by rw [hs']) ?_
  · rw [hsignal]
    trivial
  · refine hs.items.call hs.methods hcalled hs' (.inr ?_) fun _ howing => ?_
    · rw [hsignal]
      rfl
    · rw [Owing, hsignal, hcalled.outside] at howing
      simp at howing

/-- `Remove` has the lock, and the list is not empty. -/
theorem remove_consistent {item : α} {list : List α} (hs : q.Consistent s)
    (hloop : s.method s.kernel.currentThread = .removeLoop) (hlist : s.list = item :: list)
    (h : call { s with list := list, removed := s.removed ++ [(s.kernel.currentThread, item)] }
      (.release q.lock) (.removeRelease item) = .ok s') : q.Consistent s' := by
  obtain ⟨hst, hs'⟩ := call_ok h
  have hst : s.kernel.step (.call (.release q.lock)) = .ok s'.kernel := hst
  have hcalled := Kernel.call_called hs.kernel.placed.current hst
  have hlocked : (s.method s.kernel.currentThread).Locked := by
    rw [hloop]
    trivial
  have hmethod : s'.method =
      Function.update s.method s.kernel.currentThread (.removeRelease item) := by rw [hs']
  have hlock : s'.kernel.lock = s.kernel.lock := by rw [hcalled.frame]
  have hhilos : s'.kernel.hilos = s.kernel.hilos := by rw [hcalled.frame]
  refine release_consistent hs hst hlocked hmethod trivial (by rw [hs'])
    ⟨?_, ?_, fun hwaiting => .inl ?_⟩
  · rw [hs']
    show s.appended = (s.removed ++ [(s.kernel.currentThread, item)]).map Prod.snd ++ list
    rw [hs.items.fifo, hlist, List.map_append, List.append_assoc]
    rfl
  · rw [hlock, hmethod, filterMap_item_eq (.inr (by rw [hloop]; rfl)), hs']
    exact hs.items.took
  · rw [hhilos] at hwaiting
    have hlength : s.list.length = s'.list.length + 1 := by
      rw [hlist, hs']
      rfl
    have hsignalled : s'.signalled = s.signalled := by rw [hs']
    rw [hsignalled]
    rcases hs.items.wakeups hwaiting with hle | ⟨-, hle⟩
    · omega
    · omega

/-- `Remove` has the lock, and the list is empty. -/
theorem wait_consistent (hs : q.Consistent s)
    (hloop : s.method s.kernel.currentThread = .removeLoop) (hlist : s.list = [])
    (h : call s (.wait q.listEmpty q.lock) .removeLoop = .ok s') : q.Consistent s' := by
  obtain ⟨hst, hs'⟩ := call_ok h
  have hcalled := Kernel.call_called hs.kernel.placed.current hst
  have hlocked : (s.method s.kernel.currentThread).Locked := by
    rw [hloop]
    trivial
  have hholding := hs.methods.holding hcalled.outside hlocked
  have hmethod : s'.method = Function.update s.method s.kernel.currentThread .removeLoop := by
    rw [hs']
  have hlist' : s'.list = [] := by
    rw [hs']
    exact hlist
  have hlock : s'.kernel.lock = s.kernel.lock := by rw [hcalled.frame]
  refine ⟨hs.kernel.step (fun _ _ _ => hholding) hst, ?_, ?_, ?_, ?_, fun _ => .inl ?_⟩
  · refine hs.methods.call hs.kernel hst rfl hmethod (by simp) (fun _ => ?_) (fun hrel => ?_)
      (fun _ => .inr ?_) (fun _ => trivial)
    · rw [Kernel.EndsHolding, hcalled.code]
      simp [Kernel.Call.routine, conditionWait, lockRelease, lockAcquire, semaphoreV, semaphoreP,
        Kernel.holdsAfter]
    · exact absurd hrel id
    · simp [Kernel.Call.routine, conditionWait]
  · refine Waiters.call hs hst rfl hmethod (by rw [hs']) fun _ => ⟨rfl, hlist', ?_⟩
    simp [Kernel.Call.routine, conditionWait, lockAcquire]
  · rw [hs']
    exact hs.items.fifo
  · rw [hlock, hmethod, filterMap_item_eq (.inr (by rw [hloop])), hs']
    exact hs.items.took
  · rw [hlist']
    exact Nat.zero_le _

/-- A thread returns from its method. -/
theorem finish_consistent {item : Option α} (hs : q.Consistent s)
    (hm : (s.method s.kernel.currentThread).Releasing) (h : finish s item = .ok s') :
    q.Consistent s' := by
  unfold finish at h
  split at h
  · rename_i hcode
    cases h
    have hout : s.kernel.currentThread ∉ (s.kernel.lock q.lock).inside := by
      intro hin
      have hv := hs.methods.releasing _ hm hin
      rw [hcode] at hv
      cases hv
    have hloop : s.method s.kernel.currentThread ≠ .removeLoop := by
      intro hloop
      rw [hloop] at hm
      exact hm
    -- only the running thread changes its place, and it leaves the list's methods
    have hcases : ∀ t, (t = s.kernel.currentThread ∧
        Function.update s.method s.kernel.currentThread .none t = .none) ∨
        (t ≠ s.kernel.currentThread ∧
          Function.update s.method s.kernel.currentThread .none t = s.method t) := by
      intro t
      by_cases ht : t = s.kernel.currentThread
      · rw [ht, Function.update_self]
        exact .inl ⟨rfl, rfl⟩
      · exact .inr ⟨ht, Function.update_of_ne ht _ _⟩
    refine ⟨hs.kernel, ⟨fun t ht => ?created, fun t ht => ?locked, fun t ht => ?outside,
      fun t ht => ?releasing, fun t hmem => ?release, fun t hmem => ?acquire⟩,
      ⟨fun t hmem => ?entering, fun t ht => ?waiting, fun t ht => ?signalled, hs.waiters.nodup⟩,
      hs.items.fifo, ?took, fun hwaiting => ?wakeups⟩
    case created =>
      rcases hcases t with ⟨-, hnone⟩ | ⟨-, hsame⟩
      · exact absurd hnone ht
      · exact hs.methods.created t (hsame ▸ ht)
    case locked =>
      rcases hcases t with ⟨-, hnone⟩ | ⟨-, hsame⟩
      · exact absurd hnone ht.ne_none
      · exact hs.methods.locked t (hsame ▸ ht)
    case outside =>
      rcases hcases t with ⟨rfl, -⟩ | ⟨-, hsame⟩
      · exact hout
      · exact hs.methods.outside t (hsame ▸ ht)
    case releasing =>
      rcases hcases t with ⟨-, hnone⟩ | ⟨-, hsame⟩
      · exact absurd hnone ht.ne_none
      · exact hs.methods.releasing t (hsame ▸ ht)
    case release =>
      rcases hcases t with ⟨rfl, -⟩ | ⟨-, hsame⟩
      · rw [hcode] at hmem
        cases hmem
      · dsimp only
        rw [hsame]
        exact hs.methods.release t hmem
    case acquire =>
      rcases hcases t with ⟨rfl, -⟩ | ⟨-, hsame⟩
      · rw [hcode] at hmem
        simp at hmem
      · dsimp only
        rw [hsame]
        exact hs.methods.acquire t hmem
    case entering =>
      rcases hcases t with ⟨rfl, -⟩ | ⟨-, hsame⟩
      · rw [hcode] at hmem
        cases hmem
      · dsimp only
        rw [hsame]
        exact hs.waiters.entering t hmem
    case waiting =>
      rcases hcases t with ⟨rfl, -⟩ | ⟨-, hsame⟩
      · exact absurd (hs.waiters.waiting _ ht).1 hloop
      · dsimp only
        rw [hsame]
        exact hs.waiters.waiting t ht
    case signalled =>
      rcases hcases t with ⟨rfl, -⟩ | ⟨-, hsame⟩
      · exact absurd (hs.waiters.signalled _ ht).1 hloop
      · dsimp only
        rw [hsame]
        exact hs.waiters.signalled t ht
    case took =>
      rw [filterMap_item_eq (.inl hout)]
      exact hs.items.took
    case wakeups =>
      rcases hs.items.wakeups hwaiting with hle | ⟨⟨t, ht, howing⟩, hle⟩
      · exact .inl hle
      · refine .inr ⟨⟨t, ht, ?_⟩, hle⟩
        rcases hcases t with ⟨rfl, -⟩ | ⟨-, hsame⟩
        · exact absurd ht hout
        · rw [Owing]
          dsimp only
          rw [hsame]
          exact howing
  · cases h

end

/-- A thread goes on in its method; the cases are the places where it made a call. -/
theorem proceed_consistent (hs : q.Consistent s) (h : q.proceed s = .ok s') :
    q.Consistent s' := by
  unfold proceed at h
  split at h
  · cases h
  · rename_i item hacquired
    exact append_consistent hs hacquired h
  · rename_i hsignal
    exact signalled_consistent hs hsignal h
  · rename_i hrelease
    exact finish_consistent hs (by rw [hrelease]; trivial) h
  · rename_i hloop
    split at h
    · rename_i hlist
      exact wait_consistent hs hloop hlist h
    · rename_i item list hlist
      exact remove_consistent hs hloop hlist h
  · rename_i item hrelease
    exact finish_consistent hs (by rw [hrelease]; trivial) h

/-- The step lemma of the list. -/
theorem step_consistent {ev : Event α} (hs : q.Consistent s) (h : q.step s ev = .ok s') :
    q.Consistent s' := by
  cases ev with
  | kernel e =>
    rw [step] at h
    split at h
    · rename_i hforeign
      obtain ⟨k', hst, h⟩ := bind_ok_iff.mp h
      rw [← pure_ok_iff.mp h]
      exact hs.advance hforeign hst
    · cases h
  | append item =>
    rw [step] at h
    split at h
    · rename_i hnone
      exact acquire_consistent (m := .appendAcquire item) hs hnone trivial h
    · cases h
  | remove =>
    rw [step] at h
    split at h
    · rename_i hnone
      exact acquire_consistent (m := .removeLoop) hs hnone trivial h
    · cases h
  | proceed => exact proceed_consistent hs h

theorem Booted.consistent (hboot : Booted s) : q.Consistent s := by
  have hk := hboot.kernel
  have hcode : ∀ t instr, instr ∉ s.kernel.code t := by
    intro t instr hmem
    rw [hk.code] at hmem
    cases hmem
  have hinside : (s.kernel.lock q.lock).inside = [] := by rw [hk.lock]
  refine ⟨⟨hk.placed, hk.waits, hk.exclusive q.lock, ?_⟩, ⟨?_, ?_, ?_, ?_, ?_, ?_⟩,
    ⟨?_, ?_, ?_, ?_⟩, ?_, ?_, ?_⟩
  · exact fun t c hleaving => absurd hleaving.mem (hcode t _)
  · exact fun t ht => absurd (hboot.method t) ht
  · exact fun t ht => absurd (hboot.method t) ht.ne_none
  · intro t _
    rw [hinside]
    exact List.not_mem_nil
  · exact fun t ht => absurd (hboot.method t) ht.ne_none
  · exact fun t hmem => absurd hmem (hcode t _)
  · rintro t (hmem | hmem)
    · exact absurd hmem (hcode t _)
    · exact absurd hmem (hcode t _)
  · exact fun t hmem => absurd hmem (hcode t _)
  · intro t ht
    rw [hk.hilos] at ht
    cases ht
  · intro t ht
    rw [hboot.signalled] at ht
    cases ht
  · rw [hboot.signalled]
    exact List.nodup_nil
  · rw [hboot.appended, hboot.removed, hboot.list]
    rfl
  · rw [hboot.took, hboot.appended, hinside]
    rfl
  · exact fun hwaiting => absurd (hk.hilos _) hwaiting

/-! ## What the calls of Remove return -/

/-- The items of one thread, in this order. -/
def itemsOf (log : List (ℕ × α)) (t : ℕ) : List α := (log.filter fun p => p.1 = t).map Prod.snd

/-- The items of a thread in a log, call by call. -/
theorem itemsOf_append (log log' : List (ℕ × α)) (t : ℕ) :
    itemsOf (log ++ log') t = itemsOf log t ++ itemsOf log' t := by
  rw [itemsOf, List.filter_append, List.map_append]
  rfl

theorem itemsOf_self (t : ℕ) (item : α) : itemsOf [(t, item)] t = [item] := by
  simp [itemsOf]

theorem itemsOf_of_ne {t u : ℕ} (h : t ≠ u) (item : α) : itemsOf [(u, item)] t = [] := by
  simp [itemsOf, h.symm]

theorem itemsOf_toList (t u : ℕ) (item : Option α) :
    itemsOf (item.toList.map fun item => (u, item)) t = if t = u then item.toList else [] := by
  cases item with
  | none => exact (ite_self []).symm
  | some item =>
    by_cases htu : t = u
    · rw [if_pos htu, htu]
      exact itemsOf_self u item
    · rw [if_neg htu]
      exact itemsOf_of_ne htu item

/-- The item that a thread is about to return. -/
def Method.returns? : Method α → Option α
  | .removeRelease item => some item
  | _ => Option.none

/-- What a thread has removed, its calls of `Remove` have returned, or the one that it is in is
about to return it. -/
def Returns (s : State α) : Prop :=
  ∀ t, itemsOf s.removed t = itemsOf s.returned t ++ (s.method t).returns?.toList

/-- A step that neither removes nor returns an item. -/
theorem Returns.of_same {m : Method α} (hs : Returns s) (hremoved : s'.removed = s.removed)
    (hreturned : s'.returned = s.returned)
    (hmethod : s'.method = Function.update s.method s.kernel.currentThread m)
    (hm : m.returns? = (s.method s.kernel.currentThread).returns?) : Returns s' := by
  intro t
  rw [hremoved, hreturned, hmethod, hs t]
  by_cases ht : t = s.kernel.currentThread
  · rw [ht, Function.update_self, hm]
  · rw [Function.update_of_ne ht]

/-- A call inside a method does not return an item. -/
theorem Returns.call {c : Kernel.Call} {m : Method α} (hs : Returns s)
    (h : call s c m = .ok s')
    (hm : m.returns? = (s.method s.kernel.currentThread).returns?) : Returns s' := by
  obtain ⟨-, hs'⟩ := call_ok h
  exact hs.of_same (by rw [hs']) (by rw [hs']) (by rw [hs']) hm

/-- An item is removed: its thread is about to return it. -/
theorem Returns.remove {item : α} {list : List α} (hs : Returns s)
    (hloop : s.method s.kernel.currentThread = .removeLoop)
    (h : SynchList.call
      { s with list := list, removed := s.removed ++ [(s.kernel.currentThread, item)] }
      (.release q.lock) (.removeRelease item) = .ok s') : Returns s' := by
  obtain ⟨-, hs'⟩ := call_ok h
  intro t
  rw [hs']
  show itemsOf (s.removed ++ [(s.kernel.currentThread, item)]) t = itemsOf s.returned t ++
    (Function.update s.method s.kernel.currentThread (.removeRelease item) t).returns?.toList
  rw [itemsOf_append, hs t]
  by_cases ht : t = s.kernel.currentThread
  · rw [ht, Function.update_self, itemsOf_self, hloop]
    simp [Method.returns?]
  · rw [Function.update_of_ne ht, itemsOf_of_ne ht, List.append_nil]

/-- A thread returns the item that it was about to return. -/
theorem Returns.finish {item : Option α} (hs : Returns s)
    (hmethod : (s.method s.kernel.currentThread).returns? = item)
    (h : SynchList.finish s item = .ok s') : Returns s' := by
  unfold SynchList.finish at h
  split at h
  · cases h
    intro t
    show itemsOf s.removed t = itemsOf (s.returned ++ item.toList.map _) t ++
      (Function.update s.method s.kernel.currentThread .none t).returns?.toList
    rw [itemsOf_append, itemsOf_toList, hs t]
    by_cases ht : t = s.kernel.currentThread
    · rw [if_pos ht, ht, Function.update_self, hmethod]
      exact (List.append_nil _).symm
    · rw [if_neg ht, Function.update_of_ne ht, List.append_nil]
  · cases h

/-- Nor does a step of the kernel. -/
theorem observe_returns (hs : Returns s) : Returns (q.observe s e k') := by
  intro t
  unfold observe
  dsimp only
  split
  · exact hs t
  · exact hs t

/-- `Remove` logs the item that it removed when it returns. -/
theorem proceed_returns (hs : Returns s) (h : q.proceed s = .ok s') : Returns s' := by
  unfold proceed at h
  split at h
  · cases h
  · rename_i item hacquired
    obtain ⟨-, hs'⟩ := call_ok h
    exact hs.of_same (m := .appendSignal) (by rw [hs']) (by rw [hs']) (by rw [hs'])
      (by rw [hacquired]; rfl)
  · rename_i hsignal
    exact hs.call h (by rw [hsignal]; rfl)
  · rename_i hrelease
    exact hs.finish (by rw [hrelease]; rfl) h
  · rename_i hloop
    split at h
    · exact hs.call h (by rw [hloop])
    · exact hs.remove hloop h
  · rename_i item hrelease
    exact hs.finish (by rw [hrelease]; rfl) h

/-- So the items returned are those removed, thread by thread. -/
theorem step_returns {ev : Event α} (hs : Returns s) (h : q.step s ev = .ok s') : Returns s' := by
  cases ev with
  | kernel e =>
    rw [step] at h
    split at h
    · obtain ⟨k', -, h⟩ := bind_ok_iff.mp h
      rw [← pure_ok_iff.mp h]
      exact observe_returns hs
    · cases h
  | append item =>
    rw [step] at h
    split at h
    · rename_i hnone
      exact hs.call h (by rw [hnone]; rfl)
    · cases h
  | remove =>
    rw [step] at h
    split at h
    · rename_i hnone
      exact hs.call h (by rw [hnone]; rfl)
    · cases h
  | proceed => exact proceed_returns hs h

theorem Booted.returns (hboot : Booted s) : Returns s := by
  intro t
  rw [hboot.removed, hboot.returned, hboot.method]
  rfl

/-- While the lock is free, there are no more items than signalled threads, if a thread waits. -/
theorem Consistent.length_le (hs : q.Consistent s)
    (hfree : (s.kernel.semaphore (.lock q.lock)).value = 1)
    (hwaiting : s.kernel.hilos q.listEmpty ≠ []) : s.list.length ≤ s.signalled.length := by
  have hnobody : (s.kernel.lock q.lock).inside = [] := by
    have hvalue := hs.kernel.exclusive.value
    exact List.length_eq_zero_iff.mp (by omega)
  rcases hs.items.wakeups hwaiting with hle | ⟨⟨t, ht, -⟩, -⟩
  · exact hle
  · rw [hnobody] at ht
    cases ht

/-- A synchronised list under every schedule. The removed items are those appended, in the same
order and each once, up to the ones that are still in the list; the items are appended in the
order in which the threads in `Append` have taken the lock. What a thread has removed is what its
calls of `Remove` have returned, in the same order and each once, up to the one that it is in. If
the lock is free and a thread waits for an item, then there are no more items than signalled
threads, each counted once, that have not taken the lock since. -/
theorem run_fifo {es : List (Event α)} (hboot : Booted s)
    (hrun : PartialRun.run q.step s es = .ok s') :
    s'.appended = s'.removed.map Prod.snd ++ s'.list ∧
    s'.removed.map Prod.snd <+: s'.took ∧ s'.appended <+: s'.took ∧
    (∀ t, itemsOf s'.removed t = itemsOf s'.returned t ++ (s'.method t).returns?.toList) ∧
    s'.signalled.Nodup ∧
    (∀ t ∈ s'.signalled, s'.method t = .removeLoop ∧ t ∉ s'.kernel.hilos q.listEmpty ∧
      t ∉ (s'.kernel.lock q.lock).inside) ∧
    ((s'.kernel.semaphore (.lock q.lock)).value = 1 →
      s'.kernel.hilos q.listEmpty ≠ [] → s'.list.length ≤ s'.signalled.length) := by
  have hs : q.Consistent s' :=
    run_invariant (fun _ _ _ => step_consistent) hboot.consistent hrun
  have hreturns : Returns s' := run_invariant (fun _ _ _ => step_returns) hboot.returns hrun
  -- one thread may have taken the lock and not yet appended its item
  have hprefix : s'.appended <+: s'.took := by
    rw [hs.items.took]
    exact List.prefix_append _ _
  refine ⟨hs.items.fifo, ?_, hprefix, hreturns, hs.waiters.nodup, fun t ht => ?_, hs.length_le⟩
  · refine List.IsPrefix.trans ?_ hprefix
    rw [hs.items.fifo]
    exact List.prefix_append _ _
  · obtain ⟨hmethod, hout⟩ := hs.waiters.signalled t ht
    exact ⟨hmethod, fun hmem => (hs.waiters.waiting t hmem).2.2 ht, hout⟩

/-- The list of the kernel that has just been booted. -/
def boot (α : Type) : State α where
  kernel := Kernel.boot fun _ => 0
  list := []
  method := fun _ => .none
  appended := []
  took := []
  removed := []
  returned := []
  signalled := []

theorem boot_booted (α : Type) : Booted (boot α) :=
  ⟨Kernel.boot_booted fun _ => 0, rfl, fun _ => rfl, rfl, rfl, rfl, rfl, rfl⟩

/-- Thread `0` appends `5` and removes it again. Threads `1` and `2` wait in `Remove` for an item,
then thread `0` appends `7`. -/
def waitingRun : List (Event ℕ) := [
  .append 5, .kernel .exec, .kernel .exec, .kernel .exec,
  .kernel (.tick []), .kernel .exec, .proceed, .kernel .exec, .kernel .exec, .kernel .exec,
  .kernel (.tick []), .proceed, .kernel .exec, .kernel .exec, .kernel .exec, .kernel (.tick []),
  .kernel .exec, .proceed, .remove, .kernel .exec, .kernel .exec, .kernel .exec,
  .kernel (.tick []), .kernel .exec, .proceed, .kernel .exec, .kernel .exec, .kernel .exec,
  .kernel (.tick []), .kernel .exec, .proceed,
  .kernel (.call (.fork 1)), .kernel .exec, .kernel .exec, .kernel .exec, .kernel (.tick []),
  .kernel (.call (.fork 2)), .kernel .exec, .kernel .exec, .kernel .exec, .kernel (.tick []),
  .kernel (.call .yield), .kernel .exec, .kernel .exec,
  .kernel .exec, .kernel (.tick []), .remove, .kernel .exec, .kernel .exec, .kernel .exec,
  .kernel (.tick []), .kernel .exec, .proceed, .kernel .exec, .kernel .exec, .kernel .exec,
  .kernel .exec, .kernel .exec, .kernel .exec, .kernel .exec,
  .kernel .exec, .kernel (.tick []), .remove, .kernel .exec, .kernel .exec, .kernel .exec,
  .kernel (.tick []), .kernel .exec, .proceed, .kernel .exec, .kernel .exec, .kernel .exec,
  .kernel .exec, .kernel .exec, .kernel .exec, .kernel .exec,
  .kernel .exec, .kernel (.tick []), .append 7, .kernel .exec, .kernel .exec, .kernel .exec,
  .kernel (.tick []), .kernel .exec, .proceed, .kernel .exec, .kernel .exec, .kernel .exec,
  .kernel (.tick []), .proceed, .kernel .exec, .kernel .exec]

/-- Thread `2` still waits, and the item is there for thread `1`. -/
theorem waitingRun_fifo : ∃ s : State ℕ,
    PartialRun.run (step ⟨0, 0⟩) (boot ℕ) waitingRun = .ok s ∧ s.kernel.hilos 0 = [2] ∧
    s.list = [7] ∧ s.signalled = [1] ∧ s.list.length ≤ s.signalled.length ∧
    s.returned = [(0, 5)] ∧ s.appended = s.removed.map Prod.snd ++ [7] := by
  obtain ⟨s, hrun, hhilos, hlist, hsignalled, hfree, hreturned⟩ : ∃ s : State ℕ,
      PartialRun.run (step ⟨0, 0⟩) (boot ℕ) waitingRun = .ok s ∧ s.kernel.hilos 0 = [2] ∧
      s.list = [7] ∧ s.signalled = [1] ∧ (s.kernel.semaphore (.lock 0)).value = 1 ∧
      s.returned = [(0, 5)] := by
    decide +kernel
  obtain ⟨hfifo, -, -, -, -, -, hle⟩ := run_fifo (boot_booted ℕ) hrun
  rw [hlist] at hfifo
  refine ⟨s, hrun, hhilos, hlist, hsignalled, hle hfree ?_, hreturned, hfifo⟩
  rw [hhilos]
  exact List.cons_ne_nil 2 []

end

end SynchList
end NachOS
