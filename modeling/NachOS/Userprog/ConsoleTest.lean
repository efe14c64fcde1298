import NachOS.Machine.Console
import NachOS.Threads.Notifications

/-!
# The console test

`ConsoleTest` (`progtest.cc`) echoes what is typed on the console (`console.cc`) and stops after a
`q`. The thread waits for a character at one semaphore and for the end of each write at another; the
interrupt handlers do the `V` operations. When characters come, how long a write takes and what
other threads do is up to the schedule.
-/

namespace NachOS

open PartialRun

/-! ## The console -/

/-- `CheckCharAvail`, for so many polls that call `readHandler`. -/
def Console.polls (input : ℕ → UInt8) (console : Console) : ℕ → Except Stop Console
  | 0 => .ok console
  | n + 1 =>
    if console.incoming.toInt = eof then (console.checkCharAvail input true).polls input n
    else .error .impossible

/-- The output side of `Console`. -/
structure ConsoleOutput where
  putBusy : Bool
  /-- The `ConsoleWriteInt` interrupts that are pending. -/
  pending : ℕ
  numConsoleCharsWritten : ℕ
  /-- What is in the file. -/
  written : List Int8

namespace ConsoleOutput

/-- The constructor. -/
def init : ConsoleOutput := ⟨false, 0, 0, []⟩

/-- `PutChar`. -/
def putChar (out : ConsoleOutput) (ch : Int8) : Except Stop ConsoleOutput :=
  if out.putBusy then .error .assertion
  else .ok { out with
    putBusy := true
    pending := out.pending + 1
    written := out.written ++ [ch] }

/-- `PutChar` meets its `ASSERT` when the output is free. -/
theorem putChar_of_free {out : ConsoleOutput} {ch : Int8} (hfree : out.putBusy = false) :
    out.putChar ch = .ok { out with
      putBusy := true
      pending := out.pending + 1
      written := out.written ++ [ch] } := if_neg (by simp [hfree])

/-- `WriteDone` for so many interrupts, without the call of the handler. -/
def writeDone (out : ConsoleOutput) : ℕ → Except Stop ConsoleOutput
  | 0 => .ok out
  | n + 1 =>
    match out.pending with
    | 0 => .error .impossible
    | pending + 1 =>
      { out with
        putBusy := false
        pending := pending
        numConsoleCharsWritten := out.numConsoleCharsWritten + 1 }.writeDone n

/-- The display is busy with the last character, or with none. -/
structure Valid (out : ConsoleOutput) : Prop where
  pending : out.pending = out.putBusy.toNat
  written : out.written.length = out.numConsoleCharsWritten + out.pending

end ConsoleOutput

/-! ## The test -/

/-- The thread that runs `ConsoleTest`, and the semaphores that it makes. -/
structure ConsoleTest where
  thread : ℕ
  readAvail : ℕ
  writeDone : ℕ
  ne : readAvail ≠ writeDone

namespace ConsoleTest

/-- Where the thread is. -/
inductive Stage where
  /-- It has made the console and the semaphores. -/
  | start
  /-- In `readAvail->P()`. -/
  | reading
  /-- In `writeDone->P()`. -/
  | writing (ch : Int8)
  /-- `ConsoleTest` has returned. -/
  | returned

structure State where
  kernel : Kernel
  console : Console
  out : ConsoleOutput
  stage : Stage

/-- What can happen. -/
inductive Event where
  /-- Something that is not part of the test, or the next instruction of the routine that it has
  called. A `V` of one of the semaphores by a device is that of its handler. -/
  | kernel (e : Kernel.Event)
  /-- The thread of the test goes on, at the start or when it is back from a routine. -/
  | proceed

/-- The letter that ends the test. -/
def quit : Int8 := .ofNat 'q'.toNat

section

variable (q : ConsoleTest) (input : ℕ → UInt8)

/-- A call that has to do with the semaphores. -/
def Uses : Kernel.Call → Prop
  | .p n | .v n | .destroy n => n = q.readAvail ∨ n = q.writeDone
  | _ => False

/-- The thread of the test calls nothing else before it has returned, and nobody else uses the
semaphores. -/
def Foreign (s : State) : Kernel.Event → Prop
  | .call c => (s.kernel.currentThread = q.thread → s.stage = .returned) ∧ ¬ q.Uses c
  | _ => True

instance : (c : Kernel.Call) → Decidable (q.Uses c)
  | .p _ | .v _ | .destroy _ => inferInstanceAs (Decidable (_ ∨ _))
  | .setLevel _ | .acquire _ | .release _ | .wait _ _ | .signal _ | .broadcast _ | .yield | .sleep
  | .fork _ | .finish | .userInstruction => isFalse id

instance : DecidableEq Stage
  | .start, .start | .reading, .reading | .returned, .returned => isTrue rfl
  | .writing a, .writing b =>
    decidable_of_iff (a = b) ⟨congrArg Stage.writing, fun h => by injection h⟩
  | .start, .reading | .start, .writing _ | .start, .returned | .reading, .start
  | .reading, .writing _ | .reading, .returned | .writing _, .start | .writing _, .reading
  | .writing _, .returned | .returned, .start | .returned, .reading | .returned, .writing _ =>
    isFalse Stage.noConfusion

instance (s : State) : (e : Kernel.Event) → Decidable (q.Foreign s e)
  | .call _ => inferInstanceAs (Decidable ((_ → _) ∧ _))
  | .exec | .tick _ | .idle _ => isTrue trivial

/-- The thread calls `P`. -/
def await (s : State) (n : ℕ) (stage : Stage) : Except Stop State := do
  let kernel ← s.kernel.step (.call (.p n))
  return { s with kernel := kernel, stage := stage }

/-- The loop, up to the next call. -/
def proceed (s : State) : Except Stop State :=
  match s.stage with
  | .start => await s q.readAvail .reading
  | .reading => do
    let ch := s.console.incoming
    let out ← s.out.putChar ch
    await { s with console := s.console.getChar, out := out } q.writeDone (.writing ch)
  | .writing ch =>
    if ch = quit then .ok { s with stage := .returned } else await s q.readAvail .reading
  | .returned => .error .impossible

/-- The thread of the test runs, and is in no routine. -/
def Ready (s : State) : Prop :=
  s.kernel.currentThread = q.thread ∧ s.kernel.code q.thread = []

instance (s : State) : Decidable (q.Ready s) := inferInstanceAs (Decidable (_ ∧ _))

def step (s : State) : Event → Except Stop State
  | .kernel e =>
    if q.Foreign s e then do
      let kernel ← s.kernel.step e
      let console ← s.console.polls input (e.deviceV q.readAvail)
      let out ← s.out.writeDone (e.deviceV q.writeDone)
      return { s with kernel := kernel, console := console, out := out }
    else .error .impossible
  | .proceed => if q.Ready s then q.proceed s else .error .impossible

/-- The console and the semaphores have just been made. -/
structure Started (s : State) : Prop where
  placed : s.kernel.Placed
  readAvail : Kernel.Notified q.readAvail q.thread 0 0 s.kernel
  writeDone : Kernel.Notified q.writeDone q.thread 0 0 s.kernel
  console : s.console = .init
  out : s.out = .init
  stage : s.stage = .start

/-! ## The invariant -/

/-- The characters that the thread waits for. -/
def Stage.asked : Stage → ℕ
  | .reading => 1
  | _ => 0

/-- Only the last character of a test that is done, or nearly so, is the letter that ends it. -/
def Stage.Echoed (written : List Int8) : Stage → Prop
  | .start | .reading => quit ∉ written
  | .writing ch => ∃ before, written = before ++ [ch] ∧ quit ∉ before
  | .returned => ∃ before, written = before ++ [quit] ∧ quit ∉ before

structure Consistent (s : State) : Prop where
  placed : s.kernel.Placed
  readAvail : Kernel.Notified q.readAvail q.thread (s.out.written.length + s.stage.asked)
    s.console.notified s.kernel
  writeDone : Kernel.Notified q.writeDone q.thread s.out.written.length
    s.out.numConsoleCharsWritten s.kernel
  console : s.console.Valid input
  told : s.console.Told
  out : s.out.Valid
  /-- The display is busy only while the thread waits for it. -/
  busy : s.out.putBusy = true → ∃ ch, s.stage = .writing ch
  echo : s.out.written = s.console.returned
  stage : s.stage.Echoed s.out.written

end

section

variable {q : ConsoleTest} {input : ℕ → UInt8} {s s' : State} {e : Kernel.Event} {k' : Kernel}

/-! ## Interrupts -/

/-- Every character that the keyboard handler takes in is announced once. -/
theorem polls_told (hinput : ∀ n, (input n).toInt8.toInt ≠ eof) {n : ℕ} {c c' : Console}
    (hvalid : c.Valid input) (htold : c.Told) (h : c.polls input n = .ok c') :
    c'.Valid input ∧ c'.Told ∧ c'.notified = c.notified + n ∧ c'.returned = c.returned := by
  induction n generalizing c with
  | zero =>
    cases h
    exact ⟨hvalid, htold, rfl, rfl⟩
  | succ n ih =>
    rw [Console.polls] at h
    split at h
    · rename_i hempty
      have hannounced : c.Announced (.checkCharAvail true) := trivial
      have hnext := Console.next_valid hvalid hannounced fun _ => htold.1
      have hread : c.checkCharAvail input true = _ := Console.checkCharAvail_of_empty hempty
      obtain ⟨hvalid', htold', hnotified, hreturned⟩ := ih hnext
        (Console.next_told hinput htold hannounced) h
      rw [Console.next, hread] at hnotified hreturned
      refine ⟨hvalid', htold', ?_, hreturned⟩
      rw [hnotified]
      show c.notified + 1 + n = _
      omega
    · cases h

/-- The end of an output frees the console. -/
theorem writeDone_valid {n : ℕ} {out out' : ConsoleOutput} (hvalid : out.Valid)
    (h : out.writeDone n = .ok out') : out'.Valid ∧ out'.written = out.written ∧
      out'.numConsoleCharsWritten = out.numConsoleCharsWritten + n ∧
      (out'.putBusy = true → out.putBusy = true) := by
  induction n generalizing out with
  | zero =>
    cases h
    exact ⟨hvalid, rfl, rfl, id⟩
  | succ n ih =>
    rw [ConsoleOutput.writeDone] at h
    have hpending := hvalid.pending
    have hwritten := hvalid.written
    split at h
    · cases h
    · rename_i pending hsucc
      -- the one interrupt there can be
      have hbusy : out.putBusy = true := by
        by_contra hfree
        rw [hsucc, Bool.eq_false_iff.mpr hfree] at hpending
        cases hpending
      have hnone : pending = 0 := by
        rw [hsucc, hbusy] at hpending
        exact Nat.succ.inj hpending
      obtain ⟨hvalid', hsame, hnum, -⟩ := ih ⟨hnone, by
        show out.written.length = out.numConsoleCharsWritten + 1 + pending
        omega⟩ h
      refine ⟨hvalid', hsame, ?_, fun _ => hbusy⟩
      rw [hnum]
      show out.numConsoleCharsWritten + 1 + n = _
      omega

/-! ## What the steps keep -/

theorem Foreign.ne (hforeign : q.Foreign s e) {n : ℕ} (hn : n = q.readAvail ∨ n = q.writeDone)
    (c : Kernel.Call) (he : e = .call c) : c ≠ .p n ∧ c ≠ .v n := by
  subst he
  refine ⟨?_, ?_⟩
  · rintro rfl
    exact hforeign.2 hn
  · rintro rfl
    exact hforeign.2 hn

/-- A step of the kernel keeps the invariant, together with the interrupts it serves. -/
theorem Consistent.kernelStep (hinput : ∀ n, (input n).toInt8.toInt ≠ eof)
    (hs : q.Consistent input s) (hforeign : q.Foreign s e) (h : s.kernel.step e = .ok k')
    {console : Console} (hpolls : s.console.polls input (e.deviceV q.readAvail) = .ok console)
    {out : ConsoleOutput} (hdone : s.out.writeDone (e.deviceV q.writeDone) = .ok out) :
    q.Consistent input { s with kernel := k', console := console, out := out } := by
  obtain ⟨hvalid, htold, hnotified, hreturned⟩ := polls_told hinput hs.console hs.told hpolls
  obtain ⟨hout, hwritten, hnum, hbusy⟩ := writeDone_valid hs.out hdone
  have hreads := hs.readAvail.step hs.placed h (fun c hc => (hforeign.ne (.inl rfl) c hc).1)
    fun c hc => (hforeign.ne (.inl rfl) c hc).2
  have hwrites := hs.writeDone.step hs.placed h (fun c hc => (hforeign.ne (.inr rfl) c hc).1)
    fun c hc => (hforeign.ne (.inr rfl) c hc).2
  refine ⟨Kernel.step_placed hs.placed h, ?_, ?_, hvalid, htold, hout, fun hb => hs.busy (hbusy hb),
    ?_, ?_⟩
  · show Kernel.Notified _ _ (out.written.length + s.stage.asked) console.notified k'
    rw [hwritten, hnotified]
    exact hreads
  · show Kernel.Notified _ _ out.written.length out.numConsoleCharsWritten k'
    rw [hwritten, hnum]
    exact hwrites
  · show out.written = console.returned
    rw [hwritten, hreturned]
    exact hs.echo
  · show s.stage.Echoed out.written
    rw [hwritten]
    exact hs.stage

theorem await_ok {n : ℕ} {stage : Stage} (h : await s n stage = .ok s') :
    ∃ k', s.kernel.step (.call (.p n)) = .ok k' ∧
      s' = { s with kernel := k', stage := stage } := by
  obtain ⟨k', hst, h⟩ := bind_ok_iff.mp h
  exact ⟨k', hst, (pure_ok_iff.mp h).symm⟩

/-- A call of `P` on one of the two semaphores is nothing to the other one. -/
theorem notified_other {m n calls units : ℕ} (hne : n ≠ m) {k : Kernel}
    (hn : Kernel.Notified m q.thread calls units k) (hplaced : k.Placed)
    (h : k.step (.call (.p n)) = .ok k') : Kernel.Notified m q.thread calls units k' := by
  refine hn.step hplaced h (fun c hc => ?_) fun c hc => ?_
  · rw [← Kernel.Event.call.inj hc]
    simpa using hne
  · rw [← Kernel.Event.call.inj hc]
    simp

/-- The thread asks for the next character. -/
theorem Consistent.read (hs : q.Consistent input s) (hready : q.Ready s)
    (hasked : s.stage.asked = 0) (hfree : s.out.putBusy = false) (hquit : quit ∉ s.out.written)
    (h : await s q.readAvail .reading = .ok s') : q.Consistent input s' := by
  obtain ⟨k', hst, rfl⟩ := await_ok h
  refine ⟨Kernel.step_placed hs.placed hst, ?_, notified_other q.ne hs.writeDone hs.placed hst,
    hs.console, hs.told, hs.out, fun hbusy => ?_, hs.echo, hquit⟩
  · have hreads := hs.readAvail.call hs.placed hready.1 hst
    rw [hasked] at hreads
    exact hreads
  · exact absurd (hfree.symm.trans hbusy) Bool.false_ne_true

/-- The thread fetches the character that was announced, and writes it. -/
theorem Consistent.write (hs : q.Consistent input s) (hready : q.Ready s)
    (hstage : s.stage = .reading) (hinput : ∀ n, (input n).toInt8.toInt ≠ eof)
    {out : ConsoleOutput} (hput : s.out.putChar s.console.incoming = .ok out)
    (h : await { s with console := s.console.getChar, out := out } q.writeDone
      (.writing s.console.incoming) = .ok s') : q.Consistent input s' := by
  obtain ⟨k', hst, rfl⟩ := await_ok h
  have hquit : quit ∉ s.out.written := by
    have hechoed := hs.stage
    rw [hstage] at hechoed
    exact hechoed
  have hreads := hs.readAvail
  rw [hstage] at hreads
  have hannounced : s.console.returned.length < s.console.notified := by
    have hle := hreads.calls_le hready.2
    rw [hs.echo] at hle
    exact hle
  rw [ConsoleOutput.putChar] at hput
  split at hput
  · cases hput
  · rename_i hfree
    cases hput
    -- `PutChar` asserts that the one before has been written
    have hpending : s.out.pending = 0 := by
      rw [hs.out.pending, Bool.eq_false_iff.mpr hfree]
      rfl
    have hlength : (s.out.written ++ [s.console.incoming]).length = s.out.written.length + 1 :=
      List.length_append
    refine ⟨Kernel.step_placed hs.placed hst, ?readAvail, ?writeDone, ?console, ?told, ?display,
      fun _ => ⟨_, rfl⟩, ?echo, ⟨_, rfl, hquit⟩⟩
    case readAvail =>
      -- the character that was asked for is now among those written
      show Kernel.Notified _ _ ((s.out.written ++ [_]).length + 0) s.console.notified k'
      rw [hlength]
      exact notified_other q.ne.symm hreads hs.placed hst
    case writeDone =>
      show Kernel.Notified _ _ (s.out.written ++ [_]).length s.out.numConsoleCharsWritten k'
      rw [hlength]
      exact hs.writeDone.call hs.placed hready.1 hst
    case console => exact Console.getChar_valid hs.console hannounced
    case told =>
      have hannounced' : s.console.Announced .getChar := hannounced
      exact Console.next_told hinput hs.told hannounced'
    case display =>
      refine ⟨?_, ?_⟩
      · show s.out.pending + 1 = _
        rw [hpending]
        rfl
      · have hwritten := hs.out.written
        show (s.out.written ++ [_]).length = s.out.numConsoleCharsWritten + (s.out.pending + 1)
        omega
    case echo =>
      show s.out.written ++ [_] = s.console.returned ++ [_]
      rw [hs.echo]

/-- Back from `writeDone->P()`, the display is free. -/
theorem Consistent.free (hs : q.Consistent input s) (hready : q.Ready s) :
    s.out.putBusy = false := by
  have hle := hs.writeDone.calls_le hready.2
  have hwritten := hs.out.written
  have hpending := hs.out.pending
  cases hbusy : s.out.putBusy with
  | false => rfl
  | true =>
    rw [hbusy] at hpending
    have hone : s.out.pending = 1 := hpending
    omega

/-- The loop of `ConsoleTest` goes on; the cases are its stages. -/
theorem Consistent.proceed (hinput : ∀ n, (input n).toInt8.toInt ≠ eof)
    (hs : q.Consistent input s) (hready : q.Ready s) (h : q.proceed s = .ok s') :
    q.Consistent input s' := by
  have hfree := hs.free hready
  have hechoed := hs.stage
  unfold ConsoleTest.proceed at h
  split at h
  · rename_i hstage
    rw [hstage] at hechoed
    exact hs.read hready (by rw [hstage]; rfl) hfree hechoed h
  · rename_i hstage
    obtain ⟨out, hput, h⟩ := bind_ok_iff.mp h
    exact hs.write hready hstage hinput hput h
  · rename_i ch hstage
    rw [hstage] at hechoed
    obtain ⟨before, hwritten, hbefore⟩ := hechoed
    have hreads := hs.readAvail
    rw [hstage] at hreads
    split at h
    · rename_i hquit
      rw [← Except.ok.inj h]
      exact ⟨hs.placed, hreads, hs.writeDone, hs.console, hs.told, hs.out,
        fun hbusy => absurd (hfree.symm.trans hbusy) Bool.false_ne_true, hs.echo,
        ⟨before, hquit ▸ hwritten, hbefore⟩⟩
    · rename_i hne
      refine hs.read hready (by rw [hstage]; rfl) hfree ?_ h
      rw [hwritten, List.mem_append, List.mem_singleton]
      rintro (hmem | hquit)
      · exact hbefore hmem
      · exact hne hquit.symm
  · cases h

/-- Before the loop nothing was read or written. -/
theorem Started.consistent (hstart : q.Started s) : q.Consistent input s := by
  obtain ⟨hplaced, hreads, hwrites, hconsole, hout, hstage⟩ := hstart
  refine ⟨hplaced, ?readAvail, ?writeDone, ?console, ?told, ?out, fun hbusy => ?busy, ?echo, ?stage⟩
  case readAvail =>
    rw [hconsole, hout, hstage]
    exact hreads
  case writeDone =>
    rw [hout]
    exact hwrites
  case console =>
    rw [hconsole]
    exact Console.init_valid input
  case told =>
    rw [hconsole]
    exact ⟨fun _ => Nat.le_refl _, Nat.zero_le _⟩
  case out =>
    rw [hout]
    exact ⟨rfl, rfl⟩
  case busy =>
    rw [hout] at hbusy
    cases hbusy
  case echo =>
    rw [hout, hconsole]
    rfl
  case stage =>
    rw [hstage, hout]
    exact List.not_mem_nil

/-- The step lemma: what was written is what was read, up to the character in hand. -/
theorem step_consistent (hinput : ∀ n, (input n).toInt8.toInt ≠ eof) {event : Event}
    (hs : q.Consistent input s) (h : q.step input s event = .ok s') : q.Consistent input s' := by
  cases event with
  | kernel e =>
    rw [step] at h
    split at h
    · rename_i hforeign
      obtain ⟨k', hst, h⟩ := bind_ok_iff.mp h
      obtain ⟨console, hpolls, h⟩ := bind_ok_iff.mp h
      obtain ⟨out, hdone, h⟩ := bind_ok_iff.mp h
      rw [← pure_ok_iff.mp h]
      exact hs.kernelStep hinput hforeign hst hpolls hdone
    · cases h
  | proceed =>
    rw [step] at h
    split at h
    · rename_i hready
      exact hs.proceed hinput hready h
    · cases h

/-! ## Every run -/

theorem await_exists {n : ℕ} {stage : Stage} (hcode : s.kernel.code s.kernel.currentThread = []) :
    ∃ s', await s n stage = .ok s' := by
  refine ⟨{ s with kernel := s.kernel.push (Kernel.Call.p n).routine, stage := stage }, ?_⟩
  rw [await, Kernel.step, hcode]
  rfl

/-- Whenever the thread of the test runs it can go on. -/
theorem Consistent.exists_proceed (hs : q.Consistent input s) (hready : q.Ready s)
    (hstage : s.stage ≠ .returned) : ∃ s', q.step input s .proceed = .ok s' := by
  have hcode : s.kernel.code s.kernel.currentThread = [] := by
    rw [hready.1]
    exact hready.2
  rw [step, if_pos hready, ConsoleTest.proceed]
  split
  · exact await_exists hcode
  · have hput : s.out.putChar s.console.incoming = _ :=
      ConsoleOutput.putChar_of_free (hs.free hready)
    dsimp only
    rw [hput, ok_bind]
    exact await_exists hcode
  · split
    · exact ⟨_, rfl⟩
    · exact await_exists hcode
  · rename_i hreturned
    exact absurd hreturned hstage

/-- The characters that wait in the buffer. -/
theorem Consistent.consumed_length (hs : q.Consistent input s) :
    (s.console.consumed input).length = s.console.notified := by
  rw [Console.consumed_length, hs.console.notified_eq]

end

/-- The console test on an input without a byte `0xFF`, under every schedule: it writes what is
typed in this order, each character once, and is at most one behind; it returns after it has written
the first `q` and not before; and `PutChar` is never called while the display is busy. While the
thread waits, the semaphore has a unit for it if there is a character, or if the display has
finished, and has none otherwise. -/
theorem run_echoes {q : ConsoleTest} {input : ℕ → UInt8}
    (hinput : ∀ n, (input n).toInt8.toInt ≠ eof) {s s' : State} {events : List Event}
    (hstart : q.Started s) (hrun : run (q.step input) s events = .ok s') :
    s'.out.written <+: s'.console.consumed input ∧
    (s'.console.consumed input).length ≤ s'.out.written.length + 1 ∧
    quit ∉ s'.out.written.dropLast ∧
    (s'.stage = .returned → s'.out.written.getLast? = some quit) ∧
    (quit ∈ s'.out.written → s'.stage = .returned ∨ s'.stage = .writing quit) ∧
    (q.Ready s' → s'.stage ≠ .returned → ∃ s'', q.step input s' .proceed = .ok s'') ∧
    (s'.stage = .reading → Kernel.WillTest (.user q.readAvail) (s'.kernel.code q.thread) →
      (s'.kernel.semaphore (.user q.readAvail)).value =
        ((s'.console.consumed input).length - s'.out.written.length : ℕ)) ∧
    (∀ ch, s'.stage = .writing ch →
      Kernel.WillTest (.user q.writeDone) (s'.kernel.code q.thread) →
      (s'.kernel.semaphore (.user q.writeDone)).value = (!s'.out.putBusy).toNat) := by
  have hs : q.Consistent input s' :=
    run_invariant (fun _ _ _ => step_consistent hinput) hstart.consistent hrun
  have hechoed := hs.stage
  -- a thread inside `P` has exactly one test left
  have hone : ∀ {n calls units : ℕ}, Kernel.Notified n q.thread calls units s'.kernel →
      Kernel.WillTest (.user n) (s'.kernel.code q.thread) →
      Kernel.testsLeft (.user n) (s'.kernel.code q.thread) = 1 := by
    intro n calls units hn htest
    have hle := hn.tests
    have hne : Kernel.testsLeft (.user n) (s'.kernel.code q.thread) ≠ 0 :=
      fun hzero => Kernel.testsLeft_eq_zero.mp hzero htest
    omega
  refine ⟨?echoed, ?behind, ?beforeQuit, fun hreturned => ?returned, fun hmem => ?quits,
    hs.exists_proceed, fun hstage htest => ?reading, fun ch hstage htest => ?writing⟩
  case echoed =>
    rw [hs.echo]
    exact hs.console.lossless.prefix
  case behind =>
    rw [hs.consumed_length, hs.echo]
    exact hs.told.2
  case beforeQuit =>
    cases hstage : s'.stage with
    | start | reading =>
      rw [hstage] at hechoed
      exact fun hmem => hechoed ((List.dropLast_sublist _).subset hmem)
    | writing ch =>
      rw [hstage] at hechoed
      obtain ⟨before, hwritten, hbefore⟩ := hechoed
      rw [hwritten, List.dropLast_concat]
      exact hbefore
    | returned =>
      rw [hstage] at hechoed
      obtain ⟨before, hwritten, hbefore⟩ := hechoed
      rw [hwritten, List.dropLast_concat]
      exact hbefore
  case returned =>
    rw [hreturned] at hechoed
    obtain ⟨before, hwritten, -⟩ := hechoed
    rw [hwritten, List.getLast?_concat]
  case quits =>
    cases hstage : s'.stage with
    | start | reading =>
      rw [hstage] at hechoed
      exact absurd hmem hechoed
    | writing ch =>
      rw [hstage] at hechoed
      obtain ⟨before, hwritten, hbefore⟩ := hechoed
      rw [hwritten, List.mem_append, List.mem_singleton] at hmem
      rcases hmem with hmem | hquit
      · exact absurd hmem hbefore
      · exact .inr (congrArg Stage.writing hquit.symm)
    | returned => exact .inl rfl
  case reading =>
    -- as many units as characters read and not yet written, since the thread's own call is pending
    have hvalue := hs.readAvail.value
    rw [hone hs.readAvail htest, hstage] at hvalue
    have hle := hs.console.lossless.prefix.length_le
    rw [hs.consumed_length, ← hs.echo] at hle
    have hasked : Stage.reading.asked = 1 := rfl
    rw [hs.consumed_length]
    omega
  case writing =>
    -- one unit exactly if the display is free again
    have hvalue := hs.writeDone.value
    rw [hone hs.writeDone htest] at hvalue
    have hwritten := hs.out.written
    have hpending := hs.out.pending
    cases hbusy : s'.out.putBusy with
    | false =>
      rw [hbusy] at hpending
      have hpending : s'.out.pending = 0 := hpending
      show _ = (1 : ℤ)
      omega
    | true =>
      rw [hbusy] at hpending
      have hpending : s'.out.pending = 1 := hpending
      show _ = (0 : ℤ)
      omega

/-- Thread `0` runs the test, with semaphores `0` and `1`. -/
def console : ConsoleTest := ⟨0, 0, 1, by decide⟩

/-- A kernel that has just been booted. -/
def boot : State := ⟨Kernel.boot fun _ => 0, .init, .init, .start⟩

theorem boot_started : console.Started boot :=
  ⟨(Kernel.boot_booted fun _ => 0).placed, (Kernel.boot_booted fun _ => 0).notified rfl,
    (Kernel.boot_booted fun _ => 0).notified rfl, rfl, rfl, rfl⟩

/-- Somebody types `aq`. -/
def typed (n : ℕ) : UInt8 := if n = 0 then 97 else 113

/-- The thread sleeps in `P` until the handler of the device has woken it. -/
def awaiting (n : ℕ) : List Event := [
  .proceed, .kernel .exec, .kernel .exec, .kernel (.idle [.v n]),
  .kernel .exec, .kernel .exec, .kernel .exec, .kernel (.tick [])]

def echoingRun : List Event :=
  awaiting 0 ++ awaiting 1 ++ awaiting 0 ++ awaiting 1 ++ [.proceed]

theorem echoingRun_echoes : ∃ s, run (console.step typed) boot echoingRun = .ok s ∧
    s.stage = .returned ∧ s.out.written = [97, quit] ∧
    s.out.written <+: s.console.consumed typed ∧ quit ∉ s.out.written.dropLast := by
  obtain ⟨s, hrun, hstage, hwritten⟩ : ∃ s,
      run (console.step typed) boot echoingRun = .ok s ∧ s.stage = .returned ∧
      s.out.written = [97, quit] := by decide +kernel
  have hinput : ∀ n, (typed n).toInt8.toInt ≠ eof := by
    intro n
    unfold typed
    split <;> decide
  obtain ⟨ hprefix, -, hquit, -⟩ := run_echoes hinput boot_started hrun
  exact ⟨s, hrun, hstage, hwritten, hprefix, hquit⟩

end ConsoleTest
end NachOS
