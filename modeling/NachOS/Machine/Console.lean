import NachOS.Machine.Hardware
import NachOS.Lib.Run
import Mathlib.Order.Defs.LinearOrder
import Mathlib.Data.List.Basic

/-!
# Console input

The input side of `console.cc`: a poll reads a character into a buffer for one and notifies the
kernel, which fetches it with `GetChar`. An empty buffer holds `EOF`, which as a `char` is the
byte `0xFF`. When polls come and whether there is something to read is up to the world outside.

`notified` and `returned` only record what has happened: nothing in the functions reads them.
-/

namespace NachOS

open PartialRun

/-- `EOF` of the C library. -/
def eof : ℤ := -1

/-- The input side of `Console`. -/
structure Console where
  /-- How much of the file was read. -/
  position : ℕ
  incoming : Int8
  numConsoleCharsRead : ℕ
  /-- The calls of `readHandler`. -/
  notified : ℕ
  /-- What `GetChar` returned. -/
  returned : List Int8

namespace Console

/-- What happens. -/
inductive Event where
  /-- `CheckCharAvail`, with what `PollFile` answers if it is asked. -/
  | checkCharAvail (avail : Bool)
  | getChar
deriving DecidableEq, Repr

/-- The constructor. -/
def init : Console where
  position := 0
  incoming := .ofInt eof
  numConsoleCharsRead := 0
  notified := 0
  returned := []

/-- `CheckCharAvail`, after it has scheduled the next poll. -/
def checkCharAvail (input : ℕ → UInt8) (s : Console) (avail : Bool) : Console :=
  if s.incoming.toInt ≠ eof ∨ ¬ avail then s
  else { s with
    position := s.position + 1
    incoming := (input s.position).toInt8
    numConsoleCharsRead := s.numConsoleCharsRead + 1
    notified := s.notified + 1 }

/-- `GetChar`. -/
def getChar (s : Console) : Console :=
  { s with incoming := .ofInt eof, returned := s.returned ++ [s.incoming] }

/-- The next state. -/
def next (input : ℕ → UInt8) (s : Console) : Event → Console
  | .checkCharAvail avail => s.checkCharAvail input avail
  | .getChar => s.getChar

/-- The next state, as a step that does not fail. -/
def step (input : ℕ → UInt8) (s : Console) (event : Event) : Except Fault Console :=
  .ok (s.next input event)

/-- The kernel calls `GetChar` once for each call of `readHandler`. -/
def Announced (s : Console) : Event → Prop
  | .checkCharAvail _ => True
  | .getChar => s.returned.length < s.notified

/-- The characters that were read from the file. -/
def consumed (input : ℕ → UInt8) (s : Console) : List Int8 :=
  (List.range s.position).map fun n => (input n).toInt8

/-- What was read was returned in this order, except for a character in the buffer. -/
def Lossless (input : ℕ → UInt8) (s : Console) : Prop :=
  ∃ waiting, s.consumed input = s.returned ++ waiting ∧ waiting.length ≤ 1 ∧
    ∀ c ∈ waiting, s.incoming = c

/-- A poll that finds something to read does not come while a byte `0xFF` waits to be fetched. -/
def Fetched (s : Console) : Event → Prop
  | .checkCharAvail avail => avail → s.incoming.toInt = eof → s.notified ≤ s.returned.length
  | .getChar => True

instance (s : Console) : DecidablePred s.Announced
  | .checkCharAvail _ => inferInstanceAs (Decidable True)
  | .getChar => inferInstanceAs (Decidable (_ < _))

instance (s : Console) : DecidablePred s.Fetched
  | .checkCharAvail _ => inferInstanceAs (Decidable (_ → _ → _ ≤ _))
  | .getChar => inferInstanceAs (Decidable True)

/-- One character waits in the buffer, or the buffer is empty. -/
structure Valid (input : ℕ → UInt8) (s : Console) : Prop where
  notified_eq : s.notified = s.position
  lossless : s.Lossless input
  empty : s.returned.length = s.notified → s.incoming = .ofInt eof

variable {input : ℕ → UInt8} {s : Console} {event : Event}

theorem Lossless.prefix (h : s.Lossless input) : s.returned <+: s.consumed input := by
  obtain ⟨waiting, heq, -⟩ := h
  exact ⟨waiting, heq.symm⟩

theorem consumed_length (input : ℕ → UInt8) (s : Console) :
    (s.consumed input).length = s.position := by simp [consumed]

theorem init_valid (input : ℕ → UInt8) : Valid input init :=
  ⟨rfl, ⟨[], rfl, by simp, by simp⟩, fun _ => rfl⟩

/-- A poll that reads. -/
theorem checkCharAvail_of_empty (h : s.incoming.toInt = eof) :
    s.checkCharAvail input true = { s with
      position := s.position + 1
      incoming := (input s.position).toInt8
      numConsoleCharsRead := s.numConsoleCharsRead + 1
      notified := s.notified + 1 } := if_neg (by simp [h])

/-- A poll that does not. -/
theorem checkCharAvail_of_not {avail : Bool} (h : ¬ (avail ∧ s.incoming.toInt = eof)) :
    s.checkCharAvail input avail = s := by
  apply if_pos
  by_cases havail : avail
  · exact .inl fun heq => h ⟨havail, heq⟩
  · exact .inr havail

/-- The character that is read is returned later, if none waits in the buffer. -/
theorem checkCharAvail_lossless_iff (h : Valid input s) (hempty : s.incoming.toInt = eof) :
    (s.checkCharAvail input true).Lossless input ↔ s.notified ≤ s.returned.length := by
  obtain ⟨waiting, heq, hlength, -⟩ := h.lossless
  have hcount : s.position = s.returned.length + waiting.length := by
    rw [← consumed_length input s, heq, List.length_append]
  have hnotified := h.notified_eq
  have hconsumed : (s.checkCharAvail input true).consumed input =
      s.returned ++ (waiting ++ [(input s.position).toInt8]) := by
    rw [checkCharAvail_of_empty hempty, consumed, List.range_succ, List.map_append,
      ← List.append_assoc, ← heq]
    rfl
  rw [Lossless, hconsumed, checkCharAvail_of_empty hempty]
  constructor
  · intro hlossless
    obtain ⟨waiting', heq', hlength', -⟩ := hlossless
    have hsame := congrArg List.length heq'
    simp at hsame
    omega
  · intro hle
    have hnil : waiting = [] := List.length_eq_zero_iff.mp (by omega)
    exact ⟨[(input s.position).toInt8], by rw [hnil]; rfl, by simp, by simp⟩

theorem getChar_valid (h : Valid input s) (hannounced : s.returned.length < s.notified) :
    Valid input s.getChar := by
  obtain ⟨waiting, heq, hlength, hbuffer⟩ := h.lossless
  have hcount : s.position = s.returned.length + waiting.length := by
    rw [← consumed_length input s, heq, List.length_append]
  have hnotified := h.notified_eq
  obtain ⟨c, rfl⟩ : ∃ c, waiting = [c] := List.length_eq_one_iff.mp (by omega)
  have hc : s.incoming = c := hbuffer c (List.mem_singleton_self c)
  have hconsumed : s.getChar.consumed input = s.getChar.returned ++ [] := by
    rw [List.append_nil, getChar, hc]
    exact heq
  exact ⟨hnotified, ⟨[], hconsumed, by simp, by simp⟩, fun _ => rfl⟩

/-- What one step does to a state in which nothing was lost. -/
theorem next_lossless_iff (h : Valid input s) (hannounced : s.Announced event) :
    (s.next input event).Lossless input ↔ s.Fetched event := by
  cases event with
  | checkCharAvail avail =>
    by_cases hread : avail ∧ s.incoming.toInt = eof
    · obtain ⟨rfl, hempty⟩ := hread
      rw [next, checkCharAvail_lossless_iff h hempty]
      exact ⟨fun hle _ _ => hle, fun hfetched => hfetched rfl hempty⟩
    · rw [next, checkCharAvail_of_not hread]
      exact ⟨fun _ havail hempty => absurd ⟨havail, hempty⟩ hread, fun _ => h.lossless⟩
  | getChar => exact ⟨fun _ => trivial, fun _ => (getChar_valid h hannounced).lossless⟩

theorem next_valid (h : Valid input s) (hannounced : s.Announced event)
    (hfetched : s.Fetched event) : Valid input (s.next input event) := by
  cases event with
  | checkCharAvail avail =>
    by_cases hread : avail ∧ s.incoming.toInt = eof
    · obtain ⟨rfl, hempty⟩ := hread
      have hle := hfetched rfl hempty
      have hlossless := (checkCharAvail_lossless_iff h hempty).mpr hle
      rw [next]
      rw [checkCharAvail_of_empty hempty] at hlossless ⊢
      refine ⟨congrArg (· + 1) h.notified_eq, hlossless, fun hall => ?_⟩
      -- one more was announced than returned
      have hall' : s.returned.length = s.notified + 1 := hall
      have hprefix := h.lossless.prefix.length_le
      rw [consumed_length, ← h.notified_eq] at hprefix
      omega
    · rw [next, checkCharAvail_of_not hread]
      exact h
  | getChar => exact getChar_valid h hannounced

/-- A kernel that fetches what is announced gets the input without a loss exactly if no poll reads
on while a byte `0xFF` waits in the buffer. -/
theorem lossless_iff_fetched (input : ℕ → UInt8) (events : List Event)
    (hannounced : Along (step input) Announced init events) :
    Along (step input) (fun s event => (s.next input event).Lossless input) init events ↔
      Along (step input) Fetched init events := by
  have hkeep : ∀ s event s', Valid input s → s.Announced event ∧ s.Fetched event →
      step input s event = .ok s' → Valid input s' := by
    intro s event s' hvalid hcond hstep
    rw [step, Except.ok.injEq] at hstep
    exact hstep ▸ next_valid hvalid hcond.1 hcond.2
  have hiff : ∀ s event, Valid input s →
      (s.Announced event ∧ (s.next input event).Lossless input ↔
        s.Announced event ∧ s.Fetched event) := by
    intro s event hvalid
    exact and_congr_right fun hannounced => next_lossless_iff hvalid hannounced
  -- the two conditions say the same of each state, and so of the run
  have hboth : Along (step input)
      (fun s event => s.Announced event ∧ (s.next input event).Lossless input) init events ↔
      Along (step input) (fun s event => s.Announced event ∧ s.Fetched event) init events :=
    Along.iff hkeep hiff (init_valid input)
  exact ⟨fun h => (hboth.mp (hannounced.and h)).imp fun _ _ hcond => hcond.2,
    fun h => (hboth.mpr (hannounced.and h)).imp fun _ _ hcond => hcond.2⟩

theorem lossless_iff_fetched_twice :
    Along (step fun _ => 97) Announced init
        [.checkCharAvail true, .checkCharAvail true, .getChar] ∧
      (Along (step fun _ => 97) (fun s event => (s.next (fun _ => 97) event).Lossless fun _ => 97)
          init [.checkCharAvail true, .checkCharAvail true, .getChar] ↔
        Along (step fun _ => 97) Fetched init
          [.checkCharAvail true, .checkCharAvail true, .getChar]) :=
  ⟨by decide, lossless_iff_fetched _ _ (by decide)⟩

/-- After a byte `0xFF` the next one takes its place, and `EOF` is returned for the last one. -/
theorem not_lossless : ∃ (input : ℕ → UInt8) (events : List Event),
    Along (step input) Announced init events ∧
      ∃ s, run (step input) init events = .ok s ∧ s.returned = [97, -1] ∧
        s.consumed input = [-1, 97] ∧ ¬ s.returned <+: s.consumed input :=
  ⟨fun n => if n = 0 then 0xFF else 97,
    [.checkCharAvail true, .checkCharAvail true, .getChar, .getChar], by decide, by decide⟩

/-- The buffer tells whether a character waits. -/
def Told (s : Console) : Prop :=
  (s.incoming.toInt = eof → s.notified ≤ s.returned.length) ∧
    s.notified ≤ s.returned.length + 1

theorem next_told (hinput : ∀ n, (input n).toInt8.toInt ≠ eof) (h : s.Told)
    (hannounced : s.Announced event) : (s.next input event).Told := by
  cases event with
  | checkCharAvail avail =>
    by_cases hread : avail ∧ s.incoming.toInt = eof
    · obtain ⟨rfl, hempty⟩ := hread
      rw [next, checkCharAvail_of_empty hempty]
      exact ⟨fun heof => absurd heof (hinput s.position), Nat.succ_le_succ (h.1 hempty)⟩
    · rw [next, checkCharAvail_of_not hread]
      exact h
  | getChar =>
    have hlength : (s.next input .getChar).returned.length = s.returned.length + 1 :=
      List.length_append
    refine ⟨fun _ => ?_, ?_⟩
    · rw [hlength]
      exact h.2
    · rw [hlength]
      exact Nat.le_succ_of_le h.2

/-- Without a byte `0xFF` in the input nothing is lost. -/
theorem lossless_of_ne (hinput : ∀ n, (input n).toInt8.toInt ≠ eof) {events : List Event}
    (hannounced : Along (step input) Announced init events) :
    Along (step input) Fetched init events := by
  have hkeep : ∀ (s : Console) event s', s.Told → s.Announced event → step input s event = .ok s' →
      s'.Told := by
    intro s event s' htold hannounced hstep
    rw [step, Except.ok.injEq] at hstep
    exact hstep ▸ next_told hinput htold hannounced
  have hiff : ∀ (s : Console) event, s.Told →
      (s.Announced event ∧ s.Fetched event ↔ s.Announced event) := by
    intro s event htold
    refine and_iff_left_of_imp fun _ => ?_
    cases event with
    | checkCharAvail avail => exact fun _ => htold.1
    | getChar => trivial
  have hinit : init.Told := ⟨fun _ => Nat.le_refl _, Nat.zero_le _⟩
  exact ((Along.iff hkeep hiff hinit).mpr hannounced).imp fun _ _ hcond => hcond.2

end Console
end NachOS
