import NachOS.NoVM.Exec

/-!
# A machine that was just started

Programs are loaded one after the other, while those before them run: `StartProcess` in the first
thread, and `AuxExec` in the new thread of each `Exec`. Each of them computes what its sections say,
as if it had the machine for itself.
-/

namespace NachOS
namespace NoVM

open PartialRun

/-! ## The machine and the kernel -/

inductive SystemEvent where
  /-- A thread that has no address space becomes the process of an executable. -/
  | exec (executable : HostFile)
  /-- A process does something, or `Scheduler::Run` turns to another one. -/
  | turn (t : Turn ℕ ProcessEvent)

structure Multiprogramming where
  state : State
  registers : UserRegisters
  /-- Of the thread of each address space. -/
  userRegisters : ℕ → UserRegisters
  /-- The thread that runs, by its address space. -/
  currentThread : ℕ

namespace Multiprogramming

/-- The state after `Initialize`. -/
def boot : Multiprogramming where
  state := State.initial
  registers := fun _ => 0
  userRegisters := fun _ _ => 0
  currentThread := 0

variable (u : Multiprogramming)

/-- What the processes share. -/
def shared : TimeSharing ℕ where
  registers := u.registers
  mainMemory := u.state.mainMemory
  pageTable i := (u.state.spaces i).pageTable.getD []
  userRegisters := u.userRegisters
  currentThread := u.currentThread

/-- The system with what the processes have done. -/
def withShared (t : TimeSharing ℕ) : Multiprogramming where
  state := { u.state with
    mainMemory := t.mainMemory
    spaces := fun i => { u.state.spaces i with
      pageTable := (u.state.spaces i).pageTable.map fun _ => t.pageTable i } }
  registers := t.registers
  userRegisters := t.userRegisters
  currentThread := t.currentThread

/-- `StartProcess` and `AuxExec`: `new AddrSpace(executable)`, `InitRegisters` and
`RestoreState`. -/
def exec (executable : HostFile) : Except Fault Multiprogramming := do
  -- `Scheduler::Run` has saved the registers, if the thread before had an address space
  let userRegisters := if u.currentThread < u.state.numSpaces
    then Function.update u.userRegisters u.currentThread u.registers else u.userRegisters
  match ← u.state.exeNoVirtualMemoryConstructor executable with
  | (some space, state) =>
    match space.pageTable with
    | none => .error .uninitialised
    | some _ => return {
        state := state.allocate space
        registers := (Machine.initRegisters ⟨u.registers, ()⟩ space.numPages).registers
        userRegisters
        currentThread := u.state.numSpaces }
  -- the new thread has finished
  | (none, state) => return { u with state }

def step (debug : Bool) (u : Multiprogramming) : SystemEvent → Except Fault Multiprogramming
  | .exec executable => u.exec executable
  | .turn (.act e) =>
    if u.currentThread < u.state.numSpaces then do
      let t ← TimeSharing.step debug u.shared (.act e)
      return u.withShared t
    else .error .uninitialised
  | .turn (.pass next) =>
    if next < u.state.numSpaces then .ok (u.withShared (u.shared.run next)) else .error .deleted

end Multiprogramming

/-! ## The events -/

namespace SystemEvent

/-- The executables that are loaded, in order. -/
def executables : List SystemEvent → List HostFile
  | [] => []
  | .exec executable :: es => executable :: executables es
  | .turn _ :: es => executables es

/-- Only processes that have been loaded have their turns; `n` of them are there already. -/
def Proper : ℕ → List SystemEvent → Prop
  | _, [] => True
  | n, .exec _ :: es => Proper (n + 1) es
  | n, .turn (.act _) :: es => 0 < n ∧ Proper n es
  | n, .turn (.pass next) :: es => next < n ∧ Proper n es

/-- The turns of the processes: a process has the first of them when it is loaded. -/
def turns : ℕ → List SystemEvent → List (Turn ℕ ProcessEvent)
  | _, [] => []
  | n, .exec _ :: es => .pass n :: turns (n + 1) es
  | n, .turn t :: es => t :: turns n es

instance decidableProper : (n : ℕ) → (es : List SystemEvent) → Decidable (Proper n es)
  | _, [] => inferInstanceAs (Decidable True)
  | n, .exec _ :: es => decidableProper (n + 1) es
  | n, .turn (.act _) :: es =>
    haveI := decidableProper n es
    inferInstanceAs (Decidable (_ ∧ _))
  | n, .turn (.pass _) :: es =>
    haveI := decidableProper n es
    inferInstanceAs (Decidable (_ ∧ _))

/-- A process that is never loaded has no turns. -/
theorem own_turns_of_le {i : ℕ} {es : List SystemEvent} : ∀ {n current : ℕ}, Proper n es →
    (0 < n → current < n) → n + (executables es).length ≤ i →
    Turns.own i current (turns n es) = [] := by
  induction es with
  | nil => exact fun _ _ _ => rfl
  | cons e es ih =>
    intro n current hproper hcurrent hle
    cases e with
    | exec executable =>
      rw [executables, List.length_cons] at hle
      exact ih (n := n + 1) hproper (fun _ => Nat.lt_succ_self n) (by omega)
    | turn t =>
      cases t with
      | act e =>
        obtain ⟨hpos, hproper⟩ := hproper
        have hne : current ≠ i := by
          have hlt := hcurrent hpos
          rw [executables] at hle
          omega
        rw [turns, Turns.own, if_neg hne]
        exact ih hproper hcurrent hle
      | pass next => exact ih hproper.2 (fun _ => hproper.1) hle

end SystemEvent

/-! ## What holds while they run -/

/-- The machine that a program thinks it has: the memory is as its sections say. -/
def start (p : Program) : Machine FlatMemory :=
  Machine.initRegisters ⟨fun _ => 0, ⟨p.numPages, p.image⟩⟩ p.numPages

/-- The frames that the first `n` programs need. -/
def usedFrames (ps : List Program) (n : ℕ) : ℕ := ((ps.take n).map Program.numPages).sum

/-- The frames of a program. -/
def ownedFrames (ps : List Program) (i : ℕ) : List ℤ :=
  (List.range' (usedFrames ps i) (usedFrames ps (i + 1) - usedFrames ps i)).map Nat.cast

/-- The first `n` programs have been loaded. -/
structure Running (ps : List Program) (n : ℕ) (u : Multiprogramming)
    (f : Turns ℕ (Machine FlatMemory)) : Prop where
  numSpaces : u.state.numSpaces = n
  current : 0 < n → u.currentThread < n
  constructed : ∀ i < n, ∃ pageTable, (u.state.spaces i).pageTable = some pageTable
  stands : TimeSharing.Stands (· < n) (ownedFrames ps) (fun _ => 0) u.shared f
  numBits : u.state.miMapa.numBits = miMapaSize
  clearList : u.state.miMapa.clearList =
    List.range' (usedFrames ps n) (miMapaSize - usedFrames ps n)
  waiting : ∀ i p, n ≤ i → ps[i]? = some p → f.systems i = start p

section

variable {ps : List Program} {n i : ℕ} {p : Program} {u : Multiprogramming}
  {f : Turns ℕ (Machine FlatMemory)}

/-- The frames of the programs lie behind one another. -/
theorem usedFrames_succ (hp : ps[n]? = some p) :
    usedFrames ps (n + 1) = usedFrames ps n + p.numPages := by
  rw [usedFrames, List.take_add_one, hp, List.map_append, List.sum_append]
  rfl

theorem usedFrames_mono (ps : List Program) {n m : ℕ} (h : n ≤ m) : usedFrames ps n ≤ usedFrames ps m := by
  have hprefix : (ps.take n).map Program.numPages <+: (ps.take m).map Program.numPages :=
    (List.take_prefix_take_left h).map _
  obtain ⟨rest, hrest⟩ := hprefix
  rw [usedFrames, usedFrames, ← hrest, List.sum_append]
  exact Nat.le_add_right _ _

theorem usedFrames_le (ps : List Program) (n : ℕ) : usedFrames ps n ≤ (ps.map Program.numPages).sum := by
  have hmono := usedFrames_mono ps (Nat.le_max_left n ps.length)
  rw [usedFrames, usedFrames, List.take_of_length_le (Nat.le_max_right n ps.length)] at hmono
  exact hmono

/-- A program's frames are an interval, so its addresses are one too. -/
theorem inFrames_ownedFrames {address : ℕ} : InFrames (ownedFrames ps i) address ↔
    usedFrames ps i ≤ address / pageSize ∧ address / pageSize < usedFrames ps (i + 1) := by
  have hmono := usedFrames_mono ps (Nat.le_succ i)
  constructor
  · rintro ⟨frame, hframe, hplace⟩
    obtain ⟨k, hk, rfl⟩ := List.mem_map.mp hframe
    rw [List.mem_range'_1] at hk
    omega
  · intro haddress
    refine ⟨(address / pageSize : ℕ), List.mem_map.mpr ⟨_, ?_, rfl⟩, Int.toNat_natCast _⟩
    rw [List.mem_range'_1]
    omega

/-- Two programs share no frame. -/
theorem ownedFrames_disjoint {j : ℕ} (h : i ≠ j) :
    (ownedFrames ps i).Disjoint (ownedFrames ps j) := by
  intro frame hi hj
  obtain ⟨k, hk, rfl⟩ := List.mem_map.mp hi
  obtain ⟨k', hk', heq⟩ := List.mem_map.mp hj
  have hsame : k' = k := Int.ofNat_inj.mp heq
  rw [List.mem_range'_1] at hk hk'
  rcases Nat.lt_or_gt_of_ne h with hlt | hlt
  · have := usedFrames_mono ps (show i + 1 ≤ j from hlt)
    omega
  · have := usedFrames_mono ps (show j + 1 ≤ i from hlt)
    omega

/-! ## Steps -/

/-- Page tables of threads that do not exist do not matter. -/
theorem TimeSharing.Stands.withTables {exist : ℕ → Prop} {owned : ℕ → List ℤ} {unused : Bytes}
    {t : TimeSharing ℕ} (h : TimeSharing.Stands exist owned unused t f)
    {pageTable : ℕ → List TranslationEntry} (hsame : ∀ i, exist i → pageTable i = t.pageTable i) :
    TimeSharing.Stands exist owned unused { t with pageTable } f where
  current := h.current
  frames_eq := by
    intro i hi
    rw [← h.frames_eq i hi, frames, frames]
    dsimp only
    rw [hsame i hi]
  disjoint := h.disjoint
  registers := h.registers
  implements := by
    intro i hi
    dsimp only
    rw [hsame i hi]
    exact h.implements i hi
  unowned := h.unowned

/-- The system after a turn. -/
theorem Running.withShared (h : Running ps n u f) {t : TimeSharing ℕ}
    {f' : Turns ℕ (Machine FlatMemory)}
    (ht : TimeSharing.Stands (· < n) (ownedFrames ps) (fun _ => 0) t f')
    (hcurrent : 0 < n → t.currentThread < n)
    (hwaiting : ∀ i, n ≤ i → f'.systems i = f.systems i) : Running ps n (u.withShared t) f' where
  numSpaces := h.numSpaces
  current := hcurrent
  constructed := by
    intro i hi
    obtain ⟨pageTable, htable⟩ := h.constructed i hi
    exact ⟨t.pageTable i, by rw [Multiprogramming.withShared]; dsimp only; rw [htable]; rfl⟩
  stands := by
    refine ht.withTables fun i hi => ?_
    obtain ⟨pageTable, htable⟩ := h.constructed i hi
    dsimp only [Multiprogramming.withShared]
    rw [htable]
    rfl
  numBits := h.numBits
  clearList := h.clearList
  waiting := fun i p hi hp => (hwaiting i hi).trans (h.waiting i p hi hp)

/-- A switch saves and restores the registers, and leaves the memory alone. -/
theorem Running.pass (h : Running ps n u f) {next : ℕ} (hnext : next < n) (debug : Bool) :
    Matches (Running ps n) (u.step debug (.turn (.pass next)))
      (f.turn (Machine.happen unshared debug) (.pass next)) := by
  rw [Multiprogramming.step, if_pos (by rw [h.numSpaces]; exact hnext)]
  exact .ok (h.withShared (h.stands.pass next) (fun _ => hnext) fun _ _ => rfl)

/-- An instruction of the current thread is one of its own machine. -/
theorem Running.act (h : Running ps n u f) (hpos : 0 < n) (debug : Bool) (e : ProcessEvent) :
    Matches (Running ps n) (u.step debug (.turn (.act e)))
      (f.turn (Machine.happen unshared debug) (.act e)) := by
  have hcurrent := h.current hpos
  rw [Multiprogramming.step, if_pos (by rw [h.numSpaces]; exact hcurrent)]
  rw [← bind_pure (f.turn (Machine.happen unshared debug) (.act e))]
  refine (h.stands.act hcurrent debug e).results.bind fun t f' hafter => ?_
  obtain ⟨hstands, -, hturn⟩ := hafter
  obtain ⟨hsame, hothers⟩ := Turns.turn_act_ok hturn
  -- the thread that runs is the one that ran before
  have hthread : t.currentThread = u.currentThread :=
    hstands.current.trans (hsame.trans h.stands.current.symm)
  refine .ok (h.withShared hstands (fun _ => by rwa [hthread]) fun i hi => hothers i ?_)
  rw [← h.stands.current]
  show i ≠ u.currentThread
  omega

/-- The registers of the processes when another one is loaded. -/
theorem registersOf_exec {t t' : TimeSharing ℕ} (hcurrent : t'.currentThread = n)
    (hsaved : t'.userRegisters = if t.currentThread < n
      then Function.update t.userRegisters t.currentThread t.registers else t.userRegisters)
    (hi : i < n) : t'.registersOf i = t.registersOf i := by
  rw [TimeSharing.registersOf, TimeSharing.registersOf, hcurrent, if_neg (Nat.ne_of_lt hi), hsaved]
  by_cases hrunning : i = t.currentThread
  · rw [if_pos hrunning, if_pos (by omega), hrunning, Function.update_self]
  · rw [if_neg hrunning]
    split
    · rw [Function.update_of_ne hrunning]
    · rfl

/-- The next program has been loaded into the frames behind those of the others. -/
structure Starts (ps : List Program) (n : ℕ) (p : Program) (u u' : Multiprogramming)
    (space : AddrSpace) (state : State) : Prop where
  program : ps[n]? = some p
  loads : Loads p u.state space state
  fit : usedFrames ps (n + 1) ≤ miMapaSize
  state_eq : u'.state = state.allocate space
  current : u'.currentThread = n
  registers : u'.registers = (start p).registers
  saved : u'.userRegisters = if u.currentThread < n
    then Function.update u.userRegisters u.currentThread u.registers else u.userRegisters

section Starts

variable {space : AddrSpace} {state : State} {u' : Multiprogramming}

theorem Starts.numSpaces (hs : Starts ps n p u u' space state) (h : Running ps n u f) :
    state.numSpaces = n := hs.loads.numSpaces.trans h.numSpaces

/-- Starting a program adds one address space. -/
theorem Starts.spaces (hs : Starts ps n p u u' space state) (h : Running ps n u f) :
    u'.state.spaces = Function.update u.state.spaces n space := by
  rw [hs.state_eq, State.allocate]
  dsimp only
  rw [hs.numSpaces h, hs.loads.spaces]

/-- The frames are the first ones that are clear. -/
theorem Starts.take (hs : Starts ps n p u u' space state) (h : Running ps n u f) :
    u.state.miMapa.clearList.take p.numPages = List.range' (usedFrames ps n) p.numPages := by
  have hused := usedFrames_succ hs.program
  have hfit := hs.fit
  rw [h.clearList, List.take_range'_of_length_ge (by omega)]

/-- The page tables of the programs before it are kept. -/
theorem Starts.pageTable_old (hs : Starts ps n p u u' space state) (h : Running ps n u f)
    (hi : i < n) : u'.shared.pageTable i = u.shared.pageTable i := by
  dsimp only [Multiprogramming.shared]
  rw [hs.spaces h, Function.update_of_ne (Nat.ne_of_lt hi)]

/-- The new one maps the first frames that are clear. -/
theorem Starts.pageTable_new (hs : Starts ps n p u u' space state) (h : Running ps n u f) :
    u'.shared.pageTable n = entriesFrom 0 (List.range' (usedFrames ps n) p.numPages) := by
  dsimp only [Multiprogramming.shared]
  rw [hs.spaces h, Function.update_self, hs.loads.pageTable, hs.take h]
  rfl

theorem Starts.mainMemory (hs : Starts ps n p u u' space state) :
    u'.shared.mainMemory = state.mainMemory := by
  show u'.state.mainMemory = _
  rw [hs.state_eq]
  rfl

/-- Memory outside of the frames of the new program is as it was. -/
theorem Starts.mainMemory_kept (hs : Starts ps n p u u' space state) (h : Running ps n u f)
    {address : ℕ} (haddress : address / pageSize < usedFrames ps n ∨
      usedFrames ps (n + 1) ≤ address / pageSize) :
    state.mainMemory address = u.state.mainMemory address := by
  have hused := usedFrames_succ hs.program
  have hothers := hs.loads.others
  rw [hs.take h] at hothers
  refine hothers address fun hmem => ?_
  rw [List.mem_range'_1] at hmem
  omega

/-- Every program so far has a page table. -/
theorem Starts.constructed (hs : Starts ps n p u u' space state) (h : Running ps n u f)
    (hi : i < n + 1) : ∃ pageTable, (u'.state.spaces i).pageTable = some pageTable := by
  rw [hs.spaces h]
  by_cases hin : i = n
  · rw [hin, Function.update_self]
    exact ⟨_, hs.loads.pageTable⟩
  · rw [Function.update_of_ne hin]
    exact h.constructed i (by omega)

/-- And the frames that come after those of the programs before it. -/
theorem Starts.frames_eq (hs : Starts ps n p u u' space state) (h : Running ps n u f)
    (hi : i < n + 1) : u'.shared.frames i = ownedFrames ps i := by
  rw [TimeSharing.frames]
  by_cases hin : i = n
  · rw [hin, hs.pageTable_new h, map_entriesFrom, ownedFrames, usedFrames_succ hs.program,
      Nat.add_sub_cancel_left]
  · rw [hs.pageTable_old h (by omega)]
    exact h.stands.frames_eq i (by omega)

/-- The registers of a thread that does not run are the saved ones. -/
theorem Starts.registersOf (hs : Starts ps n p u u' space state) (h : Running ps n u f)
    (hi : i < n + 1) : (f.systems i).registers = u'.shared.registersOf i := by
  by_cases hin : i = n
  · rw [hin, TimeSharing.registersOf, if_pos (show n = u'.shared.currentThread from hs.current.symm),
      h.waiting n p le_rfl hs.program]
    exact hs.registers.symm
  · rw [registersOf_exec (t := u.shared) hs.current hs.saved (by omega)]
    exact h.stands.registers i (by omega)

/-- The new program has its image, and zeros behind it: its frames have not been used. -/
theorem Starts.implements_new (hs : Starts ps n p u u' space state) (h : Running ps n u f) :
    Implements (f.systems n).memory.numPages ⟨u'.shared.pageTable n, u'.shared.mainMemory⟩
      (f.systems n).memory.bytes := by
  have hlength := hs.loads.length
  have hlinear := hs.loads.linear
  have himage := hs.loads.image
  rw [hs.take h] at hlength hlinear himage
  rw [hs.pageTable_new h, hs.mainMemory, h.waiting n p le_rfl hs.program]
  refine ⟨hlinear, (length_entriesFrom _ _).trans hlength, fun a ha => ?_⟩
  show state.mainMemory (place _ a) = p.image a
  rw [himage a ha]
  split
  · rfl
  · rename_i hzero
    rw [p.image_zero (not_lt.mp hzero)]
    refine h.stands.unowned _ fun i hi hin => ?_
    obtain ⟨e, he, -⟩ := exists_entry ((length_entriesFrom 0 _).trans hlength) ha
    obtain ⟨frame, hframe, hplace⟩ := place_inFrames he
    rw [map_entriesFrom] at hframe
    obtain ⟨k, hk, rfl⟩ := List.mem_map.mp hframe
    rw [List.mem_range'_1] at hk
    rw [inFrames_ownedFrames] at hin
    have hmono := usedFrames_mono ps (show i + 1 ≤ n from hi)
    omega

/-- The constructor writes the new frames only, so the memories of the others are kept. -/
theorem Starts.implements_old (hs : Starts ps n p u u' space state) (h : Running ps n u f)
    (hi : i < n) :
    Implements (f.systems i).memory.numPages ⟨u'.shared.pageTable i, u'.shared.mainMemory⟩
      (f.systems i).memory.bytes := by
  have hother := h.stands.implements i hi
  rw [hs.pageTable_old h hi, hs.mainMemory]
  refine ⟨hother.linear, hother.length, fun a ha => ?_⟩
  obtain ⟨e, he, -⟩ := exists_entry hother.length ha
  have hplace : InFrames (u.shared.frames i) (place (u.shared.pageTable i) a) := place_inFrames he
  rw [h.stands.frames_eq i hi, inFrames_ownedFrames] at hplace
  have hmono := usedFrames_mono ps (show i + 1 ≤ n from hi)
  show state.mainMemory (place (u.shared.pageTable i) a) = _
  rw [hs.mainMemory_kept h (.inl (by omega))]
  exact hother.bytes a ha

/-- The frames that no program has are still clear. -/
theorem Starts.unowned (hs : Starts ps n p u u' space state) (h : Running ps n u f) {address : ℕ}
    (hunowned : ∀ i < n + 1, ¬ InFrames (ownedFrames ps i) address) :
    u'.shared.mainMemory address = 0 := by
  have hnot := hunowned n (Nat.lt_succ_self n)
  rw [inFrames_ownedFrames] at hnot
  rw [hs.mainMemory, hs.mainMemory_kept h (by omega)]
  exact h.stands.unowned address fun i hi => hunowned i (by omega)

/-- They are the ones the next program will get. -/
theorem Starts.clearList (hs : Starts ps n p u u' space state) (h : Running ps n u f) :
    u'.state.miMapa.clearList =
      List.range' (usedFrames ps (n + 1)) (miMapaSize - usedFrames ps (n + 1)) := by
  rw [hs.state_eq]
  refine hs.loads.clearList.trans ?_
  rw [h.clearList, List.drop_range', usedFrames_succ hs.program]
  congr 1
  · omega
  · omega

end Starts

/-- A program has been loaded into the frames behind those of the others. -/
theorem Running.loaded (h : Running ps n u f) {space : AddrSpace} {state : State}
    {u' : Multiprogramming} (hs : Starts ps n p u u' space state) :
    Running ps (n + 1) u' { f with current := n } where
  numSpaces := by
    rw [hs.state_eq, State.allocate]
    dsimp only
    rw [hs.numSpaces h]
  current := fun _ => by
    rw [hs.current]
    exact Nat.lt_succ_self n
  constructed := fun i hi => hs.constructed h hi
  stands := {
    current := hs.current
    frames_eq := fun i hi => hs.frames_eq h hi
    disjoint := fun i j _ _ hij => ownedFrames_disjoint hij
    registers := fun i hi => hs.registersOf (f := f) h hi
    implements := fun i hi => by
      by_cases hin : i = n
      · rw [hin]
        exact hs.implements_new (f := f) h
      · exact hs.implements_old (f := f) h (by omega)
    unowned := fun address hunowned => hs.unowned h hunowned }
  numBits := by
    rw [hs.state_eq]
    exact hs.loads.numBits.trans h.numBits
  clearList := hs.clearList h
  waiting := fun i q hi hq => h.waiting i q (by omega) hq

/-- The next program is loaded. -/
theorem Running.exec (h : Running ps n u f) (hp : ps[n]? = some p) {noff : HostFile}
    {noffH : NoffHeader} (hnoff : p.IsNoff noff noffH)
    (hfit : usedFrames ps (n + 1) ≤ numPhysPages) :
    ∃ u', u.exec noff = .ok u' ∧ Running ps (n + 1) u' { f with current := n } := by
  have hused := usedFrames_succ hp
  have hbits : miMapaSize = 1024 := rfl
  rw [numPhysPages_eq] at hfit
  have hclear : u.state.miMapa.numClear = miMapaSize - usedFrames ps n := by
    rw [← BitMap.length_clearList, h.clearList, List.length_range']
  obtain ⟨space, state, hexec, hloads⟩ := exec_loads hnoff (s := u.state)
    (by rw [numPhysPages_eq]; omega) (by omega) (by
      intro frame hframe
      rw [h.clearList, List.take_range'_of_length_ge (by omega), List.mem_range'_1] at hframe
      rw [numPhysPages_eq]
      omega)
  have hok : u.exec noff = .ok ⟨state.allocate space,
      (Machine.initRegisters ⟨u.registers, ()⟩ space.numPages).registers,
      if u.currentThread < u.state.numSpaces
        then Function.update u.userRegisters u.currentThread u.registers else u.userRegisters,
      u.state.numSpaces⟩ := by
    rw [Multiprogramming.exec, hexec, ok_bind]
    dsimp only
    rw [hloads.pageTable]
    rfl
  refine ⟨_, hok, h.loaded ⟨hp, hloads, by omega, rfl, h.numSpaces, ?registers, ?saved⟩⟩
  case registers =>
    dsimp only
    rw [hloads.numPages]
    rfl
  case saved =>
    dsimp only
    rw [h.numSpaces]

/-! ## Runs -/

/-- A machine that nothing happens to. -/
def noProgram : Machine FlatMemory := ⟨fun _ => 0, ⟨0, fun _ => 0⟩⟩

theorem running_boot : Running ps 0 Multiprogramming.boot
    ⟨fun i => (ps[i]?.map start).getD noProgram, 0⟩ where
  numSpaces := rfl
  current := fun h => absurd h (Nat.lt_irrefl 0)
  constructed := fun i hi => absurd hi (Nat.not_lt_zero i)
  stands :=
    { current := rfl
      frames_eq := fun i hi => absurd hi (Nat.not_lt_zero i)
      disjoint := fun i _ hi => absurd hi (Nat.not_lt_zero i)
      registers := fun i hi => absurd hi (Nat.not_lt_zero i)
      implements := fun i hi => absurd hi (Nat.not_lt_zero i)
      unowned := fun _ _ => rfl }
  numBits := rfl
  clearList := by
    have hall : (BitMap.new miMapaSize).clearList = List.range miMapaSize := by
      rw [BitMap.clearList, BitMap.new_numBits, List.filter_eq_self]
      exact fun _ _ => rfl
    rw [show usedFrames ps 0 = 0 from rfl, Nat.sub_zero, ← List.range_eq_range']
    exact hall
  waiting := by
    intro i p _ hp
    dsimp only
    rw [hp]
    rfl

/-- The files that are loaded have been made of the programs, in order. -/
abbrev MadeOf (ps : List Program) (files : List HostFile) : Prop :=
  List.Forall₂ (fun p noff => ∃ stack, coff2noff p.coff stack p.sections = .ok noff) ps files

/-- Every run with room for the programs is one of processes on machines of their own. -/
theorem Running.run (debug : Bool) (hfit : (ps.map Program.numPages).sum ≤ numPhysPages)
    {es : List SystemEvent} : ∀ {n : ℕ} {u : Multiprogramming} {f : Turns ℕ (Machine FlatMemory)},
    Running ps n u f → n ≤ ps.length → SystemEvent.Proper n es →
    MadeOf (ps.drop n) (SystemEvent.executables es) →
    Matches (Running ps ps.length) (PartialRun.run (Multiprogramming.step debug) u es)
      (PartialRun.run (Turns.turn (Machine.happen unshared debug)) f (SystemEvent.turns n es)) := by
  induction es with
  | nil =>
    intro n u f h hn _ hmade
    rw [SystemEvent.executables, MadeOf, List.forall₂_nil_right_iff, List.drop_eq_nil_iff] at hmade
    obtain rfl : n = ps.length := by omega
    exact .ok h
  | cons e es ih =>
    intro n u f h hn hproper hmade
    cases e with
    | exec executable =>
      -- the next program of the list is loaded: its frames are among those that are left
      rw [SystemEvent.executables, MadeOf, List.forall₂_cons_right_iff] at hmade
      obtain ⟨p, rest, ⟨stack, hconvert⟩, hmade, hdrop⟩ := hmade
      have hp : ps[n]? = some p := by
        rw [← List.head?_drop, hdrop]
        rfl
      have hrest : ps.drop (n + 1) = rest := by
        rw [← List.tail_drop, hdrop]
        rfl
      have hroom := (usedFrames_le ps (n + 1)).trans hfit
      obtain ⟨noff, noffH, hok, hnoff⟩ := p.coff2noff_ok stack (by
        have hle := p.size_le
        rw [usedFrames_succ hp, numPhysPages_eq] at hroom
        rw [pageSize_eq] at hle
        unfold noffHeaderSize
        omega)
      obtain rfl : noff = executable := Except.ok.inj (hok.symm.trans hconvert)
      obtain ⟨u', hexec, h'⟩ := h.exec hp hnoff hroom
      obtain ⟨hlt, -⟩ := List.getElem?_eq_some_iff.mp hp
      rw [SystemEvent.turns, run_cons, run_cons, Multiprogramming.step, hexec, ok_bind]
      exact ih h' hlt hproper (by rwa [hrest])
    | turn t =>
      -- a turn of a process that runs, or a switch to another one
      rw [SystemEvent.turns, run_cons, run_cons]
      cases t with
      | act e => exact (h.act hproper.1 debug e).bind fun _ _ h' => ih h' hn hproper.2 hmade
      | pass next => exact (h.pass hproper.1 debug).bind fun _ _ h' => ih h' hn hproper.2 hmade

end

/-- Programs from the linker are converted and loaded into a machine that was just started, at any
time while those before them run. If there are frames for all of them then each ends, whatever the
turns and the interrupts, as on a machine of its own whose memory is as the sections say: with the
same registers, once any pending load is applied, the same program counters and the same memory. -/
theorem run_programs (debug : Bool) (ps : List Program)
    (hfit : (ps.map Program.numPages).sum ≤ numPhysPages) (es : List SystemEvent)
    (hmade : MadeOf ps (SystemEvent.executables es)) (hproper : SystemEvent.Proper 0 es)
    (g : ℕ → Machine FlatMemory)
    (hrule : ∀ i p, ps[i]? = some p →
      Along (Machine.happen unshared debug) (Machine.Disciplined unshared) (start p)
        ((Turns.own i 0 (SystemEvent.turns 0 es)).filter (· ≠ .interrupt)))
    (halone : ∀ i p, ps[i]? = some p → PartialRun.run (Machine.happen unshared debug) (start p)
      ((Turns.own i 0 (SystemEvent.turns 0 es)).filter (· ≠ .interrupt)) = .ok (g i)) :
    ∃ u, PartialRun.run (Multiprogramming.step debug) Multiprogramming.boot es = .ok u ∧
      ∀ i < ps.length, Machine.SameState (g i) ⟨u.shared.registersOf i, (g i).memory⟩ ∧
        ∀ a < (g i).memory.numPages * pageSize,
          u.state.mainMemory (place (u.shared.pageTable i) a) = (g i).memory.bytes a := by
  -- what is not loaded has no turns
  have hnone : ∀ i, ps[i]? = none → Turns.own i 0 (SystemEvent.turns 0 es) = [] := by
    intro i hi
    refine SystemEvent.own_turns_of_le hproper (fun h => absurd h (Nat.lt_irrefl 0)) ?_
    rw [Nat.zero_add, ← hmade.length_eq]
    exact List.getElem?_eq_none_iff.mp hi
  have hmatches := Running.run debug hfit running_boot (Nat.zero_le _) hproper hmade
  obtain ⟨f, hturns, hsame⟩ : ∃ f, PartialRun.run (Turns.turn (Machine.happen unshared debug))
      ⟨fun i => (ps[i]?.map start).getD noProgram, 0⟩ (SystemEvent.turns 0 es) = .ok f ∧
      ∀ i, Machine.SameState (if i < ps.length then g i else noProgram) (f.systems i) := by
    refine TimeSharing.run_turns_alone debug _ 0 _ _ (fun i => ?_) (fun i => ?_) fun i => ?_
    · cases hp : ps[i]? with
      | none => exact Machine.zeros_regular _
      | some p => exact Machine.initRegisters_regular _ _
    · cases hp : ps[i]? with
      | none =>
        rw [hnone i hp]
        trivial
      | some p => exact hrule i p hp
    · cases hp : ps[i]? with
      | none =>
        rw [hnone i hp, if_neg (not_lt.mpr (List.getElem?_eq_none_iff.mp hp))]
        rfl
      | some p =>
        rw [if_pos (List.getElem?_eq_some_iff.mp hp).1]
        exact halone i p hp
  rw [hturns] at hmatches
  obtain ⟨u, hrun, hrunning⟩ := hmatches.exists_ok
  refine ⟨u, hrun, fun i hi => hrunning.stands.mainMemory_eq hi ?_⟩
  have hi' := hsame i
  rw [if_pos hi] at hi'
  exact hi'

/-- The file that the converter makes. -/
def addFiveNoff (word : UInt8) : HostFile :=
  match coff2noff (addFive word).coff (fun _ => 0) (addFive word).sections with
  | .ok noff => noff
  | .error _ => HostFile.empty

/-- The second program is loaded after the first instruction of the first. -/
def twoPrograms : List SystemEvent :=
  [.exec (addFiveNoff 7), .turn (.act .instruction), .turn (.act .interrupt),
    .exec (addFiveNoff 9), .turn (.act .instruction), .turn (.act .interrupt), .turn (.pass 0),
    .turn (.act .instruction), .turn (.act .instruction), .turn (.pass 1),
    .turn (.act .instruction), .turn (.act .instruction)]

theorem run_programs_two : ∃ (u : Multiprogramming) (g : ℕ → Machine FlatMemory),
    PartialRun.run (Multiprogramming.step false) Multiprogramming.boot twoPrograms = .ok u ∧
    (g 0).reg 3 = 12 ∧ (g 1).reg 3 = 14 ∧
    ∀ i < 2, Machine.SameState (g i) ⟨u.shared.registersOf i, (g i).memory⟩ := by
  have halone : ∀ i : Fin 2, ∃ m, PartialRun.run (Machine.happen unshared false)
      (start (addFive (if i = 0 then 7 else 9)))
      ((Turns.own i.val 0 (SystemEvent.turns 0 twoPrograms)).filter (· ≠ .interrupt)) = .ok m ∧
        m.reg 3 = if i = 0 then 12 else 14 := by
    decide +kernel
  obtain ⟨m₀, hm₀, h₀⟩ := halone 0
  obtain ⟨m₁, hm₁, h₁⟩ := halone 1
  have hrule : ∀ i : Fin 2, Along (Machine.happen unshared false) (Machine.Disciplined unshared)
      (start (addFive (if i = 0 then 7 else 9)))
      ((Turns.own i.val 0 (SystemEvent.turns 0 twoPrograms)).filter (· ≠ .interrupt)) := by
    decide +kernel
  have hmade : MadeOf [addFive 7, addFive 9] (SystemEvent.executables twoPrograms) :=
    .cons ⟨fun _ => 0, rfl⟩ (.cons ⟨fun _ => 0, rfl⟩ .nil)
  have hprograms : ∀ i p, [addFive 7, addFive 9][i]? = some p →
      i = 0 ∧ p = addFive 7 ∨ i = 1 ∧ p = addFive 9 := by
    intro i p hp
    rcases i with _ | _ | i
    · exact .inl ⟨rfl, (Option.some.inj hp).symm⟩
    · exact .inr ⟨rfl, (Option.some.inj hp).symm⟩
    · cases hp
  have hrule' : ∀ i p, [addFive 7, addFive 9][i]? = some p →
      Along (Machine.happen unshared false) (Machine.Disciplined unshared) (start p)
        ((Turns.own i 0 (SystemEvent.turns 0 twoPrograms)).filter (· ≠ .interrupt)) := by
    intro i p hp
    rcases hprograms i p hp with ⟨rfl, rfl⟩ | ⟨rfl, rfl⟩
    · exact hrule 0
    · exact hrule 1
  obtain ⟨u, hrun, hsame⟩ := run_programs false [addFive 7, addFive 9] (by decide +kernel) twoPrograms
    hmade (by decide) (fun i => if i = 0 then m₀ else m₁) hrule' (by
      intro i p hp
      rcases hprograms i p hp with ⟨rfl, rfl⟩ | ⟨rfl, rfl⟩
      · exact hm₀
      · exact hm₁)
  exact ⟨u, _, hrun, h₀, h₁, fun i hi => (hsame i hi).1⟩

end NoVM
end NachOS
