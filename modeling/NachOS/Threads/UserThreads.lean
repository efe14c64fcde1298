import NachOS.VM.Access

/-!
# User threads

The threads that run user programs, as far as `Scheduler::Run` (`scheduler.cc`) is concerned:
their address space and the place their registers are saved in (`thread.cc`), and the system
calls that make new threads (`exception.cc`). Which thread runs next is left open, so a run is
any sequence of switches, memory accesses and register writes.
-/

namespace NachOS

open PartialRun

/-- The CPU registers of a user program. -/
abbrev Registers := Fin numTotalRegs → ℤ

/-- What `Scheduler::Run` reads and writes of a thread. -/
structure Thread where
  /-- `space`, which may be `NULL`. -/
  space : Option ℕ
  /-- `userRegisters`, not set by the constructor. -/
  userRegisters : Option Registers
  /-- `SWITCH` returns into the `Scheduler::Run` that the thread called. Before that it
  enters `ThreadRoot`. -/
  started : Bool

/-- The machine, the threads and the address spaces. -/
structure UserThreads where
  sys : System
  registers : Registers
  threads : ℕ → Option Thread
  currentThread : ℕ
  /-- The number of address spaces allocated. -/
  numSpaces : ℕ

/-- `AddrSpace::VirtualMemoryConstructor`: all pages but those of the stack are shared. -/
def AddrSpace.virtualMemoryConstructor (other : AddrSpace) : Except Fault AddrSpace :=
  let sharedMemory := toUnsigned (other.numPages - divRoundUp userStackSize pageSize)
  if other.numPages < sharedMemory then .error .pageTable
  else .ok { other with pageTable := fun page =>
    if page < sharedMemory then
      { virtualPage := (other.pageTable page).virtualPage
        physicalPage := (other.pageTable page).physicalPage
        valid := true
        readOnly := false
        use := false
        dirty := false }
    else TranslationEntry.absent }

namespace UserThreads

/-- The thread that is running, if the kernel has it. -/
def current (u : UserThreads) : Option Thread := u.threads u.currentThread

/-- `currentThread->space`. -/
def space (u : UserThreads) : Option ℕ := u.current.bind Thread.space

/-- A new address space, and the number it gets. -/
def allocate (u : UserThreads) (space : AddrSpace) : UserThreads :=
  { u with
    sys := { u.sys with spaces := Function.update u.sys.spaces u.numSpaces space }
    numSpaces := u.numSpaces + 1 }

def setThread (u : UserThreads) (t : ℕ) (thread : Thread) : UserThreads :=
  { u with threads := Function.update u.threads t (some thread) }

/-- `new Thread`. -/
def newThread (u : UserThreads) (t : ℕ) (space : Option ℕ) : Except Fault UserThreads :=
  match u.threads t with
  | some _ => .error .assertion
  | none => .ok (u.setThread t ⟨space, none, false⟩)

/-- `AddrSpace::InitRegisters`. -/
def initRegisters (numPages : ℕ) : Registers :=
  Function.update (Function.update (Function.update (fun _ => 0) pcReg 0) nextPCReg 4) stackReg
    (toInt (toUnsigned (numPages * pageSize - 16)))

/-- `Scheduler::Run`. In the VM build `SaveState` and `RestoreState` do nothing. -/
def run (u : UserThreads) (nextThread : ℕ) : Except Fault UserThreads := do
  let some old := u.current | .error .assertion
  -- `SaveUserState` if the thread is a user program
  let old := if old.space.isSome then { old with userRegisters := some u.registers } else old
  let u := { u.setThread u.currentThread old with currentThread := nextThread }
  let some next := u.current | .error .assertion
  if next.started then
    if next.space.isSome then
      -- `RestoreUserState`
      match next.userRegisters with
      | some registers => return { u with registers := registers }
      | none => .error .uninitialised
    else return u
  else return u.setThread nextThread { next with started := true }

/-- `StartProcess` and `AuxExec` up to `machine->Run()`: the thread gets an address space
for an executable. -/
def startProcess (u : UserThreads) (executable : HostFile) : Except Fault UserThreads := do
  let some thread := u.current | .error .assertion
  let space ← AddrSpace.exeVirtualMemoryConstructor executable
  let u := (u.allocate space).setThread u.currentThread { thread with space := some u.numSpaces }
  return { u with registers := initRegisters space.numPages }

/-- `NachOS_Fork`: the new thread gets a copy of the address space. It sets its registers
itself, in `ForkAux`, once it runs. -/
def fork (u : UserThreads) (t : ℕ) : Except Fault UserThreads := do
  let some b := u.space | .error .assertion
  let space ← AddrSpace.virtualMemoryConstructor (u.sys.spaces b)
  (u.allocate space).newThread t (some u.numSpaces)

/-- What the running thread and the scheduler can do. -/
inductive Event where
  /-- `Scheduler::Run`, from `Yield`, `Sleep` or a timer interrupt. -/
  | run (nextThread : ℕ)
  | access (a : Access)
  | writeRegister (num : Fin numTotalRegs) (value : ℤ)
  | startProcess (executable : HostFile)
  /-- `NachOS_Exec`: the new thread has no address space before it runs `AuxExec`. -/
  | exec (t : ℕ)
  | fork (t : ℕ)

def step (u : UserThreads) : Event → Except Fault UserThreads
  | .run nextThread => u.run nextThread
  | .access a =>
    match u.space with
    | some b => do
      let sys ← u.sys.step { a with space := b }
      return { u with sys := sys }
    | none => .error .assertion
  | .writeRegister num value => .ok { u with registers := Function.update u.registers num value }
  | .startProcess executable => u.startProcess executable
  | .exec t => u.newThread t none
  | .fork t => u.fork t

/-- The state after `Initialize`: the main thread alone, and no address space yet. -/
structure Booted (u : UserThreads) : Prop where
  mainMemory : u.sys.mainMemory = fun _ => 0
  tlb : ∀ i, (u.sys.tlb i).valid = false
  invertedPageTable : u.sys.invertedPageTable =
    InvertedPageTable.new u.sys.invertedPageTable.replacementAlgorithm
  memorySwap : u.sys.memorySwap = Swap.new
  spaces : ∀ b p, (u.sys.spaces b).pageTable p = TranslationEntry.absent
  threads : u.threads = Function.update (fun _ => none) u.currentThread (some ⟨none, none, true⟩)
  numSpaces : u.numSpaces = 0

end UserThreads
end NachOS
