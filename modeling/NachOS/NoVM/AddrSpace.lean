import NachOS.Machine.Translate
import NachOS.Userprog.OpenFilesTable
import NachOS.Lib.Run
import Mathlib.Data.Finset.Card

/-!
# Address spaces without virtual memory

`AddrSpace` (`addrspace.cc`) as it is compiled without `-DVM`: the two constructors, which take
every frame of the program from the bitmap `MiMapa`, and the destructor, which gives them back.
A forked address space has the frames of its parent except for the stack. The file also has
`Machine::Translate` for a linear page table, and the events in the life of the address spaces.
-/

namespace NachOS

open PartialRun

/-- The bytes of the three segments. -/
def NoffHeader.imageSize (noffH : NoffHeader) : ℤ :=
  noffH.code.size + noffH.initData.size + noffH.uninitData.size

/-- `numPages`: the pages of the segments and of the stack. -/
def NoffHeader.numPages (noffH : NoffHeader) : ℕ :=
  toUnsigned (divRoundUp (toInt (toUnsigned (noffH.imageSize + userStackSize))) pageSize)

namespace NoVM

/-- The size `MiMapa` is made with in `Initialize`. -/
def miMapaSize : ℕ := 1024

/-- An `AddrSpace` object. -/
structure AddrSpace where
  /-- `none` when the constructor returned before it set the pointer. -/
  pageTable : Option (List TranslationEntry)
  numPages : ℕ
  /-- Which of the tables of open files `openFilesTable` points to. -/
  openFilesTable : ℕ
  ownExecutable : HostFile

/-- The frames that an address space maps. -/
def AddrSpace.frames (space : AddrSpace) : List ℤ :=
  (space.pageTable.getD []).map TranslationEntry.physicalPage

/-! ## Frames -/

/-- The entry of a page that is in memory. -/
def mapped (page frame : ℕ) : TranslationEntry where
  virtualPage := page
  physicalPage := frame
  valid := true
  readOnly := false
  use := false
  dirty := false

/-- `MiMapa->Clear(pageTable[page].physicalPage)`, for one entry after the other. -/
def clearFrames : BitMap → List TranslationEntry → Except Fault BitMap
  | miMapa, [] => .ok miMapa
  | miMapa, entry :: entries => do
    let miMapa ← if entry.physicalPage < 0 then .error .assertion
      else miMapa.clear entry.physicalPage.toNat
    clearFrames miMapa entries

/-- The loop of both constructors that takes a frame for each of the pages that are left.
Without a frame it gives back those of the pages from `first` on, and ends the thread; that
is `none`. -/
def allocatePages (first : ℕ) :
    ℕ → List TranslationEntry → BitMap → Except Fault (Option (List TranslationEntry) × BitMap)
  | 0, pageTable, miMapa => .ok (some pageTable, miMapa)
  | n + 1, pageTable, miMapa =>
    match miMapa.find with
    | (some newLocation, miMapa) =>
      allocatePages first n (pageTable ++ [mapped pageTable.length newLocation]) miMapa
    | (none, miMapa) => do
      let miMapa ← clearFrames miMapa (pageTable.drop first)
      return (none, miMapa)

/-! ## The page tables -/

/-- How `ExeNoVirtualMemoryConstructor` leaves its page table. -/
inductive Setup where
  /-- Not set: the constructor returns. -/
  | returned
  /-- Not set up to its end: the current thread is finished. -/
  | finished
  | table (pageTable : List TranslationEntry)
deriving DecidableEq

/-- The page table of `ExeNoVirtualMemoryConstructor`. -/
def exeSetup (miMapa : BitMap) (numPages : ℕ) : Except Fault (Setup × BitMap) :=
  if (miMapa.numClear : ℤ) < toInt numPages then .ok (.returned, miMapa)
  else if numPages ≤ numPhysPages then do
    match ← allocatePages 0 numPages [] miMapa with
    | (some pageTable, miMapa) => return (.table pageTable, miMapa)
    | (none, miMapa) => return (.finished, miMapa)
  else .error .assertion

/-- The number of pages `NoVirtualMemoryConstructor` shares. -/
def sharedMemory (numPages : ℕ) : ℕ :=
  toUnsigned (numPages - divRoundUp userStackSize pageSize)

/-- The first loop of `NoVirtualMemoryConstructor`. -/
def sharedPages (other : AddrSpace) : Except Fault (List TranslationEntry) :=
  if sharedMemory other.numPages = 0 then .ok []
  else match other.pageTable with
    | none => .error .uninitialised
    | some pageTable =>
      if other.numPages < sharedMemory other.numPages then .error .pageTable
      else .ok ((pageTable.take (sharedMemory other.numPages)).mapIdx fun page entry =>
        { mapped page 0 with physicalPage := entry.physicalPage })

/-- The page table of `NoVirtualMemoryConstructor`, if the current thread is not finished. -/
def forkSetup (miMapa : BitMap) (other : AddrSpace) :
    Except Fault (Option (List TranslationEntry) × BitMap) := do
  let shared ← sharedPages other
  let first := sharedMemory other.numPages
  allocatePages first (other.numPages - first) shared miMapa

/-! ## Loading the program -/

/-- One round of the copying loop. The size for the last page is a remainder by the number
of pages. -/
def loadPage (executable : HostFile) (noffH : NoffHeader) (sizeToCopy page : ℕ)
    (entry : TranslationEntry) (mainMemory : Bytes) : Except Fault Bytes := do
  let positionOnFile := toInt (noffH.code.inFileAddr + page * pageSize)
  let pageCopySize := if page = sizeToCopy - 1
    then toInt (toUnsigned noffH.imageSize % sizeToCopy : ℕ) else pageSize
  let (count, bytes) ← executable.readAt pageCopySize positionOnFile
  copyIn mainMemory (pageSize * entry.physicalPage) count bytes

/-- The copying loop, from `page` on. -/
def loadPages (executable : HostFile) (noffH : NoffHeader) (sizeToCopy : ℕ) :
    ℕ → List TranslationEntry → Bytes → Except Fault Bytes
  | _, [], mainMemory => .ok mainMemory
  | page, entry :: entries, mainMemory => do
    let mainMemory ← loadPage executable noffH sizeToCopy page entry mainMemory
    loadPages executable noffH sizeToCopy (page + 1) entries mainMemory

/-! ## The objects -/

/-- What the constructors and the destructor work on. -/
structure State where
  miMapa : BitMap
  mainMemory : Bytes
  /-- The tables of open files that were not deleted. -/
  tables : ℕ → Option NachosOpenFilesTable
  numTables : ℕ
  /-- The address spaces made so far, those that were destroyed included. -/
  spaces : ℕ → AddrSpace
  numSpaces : ℕ
  /-- The address spaces that were not destroyed. -/
  live : Finset ℕ
  /-- The address spaces of the forked threads that have not run `ForkAux` yet. -/
  unstarted : Finset ℕ

namespace State

/-- The state after `Initialize`. -/
def initial : State where
  miMapa := BitMap.new miMapaSize
  mainMemory := fun _ => 0
  tables := fun _ => none
  numTables := 0
  spaces := fun _ => ⟨none, 0, 0, HostFile.empty⟩
  numSpaces := 0
  live := ∅
  unstarted := ∅

variable (s : State)

/-- `new NachosOpenFilesTable()`. -/
def newTable : State :=
  { s with
    tables := Function.update s.tables s.numTables (some NachosOpenFilesTable.new)
    numTables := s.numTables + 1 }

/-- An address space that was constructed. -/
def allocate (space : AddrSpace) : State :=
  { s with
    spaces := Function.update s.spaces s.numSpaces space
    numSpaces := s.numSpaces + 1
    live := insert s.numSpaces s.live }

/-- `AddrSpace::ExeNoVirtualMemoryConstructor`; without an address space when the current
thread is finished. -/
def exeNoVirtualMemoryConstructor (executable : HostFile) :
    Except Fault (Option AddrSpace × State) := do
  let noffH ← executable.noffHeader
  let (setup, miMapa) ← exeSetup s.miMapa noffH.numPages
  let new := { s.newTable with miMapa := miMapa }
  match setup with
  | .returned => return (some ⟨none, noffH.numPages, s.numTables, executable⟩, new)
  | .finished => return (none, new)
  | .table pageTable =>
    let mainMemory ← loadPages executable noffH noffH.numPages 0 pageTable s.mainMemory
    return (some ⟨some pageTable, noffH.numPages, s.numTables, executable⟩,
      { new with mainMemory := mainMemory })

/-- `AddrSpace::NoVirtualMemoryConstructor`. -/
def noVirtualMemoryConstructor (other : AddrSpace) :
    Except Fault (Option AddrSpace × State) := do
  let (setup, miMapa) ← forkSetup s.miMapa other
  let new := { s with miMapa := miMapa }
  match setup with
  | none => return (none, new)
  | some pageTable => return (some { other with pageTable := some pageTable }, new)

/-- `AddrSpace::~AddrSpace`. -/
def destructor (space : AddrSpace) : Except Fault State :=
  match space.pageTable with
  | none => .error .uninitialised
  | some pageTable => do
    let miMapa ← clearFrames s.miMapa pageTable
    match s.tables space.openFilesTable with
    | none => .error .deleted
    | some table =>
      -- the last user deletes the table of open files
      let (usage, table) := table.delThread
      return { s with
        miMapa := miMapa
        tables := Function.update s.tables space.openFilesTable
          (if usage = 0 then none else some table) }

/-- What can happen to address spaces. -/
inductive Event where
  /-- `AuxExec` or `StartProcess` for an executable. -/
  | exec (executable : HostFile)
  /-- `NachOS_Fork` by a thread of an address space. -/
  | fork (other : ℕ)
  /-- `ForkAux`, when the thread of a forked address space runs for the first time. -/
  | forkAux (space : ℕ)
  | destroy (space : ℕ)

def step : Event → Except Fault State
  -- the constructor of a thread that is finished does not return
  | .exec executable => do
    match ← s.exeNoVirtualMemoryConstructor executable with
    | (some space, s) => return s.allocate space
    | (none, s) => return s
  | .fork other =>
    if other ∈ s.live then do
      match ← s.noVirtualMemoryConstructor (s.spaces other) with
      | (some space, new) =>
        return { new.allocate space with unstarted := insert s.numSpaces s.unstarted }
      | (none, new) => return new
    else .error .deleted
  | .forkAux space =>
    -- the new thread runs for the first time and counts itself as a user of the table
    if space ∈ s.unstarted then
      if space ∈ s.live then
        match s.tables (s.spaces space).openFilesTable with
        | none => .error .deleted
        | some table => .ok { s with
            tables := Function.update s.tables (s.spaces space).openFilesTable
              (some table.addThread)
            unstarted := s.unstarted.erase space }
      else .error .deleted
    else .error .assertion
  | .destroy space =>
    if space ∈ s.live then do
      let new ← s.destructor (s.spaces space)
      return { new with live := s.live.erase space }
    else .error .deleted

end State

/-! ## Translation -/

/-- `Machine::Translate` for a linear page table: the physical address or the exception, and
the page table after. -/
def translate (pageTable : List TranslationEntry) (virtAddr : ℤ) (size : Size) (writing : Bool) :
    Except Fault (Except MemException ℕ × List TranslationEntry) :=
  if virtAddr % size.bytes ≠ 0 then .ok (.error .addressError, pageTable)
  else match pageTable[System.vpn virtAddr]? with
    | none => .ok (.error .addressError, pageTable)
    | some entry =>
      if entry.valid then do
        let (result, entry) ← System.useEntry entry (System.offset virtAddr) size writing
        return (result, pageTable.set (System.vpn virtAddr) entry)
      else .ok (.error .pageFault, pageTable)

end NoVM

end NachOS
