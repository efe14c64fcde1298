import NachOS.Userprog.MemorySwap
import NachOS.Userprog.InvertedPageTable

/-!
# Address spaces under virtual memory

`AddrSpace` (`addrspace.cc`) as it is compiled with `-DVM`: the constructor, and the
functions that bring a page into memory, put one out to swap and load a TLB entry. The
kernel's state `System` is what these functions reach through the globals `machine`,
`invertedPageTable`, `memorySwap` and `currentThread->space`.
-/

namespace NachOS

/-! ## Executables -/

/-- A segment of the NOFF header. -/
structure Segment where
  virtualAddr : ℤ
  inFileAddr : ℤ
  size : ℤ
deriving DecidableEq

/-- The NOFF header, `noff.h`. -/
structure NoffHeader where
  noffMagic : ℤ
  code : Segment
  initData : Segment
  uninitData : Segment
deriving DecidableEq

/-- `NOFFMAGIC`. -/
def noffMagicNumber : ℤ := 0xbadfad

/-- `sizeof(NoffHeader)`. -/
def noffHeaderSize : ℕ := 40

/-- The little-endian `int` at a position of a file. -/
def HostFile.int (file : HostFile) (position : ℕ) : ℤ :=
  toInt ((file.data position).toNat + 2 ^ 8 * (file.data (position + 1)).toNat
    + 2 ^ 16 * (file.data (position + 2)).toNat + 2 ^ 24 * (file.data (position + 3)).toNat)

/-- A segment descriptor in a file. -/
def HostFile.segment (file : HostFile) (position : ℕ) : Segment where
  virtualAddr := file.int position
  inFileAddr := file.int (position + 4)
  size := file.int (position + 8)

/-- `ReadAt((char *)&noffH, sizeof(noffH), 0)` and the check of the magic number. The host
is little-endian, so `SwapHeader` is never called; a file shorter than the header leaves
fields of it unset. -/
def HostFile.noffHeader (file : HostFile) : Except Fault NoffHeader :=
  if file.length < noffHeaderSize then .error .uninitialised
  else if file.int 0 ≠ noffMagicNumber then .error .assertion
  else .ok {
    noffMagic := file.int 0
    code := file.segment 4
    initData := file.segment 16
    uninitData := file.segment 28 }

/-- The place of the code in the file is an `int`. -/
theorem HostFile.noffHeader_int {file : HostFile} {noffH : NoffHeader}
    (h : file.noffHeader = .ok noffH) :
    -2 ^ 31 ≤ noffH.code.inFileAddr ∧ noffH.code.inFileAddr < 2 ^ 31 := by
  unfold noffHeader at h
  split at h
  · cases h
  · split at h
    · cases h
    · rw [Except.ok.injEq] at h
      subst h
      show -2 ^ 31 ≤ file.int (4 + 4) ∧ file.int (4 + 4) < 2 ^ 31
      unfold int toInt
      omega

/-- `UserStackSize`. -/
def userStackSize : ℤ := 1024

/-! ## State -/

/-- The part of an address space that paging uses; `pageTable` has `numPages` entries. -/
structure AddrSpace where
  pageTable : ℕ → TranslationEntry
  numPages : ℕ
  ownExecutable : HostFile

/-- A page-table entry of a page that is not in memory. -/
def TranslationEntry.absent : TranslationEntry where
  virtualPage := -1
  physicalPage := -1
  valid := false
  readOnly := false
  use := false
  dirty := false

/-- `AddrSpace::ExeVirtualMemoryConstructor`. -/
def AddrSpace.exeVirtualMemoryConstructor (executable : HostFile) : Except Fault AddrSpace := do
  let noffH ← executable.noffHeader
  let size := toUnsigned (noffH.code.size + noffH.initData.size + noffH.uninitData.size
    + userStackSize)
  return {
    pageTable := fun _ => TranslationEntry.absent
    numPages := toUnsigned (divRoundUp (toInt size) pageSize)
    ownExecutable := executable }

/-- The state of the machine and of the kernel that paging works on. -/
structure System where
  mainMemory : Bytes
  tlb : Fin tlbSize → TranslationEntry
  invertedPageTable : InvertedPageTable
  memorySwap : Swap
  spaces : ℕ → AddrSpace
  currentSpace : ℕ

namespace System

/-- `currentThread->space`. -/
def space (s : System) : AddrSpace := s.spaces s.currentSpace

/-- `pageTable[page]` of the current address space. -/
def pageTableEntry (s : System) (page : ℤ) : Except Fault TranslationEntry :=
  if 0 ≤ page ∧ page < s.space.numPages then .ok (s.space.pageTable page.toNat)
  else .error .pageTable

/-- The current address space with another entry for a page. -/
def withEntry (s : System) (page : ℕ) (entry : TranslationEntry) : System :=
  let space := { s.space with pageTable := Function.update s.space.pageTable page entry }
  { s with spaces := Function.update s.spaces s.currentSpace space }

/-- Assignments to fields of `pageTable[page]`. -/
def modifyEntry (s : System) (page : ℤ) (f : TranslationEntry → TranslationEntry) :
    Except Fault System :=
  if 0 ≤ page ∧ page < s.space.numPages then
    .ok (s.withEntry page.toNat (f (s.space.pageTable page.toNat)))
  else .error .pageTable

/-! ## Looking a page up -/

/-- `AddrSpace::isLoadedInPT`. -/
def isLoadedInPT (s : System) (addr : ℤ) : Except Fault Bool := do
  let entry ← s.pageTableEntry (addr.tdiv pageSize)
  return entry.virtualPage != -1

/-- `AddrSpace::getVirtualPage`. -/
def getVirtualPage (s : System) (addr : ℤ) : Except Fault ℤ := do
  let page := addr.tdiv pageSize
  let entry ← s.pageTableEntry page
  return if entry.virtualPage ≠ -1 then entry.virtualPage else page

/-! ## Putting a page out -/

/-- The loop of `AddrSpace::swap` over the TLB. -/
def dropFromTLB (tlb : Fin tlbSize → TranslationEntry) (virtualPage : ℤ) :
    Fin tlbSize → TranslationEntry :=
  fun i => if (tlb i).virtualPage = virtualPage then
    { tlb i with virtualPage := -1, physicalPage := -1, valid := false } else tlb i

/-- `AddrSpace::swap(virtualPage, physicalPage)`: whether the page was stored. -/
def swap (s : System) (virtualPage physicalPage : ℤ) : Except Fault (Bool × System) := do
  let s ← s.modifyEntry virtualPage fun entry =>
    { entry with physicalPage := -1, virtualPage := -1, valid := false }
  let s := { s with tlb := dropFromTLB s.tlb virtualPage }
  let (isSwaped, memorySwap) ← s.memorySwap.writeSwapMemory s.mainMemory physicalPage virtualPage
  return (isSwaped, { s with memorySwap })

/-- `invertedpagetable::getPhysicalPage`, `-1` when no frame could be had. The call of
`swap` passes the frame where the page is expected and the page where the frame is. -/
def getPhysicalPage (s : System) (virtualPage : ℤ) : Except Fault (ℤ × System) :=
  match s.invertedPageTable.physicalPagesBitmap.find with
  | (some availablePage, bitmap) =>
    .ok (availablePage, { s with invertedPageTable := { s.invertedPageTable with
      physicalPagesBitmap := bitmap
      virtualPageTable :=
        Function.update s.invertedPageTable.virtualPageTable availablePage virtualPage
      pageCounter := s.invertedPageTable.pageCounter + 1 } })
  | (none, _) => do
    let (positionToSwap, ipt) ← s.invertedPageTable.getEntryToReplace
    let s := { s with invertedPageTable := ipt }
    let page ← vectorGet ipt.virtualPageTable positionToSwap
    let (isSwaped, s) ← s.swap positionToSwap page
    if isSwaped then
      let virtualPageTable ← vectorSet ipt.virtualPageTable positionToSwap virtualPage
      -- one page less and one page more
      return (positionToSwap, { s with invertedPageTable := { ipt with
        virtualPageTable, pageCounter := ipt.pageCounter - 1 + 1 } })
    else return (-1, s)

/-! ## Bringing a page in -/

/-- `AddrSpace::loadFromSwap`. -/
def loadFromSwap (s : System) (virtualPage : ℤ) : Except Fault System := do
  let (physicalPage, s) ← s.getPhysicalPage virtualPage
  let (found, memorySwap, mainMemory) ←
    s.memorySwap.readSwapMemory s.mainMemory physicalPage virtualPage
  let s := { s with memorySwap, mainMemory }
  if found then
    s.modifyEntry virtualPage fun entry =>
      { entry with physicalPage, virtualPage, valid := true, dirty := false }
  else return s

/-- What `loadFromDisk` asks of the executable for a fault at `addr`: nothing for an
address past the segments, which it takes for the stack, else the position in the file and
the number of bytes. -/
def diskRequest (noffH : NoffHeader) (numPages : ℕ) (addr : ℤ) : Option (ℤ × ℤ) :=
  let virtualPage := addr.tdiv pageSize
  let positionOnFile := toInt (noffH.code.inFileAddr + virtualPage * pageSize)
  let isStack := addr ≥ toInt (noffH.initData.size + noffH.uninitData.size
    + noffH.code.inFileAddr + noffH.code.size)
  let sizeExecutable := toInt (noffH.code.size + noffH.initData.size + noffH.uninitData.size)
  let isLastPage := virtualPage = toInt (numPages - 1) ∧ sizeExecutable.tmod pageSize ≠ 0
  if isStack then none
  else some (positionOnFile, if isLastPage then sizeExecutable.tmod pageSize else pageSize)

/-- `AddrSpace::loadFromDisk`: the page number and the state after. -/
def loadFromDisk (s : System) (addr : ℤ) : Except Fault (ℤ × System) := do
  let virtualPage := addr.tdiv pageSize
  let (physicalPage, s) ← s.getPhysicalPage virtualPage
  -- the entry is set before the frame is looked at: it may be -1
  let s ← s.modifyEntry virtualPage fun entry => { entry with physicalPage, virtualPage }
  let noffH ← s.space.ownExecutable.noffHeader
  match diskRequest noffH s.space.numPages addr with
  | none => return (virtualPage, s)
  | some (positionOnFile, size) =>
    let (count, bytes) ← s.space.ownExecutable.readAt size positionOnFile
    let mainMemory ← copyIn s.mainMemory (physicalPage * pageSize) count bytes
    return (virtualPage, { s with mainMemory })

/-! ## Loading a TLB entry -/

/-- "Store the page to replace in the page table": the bits of a valid TLB entry go back
to the entry of its page. Both bits are set from the use bit. -/
def storeReplaced (s : System) (old : TranslationEntry) : Except Fault System :=
  if old.valid then
    s.modifyEntry old.virtualPage fun entry => { entry with use := old.use, dirty := old.use }
  else .ok s

/-- `AddrSpace::loadToTLB`. -/
def loadToTLB (s : System) (slot : Fin tlbSize) (virtualAddr : ℤ) : Except Fault System := do
  let old := s.tlb slot
  let s ← s.storeReplaced old
  let s ← s.modifyEntry virtualAddr fun entry => { entry with valid := true }
  let entry ← s.pageTableEntry virtualAddr
  let s := { s with tlb := Function.update s.tlb slot { old with
    virtualPage := entry.virtualPage, physicalPage := entry.physicalPage, valid := entry.valid } }
  let invertedPageTable ← s.invertedPageTable.updatePage entry.physicalPage true
  return { s with invertedPageTable }

end System

end NachOS
