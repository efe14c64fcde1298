import NachOS.Userprog.AddrSpace

/-!
# Memory accesses of user programs

`Machine::Translate`, `ReadMem` and `WriteMem` (`translate.cc`) in the VM build, where the
machine has a TLB and no linear page table, and the page-fault handler of `exception.cc`
they trap to. A trap that is not a page fault ends in `ASSERT(false)`.
-/

namespace NachOS

namespace System

/-! ## The page-fault handler -/

/-- The first invalid slot of the TLB. -/
def freeSlot (tlb : Fin tlbSize → TranslationEntry) : Option (Fin tlbSize) :=
  (List.finRange tlbSize).find? fun i => !(tlb i).valid

/-- Both branches of `NachOS_PageFaultException` end in the same way: choose a TLB slot, a
free one if possible, and load the page's translation into it. -/
def fillTLB (s : System) (virtualAddr : ℤ) : Except Fault System :=
  match freeSlot s.tlb with
  | some slot => s.loadToTLB slot virtualAddr
  | none => do
    let (slot, invertedPageTable) ← s.invertedPageTable.getTLBEntryToReplace s.tlb
    { s with invertedPageTable }.loadToTLB slot virtualAddr

/-- `NachOS_PageFaultException`; `badVAddr` is what it reads from `BadVAddrReg`. -/
def pageFaultException (s : System) (badVAddr : ℤ) : Except Fault System := do
  let isInAddrSpacePT ← s.isLoadedInPT badVAddr
  let virtualAddr ← s.getVirtualPage badVAddr
  if isInAddrSpacePT then s.fillTLB virtualAddr
  else if s.memorySwap.isLoadedInSwap virtualAddr then
    let s ← s.loadFromSwap virtualAddr
    s.fillTLB virtualAddr
  else
    -- neither in a frame nor found in the swap area
    let (virtualAddr, s) ← s.loadFromDisk badVAddr
    s.fillTLB virtualAddr

/-- `Machine::RaiseException` for the exceptions of a memory access. -/
def raiseException (s : System) (which : MemException) (badVAddr : ℤ) : Except Fault System :=
  match which with
  | .pageFault => s.pageFaultException badVAddr
  | .readOnly | .busError | .addressError => .error .assertion

/-! ## Translation -/

/-- The page of a virtual address, `(unsigned) virtAddr / PageSize`. -/
def vpn (virtAddr : ℤ) : ℕ := toUnsigned virtAddr / pageSize

/-- The offset of a virtual address in its page. -/
def offset (virtAddr : ℤ) : ℕ := toUnsigned virtAddr % pageSize

/-- The first valid TLB entry for a page. -/
def lookup (tlb : Fin tlbSize → TranslationEntry) (page : ℕ) : Option (Fin tlbSize) :=
  (List.finRange tlbSize).find? fun i => (tlb i).valid && (tlb i).virtualPage == page

/-- What `Translate` does once it has found the entry: the checks, the use and dirty bits,
and the physical address. -/
def useEntry (entry : TranslationEntry) (off : ℕ) (size : Size) (writing : Bool) :
    Except Fault (Except MemException ℕ × TranslationEntry) :=
  let pageFrame := toUnsigned entry.physicalPage
  if entry.readOnly && writing then .ok (.error .readOnly, entry)
  -- -1 is a large number here
  else if pageFrame ≥ numPhysPages then .ok (.error .busError, entry)
  else if pageFrame * pageSize + off + size.bytes ≤ memorySize then
    .ok (.ok (pageFrame * pageSize + off),
      { entry with use := true, dirty := entry.dirty || writing })
  else .error .assertion

/-- `Machine::Translate`: the physical address or the exception, and the state after. -/
def translate (s : System) (virtAddr : ℤ) (size : Size) (writing : Bool) :
    Except Fault (Except MemException ℕ × System) :=
  if virtAddr % size.bytes ≠ 0 then .ok (.error .addressError, s)
  else match lookup s.tlb (vpn virtAddr) with
    | none => .ok (.error .pageFault, s)
    | some i => do
      let invertedPageTable ← s.invertedPageTable.updatePage (s.tlb i).physicalPage false
      let (result, entry) ← useEntry (s.tlb i) (offset virtAddr) size writing
      return (result, { s with invertedPageTable, tlb := Function.update s.tlb i entry })

/-! ## Accesses -/

/-- The little-endian value of the bytes at an address, as `ReadMem` delivers it: a signed
`char`, an `unsigned short` or an `int`. -/
def readValue (mainMemory : Bytes) (address : ℕ) : Size → ℤ
  | .byte => ((mainMemory address).toNat + 2 ^ 7 : ℤ) % 2 ^ 8 - 2 ^ 7
  | .half => (mainMemory address).toNat + 2 ^ 8 * (mainMemory (address + 1)).toNat
  | .word => toInt ((mainMemory address).toNat + 2 ^ 8 * (mainMemory (address + 1)).toNat
      + 2 ^ 16 * (mainMemory (address + 2)).toNat + 2 ^ 24 * (mainMemory (address + 3)).toNat)

theorem readValue_congr {memory data : Bytes} {x y : ℕ} {size : Size}
    (h : ∀ k < size.bytes, memory (x + k) = data (y + k)) :
    readValue memory x size = readValue data y size := by
  have h₀ : memory x = data y := h 0 size.bytes_pos
  cases size with
  | byte => simp only [readValue, h₀]
  | half => simp only [readValue, h₀, h 1 (by decide)]
  | word => simp only [readValue, h₀, h 1 (by decide), h 2 (by decide), h 3 (by decide)]

/-- The little-endian bytes of a value. -/
def valueBytes (value : ℤ) : Bytes := fun k => UInt8.ofNat (value / 2 ^ (8 * k) % 2 ^ 8).toNat

/-- `Translate`, and on an exception the trap to the kernel and a second `Translate`, which
asks for write access also when the access is a read. -/
def resolve (s : System) (addr : ℤ) (size : Size) (writing : Bool) :
    Except Fault (Option ℕ × System) := do
  let (first, s) ← s.translate addr size writing
  match first with
  | .ok physicalAddress => return (some physicalAddress, s)
  | .error exception =>
    let s ← s.raiseException exception addr
    let (second, s) ← s.translate addr size true
    match second with
    | .ok physicalAddress => return (some physicalAddress, s)
    | .error _ => return (none, s)

/-- `Machine::ReadMem`: the value, or `none` when it returns `false`. -/
def readMem (s : System) (addr : ℤ) (size : Size) : Except Fault (Option ℤ × System) := do
  let (physicalAddress, s) ← s.resolve addr size false
  return (physicalAddress.map fun pa => readValue s.mainMemory pa size, s)

/-- `Machine::WriteMem`: whether it returns `true`. -/
def writeMem (s : System) (addr : ℤ) (size : Size) (value : ℤ) :
    Except Fault (Bool × System) := do
  let (physicalAddress, s) ← s.resolve addr size true
  match physicalAddress with
  | none => return (false, s)
  | some pa =>
    return (true, { s with mainMemory := Bytes.blit s.mainMemory pa size.bytes (valueBytes value) })

end System

end NachOS
