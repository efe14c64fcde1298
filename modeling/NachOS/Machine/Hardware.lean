import NachOS.Lib.Bytes
import Mathlib.Algebra.Group.Int.Defs
import Mathlib.Algebra.GroupWithZero.Nat

/-!
# The simulated machine, as the kernel sees it

The sizes of `machine.h` and `disk.h`, the entries of the translation tables
(`translate.h`), host files behind `OpenFile` in the `FILESYS_STUB` build, and the ways in
which the simulator itself can stop. A C++ construct with no defined outcome (an index
outside an array, a pointer that was never set) and a failed `ASSERT` both end the run, so
they are the failures `Fault` of the functions below; which one it was is kept, because
some results are about one kind only.
-/

namespace NachOS

/-! ## Sizes -/

/-- `SectorSize` of `disk.h`. -/
def sectorSize : ℕ := 128

/-- `PageSize`: "set the page size equal to the disk sector size, for simplicity". -/
def pageSize : ℕ := sectorSize

/-- `NumPhysPages`, the frames of physical memory. -/
def numPhysPages : ℕ := 32

/-- `MemorySize`, the bytes of `mainMemory`. -/
def memorySize : ℕ := numPhysPages * pageSize

/-- `TLBSize`. -/
def tlbSize : ℕ := 4

theorem pageSize_eq : pageSize = 128 := rfl
theorem numPhysPages_eq : numPhysPages = 32 := rfl
theorem memorySize_eq : memorySize = 4096 := rfl
theorem tlbSize_eq : tlbSize = 4 := rfl

instance : NeZero tlbSize := ⟨by decide⟩

instance : NeZero numPhysPages := ⟨by decide⟩

/-! ## Registers -/

/-- `NumGPRegs`. -/
def numGPRegs : ℕ := 32

/-- `NumTotalRegs`. -/
def numTotalRegs : ℕ := 40

def stackReg : Fin numTotalRegs := ⟨29, by decide⟩
def hiReg : Fin numTotalRegs := ⟨32, by decide⟩
def loReg : Fin numTotalRegs := ⟨33, by decide⟩
def pcReg : Fin numTotalRegs := ⟨34, by decide⟩
def nextPCReg : Fin numTotalRegs := ⟨35, by decide⟩
def prevPCReg : Fin numTotalRegs := ⟨36, by decide⟩
def loadReg : Fin numTotalRegs := ⟨37, by decide⟩
def loadValueReg : Fin numTotalRegs := ⟨38, by decide⟩
def badVAddrReg : Fin numTotalRegs := ⟨39, by decide⟩

instance : NeZero numGPRegs := ⟨by decide⟩

/-! ## How the simulator stops -/

/-- The ways in which the simulator itself goes wrong. -/
inductive Fault where
  /-- A failed `ASSERT`. -/
  | assertion
  /-- A transfer that leaves the `MemorySize` bytes of `mainMemory`. -/
  | mainMemory
  /-- An index outside `pageTable[0..numPages)`. -/
  | pageTable
  /-- An index outside `machine->tlb[0..TLBSize)`. -/
  | tlb
  /-- An index outside one of the vectors of the inverted page table. -/
  | vector
  /-- An index outside `openFiles[0..tableSize)`. -/
  | openFiles
  /-- An index outside `dataSectors[0..NumDirect)`. -/
  | dataSectors
  /-- An index outside a buffer, or a buffer of negative size. -/
  | buffer
  /-- `front()` of an empty `std::list`. -/
  | emptyQueue
  /-- The use of a variable that was never set. -/
  | uninitialised
  /-- The use of an object that was deleted. -/
  | deleted
  /-- A loop that is never left. -/
  | loop
  /-- An index outside `registers[0..NumTotalRegs)`. -/
  | registers
  /-- A division by zero, or one whose quotient is not an `int`. -/
  | division
  /-- A shift by the width of the operand or more. -/
  | shift
deriving DecidableEq, Repr

/-! ## C integers -/

/-- The conversion to `unsigned int`. -/
def toUnsigned (x : ℤ) : ℕ := (x % 2 ^ 32).toNat

/-- The conversion to a 32-bit `int`, which is also what its arithmetic wraps to. -/
def toInt (x : ℤ) : ℤ := (x + 2 ^ 31) % 2 ^ 32 - 2 ^ 31

/-- `divRoundUp` of `utility.h`. -/
def divRoundUp (n s : ℤ) : ℤ := n.tdiv s + if n.tmod s > 0 then 1 else 0

/-- The conversion keeps what fits. -/
theorem toUnsigned_natCast {n : ℕ} (h : n < 2 ^ 32) : toUnsigned n = n := by
  unfold toUnsigned
  omega

/-- The numbers of type `int` are kept. -/
theorem toInt_of_range {x : ℤ} (hmin : -2 ^ 31 ≤ x) (hmax : x < 2 ^ 31) : toInt x = x := by
  unfold toInt
  omega

/-! ## Translation entries -/

/-- An entry of a page table or of the TLB. -/
structure TranslationEntry where
  virtualPage : ℤ
  physicalPage : ℤ
  valid : Bool
  readOnly : Bool
  use : Bool
  dirty : Bool
deriving DecidableEq, Repr

/-- The exceptions `Machine::Translate` can answer with. -/
inductive MemException where
  | pageFault
  | readOnly
  | busError
  | addressError
deriving DecidableEq, Repr

/-- The sizes of a memory access. -/
inductive Size where
  | byte
  | half
  | word
deriving DecidableEq, Repr

/-- The number of bytes of an access. -/
def Size.bytes : Size → ℕ
  | .byte => 1
  | .half => 2
  | .word => 4

theorem Size.bytes_pos (size : Size) : 0 < size.bytes := by cases size <;> decide

/-! ## Host files and main memory -/

/-- A file of the host: `OpenFile` with `FILESYS_STUB`. -/
structure HostFile where
  length : ℕ
  data : Bytes

/-- A file just created. -/
def HostFile.empty : HostFile where
  length := 0
  data := fun _ => 0

/-- `OpenFile::ReadAt`: how many bytes are read, and the bytes. `Lseek` asserts that the
position is not negative; `read` stops at the end of the file, and with a negative count
reads nothing. -/
def HostFile.readAt (file : HostFile) (numBytes position : ℤ) : Except Fault (ℕ × Bytes) :=
  if position < 0 then .error .assertion
  else .ok (min numBytes.toNat (file.length - position.toNat),
    Bytes.window file.data position.toNat)

/-- `OpenFile::WriteAt`; a gap between the end of the file and the position reads as
zero. -/
def HostFile.writeAt (file : HostFile) (source : Bytes) (numBytes : ℕ) (position : ℤ) :
    Except Fault HostFile :=
  if position < 0 then .error .assertion
  else .ok {
    length := max file.length (position.toNat + numBytes)
    data := Bytes.blit (fun a => if a < file.length then file.data a else 0)
      position.toNat numBytes source }

/-- Store `n` bytes at `mainMemory[dest]`. -/
def copyIn (mainMemory : Bytes) (dest : ℤ) (n : ℕ) (source : Bytes) : Except Fault Bytes :=
  if n = 0 then .ok mainMemory
  else if 0 ≤ dest ∧ dest + n ≤ memorySize then
    .ok (Bytes.blit mainMemory dest.toNat n source)
  else .error .mainMemory

/-- Load `n` bytes at `mainMemory[source]`. -/
def copyOut (mainMemory : Bytes) (source : ℤ) (n : ℕ) : Except Fault Bytes :=
  if 0 ≤ source ∧ source + n ≤ memorySize then
    .ok (Bytes.window mainMemory source.toNat)
  else .error .mainMemory

/-- `bcopy` into the main memory stays inside it, or the run has ended. -/
theorem copyIn_ok_iff {m m' : Bytes} {dest : ℤ} {n : ℕ} {source : Bytes} :
    copyIn m dest n source = .ok m' ↔
      (n = 0 ∨ (0 ≤ dest ∧ dest + n ≤ memorySize)) ∧ m' = Bytes.blit m dest.toNat n source := by
  unfold copyIn
  split
  · rename_i h
    subst h
    simp [eq_comm]
  · rename_i h
    split
    · rename_i hr
      simp [hr, eq_comm]
    · rename_i hr
      simp [h, hr]

/-- The same for `bcopy` out of it. -/
theorem copyOut_ok_iff {m b : Bytes} {source : ℤ} {n : ℕ} :
    copyOut m source n = .ok b ↔
      (0 ≤ source ∧ source + n ≤ memorySize) ∧ b = Bytes.window m source.toNat := by
  unfold copyOut
  split
  · rename_i h
    simp [h, eq_comm]
  · rename_i h
    simp [h]

end NachOS
