import NachOS.Lib.Words
import NachOS.Userprog.BitMap

/-!
# The disk and file headers

`SynchDisk` as the sectors it reads and writes (`synchdisk.cc`, `disk.cc`), and the headers of
files (`filehdr.h`, `filehdr.cc`). A header is the bytes of its C++ object, since that is what
goes to the disk; its fields are the integers at their place in it. A new header has whatever
the memory had.
-/

namespace NachOS

/-! ## The disk -/

/-- `NumSectors`: 32 tracks of 32 sectors. -/
def numSectors : ℕ := 1024

theorem sectorSize_eq : sectorSize = 128 := rfl
theorem numSectors_eq : numSectors = 1024 := rfl

/-- The contents of the sectors. -/
abbrev Disk := ℕ → Bytes

namespace Disk

/-- `SynchDisk::ReadSector`, with the `ASSERT` of `Disk::ReadRequest`. -/
def readSector (d : Disk) (sectorNumber : ℤ) : Except Fault Bytes :=
  if 0 ≤ sectorNumber ∧ sectorNumber < numSectors then .ok (d sectorNumber.toNat)
  else .error .assertion

/-- `SynchDisk::WriteSector`, with the `ASSERT` of `Disk::WriteRequest`. -/
def writeSector (d : Disk) (sectorNumber : ℤ) (data : Bytes) : Except Fault Disk :=
  if 0 ≤ sectorNumber ∧ sectorNumber < numSectors then
    .ok (Function.update d sectorNumber.toNat
      (Bytes.blit (d sectorNumber.toNat) 0 sectorSize data))
  else .error .assertion

end Disk

/-! ## File headers -/

/-- `NumDirect`: the data sectors a header has room for. -/
def numDirect : ℕ := (sectorSize - 2 * 4) / 4

/-- `MaxFileSize`. -/
def maxFileSize : ℕ := numDirect * sectorSize

theorem numDirect_eq : numDirect = 30 := rfl
theorem maxFileSize_eq : maxFileSize = 3840 := rfl

/-- `class FileHeader`: two integers and an array of them. -/
structure FileHeader where
  bytes : Bytes

namespace FileHeader

def numBytes (h : FileHeader) : ℤ := h.bytes.int 0

def numSectors (h : FileHeader) : ℤ := h.bytes.int 4

/-- `dataSectors[i]`. -/
def dataSectors (h : FileHeader) (i : ℕ) : ℤ := h.bytes.int (8 + 4 * i)

def setNumBytes (h : FileHeader) (v : ℤ) : FileHeader := ⟨h.bytes.setInt 0 v⟩

def setNumSectors (h : FileHeader) (v : ℤ) : FileHeader := ⟨h.bytes.setInt 4 v⟩

def setDataSectors (h : FileHeader) (i : ℕ) (v : ℤ) : Except Fault FileHeader :=
  if i < numDirect then .ok ⟨h.bytes.setInt (8 + 4 * i) v⟩ else .error .dataSectors

def getDataSectors (h : FileHeader) (i : ℤ) : Except Fault ℤ :=
  if 0 ≤ i ∧ i < numDirect then .ok (h.dataSectors i.toNat) else .error .dataSectors

/-- The loop of `Allocate`. `Find` returns `-1` if it finds nothing. -/
def allocateSectors (h : FileHeader) (freeMap : BitMap) (n : ℕ) :
    Except Fault (FileHeader × BitMap) :=
  (List.range n).foldlM (fun (h, freeMap) i => do
    let (found, freeMap) := freeMap.find
    let h ← h.setDataSectors i (found.elim (-1) fun sector => sector)
    return (h, freeMap)) (h, freeMap)

/-- `FileHeader::Allocate`: whether it returns `true`, the header and the bitmap. -/
def allocate (h : FileHeader) (freeMap : BitMap) (fileSize : ℤ) :
    Except Fault (Bool × FileHeader × BitMap) :=
  let h := (h.setNumBytes fileSize).setNumSectors (divRoundUp fileSize sectorSize)
  if freeMap.numClear < h.numSectors then .ok (false, h, freeMap)
  else do
    let (h, freeMap) ← h.allocateSectors freeMap h.numSectors.toNat
    return (true, h, freeMap)

/-- `Test` and `Clear` of a sector number, with their `ASSERT`s and that of `Deallocate`. -/
def release (freeMap : BitMap) (sector : ℤ) : Except Fault BitMap :=
  if sector < 0 then .error .assertion
  else do
    let marked ← freeMap.test sector.toNat
    if marked then freeMap.clear sector.toNat else .error .assertion

/-- `FileHeader::Deallocate`. -/
def deallocate (h : FileHeader) (freeMap : BitMap) : Except Fault BitMap :=
  (List.range h.numSectors.toNat).foldlM (fun freeMap (i : ℕ) => do
    let sector ← h.getDataSectors i
    release freeMap sector) freeMap

/-- `FileHeader::FetchFrom`. -/
def fetchFrom (d : Disk) (sector : ℤ) : Except Fault FileHeader := do
  let bytes ← d.readSector sector
  return ⟨bytes⟩

/-- `FileHeader::WriteBack`. -/
def writeBack (h : FileHeader) (d : Disk) (sector : ℤ) : Except Fault Disk :=
  d.writeSector sector h.bytes

/-- `FileHeader::ByteToSector`. -/
def byteToSector (h : FileHeader) (offset : ℤ) : Except Fault ℤ :=
  h.getDataSectors (offset.tdiv sectorSize)

/-- `FileHeader::FileLength`. -/
def fileLength (h : FileHeader) : ℤ := h.numBytes

end FileHeader
end NachOS
