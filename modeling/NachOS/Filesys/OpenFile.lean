import NachOS.Filesys.FileHeader

/-!
# Open files

`OpenFile` of the real file system (`openfile.cc`): reading and writing a range of bytes of a
file, sector by sector. `int` arithmetic wraps.
-/

namespace NachOS

/-- `divRoundDown` of `utility.h`. -/
def divRoundDown (n s : ℤ) : ℤ := n.tdiv s

/-- `class OpenFile`. -/
structure OpenFile where
  hdr : FileHeader
  seekPosition : ℤ

/-- A `char` array made by `new`. -/
structure Buffer where
  size : ℤ
  bytes : Bytes

namespace Buffer

/-- `new char[size]`, where the memory has the bytes `heap`. -/
def new (size : ℤ) (heap : Bytes) : Except Fault Buffer :=
  if 0 ≤ size then .ok ⟨size, heap⟩ else .error .buffer

/-- Copy `n` bytes to `&buf[start]`. -/
def store (b : Buffer) (start n : ℤ) (source : Bytes) : Except Fault Buffer :=
  if 0 ≤ start ∧ 0 ≤ n ∧ start + n ≤ b.size then
    .ok { b with bytes := Bytes.blit b.bytes start.toNat n.toNat source }
  else .error .buffer

/-- The `n` bytes at `&buf[start]`. -/
def load (b : Buffer) (start n : ℤ) : Except Fault Bytes :=
  if 0 ≤ start ∧ 0 ≤ n ∧ start + n ≤ b.size then .ok (Bytes.window b.bytes start.toNat)
  else .error .buffer

end Buffer

namespace OpenFile

/-- `OpenFile::OpenFile`. -/
def new (d : Disk) (sector : ℤ) : Except Fault OpenFile := do
  let hdr ← FileHeader.fetchFrom d sector
  return ⟨hdr, 0⟩

/-- The number of bytes of a request that are below the end of the file. -/
def clip (f : OpenFile) (numBytes position : ℤ) : ℤ :=
  if toInt (position + numBytes) > f.hdr.fileLength then toInt (f.hdr.fileLength - position)
  else numBytes

/-- `lastSector` of a request. -/
def lastSector (numBytes position : ℤ) : ℤ :=
  divRoundDown (toInt (toInt (position + numBytes) - 1)) sectorSize

/-- The loop of `ReadAt`, over the sectors `firstSector + k` for `k < n`. -/
def readSectors (f : OpenFile) (d : Disk) (firstSector : ℤ) (n : ℕ) (buf : Buffer) :
    Except Fault Buffer :=
  (List.range n).foldlM (fun buf (k : ℕ) => do
    let sector ← f.hdr.byteToSector (toInt ((firstSector + k) * sectorSize))
    let data ← d.readSector sector
    buf.store (k * sectorSize) sectorSize data) buf

/-- `OpenFile::ReadAt`: how many bytes are read, and the bytes. All of the buffer that is copied
out was read from the disk, so what it had before does not matter. -/
def readAt (f : OpenFile) (d : Disk) (numBytes position : ℤ) : Except Fault (ℤ × Bytes) :=
  if numBytes ≤ 0 ∨ position ≥ f.hdr.fileLength then .ok (0, fun _ => 0)
  else do
    let numBytes := f.clip numBytes position
    let firstSector := divRoundDown position sectorSize
    let numSectors := 1 + lastSector numBytes position - firstSector
    let buf ← Buffer.new (toInt (numSectors * sectorSize)) fun _ => 0
    let buf ← f.readSectors d firstSector numSectors.toNat buf
    let bytes ← buf.load (position - firstSector * sectorSize) numBytes
    return (numBytes, bytes)

/-- A call of `ReadAt` that reads one sector of the file into `&buf[start]`. -/
def readInto (f : OpenFile) (d : Disk) (buf : Buffer) (start sector : ℤ) :
    Except Fault Buffer := do
  let (n, bytes) ← f.readAt d sectorSize (toInt (sector * sectorSize))
  buf.store start n bytes

/-- `if (!firstAligned)`: the first sector is read. -/
def readFirst (f : OpenFile) (d : Disk) (buf : Buffer) (position firstSector : ℤ) :
    Except Fault Buffer :=
  if position = firstSector * sectorSize then .ok buf else f.readInto d buf 0 firstSector

/-- `if (!lastAligned && ..)`: the last sector is read, unless it is the first one and has been
read. -/
def readLast (f : OpenFile) (d : Disk) (buf : Buffer)
    (numBytes position firstSector lastSector : ℤ) : Except Fault Buffer :=
  if toInt (position + numBytes) ≠ toInt ((lastSector + 1) * sectorSize) ∧
      (firstSector ≠ lastSector ∨ position = firstSector * sectorSize) then
    f.readInto d buf ((lastSector - firstSector) * sectorSize) lastSector
  else .ok buf

/-- The loop of `WriteAt`, over the sectors `firstSector + k` for `k < n`. -/
def writeSectors (f : OpenFile) (d : Disk) (firstSector : ℤ) (n : ℕ) (buf : Buffer) :
    Except Fault Disk :=
  (List.range n).foldlM (fun d (k : ℕ) => do
    let sector ← f.hdr.byteToSector (toInt ((firstSector + k) * sectorSize))
    let data ← buf.load (k * sectorSize) sectorSize
    d.writeSector sector data) d

/-- `OpenFile::WriteAt`: how many bytes are written, and the disk. `heap` is what the memory of
the buffer has. -/
def writeAt (f : OpenFile) (d : Disk) (heap source : Bytes) (numBytes position : ℤ) :
    Except Fault (ℤ × Disk) :=
  if numBytes ≤ 0 ∨ position ≥ f.hdr.fileLength then .ok (0, d)
  else do
    let numBytes := f.clip numBytes position
    let firstSector := divRoundDown position sectorSize
    let lastSector := lastSector numBytes position
    let numSectors := 1 + lastSector - firstSector
    let buf ← Buffer.new (toInt (numSectors * sectorSize)) heap
    -- the sectors that are overwritten in part are read before
    let buf ← f.readFirst d buf position firstSector
    let buf ← f.readLast d buf numBytes position firstSector lastSector
    let buf ← buf.store (position - firstSector * sectorSize) numBytes source
    let d ← f.writeSectors d firstSector numSectors.toNat buf
    return (numBytes, d)

/-- `OpenFile::Seek`. -/
def seek (f : OpenFile) (position : ℤ) : OpenFile := { f with seekPosition := position }

/-- `OpenFile::Read`: how many bytes are read, the bytes, and the file. -/
def read (f : OpenFile) (d : Disk) (numBytes : ℤ) : Except Fault (ℤ × Bytes × OpenFile) := do
  let (result, bytes) ← f.readAt d numBytes f.seekPosition
  return (result, bytes, f.seek (toInt (f.seekPosition + result)))

/-- `OpenFile::Write`: how many bytes are written, the file, and the disk. -/
def write (f : OpenFile) (d : Disk) (heap source : Bytes) (numBytes : ℤ) :
    Except Fault (ℤ × OpenFile × Disk) := do
  let (result, d) ← f.writeAt d heap source numBytes f.seekPosition
  return (result, f.seek (toInt (f.seekPosition + result)), d)

end OpenFile
end NachOS
