import NachOS.Filesys.OpenFile
import NachOS.Lib.Run

/-!
# Directories and the file system

The table of names (`directory.h`, `directory.cc`), the bitmap as a file (`bitmap.cc`), and
`FileSystem` (`filesys.cc`). A `char *` is the bytes from the address it points to. What `new`
finds in memory and does not initialise is a parameter, one store of bytes for each `new`.
-/

namespace NachOS

/-! ## Strings -/

/-- `strncmp(a, b, n) == 0`, from character `k` on. -/
def strncmpFrom (a b : Bytes) (k : ℕ) : ℕ → Bool
  | 0 => true
  | n + 1 =>
    if a k ≠ b k then false
    else if a k = 0 then true
    else strncmpFrom a b (k + 1) n

/-- `strncmp(a, b, n) == 0`. -/
def strncmp (a b : Bytes) (n : ℕ) : Bool := strncmpFrom a b 0 n

/-- What `strncpy` writes: the string, and zeros after its end. -/
def strncpy (source : Bytes) : Bytes := fun k =>
  if (List.range (k + 1)).any fun j => source j = 0 then 0 else source k

/-! ## Directories -/

/-- `FileNameMaxLen`. -/
def fileNameMaxLen : ℕ := 9

/-- `sizeof(DirectoryEntry)`: a `bool` and padding, an `int`, ten characters and padding. -/
def directoryEntrySize : ℕ := 20

theorem directoryEntrySize_eq : directoryEntrySize = 20 := rfl

/-- `class Directory`: the bytes of the table. -/
structure Directory where
  tableSize : ℕ
  table : Bytes

namespace Directory

/-- `table[i].inUse`. -/
def inUse (t : Directory) (i : ℕ) : Bool := t.table (i * directoryEntrySize) != 0

/-- `table[i].sector`. -/
def sector (t : Directory) (i : ℕ) : ℤ := t.table.int (i * directoryEntrySize + 4)

/-- `table[i].name`. -/
def name (t : Directory) (i : ℕ) : Bytes := Bytes.window t.table (i * directoryEntrySize + 8)

def setInUse (t : Directory) (i : ℕ) (value : Bool) : Directory :=
  { t with table := Function.update t.table (i * directoryEntrySize) (if value then 1 else 0) }

/-- `Directory::Directory`. -/
def new (size : ℕ) (heap : Bytes) : Directory :=
  (List.range size).foldl (fun t i => t.setInUse i false) ⟨size, heap⟩

/-- `Directory::FetchFrom`. -/
def fetchFrom (t : Directory) (d : Disk) (file : OpenFile) : Except Fault Directory := do
  let (n, bytes) ← file.readAt d (t.tableSize * directoryEntrySize) 0
  return { t with table := Bytes.blit t.table 0 n.toNat bytes }

/-- `Directory::WriteBack`. -/
def writeBack (t : Directory) (d : Disk) (heap : Bytes) (file : OpenFile) : Except Fault Disk := do
  let (_, d) ← file.writeAt d heap t.table (t.tableSize * directoryEntrySize) 0
  return d

/-- `Directory::FindIndex`; `none` is the source's `-1`. -/
def findIndex (t : Directory) (name : Bytes) : Option ℕ :=
  (List.range t.tableSize).find? fun i => t.inUse i && strncmp (t.name i) name fileNameMaxLen

/-- `Directory::Find`. -/
def find (t : Directory) (name : Bytes) : ℤ :=
  match t.findIndex name with
  | some i => t.sector i
  | none => -1

/-- The first entry that is not in use. -/
def firstUnused (t : Directory) : Option ℕ := (List.range t.tableSize).find? fun i => !t.inUse i

/-- An entry of `Add`. -/
def setEntry (t : Directory) (i : ℕ) (name : Bytes) (newSector : ℤ) : Directory :=
  let t := t.setInUse i true
  let t := { t with
    table := Bytes.blit t.table (i * directoryEntrySize + 8) fileNameMaxLen (strncpy name) }
  { t with table := t.table.setInt (i * directoryEntrySize + 4) newSector }

/-- `Directory::Add`: whether it returns `true`, and the directory. -/
def add (t : Directory) (name : Bytes) (newSector : ℤ) : Bool × Directory :=
  if t.findIndex name ≠ none then (false, t)
  else match t.firstUnused with
    | some i => (true, t.setEntry i name newSector)
    | none => (false, t)

/-- `Directory::Remove`. -/
def remove (t : Directory) (name : Bytes) : Bool × Directory :=
  match t.findIndex name with
  | none => (false, t)
  | some i => (true, t.setInUse i false)

end Directory

/-! ## The bitmap as a file -/

namespace BitMap

/-- The bytes of `map`: `numWords` words of 32 bits. -/
def mapSize (b : BitMap) : ℤ := divRoundUp b.numBits 32 * 4

/-- `BitMap::FetchFrom`. -/
def fetchFrom (b : BitMap) (d : Disk) (file : OpenFile) : Except Fault BitMap := do
  let (n, bytes) ← file.readAt d b.mapSize 0
  return { b with marked := (Bytes.blit (Bytes.ofBits b.marked) 0 n.toNat bytes).bit }

/-- `BitMap::WriteBack`. -/
def writeBack (b : BitMap) (d : Disk) (heap : Bytes) (file : OpenFile) : Except Fault Disk := do
  let (_, d) ← file.writeAt d heap (Bytes.ofBits b.marked) b.mapSize 0
  return d

/-- `BitMap::Clear` of an `int`. -/
def clearSector (b : BitMap) (which : ℤ) : Except Fault BitMap :=
  if which < 0 then .error .assertion else b.clear which.toNat

end BitMap

/-! ## The file system -/

/-- `FreeMapSector`. -/
def freeMapSector : ℕ := 0

/-- `DirectorySector`. -/
def directorySector : ℕ := 1

/-- `NumDirEntries`. -/
def numDirEntries : ℕ := 10

/-- `FreeMapFileSize`. -/
def freeMapFileSize : ℤ := numSectors / 8

/-- `DirectoryFileSize`. -/
def directoryFileSize : ℤ := directoryEntrySize * numDirEntries

theorem numDirEntries_eq : numDirEntries = 10 := rfl

/-- The disk, and the two files that are kept open. -/
structure FileSystem where
  disk : Disk
  freeMapFile : OpenFile
  directoryFile : OpenFile

namespace FileSystem

/-- `FileSystem::FileSystem` with `format`. -/
def format (d : Disk) (heap : ℕ → Bytes) : Except Fault FileSystem := do
  let freeMap := ((BitMap.new numSectors).markBit freeMapSector).markBit directorySector
  let directory := Directory.new numDirEntries (heap 0)
  let (mapAllocated, mapHdr, freeMap) ← FileHeader.allocate ⟨heap 1⟩ freeMap freeMapFileSize
  if mapAllocated = false then .error .assertion
  else
    let (dirAllocated, dirHdr, freeMap) ← FileHeader.allocate ⟨heap 2⟩ freeMap directoryFileSize
    if dirAllocated = false then .error .assertion
    else
      -- the headers go first, as opening the two files reads them
      let d ← mapHdr.writeBack d freeMapSector
      let d ← dirHdr.writeBack d directorySector
      let freeMapFile ← OpenFile.new d freeMapSector
      let directoryFile ← OpenFile.new d directorySector
      let d ← freeMap.writeBack d (heap 3) freeMapFile
      let d ← directory.writeBack d (heap 4) directoryFile
      return ⟨d, freeMapFile, directoryFile⟩

/-- `FileSystem::Create`: whether it returns `true`, and the file system. -/
def create (fs : FileSystem) (heap : ℕ → Bytes) (name : Bytes) (initialSize : ℤ) :
    Except Fault (Bool × FileSystem) := do
  let directory ← (Directory.new numDirEntries (heap 0)).fetchFrom fs.disk fs.directoryFile
  if directory.find name ≠ -1 then return (false, fs)
  else
    let freeMap ← (BitMap.new numSectors).fetchFrom fs.disk fs.freeMapFile
    -- the header needs a sector of its own
    let (found, freeMap) := freeMap.find
    match found with
    | none => return (false, fs)
    | some sector =>
      let (added, directory) := directory.add name sector
      if added = false then return (false, fs)
      else
        let (allocated, hdr, freeMap) ← FileHeader.allocate ⟨heap 1⟩ freeMap initialSize
        if allocated = false then return (false, fs)
        else
          -- nothing has been written so far: a failure above leaves the disk as it was
          let d ← hdr.writeBack fs.disk sector
          let d ← directory.writeBack d (heap 2) fs.directoryFile
          let d ← freeMap.writeBack d (heap 3) fs.freeMapFile
          return (true, { fs with disk := d })

/-- `FileSystem::Open`; `none` is the source's `NULL`. -/
def openFile (fs : FileSystem) (heap : Bytes) (name : Bytes) : Except Fault (Option OpenFile) := do
  let directory ← (Directory.new numDirEntries heap).fetchFrom fs.disk fs.directoryFile
  let sector := directory.find name
  if sector ≥ 0 then some <$> OpenFile.new fs.disk sector else return none

/-- `FileSystem::Remove`. -/
def remove (fs : FileSystem) (heap : ℕ → Bytes) (name : Bytes) :
    Except Fault (Bool × FileSystem) := do
  let directory ← (Directory.new numDirEntries (heap 0)).fetchFrom fs.disk fs.directoryFile
  let sector := directory.find name
  if sector = -1 then return (false, fs)
  else
    let fileHdr ← FileHeader.fetchFrom fs.disk sector
    let freeMap ← (BitMap.new numSectors).fetchFrom fs.disk fs.freeMapFile
    let freeMap ← fileHdr.deallocate freeMap
    let freeMap ← freeMap.clearSector sector
    -- the sectors keep what they hold: only the map and the directory change
    let (_, directory) := directory.remove name
    let d ← freeMap.writeBack fs.disk (heap 1) fs.freeMapFile
    let d ← directory.writeBack d (heap 2) fs.directoryFile
    return (true, { fs with disk := d })

/-- A call of the file system, with what the memory has at each `new`. -/
inductive Event where
  | create (heap : ℕ → Bytes) (name : Bytes) (initialSize : Int32)
  | remove (heap : ℕ → Bytes) (name : Bytes)

def step (fs : FileSystem) : Event → Except Fault FileSystem
  | .create heap name initialSize => do
    let (_, fs) ← fs.create heap name initialSize.toInt
    return fs
  | .remove heap name => do
    let (_, fs) ← fs.remove heap name
    return fs

end FileSystem
end NachOS
