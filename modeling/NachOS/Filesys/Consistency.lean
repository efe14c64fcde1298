import NachOS.Filesys.DirectoryTheorems
import NachOS.Filesys.FileHeaderTheorems
import NachOS.Filesys.OpenFileTheorems
import NachOS.Lib.Placement

/-!
# Who owns the sectors of the disk

The bitmap, the directory and the headers of the files are fetched, changed and written back
one after the other. After every call the bitmap on the disk has exactly the sectors that the
headers on the disk own, and no two of them own the same sector.
-/

namespace NachOS
namespace FileSystem

open PartialRun Placement

/-! ## What is on the disk -/

/-- The header in a sector. -/
def headerAt (d : Disk) (sector : ℤ) : FileHeader := ⟨d sector.toNat⟩

/-- The directory file. -/
def directoryOn (d : Disk) : Directory where
  tableSize := numDirEntries
  table := (headerAt d directorySector).contents d

/-- The bitmap file. -/
def freeMapOn (d : Disk) : BitMap where
  numBits := numSectors
  marked := ((headerAt d freeMapSector).contents d).bit

/-- What sectors are there for. -/
inductive Owner where
  /-- The headers of the bitmap and directory files. -/
  | wellKnown
  | freeMap
  | directory
  | entry (i : ℕ)
deriving DecidableEq

/-- The sectors of an owner. -/
def sectorsOf (d : Disk) : Owner → List ℤ
  | .wellKnown => [(freeMapSector : ℤ), (directorySector : ℤ)]
  | .freeMap => (headerAt d freeMapSector).sectors
  | .directory => (headerAt d directorySector).sectors
  | .entry i =>
    if i < numDirEntries ∧ (directoryOn d).inUse i = true then
      (directoryOn d).sector i :: (headerAt d ((directoryOn d).sector i)).sectors
    else []

/-- The sectors marked in the bitmap are those that are owned, each by one owner and once. -/
structure Consistent (d : Disk) : Prop where
  apart : Apart (sectorsOf d)
  inRange : ∀ s, Occurs (sectorsOf d) s → 0 ≤ s ∧ s < numSectors
  marked : ∀ s < numSectors, (freeMapOn d).marked s = true ↔ Occurs (sectorsOf d) (s : ℤ)

/-! ## The invariant -/

/-- The header has room for the sectors it has, and these for the bytes. -/
def Fitting (h : FileHeader) : Prop :=
  h.numSectors ≤ numDirect ∧ h.numBytes ≤ h.numSectors * sectorSize

/-- The two open files are those on the disk, and all headers are fitting. -/
structure Inv (fs : FileSystem) : Prop where
  consistent : Consistent fs.disk
  freeMapFile : fs.freeMapFile.hdr = headerAt fs.disk freeMapSector
  directoryFile : fs.directoryFile.hdr = headerAt fs.disk directorySector
  freeMapBytes : fs.freeMapFile.hdr.numBytes = freeMapFileSize
  freeMapSectors : fs.freeMapFile.hdr.numSectors = 1
  directoryBytes : fs.directoryFile.hdr.numBytes = directoryFileSize
  directorySectors : fs.directoryFile.hdr.numSectors = 2
  fitting : ∀ i < numDirEntries, (directoryOn fs.disk).inUse i = true →
    Fitting (headerAt fs.disk ((directoryOn fs.disk).sector i))

theorem cast_injective : Function.Injective (Nat.cast : ℕ → ℤ) := fun _ _ h => Int.ofNat.inj h

theorem sound_of_sectors {h : FileHeader} (hnonneg : 0 ≤ h.numSectors) (hfitting : Fitting h)
    (hnodup : h.sectors.Nodup) (hrange : ∀ s ∈ h.sectors, 0 ≤ s ∧ s < numSectors) : h.Sound := by
  refine ⟨hnonneg, hfitting.1, hfitting.2, fun i hi => ?_, fun i j hi hj heq => ?_⟩
  · exact hrange _ (FileHeader.mem_sectors.mpr ⟨i, hi, rfl⟩)
  · rw [FileHeader.sectors, List.nodup_map_iff_inj_on List.nodup_range] at hnodup
    exact hnodup i (List.mem_range.mpr (by omega)) j (List.mem_range.mpr (by omega)) heq

section

variable {fs : FileSystem}

theorem freeMapFileSize_eq : freeMapFileSize = 128 := rfl
theorem directoryFileSize_eq : directoryFileSize = 200 := rfl

theorem Inv.freeMapSound (h : Inv fs) : fs.freeMapFile.hdr.Sound := by
  have hsectors := h.freeMapSectors
  have hbytes := h.freeMapBytes
  rw [freeMapFileSize_eq] at hbytes
  refine sound_of_sectors (by omega) ⟨?_, ?_⟩ ?_ fun s hs => ?_
  · rw [numDirect_eq]
    omega
  · rw [sectorSize_eq]
    omega
  · rw [h.freeMapFile]
    exact h.consistent.apart.nodup .freeMap
  · rw [h.freeMapFile] at hs
    exact h.consistent.inRange s ⟨.freeMap, hs⟩

theorem Inv.directorySound (h : Inv fs) : fs.directoryFile.hdr.Sound := by
  have hsectors := h.directorySectors
  have hbytes := h.directoryBytes
  rw [directoryFileSize_eq] at hbytes
  refine sound_of_sectors (by omega) ⟨?_, ?_⟩ ?_ fun s hs => ?_
  · rw [numDirect_eq]
    omega
  · rw [sectorSize_eq]
    omega
  · rw [h.directoryFile]
    exact h.consistent.apart.nodup .directory
  · rw [h.directoryFile] at hs
    exact h.consistent.inRange s ⟨.directory, hs⟩

end

/-- The two open files can be read and written, and no sector belongs to both. -/
structure Files (fs : FileSystem) : Prop where
  freeMapSound : fs.freeMapFile.hdr.Sound
  directorySound : fs.directoryFile.hdr.Sound
  freeMapBytes : fs.freeMapFile.hdr.numBytes = freeMapFileSize
  directoryBytes : fs.directoryFile.hdr.numBytes = directoryFileSize
  disjoint : ∀ s, s ∈ fs.freeMapFile.hdr.sectors → s ∈ fs.directoryFile.hdr.sectors → False

theorem Inv.files {fs : FileSystem} (h : Inv fs) : Files fs := by
  refine ⟨h.freeMapSound, h.directorySound, h.freeMapBytes, h.directoryBytes, fun s hmap hdir => ?_⟩
  rw [h.freeMapFile] at hmap
  rw [h.directoryFile] at hdir
  cases h.consistent.apart.unique (p := .freeMap) (q := .directory) hmap hdir

/-! ## Reading and writing the two files -/

/-- Reading all of a file. -/
theorem readAll_ok {f : OpenFile} {d : Disk} {n : ℕ} (hs : f.hdr.Sound) (hpos : 0 < n)
    (hn : f.hdr.numBytes = n) (hmax : n < 2 ^ 31) :
    ∃ bytes, f.readAt d n 0 = .ok ((n : ℤ), bytes) ∧ Bytes.EqUpTo n bytes (f.hdr.contents d) := by
  obtain ⟨bytes, hread, hbytes⟩ := OpenFile.readAt_ok (d := d) hs (n := n) (p := 0) hpos
    (by omega) (by omega)
  have hmin : min n (f.hdr.numBytes.toNat - 0) = n := by omega
  rw [hmin] at hread hbytes
  refine ⟨bytes, hread, fun k hk => ?_⟩
  rw [hbytes k hk, Nat.zero_add]

/-- Writing all of a file. -/
theorem writeAll_ok {f : OpenFile} {d : Disk} {n : ℕ} (hs : f.hdr.Sound) (hpos : 0 < n)
    (hn : f.hdr.numBytes = n) (hmax : n < 2 ^ 31) (heap source : Bytes) :
    ∃ d', f.writeAt d heap source n 0 = .ok ((n : ℤ), d') ∧
      Bytes.EqUpTo n (f.hdr.contents d') source ∧ ∀ s : ℕ, (s : ℤ) ∉ f.hdr.sectors → d' s = d s := by
  obtain ⟨d', hwrite, hbytes, hothers⟩ := OpenFile.writeAt_ok (d := d) hs (n := n) (p := 0) hpos
    (by omega) (by omega) heap source
  have hmin : min n (f.hdr.numBytes.toNat - 0) = n := by omega
  rw [hmin] at hwrite hbytes
  refine ⟨d', hwrite, fun k hk => ?_, fun s hs' => hothers s fun i hi _ _ heq => ?_⟩
  · rw [hbytes k (by omega), if_pos (by omega), Nat.sub_zero]
  · apply hs'
    rw [heq, ← hs.dataSectors_eq hi]
    exact FileHeader.mem_sectors.mpr ⟨i, hi, rfl⟩

/-- The bytes of a file change only if one of its sectors does. -/
theorem contents_congr {h : FileHeader} {d d' : Disk} {k : ℕ} (hs : h.Sound)
    (hk : k < h.numBytes) (hsame : ∀ s : ℕ, (s : ℤ) ∈ h.sectors → d' s = d s) :
    h.contents d' k = h.contents d k := by
  have hbytes := hs.numBytes_le
  rw [sectorSize_eq] at hbytes
  have hi : ((k / 128 : ℕ) : ℤ) < h.numSectors := by omega
  rw [FileHeader.contents_eq, FileHeader.contents_eq, hsame]
  rw [← hs.dataSectors_eq hi]
  exact FileHeader.mem_sectors.mpr ⟨k / 128, hi, rfl⟩

section

variable {fs : FileSystem} {d d' : Disk} {t : Directory} {m : BitMap}

/-- The directory that is fetched is the one on the disk. -/
theorem Inv.fetchDirectory (h : Inv fs) (heap : Bytes) : ∃ t,
    (Directory.new numDirEntries heap).fetchFrom fs.disk fs.directoryFile = .ok t ∧
    t.tableSize = numDirEntries ∧ Bytes.EqUpTo 200 t.table (directoryOn fs.disk).table := by
  obtain ⟨bytes, hread, hbytes⟩ := readAll_ok (d := fs.disk) (n := 200) h.directorySound (by omega)
    h.directoryBytes (by omega)
  have hsize : (((Directory.new numDirEntries heap).tableSize : ℤ) * directoryEntrySize) =
      (200 : ℕ) := by
    rw [Directory.new_tableSize]
    rfl
  refine ⟨{ Directory.new numDirEntries heap with
    table := Bytes.blit (Directory.new numDirEntries heap).table 0 200 bytes }, ?_,
    Directory.new_tableSize numDirEntries heap, fun k hk => ?_⟩
  · rw [Directory.fetchFrom, hsize, hread]
    rfl
  · dsimp only
    rw [Bytes.blit_of_mem (by omega) (by omega), Nat.sub_zero, hbytes k hk, h.directoryFile]
    rfl

/-- The bitmap that is fetched is the one on the disk. -/
theorem Inv.fetchFreeMap (h : Inv fs) : ∃ m,
    (BitMap.new numSectors).fetchFrom fs.disk fs.freeMapFile = .ok m ∧
    m.numBits = numSectors ∧ ∀ i < numSectors, m.marked i = (freeMapOn fs.disk).marked i := by
  obtain ⟨bytes, hread, hbytes⟩ := readAll_ok (d := fs.disk) (n := 128) h.freeMapSound (by omega)
    h.freeMapBytes (by omega)
  have hsize : (BitMap.new numSectors).mapSize = (128 : ℕ) := rfl
  refine ⟨{ BitMap.new numSectors with
    marked := (Bytes.blit (Bytes.ofBits (BitMap.new numSectors).marked) 0 128 bytes).bit }, ?_, rfl,
    fun i hi => ?_⟩
  · rw [BitMap.fetchFrom, hsize, hread]
    rfl
  · rw [numSectors_eq] at hi
    have hlt : i / 8 < 128 := by omega
    refine Bytes.bit_congr ?_
    rw [Bytes.blit_of_mem (by omega) (by omega), Nat.sub_zero, hbytes _ hlt, h.freeMapFile]

/-- The disk once the directory and the bitmap have been written. -/
structure Written (fs : FileSystem) (t : Directory) (m : BitMap) (d d' : Disk) : Prop where
  others : ∀ s : ℕ, (s : ℤ) ∉ fs.freeMapFile.hdr.sectors → (s : ℤ) ∉ fs.directoryFile.hdr.sectors →
    d' s = d s
  directory : Bytes.EqUpTo 200 (fs.directoryFile.hdr.contents d') t.table
  freeMap : ∀ i < numSectors, (fs.freeMapFile.hdr.contents d').bit i = m.marked i

theorem Files.writeDirectory (h : Files fs) (ht : t.tableSize = numDirEntries) (d : Disk)
    (heap : Bytes) : ∃ d', t.writeBack d heap fs.directoryFile = .ok d' ∧
      Bytes.EqUpTo 200 (fs.directoryFile.hdr.contents d') t.table ∧
      ∀ s : ℕ, (s : ℤ) ∉ fs.directoryFile.hdr.sectors → d' s = d s := by
  obtain ⟨d', hwrite, hbytes, hothers⟩ := writeAll_ok (d := d) (n := 200) h.directorySound (by omega)
    h.directoryBytes (by omega) heap t.table
  have hsize : ((t.tableSize : ℤ) * directoryEntrySize) = (200 : ℕ) := by
    rw [ht]
    rfl
  refine ⟨d', ?_, hbytes, hothers⟩
  rw [Directory.writeBack, hsize, hwrite]
  rfl

theorem Files.writeFreeMap (h : Files fs) (hm : m.numBits = numSectors) (d : Disk) (heap : Bytes) :
    ∃ d', m.writeBack d heap fs.freeMapFile = .ok d' ∧
      (∀ i < numSectors, (fs.freeMapFile.hdr.contents d').bit i = m.marked i) ∧
      ∀ s : ℕ, (s : ℤ) ∉ fs.freeMapFile.hdr.sectors → d' s = d s := by
  obtain ⟨d', hwrite, hbytes, hothers⟩ := writeAll_ok (d := d) (n := 128) h.freeMapSound (by omega)
    h.freeMapBytes (by omega) heap (Bytes.ofBits m.marked)
  have hsize : m.mapSize = (128 : ℕ) := by
    rw [BitMap.mapSize, hm]
    rfl
  refine ⟨d', ?_, fun i hi => ?_, hothers⟩
  · rw [BitMap.writeBack, hsize, hwrite]
    rfl
  · rw [numSectors_eq] at hi
    rw [← Bytes.bit_ofBits m.marked i]
    exact Bytes.bit_congr (hbytes _ (by omega))

/-- `Create` writes the directory first. -/
theorem Files.writeBoth (h : Files fs) (ht : t.tableSize = numDirEntries) (hm : m.numBits = numSectors)
    (d : Disk) (heap heap' : Bytes) : ∃ d₁ d₂, t.writeBack d heap fs.directoryFile = .ok d₁ ∧
      m.writeBack d₁ heap' fs.freeMapFile = .ok d₂ ∧ Written fs t m d d₂ := by
  obtain ⟨d₁, hdir, hdirBytes, hdirOthers⟩ := h.writeDirectory ht d heap
  obtain ⟨d₂, hmap, hmapBits, hmapOthers⟩ := h.writeFreeMap hm d₁ heap'
  refine ⟨d₁, d₂, hdir, hmap, fun s hs hs' => ?_, fun k hk => ?_, hmapBits⟩
  · rw [hmapOthers s hs, hdirOthers s hs']
  · rw [contents_congr h.directorySound, hdirBytes k hk]
    · rw [h.directoryBytes, directoryFileSize_eq]
      omega
    · exact fun s hs => hmapOthers s fun hs' => h.disjoint s hs' hs

/-- `Remove` writes the bitmap first. -/
theorem Files.writeBoth' (h : Files fs) (ht : t.tableSize = numDirEntries)
    (hm : m.numBits = numSectors) (d : Disk) (heap heap' : Bytes) :
    ∃ d₁ d₂, m.writeBack d heap fs.freeMapFile = .ok d₁ ∧
      t.writeBack d₁ heap' fs.directoryFile = .ok d₂ ∧ Written fs t m d d₂ := by
  obtain ⟨d₁, hmap, hmapBits, hmapOthers⟩ := h.writeFreeMap hm d heap
  obtain ⟨d₂, hdir, hdirBytes, hdirOthers⟩ := h.writeDirectory ht d₁ heap'
  refine ⟨d₁, d₂, hmap, hdir, fun s hs hs' => ?_, hdirBytes, fun i hi => ?_⟩
  · rw [hdirOthers s hs', hmapOthers s hs]
  · rw [← hmapBits i hi]
    apply Bytes.bit_congr
    rw [numSectors_eq] at hi
    apply contents_congr h.freeMapSound
    · rw [h.freeMapBytes, freeMapFileSize_eq]
      omega
    · exact fun s hs => hdirOthers s fun hs' => h.disjoint s hs hs'

/-! ## What a call changes -/

/-- A sector that was not owned may have been written before. -/
theorem Inv.written_eq (h : Inv fs) (hold : ∀ s : ℕ, Occurs (sectorsOf fs.disk) s → d s = fs.disk s)
    (hwritten : Written fs t m d d') {s : ℕ} {o : Owner} (hs : (s : ℤ) ∈ sectorsOf fs.disk o)
    (hmap : o ≠ .freeMap) (hdir : o ≠ .directory) : d' s = fs.disk s := by
  rw [hwritten.others, hold s ⟨o, hs⟩]
  · intro hs'
    rw [h.freeMapFile] at hs'
    exact hmap (h.consistent.apart.unique hs hs')
  · intro hs'
    rw [h.directoryFile] at hs'
    exact hdir (h.consistent.apart.unique hs hs')

/-- The headers of the two files stay. -/
theorem Inv.headers (h : Inv fs) (hold : ∀ s : ℕ, Occurs (sectorsOf fs.disk) s → d s = fs.disk s)
    (hwritten : Written fs t m d d') :
    fs.freeMapFile.hdr = headerAt d' freeMapSector ∧
      fs.directoryFile.hdr = headerAt d' directorySector := by
  have hmap := h.written_eq hold hwritten (s := freeMapSector) (o := .wellKnown)
    List.mem_cons_self (by simp) (by simp)
  have hdir := h.written_eq hold hwritten (s := directorySector) (o := .wellKnown)
    (List.mem_cons_of_mem _ List.mem_cons_self) (by simp) (by simp)
  constructor
  · rw [h.freeMapFile, headerAt, headerAt, Int.toNat_natCast, hmap]
  · rw [h.directoryFile, headerAt, headerAt, Int.toNat_natCast, hdir]

/-- The directory on the disk is the one that was written. -/
theorem Inv.table_written (h : Inv fs)
    (hold : ∀ s : ℕ, Occurs (sectorsOf fs.disk) s → d s = fs.disk s)
    (hwritten : Written fs t m d d') :
    Bytes.EqUpTo (numDirEntries * directoryEntrySize) (directoryOn d').table t.table := by
  intro k hk
  rw [directoryOn, ← (h.headers hold hwritten).2]
  exact hwritten.directory k hk

theorem Inv.directory_written (h : Inv fs)
    (hold : ∀ s : ℕ, Occurs (sectorsOf fs.disk) s → d s = fs.disk s)
    (hwritten : Written fs t m d d') {j : ℕ} (hj : j < numDirEntries) :
    (directoryOn d').inUse j = t.inUse j ∧ (directoryOn d').sector j = t.sector j :=
  ⟨Directory.inUse_congr (h.table_written hold hwritten) hj,
    Directory.sector_congr (h.table_written hold hwritten) hj⟩

theorem Inv.freeMap_written (h : Inv fs)
    (hold : ∀ s : ℕ, Occurs (sectorsOf fs.disk) s → d s = fs.disk s)
    (hwritten : Written fs t m d d') {i : ℕ} (hi : i < numSectors) :
    (freeMapOn d').marked i = m.marked i := by
  rw [freeMapOn, ← (h.headers hold hwritten).1]
  exact hwritten.freeMap i hi

/-- The header of a file that was there is not among the sectors written. -/
theorem Inv.header_written (h : Inv fs)
    (hold : ∀ s : ℕ, Occurs (sectorsOf fs.disk) s → d s = fs.disk s)
    (hwritten : Written fs t m d d') {j : ℕ} (hj : j < numDirEntries)
    (huse : (directoryOn fs.disk).inUse j = true) :
    headerAt d' ((directoryOn fs.disk).sector j) =
      headerAt fs.disk ((directoryOn fs.disk).sector j) := by
  have hmem : (directoryOn fs.disk).sector j ∈ sectorsOf fs.disk (.entry j) := by
    simp only [sectorsOf]
    rw [if_pos ⟨hj, huse⟩]
    exact List.mem_cons_self
  have hrange := h.consistent.inRange _ ⟨_, hmem⟩
  obtain ⟨s, hs⟩ := Int.eq_ofNat_of_zero_le hrange.1
  rw [hs] at hmem ⊢
  rw [headerAt, headerAt, Int.toNat_natCast, h.written_eq hold hwritten hmem (by simp) (by simp)]

/-- The entries other than `i` are as before, and own what they did. -/
theorem Inv.sectorsOf_written (h : Inv fs)
    (hold : ∀ s : ℕ, Occurs (sectorsOf fs.disk) s → d s = fs.disk s)
    (hwritten : Written fs t m d d') (i : ℕ)
    (hentries : ∀ j < numDirEntries, j ≠ i → t.inUse j = (directoryOn fs.disk).inUse j ∧
      t.sector j = (directoryOn fs.disk).sector j) :
    sectorsOf d' = Function.update (sectorsOf fs.disk) (.entry i) (sectorsOf d' (.entry i)) := by
  obtain ⟨hmap, hdir⟩ := h.headers hold hwritten
  funext o
  by_cases ho : o = .entry i
  · rw [ho, Function.update_self]
  rw [Function.update_of_ne ho]
  cases o with
  | wellKnown => rfl
  | freeMap =>
    show (headerAt d' freeMapSector).sectors = (headerAt fs.disk freeMapSector).sectors
    rw [← hmap, h.freeMapFile]
  | directory =>
    show (headerAt d' directorySector).sectors = (headerAt fs.disk directorySector).sectors
    rw [← hdir, h.directoryFile]
  | entry j =>
    by_cases hj : j < numDirEntries
    · obtain ⟨hinUse, hsector⟩ := h.directory_written hold hwritten hj
      obtain ⟨hinUse', hsector'⟩ := hentries j hj fun hji => ho (by rw [hji])
      simp only [sectorsOf, hinUse, hinUse', hsector, hsector']
      by_cases huse : (directoryOn fs.disk).inUse j = true
      · rw [h.header_written hold hwritten hj huse]
      · rw [if_neg fun hand => huse hand.2, if_neg fun hand => huse hand.2]
    · simp only [sectorsOf]
      rw [if_neg fun hand => hj hand.1, if_neg fun hand => hj hand.1]

/-! ## Create -/

/-- A successful `Create`: entry `i` of the directory `t` gets the header `hdr` in sector `b`,
which has the sectors `bits`. -/
structure Creation (fs : FileSystem) (name : Bytes) (size : ℤ) (t : Directory) (m : BitMap)
    (i b : ℕ) (bits : List ℕ) (hdr : FileHeader) (d' : Disk) : Prop where
  table : Bytes.EqUpTo 200 t.table (directoryOn fs.disk).table
  tableSize : t.tableSize = numDirEntries
  absent : t.findIndex name = none
  unused : t.firstUnused = some i
  nodup : (b :: bits).Nodup
  clear : ∀ s ∈ b :: bits, s < numSectors ∧ (freeMapOn fs.disk).marked s = false
  marked : ∀ s < numSectors, m.marked s = true ↔ (freeMapOn fs.disk).marked s = true ∨ s ∈ b :: bits
  numBytes : hdr.numBytes = size
  numSectors : hdr.numSectors = divRoundUp size sectorSize
  sectors : hdr.sectors = bits.map Nat.cast
  written : Written fs (t.setEntry i name b) m
    (Function.update fs.disk b (Bytes.blit (fs.disk b) 0 sectorSize hdr.bytes)) d'

/-- `Create` fails and changes nothing, or is a `Creation`. -/
theorem Inv.create_ok (h : Inv fs) (heap : ℕ → Bytes) (name : Bytes) {size : ℤ}
    (hmin : -2 ^ 31 ≤ size) (hmax : size ≤ maxFileSize) :
    fs.create heap name size = .ok (false, fs) ∨
      ∃ t m i b bits hdr d', Creation fs name size t m i b bits hdr d' ∧
        fs.create heap name size = .ok (true, { fs with disk := d' }) := by
  obtain ⟨t, hfetchDir, htableSize, htable⟩ := h.fetchDirectory (heap 0)
  obtain ⟨m, hfetchMap, hbits, hmarked⟩ := h.fetchFreeMap
  unfold create
  rw [hfetchDir, ok_bind]
  -- the tests of `Create`, one after the other; each one that fails returns before any write
  by_cases hfind : t.find name = -1
  case neg =>
    rw [if_pos hfind]
    exact .inl rfl
  rw [if_neg (not_not.mpr hfind), hfetchMap, ok_bind]
  cases hfree : m.find with
  | mk found m₁ =>
  cases found with
  | none => exact .inl rfl
  | some b =>
  dsimp only
  cases hadd : t.add name b with
  | mk added t₁ =>
  cases added with
  | false => exact .inl rfl
  | true =>
  dsimp only
  rw [if_neg (by simp)]
  have htaken := (BitMap.Taken.nil m).find hfree
  have hbits₁ : m₁.numBits = numSectors := htaken.numBits.trans hbits
  rcases FileHeader.allocate_ok ⟨heap 1⟩ (m := m₁) hmin hmax (by rw [hbits₁, numSectors_eq]; omega)
    with ⟨-, hdr, halloc⟩ | ⟨-, hdr, m₂, bits, halloc, htaken₂, hsize, hnum, hsectors⟩
  · rw [halloc, ok_bind]
    exact .inl rfl
  rw [halloc, ok_bind]
  dsimp only
  rw [if_neg (by simp)]
  obtain ⟨i, hunused, rfl⟩ := Directory.add_true hadd
  -- the header goes to its sector before the directory and the map are written back
  have hlt : b < numSectors := by
    have := htaken.lt b (by simp)
    omega
  rw [FileHeader.writeBack, Disk.writeSector_natCast _ hlt, ok_bind]
  obtain ⟨d₁, d₂, hdir, hmap, hwritten⟩ := h.files.writeBoth (t := t.setEntry i name b) (m := m₂)
    htableSize (htaken₂.numBits.trans hbits₁)
    (Function.update fs.disk b (Bytes.blit (fs.disk b) 0 sectorSize hdr.bytes)) (heap 2) (heap 3)
  rw [hdir, ok_bind, hmap, ok_bind]
  refine .inr ⟨t, m₂, i, b, bits, hdr, d₂, ?_, rfl⟩
  have hboth : BitMap.Taken m (b :: bits) m₂ := htaken.append htaken₂
  refine ⟨htable, htableSize, ?_, hunused, hboth.nodup, fun s hs => ?_, fun s hs => ?_, hsize, hnum,
    hsectors, hwritten⟩
  · by_contra hpresent
    rw [Directory.add, if_pos hpresent] at hadd
    cases hadd
  · have hlt : s < numSectors := by
      rw [← hbits]
      exact hboth.lt s hs
    exact ⟨hlt, by rw [← hmarked s hlt]; exact hboth.clear s hs⟩
  · rw [hboth.marked, hmarked s hs]

/-- A header read back from the sector it was written to. -/
theorem headerAt_eq {hdr : FileHeader} {s : ℕ}
    (hbytes : Bytes.EqUpTo sectorSize (d s) hdr.bytes) :
    (headerAt d s).numBytes = hdr.numBytes ∧ (headerAt d s).numSectors = hdr.numSectors ∧
      ∀ i < numDirect, (headerAt d s).dataSectors i = hdr.dataSectors i := by
  rw [sectorSize_eq] at hbytes
  have hint : ∀ a, a + 4 ≤ 128 → (d s).int a = hdr.bytes.int a := fun a ha =>
    Bytes.int_congr fun k hk => hbytes _ (by omega)
  refine ⟨hint 0 (by omega), hint 4 (by omega), fun i hi => hint _ ?_⟩
  rw [numDirect_eq] at hi
  omega

theorem headerAt_sectors {hdr : FileHeader} {s : ℕ}
    (hbytes : Bytes.EqUpTo sectorSize (d s) hdr.bytes) (hdirect : hdr.numSectors ≤ numDirect) :
    (headerAt d s).sectors = hdr.sectors := by
  obtain ⟨-, hnum, hdata⟩ := headerAt_eq hbytes
  rw [FileHeader.sectors, FileHeader.sectors, hnum]
  refine List.map_congr_left fun i hi => ?_
  rw [List.mem_range] at hi
  exact hdata i (by omega)

section

variable {name : Bytes} {size : ℤ} {i b : ℕ} {bits : List ℕ} {hdr : FileHeader}

theorem Creation.not_occurs (h : Inv fs) (hc : Creation fs name size t m i b bits hdr d') {s : ℕ}
    (hs : s ∈ b :: bits) : ¬ Occurs (sectorsOf fs.disk) (s : ℤ) := by
  obtain ⟨hlt, hclear⟩ := hc.clear s hs
  rw [← h.consistent.marked s hlt, hclear]
  exact Bool.false_ne_true

theorem Creation.old (h : Inv fs) (hc : Creation fs name size t m i b bits hdr d') (s : ℕ)
    (hs : Occurs (sectorsOf fs.disk) (s : ℤ)) :
    Function.update fs.disk b (Bytes.blit (fs.disk b) 0 sectorSize hdr.bytes) s = fs.disk s := by
  refine Function.update_of_ne ?_ _ _
  rintro rfl
  exact hc.not_occurs h List.mem_cons_self hs

/-- The entry that is used was not in use. -/
theorem Creation.sectorsOf_entry (hc : Creation fs name size t m i b bits hdr d') :
    i < numDirEntries ∧ sectorsOf fs.disk (.entry i) = [] := by
  obtain ⟨hi, hunused⟩ := Directory.firstUnused_some hc.unused
  rw [hc.tableSize] at hi
  refine ⟨hi, if_neg fun hand => ?_⟩
  have hsame : t.inUse i = (directoryOn fs.disk).inUse i :=
    Directory.inUse_congr (by rw [hc.tableSize]; exact hc.table) (by rw [hc.tableSize]; exact hi)
  rw [← hsame, hunused] at hand
  cases hand.2

/-- The new header on the disk. -/
theorem Creation.header (h : Inv fs) (hc : Creation fs name size t m i b bits hdr d') :
    Bytes.EqUpTo sectorSize (d' b) hdr.bytes := by
  intro k hk
  have hnot := hc.not_occurs h (s := b) List.mem_cons_self
  rw [hc.written.others, Function.update_self, Bytes.blit_of_mem (by omega) (by omega), Nat.sub_zero]
  · rw [h.freeMapFile]
    exact fun hmem => hnot ⟨.freeMap, hmem⟩
  · rw [h.directoryFile]
    exact fun hmem => hnot ⟨.directory, hmem⟩

/-- The directory on the disk after a `Create`. -/
theorem Creation.entries (h : Inv fs) (hc : Creation fs name size t m i b bits hdr d') {j : ℕ}
    (hj : j < numDirEntries) :
    (directoryOn d').inUse j = (if j = i then true else (directoryOn fs.disk).inUse j) ∧
      (directoryOn d').sector j = if j = i then (b : ℤ) else (directoryOn fs.disk).sector j := by
  obtain ⟨hinUse, hsector⟩ := h.directory_written (hc.old h) hc.written hj
  have htable : Bytes.EqUpTo (t.tableSize * directoryEntrySize) t.table
      (directoryOn fs.disk).table := by
    rw [hc.tableSize]
    exact hc.table
  have hlt := (hc.clear b List.mem_cons_self).1
  rw [numSectors_eq] at hlt
  rw [hinUse, hsector, Directory.setEntry_inUse, Directory.setEntry_sector t i j name (by omega)
    (by omega), Directory.inUse_congr htable (by rw [hc.tableSize]; exact hj),
    Directory.sector_congr htable (by rw [hc.tableSize]; exact hj)]
  exact ⟨rfl, rfl⟩

theorem Creation.sectorsOf_eq (h : Inv fs) (hc : Creation fs name size t m i b bits hdr d')
    (hmin : -2 ^ 31 ≤ size) (hmax : size ≤ maxFileSize) :
    sectorsOf d' =
      Function.update (sectorsOf fs.disk) (.entry i) ((b :: bits).map Nat.cast) := by
  obtain ⟨hi, -⟩ := hc.sectorsOf_entry
  have hothers := h.sectorsOf_written (hc.old h) hc.written i fun j hj hne => by
    obtain ⟨hinUse, hsector⟩ := hc.entries h hj
    obtain ⟨hinUse', hsector'⟩ := h.directory_written (hc.old h) hc.written hj
    rw [if_neg hne] at hinUse hsector
    exact ⟨hinUse'.symm.trans hinUse, hsector'.symm.trans hsector⟩
  have hself : sectorsOf d' (.entry i) = (b :: bits).map Nat.cast := by
    obtain ⟨hinUse, hsector⟩ := hc.entries h hi
    rw [if_pos rfl] at hinUse hsector
    obtain ⟨-, hdirect, -⟩ := FileHeader.divRoundUp_le hmin hmax
    simp only [sectorsOf]
    rw [if_pos ⟨hi, hinUse⟩, hsector, headerAt_sectors (hc.header h) (by rw [hc.numSectors]; exact hdirect),
      hc.sectors, List.map_cons]
  rw [hothers, hself]

/-- `Create` keeps the invariant. -/
theorem Creation.inv (h : Inv fs) (hc : Creation fs name size t m i b bits hdr d')
    (hmin : -2 ^ 31 ≤ size) (hmax : size ≤ maxFileSize) : Inv { fs with disk := d' } := by
  obtain ⟨hmap, hdir⟩ := h.headers (hc.old h) hc.written
  obtain ⟨hi, hempty⟩ := hc.sectorsOf_entry
  have hsectors := hc.sectorsOf_eq h hmin hmax
  -- the sectors in use are the new ones and those in use before
  have hoccurs : ∀ s : ℤ, Occurs (sectorsOf d') s ↔
      s ∈ (b :: bits).map Nat.cast ∨ Occurs (sectorsOf fs.disk) s := by
    intro s
    rw [hsectors, occurs_update_nil hempty]
  refine ⟨⟨?apart, fun s hs => ?inRange, fun s hs => ?marked⟩, hmap, hdir, h.freeMapBytes,
    h.freeMapSectors, h.directoryBytes, h.directorySectors, fun j hj huse => ?fitting⟩
  case apart =>
    show Apart (sectorsOf d')
    rw [hsectors]
    refine h.consistent.apart.update ?_ fun s hs => .inr ?_
    · exact hc.nodup.map cast_injective
    · obtain ⟨n, hn, rfl⟩ := List.mem_map.mp hs
      exact hc.not_occurs h hn
  case inRange =>
    rcases (hoccurs s).mp hs with hs | hs
    · obtain ⟨n, hn, rfl⟩ := List.mem_map.mp hs
      have := (hc.clear n hn).1
      omega
    · exact h.consistent.inRange s hs
  case marked =>
    -- the map that is written back has the new sectors marked too
    show (freeMapOn d').marked s = true ↔ Occurs (sectorsOf d') (s : ℤ)
    rw [h.freeMap_written (hc.old h) hc.written hs, hc.marked s hs, h.consistent.marked s hs, hoccurs,
      List.mem_map_of_injective cast_injective]
    exact or_comm
  case fitting =>
    change (directoryOn d').inUse j = true at huse
    show Fitting (headerAt d' ((directoryOn d').sector j))
    obtain ⟨hinUse, hsector⟩ := hc.entries h hj
    by_cases hji : j = i
    · rw [hsector, if_pos hji]
      obtain ⟨-, hdirect, hroom⟩ := FileHeader.divRoundUp_le hmin hmax
      obtain ⟨hbytes, hnum, -⟩ := headerAt_eq (hc.header h)
      refine ⟨?_, ?_⟩
      · rw [hnum, hc.numSectors]
        exact hdirect
      · rw [hnum, hbytes, hc.numSectors, hc.numBytes]
        exact hroom
    · rw [hinUse, if_neg hji] at huse
      rw [hsector, if_neg hji]
      rw [h.header_written (hc.old h) hc.written hj huse]
      exact h.fitting j hj huse

end

/-! ## Remove -/

/-- A successful `Remove` of entry `i` of the directory `t`. -/
structure Removal (fs : FileSystem) (name : Bytes) (t : Directory) (m : BitMap) (i : ℕ)
    (d' : Disk) : Prop where
  table : Bytes.EqUpTo 200 t.table (directoryOn fs.disk).table
  tableSize : t.tableSize = numDirEntries
  found : t.findIndex name = some i
  marked : ∀ s < numSectors, m.marked s = true ↔
    (freeMapOn fs.disk).marked s = true ∧ (s : ℤ) ∉ sectorsOf fs.disk (.entry i)
  written : Written fs (t.setInUse i false) m fs.disk d'

/-- `Remove` finds nothing and changes nothing, or is a `Removal`. -/
theorem Inv.remove_ok (h : Inv fs) (heap : ℕ → Bytes) (name : Bytes) :
    fs.remove heap name = .ok (false, fs) ∨
      ∃ t m i d', Removal fs name t m i d' ∧
        fs.remove heap name = .ok (true, { fs with disk := d' }) := by
  obtain ⟨t, hfetchDir, htableSize, htable⟩ := h.fetchDirectory (heap 0)
  obtain ⟨m, hfetchMap, hbits, hmarked⟩ := h.fetchFreeMap
  unfold remove
  rw [hfetchDir, ok_bind]
  -- the name is not in the directory: nothing is written
  by_cases hfind : t.find name = -1
  · dsimp only
    rw [if_pos hfind]
    exact .inl rfl
  dsimp only
  rw [if_neg hfind]
  cases hindex : t.findIndex name with
  | none =>
    rw [Directory.find, hindex] at hfind
    exact absurd rfl hfind
  | some i =>
  have hsector : t.find name = t.sector i := by rw [Directory.find, hindex]
  obtain ⟨hi, huse⟩ := Directory.findIndex_some hindex
  rw [htableSize] at hi
  have htable' : Bytes.EqUpTo (t.tableSize * directoryEntrySize) t.table
      (directoryOn fs.disk).table := by
    rw [htableSize]
    exact htable
  rw [Directory.inUse_congr htable' (by rw [htableSize]; exact hi)] at huse
  rw [Directory.sector_congr htable' (by rw [htableSize]; exact hi)] at hsector
  -- the sectors of the entry are marked
  have hlist : sectorsOf fs.disk (.entry i) = (directoryOn fs.disk).sector i ::
      (headerAt fs.disk ((directoryOn fs.disk).sector i)).sectors := by
    simp only [sectorsOf]
    rw [if_pos ⟨hi, huse⟩]
  have hnodup := h.consistent.apart.nodup (.entry i)
  have howned : ∀ s ∈ sectorsOf fs.disk (.entry i), 0 ≤ s ∧ s < numSectors ∧
      m.marked s.toNat = true := by
    intro s hs
    have hrange := h.consistent.inRange s ⟨_, hs⟩
    obtain ⟨n, rfl⟩ := Int.eq_ofNat_of_zero_le hrange.1
    refine ⟨hrange.1, hrange.2, ?_⟩
    rw [Int.toNat_natCast, hmarked n (by omega), h.consistent.marked n (by omega)]
    exact ⟨_, hs⟩
  rw [hlist] at hnodup howned
  obtain ⟨hhead, hnodup⟩ := List.nodup_cons.mp hnodup
  obtain ⟨hnonneg, hlt, -⟩ := howned _ List.mem_cons_self
  obtain ⟨m₁, hdealloc, hbits₁, hmarked₁⟩ := FileHeader.deallocate_ok (m := m) (h.fitting i hi huse).1
    hnodup (fun s hs => by rw [hbits]; exact howned s (List.mem_cons_of_mem _ hs))
  obtain ⟨b, hb⟩ := Int.eq_ofNat_of_zero_le hnonneg
  rw [hb] at hlt hhead hlist hsector
  have hread : FileHeader.fetchFrom fs.disk (t.find name) = .ok (headerAt fs.disk b) := by
    rw [hsector, FileHeader.fetchFrom, Disk.readSector, if_pos ⟨by omega, hlt⟩]
    rfl
  -- the header's own sector is freed after those of the data
  have hclear : m₁.clearSector (t.find name) =
      .ok { m₁ with marked := Function.update m₁.marked b false } := by
    rw [hsector, BitMap.clearSector, if_neg (by omega), Int.toNat_natCast, BitMap.clear,
      if_pos (by omega)]
  have hremove : t.remove name = (true, t.setInUse i false) := by
    rw [Directory.remove, hindex]
  rw [hb] at hdealloc hmarked₁
  -- the map is written back first, then the directory
  obtain ⟨d₁, d₂, hmap, hdir, hwritten⟩ := h.files.writeBoth' (t := t.setInUse i false)
    (m := { m₁ with marked := Function.update m₁.marked b false }) htableSize (hbits₁.trans hbits)
    fs.disk (heap 1) (heap 2)
  rw [hread, ok_bind, hfetchMap, ok_bind, hdealloc, ok_bind, hclear, ok_bind, hremove]
  dsimp only
  rw [hmap, ok_bind, hdir, ok_bind]
  refine .inr ⟨t, _, i, d₂, ⟨htable, htableSize, hindex, fun s hs => ?_, hwritten⟩, rfl⟩
  show Function.update m₁.marked b false s = true ↔ _
  rw [hlist, List.mem_cons, not_or, Function.update_apply, ← hmarked s hs, Int.natCast_inj]
  by_cases hsb : s = b
  · simp [hsb]
  · rw [if_neg hsb, hmarked₁]
    simp [hsb]

section

variable {name : Bytes} {i : ℕ}

/-- The directory on the disk after a `Remove`. -/
theorem Removal.entries (h : Inv fs) (hr : Removal fs name t m i d') {j : ℕ}
    (hj : j < numDirEntries) :
    (directoryOn d').inUse j = (if j = i then false else (directoryOn fs.disk).inUse j) ∧
      (directoryOn d').sector j = (directoryOn fs.disk).sector j := by
  obtain ⟨hinUse, hsector⟩ := h.directory_written (fun _ _ => rfl) hr.written hj
  have htable : Bytes.EqUpTo (t.tableSize * directoryEntrySize) t.table
      (directoryOn fs.disk).table := by
    rw [hr.tableSize]
    exact hr.table
  rw [hinUse, hsector, Directory.setInUse_inUse, Directory.setInUse_sector,
    Directory.inUse_congr htable (by rw [hr.tableSize]; exact hj),
    Directory.sector_congr htable (by rw [hr.tableSize]; exact hj)]
  exact ⟨rfl, rfl⟩

theorem Removal.sectorsOf_eq (h : Inv fs) (hr : Removal fs name t m i d') :
    sectorsOf d' = Function.update (sectorsOf fs.disk) (.entry i) [] := by
  have hothers := h.sectorsOf_written (fun _ _ => rfl) hr.written i fun j hj hne => by
    obtain ⟨hinUse, hsector⟩ := hr.entries h hj
    obtain ⟨hinUse', hsector'⟩ := h.directory_written (fun _ _ => rfl) hr.written hj
    rw [if_neg hne] at hinUse
    exact ⟨hinUse'.symm.trans hinUse, hsector'.symm.trans hsector⟩
  have hself : sectorsOf d' (.entry i) = [] := by
    refine if_neg fun hand => ?_
    have huse := hand.2
    rw [(hr.entries h hand.1).1, if_pos rfl] at huse
    cases huse
  rw [hothers, hself]

/-- `Remove` keeps the invariant. -/
theorem Removal.inv (h : Inv fs) (hr : Removal fs name t m i d') : Inv { fs with disk := d' } := by
  obtain ⟨hmap, hdir⟩ := h.headers (fun _ _ => rfl) hr.written
  have hsectors := hr.sectorsOf_eq h
  have hoccurs : ∀ s : ℤ, Occurs (sectorsOf d') s ↔
      Occurs (sectorsOf fs.disk) s ∧ s ∉ sectorsOf fs.disk (.entry i) := by
    intro s
    rw [hsectors, occurs_update]
    constructor
    · rintro (hs | ⟨q, hq, hs⟩)
      · cases hs
      · exact ⟨⟨q, hs⟩, fun hs' => hq (h.consistent.apart.unique hs hs')⟩
    · rintro ⟨⟨q, hs⟩, hnot⟩
      refine .inr ⟨q, ?_, hs⟩
      rintro rfl
      exact hnot hs
  refine ⟨⟨?_, fun s hs => ?_, fun s hs => ?_⟩, hmap, hdir, h.freeMapBytes, h.freeMapSectors,
    h.directoryBytes, h.directorySectors, fun j hj huse => ?_⟩
  · show Apart (sectorsOf d')
    rw [hsectors]
    refine h.consistent.apart.update List.nodup_nil fun s hs => ?_
    cases hs
  · exact h.consistent.inRange s ((hoccurs s).mp hs).1
  · show (freeMapOn d').marked s = true ↔ Occurs (sectorsOf d') (s : ℤ)
    rw [h.freeMap_written (fun _ _ => rfl) hr.written hs, hr.marked s hs, h.consistent.marked s hs,
      hoccurs]
  · change (directoryOn d').inUse j = true at huse
    show Fitting (headerAt d' ((directoryOn d').sector j))
    obtain ⟨hinUse, hsector⟩ := hr.entries h hj
    by_cases hji : j = i
    · rw [hinUse, if_pos hji] at huse
      cases huse
    · rw [hinUse, if_neg hji] at huse
      rw [hsector, h.header_written (fun _ _ => rfl) hr.written hj huse]
      exact h.fitting j hj huse

end

end

/-! ## Formatting -/

/-- The bitmap with the two well-known sectors. -/
theorem taken_wellKnown : BitMap.Taken (BitMap.new numSectors) [freeMapSector, directorySector]
    (((BitMap.new numSectors).markBit freeMapSector).markBit directorySector) where
  numBits := rfl
  nodup := by decide
  lt := by decide
  clear := by simp
  marked := fun i => by
    rw [BitMap.markBit_marked, BitMap.markBit_marked]
    by_cases hdir : i = directorySector
    · simp [hdir]
    · by_cases hmap : i = freeMapSector
      · simp [hmap]
      · simp [hdir, hmap]
  least := by decide

theorem numClear_wellKnown : (((BitMap.new numSectors).markBit freeMapSector).markBit
    directorySector).numClear = 1022 := by
  decide +kernel

/-- The bits taken while formatting: those of the headers, of the bitmap file and of the
directory file. -/
structure Formatted (m : BitMap) (mapBits dirBits : List ℕ) (d : Disk) : Prop where
  taken : BitMap.Taken (BitMap.new numSectors)
    (([freeMapSector, directorySector] ++ mapBits) ++ dirBits) m
  mapSectors : (headerAt d freeMapSector).sectors = mapBits.map Nat.cast
  dirSectors : (headerAt d directorySector).sectors = dirBits.map Nat.cast
  marked : ∀ i < numSectors, (freeMapOn d).marked i = m.marked i
  unused : ∀ i < numDirEntries, (directoryOn d).inUse i = false

/-- Only the two files own sectors. -/
theorem Formatted.consistent {m : BitMap} {mapBits dirBits : List ℕ} {d : Disk}
    (h : Formatted m mapBits dirBits d) : Consistent d := by
  have hsectors : sectorsOf d = Function.update (Function.update (Function.update (fun _ => [])
      .wellKnown ([freeMapSector, directorySector].map Nat.cast)) .freeMap (mapBits.map Nat.cast))
      .directory (dirBits.map Nat.cast) := by
    funext o
    cases o with
    | wellKnown => rfl
    | freeMap => exact h.mapSectors
    | directory => exact h.dirSectors
    | entry i =>
      refine if_neg fun hand => ?_
      rw [h.unused i hand.1] at hand
      cases hand.2
  have hoccurs : ∀ s : ℤ, Occurs (sectorsOf d) s ↔
      s ∈ (([freeMapSector, directorySector] ++ mapBits) ++ dirBits).map Nat.cast := by
    intro s
    rw [hsectors, occurs_update_nil rfl, occurs_update_nil rfl, occurs_update_nil rfl,
      List.map_append, List.map_append, List.mem_append, List.mem_append]
    simp only [Occurs, List.not_mem_nil, exists_false, or_false]
    rw [or_comm, or_comm (a := s ∈ mapBits.map Nat.cast)]
  refine ⟨?_, fun s hs => ?_, fun s hs => ?_⟩
  · -- the lists are parts of a list without duplicates
    have hnodup := h.taken.nodup.map cast_injective
    rw [List.map_append, List.map_append, List.nodup_append'] at hnodup
    obtain ⟨hnodup, hdir, hdirApart⟩ := hnodup
    obtain ⟨hwell, hmap, hmapApart⟩ := List.nodup_append'.mp hnodup
    have hnone : Apart (fun _ : Owner => ([] : List ℤ)) :=
      ⟨fun _ => List.nodup_nil, fun ht _ => absurd ht List.not_mem_nil⟩
    rw [hsectors]
    -- the owners get their lists one after the other, each apart from those before it
    refine Apart.update (Apart.update (Apart.update hnone hwell ?_) hmap ?_) hdir ?_
    · intro s _
      refine .inr ?_
      rintro ⟨_, hs⟩
      exact absurd hs List.not_mem_nil
    · intro s hs
      rw [occurs_update_nil rfl]
      refine .inr fun hwell => ?_
      rcases hwell with hwell | ⟨_, hnil⟩
      · exact hmapApart hwell hs
      · cases hnil
    · intro s hs
      rw [occurs_update_nil rfl, occurs_update_nil rfl]
      refine .inr fun hold => hdirApart (List.mem_append.mpr ?_) hs
      rcases hold with hmap | hwell | ⟨_, hnil⟩
      · exact .inr hmap
      · exact .inl hwell
      · cases hnil
  · obtain ⟨n, hn, rfl⟩ := List.mem_map.mp ((hoccurs s).mp hs)
    have := h.taken.lt n hn
    rw [BitMap.new_numBits] at this
    omega
  · rw [h.marked s hs, h.taken.marked, hoccurs, List.mem_map_of_injective cast_injective]
    simp

/-- A header that was written to a sector, with the bits it took. -/
theorem headerAt_sound {d : Disk} {hdr : FileHeader} {s : ℕ} {bits : List ℕ}
    (hbytes : Bytes.EqUpTo sectorSize (d s) hdr.bytes) (size : ℤ) (hmin : -2 ^ 31 ≤ size)
    (hmax : size ≤ maxFileSize) (hpos : 0 ≤ divRoundUp size sectorSize)
    (hsize : hdr.numBytes = size) (hnum : hdr.numSectors = divRoundUp size sectorSize)
    (hsectors : hdr.sectors = bits.map Nat.cast) (hnodup : bits.Nodup)
    (hlt : ∀ b ∈ bits, b < numSectors) :
    (headerAt d s).Sound ∧ (headerAt d s).sectors = bits.map Nat.cast ∧
      (headerAt d s).numBytes = size ∧ (headerAt d s).numSectors = divRoundUp size sectorSize := by
  obtain ⟨-, hdirect, hroom⟩ := FileHeader.divRoundUp_le hmin hmax
  obtain ⟨hsize', hnum', -⟩ := headerAt_eq hbytes
  have hsectors' := (headerAt_sectors hbytes (by rw [hnum]; exact hdirect)).trans hsectors
  rw [hsize] at hsize'
  rw [hnum] at hnum'
  refine ⟨sound_of_sectors (by rw [hnum']; exact hpos) ⟨?_, ?_⟩ ?_ fun b hb => ?_, hsectors', hsize',
    hnum'⟩
  · rw [hnum']
    exact hdirect
  · rw [hnum', hsize']
    exact hroom
  · rw [hsectors']
    exact hnodup.map cast_injective
  · rw [hsectors'] at hb
    obtain ⟨n, hn, rfl⟩ := List.mem_map.mp hb
    have := hlt n hn
    omega

/-- `format` has room for the two files. -/
theorem format_allocate (heap : ℕ → Bytes) : ∃ mapHdr dirHdr m₁ m₂ mapBits dirBits,
    FileHeader.allocate ⟨heap 1⟩ (((BitMap.new numSectors).markBit freeMapSector).markBit
      directorySector) freeMapFileSize = .ok (true, mapHdr, m₁) ∧
    FileHeader.allocate ⟨heap 2⟩ m₁ directoryFileSize = .ok (true, dirHdr, m₂) ∧
    BitMap.Taken (BitMap.new numSectors)
      (([freeMapSector, directorySector] ++ mapBits) ++ dirBits) m₂ ∧
    mapHdr.numBytes = freeMapFileSize ∧ mapHdr.numSectors = 1 ∧
    mapHdr.sectors = mapBits.map Nat.cast ∧ dirHdr.numBytes = directoryFileSize ∧
    dirHdr.numSectors = 2 ∧ dirHdr.sectors = dirBits.map Nat.cast := by
  have hmapSize : divRoundUp freeMapFileSize sectorSize = 1 := rfl
  have hdirSize : divRoundUp directoryFileSize sectorSize = 2 := rfl
  obtain ⟨mapHdr, m₁, mapBits, halloc₁, htaken₁, hbytes₁, hnum₁, hsectors₁⟩ :=
    FileHeader.allocate_of_le ⟨heap 1⟩ (m := ((BitMap.new numSectors).markBit freeMapSector).markBit
      directorySector) freeMapFileSize (by decide) (by decide) (by decide)
      (by rw [numClear_wellKnown, hmapSize]; omega)
  have hclear : m₁.numClear = 1021 := by
    have hcount := htaken₁.numClear
    have hlength := FileHeader.length_of_sectors hsectors₁
    rw [numClear_wellKnown] at hcount
    rw [hnum₁, hmapSize] at hlength
    omega
  obtain ⟨dirHdr, m₂, dirBits, halloc₂, htaken₂, hbytes₂, hnum₂, hsectors₂⟩ :=
    FileHeader.allocate_of_le ⟨heap 2⟩ (m := m₁) directoryFileSize (by decide) (by decide)
      (by rw [htaken₁.numBits]; decide) (by rw [hclear, hdirSize]; omega)
  exact ⟨mapHdr, dirHdr, m₁, m₂, mapBits, dirBits, halloc₁, halloc₂,
    (taken_wellKnown.append htaken₁).append htaken₂, hbytes₁, hnum₁, hsectors₁, hbytes₂, hnum₂,
    hsectors₂⟩

theorem writeHeader_ok (hdr : FileHeader) (d : Disk) {s : ℕ} (hs : s < numSectors) :
    ∃ d', hdr.writeBack d s = .ok d' ∧ Bytes.EqUpTo sectorSize (d' s) hdr.bytes ∧
      ∀ s', s' ≠ s → d' s' = d s' := by
  refine ⟨_, Disk.writeSector_natCast d hs hdr.bytes, fun k hk => ?_, fun s' hs' => ?_⟩
  · rw [Function.update_self, Bytes.blit_of_mem (by omega) (by omega), Nat.sub_zero]
  · exact Function.update_of_ne hs' _ _

theorem openFile_ok (d : Disk) {s : ℕ} (hs : s < numSectors) :
    OpenFile.new d s = .ok ⟨headerAt d s, 0⟩ := by
  rw [OpenFile.new, FileHeader.fetchFrom, Disk.readSector_natCast d hs]
  rfl

/-- Formatting a disk gives a file system that has the invariant. -/
theorem format_ok (d : Disk) (heap : ℕ → Bytes) : ∃ fs, format d heap = .ok fs ∧ Inv fs := by
  obtain ⟨mapHdr, dirHdr, m₁, m, mapBits, dirBits, hmapAlloc, hdirAlloc, htaken, hmapBytes, hmapNum,
    hmapSectors, hdirBytes, hdirNum, hdirSectors⟩ := format_allocate heap
  obtain ⟨hnodup, hdirNodup, hdirApart⟩ := List.nodup_append'.mp htaken.nodup
  obtain ⟨-, hmapNodup, hmapApart⟩ := List.nodup_append'.mp hnodup
  -- the headers are written
  obtain ⟨d₁, hwrite₁, hheader₁, -⟩ := writeHeader_ok mapHdr d (s := freeMapSector) (by decide)
  obtain ⟨d₂, hwrite₂, hheader₂, hothers₂⟩ := writeHeader_ok dirHdr d₁ (s := directorySector)
    (by decide)
  rw [← hothers₂ freeMapSector (by decide)] at hheader₁
  obtain ⟨hmapSound, hmapSectors', hmapBytes', hmapNum'⟩ := headerAt_sound hheader₁
    freeMapFileSize (by decide) (by decide) (by decide) hmapBytes hmapNum hmapSectors
    hmapNodup fun b hb => htaken.lt b (by simp [hb])
  obtain ⟨hdirSound, hdirSectors', hdirBytes', hdirNum'⟩ := headerAt_sound hheader₂
    directoryFileSize (by decide) (by decide) (by decide) hdirBytes hdirNum hdirSectors
    hdirNodup fun b hb => htaken.lt b (by simp [hb])
  -- then the two files
  have hfiles : Files ⟨d₂, ⟨headerAt d₂ freeMapSector, 0⟩, ⟨headerAt d₂ directorySector, 0⟩⟩ := by
    refine ⟨hmapSound, hdirSound, hmapBytes', hdirBytes', fun s hmap hdir => ?_⟩
    rw [hmapSectors'] at hmap
    rw [hdirSectors'] at hdir
    obtain ⟨n, hn, rfl⟩ := List.mem_map.mp hmap
    obtain ⟨n', hn', heq⟩ := List.mem_map.mp hdir
    rw [Int.ofNat.inj heq] at hn'
    exact hdirApart (List.mem_append_right _ hn) hn'
  obtain ⟨d₃, d₄, hmap, hdir, hwritten⟩ := hfiles.writeBoth' (m := m)
    (Directory.new_tableSize numDirEntries (heap 0)) htaken.numBits d₂ (heap 3) (heap 4)
  -- the contents of the two files are in other sectors than their headers
  have hkept : ∀ s ∈ [freeMapSector, directorySector], d₄ s = d₂ s := by
    intro s hs
    refine hwritten.others s ?_ ?_
    · rw [hmapSectors', List.mem_map_of_injective cast_injective]
      exact fun hs' => hmapApart hs hs'
    · rw [hdirSectors', List.mem_map_of_injective cast_injective]
      exact fun hs' => hdirApart (List.mem_append_left _ hs) hs'
  have hmapHdr : headerAt d₄ freeMapSector = headerAt d₂ freeMapSector := by
    rw [headerAt, headerAt, Int.toNat_natCast, hkept _ (by simp)]
  have hdirHdr : headerAt d₄ directorySector = headerAt d₂ directorySector := by
    rw [headerAt, headerAt, Int.toNat_natCast, hkept _ (by simp)]
  -- the directory that was written is the new one, with no entry in use
  have hunused : ∀ i < numDirEntries, (directoryOn d₄).inUse i = false := by
    intro i hi
    rw [← Directory.new_inUse (heap 0) hi]
    refine Directory.inUse_congr (fun k hk => ?_) hi
    rw [directoryOn, hdirHdr]
    exact hwritten.directory k hk
  refine ⟨⟨d₄, ⟨headerAt d₂ freeMapSector, 0⟩, ⟨headerAt d₂ directorySector, 0⟩⟩, ?_, ?_⟩
  · unfold format
    dsimp only
    rw [hmapAlloc, ok_bind]
    dsimp only
    rw [if_neg (by simp), hdirAlloc, ok_bind]
    dsimp only
    rw [if_neg (by simp), hwrite₁, ok_bind, hwrite₂, ok_bind, openFile_ok d₂ (by decide), ok_bind,
      openFile_ok d₂ (by decide), ok_bind, hmap, ok_bind, hdir, ok_bind]
    rfl
  · refine ⟨(show Formatted m mapBits dirBits _ from ⟨htaken, ?_, ?_, fun i hi => ?_,
      hunused⟩).consistent, hmapHdr.symm, hdirHdr.symm, hmapBytes', hmapNum', hdirBytes', hdirNum',
      fun i hi huse => ?_⟩
    · rw [hmapHdr]
      exact hmapSectors'
    · rw [hdirHdr]
      exact hdirSectors'
    · rw [freeMapOn, hmapHdr]
      exact hwritten.freeMap i hi
    · rw [hunused i hi] at huse
      cases huse

/-! ## Runs -/

/-- `Create` is called with a size that a file can have. -/
def Event.Documented : Event → Prop
  | .create _ _ initialSize => initialSize.toInt ≤ maxFileSize
  | .remove _ _ => True

theorem Inv.step {fs : FileSystem} {e : Event} (h : Inv fs) (he : e.Documented) :
    ∃ fs', FileSystem.step fs e = .ok fs' ∧ Inv fs' := by
  cases e with
  | create heap name initialSize =>
    have hmin : -2 ^ 31 ≤ initialSize.toInt := Int32.le_toInt initialSize
    rcases h.create_ok heap name hmin he with
      hfail | ⟨t, m, i, b, bits, hdr, d', hcreation, hcreate⟩
    · exact ⟨fs, by rw [FileSystem.step, hfail]; rfl, h⟩
    · exact ⟨_, by rw [FileSystem.step, hcreate]; rfl, hcreation.inv h hmin he⟩
  | remove heap name =>
    rcases h.remove_ok heap name with hfail | ⟨t, m, i, d', hremoval, hremove⟩
    · exact ⟨fs, by rw [FileSystem.step, hfail]; rfl, h⟩
    · exact ⟨_, by rw [FileSystem.step, hremove]; rfl, hremoval.inv h⟩

/-- From a formatted disk every sequence of calls succeeds, no `ASSERT` failing, and the sectors
marked in the bitmap are those that are owned, each once. -/
theorem run_undamaged (d : Disk) (heap : ℕ → Bytes) (es : List Event)
    (hes : ∀ e ∈ es, e.Documented) :
    ∃ fs fs', format d heap = .ok fs ∧ run FileSystem.step fs es = .ok fs' ∧ Consistent fs'.disk := by
  obtain ⟨fs, hformat, hinv⟩ := format_ok d heap
  have halong : Along FileSystem.step (fun _ e => e.Documented) fs es := Along.of_forall hes
  obtain ⟨fs', hrun, hinv'⟩ := Along.total (I := Inv) (fun s e h he => h.step he) hinv halong
  exact ⟨fs, fs', hformat, hrun, hinv'.consistent⟩

/-- The file is one sector of header and three of data, which `Remove` frees. -/
theorem run_undamaged_create_remove : ∃ fs fs', format (fun _ _ => 0) (fun _ _ => 0) = .ok fs ∧
    run FileSystem.step fs [.create (fun _ _ => 0) (fun k => if k = 0 then 102 else 0) 300,
      .remove (fun _ _ => 0) (fun k => if k = 0 then 102 else 0)] = .ok fs' ∧
    Consistent fs'.disk :=
  run_undamaged _ _ _ (by
    intro e he
    simp only [List.mem_cons, List.not_mem_nil, or_false] at he
    rcases he with rfl | rfl
    · show Int32.toInt 300 ≤ (maxFileSize : ℤ)
      decide
    · trivial)

end FileSystem
end NachOS
