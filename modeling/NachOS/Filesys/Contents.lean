import NachOS.Filesys.Consistency

/-!
# What is in the files

A file system is a map from names to byte strings: reading a file chunk by chunk gives the
string of its name, and writing one changes no other. The loops are those of `fstest.cc`.
-/

namespace NachOS

open PartialRun

/-! ## The loops -/

namespace OpenFile

/-- The first bytes of a buffer. -/
def taken (n : ℤ) (bytes : Bytes) : List UInt8 := (List.range n.toNat).map bytes

/-- The loop of `Print`: calls of `Read`, at most `fuel` of them, until one returns `0`. The
bytes read, and whether a call did return `0`. -/
def readChunks (f : OpenFile) (d : Disk) (numBytes : ℤ) :
    ℕ → Except Fault (List UInt8 × Bool)
  | 0 => .ok ([], false)
  | fuel + 1 => do
    let (amountRead, bytes, f) ← f.read d numBytes
    if amountRead > 0 then
      let (rest, stopped) ← readChunks f d numBytes fuel
      return (taken amountRead bytes ++ rest, stopped)
    else return ([], true)

/-- A buffer with the bytes of a list. -/
def bufferOf (chunk : List UInt8) : Bytes := fun k => chunk.getD k 0

/-- The loop of `Copy`: calls of `Write`. Each chunk comes with what the memory has at `new`. -/
def writeChunks (f : OpenFile) (d : Disk) (chunks : List (Bytes × List UInt8)) :
    Except Fault (OpenFile × Disk) :=
  chunks.foldlM (fun (f, d) (heap, chunk) => do
    let (_, f, d) ← f.write d heap (bufferOf chunk) chunk.length
    return (f, d)) (f, d)

end OpenFile

namespace FileSystem

/-- `Print`: what is read from the file, if there is one. -/
def print (fs : FileSystem) (heap name : Bytes) (numBytes : ℤ) (fuel : ℕ) :
    Except Fault (Option (List UInt8 × Bool)) := do
  match ← fs.openFile heap name with
  | none => return none
  | some f => some <$> f.readChunks fs.disk numBytes fuel

end FileSystem

/-! ## Reading chunk by chunk -/

namespace FileHeader

/-- The byte string of a file. -/
def data (h : FileHeader) (d : Disk) : List UInt8 := (List.range h.numBytes.toNat).map (h.contents d)

theorem data_congr {h : FileHeader} {d d' : Disk}
    (hbytes : ∀ k : ℕ, k < h.numBytes → h.contents d' k = h.contents d k) :
    h.data d' = h.data d := by
  unfold data
  refine List.map_congr_left fun k hk => hbytes k ?_
  rw [List.mem_range] at hk
  omega

end FileHeader

namespace OpenFile

variable {f : OpenFile} {d : Disk}

@[simp] theorem seek_hdr (f : OpenFile) (position : ℤ) : (f.seek position).hdr = f.hdr := rfl

/-- Nothing is read at the end of the file. -/
theorem read_end {p : ℕ} (hpos : f.seekPosition = p) (hend : f.hdr.numBytes ≤ p) (n : ℤ) :
    ∃ bytes, f.read d n = .ok (0, bytes, f.seek (toInt p)) := by
  refine ⟨fun _ => 0, ?_⟩
  rw [read, readAt, if_pos (.inr (by rw [hpos]; exact hend)), ok_bind, hpos]
  simp only [Int.add_zero]
  rfl

theorem read_ok (hs : f.hdr.Sound) {n p : ℕ} (hn : 0 < n) (hpos : f.seekPosition = p)
    (hlt : p < f.hdr.numBytes) (hsum : p + n < 2 ^ 31) :
    ∃ bytes, f.read d n = .ok (((min n (f.hdr.numBytes.toNat - p) : ℕ) : ℤ), bytes,
        f.seek ((p + min n (f.hdr.numBytes.toNat - p) : ℕ) : ℤ)) ∧
      ∀ k < min n (f.hdr.numBytes.toNat - p), bytes k = f.hdr.contents d (p + k) := by
  obtain ⟨bytes, hread, hbytes⟩ := readAt_ok (d := d) hs hn hlt hsum
  have hseek : toInt ((p : ℤ) + (min n (f.hdr.numBytes.toNat - p) : ℕ)) =
      ((p + min n (f.hdr.numBytes.toNat - p) : ℕ) : ℤ) := by
    rw [← Int.natCast_add]
    exact toInt_of_range (by omega) (by omega)
  refine ⟨bytes, ?_, hbytes⟩
  rw [read, hpos, hread, ok_bind]
  dsimp only
  rw [hseek]
  rfl

/-- What one call reads is a part of the file. -/
theorem taken_eq {bytes : Bytes} {p m : ℕ} (hm : m ≤ f.hdr.numBytes.toNat - p)
    (hbytes : ∀ k < m, bytes k = f.hdr.contents d (p + k)) :
    taken m bytes = ((f.hdr.data d).drop p).take m := by
  unfold taken FileHeader.data
  apply List.ext_getElem
  · simp only [List.length_map, List.length_range, List.length_take, List.length_drop]
    omega
  · intro k hk _
    simp only [List.length_map, List.length_range, Int.toNat_natCast] at hk
    simp only [List.getElem_map, List.getElem_range, List.getElem_take, List.getElem_drop]
    exact hbytes k hk

/-- Reading from position `p` on gives the rest of the file. -/
theorem readChunks_ok {n : ℕ} (hn : 0 < n) {fuel : ℕ} : ∀ {f : OpenFile} {p : ℕ},
    (0 < f.hdr.numBytes → f.hdr.Sound) → f.seekPosition = p → p ≤ f.hdr.numBytes.toNat →
    (p < f.hdr.numBytes → p + n < 2 ^ 31) → f.hdr.numBytes.toNat - p < fuel →
    f.readChunks d n fuel = .ok ((f.hdr.data d).drop p, true) := by
  induction fuel with
  | zero =>
    intro f p hs hpos hle hsum hfuel
    omega
  | succ fuel ih =>
    intro f p hs hpos hle hsum hfuel
    by_cases hlt : p < f.hdr.numBytes
    · have hs' := hs (by omega)
      obtain ⟨bytes, hread, hbytes⟩ := read_ok (d := d) hs' hn hpos hlt (hsum hlt)
      have hsize := hs'.numBytes_le
      have hdirect := hs'.numSectors_le
      rw [sectorSize_eq] at hsize
      rw [numDirect_eq] at hdirect
      generalize hm : min n (f.hdr.numBytes.toNat - p) = m at hread hbytes
      have hrest := ih (f := f.seek ((p + m : ℕ) : ℤ)) (p := p + m) hs rfl
        (by show p + m ≤ f.hdr.numBytes.toNat; omega) (fun hlt' => by
          change ((p + m : ℕ) : ℤ) < f.hdr.numBytes at hlt'
          omega) (by show f.hdr.numBytes.toNat - (p + m) < fuel; omega)
      rw [readChunks, hread, ok_bind]
      dsimp only
      rw [if_pos (by omega), hrest, ok_bind, taken_eq (by omega) hbytes]
      show Except.ok (((f.hdr.data d).drop p).take m ++ (f.hdr.data d).drop (p + m), true) = _
      rw [← List.drop_drop, List.take_append_drop]
    · obtain ⟨bytes, hread⟩ := read_end (d := d) hpos (by omega) n
      have hnil : (f.hdr.data d).drop p = [] := by
        rw [List.drop_eq_nil_iff, FileHeader.data, List.length_map, List.length_range]
        omega
      rw [readChunks, hread, ok_bind, hnil]
      rfl

/-! ## Writing chunk by chunk -/

theorem write_ok (hs : f.hdr.Sound) {n p : ℕ} (hn : 0 < n) (hpos : f.seekPosition = p)
    (hle : p + n ≤ f.hdr.numBytes.toNat) (heap source : Bytes) :
    ∃ d', f.write d heap source n = .ok ((n : ℤ), f.seek ((p + n : ℕ) : ℤ), d') ∧
      (∀ k : ℕ, k < f.hdr.numBytes → f.hdr.contents d' k =
        if p ≤ k ∧ k < p + n then source (k - p) else f.hdr.contents d k) ∧
      ∀ s : ℕ, (s : ℤ) ∉ f.hdr.sectors → d' s = d s := by
  have hsize := hs.numBytes_le
  have hdirect := hs.numSectors_le
  rw [sectorSize_eq] at hsize
  rw [numDirect_eq] at hdirect
  obtain ⟨d', hwrite, hbytes, hothers⟩ := writeAt_ok (d := d) hs (n := n) (p := p) hn (by omega)
    (by omega) heap source
  have hmin : min n (f.hdr.numBytes.toNat - p) = n := by omega
  have hseek : toInt ((p : ℤ) + (n : ℕ)) = ((p + n : ℕ) : ℤ) := by
    rw [← Int.natCast_add]
    exact toInt_of_range (by omega) (by omega)
  rw [hmin] at hwrite hbytes
  refine ⟨d', ?_, hbytes, fun s hs' => hothers s fun i hi _ _ heq => hs' ?_⟩
  · rw [write, hpos, hwrite, ok_bind]
    dsimp only
    rw [hseek]
    rfl
  · rw [heq, ← hs.dataSectors_eq hi]
    exact FileHeader.mem_sectors.mpr ⟨i, hi, rfl⟩

theorem bufferOf_append (a b : List UInt8) (k : ℕ) :
    bufferOf (a ++ b) k = if k < a.length then bufferOf a k else bufferOf b (k - a.length) := by
  unfold bufferOf
  by_cases hk : k < a.length
  · rw [if_pos hk, List.getD_append a b 0 k hk]
  · rw [if_neg hk, List.getD_append_right a b 0 k (by omega)]

/-- Writing chunks from position `p` on puts them one after the other. -/
theorem writeChunks_ok {chunks : List (Bytes × List UInt8)} : ∀ {f : OpenFile} {d : Disk} {p : ℕ},
    f.hdr.Sound → f.seekPosition = p → (∀ c ∈ chunks, c.2 ≠ []) →
    p + ((chunks.map Prod.snd).flatten).length ≤ f.hdr.numBytes.toNat →
    ∃ f' d', f.writeChunks d chunks = .ok (f', d') ∧
      (∀ k : ℕ, k < f.hdr.numBytes → f.hdr.contents d' k =
        if p ≤ k ∧ k < p + ((chunks.map Prod.snd).flatten).length then
          bufferOf (chunks.map Prod.snd).flatten (k - p)
        else f.hdr.contents d k) ∧
      ∀ s : ℕ, (s : ℤ) ∉ f.hdr.sectors → d' s = d s := by
  induction chunks with
  | nil =>
    intro f d p hs hpos hne hle
    refine ⟨f, d, rfl, fun k hk => ?_, fun s _ => rfl⟩
    rw [if_neg]
    simp
  | cons c chunks ih =>
    intro f d p hs hpos hne hle
    obtain ⟨heap, chunk⟩ := c
    have hchunk : 0 < chunk.length := List.length_pos_iff.mpr (hne _ List.mem_cons_self)
    simp only [List.map_cons, List.flatten_cons, List.length_append] at hle ⊢
    obtain ⟨d₁, hwrite, hbytes₁, hothers₁⟩ := write_ok (d := d) hs (n := chunk.length) (p := p)
      hchunk hpos (by omega) heap (bufferOf chunk)
    obtain ⟨f', d', hrest, hbytes, hothers⟩ := ih (f := f.seek ((p + chunk.length : ℕ) : ℤ))
      (d := d₁) (p := p + chunk.length) hs rfl (fun c hc => hne c (List.mem_cons_of_mem _ hc))
      (by show _ ≤ f.hdr.numBytes.toNat; omega)
    refine ⟨f', d', ?_, fun k hk => ?_, fun s hs' => ?_⟩
    · rw [writeChunks, List.foldlM_cons]
      dsimp only
      rw [hwrite, ok_bind]
      exact hrest
    · have hk' := hbytes k hk
      rw [seek_hdr] at hk'
      rw [hk', hbytes₁ k hk, bufferOf_append]
      -- in a later chunk, in this one, or elsewhere
      by_cases hlater : p + chunk.length ≤ k ∧
          k < p + chunk.length + ((chunks.map Prod.snd).flatten).length
      · rw [if_pos hlater, if_pos (by omega), if_neg (by omega), Nat.sub_sub]
      · rw [if_neg hlater]
        by_cases hthis : p ≤ k ∧ k < p + chunk.length
        · rw [if_pos hthis, if_pos (by omega), if_pos (by omega)]
        · rw [if_neg hthis, if_neg (by omega)]
    · rw [hothers s hs', hothers₁ s hs']

end OpenFile

/-! ## Files by name -/

namespace FileSystem

/-- The byte string of a name. -/
def lookup (d : Disk) (name : Bytes) : Option (List UInt8) :=
  ((directoryOn d).findIndex name).map fun i => (headerAt d ((directoryOn d).sector i)).data d

section

variable {fs : FileSystem} {d' : Disk} {i : ℕ}

theorem sectorsOf_inUse {d : Disk} (hi : i < numDirEntries) (huse : (directoryOn d).inUse i = true) :
    sectorsOf d (.entry i) =
      (directoryOn d).sector i :: (headerAt d ((directoryOn d).sector i)).sectors :=
  if_pos ⟨hi, huse⟩

/-- The header of a file that is not empty. -/
theorem Inv.entrySound (h : Inv fs) (hi : i < numDirEntries)
    (huse : (directoryOn fs.disk).inUse i = true)
    (hpos : 0 < (headerAt fs.disk ((directoryOn fs.disk).sector i)).numBytes) :
    (headerAt fs.disk ((directoryOn fs.disk).sector i)).Sound := by
  have hfitting := h.fitting i hi huse
  have hbytes := hfitting.2
  rw [sectorSize_eq] at hbytes
  have hlist := sectorsOf_inUse hi huse
  have hnodup := h.consistent.apart.nodup (.entry i)
  rw [hlist] at hnodup
  refine sound_of_sectors (by omega) hfitting hnodup.of_cons fun s hs => ?_
  exact h.consistent.inRange s ⟨.entry i, by rw [hlist]; exact List.mem_cons_of_mem _ hs⟩

theorem Inv.sector_range (h : Inv fs) (hi : i < numDirEntries)
    (huse : (directoryOn fs.disk).inUse i = true) :
    ∃ s : ℕ, (directoryOn fs.disk).sector i = s ∧ s < numSectors := by
  have hrange := h.consistent.inRange ((directoryOn fs.disk).sector i)
    ⟨.entry i, by rw [sectorsOf_inUse hi huse]; exact List.mem_cons_self⟩
  obtain ⟨s, hs⟩ := Int.eq_ofNat_of_zero_le hrange.1
  exact ⟨s, hs, by omega⟩

/-- `Open` finds the header of the entry with the name. -/
theorem Inv.open_ok (h : Inv fs) (heap name : Bytes) :
    fs.openFile heap name = .ok (((directoryOn fs.disk).findIndex name).map fun i =>
      ⟨headerAt fs.disk ((directoryOn fs.disk).sector i), 0⟩) := by
  obtain ⟨t, hfetch, hsize, htable⟩ := h.fetchDirectory heap
  have htable' : Bytes.EqUpTo (t.tableSize * directoryEntrySize) t.table
      (directoryOn fs.disk).table := by
    rw [hsize]
    exact htable
  have hfind : t.find name = (directoryOn fs.disk).find name :=
    Directory.find_congr_table hsize htable' name
  rw [openFile, hfetch, ok_bind]
  dsimp only
  rw [hfind, Directory.find]
  cases hindex : (directoryOn fs.disk).findIndex name with
  | none => rfl
  | some i =>
    obtain ⟨hi, huse⟩ := Directory.findIndex_some hindex
    obtain ⟨s, hs, hlt⟩ := h.sector_range hi huse
    have hopen : ∀ x : ℤ, x = s → (if x ≥ 0 then some <$> OpenFile.new fs.disk x else pure none) =
        Except.ok (some ⟨headerAt fs.disk x, 0⟩) := by
      rintro x rfl
      rw [if_pos (by omega), openFile_ok fs.disk hlt]
      rfl
    exact hopen _ hs

/-- Reading a file in chunks of any size gives its byte string. -/
theorem Inv.print_ok (h : Inv fs) (heap name : Bytes) {n : ℤ} (hn : 0 < n) (hmax : n < 2 ^ 31)
    {fuel : ℕ} (hfuel : maxFileSize < fuel) :
    fs.print heap name n fuel = .ok ((lookup fs.disk name).map fun bytes => (bytes, true)) := by
  rw [print, h.open_ok, ok_bind, lookup]
  cases hindex : (directoryOn fs.disk).findIndex name with
  | none => rfl
  | some i =>
    obtain ⟨hi, huse⟩ := Directory.findIndex_some hindex
    have hfitting := h.fitting i hi huse
    have hbytes := hfitting.2
    have hdirect := hfitting.1
    rw [sectorSize_eq] at hbytes
    rw [numDirect_eq] at hdirect
    rw [maxFileSize_eq] at hfuel
    obtain ⟨n, rfl⟩ := Int.eq_ofNat_of_zero_le hn.le
    dsimp only [Option.map_some]
    rw [OpenFile.readChunks_ok (p := 0) (by omega) (h.entrySound hi huse) rfl (by omega)
      (fun _ => by omega) (by dsimp only; omega)]
    rfl

/-! ## After Create -/

section

variable {name name' : Bytes} {size : ℤ} {t : Directory} {m : BitMap} {b : ℕ} {bits : List ℕ}
  {hdr : FileHeader}

/-- The names on the disk after a `Create`. -/
theorem Creation.names (h : Inv fs) (hc : Creation fs name size t m i b bits hdr d') {j : ℕ}
    (hj : j < numDirEntries) (x : Bytes) :
    strncmp ((directoryOn d').name j) x fileNameMaxLen =
      if j = i then strncmp name x fileNameMaxLen
      else strncmp ((directoryOn fs.disk).name j) x fileNameMaxLen := by
  have htable : Bytes.EqUpTo (t.tableSize * directoryEntrySize) t.table
      (directoryOn fs.disk).table := by
    rw [hc.tableSize]
    exact hc.table
  have hwritten := Directory.name_congr (t := directoryOn d') (i := j)
    (h.table_written (hc.old h) hc.written) hj
  rw [strncmp_congr (hwritten.trans (Directory.setEntry_name t i j name b))]
  by_cases hji : j = i
  · rw [if_pos hji, if_pos hji, strncmp_strncpy]
  · rw [if_neg hji, if_neg hji]
    exact strncmp_congr (Directory.name_congr htable (by rw [hc.tableSize]; exact hj)) x

/-- No entry had the new name. -/
theorem Creation.absent' (hc : Creation fs name size t m i b bits hdr d') :
    (directoryOn fs.disk).findIndex name = none := by
  rw [← hc.absent]
  refine (Directory.findIndex_congr_table hc.tableSize ?_ name).symm
  rw [hc.tableSize]
  exact hc.table

/-- The new name is found at its entry. -/
theorem Creation.findIndex_self (h : Inv fs) (hc : Creation fs name size t m i b bits hdr d') :
    (directoryOn d').findIndex name = some i := by
  obtain ⟨hi, -⟩ := hc.sectorsOf_entry
  have habsent := hc.absent'
  unfold Directory.findIndex at habsent ⊢
  rw [List.find?_eq_none] at habsent
  rw [List.find?_range_eq_some]
  refine ⟨?_, List.mem_range.mpr hi, fun j hj => ?_⟩
  · rw [(hc.entries h hi).1, hc.names h hi, if_pos rfl, if_pos rfl, strncmp_self]
    rfl
  · have hj' : j < numDirEntries := by omega
    have hnone := habsent j (List.mem_range.mpr hj')
    rw [(hc.entries h hj').1, hc.names h hj', if_neg (by omega), if_neg (by omega)]
    rw [Bool.not_eq_true] at hnone
    rw [hnone]
    rfl

/-- Other names are found where they were. -/
theorem Creation.findIndex_other (h : Inv fs) (hc : Creation fs name size t m i b bits hdr d')
    (hother : strncmp name name' fileNameMaxLen = false) :
    (directoryOn d').findIndex name' = (directoryOn fs.disk).findIndex name' := by
  obtain ⟨hi, hunused⟩ := Directory.firstUnused_some hc.unused
  rw [hc.tableSize] at hi
  unfold Directory.findIndex
  refine List.find?_congr fun j hj => ?_
  have hj' : j < numDirEntries := List.mem_range.mp hj
  rw [(hc.entries h hj').1, hc.names h hj']
  by_cases hji : j = i
  · have hsame : t.inUse i = (directoryOn fs.disk).inUse i :=
      Directory.inUse_congr (by rw [hc.tableSize]; exact hc.table) (by rw [hc.tableSize]; exact hi)
    rw [if_pos hji, if_pos hji, hother, hji, ← hsame, hunused]
    rfl
  · rw [if_neg hji, if_neg hji]

/-- Other names have what they had. -/
theorem Creation.lookup_other (h : Inv fs) (hc : Creation fs name size t m i b bits hdr d')
    (hother : strncmp name name' fileNameMaxLen = false) :
    lookup d' name' = lookup fs.disk name' := by
  rw [lookup, lookup, hc.findIndex_other h hother]
  cases hindex : (directoryOn fs.disk).findIndex name' with
  | none => rw [Option.map_none, Option.map_none]
  | some j =>
    obtain ⟨hj, huse⟩ := Directory.findIndex_some hindex
    have hji : j ≠ i := by
      rintro rfl
      have hempty := hc.sectorsOf_entry.2
      rw [sectorsOf_inUse hj huse] at hempty
      cases hempty
    have hsector := (hc.entries h hj).2
    rw [if_neg hji] at hsector
    rw [Option.map_some, Option.map_some, hsector, h.header_written (hc.old h) hc.written hj huse]
    refine congrArg some (FileHeader.data_congr fun k hk => ?_)
    refine contents_congr (h.entrySound hj huse (by omega)) hk fun s hs => ?_
    refine h.written_eq (hc.old h) hc.written (o := .entry j) ?_ (by simp) (by simp)
    rw [sectorsOf_inUse hj huse]
    exact .tail _ hs

end

/-! ## After Write -/

/-- Only data sectors of entry `i` have changed. -/
structure Overwritten (fs : FileSystem) (i : ℕ) (d' : Disk) : Prop where
  lt : i < numDirEntries
  inUse : (directoryOn fs.disk).inUse i = true
  others : ∀ s : ℕ, (s : ℤ) ∉ (headerAt fs.disk ((directoryOn fs.disk).sector i)).sectors →
    d' s = fs.disk s

/-- Sectors of other owners, and the header of the entry, are as they were. -/
theorem Overwritten.kept (h : Inv fs) (hw : Overwritten fs i d') {o : Owner} {s : ℕ}
    (hs : (s : ℤ) ∈ sectorsOf fs.disk o)
    (ho : o ≠ .entry i ∨ (s : ℤ) = (directoryOn fs.disk).sector i) : d' s = fs.disk s := by
  have hlist := sectorsOf_inUse hw.lt hw.inUse
  refine hw.others s fun hs' => ?_
  rcases ho with ho | ho
  · exact ho (h.consistent.apart.unique hs (q := .entry i) (by rw [hlist]; exact .tail _ hs'))
  · have hnodup := h.consistent.apart.nodup (.entry i)
    rw [hlist] at hnodup
    rw [ho] at hs'
    exact (List.nodup_cons.mp hnodup).1 hs'

theorem Overwritten.header (h : Inv fs) (hw : Overwritten fs i d') {o : Owner} {s : ℤ}
    (hs : s ∈ sectorsOf fs.disk o)
    (ho : o ≠ .entry i ∨ s = (directoryOn fs.disk).sector i) : headerAt d' s = headerAt fs.disk s := by
  obtain ⟨n, rfl⟩ := Int.eq_ofNat_of_zero_le (h.consistent.inRange s ⟨o, hs⟩).1
  rw [headerAt, headerAt, Int.toNat_natCast, hw.kept h hs ho]

theorem Overwritten.headers (h : Inv fs) (hw : Overwritten fs i d') :
    headerAt d' freeMapSector = headerAt fs.disk freeMapSector ∧
      headerAt d' directorySector = headerAt fs.disk directorySector :=
  ⟨hw.header h (o := .wellKnown) List.mem_cons_self (.inl (by simp)),
    hw.header h (o := .wellKnown) (.tail _ List.mem_cons_self) (.inl (by simp))⟩

/-- The directory is as it was. -/
theorem Overwritten.table (h : Inv fs) (hw : Overwritten fs i d') :
    Bytes.EqUpTo (numDirEntries * directoryEntrySize) (directoryOn d').table
      (directoryOn fs.disk).table := by
  intro k hk
  rw [directoryOn, directoryOn, (hw.headers h).2, ← h.directoryFile]
  refine contents_congr h.directorySound ?_ fun s hs => ?_
  · rw [h.directoryBytes]
    exact Int.ofNat_lt.mpr hk
  · rw [h.directoryFile] at hs
    exact hw.kept h (o := .directory) hs (.inl (by simp))

theorem Overwritten.findIndex (h : Inv fs) (hw : Overwritten fs i d') (name : Bytes) :
    (directoryOn d').findIndex name = (directoryOn fs.disk).findIndex name :=
  Directory.findIndex_congr_table
    (show (directoryOn d').tableSize = (directoryOn fs.disk).tableSize from rfl) (hw.table h) name

theorem Overwritten.entry (h : Inv fs) (hw : Overwritten fs i d') {j : ℕ} (hj : j < numDirEntries) :
    (directoryOn d').inUse j = (directoryOn fs.disk).inUse j ∧
      (directoryOn d').sector j = (directoryOn fs.disk).sector j ∧
      ((directoryOn fs.disk).inUse j = true → headerAt d' ((directoryOn fs.disk).sector j) =
        headerAt fs.disk ((directoryOn fs.disk).sector j)) := by
  refine ⟨Directory.inUse_congr (hw.table h) hj, Directory.sector_congr (hw.table h) hj,
    fun huse => hw.header h (o := .entry j) ?_ ?_⟩
  · rw [sectorsOf_inUse hj huse]
    exact List.mem_cons_self
  · by_cases hji : j = i
    · exact .inr (by rw [hji])
    · exact .inl (by simpa using hji)

/-- Writing a file keeps the invariant. -/
theorem Overwritten.inv (h : Inv fs) (hw : Overwritten fs i d') : Inv { fs with disk := d' } := by
  obtain ⟨hmap, hdir⟩ := hw.headers h
  -- the headers are as before, so every file has the sectors it had
  have hsectors : sectorsOf d' = sectorsOf fs.disk := by
    funext o
    cases o with
    | wellKnown => rfl
    | freeMap => simp only [sectorsOf, hmap]
    | directory => simp only [sectorsOf, hdir]
    | entry j =>
      by_cases hj : j < numDirEntries
      · obtain ⟨hinUse, hsector, hheader⟩ := hw.entry h hj
        simp only [sectorsOf, hinUse, hsector]
        by_cases huse : (directoryOn fs.disk).inUse j = true
        · rw [hheader huse]
        · rw [if_neg fun hand => huse hand.2, if_neg fun hand => huse hand.2]
      · simp only [sectorsOf]
        rw [if_neg fun hand => hj hand.1, if_neg fun hand => hj hand.1]
  -- the bytes of the free map are in sectors of its own
  have hmarked : ∀ s < numSectors, (freeMapOn d').marked s = (freeMapOn fs.disk).marked s := by
    intro s hs
    rw [freeMapOn, freeMapOn, hmap, ← h.freeMapFile]
    apply Bytes.bit_congr
    rw [numSectors_eq] at hs
    refine contents_congr h.freeMapSound ?_ fun n hn => ?_
    · rw [h.freeMapBytes, freeMapFileSize_eq]
      omega
    · rw [h.freeMapFile] at hn
      exact hw.kept h (o := .freeMap) hn (.inl (by simp))
  refine ⟨⟨?apart, ?inRange, fun s hs => ?marked⟩, h.freeMapFile.trans hmap.symm,
    h.directoryFile.trans hdir.symm, h.freeMapBytes, h.freeMapSectors, h.directoryBytes,
    h.directorySectors, fun j hj huse => ?fitting⟩
  case apart =>
    show Placement.Apart (sectorsOf d')
    rw [hsectors]
    exact h.consistent.apart
  case inRange =>
    show ∀ s, Placement.Occurs (sectorsOf d') s → _
    rw [hsectors]
    exact h.consistent.inRange
  case marked =>
    show (freeMapOn d').marked s = true ↔ Placement.Occurs (sectorsOf d') (s : ℤ)
    rw [hsectors, hmarked s hs]
    exact h.consistent.marked s hs
  case fitting =>
    obtain ⟨hinUse, hsector, hheader⟩ := hw.entry h hj
    change (directoryOn d').inUse j = true at huse
    show Fitting (headerAt d' ((directoryOn d').sector j))
    rw [hinUse] at huse
    rw [hsector, hheader huse]
    exact h.fitting j hj huse

/-- The names other than that of the file have what they had. -/
theorem Overwritten.lookup_other (h : Inv fs) (hw : Overwritten fs i d') {name : Bytes}
    (hname : (directoryOn fs.disk).findIndex name ≠ some i) :
    lookup d' name = lookup fs.disk name := by
  rw [lookup, lookup, hw.findIndex h]
  cases hindex : (directoryOn fs.disk).findIndex name with
  | none => rw [Option.map_none, Option.map_none]
  | some j =>
    obtain ⟨hj, huse⟩ := Directory.findIndex_some hindex
    obtain ⟨hinUse, hsector, hheader⟩ := hw.entry h hj
    rw [hindex] at hname
    rw [Option.map_some, Option.map_some, hsector, hheader huse]
    refine congrArg some (FileHeader.data_congr fun k hk => ?_)
    refine contents_congr (h.entrySound hj huse (by omega)) hk fun s hs => ?_
    refine hw.kept h (o := .entry j) ?_ (.inl ?_)
    · rw [sectorsOf_inUse hj huse]
      exact .tail _ hs
    · intro heq
      cases heq
      exact hname rfl

/-! ## Copying a file -/

theorem data_eq {h : FileHeader} {d : Disk} {bytes : List UInt8} (hsize : h.numBytes = bytes.length)
    (hbytes : ∀ k < bytes.length, h.contents d k = OpenFile.bufferOf bytes k) :
    h.data d = bytes := by
  unfold FileHeader.data
  apply List.ext_getElem
  · rw [List.length_map, List.length_range, hsize, Int.toNat_natCast]
  · intro k hk hk'
    rw [List.getElem_map, List.getElem_range, hbytes k hk', OpenFile.bufferOf,
      List.getD_eq_getElem bytes 0 hk']

/-- A new file that is written in chunks, whatever their sizes, and read in chunks of any size
gives the bytes that were written, and every other file gives what it gave before. -/
theorem print_copied (h : Inv fs) {heap : ℕ → Bytes} {name : Bytes} {bytes : List UInt8}
    (hsize : bytes.length ≤ maxFileSize) {fs' : FileSystem}
    (hcreate : fs.create heap name bytes.length = .ok (true, fs'))
    {chunks : List (Bytes × List UInt8)} (hcut : (chunks.map Prod.snd).flatten = bytes)
    (hchunks : ∀ c ∈ chunks, c.2 ≠ []) (openHeap : Bytes) :
    ∃ f f' d', fs'.openFile openHeap name = .ok (some f) ∧
      f.writeChunks fs'.disk chunks = .ok (f', d') ∧
      ∀ n : ℤ, 0 < n → n < 2 ^ 31 → ∀ fuel > maxFileSize,
        (∀ printHeap, print { fs' with disk := d' } printHeap name n fuel = .ok (some (bytes, true))) ∧
        ∀ name', strncmp name name' fileNameMaxLen = false → ∀ before after, ∃ read,
          fs.print before name' n fuel = .ok read ∧
          print { fs' with disk := d' } after name' n fuel = .ok read := by
  have hmin : -2 ^ 31 ≤ (bytes.length : ℤ) := by omega
  have hmax : (bytes.length : ℤ) ≤ maxFileSize := by exact_mod_cast hsize
  rcases h.create_ok heap name hmin hmax with hfail | ⟨t, m, i, b, bits, hdr, d₁, hc, hok⟩
  · rw [hfail] at hcreate
    cases hcreate
  rw [hok] at hcreate
  cases hcreate
  have hinv := hc.inv h hmin hmax
  obtain ⟨hi, -⟩ := hc.sectorsOf_entry
  have hentry := hc.entries h hi
  rw [if_pos rfl, if_pos rfl] at hentry
  -- the header of the new file
  obtain ⟨hsound, -, hbytes, -⟩ := headerAt_sound (hc.header h) _ hmin hmax (by
    rw [sectorSize_eq, divRoundUp, Int.tdiv_eq_ediv_of_nonneg (by omega)]
    split
    · omega
    · omega) hc.numBytes hc.numSectors hc.sectors hc.nodup.of_cons
    fun s hs => (hc.clear s (List.mem_cons_of_mem b hs)).1
  have hopen : openFile { fs with disk := d₁ } openHeap name = .ok (some ⟨headerAt d₁ b, 0⟩) := by
    rw [hinv.open_ok, hc.findIndex_self h, Option.map_some, hentry.2]
  obtain ⟨f', d', hwrite, hwritten, hothers⟩ := OpenFile.writeChunks_ok (f := ⟨headerAt d₁ b, 0⟩)
    (d := d₁) (p := 0) hsound rfl hchunks (by dsimp only; rw [hcut, hbytes]; omega)
  rw [hcut, Nat.zero_add] at hwritten
  -- the chunks are written to the sectors of this file only
  have hw : Overwritten { fs with disk := d₁ } i d' := by
    refine ⟨hi, hentry.1, fun s hs => hothers s ?_⟩
    dsimp only at hs ⊢
    rw [hentry.2] at hs
    exact hs
  have hfinal := hw.inv hinv
  have hself : lookup d' name = some bytes := by
    obtain ⟨-, hsector, hheader⟩ := hw.entry hinv hi
    have hfind : (directoryOn d').findIndex name = some i :=
      (hw.findIndex hinv name).trans (hc.findIndex_self h)
    have hheader' := hheader hentry.1
    dsimp only at hsector hheader'
    rw [hentry.2] at hsector hheader'
    rw [lookup, hfind, Option.map_some, hsector, hheader']
    refine congrArg some (data_eq hbytes fun k hk => ?_)
    rw [hwritten k (by dsimp only; omega), if_pos (by omega), Nat.sub_zero]
  refine ⟨_, f', d', hopen, hwrite, fun n hn hn' fuel hfuel =>
    ⟨fun printHeap => ?_, fun name' hother before after => ?_⟩⟩
  · rw [hfinal.print_ok printHeap name hn hn' hfuel]
    dsimp only
    rw [hself, Option.map_some]
  · refine ⟨_, h.print_ok before name' hn hn' hfuel, ?_⟩
    rw [hfinal.print_ok after name' hn hn' hfuel]
    -- another name is found in another entry
    have hother' : (directoryOn d₁).findIndex name' ≠ some i := by
      intro hindex
      have hentry := List.find?_some hindex
      rw [Bool.and_eq_true, hc.names h hi, if_pos rfl, hother] at hentry
      cases hentry.2
    have hwrote : lookup d' name' = lookup d₁ name' := hw.lookup_other hinv hother'
    rw [hwrote, hc.lookup_other h hother]

/-- Three bytes, written as two and one and read two at a time, on a disk just formatted. -/
theorem print_copied_three : ∃ fs fs' f f' d', format (fun _ _ => 0) (fun _ _ => 0) = .ok fs ∧
    fs.create (fun _ _ => 0) (OpenFile.bufferOf [102]) 3 = .ok (true, fs') ∧
    fs'.openFile (fun _ => 0) (OpenFile.bufferOf [102]) = .ok (some f) ∧
    f.writeChunks fs'.disk [(fun _ => 0, [1, 2]), (fun _ => 0, [3])] = .ok (f', d') ∧
    print { fs' with disk := d' } (fun _ => 0) (OpenFile.bufferOf [102]) 2 4000 =
      .ok (some ([1, 2, 3], true)) := by
  obtain ⟨fs, hformat, hinv⟩ := format_ok (fun _ _ => 0) (fun _ _ => 0)
  have hcreated : ∃ fs, format (fun _ _ => 0) (fun _ _ => 0) = .ok fs ∧
      ∃ r, fs.create (fun _ _ => 0) (OpenFile.bufferOf [102]) 3 = .ok r ∧ r.1 = true := by
    decide +kernel
  obtain ⟨fs₀, hformat', ⟨done, fs'⟩, hcreate, rfl⟩ := hcreated
  rw [hformat] at hformat'
  cases hformat'
  obtain ⟨f, f', d', hopen, hwrite, hprint⟩ := @print_copied fs hinv _ _ [1, 2, 3]
    (by decide) fs' hcreate [(fun _ => 0, [1, 2]), (fun _ => 0, [3])] rfl (by decide)
    (fun _ => 0)
  exact ⟨fs, fs', f, f', d', hformat, hcreate, hopen, hwrite,
    (hprint 2 (by decide) (by decide) 4000 (by decide)).1 _⟩

end

end FileSystem
end NachOS
