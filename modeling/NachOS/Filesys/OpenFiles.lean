import NachOS.Filesys.ByteArray
import NachOS.Filesys.CreateRemove
import NachOS.Lib.FileStore
import Mathlib.Algebra.Order.BigOperators.Group.Finset
import Mathlib.Data.List.ReduceOption

/-!
# The file system as a store of files

Programs that create, remove, open, read, write and close files, and a machine that is started
again: what they are told is what a store of byte strings under names would tell them. The sizes
are those that a file can have, positions are not negative, and no file is removed while it is
open; `Remove` does not look for open files, and frees the sectors of one.
-/

namespace NachOS

open PartialRun

/-! ## Sessions -/

namespace FileSystem

/-- `FileSystem::FileSystem` without `format`. -/
def mount (d : Disk) : Except Fault FileSystem := do
  let freeMapFile ← OpenFile.new d freeMapSector
  let directoryFile ← OpenFile.new d directorySector
  return ⟨d, freeMapFile, directoryFile⟩

end FileSystem

/-- An `OpenFile *`, and the name it was opened by. -/
structure Handle where
  name : Bytes
  file : OpenFile

/-- The file system and the open files, in the order in which they were opened; one that was
deleted is `none`. -/
structure Session where
  fs : FileSystem
  handles : List (Option Handle)

namespace Session

inductive Call where
  | create (heap : ℕ → Bytes) (name : Bytes) (initialSize : Int32)
  | remove (heap : ℕ → Bytes) (name : Bytes)
  | openFile (heap name : Bytes)
  | read (h : ℕ) (numBytes : Int32)
  | write (h : ℕ) (heap source : Bytes) (numBytes : Int32)
  | readAt (h : ℕ) (numBytes position : Int32)
  | writeAt (h : ℕ) (heap source : Bytes) (numBytes position : Int32)
  | seek (h : ℕ) (position : Int32)
  | length (h : ℕ)
  | close (h : ℕ)
  /-- Nachos is started again, on the disk that it left. -/
  | restart

def opened (u : Session) (h : ℕ) : Option Handle := (u.handles[h]?).join

/-- The open file of a handle, which has been deleted if it is closed. -/
def handle (u : Session) (h : ℕ) : Except Fault Handle :=
  match u.opened h with
  | some g => .ok g
  | none => .error .deleted

def setFile (u : Session) (h : ℕ) (g : Handle) (f : OpenFile) : Session :=
  { u with handles := u.handles.set h (some { g with file := f }) }

/-- What a call returns, and what it leaves. -/
def answer (u : Session) : Call → Except Fault (FileStore.Reply × Session)
  | .create heap name initialSize => do
    let (success, fs) ← u.fs.create heap name initialSize.toInt
    return (.done success, { u with fs := fs })
  | .remove heap name => do
    let (success, fs) ← u.fs.remove heap name
    return (.done success, { u with fs := fs })
  | .openFile heap name => do
    let found ← u.fs.openFile heap name
    match found with
    | none => return (.handle none, u)
    | some f =>
      return (.handle (some u.handles.length), { u with handles := u.handles ++ [some ⟨name, f⟩] })
  | .read h numBytes => do
    let g ← u.handle h
    let (n, bytes, f) ← g.file.read u.fs.disk numBytes.toInt
    return (.bytes n (OpenFile.taken n bytes), u.setFile h g f)
  | .write h heap source numBytes => do
    let g ← u.handle h
    let (n, f, d) ← g.file.write u.fs.disk heap source numBytes.toInt
    return (.count n, { u.setFile h g f with fs := { u.fs with disk := d } })
  -- no seek position is read or set
  | .readAt h numBytes position => do
    let g ← u.handle h
    let (n, bytes) ← g.file.readAt u.fs.disk numBytes.toInt position.toInt
    return (.bytes n (OpenFile.taken n bytes), u)
  | .writeAt h heap source numBytes position => do
    let g ← u.handle h
    let (n, d) ← g.file.writeAt u.fs.disk heap source numBytes.toInt position.toInt
    return (.count n, { u with fs := { u.fs with disk := d } })
  | .seek h position => do
    let g ← u.handle h
    return (.done true, u.setFile h g (g.file.seek position.toInt))
  | .length h => do
    let g ← u.handle h
    return (.count g.file.hdr.fileLength, u)
  -- the header was written when the file was made: there is nothing to write back
  | .close h => do
    let _ ← u.handle h
    return (.done true, { u with handles := u.handles.set h none })
  -- the files that were open are gone with the old kernel
  | .restart => do
    let fs ← FileSystem.mount u.fs.disk
    return (.done true, { fs := fs, handles := u.handles.map fun _ => none })

def step (u : Session) (c : Call) : Except Fault Session := do
  let (_, u) ← u.answer c
  return u

/-- Sizes that a file can have, positions that are not negative and do not wrap around, handles
that are open, and no `Remove` of an open file. -/
def Proper (u : Session) : Call → Prop
  | .create _ _ initialSize => 0 ≤ initialSize.toInt ∧ initialSize.toInt ≤ maxFileSize
  | .remove _ name => ∀ g ∈ u.handles.reduceOption, key g.name ≠ key name
  | .read h numBytes => ∃ g ∈ u.opened h, g.file.seekPosition + numBytes.toInt < 2 ^ 31
  | .write h _ _ numBytes => ∃ g ∈ u.opened h, g.file.seekPosition + numBytes.toInt < 2 ^ 31
  | .readAt h numBytes position =>
    (u.opened h).isSome ∧ 0 ≤ position.toInt ∧ position.toInt + numBytes.toInt < 2 ^ 31
  | .writeAt h _ _ numBytes position =>
    (u.opened h).isSome ∧ 0 ≤ position.toInt ∧ position.toInt + numBytes.toInt < 2 ^ 31
  | .seek h position => (u.opened h).isSome ∧ 0 ≤ position.toInt
  | .length h => (u.opened h).isSome
  | .close h => (u.opened h).isSome
  | .openFile _ _ => True
  | .restart => True

instance : (u : Session) → (c : Call) → Decidable (u.Proper c)
  | _, .create _ _ initialSize =>
    inferInstanceAs (Decidable (0 ≤ initialSize.toInt ∧ initialSize.toInt ≤ maxFileSize))
  | u, .remove _ name =>
    inferInstanceAs (Decidable (∀ g ∈ u.handles.reduceOption, key g.name ≠ key name))
  | u, .read h numBytes => inferInstanceAs
    (Decidable (∃ g ∈ u.opened h, g.file.seekPosition + numBytes.toInt < 2 ^ 31))
  | u, .write h _ _ numBytes => inferInstanceAs
    (Decidable (∃ g ∈ u.opened h, g.file.seekPosition + numBytes.toInt < 2 ^ 31))
  | u, .readAt h numBytes position => inferInstanceAs (Decidable
    ((u.opened h).isSome ∧ 0 ≤ position.toInt ∧ position.toInt + numBytes.toInt < 2 ^ 31))
  | u, .writeAt h _ _ numBytes position => inferInstanceAs (Decidable
    ((u.opened h).isSome ∧ 0 ≤ position.toInt ∧ position.toInt + numBytes.toInt < 2 ^ 31))
  | u, .seek h position =>
    inferInstanceAs (Decidable ((u.opened h).isSome ∧ 0 ≤ position.toInt))
  | u, .length h => inferInstanceAs (Decidable (u.opened h).isSome)
  | u, .close h => inferInstanceAs (Decidable (u.opened h).isSome)
  | _, .openFile _ _ => isTrue trivial
  | _, .restart => isTrue trivial

/-- What a call asks of a store. -/
def Call.meaning : Call → FileStore.Call (List UInt8)
  | .create _ name initialSize => .create (key name) initialSize.toInt.toNat
  | .remove _ name => .remove (key name)
  | .openFile _ name => .openFile (key name)
  | .read h numBytes => .read h numBytes.toInt.toNat
  | .write h _ source numBytes => .write h (OpenFile.taken numBytes.toInt source)
  | .readAt h numBytes position => .readAt h numBytes.toInt.toNat position.toInt.toNat
  | .writeAt h _ source numBytes position =>
    .writeAt h (OpenFile.taken numBytes.toInt source) position.toInt.toNat
  | .seek h position => .seek h position.toInt.toNat
  | .length h => .length h
  | .close h => .close h
  | .restart => .restart

end Session

/-! ## Directories with the same bytes -/

namespace Directory

variable {t t' : Directory} {size : ℕ} {m : BoundedMap (List UInt8) ℤ size}

theorem has_congr (hsize : t.tableSize = t'.tableSize)
    (htable : Bytes.EqUpTo (t.tableSize * directoryEntrySize) t.table t'.table) (i : ℕ)
    (k : List UInt8) : t.Has i k ↔ t'.Has i k := by
  unfold Has
  rw [← hsize]
  constructor
  · rintro ⟨hi, huse, hkey⟩
    rw [inUse_congr htable hi] at huse
    rw [key_congr (name_congr htable hi)] at hkey
    exact ⟨hi, huse, hkey⟩
  · rintro ⟨hi, huse, hkey⟩
    rw [← inUse_congr htable hi] at huse
    rw [← key_congr (name_congr htable hi)] at hkey
    exact ⟨hi, huse, hkey⟩

theorem Holds.congr (h : Holds t m) (hsize : t.tableSize = t'.tableSize)
    (htable : Bytes.EqUpTo (t.tableSize * directoryEntrySize) t.table t'.table) : Holds t' m := by
  refine ⟨hsize.symm.trans h.tableSize, fun i j k hi hj => ?_, fun k v => ?_⟩
  · rw [← has_congr hsize htable] at hi hj
    exact h.unique i j k hi hj
  · rw [h.find]
    constructor
    · rintro ⟨i, hi, hv⟩
      exact ⟨i, (has_congr hsize htable i k).mp hi, by rw [← sector_congr htable hi.1, hv]⟩
    · rintro ⟨i, hi, hv⟩
      have hi' := (has_congr hsize htable i k).mpr hi
      exact ⟨i, hi', by rw [sector_congr htable hi'.1, hv]⟩

/-- A directory with no entry in use is empty. -/
theorem Holds.of_unused (hsize : t.tableSize = size) (hunused : ∀ i < size, t.inUse i = false) :
    Holds t (BoundedMap.empty : BoundedMap (List UInt8) ℤ size) := by
  have hnone : ∀ i k, ¬ t.Has i k := by
    rintro i k ⟨hi, huse, _⟩
    rw [hunused i (hsize ▸ hi)] at huse
    cases huse
  refine ⟨hsize, fun i j k hi => absurd hi (hnone i k), fun k v => ?_⟩
  constructor
  · intro hfind
    rw [show (BoundedMap.empty : BoundedMap (List UInt8) ℤ size).find k = none from
      Finmap.lookup_empty k] at hfind
    cases hfind
  · rintro ⟨i, hi, _⟩
    exact absurd hi (hnone i k)

end Directory

/-! ## Room -/

namespace FileSystem

open Placement

variable {fs : FileSystem}

/-- The most sectors that an owner can have: a file has a header and at most `NumDirect` others. -/
def mostSectors : Owner → ℕ
  | .wellKnown => 2
  | .freeMap => 1
  | .directory => 2
  | .entry _ => 31

theorem Inv.length_sectorsOf (h : Inv fs) (o : Owner) :
    (sectorsOf fs.disk o).length ≤ mostSectors o := by
  cases o with
  | wellKnown => exact Nat.le_refl 2
  | freeMap =>
    have hnum := h.freeMapSectors
    rw [h.freeMapFile] at hnum
    simp only [sectorsOf, mostSectors, FileHeader.sectors, List.length_map, List.length_range]
    omega
  | directory =>
    have hnum := h.directorySectors
    rw [h.directoryFile] at hnum
    simp only [sectorsOf, mostSectors, FileHeader.sectors, List.length_map, List.length_range]
    omega
  | entry i =>
    by_cases huse : i < numDirEntries ∧ (directoryOn fs.disk).inUse i = true
    · have hfitting := (h.fitting i huse.1 huse.2).1
      rw [numDirect_eq] at hfitting
      rw [sectorsOf_inUse huse.1 huse.2, List.length_cons, FileHeader.sectors, List.length_map,
        List.length_range, mostSectors]
      omega
    · rw [sectorsOf, if_neg huse, List.length_nil]
      exact Nat.zero_le _

/-- The sectors of the files that are always there. -/
def fixedSectors (d : Disk) : List ℤ :=
  sectorsOf d .wellKnown ++ (sectorsOf d .freeMap ++ sectorsOf d .directory)

/-- A sector that is marked belongs to one of the thirteen owners. -/
theorem Inv.mem_of_marked (h : Inv fs) {s : ℕ} (hs : s < numSectors)
    (hmarked : (freeMapOn fs.disk).marked s = true) :
    (s : ℤ) ∈ (fixedSectors fs.disk).toFinset ∪ (Finset.range numDirEntries).biUnion fun i =>
      (sectorsOf fs.disk (.entry i)).toFinset := by
  obtain ⟨o, ho⟩ := (h.consistent.marked s hs).mp hmarked
  rw [Finset.mem_union, List.mem_toFinset, Finset.mem_biUnion, fixedSectors]
  cases o with
  | wellKnown => exact .inl (List.mem_append_left _ ho)
  | freeMap => exact .inl (List.mem_append_right _ (List.mem_append_left _ ho))
  | directory => exact .inl (List.mem_append_right _ (List.mem_append_right _ ho))
  | entry i =>
    refine .inr ⟨i, ?_, List.mem_toFinset.mpr ho⟩
    rw [Finset.mem_range]
    by_contra hi
    rw [sectorsOf, if_neg fun hand => hi hand.1] at ho
    cases ho

theorem Inv.marked_card (h : Inv fs) :
    ((Finset.range numSectors).filter fun s => (freeMapOn fs.disk).marked s = true).card ≤ 315 := by
  have hfixed : (fixedSectors fs.disk).toFinset.card ≤ 5 := by
    have hwell := h.length_sectorsOf .wellKnown
    have hmap := h.length_sectorsOf .freeMap
    have hdir := h.length_sectorsOf .directory
    have hcard := List.toFinset_card_le (fixedSectors fs.disk)
    rw [fixedSectors, List.length_append, List.length_append] at hcard
    simp only [mostSectors] at hwell hmap hdir
    rw [fixedSectors]
    omega
  have hentries := Finset.card_biUnion_le_card_mul (Finset.range numDirEntries)
    (fun i => (sectorsOf fs.disk (.entry i)).toFinset) 31 fun i _ =>
      (List.toFinset_card_le _).trans (h.length_sectorsOf (.entry i))
  rw [Finset.card_range, numDirEntries_eq] at hentries
  calc _ ≤ (((fixedSectors fs.disk).toFinset ∪ (Finset.range numDirEntries).biUnion fun i =>
          (sectorsOf fs.disk (.entry i)).toFinset).image Int.toNat).card := by
        apply Finset.card_le_card
        intro s hs
        rw [Finset.mem_filter, Finset.mem_range] at hs
        exact Finset.mem_image.mpr ⟨s, h.mem_of_marked hs.1 hs.2, Int.toNat_natCast s⟩
    _ ≤ _ := Finset.card_image_le
    _ ≤ (fixedSectors fs.disk).toFinset.card + _ := Finset.card_union_le _ _
    _ ≤ 315 := by
        rw [numDirEntries_eq]
        omega

/-- So many sectors are free that there are always enough for a header and a file. -/
theorem Inv.numClear_ge (h : Inv fs) {m : BitMap}
    (hfetch : (BitMap.new numSectors).fetchFrom fs.disk fs.freeMapFile = .ok m) :
    709 ≤ m.numClear := by
  obtain ⟨m', hfetch', hbits, hmarked⟩ := h.fetchFreeMap
  rw [hfetch, Except.ok.injEq] at hfetch'
  subst hfetch'
  have hcount := h.marked_card
  have hsplit := Finset.card_filter_add_card_filter_not (s := Finset.range numSectors)
    (fun s => (freeMapOn fs.disk).marked s = true)
  rw [Finset.card_range, numSectors_eq] at hsplit
  rw [BitMap.numClear_eq, hbits]
  have hclear : m.clearBits numSectors =
      (Finset.range numSectors).filter fun s => ¬ (freeMapOn fs.disk).marked s = true := by
    ext s
    rw [BitMap.mem_clearBits, Finset.mem_filter, Finset.mem_range, Bool.not_eq_true]
    constructor
    · rintro ⟨hs, hfalse⟩
      exact ⟨hs, by rw [← hmarked s hs, hfalse]⟩
    · rintro ⟨hs, hfalse⟩
      exact ⟨hs, by rw [hmarked s hs, hfalse]⟩
  rw [hclear, numSectors_eq]
  rw [numSectors_eq] at hcount
  omega

/-- `Create` of a size that a file can have fails only if the name is there or all entries are in
use. -/
theorem Inv.create_false_iff (h : Inv fs) (heap : ℕ → Bytes) (name : Bytes) {size : Int32}
    (hsize : size.toInt ≤ maxFileSize) :
    (∃ fs', fs.create heap name size.toInt = .ok (false, fs')) ↔
      (∃ i, (directoryOn fs.disk).Has i (key name)) ∨
        ∀ i < numDirEntries, (directoryOn fs.disk).inUse i = true := by
  obtain ⟨t, hdir, htableSize, htable⟩ := h.fetchDirectory (heap 0)
  obtain ⟨m, hmap, -, -⟩ := h.fetchFreeMap
  have hclear := h.numClear_ge hmap
  have htable' : Bytes.EqUpTo (t.tableSize * directoryEntrySize) t.table
      (directoryOn fs.disk).table := by
    rw [htableSize]
    exact htable
  obtain ⟨-, hdirect, -⟩ := FileHeader.divRoundUp_le (Int32.le_toInt size) hsize
  rw [numDirect_eq] at hdirect
  rw [FileSystem.create_false_iff hdir hmap name size, Refused]
  constructor
  · rintro (⟨i, hi⟩ | hzero | hfull | hfew)
    · exact .inl ⟨i, (Directory.has_congr htableSize htable' i _).mp hi⟩
    · omega
    · refine .inr fun i hi => ?_
      rw [← htableSize] at hi
      rw [← Directory.inUse_congr htable' hi]
      exact hfull i hi
    · omega
  · rintro (⟨i, hi⟩ | hfull)
    · exact .inl ⟨i, (Directory.has_congr htableSize htable' i _).mpr hi⟩
    · refine .inr (.inr (.inl fun i hi => ?_))
      rw [Directory.inUse_congr htable' hi]
      rw [htableSize] at hi
      exact hfull i hi

end FileSystem

/-! ## Calls that read and write -/

variable {d : Disk}

theorem length_data (h : FileHeader) (d : Disk) : (h.data d).length = h.numBytes.toNat := by
  rw [FileHeader.data, List.length_map, List.length_range]

theorem getElem_data (h : FileHeader) (d : Disk) {k : ℕ} (hk : k < h.numBytes.toNat) :
    (h.data d)[k]? = some (h.contents d k) := by
  rw [FileHeader.data, List.getElem?_map, List.getElem?_range hk, Option.map_some]

namespace OpenFile

variable {f : OpenFile}

theorem length_taken (n : ℤ) (bytes : Bytes) : (taken n bytes).length = n.toNat := by
  rw [taken, List.length_map, List.length_range]

/-- `ReadAt` returns the bytes from a position on, as far as there are any. -/
theorem readAt_bytes (hs : 0 < f.hdr.numBytes → f.hdr.Sound) {p : ℕ} (n : ℤ)
    (hsum : p + n < 2 ^ 31) (d : Disk) :
    ∃ bytes, f.readAt d n p = .ok ((((f.hdr.data d).drop p).take n.toNat).length, bytes) ∧
      taken (((f.hdr.data d).drop p).take n.toNat).length bytes =
        ((f.hdr.data d).drop p).take n.toNat := by
  have hlength : (((f.hdr.data d).drop p).take n.toNat).length =
      min n.toNat (f.hdr.numBytes.toNat - p) := by
    rw [List.length_take, List.length_drop, length_data]
  rw [hlength]
  by_cases hread : 0 < n ∧ (p : ℤ) < f.hdr.numBytes
  · obtain ⟨hn, hlt⟩ := hread
    obtain ⟨bytes, hok, hbytes⟩ := readAt_ok (d := d) (n := n.toNat) (hs (by omega)) (by omega) hlt
      (by omega)
    rw [Int.toNat_of_nonneg hn.le] at hok
    refine ⟨bytes, hok, ?_⟩
    rw [taken_eq (p := p) (by omega) hbytes, List.take_eq_take_iff, List.length_drop, length_data]
    omega
  · -- nothing is read
    have hzero : min n.toNat (f.hdr.numBytes.toNat - p) = 0 := by omega
    rw [hzero] at hlength ⊢
    refine ⟨fun _ => 0, ?_, (List.length_eq_zero_iff.mp hlength).symm⟩
    have hrejected : n ≤ 0 ∨ (p : ℤ) ≥ f.hdr.fileLength := by
      rw [FileHeader.fileLength]
      omega
    rw [readAt, if_pos hrejected]
    rfl

/-- `Read` returns the bytes from the position of the file on, and moves it behind them. -/
theorem read_bytes (hs : 0 < f.hdr.numBytes → f.hdr.Sound) {p : ℕ} (hpos : f.seekPosition = p)
    (n : ℤ) (hsum : p + n < 2 ^ 31) (hp : p < 2 ^ 31) (d : Disk) :
    ∃ bytes, f.read d n =
        .ok ((((f.hdr.data d).drop p).take n.toNat).length, bytes,
          f.seek ((p + (((f.hdr.data d).drop p).take n.toNat).length : ℕ) : ℤ)) ∧
      taken (((f.hdr.data d).drop p).take n.toNat).length bytes =
        ((f.hdr.data d).drop p).take n.toNat := by
  obtain ⟨bytes, hok, htaken⟩ := readAt_bytes hs n hsum d
  refine ⟨bytes, ?_, htaken⟩
  have hlength : (((f.hdr.data d).drop p).take n.toNat).length ≤ n.toNat := List.length_take_le _ _
  rw [read, hpos, hok, ok_bind]
  dsimp only
  rw [← Int.natCast_add, toInt_of_range (by omega) (by omega)]
  rfl

/-- `WriteAt` puts the bytes in the place of those from a position on, as far as there are any. -/
theorem writeAt_bytes (hs : 0 < f.hdr.numBytes → f.hdr.Sound) {p : ℕ} (n : ℤ)
    (hsum : p + n < 2 ^ 31) (d : Disk) (heap source : Bytes) :
    ∃ d', f.writeAt d heap source n p =
        .ok ((min (taken n source).length ((f.hdr.data d).length - p) : ℕ), d') ∧
      f.hdr.data d' = FileStore.splice (f.hdr.data d) p (taken n source) ∧
      ∀ s : ℕ, (s : ℤ) ∉ f.hdr.sectors → d' s = d s := by
  rw [length_taken, length_data]
  by_cases hwrite : 0 < n ∧ (p : ℤ) < f.hdr.numBytes
  · obtain ⟨hn, hlt⟩ := hwrite
    have hsound := hs (by omega)
    obtain ⟨d', hok, hbytes, hothers⟩ := writeAt_ok (d := d) hsound (n := n.toNat) (p := p)
      (by omega) hlt (by omega) heap source
    rw [Int.toNat_of_nonneg hn.le] at hok
    refine ⟨d', hok, ?_, fun s hs' => hothers s fun i hi _ _ heq => hs' ?_⟩
    · apply List.ext_getElem?
      intro k
      by_cases hk : k < f.hdr.numBytes.toNat
      · rw [getElem_data f.hdr d' hk, FileStore.getElem_splice _ _ _ (by rwa [length_data]),
          getElem_data f.hdr d hk, hbytes k (by omega), length_taken]
        -- a byte of the request, or one beside it
        by_cases hin : p ≤ k ∧ k < p + n.toNat
        · rw [if_pos hin, if_pos (by omega), taken, List.getElem?_map,
            List.getElem?_range (by omega), Option.map_some]
        · rw [if_neg hin, if_neg (by omega)]
      · rw [List.getElem?_eq_none (by rw [length_data]; omega),
          List.getElem?_eq_none (by rw [FileStore.length_splice, length_data]; omega)]
    · rw [heq, ← hsound.dataSectors_eq hi]
      exact FileHeader.mem_sectors.mpr ⟨i, hi, rfl⟩
  · -- nothing is written
    have hzero : min n.toNat (f.hdr.numBytes.toNat - p) = 0 := by omega
    have hrejected : n ≤ 0 ∨ (p : ℤ) ≥ f.hdr.fileLength := by
      rw [FileHeader.fileLength]
      omega
    refine ⟨d, ?_, ?_, fun s _ => rfl⟩
    · rw [hzero, writeAt, if_pos hrejected]
      rfl
    · apply List.ext_getElem?
      intro k
      by_cases hk : k < f.hdr.numBytes.toNat
      · rw [FileStore.getElem_splice _ _ _ (by rwa [length_data]), length_taken, if_neg (by omega)]
      · rw [List.getElem?_eq_none (by rw [length_data]; omega),
          List.getElem?_eq_none (by rw [FileStore.length_splice, length_data]; omega)]

/-- `Write` puts the bytes in the place of those from the position of the file on, and moves it
behind them. -/
theorem write_bytes (hs : 0 < f.hdr.numBytes → f.hdr.Sound) {p : ℕ} (hpos : f.seekPosition = p)
    (n : ℤ) (hsum : p + n < 2 ^ 31) (hp : p < 2 ^ 31) (d : Disk) (heap source : Bytes) :
    ∃ d', f.write d heap source n =
        .ok ((min (taken n source).length ((f.hdr.data d).length - p) : ℕ),
          f.seek ((p + min (taken n source).length ((f.hdr.data d).length - p) : ℕ) : ℤ), d') ∧
      f.hdr.data d' = FileStore.splice (f.hdr.data d) p (taken n source) ∧
      ∀ s : ℕ, (s : ℤ) ∉ f.hdr.sectors → d' s = d s := by
  obtain ⟨d', hok, hdata, hothers⟩ := writeAt_bytes hs n hsum d heap source
  refine ⟨d', ?_, hdata, hothers⟩
  rw [length_taken] at hok ⊢
  rw [write, hpos, hok, ok_bind]
  dsimp only
  rw [← Int.natCast_add, toInt_of_range (by omega) (by omega)]
  rfl

end OpenFile

/-! ## Calls that change the directory -/

namespace FileSystem

open Placement

variable {fs : FileSystem} {d' : Disk} {t : Directory} {m : BitMap} {name : Bytes} {i b : ℕ}
  {names : BoundedMap (List UInt8) ℤ numDirEntries}

/-- The files that were there have the bytes that they had. -/
theorem Inv.data_written (h : Inv fs)
    (hold : ∀ s : ℕ, Occurs (sectorsOf fs.disk) s → d s = fs.disk s)
    (hwritten : Written fs t m d d') {j : ℕ} (hj : j < numDirEntries)
    (huse : (directoryOn fs.disk).inUse j = true) :
    (headerAt fs.disk ((directoryOn fs.disk).sector j)).data d' =
      (headerAt fs.disk ((directoryOn fs.disk).sector j)).data fs.disk := by
  refine FileHeader.data_congr fun k hk => ?_
  refine contents_congr (h.entrySound hj huse (by omega)) hk fun s hs => ?_
  refine h.written_eq hold hwritten (o := .entry j) ?_ (by simp) (by simp)
  rw [sectorsOf_inUse hj huse]
  exact .tail _ hs

/-- `Create` adds the name, with the sector of the header. -/
theorem Creation.holds (h : Inv fs) {size : ℤ} {bits : List ℕ} {hdr : FileHeader}
    (hc : Creation fs name size t m i b bits hdr d') (hnames : (directoryOn fs.disk).Holds names) :
    (names.add (key name) b).1 = true ∧ (directoryOn d').Holds (names.add (key name) b).2 := by
  have hb : (Int32.ofInt b).toInt = b := by
    have hlt := (hc.clear b List.mem_cons_self).1
    rw [numSectors_eq] at hlt
    exact Int32.toInt_ofInt_of_le (by omega) (by omega)
  have htable : Bytes.EqUpTo ((directoryOn fs.disk).tableSize * directoryEntrySize)
      (directoryOn fs.disk).table t.table := hc.table.symm
  have hadd : t.add name b = (true, t.setEntry i name b) := by
    rw [Directory.add, if_neg (not_not.mpr hc.absent), hc.unused]
  obtain ⟨hanswer, hholds⟩ := (hnames.congr hc.tableSize.symm htable).add name (Int32.ofInt b)
  rw [hb, hadd] at hanswer hholds
  refine ⟨hanswer.symm, hholds.congr ?_ ?_⟩
  · rw [Directory.setEntry_tableSize, hc.tableSize]
    rfl
  · rw [Directory.setEntry_tableSize, hc.tableSize]
    exact (h.table_written (hc.old h) hc.written).symm

/-- `Remove` takes the name away. -/
theorem Removal.holds (h : Inv fs) (hr : Removal fs name t m i d')
    (hnames : (directoryOn fs.disk).Holds names) :
    (names.remove (key name)).1 = true ∧ (directoryOn d').Holds (names.remove (key name)).2 := by
  have htable : Bytes.EqUpTo ((directoryOn fs.disk).tableSize * directoryEntrySize)
      (directoryOn fs.disk).table t.table := hr.table.symm
  have hremove : t.remove name = (true, t.setInUse i false) := by
    rw [Directory.remove, hr.found]
  obtain ⟨hanswer, hholds⟩ := (hnames.congr hr.tableSize.symm htable).remove name
  rw [hremove] at hanswer hholds
  refine ⟨hanswer.symm, hholds.congr ?_ ?_⟩
  · rw [Directory.setInUse_tableSize, hr.tableSize]
    rfl
  · rw [Directory.setInUse_tableSize, hr.tableSize]
    exact (h.table_written (fun _ _ => rfl) hr.written).symm

/-- A `Remove` that fails has not found the name. -/
theorem Inv.remove_false (h : Inv fs) {heap : ℕ → Bytes} {fs' : FileSystem}
    (hremove : fs.remove heap name = .ok (false, fs')) :
    (directoryOn fs.disk).findIndex name = none := by
  obtain ⟨t, hdir, hsize, htable⟩ := h.fetchDirectory (heap 0)
  have htable' : Bytes.EqUpTo (t.tableSize * directoryEntrySize) t.table
      (directoryOn fs.disk).table := by
    rw [hsize]
    exact htable
  cases hindex : (directoryOn fs.disk).findIndex name with
  | none => rfl
  | some i =>
    obtain ⟨hi, huse⟩ := Directory.findIndex_some hindex
    obtain ⟨s, hs, -⟩ := h.sector_range hi huse
    have hfind : t.find name = s := by
      rw [Directory.find_congr_table hsize htable' name, Directory.find, hindex]
      exact hs
    -- the header is found, and then every path returns `true`
    unfold remove at hremove
    rw [hdir, ok_bind] at hremove
    dsimp only at hremove
    rw [hfind, if_neg (by omega)] at hremove
    obtain ⟨hdr₁, -, hremove⟩ := bind_ok_iff.mp hremove
    obtain ⟨m₁, -, hremove⟩ := bind_ok_iff.mp hremove
    obtain ⟨m₂, -, hremove⟩ := bind_ok_iff.mp hremove
    obtain ⟨m₃, -, hremove⟩ := bind_ok_iff.mp hremove
    obtain ⟨d₁, -, hremove⟩ := bind_ok_iff.mp hremove
    obtain ⟨d₂, -, hremove⟩ := bind_ok_iff.mp hremove
    rw [pure_ok_iff, Prod.mk.injEq] at hremove
    cases hremove.1

/-- A write to one file leaves the bytes of the others. -/
theorem Overwritten.data_other (h : Inv fs) (hw : Overwritten fs i d') {j : ℕ} (hj : j < numDirEntries)
    (huse : (directoryOn fs.disk).inUse j = true) (hne : j ≠ i) :
    (headerAt fs.disk ((directoryOn fs.disk).sector j)).data d' =
      (headerAt fs.disk ((directoryOn fs.disk).sector j)).data fs.disk := by
  refine FileHeader.data_congr fun k hk => ?_
  refine contents_congr (h.entrySound hj huse (by omega)) hk fun s hs => ?_
  refine hw.kept h (o := .entry j) ?_ (.inl (by simpa using hne))
  rw [sectorsOf_inUse hj huse]
  exact .tail _ hs

/-- `format` writes a directory with no entry in use. -/
theorem Inv.format_unused (h : Inv fs) {d : Disk} {heap : ℕ → Bytes}
    (hformat : format d heap = .ok fs) : ∀ i < numDirEntries, (directoryOn fs.disk).inUse i = false := by
  unfold format at hformat
  obtain ⟨⟨mapAllocated, mapHdr, m₁⟩, -, hformat⟩ := bind_ok_iff.mp hformat
  dsimp only at hformat
  split at hformat
  · cases hformat
  obtain ⟨⟨dirAllocated, dirHdr, m₂⟩, -, hformat⟩ := bind_ok_iff.mp hformat
  dsimp only at hformat
  split at hformat
  · cases hformat
  obtain ⟨d₁, -, hformat⟩ := bind_ok_iff.mp hformat
  obtain ⟨d₂, -, hformat⟩ := bind_ok_iff.mp hformat
  obtain ⟨mapFile, -, hformat⟩ := bind_ok_iff.mp hformat
  obtain ⟨dirFile, -, hformat⟩ := bind_ok_iff.mp hformat
  obtain ⟨d₃, -, hformat⟩ := bind_ok_iff.mp hformat
  obtain ⟨d₄, hwrite, hformat⟩ := bind_ok_iff.mp hformat
  rw [pure_ok_iff] at hformat
  subst hformat
  obtain ⟨d₅, hwrite', hbytes, -⟩ := h.files.writeDirectory (t := Directory.new numDirEntries (heap 0))
    (Directory.new_tableSize _ _) d₃ (heap 4)
  rw [hwrite, Except.ok.injEq] at hwrite'
  subst hwrite'
  intro i hi
  rw [← Directory.new_inUse (heap 0) hi]
  refine Directory.inUse_congr (fun k hk => ?_) hi
  rw [directoryOn, ← h.directoryFile]
  exact hbytes k hk

/-- A machine that is started again finds the file system that was left. -/
theorem Inv.mount_ok (h : Inv fs) : ∃ fs', mount fs.disk = .ok fs' ∧ Inv fs' ∧
    fs'.disk = fs.disk := by
  refine ⟨⟨fs.disk, ⟨headerAt fs.disk freeMapSector, 0⟩, ⟨headerAt fs.disk directorySector, 0⟩⟩, ?_,
    ⟨h.consistent, rfl, rfl, ?_, ?_, ?_, ?_, h.fitting⟩, rfl⟩
  · rw [mount, openFile_ok fs.disk (by decide), ok_bind, openFile_ok fs.disk (by decide), ok_bind]
    rfl
  · rw [← h.freeMapBytes, h.freeMapFile]
  · rw [← h.freeMapSectors, h.freeMapFile]
  · rw [← h.directoryBytes, h.directoryFile]
  · rw [← h.directorySectors, h.directoryFile]

end FileSystem

/-! ## What a session stands for -/

namespace Session

open FileSystem BoundedMap

variable {u : Session} {names : BoundedMap (List UInt8) ℤ numDirEntries}
  {t : FileStore (List UInt8) numDirEntries} {d d' : Disk} {h : ℕ}

/-- A handle of the session and what the store has for it: the open file has the header of the
name it was opened by. -/
inductive Matches (d : Disk) (names : BoundedMap (List UInt8) ℤ numDirEntries) :
    Option Handle → Option (List UInt8 × ℕ) → Prop where
  | closed : Matches d names none none
  | opened {g : Handle} {s : ℤ} {p : ℕ} (hfind : names.find (key g.name) = some s)
    (hheader : g.file.hdr = headerAt d s) (hpos : g.file.seekPosition = p) (hlt : p < 2 ^ 31) :
    Matches d names (some g) (some (key g.name, p))

/-- The store has the names of the directory, each with the bytes of the file. -/
structure Stands (u : Session) (names : BoundedMap (List UInt8) ℤ numDirEntries)
    (t : FileStore (List UInt8) numDirEntries) : Prop where
  inv : Inv u.fs
  holds : (directoryOn u.fs.disk).Holds names
  files : ∀ k, t.files.find k = (names.find k).map fun s => (headerAt u.fs.disk s).data u.fs.disk
  sizes : ∀ k s, names.find k = some s → 0 ≤ (headerAt u.fs.disk s).numBytes
  length : u.handles.length = t.handles.length
  handles : ∀ h, Matches u.fs.disk names (u.opened h) (t.opened h)

/-- A name that stays, with its header. -/
theorem Matches.kept {names' : BoundedMap (List UInt8) ℤ numDirEntries} {o : Option Handle}
    {o' : Option (List UInt8 × ℕ)} (hmatches : Matches d names o o')
    (hkept : ∀ g ∈ o, ∀ s, names.find (key g.name) = some s →
      names'.find (key g.name) = some s ∧ headerAt d' s = headerAt d s) : Matches d' names' o o' := by
  cases hmatches with
  | closed => exact .closed
  | @opened g s p hfind hheader hpos hlt =>
    obtain ⟨hfind', hheader'⟩ := hkept g rfl s hfind
    exact .opened hfind' (hheader.trans hheader'.symm) hpos hlt

theorem Stands.entry (hu : Stands u names t) {k : List UInt8} {s : ℤ} (hfind : names.find k = some s) :
    ∃ i < numDirEntries, (directoryOn u.fs.disk).inUse i = true ∧
      (directoryOn u.fs.disk).sector i = s ∧ (directoryOn u.fs.disk).Has i k := by
  obtain ⟨i, hhas, hs⟩ := (hu.holds.find k s).mp hfind
  exact ⟨i, hhas.1, hhas.2.1, hs, hhas⟩

theorem Stands.found_iff (hu : Stands u names t) (k : List UInt8) :
    t.files.find k = none ↔ names.find k = none := by
  rw [hu.files, Option.map_eq_none_iff]

theorem Stands.keys_eq (hu : Stands u names t) : t.files.entries.keys = names.entries.keys := by
  ext k
  rw [Finmap.mem_keys, Finmap.mem_keys, ← Finmap.lookup_isSome, ← Finmap.lookup_isSome,
    Option.isSome_iff_ne_none, Option.isSome_iff_ne_none]
  exact not_congr (hu.found_iff k)

/-- The store has room for a name if the directory has. -/
theorem Stands.add_eq (hu : Stands u names t) (k : List UInt8) (bytes : List UInt8) (s : ℤ) :
    (t.files.add k bytes).1 = (names.add k s).1 := by
  rw [Bool.eq_iff_iff, add_fst_iff, add_fst_iff, hu.found_iff, hu.keys_eq]

/-- The call is answered as the store allows, and the session stands for the store after it. -/
def Answered (u : Session) (t : FileStore (List UInt8) numDirEntries) (c : Call) : Prop :=
  ∃ r u' t', u.answer c = .ok (r, u') ∧ FileStore.Step t c.meaning r t' ∧
    ∃ names', Stands u' names' t'

theorem Stands.create (hu : Stands u names t) (heap : ℕ → Bytes) (name : Bytes) {size : Int32}
    (hmin : 0 ≤ size.toInt) (hmax : size.toInt ≤ maxFileSize) :
    Answered u t (.create heap name size) := by
  rcases hu.inv.create_ok heap name (Int32.le_toInt size) hmax with
    hfail | ⟨dir, m, i, b, bits, hdr, d', hc, hcreate⟩
  · have hfalse : (t.files.add (key name) (List.replicate size.toInt.toNat 0)).1 = false := by
      rw [hu.add_eq _ _ 0, ← Bool.not_eq_true, add_fst_iff, hu.holds.card_lt_iff]
      -- `Create` fails exactly if the name is taken or the directory is full, as the map does
      rintro ⟨hnone, i, hi, hunused⟩
      rcases (hu.inv.create_false_iff heap name hmax).mp ⟨u.fs, hfail⟩ with hpresent | hfull
      · exact (hu.holds.has_iff _).mp hpresent hnone
      · rw [hfull i hi] at hunused
        cases hunused
    have hstep := FileStore.Step.create (t := t) (key name) (List.replicate size.toInt.toNat 0)
    rw [List.length_replicate, hfalse, add_snd_of_false hfalse] at hstep
    refine ⟨.done false, u, t, ?_, hstep, names, hu⟩
    rw [answer, hfail]
    rfl
  obtain ⟨hadded, hholds⟩ := hc.holds hu.inv hu.holds
  obtain ⟨hbytes, -, -⟩ := headerAt_eq (hc.header hu.inv)
  rw [hc.numBytes] at hbytes
  -- a file that was there
  have hold : ∀ k s, names.find k = some s → headerAt d' s = headerAt u.fs.disk s ∧
      (headerAt u.fs.disk s).data d' = (headerAt u.fs.disk s).data u.fs.disk := by
    intro k s hfind
    obtain ⟨i, hi, huse, rfl, -⟩ := hu.entry hfind
    exact ⟨hu.inv.header_written (hc.old hu.inv) hc.written hi huse,
      hu.inv.data_written (hc.old hu.inv) hc.written hi huse⟩
  -- the new file has the name of no open one
  have habsent := ((add_fst_iff _ _ _).mp hadded).1
  have hadded' := (hu.add_eq (key name) ((headerAt d' b).data d') b).trans hadded
  have hstep := FileStore.Step.create (t := t) (key name) ((headerAt d' b).data d')
  rw [length_data, hbytes, hadded'] at hstep
  have hfind : ∀ k, (names.add (key name) b).2.find k =
      if k = key name then some (b : ℤ) else names.find k := by
    intro k
    rw [find_add, hadded]
    simp
  refine ⟨.done true, { u with fs := { u.fs with disk := d' } }, _, ?answered, hstep, _,
    hc.inv hu.inv (Int32.le_toInt size) hmax, hholds, fun k => ?files, fun k s hs => ?sizes,
    hu.length, fun h => ?handles⟩
  case answered =>
    rw [answer, hcreate]
    rfl
  case files =>
    show (t.files.add (key name) ((headerAt d' b).data d')).2.find k =
      ((names.add (key name) b).2.find k).map fun s => (headerAt d' s).data d'
    rw [find_add, hadded', hfind]
    by_cases hk : k = key name
    · rw [if_pos ⟨rfl, hk⟩, if_pos hk, Option.map_some]
    · rw [if_neg fun hand => hk hand.2, if_neg hk, hu.files]
      cases hnames : names.find k with
      | none => rw [Option.map_none, Option.map_none]
      | some s =>
        obtain ⟨hheader, hdata⟩ := hold k s hnames
        rw [Option.map_some, Option.map_some, hheader, hdata]
  case sizes =>
    rw [hfind] at hs
    dsimp only
    by_cases hk : k = key name
    · rw [if_pos hk, Option.some.injEq] at hs
      rw [← hs, hbytes]
      exact hmin
    · rw [if_neg hk] at hs
      rw [(hold k s hs).1]
      exact hu.sizes k s hs
  case handles =>
    refine (hu.handles h).kept fun g hg s hs => ⟨?_, (hold _ s hs).1⟩
    rw [hfind, if_neg]
    · exact hs
    · intro hk
      rw [hk, habsent] at hs
      cases hs

theorem Stands.remove (hu : Stands u names t) (heap : ℕ → Bytes) {name : Bytes}
    (hclosed : ∀ g ∈ u.handles.reduceOption, key g.name ≠ key name) :
    Answered u t (.remove heap name) := by
  have hstep := FileStore.Step.remove (t := t) (key name)
  have hremoved : ∀ k, (names.remove (key name)).2.find k =
      if k = key name then none else names.find k := find_remove names (key name)
  have hanswer : (t.files.remove (key name)).1 = (names.remove (key name)).1 := by
    rw [Bool.eq_iff_iff]
    simp only [BoundedMap.remove, Option.isSome_iff_ne_none]
    exact not_congr (hu.found_iff _)
  rcases hu.inv.remove_ok heap name with hfail | ⟨dir, m, i, d', hr, hremove⟩
  · have hnone : names.find (key name) = none := by
      rw [← Directory.findIndex_none_iff hu.holds]
      exact hu.inv.remove_false hfail
    have hfalse : (names.remove (key name)).1 = false := by
      simp only [BoundedMap.remove, hnone, Option.isSome_none]
    rw [hanswer, hfalse] at hstep
    refine ⟨.done false, u, _, ?_, hstep, names, hu.inv, hu.holds, fun k => ?_, hu.sizes, hu.length,
      hu.handles⟩
    · rw [answer, hfail]
      rfl
    · rw [find_remove]
      by_cases hk : k = key name
      · rw [if_pos hk, hk, hnone, Option.map_none]
      · rw [if_neg hk]
        exact hu.files k
  obtain ⟨htrue, hholds⟩ := hr.holds hu.inv hu.holds
  rw [hanswer, htrue] at hstep
  -- freeing sectors writes the map and the directory, no file
  have hold : ∀ k s, names.find k = some s → headerAt d' s = headerAt u.fs.disk s ∧
      (headerAt u.fs.disk s).data d' = (headerAt u.fs.disk s).data u.fs.disk := by
    intro k s hfind
    obtain ⟨i, hi, huse, rfl, -⟩ := hu.entry hfind
    exact ⟨hu.inv.header_written (fun _ _ => rfl) hr.written hi huse,
      hu.inv.data_written (fun _ _ => rfl) hr.written hi huse⟩
  refine ⟨.done true, { u with fs := { u.fs with disk := d' } }, _, ?answered, hstep, _,
    hr.inv hu.inv, hholds, fun k => ?files, fun k s hs => ?sizes, hu.length, fun h => ?handles⟩
  case answered =>
    rw [answer, hremove]
    rfl
  case files =>
    show (t.files.remove (key name)).2.find k =
      ((names.remove (key name)).2.find k).map fun s => (headerAt d' s).data d'
    rw [find_remove, hremoved]
    by_cases hk : k = key name
    · rw [if_pos hk, if_pos hk, Option.map_none]
    · rw [if_neg hk, if_neg hk, hu.files]
      cases hnames : names.find k with
      | none => rw [Option.map_none, Option.map_none]
      | some s =>
        obtain ⟨hheader, hdata⟩ := hold k s hnames
        rw [Option.map_some, Option.map_some, hheader, hdata]
  case sizes =>
    rw [hremoved] at hs
    by_cases hk : k = key name
    · rw [if_pos hk] at hs
      cases hs
    · rw [if_neg hk] at hs
      rw [(hold k s hs).1]
      exact hu.sizes k s hs
  case handles =>
    refine (hu.handles h).kept fun g hg s hs => ⟨?_, (hold _ s hs).1⟩
    -- no open file has the name that was removed
    have hmem : g ∈ u.handles.reduceOption :=
      List.reduceOption_mem_iff.mpr (FileStore.mem_of_join hg)
    rw [hremoved, if_neg (hclosed g hmem)]
    exact hs

theorem Stands.openFile (hu : Stands u names t) (heap name : Bytes) :
    Answered u t (.openFile heap name) := by
  have hopen := hu.inv.open_ok heap name
  cases hindex : (directoryOn u.fs.disk).findIndex name with
  | none =>
    rw [hindex, Option.map_none] at hopen
    have hnone := (hu.found_iff _).mpr ((Directory.findIndex_none_iff hu.holds name).mp hindex)
    refine ⟨.handle none, u, t, ?_, .openAbsent (key name) hnone, names, hu⟩
    rw [answer, hopen]
    rfl
  | some i =>
    rw [hindex, Option.map_some] at hopen
    have hfind : names.find (key name) = some ((directoryOn u.fs.disk).sector i) :=
      (hu.holds.find _ _).mpr ⟨i, (Directory.findIndex_some_iff hu.holds name).mp hindex, rfl⟩
    have hfound : t.files.find (key name) ≠ none := by
      rw [Ne, hu.found_iff, hfind]
      exact Option.some_ne_none _
    refine ⟨.handle (some u.handles.length), { u with handles := u.handles ++ [some ⟨name,
      ⟨headerAt u.fs.disk ((directoryOn u.fs.disk).sector i), 0⟩⟩] },
      { t with handles := t.handles ++ [some (key name, 0)] }, ?_, ?_, names, hu.inv, hu.holds,
      hu.files, hu.sizes, ?_, fun h => ?_⟩
    · rw [answer, hopen]
      rfl
    · rw [hu.length]
      exact .openFound (key name) hfound
    · rw [List.length_append, List.length_append, hu.length]
      rfl
    · rw [Session.opened, FileStore.opened, FileStore.join_append, FileStore.join_append, hu.length]
      by_cases hlast : h = t.handles.length
      · rw [if_pos hlast, if_pos hlast]
        exact .opened hfind rfl rfl (by omega)
      · rw [if_neg hlast, if_neg hlast]
        exact hu.handles h

/-! ## Calls on an open file -/

/-- What is known of an open file. -/
structure Standing (u : Session) (names : BoundedMap (List UInt8) ℤ numDirEntries)
    (t : FileStore (List UInt8) numDirEntries) (h : ℕ) (g : Handle) (p i : ℕ) : Prop where
  handle : u.handle h = .ok g
  position : g.file.seekPosition = p
  lt : p < 2 ^ 31
  entry : i < numDirEntries
  inUse : (directoryOn u.fs.disk).inUse i = true
  has : (directoryOn u.fs.disk).Has i (key g.name)
  find : names.find (key g.name) = some ((directoryOn u.fs.disk).sector i)
  header : g.file.hdr = headerAt u.fs.disk ((directoryOn u.fs.disk).sector i)
  sound : 0 < g.file.hdr.numBytes → g.file.hdr.Sound
  nonneg : 0 ≤ g.file.hdr.numBytes
  denotes : t.Denotes h (key g.name) p (g.file.hdr.data u.fs.disk)

theorem Stands.standing (hu : Stands u names t) {g : Handle} (hopen : g ∈ u.opened h) :
    ∃ p i, Standing u names t h g p i := by
  have hmatches := hu.handles h
  rw [hopen] at hmatches
  generalize ho : t.opened h = o at hmatches
  cases hmatches with
  | @opened g s p hfind hheader hpos hlt =>
    obtain ⟨i, hi, huse, rfl, hhas⟩ := hu.entry hfind
    refine ⟨p, i, ?_, hpos, hlt, hi, huse, hhas, hfind, hheader, ?_, ?_, ho, ?_⟩
    · rw [Session.handle, hopen]
    · rw [hheader]
      exact hu.inv.entrySound hi huse
    · rw [hheader]
      exact hu.sizes _ _ hfind
    · rw [hu.files, hfind, Option.map_some, hheader]

variable {g : Handle} {p i : ℕ}

theorem Standing.isOpen (hg : Standing u names t h g p i) :
    u.opened h = some g ∧ t.opened h = some (key g.name, p) := by
  refine ⟨?_, hg.denotes.1⟩
  have hhandle := hg.handle
  unfold Session.handle at hhandle
  cases hopen : u.opened h with
  | none =>
    rw [hopen] at hhandle
    cases hhandle
  | some g' =>
    rw [hopen, Except.ok.injEq] at hhandle
    rw [hhandle]

/-- A call that changes only the position. -/
theorem Stands.setFile (hu : Stands u names t) (hg : Standing u names t h g p i) {q : ℕ}
    (hq : q < 2 ^ 31) :
    Stands (u.setFile h g (g.file.seek q)) names (t.moved h (key g.name) q) := by
  obtain ⟨hopen, hopen'⟩ := hg.isOpen
  refine ⟨hu.inv, hu.holds, hu.files, hu.sizes, ?_, fun h' => ?_⟩
  · rw [Session.setFile, FileStore.moved, List.length_set, List.length_set, hu.length]
  · rw [Session.opened, Session.setFile, FileStore.opened, FileStore.moved, FileStore.join_set hopen,
      FileStore.join_set hopen']
    by_cases hh : h' = h
    · rw [if_pos hh, if_pos hh]
      exact .opened (g := { g with file := g.file.seek q }) hg.find hg.header rfl hq
    · rw [if_neg hh, if_neg hh]
      exact hu.handles h'

theorem Standing.read (hu : Stands u names t) (hg : Standing u names t h g p i) {n : Int32}
    (hsum : g.file.seekPosition + n.toInt < 2 ^ 31) : Answered u t (.read h n) := by
  have hlt := hg.lt
  rw [hg.position] at hsum
  obtain ⟨bytes, hread, htaken⟩ := OpenFile.read_bytes hg.sound hg.position n.toInt hsum hg.lt
    u.fs.disk
  have hlength : (((g.file.hdr.data u.fs.disk).drop p).take n.toInt.toNat).length ≤ n.toInt.toNat :=
    List.length_take_le _ _
  refine ⟨_, _, _, ?_, .read h n.toInt.toNat (key g.name) p _ hg.denotes, names,
    hu.setFile hg (by omega)⟩
  rw [answer, hg.handle, ok_bind, hread, ok_bind]
  dsimp only
  rw [htaken]
  rfl

theorem Standing.seek (hu : Stands u names t) (hg : Standing u names t h g p i) {position : Int32}
    (hposition : 0 ≤ position.toInt) : Answered u t (.seek h position) := by
  have hlt := Int32.toInt_lt position
  refine ⟨_, _, _, ?_, .seek h position.toInt.toNat (key g.name) p _ hg.denotes, names,
    hu.setFile hg (by omega)⟩
  rw [answer, hg.handle, ok_bind, Int.toNat_of_nonneg hposition]
  rfl

theorem Standing.length (hu : Stands u names t) (hg : Standing u names t h g p i) :
    Answered u t (.length h) := by
  refine ⟨_, u, t, ?_, .length h (key g.name) p _ hg.denotes, names, hu⟩
  rw [answer, hg.handle, ok_bind, length_data, Int.toNat_of_nonneg hg.nonneg]
  rfl

theorem Standing.close (hu : Stands u names t) (hg : Standing u names t h g p i) :
    Answered u t (.close h) := by
  obtain ⟨hopen, hopen'⟩ := hg.isOpen
  refine ⟨.done true, { u with handles := u.handles.set h none }, _, ?_,
    .close h (key g.name) p _ hg.denotes, names, hu.inv, hu.holds, hu.files, hu.sizes, ?_,
    fun h' => ?_⟩
  · rw [answer, hg.handle, ok_bind]
    rfl
  · rw [List.length_set, List.length_set, hu.length]
  · rw [Session.opened, FileStore.opened, FileStore.join_set hopen, FileStore.join_set hopen']
    by_cases hh : h' = h
    · rw [if_pos hh, if_pos hh]
      exact .closed
    · rw [if_neg hh, if_neg hh]
      exact hu.handles h'

theorem Stands.restart (hu : Stands u names t) : Answered u t .restart := by
  obtain ⟨fs, hmount, hinv, hdisk⟩ := hu.inv.mount_ok
  refine ⟨.done true, { fs := fs, handles := u.handles.map fun _ => none }, _, ?_, .restart, names,
    hinv, ?_, fun k => ?_, fun k s hs => ?_, ?_, fun h => ?_⟩
  · rw [answer, hmount]
    rfl
  · rw [hdisk]
    exact hu.holds
  · rw [hdisk]
    exact hu.files k
  · rw [hdisk]
    exact hu.sizes k s hs
  · rw [List.length_map, List.length_map, hu.length]
  · rw [Session.opened, FileStore.opened, FileStore.join_map_none, FileStore.join_map_none]
    exact .closed

/-- The bytes of one file change, whatever happens to the positions. -/
theorem Standing.overwritten {u' : Session} {t' : FileStore (List UInt8) numDirEntries}
    (hg : Standing u names t h g p i) (hu' : Stands u' names t') (hfs : u'.fs = u.fs)
    (hfiles : t'.files = t.files) {chunk : List UInt8} {position : ℕ}
    (hdata : g.file.hdr.data d' =
      FileStore.splice (g.file.hdr.data u.fs.disk) position chunk)
    (hothers : ∀ s : ℕ, (s : ℤ) ∉ g.file.hdr.sectors → d' s = u.fs.disk s) :
    Stands { u' with fs := { u.fs with disk := d' } } names { t' with
      files := t.overwritten (key g.name)
        (FileStore.splice (g.file.hdr.data u.fs.disk) position chunk) } := by
  have hinv : Inv u.fs := hfs ▸ hu'.inv
  have hw : Overwritten u.fs i d' := by
    refine ⟨hg.entry, hg.inUse, ?_⟩
    rw [← hg.header]
    exact hothers
  -- a write goes to data sectors, which are no headers
  have hheader : ∀ k s, names.find k = some s → headerAt d' s = headerAt u.fs.disk s := by
    intro k s hfind
    obtain ⟨j, hj, huse, rfl, -⟩ := hu'.entry hfind
    rw [hfs] at huse ⊢
    exact (hw.entry hinv hj).2.2 huse
  refine ⟨hw.inv hinv, ?holds, fun k => ?files, fun k s hs => ?sizes, hu'.length,
    fun h' => ?handles⟩
  case holds =>
    have hholds := hu'.holds
    rw [hfs] at hholds
    exact hholds.congr rfl (hw.table hinv).symm
  case files =>
    have hfound : t.files.find (key g.name) ≠ none := by
      rw [hg.denotes.2]
      exact Option.some_ne_none _
    have hbefore := hu'.files k
    rw [hfs, hfiles] at hbefore
    show (t.overwritten (key g.name) _).find k =
      (names.find k).map fun s => (headerAt d' s).data d'
    rw [FileStore.find_overwritten t _ hfound]
    by_cases hk : k = key g.name
    · rw [if_pos hk, hk, hg.find, Option.map_some, hheader _ _ hg.find, ← hg.header, hdata]
    · rw [if_neg hk, hbefore]
      cases hnames : names.find k with
      | none => rw [Option.map_none, Option.map_none]
      | some s =>
        obtain ⟨j, hj, huse, rfl, hhas⟩ := hu'.entry hnames
        rw [hfs] at huse hhas hnames ⊢
        have hne : j ≠ i := by
          rintro rfl
          exact hk (hhas.2.2.symm.trans hg.has.2.2)
        rw [Option.map_some, Option.map_some, hheader k _ hnames, hw.data_other hinv hj huse hne]
  case sizes =>
    have hsize := hu'.sizes k s hs
    rw [hfs] at hsize
    rw [hheader k s hs]
    exact hsize
  case handles =>
    have hmatches := hu'.handles h'
    rw [hfs] at hmatches
    exact hmatches.kept fun _ _ s hs => ⟨hs, hheader _ s hs⟩

/-- `Write` changes the bytes of one file, and its position. -/
theorem Standing.write (hu : Stands u names t) (hg : Standing u names t h g p i)
    (heap source : Bytes) {n : Int32} (hsum : g.file.seekPosition + n.toInt < 2 ^ 31) :
    Answered u t (.write h heap source n) := by
  have hlt := hg.lt
  rw [hg.position] at hsum
  obtain ⟨d', hwrite, hdata, hothers⟩ := OpenFile.write_bytes hg.sound hg.position n.toInt hsum hg.lt
    u.fs.disk heap source
  have hlength := OpenFile.length_taken n.toInt source
  generalize hq : p + min (OpenFile.taken n.toInt source).length
    ((g.file.hdr.data u.fs.disk).length - p) = q at hwrite
  -- the call is the position that moves, and then the disk that changes
  have hmoved := hu.setFile hg (q := q) (by omega)
  have hstep := FileStore.Step.write h (OpenFile.taken n.toInt source) (key g.name) p _ hg.denotes
  rw [hq] at hstep
  refine ⟨_, { u.setFile h g (g.file.seek q) with fs := { u.fs with disk := d' } }, _, ?_, hstep,
    names, hg.overwritten hmoved rfl rfl hdata hothers⟩
  rw [answer, hg.handle, ok_bind, hwrite, ok_bind]
  rfl

theorem Standing.readAt (hu : Stands u names t) (hg : Standing u names t h g p i)
    {n position : Int32} (hposition : 0 ≤ position.toInt)
    (hsum : position.toInt + n.toInt < 2 ^ 31) : Answered u t (.readAt h n position) := by
  have hcast := Int.toNat_of_nonneg hposition
  obtain ⟨bytes, hread, htaken⟩ := OpenFile.readAt_bytes (p := position.toInt.toNat) hg.sound
    n.toInt (by omega) u.fs.disk
  rw [hcast] at hread
  refine ⟨_, _, _, ?_,
    .readAt h n.toInt.toNat position.toInt.toNat (key g.name) p _ hg.denotes, names, hu⟩
  rw [answer, hg.handle, ok_bind, hread, ok_bind]
  dsimp only
  rw [htaken]
  rfl

theorem Standing.writeAt (hu : Stands u names t) (hg : Standing u names t h g p i)
    (heap source : Bytes) {n position : Int32} (hposition : 0 ≤ position.toInt)
    (hsum : position.toInt + n.toInt < 2 ^ 31) :
    Answered u t (.writeAt h heap source n position) := by
  have hcast := Int.toNat_of_nonneg hposition
  obtain ⟨d', hwrite, hdata, hothers⟩ := OpenFile.writeAt_bytes (p := position.toInt.toNat) hg.sound
    n.toInt (by omega) u.fs.disk heap source
  rw [hcast] at hwrite
  refine ⟨_, { u with fs := { u.fs with disk := d' } }, _, ?_,
    .writeAt h (OpenFile.taken n.toInt source) position.toInt.toNat (key g.name) p _ hg.denotes,
    names, hg.overwritten hu rfl rfl hdata hothers⟩
  rw [answer, hg.handle, ok_bind, hwrite, ok_bind]
  rfl

/-! ## Runs -/

theorem Stands.step (hu : Stands u names t) {c : Call} (hc : u.Proper c) : Answered u t c := by
  cases c with
  | create heap name initialSize => exact hu.create heap name hc.1 hc.2
  | remove heap name => exact hu.remove heap hc
  | openFile heap name => exact hu.openFile heap name
  | read h numBytes =>
    obtain ⟨g, hopen, hsum⟩ := hc
    obtain ⟨p, i, hg⟩ := hu.standing hopen
    exact hg.read hu hsum
  | write h heap source numBytes =>
    obtain ⟨g, hopen, hsum⟩ := hc
    obtain ⟨p, i, hg⟩ := hu.standing hopen
    exact hg.write hu heap source hsum
  | readAt h numBytes position =>
    obtain ⟨hopen, hposition, hsum⟩ := hc
    obtain ⟨g, hopen⟩ := Option.isSome_iff_exists.mp hopen
    obtain ⟨p, i, hg⟩ := hu.standing hopen
    exact hg.readAt hu hposition hsum
  | writeAt h heap source numBytes position =>
    obtain ⟨hopen, hposition, hsum⟩ := hc
    obtain ⟨g, hopen⟩ := Option.isSome_iff_exists.mp hopen
    obtain ⟨p, i, hg⟩ := hu.standing hopen
    exact hg.writeAt hu heap source hposition hsum
  | seek h position =>
    obtain ⟨hopen, hposition⟩ := hc
    obtain ⟨g, hopen⟩ := Option.isSome_iff_exists.mp hopen
    obtain ⟨p, i, hg⟩ := hu.standing hopen
    exact hg.seek hu hposition
  | length h =>
    obtain ⟨g, hopen⟩ := Option.isSome_iff_exists.mp hc
    obtain ⟨p, i, hg⟩ := hu.standing hopen
    exact hg.length hu
  | close h =>
    obtain ⟨g, hopen⟩ := Option.isSome_iff_exists.mp hc
    obtain ⟨p, i, hg⟩ := hu.standing hopen
    exact hg.close hu
  | restart => exact hu.restart

/-- A disk that was just formatted has no files. -/
theorem format_stands (d : Disk) (heap : ℕ → Bytes) : ∃ fs, format d heap = .ok fs ∧
    Stands ⟨fs, []⟩ BoundedMap.empty FileStore.empty := by
  obtain ⟨fs, hformat, hinv⟩ := format_ok d heap
  have hempty : ∀ k, (BoundedMap.empty : BoundedMap (List UInt8) ℤ numDirEntries).find k = none :=
    fun k => Finmap.lookup_empty k
  refine ⟨fs, hformat, hinv, .of_unused rfl (hinv.format_unused hformat), fun k => ?_,
    fun k s hs => ?_, rfl, fun h => .closed⟩
  · rw [hempty, Option.map_none]
    exact Finmap.lookup_empty k
  · rw [hempty] at hs
    cases hs

/-- From a formatted disk, every run of proper calls is answered as a store of at most ten files
would answer it, whatever the memory and the disk had, and also after the machine was started
again. -/
theorem run_refines_store {d : Disk} {heap : ℕ → Bytes} {fs : FileSystem}
    (hformat : format d heap = .ok fs) {calls : List Call}
    (hcalls : Along step Proper ⟨fs, []⟩ calls) :
    ∃ replies t', outputs answer ⟨fs, []⟩ calls = .ok replies ∧
      Allows (fun t (c : Call) => FileStore.Step t c.meaning)
        (FileStore.empty : FileStore (List UInt8) numDirEntries) calls replies t' := by
  obtain ⟨fs', hformat', hstands⟩ := format_stands d heap
  rw [hformat, Except.ok.injEq] at hformat'
  subst hformat'
  have hproj : ∀ u c r u', answer u c = .ok (r, u') → step u c = .ok u' := by
    intro u c r u' hok
    rw [step, hok]
    rfl
  -- every proper call is answered as the store may answer it
  have hsim : ∀ u t c, (∃ names, Stands u names t) → u.Proper c →
      ∃ r u' t', u.answer c = .ok (r, u') ∧ FileStore.Step t c.meaning r t' ∧
        ∃ names, Stands u' names t' := by
    rintro u t c ⟨names, hu⟩ hc
    exact hu.step hc
  obtain ⟨replies, u', t', houtputs, -, hallows, -⟩ := Along.allowed hproj hsim ⟨_, hstands⟩ hcalls
  exact ⟨replies, t', houtputs, hallows⟩

/-- A file of three bytes is written, changed in the middle, read from its second byte on and from
its start, closed, found again after a restart, and removed. -/
def letterCalls : List Call :=
  [.create (fun _ _ => 0) (OpenFile.bufferOf [102]) 3,
    .openFile (fun _ => 0) (OpenFile.bufferOf [102]),
    .write 0 (fun _ => 0) (OpenFile.bufferOf [1, 2, 3, 4]) 4,
    .writeAt 0 (fun _ => 0) (OpenFile.bufferOf [9]) 1 1, .seek 0 1, .read 0 5, .readAt 0 3 0,
    .close 0, .restart,
    .openFile (fun _ => 0) (OpenFile.bufferOf [102]), .length 1, .close 1,
    .remove (fun _ _ => 0) (OpenFile.bufferOf [102])]

theorem run_refines_store_letter : ∃ fs replies t', format (fun _ _ => 0) (fun _ _ => 0) = .ok fs ∧
    outputs answer ⟨fs, []⟩ letterCalls = .ok replies ∧
    Allows (fun t (c : Call) => FileStore.Step t c.meaning)
      (FileStore.empty : FileStore (List UInt8) numDirEntries) letterCalls replies t' := by
  have hcalls : ∃ fs, format (fun _ _ => 0) (fun _ _ => 0) = .ok fs ∧
      Along step Proper ⟨fs, []⟩ letterCalls := by
    decide +kernel
  obtain ⟨fs, hformat, hcalls⟩ := hcalls
  obtain ⟨replies, t', houtputs, hallows⟩ := run_refines_store hformat hcalls
  exact ⟨fs, replies, t', hformat, houtputs, hallows⟩

end Session
end NachOS
