import NachOS.Filesys.Contents
import NachOS.Filesys.DirectoryMap

/-!
# Create that fails, and Remove after Create

`Create` changes copies of the directory and of the bitmap and writes them back at its end, so
that it writes nothing if it fails. `Remove` gives back what `Create` has taken.
-/

namespace NachOS
namespace FileSystem

open PartialRun

/-! ## Refused files -/

/-- Why `Create` fails: the name is there, no sector is free for the header, no entry is free,
or there are fewer free sectors than the file needs once the header has one. -/
def Refused (t : Directory) (m : BitMap) (name : Bytes) (size : ℤ) : Prop :=
  (∃ i, t.Has i (key name)) ∨ m.numClear = 0 ∨ (∀ i < t.tableSize, t.inUse i = true) ∨
    (m.numClear : ℤ) - 1 < divRoundUp size sectorSize

theorem divRoundUp_int32 (size : Int32) : -2 ^ 31 ≤ divRoundUp size.toInt sectorSize ∧
    divRoundUp size.toInt sectorSize < 2 ^ 31 := by
  have hmin := Int32.le_toInt size
  have hmax := Int32.toInt_lt size
  rw [divRoundUp, sectorSize_eq]
  rcases Int.le_total 0 size.toInt with hsize | hsize
  · rw [Int.tdiv_eq_ediv_of_nonneg hsize]
    split
    · omega
    · omega
  · obtain ⟨n, hn⟩ : ∃ n, size.toInt = -n := ⟨-size.toInt, by omega⟩
    rw [hn, Int.neg_tdiv, Int.tdiv_eq_ediv_of_nonneg (by omega)]
    split
    · omega
    · omega

/-- `Allocate` refuses if there are too few sectors, whatever the size. -/
theorem allocate_false_iff (h : FileHeader) (m : BitMap) (size : Int32) :
    (∃ h' m', h.allocate m size.toInt = .ok (false, h', m')) ↔
      m.numClear < divRoundUp size.toInt sectorSize := by
  obtain ⟨hmin, hmax⟩ := divRoundUp_int32 size
  have hnum : ((h.setNumBytes size.toInt).setNumSectors
      (divRoundUp size.toInt sectorSize)).numSectors = divRoundUp size.toInt sectorSize :=
    FileHeader.setNumSectors_numSectors hmin hmax
  rw [FileHeader.allocate]
  dsimp only
  rw [hnum]
  split
  · rename_i hfew
    exact ⟨fun _ => hfew, fun _ => ⟨_, _, rfl⟩⟩
  · rename_i hmany
    refine ⟨?_, fun hfew => absurd hfew hmany⟩
    rintro ⟨h', m', hok⟩
    obtain ⟨⟨h₁, m₁⟩, -, hok⟩ := bind_ok_iff.mp hok
    rw [pure_ok_iff, Prod.mk.injEq] at hok
    cases hok.1

/-- A call of `Create` that is not refused goes on to write. -/
theorem create_false_cases {fs fs' : FileSystem} {heap : ℕ → Bytes} {name : Bytes} {size : ℤ}
    (h : fs.create heap name size = .ok (false, fs')) : fs' = fs ∧
      ∃ t, (Directory.new numDirEntries (heap 0)).fetchFrom fs.disk fs.directoryFile = .ok t ∧
        (t.find name ≠ -1 ∨
          ∃ m, (BitMap.new numSectors).fetchFrom fs.disk fs.freeMapFile = .ok m ∧
            (m.find.1 = none ∨ ∃ b m₁, m.find = (some b, m₁) ∧ ((t.add name b).1 = false ∨
              ∃ hdr m₂, FileHeader.allocate ⟨heap 1⟩ m₁ size = .ok (false, hdr, m₂)))) := by
  unfold create at h
  obtain ⟨t, hdir, h⟩ := bind_ok_iff.mp h
  split at h
  · rename_i hfind
    rw [pure_ok_iff, Prod.mk.injEq] at h
    exact ⟨h.2.symm, t, hdir, .inl hfind⟩
  -- the name is new: the free map is read only now
  obtain ⟨m, hmap, h⟩ := bind_ok_iff.mp h
  cases hfree : m.find with
  | mk found m₁ =>
  rw [hfree] at h
  cases found with
  | none =>
    dsimp only at h
    rw [pure_ok_iff, Prod.mk.injEq] at h
    exact ⟨h.2.symm, t, hdir, .inr ⟨m, hmap, .inl (by rw [hfree])⟩⟩
  | some b =>
  dsimp only at h
  split at h
  · rename_i hadd
    rw [pure_ok_iff, Prod.mk.injEq] at h
    exact ⟨h.2.symm, t, hdir, .inr ⟨m, hmap, .inr ⟨b, m₁, hfree, .inl hadd⟩⟩⟩
  obtain ⟨⟨allocated, hdr, m₂⟩, halloc, h⟩ := bind_ok_iff.mp h
  cases allocated with
  | false =>
    dsimp only at h
    rw [if_pos rfl, pure_ok_iff, Prod.mk.injEq] at h
    exact ⟨h.2.symm, t, hdir, .inr ⟨m, hmap, .inr ⟨b, m₁, hfree, .inr ⟨hdr, m₂, halloc⟩⟩⟩⟩
  | true =>
    -- the header is allocated, and what follows does not return `false`
    dsimp only at h
    rw [if_neg Bool.true_eq_false.mp] at h
    obtain ⟨d₁, -, h⟩ := bind_ok_iff.mp h
    obtain ⟨d₂, -, h⟩ := bind_ok_iff.mp h
    obtain ⟨d₃, -, h⟩ := bind_ok_iff.mp h
    rw [pure_ok_iff, Prod.mk.injEq] at h
    cases h.1

/-- The tests of `Create`, one after the other. -/
theorem create_false {fs : FileSystem} {heap : ℕ → Bytes} {name : Bytes} {size : ℤ}
    {t : Directory} {m : BitMap}
    (hdir : (Directory.new numDirEntries (heap 0)).fetchFrom fs.disk fs.directoryFile = .ok t)
    (hmap : (BitMap.new numSectors).fetchFrom fs.disk fs.freeMapFile = .ok m)
    (h : t.find name ≠ -1 ∨ m.find.1 = none ∨ ∃ b m₁, m.find = (some b, m₁) ∧
      ((t.add name b).1 = false ∨
        ∃ hdr m₂, FileHeader.allocate ⟨heap 1⟩ m₁ size = .ok (false, hdr, m₂))) :
    fs.create heap name size = .ok (false, fs) := by
  unfold create
  rw [hdir, ok_bind]
  split
  · rfl
  rename_i hfind
  rw [hmap, ok_bind]
  rw [or_iff_right hfind] at h
  cases hfree : m.find with
  | mk found m₁ =>
  rw [hfree] at h
  cases found with
  | none => rfl
  | some b =>
  dsimp only
  split
  · rfl
  rename_i hadd
  rcases h with hnone | ⟨b', m₁', heq, hfalse | ⟨hdr, m₂, halloc⟩⟩
  · cases hnone
  · cases heq
    exact absurd hfalse hadd
  · cases heq
    rw [halloc]
    rfl

/-- `Create` with the directory and the bitmap that it reads is refused for one of the four
reasons. -/
theorem create_false_iff {fs : FileSystem} {heap : ℕ → Bytes} {t : Directory} {m : BitMap}
    (hdir : (Directory.new numDirEntries (heap 0)).fetchFrom fs.disk fs.directoryFile = .ok t)
    (hmap : (BitMap.new numSectors).fetchFrom fs.disk fs.freeMapFile = .ok m) (name : Bytes)
    (size : Int32) :
    (∃ fs', fs.create heap name size.toInt = .ok (false, fs')) ↔
      Refused t m name size.toInt := by
  -- the sectors that are left when the header has one
  have hleft : ∀ {b m₁}, m.find = (some b, m₁) → (m₁.numClear : ℤ) = m.numClear - 1 := by
    intro b m₁ hfree
    have hcount := ((BitMap.Taken.nil m).find hfree).numClear
    rw [List.nil_append, List.length_singleton] at hcount
    omega
  constructor
  · rintro ⟨fs', h⟩
    obtain ⟨-, t', hdir', hcases⟩ := create_false_cases h
    cases hdir.symm.trans hdir'
    -- the checks in the order of `Create`: the name, the header's sector, the directory, the data
    rcases hcases with hfind | ⟨m', hmap', hcases⟩
    · refine .inl ?_
      by_contra hnone
      rw [not_exists, ← Directory.findIndex_eq_none_iff] at hnone
      rw [Directory.find, hnone] at hfind
      exact hfind rfl
    cases hmap.symm.trans hmap'
    rcases hcases with hnone | ⟨b, m₁, hfree, hfalse | ⟨hdr, m₂, halloc⟩⟩
    · exact .inr (.inl (BitMap.find_none_numClear (Prod.ext hnone rfl)))
    · by_cases hpresent : ∃ i, t.Has i (key name)
      · exact .inl hpresent
      · refine .inr (.inr (.inl fun i hi => ?_))
        by_contra hunused
        rw [Bool.not_eq_true] at hunused
        rw [not_exists] at hpresent
        have hadd := (Directory.add_fst_iff name b).mpr
          ⟨(Directory.findIndex_eq_none_iff name).mpr hpresent,
            Directory.firstUnused_iff.mpr ⟨i, hi, hunused⟩⟩
        rw [hfalse] at hadd
        cases hadd
    · have hfew := (allocate_false_iff _ _ size).mp ⟨hdr, m₂, halloc⟩
      rw [hleft hfree] at hfew
      exact .inr (.inr (.inr hfew))
  · intro h
    refine ⟨fs, create_false hdir hmap ?_⟩
    cases hfree : m.find with
    | mk found m₁ =>
    cases found with
    | none => exact .inr (.inl rfl)
    | some b =>
    refine .inr (.inr ⟨b, m₁, rfl, ?_⟩)
    -- there is a sector for the header, so one of the later checks fails
    rcases h with ⟨i, hpresent⟩ | hzero | hfull | hfew
    · refine .inl ?_
      rw [← Bool.not_eq_true, Directory.add_fst_iff]
      rintro ⟨hnone, _⟩
      exact (Directory.findIndex_eq_none_iff name).mp hnone i hpresent
    · have hcount := hleft hfree
      omega
    · refine .inl ?_
      rw [← Bool.not_eq_true, Directory.add_fst_iff, Directory.firstUnused_iff]
      rintro ⟨_, i, hi, hunused⟩
      rw [hfull i hi] at hunused
      cases hunused
    · refine .inr ((allocate_false_iff _ _ size).mpr ?_)
      rw [hleft hfree]
      exact hfew

/-- The first entry in use with the name is for a sector. -/
def Found (t : Directory) (name : Bytes) : Prop :=
  ∃ i, t.Has i (key name) ∧ (∀ j < i, ¬ t.Has j (key name)) ∧ t.sector i ≠ -1

theorem find_ne_iff (t : Directory) (name : Bytes) : t.find name ≠ -1 ↔ Found t name := by
  have hindex : ∀ i, t.findIndex name = some i ↔
      t.Has i (key name) ∧ ∀ j < i, ¬ t.Has j (key name) := by
    intro i
    unfold Directory.findIndex Directory.Has
    rw [List.find?_range_eq_some]
    simp only [List.mem_range, Bool.and_eq_true, strncmp_iff_key, Bool.not_eq_true',
      ← Bool.not_eq_true]
    constructor
    · rintro ⟨hi, hlt, hfirst⟩
      exact ⟨⟨hlt, hi⟩, fun j hj hhas => hfirst j hj hhas.2⟩
    · rintro ⟨⟨hlt, hi⟩, hfirst⟩
      exact ⟨hi, hlt, fun j hj hhas => hfirst j hj ⟨hj.trans hlt, hhas⟩⟩
  rw [Directory.find]
  cases hfind : t.findIndex name with
  | none =>
    refine iff_of_false (fun hne => hne rfl) ?_
    rintro ⟨i, hhas, hfirst, -⟩
    rw [(hindex i).mpr ⟨hhas, hfirst⟩] at hfind
    cases hfind
  | some i =>
    constructor
    · exact fun hne => ⟨i, ((hindex i).mp hfind).1, ((hindex i).mp hfind).2, hne⟩
    · rintro ⟨j, hhas, hfirst, hne⟩
      rw [(hindex j).mpr ⟨hhas, hfirst⟩, Option.some.injEq] at hfind
      rwa [← hfind]

/-- In every state of the disk and whatever the memory has: a `Create` that returns `false` has
written nothing. It returns `false` if the name is found in the directory that it reads, or there is
one of the four reasons in this directory and in the bitmap that it reads then, and in no other
case. -/
theorem create_all_or_nothing (fs : FileSystem) (heap : ℕ → Bytes) (name : Bytes) (size : Int32) :
    (∀ fs', fs.create heap name size.toInt = .ok (false, fs') → fs'.disk = fs.disk) ∧
    ((∃ fs', fs.create heap name size.toInt = .ok (false, fs')) ↔
      ∃ t, (Directory.new numDirEntries (heap 0)).fetchFrom fs.disk fs.directoryFile = .ok t ∧
        (Found t name ∨
          ∃ m, (BitMap.new numSectors).fetchFrom fs.disk fs.freeMapFile = .ok m ∧
            Refused t m name size.toInt)) := by
  refine ⟨fun fs' h => by rw [(create_false_cases h).1], ?_, ?_⟩
  · rintro ⟨fs', h⟩
    obtain ⟨-, t, hdir, hfind | ⟨m, hmap, -⟩⟩ := create_false_cases h
    · exact ⟨t, hdir, .inl ((find_ne_iff t name).mp hfind)⟩
    · exact ⟨t, hdir, .inr ⟨m, hmap, (create_false_iff hdir hmap name size).mp ⟨fs', h⟩⟩⟩
  · rintro ⟨t, hdir, hfound | ⟨m, hmap, hrefused⟩⟩
    · -- the bitmap is not read then
      refine ⟨fs, ?_⟩
      rw [create, hdir, ok_bind, if_pos ((find_ne_iff t name).mpr hfound)]
      rfl
    · exact (create_false_iff hdir hmap name size).mpr hrefused

/-! ## Remove after Create -/

section

variable {fs : FileSystem} {name : Bytes} {size : ℤ} {t t' : Directory} {m m' : BitMap}
  {i j b : ℕ} {bits : List ℕ} {hdr : FileHeader} {d' d'' : Disk}

/-- The names on the disk after a `Remove`. -/
theorem Removal.names (h : Inv fs) (hr : Removal fs name t m i d') (hj : j < numDirEntries)
    (x : Bytes) : strncmp ((directoryOn d').name j) x fileNameMaxLen =
      strncmp ((directoryOn fs.disk).name j) x fileNameMaxLen := by
  have htable : Bytes.EqUpTo (t.tableSize * directoryEntrySize) t.table
      (directoryOn fs.disk).table := by
    rw [hr.tableSize]
    exact hr.table
  have hwritten := Directory.name_congr (t := directoryOn d') (i := j)
    (h.table_written (fun _ _ => rfl) hr.written) hj
  rw [strncmp_congr (hwritten.trans (Directory.setInUse_name t i j false))]
  exact strncmp_congr (Directory.name_congr htable (by rw [hr.tableSize]; exact hj)) x

/-- `Remove` of the new name finds its entry. -/
theorem Removal.found_self (h : Inv fs) (hc : Creation fs name size t m i b bits hdr d')
    (hr : Removal { fs with disk := d' } name t' m' j d'') : j = i := by
  have hself := hc.findIndex_self h
  have hfound := hr.found
  have hsame : t'.findIndex name = (directoryOn d').findIndex name := by
    refine Directory.findIndex_congr_table hr.tableSize ?_ name
    rw [hr.tableSize]
    exact hr.table
  rw [hsame, hself] at hfound
  exact (Option.some.inj hfound).symm

/-- The sectors that `Create` has taken are free again. -/
theorem Removal.freeMap (h : Inv fs) (hc : Creation fs name size t m i b bits hdr d')
    (hmin : -2 ^ 31 ≤ size) (hmax : size ≤ maxFileSize)
    (hr : Removal { fs with disk := d' } name t' m' i d'') {s : ℕ} (hs : s < numSectors) :
    (freeMapOn d'').marked s = (freeMapOn fs.disk).marked s := by
  have hinv := hc.inv h hmin hmax
  have hsectors : sectorsOf d' (.entry i) = (b :: bits).map Nat.cast := by
    rw [hc.sectorsOf_eq h hmin hmax, Function.update_self]
  rw [hinv.freeMap_written (fun _ _ => rfl) hr.written hs, Bool.eq_iff_iff, hr.marked s hs]
  show (freeMapOn d').marked s = true ∧ (s : ℤ) ∉ sectorsOf d' (.entry i) ↔ _
  rw [h.freeMap_written (hc.old h) hc.written hs, hc.marked s hs, hsectors,
    List.mem_map_of_injective cast_injective]
  constructor
  · rintro ⟨hmarked, hnot⟩
    exact hmarked.resolve_right hnot
  · intro hmarked
    refine ⟨.inl hmarked, fun hmem => ?_⟩
    rw [(hc.clear s hmem).2] at hmarked
    cases hmarked

/-- The entries in use are those that were. -/
theorem Removal.directory (h : Inv fs) (hc : Creation fs name size t m i b bits hdr d')
    (hmin : -2 ^ 31 ≤ size) (hmax : size ≤ maxFileSize)
    (hr : Removal { fs with disk := d' } name t' m' i d'') (x : Bytes) :
    (directoryOn d'').find x = (directoryOn fs.disk).find x := by
  have hinv := hc.inv h hmin hmax
  have hunused : (directoryOn fs.disk).inUse i = false := by
    obtain ⟨hi, hfalse⟩ := Directory.firstUnused_some hc.unused
    rw [← hfalse]
    refine (Directory.inUse_congr ?_ hi).symm
    rw [hc.tableSize]
    exact hc.table
  have hentries : ∀ j < numDirEntries,
      (directoryOn d'').inUse j = (directoryOn fs.disk).inUse j ∧
      ((directoryOn d'').inUse j = true →
        (directoryOn d'').sector j = (directoryOn fs.disk).sector j ∧
        strncmp ((directoryOn d'').name j) x fileNameMaxLen =
          strncmp ((directoryOn fs.disk).name j) x fileNameMaxLen) := by
    intro j hj
    obtain ⟨huse, hsector⟩ := hr.entries hinv hj
    obtain ⟨huse', hsector'⟩ := hc.entries h hj
    have hname := hr.names hinv hj x
    have hname' := hc.names h hj x
    by_cases hji : j = i
    · rw [if_pos hji] at huse
      rw [huse, hji, hunused]
      exact ⟨rfl, fun hfalse => absurd hfalse Bool.false_ne_true⟩
    · rw [if_neg hji] at huse huse' hsector' hname'
      exact ⟨huse.trans huse', fun _ => ⟨hsector.trans hsector', hname.trans hname'⟩⟩
  have hindex : (directoryOn d'').findIndex x = (directoryOn fs.disk).findIndex x :=
    Directory.findIndex_congr rfl (fun j hj => (hentries j hj).1)
      fun j hj huse => ((hentries j hj).2 huse).2
  unfold Directory.find
  cases hfound : (directoryOn d'').findIndex x with
  | none => rw [← hindex, hfound]
  | some j =>
    obtain ⟨hj, huse⟩ := Directory.findIndex_some hfound
    rw [← hindex, hfound]
    exact ((hentries j hj).2 huse).1

/-- `Remove` undoes `Create`: the bitmap is the same bit for bit, and every name is found where it
was. -/
theorem create_remove (h : Inv fs) {fs' : FileSystem} {heap : ℕ → Bytes} {size : Int32}
    (hmax : size.toInt ≤ maxFileSize)
    (hcreate : fs.create heap name size.toInt = .ok (true, fs')) (heap' : ℕ → Bytes) :
    ∃ fs'', fs'.remove heap' name = .ok (true, fs'') ∧
      (∀ s < numSectors, (freeMapOn fs''.disk).marked s = (freeMapOn fs.disk).marked s) ∧
      ∀ x, (directoryOn fs''.disk).find x = (directoryOn fs.disk).find x := by
  have hmin := Int32.le_toInt size
  rcases h.create_ok heap name hmin hmax with
    hfalse | ⟨t, m, i, b, bits, hdr, d', hc, hcreate'⟩
  · rw [hcreate] at hfalse
    cases hfalse
  rw [hcreate, Except.ok.injEq, Prod.mk.injEq] at hcreate'
  obtain ⟨-, rfl⟩ := hcreate'
  have hinv := hc.inv h hmin hmax
  rcases hinv.remove_ok heap' name with hfalse | ⟨t', m', j, d'', hr, hremove⟩
  · -- the name is found, and its sector is not `-1`
    obtain ⟨hi, -⟩ := hc.sectorsOf_entry
    obtain ⟨u, hdir, husize, hutable⟩ := hinv.fetchDirectory (heap' 0)
    have hutable' : Bytes.EqUpTo (u.tableSize * directoryEntrySize) u.table
        (directoryOn d').table := by
      rw [husize]
      exact hutable
    have hfind : u.find name = b := by
      rw [Directory.find_congr_table husize hutable' name, Directory.find,
        hc.findIndex_self h]
      dsimp only
      rw [(hc.entries h hi).2, if_pos rfl]
    unfold remove at hfalse
    rw [hdir, ok_bind] at hfalse
    dsimp only at hfalse
    rw [hfind, if_neg (by omega)] at hfalse
    obtain ⟨hdr₁, -, hfalse⟩ := bind_ok_iff.mp hfalse
    obtain ⟨m₁, -, hfalse⟩ := bind_ok_iff.mp hfalse
    obtain ⟨m₂, -, hfalse⟩ := bind_ok_iff.mp hfalse
    obtain ⟨m₃, -, hfalse⟩ := bind_ok_iff.mp hfalse
    obtain ⟨d₁, -, hfalse⟩ := bind_ok_iff.mp hfalse
    obtain ⟨d₂, -, hfalse⟩ := bind_ok_iff.mp hfalse
    rw [pure_ok_iff, Prod.mk.injEq] at hfalse
    cases hfalse.1
  · -- the entry that is removed is the one that was made
    cases Removal.found_self h hc hr
    exact ⟨_, hremove, fun s hs => Removal.freeMap h hc hmin hmax hr hs,
      Removal.directory h hc hmin hmax hr⟩

end

/-- A file of 300 bytes on a disk that was just formatted. -/
theorem create_remove_formatted : ∃ fs fs' fs'', format (fun _ _ => 0) (fun _ _ => 0) = .ok fs ∧
    fs.create (fun _ _ => 0) (fun _ => 97) (300 : Int32).toInt = .ok (true, fs') ∧
    fs'.remove (fun _ _ => 0) (fun _ => 97) = .ok (true, fs'') ∧
    (∀ s < numSectors, (freeMapOn fs''.disk).marked s = (freeMapOn fs.disk).marked s) ∧
    ∀ x, (directoryOn fs''.disk).find x = (directoryOn fs.disk).find x := by
  obtain ⟨fs, hformat, hinv⟩ := format_ok (fun _ _ => 0) (fun _ _ => 0)
  have hcreated : ∃ fs, format (fun _ _ => 0) (fun _ _ => 0) = .ok fs ∧
      ∃ r, fs.create (fun _ _ => 0) (fun _ => 97) (300 : Int32).toInt = .ok r ∧ r.1 = true := by
    decide +kernel
  obtain ⟨fs₀, hformat', ⟨done, fs'⟩, hcreate, rfl⟩ := hcreated
  rw [hformat] at hformat'
  cases hformat'
  obtain ⟨fs'', hremove, hmap, hdir⟩ := create_remove hinv (by decide) hcreate fun _ _ => 0
  exact ⟨fs, fs', fs'', hformat, hcreate, hremove, hmap, hdir⟩

end FileSystem
end NachOS
