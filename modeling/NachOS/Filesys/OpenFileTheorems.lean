import NachOS.Filesys.OpenFile
import NachOS.Lib.Run

/-!
# A file is an array of bytes

`ReadAt` and `WriteAt` go through a buffer of whole sectors. For a header with enough sectors,
all of them different, they read and write the bytes of the file, up to its end.
-/

namespace NachOS

open PartialRun

/-! ## Buffers and sectors -/

namespace Disk

/-- A read of a sector of the disk. -/
theorem readSector_natCast (d : Disk) {s : ℕ} (h : s < numSectors) :
    d.readSector s = .ok (d s) := by
  rw [readSector, if_pos (by omega), Int.toNat_natCast]

/-- A write of a sector of the disk. -/
theorem writeSector_natCast (d : Disk) {s : ℕ} (h : s < numSectors) (data : Bytes) :
    d.writeSector s data = .ok (Function.update d s (Bytes.blit (d s) 0 sectorSize data)) := by
  rw [writeSector, if_pos (by omega), Int.toNat_natCast]

end Disk

namespace Buffer

/-- A store into the buffer that fits. -/
theorem store_natCast {b : Buffer} {start n : ℕ} (h : start + n ≤ b.size) (source : Bytes) :
    b.store start n source = .ok { b with bytes := Bytes.blit b.bytes start n source } := by
  rw [store, if_pos (by omega), Int.toNat_natCast, Int.toNat_natCast]

/-- A load from the buffer that is within it. -/
theorem load_natCast {b : Buffer} {start n : ℕ} (h : start + n ≤ b.size) :
    b.load start n = .ok (Bytes.window b.bytes start) := by
  rw [load, if_pos (by omega), Int.toNat_natCast]

end Buffer

/-! ## Headers -/

namespace FileHeader

/-- The header has different sectors of the disk, enough for its bytes. -/
structure Sound (h : FileHeader) : Prop where
  numSectors_nonneg : 0 ≤ h.numSectors
  numSectors_le : h.numSectors ≤ numDirect
  numBytes_le : h.numBytes ≤ h.numSectors * sectorSize
  inRange : ∀ i : ℕ, i < h.numSectors → 0 ≤ h.dataSectors i ∧ h.dataSectors i < NachOS.numSectors
  injective : ∀ i j : ℕ, i < h.numSectors → j < h.numSectors →
    h.dataSectors i = h.dataSectors j → i = j

/-- The place of data sector `i` on the disk. -/
def place (h : FileHeader) (i : ℕ) : ℕ := (h.dataSectors i).toNat

theorem Sound.dataSectors_eq {h : FileHeader} (hs : h.Sound) {i : ℕ} (hi : i < h.numSectors) :
    h.dataSectors i = (h.place i : ℤ) := by
  have := hs.inRange i hi
  rw [place]
  omega

/-- The sectors of a sound header are on the disk. -/
theorem Sound.place_lt {h : FileHeader} (hs : h.Sound) {i : ℕ} (hi : i < h.numSectors) :
    h.place i < NachOS.numSectors := by
  have := hs.inRange i hi
  rw [place]
  omega

/-- No sector of a sound header comes twice. -/
theorem Sound.place_injective {h : FileHeader} (hs : h.Sound) {i j : ℕ} (hi : i < h.numSectors)
    (hj : j < h.numSectors) (heq : h.place i = h.place j) : i = j := by
  have hi' := hs.inRange i hi
  have hj' := hs.inRange j hj
  apply hs.injective i j hi hj
  rw [place, place] at heq
  omega

/-- `ByteToSector` of the start of a sector. -/
theorem byteToSector_ok (h : FileHeader) {i : ℕ} (hi : i < numDirect) :
    h.byteToSector (toInt (i * sectorSize)) = .ok (h.dataSectors i) := by
  rw [numDirect_eq] at hi
  have hint : toInt ((i : ℤ) * sectorSize) = i * sectorSize := by
    apply toInt_of_range
    · rw [sectorSize_eq]
      omega
    · rw [sectorSize_eq]
      omega
  have hdiv : ((i : ℤ) * sectorSize).tdiv sectorSize = i :=
    Int.mul_tdiv_cancel _ (by rw [sectorSize_eq]; omega)
  rw [FileHeader.byteToSector, hint, hdiv, getDataSectors, if_pos (by rw [numDirect_eq]; omega),
    Int.toNat_natCast]

/-- The byte at the start of a sector is in that sector. -/
theorem Sound.byteToSector {h : FileHeader} (hs : h.Sound) {i : ℕ} (hi : i < h.numSectors) :
    h.byteToSector (toInt (i * sectorSize)) = .ok (h.place i : ℤ) := by
  have hle := hs.numSectors_le
  rw [h.byteToSector_ok (by omega), hs.dataSectors_eq hi]

/-- The bytes of a file. -/
def contents (h : FileHeader) (d : Disk) : Bytes := fun k =>
  d (h.place (k / sectorSize)) (k % sectorSize)

theorem contents_eq (h : FileHeader) (d : Disk) (k : ℕ) :
    h.contents d k = d (h.place (k / 128)) (k % 128) := rfl

theorem contents_apply (h : FileHeader) (d : Disk) (i : ℕ) {o : ℕ} (ho : o < sectorSize) :
    h.contents d (i * sectorSize + o) = d (h.place i) o := by
  rw [contents, sectorSize_eq] at *
  rw [show (i * 128 + o) / 128 = i by omega, show (i * 128 + o) % 128 = o by omega]

end FileHeader

/-! ## Reading -/

namespace OpenFile

variable {f : OpenFile} {d : Disk}

/-- The buffer has the bytes of the sectors that were read. -/
theorem readSectors_ok (hs : f.hdr.Sound) {first n : ℕ} (hn : first + n ≤ f.hdr.numSectors)
    (buf : Buffer) (hsize : n * sectorSize ≤ buf.size) :
    ∃ buf', f.readSectors d first n buf = .ok buf' ∧ buf'.size = buf.size ∧
      ∀ k < n * sectorSize, buf'.bytes k = f.hdr.contents d (first * sectorSize + k) := by
  induction n with
  | zero => exact ⟨buf, rfl, rfl, fun k hk => by omega⟩
  | succ n ih =>
    have hsize' : ((n * sectorSize : ℕ) : ℤ) + (sectorSize : ℕ) ≤ buf.size := by
      push_cast at hsize ⊢
      rw [sectorSize_eq] at hsize ⊢
      omega
    obtain ⟨buf', hread, hbuf', hbytes⟩ := ih (by omega) (by push_cast at hsize' ⊢; omega)
    have hsector := hs.byteToSector (i := first + n) (by push_cast; omega)
    have hplace := hs.place_lt (i := first + n) (by push_cast; omega)
    let filled := Bytes.blit buf'.bytes (n * sectorSize) sectorSize (d (f.hdr.place (first + n)))
    refine ⟨{ buf' with bytes := filled }, ?_, hbuf', fun k hk => ?_⟩
    · rw [readSectors, List.range_succ, List.foldlM_append]
      rw [readSectors] at hread
      rw [hread, ok_bind, List.foldlM_cons, ← Int.natCast_add, hsector, ok_bind,
        Disk.readSector_natCast d hplace, ok_bind, ← Int.natCast_mul,
        Buffer.store_natCast (by rw [hbuf']; exact hsize'), ok_bind]
      rfl
    · show Bytes.blit buf'.bytes (n * sectorSize) sectorSize (d (f.hdr.place (first + n))) k = _
      by_cases hkn : k < n * sectorSize
      · rw [Bytes.blit_of_lt hkn]
        exact hbytes k hkn
      · rw [Nat.succ_mul] at hk
        rw [Bytes.blit_of_mem (by omega) (by omega)]
        have hindex : first * sectorSize + k = (first + n) * sectorSize + (k - n * sectorSize) := by
          rw [Nat.add_mul]
          omega
        rw [hindex, FileHeader.contents_apply _ _ _ (by omega)]

/-- The bytes of a request that are below the end of the file. -/
theorem clip_natCast {n p : ℕ} (hlt : p < f.hdr.numBytes) (hsum : p + n < 2 ^ 31)
    (hmax : f.hdr.numBytes < 2 ^ 31) :
    f.clip n p = ((min n (f.hdr.numBytes.toNat - p) : ℕ) : ℤ) := by
  have hsum' : toInt ((p : ℤ) + n) = p + n := toInt_of_range (by omega) (by omega)
  have hrest : toInt (f.hdr.numBytes - p) = f.hdr.numBytes - p :=
    toInt_of_range (by omega) (by omega)
  rw [clip, FileHeader.fileLength, hsum', hrest]
  split
  · omega
  · omega

theorem divRoundDown_natCast (n : ℕ) :
    divRoundDown n sectorSize = ((n / sectorSize : ℕ) : ℤ) := by
  rw [divRoundDown, Int.tdiv_eq_ediv_of_nonneg (by omega)]
  exact (Int.natCast_div n sectorSize).symm

/-- The sector of the last byte of the request. -/
theorem lastSector_natCast {n p : ℕ} (hn : 0 < n) (hsum : p + n < 2 ^ 31) :
    lastSector n p = (((p + n - 1) / sectorSize : ℕ) : ℤ) := by
  have hsum' : toInt ((p : ℤ) + n) = p + n := toInt_of_range (by omega) (by omega)
  have hlast : toInt ((p : ℤ) + n - 1) = ((p + n - 1 : ℕ) : ℤ) := by
    rw [toInt_of_range (by omega) (by omega)]
    omega
  rw [lastSector, hsum', hlast, divRoundDown_natCast]

/-- The `m` bytes at `p` that are below the end of the file are in `count` sectors of it, from
`first` on. -/
structure Spans (f : OpenFile) (m p first count : ℕ) : Prop where
  start : first * sectorSize ≤ p
  start_lt : p < first * sectorSize + sectorSize
  stop : p + m ≤ (first + count) * sectorSize
  stop_gt : (first + count) * sectorSize < p + m + sectorSize
  pos : 0 < m
  count_pos : 0 < count
  le : first + count ≤ f.hdr.numSectors
  length : p + m ≤ f.hdr.numBytes

/-- What `ReadAt` and `WriteAt` compute for a request that starts below the end of the file. -/
theorem request_ok (hs : f.hdr.Sound) {n p : ℕ} (hn : 0 < n) (hlt : p < f.hdr.numBytes)
    (hsum : p + n < 2 ^ 31) : ∃ first count, Spans f (min n (f.hdr.numBytes.toNat - p)) p first count ∧
      f.clip n p = (min n (f.hdr.numBytes.toNat - p) : ℕ) ∧
      divRoundDown p sectorSize = (first : ℕ) ∧
      lastSector (min n (f.hdr.numBytes.toNat - p) : ℕ) p = (first + count - 1 : ℕ) := by
  have hbytes := hs.numBytes_le
  have hdirect := hs.numSectors_le
  rw [sectorSize_eq] at hbytes
  rw [numDirect_eq] at hdirect
  have hmax : f.hdr.numBytes < 2 ^ 31 := by omega
  have hclip := clip_natCast hlt hsum hmax
  generalize hm : min n (f.hdr.numBytes.toNat - p) = m at hclip ⊢
  have hpos : 0 < m := by omega
  have hlength : (p : ℤ) + m ≤ f.hdr.numBytes := by omega
  have hlast := lastSector_natCast (n := m) (p := p) hpos (by omega)
  clear hm hmax hsum hlt
  refine ⟨p / sectorSize, 1 + (p + m - 1) / sectorSize - p / sectorSize, ?_, hclip,
    divRoundDown_natCast p, ?_⟩
  · clear hclip hlast
    constructor
    all_goals
      try rw [sectorSize_eq]
      omega
  · rw [hlast, sectorSize_eq]
    clear hclip hlast
    omega

/-- The request spans the sectors of the header at most. -/
theorem Spans.count_le {m p first count : ℕ} (h : Spans f m p first count) (hs : f.hdr.Sound) :
    first + count ≤ 30 := by
  have hdirect := hs.numSectors_le
  rw [numDirect_eq] at hdirect
  have hle := h.le
  omega

/-- The size of the buffer. -/
theorem Spans.toInt_size {m p first count : ℕ} (h : Spans f m p first count) (hs : f.hdr.Sound) :
    toInt ((count : ℤ) * sectorSize) = (count * sectorSize : ℕ) := by
  have hle := h.count_le hs
  rw [sectorSize_eq, toInt_of_range (by omega) (by omega)]
  omega

theorem Spans.numSectors {m p first count : ℕ} (h : Spans f m p first count) :
    (1 : ℤ) + (first + count - 1 : ℕ) - (first : ℕ) = (count : ℕ) := by
  have hpos := h.count_pos
  omega

/-- `ReadAt` gives the bytes of the file, up to its end. -/
theorem readAt_ok (hs : f.hdr.Sound) {n p : ℕ} (hn : 0 < n) (hlt : p < f.hdr.numBytes)
    (hsum : p + n < 2 ^ 31) :
    ∃ bytes, f.readAt d n p = .ok (((min n (f.hdr.numBytes.toNat - p) : ℕ) : ℤ), bytes) ∧
      ∀ k < min n (f.hdr.numBytes.toNat - p), bytes k = f.hdr.contents d (p + k) := by
  obtain ⟨first, count, hspans, hclip, hfirst, hlast⟩ := request_ok hs hn hlt hsum
  generalize min n (f.hdr.numBytes.toNat - p) = m at hspans hclip hlast ⊢
  have hstart := hspans.start
  have hstop := hspans.stop
  rw [Nat.add_mul] at hstop
  obtain ⟨buf, hread, hsize, hbytes⟩ := readSectors_ok (d := d) hs
    (show first + (count : ℤ) ≤ f.hdr.numSectors by exact_mod_cast hspans.le)
    ⟨(count * sectorSize : ℕ), fun _ => 0⟩ (by simp)
  refine ⟨Bytes.window buf.bytes (p - first * sectorSize), ?_, fun k hk => ?_⟩
  · have hload : buf.load ((p : ℤ) - first * sectorSize) m =
        .ok (Bytes.window buf.bytes (p - first * sectorSize)) := by
      have hoff : (p : ℤ) - first * sectorSize = (p - first * sectorSize : ℕ) := by
        push_cast [hstart]
        rfl
      rw [hoff]
      apply Buffer.load_natCast
      rw [hsize]
      dsimp only
      omega
    rw [readAt, if_neg (by rw [FileHeader.fileLength]; omega), hclip, hfirst]
    dsimp only
    rw [hlast, hspans.numSectors, hspans.toInt_size hs, Buffer.new, if_pos (by omega)]
    simp only [ok_bind, Int.toNat_natCast, hread, hload]
    rfl
  · have hindex : first * sectorSize + (p - first * sectorSize + k) = p + k := by omega
    rw [Bytes.window, hbytes _ (by omega), hindex]

/-! ## Writing -/

/-- Sector `j` of the file is read to `&buf[start]`, as far as it is below the end of the file. -/
theorem readInto_ok (hs : f.hdr.Sound) (buf : Buffer) (start : ℕ) {j : ℕ}
    (hsize : start + sectorSize ≤ buf.size) (hlt : j * sectorSize < f.hdr.numBytes) :
    ∃ buf', f.readInto d buf start j = .ok buf' ∧ buf'.size = buf.size ∧
      (∀ k < sectorSize, j * sectorSize + k < f.hdr.numBytes →
        buf'.bytes (start + k) = f.hdr.contents d (j * sectorSize + k)) ∧
      ∀ k, k < start ∨ start + sectorSize ≤ k → buf'.bytes k = buf.bytes k := by
  have hlength : f.hdr.numBytes ≤ 3840 := by
    have hbytes := hs.numBytes_le
    have hdirect := hs.numSectors_le
    rw [sectorSize_eq] at hbytes
    rw [numDirect_eq] at hdirect
    omega
  rw [sectorSize_eq] at hsize hlt ⊢
  obtain ⟨bytes, hread, hbytes⟩ := readAt_ok (d := d) hs (n := 128) (p := j * 128)
    (by omega) (by exact_mod_cast hlt) (by omega)
  have hint : toInt ((j : ℤ) * (128 : ℕ)) = (j * 128 : ℕ) := by
    rw [toInt_of_range (by omega) (by omega)]
    omega
  have hle : min 128 (f.hdr.numBytes.toNat - j * 128) ≤ 128 := by omega
  have hrest : ∀ k : ℕ, k < 128 → j * 128 + k < f.hdr.numBytes →
      k < min 128 (f.hdr.numBytes.toNat - j * 128) := by omega
  generalize min 128 (f.hdr.numBytes.toNat - j * 128) = m at hread hbytes hle hrest
  refine ⟨⟨buf.size, Bytes.blit buf.bytes start m bytes⟩, ?_, rfl, fun k hk hend => ?_,
    fun k hk => ?_⟩
  · rw [readInto, sectorSize_eq, hint, hread, ok_bind]
    exact Buffer.store_natCast (by omega) bytes
  · have hkm := hrest k hk hend
    dsimp only
    rw [Bytes.blit_of_mem (by omega) (by omega), Nat.add_sub_cancel_left]
    exact hbytes k hkm
  · dsimp only
    rcases hk with hk | hk
    · exact Bytes.blit_of_lt hk
    · exact Bytes.blit_of_ge (by omega)

/-- The sectors that were written have the bytes of the buffer, the others are unchanged. -/
theorem writeSectors_ok (hs : f.hdr.Sound) {first n : ℕ} (hn : first + n ≤ f.hdr.numSectors)
    (buf : Buffer) (hsize : n * sectorSize ≤ buf.size) :
    ∃ d', f.writeSectors d first n buf = .ok d' ∧
      (∀ j < n, ∀ o < sectorSize, d' (f.hdr.place (first + j)) o = buf.bytes (j * sectorSize + o)) ∧
      ∀ s, (∀ j < n, s ≠ f.hdr.place (first + j)) → d' s = d s := by
  induction n with
  | zero => exact ⟨d, rfl, fun j hj => by omega, fun s _ => rfl⟩
  | succ n ih =>
    have hsize' : ((n * sectorSize : ℕ) : ℤ) + (sectorSize : ℕ) ≤ buf.size := by
      push_cast at hsize ⊢
      rw [sectorSize_eq] at hsize ⊢
      omega
    obtain ⟨d', hwrite, hbytes, hothers⟩ := ih (by omega) (by push_cast at hsize' ⊢; omega)
    have hsector := hs.byteToSector (i := first + n) (by push_cast; omega)
    have hplace := hs.place_lt (i := first + n) (by push_cast; omega)
    have hne : ∀ j < n, f.hdr.place (first + j) ≠ f.hdr.place (first + n) := by
      intro j hj heq
      have := hs.place_injective (by push_cast; omega) (by push_cast; omega) heq
      omega
    refine ⟨Function.update d' (f.hdr.place (first + n)) (Bytes.blit (d' (f.hdr.place (first + n))) 0
      sectorSize (Bytes.window buf.bytes (n * sectorSize))), ?_, fun j hj o ho => ?_,
      fun s hs' => ?_⟩
    · rw [writeSectors, List.range_succ, List.foldlM_append]
      rw [writeSectors] at hwrite
      rw [hwrite, ok_bind, List.foldlM_cons, ← Int.natCast_add, hsector, ok_bind,
        ← Int.natCast_mul, Buffer.load_natCast hsize', ok_bind,
        Disk.writeSector_natCast d' hplace, ok_bind]
      rfl
    · by_cases hjn : j = n
      · rw [hjn, Function.update_self, Bytes.blit_of_mem (by omega) (by omega)]
        rfl
      · rw [Function.update_of_ne (hne j (by omega))]
        exact hbytes j (by omega) o ho
    · rw [Function.update_of_ne (hs' n (by omega))]
      exact hothers s fun j hj => hs' j (by omega)

/-- The buffer has the bytes of the file around the `m` bytes at `p`. -/
def Surrounds (f : OpenFile) (d : Disk) (m p first count : ℕ) (buf : Buffer) : Prop :=
  buf.size = (count * sectorSize : ℕ) ∧
    ∀ q < count * sectorSize, first * sectorSize + q < f.hdr.numBytes →
      first * sectorSize + q < p ∨ p + m ≤ first * sectorSize + q →
        buf.bytes q = f.hdr.contents d (first * sectorSize + q)

/-- The first and the last sector are read if parts of them are to be kept. -/
theorem readAround_ok (hs : f.hdr.Sound) {m p first count : ℕ} (hspans : Spans f m p first count)
    (heap : Bytes) :
    ∃ buf₁ buf₂, f.readFirst d ⟨(count * sectorSize : ℕ), heap⟩ p first = .ok buf₁ ∧
      f.readLast d buf₁ m p first (first + count - 1 : ℕ) = .ok buf₂ ∧
      Surrounds f d m p first count buf₂ := by
  have hle := hspans.count_le hs
  obtain ⟨hstart, hstart_lt, hstop, hstop_gt, hpos, hcount, -, hlength⟩ := hspans
  unfold Surrounds readFirst readLast
  rw [sectorSize_eq] at hstart hstart_lt hstop hstop_gt ⊢
  -- the first sector, if the range does not start with it
  obtain ⟨buf₁, hfirst, hsize₁, hbytes₁⟩ : ∃ buf₁,
      (if (p : ℤ) = (first : ℕ) * (128 : ℕ) then .ok ⟨(count * 128 : ℕ), heap⟩
        else f.readInto d ⟨(count * 128 : ℕ), heap⟩ 0 (first : ℕ)) = .ok buf₁ ∧
      buf₁.size = (count * 128 : ℕ) ∧ (p ≠ first * 128 → ∀ k : ℕ, k < 128 →
        first * 128 + k < f.hdr.numBytes →
          buf₁.bytes k = f.hdr.contents d (first * 128 + k)) := by
    by_cases haligned : p = first * 128
    · rw [if_pos (by omega)]
      exact ⟨_, rfl, rfl, fun hne => absurd haligned hne⟩
    · obtain ⟨buf₁, hread, hsize, hbytes, -⟩ := readInto_ok (d := d) hs
        ⟨(count * 128 : ℕ), heap⟩ 0 (j := first) (by rw [sectorSize_eq]; dsimp only; omega)
        (by rw [sectorSize_eq]; omega)
      rw [if_neg (by omega)]
      refine ⟨buf₁, hread, hsize, fun _ k hk hend => ?_⟩
      have hk' := hbytes k (by rw [sectorSize_eq]; exact hk) (by rw [sectorSize_eq]; exact hend)
      rw [Nat.zero_add, sectorSize_eq] at hk'
      exact hk'
  refine ⟨buf₁, ?_⟩
  have hend : toInt ((p : ℤ) + (m : ℕ)) = p + m := toInt_of_range (by omega) (by omega)
  have hlast : toInt ((((first + count - 1 : ℕ) : ℤ) + 1) * (128 : ℕ)) =
      ((first + count) * 128 : ℕ) := by
    rw [toInt_of_range (by omega) (by omega)]
    omega
  have hoff : ((first + count - 1 : ℕ) - (first : ℕ) : ℤ) * (128 : ℕ) =
      ((count - 1) * 128 : ℕ) := by omega
  rw [hend, hlast, hoff]
  -- the last sector, if the range does not end with it and it has not been read
  by_cases hcond : (p : ℤ) + m ≠ ((first + count) * 128 : ℕ) ∧
      (((first : ℕ) : ℤ) ≠ (first + count - 1 : ℕ) ∨ (p : ℤ) = (first : ℕ) * (128 : ℕ))
  · obtain ⟨buf₂, hread, hsize, hbytes, hothers⟩ := readInto_ok (d := d) hs buf₁
      ((count - 1) * 128) (j := first + count - 1)
      (by rw [sectorSize_eq, hsize₁]; omega) (by rw [sectorSize_eq]; omega)
    rw [if_pos hcond]
    refine ⟨buf₂, hfirst, hread, hsize.trans hsize₁, fun q hq hqlen hout => ?_⟩
    rw [sectorSize_eq] at hbytes hothers
    -- a byte before the range is in the first sector, one behind it in the last
    by_cases hq' : q < (count - 1) * 128
    · rw [hothers q (.inl hq')]
      exact hbytes₁ (by omega) q (by omega) hqlen
    · have hk := hbytes (q - (count - 1) * 128) (by omega) (by omega)
      rw [show (count - 1) * 128 + (q - (count - 1) * 128) = q by omega,
        show (first + count - 1) * 128 + (q - (count - 1) * 128) = first * 128 + q by omega] at hk
      exact hk
  · rw [if_neg hcond]
    refine ⟨buf₁, hfirst, rfl, hsize₁, fun q hq hqlen hout => ?_⟩
    exact hbytes₁ (by omega) q (by omega) hqlen

/-- `WriteAt` replaces the bytes of the file, up to its end, and touches no sectors but those
that have them. -/
theorem writeAt_ok (hs : f.hdr.Sound) {n p : ℕ} (hn : 0 < n) (hlt : p < f.hdr.numBytes)
    (hsum : p + n < 2 ^ 31) (heap source : Bytes) :
    ∃ d', f.writeAt d heap source n p =
        .ok (((min n (f.hdr.numBytes.toNat - p) : ℕ) : ℤ), d') ∧
      (∀ k : ℕ, k < f.hdr.numBytes → f.hdr.contents d' k =
        if p ≤ k ∧ k < p + min n (f.hdr.numBytes.toNat - p) then source (k - p)
        else f.hdr.contents d k) ∧
      ∀ s, (∀ i : ℕ, i < f.hdr.numSectors → p < (i + 1) * sectorSize →
        i * sectorSize < p + min n (f.hdr.numBytes.toNat - p) → s ≠ f.hdr.place i) →
        d' s = d s := by
  obtain ⟨first, count, hspans, hclip, hfirst, hlast⟩ := request_ok hs hn hlt hsum
  generalize min n (f.hdr.numBytes.toNat - p) = m at hspans hclip hlast ⊢
  -- the first and the last sector are read first, for the bytes around the range
  obtain ⟨buf₁, buf₂, hread₁, hread₂, hsize, haround⟩ := readAround_ok (d := d) hs hspans heap
  have hstart := hspans.start
  have hstop := hspans.stop
  rw [Nat.add_mul] at hstop
  -- the range itself
  have hoff : (p : ℤ) - (first : ℕ) * sectorSize = (p - first * sectorSize : ℕ) := by
    push_cast [hstart]
    rfl
  have hstore := Buffer.store_natCast (b := buf₂)
    (show ((p - first * sectorSize : ℕ) : ℤ) + (m : ℕ) ≤ buf₂.size by rw [hsize]; omega) source
  obtain ⟨d', hwrite, hwritten, hothers⟩ := writeSectors_ok (d := d) hs
    (show first + (count : ℤ) ≤ f.hdr.numSectors by exact_mod_cast hspans.le)
    ⟨buf₂.size, Bytes.blit buf₂.bytes (p - first * sectorSize) m source⟩ (by rw [hsize]; simp)
  refine ⟨d', ?_, fun k hk => ?_, fun s hs' => ?_⟩
  · rw [writeAt, if_neg (by rw [FileHeader.fileLength]; omega), hclip, hfirst]
    dsimp only
    rw [hlast, hspans.numSectors, hspans.toInt_size hs, Buffer.new, if_pos (by omega), ok_bind,
      hread₁, ok_bind, hread₂, ok_bind, hoff, hstore, ok_bind]
    simp only [Int.toNat_natCast, hwrite, ok_bind]
    rfl
  · have hle := hspans.le
    have hgt := hspans.stop_gt
    have hlength := hspans.length
    -- only arithmetic on the offsets is left
    clear hwrite hstore hread₁ hread₂ hclip hfirst hlast hoff hspans hn hlt hsum
    rw [sectorSize_eq] at hwritten haround hstart hstop hgt
    rw [FileHeader.contents_eq]
    by_cases hin : first ≤ k / 128 ∧ k / 128 < first + count
    · -- a sector that was written
      have hbyte := hwritten (k / 128 - first) (by omega) (k % 128) (by omega)
      rw [show first + (k / 128 - first) = k / 128 by omega,
        show (k / 128 - first) * 128 + k % 128 = k - first * 128 by omega] at hbyte
      rw [hbyte]
      dsimp only
      by_cases hrange : p ≤ k ∧ k < p + m
      · rw [if_pos hrange, Bytes.blit_of_mem (by omega) (by omega)]
        congr 1
        omega
      · -- a byte of these sectors outside the range was read before and is written back
        have hkeep := haround (k - first * 128) (by omega) (by omega) (by omega)
        rw [show first * 128 + (k - first * 128) = k by omega] at hkeep
        rw [if_neg hrange, ← hkeep]
        rcases Nat.lt_or_ge k p with hkp | hkp
        · exact Bytes.blit_of_lt (by omega)
        · exact Bytes.blit_of_ge (by omega)
    · have hbytes := hs.numBytes_le
      rw [sectorSize_eq] at hbytes
      rw [if_neg (by omega), hothers, FileHeader.contents_eq]
      intro j hj heq
      have := hs.place_injective (by omega) (by omega) heq
      omega
  · have hle := hspans.le
    have hgt := hspans.stop_gt
    have hstart_lt := hspans.start_lt
    clear hwrite hstore hread₁ hread₂ hclip hfirst hlast hoff hspans hn hlt hsum
    rw [sectorSize_eq] at hs' hgt hstart hstart_lt
    exact hothers s fun j hj => hs' (first + j) (by omega) (by omega) (by omega)

end OpenFile
end NachOS
