import NachOS.Filesys.Consistency

/-!
# Open files as byte arrays

What `WriteAt` and `ReadAt` mean for a file with a sound header, and for which arguments their
`int` arithmetic stays inside of the buffer and of `dataSectors`. The two guards at the start
of both let negative positions and sums that wrap around through.
-/

namespace NachOS
namespace OpenFile

open PartialRun

variable {f : OpenFile} {d : Disk}

/-! ## Byte arrays -/

/-- How many bytes a request transfers. -/
def transferred (f : OpenFile) (numBytes position : ℤ) : ℤ :=
  max 0 (min numBytes (f.hdr.numBytes - position))

/-- The bytes from `position` on are those of `source`, `n` of them. -/
def overwrite (contents source : Bytes) (position n : ℤ) : Bytes := fun k =>
  if position ≤ k ∧ k < position + n then source (k - position.toNat) else contents k

/-- The bytes of the file after a write, and which sectors have changed. -/
structure Overwrites (f : OpenFile) (d d' : Disk) (source : Bytes) (position n : ℤ) : Prop where
  contents : ∀ k : ℕ, k < f.hdr.numBytes →
    f.hdr.contents d' k = overwrite (f.hdr.contents d) source position n k
  others : ∀ s, (∀ k : ℕ, position ≤ k → k < position + n → s ≠ f.hdr.place (k / sectorSize)) →
    d' s = d s

theorem transferred_eq_zero {numBytes position : ℤ}
    (h : numBytes ≤ 0 ∨ position ≥ f.hdr.fileLength) : f.transferred numBytes position = 0 := by
  rw [FileHeader.fileLength] at h
  rw [transferred]
  omega

/-- A request that is not rejected, in natural numbers. -/
theorem exists_request {numBytes position : ℤ} (hpos : 0 ≤ position)
    (h : ¬ (numBytes ≤ 0 ∨ position ≥ f.hdr.fileLength)) : ∃ n p : ℕ, numBytes = n ∧ position = p ∧
      0 < n ∧ p < f.hdr.numBytes ∧
      f.transferred numBytes position = (min n (f.hdr.numBytes.toNat - p) : ℕ) := by
  rw [FileHeader.fileLength] at h
  refine ⟨numBytes.toNat, position.toNat, by omega, by omega, by omega, by omega, ?_⟩
  rw [transferred]
  omega

theorem readAt_contents (hs : f.hdr.Sound) {numBytes position : ℤ} (hpos : 0 ≤ position)
    (hsum : position + numBytes < 2 ^ 31) :
    ∃ bytes, f.readAt d numBytes position = .ok (f.transferred numBytes position, bytes) ∧
      ∀ k : ℕ, k < f.transferred numBytes position →
        bytes k = f.hdr.contents d (position.toNat + k) := by
  by_cases hrejected : numBytes ≤ 0 ∨ position ≥ f.hdr.fileLength
  · refine ⟨fun _ => 0, ?_, fun k hk => ?_⟩
    · rw [readAt, if_pos hrejected, transferred_eq_zero hrejected]
    · rw [transferred_eq_zero hrejected] at hk
      omega
  · obtain ⟨n, p, rfl, rfl, hn, hlt, htransferred⟩ := exists_request hpos hrejected
    rw [htransferred]
    obtain ⟨bytes, hread, hbytes⟩ := readAt_ok (d := d) hs hn hlt (by omega)
    refine ⟨bytes, hread, fun k hk => ?_⟩
    rw [Int.toNat_natCast]
    exact hbytes k (by omega)

theorem writeAt_overwrites (hs : f.hdr.Sound) {numBytes position : ℤ} (hpos : 0 ≤ position)
    (hsum : position + numBytes < 2 ^ 31) (d : Disk) (heap source : Bytes) :
    ∃ d', f.writeAt d heap source numBytes position =
        .ok (f.transferred numBytes position, d') ∧
      Overwrites f d d' source position (f.transferred numBytes position) := by
  by_cases hrejected : numBytes ≤ 0 ∨ position ≥ f.hdr.fileLength
  · rw [transferred_eq_zero hrejected]
    refine ⟨d, ?_, fun k hk => ?_, fun s _ => rfl⟩
    · rw [writeAt, if_pos hrejected]
    · rw [overwrite, if_neg (by omega)]
  · obtain ⟨n, p, rfl, rfl, hn, hlt, htransferred⟩ := exists_request hpos hrejected
    rw [htransferred]
    obtain ⟨d', hwrite, hbytes, hothers⟩ := writeAt_ok (d := d) hs hn hlt (by omega) heap source
    rw [sectorSize_eq] at hothers
    have hm : (p : ℤ) + (min n (f.hdr.numBytes.toNat - p) : ℕ) ≤ f.hdr.numBytes := by omega
    have hm' : 0 < min n (f.hdr.numBytes.toNat - p) := by omega
    clear htransferred hrejected
    generalize min n (f.hdr.numBytes.toNat - p) = m at hwrite hbytes hothers hm hm'
    refine ⟨d', hwrite, fun k hk => ?_, fun s hs' => ?_⟩
    · rw [hbytes k hk, overwrite, Int.toNat_natCast]
      by_cases hin : p ≤ k ∧ k < p + m
      · rw [if_pos hin, if_pos (by omega)]
      · rw [if_neg hin, if_neg (by omega)]
    · -- a sector of the range has a byte of it
      refine hothers s fun i hi hstart hstop => ?_
      rcases Nat.le_total p (i * 128) with hle | hle
      · have hk := hs' (i * 128) (by omega) (by omega)
        rw [sectorSize_eq, show i * 128 / 128 = i by omega] at hk
        exact hk
      · have hk := hs' p (by omega) (by omega)
        rw [sectorSize_eq, show p / 128 = i by omega] at hk
        exact hk

/-- `WriteAt` replaces a range of the bytes, as far as it is below the end of the file, and
`ReadAt` then reads any range of the bytes that result. -/
theorem writeAt_readAt (hs : f.hdr.Sound) {numBytes position : ℤ} (hpos : 0 ≤ position)
    (hsum : position + numBytes < 2 ^ 31) (d : Disk) (heap source : Bytes) :
    ∃ d', f.writeAt d heap source numBytes position =
        .ok (f.transferred numBytes position, d') ∧
      Overwrites f d d' source position (f.transferred numBytes position) ∧
      ∀ numBytes' position', 0 ≤ position' → position' + numBytes' < 2 ^ 31 →
        ∃ bytes, f.readAt d' numBytes' position' =
            .ok (f.transferred numBytes' position', bytes) ∧
          ∀ k : ℕ, k < f.transferred numBytes' position' →
            bytes k = overwrite (f.hdr.contents d) source position
              (f.transferred numBytes position) (position'.toNat + k) := by
  obtain ⟨d', hwrite, hoverwrites⟩ := writeAt_overwrites hs hpos hsum d heap source
  refine ⟨d', hwrite, hoverwrites, fun numBytes' position' hpos' hsum' => ?_⟩
  -- a read gives the contents that the write has left
  obtain ⟨bytes, hread, hbytes⟩ := readAt_contents (d := d') hs hpos' hsum'
  refine ⟨bytes, hread, fun k hk => ?_⟩
  rw [hbytes k hk]
  apply hoverwrites.contents
  rw [transferred] at hk
  omega

/-- A write over the end of the directory file of a disk that was just formatted. -/
theorem writeAt_readAt_formatted : ∃ fs, FileSystem.format (fun _ _ => 0) (fun _ _ => 0) = .ok fs ∧
    ∃ d', fs.directoryFile.writeAt fs.disk (fun _ => 0) (fun _ => 7) 100 150 =
        .ok (fs.directoryFile.transferred 100 150, d') ∧
      Overwrites fs.directoryFile fs.disk d' (fun _ => 7) 150
        (fs.directoryFile.transferred 100 150) := by
  obtain ⟨fs, hformat, hinv⟩ := FileSystem.format_ok (fun _ _ => 0) (fun _ _ => 0)
  obtain ⟨d', hwrite, hoverwrites, -⟩ := writeAt_readAt hinv.directorySound
    (show (0 : ℤ) ≤ 150 by decide) (show (150 : ℤ) + 100 < 2 ^ 31 by decide) fs.disk
    (fun _ => 0) fun _ => 7
  exact ⟨fs, hformat, d', hwrite, hoverwrites⟩

/-! ## The arithmetic of the arguments -/

/-- The request is rejected with `0`. -/
def Rejected (f : OpenFile) (numBytes position : ℤ) : Prop :=
  numBytes ≤ 0 ∨ position ≥ f.hdr.fileLength

/-- An index that is out of range, of the buffer or of `dataSectors`. -/
def OutOfRange (e : Fault) : Prop := e = .buffer ∨ e = .dataSectors

/-- The sectors of a request, the size of the buffer, and what is copied from it or to it. -/
structure InRange (f : OpenFile) (numBytes position : ℤ) : Prop where
  first_nonneg : 0 ≤ divRoundDown position sectorSize
  first_le_last : divRoundDown position sectorSize ≤
    lastSector (f.clip numBytes position) position
  last_lt : lastSector (f.clip numBytes position) position < f.hdr.numSectors
  last_direct : lastSector (f.clip numBytes position) position < numDirect
  size_pos : 0 < toInt ((1 + lastSector (f.clip numBytes position) position
    - divRoundDown position sectorSize) * sectorSize)
  copied : 0 ≤ position - divRoundDown position sectorSize * sectorSize ∧
    0 ≤ f.clip numBytes position ∧
    position - divRoundDown position sectorSize * sectorSize + f.clip numBytes position ≤
      toInt ((1 + lastSector (f.clip numBytes position) position
        - divRoundDown position sectorSize) * sectorSize)
  /-- The indices of the loops and of the calls of `ReadAt` in `WriteAt` too. -/
  read : ∀ e d, OutOfRange e → Avoids e (f.readAt d numBytes position)
  write : ∀ e d heap source, OutOfRange e → Avoids e (f.writeAt d heap source numBytes position)

section

variable {e : Fault}

theorem readSector_avoids (he : OutOfRange e) (d : Disk) (sector : ℤ) :
    Avoids e (d.readSector sector) := by
  unfold Disk.readSector
  split
  · exact .ok e _
  · refine .error ?_
    rcases he with rfl | rfl
    · decide
    · decide

theorem writeSector_avoids (he : OutOfRange e) (d : Disk) (sector : ℤ) (data : Bytes) :
    Avoids e (d.writeSector sector data) := by
  unfold Disk.writeSector
  split
  · exact .ok e _
  · refine .error ?_
    rcases he with rfl | rfl
    · decide
    · decide

theorem readSectors_avoids (he : OutOfRange e) {first n : ℕ} (hn : first + n ≤ numDirect)
    (buf : Buffer) (hsize : ((n * sectorSize : ℕ) : ℤ) ≤ buf.size) :
    Avoids e (f.readSectors d first n buf) ∧
      ∀ buf', f.readSectors d first n buf = .ok buf' → buf'.size = buf.size := by
  induction n with
  | zero =>
    refine ⟨.ok e buf, fun buf' h => ?_⟩
    cases h
    rfl
  | succ n ih =>
    have hsize' : ((n * sectorSize : ℕ) : ℤ) + (sectorSize : ℕ) ≤ buf.size := by
      push_cast at hsize ⊢
      rw [sectorSize_eq] at hsize ⊢
      omega
    obtain ⟨havoids, hok⟩ := ih (by omega) (by omega)
    have hunfold : f.readSectors d first (n + 1) buf = (f.readSectors d first n buf >>= fun buf => do
        let data ← d.readSector (f.hdr.dataSectors (first + n))
        buf.store (n * sectorSize : ℕ) (sectorSize : ℕ) data) := by
      have hsector := f.hdr.byteToSector_ok (i := first + n) (by omega)
      rw [readSectors, readSectors, List.range_succ, List.foldlM_append]
      refine bind_congr fun buf => ?_
      simp only [List.foldlM_cons, List.foldlM_nil, bind_pure]
      rw [← Int.natCast_add, hsector, ok_bind, Int.natCast_mul]
    rw [hunfold]
    constructor
    · refine havoids.bind fun buf' hbuf' => ?_
      refine (readSector_avoids he d _).bind fun data _ => ?_
      rw [Buffer.store_natCast (by rw [hok buf' hbuf']; exact hsize')]
      exact .ok e _
    · intro buf'' h
      obtain ⟨buf', hbuf', h⟩ := bind_ok_iff.mp h
      obtain ⟨data, -, h⟩ := bind_ok_iff.mp h
      rw [Buffer.store_natCast (by rw [hok buf' hbuf']; exact hsize'), Except.ok.injEq] at h
      rw [← h]
      exact hok buf' hbuf'

theorem writeSectors_avoids (he : OutOfRange e) {first n : ℕ} (hn : first + n ≤ numDirect)
    (buf : Buffer) (hsize : ((n * sectorSize : ℕ) : ℤ) ≤ buf.size) (d : Disk) :
    Avoids e (f.writeSectors d first n buf) := by
  induction n with
  | zero => exact .ok e d
  | succ n ih =>
    have hsize' : ((n * sectorSize : ℕ) : ℤ) + (sectorSize : ℕ) ≤ buf.size := by
      push_cast at hsize ⊢
      rw [sectorSize_eq] at hsize ⊢
      omega
    have hsector := f.hdr.byteToSector_ok (i := first + n) (by omega)
    rw [writeSectors, List.range_succ, List.foldlM_append]
    refine Avoids.bind (ih (by omega) (by omega)) fun d' _ => ?_
    simp only [List.foldlM_cons, List.foldlM_nil, bind_pure]
    rw [← Int.natCast_add, hsector, ok_bind, ← Int.natCast_mul, Buffer.load_natCast hsize', ok_bind]
    exact writeSector_avoids he d' _ _

/-- What the two functions compute for a request that starts below the end of the file, and the
size of the buffer if the file has no more sectors than `NumDirect`. -/
theorem request_eq {n p : ℕ} (hn : 0 < n) (hlt : p < f.hdr.numBytes) (hsum : p + n < 2 ^ 31)
    (hfit : p + min n (f.hdr.numBytes.toNat - p) ≤ numDirect * sectorSize) :
    ∃ first count : ℕ, first * sectorSize ≤ p ∧
      p + min n (f.hdr.numBytes.toNat - p) ≤ (first + count) * sectorSize ∧ 0 < count ∧
      first + count ≤ numDirect ∧
      (first + count - 1) * sectorSize < p + min n (f.hdr.numBytes.toNat - p) ∧
      f.clip n p = (min n (f.hdr.numBytes.toNat - p) : ℕ) ∧
      divRoundDown p sectorSize = (first : ℕ) ∧
      lastSector (min n (f.hdr.numBytes.toNat - p) : ℕ) p = (first + count - 1 : ℕ) ∧
      toInt ((1 + ((first + count - 1 : ℕ) : ℤ) - (first : ℕ)) * sectorSize) =
        (count * sectorSize : ℕ) := by
  have hclip := clip_natCast hlt hsum (Bytes.int_bounds f.hdr.bytes 0).2
  have hm : 0 < min n (f.hdr.numBytes.toNat - p) := by omega
  have hm' : p + min n (f.hdr.numBytes.toNat - p) < 2 ^ 31 := by omega
  have hlast := lastSector_natCast hm hm'
  generalize min n (f.hdr.numBytes.toNat - p) = m at *
  clear hlt hsum hn
  rw [sectorSize_eq, numDirect_eq] at hfit
  refine ⟨p / sectorSize, 1 + (p + m - 1) / sectorSize - p / sectorSize, ?_, ?_, ?_, ?_, ?_, hclip,
    divRoundDown_natCast p, ?_, ?_⟩
  · rw [sectorSize_eq]
    omega
  · rw [sectorSize_eq]
    omega
  · rw [sectorSize_eq]
    omega
  · rw [sectorSize_eq, numDirect_eq]
    omega
  · rw [sectorSize_eq]
    omega
  · rw [hlast, sectorSize_eq]
    clear hlast hclip
    omega
  · clear hlast hclip
    rw [sectorSize_eq, toInt_of_range (by omega) (by omega)]
    omega

theorem readAt_avoids (he : OutOfRange e) {n p : ℕ} (hn : 0 < n) (hlt : p < f.hdr.numBytes)
    (hsum : p + n < 2 ^ 31)
    (hfit : p + min n (f.hdr.numBytes.toNat - p) ≤ numDirect * sectorSize) (d : Disk) :
    Avoids e (f.readAt d n p) ∧ ∀ r, f.readAt d n p = .ok r →
      r.1 = (min n (f.hdr.numBytes.toNat - p) : ℕ) := by
  have hnot : ¬ ((n : ℤ) ≤ 0 ∨ (p : ℤ) ≥ f.hdr.fileLength) := by
    rw [FileHeader.fileLength]
    omega
  obtain ⟨first, count, hstart, hstop, hcount, hdirect, -, hclip, hfirst, hlast, hsize⟩ :=
    request_eq hn hlt hsum hfit
  generalize min n (f.hdr.numBytes.toNat - p) = m at *
  have hnum : (1 + ((first + count - 1 : ℕ) : ℤ) - (first : ℕ)).toNat = count := by
    clear hclip hfirst hlast hsize
    omega
  -- the buffer holds the sectors from the first to the last, and so the bytes asked for
  have hroom : ((p - first * sectorSize : ℕ) : ℤ) + (m : ℕ) ≤ (count * sectorSize : ℕ) := by
    clear hclip hfirst hlast hsize
    rw [sectorSize_eq] at *
    omega
  have hoff : (p : ℤ) - (first : ℕ) * sectorSize = (p - first * sectorSize : ℕ) := by
    push_cast [hstart]
    rfl
  obtain ⟨havoids, hok⟩ := readSectors_avoids (f := f) (d := d) he hdirect
    ⟨(count * sectorSize : ℕ), fun _ => 0⟩ le_rfl
  rw [readAt, if_neg hnot, hclip, hfirst]
  dsimp only
  rw [hlast, hsize, hnum, Buffer.new, if_pos (Int.natCast_nonneg _), ok_bind, hoff]
  have hload : ∀ buf', f.readSectors d first count ⟨(count * sectorSize : ℕ), fun _ => 0⟩ =
      .ok buf' → buf'.load (p - first * sectorSize : ℕ) m =
        .ok (Bytes.window buf'.bytes (p - first * sectorSize)) := by
    intro buf' hbuf'
    apply Buffer.load_natCast
    rw [hok buf' hbuf']
    exact hroom
  constructor
  · refine havoids.bind fun buf' hbuf' => ?_
    rw [hload buf' hbuf', ok_bind]
    exact .pure e _
  · intro r hr
    obtain ⟨buf', hbuf', hr⟩ := bind_ok_iff.mp hr
    rw [hload buf' hbuf', ok_bind, pure_ok_iff] at hr
    rw [← hr]

/-- A call of `ReadAt` for one sector, of which a byte is below the end of the file. -/
theorem readInto_avoids (he : OutOfRange e) (buf : Buffer) (start : ℕ) {j : ℕ}
    (hsize : (start : ℤ) + sectorSize ≤ buf.size) (hj : j < numDirect)
    (hlt : j * sectorSize < f.hdr.numBytes) :
    Avoids e (f.readInto d buf start j) ∧
      ∀ buf', f.readInto d buf start j = .ok buf' → buf'.size = buf.size := by
  rw [sectorSize_eq] at hsize hlt
  rw [numDirect_eq] at hj
  obtain ⟨havoids, hok⟩ := readAt_avoids (f := f) he (n := 128) (p := j * 128) (by omega)
    (by exact_mod_cast hlt) (by omega) (by rw [numDirect_eq, sectorSize_eq]; omega) d
  have hint : toInt ((j : ℤ) * (128 : ℕ)) = (j * 128 : ℕ) := by
    rw [toInt_of_range (by omega) (by omega)]
    omega
  rw [readInto, sectorSize_eq, hint]
  have hstore : ∀ r, f.readAt d (128 : ℕ) (j * 128 : ℕ) = .ok r → buf.store start r.1 r.2 =
      .ok ⟨buf.size, Bytes.blit buf.bytes start (min 128 (f.hdr.numBytes.toNat - j * 128)) r.2⟩ := by
    intro r hr
    rw [hok r hr]
    exact Buffer.store_natCast (by omega) r.2
  constructor
  · refine havoids.bind fun r hr => ?_
    change Avoids e (buf.store start r.1 r.2)
    rw [hstore r hr]
    exact .ok e _
  · intro buf' h
    obtain ⟨r, hr, h⟩ := bind_ok_iff.mp h
    change buf.store start r.1 r.2 = .ok buf' at h
    rw [hstore r hr, Except.ok.injEq] at h
    rw [← h]

/-- The calls of `ReadAt` before the bytes are copied. -/
theorem readAround_avoids (he : OutOfRange e) {m p first count : ℕ} (hcount : 0 < count)
    (hdirect : first + count ≤ numDirect) (hlt : first * sectorSize < f.hdr.numBytes)
    (hlt' : ((first + count - 1) * sectorSize : ℕ) < f.hdr.numBytes) (buf : Buffer)
    (hsize : ((count * sectorSize : ℕ) : ℤ) ≤ buf.size) :
    (Avoids e (f.readFirst d buf p first) ∧
      ∀ buf', f.readFirst d buf p first = .ok buf' → buf'.size = buf.size) ∧
    Avoids e (f.readLast d buf m p first (first + count - 1 : ℕ)) ∧
      ∀ buf', f.readLast d buf m p first (first + count - 1 : ℕ) = .ok buf' →
        buf'.size = buf.size := by
  have hsame : Avoids e (.ok buf : Except Fault Buffer) ∧
      ∀ buf', (.ok buf : Except Fault Buffer) = .ok buf' → buf'.size = buf.size := by
    refine ⟨.ok e buf, fun buf' h => ?_⟩
    cases h
    rfl
  constructor
  · unfold readFirst
    split
    · exact hsame
    · refine readInto_avoids he buf 0 ?_ (by omega) hlt
      rw [sectorSize_eq] at hsize ⊢
      omega
  · have hoff : (((first + count - 1 : ℕ) : ℤ) - (first : ℕ)) * sectorSize =
        ((count - 1) * sectorSize : ℕ) := by
      rw [sectorSize_eq]
      omega
    unfold readLast
    rw [hoff]
    split
    · refine readInto_avoids he buf ((count - 1) * sectorSize) ?_ (by omega) (by exact_mod_cast hlt')
      rw [sectorSize_eq] at hsize ⊢
      omega
    · exact hsame

theorem writeAt_avoids (he : OutOfRange e) {n p : ℕ} (hn : 0 < n) (hlt : p < f.hdr.numBytes)
    (hsum : p + n < 2 ^ 31)
    (hfit : p + min n (f.hdr.numBytes.toNat - p) ≤ numDirect * sectorSize) (d : Disk)
    (heap source : Bytes) : Avoids e (f.writeAt d heap source n p) := by
  have hnot : ¬ ((n : ℤ) ≤ 0 ∨ (p : ℤ) ≥ f.hdr.fileLength) := by
    rw [FileHeader.fileLength]
    omega
  have hle : (p : ℤ) + (min n (f.hdr.numBytes.toNat - p) : ℕ) ≤ f.hdr.numBytes := by omega
  obtain ⟨first, count, hstart, hstop, hcount, hdirect, hend, hclip, hfirst, hlast, hsize⟩ :=
    request_eq hn hlt hsum hfit
  generalize min n (f.hdr.numBytes.toNat - p) = m at *
  have hnum : (1 + ((first + count - 1 : ℕ) : ℤ) - (first : ℕ)).toNat = count := by
    clear hclip hfirst hlast hsize hstart hstop hend hfit
    omega
  -- the bytes of the request lie in the sectors from the first to the last
  have hroom : ((p - first * sectorSize : ℕ) : ℤ) + (m : ℕ) ≤ (count * sectorSize : ℕ) := by
    clear hclip hfirst hlast hsize
    rw [sectorSize_eq] at *
    omega
  have hfirst_lt : (first : ℤ) * sectorSize < f.hdr.numBytes := by
    clear hclip hfirst hlast hsize
    rw [sectorSize_eq] at *
    omega
  have hlast_lt : (((first + count - 1) * sectorSize : ℕ) : ℤ) < f.hdr.numBytes := by
    clear hclip hfirst hlast hsize
    rw [sectorSize_eq] at *
    omega
  have hoff : (p : ℤ) - (first : ℕ) * sectorSize = (p - first * sectorSize : ℕ) := by
    push_cast [hstart]
    rfl
  rw [writeAt, if_neg hnot, hclip, hfirst]
  dsimp only
  rw [hlast, hsize, hnum, Buffer.new, if_pos (Int.natCast_nonneg _), ok_bind, hoff]
  obtain ⟨⟨havoids, hok⟩, -⟩ := readAround_avoids (f := f) (d := d) (m := m) (p := p) he hcount
    hdirect hfirst_lt hlast_lt ⟨(count * sectorSize : ℕ), heap⟩ le_rfl
  refine havoids.bind fun buf₁ hbuf₁ => ?_
  have hsize₁ := hok buf₁ hbuf₁
  obtain ⟨-, havoids, hok⟩ := readAround_avoids (f := f) (d := d) (m := m) (p := p) he hcount
    hdirect hfirst_lt hlast_lt buf₁ (by rw [hsize₁])
  refine havoids.bind fun buf₂ hbuf₂ => ?_
  have hsize₂ := hok buf₂ hbuf₂
  rw [hsize₁] at hsize₂
  rw [Buffer.store_natCast (by rw [hsize₂]; exact hroom), ok_bind]
  -- what is left is to write the buffer back, sector by sector
  refine Avoids.bind (writeSectors_avoids he hdirect _ ?_ d) fun d' _ => .pure e _
  exact hsize₂.ge

end

/-- The request is rejected, or its range is computed without an overflow and lies in the sectors
of the file. -/
def Accepted (f : OpenFile) (numBytes position : ℤ) : Prop :=
  f.Rejected numBytes position ∨
    (0 ≤ position ∧ position + numBytes < 2 ^ 31 ∧
      position + min numBytes (f.hdr.numBytes - position) ≤ f.hdr.numSectors * sectorSize ∧
      position + min numBytes (f.hdr.numBytes - position) ≤ numDirect * sectorSize)

theorem inRange_of_accepted {numBytes position : ℤ} (hrejected : ¬ f.Rejected numBytes position)
    (h : f.Accepted numBytes position) : InRange f numBytes position := by
  obtain ⟨hpos, hsum, hsectors, hdirect⟩ := h.resolve_left hrejected
  obtain ⟨n, p, rfl, rfl, hn, hlt, -⟩ := exists_request hpos hrejected
  rw [sectorSize_eq] at hsectors hdirect
  rw [numDirect_eq] at hdirect
  -- the part of the request that is in the file is in the sectors the header has
  have hfit : p + min n (f.hdr.numBytes.toNat - p) ≤ numDirect * sectorSize := by
    rw [numDirect_eq, sectorSize_eq]
    omega
  have hsectors' : ((p + min n (f.hdr.numBytes.toNat - p) : ℕ) : ℤ) ≤ f.hdr.numSectors * 128 := by
    omega
  have hsum' : p + n < 2 ^ 31 := by omega
  have hread := fun e d he => (readAt_avoids (e := e) he hn hlt hsum' hfit d).1
  have hwrite := fun e d heap source he =>
    writeAt_avoids (e := e) he hn hlt hsum' hfit d heap source
  obtain ⟨first, count, hstart, hstop, hcount, hdirect', hend, hclip, hfirst, hlast, hsize⟩ :=
    request_eq hn hlt hsum' hfit
  clear hrejected hlt hdirect hsectors h hfit hpos hsum
  generalize min n (f.hdr.numBytes.toNat - p) = m at *
  rw [sectorSize_eq] at hstart hstop hend
  exact {
    first_nonneg := by
      rw [hfirst]
      exact Int.natCast_nonneg first
    first_le_last := by
      rw [hclip, hlast, hfirst]
      clear hclip hfirst hlast hsize
      omega
    last_lt := by
      rw [hclip, hlast]
      clear hclip hfirst hlast hsize
      omega
    last_direct := by
      rw [hclip, hlast]
      clear hclip hfirst hlast hsize
      omega
    size_pos := by
      rw [hclip, hlast, hfirst, hsize, sectorSize_eq]
      clear hclip hfirst hlast hsize
      omega
    copied := by
      rw [hclip, hlast, hfirst, hsize, sectorSize_eq]
      clear hclip hfirst hlast hsize
      omega
    read := hread
    write := hwrite }

/-- A negative position gives a negative index into the buffer. -/
theorem InRange.position_nonneg {numBytes position : ℤ} (h : InRange f numBytes position) :
    0 ≤ position := by
  have hfirst := h.first_nonneg
  have hcopied := h.copied.1
  rw [sectorSize_eq] at hfirst hcopied
  have hmul := Int.mul_nonneg hfirst (show (0 : ℤ) ≤ (128 : ℕ) by omega)
  omega

/-- If the sum wraps around, `numBytes` is not clipped and the last sector is before the first
one or beyond `NumDirect`. -/
theorem InRange.no_overflow {numBytes position : ℤ} (h : InRange f numBytes position)
    (hrejected : ¬ f.Rejected numBytes position) (hn : numBytes < 2 ^ 31) (hp : position < 2 ^ 31) :
    position + numBytes < 2 ^ 31 := by
  by_contra hover
  have hpos := h.position_nonneg
  rw [Rejected, FileHeader.fileLength] at hrejected
  have hwrap : toInt (position + numBytes) = position + numBytes - 2 ^ 32 := by
    unfold toInt
    omega
  have hclip : f.clip numBytes position = numBytes := by
    rw [clip, hwrap, if_neg (by rw [FileHeader.fileLength]; omega)]
  have hle := h.first_le_last
  have hdirect := h.last_direct
  rw [hclip, lastSector, hwrap] at hle hdirect
  rw [divRoundDown, sectorSize_eq] at hle hdirect
  rw [divRoundDown, Int.tdiv_eq_ediv_of_nonneg hpos] at hle
  rw [numDirect_eq] at hdirect
  by_cases hmin : position + numBytes = 2 ^ 31
  · have hlast : toInt (position + numBytes - 2 ^ 32 - 1) = 2 ^ 31 - 1 := by
      rw [hmin]
      decide
    rw [hlast] at hdirect
    exact absurd hdirect (by decide)
  · obtain ⟨x, hx⟩ : ∃ x : ℤ, toInt (position + numBytes - 2 ^ 32 - 1) = -x ∧ 0 < x ∧
        x = 2 ^ 32 + 1 - position - numBytes := by
      refine ⟨2 ^ 32 + 1 - position - numBytes, ?_, by omega, rfl⟩
      unfold toInt
      omega
    rw [hx.1, Int.neg_tdiv, Int.tdiv_eq_ediv_of_nonneg (by omega)] at hle
    omega

/-- The guards of `ReadAt` and `WriteAt` reject a request, or everything they compute from it is
in range, exactly if the request is not negative, does not overflow, and its bytes are in sectors
of the header. -/
theorem request_inRange_iff (f : OpenFile) (numBytes position : Int32) :
    f.Rejected numBytes.toInt position.toInt ∨ InRange f numBytes.toInt position.toInt ↔
      f.Accepted numBytes.toInt position.toInt := by
  by_cases hrejected : f.Rejected numBytes.toInt position.toInt
  · exact ⟨fun _ => .inl hrejected, fun _ => .inl hrejected⟩
  rw [or_iff_right hrejected]
  constructor
  · -- the last sector of the request is below the bound exactly if its last byte is
    intro h
    have hpos := h.position_nonneg
    have hsum := h.no_overflow hrejected (Int32.toInt_lt numBytes) (Int32.toInt_lt position)
    refine .inr ⟨hpos, hsum, ?_⟩
    obtain ⟨n, p, hn', hp', hn, hp, -⟩ := exists_request hpos hrejected
    rw [hn', hp'] at hsum ⊢
    have hsum' : p + n < 2 ^ 31 := by omega
    have hm : 0 < min n (f.hdr.numBytes.toNat - p) := by omega
    have hclip := clip_natCast hp hsum' (Bytes.int_bounds f.hdr.bytes 0).2
    have hlast := lastSector_natCast hm (show p + min n (f.hdr.numBytes.toNat - p) < 2 ^ 31 by omega)
    have hlt := h.last_lt
    have hdirect := h.last_direct
    rw [hn', hp', hclip, hlast, sectorSize_eq] at hlt hdirect
    rw [numDirect_eq] at hdirect
    rw [numDirect_eq, sectorSize_eq]
    clear hclip hlast h hrejected hn' hp' hpos
    omega
  · exact inRange_of_accepted hrejected

/-- One byte before the start of a file. -/
theorem request_not_inRange : ¬ ∀ (f : OpenFile) (numBytes position : Int32),
    f.Rejected numBytes.toInt position.toInt ∨ InRange f numBytes.toInt position.toInt := by
  intro hall
  have h := hall ⟨⟨(Bytes.setInt (fun _ => 0) 0 128).setInt 4 1⟩, 0⟩ 1 (-1)
  have hrejected : ¬ Rejected ⟨⟨(Bytes.setInt (fun _ => 0) 0 128).setInt 4 1⟩, 0⟩
      (1 : Int32).toInt (-1 : Int32).toInt := by
    unfold Rejected
    decide +kernel
  exact absurd (h.resolve_left hrejected).position_nonneg (by decide)

end OpenFile
end NachOS
