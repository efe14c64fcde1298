import NachOS.Filesys.FileHeader
import NachOS.Lib.Run
import NachOS.Userprog.BitMapTheorems

/-!
# Allocating and releasing the sectors of a file

`Allocate` takes clear bits of the bitmap and keeps them in the header, `Deallocate` clears the
bits the header has.
-/

namespace NachOS
namespace FileHeader

open PartialRun BitMap

variable {h : FileHeader} {m m' : BitMap}

/-! ## Fields -/

@[simp] theorem setNumBytes_numBytes {v : ℤ} (hmin : -2 ^ 31 ≤ v) (hmax : v < 2 ^ 31) :
    (h.setNumBytes v).numBytes = v := Bytes.int_setInt_self _ _ hmin hmax

@[simp] theorem setNumSectors_numBytes (v : ℤ) : (h.setNumSectors v).numBytes = h.numBytes :=
  Bytes.int_setInt_of_disjoint _ v (by omega)

@[simp] theorem setNumSectors_numSectors {v : ℤ} (hmin : -2 ^ 31 ≤ v) (hmax : v < 2 ^ 31) :
    (h.setNumSectors v).numSectors = v := Bytes.int_setInt_self _ _ hmin hmax

/-- What storing a sector number changes. -/
theorem setDataSectors_ok {i : ℕ} {v : ℤ} (hi : i < numDirect) (hmin : -2 ^ 31 ≤ v)
    (hmax : v < 2 ^ 31) : ∃ h', h.setDataSectors i v = .ok h' ∧ h'.numBytes = h.numBytes ∧
      h'.numSectors = h.numSectors ∧ h'.dataSectors i = v ∧
      ∀ j, j ≠ i → h'.dataSectors j = h.dataSectors j := by
  refine ⟨_, if_pos hi, Bytes.int_setInt_of_disjoint _ v (by omega),
    Bytes.int_setInt_of_disjoint _ v (by omega), Bytes.int_setInt_self _ _ hmin hmax,
    fun j hj => Bytes.int_setInt_of_disjoint _ v (by omega)⟩

/-- The data sectors of a header. -/
def sectors (h : FileHeader) : List ℤ := (List.range h.numSectors.toNat).map h.dataSectors

theorem mem_sectors {s : ℤ} :
    s ∈ h.sectors ↔ ∃ i : ℕ, i < h.numSectors ∧ h.dataSectors i = s := by
  rw [sectors, List.mem_map]
  constructor
  · rintro ⟨i, hi, rfl⟩
    rw [List.mem_range] at hi
    exact ⟨i, by omega, rfl⟩
  · rintro ⟨i, hi, rfl⟩
    exact ⟨i, List.mem_range.mpr (by omega), rfl⟩

/-! ## Allocating -/

/-- The loop takes `n` clear bits. -/
theorem allocateSectors_ok (h : FileHeader) {n : ℕ} (hdirect : n ≤ numDirect)
    (hclear : n ≤ m.numClear) (hbits : m.numBits ≤ 2 ^ 31) :
    ∃ h' m' bits, h.allocateSectors m n = .ok (h', m') ∧ Taken m bits m' ∧
      h'.numBytes = h.numBytes ∧ h'.numSectors = h.numSectors ∧
      (List.range n).map h'.dataSectors = bits.map Nat.cast := by
  induction n with
  | zero => exact ⟨h, m, [], rfl, .nil m, rfl, rfl, by simp⟩
  | succ n ih =>
    obtain ⟨h', m', bits, halloc, htaken, hbytes, hsectors, hdata⟩ := ih (by omega) (by omega)
    have hlength : bits.length = n := by
      have := congrArg List.length hdata
      simpa using this.symm
    -- `n` sectors have been taken, and more than `n` were clear
    obtain ⟨b, m'', hfind⟩ : ∃ b m'', m'.find = (some b, m'') := by
      cases hfind : m'.find with
      | mk found m'' =>
        cases found with
        | some b => exact ⟨b, m'', rfl⟩
        | none =>
          have hnone := find_none_numClear hfind
          have hcount := htaken.numClear
          omega
    have htaken' := htaken.find hfind
    have hlt : b < 2 ^ 31 := by
      have := htaken'.lt b (by simp)
      omega
    obtain ⟨h'', hset, hbytes', hsectors', hself, hothers⟩ :=
      setDataSectors_ok (h := h') (i := n) (v := b) (by omega) (by omega) (by omega)
    refine ⟨h'', m'', bits ++ [b], ?_, htaken', hbytes'.trans hbytes, hsectors'.trans hsectors, ?_⟩
    · rw [allocateSectors] at halloc ⊢
      rw [List.range_succ, List.foldlM_append, halloc, ok_bind, List.foldlM_cons]
      dsimp only
      rw [hfind]
      show (h'.setDataSectors n b >>= _) >>= _ = _
      rw [hset]
      rfl
    · rw [List.range_succ, List.map_append, List.map_append, ← hdata]
      congr 1
      · refine List.map_congr_left fun i hi => ?_
        rw [List.mem_range] at hi
        exact hothers i (by omega)
      · simp [hself]

theorem divRoundUp_le {size : ℤ} (hmin : -2 ^ 31 ≤ size) (hmax : size ≤ maxFileSize) :
    -2 ^ 31 ≤ divRoundUp size sectorSize ∧ divRoundUp size sectorSize ≤ numDirect ∧
      size ≤ divRoundUp size sectorSize * sectorSize := by
  rw [maxFileSize_eq] at hmax
  rw [numDirect_eq, sectorSize_eq, divRoundUp]
  rcases Int.le_total 0 size with hsize | hsize
  · rw [Int.tdiv_eq_ediv_of_nonneg hsize, Int.tmod_eq_emod_of_nonneg hsize]
    split
    · omega
    · omega
  · -- the quotient of a negative number is rounded towards zero
    obtain ⟨n, rfl⟩ : ∃ n, size = -n := ⟨-size, by omega⟩
    rw [Int.neg_tdiv, Int.neg_tmod, Int.tdiv_eq_ediv_of_nonneg (by omega),
      Int.tmod_eq_emod_of_nonneg (by omega), if_neg (by omega)]
    omega

/-- `Allocate` of a file that is not too large. -/
theorem allocate_ok (h : FileHeader) {size : ℤ} (hmin : -2 ^ 31 ≤ size) (hmax : size ≤ maxFileSize)
    (hbits : m.numBits ≤ 2 ^ 31) :
    (m.numClear < divRoundUp size sectorSize ∧ ∃ h', h.allocate m size = .ok (false, h', m)) ∨
    (divRoundUp size sectorSize ≤ m.numClear ∧ ∃ h' m' bits,
      h.allocate m size = .ok (true, h', m') ∧ Taken m bits m' ∧ h'.numBytes = size ∧
      h'.numSectors = divRoundUp size sectorSize ∧ h'.sectors = bits.map Nat.cast) := by
  obtain ⟨hdivmin, hdivmax, -⟩ := divRoundUp_le hmin hmax
  rw [maxFileSize_eq] at hmax
  rw [numDirect_eq] at hdivmax
  have hnum : ((h.setNumBytes size).setNumSectors (divRoundUp size sectorSize)).numSectors =
      divRoundUp size sectorSize := setNumSectors_numSectors hdivmin (by omega)
  have hsize : ((h.setNumBytes size).setNumSectors (divRoundUp size sectorSize)).numBytes = size := by
    rw [setNumSectors_numBytes, setNumBytes_numBytes hmin (by omega)]
  by_cases hfew : m.numClear < divRoundUp size sectorSize
  · refine .inl ⟨hfew, (h.setNumBytes size).setNumSectors (divRoundUp size sectorSize), ?_⟩
    rw [allocate]
    dsimp only
    rw [hnum, if_pos hfew]
  · refine .inr ⟨by omega, ?_⟩
    obtain ⟨h', m', bits, halloc, htaken, hbytes', hsectors', hdata⟩ := allocateSectors_ok
      ((h.setNumBytes size).setNumSectors (divRoundUp size sectorSize)) (m := m)
      (n := (divRoundUp size sectorSize).toNat) (by rw [numDirect_eq]; omega) (by omega) hbits
    refine ⟨h', m', bits, ?_, htaken, hbytes'.trans hsize, hsectors'.trans hnum, ?_⟩
    · rw [allocate]
      dsimp only
      rw [hnum, if_neg hfew, halloc]
      rfl
    · rw [sectors, hsectors', hnum]
      exact hdata

/-- `Allocate` if there are clear bits enough. -/
theorem allocate_of_le (h : FileHeader) (size : ℤ) (hmin : -2 ^ 31 ≤ size)
    (hmax : size ≤ maxFileSize) (hbits : m.numBits ≤ 2 ^ 31)
    (hclear : divRoundUp size sectorSize ≤ m.numClear) :
    ∃ h' m' bits, h.allocate m size = .ok (true, h', m') ∧ Taken m bits m' ∧ h'.numBytes = size ∧
      h'.numSectors = divRoundUp size sectorSize ∧ h'.sectors = bits.map Nat.cast := by
  rcases allocate_ok h hmin hmax hbits with ⟨hfew, -⟩ | ⟨-, hok⟩
  · omega
  · exact hok

/-- With more sectors than `NumDirect` the loop stores past the end of `dataSectors`. -/
theorem allocateSectors_error (h : FileHeader) {n : ℕ} (hdirect : numDirect < n)
    (hclear : numDirect ≤ m.numClear) (hbits : m.numBits ≤ 2 ^ 31) :
    h.allocateSectors m n = .error .dataSectors := by
  induction n, hdirect using Nat.le_induction with
  | base =>
    obtain ⟨h', m', bits, halloc, -⟩ := allocateSectors_ok h le_rfl hclear hbits
    rw [allocateSectors] at halloc ⊢
    rw [List.range_succ, List.foldlM_append, halloc, ok_bind, List.foldlM_cons]
    dsimp only
    rw [setDataSectors, if_neg (lt_irrefl numDirect)]
    rfl
  | succ n hn ih =>
    rw [allocateSectors] at ih ⊢
    rw [List.range_succ, List.foldlM_append, ih, error_bind]

/-- What the header and the bitmap are after a successful `Allocate`. -/
structure Allocated (m : BitMap) (size : ℤ) (h' : FileHeader) (m' : BitMap) : Prop where
  numBytes : h'.numBytes = size
  numSectors_le : h'.numSectors ≤ numDirect
  covers : h'.numBytes ≤ h'.numSectors * sectorSize
  nodup : h'.sectors.Nodup
  new : ∀ s ∈ h'.sectors,
    ∃ i : ℕ, s = i ∧ i < m.numBits ∧ m.marked i = false ∧ m'.marked i = true

/-- `Allocate` returns, and if it has not refused the file then this fits in the header. -/
def WithinCapacity (h : FileHeader) (m : BitMap) (size : ℤ) : Prop :=
  ∃ answer h' m', h.allocate m size = .ok (answer, h', m') ∧
    (answer = true → Allocated m size h' m') ∧ (maxFileSize < size → answer = false)

/-- Only the number of clear bits is tested, not `MaxFileSize`. -/
theorem allocate_within_iff (h : FileHeader) (hbits : m.numBits ≤ 2 ^ 31) (size : Int32) :
    WithinCapacity h m size.toInt ↔
      size.toInt ≤ maxFileSize ∨ m.numClear < divRoundUp size.toInt sectorSize := by
  have hmin := Int32.le_toInt size
  have hmax := Int32.toInt_lt size
  by_cases hle : size.toInt ≤ maxFileSize
  · refine ⟨fun _ => .inl hle, fun _ => ?_⟩
    rcases allocate_ok h hmin hle hbits with
      ⟨-, h', halloc⟩ | ⟨-, h', m', bits, halloc, htaken, hbytes, hnum, hsectors⟩
    · exact ⟨false, h', m, halloc, fun hfalse => absurd hfalse Bool.false_ne_true, fun _ => rfl⟩
    · refine ⟨true, h', m', halloc, fun _ => ?_, fun hlt => absurd hle (by omega)⟩
      obtain ⟨-, hdirect, hcovers⟩ := divRoundUp_le hmin hle
      refine ⟨hbytes, by rw [hnum]; exact hdirect, by rw [hbytes, hnum]; exact hcovers, ?_, ?_⟩
      · rw [hsectors]
        exact htaken.nodup.map fun _ _ heq => Int.ofNat.inj heq
      · intro s hs
        rw [hsectors] at hs
        obtain ⟨i, hi, rfl⟩ := List.mem_map.mp hs
        exact ⟨i, rfl, htaken.lt i hi, htaken.clear i hi, (htaken.marked i).mpr (.inr hi)⟩
  · rw [or_iff_right hle]
    -- how many sectors a file that is too large has
    have hround : (numDirect : ℤ) < divRoundUp size.toInt sectorSize ∧
        divRoundUp size.toInt sectorSize < 2 ^ 31 := by
      rw [maxFileSize_eq] at hle
      rw [numDirect_eq, sectorSize_eq, divRoundUp, Int.tdiv_eq_ediv_of_nonneg (by omega),
        Int.tmod_eq_emod_of_nonneg (by omega)]
      split
      · omega
      · omega
    have hnum : ((h.setNumBytes size.toInt).setNumSectors
        (divRoundUp size.toInt sectorSize)).numSectors = divRoundUp size.toInt sectorSize :=
      setNumSectors_numSectors (by omega) hround.2
    constructor
    · rintro ⟨answer, h', m', halloc, _, _⟩
      by_contra hfew
      rw [allocate] at halloc
      dsimp only at halloc
      rw [hnum, if_neg hfew, allocateSectors_error _ (by omega) (by omega) hbits] at halloc
      cases halloc
    · intro hfew
      refine ⟨false, (h.setNumBytes size.toInt).setNumSectors (divRoundUp size.toInt sectorSize), m,
        ?_, fun hfalse => absurd hfalse Bool.false_ne_true, fun _ => rfl⟩
      rw [allocate]
      dsimp only
      rw [hnum, if_pos hfew]

/-- Files of one byte and of one byte too many, on an empty disk. -/
theorem allocate_within_byte : WithinCapacity ⟨fun _ => 0⟩ (BitMap.new 1024) 1 ∧
    ¬ WithinCapacity ⟨fun _ => 0⟩ (BitMap.new 1024) 3841 :=
  ⟨(allocate_within_iff (m := BitMap.new 1024) ⟨fun _ => 0⟩ (by decide) 1).mpr (.inl (by decide)),
    fun h => absurd ((allocate_within_iff (m := BitMap.new 1024) ⟨fun _ => 0⟩ (by decide) 3841).mp h)
      (by decide +kernel)⟩

theorem allocate_not_within : ¬ ∀ (h : FileHeader) (m : BitMap) (size : Int32),
    m.numBits ≤ 2 ^ 31 → WithinCapacity h m size.toInt := by
  intro hall
  obtain ⟨answer, h', m', halloc, -, -⟩ := hall ⟨fun _ => 0⟩ (BitMap.new 1024) 3841 (by decide)
  have herror : FileHeader.allocate ⟨fun _ => 0⟩ (BitMap.new 1024) (3841 : Int32).toInt =
      .error .dataSectors := by
    have hclear : (BitMap.new 1024).numClear = 1024 := by decide +kernel
    have hnum : ((FileHeader.setNumBytes ⟨fun _ => 0⟩ (3841 : Int32).toInt).setNumSectors
        (divRoundUp (3841 : Int32).toInt sectorSize)).numSectors = 31 := by decide +kernel
    rw [allocate]
    dsimp only
    rw [hnum, if_neg (by rw [hclear]; decide)]
    rw [allocateSectors_error _ (by decide) (by rw [hclear]; decide) (by decide)]
    rfl
  rw [herror] at halloc
  cases halloc

theorem length_of_sectors {bits : List ℕ} (h' : h.sectors = bits.map Nat.cast) :
    bits.length = h.numSectors.toNat := by
  have hlength := congrArg List.length h'
  rw [sectors, List.length_map, List.length_map, List.length_range] at hlength
  exact hlength.symm

/-! ## Releasing -/

theorem release_ok {s : ℕ} (hlt : s < m.numBits) (hmarked : m.marked s = true) :
    release m s = .ok { m with marked := Function.update m.marked s false } := by
  rw [release, if_neg (by omega), Int.toNat_natCast, BitMap.test, if_pos hlt, ok_bind, hmarked,
    if_pos rfl, BitMap.clear, if_pos hlt]

/-- `Deallocate` clears the data sectors, if they are different and marked. -/
theorem deallocate_ok (hdirect : h.numSectors ≤ numDirect) (hnodup : h.sectors.Nodup)
    (hmarked : ∀ s ∈ h.sectors, 0 ≤ s ∧ s < m.numBits ∧ m.marked s.toNat = true) :
    ∃ m', h.deallocate m = .ok m' ∧ m'.numBits = m.numBits ∧
      ∀ i : ℕ, m'.marked i = true ↔ m.marked i = true ∧ (i : ℤ) ∉ h.sectors := by
  have hloop : ∀ n : ℕ, n ≤ h.numSectors.toNat → ∃ m',
      (List.range n).foldlM (fun freeMap (i : ℕ) => do
        let sector ← h.getDataSectors i
        release freeMap sector) m = .ok m' ∧ m'.numBits = m.numBits ∧
      ∀ i : ℕ, m'.marked i = true ↔
        m.marked i = true ∧ (i : ℤ) ∉ (List.range n).map h.dataSectors := by
    intro n hn
    induction n with
    | zero => exact ⟨m, rfl, rfl, fun i => by simp⟩
    | succ n ih =>
      obtain ⟨m', hfold, hbits, hcleared⟩ := ih (by omega)
      have hmem : h.dataSectors n ∈ h.sectors := mem_sectors.mpr ⟨n, by omega, rfl⟩
      obtain ⟨hnonneg, hlt, hset⟩ := hmarked _ hmem
      obtain ⟨s, hs⟩ := Int.eq_ofNat_of_zero_le hnonneg
      rw [hs] at hlt hset
      -- the sector is none of those before
      have hnew : (s : ℤ) ∉ (List.range n).map h.dataSectors := by
        intro hold
        obtain ⟨j, hj, heq⟩ := List.mem_map.mp hold
        rw [List.mem_range] at hj
        rw [sectors, List.nodup_map_iff_inj_on List.nodup_range] at hnodup
        have := hnodup j (List.mem_range.mpr (by omega)) n (List.mem_range.mpr (by omega))
          (heq.trans hs.symm)
        omega
      have hset' : m'.marked s = true := (hcleared s).mpr ⟨hset, hnew⟩
      refine ⟨{ m' with marked := Function.update m'.marked s false }, ?_, hbits, fun i => ?_⟩
      · have hget : h.getDataSectors (n : ℕ) = .ok (s : ℤ) := by
          rw [getDataSectors, if_pos (by omega), Int.toNat_natCast, hs]
        rw [List.range_succ, List.foldlM_append, hfold, ok_bind, List.foldlM_cons, hget, ok_bind,
          release_ok (by omega) hset']
        rfl
      · rw [List.range_succ, List.map_append, List.map_singleton, hs]
        show Function.update m'.marked s false i = true ↔ _
        rw [Function.update_apply, List.mem_append, List.mem_singleton, Int.natCast_inj]
        by_cases his : i = s
        · simp [his]
        · rw [if_neg his, hcleared, or_iff_left his]
  rw [deallocate, sectors]
  exact hloop h.numSectors.toNat le_rfl

end FileHeader
end NachOS
