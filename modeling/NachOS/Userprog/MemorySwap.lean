import NachOS.Lib.Run
import NachOS.Userprog.BitMap

/-!
# The swap area

`class swap` of `memoryswap.h`. Slot `i` of the swap file holds one page; `swapBitMap`
says which slots are taken and `virtualPages[i]` which page was put there. A slot given
back by `readSwapMemory` gets the marker `0`, not the marker `-1` the constructor starts
with, so a free slot may look as if it held page `0`.
-/

namespace NachOS

/-- `SWAP_PAGES_QUANTITY`. -/
def swapPagesQuantity : ℕ := 2 * numPhysPages

theorem swapPagesQuantity_eq : swapPagesQuantity = 64 := rfl

/-- The swap area. -/
structure Swap where
  swapSegment : HostFile
  swapBitMap : BitMap
  virtualPages : ℕ → ℤ

namespace Swap

/-- The constructor: an empty host file, all slots free, all markers `-1`. -/
def new : Swap where
  swapSegment := HostFile.empty
  swapBitMap := BitMap.new swapPagesQuantity
  virtualPages := fun _ => -1

/-- The slot the loops of `isLoadedInSwap` and `readSwapMemory` stop at: the first one,
free or taken, whose marker is the page. -/
def slotOf (sw : Swap) (virtualPage : ℤ) : Option ℕ :=
  (List.range swapPagesQuantity).find? fun i => sw.virtualPages i == virtualPage

/-- `isLoadedInSwap`. -/
def isLoadedInSwap (sw : Swap) (addr : ℤ) : Bool := (sw.slotOf addr).isSome

/-- `readSwapMemory`: whether the page was found, the swap area and `mainMemory` after. -/
def readSwapMemory (sw : Swap) (mainMemory : Bytes) (physicalPage virtualPage : ℤ) :
    Except Fault (Bool × Swap × Bytes) :=
  match sw.slotOf virtualPage with
  | none => .ok (false, sw, mainMemory)
  | some fileIndex => do
    let bitMap ← sw.swapBitMap.clear fileIndex
    let (count, bytes) ← sw.swapSegment.readAt pageSize (fileIndex * pageSize)
    let memory ← copyIn mainMemory (physicalPage * pageSize) count bytes
    -- the marker is set to 0, which is a page number too
    return (true,
      { sw with swapBitMap := bitMap, virtualPages := Function.update sw.virtualPages fileIndex 0 },
      memory)

/-- `writeSwapMemory`: whether there was a free slot, and the swap area after. -/
def writeSwapMemory (sw : Swap) (mainMemory : Bytes) (physicalPage virtualPage : ℤ) :
    Except Fault (Bool × Swap) :=
  match sw.swapBitMap.find with
  | (none, _) => .ok (false, sw)
  | (some availablePosition, bitMap) => do
    let bytes ← copyOut mainMemory (physicalPage * pageSize) pageSize
    let segment ← sw.swapSegment.writeAt bytes pageSize (availablePosition * pageSize)
    return (true, {
      swapSegment := segment
      swapBitMap := bitMap
      virtualPages := Function.update sw.virtualPages availablePosition virtualPage })

/-! ## What a call does -/

open PartialRun

/-- The swap area after page `page` has been put into slot `j`. -/
def stored (sw : Swap) (j : ℕ) (page : ℤ) (bytes : Bytes) : Swap where
  swapSegment := {
    length := max sw.swapSegment.length (j * pageSize + pageSize)
    data := Bytes.blit
      (fun a => if a < sw.swapSegment.length then sw.swapSegment.data a else 0)
      (j * pageSize) pageSize bytes }
  swapBitMap := sw.swapBitMap.markBit j
  virtualPages := Function.update sw.virtualPages j page

/-- The slot just filled. -/
theorem stored_window_self (sw : Swap) (j : ℕ) (page : ℤ) (bytes : Bytes) :
    Bytes.EqUpTo pageSize (Bytes.window (sw.stored j page bytes).swapSegment.data (j * pageSize))
      bytes := Bytes.window_blit_self _ _ _ _

/-- Filling a slot does not touch the others. -/
theorem stored_window_ne (sw : Swap) {i j : ℕ} (page : ℤ) (bytes : Bytes) (hij : i ≠ j)
    (hlen : i * pageSize + pageSize ≤ sw.swapSegment.length) :
    Bytes.EqUpTo pageSize (Bytes.window (sw.stored j page bytes).swapSegment.data (i * pageSize))
      (Bytes.window sw.swapSegment.data (i * pageSize)) := by
  have hdisj : i * pageSize + pageSize ≤ j * pageSize ∨ j * pageSize + pageSize ≤ i * pageSize := by
    rw [pageSize_eq]
    omega
  refine (Bytes.window_blit_disjoint _ _ hdisj).trans fun k hk => ?_
  rw [Bytes.window, if_pos (by omega)]
  rfl

/-- The swap area after slot `i` has been given back. -/
def released (sw : Swap) (i : ℕ) : Swap :=
  { sw with
    swapBitMap :=
      { sw.swapBitMap with marked := Function.update sw.swapBitMap.marked i false }
    virtualPages := Function.update sw.virtualPages i 0 }

theorem slotOf_eq_none {sw : Swap} {p : ℤ} :
    sw.slotOf p = none ↔ ∀ i < swapPagesQuantity, sw.virtualPages i ≠ p := by
  simp [slotOf, List.find?_eq_none]

theorem slotOf_eq_some {sw : Swap} {p : ℤ} {i : ℕ} (h : sw.slotOf p = some i) :
    i < swapPagesQuantity ∧ sw.virtualPages i = p := by
  have hmem := List.mem_of_find?_eq_some h
  have hmarker := List.find?_some h
  exact ⟨List.mem_range.mp hmem, by simpa using hmarker⟩

/-- No slot before the one found has the marker. -/
theorem slotOf_first {sw : Swap} {p : ℤ} {i j : ℕ} (h : sw.slotOf p = some i) (hj : j < i) :
    sw.virtualPages j ≠ p := by
  unfold slotOf at h
  rw [List.find?_eq_some_iff_getElem] at h
  obtain ⟨-, k, hk, hki, hbefore⟩ := h
  rw [List.getElem_range] at hki
  have := hbefore j (by omega)
  simpa [List.getElem_range] using this

theorem new_slotOf (p : ℕ) : new.slotOf p = none := by
  rw [slotOf_eq_none]
  intro i _
  show (-1 : ℤ) ≠ p
  omega

/-- `writeSwapMemory` refuses when no slot is free, else fills the first free one. -/
theorem writeSwapMemory_ok_iff {sw sw' : Swap} {m : Bytes} {f p : ℤ} {b : Bool} :
    sw.writeSwapMemory m f p = .ok (b, sw') ↔
      (sw.swapBitMap.firstClear = none ∧ b = false ∧ sw' = sw) ∨
      ∃ j, sw.swapBitMap.firstClear = some j ∧ (0 ≤ f ∧ f < numPhysPages) ∧ b = true ∧
        sw' = stored sw j p (Bytes.window m (f.toNat * pageSize)) := by
  unfold Swap.writeSwapMemory BitMap.find
  cases hfree : sw.swapBitMap.firstClear with
  | none => simp [eq_comm]
  | some j =>
    have hpos : ¬ ((j : ℤ) * (pageSize : ℤ) < 0) := by rw [pageSize_eq]; omega
    have hnat : ((j : ℤ) * (pageSize : ℤ)).toNat = j * pageSize := by rw [pageSize_eq]; omega
    simp only [bind_ok_iff, copyOut_ok_iff, HostFile.writeAt, if_neg hpos, hnat]
    simp only [Except.ok.injEq, pure_ok_iff, Prod.mk.injEq, reduceCtorEq, false_and,
      Option.some.injEq, false_or]
    constructor
    · rintro ⟨bytes, ⟨hr, rfl⟩, segment, rfl, rfl, rfl⟩
      have hf : 0 ≤ f ∧ f < numPhysPages := by
        rw [pageSize_eq, memorySize_eq] at hr
        rw [numPhysPages_eq]
        omega
      have hbase : (f * (pageSize : ℤ)).toNat = f.toNat * pageSize := by
        rw [pageSize_eq]; omega
      exact ⟨j, rfl, hf, rfl, by rw [hbase]; rfl⟩
    · rintro ⟨j', rfl, hf, rfl, rfl⟩
      have hbase : (f * (pageSize : ℤ)).toNat = f.toNat * pageSize := by
        rw [pageSize_eq]; omega
      refine ⟨_, ⟨?_, rfl⟩, _, rfl, rfl, ?_⟩
      · rw [pageSize_eq, memorySize_eq]
        rw [numPhysPages_eq] at hf
        omega
      · rw [hbase]; rfl

/-- `readSwapMemory` copies what the file holds for the slot it found. -/
theorem readSwapMemory_ok_iff {sw sw' : Swap} {m m' : Bytes} {f p : ℤ} {b : Bool} :
    sw.readSwapMemory m f p = .ok (b, sw', m') ↔
      (sw.slotOf p = none ∧ b = false ∧ sw' = sw ∧ m' = m) ∨
      ∃ i n, sw.slotOf p = some i ∧ i < sw.swapBitMap.numBits ∧
        n = min pageSize (sw.swapSegment.length - i * pageSize) ∧
        (n = 0 ∨ (0 ≤ f * pageSize ∧ f * pageSize + n ≤ memorySize)) ∧
        b = true ∧ sw' = released sw i ∧
        m' = Bytes.blit m (f * pageSize).toNat n
          (Bytes.window sw.swapSegment.data (i * pageSize)) := by
  unfold Swap.readSwapMemory BitMap.clear
  cases hslot : sw.slotOf p with
  | none => simp [eq_comm]
  | some i =>
    have hpos : ¬ ((i : ℤ) * (pageSize : ℤ) < 0) := by rw [pageSize_eq]; omega
    have hnat : ((i : ℤ) * (pageSize : ℤ)).toNat = i * pageSize := by rw [pageSize_eq]; omega
    by_cases hi : i < sw.swapBitMap.numBits
    · simp only [bind_ok_iff, if_pos hi, HostFile.readAt, if_neg hpos, hnat, copyIn_ok_iff]
      simp only [Except.ok.injEq, pure_ok_iff, Prod.mk.injEq, reduceCtorEq, false_and,
        Option.some.injEq, false_or, Prod.exists, Int.toNat_natCast]
      constructor
      · rintro ⟨bm, rfl, n, bytes, ⟨rfl, rfl⟩, mem, ⟨hr, rfl⟩, rfl, rfl, rfl⟩
        exact ⟨i, _, rfl, hi, rfl, hr, rfl, rfl, rfl⟩
      · rintro ⟨i', n, rfl, -, rfl, hr, rfl, rfl, rfl⟩
        exact ⟨_, rfl, _, _, ⟨rfl, rfl⟩, _, ⟨hr, rfl⟩, rfl, rfl, rfl⟩
    · simp only [bind_ok_iff, if_neg hi]
      constructor
      · rintro ⟨bm, h, -⟩
        cases h
      · rintro (⟨h, -⟩ | ⟨i', n, h, hi', -⟩)
        · cases h
        · cases h
          exact absurd hi' hi

end Swap

end NachOS
