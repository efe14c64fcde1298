import NachOS.VM.Forward

/-!
# While frames are free

Frames are never given back, so as long as one is free nothing has been evicted: the swap
area is as the constructor left it, and every page fault loads from the executable.
-/

namespace NachOS
namespace System

open PartialRun

/-- The bitmaps have all their bits, and swap is unused while a frame is free. -/
structure Allocating (s : System) : Prop where
  numBits : s.invertedPageTable.physicalPagesBitmap.numBits = numPhysPagesIPT
  swapBits : s.memorySwap.swapBitMap.numBits = swapPagesQuantity
  unused : s.invertedPageTable.physicalPagesBitmap.firstClear ≠ none → s.memorySwap = Swap.new

theorem Allocating.switchTo {s : System} (halloc : Allocating s) (a : ℕ) :
    Allocating (s.switchTo a) := ⟨halloc.numBits, halloc.swapBits, halloc.unused⟩

/-- As long as there are free frames nothing was swapped out. -/
theorem Allocating.isLoadedInSwap {s : System} {f : ℕ} (halloc : Allocating s)
    (hfree : s.invertedPageTable.physicalPagesBitmap.firstClear = some f) (p : ℕ) :
    s.memorySwap.isLoadedInSwap p = false := by
  rw [halloc.unused (by rw [hfree]; exact Option.some_ne_none f), Swap.isLoadedInSwap,
    Swap.new_slotOf]
  rfl

/-- A frame that is still free afterwards was free before. -/
theorem giveFrame_firstClear {s : System} {f : ℕ} {p : ℤ}
    (h : (s.giveFrame f p).invertedPageTable.physicalPagesBitmap.firstClear ≠ none) :
    s.invertedPageTable.physicalPagesBitmap.firstClear ≠ none := by
  intro hnone
  rw [BitMap.firstClear_eq_none] at hnone
  refine h (BitMap.firstClear_eq_none.mpr fun i hi => ?_)
  show (BitMap.markBit _ f).marked i = true
  rw [BitMap.markBit_marked]
  split
  · rfl
  · exact hnone i hi

/-- Getting a frame keeps swap unused while frames are free. -/
theorem FrameFor.allocating {s s₁ : System} {p f : ℤ} (halloc : Allocating s)
    (h : FrameFor s p f s₁) : Allocating s₁ := by
  cases h with
  | free hfree =>
    exact ⟨halloc.numBits, halloc.swapBits, fun h => halloc.unused (giveFrame_firstClear h)⟩
  | evicted hfull hvictim hframe hpage hsource hslot =>
    obtain ⟨hbitmap, -, -⟩ := getEntryToReplace_frames hvictim
    refine ⟨?_, halloc.swapBits, fun h => absurd ?_ h⟩
    · exact (congrArg BitMap.numBits hbitmap).trans halloc.numBits
    · exact (congrArg BitMap.firstClear hbitmap).trans hfull
  | refused hfull hvictim hframe hpage hslot =>
    obtain ⟨hbitmap, -, -⟩ := getEntryToReplace_frames hvictim
    refine ⟨?_, halloc.swapBits, fun h => absurd ?_ h⟩
    · exact (congrArg BitMap.numBits hbitmap).trans halloc.numBits
    · exact (congrArg BitMap.firstClear hbitmap).trans hfull

/-- A page that is found in swap is loaded with no frame left free. -/
theorem FrameFor.full_of_marked {s s₁ : System} {p : ℕ} {f : ℤ} (halloc : Allocating s)
    (hmarked : s.memorySwap.isLoadedInSwap p = true) (h : FrameFor s p f s₁) :
    s₁.invertedPageTable.physicalPagesBitmap.firstClear = none := by
  have hfull : s.invertedPageTable.physicalPagesBitmap.firstClear = none := by
    by_contra hfree
    rw [halloc.unused hfree, Swap.isLoadedInSwap, Swap.new_slotOf] at hmarked
    cases hmarked
  cases h with
  | free hfree => rw [hfull] at hfree; cases hfree
  | evicted _ hvictim hframe hpage hsource hslot =>
    exact (congrArg BitMap.firstClear (getEntryToReplace_frames hvictim).1).trans hfull
  | refused _ hvictim hframe hpage hslot =>
    exact (congrArg BitMap.firstClear (getEntryToReplace_frames hvictim).1).trans hfull

/-- Loading a page into a free frame keeps the bookkeeping of the frames. -/
theorem Loaded.allocating {s s' : System} {addr : ℕ} (halloc : Allocating s)
    (h : Loaded s addr s') : Allocating s' := by
  cases h with
  | resident hpage => exact halloc
  | fromSwap hpage hmarked hframe hslot hn hfits =>
    have hfull := hframe.full_of_marked halloc hmarked
    have hmid := hframe.allocating halloc
    exact ⟨hmid.numBits, hmid.swapBits, fun h => absurd hfull h⟩
  | lost hpage hmarked hframe hslot => exact hframe.allocating halloc
  | fromDisk hpage hmarked hframe htransfer hfits =>
    have hmid := hframe.allocating halloc
    exact ⟨hmid.numBits, hmid.swapBits, hmid.unused⟩

theorem allocating_of_same {s s' : System} (halloc : Allocating s) (hmap : SameMapping s s') :
    Allocating s' := by
  constructor
  · rw [hmap.frames.physicalPagesBitmap]
    exact halloc.numBits
  · rw [hmap.memorySwap]
    exact halloc.swapBits
  · rw [hmap.frames.physicalPagesBitmap, hmap.memorySwap]
    exact halloc.unused

/-- The step lemma of the runs that never run out of frames. -/
theorem step_allocating {s s' : System} {a : Access} (hnum : Numbered s) (halloc : Allocating s)
    (h : s.step a = .ok s') : Allocating s' :=
  have hswitched := halloc.switchTo a.space
  step_preserves (fun halloc hmap _ => allocating_of_same halloc hmap)
    (fun _ halloc => ⟨halloc.numBits, halloc.swapBits, halloc.unused⟩)
    (fun _ _ hloaded hmap _ => allocating_of_same (hloaded.allocating hswitched) hmap)
    hnum (fun _ => hswitched) h

theorem Booted.allocating {s : System} (hboot : Booted s) : Allocating s := by
  refine ⟨?_, ?_, fun _ => hboot.memorySwap⟩
  · rw [hboot.invertedPageTable]
    rfl
  · rw [hboot.memorySwap]
    rfl

/-- A frame that is free after another was found was free before. -/
theorem FrameFor.marked {s s₁ : System} {p f : ℤ} {g : ℕ} (h : FrameFor s p f s₁)
    (hclear : s₁.invertedPageTable.physicalPagesBitmap.marked g = false) :
    s.invertedPageTable.physicalPagesBitmap.marked g = false := by
  cases h with
  | @free f hfree =>
    change (BitMap.markBit _ f).marked g = false at hclear
    rw [BitMap.markBit_marked] at hclear
    split at hclear
    · cases hclear
    · exact hclear
  | evicted _ hvictim =>
    exact (congrArg (fun b => BitMap.marked b g) (getEntryToReplace_frames hvictim).1).symm.trans
      hclear
  | refused _ hvictim =>
    exact (congrArg (fun b => BitMap.marked b g) (getEntryToReplace_frames hvictim).1).symm.trans
      hclear

/-- Frames are marked as they are handed out, and never unmarked. -/
theorem Loaded.marked {s s' : System} {addr g : ℕ} (h : Loaded s addr s')
    (hclear : s'.invertedPageTable.physicalPagesBitmap.marked g = false) :
    s.invertedPageTable.physicalPagesBitmap.marked g = false := by
  cases h with
  | resident => exact hclear
  | fromSwap _ _ hframe => exact hframe.marked hclear
  | lost _ _ hframe => exact hframe.marked hclear
  | fromDisk _ _ hframe => exact hframe.marked hclear

/-- A page fault while frame `f` is the first free one: the page is in memory already, or it
is loaded from the executable into frame `f`. -/
theorem Loaded.of_free {s s' : System} {addr f : ℕ} (halloc : Allocating s)
    (hfree : s.invertedPageTable.physicalPagesBitmap.firstClear = some f)
    (h : Loaded s addr s') :
    ((s.space.pageTable (addr / pageSize)).virtualPage ≠ -1 ∧ s' = s) ∨
      ∃ n bytes, (s.space.pageTable (addr / pageSize)).virtualPage = -1 ∧
        diskTransfer s.space addr = .ok (n, bytes) ∧ Fits f n ∧
        s' = (s.giveFrame f (addr / pageSize : ℕ)).install (addr / pageSize)
          (s.space.pageTable (addr / pageSize)) f n bytes := by
  have hunmarked := halloc.isLoadedInSwap hfree (addr / pageSize)
  cases h with
  | resident hpage => exact .inl ⟨hpage, rfl⟩
  | fromSwap hpage hmarked hframe hslot hn hfits =>
    rw [hunmarked] at hmarked
    cases hmarked
  | lost hpage hmarked hframe hslot =>
    rw [hunmarked] at hmarked
    cases hmarked
  | @fromDisk g s₁ n bytes hpage _ hframe htransfer hfits =>
    cases hframe with
    | free hfree' =>
      rw [hfree] at hfree'
      cases hfree'
      exact .inr ⟨n, bytes, hpage, htransfer, hfits, rfl⟩
    | evicted hfull hvictim hframe hpage hsource hslot => rw [hfree] at hfull; cases hfull
    | refused hfull hvictim hframe hpage hslot => rw [hfree] at hfull; cases hfull

/-! ## The frames in the tables -/

/-- Every frame in a page table or in a valid TLB entry is below `n`. -/
structure FramesBelow (n : ℕ) (s : System) : Prop where
  resident : ∀ a p, ((s.spaces a).pageTable p).virtualPage ≠ -1 →
    0 ≤ ((s.spaces a).pageTable p).physicalPage ∧ ((s.spaces a).pageTable p).physicalPage < n
  tlb : ∀ i, (s.tlb i).valid = true → 0 ≤ (s.tlb i).physicalPage ∧ (s.tlb i).physicalPage < n

variable {n : ℕ}

theorem FramesBelow.switchTo {s : System} (hin : FramesBelow n s) (a : ℕ) :
    FramesBelow n (s.switchTo a) := ⟨hin.resident, hin.tlb⟩

/-- The bound on the frames in use depends on the mapping and the TLB only. -/
theorem framesBelow_of_same {s s' : System} (hin : FramesBelow n s) (hmap : SameMapping s s')
    (htlb : SameTLB s.tlb s'.tlb) : FramesBelow n s' := by
  refine ⟨fun a p hp => ?_, fun i hvalid => ?_⟩
  · rw [hmap.virtualPage] at hp
    rw [hmap.physicalPage]
    exact hin.resident a p hp
  · rw [htlb.valid] at hvalid
    rw [htlb.physicalPage]
    exact hin.tlb i hvalid

/-- A page fault that finds a frame below `n` free if it needs one. -/
theorem Loaded.framesBelow {s s' : System} {addr : ℕ} (halloc : Allocating s)
    (hin : FramesBelow n s)
    (hfree : (s.space.pageTable (addr / pageSize)).virtualPage = -1 →
      ∃ f < n, s.invertedPageTable.physicalPagesBitmap.firstClear = some f)
    (h : Loaded s addr s') :
    FramesBelow n s' ∧ (s'.space.pageTable (addr / pageSize)).virtualPage ≠ -1 := by
  by_cases habsent : (s.space.pageTable (addr / pageSize)).virtualPage = -1
  · obtain ⟨f, hf, hfree⟩ := hfree habsent
    rcases h.of_free halloc hfree with ⟨hpage, -⟩ | ⟨m, bytes, -, -, -, rfl⟩
    · exact absurd habsent hpage
    -- the current page table has the new frame for the page, the others are as before
    have htable := install_pageTable (s.giveFrame f (addr / pageSize : ℕ)) (addr / pageSize)
      (s.space.pageTable (addr / pageSize)) f m bytes
    refine ⟨⟨fun b p hp => ?_, hin.tlb⟩, ?_⟩
    · by_cases hb : b = s.currentSpace
      · rw [hb] at hp ⊢
        change ((System.space _).pageTable p).virtualPage ≠ -1 at hp
        show 0 ≤ ((System.space _).pageTable p).physicalPage ∧
          ((System.space _).pageTable p).physicalPage < n
        rw [htable, Function.update_apply] at hp ⊢
        split
        · exact ⟨Int.natCast_nonneg f, Int.ofNat_lt.mpr hf⟩
        · rename_i hne
          rw [if_neg hne] at hp
          exact hin.resident s.currentSpace p hp
      · rw [install_spaces_of_ne _ _ _ _ _ _ (by exact hb)] at hp ⊢
        exact hin.resident b p hp
    · rw [htable, Function.update_self]
      exact natCast_ne_neg_one _
  · cases h.tables with
    | resident heq hpage => rw [heq]; exact ⟨hin, hpage⟩
    | loaded habsent' => exact absurd habsent' habsent
    | lost habsent' => exact absurd habsent' habsent

/-- Filling a TLB slot with a resident page keeps it. -/
theorem framesBelow_of_fill {s s' : System} {slot : Fin tlbSize} {p : ℕ}
    (hin : FramesBelow n s) (hpage : (s.space.pageTable p).virtualPage ≠ -1)
    (hmap : SameMapping s s')
    (htlb : s'.tlb = Function.update s.tlb slot (s.translationOf slot p)) :
    FramesBelow n s' := by
  refine ⟨fun a q hq => ?_, fun i hvalid => ?_⟩
  · rw [hmap.virtualPage] at hq
    rw [hmap.physicalPage]
    exact hin.resident a q hq
  · rw [htlb, Function.update_apply] at hvalid ⊢
    split
    · exact hin.resident s.currentSpace p hpage
    · rename_i hi
      rw [if_neg hi] at hvalid
      exact hin.tlb i hvalid

theorem Booted.framesBelow {s : System} (hboot : Booted s) : FramesBelow n s := by
  refine ⟨fun a p hp => absurd (hboot.absent a p) hp, fun i hvalid => ?_⟩
  rw [hboot.tlb i] at hvalid
  cases hvalid

end System
end NachOS
