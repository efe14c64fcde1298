import NachOS.VM.FrameRange
import NachOS.VM.Bookkeeping

/-!
# Page numbers that leave the page table

With a TLB, `Translate` has no bound check: whatever address a user program presents, a TLB miss
traps to the page-fault handler, which divides the address by the page size and looks the page
up. Here are the addresses and states for which the handler stays inside the page table.
-/

namespace NachOS
namespace System

open PartialRun InvertedPageTable

theorem pageTable_ofMemory : OfMemory .pageTable := .inr rfl

/-! ## The functions that index the page table -/

/-- Writing an entry fails exactly outside of the page table. -/
theorem modifyEntry_error_iff {s : System} {p : ℤ} {f : TranslationEntry → TranslationEntry} :
    s.modifyEntry p f = .error .pageTable ↔ ¬ (0 ≤ p ∧ p < s.space.numPages) := by
  unfold modifyEntry
  split
  · rename_i h
    simp [h]
  · rename_i h
    simp [h]

/-- The transfers of the swap area do not index a page table. -/
theorem writeSwapMemory_avoids (sw : Swap) (m : Bytes) (f p : ℤ) :
    Avoids .pageTable (sw.writeSwapMemory m f p) := by
  unfold Swap.writeSwapMemory
  split
  · exact .ok _ _
  · refine Avoids.bind ?_ fun bytes _ => Avoids.bind ?_ fun segment _ => .pure _ _
    · unfold copyOut
      split
      · exact .ok _ _
      · exact .error (by decide)
    · unfold HostFile.writeAt
      split
      · exact .error (by decide)
      · exact .ok _ _

/-- A copy into memory does not touch the page table. -/
theorem copyIn_avoids (m : Bytes) (dest : ℤ) (n : ℕ) (source : Bytes) :
    Avoids .pageTable (copyIn m dest n source) := by
  unfold copyIn
  split
  · exact .ok _ _
  · split
    · exact .ok _ _
    · exact .error (by decide)

/-- A read of the swap area does not touch the page table. -/
theorem readSwapMemory_avoids (sw : Swap) (m : Bytes) (f p : ℤ) :
    Avoids .pageTable (sw.readSwapMemory m f p) := by
  unfold Swap.readSwapMemory
  split
  · exact .ok _ _
  · refine Avoids.bind ?_ fun bits _ => ?_
    · unfold BitMap.clear
      split
      · exact .ok _ _
      · exact .error (by decide)
    · refine (readAt_avoids pageTable_ofMemory _ _ _).bind fun transfer _ => ?_
      exact (copyIn_avoids _ _ _ _).bind fun memory _ => .pure _ _

/-- Getting a frame leaves the page table exactly if the frame to be taken, which is used as a
page number, is none of the address space. -/
theorem getPhysicalPage_error_iff {s : System} {p : ℤ} :
    s.getPhysicalPage p = .error .pageTable ↔
      s.invertedPageTable.physicalPagesBitmap.firstClear = none ∧
        ∃ g : ℕ, s.invertedPageTable.nextVictim = some (g : ℤ) ∧ g < numPhysPagesIPT ∧
          s.space.numPages ≤ g := by
  cases hfree : s.invertedPageTable.physicalPagesBitmap.firstClear with
  | some f => simp [getPhysicalPage_free p hfree]
  | none =>
    unfold getPhysicalPage BitMap.find
    rw [hfree]
    constructor
    · intro h
      obtain ⟨⟨g, t⟩, hvictim, h⟩ :=
        (bind_error_iff.mp h).resolve_left (getEntryToReplace_avoids pageTable_ofMemory _)
      obtain ⟨v, hv, h⟩ :=
        (bind_error_iff.mp h).resolve_left (vectorGet_avoids pageTable_ofMemory _ _)
      obtain ⟨⟨hpos, hlt⟩, -⟩ := vectorGet_ok_iff.mp hv
      obtain ⟨g, rfl⟩ := Int.eq_ofNat_of_zero_le hpos
      refine ⟨rfl, g, getEntryToReplace_nextVictim hvictim, by exact_mod_cast hlt, ?_⟩
      by_contra hpage
      rw [swap_eq _ (by exact not_le.mp hpage)] at h
      rcases bind_error_iff.mp h with h | ⟨r, -, h⟩
      · exact (writeSwapMemory_avoids _ _ _ _).bind (fun _ _ => .ok _ _) h
      · obtain ⟨isSwaped, s₁⟩ := r
        cases isSwaped with
        | true => exact (vectorSet_avoids pageTable_ofMemory _ _ _).bind (fun _ _ => .pure _ _) h
        | false => cases h
    · rintro ⟨-, g, hnext, hlt, hpage⟩
      obtain ⟨t, hvictim⟩ := getEntryToReplace_iff.mpr hnext
      have hget : vectorGet t.virtualPageTable g = .ok (t.virtualPageTable g) :=
        vectorGet_ok_iff.mpr ⟨⟨by omega, by exact_mod_cast hlt⟩, rfl⟩
      simp only [hvictim, ok_bind, hget, swap]
      rw [modifyEntry_error_iff.mpr (fun hin => ?_)]
      · rfl
      · have hin : (g : ℤ) < s.space.numPages := hin.2
        omega

/-- No slot of the TLB is free, and the page of the entry to be replaced is none of the address
space. -/
def Misplaced (numPages : ℕ) (tlb : Fin tlbSize → TranslationEntry) (ipt : InvertedPageTable) :
    Prop :=
  freeSlot tlb = none ∧ ∃ slot ∈ ipt.replacedSlot tlb,
    ¬ (0 ≤ (tlb slot).virtualPage ∧ (tlb slot).virtualPage < numPages)

/-- Loading the TLB leaves the page table exactly when the replaced entry does not belong to it. -/
theorem loadToTLB_error_iff {s : System} {slot : Fin tlbSize} {p : ℕ}
    (hp : p < s.space.numPages) :
    s.loadToTLB slot p = .error .pageTable ↔ ¬ Replaceable s slot := by
  constructor
  · intro h hreplaceable
    unfold loadToTLB at h
    dsimp only at h
    rw [storeReplaced_iff.mpr ⟨hreplaceable, rfl⟩, ok_bind] at h
    have hnum : p < (s.writtenBack slot).space.numPages := by
      obtain ⟨hmap, -, -⟩ := s.writtenBack_same slot
      unfold space
      rw [hmap.currentSpace, hmap.numPages]
      exact hp
    rw [modifyEntry_natCast hnum, ok_bind,
      pageTableEntry_natCast (by rw [withEntry_numPages]; exact hnum), ok_bind] at h
    exact (updatePage_avoids pageTable_ofMemory _ _ _).bind (fun _ _ => .pure _ _) h
  · intro h
    have hvalid : (s.tlb slot).valid = true := by
      by_contra hinvalid
      exact h fun hvalid => absurd hvalid hinvalid
    have hpage : ¬ (0 ≤ (s.tlb slot).virtualPage ∧ (s.tlb slot).virtualPage < s.space.numPages) :=
      fun hpage => h fun _ => hpage
    unfold loadToTLB storeReplaced
    dsimp only
    rw [if_pos hvalid, modifyEntry_error_iff.mpr hpage]
    rfl

theorem fillTLB_error_iff {s : System} {p : ℕ} (hp : p < s.space.numPages)
    (hframes : s.invertedPageTable.replacementAlgorithm = .leastUsed →
      ∀ i, (s.tlb i).valid = true → InVector (s.tlb i).physicalPage) :
    s.fillTLB p = .error .pageTable ↔ Misplaced s.space.numPages s.tlb s.invertedPageTable := by
  unfold fillTLB Misplaced
  cases hfree : freeSlot s.tlb with
  | some slot =>
    have hreplaceable : Replaceable s slot := by
      intro hvalid
      rw [freeSlot_some hfree] at hvalid
      cases hvalid
    simp [loadToTLB_error_iff hp, hreplaceable]
  | none =>
    have hvalid := freeSlot_eq_none.mp hfree
    have hiff : ∀ slot, (∃ t, s.invertedPageTable.getTLBEntryToReplace s.tlb = .ok (slot, t)) ↔
        s.invertedPageTable.replacedSlot s.tlb = some slot :=
      fun slot => getTLBEntryToReplace_iff fun halg i => hframes halg i (hvalid i)
    have hload : ∀ slot t, { s with invertedPageTable := t }.loadToTLB slot p =
        .error .pageTable ↔ ¬ Replaceable s slot := fun slot t => loadToTLB_error_iff (by exact hp)
    constructor
    · intro h
      obtain ⟨⟨slot, t⟩, hchosen, h⟩ := (bind_error_iff.mp h).resolve_left
        (getTLBEntryToReplace_avoids pageTable_ofMemory _ _)
      exact ⟨rfl, slot, (hiff slot).mp ⟨t, hchosen⟩,
        fun hpage => (hload slot t).mp h fun _ => hpage⟩
    · rintro ⟨-, slot, hslot, hpage⟩
      obtain ⟨t, hchosen⟩ := (hiff slot).mpr hslot
      dsimp only
      rw [hchosen, ok_bind]
      exact (hload slot t).mpr fun h => hpage (h (hvalid slot))

/-! ## The handler -/

/-- What is to be loaded for `addr` is there and fits into frame `f`, or it was marked in swap
and has lost its mark by the time the frame was found. -/
def Arrives (s : System) (addr : ℕ) (sw : Swap) (f : ℤ) : Prop :=
  Incoming s addr sw f ∨ (s.memorySwap.isLoadedInSwap (addr / pageSize : ℕ) = true ∧
    sw.slotOf (addr / pageSize : ℕ) = none)

/-- The page faults, at an address of the address space, in which the handler leaves the page
table: the frame to be evicted is no page number of the address space; or a frame is had (none is
needed, one is free, one is evicted, or swap refuses the page and the frame is `-1`) and then the
TLB entry to be replaced is for a page that the address space does not have. -/
inductive Strays (s : System) (addr : ℕ) : Prop where
  | resident (hpage : (s.space.pageTable (addr / pageSize)).virtualPage ≠ -1)
    (hslot : Misplaced s.space.numPages s.tlb s.invertedPageTable)
  | victim {g : ℕ} (hpage : (s.space.pageTable (addr / pageSize)).virtualPage = -1)
    (hfull : s.invertedPageTable.physicalPagesBitmap.firstClear = none)
    (hnext : s.invertedPageTable.nextVictim = some (g : ℤ)) (hframe : g < numPhysPagesIPT)
    (hvictimPage : s.space.numPages ≤ g)
  | free {f : ℕ} (hpage : (s.space.pageTable (addr / pageSize)).virtualPage = -1)
    (hfree : s.invertedPageTable.physicalPagesBitmap.firstClear = some f)
    (harrives : Arrives s addr s.memorySwap f)
    (hslot : Misplaced s.space.numPages s.tlb s.invertedPageTable)
  | evicted {g j : ℕ} {t : InvertedPageTable}
    (hpage : (s.space.pageTable (addr / pageSize)).virtualPage = -1)
    (hfull : s.invertedPageTable.physicalPagesBitmap.firstClear = none)
    (hvictim : s.invertedPageTable.getEntryToReplace = .ok ((g : ℤ), t))
    (hframe : g < numPhysPagesIPT) (hvictimPage : g < s.space.numPages)
    (hsource : 0 ≤ t.virtualPageTable g ∧ t.virtualPageTable g < numPhysPages)
    (hspare : s.memorySwap.swapBitMap.firstClear = some j)
    (harrives : Arrives s addr (s.memorySwap.stored j g
      (Bytes.window s.mainMemory ((t.virtualPageTable g).toNat * pageSize))) g)
    (hslot : Misplaced s.space.numPages (dropFromTLB s.tlb g) t)
  | refused {g : ℕ} {t : InvertedPageTable}
    (hpage : (s.space.pageTable (addr / pageSize)).virtualPage = -1)
    (hfull : s.invertedPageTable.physicalPagesBitmap.firstClear = none)
    (hvictim : s.invertedPageTable.getEntryToReplace = .ok ((g : ℤ), t))
    (hframe : g < numPhysPagesIPT) (hvictimPage : g < s.space.numPages)
    (hspare : s.memorySwap.swapBitMap.firstClear = none)
    (harrives : Arrives s addr s.memorySwap (-1))
    (hslot : Misplaced s.space.numPages (dropFromTLB s.tlb g) t)

/-- The first half of the handler, for a page that has to be loaded. -/
theorem Arrives.loaded {s s₁ : System} {addr : ℕ} {f : ℤ}
    (hpage : (s.space.pageTable (addr / pageSize)).virtualPage = -1)
    (hframe : FrameFor s (addr / pageSize : ℕ) f s₁) (h : Arrives s addr s₁.memorySwap f) :
    ∃ s', Loaded s addr s' ∧ s'.tlb = s₁.tlb ∧ s'.invertedPageTable = s₁.invertedPageTable := by
  rcases h with h | ⟨hmarked, hslot⟩
  · obtain ⟨s', hloaded, -, htlb, hipt⟩ := h.loaded hpage hframe
    exact ⟨s', hloaded, htlb, hipt⟩
  · exact ⟨s₁, .lost hpage hmarked hframe hslot, rfl, rfl⟩

theorem Loaded.arrives {s s' : System} {addr : ℕ} (h : Loaded s addr s')
    (hpage : (s.space.pageTable (addr / pageSize)).virtualPage = -1) :
    ∃ f s₁, FrameFor s (addr / pageSize : ℕ) f s₁ ∧ Arrives s addr s₁.memorySwap f ∧
      s'.tlb = s₁.tlb ∧ s'.invertedPageTable = s₁.invertedPageTable := by
  cases h with
  | resident hpage' => exact absurd hpage hpage'
  | fromSwap _ hmarked hframe hslot hn hfits =>
    exact ⟨_, _, hframe, .inl (.inl ⟨hmarked, _, hslot, hn ▸ hfits⟩), rfl, rfl⟩
  | lost _ hmarked hframe hslot => exact ⟨_, _, hframe, .inr ⟨hmarked, hslot⟩, rfl, rfl⟩
  | fromDisk _ hmarked hframe htransfer hfits =>
    exact ⟨_, _, hframe, .inl (.inr ⟨hmarked, _, _, htransfer, hfits⟩), rfl, rfl⟩

/-- The first half of the handler fails on the page table exactly if getting a frame does. -/
theorem loadFromSwap_error_iff {s : System} {p : ℕ} (hrange : p < s.space.numPages) :
    s.loadFromSwap p = .error .pageTable ↔ s.getPhysicalPage p = .error .pageTable := by
  constructor
  · intro h
    refine (bind_error_iff.mp h).resolve_right ?_
    rintro ⟨⟨f, s₁⟩, hframe, h⟩
    have hkept := (getPhysicalPage_ok hframe).kept
    obtain ⟨⟨found, sw, m⟩, hread, h⟩ :=
      (bind_error_iff.mp h).resolve_left (readSwapMemory_avoids _ _ _ _)
    cases found with
    | false => cases h
    | true =>
      have hrange₁ : p < s₁.space.numPages := by
        rw [hkept.numPages]
        exact hrange
      dsimp only at h
      rw [if_pos rfl, modifyEntry_natCast (by exact hrange₁)] at h
      cases h
  · intro h
    unfold loadFromSwap
    rw [h]
    rfl

/-- A load from disk leaves the page table only when it looks for a frame. -/
theorem loadFromDisk_error_iff {s : System} {addr : ℕ}
    (hrange : addr / pageSize < s.space.numPages) : s.loadFromDisk addr = .error .pageTable ↔
      s.getPhysicalPage (addr / pageSize : ℕ) = .error .pageTable := by
  constructor
  · intro h
    by_contra hnot
    cases hframe : s.getPhysicalPage (addr / pageSize : ℕ) with
    | error e =>
      unfold loadFromDisk at h
      dsimp only at h
      rw [addr_tdiv, hframe] at h
      cases h
      exact hnot hframe
    | ok r =>
      obtain ⟨f, s₁⟩ := r
      rw [(getPhysicalPage_ok hframe).loadFromDisk hrange] at h
      refine (diskTransfer_avoids pageTable_ofMemory _ _).bind (fun transfer _ => ?_) h
      exact (copyIn_avoids _ _ _ _).bind fun m _ => .ok _ _
  · intro h
    unfold loadFromDisk
    dsimp only
    rw [addr_tdiv, h]
    rfl

/-- What the handler relies on, in every state the machine gets to. -/
structure Paged (s : System) : Prop where
  numbered : Numbered s
  allocating : Allocating s
  neverSwaps : NeverSwaps s

theorem Paged.switchTo {s : System} (h : Paged s) (c : ℕ) : Paged (s.switchTo c) :=
  ⟨h.numbered.switchTo c, h.allocating.switchTo c,
    fun halg => ⟨(h.neverSwaps halg).1, (h.neverSwaps halg).2.switchTo c⟩⟩

theorem Loaded.paged {s s' : System} {addr : ℕ} (hs : Paged s) (h : Loaded s addr s') : Paged s' :=
  ⟨h.numbered hs.numbered, h.allocating hs.allocating,
    (h.neverSwaps hs.allocating hs.neverSwaps).1⟩

/-- Once the page is loaded, the handler fails on the page table exactly if the TLB entry to be
replaced is for a page outside. -/
theorem Loaded.error_iff {s s' : System} {addr : ℕ} (hs : Paged s)
    (hrange : addr / pageSize < s.space.numPages) (h : Loaded s addr s') :
    s.pageFaultException addr = .error .pageTable ↔
      Misplaced s.space.numPages s'.tlb s'.invertedPageTable := by
  have hrange' : addr / pageSize < s'.space.numPages := by
    rw [h.kept.2.1]
    exact hrange
  rw [h.complete hs.numbered hs.allocating.swapBits hrange, ← h.kept.2.1]
  exact fillTLB_error_iff hrange' fun halg i => ((h.paged hs).neverSwaps halg).2.tlb i

/-- With the TLB misplaced after the load, the fault is one of those that leave the page table. -/
theorem Loaded.strays {s s' : System} {addr : ℕ} (h : Loaded s addr s')
    (hslot : Misplaced s.space.numPages s'.tlb s'.invertedPageTable) : Strays s addr := by
  by_cases hpage : (s.space.pageTable (addr / pageSize)).virtualPage = -1
  · obtain ⟨f, s₁, hframe, harrives, htlb, hipt⟩ := h.arrives hpage
    rw [htlb, hipt] at hslot
    cases hframe with
    | free hfree => exact .free hpage hfree harrives hslot
    | evicted hfull hvictim hframe hvictimPage hsource hspare =>
      exact .evicted hpage hfull hvictim hframe hvictimPage hsource hspare harrives hslot
    | refused hfull hvictim hframe hvictimPage hspare =>
      exact .refused hpage hfull hvictim hframe hvictimPage hspare harrives hslot
  · cases h.tables with
    | resident heq _ =>
      rw [heq] at hslot
      exact .resident hpage hslot
    | loaded hpage' => exact absurd hpage' hpage
    | lost hpage' => exact absurd hpage' hpage

/-- A page that has to be loaded and for which no frame can be had. -/
theorem pageFaultException_victim {s : System} {addr : ℕ}
    (hrange : addr / pageSize < s.space.numPages)
    (hpage : (s.space.pageTable (addr / pageSize)).virtualPage = -1)
    (h : s.getPhysicalPage (addr / pageSize : ℕ) = .error .pageTable) :
    s.pageFaultException addr = .error .pageTable := by
  by_cases hmarked : s.memorySwap.isLoadedInSwap (addr / pageSize : ℕ) = true
  · rw [pageFaultException_swap hrange hpage hmarked, (loadFromSwap_error_iff hrange).mpr h]
    rfl
  · rw [pageFaultException_disk hrange hpage (by simpa using hmarked),
      (loadFromDisk_error_iff hrange).mpr h]
    rfl

/-- At an address of the address space, the handler leaves the page table exactly in the states
that stray. -/
theorem pageFaultException_error_iff {s : System} {addr : ℕ} (hs : Paged s)
    (hrange : addr / pageSize < s.space.numPages) :
    s.pageFaultException addr = .error .pageTable ↔ Strays s addr := by
  constructor
  · intro h
    by_cases hpage : (s.space.pageTable (addr / pageSize)).virtualPage = -1
    · -- either no frame is had, or the second half fails
      by_cases hvictim : s.getPhysicalPage (addr / pageSize : ℕ) = .error .pageTable
      · obtain ⟨hfull, g, hnext, hframe, hg⟩ := getPhysicalPage_error_iff.mp hvictim
        exact .victim hpage hfull hnext hframe hg
      · have hloaded : ∃ s', Loaded s addr s' := by
          -- the two branches that load a page fail alike
          by_cases hmarked : s.memorySwap.isLoadedInSwap (addr / pageSize : ℕ) = true
          · rw [pageFaultException_swap hrange hpage hmarked] at h
            rcases bind_error_iff.mp h with h | ⟨s₁, hload, -⟩
            · exact absurd ((loadFromSwap_error_iff hrange).mp h) hvictim
            · exact ⟨s₁, loadFromSwap_ok hpage hmarked hload⟩
          · have hunmarked : s.memorySwap.isLoadedInSwap (addr / pageSize : ℕ) = false := by
              simpa using hmarked
            rw [pageFaultException_disk hrange hpage hunmarked] at h
            rcases bind_error_iff.mp h with h | ⟨⟨q, s₁⟩, hload, -⟩
            · exact absurd ((loadFromDisk_error_iff hrange).mp h) hvictim
            · exact ⟨s₁, (loadFromDisk_ok hpage hunmarked hload).2⟩
        obtain ⟨s', hloaded⟩ := hloaded
        exact hloaded.strays ((hloaded.error_iff hs hrange).mp h)
    · have hloaded : Loaded s addr s := .resident hpage
      exact hloaded.strays ((hloaded.error_iff hs hrange).mp h)
  · intro h
    cases h with
    | resident hpage hslot => exact ((Loaded.resident hpage).error_iff hs hrange).mpr hslot
    | victim hpage hfull hnext hframe hvictimPage =>
      exact pageFaultException_victim hrange hpage
        (getPhysicalPage_error_iff.mpr ⟨hfull, _, hnext, hframe, hvictimPage⟩)
    | free hpage hfree harrives hslot =>
      obtain ⟨s', hloaded, htlb, hipt⟩ := Arrives.loaded hpage (.free hfree) (by exact harrives)
      refine (hloaded.error_iff hs hrange).mpr ?_
      rw [htlb, hipt]
      exact hslot
    | evicted hpage hfull hvictim hframe hvictimPage hsource hspare harrives hslot =>
      obtain ⟨s', hloaded, htlb, hipt⟩ := Arrives.loaded hpage
        (.evicted hfull hvictim hframe hvictimPage hsource hspare) (by exact harrives)
      refine (hloaded.error_iff hs hrange).mpr ?_
      rw [htlb, hipt]
      exact hslot
    | refused hpage hfull hvictim hframe hvictimPage hspare harrives hslot =>
      obtain ⟨s', hloaded, htlb, hipt⟩ := Arrives.loaded hpage
        (.refused hfull hvictim hframe hvictimPage hspare) (by exact harrives)
      refine (hloaded.error_iff hs hrange).mpr ?_
      rw [htlb, hipt]
      exact hslot

/-! ## Accesses with any address -/

/-- The address is one of the current address space. -/
def Inside (s : System) (addr : ℤ) : Prop := 0 ≤ addr ∧ addr < s.space.numPages * pageSize

instance (s : System) (addr : ℤ) : Decidable (Inside s addr) :=
  inferInstanceAs (Decidable (_ ∧ _))

/-- The access does not index the page table outside, and an address outside the address space
is refused by `Translate` with `AddressErrorException`. -/
structure Guarded (s : System) (addr : ℤ) (size : Size) (writing : Bool) : Prop where
  index : s.resolve addr size writing ≠ .error .pageTable
  refused : ¬ Inside s addr → ∃ s', s.translate addr size writing = .ok (.error .addressError, s')

/-- An aligned address that is found is not refused. -/
theorem translate_aligned {s s' : System} {addr : ℤ} {size : Size} {w : Bool}
    {exception : MemException} (haligned : addr % size.bytes = 0)
    (h : s.translate addr size w = .ok (.error exception, s')) :
    exception ≠ .addressError ∧
      (exception = .pageFault → lookup s.tlb (vpn addr) = none ∧ s' = s) := by
  unfold translate at h
  rw [if_neg (not_not.mpr haligned)] at h
  split at h
  · rename_i hlookup
    cases h
    exact ⟨by decide, fun _ => ⟨hlookup, rfl⟩⟩
  · obtain ⟨t, -, h⟩ := bind_ok_iff.mp h
    obtain ⟨⟨r, e⟩, huse, h⟩ := bind_ok_iff.mp h
    cases h
    unfold useEntry at huse
    dsimp only at huse
    split at huse
    · cases huse
      exact ⟨by decide, fun h => by cases h⟩
    · split at huse
      · cases huse
        exact ⟨by decide, fun h => by cases h⟩
      · split at huse
        · cases huse
        · cases huse

/-- Only the page-fault handler indexes the page table. -/
theorem resolve_error_iff {s : System} {addr : ℤ} {size : Size} {w : Bool} :
    s.resolve addr size w = .error .pageTable ↔ addr % size.bytes = 0 ∧
      lookup s.tlb (vpn addr) = none ∧ s.pageFaultException addr = .error .pageTable := by
  constructor
  · intro h
    obtain ⟨⟨first, s₁⟩, hfirst, h⟩ := (bind_error_iff.mp h).resolve_left
      (translate_avoids pageTable_ofMemory _ _ _ _)
    cases first with
    | ok pa => cases h
    | error exception =>
      have hraise : s₁.raiseException exception addr = .error .pageTable := by
        refine (bind_error_iff.mp h).resolve_right ?_
        rintro ⟨s₂, -, h⟩
        refine (translate_avoids pageTable_ofMemory _ _ _ _).bind (fun second _ => ?_) h
        obtain ⟨result, s₃⟩ := second
        cases result with
        | ok pa => exact .pure _ _
        | error exception => exact .pure _ _
      cases exception with
      | readOnly => cases hraise
      | busError => cases hraise
      | addressError => cases hraise
      | pageFault =>
        by_cases haligned : addr % size.bytes = 0
        · obtain ⟨hlookup, rfl⟩ := (translate_aligned haligned hfirst).2 rfl
          exact ⟨haligned, hlookup, hraise⟩
        · unfold translate at hfirst
          rw [if_pos haligned] at hfirst
          cases hfirst
  · rintro ⟨haligned, hlookup, hfault⟩
    have hfirst : s.translate addr size w = .ok (.error .pageFault, s) := by
      unfold translate
      rw [if_neg (not_not.mpr haligned), hlookup]
    unfold resolve
    rw [hfirst, ok_bind]
    show (s.pageFaultException addr >>= _) = _
    rw [hfault]
    rfl

/-- An access is guarded exactly if its address is not aligned, or is one of the address space
that is in the TLB or whose page fault does not stray. -/
theorem guarded_iff {s : System} {addr : ℤ} {size : Size} {w : Bool} (hs : Paged s) :
    Guarded s addr size w ↔ addr % size.bytes ≠ 0 ∨ (Inside s addr ∧
      (lookup s.tlb (vpn addr) = none → ¬ Strays s addr.toNat)) := by
  by_cases haligned : addr % size.bytes = 0
  · constructor
    · rintro ⟨hindex, hrefused⟩
      have hinside : Inside s addr := by
        by_contra houtside
        obtain ⟨s', h⟩ := hrefused houtside
        exact (translate_aligned haligned h).1 rfl
      refine .inr ⟨hinside, fun hlookup hstrays => hindex ?_⟩
      obtain ⟨n, rfl⟩ := Int.eq_ofNat_of_zero_le hinside.1
      have hrange : n / pageSize < s.space.numPages :=
        Nat.div_lt_of_lt_mul (by rw [Nat.mul_comm]; exact_mod_cast hinside.2)
      exact resolve_error_iff.mpr
        ⟨haligned, hlookup, (pageFaultException_error_iff hs hrange).mpr hstrays⟩
    · rintro (hunaligned | ⟨hinside, hstays⟩)
      · exact absurd haligned hunaligned
      · refine ⟨fun h => ?_, fun houtside => absurd hinside houtside⟩
        obtain ⟨-, hlookup, hfault⟩ := resolve_error_iff.mp h
        obtain ⟨n, rfl⟩ := Int.eq_ofNat_of_zero_le hinside.1
        have hrange : n / pageSize < s.space.numPages :=
          Nat.div_lt_of_lt_mul (by rw [Nat.mul_comm]; exact_mod_cast hinside.2)
        exact hstays hlookup ((pageFaultException_error_iff hs hrange).mp hfault)
  · constructor
    · exact fun _ => .inl haligned
    · refine fun _ => ⟨fun h => haligned (resolve_error_iff.mp h).1, fun _ => ⟨s, ?_⟩⟩
      unfold translate
      rw [if_pos haligned]

/-! ## Every run of accesses, whatever their addresses -/

/-- A memory access as the machine gets it, with any `int` for an address. -/
structure RawAccess where
  space : ℕ
  addr : ℤ
  size : Size
  write : Option ℤ
  isInt : -2 ^ 31 ≤ addr ∧ addr < 2 ^ 31

/-- `ReadMem` or `WriteMem`, called for a thread of the address space. -/
def present (s : System) (a : RawAccess) : Except Fault System :=
  match a.write with
  | none => do
    let (_, s) ← (s.switchTo a.space).readMem a.addr a.size
    return s
  | some value => do
    let (_, s) ← (s.switchTo a.space).writeMem a.addr a.size value
    return s

/-- An access is a switch to its address space, a resolved address and what it does to the memory.
-/
theorem present_ok {s s' : System} {a : RawAccess} (h : s.present a = .ok s') : ∃ pa s₁ m,
    (s.switchTo a.space).resolve a.addr a.size a.write.isSome = .ok (pa, s₁) ∧
      s' = { s₁ with mainMemory := m } := by
  unfold present at h
  cases hw : a.write with
  | none =>
    rw [hw] at h
    obtain ⟨⟨value, s₂⟩, hread, h⟩ := bind_ok_iff.mp h
    obtain ⟨⟨pa, s₁⟩, hres, hread⟩ := bind_ok_iff.mp hread
    cases hread
    cases h
    exact ⟨pa, _, _, hres, rfl⟩
  | some v =>
    rw [hw] at h
    obtain ⟨⟨done, s₂⟩, hwrite, h⟩ := bind_ok_iff.mp h
    obtain ⟨⟨pa, s₁⟩, hres, hwrite⟩ := bind_ok_iff.mp hwrite
    refine ⟨pa, s₁, s'.mainMemory, hres, ?_⟩
    cases pa with
    | none => cases hwrite; cases h; rfl
    | some pa => cases hwrite; cases h; rfl

/-- What holds in every state the machine gets to. A TLB entry is for a page that a non-negative
address has, so that a negative address, which is taken for an `unsigned int` in the TLB, is
never found there. -/
structure Reached (s : System) : Prop extends Paged s where
  pages : ∀ i, (s.tlb i).valid = true → (s.tlb i).virtualPage < 2 ^ 24

theorem Booted.reached {s : System} (hboot : Booted s) : Reached s := by
  refine ⟨⟨hboot.numbered, hboot.allocating, fun _ => ⟨hboot.memorySwap, hboot.framesBelow⟩⟩,
    fun i hvalid => ?_⟩
  rw [hboot.tlb i] at hvalid
  cases hvalid

/-- A switch of address spaces keeps what is known of reachable states. -/
theorem Reached.switchTo {s : System} (h : Reached s) (c : ℕ) : Reached (s.switchTo c) :=
  ⟨h.toPaged.switchTo c, h.pages⟩

theorem Reached.withMemory {s : System} (h : Reached s) (m : Bytes) :
    Reached { s with mainMemory := m } := by
  refine ⟨⟨h.numbered, ⟨h.allocating.numBits, h.allocating.swapBits, h.allocating.unused⟩,
    fun halg => ?_⟩, h.pages⟩
  obtain ⟨hswap, hin⟩ := h.neverSwaps halg
  exact ⟨hswap, hin.resident, hin.tlb⟩

/-- It depends on the page tables, the frames and the TLB only. -/
theorem reached_of_same {s s' : System} (h : Reached s) (hmap : SameMapping s s')
    (htlb : SameTLB s.tlb s'.tlb) : Reached s' := by
  refine ⟨⟨numbered_of_same h.numbered hmap, allocating_of_same h.allocating hmap,
    fun halg => ?_⟩, fun i hvalid => ?_⟩
  · rw [hmap.frames.replacementAlgorithm] at halg
    rw [hmap.memorySwap]
    exact ⟨(h.neverSwaps halg).1, framesBelow_of_same (h.neverSwaps halg).2 hmap htlb⟩
  · rw [htlb.valid] at hvalid
    rw [htlb.virtualPage]
    exact h.pages i hvalid

/-- A bound on the pages of the TLB survives a load. -/
theorem Loaded.tlb_pages {s s' : System} {addr : ℕ} {n : ℤ} (hn : -1 < n)
    (hpages : ∀ i, (s.tlb i).valid = true → (s.tlb i).virtualPage < n) (h : Loaded s addr s') :
    ∀ i, (s'.tlb i).valid = true → (s'.tlb i).virtualPage < n := by
  have hmid : ∀ {f : ℤ} {s₁ : System}, FrameFor s (addr / pageSize : ℕ) f s₁ →
      ∀ i, (s₁.tlb i).valid = true → (s₁.tlb i).virtualPage < n := by
    intro f s₁ hframe i hvalid
    rcases hframe.tables with ⟨-, htlb⟩ | ⟨g, -, htlb⟩
    · rw [htlb] at hvalid ⊢
      exact hpages i hvalid
    · rw [htlb] at hvalid ⊢
      unfold dropFromTLB at hvalid ⊢
      split
      · exact hn
      · rename_i hne
        rw [if_neg hne] at hvalid
        exact hpages i hvalid
  cases h.tables with
  | resident heq _ => rw [heq]; exact hpages
  | loaded _ hframe _ _ htlb _ => rw [htlb]; exact hmid hframe
  | lost _ _ hframe _ heq => rw [heq]; exact hmid hframe

/-- A page fault at a page that a non-negative address has. -/
theorem Loaded.reached {s s₁ s₂ : System} {addr : ℕ} {slot : Fin tlbSize} (hs : Reached s)
    (hint : addr < 2 ^ 31) (h : Loaded s addr s₁) (hmap : SameMapping s₁ s₂)
    (htlb : s₂.tlb = Function.update s₁.tlb slot (s₁.translationOf slot (addr / pageSize))) :
    Reached s₂ := by
  have hpaged := h.paged hs.toPaged
  have hnever := h.neverSwaps hs.allocating hs.neverSwaps
  refine ⟨⟨numbered_of_same hpaged.numbered hmap, allocating_of_same hpaged.allocating hmap,
    fun halg => ?_⟩, fun i hvalid => ?_⟩
  · rw [hmap.frames.replacementAlgorithm] at halg
    rw [hmap.memorySwap]
    exact ⟨(hnever.1 halg).1, framesBelow_of_fill (hnever.1 halg).2 (hnever.2 halg) hmap htlb⟩
  · rw [htlb, Function.update_apply] at hvalid ⊢
    split
    · show (s₁.space.pageTable (addr / pageSize)).virtualPage < 2 ^ 24
      rcases hpaged.numbered s₁.currentSpace (addr / pageSize) with hpage | hpage
      · rw [space, hpage]
        decide
      · rw [space, hpage, pageSize_eq]
        omega
    · rename_i hi
      rw [if_neg hi] at hvalid
      exact h.tlb_pages (by decide) hs.pages i hvalid

/-- Every access keeps it. -/
theorem step_reached {s s' : System} {a : Access} (h : Reached s) (hstep : s.step a = .ok s') :
    Reached s' := by
  refine step_preserves reached_of_same (fun m hs => hs.withMemory m) ?_ h.numbered
    (fun _ => h.switchTo a.space) hstep
  intro s₁ s₂ slot _ _ hloaded hmap htlb
  exact hloaded.reached (h.switchTo a.space) a.isInt hmap htlb

/-! The addresses from `-127` to `-1` are divided to page `0`, which the handler then loads. -/

/-- The division truncates: a small negative address is in page 0. -/
theorem tdiv_pageSize_eq_zero {addr : ℤ} (hlow : -(pageSize : ℤ) < addr) (hneg : addr < 0) :
    addr.tdiv pageSize = 0 := by
  obtain ⟨k, rfl⟩ : ∃ k : ℤ, addr = -k := ⟨-addr, by omega⟩
  rw [Int.neg_tdiv, Int.tdiv_eq_zero_of_lt (by omega) (by omega), Int.neg_zero]

/-- A negative address asks for what the first byte of page `0` does, or for less or more of
it. -/
theorem diskRequest_negative {noffH : NoffHeader} {numPages : ℕ} {addr : ℤ}
    (hlow : -(pageSize : ℤ) < addr) (hneg : addr < 0) :
    diskRequest noffH numPages ((0 : ℕ) : ℤ) = none ∨
      diskRequest noffH numPages ((0 : ℕ) : ℤ) = diskRequest noffH numPages addr := by
  by_cases hstack : ((0 : ℕ) : ℤ) ≥ toInt (noffH.initData.size + noffH.uninitData.size
      + noffH.code.inFileAddr + noffH.code.size)
  · exact .inl (if_pos hstack)
  · have hstack' : ¬ addr ≥ toInt (noffH.initData.size + noffH.uninitData.size
        + noffH.code.inFileAddr + noffH.code.size) := by omega
    right
    unfold diskRequest
    dsimp only
    rw [if_neg hstack, if_neg hstack', tdiv_pageSize_eq_zero hlow hneg]
    rfl

/-- A load for a small negative address loads page 0. -/
theorem loadFromDisk_negative {s s' : System} {addr p : ℤ} (hlow : -(pageSize : ℤ) < addr)
    (hneg : addr < 0) (hpage : (s.space.pageTable 0).virtualPage = -1)
    (hmarked : s.memorySwap.isLoadedInSwap ((0 : ℕ) : ℤ) = false)
    (h : s.loadFromDisk addr = .ok (p, s')) :
    p = 0 ∧ ∃ s₁ m, Loaded s 0 s₁ ∧ s' = { s₁ with mainMemory := m } := by
  unfold loadFromDisk at h
  rw [tdiv_pageSize_eq_zero hlow hneg] at h
  obtain ⟨⟨f, s₁⟩, hframe, h⟩ := bind_ok_iff.mp h
  have hframe : FrameFor s ((0 / pageSize : ℕ) : ℤ) f s₁ := getPhysicalPage_ok hframe
  obtain ⟨s₂, hmod, h⟩ := bind_ok_iff.mp h
  obtain ⟨-, rfl⟩ := modifyEntry_ok_iff.mp hmod
  obtain ⟨noffH, hheader, h⟩ := bind_ok_iff.mp h
  simp only [withEntry_numPages, withEntry_ownExecutable, hframe.kept.numPages,
    hframe.kept.ownExecutable] at h hheader
  have hnothing : diskRequest noffH s.space.numPages ((0 : ℕ) : ℤ) = none →
      diskTransfer s.space ((0 : ℕ) : ℤ) = .ok (0, fun _ => 0) := by
    intro hrequest
    unfold diskTransfer
    rw [hheader, ok_bind, hrequest]
    rfl
  -- the bytes that are copied make no difference to the tables
  have hp : p = 0 ∧ ∃ m, s' = { s₁.withEntry (0 / pageSize) { s₁.space.pageTable (0 / pageSize)
      with physicalPage := f, virtualPage := (0 / pageSize : ℕ) } with mainMemory := m } := by
    split at h
    · cases h
      exact ⟨rfl, _, rfl⟩
    · obtain ⟨⟨n, bytes⟩, -, h⟩ := bind_ok_iff.mp h
      obtain ⟨m, -, h⟩ := bind_ok_iff.mp h
      cases h
      exact ⟨rfl, m, rfl⟩
  obtain ⟨rfl, m, rfl⟩ := hp
  refine ⟨rfl, ?_⟩
  rcases @diskRequest_negative noffH s.space.numPages _ hlow hneg with hnone | hsame
  · exact ⟨_, m, .fromDisk hpage hmarked hframe (hnothing hnone) (.inl rfl), rfl⟩
  · split at h
    · rename_i hrequest
      have htransfer := hnothing (hsame.trans hrequest)
      exact ⟨_, m, .fromDisk hpage hmarked hframe htransfer (.inl rfl), rfl⟩
    · rename_i positionOnFile size hrequest
      have htransfer : diskTransfer s.space ((0 : ℕ) : ℤ) =
          s.space.ownExecutable.readAt size positionOnFile := by
        unfold diskTransfer
        rw [hheader, ok_bind, hsame, hrequest]
      obtain ⟨⟨n, bytes⟩, hread, h⟩ := bind_ok_iff.mp h
      obtain ⟨m', hcopy, -⟩ := bind_ok_iff.mp h
      obtain ⟨hfits, -⟩ := copyIn_fits.mp hcopy
      exact ⟨_, m, .fromDisk hpage hmarked hframe (htransfer.trans hread) hfits, rfl⟩

/-- A fault at a small negative address brings page 0 in. -/
theorem pageFaultException_negative {s s' : System} {addr : ℤ} (hnum : Numbered s)
    (hlow : -(pageSize : ℤ) < addr) (hneg : addr < 0) (h : s.pageFaultException addr = .ok s') :
    ∃ s₁ m, Loaded s 0 s₁ ∧ { s₁ with mainMemory := m }.fillTLB ((0 : ℕ) : ℤ) = .ok s' := by
  have hdiv := tdiv_pageSize_eq_zero hlow hneg
  obtain ⟨isIn, hisIn, h⟩ := bind_ok_iff.mp h
  obtain ⟨q, hq, h⟩ := bind_ok_iff.mp h
  obtain ⟨entry, hentry, hisIn⟩ := bind_ok_iff.mp hisIn
  obtain ⟨-, rfl⟩ := pageTableEntry_ok_iff.mp hentry
  obtain ⟨entry, hentry', hq⟩ := bind_ok_iff.mp hq
  rw [hentry] at hentry'
  cases hentry'
  rw [pure_ok_iff, hdiv] at hisIn hq
  rcases hnum s.currentSpace 0 with hpage | hpage
  · have habsent : (s.space.pageTable 0).virtualPage = -1 := hpage
    rw [Int.toNat_zero, habsent] at hisIn hq
    simp only [bne_self_eq_false, ne_eq, not_true_eq_false, if_false] at hisIn hq
    subst hisIn hq
    simp only [Bool.false_eq_true, if_false] at h
    split at h
    · rename_i hmarked
      obtain ⟨s₁, hload, h⟩ := bind_ok_iff.mp h
      exact ⟨s₁, s₁.mainMemory, @loadFromSwap_ok s s₁ 0 habsent hmarked hload, h⟩
    · rename_i hmarked
      obtain ⟨⟨q, s₁⟩, hload, h⟩ := bind_ok_iff.mp h
      obtain ⟨rfl, s₂, m, hloaded, rfl⟩ :=
        loadFromDisk_negative hlow hneg habsent (by simpa using hmarked) hload
      exact ⟨s₂, m, hloaded, h⟩
  · have hres : (s.space.pageTable 0).virtualPage = ((0 : ℕ) : ℤ) := hpage
    have hne : (s.space.pageTable 0).virtualPage ≠ -1 := by
      rw [hres]; exact natCast_ne_neg_one _
    rw [Int.toNat_zero] at hisIn hq
    rw [if_pos hne] at hq
    have hin : isIn = true := by rw [← hisIn]; simpa using hne
    rw [hin, if_pos rfl, ← hq, hres] at h
    exact ⟨s, s.mainMemory, .resident hne, h⟩

/-- Below that the handler fails. -/
theorem pageFaultException_low {s : System} {addr : ℤ} (hlow : addr ≤ -(pageSize : ℤ)) :
    s.pageFaultException addr = .error .pageTable := by
  have hdiv : addr.tdiv pageSize < 0 := by
    obtain ⟨k, rfl⟩ : ∃ k : ℤ, addr = -k := ⟨-addr, by omega⟩
    rw [Int.neg_tdiv, Int.tdiv_eq_ediv_of_nonneg (by omega)]
    rw [pageSize_eq] at *
    omega
  have hentry : s.pageTableEntry (addr.tdiv pageSize) = .error .pageTable := by
    unfold pageTableEntry
    rw [if_neg (by omega)]
  rw [pageFaultException, isLoadedInPT, hentry]
  rfl

/-- An access to a negative address that is survived leaves what a page fault of page `0` does. -/
theorem resolve_negative {s s' : System} {addr : ℤ} {size : Size} {w : Bool} {pa : Option ℕ}
    (hs : Reached s) (hmin : -2 ^ 31 ≤ addr) (hneg : addr < 0)
    (h : s.resolve addr size w = .ok (pa, s')) : Reached s' := by
  have hmiss : ∀ {t : System}, Reached t → lookup t.tlb (vpn addr) = none := by
    intro t ht
    refine lookup_none_iff.mpr fun i hvalid hpage => ?_
    have hbound := ht.pages i hvalid
    rw [hpage, vpn, toUnsigned, pageSize_eq] at hbound
    omega
  have haligned : addr % size.bytes = 0 := by
    by_contra hunaligned
    unfold resolve translate at h
    rw [if_pos hunaligned] at h
    cases h
  have hfirst : ∀ {t : System} (b : Bool), Reached t →
      t.translate addr size b = .ok (.error .pageFault, t) := by
    intro t b ht
    unfold translate
    rw [if_neg (not_not.mpr haligned), hmiss ht]
  unfold resolve at h
  rw [hfirst w hs, ok_bind] at h
  obtain ⟨s₂, hraise, h⟩ := bind_ok_iff.mp h
  have hfault : s.pageFaultException addr = .ok s₂ := hraise
  have hlow : -(pageSize : ℤ) < addr := by
    by_contra hlow
    rw [pageFaultException_low (by omega)] at hfault
    cases hfault
  obtain ⟨s₁, m, hloaded, hfill⟩ := pageFaultException_negative hs.numbered hlow hneg hfault
  obtain ⟨slot, hmap, htlb⟩ := fillTLB_ok hfill
  have hreached : Reached s₂ := by
    have hmap' : SameMapping s₁ { s₂ with mainMemory := s₁.mainMemory } :=
      ⟨rfl, hmap.memorySwap, hmap.currentSpace, hmap.frames, hmap.numPages, hmap.ownExecutable,
        hmap.virtualPage, hmap.physicalPage⟩
    exact (hloaded.reached hs (by decide) hmap' htlb).withMemory s₂.mainMemory
  rw [hfirst true hreached, ok_bind] at h
  cases h
  exact hreached

/-- Every access at any address keeps it. -/
theorem present_reached {s s' : System} {a : RawAccess} (hs : Reached s)
    (h : s.present a = .ok s') : Reached s' := by
  obtain ⟨pa, s₁, m, hres, rfl⟩ := present_ok h
  refine Reached.withMemory ?_ m
  have hs' := hs.switchTo a.space
  rcases lt_or_ge a.addr 0 with hneg | hpos
  · exact resolve_negative hs' a.isInt.1 hneg hres
  · obtain ⟨n, hn⟩ := Int.eq_ofNat_of_zero_le hpos
    have hint := a.isInt.2
    rw [hn] at hres hint
    by_cases haligned : n % a.size.bytes = 0
    · -- an access of a run as they are elsewhere
      have hres := resolve_ok (a := ⟨a.space, n, a.size, a.write, haligned,
        by exact_mod_cast hint⟩) hres
      cases hres with
      | hit htranslated =>
        obtain ⟨hmap, htlb⟩ := htranslated.same
        exact reached_of_same hs' hmap htlb
      | fault _ hpf htranslated =>
        obtain ⟨hmap, htlb⟩ := htranslated.same
        obtain ⟨-, s₂, hloaded, hfill⟩ := pageFaultException_ok hs'.numbered hpf
        obtain ⟨slot, hmap', htlb'⟩ := fillTLB_ok hfill
        exact reached_of_same (hloaded.reached hs' (by exact_mod_cast hint) hmap' htlb') hmap htlb
    · have hunaligned : (n : ℤ) % (a.size.bytes : ℤ) ≠ 0 := by exact_mod_cast haligned
      unfold resolve translate at hres
      rw [if_pos hunaligned] at hres
      cases hres

/-- In every state that accesses with any addresses lead to, an access with any address is guarded
exactly if its address is not aligned, or is one of the address space that is in the TLB or whose
page fault does not stray. -/
theorem run_guarded_iff {s₀ s : System} {as : List RawAccess} (hboot : Booted s₀)
    (hrun : run present s₀ as = .ok s) (a : RawAccess) :
    Guarded (s.switchTo a.space) a.addr a.size a.write.isSome ↔
      a.addr % a.size.bytes ≠ 0 ∨ (Inside (s.switchTo a.space) a.addr ∧
        (lookup s.tlb (vpn a.addr) = none → ¬ Strays (s.switchTo a.space) a.addr.toNat)) := by
  have hs : Reached s :=
    run_invariant (fun s a s' h hst => present_reached h hst) hboot.reached hrun
  exact guarded_iff (hs.toPaged.switchTo a.space)

/-- The first access of a program, to its first byte. -/
theorem run_guarded_first : Guarded ((longProgram .fifo).switchTo 0) 0 .word false := by
  refine (@run_guarded_iff _ _ [] (longProgram_booted .fifo) rfl
    ⟨0, 0, .word, none, by decide⟩).mpr (.inr ⟨by decide +kernel, fun _ hstrays => ?_⟩)
  have hfree : (longProgram .fifo).invertedPageTable.physicalPagesBitmap.firstClear ≠ none := by
    decide +kernel
  cases hstrays with
  | resident hpage _ => exact hpage rfl
  | victim _ hfull => exact hfree hfull
  | free _ _ _ hslot => exact absurd (freeSlot_eq_none.mp hslot.1 0) (by decide)
  | evicted _ hfull => exact hfree hfull
  | refused _ hfull => exact hfree hfull

/-- The first address behind the end of a program is looked up in its page table. -/
theorem run_not_guarded : ¬ ∀ (s₀ s : System) (as : List RawAccess) (a : RawAccess), Booted s₀ →
    run present s₀ as = .ok s →
    Guarded (s.switchTo a.space) a.addr a.size a.write.isSome := by
  intro hall
  have hguarded := hall (longProgram .fifo) (longProgram .fifo) []
    ⟨0, 88 * 128, .word, none, by decide⟩ (longProgram_booted .fifo) rfl
  have houtside : ¬ 88 * 128 / pageSize < ((longProgram .fifo).switchTo 0).space.numPages := by
    decide +kernel
  exact hguarded.index (resolve_error_iff.mpr ⟨rfl, rfl, pageFaultException_outside houtside⟩)

end System
end NachOS
