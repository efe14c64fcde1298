import NachOS.VM.Agreement

/-!
# The page-fault handler, run forward

`Steps` says what a call that returns has done. Here is the converse: when what a function
asks for is there, the call returns, with the outcome the relations `FrameFor` and `Loaded`
describe. Together they make the two relations exact.
-/

namespace NachOS
namespace System

open PartialRun

/-! ## Looking the page up -/

theorem pageTableEntry_natCast {s : System} {p : ℕ} (h : p < s.space.numPages) :
    s.pageTableEntry p = .ok (s.space.pageTable p) :=
  pageTableEntry_ok_iff.mpr ⟨⟨by omega, by exact_mod_cast h⟩, rfl⟩

theorem modifyEntry_natCast {s : System} {p : ℕ} (h : p < s.space.numPages)
    (f : TranslationEntry → TranslationEntry) :
    s.modifyEntry p f = .ok (s.withEntry p (f (s.space.pageTable p))) :=
  modifyEntry_ok_iff.mpr ⟨⟨by omega, by exact_mod_cast h⟩, rfl⟩

theorem isLoadedInPT_natCast {s : System} {addr : ℕ} (h : addr / pageSize < s.space.numPages) :
    s.isLoadedInPT addr = .ok ((s.space.pageTable (addr / pageSize)).virtualPage != -1) := by
  rw [isLoadedInPT, addr_tdiv, pageTableEntry_natCast h]
  rfl

theorem getVirtualPage_natCast {s : System} {addr : ℕ} (h : addr / pageSize < s.space.numPages) :
    s.getVirtualPage addr = .ok (if (s.space.pageTable (addr / pageSize)).virtualPage ≠ -1
      then (s.space.pageTable (addr / pageSize)).virtualPage else (addr / pageSize : ℕ)) := by
  rw [getVirtualPage, addr_tdiv, pageTableEntry_natCast h]
  rfl

/-- An address past the end of the address space. -/
theorem pageFaultException_outside {s : System} {addr : ℕ}
    (h : ¬ addr / pageSize < s.space.numPages) : s.pageFaultException addr = .error .pageTable := by
  have hentry : s.pageTableEntry (addr / pageSize : ℕ) = .error .pageTable := by
    unfold pageTableEntry
    rw [if_neg (by omega)]
  rw [pageFaultException, isLoadedInPT, addr_tdiv, hentry]
  rfl

/-- A page in memory only needs a TLB entry. -/
theorem pageFaultException_resident {s : System} {addr : ℕ} (hnum : Numbered s)
    (hrange : addr / pageSize < s.space.numPages)
    (hpage : (s.space.pageTable (addr / pageSize)).virtualPage ≠ -1) :
    s.pageFaultException addr = s.fillTLB (addr / pageSize : ℕ) := by
  have hpage' : (s.space.pageTable (addr / pageSize)).virtualPage = (addr / pageSize : ℕ) :=
    (hnum s.currentSpace (addr / pageSize)).resolve_left hpage
  rw [pageFaultException, isLoadedInPT_natCast hrange, getVirtualPage_natCast hrange, ok_bind,
    ok_bind, if_pos (by simpa using hpage), if_pos hpage, hpage']

/-- A page that is neither in memory nor marked in swap comes from the executable. -/
theorem pageFaultException_disk {s : System} {addr : ℕ}
    (hrange : addr / pageSize < s.space.numPages)
    (hpage : (s.space.pageTable (addr / pageSize)).virtualPage = -1)
    (hunmarked : s.memorySwap.isLoadedInSwap (addr / pageSize : ℕ) = false) :
    s.pageFaultException addr =
      s.loadFromDisk addr >>= fun loaded => loaded.2.fillTLB loaded.1 := by
  rw [pageFaultException, isLoadedInPT_natCast hrange, getVirtualPage_natCast hrange, ok_bind,
    ok_bind, if_neg (by simpa using hpage), if_neg (not_not.mpr hpage), hunmarked,
    if_neg Bool.false_ne_true]

theorem pageFaultException_swap {s : System} {addr : ℕ}
    (hrange : addr / pageSize < s.space.numPages)
    (hpage : (s.space.pageTable (addr / pageSize)).virtualPage = -1)
    (hmarked : s.memorySwap.isLoadedInSwap (addr / pageSize : ℕ) = true) :
    s.pageFaultException addr =
      s.loadFromSwap (addr / pageSize : ℕ) >>= fun s₁ => s₁.fillTLB (addr / pageSize : ℕ) := by
  rw [pageFaultException, isLoadedInPT_natCast hrange, getVirtualPage_natCast hrange, ok_bind,
    ok_bind, if_neg (by simpa using hpage), if_neg (not_not.mpr hpage), if_pos hmarked]

/-! ## Getting a frame -/

theorem swap_eq {s : System} {g : ℕ} (v : ℤ) (hpage : g < s.space.numPages) :
    s.swap g v = s.memorySwap.writeSwapMemory s.mainMemory v g >>= fun stored =>
      .ok (stored.1, { s.dropPage g with memorySwap := stored.2 }) := by
  unfold swap
  rw [modifyEntry_natCast hpage]
  rfl

/-- `getPhysicalPage` has every outcome `FrameFor` allows. -/
theorem FrameFor.complete {s s₁ : System} {p f : ℤ} (h : FrameFor s p f s₁) :
    s.getPhysicalPage p = .ok (f, s₁) := by
  cases h with
  | free hfree => exact getPhysicalPage_free p hfree
  | @evicted g j t hfull hvictim hframe hpage hsource hslot =>
    have hget : vectorGet t.virtualPageTable g = .ok (t.virtualPageTable g) :=
      vectorGet_ok_iff.mpr ⟨⟨by omega, by exact_mod_cast hframe⟩, rfl⟩
    have hset : vectorSet t.virtualPageTable g p =
        .ok (Function.update t.virtualPageTable g p) :=
      vectorSet_ok_iff.mpr ⟨⟨by omega, by exact_mod_cast hframe⟩, rfl⟩
    have hwrite : s.memorySwap.writeSwapMemory s.mainMemory (t.virtualPageTable g) g =
        .ok (true, s.memorySwap.stored j g
          (Bytes.window s.mainMemory ((t.virtualPageTable g).toNat * pageSize))) :=
      Swap.writeSwapMemory_ok_iff.mpr (.inr ⟨j, hslot, hsource, rfl, rfl⟩)
    unfold getPhysicalPage BitMap.find
    simp only [hfull, hvictim, ok_bind, hget]
    rw [swap_eq _ (by exact hpage)]
    show (s.memorySwap.writeSwapMemory s.mainMemory (t.virtualPageTable g) g >>= _) >>= _ = _
    rw [hwrite]
    simp only [ok_bind, hset, if_true]
    rfl
  | @refused g t hfull hvictim hframe hpage hslot =>
    have hget : vectorGet t.virtualPageTable g = .ok (t.virtualPageTable g) :=
      vectorGet_ok_iff.mpr ⟨⟨by omega, by exact_mod_cast hframe⟩, rfl⟩
    have hwrite : s.memorySwap.writeSwapMemory s.mainMemory (t.virtualPageTable g) g =
        .ok (false, s.memorySwap) :=
      Swap.writeSwapMemory_ok_iff.mpr (.inl ⟨hslot, rfl, rfl⟩)
    unfold getPhysicalPage BitMap.find
    simp only [hfull, hvictim, ok_bind, hget]
    rw [swap_eq _ (by exact hpage)]
    show (s.memorySwap.writeSwapMemory s.mainMemory (t.virtualPageTable g) g >>= _) >>= _ = _
    rw [hwrite]
    rfl

/-! ## Bringing a page in -/

/-- `loadFromDisk`, once a frame has been found: the transfer into it. -/
theorem FrameFor.loadFromDisk {s s₁ : System} {addr : ℕ} {f : ℤ}
    (hrange : addr / pageSize < s.space.numPages)
    (hframe : FrameFor s (addr / pageSize : ℕ) f s₁) :
    s.loadFromDisk addr = diskTransfer s.space addr >>= fun transfer =>
      copyIn s₁.mainMemory (f * pageSize) transfer.1 transfer.2 >>= fun m =>
        .ok (((addr / pageSize : ℕ) : ℤ),
          { s₁.withEntry (addr / pageSize) { s₁.space.pageTable (addr / pageSize) with
              physicalPage := f, virtualPage := (addr / pageSize : ℕ) } with
            mainMemory := m }) := by
  have hrange₁ : addr / pageSize < s₁.space.numPages := by rw [hframe.kept.numPages]; exact hrange
  unfold System.loadFromDisk diskTransfer
  simp only [addr_tdiv, hframe.complete, ok_bind, modifyEntry_natCast hrange₁,
    withEntry_numPages, withEntry_ownExecutable, hframe.kept.numPages, hframe.kept.ownExecutable]
  cases s.space.ownExecutable.noffHeader with
  | error e => rfl
  | ok noffH =>
    simp only [ok_bind]
    cases diskRequest noffH s.space.numPages addr with
    | none => rfl
    | some request => rfl

theorem FrameFor.swapBits {s s₁ : System} {p f : ℤ} (h : FrameFor s p f s₁) :
    s₁.memorySwap.swapBitMap.numBits = s.memorySwap.swapBitMap.numBits := by
  cases h with
  | free hfree => rfl
  | evicted hfull hvictim hframe hpage hsource hslot => rfl
  | refused hfull hvictim hframe hpage hslot => rfl

/-- The handler has every outcome `Loaded` allows, up to the choice of a TLB slot. -/
theorem Loaded.complete {s s' : System} {addr : ℕ} (hnum : Numbered s)
    (hbits : s.memorySwap.swapBitMap.numBits = swapPagesQuantity)
    (hrange : addr / pageSize < s.space.numPages) (h : Loaded s addr s') :
    s.pageFaultException addr = s'.fillTLB (addr / pageSize : ℕ) := by
  cases h with
  | resident hpage => exact pageFaultException_resident hnum hrange hpage
  | @fromSwap f s₁ i n hpage hmarked hframe hslot hn hfits =>
    have hrange₁ : addr / pageSize < s₁.space.numPages := by
      rw [hframe.kept.numPages]; exact hrange
    have hi : i < s₁.memorySwap.swapBitMap.numBits := by
      rw [hframe.swapBits, hbits]
      exact (Swap.slotOf_eq_some hslot).1
    have hread : s₁.memorySwap.readSwapMemory s₁.mainMemory f (addr / pageSize : ℕ) =
        .ok (true, s₁.memorySwap.released i, Bytes.blit s₁.mainMemory (f * pageSize).toNat n
          (Bytes.window s₁.memorySwap.swapSegment.data (i * pageSize))) :=
      Swap.readSwapMemory_ok_iff.mpr (.inr ⟨i, n, hslot, hi, hn, hfits, rfl, rfl, rfl⟩)
    rw [pageFaultException_swap hrange hpage hmarked, loadFromSwap, hframe.complete]
    simp only [ok_bind, hread, if_true]
    rw [modifyEntry_natCast (by exact hrange₁)]
    rfl
  | @lost f _ hpage hmarked hframe hslot =>
    have hread : s'.memorySwap.readSwapMemory s'.mainMemory f (addr / pageSize : ℕ) =
        .ok (false, s'.memorySwap, s'.mainMemory) :=
      Swap.readSwapMemory_ok_iff.mpr (.inl ⟨hslot, rfl, rfl, rfl⟩)
    rw [pageFaultException_swap hrange hpage hmarked, loadFromSwap, hframe.complete]
    simp only [ok_bind, hread]
    rfl
  | fromDisk hpage hmarked hframe htransfer hfits =>
    rw [pageFaultException_disk hrange hpage hmarked, hframe.loadFromDisk hrange, htransfer,
      ok_bind, copyIn_fits.mpr ⟨hfits, rfl⟩]
    rfl

end System
end NachOS
