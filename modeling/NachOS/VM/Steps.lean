import NachOS.VM.Access

/-!
# What one step of paging does

For every function of the paging code, what a call that returns has done to the state. The
results of the other files are all derived from these lemmas; none of them unfolds a
function of the model again.

Most of what the functions write is bookkeeping of the replacement policy, use and dirty
bits. `SameMapping` says that two states differ in no more than that and the TLB.
-/

namespace NachOS
namespace System

open PartialRun

/-- A page number is never the mark of an absent page. -/
theorem natCast_ne_neg_one (p : ℕ) : (p : ℤ) ≠ -1 := by omega

/-! ## Page-table updates -/

@[simp] theorem withEntry_tlb (s : System) (p : ℕ) (e : TranslationEntry) :
    (s.withEntry p e).tlb = s.tlb := rfl

@[simp] theorem withEntry_invertedPageTable (s : System) (p : ℕ) (e : TranslationEntry) :
    (s.withEntry p e).invertedPageTable = s.invertedPageTable := rfl

/-- Only the entry of the page differs. -/
@[simp] theorem withEntry_pageTable (s : System) (p : ℕ) (e : TranslationEntry) :
    (s.withEntry p e).space.pageTable = Function.update s.space.pageTable p e := by
  simp [withEntry, space]

@[simp] theorem withEntry_numPages (s : System) (p : ℕ) (e : TranslationEntry) :
    (s.withEntry p e).space.numPages = s.space.numPages := by
  simp [withEntry, space]

@[simp] theorem withEntry_ownExecutable (s : System) (p : ℕ) (e : TranslationEntry) :
    (s.withEntry p e).space.ownExecutable = s.space.ownExecutable := by
  simp [withEntry, space]

/-- The other address spaces are left alone. -/
theorem withEntry_spaces_of_ne (s : System) (p : ℕ) (e : TranslationEntry) {a : ℕ}
    (h : a ≠ s.currentSpace) : (s.withEntry p e).spaces a = s.spaces a := by
  simp [withEntry, h]

/-- Writing an entry goes well exactly for the pages of the table. -/
theorem modifyEntry_ok_iff {s s' : System} {page : ℤ}
    {f : TranslationEntry → TranslationEntry} :
    s.modifyEntry page f = .ok s' ↔ (0 ≤ page ∧ page < s.space.numPages) ∧
      s' = s.withEntry page.toNat (f (s.space.pageTable page.toNat)) := by
  unfold modifyEntry
  split
  · rename_i h
    simp only [Except.ok.injEq, h, and_self, true_and]
    exact eq_comm
  · rename_i h
    simp [h]

/-- So does reading one. -/
theorem pageTableEntry_ok_iff {s : System} {page : ℤ} {e : TranslationEntry} :
    s.pageTableEntry page = .ok e ↔ (0 ≤ page ∧ page < s.space.numPages) ∧
      e = s.space.pageTable page.toNat := by
  unfold pageTableEntry
  split
  · rename_i h
    simp only [Except.ok.injEq, h, and_self, true_and]
    exact eq_comm
  · rename_i h
    simp [h]

/-! ## States that differ in bookkeeping only -/

/-- The two tables map the same frames to the same pages and have the same frames in use. -/
structure SameFrames (t t' : InvertedPageTable) : Prop where
  virtualPageTable : t'.virtualPageTable = t.virtualPageTable
  physicalPagesBitmap : t'.physicalPagesBitmap = t.physicalPagesBitmap
  replacementAlgorithm : t'.replacementAlgorithm = t.replacementAlgorithm

/-- The two states hold the same bytes in memory and in swap, and the same pages in the
same frames. -/
structure SameMapping (s s' : System) : Prop where
  mainMemory : s'.mainMemory = s.mainMemory
  memorySwap : s'.memorySwap = s.memorySwap
  currentSpace : s'.currentSpace = s.currentSpace
  frames : SameFrames s.invertedPageTable s'.invertedPageTable
  numPages : ∀ a, (s'.spaces a).numPages = (s.spaces a).numPages
  ownExecutable : ∀ a, (s'.spaces a).ownExecutable = (s.spaces a).ownExecutable
  virtualPage : ∀ a p, ((s'.spaces a).pageTable p).virtualPage =
    ((s.spaces a).pageTable p).virtualPage
  physicalPage : ∀ a p, ((s'.spaces a).pageTable p).physicalPage =
    ((s.spaces a).pageTable p).physicalPage

theorem SameFrames.refl (t : InvertedPageTable) : SameFrames t t := ⟨rfl, rfl, rfl⟩

/-- One step after the other. -/
theorem SameFrames.trans {t t' t'' : InvertedPageTable} (h : SameFrames t t')
    (h' : SameFrames t' t'') : SameFrames t t'' :=
  ⟨h'.1.trans h.1, h'.2.trans h.2, h'.3.trans h.3⟩

theorem SameMapping.refl (s : System) : SameMapping s s :=
  ⟨rfl, rfl, rfl, .refl _, fun _ => rfl, fun _ => rfl, fun _ _ => rfl, fun _ _ => rfl⟩

/-- One step after the other. -/
theorem SameMapping.trans {s s' s'' : System} (h : SameMapping s s') (h' : SameMapping s' s'') :
    SameMapping s s'' where
  mainMemory := h'.mainMemory.trans h.mainMemory
  memorySwap := h'.memorySwap.trans h.memorySwap
  currentSpace := h'.currentSpace.trans h.currentSpace
  frames := h.frames.trans h'.frames
  numPages a := (h'.numPages a).trans (h.numPages a)
  ownExecutable a := (h'.ownExecutable a).trans (h.ownExecutable a)
  virtualPage a p := (h'.virtualPage a p).trans (h.virtualPage a p)
  physicalPage a p := (h'.physicalPage a p).trans (h.physicalPage a p)

/-- Rewriting an entry without changing its page and frame keeps the mapping. -/
theorem SameMapping.withEntry (s : System) (p : ℕ) {e : TranslationEntry}
    (hv : e.virtualPage = (s.space.pageTable p).virtualPage)
    (hp : e.physicalPage = (s.space.pageTable p).physicalPage) :
    SameMapping s (s.withEntry p e) := by
  have hcur : (s.withEntry p e).spaces s.currentSpace = (s.withEntry p e).space := rfl
  have hold : s.spaces s.currentSpace = s.space := rfl
  refine ⟨rfl, rfl, rfl, .refl _, fun a => ?_, fun a => ?_, fun a q => ?_, fun a q => ?_⟩
  all_goals by_cases h : a = s.currentSpace
  · rw [h, hcur, hold, withEntry_numPages]
  · rw [withEntry_spaces_of_ne s p e h]
  · rw [h, hcur, hold, withEntry_ownExecutable]
  · rw [withEntry_spaces_of_ne s p e h]
  · rw [h, hcur, hold, withEntry_pageTable, Function.update_apply]
    split
    · rename_i hq; rw [hv, hq]
    · rfl
  · rw [withEntry_spaces_of_ne s p e h]
  · rw [h, hcur, hold, withEntry_pageTable, Function.update_apply]
    split
    · rename_i hq; rw [hp, hq]
    · rfl
  · rw [withEntry_spaces_of_ne s p e h]

/-! ## The replacement policy -/

/-- Counting a use or queueing a frame does not change who has which frame. -/
theorem updatePage_frames {t t' : InvertedPageTable} {f : ℤ} {b : Bool}
    (h : t.updatePage f b = .ok t') : SameFrames t t' := by
  unfold InvertedPageTable.updatePage at h
  split at h
  · cases h; exact ⟨rfl, rfl, rfl⟩
  · cases h; exact ⟨rfl, rfl, rfl⟩
  · simp only [bind_ok_iff, pure_ok_iff] at h
    obtain ⟨_, _, _, _, rfl⟩ := h
    exact ⟨rfl, rfl, rfl⟩

/-- Nor does choosing a TLB slot. -/
theorem getTLBEntryToReplace_frames {t t' : InvertedPageTable}
    {tlb : Fin tlbSize → TranslationEntry} {i : Fin tlbSize}
    (h : t.getTLBEntryToReplace tlb = .ok (i, t')) : SameFrames t t' := by
  unfold InvertedPageTable.getTLBEntryToReplace at h
  split at h
  · cases h
  · obtain ⟨⟨frame, queue⟩, -, h⟩ := bind_ok_iff.mp h
    dsimp only at h
    split at h
    · cases h; exact ⟨rfl, rfl, rfl⟩
    · cases h
  · simp only [bind_ok_iff, pure_ok_iff] at h
    obtain ⟨_, _, _, _, _, _, h⟩ := h
    cases h
    exact ⟨rfl, rfl, rfl⟩

/-- Choosing a frame to evict keeps the frames in use; only least used touches the page of
the frame it chose. -/
theorem getEntryToReplace_frames {t t' : InvertedPageTable} {g : ℤ}
    (h : t.getEntryToReplace = .ok (g, t')) :
    t'.physicalPagesBitmap = t.physicalPagesBitmap ∧
      t'.replacementAlgorithm = t.replacementAlgorithm ∧
      ∀ f, t'.virtualPageTable f = t.virtualPageTable f ∨
        ((f : ℤ) = g ∧ t'.virtualPageTable f = -1) := by
  unfold InvertedPageTable.getEntryToReplace at h
  split at h
  · split at h
    · cases h
    · cases h; exact ⟨rfl, rfl, fun _ => .inl rfl⟩
  · obtain ⟨⟨frame, queue⟩, -, h⟩ := bind_ok_iff.mp h
    cases h
    exact ⟨rfl, rfl, fun _ => .inl rfl⟩
  · cases h
    refine ⟨rfl, rfl, fun f => ?_⟩
    simp only [Function.update_apply]
    split
    · rename_i hf; exact .inr ⟨by rw [hf], rfl⟩
    · exact .inl rfl

/-- Reading a vector goes well inside its bounds. -/
theorem vectorGet_ok_iff {v : ℕ → ℤ} {i x : ℤ} :
    vectorGet v i = .ok x ↔ (0 ≤ i ∧ i < numPhysPagesIPT) ∧ x = v i.toNat := by
  unfold vectorGet
  split
  · rename_i h
    simp [h, eq_comm]
  · rename_i h
    simp [h]

/-- Writing it does too, and changes one entry. -/
theorem vectorSet_ok_iff {v v' : ℕ → ℤ} {i x : ℤ} :
    vectorSet v i x = .ok v' ↔
      (0 ≤ i ∧ i < numPhysPagesIPT) ∧ v' = Function.update v i.toNat x := by
  unfold vectorSet
  split
  · rename_i h
    simp [h, eq_comm]
  · rename_i h
    simp [h]

/-! ## Getting a frame -/

/-- A page-table entry after `AddrSpace::swap`. -/
def emptied (e : TranslationEntry) : TranslationEntry :=
  { e with physicalPage := -1, virtualPage := -1, valid := false }

/-- The state once page `p` is out of the page table and of the TLB. -/
def dropPage (s : System) (p : ℕ) : System :=
  { s.withEntry p (emptied (s.space.pageTable p)) with tlb := dropFromTLB s.tlb p }

/-- The state once the free frame `f` has been handed to page `p`. -/
def giveFrame (s : System) (f : ℕ) (p : ℤ) : System :=
  { s with invertedPageTable := { s.invertedPageTable with
      physicalPagesBitmap := s.invertedPageTable.physicalPagesBitmap.markBit f
      virtualPageTable := Function.update s.invertedPageTable.virtualPageTable f p
      pageCounter := s.invertedPageTable.pageCounter + 1 } }

/-- The state once frame `g` has been emptied into slot `j` and handed to page `p`, `t`
being the table the policy leaves. The page taken out is page `g`, the bytes stored are
those of the frame numbered like the page the table has for `g`. -/
def evict (s : System) (g j : ℕ) (t : InvertedPageTable) (p : ℤ) : System :=
  { s.dropPage g with
    memorySwap := s.memorySwap.stored j g
      (Bytes.window s.mainMemory ((t.virtualPageTable g).toNat * pageSize))
    invertedPageTable := { t with
      virtualPageTable := Function.update t.virtualPageTable g p
      pageCounter := t.pageCounter - 1 + 1 } }

/-- The outcomes of `getPhysicalPage`: the frame and the state after. -/
inductive FrameFor (s : System) (p : ℤ) : ℤ → System → Prop where
  | free {f : ℕ} (hfree : s.invertedPageTable.physicalPagesBitmap.firstClear = some f) :
    FrameFor s p f (s.giveFrame f p)
  | evicted {g j : ℕ} {t : InvertedPageTable}
    (hfull : s.invertedPageTable.physicalPagesBitmap.firstClear = none)
    (hvictim : s.invertedPageTable.getEntryToReplace = .ok ((g : ℤ), t))
    (hframe : g < numPhysPagesIPT) (hpage : g < s.space.numPages)
    (hsource : 0 ≤ t.virtualPageTable g ∧ t.virtualPageTable g < numPhysPages)
    (hslot : s.memorySwap.swapBitMap.firstClear = some j) :
    FrameFor s p g (s.evict g j t p)
  | refused {g : ℕ} {t : InvertedPageTable}
    (hfull : s.invertedPageTable.physicalPagesBitmap.firstClear = none)
    (hvictim : s.invertedPageTable.getEntryToReplace = .ok ((g : ℤ), t))
    (hframe : g < numPhysPagesIPT) (hpage : g < s.space.numPages)
    (hslot : s.memorySwap.swapBitMap.firstClear = none) :
    FrameFor s p (-1) { s.dropPage g with invertedPageTable := t }

/-- A free frame is handed out as it is. -/
theorem getPhysicalPage_free {s : System} {f : ℕ} (p : ℤ)
    (hfree : s.invertedPageTable.physicalPagesBitmap.firstClear = some f) :
    s.getPhysicalPage p = .ok ((f : ℤ), s.giveFrame f p) := by
  unfold getPhysicalPage BitMap.find
  rw [hfree]
  rfl

/-- What `getPhysicalPage` did, if it came to an end. -/
theorem getPhysicalPage_ok {s s' : System} {p f : ℤ} (h : s.getPhysicalPage p = .ok (f, s')) :
    FrameFor s p f s' := by
  cases hfree : s.invertedPageTable.physicalPagesBitmap.firstClear with
  | some n =>
    rw [getPhysicalPage_free p hfree] at h
    cases h
    exact .free hfree
  | none =>
    unfold getPhysicalPage BitMap.find at h
    rw [hfree] at h
    obtain ⟨⟨pos, t⟩, hvictim, h⟩ := bind_ok_iff.mp h
    obtain ⟨page, hpage, h⟩ := bind_ok_iff.mp h
    obtain ⟨⟨hpos, hlt⟩, rfl⟩ := vectorGet_ok_iff.mp hpage
    obtain ⟨g, rfl⟩ := Int.eq_ofNat_of_zero_le hpos
    obtain ⟨⟨isSwaped, s₁⟩, hswap, h⟩ := bind_ok_iff.mp h
    unfold swap at hswap
    obtain ⟨s₂, hmod, hswap⟩ := bind_ok_iff.mp hswap
    obtain ⟨⟨-, hnum⟩, rfl⟩ := modifyEntry_ok_iff.mp hmod
    obtain ⟨⟨stored, sw⟩, hwrite, hswap⟩ := bind_ok_iff.mp hswap
    rw [pure_ok_iff] at hswap
    cases hswap
    rcases Swap.writeSwapMemory_ok_iff.mp hwrite with ⟨hslot, rfl, rfl⟩ | ⟨j, hslot, hsrc, rfl, rfl⟩
    · cases h
      exact .refused hfree hvictim (by simpa using hlt) (by simpa [space] using hnum) hslot
    · obtain ⟨v, hset, h⟩ := bind_ok_iff.mp h
      obtain ⟨-, rfl⟩ := vectorSet_ok_iff.mp hset
      cases h
      exact .evicted hfree hvictim (by simpa using hlt) (by simpa [space] using hnum) hsrc hslot

/-! Getting a frame touches no other address space, no byte of memory and no executable. -/

/-- The victim's page is looked for in the current address space only. -/
theorem dropPage_spaces_of_ne (s : System) (p : ℕ) {a : ℕ} (h : a ≠ s.currentSpace) :
    (s.dropPage p).spaces a = s.spaces a := withEntry_spaces_of_ne s p _ h

/-- The victim's entry is emptied, and no other. -/
theorem dropPage_pageTable (s : System) (p : ℕ) : (s.dropPage p).space.pageTable =
    Function.update s.space.pageTable p (emptied (s.space.pageTable p)) :=
  withEntry_pageTable s p _

/-- What getting a frame leaves alone. -/
structure FrameFor.Kept (s s' : System) : Prop where
  mainMemory : s'.mainMemory = s.mainMemory
  currentSpace : s'.currentSpace = s.currentSpace
  others : ∀ a, a ≠ s.currentSpace → s'.spaces a = s.spaces a
  numPages : s'.space.numPages = s.space.numPages
  ownExecutable : s'.space.ownExecutable = s.space.ownExecutable

/-- Finding a frame changes none of the programs. -/
theorem FrameFor.kept {s s' : System} {p f : ℤ} (h : FrameFor s p f s') :
    FrameFor.Kept s s' := by
  have hnum : ∀ g : ℕ, (s.dropPage g).space.numPages = s.space.numPages :=
    fun g => withEntry_numPages s g _
  have hexe : ∀ g : ℕ, (s.dropPage g).space.ownExecutable = s.space.ownExecutable :=
    fun g => withEntry_ownExecutable s g _
  cases h with
  | free hfree => exact ⟨rfl, rfl, fun _ _ => rfl, rfl, rfl⟩
  | evicted hfull hvictim hframe hpage hsource hslot =>
    exact ⟨rfl, rfl, fun a ha => dropPage_spaces_of_ne s _ ha, hnum _, hexe _⟩
  | refused hfull hvictim hframe hpage hslot =>
    exact ⟨rfl, rfl, fun a ha => dropPage_spaces_of_ne s _ ha, hnum _, hexe _⟩

/-! ## Bringing a page in -/

/-- The bytes `loadFromDisk` copies for a fault at `addr`, and how many. -/
def diskTransfer (space : AddrSpace) (addr : ℤ) : Except Fault (ℕ × Bytes) := do
  let noffH ← space.ownExecutable.noffHeader
  match diskRequest noffH space.numPages addr with
  | none => return (0, fun _ => 0)
  | some (positionOnFile, size) => space.ownExecutable.readAt size positionOnFile

/-- The state once the entry of page `p` is `e` with frame `f`, and `n` bytes have been
copied into that frame. -/
def install (s : System) (p : ℕ) (e : TranslationEntry) (f : ℤ) (n : ℕ) (bytes : Bytes) :
    System :=
  { s.withEntry p { e with physicalPage := f, virtualPage := p } with
    mainMemory := Bytes.blit s.mainMemory (f * pageSize).toNat n bytes }

/-- The `n` bytes of frame `f` are in main memory, or there are none. -/
def Fits (f : ℤ) (n : ℕ) : Prop := n = 0 ∨ (0 ≤ f * pageSize ∧ f * pageSize + n ≤ memorySize)

/-- The outcomes of the first half of the page-fault handler, for the page of `addr`. -/
inductive Loaded (s : System) (addr : ℕ) : System → Prop where
  /-- The page is in the page table. -/
  | resident (hpage : (s.space.pageTable (addr / pageSize)).virtualPage ≠ -1) : Loaded s addr s
  /-- The page was marked in swap, and still was once a frame had been found. -/
  | fromSwap {f : ℤ} {s₁ : System} {i n : ℕ}
    (hpage : (s.space.pageTable (addr / pageSize)).virtualPage = -1)
    (hmarked : s.memorySwap.isLoadedInSwap (addr / pageSize : ℕ) = true)
    (hframe : FrameFor s (addr / pageSize : ℕ) f s₁)
    (hslot : s₁.memorySwap.slotOf (addr / pageSize : ℕ) = some i)
    (hn : n = min pageSize (s₁.memorySwap.swapSegment.length - i * pageSize))
    (hfits : Fits f n) :
    Loaded s addr ({ s₁ with memorySwap := s₁.memorySwap.released i }.install (addr / pageSize)
      { s₁.space.pageTable (addr / pageSize) with valid := true, dirty := false } f n
      (Bytes.window s₁.memorySwap.swapSegment.data (i * pageSize)))
  /-- The page was marked in swap, and no longer was once a frame had been found. -/
  | lost {f : ℤ} {s₁ : System}
    (hpage : (s.space.pageTable (addr / pageSize)).virtualPage = -1)
    (hmarked : s.memorySwap.isLoadedInSwap (addr / pageSize : ℕ) = true)
    (hframe : FrameFor s (addr / pageSize : ℕ) f s₁)
    (hslot : s₁.memorySwap.slotOf (addr / pageSize : ℕ) = none) :
    Loaded s addr s₁
  | fromDisk {f : ℤ} {s₁ : System} {n : ℕ} {bytes : Bytes}
    (hpage : (s.space.pageTable (addr / pageSize)).virtualPage = -1)
    (hmarked : s.memorySwap.isLoadedInSwap (addr / pageSize : ℕ) = false)
    (hframe : FrameFor s (addr / pageSize : ℕ) f s₁)
    (htransfer : diskTransfer s.space addr = .ok (n, bytes))
    (hfits : Fits f n) :
    Loaded s addr (s₁.install (addr / pageSize) (s₁.space.pageTable (addr / pageSize)) f n bytes)

/-- The division of C gives the page, since addresses are not negative. -/
theorem addr_tdiv (addr : ℕ) : (addr : ℤ).tdiv pageSize = ((addr / pageSize : ℕ) : ℤ) := by
  rw [Int.tdiv_eq_ediv_of_nonneg (by omega)]
  norm_cast

/-- Copying goes well exactly if the bytes fit into the main memory. -/
theorem copyIn_fits {m m' : Bytes} {f : ℤ} {n : ℕ} {bytes : Bytes} :
    copyIn m (f * pageSize) n bytes = .ok m' ↔
      Fits f n ∧ m' = Bytes.blit m (f * pageSize).toNat n bytes := copyIn_ok_iff

/-- The branch of a page that swap has. -/
theorem loadFromSwap_ok {s s' : System} {addr : ℕ}
    (hpage : (s.space.pageTable (addr / pageSize)).virtualPage = -1)
    (hmarked : s.memorySwap.isLoadedInSwap (addr / pageSize : ℕ) = true)
    (h : s.loadFromSwap (addr / pageSize : ℕ) = .ok s') : Loaded s addr s' := by
  obtain ⟨⟨f, s₁⟩, hframe, h⟩ := bind_ok_iff.mp h
  have hframe := getPhysicalPage_ok hframe
  obtain ⟨⟨found, sw, m⟩, hread, h⟩ := bind_ok_iff.mp h
  rcases Swap.readSwapMemory_ok_iff.mp hread with
    ⟨hslot, rfl, rfl, rfl⟩ | ⟨i, n, hslot, -, hn, hfits, rfl, rfl, rfl⟩
  · cases h
    exact .lost hpage hmarked hframe hslot
  · dsimp only at h
    rw [if_pos rfl] at h
    obtain ⟨-, rfl⟩ := modifyEntry_ok_iff.mp h
    exact .fromSwap hpage hmarked hframe hslot hn hfits

/-- The branch of a page that swap does not have. -/
theorem loadFromDisk_ok {s s' : System} {addr : ℕ} {p : ℤ}
    (hpage : (s.space.pageTable (addr / pageSize)).virtualPage = -1)
    (hmarked : s.memorySwap.isLoadedInSwap (addr / pageSize : ℕ) = false)
    (h : s.loadFromDisk addr = .ok (p, s')) :
    p = (addr / pageSize : ℕ) ∧ Loaded s addr s' := by
  unfold loadFromDisk at h
  rw [addr_tdiv] at h
  obtain ⟨⟨f, s₁⟩, hframe, h⟩ := bind_ok_iff.mp h
  have hframe := getPhysicalPage_ok hframe
  obtain ⟨s₂, hmod, h⟩ := bind_ok_iff.mp h
  obtain ⟨-, rfl⟩ := modifyEntry_ok_iff.mp hmod
  obtain ⟨noffH, hheader, h⟩ := bind_ok_iff.mp h
  simp only [withEntry_numPages, withEntry_ownExecutable, hframe.kept.numPages,
    hframe.kept.ownExecutable] at h hheader
  have htransfer : diskTransfer s.space addr =
      match diskRequest noffH s.space.numPages addr with
      | none => .ok (0, fun _ => 0)
      | some (positionOnFile, size) => s.space.ownExecutable.readAt size positionOnFile := by
    unfold diskTransfer
    rw [hheader]
    rfl
  split at h
  · rename_i hreq
    rw [hreq] at htransfer
    cases h
    refine ⟨rfl, ?_⟩
    have hload := Loaded.fromDisk hpage hmarked hframe htransfer (.inl rfl)
    rw [install, Bytes.blit_zero] at hload
    exact hload
  · rename_i positionOnFile size hreq
    rw [hreq] at htransfer
    obtain ⟨⟨n, bytes⟩, hread, h⟩ := bind_ok_iff.mp h
    obtain ⟨m, hcopy, h⟩ := bind_ok_iff.mp h
    obtain ⟨hfits, rfl⟩ := copyIn_fits.mp hcopy
    cases h
    exact ⟨rfl, .fromDisk hpage hmarked hframe (htransfer.trans hread) hfits⟩

/-! ## Loading a TLB entry -/

/-- The TLB entry a slot holds once page `p` has been loaded into it. -/
def translationOf (s : System) (slot : Fin tlbSize) (p : ℕ) : TranslationEntry :=
  { s.tlb slot with
    virtualPage := (s.space.pageTable p).virtualPage
    physicalPage := (s.space.pageTable p).physicalPage
    valid := true }

/-- Loading the TLB fills the slot and leaves the frames with their pages. -/
theorem loadToTLB_ok {s s' : System} {slot : Fin tlbSize} {p : ℕ}
    (h : s.loadToTLB slot p = .ok s') :
    SameMapping s s' ∧ s'.tlb = Function.update s.tlb slot (s.translationOf slot p) := by
  unfold loadToTLB at h
  obtain ⟨s₁, hsave, h⟩ := bind_ok_iff.mp h
  have hs₁ : SameMapping s s₁ ∧ s₁.tlb = s.tlb := by
    unfold storeReplaced at hsave
    split at hsave
    · obtain ⟨-, rfl⟩ := modifyEntry_ok_iff.mp hsave
      exact ⟨.withEntry s _ rfl rfl, rfl⟩
    · cases hsave
      exact ⟨.refl s, rfl⟩
  obtain ⟨s₂, hvalid, h⟩ := bind_ok_iff.mp h
  obtain ⟨-, rfl⟩ := modifyEntry_ok_iff.mp hvalid
  obtain ⟨entry, hentry, h⟩ := bind_ok_iff.mp h
  obtain ⟨-, rfl⟩ := pageTableEntry_ok_iff.mp hentry
  obtain ⟨t, ht, h⟩ := bind_ok_iff.mp h
  cases h
  have hs₂ : SameMapping s₁ (s₁.withEntry ((p : ℤ)).toNat
      { s₁.space.pageTable ((p : ℤ)).toNat with valid := true }) := .withEntry s₁ _ rfl rfl
  have hmap := hs₁.1.trans hs₂
  refine ⟨⟨hmap.mainMemory, hmap.memorySwap, hmap.currentSpace,
    hmap.frames.trans (updatePage_frames ht), hmap.numPages, hmap.ownExecutable,
    hmap.virtualPage, hmap.physicalPage⟩, ?_⟩
  have hcur := hs₁.1.currentSpace
  have hv := hs₁.1.virtualPage s.currentSpace p
  have hp := hs₁.1.physicalPage s.currentSpace p
  rw [← hcur] at hv hp
  simp only [withEntry_tlb, hs₁.2, withEntry_pageTable, Int.toNat_natCast, Function.update_self]
  congr 1
  show TranslationEntry.mk _ _ _ _ _ _ = translationOf s slot p
  unfold translationOf space
  rw [hv, hp, ← hcur]

/-- The handler's second half puts the page's translation into some slot. -/
theorem fillTLB_ok {s s' : System} {p : ℕ} (h : s.fillTLB p = .ok s') :
    ∃ slot, SameMapping s s' ∧
      s'.tlb = Function.update s.tlb slot (s.translationOf slot p) := by
  unfold fillTLB at h
  split at h
  · rename_i slot _
    exact ⟨slot, loadToTLB_ok h⟩
  · obtain ⟨⟨slot, t⟩, ht, h⟩ := bind_ok_iff.mp h
    obtain ⟨hmap, htlb⟩ := loadToTLB_ok h
    have hframes := getTLBEntryToReplace_frames ht
    exact ⟨slot, ⟨hmap.mainMemory, hmap.memorySwap, hmap.currentSpace,
      hframes.trans hmap.frames, hmap.numPages, hmap.ownExecutable, hmap.virtualPage,
      hmap.physicalPage⟩, htlb⟩

/-! ## A page fault -/

/-- An entry for page `p` that is in use names page `p`. -/
def Numbered (s : System) : Prop := ∀ a p,
  ((s.spaces a).pageTable p).virtualPage = -1 ∨ ((s.spaces a).pageTable p).virtualPage = p

/-- A page fault loads the page, then the TLB. -/
theorem pageFaultException_ok {s s' : System} {addr : ℕ} (hnum : Numbered s)
    (h : s.pageFaultException addr = .ok s') :
    addr / pageSize < s.space.numPages ∧
      ∃ s₁, Loaded s addr s₁ ∧ s₁.fillTLB (addr / pageSize : ℕ) = .ok s' := by
  obtain ⟨isIn, hisIn, h⟩ := bind_ok_iff.mp h
  obtain ⟨q, hq, h⟩ := bind_ok_iff.mp h
  obtain ⟨entry, hentry, hisIn⟩ := bind_ok_iff.mp hisIn
  rw [addr_tdiv] at hentry
  obtain ⟨⟨-, hlt⟩, rfl⟩ := pageTableEntry_ok_iff.mp hentry
  obtain ⟨entry, hentry', hq⟩ := bind_ok_iff.mp hq
  rw [addr_tdiv, hentry] at hentry'
  cases hentry'
  rw [pure_ok_iff] at hisIn hq
  rw [addr_tdiv] at hq
  simp only [Int.toNat_natCast] at hisIn hq
  have hlt' : addr / pageSize < s.space.numPages := by exact_mod_cast hlt
  refine ⟨hlt', ?_⟩
  rcases hnum s.currentSpace (addr / pageSize) with hpage | hpage
  · -- not in the page table: the page number comes from the address
    have habsent : (s.space.pageTable (addr / pageSize)).virtualPage = -1 := hpage
    rw [habsent] at hisIn hq
    simp only [bne_self_eq_false, ne_eq, not_true_eq_false, if_false] at hisIn hq
    subst hisIn hq
    simp only [Bool.false_eq_true, if_false] at h
    split at h
    · rename_i hmarked
      obtain ⟨s₁, hload, h⟩ := bind_ok_iff.mp h
      exact ⟨s₁, loadFromSwap_ok habsent hmarked hload, h⟩
    · rename_i hmarked
      obtain ⟨⟨q, s₁⟩, hload, h⟩ := bind_ok_iff.mp h
      obtain ⟨rfl, hloaded⟩ := loadFromDisk_ok habsent (by simpa using hmarked) hload
      exact ⟨s₁, hloaded, h⟩
  · have hres : (s.space.pageTable (addr / pageSize)).virtualPage = (addr / pageSize : ℕ) := hpage
    have hne : (s.space.pageTable (addr / pageSize)).virtualPage ≠ -1 := by
      rw [hres]; exact natCast_ne_neg_one _
    rw [if_pos hne] at hq
    have hin : isIn = true := by rw [← hisIn]; simpa using hne
    rw [hin, if_pos rfl, ← hq, hres] at h
    exact ⟨s, .resident hne, h⟩

/-! ## Translation -/

/-- Two TLBs hold the same translations, whatever their use and dirty bits. -/
structure SameTLB (t t' : Fin tlbSize → TranslationEntry) : Prop where
  virtualPage : ∀ i, (t' i).virtualPage = (t i).virtualPage
  physicalPage : ∀ i, (t' i).physicalPage = (t i).physicalPage
  valid : ∀ i, (t' i).valid = (t i).valid
  readOnly : ∀ i, (t' i).readOnly = (t i).readOnly

theorem SameTLB.refl (t : Fin tlbSize → TranslationEntry) : SameTLB t t :=
  ⟨fun _ => rfl, fun _ => rfl, fun _ => rfl, fun _ => rfl⟩

/-- The page of an address. -/
theorem vpn_natCast {addr : ℕ} (h : addr < 2 ^ 31) : vpn addr = addr / pageSize := by
  rw [vpn, toUnsigned_natCast (by omega)]

/-- Its offset in the page. -/
theorem offset_natCast {addr : ℕ} (h : addr < 2 ^ 31) : offset addr = addr % pageSize := by
  rw [offset, toUnsigned_natCast (by omega)]

/-- An entry `lookup` returns is valid and for the page asked for. -/
theorem lookup_some {t : Fin tlbSize → TranslationEntry} {p : ℕ} {i : Fin tlbSize}
    (h : lookup t p = some i) : (t i).valid = true ∧ (t i).virtualPage = p := by
  have := List.find?_some h
  simpa using this

/-- A miss: no valid entry is for the page. -/
theorem lookup_none_iff {t : Fin tlbSize → TranslationEntry} {p : ℕ} :
    lookup t p = none ↔ ∀ i, (t i).valid = true → (t i).virtualPage ≠ p := by
  simp [lookup, List.find?_eq_none]

/-- What `useEntry` answers is the entry's frame, or an exception other than a page fault. -/
theorem useEntry_ok {e e' : TranslationEntry} {off : ℕ} {size : Size} {w : Bool}
    {r : Except MemException ℕ} (h : useEntry e off size w = .ok (r, e')) :
    (e'.virtualPage = e.virtualPage ∧ e'.physicalPage = e.physicalPage ∧ e'.valid = e.valid ∧
      e'.readOnly = e.readOnly) ∧ r ≠ .error .pageFault ∧
      ∀ pa, r = .ok pa →
        toUnsigned e.physicalPage < numPhysPages ∧
          pa = toUnsigned e.physicalPage * pageSize + off := by
  unfold useEntry at h
  dsimp only at h
  split at h
  · cases h; simp
  · split at h
    · cases h; simp
    · rename_i hlt
      split at h
      · cases h
        refine ⟨⟨rfl, rfl, rfl, rfl⟩, by simp, fun pa hpa => ?_⟩
        cases hpa
        exact ⟨by omega, rfl⟩
      · cases h

/-- The outcomes of `Translate` for an aligned address. -/
inductive Translated (s : System) (addr : ℕ) (size : Size) (writing : Bool) :
    Except MemException ℕ → System → Prop where
  | miss (hlookup : lookup s.tlb (addr / pageSize) = none) :
    Translated s addr size writing (.error .pageFault) s
  | hit {i : Fin tlbSize} {t : InvertedPageTable} {r : Except MemException ℕ}
    {e : TranslationEntry}
    (hlookup : lookup s.tlb (addr / pageSize) = some i)
    (hupdate : s.invertedPageTable.updatePage (s.tlb i).physicalPage false = .ok t)
    (huse : useEntry (s.tlb i) (addr % pageSize) size writing = .ok (r, e)) :
    Translated s addr size writing r
      { s with invertedPageTable := t, tlb := Function.update s.tlb i e }

/-- `Translate` for an aligned address, in one relation. -/
theorem translate_ok_iff {s s' : System} {addr : ℕ} {size : Size} {w : Bool}
    {r : Except MemException ℕ} (haligned : addr % size.bytes = 0) (hint : addr < 2 ^ 31) :
    s.translate addr size w = .ok (r, s') ↔ Translated s addr size w r s' := by
  have hal : ¬ ((addr : ℤ) % (size.bytes : ℤ) ≠ 0) := by
    rw [not_not]
    exact_mod_cast haligned
  unfold translate
  rw [if_neg hal, vpn_natCast hint, offset_natCast hint]
  constructor
  · intro h
    split at h
    · rename_i hlookup
      cases h
      exact .miss hlookup
    · rename_i i hlookup
      obtain ⟨t, ht, h⟩ := bind_ok_iff.mp h
      obtain ⟨⟨r', e⟩, huse, h⟩ := bind_ok_iff.mp h
      cases h
      exact .hit hlookup ht huse
  · intro h
    cases h with
    | miss hlookup => rw [hlookup]
    | hit hlookup hupdate huse =>
      rw [hlookup]
      simp only [bind_ok_iff, pure_ok_iff]
      exact ⟨_, hupdate, _, huse, rfl⟩

/-- Writing an entry back with other use and dirty bits. -/
theorem sameTLB_update {t : Fin tlbSize → TranslationEntry} {i : Fin tlbSize}
    {e : TranslationEntry} (hv : e.virtualPage = (t i).virtualPage)
    (hp : e.physicalPage = (t i).physicalPage) (hvalid : e.valid = (t i).valid)
    (hro : e.readOnly = (t i).readOnly) : SameTLB t (Function.update t i e) := by
  constructor
  all_goals
    intro k
    simp only [Function.update_apply]
    split
    · rename_i hk; rw [hk]; assumption
    · rfl

/-- Translation changes bookkeeping only. -/
theorem Translated.same {s s' : System} {addr : ℕ} {size : Size} {w : Bool}
    {r : Except MemException ℕ} (h : Translated s addr size w r s') :
    SameMapping s s' ∧ SameTLB s.tlb s'.tlb := by
  cases h with
  | miss hlookup => exact ⟨.refl s, .refl _⟩
  | @hit i t r e hlookup hupdate huse =>
    obtain ⟨⟨hv, hp, hvalid, hro⟩, -, -⟩ := useEntry_ok huse
    exact ⟨⟨rfl, rfl, rfl, updatePage_frames hupdate, fun _ => rfl, fun _ => rfl, fun _ _ => rfl,
      fun _ _ => rfl⟩, sameTLB_update hv hp hvalid hro⟩

/-! ## Accesses -/

/-- A thread of address space `a` becomes the current one. -/
def switchTo (s : System) (a : ℕ) : System := { s with currentSpace := a }

@[simp] theorem switchTo_space (s : System) (a : ℕ) : (s.switchTo a).space = s.spaces a := rfl

@[simp] theorem switchTo_tlb (s : System) (a : ℕ) : (s.switchTo a).tlb = s.tlb := rfl

/-- The outcomes of `Translate`, the trap and the second `Translate`. -/
inductive Resolved (s : System) (a : Access) : Option ℕ → System → Prop where
  | hit {pa : ℕ} {s' : System}
    (htranslated : Translated s a.addr a.size a.write.isSome (.ok pa) s') :
    Resolved s a (some pa) s'
  | fault {s₁ s' : System} {r : Except MemException ℕ}
    (hlookup : lookup s.tlb a.page = none)
    (hfault : s.pageFaultException a.addr = .ok s₁)
    (htranslated : Translated s₁ a.addr a.size true r s') :
    Resolved s a r.toOption s'

/-- The translation of an access, with the fault if there was one. -/
theorem resolve_ok {s s' : System} {a : Access} {pa : Option ℕ}
    (h : s.resolve a.addr a.size a.write.isSome = .ok (pa, s')) : Resolved s a pa s' := by
  obtain ⟨⟨r, s₁⟩, hfirst, h⟩ := bind_ok_iff.mp h
  have hfirst := (translate_ok_iff a.aligned a.isInt).mp hfirst
  cases r with
  | ok pa =>
    cases h
    exact .hit hfirst
  | error e =>
    obtain ⟨s₂, hraise, h⟩ := bind_ok_iff.mp h
    obtain ⟨⟨r₂, s₃⟩, hsecond, h⟩ := bind_ok_iff.mp h
    cases e with
    | readOnly => cases hraise
    | busError => cases hraise
    | addressError => cases hraise
    | pageFault =>
      cases hfirst with
      | hit _ _ huse => exact absurd rfl (useEntry_ok huse).2.1
      | miss hlookup =>
        have hsecond := (translate_ok_iff a.aligned a.isInt).mp hsecond
        cases r₂ with
        | ok pa => cases h; exact .fault hlookup hraise hsecond
        | error e => cases h; exact .fault hlookup hraise hsecond

/-- An access resolves its address and then reads or writes memory there. -/
theorem access_ok {s s' : System} {a : Access} {reply : Reply}
    (h : s.access a = .ok (reply, s')) :
    ∃ pa s₁, Resolved (s.switchTo a.space) a pa s₁ ∧
      match a.write, pa with
      | none, some pa => reply = .value (readValue s₁.mainMemory pa a.size) ∧ s' = s₁
      | some v, some pa => reply = .wrote ∧ s' =
          { s₁ with mainMemory := Bytes.blit s₁.mainMemory pa a.size.bytes (valueBytes v) }
      | _, none => reply = .failed ∧ s' = s₁ := by
  unfold access at h
  dsimp only at h
  cases hw : a.write with
  | none =>
    rw [hw] at h
    obtain ⟨⟨value, s₂⟩, hread, h⟩ := bind_ok_iff.mp h
    obtain ⟨⟨pa, s₁⟩, hres, hread⟩ := bind_ok_iff.mp hread
    cases hread
    cases h
    refine ⟨pa, _, resolve_ok (by rw [hw]; exact hres), ?_⟩
    cases pa with
    | none => exact ⟨rfl, rfl⟩
    | some pa => exact ⟨rfl, rfl⟩
  | some v =>
    rw [hw] at h
    obtain ⟨⟨done, s₂⟩, hwrite, h⟩ := bind_ok_iff.mp h
    obtain ⟨⟨pa, s₁⟩, hres, hwrite⟩ := bind_ok_iff.mp hwrite
    refine ⟨pa, s₁, resolve_ok (by rw [hw]; exact hres), ?_⟩
    cases pa with
    | none => cases hwrite; cases h; exact ⟨rfl, rfl⟩
    | some pa => cases hwrite; cases h; exact ⟨rfl, rfl⟩

/-- A step is a resolved access, up to the bytes it writes. -/
theorem step_ok {s s' : System} {a : Access} (h : s.step a = .ok s') :
    ∃ pa s₁ m, Resolved (s.switchTo a.space) a pa s₁ ∧ s' = { s₁ with mainMemory := m } := by
  obtain ⟨⟨reply, s₂⟩, hacc, h⟩ := bind_ok_iff.mp h
  cases h
  obtain ⟨pa, s₁, hres, heq⟩ := access_ok hacc
  refine ⟨pa, s₁, s'.mainMemory, hres, ?_⟩
  rcases hw : a.write with _ | v
  all_goals
    rw [hw] at heq
    rcases pa with _ | pa
    all_goals
      rw [heq.2]

end System
end NachOS
