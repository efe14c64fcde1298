import NachOS.VM.FreeFrames

/-!
# Progress of the page-fault handler

When the handler returns with an entry for the faulting page in the TLB, from which the
access can go on: the choice of a TLB slot, and the exact condition under which a page fault
in a reachable state makes progress.
-/

namespace NachOS

/-! ## The slot to replace -/

namespace InvertedPageTable

/-- The slot of the page with the fewest uses, the first of them. -/
def leastUsedSlot (tlb : Fin tlbSize → TranslationEntry) (uses : ℕ → ℤ) : Fin tlbSize :=
  (List.finRange tlbSize).tail.foldl (fun best slot =>
    if uses (tlb slot).physicalPage.toNat < uses (tlb best).physicalPage.toNat then slot
    else best) 0

/-- The slot `getTLBEntryToReplace` should return, if there is one: FIFO has none, and
second chance takes the frame number of its queue for a slot. -/
def replacedSlot (ipt : InvertedPageTable) (tlb : Fin tlbSize → TranslationEntry) :
    Option (Fin tlbSize) :=
  match ipt.replacementAlgorithm with
  | .fifo => none
  | .secondChance => (secondChancePick ipt.secondChanceQueue).bind fun frame =>
    if h : 0 ≤ frame ∧ frame.toNat < tlbSize then some ⟨frame.toNat, h.2⟩ else none
  | .leastUsed => some (leastUsedSlot tlb ipt.uses)

/-- The frame is an index of the vectors. -/
def InVector (frame : ℤ) : Prop := 0 ≤ frame ∧ frame < numPhysPagesIPT

open PartialRun

/-- The loop over the slots, from a candidate with its frame and uses. -/
theorem leastUsedSlot_foldlM {tlb : Fin tlbSize → TranslationEntry} {uses : ℕ → ℤ}
    (hframes : ∀ i, InVector (tlb i).physicalPage) (slots : List (Fin tlbSize)) :
    ∀ best, slots.foldlM (leastUsedSlotStep tlb uses)
        (best, (tlb best).physicalPage, uses (tlb best).physicalPage.toNat) =
      .ok (let chosen := slots.foldl (fun best slot =>
          if uses (tlb slot).physicalPage.toNat < uses (tlb best).physicalPage.toNat then slot
          else best) best
        (chosen, (tlb chosen).physicalPage, uses (tlb chosen).physicalPage.toNat)) := by
  induction slots with
  | nil => exact fun best => rfl
  | cons slot slots ih =>
    intro best
    rw [List.foldlM_cons, leastUsedSlotStep, System.vectorGet_ok_iff.mpr ⟨hframes slot, rfl⟩,
      ok_bind, List.foldl_cons]
    split
    · exact ih slot
    · exact ih best

/-- `getTLBEntryToReplace` returns a slot exactly when there is one to return. -/
theorem getTLBEntryToReplace_iff {ipt : InvertedPageTable}
    {tlb : Fin tlbSize → TranslationEntry} {slot : Fin tlbSize}
    (hframes : ipt.replacementAlgorithm = .leastUsed → ∀ i, InVector (tlb i).physicalPage) :
    (∃ ipt', ipt.getTLBEntryToReplace tlb = .ok (slot, ipt')) ↔
      ipt.replacedSlot tlb = some slot := by
  unfold getTLBEntryToReplace replacedSlot
  cases halg : ipt.replacementAlgorithm with
  | fifo => simp
  | secondChance =>
    -- a frame number is used as a slot: it has to be below the size of the TLB
    by_cases hne : ipt.secondChanceQueue = []
    · rw [hne]
      constructor
      · rintro ⟨_, h⟩
        cases h
      · intro h
        cases h
    · obtain ⟨frame, rest, hloop, hpick⟩ := secondChance_eq hne
      simp only [hloop, ok_bind, hpick, Option.bind_some]
      split
      · rename_i hin
        rw [dif_pos hin.symm]
        simp [pure, Except.pure]
      · rename_i hout
        rw [dif_neg (mt And.symm hout)]
        simp
  | leastUsed =>
    -- the frames of the TLB are in the vector, so every count can be read
    have hframes := hframes halg
    have hget : ∀ i, vectorGet ipt.uses (tlb i).physicalPage =
      .ok (ipt.uses (tlb i).physicalPage.toNat) :=
      fun i => System.vectorGet_ok_iff.mpr ⟨hframes i, rfl⟩
    have hset : ∀ i, vectorSet ipt.uses (tlb i).physicalPage 0 =
      .ok (Function.update ipt.uses (tlb i).physicalPage.toNat 0) :=
      fun i => System.vectorSet_ok_iff.mpr ⟨hframes i, rfl⟩
    simp only [hget, ok_bind, leastUsedSlot_foldlM hframes, hset]
    constructor
    · rintro ⟨ipt', h⟩
      cases h
      rfl
    · intro h
      cases h
      exact ⟨_, rfl⟩

end InvertedPageTable

namespace System

open PartialRun InvertedPageTable

/-- The slot the handler loads: the first one not in use, else the one to replace. -/
def slotToLoad (tlb : Fin tlbSize → TranslationEntry) (ipt : InvertedPageTable) :
    Option (Fin tlbSize) := (freeSlot tlb).or (ipt.replacedSlot tlb)

/-- There is a slot to load, and the page of the entry in it, if that is in use, is a page
of the current address space. -/
def SlotOk (numPages : ℕ) (tlb : Fin tlbSize → TranslationEntry) (ipt : InvertedPageTable) :
    Prop :=
  ∃ slot ∈ slotToLoad tlb ipt, (tlb slot).valid = true →
    0 ≤ (tlb slot).virtualPage ∧ (tlb slot).virtualPage < numPages

/-- A free slot is not valid. -/
theorem freeSlot_some {tlb : Fin tlbSize → TranslationEntry} {i : Fin tlbSize}
    (h : freeSlot tlb = some i) : (tlb i).valid = false := by
  have := List.find?_some h
  simpa using this

/-- No slot is free exactly when all are valid. -/
theorem freeSlot_eq_none {tlb : Fin tlbSize → TranslationEntry} :
    freeSlot tlb = none ↔ ∀ i, (tlb i).valid = true := by
  simp [freeSlot, List.find?_eq_none]

/-- The use can be counted whenever the frame is in the vector. -/
theorem updatePage_total {t : InvertedPageTable} {f : ℤ} (b : Bool)
    (hframe : t.replacementAlgorithm = .leastUsed → InVector f) :
    ∃ t', t.updatePage f b = .ok t' := by
  unfold InvertedPageTable.updatePage
  cases halg : t.replacementAlgorithm with
  | fifo => exact ⟨_, rfl⟩
  | secondChance => exact ⟨_, rfl⟩
  | leastUsed =>
    have hframe := hframe halg
    simp only [vectorGet_ok_iff.mpr ⟨hframe, rfl⟩, ok_bind, vectorSet_ok_iff.mpr ⟨hframe, rfl⟩]
    exact ⟨_, rfl⟩

/-- `loadToTLB` returns exactly when the page of the entry it replaces, if that is in use,
is a page of the current address space. -/
theorem loadToTLB_iff {s : System} {slot : Fin tlbSize} {p : ℕ} (hp : p < s.space.numPages)
    (hframe : s.invertedPageTable.replacementAlgorithm = .leastUsed →
      InVector (s.space.pageTable p).physicalPage) :
    (∃ s', s.loadToTLB slot p = .ok s') ↔ ((s.tlb slot).valid = true →
      0 ≤ (s.tlb slot).virtualPage ∧ (s.tlb slot).virtualPage < s.space.numPages) := by
  constructor
  · rintro ⟨s', h⟩ hvalid
    obtain ⟨s₁, hsave, -⟩ := bind_ok_iff.mp h
    rw [storeReplaced, if_pos hvalid] at hsave
    exact (modifyEntry_ok_iff.mp hsave).1
  · intro hold
    -- writing the replaced entry's bits back changes no frame
    obtain ⟨s₁, hsave, hmap, hipt⟩ : ∃ s₁, s.storeReplaced (s.tlb slot) = .ok s₁ ∧
        SameMapping s s₁ ∧ s₁.invertedPageTable = s.invertedPageTable := by
      unfold storeReplaced
      split
      · rename_i hvalid
        exact ⟨_, modifyEntry_ok_iff.mpr ⟨hold hvalid, rfl⟩, .withEntry s _ rfl rfl, rfl⟩
      · exact ⟨s, rfl, .refl s, rfl⟩
    have hnum₁ : p < s₁.space.numPages := by
      unfold space
      rw [hmap.currentSpace, hmap.numPages]
      exact hp
    have hframe₁ : (s₁.space.pageTable p).physicalPage = (s.space.pageTable p).physicalPage := by
      unfold space
      rw [hmap.currentSpace]
      exact hmap.physicalPage _ p
    obtain ⟨t, ht⟩ := updatePage_total (t := s.invertedPageTable) true hframe
    unfold loadToTLB
    simp only [hsave, ok_bind, modifyEntry_natCast hnum₁]
    rw [pageTableEntry_natCast (by rw [withEntry_numPages]; exact hnum₁)]
    simp only [ok_bind, withEntry_pageTable, Function.update_self, withEntry_invertedPageTable,
      hipt, hframe₁, ht]
    exact ⟨_, rfl⟩

/-- The frames that least used looks up are indices of its vectors. -/
def Indexed (s : System) (p : ℕ) : Prop :=
  s.invertedPageTable.replacementAlgorithm = .leastUsed →
    InVector (s.space.pageTable p).physicalPage ∧
      ∀ i, (s.tlb i).valid = true → InVector (s.tlb i).physicalPage

theorem fillTLB_iff {s : System} {p : ℕ} (hp : p < s.space.numPages) (hindexed : Indexed s p) :
    (∃ s', s.fillTLB p = .ok s') ↔ SlotOk s.space.numPages s.tlb s.invertedPageTable := by
  unfold fillTLB SlotOk slotToLoad
  cases hfree : freeSlot s.tlb with
  | some slot =>
    simp only [Option.some_or, Option.mem_some_iff, exists_eq_left']
    exact loadToTLB_iff hp fun halg => (hindexed halg).1
  | none =>
    have hvalid := freeSlot_eq_none.mp hfree
    have hiff : ∀ slot, (∃ t, s.invertedPageTable.getTLBEntryToReplace s.tlb = .ok (slot, t)) ↔
        s.invertedPageTable.replacedSlot s.tlb = some slot :=
      fun slot => getTLBEntryToReplace_iff fun halg i => (hindexed halg).2 i (hvalid i)
    have hload : ∀ {slot t}, s.invertedPageTable.getTLBEntryToReplace s.tlb = .ok (slot, t) →
        ((∃ s', { s with invertedPageTable := t }.loadToTLB slot p = .ok s') ↔
          ((s.tlb slot).valid = true → 0 ≤ (s.tlb slot).virtualPage ∧
            (s.tlb slot).virtualPage < s.space.numPages)) := by
      intro slot t ht
      refine loadToTLB_iff (s := { s with invertedPageTable := t }) hp fun halg => ?_
      exact (hindexed ((getTLBEntryToReplace_frames ht).replacementAlgorithm ▸ halg)).1
    simp only [Option.none_or, Option.mem_def]
    constructor
    · rintro ⟨s', h⟩
      obtain ⟨⟨slot, t⟩, ht, h⟩ := bind_ok_iff.mp h
      exact ⟨slot, (hiff slot).mp ⟨t, ht⟩, (hload ht).mp ⟨s', h⟩⟩
    · rintro ⟨slot, hslot, hpage⟩
      obtain ⟨t, ht⟩ := (hiff slot).mpr hslot
      simp only [ht, ok_bind]
      exact (hload ht).mpr hpage

/-- The slot that has been loaded. -/
theorem fillTLB_slot {s s' : System} {p : ℕ} (hindexed : Indexed s p)
    (h : s.fillTLB p = .ok s') : ∃ slot ∈ slotToLoad s.tlb s.invertedPageTable,
      SameMapping s s' ∧ s'.tlb = Function.update s.tlb slot (s.translationOf slot p) := by
  unfold fillTLB at h
  unfold slotToLoad
  cases hfree : freeSlot s.tlb with
  | some slot =>
    rw [hfree] at h
    exact ⟨slot, rfl, loadToTLB_ok h⟩
  | none =>
    rw [hfree] at h
    obtain ⟨⟨slot, t⟩, ht, h⟩ := bind_ok_iff.mp h
    obtain ⟨hmap, htlb⟩ := loadToTLB_ok h
    have hframes := getTLBEntryToReplace_frames ht
    refine ⟨slot, ?_, ⟨hmap.mainMemory, hmap.memorySwap, hmap.currentSpace,
      hframes.trans hmap.frames, hmap.numPages, hmap.ownExecutable, hmap.virtualPage,
      hmap.physicalPage⟩, htlb⟩
    rw [Option.none_or]
    exact (getTLBEntryToReplace_iff fun halg i =>
      (hindexed halg).2 i (freeSlot_eq_none.mp hfree i)).mp ⟨t, ht⟩

/-! ## Least used never evicts

It forgets the page of the frame it takes before that page is stored, so an eviction is a
transfer from `mainMemory[-128]` and does not return. -/

/-- Least used forgets the page of the frame before it is read. -/
theorem getEntryToReplace_leastUsed {t t' : InvertedPageTable} {g : ℕ}
    (halg : t.replacementAlgorithm = .leastUsed)
    (h : t.getEntryToReplace = .ok ((g : ℤ), t')) : t'.virtualPageTable g = -1 := by
  rw [InvertedPageTable.getEntryToReplace, halg] at h
  simp only [Except.ok.injEq, Prod.mk.injEq] at h
  obtain ⟨hg, rfl⟩ := h
  have hg : t.getLeastUsedPhysicalPage = g := by exact_mod_cast hg
  rw [← hg]
  exact Function.update_self _ _ _

theorem FrameFor.algorithm {s s₁ : System} {p f : ℤ} (h : FrameFor s p f s₁) :
    s₁.invertedPageTable.replacementAlgorithm = s.invertedPageTable.replacementAlgorithm := by
  cases h with
  | free hfree => rfl
  | evicted hfull hvictim hframe hpage hsource hslot =>
    exact (getEntryToReplace_frames hvictim).2.1
  | refused hfull hvictim hframe hpage hslot => exact (getEntryToReplace_frames hvictim).2.1

theorem Loaded.algorithm {s s' : System} {addr : ℕ} (h : Loaded s addr s') :
    s'.invertedPageTable.replacementAlgorithm = s.invertedPageTable.replacementAlgorithm := by
  cases h with
  | resident hpage => rfl
  | fromSwap hpage hmarked hframe hslot hn hfits => exact hframe.algorithm
  | lost hpage hmarked hframe hslot => exact hframe.algorithm
  | fromDisk hpage hmarked hframe htransfer hfits => exact hframe.algorithm

/-- Under least used, swap is never used and every frame in the tables is an index. -/
def NeverSwaps (s : System) : Prop :=
  s.invertedPageTable.replacementAlgorithm = .leastUsed →
    s.memorySwap = Swap.new ∧ FramesBelow numPhysPagesIPT s

/-- While the swap area is empty, least used hands out free frames only. -/
theorem FrameFor.free_of_leastUsed {s s₁ : System} {p f : ℤ} (halloc : Allocating s)
    (halg : s.invertedPageTable.replacementAlgorithm = .leastUsed)
    (hswap : s.memorySwap = Swap.new) (h : FrameFor s p f s₁) :
    ∃ g < numPhysPagesIPT, s.invertedPageTable.physicalPagesBitmap.firstClear = some g := by
  cases h with
  | @free g hfree => exact ⟨g, halloc.numBits ▸ (BitMap.firstClear_spec hfree).1, hfree⟩
  | evicted hfull hvictim hframe hpage hsource hslot =>
    rw [getEntryToReplace_leastUsed halg hvictim] at hsource
    exact absurd hsource.1 (by decide)
  | refused hfull hvictim hframe hpage hslot =>
    rw [hswap, BitMap.firstClear_eq_none] at hslot
    cases hslot 0 (by decide)

/-- A load with least used leaves the swap area empty. -/
theorem Loaded.neverSwaps {s s' : System} {addr : ℕ} (halloc : Allocating s)
    (hnever : NeverSwaps s) (h : Loaded s addr s') : NeverSwaps s' ∧
      (s'.invertedPageTable.replacementAlgorithm = .leastUsed →
        (s'.space.pageTable (addr / pageSize)).virtualPage ≠ -1) := by
  by_cases halg : s.invertedPageTable.replacementAlgorithm = .leastUsed
  · obtain ⟨hswap, hin⟩ := hnever halg
    have hfree : (s.space.pageTable (addr / pageSize)).virtualPage = -1 →
        ∃ f < numPhysPagesIPT, s.invertedPageTable.physicalPagesBitmap.firstClear = some f := by
      intro habsent
      cases h.tables with
      | resident heq hpage => exact absurd habsent hpage
      | loaded _ hframe => exact hframe.free_of_leastUsed halloc halg hswap
      | lost _ _ hframe => exact hframe.free_of_leastUsed halloc halg hswap
    obtain ⟨hin', hpage⟩ := h.framesBelow halloc hin hfree
    refine ⟨fun _ => ⟨?_, hin'⟩, fun _ => hpage⟩
    by_cases habsent : (s.space.pageTable (addr / pageSize)).virtualPage = -1
    · obtain ⟨f, -, hf⟩ := hfree habsent
      rcases h.of_free halloc hf with ⟨-, rfl⟩ | ⟨n, bytes, -, -, -, rfl⟩
      · exact hswap
      · exact hswap
    · cases h.tables with
      | resident heq _ => rw [heq]; exact hswap
      | loaded habsent' => exact absurd habsent' habsent
      | lost habsent' => exact absurd habsent' habsent
  · rw [← h.algorithm] at halg
    exact ⟨fun halg' => absurd halg' halg, fun halg' => absurd halg' halg⟩

/-- So does every access. -/
theorem step_neverSwaps {s s' : System} {a : Access} (hnum : Numbered s) (halloc : Allocating s)
    (hnever : NeverSwaps s) (h : s.step a = .ok s') : NeverSwaps s' := by
  have hnever' : NeverSwaps (s.switchTo a.space) :=
    fun halg => ⟨(hnever halg).1, (hnever halg).2.switchTo a.space⟩
  refine step_preserves ?_ (fun _ hnever halg => ?_) ?_ hnum (fun _ => hnever') h
  · intro s s' hnever hmap htlb halg
    rw [hmap.frames.replacementAlgorithm] at halg
    rw [hmap.memorySwap]
    exact ⟨(hnever halg).1, framesBelow_of_same (hnever halg).2 hmap htlb⟩
  · exact ⟨(hnever halg).1, ⟨(hnever halg).2.resident, (hnever halg).2.tlb⟩⟩
  · intro s₁ s₂ slot hmiss _ hloaded hmap htlb halg
    obtain ⟨hnever₁, hpage⟩ := hloaded.neverSwaps (halloc.switchTo a.space) hnever'
    rw [hmap.frames.replacementAlgorithm] at halg
    rw [hmap.memorySwap]
    exact ⟨(hnever₁ halg).1, framesBelow_of_fill (hnever₁ halg).2 (hpage halg) hmap htlb⟩

/-! ## Page faults that make progress -/

/-- The handler returns with a valid TLB entry for the page that has the frame of the page
table, and translating the address again is no page fault. -/
def Progress (s : System) (addr : ℕ) : Prop :=
  ∃ s', s.pageFaultException addr = .ok s' ∧
    (∃ i, (s'.tlb i).valid = true ∧ (s'.tlb i).virtualPage = (addr / pageSize : ℕ) ∧
      (s'.tlb i).physicalPage = (s'.space.pageTable (addr / pageSize)).physicalPage) ∧
    ∀ size writing s'', s'.translate addr size writing ≠ .ok (.error .pageFault, s'')

/-- What is to be loaded for `addr` is there and fits into frame `f`; `sw` is the swap area
once the frame has been found. -/
def Incoming (s : System) (addr : ℕ) (sw : Swap) (f : ℤ) : Prop :=
  (s.memorySwap.isLoadedInSwap (addr / pageSize : ℕ) = true ∧
    ∃ i ∈ sw.slotOf (addr / pageSize : ℕ),
      Fits f (min pageSize (sw.swapSegment.length - i * pageSize))) ∨
  (s.memorySwap.isLoadedInSwap (addr / pageSize : ℕ) = false ∧
    ∃ n bytes, diskTransfer s.space addr = .ok (n, bytes) ∧ Fits f n)

/-- The page faults the handler can serve. The page is in memory; or it is not and what is
to be loaded fits into the first free frame, into the frame `g` that is evicted, or, when
swap is full, takes no bytes of the frame `-1`. In each case there is a TLB slot to load,
where an eviction has first dropped the entries for page `g`. -/
inductive Serviceable (s : System) (addr : ℕ) : Prop where
  | resident (hpage : (s.space.pageTable (addr / pageSize)).virtualPage ≠ -1)
    (hslot : SlotOk s.space.numPages s.tlb s.invertedPageTable)
  | free {f : ℕ} (hpage : (s.space.pageTable (addr / pageSize)).virtualPage = -1)
    (hfree : s.invertedPageTable.physicalPagesBitmap.firstClear = some f)
    (hincoming : Incoming s addr s.memorySwap f)
    (hslot : SlotOk s.space.numPages s.tlb s.invertedPageTable)
  | evicted {g j : ℕ} {t : InvertedPageTable}
    (hpage : (s.space.pageTable (addr / pageSize)).virtualPage = -1)
    (hfull : s.invertedPageTable.physicalPagesBitmap.firstClear = none)
    (hvictim : s.invertedPageTable.getEntryToReplace = .ok ((g : ℤ), t))
    (hframe : g < numPhysPagesIPT) (hvictimPage : g < s.space.numPages)
    (hsource : 0 ≤ t.virtualPageTable g ∧ t.virtualPageTable g < numPhysPages)
    (hspare : s.memorySwap.swapBitMap.firstClear = some j)
    (hincoming : Incoming s addr (s.memorySwap.stored j g
      (Bytes.window s.mainMemory ((t.virtualPageTable g).toNat * pageSize))) g)
    (hslot : SlotOk s.space.numPages (dropFromTLB s.tlb g) t)
  | refused {g : ℕ} {t : InvertedPageTable}
    (hpage : (s.space.pageTable (addr / pageSize)).virtualPage = -1)
    (hfull : s.invertedPageTable.physicalPagesBitmap.firstClear = none)
    (hvictim : s.invertedPageTable.getEntryToReplace = .ok ((g : ℤ), t))
    (hframe : g < numPhysPagesIPT) (hvictimPage : g < s.space.numPages)
    (hspare : s.memorySwap.swapBitMap.firstClear = none)
    (hincoming : Incoming s addr s.memorySwap (-1))
    (hslot : SlotOk s.space.numPages (dropFromTLB s.tlb g) t)

/-- A page that has a frame and whose bytes fit is loaded. -/
theorem Incoming.loaded {s s₁ : System} {addr : ℕ} {f : ℤ}
    (hpage : (s.space.pageTable (addr / pageSize)).virtualPage = -1)
    (hframe : FrameFor s (addr / pageSize : ℕ) f s₁) (h : Incoming s addr s₁.memorySwap f) :
    ∃ s', Loaded s addr s' ∧ (s'.space.pageTable (addr / pageSize)).virtualPage ≠ -1 ∧
      s'.tlb = s₁.tlb ∧ s'.invertedPageTable = s₁.invertedPageTable := by
  have hinstalled : ∀ (s : System) p e f n bytes,
      ((s.install p e f n bytes).space.pageTable p).virtualPage ≠ -1 := by
    intro s p e f n bytes
    rw [install_pageTable, Function.update_self]
    exact natCast_ne_neg_one p
  rcases h with ⟨hmarked, i, hslot, hfits⟩ | ⟨hmarked, n, bytes, htransfer, hfits⟩
  · exact ⟨_, .fromSwap hpage hmarked hframe hslot rfl hfits, hinstalled _ _ _ _ _ _, rfl, rfl⟩
  · exact ⟨_, .fromDisk hpage hmarked hframe htransfer hfits, hinstalled _ _ _ _ _ _, rfl, rfl⟩

/-- A page that can be serviced is loaded, and a slot for it is found. -/
theorem Serviceable.loaded {s : System} {addr : ℕ} (h : Serviceable s addr) :
    ∃ s', Loaded s addr s' ∧ (s'.space.pageTable (addr / pageSize)).virtualPage ≠ -1 ∧
      SlotOk s.space.numPages s'.tlb s'.invertedPageTable := by
  cases h with
  | resident hpage hslot => exact ⟨s, .resident hpage, hpage, hslot⟩
  | free hpage hfree hincoming hslot =>
    obtain ⟨s', hloaded, hres, htlb, hipt⟩ :=
      Incoming.loaded hpage (.free hfree) (by exact hincoming)
    exact ⟨s', hloaded, hres, by rw [htlb, hipt]; exact hslot⟩
  | evicted hpage hfull hvictim hframe hvictimPage hsource hspare hincoming hslot =>
    obtain ⟨s', hloaded, hres, htlb, hipt⟩ := Incoming.loaded hpage
      (.evicted hfull hvictim hframe hvictimPage hsource hspare) (by exact hincoming)
    exact ⟨s', hloaded, hres, by rw [htlb, hipt]; exact hslot⟩
  | refused hpage hfull hvictim hframe hvictimPage hspare hincoming hslot =>
    obtain ⟨s', hloaded, hres, htlb, hipt⟩ := Incoming.loaded hpage
      (.refused hfull hvictim hframe hvictimPage hspare) (by exact hincoming)
    exact ⟨s', hloaded, hres, by rw [htlb, hipt]; exact hslot⟩

/-- What was loaded had to be there and to fit, unless the page was lost from swap. -/
theorem Loaded.incoming {s s' : System} {addr : ℕ} (h : Loaded s addr s')
    (hpage : (s.space.pageTable (addr / pageSize)).virtualPage = -1)
    (hres : (s'.space.pageTable (addr / pageSize)).virtualPage ≠ -1) :
    ∃ f s₁, FrameFor s (addr / pageSize : ℕ) f s₁ ∧ Incoming s addr s₁.memorySwap f ∧
      s'.tlb = s₁.tlb ∧ s'.invertedPageTable = s₁.invertedPageTable := by
  cases h with
  | resident hpage' => exact absurd hpage hpage'
  | fromSwap _ hmarked hframe hslot hn hfits =>
    exact ⟨_, _, hframe, .inl ⟨hmarked, _, hslot, hn ▸ hfits⟩, rfl, rfl⟩
  | lost _ hmarked hframe hslot =>
    -- the page was not in the table, and getting a frame adds none
    refine absurd ?_ hres
    rcases hframe.tables with ⟨htab, -⟩ | ⟨g, htab, -⟩
    · rw [htab]
      exact hpage
    · rw [htab, Function.update_apply]
      split
      · rfl
      · exact hpage
  | fromDisk _ hmarked hframe htransfer hfits =>
    exact ⟨_, _, hframe, .inr ⟨hmarked, _, _, htransfer, hfits⟩, rfl, rfl⟩

/-- A page that is in a frame after a load, with a slot for it, can be serviced. -/
theorem Loaded.serviceable {s s' : System} {addr : ℕ} (h : Loaded s addr s')
    (hres : (s'.space.pageTable (addr / pageSize)).virtualPage ≠ -1)
    (hslot : SlotOk s.space.numPages s'.tlb s'.invertedPageTable) : Serviceable s addr := by
  by_cases hpage : (s.space.pageTable (addr / pageSize)).virtualPage = -1
  · obtain ⟨f, s₁, hframe, hincoming, htlb, hipt⟩ := h.incoming hpage hres
    rw [htlb, hipt] at hslot
    cases hframe with
    | free hfree => exact .free hpage hfree hincoming hslot
    | evicted hfull hvictim hframe hvictimPage hsource hspare =>
      exact .evicted hpage hfull hvictim hframe hvictimPage hsource hspare hincoming hslot
    | refused hfull hvictim hframe hvictimPage hspare =>
      exact .refused hpage hfull hvictim hframe hvictimPage hspare hincoming hslot
  · cases h.tables with
    | resident heq _ =>
      rw [heq] at hslot
      exact .resident hpage hslot
    | loaded hpage' => exact absurd hpage' hpage
    | lost hpage' => exact absurd hpage' hpage

/-- A load brings no page into the TLB. -/
theorem Loaded.lookup_none {s s' : System} {addr q : ℕ} (h : Loaded s addr s')
    (hnone : lookup s.tlb q = none) : lookup s'.tlb q = none := by
  cases h.tables with
  | resident heq _ => rw [heq]; exact hnone
  | loaded _ hframe _ _ htlb _ => rw [htlb]; exact hframe.lookup_none hnone
  | lost _ _ hframe _ heq => rw [heq]; exact hframe.lookup_none hnone

/-- An address with a valid TLB entry does not page-fault. -/
theorem translate_ne_pageFault {s s' : System} {addr : ℕ} {i : Fin tlbSize} {size : Size}
    {w : Bool} (hint : addr < 2 ^ 31) (hvalid : (s.tlb i).valid = true)
    (hpage : (s.tlb i).virtualPage = (addr / pageSize : ℕ)) :
    s.translate addr size w ≠ .ok (.error .pageFault, s') := by
  intro h
  by_cases haligned : addr % size.bytes = 0
  · cases (translate_ok_iff haligned hint).mp h with
    | miss hmiss => exact lookup_none_iff.mp hmiss i hvalid hpage
    | hit _ _ huse => exact (useEntry_ok huse).2.1 rfl
  · have hal : (addr : ℤ) % (size.bytes : ℤ) ≠ 0 := by exact_mod_cast haligned
    rw [translate, if_pos hal] at h
    cases h

theorem NeverSwaps.indexed {s : System} {p : ℕ} (hnever : NeverSwaps s)
    (hpage : (s.space.pageTable p).virtualPage ≠ -1) : Indexed s p :=
  fun halg => ⟨(hnever halg).2.resident s.currentSpace p hpage, (hnever halg).2.tlb⟩

/-- A page fault makes progress exactly when it is one the handler can serve. -/
theorem progress_iff {s : System} {addr : ℕ} (hnum : Numbered s) (halloc : Allocating s)
    (hnever : NeverSwaps s) (hint : addr < 2 ^ 31) (hrange : addr / pageSize < s.space.numPages)
    (hmiss : lookup s.tlb (addr / pageSize) = none) : Progress s addr ↔ Serviceable s addr := by
  constructor
  · rintro ⟨s', hpf, ⟨i, hvalid, hpage, -⟩, -⟩
    obtain ⟨-, s₁, hloaded, hfill⟩ := pageFaultException_ok hnum hpf
    obtain ⟨slot, -, htlb⟩ := fillTLB_ok hfill
    -- the entry for the page is the one just loaded, so the page is in the table
    have hres : (s₁.space.pageTable (addr / pageSize)).virtualPage ≠ -1 := by
      rw [htlb, Function.update_apply] at hvalid hpage
      by_cases hi : i = slot
      · rw [if_pos hi] at hpage
        have hpage : (s₁.space.pageTable (addr / pageSize)).virtualPage = _ := hpage
        rw [hpage]
        exact natCast_ne_neg_one _
      · rw [if_neg hi] at hvalid hpage
        exact absurd hpage (lookup_none_iff.mp (hloaded.lookup_none hmiss) i hvalid)
    have hindexed := (hloaded.neverSwaps halloc hnever).1.indexed hres
    have hrange₁ : addr / pageSize < s₁.space.numPages := by
      rw [hloaded.kept.2.1]; exact hrange
    have hslot := (fillTLB_iff hrange₁ hindexed).mp ⟨s', hfill⟩
    rw [hloaded.kept.2.1] at hslot
    exact hloaded.serviceable hres hslot
  · intro hserv
    obtain ⟨s₁, hloaded, hres, hslot⟩ := hserv.loaded
    have hindexed := (hloaded.neverSwaps halloc hnever).1.indexed hres
    have hrange₁ : addr / pageSize < s₁.space.numPages := by
      rw [hloaded.kept.2.1]; exact hrange
    rw [← hloaded.kept.2.1] at hslot
    obtain ⟨s', hfill⟩ := (fillTLB_iff hrange₁ hindexed).mpr hslot
    obtain ⟨slot, hmap, htlb⟩ := fillTLB_ok hfill
    have hentry : s'.tlb slot = s₁.translationOf slot (addr / pageSize) := by
      rw [htlb, Function.update_self]
    have hvalid : (s'.tlb slot).valid = true := by rw [hentry]; rfl
    have hpage : (s'.tlb slot).virtualPage = (addr / pageSize : ℕ) := by
      rw [hentry]
      exact (hloaded.numbered hnum s₁.currentSpace _).resolve_left hres
    refine ⟨s', (hloaded.complete hnum halloc.swapBits hrange).trans hfill,
      ⟨slot, hvalid, hpage, ?_⟩, fun size w s'' => translate_ne_pageFault hint hvalid hpage⟩
    rw [hentry]
    unfold space
    rw [hmap.currentSpace, hmap.physicalPage]
    rfl

/-- In every reachable state, a page fault of any address space below its end makes progress
exactly when it is one the handler can serve. -/
theorem run_progress_iff {s₀ s : System} {as : List Access} {c addr : ℕ} (hboot : Booted s₀)
    (hrun : run step s₀ as = .ok s) (hint : addr < 2 ^ 31)
    (hrange : addr < (s.spaces c).numPages * pageSize)
    (hmiss : lookup s.tlb (addr / pageSize) = none) :
    Progress (s.switchTo c) addr ↔ Serviceable (s.switchTo c) addr := by
  have hinv : Numbered s ∧ Allocating s ∧ NeverSwaps s := by
    refine run_invariant (I := fun s => Numbered s ∧ Allocating s ∧ NeverSwaps s) ?_
      ⟨hboot.numbered, hboot.allocating, fun _ => ⟨hboot.memorySwap, hboot.framesBelow⟩⟩ hrun
    rintro s a s' ⟨hnum, halloc, hnever⟩ hst
    exact ⟨step_numbered hnum hst, step_allocating hnum halloc hst,
      step_neverSwaps hnum halloc hnever hst⟩
  obtain ⟨hnum, halloc, hnever⟩ := hinv
  have hpage : addr / pageSize < (s.spaces c).numPages := Nat.div_lt_of_lt_mul (by
    rw [Nat.mul_comm]; exact hrange)
  exact progress_iff (hnum.switchTo c) (halloc.switchTo c)
    (fun halg => ⟨(hnever halg).1, (hnever halg).2.switchTo c⟩) hint hpage hmiss

instance (numPages : ℕ) (tlb : Fin tlbSize → TranslationEntry) (ipt : InvertedPageTable) :
    Decidable (SlotOk numPages tlb ipt) := by
  unfold SlotOk
  infer_instance

/-- A program of 88 pages. -/
def longProgram (algorithm : ReplacementAlgorithm) : System :=
  boot algorithm fun _ => .program [] (80 * 128)

theorem longProgram_booted (algorithm : ReplacementAlgorithm) : Booted (longProgram algorithm) :=
  boot_booted fun _ => by decide +kernel

/-- Under least used, page `0` comes back into the TLB after page `4` has taken its slot. -/
theorem run_progress_leastUsed : ∃ s, run step (longProgram .leastUsed)
    ((List.range 5).map (Access.read 0)) = .ok s ∧ Progress (s.switchTo 0) 0 := by
  obtain ⟨s, hrun, hrange, hmiss, hpage, hslot⟩ : ∃ s, run step (longProgram .leastUsed)
      ((List.range 5).map (Access.read 0)) = .ok s ∧ 0 < (s.spaces 0).numPages * pageSize ∧
      lookup s.tlb 0 = none ∧ ((s.spaces 0).pageTable 0).virtualPage ≠ -1 ∧
      SlotOk (s.spaces 0).numPages s.tlb s.invertedPageTable := by decide +kernel
  exact ⟨s, hrun, (run_progress_iff (longProgram_booted _) hrun (by decide) hrange hmiss).mpr
    (.resident hpage hslot)⟩

/-- Under second chance, the fourteenth page is to go to `tlb[4]`. -/
theorem run_not_progress : ¬ ∀ (s₀ s : System) (as : List Access) (c addr : ℕ), Booted s₀ →
    run step s₀ as = .ok s → addr < 2 ^ 31 → addr < (s.spaces c).numPages * pageSize →
    lookup s.tlb (addr / pageSize) = none → Progress (s.switchTo c) addr := by
  intro h
  obtain ⟨s, hrun, hrange, hmiss, hfault⟩ : ∃ s, run step (longProgram .secondChance)
      ((List.range 13).map (Access.read 0)) = .ok s ∧
      13 * pageSize < (s.spaces 0).numPages * pageSize ∧
      lookup s.tlb (13 * pageSize / pageSize) = none ∧
      ((s.switchTo 0).pageFaultException (13 * pageSize : ℕ)).isOk = false := by decide +kernel
  obtain ⟨s', hpf, -⟩ := h _ s _ 0 (13 * pageSize) (longProgram_booted _) hrun (by decide)
    hrange hmiss
  rw [hpf] at hfault
  cases hfault

end System
end NachOS
