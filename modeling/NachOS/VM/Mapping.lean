import NachOS.VM.Agreement

/-!
# The page table and the inverted page table

For one address space: the pages in memory and the frames they are in are recorded twice,
by frame in `virtualPageTable` and by page in `pageTable`. The two records agree in every
state reached as long as every eviction takes a frame `g` that holds page `g`. On any other
frame `getPhysicalPage` calls `swap` with the frame and the page exchanged, so that the
page that loses its frame stays in the page table.
-/

namespace NachOS
namespace System

open PartialRun

/-- The page table of space `c`, the inverted page table and the TLB describe one injective
mapping of pages to frames. -/
structure Consistent (s : System) (c : ℕ) : Prop where
  mapped : ∀ v : ℕ, ((s.spaces c).pageTable v).virtualPage ≠ -1 →
    ∃ f : ℕ, ((s.spaces c).pageTable v).physicalPage = f ∧ f < numPhysPagesIPT ∧
      s.invertedPageTable.virtualPageTable f = v ∧
      s.invertedPageTable.physicalPagesBitmap.marked f = true
  injective : ∀ v w : ℕ, ((s.spaces c).pageTable v).virtualPage ≠ -1 →
    ((s.spaces c).pageTable w).virtualPage ≠ -1 →
    ((s.spaces c).pageTable v).physicalPage = ((s.spaces c).pageTable w).physicalPage → v = w
  tlb : ∀ i, (s.tlb i).valid = true → ∃ v : ℕ, (s.tlb i).virtualPage = v ∧
    ((s.spaces c).pageTable v).virtualPage = v ∧
    ((s.spaces c).pageTable v).physicalPage = (s.tlb i).physicalPage

/-- If the access has to evict, then the frame `g` taken next holds page `g`, swap has a
free slot, and if some slot is marked with the page of the access then a taken one is. -/
def EvictsOwnPage (s : System) (a : Access) : Prop :=
  lookup s.tlb a.page = none → ((s.spaces a.space).pageTable a.page).virtualPage = -1 →
  s.invertedPageTable.physicalPagesBitmap.firstClear = none →
    (∀ g ∈ s.invertedPageTable.nextVictim,
      s.invertedPageTable.virtualPageTable g.toNat = g) ∧
    s.memorySwap.swapBitMap.firstClear ≠ none ∧
    (s.memorySwap.isLoadedInSwap a.page = true →
      ∃ i < swapPagesQuantity, s.memorySwap.swapBitMap.marked i = true ∧
        s.memorySwap.virtualPages i = a.page)

/-! ## The invariant -/

/-- The part of `Consistent` the induction carries, for the current address space. -/
structure Mapped (s : System) : Prop where
  numBits : s.invertedPageTable.physicalPagesBitmap.numBits = numPhysPagesIPT
  frame : ∀ v : ℕ, (s.space.pageTable v).virtualPage ≠ -1 →
    ∃ f : ℕ, (s.space.pageTable v).physicalPage = f ∧ f < numPhysPagesIPT ∧
      s.invertedPageTable.virtualPageTable f = v ∧
      s.invertedPageTable.physicalPagesBitmap.marked f = true
  named : ∀ i, (s.tlb i).valid = true → ∃ v : ℕ, (s.tlb i).virtualPage = v

/-- The invariant depends on the mapping and the TLB only. -/
theorem mapped_of_same {s s' : System} (hmapped : Mapped s) (hmap : SameMapping s s')
    (htlb : SameTLB s.tlb s'.tlb) : Mapped s' := by
  obtain ⟨hbits, hframe, hnamed⟩ := hmapped
  refine ⟨?_, fun v hv => ?_, fun i hvalid => ?_⟩
  · rw [hmap.frames.physicalPagesBitmap]
    exact hbits
  · unfold space at hv ⊢
    rw [hmap.currentSpace, hmap.virtualPage] at hv
    rw [hmap.currentSpace, hmap.physicalPage, hmap.frames.virtualPageTable,
      hmap.frames.physicalPagesBitmap]
    exact hframe v hv
  · rw [htlb.valid] at hvalid
    rw [htlb.virtualPage]
    exact hnamed i hvalid

/-- A frame got for page `p` is recorded as the frame of `p`, and no page in memory has it. -/
structure FreshFrame (s : System) (p : ℤ) (f : ℕ) : Prop where
  lt : f < numPhysPagesIPT
  recorded : s.invertedPageTable.virtualPageTable f = p
  marked : s.invertedPageTable.physicalPagesBitmap.marked f = true
  unused : ∀ v, (s.space.pageTable v).virtualPage ≠ -1 → (s.space.pageTable v).physicalPage ≠ f

/-- A frame that is handed out free belongs to the page only. -/
theorem FrameFor.mapped_free {s : System} {p : ℤ} {f : ℕ} (hmapped : Mapped s)
    (hfree : s.invertedPageTable.physicalPagesBitmap.firstClear = some f) :
    Mapped (s.giveFrame f p) ∧ FreshFrame (s.giveFrame f p) p f := by
  obtain ⟨hlt, hclear⟩ := BitMap.firstClear_spec hfree
  -- the frame of a page in memory is marked, so it is not the free one
  have hother : ∀ v, (s.space.pageTable v).virtualPage ≠ -1 →
      (s.space.pageTable v).physicalPage ≠ f := by
    intro v hv heq
    obtain ⟨fv, hfv, -, -, hmarked⟩ := hmapped.frame v hv
    have : fv = f := by
      have := hfv.symm.trans heq
      exact_mod_cast this
    rw [this, hclear] at hmarked
    cases hmarked
  constructor
  · refine ⟨hmapped.numBits, fun v hv => ?_, hmapped.named⟩
    obtain ⟨fv, hfv, hfvlt, hpage, hmarked⟩ := hmapped.frame v hv
    have hne : fv ≠ f := by
      rintro rfl
      exact hother v hv hfv
    refine ⟨fv, hfv, hfvlt, ?_, ?_⟩
    · show Function.update s.invertedPageTable.virtualPageTable f p fv = v
      rw [Function.update_of_ne hne]
      exact hpage
    · show (BitMap.markBit _ f).marked fv = true
      rw [BitMap.markBit_marked, if_neg hne]
      exact hmarked
  · refine ⟨hmapped.numBits ▸ hlt, ?_, ?_, hother⟩
    · exact Function.update_self _ _ _
    · show (BitMap.markBit _ f).marked f = true
      rw [BitMap.markBit_marked, if_pos rfl]

/-- The entries that are left in the TLB were there before. -/
theorem dropFromTLB_valid {t : Fin tlbSize → TranslationEntry} {q : ℤ} {i : Fin tlbSize}
    (h : (dropFromTLB t q i).valid = true) : (t i).valid = true ∧ dropFromTLB t q i = t i := by
  simp only [dropFromTLB] at h ⊢
  split at h
  · cases h
  · rename_i hne
    exact ⟨h, if_neg hne⟩

/-- Evicting the frame of page `g` from frame `g`. -/
theorem FrameFor.mapped_evicted {s : System} {p : ℤ} {g j : ℕ} {t : InvertedPageTable}
    (hmapped : Mapped s)
    (hfull : s.invertedPageTable.physicalPagesBitmap.firstClear = none)
    (hvictim : s.invertedPageTable.getEntryToReplace = .ok ((g : ℤ), t))
    (hframe : g < numPhysPagesIPT) (hown : s.invertedPageTable.virtualPageTable g = g) :
    Mapped (s.evict g j t p) ∧ FreshFrame (s.evict g j t p) p g := by
  obtain ⟨hbitmap, -, hpages⟩ := getEntryToReplace_frames hvictim
  have hnumBits : t.physicalPagesBitmap.numBits = numPhysPagesIPT := by
    rw [hbitmap]; exact hmapped.numBits
  have hmarked : ∀ f < numPhysPagesIPT, t.physicalPagesBitmap.marked f = true := by
    rw [hbitmap, ← hmapped.numBits]
    exact BitMap.firstClear_eq_none.mp hfull
  have htable : (s.evict g j t p).space.pageTable =
      Function.update s.space.pageTable g (emptied (s.space.pageTable g)) := dropPage_pageTable s g
  -- a page still in memory is not `g`, so its frame is not `g` either
  have hother : ∀ v, ((s.evict g j t p).space.pageTable v).virtualPage ≠ -1 →
      (s.evict g j t p).space.pageTable v = s.space.pageTable v ∧
      ∃ f : ℕ, (s.space.pageTable v).physicalPage = f ∧ f ≠ g ∧ f < numPhysPagesIPT ∧
        s.invertedPageTable.virtualPageTable f = v := by
    intro v hv
    have hvg : v ≠ g := by
      rintro rfl
      rw [htable, Function.update_self] at hv
      exact hv rfl
    rw [htable, Function.update_of_ne hvg] at hv ⊢
    obtain ⟨f, hf, hlt, hpage, -⟩ := hmapped.frame v hv
    refine ⟨rfl, f, hf, ?_, hlt, hpage⟩
    rintro rfl
    have : (v : ℤ) = f := hpage.symm.trans hown
    exact hvg (by exact_mod_cast this)
  constructor
  · refine ⟨hnumBits, fun v hv => ?_, fun i hvalid => ?_⟩
    · obtain ⟨hsame, f, hf, hfg, hlt, hpage⟩ := hother v hv
      refine ⟨f, by rw [hsame]; exact hf, hlt, ?_, hmarked f hlt⟩
      show Function.update t.virtualPageTable g p f = v
      rw [Function.update_of_ne hfg]
      rcases hpages f with hkept | ⟨heq, -⟩
      · exact hkept.trans hpage
      · exact absurd (by exact_mod_cast heq) hfg
    · obtain ⟨hold, heq⟩ := dropFromTLB_valid hvalid
      show ∃ v : ℕ, (dropFromTLB s.tlb g i).virtualPage = v
      rw [heq]
      exact hmapped.named i hold
  · refine ⟨hframe, Function.update_self _ _ _, hmarked g hframe, fun v hv heq => ?_⟩
    obtain ⟨hsame, f, hf, hfg, -, -⟩ := hother v hv
    rw [hsame, hf] at heq
    exact hfg (by exact_mod_cast heq)

/-- Getting a frame, when the access evicts its own page if it evicts at all. -/
theorem FrameFor.mapped {s s₁ : System} {a : Access} {f : ℤ} (hmapped : Mapped s)
    (hevict : EvictsOwnPage s a) (hcur : s.currentSpace = a.space)
    (hmiss : lookup s.tlb a.page = none)
    (habsent : (s.space.pageTable a.page).virtualPage = -1) (h : FrameFor s a.page f s₁) :
    ∃ f' : ℕ, f = f' ∧ Mapped s₁ ∧ FreshFrame s₁ a.page f' ∧
      (s.memorySwap.isLoadedInSwap a.page = true → s₁.memorySwap.slotOf a.page ≠ none) := by
  have hevict := hevict hmiss (by rw [← hcur]; exact habsent)
  cases h with
  | @free f hfree =>
    obtain ⟨hm, hf⟩ := FrameFor.mapped_free (p := (a.page : ℤ)) hmapped hfree
    refine ⟨f, rfl, hm, hf, fun hmarked hnone => ?_⟩
    have hnone : s.memorySwap.slotOf a.page = none := hnone
    rw [Swap.isLoadedInSwap, hnone] at hmarked
    cases hmarked
  | @evicted g j t hfull hvictim hframe hpage hsource hslot =>
    obtain ⟨hown, -, hmark⟩ := hevict hfull
    have hown := hown g (InvertedPageTable.getEntryToReplace_nextVictim hvictim)
    obtain ⟨hm, hf⟩ := FrameFor.mapped_evicted (p := (a.page : ℤ)) (j := j) hmapped hfull hvictim
      hframe hown
    refine ⟨g, rfl, hm, hf, fun hmarked hnone => ?_⟩
    -- the slot taken by the eviction was free, so it is not the one of the page
    obtain ⟨i, hi, htaken, hmarker⟩ := hmark hmarked
    obtain ⟨-, hclear⟩ := BitMap.firstClear_spec hslot
    have hij : i ≠ j := by
      rintro rfl
      rw [htaken] at hclear
      cases hclear
    refine Swap.slotOf_eq_none.mp hnone i hi ?_
    show Function.update s.memorySwap.virtualPages j g i = a.page
    rw [Function.update_of_ne hij]
    exact hmarker
  | refused hfull hvictim hframe hpage hslot =>
    obtain ⟨-, hspare, -⟩ := hevict hfull
    exact absurd hslot hspare

/-! ## One step -/

/-- Entering the page with its own frame keeps the mapping one to one. -/
theorem FreshFrame.install {s s' : System} {p f : ℕ} {e : TranslationEntry} (hmapped : Mapped s)
    (hfresh : FreshFrame s p f) (hentry : e.physicalPage = f)
    (htable : s'.space.pageTable = Function.update s.space.pageTable p e)
    (htlb : s'.tlb = s.tlb) (hipt : s'.invertedPageTable = s.invertedPageTable) :
    Mapped s' := by
  refine ⟨by rw [hipt]; exact hmapped.numBits, fun v hv => ?_, by rw [htlb]; exact hmapped.named⟩
  rw [htable] at hv ⊢
  rw [hipt]
  by_cases hvp : v = p
  · rw [hvp, Function.update_self]
    exact ⟨f, hentry, hfresh.lt, hfresh.recorded, hfresh.marked⟩
  · rw [Function.update_of_ne hvp] at hv ⊢
    exact hmapped.frame v hv

/-- After a page fault the page is in memory and the tables agree. -/
theorem Loaded.mapped {s s' : System} {a : Access} (hmapped : Mapped s)
    (hevict : EvictsOwnPage s a) (hcur : s.currentSpace = a.space)
    (hmiss : lookup s.tlb a.page = none) (h : Loaded s a.addr s') :
    Mapped s' ∧ (s'.space.pageTable a.page).virtualPage ≠ -1 := by
  cases h.tables with
  | resident heq hpage =>
    rw [heq]
    exact ⟨hmapped, hpage⟩
  | loaded habsent hframe hpage htable htlb hipt =>
    obtain ⟨f', rfl, hm, hfresh, -⟩ := hframe.mapped hmapped hevict hcur hmiss habsent
    refine ⟨hfresh.install hm hpage.2 htable htlb hipt, ?_⟩
    rw [htable, Access.page, Function.update_self, hpage.1]
    exact natCast_ne_neg_one _
  | lost habsent hmarked hframe hslot heq =>
    obtain ⟨-, -, -, -, hfound⟩ := hframe.mapped hmapped hevict hcur hmiss habsent
    exact absurd hslot (hfound hmarked)

/-- So does filling a TLB slot from the table. -/
theorem mapped_of_fill {s s' : System} {slot : Fin tlbSize} {p : ℕ} (hmapped : Mapped s)
    (hpage : (s.space.pageTable p).virtualPage = p) (hmap : SameMapping s s')
    (htlb : s'.tlb = Function.update s.tlb slot (s.translationOf slot p)) : Mapped s' := by
  have hrest : Mapped { s' with tlb := s.tlb } :=
    mapped_of_same hmapped ⟨hmap.mainMemory, hmap.memorySwap, hmap.currentSpace, hmap.frames,
      hmap.numPages, hmap.ownExecutable, hmap.virtualPage, hmap.physicalPage⟩ (.refl _)
  refine ⟨hrest.numBits, hrest.frame, fun i hvalid => ?_⟩
  rw [htlb, Function.update_apply] at hvalid ⊢
  split
  · exact ⟨p, hpage⟩
  · rename_i hi
    rw [if_neg hi] at hvalid
    exact hmapped.named i hvalid

/-- The step lemma, for the accesses that evict a page of their own address space. -/
theorem step_mapped {s s' : System} {a : Access} (hnum : Numbered s)
    (hmapped : Mapped (s.switchTo a.space)) (hevict : EvictsOwnPage s a)
    (h : s.step a = .ok s') : Mapped s' := by
  refine step_preserves mapped_of_same (fun _ hm => ⟨hm.numBits, hm.frame, hm.named⟩) ?_ hnum
    (fun _ => hmapped) h
  intro s₁ s₂ slot hmiss _ hloaded hmap htlb
  obtain ⟨hm, hpage⟩ := hloaded.mapped hmapped hevict rfl hmiss
  have hnum₁ := hloaded.numbered (hnum.switchTo a.space) s₁.currentSpace a.page
  exact mapped_of_fill hm (hnum₁.resolve_left hpage) hmap htlb

/-! ## Every run -/

/-- A TLB in agreement with the table holds no frame of another page either. -/
theorem consistent_of_mapped {s : System} {c : ℕ}
    (hmapped : Mapped (s.switchTo c)) (hagree : Agrees (s.switchTo c)) : Consistent s c := by
  refine ⟨hmapped.frame, fun v w hv hw heq => ?_, fun i hvalid => ?_⟩
  · -- both pages are the one recorded for the frame
    obtain ⟨f, hf, -, hfv, -⟩ := hmapped.frame v hv
    obtain ⟨f', hf', -, hfw, -⟩ := hmapped.frame w hw
    have hff : f = f' := by
      have : (f : ℤ) = f' := hf.symm.trans (heq.trans hf')
      exact_mod_cast this
    rw [hff] at hfv
    have : (v : ℤ) = w := hfv.symm.trans hfw
    exact_mod_cast this
  · obtain ⟨v, hv⟩ := hmapped.named i hvalid
    exact ⟨v, hv, hagree i v hvalid hv⟩

theorem Booted.mapped {s : System} (hboot : Booted s) (c : ℕ) : Mapped (s.switchTo c) := by
  refine ⟨?_, fun v hv => ?_, fun i hvalid => ?_⟩
  · show s.invertedPageTable.physicalPagesBitmap.numBits = numPhysPagesIPT
    rw [hboot.invertedPageTable]
    rfl
  · exact absurd (hboot.absent c v) hv
  · rw [switchTo_tlb, hboot.tlb i] at hvalid
    cases hvalid

/-- In every run of one address space all of whose evictions take a frame from the page of
the same number, every state reached is consistent. -/
theorem run_consistent {s s' : System} {as : List Access} {c : ℕ} (hboot : Booted s)
    (hone : ∀ a ∈ as, a.space = c) (hevict : Along step EvictsOwnPage s as)
    (hrun : run step s as = .ok s') : Consistent s' c := by
  have hinv : Numbered s' ∧ Mapped (s'.switchTo c) ∧ Agrees (s'.switchTo c) := by
    refine Along.invariant (I := fun s => Numbered s ∧ Mapped (s.switchTo c) ∧
      Agrees (s.switchTo c)) ?_ ⟨hboot.numbered, hboot.mapped c, hboot.agrees c⟩
      ((Along.of_forall hone).and hevict) hrun
    rintro s a t ⟨hnum, hmapped, hagree⟩ ⟨rfl, hown⟩ hst
    have hcur := step_currentSpace hnum hst
    have hmapped' := step_mapped hnum hmapped hown hst
    have hagree' := step_agrees hnum hagree hst
    rw [← hcur]
    exact ⟨step_numbered hnum hst, hmapped', hagree'⟩
  exact consistent_of_mapped hinv.2.1 hinv.2.2

instance (s : System) (a : Access) : Decidable (EvictsOwnPage s a) := by
  unfold EvictsOwnPage
  infer_instance

/-! ## Two runs

A program of 88 pages that is kept in memory by second chance. Page `p` is read often
enough that its frame is what the policy takes for every TLB slot and then for the first
eviction. -/

/-- Read page `p` seventy times, then every other page up to page 64. -/
def evictingRun (p : ℕ) : List Access :=
  ((List.replicate 70 p) ++ (List.range 65).filter (· ≠ p)).map (Access.read 0)

def demandPaged : System := boot .secondChance fun _ => .program [] (80 * 128)

theorem demandPaged_booted : Booted demandPaged := boot_booted fun _ => by decide +kernel

/-- With `p = 0` the evicted frame holds page `0`. -/
theorem evictingRun_zero_consistent : ∃ s', run step demandPaged (evictingRun 0) = .ok s' ∧
    s'.memorySwap.virtualPages 0 = 0 ∧ Consistent s' 0 := by
  obtain ⟨s', hrun, hstored⟩ : ∃ s', run step demandPaged (evictingRun 0) = .ok s' ∧
    s'.memorySwap.virtualPages 0 = 0 := by decide +kernel
  exact ⟨s', hrun, hstored,
    run_consistent demandPaged_booted (by decide +kernel) (by decide +kernel) hrun⟩

/-- With `p = 1` the evicted frame is frame `0` with page `1` in it: page `1` stays in the
page table while the frame goes to page `64`. -/
theorem run_not_consistent : ¬ ∀ (s s' : System) (as : List Access) (c : ℕ), Booted s →
    (∀ a ∈ as, a.space = c) → run step s as = .ok s' → Consistent s' c := by
  intro h
  obtain ⟨s', hrun, h₁, h₆₄, hframe⟩ : ∃ s', run step demandPaged (evictingRun 1) = .ok s' ∧
      ((s'.spaces 0).pageTable 1).virtualPage ≠ -1 ∧
      ((s'.spaces 0).pageTable 64).virtualPage ≠ -1 ∧
      ((s'.spaces 0).pageTable 1).physicalPage = ((s'.spaces 0).pageTable 64).physicalPage := by
    decide +kernel
  have hcons := h demandPaged s' (evictingRun 1) 0 demandPaged_booted (by decide +kernel) hrun
  exact absurd (hcons.injective 1 64 h₁ h₆₄ hframe) (by decide)

end System
end NachOS
