import NachOS.VM.Bounds
import Mathlib.Data.Fintype.Card

/-!
# Least used

The counters of least used are set back to zero when a page gets a TLB entry and when it loses
it, which are no page loads, and are counted up also when the translation then fails. So between
accesses a counter is zero exactly for the frames that have no TLB entry, and the frame that
`getEntryToReplace` chooses is the first of these, however often its page has been translated.
-/

namespace NachOS

namespace InvertedPageTable

open PartialRun

/-- The loop keeps the first of the least used frames. -/
theorem leastUsedStep_first (uses : ℕ → ℤ) (n : ℕ) :
    let best := (List.range' 1 n).foldl (leastUsedStep uses) 0
    best ≤ n ∧ ∀ f ≤ n, uses best ≤ uses f ∧ (f < best → uses best < uses f) := by
  induction n with
  | zero =>
    refine ⟨le_refl _, fun f hf => ?_⟩
    obtain rfl : f = 0 := by omega
    exact ⟨le_refl _, fun h => absurd h (lt_irrefl _)⟩
  | succ n ih =>
    obtain ⟨hle, hmin⟩ := ih
    rw [List.range'_1_concat, List.foldl_append, List.foldl_cons, List.foldl_nil, Nat.add_comm 1 n]
    generalize (List.range' 1 n).foldl (leastUsedStep uses) 0 = best at hle hmin
    dsimp only
    unfold leastUsedStep
    split
    · rename_i hless
      refine ⟨le_refl _, fun f hf => ?_⟩
      by_cases hlast : f = n + 1
      · rw [hlast]
        exact ⟨le_refl _, fun h => absurd h (lt_irrefl _)⟩
      · have hbefore := (hmin f (by omega)).1
        exact ⟨by omega, fun _ => by omega⟩
    · rename_i hless
      refine ⟨by omega, fun f hf => ?_⟩
      by_cases hlast : f = n + 1
      · rw [hlast]
        exact ⟨by omega, fun h => by omega⟩
      · exact hmin f (by omega)

theorem getLeastUsedPhysicalPage_first (ipt : InvertedPageTable) :
    ipt.getLeastUsedPhysicalPage < numPhysPagesIPT ∧ ∀ f < numPhysPagesIPT,
      ipt.uses ipt.getLeastUsedPhysicalPage ≤ ipt.uses f ∧
      (f < ipt.getLeastUsedPhysicalPage → ipt.uses ipt.getLeastUsedPhysicalPage < ipt.uses f) := by
  obtain ⟨hle, hmin⟩ := leastUsedStep_first ipt.uses (numPhysPagesIPT - 1)
  have hlast : numPhysPagesIPT - 1 + 1 = numPhysPagesIPT := rfl
  exact ⟨by unfold getLeastUsedPhysicalPage; omega, fun f hf => hmin f (by omega)⟩

theorem updatePage_uses {t t' : InvertedPageTable} {f : ℤ} {b : Bool}
    (halg : t.replacementAlgorithm = .leastUsed) (h : t.updatePage f b = .ok t') :
    t'.uses = Function.update t.uses f.toNat (if b then 0 else toInt (t.uses f.toNat + 1)) := by
  unfold updatePage at h
  rw [halg] at h
  obtain ⟨old, hold, h⟩ := bind_ok_iff.mp h
  obtain ⟨uses, hset, h⟩ := bind_ok_iff.mp h
  obtain ⟨-, rfl⟩ := System.vectorGet_ok_iff.mp hold
  obtain ⟨-, rfl⟩ := System.vectorSet_ok_iff.mp hset
  cases h
  rfl

/-- Every counter can still be counted up. -/
def UsesFit (t : InvertedPageTable) : Prop := ∀ f < numPhysPagesIPT, t.uses f < 2 ^ 31 - 1

instance (t : InvertedPageTable) : Decidable t.UsesFit :=
  inferInstanceAs (Decidable (∀ f < numPhysPagesIPT, _))

/-- The counter of the frame that loses its TLB entry. -/
theorem getTLBEntryToReplace_uses {t t' : InvertedPageTable}
    {tlb : Fin tlbSize → TranslationEntry} {slot : Fin tlbSize}
    (halg : t.replacementAlgorithm = .leastUsed) (hframes : ∀ i, InVector (tlb i).physicalPage)
    (h : t.getTLBEntryToReplace tlb = .ok (slot, t')) :
    t'.uses = Function.update t.uses (tlb slot).physicalPage.toNat 0 := by
  have hget : ∀ i, vectorGet t.uses (tlb i).physicalPage =
      .ok (t.uses (tlb i).physicalPage.toNat) :=
    fun i => System.vectorGet_ok_iff.mpr ⟨hframes i, rfl⟩
  unfold getTLBEntryToReplace at h
  rw [halg] at h
  simp only [hget, ok_bind, leastUsedSlot_foldlM hframes] at h
  obtain ⟨uses, hset, h⟩ := bind_ok_iff.mp h
  obtain ⟨-, rfl⟩ := System.vectorSet_ok_iff.mp hset
  cases h
  rfl

end InvertedPageTable

namespace System

open PartialRun InvertedPageTable

/-! ## Where the pages are

With least used nothing is ever evicted, so the inverted page table keeps the page of every frame
for good, and no two TLB entries have the same frame. -/

/-- The frame is in use and the inverted page table has the page for it. -/
def HasPage (s : System) (f v : ℤ) : Prop :=
  ∃ g : ℕ, f = g ∧ s.invertedPageTable.physicalPagesBitmap.marked g = true ∧
    s.invertedPageTable.virtualPageTable g = v

/-- The pages in the tables and in the TLB are those of the inverted page table. -/
structure PagesRecorded (s : System) : Prop where
  resident : ∀ c p, ((s.spaces c).pageTable p).virtualPage ≠ -1 →
    HasPage s ((s.spaces c).pageTable p).physicalPage p
  tlb : ∀ i, (s.tlb i).valid = true → HasPage s (s.tlb i).physicalPage (s.tlb i).virtualPage

theorem HasPage.congr {s s' : System} {f v : ℤ} (h : HasPage s f v)
    (hframes : SameFrames s.invertedPageTable s'.invertedPageTable) : HasPage s' f v := by
  obtain ⟨g, hg, hmarked, hpage⟩ := h
  rw [← hframes.physicalPagesBitmap] at hmarked
  rw [← hframes.virtualPageTable] at hpage
  exact ⟨g, hg, hmarked, hpage⟩

theorem recorded_of_same {s s' : System} (h : PagesRecorded s) (hmap : SameMapping s s')
    (htlb : SameTLB s.tlb s'.tlb) : PagesRecorded s' := by
  constructor
  · intro c p hres
    rw [hmap.virtualPage] at hres
    rw [hmap.physicalPage]
    exact (h.resident c p hres).congr hmap.frames
  · intro i hvalid
    rw [htlb.valid] at hvalid
    rw [htlb.physicalPage, htlb.virtualPage]
    exact (h.tlb i hvalid).congr hmap.frames

theorem recorded_of_fill {s s' : System} {slot : Fin tlbSize} {p : ℕ} (h : PagesRecorded s)
    (hnum : Numbered s) (hres : (s.space.pageTable p).virtualPage ≠ -1) (hmap : SameMapping s s')
    (htlb : s'.tlb = Function.update s.tlb slot (s.translationOf slot p)) : PagesRecorded s' := by
  constructor
  · intro c q hq
    rw [hmap.virtualPage] at hq
    rw [hmap.physicalPage]
    exact (h.resident c q hq).congr hmap.frames
  · intro i hvalid
    rw [htlb, Function.update_apply] at hvalid ⊢
    split
    · have hpage : (s.space.pageTable p).virtualPage = p :=
        (hnum s.currentSpace p).resolve_left hres
      show HasPage s' (s.space.pageTable p).physicalPage (s.space.pageTable p).virtualPage
      rw [hpage]
      exact (h.resident s.currentSpace p hres).congr hmap.frames
    · rename_i hi
      rw [if_neg hi] at hvalid
      exact (h.tlb i hvalid).congr hmap.frames

/-- A page fault of least used: the page is in memory, or it gets the first free frame. -/
theorem Loaded.of_leastUsed {s s₁ : System} {addr : ℕ} (hs : Paged s)
    (halg : s.invertedPageTable.replacementAlgorithm = .leastUsed) (h : Loaded s addr s₁) :
    ((s.space.pageTable (addr / pageSize)).virtualPage ≠ -1 ∧ s₁ = s) ∨
      ∃ f n bytes, s.invertedPageTable.physicalPagesBitmap.firstClear = some f ∧
        f < numPhysPagesIPT ∧ (s.space.pageTable (addr / pageSize)).virtualPage = -1 ∧
        s₁ = (s.giveFrame f (addr / pageSize : ℕ)).install (addr / pageSize)
          (s.space.pageTable (addr / pageSize)) f n bytes := by
  have hfree : (s.space.pageTable (addr / pageSize)).virtualPage = -1 →
      ∃ f < numPhysPagesIPT, s.invertedPageTable.physicalPagesBitmap.firstClear = some f := by
    intro habsent
    have hswap := (hs.neverSwaps halg).1
    cases h.tables with
    | resident _ hpage => exact absurd habsent hpage
    | loaded _ hframe => exact hframe.free_of_leastUsed hs.allocating halg hswap
    | lost _ _ hframe => exact hframe.free_of_leastUsed hs.allocating halg hswap
  by_cases habsent : (s.space.pageTable (addr / pageSize)).virtualPage = -1
  · obtain ⟨f, hf, hfirst⟩ := hfree habsent
    rcases h.of_free hs.allocating hfirst with ⟨hpage, -⟩ | ⟨n, bytes, -, -, -, rfl⟩
    · exact absurd habsent hpage
    · exact .inr ⟨f, n, bytes, hfirst, hf, habsent, rfl⟩
  · cases h.tables with
    | resident heq hpage => exact .inl ⟨hpage, heq⟩
    | loaded habsent' => exact absurd habsent' habsent
    | lost habsent' => exact absurd habsent' habsent

/-- What the first half of the handler does with least used. -/
theorem Loaded.pagesRecorded {s s₁ : System} {addr : ℕ} (hs : Paged s) (hrec : PagesRecorded s)
    (halg : s.invertedPageTable.replacementAlgorithm = .leastUsed) (h : Loaded s addr s₁) :
    PagesRecorded s₁ ∧ s₁.tlb = s.tlb ∧
      s₁.invertedPageTable.uses = s.invertedPageTable.uses ∧
      (s₁.space.pageTable (addr / pageSize)).virtualPage ≠ -1 := by
  rcases h.of_leastUsed hs halg with ⟨hpage, rfl⟩ | ⟨f, n, bytes, hfirst, -, -, rfl⟩
  · exact ⟨hrec, rfl, rfl, hpage⟩
  have hclear := (BitMap.firstClear_spec hfirst).2
  -- what was recorded has another frame
  have hkeep : ∀ {g v : ℤ}, HasPage s g v → HasPage ((s.giveFrame f (addr / pageSize : ℕ)).install
      (addr / pageSize) (s.space.pageTable (addr / pageSize)) f n bytes) g v := by
    rintro g v ⟨k, hk, hmarked, hpage⟩
    have hne : k ≠ f := by
      rintro rfl
      rw [hclear] at hmarked
      cases hmarked
    refine ⟨k, hk, ?_, ?_⟩
    · show (BitMap.markBit _ f).marked k = true
      rw [BitMap.markBit_marked, if_neg hne]
      exact hmarked
    · show Function.update s.invertedPageTable.virtualPageTable f _ k = v
      rw [Function.update_of_ne hne]
      exact hpage
  have htable := install_pageTable (s.giveFrame f (addr / pageSize : ℕ)) (addr / pageSize)
    (s.space.pageTable (addr / pageSize)) f n bytes
  refine ⟨⟨fun c p hres => ?_, fun i hvalid => hkeep (hrec.tlb i hvalid)⟩, rfl, rfl, ?_⟩
  · by_cases hc : c = s.currentSpace
    · rw [hc] at hres ⊢
      change ((System.space _).pageTable p).virtualPage ≠ -1 at hres
      show HasPage _ ((System.space _).pageTable p).physicalPage p
      rw [htable, Function.update_apply] at hres ⊢
      split
      · rename_i hp
        refine ⟨f, rfl, ?_, ?_⟩
        · show (BitMap.markBit _ f).marked f = true
          rw [BitMap.markBit_marked, if_pos rfl]
        · show Function.update s.invertedPageTable.virtualPageTable f _ f = p
          rw [Function.update_self, hp]
      · rename_i hp
        rw [if_neg hp] at hres
        exact hkeep (hrec.resident s.currentSpace p hres)
    · rw [install_spaces_of_ne _ _ _ _ _ _ (by exact hc)] at hres ⊢
      exact hkeep (hrec.resident c p hres)
  · rw [htable, Function.update_self]
    exact natCast_ne_neg_one _

/-- Two valid TLB entries have different frames. -/
theorem PagesRecorded.slot_unique {s : System} {i j : Fin tlbSize} (h : PagesRecorded s)
    (hdistinct : Distinct s.tlb) (hpages : ∀ i, (s.tlb i).valid = true →
      ∃ v : ℕ, (s.tlb i).virtualPage = v) (hi : (s.tlb i).valid = true)
    (hj : (s.tlb j).valid = true) (heq : (s.tlb i).physicalPage = (s.tlb j).physicalPage) :
    i = j := by
  obtain ⟨f, hf, -, hfi⟩ := h.tlb i hi
  obtain ⟨g, hg, -, hgj⟩ := h.tlb j hj
  obtain ⟨v, hv⟩ := hpages i hi
  have hfg : f = g := by
    have hfg := hf.symm.trans (heq.trans hg)
    exact_mod_cast hfg
  rw [hfg, hgj] at hfi
  exact hdistinct i j v hi hj hv (hfi.trans hv)

/-! ## The counters -/

/-- What holds along a run with least used: between accesses the counter of a frame is zero
exactly if the frame has no TLB entry. -/
structure LeastUsing (s : System) : Prop extends Reached s where
  algorithm : s.invertedPageTable.replacementAlgorithm = .leastUsed
  recorded : PagesRecorded s
  distinct : Distinct s.tlb
  named : ∀ i, (s.tlb i).valid = true → ∃ v : ℕ, (s.tlb i).virtualPage = v
  idle : ∀ f : ℕ, (∀ i, (s.tlb i).valid = true → (s.tlb i).physicalPage ≠ f) →
    s.invertedPageTable.uses f = 0
  busy : ∀ i, (s.tlb i).valid = true →
    1 ≤ s.invertedPageTable.uses (s.tlb i).physicalPage.toNat

theorem Booted.leastUsing {s : System} (hboot : Booted s)
    (halg : s.invertedPageTable.replacementAlgorithm = .leastUsed) : LeastUsing s := by
  have hinvalid : ∀ {i}, (s.tlb i).valid = true → False := by
    intro i hvalid
    rw [hboot.tlb i] at hvalid
    cases hvalid
  refine ⟨hboot.reached, halg, ⟨fun c p hres => absurd (hboot.absent c p) hres,
    fun i hvalid => (hinvalid hvalid).elim⟩, fun i j v hi => (hinvalid hi).elim,
    fun i hvalid => (hinvalid hvalid).elim, fun f _ => ?_, fun i hvalid => (hinvalid hvalid).elim⟩
  rw [hboot.invertedPageTable]
  rfl

/-- The tables, as for the other policies. -/
theorem LeastUsing.step_tables {s s' : System} {a : Access} (h : LeastUsing s)
    (hstep : s.step a = .ok s') : PagesRecorded s' ∧
      ∀ i, (s'.tlb i).valid = true → ∃ v : ℕ, (s'.tlb i).virtualPage = v := by
  have hnum := h.numbered
  have hloads : ∀ {s₁ : System}, Loaded (s.switchTo a.space) a.addr s₁ →
      PagesRecorded s₁ ∧ s₁.tlb = s.tlb ∧ (s₁.space.pageTable a.page).virtualPage ≠ -1 := by
    intro s₁ hloaded
    have hrec : PagesRecorded (s.switchTo a.space) := ⟨h.recorded.resident, h.recorded.tlb⟩
    obtain ⟨hrec₁, htlb, -, hres⟩ :=
      hloaded.pagesRecorded (h.toPaged.switchTo a.space) hrec h.algorithm
    exact ⟨hrec₁, htlb, hres⟩
  constructor
  · refine step_preserves recorded_of_same (fun _ hrec => ⟨hrec.resident, hrec.tlb⟩) ?_ hnum
      (fun _ => ⟨h.recorded.resident, h.recorded.tlb⟩) hstep
    intro s₁ s₂ slot _ _ hloaded hmap htlb
    obtain ⟨hrec₁, -, hres⟩ := hloads hloaded
    exact recorded_of_fill hrec₁ (hloaded.numbered (hnum.switchTo a.space)) hres hmap htlb
  · refine step_preserves (I := fun s => ∀ i, (s.tlb i).valid = true →
      ∃ v : ℕ, (s.tlb i).virtualPage = v) (fun hnamed _ htlb i hvalid => ?_)
      (fun _ hnamed => hnamed) ?_ hnum (fun _ => h.named) hstep
    · rw [htlb.valid] at hvalid
      rw [htlb.virtualPage]
      exact hnamed i hvalid
    · intro s₁ s₂ slot _ _ hloaded hmap htlb i hvalid
      obtain ⟨-, htlb₁, hres⟩ := hloads hloaded
      rw [htlb, Function.update_apply] at hvalid ⊢
      split
      · have hnum₁ := hloaded.numbered (hnum.switchTo a.space)
        exact ⟨a.page, (hnum₁ s₁.currentSpace a.page).resolve_left hres⟩
      · rename_i hi
        rw [if_neg hi, htlb₁] at hvalid
        rw [htlb₁]
        exact h.named i hvalid

/-- The frame of a valid entry is a natural number. -/
theorem LeastUsing.frame_toNat {s : System} {i : Fin tlbSize} (h : LeastUsing s)
    (hvalid : (s.tlb i).valid = true) :
    (s.tlb i).physicalPage = ((s.tlb i).physicalPage.toNat : ℤ) := by
  obtain ⟨f, hf, -, -⟩ := h.recorded.tlb i hvalid
  rw [hf, Int.toNat_natCast]

/-- A TLB hit counts up the frame of the entry. -/
theorem LeastUsing.hit_uses {s : System} {i : Fin tlbSize} {t : InvertedPageTable}
    {tlb' : Fin tlbSize → TranslationEntry} (h : LeastUsing s)
    (hfit : s.invertedPageTable.UsesFit) (hvalid : (s.tlb i).valid = true)
    (hupdate : s.invertedPageTable.updatePage (s.tlb i).physicalPage false = .ok t)
    (htlb : SameTLB s.tlb tlb') :
    (∀ f : ℕ, (∀ j, (tlb' j).valid = true → (tlb' j).physicalPage ≠ f) → t.uses f = 0) ∧
    ∀ j, (tlb' j).valid = true → 1 ≤ t.uses (tlb' j).physicalPage.toNat := by
  have huses := updatePage_uses h.algorithm hupdate
  have hbusy := h.busy i hvalid
  have hframe := (h.neverSwaps h.algorithm).2.tlb i hvalid
  have hmax := hfit (s.tlb i).physicalPage.toNat (by omega)
  rw [if_neg Bool.false_ne_true, toInt_of_range (by omega) (by omega)] at huses
  rw [huses]
  simp only [htlb.valid, htlb.physicalPage]
  constructor
  · intro f hf
    have hne : f ≠ (s.tlb i).physicalPage.toNat := by
      intro heq
      exact hf i hvalid (by rw [heq]; exact h.frame_toNat hvalid)
    rw [Function.update_of_ne hne]
    exact h.idle f hf
  · intro j hj
    rw [Function.update_apply]
    split
    · omega
    · exact h.busy j hj

/-- The first half of the handler leaves the policy as it is. -/
theorem LeastUsing.miss_algorithm {s s₁ s' : System} {a : Access} {slot : Fin tlbSize}
    {t t' : InvertedPageTable} {r : Except MemException ℕ} (h : LeastUsing s)
    (hmiss : Miss s a s₁ slot t t' r s') :
    s₁.invertedPageTable.replacementAlgorithm = .leastUsed ∧
      t.replacementAlgorithm = .leastUsed ∧ t'.replacementAlgorithm = .leastUsed := by
  have halg₁ : s₁.invertedPageTable.replacementAlgorithm = .leastUsed :=
    hmiss.loaded.algorithm.trans h.algorithm
  have halg : t.replacementAlgorithm = .leastUsed :=
    hmiss.slotFor.frames.replacementAlgorithm.trans halg₁
  exact ⟨halg₁, halg, (updatePage_frames hmiss.update).replacementAlgorithm.trans halg⟩

/-- Choosing the slot sets the counter of the frame that loses its entry back. -/
theorem LeastUsing.slotFor_uses {s s₁ s' : System} {a : Access} {slot : Fin tlbSize}
    {t t' : InvertedPageTable} {r : Except MemException ℕ} (h : LeastUsing s)
    (hmiss : Miss s a s₁ slot t t' r s') (f : ℕ) :
    t.uses f = if (s.tlb slot).valid = true ∧ (s.tlb slot).physicalPage = f then 0
      else s.invertedPageTable.uses f := by
  obtain ⟨-, htlb₁, huses₁, -⟩ := hmiss.loaded.pagesRecorded h.toPaged h.recorded h.algorithm
  rw [← huses₁]
  have hslot := hmiss.slotFor
  rw [htlb₁] at hslot
  cases hslot with
  | free hfree =>
    rw [if_neg]
    rintro ⟨hvalid, -⟩
    rw [freeSlot_some hfree] at hvalid
    cases hvalid
  | replaced hnone hchosen =>
    have hvalid := freeSlot_eq_none.mp hnone
    have hvectors : ∀ i, InVector (s.tlb i).physicalPage :=
      fun i => (h.neverSwaps h.algorithm).2.tlb i (hvalid i)
    rw [getTLBEntryToReplace_uses (h.miss_algorithm hmiss).1 hvectors hchosen,
      Function.update_apply]
    have hnat := h.frame_toNat (hvalid slot)
    by_cases hf : f = (s.tlb slot).physicalPage.toNat
    · rw [if_pos hf, if_pos ⟨hvalid slot, by rw [hf]; exact hnat⟩]
    · rw [if_neg hf, if_neg]
      rintro ⟨-, heq⟩
      exact hf (by rw [heq, Int.toNat_natCast])

/-- The second translation finds the new entry and counts it up, from zero. -/
theorem LeastUsing.retry_uses {s s₁ s' : System} {a : Access} {slot : Fin tlbSize}
    {t t' : InvertedPageTable} {r : Except MemException ℕ} {f : ℕ} (h : LeastUsing s)
    (hmiss : Miss s a s₁ slot t t' r s')
    (hframe : (s₁.space.pageTable a.page).physicalPage = f) :
    s'.invertedPageTable.uses = Function.update t.uses f 1 := by
  obtain ⟨-, halg, halg'⟩ := h.miss_algorithm hmiss
  obtain ⟨-, -, -, hres⟩ := hmiss.loaded.pagesRecorded h.toPaged h.recorded h.algorithm
  have hlookup := hmiss.lookup_self h.numbered h.distinct hres
  have hentry : (s₁.filled slot a.page t').tlb slot = s₁.translationOf slot a.page :=
    Function.update_self _ _ _
  have hreset := updatePage_uses halg hmiss.update
  rw [hframe, Int.toNat_natCast, if_pos rfl] at hreset
  have htranslated := hmiss.translated
  cases htranslated with
  | miss hnone =>
    rw [← Access.page, hlookup] at hnone
    cases hnone
  | hit hfound hupdate _ =>
    rw [← Access.page, hlookup] at hfound
    cases hfound
    rw [hentry] at hupdate
    have hcounted := updatePage_uses halg' hupdate
    have hnew : (s₁.translationOf slot a.page).physicalPage = f := hframe
    rw [hnew, Int.toNat_natCast, if_neg Bool.false_ne_true, hreset, Function.update_self,
      Function.update_idem, zero_add, toInt_of_range (by omega) (by omega)] at hcounted
    exact hcounted

/-- The entries and the counters after a miss, which puts a page of frame `f` into the slot. -/
structure Refilled (s s' : System) (slot : Fin tlbSize) (f : ℕ) : Prop where
  valid : ∀ j, (s'.tlb j).valid = true ↔ j = slot ∨ (s.tlb j).valid = true
  physicalPage : ∀ j, (s'.tlb j).physicalPage = if j = slot then (f : ℤ)
    else (s.tlb j).physicalPage
  uses : ∀ g : ℕ, s'.invertedPageTable.uses g = if g = f then 1
    else if (s.tlb slot).valid = true ∧ (s.tlb slot).physicalPage = g then 0
    else s.invertedPageTable.uses g

theorem LeastUsing.refilled {s s₁ s' : System} {a : Access} {slot : Fin tlbSize}
    {t t' : InvertedPageTable} {r : Except MemException ℕ} (h : LeastUsing s)
    (hmiss : Miss s a s₁ slot t t' r s') : ∃ f, Refilled s s' slot f := by
  obtain ⟨hrec₁, htlb₁, -, hres⟩ :=
    hmiss.loaded.pagesRecorded h.toPaged h.recorded h.algorithm
  obtain ⟨f, hf, -, -⟩ := hrec₁.resident s₁.currentSpace a.page hres
  have hframe : (s₁.space.pageTable a.page).physicalPage = f := hf
  have hsame := hmiss.translated.same.2
  have hfilled : (s₁.filled slot a.page t').tlb =
      Function.update s.tlb slot (s₁.translationOf slot a.page) := by
    rw [← htlb₁]
    rfl
  refine ⟨f, ?valid, ?physicalPage, ?uses⟩
  case valid =>
    intro j
    rw [hsame.valid, hfilled, Function.update_apply]
    split
    · rename_i hj
      exact ⟨fun _ => .inl hj, fun _ => rfl⟩
    · rename_i hj
      exact ⟨fun hvalid => .inr hvalid, fun hor => hor.resolve_left hj⟩
  case physicalPage =>
    intro j
    rw [hsame.physicalPage, hfilled, Function.update_apply]
    split
    · exact hframe
    · rfl
  case uses =>
    intro g
    rw [h.retry_uses hmiss hframe, Function.update_apply, h.slotFor_uses hmiss]

/-- A frame without an entry had none before, or has just lost it. -/
theorem LeastUsing.idle_refilled {s s' : System} {slot : Fin tlbSize} {f : ℕ} (h : LeastUsing s)
    (hnew : Refilled s s' slot f) (g : ℕ)
    (hg : ∀ j, (s'.tlb j).valid = true → (s'.tlb j).physicalPage ≠ g) :
    s'.invertedPageTable.uses g = 0 := by
  have hne : g ≠ f := by
    rintro rfl
    exact hg slot ((hnew.valid slot).mpr (.inl rfl)) (by rw [hnew.physicalPage, if_pos rfl])
  rw [hnew.uses, if_neg hne]
  split
  · rfl
  · rename_i hold
    refine h.idle g fun j hj heq => ?_
    by_cases hslot : j = slot
    · rw [hslot] at hj heq
      exact hold ⟨hj, heq⟩
    · refine hg j ((hnew.valid j).mpr (.inr hj)) ?_
      rw [hnew.physicalPage, if_neg hslot]
      exact heq

/-- The frame of the new entry has one use, and no other entry has the frame that lost its own. -/
theorem LeastUsing.busy_refilled {s s' : System} {slot : Fin tlbSize} {f : ℕ} (h : LeastUsing s)
    (hnew : Refilled s s' slot f) (j : Fin tlbSize) (hj : (s'.tlb j).valid = true) :
    1 ≤ s'.invertedPageTable.uses (s'.tlb j).physicalPage.toNat := by
  rw [hnew.uses, hnew.physicalPage]
  by_cases hslot : j = slot
  · rw [if_pos hslot, Int.toNat_natCast, if_pos rfl]
  · have hvalid := ((hnew.valid j).mp hj).resolve_left hslot
    rw [if_neg hslot]
    split
    · exact le_refl _
    · rw [if_neg]
      · exact h.busy j hvalid
      · rintro ⟨hold, heq⟩
        rw [← h.frame_toNat hvalid] at heq
        exact hslot (h.recorded.slot_unique h.distinct h.named hold hvalid heq).symm

theorem LeastUsing.step {s s' : System} {a : Access} (h : LeastUsing s)
    (hfit : s.invertedPageTable.UsesFit) (hstep : s.step a = .ok s') : LeastUsing s' := by
  obtain ⟨hrec, hnamed⟩ := h.step_tables hstep
  have hreached := step_reached h.toReached hstep
  have hdistinct := step_distinct h.numbered h.distinct hstep
  have hswitched : LeastUsing (s.switchTo a.space) :=
    ⟨h.toReached.switchTo a.space, h.algorithm, ⟨h.recorded.resident, h.recorded.tlb⟩, h.distinct,
      h.named, h.idle, h.busy⟩
  rcases step_cases h.numbered hstep with ⟨i, x, t, e, m, hlookup, hupdate, huse, rfl⟩ |
    ⟨s₁, slot, t, t', r, s₂, m, hmiss, rfl⟩
  · obtain ⟨⟨hv, hp, hvalid, hro⟩, -, -⟩ := useEntry_ok huse
    obtain ⟨hidle, hbusy⟩ := hswitched.hit_uses hfit (lookup_some hlookup).1 hupdate
      (sameTLB_update hv hp hvalid hro)
    exact ⟨hreached, (updatePage_frames hupdate).replacementAlgorithm.trans h.algorithm, hrec,
      hdistinct, hnamed, hidle, hbusy⟩
  · obtain ⟨f, hnew⟩ := hswitched.refilled hmiss
    have halg : s₂.invertedPageTable.replacementAlgorithm = .leastUsed := by
      rw [hmiss.same.frames.replacementAlgorithm, hmiss.loaded.algorithm]
      exact h.algorithm
    exact ⟨hreached, halg, hrec, hdistinct, hnamed,
      fun g hg => hswitched.idle_refilled hnew g hg, fun j hj => hswitched.busy_refilled hnew j hj⟩

/-- A translation that succeeds leaves an entry for the page, with a frame of the machine. -/
theorem Translated.frame_lt {s s' : System} {addr pa : ℕ} {size : Size} {w : Bool}
    (h : Translated s addr size w (.ok pa) s') : ∃ i, lookup s'.tlb (addr / pageSize) = some i ∧
      toUnsigned (s'.tlb i).physicalPage < numPhysPages := by
  have hsame := h.same.2
  cases h with
  | @hit i t r e hlookup hupdate huse =>
    refine ⟨i, ?_, ?_⟩
    · rw [← hlookup]
      exact lookup_congr fun j => by rw [hsame.valid, hsame.virtualPage]
    · rw [hsame.physicalPage]
      exact ((useEntry_ok huse).2.2 pa rfl).1

/-- The frame the TLB has for a page. -/
def translatedFrame (s : System) (p : ℕ) : Option ℤ :=
  (lookup s.tlb p).map fun i => (s.tlb i).physicalPage

/-- An access that is answered went to a frame of the machine. -/
theorem access_frame_lt {s s' : System} {a : Access} {reply : Reply} {f : ℕ}
    (h : s.access a = .ok (reply, s')) (hreply : reply ≠ .failed) (hf : f < numPhysPagesIPT)
    (hframe : s'.translatedFrame a.page = some (f : ℤ)) : f < numPhysPages := by
  obtain ⟨pa, s₁, hresolved, hmatch⟩ := access_ok h
  -- the bytes written make no difference to the TLB
  obtain ⟨x, hx, htlb⟩ : ∃ x, pa = some x ∧ s'.tlb = s₁.tlb := by
    cases pa with
    | none =>
      cases hw : a.write with
      | none =>
        rw [hw] at hmatch
        exact absurd hmatch.1 hreply
      | some v =>
        rw [hw] at hmatch
        exact absurd hmatch.1 hreply
    | some x =>
      refine ⟨x, rfl, ?_⟩
      cases hw : a.write with
      | none =>
        rw [hw] at hmatch
        rw [hmatch.2]
      | some v =>
        rw [hw] at hmatch
        rw [hmatch.2]
  subst hx
  obtain ⟨i, hlookup, hlt⟩ : ∃ i, lookup s₁.tlb a.page = some i ∧
      toUnsigned (s₁.tlb i).physicalPage < numPhysPages := by
    generalize hpa : some x = pa at hresolved
    cases hresolved with
    | hit htranslated => exact htranslated.frame_lt
    | @fault s₂ _ r _ _ htranslated =>
      cases r with
      | error e => cases hpa
      | ok y => exact htranslated.frame_lt
  unfold translatedFrame at hframe
  rw [htlb, hlookup, Option.map_some, Option.some.injEq] at hframe
  rw [hframe] at hlt
  unfold toUnsigned at hlt
  rw [numPhysPages_eq] at hlt ⊢
  rw [numPhysPagesIPT_eq] at hf
  omega

/-- The frame has no entry in the TLB. -/
def Rested (s : System) (f : ℕ) : Prop := ∀ i, (s.tlb i).valid = true → (s.tlb i).physicalPage ≠ f

/-- The first frame without an entry in the TLB. -/
structure FirstRested (s : System) (g : ℕ) : Prop where
  lt : g < numPhysPagesIPT
  rested : Rested s g
  first : ∀ f < g, ¬ Rested s f

/-- There are more frames than TLB entries. -/
theorem exists_rested (s : System) : ∃ f < numPhysPagesIPT, Rested s f := by
  by_contra hnone
  have hentry : ∀ f : Fin numPhysPagesIPT, ∃ i, (s.tlb i).physicalPage = (f : ℕ) := by
    intro f
    by_contra hno
    exact hnone ⟨f, f.isLt, fun i _ heq => hno ⟨i, heq⟩⟩
  choose slot hslot using hentry
  have hinjective : Function.Injective slot := by
    intro f g hfg
    have heq : ((f : ℕ) : ℤ) = (g : ℕ) := by rw [← hslot f, ← hslot g, hfg]
    exact Fin.ext (by exact_mod_cast heq)
  have hcard := Fintype.card_le_of_injective slot hinjective
  rw [Fintype.card_fin, Fintype.card_fin] at hcard
  exact absurd hcard (by decide)

/-- Least used chooses the first frame without an entry in the TLB. -/
theorem LeastUsing.chosen {s : System} (h : LeastUsing s) :
    FirstRested s s.invertedPageTable.getLeastUsedPhysicalPage := by
  obtain ⟨hlt, hmin⟩ := s.invertedPageTable.getLeastUsedPhysicalPage_first
  obtain ⟨f, hf, hrested⟩ := s.exists_rested
  have hzero := (hmin f hf).1
  rw [h.idle f hrested] at hzero
  have hnotBusy : ∀ g : ℕ, s.invertedPageTable.uses g ≤ 0 → Rested s g := by
    intro g hg i hvalid heq
    have hbusy := h.busy i hvalid
    rw [heq, Int.toNat_natCast] at hbusy
    omega
  refine ⟨hlt, hnotBusy _ hzero, fun g hg hrested => ?_⟩
  have hless := (hmin g (by omega)).2 hg
  rw [h.idle g hrested, h.idle _ (hnotBusy _ hzero)] at hless
  exact lt_irrefl _ hless

end System

/-! ## Every run -/

/-- The system, and for every frame the successful translations since its page was loaded. -/
structure Translations where
  sys : System
  count : ℕ → ℕ

namespace Translations

open PartialRun InvertedPageTable NachOS.System

/-- An access, and the record of its translation. -/
def step (t : Translations) (a : Access) : Except Fault Translations := do
  let (reply, sys) ← t.sys.access a
  return ⟨sys, fun f => (if fills t.sys sys a = some (f : ℤ) then 0 else t.count f) +
    if reply ≠ .failed ∧ sys.translatedFrame a.page = some (f : ℤ) then 1 else 0⟩

/-- A freshly booted system, nothing translated. -/
def start (s : System) : Translations := ⟨s, fun _ => 0⟩

/-- The frame that `getEntryToReplace` chooses has the fewest translations of all frames in use. -/
def ChoosesLeast (t : Translations) : Prop :=
  ∀ g ipt, t.sys.invertedPageTable.getEntryToReplace = .ok (g, ipt) → ∀ f < numPhysPagesIPT,
    t.sys.invertedPageTable.physicalPagesBitmap.marked f = true → t.count g.toNat ≤ t.count f

/-- The frames the machine does not have are never translated to. -/
def NoneBeyond (t : Translations) : Prop :=
  ∀ f, numPhysPages ≤ f → f < numPhysPagesIPT → t.count f = 0

theorem step_ok {t t' : Translations} {a : Access} (h : t.step a = .ok t') :
    ∃ reply, t.sys.access a = .ok (reply, t'.sys) ∧ t.sys.step a = .ok t'.sys ∧
      t'.count = fun f : ℕ => (if fills t.sys t'.sys a = some (f : ℤ) then 0 else t.count f) +
        if reply ≠ .failed ∧ t'.sys.translatedFrame a.page = some (f : ℤ) then 1 else 0 := by
  obtain ⟨⟨reply, sys⟩, haccess, h⟩ := bind_ok_iff.mp h
  rw [pure_ok_iff] at h
  subst h
  refine ⟨reply, haccess, ?_, rfl⟩
  unfold System.step
  rw [haccess]
  rfl

theorem NoneBeyond.step {t t' : Translations} {a : Access} (h : NoneBeyond t)
    (hstep : t.step a = .ok t') : NoneBeyond t' := by
  obtain ⟨reply, haccess, -, hcount⟩ := step_ok hstep
  intro f hf hlast
  have hnot : ¬ (reply ≠ .failed ∧ t'.sys.translatedFrame a.page = some (f : ℤ)) := by
    rintro ⟨hreply, hframe⟩
    have hlt := access_frame_lt haccess hreply hlast hframe
    omega
  rw [hcount]
  dsimp only
  rw [if_neg hnot, h f hf hlast]
  split
  · rfl
  · rfl

/-- With no frame free, the frame chosen has the fewest translations exactly if the first frame
without an entry in the TLB has had none. No counter of type `int` overflows in the run. -/
theorem run_choosesLeast_iff {s : System} {as : List Access} {t : Translations} (hboot : Booted s)
    (halg : s.invertedPageTable.replacementAlgorithm = .leastUsed)
    (hfit : Along step (fun t _ => t.sys.invertedPageTable.UsesFit) (start s) as)
    (hrun : run step (start s) as = .ok t)
    (hfull : t.sys.invertedPageTable.physicalPagesBitmap.firstClear = none) :
    ChoosesLeast t ↔ ∀ f, FirstRested t.sys f → t.count f = 0 := by
  have hkeep : ∀ (t : Translations) (a : Access) (t' : Translations),
      LeastUsing t.sys ∧ NoneBeyond t → t.sys.invertedPageTable.UsesFit → t.step a = .ok t' →
        LeastUsing t'.sys ∧ NoneBeyond t' := by
    intro t a t' h hfit hstep
    obtain ⟨-, -, hsys, -⟩ := step_ok hstep
    exact ⟨h.1.step hfit hsys, h.2.step hstep⟩
  have hstart : LeastUsing (start s).sys ∧ NoneBeyond (start s) :=
    ⟨hboot.leastUsing halg, fun _ _ _ => rfl⟩
  obtain ⟨hs, hbeyond⟩ := Along.invariant hkeep hstart hfit hrun
  have hchosen := hs.chosen
  obtain ⟨ipt, hvictim⟩ : ∃ ipt, t.sys.invertedPageTable.getEntryToReplace =
      .ok ((t.sys.invertedPageTable.getLeastUsedPhysicalPage : ℕ), ipt) := by
    unfold getEntryToReplace
    rw [hs.algorithm]
    exact ⟨_, rfl⟩
  constructor
  · intro hleast f hf
    -- there is only one first frame, and frame 32 has no translations
    have hsame : f = t.sys.invertedPageTable.getLeastUsedPhysicalPage := by
      rcases lt_trichotomy f t.sys.invertedPageTable.getLeastUsedPhysicalPage with h | h | h
      · exact absurd hf.rested (hchosen.first f h)
      · exact h
      · exact absurd hchosen.rested (hf.first _ h)
    have hmarked := BitMap.firstClear_eq_none.mp hfull 32 (by
      rw [hs.allocating.numBits]
      decide)
    have hle := hleast _ ipt hvictim 32 (by decide) hmarked
    rw [Int.toNat_natCast, hbeyond 32 (le_refl _) (by decide), ← hsame] at hle
    omega
  · intro hzero g ipt' hvictim' f _ _
    rw [hvictim] at hvictim'
    simp only [Except.ok.injEq, Prod.mk.injEq] at hvictim'
    rw [← hvictim'.1, Int.toNat_natCast, hzero _ hchosen]
    exact Nat.zero_le _

/-- The first 64 pages of a program take all frames; page `0` was translated once, and has lost
its TLB entry to page `4`. -/
theorem longProgram_fills : ∃ t, run step (start (longProgram .leastUsed))
    ((List.range 64).map (Access.read 0)) = .ok t ∧
    t.sys.invertedPageTable.physicalPagesBitmap.firstClear = none ∧
    t.sys.invertedPageTable.replacementAlgorithm = .leastUsed ∧
    t.sys.invertedPageTable.getLeastUsedPhysicalPage = 0 ∧
    (∀ i, (t.sys.tlb i).valid = true → (t.sys.tlb i).physicalPage ≠ 0) ∧
    t.sys.invertedPageTable.physicalPagesBitmap.marked 32 = true ∧
    t.count 0 = 1 ∧ t.count 32 = 0 := by decide +kernel

theorem run_choosesLeast_full : ∃ t, run step (start (longProgram .leastUsed))
    ((List.range 64).map (Access.read 0)) = .ok t ∧
    t.sys.invertedPageTable.physicalPagesBitmap.firstClear = none ∧ ¬ ChoosesLeast t := by
  obtain ⟨t, hrun, hfull, -, -, hrested, -, hcount, -⟩ := longProgram_fills
  refine ⟨t, hrun, hfull, fun hleast => ?_⟩
  have hzero := (run_choosesLeast_iff (longProgram_booted .leastUsed) rfl (by decide +kernel) hrun
    hfull).mp hleast 0 ⟨by decide, hrested, fun f hf => absurd hf (Nat.not_lt_zero f)⟩
  rw [hcount] at hzero
  cases hzero

/-- Frame `0` is chosen although frame `32` has had no successful translation. -/
theorem run_not_choosesLeast : ¬ ∀ (s : System) (as : List Access) (t : Translations), Booted s →
    s.invertedPageTable.replacementAlgorithm = .leastUsed → run step (start s) as = .ok t →
    t.sys.invertedPageTable.physicalPagesBitmap.firstClear = none → ChoosesLeast t := by
  intro hall
  obtain ⟨t, hrun, hfull, halg, hchosen, -, hmarked, hzero, hbeyond⟩ := longProgram_fills
  have hleast := hall _ _ t (longProgram_booted .leastUsed) rfl hrun hfull
  obtain ⟨ipt, hvictim⟩ : ∃ ipt, t.sys.invertedPageTable.getEntryToReplace = .ok (0, ipt) := by
    unfold getEntryToReplace
    rw [halg]
    dsimp only
    rw [hchosen]
    exact ⟨_, rfl⟩
  have hle := hleast 0 ipt hvictim 32 (by decide) hmarked
  rw [Int.toNat_zero, hzero, hbeyond] at hle
  omega

end Translations
end NachOS
