import NachOS.VM.Bookkeeping
import Mathlib.Data.Fintype.Card

/-!
# The queues of the replacement policies

`updatePage` puts a frame at the end of the queue of FIFO and of second chance. It is called by
`loadToTLB` and again by every `Translate` that finds the page in the TLB, the one after a page
fault included; only an eviction takes a frame out, and with second chance not even that. So a
frame is in the queue as often as it has been used, and already twice after the first access.
-/

namespace NachOS

namespace InvertedPageTable

open PartialRun

/-- The frames in the queue of the policy, from the front. Least used has none. -/
def queue (ipt : InvertedPageTable) : List ℤ :=
  match ipt.replacementAlgorithm with
  | .fifo => ipt.fifoQueue
  | .secondChance => ipt.secondChanceQueue.map Prod.fst
  | .leastUsed => []

/-- Second chance only moves the entries of its queue around. -/
theorem secondChanceLoop_perm (fuel : ℕ) :
    ∀ {entries rest : List (ℤ × Bool)} {page : ℤ},
      secondChanceLoop fuel entries = .ok (page, rest) →
        (rest.map Prod.fst).Perm (entries.map Prod.fst) := by
  induction fuel with
  | zero =>
    intro entries rest page h
    cases h
  | succ fuel ih =>
    intro entries rest page h
    cases entries with
    | nil => cases h
    | cons entry entries =>
      obtain ⟨frame, used⟩ := entry
      have hmoved : ∀ bit : Bool, ((entries ++ [(frame, bit)]).map Prod.fst).Perm
          (((frame, used) :: entries).map Prod.fst) := by
        intro bit
        rw [List.map_append, List.map_cons]
        exact List.perm_append_singleton frame (entries.map Prod.fst)
      unfold secondChanceLoop at h
      split at h
      · cases h
        exact hmoved true
      · exact (ih h).trans (hmoved false)

theorem updatePage_queue {t t' : InvertedPageTable} {f : ℤ} {b : Bool}
    (halg : t.replacementAlgorithm ≠ .leastUsed) (h : t.updatePage f b = .ok t') :
    t'.queue = t.queue ++ [f] := by
  unfold updatePage at h
  split at h
  · rename_i hfifo
    cases h
    simp only [queue, hfifo]
  · rename_i hsecond
    cases h
    simp only [queue, hsecond, List.map_append, List.map_cons, List.map_nil]
  · rename_i hleast
    exact absurd hleast halg

/-- Choosing a TLB slot only moves entries around; FIFO has no slot to give. -/
theorem getTLBEntryToReplace_queue {t t' : InvertedPageTable}
    {tlb : Fin tlbSize → TranslationEntry} {slot : Fin tlbSize}
    (halg : t.replacementAlgorithm ≠ .leastUsed)
    (h : t.getTLBEntryToReplace tlb = .ok (slot, t')) :
    t.replacementAlgorithm = .secondChance ∧ t'.queue.Perm t.queue := by
  unfold getTLBEntryToReplace at h
  split at h
  · cases h
  · rename_i hsecond
    obtain ⟨⟨frame, entries⟩, hloop, h⟩ := bind_ok_iff.mp h
    dsimp only at h
    split at h
    · cases h
      refine ⟨hsecond, ?_⟩
      simp only [queue, hsecond]
      exact secondChanceLoop_perm _ hloop
    · cases h
  · rename_i hleast
    exact absurd hleast halg

/-- So does choosing a frame to evict, with second chance. -/
theorem getEntryToReplace_queue {t t' : InvertedPageTable} {g : ℤ}
    (halg : t.replacementAlgorithm = .secondChance) (h : t.getEntryToReplace = .ok (g, t')) :
    t'.queue.Perm t.queue := by
  unfold getEntryToReplace at h
  rw [halg] at h
  obtain ⟨⟨frame, entries⟩, hloop, h⟩ := bind_ok_iff.mp h
  cases h
  simp only [queue, halg]
  exact secondChanceLoop_perm _ hloop

end InvertedPageTable

namespace System

open PartialRun InvertedPageTable

/-! ## FIFO never evicts

With no TLB slot to give, the fifth page ends the run: there are never more frames in use than
valid TLB entries. -/

/-- How many frames are in use. -/
def occupied (s : System) : ℕ := ((Finset.range numPhysPagesIPT).filter fun f =>
  s.invertedPageTable.physicalPagesBitmap.marked f = true).card

/-- How many TLB entries are valid. -/
def validSlots (s : System) : ℕ := (Finset.univ.filter fun i => (s.tlb i).valid = true).card

/-- With FIFO, there are no more frames in use than valid TLB entries. -/
def Few (s : System) : Prop :=
  s.invertedPageTable.replacementAlgorithm = .fifo → s.occupied ≤ s.validSlots

theorem Few.firstClear {s : System} (h : Few s) (halloc : Allocating s)
    (halg : s.invertedPageTable.replacementAlgorithm = .fifo) :
    s.invertedPageTable.physicalPagesBitmap.firstClear ≠ none := by
  intro hfull
  have hall := BitMap.firstClear_eq_none.mp hfull
  rw [halloc.numBits] at hall
  have hoccupied : s.occupied = numPhysPagesIPT := by
    unfold occupied
    rw [Finset.filter_true_of_mem fun f hf => hall f (Finset.mem_range.mp hf), Finset.card_range]
  have hslots : s.validSlots ≤ tlbSize := by
    refine (Finset.card_filter_le _ _).trans ?_
    rw [Finset.card_univ, Fintype.card_fin]
  have hfew := h halg
  rw [hoccupied, numPhysPagesIPT_eq] at hfew
  rw [tlbSize_eq] at hslots
  omega

theorem Few.congr {s s' : System} (h : Few s)
    (hframes : SameFrames s.invertedPageTable s'.invertedPageTable)
    (htlb : SameTLB s.tlb s'.tlb) : Few s' := by
  intro halg
  rw [hframes.replacementAlgorithm] at halg
  unfold occupied validSlots
  rw [hframes.physicalPagesBitmap]
  simp only [htlb.valid]
  exact h halg

/-- Loading a slot that was free makes one more entry valid. -/
theorem validSlots_fill {s : System} {slot : Fin tlbSize} {e : TranslationEntry}
    (hfree : (s.tlb slot).valid = false) (he : e.valid = true) :
    (Finset.univ.filter fun i => (Function.update s.tlb slot e i).valid = true).card =
      s.validSlots + 1 := by
  have hset : (Finset.univ.filter fun i => (Function.update s.tlb slot e i).valid = true) =
      insert slot (Finset.univ.filter fun i => (s.tlb i).valid = true) := by
    ext i
    simp only [Finset.mem_filter, Finset.mem_univ, true_and, Finset.mem_insert]
    rw [Function.update_apply]
    split
    · rename_i hi
      simp [hi, he]
    · rename_i hi
      simp [hi]
  rw [hset, Finset.card_insert_of_notMem]
  · rfl
  · simp [hfree]

/-- A frame handed out is one more frame in use. -/
theorem occupied_giveFrame (s : System) (f : ℕ) (p : ℤ) :
    (s.giveFrame f p).occupied ≤ s.occupied + 1 := by
  have hsubset : ((Finset.range numPhysPagesIPT).filter fun g =>
      (s.giveFrame f p).invertedPageTable.physicalPagesBitmap.marked g = true) ⊆
      insert f ((Finset.range numPhysPagesIPT).filter fun g =>
        s.invertedPageTable.physicalPagesBitmap.marked g = true) := by
    intro g hg
    simp only [Finset.mem_filter] at hg
    rw [Finset.mem_insert, Finset.mem_filter]
    by_cases hgf : g = f
    · exact .inl hgf
    · refine .inr ⟨hg.1, ?_⟩
      have hmarked : (BitMap.markBit _ f).marked g = true := hg.2
      rw [BitMap.markBit_marked, if_neg hgf] at hmarked
      exact hmarked
  unfold occupied
  exact (Finset.card_le_card hsubset).trans (Finset.card_insert_le _ _)

theorem Loaded.occupied {s s₁ : System} {addr : ℕ} (hfew : Few s) (halloc : Allocating s)
    (halg : s.invertedPageTable.replacementAlgorithm = .fifo) (h : Loaded s addr s₁) :
    s₁.occupied ≤ s.occupied + 1 ∧ s₁.tlb = s.tlb := by
  obtain ⟨f, hfree⟩ := Option.ne_none_iff_exists'.mp (hfew.firstClear halloc halg)
  rcases h.of_free halloc hfree with ⟨-, rfl⟩ | ⟨n, bytes, -, -, -, rfl⟩
  · exact ⟨by omega, rfl⟩
  · exact ⟨occupied_giveFrame s f _, rfl⟩

theorem Miss.few {s s₁ s' : System} {a : Access} {slot : Fin tlbSize} {t t' : InvertedPageTable}
    {r : Except MemException ℕ} (h : Miss s a s₁ slot t t' r s') (hfew : Few s)
    (halloc : Allocating s) : Few s' := by
  have hmap := h.filled_same
  refine Few.congr (s := s₁.filled slot a.page t') ?_ h.translated.same.1.frames
    h.translated.same.2
  intro halg
  rw [hmap.frames.replacementAlgorithm] at halg
  have halg₀ : s.invertedPageTable.replacementAlgorithm = .fifo := by
    rw [← h.loaded.algorithm]
    exact halg
  obtain ⟨hoccupied, htlb⟩ := h.loaded.occupied hfew halloc halg₀
  have hfree : (s₁.tlb slot).valid = false := by
    cases h.slotFor with
    | free hfree => exact freeSlot_some hfree
    | replaced _ hchosen =>
      unfold InvertedPageTable.getTLBEntryToReplace at hchosen
      rw [halg] at hchosen
      cases hchosen
  have hvalid : (s₁.filled slot a.page t').validSlots = s₁.validSlots + 1 :=
    validSlots_fill hfree rfl
  have hframes : (s₁.filled slot a.page t').occupied = s₁.occupied := by
    unfold System.occupied
    rw [hmap.frames.physicalPagesBitmap]
  have hslots : s₁.validSlots = s.validSlots := by
    unfold validSlots
    rw [htlb]
  have hbound := hfew halg₀
  omega

theorem step_few {s s' : System} {a : Access} (hnum : Numbered s) (halloc : Allocating s)
    (hfew : Few s) (h : s.step a = .ok s') : Few s' := by
  rcases step_cases hnum h with ⟨i, x, t, e, m, -, hupdate, huse, rfl⟩ |
    ⟨s₁, slot, t, t', r, s₂, m, hmiss, rfl⟩
  · obtain ⟨⟨hv, hp, hvalid, hro⟩, -, -⟩ := useEntry_ok huse
    refine Few.congr (s := s) hfew (updatePage_frames hupdate) ?_
    exact sameTLB_update hv hp hvalid hro
  · exact hmiss.few (by exact hfew) (halloc.switchTo a.space)

/-! ## What an access does to the queue -/

theorem FrameFor.queue {s s₁ : System} {p f : ℤ}
    (halg : s.invertedPageTable.replacementAlgorithm ≠ .leastUsed)
    (hfifo : s.invertedPageTable.replacementAlgorithm = .fifo →
      s.invertedPageTable.physicalPagesBitmap.firstClear ≠ none) (h : FrameFor s p f s₁) :
    s₁.invertedPageTable.queue.Perm s.invertedPageTable.queue := by
  have hsecond : s.invertedPageTable.physicalPagesBitmap.firstClear = none →
      s.invertedPageTable.replacementAlgorithm = .secondChance := by
    intro hfull
    cases halg' : s.invertedPageTable.replacementAlgorithm with
    | fifo => exact absurd hfull (hfifo halg')
    | secondChance => rfl
    | leastUsed => exact absurd halg' halg
  cases h with
  | free hfree => exact .refl _
  | evicted hfull hvictim =>
    have hperm := getEntryToReplace_queue (hsecond hfull) hvictim
    exact hperm
  | refused hfull hvictim =>
    have hperm := getEntryToReplace_queue (hsecond hfull) hvictim
    exact hperm

theorem Loaded.queue {s s₁ : System} {addr : ℕ}
    (halg : s.invertedPageTable.replacementAlgorithm ≠ .leastUsed)
    (hfifo : s.invertedPageTable.replacementAlgorithm = .fifo →
      s.invertedPageTable.physicalPagesBitmap.firstClear ≠ none) (h : Loaded s addr s₁) :
    s₁.invertedPageTable.queue.Perm s.invertedPageTable.queue := by
  cases h with
  | resident => exact .refl _
  | fromSwap _ _ hframe =>
    have hperm := hframe.queue halg hfifo
    exact hperm
  | lost _ _ hframe => exact hframe.queue halg hfifo
  | fromDisk _ _ hframe =>
    have hperm := hframe.queue halg hfifo
    exact hperm

theorem SlotFor.queue {tlb : Fin tlbSize → TranslationEntry} {ipt t : InvertedPageTable}
    {slot : Fin tlbSize} (halg : ipt.replacementAlgorithm ≠ .leastUsed)
    (h : SlotFor tlb ipt slot t) : t.queue.Perm ipt.queue := by
  cases h with
  | free _ => exact .refl _
  | replaced _ hchosen => exact (getTLBEntryToReplace_queue halg hchosen).2

/-- A miss puts the frame of its page at the end, before the address is translated again. -/
theorem Miss.filled_queue {s s₁ s' : System} {a : Access} {slot : Fin tlbSize}
    {t t' : InvertedPageTable} {r : Except MemException ℕ} (h : Miss s a s₁ slot t t' r s')
    (halg : s.invertedPageTable.replacementAlgorithm ≠ .leastUsed)
    (hfifo : s.invertedPageTable.replacementAlgorithm = .fifo →
      s.invertedPageTable.physicalPagesBitmap.firstClear ≠ none) :
    t'.queue.Perm
      (s.invertedPageTable.queue ++ [(s₁.space.pageTable a.page).physicalPage]) := by
  have halg₁ : s₁.invertedPageTable.replacementAlgorithm ≠ .leastUsed := by
    rw [h.loaded.algorithm]
    exact halg
  have halg₂ : t.replacementAlgorithm ≠ .leastUsed := by
    rw [h.slotFor.frames.replacementAlgorithm]
    exact halg₁
  rw [updatePage_queue halg₂ h.update]
  exact ((h.slotFor.queue halg₁).trans (h.loaded.queue halg hfifo)).append_right _

/-- Translation takes nothing out of the queue. -/
theorem Translated.queue {s s' : System} {addr : ℕ} {size : Size} {w : Bool}
    {r : Except MemException ℕ} (h : Translated s addr size w r s')
    (halg : s.invertedPageTable.replacementAlgorithm ≠ .leastUsed) :
    s'.invertedPageTable.queue = s.invertedPageTable.queue ∨ ∃ i,
      lookup s.tlb (addr / pageSize) = some i ∧
        s'.invertedPageTable.queue = s.invertedPageTable.queue ++ [(s.tlb i).physicalPage] := by
  cases h with
  | miss _ => exact .inl rfl
  | hit hlookup hupdate _ => exact .inr ⟨_, hlookup, updatePage_queue halg hupdate⟩

/-- Some frame in use is in the queue twice. -/
def Twice (s : System) : Prop :=
  ∃ f : ℕ, s.invertedPageTable.physicalPagesBitmap.marked f = true ∧
    2 ≤ s.invertedPageTable.queue.count (f : ℤ)

/-- What holds along a run with one of the two queues. -/
structure Queueing (s : System) : Prop where
  numbered : Numbered s
  allocating : Allocating s
  few : Few s
  algorithm : s.invertedPageTable.replacementAlgorithm ≠ .leastUsed

theorem Queueing.step {s s' : System} {a : Access} (h : Queueing s) (hstep : s.step a = .ok s') :
    Queueing s' := by
  refine ⟨step_numbered h.numbered hstep, step_allocating h.numbered h.allocating hstep,
    step_few h.numbered h.allocating h.few hstep, ?_⟩
  rcases step_cases h.numbered hstep with ⟨i, x, t, e, m, -, hupdate, -, rfl⟩ |
    ⟨s₁, slot, t, t', r, s₂, m, hmiss, rfl⟩
  · exact fun hleast => h.algorithm ((updatePage_frames hupdate).replacementAlgorithm ▸ hleast)
  · intro hleast
    have hleast : s₂.invertedPageTable.replacementAlgorithm = .leastUsed := hleast
    rw [hmiss.same.frames.replacementAlgorithm, hmiss.loaded.algorithm] at hleast
    exact h.algorithm hleast

/-- No access takes an entry out of the queue. -/
theorem Twice.step {s s' : System} {a : Access} (h : Twice s) (hs : Queueing s)
    (hstep : s.step a = .ok s') : Twice s' := by
  obtain ⟨f, hmarked, hcount⟩ := h
  rcases step_cases hs.numbered hstep with ⟨i, x, t, e, m, -, hupdate, -, rfl⟩ |
    ⟨s₁, slot, t, t', r, s₂, m, hmiss, rfl⟩
  · refine ⟨f, ?_, ?_⟩
    · show t.physicalPagesBitmap.marked f = true
      rw [(updatePage_frames hupdate).physicalPagesBitmap]
      exact hmarked
    · show 2 ≤ t.queue.count (f : ℤ)
      rw [updatePage_queue hs.algorithm hupdate, List.count_append]
      omega
  · have halg' : (s₁.filled slot a.page t').invertedPageTable.replacementAlgorithm ≠
        .leastUsed := by
      rw [hmiss.filled_same.frames.replacementAlgorithm, hmiss.loaded.algorithm]
      exact hs.algorithm
    have hqueue := (hmiss.filled_queue hs.algorithm (hs.few.firstClear hs.allocating)).count_eq f
    rw [List.count_append] at hqueue
    have hqueue : t'.queue.count (f : ℤ) = s.invertedPageTable.queue.count (f : ℤ) + _ := hqueue
    refine ⟨f, ?_, ?_⟩
    · show s₂.invertedPageTable.physicalPagesBitmap.marked f = true
      rw [hmiss.same.frames.physicalPagesBitmap]
      by_contra hclear
      rw [Bool.not_eq_true] at hclear
      have hclear : s.invertedPageTable.physicalPagesBitmap.marked f = false :=
        hmiss.loaded.marked hclear
      rw [hmarked] at hclear
      cases hclear
    · show 2 ≤ s₂.invertedPageTable.queue.count (f : ℤ)
      rcases hmiss.translated.queue halg' with hsame | ⟨i, -, hmore⟩
      · rw [hsame]
        show 2 ≤ t'.queue.count (f : ℤ)
        omega
      · rw [hmore, List.count_append]
        have hpushed : (s₁.filled slot a.page t').invertedPageTable.queue = t'.queue := rfl
        rw [hpushed]
        omega

theorem Booted.queueing {s : System} (hboot : Booted s)
    (halg : s.invertedPageTable.replacementAlgorithm ≠ .leastUsed) : Queueing s := by
  refine ⟨hboot.numbered, hboot.allocating, fun _ => ?_, halg⟩
  have hnone : s.occupied = 0 := by
    unfold occupied
    rw [Finset.card_eq_zero, Finset.filter_eq_empty_iff]
    intro f _
    rw [hboot.invertedPageTable]
    exact Bool.false_ne_true
  omega

/-- The first access puts the frame of its page into the queue twice. -/
theorem Booted.twice {s s' : System} {a : Access} (hboot : Booted s)
    (halg : s.invertedPageTable.replacementAlgorithm ≠ .leastUsed) (hstep : s.step a = .ok s') :
    Twice s' := by
  have hs := hboot.queueing halg
  -- the TLB is empty after the start, so the access misses
  rcases step_cases hs.numbered hstep with ⟨i, x, t, e, m, hlookup, -⟩ |
    ⟨s₁, slot, t, t', r, s₂, m, hmiss, rfl⟩
  · have hvalid := (lookup_some hlookup).1
    rw [hboot.tlb i] at hvalid
    cases hvalid
  · -- the page is loaded into the first free frame
    obtain ⟨f, hfree⟩ : ∃ f, (s.switchTo a.space).invertedPageTable.physicalPagesBitmap.firstClear =
        some f := by
      show ∃ f, s.invertedPageTable.physicalPagesBitmap.firstClear = some f
      have hzero : (BitMap.new numPhysPagesIPT).firstClear = some 0 := by decide
      rw [hboot.invertedPageTable]
      exact ⟨0, hzero⟩
    rcases hmiss.loaded.of_free (hs.allocating.switchTo a.space) hfree with
      ⟨hres, -⟩ | ⟨n, bytes, -, -, -, hs₁⟩
    · exact absurd (hboot.absent a.space a.page) hres
    have hpage : (s₁.space.pageTable a.page).virtualPage = a.page ∧
        (s₁.space.pageTable a.page).physicalPage = f := by
      rw [hs₁, install_pageTable, Access.page, Function.update_self]
      exact ⟨rfl, rfl⟩
    have hmarked : s₁.invertedPageTable.physicalPagesBitmap.marked f = true := by
      rw [hs₁]
      show (BitMap.markBit _ f).marked f = true
      rw [BitMap.markBit_marked, if_pos rfl]
    have htlb : s₁.tlb = s.tlb := by
      rw [hs₁]
      rfl
    -- the translation after the fault finds the entry just loaded
    have hentry : (s₁.filled slot a.page t').tlb slot = s₁.translationOf slot a.page :=
      Function.update_self _ _ _
    have hfound : ∀ i, lookup (s₁.filled slot a.page t').tlb a.page = some i → i = slot := by
      intro i hi
      by_contra hne
      have hvalid := (lookup_some hi).1
      have hother : (s₁.filled slot a.page t').tlb i = s₁.tlb i := Function.update_of_ne hne _ _
      rw [hother, htlb, hboot.tlb i] at hvalid
      cases hvalid
    have halg' : (s₁.filled slot a.page t').invertedPageTable.replacementAlgorithm ≠
        .leastUsed := by
      rw [hmiss.filled_same.frames.replacementAlgorithm, hmiss.loaded.algorithm]
      exact hs.algorithm
    have hqueue := (hmiss.filled_queue hs.algorithm (hs.few.firstClear hs.allocating)).count_eq f
    rw [List.count_append, hpage.2, List.count_singleton_self] at hqueue
    -- the frame is queued once when the TLB is filled and once when the access is retried
    refine ⟨f, ?_, ?_⟩
    · show s₂.invertedPageTable.physicalPagesBitmap.marked f = true
      rw [hmiss.same.frames.physicalPagesBitmap]
      exact hmarked
    · show 2 ≤ s₂.invertedPageTable.queue.count (f : ℤ)
      have htranslated := hmiss.translated
      cases htranslated with
      | miss hnone =>
        exact absurd (by rw [hentry]; exact hpage.1)
          (lookup_none_iff.mp hnone slot (by rw [hentry]; rfl))
      | hit hlookup hupdate _ =>
        rw [hfound _ hlookup, hentry] at hupdate
        have hframe : (s₁.translationOf slot a.page).physicalPage = f := hpage.2
        rw [hframe] at hupdate
        have hpushed : (s₁.filled slot a.page t').invertedPageTable.queue = t'.queue := rfl
        rw [updatePage_queue halg' hupdate, hpushed, List.count_append, List.count_singleton_self]
        omega

end System

/-! ## Every run -/

/-- The system, and the frames in the order in which they were last filled. -/
structure Filled where
  sys : System
  order : List ℤ

namespace Filled

open PartialRun InvertedPageTable NachOS.System

/-- An access, and the record of the frame it fills. -/
def step (t : Filled) (a : Access) : Except Fault Filled := do
  let sys ← t.sys.step a
  return ⟨sys, match fills t.sys sys a with
    | some f => t.order.erase f ++ [f]
    | none => t.order⟩

/-- A freshly booted system, no frame filled. -/
def start (s : System) : Filled := ⟨s, []⟩

/-- The queue has every frame in use exactly once, and with FIFO in the order in which they were
filled, so that the one filled longest ago is evicted. -/
structure QueueExact (t : Filled) : Prop where
  once : ∀ f : ℕ, t.sys.invertedPageTable.physicalPagesBitmap.marked f = true →
    t.sys.invertedPageTable.queue.count (f : ℤ) = 1
  order : t.sys.invertedPageTable.replacementAlgorithm = .fifo →
    t.sys.invertedPageTable.fifoQueue = t.order
  oldest : t.sys.invertedPageTable.replacementAlgorithm = .fifo →
    ∀ g ipt, t.sys.invertedPageTable.getEntryToReplace = .ok (g, ipt) → t.order.head? = some g

theorem step_sys {t t' : Filled} {a : Access} (h : t.step a = .ok t') :
    t.sys.step a = .ok t'.sys := by
  obtain ⟨sys, hstep, h⟩ := bind_ok_iff.mp h
  cases h
  exact hstep

theorem queueExact_start {s : System} (hboot : Booted s) : QueueExact (start s) := by
  have hipt : (start s).sys.invertedPageTable = _ := hboot.invertedPageTable
  constructor
  · intro f hmarked
    rw [hipt] at hmarked
    cases hmarked
  · intro _
    rw [hipt]
    rfl
  · intro halg g ipt h
    unfold getEntryToReplace at h
    rw [halg, hipt] at h
    cases h

/-- With a queue, the queue is right at the end of a run exactly if no access has been made. -/
theorem run_queueExact_iff {s : System} {as : List Access} {t : Filled} (hboot : Booted s)
    (halg : s.invertedPageTable.replacementAlgorithm ≠ .leastUsed)
    (hrun : run step (start s) as = .ok t) : QueueExact t ↔ as = [] := by
  constructor
  · intro hexact
    cases as with
    | nil => rfl
    | cons a as =>
      obtain ⟨t₁, hstep, hrun⟩ := run_cons_eq_ok.mp hrun
      have hsys : (start s).sys.step a = .ok t₁.sys := step_sys hstep
      have hfirst : Queueing t₁.sys ∧ Twice t₁.sys :=
        ⟨(hboot.queueing halg).step hsys, hboot.twice halg hsys⟩
      have hkeep : ∀ (t : Filled) (a : Access) (t' : Filled), Queueing t.sys ∧ Twice t.sys →
          t.step a = .ok t' → Queueing t'.sys ∧ Twice t'.sys := by
        intro t a t' h hstep
        exact ⟨h.1.step (step_sys hstep), h.2.step h.1 (step_sys hstep)⟩
      -- from the first access on some frame is in the queue twice
      obtain ⟨-, f, hmarked, hcount⟩ := run_invariant hkeep hfirst hrun
      have honce := hexact.once f hmarked
      omega
  · rintro rfl
    rw [run_nil, Except.ok.injEq] at hrun
    rw [← hrun]
    exact queueExact_start hboot

/-- Before any access, and after one. -/
theorem run_queueExact_fifo : QueueExact (start (longProgram .fifo)) ∧
    ∃ t, run step (start (longProgram .fifo)) [Access.read 0 0] = .ok t ∧ ¬ QueueExact t := by
  have hboot := longProgram_booted .fifo
  have halg : (longProgram .fifo).invertedPageTable.replacementAlgorithm ≠ .leastUsed := by decide
  obtain ⟨t, hrun, -⟩ : ∃ t, run step (start (longProgram .fifo)) [Access.read 0 0] = .ok t ∧
      t.order = [0] := by decide +kernel
  refine ⟨(@run_queueExact_iff _ [] _ hboot halg rfl).mpr rfl, t, hrun, fun hexact => ?_⟩
  have hnil := (run_queueExact_iff hboot halg hrun).mp hexact
  cases hnil

/-- One read puts frame `0` into the queue twice. -/
theorem run_not_queueExact : ¬ ∀ (s : System) (as : List Access) (t : Filled), Booted s →
    s.invertedPageTable.replacementAlgorithm ≠ .leastUsed → run step (start s) as = .ok t →
    QueueExact t := by
  intro hall
  obtain ⟨t, hrun, hmarked, hcount⟩ : ∃ t, run step (start (longProgram .fifo))
      [Access.read 0 0] = .ok t ∧
      t.sys.invertedPageTable.physicalPagesBitmap.marked 0 = true ∧
      t.sys.invertedPageTable.queue.count 0 = 2 := by decide +kernel
  have hexact := hall _ _ t (longProgram_booted .fifo) (by decide) hrun
  have honce : t.sys.invertedPageTable.queue.count 0 = 1 := hexact.once 0 hmarked
  rw [hcount] at honce
  cases honce

end Filled
end NachOS
