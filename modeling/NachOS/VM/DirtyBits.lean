import NachOS.VM.Bounds

/-!
# Dirty bits

The dirty bit of a page is kept in its TLB entry while it has one, and in the page table
otherwise. `Translate` sets it, `loadToTLB` moves it; but the second `Translate` of a miss asks for
write access also when the access is a read, a new TLB entry starts with the bits of the one it
replaces, and what goes back to the page table is the use bit. Here is when the bit still says
whether the page has been written.
-/

namespace NachOS

namespace System

open PartialRun InvertedPageTable

/-! ## Looking a page up -/

theorem Loaded.lookup_of_ne {s s' : System} {addr v : ℕ} (h : Loaded s addr s')
    (hres : (s'.space.pageTable v).virtualPage ≠ -1) (hv : v ≠ addr / pageSize) :
    lookup s'.tlb v = lookup s.tlb v ∧ (∀ i ∈ lookup s.tlb v, s'.tlb i = s.tlb i) ∧
      (s'.space.pageTable v).dirty = (s.space.pageTable v).dirty := by
  have hmid : ∀ {f : ℤ} {s₁ : System}, FrameFor s (addr / pageSize : ℕ) f s₁ →
      (s₁.space.pageTable v).virtualPage ≠ -1 → lookup s₁.tlb v = lookup s.tlb v ∧
        (∀ i ∈ lookup s.tlb v, s₁.tlb i = s.tlb i) ∧
        (s₁.space.pageTable v).dirty = (s.space.pageTable v).dirty := by
    intro f s₁ hframe hres
    rcases hframe.tables with ⟨htable, htlb⟩ | ⟨g, htable, htlb⟩
    · rw [htable, htlb]
      exact ⟨rfl, fun _ _ => rfl, rfl⟩
    · -- a page that is still in the table is not the one that was dropped
      have hvg : v ≠ g := by
        rintro rfl
        rw [htable, Function.update_self] at hres
        exact hres rfl
      rw [htable, htlb, Function.update_of_ne hvg]
      refine ⟨lookup_congr fun i => ?_, fun i hi => ?_, rfl⟩
      · unfold dropFromTLB
        split
        · rename_i hpage
          rw [hpage]
          constructor
          · intro h
            cases h.1
          · intro h
            exact absurd h.2 (by exact_mod_cast hvg.symm)
        · exact Iff.rfl
      · have hpage := (lookup_some hi).2
        unfold dropFromTLB
        rw [if_neg (by rw [hpage]; exact_mod_cast hvg)]
  cases h.tables with
  | resident heq _ =>
    rw [heq]
    exact ⟨rfl, fun _ _ => rfl, rfl⟩
  | loaded _ hframe _ htable htlb _ =>
    rw [htable, Function.update_of_ne hv] at hres ⊢
    rw [htlb]
    exact hmid hframe hres
  | lost _ _ hframe _ heq =>
    -- the load fails after a frame was found: the page that had it is gone all the same
    rw [heq] at hres ⊢
    exact hmid hframe hres

/-! ## The bit -/

/-- The dirty bit kept for a page. -/
def dirtyInfo (s : System) (v : ℕ) : Bool :=
  match lookup s.tlb v with
  | some i => (s.tlb i).dirty
  | none => (s.space.pageTable v).dirty

theorem Loaded.dirtyInfo {s s' : System} {addr v : ℕ} (h : Loaded s addr s')
    (hres : (s'.space.pageTable v).virtualPage ≠ -1) (hv : v ≠ addr / pageSize) :
    s'.dirtyInfo v = s.dirtyInfo v := by
  obtain ⟨hlookup, hentry, hdirty⟩ := h.lookup_of_ne hres hv
  unfold System.dirtyInfo
  rw [hlookup]
  cases hfound : lookup s.tlb v with
  | none => exact hdirty
  | some i =>
    dsimp only
    rw [hentry i hfound]

/-- What the replaced entry leaves in the page table is its use bit. -/
theorem filled_dirty (s : System) (slot : Fin tlbSize) (p : ℕ) (t : InvertedPageTable) (v : ℕ) :
    ((s.filled slot p t).space.pageTable v).dirty =
      if (s.tlb slot).valid = true ∧ (s.tlb slot).virtualPage.toNat = v then (s.tlb slot).use
      else (s.space.pageTable v).dirty := by
  have hback : ((s.writtenBack slot).space.pageTable v).dirty =
      if (s.tlb slot).valid = true ∧ (s.tlb slot).virtualPage.toNat = v then (s.tlb slot).use
      else (s.space.pageTable v).dirty := by
    unfold writtenBack
    by_cases hvalid : (s.tlb slot).valid = true
    · rw [if_pos hvalid, withEntry_pageTable, Function.update_apply]
      by_cases hv : v = (s.tlb slot).virtualPage.toNat
      · rw [if_pos hv, if_pos ⟨hvalid, hv.symm⟩]
      · rw [if_neg hv, if_neg (fun h => hv h.2.symm)]
    · rw [if_neg hvalid, if_neg (fun h => hvalid h.1)]
  rw [← hback]
  show (((s.writtenBack slot).withEntry p _).space.pageTable v).dirty = _
  rw [withEntry_pageTable, Function.update_apply]
  split
  · rename_i hv
    rw [hv]
  · rfl

/-- The page whose entry is replaced. -/
theorem filled_dirtyInfo_replaced {s : System} {slot : Fin tlbSize} {p v : ℕ}
    {t : InvertedPageTable} (hdistinct : Distinct s.tlb) (hnum : Numbered s)
    (hvalid : (s.tlb slot).valid = true) (hpage : (s.tlb slot).virtualPage = v) (hv : v ≠ p) :
    (s.filled slot p t).dirtyInfo v = (s.tlb slot).use := by
  have hnone : lookup (s.filled slot p t).tlb v = none := by
    refine lookup_none_iff.mpr fun i hi hvi => ?_
    have htlb : (s.filled slot p t).tlb = Function.update s.tlb slot (s.translationOf slot p) := rfl
    rw [htlb, Function.update_apply] at hi hvi
    split at hi
    · rename_i hislot
      rw [if_pos hislot] at hvi
      have hvi : (s.space.pageTable p).virtualPage = v := hvi
      rcases hnum s.currentSpace p with habsent | hres
      · rw [space, habsent] at hvi
        exact natCast_ne_neg_one v hvi.symm
      · rw [space, hres] at hvi
        exact hv (by exact_mod_cast hvi.symm)
    · rename_i hislot
      rw [if_neg hislot] at hvi
      exact hislot (hdistinct i slot v hi hvalid hvi hpage)
  unfold dirtyInfo
  rw [hnone]
  dsimp only
  rw [filled_dirty, if_pos ⟨hvalid, by rw [hpage, Int.toNat_natCast]⟩]

/-- Every other page. -/
theorem filled_dirtyInfo_of_ne {s : System} {slot : Fin tlbSize} {p v : ℕ} {t : InvertedPageTable}
    (hnum : Numbered s) (hslot : Replaceable s slot)
    (hother : (s.tlb slot).valid = true → (s.tlb slot).virtualPage ≠ v) (hv : v ≠ p) :
    (s.filled slot p t).dirtyInfo v = s.dirtyInfo v := by
  have htlb : (s.filled slot p t).tlb = Function.update s.tlb slot (s.translationOf slot p) := rfl
  have hnew : (s.space.pageTable p).virtualPage ≠ v := by
    intro hvp
    rcases hnum s.currentSpace p with habsent | hres
    · rw [space, habsent] at hvp
      exact natCast_ne_neg_one v hvp.symm
    · rw [space, hres] at hvp
      exact hv (by exact_mod_cast hvp.symm)
  -- neither the entry that is replaced nor the new one is for page `v`
  have hlookup : lookup (s.filled slot p t).tlb v = lookup s.tlb v := by
    refine lookup_congr fun i => ?_
    rw [htlb, Function.update_apply]
    split
    · rename_i hi
      rw [hi]
      constructor
      · intro h
        exact absurd h.2 hnew
      · intro h
        exact absurd h.2 (hother h.1)
    · exact Iff.rfl
  unfold dirtyInfo
  rw [hlookup]
  cases hfound : lookup s.tlb v with
  | none =>
    dsimp only
    rw [filled_dirty, if_neg]
    rintro ⟨hvalid, hpage⟩
    have hpos := (hslot hvalid).1
    exact hother hvalid (by omega)
  | some i =>
    obtain ⟨hvalid, hpage⟩ := lookup_some hfound
    have hi : i ≠ slot := by
      rintro rfl
      exact hother hvalid hpage
    dsimp only
    rw [htlb, Function.update_of_ne hi]

/-- The answer of `Translate` for an entry, and the dirty bit it leaves. -/
theorem useEntry_dirty {e e' : TranslationEntry} {off : ℕ} {size : Size} {w : Bool}
    {r : Except MemException ℕ} (h : useEntry e off size w = .ok (r, e')) :
    (r.isOk = true ↔ (e.readOnly && w) = false ∧ toUnsigned e.physicalPage < numPhysPages) ∧
      e'.dirty = (e.dirty || (r.isOk && w)) := by
  unfold useEntry at h
  dsimp only at h
  split at h
  · rename_i hro
    cases h
    simp [Except.isOk, Except.toBool, hro]
  · rename_i hro
    split at h
    · rename_i hframe
      cases h
      refine ⟨⟨fun h => ?_, fun h => absurd h.2 (by omega)⟩, ?_⟩
      · cases h
      · simp [Except.isOk, Except.toBool]
    · rename_i hframe
      split at h
      · cases h
        refine ⟨⟨fun _ => ⟨by simpa using hro, by omega⟩, fun _ => rfl⟩, ?_⟩
        simp [Except.isOk, Except.toBool]
      · cases h

/-! ## What a miss does to the bits -/

theorem Translated.dirtyInfo_of_ne {s s' : System} {addr v : ℕ} {size : Size} {w : Bool}
    {r : Except MemException ℕ} (h : Translated s addr size w r s') (hv : v ≠ addr / pageSize) :
    s'.dirtyInfo v = s.dirtyInfo v := by
  obtain ⟨-, htlb⟩ := h.same
  have hlookup : lookup s'.tlb v = lookup s.tlb v :=
    lookup_congr fun i => by rw [htlb.valid, htlb.virtualPage]
  cases h with
  | miss => rfl
  | @hit i t r e hfound hupdate huse =>
    unfold dirtyInfo
    rw [hlookup]
    cases hother : lookup s.tlb v with
    | none => rfl
    | some j =>
      have hij : j ≠ i := by
        rintro rfl
        have hpage := (lookup_some hother).2.symm.trans (lookup_some hfound).2
        exact hv (by exact_mod_cast hpage)
      show (Function.update s.tlb i e j).dirty = _
      rw [Function.update_of_ne hij]

/-- The other pages: the one whose entry is replaced gets its use bit for a dirty bit. -/
theorem Miss.dirtyInfo_of_ne {s s₁ s' : System} {a : Access} {slot : Fin tlbSize}
    {t t' : InvertedPageTable} {r : Except MemException ℕ} {v : ℕ}
    (h : Miss s a s₁ slot t t' r s') (hnum : Numbered s) (hdistinct : Distinct s.tlb)
    (hres : (s₁.space.pageTable v).virtualPage ≠ -1) (hv : v ≠ a.page) :
    s'.dirtyInfo v = if (s₁.tlb slot).valid = true ∧ (s₁.tlb slot).virtualPage = v then
      (s₁.tlb slot).use else s.dirtyInfo v := by
  have hnum₁ := h.loaded.numbered hnum
  rw [h.translated.dirtyInfo_of_ne hv]
  split
  · rename_i hold
    exact filled_dirtyInfo_replaced (h.loaded.distinct hdistinct) hnum₁ hold.1 hold.2 hv
  · rename_i hold
    rw [filled_dirtyInfo_of_ne hnum₁ h.replaceable (fun hvalid hpage => hold ⟨hvalid, hpage⟩) hv]
    exact h.loaded.dirtyInfo hres hv

/-- The page of the access: the slot's old dirty bit, set if the second `Translate` succeeds. -/
theorem Miss.dirtyInfo_self {s s₁ s' : System} {a : Access} {slot : Fin tlbSize}
    {t t' : InvertedPageTable} {r : Except MemException ℕ} (h : Miss s a s₁ slot t t' r s')
    (hnum : Numbered s) (hdistinct : Distinct s.tlb)
    (hres : (s₁.space.pageTable a.page).virtualPage ≠ -1) :
    s'.dirtyInfo a.page = ((s₁.tlb slot).dirty || r.isOk) ∧
      (r.isOk = true ↔ (s₁.tlb slot).readOnly = false ∧
        toUnsigned (s₁.space.pageTable a.page).physicalPage < numPhysPages) := by
  have hentry : (s₁.filled slot a.page t').tlb slot = s₁.translationOf slot a.page :=
    Function.update_self _ _ _
  have hlookup := h.lookup_self hnum hdistinct hres
  have htranslated := h.translated
  have htlb' := htranslated.same.2
  cases htranslated with
  | miss hmiss =>
    rw [← Access.page, hlookup] at hmiss
    cases hmiss
  | @hit i t r e hfound hupdate huse =>
    rw [← Access.page, hlookup] at hfound
    cases hfound
    have hlookup' : lookup (Function.update (s₁.filled slot a.page t').tlb slot e) a.page =
        some slot :=
      (lookup_congr fun i => by rw [htlb'.valid, htlb'.virtualPage]).trans hlookup
    obtain ⟨hok, hdirty⟩ := useEntry_dirty huse
    rw [hentry] at hok hdirty
    constructor
    · unfold dirtyInfo
      dsimp only
      rw [hlookup']
      dsimp only
      rw [Function.update_self, hdirty, Bool.and_true]
      rfl
    · rw [Bool.and_true] at hok
      exact hok

/-! ## What the handler has at hand

The frame, the TLB and the table with which the handler chooses a slot, read off the state
before. -/

/-- The frame of the page, and the TLB and inverted page table from which a slot is chosen. -/
structure Handed where
  frame : ℤ
  tlb : Fin tlbSize → TranslationEntry
  table : InvertedPageTable

/-- A page in memory has its frame; else it gets the first free one, or the one that is evicted,
or `-1` when swap is full. -/
def handed (s : System) (p : ℕ) : Option Handed :=
  if (s.space.pageTable p).virtualPage ≠ -1 then
    some ⟨(s.space.pageTable p).physicalPage, s.tlb, s.invertedPageTable⟩
  else match s.invertedPageTable.physicalPagesBitmap.firstClear with
    | some f => some ⟨f, s.tlb, s.invertedPageTable⟩
    | none => match s.invertedPageTable.getEntryToReplace with
      | .error _ => none
      | .ok (g, t) => some ⟨if s.memorySwap.swapBitMap.firstClear = none then -1 else g,
          dropFromTLB s.tlb g, t⟩

/-- The only mark of the page in swap is that of the free slot into which the evicted page goes,
so that the page is not found any more. -/
def Loses (s : System) (p : ℕ) : Prop :=
  (s.space.pageTable p).virtualPage = -1 ∧
    s.invertedPageTable.physicalPagesBitmap.firstClear = none ∧
    s.memorySwap.isLoadedInSwap p = true ∧
    ∃ g ∈ s.invertedPageTable.nextVictim, ∃ j ∈ s.memorySwap.swapBitMap.firstClear,
      ∀ i < swapPagesQuantity, Function.update s.memorySwap.virtualPages j g i ≠ p

theorem FrameFor.handed {s s₁ : System} {p : ℕ} {f : ℤ} (h : FrameFor s p f s₁)
    (habsent : (s.space.pageTable p).virtualPage = -1) :
    ∃ hd, s.handed p = some hd ∧ hd.frame = f ∧ hd.tlb = s₁.tlb ∧
      slotToLoad hd.tlb hd.table = slotToLoad s₁.tlb s₁.invertedPageTable := by
  unfold System.handed
  rw [if_neg (not_not.mpr habsent)]
  cases h with
  | free hfree =>
    rw [hfree]
    exact ⟨_, rfl, rfl, rfl, rfl⟩
  | evicted hfull hvictim hframe hpage hsource hslot =>
    rw [hfull, hvictim, hslot]
    refine ⟨_, rfl, ?_, rfl, rfl⟩
    dsimp only
    rw [if_neg (by simp)]
  | refused hfull hvictim hframe hpage hslot =>
    rw [hfull, hvictim, hslot]
    refine ⟨_, rfl, ?_, rfl, rfl⟩
    dsimp only
    rw [if_pos rfl]

/-- A page is lost once its frame has been found exactly as `Loses` says. -/
theorem FrameFor.loses_iff {s s₁ : System} {p : ℕ} {f : ℤ} (h : FrameFor s p f s₁)
    (habsent : (s.space.pageTable p).virtualPage = -1)
    (hmarked : s.memorySwap.isLoadedInSwap p = true) :
    Loses s p ↔ s₁.memorySwap.slotOf p = none := by
  have hfound : s.memorySwap.slotOf p ≠ none := by
    intro hnone
    rw [Swap.isLoadedInSwap, hnone] at hmarked
    cases hmarked
  cases h with
  | free hfree =>
    constructor
    · rintro ⟨-, hfull, -⟩
      rw [hfree] at hfull
      cases hfull
    · exact fun h => absurd h hfound
  | @evicted g j t hfull hvictim hframe hpage hsource hslot =>
    have hnext := InvertedPageTable.getEntryToReplace_nextVictim hvictim
    rw [Swap.slotOf_eq_none]
    constructor
    · rintro ⟨-, -, -, g', hg', j', hj', hnone⟩
      rw [hnext] at hg'
      rw [hslot] at hj'
      cases hg'
      cases hj'
      exact hnone
    · exact fun hnone => ⟨habsent, hfull, hmarked, g, hnext, j, hslot, hnone⟩
  | refused hfull hvictim hframe hpage hslot =>
    constructor
    · rintro ⟨-, -, -, -, -, j, hj, -⟩
      rw [hslot] at hj
      cases hj
    · exact fun h => absurd h hfound

theorem Loaded.handed {s s₁ : System} {addr : ℕ} (h : Loaded s addr s₁) :
    ∃ hd, s.handed (addr / pageSize) = some hd ∧ hd.tlb = s₁.tlb ∧
      slotToLoad hd.tlb hd.table = slotToLoad s₁.tlb s₁.invertedPageTable ∧
      ((s₁.space.pageTable (addr / pageSize)).virtualPage ≠ -1 ↔ ¬ Loses s (addr / pageSize)) ∧
      (¬ Loses s (addr / pageSize) →
        (s₁.space.pageTable (addr / pageSize)).physicalPage = hd.frame) := by
  cases h with
  | resident hpage =>
    refine ⟨_, if_pos hpage, rfl, rfl, ⟨fun _ hloses => hpage hloses.1, fun _ => hpage⟩,
      fun _ => rfl⟩
  | fromSwap hpage hmarked hframe hslot hn hfits =>
    obtain ⟨hd, hhanded, hf, htlb, hsame⟩ := hframe.handed hpage
    refine ⟨hd, hhanded, htlb, hsame, ⟨fun _ hloses => ?_, fun _ => ?_⟩, fun _ => ?_⟩
    · rw [hframe.loses_iff hpage hmarked, hslot] at hloses
      cases hloses
    · rw [install_pageTable, Function.update_self]
      exact natCast_ne_neg_one _
    · rw [install_pageTable, Function.update_self]
      exact hf.symm
  | lost hpage hmarked hframe hslot =>
    obtain ⟨hd, hhanded, -, htlb, hsame⟩ := hframe.handed hpage
    have hloses := (hframe.loses_iff hpage hmarked).mpr hslot
    exact ⟨hd, hhanded, htlb, hsame, ⟨fun hres => absurd (hframe.absent hpage) hres,
      fun hnot => absurd hloses hnot⟩, fun hnot => absurd hloses hnot⟩
  | fromDisk hpage hmarked hframe htransfer hfits =>
    obtain ⟨hd, hhanded, hf, htlb, hsame⟩ := hframe.handed hpage
    refine ⟨hd, hhanded, htlb, hsame, ⟨fun _ hloses => ?_, fun _ => ?_⟩, fun _ => ?_⟩
    · obtain ⟨-, -, hmarked', -⟩ := hloses
      rw [hmarked] at hmarked'
      cases hmarked'
    · rw [install_pageTable, Function.update_self]
      exact natCast_ne_neg_one _
    · rw [install_pageTable, Function.update_self]
      exact hf.symm

/-- The slot is the one `slotToLoad` reads off. -/
theorem SlotFor.slotToLoad {tlb : Fin tlbSize → TranslationEntry} {ipt t : InvertedPageTable}
    {slot : Fin tlbSize} (hframes : ipt.replacementAlgorithm = .leastUsed →
      ∀ i, (tlb i).valid = true → InVector (tlb i).physicalPage)
    (h : SlotFor tlb ipt slot t) : slotToLoad tlb ipt = some slot := by
  unfold System.slotToLoad
  cases h with
  | free hfree => rw [hfree, Option.some_or]
  | replaced hnone hchosen =>
    rw [hnone, Option.none_or]
    exact (getTLBEntryToReplace_iff fun halg i =>
      hframes halg i (freeSlot_eq_none.mp hnone i)).mp ⟨_, hchosen⟩

end System

/-! ## Runs of one address space -/

/-- An access by a thread of address space `c`. -/
abbrev Access.Of (c : ℕ) := { a : Access // a.space = c }

/-- The system, and the pages that have been written since they were brought into memory. -/
structure Tracked where
  sys : System
  written : ℕ → Bool

namespace Tracked

open PartialRun InvertedPageTable NachOS.System

variable {c : ℕ}

/-- What is to be remembered of a page: nothing, when it is not in memory. -/
def remembers (c : ℕ) (t : Tracked) (v : ℕ) : Bool :=
  ((t.sys.spaces c).pageTable v).virtualPage != -1 && t.written v

/-- An access, and the record of it: a write that succeeds is added for its page. -/
def step (t : Tracked) (a : Access.Of c) : Except Fault Tracked := do
  let (reply, sys) ← t.sys.access a.1
  return ⟨sys, fun v => t.remembers c v || (reply == .wrote && v == a.1.page)⟩

/-- For every page in memory the dirty bit says whether the page has been written. -/
def DirtyExact (c : ℕ) (t : Tracked) : Prop :=
  ∀ v, ((t.sys.spaces c).pageTable v).virtualPage ≠ -1 →
    (t.sys.switchTo c).dirtyInfo v = t.written v

/-- If the access misses the TLB, the use bit of the entry that gives up its slot says whether its
page has been written; and, unless the page of the access is lost from swap, either the second
`Translate` will succeed and the access is a write or its page in memory and written already, or
it will fail and the dirty bit in the slot is right for the page. -/
def Marked (t : Tracked) (a : Access.Of c) : Prop :=
  lookup t.sys.tlb a.1.page = none → ∀ hd ∈ (t.sys.switchTo c).handed a.1.page,
    ∀ slot ∈ slotToLoad hd.tlb hd.table,
      ((hd.tlb slot).valid = true →
        (hd.tlb slot).use = t.written (hd.tlb slot).virtualPage.toNat) ∧
      (¬ Loses (t.sys.switchTo c) a.1.page →
        if (hd.tlb slot).readOnly = false ∧ toUnsigned hd.frame < numPhysPages then
          a.1.write.isSome = true ∨ t.remembers c a.1.page = true
        else (hd.tlb slot).dirty = t.remembers c a.1.page)

/-- The invariant of a run of address space `c`. -/
structure Sound (c : ℕ) (t : Tracked) : Prop where
  reached : Reached t.sys
  agrees : Agrees (t.sys.switchTo c)
  distinct : Distinct t.sys.tlb

theorem step_ok {t t' : Tracked} {a : Access.Of c} (h : t.step a = .ok t') :
    ∃ reply, t.sys.access a.1 = .ok (reply, t'.sys) ∧ t.sys.step a.1 = .ok t'.sys ∧
      t'.written = fun v => t.remembers c v || (reply == .wrote && v == a.1.page) := by
  obtain ⟨⟨reply, sys⟩, haccess, h⟩ := bind_ok_iff.mp h
  rw [pure_ok_iff] at h
  subst h
  refine ⟨reply, haccess, ?_, rfl⟩
  unfold System.step
  rw [haccess]
  rfl

theorem Sound.step {t t' : Tracked} {a : Access.Of c} (h : Sound c t) (hstep : t.step a = .ok t') :
    Sound c t' := by
  obtain ⟨-, -, hsys, -⟩ := step_ok hstep
  obtain ⟨a, rfl⟩ := a
  have hnum := h.reached.numbered
  refine ⟨?_, ?_, ?_⟩
  · exact step_reached h.reached hsys
  · have hcur : t'.sys.currentSpace = a.space := step_currentSpace hnum hsys
    have hagree := step_agrees hnum h.agrees hsys
    rw [← hcur]
    exact hagree
  · exact step_distinct hnum h.distinct hsys

/-- What an access that finds its page in the TLB writes down is right. -/
theorem DirtyExact.hit {t t' : Tracked} {a : Access.Of c} {i : Fin tlbSize} (h : DirtyExact c t)
    (hlookup : lookup t.sys.tlb a.1.page = some i) (hstep : t.step a = .ok t') :
    DirtyExact c t' := by
  obtain ⟨reply, haccess, -, hwritten⟩ := step_ok hstep
  obtain ⟨a, rfl⟩ := a
  obtain ⟨pa, s₁, hresolved, hreply⟩ := access_ok haccess
  obtain ⟨x, ipt, e, rfl, -, huse, rfl⟩ :=
    hresolved.of_hit (show lookup (t.sys.switchTo a.space).tlb a.page = some i from hlookup)
  obtain ⟨⟨hv, hp, hvalid, hro⟩, -, -⟩ := useEntry_ok huse
  obtain ⟨-, hdirty⟩ := useEntry_dirty huse
  have hok : (Except.ok x : Except MemException ℕ).isOk = true := rfl
  rw [hok, Bool.true_and] at hdirty
  -- the reply says whether it was a write
  have hwrote : (reply == .wrote) = a.write.isSome := by
    cases hw : a.write with
    | none =>
      rw [hw] at hreply
      rw [hreply.1]
      rfl
    | some value =>
      rw [hw] at hreply
      rw [hreply.1]
      rfl
  -- only the entry that was found differs
  obtain ⟨m, hsys⟩ : ∃ m, t'.sys = { t.sys.switchTo a.space with
      invertedPageTable := ipt, tlb := Function.update t.sys.tlb i e, mainMemory := m } := by
    cases hw : a.write with
    | none =>
      rw [hw] at hreply
      exact ⟨_, hreply.2⟩
    | some value =>
      rw [hw] at hreply
      exact ⟨_, hreply.2⟩
  intro v hres
  have hres : ((t.sys.spaces a.space).pageTable v).virtualPage ≠ -1 := by
    rw [hsys] at hres
    exact hres
  have hremembers : t.remembers a.space v = t.written v := by
    unfold remembers
    rw [bne_iff_ne.mpr hres, Bool.true_and]
  -- the entry keeps its page, so every page is found where it was
  have hlookup' : ∀ w, lookup (Function.update t.sys.tlb i e) w = lookup t.sys.tlb w := by
    intro w
    refine lookup_congr fun j => ?_
    rw [Function.update_apply]
    split
    · rename_i hj
      rw [hj, hvalid, hv]
      exact Iff.rfl
    · exact Iff.rfl
  have hinfo := h v hres
  rw [hwritten]
  dsimp only
  rw [hremembers, ← hinfo, hwrote, hsys]
  unfold dirtyInfo
  show (match lookup (Function.update t.sys.tlb i e) v with
    | some j => (Function.update t.sys.tlb i e j).dirty
    | none => ((t.sys.spaces a.space).pageTable v).dirty) = _
  rw [hlookup']
  show _ = ((match lookup t.sys.tlb v with
    | some j => (t.sys.tlb j).dirty
    | none => ((t.sys.spaces a.space).pageTable v).dirty) || _)
  -- the page accessed has its bit in the entry found; another page is in another entry
  by_cases hva : v = a.page
  · rw [hva, hlookup]
    dsimp only
    rw [Function.update_self, hdirty, beq_self_eq_true, Bool.and_true]
    rfl
  · rw [beq_eq_false_iff_ne.mpr hva, Bool.and_false, Bool.or_false]
    cases hother : lookup t.sys.tlb v with
    | none => rfl
    | some j =>
      have hij : j ≠ i := by
        rintro rfl
        have hpage := (lookup_some hother).2.symm.trans (lookup_some hlookup).2
        exact hva (by exact_mod_cast hpage)
      dsimp only
      rw [Function.update_of_ne hij]

/-- An access that misses the TLB: `s₁` is the state once the page has a frame, and `s₂` that after
the second `Translate`. A write is recorded if that succeeds. -/
structure Missed (t t' : Tracked) (a : Access) (s₁ : System) (slot : Fin tlbSize)
    (ipt ipt' : InvertedPageTable) (r : Except MemException ℕ) (s₂ : System) : Prop where
  miss : Miss (t.sys.switchTo a.space) a s₁ slot ipt ipt' r s₂
  sys : ∃ m, t'.sys = { s₂ with mainMemory := m }
  written : t'.written = fun v =>
    t.remembers a.space v || (a.write.isSome && r.isOk && v == a.page)

section Missed

variable {t t' : Tracked} {a : Access} {s₁ s₂ : System} {slot : Fin tlbSize}
  {ipt ipt' : InvertedPageTable} {r : Except MemException ℕ} {v : ℕ}

theorem Sound.missed (hsound : Sound a.space t) (hmiss : lookup t.sys.tlb a.page = none)
    (hstep : t.step (⟨a, rfl⟩ : Access.Of a.space) = .ok t') :
    ∃ s₁ slot ipt ipt' r s₂, Missed t t' a s₁ slot ipt ipt' r s₂ := by
  obtain ⟨reply, haccess, -, hwritten⟩ := step_ok hstep
  obtain ⟨pa, s₂, hresolved, hreply⟩ := access_ok haccess
  have hnum := hsound.reached.numbered.switchTo a.space
  obtain ⟨s₁, slot, ipt, ipt', r, hm, rfl⟩ :=
    hresolved.miss hnum (show lookup (t.sys.switchTo a.space).tlb a.page = none from hmiss)
  -- the reply says whether it was a write that succeeded
  have hwrote : (reply == .wrote) = (a.write.isSome && r.isOk) := by
    cases hw : a.write with
    | none =>
      rw [hw] at hreply
      cases r with
      | error e => rw [hreply.1]; rfl
      | ok x => rw [hreply.1]; rfl
    | some value =>
      rw [hw] at hreply
      cases r with
      | error e => rw [hreply.1]; rfl
      | ok x => rw [hreply.1]; rfl
  refine ⟨s₁, slot, ipt, ipt', r, s₂, hm, ?sys, ?written⟩
  case sys =>
    cases hw : a.write with
    | none =>
      rw [hw] at hreply
      cases r with
      | error e => exact ⟨_, hreply.2⟩
      | ok x => exact ⟨_, hreply.2⟩
    | some value =>
      rw [hw] at hreply
      cases r with
      | error e => exact ⟨_, hreply.2⟩
      | ok x => exact ⟨_, hreply.2⟩
  case written =>
    rw [hwritten, hwrote]

theorem Missed.currentSpace (h : Missed t t' a s₁ slot ipt ipt' r s₂) :
    s₁.currentSpace = a.space ∧ s₂.currentSpace = a.space := by
  have hcur₁ : s₁.currentSpace = a.space := h.miss.loaded.kept.1
  exact ⟨hcur₁, h.miss.same.currentSpace.trans hcur₁⟩

/-- The tables after are those the first half of the handler leaves. -/
theorem Missed.virtualPage (h : Missed t t' a s₁ slot ipt ipt' r s₂) (v : ℕ) :
    ((t'.sys.spaces a.space).pageTable v).virtualPage = (s₁.space.pageTable v).virtualPage := by
  obtain ⟨m, hsys⟩ := h.sys
  rw [hsys]
  show ((s₂.spaces a.space).pageTable v).virtualPage = _
  rw [h.miss.same.virtualPage, space, h.currentSpace.1]

theorem Missed.dirtyInfo (h : Missed t t' a s₁ slot ipt ipt' r s₂) (v : ℕ) :
    (t'.sys.switchTo a.space).dirtyInfo v = s₂.dirtyInfo v := by
  obtain ⟨m, hsys⟩ := h.sys
  have hspace : s₂.space = s₂.spaces a.space := by rw [space, h.currentSpace.2]
  unfold System.dirtyInfo
  rw [hspace, hsys]
  rfl

/-- The slot is read off the state before. -/
theorem Missed.handed (h : Missed t t' a s₁ slot ipt ipt' r s₂) (hsound : Sound a.space t) :
    ∃ hd, (t.sys.switchTo a.space).handed a.page = some hd ∧ hd.tlb = s₁.tlb ∧
      slotToLoad hd.tlb hd.table = some slot ∧
      ((s₁.space.pageTable a.page).virtualPage ≠ -1 ↔ ¬ Loses (t.sys.switchTo a.space) a.page) ∧
      (¬ Loses (t.sys.switchTo a.space) a.page →
        (s₁.space.pageTable a.page).physicalPage = hd.frame) := by
  obtain ⟨hd, hhanded, htlb, hslots, hkept, hframe⟩ := h.miss.loaded.handed
  refine ⟨hd, hhanded, htlb, ?_, hkept, hframe⟩
  rw [hslots]
  have hpaged := h.miss.loaded.paged (hsound.reached.switchTo a.space).toPaged
  exact h.miss.slotFor.slotToLoad fun halg i => (hpaged.neverSwaps halg).2.tlb i

/-- The bit of the page of the access is right if the entry that is filled gets the right one. -/
theorem Missed.self_iff (h : Missed t t' a s₁ slot ipt ipt' r s₂) (hsound : Sound a.space t)
    (hres : (s₁.space.pageTable a.page).virtualPage ≠ -1) :
    s₂.dirtyInfo a.page = t'.written a.page ↔
      if (s₁.tlb slot).readOnly = false ∧
          toUnsigned (s₁.space.pageTable a.page).physicalPage < numPhysPages then
        a.write.isSome = true ∨ t.remembers a.space a.page = true
      else (s₁.tlb slot).dirty = t.remembers a.space a.page := by
  obtain ⟨hbit, hok⟩ := h.miss.dirtyInfo_self (hsound.reached.numbered.switchTo a.space)
    hsound.distinct hres
  rw [hbit, h.written]
  dsimp only
  rw [beq_self_eq_true, Bool.and_true]
  cases hr : r.isOk with
  | true =>
    rw [if_pos (hok.mp hr), Bool.or_true, Bool.and_true, eq_comm, Bool.or_eq_true, or_comm]
  | false =>
    rw [if_neg (fun hcond => by rw [hok.mpr hcond] at hr; cases hr), Bool.or_false,
      Bool.and_false, Bool.or_false]

/-- Any other page in memory was there before, and its record is kept. Its bit is as before, unless
its entry gives up the slot. -/
theorem Missed.other_iff (h : Missed t t' a s₁ slot ipt ipt' r s₂) (hsound : Sound a.space t)
    (hexact : DirtyExact a.space t) (hv : v ≠ a.page)
    (hres : (s₁.space.pageTable v).virtualPage ≠ -1) :
    s₂.dirtyInfo v = t'.written v ↔ ((s₁.tlb slot).valid = true ∧
      (s₁.tlb slot).virtualPage = v → (s₁.tlb slot).use = t.written v) := by
  have hbefore : ((t.sys.spaces a.space).pageTable v).virtualPage ≠ -1 :=
    fun habsent => hres (h.miss.loaded.absent hv habsent)
  have hrecord : t'.written v = t.written v := by
    rw [h.written]
    dsimp only
    rw [beq_eq_false_iff_ne.mpr hv, Bool.and_false, Bool.or_false]
    unfold remembers
    rw [bne_iff_ne.mpr hbefore, Bool.true_and]
  rw [h.miss.dirtyInfo_of_ne (hsound.reached.numbered.switchTo a.space) hsound.distinct hres hv,
    hrecord]
  split
  · rename_i hold
    exact ⟨fun heq _ => heq, fun himp => himp hold⟩
  · rename_i hold
    exact ⟨fun _ hvalid => absurd hvalid hold, fun _ => hexact v hbefore⟩

/-- The entry in the slot is of another page, which is in memory. -/
theorem Missed.old_entry (h : Missed t t' a s₁ slot ipt ipt' r s₂) (hsound : Sound a.space t)
    (hvalid : (s₁.tlb slot).valid = true) : ∃ v : ℕ, (s₁.tlb slot).virtualPage = v ∧ v ≠ a.page ∧
      (s₁.space.pageTable v).virtualPage ≠ -1 := by
  obtain ⟨hpos, -⟩ := h.miss.replaceable hvalid
  obtain ⟨v, hv⟩ := Int.eq_ofNat_of_zero_le hpos
  have hagree := h.miss.loaded.agrees hsound.agrees h.miss.absent slot v hvalid hv
  refine ⟨v, hv, ?_, ?_⟩
  · rintro rfl
    exact lookup_none_iff.mp (h.miss.loaded.lookup_none h.miss.absent) slot hvalid hv
  · rw [hagree.1]
    exact natCast_ne_neg_one _

theorem Missed.marked (h : Missed t t' a s₁ slot ipt ipt' r s₂) (hsound : Sound a.space t)
    (hexact : DirtyExact a.space t) (hexact' : DirtyExact a.space t') :
    Marked t (⟨a, rfl⟩ : Access.Of a.space) := by
  obtain ⟨hd, hhanded, htlb, hslot, hkept, hframe⟩ := h.handed hsound
  -- the bits are right in the state after
  have hright : ∀ v, (s₁.space.pageTable v).virtualPage ≠ -1 →
      s₂.dirtyInfo v = t'.written v := by
    intro v hres
    rw [← h.dirtyInfo]
    exact hexact' v (by rw [h.virtualPage]; exact hres)
  intro _ hd' hhd' slot' hslot'
  obtain rfl : hd = hd' := Option.some.inj (hhanded.symm.trans hhd')
  obtain rfl : slot = slot' := Option.some.inj (hslot.symm.trans hslot')
  rw [htlb]
  constructor
  · intro hvalid
    obtain ⟨v, hpage, hne, hres⟩ := h.old_entry hsound hvalid
    rw [hpage, Int.toNat_natCast]
    exact (h.other_iff hsound hexact hne hres).mp (hright v hres) ⟨hvalid, hpage⟩
  · intro hloses
    have hres := hkept.mpr hloses
    rw [← hframe hloses]
    exact (h.self_iff hsound hres).mp (hright a.page hres)

theorem Missed.dirtyExact (h : Missed t t' a s₁ slot ipt ipt' r s₂) (hsound : Sound a.space t)
    (hexact : DirtyExact a.space t) (hmiss : lookup t.sys.tlb a.page = none)
    (hmarked : Marked t (⟨a, rfl⟩ : Access.Of a.space)) : DirtyExact a.space t' := by
  obtain ⟨hd, hhanded, htlb, hslot, hkept, hframe⟩ := h.handed hsound
  obtain ⟨hold, hnew⟩ := hmarked hmiss hd hhanded slot hslot
  rw [htlb] at hold hnew
  intro v hres
  rw [h.virtualPage] at hres
  rw [h.dirtyInfo]
  by_cases hv : v = a.page
  · rw [hv] at hres ⊢
    have hloses := hkept.mp hres
    rw [h.self_iff hsound hres, hframe hloses]
    exact hnew hloses
  · refine (h.other_iff hsound hexact hv hres).mpr ?_
    rintro ⟨hvalid, hpage⟩
    have hrecord := hold hvalid
    rw [hpage, Int.toNat_natCast] at hrecord
    exact hrecord

end Missed

/-- After a miss the bits are right exactly if the access was marked. -/
theorem DirtyExact.miss_iff {t t' : Tracked} {a : Access.Of c} (h : DirtyExact c t)
    (hsound : Sound c t) (hmiss : lookup t.sys.tlb a.1.page = none) (hstep : t.step a = .ok t') :
    DirtyExact c t' ↔ Marked t a := by
  obtain ⟨a, rfl⟩ := a
  obtain ⟨s₁, slot, ipt, ipt', r, s₂, hm⟩ := hsound.missed hmiss hstep
  exact ⟨hm.marked hsound h, hm.dirtyExact hsound h hmiss⟩

theorem DirtyExact.step_iff {t t' : Tracked} {a : Access.Of c} (h : DirtyExact c t)
    (hsound : Sound c t) (hstep : t.step a = .ok t') : DirtyExact c t' ↔ Marked t a := by
  cases hlookup : lookup t.sys.tlb a.1.page with
  | none => exact h.miss_iff hsound hlookup hstep
  | some i =>
    refine ⟨fun _ hmiss => ?_, fun _ => h.hit hlookup hstep⟩
    rw [hlookup] at hmiss
    cases hmiss

/-- A freshly booted system, nothing written. -/
def start (s : System) : Tracked := ⟨s, fun _ => false⟩

theorem start_sound {s : System} (hboot : Booted s) :
    Sound c (start s) ∧ DirtyExact c (start s) := by
  refine ⟨⟨hboot.reached, hboot.agrees c, fun i j v hi => ?_⟩, fun v hres => ?_⟩
  · have hi : (s.tlb i).valid = true := hi
    rw [hboot.tlb i] at hi
    cases hi
  · exact absurd (hboot.absent c v) hres

/-- The dirty bits are right after every access of a run exactly if every access is marked. -/
theorem run_dirtyExact_iff {s : System} {as : List (Access.Of c)} {t : Tracked} (hboot : Booted s)
    (hrun : run step (start s) as = .ok t) :
    Along step (fun t a => ∀ t', step t a = .ok t' → DirtyExact c t') (start s) as ↔
      Along step Marked (start s) as := by
  refine Along.iff_of_run (I := fun t => Sound c t ∧ DirtyExact c t) ?_ ?_ (start_sound hboot) hrun
  · intro t a t' hI hmarked hstep
    exact ⟨hI.1.step hstep, (hI.2.step_iff hI.1 hstep).mpr hmarked⟩
  · intro t a t' hI hstep
    constructor
    · intro hall
      exact (hI.2.step_iff hI.1 hstep).mp (hall t' hstep)
    · intro hmarked t'' hstep'
      exact (hI.2.step_iff hI.1 hstep').mpr hmarked

instance (s : System) (p : ℕ) : Decidable (Loses s p) := inferInstanceAs (Decidable (_ ∧ _))

instance (t : Tracked) (a : Access.Of c) : Decidable (Marked t a) :=
  inferInstanceAs (Decidable (_ → _))

/-- Two pages are written, and the first is then read from the TLB. -/
theorem run_dirtyExact_writes : ∃ t, run step (start (longProgram .leastUsed))
    [⟨Access.writeTo 0 0 5, rfl⟩, ⟨Access.writeTo 0 1 7, rfl⟩, ⟨Access.read 0 0, rfl⟩] = .ok t ∧
    Along step (fun t (a : Access.Of 0) => ∀ t', step t a = .ok t' → DirtyExact 0 t')
      (start (longProgram .leastUsed))
      [⟨Access.writeTo 0 0 5, rfl⟩, ⟨Access.writeTo 0 1 7, rfl⟩, ⟨Access.read 0 0, rfl⟩] := by
  obtain ⟨t, hrun, hmarked⟩ : ∃ t, run step (start (longProgram .leastUsed))
      [(⟨Access.writeTo 0 0 5, rfl⟩ : Access.Of 0), ⟨Access.writeTo 0 1 7, rfl⟩,
        ⟨Access.read 0 0, rfl⟩] = .ok t ∧ Along step Marked (start (longProgram .leastUsed))
      [(⟨Access.writeTo 0 0 5, rfl⟩ : Access.Of 0), ⟨Access.writeTo 0 1 7, rfl⟩,
        ⟨Access.read 0 0, rfl⟩] := by decide +kernel
  exact ⟨t, hrun, (run_dirtyExact_iff (longProgram_booted _) hrun).mpr hmarked⟩

/-- A page that is only read is dirty. -/
theorem run_not_dirtyExact : ¬ ∀ (s : System) (c : ℕ) (as : List (Access.Of c)) (t : Tracked),
    Booted s → run step (start s) as = .ok t → DirtyExact c t := by
  intro hall
  obtain ⟨t, hrun, hres, hdirty, hwritten⟩ : ∃ t, run step (start (longProgram .leastUsed))
      [(⟨Access.read 0 0, rfl⟩ : Access.Of 0)] = .ok t ∧
      ((t.sys.spaces 0).pageTable 0).virtualPage ≠ -1 ∧
      (t.sys.switchTo 0).dirtyInfo 0 = true ∧ t.written 0 = false := by decide +kernel
  have hexact := hall _ 0 _ t (longProgram_booted .leastUsed) hrun 0 hres
  rw [hdirty, hwritten] at hexact
  cases hexact

end Tracked
end NachOS
