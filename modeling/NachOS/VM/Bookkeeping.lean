import NachOS.VM.Progress

/-!
# Bookkeeping of the paging code

`Steps` leaves out what the replacement policy writes into its own data and what happens to the
use and dirty bits. Here the second half of the page-fault handler is described in full: the
choice of a TLB slot, the bits written back, and the call of `updatePage`.
-/

namespace NachOS
namespace System

open PartialRun InvertedPageTable

/-! ## Loading a TLB entry -/

/-- The state once the bits of the entry in the slot are back in the page table, if it is in
use. -/
def writtenBack (s : System) (slot : Fin tlbSize) : System :=
  if (s.tlb slot).valid then
    s.withEntry (s.tlb slot).virtualPage.toNat
      { s.space.pageTable (s.tlb slot).virtualPage.toNat with
        use := (s.tlb slot).use, dirty := (s.tlb slot).use }
  else s

/-- The state once page `p` has been loaded into the slot, `t` being the table after. -/
def filled (s : System) (slot : Fin tlbSize) (p : ℕ) (t : InvertedPageTable) : System :=
  { (s.writtenBack slot).withEntry p
      { (s.writtenBack slot).space.pageTable p with valid := true } with
    tlb := Function.update s.tlb slot (s.translationOf slot p)
    invertedPageTable := t }

/-- The entry in the slot, if it is in use, is for a page of the current address space. -/
def Replaceable (s : System) (slot : Fin tlbSize) : Prop :=
  (s.tlb slot).valid = true →
    0 ≤ (s.tlb slot).virtualPage ∧ (s.tlb slot).virtualPage < s.space.numPages

/-- Writing the bits back changes no frame. -/
theorem writtenBack_same (s : System) (slot : Fin tlbSize) :
    SameMapping s (s.writtenBack slot) ∧ (s.writtenBack slot).tlb = s.tlb ∧
      (s.writtenBack slot).invertedPageTable = s.invertedPageTable := by
  unfold writtenBack
  split
  · exact ⟨.withEntry s _ rfl rfl, rfl, rfl⟩
  · exact ⟨.refl s, rfl, rfl⟩

theorem storeReplaced_iff {s s' : System} {slot : Fin tlbSize} :
    s.storeReplaced (s.tlb slot) = .ok s' ↔ Replaceable s slot ∧ s' = s.writtenBack slot := by
  unfold storeReplaced Replaceable writtenBack
  cases (s.tlb slot).valid with
  | true => simpa using modifyEntry_ok_iff
  | false => simp [eq_comm]

theorem loadToTLB_ok_iff {s s' : System} {slot : Fin tlbSize} {p : ℕ}
    (hp : p < s.space.numPages) : s.loadToTLB slot p = .ok s' ↔ Replaceable s slot ∧
      ∃ t, s.invertedPageTable.updatePage (s.space.pageTable p).physicalPage true = .ok t ∧
        s' = s.filled slot p t := by
  obtain ⟨hmap, htlb, hipt⟩ := s.writtenBack_same slot
  have hnum : p < (s.writtenBack slot).space.numPages := by
    unfold space
    rw [hmap.currentSpace, hmap.numPages]
    exact hp
  have hpage : ((s.writtenBack slot).space.pageTable p).virtualPage =
      (s.space.pageTable p).virtualPage := by
    unfold space
    rw [hmap.currentSpace]
    exact hmap.virtualPage _ p
  have hframe : ((s.writtenBack slot).space.pageTable p).physicalPage =
      (s.space.pageTable p).physicalPage := by
    unfold space
    rw [hmap.currentSpace]
    exact hmap.physicalPage _ p
  have hentry : s.translationOf slot p = { s.tlb slot with
      virtualPage := ((s.writtenBack slot).space.pageTable p).virtualPage
      physicalPage := ((s.writtenBack slot).space.pageTable p).physicalPage
      valid := true } := by
    rw [hpage, hframe]
    rfl
  -- once the replaced entry is stored, only the count of the use may fail
  have hload : Replaceable s slot → s.loadToTLB slot p =
      s.invertedPageTable.updatePage (s.space.pageTable p).physicalPage true >>= fun t =>
        .ok (s.filled slot p t) := by
    intro hreplaceable
    unfold loadToTLB filled
    simp only [storeReplaced_iff.mpr ⟨hreplaceable, rfl⟩, ok_bind, modifyEntry_natCast hnum]
    rw [pageTableEntry_natCast (by rw [withEntry_numPages]; exact hnum), hentry]
    simp only [ok_bind, withEntry_pageTable, Function.update_self, withEntry_invertedPageTable,
      hipt, ← hframe, withEntry_tlb, htlb]
    rfl
  constructor
  · intro h
    have hreplaceable : Replaceable s slot := by
      obtain ⟨s₁, hsave, -⟩ := bind_ok_iff.mp h
      exact (storeReplaced_iff.mp hsave).1
    rw [hload hreplaceable] at h
    obtain ⟨t, ht, h⟩ := bind_ok_iff.mp h
    exact ⟨hreplaceable, t, ht, (Except.ok.inj h).symm⟩
  · rintro ⟨hreplaceable, t, ht, rfl⟩
    rw [hload hreplaceable, ht, ok_bind]

/-- The slot the handler loads, and the table after it has been chosen. -/
inductive SlotFor (tlb : Fin tlbSize → TranslationEntry) (ipt : InvertedPageTable) :
    Fin tlbSize → InvertedPageTable → Prop where
  | free {slot : Fin tlbSize} (hfree : freeSlot tlb = some slot) : SlotFor tlb ipt slot ipt
  | replaced {slot : Fin tlbSize} {t : InvertedPageTable} (hnone : freeSlot tlb = none)
    (hchosen : ipt.getTLBEntryToReplace tlb = .ok (slot, t)) : SlotFor tlb ipt slot t

theorem SlotFor.frames {tlb : Fin tlbSize → TranslationEntry} {ipt t : InvertedPageTable}
    {slot : Fin tlbSize} (h : SlotFor tlb ipt slot t) : SameFrames ipt t := by
  cases h with
  | free _ => exact .refl _
  | replaced _ hchosen => exact getTLBEntryToReplace_frames hchosen

/-- The second half of the handler, in full. -/
theorem fillTLB_ok_iff {s s' : System} {p : ℕ} (hp : p < s.space.numPages) :
    s.fillTLB p = .ok s' ↔ ∃ slot t t', SlotFor s.tlb s.invertedPageTable slot t ∧
      Replaceable s slot ∧ t.updatePage (s.space.pageTable p).physicalPage true = .ok t' ∧
      s' = s.filled slot p t' := by
  unfold fillTLB
  cases hfree : freeSlot s.tlb with
  | some slot =>
    -- an invalid entry is used first
    dsimp only
    rw [loadToTLB_ok_iff hp]
    constructor
    · rintro ⟨hreplaceable, t', ht', rfl⟩
      exact ⟨slot, _, t', .free hfree, hreplaceable, ht', rfl⟩
    · rintro ⟨slot', t, t', hslot, hreplaceable, ht', rfl⟩
      cases hslot with
      | free hfree' =>
        rw [hfree] at hfree'
        cases hfree'
        exact ⟨hreplaceable, t', ht', rfl⟩
      | replaced hnone _ =>
        rw [hfree] at hnone
        cases hnone
  | none =>
    -- every entry is valid: one is chosen to be replaced
    dsimp only
    constructor
    · intro h
      obtain ⟨⟨slot, t⟩, hchosen, h⟩ := bind_ok_iff.mp h
      obtain ⟨hreplaceable, t', ht', rfl⟩ := (loadToTLB_ok_iff (by exact hp)).mp h
      refine ⟨slot, t, t', .replaced hfree hchosen, hreplaceable, ht', ?_⟩
      unfold filled writtenBack
      split
      · rfl
      · rfl
    · rintro ⟨slot, t, t', hslot, hreplaceable, ht', rfl⟩
      cases hslot with
      | free hfree' =>
        rw [hfree] at hfree'
        cases hfree'
      | replaced _ hchosen =>
        rw [hchosen, ok_bind]
        refine (loadToTLB_ok_iff (by exact hp)).mpr ⟨hreplaceable, t', ht', ?_⟩
        unfold filled writtenBack
        split
        · rfl
        · rfl

theorem filled_same {s : System} {slot : Fin tlbSize} {p : ℕ} {t : InvertedPageTable}
    (hframes : SameFrames s.invertedPageTable t) : SameMapping s (s.filled slot p t) := by
  obtain ⟨hmap, -, -⟩ := s.writtenBack_same slot
  have hmap' := hmap.trans (.withEntry (s.writtenBack slot) p
    (e := { (s.writtenBack slot).space.pageTable p with valid := true }) rfl rfl)
  exact ⟨hmap'.mainMemory, hmap'.memorySwap, hmap'.currentSpace, hframes, hmap'.numPages,
    hmap'.ownExecutable, hmap'.virtualPage, hmap'.physicalPage⟩

/-! ## One entry for a page -/

theorem lookup_congr {t t' : Fin tlbSize → TranslationEntry} {v : ℕ}
    (h : ∀ i, ((t i).valid = true ∧ (t i).virtualPage = v) ↔
      ((t' i).valid = true ∧ (t' i).virtualPage = v)) : lookup t v = lookup t' v := by
  unfold lookup
  congr 1
  funext i
  rw [Bool.eq_iff_iff, Bool.and_eq_true, Bool.and_eq_true, beq_iff_eq, beq_iff_eq]
  exact h i

/-- Two valid entries are for different pages. -/
def Distinct (t : Fin tlbSize → TranslationEntry) : Prop :=
  ∀ i j (v : ℕ), (t i).valid = true → (t j).valid = true → (t i).virtualPage = v →
    (t j).virtualPage = v → i = j

theorem Distinct.lookup {t : Fin tlbSize → TranslationEntry} {i : Fin tlbSize} {v : ℕ}
    (h : Distinct t) (hvalid : (t i).valid = true) (hpage : (t i).virtualPage = v) :
    lookup t v = some i := by
  cases hlookup : System.lookup t v with
  | none => exact absurd hpage (lookup_none_iff.mp hlookup i hvalid)
  | some j =>
    obtain ⟨hvalid', hpage'⟩ := lookup_some hlookup
    rw [h i j v hvalid hvalid' hpage hpage']

theorem distinct_of_same {t t' : Fin tlbSize → TranslationEntry} (h : Distinct t)
    (hsame : SameTLB t t') : Distinct t' := by
  intro i j v hi hj hvi hvj
  rw [hsame.valid] at hi hj
  rw [hsame.virtualPage] at hvi hvj
  exact h i j v hi hj hvi hvj

theorem FrameFor.distinct {s s₁ : System} {p f : ℤ} (hdistinct : Distinct s.tlb)
    (h : FrameFor s p f s₁) : Distinct s₁.tlb := by
  rcases h.tables with ⟨-, htlb⟩ | ⟨g, -, htlb⟩
  · rw [htlb]
    exact hdistinct
  · intro i j v hi hj hvi hvj
    rw [htlb] at hi hj hvi hvj
    unfold dropFromTLB at hi hj hvi hvj
    split at hi
    · cases hi
    · split at hj
      · cases hj
      · rename_i hgi hgj
        rw [if_neg hgi] at hvi
        rw [if_neg hgj] at hvj
        exact hdistinct i j v hi hj hvi hvj

theorem Loaded.distinct {s s' : System} {addr : ℕ} (hdistinct : Distinct s.tlb)
    (h : Loaded s addr s') : Distinct s'.tlb := by
  cases h.tables with
  | resident heq _ => rw [heq]; exact hdistinct
  | loaded _ hframe _ _ htlb _ => rw [htlb]; exact hframe.distinct hdistinct
  | lost _ _ hframe _ heq => rw [heq]; exact hframe.distinct hdistinct

/-- A page that is not in the TLB goes into some slot. -/
theorem distinct_of_fill {s : System} {slot : Fin tlbSize} {p : ℕ} (hnum : Numbered s)
    (h : Distinct s.tlb) (hnone : lookup s.tlb p = none) :
    Distinct (Function.update s.tlb slot (s.translationOf slot p)) := by
  have hnew : ∀ j (v : ℕ), j ≠ slot → (s.tlb j).valid = true → (s.tlb j).virtualPage = v →
      (s.space.pageTable p).virtualPage ≠ v := by
    intro j v _ hvalid hv hpage
    rcases hnum s.currentSpace p with habsent | hres
    · rw [space, habsent] at hpage
      exact natCast_ne_neg_one v hpage.symm
    · rw [space, hres] at hpage
      exact lookup_none_iff.mp hnone j hvalid (hv.trans hpage.symm)
  intro i j v hi hj hvi hvj
  rw [Function.update_apply] at hi hj hvi hvj
  split at hi
  · rename_i hislot
    rw [if_pos hislot] at hvi
    by_cases hjslot : j = slot
    · rw [hislot, hjslot]
    · rw [if_neg hjslot] at hj hvj
      exact absurd hvi (hnew j v hjslot hj hvj)
  · rename_i hislot
    rw [if_neg hislot] at hvi
    by_cases hjslot : j = slot
    · rw [if_pos hjslot] at hvj
      exact absurd hvj (hnew i v hislot hi hvi)
    · rw [if_neg hjslot] at hj hvj
      exact h i j v hi hj hvi hvj

theorem step_distinct {s s' : System} {a : Access} (hnum : Numbered s) (h : Distinct s.tlb)
    (hstep : s.step a = .ok s') : Distinct s'.tlb := by
  refine step_preserves (I := fun s => Distinct s.tlb) (fun hd _ htlb => distinct_of_same hd htlb)
    (fun _ hd => hd) ?_ hnum (fun _ => h) hstep
  intro s₁ s₂ slot hmiss _ hloaded hmap htlb
  have hdistinct : Distinct (s.switchTo a.space).tlb := h
  rw [htlb]
  exact distinct_of_fill (hloaded.numbered (hnum.switchTo a.space))
    (hloaded.distinct hdistinct) (hloaded.lookup_none hmiss)

/-! ## The access after the fault -/

/-- An entry that is found gives an address or an exception: an access inside its page cannot
leave a frame of the machine. -/
theorem useEntry_total (e : TranslationEntry) (a : Access) (w : Bool) :
    ∃ r e', useEntry e (a.addr % pageSize) a.size w = .ok (r, e') := by
  have hoff := a.offset_le
  unfold useEntry
  dsimp only
  split
  · exact ⟨_, _, rfl⟩
  · split
    · exact ⟨_, _, rfl⟩
    · rename_i hframe
      rw [if_pos]
      · exact ⟨_, _, rfl⟩
      · rw [numPhysPages_eq] at hframe
        rw [pageSize_eq] at *
        rw [memorySize_eq]
        omega

/-- An access that faults: the handler, and the translation after it. -/
theorem step_of_fault {s s₁ s₂ : System} {a : Access} {r : Except MemException ℕ}
    (hmiss : lookup s.tlb a.page = none)
    (hfault : (s.switchTo a.space).pageFaultException a.addr = .ok s₁)
    (htranslated : Translated s₁ a.addr a.size true r s₂) :
    ∃ m, s.step a = .ok { s₂ with mainMemory := m } := by
  have hresolve : ∀ w, (s.switchTo a.space).resolve a.addr a.size w = .ok (r.toOption, s₂) := by
    intro w
    have hfirst : (s.switchTo a.space).translate a.addr a.size w =
        .ok (.error .pageFault, s.switchTo a.space) :=
      (translate_ok_iff a.aligned a.isInt).mpr (.miss hmiss)
    have hsecond := (translate_ok_iff a.aligned a.isInt).mpr htranslated
    unfold resolve
    rw [hfirst, ok_bind]
    show ((s.switchTo a.space).pageFaultException a.addr >>= fun s =>
      s.translate a.addr a.size true >>= _) = _
    rw [hfault, ok_bind, hsecond, ok_bind]
    cases r with
    | ok pa => rfl
    | error e => rfl
  unfold step access
  cases hw : a.write with
  | none =>
    refine ⟨s₂.mainMemory, ?_⟩
    dsimp only
    unfold readMem
    rw [show ({ s with currentSpace := a.space } : System) = s.switchTo a.space from rfl,
      hresolve]
    rfl
  | some v =>
    dsimp only
    unfold writeMem
    rw [show ({ s with currentSpace := a.space } : System) = s.switchTo a.space from rfl,
      hresolve, ok_bind]
    cases r with
    | ok pa => exact ⟨_, rfl⟩
    | error e => exact ⟨s₂.mainMemory, rfl⟩

/-! ## A miss, taken apart -/

/-- An access that misses the TLB: `s₁` is the state once the page is in memory, `slot` the slot
that is loaded, `t` the table once it has been chosen, and `r` the answer of the second
`Translate`. -/
structure Miss (s : System) (a : Access) (s₁ : System) (slot : Fin tlbSize)
    (t t' : InvertedPageTable) (r : Except MemException ℕ) (s' : System) : Prop where
  absent : lookup s.tlb a.page = none
  range : a.page < s.space.numPages
  loaded : Loaded s a.addr s₁
  slotFor : SlotFor s₁.tlb s₁.invertedPageTable slot t
  replaceable : Replaceable s₁ slot
  update : t.updatePage (s₁.space.pageTable a.page).physicalPage true = .ok t'
  translated : Translated (s₁.filled slot a.page t') a.addr a.size true r s'

section Miss

variable {s s₁ s' : System} {a : Access} {slot : Fin tlbSize} {t t' : InvertedPageTable}
  {r : Except MemException ℕ}

/-- Loading the TLB changes no frame. -/
theorem Miss.filled_same (h : Miss s a s₁ slot t t' r s') :
    SameMapping s₁ (s₁.filled slot a.page t') :=
  System.filled_same (h.slotFor.frames.trans (updatePage_frames h.update))

/-- After the page is in memory, no frame changes. -/
theorem Miss.same (h : Miss s a s₁ slot t t' r s') : SameMapping s₁ s' :=
  h.filled_same.trans h.translated.same.1

/-- The entry just loaded is the one the second `Translate` finds. -/
theorem Miss.lookup_self (h : Miss s a s₁ slot t t' r s') (hnum : Numbered s)
    (hdistinct : Distinct s.tlb) (hres : (s₁.space.pageTable a.page).virtualPage ≠ -1) :
    lookup (s₁.filled slot a.page t').tlb a.page = some slot := by
  have hnum₁ := h.loaded.numbered hnum
  have hentry : (s₁.filled slot a.page t').tlb slot = s₁.translationOf slot a.page :=
    Function.update_self _ _ _
  have hdistinct₂ : Distinct (s₁.filled slot a.page t').tlb :=
    distinct_of_fill hnum₁ (h.loaded.distinct hdistinct) (h.loaded.lookup_none h.absent)
  refine hdistinct₂.lookup ?_ ?_
  · rw [hentry]
    rfl
  · rw [hentry]
    exact (hnum₁ s₁.currentSpace a.page).resolve_left hres

end Miss

theorem Resolved.miss {s s' : System} {a : Access} {pa : Option ℕ} (hnum : Numbered s)
    (hmiss : lookup s.tlb a.page = none) (h : Resolved s a pa s') :
    ∃ s₁ slot t t' r, Miss s a s₁ slot t t' r s' ∧ pa = r.toOption := by
  cases h with
  | hit htranslated =>
    cases htranslated with
    | hit hlookup _ _ =>
      rw [← Access.page, hmiss] at hlookup
      cases hlookup
  | fault _ hfault htranslated =>
    obtain ⟨hrange, s₁, hloaded, hfill⟩ := pageFaultException_ok hnum hfault
    have hrange₁ : a.page < s₁.space.numPages := by
      rw [hloaded.kept.2.1]
      exact hrange
    obtain ⟨slot, t, t', hslot, hreplaceable, hupdate, rfl⟩ := (fillTLB_ok_iff hrange₁).mp hfill
    exact ⟨s₁, slot, t, t', _,
      ⟨hmiss, hrange, hloaded, hslot, hreplaceable, hupdate, htranslated⟩, rfl⟩

/-- An access that finds its page in the TLB. -/
theorem Resolved.of_hit {s s' : System} {a : Access} {pa : Option ℕ} {i : Fin tlbSize}
    (hlookup : lookup s.tlb a.page = some i) (h : Resolved s a pa s') :
    ∃ x t e, pa = some x ∧ s.invertedPageTable.updatePage (s.tlb i).physicalPage false = .ok t ∧
      useEntry (s.tlb i) (a.addr % pageSize) a.size a.write.isSome = .ok (.ok x, e) ∧
      s' = { s with invertedPageTable := t, tlb := Function.update s.tlb i e } := by
  cases h with
  | hit htranslated =>
    cases htranslated with
    | hit hlookup' hupdate huse =>
      rw [← Access.page, hlookup] at hlookup'
      cases hlookup'
      exact ⟨_, _, _, rfl, hupdate, huse, rfl⟩
  | fault hmiss _ _ =>
    rw [hlookup] at hmiss
    cases hmiss

/-- What an access does, up to the bytes it writes: it finds an entry in the TLB and uses it, or
it misses. -/
theorem step_cases {s s' : System} {a : Access} (hnum : Numbered s) (h : s.step a = .ok s') :
    (∃ i x t e m, lookup s.tlb a.page = some i ∧
      s.invertedPageTable.updatePage (s.tlb i).physicalPage false = .ok t ∧
      useEntry (s.tlb i) (a.addr % pageSize) a.size a.write.isSome = .ok (.ok x, e) ∧
      s' = { s.switchTo a.space with
        invertedPageTable := t, tlb := Function.update s.tlb i e, mainMemory := m }) ∨
    ∃ s₁ slot t t' r s₂ m, Miss (s.switchTo a.space) a s₁ slot t t' r s₂ ∧
      s' = { s₂ with mainMemory := m } := by
  obtain ⟨pa, s₂, m, hresolved, rfl⟩ := step_ok h
  cases hlookup : lookup s.tlb a.page with
  | some i =>
    obtain ⟨x, t, e, rfl, hupdate, huse, rfl⟩ :=
      hresolved.of_hit (show lookup (s.switchTo a.space).tlb a.page = some i from hlookup)
    exact .inl ⟨i, x, t, e, m, rfl, hupdate, huse, rfl⟩
  | none =>
    obtain ⟨s₁, slot, t, t', r, hmiss, -⟩ := hresolved.miss (hnum.switchTo a.space)
      (show lookup (s.switchTo a.space).tlb a.page = none from hlookup)
    exact .inr ⟨s₁, slot, t, t', r, s₂, m, hmiss, rfl⟩

/-- The frame into which an access has brought its page, if it has. -/
def fills (s s' : System) (a : Access) : Option ℤ :=
  if ((s.spaces a.space).pageTable a.page).virtualPage = -1 ∧
      ((s'.spaces a.space).pageTable a.page).virtualPage ≠ -1 then
    some ((s'.spaces a.space).pageTable a.page).physicalPage
  else none

/-! ## The queues -/

theorem updatePage_secondChance {t t' : InvertedPageTable} {f : ℤ} {b : Bool}
    (halg : t.replacementAlgorithm = .secondChance) (h : t.updatePage f b = .ok t') :
    t'.secondChanceQueue = t.secondChanceQueue ++ [(f, true)] := by
  unfold InvertedPageTable.updatePage at h
  rw [halg] at h
  cases h
  rfl

end System
end NachOS
