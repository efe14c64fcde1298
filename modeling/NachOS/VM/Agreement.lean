import NachOS.VM.Steps

/-!
# The TLB agrees with the page table

What a page fault does to the page table and to the TLB, and the invariant that comes out
of it for one address space: a valid TLB entry for a page holds the frame the page table
has for it. The invariant does not depend on the replacement policy or on how much memory
there is, since `swap` drops the same page from both.
-/

namespace NachOS
namespace System

open PartialRun

/-! ## The page table and the TLB across a page fault -/

/-- What getting a frame does to the current page table and the TLB: nothing, or a page is
dropped from both. -/
theorem FrameFor.tables {s s₁ : System} {p f : ℤ} (h : FrameFor s p f s₁) :
    (s₁.space.pageTable = s.space.pageTable ∧ s₁.tlb = s.tlb) ∨
      ∃ g : ℕ, s₁.space.pageTable =
          Function.update s.space.pageTable g (emptied (s.space.pageTable g)) ∧
        s₁.tlb = dropFromTLB s.tlb g := by
  cases h with
  | free hfree => exact .inl ⟨rfl, rfl⟩
  | evicted hfull hvictim hframe hpage hsource hslot =>
    exact .inr ⟨_, dropPage_pageTable s _, rfl⟩
  | refused hfull hvictim hframe hpage hslot =>
    exact .inr ⟨_, dropPage_pageTable s _, rfl⟩

/-- Finding a frame brings no page into memory. -/
theorem FrameFor.absent {s s₁ : System} {p f : ℤ} {q : ℕ} (h : FrameFor s p f s₁)
    (habsent : (s.space.pageTable q).virtualPage = -1) :
    (s₁.space.pageTable q).virtualPage = -1 := by
  rcases h.tables with ⟨htable, -⟩ | ⟨g, htable, -⟩
  · rw [htable]
    exact habsent
  · rw [htable, Function.update_apply]
    split
    · rfl
    · exact habsent

theorem install_pageTable (s : System) (p : ℕ) (e : TranslationEntry) (f : ℤ) (n : ℕ)
    (bytes : Bytes) : (s.install p e f n bytes).space.pageTable =
      Function.update s.space.pageTable p { e with physicalPage := f, virtualPage := p } :=
  withEntry_pageTable s p _

theorem install_spaces_of_ne (s : System) (p : ℕ) (e : TranslationEntry) (f : ℤ) (n : ℕ)
    (bytes : Bytes) {a : ℕ} (h : a ≠ s.currentSpace) :
    (s.install p e f n bytes).spaces a = s.spaces a :=
  withEntry_spaces_of_ne s p _ h

/-- What loading a page does to the tables, once a frame has been found: the page gets that
frame, or nothing happens. -/
inductive Loaded.Tables (s : System) (p : ℕ) (s' : System) : Prop where
  | resident (heq : s' = s) (hpage : (s.space.pageTable p).virtualPage ≠ -1)
  | loaded {f : ℤ} {s₁ : System} {e : TranslationEntry}
    (habsent : (s.space.pageTable p).virtualPage = -1)
    (hframe : FrameFor s p f s₁)
    (hpage : e.virtualPage = p ∧ e.physicalPage = f)
    (htable : s'.space.pageTable = Function.update s₁.space.pageTable p e)
    (htlb : s'.tlb = s₁.tlb)
    (hipt : s'.invertedPageTable = s₁.invertedPageTable)
  | lost {f : ℤ} {s₁ : System}
    (habsent : (s.space.pageTable p).virtualPage = -1)
    (hmarked : s.memorySwap.isLoadedInSwap p = true)
    (hframe : FrameFor s p f s₁)
    (hslot : s₁.memorySwap.slotOf p = none)
    (heq : s' = s₁)

theorem Loaded.tables {s s' : System} {addr : ℕ} (h : Loaded s addr s') :
    Loaded.Tables s (addr / pageSize) s' := by
  cases h with
  | resident hpage => exact .resident rfl hpage
  | fromSwap hpage hmarked hframe hslot hn hfits =>
    exact .loaded hpage hframe ⟨rfl, rfl⟩ (install_pageTable _ _ _ _ _ _) rfl rfl
  | lost hpage hmarked hframe hslot => exact .lost hpage hmarked hframe hslot rfl
  | fromDisk hpage hmarked hframe htransfer hfits =>
    exact .loaded hpage hframe ⟨rfl, rfl⟩ (install_pageTable _ _ _ _ _ _) rfl rfl

/-- A page fault brings no other page into memory. -/
theorem Loaded.absent {s s' : System} {addr q : ℕ} (h : Loaded s addr s')
    (hq : q ≠ addr / pageSize) (habsent : (s.space.pageTable q).virtualPage = -1) :
    (s'.space.pageTable q).virtualPage = -1 := by
  cases h.tables with
  | resident heq _ => rw [heq]; exact habsent
  | loaded _ hframe _ htable _ _ =>
    rw [htable, Function.update_of_ne hq]
    exact hframe.absent habsent
  | lost _ _ hframe _ heq =>
    rw [heq]
    exact hframe.absent habsent

/-- A page fault leaves the other address spaces alone. -/
theorem Loaded.kept {s s' : System} {addr : ℕ} (h : Loaded s addr s') :
    s'.currentSpace = s.currentSpace ∧ s'.space.numPages = s.space.numPages ∧
      s'.space.ownExecutable = s.space.ownExecutable ∧
      ∀ a, a ≠ s.currentSpace → s'.spaces a = s.spaces a := by
  cases h with
  | resident hpage => exact ⟨rfl, rfl, rfl, fun _ _ => rfl⟩
  | @fromSwap f s₁ i n hpage hmarked hframe hslot hn hfits =>
    have hk := hframe.kept
    refine ⟨hk.currentSpace, ?_, ?_, fun a ha => ?_⟩
    · exact (withEntry_numPages _ _ _).trans hk.numPages
    · exact (withEntry_ownExecutable _ _ _).trans hk.ownExecutable
    · refine (install_spaces_of_ne _ _ _ _ _ _ ?_).trans (hk.others a ha)
      show a ≠ s₁.currentSpace
      rw [hk.currentSpace]
      exact ha
  | lost hpage hmarked hframe hslot =>
    have hk := hframe.kept
    exact ⟨hk.currentSpace, hk.numPages, hk.ownExecutable, hk.others⟩
  | @fromDisk f s₁ n bytes hpage hmarked hframe htransfer hfits =>
    have hk := hframe.kept
    refine ⟨hk.currentSpace, ?_, ?_, fun a ha => ?_⟩
    · exact (withEntry_numPages _ _ _).trans hk.numPages
    · exact (withEntry_ownExecutable _ _ _).trans hk.ownExecutable
    · refine (install_spaces_of_ne _ _ _ _ _ _ ?_).trans (hk.others a ha)
      show a ≠ s₁.currentSpace
      rw [hk.currentSpace]
      exact ha

/-! ## The invariant rule -/

theorem numbered_of_same {s s' : System} (hnum : Numbered s) (hsame : SameMapping s s') :
    Numbered s' := by
  intro a p
  rw [hsame.virtualPage a p]
  exact hnum a p

theorem Numbered.switchTo {s : System} (hnum : Numbered s) (a : ℕ) :
    Numbered (s.switchTo a) := hnum

theorem Loaded.numbered {s s' : System} {addr : ℕ} (hnum : Numbered s) (h : Loaded s addr s') :
    Numbered s' := by
  obtain ⟨hcur, -, -, hothers⟩ := h.kept
  have htable : ∀ q, (s'.space.pageTable q).virtualPage = -1 ∨
      (s'.space.pageTable q).virtualPage = q := by
    have hold : ∀ q, (s.space.pageTable q).virtualPage = -1 ∨
      (s.space.pageTable q).virtualPage = q := hnum s.currentSpace
    -- dropping a page leaves a `-1` in its entry
    have hmid : ∀ {f : ℤ} {s₁ : System}, FrameFor s (addr / pageSize : ℕ) f s₁ →
        ∀ q, (s₁.space.pageTable q).virtualPage = -1 ∨ (s₁.space.pageTable q).virtualPage = q := by
      intro f s₁ hframe q
      rcases hframe.tables with ⟨htab, -⟩ | ⟨g, htab, -⟩
      · rw [htab]
        exact hold q
      · rw [htab, Function.update_apply]
        split
        · exact .inl rfl
        · exact hold q
    intro q
    cases h.tables with
    | resident heq hpage => rw [heq]; exact hold q
    | loaded habsent hframe hpage htab htlb hipt =>
      rw [htab, Function.update_apply]
      split
      · rename_i hq; rw [hq]; exact .inr hpage.1
      · exact hmid hframe q
    | lost habsent hmarked hframe hslot heq => rw [heq]; exact hmid hframe q
  intro a q
  by_cases ha : a = s.currentSpace
  · rw [ha, ← hcur]
    exact htable q
  · rw [hothers a ha]
    exact hnum a q

/-- A property kept by bookkeeping, by writes to memory and by page faults is kept by every
access. -/
theorem step_preserves {I : System → Prop} {s s' : System} {a : Access}
    (hsame : ∀ {s s' : System}, I s → SameMapping s s' → SameTLB s.tlb s'.tlb → I s')
    (hmem : ∀ {s : System} (m : Bytes), I s → I { s with mainMemory := m })
    (hfault : ∀ {s₁ s₂ : System} {slot : Fin tlbSize},
      lookup s.tlb a.page = none → a.page < (s.spaces a.space).numPages →
      Loaded (s.switchTo a.space) a.addr s₁ → SameMapping s₁ s₂ →
      s₂.tlb = Function.update s₁.tlb slot (s₁.translationOf slot a.page) → I s₂)
    (hnum : Numbered s) (hhit : lookup s.tlb a.page ≠ none → I (s.switchTo a.space))
    (h : s.step a = .ok s') : I s' := by
  obtain ⟨pa, s₁, m, hres, rfl⟩ := step_ok h
  apply hmem
  cases hres with
  | hit htranslated =>
    obtain ⟨hmap, htlb⟩ := htranslated.same
    refine hsame (hhit ?_) hmap htlb
    cases htranslated with
    | hit hlookup _ _ => exact Option.ne_none_iff_exists'.mpr ⟨_, hlookup⟩
  | fault hlookup hpf htranslated =>
    obtain ⟨hmap, htlb⟩ := htranslated.same
    refine hsame ?_ hmap htlb
    obtain ⟨hrange, s₂, hloaded, hfill⟩ := pageFaultException_ok (hnum.switchTo a.space) hpf
    obtain ⟨slot, hmap', htlb'⟩ := fillTLB_ok hfill
    exact hfault hlookup hrange hloaded hmap' htlb'

theorem step_numbered {s s' : System} {a : Access} (hnum : Numbered s) (h : s.step a = .ok s') :
    Numbered s' :=
  step_preserves (fun hnum hmap _ => numbered_of_same hnum hmap) (fun _ hnum => hnum)
    (fun _ _ hloaded hmap _ => numbered_of_same
      (hloaded.numbered (hnum.switchTo a.space)) hmap) hnum (fun _ => hnum) h

/-- At the start no page is in memory. -/
theorem Booted.absent {s : System} (hboot : Booted s) (a p : ℕ) :
    ((s.spaces a).pageTable p).virtualPage = -1 := by
  obtain ⟨executable, hspace⟩ := hboot.spaces a
  obtain ⟨noffH, -, hspace⟩ := bind_ok_iff.mp hspace
  rw [← pure_ok_iff.mp hspace]
  rfl

theorem Booted.numbered {s : System} (hboot : Booted s) : Numbered s :=
  fun a p => .inl (hboot.absent a p)

theorem step_currentSpace {s s' : System} {a : Access} (hnum : Numbered s)
    (h : s.step a = .ok s') : s'.currentSpace = a.space := by
  refine step_preserves (fun hcur hmap _ => hmap.currentSpace.trans hcur) (fun _ hcur => hcur)
    (fun _ _ hloaded hmap _ => hmap.currentSpace.trans hloaded.kept.1) hnum (fun _ => ?_) h
  rfl

/-- An access brings no other page into memory. -/
theorem step_absent {s s' : System} {a : Access} {c p : ℕ} (hnum : Numbered s)
    (hother : c ≠ a.space ∨ p ≠ a.page)
    (habsent : ((s.spaces c).pageTable p).virtualPage = -1) (h : s.step a = .ok s') :
    ((s'.spaces c).pageTable p).virtualPage = -1 := by
  refine step_preserves (I := fun s => ((s.spaces c).pageTable p).virtualPage = -1)
    (fun habsent hmap _ => ?_) (fun _ habsent => habsent) ?_ hnum (fun _ => habsent) h
  · rw [hmap.virtualPage]
    exact habsent
  · intro s₁ s₂ slot _ _ hloaded hmap _
    rw [hmap.virtualPage]
    obtain ⟨hcur, -, -, hothers⟩ := hloaded.kept
    by_cases hc : c = a.space
    · rw [hc] at habsent ⊢
      have hsame : (s₁.space.pageTable p).virtualPage = -1 :=
        hloaded.absent (hother.resolve_left (not_not.mpr hc)) habsent
      rwa [space, hcur] at hsame
    · rw [hothers c hc]
      exact habsent

/-- An access changes no program. -/
theorem step_programs {s s' : System} {a : Access} (hnum : Numbered s) (h : s.step a = .ok s')
    (c : ℕ) : (s'.spaces c).numPages = (s.spaces c).numPages ∧
      (s'.spaces c).ownExecutable = (s.spaces c).ownExecutable := by
  refine step_preserves (I := fun s' => (s'.spaces c).numPages = (s.spaces c).numPages ∧
    (s'.spaces c).ownExecutable = (s.spaces c).ownExecutable) (fun hprograms hmap _ => ?_)
    (fun _ hprograms => hprograms) ?_ hnum (fun _ => ⟨rfl, rfl⟩) h
  · rw [hmap.numPages, hmap.ownExecutable]
    exact hprograms
  · intro s₁ s₂ slot _ _ hloaded hmap _
    rw [hmap.numPages, hmap.ownExecutable]
    obtain ⟨hcur, hpages, hexe, hothers⟩ := hloaded.kept
    by_cases hc : c = a.space
    · rw [hc]
      rw [space, hcur] at hpages hexe
      exact ⟨hpages, hexe⟩
    · rw [hothers c hc]
      exact ⟨rfl, rfl⟩

/-! ## Agreement -/

/-- A valid TLB entry for a page holds the frame the current page table has for it. -/
def Agrees (s : System) : Prop := ∀ (i : Fin tlbSize) (v : ℕ),
  (s.tlb i).valid = true → (s.tlb i).virtualPage = v →
    (s.space.pageTable v).virtualPage = v ∧
      (s.space.pageTable v).physicalPage = (s.tlb i).physicalPage

theorem agrees_of_same {s s' : System} (hagree : Agrees s) (hmap : SameMapping s s')
    (htlb : SameTLB s.tlb s'.tlb) : Agrees s' := by
  intro i v hvalid hpage
  rw [htlb.valid i] at hvalid
  rw [htlb.virtualPage i] at hpage
  obtain ⟨hv, hp⟩ := hagree i v hvalid hpage
  unfold space
  rw [hmap.currentSpace, hmap.virtualPage, hmap.physicalPage, htlb.physicalPage]
  exact ⟨hv, hp⟩

theorem FrameFor.agrees {s s₁ : System} {p f : ℤ} (hagree : Agrees s) (h : FrameFor s p f s₁) :
    Agrees s₁ := by
  rcases h.tables with ⟨htab, htlb⟩ | ⟨g, htab, htlb⟩
  · intro i v hvalid hpage
    rw [htlb] at hvalid hpage ⊢
    rw [htab]
    exact hagree i v hvalid hpage
  · intro i v hvalid hpage
    rw [htlb] at hvalid hpage ⊢
    simp only [dropFromTLB] at hvalid hpage ⊢
    split at hvalid
    · cases hvalid
    · rename_i hne
      rw [if_neg hne] at hpage ⊢
      -- an entry that survives is for another page than the dropped one
      have hvg : v ≠ g := by
        intro hvg
        exact hne (by rw [hpage, hvg])
      rw [htab, Function.update_of_ne hvg]
      exact hagree i v hvalid hpage

/-- A valid entry after a page was dropped was there before. -/
theorem FrameFor.lookup_none {s s₁ : System} {p f : ℤ} {q : ℕ} (h : FrameFor s p f s₁)
    (hnone : lookup s.tlb q = none) : lookup s₁.tlb q = none := by
  rw [lookup_none_iff] at hnone ⊢
  intro i hvalid
  rcases h.tables with ⟨-, htlb⟩ | ⟨g, -, htlb⟩
  · rw [htlb] at hvalid ⊢
    exact hnone i hvalid
  · rw [htlb] at hvalid ⊢
    simp only [dropFromTLB] at hvalid ⊢
    split at hvalid
    · cases hvalid
    · rename_i hne
      rw [if_neg hne]
      exact hnone i hvalid

theorem Loaded.agrees {s s' : System} {addr : ℕ} (hagree : Agrees s)
    (hnone : lookup s.tlb (addr / pageSize) = none) (h : Loaded s addr s') : Agrees s' := by
  cases h.tables with
  | resident heq hpage => rw [heq]; exact hagree
  | lost habsent hmarked hframe hslot heq => rw [heq]; exact hframe.agrees hagree
  | loaded habsent hframe hpage htab htlb hipt =>
    intro i v hvalid hv
    rw [htlb] at hvalid hv ⊢
    have hne : v ≠ addr / pageSize := by
      rintro rfl
      exact lookup_none_iff.mp (hframe.lookup_none hnone) i hvalid hv
    rw [htab, Function.update_of_ne hne]
    exact hframe.agrees hagree i v hvalid hv

/-- Putting the translation of a page into a slot keeps the agreement: the entry is the one
of the page table, or one `Translate` never hits. -/
theorem agrees_of_fill {s s' : System} {slot : Fin tlbSize} {p : ℕ} (hagree : Agrees s)
    (hnum : Numbered s) (hmap : SameMapping s s')
    (htlb : s'.tlb = Function.update s.tlb slot (s.translationOf slot p)) : Agrees s' := by
  intro i v hvalid hv
  unfold space
  rw [hmap.currentSpace, hmap.virtualPage, hmap.physicalPage]
  rw [htlb] at hvalid hv ⊢
  rw [Function.update_apply] at hvalid hv ⊢
  split
  · rename_i hi
    rw [if_pos hi] at hv
    have hpage : (s.space.pageTable p).virtualPage = v := hv
    have hvp : v = p := by
      rcases hnum s.currentSpace p with h | h
      · have : ((v : ℕ) : ℤ) = -1 := hpage.symm.trans h
        exact absurd this (natCast_ne_neg_one v)
      · have : ((v : ℕ) : ℤ) = p := hpage.symm.trans h
        exact_mod_cast this
    rw [hvp]
    exact ⟨hpage.trans (by rw [hvp]), rfl⟩
  · rename_i hi
    rw [if_neg hi] at hvalid hv
    exact hagree i v hvalid hv

theorem Booted.agrees {s : System} (hboot : Booted s) (c : ℕ) : Agrees (s.switchTo c) := by
  intro i v hvalid _
  rw [switchTo_tlb, hboot.tlb i] at hvalid
  cases hvalid

/-- An access of the address space the TLB agrees with keeps the agreement. -/
theorem step_agrees {s s' : System} {a : Access} (hnum : Numbered s)
    (hagree : Agrees (s.switchTo a.space)) (h : s.step a = .ok s') : Agrees s' := by
  refine step_preserves agrees_of_same (fun _ h => h) ?_ hnum (fun _ => hagree) h
  intro s₁ s₂ slot hlookup _ hloaded hmap htlb
  exact agrees_of_fill (hloaded.agrees hagree hlookup)
    (hloaded.numbered (hnum.switchTo a.space)) hmap htlb

end System
end NachOS
