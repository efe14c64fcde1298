import NachOS.VM.Transparency
import NachOS.VM.Switching

/-!
# Frames that were never handed out

A frame that is free in the bitmap has been free from the start, since frames are never given
back: it is still zero, and no page table and no TLB entry has it. This holds in every run of
user threads, whatever they execute, fork and access.
-/

namespace NachOS
namespace System

open PartialRun

/-- A free frame is zero, and no entry leads to it. -/
structure Untouched (s : System) : Prop where
  zero : ∀ f < numPhysPagesIPT, s.invertedPageTable.physicalPagesBitmap.marked f = false →
    ∀ k < pageSize, s.mainMemory (f * pageSize + k) = 0
  resident : ∀ f < numPhysPagesIPT, s.invertedPageTable.physicalPagesBitmap.marked f = false →
    ∀ a p, ((s.spaces a).pageTable p).virtualPage ≠ -1 →
      toUnsigned ((s.spaces a).pageTable p).physicalPage ≠ f
  tlb : ∀ f < numPhysPagesIPT, s.invertedPageTable.physicalPagesBitmap.marked f = false →
    ∀ i, (s.tlb i).valid = true → toUnsigned (s.tlb i).physicalPage ≠ f

theorem Untouched.switchTo {s : System} (h : Untouched s) (a : ℕ) : Untouched (s.switchTo a) :=
  ⟨h.zero, h.resident, h.tlb⟩

theorem untouched_of_same {s s' : System} (h : Untouched s) (hmap : SameMapping s s')
    (htlb : SameTLB s.tlb s'.tlb) : Untouched s' := by
  refine ⟨fun f hf hclear => ?_, fun f hf hclear a p hres => ?_, fun f hf hclear i hvalid => ?_⟩
  all_goals rw [hmap.frames.physicalPagesBitmap] at hclear
  · rw [hmap.mainMemory]
    exact h.zero f hf hclear
  · rw [hmap.virtualPage] at hres
    rw [hmap.physicalPage]
    exact h.resident f hf hclear a p hres
  · rw [htlb.valid] at hvalid
    rw [htlb.physicalPage]
    exact h.tlb f hf hclear i hvalid

/-! ## Page faults -/

/-- A frame that is free says that the first free one exists. -/
theorem Allocating.exists_firstClear {s : System} {f : ℕ} (halloc : Allocating s)
    (hf : f < numPhysPagesIPT)
    (hclear : s.invertedPageTable.physicalPagesBitmap.marked f = false) :
    ∃ g, s.invertedPageTable.physicalPagesBitmap.firstClear = some g := by
  cases hfirst : s.invertedPageTable.physicalPagesBitmap.firstClear with
  | some g => exact ⟨g, rfl⟩
  | none =>
    rw [BitMap.firstClear_eq_none.mp hfirst f (by rw [halloc.numBits]; exact hf)] at hclear
    cases hclear

/-- Loading a page into the first free frame. -/
theorem install_untouched {s : System} {p g n : ℕ} {bytes : Bytes} (h : Untouched s)
    (halloc : Allocating s)
    (hfree : s.invertedPageTable.physicalPagesBitmap.firstClear = some g) (hn : n ≤ pageSize) :
    Untouched ((s.giveFrame g p).install p (s.space.pageTable p) g n bytes) := by
  have hg : g < numPhysPagesIPT := by
    rw [← halloc.numBits]
    exact (BitMap.firstClear_spec hfree).1
  -- a frame that is clear afterwards was clear before, and is not the one given out
  have hold : ∀ f, ((s.giveFrame g p).install p (s.space.pageTable p) g n
      bytes).invertedPageTable.physicalPagesBitmap.marked f = false →
      f ≠ g ∧ s.invertedPageTable.physicalPagesBitmap.marked f = false := by
    intro f hclear
    change (BitMap.markBit _ g).marked f = false at hclear
    rw [BitMap.markBit_marked] at hclear
    split at hclear
    · cases hclear
    · exact ⟨by assumption, hclear⟩
  have hmemory : ((s.giveFrame g p).install p (s.space.pageTable p) g n bytes).mainMemory =
      Bytes.blit s.mainMemory (g * pageSize) n bytes := by
    show Bytes.blit s.mainMemory ((g : ℤ) * (pageSize : ℤ)).toNat n bytes = _
    rw [← Int.natCast_mul, Int.toNat_natCast]
  refine ⟨fun f hf hclear k hk => ?zero, fun f hf hclear a q hres => ?resident,
    fun f hf hclear => ?tlb⟩
  case zero =>
    obtain ⟨hne, hclear⟩ := hold f hclear
    have hdisj := LazyMemory.aligned_disjoint (n := pageSize) hne
    rw [hmemory]
    exact (Bytes.window_blit_disjoint s.mainMemory bytes (n := n) (by omega) k hk).trans
      (h.zero f hf hclear k hk)
  case resident =>
    obtain ⟨hne, hclear⟩ := hold f hclear
    by_cases ha : a = s.currentSpace
    · subst ha
      change (((s.giveFrame g p).install p (s.space.pageTable p) g n bytes).space.pageTable
        q).virtualPage ≠ -1 at hres
      change toUnsigned (((s.giveFrame g p).install p (s.space.pageTable p) g n
        bytes).space.pageTable q).physicalPage ≠ f
      rw [install_pageTable] at hres ⊢
      by_cases hq : q = p
      · rw [hq, Function.update_self]
        simp only
        rw [toUnsigned_natCast (by rw [numPhysPagesIPT_eq] at hg; omega)]
        exact hne.symm
      · rw [Function.update_of_ne hq] at hres ⊢
        exact h.resident f hf hclear s.currentSpace q hres
    · rw [install_spaces_of_ne _ _ _ _ _ _ (show a ≠ (s.giveFrame g p).currentSpace from ha)]
        at hres ⊢
      exact h.resident f hf hclear a q hres
  case tlb =>
    obtain ⟨-, hclear⟩ := hold f hclear
    exact h.tlb f hf hclear

theorem Loaded.untouched {s s' : System} {addr : ℕ} (h : Untouched s) (halloc : Allocating s)
    (hloaded : Loaded s addr s') : Untouched s' := by
  cases hfirst : s.invertedPageTable.physicalPagesBitmap.firstClear with
  | none =>
    -- no frame is free, before or after
    have hnone : ∀ f < numPhysPagesIPT,
        s'.invertedPageTable.physicalPagesBitmap.marked f ≠ false := by
      intro f hf hclear
      obtain ⟨g, hg⟩ := halloc.exists_firstClear hf (hloaded.marked hclear)
      rw [hfirst] at hg
      cases hg
    exact ⟨fun f hf hclear => absurd hclear (hnone f hf),
      fun f hf hclear => absurd hclear (hnone f hf),
      fun f hf hclear => absurd hclear (hnone f hf)⟩
  | some g =>
    rcases hloaded.of_free halloc hfirst with ⟨-, rfl⟩ | ⟨n, bytes, -, htransfer, -, rfl⟩
    · exact h
    · exact install_untouched h halloc hfirst (diskTransfer_le htransfer)

/-- The page is in memory after it was loaded with a frame still free. -/
theorem Loaded.resident_of_clear {s s' : System} {addr f : ℕ} (halloc : Allocating s)
    (hloaded : Loaded s addr s') (hf : f < numPhysPagesIPT)
    (hclear : s'.invertedPageTable.physicalPagesBitmap.marked f = false) :
    (s'.space.pageTable (addr / pageSize)).virtualPage ≠ -1 := by
  obtain ⟨g, hg⟩ := halloc.exists_firstClear hf (hloaded.marked hclear)
  rcases hloaded.of_free halloc hg with ⟨hpage, rfl⟩ | ⟨n, bytes, -, -, -, rfl⟩
  · exact hpage
  · rw [install_pageTable, Function.update_self]
    exact natCast_ne_neg_one _

theorem untouched_of_fill {s s' : System} {slot : Fin tlbSize} {p : ℕ} (h : Untouched s)
    (hpage : ∀ f < numPhysPagesIPT, s.invertedPageTable.physicalPagesBitmap.marked f = false →
      (s.space.pageTable p).virtualPage ≠ -1)
    (hmap : SameMapping s s')
    (htlb : s'.tlb = Function.update s.tlb slot (s.translationOf slot p)) : Untouched s' := by
  have hrest : Untouched { s' with tlb := s.tlb } :=
    untouched_of_same h ⟨hmap.mainMemory, hmap.memorySwap, hmap.currentSpace, hmap.frames,
      hmap.numPages, hmap.ownExecutable, hmap.virtualPage, hmap.physicalPage⟩ (.refl _)
  refine ⟨hrest.zero, hrest.resident, fun f hf hclear i hvalid => ?_⟩
  rw [htlb, Function.update_apply] at hvalid ⊢
  split
  · have hclear' : s.invertedPageTable.physicalPagesBitmap.marked f = false := by
      rw [← hmap.frames.physicalPagesBitmap]
      exact hclear
    exact h.resident f hf hclear' s.currentSpace p (hpage f hf hclear')
  · rename_i hi
    rw [if_neg hi] at hvalid
    exact hrest.tlb f hf hclear i hvalid

/-! ## Accesses -/

/-- The address an access gets is in the frame of a valid TLB entry. -/
theorem Translated.frame {s s' : System} {addr pa : ℕ} {size : Size} {w : Bool}
    (h : Translated s addr size w (.ok pa) s') :
    ∃ i, lookup s.tlb (addr / pageSize) = some i ∧
      pa = toUnsigned (s.tlb i).physicalPage * pageSize + addr % pageSize := by
  cases h with
  | hit hlookup _ huse => exact ⟨_, hlookup, ((useEntry_ok huse).2.2 pa rfl).2⟩

/-- Writing through a valid TLB entry. -/
theorem Untouched.write {s : System} {i : Fin tlbSize} {off n : ℕ} (h : Untouched s)
    (hvalid : (s.tlb i).valid = true) (hoff : off + n ≤ pageSize) (bytes : Bytes) :
    Untouched (s.withMemory (Bytes.blit s.mainMemory
      (toUnsigned (s.tlb i).physicalPage * pageSize + off) n bytes)) := by
  refine ⟨fun f hf hclear k hk => ?_, h.resident, h.tlb⟩
  have hdisj := LazyMemory.aligned_disjoint (n := pageSize) (h.tlb f hf hclear i hvalid)
  exact (Bytes.window_blit_disjoint s.mainMemory bytes (n := n) (by omega) k hk).trans
    (h.zero f hf hclear k hk)

theorem Resolved.untouched {s s' : System} {a : Access} {pa : Option ℕ} (hnum : Numbered s)
    (halloc : Allocating s) (h : Untouched s) (hres : Resolved s a pa s') :
    Untouched s' ∧ ∀ x ∈ pa, ∃ i, (s'.tlb i).valid = true ∧
      x = toUnsigned (s'.tlb i).physicalPage * pageSize + a.addr % pageSize := by
  -- the entry that is hit is there before and after `Translate`
  have hhit : ∀ {s s' : System} {w : Bool} {r : Except MemException ℕ},
      Translated s a.addr a.size w r s' → ∀ x, r = .ok x → ∃ i, (s'.tlb i).valid = true ∧
        x = toUnsigned (s'.tlb i).physicalPage * pageSize + a.addr % pageSize := by
    intro s s' w r htranslated x hx
    subst hx
    obtain ⟨-, htlb⟩ := htranslated.same
    obtain ⟨i, hlookup, hpa⟩ := htranslated.frame
    exact ⟨i, (htlb.valid i).trans (lookup_some hlookup).1, by rw [htlb.physicalPage]; exact hpa⟩
  cases hres with
  | hit htranslated =>
    obtain ⟨hmap, htlb⟩ := htranslated.same
    refine ⟨untouched_of_same h hmap htlb, fun x hx => hhit htranslated x ?_⟩
    rw [Option.mem_some_iff] at hx
    rw [hx]
  | @fault _ _ r hlookup hpf htranslated =>
    obtain ⟨hmap, htlb⟩ := htranslated.same
    obtain ⟨-, s₁, hloaded, hfill⟩ := pageFaultException_ok hnum hpf
    obtain ⟨slot, hmap', htlb'⟩ := fillTLB_ok hfill
    have hfilled := untouched_of_fill (hloaded.untouched h halloc)
      (fun f hf hclear => hloaded.resident_of_clear halloc hf hclear) hmap' htlb'
    refine ⟨untouched_of_same hfilled hmap htlb, fun x hx => hhit htranslated x ?_⟩
    cases r with
    | ok y =>
      cases hx
      rfl
    | error e => cases hx

/-- A step writes through a valid TLB entry, if at all. -/
theorem step_untouched {s s' : System} {a : Access} (hnum : Numbered s) (halloc : Allocating s)
    (h : Untouched s) (hstep : s.step a = .ok s') : Untouched s' := by
  obtain ⟨⟨reply, s₂⟩, haccess, hstep⟩ := bind_ok_iff.mp hstep
  cases hstep
  obtain ⟨pa, s₁, hres, hreply⟩ := access_ok haccess
  obtain ⟨huntouched, hframe⟩ :=
    hres.untouched (hnum.switchTo a.space) (halloc.switchTo a.space) (h.switchTo a.space)
  cases hw : a.write with
  | none =>
    rw [hw] at hreply
    cases pa with
    | none =>
      rw [hreply.2]
      exact huntouched
    | some x =>
      rw [hreply.2]
      exact huntouched
  | some v =>
    rw [hw] at hreply
    cases pa with
    | none =>
      rw [hreply.2]
      exact huntouched
    | some x =>
      obtain ⟨i, hvalid, hx⟩ := hframe x rfl
      rw [hreply.2, hx]
      exact huntouched.write hvalid a.offset_le (valueBytes v)

/-! ## Pages beyond the address space -/

/-- Only pages of the address space are in memory. -/
def InTable (s : System) : Prop :=
  ∀ a p, ((s.spaces a).pageTable p).virtualPage ≠ -1 → p < (s.spaces a).numPages

theorem inTable_of_same {s s' : System} (h : InTable s) (hmap : SameMapping s s') :
    InTable s' := by
  intro a p hres
  rw [hmap.virtualPage] at hres
  rw [hmap.numPages]
  exact h a p hres

theorem Loaded.inTable {s s' : System} {addr : ℕ} (h : InTable s)
    (hlt : addr / pageSize < s.space.numPages) (hloaded : Loaded s addr s') : InTable s' := by
  obtain ⟨hcur, hnumPages, -, hothers⟩ := hloaded.kept
  intro a q hres
  by_cases ha : a = s.currentSpace
  · rw [ha, ← hcur] at hres ⊢
    show q < s'.space.numPages
    rw [hnumPages]
    by_cases hq : q = addr / pageSize
    · rw [hq]
      exact hlt
    · exact h s.currentSpace q fun habsent => hres (hloaded.absent hq habsent)
  · rw [hothers a ha] at hres ⊢
    exact h a q hres

theorem step_inTable {s s' : System} {a : Access} (hnum : Numbered s) (h : InTable s)
    (hstep : s.step a = .ok s') : InTable s' := by
  have hswitched : InTable (s.switchTo a.space) := h
  exact step_preserves (fun h hmap _ => inTable_of_same h hmap) (fun _ h => h)
    (fun _ hlt hloaded hmap _ => inTable_of_same (hloaded.inTable hswitched hlt) hmap) hnum
    (fun _ => hswitched) hstep

end System

/-! ## Runs of user threads -/

namespace UserThreads

open PartialRun NachOS.System

variable {u u' : UserThreads}

/-- The tables, the bitmaps and the free frames are in order. -/
structure InOrder (s : System) : Prop where
  numbered : Numbered s
  allocating : Allocating s
  untouched : Untouched s
  inTable : InTable s

/-- A new address space has no pages but those of another one. -/
theorem InOrder.allocate {space : AddrSpace} (h : InOrder u.sys)
    (hpages : ∀ p, (space.pageTable p).virtualPage ≠ -1 → p < space.numPages)
    (hspace : ∀ p, (space.pageTable p).virtualPage = -1 ∨ ∃ b,
      (space.pageTable p).virtualPage = ((u.sys.spaces b).pageTable p).virtualPage ∧
      (space.pageTable p).physicalPage = ((u.sys.spaces b).pageTable p).physicalPage) :
    InOrder (u.allocate space).sys := by
  refine ⟨numbered_allocate h.numbered fun p => ?_,
    ⟨h.allocating.numBits, h.allocating.swapBits, h.allocating.unused⟩,
    ⟨h.untouched.zero, fun f hf hclear a p hres => ?_, h.untouched.tlb⟩, fun a p hres => ?_⟩
  · rcases hspace p with hspace | ⟨b, hvirtual, -⟩
    · exact .inl hspace
    · rw [hvirtual]
      exact h.numbered b p
  · change ((Function.update u.sys.spaces u.numSpaces space a).pageTable p).virtualPage ≠ -1
      at hres
    change toUnsigned ((Function.update u.sys.spaces u.numSpaces space a).pageTable p).physicalPage
      ≠ f
    by_cases ha : a = u.numSpaces
    · rw [ha, Function.update_self] at hres ⊢
      rcases hspace p with hspace | ⟨b, hvirtual, hphysical⟩
      · exact absurd hspace hres
      · rw [hvirtual] at hres
        rw [hphysical]
        exact h.untouched.resident f hf hclear b p hres
    · rw [Function.update_of_ne ha] at hres ⊢
      exact h.untouched.resident f hf hclear a p hres
  · change ((Function.update u.sys.spaces u.numSpaces space a).pageTable p).virtualPage ≠ -1
      at hres
    change p < (Function.update u.sys.spaces u.numSpaces space a).numPages
    by_cases ha : a = u.numSpaces
    · rw [ha, Function.update_self] at hres ⊢
      exact hpages p hres
    · rw [Function.update_of_ne ha] at hres ⊢
      exact h.inTable a p hres

/-- The entries of a forked address space. -/
theorem virtualMemoryConstructor_ok {other space : AddrSpace}
    (h : AddrSpace.virtualMemoryConstructor other = .ok space) :
    space.numPages = other.numPages ∧ space.ownExecutable = other.ownExecutable ∧
    toUnsigned (other.numPages - divRoundUp userStackSize pageSize) ≤ other.numPages ∧
    ∀ p, if p < toUnsigned (other.numPages - divRoundUp userStackSize pageSize) then
        (space.pageTable p).virtualPage = (other.pageTable p).virtualPage ∧
        (space.pageTable p).physicalPage = (other.pageTable p).physicalPage
      else (space.pageTable p).virtualPage = -1 := by
  unfold AddrSpace.virtualMemoryConstructor at h
  dsimp only at h
  split at h
  · cases h
  · rename_i hle
    cases h
    refine ⟨rfl, rfl, by omega, fun p => ?_⟩
    dsimp only
    split
    · exact ⟨rfl, rfl⟩
    · rfl

theorem step_inOrder {e : Event} (h : InOrder u.sys) (hstep : u.step e = .ok u') :
    InOrder u'.sys := by
  cases e with
  | run nextThread =>
    obtain ⟨old, next, -, -, hswitched⟩ := run_ok hstep
    rw [hswitched.sys]
    exact h
  | access a =>
    obtain ⟨b, sys, -, haccess, rfl⟩ := access_step_ok hstep
    exact ⟨step_numbered h.numbered haccess, step_allocating h.numbered h.allocating haccess,
      step_untouched h.numbered h.allocating h.untouched haccess,
      step_inTable h.numbered h.inTable haccess⟩
  | writeRegister num value =>
    cases hstep
    exact h
  | startProcess executable =>
    obtain ⟨thread, space, -, hspace, rfl⟩ := startProcess_ok hstep
    obtain ⟨noffH, -, hspace⟩ := bind_ok_iff.mp hspace
    cases hspace
    exact h.allocate (fun p hres => absurd rfl hres) fun p => .inl rfl
  | exec t =>
    obtain ⟨-, rfl⟩ := newThread_ok hstep
    exact h
  | fork t =>
    obtain ⟨b, space, -, hspace, hnew⟩ := fork_ok hstep
    obtain ⟨-, rfl⟩ := newThread_ok hnew
    obtain ⟨hnumPages, -, hle, hentries⟩ := virtualMemoryConstructor_ok hspace
    refine h.allocate (fun p hres => ?_) fun p => ?_
    all_goals
      have hentry := hentries p
      split at hentry
    · omega
    · exact absurd hentry hres
    · exact .inr ⟨b, hentry⟩
    · exact .inl hentry

theorem Booted.inOrder (hboot : Booted u) : InOrder u.sys := by
  have habsent : ∀ b p, ((u.sys.spaces b).pageTable p).virtualPage = -1 := by
    intro b p
    rw [hboot.spaces]
    rfl
  refine ⟨fun b p => .inl (habsent b p), ⟨?_, ?_, fun _ => hboot.memorySwap⟩,
    ⟨fun f hf hclear k hk => ?_, fun f hf hclear b p hres => ?_, fun f hf hclear i hvalid => ?_⟩,
    fun b p hres => absurd (habsent b p) hres⟩
  · rw [hboot.invertedPageTable]
    rfl
  · rw [hboot.memorySwap]
    rfl
  · rw [hboot.mainMemory]
  · exact absurd (habsent b p) hres
  · rw [hboot.tlb i] at hvalid
    cases hvalid

end UserThreads
end NachOS
