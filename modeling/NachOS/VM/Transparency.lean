import NachOS.Lib.LazyMemory
import NachOS.VM.FrameRange
import NachOS.VM.Progress

/-!
# Demand paging is transparent

A program that runs in its address space should see one flat memory, each page of which has
its initial contents when it is first used. This file has that memory as the specification,
the relation between it and the paged machine, and the theorem that the two answer every
sequence of accesses alike, as long as physical memory has room for the pages used and
every page fault finds a TLB slot. Past that, pages are lost.
-/

namespace NachOS
namespace System

open PartialRun

/-! ## The flat memory -/

/-- The contents a page starts with when the first access to it is at `addr`: what is
transferred from the executable, and zeros. -/
def firstLoaded (space : AddrSpace) (addr : ℕ) : Bytes :=
  match diskTransfer space addr with
  | .ok (n, bytes) => Bytes.blit (fun _ => 0) 0 n bytes
  | .error _ => fun _ => 0

/-- An access to the flat memory. -/
def flatAccess (space : AddrSpace) (m : LazyMemory) (a : Access) : Reply × LazyMemory :=
  let m := m.touch pageSize a.page (firstLoaded space a.addr)
  match a.write with
  | none => (.value (readValue m.data a.addr a.size), m)
  | some v => (.wrote, m.write a.addr a.size.bytes (valueBytes v))

/-- What the flat memory answers to a program's accesses. -/
def flatReplies (space : AddrSpace) (as : List Access) : List Reply :=
  answers (flatAccess space) LazyMemory.empty as

/-- What `ReadMem` and `WriteMem` answer. -/
def replies (s : System) (as : List Access) : Except Fault (List Reply) := outputs access s as

/-! ## The condition -/

/-- If the access misses the TLB then there is a slot to load, whose read-only bit happens to
be clear; and if the page is not in memory then a frame of the machine is free and the
page's place in the executable is not before its start. -/
def Served (s : System) (a : Access) : Prop :=
  lookup s.tlb a.page = none →
    (∃ slot ∈ slotToLoad s.tlb s.invertedPageTable, (s.tlb slot).readOnly = false ∧
      ((s.tlb slot).valid = true → 0 ≤ (s.tlb slot).virtualPage ∧
        (s.tlb slot).virtualPage < (s.spaces a.space).numPages)) ∧
    (((s.spaces a.space).pageTable a.page).virtualPage = -1 →
      (∃ f < numPhysPages, s.invertedPageTable.physicalPagesBitmap.marked f = false) ∧
      (diskTransfer (s.spaces a.space) a.addr).isOk = true)

theorem Served.frameLeft {s : System} {a : Access} (h : Served s a) : FrameLeft s a :=
  fun hmiss habsent => ((h hmiss).2 habsent).1

/-! ## The simulation relation -/

/-- Frame `f` of the physical memory holds page `v` of the flat memory. -/
def Holds (memory : Bytes) (f : ℕ) (data : Bytes) (v : ℕ) : Prop :=
  Bytes.EqUpTo pageSize (Bytes.window memory (f * pageSize)) (Bytes.window data (v * pageSize))

/-- The flat memory `m` is what `s` makes of address space `c`, the current one, which was
`space` at the start. -/
structure Backed (c : ℕ) (space : AddrSpace) (s : System) (m : LazyMemory) : Prop where
  current : s.currentSpace = c
  numbered : Numbered s
  allocating : Allocating s
  below : FramesBelow numPhysPages s
  agrees : Agrees s
  numPages : s.space.numPages = space.numPages
  ownExecutable : s.space.ownExecutable = space.ownExecutable
  loaded : ∀ v, m.loaded v = true ↔ (s.space.pageTable v).virtualPage ≠ -1
  frame : ∀ v, (s.space.pageTable v).virtualPage ≠ -1 →
    ∃ f : ℕ, (s.space.pageTable v).physicalPage = f ∧
      s.invertedPageTable.physicalPagesBitmap.marked f = true ∧ Holds s.mainMemory f m.data v
  injective : ∀ v w, (s.space.pageTable v).virtualPage ≠ -1 →
    (s.space.pageTable w).virtualPage ≠ -1 →
    (s.space.pageTable v).physicalPage = (s.space.pageTable w).physicalPage → v = w
  /-- A frame that was never handed out is zero. -/
  fresh : ∀ f < numPhysPages, s.invertedPageTable.physicalPagesBitmap.marked f = false →
    ∀ k < pageSize, s.mainMemory (f * pageSize + k) = 0
  writable : ∀ i, (s.tlb i).valid = true → (s.tlb i).readOnly = false

section

variable {c : ℕ} {sp : AddrSpace} {s s' : System} {m : LazyMemory} {a : Access}

theorem Backed.of_same (hb : Backed c sp s m) (hmap : SameMapping s s')
    (htlb : SameTLB s.tlb s'.tlb) : Backed c sp s' m := by
  have hpage : ∀ v, (s'.space.pageTable v).virtualPage = (s.space.pageTable v).virtualPage := by
    intro v
    unfold space
    rw [hmap.currentSpace]
    exact hmap.virtualPage _ v
  have hphys : ∀ v, (s'.space.pageTable v).physicalPage = (s.space.pageTable v).physicalPage := by
    intro v
    unfold space
    rw [hmap.currentSpace]
    exact hmap.physicalPage _ v
  refine ⟨hmap.currentSpace.trans hb.current, numbered_of_same hb.numbered hmap,
    allocating_of_same hb.allocating hmap, framesBelow_of_same hb.below hmap htlb,
    agrees_of_same hb.agrees hmap htlb, ?numPages, ?ownExecutable, fun v => ?loaded,
    fun v hv => ?frame, fun v w hv hw heq => ?injective, fun f hf hclear k hk => ?fresh,
    fun i hvalid => ?writable⟩
  case numPages =>
    rw [← hb.numPages]
    unfold space
    rw [hmap.currentSpace]
    exact hmap.numPages _
  case ownExecutable =>
    rw [← hb.ownExecutable]
    unfold space
    rw [hmap.currentSpace]
    exact hmap.ownExecutable _
  case loaded =>
    rw [hpage]
    exact hb.loaded v
  case frame =>
    rw [hpage] at hv
    rw [hphys, hmap.frames.physicalPagesBitmap, hmap.mainMemory]
    exact hb.frame v hv
  case injective =>
    rw [hpage] at hv hw
    rw [hphys, hphys] at heq
    exact hb.injective v w hv hw heq
  case fresh =>
    rw [hmap.frames.physicalPagesBitmap] at hclear
    rw [hmap.mainMemory]
    exact hb.fresh f hf hclear k hk
  case writable =>
    rw [htlb.valid] at hvalid
    rw [htlb.readOnly]
    exact hb.writable i hvalid

/-! ## Hits -/

/-- The frame of the page of a TLB hit. -/
theorem Backed.frame_of_lookup (hb : Backed c sp s m) {p : ℕ} {i : Fin tlbSize}
    (hlookup : lookup s.tlb p = some i) : ∃ f < numPhysPages,
      (s.tlb i).physicalPage = f ∧ (s.space.pageTable p).virtualPage ≠ -1 ∧
      (s.space.pageTable p).physicalPage = f := by
  obtain ⟨hvalid, hpage⟩ := lookup_some hlookup
  obtain ⟨hres, hframe⟩ := hb.agrees i p hvalid hpage
  obtain ⟨hnonneg, hlt⟩ := hb.below.tlb i hvalid
  obtain ⟨f, hf⟩ := Int.eq_ofNat_of_zero_le hnonneg
  rw [hf] at hlt
  refine ⟨f, by exact_mod_cast hlt, hf, ?_, hframe.trans hf⟩
  rw [hres]
  exact natCast_ne_neg_one p

/-- A TLB hit gives the address in the page's frame. -/
theorem Backed.hit (hb : Backed c sp s m) {i : Fin tlbSize}
    (hlookup : lookup s.tlb a.page = some i) (w : Bool) : ∃ f s',
      s.translate a.addr a.size w = .ok (.ok (f * pageSize + a.addr % pageSize), s') ∧
      Backed c sp s' m ∧ (s'.space.pageTable a.page).virtualPage ≠ -1 ∧
      (s'.space.pageTable a.page).physicalPage = f := by
  obtain ⟨f, hf, htlb, hres, hframe⟩ := hb.frame_of_lookup hlookup
  obtain ⟨t, ht⟩ := updatePage_total (t := s.invertedPageTable) (f := (f : ℤ)) false fun _ =>
    ⟨by omega, by rw [numPhysPagesIPT_eq]; rw [numPhysPages_eq] at hf; omega⟩
  have huse : useEntry (s.tlb i) (a.addr % pageSize) a.size w =
      .ok (.ok (f * pageSize + a.addr % pageSize),
        { s.tlb i with use := true, dirty := (s.tlb i).dirty || w }) := by
    have hunsigned : toUnsigned (s.tlb i).physicalPage = f := by
      rw [htlb, toUnsigned_natCast]
      rw [numPhysPages_eq] at hf
      omega
    have hoff := a.offset_le
    have hend : f * pageSize + a.addr % pageSize + a.size.bytes ≤ memorySize := by
      rw [numPhysPages_eq] at hf
      rw [pageSize_eq] at hoff ⊢
      rw [memorySize_eq]
      omega
    have hwritable : ((s.tlb i).readOnly && w) = false := by
      rw [hb.writable i (lookup_some hlookup).1, Bool.false_and]
    unfold useEntry
    rw [hwritable, hunsigned, if_neg Bool.false_ne_true, if_neg (by omega), if_pos hend]
  have htrans : Translated s a.addr a.size w (.ok (f * pageSize + a.addr % pageSize)) _ :=
    .hit hlookup (by rw [htlb]; exact ht) huse
  obtain ⟨hmap, hsame⟩ := htrans.same
  refine ⟨f, _, (translate_ok_iff a.aligned a.isInt).mpr htrans, hb.of_same hmap hsame, hres,
    hframe⟩

/-! ## Loading a page -/

/-- What `diskTransfer` reads does not depend on the page table. -/
theorem Backed.diskTransfer_eq (hb : Backed c sp s m) (addr : ℤ) :
    diskTransfer s.space addr = diskTransfer sp addr := by
  unfold diskTransfer
  rw [hb.numPages, hb.ownExecutable]

/-- Writing inside another frame and inside another page changes neither. -/
theorem Holds.blit {memory data : Bytes} {f g v w : ℕ} (h : Holds memory f data v) (hf : f ≠ g)
    (hv : v ≠ w) {off n off' n' : ℕ} (hn : off + n ≤ pageSize) (hn' : off' + n' ≤ pageSize)
    (bytes bytes' : Bytes) :
    Holds (Bytes.blit memory (g * pageSize + off) n bytes) f
      (Bytes.blit data (w * pageSize + off') n' bytes') v := by
  intro k hk
  have hfg := LazyMemory.aligned_disjoint (n := pageSize) hf
  have hvw := LazyMemory.aligned_disjoint (n := pageSize) hv
  rw [Bytes.window_blit_disjoint memory bytes (by omega) k hk,
    Bytes.window_blit_disjoint data bytes' (by omega) k hk]
  exact h k hk

/-- The first use of a page, into the free frame `f`. -/
theorem Backed.load (hb : Backed c sp s m) {f n : ℕ} {bytes : Bytes}
    (hmiss : lookup s.tlb a.page = none)
    (habsent : (s.space.pageTable a.page).virtualPage = -1)
    (hfree : s.invertedPageTable.physicalPagesBitmap.firstClear = some f)
    (hf : f < numPhysPages) (htransfer : diskTransfer s.space a.addr = .ok (n, bytes)) :
    Loaded s a.addr ((s.giveFrame f a.page).install a.page (s.space.pageTable a.page) f n bytes) ∧
    Backed c sp ((s.giveFrame f a.page).install a.page (s.space.pageTable a.page) f n bytes)
      (m.touch pageSize a.page (firstLoaded sp a.addr)) := by
  have hn : n ≤ pageSize := diskTransfer_le htransfer
  have hloaded : Loaded s a.addr
      ((s.giveFrame f a.page).install a.page (s.space.pageTable a.page) f n bytes) :=
    .fromDisk habsent (hb.allocating.isLoadedInSwap hfree _) (.free hfree) htransfer
      (fits_of_isFrame hf hn)
  obtain ⟨-, hclear⟩ := BitMap.firstClear_spec hfree
  have hkept := hloaded.kept
  have htable := install_pageTable (s.giveFrame f a.page) a.page (s.space.pageTable a.page) f n
    bytes
  -- the frames of the pages in memory are marked
  have hother : ∀ v, (s.space.pageTable v).virtualPage ≠ -1 →
      (s.space.pageTable v).physicalPage ≠ f := by
    intro v hv heq
    obtain ⟨g, hg, hmarked, -⟩ := hb.frame v hv
    have hgf : g = f := by
      have : (g : ℤ) = f := hg.symm.trans heq
      exact_mod_cast this
    rw [hgf, hclear] at hmarked
    cases hmarked
  -- the reference memory has not touched the page yet, so it loads the same bytes now
  have hunused : m.loaded a.page = false := by
    rw [Bool.eq_false_iff]
    intro h
    exact (hb.loaded a.page).mp h habsent
  have hcontents : firstLoaded sp a.addr = Bytes.blit (fun _ => 0) 0 n bytes := by
    rw [firstLoaded, ← hb.diskTransfer_eq, htransfer]
  have hmemory : ((s.giveFrame f a.page).install a.page (s.space.pageTable a.page) f n
      bytes).mainMemory = Bytes.blit s.mainMemory (f * pageSize + 0) n bytes := by
    show Bytes.blit s.mainMemory ((f : ℤ) * (pageSize : ℤ)).toNat n bytes = _
    rw [← Int.natCast_mul, Int.toNat_natCast, Nat.add_zero]
  have hmarks : ∀ g, ((s.giveFrame f a.page).install a.page (s.space.pageTable a.page) f n
      bytes).invertedPageTable.physicalPagesBitmap.marked g =
      if g = f then true else s.invertedPageTable.physicalPagesBitmap.marked g :=
    fun g => BitMap.markBit_marked _ f g
  have hbelow := hloaded.framesBelow hb.allocating hb.below fun _ => ⟨f, hf, hfree⟩
  rw [LazyMemory.touch_of_not_loaded hunused]
  refine ⟨hloaded, hkept.1.trans hb.current, hloaded.numbered hb.numbered,
    hloaded.allocating hb.allocating, hbelow.1, hloaded.agrees hb.agrees hmiss,
    hkept.2.1.trans hb.numPages, hkept.2.2.1.trans hb.ownExecutable, fun v => ?loaded,
    fun v hv => ?frame, fun v w hv hw heq => ?injective, fun g hg hmark k hk => ?fresh, hb.writable⟩
  case loaded =>
    -- the page is in memory from now on
    rw [htable]
    by_cases hv : v = a.page
    · rw [hv]
      simp only [Function.update_self, true_iff]
      exact natCast_ne_neg_one a.page
    · simp only [Function.update_of_ne hv]
      exact hb.loaded v
  case frame =>
    -- the new frame holds what was loaded, and the frames of the others were not written
    rw [htable] at hv ⊢
    rw [hmemory]
    by_cases hvp : v = a.page
    · rw [hvp, Function.update_self]
      refine ⟨f, rfl, by rw [hmarks, if_pos rfl], fun k hk => ?_⟩
      rw [Bytes.window_blit_self _ _ _ _ k hk, hcontents]
      by_cases hkn : k < n
      · rw [Nat.add_zero, Bytes.window_blit_self _ _ _ _ k hkn,
          Bytes.blit_of_mem (by omega) (by omega), Nat.sub_zero]
      · rw [Bytes.window, Bytes.blit_of_ge (by omega), Bytes.blit_of_ge (by omega)]
        exact hb.fresh f hf hclear k hk
    · rw [Function.update_of_ne hvp] at hv ⊢
      obtain ⟨g, hg, hmarked, hholds⟩ := hb.frame v hv
      have hgf : g ≠ f := by
        rintro rfl
        exact hother v hv hg
      refine ⟨g, hg, by rw [hmarks, if_neg hgf]; exact hmarked, ?_⟩
      have hoff : 0 + n ≤ pageSize := by omega
      have hoff' : 0 + pageSize ≤ pageSize := by omega
      exact hholds.blit hgf hvp hoff hoff' bytes (firstLoaded sp a.addr)
  case injective =>
    -- the frame was clear, so no other page has it
    rw [htable] at hv hw heq
    by_cases hvp : v = a.page
    · by_cases hwp : w = a.page
      · rw [hvp, hwp]
      · rw [hvp, Function.update_self, Function.update_of_ne hwp] at heq
        rw [Function.update_of_ne hwp] at hw
        exact absurd heq.symm (hother w hw)
    · rw [Function.update_of_ne hvp] at hv heq
      by_cases hwp : w = a.page
      · rw [hwp, Function.update_self] at heq
        exact absurd heq (hother v hv)
      · rw [Function.update_of_ne hwp] at hw heq
        exact hb.injective v w hv hw heq
  case fresh =>
    -- a frame that is still clear is not the one that was written
    rw [hmarks] at hmark
    split at hmark
    · cases hmark
    · rename_i hgf
      rw [hmemory]
      have hdisj := LazyMemory.aligned_disjoint (n := pageSize) hgf
      have hsame := Bytes.window_blit_disjoint s.mainMemory bytes (n := n)
        (show g * pageSize + pageSize ≤ f * pageSize + 0 ∨ f * pageSize + 0 + n ≤ g * pageSize
          by omega) k hk
      exact hsame.trans (hb.fresh g hg hmark k hk)

/-! ## Page faults -/

theorem Backed.fill (hb : Backed c sp s m) {slot : Fin tlbSize} {p : ℕ}
    (hpage : (s.space.pageTable p).virtualPage ≠ -1) (hro : (s.tlb slot).readOnly = false)
    (hmap : SameMapping s s')
    (htlb : s'.tlb = Function.update s.tlb slot (s.translationOf slot p)) : Backed c sp s' m := by
  have hrest : Backed c sp { s' with tlb := s.tlb } m :=
    hb.of_same ⟨hmap.mainMemory, hmap.memorySwap, hmap.currentSpace, hmap.frames,
      hmap.numPages, hmap.ownExecutable, hmap.virtualPage, hmap.physicalPage⟩ (.refl _)
  refine ⟨hrest.current, hrest.numbered, allocating_of_same hb.allocating hmap,
    framesBelow_of_fill hb.below hpage hmap htlb, agrees_of_fill hb.agrees hb.numbered hmap htlb,
    hrest.numPages, hrest.ownExecutable, hrest.loaded, hrest.frame, hrest.injective, hrest.fresh,
    fun i hvalid => ?_⟩
  rw [htlb, Function.update_apply] at hvalid ⊢
  split
  · exact hro
  · rename_i hi
    rw [if_neg hi] at hvalid
    exact hb.writable i hvalid

/-- The first half of the handler, for an access that is served. -/
theorem Backed.loads (hb : Backed c sp s m) (hcur : s.currentSpace = a.space)
    (hserved : Served s a) (hmiss : lookup s.tlb a.page = none) :
    ∃ s₁, Loaded s a.addr s₁ ∧
      Backed c sp s₁ (m.touch pageSize a.page (firstLoaded sp a.addr)) ∧
      (s₁.space.pageTable a.page).virtualPage ≠ -1 ∧ s₁.tlb = s.tlb ∧
      slotToLoad s₁.tlb s₁.invertedPageTable = slotToLoad s.tlb s.invertedPageTable := by
  by_cases habsent : (s.space.pageTable a.page).virtualPage = -1
  · have habsent' : ((s.spaces a.space).pageTable a.page).virtualPage = -1 := hcur ▸ habsent
    obtain ⟨f, hf, hfree⟩ := hserved.frameLeft.firstClear hb.allocating hmiss habsent'
    have hok := ((hserved hmiss).2 habsent').2
    rw [← hcur] at hok
    change (diskTransfer s.space a.addr).isOk = true at hok
    cases htransfer : diskTransfer s.space a.addr with
    | error e =>
      rw [htransfer] at hok
      cases hok
    | ok transfer =>
      obtain ⟨n, bytes⟩ := transfer
      obtain ⟨hloaded, hb'⟩ := hb.load hmiss habsent hfree hf htransfer
      refine ⟨_, hloaded, hb', ?_, rfl, rfl⟩
      rw [install_pageTable, Function.update_self]
      exact natCast_ne_neg_one a.page
  · refine ⟨s, .resident habsent, ?_, habsent, rfl, rfl⟩
    rw [LazyMemory.touch_of_loaded ((hb.loaded a.page).mpr habsent)]
    exact hb

/-- A page fault that is served leaves the page in the TLB. -/
theorem Backed.fault (hb : Backed c sp s m) (hcur : s.currentSpace = a.space)
    (hserved : Served s a) (hrange : a.page < s.space.numPages)
    (hmiss : lookup s.tlb a.page = none) :
    ∃ s' i, s.pageFaultException a.addr = .ok s' ∧
      Backed c sp s' (m.touch pageSize a.page (firstLoaded sp a.addr)) ∧
      lookup s'.tlb a.page = some i := by
  obtain ⟨s₁, hloaded, hb₁, hres, htlb₁, hslots⟩ := hb.loads hcur hserved hmiss
  obtain ⟨slot, hslot, hro, hold⟩ := (hserved hmiss).1
  rw [← hcur] at hold
  have hrange₁ : a.page < s₁.space.numPages := by rw [hloaded.kept.2.1]; exact hrange
  have hindexed : Indexed s₁ a.page := by
    have hle : (numPhysPages : ℤ) ≤ numPhysPagesIPT := by decide
    refine fun _ => ⟨?_, fun i hvalid => ?_⟩
    · obtain ⟨h0, h1⟩ := hb₁.below.resident s₁.currentSpace a.page hres
      exact ⟨h0, h1.trans_le hle⟩
    · obtain ⟨h0, h1⟩ := hb₁.below.tlb i hvalid
      exact ⟨h0, h1.trans_le hle⟩
  have hok : SlotOk s₁.space.numPages s₁.tlb s₁.invertedPageTable := by
    refine ⟨slot, by rw [hslots]; exact hslot, ?_⟩
    rw [htlb₁, hloaded.kept.2.1]
    exact hold
  obtain ⟨s', hfill⟩ := (fillTLB_iff hrange₁ hindexed).mpr hok
  obtain ⟨slot', hslot', hmap, htlb⟩ := fillTLB_slot hindexed hfill
  -- the slot loaded is the one the condition speaks of
  have hslots' : slot' = slot := by
    rw [hslots] at hslot'
    exact Option.mem_unique hslot' hslot
  have hro' : (s₁.tlb slot').readOnly = false := by rw [hslots', htlb₁]; exact hro
  have hentry : s'.tlb slot' = s₁.translationOf slot' a.page := by
    rw [htlb, Function.update_self]
  have hhit : lookup s'.tlb a.page ≠ none := by
    intro hnone
    refine lookup_none_iff.mp hnone slot' (by rw [hentry]; rfl) ?_
    rw [hentry]
    exact (hb₁.numbered s₁.currentSpace a.page).resolve_left hres
  obtain ⟨i, hi⟩ := Option.ne_none_iff_exists'.mp hhit
  exact ⟨s', i, (hloaded.complete hb.numbered hb.allocating.swapBits hrange).trans hfill,
    hb₁.fill hres hro' hmap htlb, hi⟩

/-! ## Accesses -/

/-- An access that is served gets the address of its bytes in the page's frame. -/
theorem Backed.resolves (hb : Backed c sp s m) (hcur : s.currentSpace = a.space)
    (hserved : Served s a) (hrange : a.page < s.space.numPages) :
    ∃ f s', s.resolve a.addr a.size a.write.isSome =
        .ok (some (f * pageSize + a.addr % pageSize), s') ∧
      Backed c sp s' (m.touch pageSize a.page (firstLoaded sp a.addr)) ∧
      (s'.space.pageTable a.page).virtualPage ≠ -1 ∧
      (s'.space.pageTable a.page).physicalPage = f := by
  unfold resolve
  cases hlookup : lookup s.tlb a.page with
  | some i =>
    obtain ⟨f, s', htrans, hb', hres, hframe⟩ := hb.hit hlookup a.write.isSome
    obtain ⟨-, -, -, hres₀, -⟩ := hb.frame_of_lookup hlookup
    rw [LazyMemory.touch_of_loaded ((hb.loaded a.page).mpr hres₀)]
    refine ⟨f, s', ?_, hb', hres, hframe⟩
    rw [htrans]
    rfl
  | none =>
    have hmiss : s.translate a.addr a.size a.write.isSome = .ok (.error .pageFault, s) :=
      (translate_ok_iff a.aligned a.isInt).mpr (.miss hlookup)
    obtain ⟨s₁, i, hpf, hb₁, hhit⟩ := hb.fault hcur hserved hrange hlookup
    obtain ⟨f, s', htrans, hb', hres, hframe⟩ := hb₁.hit hhit true
    refine ⟨f, s', ?_, hb', hres, hframe⟩
    rw [hmiss, ok_bind]
    show (s.pageFaultException a.addr >>= fun s => s.translate a.addr a.size true >>= _) = _
    rw [hpf, ok_bind, htrans]
    rfl

/-- The state with other contents of `mainMemory`. -/
def withMemory (s : System) (memory : Bytes) : System := { s with mainMemory := memory }

/-- Writing to a page in memory is writing to the flat memory. -/
theorem Backed.write (hb : Backed c sp s m) {f : ℕ} (bytes : Bytes)
    (hres : (s.space.pageTable a.page).virtualPage ≠ -1)
    (hframe : (s.space.pageTable a.page).physicalPage = f) :
    Backed c sp (s.withMemory (Bytes.blit s.mainMemory (f * pageSize + a.addr % pageSize)
      a.size.bytes bytes)) (m.write a.addr a.size.bytes bytes) := by
  have hoff := a.offset_le
  obtain ⟨g, hg, hmarked, hholds⟩ := hb.frame a.page hres
  have hgf : g = f := by
    have : (g : ℤ) = f := hg.symm.trans hframe
    exact_mod_cast this
  rw [hgf] at hmarked hholds
  have halloc := hb.allocating
  refine ⟨hb.current, hb.numbered, ⟨halloc.numBits, halloc.swapBits, halloc.unused⟩,
    ⟨hb.below.resident, hb.below.tlb⟩, hb.agrees, hb.numPages, hb.ownExecutable, hb.loaded,
    fun v hv => ?frame, hb.injective, fun g hg hclear k hk => ?fresh, hb.writable⟩
  case frame =>
    obtain ⟨fv, hfv, hmarkedv, hholdsv⟩ := hb.frame v hv
    refine ⟨fv, hfv, hmarkedv, ?_⟩
    show Holds (Bytes.blit s.mainMemory (f * pageSize + a.addr % pageSize) a.size.bytes bytes) fv
      (Bytes.blit m.data a.addr a.size.bytes bytes) v
    have haddr : Bytes.blit m.data a.addr a.size.bytes bytes =
        Bytes.blit m.data (a.page * pageSize + a.addr % pageSize) a.size.bytes bytes := by
      rw [← a.addr_eq]
    rw [haddr]
    by_cases hvp : v = a.page
    · -- the same bytes of the frame and of the page
      have hfvf : fv = f := by
        rw [hvp, hframe] at hfv
        exact_mod_cast hfv.symm
      intro k hk
      have hk' := hholds k hk
      rw [hfvf, hvp]
      simp only [Bytes.window, Bytes.blit] at hk' ⊢
      rw [hk']
      have hsub : f * pageSize + k - (f * pageSize + a.addr % pageSize) =
          a.page * pageSize + k - (a.page * pageSize + a.addr % pageSize) := by omega
      rw [hsub]
      refine if_congr ?_ rfl rfl
      omega
    · have hne : fv ≠ f := by
        rintro rfl
        -- another page is in another frame
        exact hvp (hb.injective v a.page hv hres (hfv.trans hframe.symm))
      exact hholdsv.blit hne hvp hoff hoff bytes bytes
  case fresh =>
    have hne : g ≠ f := by
      rintro rfl
      have hclear : s.invertedPageTable.physicalPagesBitmap.marked g = false := hclear
      rw [hmarked] at hclear
      cases hclear
    have hdisj := LazyMemory.aligned_disjoint (n := pageSize) hne
    have hsame := Bytes.window_blit_disjoint s.mainMemory bytes (n := a.size.bytes)
      (show g * pageSize + pageSize ≤ f * pageSize + a.addr % pageSize ∨
        f * pageSize + a.addr % pageSize + a.size.bytes ≤ g * pageSize by omega) k hk
    exact hsame.trans (hb.fresh g hg hclear k hk)

/-- An access that is served is answered as the flat memory answers it. -/
theorem Backed.access (hb : Backed c sp (s.switchTo c) m) (hspace : a.space = c)
    (hserved : Served s a) (hrange : a.addr < sp.numPages * pageSize) :
    ∃ s', s.access a = .ok ((flatAccess sp m a).1, s') ∧
      Backed c sp (s'.switchTo c) (flatAccess sp m a).2 := by
  have hpage : a.page < (s.switchTo c).space.numPages := by
    rw [hb.numPages]
    exact Nat.div_lt_of_lt_mul (by rw [Nat.mul_comm]; exact hrange)
  obtain ⟨f, s₁, hresolve, hb₁, hres, hframe⟩ :=
    hb.resolves (a := a) hspace.symm hserved hpage
  -- the address space is current already, so the switch does nothing
  have hcur : ∀ {s : System} {m : LazyMemory}, Backed c sp s m → s.switchTo c = s := by
    intro s m hb
    rw [← hb.current]
    rfl
  subst hspace
  cases hw : a.write with
  | none =>
    rw [hw] at hresolve
    have hread : s.access a = .ok
        (.value (readValue s₁.mainMemory (f * pageSize + a.addr % pageSize) a.size), s₁) := by
      unfold System.access readMem
      rw [hw]
      show ((s.switchTo a.space).resolve a.addr a.size false >>= _) >>= _ = _
      rw [show false = (none : Option ℤ).isSome from rfl, hresolve]
      rfl
    -- the frame and the page have the same bytes there
    have hvalue : readValue s₁.mainMemory (f * pageSize + a.addr % pageSize) a.size =
        readValue (m.touch pageSize a.page (firstLoaded sp a.addr)).data a.addr a.size := by
      obtain ⟨g, hg, -, hholds⟩ := hb₁.frame a.page hres
      have hgf : g = f := by
        have : (g : ℤ) = f := hg.symm.trans hframe
        exact_mod_cast this
      refine readValue_congr fun k hk => ?_
      have hoff := a.offset_le
      have hk' := hholds (a.addr % pageSize + k) (by omega)
      rw [hgf] at hk'
      nth_rewrite 3 [a.addr_eq]
      rw [Nat.add_assoc, Nat.add_assoc]
      exact hk'
    have hflat : flatAccess sp m a = (.value (readValue (m.touch pageSize a.page
        (firstLoaded sp a.addr)).data a.addr a.size),
        m.touch pageSize a.page (firstLoaded sp a.addr)) := by
      rw [flatAccess, hw]
    rw [hvalue] at hread
    rw [hflat]
    exact ⟨_, hread, by rw [hcur hb₁]; exact hb₁⟩
  | some v =>
    rw [hw] at hresolve
    have hwrite : s.access a = .ok (.wrote, s₁.withMemory (Bytes.blit s₁.mainMemory
        (f * pageSize + a.addr % pageSize) a.size.bytes (valueBytes v))) := by
      unfold System.access writeMem
      rw [hw]
      show ((s.switchTo a.space).resolve a.addr a.size true >>= _) >>= _ = _
      rw [show true = (some v).isSome from rfl, hresolve]
      rfl
    -- the frame and the page take the same bytes
    have hb₂ := hb₁.write (valueBytes v) hres hframe
    have hflat : flatAccess sp m a = (.wrote, (m.touch pageSize a.page
        (firstLoaded sp a.addr)).write a.addr a.size.bytes (valueBytes v)) := by
      rw [flatAccess, hw]
    rw [hflat]
    exact ⟨_, hwrite, by rw [hcur hb₂]; exact hb₂⟩

end

/-! ## Every run -/

theorem Booted.backed {s : System} (hboot : Booted s) (c : ℕ) :
    Backed c (s.spaces c) (s.switchTo c) LazyMemory.empty where
  current := rfl
  numbered := hboot.numbered.switchTo c
  allocating := hboot.allocating.switchTo c
  below := (Booted.framesBelow hboot).switchTo c
  agrees := hboot.agrees c
  numPages := rfl
  ownExecutable := rfl
  loaded v := by
    simp [LazyMemory.empty, hboot.absent c v]
  frame v hv := absurd (hboot.absent c v) hv
  injective v w hv := absurd (hboot.absent c v) hv
  fresh f hf hclear k hk := by
    show s.mainMemory _ = 0
    rw [hboot.mainMemory]
  writable i hvalid := by
    rw [switchTo_tlb, hboot.tlb i] at hvalid
    cases hvalid

/-- In every run of one address space all of whose accesses are served, the program sees the
flat memory: no access fails, and every read returns what the flat memory has. -/
theorem run_transparent {s : System} {as : List Access} {c : ℕ} (hboot : Booted s)
    (hone : ∀ a ∈ as, a.space = c ∧ a.addr < (s.spaces c).numPages * pageSize)
    (hserved : Along step Served s as) :
    s.replies as = .ok (flatReplies (s.spaces c) as) := by
  refine Along.simulation (R := fun s' m => Backed c (s.spaces c) (s'.switchTo c) m) ?_ ?_
    (hboot.backed c) ((Along.of_forall hone).and hserved)
  · intro s a reply s' h
    rw [step, h]
    rfl
  · rintro s' m a hb ⟨⟨hspace, hrange⟩, hserved⟩
    exact hb.access hspace hserved hrange

instance (s : System) (a : Access) : Decidable (Served s a) := by
  unfold Served
  infer_instance

/-- A program of four code pages that writes to the second and reads it again after four
other pages have been through the TLB. -/
theorem run_transparent_six :
    (boot .leastUsed fun _ => .program (List.replicate 512 7) 4096).replies
      [Access.read 0 1, Access.writeTo 0 1 5, Access.read 0 0, Access.read 0 2, Access.read 0 3,
        Access.read 0 9, Access.read 0 1] =
      .ok [.value 7, .wrote, .value 7, .value 7, .value 7, .value 0, .value 5] := by
  rw [run_transparent (c := 0) (boot_booted fun _ => by decide +kernel) (by decide +kernel)
    (by decide +kernel)]
  decide +kernel

/-- The thirty-third page of a program gets a frame the machine does not have, and reading
it fails. -/
theorem run_not_transparent : ¬ ∀ (s : System) (as : List Access) (c : ℕ), Booted s →
    (∀ a ∈ as, a.space = c ∧ a.addr < (s.spaces c).numPages * pageSize) →
    s.replies as = .ok (flatReplies (s.spaces c) as) := by
  intro h
  have heq := h (longProgram .leastUsed) ((List.range 33).map (Access.read 0)) 0
    (longProgram_booted _) (by decide +kernel)
  have hreplies : (longProgram .leastUsed).replies ((List.range 33).map (Access.read 0)) ≠
      .ok (flatReplies ((longProgram .leastUsed).spaces 0)
        ((List.range 33).map (Access.read 0))) := by decide +kernel
  exact hreplies heq

end System
end NachOS
