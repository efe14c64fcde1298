import NachOS.VM.Bookkeeping

/-!
# Handing a frame over

With no frame free, `getPhysicalPage` asks the policy for a frame and calls
`swap(positionToSwap, virtualPageTable[positionToSwap])`. The parameters of `swap` are the page
and the frame, in this order, so that the page taken out of the tables is the one numbered like
the frame, and the bytes stored are those of the frame numbered like the page. This file says
when that comes to the same, and what a fault leaves behind when swap has no slot left.
-/

namespace NachOS

namespace InvertedPageTable

/-- The queues do not forget pages. -/
theorem getEntryToReplace_virtualPageTable {ipt ipt' : InvertedPageTable} {g : ℤ}
    (halg : ipt.replacementAlgorithm ≠ .leastUsed) (h : ipt.getEntryToReplace = .ok (g, ipt')) :
    ipt'.virtualPageTable = ipt.virtualPageTable := by
  unfold getEntryToReplace at h
  split at h
  · split at h
    · cases h
    · cases h
      rfl
  · obtain ⟨⟨page, queue⟩, -, h⟩ := PartialRun.bind_ok_iff.mp h
    cases h
    rfl
  · rename_i hleast
    exact absurd hleast halg

end InvertedPageTable

namespace System

open PartialRun

/-! ## A run that fills memory and swap

Every program is one of uninitialised data only, so that loading a page transfers nothing. Page
`0` is read so often that the second-chance queue begins with its frame `0` for as long as the
run takes: the TLB slot replaced and the frame evicted are always number `0`. -/

/-- An executable of 120 pages of uninitialised data, and 8 of stack. -/
def bssProgram : HostFile := .program [] (120 * 128)

def bssBoot : System := boot .secondChance fun _ => bssProgram

theorem bssBoot_booted : Booted bssBoot := boot_booted fun _ => by decide +kernel

/-- No byte of it is in the file. -/
theorem diskTransfer_bss {space : AddrSpace} {p : ℕ} (hnum : space.numPages = 128)
    (hexe : space.ownExecutable = bssProgram) (hp : p < 128) :
    ∃ bytes, diskTransfer space (p * pageSize : ℕ) = .ok (0, bytes) := by
  have hpages : ∀ p < 128, ∃ r, diskTransfer ⟨fun _ => .absent, 128, bssProgram⟩
      (p * pageSize : ℕ) = .ok r ∧ r.1 = 0 := by decide +kernel
  obtain ⟨⟨n, bytes⟩, htransfer, rfl⟩ := hpages p hp
  refine ⟨bytes, ?_⟩
  rw [← htransfer]
  unfold diskTransfer
  rw [hnum, hexe]

/-- Second chance picks frame `0`. -/
theorem getTLBEntryToReplace_zero {t : InvertedPageTable} {tlb : Fin tlbSize → TranslationEntry}
    {queue : List (ℤ × Bool)} (halg : t.replacementAlgorithm = .secondChance)
    (hpick : InvertedPageTable.secondChance t.secondChanceQueue = .ok (0, queue)) :
    t.getTLBEntryToReplace tlb = .ok (0, { t with secondChanceQueue := queue }) := by
  obtain ⟨uses, pages, fifo, counter, second, bitmap, algorithm⟩ := t
  subst halg
  unfold InvertedPageTable.getTLBEntryToReplace
  dsimp only at hpick ⊢
  rw [hpick]
  rfl

theorem getEntryToReplace_zero {t : InvertedPageTable} {queue : List (ℤ × Bool)}
    (halg : t.replacementAlgorithm = .secondChance)
    (hpick : InvertedPageTable.secondChance t.secondChanceQueue = .ok (0, queue)) :
    t.getEntryToReplace = .ok (0, { t with secondChanceQueue := queue }) := by
  obtain ⟨uses, pages, fifo, counter, second, bitmap, algorithm⟩ := t
  subst halg
  unfold InvertedPageTable.getEntryToReplace
  dsimp only at hpick ⊢
  rw [hpick]
  rfl

/-- It is the turn of the first entry. -/
theorem secondChance_replicate {z : ℕ} (hz : 0 < z) (rest : List (ℤ × Bool)) :
    InvertedPageTable.secondChance (List.replicate z (0, false) ++ rest) =
      .ok (0, List.replicate (z - 1) (0, false) ++ (rest ++ [(0, true)])) := by
  obtain ⟨y, rfl⟩ : ∃ y, z = y + 1 := ⟨z - 1, by omega⟩
  rw [List.replicate_succ, List.cons_append, InvertedPageTable.secondChance,
    InvertedPageTable.secondChanceLoop, if_pos rfl, List.append_assoc, Nat.add_sub_cancel]

/-- Passing over entries whose bits are set. -/
theorem secondChanceLoop_set (queue : List (ℤ × Bool)) : ∀ (fuel : ℕ) (f : ℤ)
    (passed : List (ℤ × Bool)), queue.length < fuel → (∀ entry ∈ queue, entry.2 = true) →
      InvertedPageTable.secondChanceLoop fuel (queue ++ (f, false) :: passed) =
        .ok (f, passed ++ queue.map (fun entry => (entry.1, false)) ++ [(f, true)]) := by
  induction queue with
  | nil =>
    intro fuel f passed hfuel _
    obtain ⟨n, rfl⟩ : ∃ n, fuel = n + 1 := ⟨fuel - 1, by rw [List.length_nil] at hfuel; omega⟩
    rw [List.nil_append, InvertedPageTable.secondChanceLoop, if_pos rfl, List.map_nil,
      List.append_nil]
  | cons entry queue ih =>
    intro fuel f passed hfuel hset
    obtain ⟨page, used⟩ := entry
    obtain rfl : used = true := hset (page, used) List.mem_cons_self
    obtain ⟨n, rfl⟩ : ∃ n, fuel = n + 1 := ⟨fuel - 1, by omega⟩
    rw [List.cons_append, InvertedPageTable.secondChanceLoop, if_neg (by simp), List.append_assoc,
      List.cons_append, ih n f (passed ++ [(page, false)]) (by simpa using hfuel)
        fun entry hentry => hset entry (List.mem_cons_of_mem _ hentry), List.map_cons,
      List.append_assoc passed, List.singleton_append]

/-- When all bits are set, the first entry is picked and the other bits are cleared. -/
theorem secondChance_set {f : ℤ} {queue : List (ℤ × Bool)}
    (hset : ∀ entry ∈ queue, entry.2 = true) :
    InvertedPageTable.secondChance ((f, true) :: queue) =
      .ok (f, queue.map (fun entry => (entry.1, false)) ++ [(f, true)]) := by
  rw [InvertedPageTable.secondChance, List.length_cons, InvertedPageTable.secondChanceLoop,
    if_neg (by simp), secondChanceLoop_set queue (queue.length + 1) f [] (by omega) hset,
    List.nil_append]

/-- The programs run under second chance; slot `0` has page `q` and the others have pages from
32 to 34. -/
structure Settled (q : ℕ) (s : System) : Prop where
  numbered : Numbered s
  algorithm : s.invertedPageTable.replacementAlgorithm = .secondChance
  allocating : Allocating s
  numPages : ∀ c, (s.spaces c).numPages = 128
  executable : ∀ c, (s.spaces c).ownExecutable = bssProgram
  valid : ∀ i, (s.tlb i).valid = true
  first : (s.tlb 0).virtualPage = q
  others : ∀ i, i ≠ 0 → 32 ≤ (s.tlb i).virtualPage ∧ (s.tlb i).virtualPage < 35

/-- Besides, the queue begins with `z` entries for frame `0`. -/
structure Rotating (z q : ℕ) (s : System) : Prop extends Settled q s where
  queue : ∃ rest, s.invertedPageTable.secondChanceQueue = List.replicate z (0, false) ++ rest

theorem Settled.lookup_none {q p : ℕ} {s : System} (h : Settled q s) (hq : p ≠ q)
    (hp : p < 32 ∨ 35 ≤ p) : lookup s.tlb p = none := by
  refine lookup_none_iff.mpr fun i _ hpage => ?_
  by_cases hi : i = 0
  · rw [hi, h.first] at hpage
    omega
  · have := h.others i hi
    omega

theorem read_page {c p : ℕ} (hp : p < 128) : (Access.read c p).addr = p * pageSize ∧
    (Access.read c p).page = p := by
  have haddr : (Access.read c p).addr = p * pageSize := by
    show p % 2 ^ 24 * pageSize = _
    rw [Nat.mod_eq_of_lt (by omega)]
  refine ⟨haddr, ?_⟩
  rw [Access.page, haddr]
  exact Nat.mul_div_cancel p (by decide)

/-- What a fault leaves as it was once its frame has been found, `s₁` being the state then. -/
structure Faulted (s₁ s' : System) (c p : ℕ) : Prop where
  frames : SameFrames s₁.invertedPageTable s'.invertedPageTable
  memorySwap : s'.memorySwap = s₁.memorySwap
  others : ∀ b q, (b ≠ c ∨ q ≠ p) →
    ((s'.spaces b).pageTable q).virtualPage = ((s₁.spaces b).pageTable q).virtualPage

/-- The page is in frame `f`, but not in the TLB; `s₁` is the state once the frame was found. -/
structure Installed (s s₁ s₂ : System) (c p : ℕ) (f : ℤ) : Prop where
  loaded : Loaded (s.switchTo c) (p * pageSize) s₂
  install : ∃ bytes, s₂ = s₁.install p (s₁.space.pageTable p) f 0 bytes

section Refill

variable {z q c p : ℕ} {s s₁ s₂ : System} {f : ℤ} {rest : List (ℤ × Bool)}

/-- The first half of the handler. -/
theorem Settled.installed (h : Settled q s) (hp : p < 128)
    (habsent : ((s.spaces c).pageTable p).virtualPage = -1)
    (hunmarked : s.memorySwap.isLoadedInSwap p = false)
    (hframe : FrameFor (s.switchTo c) p f s₁) : ∃ s₂, Installed s s₁ s₂ c p f := by
  obtain ⟨bytes, htransfer⟩ := diskTransfer_bss (h.numPages c) (h.executable c) hp
  have hdiv : p * pageSize / pageSize = p := Nat.mul_div_cancel p (by decide)
  have habsent' : ((s.switchTo c).space.pageTable (p * pageSize / pageSize)).virtualPage = -1 := by
    rw [hdiv]
    exact habsent
  have hunmarked' : (s.switchTo c).memorySwap.isLoadedInSwap (p * pageSize / pageSize : ℕ) =
      false := by
    rw [hdiv]
    exact hunmarked
  have hframe' : FrameFor (s.switchTo c) (p * pageSize / pageSize : ℕ) f s₁ := by
    rw [hdiv]
    exact hframe
  have hloaded := Loaded.fromDisk habsent' hunmarked' hframe' htransfer (.inl rfl)
  rw [hdiv] at hloaded
  exact ⟨_, hloaded, bytes, rfl⟩

theorem Installed.same (h : Installed s s₁ s₂ c p f) :
    s₂.invertedPageTable = s₁.invertedPageTable ∧ s₂.tlb = s₁.tlb ∧
      s₂.memorySwap = s₁.memorySwap := by
  obtain ⟨bytes, rfl⟩ := h.install
  exact ⟨rfl, rfl, rfl⟩

theorem Installed.pageTable (h : Installed s s₁ s₂ c p f) :
    s₂.space.pageTable = Function.update s₁.space.pageTable p
      { s₁.space.pageTable p with physicalPage := f, virtualPage := p } := by
  obtain ⟨bytes, rfl⟩ := h.install
  exact install_pageTable _ _ _ _ _ _

/-- The other entries of the page tables. -/
theorem Installed.virtualPage_of_ne (h : Installed s s₁ s₂ c p f)
    (hcur₁ : s₁.currentSpace = c) {b v : ℕ} (hne : b ≠ c ∨ v ≠ p) :
    ((s₂.spaces b).pageTable v).virtualPage = ((s₁.spaces b).pageTable v).virtualPage := by
  by_cases hb : b = c
  · have hcur₂ : s₂.currentSpace = c := h.loaded.kept.1
    have hv : v ≠ p := hne.resolve_left (not_not.mpr hb)
    rw [hb]
    conv_lhs => rw [← hcur₂]
    conv_rhs => rw [← hcur₁]
    show (s₂.space.pageTable v).virtualPage = (s₁.space.pageTable v).virtualPage
    rw [h.pageTable, Function.update_of_ne hv]
  · obtain ⟨bytes, rfl⟩ := h.install
    rw [install_spaces_of_ne _ _ _ _ _ _ (by rw [hcur₁]; exact hb)]

/-- The second half of the handler takes slot `0`. -/
theorem Settled.fillTLB_zero (h : Settled q s) (hinst : Installed s s₁ s₂ c p f) (hp : p < 128)
    (hq : q < 128) (htlb : s₁.tlb = s.tlb)
    (halg : s₁.invertedPageTable.replacementAlgorithm = .secondChance)
    (hpick : InvertedPageTable.secondChance s₁.invertedPageTable.secondChanceQueue =
      .ok (0, List.replicate z (0, false) ++ rest)) :
    ∃ t, s₂.fillTLB p = .ok (s₂.filled 0 p t) ∧ SameFrames s₁.invertedPageTable t ∧
      ∃ rest', t.secondChanceQueue = List.replicate z (0, false) ++ rest' := by
  obtain ⟨hipt, htlb₂, -⟩ := hinst.same
  have hnum : s₂.space.numPages = 128 := hinst.loaded.kept.2.1.trans (h.numPages c)
  have hchosen : s₁.invertedPageTable.getTLBEntryToReplace s.tlb = _ :=
    getTLBEntryToReplace_zero halg hpick
  obtain ⟨t₀, ht₀⟩ : ∃ t₀, { s₁.invertedPageTable with
      secondChanceQueue := List.replicate z (0, false) ++ rest } = t₀ := ⟨_, rfl⟩
  rw [ht₀] at hchosen
  have hslot : SlotFor s₂.tlb s₂.invertedPageTable 0 t₀ := by
    rw [htlb₂, htlb, hipt]
    exact .replaced (freeSlot_eq_none.mpr h.valid) hchosen
  have hreplaceable : Replaceable s₂ 0 := by
    intro _
    rw [htlb₂, htlb, h.first, hnum]
    omega
  have hframes₀ : SameFrames s₁.invertedPageTable t₀ := getTLBEntryToReplace_frames hchosen
  have halg₀ : t₀.replacementAlgorithm = .secondChance :=
    hframes₀.replacementAlgorithm.trans halg
  obtain ⟨t, ht⟩ := updatePage_total (t := t₀) (f := (s₂.space.pageTable p).physicalPage) true
    (by intro hleast; rw [halg₀] at hleast; cases hleast)
  refine ⟨t, (fillTLB_ok_iff (by rw [hnum]; exact hp)).mpr ⟨0, _, t, hslot, hreplaceable, ht, rfl⟩,
    hframes₀.trans (updatePage_frames ht), ?_⟩
  rw [updatePage_secondChance halg₀ ht, ← ht₀, List.append_assoc]
  exact ⟨_, rfl⟩

/-- The translation after the fault finds slot `0`. -/
theorem translated_zero (hp : p < 128) (hvalid : (s.tlb 0).valid = true)
    (hpage : (s.tlb 0).virtualPage = p)
    (halg : s.invertedPageTable.replacementAlgorithm = .secondChance) :
    ∃ r t e, Translated s (Access.read c p).addr (Access.read c p).size true r
        { s with invertedPageTable := t, tlb := Function.update s.tlb 0 e } ∧
      e.valid = true ∧ e.virtualPage = p ∧ SameFrames s.invertedPageTable t ∧
      ∃ more, t.secondChanceQueue = s.invertedPageTable.secondChanceQueue ++ more := by
  have hlookup : lookup s.tlb p = some 0 := by
    have hslots : List.finRange tlbSize = 0 :: (List.finRange tlbSize).tail := by decide
    rw [lookup, hslots, List.find?_cons_of_pos (by simp [hvalid, hpage])]
  obtain ⟨r, e, huse⟩ := useEntry_total (s.tlb 0) (Access.read c p) true
  obtain ⟨t, ht⟩ := updatePage_total (t := s.invertedPageTable) (f := (s.tlb 0).physicalPage) false
    (by intro hleast; rw [halg] at hleast; cases hleast)
  obtain ⟨⟨hv, -, hvalid', -⟩, -, -⟩ := useEntry_ok huse
  refine ⟨r, t, e, .hit ?_ ht huse, hvalid'.trans hvalid, hv.trans hpage, updatePage_frames ht, _,
    updatePage_secondChance halg ht⟩
  rw [← Access.page, (read_page hp).2]
  exact hlookup

/-- A page that gets a frame goes to TLB slot `0`. -/
theorem Settled.refill (h : Settled q s) (hp : p < 128) (hmiss : lookup s.tlb p = none)
    (habsent : ((s.spaces c).pageTable p).virtualPage = -1)
    (hunmarked : s.memorySwap.isLoadedInSwap p = false)
    (hframe : FrameFor (s.switchTo c) p f s₁) (htlb : s₁.tlb = s.tlb)
    (hpick : InvertedPageTable.secondChance s₁.invertedPageTable.secondChanceQueue =
      .ok (0, List.replicate z (0, false) ++ rest))
    (hq : q < 128) :
    ∃ s', s.step (Access.read c p) = .ok s' ∧ Rotating z p s' ∧ Faulted s₁ s' c p := by
  obtain ⟨haddr, hpage⟩ := read_page (c := c) hp
  have halg : s₁.invertedPageTable.replacementAlgorithm = .secondChance :=
    hframe.algorithm.trans h.algorithm
  -- the three steps of the fault: the frame is filled, the TLB slot is filled, the access is
  -- retried
  obtain ⟨s₂, hinst⟩ := h.installed hp habsent hunmarked hframe
  obtain ⟨hipt, htlb₂, hswap⟩ := hinst.same
  obtain ⟨t, hfill, hframes, rest', hqueue⟩ := h.fillTLB_zero hinst hp hq htlb halg hpick
  have hpf := hinst.loaded.complete (h.numbered.switchTo c) h.allocating.swapBits
    (by rw [Nat.mul_div_cancel p (by decide), switchTo_space, h.numPages]; exact hp)
  rw [Nat.mul_div_cancel p (by decide)] at hpf
  -- the entry that has been filled
  have hentry : (s₂.filled 0 p t).tlb = Function.update s.tlb 0 (s₂.translationOf 0 p) := by
    rw [← htlb, ← htlb₂]
    rfl
  have hfirst : ((s₂.filled 0 p t).tlb 0).virtualPage = p := by
    rw [hentry, Function.update_self]
    show (s₂.space.pageTable p).virtualPage = p
    rw [hinst.pageTable, Function.update_self]
  obtain ⟨r, t', e, htranslated, hvalid, hv, hframes', more, hqueue'⟩ :=
    translated_zero (c := c) (s := s₂.filled 0 p t) hp (by rw [hentry, Function.update_self]; rfl)
      hfirst (hframes.replacementAlgorithm.trans halg)
  obtain ⟨m, hstep⟩ := step_of_fault (by rw [hpage]; exact hmiss)
    (by rw [haddr]; exact hpf.trans hfill) htranslated
  -- the last two change neither the frames nor the swap area
  have hsame : SameFrames s₁.invertedPageTable t' := hframes.trans hframes'
  have hmap : SameMapping s₂ (s₂.filled 0 p t) := filled_same (by rw [hipt]; exact hframes)
  have hsettled : Settled p { s₂.filled 0 p t with
      invertedPageTable := t', tlb := Function.update (s₂.filled 0 p t).tlb 0 e
      mainMemory := m } := {
    numbered := step_numbered h.numbered hstep
    algorithm := hsame.replacementAlgorithm.trans halg
    allocating := step_allocating h.numbered h.allocating hstep
    numPages := fun b => (step_programs h.numbered hstep b).1.trans (h.numPages b)
    executable := fun b => (step_programs h.numbered hstep b).2.trans (h.executable b)
    valid := fun i => by
      dsimp only
      rw [Function.update_apply]
      split
      · exact hvalid
      · rename_i hi
        rw [hentry, Function.update_of_ne hi]
        exact h.valid i
    first := by
      dsimp only
      rw [Function.update_self]
      exact hv
    others := fun i hi => by
      dsimp only
      rw [Function.update_of_ne hi, hentry, Function.update_of_ne hi]
      exact h.others i hi }
  have hfaulted : Faulted s₁ { s₂.filled 0 p t with
      invertedPageTable := t', tlb := Function.update (s₂.filled 0 p t).tlb 0 e
      mainMemory := m } c p := {
    frames := hsame
    memorySwap := hmap.memorySwap.trans hswap
    others := fun b v hne => by
      refine (hmap.virtualPage b v).trans ?_
      exact hinst.virtualPage_of_ne hframe.kept.currentSpace hne }
  have hrest : t'.secondChanceQueue = List.replicate z (0, false) ++ (rest' ++ more) := by
    rw [hqueue', ← List.append_assoc, ← hqueue]
    rfl
  exact ⟨_, hstep, ⟨hsettled, _, hrest⟩, hfaulted⟩

end Refill

/-- The first `n` frames are in use, frame `0` by page `0` and the others by the pages from 32
on. -/
structure Filled (n q : ℕ) (s : System) : Prop extends Settled q s where
  marked : ∀ i < numPhysPagesIPT,
    s.invertedPageTable.physicalPagesBitmap.marked i = decide (i < n)
  unused : s.memorySwap = Swap.new
  zero : s.invertedPageTable.virtualPageTable 0 = 0
  absent : ∀ c p, c ≠ 0 ∨ (0 < p ∧ p < 32) ∨ 30 + n < p →
    ((s.spaces c).pageTable p).virtualPage = -1

/-- Besides, the queue begins with entries for frame `0`. -/
structure Filling (n : ℕ) (s : System) : Prop extends Filled n (30 + n) s where
  queue : ∃ rest, s.invertedPageTable.secondChanceQueue =
    List.replicate (205 - n) (0, false) ++ rest

/-- The first `n` bits are set. -/
theorem firstClear_of_marked {b : BitMap} {n : ℕ}
    (hmarked : ∀ i < b.numBits, b.marked i = decide (i < n)) (hn : n < b.numBits) :
    b.firstClear = some n := by
  have hclear : b.marked n = false := by rw [hmarked n hn]; simp
  cases hfirst : b.firstClear with
  | none =>
    rw [BitMap.firstClear_eq_none.mp hfirst n hn] at hclear
    cases hclear
  | some i =>
    obtain ⟨hi, hfalse⟩ := BitMap.firstClear_spec hfirst
    have hle := BitMap.firstClear_le hfirst hclear
    rw [hmarked i hi, decide_eq_false_iff_not] at hfalse
    congr 1
    omega

theorem Filled.step {n z q : ℕ} {s : System} {rest : List (ℤ × Bool)} (h : Filled n q s)
    (hn : 3 < n) (hlt : n < 64) (hq : q ≤ 30 + n)
    (hpick : InvertedPageTable.secondChance s.invertedPageTable.secondChanceQueue =
      .ok (0, List.replicate z (0, false) ++ rest)) :
    ∃ s', s.step (Access.read 0 (31 + n)) = .ok s' ∧ Filled (n + 1) (31 + n) s' ∧
      ∃ rest', s'.invertedPageTable.secondChanceQueue = List.replicate z (0, false) ++ rest' := by
  have hbits := h.allocating.numBits
  have hfree : s.invertedPageTable.physicalPagesBitmap.firstClear = some n := by
    refine firstClear_of_marked (fun i hi => h.marked i (hbits ▸ hi)) ?_
    rw [hbits, numPhysPagesIPT_eq]
    exact hlt
  have hframe : FrameFor (s.switchTo 0) (31 + n : ℕ) n ((s.switchTo 0).giveFrame n (31 + n : ℕ)) :=
    .free hfree
  obtain ⟨s', hstep, hrotating, hfaulted⟩ := h.toSettled.refill (by omega)
    (h.lookup_none (by omega) (by omega)) (h.absent 0 (31 + n) (by omega))
    (h.allocating.isLoadedInSwap hfree _) hframe rfl hpick (by omega)
  refine ⟨s', hstep, ⟨hrotating.toSettled, fun i hi => ?_, ?_, ?_, fun c p hp => ?_⟩,
    hrotating.queue⟩
  · rw [hfaulted.frames.physicalPagesBitmap]
    show (BitMap.markBit _ n).marked i = _
    rw [BitMap.markBit_marked]
    split
    · rename_i hin
      simp [hin]
    · refine (h.marked i hi).trans ?_
      simp only [decide_eq_decide]
      omega
  · exact hfaulted.memorySwap.trans h.unused
  · rw [hfaulted.frames.virtualPageTable]
    show Function.update _ n _ 0 = _
    rw [Function.update_of_ne (by omega)]
    exact h.zero
  · rw [hfaulted.others c p (by omega)]
    exact h.absent c p (by omega)

theorem Filling.run {n : ℕ} {s : System} (h : Filling n s) (hn : 3 < n) (hle : n ≤ 64) :
    ∃ as s', PartialRun.run System.step s as = .ok s' ∧ Filling 64 s' := by
  obtain ⟨k, hk⟩ : ∃ k, 64 = n + k := ⟨64 - n, by omega⟩
  induction k generalizing n s with
  | zero =>
    obtain rfl : n = 64 := by omega
    exact ⟨[], s, rfl, h⟩
  | succ k ih =>
    obtain ⟨rest, hqueue⟩ := h.queue
    have hpick := secondChance_replicate (show 0 < 205 - n by omega) rest
    rw [← hqueue, show 205 - n - 1 = 205 - (n + 1) by omega] at hpick
    obtain ⟨s₁, hstep, hfilled, hrest⟩ := h.toFilled.step hn (by omega) le_rfl hpick
    rw [show 31 + n = 30 + (n + 1) by omega] at hfilled
    obtain ⟨as, s', hrun, h'⟩ := ih ⟨hfilled, hrest⟩ (by omega) (by omega) (by omega)
    exact ⟨_ :: as, s', run_cons_eq_ok.mpr ⟨s₁, hstep, hrun⟩, h'⟩

/-- The page that was loaded last when `i` pages have been put out. -/
def lastPage (i : ℕ) : ℕ := if i = 0 then 94 else 1 + (i - 1) % 31

/-- All frames are in use, frame `0` by the page loaded last, and the first `i` slots of swap
are taken. -/
structure Draining (i : ℕ) (s : System) : Prop extends Rotating (141 - 2 * i) (lastPage i) s where
  full : s.invertedPageTable.physicalPagesBitmap.firstClear = none
  slots : ∀ j < swapPagesQuantity, s.memorySwap.swapBitMap.marked j = decide (j < i)
  markers : ∀ j, s.memorySwap.virtualPages j ≤ 0
  zero : s.invertedPageTable.virtualPageTable 0 = if i = 0 then 0 else (lastPage i : ℤ)
  absent : ∀ c p, 0 < p → p < 32 → i < 31 * c + p → ((s.spaces c).pageTable p).virtualPage = -1

theorem Filling.draining {s : System} (h : Filling 64 s) : Draining 0 s where
  toSettled := h.toSettled
  queue := h.queue
  full := by
    refine BitMap.firstClear_eq_none.mpr fun i hi => ?_
    rw [h.allocating.numBits] at hi
    rw [h.marked i hi]
    rw [numPhysPagesIPT_eq] at hi
    exact decide_eq_true hi
  slots j _ := by
    rw [h.unused]
    rfl
  markers j := by
    rw [h.unused]
    show (-1 : ℤ) ≤ 0
    decide
  zero := h.zero
  absent c p hp hlt _ := h.absent c p (.inr (.inl ⟨hp, hlt⟩))

/-- The pages put out are numbered `0`, like the frame. -/
theorem Draining.unmarked {i p : ℕ} {s : System} (h : Draining i s) (hp : 0 < p) :
    s.memorySwap.isLoadedInSwap p = false := by
  have hnone : s.memorySwap.slotOf p = none := by
    refine Swap.slotOf_eq_none.mpr fun j _ hmarker => ?_
    have := h.markers j
    omega
  rw [Swap.isLoadedInSwap, hnone]
  rfl

theorem Draining.pick {i : ℕ} {s : System} (h : Draining i s) (hi : i ≤ 64) :
    ∃ rest, InvertedPageTable.secondChance s.invertedPageTable.secondChanceQueue =
      .ok (0, List.replicate (140 - 2 * i) (0, false) ++ rest) := by
  obtain ⟨rest, hqueue⟩ := h.queue
  rw [hqueue, secondChance_replicate (by omega), show 141 - 2 * i - 1 = 140 - 2 * i by omega]
  exact ⟨_, rfl⟩

theorem lastPage_bounds (i : ℕ) : 0 < lastPage i ∧ (lastPage i < 32 ∨ i = 0 ∧ lastPage i = 94) := by
  unfold lastPage
  split
  · omega
  · omega

theorem Draining.step {i : ℕ} {s : System} (h : Draining i s) (hi : i < 64) :
    ∃ s', s.step (Access.read (i / 31) (1 + i % 31)) = .ok s' ∧ Draining (i + 1) s' := by
  obtain ⟨hpos, hlast⟩ := lastPage_bounds i
  have hnext : lastPage (i + 1) = 1 + i % 31 := by
    unfold lastPage
    rw [if_neg (by omega), Nat.add_sub_cancel]
  have hne : 1 + i % 31 ≠ lastPage i := by
    unfold lastPage
    split
    · omega
    · omega
  -- each page put out so far has taken the next slot
  have hslot : s.memorySwap.swapBitMap.firstClear = some i := by
    refine firstClear_of_marked (fun j hj => h.slots j (h.allocating.swapBits ▸ hj)) ?_
    rw [h.allocating.swapBits, swapPagesQuantity_eq]
    exact hi
  obtain ⟨rest, hpick⟩ := h.pick hi.le
  have hzero : 0 ≤ s.invertedPageTable.virtualPageTable 0 ∧
      s.invertedPageTable.virtualPageTable 0 < numPhysPages := by
    rw [h.zero, numPhysPages_eq]
    split
    · omega
    · omega
  have hframe : FrameFor (s.switchTo (i / 31)) (1 + i % 31 : ℕ) (0 : ℕ) _ :=
    .evicted h.full (getEntryToReplace_zero h.algorithm hpick) (by decide)
      (by rw [switchTo_space, h.numPages]; decide) hzero hslot
  -- no entry of the TLB is for page 0
  have htlb : dropFromTLB s.tlb ((0 : ℕ) : ℤ) = s.tlb := by
    funext k
    unfold dropFromTLB
    refine if_neg fun hk => ?_
    by_cases hk₀ : k = 0
    · rw [hk₀, h.first] at hk
      omega
    · have := h.others k hk₀
      omega
  -- the queue holds frame 0 often enough for all 64 evictions
  have hpick' := secondChance_replicate (show 0 < 140 - 2 * i by omega) rest
  rw [show 140 - 2 * i - 1 = 139 - 2 * i by omega] at hpick'
  obtain ⟨s', hstep, hrotating, hfaulted⟩ := h.toSettled.refill (by omega)
    (h.lookup_none hne (by omega))
    (h.absent (i / 31) (1 + i % 31) (by omega) (by omega) (by omega)) (h.unmarked (by omega))
    hframe htlb hpick' (by omega)
  refine ⟨s', hstep, ?rotating, ?full, fun j hj => ?slots, fun j => ?markers, ?zero,
    fun c p hp hlt hlater => ?absent⟩
  case rotating =>
    rw [hnext, show 141 - 2 * (i + 1) = 139 - 2 * i by omega]
    exact hrotating
  case full =>
    rw [hfaulted.frames.physicalPagesBitmap]
    exact h.full
  case slots =>
    rw [hfaulted.memorySwap]
    show (BitMap.markBit _ i).marked j = _
    rw [BitMap.markBit_marked]
    split
    · rename_i hji
      simp [hji]
    · refine (h.slots j hj).trans ?_
      simp only [decide_eq_decide]
      omega
  case markers =>
    rw [hfaulted.memorySwap]
    show Function.update s.memorySwap.virtualPages i ((0 : ℕ) : ℤ) j ≤ 0
    rw [Function.update_apply]
    split
    · omega
    · exact h.markers j
  case zero =>
    rw [hfaulted.frames.virtualPageTable, hnext, if_neg (by omega)]
    exact Function.update_self (0 : ℕ) _ s.invertedPageTable.virtualPageTable
  case absent =>
    rw [hfaulted.others c p (by omega)]
    show ((((s.switchTo (i / 31)).dropPage 0).spaces c).pageTable p).virtualPage = -1
    have habsent := h.absent c p hp hlt (by omega)
    by_cases hc : c = i / 31
    · subst hc
      show (((s.switchTo (i / 31)).dropPage 0).space.pageTable p).virtualPage = -1
      rw [dropPage_pageTable, Function.update_of_ne (by omega)]
      exact habsent
    · rw [dropPage_spaces_of_ne _ _ hc]
      exact habsent

theorem Draining.run {i : ℕ} {s : System} (h : Draining i s) (hi : i ≤ 64) :
    ∃ as s', PartialRun.run System.step s as = .ok s' ∧ Draining 64 s' := by
  obtain ⟨k, hk⟩ : ∃ k, 64 = i + k := ⟨64 - i, by omega⟩
  induction k generalizing i s with
  | zero =>
    obtain rfl : i = 64 := by omega
    exact ⟨[], s, rfl, h⟩
  | succ k ih =>
    obtain ⟨s₁, hstep, h₁⟩ := h.step (by omega)
    obtain ⟨as, s', hrun, h'⟩ := ih h₁ (by omega) (by omega)
    exact ⟨_ :: as, s', run_cons_eq_ok.mpr ⟨s₁, hstep, hrun⟩, h'⟩

/-- Pages that no access is to stay out of memory. -/
theorem run_absent {s s' : System} {as : List Access} {c p : ℕ} (hnum : Numbered s)
    (hother : ∀ a ∈ as, c ≠ a.space ∨ p ≠ a.page)
    (habsent : ((s.spaces c).pageTable p).virtualPage = -1) (hrun : run step s as = .ok s') :
    ((s'.spaces c).pageTable p).virtualPage = -1 := by
  induction as generalizing s with
  | nil =>
    cases hrun
    exact habsent
  | cons a as ih =>
    obtain ⟨t, hst, hrun⟩ := run_cons_eq_ok.mp hrun
    exact ih (step_numbered hnum hst) (fun b hb => hother b (List.mem_cons_of_mem a hb))
      (step_absent hnum (hother a List.mem_cons_self) habsent hst) hrun

/-- The beginning of the run. -/
def warmUp : List Access :=
  List.replicate 200 (Access.read 0 0) ++ [Access.read 0 32, Access.read 0 33, Access.read 0 34]

theorem bssBoot_filled : ∃ s, run step bssBoot warmUp = .ok s ∧ Filled 4 0 s ∧
    s.invertedPageTable.secondChanceQueue = (0, true) :: (List.replicate 200 (0, true) ++
      [(1, true), (1, true), (2, true), (2, true), (3, true), (3, true)]) := by
  obtain ⟨s, hrun, halg, hvalid, hfirst, hothers, hmarked, hfree, hzero, hqueue⟩ : ∃ s,
      run step bssBoot warmUp = .ok s ∧
      s.invertedPageTable.replacementAlgorithm = .secondChance ∧
      (∀ i, (s.tlb i).valid = true) ∧ (s.tlb 0).virtualPage = (0 : ℕ) ∧
      (∀ i, i ≠ 0 → 32 ≤ (s.tlb i).virtualPage ∧ (s.tlb i).virtualPage < 35) ∧
      (∀ i < numPhysPagesIPT,
        s.invertedPageTable.physicalPagesBitmap.marked i = decide (i < 4)) ∧
      s.invertedPageTable.physicalPagesBitmap.firstClear ≠ none ∧
      s.invertedPageTable.virtualPageTable 0 = 0 ∧
      s.invertedPageTable.secondChanceQueue = (0, true) :: (List.replicate 200 (0, true) ++
        [(1, true), (1, true), (2, true), (2, true), (3, true), (3, true)]) := by
    decide +kernel
  have hinv : Numbered s ∧ Allocating s ∧ ∀ c, (s.spaces c).numPages = 128 ∧
      (s.spaces c).ownExecutable = bssProgram := by
    refine run_invariant (I := fun s => Numbered s ∧ Allocating s ∧ ∀ c,
      (s.spaces c).numPages = 128 ∧ (s.spaces c).ownExecutable = bssProgram) ?_
      ⟨bssBoot_booted.numbered, bssBoot_booted.allocating, fun c => ?_⟩ hrun
    · rintro s a s' ⟨hnum, halloc, hprograms⟩ hst
      refine ⟨step_numbered hnum hst, step_allocating hnum halloc hst, fun c => ?_⟩
      rw [(step_programs hnum hst c).1, (step_programs hnum hst c).2]
      exact hprograms c
    · show (ofExecutable bssProgram).numPages = 128 ∧
        (ofExecutable bssProgram).ownExecutable = bssProgram
      exact ⟨by decide +kernel, rfl⟩
  obtain ⟨hnum, halloc, hprograms⟩ := hinv
  refine ⟨s, hrun, ⟨⟨hnum, halg, halloc, fun c => (hprograms c).1, fun c => (hprograms c).2, hvalid,
    hfirst, hothers⟩, hmarked, halloc.unused hfree, hzero, fun c p hp => ?_⟩, hqueue⟩
  refine run_absent bssBoot_booted.numbered (fun a ha => ?_) (bssBoot_booted.absent c p) hrun
  have hpages : ∀ a ∈ warmUp, a.space = 0 ∧ (a.page = 0 ∨ (32 ≤ a.page ∧ a.page < 35)) := by
    decide +kernel
  obtain ⟨hspace, hpage⟩ := hpages a ha
  rw [hspace]
  omega

/-- A run after which all frames are in use, and swap is not. -/
theorem bssBoot_fills : ∃ as s, run step bssBoot as = .ok s ∧ Draining 0 s := by
  obtain ⟨s, hrun, hfilled, hqueue⟩ := bssBoot_filled
  -- the first choice clears the bits
  have hset : ∀ entry ∈ List.replicate 200 ((0 : ℤ), true) ++
      [(1, true), (1, true), (2, true), (2, true), (3, true), (3, true)], entry.2 = true := by
    decide +kernel
  have hpick := secondChance_set (f := 0) hset
  rw [← hqueue, List.map_append, List.map_replicate, List.append_assoc] at hpick
  obtain ⟨s₁, hstep, hfilled₁, hrest⟩ := hfilled.step (by omega) (by omega) (by omega) hpick
  have hfilling : Filling 5 s₁ := ⟨hfilled₁, hrest⟩
  obtain ⟨as, s', hrun', h'⟩ := hfilling.run (by omega) (by omega)
  exact ⟨warmUp ++ (_ :: as), s', run_append_eq_ok.mpr ⟨s, hrun, run_cons_eq_ok.mpr
    ⟨s₁, hstep, hrun'⟩⟩, h'.draining⟩

/-! ## Handing over -/

/-- The page of frame `f` was handed over: it, and only it, is out of the page table and the TLB,
and a slot of swap has the bytes of the frame under its number. -/
structure HandedOver (s s' : System) (f : ℕ) : Prop where
  page : 0 ≤ s.invertedPageTable.virtualPageTable f
  pageTable : s'.space.pageTable =
    Function.update s.space.pageTable (s.invertedPageTable.virtualPageTable f).toNat
      (emptied (s.space.pageTable (s.invertedPageTable.virtualPageTable f).toNat))
  others : ∀ a, a ≠ s.currentSpace → s'.spaces a = s.spaces a
  tlb : s'.tlb = dropFromTLB s.tlb (s.invertedPageTable.virtualPageTable f)
  memorySwap : ∃ j, s.memorySwap.swapBitMap.firstClear = some j ∧ s'.memorySwap =
    s.memorySwap.stored j (s.invertedPageTable.virtualPageTable f)
      (Bytes.window s.mainMemory (f * pageSize))

/-- `getPhysicalPage` returns, and if it returns a frame then the page of that frame was handed
over. -/
def HandsOver (s : System) (p : ℤ) : Prop :=
  ∃ f s', s.getPhysicalPage p = .ok (f, s') ∧ (0 ≤ f → HandedOver s s' f.toNat)

/-- The frame to be taken next has a page of the address space with the same number, and unless
swap is full it is a frame of the machine that the table has for the page of that number, and
the policy does not forget it. -/
def SameNumber (s : System) : Prop :=
  ∃ g : ℕ, s.invertedPageTable.nextVictim = some (g : ℤ) ∧ g < numPhysPagesIPT ∧
    g < s.space.numPages ∧ (s.memorySwap.swapBitMap.firstClear = none ∨
      (s.invertedPageTable.replacementAlgorithm ≠ .leastUsed ∧ g < numPhysPages ∧
        s.invertedPageTable.virtualPageTable g = g))

/-- Storing a page under two numbers gives two swap areas. -/
theorem stored_page_inj {sw : Swap} {i j : ℕ} {p q : ℤ} {bytes bytes' : Bytes} (hij : i = j)
    (h : sw.stored i p bytes = sw.stored j q bytes') : p = q := by
  subst hij
  have hpages := congrFun (congrArg Swap.virtualPages h) i
  simpa [Swap.stored] using hpages

/-- The number the page was stored under is that of the frame. -/
theorem HandedOver.number {s : System} {g j : ℕ} {t : InvertedPageTable} {p : ℤ}
    (h : HandedOver s (s.evict g j t p) g)
    (hslot : s.memorySwap.swapBitMap.firstClear = some j) :
    s.invertedPageTable.virtualPageTable g = g := by
  obtain ⟨j', hslot', hstored⟩ := h.memorySwap
  exact (stored_page_inj (Option.some.inj (hslot.symm.trans hslot')) hstored).symm

/-- With all frames in use, the page taken out is the one of the frame exactly if the two have
the same number. -/
theorem getPhysicalPage_handsOver_iff (s : System)
    (hfull : s.invertedPageTable.physicalPagesBitmap.firstClear = none) (p : ℤ) :
    HandsOver s p ↔ SameNumber s := by
  constructor
  · rintro ⟨f, s', hok, hhanded⟩
    cases getPhysicalPage_ok hok with
    | free hfree =>
      rw [hfull] at hfree
      cases hfree
    | refused _ hvictim hframe hpage hslot =>
      exact ⟨_, InvertedPageTable.getEntryToReplace_nextVictim hvictim, hframe, hpage, .inl hslot⟩
    | @evicted g j t _ hvictim hframe hpage hsource hslot =>
      have halg : s.invertedPageTable.replacementAlgorithm ≠ .leastUsed := by
        intro halg
        rw [getEntryToReplace_leastUsed halg hvictim] at hsource
        exact absurd hsource.1 (by decide)
      -- `swap` looks the page up where the frame should be, so both must have one number
      have hkept := InvertedPageTable.getEntryToReplace_virtualPageTable halg hvictim
      have hhanded := hhanded (Int.natCast_nonneg g)
      rw [Int.toNat_natCast] at hhanded
      have hnumber := hhanded.number hslot
      rw [hkept, hnumber] at hsource
      exact ⟨g, InvertedPageTable.getEntryToReplace_nextVictim hvictim, hframe, hpage,
        .inr ⟨halg, by exact_mod_cast hsource.2, hnumber⟩⟩
  · rintro ⟨g, hnext, hframe, hpage, hcase⟩
    obtain ⟨t, hvictim⟩ := InvertedPageTable.getEntryToReplace_iff.mpr hnext
    cases hslot : s.memorySwap.swapBitMap.firstClear with
    | none =>
      refine ⟨-1, _, (FrameFor.refused hfull hvictim hframe hpage hslot).complete, fun h => ?_⟩
      omega
    | some j =>
      rcases hcase with hnone | ⟨halg, hlt, hnumber⟩
      · rw [hslot] at hnone
        cases hnone
      · have hkept := InvertedPageTable.getEntryToReplace_virtualPageTable halg hvictim
        have hsource : 0 ≤ t.virtualPageTable g ∧ t.virtualPageTable g < numPhysPages := by
          rw [hkept, hnumber]
          exact ⟨Int.natCast_nonneg g, by exact_mod_cast hlt⟩
        have hevicted := FrameFor.evicted (p := p) hfull hvictim hframe hpage hsource hslot
        refine ⟨g, _, hevicted.complete, fun _ => ?_⟩
        rw [Int.toNat_natCast]
        refine ⟨?_, ?_, hevicted.kept.others, ?_, j, hslot, ?_⟩
        · rw [hnumber]
          exact Int.natCast_nonneg g
        · rw [hnumber, Int.toNat_natCast]
          exact dropPage_pageTable s g
        · rw [hnumber]
          rfl
        · show s.memorySwap.stored j g _ = _
          rw [hkept, hnumber, Int.toNat_natCast]

/-- The page of the first frame evicted has the number of its frame. -/
theorem bssBoot_handsOver : ∃ as s, run step bssBoot as = .ok s ∧
    s.invertedPageTable.physicalPagesBitmap.firstClear = none ∧ HandsOver (s.switchTo 0) 1 := by
  obtain ⟨as, s, hrun, h⟩ := bssBoot_fills
  obtain ⟨rest, hpick⟩ := h.pick (by omega)
  have hvictim := getEntryToReplace_zero h.algorithm hpick
  refine ⟨as, s, hrun, h.full, (getPhysicalPage_handsOver_iff (s.switchTo 0) h.full 1).mpr
    ⟨0, InvertedPageTable.getEntryToReplace_nextVictim hvictim, by decide, ?_, .inr ⟨?_, by decide,
      h.zero⟩⟩⟩
  · rw [switchTo_space, h.numPages]
    decide
  · intro hleast
    have hleast : s.invertedPageTable.replacementAlgorithm = .leastUsed := hleast
    rw [h.algorithm] at hleast
    cases hleast

/-- The second time frame `0` is evicted it has page `1`: the bytes of frame `1` are stored as
page `0`. -/
theorem run_not_handsOver : ¬ ∀ (s₀ s : System) (as : List Access) (c : ℕ) (p : ℤ), Booted s₀ →
    run step s₀ as = .ok s → s.invertedPageTable.physicalPagesBitmap.firstClear = none →
    HandsOver (s.switchTo c) p := by
  intro hall
  obtain ⟨as, s₀, hrun, h₀⟩ := bssBoot_fills
  obtain ⟨s, hstep, h⟩ := h₀.step (by omega)
  obtain ⟨f, s', hok, hhanded⟩ := hall bssBoot s (as ++ [Access.read (0 / 31) (1 + 0 % 31)]) 0 2
    bssBoot_booted (run_append_eq_ok.mpr ⟨s₀, hrun, run_cons_eq_ok.mpr ⟨s, hstep, rfl⟩⟩) h.full
  obtain ⟨rest, hpick⟩ := h.pick (by omega)
  have hvictim₀ := getEntryToReplace_zero h.algorithm hpick
  cases getPhysicalPage_ok hok with
  | free hfree =>
    have hfree : s.invertedPageTable.physicalPagesBitmap.firstClear = _ := hfree
    rw [h.full] at hfree
    cases hfree
  | refused _ _ _ _ hslot =>
    have hmarked : s.memorySwap.swapBitMap.marked 1 = true := by
      refine BitMap.firstClear_eq_none.mp hslot 1 ?_
      rw [h.allocating.switchTo 0 |>.swapBits]
      decide
    have hclear := h.slots 1 (by decide)
    rw [hmarked] at hclear
    cases hclear
  | @evicted g j t _ hvictim _ _ _ hslot =>
    have hvictim : s.invertedPageTable.getEntryToReplace = _ := hvictim
    rw [hvictim₀] at hvictim
    simp only [Except.ok.injEq, Prod.mk.injEq] at hvictim
    obtain rfl : g = 0 := by omega
    have hnumber : s.invertedPageTable.virtualPageTable 0 = 0 :=
      (hhanded (by omega)).number hslot
    rw [h.zero] at hnumber
    exact absurd hnumber (by decide)

/-! ## No slot left -/

/-- Paging has left everything as it was. -/
structure Unchanged (s s' : System) : Prop where
  pageTable : ∀ a, (s'.spaces a).pageTable = (s.spaces a).pageTable
  tlb : s'.tlb = s.tlb
  virtualPageTable : s'.invertedPageTable.virtualPageTable = s.invertedPageTable.virtualPageTable
  fifoQueue : s'.invertedPageTable.fifoQueue = s.invertedPageTable.fifoQueue
  secondChanceQueue :
    s'.invertedPageTable.secondChanceQueue = s.invertedPageTable.secondChanceQueue
  uses : s'.invertedPageTable.uses = s.invertedPageTable.uses
  memorySwap : s'.memorySwap = s.memorySwap
  mainMemory : s'.mainMemory = s.mainMemory

/-- The handler returns, has changed nothing and has installed no translation to frame `-1`. -/
def FailsCleanly (s : System) (addr : ℕ) : Prop :=
  ∃ s', s.pageFaultException addr = .ok s' ∧ Unchanged s s' ∧
    (∀ i, (s'.tlb i).valid = true → (s'.tlb i).physicalPage ≠ -1) ∧
    ∀ p, (s'.space.pageTable p).virtualPage ≠ -1 → (s'.space.pageTable p).physicalPage ≠ -1

/-- With no frame free and no slot free, a page that has to be loaded is entered all the same. -/
theorem Loaded.entered {s s' : System} {addr : ℕ} (h : Loaded s addr s')
    (hfull : s.invertedPageTable.physicalPagesBitmap.firstClear = none)
    (hslots : s.memorySwap.swapBitMap.firstClear = none)
    (habsent : (s.space.pageTable (addr / pageSize)).virtualPage = -1) :
    (s'.space.pageTable (addr / pageSize)).virtualPage = (addr / pageSize : ℕ) := by
  cases h.tables with
  | resident _ hpage => exact absurd habsent hpage
  | loaded _ _ hpage htable =>
    rw [htable, Function.update_self]
    exact hpage.1
  | lost _ hmarked hframe hslot =>
    -- what was marked in swap still is, since nothing was stored
    cases hframe with
    | free hfree =>
      rw [hfull] at hfree
      cases hfree
    | evicted _ _ _ _ _ hspare =>
      rw [hslots] at hspare
      cases hspare
    | refused =>
      have hnone : s.memorySwap.slotOf (addr / pageSize : ℕ) = none := hslot
      rw [Swap.isLoadedInSwap, hnone] at hmarked
      cases hmarked

/-- In every reachable state with all frames in use and all slots taken, a fault that needs a
frame changes the page table or does not return. -/
theorem run_not_failsCleanly {s₀ s : System} {as : List Access} {c addr : ℕ} (hboot : Booted s₀)
    (hrun : run step s₀ as = .ok s)
    (hfull : s.invertedPageTable.physicalPagesBitmap.firstClear = none)
    (hslots : s.memorySwap.swapBitMap.firstClear = none)
    (habsent : ((s.spaces c).pageTable (addr / pageSize)).virtualPage = -1) :
    ¬ FailsCleanly (s.switchTo c) addr := by
  rintro ⟨s', hok, hsame, -, -⟩
  have hnum : Numbered s :=
    run_invariant (fun s a s' h hst => step_numbered h hst) hboot.numbered hrun
  obtain ⟨-, s₁, hloaded, hfill⟩ := pageFaultException_ok (hnum.switchTo c) hok
  obtain ⟨slot, hmap, -⟩ := fillTLB_ok hfill
  have hentered := hloaded.entered hfull hslots habsent
  have hcur : s₁.currentSpace = c := hloaded.kept.1
  rw [space, hcur, ← hmap.virtualPage, hsame.pageTable c] at hentered
  exact natCast_ne_neg_one _ (hentered.symm.trans habsent)

theorem bssBoot_exhausts : ∃ as s, run step bssBoot as = .ok s ∧ Draining 64 s := by
  obtain ⟨as, s, hrun, h⟩ := bssBoot_fills
  obtain ⟨bs, s', hrun', h'⟩ := h.run (by omega)
  exact ⟨as ++ bs, s', run_append_eq_ok.mpr ⟨s, hrun, hrun'⟩, h'⟩

theorem Draining.exhausted {s : System} (h : Draining 64 s) :
    s.memorySwap.swapBitMap.firstClear = none := by
  refine BitMap.firstClear_eq_none.mpr fun j hj => ?_
  rw [h.allocating.swapBits] at hj
  rw [h.slots j hj]
  rw [swapPagesQuantity_eq] at hj
  exact decide_eq_true hj

/-- Page `3` of the third address space, once swap is full. -/
theorem bssBoot_not_failsCleanly : ∃ as s, run step bssBoot as = .ok s ∧
    lookup s.tlb 3 = none ∧ ¬ FailsCleanly (s.switchTo 2) (3 * pageSize) := by
  obtain ⟨as, s, hrun, h⟩ := bssBoot_exhausts
  refine ⟨as, s, hrun, h.lookup_none (by decide) (by omega), ?_⟩
  exact run_not_failsCleanly bssBoot_booted hrun h.full h.exhausted
    (h.absent 2 3 (by omega) (by omega) (by omega))

/-- A fault that finds no slot is not undone. -/
theorem run_not_atomic : ¬ ∀ (s₀ s : System) (as : List Access) (c addr : ℕ), Booted s₀ →
    run step s₀ as = .ok s → s.invertedPageTable.physicalPagesBitmap.firstClear = none →
    s.memorySwap.swapBitMap.firstClear = none → lookup s.tlb (addr / pageSize) = none →
    addr < (s.spaces c).numPages * pageSize →
    ((s.spaces c).pageTable (addr / pageSize)).virtualPage = -1 →
    FailsCleanly (s.switchTo c) addr := by
  intro hall
  obtain ⟨as, s, hrun, h⟩ := bssBoot_exhausts
  have habsent : ((s.spaces 2).pageTable (3 * pageSize / pageSize)).virtualPage = -1 :=
    h.absent 2 3 (by omega) (by omega) (by omega)
  have hmiss : lookup s.tlb (3 * pageSize / pageSize) = none :=
    h.lookup_none (p := 3) (by decide) (by omega)
  obtain ⟨s', hok, hsame, -, -⟩ := hall bssBoot s as 2 (3 * pageSize) bssBoot_booted hrun h.full
    h.exhausted hmiss (by rw [h.numPages]; decide) habsent
  obtain ⟨-, s₁, hloaded, hfill⟩ := pageFaultException_ok (h.numbered.switchTo 2) hok
  obtain ⟨slot, hmap, -⟩ := fillTLB_ok hfill
  have hentered := hloaded.entered h.full h.exhausted habsent
  have hcur : s₁.currentSpace = 2 := hloaded.kept.1
  rw [space, hcur, ← hmap.virtualPage, hsame.pageTable 2] at hentered
  exact natCast_ne_neg_one _ (hentered.symm.trans habsent)

end System
end NachOS
