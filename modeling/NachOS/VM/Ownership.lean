import NachOS.VM.FreeFrames

/-!
# Whose pages are in memory and in swap

Neither the inverted page table nor the swap area records the address space a page belongs
to. `History` keeps that beside a run: the page each frame was handed out for, the bytes
each page had when its frame was evicted last, and the address space that filled each slot.
The results say that pages come back to the address space they were taken from as long as
every eviction takes a frame `g` in which the current address space has its page `g`, and
every page found in swap was put there by the current address space.
-/

namespace NachOS
namespace System

open PartialRun

/-- Page `p` of address space `b` is in memory. -/
def Resident (s : System) (b p : ℕ) : Prop := ((s.spaces b).pageTable p).virtualPage ≠ -1

/-- The access finds its page neither in the TLB nor in memory. -/
def Loads (s : System) (a : Access) : Prop :=
  lookup s.tlb a.page = none ∧ ¬ Resident s a.space a.page

instance (s : System) (b p : ℕ) : Decidable (Resident s b p) := by
  unfold Resident
  infer_instance

instance (s : System) (a : Access) : Decidable (Loads s a) := by
  unfold Loads
  infer_instance

/-! ## The history of a run -/

/-- Who owns what: the page a frame was handed out for last, what a page held when its frame
was evicted last, and the address space that filled a slot last. -/
structure History where
  owner : ℕ → Option (ℕ × ℕ)
  saved : ℕ × ℕ → Option Bytes
  filler : ℕ → Option ℕ

/-- The history after the access has had its page loaded. -/
def History.load (h : History) (s : System) (a : Access) : History :=
  match s.invertedPageTable.physicalPagesBitmap.firstClear with
  | some f => { h with owner := Function.update h.owner f (some (a.space, a.page)) }
  | none =>
    let g := (s.invertedPageTable.nextVictim.getD 0).toNat
    { owner := Function.update h.owner g (some (a.space, a.page))
      saved := match h.owner g with
        | some page => Function.update h.saved page
          (some (Bytes.window s.mainMemory (g * pageSize)))
        | none => h.saved
      filler := match s.memorySwap.swapBitMap.firstClear with
        | some j => Function.update h.filler j (some a.space)
        | none => h.filler }

/-- A state and the history that led to it. -/
structure Owned where
  sys : System
  history : History

/-- One access and its entry in the history. -/
def Owned.step (o : Owned) (a : Access) : Except Fault Owned := do
  let sys ← o.sys.step a
  return ⟨sys, if Loads o.sys a then o.history.load o.sys a else o.history⟩

/-- The start of a run. -/
def Owned.start (s : System) : Owned where
  sys := s
  history := ⟨fun _ => none, fun _ => none, fun _ => none⟩

/-! ## What is wanted, and when -/

/-- Frame `f` has the bytes the page of the access had when it was evicted last, or those of
its own executable if it never was. -/
def Brought (s : System) (h : History) (a : Access) (memory : Bytes) (f : ℕ) : Prop :=
  match h.saved (a.space, a.page) with
  | some bytes => Bytes.EqUpTo pageSize (Bytes.window memory (f * pageSize)) bytes
  | none => ∃ n bytes, diskTransfer (s.spaces a.space) a.addr = .ok (n, bytes) ∧
    Bytes.EqUpTo n (Bytes.window memory (f * pageSize)) bytes

/-- The access respects who owns what. The bytes brought in for a page are those it had when
it was evicted last, or those of its own executable if it never was; and the page that loses
its frame is the one that owns it. -/
structure Respects (s : System) (h : History) (a : Access) : Prop where
  brought : Loads s a → ∀ s₁, (s.switchTo a.space).pageFaultException a.addr = .ok s₁ →
    ∃ f : ℕ, ((s₁.spaces a.space).pageTable a.page).physicalPage = f ∧
      Brought s h a s₁.mainMemory f
  invalidated : Loads s a → s.invertedPageTable.physicalPagesBitmap.firstClear = none →
    ∀ g ∈ s.invertedPageTable.nextVictim, ∀ b w, h.owner g.toNat = some (b, w) →
    ∀ s₁, (s.switchTo a.space).pageFaultException a.addr = .ok s₁ →
      ¬ Resident s₁ b w ∧ ∀ c q, (c, q) ≠ (b, w) → (c, q) ≠ (a.space, a.page) →
        ((s₁.spaces c).pageTable q).virtualPage = ((s.spaces c).pageTable q).virtualPage ∧
        ((s₁.spaces c).pageTable q).physicalPage = ((s.spaces c).pageTable q).physicalPage

/-- If the access has its page loaded, then an eviction takes a frame `g` that belongs to
page `g` of the same address space while swap has a free slot, and a slot marked with the
page is taken and was filled by the same address space. -/
def OwnPages (o : Owned) (a : Access) : Prop :=
  Loads o.sys a →
    (o.sys.invertedPageTable.physicalPagesBitmap.firstClear = none →
      (∀ g ∈ o.sys.invertedPageTable.nextVictim,
        o.history.owner g.toNat = some (a.space, g.toNat)) ∧
      o.sys.memorySwap.swapBitMap.firstClear ≠ none) ∧
    ∀ i ∈ o.sys.memorySwap.slotOf a.page,
      o.sys.memorySwap.swapBitMap.marked i = true ∧ o.history.filler i = some a.space

instance (o : Owned) (a : Access) : Decidable (OwnPages o a) := by
  unfold OwnPages
  infer_instance

/-! ## The invariant -/

/-- Slot `i` holds page `p` of address space `b`. -/
structure HoldsPage (sw : Swap) (filler : ℕ → Option ℕ) (i b p : ℕ) : Prop where
  lt : i < swapPagesQuantity
  marked : sw.swapBitMap.marked i = true
  filled : filler i = some b
  marker : sw.virtualPages i = p

/-- The history is what the tables and the swap area say. -/
structure Recorded (s : System) (h : History) : Prop where
  resident : ∀ b p, Resident s b p → ∃ f : ℕ,
    ((s.spaces b).pageTable p).physicalPage = f ∧ h.owner f = some (b, p)
  owned : ∀ f b p, h.owner f = some (b, p) →
    Resident s b p ∧ ((s.spaces b).pageTable p).physicalPage = f ∧ f < numPhysPagesIPT ∧
      s.invertedPageTable.physicalPagesBitmap.marked f = true ∧
      s.invertedPageTable.virtualPageTable f = p
  /-- A page put out is in some slot. -/
  slot : ∀ b p bytes, h.saved (b, p) = some bytes → ¬ Resident s b p →
    ∃ i, HoldsPage s.memorySwap h.filler i b p
  /-- A slot taken holds a page that was put out, with its bytes. -/
  taken : ∀ i < swapPagesQuantity, s.memorySwap.swapBitMap.marked i = true →
    ∃ b p bytes, HoldsPage s.memorySwap h.filler i b p ∧ h.saved (b, p) = some bytes ∧
      ¬ Resident s b p ∧
      i * pageSize + pageSize ≤ s.memorySwap.swapSegment.length ∧
      Bytes.EqUpTo pageSize (Bytes.window s.memorySwap.swapSegment.data (i * pageSize)) bytes
  unique : ∀ i j b p, HoldsPage s.memorySwap h.filler i b p →
    HoldsPage s.memorySwap h.filler j b p → i = j

theorem HoldsPage.page {sw : Swap} {filler : ℕ → Option ℕ} {i b c p q : ℕ}
    (hi : HoldsPage sw filler i b p) (hi' : HoldsPage sw filler i c q) : b = c ∧ p = q := by
  refine ⟨Option.some.inj (hi.filled.symm.trans hi'.filled), ?_⟩
  have : (p : ℤ) = q := hi.marker.symm.trans hi'.marker
  exact_mod_cast this

theorem resident_congr {s s' : System} (hv : ∀ b p, ((s'.spaces b).pageTable p).virtualPage =
    ((s.spaces b).pageTable p).virtualPage) (b p : ℕ) : Resident s' b p ↔ Resident s b p := by
  unfold Resident
  rw [hv]

/-- The invariant depends on the mapping and on the swap area only. -/
theorem Recorded.of_tables {s s' : System} {h : History} (hrec : Recorded s h)
    (hv : ∀ b p, ((s'.spaces b).pageTable p).virtualPage =
      ((s.spaces b).pageTable p).virtualPage)
    (hp : ∀ b p, ((s'.spaces b).pageTable p).physicalPage =
      ((s.spaces b).pageTable p).physicalPage)
    (hswap : s'.memorySwap = s.memorySwap)
    (hframes : SameFrames s.invertedPageTable s'.invertedPageTable) : Recorded s' h := by
  have hres := resident_congr hv
  refine ⟨fun b p hbp => ?_, fun f b p hf => ?_, fun b p bytes hs habs => ?_,
    fun i hi hm => ?_, by rw [hswap]; exact hrec.unique⟩
  · rw [hp]
    exact hrec.resident b p ((hres b p).mp hbp)
  · rw [hres, hp, hframes.physicalPagesBitmap, hframes.virtualPageTable]
    exact hrec.owned f b p hf
  · rw [hres] at habs
    rw [hswap]
    exact hrec.slot b p bytes hs habs
  · rw [hswap] at hm ⊢
    obtain ⟨b, p, bytes, hi', hs, habs, hlen, hbytes⟩ := hrec.taken i hi hm
    exact ⟨b, p, bytes, hi', hs, (not_congr (hres b p)).mpr habs, hlen, hbytes⟩

/-! ## Getting a frame -/

/-- One entry of one page table is replaced. -/
theorem withEntry_entry (s : System) (p : ℕ) (e : TranslationEntry) (b q : ℕ) :
    ((s.withEntry p e).spaces b).pageTable q =
      if b = s.currentSpace ∧ q = p then e else (s.spaces b).pageTable q := by
  by_cases hb : b = s.currentSpace
  · have htable : ((s.withEntry p e).spaces b).pageTable =
        Function.update (s.spaces b).pageTable p e := by
      rw [hb]
      exact withEntry_pageTable s p e
    rw [htable, Function.update_apply]
    simp [hb]
  · rw [withEntry_spaces_of_ne s p e hb, if_neg fun h => hb h.1]

/-- The page that loses its frame is the only one whose entry changes. -/
theorem evict_resident {s : System} {g j : ℕ} {t : InvertedPageTable} {p : ℤ} (b q : ℕ) :
    Resident (s.evict g j t p) b q ↔ Resident s b q ∧ ¬ (b = s.currentSpace ∧ q = g) := by
  unfold Resident
  have hentry : ((s.evict g j t p).spaces b).pageTable q =
      if b = s.currentSpace ∧ q = g then emptied (s.space.pageTable g)
      else (s.spaces b).pageTable q := withEntry_entry s g _ b q
  rw [hentry]
  split
  · rename_i h
    simp [emptied, h]
  · rename_i h
    simp [h]

theorem evict_physicalPage {s : System} {g j : ℕ} {t : InvertedPageTable} {p : ℤ} {b q : ℕ}
    (h : ¬ (b = s.currentSpace ∧ q = g)) :
    (((s.evict g j t p).spaces b).pageTable q).physicalPage =
      ((s.spaces b).pageTable q).physicalPage := by
  have hentry : ((s.evict g j t p).spaces b).pageTable q = _ := withEntry_entry s g _ b q
  rw [hentry, if_neg h]

/-- A frame of which nobody is the owner, handed out for page `p`. -/
structure Unowned (s : System) (h : History) (f : ℕ) (p : ℤ) : Prop where
  owner : h.owner f = none
  lt : f < numPhysPagesIPT
  marked : s.invertedPageTable.physicalPagesBitmap.marked f = true
  page : s.invertedPageTable.virtualPageTable f = p

theorem Recorded.giveFrame {s : System} {h : History} {f : ℕ} (p : ℤ) (hrec : Recorded s h)
    (hbits : s.invertedPageTable.physicalPagesBitmap.numBits = numPhysPagesIPT)
    (hfree : s.invertedPageTable.physicalPagesBitmap.firstClear = some f) :
    Recorded (s.giveFrame f p) h ∧ Unowned (s.giveFrame f p) h f p := by
  obtain ⟨hlt, hclear⟩ := BitMap.firstClear_spec hfree
  rw [hbits] at hlt
  have hmarks : ∀ k, (s.giveFrame f p).invertedPageTable.physicalPagesBitmap.marked k =
      if k = f then true else s.invertedPageTable.physicalPagesBitmap.marked k :=
    BitMap.markBit_marked _ f
  -- an owned frame is marked, so it is not the free one
  have hne : ∀ k b q, h.owner k = some (b, q) → k ≠ f := by
    rintro k b q hk rfl
    rw [(hrec.owned k b q hk).2.2.2.1] at hclear
    cases hclear
  refine ⟨⟨hrec.resident, fun k b q hk => ?_, hrec.slot, hrec.taken, hrec.unique⟩, ?_, hlt, ?_, ?_⟩
  · obtain ⟨hres, hphys, hklt, hmarked, hpage⟩ := hrec.owned k b q hk
    have hkf := hne k b q hk
    refine ⟨hres, hphys, hklt, by rw [hmarks, if_neg hkf]; exact hmarked, ?_⟩
    show Function.update s.invertedPageTable.virtualPageTable f p k = q
    rw [Function.update_of_ne hkf]
    exact hpage
  · cases howner : h.owner f with
    | none => rfl
    | some page => exact absurd rfl (hne f page.1 page.2 howner)
  · rw [hmarks, if_pos rfl]
  · exact Function.update_self _ _ _

/-- The history once page `g` of address space `c` has gone from frame `g` to slot `j`. -/
def History.putOut (h : History) (c g j : ℕ) (bytes : Bytes) : History where
  owner := Function.update h.owner g none
  saved := Function.update h.saved (c, g) (some bytes)
  filler := Function.update h.filler j (some c)

/-- The slots held after page `g` has been put into slot `j`. -/
theorem holdsPage_stored_iff {sw : Swap} {filler : ℕ → Option ℕ} {c g i j b q : ℕ}
    (bytes : Bytes) (hj : j < swapPagesQuantity) :
    HoldsPage (sw.stored j g bytes) (Function.update filler j (some c)) i b q ↔
      (i = j ∧ b = c ∧ q = g) ∨ (i ≠ j ∧ HoldsPage sw filler i b q) := by
  by_cases hij : i = j
  · rw [hij]
    constructor
    · intro hi
      have hfiller : Function.update filler j (some c) j = some b := hi.filled
      have hmarker : Function.update sw.virtualPages j g j = q := hi.marker
      rw [Function.update_self] at hfiller hmarker
      exact .inl ⟨rfl, (Option.some.inj hfiller).symm, by exact_mod_cast hmarker.symm⟩
    · rintro (⟨-, rfl, rfl⟩ | ⟨hne, -⟩)
      · refine ⟨hj, ?_, Function.update_self _ _ _, Function.update_self _ _ _⟩
        show (BitMap.markBit _ j).marked j = true
        rw [BitMap.markBit_marked, if_pos rfl]
      · exact absurd rfl hne
  · have hmarked : (sw.stored j g bytes).swapBitMap.marked i = sw.swapBitMap.marked i := by
      show (BitMap.markBit _ j).marked i = _
      rw [BitMap.markBit_marked, if_neg hij]
    have hfiller : Function.update filler j (some c) i = filler i := Function.update_of_ne hij _ _
    have hmarker : (sw.stored j g bytes).virtualPages i = sw.virtualPages i :=
      Function.update_of_ne hij _ _
    constructor
    · rintro ⟨h₁, h₂, h₃, h₄⟩
      exact .inr ⟨hij, h₁, hmarked ▸ h₂, hfiller ▸ h₃, hmarker ▸ h₄⟩
    · rintro (⟨hne, -⟩ | ⟨-, h₁, h₂, h₃, h₄⟩)
      · exact absurd hne hij
      · exact ⟨h₁, hmarked ▸ h₂, hfiller ▸ h₃, hmarker ▸ h₄⟩

theorem Recorded.evict {s : System} {h : History} {g j : ℕ} {t : InvertedPageTable} (p : ℤ)
    (hrec : Recorded s h) (hown : h.owner g = some (s.currentSpace, g))
    (hvictim : s.invertedPageTable.getEntryToReplace = .ok ((g : ℤ), t))
    (hsource : 0 ≤ t.virtualPageTable g ∧ t.virtualPageTable g < numPhysPages)
    (hbits : s.memorySwap.swapBitMap.numBits = swapPagesQuantity)
    (hslot : s.memorySwap.swapBitMap.firstClear = some j) :
    Recorded (s.evict g j t p) (h.putOut s.currentSpace g j
      (Bytes.window s.mainMemory (g * pageSize))) ∧
    Unowned (s.evict g j t p) (h.putOut s.currentSpace g j
      (Bytes.window s.mainMemory (g * pageSize))) g p := by
  obtain ⟨hbitmap, -, hpages⟩ := getEntryToReplace_frames hvictim
  obtain ⟨hj, hclear⟩ := BitMap.firstClear_spec hslot
  rw [hbits] at hj
  obtain ⟨hgres, hgphys, hglt, hgmarked, hgpage⟩ := hrec.owned g _ _ hown
  -- `swap` is called with frame and page exchanged, which is harmless since page `g` is in frame
  -- `g`
  have htg : t.virtualPageTable g = g := by
    rcases hpages g with hkept | ⟨-, hneg⟩
    · exact hkept.trans hgpage
    · rw [hneg] at hsource
      omega
  have hwindow : Bytes.window s.mainMemory ((t.virtualPageTable g).toNat * pageSize) =
      Bytes.window s.mainMemory (g * pageSize) := by rw [htg, Int.toNat_natCast]
  -- the evicted page is the only one in frame `g`
  have hframe : ∀ f b q, f ≠ g → h.owner f = some (b, q) → ¬ (b = s.currentSpace ∧ q = g) := by
    rintro f b q hfg hf ⟨rfl, rfl⟩
    have : (f : ℤ) = q := (hrec.owned f _ _ hf).2.1.symm.trans hgphys
    exact hfg (by exact_mod_cast this)
  -- and was in no slot before
  have hnoSlot : ∀ i, ¬ HoldsPage s.memorySwap h.filler i s.currentSpace g := by
    intro i hi
    obtain ⟨b, q, bytes, hi', -, habs, -⟩ := hrec.taken i hi.lt hi.marked
    obtain ⟨rfl, rfl⟩ := hi.page hi'
    exact habs hgres
  have hij : ∀ {i}, s.memorySwap.swapBitMap.marked i = true → i ≠ j := by
    rintro i hi rfl
    rw [hi] at hclear
    cases hclear
  have hholds : ∀ {i b q : ℕ}, HoldsPage (s.evict g j t p).memorySwap
      (Function.update h.filler j (some s.currentSpace)) i b q ↔
      (i = j ∧ b = s.currentSpace ∧ q = g) ∨ (i ≠ j ∧ HoldsPage s.memorySwap h.filler i b q) :=
    holdsPage_stored_iff _ hj
  refine ⟨⟨fun b q hbq => ?resident, fun f b q hf => ?owned, fun b q bytes hs habs => ?slot,
    fun i hi hm => ?taken, fun i k b q hi hk => ?unique⟩, ?owner, hglt, ?marked, ?page⟩
  case resident =>
    -- the pages that stay have kept their frames
    obtain ⟨hres, hne⟩ := (evict_resident b q).mp hbq
    obtain ⟨f, hf, howner⟩ := hrec.resident b q hres
    have hfg : f ≠ g := by
      rintro rfl
      rw [hown] at howner
      cases howner
      exact hne ⟨rfl, rfl⟩
    exact ⟨f, (evict_physicalPage hne).trans hf, (Function.update_of_ne hfg _ _).trans howner⟩
  case owned =>
    -- so have the frames their pages
    have hfg : f ≠ g := by
      rintro rfl
      rw [show (h.putOut s.currentSpace f j _).owner f = none from Function.update_self _ _ _] at hf
      cases hf
    have hf : h.owner f = some (b, q) := (Function.update_of_ne hfg _ _).symm.trans hf
    have hne := hframe f b q hfg hf
    obtain ⟨hres, hphys, hlt, hmarked, hpage⟩ := hrec.owned f b q hf
    refine ⟨(evict_resident b q).mpr ⟨hres, hne⟩, (evict_physicalPage hne).trans hphys, hlt, ?_, ?_⟩
    · exact (congrArg (fun bm => bm.marked f) hbitmap).trans hmarked
    · show Function.update t.virtualPageTable g p f = q
      rw [Function.update_of_ne hfg]
      rcases hpages f with hkept | ⟨heq, -⟩
      · exact hkept.trans hpage
      · exact absurd (by exact_mod_cast heq) hfg
  case slot =>
    -- the evicted page is in slot `j`, the others are where they were
    by_cases hbq : b = s.currentSpace ∧ q = g
    · exact ⟨j, hholds.mpr (.inl ⟨rfl, hbq.1, hbq.2⟩)⟩
    · have hpair : (b, q) ≠ (s.currentSpace, g) := by
        intro heq
        cases heq
        exact hbq ⟨rfl, rfl⟩
      have hs : h.saved (b, q) = some bytes := (Function.update_of_ne hpair _ _).symm.trans hs
      have habs : ¬ Resident s b q := fun hres => habs ((evict_resident b q).mpr ⟨hres, hbq⟩)
      obtain ⟨i, hi⟩ := hrec.slot b q bytes hs habs
      exact ⟨i, hholds.mpr (.inr ⟨hij hi.marked, hi⟩)⟩
  case taken =>
    -- slot `j` holds the bytes of the frame, the others were not written
    by_cases hne : i = j
    · rw [hne]
      refine ⟨s.currentSpace, g, _, hholds.mpr (.inl ⟨rfl, rfl, rfl⟩), Function.update_self _ _ _,
        fun hres => ((evict_resident _ _).mp hres).2 ⟨rfl, rfl⟩, Nat.le_max_right _ _, ?_⟩
      rw [← hwindow]
      exact Swap.stored_window_self _ _ _ _
    · have hm : (BitMap.markBit _ j).marked i = true := hm
      rw [BitMap.markBit_marked, if_neg hne] at hm
      obtain ⟨b, q, bytes, hi', hs, habs, hlen, hbytes⟩ := hrec.taken i hi hm
      have hpair : (b, q) ≠ (s.currentSpace, g) := by
        intro heq
        cases heq
        exact habs hgres
      refine ⟨b, q, bytes, hholds.mpr (.inr ⟨hne, hi'⟩), (Function.update_of_ne hpair _ _).trans hs,
        fun hres => habs ((evict_resident b q).mp hres).1, hlen.trans (Nat.le_max_left _ _), ?_⟩
      exact (Swap.stored_window_ne _ _ _ hne hlen).trans hbytes
  case unique =>
    -- the evicted page was in no slot before
    rcases hholds.mp hi with ⟨rfl, rfl, rfl⟩ | ⟨-, hi'⟩
    · rcases hholds.mp hk with ⟨hk', -⟩ | ⟨-, hk'⟩
      · exact hk'.symm
      · exact absurd hk' (hnoSlot k)
    · rcases hholds.mp hk with ⟨-, rfl, rfl⟩ | ⟨-, hk'⟩
      · exact absurd hi' (hnoSlot i)
      · exact hrec.unique i k b q hi' hk'
  case owner =>
    -- and the frame belongs to nobody now
    exact Function.update_self _ _ _
  case marked => exact (congrArg (fun bm => bm.marked g) hbitmap).trans hgmarked
  case page => exact Function.update_self _ _ _

/-! ## Bringing a page in -/

/-- Page `p` gets the frame handed out for it; `sw` is the swap area without its slot. -/
theorem Recorded.install {s : System} {h : History} {f p n : ℕ} {e : TranslationEntry}
    {bytes : Bytes} {sw : Swap} (hrec : Recorded s h) (hun : Unowned s h f p)
    (habsent : ¬ Resident s s.currentSpace p)
    (hsegment : sw.swapSegment = s.memorySwap.swapSegment)
    (hmarked : ∀ i, sw.swapBitMap.marked i = true → s.memorySwap.swapBitMap.marked i = true ∧
      ¬ HoldsPage s.memorySwap h.filler i s.currentSpace p)
    (hholds : ∀ i b q, HoldsPage sw h.filler i b q ↔
      HoldsPage s.memorySwap h.filler i b q ∧ ¬ (b = s.currentSpace ∧ q = p)) :
    Recorded ({ s with memorySwap := sw }.install p e f n bytes)
      { h with owner := Function.update h.owner f (some (s.currentSpace, p)) } := by
  have hentry : ∀ b q, (({ s with memorySwap := sw }.install p e f n bytes).spaces b).pageTable q =
      if b = s.currentSpace ∧ q = p then { e with physicalPage := f, virtualPage := p }
      else (s.spaces b).pageTable q := withEntry_entry _ p _
  -- one page more is resident
  have hres : ∀ b q, Resident ({ s with memorySwap := sw }.install p e f n bytes) b q ↔
      Resident s b q ∨ (b = s.currentSpace ∧ q = p) := by
    intro b q
    unfold Resident
    rw [hentry]
    split
    · rename_i hbq
      exact ⟨fun _ => .inr hbq, fun _ => natCast_ne_neg_one p⟩
    · rename_i hbq
      exact ⟨fun hr => .inl hr, fun hr => hr.resolve_right hbq⟩
  refine ⟨fun b q hbq => ?resident, fun k b q hk => ?owned, fun b q saved hs habs => ?slot,
    fun i hi hm => ?taken, fun i j b q hi hj => ?unique⟩
  case resident =>
    rw [hentry]
    split
    · rename_i heq
      refine ⟨f, rfl, ?_⟩
      rw [heq.1, heq.2]
      exact Function.update_self _ _ _
    · rename_i hne
      obtain ⟨k, hk, howner⟩ := hrec.resident b q (((hres b q).mp hbq).resolve_right hne)
      have hkf : k ≠ f := by
        rintro rfl
        rw [hun.owner] at howner
        cases howner
      exact ⟨k, hk, (Function.update_of_ne hkf _ _).trans howner⟩
  case owned =>
    rw [hres, hentry]
    by_cases hkf : k = f
    · rw [hkf] at hk ⊢
      have hk : Function.update h.owner f (some (s.currentSpace, p)) f = some (b, q) := hk
      rw [Function.update_self] at hk
      cases hk
      rw [if_pos ⟨rfl, rfl⟩]
      exact ⟨.inr ⟨rfl, rfl⟩, rfl, hun.lt, hun.marked, hun.page⟩
    · have hk : h.owner k = some (b, q) := (Function.update_of_ne hkf _ _).symm.trans hk
      obtain ⟨hr, hphys, hlt, hm, hpage⟩ := hrec.owned k b q hk
      -- the page was absent, so no frame was recorded for it
      have hne : ¬ (b = s.currentSpace ∧ q = p) := by
        rintro ⟨rfl, rfl⟩
        exact habsent hr
      rw [if_neg hne]
      exact ⟨.inl hr, hphys, hlt, hm, hpage⟩
  case slot =>
    rw [hres, not_or] at habs
    obtain ⟨i, hi⟩ := hrec.slot b q saved hs habs.1
    exact ⟨i, (hholds i b q).mpr ⟨hi, habs.2⟩⟩
  case taken =>
    obtain ⟨hm', hnot⟩ := hmarked i hm
    obtain ⟨b, q, saved, hi', hs, habs, hlen, hbytes⟩ := hrec.taken i hi hm'
    have hne : ¬ (b = s.currentSpace ∧ q = p) := by
      rintro ⟨rfl, rfl⟩
      exact hnot hi'
    refine ⟨b, q, saved, (hholds i b q).mpr ⟨hi', hne⟩, hs, ?_, ?_⟩
    · rw [hres, not_or]
      exact ⟨habs, hne⟩
    · show i * pageSize + pageSize ≤ sw.swapSegment.length ∧
        Bytes.EqUpTo pageSize (Bytes.window sw.swapSegment.data (i * pageSize)) saved
      rw [hsegment]
      exact ⟨hlen, hbytes⟩
  case unique => exact hrec.unique i j b q ((hholds i b q).mp hi).1 ((hholds j b q).mp hj).1

/-! ## One page fault -/

/-- The state once a frame has been found for the access: what the history says of it, and
where the page is in swap. -/
structure FrameFound (s : System) (h : History) (a : Access) (f : ℕ) (s₁ : System)
    (h₁ : History) : Prop where
  recorded : Recorded s₁ h₁
  unowned : Unowned s₁ h₁ f a.page
  load : { h₁ with owner := Function.update h₁.owner f (some (a.space, a.page)) } = h.load s a
  saved : h₁.saved (a.space, a.page) = h.saved (a.space, a.page)
  absent : ¬ Resident s₁ a.space a.page
  slot : ∀ i ∈ s.memorySwap.slotOf a.page, s₁.memorySwap.slotOf a.page = some i ∧
    HoldsPage s₁.memorySwap h₁.filler i a.space a.page
  noSlot : s.memorySwap.slotOf a.page = none →
    ∀ i, ¬ HoldsPage s₁.memorySwap h₁.filler i a.space a.page

/-- Filling a free slot with another page does not change where a page is found. -/
theorem slotOf_stored {sw : Swap} {i j g p : ℕ} {bytes : Bytes} (hgp : g ≠ p) (hij : i ≠ j)
    (h : sw.slotOf p = some i) : (sw.stored j g bytes).slotOf p = some i := by
  obtain ⟨hi, hmarker⟩ := Swap.slotOf_eq_some h
  cases hnew : (sw.stored j g bytes).slotOf p with
  | none =>
    refine absurd ?_ (Swap.slotOf_eq_none.mp hnew i hi)
    exact (Function.update_of_ne hij _ _).trans hmarker
  | some k =>
    obtain ⟨-, hk⟩ := Swap.slotOf_eq_some hnew
    have hk : Function.update sw.virtualPages j g k = p := hk
    have hkj : k ≠ j := by
      rintro rfl
      rw [Function.update_self] at hk
      exact hgp (by exact_mod_cast hk)
    rw [Function.update_of_ne hkj] at hk
    -- each of the two slots is the first with the marker
    rcases Nat.lt_trichotomy k i with hlt | heq | hgt
    · exact absurd hk (Swap.slotOf_first h hlt)
    · rw [heq]
    · exact absurd ((Function.update_of_ne hij _ _).trans hmarker) (Swap.slotOf_first hnew hgt)

theorem FrameFor.found {s s₁ : System} {h : History} {a : Access} {f : ℤ} (hrec : Recorded s h)
    (halloc : Allocating s) (hcur : s.currentSpace = a.space)
    (habsent : ¬ Resident s a.space a.page)
    (hevict : s.invertedPageTable.physicalPagesBitmap.firstClear = none →
      (∀ g ∈ s.invertedPageTable.nextVictim, h.owner g.toNat = some (a.space, g.toNat)) ∧
      s.memorySwap.swapBitMap.firstClear ≠ none)
    (hslots : ∀ i ∈ s.memorySwap.slotOf a.page,
      s.memorySwap.swapBitMap.marked i = true ∧ h.filler i = some a.space)
    (hframe : FrameFor s a.page f s₁) : ∃ f' : ℕ, ∃ h₁, f = f' ∧ FrameFound s h a f' s₁ h₁ := by
  have hslot : ∀ i ∈ s.memorySwap.slotOf a.page,
      HoldsPage s.memorySwap h.filler i a.space a.page := by
    intro i hi
    obtain ⟨hlt, hmarker⟩ := Swap.slotOf_eq_some hi
    exact ⟨hlt, (hslots i hi).1, (hslots i hi).2, hmarker⟩
  have hnoSlot : s.memorySwap.slotOf a.page = none →
      ∀ i, ¬ HoldsPage s.memorySwap h.filler i a.space a.page :=
    fun hnone i hi => Swap.slotOf_eq_none.mp hnone i hi.lt hi.marker
  cases hframe with
  | @free f hfree =>
    obtain ⟨hrec₁, hun⟩ := hrec.giveFrame (a.page : ℤ) halloc.numBits hfree
    refine ⟨f, h, rfl, hrec₁, hun, ?_, rfl, habsent, fun i hi => ⟨hi, hslot i hi⟩, hnoSlot⟩
    rw [History.load, hfree]
  | @evicted g j t hfull hvictim hframe hpage hsource hspare =>
    have hnext := InvertedPageTable.getEntryToReplace_nextVictim hvictim
    have hown : h.owner g = some (a.space, g) := (hevict hfull).1 g hnext
    rw [← hcur] at hown
    obtain ⟨hrec₁, hun⟩ := hrec.evict (a.page : ℤ) hown hvictim hsource halloc.swapBits hspare
    obtain ⟨hgres, -⟩ := hrec.owned g _ _ hown
    obtain ⟨-, hclear⟩ := BitMap.firstClear_spec hspare
    -- the page evicted is in memory, the page of the access is not
    have hgp : g ≠ a.page := by
      rintro rfl
      rw [hcur] at hgres
      exact habsent hgres
    -- the slot of the page that is wanted is not the one the victim goes to
    have hij : ∀ i, s.memorySwap.swapBitMap.marked i = true → i ≠ j := by
      rintro i hi rfl
      rw [hi] at hclear
      cases hclear
    have hj : j < swapPagesQuantity := halloc.swapBits ▸ (BitMap.firstClear_spec hspare).1
    refine ⟨g, _, rfl, hrec₁, hun, ?_, ?_, ?_, fun i hi => ?_, fun hnone i hi => ?_⟩
    · rw [History.load, hfull, hnext]
      simp only [Option.getD_some, Int.toNat_natCast, hown, hspare, History.putOut,
        Function.update_idem, hcur]
    · refine Function.update_of_ne ?_ _ _
      intro heq
      exact hgp (congrArg Prod.snd heq).symm
    · rw [evict_resident]
      exact fun hres => habsent hres.1
    · have hne := hij i (hslots i hi).1
      exact ⟨slotOf_stored hgp hne hi, (holdsPage_stored_iff _ hj).mpr (.inr ⟨hne, hslot i hi⟩)⟩
    · rcases (holdsPage_stored_iff _ hj).mp hi with ⟨-, -, heq⟩ | ⟨-, hi'⟩
      · exact hgp heq.symm
      · exact hnoSlot hnone i hi'
  | refused hfull hvictim hframe hpage hspare => exact absurd hspare (hevict hfull).2

theorem holdsPage_released_iff {sw : Swap} {filler : ℕ → Option ℕ} {i k b q : ℕ} :
    HoldsPage (sw.released i) filler k b q ↔ k ≠ i ∧ HoldsPage sw filler k b q := by
  constructor
  · rintro ⟨h₁, h₂, h₃, h₄⟩
    have h₂ : Function.update sw.swapBitMap.marked i false k = true := h₂
    have h₄ : Function.update sw.virtualPages i 0 k = q := h₄
    have hki : k ≠ i := by
      rintro rfl
      rw [Function.update_self] at h₂
      cases h₂
    rw [Function.update_of_ne hki] at h₂ h₄
    exact ⟨hki, h₁, h₂, h₃, h₄⟩
  · rintro ⟨hki, h₁, h₂, h₃, h₄⟩
    refine ⟨h₁, (Function.update_of_ne hki _ _).trans h₂, h₃, ?_⟩
    exact (Function.update_of_ne hki _ _).trans h₄

theorem frame_base (f : ℕ) : ((f : ℤ) * (pageSize : ℤ)).toNat = f * pageSize := by
  rw [← Int.natCast_mul, Int.toNat_natCast]

/-- Loading a page of which the history was right: the history stays right, and the bytes
are the page's own. -/
theorem Loaded.recorded {s s' : System} {h : History} {a : Access} (hrec : Recorded s h)
    (halloc : Allocating s) (hcur : s.currentSpace = a.space)
    (habsent : ¬ Resident s a.space a.page)
    (hevict : s.invertedPageTable.physicalPagesBitmap.firstClear = none →
      (∀ g ∈ s.invertedPageTable.nextVictim, h.owner g.toNat = some (a.space, g.toNat)) ∧
      s.memorySwap.swapBitMap.firstClear ≠ none)
    (hslots : ∀ i ∈ s.memorySwap.slotOf a.page,
      s.memorySwap.swapBitMap.marked i = true ∧ h.filler i = some a.space)
    (hloaded : Loaded s a.addr s') : Recorded s' (h.load s a) ∧
      ∃ f : ℕ, ((s'.spaces a.space).pageTable a.page).physicalPage = f ∧
        Brought s h a s'.mainMemory f := by
  have hfound := fun {f s₁} (hframe : FrameFor s a.page f s₁) =>
    hframe.found hrec halloc hcur habsent hevict hslots
  have hentry : ∀ (s : System) e f n bytes, s.currentSpace = a.space →
      (((s.install a.page e f n bytes).spaces a.space).pageTable a.page).physicalPage = f := by
    intro s e f n bytes hs
    have hentry : ((s.install a.page e f n bytes).spaces a.space).pageTable a.page = _ :=
      withEntry_entry s a.page _ a.space a.page
    rw [hentry, if_pos ⟨hs.symm, rfl⟩]
  cases hloaded with
  | resident hpage =>
    refine absurd ?_ habsent
    rw [← hcur]
    exact hpage
  | @fromSwap f s₁ i n hpage hmarked hframe hslot hn hfits =>
    obtain ⟨f', h₁, rfl, hff⟩ := hfound hframe
    have hcur₁ : s₁.currentSpace = a.space := hframe.kept.currentSpace.trans hcur
    obtain ⟨i', hi'⟩ := Option.isSome_iff_exists.mp hmarked
    obtain ⟨hslot', hholds⟩ := hff.slot i' hi'
    -- an eviction in between did not move the page's slot
    have hii : i' = i := Option.some.inj (hslot'.symm.trans hslot)
    rw [hii] at hholds
    constructor
    · rw [← hff.load, ← hcur₁]
      -- the slot read is released, and by `unique` it was the only one of the page
      refine hff.recorded.install hff.unowned (by rw [hcur₁]; exact hff.absent) rfl ?_ ?_
      · intro k hk
        have hk : Function.update s₁.memorySwap.swapBitMap.marked i false k = true := hk
        have hki : k ≠ i := by
          rintro rfl
          rw [Function.update_self] at hk
          cases hk
        rw [Function.update_of_ne hki] at hk
        rw [hcur₁]
        exact ⟨hk, fun hk' => hki (hff.recorded.unique k i _ _ hk' hholds)⟩
      · intro k b q
        rw [holdsPage_released_iff, hcur₁]
        constructor
        · rintro ⟨hki, hk⟩
          refine ⟨hk, ?_⟩
          rintro ⟨rfl, rfl⟩
          exact hki (hff.recorded.unique k i _ _ hk hholds)
        · rintro ⟨hk, hne⟩
          refine ⟨?_, hk⟩
          rintro rfl
          obtain ⟨rfl, rfl⟩ := hk.page hholds
          exact hne ⟨rfl, rfl⟩
    · refine ⟨f', hentry _ _ _ _ _ hcur₁, ?_⟩
      -- the bytes brought in are those that were put out
      obtain ⟨b, q, bytes, hi, hs, -, hlen, hbytes⟩ := hff.recorded.taken i hholds.lt hholds.marked
      obtain ⟨rfl, rfl⟩ := hholds.page hi
      have hn' : n = pageSize := by omega
      rw [Brought, ← hff.saved, hs]
      show Bytes.EqUpTo pageSize (Bytes.window (Bytes.blit _ _ n _) (f' * pageSize)) bytes
      rw [frame_base, hn']
      exact (Bytes.window_blit_self _ _ _ _).trans hbytes
  | @lost f s₁ hpage hmarked hframe hslot =>
    obtain ⟨f', h₁, rfl, hff⟩ := hfound hframe
    obtain ⟨i', hi'⟩ := Option.isSome_iff_exists.mp hmarked
    -- the page is still found in swap after a frame was found, so this branch is not taken
    have hslot' := (hff.slot i' hi').1.symm.trans hslot
    cases hslot'
  | @fromDisk f s₁ n bytes hpage hmarked hframe htransfer hfits =>
    obtain ⟨f', h₁, rfl, hff⟩ := hfound hframe
    have hcur₁ : s₁.currentSpace = a.space := hframe.kept.currentSpace.trans hcur
    have hnone : s.memorySwap.slotOf a.page = none := by
      have hmarked : (s.memorySwap.slotOf a.page).isSome = false := hmarked
      simpa using hmarked
    have hnoSlot := hff.noSlot hnone
    constructor
    · rw [← hff.load, ← hcur₁]
      refine hff.recorded.install hff.unowned (by rw [hcur₁]; exact hff.absent) rfl ?_ ?_
      · intro k hk
        rw [hcur₁]
        exact ⟨hk, hnoSlot k⟩
      · intro k b q
        rw [hcur₁]
        refine ⟨fun hk => ⟨hk, ?_⟩, fun hk => hk.1⟩
        rintro ⟨rfl, rfl⟩
        exact hnoSlot k hk
    · refine ⟨f', hentry _ _ _ _ _ hcur₁, ?_⟩
      -- a page that had been put out would be in a slot
      have hsaved : h.saved (a.space, a.page) = none := by
        cases hs : h.saved (a.space, a.page) with
        | none => rfl
        | some saved =>
          obtain ⟨i, hi⟩ := hff.recorded.slot _ _ saved (hff.saved.trans hs) hff.absent
          exact absurd hi (hnoSlot i)
      rw [Brought, hsaved]
      refine ⟨n, bytes, hcur ▸ htransfer, ?_⟩
      show Bytes.EqUpTo n (Bytes.window (Bytes.blit _ _ n _) (f' * pageSize)) bytes
      rw [frame_base]
      exact Bytes.window_blit_self _ _ _ _

/-! ## The page that loses its frame -/

/-- Getting a frame when none is free drops page `g` of the current address space, `g` being
the frame the policy chose, and no other. -/
theorem FrameFor.entries {s s₁ : System} {p f g : ℤ}
    (hfull : s.invertedPageTable.physicalPagesBitmap.firstClear = none)
    (hnext : s.invertedPageTable.nextVictim = some g) (h : FrameFor s p f s₁) (b q : ℕ) :
    (s₁.spaces b).pageTable q =
      if b = s.currentSpace ∧ q = g.toNat then emptied (s.space.pageTable g.toNat)
      else (s.spaces b).pageTable q := by
  have hchosen : ∀ {g' : ℕ} {t}, s.invertedPageTable.getEntryToReplace = .ok ((g' : ℤ), t) →
      g.toNat = g' := by
    intro g' t hvictim
    rw [InvertedPageTable.getEntryToReplace_nextVictim hvictim] at hnext
    rw [← Option.some.inj hnext, Int.toNat_natCast]
  cases h with
  | free hfree => rw [hfull] at hfree; cases hfree
  | evicted _ hvictim hframe hpage hsource hslot =>
    rw [hchosen hvictim]
    exact withEntry_entry s _ _ b q
  | refused _ hvictim hframe hpage hslot =>
    rw [hchosen hvictim]
    exact withEntry_entry s _ _ b q

theorem Loaded.entries {s s' : System} {addr : ℕ} {g : ℤ}
    (hfull : s.invertedPageTable.physicalPagesBitmap.firstClear = none)
    (hnext : s.invertedPageTable.nextVictim = some g)
    (habsent : (s.space.pageTable (addr / pageSize)).virtualPage = -1) (h : Loaded s addr s')
    {b q : ℕ} (hne : ¬ (b = s.currentSpace ∧ q = addr / pageSize)) :
    (s'.spaces b).pageTable q =
      if b = s.currentSpace ∧ q = g.toNat then emptied (s.space.pageTable g.toNat)
      else (s.spaces b).pageTable q := by
  have hinstall : ∀ (s₂ : System) e f n bytes, s₂.currentSpace = s.currentSpace →
      ((s₂.install (addr / pageSize) e f n bytes).spaces b).pageTable q =
        (s₂.spaces b).pageTable q := by
    intro s₂ e f n bytes hcur
    refine (withEntry_entry _ _ _ b q).trans (if_neg ?_)
    show ¬ (b = s₂.currentSpace ∧ q = addr / pageSize)
    rw [hcur]
    exact hne
  cases h with
  | resident hpage => exact absurd habsent hpage
  | fromSwap hpage hmarked hframe hslot hn hfits =>
    rw [hinstall]
    · exact hframe.entries hfull hnext b q
    · exact hframe.kept.currentSpace
  | lost hpage hmarked hframe hslot => exact hframe.entries hfull hnext b q
  | fromDisk hpage hmarked hframe htransfer hfits =>
    rw [hinstall]
    · exact hframe.entries hfull hnext b q
    · exact hframe.kept.currentSpace

/-! ## Runs -/

/-- What every state of a run satisfies together with its history. -/
structure Kept (o : Owned) : Prop where
  numbered : Numbered o.sys
  allocating : Allocating o.sys
  recorded : Recorded o.sys o.history

theorem Recorded.of_same {s s' : System} {h : History} (hrec : Recorded s h)
    (hmap : SameMapping s s') : Recorded s' h :=
  hrec.of_tables hmap.virtualPage hmap.physicalPage hmap.memorySwap hmap.frames

/-- The history stays right over an access that takes its own pages. -/
theorem Recorded.step {o o' : Owned} {a : Access} (hkept : Kept o) (hown : OwnPages o a)
    (h : o.step a = .ok o') : Recorded o'.sys o'.history := by
  obtain ⟨s', hstep, h⟩ := bind_ok_iff.mp h
  cases h
  -- neither the bytes in memory nor the running thread matter to the history
  have hswitch : Recorded (o.sys.switchTo a.space) o.history :=
    hkept.recorded.of_tables (fun _ _ => rfl) (fun _ _ => rfl) rfl (.refl _)
  have hmem : ∀ {h : History} {s : System} (m : Bytes), Recorded s h →
      Recorded { s with mainMemory := m } h :=
    fun m hrec => hrec.of_tables (fun _ _ => rfl) (fun _ _ => rfl) rfl (.refl _)
  by_cases hloads : Loads o.sys a
  · rw [if_pos hloads]
    obtain ⟨hevict, hslots⟩ := hown hloads
    refine step_preserves (I := fun s => Recorded s (o.history.load o.sys a))
      (fun hrec hmap _ => hrec.of_same hmap) hmem ?_ hkept.numbered
      (fun hhit => absurd hloads.1 hhit) hstep
    intro s₁ s₂ slot _ _ hloaded hmap _
    refine Recorded.of_same ?_ hmap
    exact (Loaded.recorded hswitch (hkept.allocating.switchTo a.space) rfl hloads.2 hevict hslots
      hloaded).1
  · rw [if_neg hloads]
    refine step_preserves (I := fun s => Recorded s o.history)
      (fun hrec hmap _ => hrec.of_same hmap) hmem ?_ hkept.numbered (fun _ => hswitch) hstep
    intro s₁ s₂ slot hlookup _ hloaded hmap _
    refine Recorded.of_same ?_ hmap
    have hres : Resident o.sys a.space a.page := by
      by_contra habsent
      exact hloads ⟨hlookup, habsent⟩
    cases hloaded.tables with
    | resident heq hpage =>
      rw [heq]
      exact hswitch
    | loaded habsent => exact absurd habsent hres
    | lost habsent => exact absurd habsent hres

theorem Kept.step {o o' : Owned} {a : Access} (hkept : Kept o) (hown : OwnPages o a)
    (h : o.step a = .ok o') : Kept o' := by
  refine ⟨?_, ?_, Recorded.step hkept hown h⟩
  all_goals
    obtain ⟨s', hstep, h⟩ := bind_ok_iff.mp h
    cases h
  · exact step_numbered hkept.numbered hstep
  · exact step_allocating hkept.numbered hkept.allocating hstep

theorem Booted.kept {s : System} (hboot : Booted s) : Kept (Owned.start s) := by
  refine ⟨hboot.numbered, hboot.allocating, ?_⟩
  have hnoSlot : ∀ i < swapPagesQuantity, s.memorySwap.swapBitMap.marked i ≠ true := by
    intro i _ hi
    rw [hboot.memorySwap] at hi
    cases hi
  refine ⟨fun b p hres => absurd (hboot.absent b p) hres, ?_, ?_, fun i hi hm => ?_,
    fun i j b p hi => absurd hi.marked (hnoSlot i hi.lt)⟩
  · rintro f b p hf
    cases hf
  · rintro b p bytes hs
    cases hs
  · exact absurd hm (hnoSlot i hi)

/-- A page fault of an access that takes its own pages respects who owns what. -/
theorem Kept.respects {o : Owned} {a : Access} (hkept : Kept o) (hown : OwnPages o a) :
    Respects o.sys o.history a := by
  have hnum := hkept.numbered.switchTo a.space
  have hswitch : Recorded (o.sys.switchTo a.space) o.history :=
    hkept.recorded.of_tables (fun _ _ => rfl) (fun _ _ => rfl) rfl (.refl _)
  constructor
  · intro hloads s₁ hpf
    obtain ⟨hevict, hslots⟩ := hown hloads
    obtain ⟨-, s₂, hloaded, hfill⟩ := pageFaultException_ok hnum hpf
    obtain ⟨slot, hmap, -⟩ := fillTLB_ok hfill
    obtain ⟨-, f, hf, hbrought⟩ := Loaded.recorded hswitch (hkept.allocating.switchTo a.space) rfl
      hloads.2 hevict hslots hloaded
    rw [hmap.mainMemory, hmap.physicalPage]
    exact ⟨f, hf, hbrought⟩
  · intro hloads hfull g hg b w howner s₁ hpf
    obtain ⟨hevict, -⟩ := hown hloads
    have hgowner := (hevict hfull).1 g hg
    rw [hgowner] at howner
    cases howner
    obtain ⟨-, s₂, hloaded, hfill⟩ := pageFaultException_ok hnum hpf
    obtain ⟨slot, hmap, -⟩ := fillTLB_ok hfill
    have habsent : ¬ Resident o.sys a.space a.page := hloads.2
    have habsent' : ((o.sys.spaces a.space).pageTable (a.addr / pageSize)).virtualPage = -1 :=
      not_not.mp habsent
    have hentries := fun {b q} => Loaded.entries (s := o.sys.switchTo a.space) (b := b) (q := q)
      hfull hg habsent' hloaded
    -- the page that loses its frame is in memory, the page of the access is not
    have hgp : ¬ (a.space = a.space ∧ g.toNat = a.page) := by
      rintro ⟨-, hgp⟩
      rw [← hgp] at habsent
      exact habsent (hkept.recorded.owned _ _ _ hgowner).1
    constructor
    · have hentry := hentries hgp
      rw [if_pos ⟨rfl, rfl⟩] at hentry
      rw [Resident, hmap.virtualPage, hentry]
      exact not_not.mpr rfl
    · intro c q hcq hcp
      have hentry := hentries (b := c) (q := q) (by rintro ⟨rfl, rfl⟩; exact hcp rfl)
      rw [if_neg (by rintro ⟨rfl, rfl⟩; exact hcq rfl)] at hentry
      rw [hmap.virtualPage, hmap.physicalPage, hentry]
      exact ⟨rfl, rfl⟩

/-- As long as every eviction takes a frame `g` in which the running address space has its
own page `g`, and every page found in swap was put there by the running address space, page
faults respect who owns what, whatever the interleaving. -/
theorem run_respects {s : System} {o : Owned} {as : List Access} {a : Access} (hboot : Booted s)
    (hown : Along Owned.step OwnPages (Owned.start s) (as ++ [a]))
    (hrun : run Owned.step (Owned.start s) as = .ok o) : Respects o.sys o.history a := by
  obtain ⟨halong, hlast⟩ := hown.last hrun
  have hkept : Kept o := Along.invariant (fun o b o' hkept hown hstep => hkept.step hown hstep)
    hboot.kept halong hrun
  exact hkept.respects hlast

/-! ## Two runs

Two programs of 89 pages that differ in their first byte. Page `0` of the first is read often
enough that second chance takes its frame for the first eviction. -/

def differingPrograms : System :=
  boot .secondChance fun a => .program [if a = 0 then 7 else 8] (80 * 128)

theorem differingPrograms_booted : Booted differingPrograms := by
  apply boot_booted
  intro a
  by_cases ha : a = 0
  · rw [if_pos ha]
    decide +kernel
  · rw [if_neg ha]
    decide +kernel

/-- One page of the second program, then all of memory filled by the first. -/
def fillingRun : List Access :=
  (List.replicate 60 0 ++ List.replicate 10 1).map (Access.read 0) ++
    Access.read 1 66 :: ((List.range 64).drop 2).map (Access.read 0)

/-- The first program gets back its own page `0`, which was evicted for its page `63`. -/
theorem fillingRun_respects : ∃ o,
    run Owned.step (Owned.start differingPrograms) fillingRun = .ok o ∧
    Loads o.sys (Access.read 0 0) ∧ (o.history.saved (0, 0)).isSome ∧
    Respects o.sys o.history (Access.read 0 0) := by
  obtain ⟨o, hrun, hloads, hsaved⟩ : ∃ o,
      run Owned.step (Owned.start differingPrograms) fillingRun = .ok o ∧
      Loads o.sys (Access.read 0 0) ∧ (o.history.saved (0, 0)).isSome := by decide +kernel
  exact ⟨o, hrun, hloads, hsaved, run_respects differingPrograms_booted (by decide +kernel) hrun⟩

/-- Memory filled by the first program, then one page of the second. -/
def intrudingRun : List Access :=
  (List.replicate 60 0 ++ (List.range 64).drop 1).map (Access.read 0) ++ [Access.read 1 64]

/-- The second program has never had its page `0` in memory, and is given the page `0` of the
first, which was evicted for its page `64`. -/
theorem run_not_respects : ¬ ∀ (s : System) (o : Owned) (as : List Access) (a : Access),
    Booted s → run Owned.step (Owned.start s) as = .ok o → Respects o.sys o.history a := by
  intro h
  obtain ⟨o, hrun, hloads, hsaved, ⟨s₁, hpf, hphys, hbyte⟩, ⟨⟨n, bytes⟩, hdisk, hn, hown⟩⟩ :
      ∃ o, run Owned.step (Owned.start differingPrograms) intrudingRun = .ok o ∧
      Loads o.sys (Access.read 1 0) ∧ (o.history.saved (1, 0)).isNone ∧
      (∃ s₁, (o.sys.switchTo 1).pageFaultException 0 = .ok s₁ ∧
        ((s₁.spaces 1).pageTable 0).physicalPage = 1 ∧ s₁.mainMemory 128 = 7) ∧
      ∃ r, diskTransfer (o.sys.spaces 1) 0 = .ok r ∧ r.1 = 1 ∧ r.2 0 = 8 := by decide +kernel
  have hrespects := h differingPrograms o intrudingRun (Access.read 1 0) differingPrograms_booted
    hrun
  obtain ⟨f, hf, hbrought⟩ := hrespects.brought hloads s₁ hpf
  have hf1 : f = 1 := by
    have : (f : ℤ) = 1 := hf.symm.trans hphys
    exact_mod_cast this
  have hnone : o.history.saved ((Access.read 1 0).space, (Access.read 1 0).page) = none :=
    Option.isNone_iff_eq_none.mp hsaved
  rw [Brought, hnone, hf1] at hbrought
  obtain ⟨m, own, hdisk', heq⟩ := hbrought
  have hpair : (n, bytes) = (m, own) := Except.ok.inj (hdisk.symm.trans hdisk')
  cases hpair
  have hbyte' : s₁.mainMemory 128 = bytes 0 := heq 0 (Nat.lt_of_lt_of_eq Nat.zero_lt_one hn.symm)
  rw [hbyte] at hbyte'
  exact absurd (hbyte'.trans hown) (by decide)

end System
end NachOS
