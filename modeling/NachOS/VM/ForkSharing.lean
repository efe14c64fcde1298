import NachOS.VM.Ownership
import NachOS.VM.Untouched

/-!
# What parent and child of a fork share

A forked thread should see the writes of its parent below the stack, and the parent those of
the child, while the stacks are separate. The page table of the child is a copy made at the
time of the fork, so that is how it is for the pages that are in memory then, as long as they
stay there and neither thread is served by TLB entries of the other. A page that is loaded
later is loaded by each of the threads for itself.
-/

namespace NachOS
namespace System

open PartialRun

/-! ## Pages with owners -/

/-- An access to the memory of the owner of the page. -/
def ownedAccess (program : AddrSpace) (owner : ℕ → ℕ → ℕ) (m : ℕ → LazyMemory) (a : Access) :
    Reply × (ℕ → LazyMemory) :=
  let (reply, after) := flatAccess program (m (owner a.space a.page)) a
  (reply, Function.update m (owner a.space a.page) after)

/-- The frame in the entry of a page. -/
def frameOf (s : System) (x v : ℕ) : ℤ := ((s.spaces x).pageTable v).physicalPage

/-- The translation that is hit is that of the address space. A page that has to be loaded
finds a free frame, and no other address space of the family has it in memory. -/
def Shares (family : List ℕ) (owner : ℕ → ℕ → ℕ) (s : System) (a : Access) : Prop :=
  (∀ i ∈ lookup s.tlb a.page,
    Resident s a.space a.page ∧ (s.tlb i).physicalPage = frameOf s a.space a.page) ∧
  (lookup s.tlb a.page = none → ¬ Resident s a.space a.page →
    s.invertedPageTable.physicalPagesBitmap.firstClear ≠ none ∧
    ∀ y ∈ family, owner y a.page = owner a.space a.page → ¬ Resident s y a.page)

instance (family : List ℕ) (owner : ℕ → ℕ → ℕ) (s : System) (a : Access) :
    Decidable (Shares family owner s a) := by
  unfold Shares
  infer_instance

/-- The memories `m` are what `s` makes of a family of address spaces of one program. -/
structure Backs (family : List ℕ) (owner : ℕ → ℕ → ℕ) (program : AddrSpace) (s : System)
    (m : ℕ → LazyMemory) : Prop where
  numbered : Numbered s
  allocating : Allocating s
  numPages : ∀ x ∈ family, (s.spaces x).numPages = program.numPages
  ownExecutable : ∀ x ∈ family, (s.spaces x).ownExecutable = program.ownExecutable
  loaded : ∀ x ∈ family, ∀ v, Resident s x v → (m (owner x v)).loaded v = true
  used : ∀ x ∈ family, ∀ v, (m (owner x v)).loaded v = true →
    ∃ y ∈ family, owner y v = owner x v ∧ Resident s y v
  frame : ∀ x ∈ family, ∀ v, Resident s x v → ∃ f < numPhysPagesIPT, frameOf s x v = (f : ℕ) ∧
    s.invertedPageTable.physicalPagesBitmap.marked f = true ∧
    Holds s.mainMemory f (m (owner x v)).data v
  injective : ∀ x ∈ family, ∀ y ∈ family, ∀ v w, Resident s x v → Resident s y w →
    frameOf s x v = frameOf s y w → v = w ∧ owner x v = owner y w
  /-- A page of one owner is in one frame. -/
  single : ∀ x ∈ family, ∀ y ∈ family, ∀ v, Resident s x v → Resident s y v →
    owner x v = owner y v → frameOf s x v = frameOf s y v
  /-- A frame that was never handed out is zero. -/
  fresh : ∀ f < numPhysPagesIPT, s.invertedPageTable.physicalPagesBitmap.marked f = false →
    ∀ k < pageSize, s.mainMemory (f * pageSize + k) = 0

section

variable {family : List ℕ} {owner : ℕ → ℕ → ℕ} {program : AddrSpace} {s s' : System}
  {m : ℕ → LazyMemory} {a : Access}

theorem Backs.of_same (hb : Backs family owner program s m) (hmap : SameMapping s s') :
    Backs family owner program s' m := by
  have hres : ∀ x v, Resident s' x v ↔ Resident s x v := by
    intro x v
    rw [Resident, Resident, hmap.virtualPage]
  have hframe : ∀ x v, frameOf s' x v = frameOf s x v := fun x v => hmap.physicalPage x v
  exact {
    numbered := numbered_of_same hb.numbered hmap
    allocating := allocating_of_same hb.allocating hmap
    numPages := fun x hx => (hmap.numPages x).trans (hb.numPages x hx)
    ownExecutable := fun x hx => (hmap.ownExecutable x).trans (hb.ownExecutable x hx)
    loaded := by simpa only [hres] using hb.loaded
    used := by simpa only [hres] using hb.used
    frame := by
      simpa only [hres, hframe, hmap.frames.physicalPagesBitmap, hmap.mainMemory] using hb.frame
    injective := by simpa only [hres, hframe] using hb.injective
    single := by simpa only [hres, hframe] using hb.single
    fresh := by
      simpa only [hmap.frames.physicalPagesBitmap, hmap.mainMemory] using hb.fresh }

theorem Backs.switchTo (hb : Backs family owner program s m) (x : ℕ) :
    Backs family owner program (s.switchTo x) m :=
  ⟨hb.numbered, hb.allocating.switchTo x, hb.numPages, hb.ownExecutable, hb.loaded, hb.used,
    hb.frame, hb.injective, hb.single, hb.fresh⟩

/-- Writing inside another frame changes nothing. -/
theorem Holds.blit_memory {memory data : Bytes} {f g v off n : ℕ} (h : Holds memory f data v)
    (hf : f ≠ g) (hn : off + n ≤ pageSize) (bytes : Bytes) :
    Holds (Bytes.blit memory (g * pageSize + off) n bytes) f data v := by
  intro k hk
  have hfg := LazyMemory.aligned_disjoint (n := pageSize) hf
  rw [Bytes.window_blit_disjoint memory bytes (by omega) k hk]
  exact h k hk

/-- Writing the same bytes to the page and to its frame. -/
theorem Holds.blit_same {memory data : Bytes} {f v off n : ℕ} (h : Holds memory f data v)
    (bytes : Bytes) :
    Holds (Bytes.blit memory (f * pageSize + off) n bytes) f
      (Bytes.blit data (v * pageSize + off) n bytes) v := by
  intro k hk
  have hk' := h k hk
  simp only [Bytes.window, Bytes.blit] at hk' ⊢
  rw [hk']
  have hsub : f * pageSize + k - (f * pageSize + off) = v * pageSize + k - (v * pageSize + off) := by
    omega
  rw [hsub]
  refine if_congr ?_ rfl rfl
  omega

/-! ## Writing -/

theorem Backs.write (hb : Backs family owner program s m) {x f p off n : ℕ} (bytes : Bytes)
    (hx : x ∈ family) (hres : Resident s x p) (hframe : frameOf s x p = f)
    (hoff : off + n ≤ pageSize) :
    Backs family owner program
      (s.withMemory (Bytes.blit s.mainMemory (f * pageSize + off) n bytes))
      (Function.update m (owner x p) ((m (owner x p)).write (p * pageSize + off) n bytes)) := by
  -- a store changes what the page holds and not which pages have been loaded
  have hloaded : ∀ o, (Function.update m (owner x p)
      ((m (owner x p)).write (p * pageSize + off) n bytes) o).loaded = (m o).loaded := by
    intro o
    by_cases ho : o = owner x p
    · rw [ho, Function.update_self]
      rfl
    · rw [Function.update_of_ne ho]
  obtain ⟨g, -, hg, hmarked, -⟩ := hb.frame x hx p hres
  have hgf : g = f := by
    have : (g : ℤ) = f := hg.symm.trans hframe
    exact_mod_cast this
  rw [hgf] at hmarked
  have halloc := hb.allocating
  refine ⟨hb.numbered, ⟨halloc.numBits, halloc.swapBits, halloc.unused⟩, hb.numPages,
    hb.ownExecutable, ?loaded, ?used, fun y hy v hv => ?frame, hb.injective, hb.single,
    fun f' hf' hclear k hk => ?fresh⟩
  case loaded =>
    simp only [hloaded]
    exact hb.loaded
  case used =>
    simp only [hloaded]
    exact hb.used
  case frame =>
    obtain ⟨f', hlt, hf', hmarked', hholds⟩ := hb.frame y hy v hv
    refine ⟨f', hlt, hf', hmarked', ?_⟩
    show Holds (Bytes.blit s.mainMemory (f * pageSize + off) n bytes) f' _ v
    by_cases hsame : f' = f
    · -- the page that is written, under whichever of its address spaces
      obtain ⟨rfl, howner⟩ := hb.injective y hy x hx v p hv hres (by rw [hf', hframe, hsame])
      rw [howner, Function.update_self, hsame]
      rw [howner, hsame] at hholds
      exact hholds.blit_same bytes
    · by_cases howner : owner y v = owner x p
      · -- another page of the same owner: a page of one owner is in one frame
        have hvp : v ≠ p := by
          rintro rfl
          have hone := hb.single y hy x hx v hv hres howner
          rw [hf', hframe] at hone
          exact hsame (by exact_mod_cast hone)
        rw [howner] at hholds
        rw [howner, Function.update_self]
        exact hholds.blit hsame hvp hoff hoff bytes bytes
      · rw [Function.update_of_ne howner]
        exact hholds.blit_memory hsame hoff bytes
  case fresh =>
    -- the frame that is written is taken, so it is none of those that are clear
    have hne : f' ≠ f := by
      rintro rfl
      rw [show s.invertedPageTable.physicalPagesBitmap.marked f' = false from hclear] at hmarked
      cases hmarked
    have hdisj := LazyMemory.aligned_disjoint (n := pageSize) hne
    have hsame := Bytes.window_blit_disjoint s.mainMemory bytes (n := n)
      (show f' * pageSize + pageSize ≤ f * pageSize + off ∨
        f * pageSize + off + n ≤ f' * pageSize by omega) k hk
    exact hsame.trans (hb.fresh f' hf' hclear k hk)

/-! ## Loading -/

/-- The state once page `p` of the current address space is in the free frame `g`, with `n`
bytes copied there. -/
def loadInto (s : System) (p g n : ℕ) (bytes : Bytes) : System :=
  (s.giveFrame g p).install p (s.space.pageTable p) g n bytes

theorem loadInto_mainMemory (s : System) (p g n : ℕ) (bytes : Bytes) :
    (s.loadInto p g n bytes).mainMemory = Bytes.blit s.mainMemory (g * pageSize + 0) n bytes := by
  show Bytes.blit s.mainMemory ((g : ℤ) * (pageSize : ℤ)).toNat n bytes = _
  rw [← Int.natCast_mul, Int.toNat_natCast, Nat.add_zero]

theorem loadInto_marked (s : System) (p g n : ℕ) (bytes : Bytes) (f : ℕ) :
    (s.loadInto p g n bytes).invertedPageTable.physicalPagesBitmap.marked f =
      if f = g then true else s.invertedPageTable.physicalPagesBitmap.marked f :=
  BitMap.markBit_marked _ g f

theorem loadInto_self (s : System) (p g n : ℕ) (bytes : Bytes) :
    Resident (s.loadInto p g n bytes) s.currentSpace p ∧
      frameOf (s.loadInto p g n bytes) s.currentSpace p = g := by
  have htable := install_pageTable (s.giveFrame g p) p (s.space.pageTable p) g n bytes
  constructor
  · show ((s.loadInto p g n bytes).space.pageTable p).virtualPage ≠ -1
    rw [loadInto, htable, Function.update_self]
    exact natCast_ne_neg_one p
  · show ((s.loadInto p g n bytes).space.pageTable p).physicalPage = g
    rw [loadInto, htable, Function.update_self]

theorem loadInto_pageTable_of_ne (s : System) {p x v : ℕ} (g n : ℕ) (bytes : Bytes)
    (h : ¬ (x = s.currentSpace ∧ v = p)) :
    ((s.loadInto p g n bytes).spaces x).pageTable v = (s.spaces x).pageTable v := by
  by_cases hx : x = s.currentSpace
  · subst hx
    have hv : v ≠ p := fun hv => h ⟨rfl, hv⟩
    show (s.loadInto p g n bytes).space.pageTable v = _
    rw [loadInto, install_pageTable, Function.update_of_ne hv]
    rfl
  · rw [loadInto, install_spaces_of_ne _ _ _ _ _ _ (show x ≠ (s.giveFrame g p).currentSpace from hx)]
    rfl

theorem loadInto_resident_of_ne (s : System) {p x v : ℕ} (g n : ℕ) (bytes : Bytes)
    (h : ¬ (x = s.currentSpace ∧ v = p)) :
    Resident (s.loadInto p g n bytes) x v ↔ Resident s x v := by
  rw [Resident, Resident, loadInto_pageTable_of_ne s g n bytes h]

theorem loadInto_frameOf_of_ne (s : System) {p x v : ℕ} (g n : ℕ) (bytes : Bytes)
    (h : ¬ (x = s.currentSpace ∧ v = p)) :
    frameOf (s.loadInto p g n bytes) x v = frameOf s x v := by
  rw [frameOf, frameOf, loadInto_pageTable_of_ne s g n bytes h]

/-- A frame just filled from the file, and the page just touched. -/
theorem Holds.loaded {memory data : Bytes} {g n p : ℕ}
    (hzero : ∀ k < pageSize, memory (g * pageSize + k) = 0) (bytes : Bytes) :
    Holds (Bytes.blit memory (g * pageSize + 0) n bytes) g
      (Bytes.blit data (p * pageSize) pageSize (Bytes.blit (fun _ => 0) 0 n bytes)) p := by
  intro k hk
  rw [Bytes.window_blit_self _ _ _ _ k hk, Nat.add_zero]
  by_cases hkn : k < n
  · rw [Bytes.window_blit_self _ _ _ _ k hkn, Bytes.blit_of_mem (by omega) (by omega), Nat.sub_zero]
  · rw [Bytes.window, Bytes.blit_of_ge (by omega), Bytes.blit_of_ge (by omega)]
    exact hzero k hk

/-- Pages in memory are in frames that are in use. -/
theorem Backs.frameOf_ne (hb : Backs family owner program s m) {x v g : ℕ} (hx : x ∈ family)
    (hres : Resident s x v) (hclear : s.invertedPageTable.physicalPagesBitmap.marked g = false) :
    frameOf s x v ≠ g := by
  intro heq
  obtain ⟨f, -, hf, hmarked, -⟩ := hb.frame x hx v hres
  have hfg : f = g := by
    have : (f : ℤ) = g := hf.symm.trans heq
    exact_mod_cast this
  rw [hfg, hclear] at hmarked
  cases hmarked

/-- A page is used for the first time by any of the address spaces it belongs to. There is a free
frame for it, of which `n` bytes are filled. -/
structure FirstUse (family : List ℕ) (owner : ℕ → ℕ → ℕ) (s : System) (p g n : ℕ) : Prop where
  current : s.currentSpace ∈ family
  absent : ∀ y ∈ family, owner y p = owner s.currentSpace p → ¬ Resident s y p
  lt : g < numPhysPagesIPT
  clear : s.invertedPageTable.physicalPagesBitmap.marked g = false
  le : n ≤ pageSize

section FirstUse

variable {p g n y z v w f : ℕ} {bytes contents : Bytes}

/-- What is in memory afterwards: the page that was loaded, and what was there before. -/
theorem loadInto_resident_iff : Resident (s.loadInto p g n bytes) y v ↔
    (y = s.currentSpace ∧ v = p) ∨ Resident s y v := by
  by_cases hyv : y = s.currentSpace ∧ v = p
  · obtain ⟨rfl, rfl⟩ := hyv
    exact iff_of_true (loadInto_self s v g n bytes).1 (.inl ⟨rfl, rfl⟩)
  · rw [loadInto_resident_of_ne s g n bytes hyv, or_iff_right hyv]

theorem loadInto_frameOf : frameOf (s.loadInto p g n bytes) y v =
    if y = s.currentSpace ∧ v = p then (g : ℤ) else frameOf s y v := by
  split
  · rename_i hyv
    rw [hyv.1, hyv.2]
    exact (loadInto_self s p g n bytes).2
  · rename_i hyv
    exact loadInto_frameOf_of_ne s g n bytes hyv

/-- The pages that the owners have used. -/
theorem update_touch_loaded_iff {o o' : ℕ} : (Function.update m o
    ((m o).touch pageSize p contents) o').loaded v = true ↔
      (v = p ∧ o' = o) ∨ (m o').loaded v = true := by
  by_cases ho : o' = o
  · rw [ho, Function.update_self, LazyMemory.touch_loaded_iff, and_iff_left rfl]
  · rw [Function.update_of_ne ho, or_iff_right fun h => ho h.2]

theorem Backs.load_loaded (hb : Backs family owner program s m) (hy : y ∈ family)
    (hv : Resident (s.loadInto p g n bytes) y v) :
    (Function.update m (owner s.currentSpace p)
      ((m (owner s.currentSpace p)).touch pageSize p contents) (owner y v)).loaded v = true := by
  rw [update_touch_loaded_iff]
  rcases loadInto_resident_iff.mp hv with ⟨rfl, rfl⟩ | hv
  · exact .inl ⟨rfl, rfl⟩
  · exact .inr (hb.loaded y hy v hv)

theorem Backs.load_used (hb : Backs family owner program s m)
    (hu : FirstUse family owner s p g n) (hy : y ∈ family)
    (hv : (Function.update m (owner s.currentSpace p)
      ((m (owner s.currentSpace p)).touch pageSize p contents) (owner y v)).loaded v = true) :
    ∃ z ∈ family, owner z v = owner y v ∧ Resident (s.loadInto p g n bytes) z v := by
  rcases update_touch_loaded_iff.mp hv with ⟨rfl, howner⟩ | hold
  · exact ⟨s.currentSpace, hu.current, howner.symm, loadInto_resident_iff.mpr (.inl ⟨rfl, rfl⟩)⟩
  · obtain ⟨z, hz, howner, hres⟩ := hb.used y hy v hold
    exact ⟨z, hz, howner, loadInto_resident_iff.mpr (.inr hres)⟩

/-- The new page is in frame `g`, which was zero behind the bytes that are copied. The other pages
keep their frames. -/
theorem Backs.load_frame (hb : Backs family owner program s m)
    (hu : FirstUse family owner s p g n)
    (hunused : (m (owner s.currentSpace p)).loaded p = false) (hy : y ∈ family)
    (hv : Resident (s.loadInto p g n bytes) y v) : ∃ f < numPhysPagesIPT,
      frameOf (s.loadInto p g n bytes) y v = (f : ℕ) ∧
      (s.loadInto p g n bytes).invertedPageTable.physicalPagesBitmap.marked f = true ∧
      Holds (s.loadInto p g n bytes).mainMemory f (Function.update m (owner s.currentSpace p)
        ((m (owner s.currentSpace p)).touch pageSize p (Bytes.blit (fun _ => 0) 0 n bytes))
        (owner y v)).data v := by
  rw [loadInto_mainMemory, loadInto_frameOf, LazyMemory.touch_of_not_loaded hunused]
  by_cases hyv : y = s.currentSpace ∧ v = p
  · obtain ⟨rfl, rfl⟩ := hyv
    rw [Function.update_self, if_pos ⟨rfl, rfl⟩]
    exact ⟨g, hu.lt, rfl, by rw [loadInto_marked, if_pos rfl],
      .loaded (hb.fresh g hu.lt hu.clear) bytes⟩
  · rw [loadInto_resident_of_ne s g n bytes hyv] at hv
    obtain ⟨f, hf, hframe, hmarked, hholds⟩ := hb.frame y hy v hv
    have hfg : f ≠ g := by
      rintro rfl
      exact hb.frameOf_ne hy hv hu.clear hframe
    rw [if_neg hyv]
    refine ⟨f, hf, hframe, by rw [loadInto_marked, if_neg hfg]; exact hmarked, ?_⟩
    have hn := hu.le
    have hoff : 0 + n ≤ pageSize := by omega
    have hoff' : 0 + pageSize ≤ pageSize := by omega
    by_cases howner : owner y v = owner s.currentSpace p
    · -- an address space with the same owner has the page not
      have hvp : v ≠ p := by
        rintro rfl
        exact hu.absent y hy howner hv
      rw [howner] at hholds ⊢
      rw [Function.update_self]
      exact hholds.blit hfg hvp hoff hoff' bytes _
    · rw [Function.update_of_ne howner]
      exact hholds.blit_memory hfg hoff bytes

/-- No page had the frame that was free. -/
theorem Backs.load_injective (hb : Backs family owner program s m)
    (hu : FirstUse family owner s p g n) (hy : y ∈ family) (hz : z ∈ family)
    (hv : Resident (s.loadInto p g n bytes) y v) (hw : Resident (s.loadInto p g n bytes) z w)
    (heq : frameOf (s.loadInto p g n bytes) y v = frameOf (s.loadInto p g n bytes) z w) :
    v = w ∧ owner y v = owner z w := by
  rw [loadInto_frameOf, loadInto_frameOf] at heq
  by_cases hyv : y = s.currentSpace ∧ v = p
  · by_cases hzw : z = s.currentSpace ∧ w = p
    · rw [hyv.1, hyv.2, hzw.1, hzw.2]
      exact ⟨rfl, rfl⟩
    · rw [loadInto_resident_of_ne s g n bytes hzw] at hw
      rw [if_pos hyv, if_neg hzw] at heq
      exact absurd heq.symm (hb.frameOf_ne hz hw hu.clear)
  · rw [loadInto_resident_of_ne s g n bytes hyv] at hv
    rw [if_neg hyv] at heq
    by_cases hzw : z = s.currentSpace ∧ w = p
    · rw [if_pos hzw] at heq
      exact absurd heq (hb.frameOf_ne hy hv hu.clear)
    · rw [loadInto_resident_of_ne s g n bytes hzw] at hw
      rw [if_neg hzw] at heq
      exact hb.injective y hy z hz v w hv hw heq

/-- Nobody with the same owner had the page, so there is still one frame for it. -/
theorem Backs.load_single (hb : Backs family owner program s m)
    (hu : FirstUse family owner s p g n) (hy : y ∈ family) (hz : z ∈ family)
    (hv : Resident (s.loadInto p g n bytes) y v) (hw : Resident (s.loadInto p g n bytes) z v)
    (howner : owner y v = owner z v) :
    frameOf (s.loadInto p g n bytes) y v = frameOf (s.loadInto p g n bytes) z v := by
  rw [loadInto_frameOf, loadInto_frameOf]
  by_cases hyv : y = s.currentSpace ∧ v = p
  · by_cases hzv : z = s.currentSpace ∧ v = p
    · rw [if_pos hyv, if_pos hzv]
    · rw [loadInto_resident_of_ne s g n bytes hzv] at hw
      rw [hyv.1, hyv.2] at howner
      rw [hyv.2] at hw
      exact absurd hw (hu.absent z hz howner.symm)
  · rw [loadInto_resident_of_ne s g n bytes hyv] at hv
    by_cases hzv : z = s.currentSpace ∧ v = p
    · rw [hzv.1, hzv.2] at howner
      rw [hzv.2] at hv
      exact absurd hv (hu.absent y hy howner)
    · rw [loadInto_resident_of_ne s g n bytes hzv] at hw
      rw [if_neg hyv, if_neg hzv]
      exact hb.single y hy z hz v hv hw howner

theorem Backs.load_fresh (hb : Backs family owner program s m)
    (hu : FirstUse family owner s p g n) (hf : f < numPhysPagesIPT)
    (hmark : (s.loadInto p g n bytes).invertedPageTable.physicalPagesBitmap.marked f = false)
    (k : ℕ) (hk : k < pageSize) :
    (s.loadInto p g n bytes).mainMemory (f * pageSize + k) = 0 := by
  rw [loadInto_marked] at hmark
  split at hmark
  · cases hmark
  · rename_i hfg
    have hn := hu.le
    have hdisj := LazyMemory.aligned_disjoint (n := pageSize) hfg
    have hsame := Bytes.window_blit_disjoint s.mainMemory bytes (n := n)
      (show f * pageSize + pageSize ≤ g * pageSize + 0 ∨ g * pageSize + 0 + n ≤ f * pageSize
        by omega) k hk
    rw [loadInto_mainMemory]
    exact hsame.trans (hb.fresh f hf hmark k hk)

end FirstUse

/-- The first use of a page by any of the address spaces it belongs to. -/
theorem Backs.load (hb : Backs family owner program s m) {g n : ℕ} {bytes : Bytes}
    (hx : s.currentSpace ∈ family)
    (habsent : ∀ y ∈ family, owner y a.page = owner s.currentSpace a.page →
      ¬ Resident s y a.page)
    (hfree : s.invertedPageTable.physicalPagesBitmap.firstClear = some g)
    (htransfer : diskTransfer s.space a.addr = .ok (n, bytes))
    (hloaded : Loaded s a.addr (s.loadInto a.page g n bytes)) :
    Backs family owner program (s.loadInto a.page g n bytes)
      (Function.update m (owner s.currentSpace a.page)
        ((m (owner s.currentSpace a.page)).touch pageSize a.page
          (firstLoaded program a.addr))) := by
  obtain ⟨hg, hclear⟩ := BitMap.firstClear_spec hfree
  rw [hb.allocating.numBits] at hg
  have hu : FirstUse family owner s a.page g n :=
    ⟨hx, habsent, hg, hclear, diskTransfer_le htransfer⟩
  -- a page that has been loaded is resident somewhere, as no frame is taken back here
  have hunused : (m (owner s.currentSpace a.page)).loaded a.page = false := by
    rw [Bool.eq_false_iff]
    intro h
    obtain ⟨y, hy, howner, hres⟩ := hb.used s.currentSpace hx a.page h
    exact habsent y hy howner hres
  have hcontents : firstLoaded program a.addr = Bytes.blit (fun _ => 0) 0 n bytes := by
    have hsame : diskTransfer s.space a.addr = diskTransfer program a.addr := by
      unfold diskTransfer space
      rw [hb.numPages _ hx, hb.ownExecutable _ hx]
    rw [firstLoaded, ← hsame, htransfer]
  obtain ⟨-, hnumPages, hexecutable, hother⟩ := hloaded.kept
  rw [hcontents]
  exact {
    numbered := hloaded.numbered hb.numbered
    allocating := hloaded.allocating hb.allocating
    numPages := fun y hy => by
      by_cases hcur : y = s.currentSpace
      · rw [hcur]
        exact hnumPages.trans (hb.numPages _ hx)
      · rw [hother y hcur]
        exact hb.numPages y hy
    ownExecutable := fun y hy => by
      by_cases hcur : y = s.currentSpace
      · rw [hcur]
        exact hexecutable.trans (hb.ownExecutable _ hx)
      · rw [hother y hcur]
        exact hb.ownExecutable y hy
    loaded := fun y hy v hv => hb.load_loaded hy hv
    used := fun y hy v hv => hb.load_used hu hy hv
    frame := fun y hy v hv => hb.load_frame hu hunused hy hv
    injective := fun y hy z hz v w hv hw heq => hb.load_injective hu hy hz hv hw heq
    single := fun y hy z hz v hv hw howner => hb.load_single hu hy hz hv hw howner
    fresh := fun f hf hmark k hk => hb.load_fresh hu hf hmark k hk }

/-! ## Accesses -/

/-- A hit on the translation of the address space gives the address in the page's frame. -/
theorem Backs.hit (hb : Backs family owner program s m) {w : Bool} {pa : ℕ}
    (hx : a.space ∈ family) (htranslated : Translated s a.addr a.size w (.ok pa) s')
    (hown : ∀ i ∈ lookup s.tlb a.page, Resident s a.space a.page ∧
      (s.tlb i).physicalPage = frameOf s a.space a.page) :
    ∃ f : ℕ, pa = f * pageSize + a.addr % pageSize ∧ Backs family owner program s' m ∧
      Resident s a.space a.page ∧ Resident s' a.space a.page ∧ frameOf s' a.space a.page = f := by
  obtain ⟨hmap, -⟩ := htranslated.same
  obtain ⟨i, hlookup, hpa⟩ := htranslated.frame
  obtain ⟨hres, hphysical⟩ := hown i hlookup
  obtain ⟨f, hf, hframe, -, -⟩ := hb.frame a.space hx a.page hres
  refine ⟨f, ?_, hb.of_same hmap, hres, ?_, (hmap.physicalPage _ _).trans hframe⟩
  · rw [hpa, hphysical, hframe, toUnsigned_natCast (by rw [numPhysPagesIPT_eq] at hf; omega)]
  · rw [Resident, hmap.virtualPage]
    exact hres

theorem Loaded.eq_of_resident {addr : ℕ} (h : Loaded s addr s')
    (hpage : (s.space.pageTable (addr / pageSize)).virtualPage ≠ -1) : s' = s := by
  cases h with
  | resident => rfl
  | fromSwap habsent => exact absurd habsent hpage
  | lost habsent => exact absurd habsent hpage
  | fromDisk habsent => exact absurd habsent hpage

/-- The first half of the handler. -/
theorem Backs.loads (hb : Backs family owner program s m) (hcur : s.currentSpace = a.space)
    (hx : a.space ∈ family) (hmiss : lookup s.tlb a.page = none) (hshares : Shares family owner s a)
    (hloaded : Loaded s a.addr s') :
    Backs family owner program s' (Function.update m (owner a.space a.page)
      ((m (owner a.space a.page)).touch pageSize a.page (firstLoaded program a.addr))) ∧
    Resident s' a.space a.page ∧ s'.tlb = s.tlb := by
  by_cases hres : Resident s a.space a.page
  · have hsame : s' = s := hloaded.eq_of_resident (by rw [space, hcur]; exact hres)
    subst hsame
    rw [LazyMemory.touch_of_loaded (hb.loaded a.space hx a.page hres), Function.update_eq_self]
    exact ⟨hb, hres, rfl⟩
  · obtain ⟨hfree, habsent⟩ := hshares.2 hmiss hres
    obtain ⟨g, hg⟩ := Option.ne_none_iff_exists'.mp hfree
    rcases hloaded.of_free hb.allocating hg with ⟨hpage, -⟩ | ⟨n, bytes, -, htransfer, -, hs'⟩
    · rw [space, hcur] at hpage
      exact absurd hpage hres
    · have hload : s' = s.loadInto a.page g n bytes := hs'
      subst hload
      rw [← hcur] at hx habsent ⊢
      exact ⟨hb.load hx habsent hg htransfer hloaded, (loadInto_self s a.page g n bytes).1, rfl⟩

/-- The entry for a page that was not in the TLB is the one just loaded. -/
theorem lookup_filled {t : Fin tlbSize → TranslationEntry} {e : TranslationEntry}
    {slot i : Fin tlbSize} {p : ℕ} (hmiss : lookup t p = none)
    (hlookup : lookup (Function.update t slot e) p = some i) : i = slot := by
  obtain ⟨hvalid, hpage⟩ := lookup_some hlookup
  by_contra hi
  rw [Function.update_of_ne hi] at hvalid hpage
  exact lookup_none_iff.mp hmiss i hvalid hpage

theorem Backs.resolved (hb : Backs family owner program s m) (hcur : s.currentSpace = a.space)
    (hx : a.space ∈ family) (hshares : Shares family owner s a) {pa : Option ℕ} {y : ℕ}
    (hres : Resolved s a pa s') (hy : pa = some y) :
    ∃ f : ℕ, y = f * pageSize + a.addr % pageSize ∧
      Backs family owner program s' (Function.update m (owner a.space a.page)
        ((m (owner a.space a.page)).touch pageSize a.page (firstLoaded program a.addr))) ∧
      Resident s' a.space a.page ∧ frameOf s' a.space a.page = f := by
  cases hres with
  | hit htranslated =>
    cases hy
    obtain ⟨f, hf, hb', hres, hres', hframe⟩ := hb.hit hx htranslated hshares.1
    rw [LazyMemory.touch_of_loaded (hb.loaded a.space hx a.page hres), Function.update_eq_self]
    exact ⟨f, hf, hb', hres', hframe⟩
  | @fault s₂ _ r hmiss hfault htranslated =>
    cases r with
    | error e => cases hy
    | ok y' =>
      cases hy
      obtain ⟨-, s₁, hloaded, hfill⟩ := pageFaultException_ok hb.numbered hfault
      obtain ⟨hb₁, hres₁, htlb₁⟩ := hb.loads hcur hx hmiss hshares hloaded
      obtain ⟨slot, hmap, htlb⟩ := fillTLB_ok hfill
      have hcur₁ : s₁.currentSpace = a.space := hloaded.kept.1.trans hcur
      have hres₂ : Resident s₂ a.space a.page := by
        rw [Resident, hmap.virtualPage]
        exact hres₁
      obtain ⟨f, hf, hb', -, hres', hframe⟩ := (hb₁.of_same hmap).hit hx htranslated
        fun i hi => ⟨hres₂, by
          rw [htlb₁] at htlb
          rw [htlb] at hi
          obtain rfl := lookup_filled hmiss hi
          rw [htlb, Function.update_self, frameOf, hmap.physicalPage, translationOf, space, hcur₁]
          rfl⟩
      exact ⟨f, hf, hb', hres', hframe⟩

/-- An access that does not fail is answered as the memory of the owner answers it. -/
theorem Backs.access (hb : Backs family owner program s m) (hx : a.space ∈ family)
    (hshares : Shares family owner s a) {reply : Reply} (h : s.access a = .ok (reply, s'))
    (hreply : reply ≠ .failed) :
    reply = (ownedAccess program owner m a).1 ∧
      Backs family owner program s' (ownedAccess program owner m a).2 := by
  obtain ⟨pa, s₁, hres, hafter⟩ := access_ok h
  cases pa with
  | none =>
    -- a failed access is excluded by the hypothesis
    cases hw : a.write with
    | none =>
      rw [hw] at hafter
      exact absurd hafter.1 hreply
    | some v =>
      rw [hw] at hafter
      exact absurd hafter.1 hreply
  | some y =>
    obtain ⟨f, rfl, hb₁, hres₁, hframe⟩ :=
      (hb.switchTo a.space).resolved rfl hx (show Shares family owner (s.switchTo a.space) a
        from hshares) hres rfl
    cases hw : a.write with
    | none =>
      rw [hw] at hafter
      obtain ⟨rfl, rfl⟩ := hafter
      simp only [ownedAccess, flatAccess, hw]
      -- a load reads in the frame what the owner's memory holds
      refine ⟨?_, hb₁⟩
      obtain ⟨g, -, hg, -, hholds⟩ := hb₁.frame a.space hx a.page hres₁
      have hgf : g = f := by
        have : (g : ℤ) = f := hg.symm.trans hframe
        exact_mod_cast this
      rw [hgf, Function.update_self] at hholds
      congr 1
      refine readValue_congr fun k hk => ?_
      have hoff := a.offset_le
      have hk' := hholds (a.addr % pageSize + k) (by omega)
      nth_rewrite 3 [a.addr_eq]
      rw [Nat.add_assoc, Nat.add_assoc]
      exact hk'
    | some v =>
      rw [hw] at hafter
      obtain ⟨rfl, rfl⟩ := hafter
      simp only [ownedAccess, flatAccess, hw]
      refine ⟨trivial, ?_⟩
      -- a store goes to the frame and, by `Backs.write`, to the owner's memory
      have hwrite := hb₁.write (valueBytes v) hx hres₁ hframe a.offset_le
      rw [← a.addr_eq, Function.update_self, Function.update_idem] at hwrite
      exact hwrite

end

/-! ## What the parent has in memory -/

/-- The memory of an address space, as far as its pages are in memory. -/
def image (s : System) (x : ℕ) : LazyMemory where
  loaded v := decide (Resident s x v)
  data i := s.mainMemory ((frameOf s x (i / pageSize)).toNat * pageSize + i % pageSize)

/-- The pages in memory are in frames of their own. -/
def InFrames (s : System) (x : ℕ) : Prop := ∀ v < (s.spaces x).numPages, Resident s x v →
  (0 ≤ frameOf s x v ∧ frameOf s x v < numPhysPagesIPT) ∧
  ∀ w < (s.spaces x).numPages, Resident s x w → frameOf s x v = frameOf s x w → v = w

instance (s : System) (x : ℕ) : Decidable (InFrames s x) := by
  unfold InFrames
  infer_instance

/-- The frame of a page that is in memory is in use, and has the bytes of the page. -/
theorem InFrames.holds {s : System} {x v : ℕ} (h : InFrames s x) (huntouched : Untouched s)
    (htable : InTable s) (hres : Resident s x v) : ∃ f < numPhysPagesIPT, frameOf s x v = (f : ℕ) ∧
      s.invertedPageTable.physicalPagesBitmap.marked f = true ∧
      Holds s.mainMemory f (image s x).data v := by
  obtain ⟨⟨hnonneg, hlt⟩, -⟩ := h v (htable x v hres) hres
  obtain ⟨f, hf⟩ := Int.eq_ofNat_of_zero_le hnonneg
  have hlt' : f < numPhysPagesIPT := by
    rw [hf] at hlt
    exact_mod_cast hlt
  refine ⟨f, hlt', hf, ?_, fun k hk => ?_⟩
  · by_contra hclear
    rw [Bool.not_eq_true] at hclear
    refine huntouched.resident f hlt' hclear x v hres ?_
    rw [← frameOf, hf]
    exact toUnsigned_natCast (by rw [numPhysPagesIPT_eq] at hlt'; omega)
  · have hpos : 0 < pageSize := by omega
    have hdiv : (v * pageSize + k) / pageSize = v := by
      rw [Nat.mul_comm, Nat.mul_add_div hpos, Nat.div_eq_of_lt hk, Nat.add_zero]
    have hmod : (v * pageSize + k) % pageSize = k := by
      rw [Nat.mul_comm, Nat.mul_add_mod, Nat.mod_eq_of_lt hk]
    show s.mainMemory (f * pageSize + k) =
      s.mainMemory ((frameOf s x ((v * pageSize + k) / pageSize)).toNat * pageSize +
        (v * pageSize + k) % pageSize)
    rw [hdiv, hmod, hf]
    rfl

end System

/-! ## Parent and child -/

namespace UserThreads

open PartialRun NachOS.System

/-- The number of pages below the stack, those that are shared. -/
def sharedPages (space : AddrSpace) : ℕ :=
  toUnsigned (space.numPages - divRoundUp userStackSize pageSize)

/-- The pages below the stack belong to the parent `b`, those of the stack to each thread. -/
def forkOwner (b : ℕ) (space : AddrSpace) (x v : ℕ) : ℕ := if v < sharedPages space then b else x

/-- The memories at the time of the fork: what the parent has in memory. -/
def forkMemory (s : System) (b : ℕ) : ℕ → LazyMemory :=
  Function.update (fun _ => LazyMemory.empty) b (image s b)

theorem forkOwner_self (b : ℕ) (space : AddrSpace) (v : ℕ) : forkOwner b space b v = b := by
  unfold forkOwner
  split
  · rfl
  · rfl

/-- The address spaces after a fork. -/
structure Forked (s s' : System) (b c : ℕ) : Prop where
  mainMemory : s'.mainMemory = s.mainMemory
  bitmap : s'.invertedPageTable.physicalPagesBitmap = s.invertedPageTable.physicalPagesBitmap
  parent : s'.spaces b = s.spaces b
  numPages : (s'.spaces c).numPages = (s.spaces b).numPages
  ownExecutable : (s'.spaces c).ownExecutable = (s.spaces b).ownExecutable
  shared : ∀ v < sharedPages (s.spaces b),
    ((s'.spaces c).pageTable v).virtualPage = ((s.spaces b).pageTable v).virtualPage ∧
    ((s'.spaces c).pageTable v).physicalPage = ((s.spaces b).pageTable v).physicalPage
  stack : ∀ v, sharedPages (s.spaces b) ≤ v → ((s'.spaces c).pageTable v).virtualPage = -1

theorem fork_forked {u u' : UserThreads} {b t : ℕ} (hspace : u.space = some b)
    (hlt : b < u.numSpaces) (h : u.fork t = .ok u') : Forked u.sys u'.sys b u.numSpaces := by
  obtain ⟨b', space, hb', hconstructor, hnew⟩ := fork_ok h
  obtain ⟨-, rfl⟩ := newThread_ok hnew
  rw [hspace] at hb'
  cases hb'
  obtain ⟨hnumPages, hexecutable, -, hentries⟩ := virtualMemoryConstructor_ok hconstructor
  have hchild : Function.update u.sys.spaces u.numSpaces space u.numSpaces = space :=
    Function.update_self ..
  refine ⟨rfl, rfl, Function.update_of_ne (by omega) .., ?_, ?_, fun v hv => ?_, fun v hv => ?_⟩
  · exact (congrArg AddrSpace.numPages hchild).trans hnumPages
  · exact (congrArg AddrSpace.ownExecutable hchild).trans hexecutable
  · have hentry := hentries v
    rw [sharedPages] at hv
    rw [if_pos hv, ← hchild] at hentry
    exact hentry
  · have hentry := hentries v
    rw [sharedPages] at hv
    rw [if_neg (by omega), ← hchild] at hentry
    exact hentry

/-- What either of the two has in memory after the fork is the parent's. -/
theorem Forked.resident {s s' : System} {b c x v : ℕ} (h : Forked s s' b c)
    (hx : x ∈ [b, c]) (hres : Resident s' x v) :
    Resident s b v ∧ frameOf s' x v = frameOf s b v ∧ forkOwner b (s.spaces b) x v = b := by
  rw [List.mem_pair] at hx
  rcases hx with rfl | rfl
  · rw [Resident, h.parent] at hres
    exact ⟨hres, by rw [frameOf, h.parent, frameOf], forkOwner_self ..⟩
  · by_cases hv : v < sharedPages (s.spaces b)
    · obtain ⟨hvirtual, hphysical⟩ := h.shared v hv
      rw [Resident, hvirtual] at hres
      exact ⟨hres, hphysical, if_pos hv⟩
    · exact absurd (h.stack v (by omega)) hres

/-- Parent and child start with the pages the parent has in memory. -/
theorem Forked.backs {s s' : System} {b c : ℕ} (h : Forked s s' b c) (hbc : b ≠ c)
    (horder : InOrder s) (horder' : InOrder s') (hframes : InFrames s b) :
    Backs [b, c] (forkOwner b (s.spaces b)) (s.spaces b) s' (forkMemory s b) := by
  have hparent : ∀ v, Resident s b v → Resident s' b v := by
    intro v hv
    rw [Resident, h.parent]
    exact hv
  have hmemory : forkMemory s b b = image s b := Function.update_self ..
  refine ⟨horder'.numbered, horder'.allocating, fun x hx => ?numPages, fun x hx => ?ownExecutable,
    fun x hx v hv => ?loaded, fun x hx v hv => ?used, fun x hx v hv => ?frame,
    fun x hx y hy v w hv hw heq => ?injective, fun x hx y hy v hv hw _ => ?single, ?fresh⟩
  case numPages =>
    rw [List.mem_pair] at hx
    rcases hx with rfl | rfl
    · rw [h.parent]
    · exact h.numPages
  case ownExecutable =>
    rw [List.mem_pair] at hx
    rcases hx with rfl | rfl
    · rw [h.parent]
    · exact h.ownExecutable
  case loaded =>
    obtain ⟨hres, -, howner⟩ := h.resident hx hv
    rw [howner, hmemory]
    exact decide_eq_true hres
  case used =>
    -- only the parent has pages loaded
    have howner : forkOwner b (s.spaces b) x v = b := by
      by_contra hne
      rw [forkMemory, Function.update_of_ne hne] at hv
      cases hv
    rw [howner, hmemory] at hv
    rw [howner]
    exact ⟨b, List.mem_cons_self, forkOwner_self .., hparent v (of_decide_eq_true hv)⟩
  case frame =>
    obtain ⟨hres, hframe, howner⟩ := h.resident hx hv
    rw [hframe, howner, hmemory, h.bitmap, h.mainMemory]
    exact hframes.holds horder.untouched horder.inTable hres
  case injective =>
    obtain ⟨hres, hframe, howner⟩ := h.resident hx hv
    obtain ⟨hres', hframe', howner'⟩ := h.resident hy hw
    rw [hframe, hframe'] at heq
    have hinjective := (hframes v (horder.inTable b v hres) hres).2
    exact ⟨hinjective w (horder.inTable b w hres') hres' heq, howner.trans howner'.symm⟩
  case single =>
    obtain ⟨-, hframe, -⟩ := h.resident hx hv
    obtain ⟨-, hframe', -⟩ := h.resident hy hw
    exact hframe.trans hframe'.symm
  case fresh => exact horder'.untouched.zero

/-- After a fork, as long as every access is served by a translation of its own address space,
no page has to be evicted and no page below the stack is loaded by one of the threads when the
other one has it, what parent and child read are the contents of a memory whose pages below the
stack they share, and whose stack pages they do not. -/
theorem fork_replies {u₀ u u' : UserThreads} {es : List Event} {b t : ℕ} {as : List Access}
    {rs : List Reply} (hboot : Booted u₀) (hrun : PartialRun.run step u₀ es = .ok u)
    (hspace : u.space = some b) (hfork : u.fork t = .ok u') (hframes : InFrames u.sys b)
    (hby : ∀ a ∈ as, a.space ∈ [b, u.numSpaces])
    (hcond : Along System.step (Shares [b, u.numSpaces] (forkOwner b (u.sys.spaces b))) u'.sys as)
    (hreplies : u'.sys.replies as = .ok rs) (hdone : ∀ r ∈ rs, r ≠ .failed) :
    rs = answers (ownedAccess (u.sys.spaces b) (forkOwner b (u.sys.spaces b)))
      (forkMemory u.sys b) as := by
  -- what holds of every state of the threads before the fork
  have horder : InOrder u.sys :=
    run_invariant (fun u e u' h hst => step_inOrder h hst) hboot.inOrder hrun
  have hlt : b < u.numSpaces := by
    have halloc : Allocated u :=
      run_invariant (fun u e u' h hst => step_allocated h hst) hboot.sound.allocated hrun
    obtain ⟨thread, hthread, hb⟩ := Option.bind_eq_some_iff.mp hspace
    exact halloc u.currentThread thread hthread b hb
  -- right after the fork the two address spaces stand for the memories of their owners
  have hbacks := (fork_forked hspace hlt hfork).backs (by omega) horder
    (step_inOrder (e := .fork t) horder hfork) hframes
  refine Along.answered (R := Backs _ _ _) (fun s a r s' h => ?_)
    (fun s m a r s' hb hcond h hr => ?_) hbacks (hcond.and (.of_forall hby)) hreplies hdone
  · rw [System.step, h]
    rfl
  · exact hb.access hcond.2 hcond.1 h hr

/-! ## Two forks -/

/-- A process reads its first page. -/
def beforeFork : List Event := [.startProcess (.program [7] (80 * 128)), .access (.read 0 0)]

/-- The process forks. Both threads write to the first page and to a page of the stack. -/
def sharingAccesses : List Access :=
  [.writeTo 0 0 5, .read 1 0, .writeTo 1 82 6, .writeTo 1 0 8, .read 0 0, .read 1 84, .read 1 85,
    .read 1 86, .read 1 87, .read 0 82, .read 0 0]

theorem sharingAccesses_replies : ∃ u, PartialRun.run step freshKernel beforeFork = .ok u ∧
    ∃ u', u.fork 1 = .ok u' ∧ ∃ rs, u'.sys.replies sharingAccesses = .ok rs ∧
      rs = [.wrote, .value 5, .wrote, .wrote, .value 8, .value 0, .value 0, .value 0, .value 0,
        .value 0, .value 8] ∧
      rs = answers (ownedAccess (u.sys.spaces 0) (forkOwner 0 (u.sys.spaces 0)))
        (forkMemory u.sys 0) sharingAccesses := by
  obtain ⟨u, hrun, ⟨hspace, hnum, hframes⟩, u', hfork, hcond, rs, hreplies, hrs⟩ : ∃ u,
      PartialRun.run step freshKernel beforeFork = .ok u ∧
      (u.space = some 0 ∧ u.numSpaces = 1 ∧ InFrames u.sys 0) ∧ ∃ u', u.fork 1 = .ok u' ∧
      Along System.step (Shares [0, u.numSpaces] (forkOwner 0 (u.sys.spaces 0))) u'.sys
        sharingAccesses ∧
      ∃ rs, u'.sys.replies sharingAccesses = .ok rs ∧ rs = [.wrote, .value 5, .wrote, .wrote,
        .value 8, .value 0, .value 0, .value 0, .value 0, .value 0, .value 8] := by decide +kernel
  refine ⟨u, hrun, u', hfork, rs, hreplies, hrs, ?_⟩
  refine fork_replies freshKernel_booted hrun hspace hfork hframes ?_ hcond hreplies ?_
  · rw [hnum]
    decide
  · rw [hrs]
    decide

/-- The child reads a page of its stack while the parent's is in the TLB. Then the parent writes
to a page below the stack that was not in memory at the time of the fork, and the child reads it
once it is no longer in the TLB. -/
def separatingAccesses : List Access :=
  [.writeTo 0 88 6, .read 1 88, .writeTo 0 5 9, .read 0 10, .read 0 10, .read 0 11, .read 0 11,
    .read 0 12, .read 0 12, .read 0 13, .read 0 13, .read 1 5]

/-- The child reads what the parent wrote to its stack, and not what it wrote below. -/
theorem fork_not_shared : ¬ ∀ (u₀ u u' : UserThreads) (es : List Event) (b t : ℕ)
    (as : List Access) (rs : List Reply), Booted u₀ → PartialRun.run step u₀ es = .ok u →
    u.space = some b → u.fork t = .ok u' → (∀ a ∈ as, a.space ∈ [b, u.numSpaces]) →
    u'.sys.replies as = .ok rs → (∀ r ∈ rs, r ≠ .failed) →
    rs = answers (ownedAccess (u.sys.spaces b) (forkOwner b (u.sys.spaces b)))
      (forkMemory u.sys b) as := by
  intro h
  obtain ⟨u, hrun, ⟨hspace, hnum⟩, u', hfork, rs, hreplies, hrs, hanswers⟩ : ∃ u,
      PartialRun.run step freshKernel beforeFork = .ok u ∧
      (u.space = some 0 ∧ u.numSpaces = 1) ∧ ∃ u', u.fork 1 = .ok u' ∧
      ∃ rs, u'.sys.replies separatingAccesses = .ok rs ∧
        rs = [.wrote, .value 6, .wrote, .value 0, .value 0, .value 0, .value 0, .value 0,
          .value 0, .value 0, .value 0, .value 0] ∧
        answers (ownedAccess (u.sys.spaces 0) (forkOwner 0 (u.sys.spaces 0)))
          (forkMemory u.sys 0) separatingAccesses =
          [.wrote, .value 0, .wrote, .value 0, .value 0, .value 0, .value 0, .value 0,
            .value 0, .value 0, .value 0, .value 9] := by decide +kernel
  have hsame := h freshKernel u u' beforeFork 0 1 separatingAccesses rs freshKernel_booted hrun
    hspace hfork (by rw [hnum]; decide) hreplies (by rw [hrs]; decide)
  rw [hrs, hanswers] at hsame
  revert hsame
  decide

end UserThreads
end NachOS
