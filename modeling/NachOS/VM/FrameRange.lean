import NachOS.VM.FreeFrames

/-!
# Frames of physical memory

The inverted page table hands out the frames `0` to `63`; the machine has the frames `0` to
`31`. In a run in which every page that has to be loaded finds one of the machine's frames
free, every frame handed out is one of them: the transfers stay inside `mainMemory`, and
`Translate` never answers with a bus error. The fault after that gets frame `32`.
-/

namespace NachOS
namespace System

open PartialRun

/-- The access finds its page in the TLB or in memory, or finds a frame of the machine
free. -/
def FrameLeft (s : System) (a : Access) : Prop :=
  lookup s.tlb a.page = none → ((s.spaces a.space).pageTable a.page).virtualPage = -1 →
    ∃ f < numPhysPages, s.invertedPageTable.physicalPagesBitmap.marked f = false

/-- The frame is one of the machine's. -/
def IsFrame (f : ℤ) : Prop := 0 ≤ f ∧ f < numPhysPages

/-- The number of a frame of the machine. -/
theorem isFrame_natCast {f : ℕ} (h : f < numPhysPages) : IsFrame f :=
  ⟨by omega, by exact_mod_cast h⟩

/-! ## What can go wrong with a transfer

Only `loadFromDisk` and the two functions of the swap area touch `mainMemory` by number. -/

section Avoids

/-- Writing an entry of the page table does not touch the main memory. -/
theorem modifyEntry_avoids (s : System) (p : ℤ) (f : TranslationEntry → TranslationEntry) :
    Avoids .mainMemory (s.modifyEntry p f) := by
  unfold modifyEntry
  split
  · exact .ok _ _
  · exact .error (by decide)

/-- Nor does reading one. -/
theorem pageTableEntry_avoids (s : System) (p : ℤ) : Avoids .mainMemory (s.pageTableEntry p) := by
  unfold pageTableEntry
  split
  · exact .ok _ _
  · exact .error (by decide)

/-- A transfer outside main memory, or an index outside a page table. The replacement policy
and the executables fail in other ways. -/
def OfMemory (e : Fault) : Prop := e = .mainMemory ∨ e = .pageTable

variable {e : Fault} (he : OfMemory e)
include he

/-- Faults of another kind are no faults of memory. -/
theorem OfMemory.error {α : Type} {e' : Fault} (h : ¬ OfMemory e') :
    Avoids e (.error e' : Except Fault α) :=
  .error fun heq => h (heq ▸ he)

/-- The vectors of the inverted page table are no main memory. -/
theorem vectorGet_avoids (v : ℕ → ℤ) (i : ℤ) : Avoids e (vectorGet v i) := by
  unfold vectorGet
  split
  · exact .ok _ _
  · exact he.error (by simp [OfMemory])

theorem vectorSet_avoids (v : ℕ → ℤ) (i x : ℤ) : Avoids e (vectorSet v i x) := by
  unfold vectorSet
  split
  · exact .ok _ _
  · exact he.error (by simp [OfMemory])

/-- Counting a use or queueing a frame touches no memory. -/
theorem updatePage_avoids (t : InvertedPageTable) (f : ℤ) (b : Bool) :
    Avoids e (t.updatePage f b) := by
  unfold InvertedPageTable.updatePage
  split
  · exact .ok _ _
  · exact .ok _ _
  · refine (vectorGet_avoids he _ _).bind fun old _ => ?_
    refine (vectorSet_avoids he _ _ _).bind fun uses _ => ?_
    exact .pure _ _

/-- The loop over the queue touches no memory. -/
theorem secondChance_avoids (queue : List (ℤ × Bool)) :
    Avoids e (InvertedPageTable.secondChance queue) := by
  by_cases hne : queue = []
  · rw [hne]
    exact he.error (by simp [OfMemory])
  · obtain ⟨page, rest, heq, -⟩ := InvertedPageTable.secondChance_eq hne
    rw [heq]
    exact .ok _ _

/-- The loop over the counters of the TLB's frames touches no memory. -/
theorem leastUsedSlot_avoids (tlb : Fin tlbSize → TranslationEntry) (uses : ℕ → ℤ)
    (slots : List (Fin tlbSize)) : ∀ best, Avoids e
      (slots.foldlM (InvertedPageTable.leastUsedSlotStep tlb uses) best) := by
  induction slots with
  | nil => exact fun best => .pure _ _
  | cons slot slots ih =>
    intro best
    rw [List.foldlM_cons]
    refine Avoids.bind ?_ fun best' _ => ih best'
    exact (vectorGet_avoids he _ _).bind fun n _ => .pure _ _

/-- Choosing a TLB slot touches no memory, whatever the policy. -/
theorem getTLBEntryToReplace_avoids (t : InvertedPageTable) (tlb : Fin tlbSize → TranslationEntry) :
    Avoids e (t.getTLBEntryToReplace tlb) := by
  unfold InvertedPageTable.getTLBEntryToReplace
  split
  · exact he.error (by simp [OfMemory])
  · refine (secondChance_avoids he _).bind fun r _ => ?_
    dsimp only
    split
    · exact .pure _ _
    · exact he.error (by simp [OfMemory])
  · refine (vectorGet_avoids he _ _).bind fun n _ => ?_
    refine (leastUsedSlot_avoids he _ _ _ _).bind fun best _ => ?_
    refine (vectorSet_avoids he _ _ _).bind fun uses _ => ?_
    exact .pure _ _

/-- Choosing a frame to evict touches no memory, whatever the policy. -/
theorem getEntryToReplace_avoids (t : InvertedPageTable) : Avoids e t.getEntryToReplace := by
  unfold InvertedPageTable.getEntryToReplace
  split
  · split
    · exact he.error (by simp [OfMemory])
    · exact .ok _ _
  · exact (secondChance_avoids he _).bind fun r _ => .pure _ _
  · exact .ok _ _

/-- `Translate` itself reads and writes no memory. -/
theorem translate_avoids (s : System) (addr : ℤ) (size : Size) (w : Bool) :
    Avoids e (s.translate addr size w) := by
  unfold translate
  split
  · exact .ok _ _
  · split
    · exact .ok _ _
    · refine (updatePage_avoids he _ _ _).bind fun t _ => ?_
      refine Avoids.bind ?_ fun r _ => .pure _ _
      unfold useEntry
      dsimp only
      split
      · exact .ok _ _
      · split
        · exact .ok _ _
        · split
          · exact .ok _ _
          · exact he.error (by simp [OfMemory])

/-- Reading the executable fills a buffer, not the main memory. -/
theorem readAt_avoids (file : HostFile) (n position : ℤ) :
    Avoids e (file.readAt n position) := by
  unfold HostFile.readAt
  split
  · exact he.error (by simp [OfMemory])
  · exact .ok _ _

/-- So does reading its header. -/
theorem noffHeader_avoids (file : HostFile) : Avoids e file.noffHeader := by
  unfold HostFile.noffHeader
  split
  · exact he.error (by simp [OfMemory])
  · split
    · exact he.error (by simp [OfMemory])
    · exact .ok _ _

/-- The page is read from the executable before it is copied. -/
theorem diskTransfer_avoids (space : AddrSpace) (addr : ℤ) :
    Avoids e (diskTransfer space addr) := by
  unfold diskTransfer
  refine (noffHeader_avoids he _).bind fun noffH _ => ?_
  split
  · exact .pure _ _
  · exact readAt_avoids he _ _ _

omit he

theorem mainMemory_ofMemory : OfMemory .mainMemory := .inl rfl

/-- Loading the TLB does not touch the main memory. -/
theorem loadToTLB_avoids (s : System) (slot : Fin tlbSize) (p : ℤ) :
    Avoids .mainMemory (s.loadToTLB slot p) := by
  unfold loadToTLB
  refine Avoids.bind ?_ fun s₁ _ => ?_
  · unfold storeReplaced
    split
    · exact modifyEntry_avoids _ _ _
    · exact .ok _ _
  · refine (modifyEntry_avoids _ _ _).bind fun s₂ _ => ?_
    refine (pageTableEntry_avoids _ _).bind fun e _ => ?_
    refine (updatePage_avoids mainMemory_ofMemory _ _ _).bind fun t _ => ?_
    exact .pure _ _

/-- Nor does the whole second half of the handler. -/
theorem fillTLB_avoids (s : System) (p : ℤ) : Avoids .mainMemory (s.fillTLB p) := by
  unfold fillTLB
  split
  · exact loadToTLB_avoids _ _ _
  · exact (getTLBEntryToReplace_avoids mainMemory_ofMemory _ _).bind
      fun r _ => loadToTLB_avoids _ _ _

end Avoids

/-! ## Transfers from the executable -/

/-- Never more than one page is read. -/
theorem diskRequest_size {noffH : NoffHeader} {numPages : ℕ} {addr position size : ℤ}
    (h : diskRequest noffH numPages addr = some (position, size)) : size ≤ pageSize := by
  unfold diskRequest at h
  dsimp only at h
  split at h
  · cases h
  · simp only [Option.some.injEq, Prod.mk.injEq] at h
    obtain ⟨-, rfl⟩ := h
    split
    · exact (Int.tmod_lt_of_pos _ (by rw [pageSize_eq]; omega)).le
    · exact le_refl _

/-- At most a page is transferred. -/
theorem diskTransfer_le {space : AddrSpace} {addr : ℤ} {n : ℕ} {bytes : Bytes}
    (h : diskTransfer space addr = .ok (n, bytes)) : n ≤ pageSize := by
  obtain ⟨noffH, -, h⟩ := bind_ok_iff.mp h
  split at h
  · cases h
    exact Nat.zero_le _
  · rename_i position size hrequest
    have hsize := diskRequest_size hrequest
    unfold HostFile.readAt at h
    split at h
    · cases h
    · cases h
      have : size.toNat ≤ pageSize := by omega
      exact (Nat.min_le_left _ _).trans this

/-- A page that goes into a frame of the machine stays inside the memory. -/
theorem fits_of_isFrame {f n : ℕ} (hf : f < numPhysPages) (hn : n ≤ pageSize) : Fits f n := by
  right
  rw [pageSize_eq] at hn ⊢
  rw [memorySize_eq]
  rw [numPhysPages_eq] at hf
  omega

/-! ## The invariant -/

/-- The first free frame, when one of the machine's frames is free. -/
theorem FrameLeft.firstClear {s : System} {a : Access} (halloc : Allocating s)
    (hleft : FrameLeft s a) (hmiss : lookup s.tlb a.page = none)
    (habsent : ((s.spaces a.space).pageTable a.page).virtualPage = -1) :
    ∃ f < numPhysPages, s.invertedPageTable.physicalPagesBitmap.firstClear = some f := by
  obtain ⟨f, hf, hclear⟩ := hleft hmiss habsent
  cases hfirst : s.invertedPageTable.physicalPagesBitmap.firstClear with
  | none =>
    have hmarked := BitMap.firstClear_eq_none.mp hfirst f
      (by rw [halloc.numBits, numPhysPagesIPT_eq]; rw [numPhysPages_eq] at hf; omega)
    rw [hclear] at hmarked
    cases hmarked
  | some g => exact ⟨g, (BitMap.firstClear_le hfirst hclear).trans_lt hf, rfl⟩

/-- A page fault with a frame left puts the page into a frame of the machine. -/
theorem Loaded.framesBelow_of_left {s s' : System} {a : Access} (halloc : Allocating s)
    (hin : FramesBelow numPhysPages s) (hcur : s.currentSpace = a.space) (hleft : FrameLeft s a)
    (hmiss : lookup s.tlb a.page = none) (h : Loaded s a.addr s') :
    FramesBelow numPhysPages s' ∧ (s'.space.pageTable a.page).virtualPage ≠ -1 :=
  h.framesBelow halloc hin fun habsent => hleft.firstClear halloc hmiss (hcur ▸ habsent)

/-- All frames in use are frames of the machine, if there was one left for the access. -/
theorem step_framesBelow {s s' : System} {a : Access} (hnum : Numbered s)
    (halloc : Allocating s) (hin : FramesBelow numPhysPages s) (hleft : FrameLeft s a)
    (h : s.step a = .ok s') : FramesBelow numPhysPages s' := by
  have halloc' := halloc.switchTo a.space
  have hin' := hin.switchTo a.space
  refine step_preserves framesBelow_of_same (fun _ hin => ⟨hin.resident, hin.tlb⟩) ?_ hnum
    (fun _ => hin') h
  intro s₁ s₂ slot hmiss _ hloaded hmap htlb
  obtain ⟨hin₁, hpage⟩ := hloaded.framesBelow_of_left halloc' hin' rfl hleft hmiss
  exact framesBelow_of_fill hin₁ hpage hmap htlb

/-! ## Every run -/

/-- What the access needs of physical memory is there: the frame it may be given is one of
the machine's, no transfer leaves `mainMemory`, and neither `Translate` nor the one after
the page fault answers with a bus error. -/
structure FrameSafe (s : System) (a : Access) : Prop where
  frame : lookup s.tlb a.page = none → ((s.spaces a.space).pageTable a.page).virtualPage = -1 →
    ∀ f s', (s.switchTo a.space).getPhysicalPage a.page = .ok (f, s') → IsFrame f
  transfer : s.step a ≠ .error .mainMemory
  busError : ∀ (addr : ℤ) size writing s', s.translate addr size writing ≠
    .ok (.error .busError, s')
  retry : lookup s.tlb a.page = none →
    ∀ s₁, (s.switchTo a.space).pageFaultException a.addr = .ok s₁ →
    ∀ (addr : ℤ) size writing s', s₁.translate addr size writing ≠ .ok (.error .busError, s')

/-- The check of the frame number in `Translate` passes. -/
theorem toUnsigned_isFrame {f : ℤ} (h : IsFrame f) : toUnsigned f < numPhysPages := by
  obtain ⟨h0, h1⟩ := h
  unfold toUnsigned
  rw [numPhysPages_eq] at h1 ⊢
  omega

/-- So no `BusErrorException` is raised. -/
theorem translate_ne_busError {s s' : System} (hin : FramesBelow numPhysPages s) (addr : ℤ)
    (size : Size) (w : Bool) : s.translate addr size w ≠ .ok (.error .busError, s') := by
  intro h
  unfold translate at h
  split at h
  · cases h
  · split at h
    · cases h
    · rename_i i hlookup
      obtain ⟨hvalid, hpage⟩ := lookup_some hlookup
      have hframe := toUnsigned_isFrame (hin.tlb i hvalid)
      obtain ⟨t, -, h⟩ := bind_ok_iff.mp h
      obtain ⟨⟨r, e⟩, huse, h⟩ := bind_ok_iff.mp h
      cases h
      unfold useEntry at huse
      dsimp only at huse
      split at huse
      · cases huse
      · rw [if_neg (by omega)] at huse
        split at huse
        · cases huse
        · cases huse

/-- The handler copies into a frame of the machine. -/
theorem pageFaultException_avoids {s : System} {a : Access} (hnum : Numbered s)
    (halloc : Allocating s) (hcur : s.currentSpace = a.space) (hleft : FrameLeft s a)
    (hmiss : lookup s.tlb a.page = none) : Avoids .mainMemory (s.pageFaultException a.addr) := by
  by_cases hrange : a.addr / pageSize < s.space.numPages
  · by_cases habsent : (s.space.pageTable a.page).virtualPage = -1
    · obtain ⟨f, hf, hfree⟩ := hleft.firstClear halloc hmiss (hcur ▸ habsent)
      rw [pageFaultException_disk hrange habsent (halloc.isLoadedInSwap hfree _),
        (FrameFor.free hfree).loadFromDisk hrange]
      refine Avoids.bind ?_ fun _ _ => fillTLB_avoids _ _
      refine (diskTransfer_avoids mainMemory_ofMemory _ _).bind fun transfer htransfer => ?_
      -- the frame is in memory, and a page at most is copied
      have hfits := fits_of_isFrame hf (diskTransfer_le htransfer)
      rw [copyIn_fits.mpr ⟨hfits, rfl⟩]
      exact .ok _ _
    · rw [pageFaultException_resident hnum hrange habsent]
      exact fillTLB_avoids _ _
  · rw [pageFaultException_outside hrange]
    exact .error (by decide)

/-- The translation, the fault and the second translation stay inside the memory. -/
theorem resolve_avoids {s : System} {a : Access} (hnum : Numbered s) (halloc : Allocating s)
    (hcur : s.currentSpace = a.space) (hleft : FrameLeft s a) :
    Avoids .mainMemory (s.resolve a.addr a.size a.write.isSome) := by
  refine (translate_avoids mainMemory_ofMemory _ _ _ _).bind fun first hfirst => ?_
  obtain ⟨result, s₁⟩ := first
  have htranslated := (translate_ok_iff a.aligned a.isInt).mp hfirst
  cases result with
  | ok pa => exact .pure _ _
  | error exception =>
    refine Avoids.bind ?_ fun s₂ _ => ?_
    · cases exception with
      | readOnly => exact .error (by decide)
      | busError => exact .error (by decide)
      | addressError => exact .error (by decide)
      | pageFault =>
        cases htranslated with
        | miss hmiss => exact pageFaultException_avoids hnum halloc hcur hleft hmiss
        | hit _ _ huse => exact absurd rfl (useEntry_ok huse).2.1
    · refine (translate_avoids mainMemory_ofMemory _ _ _ _).bind fun second _ => ?_
      obtain ⟨result, s₃⟩ := second
      cases result with
      | ok pa => exact .pure _ _
      | error exception => exact .pure _ _

/-- An access stays inside the main memory. -/
theorem step_avoids {s : System} {a : Access} (hnum : Numbered s) (halloc : Allocating s)
    (hleft : FrameLeft s a) : Avoids .mainMemory (s.step a) := by
  have hresolve := resolve_avoids (a := a) (hnum.switchTo a.space)
    (halloc.switchTo a.space) rfl hleft
  refine Avoids.bind ?_ fun _ _ => .pure _ _
  unfold access
  dsimp only
  cases hw : a.write with
  | none =>
    rw [hw] at hresolve
    refine Avoids.bind ?_ fun _ _ => .pure _ _
    exact hresolve.bind fun _ _ => .pure _ _
  | some v =>
    rw [hw] at hresolve
    refine Avoids.bind ?_ fun _ _ => .pure _ _
    refine hresolve.bind fun resolved _ => ?_
    obtain ⟨pa, s₁⟩ := resolved
    cases pa with
    | none => exact .pure _ _
    | some pa => exact .pure _ _

/-- An access is safe if the frame that it may need is one of the machine. -/
theorem frameSafe_of_frameLeft {s : System} {a : Access} (hnum : Numbered s)
    (halloc : Allocating s) (hin : FramesBelow numPhysPages s) (hleft : FrameLeft s a) :
    FrameSafe s a := by
  have halloc' := halloc.switchTo a.space
  have hin' := hin.switchTo a.space
  refine ⟨fun hmiss habsent f s' hframe => ?_, step_avoids hnum halloc hleft,
    fun addr size w s' => translate_ne_busError hin addr size w,
    fun hmiss s₁ hpf addr size w s' => translate_ne_busError ?_ addr size w⟩
  · obtain ⟨g, hg, hfree⟩ := hleft.firstClear halloc hmiss habsent
    have hfree' : (s.switchTo a.space).invertedPageTable.physicalPagesBitmap.firstClear =
      some g := hfree
    rw [getPhysicalPage_free _ hfree'] at hframe
    cases hframe
    exact isFrame_natCast hg
  · obtain ⟨-, s₂, hloaded, hfill⟩ := pageFaultException_ok (hnum.switchTo a.space) hpf
    obtain ⟨slot, hmap, htlb⟩ := fillTLB_ok hfill
    obtain ⟨hin₁, hpage⟩ := hloaded.framesBelow_of_left halloc' hin' rfl hleft hmiss
    exact framesBelow_of_fill hin₁ hpage hmap htlb

/-- In every run all of whose accesses find a frame of the machine left if they need one,
every access is safe. -/
theorem run_frameSafe {s s' : System} {as : List Access} {a : Access} (hboot : Booted s)
    (hleft : Along step FrameLeft s (as ++ [a])) (hrun : run step s as = .ok s') :
    FrameSafe s' a := by
  obtain ⟨hinit, hlast⟩ := hleft.last hrun
  have hinv : Numbered s' ∧ Allocating s' ∧ FramesBelow numPhysPages s' := by
    refine Along.invariant (I := fun s => Numbered s ∧ Allocating s ∧ FramesBelow numPhysPages s) ?_
      ⟨hboot.numbered, hboot.allocating, hboot.framesBelow⟩ hinit hrun
    rintro s a t ⟨hnum, halloc, hin⟩ hleft hst
    exact ⟨step_numbered hnum hst, step_allocating hnum halloc hst,
      step_framesBelow hnum halloc hin hleft hst⟩
  exact frameSafe_of_frameLeft hinv.1 hinv.2.1 hinv.2.2 hlast

instance (s : System) (a : Access) : Decidable (FrameLeft s a) := by
  unfold FrameLeft
  infer_instance

/-- Two address spaces under least used, with code of two pages and uninitialised data. -/
def twoPrograms : System := boot .leastUsed fun _ => .program (List.replicate 256 1) (80 * 128)

theorem twoPrograms_booted : Booted twoPrograms := boot_booted fun _ => by decide +kernel

/-- Six pages of two address spaces, the last of them loaded after all TLB slots are in
use. -/
theorem run_frameSafe_six : ∃ s', run step twoPrograms
    [Access.read 0 0, Access.read 0 1, Access.read 1 0, Access.read 1 1, Access.read 0 7] =
      .ok s' ∧ lookup s'.tlb 8 = none ∧ FrameSafe s' (Access.writeTo 1 8 5) := by
  obtain ⟨s', hrun, hmiss⟩ : ∃ s', run step twoPrograms
    [Access.read 0 0, Access.read 0 1, Access.read 1 0, Access.read 1 1, Access.read 0 7] =
      .ok s' ∧ lookup s'.tlb 8 = none := by decide +kernel
  exact ⟨s', hrun, hmiss, run_frameSafe twoPrograms_booted (by decide +kernel) hrun⟩

/-- The thirty-third page gets frame `32`. -/
theorem run_not_frameSafe : ¬ ∀ (s s' : System) (as : List Access) (a : Access), Booted s →
    run step s as = .ok s' → FrameSafe s' a := by
  intro h
  obtain ⟨s', hrun, hmiss, habsent, hfree⟩ : ∃ s',
      run step twoPrograms ((List.range 32).map (Access.read 0)) = .ok s' ∧
      lookup s'.tlb 32 = none ∧ ((s'.spaces 0).pageTable 32).virtualPage = -1 ∧
      (s'.switchTo 0).invertedPageTable.physicalPagesBitmap.firstClear = some 32 := by
    decide +kernel
  have hsafe := h twoPrograms s' _ (Access.read 0 32) twoPrograms_booted hrun
  have hlast := (hsafe.frame hmiss habsent 32 _ (getPhysicalPage_free _ hfree)).2
  rw [numPhysPages_eq] at hlast
  omega

end System
end NachOS
