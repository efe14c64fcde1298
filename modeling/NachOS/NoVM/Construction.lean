import NachOS.NoVM.EagerLoader

/-!
# Complete address spaces

What the two constructors without virtual memory leave behind: a page table with an entry for
every page and frames that were free, or a finished thread and `MiMapa` as it was. The test of
the free frames in `ExeNoVirtualMemoryConstructor` does neither, it returns. The last section is
about which pages of a program a fork shares.
-/

namespace NachOS
namespace NoVM

open PartialRun

/-- An address space with a page table that is set for all of its pages, as a thread that runs
in it needs. -/
structure SetSpace extends AddrSpace where
  table : List TranslationEntry
  pageTable_eq : pageTable = some table
  length_table : table.length = numPages
  usable : ∀ entry ∈ table, entry.valid = true ∧ entry.readOnly = false

/-- The fields of the entry of a page are set. -/
def Initialised (page : ℕ) (entry : TranslationEntry) : Prop :=
  entry = { mapped page 0 with physicalPage := entry.physicalPage }

/-- `new AddrSpace(executable)` and `new AddrSpace(other)`. -/
inductive Construction where
  | exe (executable : HostFile)
  | fork (other : SetSpace)

namespace Construction

def construct (s : State) : Construction → Except Fault (Option AddrSpace × State)
  | .exe executable => s.exeNoVirtualMemoryConstructor executable
  | .fork other => s.noVirtualMemoryConstructor other.toAddrSpace

/-- How many of the pages are not given a new frame. -/
def shared : Construction → ℕ
  | .exe _ => 0
  | .fork other => sharedMemory other.numPages

end Construction

/-- Every page has its entry, and the frames from page `first` on are different ones that were
clear in `m`. -/
structure Complete (m : BitMap) (first : ℕ) (space : AddrSpace)
    (pageTable : List TranslationEntry) : Prop where
  pageTable_eq : space.pageTable = some pageTable
  length_eq : pageTable.length = space.numPages
  initialised : ∀ page entry, pageTable[page]? = some entry → Initialised page entry
  nodup : ((pageTable.drop first).map TranslationEntry.physicalPage).Nodup
  clear : ∀ entry ∈ pageTable.drop first,
    ∃ frame : ℕ, entry.physicalPage = frame ∧ frame < m.numBits ∧ m.marked frame = false

/-- What a constructor may leave: a complete address space, or a finished thread and `MiMapa`
as it was. -/
def Outcome (s : State) (first : ℕ) : Option AddrSpace × State → Prop
  | (some space, _) => ∃ pageTable, Complete s.miMapa first space pageTable
  | (none, s') => s'.miMapa = s.miMapa

/-- The constructor returns to its caller with a complete address space, or it ends the thread
and has taken nothing. -/
def Clean (s : State) (c : Construction) : Prop :=
  ∃ result, c.construct s = .ok result ∧ Outcome s c.shared result

/-- A complete address space can run, and be forked. -/
def Complete.setSpace {m : BitMap} {first : ℕ} {space : AddrSpace}
    {pageTable : List TranslationEntry} (h : Complete m first space pageTable) : SetSpace where
  toAddrSpace := space
  table := pageTable
  pageTable_eq := h.pageTable_eq
  length_table := h.length_eq
  usable := by
    intro entry hentry
    obtain ⟨page, hpage⟩ := List.mem_iff_getElem?.mp hentry
    rw [h.initialised page entry hpage]
    exact ⟨rfl, rfl⟩

/-! ## The copying loop -/

section

variable {noffH : NoffHeader}

/-- The position in the file from which the loop reads a page. -/
def positionOnFile (noffH : NoffHeader) (page : ℕ) : ℤ :=
  toInt (noffH.code.inFileAddr + page * pageSize)

/-- The loop can copy a page to a frame: the position in the file is not negative, and what is
there of the file fits in the memory. -/
def Copyable (file : HostFile) (noffH : NoffHeader) (page frame : ℕ) : Prop :=
  0 ≤ positionOnFile noffH page ∧
    (0 < copySize noffH page ∧ (positionOnFile noffH page).toNat < file.length →
      frame < numPhysPages)

theorem loadPage_isOk_iff (file : HostFile) (hpages : noffH.numPages ≤ numPhysPages) {page : ℕ}
    (hpage : page < noffH.numPages) (frame : ℕ) (mem : Bytes) :
    (∃ mem', loadPage file noffH noffH.numPages page (mapped page frame) mem = .ok mem') ↔
      Copyable file noffH page frame := by
  have hsize := copySize_le hpages page hpage
  have hcount : (if page = noffH.numPages - 1 then
      toInt (toUnsigned noffH.imageSize % noffH.numPages : ℕ) else (pageSize : ℤ)) =
      (copySize noffH page : ℤ) := by
    rw [copySize] at hsize ⊢
    rw [pageSize_eq] at *
    split
    · rename_i hlast
      rw [if_pos hlast] at hsize
      unfold toInt
      omega
    · rfl
  -- a read of the file and a copy into the frame: each has its own way to fail
  have hload : loadPage file noffH noffH.numPages page (mapped page frame) mem = (do
      let read ← file.readAt (copySize noffH page) (positionOnFile noffH page)
      copyIn mem (pageSize * (frame : ℤ)) read.1 read.2) := by
    unfold loadPage
    dsimp only
    rw [hcount]
    rfl
  rw [hload, HostFile.readAt, Copyable]
  split
  · rename_i hneg
    constructor
    · rintro ⟨mem', h⟩
      cases h
    · intro h
      omega
  · rename_i hnonneg
    rw [ok_bind, Int.toNat_natCast]
    simp only [copyIn_ok_iff]
    rw [numPhysPages_eq, memorySize_eq]
    rw [pageSize_eq] at *
    constructor
    · rintro ⟨mem', hfits, _⟩
      omega
    · intro h
      exact ⟨_, by omega, rfl⟩

/-- The loop comes to its end if every page can be copied. -/
theorem loadPages_isOk_iff (file : HostFile) (hpages : noffH.numPages ≤ numPhysPages)
    {frames : List ℕ} :
    ∀ (page : ℕ) (mem : Bytes), page + frames.length ≤ noffH.numPages →
      ((∃ mem', loadPages file noffH noffH.numPages page (entriesFrom page frames) mem =
        .ok mem') ↔ ∀ j frame, frames[j]? = some frame → Copyable file noffH (page + j) frame) := by
  induction frames with
  | nil => exact fun page mem _ => ⟨fun _ j frame hj => by simp at hj, fun _ => ⟨mem, rfl⟩⟩
  | cons frame frames ih =>
    intro page mem hlength
    rw [List.length_cons] at hlength
    rw [entriesFrom_cons, loadPages]
    have hfirst := loadPage_isOk_iff file hpages (show page < noffH.numPages by omega)
      frame mem
    constructor
    · rintro ⟨mem', h⟩ j f hj
      obtain ⟨mem₁, hpage, h⟩ := bind_ok_iff.mp h
      cases j with
      | zero =>
        obtain rfl : frame = f := Option.some.inj hj
        exact hfirst.mp ⟨mem₁, hpage⟩
      | succ j =>
        have hrest := (ih (page + 1) mem₁ (by omega)).mp ⟨mem', h⟩ j f hj
        rwa [Nat.add_assoc, Nat.add_comm 1 j] at hrest
    · intro hall
      obtain ⟨mem₁, hpage⟩ := hfirst.mpr (hall 0 frame rfl)
      rw [hpage, ok_bind]
      refine (ih (page + 1) mem₁ (by omega)).mpr fun j f hj => ?_
      rw [Nat.add_assoc, Nat.add_comm 1 j]
      exact hall (j + 1) f hj

end

/-! ## The constructors -/

theorem initialised_mapped (page frame : ℕ) : Initialised page (mapped page frame) := rfl

/-- The condition under which the constructors do what they should. The executable has a header
and no more pages than there are clear bits in `MiMapa` and frames in the machine, and they can
be copied to the frames that `Find` gives; a program that forks has the pages of a stack. -/
def Construction.Enough (s : State) : Construction → Prop
  | .exe executable => ∃ noffH, executable.noffHeader = .ok noffH ∧
      noffH.numPages ≤ s.miMapa.numClear ∧ noffH.numPages ≤ numPhysPages ∧
      ∀ page frame, (s.miMapa.clearList.take noffH.numPages)[page]? = some frame →
        Copyable executable noffH page frame
  | .fork other => divRoundUp userStackSize pageSize ≤ other.numPages

/-- The pages from `first` on have the frames that were taken. -/
theorem complete_entriesFrom {m m' : BitMap} {shared : List TranslationEntry} {first : ℕ}
    {frames : List ℕ} {space : AddrSpace} (hfirst : shared.length = first)
    (hshared : ∀ page entry, shared[page]? = some entry → Initialised page entry)
    (htaken : BitMap.Taken m frames m')
    (hspace : space.pageTable = some (shared ++ entriesFrom first frames))
    (hlength : first + frames.length = space.numPages) :
    Complete m first space (shared ++ entriesFrom first frames) where
  pageTable_eq := hspace
  length_eq := by rw [List.length_append, length_entriesFrom, hfirst, hlength]
  initialised := by
    intro page entry hentry
    by_cases hpage : page < shared.length
    · rw [List.getElem?_append_left hpage] at hentry
      exact hshared page entry hentry
    · rw [List.getElem?_append_right (by omega), getElem?_entriesFrom] at hentry
      obtain ⟨frame, -, rfl⟩ := Option.map_eq_some_iff.mp hentry
      rw [show first + (page - shared.length) = page by omega]
      exact initialised_mapped page frame
  nodup := by
    rw [List.drop_left' hfirst, map_entriesFrom]
    exact htaken.nodup.map fun _ _ h => Int.ofNat.inj h
  clear := by
    intro entry hentry
    rw [List.drop_left' hfirst] at hentry
    have hmem := List.mem_map_of_mem (f := TranslationEntry.physicalPage) hentry
    rw [map_entriesFrom] at hmem
    obtain ⟨frame, hframe, heq⟩ := List.mem_map.mp hmem
    exact ⟨frame, heq.symm, htaken.lt frame hframe, htaken.clear frame hframe⟩

theorem exe_clean_iff (s : State) (executable : HostFile) :
    Clean s (.exe executable) ↔ (Construction.exe executable).Enough s := by
  constructor
  · rintro ⟨⟨result, s'⟩, hconstruct, houtcome⟩
    obtain ⟨noffH, pageTable, m', mem', hheader, hsetup, rfl, rfl⟩ :=
      State.exeNoVirtualMemoryConstructor_ok hconstruct
    obtain ⟨table, hcomplete⟩ := houtcome
    -- the constructor did not return at the test of the free frames
    obtain ⟨rfl, rfl⟩ | ⟨frames, htaken, hlength, hsetup, rfl⟩ := hsetup
    · cases hcomplete.pageTable_eq
    have hmany : noffH.numPages ≤ s.miMapa.numClear := by
      have hclear := htaken.numClear
      omega
    have hbig : noffH.numPages ≤ numPhysPages := by
      rcases exeSetup_spec s.miMapa noffH.numPages with ⟨-, h⟩ | ⟨-, -, h⟩ | ⟨-, hle, -⟩
      · rw [h] at hsetup
        cases hsetup
      · rw [h] at hsetup
        cases hsetup
      · exact hle
    refine ⟨noffH, hheader, hmany, hbig, ?_⟩
    obtain ⟨m₁, -, hlen, htable⟩ := exeSetup_table hmany hbig
    have hload : ∃ mem', loadPages executable noffH noffH.numPages 0
        (entriesFrom 0 (s.miMapa.clearList.take noffH.numPages)) s.mainMemory = .ok mem' := by
      change s.exeNoVirtualMemoryConstructor executable = _ at hconstruct
      rw [State.exeNoVirtualMemoryConstructor, hheader, ok_bind, htable, ok_bind] at hconstruct
      obtain ⟨mem₁, hload, -⟩ := bind_ok_iff.mp hconstruct
      exact ⟨mem₁, hload⟩
    -- the loop has copied every page, so none of the requests was out of range
    have hcopy := (loadPages_isOk_iff executable hbig 0 s.mainMemory (by omega)).mp hload
    intro page frame hframe
    have hpage := hcopy page frame hframe
    rwa [Nat.zero_add] at hpage
  · rintro ⟨noffH, hheader, hmany, hbig, hcopy⟩
    obtain ⟨m', htaken, hlen, htable⟩ := exeSetup_table hmany hbig
    obtain ⟨mem', hload⟩ : ∃ mem', loadPages executable noffH noffH.numPages 0
        (entriesFrom 0 (s.miMapa.clearList.take noffH.numPages)) s.mainMemory = .ok mem' := by
      refine (loadPages_isOk_iff executable hbig 0 s.mainMemory (by omega)).mpr ?_
      intro page frame hframe
      rw [Nat.zero_add]
      exact hcopy page frame hframe
    have hconstruct : s.exeNoVirtualMemoryConstructor executable =
        .ok (some ⟨some (entriesFrom 0 (s.miMapa.clearList.take noffH.numPages)), noffH.numPages,
          s.numTables, executable⟩, { s.newTable with miMapa := m', mainMemory := mem' }) := by
      rw [State.exeNoVirtualMemoryConstructor, hheader, ok_bind, htable, ok_bind]
      dsimp only
      rw [hload]
      rfl
    have hcomplete : ∀ n frames, frames.length = n → BitMap.Taken s.miMapa frames m' →
        Complete s.miMapa 0 ⟨some (entriesFrom 0 frames), n, s.numTables, executable⟩
          (entriesFrom 0 frames) := by
      intro n frames hn htaken
      have hnone : ∀ page entry, ([] : List TranslationEntry)[page]? = some entry →
          Initialised page entry := by simp
      exact complete_entriesFrom rfl hnone htaken rfl ((Nat.zero_add _).trans hn)
    exact ⟨_, hconstruct, _, hcomplete noffH.numPages _ hlen htaken⟩

/-- `sharedMemory` is the number of the other pages if there are pages for the stack, else it
wraps around. -/
theorem sharedMemory_le_iff (numPages : ℕ) :
    sharedMemory numPages ≤ numPages ↔ divRoundUp userStackSize pageSize ≤ numPages := by
  have hstack : divRoundUp userStackSize pageSize = 8 := by decide
  unfold sharedMemory toUnsigned
  rw [hstack]
  omega

/-- The entries of the shared pages are set. -/
theorem sharedPages_set (other : SetSpace)
    (hstack : divRoundUp userStackSize pageSize ≤ other.numPages) :
    ∃ shared, sharedPages other.toAddrSpace = .ok shared ∧
      ∀ page entry, shared[page]? = some entry → Initialised page entry := by
  have hle := (sharedMemory_le_iff other.numPages).mpr hstack
  unfold sharedPages
  split
  · exact ⟨[], rfl, by simp⟩
  · rw [other.pageTable_eq]
    dsimp only
    rw [if_neg (by omega)]
    refine ⟨_, rfl, fun page entry hentry => ?_⟩
    rw [List.getElem?_mapIdx] at hentry
    obtain ⟨parent, -, rfl⟩ := Option.map_eq_some_iff.mp hentry
    rfl

theorem SetSpace.size (other : SetSpace) (pageTable : List TranslationEntry)
    (h : other.pageTable = some pageTable) : pageTable.length = other.numPages := by
  rw [other.pageTable_eq, Option.some.injEq] at h
  rw [← h]
  exact other.length_table

theorem fork_clean_iff (s : State) (other : SetSpace) :
    Clean s (.fork other) ↔ (Construction.fork other).Enough s := by
  constructor
  · rintro ⟨⟨result, s'⟩, hconstruct, _⟩
    obtain ⟨shared, hshared, -⟩ := State.noVirtualMemoryConstructor_ok other.size hconstruct
    exact (sharedMemory_le_iff other.numPages).mp (sharedPages_ok other.size hshared).1
  · intro hstack
    obtain ⟨shared, hshared, hinit⟩ := sharedPages_set other hstack
    obtain ⟨hle, hlength, -⟩ := sharedPages_ok other.size hshared
    rcases forkSetup_spec other.size hshared s.miMapa with
      ⟨-, hsetup⟩ | ⟨-, frames, m', htaken, hframes, hsetup⟩
    · -- there are too few frames: what the loop has taken is given back
      have hconstruct : s.noVirtualMemoryConstructor other.toAddrSpace = .ok (none, s) := by
        rw [State.noVirtualMemoryConstructor, hsetup]
        rfl
      exact ⟨(none, s), hconstruct, rfl⟩
    · have hconstruct : s.noVirtualMemoryConstructor other.toAddrSpace =
          .ok (some { other.toAddrSpace with
            pageTable := some (shared ++ entriesFrom shared.length frames) },
            { s with miMapa := m' }) := by
        rw [State.noVirtualMemoryConstructor, hsetup]
        rfl
      rw [hlength] at hconstruct
      exact ⟨_, hconstruct, _, complete_entriesFrom hlength hinit htaken rfl
        (show sharedMemory other.numPages + frames.length = other.numPages by omega)⟩

/-- A constructor leaves a complete address space or takes nothing and ends the thread, exactly
if the program has its header, its pages and its frames. -/
theorem construct_clean_iff (s : State) (c : Construction) : Clean s c ↔ c.Enough s := by
  cases c with
  | exe executable => exact exe_clean_iff s executable
  | fork other => exact fork_clean_iff s other

/-- A program of more pages than `MiMapa` has bits: the constructor returns and has not set the
page table. -/
theorem construct_not_clean : ¬ ∀ (s : State) (c : Construction), Clean s c := by
  intro h
  obtain ⟨⟨result, s'⟩, hconstruct, houtcome⟩ :=
    h State.initial (.exe (HostFile.program [1, 2, 3, 4] 131072))
  have hunset : ∃ r, State.initial.exeNoVirtualMemoryConstructor
      (HostFile.program [1, 2, 3, 4] 131072) = .ok r ∧
      ∃ space, r.1 = some space ∧ space.pageTable = none := by
    decide +kernel
  obtain ⟨r, hr, space, hspace, hnone⟩ := hunset
  change State.initial.exeNoVirtualMemoryConstructor _ = _ at hconstruct
  rw [hconstruct, Except.ok.injEq] at hr
  subst hr
  change result = some space at hspace
  subst hspace
  obtain ⟨pageTable, hcomplete⟩ := houtcome
  rw [hcomplete.pageTable_eq] at hnone
  cases hnone

/-! ## The pages that a fork shares -/

section

variable {noffH : NoffHeader}

/-- The pages of a program are those of its segments and then those of its stack. -/
theorem numPages_eq (hnonneg : 0 ≤ noffH.imageSize)
    (htotal : noffH.imageSize + userStackSize < 2 ^ 31) :
    (noffH.numPages : ℤ) = divRoundUp noffH.imageSize pageSize + 8 := by
  have hstack : userStackSize = 1024 := rfl
  have hsize : toInt (toUnsigned (noffH.imageSize + userStackSize)) =
      noffH.imageSize + 1024 := by
    unfold toInt toUnsigned
    omega
  rw [NoffHeader.numPages, hsize, divRoundUp, divRoundUp, pageSize_eq,
    Int.tdiv_eq_ediv_of_nonneg (by omega), Int.tmod_eq_emod_of_nonneg (by omega),
    Int.tdiv_eq_ediv_of_nonneg hnonneg, Int.tmod_eq_emod_of_nonneg hnonneg, toUnsigned]
  split
  · split
    · omega
    · omega
  · split
    · omega
    · omega

/-- So many of them as the segments have are shared. -/
theorem sharedMemory_numPages (hnonneg : 0 ≤ noffH.imageSize)
    (htotal : noffH.imageSize + userStackSize < 2 ^ 31) :
    (sharedMemory noffH.numPages : ℤ) = divRoundUp noffH.imageSize pageSize ∧
      noffH.numPages = sharedMemory noffH.numPages + 8 := by
  have hpages := numPages_eq hnonneg htotal
  have hstack : divRoundUp userStackSize pageSize = 8 := by decide
  have hround : 0 ≤ divRoundUp noffH.imageSize pageSize ∧
      divRoundUp noffH.imageSize pageSize < 2 ^ 31 := by
    rw [divRoundUp, pageSize_eq, Int.tdiv_eq_ediv_of_nonneg hnonneg]
    have hlt : noffH.imageSize < 2 ^ 31 - 1024 := by
      have : userStackSize = 1024 := rfl
      omega
    split
    · omega
    · omega
  have hshared : (sharedMemory noffH.numPages : ℤ) = divRoundUp noffH.imageSize pageSize := by
    rw [sharedMemory, hstack, hpages, toUnsigned]
    omega
  exact ⟨hshared, by omega⟩

/-- The page of an address that is not too large. -/
theorem vpn_eq {addr : ℤ} (hnonneg : 0 ≤ addr) (hlt : addr < 2 ^ 31) :
    System.vpn addr = addr.toNat / pageSize := by
  rw [System.vpn, toUnsigned, pageSize_eq]
  omega

/-- The shared pages are those that have an address of a segment. -/
theorem segment_page_iff (hnonneg : 0 ≤ noffH.imageSize)
    (htotal : noffH.imageSize + userStackSize < 2 ^ 31) (page : ℕ) :
    page < sharedMemory noffH.numPages ↔
      ∃ addr : ℤ, 0 ≤ addr ∧ addr < noffH.imageSize ∧ System.vpn addr = page := by
  have hsize : userStackSize = 1024 := rfl
  obtain ⟨hround, -⟩ := sharedMemory_numPages hnonneg htotal
  rw [divRoundUp, pageSize_eq, Int.tdiv_eq_ediv_of_nonneg hnonneg,
    Int.tmod_eq_emod_of_nonneg hnonneg] at hround
  have hbounds : (page : ℤ) < sharedMemory noffH.numPages ↔ (page : ℤ) * 128 < noffH.imageSize := by
    rw [hround]
    split
    · omega
    · omega
  constructor
  · intro hpage
    refine ⟨page * 128, by omega, by omega, ?_⟩
    rw [vpn_eq (by omega) (by omega), pageSize_eq]
    omega
  · rintro ⟨addr, h0, hlt, hpage⟩
    rw [vpn_eq h0 (by omega), pageSize_eq] at hpage
    omega

/-- The other pages are those that have an address of the stack. -/
theorem stack_page_iff (hnonneg : 0 ≤ noffH.imageSize)
    (htotal : noffH.imageSize + userStackSize < 2 ^ 31) (page : ℕ) :
    sharedMemory noffH.numPages ≤ page ∧ page < noffH.numPages ↔
      ∃ addr : ℤ, noffH.numPages * pageSize - userStackSize ≤ addr ∧
        addr < noffH.numPages * pageSize ∧ System.vpn addr = page := by
  have hsize : userStackSize = 1024 := rfl
  obtain ⟨hround, hnum⟩ := sharedMemory_numPages hnonneg htotal
  rw [divRoundUp, pageSize_eq, Int.tdiv_eq_ediv_of_nonneg hnonneg,
    Int.tmod_eq_emod_of_nonneg hnonneg] at hround
  have hmax : (noffH.numPages : ℤ) * 128 ≤ 2 ^ 31 := by
    split at hround
    · omega
    · omega
  rw [pageSize_eq]
  constructor
  · intro hpage
    refine ⟨page * 128, by omega, by omega, ?_⟩
    rw [vpn_eq (by omega) (by omega), pageSize_eq]
    omega
  · rintro ⟨addr, hge, hlt, hpage⟩
    rw [vpn_eq (by omega) (by omega), pageSize_eq] at hpage
    omega

end

/-- What `Translate` answers depends on the frame of the page alone. -/
theorem translate_answer {pageTable pageTable' : List TranslationEntry} {addr : ℤ}
    {entry entry' : TranslationEntry} (hentry : pageTable[System.vpn addr]? = some entry)
    (hentry' : pageTable'[System.vpn addr]? = some entry')
    (hvalid : entry.valid = true ∧ entry.readOnly = false)
    (hvalid' : entry'.valid = true ∧ entry'.readOnly = false)
    (hframe : entry'.physicalPage = entry.physicalPage) (size : Size) (writing : Bool) :
    (translate pageTable' addr size writing).map Prod.fst =
      (translate pageTable addr size writing).map Prod.fst := by
  unfold translate
  split
  · rfl
  · rw [hentry, hentry']
    dsimp only
    rw [if_pos hvalid.1, if_pos hvalid'.1]
    unfold System.useEntry
    rw [hvalid.2, hvalid'.2, hframe]
    simp only [Bool.false_and, Bool.false_eq_true, if_false]
    split
    · rfl
    · split
      · rfl
      · rfl

/-- The page tables of a parent and its child: the pages of the segments have the frames of the
parent, those of the stack have frames of their own. -/
structure Layout (noffH : NoffHeader) (m : BitMap) (parent child : List TranslationEntry) : Prop where
  length_eq : child.length = noffH.numPages
  /-- The shared pages are those that have an address of a segment. -/
  segments : ∀ page : ℕ, page < sharedMemory noffH.numPages ↔
    ∃ addr : ℤ, 0 ≤ addr ∧ addr < noffH.imageSize ∧ System.vpn addr = page
  /-- The others are those that have an address of the stack. -/
  stack : ∀ page : ℕ, sharedMemory noffH.numPages ≤ page ∧ page < noffH.numPages ↔
    ∃ addr : ℤ, noffH.numPages * pageSize - userStackSize ≤ addr ∧
      addr < noffH.numPages * pageSize ∧ System.vpn addr = page
  shared : ∀ addr : ℤ, 0 ≤ addr → addr < noffH.imageSize → ∃ entry entry',
    parent[System.vpn addr]? = some entry ∧ child[System.vpn addr]? = some entry' ∧
      entry'.physicalPage = entry.physicalPage ∧
      ∀ size writing, (translate child addr size writing).map Prod.fst =
        (translate parent addr size writing).map Prod.fst
  separate : ∀ addr : ℤ, noffH.numPages * pageSize - userStackSize ≤ addr →
    addr < noffH.numPages * pageSize → ∃ entry entry',
    parent[System.vpn addr]? = some entry ∧ child[System.vpn addr]? = some entry' ∧
      entry'.physicalPage ≠ entry.physicalPage
  nodup : ((child.drop (sharedMemory noffH.numPages)).map TranslationEntry.physicalPage).Nodup
  clear : ∀ entry ∈ child.drop (sharedMemory noffH.numPages),
    ∃ frame : ℕ, entry.physicalPage = frame ∧ frame < m.numBits ∧ m.marked frame = false

/-- A shared page has the frame it has in the parent. -/
theorem shared_entry {other : SetSpace} {shared : List TranslationEntry}
    (hshared : sharedPages other.toAddrSpace = .ok shared) {page : ℕ}
    (hpage : page < sharedMemory other.numPages) : ∃ entry entry',
      other.table[page]? = some entry ∧ shared[page]? = some entry' ∧
      entry'.physicalPage = entry.physicalPage := by
  obtain ⟨hle, hlength, hframes⟩ := sharedPages_ok other.size hshared
  have hother : page < other.table.length := by
    rw [other.length_table]
    omega
  have hchild : page < shared.length := by omega
  refine ⟨other.table[page], shared[page], List.getElem?_eq_getElem hother,
    List.getElem?_eq_getElem hchild, ?_⟩
  have hpageFrame := congrArg (·[page]?) hframes
  rw [AddrSpace.frames, other.pageTable_eq, Option.getD_some, List.getElem?_take_of_lt hpage,
    List.getElem?_map, List.getElem?_map, List.getElem?_eq_getElem hother,
    List.getElem?_eq_getElem hchild] at hpageFrame
  exact Option.some.inj hpageFrame

/-- A fork shares the pages that can have code or data, and takes free frames for the stack. -/
theorem fork_layout {noffH : NoffHeader}
    (hsizes : 0 ≤ noffH.code.size ∧ 0 ≤ noffH.initData.size ∧ 0 ≤ noffH.uninitData.size)
    (htotal : noffH.imageSize + userStackSize < 2 ^ 31) (s : State) (other : SetSpace)
    (hpages : other.numPages = noffH.numPages)
    (hmarked : ∀ entry ∈ other.table,
      ∃ frame : ℕ, entry.physicalPage = frame ∧ s.miMapa.marked frame = true)
    (henough : divRoundUp userStackSize pageSize ≤ s.miMapa.numClear) :
    ∃ pageTable s', s.noVirtualMemoryConstructor other.toAddrSpace =
      .ok (some { other.toAddrSpace with pageTable := some pageTable }, s') ∧
      Layout noffH s.miMapa other.table pageTable := by
  have hnonneg : 0 ≤ noffH.imageSize := by
    unfold NoffHeader.imageSize
    omega
  have hstack : divRoundUp userStackSize pageSize = 8 := by decide
  obtain ⟨-, hnum⟩ := sharedMemory_numPages hnonneg htotal
  rw [hstack] at henough
  obtain ⟨shared, hshared, hinit⟩ := sharedPages_set other (by rw [hstack]; omega)
  obtain ⟨-, hlength, -⟩ := sharedPages_ok other.size hshared
  -- there are enough clear frames for the stack, so the constructor does not give up
  rcases forkSetup_spec other.size hshared s.miMapa with
    ⟨hfew, -⟩ | ⟨-, frames, m', htaken, hframes, hsetup⟩
  · rw [hpages] at hfew
    omega
  rw [hpages] at hlength hframes
  have hconstruct : s.noVirtualMemoryConstructor other.toAddrSpace =
      .ok (some { other.toAddrSpace with
        pageTable := some (shared ++ entriesFrom shared.length frames) },
        { s with miMapa := m' }) := by
    rw [State.noVirtualMemoryConstructor, hsetup]
    rfl
  have hcomplete : Complete s.miMapa (sharedMemory noffH.numPages) { other.toAddrSpace with
      pageTable := some (shared ++ entriesFrom shared.length frames) }
      (shared ++ entriesFrom shared.length frames) := by
    rw [hlength]
    exact complete_entriesFrom hlength hinit htaken rfl (by rw [hpages, hframes]; omega)
  refine ⟨_, _, hconstruct, ?_⟩
  exact {
    length_eq := hcomplete.length_eq.trans hpages
    segments := segment_page_iff hnonneg htotal
    stack := stack_page_iff hnonneg htotal
    shared := by
      intro addr h0 hlt
      have hpage := (segment_page_iff hnonneg htotal _).mpr ⟨addr, h0, hlt, rfl⟩
      rw [← hpages] at hpage
      obtain ⟨entry, entry', hentry, hentry', hframe⟩ := shared_entry hshared hpage
      have hchild : (shared ++ entriesFrom shared.length frames)[System.vpn addr]? =
          some entry' := by
        rw [List.getElem?_append_left (by rw [hlength, ← hpages]; exact hpage)]
        exact hentry'
      have husable := hcomplete.setSpace.usable entry' (List.mem_of_getElem? hchild)
      exact ⟨entry, entry', hentry, hchild, hframe, translate_answer hentry hchild
        (other.usable entry (List.mem_of_getElem? hentry)) husable hframe⟩
    separate := by
      intro addr hge hlt
      obtain ⟨hpage, hpage'⟩ := (stack_page_iff hnonneg htotal _).mpr ⟨addr, hge, hlt, rfl⟩
      have hother : System.vpn addr < other.table.length := by
        rw [other.length_table, hpages]
        exact hpage'
      have hchild : System.vpn addr < (shared ++ entriesFrom shared.length frames).length := by
        rw [hcomplete.length_eq]
        exact hpages ▸ hpage'
      refine ⟨_, _, List.getElem?_eq_getElem hother, List.getElem?_eq_getElem hchild, ?_⟩
      -- the frame of the parent is marked, that of the child was clear
      obtain ⟨frame, hframe, hmark⟩ := hmarked _ (List.getElem_mem hother)
      have hdrop : ((shared ++ entriesFrom shared.length frames).drop
          (sharedMemory noffH.numPages))[System.vpn addr - sharedMemory noffH.numPages]? =
          some (shared ++ entriesFrom shared.length frames)[System.vpn addr] := by
        rw [List.getElem?_drop, Nat.add_sub_cancel' hpage]
        exact List.getElem?_eq_getElem hchild
      obtain ⟨frame', hframe', -, hclear⟩ := hcomplete.clear _ (List.mem_of_getElem? hdrop)
      intro heq
      rw [hframe, hframe', Int.ofNat_inj] at heq
      rw [heq, hmark] at hclear
      cases hclear
    nodup := hcomplete.nodup
    clear := hcomplete.clear }

/-- The address space of a program with four bytes of code and four of uninitialised data, in the
first nine frames. -/
def bssSpace : SetSpace where
  pageTable := some (entriesFrom 0 (List.range 9))
  numPages := 9
  openFilesTable := 0
  ownExecutable := HostFile.program [1, 2, 3, 4] 4
  table := entriesFrom 0 (List.range 9)
  pageTable_eq := rfl
  length_table := by decide
  usable := by decide

/-- It forks on a machine where nothing else runs. -/
theorem fork_layout_bss : ∃ pageTable s',
    State.noVirtualMemoryConstructor
      { State.initial with miMapa := ⟨miMapaSize, fun i => decide (i < 9)⟩ } bssSpace.toAddrSpace =
      .ok (some { bssSpace.toAddrSpace with pageTable := some pageTable }, s') ∧
    Layout bssHeader ⟨miMapaSize, fun i => decide (i < 9)⟩ bssSpace.table pageTable :=
  @fork_layout bssHeader (by decide) (by decide)
    { State.initial with miMapa := ⟨miMapaSize, fun i => decide (i < 9)⟩ } bssSpace (by decide)
    (by
      intro entry hentry
      have hall : ∀ entry ∈ bssSpace.table, entry.physicalPage = entry.physicalPage.toNat ∧
          entry.physicalPage.toNat < 9 := by decide
      exact ⟨_, (hall entry hentry).1, decide_eq_true (hall entry hentry).2⟩)
    (by decide +kernel)

end NoVM
end NachOS
