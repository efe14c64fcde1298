import NachOS.Bin.Programs
import NachOS.NoVM.EagerLoader
import NachOS.NoVM.TimeSharing

/-!
# From the linker to memory

`ExeNoVirtualMemoryConstructor` on the files that `coff2noff` makes of what the linker makes: in
these the running offset suits the text and the data, and the last page, of which too little is
copied, has only bytes of the stack.
-/

namespace NachOS

/-- The pages of the sections and of the stack. -/
def Program.numPages (p : Program) : ℕ := (p.size + 1024 + 127) / pageSize

section

variable {p : Program} {noff : HostFile} {noffH : NoffHeader}

theorem Program.IsNoff.numPages (h : p.IsNoff noff noffH) (hpages : p.numPages ≤ numPhysPages) :
    noffH.numPages = p.numPages := by
  rw [Program.numPages, numPhysPages_eq, pageSize_eq] at hpages
  have himage : noffH.imageSize = p.size := by
    rw [NoffHeader.imageSize, h.code, h.initData, h.uninitData, Program.size, Program.fileSize]
    dsimp only
    omega
  have hstack : toInt (toUnsigned (noffH.imageSize + userStackSize)) = (p.size + 1024 : ℕ) := by
    rw [himage, userStackSize]
    unfold toUnsigned toInt
    omega
  rw [NoffHeader.numPages, hstack, Program.numPages, divRoundUp, pageSize_eq]
  have hdiv : ((p.size + 1024 : ℕ) : ℤ).tdiv (128 : ℕ) = ((p.size + 1024) / 128 : ℕ) := by
    rw [Int.tdiv_eq_ediv_of_nonneg (by omega)]
    omega
  have hmod : ((p.size + 1024 : ℕ) : ℤ).tmod (128 : ℕ) = ((p.size + 1024) % 128 : ℕ) := by
    rw [Int.tmod_eq_emod_of_nonneg (by omega)]
    omega
  rw [hdiv, hmod]
  unfold toUnsigned
  split
  · omega
  · omega

/-- The sections end below the stack. -/
theorem Program.sections_le (p : Program) {sec : Section} (hsec : sec ∈ p.sections)
    (hsize : sec.size ≠ 0) : 0 ≤ sec.paddr ∧ sec.paddr + sec.size ≤ p.size := by
  have hmem : sec ∈ p.text :: (p.data.toList ++ p.bss.toList) := by
    rw [← p.linked]
    exact List.mem_filter.mpr ⟨hsec, by simpa using hsize⟩
  have htotal : p.size = p.text.size + p.dataSize + p.bssSize := rfl
  rcases List.mem_cons.mp hmem with rfl | hmem
  · rw [p.text_addr]
    omega
  rcases List.mem_append.mp hmem with hmem | hmem
  · rw [Option.mem_toList] at hmem
    have hdata : p.dataSize = sec.size := by
      rw [Program.dataSize, Option.mem_def.mp hmem]
      rfl
    rw [p.data_addr sec hmem]
    omega
  · rw [Option.mem_toList] at hmem
    have hbss : p.bssSize = sec.size := by
      rw [Program.bssSize, Option.mem_def.mp hmem]
      rfl
    have haddr : sec.paddr = (p.text.size + p.dataSize : ℕ) := p.bss_addr sec hmem
    rw [haddr]
    omega

theorem Program.size_le (p : Program) : p.size + 1024 ≤ p.numPages * pageSize := by
  rw [Program.numPages, pageSize_eq]
  omega

end

/-- The clear bits that are left. -/
theorem BitMap.Taken.clearList {m m' : BitMap} {n : ℕ} (h : BitMap.Taken m (m.clearList.take n) m') :
    m'.clearList = m.clearList.drop n := by
  have hleft : m'.clearList = m.clearList.filter (· ∉ m.clearList.take n) := by
    rw [BitMap.clearList, BitMap.clearList, List.filter_filter, h.numBits]
    refine List.filter_congr fun i _ => ?_
    have hmarked := h.marked i
    rw [Bool.eq_iff_iff]
    simp only [Bool.not_eq_true', Bool.and_eq_true, decide_eq_true_eq, ← Bool.not_eq_true, hmarked]
    tauto
  have hnodup := m.nodup_clearList
  rw [← List.take_append_drop n m.clearList] at hnodup
  obtain ⟨-, -, hapart⟩ := List.nodup_append.mp hnodup
  rw [hleft]
  conv_lhs => rw [← List.take_append_drop n m.clearList]
  have htaken : (m.clearList.take n).filter (· ∉ m.clearList.take n) = [] := by
    rw [List.filter_eq_nil_iff]
    intro i hi
    simpa using hi
  have hrest : (m.clearList.drop n).filter (· ∉ m.clearList.take n) = m.clearList.drop n := by
    rw [List.filter_eq_self]
    intro i hi
    rw [decide_eq_true_eq]
    exact fun htake => hapart i htake i hi rfl
  rw [List.filter_append, List.take_append_drop, htaken, hrest, List.nil_append]

/-- A section near the beginning of the memory and of the file. -/
def Section.low (name : SectionName) (paddr size scnptr : UInt8) : Section where
  name := name
  paddr := paddr.toNat
  size := size.toNat
  scnptr := scnptr.toNat
  paddr_int := by
    have hlt := paddr.toNat_lt
    omega
  size_int := size.toNat_lt.trans (by decide)

namespace NoVM

open PartialRun

/-! ## Loading -/

/-- What the constructor leaves of a program: its pages have the first clear frames, these have the
image as far as it is in the file, and everything else in memory is as it was. -/
structure Loads (p : Program) (s : State) (space : AddrSpace) (s' : State) : Prop where
  pageTable : space.pageTable = some (entriesFrom 0 (s.miMapa.clearList.take p.numPages))
  numPages : space.numPages = p.numPages
  length : (s.miMapa.clearList.take p.numPages).length = p.numPages
  linear : Linear (entriesFrom 0 (s.miMapa.clearList.take p.numPages))
  image : ∀ a < p.numPages * pageSize,
    s'.mainMemory (place (entriesFrom 0 (s.miMapa.clearList.take p.numPages)) a) =
      if a < p.fileSize then p.image a
      else s.mainMemory (place (entriesFrom 0 (s.miMapa.clearList.take p.numPages)) a)
  others : ∀ address, address / pageSize ∉ s.miMapa.clearList.take p.numPages →
    s'.mainMemory address = s.mainMemory address
  clearList : s'.miMapa.clearList = s.miMapa.clearList.drop p.numPages
  numBits : s'.miMapa.numBits = s.miMapa.numBits
  spaces : s'.spaces = s.spaces
  numSpaces : s'.numSpaces = s.numSpaces

section

variable {p : Program} {noff : HostFile} {noffH : NoffHeader} {s : State}

/-- The loop copies what is in the file, and no more. -/
theorem copied_iff (h : p.IsNoff noff noffH) (hpages : p.numPages ≤ numPhysPages) {page o : ℕ}
    (hpage : page < p.numPages) (ho : o < pageSize) :
    o < copyCount noff noffH page ↔ page * pageSize + o < p.fileSize := by
  have hsize := p.size_le
  rw [Program.size] at hsize
  rw [copyCount, copySize, h.numPages hpages, h.code, h.length, Nat.lt_min]
  dsimp only
  rw [Int.toNat_natCast, pageSize_eq] at *
  constructor
  · omega
  · intro hin
    -- it is not on the last page, which is of the stack
    rw [if_neg (by omega)]
    omega

/-- A program that finds its frames is loaded. -/
theorem exec_loads (h : p.IsNoff noff noffH) (hpages : p.numPages ≤ numPhysPages)
    (hfree : p.numPages ≤ s.miMapa.numClear)
    (hlt : ∀ f ∈ s.miMapa.clearList.take p.numPages, f < numPhysPages) :
    ∃ space s', s.exeNoVirtualMemoryConstructor noff = .ok (some space, s') ∧ Loads p s space s' := by
  have hcount := h.numPages hpages
  obtain ⟨m', htaken, hlength, hsetup⟩ := exeSetup_table hfree hpages
  have hcode : noffH.code.inFileAddr = (noffHeaderSize : ℤ) := by rw [h.code]
  -- the file starts with the code segment, so no page has a negative offset
  have hoffsets : Offsets noffH := by
    intro page hpage
    rw [hcount] at hpage
    rw [hcode]
    rw [numPhysPages_eq] at hpages
    rw [pageSize_eq]
    unfold noffHeaderSize
    omega
  have hroom : noffH.numPages ≤ numPhysPages := hcount.le.trans hpages
  obtain ⟨mem, hload, hmem, hothers⟩ := loadPages_ok noff hroom
    (by rw [hcode]; exact Int.natCast_nonneg _) hoffsets 0 s.mainMemory (by omega) htaken.nodup hlt
  rw [hcount] at hload
  have hconstructor : s.exeNoVirtualMemoryConstructor noff = .ok
      (some ⟨some (entriesFrom 0 (s.miMapa.clearList.take p.numPages)), p.numPages, s.numTables,
        noff⟩, { s.newTable with miMapa := m', mainMemory := mem }) := by
    rw [State.exeNoVirtualMemoryConstructor, h.header, ok_bind, hcount, hsetup, ok_bind]
    dsimp only
    rw [hload]
    rfl
  have hlinear := linear_entriesFrom htaken.nodup hlt
  refine ⟨_, _, hconstructor, rfl, rfl, hlength, hlinear, fun a ha => ?_, fun address hnot => ?_,
    htaken.clearList, htaken.numBits, rfl, rfl⟩
  · have hpage : a / pageSize < p.numPages := (Nat.div_lt_iff_lt_mul (by decide)).mpr ha
    have hoffset := Nat.mod_lt a (show 0 < pageSize by decide)
    obtain ⟨frame, hframe⟩ : ∃ frame, (s.miMapa.clearList.take p.numPages)[a / pageSize]? = some frame :=
      ⟨_, List.getElem?_eq_getElem (by omega)⟩
    have hplace : place (entriesFrom 0 (s.miMapa.clearList.take p.numPages)) a =
        frame * pageSize + a % pageSize := by
      have he : (entriesFrom 0 (s.miMapa.clearList.take p.numPages))[a / pageSize]? =
          some (mapped (0 + a / pageSize) frame) := by
        rw [getElem?_entriesFrom, hframe, Option.map_some]
      rw [place_eq he, mapped, Int.toNat_natCast]
    have haddr : a / pageSize * pageSize + a % pageSize = a := Nat.div_add_mod' a pageSize
    have hbyte := hmem (a / pageSize) frame hframe (a % pageSize) hoffset
    rw [Nat.zero_add, hcode, Int.toNat_natCast, Nat.add_assoc, haddr] at hbyte
    -- the bytes beyond the file keep what the frame had
    have hin := copied_iff h hpages hpage hoffset
    rw [haddr] at hin
    dsimp only
    rw [hplace, hbyte]
    by_cases ha' : a < p.fileSize
    · rw [if_pos ha', if_pos (hin.mpr ha'), h.bytes a ha']
    · rw [if_neg ha', if_neg (mt hin.mp ha')]
  · have hbyte := hothers (address / pageSize) hnot (address % pageSize)
      (Nat.mod_lt address (by decide))
    rw [Nat.div_add_mod' address pageSize] at hbyte
    exact hbyte

/-- What the linker makes can be converted and started wherever there are frames enough: the bytes
of its text and its data are in memory at the addresses at which it was linked, what is behind them
in its pages is as the frames had it, the memory of all others is left alone, and all its sections
end below the stack. -/
theorem exec_coff2noff (p : Program) (stack : Bytes) (s : State)
    (hbits : numPhysPages ≤ s.miMapa.numBits)
    (hfree : p.numPages ≤ (s.miMapa.clearBits numPhysPages).card) :
    (∃ noff space s' pageTable, coff2noff p.coff stack p.sections = .ok noff ∧
      s.exeNoVirtualMemoryConstructor noff = .ok (some space, s') ∧
      space.pageTable = some pageTable ∧ Linear pageTable ∧ pageTable.length = p.numPages ∧
      (∀ e ∈ pageTable, s.miMapa.marked e.physicalPage.toNat = false) ∧
      (∀ a < p.numPages * pageSize, s'.mainMemory (place pageTable a) =
        if a < p.fileSize then p.image a else s.mainMemory (place pageTable a)) ∧
      ∀ address, ¬ InFrames (pageTable.map TranslationEntry.physicalPage) address →
        s'.mainMemory address = s.mainMemory address) ∧
    ∀ sec ∈ p.sections, sec.size ≠ 0 →
      0 ≤ sec.paddr ∧ sec.paddr + sec.size + userStackSize ≤ p.numPages * pageSize := by
  constructor
  · obtain ⟨hpages, hlength, hlt, -⟩ := exeSetup_clearList s hbits hfree
    have hclear : p.numPages ≤ s.miMapa.numClear := by
      rw [← hlength, ← BitMap.length_clearList]
      exact List.length_take_le' _ _
    obtain ⟨noff, noffH, hconvert, hnoff⟩ := p.coff2noff_ok stack (by
      have hle := p.size_le
      rw [numPhysPages_eq] at hpages
      rw [pageSize_eq] at hle
      unfold noffHeaderSize
      omega)
    obtain ⟨space, s', hexec, hloads⟩ := exec_loads hnoff hpages hclear hlt
    refine ⟨noff, space, s', _, hconvert, hexec, hloads.pageTable, hloads.linear,
      (length_entriesFrom _ _).trans hlength, fun e he => ?_, hloads.image, fun address hnot => ?_⟩
    · -- the frames are the first ones that were clear
      have hframe := List.mem_map_of_mem (f := TranslationEntry.physicalPage) he
      rw [map_entriesFrom] at hframe
      obtain ⟨frame, hmem, hframe⟩ := List.mem_map.mp hframe
      have hunmarked := (List.mem_filter.mp (List.mem_of_mem_take hmem)).2
      rw [← hframe, Int.toNat_natCast]
      simpa using hunmarked
    · refine hloads.others address fun hmem => hnot ⟨(address / pageSize : ℕ), ?_, Int.toNat_natCast _⟩
      rw [map_entriesFrom]
      exact List.mem_map_of_mem hmem
  · intro sec hsec hsize
    obtain ⟨hnonneg, hle⟩ := p.sections_le hsec hsize
    have hpages := p.size_le
    rw [userStackSize]
    exact ⟨hnonneg, by omega⟩

end

/-- `LW r1,12(r0)`, `ADDIU r2,r0,5` and `ADDU r3,r1,r2`, a word of data, and eight bytes more. -/
def addFive (word : UInt8) : Program where
  coff := ⟨16, fun a => [0x0c, 0x00, 0x01, 0x8c, 0x05, 0x00, 0x02, 0x24, 0x21, 0x18, 0x22, 0x00,
    word].getD a 0⟩
  sections := [.low .text 0 12 0, .low .rdata 12 0 0, .low .data 12 4 12, .low .sbss 16 0 0,
    .low .bss 16 8 0]
  text := .low .text 0 12 0
  data := some (.low .data 12 4 12)
  bss := some (.low .bss 16 8 0)
  linked := rfl
  text_name := rfl
  data_name _ hsec := by
    cases hsec
    exact .inl rfl
  bss_name _ hsec := by
    cases hsec
    exact List.mem_cons_self
  text_addr := rfl
  data_addr _ hsec := by
    cases hsec
    rfl
  bss_addr _ hsec := by
    cases hsec
    rfl
  complete sec hsec := by
    rcases List.mem_cons.mp hsec with rfl | hsec
    · exact Nat.le_of_ble_eq_true rfl
    · rw [List.mem_singleton.mp hsec]
      exact Nat.le_refl 16

/-- The word of data is in memory at address `12`. -/
theorem exec_coff2noff_addFive : ∃ noff space s' pageTable,
    coff2noff (addFive 7).coff (fun _ => 0) (addFive 7).sections = .ok noff ∧
    State.initial.exeNoVirtualMemoryConstructor noff = .ok (some space, s') ∧
    space.pageTable = some pageTable ∧ s'.mainMemory (place pageTable 12) = 7 := by
  have hfree : (addFive 7).numPages ≤ (State.initial.miMapa.clearBits numPhysPages).card := by
    decide +kernel
  obtain ⟨⟨noff, space, s', pageTable, hconvert, hexec, htable, -, -, -, himage, -⟩, -⟩ :=
    exec_coff2noff (addFive 7) (fun _ => 0) State.initial (by decide) hfree
  refine ⟨noff, space, s', pageTable, hconvert, hexec, htable, ?_⟩
  rw [himage 12 (by decide), if_pos (by decide)]
  decide +kernel

end NoVM
end NachOS
