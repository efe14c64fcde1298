import NachOS.Lib.Run
import NachOS.Lib.Words
import NachOS.Userprog.AddrSpace
import Mathlib.Algebra.Order.BigOperators.Group.List
import Mathlib.Algebra.Order.Group.Nat

/-!
# Converting object files

`coff2noff.c`, from the point on where the section table of the COFF file has been read. The
converter stops with a message if it cannot handle a file; it also stops where C gives an `int`
that is too large no value.
-/

namespace NachOS

open PartialRun

/-! ## The converter -/

/-- `s_name`, as far as `strcmp` tells. -/
inductive SectionName where
  | text
  | data
  | rdata
  | bss
  | sbss
  | other
deriving DecidableEq

/-- `struct scnhdr`: sizes and places in the file are not negative, and all are `int`s. -/
structure Section where
  name : SectionName
  paddr : ℤ
  size : ℕ
  scnptr : ℕ
  paddr_int : -2 ^ 31 ≤ paddr ∧ paddr < 2 ^ 31 := by decide
  size_int : size < 2 ^ 31 := by decide
deriving DecidableEq

/-- Why the converter stops. -/
inductive ConvertError where
  | tooShort
  | dataAndRdata
  | bssAndSbss
  | unknownSegment
  | overflow
deriving DecidableEq

/-- The local variables of `main`. -/
structure Conversion where
  noffH : NoffHeader
  inNoffFile : ℤ
  fdOut : HostFile
  /-- The place in `fdOut` where the next byte goes. -/
  position : ℕ

/-- The sum of two `int`s. -/
def addInt (a b : ℤ) : Except ConvertError ℤ :=
  if -2 ^ 31 ≤ a + b ∧ a + b < 2 ^ 31 then .ok (a + b) else .error .overflow

/-- The bytes written from a place on; what is skipped reads as zero. -/
def HostFile.put (file : HostFile) (position n : ℕ) (source : Bytes) : HostFile where
  length := max file.length (position + n)
  data := Bytes.blit (fun a => if a < file.length then file.data a else 0) position n source

/-- `Read`, `Write` and the new `inNoffFile` for a section that is copied. -/
def copySection (coff : HostFile) (sec : Section) (c : Conversion) :
    Except ConvertError Conversion :=
  if coff.length < sec.scnptr + sec.size then .error .tooShort
  else do
    let inNoffFile ← addInt c.inNoffFile sec.size
    return { c with
      inNoffFile
      fdOut := c.fdOut.put c.position sec.size (Bytes.window coff.data sec.scnptr)
      position := c.position + sec.size }

/-- A `.bss` or `.sbss` section. -/
def addUninitData (seg : Segment) (sec : Section) : Except ConvertError Segment :=
  if seg.size ≠ 0 then do
    let stop ← addInt seg.virtualAddr seg.size
    -- the source rejects the sections that are contiguous
    if sec.paddr = stop then .error .bssAndSbss
    else
      let size ← addInt seg.size sec.size
      return { seg with size }
  else .ok { seg with virtualAddr := sec.paddr, size := sec.size }

/-- One round of the loop over the sections. -/
def convertSection (coff : HostFile) (c : Conversion) (sec : Section) :
    Except ConvertError Conversion :=
  -- an empty section is skipped, whatever its name
  if sec.size = 0 then .ok c
  else match sec.name with
    | .text => copySection coff sec
        { c with noffH := { c.noffH with code := ⟨sec.paddr, c.inNoffFile, sec.size⟩ } }
    | .data | .rdata =>
      if c.noffH.initData.size ≠ 0 then .error .dataAndRdata
      else copySection coff sec
        { c with noffH := { c.noffH with initData := ⟨sec.paddr, c.inNoffFile, sec.size⟩ } }
    | .bss | .sbss => do
      let uninitData ← addUninitData c.noffH.uninitData sec
      return { c with noffH := { c.noffH with uninitData } }
    | .other => .error .unknownSegment

/-- The header as it is in memory. -/
def NoffHeader.ofBytes (m : Bytes) : NoffHeader where
  noffMagic := m.int 0
  code := ⟨m.int 4, m.int 8, m.int 12⟩
  initData := ⟨m.int 16, m.int 20, m.int 24⟩
  uninitData := ⟨m.int 28, m.int 32, m.int 36⟩

/-- The bytes of a header. -/
def NoffHeader.bytes (noffH : NoffHeader) : Bytes :=
  [(0, noffH.noffMagic),
    (4, noffH.code.virtualAddr), (8, noffH.code.inFileAddr), (12, noffH.code.size),
    (16, noffH.initData.virtualAddr), (20, noffH.initData.inFileAddr), (24, noffH.initData.size),
    (28, noffH.uninitData.virtualAddr), (32, noffH.uninitData.inFileAddr),
    (36, noffH.uninitData.size)].foldl (fun m (addr, v) => m.setInt addr v) fun _ => 0

/-- The variables before the loop; `stack` is what the memory of `noffH` has. -/
def Conversion.start (stack : Bytes) : Conversion where
  noffH :=
    let noffH := NoffHeader.ofBytes stack
    { noffMagic := noffMagicNumber
      code := { noffH.code with size := 0 }
      initData := { noffH.initData with size := 0 }
      uninitData := { noffH.uninitData with size := 0 } }
  inNoffFile := noffHeaderSize
  fdOut := HostFile.empty
  position := noffHeaderSize

/-- `main` of `coff2noff.c`: the file that is written. -/
def coff2noff (coff : HostFile) (stack : Bytes) (sections : List Section) :
    Except ConvertError HostFile := do
  let c ← run (convertSection coff) (Conversion.start stack) sections
  return c.fdOut.put 0 noffHeaderSize c.noffH.bytes

/-! ## What the file should have -/

/-- A section that is not empty, with one of the names. -/
def Section.Is (sec : Section) (names : List SectionName) : Prop := sec.size ≠ 0 ∧ sec.name ∈ names

instance (sec : Section) (names : List SectionName) : Decidable (sec.Is names) :=
  inferInstanceAs (Decidable (_ ∧ _))

/-- The byte at a place of a file. -/
def HostFile.byteAt (file : HostFile) (position : ℤ) : Option UInt8 :=
  if 0 ≤ position ∧ position < file.length then some (file.data position.toNat) else none

/-- A segment has the address, the size and the bytes of a section. -/
structure Found (coff noff : HostFile) (sec : Section) (seg : Segment) : Prop where
  virtualAddr : seg.virtualAddr = sec.paddr
  size : seg.size = sec.size
  bytes : ∀ k < sec.size, ∃ byte, coff.byteAt (sec.scnptr + k : ℕ) = some byte ∧
    noff.byteAt (seg.inFileAddr + k) = some byte

/-- The sections of uninitialised data that are not empty. -/
def bssSections (sections : List Section) : List Section :=
  sections.filter fun sec => sec.Is [.bss, .sbss]

/-- The NOFF file has every section that is not empty. -/
structure Represents (coff noff : HostFile) (sections : List Section) (noffH : NoffHeader) : Prop where
  header : noff.noffHeader = .ok noffH
  text : ∀ sec ∈ sections, sec.Is [.text] → Found coff noff sec noffH.code
  data : ∀ sec ∈ sections, sec.Is [.data, .rdata] → Found coff noff sec noffH.initData
  bss : ∀ addr : ℤ, noffH.uninitData.virtualAddr ≤ addr ∧
    addr < noffH.uninitData.virtualAddr + noffH.uninitData.size ↔
    ∃ sec ∈ bssSections sections, sec.paddr ≤ addr ∧ addr < sec.paddr + sec.size

/-! ## What the loop does -/

/-- A segment has been copied from a section. -/
def Held (coff out : HostFile) (sec : Section) (seg : Segment) : Prop :=
  seg.virtualAddr = sec.paddr ∧ seg.size = sec.size ∧ sec.scnptr + sec.size ≤ coff.length ∧
    ∃ a : ℕ, seg.inFileAddr = a ∧ noffHeaderSize ≤ a ∧ a + sec.size ≤ out.length ∧
      ∀ k < sec.size, out.data (a + k) = coff.data (sec.scnptr + k)

/-- The three numbers of a segment are `int`s. -/
def Segment.Ints (seg : Segment) : Prop :=
  (-2 ^ 31 ≤ seg.virtualAddr ∧ seg.virtualAddr < 2 ^ 31) ∧
    (-2 ^ 31 ≤ seg.inFileAddr ∧ seg.inFileAddr < 2 ^ 31) ∧ -2 ^ 31 ≤ seg.size ∧ seg.size < 2 ^ 31

/-- The variables once the sections `done` have been converted. -/
structure Converted (coff : HostFile) (done : List Section) (c : Conversion) : Prop where
  magic : c.noffH.noffMagic = noffMagicNumber
  codeInts : c.noffH.code.Ints
  initDataInts : c.noffH.initData.Ints
  uninitDataInts : c.noffH.uninitData.Ints
  inNoffFile : c.inNoffFile = c.position ∧ noffHeaderSize ≤ c.position ∧ c.position < 2 ^ 31
  length : c.fdOut.length ≤ c.position
  text : ∀ sec ∈ done, sec.Is [.text] → sec.scnptr + sec.size ≤ coff.length ∧
    ∃ sec' ∈ done, sec'.Is [.text] ∧ Held coff c.fdOut sec' c.noffH.code
  data : ∀ sec ∈ done, sec.Is [.data, .rdata] → Held coff c.fdOut sec c.noffH.initData
  bssSize : c.noffH.uninitData.size = (((bssSections done).map Section.size).sum : ℕ)
  bssAddr : ∀ first ∈ (bssSections done).head?, c.noffH.uninitData.virtualAddr = first.paddr

section

variable {coff out : HostFile} {sec sec' : Section} {seg : Segment} {c c' : Conversion}
  {done : List Section}

theorem HostFile.put_of_mem {position n a : ℕ} {source : Bytes} (h₁ : position ≤ a)
    (h₂ : a < position + n) : (out.put position n source).data a = source (a - position) := by
  unfold HostFile.put
  dsimp only
  rw [Bytes.blit_of_mem h₁ h₂]

theorem HostFile.put_of_not_mem {position n a : ℕ} {source : Bytes}
    (h : ¬ (position ≤ a ∧ a < position + n)) (hlt : a < out.length) :
    (out.put position n source).data a = out.data a := by
  unfold HostFile.put
  dsimp only
  rw [Bytes.blit_of_not_mem h, if_pos hlt]

/-- What is copied later goes after it. -/
theorem Held.put (h : Held coff out sec seg) {position n : ℕ} (hposition : out.length ≤ position)
    (source : Bytes) : Held coff (out.put position n source) sec seg := by
  obtain ⟨hvirt, hsize, hcoff, a, ha, hheader, hlength, hbytes⟩ := h
  refine ⟨hvirt, hsize, hcoff, a, ha, hheader, hlength.trans (Nat.le_max_left _ _), fun k hk => ?_⟩
  rw [HostFile.put_of_not_mem (by omega) (by omega), hbytes k hk]

/-- The header goes before it. -/
theorem Held.putHeader (h : Held coff out sec seg) (source : Bytes) :
    Held coff (out.put 0 noffHeaderSize source) sec seg := by
  obtain ⟨hvirt, hsize, hcoff, a, ha, hheader, hlength, hbytes⟩ := h
  refine ⟨hvirt, hsize, hcoff, a, ha, hheader, hlength.trans (Nat.le_max_left _ _), fun k hk => ?_⟩
  rw [HostFile.put_of_not_mem (by omega) (by omega), hbytes k hk]

theorem Held.found (h : Held coff out sec seg) : Found coff out sec seg := by
  obtain ⟨hvirt, hsize, hcoff, a, ha, hheader, hlength, hbytes⟩ := h
  refine ⟨hvirt, hsize, fun k hk => ⟨coff.data (sec.scnptr + k), ?_, ?_⟩⟩
  · rw [HostFile.byteAt, if_pos (by omega), Int.toNat_natCast]
  · rw [HostFile.byteAt, ha, ← Int.natCast_add, if_pos (by omega), Int.toNat_natCast, hbytes k hk]

theorem addInt_ok {a b s : ℤ} (h : addInt a b = .ok s) :
    s = a + b ∧ -2 ^ 31 ≤ a + b ∧ a + b < 2 ^ 31 := by
  unfold addInt at h
  split at h
  · cases h
    exact ⟨rfl, by assumption⟩
  · cases h

/-- What copying a section does. -/
theorem copySection_ok (h : copySection coff sec c = .ok c') :
    sec.scnptr + sec.size ≤ coff.length ∧ c'.noffH = c.noffH ∧
      c'.inNoffFile = c.inNoffFile + sec.size ∧ c'.inNoffFile < 2 ^ 31 ∧
      c'.fdOut = c.fdOut.put c.position sec.size (Bytes.window coff.data sec.scnptr) ∧
      c'.position = c.position + sec.size := by
  unfold copySection at h
  split at h
  · cases h
  · obtain ⟨inNoffFile, hadd, h⟩ := bind_ok_iff.mp h
    obtain ⟨rfl, -, hlt⟩ := addInt_ok hadd
    cases h
    exact ⟨by omega, rfl, rfl, hlt, rfl, rfl⟩

/-- A section that has been copied is held, and those held before still are. -/
theorem held_copied (hcoff : sec.scnptr + sec.size ≤ coff.length)
    (hin : c.inNoffFile = c.position) (hheader : noffHeaderSize ≤ c.position) :
    Held coff (out.put c.position sec.size (Bytes.window coff.data sec.scnptr)) sec
      ⟨sec.paddr, c.inNoffFile, sec.size⟩ := by
  refine ⟨rfl, rfl, hcoff, c.position, hin, hheader, Nat.le_max_right _ _, fun k hk => ?_⟩
  rw [HostFile.put_of_mem (by omega) (by omega), Nat.add_sub_cancel_left, Bytes.window]

/-- The sections of uninitialised data after one more section. -/
theorem bssSections_append : bssSections (done ++ [sec]) =
    bssSections done ++ if sec.Is [.bss, .sbss] then [sec] else [] := by
  rw [bssSections, List.filter_append, bssSections]
  congr 1
  by_cases h : sec.Is [.bss, .sbss]
  · rw [if_pos h, List.filter_cons_of_pos (by simpa using h), List.filter_nil]
  · rw [if_neg h, List.filter_cons_of_neg (by simpa using h), List.filter_nil]

/-- A section that is empty or is copied leaves the uninitialised data alone. -/
theorem Converted.uninitData (h : Converted coff done c) (hsec : ¬ sec.Is [.bss, .sbss])
    (hsame : c'.noffH.uninitData = c.noffH.uninitData) :
    c'.noffH.uninitData.size = (((bssSections (done ++ [sec])).map Section.size).sum : ℕ) ∧
      ∀ first ∈ (bssSections (done ++ [sec])).head?,
        c'.noffH.uninitData.virtualAddr = first.paddr := by
  rw [bssSections_append, if_neg hsec, List.append_nil, hsame]
  exact ⟨h.bssSize, h.bssAddr⟩

theorem Converted.text_step (h : Converted coff done c) (hsize : sec.size ≠ 0)
    (hname : sec.name = .text)
    (hcopy : copySection coff sec { c with
      noffH := { c.noffH with code := ⟨sec.paddr, c.inNoffFile, sec.size⟩ } } = .ok c') :
    Converted coff (done ++ [sec]) c' := by
  obtain ⟨hcoff, hnoffH, hin, hlt, hout, hposition⟩ := copySection_ok hcopy
  obtain ⟨hinNoff, hheader, hposlt⟩ := h.inNoffFile
  dsimp only at hnoffH hin hout hposition
  have hcode : Held coff c'.fdOut sec c'.noffH.code := by
    rw [hout, hnoffH]
    exact held_copied hcoff hinNoff hheader
  have hpaddr := sec.paddr_int
  have hsizeInt := sec.size_int
  have hsec : ¬ sec.Is [.bss, .sbss] := fun hbss => by simp [Section.Is, hname] at hbss
  have hsame : c'.noffH.uninitData = c.noffH.uninitData := by rw [hnoffH]
  obtain ⟨hbssSize, hbssAddr⟩ := h.uninitData hsec hsame
  refine ⟨by rw [hnoffH]; exact h.magic, ?codeInts, by rw [hnoffH]; exact h.initDataInts,
    by rw [hnoffH]; exact h.uninitDataInts, ?inNoffFile, ?length, fun t ht his => ?text,
    fun d hd his => ?data, hbssSize, hbssAddr⟩
  case codeInts =>
    rw [hnoffH]
    refine ⟨hpaddr, ?_, ?_⟩
    · dsimp only
      omega
    · dsimp only
      omega
  case inNoffFile => omega
  case length =>
    rw [hout, hposition]
    have hlength := h.length
    show max _ _ ≤ _
    omega
  case text =>
    -- the code segment is now this section, the last one of its name
    refine ⟨?_, sec, List.mem_append_right _ List.mem_cons_self, ⟨hsize, by simp [hname]⟩, hcode⟩
    rcases List.mem_append.mp ht with ht | ht
    · exact (h.text t ht his).1
    · rw [List.mem_singleton.mp ht]
      exact hcoff
  case data =>
    have hd' : d ∈ done := by
      rcases List.mem_append.mp hd with hd | hd
      · exact hd
      · rw [List.mem_singleton.mp hd, Section.Is, hname] at his
        simp at his
    rw [hout, hnoffH]
    exact (h.data d hd' his).put h.length _

theorem Converted.data_step (h : Converted coff done c)
    (hname : sec.name = .data ∨ sec.name = .rdata) (hempty : c.noffH.initData.size = 0)
    (hcopy : copySection coff sec { c with
      noffH := { c.noffH with initData := ⟨sec.paddr, c.inNoffFile, sec.size⟩ } } = .ok c') :
    Converted coff (done ++ [sec]) c' := by
  obtain ⟨hcoff, hnoffH, hin, hlt, hout, hposition⟩ := copySection_ok hcopy
  obtain ⟨hinNoff, hheader, hposlt⟩ := h.inNoffFile
  dsimp only at hnoffH hin hout hposition
  have hdata : Held coff c'.fdOut sec c'.noffH.initData := by
    rw [hout, hnoffH]
    exact held_copied hcoff hinNoff hheader
  have hpaddr := sec.paddr_int
  have hsizeInt := sec.size_int
  have hsec : ¬ sec.Is [.bss, .sbss] := fun hbss => by
    rcases hname with hname | hname <;> simp [Section.Is, hname] at hbss
  have hsame : c'.noffH.uninitData = c.noffH.uninitData := by rw [hnoffH]
  obtain ⟨hbssSize, hbssAddr⟩ := h.uninitData hsec hsame
  refine ⟨by rw [hnoffH]; exact h.magic, by rw [hnoffH]; exact h.codeInts, ?initDataInts,
    by rw [hnoffH]; exact h.uninitDataInts, ?inNoffFile, ?length, fun t ht his => ?text,
    fun d hd his => ?data, hbssSize, hbssAddr⟩
  case initDataInts =>
    rw [hnoffH]
    refine ⟨hpaddr, ?_, ?_⟩
    · dsimp only
      omega
    · dsimp only
      omega
  case inNoffFile => omega
  case length =>
    rw [hout, hposition]
    have hlength := h.length
    show max _ _ ≤ _
    omega
  case text =>
    -- the code was written before, and the data goes behind it
    have ht' : t ∈ done := by
      rcases List.mem_append.mp ht with ht | ht
      · exact ht
      · rw [List.mem_singleton.mp ht, Section.Is] at his
        rcases hname with hname | hname
        all_goals simp [hname] at his
    obtain ⟨hin, t', ht', his', hheld⟩ := h.text t ht' his
    refine ⟨hin, t', List.mem_append_left _ ht', his', ?_⟩
    rw [hout, hnoffH]
    exact hheld.put h.length _
  case data =>
    rcases List.mem_append.mp hd with hd | hd
    · -- a section of data before would have set the size
      have hset := (h.data d hd his).2.1
      rw [hempty] at hset
      exact absurd (Int.ofNat_eq_zero.mp hset.symm) his.1
    · rw [List.mem_singleton.mp hd]
      exact hdata

/-- What a section of uninitialised data does. -/
theorem addUninitData_ok {seg' : Segment} (h : addUninitData seg sec = .ok seg') :
    (seg.size = 0 ∧ seg' = { seg with virtualAddr := sec.paddr, size := sec.size }) ∨
    (seg.size ≠ 0 ∧ seg' = { seg with size := seg.size + sec.size } ∧
      -2 ^ 31 ≤ seg.size + sec.size ∧ seg.size + sec.size < 2 ^ 31) := by
  unfold addUninitData at h
  split at h
  · rename_i hsize
    obtain ⟨stop, -, h⟩ := bind_ok_iff.mp h
    split at h
    · cases h
    · obtain ⟨size, hadd, h⟩ := bind_ok_iff.mp h
      obtain ⟨rfl, hrange⟩ := addInt_ok hadd
      cases h
      exact .inr ⟨hsize, rfl, hrange⟩
  · rename_i hsize
    rw [Except.ok.injEq] at h
    exact .inl ⟨not_not.mp hsize, h.symm⟩

theorem Converted.bss_step (h : Converted coff done c) (hsec : sec.Is [.bss, .sbss]) {seg : Segment}
    (hadd : addUninitData c.noffH.uninitData sec = .ok seg) :
    Converted coff (done ++ [sec]) { c with noffH := { c.noffH with uninitData := seg } } := by
  have hpaddr := sec.paddr_int
  have hsizeInt := sec.size_int
  obtain ⟨hvirt, hfile, hsize⟩ := h.uninitDataInts
  -- the sections of other segments are the ones seen before
  have hmem : ∀ {names : List SectionName}, .bss ∉ names → .sbss ∉ names →
      ∀ sec' ∈ done ++ [sec], sec'.Is names → sec' ∈ done := by
    intro names hbss hsbss sec' hsec' his
    rcases List.mem_append.mp hsec' with hsec' | hsec'
    · exact hsec'
    · rw [List.mem_singleton.mp hsec'] at his
      have hname := his.2
      rcases List.mem_cons.mp hsec.2 with hb | hb
      · rw [hb] at hname
        exact absurd hname hbss
      · rw [List.mem_singleton.mp hb] at hname
        exact absurd hname hsbss
  have hlist : bssSections (done ++ [sec]) = bssSections done ++ [sec] := by
    rw [bssSections_append, if_pos hsec]
  have hsum : (((bssSections (done ++ [sec])).map Section.size).sum : ℕ) =
      (((bssSections done).map Section.size).sum + sec.size : ℕ) := by
    rw [hlist, List.map_append, List.sum_append, List.map_singleton, List.sum_singleton]
  have hbssSize := h.bssSize
  refine ⟨h.magic, h.codeInts, h.initDataInts, ?uninitDataInts, h.inNoffFile, h.length,
    fun t ht his => ?text, fun d hd his => h.data d (hmem (by simp) (by simp) d hd his) his,
    ?bssSize, fun first hfirst => ?bssAddr⟩
  case uninitDataInts =>
    rcases addUninitData_ok hadd with ⟨-, rfl⟩ | ⟨-, rfl, hrange⟩
    · exact ⟨hpaddr, hfile, by dsimp only; omega⟩
    · exact ⟨hvirt, hfile, hrange⟩
  case text =>
    obtain ⟨hin, t', ht', his', hheld⟩ := h.text t (hmem (by simp) (by simp) t ht his) his
    exact ⟨hin, t', List.mem_append_left _ ht', his', hheld⟩
  case bssSize =>
    rw [hsum]
    rcases addUninitData_ok hadd with ⟨hzero, rfl⟩ | ⟨-, rfl, -⟩
    · dsimp only
      omega
    · dsimp only
      omega
  case bssAddr =>
    rw [hlist] at hfirst
    rcases addUninitData_ok hadd with ⟨hzero, rfl⟩ | ⟨hne, rfl, -⟩
    · -- there was none before
      have hnil : bssSections done = [] := by
        rw [List.eq_nil_iff_forall_not_mem]
        intro sec' hsec'
        have his : sec'.Is [.bss, .sbss] := by simpa using (List.mem_filter.mp hsec').2
        have hle : sec'.size ≤ ((bssSections done).map Section.size).sum :=
          List.le_sum_of_mem (List.mem_map_of_mem (f := Section.size) hsec')
        have := his.1
        omega
      rw [hnil, List.nil_append, List.head?_cons, Option.mem_some_iff] at hfirst
      rw [← hfirst]
    · have hcons : bssSections done ≠ [] := by
        intro hnil
        rw [hnil] at hbssSize
        exact hne hbssSize
      rw [List.head?_append_of_ne_nil _ hcons] at hfirst
      exact h.bssAddr first hfirst

/-- One round of the loop. -/
theorem Converted.step (h : Converted coff done c) (hstep : convertSection coff c sec = .ok c') :
    Converted coff (done ++ [sec]) c' := by
  unfold convertSection at hstep
  split at hstep
  · -- an empty section does nothing
    rename_i hsize
    cases hstep
    have hnot : ∀ names, ¬ sec.Is names := fun names his => his.1 hsize
    have hmem : ∀ {names : List SectionName}, ∀ sec' ∈ done ++ [sec], sec'.Is names → sec' ∈ done := by
      intro names sec' hsec' his
      rcases List.mem_append.mp hsec' with hsec' | hsec'
      · exact hsec'
      · rw [List.mem_singleton.mp hsec'] at his
        exact absurd his (hnot names)
    obtain ⟨hbssSize, hbssAddr⟩ := h.uninitData (hnot _) rfl
    refine ⟨h.magic, h.codeInts, h.initDataInts, h.uninitDataInts, h.inNoffFile, h.length,
      fun t ht his => ?_, fun d hd his => h.data d (hmem d hd his) his, hbssSize, hbssAddr⟩
    obtain ⟨hin, t', ht', his', hheld⟩ := h.text t (hmem t ht his) his
    exact ⟨hin, t', List.mem_append_left _ ht', his', hheld⟩
  · rename_i hsize
    split at hstep
    · exact h.text_step hsize ‹_› hstep
    · split at hstep
      · cases hstep
      · exact h.data_step (.inl ‹_›) (not_not.mp ‹_›) hstep
    · split at hstep
      · cases hstep
      · exact h.data_step (.inr ‹_›) (not_not.mp ‹_›) hstep
    · rename_i hname
      obtain ⟨seg, hadd, hstep⟩ := bind_ok_iff.mp hstep
      cases hstep
      exact h.bss_step ⟨hsize, by simp [hname]⟩ hadd
    · rename_i hname
      obtain ⟨seg, hadd, hstep⟩ := bind_ok_iff.mp hstep
      cases hstep
      exact h.bss_step ⟨hsize, by simp [hname]⟩ hadd
    · cases hstep

/-! ## The header -/

theorem int_range (m : Bytes) (addr : ℕ) : -2 ^ 31 ≤ m.int addr ∧ m.int addr < 2 ^ 31 := by
  unfold Bytes.int
  omega

theorem zero_range : (-2 ^ 31 : ℤ) ≤ 0 ∧ (0 : ℤ) < 2 ^ 31 := by decide

theorem Converted.start (coff : HostFile) (stack : Bytes) :
    Converted coff [] (Conversion.start stack) where
  magic := rfl
  codeInts := ⟨int_range stack 4, int_range stack 8, zero_range⟩
  initDataInts := ⟨int_range stack 16, int_range stack 20, zero_range⟩
  uninitDataInts := ⟨int_range stack 28, int_range stack 32, zero_range⟩
  inNoffFile := ⟨rfl, le_rfl, show noffHeaderSize < 2 ^ 31 by decide⟩
  length := Nat.zero_le _
  text := fun sec hsec => absurd hsec List.not_mem_nil
  data := fun sec hsec => absurd hsec List.not_mem_nil
  bssSize := rfl
  bssAddr := fun first hfirst => absurd hfirst (by simp [bssSections])

theorem HostFile.int_eq (file : HostFile) (position : ℕ) :
    file.int position = file.data.int position := by
  unfold Bytes.int
  rfl

theorem NoffHeader.ofBytes_bytes {noffH : NoffHeader} (hmagic : noffH.noffMagic = noffMagicNumber)
    (hcode : noffH.code.Ints) (hdata : noffH.initData.Ints) (hbss : noffH.uninitData.Ints) :
    NoffHeader.ofBytes noffH.bytes = noffH := by
  obtain ⟨⟨h₁, h₂⟩, ⟨h₃, h₄⟩, h₅, h₆⟩ := hcode
  obtain ⟨⟨h₇, h₈⟩, ⟨h₉, h₁₀⟩, h₁₁, h₁₂⟩ := hdata
  obtain ⟨⟨h₁₃, h₁₄⟩, ⟨h₁₅, h₁₆⟩, h₁₇, h₁₈⟩ := hbss
  have h₁₉ : -2 ^ 31 ≤ noffH.noffMagic ∧ noffH.noffMagic < 2 ^ 31 := by
    rw [hmagic]
    decide
  obtain ⟨h₁₉, h₂₀⟩ := h₁₉
  unfold NoffHeader.ofBytes NoffHeader.bytes
  simp (disch := omega) only [List.foldl_cons, List.foldl_nil, Bytes.int_setInt_of_disjoint,
    Bytes.int_setInt_self]

/-- The header is read back from the file. -/
theorem Converted.noffHeader (h : Converted coff done c) :
    (c.fdOut.put 0 noffHeaderSize c.noffH.bytes).noffHeader = .ok c.noffH := by
  have hint : ∀ position, position + 4 ≤ 40 →
      (c.fdOut.put 0 noffHeaderSize c.noffH.bytes).int position = c.noffH.bytes.int position := by
    intro position hposition
    rw [HostFile.int_eq]
    refine Bytes.int_congr fun k hk => ?_
    rw [HostFile.put_of_mem (Nat.zero_le _) (by unfold noffHeaderSize; omega), Nat.sub_zero]
  have hback := NoffHeader.ofBytes_bytes h.magic h.codeInts h.initDataInts h.uninitDataInts
  have hmagic : c.noffH.bytes.int 0 = noffMagicNumber :=
    (congrArg NoffHeader.noffMagic hback).trans h.magic
  have hlength : noffHeaderSize ≤ (c.fdOut.put 0 noffHeaderSize c.noffH.bytes).length :=
    (Nat.zero_add noffHeaderSize).symm.le.trans (Nat.le_max_right _ _)
  unfold HostFile.noffHeader HostFile.segment
  rw [if_neg (by omega), hint 0 (by omega), if_neg (by rw [hmagic]; simp)]
  simp (disch := omega) only [hint]
  exact congrArg Except.ok hback

/-! ## When the file has all sections -/

/-- The sections of text are one and the same, and those of uninitialised data make up the range
that starts with the first of them and is as long as all of them. -/
structure Representable (coff : HostFile) (sections : List Section) : Prop where
  text : ∀ sec ∈ sections, sec.Is [.text] → ∀ sec' ∈ sections, sec'.Is [.text] →
    sec.paddr = sec'.paddr ∧ sec.size = sec'.size ∧
      ∀ k < sec.size, coff.data (sec.scnptr + k) = coff.data (sec'.scnptr + k)
  bss : ∀ first ∈ (bssSections sections).head?, ∀ addr : ℤ, first.paddr ≤ addr ∧
    addr < first.paddr + (((bssSections sections).map Section.size).sum : ℕ) ↔
    ∃ sec ∈ bssSections sections, sec.paddr ≤ addr ∧ addr < sec.paddr + sec.size

theorem HostFile.byteAt_some {file : HostFile} {position : ℕ} {byte : UInt8}
    (h : file.byteAt position = some byte) : file.data position = byte := by
  unfold HostFile.byteAt at h
  split at h
  · exact Option.some.inj h
  · cases h

/-- The converter accepts a file; then it has kept the sections exactly if they are such that a
NOFF file can have them. -/
theorem coff2noff_represents_iff {stack : Bytes} {sections : List Section} {noff : HostFile}
    (h : coff2noff coff stack sections = .ok noff) :
    (∃ noffH, Represents coff noff sections noffH) ↔ Representable coff sections := by
  unfold coff2noff at h
  obtain ⟨c, hrun, h⟩ := bind_ok_iff.mp h
  rw [pure_ok_iff] at h
  subst h
  have hc : Converted coff sections c :=
    run_inputs_invariant (fun done sec c c' hinv => hinv.step) (Converted.start coff stack) hrun
  constructor
  · -- two sections of code are found in the one segment, so they are the same
    rintro ⟨noffH, hheader, htext, -, hbss⟩
    rw [hc.noffHeader, Except.ok.injEq] at hheader
    subst hheader
    refine ⟨fun sec hsec his sec' hsec' his' => ?_, fun first hfirst addr => ?_⟩
    · have hfound := htext sec hsec his
      have hfound' := htext sec' hsec' his'
      have hsize : sec.size = sec'.size := by
        have := hfound.size.symm.trans hfound'.size
        omega
      refine ⟨hfound.virtualAddr.symm.trans hfound'.virtualAddr, hsize, fun k hk => ?_⟩
      obtain ⟨byte, hcoff, hnoff⟩ := hfound.bytes k hk
      obtain ⟨byte', hcoff', hnoff'⟩ := hfound'.bytes k (by omega)
      rw [hnoff, Option.some.injEq] at hnoff'
      rw [HostFile.byteAt_some hcoff, HostFile.byteAt_some hcoff', hnoff']
    · rw [← hbss addr, hc.bssAddr first hfirst, hc.bssSize]
  · -- the segment holds the last section of code, which every other equals
    intro hrep
    refine ⟨c.noffH, hc.noffHeader, fun sec hsec his => ?_,
      fun sec hsec his => ((hc.data sec hsec his).putHeader _).found, fun addr => ?_⟩
    · obtain ⟨hin, sec', hsec', his', hheld⟩ := hc.text sec hsec his
      have hfound := (hheld.putHeader c.noffH.bytes).found
      obtain ⟨hpaddr, hsize, hbytes⟩ := hrep.text sec hsec his sec' hsec' his'
      refine ⟨hfound.virtualAddr.trans hpaddr.symm, by rw [hfound.size, hsize], fun k hk => ?_⟩
      obtain ⟨byte, hcoff, hnoff⟩ := hfound.bytes k (by omega)
      refine ⟨byte, ?_, hnoff⟩
      rw [HostFile.byteAt, if_pos (by omega), Int.toNat_natCast, hbytes k hk,
        HostFile.byteAt_some hcoff]
    · cases hlist : (bssSections sections).head? with
      | some first =>
        rw [hc.bssAddr first hlist, hc.bssSize]
        exact hrep.bss first hlist addr
      | none =>
        have hnil := List.head?_eq_none_iff.mp hlist
        rw [hc.bssSize, hnil]
        simp

end

/-- One section of each kind. -/
def threeSections : List Section :=
  [⟨.text, 0, 4, 0, by decide, by decide⟩, ⟨.data, 4, 2, 4, by decide, by decide⟩,
    ⟨.bss, 6, 8, 0, by decide, by decide⟩]

theorem coff2noff_represents_three : ∃ noff,
    coff2noff ⟨6, fun a => UInt8.ofNat a⟩ (fun _ => 0) threeSections = .ok noff ∧
    ∃ noffH, Represents ⟨6, fun a => UInt8.ofNat a⟩ noff threeSections noffH := by
  have htext : ∀ sec ∈ threeSections, sec.Is [.text] → ∀ sec' ∈ threeSections, sec'.Is [.text] →
      sec = sec' := by
    decide
  refine ⟨_, rfl, (coff2noff_represents_iff rfl).mpr ⟨?_, ?_⟩⟩
  · intro sec hsec his sec' hsec' his'
    rw [htext sec hsec his sec' hsec' his']
    exact ⟨rfl, rfl, fun _ _ => rfl⟩
  · intro first hfirst addr
    have hbss : bssSections threeSections = [⟨.bss, 6, 8, 0, by decide, by decide⟩] := by decide
    rw [hbss, List.head?_cons, Option.mem_some_iff] at hfirst
    rw [hbss, ← hfirst]
    simp

/-- Sections of uninitialised data with a gap between them are accepted, as one segment that has
bytes of the gap. -/
theorem coff2noff_not_represents : ¬ ∀ (coff : HostFile) (stack : Bytes) (sections : List Section)
    (noff : HostFile), coff2noff coff stack sections = .ok noff →
    ∃ noffH, Represents coff noff sections noffH := by
  intro h
  have hok : ∃ noff, coff2noff HostFile.empty (fun _ => 0) [⟨.bss, 0, 8, 0, by decide, by decide⟩,
      ⟨.sbss, 100, 8, 0, by decide, by decide⟩] = .ok noff ∧
      noff.noffHeader = .ok ⟨noffMagicNumber, ⟨0, 0, 0⟩, ⟨0, 0, 0⟩, ⟨0, 0, 16⟩⟩ := by
    decide +kernel
  obtain ⟨noff, hok, hheader⟩ := hok
  obtain ⟨noffH, hrep⟩ := h _ _ _ _ hok
  have hnoffH := hrep.header
  rw [hheader, Except.ok.injEq] at hnoffH
  subst hnoffH
  obtain ⟨sec, hsec, hlow, hhigh⟩ := (hrep.bss 8).mp (by decide)
  have hmem := List.mem_of_mem_filter hsec
  simp only [List.mem_cons, List.not_mem_nil, or_false] at hmem
  rcases hmem with rfl | rfl
  · exact absurd hhigh (by decide)
  · exact absurd hlow (by decide)

end NachOS
