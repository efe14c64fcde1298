import NachOS.Bin.Coff2noff

/-!
# Programs from the linker

The script in `test/` links a program from address `0` on, `.text` first, then the initialised data
and then the uninitialised data, with no gaps. `coff2noff` turns such a program into a file that has
the header and after it the memory image, in order.
-/

namespace NachOS

open PartialRun

/-! ## Memory images -/

/-- The section is of uninitialised data. -/
def Section.IsZero (sec : Section) : Prop := sec.name ∈ [SectionName.bss, .sbss]

instance (sec : Section) : Decidable sec.IsZero := inferInstanceAs (Decidable (_ ∈ _))

/-- The address is in the section. -/
def Section.Covers (sec : Section) (addr : ℕ) : Prop :=
  sec.paddr ≤ addr ∧ addr < sec.paddr + sec.size

instance (sec : Section) (addr : ℕ) : Decidable (sec.Covers addr) :=
  inferInstanceAs (Decidable (_ ∧ _))

/-- The byte that a section has at an address. -/
def Section.byteAt (coff : HostFile) (sec : Section) (addr : ℕ) : Option UInt8 :=
  if sec.Covers addr then
    some (if sec.IsZero then 0 else coff.data (sec.scnptr + (addr - sec.paddr).toNat))
  else none

/-- What the sections say that memory has; the rest of it is zero. -/
def memoryImage (coff : HostFile) (sections : List Section) : Bytes := fun addr =>
  (sections.findSome? fun sec => sec.byteAt coff addr).getD 0

/-- A COFF file as the linker makes it; some of the sections may be empty. -/
structure Program where
  coff : HostFile
  sections : List Section
  text : Section
  /-- `.data` or `.rdata`. -/
  data : Option Section
  /-- `.bss` or `.sbss`. -/
  bss : Option Section
  linked : (sections.filter fun sec => sec.size ≠ 0) = text :: (data.toList ++ bss.toList)
  text_name : text.name = .text
  data_name : ∀ sec ∈ data, sec.name = .data ∨ sec.name = .rdata
  bss_name : ∀ sec ∈ bss, sec.IsZero
  text_addr : text.paddr = 0
  data_addr : ∀ sec ∈ data, sec.paddr = text.size
  bss_addr : ∀ sec ∈ bss, sec.paddr = (text.size + (data.map Section.size).getD 0 : ℕ)
  complete : ∀ sec ∈ text :: data.toList, sec.scnptr + sec.size ≤ coff.length

namespace Program

def dataSize (p : Program) : ℕ := (p.data.map Section.size).getD 0

def bssSize (p : Program) : ℕ := (p.bss.map Section.size).getD 0

/-- The bytes that are in the file. -/
def fileSize (p : Program) : ℕ := p.text.size + p.dataSize

/-- The bytes of all sections. -/
def size (p : Program) : ℕ := p.fileSize + p.bssSize

def image (p : Program) : Bytes := memoryImage p.coff p.sections

end Program

section

variable {coff : HostFile} {sec : Section} {c c' : Conversion} {p : Program} {a : ℕ}

/-- An empty section covers nothing. -/
theorem Section.byteAt_of_empty (h : sec.size = 0) (addr : ℕ) : sec.byteAt coff addr = none := by
  have hnot : ¬ sec.Covers addr := by
    rintro ⟨hle, hlt⟩
    omega
  rw [Section.byteAt, if_neg hnot]

theorem memoryImage_filter (coff : HostFile) (sections : List Section) :
    memoryImage coff (sections.filter fun sec => sec.size ≠ 0) = memoryImage coff sections := by
  funext addr
  unfold memoryImage
  congr 1
  induction sections with
  | nil => rfl
  | cons sec sections ih =>
    by_cases hsize : sec.size = 0
    · rw [List.filter_cons_of_neg (by simpa using hsize), List.findSome?_cons,
        Section.byteAt_of_empty hsize]
      exact ih
    · rw [List.filter_cons_of_pos (by simpa using hsize), List.findSome?_cons, List.findSome?_cons, ih]

theorem Program.image_eq (p : Program) :
    p.image = memoryImage p.coff (p.text :: (p.data.toList ++ p.bss.toList)) := by
  rw [← p.linked, memoryImage_filter]
  rfl

/-- The text comes first. -/
theorem Program.image_text (ha : a < p.text.size) : p.image a = p.coff.data (p.text.scnptr + a) := by
  have hcovers : p.text.Covers a := by
    rw [Section.Covers, p.text_addr]
    omega
  have hzero : ¬ p.text.IsZero := by
    rw [Section.IsZero, p.text_name]
    decide
  rw [p.image_eq, memoryImage, List.findSome?_cons, Section.byteAt, if_pos hcovers, if_neg hzero,
    p.text_addr, Int.sub_zero, Int.toNat_natCast]
  rfl

/-- Then the data. -/
theorem Program.image_data (hsec : sec ∈ p.data) (ha : a < sec.size) :
    p.image (p.text.size + a) = p.coff.data (sec.scnptr + a) := by
  have hlow : ¬ p.text.Covers (p.text.size + a) := by
    rw [Section.Covers, p.text_addr]
    omega
  have hcovers : sec.Covers (p.text.size + a) := by
    rw [Section.Covers, p.data_addr sec hsec]
    omega
  have hzero : ¬ sec.IsZero := by
    rcases p.data_name sec hsec with hname | hname
    · rw [Section.IsZero, hname]
      decide
    · rw [Section.IsZero, hname]
      decide
  have hoffset : (((p.text.size + a : ℕ) : ℤ) - sec.paddr).toNat = a := by
    rw [p.data_addr sec hsec]
    omega
  rw [p.image_eq, memoryImage, List.findSome?_cons, Section.byteAt, if_neg hlow,
    Option.mem_def.mp hsec, Option.toList_some, List.singleton_append, List.findSome?_cons,
    Section.byteAt, if_pos hcovers, if_neg hzero, hoffset]
  rfl

/-- The rest is zero. -/
theorem Program.image_zero (ha : p.fileSize ≤ a) : p.image a = 0 := by
  have hbyte : ∀ sec ∈ p.text :: (p.data.toList ++ p.bss.toList), ∀ byte ∈ sec.byteAt p.coff a,
      byte = 0 := by
    intro sec hsec byte hbyte
    unfold Section.byteAt at hbyte
    split at hbyte
    · rename_i hcovers
      rcases List.mem_cons.mp hsec with rfl | hsec
      · rw [Section.Covers, p.text_addr] at hcovers
        rw [fileSize] at ha
        omega
      rcases List.mem_append.mp hsec with hsec | hsec
      · rw [Option.mem_toList] at hsec
        rw [Section.Covers, p.data_addr sec hsec] at hcovers
        rw [fileSize, dataSize, Option.mem_def.mp hsec, Option.map_some, Option.getD_some] at ha
        omega
      · rw [if_pos (p.bss_name sec (Option.mem_toList.mp hsec)), Option.mem_some_iff] at hbyte
        exact hbyte.symm
    · cases hbyte
  rw [p.image_eq, memoryImage]
  cases hfind : List.findSome? (fun sec => sec.byteAt p.coff a)
      (p.text :: (p.data.toList ++ p.bss.toList)) with
  | none => rfl
  | some byte =>
    obtain ⟨sec, hsec, hat⟩ := List.exists_of_findSome?_eq_some hfind
    exact hbyte sec hsec byte hat

/-! ## The conversion -/

/-- Empty sections do nothing. -/
theorem run_convert_filter (sections : List Section) (c : Conversion) :
    run (convertSection coff) c (sections.filter fun sec => sec.size ≠ 0) =
      run (convertSection coff) c sections := by
  induction sections generalizing c with
  | nil => rfl
  | cons sec sections ih =>
    by_cases hsize : sec.size = 0
    · rw [List.filter_cons_of_neg (by simpa using hsize), run_cons, convertSection, if_pos hsize,
        ok_bind]
      exact ih c
    · rw [List.filter_cons_of_pos (by simpa using hsize), run_cons, run_cons]
      exact congrArg (convertSection coff c sec >>= ·) (funext ih)

/-- The first `n` bytes of the image are behind the place for the header. -/
structure Copied (p : Program) (n : ℕ) (c : Conversion) : Prop where
  position : c.position = noffHeaderSize + n
  inNoffFile : c.inNoffFile = c.position
  length : c.fdOut.length = if n = 0 then 0 else noffHeaderSize + n
  bytes : ∀ a < n, c.fdOut.data (noffHeaderSize + a) = p.image a

/-- A section is copied behind what there is. -/
theorem Copied.copySection {n : ℕ} (h : Copied p n c) (hsize : sec.size ≠ 0)
    (hcomplete : sec.scnptr + sec.size ≤ p.coff.length)
    (hint : noffHeaderSize + n + sec.size < 2 ^ 31)
    (hbytes : ∀ a < sec.size, p.image (n + a) = p.coff.data (sec.scnptr + a)) :
    ∃ c', NachOS.copySection p.coff sec c = .ok c' ∧ c'.noffH = c.noffH ∧
      Copied p (n + sec.size) c' := by
  have hin := h.inNoffFile
  have hposition := h.position
  have hlength := h.length
  have hadd : addInt c.inNoffFile sec.size = .ok (c.inNoffFile + sec.size) := by
    rw [addInt, if_pos (by omega)]
  have hcopy : NachOS.copySection p.coff sec c = .ok { c with
      inNoffFile := c.inNoffFile + sec.size
      fdOut := c.fdOut.put c.position sec.size (Bytes.window p.coff.data sec.scnptr)
      position := c.position + sec.size } := by
    rw [NachOS.copySection, if_neg (by omega), hadd]
    rfl
  refine ⟨_, hcopy, rfl, by dsimp only; omega, by dsimp only; omega, ?_, fun a ha => ?_⟩
  · show max c.fdOut.length (c.position + sec.size) = _
    rw [if_neg (by omega)]
    split at hlength
    · omega
    · omega
  · dsimp only
    by_cases hlt : a < n
    · rw [if_neg (by omega)] at hlength
      rw [HostFile.put_of_not_mem (by omega) (by omega), h.bytes a hlt]
    · obtain ⟨k, rfl⟩ := Nat.exists_eq_add_of_le (not_lt.mp hlt)
      rw [HostFile.put_of_mem (by omega) (by omega), hbytes k (by omega), Bytes.window]
      congr 1
      omega

theorem copied_start (p : Program) (stack : Bytes) : Copied p 0 (Conversion.start stack) where
  position := rfl
  inNoffFile := rfl
  length := rfl
  bytes := fun a ha => absurd ha (Nat.not_lt_zero a)

theorem Program.size_ne_zero_of_mem (p : Program)
    (hsec : sec ∈ p.text :: (p.data.toList ++ p.bss.toList)) : sec.size ≠ 0 := by
  rw [← p.linked] at hsec
  simpa using (List.mem_filter.mp hsec).2

/-- The text is copied. -/
theorem Program.convert_text (p : Program) (stack : Bytes)
    (hint : noffHeaderSize + p.size < 2 ^ 31) :
    ∃ c, convertSection p.coff (Conversion.start stack) p.text = .ok c ∧ Copied p p.text.size c ∧
      c.noffH.code = ⟨0, noffHeaderSize, p.text.size⟩ ∧ c.noffH.initData.size = 0 ∧
      c.noffH.uninitData.size = 0 := by
  have hsize := p.size_ne_zero_of_mem List.mem_cons_self
  rw [Program.size, Program.fileSize] at hint
  have hstart := copied_start p stack
  have hcode : Copied p 0 { Conversion.start stack with
      noffH := { (Conversion.start stack).noffH with
        code := ⟨p.text.paddr, (Conversion.start stack).inNoffFile, p.text.size⟩ } } :=
    ⟨hstart.position, hstart.inNoffFile, hstart.length, hstart.bytes⟩
  obtain ⟨c, hcopy, hnoffH, hcopied⟩ := hcode.copySection hsize
    (p.complete p.text List.mem_cons_self) (by omega) fun a ha => by
      rw [Nat.zero_add]
      exact p.image_text ha
  rw [Nat.zero_add] at hcopied
  refine ⟨c, ?_, hcopied, ?_, ?_, ?_⟩
  · rw [convertSection, if_neg hsize, p.text_name]
    exact hcopy
  · rw [hnoffH]
    dsimp only
    rw [p.text_addr]
    rfl
  · rw [hnoffH]
    rfl
  · rw [hnoffH]
    rfl

/-- The data, if there is any, is copied behind the text. -/
theorem Program.convert_data (p : Program) (hint : noffHeaderSize + p.size < 2 ^ 31)
    (hcopied : Copied p p.text.size c) (hnone : c.noffH.initData.size = 0) :
    ∃ c', run (convertSection p.coff) c p.data.toList = .ok c' ∧ Copied p p.fileSize c' ∧
      c'.noffH.code = c.noffH.code ∧ c'.noffH.initData.size = p.dataSize ∧
      c'.noffH.uninitData = c.noffH.uninitData := by
  rw [Program.size, Program.fileSize, Program.dataSize] at hint
  rw [Program.fileSize, Program.dataSize]
  cases hdata : p.data with
  | none => exact ⟨c, rfl, hcopied, rfl, hnone, rfl⟩
  | some sec =>
    have hmem : sec ∈ p.data := hdata
    have hsize : sec.size ≠ 0 := p.size_ne_zero_of_mem (List.mem_cons_of_mem _
      (List.mem_append_left _ (Option.mem_toList.mpr hmem)))
    rw [hdata, Option.map_some, Option.getD_some] at hint
    have hheader : Copied p p.text.size { c with
        noffH := { c.noffH with initData := ⟨sec.paddr, c.inNoffFile, sec.size⟩ } } :=
      ⟨hcopied.position, hcopied.inNoffFile, hcopied.length, hcopied.bytes⟩
    obtain ⟨c', hcopy, hnoffH, hcopied'⟩ := hheader.copySection hsize
      (p.complete sec (List.mem_cons_of_mem _ (Option.mem_toList.mpr hmem))) (by omega)
      fun a ha => p.image_data hmem ha
    have hstep : convertSection p.coff c sec = .ok c' := by
      rcases p.data_name sec hmem with hname | hname
      · rw [convertSection, if_neg hsize, hname]
        dsimp only
        rw [if_neg (not_not.mpr hnone), hcopy]
      · rw [convertSection, if_neg hsize, hname]
        dsimp only
        rw [if_neg (not_not.mpr hnone), hcopy]
    refine ⟨c', ?_, hcopied', ?_, ?_, ?_⟩
    · rw [Option.toList_some, run_cons, hstep]
      rfl
    · rw [hnoffH]
    · rw [hnoffH]
      rfl
    · rw [hnoffH]

/-- The uninitialised data, if there is any, is only in the header. -/
theorem Program.convert_bss (p : Program) (hnone : c.noffH.uninitData.size = 0) :
    ∃ c', run (convertSection p.coff) c p.bss.toList = .ok c' ∧ c'.fdOut = c.fdOut ∧
      c'.noffH.code = c.noffH.code ∧ c'.noffH.initData = c.noffH.initData ∧
      c'.noffH.uninitData.size = p.bssSize := by
  rw [Program.bssSize]
  cases hbss : p.bss with
  | none => exact ⟨c, rfl, rfl, rfl, rfl, hnone⟩
  | some sec =>
    have hmem : sec ∈ p.bss := hbss
    have hsize : sec.size ≠ 0 := p.size_ne_zero_of_mem (List.mem_cons_of_mem _
      (List.mem_append_right _ (Option.mem_toList.mpr hmem)))
    have hadd : addUninitData c.noffH.uninitData sec =
        .ok { c.noffH.uninitData with virtualAddr := sec.paddr, size := sec.size } := by
      rw [addUninitData, if_neg (not_not.mpr hnone)]
    have hname := p.bss_name sec hmem
    simp only [Section.IsZero, List.mem_cons, List.not_mem_nil, or_false] at hname
    refine ⟨{ c with noffH := { c.noffH with uninitData :=
      { c.noffH.uninitData with virtualAddr := sec.paddr, size := sec.size } } }, ?_, rfl, rfl, rfl, rfl⟩
    rw [Option.toList_some, run_cons, convertSection, if_neg hsize]
    rcases hname with hname | hname
    · rw [hname]
      dsimp only
      rw [hadd]
      rfl
    · rw [hname]
      dsimp only
      rw [hadd]
      rfl

/-- The file is the header and the image. -/
structure Program.IsNoff (p : Program) (noff : HostFile) (noffH : NoffHeader) : Prop where
  header : noff.noffHeader = .ok noffH
  code : noffH.code = ⟨0, noffHeaderSize, p.text.size⟩
  initData : noffH.initData.size = p.dataSize
  uninitData : noffH.uninitData.size = p.bssSize
  length : noff.length = noffHeaderSize + p.fileSize
  bytes : ∀ a < p.fileSize, noff.data (noffHeaderSize + a) = p.image a

/-- `coff2noff` takes what the linker makes. -/
theorem Program.coff2noff_ok (p : Program) (stack : Bytes)
    (hint : noffHeaderSize + p.size < 2 ^ 31) :
    ∃ noff noffH, coff2noff p.coff stack p.sections = .ok noff ∧ p.IsNoff noff noffH := by
  obtain ⟨c₁, htext, hcopied₁, hcode₁, hdata₁, hbss₁⟩ := p.convert_text stack hint
  obtain ⟨c₂, hdata, hcopied₂, hcode₂, hdata₂, hbss₂⟩ := p.convert_data hint hcopied₁ hdata₁
  obtain ⟨c₃, hbss, hout, hcode₃, hdata₃, hbss₃⟩ := p.convert_bss (c := c₂) (by rw [hbss₂, hbss₁])
  have hrun : run (convertSection p.coff) (Conversion.start stack) p.sections = .ok c₃ := by
    rw [← run_convert_filter, p.linked, run_cons, htext, ok_bind]
    exact run_append_eq_ok.mpr ⟨c₂, hdata, hbss⟩
  have hconverted : Converted p.coff p.sections c₃ :=
    run_inputs_invariant (fun done sec c c' hinv => hinv.step) (Converted.start p.coff stack) hrun
  have hlength := hcopied₂.length
  have hpos := p.size_ne_zero_of_mem List.mem_cons_self
  have hfile : p.fileSize ≠ 0 := by
    rw [Program.fileSize]
    omega
  rw [if_neg hfile] at hlength
  refine ⟨c₃.fdOut.put 0 noffHeaderSize c₃.noffH.bytes, c₃.noffH, ?_, hconverted.noffHeader,
    by rw [hcode₃, hcode₂, hcode₁], by rw [hdata₃, hdata₂], hbss₃, ?_, fun a ha => ?_⟩
  · rw [coff2noff, hrun]
    rfl
  · rw [hout]
    show max c₂.fdOut.length (0 + noffHeaderSize) = _
    omega
  · rw [hout, HostFile.put_of_not_mem (by omega) (by omega), hcopied₂.bytes a ha]

end
end NachOS
