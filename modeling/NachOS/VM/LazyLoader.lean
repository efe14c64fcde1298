import NachOS.VM.FrameRange

/-!
# Loading a page on demand

`loadFromDisk` fetches the page of a faulting address. Whether it reads the file at all is
decided by the address, not by the page: an address past the segments is taken for the stack,
and the place of the code in the file is counted among their sizes. What it does not read stays
as the frame was. This file says when the frame ends up with the page of the program.
-/

namespace NachOS

/-! ## The program image -/

/-- The address lies in the segment. -/
def Segment.Holds (seg : Segment) (v : ℤ) : Prop :=
  seg.virtualAddr ≤ v ∧ v < seg.virtualAddr + seg.size

instance (seg : Segment) (v : ℤ) : Decidable (seg.Holds v) :=
  inferInstanceAs (Decidable (_ ∧ _))

namespace NoffHeader

/-- The code is linked at zero, and the initialised data comes right after it, in the file and
in memory. -/
structure Contiguous (noffH : NoffHeader) : Prop where
  codeAt : noffH.code.virtualAddr = 0
  dataAt : noffH.initData.virtualAddr = noffH.code.virtualAddr + noffH.code.size
  dataInFile : noffH.initData.inFileAddr = noffH.code.inFileAddr + noffH.code.size

/-- The address holds code or initialised data. -/
def Initialised (noffH : NoffHeader) (v : ℤ) : Prop :=
  noffH.code.Holds v ∨ noffH.initData.Holds v

instance (noffH : NoffHeader) (v : ℤ) : Decidable (noffH.Initialised v) :=
  inferInstanceAs (Decidable (_ ∨ _))

/-- The byte of the program at an address: from the file for code and initialised data, zero
for uninitialised data and the stack. -/
def imageByte (noffH : NoffHeader) (file : HostFile) (v : ℤ) : UInt8 :=
  if noffH.code.Holds v then
    file.data (noffH.code.inFileAddr + (v - noffH.code.virtualAddr)).toNat
  else if noffH.initData.Holds v then
    file.data (noffH.initData.inFileAddr + (v - noffH.initData.virtualAddr)).toNat
  else 0

/-- A page of the program. -/
def pageImage (noffH : NoffHeader) (file : HostFile) (page : ℕ) : Bytes :=
  fun o => noffH.imageByte file (page * pageSize + o : ℕ)

/-- In such a program one offset serves both segments. -/
theorem Contiguous.imageByte_eq {noffH : NoffHeader} (h : noffH.Contiguous) (file : HostFile)
    {v : ℤ} (hv : noffH.Initialised v) :
    noffH.imageByte file v = file.data (noffH.code.inFileAddr + v).toNat := by
  have hcode := h.codeAt
  have hdata := h.dataAt
  have hfile := h.dataInFile
  unfold imageByte
  split
  · congr 2
    omega
  · rename_i hnot
    rw [if_pos (hv.resolve_left hnot)]
    congr 2
    omega

theorem imageByte_of_not {noffH : NoffHeader} (file : HostFile) {v : ℤ}
    (hv : ¬ noffH.Initialised v) : noffH.imageByte file v = 0 := by
  unfold imageByte
  rw [if_neg fun h => hv (.inl h), if_neg fun h => hv (.inr h)]

/-! ## What is read -/

/-- The test for the stack. -/
def TakenForStack (noffH : NoffHeader) (addr : ℤ) : Prop :=
  toInt (noffH.initData.size + noffH.uninitData.size + noffH.code.inFileAddr + noffH.code.size)
    ≤ addr

instance (noffH : NoffHeader) (addr : ℤ) : Decidable (noffH.TakenForStack addr) :=
  inferInstanceAs (Decidable (_ ≤ _))

/-- The place in the file where the page is looked for. -/
def pageOffset (noffH : NoffHeader) (page : ℕ) : ℤ := noffH.code.inFileAddr + page * pageSize

/-- How many bytes of the page are asked for. -/
def pageBytes (noffH : NoffHeader) (numPages page : ℕ) : ℕ :=
  let size := toInt (noffH.code.size + noffH.initData.size + noffH.uninitData.size)
  if (page : ℤ) = toInt (numPages - 1) ∧ size.tmod pageSize ≠ 0 then (size.tmod pageSize).toNat
  else pageSize

/-- The byte at offset `o` of the page is read, for a fault at `addr`: the address is not taken
for the stack, the byte is asked for and it is in the file. -/
def Reads (noffH : NoffHeader) (file : HostFile) (numPages addr o : ℕ) : Prop :=
  ¬ noffH.TakenForStack addr ∧ o < noffH.pageBytes numPages (addr / pageSize) ∧
    noffH.pageOffset (addr / pageSize) + o < file.length

instance (noffH : NoffHeader) (file : HostFile) (numPages addr o : ℕ) :
    Decidable (noffH.Reads file numPages addr o) :=
  inferInstanceAs (Decidable (¬ _ ∧ _ ∧ _))

/-- A fault at `addr` finds the page: its offset is one, the bytes read past the initialised data
are zero, and where nothing is read the frame was right before. -/
structure Fetches (noffH : NoffHeader) (file : HostFile) (numPages : ℕ) (frame : Bytes)
    (addr : ℕ) : Prop where
  offset : ¬ noffH.TakenForStack addr → 0 ≤ noffH.pageOffset (addr / pageSize) ∧
    noffH.pageOffset (addr / pageSize) < 2 ^ 31
  read : ∀ o < pageSize, noffH.Reads file numPages addr o →
    ¬ noffH.Initialised (addr / pageSize * pageSize + o : ℕ) →
      file.data (noffH.pageOffset (addr / pageSize) + o).toNat = 0
  kept : ∀ o < pageSize, ¬ noffH.Reads file numPages addr o →
    frame o = noffH.pageImage file (addr / pageSize) o

/-- A page of code and initialised data that is in the file is found whatever was in the frame,
from every address before the end of the segments. -/
theorem Fetches.of_initialised {noffH : NoffHeader} {file : HostFile} {numPages addr : ℕ}
    (frame : Bytes) (hstack : ¬ noffH.TakenForStack addr)
    (hoffset : 0 ≤ noffH.pageOffset (addr / pageSize))
    (hlength : noffH.pageOffset (addr / pageSize) + pageSize ≤ file.length)
    (hint : noffH.pageOffset (addr / pageSize) < 2 ^ 31)
    (hlast : ((addr / pageSize : ℕ) : ℤ) ≠ toInt (numPages - 1))
    (hinit : ∀ o < pageSize, noffH.Initialised (addr / pageSize * pageSize + o : ℕ)) :
    noffH.Fetches file numPages frame addr := by
  have hbytes : noffH.pageBytes numPages (addr / pageSize) = pageSize :=
    if_neg fun h => hlast h.1
  refine ⟨fun _ => ⟨hoffset, hint⟩, fun o ho _ hnot => absurd (hinit o ho) hnot, ?_⟩
  intro o ho hnot
  refine absurd ⟨hstack, by rw [hbytes]; exact ho, ?_⟩ hnot
  omega

end NoffHeader

namespace System

open PartialRun NoffHeader

/-! ## The load -/

section

variable {s s₁ : System} {noffH : NoffHeader} {addr : ℕ} {f : ℤ}

theorem diskRequest_stack (h : noffH.TakenForStack addr) (numPages : ℕ) :
    diskRequest noffH numPages addr = none := if_pos h

/-- What is asked of the file otherwise. -/
theorem diskRequest_file (h : ¬ noffH.TakenForStack addr) (numPages : ℕ) :
    ∃ size : ℤ, diskRequest noffH numPages addr =
        some (toInt (noffH.pageOffset (addr / pageSize)), size) ∧
      size.toNat = noffH.pageBytes numPages (addr / pageSize) := by
  have hrequest : diskRequest noffH numPages addr = some (
      toInt (noffH.pageOffset (addr / pageSize)),
      if ((addr / pageSize : ℕ) : ℤ) = toInt (numPages - 1) ∧
        (toInt (noffH.code.size + noffH.initData.size + noffH.uninitData.size)).tmod pageSize ≠ 0
      then (toInt (noffH.code.size + noffH.initData.size + noffH.uninitData.size)).tmod pageSize
      else pageSize) := by
    unfold diskRequest
    rw [addr_tdiv]
    exact if_neg h
  refine ⟨_, hrequest, ?_⟩
  unfold pageBytes
  dsimp only
  split
  · rfl
  · exact Int.toNat_natCast _

theorem pageBytes_le (noffH : NoffHeader) (numPages page : ℕ) :
    noffH.pageBytes numPages page ≤ pageSize := by
  unfold pageBytes
  dsimp only
  rw [pageSize_eq]
  split
  · have := Int.tmod_lt_of_pos
      (toInt (noffH.code.size + noffH.initData.size + noffH.uninitData.size))
      (show (0 : ℤ) < (128 : ℕ) by decide)
    omega
  · exact le_rfl

/-- The state once frame `f` has been entered for page `p`. -/
def enterFrame (s : System) (p : ℕ) (f : ℤ) : System :=
  s.withEntry p { s.space.pageTable p with physicalPage := f, virtualPage := p }

/-- With a frame, `loadFromDisk` enters it and does what the address asks for. -/
theorem loadFromDisk_eq (hread : s.space.ownExecutable.noffHeader = .ok noffH)
    (hin : addr / pageSize < s.space.numPages)
    (hframe : s.getPhysicalPage (addr / pageSize : ℕ) = .ok (f, s₁)) :
    s.loadFromDisk addr = (match diskRequest noffH s.space.numPages addr with
      | none => .ok (((addr / pageSize : ℕ) : ℤ), s₁.enterFrame (addr / pageSize) f)
      | some (positionOnFile, size) => do
        let (count, bytes) ← s.space.ownExecutable.readAt size positionOnFile
        let mainMemory ← copyIn s.mainMemory (f * pageSize) count bytes
        return (((addr / pageSize : ℕ) : ℤ),
          { s₁.enterFrame (addr / pageSize) f with mainMemory })) := by
  have hframe := getPhysicalPage_ok hframe
  rw [hframe.loadFromDisk hin, diskTransfer, hread, ok_bind, hframe.kept.mainMemory]
  cases diskRequest noffH s.space.numPages addr with
  | none =>
    have hmem : s.mainMemory = (s₁.enterFrame (addr / pageSize) f).mainMemory :=
      hframe.kept.mainMemory.symm
    rw [hmem]
    rfl
  | some request => rfl

/-- Otherwise the bytes in the file are copied to the frame, if the offset is one. -/
theorem loadFromDisk_file (hread : s.space.ownExecutable.noffHeader = .ok noffH)
    (hint : addr < 2 ^ 31) (hin : addr / pageSize < s.space.numPages)
    (hframe : s.getPhysicalPage (addr / pageSize : ℕ) = .ok (f, s₁)) (hf : IsFrame f)
    (hstack : ¬ noffH.TakenForStack addr) {page : ℤ} {s' : System} :
    s.loadFromDisk addr = .ok (page, s') ↔
      (0 ≤ noffH.pageOffset (addr / pageSize) ∧ noffH.pageOffset (addr / pageSize) < 2 ^ 31) ∧
      page = (addr / pageSize : ℕ) ∧
      s' = { s₁.enterFrame (addr / pageSize) f with
        mainMemory := Bytes.blit s.mainMemory (f.toNat * pageSize)
          (min (noffH.pageBytes s.space.numPages (addr / pageSize))
            (s.space.ownExecutable.length - (noffH.pageOffset (addr / pageSize)).toNat))
          (Bytes.window s.space.ownExecutable.data
            (noffH.pageOffset (addr / pageSize)).toNat) } := by
  obtain ⟨size, hrequest, hsize⟩ := diskRequest_file hstack s.space.numPages
  obtain ⟨hlow, hhigh⟩ := HostFile.noffHeader_int hread
  have hpage : addr / pageSize * pageSize ≤ addr := Nat.div_mul_le_self addr pageSize
  rw [loadFromDisk_eq hread hin hframe, hrequest]
  dsimp only
  rw [HostFile.readAt, hsize]
  have hle := pageBytes_le noffH s.space.numPages (addr / pageSize)
  -- the sum of two `int`s wraps to a negative number or not at all
  have hwrap : (0 ≤ noffH.pageOffset (addr / pageSize) ∧
        noffH.pageOffset (addr / pageSize) < 2 ^ 31 ∧
        toInt (noffH.pageOffset (addr / pageSize)) = noffH.pageOffset (addr / pageSize)) ∨
      (¬ (0 ≤ noffH.pageOffset (addr / pageSize) ∧
        noffH.pageOffset (addr / pageSize) < 2 ^ 31) ∧
        toInt (noffH.pageOffset (addr / pageSize)) < 0) := by
    have hcast : ((addr / pageSize : ℕ) : ℤ) * (pageSize : ℤ) =
        ((addr / pageSize * pageSize : ℕ) : ℤ) := by push_cast; rfl
    unfold pageOffset
    rw [hcast]
    unfold toInt
    omega
  rcases hwrap with ⟨hnonneg, hlt, hoff⟩ | ⟨hnot, hneg⟩
  · rw [hoff, if_neg (by omega), ok_bind]
    dsimp only
    -- a page fits into a frame of the memory, so the copy stays within it
    have hcopy : ∀ n ≤ pageSize, ∀ bytes, copyIn s.mainMemory (f * pageSize) n bytes =
        .ok (Bytes.blit s.mainMemory (f.toNat * pageSize) n bytes) := by
      intro n hn bytes
      obtain ⟨hf₀, hf₁⟩ := hf
      refine copyIn_ok_iff.mpr ⟨.inr ?_, ?_⟩
      · rw [numPhysPages_eq] at hf₁
        rw [pageSize_eq] at *
        rw [memorySize_eq]
        omega
      · congr 1
        rw [pageSize_eq]
        omega
    rw [hcopy _ ((Nat.min_le_left _ _).trans hle), ok_bind]
    simp only [pure_ok_iff, Prod.mk.injEq, hnonneg, hlt, and_self, true_and]
    exact ⟨fun h => ⟨h.1.symm, h.2.symm⟩, fun h => ⟨h.1.symm, h.2.symm⟩⟩
  · rw [if_pos hneg]
    constructor
    · intro h
      cases h
    · intro h
      exact absurd h.1 hnot

theorem pageOffset_add (noffH : NoffHeader) (page o : ℕ) : noffH.pageOffset page + o =
    noffH.code.inFileAddr + (page * pageSize + o : ℕ) := by
  unfold pageOffset
  push_cast
  exact Int.add_assoc _ _ _

/-- The frame holds the page of the program after the load exactly if the fault fetches it. -/
theorem loadFromDisk_image_iff (s : System) (addr : ℕ) {noffH : NoffHeader}
    (hread : s.space.ownExecutable.noffHeader = .ok noffH) (hlayout : noffH.Contiguous)
    (hint : addr < 2 ^ 31) (hin : addr < s.space.numPages * pageSize) {f : ℤ} {s₁ : System}
    (hframe : s.getPhysicalPage (addr / pageSize : ℕ) = .ok (f, s₁)) (hf : IsFrame f) :
    (∃ page s', s.loadFromDisk addr = .ok (page, s') ∧
      Bytes.EqUpTo pageSize (Bytes.window s'.mainMemory (f.toNat * pageSize))
        (noffH.pageImage s.space.ownExecutable (addr / pageSize))) ↔
      noffH.Fetches s.space.ownExecutable s.space.numPages
        (Bytes.window s.mainMemory (f.toNat * pageSize)) addr := by
  have hpage : addr / pageSize < s.space.numPages := (Nat.div_lt_iff_lt_mul (by decide)).mpr hin
  by_cases hstack : noffH.TakenForStack addr
  · -- nothing is read
    have hnot : ∀ o, ¬ noffH.Reads s.space.ownExecutable s.space.numPages addr o :=
      fun o h => h.1 hstack
    have hload := loadFromDisk_eq hread hpage hframe
    rw [diskRequest_stack hstack] at hload
    have hmem : (s₁.enterFrame (addr / pageSize) f).mainMemory = s.mainMemory :=
      (getPhysicalPage_ok hframe).kept.mainMemory
    constructor
    · rintro ⟨page, s', hok, himage⟩
      rw [hload] at hok
      cases hok
      rw [hmem] at himage
      exact ⟨fun h => absurd hstack h, fun o _ h => absurd h (hnot o), fun o ho _ => himage o ho⟩
    · intro hfetches
      refine ⟨_, _, hload, ?_⟩
      rw [hmem]
      exact fun o ho => hfetches.kept o ho (hnot o)
  · have hload := @loadFromDisk_file s s₁ noffH addr f hread hint hpage hframe hf hstack
    -- the bytes read are those below the count of the transfer
    have hmem : 0 ≤ noffH.pageOffset (addr / pageSize) → ∀ o,
        Bytes.window (Bytes.blit s.mainMemory (f.toNat * pageSize)
          (min (noffH.pageBytes s.space.numPages (addr / pageSize))
            (s.space.ownExecutable.length - (noffH.pageOffset (addr / pageSize)).toNat))
          (Bytes.window s.space.ownExecutable.data (noffH.pageOffset (addr / pageSize)).toNat))
          (f.toNat * pageSize) o =
        if noffH.Reads s.space.ownExecutable s.space.numPages addr o then
          s.space.ownExecutable.data (noffH.pageOffset (addr / pageSize) + o).toNat
        else Bytes.window s.mainMemory (f.toNat * pageSize) o := by
      intro hoff o
      have hreads : o < min (noffH.pageBytes s.space.numPages (addr / pageSize))
          (s.space.ownExecutable.length - (noffH.pageOffset (addr / pageSize)).toNat) ↔
          noffH.Reads s.space.ownExecutable s.space.numPages addr o := by
        rw [Nat.lt_min, NoffHeader.Reads]
        simp only [hstack, not_false_eq_true, true_and]
        exact and_congr_right fun _ => by omega
      have hplace : (noffH.pageOffset (addr / pageSize)).toNat + o =
          (noffH.pageOffset (addr / pageSize) + o).toNat := by omega
      rw [Bytes.window_blit, if_congr hreads rfl rfl, Bytes.window, hplace]
    -- the segments are contiguous in the file too, so the offset of the page fits every segment
    have hbyte : ∀ o, noffH.Initialised (addr / pageSize * pageSize + o : ℕ) →
        s.space.ownExecutable.data (noffH.pageOffset (addr / pageSize) + o).toNat =
          noffH.pageImage s.space.ownExecutable (addr / pageSize) o := by
      intro o hinit
      rw [pageImage, hlayout.imageByte_eq _ hinit, pageOffset_add]
    constructor
    · rintro ⟨page, s', hok, himage⟩
      obtain ⟨hoff, -, rfl⟩ := hload.mp hok
      refine ⟨fun _ => hoff, fun o ho hread hnot => ?_, fun o ho hnot => ?_⟩
      · -- a byte read past the initialised data must happen to be zero
        have hzero := (hmem hoff.1 o).symm.trans (himage o ho)
        rwa [if_pos hread, pageImage, imageByte_of_not _ hnot] at hzero
      · -- and one that is not read keeps what the frame had
        have hkept := (hmem hoff.1 o).symm.trans (himage o ho)
        rwa [if_neg hnot] at hkept
    · intro hfetches
      have hoff := hfetches.offset hstack
      refine ⟨_, _, hload.mpr ⟨hoff, rfl, rfl⟩, fun o ho => (hmem hoff.1 o).trans ?_⟩
      split
      · rename_i hread
        by_cases hinit : noffH.Initialised (addr / pageSize * pageSize + o : ℕ)
        · exact hbyte o hinit
        · rw [hfetches.read o ho hread hinit, pageImage, imageByte_of_not _ hinit]
      · rename_i hread
        exact hfetches.kept o ho hread

end

/-- A machine whose memory is full of other bytes, and a program with a page of code. -/
def dirtyBoot : System :=
  { boot .secondChance fun _ => HostFile.program (List.replicate 128 7) 0 with
    mainMemory := fun _ => 1 }

def pageHeader : NoffHeader where
  noffMagic := 0xbadfad
  code := ⟨0, 40, 128⟩
  initData := ⟨128, 168, 0⟩
  uninitData := ⟨128, 168, 0⟩

theorem noffHeader_dirtyBoot : dirtyBoot.space.ownExecutable.noffHeader = .ok pageHeader := by
  decide +kernel

/-- From any of its addresses the page of code is loaded. -/
theorem loadFromDisk_image_dirtyBoot : ∃ page s', dirtyBoot.loadFromDisk 64 = .ok (page, s') ∧
    Bytes.EqUpTo pageSize (Bytes.window s'.mainMemory (0 * pageSize))
      (pageHeader.pageImage dirtyBoot.space.ownExecutable 0) :=
  (loadFromDisk_image_iff dirtyBoot 64 noffHeader_dirtyBoot ⟨rfl, rfl, rfl⟩ (by decide)
    (by decide +kernel) (f := 0) (getPhysicalPage_free _ (by decide +kernel))
    (isFrame_natCast (f := 0) (by decide))).mpr
    (Fetches.of_initialised _ (by decide) (by decide) (by decide +kernel) (by decide)
      (by decide +kernel) (by decide +kernel))

/-- Four bytes of code: a fault at address 60 of their page is taken for one of the stack, and
the code is not loaded. -/
theorem loadFromDisk_not_image : ¬ ∀ (s : System) (addr : ℕ) (noffH : NoffHeader) (f : ℤ)
    (s₁ : System), s.space.ownExecutable.noffHeader = .ok noffH → noffH.Contiguous →
    addr < 2 ^ 31 → addr < s.space.numPages * pageSize →
    s.getPhysicalPage (addr / pageSize : ℕ) = .ok (f, s₁) → IsFrame f →
    ∃ page s', s.loadFromDisk addr = .ok (page, s') ∧
      Bytes.EqUpTo pageSize (Bytes.window s'.mainMemory (f.toNat * pageSize))
        (noffH.pageImage s.space.ownExecutable (addr / pageSize)) := by
  intro h
  obtain ⟨page, s', hok, himage⟩ := h
    (boot .secondChance fun _ => HostFile.program [1, 2, 3, 4] 0) 60
    ⟨0xbadfad, ⟨0, 40, 4⟩, ⟨4, 44, 0⟩, ⟨4, 44, 0⟩⟩ 0 _ (by decide +kernel) ⟨rfl, rfl, rfl⟩
    (by decide) (by decide +kernel) (getPhysicalPage_free (f := 0) _ (by decide +kernel))
    (isFrame_natCast (f := 0) (by decide))
  have hzero : ∃ r, (boot .secondChance fun _ => HostFile.program [1, 2, 3, 4] 0).loadFromDisk 60 =
      .ok r ∧ r.2.mainMemory 0 = 0 := by
    decide +kernel
  obtain ⟨r, hr, hmem⟩ := hzero
  rw [show ((60 : ℕ) : ℤ) = 60 from rfl, hr, Except.ok.injEq] at hok
  subst hok
  have hfirst := himage 0 (by decide)
  have hbyte : s'.mainMemory 0 = 1 := hfirst
  rw [hmem] at hbyte
  exact absurd hbyte (by decide)

end System
end NachOS
