import NachOS.NoVM.AddrSpace
import NachOS.Lib.Run

/-!
# Memory behind a linear page table

`Machine::ReadMem` and `WriteMem` (`translate.cc`) in the build without virtual memory. If the
page table maps its pages to frames of their own, the accesses of a program are those of a
flat little-endian array of bytes.
-/

namespace NachOS
namespace NoVM

open PartialRun

/-! ## Accesses -/

/-- What an access reads and changes. -/
structure Memory where
  pageTable : List TranslationEntry
  mainMemory : Bytes

/-- `Machine::ReadMem`: the value, or the exception that is raised before it returns `false`. -/
def readMem (m : Memory) (addr : ℤ) (size : Size) : Except Fault (Except MemException ℤ × Memory) := do
  let (result, pageTable) ← translate m.pageTable addr size false
  return (result.map fun pa => System.readValue m.mainMemory pa size, { m with pageTable })

/-- `Machine::WriteMem`. -/
def writeMem (m : Memory) (addr : ℤ) (size : Size) (value : ℤ) :
    Except Fault (Except MemException Unit × Memory) := do
  let (result, pageTable) ← translate m.pageTable addr size true
  match result with
  | .error exception => return (.error exception, { m with pageTable })
  | .ok pa =>
    return (.ok (), ⟨pageTable, Bytes.blit m.mainMemory pa size.bytes (System.valueBytes value)⟩)

/-- A call of one of the two. -/
inductive Access where
  | read (addr : ℤ) (size : Size)
  | write (addr : ℤ) (size : Size) (value : ℤ)

/-- The answer: for a read the low bytes of the value. -/
inductive Reply where
  | bytes (low : List UInt8)
  | wrote
  | exception (e : MemException)

/-- The lowest `n` bytes of a value. -/
def lowBytes (n : ℕ) (value : ℤ) : List UInt8 := (List.range n).map (System.valueBytes value)

def access (m : Memory) : Access → Except Fault (Reply × Memory)
  | .read addr size => do
    match ← readMem m addr size with
    | (.ok value, m) => return (.bytes (lowBytes size.bytes value), m)
    | (.error e, m) => return (.exception e, m)
  | .write addr size value => do
    match ← writeMem m addr size value with
    | (.ok (), m) => return (.wrote, m)
    | (.error e, m) => return (.exception e, m)

/-! ## The flat array -/

/-- The same calls on an array of bytes. -/
def flatAccess (array : Bytes) : Access → Reply × Bytes
  | .read addr size => (.bytes ((List.range size.bytes).map fun k => array (addr.toNat + k)), array)
  | .write addr size value =>
    (.wrote, Bytes.blit array addr.toNat size.bytes (System.valueBytes value))

/-- An aligned access below `n * PageSize`. -/
def Access.InRange (n : ℕ) : Access → Prop
  | .read addr size | .write addr size _ =>
    addr % size.bytes = 0 ∧ 0 ≤ addr ∧ addr + size.bytes ≤ n * pageSize

/-- All pages are valid and writable and have frames of their own. -/
structure Linear (pageTable : List TranslationEntry) : Prop where
  valid : ∀ e ∈ pageTable, e.valid = true
  writable : ∀ e ∈ pageTable, e.readOnly = false
  frame : ∀ e ∈ pageTable, 0 ≤ e.physicalPage ∧ e.physicalPage < numPhysPages
  apart : (pageTable.map TranslationEntry.physicalPage).Nodup

/-- The physical address of a virtual one. -/
def place (pageTable : List TranslationEntry) (a : ℕ) : ℕ :=
  match (pageTable.map TranslationEntry.physicalPage)[a / pageSize]? with
  | some frame => frame.toNat * pageSize + a % pageSize
  | none => 0

/-- The array that the memory stands for. -/
def flat (m : Memory) : Bytes := fun a => m.mainMemory (place m.pageTable a)

/-! ## Places -/

section

variable {pageTable : List TranslationEntry}

theorem place_eq {a : ℕ} {e : TranslationEntry} (h : pageTable[a / pageSize]? = some e) :
    place pageTable a = e.physicalPage.toNat * pageSize + a % pageSize := by
  rw [place, List.getElem?_map, h]
  rfl

theorem place_add {a k : ℕ} (h : a % pageSize + k < pageSize) {e : TranslationEntry}
    (he : pageTable[a / pageSize]? = some e) : place pageTable (a + k) = place pageTable a + k := by
  rw [pageSize_eq] at h
  have hpage : (a + k) / pageSize = a / pageSize := by
    rw [pageSize_eq]
    omega
  rw [place_eq he, place_eq (hpage ▸ he), pageSize_eq]
  omega

theorem exists_entry {n a : ℕ} (hlength : pageTable.length = n) (ha : a < n * pageSize) :
    ∃ e, pageTable[a / pageSize]? = some e ∧ e ∈ pageTable := by
  have hlt : a / pageSize < pageTable.length := by
    rw [hlength]
    exact Nat.div_lt_of_lt_mul (Nat.mul_comm n pageSize ▸ ha)
  exact ⟨pageTable[a / pageSize], List.getElem?_eq_getElem hlt, List.getElem_mem hlt⟩

/-- Different addresses have different places. -/
theorem Linear.place_injective (h : Linear pageTable) {a b : ℕ} {e e' : TranslationEntry}
    (ha : pageTable[a / pageSize]? = some e) (hb : pageTable[b / pageSize]? = some e')
    (heq : place pageTable a = place pageTable b) : a = b := by
  have hframe : e.physicalPage = e'.physicalPage := by
    have hfe := h.frame e (List.mem_of_getElem? ha)
    have hfe' := h.frame e' (List.mem_of_getElem? hb)
    rw [place_eq ha, place_eq hb, pageSize_eq] at heq
    omega
  have hpage : a / pageSize = b / pageSize := by
    obtain ⟨hlt, -⟩ := List.getElem?_eq_some_iff.mp ha
    refine (List.getElem?_inj (by rw [List.length_map]; exact hlt) h.apart).mp ?_
    rw [List.getElem?_map, List.getElem?_map, ha, hb, Option.map_some, Option.map_some, hframe]
  rw [place_eq ha, place_eq hb, hframe] at heq
  rw [pageSize_eq] at heq hpage
  omega

/-- Setting the use and dirty bits changes no place. -/
theorem Linear.set (h : Linear pageTable) {i : ℕ} {e : TranslationEntry}
    (hi : pageTable[i]? = some e) (use dirty : Bool) :
    Linear (pageTable.set i { e with use, dirty }) ∧
      place (pageTable.set i { e with use, dirty }) = place pageTable := by
  have hmem : e ∈ pageTable := List.mem_of_getElem? hi
  have hmap : (pageTable.set i { e with use, dirty }).map TranslationEntry.physicalPage =
      pageTable.map TranslationEntry.physicalPage := by
    apply List.ext_getElem?
    intro j
    rw [List.map_set, List.getElem?_set]
    by_cases hij : i = j
    · obtain ⟨hlt, -⟩ := List.getElem?_eq_some_iff.mp hi
      rw [if_pos hij, if_pos (by rw [List.length_map]; exact hlt), List.getElem?_map, ← hij, hi]
      rfl
    · rw [if_neg hij]
  refine ⟨⟨fun e' he => ?_, fun e' he => ?_, fun e' he => ?_, ?_⟩, ?_⟩
  · rcases List.mem_or_eq_of_mem_set he with he | rfl
    · exact h.valid e' he
    · exact h.valid e hmem
  · rcases List.mem_or_eq_of_mem_set he with he | rfl
    · exact h.writable e' he
    · exact h.writable e hmem
  · rcases List.mem_or_eq_of_mem_set he with he | rfl
    · exact h.frame e' he
    · exact h.frame e hmem
  · rw [hmap]
    exact h.apart
  · funext a
    rw [place, place, hmap]

/-- The bytes of an aligned access are in one page. -/
theorem offset_add_le {addr : ℕ} {size : Size} (h : (addr : ℤ) % size.bytes = 0) :
    addr % pageSize + size.bytes ≤ pageSize := by
  rw [pageSize_eq]
  cases size
  all_goals simp only [Size.bytes] at *; omega

/-- An aligned access in range is translated. -/
theorem Linear.translate_ok (h : Linear pageTable) {addr : ℕ} {size : Size} {e : TranslationEntry}
    (haligned : (addr : ℤ) % size.bytes = 0) (hint : addr < 2 ^ 32)
    (he : pageTable[addr / pageSize]? = some e) (writing : Bool) :
    translate pageTable addr size writing = .ok (.ok (place pageTable addr),
      pageTable.set (addr / pageSize) { e with use := true, dirty := e.dirty || writing }) := by
  have hmem : e ∈ pageTable := List.mem_of_getElem? he
  have hframe := h.frame e hmem
  have hfits := offset_add_le haligned
  have hunsigned : toUnsigned e.physicalPage = e.physicalPage.toNat := by
    unfold toUnsigned
    rw [numPhysPages_eq] at hframe
    omega
  have hvpn : System.vpn addr = addr / pageSize := by rw [System.vpn, toUnsigned_natCast hint]
  have hoffset : System.offset addr = addr % pageSize := by
    rw [System.offset, toUnsigned_natCast hint]
  have hentry : System.useEntry e (addr % pageSize) size writing = .ok (.ok (place pageTable addr),
      { e with use := true, dirty := e.dirty || writing }) := by
    unfold System.useEntry
    dsimp only
    rw [h.writable e hmem, Bool.false_and, if_neg (by simp), hunsigned, place_eq he, if_neg, if_pos]
    · rw [pageSize_eq] at hfits ⊢
      rw [numPhysPages_eq] at hframe
      rw [memorySize_eq]
      omega
    · rw [numPhysPages_eq] at hframe ⊢
      omega
  unfold translate
  rw [if_neg (not_not.mpr haligned), hvpn, he]
  dsimp only
  rw [if_pos (h.valid e hmem), hoffset, hentry]
  rfl

end

/-! ## The simulation -/

/-- The memory has `n` pages and stands for the array. -/
structure Implements (n : ℕ) (m : Memory) (array : Bytes) : Prop where
  linear : Linear m.pageTable
  length : m.pageTable.length = n
  bytes : ∀ a < n * pageSize, m.mainMemory (place m.pageTable a) = array a

section

variable {n : ℕ} {m : Memory} {array : Bytes}

/-- No table of frames of their own is longer than the memory. -/
theorem Linear.length_le {pageTable : List TranslationEntry} (h : Linear pageTable) :
    pageTable.length ≤ numPhysPages := by
  have hsub : pageTable.map TranslationEntry.physicalPage ⊆
      (List.range numPhysPages).map Nat.cast := by
    intro frame hframe
    obtain ⟨e, he, rfl⟩ := List.mem_map.mp hframe
    obtain ⟨hnonneg, hlt⟩ := h.frame e he
    refine List.mem_map.mpr ⟨e.physicalPage.toNat, List.mem_range.mpr (by omega), ?_⟩
    exact Int.toNat_of_nonneg hnonneg
  have hle := (List.subperm_of_subset h.apart hsub).length_le
  rwa [List.length_map, List.length_map, List.length_range] at hle

/-- What is needed of an access in range. -/
theorem Implements.entry (h : Implements n m array) {addr : ℤ} {size : Size}
    (hnonneg : 0 ≤ addr) (hrange : addr + size.bytes ≤ n * pageSize) :
    ∃ a : ℕ, addr = a ∧ a + size.bytes ≤ n * pageSize ∧ a < 2 ^ 32 ∧
      ∃ e, m.pageTable[a / pageSize]? = some e := by
  obtain ⟨a, rfl⟩ := Int.eq_ofNat_of_zero_le hnonneg
  have hle := h.linear.length_le
  have hpos : 0 < size.bytes := by cases size <;> decide
  have hrange' : a + size.bytes ≤ n * pageSize := by exact_mod_cast hrange
  obtain ⟨e, he, -⟩ := exists_entry h.length (a := a) (by omega)
  refine ⟨a, rfl, hrange', ?_, e, he⟩
  rw [h.length, numPhysPages_eq] at hle
  rw [pageSize_eq] at hrange'
  omega

/-- The low bytes of a value are those it was read from. -/
theorem valueBytes_readValue (memory : Bytes) (pa : ℕ) (size : Size) {k : ℕ} (hk : k < size.bytes) :
    System.valueBytes (System.readValue memory pa size) k = memory (pa + k) := by
  have hlt : ∀ j, (memory (pa + j)).toNat < 256 := fun j => (memory (pa + j)).toNat_lt
  have h₀ := hlt 0
  have h₁ := hlt 1
  have h₂ := hlt 2
  have h₃ := hlt 3
  rw [System.valueBytes, ← UInt8.ofNat_toNat (x := memory (pa + k))]
  congr 1
  cases size with
  | byte =>
    obtain rfl : k = 0 := by simp only [Size.bytes] at hk; omega
    simp only [System.readValue, Nat.add_zero] at *
    omega
  | half =>
    obtain rfl | rfl : k = 0 ∨ k = 1 := by simp only [Size.bytes] at hk; omega
    all_goals simp only [System.readValue, Nat.add_zero] at *; omega
  | word =>
    obtain rfl | rfl | rfl | rfl : k = 0 ∨ k = 1 ∨ k = 2 ∨ k = 3 := by
      simp only [Size.bytes] at hk; omega
    all_goals simp only [System.readValue, toInt, Nat.add_zero] at *; omega

theorem Implements.read (h : Implements n m array) {addr : ℤ} {size : Size}
    (ha : (Access.read addr size).InRange n) :
    ∃ m', access m (.read addr size) = .ok ((flatAccess array (.read addr size)).1, m') ∧
      Implements n m' array := by
  obtain ⟨haligned, hnonneg, hrange⟩ := ha
  obtain ⟨a, rfl, hrange', hint, e, he⟩ := h.entry hnonneg hrange
  obtain ⟨hlinear, hplace⟩ := h.linear.set he true (e.dirty || false)
  have hfits := offset_add_le haligned
  refine ⟨⟨_, m.mainMemory⟩, ?_, hlinear, ?_, fun b hb => ?_⟩
  · rw [access, readMem, h.linear.translate_ok haligned hint he false]
    have hbytes : lowBytes size.bytes (System.readValue m.mainMemory (place m.pageTable a) size) =
        (List.range size.bytes).map fun k => array (a + k) := by
      refine List.map_congr_left fun k hk => ?_
      rw [List.mem_range] at hk
      rw [valueBytes_readValue _ _ _ hk, ← place_add (by omega) he, h.bytes _ (by omega)]
    show Except.ok (Reply.bytes (lowBytes _ _), _) = _
    rw [hbytes]
    rfl
  · rw [List.length_set]
    exact h.length
  · dsimp only
    rw [hplace]
    exact h.bytes b hb

theorem Implements.write (h : Implements n m array) {addr : ℤ} {size : Size} {value : ℤ}
    (ha : (Access.write addr size value).InRange n) :
    ∃ m', access m (.write addr size value) = .ok (.wrote, m') ∧
      Implements n m' (flatAccess array (.write addr size value)).2 := by
  obtain ⟨haligned, hnonneg, hrange⟩ := ha
  obtain ⟨a, rfl, hrange', hint, e, he⟩ := h.entry hnonneg hrange
  obtain ⟨hlinear, hplace⟩ := h.linear.set he true (e.dirty || true)
  have hfits := offset_add_le haligned
  refine ⟨⟨_, Bytes.blit m.mainMemory (place m.pageTable a) size.bytes (System.valueBytes value)⟩,
    ?_, hlinear, ?_, fun b hb => ?_⟩
  · rw [access, writeMem, h.linear.translate_ok haligned hint he true]
    rfl
  · rw [List.length_set]
    exact h.length
  · dsimp only [flatAccess]
    rw [hplace, Int.toNat_natCast]
    by_cases hin : a ≤ b ∧ b < a + size.bytes
    · obtain ⟨k, rfl⟩ := Nat.exists_eq_add_of_le hin.1
      rw [place_add (by omega) he, Bytes.blit_of_mem (by omega) (by omega),
        Bytes.blit_of_mem (by omega) (by omega), Nat.add_sub_cancel_left, Nat.add_sub_cancel_left]
    · -- a byte outside the range has a place outside the range
      obtain ⟨e', he', -⟩ := exists_entry h.length hb
      have hout : ¬ (place m.pageTable a ≤ place m.pageTable b ∧
          place m.pageTable b < place m.pageTable a + size.bytes) := by
        intro hplaces
        obtain ⟨k, hk⟩ := Nat.exists_eq_add_of_le hplaces.1
        have hsize : k < size.bytes := by omega
        obtain ⟨e'', he'', -⟩ := exists_entry h.length (a := a + k) (by omega)
        rw [← place_add (by omega) he] at hk
        have := h.linear.place_injective he' he'' hk
        omega
      rw [Bytes.blit_of_not_mem hout, Bytes.blit_of_not_mem hin, h.bytes b hb]

end

/-- Accesses through a page table whose pages have frames of their own are those of a flat
array of bytes. -/
theorem accesses_flat (m : Memory) (h : Linear m.pageTable) (as : List Access)
    (has : ∀ a ∈ as, a.InRange m.pageTable.length) :
    outputs access m as = .ok (answers flatAccess (flat m) as) := by
  have halong : Along (fun m a => Prod.snd <$> access m a)
      (fun _ a => Access.InRange m.pageTable.length a) m as := Along.of_forall has
  refine Along.simulation (R := Implements m.pageTable.length) (fun m a reply m' hok => ?_)
    (fun m array a himpl ha => ?_) ⟨h, rfl, fun _ _ => rfl⟩ halong
  · rw [hok]
    rfl
  · cases a with
    | read addr size => exact himpl.read ha
    | write addr size value => exact himpl.write ha

/-- A half word across the bytes of a word, in the second of two pages, whose frame is before that
of the first. -/
theorem accesses_flat_two : outputs access ⟨[⟨0, 5, true, false, false, false⟩,
      ⟨1, 3, true, false, false, false⟩], fun _ => 0⟩
    [.write 128 .word 0x01020304, .write 130 .half 0x0506, .read 128 .word] =
    .ok (answers flatAccess (flat ⟨[⟨0, 5, true, false, false, false⟩,
      ⟨1, 3, true, false, false, false⟩], fun _ => 0⟩)
    [.write 128 .word 0x01020304, .write 130 .half 0x0506, .read 128 .word]) :=
  accesses_flat _ ⟨by decide, by decide, by decide, by decide⟩ _ (by
    intro a ha
    simp only [List.mem_cons, List.not_mem_nil, or_false] at ha
    rcases ha with rfl | rfl | rfl
    all_goals exact ⟨by decide, by decide, by decide⟩)

end NoVM
end NachOS
