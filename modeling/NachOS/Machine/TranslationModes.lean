import NachOS.VM.Steps

/-!
# The two ways to translate

`Machine::Translate` (`translate.cc`) looks a page up in the linear page table or in the TLB, and
goes on in the same way with the entry. A TLB that holds copies of page-table entries gives the
answers of the page table, or a page fault. In the build with virtual memory the inverted page
table is told of the frame of the entry before the frame is checked.
-/

namespace NachOS

open PartialRun NachOS.System

/-- The tables of the machine that `Translate` reads and writes. -/
structure TranslationTables where
  /-- `tlb`, which may be `NULL`. -/
  tlb : Option (Fin tlbSize → TranslationEntry)
  /-- `pageTable`, which may be `NULL`. -/
  pageTable : Option (ℕ → TranslationEntry)
  pageTableSize : ℕ
  /-- `invertedPageTable`, in the build with virtual memory. -/
  invertedPageTable : Option InvertedPageTable

namespace TranslationTables

/-- `invertedPageTable->updatePage(physicalPage, false)` of the build with virtual memory. -/
def updatePage (table : Option InvertedPageTable) (physicalPage : ℤ) :
    Except Fault (Option InvertedPageTable) :=
  match table with
  | none => .ok none
  | some table => do
    let table ← table.updatePage physicalPage false
    return some table

/-- `Machine::Translate`: the physical address or the exception, and the tables after. -/
def translate (t : TranslationTables) (virtAddr : ℤ) (size : Size) (writing : Bool) :
    Except Fault (Except MemException ℕ × TranslationTables) :=
  if virtAddr % size.bytes ≠ 0 then .ok (.error .addressError, t)
  else match t.tlb, t.pageTable with
    | none, none | some _, some _ => .error .assertion
    | none, some pageTable =>
      if t.pageTableSize ≤ vpn virtAddr then .ok (.error .addressError, t)
      else if !(pageTable (vpn virtAddr)).valid then .ok (.error .pageFault, t)
      else do
        let (result, entry) ← useEntry (pageTable (vpn virtAddr)) (offset virtAddr) size writing
        return (result, { t with pageTable := some (Function.update pageTable (vpn virtAddr) entry) })
    | some tlb, none =>
      match lookup tlb (vpn virtAddr) with
      | none => .ok (.error .pageFault, t)
      | some i => do
        -- the use is counted before the frame is checked
        let invertedPageTable ← updatePage t.invertedPageTable (tlb i).physicalPage
        let (result, entry) ← useEntry (tlb i) (offset virtAddr) size writing
        return (result, { t with invertedPageTable, tlb := some (Function.update tlb i entry) })

/-- The tables of the build with virtual memory. -/
def ofSystem (s : System) : TranslationTables where
  tlb := some s.tlb
  pageTable := none
  pageTableSize := 0
  invertedPageTable := some s.invertedPageTable

/-- There the machine has only a TLB. -/
theorem translate_ofSystem (s : System) (virtAddr : ℤ) (size : Size) (writing : Bool) :
    (ofSystem s).translate virtAddr size writing =
      (s.translate virtAddr size writing).map fun x => (x.1, ofSystem x.2) := by
  unfold translate System.translate
  by_cases haligned : virtAddr % size.bytes ≠ 0
  · rw [if_pos haligned, if_pos haligned]
    rfl
  · rw [if_neg haligned, if_neg haligned]
    simp only [ofSystem]
    cases lookup s.tlb (vpn virtAddr) with
    | none => rfl
    | some i =>
      simp only [updatePage]
      cases s.invertedPageTable.updatePage (s.tlb i).physicalPage false with
      | error fault => rfl
      | ok table =>
        cases useEntry (s.tlb i) (offset virtAddr) size writing with
        | error fault => rfl
        | ok x => rfl

/-! ## The entry -/

/-- An aligned access does not cross the end of its page. -/
theorem offset_add_le {virtAddr : ℤ} {size : Size} (h : virtAddr % size.bytes = 0) :
    offset virtAddr + size.bytes ≤ pageSize := by
  rw [offset, toUnsigned, pageSize_eq]
  cases size <;> simp only [Size.bytes] at h ⊢ <;> omega

/-- The physical address is inside a frame of the machine. -/
def Contained (size : Size) (result : Except MemException ℕ) : Prop :=
  ∀ physAddr, result = .ok physAddr → ∃ frame < numPhysPages, frame * pageSize ≤ physAddr ∧
    physAddr + size.bytes ≤ (frame + 1) * pageSize ∧ physAddr + size.bytes ≤ memorySize

/-- The answer from an entry, which depends on its frame and its protection only. -/
def answer (entry : TranslationEntry) (off : ℕ) (writing : Bool) : Except MemException ℕ :=
  if entry.readOnly && writing then .error .readOnly
  else if numPhysPages ≤ toUnsigned entry.physicalPage then .error .busError
  else .ok (toUnsigned entry.physicalPage * pageSize + off)

/-- The entry after it: marked, unless there was an exception. -/
def marked (entry : TranslationEntry) (off : ℕ) (writing : Bool) : TranslationEntry :=
  match answer entry off writing with
  | .ok _ => { entry with use := true, dirty := entry.dirty || writing }
  | .error _ => entry

theorem marked_of_error {entry : TranslationEntry} {off : ℕ} {writing : Bool} {e : MemException}
    (h : answer entry off writing = .error e) : marked entry off writing = entry := by
  rw [marked, h]

theorem answer_congr {entry copy : TranslationEntry} (hframe : copy.physicalPage = entry.physicalPage)
    (hreadOnly : copy.readOnly = entry.readOnly) (off : ℕ) (writing : Bool) :
    answer copy off writing = answer entry off writing := by
  rw [answer, answer, hframe, hreadOnly]

/-- The assertion at the end holds for an aligned access. -/
theorem useEntry_eq {off : ℕ} {size : Size} (h : off + size.bytes ≤ pageSize)
    (entry : TranslationEntry) (writing : Bool) :
    useEntry entry off size writing = .ok (answer entry off writing, marked entry off writing) := by
  rw [useEntry, marked, answer]
  by_cases hreadOnly : (entry.readOnly && writing) = true
  · simp only [if_pos hreadOnly]
  by_cases hframe : numPhysPages ≤ toUnsigned entry.physicalPage
  · simp only [if_neg hreadOnly, ge_iff_le, if_pos hframe]
  · have hinside : toUnsigned entry.physicalPage * pageSize + off + size.bytes ≤ memorySize := by
      rw [pageSize_eq] at h ⊢
      rw [numPhysPages_eq] at hframe
      rw [memorySize_eq]
      omega
    simp only [if_neg hreadOnly, ge_iff_le, if_neg hframe, if_pos hinside]

theorem answer_contained {off : ℕ} {size : Size} (h : off + size.bytes ≤ pageSize)
    (entry : TranslationEntry) (writing : Bool) : Contained size (answer entry off writing) := by
  intro physAddr hok
  rw [answer] at hok
  split at hok
  · cases hok
  split at hok
  · cases hok
  · rename_i hframe
    cases hok
    rw [pageSize_eq] at h ⊢
    rw [numPhysPages_eq] at hframe ⊢
    rw [memorySize_eq]
    exact ⟨toUnsigned entry.physicalPage, by omega, by omega, by omega, by omega⟩

theorem contained_error (size : Size) (e : MemException) : Contained size (.error e) := by
  intro physAddr h
  cases h

/-! ## The two lookups -/

variable {pageTable : ℕ → TranslationEntry} {pageTableSize : ℕ}
  {tlb : Fin tlbSize → TranslationEntry}

/-- What the linear page table answers. -/
def linearAnswer (pageTable : ℕ → TranslationEntry) (pageTableSize : ℕ) (virtAddr : ℤ) (size : Size)
    (writing : Bool) : Except MemException ℕ :=
  if virtAddr % size.bytes ≠ 0 then .error .addressError
  else if pageTableSize ≤ vpn virtAddr then .error .addressError
  else if !(pageTable (vpn virtAddr)).valid then .error .pageFault
  else answer (pageTable (vpn virtAddr)) (offset virtAddr) writing

/-- An answer that is inside a frame, or an exception that leaves the entries as they were. -/
structure Safe (t : TranslationTables) (size : Size) (result : Except MemException ℕ)
    (t' : TranslationTables) : Prop where
  contained : Contained size result
  unmarked : ∀ e, result = .error e → t'.tlb = t.tlb ∧ t'.pageTable = t.pageTable

theorem safe_error (t : TranslationTables) (size : Size) (e : MemException) :
    Safe t size (.error e) t := ⟨contained_error size e, fun _ _ => ⟨rfl, rfl⟩⟩

theorem translate_linear (pageTable : ℕ → TranslationEntry) (pageTableSize : ℕ)
    (vm : Option InvertedPageTable) (virtAddr : ℤ) (size : Size) (writing : Bool) :
    ∃ t', translate ⟨none, some pageTable, pageTableSize, vm⟩ virtAddr size writing =
        .ok (linearAnswer pageTable pageTableSize virtAddr size writing, t') ∧
      Safe ⟨none, some pageTable, pageTableSize, vm⟩ size
        (linearAnswer pageTable pageTableSize virtAddr size writing) t' := by
  unfold translate linearAnswer
  by_cases haligned : virtAddr % size.bytes ≠ 0
  · rw [if_pos haligned, if_pos haligned]
    exact ⟨_, rfl, safe_error _ _ _⟩
  rw [if_neg haligned, if_neg haligned]
  dsimp only
  by_cases hsize : pageTableSize ≤ vpn virtAddr
  · rw [if_pos hsize, if_pos hsize]
    exact ⟨_, rfl, safe_error _ _ _⟩
  rw [if_neg hsize, if_neg hsize]
  by_cases hvalid : (!(pageTable (vpn virtAddr)).valid) = true
  · rw [if_pos hvalid, if_pos hvalid]
    exact ⟨_, rfl, safe_error _ _ _⟩
  have hoffset : offset virtAddr + size.bytes ≤ pageSize := offset_add_le (not_not.mp haligned)
  rw [if_neg hvalid, if_neg hvalid, useEntry_eq hoffset]
  refine ⟨_, rfl, answer_contained hoffset _ _, fun e he => ⟨rfl, ?_⟩⟩
  rw [marked_of_error he, Function.update_eq_self]

/-- The inverted page table can count a use of the frame. -/
def Countable (vm : Option InvertedPageTable) (physicalPage : ℤ) : Prop :=
  ∀ table, vm = some table → table.replacementAlgorithm = .leastUsed →
    0 ≤ physicalPage ∧ physicalPage < numPhysPagesIPT

theorem updatePage_ok_iff (vm : Option InvertedPageTable) (physicalPage : ℤ) :
    (∃ vm', updatePage vm physicalPage = .ok vm') ↔ Countable vm physicalPage := by
  cases vm with
  | none =>
    refine iff_of_true ⟨none, rfl⟩ ?_
    intro table h
    cases h
  | some table =>
    have hcountable : Countable (some table) physicalPage ↔
        (table.replacementAlgorithm = .leastUsed →
          0 ≤ physicalPage ∧ physicalPage < numPhysPagesIPT) := by
      simp [Countable]
    rw [hcountable]
    simp only [updatePage, InvertedPageTable.updatePage]
    cases table.replacementAlgorithm with
    | fifo => simp
    | secondChance => simp
    | leastUsed =>
      constructor
      · rintro ⟨vm', h⟩ -
        obtain ⟨table', htable, -⟩ := bind_ok_iff.mp h
        obtain ⟨old, hget, -⟩ := bind_ok_iff.mp htable
        exact (vectorGet_ok_iff.mp hget).1
      · intro h
        have hget := vectorGet_ok_iff (v := table.uses).mpr ⟨h rfl, rfl⟩
        have hset := vectorSet_ok_iff (v := table.uses)
          (x := toInt (table.uses physicalPage.toNat + 1)).mpr ⟨h rfl, rfl⟩
        rw [hget, ok_bind, if_neg (by decide), hset]
        exact ⟨_, rfl⟩

/-- The valid entries of the TLB are copies of valid page-table entries, apart from the use and
dirty bits. -/
def Copies (tlb : Fin tlbSize → TranslationEntry) (pageTable : ℕ → TranslationEntry)
    (pageTableSize : ℕ) : Prop :=
  ∀ i, (tlb i).valid = true → ∃ page < pageTableSize, (tlb i).virtualPage = page ∧
    (pageTable page).valid = true ∧ (tlb i).physicalPage = (pageTable page).physicalPage ∧
    (tlb i).readOnly = (pageTable page).readOnly

/-- With copies a hit has the answer of the page table. -/
theorem Copies.answer_eq (hcopies : Copies tlb pageTable pageTableSize) {virtAddr : ℤ} {size : Size}
    (haligned : virtAddr % size.bytes = 0) {i : Fin tlbSize}
    (hlookup : lookup tlb (vpn virtAddr) = some i) (writing : Bool) :
    answer (tlb i) (offset virtAddr) writing =
      linearAnswer pageTable pageTableSize virtAddr size writing := by
  obtain ⟨hvalid, hpage⟩ := lookup_some hlookup
  obtain ⟨page, hlt, hpage', hvalid', hframe, hreadOnly⟩ := hcopies i hvalid
  have heq : page = vpn virtAddr := by
    rw [hpage] at hpage'
    exact (Int.ofNat_inj.mp hpage').symm
  subst heq
  have hinvalid : ¬ (!(pageTable (vpn virtAddr)).valid) = true := by
    rw [hvalid']
    decide
  rw [linearAnswer, if_neg (not_not.mpr haligned), if_neg (by omega), if_neg hinvalid,
    answer_congr hframe hreadOnly]

/-- The answers of a machine with the page table and of one with the TLB: both safe, and the TLB
gives a page fault or what the page table gives. -/
def Agree (linear cached : TranslationTables) (virtAddr : ℤ) (size : Size) (writing : Bool) :
    Prop :=
  ∃ result linear', linear.translate virtAddr size writing = .ok (result, linear') ∧
    Safe linear size result linear' ∧
    ∃ result' cached', cached.translate virtAddr size writing = .ok (result', cached') ∧
      Safe cached size result' cached' ∧ (result' = .error .pageFault ∨ result' = result)

/-- `Translate` is safe and gives the same answers in both modes exactly if the inverted page
table can count the use of the frame that the TLB has for the page. -/
theorem agree_iff (pageTable : ℕ → TranslationEntry) (pageTableSize : ℕ)
    (tlb : Fin tlbSize → TranslationEntry) (vm vm' : Option InvertedPageTable) (n : ℕ)
    (virtAddr : ℤ) (size : Size) (writing : Bool) (hcopies : Copies tlb pageTable pageTableSize) :
    Agree ⟨none, some pageTable, pageTableSize, vm'⟩ ⟨some tlb, none, n, vm⟩ virtAddr size writing ↔
      (virtAddr % size.bytes = 0 → ∀ i, lookup tlb (vpn virtAddr) = some i →
        Countable vm (tlb i).physicalPage) := by
  obtain ⟨linear', hlinear, hsafe⟩ :=
    translate_linear pageTable pageTableSize vm' virtAddr size writing
  have hagree : ∀ {result'} {cached' : TranslationTables},
      translate ⟨some tlb, none, n, vm⟩ virtAddr size writing = .ok (result', cached') →
      Safe ⟨some tlb, none, n, vm⟩ size result' cached' →
      (result' = .error .pageFault ∨
        result' = linearAnswer pageTable pageTableSize virtAddr size writing) →
      Agree ⟨none, some pageTable, pageTableSize, vm'⟩ ⟨some tlb, none, n, vm⟩ virtAddr size
        writing := fun hcached hsafe' hresult =>
    ⟨_, linear', hlinear, hsafe, _, _, hcached, hsafe', hresult⟩
  by_cases haligned : virtAddr % size.bytes = 0
  · have htranslate : translate ⟨some tlb, none, n, vm⟩ virtAddr size writing = _ :=
      if_neg (not_not.mpr haligned)
    cases hlookup : lookup tlb (vpn virtAddr) with
    | none =>
      -- not in the TLB: the page fault is the answer that agreement allows
      simp only [hlookup] at htranslate
      refine iff_of_true (hagree htranslate (safe_error _ _ _) (.inl rfl)) ?_
      intro _ i hi
      cases hi
    | some i =>
      -- found: what remains is that the count of its use can be kept
      simp only [hlookup] at htranslate
      have hiff : (virtAddr % size.bytes = 0 → ∀ j, some i = some j →
          Countable vm (tlb j).physicalPage) ↔ Countable vm (tlb i).physicalPage := by
        simp [haligned]
      rw [hiff, ← updatePage_ok_iff]
      constructor
      · rintro ⟨-, -, -, -, result', cached', hcached, -⟩
        rw [htranslate] at hcached
        obtain ⟨vm'', hupdate, -⟩ := bind_ok_iff.mp hcached
        exact ⟨vm'', hupdate⟩
      · rintro ⟨vm'', hupdate⟩
        have hoffset : offset virtAddr + size.bytes ≤ pageSize := offset_add_le haligned
        rw [hupdate, ok_bind, useEntry_eq hoffset] at htranslate
        refine hagree htranslate ⟨answer_contained hoffset _ _, fun e he => ⟨?_, rfl⟩⟩
          (.inr (hcopies.answer_eq haligned hlookup writing))
        rw [marked_of_error he, Function.update_eq_self]
  · have htranslate : translate ⟨some tlb, none, n, vm⟩ virtAddr size writing =
        .ok (.error .addressError, ⟨some tlb, none, n, vm⟩) := if_pos haligned
    have hlinear' : linearAnswer pageTable pageTableSize virtAddr size writing =
        .error .addressError := if_pos haligned
    exact iff_of_true (hagree htranslate (safe_error _ _ _) (.inr hlinear'.symm))
      fun h => absurd h haligned

/-! ## An example of each kind -/

/-- Page `0` in a frame. -/
def pageZero (physicalPage : ℤ) : TranslationEntry where
  virtualPage := 0
  physicalPage := physicalPage
  valid := true
  readOnly := false
  use := false
  dirty := false

theorem copies_pageZero (physicalPage : ℤ) :
    Copies (fun _ => pageZero physicalPage) (fun _ => pageZero physicalPage) 1 :=
  fun _ _ => ⟨0, by decide, rfl, rfl, rfl, rfl⟩

/-- Frame -1 without virtual memory: a bus error both ways. -/
theorem agree_busError : Agree ⟨none, some fun _ => pageZero (-1), 1, none⟩
    ⟨some fun _ => pageZero (-1), none, 0, none⟩ 4 .word true := by
  refine (agree_iff (fun _ => pageZero (-1)) 1 (fun _ => pageZero (-1)) none none 0 4 .word true
    (copies_pageZero (-1))).mpr ?_
  intro _ i _ table h
  cases h

/-- Frame -1 with virtual memory and least used. -/
theorem not_agree : ¬ ∀ (pageTable : ℕ → TranslationEntry) (pageTableSize : ℕ)
    (tlb : Fin tlbSize → TranslationEntry) (vm vm' : Option InvertedPageTable) (n : ℕ)
    (virtAddr : ℤ) (size : Size) (writing : Bool), Copies tlb pageTable pageTableSize →
    Agree ⟨none, some pageTable, pageTableSize, vm'⟩ ⟨some tlb, none, n, vm⟩ virtAddr size
      writing := by
  intro h
  obtain ⟨result, linear', -, -, result', cached', hcached, -⟩ :=
    h (fun _ => pageZero (-1)) 1 (fun _ => pageZero (-1))
      (some (InvertedPageTable.new .leastUsed)) none 0 4 .word true (copies_pageZero (-1))
  have hfault : translate ⟨some fun _ => pageZero (-1), none, 0,
      some (InvertedPageTable.new .leastUsed)⟩ 4 .word true = .error .vector := rfl
  rw [hfault] at hcached
  cases hcached

end TranslationTables
end NachOS
