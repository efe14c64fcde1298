import NachOS.NoVM.FlatMemory
import NachOS.NoVM.Frames
import NachOS.VM.Access

/-!
# Loading a program at once

`ExeNoVirtualMemoryConstructor` copies the pages of the address space, those of the stack too,
from one running offset in the file: page `p` from `code.inFileAddr + p * PageSize`. This file
says what is in memory afterwards, and when that is what the three segments of the header say.
-/

namespace NachOS

/-! ## Clear bits in order -/

namespace BitMap

/-- The clear bits, in the order in which `Find` takes them. -/
def clearList (b : BitMap) : List ℕ := (List.range b.numBits).filter fun i => !b.marked i

theorem nodup_clearList (b : BitMap) : b.clearList.Nodup := List.nodup_range.filter _

theorem length_clearList (b : BitMap) : b.clearList.length = b.numClear :=
  List.countP_eq_length_filter.symm

/-- `Find` takes the first of them. -/
theorem find_of_clearList {b : BitMap} {i : ℕ} {is : List ℕ} (h : b.clearList = i :: is) :
    b.find = (some i, b.markBit i) ∧ (b.markBit i).clearList = is := by
  have hfirst : b.firstClear = some i := by
    rw [firstClear, ← List.head?_filter]
    exact congrArg List.head? h
  have hnodup := b.nodup_clearList
  rw [h] at hnodup
  refine ⟨by rw [find, hfirst], ?_⟩
  have hfilter : (b.markBit i).clearList = b.clearList.filter fun j => j ≠ i := by
    rw [clearList, clearList, List.filter_filter]
    refine List.filter_congr fun j _ => ?_
    rw [markBit_marked]
    by_cases hj : j = i
    · simp [hj]
    · simp [hj]
  rw [hfilter, h, List.filter_cons_of_neg (by simp), List.filter_eq_self]
  intro j hj
  rw [decide_eq_true_eq]
  rintro rfl
  exact (List.nodup_cons.mp hnodup).1 hj

end BitMap

namespace NoVM

open PartialRun

theorem entriesFrom_cons (first frame : ℕ) (frames : List ℕ) :
    entriesFrom first (frame :: frames) = mapped first frame :: entriesFrom (first + 1) frames := by
  simp only [entriesFrom, List.mapIdx_cons, Nat.add_zero]
  congr 2
  funext k frame
  rw [Nat.add_assoc, Nat.add_comm 1 k]

/-- The frames of the pages are the first clear bits. -/
theorem allocatePages_clearList (first : ℕ) {n : ℕ} : ∀ (pageTable : List TranslationEntry)
    {m : BitMap}, n ≤ m.numClear → ∃ m', allocatePages first n pageTable m =
      .ok (some (pageTable ++ entriesFrom pageTable.length (m.clearList.take n)), m') := by
  induction n with
  | zero => exact fun pageTable {m} _ => ⟨m, by simp [allocatePages, entriesFrom]⟩
  | succ n ih =>
    intro pageTable m hn
    rw [← m.length_clearList] at hn
    cases hlist : m.clearList with
    | nil =>
      rw [hlist] at hn
      simp at hn
    | cons i is =>
      obtain ⟨hfind, hrest⟩ := BitMap.find_of_clearList hlist
      rw [hlist, List.length_cons] at hn
      obtain ⟨m', hpages⟩ := ih (pageTable ++ [mapped pageTable.length i])
        (m := m.markBit i) (by rw [← BitMap.length_clearList, hrest]; omega)
      refine ⟨m', ?_⟩
      rw [allocatePages, hfind]
      dsimp only
      rw [hpages, hrest, List.take_succ_cons, List.append_assoc, List.length_append,
        List.length_singleton]
      rw [entriesFrom_cons, List.singleton_append]

/-! ## The copying loop -/

section

variable {file : HostFile} {noffH : NoffHeader}

/-- How many bytes of a page the loop asks for. -/
def copySize (noffH : NoffHeader) (page : ℕ) : ℕ :=
  if page = noffH.numPages - 1 then toUnsigned noffH.imageSize % noffH.numPages else pageSize

/-- How many of them there are in the file. -/
def copyCount (file : HostFile) (noffH : NoffHeader) (page : ℕ) : ℕ :=
  min (copySize noffH page) (file.length - (noffH.code.inFileAddr.toNat + page * pageSize))

theorem copySize_le (hpages : noffH.numPages ≤ numPhysPages) (page : ℕ) (hpage : page < noffH.numPages) :
    copySize noffH page ≤ pageSize := by
  have hmod := Nat.mod_lt (toUnsigned noffH.imageSize) (show 0 < noffH.numPages by omega)
  rw [numPhysPages_eq] at hpages
  rw [copySize, pageSize_eq]
  split
  · omega
  · omega

/-- The offsets in the file do not overflow. -/
def Offsets (noffH : NoffHeader) : Prop :=
  ∀ page < noffH.numPages, noffH.code.inFileAddr + page * pageSize < 2 ^ 31

/-- A page is copied to its frame. -/
theorem loadPage_ok (file : HostFile) (hpages : noffH.numPages ≤ numPhysPages)
    (hnonneg : 0 ≤ noffH.code.inFileAddr) {page : ℕ} (hpage : page < noffH.numPages)
    (hoffset : noffH.code.inFileAddr + page * pageSize < 2 ^ 31) (entry : TranslationEntry)
    {frame : ℕ}
    (hframe : entry.physicalPage = frame) (hlt : frame < numPhysPages) (mem : Bytes) :
    loadPage file noffH noffH.numPages page entry mem =
      .ok (Bytes.blit mem (frame * pageSize) (copyCount file noffH page)
        (Bytes.window file.data (noffH.code.inFileAddr.toNat + page * pageSize))) := by
  have hsize := copySize_le hpages page hpage
  have hposition : toInt (noffH.code.inFileAddr + page * pageSize) =
      ((noffH.code.inFileAddr.toNat + page * pageSize : ℕ) : ℤ) := by
    rw [pageSize_eq] at *
    unfold toInt
    omega
  -- the last page gets what the image has beyond the full pages
  have hcount : (if page = noffH.numPages - 1 then
      toInt (toUnsigned noffH.imageSize % noffH.numPages : ℕ) else (pageSize : ℤ)) =
      (copySize noffH page : ℤ) := by
    rw [copySize] at hsize ⊢
    rw [pageSize_eq] at *
    split
    · rename_i hlast
      rw [if_pos hlast] at hsize
      unfold toInt
      omega
    · rfl
  -- the bytes that are read fit into the frame
  have hcopy : copyIn mem (pageSize * (frame : ℤ)) (copyCount file noffH page)
      (Bytes.window file.data (noffH.code.inFileAddr.toNat + page * pageSize)) =
      .ok (Bytes.blit mem (frame * pageSize) (copyCount file noffH page)
        (Bytes.window file.data (noffH.code.inFileAddr.toNat + page * pageSize))) := by
    refine copyIn_ok_iff.mpr ⟨.inr ?_, ?_⟩
    · have hle : copyCount file noffH page ≤ copySize noffH page := Nat.min_le_left _ _
      rw [numPhysPages_eq] at hlt
      rw [pageSize_eq] at hsize ⊢
      rw [memorySize_eq]
      omega
    · congr 1
      rw [pageSize_eq]
      omega
  unfold loadPage
  rw [hposition, hframe]
  dsimp only
  rw [hcount, HostFile.readAt, if_neg (by omega), ok_bind, Int.toNat_natCast, Int.toNat_natCast]
  exact hcopy

/-- Every page is copied to its frame, and the other frames are left alone. -/
theorem loadPages_ok (file : HostFile) (hpages : noffH.numPages ≤ numPhysPages)
    (hnonneg : 0 ≤ noffH.code.inFileAddr) (hoffsets : Offsets noffH) {frames : List ℕ} :
    ∀ (page : ℕ) (mem : Bytes), page + frames.length ≤ noffH.numPages → frames.Nodup → (∀ f ∈ frames, f < numPhysPages) →
    ∃ mem', loadPages file noffH noffH.numPages page (entriesFrom page frames) mem = .ok mem' ∧
      (∀ j f, frames[j]? = some f → ∀ o < pageSize, mem' (f * pageSize + o) =
        if o < copyCount file noffH (page + j) then
          file.data (noffH.code.inFileAddr.toNat + (page + j) * pageSize + o)
        else mem (f * pageSize + o)) ∧
      ∀ f ∉ frames, ∀ o < pageSize, mem' (f * pageSize + o) = mem (f * pageSize + o) := by
  -- the induction is on the frames still to be filled: the first page, then the others
  induction frames with
  | nil => exact fun page mem _ _ _ => ⟨mem, rfl, by simp, fun _ _ _ _ => rfl⟩
  | cons frame frames ih =>
    intro page mem hlength hnodup hlt
    obtain ⟨hnot, hnodup⟩ := List.nodup_cons.mp hnodup
    rw [List.length_cons] at hlength
    have hpage := loadPage_ok file hpages hnonneg (show page < noffH.numPages by omega)
      (hoffsets page (by omega)) (mapped page frame) rfl (hlt frame List.mem_cons_self) mem
    have hcount : copyCount file noffH page ≤ pageSize :=
      (Nat.min_le_left _ _).trans (copySize_le hpages page (by omega))
    obtain ⟨mem', hload, hpages', hothers⟩ := ih (page + 1) (Bytes.blit mem
      (frame * pageSize) (copyCount file noffH page)
      (Bytes.window file.data (noffH.code.inFileAddr.toNat + page * pageSize))) (by omega) hnodup
      fun f hf => hlt f (List.mem_cons_of_mem _ hf)
    -- what is in the other frames after the first page
    have hkept : ∀ f ≠ frame, ∀ o < pageSize, Bytes.blit mem (frame * pageSize)
        (copyCount file noffH page) (Bytes.window file.data
        (noffH.code.inFileAddr.toNat + page * pageSize)) (f * pageSize + o) =
        mem (f * pageSize + o) := by
      intro f hf o ho
      rw [pageSize_eq] at *
      exact Bytes.blit_of_not_mem (by omega)
    refine ⟨mem', ?_, fun j f hj o ho => ?_, fun f hf o ho => ?_⟩
    · rw [entriesFrom_cons, loadPages, hpage, ok_bind]
      exact hload
    · cases j with
      | zero =>
        obtain rfl : frame = f := Option.some.inj hj
        -- the later pages go to other frames, so they keep the first one
        rw [hothers frame hnot o ho, Nat.add_zero]
        by_cases hin : o < copyCount file noffH page
        · rw [if_pos hin, Bytes.blit_of_mem (by omega) (by omega), Bytes.window,
            Nat.add_sub_cancel_left]
        · rw [if_neg hin, Bytes.blit_of_not_mem (by omega)]
      | succ j =>
        have hj' : frames[j]? = some f := hj
        have hne : f ≠ frame := by
          rintro rfl
          exact hnot (List.mem_of_getElem? hj')
        rw [hpages' j f hj' o ho, hkept f hne o ho, Nat.add_assoc, Nat.add_comm 1 j]
    · rw [List.mem_cons, not_or] at hf
      rw [hothers f hf.2 o ho, hkept f hf.1 o ho]

/-- If an offset overflows, `Lseek` fails. -/
theorem loadPages_offsets (hpages : noffH.numPages ≤ numPhysPages)
    (hnonneg : 0 ≤ noffH.code.inFileAddr) (hint : noffH.code.inFileAddr < 2 ^ 31) {frames : List ℕ} :
    ∀ (page : ℕ) {mem mem' : Bytes}, page + frames.length ≤ noffH.numPages →
      loadPages file noffH noffH.numPages page (entriesFrom page frames) mem = .ok mem' →
      ∀ j < frames.length, noffH.code.inFileAddr + (page + j : ℕ) * pageSize < 2 ^ 31 := by
  induction frames with
  | nil =>
    intro page mem mem' _ _ j hj
    simp at hj
  | cons frame frames ih =>
    intro page mem mem' hlength hload j hj
    rw [List.length_cons] at hlength hj
    rw [entriesFrom_cons, loadPages] at hload
    obtain ⟨mem₁, hpage, hload⟩ := bind_ok_iff.mp hload
    cases j with
    | zero =>
      unfold loadPage at hpage
      obtain ⟨⟨count, bytes⟩, hread, -⟩ := bind_ok_iff.mp hpage
      unfold HostFile.readAt at hread
      split at hread
      · cases hread
      · rename_i hposition
        rw [Nat.add_zero]
        rw [numPhysPages_eq] at hpages
        rw [pageSize_eq] at *
        unfold toInt at hposition
        omega
    | succ j =>
      have := ih (page + 1) (by omega) hload j (by omega)
      rwa [Nat.add_assoc, Nat.add_comm 1 j] at this

end

/-! ## The segments -/

/-- The segments are apart and in the address space. -/
structure Fits (noffH : NoffHeader) : Prop where
  nonneg : ∀ seg ∈ [noffH.code, noffH.initData, noffH.uninitData],
    0 ≤ seg.virtualAddr ∧ 0 ≤ seg.inFileAddr ∧ 0 ≤ seg.size
  le : ∀ seg ∈ [noffH.code, noffH.initData, noffH.uninitData],
    seg.virtualAddr + seg.size ≤ noffH.numPages * pageSize
  apart : [noffH.code, noffH.initData, noffH.uninitData].Pairwise fun seg seg' =>
    seg.virtualAddr + seg.size ≤ seg'.virtualAddr ∨ seg'.virtualAddr + seg'.size ≤ seg.virtualAddr

/-- The byte that a program reads at an address. -/
def ByteAt (pageTable : List TranslationEntry) (mainMemory : Bytes) (addr : ℤ) (byte : UInt8) : Prop :=
  ∃ pa after, translate pageTable addr .byte false = .ok (.ok pa, after) ∧ mainMemory pa = byte

/-- Every segment is where the header says, and the last one is zero. -/
structure Placed (file : HostFile) (noffH : NoffHeader) (pageTable : List TranslationEntry)
    (mainMemory : Bytes) : Prop where
  code : ∀ k : ℕ, k < noffH.code.size → ByteAt pageTable mainMemory (noffH.code.virtualAddr + k)
    (file.data (noffH.code.inFileAddr + k).toNat)
  initData : ∀ k : ℕ, k < noffH.initData.size →
    ByteAt pageTable mainMemory (noffH.initData.virtualAddr + k)
      (file.data (noffH.initData.inFileAddr + k).toNat)
  uninitData : ∀ k : ℕ, k < noffH.uninitData.size →
    ByteAt pageTable mainMemory (noffH.uninitData.virtualAddr + k) 0

/-! ## When they are placed -/

/-- The loop copies a byte to this address: it is among those asked for, and in the file. -/
def Copied (file : HostFile) (noffH : NoffHeader) (addr : ℕ) : Prop :=
  addr % pageSize < copySize noffH (addr / pageSize) ∧
    noffH.code.inFileAddr.toNat + addr < file.length

/-- The file has the byte at the running offset, or, where nothing is copied, the frame had it. -/
def Provided (s : State) (file : HostFile) (noffH : NoffHeader) (addr : ℤ) (byte : UInt8) : Prop :=
  (Copied file noffH addr.toNat → file.data (noffH.code.inFileAddr + addr).toNat = byte) ∧
  (¬ Copied file noffH addr.toNat → ∀ frame,
    s.miMapa.clearList[addr.toNat / pageSize]? = some frame →
      s.mainMemory (frame * pageSize + addr.toNat % pageSize) = byte)

/-- The running offset suits all three segments. -/
structure Suitable (s : State) (file : HostFile) (noffH : NoffHeader) : Prop where
  offsets : Offsets noffH
  code : ∀ k : ℕ, k < noffH.code.size → Provided s file noffH (noffH.code.virtualAddr + k)
    (file.data (noffH.code.inFileAddr + k).toNat)
  initData : ∀ k : ℕ, k < noffH.initData.size →
    Provided s file noffH (noffH.initData.virtualAddr + k)
      (file.data (noffH.initData.inFileAddr + k).toNat)
  uninitData : ∀ k : ℕ, k < noffH.uninitData.size →
    Provided s file noffH (noffH.uninitData.virtualAddr + k) 0

section

variable {file : HostFile} {noffH : NoffHeader} {frames : List ℕ}

theorem getElem?_entriesFrom (first j : ℕ) :
    (entriesFrom first frames)[j]? = frames[j]?.map fun frame => mapped (first + j) frame := by
  rw [entriesFrom, List.getElem?_mapIdx]

theorem linear_entriesFrom (hnodup : frames.Nodup) (hlt : ∀ f ∈ frames, f < numPhysPages) :
    Linear (entriesFrom 0 frames) := by
  have hmem : ∀ e ∈ entriesFrom 0 frames, ∃ j, ∃ f ∈ frames, e = mapped j f := by
    intro e he
    obtain ⟨j, hj⟩ := List.getElem?_of_mem he
    rw [getElem?_entriesFrom, Option.map_eq_some_iff] at hj
    obtain ⟨f, hf, rfl⟩ := hj
    exact ⟨0 + j, f, List.mem_of_getElem? hf, rfl⟩
  refine ⟨fun e he => ?_, fun e he => ?_, fun e he => ?_, ?_⟩
  · obtain ⟨j, f, -, rfl⟩ := hmem e he
    rfl
  · obtain ⟨j, f, -, rfl⟩ := hmem e he
    rfl
  · obtain ⟨j, f, hf, rfl⟩ := hmem e he
    have := hlt f hf
    exact ⟨Int.natCast_nonneg f, Int.ofNat_lt.mpr this⟩
  · rw [map_entriesFrom]
    exact hnodup.map fun _ _ h => Int.ofNat.inj h

/-- The byte at an address is in the frame of its page. -/
theorem byteAt_iff (hnodup : frames.Nodup) (hlt : ∀ f ∈ frames, f < numPhysPages)
    {mem : Bytes} {v frame : ℕ} (hint : v < 2 ^ 32) (hframe : frames[v / pageSize]? = some frame)
    (byte : UInt8) :
    ByteAt (entriesFrom 0 frames) mem v byte ↔ mem (frame * pageSize + v % pageSize) = byte := by
  have he : (entriesFrom 0 frames)[v / pageSize]? = some (mapped (0 + v / pageSize) frame) := by
    rw [getElem?_entriesFrom, hframe, Option.map_some]
  have htranslate := (linear_entriesFrom hnodup hlt).translate_ok
    (show (v : ℤ) % Size.byte.bytes = 0 from Int.emod_one _) hint he false
  have hplace : place (entriesFrom 0 frames) v = frame * pageSize + v % pageSize := by
    rw [place_eq he, mapped, Int.toNat_natCast]
  constructor
  · rintro ⟨pa, after, htranslate', rfl⟩
    rw [htranslate] at htranslate'
    cases htranslate'
    rw [hplace]
  · intro hbyte
    exact ⟨_, _, htranslate, by rw [hplace]; exact hbyte⟩

/-- The memory after the loop has a byte exactly if it was provided. -/
theorem provided_iff (s : State) (hpages : noffH.numPages ≤ numPhysPages)
    (hnonneg : 0 ≤ noffH.code.inFileAddr) {frames : List ℕ}
    (hframes : frames = s.miMapa.clearList.take noffH.numPages) (hlength : frames.length = noffH.numPages)
    (hnodup : frames.Nodup) (hlt : ∀ f ∈ frames, f < numPhysPages) {mem : Bytes}
    (hmem : ∀ j f, frames[j]? = some f → ∀ o < pageSize, mem (f * pageSize + o) =
      if o < copyCount file noffH (0 + j) then
        file.data (noffH.code.inFileAddr.toNat + (0 + j) * pageSize + o)
      else s.mainMemory (f * pageSize + o))
    {addr : ℤ} (haddr : 0 ≤ addr) (hin : addr < noffH.numPages * pageSize) (byte : UInt8) :
    ByteAt (entriesFrom 0 frames) mem addr byte ↔ Provided s file noffH addr byte := by
  obtain ⟨v, rfl⟩ := Int.eq_ofNat_of_zero_le haddr
  have hpos : 0 < pageSize := by decide
  have hpage : v / pageSize < noffH.numPages := by
    rw [Nat.div_lt_iff_lt_mul hpos]
    exact_mod_cast hin
  obtain ⟨frame, hframe⟩ : ∃ frame, frames[v / pageSize]? = some frame :=
    ⟨_, List.getElem?_eq_getElem (by rw [hlength]; exact hpage)⟩
  have hclear : s.miMapa.clearList[v / pageSize]? = some frame := by
    rw [← hframe, hframes, List.getElem?_take_of_lt hpage]
  have hbyte := hmem (v / pageSize) frame hframe (v % pageSize) (Nat.mod_lt v hpos)
  have hposition : noffH.code.inFileAddr.toNat + (0 + v / pageSize) * pageSize + v % pageSize =
      noffH.code.inFileAddr.toNat + v := by
    rw [Nat.zero_add, Nat.add_assoc, Nat.div_add_mod' v pageSize]
  have hcopied : v % pageSize < copyCount file noffH (0 + v / pageSize) ↔ Copied file noffH v := by
    rw [copyCount, Copied, Nat.lt_min, Nat.lt_sub_iff_add_lt, Nat.add_comm (v % pageSize), hposition,
      Nat.zero_add]
  have hfile : (noffH.code.inFileAddr + (v : ℤ)).toNat = noffH.code.inFileAddr.toNat + v := by
    omega
  rw [byteAt_iff hnodup hlt (by rw [numPhysPages_eq] at hpages; rw [pageSize_eq] at *; omega) hframe,
    hbyte, Provided, hposition, Int.toNat_natCast, hclear, hfile]
  by_cases hc : Copied file noffH v
  · rw [if_pos (hcopied.mpr hc)]
    simp [hc]
  · rw [if_neg (mt hcopied.mp hc)]
    simp [hc]

/-- The page table of an executable for which there are frames has the first clear bits. -/
theorem exeSetup_table {m : BitMap} {n : ℕ} (hfree : n ≤ m.numClear) (hle : n ≤ numPhysPages) :
    ∃ m', BitMap.Taken m (m.clearList.take n) m' ∧ (m.clearList.take n).length = n ∧
      exeSetup m n = .ok (.table (entriesFrom 0 (m.clearList.take n)), m') := by
  have hint : toInt n = n := by
    rw [numPhysPages_eq] at hle
    unfold toInt
    omega
  obtain ⟨m', hpages⟩ := allocatePages_clearList 0 [] hfree
  have hsetup : exeSetup m n = .ok (.table (entriesFrom 0 (m.clearList.take n)), m') := by
    rw [exeSetup, hint, if_neg (by omega), if_pos hle, hpages]
    rfl
  rcases exeSetup_spec m n with ⟨hfew, -⟩ | ⟨-, hbig, -⟩ | ⟨-, -, frames, m₁, htaken, hlen, hok⟩
  · rw [hint] at hfew
    omega
  · omega
  · rw [hsetup] at hok
    simp only [Except.ok.injEq, Prod.mk.injEq, Setup.table.injEq] at hok
    have hframes : m.clearList.take n = frames := by
      have hmap := congrArg (List.map TranslationEntry.physicalPage) hok.1
      rw [map_entriesFrom, map_entriesFrom] at hmap
      exact List.map_injective_iff.mpr (fun _ _ h => Int.ofNat.inj h) hmap
    rw [hok.2, hframes] at hsetup
    rw [hframes]
    exact ⟨m₁, htaken, hlen, hsetup⟩

/-- The page table of an address space that finds frames enough. -/
theorem exeSetup_clearList (s : State) {n : ℕ} (hbits : numPhysPages ≤ s.miMapa.numBits)
    (hfree : n ≤ (s.miMapa.clearBits numPhysPages).card) :
    n ≤ numPhysPages ∧ (s.miMapa.clearList.take n).length = n ∧
      (∀ f ∈ s.miMapa.clearList.take n, f < numPhysPages) ∧
      ∃ m', exeSetup s.miMapa n = .ok (.table (entriesFrom 0 (s.miMapa.clearList.take n)), m') := by
  have hle : n ≤ numPhysPages := by
    have hcard := Finset.card_filter_le (Finset.range numPhysPages) fun i => s.miMapa.marked i = false
    rw [Finset.card_range] at hcard
    exact hfree.trans hcard
  have hclear : n ≤ s.miMapa.numClear := by
    rw [BitMap.numClear_eq]
    refine hfree.trans (Finset.card_le_card fun i hi => ?_)
    rw [BitMap.mem_clearBits] at hi ⊢
    exact ⟨by omega, hi.2⟩
  obtain ⟨m', htaken, hlen, hsetup⟩ := exeSetup_table hclear hle
  exact ⟨hle, hlen, (htaken.forall_lt_iff numPhysPages).mpr (by rw [hlen]; exact hfree), m',
    hsetup⟩

/-- After the constructor every segment is where the header says exactly if the one running
offset suits all of them. -/
theorem exe_placed_iff (s : State) (file : HostFile) {noffH : NoffHeader}
    (hread : file.noffHeader = .ok noffH) (hfits : Fits noffH)
    (hbits : numPhysPages ≤ s.miMapa.numBits)
    (hfree : noffH.numPages ≤ (s.miMapa.clearBits numPhysPages).card) :
    (∃ space s' pageTable, s.exeNoVirtualMemoryConstructor file = .ok (some space, s') ∧
      space.pageTable = some pageTable ∧ Placed file noffH pageTable s'.mainMemory) ↔
      Suitable s file noffH := by
  obtain ⟨hpages, hlength, hlt, m', hsetup⟩ := exeSetup_clearList s hbits hfree
  have hnodup : (s.miMapa.clearList.take noffH.numPages).Nodup :=
    (List.take_sublist _ _).nodup s.miMapa.nodup_clearList
  obtain ⟨hvirt, hnonneg, -⟩ := hfits.nonneg noffH.code (by simp)
  -- what is at the addresses of the segments, after the loop
  have hiff : ∀ {mem : Bytes}, (∀ j f, (s.miMapa.clearList.take noffH.numPages)[j]? = some f →
      ∀ o < pageSize, mem (f * pageSize + o) = if o < copyCount file noffH (0 + j) then
        file.data (noffH.code.inFileAddr.toNat + (0 + j) * pageSize + o)
      else s.mainMemory (f * pageSize + o)) →
      ∀ seg ∈ [noffH.code, noffH.initData, noffH.uninitData], ∀ k : ℕ, k < seg.size → ∀ byte,
        ByteAt (entriesFrom 0 (s.miMapa.clearList.take noffH.numPages)) mem (seg.virtualAddr + k)
          byte ↔ Provided s file noffH (seg.virtualAddr + k) byte := by
    intro mem hmem seg hseg k hk byte
    have hnonneg' := (hfits.nonneg seg hseg).1
    have hle := hfits.le seg hseg
    exact provided_iff s hpages hnonneg rfl hlength hnodup hlt hmem (by omega) (by omega) byte
  -- what the constructor returns, if the loop does
  have hconstructor : ∀ mem, loadPages file noffH noffH.numPages 0
      (entriesFrom 0 (s.miMapa.clearList.take noffH.numPages)) s.mainMemory = .ok mem →
      s.exeNoVirtualMemoryConstructor file = .ok
        (some ⟨some (entriesFrom 0 (s.miMapa.clearList.take noffH.numPages)), noffH.numPages,
          s.numTables, file⟩, { s.newTable with miMapa := m', mainMemory := mem }) := by
    intro mem hload
    rw [State.exeNoVirtualMemoryConstructor, hread, ok_bind, hsetup, ok_bind]
    dsimp only
    rw [hload]
    rfl
  constructor
  · rintro ⟨space, s', pageTable, hok, htable, hplaced⟩
    -- the constructor has returned, so its loop has
    have hloaded : ∃ mem, loadPages file noffH noffH.numPages 0
        (entriesFrom 0 (s.miMapa.clearList.take noffH.numPages)) s.mainMemory = .ok mem := by
      rw [State.exeNoVirtualMemoryConstructor, hread, ok_bind, hsetup, ok_bind] at hok
      obtain ⟨mem, hload, -⟩ := bind_ok_iff.mp hok
      exact ⟨mem, hload⟩
    obtain ⟨mem, hload⟩ := hloaded
    -- and every page was read at an offset that is not negative
    have hoffsets : Offsets noffH := by
      intro page hpage
      have := loadPages_offsets hpages hnonneg (HostFile.noffHeader_int hread).2 0 (by omega) hload page (by omega)
      rwa [Nat.zero_add] at this
    obtain ⟨mem₁, hload₁, hmem, -⟩ := loadPages_ok file hpages hnonneg hoffsets
      0 s.mainMemory (by omega) hnodup hlt
    rw [hload] at hload₁
    cases hload₁
    rw [hconstructor mem hload] at hok
    cases hok
    obtain rfl := Option.some.inj htable
    refine ⟨hoffsets, fun k hk => ?_, fun k hk => ?_, fun k hk => ?_⟩
    · exact (hiff hmem _ (by simp) k hk _).mp (hplaced.code k hk)
    · exact (hiff hmem _ (by simp) k hk _).mp (hplaced.initData k hk)
    · exact (hiff hmem _ (by simp) k hk _).mp (hplaced.uninitData k hk)
  · intro hsuitable
    obtain ⟨mem, hload, hmem, -⟩ := loadPages_ok file hpages hnonneg
      hsuitable.offsets 0 s.mainMemory (by omega) hnodup hlt
    refine ⟨_, _, _, hconstructor mem hload, rfl, fun k hk => ?_, fun k hk => ?_, fun k hk => ?_⟩
    · exact (hiff hmem _ (by simp) k hk _).mpr (hsuitable.code k hk)
    · exact (hiff hmem _ (by simp) k hk _).mpr (hsuitable.initData k hk)
    · exact (hiff hmem _ (by simp) k hk _).mpr (hsuitable.uninitData k hk)

/-- The offset suits a program that is linked at zero, with its data in the file where it is in
memory, if nothing is left of other programs in the frames of the uninitialised data. -/
theorem Suitable.of_layout {s : State} (hoffsets : Offsets noffH) (hfits : Fits noffH)
    (hcode : noffH.code.virtualAddr = 0)
    (hdata : noffH.initData.inFileAddr = noffH.code.inFileAddr + noffH.initData.virtualAddr)
    (hlast : ∀ seg ∈ [noffH.code, noffH.initData],
      seg.virtualAddr + seg.size ≤ (noffH.numPages - 1 : ℕ) * pageSize)
    (hfile : ∀ seg ∈ [noffH.code, noffH.initData], seg.inFileAddr + seg.size ≤ file.length)
    (hzero : ∀ k : ℕ, k < noffH.uninitData.size →
      Provided s file noffH (noffH.uninitData.virtualAddr + k) 0) : Suitable s file noffH := by
  have hinFile : ∀ seg ∈ [noffH.code, noffH.initData],
      seg.inFileAddr = noffH.code.inFileAddr + seg.virtualAddr → ∀ k : ℕ, k < seg.size →
      Provided s file noffH (seg.virtualAddr + k) (file.data (seg.inFileAddr + k).toNat) := by
    intro seg hseg hoffset k hk
    have hlast' := hlast seg hseg
    have hfile' := hfile seg hseg
    have hmem : seg ∈ [noffH.code, noffH.initData, noffH.uninitData] := by
      simp only [List.mem_cons, List.not_mem_nil, or_false] at hseg ⊢
      tauto
    obtain ⟨hvirt, hin, -⟩ := hfits.nonneg seg hmem
    have hcodeIn := (hfits.nonneg noffH.code (by simp)).2.1
    have hcopied : Copied file noffH (seg.virtualAddr + k).toNat := by
      have hpage : (seg.virtualAddr + k).toNat / pageSize < noffH.numPages - 1 := by
        rw [Nat.div_lt_iff_lt_mul (by decide)]
        rw [pageSize_eq] at *
        omega
      constructor
      · rw [copySize, if_neg (by omega)]
        exact Nat.mod_lt _ (by decide)
      · omega
    refine ⟨fun _ => ?_, fun hnot => absurd hcopied hnot⟩
    rw [hoffset, Int.add_assoc]
  exact ⟨hoffsets, hinFile _ (by simp) (by rw [hcode, Int.add_zero]), hinFile _ (by simp) hdata, hzero⟩

end

/-- Four bytes of code and four of uninitialised data. -/
def bssHeader : NoffHeader where
  noffMagic := 0xbadfad
  code := ⟨0, 40, 4⟩
  initData := ⟨4, 44, 0⟩
  uninitData := ⟨4, 44, 4⟩

theorem noffHeader_bss : (HostFile.program [1, 2, 3, 4] 4).noffHeader = .ok bssHeader := by
  decide +kernel

theorem fits_bssHeader : Fits bssHeader where
  nonneg := by decide
  le := by decide
  apart := by decide

/-- On a machine that was just started the program is loaded as it should be. -/
theorem exe_placed_initial : ∃ space s' pageTable,
    State.initial.exeNoVirtualMemoryConstructor (HostFile.program [1, 2, 3, 4] 4) =
      .ok (some space, s') ∧ space.pageTable = some pageTable ∧
    Placed (HostFile.program [1, 2, 3, 4] 4) bssHeader pageTable s'.mainMemory :=
  (exe_placed_iff State.initial (HostFile.program [1, 2, 3, 4] 4) noffHeader_bss fits_bssHeader
    (by decide) (by decide +kernel)).mpr (Suitable.of_layout (by unfold Offsets; decide) fits_bssHeader rfl rfl
    (by decide) (by decide) fun k hk => ⟨fun hcopied => absurd hcopied.2 (by
      have hlength : (HostFile.program [1, 2, 3, 4] 4).length = 44 := rfl
      rw [hlength]
      show ¬ 40 + (4 + (k : ℤ)).toNat < 44
      omega), fun _ _ _ => rfl⟩)

/-- Where another program has left its bytes, the uninitialised data has them. -/
theorem exe_not_placed : ¬ ∀ (s : State) (file : HostFile) (noffH : NoffHeader),
    file.noffHeader = .ok noffH → Fits noffH → numPhysPages ≤ s.miMapa.numBits →
    noffH.numPages ≤ (s.miMapa.clearBits numPhysPages).card →
    ∃ space s' pageTable, s.exeNoVirtualMemoryConstructor file = .ok (some space, s') ∧
      space.pageTable = some pageTable ∧ Placed file noffH pageTable s'.mainMemory := by
  intro h
  obtain ⟨space, s', pageTable, hok, htable, hplaced⟩ := h
    { State.initial with mainMemory := fun _ => 1 } (HostFile.program [1, 2, 3, 4] 4) bssHeader
    noffHeader_bss fits_bssHeader (by decide) (by decide +kernel)
  obtain ⟨pa, after, htranslate, hzero⟩ := hplaced.uninitData 0 (by decide)
  have hone : ∃ r, State.exeNoVirtualMemoryConstructor
      { State.initial with mainMemory := fun _ => 1 } (HostFile.program [1, 2, 3, 4] 4) = .ok r ∧
      ∀ space ∈ r.1, ∀ pageTable ∈ space.pageTable, ∃ x, translate pageTable 4 .byte false = .ok x ∧
        ∀ pa ∈ x.1.toOption, r.2.mainMemory pa = 1 := by
    decide +kernel
  obtain ⟨r, hr, hbytes⟩ := hone
  rw [hok, Except.ok.injEq] at hr
  subst hr
  obtain ⟨x, hx, hpa⟩ := hbytes space rfl pageTable htable
  change translate pageTable 4 .byte false = _ at htranslate
  rw [htranslate, Except.ok.injEq] at hx
  subst hx
  have hbyte := hpa pa rfl
  rw [hzero] at hbyte
  exact absurd hbyte (by decide)

end NoVM
end NachOS
