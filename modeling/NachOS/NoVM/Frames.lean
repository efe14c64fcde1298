import NachOS.NoVM.AddrSpace
import NachOS.Userprog.BitMapTheorems

/-!
# The frames of address spaces

What the constructors and the destructor do to `MiMapa`, and what each event does to the
address spaces. `Safe` is that the frames of every live address space are marked.
-/

namespace NachOS
namespace NoVM

open PartialRun BitMap

variable {m m' m₀ : BitMap}

/-! ## Clearing -/

/-- What a loop of calls of `Clear` leaves. -/
theorem clearFrames_ok {entries : List TranslationEntry} (h : clearFrames m entries = .ok m') :
    m'.numBits = m.numBits ∧ ∀ i : ℕ, m'.marked i = true ↔
      m.marked i = true ∧ (i : ℤ) ∉ entries.map TranslationEntry.physicalPage := by
  induction entries generalizing m with
  | nil =>
    rw [clearFrames, Except.ok.injEq] at h
    subst h
    simp
  | cons entry entries ih =>
    rw [clearFrames] at h
    split at h
    · cases h
    · rename_i hnonneg
      obtain ⟨m₁, hclear, h⟩ := bind_ok_iff.mp h
      obtain ⟨-, rfl⟩ := clear_eq_ok hclear
      obtain ⟨hbits, hmarked⟩ := ih h
      refine ⟨hbits, fun i => ?_⟩
      have heq : (i : ℤ) = entry.physicalPage ↔ i = entry.physicalPage.toNat := by omega
      simp only [hmarked, Function.update_apply, List.map_cons, List.mem_cons, not_or, heq]
      by_cases hi : i = entry.physicalPage.toNat
      · simp [hi]
      · simp [hi]

theorem clearFrames_avoids (m : BitMap) (entries : List TranslationEntry) :
    Avoids .mainMemory (clearFrames m entries) := by
  induction entries generalizing m with
  | nil => exact .ok _ _
  | cons entry entries ih =>
    rw [clearFrames]
    split
    · exact .error (by decide)
    · refine Avoids.bind ?_ fun _ _ => ih _
      unfold BitMap.clear
      split
      · exact .ok _ _
      · exact .error (by decide)

/-- `Clear` is defined on the frames of `MiMapa`. -/
theorem clearFrames_total {entries : List TranslationEntry}
    (h : ∀ entry ∈ entries, 0 ≤ entry.physicalPage ∧ entry.physicalPage < m.numBits) :
    ∃ m', clearFrames m entries = .ok m' := by
  induction entries generalizing m with
  | nil => exact ⟨m, rfl⟩
  | cons entry entries ih =>
    obtain ⟨hnonneg, hlt⟩ := h entry List.mem_cons_self
    have hclear : m.clear entry.physicalPage.toNat = .ok
        { m with marked := Function.update m.marked entry.physicalPage.toNat false } := by
      rw [BitMap.clear, if_pos (by omega)]
    rw [clearFrames, if_neg (by omega), hclear, ok_bind]
    exact ih fun e he => h e (List.mem_cons_of_mem entry he)

/-! ## Taking frames -/

/-- The entries of frames, for the pages from `first` on. -/
def entriesFrom (first : ℕ) (frames : List ℕ) : List TranslationEntry :=
  frames.mapIdx fun k frame => mapped (first + k) frame

@[simp] theorem length_entriesFrom (first : ℕ) (frames : List ℕ) :
    (entriesFrom first frames).length = frames.length := by
  simp [entriesFrom]

theorem entriesFrom_concat (first : ℕ) (frames : List ℕ) (frame : ℕ) :
    entriesFrom first (frames ++ [frame]) =
      entriesFrom first frames ++ [mapped (first + frames.length) frame] := by
  simp [entriesFrom, List.mapIdx_append]

theorem mem_map_natCast {frames : List ℕ} {i : ℕ} :
    (i : ℤ) ∈ List.map (Nat.cast : ℕ → ℤ) frames ↔ i ∈ frames := by
  rw [List.mem_map]
  constructor
  · rintro ⟨j, hj, heq⟩
    exact Int.ofNat_inj.mp heq ▸ hj
  · exact fun hi => ⟨i, hi, rfl⟩

theorem map_entriesFrom (first : ℕ) (frames : List ℕ) :
    (entriesFrom first frames).map TranslationEntry.physicalPage =
      List.map (Nat.cast : ℕ → ℤ) frames := by
  induction frames using List.reverseRecOn with
  | nil => rfl
  | append_singleton frames frame ih =>
    rw [entriesFrom_concat, List.map_append, List.map_append, ih]
    rfl

/-- What the allocation loop has done when it has taken `taken` from `m₀`, and what it ends
with. -/
theorem allocatePages_spec (shared : List TranslationEntry) (n : ℕ) {taken : List ℕ}
    (h : Taken m₀ taken m) :
    (m.numClear < n ∧
      allocatePages shared.length n (shared ++ entriesFrom shared.length taken) m =
        .ok (none, m₀)) ∨
    (n ≤ m.numClear ∧ ∃ frames m', Taken m₀ frames m' ∧ frames.length = taken.length + n ∧
      allocatePages shared.length n (shared ++ entriesFrom shared.length taken) m =
        .ok (some (shared ++ entriesFrom shared.length frames), m')) := by
  -- the induction is on the pages left, with the frames taken so far
  induction n generalizing taken m with
  | zero => exact .inr ⟨Nat.zero_le _, taken, m, h, rfl, rfl⟩
  | succ n ih =>
    rw [allocatePages]
    cases hfind : m.find with
    | mk found m₁ =>
      cases found with
      | none =>
        have hzero := find_none_numClear hfind
        obtain ⟨-, rfl⟩ := find_eq_none hfind
        refine .inl ⟨by omega, ?_⟩
        simp only [List.drop_left]
        -- the frames that are given back are those that were taken
        have hin : ∀ entry ∈ entriesFrom shared.length taken,
            0 ≤ entry.physicalPage ∧ entry.physicalPage < m₁.numBits := by
          intro entry hentry
          have hmem := List.mem_map_of_mem (f := TranslationEntry.physicalPage) hentry
          rw [map_entriesFrom] at hmem
          obtain ⟨i, hi, hpage⟩ := List.mem_map.mp hmem
          have := h.lt i hi
          rw [h.numBits]
          omega
        obtain ⟨m₂, hclear⟩ := clearFrames_total hin
        obtain ⟨hbits, hmarked⟩ := clearFrames_ok hclear
        -- clearing exactly the bits taken gives back the map of the beginning
        have hback : m₂ = m₀ := by
          apply ext_marked (hbits.trans h.numBits)
          intro i
          rw [hmarked, h.marked, map_entriesFrom]
          rw [mem_map_natCast]
          constructor
          · rintro ⟨hi | hi, hnot⟩
            · exact hi
            · exact absurd hi hnot
          · intro hi
            refine ⟨.inl hi, fun hmem => ?_⟩
            rw [h.clear i hmem] at hi
            cases hi
        rw [hclear, hback, ok_bind]
        rfl
      | some frame =>
        have hnext := h.find hfind
        have hclear := h.numClear
        have hclear' := hnext.numClear
        have htable : shared ++ entriesFrom shared.length taken ++
            [mapped (shared ++ entriesFrom shared.length taken).length frame] =
              shared ++ entriesFrom shared.length (taken ++ [frame]) := by
          rw [entriesFrom_concat, List.append_assoc, List.length_append, length_entriesFrom]
        simp only [List.length_append, List.length_singleton] at hclear'
        simp only [htable]
        rcases ih hnext with ⟨hlt, hnone⟩ | ⟨hle, frames, m', htaken, hlength, hsome⟩
        · exact .inl ⟨by omega, hnone⟩
        · refine .inr ⟨by omega, frames, m', htaken, ?_, hsome⟩
          rw [hlength, List.length_append, List.length_singleton]
          omega

/-- The page table of an executable. The second test of `MiMapa` is never needed. -/
theorem exeSetup_spec (m : BitMap) (numPages : ℕ) :
    ((m.numClear : ℤ) < toInt numPages ∧ exeSetup m numPages = .ok (.returned, m)) ∨
    (¬ (m.numClear : ℤ) < toInt numPages ∧ numPhysPages < numPages ∧
      exeSetup m numPages = .error .assertion) ∨
    (¬ (m.numClear : ℤ) < toInt numPages ∧ numPages ≤ numPhysPages ∧
      ∃ frames m', Taken m frames m' ∧ frames.length = numPages ∧
        exeSetup m numPages = .ok (.table (entriesFrom 0 frames), m')) := by
  by_cases hfew : (m.numClear : ℤ) < toInt numPages
  · exact .inl ⟨hfew, by rw [exeSetup, if_pos hfew]⟩
  by_cases hbig : numPages ≤ numPhysPages
  · refine .inr (.inr ⟨hfew, hbig, ?_⟩)
    have hphys : numPhysPages = 32 := rfl
    have hint : toInt numPages = numPages := by
      unfold toInt
      omega
    rcases allocatePages_spec [] numPages (Taken.nil m) with
      ⟨hlt, -⟩ | ⟨-, frames, m', htaken, hlength, hsome⟩
    · omega
    · refine ⟨frames, m', htaken, by simpa using hlength, ?_⟩
      have hsome' : allocatePages 0 numPages [] m = .ok (some (entriesFrom 0 frames), m') := hsome
      rw [exeSetup, if_neg hfew, if_pos hbig, hsome', ok_bind]
      rfl
  · exact .inr (.inl ⟨hfew, by omega, by rw [exeSetup, if_neg hfew, if_neg hbig]⟩)

/-- The pages a forked address space shares. -/
theorem sharedPages_ok {other : AddrSpace} {shared : List TranslationEntry}
    (hsize : ∀ pageTable, other.pageTable = some pageTable → pageTable.length = other.numPages)
    (h : sharedPages other = .ok shared) :
    sharedMemory other.numPages ≤ other.numPages ∧
    shared.length = sharedMemory other.numPages ∧
    shared.map TranslationEntry.physicalPage =
      other.frames.take (sharedMemory other.numPages) := by
  unfold sharedPages at h
  split at h
  · rename_i hzero
    rw [Except.ok.injEq] at h
    subst h
    simp [hzero]
  · split at h
    · cases h
    · rename_i pageTable htable
      split at h
      · cases h
      · rw [Except.ok.injEq] at h
        subst h
        refine ⟨by omega, ?_, ?_⟩
        · rw [List.length_mapIdx, List.length_take, hsize pageTable htable]
          omega
        · rw [AddrSpace.frames, htable, Option.getD_some, ← List.map_take]
          apply List.ext_getElem?
          intro i
          simp only [List.getElem?_map, List.getElem?_mapIdx, Option.map_map]
          rfl

/-- A stack has pages. -/
theorem sharedMemory_lt {numPages : ℕ} (h : sharedMemory numPages ≤ numPages) :
    sharedMemory numPages < numPages := by
  have hstack : divRoundUp userStackSize pageSize = 8 := by decide
  unfold sharedMemory toUnsigned at h ⊢
  rw [hstack] at h ⊢
  omega

/-- The page table of a forked address space. -/
theorem forkSetup_spec {other : AddrSpace} {shared : List TranslationEntry}
    (hsize : ∀ pageTable, other.pageTable = some pageTable → pageTable.length = other.numPages)
    (hshared : sharedPages other = .ok shared) (m : BitMap) :
    (m.numClear < other.numPages - sharedMemory other.numPages ∧
      forkSetup m other = .ok (none, m)) ∨
    (other.numPages - sharedMemory other.numPages ≤ m.numClear ∧
      ∃ frames m', Taken m frames m' ∧
        frames.length = other.numPages - sharedMemory other.numPages ∧
        forkSetup m other = .ok (some (shared ++ entriesFrom shared.length frames), m')) := by
  obtain ⟨-, hlength, -⟩ := sharedPages_ok hsize hshared
  have hspec := allocatePages_spec shared
    (other.numPages - sharedMemory other.numPages) (Taken.nil m)
  rw [show entriesFrom shared.length [] = [] from rfl, List.append_nil, hlength] at hspec
  rw [forkSetup, hshared, ok_bind, hlength]
  rcases hspec with ⟨hfew, hnone⟩ | ⟨hmany, frames, m', htaken, hframes, hsome⟩
  · exact .inl ⟨hfew, hnone⟩
  · exact .inr ⟨hmany, frames, m', htaken, by simpa using hframes, hsome⟩

namespace State

variable {s s' : State}

/-! ## The events -/

/-- A constructor for an executable always returns. -/
theorem exeNoVirtualMemoryConstructor_ok {executable : HostFile} {result : Option AddrSpace}
    (h : s.exeNoVirtualMemoryConstructor executable = .ok (result, s')) :
    ∃ noffH pageTable m' mainMemory, executable.noffHeader = .ok noffH ∧
      (pageTable = none ∧ m' = s.miMapa ∨
        ∃ frames, Taken s.miMapa frames m' ∧ frames.length = noffH.numPages ∧
          exeSetup s.miMapa noffH.numPages = .ok (.table (entriesFrom 0 frames), m') ∧
          pageTable = some (entriesFrom 0 frames)) ∧
      result = some ⟨pageTable, noffH.numPages, s.numTables, executable⟩ ∧
      s' = { s.newTable with miMapa := m', mainMemory := mainMemory } := by
  rw [exeNoVirtualMemoryConstructor] at h
  obtain ⟨noffH, hheader, h⟩ := bind_ok_iff.mp h
  rcases exeSetup_spec s.miMapa noffH.numPages with
    ⟨-, hsetup⟩ | ⟨-, -, hsetup⟩ | ⟨-, -, frames, m', htaken, hlength, hsetup⟩
  · rw [hsetup, ok_bind, pure_ok_iff, Prod.mk.injEq] at h
    exact ⟨noffH, none, s.miMapa, s.mainMemory, hheader, .inl ⟨rfl, rfl⟩, h.1.symm, h.2.symm⟩
  · rw [hsetup] at h
    cases h
  · rw [hsetup, ok_bind] at h
    obtain ⟨mainMemory, -, h⟩ := bind_ok_iff.mp h
    rw [pure_ok_iff, Prod.mk.injEq] at h
    exact ⟨noffH, some (entriesFrom 0 frames), m', mainMemory, hheader,
      .inr ⟨frames, htaken, hlength, hsetup, rfl⟩, h.1.symm, h.2.symm⟩

/-- A fork that cannot get its frames changes nothing. -/
theorem noVirtualMemoryConstructor_ok {other : AddrSpace} {result : Option AddrSpace}
    (hsize : ∀ pageTable, other.pageTable = some pageTable → pageTable.length = other.numPages)
    (h : s.noVirtualMemoryConstructor other = .ok (result, s')) :
    ∃ shared, sharedPages other = .ok shared ∧
      (s.miMapa.numClear < other.numPages - sharedMemory other.numPages ∧
        result = none ∧ s' = s ∨
       other.numPages - sharedMemory other.numPages ≤ s.miMapa.numClear ∧
        ∃ frames m', Taken s.miMapa frames m' ∧
          frames.length = other.numPages - sharedMemory other.numPages ∧
          forkSetup s.miMapa other =
            .ok (some (shared ++ entriesFrom shared.length frames), m') ∧
          result = some { other with
            pageTable := some (shared ++ entriesFrom shared.length frames) } ∧
          s' = { s with miMapa := m' }) := by
  rw [noVirtualMemoryConstructor] at h
  obtain ⟨⟨setup, m'⟩, hsetup, h⟩ := bind_ok_iff.mp h
  obtain ⟨shared, hshared, -⟩ := bind_ok_iff.mp hsetup
  refine ⟨shared, hshared, ?_⟩
  rcases forkSetup_spec hsize hshared s.miMapa with
    ⟨hfew, hnone⟩ | ⟨hmany, frames, m'', htaken, hframes, hsome⟩
  · rw [hsetup, Except.ok.injEq, Prod.mk.injEq] at hnone
    obtain ⟨rfl, rfl⟩ := hnone
    rw [pure_ok_iff, Prod.mk.injEq] at h
    exact .inl ⟨hfew, h.1.symm, h.2.symm⟩
  · rw [hsetup, Except.ok.injEq, Prod.mk.injEq] at hsome
    obtain ⟨rfl, rfl⟩ := hsome
    rw [pure_ok_iff, Prod.mk.injEq] at h
    exact .inr ⟨hmany, frames, m', htaken, hframes, hsetup, h.1.symm, h.2.symm⟩

theorem step_exec_ok {executable : HostFile} (h : s.step (.exec executable) = .ok s') :
    ∃ noffH pageTable m' mainMemory, executable.noffHeader = .ok noffH ∧
      (pageTable = none ∧ m' = s.miMapa ∨
        ∃ frames, Taken s.miMapa frames m' ∧ frames.length = noffH.numPages ∧
          exeSetup s.miMapa noffH.numPages = .ok (.table (entriesFrom 0 frames), m') ∧
          pageTable = some (entriesFrom 0 frames)) ∧
      s' = { s.newTable with miMapa := m', mainMemory := mainMemory }.allocate
        ⟨pageTable, noffH.numPages, s.numTables, executable⟩ := by
  rw [step] at h
  obtain ⟨⟨result, s₁⟩, hnew, h⟩ := bind_ok_iff.mp h
  obtain ⟨noffH, pageTable, m', mainMemory, hheader, hsetup, rfl, rfl⟩ :=
    exeNoVirtualMemoryConstructor_ok hnew
  rw [pure_ok_iff] at h
  exact ⟨noffH, pageTable, m', mainMemory, hheader, hsetup, h.symm⟩

theorem step_fork_live {other : ℕ} (h : s.step (.fork other) = .ok s') : other ∈ s.live := by
  by_contra hdead
  rw [step, if_neg hdead] at h
  cases h

theorem step_fork_ok {other : ℕ} (h : s.step (.fork other) = .ok s')
    (hsize : ∀ pageTable, (s.spaces other).pageTable = some pageTable →
      pageTable.length = (s.spaces other).numPages) :
    ∃ shared, sharedPages (s.spaces other) = .ok shared ∧
      (s' = s ∨
        ∃ frames m', Taken s.miMapa frames m' ∧
          frames.length = (s.spaces other).numPages - sharedMemory (s.spaces other).numPages ∧
          forkSetup s.miMapa (s.spaces other) =
            .ok (some (shared ++ entriesFrom shared.length frames), m') ∧
          s' = { { s with miMapa := m' }.allocate { s.spaces other with
              pageTable := some (shared ++ entriesFrom shared.length frames) } with
            unstarted := insert s.numSpaces s.unstarted }) := by
  have hlive := step_fork_live h
  rw [step, if_pos hlive] at h
  obtain ⟨⟨result, s₁⟩, hnew, h⟩ := bind_ok_iff.mp h
  obtain ⟨shared, hshared, hcase⟩ := noVirtualMemoryConstructor_ok hsize hnew
  refine ⟨shared, hshared, ?_⟩
  rcases hcase with ⟨-, rfl, rfl⟩ | ⟨-, frames, m', htaken, hframes, hsetup, rfl, rfl⟩
  · rw [pure_ok_iff] at h
    exact .inl h.symm
  · rw [pure_ok_iff] at h
    exact .inr ⟨frames, m', htaken, hframes, hsetup, h.symm⟩

theorem step_forkAux_ok {b : ℕ} (h : s.step (.forkAux b) = .ok s') :
    b ∈ s.unstarted ∧ b ∈ s.live ∧ ∃ table,
      s.tables (s.spaces b).openFilesTable = some table ∧
      s' = { s with
        tables := Function.update s.tables (s.spaces b).openFilesTable (some table.addThread)
        unstarted := s.unstarted.erase b } := by
  rw [step] at h
  split at h
  · rename_i hunstarted
    split at h
    · rename_i hlive
      split at h
      · cases h
      · rename_i table htable
        rw [Except.ok.injEq] at h
        exact ⟨hunstarted, hlive, table, htable, h.symm⟩
    · cases h
  · cases h

theorem step_destroy_ok {b : ℕ} (h : s.step (.destroy b) = .ok s') :
    b ∈ s.live ∧ ∃ pageTable table m', (s.spaces b).pageTable = some pageTable ∧
      s.tables (s.spaces b).openFilesTable = some table ∧
      clearFrames s.miMapa pageTable = .ok m' ∧
      s' = { s with
        miMapa := m'
        tables := Function.update s.tables (s.spaces b).openFilesTable
          (if table.usage - 1 = 0 then none else some table.delThread.2)
        live := s.live.erase b } := by
  rw [step] at h
  split at h
  · rename_i hlive
    refine ⟨hlive, ?_⟩
    obtain ⟨s₁, hnew, h⟩ := bind_ok_iff.mp h
    rw [destructor] at hnew
    split at hnew
    · cases hnew
    · rename_i pageTable htable
      obtain ⟨m', hclear, hnew⟩ := bind_ok_iff.mp hnew
      split at hnew
      · cases hnew
      · rename_i table hopen
        rw [pure_ok_iff] at hnew h
        refine ⟨pageTable, table, m', htable, hopen, hclear, ?_⟩
        rw [← h, ← hnew]
        rfl
  · cases h

end State

end NoVM
end NachOS
