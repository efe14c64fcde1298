import NachOS.NoVM.FrameSharing

/-!
# Frames that the machine has

`MiMapa` has more bits than the machine has frames, so the constructors hand out numbers past
the end of `mainMemory` once the real frames are taken. They stay within it exactly as long as
every request fits in the frames that are left.
-/

namespace NachOS
namespace NoVM

open PartialRun BitMap

/-- The frames of an entry that the machine has. -/
def OnMachine (entry : TranslationEntry) : Prop :=
  0 ≤ entry.physicalPage ∧ entry.physicalPage < numPhysPages

/-- A copy of at most a page into a frame of the machine stays in `mainMemory`. -/
theorem loadPage_avoids {executable : HostFile} {noffH : NoffHeader} {sizeToCopy page : ℕ}
    {entry : TranslationEntry} {mainMemory : Bytes} (hentry : OnMachine entry)
    (hpos : 0 < sizeToCopy) (hsize : sizeToCopy ≤ numPhysPages) :
    Avoids .mainMemory (loadPage executable noffH sizeToCopy page entry mainMemory) := by
  have hphys : numPhysPages = 32 := rfl
  have hpage : pageSize = 128 := rfl
  have hmemory : memorySize = 4096 := rfl
  obtain ⟨hnonneg, hlt⟩ := hentry
  -- the size of the last page is less than the number of pages
  have hmod := Nat.mod_lt (toUnsigned noffH.imageSize) hpos
  have hcopy : (if page = sizeToCopy - 1 then toInt (toUnsigned noffH.imageSize % sizeToCopy : ℕ)
      else pageSize).toNat ≤ pageSize := by
    split
    · unfold toInt
      omega
    · omega
  unfold loadPage
  apply Avoids.bind
  · unfold HostFile.readAt
    split
    · exact .error (by decide)
    · exact .ok _ _
  · rintro ⟨count, bytes⟩ hread
    have hcount : count ≤ pageSize := by
      unfold HostFile.readAt at hread
      split at hread
      · cases hread
      · simp only [Except.ok.injEq, Prod.mk.injEq] at hread
        omega
    have hdest : (pageSize : ℤ) * entry.physicalPage = 128 * entry.physicalPage := rfl
    simp only [copyIn, hdest]
    split
    · exact .ok _ _
    · rw [if_pos (by omega)]
      exact .ok _ _

theorem loadPages_avoids {executable : HostFile} {noffH : NoffHeader} {sizeToCopy : ℕ}
    {entries : List TranslationEntry} (hpos : entries ≠ [] → 0 < sizeToCopy)
    (hsize : sizeToCopy ≤ numPhysPages) (hentries : ∀ entry ∈ entries, OnMachine entry)
    (page : ℕ) (mainMemory : Bytes) :
    Avoids .mainMemory (loadPages executable noffH sizeToCopy page entries mainMemory) := by
  induction entries generalizing page mainMemory with
  | nil => exact .ok _ _
  | cons entry entries ih =>
    rw [loadPages]
    have hpos := hpos (List.cons_ne_nil entry entries)
    refine (loadPage_avoids (hentries entry List.mem_cons_self) hpos hsize).bind fun _ _ => ?_
    exact ih (fun _ => hpos) (fun e he => hentries e (List.mem_cons_of_mem entry he)) _ _

/-- `Translate` gives no bus error for a frame of the machine. -/
theorem translate_ne_busError {pageTable : List TranslationEntry}
    (hentries : ∀ entry ∈ pageTable, OnMachine entry) (virtAddr : ℤ) (size : Size)
    (writing : Bool) (after : List TranslationEntry) :
    translate pageTable virtAddr size writing ≠ .ok (.error .busError, after) := by
  intro h
  unfold translate at h
  split at h
  · cases h
  · split at h
    · cases h
    · rename_i entry hentry
      obtain ⟨hnonneg, hlt⟩ := hentries entry (List.mem_of_getElem? hentry)
      have hframe : toUnsigned entry.physicalPage < numPhysPages := by
        have hphys : numPhysPages = 32 := rfl
        unfold toUnsigned
        omega
      split at h
      · obtain ⟨⟨result, entry'⟩, huse, h⟩ := bind_ok_iff.mp h
        rw [pure_ok_iff, Prod.mk.injEq] at h
        obtain ⟨hresult, -⟩ := h
        rw [hresult] at huse
        unfold System.useEntry at huse
        simp only [hframe.not_ge, if_false] at huse
        split at huse
        · cases huse
        · split at huse
          · cases huse
          · cases huse
      · cases h

namespace State

variable {s s' : State}

/-- The page table that the constructor of an event sets up, if it does. -/
def pageTableFor (s : State) : Event → Except Fault (Option (List TranslationEntry))
  | .exec executable => do
    let noffH ← executable.noffHeader
    match ← exeSetup s.miMapa noffH.numPages with
    | (.table pageTable, _) => return some pageTable
    | (.returned, _) | (.finished, _) => return none
  | .fork other =>
    if other ∈ s.live then do
      let (pageTable, _) ← forkSetup s.miMapa (s.spaces other)
      return pageTable
    else .error .deleted
  | .forkAux _ | .destroy _ => .ok none

/-- The number of frames that an event asks for. -/
def request (s : State) : Event → ℕ
  | .exec executable =>
    match executable.noffHeader with
    | .ok noffH => noffH.numPages
    | .error _ => 0
  | .fork other => (s.spaces other).numPages - sharedMemory (s.spaces other).numPages
  | .forkAux _ | .destroy _ => 0

/-- The number of frames that are left in the machine. -/
def remaining (s : State) : ℕ := (s.miMapa.clearBits numPhysPages).card

/-- The constructors keep to the machine's frames. -/
structure Fitting (s : State) (e : Event) : Prop where
  pageTable : ∀ pageTable, s.pageTableFor e = .ok (some pageTable) →
    ∀ entry ∈ pageTable, OnMachine entry
  /-- The loader does not write outside `mainMemory`. -/
  load : s.step e ≠ .error .mainMemory
  translate : ∀ s', s.step e = .ok s' → ∀ b ∈ s'.live, ∀ pageTable,
    (s'.spaces b).pageTable = some pageTable → ∀ virtAddr size writing after,
      NoVM.translate pageTable virtAddr size writing ≠ .ok (.error .busError, after)
  /-- A request that does not fit is refused. -/
  refused : s.remaining < s.request e → ∀ pageTable, s.pageTableFor e ≠ .ok (some pageTable)

/-- The tests with which the constructors refuse a request: there are not enough clear bits in
`MiMapa`, the `ASSERT` on the number of pages fails, or the parent has no pages to share. -/
def refuses (s : State) (e : Event) : Bool :=
  match e with
  | .exec _ => (s.miMapa.numClear : ℤ) < toInt (s.request e) || numPhysPages < s.request e
  | .fork other =>
    other ∉ s.live ||
      match sharedPages (s.spaces other) with
      | .ok _ => s.miMapa.numClear < s.request e
      | .error _ => true
  | .forkAux _ | .destroy _ => true

/-- The request of an event fits in the machine's frames that are left, or is refused. -/
def Fits (s : State) (e : Event) : Prop := s.request e ≤ s.remaining ∨ s.refuses e = true

instance (s : State) (e : Event) : Decidable (s.Fits e) := inferInstanceAs (Decidable (_ ∨ _))

/-- The live address spaces have frames of the machine only. -/
def InRange (s : State) : Prop :=
  ∀ b ∈ s.live, ∀ f ∈ (s.spaces b).frames, 0 ≤ f ∧ f < numPhysPages

/-! ## The page tables -/

theorem refuses_exec {executable : HostFile} {noffH : NoffHeader}
    (hheader : executable.noffHeader = .ok noffH) :
    s.refuses (.exec executable) = false ↔
      ¬ (s.miMapa.numClear : ℤ) < toInt noffH.numPages ∧ noffH.numPages ≤ numPhysPages := by
  have hrequest : s.request (.exec executable) = noffH.numPages := by
    simp only [request, hheader]
  simp only [refuses, hrequest, Bool.or_eq_false_iff, decide_eq_false_iff_not, not_lt]

theorem refuses_fork {other : ℕ} {shared : List TranslationEntry}
    (hshared : sharedPages (s.spaces other) = .ok shared) :
    s.refuses (.fork other) = false ↔
      other ∈ s.live ∧ s.request (.fork other) ≤ s.miMapa.numClear := by
  simp [refuses, hshared]

/-- Where the frames of a new page table come from. -/
theorem pageTableFor_some {e : Event} {pageTable : List TranslationEntry} (hc : s.Consistent)
    (h : s.pageTableFor e = .ok (some pageTable)) :
    s.refuses e = false ∧ ∃ old frames m',
      (∀ f ∈ old, ∃ b ∈ s.live, f ∈ (s.spaces b).frames) ∧
      pageTable.map TranslationEntry.physicalPage = old ++ List.map (Nat.cast : ℕ → ℤ) frames ∧
      Taken s.miMapa frames m' ∧ frames.length = s.request e := by
  cases e with
  | exec executable =>
    rw [pageTableFor] at h
    obtain ⟨noffH, hheader, h⟩ := bind_ok_iff.mp h
    have hrequest : s.request (.exec executable) = noffH.numPages := by
      simp only [request, hheader]
    rcases exeSetup_spec s.miMapa noffH.numPages with
      ⟨-, hsetup⟩ | ⟨-, -, hsetup⟩ | ⟨hmany, hphys, frames, m', htaken, hlength, hsetup⟩
    · rw [hsetup] at h
      cases h
    · rw [hsetup] at h
      cases h
    · rw [hsetup, ok_bind, pure_ok_iff, Option.some.injEq] at h
      refine ⟨?_, [], frames, m', by simp, ?_, htaken, hlength.trans hrequest.symm⟩
      · exact (refuses_exec hheader).mpr ⟨hmany, hphys⟩
      · rw [← h, map_entriesFrom, List.nil_append]
  | fork other =>
    -- the front of the other table is shared, and the stack gets frames of its own
    rw [pageTableFor] at h
    split at h
    · rename_i hlive
      obtain ⟨⟨setup, m'⟩, hsetup, h⟩ := bind_ok_iff.mp h
      obtain ⟨shared, hshared, -⟩ := bind_ok_iff.mp hsetup
      obtain ⟨-, -, hpages⟩ := sharedPages_ok (hc.size other hlive) hshared
      rcases forkSetup_spec (hc.size other hlive) hshared s.miMapa with
        ⟨-, hnone⟩ | ⟨hmany, frames, m'', htaken, hframes, hsome⟩
      · rw [hsetup, Except.ok.injEq] at hnone
        rw [hnone] at h
        cases h
      · rw [hsetup, Except.ok.injEq] at hsome
        rw [hsome, pure_ok_iff, Option.some.injEq] at h
        refine ⟨?_, shared.map TranslationEntry.physicalPage, frames, m'', ?_, ?_, htaken,
          hframes⟩
        · exact (refuses_fork hshared).mpr ⟨hlive, hmany⟩
        · intro f hf
          rw [hpages] at hf
          exact ⟨other, hlive, List.mem_of_mem_take hf⟩
        · rw [← h, List.map_append, map_entriesFrom]
    · cases h
  -- the other two events build no table
  | forkAux b => cases h
  | destroy b => cases h

/-- A request for frames that no test refuses gets a page table. -/
theorem exists_pageTableFor {e : Event} (hc : s.Consistent) (hrefuses : s.refuses e = false)
    (hrequest : 0 < s.request e) : ∃ pageTable, s.pageTableFor e = .ok (some pageTable) := by
  cases e with
  | exec executable =>
    cases hheader : executable.noffHeader with
    | error fault => simp [request, hheader] at hrequest
    | ok noffH =>
      obtain ⟨hmany, hphys⟩ := (refuses_exec hheader).mp hrefuses
      rcases exeSetup_spec s.miMapa noffH.numPages with
        ⟨hfew, -⟩ | ⟨-, hbig, -⟩ | ⟨-, -, frames, m', -, -, hsetup⟩
      · exact absurd hfew hmany
      · exact absurd hphys hbig.not_ge
      · refine ⟨entriesFrom 0 frames, ?_⟩
        rw [pageTableFor, hheader, ok_bind, hsetup, ok_bind]
        rfl
  | fork other =>
    cases hshared : sharedPages (s.spaces other) with
    | error fault => simp [refuses, hshared] at hrefuses
    | ok shared =>
      obtain ⟨hlive, hmany⟩ := (refuses_fork hshared).mp hrefuses
      rcases forkSetup_spec (hc.size other hlive) hshared s.miMapa with
        ⟨hfew, -⟩ | ⟨-, frames, m', -, -, hsome⟩
      · exact absurd hmany hfew.not_ge
      · refine ⟨shared ++ entriesFrom shared.length frames, ?_⟩
        rw [pageTableFor, if_pos hlive, hsome, ok_bind]
        rfl
  | forkAux b => cases hrefuses
  | destroy b => cases hrefuses

/-- The frames of a new page table are the machine's if they were left in it. -/
theorem pageTableFor_onMachine {e : Event} {pageTable : List TranslationEntry}
    (hc : s.Consistent) (hrange : s.InRange) (hfits : s.Fits e)
    (h : s.pageTableFor e = .ok (some pageTable)) : ∀ entry ∈ pageTable, OnMachine entry := by
  obtain ⟨hrefuses, old, frames, m', hold, hpages, htaken, hlength⟩ := pageTableFor_some hc h
  have hleft : s.request e ≤ s.remaining := by
    rcases hfits with hfits | hfits
    · exact hfits
    · rw [hrefuses] at hfits
      cases hfits
  have hlt : ∀ i ∈ frames, i < numPhysPages := by
    rw [htaken.forall_lt_iff, hlength]
    exact hleft
  intro entry hentry
  have hmem := List.mem_map_of_mem (f := TranslationEntry.physicalPage) hentry
  rw [hpages] at hmem
  rcases List.mem_append.mp hmem with hmem | hmem
  · obtain ⟨b, hb, hf⟩ := hold _ hmem
    exact hrange b hb _ hf
  · obtain ⟨i, hi, heq⟩ := List.mem_map.mp hmem
    have := hlt i hi
    rw [OnMachine]
    omega

/-- An address space after an event was there before, or has the page table of the event. -/
theorem step_pageTable {e : Event} (hc : s.Consistent) (h : s.step e = .ok s') :
    ∀ b ∈ s'.live, b ∈ s.live ∧ s'.spaces b = s.spaces b ∨
      ∀ pageTable, (s'.spaces b).pageTable = some pageTable →
        s.pageTableFor e = .ok (some pageTable) := by
  cases e with
  | exec executable =>
    obtain ⟨noffH, new, m', mainMemory, hheader, hsetup, rfl⟩ := step_exec_ok h
    intro b hlive
    by_cases hb : b = s.numSpaces
    · subst hb
      refine .inr fun pageTable htable => ?_
      simp only [allocate, newTable, Function.update_self] at htable
      rcases hsetup with ⟨hnone, -⟩ | ⟨frames, -, -, hsetup, hnew⟩
      · rw [hnone] at htable
        cases htable
      · rw [pageTableFor, hheader, ok_bind, hsetup, ok_bind, ← htable, hnew]
        rfl
    · refine .inl ⟨(Finset.mem_insert.mp hlive).resolve_left hb, ?_⟩
      exact Function.update_of_ne hb _ _
  | fork other =>
    have hlive := step_fork_live h
    obtain ⟨shared, hshared, hcase⟩ := step_fork_ok h (hc.size other hlive)
    rcases hcase with rfl | ⟨frames, m', -, -, hsetup, rfl⟩
    · exact fun b hb => .inl ⟨hb, rfl⟩
    · intro b hb
      by_cases hnew : b = s.numSpaces
      · subst hnew
        refine .inr fun pageTable htable => ?_
        simp only [allocate, Function.update_self] at htable
        rw [pageTableFor, if_pos hlive, hsetup, ok_bind, htable]
        rfl
      · refine .inl ⟨(Finset.mem_insert.mp hb).resolve_left hnew, ?_⟩
        exact Function.update_of_ne hnew _ _
  | forkAux b =>
    obtain ⟨-, -, table, -, rfl⟩ := step_forkAux_ok h
    exact fun c hlive => .inl ⟨hlive, rfl⟩
  | destroy b =>
    obtain ⟨-, -, -, m', -, -, -, rfl⟩ := step_destroy_ok h
    exact fun c hlive => .inl ⟨Finset.mem_of_mem_erase hlive, rfl⟩

theorem step_inRange {e : Event} (hc : s.Consistent) (hrange : s.InRange) (hfits : s.Fits e)
    (h : s.step e = .ok s') : s'.InRange := by
  intro b hb f hf
  rcases step_pageTable hc h b hb with ⟨hlive, hspace⟩ | hnew
  · rw [hspace] at hf
    exact hrange b hlive f hf
  · cases htable : (s'.spaces b).pageTable with
    | none =>
      rw [AddrSpace.frames, htable] at hf
      cases hf
    | some pageTable =>
      rw [AddrSpace.frames, htable, Option.getD_some] at hf
      obtain ⟨entry, hentry, rfl⟩ := List.mem_map.mp hf
      exact pageTableFor_onMachine hc hrange hfits (hnew pageTable htable) entry hentry

/-- The loader writes to the frames of the new page table only. -/
theorem step_avoids {e : Event} (hc : s.Consistent)
    (hentries : ∀ pageTable, s.pageTableFor e = .ok (some pageTable) →
      ∀ entry ∈ pageTable, OnMachine entry) : Avoids .mainMemory (s.step e) := by
  cases e with
  | exec executable =>
    rw [step]
    apply Avoids.bind
    · rw [exeNoVirtualMemoryConstructor]
      apply Avoids.bind
      · unfold HostFile.noffHeader
        split
        · exact .error (by decide)
        · split
          · exact .error (by decide)
          · exact .ok _ _
      · intro noffH hheader
        rcases exeSetup_spec s.miMapa noffH.numPages with
          -- too few clear frames, an assertion of the constructor, or a page table with a frame for
          -- each page
          ⟨-, hsetup⟩ | ⟨-, -, hsetup⟩ | ⟨-, hphys, frames, m', htaken, hlength, hsetup⟩
        · rw [hsetup]
          exact .ok _ _
        · rw [hsetup]
          exact .error (by decide)
        · have htable : s.pageTableFor (.exec executable) = .ok (some (entriesFrom 0 frames)) := by
            rw [pageTableFor, hheader, ok_bind, hsetup, ok_bind]
            rfl
          rw [hsetup, ok_bind]
          refine Avoids.bind (loadPages_avoids ?_ hphys (hentries _ htable) _ _)
            fun _ _ => .ok _ _
          intro hne
          rw [← hlength]
          have := List.length_pos_of_ne_nil hne
          rwa [length_entriesFrom] at this
    · rintro ⟨space, s₁⟩ -
      cases space with
      | none => exact .ok _ _
      | some space => exact .ok _ _
  | fork other =>
    rw [step]
    split
    · rename_i hlive
      apply Avoids.bind
      · rw [noVirtualMemoryConstructor]
        -- the parent's table is read before any frame, and its faults are others
        cases hshared : sharedPages (s.spaces other) with
        | error fault =>
          have hfault : fault ≠ .mainMemory := by
            unfold sharedPages at hshared
            split at hshared
            · cases hshared
            · split at hshared
              · cases hshared
                decide
              · split at hshared
                · cases hshared
                  decide
                · cases hshared
          rw [forkSetup, hshared]
          exact .error hfault
        | ok shared =>
          rcases forkSetup_spec (hc.size other hlive) hshared s.miMapa with
            ⟨-, hnone⟩ | ⟨-, frames, m', -, -, hsome⟩
          · rw [hnone]
            exact .ok _ _
          · rw [hsome]
            exact .ok _ _
      · rintro ⟨space, s₁⟩ -
        cases space with
        | none => exact .ok _ _
        | some space => exact .ok _ _
    · exact .error (by decide)
  | forkAux b =>
    rw [step]
    split
    · split
      · split
        · exact .error (by decide)
        · exact .ok _ _
      · exact .error (by decide)
    · exact .error (by decide)
  | destroy b =>
    rw [step]
    split
    · refine Avoids.bind ?_ fun _ _ => .ok _ _
      rw [destructor]
      split
      · exact .error (by decide)
      · -- the destructor clears bits of the map and does not touch the main memory
        refine Avoids.bind (clearFrames_avoids _ _) fun _ _ => ?_
        split
        · exact .error (by decide)
        · exact .ok _ _
    · exact .error (by decide)

/-- When the constructors keep to the machine's frames. -/
theorem fitting_iff {e : Event} (hc : s.Consistent) (hrange : s.InRange) :
    s.Fitting e ↔ s.Fits e := by
  constructor
  · intro hfitting
    by_cases hleft : s.request e ≤ s.remaining
    · exact .inl hleft
    · cases hrefuses : s.refuses e with
      | true => exact .inr hrefuses
      | false =>
        obtain ⟨pageTable, htable⟩ := exists_pageTableFor hc hrefuses (by omega)
        exact absurd htable (hfitting.refused (by omega) pageTable)
  · intro hfits
    have htables := fun pageTable => @pageTableFor_onMachine s e pageTable hc hrange hfits
    refine ⟨htables, step_avoids hc htables, ?_, ?_⟩
    · intro s' h b hb pageTable htable
      have hrange' := step_inRange hc hrange hfits h b hb
      apply translate_ne_busError
      intro entry hentry
      apply hrange'
      rw [AddrSpace.frames, htable, Option.getD_some]
      exact List.mem_map_of_mem hentry
    · intro hexceeds pageTable htable
      obtain ⟨hrefuses, -⟩ := pageTableFor_some hc htable
      rcases hfits with hleft | hrefused
      · omega
      · rw [hrefuses] at hrefused
        cases hrefused

/-- In every run the page tables have frames of the machine only, the loader stays in
`mainMemory`, `Translate` gives no bus error and what does not fit is refused, exactly if every
request fits in the machine's frames that are left or fails a test of the constructors. -/
theorem run_fitting_iff (events : List Event) :
    Along step Fitting initial events ↔ Along step Fits initial events := by
  have hinit : initial.Consistent ∧ initial.InRange :=
    ⟨initial_consistent, by simp [InRange, initial]⟩
  refine Along.iff (I := fun s => s.Consistent ∧ s.InRange) ?_ ?_ hinit
  · rintro s e s' ⟨hc, hrange⟩ hfits hstep
    exact ⟨step_consistent hc hstep, step_inRange hc hrange hfits hstep⟩
  · rintro s e ⟨hc, hrange⟩
    exact fitting_iff hc hrange

/-- Four programs of nine pages are one page too many for the machine, and the last one is
loaded all the same. -/
theorem fourth_program_not_fitting :
    ∃ s, run step initial [.exec onePage, .exec onePage, .exec onePage, .exec onePage] = .ok s ∧
      3 ∈ s.live ∧ ¬ s.InRange := by
  have hrun : ∃ s, run step initial [.exec onePage, .exec onePage, .exec onePage, .exec onePage]
      = .ok s ∧ 3 ∈ s.live ∧ 32 ∈ (s.spaces 3).frames := by decide +kernel
  obtain ⟨s, hrun, hlive, hframe⟩ := hrun
  refine ⟨s, hrun, hlive, fun hrange => ?_⟩
  exact absurd (hrange 3 hlive 32 hframe).2 (by decide)

end State

end NoVM
end NachOS
