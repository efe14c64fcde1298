import NachOS.NoVM.Frames
import NachOS.VM.Access

/-!
# Shared frames

A forked address space has the frames of its parent below the stack, and the destructor gives
back the frames of an address space without a look at who else has them. So the frames of the
live address spaces are marked in `MiMapa` as long as no address space is destroyed that shares
frames with a live one.
-/

namespace NachOS
namespace NoVM

open PartialRun BitMap

namespace State

variable {s s' : State}

/-- The frames of the live address spaces are marked. -/
def Safe (s : State) : Prop :=
  ∀ b ∈ s.live, ∀ f ∈ (s.spaces b).frames, s.miMapa.marked f.toNat = true

instance : DecidablePred Safe := fun s =>
  inferInstanceAs (Decidable (∀ b ∈ s.live, ∀ f ∈ (s.spaces b).frames,
    s.miMapa.marked f.toNat = true))

/-- The number of pages of a new address space that are its parent's. -/
def inherited (s : State) : Event → ℕ
  | .fork other => sharedMemory (s.spaces other).numPages
  | _ => 0

/-- The frames that an event takes for a new address space. -/
def received (s s' : State) (e : Event) : List ℤ :=
  if s.numSpaces ∈ s'.live then (s'.spaces s.numSpaces).frames.drop (s.inherited e) else []

/-- After the event the frames of the live address spaces are marked, and those it has taken
are of no other live address space. -/
def KeepsFrames (s : State) (e : Event) : Prop :=
  ∀ s', s.step e = .ok s' →
    s'.Safe ∧ ∀ f ∈ received s s' e, ∀ b ∈ s.live, f ∉ (s.spaces b).frames

/-- The event does not destroy an address space that shares frames with a live one. -/
def Unshared (s : State) : Event → Prop
  | .destroy b => ∀ c ∈ s.live, c ≠ b → ∀ f ∈ (s.spaces b).frames, f ∉ (s.spaces c).frames
  | _ => True

instance (s : State) : (e : Event) → Decidable (s.Unshared e)
  | .destroy b => inferInstanceAs (Decidable (∀ c ∈ s.live, c ≠ b →
      ∀ f ∈ (s.spaces b).frames, f ∉ (s.spaces c).frames))
  | .exec _ | .fork _ | .forkAux _ => isTrue trivial

/-- What holds of the address spaces in every run. -/
structure Consistent (s : State) : Prop where
  live_lt : ∀ b ∈ s.live, b < s.numSpaces
  size : ∀ b ∈ s.live, ∀ pageTable, (s.spaces b).pageTable = some pageTable →
    pageTable.length = (s.spaces b).numPages
  frames : ∀ b ∈ s.live, ∀ f ∈ (s.spaces b).frames, 0 ≤ f ∧ f < s.miMapa.numBits

theorem initial_consistent : initial.Consistent where
  live_lt := by simp [initial]
  size := by simp [initial]
  frames := by simp [initial]

theorem Consistent.numSpaces_notMem (hc : s.Consistent) : s.numSpaces ∉ s.live := by
  intro hlive
  exact absurd (hc.live_lt s.numSpaces hlive) (lt_irrefl _)

/-- What an event does to the frames. -/
inductive Effect (s s' : State) (e : Event) : Prop where
  /-- A new address space has the first frames of a live one, but not all of them, and some
  that were free. -/
  | constructed (space : AddrSpace) (old : List ℤ) (frames : List ℕ)
      (hnot : ∀ b, e ≠ .destroy b)
      (hold : old = [] ∨ frames ≠ [] ∧ ∃ b ∈ s.live, ∃ k < (s.spaces b).frames.length,
        old = (s.spaces b).frames.take k)
      (hframes : space.frames = old ++ List.map (Nat.cast : ℕ → ℤ) frames)
      (hinherited : old.length = s.inherited e)
      (hsize : ∀ pageTable, space.pageTable = some pageTable → pageTable.length = space.numPages)
      (htaken : Taken s.miMapa frames s'.miMapa)
      (hspaces : s'.spaces = Function.update s.spaces s.numSpaces space)
      (hnumSpaces : s'.numSpaces = s.numSpaces + 1)
      (hlive : s'.live = insert s.numSpaces s.live)
  | destroyed (b : ℕ) (hevent : e = .destroy b) (hmem : b ∈ s.live)
      (hnumBits : s'.miMapa.numBits = s.miMapa.numBits)
      (hmarked : ∀ i : ℕ, s'.miMapa.marked i = true ↔
        s.miMapa.marked i = true ∧ (i : ℤ) ∉ (s.spaces b).frames)
      (hspaces : s'.spaces = s.spaces)
      (hnumSpaces : s'.numSpaces = s.numSpaces)
      (hlive : s'.live = s.live.erase b)
  | unchanged (hnot : ∀ b, e ≠ .destroy b)
      (hmiMapa : s'.miMapa = s.miMapa)
      (hspaces : s'.spaces = s.spaces)
      (hnumSpaces : s'.numSpaces = s.numSpaces)
      (hlive : s'.live = s.live)

theorem step_effect {e : Event} (hc : s.Consistent) (h : s.step e = .ok s') :
    Effect s s' e := by
  cases e with
  | exec executable =>
    obtain ⟨noffH, pageTable, m', mainMemory, -, htable, rfl⟩ := step_exec_ok h
    rcases htable with ⟨rfl, rfl⟩ | ⟨frames, htaken, hlength, -, rfl⟩
    · exact .constructed _ [] [] (by simp) (.inl rfl) rfl rfl (by simp) (Taken.nil s.miMapa)
        rfl rfl rfl
    · refine .constructed _ [] frames (by simp) (.inl rfl) ?_ rfl ?_ htaken rfl rfl rfl
      · rw [AddrSpace.frames, Option.getD_some, map_entriesFrom, List.nil_append]
      · intro pageTable htable
        rw [Option.some.injEq] at htable
        rw [← htable, length_entriesFrom, hlength]
  | fork other =>
    have hlive := step_fork_live h
    have hsize := hc.size other hlive
    obtain ⟨shared, hshared, hcase⟩ := step_fork_ok h hsize
    obtain ⟨hle, hlength, hpages⟩ := sharedPages_ok hsize hshared
    rcases hcase with rfl | ⟨frames, m', htaken, hframes, -, rfl⟩
    · exact .unchanged (by simp) rfl rfl rfl rfl
    · refine .constructed _ (shared.map TranslationEntry.physicalPage) frames (by simp) ?_ ?_ ?_ ?_
        htaken rfl rfl rfl
      · -- the shared part is the front of the other table, all but its stack
        have hstack := sharedMemory_lt hle
        rw [hpages]
        cases htable : (s.spaces other).pageTable with
        | none =>
          left
          rw [AddrSpace.frames, htable]
          exact List.take_nil
        | some pageTable =>
          refine .inr ⟨List.ne_nil_of_length_pos (by omega), other, hlive, _, ?_, rfl⟩
          rw [AddrSpace.frames, htable, Option.getD_some, List.length_map, hsize pageTable htable]
          exact hstack
      · rw [AddrSpace.frames, Option.getD_some, List.map_append, map_entriesFrom]
      · rw [List.length_map, hlength]
        rfl
      · intro pageTable htable
        rw [Option.some.injEq] at htable
        rw [← htable, List.length_append, length_entriesFrom, hframes, hlength]
        exact Nat.add_sub_cancel' hle
  | forkAux b =>
    obtain ⟨-, -, table, -, rfl⟩ := step_forkAux_ok h
    exact .unchanged (by simp) rfl rfl rfl rfl
  | destroy b =>
    obtain ⟨hmem, pageTable, table, m', htable, -, hclear, rfl⟩ := step_destroy_ok h
    obtain ⟨hbits, hmarked⟩ := clearFrames_ok hclear
    refine .destroyed b rfl hmem hbits (fun i => ?_) rfl rfl rfl
    rw [hmarked i, AddrSpace.frames, htable, Option.getD_some]

/-- The frames that are not new are those of a live address space. -/
theorem mem_of_mem_old {old : List ℤ} {frames : List ℕ}
    (hold : old = [] ∨ frames ≠ [] ∧ ∃ b ∈ s.live, ∃ k < (s.spaces b).frames.length,
      old = (s.spaces b).frames.take k) : ∀ f ∈ old, ∃ b ∈ s.live, f ∈ (s.spaces b).frames := by
  intro f hf
  rcases hold with rfl | ⟨-, b, hb, k, -, rfl⟩
  · cases hf
  · exact ⟨b, hb, List.mem_of_mem_take hf⟩

/-- The address spaces after a construction. -/
theorem forall_live_constructed {P : ℕ → AddrSpace → Prop} {space : AddrSpace}
    (hc : s.Consistent) (hspaces : s'.spaces = Function.update s.spaces s.numSpaces space)
    (hlive : s'.live = insert s.numSpaces s.live) (hnew : P s.numSpaces space)
    (hold : ∀ b ∈ s.live, P b (s.spaces b)) : ∀ b ∈ s'.live, P b (s'.spaces b) := by
  intro b hb
  rw [hlive, Finset.mem_insert] at hb
  rw [hspaces]
  rcases hb with rfl | hb
  · rwa [Function.update_self]
  · have hne : b ≠ s.numSpaces := fun heq => hc.numSpaces_notMem (heq ▸ hb)
    rw [Function.update_of_ne hne]
    exact hold b hb

theorem step_consistent {e : Event} (hc : s.Consistent) (h : s.step e = .ok s') :
    s'.Consistent := by
  cases step_effect hc h with
  | constructed space old frames _ hold hframes _ hsize htaken hspaces hnumSpaces hlive =>
    -- what holds of the new address space, and of the old ones as before
    refine ⟨?live_lt, ?size, ?frames⟩
    case live_lt =>
      rw [hnumSpaces]
      refine forall_live_constructed (P := fun b _ => b < s.numSpaces + 1) hc hspaces hlive
        (Nat.lt_succ_self _) fun b hb => ?_
      have := hc.live_lt b hb
      omega
    case size =>
      exact forall_live_constructed (P := fun _ space => ∀ pageTable,
        space.pageTable = some pageTable → pageTable.length = space.numPages) hc hspaces hlive
        hsize hc.size
    case frames =>
      rw [htaken.numBits]
      refine forall_live_constructed (P := fun _ space => ∀ f ∈ space.frames,
        0 ≤ f ∧ f < s.miMapa.numBits) hc hspaces hlive ?_ hc.frames
      intro f hf
      rw [hframes] at hf
      rcases List.mem_append.mp hf with hf | hf
      · obtain ⟨b, hb, hf⟩ := mem_of_mem_old hold f hf
        exact hc.frames b hb f hf
      · obtain ⟨i, hi, rfl⟩ := List.mem_map.mp hf
        have := htaken.lt i hi
        omega
  | destroyed b _ hmem hnumBits _ hspaces hnumSpaces hlive =>
    refine ⟨?live_lt, ?size, ?frames⟩
    case live_lt =>
      intro c hc'
      rw [hlive] at hc'
      rw [hnumSpaces]
      exact hc.live_lt c (Finset.mem_of_mem_erase hc')
    case size =>
      intro c hc'
      rw [hlive] at hc'
      rw [hspaces]
      exact hc.size c (Finset.mem_of_mem_erase hc')
    case frames =>
      intro c hc'
      rw [hlive] at hc'
      rw [hspaces, hnumBits]
      exact hc.frames c (Finset.mem_of_mem_erase hc')
  | unchanged _ hmiMapa hspaces hnumSpaces hlive =>
    refine ⟨?live_lt, ?size, ?frames⟩
    case live_lt =>
      rw [hlive, hnumSpaces]
      exact hc.live_lt
    case size =>
      rw [hlive, hspaces]
      exact hc.size
    case frames =>
      rw [hlive, hspaces, hmiMapa]
      exact hc.frames

/-- The frames taken are those that were free. -/
theorem received_constructed {e : Event} {space : AddrSpace} {old : List ℤ} {frames : List ℕ}
    (hframes : space.frames = old ++ List.map (Nat.cast : ℕ → ℤ) frames)
    (hinherited : old.length = s.inherited e)
    (hspaces : s'.spaces = Function.update s.spaces s.numSpaces space)
    (hlive : s'.live = insert s.numSpaces s.live) :
    received s s' e = List.map (Nat.cast : ℕ → ℤ) frames := by
  have hmem : s.numSpaces ∈ s'.live := by
    rw [hlive]
    exact Finset.mem_insert_self _ _
  rw [received, if_pos hmem, hspaces, Function.update_self, hframes, ← hinherited, List.drop_left]

theorem received_of_live_subset {e : Event} (hc : s.Consistent) (hsub : s'.live ⊆ s.live) :
    received s s' e = [] := by
  rw [received, if_neg fun hmem => hc.numSpaces_notMem (hsub hmem)]

theorem unshared_of_ne_destroy {e : Event} (hnot : ∀ b, e ≠ .destroy b) : s.Unshared e := by
  cases e with
  | destroy b => exact absurd rfl (hnot b)
  | _ => trivial

/-- Which events keep the frames of the live address spaces marked. -/
theorem keepsFrames_iff {e : Event} (hc : s.Consistent) (hsafe : s.Safe)
    (h : s.step e = .ok s') : s.KeepsFrames e ↔ s.Unshared e := by
  have honly : s.KeepsFrames e ↔
      s'.Safe ∧ ∀ f ∈ received s s' e, ∀ b ∈ s.live, f ∉ (s.spaces b).frames := by
    constructor
    · exact fun hkeeps => hkeeps s' h
    · intro hkeeps s₁ h₁
      rw [h, Except.ok.injEq] at h₁
      exact h₁ ▸ hkeeps
  rw [honly]
  cases step_effect hc h with
  | constructed space old frames hnot hold hframes hinherited _ htaken hspaces _ hlive =>
    -- every frame of the new table was clear, or is one of the copied table
    have hunshared := unshared_of_ne_destroy (s := s) hnot
    refine ⟨fun _ => hunshared, fun _ => ⟨?_, ?_⟩⟩
    · refine forall_live_constructed (P := fun _ space => ∀ f ∈ space.frames,
        s'.miMapa.marked f.toNat = true) hc hspaces hlive ?_ ?_
      · intro f hf
        rw [htaken.marked]
        rw [hframes] at hf
        rcases List.mem_append.mp hf with hf | hf
        · obtain ⟨b, hb, hf⟩ := mem_of_mem_old hold f hf
          exact .inl (hsafe b hb f hf)
        · obtain ⟨i, hi, rfl⟩ := List.mem_map.mp hf
          exact .inr hi
      · intro b hb f hf
        rw [htaken.marked]
        exact .inl (hsafe b hb f hf)
    · intro f hf b hb hmem
      rw [received_constructed hframes hinherited hspaces hlive] at hf
      obtain ⟨i, hi, rfl⟩ := List.mem_map.mp hf
      have hmarked : s.miMapa.marked i = true := hsafe b hb i hmem
      rw [htaken.clear i hi] at hmarked
      cases hmarked
  | destroyed b hevent hmem _ hmarked hspaces _ hlive =>
    -- the destructor clears every frame of `b`: nobody else may have one of them
    subst hevent
    rw [received_of_live_subset hc (hlive ▸ Finset.erase_subset b s.live)]
    constructor
    · rintro ⟨hsafe', -⟩ c hc' hne f hf hshared
      have hf' : f ∈ (s'.spaces c).frames := by rwa [hspaces]
      have hstill := hsafe' c (hlive ▸ Finset.mem_erase.mpr ⟨hne, hc'⟩) f hf'
      have hcast : ((f.toNat : ℕ) : ℤ) = f := Int.toNat_of_nonneg (hc.frames b hmem f hf).1
      rw [hmarked, hcast] at hstill
      exact hstill.2 hf
    · intro hunshared
      refine ⟨?_, by simp⟩
      intro c hc' f hf
      rw [hlive, Finset.mem_erase] at hc'
      rw [hspaces] at hf
      have hcast : ((f.toNat : ℕ) : ℤ) = f := Int.toNat_of_nonneg (hc.frames c hc'.2 f hf).1
      rw [hmarked, hcast]
      exact ⟨hsafe c hc'.2 f hf, fun hgone => hunshared c hc'.2 hc'.1 f hgone hf⟩
  | unchanged hnot hmiMapa hspaces _ hlive =>
    have hunshared := unshared_of_ne_destroy (s := s) hnot
    rw [received_of_live_subset hc hlive.subset]
    refine ⟨fun _ => hunshared, fun _ => ⟨?_, by simp⟩⟩
    intro b hb f hf
    rw [hlive] at hb
    rw [hspaces] at hf
    rw [hmiMapa]
    exact hsafe b hb f hf

theorem step_safe {e : Event} (hc : s.Consistent) (hsafe : s.Safe) (hunshared : s.Unshared e)
    (h : s.step e = .ok s') : s'.Safe :=
  ((keepsFrames_iff hc hsafe h).mpr hunshared s' h).1

/-- In every run the frames of the live address spaces stay marked, and no construction takes
one of them, exactly if no address space is destroyed that shares frames with a live one. -/
theorem run_frames_kept_iff {events : List Event} (hrun : run step initial events = .ok s) :
    Along step KeepsFrames initial events ↔ Along step Unshared initial events := by
  have hinit : initial.Consistent ∧ initial.Safe := ⟨initial_consistent, by simp [Safe, initial]⟩
  refine Along.iff_of_run (I := fun s => s.Consistent ∧ s.Safe) ?_ ?_ hinit hrun
  · rintro s e s' ⟨hc, hsafe⟩ hcond hstep
    exact ⟨step_consistent hc hstep, step_safe hc hsafe hcond hstep⟩
  · rintro s e s' ⟨hc, hsafe⟩ hstep
    exact keepsFrames_iff hc hsafe hstep

/-- A program of one page, and the stack. -/
def onePage : HostFile := HostFile.program [1, 2, 3] 0

theorem separate_frames_kept :
    ∃ s, run step initial [.exec onePage, .exec onePage, .destroy 0, .exec onePage] = .ok s ∧
      Along step KeepsFrames initial
        [.exec onePage, .exec onePage, .destroy 0, .exec onePage] := by
  have hrun : ∃ s, run step initial [.exec onePage, .exec onePage, .destroy 0, .exec onePage]
      = .ok s ∧ True := by decide +kernel
  obtain ⟨s, hrun, -⟩ := hrun
  exact ⟨s, hrun, (run_frames_kept_iff hrun).mpr (by decide +kernel)⟩

/-- The parent is destroyed before the child. The frame of the code is free, and the next
program gets it. -/
theorem shared_frame_freed :
    (∃ s, run step initial [.exec onePage, .fork 0, .forkAux 1, .destroy 0] = .ok s ∧
      ¬ s.Safe) ∧
    ∃ s, run step initial [.exec onePage, .fork 0, .forkAux 1, .destroy 0, .exec onePage]
      = .ok s ∧ 1 ∈ s.live ∧ 2 ∈ s.live ∧ 0 ∈ (s.spaces 1).frames ∧ 0 ∈ (s.spaces 2).frames := by
  constructor
  · decide +kernel
  · decide +kernel

end State

end NoVM
end NachOS
