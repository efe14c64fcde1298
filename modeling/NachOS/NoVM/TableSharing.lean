import NachOS.NoVM.FrameSharing

/-!
# Shared tables of open files

`NachOS_Fork` copies the pointer to the table of open files, and the usage count goes up only
in `ForkAux`, when the child runs for the first time. Until then the count is one short for
every child that waits.
-/

namespace NachOS
namespace NoVM

open PartialRun BitMap

/-- The number of objects that point to a table of open files. -/
def pointing (spaces : ℕ → AddrSpace) (objects : Finset ℕ) (table : ℕ) : ℕ :=
  {b ∈ objects | (spaces b).openFilesTable = table}.card

section pointing

variable {spaces : ℕ → AddrSpace} {objects : Finset ℕ} {b : ℕ} (table : ℕ)

/-- A space that is no object does not count. -/
theorem pointing_update {space : AddrSpace} (h : b ∉ objects) :
    pointing (Function.update spaces b space) objects table = pointing spaces objects table := by
  unfold pointing
  congr 1
  apply Finset.filter_congr
  intro c hc
  have hne : c ≠ b := fun heq => h (heq ▸ hc)
  rw [Function.update_of_ne hne]

/-- A new object counts for its own table. -/
theorem pointing_insert (h : b ∉ objects) :
    pointing spaces (insert b objects) table =
      pointing spaces objects table + if (spaces b).openFilesTable = table then 1 else 0 := by
  unfold pointing
  rw [Finset.filter_insert]
  split
  · exact Finset.card_insert_of_notMem fun hmem => h (Finset.mem_of_mem_filter b hmem)
  · rfl

/-- A deleted object no longer counts for it. -/
theorem pointing_erase (h : b ∈ objects) :
    pointing spaces objects table =
      pointing spaces (objects.erase b) table +
        if (spaces b).openFilesTable = table then 1 else 0 := by
  rw [← pointing_insert table (Finset.notMem_erase b objects), Finset.insert_erase h]

/-- Nobody points to the table. -/
theorem pointing_eq_zero :
    pointing spaces objects table = 0 ↔ ∀ b ∈ objects, (spaces b).openFilesTable ≠ table := by
  rw [pointing, Finset.card_eq_zero, Finset.filter_eq_empty_iff]

end pointing

namespace State

variable {s s' : State}

/-- The live address spaces that point to a table. -/
def sharers (s : State) (table : ℕ) : ℕ := pointing s.spaces s.live table

/-- The forked threads that have not run `ForkAux` and point to a table. -/
def waiting (s : State) (table : ℕ) : ℕ := pointing s.spaces s.unstarted table

/-- The `usage` field of a table, `0` once the table is deleted. -/
def usageOf (s : State) (table : ℕ) : ℤ :=
  match s.tables table with
  | some t => t.usage
  | none => 0

/-- The count of a table is right. -/
structure Counted (s : State) (table : ℕ) : Prop where
  usage : s.usageOf table = s.sharers table
  /-- `delThread` returns `0` when the last sharer calls it. -/
  last : ∀ b ∈ s.live, (s.spaces b).openFilesTable = table →
    ∃ t, s.tables table = some t ∧ (t.delThread.1 = 0 ↔ s.sharers table = 1)
  /-- Then the table is deleted. -/
  deleted : ∀ b s', (s.spaces b).openFilesTable = table → s.step (.destroy b) = .ok s' →
    (s'.tables table = none ↔ s'.sharers table = 0)

/-- What holds of the counts in every run. -/
structure Counting (s : State) : Prop where
  consistent : s.Consistent
  unstarted_lt : ∀ b ∈ s.unstarted, b < s.numSpaces
  pointer_lt : ∀ b < s.numSpaces, (s.spaces b).openFilesTable < s.numTables
  tables : ∀ table, s.numTables ≤ table → s.tables table = none
  usage : ∀ table, s.usageOf table + s.waiting table = s.sharers table

/-- Nothing has been made yet. -/
theorem initial_counting : initial.Counting where
  consistent := initial_consistent
  unstarted_lt := by simp [initial]
  pointer_lt := by simp [initial]
  tables := by simp [initial]
  usage := by simp [usageOf, waiting, sharers, initial, pointing]

/-- `usage` of a table that is made, changed or deleted. -/
theorem usageOf_update {t : Option NachosOpenFilesTable} {b table : ℕ}
    (htables : s'.tables = Function.update s.tables b t) :
    s'.usageOf table =
      if table = b then (t.elim 0 NachosOpenFilesTable.usage) else s.usageOf table := by
  unfold usageOf
  rw [htables]
  by_cases h : table = b
  · subst h
    rw [Function.update_self, if_pos rfl]
    cases t <;> rfl
  · rw [Function.update_of_ne h, if_neg h]

/-- No object points to a table that was not made yet. -/
theorem Counting.pointing_new (hc : s.Counting) : s.usageOf s.numTables = 0 ∧
    s.sharers s.numTables = 0 := by
  constructor
  · rw [usageOf, hc.tables s.numTables le_rfl]
  · rw [sharers, pointing_eq_zero]
    intro b hb
    exact (hc.pointer_lt b (hc.consistent.live_lt b hb)).ne

/-- The next number is not one of a thread that waits to start. -/
theorem Counting.numSpaces_unstarted (hc : s.Counting) : s.numSpaces ∉ s.unstarted := by
  intro hmem
  exact absurd (hc.unstarted_lt s.numSpaces hmem) (lt_irrefl _)

/-- `Exec` makes a space with a table of its own. -/
theorem step_exec_counting {executable : HostFile} (hc : s.Counting)
    (h : s.step (.exec executable) = .ok s') : s'.Counting := by
  have hconsistent := step_consistent hc.consistent h
  obtain ⟨noffH, pageTable, m', mainMemory, -, -, rfl⟩ := step_exec_ok h
  refine ⟨hconsistent, ?_, ?_, ?_, ?_⟩
  · intro b hb
    exact Nat.lt_succ_of_lt (hc.unstarted_lt b hb)
  · intro b hb
    by_cases hnew : b = s.numSpaces
    · subst hnew
      simp [allocate, newTable]
    · have hlt : b < s.numSpaces := Nat.lt_of_le_of_ne (Nat.lt_succ_iff.mp hb) hnew
      have := hc.pointer_lt b hlt
      simp only [allocate, newTable, Function.update_of_ne hnew]
      omega
  · intro table hle
    have hlt : s.numTables < table := hle
    simp only [allocate, newTable, Function.update_of_ne hlt.ne']
    exact hc.tables table hlt.le
  · intro table
    have hnew := hc.consistent.numSpaces_notMem
    have hold := hc.usage table
    simp only [sharers, waiting] at hold ⊢
    rw [usageOf_update (s := s) rfl]
    simp only [allocate, newTable]
    rw [pointing_update table hc.numSpaces_unstarted, pointing_insert table hnew,
      pointing_update table hnew, Function.update_self]
    by_cases htable : table = s.numTables
    · subst htable
      obtain ⟨husage, -⟩ := hc.pointing_new
      simp only [if_true, Option.elim, NachosOpenFilesTable.new]
      omega
    · rw [if_neg htable, if_neg (fun heq => htable heq.symm)]
      omega

/-- `Fork` makes a space that points to the parent's table, and does not count it yet. -/
theorem step_fork_counting {other : ℕ} (hc : s.Counting) (h : s.step (.fork other) = .ok s') :
    s'.Counting := by
  have hconsistent := step_consistent hc.consistent h
  have hlive := step_fork_live h
  obtain ⟨shared, -, hcase⟩ := step_fork_ok h (hc.consistent.size other hlive)
  rcases hcase with rfl | ⟨frames, m', -, -, -, rfl⟩
  · exact hc
  · refine ⟨hconsistent, ?_, ?_, hc.tables, ?_⟩
    · intro b hb
      rcases Finset.mem_insert.mp hb with rfl | hb
      · exact Nat.lt_succ_self _
      · exact Nat.lt_succ_of_lt (hc.unstarted_lt b hb)
    · intro b hb
      by_cases hnew : b = s.numSpaces
      · subst hnew
        simp only [allocate, Function.update_self]
        exact hc.pointer_lt other (hc.consistent.live_lt other hlive)
      · simp only [allocate, Function.update_of_ne hnew]
        exact hc.pointer_lt b (Nat.lt_of_le_of_ne (Nat.lt_succ_iff.mp hb) hnew)
    · -- one sharer more, and one that waits
      intro table
      have hnew := hc.consistent.numSpaces_notMem
      have hold := hc.usage table
      simp only [sharers, waiting] at hold ⊢
      simp only [allocate]
      rw [pointing_insert table hc.numSpaces_unstarted,
        pointing_update table hc.numSpaces_unstarted, pointing_insert table hnew,
        pointing_update table hnew]
      change s.usageOf table + ((_ + _ : ℕ) : ℤ) = ((_ + _ : ℕ) : ℤ)
      omega

/-- The child's first step counts its table once more. -/
theorem step_forkAux_counting {b : ℕ} (hc : s.Counting) (h : s.step (.forkAux b) = .ok s') :
    s'.Counting := by
  have hconsistent := step_consistent hc.consistent h
  obtain ⟨hunstarted, hlive, t, ht, rfl⟩ := step_forkAux_ok h
  refine ⟨hconsistent, ?_, hc.pointer_lt, ?_, ?_⟩
  · intro c hmem
    exact hc.unstarted_lt c (Finset.mem_of_mem_erase hmem)
  · intro table hle
    have hlt := hc.pointer_lt b (hc.consistent.live_lt b hlive)
    have hne : table ≠ (s.spaces b).openFilesTable := by
      have : s.numTables ≤ table := hle
      omega
    simp only [Function.update_of_ne hne]
    exact hc.tables table hle
  · intro table
    have hold := hc.usage table
    simp only [waiting, sharers] at hold ⊢
    rw [usageOf_update (s := s) rfl]
    rw [pointing_erase table hunstarted] at hold
    by_cases htable : table = (s.spaces b).openFilesTable
    · subst htable
      simp only [usageOf, ht, if_true] at hold
      simp only [if_true, Option.elim, NachosOpenFilesTable.addThread]
      omega
    · rw [if_neg htable]
      rw [if_neg (fun heq => htable heq.symm)] at hold
      omega

/-- The destructor takes one from `usage`, and deletes the table at zero. -/
theorem step_destroy_counting {b : ℕ} (hc : s.Counting) (h : s.step (.destroy b) = .ok s') :
    s'.Counting := by
  have hconsistent := step_consistent hc.consistent h
  obtain ⟨hlive, pageTable, t, m', -, ht, -, rfl⟩ := step_destroy_ok h
  refine ⟨hconsistent, hc.unstarted_lt, hc.pointer_lt, ?_, ?_⟩
  · intro table hle
    have hlt := hc.pointer_lt b (hc.consistent.live_lt b hlive)
    have hne : table ≠ (s.spaces b).openFilesTable := by
      have : s.numTables ≤ table := hle
      omega
    simp only [Function.update_of_ne hne]
    exact hc.tables table hle
  · intro table
    have hold := hc.usage table
    simp only [waiting, sharers] at hold ⊢
    rw [usageOf_update (s := s) rfl]
    rw [pointing_erase table hlive] at hold
    by_cases htable : table = (s.spaces b).openFilesTable
    · subst htable
      simp only [usageOf, ht, if_true] at hold
      rw [if_pos rfl]
      -- a count of `0` and a deleted table are the same
      have hcount : (if t.usage - 1 = 0 then none else some t.delThread.2).elim 0
          NachosOpenFilesTable.usage = t.usage - 1 := by
        split
        · rename_i hzero
          exact hzero.symm
        · rfl
      rw [hcount]
      omega
    · rw [if_neg htable]
      rw [if_neg (fun heq => htable heq.symm)] at hold
      omega

/-- One step of any kind. -/
theorem step_counting {e : Event} (hc : s.Counting) (h : s.step e = .ok s') : s'.Counting := by
  cases e with
  | exec executable => exact step_exec_counting hc h
  | fork other => exact step_fork_counting hc h
  | forkAux b => exact step_forkAux_counting hc h
  | destroy b => exact step_destroy_counting hc h

/-- The count is right when no child waits. -/
theorem Counting.counted {table : ℕ} (hc : s.Counting) (hnone : s.waiting table = 0) :
    s.Counted table := by
  have husage : s.usageOf table = s.sharers table := by
    have := hc.usage table
    omega
  refine ⟨husage, ?_, ?_⟩
  · intro b hb hpointer
    -- the address space counts as one of the sharers
    have hsharer : s.sharers table = pointing s.spaces (s.live.erase b) table + _ :=
      pointing_erase table hb
    rw [if_pos hpointer] at hsharer
    have hshared : s.sharers table = pointing s.spaces s.live table := rfl
    cases ht : s.tables table with
    | none =>
      rw [usageOf, ht] at husage
      simp only at husage
      omega
    | some t =>
      rw [usageOf, ht] at husage
      simp only at husage
      refine ⟨t, rfl, ?_⟩
      simp only [NachosOpenFilesTable.delThread]
      omega
  · intro b s' hpointer h
    -- after the destructor one sharer less is left, and the count is that of the others
    have hnext := (step_counting hc h).usage table
    obtain ⟨-, -, t, m', -, ht, -, rfl⟩ := step_destroy_ok h
    change _ + (s.waiting table : ℤ) = (pointing s.spaces (s.live.erase b) table : ℕ) at hnext
    change _ ↔ pointing s.spaces (s.live.erase b) table = 0
    rw [hnone] at hnext
    subst hpointer
    rw [usageOf_update (s := s) rfl, if_pos rfl] at hnext
    simp only [Function.update_self]
    split
    · rename_i hzero
      rw [if_pos hzero] at hnext
      simp only [Option.elim] at hnext
      simp only [true_iff]
      omega
    · rename_i hzero
      rw [if_neg hzero] at hnext
      simp only [Option.elim, NachosOpenFilesTable.delThread] at hnext
      simp only [reduceCtorEq, false_iff]
      omega

/-- In every run the count of a table is right exactly when no forked child that points to it
is still to run for the first time. -/
theorem run_counted_iff {events : List Event} (hrun : run step initial events = .ok s)
    (table : ℕ) :
    s.Counted table ↔ ∀ b ∈ s.unstarted, (s.spaces b).openFilesTable ≠ table := by
  have hc : s.Counting :=
    run_invariant (fun s e s' hc h => step_counting hc h) initial_counting hrun
  rw [← pointing_eq_zero]
  constructor
  · intro hcounted
    have hold := hc.usage table
    have husage := hcounted.usage
    have hwaiting : s.waiting table = pointing s.spaces s.unstarted table := rfl
    omega
  · exact fun hnone => hc.counted hnone

theorem started_child_counted :
    ∃ s, run step initial [.exec onePage, .fork 0, .forkAux 1, .destroy 0] = .ok s ∧
      s.Counted 0 := by
  have hrun : ∃ s, run step initial [.exec onePage, .fork 0, .forkAux 1, .destroy 0] = .ok s ∧
      ∀ b ∈ s.unstarted, (s.spaces b).openFilesTable ≠ 0 := by decide +kernel
  obtain ⟨s, hrun, hnone⟩ := hrun
  exact ⟨s, hrun, (run_counted_iff hrun 0).mpr hnone⟩

/-- The parent goes away before the child has run: the table is deleted, and the child still
points to it. -/
theorem waiting_child_not_counted :
    ∃ s, run step initial [.exec onePage, .fork 0, .destroy 0] = .ok s ∧
      s.usageOf 0 ≠ s.sharers 0 ∧ s.tables 0 = none ∧ 1 ∈ s.live ∧
      (s.spaces 1).openFilesTable = 0 := by
  have hrun : ∃ s, run step initial [.exec onePage, .fork 0, .destroy 0] = .ok s ∧
      s.usageOf 0 ≠ s.sharers 0 ∧ (s.tables 0).isNone ∧ 1 ∈ s.live ∧
      (s.spaces 1).openFilesTable = 0 := by decide +kernel
  simpa only [Option.isNone_iff_eq_none] using hrun

end State

end NoVM
end NachOS
