import NachOS.Filesys.FileSystem
import Mathlib.Data.List.Find

/-!
# Entries of a directory

What `Add` and `Remove` do to the entries, read from the bytes of the table.
-/

namespace NachOS

/-! ## Strings -/

section

variable {a b : Bytes}

/-- Up to the first NUL `strncpy` copies the bytes as they are. -/
theorem strncpy_of_forall_ne {k : ℕ} (h : ∀ j < k, a j ≠ 0) : strncpy a k = a k := by
  unfold strncpy
  split
  · rename_i hany
    obtain ⟨j, hj, hzero⟩ := List.any_eq_true.mp hany
    rw [List.mem_range] at hj
    rw [decide_eq_true_eq] at hzero
    rcases Nat.lt_or_eq_of_le (Nat.le_of_lt_succ hj) with hlt | rfl
    · exact absurd hzero (h j hlt)
    · exact hzero.symm
  · rfl

/-- From the first NUL on it pads with zeros. -/
theorem strncpy_of_eq_zero {j k : ℕ} (hjk : j ≤ k) (h : a j = 0) : strncpy a k = 0 := by
  refine if_pos (List.any_eq_true.mpr ⟨j, List.mem_range.mpr (by omega), ?_⟩)
  rw [decide_eq_true_eq]
  exact h

/-- `strncmp` agrees on two names exactly if `strncpy` would store the same bytes; the induction is
on the bytes left to compare, behind a common part without a NUL. -/
theorem strncmpFrom_iff {n : ℕ} : ∀ {k : ℕ}, (∀ j < k, a j ≠ 0) → (∀ j < k, b j ≠ 0) →
    (strncmpFrom a b k n = true ↔ ∀ j < n, strncpy a (k + j) = strncpy b (k + j)) := by
  induction n with
  | zero =>
    intro k _ _
    simp [strncmpFrom]
  | succ n ih =>
    intro k ha hb
    rw [strncmpFrom]
    by_cases hne : a k ≠ b k
    · rw [if_pos hne]
      refine ⟨fun h => absurd h (by simp), fun h => absurd (h 0 (by omega)) ?_⟩
      rw [Nat.add_zero, strncpy_of_forall_ne ha, strncpy_of_forall_ne hb]
      exact hne
    rw [if_neg hne]
    rw [not_not] at hne
    by_cases hzero : a k = 0
    · rw [if_pos hzero]
      refine ⟨fun _ j _ => ?_, fun _ => rfl⟩
      rw [strncpy_of_eq_zero (Nat.le_add_right k j) hzero,
        strncpy_of_eq_zero (Nat.le_add_right k j) (hne ▸ hzero)]
    · have hnext : ∀ {c : Bytes}, (∀ j < k, c j ≠ 0) → c k ≠ 0 → ∀ j < k + 1, c j ≠ 0 := by
        intro c hc hck j hj
        rcases Nat.lt_or_eq_of_le (Nat.le_of_lt_succ hj) with hlt | rfl
        · exact hc j hlt
        · exact hck
      rw [if_neg hzero, ih (hnext ha hzero) (hnext hb (hne ▸ hzero))]
      constructor
      · intro h j hj
        cases j with
        | zero => rw [Nat.add_zero, strncpy_of_forall_ne ha, strncpy_of_forall_ne hb, hne]
        | succ j =>
          have := h j (by omega)
          rwa [Nat.add_right_comm, Nat.add_assoc] at this
      · intro h j hj
        have := h (j + 1) (by omega)
        rwa [← Nat.add_assoc, Nat.add_right_comm] at this

/-- `strncmp` compares the strings up to their ends. -/
theorem strncmp_iff {n : ℕ} : strncmp a b n = true ↔ Bytes.EqUpTo n (strncpy a) (strncpy b) := by
  rw [strncmp, strncmpFrom_iff (fun j hj => absurd hj (Nat.not_lt_zero j))
    fun j hj => absurd hj (Nat.not_lt_zero j)]
  simp only [Nat.zero_add]
  rfl

theorem strncpy_congr {k : ℕ} (h : ∀ j ≤ k, a j = b j) : strncpy a k = strncpy b k := by
  by_cases hzero : ∃ j ≤ k, a j = 0
  · obtain ⟨j, hj, hzero⟩ := hzero
    rw [strncpy_of_eq_zero hj hzero, strncpy_of_eq_zero hj ((h j hj).symm.trans hzero)]
  · have hne : ∀ j ≤ k, a j ≠ 0 := fun j hj hz => hzero ⟨j, hj, hz⟩
    rw [strncpy_of_forall_ne fun j hj => hne j (Nat.le_of_lt hj),
      strncpy_of_forall_ne fun j hj => h j (Nat.le_of_lt hj) ▸ hne j (Nat.le_of_lt hj), h k le_rfl]

/-- A name that went through `strncpy` is stored again as it is. -/
theorem strncpy_strncpy (a : Bytes) : strncpy (strncpy a) = strncpy a := by
  funext k
  by_cases hzero : ∃ j ≤ k, a j = 0
  · obtain ⟨j, hj, hzero⟩ := hzero
    rw [strncpy_of_eq_zero hj hzero, strncpy_of_eq_zero hj (strncpy_of_eq_zero le_rfl hzero)]
  · refine strncpy_of_forall_ne fun j hj => ?_
    rw [strncpy_of_forall_ne fun l hl hz => hzero ⟨l, by omega, hz⟩]
    exact fun hz => hzero ⟨j, Nat.le_of_lt hj, hz⟩

/-- Only the characters compared matter. -/
theorem strncmp_congr {n : ℕ} (h : Bytes.EqUpTo n a b) (c : Bytes) :
    strncmp a c n = strncmp b c n := by
  rw [Bool.eq_iff_iff, strncmp_iff, strncmp_iff]
  have hcopy : Bytes.EqUpTo n (strncpy a) (strncpy b) := fun k hk =>
    strncpy_congr fun j hj => h j (by omega)
  exact ⟨fun h' => hcopy.symm.trans h', fun h' => hcopy.trans h'⟩

/-- The name of an entry is a copy. -/
theorem strncmp_strncpy (a b : Bytes) (n : ℕ) : strncmp (strncpy a) b n = strncmp a b n := by
  rw [Bool.eq_iff_iff, strncmp_iff, strncmp_iff, strncpy_strncpy]

theorem strncmp_self (a : Bytes) (n : ℕ) : strncmp a a n = true := strncmp_iff.mpr fun _ _ => rfl

end

namespace Directory

variable {t t' : Directory} {i j : ℕ}

/-! ## Setting the flag -/

theorem setInUse_inUse (t : Directory) (i j : ℕ) (value : Bool) :
    (t.setInUse i value).inUse j = if j = i then value else t.inUse j := by
  unfold inUse setInUse
  dsimp only
  by_cases hj : j = i
  · rw [hj, Function.update_self, if_pos rfl]
    cases value
    · rfl
    · rfl
  · rw [Function.update_of_ne, if_neg hj]
    rw [directoryEntrySize_eq]
    omega

theorem setInUse_sector (t : Directory) (i j : ℕ) (value : Bool) :
    (t.setInUse i value).sector j = t.sector j := by
  unfold sector setInUse
  apply Bytes.int_congr
  intro k hk
  dsimp only
  rw [Function.update_of_ne]
  rw [directoryEntrySize_eq]
  omega

@[simp] theorem setInUse_tableSize (t : Directory) (i : ℕ) (value : Bool) :
    (t.setInUse i value).tableSize = t.tableSize := rfl

theorem new_tableSize (size : ℕ) (heap : Bytes) : (new size heap).tableSize = size := by
  have hfold : ∀ (is : List ℕ) (t : Directory),
      (is.foldl (fun t i => t.setInUse i false) t).tableSize = t.tableSize := by
    intro is
    induction is with
    | nil => exact fun t => rfl
    | cons i is ih => exact fun t => ih (t.setInUse i false)
  exact hfold _ _

/-- No entry of a new directory is in use. -/
theorem new_inUse (heap : Bytes) {size : ℕ} (hi : i < size) : (new size heap).inUse i = false := by
  have hfold : ∀ n, ((List.range n).foldl (fun t i => t.setInUse i false)
      (⟨size, heap⟩ : Directory)).inUse i = if i < n then false else inUse ⟨size, heap⟩ i := by
    intro n
    induction n with
    | zero => rfl
    | succ n ih =>
      rw [List.range_succ, List.foldl_append, List.foldl_cons, List.foldl_nil, setInUse_inUse, ih]
      by_cases hn : i = n
      · rw [if_pos hn, if_pos (by omega)]
      · rw [if_neg hn]
        by_cases hlt : i < n
        · rw [if_pos hlt, if_pos (by omega)]
        · rw [if_neg hlt, if_neg (by omega)]
  rw [new, hfold, if_pos hi]

/-! ## Adding an entry -/

@[simp] theorem setEntry_tableSize (t : Directory) (i : ℕ) (name : Bytes) (s : ℤ) :
    (t.setEntry i name s).tableSize = t.tableSize := rfl

theorem setEntry_inUse (t : Directory) (i j : ℕ) (name : Bytes) (s : ℤ) :
    (t.setEntry i name s).inUse j = if j = i then true else t.inUse j := by
  rw [← setInUse_inUse t i j true]
  unfold inUse setEntry
  dsimp only
  have hfield : ∀ m : Bytes, Bytes.setInt (Bytes.blit m (i * directoryEntrySize + 8) fileNameMaxLen
      (strncpy name)) (i * directoryEntrySize + 4) s (j * directoryEntrySize) =
      m (j * directoryEntrySize) := by
    intro m
    rw [directoryEntrySize_eq]
    rcases Nat.lt_or_ge i j with hij | hij
    · rw [Bytes.setInt_of_ge _ _ (by omega)]
      exact Bytes.blit_of_ge (by unfold fileNameMaxLen; omega)
    · rw [Bytes.setInt_of_lt _ _ (by omega)]
      exact Bytes.blit_of_lt (by omega)
  rw [hfield]

theorem setEntry_sector (t : Directory) (i j : ℕ) (name : Bytes) {s : ℤ} (hmin : -2 ^ 31 ≤ s)
    (hmax : s < 2 ^ 31) :
    (t.setEntry i name s).sector j = if j = i then s else t.sector j := by
  by_cases hj : j = i
  · rw [hj, if_pos rfl]
    exact Bytes.int_setInt_self _ _ hmin hmax
  · rw [if_neg hj, ← setInUse_sector t i j true]
    unfold sector setEntry
    dsimp only
    rw [directoryEntrySize_eq]
    rw [Bytes.int_setInt_of_disjoint _ _ (by omega)]
    apply Bytes.int_congr
    intro k hk
    rcases Nat.lt_or_ge i j with hij | hij
    · exact Bytes.blit_of_ge (by unfold fileNameMaxLen; omega)
    · exact Bytes.blit_of_lt (by omega)

/-- Only the name of the new entry changes. -/
theorem setEntry_name (t : Directory) (i j : ℕ) (name : Bytes) (s : ℤ) :
    Bytes.EqUpTo fileNameMaxLen ((t.setEntry i name s).name j)
      (if j = i then strncpy name else t.name j) := by
  intro k hk
  unfold fileNameMaxLen at hk
  unfold setEntry setInUse Directory.name Bytes.window fileNameMaxLen
  dsimp only
  rw [directoryEntrySize_eq]
  by_cases hj : j = i
  · rw [if_pos hj, hj, Bytes.setInt_of_ge _ _ (by omega), Bytes.blit_of_mem (by omega) (by omega),
      Nat.add_sub_cancel_left]
  · rw [if_neg hj]
    have hset : ∀ m : Bytes, m.setInt (i * 20 + 4) s (j * 20 + 8 + k) = m (j * 20 + 8 + k) := by
      intro m
      rcases Nat.lt_or_ge i j with hij | hij
      · exact Bytes.setInt_of_ge _ _ (by omega)
      · exact Bytes.setInt_of_lt _ _ (by omega)
    have hblit : ∀ m src : Bytes, Bytes.blit m (i * 20 + 8) 9 src (j * 20 + 8 + k) =
        m (j * 20 + 8 + k) := by
      intro m src
      rcases Nat.lt_or_ge i j with hij | hij
      · exact Bytes.blit_of_ge (by omega)
      · exact Bytes.blit_of_lt (by omega)
    rw [hset, hblit, Function.update_of_ne (by omega)]

/-! ## Finding an entry -/

/-- Which entry `FindIndex` finds depends on the flags and on how the names in use compare. -/
theorem findIndex_congr {name : Bytes} (hsize : t.tableSize = t'.tableSize)
    (hinUse : ∀ i < t.tableSize, t.inUse i = t'.inUse i)
    (hname : ∀ i < t.tableSize, t.inUse i = true →
      strncmp (t.name i) name fileNameMaxLen = strncmp (t'.name i) name fileNameMaxLen) :
    t.findIndex name = t'.findIndex name := by
  unfold findIndex
  rw [← hsize]
  refine List.find?_congr fun i hi => ?_
  rw [List.mem_range] at hi
  rw [← hinUse i hi]
  cases huse : t.inUse i with
  | false => rfl
  | true => rw [hname i hi huse]

/-- An entry that was found is in use. -/
theorem findIndex_some {name : Bytes} (h : t.findIndex name = some i) :
    i < t.tableSize ∧ t.inUse i = true := by
  have hmem := List.mem_of_find?_eq_some h
  have hentry := List.find?_some h
  rw [Bool.and_eq_true] at hentry
  exact ⟨List.mem_range.mp hmem, hentry.1⟩

/-- An entry that `Add` takes was not in use. -/
theorem firstUnused_some (h : t.firstUnused = some i) :
    i < t.tableSize ∧ t.inUse i = false := by
  have hmem := List.mem_of_find?_eq_some h
  have hentry := List.find?_some h
  exact ⟨List.mem_range.mp hmem, by simpa using hentry⟩

/-- What a successful `Add` does. -/
theorem add_true {name : Bytes} {s : ℤ} (h : t.add name s = (true, t')) :
    ∃ i, t.firstUnused = some i ∧ t' = t.setEntry i name s := by
  unfold add at h
  split at h
  · cases h
  · cases hfirst : t.firstUnused with
    | none =>
      rw [hfirst] at h
      cases h
    | some i =>
      rw [hfirst] at h
      cases h
      exact ⟨i, rfl, rfl⟩

/-! ## Tables with the same bytes -/

theorem inUse_congr (h : Bytes.EqUpTo (t.tableSize * directoryEntrySize) t.table t'.table)
    (hi : i < t.tableSize) : t.inUse i = t'.inUse i := by
  have hlt : i * directoryEntrySize < t.tableSize * directoryEntrySize := by
    rw [directoryEntrySize_eq]
    omega
  rw [inUse, inUse, h _ hlt]

theorem sector_congr (h : Bytes.EqUpTo (t.tableSize * directoryEntrySize) t.table t'.table)
    (hi : i < t.tableSize) : t.sector i = t'.sector i := by
  apply Bytes.int_congr
  intro k hk
  apply h
  rw [directoryEntrySize_eq]
  omega

/-- Two tables that agree on the entries, as after `WriteBack` and `FetchFrom`, have the
same names. -/
theorem name_congr (h : Bytes.EqUpTo (t.tableSize * directoryEntrySize) t.table t'.table)
    (hi : i < t.tableSize) : Bytes.EqUpTo fileNameMaxLen (t.name i) (t'.name i) := by
  intro k hk
  unfold fileNameMaxLen at hk
  apply h
  rw [directoryEntrySize_eq]
  omega

/-- So `FindIndex` finds the same entry in both. -/
theorem findIndex_congr_table (hsize : t.tableSize = t'.tableSize)
    (h : Bytes.EqUpTo (t.tableSize * directoryEntrySize) t.table t'.table) (name : Bytes) :
    t.findIndex name = t'.findIndex name :=
  findIndex_congr hsize (fun _ hi => inUse_congr h hi) fun _ hi _ =>
    strncmp_congr (name_congr h hi) name

/-- And `Find` the same sector. -/
theorem find_congr_table (hsize : t.tableSize = t'.tableSize)
    (h : Bytes.EqUpTo (t.tableSize * directoryEntrySize) t.table t'.table) (name : Bytes) :
    t.find name = t'.find name := by
  unfold find
  rw [← findIndex_congr_table hsize h]
  cases hindex : t.findIndex name with
  | none => rfl
  | some i => exact sector_congr h (findIndex_some hindex).1

end Directory
end NachOS
