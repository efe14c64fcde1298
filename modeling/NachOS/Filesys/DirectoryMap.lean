import NachOS.Filesys.DirectoryTheorems
import NachOS.Lib.BoundedMap

/-!
# Directories as maps

A directory is a map from names to sectors with room for `tableSize` names. Names are told apart
by their first `FileNameMaxLen` characters, and a shorter name by its end; the entries keep the
bytes of names that were removed.
-/

namespace NachOS

open BoundedMap

/-! ## Keys -/

/-- The characters of a string from `k` on, at most `n` of them. -/
def chars (name : Bytes) (k : ℕ) : ℕ → List UInt8
  | 0 => []
  | n + 1 => if name k = 0 then [] else name k :: chars name (k + 1) n

/-- What names are told apart by. -/
def key (name : Bytes) : List UInt8 := chars name 0 fileNameMaxLen

theorem strncmpFrom_iff_chars {a b : Bytes} {n : ℕ} :
    ∀ {k : ℕ}, strncmpFrom a b k n = true ↔ chars a k n = chars b k n := by
  induction n with
  | zero =>
    intro k
    simp [strncmpFrom, chars]
  | succ n ih =>
    intro k
    rw [strncmpFrom, chars, chars]
    by_cases hne : a k = b k
    · rw [if_neg (not_not.mpr hne), ← hne]
      by_cases hzero : a k = 0
      · simp [hzero]
      · rw [if_neg hzero, if_neg hzero, if_neg hzero, List.cons.injEq, ih]
        simp
    · rw [if_pos hne]
      by_cases ha : a k = 0
      · have hb : b k ≠ 0 := fun hb => hne (ha.trans hb.symm)
        simp [ha, hb]
      · by_cases hb : b k = 0
        · simp [ha, hb]
        · simp [ha, hb, hne]

/-- `strncmp` finds two names equal if they have the same key. -/
theorem strncmp_iff_key {a b : Bytes} : strncmp a b fileNameMaxLen = true ↔ key a = key b :=
  strncmpFrom_iff_chars

/-- The key of a name is in the bytes that `strncpy` copies. -/
theorem key_congr {a b : Bytes} (h : Bytes.EqUpTo fileNameMaxLen a b) : key a = key b := by
  rw [← strncmp_iff_key, strncmp_congr h]
  exact strncmp_self b fileNameMaxLen

theorem key_strncpy (a : Bytes) : key (strncpy a) = key a := by
  rw [← strncmp_iff_key, strncmp_strncpy]
  exact strncmp_self a fileNameMaxLen

namespace Directory

variable {t : Directory} {i : ℕ}

/-- `Add` and `Remove` of names and sector numbers. -/
def step (t : Directory) : Op Bytes Int32 → Bool × Directory
  | .add name newSector => t.add name newSector.toInt
  | .remove name => t.remove name

/-- The operation on keys. -/
def keyed : Op Bytes Int32 → Op (List UInt8) ℤ
  | .add name newSector => .add (key name) newSector.toInt
  | .remove name => .remove (key name)

/-- The entry is in use and has the key. -/
def Has (t : Directory) (i : ℕ) (k : List UInt8) : Prop :=
  i < t.tableSize ∧ t.inUse i = true ∧ key (t.name i) = k

/-- The entries that are in use are those of the map, one for each key. -/
structure Holds {size : ℕ} (t : Directory) (m : BoundedMap (List UInt8) ℤ size) : Prop where
  tableSize : t.tableSize = size
  unique : ∀ i j k, t.Has i k → t.Has j k → i = j
  find : ∀ k v, m.find k = some v ↔ ∃ i, t.Has i k ∧ t.sector i = v

variable {size : ℕ} {m : BoundedMap (List UInt8) ℤ size}

/-- `FindIndex` finds a name that an entry in use has. -/
theorem findIndex_eq_none_iff (name : Bytes) :
    t.findIndex name = none ↔ ∀ i, ¬ t.Has i (key name) := by
  unfold findIndex Has
  rw [List.find?_eq_none]
  simp only [List.mem_range, Bool.and_eq_true, strncmp_iff_key]
  constructor
  · intro h i hi
    exact h i hi.1 hi.2
  · intro h i hi huse
    exact h i ⟨hi, huse⟩

theorem findIndex_some_iff (h : Holds t m) (name : Bytes) :
    t.findIndex name = some i ↔ t.Has i (key name) := by
  have hsome : ∀ {j}, t.findIndex name = some j → t.Has j (key name) := by
    intro j hj
    have hentry := List.find?_some hj
    rw [Bool.and_eq_true, strncmp_iff_key] at hentry
    exact ⟨(findIndex_some hj).1, hentry⟩
  constructor
  · exact hsome
  · intro hhas
    cases hindex : t.findIndex name with
    | none => exact absurd hhas ((findIndex_eq_none_iff name).mp hindex i)
    | some j => rw [h.unique j i _ (hsome hindex) hhas]

theorem Holds.has_iff (h : Holds t m) (k : List UInt8) : (∃ i, t.Has i k) ↔ m.find k ≠ none := by
  rw [Option.ne_none_iff_exists']
  constructor
  · rintro ⟨i, hi⟩
    exact ⟨t.sector i, (h.find k _).mpr ⟨i, hi, rfl⟩⟩
  · rintro ⟨v, hv⟩
    obtain ⟨i, hi, -⟩ := (h.find k v).mp hv
    exact ⟨i, hi⟩

theorem findIndex_none_iff (h : Holds t m) (name : Bytes) :
    t.findIndex name = none ↔ m.find (key name) = none := by
  rw [findIndex_eq_none_iff, ← not_exists, h.has_iff, not_not]

theorem Holds.find_eq (h : Holds t m) (name : Bytes) :
    t.find name = (m.find (key name)).getD (-1) := by
  unfold Directory.find
  cases hindex : t.findIndex name with
  | none =>
    rw [(findIndex_none_iff h name).mp hindex, Option.getD_none]
  | some i =>
    rw [(h.find _ _).mpr ⟨i, (findIndex_some_iff h name).mp hindex, rfl⟩, Option.getD_some]

/-- The keys are those of the entries in use, so there are as many. -/
theorem Holds.card_eq (h : Holds t m) :
    m.entries.keys.card = ((Finset.range size).filter fun i => t.inUse i = true).card := by
  have hkeys : m.entries.keys =
      ((Finset.range size).filter fun i => t.inUse i = true).image fun i => key (t.name i) := by
    ext k
    rw [Finmap.mem_keys, Finmap.mem_iff, Finset.mem_image]
    constructor
    · rintro ⟨v, hv⟩
      obtain ⟨i, hhas, -⟩ := (h.find k v).mp hv
      refine ⟨i, ?_, hhas.2.2⟩
      rw [Finset.mem_filter, Finset.mem_range, ← h.tableSize]
      exact ⟨hhas.1, hhas.2.1⟩
    · rintro ⟨i, hi, hkey⟩
      rw [Finset.mem_filter, Finset.mem_range, ← h.tableSize] at hi
      exact ⟨t.sector i, (h.find k _).mpr ⟨i, ⟨hi.1, hi.2, hkey⟩, rfl⟩⟩
  rw [hkeys]
  apply Finset.card_image_of_injOn
  intro i hi j hj hkey
  rw [Finset.mem_coe, Finset.mem_filter, Finset.mem_range, ← h.tableSize] at hi hj
  exact h.unique i j _ ⟨hi.1, hi.2, rfl⟩ ⟨hj.1, hj.2, hkey.symm⟩

/-- There is room for a key if an entry is not in use. -/
theorem Holds.card_lt_iff (h : Holds t m) :
    m.entries.keys.card < size ↔ ∃ i < size, t.inUse i = false := by
  rw [h.card_eq]
  constructor
  · intro hlt
    by_contra hnone
    have hall : ((Finset.range size).filter fun i => t.inUse i = true) = Finset.range size := by
      rw [Finset.filter_eq_self]
      intro i hi
      rw [← Bool.not_eq_false]
      exact fun hfalse => hnone ⟨i, Finset.mem_range.mp hi, hfalse⟩
    rw [hall, Finset.card_range] at hlt
    omega
  · rintro ⟨i, hi, hfalse⟩
    have hlt : ((Finset.range size).filter fun i => t.inUse i = true) ⊂ Finset.range size := by
      refine Finset.filter_ssubset.mpr ⟨i, Finset.mem_range.mpr hi, ?_⟩
      rw [hfalse]
      exact Bool.false_ne_true
    have hcard := Finset.card_lt_card hlt
    rwa [Finset.card_range] at hcard

/-! ## The operations -/

theorem setInUse_name (t : Directory) (i j : ℕ) (value : Bool) :
    Bytes.EqUpTo fileNameMaxLen ((t.setInUse i value).name j) (t.name j) := by
  intro k hk
  unfold fileNameMaxLen at hk
  unfold setInUse Directory.name Bytes.window
  dsimp only
  rw [directoryEntrySize_eq, Function.update_of_ne (by omega)]

/-- `Remove` takes one entry out of use. -/
theorem setInUse_has (t : Directory) (i j : ℕ) (k : List UInt8) :
    (t.setInUse i false).Has j k ↔ j ≠ i ∧ t.Has j k := by
  unfold Has
  rw [setInUse_tableSize, setInUse_inUse, key_congr (setInUse_name t i j false)]
  by_cases hj : j = i
  · simp [hj]
  · simp [hj]

/-- `Add` gives an entry the key of the name. -/
theorem setEntry_has (t : Directory) {i : ℕ} (hi : i < t.tableSize) (name : Bytes) (s : ℤ) (j : ℕ)
    (k : List UInt8) :
    (t.setEntry i name s).Has j k ↔ if j = i then key name = k else t.Has j k := by
  unfold Has
  rw [setEntry_tableSize, setEntry_inUse, key_congr (setEntry_name t i j name s)]
  by_cases hj : j = i
  · simp [hj, hi, key_strncpy]
  · simp [hj]

theorem Holds.remove (h : Holds t m) (name : Bytes) :
    (t.remove name).1 = (m.remove (key name)).1 ∧
      Holds (t.remove name).2 (m.remove (key name)).2 := by
  unfold Directory.remove
  cases hindex : t.findIndex name with
  | none =>
    -- the name is in no entry
    have hnone := (findIndex_none_iff h name).mp hindex
    refine ⟨?_, h.tableSize, h.unique, fun k v => ?_⟩
    · dsimp only [BoundedMap.remove]
      rw [hnone, Option.isSome_none]
    · rw [find_remove, ← h.find k v]
      split
      · rename_i hk
        rw [hk, hnone]
      · rfl
  | some i =>
    -- the entry that is cleared is the only one with the name
    have hhas := (findIndex_some_iff h name).mp hindex
    refine ⟨?_, h.tableSize, ?_, fun k v => ?_⟩
    · dsimp only [BoundedMap.remove]
      rw [(h.find _ _).mpr ⟨i, hhas, rfl⟩, Option.isSome_some]
    · intro j l k hj hl
      rw [setInUse_has] at hj hl
      exact h.unique j l k hj.2 hl.2
    · rw [find_remove]
      simp only [setInUse_has, setInUse_sector]
      split
      · -- the key was that of the entry alone
        rename_i hk
        constructor
        · intro hnone
          cases hnone
        · rintro ⟨j, ⟨hne, hj⟩, _⟩
          exact absurd (h.unique j i k hj (hk ▸ hhas)) hne
      · rename_i hk
        rw [h.find k v]
        constructor
        · rintro ⟨j, hj, hsector⟩
          refine ⟨j, ⟨?_, hj⟩, hsector⟩
          intro heq
          exact hk (hj.2.2.symm.trans (heq ▸ hhas.2.2))
        · rintro ⟨j, hj, hsector⟩
          exact ⟨j, hj.2, hsector⟩

/-- A new entry for a key that is not there. -/
theorem Holds.setEntry {m' : BoundedMap (List UInt8) ℤ size} (h : Holds t m) {name : Bytes}
    {s : Int32} (habsent : ∀ j, ¬ t.Has j (key name)) (hi : i < t.tableSize)
    (hfalse : t.inUse i = false)
    (hfind : ∀ k, m'.find k = if k = key name then some s.toInt else m.find k) :
    Holds (t.setEntry i name s.toInt) m' := by
  -- the entry written was not in use, and its name is in no other entry
  have hsector := fun j => setEntry_sector t i j name (Int32.le_toInt s) (Int32.toInt_lt s)
  refine ⟨h.tableSize, ?_, fun k v => ?_⟩
  · intro j l k hj hl
    rw [setEntry_has t hi] at hj hl
    by_cases hji : j = i
    · by_cases hli : l = i
      · rw [hji, hli]
      · rw [if_pos hji] at hj
        rw [if_neg hli, ← hj] at hl
        exact absurd hl (habsent l)
    · rw [if_neg hji] at hj
      by_cases hli : l = i
      · rw [if_pos hli] at hl
        rw [← hl] at hj
        exact absurd hj (habsent j)
      · rw [if_neg hli] at hl
        exact h.unique j l k hj hl
  · rw [hfind]
    simp only [setEntry_has t hi, hsector]
    split
    · rename_i hk
      rw [hk, Option.some.injEq]
      constructor
      · intro hv
        exact ⟨i, by rw [if_pos rfl], by rw [if_pos rfl, hv]⟩
      · rintro ⟨j, hj, hv⟩
        by_cases hji : j = i
        · rwa [if_pos hji] at hv
        · rw [if_neg hji] at hj
          exact absurd hj (habsent j)
    · rename_i hk
      rw [h.find k v]
      constructor
      · rintro ⟨j, hj, hv⟩
        have hji : j ≠ i := by
          intro heq
          rw [heq] at hj
          rw [hj.2.1] at hfalse
          cases hfalse
        exact ⟨j, by rwa [if_neg hji], by rwa [if_neg hji]⟩
      · rintro ⟨j, hj, hv⟩
        by_cases hji : j = i
        · rw [if_pos hji] at hj
          exact absurd hj.symm hk
        · rw [if_neg hji] at hj hv
          exact ⟨j, hj, hv⟩

theorem add_fst_iff (name : Bytes) (s : ℤ) :
    (t.add name s).1 = true ↔
      t.findIndex name = none ∧ ∃ i, t.firstUnused = some i := by
  unfold Directory.add
  split
  · rename_i hsome
    simp [hsome]
  · rename_i hnone
    rw [not_not] at hnone
    cases hfirst : t.firstUnused with
    | none => simp
    | some i => simp [hnone]

/-- An `Add` that fails changes nothing. -/
theorem add_false {name : Bytes} {s : ℤ} (h : (t.add name s).1 = false) : (t.add name s).2 = t := by
  unfold Directory.add at h ⊢
  split
  · rfl
  · rename_i hnone
    rw [if_neg hnone] at h
    cases hfirst : t.firstUnused with
    | none => rfl
    | some i =>
      rw [hfirst] at h
      cases h

theorem firstUnused_iff :
    (∃ i, t.firstUnused = some i) ↔ ∃ i < t.tableSize, t.inUse i = false := by
  constructor
  · rintro ⟨i, hi⟩
    exact ⟨i, firstUnused_some hi⟩
  · rintro ⟨i, hi, hfalse⟩
    cases hfirst : t.firstUnused with
    | none =>
      have hused := List.find?_eq_none.mp hfirst i (List.mem_range.mpr hi)
      rw [hfalse] at hused
      exact absurd rfl hused
    | some j => exact ⟨j, rfl⟩

theorem Holds.add (h : Holds t m) (name : Bytes) (s : Int32) :
    (t.add name s.toInt).1 = (m.add (key name) s.toInt).1 ∧
      Holds (t.add name s.toInt).2 (m.add (key name) s.toInt).2 := by
  have hanswer : (t.add name s.toInt).1 = (m.add (key name) s.toInt).1 := by
    rw [Bool.eq_iff_iff, Directory.add_fst_iff, BoundedMap.add_fst_iff, findIndex_none_iff h,
      firstUnused_iff, h.card_lt_iff, h.tableSize]
  refine ⟨hanswer, ?_⟩
  cases hadd : t.add name s.toInt with
  | mk added t' =>
    rw [hadd] at hanswer
    cases added with
    | false =>
      rw [add_snd_of_false hanswer.symm]
      rw [show t' = t from (congrArg Prod.snd hadd).symm.trans (add_false (congrArg Prod.fst hadd))]
      exact h
    | true =>
      obtain ⟨i, hfirst, rfl⟩ := add_true hadd
      obtain ⟨hi, hfalse⟩ := firstUnused_some hfirst
      have hnone := ((Directory.add_fst_iff name s.toInt).mp (congrArg Prod.fst hadd)).1
      refine h.setEntry ?_ hi hfalse fun k => ?_
      · intro j hj
        rw [(findIndex_some_iff h name).mpr hj] at hnone
        cases hnone
      · rw [find_add, ← hanswer]
        simp

theorem Holds.step (t : Directory) (m : BoundedMap (List UInt8) ℤ size) (op : Op Bytes Int32)
    (h : Holds t m) :
    (t.step op).1 = (m.step (keyed op)).1 ∧ Holds (t.step op).2 (m.step (keyed op)).2 := by
  cases op with
  | add name s => exact h.add name s
  | remove name => exact h.remove name

/-- A new directory is empty, whatever the memory has. -/
theorem new_holds (size : ℕ) (heap : Bytes) :
    Holds (new size heap) (BoundedMap.empty : BoundedMap (List UInt8) ℤ size) := by
  have hnone : ∀ i k, ¬ (new size heap).Has i k := by
    rintro i k ⟨hi, huse, _⟩
    rw [new_tableSize] at hi
    rw [new_inUse heap hi] at huse
    cases huse
  refine ⟨new_tableSize size heap, fun i j k hi => absurd hi (hnone i k), fun k v => ?_⟩
  constructor
  · intro hfind
    rw [show (BoundedMap.empty : BoundedMap (List UInt8) ℤ size).find k = none from
      Finmap.lookup_empty k] at hfind
    cases hfind
  · rintro ⟨i, hi, _⟩
    exact absurd hi (hnone i k)

/-- What a directory of `size` entries answers after a history of operations. -/
structure Refines (size : ℕ) (t : Directory) (history : List (Op Bytes Int32 × Bool)) : Prop where
  add_iff : ∀ (name : Bytes) (s : Int32), (t.add name s.toInt).1 = true ↔
    (∀ i, ¬ t.Has i (key name)) ∧ ∃ i < size, t.inUse i = false
  has_iff : ∀ name, (∃ i, t.Has i (key name)) ↔
    latest (history.map (Prod.map keyed id)) (key name) ≠ none
  find_eq : ∀ name, t.find name =
    (latest (history.map (Prod.map keyed id)) (key name)).getD (-1)
  remove_iff : ∀ name, (t.remove name).1 = true ↔ ∃ i, t.Has i (key name)
  /-- `Remove` deletes the key, and no other one. -/
  removed : ∀ name i k, (t.remove name).2.Has i k ↔ t.Has i k ∧ k ≠ key name
  find_removed : ∀ name name', (t.remove name).2.find name' =
    if key name' = key name then -1 else t.find name'
  unique : ∀ i j k, t.Has i k → t.Has j k → i = j

theorem Holds.removed_has (h : Holds t m) (name : Bytes) (i : ℕ) (k : List UInt8) :
    (t.remove name).2.Has i k ↔ t.Has i k ∧ k ≠ key name := by
  unfold Directory.remove
  cases hindex : t.findIndex name with
  | none =>
    refine ⟨fun hi => ⟨hi, fun hk => ?_⟩, fun hi => hi.1⟩
    rw [(findIndex_some_iff h name).mpr (hk ▸ hi)] at hindex
    cases hindex
  | some j =>
    have hj := (findIndex_some_iff h name).mp hindex
    rw [setInUse_has]
    constructor
    · rintro ⟨hne, hi⟩
      exact ⟨hi, fun hk => hne (h.unique i j k hi (hk ▸ hj))⟩
    · rintro ⟨hi, hk⟩
      refine ⟨fun heq => hk ?_, hi⟩
      rw [heq] at hi
      exact hi.2.2.symm.trans hj.2.2

/-- A directory is a map from keys to sectors with room for `size` keys, after any operations. -/
theorem run_refines_map (size : ℕ) (heap : Bytes) (ops : List (Op Bytes Int32)) :
    Refines size (Machine.after step (new size heap) ops)
      (Machine.history step (new size heap) ops) ∧
    (Machine.history step (new size heap) ops).map (Prod.map keyed id) =
      Machine.history BoundedMap.step (BoundedMap.empty : BoundedMap (List UInt8) ℤ size)
        (ops.map keyed) := by
  obtain ⟨hhistory, hholds⟩ := Machine.simulation (fun t m op => Holds.step t m op) ops
    (new_holds size heap)
  have hmap : (Machine.history step (new size heap) ops).map (Prod.map keyed id) =
      Machine.history BoundedMap.step (BoundedMap.empty : BoundedMap (List UInt8) ℤ size)
        (ops.map keyed) := by
    rw [hhistory]
    exact Machine.history_map BoundedMap.step keyed _ ops
  -- the table holds the map that the same operations lead to
  rw [Machine.after_map BoundedMap.step keyed] at hholds
  have hlatest := @find_run _ _ size _ (ops.map keyed)
  rw [← hmap] at hlatest
  refine ⟨?_, hmap⟩
  exact {
    add_iff := by
      intro name s
      rw [Directory.add_fst_iff, findIndex_eq_none_iff, firstUnused_iff, hholds.tableSize]
    has_iff := by
      intro name
      rw [hholds.has_iff, hlatest]
    find_eq := by
      intro name
      rw [hholds.find_eq, hlatest]
    remove_iff := by
      intro name
      rw [(hholds.remove name).1, hholds.has_iff]
      exact Option.isSome_iff_ne_none
    removed := hholds.removed_has
    find_removed := by
      intro name name'
      rw [(hholds.remove name).2.find_eq, hholds.find_eq, find_remove]
      split
      · rw [Option.getD_none]
      · rfl
    unique := hholds.unique }

end Directory
end NachOS
