import NachOS.Userprog.BitMap
import NachOS.Lib.Run
import Mathlib.Data.List.Find

/-!
# The table of open files

`NachosOpenFilesTable` of `addrspace.h`: Nachos handles `0` to `tableSize - 1`, each with the
Unix handle it stands for. It is meant to be a partial injective map, and is one as long as
three things are avoided: `Open` takes the handle `0` for not found, the ranges are checked
against `tableSize` and not `tableSize - 1`, and `memset` is given a number of bytes.
-/

namespace NachOS

open PartialRun

def tableSize : ℕ := 100

/-- `sizeof(int)`. -/
def sizeofInt : ℕ := 4

/-- `NachosOpenFilesTable`. An element of `openFiles` that was never written is `none`. -/
structure NachosOpenFilesTable where
  openFiles : ℕ → Option ℤ
  openFilesMap : BitMap
  usage : ℤ

namespace NachosOpenFilesTable

/-- `memset(openFiles, -1, tableSize)`: the elements that are within the first `tableSize`
bytes of the array. -/
def memset : ℕ → Option ℤ := fun i => if sizeofInt * (i + 1) ≤ tableSize then some (-1) else none

/-- `NachosOpenFilesTable::NachosOpenFilesTable`. -/
def new : NachosOpenFilesTable where
  openFiles := Function.update (Function.update (Function.update memset 0 (some 0)) 1 (some 1))
    2 (some 2)
  openFilesMap := (((BitMap.new tableSize).markBit 0).markBit 1).markBit 2
  usage := 1

variable (t : NachosOpenFilesTable)

/-- The value of `openFiles[i]`. -/
def get (i : ℕ) : Except Fault ℤ :=
  if i < tableSize then
    match t.openFiles i with
    | some v => .ok v
    | none => .error .uninitialised
  else .error .openFiles

/-- `openFiles[i] = v`. -/
def set (i : ℕ) (v : ℤ) : Except Fault NachosOpenFilesTable :=
  if i < tableSize then .ok { t with openFiles := Function.update t.openFiles i (some v) }
  else .error .openFiles

/-- The loop of `Open`, over the indices that are left: the handle it ends with. -/
def findHandle (unixHandle : ℤ) : List ℕ → Except Fault ℕ
  | [] => .ok 0
  | i :: is => do
    let opened ← t.openFilesMap.test i
    if opened then
      let v ← t.get i
      if v = unixHandle then return i else findHandle unixHandle is
    else findHandle unixHandle is

/-- `Open`. -/
def openHandle (unixHandle : ℤ) : Except Fault (ℤ × NachosOpenFilesTable) := do
  let handle ← t.findHandle unixHandle (List.range tableSize)
  -- 0 stands for not found, and is a handle too
  if handle ≠ 0 then return (handle, t)
  else match t.openFilesMap.find with
    | (none, openFilesMap) => return (-1, { t with openFilesMap := openFilesMap })
    | (some handle, openFilesMap) => do
      let t ← { t with openFilesMap := openFilesMap }.set handle unixHandle
      return (handle, t)

/-- `isOpened`. -/
def isOpened (nachosHandle : ℤ) : Except Fault Bool :=
  if nachosHandle < 0 ∨ nachosHandle > tableSize then .ok false
  else t.openFilesMap.test nachosHandle.toNat

/-- `Close`. -/
def close (nachosHandle : ℤ) : Except Fault (ℤ × NachosOpenFilesTable) := do
  let opened ← t.isOpened nachosHandle
  if opened = false ∨ nachosHandle < 0 ∨ nachosHandle > tableSize then return (-1, t)
  else do
    let unixHandle ← t.get nachosHandle.toNat
    let openFilesMap ← t.openFilesMap.clear nachosHandle.toNat
    let t ← { t with openFilesMap := openFilesMap }.set nachosHandle.toNat (-1)
    return (unixHandle, t)

/-- `getUnixHandle`. -/
def getUnixHandle (nachosHandle : ℤ) : Except Fault ℤ :=
  if nachosHandle < 0 ∨ nachosHandle > tableSize then .ok (-1)
  else t.get nachosHandle.toNat

/-- `addThread`. -/
def addThread : NachosOpenFilesTable := { t with usage := t.usage + 1 }

/-- `delThread`. -/
def delThread : ℤ × NachosOpenFilesTable := (t.usage - 1, { t with usage := t.usage - 1 })

/-- A call of the table. Unix handles are not negative. -/
inductive Call where
  | openHandle (unixHandle : ℕ)
  | close (nachosHandle : ℤ)
  | isOpened (nachosHandle : ℤ)
  | getUnixHandle (nachosHandle : ℤ)
deriving DecidableEq, Repr

/-- What a call returns. -/
inductive Answer where
  | int (value : ℤ)
  | bool (value : Bool)
deriving DecidableEq, Repr

/-- What a call returns, and the table after it. -/
def answer : Call → Except Fault (Answer × NachosOpenFilesTable)
  | .openHandle u => do
    let (handle, t) ← t.openHandle u
    return (.int handle, t)
  | .close h => do
    let (unixHandle, t) ← t.close h
    return (.int unixHandle, t)
  | .isOpened h => do
    let opened ← t.isOpened h
    return (.bool opened, t)
  | .getUnixHandle h => do
    let unixHandle ← t.getUnixHandle h
    return (.int unixHandle, t)

/-- The table after a call. -/
def step (c : Call) : Except Fault NachosOpenFilesTable := do
  let (_, t) ← t.answer c
  return t

end NachosOpenFilesTable

/-! ## What the table is for -/

/-- A partial injective map from the Nachos handles to Unix handles. -/
structure HandleMap where
  unixHandle : ℕ → Option ℕ
  bounded : ∀ h u, unixHandle h = some u → h < tableSize
  injective : ∀ h h' u, unixHandle h = some u → unixHandle h' = some u → h = h'

namespace HandleMap

variable (m : HandleMap)

/-- The handle that stands for a Unix handle. -/
def handleOf (u : ℕ) : Option ℕ :=
  (List.range tableSize).find? fun h => m.unixHandle h = some u

/-- The least handle that is free. -/
def leastFree : Option ℕ := (List.range tableSize).find? fun h => m.unixHandle h = none

theorem handleOf_eq_none {u : ℕ} (h : m.handleOf u = none) (n : ℕ) : m.unixHandle n ≠ some u := by
  intro hn
  have hnone := List.find?_eq_none.mp h n (List.mem_range.mpr (m.bounded n u hn))
  simp [hn] at hnone

/-- A free handle stands for a Unix handle that no handle stands for. -/
def insert (n u : ℕ) (hn : n < tableSize) (hu : m.handleOf u = none) : HandleMap where
  unixHandle := Function.update m.unixHandle n (some u)
  bounded h v hv := by
    by_cases hh : h = n
    · exact hh ▸ hn
    · rw [Function.update_of_ne hh] at hv
      exact m.bounded h v hv
  injective h h' v hv hv' := by
    have hnew : ∀ {i : ℕ}, i ≠ n → Function.update m.unixHandle n (some u) i = some v →
        v ≠ u := by
      rintro i hi heq rfl
      rw [Function.update_of_ne hi] at heq
      exact m.handleOf_eq_none hu i heq
    by_cases hh : h = n
    · by_cases hh' : h' = n
      · rw [hh, hh']
      · subst hh
        rw [Function.update_self, Option.some.injEq] at hv
        exact absurd hv.symm (hnew hh' hv')
    · by_cases hh' : h' = n
      · subst hh'
        rw [Function.update_self, Option.some.injEq] at hv'
        exact absurd hv'.symm (hnew hh hv)
      · rw [Function.update_of_ne hh] at hv
        rw [Function.update_of_ne hh'] at hv'
        exact m.injective h h' v hv hv'

/-- A handle is free. -/
def erase (n : ℕ) : HandleMap where
  unixHandle := Function.update m.unixHandle n none
  bounded h v hv := by
    by_cases hh : h = n
    · rw [hh, Function.update_self] at hv
      cases hv
    · rw [Function.update_of_ne hh] at hv
      exact m.bounded h v hv
  injective h h' v hv hv' := by
    have hold : ∀ {i : ℕ}, Function.update m.unixHandle n none i = some v →
        m.unixHandle i = some v := by
      intro i hi
      by_cases hin : i = n
      · rw [hin, Function.update_self] at hi
        cases hi
      · rwa [Function.update_of_ne hin] at hi
    exact m.injective h h' v (hold hv) (hold hv')

/-- The Unix handle of any number. -/
def lookup (h : ℤ) : Option ℕ := if h < 0 then none else m.unixHandle h.toNat

open NachosOpenFilesTable (Call Answer)

/-- What a call is to return, and the map after it. -/
def answer : Call → Answer × HandleMap
  | .openHandle u =>
    match hu : m.handleOf u with
    | some h => (.int h, m)
    | none =>
      match hfree : m.leastFree with
      | some h => (.int h, m.insert h u (List.mem_range.mp (List.mem_of_find?_eq_some hfree)) hu)
      | none => (.int (-1), m)
  | .close h =>
    match m.lookup h with
    | some u => (.int u, m.erase h.toNat)
    | none => (.int (-1), m)
  | .isOpened h => (.bool (m.lookup h).isSome, m)
  | .getUnixHandle h =>
    match m.lookup h with
    | some u => (.int u, m)
    | none => (.int (-1), m)

/-- The standard input and outputs are open. -/
def initial : HandleMap where
  unixHandle h := if h < 3 then some h else none
  bounded h u hu := by
    split at hu
    · have : tableSize = 100 := rfl
      omega
    · cases hu
  injective h h' u hu hu' := by
    split at hu
    · split at hu'
      · simp only [Option.some.injEq] at hu hu'
        rw [hu, hu']
      · cases hu'
    · cases hu

theorem answer_of_handleOf {u n : ℕ} (h : m.handleOf u = some n) :
    m.answer (.openHandle u) = (.int n, m) := by
  rw [answer]
  split
  · rename_i heq
    rw [h, Option.some.injEq] at heq
    rw [heq]
  · rename_i heq
    rw [h] at heq
    cases heq

theorem answer_of_leastFree {u n : ℕ} (hu : m.handleOf u = none) (hfree : m.leastFree = some n) :
    ∃ hn, m.answer (.openHandle u) = (.int n, m.insert n u hn hu) := by
  refine ⟨List.mem_range.mp (List.mem_of_find?_eq_some hfree), ?_⟩
  rw [answer]
  split
  · rename_i heq
    rw [hu] at heq
    cases heq
  · split
    · rename_i heq
      rw [hfree, Option.some.injEq] at heq
      subst heq
      rfl
    · rename_i heq
      rw [hfree] at heq
      cases heq

theorem answer_of_full {u : ℕ} (hu : m.handleOf u = none) (hfull : m.leastFree = none) :
    m.answer (.openHandle u) = (.int (-1), m) := by
  rw [answer]
  split
  · rename_i heq
    rw [hu] at heq
    cases heq
  · split
    · rename_i heq
      rw [hfull] at heq
      cases heq
    · rfl

end HandleMap

/-! ## The table as a map -/

namespace NachosOpenFilesTable

/-- The open handles of the table are those of the map, with the same Unix handles, and an
element of a free handle is `-1` or was never written. -/
structure Represents (t : NachosOpenFilesTable) (m : HandleMap) : Prop where
  size : t.openFilesMap.numBits = tableSize
  opened : ∀ h < tableSize, t.openFilesMap.marked h = true →
    ∃ u, m.unixHandle h = some u ∧ t.openFiles h = some (u : ℤ)
  free : ∀ h < tableSize, t.openFilesMap.marked h = false →
    m.unixHandle h = none ∧ (t.openFiles h = none ∨ t.openFiles h = some (-1))

/-- The calls that are answered as they are to be: `Open` of another Unix handle than the one
handle `0` stands for, and the others for a number other than `tableSize`; for a handle whose
element was never written, `getUnixHandle` is not called. -/
def Served (t : NachosOpenFilesTable) : Call → Prop
  | .openHandle u => ¬ (t.openFilesMap.marked 0 = true ∧ t.openFiles 0 = some (u : ℤ))
  | .close h => h ≠ tableSize
  | .isOpened h => h ≠ tableSize
  | .getUnixHandle h =>
    h ≠ tableSize ∧ ¬ (0 ≤ h ∧ h < tableSize ∧ t.openFiles h.toNat = none)

instance (t : NachosOpenFilesTable) : (c : Call) → Decidable (t.Served c)
  | .openHandle _ => inferInstanceAs (Decidable (¬ _))
  | .close _ => inferInstanceAs (Decidable (_ ≠ _))
  | .isOpened _ => inferInstanceAs (Decidable (_ ≠ _))
  | .getUnixHandle _ => inferInstanceAs (Decidable (_ ∧ _))

section

variable {t : NachosOpenFilesTable} {m : HandleMap}

theorem new_represents : Represents new HandleMap.initial := by
  have hmarked : ∀ h, new.openFilesMap.marked h = decide (h < 3) := by
    intro h
    show ((((BitMap.new tableSize).markBit 0).markBit 1).markBit 2).marked h = _
    simp only [BitMap.markBit_marked, BitMap.new_marked]
    by_cases h0 : h = 0
    · simp [h0]
    · by_cases h1 : h = 1
      · simp [h1]
      · by_cases h2 : h = 2
        · simp [h2]
        · have : ¬ h < 3 := by omega
          simp [h0, h1, h2, this]
  refine ⟨rfl, fun h _ hm => ⟨h, ?_⟩, fun h _ hm => ?_⟩
  · rw [hmarked, decide_eq_true_eq] at hm
    refine ⟨if_pos hm, ?_⟩
    have hcases : h = 0 ∨ h = 1 ∨ h = 2 := by omega
    rcases hcases with rfl | rfl | rfl <;> rfl
  · rw [hmarked, decide_eq_false_iff_not] at hm
    refine ⟨if_neg hm, ?_⟩
    have hfile : new.openFiles h = memset h := by
      show Function.update (Function.update (Function.update memset 0 (some 0)) 1 (some 1)) 2
        (some 2) h = _
      rw [Function.update_of_ne (by omega), Function.update_of_ne (by omega),
        Function.update_of_ne (by omega)]
    rw [hfile, memset]
    split
    · exact .inr rfl
    · exact .inl rfl

/-- The loop of `Open` ends with the handle of the map, or with `0`. -/
theorem Represents.findHandle (hrep : t.Represents m) (u : ℕ) (is : List ℕ)
    (his : ∀ i ∈ is, i < tableSize) :
    t.findHandle u is = .ok ((is.find? fun h => m.unixHandle h = some u).getD 0) := by
  induction is with
  | nil => rfl
  | cons i is ih =>
    have hi := his i List.mem_cons_self
    have ih := ih fun j hj => his j (List.mem_cons_of_mem i hj)
    have htest : t.openFilesMap.test i = .ok (t.openFilesMap.marked i) :=
      if_pos (by rw [hrep.size]; exact hi)
    rw [NachosOpenFilesTable.findHandle, htest, ok_bind]
    cases hmarked : t.openFilesMap.marked i with
    | false =>
      have hnone := (hrep.free i hi hmarked).1
      rw [List.find?_cons_of_neg (by simp [hnone])]
      exact ih
    | true =>
      obtain ⟨v, hv, hopen⟩ := hrep.opened i hi hmarked
      have hget : t.get i = .ok (v : ℤ) := by
        rw [get, if_pos hi, hopen]
      rw [if_pos rfl, hget, ok_bind]
      by_cases hvu : v = u
      · rw [if_pos (by rw [hvu]), List.find?_cons_of_pos (by rw [hv, hvu]; simp)]
        rfl
      · rw [if_neg (by exact_mod_cast hvu),
          List.find?_cons_of_neg (by rw [hv]; simpa using hvu)]
        exact ih

/-- The first clear bit is the least handle that is free. -/
theorem Represents.firstClear (hrep : t.Represents m) :
    t.openFilesMap.firstClear = m.leastFree := by
  unfold BitMap.firstClear HandleMap.leastFree
  rw [hrep.size]
  refine List.find?_congr fun h hh => ?_
  have hh := List.mem_range.mp hh
  cases hmarked : t.openFilesMap.marked h with
  | false => simp [(hrep.free h hh hmarked).1]
  | true =>
    obtain ⟨u, hu, -⟩ := hrep.opened h hh hmarked
    simp [hu]

/-- What `Open` returns, in terms of the map of handles. -/
theorem Represents.openHandle_eq (hrep : t.Represents m) (u : ℕ) :
    t.openHandle u = if (m.handleOf u).getD 0 ≠ 0 then .ok (((m.handleOf u).getD 0 : ℕ), t)
      else match m.leastFree with
        | none => .ok (-1, t)
        | some n => .ok (n, { t with
            openFiles := Function.update t.openFiles n (some (u : ℤ))
            openFilesMap := t.openFilesMap.markBit n }) := by
  rw [NachosOpenFilesTable.openHandle,
    hrep.findHandle u (List.range tableSize) fun i hi => List.mem_range.mp hi, ok_bind]
  show (if (m.handleOf u).getD 0 ≠ 0 then _ else _) = _
  by_cases hfound : (m.handleOf u).getD 0 ≠ 0
  · rw [if_pos hfound, if_pos hfound]
    rfl
  · rw [if_neg hfound, if_neg hfound, BitMap.find, hrep.firstClear]
    cases hfree : m.leastFree with
    | none => rfl
    | some n =>
      have hn : n < tableSize := List.mem_range.mp (List.mem_of_find?_eq_some hfree)
      simp only [set, if_pos hn]
      rfl

/-- The least free handle is given to a Unix handle. -/
theorem Represents.insert (hrep : t.Represents m) {n u : ℕ} (hn : n < tableSize)
    (hu : m.handleOf u = none) : Represents { t with
      openFiles := Function.update t.openFiles n (some (u : ℤ))
      openFilesMap := t.openFilesMap.markBit n } (m.insert n u hn hu) := by
  refine ⟨hrep.size, fun h hh hmarked => ?_, fun h hh hmarked => ?_⟩
  · show ∃ v, Function.update m.unixHandle n (some u) h = some v ∧
      Function.update t.openFiles n (some (u : ℤ)) h = some (v : ℤ)
    by_cases hhn : h = n
    · rw [hhn, Function.update_self, Function.update_self]
      exact ⟨u, rfl, rfl⟩
    · rw [Function.update_of_ne hhn, Function.update_of_ne hhn]
      refine hrep.opened h hh ?_
      rwa [BitMap.markBit_marked, if_neg hhn] at hmarked
  · rw [BitMap.markBit_marked] at hmarked
    split at hmarked
    · cases hmarked
    · rename_i hhn
      show Function.update m.unixHandle n (some u) h = none ∧
        (Function.update t.openFiles n (some (u : ℤ)) h = none ∨
          Function.update t.openFiles n (some (u : ℤ)) h = some (-1))
      rw [Function.update_of_ne hhn, Function.update_of_ne hhn]
      exact hrep.free h hh hmarked

/-- A handle in range is open in the table exactly when the map has it. -/
theorem Represents.marked_eq (hrep : t.Represents m) {h : ℕ} (hh : h < tableSize) :
    t.openFilesMap.marked h = (m.unixHandle h).isSome := by
  cases hmarked : t.openFilesMap.marked h with
  | false => rw [(hrep.free h hh hmarked).1]; rfl
  | true =>
    obtain ⟨u, hu, -⟩ := hrep.opened h hh hmarked
    rw [hu]
    rfl

/-- `isOpened`, in terms of the map of handles. -/
theorem Represents.isOpened_eq (hrep : t.Represents m) {h : ℤ} (hne : h ≠ tableSize) :
    t.isOpened h = .ok (m.lookup h).isSome := by
  unfold NachosOpenFilesTable.isOpened HandleMap.lookup
  by_cases hneg : h < 0
  · rw [if_pos (.inl hneg), if_pos hneg]
    rfl
  · rw [if_neg hneg]
    by_cases hbig : h > tableSize
    · rw [if_pos (.inr hbig)]
      have hnone : m.unixHandle h.toNat = none := by
        cases hu : m.unixHandle h.toNat with
        | none => rfl
        | some u =>
          have := m.bounded _ u hu
          omega
      rw [hnone]
      rfl
    · have hlt : h.toNat < tableSize := by omega
      rw [if_neg (by omega), BitMap.test, if_pos (by rw [hrep.size]; exact hlt),
        hrep.marked_eq hlt]

/-- What the map has for a number, the table has. -/
theorem Represents.lookup_some (hrep : t.Represents m) {h : ℤ} {u : ℕ}
    (hu : m.lookup h = some u) : 0 ≤ h ∧ h.toNat < tableSize ∧ t.get h.toNat = .ok (u : ℤ) := by
  unfold HandleMap.lookup at hu
  split at hu
  · cases hu
  · have hlt := m.bounded _ u hu
    refine ⟨by omega, hlt, ?_⟩
    obtain ⟨v, hv, hopen⟩ := hrep.opened _ hlt (by rw [hrep.marked_eq hlt, hu]; rfl)
    rw [hu, Option.some.injEq] at hv
    rw [get, if_pos hlt, hopen, hv]

theorem Represents.erase (hrep : t.Represents m) (n : ℕ) : Represents { t with
    openFiles := Function.update t.openFiles n (some (-1))
    openFilesMap := { t.openFilesMap with
      marked := Function.update t.openFilesMap.marked n false } } (m.erase n) := by
  refine ⟨hrep.size, fun h hh hmarked => ?_, fun h hh hmarked => ?_⟩
  · have hmarked : Function.update t.openFilesMap.marked n false h = true := hmarked
    by_cases hhn : h = n
    · rw [hhn, Function.update_self] at hmarked
      cases hmarked
    · show ∃ u, Function.update m.unixHandle n none h = some u ∧
        Function.update t.openFiles n (some (-1)) h = some (u : ℤ)
      rw [Function.update_of_ne hhn] at hmarked ⊢
      rw [Function.update_of_ne hhn]
      exact hrep.opened h hh hmarked
  · have hmarked : Function.update t.openFilesMap.marked n false h = false := hmarked
    show Function.update m.unixHandle n none h = none ∧
      (Function.update t.openFiles n (some (-1)) h = none ∨
        Function.update t.openFiles n (some (-1)) h = some (-1))
    by_cases hhn : h = n
    · rw [hhn, Function.update_self, Function.update_self]
      exact ⟨rfl, .inr rfl⟩
    · rw [Function.update_of_ne hhn] at hmarked
      rw [Function.update_of_ne hhn, Function.update_of_ne hhn]
      exact hrep.free h hh hmarked

/-- What `Close` returns, in terms of the map of handles. -/
theorem Represents.close_eq (hrep : t.Represents m) {h : ℤ} (hne : h ≠ tableSize) :
    t.close h = match m.lookup h with
      | some u => .ok (u, { t with
          openFiles := Function.update t.openFiles h.toNat (some (-1))
          openFilesMap := { t.openFilesMap with
            marked := Function.update t.openFilesMap.marked h.toNat false } })
      | none => .ok (-1, t) := by
  rw [NachosOpenFilesTable.close, hrep.isOpened_eq hne, ok_bind]
  cases hu : m.lookup h with
  | none => rfl
  | some u =>
    obtain ⟨hpos, hlt, hget⟩ := hrep.lookup_some hu
    have hclear : t.openFilesMap.clear h.toNat = .ok { t.openFilesMap with
        marked := Function.update t.openFilesMap.marked h.toNat false } :=
      if_pos (by rw [hrep.size]; exact hlt)
    rw [if_neg (by simp; omega), hget, ok_bind, hclear, ok_bind, set, if_pos hlt]
    rfl

/-- A call that is served is answered by the table as by the map. -/
theorem Represents.answer_served (hrep : t.Represents m) {c : Call} (hserved : t.Served c) :
    ∃ t', t.answer c = .ok ((m.answer c).1, t') ∧ t'.Represents (m.answer c).2 := by
  cases c with
  | openHandle u =>
    rw [answer, hrep.openHandle_eq u]
    cases hu : m.handleOf u with
    | some n =>
      -- `Open` takes handle 0 for not found; here it is not the one of the file
      have hn : n ≠ 0 := by
        rintro rfl
        have hmap : m.unixHandle 0 = some u := by simpa using List.find?_some hu
        have hlt : 0 < tableSize := by decide
        obtain ⟨v, hv, hopen⟩ := hrep.opened 0 hlt (by rw [hrep.marked_eq hlt, hmap]; rfl)
        rw [hmap, Option.some.injEq] at hv
        refine hserved ⟨by rw [hrep.marked_eq hlt, hmap]; rfl, by rw [hopen, hv]⟩
      rw [m.answer_of_handleOf hu, Option.getD_some, if_pos hn]
      exact ⟨t, rfl, hrep⟩
    | none =>
      rw [Option.getD_none, if_neg (not_not.mpr rfl)]
      cases hfree : m.leastFree with
      | none =>
        rw [m.answer_of_full hu hfree]
        exact ⟨t, rfl, hrep⟩
      | some n =>
        obtain ⟨hn, hanswer⟩ := m.answer_of_leastFree hu hfree
        rw [hanswer]
        exact ⟨_, rfl, hrep.insert hn hu⟩
  | close h =>
    rw [answer, hrep.close_eq hserved, HandleMap.answer]
    cases hu : m.lookup h with
    | none => exact ⟨t, rfl, hrep⟩
    | some u => exact ⟨_, rfl, hrep.erase h.toNat⟩
  | isOpened h =>
    rw [answer, hrep.isOpened_eq hserved]
    exact ⟨t, rfl, hrep⟩
  | getUnixHandle h =>
    obtain ⟨hne, hwritten⟩ := hserved
    rw [answer, HandleMap.answer]
    cases hu : m.lookup h with
    | some u =>
      obtain ⟨hpos, hlt, hget⟩ := hrep.lookup_some hu
      rw [NachosOpenFilesTable.getUnixHandle, if_neg (by omega), hget]
      exact ⟨t, rfl, hrep⟩
    | none =>
      -- an entry that is not open holds -1, if nothing else was written there
      have hminus : t.getUnixHandle h = .ok (-1) := by
        unfold NachosOpenFilesTable.getUnixHandle
        split
        · rfl
        · have hlt : h.toNat < tableSize := by omega
          have hnone : m.unixHandle h.toNat = none := by
            rw [HandleMap.lookup, if_neg (by omega)] at hu
            exact hu
          have hfree := hrep.free _ hlt (by rw [hrep.marked_eq hlt, hnone]; rfl)
          rcases hfree.2 with hopen | hopen
          · exact absurd ⟨by omega, by omega, hopen⟩ hwritten
          · rw [get, if_pos hlt, hopen]
      rw [hminus]
      exact ⟨t, rfl, hrep⟩

/-- The handle just past the table fails the assertion. -/
theorem Represents.size_isOpened (hrep : t.Represents m) :
    t.isOpened tableSize = .error .assertion := by
  rw [NachosOpenFilesTable.isOpened, if_neg (by simp), BitMap.test, hrep.size, if_neg (by simp)]

/-- Any other call fails, or is answered in another way. -/
theorem Represents.answer_not_served (hrep : t.Represents m) {c : Call} (hserved : ¬ t.Served c)
    (t' : NachosOpenFilesTable) : t.answer c ≠ .ok ((m.answer c).1, t') := by
  cases c with
  | openHandle u =>
    -- the file is open at handle 0, which the search takes for not found
    obtain ⟨hmarked, hopen⟩ := not_not.mp hserved
    have hlt : 0 < tableSize := by decide
    have hmap : m.unixHandle 0 = some u := by
      obtain ⟨v, hv, hopen'⟩ := hrep.opened 0 hlt hmarked
      rw [hopen, Option.some.injEq] at hopen'
      rw [hv, Int.ofNat.inj hopen']
    have hu : m.handleOf u = some 0 := by
      cases hu : m.handleOf u with
      | none => exact absurd hmap (m.handleOf_eq_none hu 0)
      | some n =>
        have hn : m.unixHandle n = some u := by simpa using List.find?_some hu
        rw [m.injective n 0 u hn hmap]
    rw [m.answer_of_handleOf hu, answer, hrep.openHandle_eq u, hu, Option.getD_some,
      if_neg (not_not.mpr rfl)]
    cases hfree : m.leastFree with
    | none => simp [bind, Except.bind, pure, Except.pure]
    | some n =>
      have hn : m.unixHandle n = none := by simpa using List.find?_some hfree
      have hne : n ≠ 0 := by
        rintro rfl
        rw [hmap] at hn
        cases hn
      simpa [bind, Except.bind, pure, Except.pure] using fun heq => absurd heq hne
  | close h =>
    -- the handle just past the table passes the test of the bound
    rw [not_not.mp hserved, answer, NachosOpenFilesTable.close, hrep.size_isOpened]
    simp
  | isOpened h =>
    rw [not_not.mp hserved, answer, hrep.size_isOpened]
    simp
  | getUnixHandle h =>
    by_cases hsize : h = tableSize
    · rw [hsize, answer, NachosOpenFilesTable.getUnixHandle, if_neg (by simp), get,
        if_neg (by simp)]
      simp
    · have hwritten : 0 ≤ h ∧ h < tableSize ∧ t.openFiles h.toNat = none := by
        by_contra hnot
        exact hserved ⟨hsize, hnot⟩
      obtain ⟨hpos, hlt, hopen⟩ := hwritten
      rw [answer, NachosOpenFilesTable.getUnixHandle, if_neg (by omega), get, if_pos (by omega),
        hopen]
      simp

end

theorem step_eq_ok {t t' : NachosOpenFilesTable} {c : Call} :
    t.step c = .ok t' ↔ ∃ a, t.answer c = .ok (a, t') := by
  rw [step, bind_ok_iff]
  constructor
  · rintro ⟨⟨a, t''⟩, hanswer, h⟩
    exact ⟨a, by rw [hanswer, pure_ok_iff.mp h]⟩
  · rintro ⟨a, hanswer⟩
    exact ⟨(a, t'), hanswer, rfl⟩

/-- A sequence of calls is answered as a partial injective map from the handles to Unix handles
answers it, without using an index out of range, and in the end no two open handles have the
same Unix handle. -/
def Refines (cs : List Call) : Prop :=
  outputs answer new cs = .ok (answers HandleMap.answer HandleMap.initial cs) ∧
  ∀ t, PartialRun.run step new cs = .ok t → ∀ h < tableSize, ∀ h' < tableSize,
    t.openFilesMap.marked h = true → t.openFilesMap.marked h' = true →
    t.openFiles h = t.openFiles h' → h = h'

/-- The table represents a map as long as the calls are served. -/
theorem run_represents {t : NachosOpenFilesTable} {cs : List Call}
    (hserved : Along step Served new cs) (hrun : PartialRun.run step new cs = .ok t) :
    ∃ m, t.Represents m := by
  refine Along.invariant (I := fun t => ∃ m, Represents t m) ?_ ⟨_, new_represents⟩ hserved hrun
  rintro t c t' ⟨m, hrep⟩ hserved hst
  obtain ⟨a, hanswer⟩ := step_eq_ok.mp hst
  obtain ⟨t'', hanswer', hrep'⟩ := hrep.answer_served hserved
  rw [hanswer] at hanswer'
  cases hanswer'
  exact ⟨_, hrep'⟩

/-- The table answers a sequence of calls as it is to do exactly when all of them are served. -/
theorem refines_iff_served (cs : List Call) : Refines cs ↔ Along step Served new cs := by
  have houtputs : outputs answer new cs = .ok (answers HandleMap.answer HandleMap.initial cs) ↔
      Along step Served new cs :=
    outputs_eq_answers_iff (R := Represents) (fun t c _ => step_eq_ok (t := t) (c := c))
      (fun _ _ c hrep hserved => hrep.answer_served (c := c) hserved)
      (fun _ _ c t' hrep hserved => hrep.answer_not_served (c := c) hserved t') new_represents
  refine ⟨fun h => houtputs.mp h.1, fun hserved => ⟨houtputs.mpr hserved, ?_⟩⟩
  intro t hrun h hh h' hh' hmarked hmarked' heq
  obtain ⟨m, hrep⟩ := run_represents hserved hrun
  obtain ⟨u, hu, hopen⟩ := hrep.opened h hh hmarked
  obtain ⟨u', hu', hopen'⟩ := hrep.opened h' hh' hmarked'
  rw [hopen, hopen', Option.some.injEq] at heq
  exact m.injective h h' u hu (by rw [hu', Int.ofNat.inj heq])

/-- `Open(0)` in a new table: handle `3` now stands for Unix handle `0`, as handle `0` does. -/
theorem open_zero_not_refines :
    outputs answer new [.openHandle 0] = .ok [.int 3] ∧
    answers HandleMap.answer HandleMap.initial [.openHandle 0] = [.int 0] ∧
    ¬ ∀ cs, Refines cs := by
  have himpl : outputs answer new [.openHandle 0] = .ok [.int 3] := by decide +kernel
  have hspec : answers HandleMap.answer HandleMap.initial [.openHandle 0] = [.int 0] := by
    decide +kernel
  refine ⟨himpl, hspec, fun h => ?_⟩
  have heq := (h [.openHandle 0]).1
  rw [himpl, hspec] at heq
  exact absurd heq (by decide)

/-- A file is opened, closed and looked up, and another one gets its handle. -/
example : outputs answer new [.openHandle 9, .openHandle 9, .close 3, .getUnixHandle 3,
    .openHandle 12, .isOpened 3, .close (-1)] =
    .ok [.int 3, .int 3, .int 9, .int (-1), .int 3, .bool true, .int (-1)] := by decide +kernel

end NachosOpenFilesTable
end NachOS
