import Mathlib.Data.Finset.Range
import Mathlib.Data.Finset.Card
import Mathlib.Logic.Function.Basic

/-!
# Chains of cells

Cells in a store that point to one another: which cells are met on the way from one pointer to
another. A way that ends does not meet a cell twice, whatever the store.
-/

namespace Chain

variable {ν : Type} {next : ν → Option ℕ} {heap heap' : ℕ → Option ν} {p q : Option ℕ}
  {cells cells' : List (ℕ × ν)}

/-- The way from `p` meets the cells at their addresses in this order, and then is at `q`. -/
def Leads (next : ν → Option ℕ) (heap : ℕ → Option ν) :
    Option ℕ → List (ℕ × ν) → Option ℕ → Prop
  | p, [], q => p = q
  | p, cell :: cells, q =>
    p = some cell.1 ∧ heap cell.1 = some cell.2 ∧ Leads next heap (next cell.2) cells q

/-- The addresses of the cells. -/
def addresses (cells : List (ℕ × ν)) : List ℕ := cells.map Prod.fst

/-- A chain may be cut at any cell. -/
theorem leads_append : Leads next heap p (cells ++ cells') q ↔
    ∃ r, Leads next heap p cells r ∧ Leads next heap r cells' q := by
  induction cells generalizing p with
  | nil => simp [Leads]
  | cons cell cells ih =>
    simp only [List.cons_append, Leads, ih]
    constructor
    · rintro ⟨hp, hcell, r, hleft, hright⟩
      exact ⟨r, ⟨hp, hcell, hleft⟩, hright⟩
    · rintro ⟨r, ⟨hp, hcell, hleft⟩, hright⟩
      exact ⟨hp, hcell, r, hleft, hright⟩

/-- In particular at its last cell. -/
theorem leads_concat {cell : ℕ × ν} : Leads next heap p (cells ++ [cell]) q ↔
    Leads next heap p cells (some cell.1) ∧ heap cell.1 = some cell.2 ∧ next cell.2 = q := by
  rw [leads_append]
  constructor
  · rintro ⟨r, hleft, rfl, hcell, hq⟩
    exact ⟨hleft, hcell, hq⟩
  · rintro ⟨hleft, hcell, hq⟩
    exact ⟨_, hleft, rfl, hcell, hq⟩

/-- Only the cells on the way matter. -/
theorem Leads.congr (h : Leads next heap p cells q)
    (hsame : ∀ a ∈ addresses cells, heap' a = heap a) : Leads next heap' p cells q := by
  induction cells generalizing p with
  | nil => exact h
  | cons cell cells ih =>
    obtain ⟨hp, hcell, hrest⟩ := h
    refine ⟨hp, (hsame cell.1 (List.mem_cons_self ..)).trans hcell, ih hrest ?_⟩
    intro a ha
    exact hsame a (List.mem_cons_of_mem _ ha)

/-- Writing a cell that is not in the chain keeps the chain. -/
theorem Leads.update (h : Leads next heap p cells q) {a : ℕ} (ha : a ∉ addresses cells)
    (cell : Option ν) : Leads next (Function.update heap a cell) p cells q := by
  apply h.congr
  intro b hb
  have hne : b ≠ a := by
    rintro rfl
    exact ha hb
  exact Function.update_of_ne hne _ _

theorem Leads.mem (h : Leads next heap p cells q) {cell : ℕ × ν} (hcell : cell ∈ cells) :
    heap cell.1 = some cell.2 := by
  induction cells generalizing p with
  | nil => cases hcell
  | cons first cells ih =>
    obtain ⟨-, hfirst, hrest⟩ := h
    rcases List.mem_cons.mp hcell with rfl | hmem
    · exact hfirst
    · exact ih hrest hmem

/-! ## Ways that end -/

/-- A heap holds at most one chain from an address, so the chain is determined by its first cell. -/
theorem Leads.unique (h : Leads next heap p cells none) (h' : Leads next heap p cells' none) :
    cells = cells' := by
  induction cells generalizing p cells' with
  | nil =>
    cases cells' with
    | nil => rfl
    | cons cell cells' =>
      rw [show p = none from h] at h'
      cases h'.1
  | cons cell cells ih =>
    obtain ⟨rfl, hcell, hrest⟩ := h
    cases cells' with
    | nil => cases h'
    | cons cell' cells' =>
      obtain ⟨hp, hcell', hrest'⟩ := h'
      have haddr : cell.1 = cell'.1 := Option.some.inj hp
      have hnode : cell.2 = cell'.2 := by
        rw [haddr, hcell'] at hcell
        exact (Option.some.inj hcell).symm
      rw [hnode] at hrest
      rw [Prod.ext haddr hnode, ih hrest hrest']

/-- From an address that is met again the way does not end. -/
theorem Leads.nodup (h : Leads next heap p cells none) : (addresses cells).Nodup := by
  induction cells generalizing p with
  | nil => exact List.nodup_nil
  | cons cell cells ih =>
    refine List.nodup_cons.mpr ⟨fun hmem => ?_, ih h.2.2⟩
    obtain ⟨cell', hcell', haddr⟩ := List.mem_map.mp hmem
    obtain ⟨before, after, rfl⟩ := List.append_of_mem hcell'
    obtain ⟨r, -, hafter⟩ := leads_append.mp h.2.2
    have hsame : p = r := by
      rw [h.1, hafter.1, haddr]
    have hlength := congrArg List.length ((hsame ▸ h).unique hafter)
    simp at hlength
    omega

theorem length_le_of_nodup {addrs : List ℕ} {n : ℕ} (h : addrs.Nodup) (hlt : ∀ a ∈ addrs, a < n) :
    addrs.length ≤ n := by
  have hsub : addrs.toFinset ⊆ Finset.range n := by
    intro a ha
    exact Finset.mem_range.mpr (hlt a (List.mem_toFinset.mp ha))
  calc addrs.length = addrs.toFinset.card := (List.toFinset_card_of_nodup h).symm
    _ ≤ (Finset.range n).card := Finset.card_le_card hsub
    _ = n := Finset.card_range n

/-- The cell in the middle of a chain occurs in neither half, since a chain has no cycle. -/
theorem leads_cons_of_append {before after : List (ℕ × ν)} {cell : ℕ × ν}
    (h : Leads next heap p (before ++ cell :: after) none) :
    Leads next heap p before (some cell.1) ∧ heap cell.1 = some cell.2 ∧
      Leads next heap (next cell.2) after none ∧ cell.1 ∉ addresses before ∧
      cell.1 ∉ addresses after := by
  obtain ⟨r, hbefore, rfl, hcell, hafter⟩ := leads_append.mp h
  have hnodup := h.nodup
  rw [addresses, List.map_append, List.map_cons, List.nodup_append, List.nodup_cons] at hnodup
  obtain ⟨-, ⟨hnotAfter, -⟩, hdisjoint⟩ := hnodup
  refine ⟨hbefore, hcell, hafter, fun hmem => ?_, hnotAfter⟩
  exact hdisjoint _ hmem _ (List.mem_cons_self ..) rfl

/-- A new cell behind another one, which now points to it. -/
theorem Leads.splice {before after : List (ℕ × ν)} {cell : ℕ × ν} {a : ℕ} {cell' node : ν}
    (h : Leads next heap p (before ++ cell :: after) none)
    (ha : a ∉ addresses (before ++ cell :: after)) (hnew : heap a = some node)
    (hnode : next node = next cell.2) (hcell' : next cell' = some a) :
    Leads next (Function.update heap cell.1 (some cell')) p
      (before ++ (cell.1, cell') :: (a, node) :: after) none := by
  obtain ⟨hbefore, -, hafter, hnotBefore, hnotAfter⟩ := leads_cons_of_append h
  have hne : a ≠ cell.1 := by
    rintro rfl
    exact ha (by simp [addresses])
  refine leads_append.mpr ⟨some cell.1, hbefore.update hnotBefore _, rfl,
    Function.update_self _ _ _, hcell', ?_, ?_⟩
  · exact (Function.update_of_ne hne _ _).trans hnew
  · rw [hnode]
    exact hafter.update hnotAfter _

end Chain
