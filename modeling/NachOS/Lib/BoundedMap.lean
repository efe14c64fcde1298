import Mathlib.Data.Finmap

/-!
# Maps of bounded size

A finite map with room for `capacity` keys, whose operations answer whether they did something:
`add` refuses a key that is there and a full map. `latest` reads the value of a key off a history
of operations and answers, and `find_run` says that this is what the map has.
-/

/-! ## Machines that answer -/

namespace Machine

variable {σ τ α β : Type}

/-- The state after a list of inputs. -/
def after (step : σ → α → β × σ) (s : σ) (as : List α) : σ :=
  as.foldl (fun s a => (step s a).2) s

/-- The inputs with their answers. -/
def history (step : σ → α → β × σ) : σ → List α → List (α × β)
  | _, [] => []
  | s, a :: as => (a, (step s a).1) :: history step (step s a).2 as

/-- A simulation that keeps the answers of a step keeps the answers of a run. -/
theorem simulation {step : σ → α → β × σ} {step' : τ → α → β × τ} {R : σ → τ → Prop}
    (hstep : ∀ s t a, R s t → (step s a).1 = (step' t a).1 ∧ R (step s a).2 (step' t a).2)
    (as : List α) {s : σ} {t : τ} (h : R s t) :
    history step s as = history step' t as ∧ R (after step s as) (after step' t as) := by
  induction as generalizing s t with
  | nil => exact ⟨rfl, h⟩
  | cons a as ih =>
    obtain ⟨hanswer, hnext⟩ := hstep s t a h
    obtain ⟨hhistory, hafter⟩ := ih hnext
    refine ⟨?_, hafter⟩
    rw [history, history, hanswer, hhistory]

/-- Inputs that are translated first. -/
theorem history_map {γ : Type} (step : σ → α → β × σ) (f : γ → α) (s : σ) (as : List γ) :
    (history (fun s a => step s (f a)) s as).map (Prod.map f id) = history step s (as.map f) := by
  induction as generalizing s with
  | nil => rfl
  | cons a as ih =>
    rw [history, List.map_cons, List.map_cons, history, ih]
    rfl

theorem after_map {γ : Type} (step : σ → α → β × σ) (f : γ → α) (s : σ) (as : List γ) :
    after (fun s a => step s (f a)) s as = after step s (as.map f) := by
  rw [after, after, List.foldl_map]

end Machine

/-- A finite map with at most `capacity` keys. -/
structure BoundedMap (κ ν : Type) (capacity : ℕ) where
  entries : Finmap fun _ : κ => ν
  card_le : entries.keys.card ≤ capacity

namespace BoundedMap

variable {κ ν : Type} {capacity : ℕ}

/-- The operations that change a map. -/
inductive Op (κ ν : Type) where
  | add (k : κ) (v : ν)
  | remove (k : κ)

def empty : BoundedMap κ ν capacity := ⟨∅, by rw [Finmap.keys_empty]; exact Nat.zero_le _⟩

variable [DecidableEq κ]

def find (m : BoundedMap κ ν capacity) (k : κ) : Option ν := m.entries.lookup k

theorem keys_insert (m : BoundedMap κ ν capacity) (k : κ) (v : ν) :
    (m.entries.insert k v).keys = insert k m.entries.keys := by
  ext k'
  rw [Finmap.mem_keys, Finmap.mem_insert, Finset.mem_insert, Finmap.mem_keys]

/-- A new key, if there is room for it. -/
def add (m : BoundedMap κ ν capacity) (k : κ) (v : ν) : Bool × BoundedMap κ ν capacity :=
  if h : m.find k = none ∧ m.entries.keys.card < capacity then
    (true, ⟨m.entries.insert k v, by
      rw [keys_insert]
      exact (Finset.card_insert_le k m.entries.keys).trans h.2⟩)
  else (false, m)

def remove (m : BoundedMap κ ν capacity) (k : κ) : Bool × BoundedMap κ ν capacity :=
  ((m.find k).isSome, ⟨m.entries.erase k, by
    rw [Finmap.keys_erase]
    exact (Finset.card_erase_le).trans m.card_le⟩)

def step (m : BoundedMap κ ν capacity) : Op κ ν → Bool × BoundedMap κ ν capacity
  | .add k v => m.add k v
  | .remove k => m.remove k

/-- An entry is added exactly if its key is new and there is room. -/
theorem add_fst_iff (m : BoundedMap κ ν capacity) (k : κ) (v : ν) :
    (m.add k v).1 = true ↔ m.find k = none ∧ m.entries.keys.card < capacity := by
  unfold add
  split
  · rename_i h
    simp [h]
  · rename_i h
    simp [h]

/-- An add that is refused changes nothing. -/
theorem add_snd_of_false {m : BoundedMap κ ν capacity} {k : κ} {v : ν}
    (h : (m.add k v).1 = false) : (m.add k v).2 = m := by
  unfold add at h ⊢
  split
  · rename_i hroom
    rw [dif_pos hroom] at h
    cases h
  · rfl

/-- After a remove the key is gone and the others are as before. -/
theorem find_remove (m : BoundedMap κ ν capacity) (k k' : κ) :
    (m.remove k).2.find k' = if k' = k then none else m.find k' := by
  unfold remove find
  split
  · rename_i h
    rw [h]
    exact Finmap.lookup_erase k m.entries
  · rename_i h
    exact Finmap.lookup_erase_ne h

/-- After an add that went well the key has the new value and the others are as before. -/
theorem find_add (m : BoundedMap κ ν capacity) (k k' : κ) (v : ν) :
    (m.add k v).2.find k' =
      if (m.add k v).1 = true ∧ k' = k then some v else m.find k' := by
  unfold add
  split
  · by_cases hk : k' = k
    · rw [if_pos ⟨rfl, hk⟩, hk]
      exact Finmap.lookup_insert m.entries
    · rw [if_neg fun h => hk h.2]
      exact Finmap.lookup_insert_of_ne m.entries hk
  · rw [if_neg fun h => Bool.false_ne_true h.1]

/-! ## Histories -/

/-- What an operation makes of the value of a key. -/
def effect (k : κ) (value : Option ν) : Op κ ν × Bool → Option ν
  | (.add k' v, answer) => if answer = true ∧ k = k' then some v else value
  | (.remove k', _) => if k = k' then none else value

/-- The value that the last successful `add` of a key gave it, if no `remove` came after it. -/
def latest (history : List (Op κ ν × Bool)) (k : κ) : Option ν := history.foldl (effect k) none

/-- What one operation does to one key, given its reply. -/
theorem find_step (m : BoundedMap κ ν capacity) (op : Op κ ν) (k : κ) :
    (m.step op).2.find k = effect k (m.find k) (op, (m.step op).1) := by
  cases op with
  | add k' v => exact find_add m k' k v
  | remove k' => exact find_remove m k' k

/-- A map has the latest values. -/
theorem find_run (ops : List (Op κ ν)) (k : κ) :
    (Machine.after step (empty : BoundedMap κ ν capacity) ops).find k =
      latest (Machine.history step (empty : BoundedMap κ ν capacity) ops) k := by
  have hrun : ∀ (ops : List (Op κ ν)) (m : BoundedMap κ ν capacity),
      (Machine.after step m ops).find k =
        (Machine.history step m ops).foldl (effect k) (m.find k) := by
    intro ops
    induction ops with
    | nil => exact fun m => rfl
    | cons op ops ih =>
      intro m
      rw [Machine.history, List.foldl_cons, ← find_step]
      exact ih (m.step op).2
  exact hrun ops empty

end BoundedMap
