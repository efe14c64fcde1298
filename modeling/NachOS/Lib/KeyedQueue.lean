import Mathlib.Data.List.Sort
import Mathlib.Order.Defs.LinearOrder

/-!
# Queues ordered by a key

Lists of entries with keys, to which an entry is added behind those whose key is not greater and
from which the first one is taken. They stay in the order of the keys, and entries with the same
key stay in the order in which they were added.
-/

namespace KeyedQueue

variable {κ α : Type} [LinearOrder κ] {e : κ × α} {q : List (κ × α)}

/-- Add an entry before the first one with a greater key. -/
def insert (e : κ × α) (q : List (κ × α)) : List (κ × α) :=
  q.orderedInsert (fun e e' => e.1 < e'.1) e

/-- The keys do not decrease. -/
def Ordered (q : List (κ × α)) : Prop := q.Pairwise fun e e' => e.1 ≤ e'.1

/-- An item with a smaller key goes to the front. -/
theorem insert_cons_of_lt {first : κ × α} (h : e.1 < first.1) :
    insert e (first :: q) = e :: first :: q := if_pos h

/-- An item goes behind all those with a smaller key or the same. -/
theorem insert_cons_of_le {first : κ × α} (h : first.1 ≤ e.1) :
    insert e (first :: q) = first :: insert e q := if_neg (not_lt.mpr h)

/-- Inserting adds the item, and nothing else. -/
theorem insert_perm (e : κ × α) (q : List (κ × α)) : (insert e q).Perm (e :: q) :=
  List.perm_orderedInsert _ e q

/-- What is in the queue afterwards. -/
theorem mem_insert {e' : κ × α} : e' ∈ insert e q ↔ e' = e ∨ e' ∈ q :=
  List.mem_orderedInsert _

/-- Behind entries whose keys are not greater. -/
theorem insert_append (h : ∀ e' ∈ q, e'.1 ≤ e.1) (q' : List (κ × α)) :
    insert e (q ++ q') = q ++ insert e q' := by
  induction q with
  | nil => rfl
  | cons first q ih =>
    have hrest : ∀ e' ∈ q, e'.1 ≤ e.1 := fun e' he' => h e' (List.mem_cons_of_mem _ he')
    rw [List.cons_append, insert_cons_of_le (h first (List.mem_cons_self ..)), ih hrest]
    rfl

/-- Taking the first item keeps the order. -/
theorem Ordered.tail (h : Ordered (e :: q)) : Ordered q := (List.pairwise_cons.mp h).2

/-- The first item has the smallest key. -/
theorem Ordered.head_le (h : Ordered (e :: q)) : ∀ e' ∈ e :: q, e.1 ≤ e'.1 := by
  intro e' he'
  rcases List.mem_cons.mp he' with rfl | hmem
  · exact le_rfl
  · exact (List.pairwise_cons.mp h).1 e' hmem

/-- Inserting keeps the order. -/
theorem Ordered.insert (h : Ordered q) (e : κ × α) : Ordered (insert e q) := by
  induction q with
  | nil => exact List.pairwise_singleton _ _
  | cons first q ih =>
    obtain ⟨hfirst, hrest⟩ := List.pairwise_cons.mp h
    by_cases hlt : e.1 < first.1
    · rw [insert_cons_of_lt hlt]
      refine List.pairwise_cons.mpr ⟨fun e' he' => ?_, h⟩
      exact hlt.le.trans (h.head_le e' he')
    · have hle : first.1 ≤ e.1 := not_lt.mp hlt
      rw [insert_cons_of_le hle]
      refine List.pairwise_cons.mpr ⟨fun e' he' => ?_, ih hrest⟩
      rcases mem_insert.mp he' with rfl | hmem
      · exact hle
      · exact hfirst e' hmem

/-- The entries with a key. -/
def withKey (k : κ) (q : List (κ × α)) : List (κ × α) := q.filter fun e => e.1 = k

/-- The items of one key, of one queue behind another. -/
theorem withKey_append (k : κ) (q q' : List (κ × α)) :
    withKey k (q ++ q') = withKey k q ++ withKey k q' := List.filter_append q q'

/-- The items of one key, with the first item apart. -/
theorem withKey_cons (k : κ) (e : κ × α) (q : List (κ × α)) :
    withKey k (e :: q) = withKey k [e] ++ withKey k q := withKey_append k [e] q

/-- Among the entries with one key the new one is the last. -/
theorem withKey_insert (h : Ordered q) (e : κ × α) (k : κ) :
    withKey k (insert e q) = withKey k q ++ withKey k [e] := by
  induction q with
  | nil => rfl
  | cons first q ih =>
    by_cases hlt : e.1 < first.1
    · rw [insert_cons_of_lt hlt, withKey_cons]
      by_cases hk : e.1 = k
      · -- no entry after it has its key
        have hnone : withKey k (first :: q) = [] := by
          apply List.filter_eq_nil_iff.mpr
          intro e' he'
          have hgreater := hlt.trans_le (h.head_le e' he')
          rw [hk] at hgreater
          simpa using hgreater.ne'
        rw [hnone, List.append_nil, List.nil_append]
      · have hnone : withKey k [e] = [] := by simp [withKey, hk]
        rw [hnone, List.append_nil, List.nil_append]
    · rw [insert_cons_of_le (not_lt.mp hlt), withKey_cons, ih h.tail, ← List.append_assoc,
        ← withKey_cons]

end KeyedQueue
