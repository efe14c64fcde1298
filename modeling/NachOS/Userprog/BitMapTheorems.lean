import NachOS.Userprog.BitMap
import Mathlib.Data.Finset.Card
import Mathlib.Data.Finset.Range

/-!
# Taking several bits of a bitmap

What a loop of calls of `Find` takes: distinct bits that were clear, the least ones there are.
-/

namespace NachOS
namespace BitMap

variable {b b' b'' : BitMap} {bits : List ℕ}

/-! ## Clear bits -/

/-- The clear bits below `n`. -/
def clearBits (b : BitMap) (n : ℕ) : Finset ℕ := {i ∈ Finset.range n | b.marked i = false}

/-- The clear bits among the first `n`. -/
theorem mem_clearBits {n i : ℕ} : i ∈ b.clearBits n ↔ i < n ∧ b.marked i = false := by
  simp [clearBits]

/-- `NumClear` counts them. -/
theorem numClear_eq : b.numClear = (b.clearBits b.numBits).card := by
  have hnodup : ((List.range b.numBits).filter fun i => !b.marked i).Nodup :=
    List.nodup_range.filter _
  rw [numClear, List.countP_eq_length_filter, ← List.toFinset_card_of_nodup hnodup]
  congr 1
  ext i
  simp [clearBits]

/-- A bitmap is determined by its size and the bits marked. -/
theorem ext_marked (hbits : b.numBits = b'.numBits)
    (hmarked : ∀ i, b.marked i = true ↔ b'.marked i = true) : b = b' := by
  obtain ⟨n, m⟩ := b
  obtain ⟨n', m'⟩ := b'
  have hm : m = m' := by
    funext i
    exact Bool.eq_iff_iff.mpr (hmarked i)
  simp only [mk.injEq]
  exact ⟨hbits, hm⟩

/-! ## Taking bits -/

/-- `bits` were clear in `b` and are what makes `b'` differ from it; no clear bit was passed
over. -/
structure Taken (b : BitMap) (bits : List ℕ) (b' : BitMap) : Prop where
  numBits : b'.numBits = b.numBits
  nodup : bits.Nodup
  lt : ∀ i ∈ bits, i < b.numBits
  clear : ∀ i ∈ bits, b.marked i = false
  marked : ∀ i, b'.marked i = true ↔ b.marked i = true ∨ i ∈ bits
  least : ∀ i ∈ bits, ∀ j < i, b.marked j = false → j ∈ bits

theorem Taken.nil (b : BitMap) : Taken b [] b where
  numBits := rfl
  nodup := List.nodup_nil
  lt := by simp
  clear := by simp
  marked := by simp
  least := by simp

/-- What `find` returns. -/
theorem find_eq_some {i : ℕ} (h : b.find = (some i, b')) :
    b.firstClear = some i ∧ b' = b.markBit i := by
  unfold find at h
  split at h
  · rename_i hfirst
    simp only [Prod.mk.injEq, Option.some.injEq] at h
    obtain ⟨rfl, rfl⟩ := h
    exact ⟨hfirst, rfl⟩
  · simp at h

/-- `Find` fails when no bit is clear, and then marks none. -/
theorem find_eq_none (h : b.find = (none, b')) : b.firstClear = none ∧ b' = b := by
  unfold find at h
  split at h
  · simp at h
  · rename_i hfirst
    simp only [Prod.mk.injEq, true_and] at h
    exact ⟨hfirst, h.symm⟩

/-- One more call of `Find`. -/
theorem Taken.find {i : ℕ} (h : Taken b bits b') (hfind : b'.find = (some i, b'')) :
    Taken b (bits ++ [i]) b'' := by
  obtain ⟨hfirst, rfl⟩ := find_eq_some hfind
  obtain ⟨hlt, hclear⟩ := firstClear_spec hfirst
  have hold : ∀ j, b'.marked j = false ↔ b.marked j = false ∧ j ∉ bits := by
    intro j
    rw [← Bool.not_eq_true, h.marked]
    simp
  obtain ⟨hclear', hnot⟩ := (hold i).mp hclear
  refine ⟨h.numBits, ?_, ?_, ?_, ?_, ?_⟩
  · rw [List.nodup_append]
    refine ⟨h.nodup, List.nodup_singleton i, ?_⟩
    intro j hj k hk hjk
    rw [List.mem_singleton] at hk
    exact hnot (hk ▸ hjk ▸ hj)
  · intro j hj
    rcases List.mem_append.mp hj with hj | hj
    · exact h.lt j hj
    · rw [List.mem_singleton.mp hj, ← h.numBits]
      exact hlt
  · intro j hj
    rcases List.mem_append.mp hj with hj | hj
    · exact h.clear j hj
    · rw [List.mem_singleton.mp hj]
      exact hclear'
  · intro j
    rw [markBit_marked]
    by_cases hji : j = i
    · simp [hji]
    · rw [if_neg hji, h.marked]
      simp [hji]
  · intro j hj k hk hclear
    rcases List.mem_append.mp hj with hj | hj
    · exact List.mem_append_left _ (h.least j hj k hk hclear)
    · rw [List.mem_singleton] at hj
      -- a clear bit below the one that was found was taken before
      by_contra hnew
      have hkbits : k ∉ bits := fun hk => hnew (List.mem_append_left _ hk)
      have := firstClear_le hfirst ((hold k).mpr ⟨hclear, hkbits⟩)
      omega

/-- Two loops of calls, one after the other. -/
theorem Taken.append {bits' : List ℕ} (h : Taken b bits b') (h' : Taken b' bits' b'') :
    Taken b (bits ++ bits') b'' := by
  have hold : ∀ j, b'.marked j = false ↔ b.marked j = false ∧ j ∉ bits := by
    intro j
    rw [← Bool.not_eq_true, h.marked]
    simp
  refine ⟨h'.numBits.trans h.numBits, ?_, fun i hi => ?_, fun i hi => ?_, fun i => ?_,
    fun i hi j hj hclear => ?_⟩
  · refine List.Nodup.append h.nodup h'.nodup fun i hi hi' => ?_
    exact ((hold i).mp (h'.clear i hi')).2 hi
  · rcases List.mem_append.mp hi with hi | hi
    · exact h.lt i hi
    · rw [← h.numBits]
      exact h'.lt i hi
  · rcases List.mem_append.mp hi with hi | hi
    · exact h.clear i hi
    · exact ((hold i).mp (h'.clear i hi)).1
  · rw [h'.marked, h.marked, List.mem_append, or_assoc]
  · by_cases hold' : j ∈ bits
    · exact List.mem_append_left _ hold'
    · rcases List.mem_append.mp hi with hi | hi
      · exact List.mem_append_left _ (h.least i hi j hj hclear)
      · exact List.mem_append_right _ (h'.least i hi j hj ((hold j).mpr ⟨hclear, hold'⟩))

/-- Each bit taken is one clear bit less. -/
theorem Taken.clearBits (h : Taken b bits b') (n : ℕ) :
    b'.clearBits n = b.clearBits n \ bits.toFinset := by
  ext i
  rw [Finset.mem_sdiff, mem_clearBits, mem_clearBits, List.mem_toFinset, ← Bool.not_eq_true,
    h.marked, ← Bool.not_eq_true]
  tauto

/-- Every bit taken leaves one clear bit less. -/
theorem Taken.numClear (h : Taken b bits b') : b'.numClear + bits.length = b.numClear := by
  have hsub : bits.toFinset ⊆ b.clearBits b.numBits := by
    intro i hi
    rw [List.mem_toFinset] at hi
    exact mem_clearBits.mpr ⟨h.lt i hi, h.clear i hi⟩
  rw [numClear_eq, numClear_eq, h.numBits, h.clearBits, Finset.card_sdiff_of_subset hsub,
    List.toFinset_card_of_nodup h.nodup]
  have := Finset.card_le_card hsub
  rw [List.toFinset_card_of_nodup h.nodup] at this
  omega

/-- The bits taken are below `n` exactly if there were enough clear bits below `n`. -/
theorem Taken.forall_lt_iff (h : Taken b bits b') (n : ℕ) :
    (∀ i ∈ bits, i < n) ↔ bits.length ≤ (b.clearBits n).card := by
  rw [← List.toFinset_card_of_nodup h.nodup]
  constructor
  · intro hlt
    apply Finset.card_le_card
    intro i hi
    rw [List.mem_toFinset] at hi
    exact mem_clearBits.mpr ⟨hlt i hi, h.clear i hi⟩
  · intro hcard i hi
    by_contra hn
    -- all the clear bits below `n` were taken, and `i` too
    have hsub : insert i (b.clearBits n) ⊆ bits.toFinset := by
      intro j hj
      rw [List.mem_toFinset]
      rcases Finset.mem_insert.mp hj with rfl | hj
      · exact hi
      · obtain ⟨hjn, hj⟩ := mem_clearBits.mp hj
        exact h.least i hi j (by omega) hj
    have hnot : i ∉ b.clearBits n := fun hmem => hn (mem_clearBits.mp hmem).1
    have := Finset.card_le_card hsub
    rw [Finset.card_insert_of_notMem hnot] at this
    omega

theorem find_none_numClear (h : b.find = (none, b')) : b.numClear = 0 := by
  obtain ⟨hfirst, -⟩ := find_eq_none h
  rw [numClear_eq, Finset.card_eq_zero, Finset.eq_empty_iff_forall_notMem]
  intro i hi
  obtain ⟨hlt, hclear⟩ := mem_clearBits.mp hi
  rw [firstClear_eq_none.mp hfirst i hlt] at hclear
  cases hclear

/-- `Clear` asserts that the bit exists. -/
theorem clear_eq_ok {i : ℕ} (h : b.clear i = .ok b') :
    i < b.numBits ∧ b' = { b with marked := Function.update b.marked i false } := by
  unfold BitMap.clear at h
  split at h
  · rename_i hlt
    rw [Except.ok.injEq] at h
    exact ⟨hlt, h.symm⟩
  · cases h

end BitMap
end NachOS
