import NachOS.Lib.Bytes
import Mathlib.Logic.Function.Basic

/-!
# Flat memory with pages fetched on first use

The memory a paged machine is meant to look like: one array of bytes, in which the first use
of a page puts its initial contents there. The size of a page is a parameter.
-/

/-- A flat memory, and which of its pages have been used. -/
structure LazyMemory where
  loaded : ℕ → Bool
  data : Bytes

namespace LazyMemory

/-- No page has been used. -/
def empty : LazyMemory where
  loaded := fun _ => false
  data := fun _ => 0

/-- Page `p` is used; `contents` is what it starts with if this is its first use. -/
def touch (m : LazyMemory) (pageSize p : ℕ) (contents : Bytes) : LazyMemory :=
  if m.loaded p = true then m
  else {
    loaded := Function.update m.loaded p true
    data := Bytes.blit m.data (p * pageSize) pageSize contents }

/-- Overwrite `n` bytes. -/
def write (m : LazyMemory) (addr n : ℕ) (bytes : Bytes) : LazyMemory :=
  { m with data := Bytes.blit m.data addr n bytes }

theorem touch_of_loaded {m : LazyMemory} {p : ℕ} (h : m.loaded p = true) (pageSize : ℕ)
    (contents : Bytes) : m.touch pageSize p contents = m := if_pos h

theorem touch_of_not_loaded {m : LazyMemory} {p : ℕ} (h : m.loaded p = false) (pageSize : ℕ)
    (contents : Bytes) : m.touch pageSize p contents = {
      loaded := Function.update m.loaded p true
      data := Bytes.blit m.data (p * pageSize) pageSize contents } :=
  if_neg (by rw [h]; exact Bool.false_ne_true)

/-- The pages that have been used after one more. -/
theorem touch_loaded_iff {m : LazyMemory} {pageSize p v : ℕ} {contents : Bytes} :
    (m.touch pageSize p contents).loaded v = true ↔ v = p ∨ m.loaded v = true := by
  by_cases hp : m.loaded p = true
  · rw [touch_of_loaded hp]
    refine ⟨.inr, ?_⟩
    rintro (rfl | hv)
    · exact hp
    · exact hv
  · rw [touch_of_not_loaded (Bool.eq_false_iff.mpr hp)]
    by_cases hv : v = p
    · simp [hv]
    · simp [hv]

/-- Two blocks of `n` bytes that are aligned to `n` are the same or do not meet. -/
theorem aligned_disjoint {n p q : ℕ} (h : p ≠ q) : q * n + n ≤ p * n ∨ p * n + n ≤ q * n := by
  rcases Nat.lt_or_gt_of_ne h with h | h
  · right
    calc p * n + n = (p + 1) * n := by rw [Nat.succ_mul]
      _ ≤ q * n := Nat.mul_le_mul_right n h
  · left
    calc q * n + n = (q + 1) * n := by rw [Nat.succ_mul]
      _ ≤ p * n := Nat.mul_le_mul_right n h

end LazyMemory
