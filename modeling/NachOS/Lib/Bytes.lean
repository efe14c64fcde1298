import Mathlib.Tactic.Common
import Mathlib.Data.Nat.Notation

/-!
# Byte-addressed stores

A store is a function from addresses to bytes; what bounds it has is the business of
whoever owns it. `blit` is the block copy every device here is driven by and `window` is
the block seen from a base address, so that a copy out of one store into another is
`blit dst addr n (window src base)`.
-/

/-- The contents of a byte-addressed store. -/
abbrev Bytes := ℕ → UInt8

namespace Bytes

/-- Overwrite the `n` bytes from `addr` on by the first `n` bytes of `src`. -/
def blit (m : Bytes) (addr n : ℕ) (src : Bytes) : Bytes :=
  fun a => if addr ≤ a ∧ a < addr + n then src (a - addr) else m a

/-- The store seen from the base address `addr`. -/
def window (m : Bytes) (addr : ℕ) : Bytes := fun k => m (addr + k)

/-- Two blocks hold the same first `n` bytes. -/
def EqUpTo (n : ℕ) (p q : Bytes) : Prop := ∀ k < n, p k = q k

theorem EqUpTo.trans {n : ℕ} {p q r : Bytes} (hpq : EqUpTo n p q) (hqr : EqUpTo n q r) :
    EqUpTo n p r := fun k hk => (hpq k hk).trans (hqr k hk)

theorem EqUpTo.symm {n : ℕ} {p q : Bytes} (h : EqUpTo n p q) : EqUpTo n q p :=
  fun k hk => (h k hk).symm

/-- Inside the window the bytes are those of the source. -/
theorem blit_of_mem {m src : Bytes} {addr n a : ℕ} (h₁ : addr ≤ a) (h₂ : a < addr + n) :
    blit m addr n src a = src (a - addr) := by
  rw [blit, if_pos ⟨h₁, h₂⟩]

/-- Below it they are kept. -/
theorem blit_of_lt {m src : Bytes} {addr n a : ℕ} (h : a < addr) : blit m addr n src a = m a := by
  rw [blit, if_neg (by omega)]

/-- And above it. -/
theorem blit_of_ge {m src : Bytes} {addr n a : ℕ} (h : addr + n ≤ a) :
    blit m addr n src a = m a := by
  rw [blit, if_neg (by omega)]

theorem blit_of_not_mem {m src : Bytes} {addr n a : ℕ} (h : ¬ (addr ≤ a ∧ a < addr + n)) :
    blit m addr n src a = m a := if_neg h

@[simp] theorem blit_zero (m src : Bytes) (addr : ℕ) : blit m addr 0 src = m := by
  funext a
  rw [blit, if_neg (by omega)]

/-- The store seen from the block just written. -/
theorem window_blit (m src : Bytes) (addr n k : ℕ) :
    window (blit m addr n src) addr k = if k < n then src k else window m addr k := by
  rw [window]
  split
  · rw [blit_of_mem (by omega) (by omega), Nat.add_sub_cancel_left]
  · rw [blit_of_ge (by omega), window]

/-- The block just written reads back as what was written. -/
theorem window_blit_self (m src : Bytes) (addr n : ℕ) :
    EqUpTo n (window (blit m addr n src) addr) src := by
  intro k hk
  rw [window_blit, if_pos hk]

/-- A block that does not meet the one written is unchanged. -/
theorem window_blit_disjoint (m src : Bytes) {addr n base len : ℕ}
    (h : base + len ≤ addr ∨ addr + n ≤ base) :
    EqUpTo len (window (blit m addr n src) base) (window m base) := by
  intro k hk
  rcases h with h | h
  · rw [window, blit_of_lt (by omega), window]
  · rw [window, blit_of_ge (by omega), window]

end Bytes
