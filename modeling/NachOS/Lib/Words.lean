import NachOS.Lib.Bytes
import Mathlib.Data.Int.Notation
import Mathlib.Data.Nat.Bitwise

/-!
# Integers and bits in a byte store

The little-endian 32-bit integer at an address, and the bits of the bytes counted from the
lowest bit of the first byte, which is also how they are counted in little-endian words.
-/

namespace Bytes

/-- The 32-bit integer at an address. -/
def int (m : Bytes) (addr : ℕ) : ℤ :=
  ((m addr).toNat + 2 ^ 8 * (m (addr + 1)).toNat + 2 ^ 16 * (m (addr + 2)).toNat
    + 2 ^ 24 * (m (addr + 3)).toNat + 2 ^ 31) % 2 ^ 32 - 2 ^ 31

/-- The bytes of an integer. -/
def ofInt (v : ℤ) : Bytes := fun k => UInt8.ofNat (v / 2 ^ (8 * k) % 2 ^ 8).toNat

/-- Store an integer at an address. -/
def setInt (m : Bytes) (addr : ℕ) (v : ℤ) : Bytes := blit m addr 4 (ofInt v)

/-- Four bytes make a value of an `int`. -/
theorem int_bounds (m : Bytes) (addr : ℕ) : -2 ^ 31 ≤ m.int addr ∧ m.int addr < 2 ^ 31 := by
  unfold int
  omega

/-- The value depends on these bytes only. -/
theorem int_congr {m m' : Bytes} {addr : ℕ} (h : ∀ k < 4, m (addr + k) = m' (addr + k)) :
    m.int addr = m'.int addr := by
  have h₀ : m addr = m' addr := h 0 (by omega)
  rw [int, int, h₀, h 1 (by omega), h 2 (by omega), h 3 (by omega)]

theorem toNat_ofInt (v : ℤ) (k : ℕ) : ((ofInt v k).toNat : ℤ) = v / 2 ^ (8 * k) % 2 ^ 8 := by
  have hlt : (v / 2 ^ (8 * k) % 2 ^ 8).toNat < 2 ^ 8 := by omega
  rw [ofInt, UInt8.toNat_ofNat', Nat.mod_eq_of_lt hlt]
  omega

/-- Byte `k` of a stored value, the lowest first. -/
theorem setInt_apply (m : Bytes) (addr : ℕ) (v : ℤ) {k : ℕ} (hk : k < 4) :
    setInt m addr v (addr + k) = ofInt v k := by
  rw [setInt, blit_of_mem (by omega) (by omega), Nat.add_sub_cancel_left]

theorem setInt_of_lt (m : Bytes) {addr a : ℕ} (v : ℤ) (h : a < addr) :
    setInt m addr v a = m a := blit_of_lt h

theorem setInt_of_ge (m : Bytes) {addr a : ℕ} (v : ℤ) (h : addr + 4 ≤ a) :
    setInt m addr v a = m a := blit_of_ge h

/-- What was stored is read back, if it fits into 32 bits. -/
theorem int_setInt_self (m : Bytes) (addr : ℕ) {v : ℤ} (hmin : -2 ^ 31 ≤ v) (hmax : v < 2 ^ 31) :
    (setInt m addr v).int addr = v := by
  have h₀ := setInt_apply m addr v (k := 0) (by omega)
  have h₁ := setInt_apply m addr v (k := 1) (by omega)
  have h₂ := setInt_apply m addr v (k := 2) (by omega)
  have h₃ := setInt_apply m addr v (k := 3) (by omega)
  rw [Nat.add_zero] at h₀
  rw [int, h₀, h₁, h₂, h₃, toNat_ofInt, toNat_ofInt, toNat_ofInt, toNat_ofInt]
  -- the four bytes make up `v` modulo `2 ^ 32`
  omega

/-- Storing an integer leaves those apart from it alone. -/
theorem int_setInt_of_disjoint (m : Bytes) {addr addr' : ℕ} (v : ℤ)
    (h : addr' + 4 ≤ addr ∨ addr + 4 ≤ addr') : (setInt m addr v).int addr' = m.int addr' := by
  apply int_congr
  intro k hk
  rcases h with h | h
  · exact setInt_of_lt m v (by omega)
  · exact setInt_of_ge m v (by omega)

attribute [irreducible] int

/-! ## Bits -/

/-- Bit `i` of a store. -/
def bit (m : Bytes) (i : ℕ) : Bool := (m (i / 8)).toNat.testBit (i % 8)

/-- The store with the given bits. -/
def ofBits (f : ℕ → Bool) : Bytes := fun j => UInt8.ofNat (Nat.ofBits fun k : Fin 8 => f (8 * j + k))

theorem bit_ofBits (f : ℕ → Bool) (i : ℕ) : (ofBits f).bit i = f i := by
  have hlt : (Nat.ofBits fun k : Fin 8 => f (8 * (i / 8) + k)) < 2 ^ 8 := Nat.ofBits_lt_two_pow _
  rw [bit, ofBits, UInt8.toNat_ofNat', Nat.mod_eq_of_lt hlt,
    Nat.testBit_ofBits_lt _ _ (Nat.mod_lt i (by omega))]
  congr 1
  exact Nat.div_add_mod i 8

/-- A bit depends on its byte only. -/
theorem bit_congr {m m' : Bytes} {i : ℕ} (h : m (i / 8) = m' (i / 8)) : m.bit i = m'.bit i := by
  rw [bit, bit, h]

end Bytes
