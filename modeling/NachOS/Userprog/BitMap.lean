import NachOS.Machine.Hardware
import Mathlib.Logic.Function.Basic
import Mathlib.Data.List.Basic

/-!
# Bitmaps

`BitMap` of `bitmap.h` as the array of bits it stands for. `Find` scans the bits from `0`
on, so what it returns is the least clear bit; that is all its clients rely on.
-/

namespace NachOS

/-- A bitmap of `numBits` bits. -/
structure BitMap where
  numBits : ℕ
  marked : ℕ → Bool

namespace BitMap

/-- `BitMap::BitMap`: every bit is clear. -/
def new (nitems : ℕ) : BitMap where
  numBits := nitems
  marked := fun _ => false

/-- The bit `which` set. -/
def markBit (b : BitMap) (which : ℕ) : BitMap :=
  { b with marked := Function.update b.marked which true }

/-- `BitMap::Clear`, with its `ASSERT`. -/
def clear (b : BitMap) (which : ℕ) : Except Fault BitMap :=
  if which < b.numBits then .ok { b with marked := Function.update b.marked which false }
  else .error .assertion

/-- `BitMap::Test`, with its `ASSERT`. -/
def test (b : BitMap) (which : ℕ) : Except Fault Bool :=
  if which < b.numBits then .ok (b.marked which) else .error .assertion

/-- The first clear bit, if there is one. -/
def firstClear (b : BitMap) : Option ℕ :=
  (List.range b.numBits).find? fun i => !b.marked i

/-- `BitMap::Find`: the first clear bit, which is set. `none` is the source's `-1`. -/
def find (b : BitMap) : Option ℕ × BitMap :=
  match b.firstClear with
  | some i => (some i, b.markBit i)
  | none => (none, b)

/-- `BitMap::NumClear`. -/
def numClear (b : BitMap) : ℕ := (List.range b.numBits).countP fun i => !b.marked i

@[simp] theorem new_marked (n i : ℕ) : (new n).marked i = false := rfl

@[simp] theorem new_numBits (n : ℕ) : (new n).numBits = n := rfl

@[simp] theorem markBit_numBits (b : BitMap) (i : ℕ) : (b.markBit i).numBits = b.numBits := rfl

theorem markBit_marked (b : BitMap) (i j : ℕ) :
    (b.markBit i).marked j = if j = i then true else b.marked j := by
  simp only [markBit, Function.update_apply]

/-- `firstClear` is a clear bit in range. -/
theorem firstClear_spec {b : BitMap} {i : ℕ} (h : b.firstClear = some i) :
    i < b.numBits ∧ b.marked i = false := by
  unfold firstClear at h
  have hmem := List.mem_of_find?_eq_some h
  have hbit := List.find?_some h
  exact ⟨List.mem_range.mp hmem, by simpa using hbit⟩

/-- No bit below `firstClear` is clear. -/
theorem firstClear_le {b : BitMap} {i j : ℕ} (h : b.firstClear = some i)
    (hclear : b.marked j = false) : i ≤ j := by
  by_contra hlt
  have hji : j < i := by omega
  unfold firstClear at h
  rw [List.find?_eq_some_iff_getElem] at h
  obtain ⟨-, k, hk, hki, hbefore⟩ := h
  rw [List.getElem_range] at hki
  have := hbefore j (by omega)
  simp [List.getElem_range, hclear] at this

/-- Nothing is found exactly when every bit is set. -/
theorem firstClear_eq_none {b : BitMap} :
    b.firstClear = none ↔ ∀ i < b.numBits, b.marked i = true := by
  simp [firstClear, List.find?_eq_none]

end BitMap

end NachOS
