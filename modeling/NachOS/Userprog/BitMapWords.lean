import NachOS.Userprog.BitMapTheorems
import NachOS.Lib.Run
import Mathlib.Data.List.Induction

/-!
# The words of a bitmap

`bitmap.cc` with its array of words, which nobody sets before the constructor clears the bits one
by one. The operations do what they do on the bits, and so on the set of the indices that were set.
-/

namespace NachOS

open PartialRun

/-- `BitsInWord`. -/
def bitsInWord : ℕ := 32

/-- `BitMap` with its words. -/
structure BitMapWords where
  numBits : ℤ
  numWords : ℤ
  map : ℕ → BitVec 32

namespace BitMapWords

/-- `1 << k`, as the bits of an `int`. -/
def shifted (k : ℤ) : BitVec 32 := 1 <<< k.toNat

/-- `map[i]`. -/
def word (m : BitMapWords) (i : ℤ) : Except Fault (BitVec 32) :=
  if 0 ≤ i ∧ i < m.numWords then .ok (m.map i.toNat) else .error .buffer

/-- `map[i] = w`. -/
def setWord (m : BitMapWords) (i : ℤ) (w : BitVec 32) : Except Fault BitMapWords :=
  if 0 ≤ i ∧ i < m.numWords then .ok { m with map := Function.update m.map i.toNat w }
  else .error .buffer

/-- `Mark`. -/
def mark (m : BitMapWords) (which : ℤ) : Except Fault BitMapWords :=
  if 0 ≤ which ∧ which < m.numBits then do
    let w ← m.word (which.tdiv bitsInWord)
    m.setWord (which.tdiv bitsInWord) (w ||| shifted (which.tmod bitsInWord))
  else .error .assertion

/-- `Clear`. -/
def clear (m : BitMapWords) (which : ℤ) : Except Fault BitMapWords :=
  if 0 ≤ which ∧ which < m.numBits then do
    let w ← m.word (which.tdiv bitsInWord)
    m.setWord (which.tdiv bitsInWord) (w &&& ~~~ shifted (which.tmod bitsInWord))
  else .error .assertion

/-- `Test`. -/
def test (m : BitMapWords) (which : ℤ) : Except Fault Bool :=
  if 0 ≤ which ∧ which < m.numBits then do
    let w ← m.word (which.tdiv bitsInWord)
    return decide (w &&& shifted (which.tmod bitsInWord) ≠ 0)
  else .error .assertion

/-- The values that the variable `i` of a loop takes. -/
def indices (m : BitMapWords) : List ℕ := List.range m.numBits.toNat

/-- `BitMap::BitMap`, with what is in the words before. -/
def new (nitems : ℤ) (garbage : ℕ → BitVec 32) : Except Fault BitMapWords :=
  let m : BitMapWords := ⟨nitems, divRoundUp nitems bitsInWord, garbage⟩
  m.indices.foldlM (fun m (i : ℕ) => m.clear i) m

/-- The loop of `Find`. -/
def findLoop (m : BitMapWords) : List ℕ → Except Fault (ℤ × BitMapWords)
  | [] => .ok (-1, m)
  | i :: is => do
    let used ← m.test i
    if used then findLoop m is
    else do
      let m ← m.mark i
      return ((i : ℤ), m)

/-- `Find`. -/
def find (m : BitMapWords) : Except Fault (ℤ × BitMapWords) := m.findLoop m.indices

/-- `NumClear`. -/
def numClear (m : BitMapWords) : Except Fault ℤ :=
  m.indices.foldlM (fun count (i : ℕ) => do
    let used ← m.test i
    return if used then count else count + 1) 0

/-- The operations. -/
inductive Op where
  | mark (which : ℤ)
  | clear (which : ℤ)
  | test (which : ℤ)
  | find
  | numClear
deriving DecidableEq, Repr

/-- What they return. -/
inductive Answer where
  | done
  | bool (b : Bool)
  | int (n : ℤ)
deriving DecidableEq, Repr

/-- An operation with its answer. -/
def step (m : BitMapWords) : Op → Except Fault (Answer × BitMapWords)
  | .mark which => do
    let m ← m.mark which
    return (.done, m)
  | .clear which => do
    let m ← m.clear which
    return (.done, m)
  | .test which => do
    let b ← m.test which
    return (.bool b, m)
  | .find => do
    let found ← m.find
    return (.int found.1, found.2)
  | .numClear => do
    let n ← m.numClear
    return (.int n, m)

/-! ## One bit -/

section Bits

variable {m : BitMapWords} {b : BitMap}

/-- The words hold the bits of a bitmap. -/
structure Represents (m : BitMapWords) (b : BitMap) : Prop where
  numBits_eq : m.numBits = b.numBits
  numWords_eq : m.numWords = divRoundUp b.numBits bitsInWord
  bits : ∀ i < b.numBits, (m.map (i / 32)).getLsbD (i % 32) = b.marked i

/-- `1 << k` has the one bit `k`. -/
theorem shifted_eq (k : ℕ) : shifted k = BitVec.twoPow 32 k := (BitVec.twoPow_eq 32 k).symm

/-- The bits of `1 << k`. -/
theorem getLsbD_shifted (k : ℕ) {j : ℕ} (hj : j < 32) :
    (shifted k).getLsbD j = decide (k = j) := by
  rw [shifted_eq, BitVec.getLsbD_twoPow]
  by_cases h : k = j
  · simp [h, hj]
  · simp [h]

/-- `map[which / BitsInWord] & (1 << k)` is not zero if bit `k` is set. -/
theorem and_shifted_ne_zero_iff (w : BitVec 32) {k : ℕ} (hk : k < 32) :
    w &&& shifted k ≠ 0 ↔ w.getLsbD k = true := by
  rw [shifted_eq, BitVec.and_twoPow]
  have hne : BitVec.twoPow 32 k ≠ 0 := by
    intro h
    have hbit := congrArg (fun v => v.getLsbD k) h
    rw [BitVec.getLsbD_twoPow] at hbit
    simp [hk] at hbit
  by_cases h : w.getLsbD k
  · rw [if_pos h]
    exact ⟨fun _ => h, fun _ => hne⟩
  · rw [if_neg h]
    exact ⟨fun hzero => absurd rfl hzero, fun hset => absurd hset h⟩

/-- The index of the word and the place in it. -/
theorem index_eq (i : ℕ) :
    (i : ℤ).tdiv bitsInWord = ((i / 32 : ℕ) : ℤ) ∧ (i : ℤ).tmod bitsInWord = ((i % 32 : ℕ) : ℤ) :=
  ⟨rfl, rfl⟩

/-- Every bit of the map is in one of its words. -/
theorem word_lt {n i : ℕ} (h : i < n) : ((i / 32 : ℕ) : ℤ) < divRoundUp n bitsInWord := by
  have hdiv : (n : ℤ).tdiv bitsInWord = ((n / 32 : ℕ) : ℤ) := rfl
  have hmod : (n : ℤ).tmod bitsInWord = ((n % 32 : ℕ) : ℤ) := rfl
  rw [divRoundUp, hdiv, hmod]
  split_ifs with hrest
  · omega
  · omega

/-- The word of a bit can be read. -/
theorem Represents.word_eq (h : m.Represents b) {i : ℕ} (hi : i < b.numBits) :
    m.word ((i / 32 : ℕ) : ℤ) = .ok (m.map (i / 32)) := by
  have hlt := word_lt hi
  rw [← h.numWords_eq] at hlt
  rw [word, if_pos ⟨Int.natCast_nonneg _, hlt⟩, Int.toNat_natCast]

/-- The word of a bit can be written. -/
theorem Represents.setWord_eq (h : m.Represents b) {i : ℕ} (hi : i < b.numBits) (w : BitVec 32) :
    m.setWord ((i / 32 : ℕ) : ℤ) w = .ok { m with map := Function.update m.map (i / 32) w } := by
  have hlt := word_lt hi
  rw [← h.numWords_eq] at hlt
  rw [setWord, if_pos ⟨Int.natCast_nonneg _, hlt⟩, Int.toNat_natCast]

/-- The assertion of `Mark`, `Clear` and `Test` holds for every bit of the map. -/
theorem Represents.inRange (h : m.Represents b) {i : ℕ} (hi : i < b.numBits) :
    (0 : ℤ) ≤ i ∧ (i : ℤ) < m.numBits :=
  ⟨Int.natCast_nonneg i, by rw [h.numBits_eq]; exact Int.ofNat_lt.mpr hi⟩

/-- A word with another bit in one place. -/
theorem Represents.update (h : m.Represents b) {i : ℕ} {w : BitVec 32} {bit : Bool}
    (hself : w.getLsbD (i % 32) = bit)
    (hother : ∀ j < 32, j ≠ i % 32 → w.getLsbD j = (m.map (i / 32)).getLsbD j) :
    Represents { m with map := Function.update m.map (i / 32) w }
      { b with marked := Function.update b.marked i bit } where
  numBits_eq := h.numBits_eq
  numWords_eq := h.numWords_eq
  bits := by
    intro j hj
    dsimp only at hj ⊢
    by_cases heq : j = i
    · rw [heq, Function.update_self, Function.update_self, hself]
    · rw [Function.update_of_ne heq]
      by_cases hword : j / 32 = i / 32
      · have hplace : j % 32 ≠ i % 32 := by omega
        rw [hword, Function.update_self, hother _ (by omega) hplace, ← hword]
        exact h.bits j hj
      · rw [Function.update_of_ne hword]
        exact h.bits j hj

/-! ## The operations on the bits -/

/-- `Mark` sets the bit, and no other bit of its word or of another one. -/
theorem Represents.mark (h : m.Represents b) {i : ℕ} (hi : i < b.numBits) :
    ∃ m', m.mark i = .ok m' ∧ m'.Represents (b.markBit i) := by
  have hplace : i % 32 < 32 := Nat.mod_lt _ (by omega)
  refine ⟨_, ?_, h.update (w := m.map (i / 32) ||| shifted ((i % 32 : ℕ) : ℤ)) ?_ ?_⟩
  · rw [BitMapWords.mark, if_pos (h.inRange hi), (index_eq i).1, (index_eq i).2, h.word_eq hi,
      ok_bind, h.setWord_eq hi]
  · rw [BitVec.getLsbD_or, getLsbD_shifted _ hplace, decide_eq_true rfl, Bool.or_true]
  · intro j hj hne
    rw [BitVec.getLsbD_or, getLsbD_shifted _ hj, decide_eq_false hne.symm, Bool.or_false]

/-- `Clear` clears the bit, and no other one. -/
theorem Represents.clear (h : m.Represents b) {i : ℕ} (hi : i < b.numBits) :
    ∃ m' b', m.clear i = .ok m' ∧ b.clear i = .ok b' ∧ m'.Represents b' := by
  have hplace : i % 32 < 32 := Nat.mod_lt _ (by omega)
  refine ⟨_, _, ?_, if_pos hi,
    h.update (w := m.map (i / 32) &&& ~~~ shifted ((i % 32 : ℕ) : ℤ)) ?_ ?_⟩
  · rw [BitMapWords.clear, if_pos (h.inRange hi), (index_eq i).1, (index_eq i).2, h.word_eq hi,
      ok_bind, h.setWord_eq hi]
  · rw [BitVec.getLsbD_and, BitVec.getLsbD_not, getLsbD_shifted _ hplace, decide_eq_true rfl,
      Bool.not_true, Bool.and_false, Bool.and_false]
  · intro j hj hne
    rw [BitVec.getLsbD_and, BitVec.getLsbD_not, getLsbD_shifted _ hj, decide_eq_false hne.symm,
      Bool.not_false, decide_eq_true hj, Bool.and_true, Bool.and_true]

/-- `Test` reads the bit. -/
theorem Represents.test (h : m.Represents b) {i : ℕ} (hi : i < b.numBits) :
    m.test i = .ok (b.marked i) := by
  have hplace : i % 32 < 32 := Nat.mod_lt _ (by omega)
  rw [BitMapWords.test, if_pos (h.inRange hi), (index_eq i).1, (index_eq i).2, h.word_eq hi,
    ok_bind, ← h.bits i hi]
  congr 1
  rw [Bool.eq_iff_iff, decide_eq_true_iff]
  exact and_shifted_ne_zero_iff _ hplace

/-- Only the bits below `numBits` matter, not the rest of the last word. -/
theorem Represents.congr {b' : BitMap} (h : m.Represents b) (hbits : b'.numBits = b.numBits)
    (hmarked : ∀ i < b.numBits, b'.marked i = b.marked i) : m.Represents b' where
  numBits_eq := by rw [h.numBits_eq, hbits]
  numWords_eq := by rw [h.numWords_eq, hbits]
  bits := by
    intro i hi
    rw [hbits] at hi
    rw [h.bits i hi, hmarked i hi]

/-- The loops visit every bit once, in order. -/
theorem Represents.indices_eq (h : m.Represents b) : m.indices = List.range b.numBits := by
  rw [indices, h.numBits_eq, Int.toNat_natCast]

/-- The loop of the constructor. -/
theorem Represents.clearAll (h : m.Represents b) {is : List ℕ} (his : ∀ i ∈ is, i < b.numBits) :
    ∃ m', is.foldlM (fun m (i : ℕ) => BitMapWords.clear m i) m = .ok m' ∧
      m'.Represents { b with marked := fun i => if i ∈ is then false else b.marked i } := by
  induction is generalizing m b with
  | nil => exact ⟨m, rfl, by simpa using h⟩
  | cons i is ih =>
    have hi := his i List.mem_cons_self
    obtain ⟨m₁, b₁, hclear, hclear', h₁⟩ := h.clear hi
    rw [BitMap.clear, if_pos hi, Except.ok.injEq] at hclear'
    subst hclear'
    obtain ⟨m', hloop, h'⟩ := ih h₁ fun j hj => his j (List.mem_cons_of_mem i hj)
    refine ⟨m', by rw [List.foldlM_cons, hclear, ok_bind, hloop], h'.congr rfl ?_⟩
    intro j _
    by_cases heq : j = i
    · simp [heq]
    · simp [heq]

/-- Whatever the words are, every bit is clear. -/
theorem new_represents (n : ℕ) (garbage : ℕ → BitVec 32) :
    ∃ m, new n garbage = .ok m ∧ m.Represents (BitMap.new n) := by
  have hstart : Represents ⟨n, divRoundUp n bitsInWord, garbage⟩
      ⟨n, fun i => (garbage (i / 32)).getLsbD (i % 32)⟩ := ⟨rfl, rfl, fun _ _ => rfl⟩
  have hrange : ∀ i ∈ List.range n, i < n := fun i hi => List.mem_range.mp hi
  obtain ⟨m, hloop, h⟩ := hstart.clearAll hrange
  refine ⟨m, ?_, h.congr rfl ?_⟩
  · rw [new, hstart.indices_eq]
    exact hloop
  · intro i hi
    have hmem : i ∈ List.range n := List.mem_range.mpr hi
    simp [hmem]

/-- The loop of `Find` marks the first clear bit that it comes to, if there is one. -/
theorem Represents.findLoop (h : m.Represents b) {is : List ℕ} (his : ∀ i ∈ is, i < b.numBits) :
    (∀ i, is.find? (fun i => !b.marked i) = some i →
      ∃ m', BitMapWords.findLoop m is = .ok ((i : ℤ), m') ∧ m'.Represents (b.markBit i)) ∧
    (is.find? (fun i => !b.marked i) = none → BitMapWords.findLoop m is = .ok (-1, m)) := by
  induction is with
  | nil =>
    refine ⟨fun i hi => ?_, fun _ => rfl⟩
    cases hi
  | cons i is ih =>
    have hi := his i List.mem_cons_self
    have hrest := ih fun j hj => his j (List.mem_cons_of_mem i hj)
    rw [BitMapWords.findLoop, h.test hi, ok_bind, List.find?_cons]
    cases hmarked : b.marked i with
    | true => simpa using hrest
    | false =>
      obtain ⟨m', hmark, hafter⟩ := h.mark hi
      refine ⟨fun j hj => ?_, fun hnone => by cases hnone⟩
      obtain rfl : i = j := by simpa using hj
      exact ⟨m', by simp [hmark], hafter⟩

/-- `Find` marks and returns the first clear bit, and returns `-1` if all bits are set. -/
theorem Represents.find (h : m.Represents b) :
    (∀ i, b.firstClear = some i →
      ∃ m', BitMapWords.find m = .ok ((i : ℤ), m') ∧ m'.Represents (b.markBit i)) ∧
    (b.firstClear = none → BitMapWords.find m = .ok (-1, m)) := by
  rw [BitMapWords.find, h.indices_eq, BitMap.firstClear]
  exact h.findLoop fun i hi => List.mem_range.mp hi

/-- The loop of `NumClear` adds the clear bits that it comes to. -/
theorem Represents.numClearLoop (h : m.Represents b) {is : List ℕ}
    (his : ∀ i ∈ is, i < b.numBits) (count : ℤ) :
    is.foldlM (fun count (i : ℕ) => do
        let used ← BitMapWords.test m i
        return if used then count else count + 1) count =
      .ok (count + ((is.countP fun i => !b.marked i : ℕ) : ℤ)) := by
  induction is generalizing count with
  | nil => simp [pure, Except.pure]
  | cons i is ih =>
    have hrest := fun c => ih (fun j hj => his j (List.mem_cons_of_mem i hj)) c
    rw [List.foldlM_cons, h.test (his i List.mem_cons_self), ok_bind]
    cases hmarked : b.marked i with
    | true => simpa [hmarked, pure, Except.pure] using hrest count
    | false =>
      have hsum : count + ((is.countP (fun i => !b.marked i) + 1 : ℕ) : ℤ) =
          count + 1 + (is.countP (fun i => !b.marked i) : ℕ) := by omega
      rw [List.countP_cons_of_pos (by simp [hmarked]), hsum]
      exact hrest (count + 1)

/-- `NumClear` counts the clear bits. -/
theorem Represents.numClear (h : m.Represents b) :
    BitMapWords.numClear m = .ok (b.numClear : ℤ) := by
  rw [BitMapWords.numClear, h.indices_eq, h.numClearLoop (fun i hi => List.mem_range.mp hi),
    Int.zero_add, BitMap.numClear]

end Bits

/-! ## Histories -/

/-- The operation sets the bit. -/
def Sets (i : ℤ) (e : Op × Answer) : Prop := e.1 = .mark i ∨ e.1 = .find ∧ e.2 = .int i

/-- The bit was marked or returned by `Find`, and was not cleared since. -/
def Held (history : List (Op × Answer)) (i : ℤ) : Prop :=
  ∃ before e after, history = before ++ e :: after ∧ Sets i e ∧ ∀ e' ∈ after, e'.1 ≠ .clear i

/-- Nothing is held before anything was called. -/
theorem not_held_nil (i : ℤ) : ¬ Held [] i := by
  intro h
  obtain ⟨before, e, after, heq, -⟩ := h
  simp at heq

/-- What is held after one more call: what it sets, and what was held and is not cleared. -/
theorem held_concat {history : List (Op × Answer)} {e : Op × Answer} {i : ℤ} :
    Held (history ++ [e]) i ↔ Sets i e ∨ Held history i ∧ e.1 ≠ .clear i := by
  constructor
  · intro h
    obtain ⟨before, e', after, heq, hsets, hafter⟩ := h
    rcases List.eq_nil_or_concat after with rfl | hconcat
    · obtain ⟨-, rfl⟩ := List.append_inj' heq rfl |>.imp_right List.singleton_inj.mp
      exact .inl hsets
    · obtain ⟨after, last, rfl⟩ := hconcat
      rw [List.concat_eq_append, ← List.cons_append, ← List.append_assoc] at heq
      obtain ⟨rfl, hlast⟩ := List.append_inj' heq rfl
      obtain rfl := List.singleton_inj.mp hlast
      rw [List.concat_eq_append] at hafter
      exact .inr ⟨⟨before, e', after, rfl, hsets,
        fun e'' he'' => hafter e'' (List.mem_append_left _ he'')⟩, hafter e (by simp)⟩
  · intro h
    rcases h with hsets | hheld
    · exact ⟨history, e, [], rfl, hsets, by simp⟩
    · obtain ⟨⟨before, e', after, rfl, hsets, hafter⟩, hclear⟩ := hheld
      refine ⟨before, e', after ++ [e], by simp, hsets, ?_⟩
      intro e'' he''
      rcases List.mem_append.mp he'' with hmem | hmem
      · exact hafter e'' hmem
      · rw [List.mem_singleton.mp hmem]
        exact hclear

/-! ## Runs -/

/-- The argument is an index of the bitmap. -/
def Op.InRange (nitems : ℤ) : Op → Prop
  | .mark which => 0 ≤ which ∧ which < nitems
  | .clear which => 0 ≤ which ∧ which < nitems
  | .test which => 0 ≤ which ∧ which < nitems
  | .find => True
  | .numClear => True

/-- The bitmap after an operation. -/
def next (m : BitMapWords) (op : Op) : Except Fault BitMapWords := do
  let after ← m.step op
  return after.2

/-- The set bits are those that the history says. -/
def Follows (n : ℕ) (history : List (Op × Answer)) (m : BitMapWords) : Prop :=
  ∃ b, m.Represents b ∧ b.numBits = n ∧ ∀ i < n, b.marked i = true ↔ Held history i

section Runs

variable {m : BitMapWords} {n : ℕ} {history : List (Op × Answer)} {ops : List Op}

/-- `Mark` adds its argument. -/
theorem held_mark {k i : ℕ} : Held (history ++ [(.mark k, .done)]) i ↔ i = k ∨ Held history i := by
  rw [held_concat]
  simp only [Sets, Op.mark.injEq, Int.natCast_inj, reduceCtorEq, false_and, or_false, ne_eq,
    not_false_eq_true, and_true, eq_comm]

/-- `Clear` removes its argument. -/
theorem held_clear {k i : ℕ} :
    Held (history ++ [(.clear k, .done)]) i ↔ i ≠ k ∧ Held history i := by
  rw [held_concat]
  simp only [Sets, Op.clear.injEq, Int.natCast_inj, reduceCtorEq, false_and, or_false, false_or,
    ne_eq, and_comm, eq_comm]

/-- `Find` adds what it returns. -/
theorem held_find {k : ℤ} {i : ℕ} :
    Held (history ++ [(.find, .int k)]) i ↔ (i : ℤ) = k ∨ Held history i := by
  rw [held_concat]
  simp [Sets, eq_comm]

/-- `Test` changes nothing. -/
theorem held_test {k : ℤ} {i : ℕ} {b : Bool} :
    Held (history ++ [(.test k, .bool b)]) i ↔ Held history i := by
  rw [held_concat]
  simp [Sets]

/-- `NumClear` changes nothing. -/
theorem held_numClear {k : ℤ} {i : ℕ} :
    Held (history ++ [(.numClear, .int k)]) i ↔ Held history i := by
  rw [held_concat]
  simp [Sets]

/-- One call keeps the map and the set that the calls so far stand for in step. -/
theorem Follows.step (h : Follows n history m) {op : Op} (hop : op.InRange n) :
    ∃ answer m', m.step op = .ok (answer, m') ∧ Follows n (history ++ [(op, answer)]) m' := by
  obtain ⟨b, hrep, hbits, hheld⟩ := h
  -- each call is that of the bitmap below, and its answer goes to the history
  have hindex : ∀ which : ℤ, 0 ≤ which ∧ which < n → ∃ k : ℕ, which = k ∧ k < b.numBits := by
    intro which hwhich
    exact ⟨which.toNat, by omega, by omega⟩
  cases op with
  | mark which =>
    obtain ⟨k, rfl, hk⟩ := hindex which hop
    obtain ⟨m', hmark, hafter⟩ := hrep.mark hk
    refine ⟨.done, m', by rw [BitMapWords.step, hmark]; rfl, b.markBit k, hafter, hbits, ?_⟩
    intro i hi
    rw [held_mark, BitMap.markBit_marked, ← hheld i hi]
    by_cases heq : i = k
    · simp [heq]
    · simp [heq]
  | clear which =>
    obtain ⟨k, rfl, hk⟩ := hindex which hop
    obtain ⟨m', b', hclear, hclear', hafter⟩ := hrep.clear hk
    rw [BitMap.clear, if_pos hk, Except.ok.injEq] at hclear'
    subst hclear'
    refine ⟨.done, m', by rw [BitMapWords.step, hclear]; rfl, _, hafter, hbits, ?_⟩
    intro i hi
    rw [held_clear, ← hheld i hi]
    by_cases heq : i = k
    · simp [heq]
    · simp [heq]
  | test which =>
    obtain ⟨k, rfl, hk⟩ := hindex which hop
    refine ⟨.bool (b.marked k), m, by rw [BitMapWords.step, hrep.test hk]; rfl, b, hrep, hbits, ?_⟩
    intro i hi
    rw [held_test, hheld i hi]
  | find =>
    cases hfirst : b.firstClear with
    | none =>
      refine ⟨.int (-1), m, by rw [BitMapWords.step, hrep.find.2 hfirst]; rfl, b, hrep, hbits, ?_⟩
      intro i hi
      rw [held_find, ← hheld i hi]
      exact (or_iff_right (by omega)).symm
    | some k =>
      obtain ⟨m', hfind, hafter⟩ := hrep.find.1 k hfirst
      refine ⟨.int k, m', by rw [BitMapWords.step, hfind]; rfl, b.markBit k, hafter, hbits, ?_⟩
      intro i hi
      rw [held_find, BitMap.markBit_marked, ← hheld i hi, Int.natCast_inj]
      by_cases heq : i = k
      · simp [heq]
      · simp [heq]
  | numClear =>
    refine ⟨.int b.numClear, m, by rw [BitMapWords.step, hrep.numClear]; rfl, b, hrep, hbits, ?_⟩
    intro i hi
    rw [held_numClear, hheld i hi]

/-- The same for any number of calls. -/
theorem Follows.run (h : Follows n history m) (hops : ∀ op ∈ ops, op.InRange n) :
    ∃ m' answers, run next m ops = .ok m' ∧ outputs BitMapWords.step m ops = .ok answers ∧
      Follows n (history ++ ops.zip answers) m' := by
  induction ops generalizing m history with
  | nil => exact ⟨m, [], rfl, rfl, by simpa using h⟩
  | cons op ops ih =>
    obtain ⟨answer, m₁, hstep, h₁⟩ := h.step (hops op List.mem_cons_self)
    obtain ⟨m', answers, hrun, houtputs, h'⟩ :=
      ih h₁ fun op' hop' => hops op' (List.mem_cons_of_mem op hop')
    have hnext : next m op = .ok m₁ := by
      rw [next, hstep]
      rfl
    refine ⟨m', answer :: answers, run_cons_eq_ok.mpr ⟨m₁, hnext, hrun⟩, ?_, ?_⟩
    · rw [outputs, hstep, ok_bind]
      dsimp only
      rw [houtputs]
      rfl
    · rwa [List.append_assoc] at h'

end Runs

/-- After any operations on a new bitmap, whatever was in its words, the set bits are those that
were marked or found and not cleared since. `Find` returns the least one that is not, and sets only
that, and `NumClear` counts those that are not. -/
theorem refines_set (nitems : ℤ) (hnitems : 0 ≤ nitems) (garbage : ℕ → BitVec 32) (ops : List Op)
    (hops : ∀ op ∈ ops, op.InRange nitems) :
    ∃ start m answers, new nitems garbage = .ok start ∧ run next start ops = .ok m ∧
      outputs step start ops = .ok answers ∧
      (∀ i : ℕ, i < nitems → ∃ b, m.test i = .ok b ∧ (b = true ↔ Held (ops.zip answers) i)) ∧
      ((∃ (k : ℕ) (m' : BitMapWords), m.find = .ok ((k : ℤ), m') ∧ k < nitems ∧
          ¬ Held (ops.zip answers) k ∧ (∀ j < k, Held (ops.zip answers) j) ∧
          ∀ i : ℕ, i < nitems → m'.test i = if i = k then .ok true else m.test i) ∨
        m.find = .ok (-1, m) ∧ ∀ i : ℕ, i < nitems → Held (ops.zip answers) i) ∧
      ∃ set : Finset ℕ, (∀ i, i ∈ set ↔ i < nitems ∧ Held (ops.zip answers) i) ∧
        m.numClear = .ok (nitems - set.card) := by
  obtain ⟨n, rfl⟩ : ∃ n : ℕ, nitems = n := ⟨nitems.toNat, by omega⟩
  obtain ⟨start, hnew, hstart⟩ := new_represents n garbage
  -- no bit is held before the first call
  have hinit : Follows n [] start :=
    ⟨BitMap.new n, hstart, rfl, fun i _ => by simpa using not_held_nil i⟩
  obtain ⟨m, answers, hrun, houtputs, b, hrep, rfl, hheld⟩ := hinit.run hops
  rw [List.nil_append] at hheld
  refine ⟨start, m, answers, hnew, hrun, houtputs, ?_, ?_, ?_⟩
  · intro i hi
    have hi' : i < b.numBits := Int.ofNat_lt.mp hi
    exact ⟨b.marked i, hrep.test hi', hheld i hi'⟩
  · cases hfirst : b.firstClear with
    | none =>
      refine .inr ⟨hrep.find.2 hfirst, fun i hi => ?_⟩
      have hi' : i < b.numBits := Int.ofNat_lt.mp hi
      exact (hheld i hi').mp (BitMap.firstClear_eq_none.mp hfirst i hi')
    | some k =>
      obtain ⟨m', hfind, hafter⟩ := hrep.find.1 k hfirst
      obtain ⟨hk, hclear⟩ := BitMap.firstClear_spec hfirst
      refine .inl ⟨k, m', hfind, Int.ofNat_lt.mpr hk, ?_, ?_, ?_⟩
      · rw [← hheld k hk, hclear]
        exact Bool.false_ne_true
      · intro j hj
        apply (hheld j (by omega)).mp
        by_contra hnot
        -- a clear bit below `k` would have been found first
        have hle := BitMap.firstClear_le hfirst (Bool.eq_false_iff.mpr hnot)
        omega
      · intro i hi
        have hi' : i < b.numBits := Int.ofNat_lt.mp hi
        rw [hafter.test hi', hrep.test hi', BitMap.markBit_marked]
        split_ifs <;> rfl
  · refine ⟨{i ∈ Finset.range b.numBits | b.marked i = true}, fun i => ?_, ?_⟩
    · rw [Finset.mem_filter, Finset.mem_range, Int.ofNat_lt]
      exact and_congr_right fun hi => hheld i hi
    · have hsplit := Finset.card_filter_add_card_filter_not (s := Finset.range b.numBits)
        fun i => b.marked i = true
      rw [Finset.card_range] at hsplit
      have hclear : b.numClear = ((Finset.range b.numBits).filter
          fun i => ¬ b.marked i = true).card := by
        rw [BitMap.numClear_eq, BitMap.clearBits]
        congr 1
        ext i
        simp
      rw [hrep.numClear, hclear]
      congr 1
      omega

theorem refines_set_two : ∃ start m answers, new 2 (fun _ => -1) = .ok start ∧
    run next start [.mark 0, .find, .clear 0] = .ok m ∧
    outputs step start [.mark 0, .find, .clear 0] = .ok answers := by
  obtain ⟨start, m, answers, hnew, hrun, houtputs, -⟩ :=
    refines_set 2 (by decide) (fun _ => -1) [.mark 0, .find, .clear 0] (by
      intro op hop
      simp only [List.mem_cons, List.not_mem_nil, or_false] at hop
      rcases hop with rfl | rfl | rfl
      · exact ⟨by decide, by decide⟩
      · trivial
      · exact ⟨by decide, by decide⟩)
  exact ⟨start, m, answers, hnew, hrun, houtputs⟩

end BitMapWords
end NachOS
