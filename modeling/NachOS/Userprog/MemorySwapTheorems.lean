import NachOS.Userprog.MemorySwap
import Mathlib.Data.Finset.Card
import Mathlib.Data.Finset.Basic

/-!
# The swap area as a map from pages to contents

A caller wants the swap area to be a finite map: what was put out under a page number comes
back, once. `Traced` runs the swap area beside the history of its calls, from which that map
is read off. The two agree in every state reached in which each page is taken back while
page `0` is held in a slot before that of the page. Any other page that is taken back leaves
a free slot marked `0`, and page `0` then looks held, or is looked for in that slot.
-/

namespace NachOS

open PartialRun

/-! ## Calls and their history -/

/-- A call of the swap area, with the contents of `mainMemory` at that time. The frame is
one of the machine's. -/
inductive SwapCall where
  | write (memory : Bytes) (frame : Fin numPhysPages) (page : ℕ)
  | read (memory : Bytes) (frame : Fin numPhysPages) (page : ℕ)
  | query (page : ℕ)

/-- The swap area, the pages that were written and not read since, and what was written
for each page last. -/
structure Traced where
  swap : Swap
  held : Finset ℕ
  contents : ℕ → Bytes

namespace Traced

/-- Nothing has been called. -/
def start : Traced where
  swap := Swap.new
  held := ∅
  contents := fun _ _ => 0

/-- A call and its entry in the history. -/
def step (t : Traced) : SwapCall → Except Fault Traced
  | .write memory frame page => do
    let (isSwaped, swap) ← t.swap.writeSwapMemory memory frame page
    if isSwaped then
      return {
        swap
        held := insert page t.held
        contents := Function.update t.contents page (Bytes.window memory (frame * pageSize)) }
    else return { t with swap }
  | .read memory frame page => do
    let (_, swap, _) ← t.swap.readSwapMemory memory frame page
    return { t with swap, held := t.held.erase page }
  | .query _ => return t

/-- The number of set bits of `swapBitMap`. -/
def slotsTaken (t : Traced) : ℕ :=
  ((Finset.range swapPagesQuantity).filter fun i => t.swap.swapBitMap.marked i = true).card

/-- The swap area holds the pages of the history and what was written for them. -/
structure Refines (t : Traced) : Prop where
  isLoadedInSwap : ∀ v : ℕ, t.swap.isLoadedInSwap v = true ↔ v ∈ t.held
  readSwapMemory : ∀ v ∈ t.held, ∀ (memory : Bytes) (frame : Fin numPhysPages), ∃ swap',
    t.swap.readSwapMemory memory frame v =
      .ok (true, swap', Bytes.blit memory (frame * pageSize) pageSize (t.contents v))
  slotsTaken : t.slotsTaken = t.held.card

/-- The discipline of the page-fault path: a page is written only while it is not held. -/
def Disciplined (t : Traced) : SwapCall → Prop
  | .write _ _ page => page ∉ t.held
  | .read _ _ _ => True
  | .query _ => True

/-- A read that finds the page's marker in a slot finds page `0` held in a slot before it. -/
def BehindZero (t : Traced) : SwapCall → Prop
  | .write _ _ _ => True
  | .read _ _ page => ∀ i ∈ t.swap.slotOf page,
    ∃ j < i, t.swap.swapBitMap.marked j = true ∧ t.swap.virtualPages j = 0
  | .query _ => True

/-! ## The invariant -/

/-- Slot `i` is taken by page `p`, whose bytes are in the file. -/
structure Slot (t : Traced) (i p : ℕ) : Prop where
  lt : i < swapPagesQuantity
  marked : t.swap.swapBitMap.marked i = true
  marker : t.swap.virtualPages i = p
  stored : i * pageSize + pageSize ≤ t.swap.swapSegment.length
  bytes : Bytes.EqUpTo pageSize (Bytes.window t.swap.swapSegment.data (i * pageSize)) (t.contents p)

structure Inv (t : Traced) : Prop where
  numBits : t.swap.swapBitMap.numBits = swapPagesQuantity
  taken : ∀ i < swapPagesQuantity, t.swap.swapBitMap.marked i = true →
    ∃ p ∈ t.held, Slot t i p
  slot : ∀ p ∈ t.held, ∃ i, Slot t i p
  unique : ∀ i j p, Slot t i p → Slot t j p → i = j
  /-- A free slot is marked as at the start, or `0` with page `0` held before it. -/
  free : ∀ i < swapPagesQuantity, t.swap.swapBitMap.marked i = false →
    t.swap.virtualPages i = -1 ∨ (t.swap.virtualPages i = 0 ∧ ∃ j < i, Slot t j 0)

variable {t t' : Traced} {i j p q : ℕ}

theorem Slot.page_unique (h : Slot t i p) (h' : Slot t i q) : p = q := by
  have : (p : ℤ) = q := h.marker.symm.trans h'.marker
  exact_mod_cast this

/-- The slot a lookup finds is the one the page was put into. -/
theorem Inv.found (hinv : Inv t) (h : t.swap.slotOf p = some i) : p ∈ t.held ∧ Slot t i p := by
  obtain ⟨hi, hmarker⟩ := Swap.slotOf_eq_some h
  cases hmarked : t.swap.swapBitMap.marked i with
  | true =>
    obtain ⟨q, hq, hslot⟩ := hinv.taken i hi hmarked
    have hqp : q = p := by
      have : (q : ℤ) = p := hslot.marker.symm.trans hmarker
      exact_mod_cast this
    exact hqp ▸ ⟨hq, hslot⟩
  | false =>
    -- a free slot marked with the page would have page `0` before it, to be found first
    rcases hinv.free i hi hmarked with hfree | ⟨hzero, j, hj, hslot⟩
    · rw [hmarker] at hfree
      omega
    · exact absurd (hslot.marker.trans (hzero.symm.trans hmarker)) (Swap.slotOf_first h hj)

theorem Inv.held (hinv : Inv t) (h : Slot t i p) : p ∈ t.held := by
  obtain ⟨q, hq, hslot⟩ := hinv.taken i h.lt h.marked
  exact h.page_unique hslot ▸ hq

theorem Inv.slotOf (hinv : Inv t) (hp : p ∈ t.held) : ∃ i, t.swap.slotOf p = some i := by
  obtain ⟨i, hslot⟩ := hinv.slot p hp
  cases hfind : t.swap.slotOf p with
  | none => exact absurd hslot.marker (Swap.slotOf_eq_none.mp hfind i hslot.lt)
  | some k => exact ⟨k, rfl⟩

/-- What a read returns. -/
theorem Inv.readSwapMemory (hinv : Inv t) (h : t.swap.slotOf p = some i) (memory : Bytes)
    (frame : Fin numPhysPages) : t.swap.readSwapMemory memory frame p = .ok (true,
      t.swap.released i, Bytes.blit memory (frame * pageSize) pageSize (t.contents p)) := by
  obtain ⟨-, hslot⟩ := hinv.found h
  have hframe : (frame : ℕ) < 32 := frame.isLt
  rw [Swap.readSwapMemory_ok_iff]
  refine .inr ⟨i, pageSize, h, by rw [hinv.numBits]; exact hslot.lt, ?_, .inr ?_, rfl, rfl, ?_⟩
  · rw [Nat.min_eq_left]
    have := hslot.stored
    omega
  · rw [pageSize_eq, memorySize_eq]
    omega
  · funext x
    have hbase : ((frame : ℕ) * (pageSize : ℤ)).toNat = frame * pageSize := by
      rw [← Int.natCast_mul, Int.toNat_natCast]
    rw [hbase]
    simp only [Bytes.blit]
    split
    · rename_i hx
      exact (hslot.bytes _ (by omega)).symm
    · rfl

theorem refines_of_inv (hinv : Inv t) : Refines t := by
  refine ⟨fun v => ?_, fun v hv memory frame => ?_, ?_⟩
  · rw [Swap.isLoadedInSwap, Option.isSome_iff_exists]
    constructor
    · rintro ⟨i, hi⟩
      exact (hinv.found hi).1
    · exact hinv.slotOf
  · obtain ⟨i, hi⟩ := hinv.slotOf hv
    exact ⟨_, hinv.readSwapMemory hi memory frame⟩
  · -- slots and pages correspond by the markers
    refine Finset.card_nbij (fun i => (t.swap.virtualPages i).toNat) ?_ ?_ ?_
    · intro i hi
      rw [Finset.mem_coe, Finset.mem_filter, Finset.mem_range] at hi
      obtain ⟨p, hp, hslot⟩ := hinv.taken i hi.1 hi.2
      show (t.swap.virtualPages i).toNat ∈ t.held
      rw [hslot.marker, Int.toNat_natCast]
      exact hp
    · intro i hi j hj heq
      rw [Finset.mem_coe, Finset.mem_filter, Finset.mem_range] at hi hj
      obtain ⟨p, -, hslot⟩ := hinv.taken i hi.1 hi.2
      obtain ⟨q, -, hslot'⟩ := hinv.taken j hj.1 hj.2
      simp only [hslot.marker, hslot'.marker, Int.toNat_natCast] at heq
      exact hinv.unique i j p hslot (heq ▸ hslot')
    · intro p hp
      obtain ⟨i, hslot⟩ := hinv.slot p hp
      refine ⟨i, ?_, ?_⟩
      · rw [Finset.mem_coe, Finset.mem_filter, Finset.mem_range]
        exact ⟨hslot.lt, hslot.marked⟩
      · simp only [hslot.marker, Int.toNat_natCast]

/-! ## One call -/

theorem inv_start : Inv start where
  numBits := rfl
  taken _ _ h := by cases h
  slot _ h := absurd h (Finset.notMem_empty _)
  unique _ _ _ h := by cases h.marked
  free _ _ _ := .inl rfl

/-- The state after page `p` has been put into the free slot `j`. -/
def stored (t : Traced) (j p : ℕ) (bytes : Bytes) : Traced where
  swap := t.swap.stored j p bytes
  held := insert p t.held
  contents := Function.update t.contents p bytes

/-- The slots taken after a write are those before and the new one. -/
theorem slot_stored_iff {bytes : Bytes} (hinv : Inv t) (hp : p ∉ t.held)
    (hj : j < swapPagesQuantity) :
    Slot (t.stored j p bytes) i q ↔ (i = j ∧ q = p) ∨ (i ≠ j ∧ Slot t i q) := by
  constructor
  · intro h
    have hmarker : Function.update t.swap.virtualPages j p i = q := h.marker
    have hmarked : (BitMap.markBit _ j).marked i = true := h.marked
    by_cases hij : i = j
    · rw [hij, Function.update_self] at hmarker
      exact .inl ⟨hij, by exact_mod_cast hmarker.symm⟩
    · rw [Function.update_of_ne hij] at hmarker
      rw [BitMap.markBit_marked, if_neg hij] at hmarked
      obtain ⟨q', -, hslot⟩ := hinv.taken i h.lt hmarked
      have hqq : q' = q := by
        have : (q' : ℤ) = q := hslot.marker.symm.trans hmarker
        exact_mod_cast this
      exact .inr ⟨hij, hqq ▸ hslot⟩
  · rintro (⟨rfl, rfl⟩ | ⟨hij, h⟩)
    · refine ⟨hj, ?_, Function.update_self _ _ _, Nat.le_max_right _ _, ?_⟩
      · show (BitMap.markBit _ i).marked i = true
        rw [BitMap.markBit_marked, if_pos rfl]
      · show Bytes.EqUpTo pageSize _ (Function.update t.contents q bytes q)
        rw [Function.update_self]
        exact Swap.stored_window_self _ _ _ _
    · have hqp : q ≠ p := fun hqp => hp (hqp ▸ hinv.held h)
      refine ⟨h.lt, ?_, ?_, h.stored.trans (Nat.le_max_left _ _), ?_⟩
      · show (BitMap.markBit _ j).marked i = true
        rw [BitMap.markBit_marked, if_neg hij]
        exact h.marked
      · show Function.update t.swap.virtualPages j p i = q
        rw [Function.update_of_ne hij]
        exact h.marker
      · -- the slot is another part of the file
        show Bytes.EqUpTo pageSize _ (Function.update t.contents p bytes q)
        rw [Function.update_of_ne hqp]
        exact (Swap.stored_window_ne t.swap p bytes hij h.stored).trans h.bytes

theorem inv_stored {bytes : Bytes} (hinv : Inv t) (hp : p ∉ t.held)
    (hfree : t.swap.swapBitMap.firstClear = some j) : Inv (t.stored j p bytes) := by
  obtain ⟨hj, hclear⟩ := BitMap.firstClear_spec hfree
  rw [hinv.numBits] at hj
  -- the slot that is filled was clear, so it holds none of the pages held before
  have hmarks : ∀ i, (t.stored j p bytes).swap.swapBitMap.marked i =
    if i = j then true else t.swap.swapBitMap.marked i := BitMap.markBit_marked _ j
  refine ⟨hinv.numBits, fun i hi hmarked => ?taken, fun q hq => ?slot, fun i k q h h' => ?unique,
    fun i hi hfree => ?free⟩
  case taken =>
    by_cases hij : i = j
    · exact ⟨p, Finset.mem_insert_self p t.held, (slot_stored_iff hinv hp hj).mpr (.inl ⟨hij, rfl⟩)⟩
    · rw [hmarks, if_neg hij] at hmarked
      obtain ⟨q, hq, hslot⟩ := hinv.taken i hi hmarked
      exact ⟨q, Finset.mem_insert_of_mem hq, (slot_stored_iff hinv hp hj).mpr (.inr ⟨hij, hslot⟩)⟩
  case slot =>
    rcases Finset.mem_insert.mp hq with hqp | hq
    · exact ⟨j, (slot_stored_iff hinv hp hj).mpr (.inl ⟨rfl, hqp⟩)⟩
    · obtain ⟨i, hslot⟩ := hinv.slot q hq
      have hij : i ≠ j := by
        rintro rfl
        rw [hslot.marked] at hclear
        cases hclear
      exact ⟨i, (slot_stored_iff hinv hp hj).mpr (.inr ⟨hij, hslot⟩)⟩
  case unique =>
    -- the page was not held, so no other slot has it
    rcases (slot_stored_iff hinv hp hj).mp h with ⟨rfl, rfl⟩ | ⟨hij, hslot⟩
    · rcases (slot_stored_iff hinv hp hj).mp h' with ⟨hk, -⟩ | ⟨-, hslot'⟩
      · exact hk.symm
      · exact absurd (hinv.held hslot') hp
    · rcases (slot_stored_iff hinv hp hj).mp h' with ⟨-, hq⟩ | ⟨-, hslot'⟩
      · exact absurd (hq ▸ hinv.held hslot) hp
      · exact hinv.unique i k q hslot hslot'
  case free =>
    -- a clear slot whose marker is 0 still has the slot of page 0 before it
    rw [hmarks] at hfree
    split at hfree
    · cases hfree
    · rename_i hij
      have hmarker : (t.stored j p bytes).swap.virtualPages i = t.swap.virtualPages i :=
        Function.update_of_ne hij _ _
      rw [hmarker]
      rcases hinv.free i hi hfree with hneg | ⟨hzero, k, hk, hslot⟩
      · exact .inl hneg
      · have hkj : k ≠ j := by
          rintro rfl
          rw [hslot.marked] at hclear
          cases hclear
        exact .inr ⟨hzero, k, hk, (slot_stored_iff hinv hp hj).mpr (.inr ⟨hkj, hslot⟩)⟩

/-- The state after slot `i` of page `p` has been given back. -/
def released (t : Traced) (i p : ℕ) : Traced :=
  { t with swap := t.swap.released i, held := t.held.erase p }

theorem slot_released_iff : Slot (t.released i p) j q ↔ j ≠ i ∧ Slot t j q := by
  constructor
  · intro h
    have hmarked : Function.update t.swap.swapBitMap.marked i false j = true := h.marked
    have hmarker : Function.update t.swap.virtualPages i 0 j = q := h.marker
    have hji : j ≠ i := by
      rintro rfl
      rw [Function.update_self] at hmarked
      cases hmarked
    rw [Function.update_of_ne hji] at hmarked hmarker
    exact ⟨hji, h.lt, hmarked, hmarker, h.stored, h.bytes⟩
  · rintro ⟨hji, h⟩
    refine ⟨h.lt, ?_, ?_, h.stored, h.bytes⟩
    · show Function.update t.swap.swapBitMap.marked i false j = true
      rw [Function.update_of_ne hji]
      exact h.marked
    · show Function.update t.swap.virtualPages i 0 j = q
      rw [Function.update_of_ne hji]
      exact h.marker

theorem inv_released {k : ℕ} (hinv : Inv t) (hi : Slot t i p) (hk : k < i) (hzero : Slot t k 0) :
    Inv (t.released i p) := by
  refine ⟨hinv.numBits, fun j hj hmarked => ?_, fun q hq => ?_, fun j l q h h' => ?_,
    fun j hj hfree => ?_⟩
  · have hmarked : Function.update t.swap.swapBitMap.marked i false j = true := hmarked
    have hji : j ≠ i := by
      rintro rfl
      rw [Function.update_self] at hmarked
      cases hmarked
    rw [Function.update_of_ne hji] at hmarked
    obtain ⟨q, hq, hslot⟩ := hinv.taken j hj hmarked
    have hqp : q ≠ p := by
      rintro rfl
      exact hji (hinv.unique j i q hslot hi)
    exact ⟨q, Finset.mem_erase.mpr ⟨hqp, hq⟩, slot_released_iff.mpr ⟨hji, hslot⟩⟩
  · obtain ⟨hqp, hq⟩ := Finset.mem_erase.mp hq
    obtain ⟨j, hslot⟩ := hinv.slot q hq
    have hji : j ≠ i := by
      rintro rfl
      exact hqp (hslot.page_unique hi)
    exact ⟨j, slot_released_iff.mpr ⟨hji, hslot⟩⟩
  · exact hinv.unique j l q (slot_released_iff.mp h).2 (slot_released_iff.mp h').2
  · have hfree : Function.update t.swap.swapBitMap.marked i false j = false := hfree
    show Function.update t.swap.virtualPages i 0 j = -1 ∨
      (Function.update t.swap.virtualPages i 0 j = 0 ∧ _)
    -- page `0` is in slot `k`, which is not the one given back
    have hkept : ∀ l, Slot t l 0 → Slot (t.released i p) l 0 := by
      intro l hl
      rw [hinv.unique l k 0 hl hzero]
      exact slot_released_iff.mpr ⟨by omega, hzero⟩
    by_cases hji : j = i
    · rw [hji, Function.update_self]
      exact .inr ⟨rfl, k, hk, hkept k hzero⟩
    · rw [Function.update_of_ne hji] at hfree ⊢
      rcases hinv.free j hj hfree with hneg | ⟨hmarker, l, hl, hslot⟩
      · exact .inl hneg
      · exact .inr ⟨hmarker, l, hl, hkept l hslot⟩

/-- Every call succeeds and keeps the invariant. -/
theorem step_inv {call : SwapCall} (hinv : Inv t) (hdisc : Disciplined t call)
    (hzero : BehindZero t call) : ∃ t', t.step call = .ok t' ∧ Inv t' := by
  cases call with
  | query page => exact ⟨t, rfl, hinv⟩
  | write memory frame page =>
    have hframe : 0 ≤ ((frame : ℕ) : ℤ) ∧ ((frame : ℕ) : ℤ) < numPhysPages :=
      ⟨by omega, by exact_mod_cast frame.isLt⟩
    cases hfree : t.swap.swapBitMap.firstClear with
    | none =>
      -- no slot is clear: the call reports it and changes nothing
      have hwrite : t.swap.writeSwapMemory memory frame page = .ok (false, t.swap) :=
        Swap.writeSwapMemory_ok_iff.mpr (.inl ⟨hfree, rfl, rfl⟩)
      refine ⟨t, ?_, hinv⟩
      rw [step, hwrite]
      rfl
    | some j =>
      have hwrite : t.swap.writeSwapMemory memory frame page = .ok (true,
          t.swap.stored j page (Bytes.window memory (frame * pageSize))) :=
        Swap.writeSwapMemory_ok_iff.mpr (.inr ⟨j, hfree, hframe, rfl, rfl⟩)
      refine ⟨t.stored j page (Bytes.window memory (frame * pageSize)), ?_,
        inv_stored hinv hdisc hfree⟩
      rw [step, hwrite]
      rfl
  | read memory frame page =>
    cases hslot : t.swap.slotOf page with
    | none =>
      have hread : t.swap.readSwapMemory memory frame page = .ok (false, t.swap, memory) :=
        Swap.readSwapMemory_ok_iff.mpr (.inl ⟨hslot, rfl, rfl, rfl⟩)
      have hheld : page ∉ t.held := by
        intro hheld
        obtain ⟨i, hi⟩ := hinv.slotOf hheld
        rw [hslot] at hi
        cases hi
      refine ⟨t, ?_, hinv⟩
      rw [step, hread, ok_bind]
      show Except.ok { t with held := t.held.erase page } = _
      rw [Finset.erase_eq_of_notMem hheld]
    | some i =>
      obtain ⟨-, hi⟩ := hinv.found hslot
      obtain ⟨k, hk, hmarked, hmarker⟩ := hzero i hslot
      -- the slot before it that is marked with 0 holds page 0
      have hkslot : Slot t k 0 := by
        obtain ⟨q, -, hq⟩ := hinv.taken k (hk.trans hi.lt) hmarked
        have hq0 : q = 0 := by
          have : (q : ℤ) = 0 := hq.marker.symm.trans hmarker
          exact_mod_cast this
        exact hq0 ▸ hq
      refine ⟨t.released i page, ?_, inv_released hinv hi hk hkslot⟩
      rw [step, hinv.readSwapMemory hslot memory frame]
      rfl

/-! ## Every run -/

/-- In every run of disciplined calls in which each page is read back while page `0` is held
in an earlier slot, every call returns and every state reached refines the history. -/
theorem run_refines {calls : List SwapCall} (hdisc : Along step Disciplined start calls)
    (hzero : Along step BehindZero start calls) :
    ∃ t, run step start calls = .ok t ∧ Refines t := by
  obtain ⟨t, hrun, hinv⟩ := Along.total (I := Inv)
    (fun _ _ hinv hcond => step_inv hinv hcond.1 hcond.2) inv_start (hdisc.and hzero)
  exact ⟨t, hrun, refines_of_inv hinv⟩

instance (t : Traced) (call : SwapCall) : Decidable (Disciplined t call) := by
  cases call <;> unfold Disciplined <;> infer_instance

instance (t : Traced) (call : SwapCall) : Decidable (BehindZero t call) := by
  cases call <;> unfold BehindZero <;> infer_instance

/-- Pages `0`, `5` and `6` are put out, and `5` is taken back. -/
theorem run_refines_behindZero : ∃ t, run step start
    [.write (fun _ => 1) 0 0, .write (fun _ => 2) 3 5, .write (fun _ => 3) 4 6,
      .read (fun _ => 9) 1 5] = .ok t ∧ Refines t :=
  run_refines (by decide +kernel) (by decide +kernel)

/-- Page `5` is put out and taken back, and then page `0` looks as if it were held. -/
theorem run_not_refines : ¬ ∀ calls t, Along step Disciplined start calls →
    run step start calls = .ok t → Refines t := by
  intro h
  obtain ⟨t, hrun, hloaded, hheld⟩ : ∃ t, run step start
      [.write (fun _ => 1) 0 5, .read (fun _ => 1) 0 5] = .ok t ∧
      t.swap.isLoadedInSwap (0 : ℕ) = true ∧ 0 ∉ t.held := by decide +kernel
  exact hheld (((h _ t (by decide +kernel) hrun).isLoadedInSwap 0).mp hloaded)

end Traced
end NachOS
