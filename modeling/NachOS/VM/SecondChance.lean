import NachOS.Userprog.InvertedPageTable
import NachOS.Lib.Run

/-!
# Second chance

What the loop of second chance selects and how it leaves its queue. The queue may hold a frame more
than once, with different bits.
-/

namespace NachOS

namespace InvertedPageTable

/-- The entries with their bits cleared. -/
def cleared (entries : List (ℤ × Bool)) : List (ℤ × Bool) :=
  entries.map fun entry => (entry.1, false)

/-- Entries whose bits are set are moved behind the others, one with each iteration. -/
theorem secondChanceLoop_rotate {entries : List (ℤ × Bool)} (h : ∀ e ∈ entries, e.2 = true)
    (fuel : ℕ) (rest : List (ℤ × Bool)) :
    secondChanceLoop (entries.length + fuel) (entries ++ rest) =
      secondChanceLoop fuel (rest ++ cleared entries) := by
  induction entries generalizing rest with
  | nil => rw [List.length_nil, Nat.zero_add, List.nil_append, cleared, List.map_nil,
      List.append_nil]
  | cons entry entries ih =>
    obtain ⟨page, used⟩ := entry
    have hused : used = true := h (page, used) List.mem_cons_self
    have hrest : ∀ e ∈ entries, e.2 = true := fun e he => h e (List.mem_cons_of_mem _ he)
    rw [List.length_cons, Nat.succ_add, List.cons_append, secondChanceLoop, if_neg (by simp [hused]),
      List.append_assoc, ih hrest, List.append_assoc]
    rfl

/-- The first entry whose bit is clear is selected, once those in front of it were moved. -/
theorem secondChanceLoop_append {before after : List (ℤ × Bool)} {page : ℤ}
    (h : ∀ e ∈ before, e.2 = true) (fuel : ℕ) :
    secondChanceLoop (before.length + (fuel + 1)) (before ++ (page, false) :: after) =
      .ok (page, after ++ cleared before ++ [(page, true)]) := by
  rw [secondChanceLoop_rotate h, List.cons_append, secondChanceLoop, if_pos rfl]

/-- If all bits are set the whole queue is passed over, and then the first entry is selected. -/
theorem secondChanceLoop_all {after : List (ℤ × Bool)} {page : ℤ}
    (h : ∀ e ∈ (page, true) :: after, e.2 = true) (fuel : ℕ) :
    secondChanceLoop (((page, true) :: after).length + (fuel + 1)) ((page, true) :: after) =
      .ok (page, cleared after ++ [(page, true)]) := by
  have hrotate := secondChanceLoop_rotate h (fuel + 1) []
  rw [List.append_nil, List.nil_append] at hrotate
  rw [hrotate, cleared, List.map_cons, secondChanceLoop, if_pos rfl]
  rfl

/-- Both selections take this number and leave this queue, after no more iterations than one for
each entry and one more. -/
def Selects (ipt : InvertedPageTable) (tlb : Fin tlbSize → TranslationEntry) (page : ℤ)
    (rest : List (ℤ × Bool)) : Prop :=
  (∀ fuel, ipt.secondChanceQueue.length + 1 ≤ fuel →
    secondChanceLoop fuel ipt.secondChanceQueue = .ok (page, rest)) ∧
  ipt.getEntryToReplace = .ok (page, { ipt with secondChanceQueue := rest }) ∧
  (∀ slot : Fin tlbSize, page = (slot : ℕ) →
    ipt.getTLBEntryToReplace tlb = .ok (slot, { ipt with secondChanceQueue := rest })) ∧
  ((∀ slot : Fin tlbSize, page ≠ (slot : ℕ)) → ipt.getTLBEntryToReplace tlb = .error .tlb)

theorem selects_of_loop {ipt : InvertedPageTable} (tlb : Fin tlbSize → TranslationEntry) {page : ℤ}
    {rest : List (ℤ × Bool)} (halg : ipt.replacementAlgorithm = .secondChance)
    (hloop : ∀ fuel, ipt.secondChanceQueue.length + 1 ≤ fuel →
      secondChanceLoop fuel ipt.secondChanceQueue = .ok (page, rest)) :
    ipt.Selects tlb page rest := by
  have hsecond : secondChance ipt.secondChanceQueue = .ok (page, rest) := hloop _ le_rfl
  refine ⟨hloop, ?_, ?_, ?_⟩
  · rw [getEntryToReplace, halg]
    dsimp only
    rw [hsecond]
    rfl
  · intro slot hslot
    have hrange : page.toNat < tlbSize ∧ 0 ≤ page := ⟨by omega, by omega⟩
    rw [getTLBEntryToReplace, halg]
    dsimp only
    rw [hsecond, PartialRun.ok_bind]
    dsimp only
    rw [dif_pos hrange]
    have hsame : (⟨page.toNat, hrange.1⟩ : Fin tlbSize) = slot := Fin.ext (by simp [hslot])
    rw [hsame]
    rfl
  · intro hnone
    have hrange : ¬ (page.toNat < tlbSize ∧ 0 ≤ page) :=
      fun h => hnone ⟨page.toNat, h.1⟩ (Int.toNat_of_nonneg h.2).symm
    rw [getTLBEntryToReplace, halg]
    dsimp only
    rw [hsecond, PartialRun.ok_bind]
    dsimp only
    rw [dif_neg hrange]

/-- Second chance takes the first entry whose bit is clear and moves it and those in front of it
to the end, those with their bits cleared and then the one that was taken with its bit set. If no
bit is clear it takes the first entry, and all others are moved with their bits cleared. -/
theorem secondChance_selects (ipt : InvertedPageTable) (tlb : Fin tlbSize → TranslationEntry)
    (halg : ipt.replacementAlgorithm = .secondChance) :
    (∀ k (hk : k < ipt.secondChanceQueue.length), ipt.secondChanceQueue[k].2 = false →
      (∀ i (hi : i < k), ipt.secondChanceQueue[i].2 = true) →
      ipt.Selects tlb ipt.secondChanceQueue[k].1
        (ipt.secondChanceQueue.drop (k + 1) ++ cleared (ipt.secondChanceQueue.take k) ++
          [(ipt.secondChanceQueue[k].1, true)])) ∧
    ∀ hne : ipt.secondChanceQueue ≠ [], (∀ e ∈ ipt.secondChanceQueue, e.2 = true) →
      ipt.Selects tlb (ipt.secondChanceQueue.head hne).1
        (cleared ipt.secondChanceQueue.tail ++ [((ipt.secondChanceQueue.head hne).1, true)]) := by
  constructor
  · intro k hk hclear hset
    apply selects_of_loop tlb halg
    intro fuel hfuel
    have hbefore : ∀ e ∈ ipt.secondChanceQueue.take k, e.2 = true := by
      intro e he
      obtain ⟨i, hi, rfl⟩ := List.getElem_of_mem he
      rw [List.getElem_take]
      exact hset i (by rw [List.length_take] at hi; omega)
    have hentry : ipt.secondChanceQueue[k] = (ipt.secondChanceQueue[k].1, false) :=
      Prod.ext rfl hclear
    -- the entries before `k` are used, and the loop puts each of them at the end
    have hsplit : ipt.secondChanceQueue = ipt.secondChanceQueue.take k ++
        (ipt.secondChanceQueue[k].1, false) :: ipt.secondChanceQueue.drop (k + 1) := by
      rw [← hentry, List.getElem_cons_drop, List.take_append_drop]
    obtain ⟨m, rfl⟩ : ∃ m, fuel = (ipt.secondChanceQueue.take k).length + (m + 1) :=
      ⟨fuel - k - 1, by rw [List.length_take]; omega⟩
    have hloop := @secondChanceLoop_append (ipt.secondChanceQueue.take k)
      (ipt.secondChanceQueue.drop (k + 1)) ipt.secondChanceQueue[k].1 hbefore m
    rwa [← hsplit] at hloop
  · intro hne hset
    apply selects_of_loop tlb halg
    intro fuel hfuel
    -- all are used: the first one comes round again with its bit cleared
    obtain ⟨entry, after, hqueue⟩ := List.exists_cons_of_ne_nil hne
    obtain ⟨page, used⟩ := entry
    obtain rfl : used = true := hset (page, used) (by rw [hqueue]; exact List.mem_cons_self)
    rw [hqueue] at hset hfuel
    simp only [hqueue, List.head_cons, List.tail_cons]
    obtain ⟨m, rfl⟩ : ∃ m, fuel = ((page, true) :: after).length + (m + 1) :=
      ⟨fuel - ((page, true) :: after).length - 1, by omega⟩
    exact secondChanceLoop_all hset m

/-- A queue with frame `0` twice: the second of its entries is taken. -/
theorem secondChance_selects_again :
    ({ new .secondChance with secondChanceQueue := [(0, true), (0, false), (3, false)] } :
      InvertedPageTable).Selects (fun _ => ⟨0, 0, true, false, false, false⟩) 0
        [(3, false), (0, false), (0, true)] :=
  (secondChance_selects { new .secondChance with
    secondChanceQueue := [(0, true), (0, false), (3, false)] } _ rfl).1 1 (by decide) rfl
    (by decide)

end InvertedPageTable
end NachOS
