import NachOS.Userprog.BitMap
import Mathlib.Data.List.FinRange

/-!
# The inverted page table

The data of `class invertedpagetable` (`invertedpagetables.h`) and its replacement
policies. `getPhysicalPage` calls back into the address space and is in `AddrSpace`.

The table counts `NumPhysPages_IPT = 2 * NumPhysPages` frames, twice as many as the machine
has. The replacement queues hold frame numbers, also where a TLB slot is chosen with them.
-/

namespace NachOS

/-- `NumPhysPages_IPT`, set once by the constructor. -/
def numPhysPagesIPT : ℕ := numPhysPages * 2

theorem numPhysPagesIPT_eq : numPhysPagesIPT = 64 := rfl

/-- `replacementAlgorithm`: "0 for FIFO, 1 for Second Chance, 2 for Least Used". -/
inductive ReplacementAlgorithm where
  | fifo
  | secondChance
  | leastUsed
deriving DecidableEq, Repr

/-- The inverted page table. -/
structure InvertedPageTable where
  uses : ℕ → ℤ
  virtualPageTable : ℕ → ℤ
  fifoQueue : List ℤ
  pageCounter : ℤ
  secondChanceQueue : List (ℤ × Bool)
  physicalPagesBitmap : BitMap
  replacementAlgorithm : ReplacementAlgorithm

/-! ## Vectors of `NumPhysPages_IPT` entries -/

/-- `v[i]`. -/
def vectorGet (v : ℕ → ℤ) (i : ℤ) : Except Fault ℤ :=
  if 0 ≤ i ∧ i < numPhysPagesIPT then .ok (v i.toNat) else .error .vector

/-- `v[i] = x`. -/
def vectorSet (v : ℕ → ℤ) (i x : ℤ) : Except Fault (ℕ → ℤ) :=
  if 0 ≤ i ∧ i < numPhysPagesIPT then .ok (Function.update v i.toNat x) else .error .vector

namespace InvertedPageTable

/-- The constructor. -/
def new (algorithmToUse : ReplacementAlgorithm) : InvertedPageTable where
  uses := fun _ => 0
  virtualPageTable := fun _ => -1
  fifoQueue := []
  pageCounter := 0
  secondChanceQueue := []
  physicalPagesBitmap := BitMap.new numPhysPagesIPT
  replacementAlgorithm := algorithmToUse

/-! ## Second chance -/

/-- The `while (true)` of both second-chance selections, for a bounded number of
iterations. -/
def secondChanceLoop : ℕ → List (ℤ × Bool) → Except Fault (ℤ × List (ℤ × Bool))
  | 0, _ => .error .loop
  | _ + 1, [] => .error .emptyQueue
  | fuel + 1, (page, used) :: queue =>
    if used = false then .ok (page, queue ++ [(page, true)])
    else secondChanceLoop fuel (queue ++ [(page, false)])

/-- The second-chance selection: the number chosen and the queue after. One pass over the
queue clears every bit, so the iteration after it selects. -/
def secondChance (queue : List (ℤ × Bool)) : Except Fault (ℤ × List (ℤ × Bool)) :=
  secondChanceLoop (queue.length + 1) queue

/-- The number second chance picks from a queue: the first one whose bit is clear, and the
head when every bit is set. -/
def secondChancePick (queue : List (ℤ × Bool)) : Option ℤ :=
  ((queue.find? fun entry => !entry.2).or queue.head?).map Prod.fst

/-- The loop, on a queue of which the entries behind `queue` have been passed over. -/
theorem secondChanceLoop_spec (queue : List (ℤ × Bool)) :
    ∀ (fuel : ℕ) (passed : List (ℤ × Bool)), queue.length < fuel →
      (∀ entry ∈ passed, entry.2 = false) → queue ++ passed ≠ [] →
      ∃ page rest, secondChanceLoop fuel (queue ++ passed) = .ok (page, rest) ∧
        some page = (((queue.find? fun entry => !entry.2).or passed.head?).or
          queue.head?).map Prod.fst := by
  induction queue with
  | nil =>
    intro fuel passed hfuel hpassed hne
    obtain ⟨n, rfl⟩ : ∃ n, fuel = n + 1 := ⟨fuel - 1, by rw [List.length_nil] at hfuel; omega⟩
    rcases passed with _ | ⟨⟨page, used⟩, passed⟩
    · exact absurd rfl hne
    · have hused : used = false := hpassed (page, used) (by simp)
      exact ⟨page, _, by rw [List.nil_append, secondChanceLoop, if_pos hused], rfl⟩
  | cons entry queue ih =>
    intro fuel passed hfuel hpassed _
    obtain ⟨page, used⟩ := entry
    obtain ⟨n, rfl⟩ : ∃ n, fuel = n + 1 := ⟨fuel - 1, by omega⟩
    cases used with
    | false => exact ⟨page, _, by rw [List.cons_append, secondChanceLoop, if_pos rfl], by simp⟩
    | true =>
      -- the entry goes behind the ones passed over, with its bit cleared
      have hpassed' : ∀ entry ∈ passed ++ [(page, false)], entry.2 = false := by
        intro entry hmem
        rcases List.mem_append.mp hmem with hmem | hmem
        · exact hpassed entry hmem
        · rw [List.mem_singleton.mp hmem]
      obtain ⟨chosen, rest, hloop, hchosen⟩ :=
        ih n (passed ++ [(page, false)]) (by simpa using hfuel) hpassed' (by simp)
      refine ⟨chosen, rest, ?_, ?_⟩
      · rw [List.cons_append, secondChanceLoop, if_neg (by simp), List.append_assoc]
        exact hloop
      · rw [hchosen]
        cases hfind : queue.find? fun entry => !entry.2 with
        | some e => simp [hfind]
        | none =>
          rcases passed with _ | ⟨first, passed⟩
          · simp [hfind]
          · simp [hfind]

/-- Second chance always terminates; from a queue that is not empty it picks as
`secondChancePick` says. -/
theorem secondChance_eq {queue : List (ℤ × Bool)} (hne : queue ≠ []) :
    ∃ page rest, secondChance queue = .ok (page, rest) ∧ secondChancePick queue = some page := by
  obtain ⟨page, rest, hloop, hpage⟩ := secondChanceLoop_spec queue (queue.length + 1) []
    (by omega) (by simp) (by simpa using hne)
  rw [List.append_nil] at hloop
  refine ⟨page, rest, hloop, ?_⟩
  rw [hpage, secondChancePick]
  simp

/-! ## Least used -/

/-- One iteration of the loop of `getLeastUsedPhysicalPage`. -/
def leastUsedStep (uses : ℕ → ℤ) (best : ℕ) (i : ℕ) : ℕ :=
  if uses i < uses best then i else best

/-- `getLeastUsedPhysicalPage`. -/
def getLeastUsedPhysicalPage (ipt : InvertedPageTable) : ℕ :=
  (List.range' 1 (numPhysPagesIPT - 1)).foldl (leastUsedStep ipt.uses) 0

/-- One iteration of the loop of `getTLBEntryToReplace` (case 2): the candidate slot, its
frame and the uses of that frame. -/
def leastUsedSlotStep (tlb : Fin tlbSize → TranslationEntry) (uses : ℕ → ℤ)
    (best : Fin tlbSize × ℤ × ℤ) (page : Fin tlbSize) : Except Fault (Fin tlbSize × ℤ × ℤ) := do
  let physicalPageBuffer := (tlb page).physicalPage
  let usesBuffer ← vectorGet uses physicalPageBuffer
  return if usesBuffer < best.2.2 then (page, physicalPageBuffer, usesBuffer) else best

/-! ## Choosing what to replace -/

/-- `getTLBEntryToReplace`: the slot and the table after. With FIFO the variable
`entryToReplace` is returned without having been set; with second chance the frame number
taken from the queue is used as the slot. -/
def getTLBEntryToReplace (ipt : InvertedPageTable) (tlb : Fin tlbSize → TranslationEntry) :
    Except Fault (Fin tlbSize × InvertedPageTable) :=
  match ipt.replacementAlgorithm with
  | .fifo => .error .uninitialised
  | .secondChance => do
    let (frame, queue) ← secondChance ipt.secondChanceQueue
    if h : frame.toNat < tlbSize ∧ 0 ≤ frame then
      return (⟨frame.toNat, h.1⟩, { ipt with secondChanceQueue := queue })
    else .error .tlb
  | .leastUsed => do
    -- of slots with the same number of uses the first one is taken
    let first := (tlb 0).physicalPage
    let leastUsed ← vectorGet ipt.uses first
    let best ← (List.finRange tlbSize).tail.foldlM (leastUsedSlotStep tlb ipt.uses)
      (0, first, leastUsed)
    let uses ← vectorSet ipt.uses best.2.1 0
    return (best.1, { ipt with uses })

/-- `updatePage`. -/
def updatePage (ipt : InvertedPageTable) (physicalPage : ℤ) (resetUses : Bool) :
    Except Fault InvertedPageTable :=
  match ipt.replacementAlgorithm with
  -- each use adds the frame to the queue, however often it is there already
  | .fifo => .ok { ipt with fifoQueue := ipt.fifoQueue ++ [physicalPage] }
  | .secondChance =>
    .ok { ipt with secondChanceQueue := ipt.secondChanceQueue ++ [(physicalPage, true)] }
  | .leastUsed => do
    let old ← vectorGet ipt.uses physicalPage
    let uses ← vectorSet ipt.uses physicalPage (if resetUses then 0 else toInt (old + 1))
    return { ipt with uses }

/-- `getEntryToReplace`: the frame to evict and the table after. Least used forgets the
page of that frame before the caller has read it. -/
def getEntryToReplace (ipt : InvertedPageTable) : Except Fault (ℤ × InvertedPageTable) :=
  match ipt.replacementAlgorithm with
  | .fifo =>
    match ipt.fifoQueue with
    | [] => .error .emptyQueue
    | page :: queue => .ok (page, { ipt with fifoQueue := queue })
  | .secondChance => do
    let (page, queue) ← secondChance ipt.secondChanceQueue
    return (page, { ipt with secondChanceQueue := queue })
  | .leastUsed =>
    let page := ipt.getLeastUsedPhysicalPage
    .ok (page, { ipt with
      virtualPageTable := Function.update ipt.virtualPageTable page (-1)
      uses := Function.update ipt.uses page 0 })

/-- The frame the policy takes next, read off the table. -/
def nextVictim (ipt : InvertedPageTable) : Option ℤ :=
  match ipt.replacementAlgorithm with
  | .fifo => ipt.fifoQueue.head?
  | .secondChance => secondChancePick ipt.secondChanceQueue
  | .leastUsed => some ipt.getLeastUsedPhysicalPage

theorem getEntryToReplace_nextVictim {ipt ipt' : InvertedPageTable} {g : ℤ}
    (h : ipt.getEntryToReplace = .ok (g, ipt')) : ipt.nextVictim = some g := by
  unfold getEntryToReplace at h
  unfold nextVictim
  split at h
  · split at h
    · cases h
    · rename_i hqueue
      cases h
      rw [hqueue]
      rfl
  · by_cases hne : ipt.secondChanceQueue = []
    · rw [hne] at h
      cases h
    · obtain ⟨page, rest, hloop, hpick⟩ := secondChance_eq hne
      rw [hloop] at h
      cases h
      exact hpick
  · cases h
    rfl

/-- The policy takes the frame that `nextVictim` reads off. -/
theorem getEntryToReplace_iff {ipt : InvertedPageTable} {g : ℤ} :
    (∃ ipt', ipt.getEntryToReplace = .ok (g, ipt')) ↔ ipt.nextVictim = some g := by
  constructor
  · rintro ⟨ipt', h⟩
    exact getEntryToReplace_nextVictim h
  · intro h
    unfold nextVictim at h
    unfold getEntryToReplace
    cases halg : ipt.replacementAlgorithm with
    | fifo =>
      rw [halg] at h
      dsimp only at h ⊢
      cases hqueue : ipt.fifoQueue with
      | nil =>
        rw [hqueue] at h
        cases h
      | cons page queue =>
        rw [hqueue] at h
        cases h
        exact ⟨_, rfl⟩
    | secondChance =>
      rw [halg] at h
      dsimp only at h ⊢
      have hne : ipt.secondChanceQueue ≠ [] := by
        intro hnil
        rw [hnil] at h
        cases h
      obtain ⟨page, rest, hloop, hpick⟩ := secondChance_eq hne
      rw [hpick] at h
      cases h
      exact ⟨_, by rw [hloop]; rfl⟩
    | leastUsed =>
      rw [halg] at h
      cases h
      exact ⟨_, rfl⟩

end InvertedPageTable

end NachOS
