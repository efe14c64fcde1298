import NachOS.Machine.Hardware
import NachOS.Lib.Run
import NachOS.Lib.Chains
import NachOS.Lib.KeyedQueue

/-!
# Lists

The singly linked lists of `list.h`, with their elements in a store and the pointers to the first
and the last one. They do what sequences of keys and items do.
-/

namespace NachOS

open PartialRun Chain

/-- `ListElement`. -/
structure ListElement (α : Type) where
  item : α
  key : ℤ
  next : Option ℕ

/-- A `List` and the elements that were allocated for it. -/
structure NachosList (α : Type) where
  elements : ℕ → Option (ListElement α)
  /-- How many there have been; the next one gets this address. -/
  allocated : ℕ
  first : Option ℕ
  last : Option ℕ

namespace NachosList

variable {α : Type}

/-! ## The operations -/

/-- The constructor. -/
def empty : NachosList α where
  elements := fun _ => none
  allocated := 0
  first := none
  last := none

/-- `IsEmpty`. -/
def isEmpty (l : NachosList α) : Bool := l.first.isNone

/-- The element that a pointer points to. -/
def deref (l : NachosList α) : Option ℕ → Except Fault (ListElement α)
  | none => .error .uninitialised
  | some a =>
    match l.elements a with
    | none => .error .deleted
    | some element => .ok element

/-- `p->next = next`. -/
def setNext (l : NachosList α) (p next : Option ℕ) : Except Fault (NachosList α) :=
  match p with
  | none => .error .uninitialised
  | some a =>
    match l.elements a with
    | none => .error .deleted
    | some element =>
      .ok { l with elements := Function.update l.elements a (some { element with next }) }

/-- `new ListNode(item, sortKey)`; its address is `l.allocated`. -/
def new (l : NachosList α) (item : α) (sortKey : ℤ) : NachosList α :=
  { l with
    elements := Function.update l.elements l.allocated (some ⟨item, sortKey, none⟩)
    allocated := l.allocated + 1 }

/-- `first = element; last = element;`. -/
def setOnly (l : NachosList α) (element : ℕ) : NachosList α :=
  { l with first := some element, last := some element }

/-- `element->next = first; first = element;`. -/
def pushFront (l : NachosList α) (element : ℕ) : Except Fault (NachosList α) := do
  let l ← l.setNext (some element) l.first
  return { l with first := some element }

/-- `last->next = element; last = element;`. -/
def pushBack (l : NachosList α) (element : ℕ) : Except Fault (NachosList α) := do
  let l ← l.setNext l.last (some element)
  return { l with last := some element }

/-- `Append`. -/
def append (l : NachosList α) (item : α) : Except Fault (NachosList α) :=
  let element := l.allocated
  let l := l.new item 0
  if l.isEmpty then .ok (l.setOnly element) else l.pushBack element

/-- `Prepend`. -/
def prepend (l : NachosList α) (item : α) : Except Fault (NachosList α) :=
  let element := l.allocated
  let l := l.new item 0
  if l.isEmpty then .ok (l.setOnly element) else l.pushFront element

/-- The loop of `SortedInsert`: the element to insert after, or `none` at the end of the list. -/
def insertLoop (l : NachosList α) (sortKey : ℤ) : ℕ → Option ℕ → Except Fault (Option ℕ)
  | 0, _ => .error .loop
  | fuel + 1, ptr => do
    let element ← l.deref ptr
    match element.next with
    | none => .ok none
    | some a => do
      let next ← l.deref (some a)
      if sortKey < next.key then .ok ptr else insertLoop l sortKey fuel (some a)

/-- `element->next = ptr->next; ptr->next = element;`. -/
def insertAfter (l : NachosList α) (ptr : Option ℕ) (element : ℕ) :
    Except Fault (NachosList α) := do
  let before ← l.deref ptr
  let l ← l.setNext (some element) before.next
  l.setNext ptr (some element)

/-- `SortedInsert`. A list has no more elements than were allocated. -/
def sortedInsert (l : NachosList α) (item : α) (sortKey : ℤ) : Except Fault (NachosList α) :=
  let element := l.allocated
  let l := l.new item sortKey
  if l.isEmpty then .ok (l.setOnly element)
  else do
    let first ← l.deref l.first
    if sortKey < first.key then l.pushFront element
    else do
      let ptr ← l.insertLoop sortKey l.allocated l.first
      if ptr.isNone then l.pushBack element else l.insertAfter ptr element

/-- `SortedRemove`: the item, what it stores in `*keyPtr`, and the list after. -/
def sortedRemove [Inhabited α] (l : NachosList α) :
    Except Fault ((α × Option ℤ) × NachosList α) :=
  match l.first with
  | none => .ok ((default, none), l)
  | some a => do
    let element ← l.deref (some a)
    let l := if l.first = l.last then { l with first := none, last := none }
      else { l with first := element.next }
    return ((element.item, some element.key),
      { l with elements := Function.update l.elements a none })

/-- `Remove`. -/
def remove [Inhabited α] (l : NachosList α) : Except Fault (α × NachosList α) := do
  let removed ← l.sortedRemove
  return (removed.1.1, removed.2)

/-- The operations. -/
inductive Op (α : Type) where
  | append (item : α)
  | prepend (item : α)
  | remove
  | sortedInsert (item : α) (sortKey : ℤ)
  | sortedRemove

/-- What an operation returns and what it stores in `*keyPtr`. -/
abbrev Answer (α : Type) := Option α × Option ℤ

/-- An operation with its answer. -/
def step [Inhabited α] (l : NachosList α) : Op α → Except Fault (Answer α × NachosList α)
  | .append item => do
    let l ← l.append item
    return ((none, none), l)
  | .prepend item => do
    let l ← l.prepend item
    return ((none, none), l)
  | .remove => do
    let removed ← l.remove
    return ((some removed.1, none), removed.2)
  | .sortedInsert item sortKey => do
    let l ← l.sortedInsert item sortKey
    return ((none, none), l)
  | .sortedRemove => do
    let removed ← l.sortedRemove
    return ((some removed.1.1, removed.1.2), removed.2)

/-- The list after an operation. -/
def next [Inhabited α] (l : NachosList α) (op : Op α) : Except Fault (NachosList α) := do
  let after ← l.step op
  return after.2

/-! ## Sequences of entries -/

/-- What the operations do on a sequence of keys and items. -/
def specStep [Inhabited α] (q : List (ℤ × α)) : Op α → Answer α × List (ℤ × α)
  | .append item => ((none, none), q ++ [(0, item)])
  | .prepend item => ((none, none), (0, item) :: q)
  | .remove => ((some (q.head?.elim default Prod.snd), none), q.tail)
  | .sortedInsert item sortKey => ((none, none), KeyedQueue.insert (sortKey, item) q)
  | .sortedRemove => ((some (q.head?.elim default Prod.snd), q.head?.map Prod.fst), q.tail)

/-- The sequence after some operations on an empty one. -/
def specAfter [Inhabited α] (ops : List (Op α)) : List (ℤ × α) :=
  ops.foldl (fun q op => (specStep q op).2) []

/-- The keys and items of the elements of a chain. -/
def entries (cells : List (ℕ × ListElement α)) : List (ℤ × α) :=
  cells.map fun cell => (cell.2.key, cell.2.item)

/-- From `first` the elements of the chain are met, and `last` points to the final one. -/
structure Chained (l : NachosList α) (cells : List (ℕ × ListElement α)) : Prop where
  leads : Leads ListElement.next l.elements l.first cells none
  last_eq : l.last = (addresses cells).getLast?
  fresh : ∀ a, l.allocated ≤ a → l.elements a = none

/-- The elements of the list are the entries of a sequence. -/
def Represents (l : NachosList α) (q : List (ℤ × α)) : Prop :=
  ∃ cells, l.Chained cells ∧ entries cells = q

section Operations

variable {l : NachosList α} {cells before after : List (ℕ × ListElement α)}
  {cell : ℕ × ListElement α} {q : List (ℤ × α)}

@[simp] theorem entries_append :
    entries (before ++ after) = entries before ++ entries after := List.map_append

@[simp] theorem entries_cons :
    entries (cell :: cells) = (cell.2.key, cell.2.item) :: entries cells := rfl

/-- A list that was just made is empty. -/
theorem empty_represents : Represents (empty : NachosList α) [] :=
  ⟨[], ⟨rfl, rfl, fun _ _ => rfl⟩, rfl⟩

/-! ## A new element -/

/-- The address of the next element is not one of the list's. -/
theorem Chained.allocated_notMem (h : l.Chained cells) : l.allocated ∉ addresses cells := by
  intro hmem
  obtain ⟨cell, hcell, haddr⟩ := List.mem_map.mp hmem
  have hfresh := h.fresh l.allocated le_rfl
  rw [← haddr, h.leads.mem hcell] at hfresh
  cases hfresh

/-- No address is met twice, and only allocated ones are. -/
theorem Chained.length_le (h : l.Chained cells) : cells.length ≤ l.allocated := by
  have hlt : ∀ a ∈ addresses cells, a < l.allocated := by
    intro a ha
    by_contra hle
    obtain ⟨cell, hcell, rfl⟩ := List.mem_map.mp ha
    have hfresh := h.fresh cell.1 (not_lt.mp hle)
    rw [h.leads.mem hcell] at hfresh
    cases hfresh
  have hlength := length_le_of_nodup h.leads.nodup hlt
  rwa [addresses, List.length_map] at hlength

/-- A new element does not disturb the chain. -/
theorem Chained.new_leads (h : l.Chained cells) (item : α) (sortKey : ℤ) :
    Leads ListElement.next (l.new item sortKey).elements l.first cells none :=
  h.leads.update h.allocated_notMem _

/-- The new element holds what it was made with. -/
theorem new_elements_self (item : α) (sortKey : ℤ) :
    (l.new item sortKey).elements l.allocated = some ⟨item, sortKey, none⟩ :=
  Function.update_self _ _ _

/-- Behind the new element the heap is as unused as it was. -/
theorem Chained.new_fresh (h : l.Chained cells) (item : α) (sortKey : ℤ) :
    ∀ a, l.allocated + 1 ≤ a → (l.new item sortKey).elements a = none := by
  intro a ha
  have hne : a ≠ l.allocated := by omega
  exact (Function.update_of_ne hne _ _).trans (h.fresh a (by omega))

/-- A store in which one more element was allocated or changed. -/
theorem fresh_update {elements : ℕ → Option (ListElement α)} {n a : ℕ}
    (h : ∀ b, n ≤ b → elements b = none) (ha : a < n) (element : Option (ListElement α)) :
    ∀ b, n ≤ b → Function.update elements a element b = none := by
  intro b hb
  have hne : b ≠ a := by omega
  exact (Function.update_of_ne hne _ _).trans (h b hb)

/-- `element->next = next`, for an element that is there. -/
theorem setNext_eq {a : ℕ} {element : ListElement α} (h : l.elements a = some element)
    (next : Option ℕ) : l.setNext (some a) next =
      .ok { l with elements := Function.update l.elements a (some { element with next }) } := by
  simp only [setNext, h]

/-! ## Where it goes -/

/-- The branch of an empty list. -/
theorem Chained.setOnly_represents (h : l.Chained []) (item : α) (sortKey : ℤ) :
    Represents ((l.new item sortKey).setOnly l.allocated) [(sortKey, item)] :=
  ⟨[(l.allocated, ⟨item, sortKey, none⟩)],
    ⟨⟨rfl, new_elements_self item sortKey, rfl⟩, rfl, h.new_fresh item sortKey⟩, rfl⟩

/-- The branch of `Prepend`, and of an item that goes before the first one. -/
theorem Chained.pushFront_represents (h : l.Chained (cell :: cells)) (item : α) (sortKey : ℤ) :
    ∃ l', (l.new item sortKey).pushFront l.allocated = .ok l' ∧
      Represents l' ((sortKey, item) :: entries (cell :: cells)) := by
  rw [pushFront, setNext_eq (new_elements_self item sortKey), ok_bind]
  refine ⟨_, rfl, (l.allocated, ⟨item, sortKey, l.first⟩) :: cell :: cells, ⟨?_, ?_, ?_⟩, rfl⟩
  · exact ⟨rfl, Function.update_self _ _ _,
      (h.new_leads item sortKey).update h.allocated_notMem _⟩
  · exact h.last_eq
  · exact fresh_update (h.new_fresh item sortKey) (Nat.lt_succ_self _) _

/-- The branch of `Append`, and of an item that goes behind the last one. -/
theorem Chained.pushBack_represents (h : l.Chained (before ++ [cell])) (item : α)
    (sortKey : ℤ) :
    ∃ l', (l.new item sortKey).pushBack l.allocated = .ok l' ∧
      Represents l' (entries (before ++ [cell]) ++ [(sortKey, item)]) := by
  have hleads := h.new_leads item sortKey
  obtain ⟨-, hcell, hnext⟩ := leads_concat.mp hleads
  have hlast : (l.new item sortKey).last = some cell.1 := by
    rw [show (l.new item sortKey).last = _ from h.last_eq]
    simp [addresses]
  have hlt : cell.1 < l.allocated + 1 := by
    by_contra hle
    rw [h.new_fresh item sortKey cell.1 (by omega)] at hcell
    cases hcell
  rw [pushBack, hlast, setNext_eq hcell, ok_bind]
  refine ⟨_, rfl, before ++ [(cell.1, { cell.2 with next := some l.allocated }),
    (l.allocated, ⟨item, sortKey, none⟩)], ⟨?_, ?_, ?_⟩, ?_⟩
  · exact hleads.splice h.allocated_notMem (new_elements_self item sortKey) hnext.symm rfl
  · simp [addresses]
  · exact fresh_update (h.new_fresh item sortKey) hlt _
  · simp [entries]

/-- The branch that links the element behind the one that the loop has found. -/
theorem Chained.insertAfter_represents {first : ℕ × ListElement α}
    (h : l.Chained (before ++ cell :: first :: after)) (item : α) (sortKey : ℤ) :
    ∃ l', (l.new item sortKey).insertAfter (some cell.1) l.allocated = .ok l' ∧
      Represents l' (entries (before ++ [cell]) ++ (sortKey, item) :: entries (first :: after)) := by
  have hleads := h.new_leads item sortKey
  obtain ⟨-, hcell, -, -, -⟩ := leads_cons_of_append hleads
  have hlt : cell.1 < l.allocated + 1 := by
    by_contra hle
    rw [h.new_fresh item sortKey cell.1 (by omega)] at hcell
    cases hcell
  have hne : cell.1 ≠ l.allocated := by
    intro heq
    apply h.allocated_notMem
    rw [← heq]
    simp [addresses]
  have hderef : (l.new item sortKey).deref (some cell.1) = .ok cell.2 := by
    simp only [deref, hcell]
  -- the new element points on before the one in front of it points to it
  have hlinked := hleads.update h.allocated_notMem (some ⟨item, sortKey, cell.2.next⟩)
  obtain ⟨-, hcell', -, -, -⟩ := leads_cons_of_append hlinked
  rw [insertAfter, hderef, ok_bind, setNext_eq (new_elements_self item sortKey), ok_bind,
    setNext_eq hcell']
  refine ⟨_, rfl, before ++ (cell.1, { cell.2 with next := some l.allocated }) ::
    (l.allocated, ⟨item, sortKey, cell.2.next⟩) :: first :: after, ⟨?_, ?_, ?_⟩, ?_⟩
  · exact hlinked.splice h.allocated_notMem (Function.update_self _ _ _) rfl rfl
  · refine h.last_eq.trans ?_
    simp [addresses]
  · exact fresh_update (fresh_update (h.new_fresh item sortKey) (Nat.lt_succ_self _) _) hlt _
  · simp [entries]

/-- Following a link gives the element that the link leads to. -/
theorem deref_eq {p r : Option ℕ}
    (h : Leads ListElement.next l.elements p (cell :: cells) r) : l.deref p = .ok cell.2 := by
  obtain ⟨rfl, hcell, -⟩ := h
  simp only [deref, hcell]

/-- The loop of `SortedInsert` finds the last element in front of the first one with a greater
key. -/
theorem insertLoop_spec {sortKey : ℤ} {fuel : ℕ} {p : Option ℕ}
    (h : Leads ListElement.next l.elements p (cell :: cells) none) (hle : cell.2.key ≤ sortKey)
    (hfuel : (cell :: cells).length ≤ fuel) :
    ∃ before last after, cell :: cells = before ++ last :: after ∧
      (∀ c ∈ before ++ [last], c.2.key ≤ sortKey) ∧
      (after = [] ∧ l.insertLoop sortKey fuel p = .ok none ∨
        ∃ first rest, after = first :: rest ∧ sortKey < first.2.key ∧
          l.insertLoop sortKey fuel p = .ok (some last.1)) := by
  induction cells generalizing cell p fuel with
  | nil =>
    obtain ⟨fuel, rfl⟩ : ∃ n, fuel = n + 1 := ⟨fuel - 1, by simp at hfuel; omega⟩
    have hnext : cell.2.next = none := h.2.2
    refine ⟨[], cell, [], rfl, by simpa using hle, .inl ⟨rfl, ?_⟩⟩
    rw [insertLoop, deref_eq h, ok_bind, hnext]
  | cons second cells ih =>
    obtain ⟨fuel, rfl⟩ : ∃ n, fuel = n + 1 := ⟨fuel - 1, by simp at hfuel; omega⟩
    have hsecond : cell.2.next = some second.1 := h.2.2.1
    have hrest := h.2.2
    rw [hsecond] at hrest
    by_cases hlt : sortKey < second.2.key
    · refine ⟨[], cell, second :: cells, rfl, by simpa using hle,
        .inr ⟨second, cells, rfl, hlt, ?_⟩⟩
      rw [insertLoop, deref_eq h, ok_bind, hsecond]
      dsimp only
      rw [deref_eq hrest, ok_bind, if_pos hlt, h.1]
    · have hstep : l.insertLoop sortKey (fuel + 1) p =
          l.insertLoop sortKey fuel (some second.1) := by
        rw [insertLoop, deref_eq h, ok_bind, hsecond]
        dsimp only
        rw [deref_eq hrest, ok_bind, if_neg hlt]
      obtain ⟨before, last, after, heq, hkeys, hresult⟩ :=
        ih hrest (not_lt.mp hlt) (by simpa using hfuel)
      refine ⟨cell :: before, last, after, by rw [heq, List.cons_append], ?_, hstep ▸ hresult⟩
      intro c hc
      rcases List.mem_cons.mp hc with rfl | hmem
      · exact hle
      · exact hkeys c hmem

/-! ## Each operation -/

theorem isEmpty_new (item : α) (sortKey : ℤ) :
    (l.new item sortKey).isEmpty = l.first.isNone := rfl

/-- `Append` puts the item behind all others. -/
theorem append_represents (h : l.Represents q) (item : α) :
    ∃ l', l.append item = .ok l' ∧ Represents l' (q ++ [(0, item)]) := by
  obtain ⟨cells, hchain, rfl⟩ := h
  rw [append, isEmpty_new]
  rcases List.eq_nil_or_concat cells with rfl | hconcat
  · rw [show l.first = none from hchain.leads, Option.isNone_none, if_pos rfl]
    exact ⟨_, rfl, hchain.setOnly_represents item 0⟩
  · obtain ⟨before, cell, rfl⟩ := hconcat
    rw [List.concat_eq_append] at hchain ⊢
    have hfirst : l.first ≠ none := by
      cases before with
      | nil => simp [hchain.leads.1]
      | cons first before => simp [hchain.leads.1]
    rw [if_neg (by simpa using hfirst)]
    exact hchain.pushBack_represents item 0

/-- `Prepend` puts the item before all others. -/
theorem prepend_represents (h : l.Represents q) (item : α) :
    ∃ l', l.prepend item = .ok l' ∧ Represents l' ((0, item) :: q) := by
  obtain ⟨cells, hchain, rfl⟩ := h
  rw [prepend, isEmpty_new]
  cases cells with
  | nil =>
    rw [show l.first = none from hchain.leads, Option.isNone_none, if_pos rfl]
    exact ⟨_, rfl, hchain.setOnly_represents item 0⟩
  | cons cell cells =>
    rw [hchain.leads.1, if_neg (by simp)]
    exact hchain.pushFront_represents item 0

/-- `SortedInsert` puts the item where the ordered queue has it. -/
theorem sortedInsert_represents (h : l.Represents q) (item : α) (sortKey : ℤ) :
    ∃ l', l.sortedInsert item sortKey = .ok l' ∧
      Represents l' (KeyedQueue.insert (sortKey, item) q) := by
  obtain ⟨cells, hchain, rfl⟩ := h
  rw [sortedInsert, isEmpty_new]
  cases cells with
  | nil =>
    rw [show l.first = none from hchain.leads, Option.isNone_none, if_pos rfl]
    exact ⟨_, rfl, hchain.setOnly_represents item sortKey⟩
  | cons cell cells =>
    have hleads := hchain.new_leads item sortKey
    have hderef : (l.new item sortKey).deref (l.new item sortKey).first = .ok cell.2 :=
      deref_eq hleads
    rw [hchain.leads.1, if_neg (by simp), hderef, ok_bind]
    -- in front of the first element, or somewhere behind it
    by_cases hlt : sortKey < cell.2.key
    · rw [if_pos hlt, entries_cons, KeyedQueue.insert_cons_of_lt hlt]
      exact hchain.pushFront_represents item sortKey
    · rw [if_neg hlt]
      have hfuel : (cell :: cells).length ≤ (l.new item sortKey).allocated :=
        Nat.le_succ_of_le hchain.length_le
      obtain ⟨before, last, after, heq, hkeys, hresult⟩ :=
        insertLoop_spec hleads (not_lt.mp hlt) hfuel
      have hbefore : ∀ e ∈ entries (before ++ [last]), e.1 ≤ sortKey := by
        intro e he
        obtain ⟨c, hc, rfl⟩ := List.mem_map.mp he
        exact hkeys c hc
      have hsplit : entries (cell :: cells) = entries (before ++ [last]) ++ entries after := by
        rw [heq, ← entries_append, List.append_assoc, List.singleton_append]
      rw [hsplit, KeyedQueue.insert_append hbefore]
      rw [heq] at hchain
      -- the loop ends at the last element, or at one with a greater key behind it
      rcases hresult with hend | hmiddle
      · obtain ⟨rfl, hloop⟩ := hend
        rw [show (l.new item sortKey).first = l.first from rfl, hloop, ok_bind,
          Option.isNone_none, if_pos rfl]
        exact hchain.pushBack_represents item sortKey
      · obtain ⟨first, rest, rfl, hgreater, hloop⟩ := hmiddle
        have hgreater' : KeyedQueue.insert (sortKey, item) (entries (first :: rest)) =
            (sortKey, item) :: entries (first :: rest) := KeyedQueue.insert_cons_of_lt hgreater
        rw [show (l.new item sortKey).first = l.first from rfl, hloop, ok_bind,
          if_neg (by simp), hgreater']
        exact hchain.insertAfter_represents item sortKey

/-- `SortedRemove` takes the first item and its key, or finds nothing. -/
theorem sortedRemove_represents [Inhabited α] (h : l.Represents q) :
    ∃ l', l.sortedRemove = .ok ((q.head?.elim default Prod.snd, q.head?.map Prod.fst), l') ∧
      Represents l' q.tail := by
  obtain ⟨cells, hchain, rfl⟩ := h
  cases cells with
  | nil =>
    have hfirst : l.first = none := hchain.leads
    refine ⟨l, ?_, [], hchain, rfl⟩
    simp only [sortedRemove, hfirst]
    rfl
  | cons cell cells =>
    obtain ⟨hfirst, hcell, hrest⟩ := hchain.leads
    have hnot := (List.nodup_cons.mp hchain.leads.nodup).1
    have hfresh : ∀ a, l.allocated ≤ a →
        Function.update l.elements cell.1 none a = none := by
      intro a ha
      by_cases heq : a = cell.1
      · rw [heq, Function.update_self]
      · rw [Function.update_of_ne heq, hchain.fresh a ha]
    have hderef : l.deref (some cell.1) = .ok cell.2 := by simp only [deref, hcell]
    cases cells with
    | nil =>
      have hone : l.first = l.last := by rw [hfirst, hchain.last_eq]; rfl
      simp only [sortedRemove, hfirst, hderef, ok_bind, ← hone, if_pos]
      exact ⟨_, rfl, [], ⟨rfl, rfl, hfresh⟩, rfl⟩
    | cons second cells =>
      -- the last element is another one
      have hmany : l.first ≠ l.last := by
        intro heq
        rw [hfirst, hchain.last_eq, addresses, List.map_cons, List.map_cons,
          List.getLast?_cons_cons] at heq
        exact hnot (List.mem_of_getLast? heq.symm)
      rw [hfirst] at hmany
      simp only [sortedRemove, hfirst, hderef, ok_bind, if_neg hmany]
      refine ⟨_, rfl, second :: cells, ⟨hrest.update hnot _, ?_, hfresh⟩, rfl⟩
      exact hchain.last_eq

/-- Each operation answers as that of the queue and leaves what that leaves. -/
theorem step_represents [Inhabited α] (h : l.Represents q) (op : Op α) :
    ∃ l', l.step op = .ok ((specStep q op).1, l') ∧ Represents l' (specStep q op).2 := by
  cases op with
  | append item =>
    obtain ⟨l', hop, hafter⟩ := append_represents h item
    exact ⟨l', by simp only [step, hop, ok_bind]; rfl, hafter⟩
  | prepend item =>
    obtain ⟨l', hop, hafter⟩ := prepend_represents h item
    exact ⟨l', by simp only [step, hop, ok_bind]; rfl, hafter⟩
  | remove =>
    obtain ⟨l', hop, hafter⟩ := sortedRemove_represents h
    exact ⟨l', by simp only [step, remove, hop, ok_bind]; rfl, hafter⟩
  | sortedInsert item sortKey =>
    obtain ⟨l', hop, hafter⟩ := sortedInsert_represents h item sortKey
    exact ⟨l', by simp only [step, hop, ok_bind]; rfl, hafter⟩
  | sortedRemove =>
    obtain ⟨l', hop, hafter⟩ := sortedRemove_represents h
    exact ⟨l', by simp only [step, hop, ok_bind]; rfl, hafter⟩

end Operations

/-! ## What goes in and what comes out -/

/-- The operations that keep a list in the order of its keys. -/
def Op.Sorted : Op α → Prop
  | .append _ => False
  | .prepend _ => False
  | .remove => True
  | .sortedInsert _ _ => True
  | .sortedRemove => True

/-- The entry that an operation adds. -/
def Op.inserted : Op α → List (ℤ × α)
  | .append item => [(0, item)]
  | .prepend item => [(0, item)]
  | .remove => []
  | .sortedInsert item sortKey => [(sortKey, item)]
  | .sortedRemove => []

/-- The entry of the first element. -/
def firstEntry (l : NachosList α) : List (ℤ × α) :=
  match l.first.bind l.elements with
  | none => []
  | some element => [(element.key, element.item)]

/-- The entry of the element that an operation deletes. -/
def removed (l : NachosList α) : Op α → List (ℤ × α)
  | .append _ => []
  | .prepend _ => []
  | .remove => l.firstEntry
  | .sortedInsert _ _ => []
  | .sortedRemove => l.firstEntry

/-- The same of a sequence. -/
def specRemoved (q : List (ℤ × α)) : Op α → List (ℤ × α)
  | .append _ => []
  | .prepend _ => []
  | .remove => q.take 1
  | .sortedInsert _ _ => []
  | .sortedRemove => q.take 1

section Entries

variable {l : NachosList α} {q : List (ℤ × α)}

/-- The element that `Remove` takes is the first of the queue. -/
theorem Represents.firstEntry_eq (h : l.Represents q) : l.firstEntry = q.take 1 := by
  obtain ⟨cells, hchain, rfl⟩ := h
  cases cells with
  | nil =>
    have hfirst : l.first = none := hchain.leads
    simp only [firstEntry, hfirst]
    rfl
  | cons cell cells =>
    obtain ⟨hfirst, hcell, -⟩ := hchain.leads
    simp only [firstEntry, hfirst, Option.bind_some, hcell]
    rfl

/-- What an operation takes out of the list is what it takes out of the queue. -/
theorem Represents.removed_eq (h : l.Represents q) (op : Op α) :
    l.removed op = specRemoved q op := by
  cases op with
  | append item => rfl
  | prepend item => rfl
  | remove => exact h.firstEntry_eq
  | sortedInsert item sortKey => rfl
  | sortedRemove => exact h.firstEntry_eq

/-- An operation loses and duplicates nothing. -/
theorem specStep_perm [Inhabited α] (q : List (ℤ × α)) (op : Op α) :
    (q ++ op.inserted).Perm (specRemoved q op ++ (specStep q op).2) := by
  have hremove : (q ++ []).Perm (q.take 1 ++ q.tail) := by
    rw [List.append_nil, ← List.drop_one, List.take_append_drop]
  cases op with
  | append item => exact .refl _
  | prepend item => exact List.perm_append_singleton _ q
  | remove => exact hremove
  | sortedInsert item sortKey =>
    exact (List.perm_append_singleton _ q).trans (KeyedQueue.insert_perm _ q).symm
  | sortedRemove => exact hremove

/-- The keys stay in order if items come in with `SortedInsert` only. -/
theorem specStep_ordered [Inhabited α] (h : KeyedQueue.Ordered q) {op : Op α}
    (hop : op.Sorted) : KeyedQueue.Ordered (specStep q op).2 := by
  have hremove : KeyedQueue.Ordered q.tail := h.sublist (List.tail_sublist q)
  cases op with
  | append item => exact absurd hop id
  | prepend item => exact absurd hop id
  | remove => exact hremove
  | sortedInsert item sortKey => exact h.insert _
  | sortedRemove => exact hremove

/-- Items of one key come out in the order in which they came in. -/
theorem specStep_withKey [Inhabited α] (h : KeyedQueue.Ordered q) {op : Op α}
    (hop : op.Sorted) (k : ℤ) :
    KeyedQueue.withKey k q ++ KeyedQueue.withKey k op.inserted =
      KeyedQueue.withKey k (specRemoved q op) ++ KeyedQueue.withKey k (specStep q op).2 := by
  have hremove : KeyedQueue.withKey k q ++ KeyedQueue.withKey k [] =
      KeyedQueue.withKey k (q.take 1) ++ KeyedQueue.withKey k q.tail := by
    rw [← KeyedQueue.withKey_append, ← KeyedQueue.withKey_append, List.append_nil,
      ← List.drop_one, List.take_append_drop]
  cases op with
  | append item => exact absurd hop id
  | prepend item => exact absurd hop id
  | remove => exact hremove
  | sortedInsert item sortKey => exact (KeyedQueue.withKey_insert h _ k).symm
  | sortedRemove => exact hremove

/-! ## Runs -/

/-- The same for an operation whose answer is not of interest. -/
theorem next_represents [Inhabited α] (h : l.Represents q) (op : Op α) :
    ∃ l', l.next op = .ok l' ∧ Represents l' (specStep q op).2 := by
  obtain ⟨l', hstep, hafter⟩ := step_represents h op
  refine ⟨l', ?_, hafter⟩
  rw [next, hstep, ok_bind]
  rfl

/-- After any operations the list represents what they make of the queue. -/
theorem run_represents [Inhabited α] {ops : List (Op α)} (h : l.Represents q) :
    ∃ l', run next l ops = .ok l' ∧
      l'.Represents (ops.foldl (fun q op => (specStep q op).2) q) := by
  induction ops generalizing l q with
  | nil => exact ⟨l, rfl, h⟩
  | cons op ops ih =>
    obtain ⟨l₁, hnext, h₁⟩ := next_represents h op
    obtain ⟨l', hrun, hafter⟩ := ih h₁
    exact ⟨l', run_cons_eq_ok.mpr ⟨l₁, hnext, hrun⟩, hafter⟩

/-- What a run takes out, operation by operation. -/
theorem trace_removed_cons [Inhabited α] {l' : NachosList α} {op : Op α} {ops : List (Op α)}
    (h : l.Represents q) (hnext : l.next op = .ok l') :
    trace next removed l (op :: ops) = specRemoved q op ++ trace next removed l' ops := by
  rw [trace, h.removed_eq op]
  simp only [hnext]

/-- Over a whole run, what was there and came in is what went out and is left. -/
theorem trace_perm [Inhabited α] {ops : List (Op α)} (h : l.Represents q) :
    (q ++ ops.flatMap Op.inserted).Perm
      (trace next removed l ops ++ ops.foldl (fun q op => (specStep q op).2) q) := by
  induction ops generalizing l q with
  | nil => simp [trace]
  | cons op ops ih =>
    obtain ⟨l₁, hnext, h₁⟩ := next_represents h op
    rw [trace_removed_cons h hnext, List.flatMap_cons, List.foldl_cons, ← List.append_assoc,
      List.append_assoc (specRemoved q op)]
    refine ((specStep_perm q op).append_right _).trans ?_
    rw [List.append_assoc]
    exact (ih h₁).append_left _

/-- Over a whole run, items of one key come out in the order in which they came in. -/
theorem trace_withKey [Inhabited α] {ops : List (Op α)} (h : l.Represents q)
    (hsorted : ∀ op ∈ ops, op.Sorted) (hordered : KeyedQueue.Ordered q) (k : ℤ) :
    KeyedQueue.withKey k q ++ KeyedQueue.withKey k (ops.flatMap Op.inserted) =
      KeyedQueue.withKey k (trace next removed l ops) ++
        KeyedQueue.withKey k (ops.foldl (fun q op => (specStep q op).2) q) := by
  induction ops generalizing l q with
  | nil => simp [trace, KeyedQueue.withKey]
  | cons op ops ih =>
    obtain ⟨l₁, hnext, h₁⟩ := next_represents h op
    have hop := hsorted op List.mem_cons_self
    have hrest := ih h₁ (fun op' hop' => hsorted op' (List.mem_cons_of_mem op hop'))
      (specStep_ordered hordered hop)
    rw [trace_removed_cons h hnext, List.flatMap_cons, List.foldl_cons,
      KeyedQueue.withKey_append, KeyedQueue.withKey_append, ← List.append_assoc,
      specStep_withKey hordered hop, List.append_assoc, List.append_assoc, hrest]

/-- The keys stay in order over a whole run. -/
theorem foldl_ordered [Inhabited α] {ops : List (Op α)} (hsorted : ∀ op ∈ ops, op.Sorted)
    (hordered : KeyedQueue.Ordered q) :
    KeyedQueue.Ordered (ops.foldl (fun q op => (specStep q op).2) q) := by
  induction ops generalizing q with
  | nil => exact hordered
  | cons op ops ih =>
    exact ih (fun op' hop' => hsorted op' (List.mem_cons_of_mem op hop'))
      (specStep_ordered hordered (hsorted op List.mem_cons_self))

end Entries

/-- `first` and `last` are null together. -/
theorem Chained.first_eq_none_iff {l : NachosList α} {cells : List (ℕ × ListElement α)}
    (h : l.Chained cells) : l.first = none ↔ l.last = none := by
  rw [h.last_eq]
  cases cells with
  | nil => simp [show l.first = none from h.leads, addresses]
  | cons cell cells => simp [h.leads.1, addresses]

/-- After any operations on an empty list the elements are a chain without a cycle, and the list is
the sequence that these operations make; nothing of what they add gets lost or doubled. If all of
them go by the keys, a least entry leaves first, and those with one key leave in the order in which
they came. -/
theorem list_correct [Inhabited α] (ops : List (Op α)) :
    ∃ l cells, run next empty ops = .ok l ∧ l.Chained cells ∧ (addresses cells).Nodup ∧
      (l.first = none ↔ l.last = none) ∧
      outputs step empty ops = .ok (answers specStep [] ops) ∧
      entries cells = specAfter ops ∧
      (ops.flatMap Op.inserted).Perm (trace next removed empty ops ++ entries cells) ∧
      ((∀ op ∈ ops, op.Sorted) → KeyedQueue.Ordered (entries cells) ∧
        (∀ e rest, entries cells = e :: rest → (∀ e' ∈ entries cells, e.1 ≤ e'.1) ∧
          ∃ l', l.step .sortedRemove = .ok ((some e.2, some e.1), l')) ∧
        ∀ k, KeyedQueue.withKey k (ops.flatMap Op.inserted) =
          KeyedQueue.withKey k (trace next removed empty ops) ++
            KeyedQueue.withKey k (entries cells)) := by
  obtain ⟨l, hrun, hrep⟩ :
      ∃ l, run next empty ops = .ok l ∧ l.Represents (specAfter ops) :=
    run_represents empty_represents
  obtain ⟨cells, hchain, hentries⟩ := hrep
  -- the list answers each operation as the queue it stands for
  have houtputs : outputs step (empty : NachosList α) ops = .ok (answers specStep [] ops) := by
    have hproj : ∀ (l : NachosList α) op answer l',
        l.step op = .ok (answer, l') → l.next op = .ok l' := by
      intro l op answer l' hstep
      rw [next, hstep, ok_bind]
      rfl
    have hsim : ∀ (l : NachosList α) q (op : Op α), l.Represents q → True →
        ∃ l', l.step op = .ok ((specStep q op).1, l') ∧ l'.Represents (specStep q op).2 :=
      fun _ _ op h _ => step_represents h op
    exact Along.simulation hproj hsim empty_represents (Along.of_forall fun _ _ => trivial)
  refine ⟨l, cells, hrun, hchain, hchain.leads.nodup, hchain.first_eq_none_iff, houtputs,
    hentries, ?_, fun hsorted => ?_⟩
  · rw [hentries]
    exact trace_perm empty_represents
  · -- with sorted operations only, the entries stay in order
    have hordered : KeyedQueue.Ordered (entries cells) := by
      rw [hentries]
      exact foldl_ordered hsorted List.Pairwise.nil
    refine ⟨hordered, fun e rest heq => ⟨?_, ?_⟩, fun k => ?_⟩
    · rw [heq] at hordered ⊢
      exact hordered.head_le
    · obtain ⟨l', hstep, -⟩ := step_represents ⟨cells, hchain, heq⟩ (.sortedRemove : Op α)
      exact ⟨l', hstep⟩
    · rw [hentries]
      exact trace_withKey empty_represents hsorted List.Pairwise.nil k

end NachosList
end NachOS
