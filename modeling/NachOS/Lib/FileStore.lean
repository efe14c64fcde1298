import NachOS.Lib.BoundedMap
import NachOS.Lib.Run

/-!
# Stores of files

What a file system is for: byte strings under keys, at most `capacity` of them, and handles, each
with a key and a position. Files keep the length they were created with. Only the bytes of a new
file are not said.
-/

/-- The files, and the handles given out so far; a closed handle is `none`. -/
structure FileStore (κ : Type) (capacity : ℕ) where
  files : BoundedMap κ (List UInt8) capacity
  handles : List (Option (κ × ℕ))

namespace FileStore

variable {κ : Type} {capacity : ℕ}

/-- The calls of the users of a store. -/
inductive Call (κ : Type) where
  | create (k : κ) (size : ℕ)
  | remove (k : κ)
  | openFile (k : κ)
  | read (h n : ℕ)
  | write (h : ℕ) (chunk : List UInt8)
  | readAt (h n position : ℕ)
  | writeAt (h : ℕ) (chunk : List UInt8) (position : ℕ)
  | seek (h position : ℕ)
  | length (h : ℕ)
  | close (h : ℕ)
  /-- All handles are lost. -/
  | restart

inductive Reply where
  | done (success : Bool)
  | handle (h : Option ℕ)
  /-- A result and the bytes that come with it. -/
  | bytes (n : ℤ) (chunk : List UInt8)
  | count (n : ℤ)
deriving DecidableEq

/-! ## Byte strings -/

/-- A chunk in place of the bytes from `position` on. What does not fit is dropped. -/
def splice (bytes : List UInt8) (position : ℕ) (chunk : List UInt8) : List UInt8 :=
  bytes.take position ++ (chunk.take (bytes.length - position) ++
    bytes.drop (position + chunk.length))

/-- Writing over a part of a file does not change its length. -/
theorem length_splice (bytes : List UInt8) (position : ℕ) (chunk : List UInt8) :
    (splice bytes position chunk).length = bytes.length := by
  simp only [splice, List.length_append, List.length_take, List.length_drop]
  omega

/-- The bytes at `position` are the chunk's, and the others are kept. -/
theorem getElem_splice (bytes : List UInt8) (position : ℕ) (chunk : List UInt8) {k : ℕ}
    (hk : k < bytes.length) :
    (splice bytes position chunk)[k]? =
      if position ≤ k ∧ k < position + chunk.length then chunk[k - position]? else bytes[k]? := by
  unfold splice
  by_cases hbefore : k < position
  · rw [List.getElem?_append_left (by rw [List.length_take]; omega), List.getElem?_take_of_lt hbefore,
      if_neg (by omega)]
  · rw [List.getElem?_append_right (by rw [List.length_take]; omega), List.length_take,
      Nat.min_eq_left (by omega)]
    by_cases hwithin : k < position + chunk.length
    · rw [List.getElem?_append_left (by rw [List.length_take]; omega),
        List.getElem?_take_of_lt (by omega), if_pos (by omega)]
    · rw [List.getElem?_append_right (by rw [List.length_take]; omega), List.length_take,
        List.getElem?_drop, if_neg (by omega)]
      congr 1
      omega

/-! ## Slots -/

section

variable {α : Type} {slots : List (Option α)} {h : ℕ}

/-- A slot that is filled is one of the list. -/
theorem mem_of_join {a : α} (hfilled : (slots[h]?).join = some a) : some a ∈ slots :=
  List.mem_of_getElem? (Option.join_eq_some_iff.mp hfilled)

/-- Writing one slot. -/
theorem join_set {a : α} (hfilled : (slots[h]?).join = some a) (o : Option α) (h' : ℕ) :
    ((slots.set h o)[h']?).join = if h' = h then o else (slots[h']?).join := by
  have hlt : h < slots.length := (List.getElem?_eq_some_iff.mp (Option.join_eq_some_iff.mp hfilled)).1
  rw [List.getElem?_set]
  by_cases hh : h = h'
  · rw [if_pos hh, if_pos hlt, if_pos hh.symm, Option.join_some]
  · rw [if_neg hh, if_neg fun heq => hh heq.symm]

/-- Adding a slot at the end. -/
theorem join_append (o : Option α) (h : ℕ) :
    ((slots ++ [o])[h]?).join = if h = slots.length then o else (slots[h]?).join := by
  by_cases hlast : h = slots.length
  · rw [if_pos hlast, hlast, List.getElem?_concat_length, Option.join_some]
  · rw [if_neg hlast]
    rcases Nat.lt_or_gt_of_ne hlast with hlt | hgt
    · rw [List.getElem?_append_left hlt]
    · rw [List.getElem?_eq_none (by rw [List.length_append, List.length_singleton]; omega),
        List.getElem?_eq_none (by omega)]

theorem join_map_none (slots : List (Option α)) (h : ℕ) :
    ((slots.map fun _ => (none : Option α))[h]?).join = none := by
  rw [List.getElem?_map]
  cases slots[h]? with
  | none => rfl
  | some o => rfl

end

/-! ## Calls -/

variable [DecidableEq κ]

def empty : FileStore κ capacity := ⟨BoundedMap.empty, []⟩

/-- Another byte string for a key that is there. -/
def overwritten (t : FileStore κ capacity) (k : κ) (bytes : List UInt8) :
    BoundedMap κ (List UInt8) capacity where
  entries := if t.files.find k = none then t.files.entries else t.files.entries.insert k bytes
  card_le := by
    split
    · exact t.files.card_le
    · rename_i hfound
      rw [BoundedMap.keys_insert, Finset.insert_eq_of_mem]
      · exact t.files.card_le
      · rw [Finmap.mem_keys, ← Finmap.lookup_isSome, Option.isSome_iff_ne_none]
        exact hfound

/-- A write concerns its own file only. -/
theorem find_overwritten (t : FileStore κ capacity) {k : κ} (bytes : List UInt8)
    (hfound : t.files.find k ≠ none) (k' : κ) :
    (t.overwritten k bytes).find k' = if k' = k then some bytes else t.files.find k' := by
  have hentries : (t.overwritten k bytes).entries = t.files.entries.insert k bytes :=
    if_neg hfound
  unfold BoundedMap.find
  rw [hentries]
  by_cases hk : k' = k
  · rw [if_pos hk, hk, Finmap.lookup_insert]
  · rw [if_neg hk, Finmap.lookup_insert_of_ne _ hk]

/-- What the handle is for, if it is open. -/
def opened (t : FileStore κ capacity) (h : ℕ) : Option (κ × ℕ) := (t.handles[h]?).join

/-- What the handle is for, and the bytes there. -/
def Denotes (t : FileStore κ capacity) (h : ℕ) (k : κ) (position : ℕ) (bytes : List UInt8) : Prop :=
  t.opened h = some (k, position) ∧ t.files.find k = some bytes

/-- The handle with another position. -/
def moved (t : FileStore κ capacity) (h : ℕ) (k : κ) (position : ℕ) : FileStore κ capacity :=
  { t with handles := t.handles.set h (some (k, position)) }

/-- A call, its reply, and the store after it. -/
inductive Step (t : FileStore κ capacity) : Call κ → Reply → FileStore κ capacity → Prop where
  | create (k : κ) (bytes : List UInt8) :
    Step t (.create k bytes.length) (.done (t.files.add k bytes).1)
      { t with files := (t.files.add k bytes).2 }
  | remove (k : κ) :
    Step t (.remove k) (.done (t.files.remove k).1) { t with files := (t.files.remove k).2 }
  | openAbsent (k : κ) (habsent : t.files.find k = none) :
    Step t (.openFile k) (.handle none) t
  | openFound (k : κ) (hfound : t.files.find k ≠ none) :
    Step t (.openFile k) (.handle (some t.handles.length))
      { t with handles := t.handles ++ [some (k, 0)] }
  | read (h n : ℕ) (k : κ) (position : ℕ) (bytes : List UInt8)
    (hdenotes : t.Denotes h k position bytes) :
    Step t (.read h n) (.bytes ((bytes.drop position).take n).length ((bytes.drop position).take n))
      (t.moved h k (position + ((bytes.drop position).take n).length))
  | write (h : ℕ) (chunk : List UInt8) (k : κ) (position : ℕ) (bytes : List UInt8)
    (hdenotes : t.Denotes h k position bytes) :
    Step t (.write h chunk) (.count (min chunk.length (bytes.length - position) : ℕ))
      { t.moved h k (position + min chunk.length (bytes.length - position)) with
        files := t.overwritten k (splice bytes position chunk) }
  | readAt (h n position : ℕ) (k : κ) (position' : ℕ) (bytes : List UInt8)
    (hdenotes : t.Denotes h k position' bytes) :
    Step t (.readAt h n position)
      (.bytes ((bytes.drop position).take n).length ((bytes.drop position).take n)) t
  | writeAt (h : ℕ) (chunk : List UInt8) (position : ℕ) (k : κ) (position' : ℕ)
    (bytes : List UInt8) (hdenotes : t.Denotes h k position' bytes) :
    Step t (.writeAt h chunk position)
      (.count (min chunk.length (bytes.length - position) : ℕ))
      { t with files := t.overwritten k (splice bytes position chunk) }
  | seek (h position : ℕ) (k : κ) (position' : ℕ) (bytes : List UInt8)
    (hdenotes : t.Denotes h k position' bytes) :
    Step t (.seek h position) (.done true) (t.moved h k position)
  | length (h : ℕ) (k : κ) (position : ℕ) (bytes : List UInt8)
    (hdenotes : t.Denotes h k position bytes) :
    Step t (.length h) (.count bytes.length) t
  | close (h : ℕ) (k : κ) (position : ℕ) (bytes : List UInt8)
    (hdenotes : t.Denotes h k position bytes) :
    Step t (.close h) (.done true) { t with handles := t.handles.set h none }
  | restart : Step t .restart (.done true) { t with handles := t.handles.map fun _ => none }

end FileStore
