import NachOS.Userprog.SystemCalls
import Mathlib.Order.Bounds.Basic

/-!
# What the system calls copy

`NachOS_Write` and `NachOS_Open` let `ReadMem` store an `int` at the place of a `char`, and
`NachOS_Write` stops at a line feed and stores its terminator one place too far. `NachOS_Read`
looks behind the end of its buffer to find out whether it is done. `NachOS_Create` does not
terminate the name, and `NachOS_Exec` does not read it from user memory at all.
-/

namespace NachOS

open PartialRun

/-! ## Bytes as characters -/

theorem valueBytes_toChar (b : UInt8) : System.valueBytes (toChar b) 0 = b := by
  have hlt := b.toNat_lt
  rw [System.valueBytes, toChar, ← UInt8.ofNat_toNat (x := b)]
  congr 1
  simp only [UInt8.ofNat_toNat]
  omega

theorem toChar_eq_zero {b : UInt8} : toChar b = 0 ↔ b = 0 := by
  constructor
  · intro h
    rw [← valueBytes_toChar b, h]
    rfl
  · rintro rfl
    rfl

/-- `'\n'`. -/
def lineFeed : UInt8 := '\n'.toUInt8

theorem valueBytes_lineFeed {k : ℕ} (hpos : 0 < k) (hlt : k < 4) :
    System.valueBytes (toChar lineFeed) k = 0 := by
  obtain rfl | rfl | rfl : k = 1 ∨ k = 2 ∨ k = 3 := by omega
  all_goals decide +kernel

section

variable {μ : Type} {memory : UserMemory μ} {m m' : μ} {addr : ℤ}

/-! ## Readable memory -/

/-- `ReadMem` delivers these bytes, at the address and the following ones. -/
def Reads (memory : UserMemory μ) : μ → ℤ → List UInt8 → μ → Prop
  | m, _, [], m' => m' = m
  | m, addr, b :: bs, m' => ∃ m₁, memory.readMem m addr = .ok (some (toChar b), m₁) ∧
    Reads memory m₁ (addr + 1) bs m'

theorem Reads.cons {b : UInt8} {bs : List UInt8} {i : ℕ}
    (h : Reads memory m (addr + i) (b :: bs) m') : ∃ m₁,
      memory.readMem m (addr + i) = .ok (some (toChar b), m₁) ∧
      Reads memory m₁ (addr + (i + 1 : ℕ)) bs m' := by
  obtain ⟨m₁, hread, hrest⟩ := h
  refine ⟨m₁, hread, ?_⟩
  rw [Int.add_assoc] at hrest
  exact_mod_cast hrest

/-- A program without virtual memory can read all of its pages. -/
theorem NoVM.Implements.reads {n : ℕ} {array : Bytes} {len : ℕ} {m : NoVM.Memory} {a : ℕ}
    (h : NoVM.Implements n m array) (hrange : a + len ≤ n * pageSize) : ∃ m',
      Reads NoVM.userMemory m a ((List.range len).map fun i => array (a + i)) m' := by
  induction len generalizing m a with
  | zero => exact ⟨m, rfl⟩
  | succ len ih =>
    have hone : (a : ℤ) + Size.byte.bytes ≤ n * pageSize := by
      simp only [Size.bytes]
      exact_mod_cast (by omega : a + 1 ≤ n * pageSize)
    obtain ⟨a', ha', -, hint, e, he⟩ := h.entry (Int.natCast_nonneg a) hone
    obtain rfl : a = a' := by exact_mod_cast ha'
    obtain ⟨hlinear, hplace⟩ := h.linear.set he true (e.dirty || false)
    have hread : NoVM.userMemory.readMem m a = .ok (some (toChar (array a)),
        ⟨m.pageTable.set (a / pageSize) { e with use := true, dirty := e.dirty || false },
          m.mainMemory⟩) := by
      have hvalue : System.readValue m.mainMemory (NoVM.place m.pageTable a) .byte =
          toChar (array a) := by
        rw [← h.bytes a (by omega)]
        rfl
      simp only [NoVM.userMemory, NoVM.readMem]
      rw [h.linear.translate_ok (by simp [Size.bytes]) hint he false, ← hvalue]
      rfl
    have hafter : NoVM.Implements n
        ⟨m.pageTable.set (a / pageSize) { e with use := true, dirty := e.dirty || false },
          m.mainMemory⟩ array := by
      refine ⟨hlinear, ?_, fun b hb => ?_⟩
      · rw [List.length_set]
        exact h.length
      · dsimp only
        rw [hplace]
        exact h.bytes b hb
    obtain ⟨m', hreads⟩ := ih (a := a + 1) hafter (by omega)
    have hbytes : (List.range (len + 1)).map (fun i => array (a + i)) =
        array a :: (List.range len).map fun i => array (a + 1 + i) := by
      rw [List.range_succ_eq_map, List.map_cons, List.map_map]
      refine congrArg (List.cons _) (List.map_congr_left fun i _ => congrArg array ?_)
      rw [Nat.succ_eq_add_one]
      omega
    rw [hbytes]
    exact ⟨m', _, hread, by exact_mod_cast hreads⟩

/-! ## `Write` -/

/-- A step of the loop: the character is stored, with the rest of an `int`, if there is room. -/
theorem writeLoop_cons {b : UInt8} {bs : List UInt8} {i : ℕ} {content : CharBuffer} (left : ℕ)
    (hreads : Reads memory m (addr + i) (b :: bs) m') (hroom : i + sizeofInt ≤ content.size) :
    ∃ m₁ content₁, Reads memory m₁ (addr + (i + 1 : ℕ)) bs m' ∧ content₁.size = content.size ∧
      content₁.bytes i = some b ∧
      (∀ k, i < k → k < i + sizeofInt →
        content₁.bytes k = some (System.valueBytes (toChar b) (k - i))) ∧
      (∀ k, ¬ (i ≤ k ∧ k < i + sizeofInt) → content₁.bytes k = content.bytes k) ∧
      writeLoop memory addr (left + 1) i content m =
        if b = lineFeed then .ok (i, content₁, m₁)
        else writeLoop memory addr left (i + 1) content₁ m₁ := by
  obtain ⟨m₁, hread, hrest⟩ := hreads.cons
  have hself : (if i ≤ i ∧ i < i + sizeofInt then some (System.valueBytes (toChar b) (i - i))
      else content.bytes i) = some b := by
    rw [if_pos ⟨Nat.le_refl i, by simp [sizeofInt]⟩, Nat.sub_self, valueBytes_toChar]
  refine ⟨m₁, { content with
    bytes := fun k => if i ≤ k ∧ k < i + sizeofInt then
      some (System.valueBytes (toChar b) (k - i)) else content.bytes k }, hrest, rfl, hself,
    fun k hk hk' => if_pos ⟨by omega, hk'⟩, fun k hk => if_neg hk, ?_⟩
  have hlt : i < content.size := by
    have : sizeofInt = 4 := rfl
    omega
  rw [writeLoop, hread, ok_bind]
  dsimp only
  rw [storeRead, CharBuffer.storeInt, if_pos hroom, ok_bind, CharBuffer.load]
  dsimp only
  rw [if_pos hlt, hself]
  rfl

/-- Without room for an `int` the store leaves the buffer. -/
theorem writeLoop_overrun {b : UInt8} {bs : List UInt8} {i left : ℕ} {content : CharBuffer}
    (hreads : Reads memory m (addr + i) (b :: bs) m') (hroom : ¬ i + sizeofInt ≤ content.size) :
    writeLoop memory addr (left + 1) i content m = .error .buffer := by
  obtain ⟨m₁, hread, -⟩ := hreads.cons
  rw [writeLoop, hread, ok_bind]
  dsimp only
  rw [storeRead, CharBuffer.storeInt, if_neg hroom]
  rfl

/-- The loop stops at the first line feed, if two more characters have room after it. -/
theorem writeLoop_ok {before after : List UInt8} {i : ℕ} {content : CharBuffer}
    (hreads : Reads memory m (addr + i) (before ++ lineFeed :: after) m')
    (hbefore : lineFeed ∉ before)
    (hsize : content.size = i + before.length + after.length + 2) (hafter : 2 ≤ after.length) :
    ∃ m₁ content₁, writeLoop memory addr (before.length + after.length + 1) i content m =
        .ok (i + before.length, content₁, m₁) ∧ content₁.size = content.size ∧
      (∀ k < i, content₁.bytes k = content.bytes k) ∧
      (∀ k ≤ before.length, content₁.bytes (i + k) = (before ++ [lineFeed])[k]?) ∧
      (∀ k, i + before.length < k → k < i + before.length + 4 → content₁.bytes k = some 0) ∧
      ∀ k, i + before.length + 4 ≤ k → content₁.bytes k = content.bytes k := by
  have hint : sizeofInt = 4 := rfl
  -- the induction is on the bytes before the line feed
  induction before generalizing i content m with
  | nil =>
    have hroom : i + sizeofInt ≤ content.size := by
      simp only [List.length_nil] at hsize
      omega
    obtain ⟨m₁, content₁, -, hsize₁, hself, hrest, hothers, hloop⟩ :=
      writeLoop_cons after.length hreads hroom
    refine ⟨m₁, content₁, ?_, hsize₁, fun k hk => hothers k (by omega), fun k hk => ?_,
      fun k hk hk' => ?_, fun k hk => hothers k ?_⟩
    · rw [List.length_nil, Nat.zero_add, hloop, if_pos rfl]
      rfl
    · obtain rfl : k = 0 := by simpa using hk
      exact hself
    · simp only [List.length_nil, Nat.add_zero] at hk hk'
      -- an `int` is stored at a `char`, so the line feed brings three zeros
      rw [hrest k hk (by omega), valueBytes_lineFeed (by omega) (by omega)]
    · simp only [List.length_nil, Nat.add_zero] at hk
      omega
  | cons b before ih =>
    simp only [List.length_cons] at hsize ⊢
    have hroom : i + sizeofInt ≤ content.size := by omega
    obtain ⟨m₁, content₁, hreads₁, hsize₁, hself, -, hothers, hloop⟩ :=
      writeLoop_cons (before.length + after.length + 1) hreads hroom
    obtain ⟨hb, hbefore⟩ : lineFeed ≠ b ∧ lineFeed ∉ before := by simpa using hbefore
    have hsize' : content₁.size = i + 1 + before.length + after.length + 2 := by omega
    obtain ⟨m₂, content₂, hloop₂, hsize₂, hlow, hmid, hzero, hhigh⟩ := ih hreads₁ hbefore hsize'
    refine ⟨m₂, content₂, ?_, hsize₂.trans hsize₁, fun k hk => ?_, fun k hk => ?_,
      fun k hk hk' => hzero k (by omega) (by omega), fun k hk => ?_⟩
    · rw [show before.length + 1 + after.length + 1 = before.length + after.length + 1 + 1 by omega,
        hloop, if_neg (Ne.symm hb), hloop₂, show i + 1 + before.length = i + (before.length + 1) by
        omega]
    · rw [hlow k (by omega), hothers k (by omega)]
    · cases k with
      | zero =>
        rw [Nat.add_zero, hlow i (by omega), hself]
        rfl
      | succ k =>
        rw [show i + (k + 1) = i + 1 + k by omega, hmid k (by omega)]
        rfl
    · rw [hhigh k (by omega), hothers k (by omega)]

/-- There is a line feed, and two more characters after the first one. -/
def Stops (bs : List UInt8) : Prop :=
  ∃ before after, bs = before ++ lineFeed :: after ∧ lineFeed ∉ before ∧ 2 ≤ after.length

/-- Otherwise a store leaves the buffer. -/
theorem writeLoop_error {bs : List UInt8} {i : ℕ} {content : CharBuffer} (hne : bs ≠ [])
    (hreads : Reads memory m (addr + i) bs m') (hstops : ¬ Stops bs)
    (hsize : content.size = i + bs.length + 1) :
    writeLoop memory addr bs.length i content m = .error .buffer := by
  have hint : sizeofInt = 4 := rfl
  induction bs generalizing i content m with
  | nil => exact absurd rfl hne
  | cons b bs ih =>
    rw [List.length_cons] at hsize ⊢
    by_cases hroom : i + sizeofInt ≤ content.size
    · obtain ⟨m₁, content₁, hreads₁, hsize₁, -, -, -, hloop⟩ :=
        writeLoop_cons bs.length hreads hroom
      have hb : b ≠ lineFeed := by
        rintro rfl
        exact hstops ⟨[], bs, rfl, by simp, by omega⟩
      rw [hloop, if_neg hb]
      refine ih ?_ hreads₁ ?_ (by omega)
      · rintro rfl
        simp only [List.length_nil] at hsize
        omega
      · rintro ⟨before, after, rfl, hbefore, hafter⟩
        exact hstops ⟨b :: before, after, rfl, by simpa using ⟨Ne.symm hb, hbefore⟩, hafter⟩
    · exact writeLoop_overrun hreads hroom

/-- What is passed after the line feed: the rest of the `int` it was read as, then bytes that
were never set. -/
def leftover (n : ℕ) : List (Option UInt8) :=
  (List.range n).map fun k => if k < 3 then some 0 else none

theorem leftover_eq_iff {after : List UInt8} (h : 2 ≤ after.length) :
    leftover after.length = after.map some ↔ after = [0, 0] ∨ after = [0, 0, 0] := by
  rcases after with _ | ⟨a, _ | ⟨b, _ | ⟨c, _ | ⟨d, rest⟩⟩⟩⟩
  · simp at h
  · simp at h
  · simp [leftover, List.range_succ, eq_comm]
  · simp [leftover, List.range_succ, eq_comm]
  · constructor
    · intro heq
      have hfourth := congrArg (fun bytes => bytes[3]?) heq
      simp [leftover] at hfourth
    · intro heq
      simp at heq

theorem newBuffer (n : ℕ) : CharBuffer.new ((n : ℤ) + 1) = .ok ⟨n + 1, fun _ => none⟩ := by
  rw [CharBuffer.new, if_neg (by omega)]
  rfl

/-- The bytes that `write` gets. -/
theorem nachosWrite_stops {t : NachosOpenFilesTable} {before after : List UInt8}
    {descriptor unixHandle : ℤ}
    (hreads : Reads memory m addr (before ++ lineFeed :: after) m') (hbefore : lineFeed ∉ before)
    (hafter : 2 ≤ after.length) (hinput : descriptor ≠ consoleInput)
    (houtput : descriptor ≠ consoleOutput) (hopened : t.isOpened descriptor = .ok true)
    (hunix : t.getUnixHandle descriptor = .ok unixHandle) :
    ∃ m₁, nachosWrite memory m t addr (before ++ lineFeed :: after).length descriptor =
      .ok (.wrote unixHandle ((before ++ [lineFeed]).map some ++ leftover after.length),
        (before ++ lineFeed :: after).length, m₁) := by
  have hlength : (before ++ lineFeed :: after).length = before.length + after.length + 1 := by
    simp only [List.length_append, List.length_cons]
    omega
  rw [hlength]
  have hreads : Reads memory m (addr + (0 : ℕ)) (before ++ lineFeed :: after) m' := by
    simpa using hreads
  have hroom : (⟨before.length + after.length + 1 + 1, fun _ => none⟩ : CharBuffer).size =
      0 + before.length + after.length + 2 := by
    dsimp only
    omega
  -- the loop breaks at the line feed and leaves zeros behind it
  obtain ⟨m₁, content, hloop, hsize, -, hlow, hzero, hhigh⟩ :=
    writeLoop_ok hreads hbefore hroom hafter
  simp only [Nat.zero_add] at hloop hlow hzero hhigh
  have hstore : content.store (before.length + 1) 0 = .ok { content with
      bytes := Function.update content.bytes (before.length + 1) (some 0) } := by
    rw [CharBuffer.store, if_pos]
    rw [hsize]
    dsimp only
    omega
  -- all `size` bytes of the buffer go to `write`, also those that were never read
  have hpassed : (List.range (before.length + after.length + 1)).map
      (Function.update content.bytes (before.length + 1) (some 0)) =
      (before ++ [lineFeed]).map some ++ leftover after.length := by
    rw [show before.length + after.length + 1 = (before.length + 1) + after.length by omega,
      List.range_add, List.map_append, List.map_map]
    congr 1
    · apply List.ext_getElem?
      intro k
      rw [List.getElem?_map, List.getElem?_map]
      by_cases hk : k < before.length + 1
      · have hlt : k < (before ++ [lineFeed]).length := by simpa using hk
        have hget : (before ++ [lineFeed])[k]? = some ((before ++ [lineFeed])[k]) :=
          List.getElem?_eq_getElem hlt
        rw [List.getElem?_range hk, Option.map_some, Function.update_of_ne (by omega),
          hlow k (by omega), hget]
        rfl
      · rw [List.getElem?_eq_none (by simpa using hk), List.getElem?_eq_none (by simpa using hk)]
        rfl
    · refine List.map_congr_left fun k _ => ?_
      rw [Function.comp_apply]
      by_cases hk : k < 3
      · rw [if_pos hk]
        by_cases hfirst : k = 0
        · rw [hfirst]
          exact Function.update_self _ _ _
        · rw [Function.update_of_ne (by omega), hzero _ (by omega) (by omega)]
      · rw [if_neg hk, Function.update_of_ne (by omega), hhigh _ (by omega)]
  refine ⟨m₁, ?_⟩
  have hnat : ((before.length + after.length + 1 : ℕ) : ℤ).toNat =
      before.length + after.length + 1 := Int.toNat_natCast _
  rw [nachosWrite, newBuffer, ok_bind, hnat, hloop, ok_bind]
  dsimp only
  rw [hstore, ok_bind, if_neg hinput, if_neg houtput, hopened, ok_bind, if_pos rfl, hunix, ok_bind,
    hpassed]
  rfl

/-- Without such a line feed a store leaves the buffer, also if there is nothing to write. -/
theorem nachosWrite_error {t : NachosOpenFilesTable} {bs : List UInt8} {descriptor : ℤ}
    (hreads : Reads memory m addr bs m') (hstops : ¬ Stops bs) :
    nachosWrite memory m t addr bs.length descriptor = .error .buffer := by
  have hreads : Reads memory m (addr + (0 : ℕ)) bs m' := by simpa using hreads
  rw [nachosWrite, newBuffer, ok_bind, Int.toNat_natCast]
  by_cases hne : bs = []
  · subst hne
    rfl
  · rw [writeLoop_error hne hreads hstops (by dsimp only; omega)]
    rfl

/-- What comes before and after the first occurrence. -/
theorem first_split {x : UInt8} {before before' after after' : List UInt8} (h : x ∉ before)
    (h' : x ∉ before') (heq : before ++ x :: after = before' ++ x :: after') :
    before = before' ∧ after = after' := by
  induction before generalizing before' with
  | nil =>
    cases before' with
    | nil => exact ⟨rfl, (List.cons.inj heq).2⟩
    | cons b before' =>
      obtain ⟨rfl, -⟩ := List.cons.inj heq
      exact absurd List.mem_cons_self h'
  | cons b before ih =>
    cases before' with
    | nil =>
      obtain ⟨rfl, -⟩ := List.cons.inj heq
      exact absurd List.mem_cons_self h
    | cons b' before' =>
      obtain ⟨rfl, htail⟩ := List.cons.inj heq
      obtain ⟨rfl, hafter⟩ := ih (fun hx => h (List.mem_cons_of_mem b hx))
        (fun hx => h' (List.mem_cons_of_mem b hx)) htail
      exact ⟨rfl, hafter⟩

/-- `NachOS_Write` on memory that can be read and an open file passes exactly the bytes to
`write`, without leaving its buffer, only if the first line feed is followed by two or three
more bytes and these are `0`. -/
theorem nachosWrite_passes_iff {t : NachosOpenFilesTable} {bs : List UInt8}
    {descriptor unixHandle : ℤ} (hreads : Reads memory m addr bs m')
    (hinput : descriptor ≠ consoleInput) (houtput : descriptor ≠ consoleOutput)
    (hopened : t.isOpened descriptor = .ok true)
    (hunix : t.getUnixHandle descriptor = .ok unixHandle) :
    (∃ m₁, nachosWrite memory m t addr bs.length descriptor =
      .ok (.wrote unixHandle (bs.map some), bs.length, m₁)) ↔
    ∃ before, lineFeed ∉ before ∧
      (bs = before ++ [lineFeed, 0, 0] ∨ bs = before ++ [lineFeed, 0, 0, 0]) := by
  by_cases hstops : Stops bs
  · obtain ⟨before, after, rfl, hbefore, hafter⟩ := hstops
    obtain ⟨m₁, hwrite⟩ :=
      nachosWrite_stops hreads hbefore hafter hinput houtput hopened hunix
    -- what is written behind the line feed is not read from the memory
    have hpassed : (∃ m₁, nachosWrite memory m t addr (before ++ lineFeed :: after).length
        descriptor = .ok (.wrote unixHandle ((before ++ lineFeed :: after).map some),
          (before ++ lineFeed :: after).length, m₁)) ↔ leftover after.length = after.map some := by
      rw [hwrite, List.append_cons, List.map_append]
      simp
    rw [hpassed, leftover_eq_iff hafter]
    constructor
    · rintro (rfl | rfl)
      · exact ⟨before, hbefore, .inl rfl⟩
      · exact ⟨before, hbefore, .inr rfl⟩
    · rintro ⟨before', hbefore', heq | heq⟩
      · exact .inl (first_split hbefore hbefore' heq).2
      · exact .inr (first_split hbefore hbefore' heq).2
  · -- no line feed where the copy could stop: it runs out of its buffer
    constructor
    · rintro ⟨m₁, hwrite⟩
      rw [nachosWrite_error hreads hstops] at hwrite
      cases hwrite
    · rintro ⟨before, hbefore, rfl | rfl⟩
      · exact absurd ⟨before, [0, 0], rfl, hbefore, by simp⟩ hstops
      · exact absurd ⟨before, [0, 0, 0], rfl, hbefore, by simp⟩ hstops

/-! ## `Read` at the console -/

theorem CharBuffer.store_size {b b' : CharBuffer} {i : ℕ} {c : UInt8} (h : b.store i c = .ok b') :
    b'.size = b.size := by
  unfold CharBuffer.store at h
  split at h
  · cases h
    rfl
  · cases h

theorem CharBuffer.keep_size {b b' : CharBuffer} {p : Prop} [Decidable p] {i : ℕ} {c : UInt8}
    (h : b.keep p i c = .ok b') : b'.size = b.size := by
  unfold CharBuffer.keep at h
  split at h
  · exact CharBuffer.store_size h
  · cases h
    rfl

theorem readConsole_size {size : ℤ} {fuel position end_ : ℕ} {input : List UInt8}
    {charBuffer : UInt8} {content content' : CharBuffer}
    (h : readConsole size fuel input charBuffer position content = .ok (end_, content')) :
    content'.size = content.size := by
  induction fuel generalizing input charBuffer position content with
  | zero => cases h
  | succ fuel ih =>
    obtain ⟨content₁, hstore, h⟩ := bind_ok_iff.mp h
    have hsize := CharBuffer.keep_size hstore
    dsimp only at h
    split at h
    · rw [ih h, hsize]
    · cases pure_ok_iff.mp h
      exact hsize

/-- The second loop is not left: to leave it, an index from `size` on is looked up first. -/
theorem deliver_not_ok {size : ℤ} {content : CharBuffer} (hsize : content.size = size.toNat)
    (fuel readingIndex : ℕ) (m : μ) (r : ℕ × μ) :
    deliver memory addr size content fuel readingIndex m ≠ .ok r := by
  induction fuel generalizing readingIndex m with
  | zero =>
    intro h
    cases h
  | succ fuel ih =>
    intro h
    obtain ⟨c, hload, h⟩ := bind_ok_iff.mp h
    have hlt : readingIndex < size := by
      unfold CharBuffer.load at hload
      split at hload
      · omega
      · cases hload
    obtain ⟨more, hmore, h⟩ := bind_ok_iff.mp h
    have hmore : more = true := by
      unfold goesOn at hmore
      split at hmore
      · exact (Except.ok.inj hmore).symm
      · obtain ⟨n, -, hmore⟩ := bind_ok_iff.mp hmore
        rw [← pure_ok_iff.mp hmore, decide_eq_true_eq]
        exact .inr hlt
    rw [if_pos hmore] at h
    obtain ⟨⟨done, m₁⟩, -, h⟩ := bind_ok_iff.mp h
    exact ih (readingIndex + 1) m₁ h

/-- `WriteMem` stores these bytes, at the address and the following ones. -/
def Writes (memory : UserMemory μ) : μ → ℤ → List UInt8 → μ → Prop
  | m, _, [], m' => m' = m
  | m, addr, b :: bs, m' => ∃ m₁, memory.writeMem m addr (toChar b) = .ok (true, m₁) ∧
    Writes memory m₁ (addr + 1) bs m'

/-- What `NachOS_Read` is to do at the console: it stores at most `size` bytes, all of them from
the input, returns their number, and stays within its buffer. -/
def ReadsConsole (memory : UserMemory μ) (m : μ) (t : NachosOpenFilesTable) (addr size : ℤ)
    (input : List UInt8) : Prop :=
  ∃ bs m', nachosRead memory m t addr size consoleInput (some input) = .ok ((bs.length : ℤ), m') ∧
    (bs.length : ℤ) ≤ size ∧ bs ⊆ input ∧ Writes memory m addr bs m'

/-- It never does. -/
theorem nachosRead_not_readsConsole (memory : UserMemory μ) (m : μ) (t : NachosOpenFilesTable)
    (addr size : ℤ) (input : List UInt8) : ¬ ReadsConsole memory m t addr size input := by
  rintro ⟨bs, m', hread, -⟩
  obtain ⟨content, hnew, hread⟩ := bind_ok_iff.mp hread
  rw [if_pos rfl] at hread
  obtain ⟨⟨position, content₁⟩, hconsole, hread⟩ := bind_ok_iff.mp hread
  obtain ⟨content₂, hterminator, hread⟩ := bind_ok_iff.mp hread
  obtain ⟨r, hdeliver, -⟩ := bind_ok_iff.mp hread
  have hsize : content.size = size.toNat := by
    unfold CharBuffer.new at hnew
    split at hnew
    · cases hnew
    · cases hnew
      rfl
  refine deliver_not_ok ?_ _ _ _ _ hdeliver
  rw [CharBuffer.keep_size hterminator, readConsole_size hconsole, hsize]

/-! ## File names -/

/-- The pointer is to the characters and then `'\0'`. -/
def Denotes (name : ℕ → Option UInt8) (text : List UInt8) : Prop :=
  (∀ i < text.length, name i = text[i]?) ∧ name text.length = some 0

theorem toChar_ne_zero {b : UInt8} {bs : List UInt8} (h : 0 ∉ b :: bs) : toChar b ≠ 0 ∧ 0 ∉ bs := by
  rw [List.mem_cons, not_or] at h
  exact ⟨fun hb => h.1 (toChar_eq_zero.mp hb).symm, h.2⟩

/-- The size of a buffer that was doubled `k` times. -/
def capacity (k : ℕ) : ℕ := firstCapacity * 2 ^ k

/-- How often the buffer can be doubled. -/
def maxGrowth : ℕ := 23

theorem capacity_succ (k : ℕ) : capacity (k + 1) = capacity k * 2 := by
  rw [capacity, capacity, Nat.pow_succ, Nat.mul_assoc]

theorem capacity_mono {j k : ℕ} (h : j ≤ k) : capacity j ≤ capacity k :=
  Nat.mul_le_mul_left _ (Nat.pow_le_pow_right (by decide) h)

/-- The buffer of `NachOS_Create` when the characters before `p` have been read. -/
structure Holding (contents : ℕ → ℕ → UInt8) (p k : ℕ) (b : CharBuffer) : Prop where
  size : b.size = capacity k
  least : ∀ j < k, capacity j ≤ p + 1
  rest : ∀ i, p ≤ i → b.bytes i = some (contents k i)

/-- Before a character is stored there is room for it and one more. -/
theorem Holding.adjust {contents : ℕ → ℕ → UInt8} {p k : ℕ} {b : CharBuffer}
    (h : Holding contents p k b) (hp : p < b.size) (hmax : p + 1 < capacity maxGrowth) :
    ∃ k₁ b₁, NachOS.adjust contents p k b = .ok (k₁, b₁) ∧ Holding contents p k₁ b₁ ∧
      p + 1 < b₁.size ∧ ∀ i < p, b₁.bytes i = b.bytes i := by
  unfold NachOS.adjust
  by_cases hfull : p + 1 = b.size
  · have hk : k < maxGrowth := by
      by_contra hk
      have := capacity_mono (Nat.le_of_not_lt hk)
      have := h.size
      omega
    have hsize : b.size * 2 = capacity (k + 1) := by rw [h.size, capacity_succ]
    have hint : b.size * 2 < 2 ^ 31 := by
      have hle : capacity (k + 1) ≤ capacity maxGrowth := capacity_mono hk
      have hmax : capacity maxGrowth < 2 ^ 31 := by decide
      omega
    rw [if_pos hfull, CharBuffer.grow, if_pos hint]
    refine ⟨k + 1, _, rfl, ⟨hsize, fun j hj => ?_, fun i hi => if_neg (by omega)⟩, ?_,
      fun i hi => if_pos hi⟩
    · have := capacity_mono (Nat.le_of_lt_succ hj)
      have := h.size
      omega
    · dsimp only
      omega
  · rw [if_neg hfull]
    exact ⟨k, b, rfl, h, by omega, fun i _ => rfl⟩

/-- A step of the loop of `NachOS_Create`: the character is stored. -/
theorem createLoop_cons {contents : ℕ → ℕ → UInt8} {x : UInt8} {bs : List UInt8} {p k : ℕ}
    {b : CharBuffer} (hreads : Reads memory m (addr + p) (x :: bs) m') (hx : toChar x ≠ 0)
    (hholding : Holding contents p k b) (hp : p < b.size) (hmax : p + 1 < capacity maxGrowth) :
    ∃ k₁ b₁ m₁, Reads memory m₁ (addr + (p + 1 : ℕ)) bs m' ∧ Holding contents (p + 1) k₁ b₁ ∧
      p + 1 < b₁.size ∧ k₁ ≤ maxGrowth ∧ (∀ i < p, b₁.bytes i = b.bytes i) ∧
      b₁.bytes p = some x ∧ ∀ fuel c, createLoop memory contents addr (fuel + 1) p k c b m =
        createLoop memory contents addr fuel (p + 1) k₁ (toChar x) b₁ m₁ := by
  obtain ⟨m₁, hread, hrest⟩ := hreads.cons
  obtain ⟨k₁, b₁, hadjust, hholding₁, hroom, hsame⟩ := hholding.adjust hp hmax
  have hstore : b₁.store p (System.valueBytes (toChar x) 0) =
      .ok { b₁ with bytes := Function.update b₁.bytes p (some x) } := by
    rw [CharBuffer.store, if_pos (by omega), valueBytes_toChar]
  refine ⟨k₁, { b₁ with bytes := Function.update b₁.bytes p (some x) }, m₁, hrest,
    ⟨hholding₁.size, fun j hj => ?_, fun i hi => ?_⟩, hroom, ?_, fun i hi => ?_,
    Function.update_self _ _ _, fun fuel c => ?_⟩
  · have := hholding₁.least j hj
    omega
  · dsimp only
    rw [Function.update_of_ne (by omega)]
    exact hholding₁.rest i (by omega)
  · by_contra hk
    have := hholding₁.least maxGrowth (Nat.lt_of_not_le hk)
    omega
  · dsimp only
    rw [Function.update_of_ne (by omega), hsame i hi]
  · rw [createLoop, hadjust, ok_bind]
    dsimp only
    rw [hread, ok_bind]
    dsimp only
    rw [Option.getD_some, if_pos hx, hstore]
    rfl

/-- The loop of `NachOS_Create` stores the characters, and not the `'\0'`. -/
theorem createLoop_ok {contents : ℕ → ℕ → UInt8} {text : List UInt8} {p k fuel : ℕ}
    {b : CharBuffer} (hreads : Reads memory m (addr + p) (text ++ [0]) m') (htext : 0 ∉ text)
    (hfuel : text.length < fuel) (hmax : p + text.length + 1 < capacity maxGrowth)
    (hholding : Holding contents p k b) (hp : p < b.size) : ∃ k₁ b₁,
      (∀ c, createLoop memory contents addr fuel p k c b m = .ok (b₁, m')) ∧
      Holding contents (p + text.length) k₁ b₁ ∧ p + text.length + 1 < b₁.size ∧
      (∀ i < p, b₁.bytes i = b.bytes i) ∧ ∀ i < text.length, b₁.bytes (p + i) = text[i]? := by
  obtain ⟨fuel, rfl⟩ : ∃ fuel', fuel = fuel' + 1 := ⟨fuel - 1, by omega⟩
  induction text generalizing p k b m fuel with
  | nil =>
    obtain ⟨m₁, hread, hm'⟩ := hreads.cons
    obtain rfl : m' = m₁ := hm'
    obtain ⟨k₁, b₁, hadjust, hholding₁, hroom, hsame⟩ := hholding.adjust hp (by simpa using hmax)
    refine ⟨k₁, b₁, fun c => ?_, hholding₁, hroom, hsame, fun i hi => ?_⟩
    · rw [createLoop, hadjust, ok_bind]
      dsimp only
      rw [hread, ok_bind]
      rfl
    · simp at hi
  | cons x text ih =>
    rw [List.length_cons] at hfuel hmax
    obtain ⟨hx, htext⟩ := toChar_ne_zero htext
    obtain ⟨k₁, b₁, m₁, hrest, hholding₁, hroom, -, hsame, hself, hstep⟩ :=
      createLoop_cons hreads hx hholding hp (by omega)
    obtain ⟨fuel, rfl⟩ : ∃ fuel', fuel = fuel' + 1 := ⟨fuel - 1, by omega⟩
    obtain ⟨k₂, b₂, hloop, hholding₂, hroom₂, hsame₂, htext₂⟩ :=
      ih hrest htext (by omega) hholding₁ hroom fuel (by omega)
    have hend : p + (x :: text).length = p + 1 + text.length := by
      rw [List.length_cons]
      omega
    rw [hend]
    refine ⟨k₂, b₂, fun c => (hstep _ c).trans (hloop _), hholding₂, hroom₂, fun i hi => ?_,
      fun i hi => ?_⟩
    · rw [hsame₂ i (by omega), hsame i hi]
    · cases i with
      | zero => rw [Nat.add_zero, hsame₂ p (by omega), hself, List.getElem?_cons_zero]
      | succ i =>
        rw [List.length_cons] at hi
        rw [show p + (i + 1) = p + 1 + i by omega, htext₂ i (by omega), List.getElem?_cons_succ]

/-- For a longer name the buffer would have to be doubled once too often. -/
theorem createLoop_error {contents : ℕ → ℕ → UInt8} {text : List UInt8} {p k fuel : ℕ} {c : ℤ}
    {b : CharBuffer} (hreads : Reads memory m (addr + p) (text ++ [0]) m') (htext : 0 ∉ text)
    (hfuel : text.length < fuel) (hmax : capacity maxGrowth ≤ p + text.length + 1)
    (hholding : Holding contents p k b) (hp : p < b.size) (hle : k ≤ maxGrowth) :
    createLoop memory contents addr fuel p k c b m = .error .buffer := by
  have hstops : ∀ {p k fuel : ℕ} {c : ℤ} {b : CharBuffer} {m : μ}, Holding contents p k b →
      p < b.size → k ≤ maxGrowth → ¬ p + 1 < capacity maxGrowth →
      createLoop memory contents addr (fuel + 1) p k c b m = .error .buffer := by
    intro p k fuel c b m hholding hp hle hfull
    have hlimit : b.size ≤ capacity maxGrowth := by
      rw [hholding.size]
      exact capacity_mono hle
    have hlarge : 2 ^ 31 ≤ capacity maxGrowth * 2 := by decide
    rw [createLoop, NachOS.adjust, if_pos (by omega), CharBuffer.grow, if_neg (by omega)]
    rfl
  obtain ⟨fuel, rfl⟩ : ∃ fuel', fuel = fuel' + 1 := ⟨fuel - 1, by omega⟩
  induction text generalizing p k c b m fuel with
  | nil => exact hstops hholding hp hle (by simpa using hmax)
  | cons x text ih =>
    rw [List.length_cons] at hfuel hmax
    by_cases hfull : p + 1 < capacity maxGrowth
    · obtain ⟨hx, htext⟩ := toChar_ne_zero htext
      obtain ⟨k₁, b₁, m₁, hrest, hholding₁, hroom, hle₁, -, -, hstep⟩ :=
        createLoop_cons hreads hx hholding hp hfull
      obtain ⟨fuel, rfl⟩ : ∃ fuel', fuel = fuel' + 1 := ⟨fuel - 1, by omega⟩
      rw [hstep]
      exact ih hrest htext (by omega) hholding₁ hroom hle₁ fuel (by omega)
    · exact hstops hholding hp hle hfull

/-- `NachOS_Create` passes the name only if the last buffer happens to have a `'\0'` after it. -/
theorem nachosCreate_denotes_iff {contents : ℕ → ℕ → UInt8} {creat : (ℕ → Option UInt8) → ℤ}
    {text : List UInt8} {fuel : ℕ} (hreads : Reads memory m addr (text ++ [0]) m')
    (htext : 0 ∉ text) (hfuel : text.length < fuel) :
    (∃ name r m₁, nachosCreate memory contents creat fuel m addr = .ok (name, r, m₁) ∧
      Denotes name text) ↔
    text.length + 1 < capacity maxGrowth ∧
      ∃ k, IsLeast {k | text.length + 1 < capacity k} k ∧ contents k text.length = 0 := by
  have hreads : Reads memory m (addr + (0 : ℕ)) (text ++ [0]) m' := by simpa using hreads
  have hholding : Holding contents 0 0 ⟨firstCapacity, fun i => some (contents 0 i)⟩ :=
    ⟨rfl, fun j hj => absurd hj (Nat.not_lt_zero j), fun _ _ => rfl⟩
  have hfirst : 0 < firstCapacity := by decide
  by_cases hmax : text.length + 1 < capacity maxGrowth
  · obtain ⟨k, b, hloop, hfinal, hroom, -, hcopied⟩ :=
      createLoop_ok hreads htext hfuel (by omega) hholding hfirst
    rw [Nat.zero_add] at hfinal hroom
    have hleast : IsLeast {k | text.length + 1 < capacity k} k := by
      refine ⟨?_, fun j hj => ?_⟩
      · show text.length + 1 < capacity k
        rw [← hfinal.size]
        exact hroom
      · by_contra hjk
        have hle := hfinal.least j (Nat.lt_of_not_le hjk)
        have hj : text.length + 1 < capacity j := hj
        omega
    -- behind the text is what the last buffer held there before
    have hend : b.pointee text.length = some (contents k text.length) := by
      rw [CharBuffer.pointee, if_pos (by omega)]
      exact hfinal.rest _ (Nat.le_refl _)
    have hcall : nachosCreate memory contents creat fuel m addr =
        .ok (b.pointee, creat b.pointee, m') := by
      rw [nachosCreate, hloop, ok_bind]
      rfl
    constructor
    · rintro ⟨name, r, m₁, hname, -, hzero⟩
      rw [hcall, Except.ok.injEq, Prod.mk.injEq] at hname
      rw [← hname.1, hend, Option.some.injEq] at hzero
      exact ⟨hmax, k, hleast, hzero⟩
    · rintro ⟨-, k', hleast', hzero⟩
      obtain rfl := hleast.unique hleast'
      refine ⟨_, _, _, hcall, fun i hi => ?_, by rw [hend, hzero]⟩
      rw [CharBuffer.pointee, if_pos (by omega), ← hcopied i hi, Nat.zero_add]
  · -- the text does not fit into the last of the buffers
    have hloop : createLoop memory contents addr fuel 0 0 0
        ⟨firstCapacity, fun i => some (contents 0 i)⟩ m = .error .buffer :=
      createLoop_error hreads htext hfuel (by omega) hholding hfirst (Nat.zero_le _)
    constructor
    · rintro ⟨name, r, m₁, hname, -⟩
      rw [nachosCreate, hloop] at hname
      cases hname
    · rintro ⟨hlt, -⟩
      exact absurd hlt hmax

/-- A step of the loop of `NachOS_Open`. -/
theorem openLoop_cons {padding p : ℕ} {x : UInt8} {bs : List UInt8} {b : CharBuffer}
    (hreads : Reads memory m (addr + p) (x :: bs) m') (hpadding : 3 ≤ padding) (hp : p < b.size) :
    ∃ m₁, Reads memory m₁ (addr + (p + 1 : ℕ)) bs m' ∧ ∀ fuel c,
      openLoop memory padding addr (fuel + 1) p c b m =
        if x = 0 then .ok (p, { b with bytes := Function.update b.bytes p (some x) }, m₁)
        else openLoop memory padding addr fuel (p + 1) (some x)
          { b with bytes := Function.update b.bytes p (some x) } m₁ := by
  obtain ⟨m₁, hread, hrest⟩ := hreads.cons
  have hint : sizeofInt ≤ 1 + padding := by
    have : sizeofInt = 4 := rfl
    omega
  refine ⟨m₁, hrest, fun fuel c => ?_⟩
  rw [openLoop, hread, ok_bind]
  dsimp only
  rw [storeChar, if_pos hint, valueBytes_toChar, ok_bind]
  dsimp only
  rw [CharBuffer.store, if_pos hp, ok_bind]
  rfl

/-- The loop of `NachOS_Open` stores the characters and the `'\0'` if there is room for them. -/
theorem openLoop_ok {padding p fuel : ℕ} {text : List UInt8} {b : CharBuffer}
    (hreads : Reads memory m (addr + p) (text ++ [0]) m') (htext : 0 ∉ text)
    (hfuel : text.length < fuel) (hpadding : 3 ≤ padding) (hroom : p + text.length < b.size) :
    ∃ b₁ m₁, (∀ c, openLoop memory padding addr fuel p c b m = .ok (p + text.length, b₁, m₁)) ∧
      b₁.size = b.size ∧ (∀ i < p, b₁.bytes i = b.bytes i) ∧
      ∀ i < text.length, b₁.bytes (p + i) = text[i]? := by
  obtain ⟨fuel, rfl⟩ : ∃ fuel', fuel = fuel' + 1 := ⟨fuel - 1, by omega⟩
  have hp : p < b.size := by omega
  -- one character of the name at a time, the position in the buffer with it
  induction text generalizing p b m fuel with
  | nil =>
    obtain ⟨m₁, -, hstep⟩ := openLoop_cons hreads hpadding hp
    exact ⟨_, m₁, fun c => hstep fuel c, rfl, fun i hi => Function.update_of_ne (by omega) _ _,
      fun i hi => absurd hi (Nat.not_lt_zero i)⟩
  | cons x text ih =>
    rw [List.length_cons] at hfuel hroom
    obtain ⟨hx, htext⟩ := toChar_ne_zero htext
    have hx : x ≠ 0 := fun h => hx (toChar_eq_zero.mpr h)
    obtain ⟨m₁, hrest, hstep⟩ := openLoop_cons hreads hpadding hp
    obtain ⟨fuel, rfl⟩ : ∃ fuel', fuel = fuel' + 1 := ⟨fuel - 1, by omega⟩
    have hroom₁ : p + 1 + text.length <
        { b with bytes := Function.update b.bytes p (some x) }.size := by
      dsimp only
      omega
    obtain ⟨b₂, m₂, hloop, hsize, hsame, hcopied⟩ :=
      ih hrest htext hroom₁ fuel (by omega) (Nat.lt_of_le_of_lt (Nat.le_add_right _ _) hroom₁)
    have hend : p + (x :: text).length = p + 1 + text.length := by
      rw [List.length_cons]
      omega
    rw [hend]
    refine ⟨b₂, m₂, fun c => ?_, hsize, fun i hi => ?_, fun i hi => ?_⟩
    · rw [hstep, if_neg hx]
      exact hloop _
    · rw [hsame i (by omega)]
      exact Function.update_of_ne (by omega) _ _
    · cases i with
      | zero =>
        rw [Nat.add_zero, hsame p (by omega), List.getElem?_cons_zero]
        exact Function.update_self _ _ _
      | succ i =>
        rw [List.length_cons] at hi
        rw [show p + (i + 1) = p + 1 + i by omega, hcopied i (by omega), List.getElem?_cons_succ]

/-- Without room for the `int` or for the character a store leaves its variable. -/
theorem openLoop_overrun {padding p fuel : ℕ} {x : UInt8} {bs : List UInt8} {b : CharBuffer}
    {c : Option UInt8} (hreads : Reads memory m (addr + p) (x :: bs) m')
    (hbad : ¬ (3 ≤ padding ∧ p < b.size)) :
    openLoop memory padding addr (fuel + 1) p c b m = .error .buffer := by
  have hint : sizeofInt = 4 := rfl
  obtain ⟨m₁, hread, -⟩ := hreads.cons
  rw [openLoop, hread, ok_bind]
  dsimp only
  by_cases hpadding : 3 ≤ padding
  · rw [storeChar, if_pos (by omega), ok_bind]
    dsimp only
    rw [CharBuffer.store, if_neg fun hp => hbad ⟨hpadding, hp⟩]
    rfl
  · rw [storeChar, if_neg (by omega)]
    rfl

/-- So it does for a longer name. -/
theorem openLoop_error {padding p fuel : ℕ} {text : List UInt8} {b : CharBuffer}
    {c : Option UInt8} (hreads : Reads memory m (addr + p) (text ++ [0]) m') (htext : 0 ∉ text)
    (hfuel : text.length < fuel) (hbad : ¬ (3 ≤ padding ∧ p + text.length < b.size)) :
    openLoop memory padding addr fuel p c b m = .error .buffer := by
  obtain ⟨fuel, rfl⟩ : ∃ fuel', fuel = fuel' + 1 := ⟨fuel - 1, by omega⟩
  induction text generalizing p b m c fuel with
  | nil => exact openLoop_overrun hreads hbad
  | cons x text ih =>
    rw [List.length_cons] at hfuel hbad
    by_cases hfits : 3 ≤ padding ∧ p < b.size
    · obtain ⟨hx, htext⟩ := toChar_ne_zero htext
      have hx : x ≠ 0 := fun h => hx (toChar_eq_zero.mpr h)
      obtain ⟨m₁, hrest, hstep⟩ := openLoop_cons hreads hfits.1 hfits.2
      obtain ⟨fuel, rfl⟩ : ∃ fuel', fuel = fuel' + 1 := ⟨fuel - 1, by omega⟩
      rw [hstep, if_neg hx]
      refine ih hrest htext ?_ fuel (by omega)
      rintro ⟨hpadding, hroom⟩
      exact hbad ⟨hpadding, by dsimp only at hroom; omega⟩
    · exact openLoop_overrun hreads hfits

/-- `NachOS_Open` passes a name that has room in its buffer, if nothing is in the three bytes
after `charBuffer`. -/
theorem openName_denotes_iff {padding fuel : ℕ} {text : List UInt8}
    (hreads : Reads memory m addr (text ++ [0]) m') (htext : 0 ∉ text)
    (hfuel : text.length < fuel) :
    (∃ name m₁, openName memory padding fuel m 0 addr = .ok (name, m₁) ∧ Denotes name text) ↔
      3 ≤ padding ∧ text.length ≤ filenameMax := by
  have hreads : Reads memory m (addr + (0 : ℕ)) (text ++ [0]) m' := by simpa using hreads
  by_cases hfits : 3 ≤ padding ∧ text.length ≤ filenameMax
  · refine ⟨fun _ => hfits, fun _ => ?_⟩
    have hroom : 0 + text.length < (⟨filenameMax + 1, fun _ => some 0⟩ : CharBuffer).size := by
      dsimp only
      omega
    obtain ⟨b, m₁, hloop, hsize, -, hcopied⟩ := openLoop_ok hreads htext hfuel hfits.1 hroom
    simp only [Nat.zero_add] at hloop hcopied
    have hlt : text.length < b.size := by
      rw [hsize]
      dsimp only
      omega
    rw [openName, hloop, ok_bind]
    dsimp only
    rw [CharBuffer.store, if_pos hlt]
    refine ⟨_, m₁, rfl, fun i hi => ?_, ?_⟩
    · rw [CharBuffer.pointee, if_pos (Nat.lt_trans hi hlt)]
      dsimp only
      rw [Function.update_of_ne (by omega), hcopied i hi]
    · rw [CharBuffer.pointee, if_pos hlt]
      exact Function.update_self _ _ _
  · refine ⟨fun h => ?_, fun h => absurd h hfits⟩
    obtain ⟨name, m₁, hname, -⟩ := h
    have hbad : ¬ (3 ≤ padding ∧
        0 + text.length < (⟨filenameMax + 1, fun _ => some 0⟩ : CharBuffer).size) := by
      rintro ⟨hpadding, hroom⟩
      dsimp only at hroom
      exact hfits ⟨hpadding, by omega⟩
    rw [openName, openLoop_error hreads htext hfuel hbad] at hname
    cases hname

/-- `iteratorOpen`, which is not a local variable, is `0` again for the next call. -/
theorem nachosOpen_iteratorOpen {padding fuel start : ℕ} {host : (ℕ → Option UInt8) → ℤ}
    {t : NachosOpenFilesTable} {r : Opened μ}
    (h : nachosOpen memory padding host fuel m start t addr = .ok r) : r.iteratorOpen = 0 := by
  obtain ⟨⟨name, m₁⟩, -, h⟩ := bind_ok_iff.mp h
  dsimp only at h
  split at h
  · rw [← pure_ok_iff.mp h]
  · obtain ⟨⟨isOpened, t₁⟩, -, h⟩ := bind_ok_iff.mp h
    rw [← pure_ok_iff.mp h]

/-- `NachOS_Create`, `NachOS_Open` and `NachOS_Exec` all pass the name at the address to the host
or to the file system. -/
def PassName (memory : UserMemory μ) (m : μ) (addr : ℤ) (text : List UInt8)
    (contents : ℕ → ℕ → UInt8) (padding : ℕ) (host : ℤ → Option UInt8) (fuel : ℕ) : Prop :=
  (∀ creat, ∃ name r m₁, nachosCreate memory contents creat fuel m addr = .ok (name, r, m₁) ∧
    Denotes name text) ∧
  (∃ name m₁, openName memory padding fuel m 0 addr = .ok (name, m₁) ∧ Denotes name text) ∧
  Denotes (nachosExec host addr) text

/-- They do so only if the last buffer of `NachOS_Create` happens to have a `'\0'` behind the
name, the name has room in the buffer of `NachOS_Open` and nothing is in the three bytes after
its `charBuffer`, and the host's own memory has the same name at the address. -/
theorem passName_iff {text : List UInt8} {contents : ℕ → ℕ → UInt8} {padding : ℕ}
    {host : ℤ → Option UInt8} {fuel : ℕ} (hreads : Reads memory m addr (text ++ [0]) m')
    (htext : 0 ∉ text) (hfuel : text.length < fuel) :
    PassName memory m addr text contents padding host fuel ↔
      (text.length + 1 < capacity maxGrowth ∧
        ∃ k, IsLeast {k | text.length + 1 < capacity k} k ∧ contents k text.length = 0) ∧
      (3 ≤ padding ∧ text.length ≤ filenameMax) ∧
      (∀ i < text.length, host (addr + i) = text[i]?) ∧ host (addr + text.length) = some 0 := by
  have hcreate : (∀ creat, ∃ name r m₁,
      nachosCreate memory contents creat fuel m addr = .ok (name, r, m₁) ∧ Denotes name text) ↔
      text.length + 1 < capacity maxGrowth ∧
        ∃ k, IsLeast {k | text.length + 1 < capacity k} k ∧ contents k text.length = 0 :=
    ⟨fun h => (nachosCreate_denotes_iff hreads htext hfuel).mp (h fun _ => 0),
      fun h _ => (nachosCreate_denotes_iff hreads htext hfuel).mpr h⟩
  rw [PassName, hcreate, openName_denotes_iff hreads htext hfuel]
  rfl

end

/-- One page, in frame `0`, that starts with these bytes. -/
def onePage (bytes : List UInt8) : NoVM.Memory where
  pageTable := [⟨0, 0, true, false, false, false⟩]
  mainMemory := fun a => bytes.getD a 0

theorem onePage_reads {bytes : List UInt8} (h : bytes.length ≤ pageSize) :
    ∃ m', Reads NoVM.userMemory (onePage bytes) (0 : ℕ) bytes m' := by
  have himplements : NoVM.Implements 1 (onePage bytes) fun a => bytes.getD a 0 := by
    refine ⟨⟨?_, ?_, ?_, ?_⟩, rfl, fun a ha => ?_⟩
    · simp [onePage]
    · simp [onePage]
    · simp [onePage, numPhysPages]
    · simp [onePage]
    · have hpage : a / pageSize = 0 := by
        rw [pageSize_eq] at *
        omega
      rw [NoVM.place_eq (e := ⟨0, 0, true, false, false, false⟩) (by rw [hpage]; rfl)]
      show bytes.getD (0 * pageSize + a % pageSize) 0 = bytes.getD a 0
      congr 1
      rw [pageSize_eq] at *
      omega
  have hbytes : (List.range bytes.length).map (fun i => bytes.getD (0 + i) 0) = bytes := by
    apply List.ext_getElem?
    intro i
    by_cases hi : i < bytes.length
    · simp [hi]
    · simp [hi]
  have hrange : 0 + bytes.length ≤ 1 * pageSize := by omega
  obtain ⟨m', hreads⟩ := himplements.reads hrange
  rw [hbytes] at hreads
  exact ⟨m', hreads⟩

/-- A table in which handle `3` stands for the Unix handle `7`. -/
def oneFile : NachosOpenFilesTable where
  openFiles := Function.update NachosOpenFilesTable.new.openFiles 3 (some 7)
  openFilesMap := NachosOpenFilesTable.new.openFilesMap.markBit 3
  usage := 1

/-- The text `"a\nbcd"`: what comes after the line feed is lost. -/
theorem nachosWrite_not_passes :
    (∃ m', Reads NoVM.userMemory (onePage [97, 10, 98, 99, 100]) (0 : ℕ) [97, 10, 98, 99, 100] m') ∧
    oneFile.isOpened 3 = .ok true ∧ oneFile.getUnixHandle 3 = .ok 7 ∧
    ∃ r, nachosWrite NoVM.userMemory (onePage [97, 10, 98, 99, 100]) oneFile 0 5 3 = .ok r ∧
      r.1 = .wrote 7 [some 97, some 10, some 0, some 0, some 0] ∧
      r.1 ≠ .wrote 7 [some 97, some 10, some 98, some 99, some 100] :=
  ⟨onePage_reads (by decide), by decide +kernel, by decide +kernel, by decide +kernel⟩

/-- The text `"a\n\0\0"` is written as it is. -/
theorem nachosWrite_passes_zeros : ∃ m₁,
    nachosWrite NoVM.userMemory (onePage [97, 10, 0, 0]) oneFile (0 : ℕ) 4 3 =
      .ok (.wrote 7 [some 97, some 10, some 0, some 0], 4, m₁) := by
  obtain ⟨m', hreads⟩ : ∃ m', Reads NoVM.userMemory (onePage [97, 10, 0, 0]) (0 : ℕ)
      [97, 10, 0, 0] m' := onePage_reads (by decide)
  exact (nachosWrite_passes_iff hreads (by decide) (by decide) (by decide +kernel)
    (by decide +kernel : oneFile.getUnixHandle 3 = .ok 7)).mpr ⟨[97], by decide, .inl rfl⟩

/-- `"ab"` is typed and two bytes are asked for: index `2` of the two bytes is looked up. -/
theorem nachosRead_overruns :
    nachosRead NoVM.userMemory (onePage []) oneFile 0 2 consoleInput (some [97, 98]) =
      .error .buffer ∧
    ¬ ReadsConsole NoVM.userMemory (onePage []) oneFile 0 2 [97, 98] := by
  have hread : nachosRead NoVM.userMemory (onePage []) oneFile 0 2 consoleInput
      (some [97, 98]) = .error .buffer := by rfl
  refine ⟨hread, ?_⟩
  rintro ⟨bs, m', h, -⟩
  rw [hread] at h
  cases h

/-- The name `"a"`: the buffer of `NachOS_Create` starts with other characters, and the host has
nothing at address `0`. -/
theorem passName_not_terminated :
    (∃ m', Reads NoVM.userMemory (onePage [97, 0]) (0 : ℕ) [97, 0] m') ∧
    (∃ r, nachosCreate NoVM.userMemory (fun _ _ => 120) (fun _ => 5) 2 (onePage [97, 0]) 0 = .ok r ∧
      r.1 0 = some 97 ∧ r.1 1 = some 120) ∧
    nachosExec (fun _ => none) 0 0 = none ∧
    ¬ PassName NoVM.userMemory (onePage [97, 0]) 0 [97] (fun _ _ => 120) 3 (fun _ => none) 2 := by
  refine ⟨onePage_reads (by decide), by decide +kernel, rfl, fun h => ?_⟩
  obtain ⟨-, -, hexec⟩ := h
  exact absurd (hexec.1 0 (by decide)) (by decide)

/-- The name passes if all of this is so. -/
theorem passName_zeros :
    PassName NoVM.userMemory (onePage [97, 0]) (0 : ℕ) [97] (fun _ _ => 0) 3
      (fun a => if a = 0 then some 97 else some 0) 2 := by
  obtain ⟨m', hreads⟩ : ∃ m', Reads NoVM.userMemory (onePage [97, 0]) (0 : ℕ) ([97] ++ [0]) m' :=
    onePage_reads (by decide)
  refine (passName_iff hreads (by decide) (by decide)).mpr
    ⟨⟨by decide, 0, ⟨by decide, fun k _ => Nat.zero_le k⟩, rfl⟩, ⟨by decide, by decide⟩, ?_, rfl⟩
  intro i hi
  obtain rfl : i = 0 := by simpa using hi
  rfl

end NachOS
