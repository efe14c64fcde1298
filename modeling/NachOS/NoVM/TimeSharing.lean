import NachOS.Lib.Turns
import NachOS.Machine.TranslationModes
import NachOS.Machine.UserProcess
import NachOS.NoVM.FlatMemory

/-!
# Processes that share the machine

User threads with address spaces of their own, in the build without virtual memory:
`Scheduler::Run` saves and restores the registers and points the machine to the page table. If the
page tables map their pages to different frames, then each process computes what it would on a
machine of its own, with a flat memory and without interrupts.
-/

namespace NachOS
namespace NoVM

open PartialRun

/-! ## The memory of the machine -/

/-- `MemException` among the exceptions. -/
def memExceptionType : MemException → ExceptionType
  | .pageFault => .pageFault
  | .readOnly => .readOnly
  | .busError => .busError
  | .addressError => .addressError

/-- The memory behind the page table. The handler is left out: what the kernel does is an event of
its own. -/
def paged : Environment Memory where
  vm := false
  translate m addr size writing :=
    match translate m.pageTable addr.toInt size writing with
    | .ok (result, pageTable) => (result.mapError memExceptionType, { m with pageTable })
    -- `Translate` does not fail
    | .error _ => (.error .busError, m)
  fetch m pa size := BitVec.ofInt 32 (System.readValue m.mainMemory pa size)
  store m pa size value :=
    { m with mainMemory := Bytes.blit m.mainMemory pa size.bytes (System.valueBytes value.toInt) }
  exceptionHandler _ m := m

/-- A memory of its own, from address `0` on. -/
structure FlatMemory where
  numPages : ℕ
  bytes : Bytes

/-- The machine with a flat memory. -/
def unshared : Environment FlatMemory where
  vm := false
  translate m addr size _ :=
    if addr.toInt % size.bytes ≠ 0 then (.error .addressError, m)
    else if m.numPages ≤ System.vpn addr.toInt then (.error .addressError, m)
    else (.ok addr.toNat, m)
  fetch m pa size := BitVec.ofInt 32 (System.readValue m.bytes pa size)
  store m pa size value :=
    { m with bytes := Bytes.blit m.bytes pa size.bytes (System.valueBytes value.toInt) }
  exceptionHandler _ m := m

/-- The address is in one of the frames. -/
def InFrames (frames : List ℤ) (address : ℕ) : Prop :=
  ∃ frame ∈ frames, frame.toNat = address / pageSize

/-- The memory stands for a flat one, in its frames, and outside of them it is as it was. -/
structure Within (frames : List ℤ) (before : Bytes) (m : Memory) (own : FlatMemory) : Prop where
  implements : Implements own.numPages m own.bytes
  frames_eq : m.pageTable.map TranslationEntry.physicalPage = frames
  outside : ∀ address, ¬ InFrames frames address → m.mainMemory address = before address

section

variable {frames : List ℤ} {before : Bytes} {m : Memory} {own : FlatMemory}

/-- The place of an address is in a frame of the page table. -/
theorem place_inFrames {pageTable : List TranslationEntry} {a : ℕ} {e : TranslationEntry}
    (he : pageTable[a / pageSize]? = some e) :
    InFrames (pageTable.map TranslationEntry.physicalPage) (place pageTable a) := by
  refine ⟨e.physicalPage, List.mem_map.mpr ⟨e, List.mem_of_getElem? he, rfl⟩, ?_⟩
  rw [place_eq he, pageSize_eq]
  omega

theorem map_physicalPage_set {pageTable : List TranslationEntry} {i : ℕ} {e : TranslationEntry}
    (hi : pageTable[i]? = some e) (use dirty : Bool) :
    (pageTable.set i { e with use, dirty }).map TranslationEntry.physicalPage =
      pageTable.map TranslationEntry.physicalPage := by
  rw [List.map_set]
  obtain ⟨hlt, rfl⟩ := List.getElem?_eq_some_iff.mp hi
  have hlt' : i < (pageTable.map TranslationEntry.physicalPage).length := by
    rw [List.length_map]
    exact hlt
  have hget : (pageTable.map TranslationEntry.physicalPage)[i] = pageTable[i].physicalPage :=
    List.getElem_map _
  rw [← hget, List.set_getElem_self]

/-- The use and dirty bits do not matter. -/
theorem Within.mark (h : Within frames before m own) {i : ℕ} {e : TranslationEntry}
    (hi : m.pageTable[i]? = some e) (use dirty : Bool) :
    Within frames before { m with pageTable := m.pageTable.set i { e with use, dirty } } own := by
  obtain ⟨hlinear, hplace⟩ := h.implements.linear.set hi use dirty
  refine ⟨⟨hlinear, ?_, ?_⟩, (map_physicalPage_set hi use dirty).trans h.frames_eq, h.outside⟩
  · rw [List.length_set]
    exact h.implements.length
  · dsimp only
    rw [hplace]
    exact h.implements.bytes

/-- A value is written to the page of an address. -/
theorem Within.store (h : Within frames before m own) {a : ℕ} {size : Size}
    (haligned : (a : ℤ) % size.bytes = 0) (hrange : a + size.bytes ≤ own.numPages * pageSize)
    {e : TranslationEntry} (he : m.pageTable[a / pageSize]? = some e) (value : Word) :
    Within frames before (paged.store m (place m.pageTable a) size value)
      (unshared.store own a size value) := by
  have hwrite : (Access.write a size value.toInt).InRange own.numPages :=
    ⟨haligned, Int.natCast_nonneg a, by exact_mod_cast hrange⟩
  have hint : a < 2 ^ 32 := by
    have hle := h.implements.linear.length_le
    have hpos := size.bytes_pos
    rw [h.implements.length, numPhysPages_eq] at hle
    rw [pageSize_eq] at hrange
    omega
  obtain ⟨m', haccess, hafter⟩ := h.implements.write hwrite
  rw [access, writeMem, h.implements.linear.translate_ok haligned hint he true] at haccess
  obtain ⟨-, rfl⟩ := Prod.mk.inj (pure_ok_iff.mp haccess)
  obtain ⟨-, hplace⟩ := h.implements.linear.set he true (e.dirty || true)
  refine ⟨⟨h.implements.linear, h.implements.length, fun b hb => ?_⟩, h.frames_eq,
    fun address houtside => ?_⟩
  · have hbytes := hafter.bytes b hb
    dsimp only at hbytes
    rw [hplace] at hbytes
    exact hbytes
  · refine (Bytes.blit_of_not_mem fun hin => houtside ?_).trans (h.outside address houtside)
    have hfits := offset_add_le haligned
    rw [← h.frames_eq]
    refine ⟨e.physicalPage, List.mem_map.mpr ⟨e, List.mem_of_getElem? he, rfl⟩, ?_⟩
    rw [place_eq he] at hin
    rw [pageSize_eq] at hin hfits ⊢
    omega

/-- An address of the process. -/
theorem toInt_of_vpn_lt {n : ℕ} (hn : n ≤ numPhysPages) {addr : Word}
    (h : System.vpn addr.toInt < n) :
    addr.toInt = addr.toNat ∧ System.vpn addr.toInt = addr.toNat / pageSize := by
  have hlt := addr.isLt
  rw [numPhysPages_eq] at hn
  rw [System.vpn, pageSize_eq] at h ⊢
  have hunsigned : toUnsigned addr.toInt = addr.toNat := by
    rw [BitVec.toInt_eq_toNat_cond]
    unfold toUnsigned
    split
    · omega
    · omega
  rw [hunsigned] at h ⊢
  refine ⟨?_, rfl⟩
  rw [BitVec.toInt_eq_toNat_cond, if_pos (by omega)]

theorem Within.alike (h : Within frames before m own) (addr : Word) (size : Size)
    (writing : Bool) : Alike paged unshared (Within frames before) size
      (paged.translate m addr size writing) (unshared.translate own addr size writing) := by
  have hn : own.numPages ≤ numPhysPages := by
    rw [← h.implements.length]
    exact h.implements.linear.length_le
  dsimp only [paged, unshared]
  by_cases haligned : addr.toInt % size.bytes ≠ 0
  · rw [if_pos haligned, translate, if_pos haligned]
    exact .raised _ h
  rw [if_neg haligned]
  by_cases hvpn : own.numPages ≤ System.vpn addr.toInt
  · have hnone : m.pageTable[System.vpn addr.toInt]? = none :=
      List.getElem?_eq_none (by rw [h.implements.length]; exact hvpn)
    rw [if_pos hvpn, translate, if_neg haligned, hnone]
    exact .raised _ h
  rw [if_neg hvpn]
  rw [not_not] at haligned
  obtain ⟨hint, hpage⟩ := toInt_of_vpn_lt hn (not_le.mp hvpn)
  rw [hpage, pageSize_eq] at hvpn
  rw [hint] at haligned ⊢
  have hrange : addr.toNat < own.numPages * pageSize := by
    rw [pageSize_eq]
    omega
  obtain ⟨e, he, -⟩ := exists_entry h.implements.length hrange
  have hfits := offset_add_le haligned
  have hend : addr.toNat + size.bytes ≤ own.numPages * pageSize := by
    rw [pageSize_eq] at hfits ⊢
    omega
  rw [h.implements.linear.translate_ok haligned addr.isLt he writing]
  -- the marked entry has the same frame
  have hmark := h.mark he true (e.dirty || writing)
  obtain ⟨-, hplace⟩ := h.implements.linear.set he true (e.dirty || writing)
  obtain ⟨hlt, -⟩ := List.getElem?_eq_some_iff.mp he
  refine .translated hmark ?_ fun value => ?_
  · refine congrArg (BitVec.ofInt 32) (System.readValue_congr fun k hk => ?_)
    rw [← h.implements.bytes _ (by omega), place_add (by omega) he]
  · have hstore := hmark.store haligned hend
      (e := { e with use := true, dirty := e.dirty || writing }) (List.getElem?_set_self hlt) value
    dsimp only at hstore
    rw [hplace] at hstore
    exact hstore

/-- The same answers from both. -/
theorem lockstep (frames : List ℤ) (before : Bytes) :
    paged.Lockstep unshared (Within frames before) where
  vm := rfl
  translate := fun h => h.alike
  exceptionHandler := fun h _ => h

end

/-! ## The processes -/

/-- What a process that is not running has in `userRegisters`. -/
abbrev UserRegisters := Fin numTotalRegs → Word

/-- The machine, and of each process its page table and the place where its registers are saved.
For a process that has not run yet these are the ones that `InitRegisters` writes. -/
structure TimeSharing (ι : Type) where
  registers : UserRegisters
  mainMemory : Bytes
  pageTable : ι → List TranslationEntry
  userRegisters : ι → UserRegisters
  currentThread : ι

namespace TimeSharing

variable {ι : Type} [DecidableEq ι] {s s' : TimeSharing ι}

/-- The registers and the memory as the running process has them. -/
def machine (s : TimeSharing ι) : Machine Memory :=
  ⟨s.registers, ⟨s.pageTable s.currentThread, s.mainMemory⟩⟩

/-- `Scheduler::Run`: `SaveUserState`, and `RestoreUserState` and `RestoreState` of the other
thread. -/
def run (s : TimeSharing ι) (nextThread : ι) : TimeSharing ι :=
  let userRegisters := Function.update s.userRegisters s.currentThread s.registers
  { s with userRegisters, registers := userRegisters nextThread, currentThread := nextThread }

def step (debug : Bool) (s : TimeSharing ι) :
    Turn ι ProcessEvent → Except Fault (TimeSharing ι)
  | .act e => do
    let m ← s.machine.happen paged debug e
    return { s with
      registers := m.registers
      mainMemory := m.memory.mainMemory
      pageTable := Function.update s.pageTable s.currentThread m.memory.pageTable }
  | .pass nextThread => .ok (s.run nextThread)

/-- The registers of a process, wherever they are. -/
def registersOf (s : TimeSharing ι) (i : ι) : UserRegisters :=
  if i = s.currentThread then s.registers else s.userRegisters i

/-- The frames of a process. -/
def frames (s : TimeSharing ι) (i : ι) : List ℤ :=
  (s.pageTable i).map TranslationEntry.physicalPage

/-- The machine that a process thinks it has. -/
def alone (s : TimeSharing ι) (i : ι) : Machine FlatMemory :=
  ⟨s.registersOf i, ⟨(s.pageTable i).length, flat ⟨s.pageTable i, s.mainMemory⟩⟩⟩

/-- Each process has pages that are its own. -/
structure Apart (s : TimeSharing ι) : Prop where
  linear : ∀ i, Linear (s.pageTable i)
  disjoint : ∀ i j, i ≠ j → (s.frames i).Disjoint (s.frames j)

/-- The processes on the one machine stand for processes on machines of their own. Each has the
frames that it owns, and memory that nobody owns is as it was. -/
structure Stands (exist : ι → Prop) (owned : ι → List ℤ) (unused : Bytes) (s : TimeSharing ι)
    (f : Turns ι (Machine FlatMemory)) : Prop where
  current : s.currentThread = f.current
  frames_eq : ∀ i, exist i → s.frames i = owned i
  disjoint : ∀ i j, exist i → exist j → i ≠ j → (owned i).Disjoint (owned j)
  registers : ∀ i, exist i → (f.systems i).registers = s.registersOf i
  implements : ∀ i, exist i → Implements (f.systems i).memory.numPages
    ⟨s.pageTable i, s.mainMemory⟩ (f.systems i).memory.bytes
  unowned : ∀ address, (∀ i, exist i → ¬ InFrames (owned i) address) →
    s.mainMemory address = unused address

variable {exist : ι → Prop} {owned : ι → List ℤ} {unused : Bytes}
  {f : Turns ι (Machine FlatMemory)}

theorem Apart.stands (h : s.Apart) :
    Stands (fun _ => True) s.frames s.mainMemory s ⟨s.alone, s.currentThread⟩ where
  current := rfl
  frames_eq := fun _ _ => rfl
  disjoint := fun i j _ _ hij => h.disjoint i j hij
  registers := fun _ _ => rfl
  implements := fun i _ => ⟨h.linear i, rfl, fun _ _ => rfl⟩
  unowned := fun _ _ => rfl

/-- Nobody loses registers. -/
theorem registersOf_run (s : TimeSharing ι) (next i : ι) :
    (s.run next).registersOf i = s.registersOf i := by
  show (if i = next then Function.update s.userRegisters s.currentThread s.registers next
    else Function.update s.userRegisters s.currentThread s.registers i) = s.registersOf i
  rw [registersOf]
  by_cases hnext : i = next
  · rw [if_pos hnext, ← hnext, Function.update_apply]
  · rw [if_neg hnext, Function.update_apply]

theorem Stands.pass (h : Stands exist owned unused s f) (next : ι) :
    Stands exist owned unused (s.run next) { f with current := next } where
  current := rfl
  frames_eq := h.frames_eq
  disjoint := h.disjoint
  registers := by
    intro i hi
    rw [h.registers i hi, registersOf_run]
  implements := h.implements
  unowned := h.unowned

/-- A place of a process is not in the frames of another. -/
theorem Stands.not_inFrames (h : Stands exist owned unused s f) {i j : ι} (hi : exist i)
    (hj : exist j) (hij : i ≠ j) {a : ℕ} (ha : a < (f.systems i).memory.numPages * pageSize) :
    ¬ InFrames (owned j) (place (s.pageTable i) a) := by
  obtain ⟨e, he, hmem⟩ := exists_entry (h.implements i hi).length ha
  rintro ⟨frame, hframe, hplace⟩
  obtain ⟨frame', hframe', hplace'⟩ := place_inFrames he
  have hnonneg : ∀ k, exist k → ∀ frame ∈ owned k, 0 ≤ frame := by
    intro k hk frame hframe
    rw [← h.frames_eq k hk] at hframe
    obtain ⟨e, he, rfl⟩ := List.mem_map.mp hframe
    exact ((h.implements k hk).linear.frame e he).1
  have hin : frame' ∈ owned i := by
    rw [← h.frames_eq i hi]
    exact hframe'
  have h₁ := hnonneg j hj frame hframe
  have h₂ := hnonneg i hi frame' hin
  have hsame := hplace.trans hplace'.symm
  obtain rfl : frame = frame' := by omega
  exact h.disjoint i j hi hj hij hin hframe

/-- The running process does what it would do alone, and the others do not notice. -/
theorem Stands.act (h : Stands exist owned unused s f) (hcurrent : exist s.currentThread)
    (debug : Bool) (e : ProcessEvent) :
    Matches (Stands exist owned unused) (step debug s (.act e))
      (f.turn (Machine.happen unshared debug) (.act e)) := by
  -- the machine that is shared and the one of the current process go in step
  have htwins : Twins (Within (owned s.currentThread) s.mainMemory) s.machine
      (f.systems f.current) := by
    rw [← h.current]
    refine ⟨?_, h.implements _ hcurrent, h.frames_eq _ hcurrent, fun _ _ => rfl⟩
    rw [h.registers _ hcurrent, registersOf, if_pos rfl]
    rfl
  refine (Machine.happen_twins (lockstep _ _) debug htwins e).bind fun m m' hafter => ?_
  obtain ⟨hregisters, himplements, hframes, houtside⟩ := hafter
  refine .ok ⟨h.current, fun i hi => ?frames_eq, h.disjoint, fun i hi => ?registers,
    fun i hi => ?implements, fun address hunowned => ?unowned⟩
  case frames_eq =>
    rw [frames]
    dsimp only
    by_cases hrunning : i = s.currentThread
    · subst hrunning
      rw [Function.update_self]
      exact hframes
    · rw [Function.update_of_ne hrunning]
      exact h.frames_eq i hi
  case registers =>
    rw [← h.current]
    by_cases hrunning : i = s.currentThread
    · rw [hrunning, registersOf, if_pos rfl]
      dsimp only
      rw [Function.update_self]
      exact hregisters
    · rw [registersOf, if_neg hrunning]
      dsimp only
      rw [Function.update_of_ne hrunning, h.registers i hi, registersOf, if_neg hrunning]
  case implements =>
    -- the frames of the others are outside of those the current process can write
    rw [← h.current]
    by_cases hrunning : i = s.currentThread
    · subst hrunning
      dsimp only
      rw [Function.update_self, Function.update_self]
      exact himplements
    · dsimp only
      rw [Function.update_of_ne hrunning, Function.update_of_ne hrunning]
      have hother := h.implements i hi
      refine ⟨hother.linear, hother.length, fun a ha => ?_⟩
      rw [houtside _ (h.not_inFrames hi hcurrent hrunning ha)]
      exact hother.bytes a ha
  case unowned => exact (houtside address (hunowned _ hcurrent)).trans (h.unowned address hunowned)

/-- What is in the memory of a process. -/
theorem Stands.mainMemory_eq (h : Stands exist owned unused s f) {i : ι} (hi : exist i)
    {m : Machine FlatMemory} (hsame : Machine.SameState m (f.systems i)) :
    Machine.SameState m ⟨s.registersOf i, m.memory⟩ ∧
      ∀ a < m.memory.numPages * pageSize,
        s.mainMemory (place (s.pageTable i) a) = m.memory.bytes a := by
  have himplements := h.implements i hi
  rw [hsame.memory] at himplements
  refine ⟨?_, himplements.bytes⟩
  rw [← h.registers i hi, ← hsame.memory]
  exact hsame

/-- On machines of their own the processes do not notice the interrupts. -/
theorem run_turns_alone (debug : Bool) (start : ι → Machine FlatMemory) (current : ι)
    (ts : List (Turn ι ProcessEvent)) (g : ι → Machine FlatMemory)
    (hregular : ∀ i, (start i).Regular)
    (hrule : ∀ i, Along (Machine.happen unshared debug) (Machine.Disciplined unshared) (start i)
      ((Turns.own i current ts).filter (· ≠ .interrupt)))
    (halone : ∀ i, PartialRun.run (Machine.happen unshared debug) (start i)
      ((Turns.own i current ts).filter (· ≠ .interrupt)) = .ok (g i)) :
    ∃ f, PartialRun.run (Turns.turn (Machine.happen unshared debug)) ⟨start, current⟩ ts = .ok f ∧
      ∀ i, Machine.SameState (g i) (f.systems i) := by
  have hkeeps : Machine.KeepsRegular unshared := fun _ _ hm => hm
  have hinterrupted : ∀ i, ∃ m, PartialRun.run (Machine.happen unshared debug) (start i)
      (Turns.own i current ts) = .ok m ∧ Machine.SameState (g i) m :=
    fun i => Machine.run_interrupted hkeeps _ (hregular i) (hrule i) (halone i)
  choose m hm hsame using hinterrupted
  obtain ⟨f, hturns, rfl⟩ := Turns.run_of_alone (f := ⟨start, current⟩) hm
  exact ⟨f, hturns, hsame⟩

/-- Whatever the turns and the interrupts, each process ends as if it had run alone on a machine
of its own with a flat memory and without interrupts: with the same registers, once any pending
load is applied, the same program counters and the same memory. -/
theorem run_alone (debug : Bool) (s : TimeSharing ι) (h : s.Apart) (ts : List (Turn ι ProcessEvent))
    (g : ι → Machine FlatMemory) (hregular : ∀ i, (s.alone i).Regular)
    (hrule : ∀ i, Along (Machine.happen unshared debug) (Machine.Disciplined unshared) (s.alone i)
      ((Turns.own i s.currentThread ts).filter (· ≠ .interrupt)))
    (halone : ∀ i, PartialRun.run (Machine.happen unshared debug) (s.alone i)
      ((Turns.own i s.currentThread ts).filter (· ≠ .interrupt)) = .ok (g i)) :
    ∃ s', PartialRun.run (TimeSharing.step debug) s ts = .ok s' ∧
      ∀ i, Machine.SameState (g i) ⟨s'.registersOf i, (g i).memory⟩ ∧
        ∀ a < (g i).memory.numPages * pageSize,
          s'.mainMemory (place (s'.pageTable i) a) = (g i).memory.bytes a := by
  obtain ⟨f', hturns, hsame⟩ := run_turns_alone debug s.alone s.currentThread ts g hregular
    hrule halone
  -- the machine that is shared goes in step with the machines of their own
  have hmatches : Matches (Stands (fun _ => True) s.frames s.mainMemory)
      (PartialRun.run (TimeSharing.step debug) s ts)
      (PartialRun.run (Turns.turn (Machine.happen unshared debug)) ⟨s.alone, s.currentThread⟩ ts) := by
    refine Matches.run (fun s f t h => ?_) h.stands
    cases t with
    | act e => exact h.act trivial debug e
    | pass next => exact .ok (h.pass next)
  rw [hturns] at hmatches
  obtain ⟨s', hrun, hstands⟩ := hmatches.exists_ok
  exact ⟨s', hrun, fun i => hstands.mainMemory_eq trivial (hsame i)⟩

/-- `LW r1,12(r0)`, `ADDIU r2,r0,5` and `ADDU r3,r1,r2` in two frames, before a word that is 7 in
one of them and 9 in the other. -/
def twoSums : TimeSharing Bool where
  registers := Function.update (fun _ => 0) nextPCReg 4
  mainMemory a := [0x0c, 0x00, 0x01, 0x8c, 0x05, 0x00, 0x02, 0x24, 0x21, 0x18, 0x22, 0x00,
    if a / pageSize = 3 then 7 else 9].getD (a % pageSize) 0
  pageTable thread := [⟨0, if thread then 1 else 3, true, false, false, false⟩]
  userRegisters _ := Function.update (fun _ => 0) nextPCReg 4
  currentThread := false

/-- Both are interrupted after the load. -/
def twoTurns : List (Turn Bool ProcessEvent) :=
  [.act .instruction, .act .interrupt, .pass true, .act .instruction, .act .interrupt, .pass false,
    .act .instruction, .act .instruction, .pass true, .act .instruction, .act .instruction]

theorem run_alone_twoSums : ∃ (s' : TimeSharing Bool) (g : Bool → Machine FlatMemory),
    PartialRun.run (TimeSharing.step false) twoSums twoTurns = .ok s' ∧
    (g false).reg 3 = 12 ∧ (g true).reg 3 = 14 ∧
    ∀ i, Machine.SameState (g i) ⟨s'.registersOf i, (g i).memory⟩ := by
  have halone : ∀ i, ∃ m, PartialRun.run (Machine.happen unshared false) (twoSums.alone i)
      ((Turns.own i twoSums.currentThread twoTurns).filter (· ≠ .interrupt)) = .ok m ∧
        m.reg 3 = if i then 14 else 12 := by
    decide +kernel
  choose g hg hsum using halone
  have hlinear : ∀ i, Linear (twoSums.pageTable i) := by
    intro i
    cases i with
    | false => exact ⟨by decide, by decide, by decide, by decide⟩
    | true => exact ⟨by decide, by decide, by decide, by decide⟩
  have hdisjoint : ∀ i j, i ≠ j → (twoSums.frames i).Disjoint (twoSums.frames j) := by
    intro i j hij
    cases i with
    | false => cases j with
      | false => exact absurd rfl hij
      | true => simp [frames, twoSums]
    | true => cases j with
      | false => simp [frames, twoSums]
      | true => exact absurd rfl hij
  have hregular : ∀ i, (twoSums.alone i).Regular := by
    intro i
    cases i with
    | false => exact ⟨by decide, by decide⟩
    | true => exact ⟨by decide, by decide⟩
  obtain ⟨s', hrun, hsame⟩ := run_alone false twoSums ⟨hlinear, hdisjoint⟩ twoTurns g hregular
    (by decide +kernel) hg
  exact ⟨s', g, hrun, hsum false, hsum true, fun i => (hsame i).1⟩

end TimeSharing
end NoVM
end NachOS
