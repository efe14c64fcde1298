import NachOS.Lib.Run
import NachOS.Machine.Translate

/-!
# Runs of the paged machine

The virtual memory system is exercised by the memory accesses of user threads. A run is a
list of them, each made by a thread of some address space, from the state the kernel is
booted in. Every page fault, replacement and transfer happens inside some access.
-/

namespace NachOS

/-- A memory access of a user thread: `ReadMem`, or `WriteMem` with a value. The address is
a non-negative `int` aligned to the size. -/
structure Access where
  space : ℕ
  addr : ℕ
  size : Size
  write : Option ℤ
  aligned : addr % size.bytes = 0
  isInt : addr < 2 ^ 31

/-- The page an access is to. -/
def Access.page (a : Access) : ℕ := a.addr / pageSize

/-- An access does not cross the end of its page. -/
theorem Access.offset_le (a : Access) :
    a.addr % pageSize + a.size.bytes ≤ pageSize := by
  have haligned := a.aligned
  rw [pageSize_eq]
  cases hsize : a.size with
  | byte => simp only [Size.bytes]; omega
  | half => rw [hsize] at haligned; simp only [Size.bytes] at haligned ⊢; omega
  | word => rw [hsize] at haligned; simp only [Size.bytes] at haligned ⊢; omega

theorem Access.addr_eq (a : Access) : a.addr = a.page * pageSize + a.addr % pageSize := by
  rw [Access.page, Nat.mul_comm]
  exact (Nat.div_add_mod a.addr pageSize).symm

/-- What an access gives back. -/
inductive Reply where
  /-- `ReadMem` or `WriteMem` returned `false`. -/
  | failed
  | wrote
  | value (v : ℤ)
deriving DecidableEq, Repr

namespace System

/-- The access, made while a thread of its address space is the current one. -/
def access (s : System) (a : Access) : Except Fault (Reply × System) :=
  let s := { s with currentSpace := a.space }
  match a.write with
  | none => do
    let (value, s) ← s.readMem a.addr a.size
    return (match value with | some v => .value v | none => .failed, s)
  | some value => do
    let (done, s) ← s.writeMem a.addr a.size value
    return (if done then .wrote else .failed, s)

/-- One step of a run. -/
def step (s : System) (a : Access) : Except Fault System := do
  let (_, s) ← s.access a
  return s

/-- The state after `Initialize`, with address spaces created from executables and not yet
run. The TLB array is fresh memory in which only the valid bits have been set. -/
structure Booted (s : System) : Prop where
  mainMemory : s.mainMemory = fun _ => 0
  tlb : ∀ i, (s.tlb i).valid = false
  invertedPageTable : s.invertedPageTable =
    InvertedPageTable.new s.invertedPageTable.replacementAlgorithm
  memorySwap : s.memorySwap = Swap.new
  spaces : ∀ a, ∃ executable,
    AddrSpace.exeVirtualMemoryConstructor executable = .ok (s.spaces a)

/-! ## Booting

A kernel booted with given executables, for runs on concrete programs. -/

/-- The address space of an executable, if there is one. -/
def ofExecutable (executable : HostFile) : AddrSpace :=
  match AddrSpace.exeVirtualMemoryConstructor executable with
  | .ok space => space
  | .error _ => ⟨fun _ => TranslationEntry.absent, 0, executable⟩

/-- The state after `Initialize`, address space `a` being that of `executables a`. -/
def boot (algorithm : ReplacementAlgorithm) (executables : ℕ → HostFile) : System where
  mainMemory := fun _ => 0
  tlb := fun _ => TranslationEntry.absent
  invertedPageTable := InvertedPageTable.new algorithm
  memorySwap := Swap.new
  spaces := fun a => ofExecutable (executables a)
  currentSpace := 0

theorem boot_booted {algorithm : ReplacementAlgorithm} {executables : ℕ → HostFile}
    (h : ∀ a, (AddrSpace.exeVirtualMemoryConstructor (executables a)).isOk = true) :
    Booted (boot algorithm executables) := by
  refine ⟨rfl, fun _ => rfl, rfl, rfl, fun a => ⟨executables a, ?_⟩⟩
  show _ = Except.ok (ofExecutable (executables a))
  unfold ofExecutable
  have ha := h a
  split
  · assumption
  · rename_i heq
    rw [heq] at ha
    cases ha

end System

/-- The little-endian bytes of an `int`. -/
def intBytes (x : ℕ) : List UInt8 :=
  [UInt8.ofNat x, UInt8.ofNat (x / 2 ^ 8), UInt8.ofNat (x / 2 ^ 16), UInt8.ofNat (x / 2 ^ 24)]

/-- An executable with the given bytes of code, linked at address zero, and then `bss` bytes
of uninitialised data. -/
def HostFile.program (code : List UInt8) (bss : ℕ) : HostFile :=
  let header := intBytes 0xbadfad ++ intBytes 0 ++ intBytes 40 ++ intBytes code.length ++
    intBytes code.length ++ intBytes (40 + code.length) ++ intBytes 0 ++
    intBytes code.length ++ intBytes (40 + code.length) ++ intBytes bss
  ⟨40 + code.length, fun i => (header ++ code).getD i 0⟩

/-- A read of the first byte of a page; an `int` address reaches `2 ^ 24` pages. -/
def Access.read (space page : ℕ) : Access where
  space := space
  addr := page % 2 ^ 24 * pageSize
  size := .byte
  write := none
  aligned := Nat.mod_one _
  isInt := by rw [pageSize_eq]; omega

/-- A write of the first byte of a page. -/
def Access.writeTo (space page : ℕ) (value : ℤ) : Access where
  space := space
  addr := page % 2 ^ 24 * pageSize
  size := .byte
  write := some value
  aligned := Nat.mod_one _
  isInt := by rw [pageSize_eq]; omega

end NachOS
