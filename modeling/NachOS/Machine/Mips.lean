import NachOS.Machine.Hardware
import Mathlib.Logic.Function.Basic

/-!
# The processor

`Machine::OneInstruction`, `Machine::DelayedLoad` and `Instruction::Decode` (`mipssim.cc`), with
the tables of `mipssim.h`, `Machine::RaiseException` (`machine.cc`), and `ReadMem` and `WriteMem`
(`translate.cc`) as the processor uses them: what they get from `Translate` and from the memory
behind it, and what the kernel does in an exception, is left open.
-/

namespace NachOS

/-- An `int` or `unsigned int`: the bits are the same. -/
abbrev Word := BitVec 32

/-! ## Instructions -/

/-- What the fields `opCode` of the instructions and of the tables hold. -/
inductive OpCode where
  | add | addi | addiu | addu | and | andi
  | beq | bgez | bgezal | bgtz | blez | bltz | bltzal | bne
  | div | divu | j | jal | jalr | jr
  | lb | lbu | lh | lhu | lui | lw | lwl | lwr
  | mfhi | mflo | mthi | mtlo | mult | multu
  | nor | or | ori | rfe | sb | sh | sll | sllv | slt | slti | sltiu | sltu
  | sra | srav | srl | srlv | sub | subu | sw | swl | swr | xor | xori
  | syscall | unimp | res
  | special | bcond
deriving DecidableEq, Repr

/-- The numbers of `mipssim.h`. -/
def OpCode.number : OpCode → ℕ
  | .add => 1 | .addi => 2 | .addiu => 3 | .addu => 4 | .and => 5 | .andi => 6
  | .beq => 7 | .bgez => 8 | .bgezal => 9 | .bgtz => 10 | .blez => 11 | .bltz => 12
  | .bltzal => 13 | .bne => 14
  | .div => 16 | .divu => 17 | .j => 18 | .jal => 19 | .jalr => 20 | .jr => 21
  | .lb => 22 | .lbu => 23 | .lh => 24 | .lhu => 25 | .lui => 26 | .lw => 27
  | .lwl => 28 | .lwr => 29
  | .mfhi => 31 | .mflo => 32 | .mthi => 34 | .mtlo => 35 | .mult => 36 | .multu => 37
  | .nor => 38 | .or => 39 | .ori => 40 | .rfe => 41 | .sb => 42 | .sh => 43
  | .sll => 44 | .sllv => 45 | .slt => 46 | .slti => 47 | .sltiu => 48 | .sltu => 49
  | .sra => 50 | .srav => 51 | .srl => 52 | .srlv => 53 | .sub => 54 | .subu => 55
  | .sw => 56 | .swl => 57 | .swr => 58 | .xor => 59 | .xori => 60
  | .syscall => 61 | .unimp => 62 | .res => 63
  | .special => 100 | .bcond => 101

/-- `MaxOpcode`. -/
def maxOpcode : ℕ := 63

/-- `IFMT`, `JFMT` and `RFMT`. -/
inductive Format where
  | ifmt
  | jfmt
  | rfmt
deriving DecidableEq, Repr

def opTable : List (OpCode × Format) := [
  (.special, .rfmt), (.bcond, .ifmt), (.j, .jfmt), (.jal, .jfmt),
  (.beq, .ifmt), (.bne, .ifmt), (.blez, .ifmt), (.bgtz, .ifmt),
  (.addi, .ifmt), (.addiu, .ifmt), (.slti, .ifmt), (.sltiu, .ifmt),
  (.andi, .ifmt), (.ori, .ifmt), (.xori, .ifmt), (.lui, .ifmt),
  (.unimp, .ifmt), (.unimp, .ifmt), (.unimp, .ifmt), (.unimp, .ifmt),
  (.res, .ifmt), (.res, .ifmt), (.res, .ifmt), (.res, .ifmt),
  (.res, .ifmt), (.res, .ifmt), (.res, .ifmt), (.res, .ifmt),
  (.res, .ifmt), (.res, .ifmt), (.res, .ifmt), (.res, .ifmt),
  (.lb, .ifmt), (.lh, .ifmt), (.lwl, .ifmt), (.lw, .ifmt),
  (.lbu, .ifmt), (.lhu, .ifmt), (.lwr, .ifmt), (.res, .ifmt),
  (.sb, .ifmt), (.sh, .ifmt), (.swl, .ifmt), (.sw, .ifmt),
  (.res, .ifmt), (.res, .ifmt), (.swr, .ifmt), (.res, .ifmt),
  (.unimp, .ifmt), (.unimp, .ifmt), (.unimp, .ifmt), (.unimp, .ifmt),
  (.res, .ifmt), (.res, .ifmt), (.res, .ifmt), (.res, .ifmt),
  (.unimp, .ifmt), (.unimp, .ifmt), (.unimp, .ifmt), (.unimp, .ifmt),
  (.res, .ifmt), (.res, .ifmt), (.res, .ifmt), (.res, .ifmt)]

def specialTable : List OpCode := [
  .sll, .res, .srl, .sra, .sllv, .res, .srlv, .srav,
  .jr, .jalr, .res, .res, .syscall, .unimp, .res, .res,
  .mfhi, .mthi, .mflo, .mtlo, .res, .res, .res, .res,
  .mult, .multu, .div, .divu, .res, .res, .res, .res,
  .add, .addu, .sub, .subu, .and, .or, .xor, .nor,
  .res, .res, .slt, .sltu, .res, .res, .res, .res,
  .res, .res, .res, .res, .res, .res, .res, .res,
  .res, .res, .res, .res, .res, .res, .res, .res]

/-- A decoded instruction. -/
structure Instruction where
  opCode : OpCode
  rs : Fin numGPRegs
  rt : Fin numGPRegs
  rd : Fin numGPRegs
  extra : Word
deriving DecidableEq, Repr

/-- `(value >> shift) & 0x1f`. -/
def registerField (value : Word) (shift : ℕ) : Fin numGPRegs := Fin.ofNat _ (value >>> shift).toNat

/-- The entry of a table of 64 for the lowest six bits. -/
def tableEntry {α : Type} (table : List α) (h : table.length = 64) (value : Word) : α :=
  table.get ⟨value.toNat % 64, by omega⟩

/-- `Instruction::Decode`. -/
def decode (value : Word) : Instruction :=
  let (opCode, format) := tableEntry opTable (by decide) (value >>> 26)
  let extra := match format with
    | .ifmt =>
      let extra := value &&& 0xffff
      if extra &&& 0x8000 ≠ 0 then extra ||| 0xffff0000 else extra
    | .rfmt => (value >>> 6) &&& 0x1f
    | .jfmt => value &&& 0x3ffffff
  let opCode := match opCode with
    | .special => tableEntry specialTable (by decide) value
    | .bcond =>
      let i := value &&& 0x1f0000
      if i = 0 then .bltz
      else if i = 0x10000 then .bgez
      else if i = 0x100000 then .bltzal
      else if i = 0x110000 then .bgezal
      else .unimp
    | opCode => opCode
  { opCode
    rs := registerField value 21
    rt := registerField value 16
    rd := registerField value 11
    extra }

/-! ## The machine -/

/-- `ExceptionType`. -/
inductive ExceptionType where
  | syscall
  | pageFault
  | readOnly
  | busError
  | addressError
  | overflow
  | illegalInstr
deriving DecidableEq, Repr

/-- The registers, and whatever else there is in the machine and in the kernel. -/
structure Machine (μ : Type) where
  registers : Fin numTotalRegs → Word
  memory : μ

/-- What the processor calls. -/
structure Environment (μ : Type) where
  /-- The build with virtual memory. -/
  vm : Bool
  /-- `Machine::Translate`: the physical address or the exception. -/
  translate : μ → Word → Size → Bool → Except ExceptionType ℕ × μ
  /-- The value at an address of `mainMemory`. -/
  fetch : μ → ℕ → Size → Word
  /-- The memory with another value at an address of `mainMemory`. -/
  store : μ → ℕ → Size → Word → μ
  exceptionHandler : ExceptionType → Machine μ → Machine μ

/-- A general-purpose register. -/
def gp (r : Fin numGPRegs) : Fin numTotalRegs := r.castLE (by decide)

/-- The least `int`. -/
def intMin : Word := 0x80000000

/-- `SIGN_BIT`. -/
def signBit : Word := 0x80000000

/-- `IndexToAddr`. -/
def indexToAddr (x : Word) : Word := x <<< 2

/-! ## What the host computes -/

/-- `x << n`. -/
def shiftLeft (x n : Word) : Except Fault Word :=
  if n.toNat < 32 then .ok (x <<< n.toNat) else .error .shift

/-- `x >> n` for an `int`. -/
def shiftRight (x n : Word) : Except Fault Word :=
  if n.toNat < 32 then .ok (x.sshiftRight n.toNat) else .error .shift

/-- `x / y` and `x % y` for an `int`. -/
def divide (x y : Word) : Except Fault (Word × Word) :=
  if y = 0 ∨ (x = intMin ∧ y = -1) then .error .division else .ok (x.sdiv y, x.srem y)

/-- The same for an `unsigned int`. -/
def divideUnsigned (x y : Word) : Except Fault (Word × Word) :=
  if y = 0 then .error .division else .ok (x / y, x % y)

/-- The loop of `Mult`, from iteration `32 - fuel` on: `hi` and `lo` after it. -/
def multLoop : ℕ → (a bHi bLo hi lo : Word) → Word × Word
  | 0, _, _, _, hi, lo => (hi, lo)
  | fuel + 1, a, bHi, bLo, hi, lo =>
    let next := multLoop fuel (a.sshiftRight 1)
      (if bLo &&& 0x80000000 ≠ 0 then (bHi <<< 1) ||| 1 else bHi <<< 1) (bLo <<< 1)
    if a &&& 1 ≠ 0 then
      let lo := lo + bLo
      let hi := if lo < bLo then hi + 1 else hi
      let hi := hi + bHi
      if a &&& 0xfffffffe = 0 then (hi, lo) else next hi lo
    else next hi lo

/-- `Mult`: what it stores in `*hiPtr` and `*loPtr`. -/
def mult (a b : Word) (signedArith : Bool) : Word × Word :=
  if a = 0 ∨ b = 0 then (0, 0)
  else
    let negative := signedArith && (a.slt 0 != b.slt 0)
    let a := if signedArith && a.slt 0 then -a else a
    let b := if signedArith && b.slt 0 then -b else b
    let (hi, lo) := multLoop 32 a 0 b 0 0
    if negative then
      let hi := ~~~hi
      let lo := ~~~lo + 1
      (if lo = 0 then hi + 1 else hi, lo)
    else (hi, lo)

namespace Machine

variable {μ : Type}

def reg (m : Machine μ) (r : Fin numGPRegs) : Word := m.registers (gp r)

def set (m : Machine μ) (r : Fin numTotalRegs) (value : Word) : Machine μ :=
  { m with registers := Function.update m.registers r value }

/-! ## Delayed loads, exceptions and memory -/

/-- `Machine::DelayedLoad`. -/
def delayedLoad (m : Machine μ) (nextReg nextValue : Word) : Except Fault (Machine μ) :=
  if h : (m.registers loadReg).toNat < numTotalRegs then
    .ok ((((m.set ⟨(m.registers loadReg).toNat, h⟩ (m.registers loadValueReg)).set
      loadReg nextReg).set loadValueReg nextValue).set (gp 0) 0)
  else .error .registers

/-- `Machine::RaiseException`. -/
def raiseException (env : Environment μ) (m : Machine μ) (which : ExceptionType)
    (badVAddr : Word) : Except Fault (Machine μ) := do
  let m ← (m.set badVAddrReg badVAddr).delayedLoad 0 0
  return env.exceptionHandler which m

/-- `Translate`, and on an exception the trap to the kernel. The build with virtual memory
translates again after it, and asks for write access then. -/
def resolve (env : Environment μ) (m : Machine μ) (addr : Word) (size : Size) (writing : Bool) :
    Except Fault (Option ℕ × Machine μ) := do
  match env.translate m.memory addr size writing with
  | (.ok physicalAddress, memory) => return (some physicalAddress, { m with memory })
  | (.error exception, memory) =>
    let m ← raiseException env { m with memory } exception addr
    if env.vm then
      match env.translate m.memory addr size true with
      | (.ok physicalAddress, memory) => return (some physicalAddress, { m with memory })
      | (.error _, memory) => return (none, { m with memory })
    else return (none, m)

/-- `Machine::ReadMem`: the value, or `none` when it returns `false`. -/
def readMem (env : Environment μ) (m : Machine μ) (addr : Word) (size : Size) :
    Except Fault (Option Word × Machine μ) := do
  let (physicalAddress, m) ← resolve env m addr size false
  return (physicalAddress.map fun pa => env.fetch m.memory pa size, m)

/-- `Machine::WriteMem`: whether it returns `true`. -/
def writeMem (env : Environment μ) (m : Machine μ) (addr : Word) (size : Size) (value : Word) :
    Except Fault (Bool × Machine μ) := do
  let (physicalAddress, m) ← resolve env m addr size true
  match physicalAddress with
  | none => return (false, m)
  | some pa => return (true, { m with memory := env.store m.memory pa size value })

/-! ## One instruction -/

/-- How the `switch` of `OneInstruction` is left. -/
inductive Effect (μ : Type) where
  /-- By `return`, after an exception. -/
  | raised (m : Machine μ)
  /-- By `break`, with the variables that are used after it. -/
  | executed (m : Machine μ) (pcAfter : Word) (nextLoadReg : Fin numGPRegs) (nextLoadValue : Word)

/-- `RaiseException(which, badVAddr); return;`. -/
def raise (env : Environment μ) (m : Machine μ) (which : ExceptionType) (badVAddr : Word) :
    Except Fault (Effect μ) := do
  let m ← m.raiseException env which badVAddr
  return .raised m

/-- `if (!ReadMem(addr, size, &value)) return;` and the rest. -/
def reading (env : Environment μ) (m : Machine μ) (addr : Word) (size : Size)
    (rest : Machine μ → Word → Except Fault (Effect μ)) : Except Fault (Effect μ) := do
  match ← m.readMem env addr size with
  | (none, m) => return .raised m
  | (some value, m) => rest m value

/-- `if (!WriteMem(addr, size, value)) return; break;`. -/
def writing (env : Environment μ) (m : Machine μ) (pcAfter addr : Word) (size : Size)
    (value : Word) : Except Fault (Effect μ) := do
  match ← m.writeMem env addr size value with
  | (false, m) => return .raised m
  | (true, m) => return .executed m pcAfter 0 0

/-- The register that `LWL` and `LWR` merge with: the pending load if it is for the register. -/
def merged (m : Machine μ) (rt : Fin numGPRegs) : Word :=
  if m.registers loadReg = BitVec.ofNat 32 rt then m.registers loadValueReg else m.reg rt

/-- The `switch` of `OneInstruction`. -/
def execute (env : Environment μ) (m : Machine μ) (instr : Instruction) (pcAfter : Word) :
    Except Fault (Effect μ) :=
  let rs := m.reg instr.rs
  let rt := m.reg instr.rt
  let nextPC := m.registers nextPCReg
  let done (m : Machine μ) : Except Fault (Effect μ) := .ok (.executed m pcAfter 0 0)
  let setRd (value : Word) := done (m.set (gp instr.rd) value)
  let setRt (value : Word) := done (m.set (gp instr.rt) value)
  let branch (m : Machine μ) (taken : Bool) : Except Fault (Effect μ) :=
    .ok (.executed m (if taken then nextPC + indexToAddr instr.extra else pcAfter) 0 0)
  let link := m.set (gp 31) (nextPC + 4)
  let load (m : Machine μ) (value : Word) : Except Fault (Effect μ) :=
    .ok (.executed m pcAfter instr.rt value)
  let tmp := rs + instr.extra
  match instr.opCode with
  | .add =>
    let sum := rs + rt
    if (rs ^^^ rt) &&& signBit = 0 ∧ (rs ^^^ sum) &&& signBit ≠ 0 then m.raise env .overflow 0
    else setRd sum
  | .addi =>
    let sum := rs + instr.extra
    if (rs ^^^ instr.extra) &&& signBit = 0 ∧ (instr.extra ^^^ sum) &&& signBit ≠ 0 then
      m.raise env .overflow 0
    else setRt sum
  | .addiu => setRt (rs + instr.extra)
  | .addu => setRd (rs + rt)
  | .and => setRd (rs &&& rt)
  | .andi => setRt (rs &&& (instr.extra &&& 0xffff))
  | .beq => branch m (rs = rt)
  | .bgezal => branch link (link.reg instr.rs &&& signBit = 0)
  | .bgez => branch m (rs &&& signBit = 0)
  | .bgtz => branch m (BitVec.slt 0 rs)
  | .blez => branch m (rs.sle 0)
  | .bltzal => branch link (link.reg instr.rs &&& signBit ≠ 0)
  | .bltz => branch m (rs &&& signBit ≠ 0)
  | .bne => branch m (rs ≠ rt)
  | .div =>
    if rt = 0 then done ((m.set loReg 0).set hiReg 0)
    else do
      let (quotient, remainder) ← divide rs rt
      done ((m.set loReg quotient).set hiReg remainder)
  | .divu =>
    if rt = 0 then done ((m.set loReg 0).set hiReg 0)
    else do
      let (quotient, remainder) ← divideUnsigned rs rt
      done ((m.set loReg quotient).set hiReg remainder)
  | .jal => .ok (.executed link ((pcAfter &&& 0xf0000000) ||| indexToAddr instr.extra) 0 0)
  | .j => .ok (.executed m ((pcAfter &&& 0xf0000000) ||| indexToAddr instr.extra) 0 0)
  | .jalr =>
    let m := m.set (gp instr.rd) (nextPC + 4)
    .ok (.executed m (m.reg instr.rs) 0 0)
  | .jr => .ok (.executed m rs 0 0)
  | .lb => m.reading env tmp .byte fun m value =>
    load m (if value &&& 0x80 ≠ 0 then value ||| 0xffffff00 else value &&& 0xff)
  | .lbu => m.reading env tmp .byte fun m value => load m (value &&& 0xff)
  | .lh =>
    if tmp &&& 0x1 ≠ 0 then m.raise env .addressError tmp
    else m.reading env tmp .half fun m value =>
      load m (if value &&& 0x8000 ≠ 0 then value ||| 0xffff0000 else value &&& 0xffff)
  | .lhu =>
    if tmp &&& 0x1 ≠ 0 then m.raise env .addressError tmp
    else m.reading env tmp .half fun m value => load m (value &&& 0xffff)
  | .lui => setRt (instr.extra <<< 16)
  | .lw =>
    if tmp &&& 0x3 ≠ 0 then m.raise env .addressError tmp
    else m.reading env tmp .word fun m value => load m value
  | .lwl =>
    if tmp &&& 0x3 ≠ 0 then .error .assertion
    else m.reading env tmp .word fun m value =>
      let nextLoadValue := m.merged instr.rt
      load m (match (tmp &&& 0x3).toNat with
        | 0 => value
        | 1 => (nextLoadValue &&& 0xff) ||| (value <<< 8)
        | 2 => (nextLoadValue &&& 0xffff) ||| (value <<< 16)
        | _ => (nextLoadValue &&& 0xffffff) ||| (value <<< 24))
  | .lwr =>
    if tmp &&& 0x3 ≠ 0 then .error .assertion
    else m.reading env tmp .word fun m value =>
      let nextLoadValue := m.merged instr.rt
      load m (match (tmp &&& 0x3).toNat with
        | 0 => (nextLoadValue &&& 0xffffff00) ||| (value.sshiftRight 24 &&& 0xff)
        | 1 => (nextLoadValue &&& 0xffff0000) ||| (value.sshiftRight 16 &&& 0xffff)
        | 2 => (nextLoadValue &&& 0xff000000) ||| (value.sshiftRight 8 &&& 0xffffff)
        | _ => value)
  | .mfhi => setRd (m.registers hiReg)
  | .mflo => setRd (m.registers loReg)
  | .mthi => done (m.set hiReg rs)
  | .mtlo => done (m.set loReg rs)
  | .mult =>
    let (hi, lo) := NachOS.mult rs rt true
    done ((m.set hiReg hi).set loReg lo)
  | .multu =>
    let (hi, lo) := NachOS.mult rs rt false
    done ((m.set hiReg hi).set loReg lo)
  | .nor => setRd (~~~(rs ||| rt))
  -- The source has `rs` twice.
  | .or => setRd (rs ||| rs)
  | .ori => setRt (rs ||| (instr.extra &&& 0xffff))
  | .sb => m.writing env pcAfter tmp .byte rt
  | .sh => m.writing env pcAfter tmp .half rt
  | .sll => do setRd (← shiftLeft rt instr.extra)
  | .sllv => do setRd (← shiftLeft rt (rs &&& 0x1f))
  | .slt => setRd (if rs.slt rt then 1 else 0)
  | .slti => setRt (if rs.slt instr.extra then 1 else 0)
  | .sltiu => setRt (if rs < instr.extra then 1 else 0)
  | .sltu => setRd (if rs < rt then 1 else 0)
  | .sra => do setRd (← shiftRight rt instr.extra)
  | .srav => do setRd (← shiftRight rt (rs &&& 0x1f))
  -- `tmp` is an `int` in the source, so that these shift in the sign.
  | .srl => do setRd (← shiftRight rt instr.extra)
  | .srlv => do setRd (← shiftRight rt (rs &&& 0x1f))
  | .sub =>
    let diff := rs - rt
    if (rs ^^^ rt) &&& signBit ≠ 0 ∧ (rs ^^^ diff) &&& signBit ≠ 0 then m.raise env .overflow 0
    else setRd diff
  | .subu => setRd (rs - rt)
  | .sw => m.writing env pcAfter tmp .word rt
  | .swl =>
    if tmp &&& 0x3 ≠ 0 then .error .assertion
    else m.reading env (tmp &&& ~~~0x3) .word fun m value =>
      let rt := m.reg instr.rt
      m.writing env pcAfter (tmp &&& ~~~0x3) .word (match (tmp &&& 0x3).toNat with
        | 0 => rt
        | 1 => (value &&& 0xff000000) ||| (rt.sshiftRight 8 &&& 0xffffff)
        | 2 => (value &&& 0xffff0000) ||| (rt.sshiftRight 16 &&& 0xffff)
        | _ => (value &&& 0xffffff00) ||| (rt.sshiftRight 24 &&& 0xff))
  | .swr =>
    if tmp &&& 0x3 ≠ 0 then .error .assertion
    else m.reading env (tmp &&& ~~~0x3) .word fun m value =>
      let rt := m.reg instr.rt
      m.writing env pcAfter (tmp &&& ~~~0x3) .word (match (tmp &&& 0x3).toNat with
        | 0 => (value &&& 0xffffff) ||| (rt <<< 24)
        | 1 => (value &&& 0xffff) ||| (rt <<< 16)
        | 2 => (value &&& 0xff) ||| (rt <<< 8)
        | _ => rt)
  | .syscall => m.raise env .syscall 0
  | .xor => setRd (rs ^^^ rt)
  | .xori => setRt (rs ^^^ (instr.extra &&& 0xffff))
  | .res | .unimp => m.raise env .illegalInstr 0
  | .rfe | .special | .bcond => .error .assertion

/-- How `OneInstruction` returns. -/
inductive Outcome (μ : Type) where
  /-- After an exception. -/
  | raised (m : Machine μ)
  | completed (m : Machine μ)

def Outcome.machine : Outcome μ → Machine μ
  | .raised m => m
  | .completed m => m

/-- What `OneInstruction` does after the `switch`. -/
def finish : Effect μ → Except Fault (Outcome μ)
  | .raised m => .ok (.raised m)
  | .executed m pcAfter nextLoadReg nextLoadValue => do
    let m ← m.delayedLoad (BitVec.ofNat 32 nextLoadReg) nextLoadValue
    let m := m.set prevPCReg (m.registers pcReg)
    let m := m.set pcReg (m.registers nextPCReg)
    return .completed (m.set nextPCReg pcAfter)

/-- `Machine::OneInstruction`; `debug` is `DebugIsEnabled('m')`. -/
def oneInstruction (env : Environment μ) (debug : Bool) (m : Machine μ) :
    Except Fault (Outcome μ) := do
  match ← m.readMem env (m.registers pcReg) .word with
  | (none, m) => return .raised m
  | (some raw, m) =>
    let instr := decode raw
    if debug && !decide (instr.opCode.number ≤ maxOpcode) then .error .assertion
    else
      let effect ← m.execute env instr (m.registers nextPCReg + 4)
      finish effect

end Machine
end NachOS
