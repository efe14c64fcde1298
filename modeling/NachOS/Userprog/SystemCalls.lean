import NachOS.Userprog.OpenFilesTable
import NachOS.NoVM.FlatMemory

/-!
# System calls that copy between user memory and the kernel

`NachOS_Write`, `NachOS_Read`, `NachOS_Create`, `NachOS_Open` and `NachOS_Exec` of
`exception.cc`, as far as they move bytes. They reach user memory one byte at a time through
`ReadMem` and `WriteMem`, which is all they use of the machine, in either build. `ReadMem` stores
an `int` where its last argument points to, also if the kernel has given it a pointer to a
`char`.
-/

namespace NachOS

open PartialRun

/-! ## User memory -/

/-- `ReadMem` and `WriteMem` for one byte: the value or `none`, and whether it was stored. -/
structure UserMemory (μ : Type) where
  readMem : μ → ℤ → Except Fault (Option ℤ × μ)
  writeMem : μ → ℤ → ℤ → Except Fault (Bool × μ)

/-- The build with virtual memory. -/
def System.userMemory : UserMemory System where
  readMem s addr := s.readMem addr .byte
  writeMem s addr value := s.writeMem addr .byte value

/-- The build without. A page fault is ignored there, and any other exception is a failed
`ASSERT`. -/
def NoVM.userMemory : UserMemory NoVM.Memory where
  readMem m addr := do
    match ← NoVM.readMem m addr .byte with
    | (.ok value, m) => return (some value, m)
    | (.error .pageFault, m) => return (none, m)
    | (.error _, _) => .error .assertion
  writeMem m addr value := do
    match ← NoVM.writeMem m addr .byte value with
    | (.ok (), m) => return (true, m)
    | (.error .pageFault, m) => return (false, m)
    | (.error _, _) => .error .assertion

/-- The value of a byte as a `char`. -/
def toChar (b : UInt8) : ℤ := (b.toNat + 2 ^ 7 : ℤ) % 2 ^ 8 - 2 ^ 7

/-! ## Buffers of the kernel -/

/-- An array of bytes; one that was never set is `none`. -/
structure CharBuffer where
  size : ℕ
  bytes : ℕ → Option UInt8

namespace CharBuffer

/-- `new char[n]`. -/
def new (n : ℤ) : Except Fault CharBuffer :=
  if n < 0 then .error .buffer else .ok ⟨n.toNat, fun _ => none⟩

variable (b : CharBuffer)

def load (i : ℕ) : Except Fault UInt8 :=
  if i < b.size then
    match b.bytes i with
    | some c => .ok c
    | none => .error .uninitialised
  else .error .buffer

def store (i : ℕ) (c : UInt8) : Except Fault CharBuffer :=
  if i < b.size then .ok { b with bytes := Function.update b.bytes i (some c) }
  else .error .buffer

/-- The store under a condition. -/
def keep (p : Prop) [Decidable p] (i : ℕ) (c : UInt8) : Except Fault CharBuffer :=
  if p then b.store i c else .ok b

/-- `*(int*)&b[i] = value`. -/
def storeInt (i : ℕ) (value : ℤ) : Except Fault CharBuffer :=
  if i + sizeofInt ≤ b.size then .ok { b with
    bytes := fun k => if i ≤ k ∧ k < i + sizeofInt then some (System.valueBytes value (k - i))
      else b.bytes k }
  else .error .buffer

/-- The characters from index `i` on, up to the first `'\0'`, of which the first `fuel` are
looked at. -/
def text : ℕ → ℕ → Except Fault (List UInt8)
  | 0, _ => .error .buffer
  | fuel + 1, i => do
    let c ← b.load i
    if c = 0 then return []
    else do
      let cs ← text fuel (i + 1)
      return c :: cs

/-- `strnlen`, from index `i` on and for at most `left` characters. -/
def strnlen : ℕ → ℕ → Except Fault ℕ
  | 0, i => .ok i
  | left + 1, i => do
    let c ← b.load i
    if c = 0 then return i else strnlen left (i + 1)

/-- `new char[2 * size]`, which starts with these contents, and the first `n` bytes copied to
it. -/
def grow (contents : ℕ → UInt8) (n : ℕ) : Except Fault CharBuffer :=
  if b.size * 2 < 2 ^ 31 then .ok {
    size := b.size * 2
    bytes := fun i => if i < n then b.bytes i else some (contents i) }
  else .error .buffer

/-- What a pointer to the buffer points to. -/
def pointee : ℕ → Option UInt8 := fun i => if i < b.size then b.bytes i else none

end CharBuffer

def consoleInput : ℤ := 0
def consoleOutput : ℤ := 1

section

variable {μ : Type} (memory : UserMemory μ)

/-! ## `Write` -/

/-- What `Write` does outside the kernel. -/
inductive WriteEffect where
  | nothing
  /-- `printf("%s", content)`. -/
  | printed (text : List UInt8)
  /-- `write(unixHandle, content, size)`. -/
  | wrote (unixHandle : ℤ) (bytes : List (Option UInt8))
deriving DecidableEq, Repr

/-- What `ReadMem` stores at `(int*)&content[i]`. -/
def storeRead (content : CharBuffer) (i : ℕ) : Option ℤ → Except Fault CharBuffer
  | some value => content.storeInt i value
  | none => .ok content

/-- The loop of `NachOS_Write` from index `i` on: the index it is left with. -/
def writeLoop (addr : ℤ) : ℕ → ℕ → CharBuffer → μ → Except Fault (ℕ × CharBuffer × μ)
  | 0, i, content, m => .ok (i, content, m)
  | left + 1, i, content, m => do
    let (value, m) ← memory.readMem m (addr + i)
    let content ← storeRead content i value
    let c ← content.load i
    if c = '\n'.toUInt8 then return (i, content, m)
    else writeLoop addr left (i + 1) content m

/-- `NachOS_Write`: what is in register 2 after it. -/
def nachosWrite (m : μ) (openFilesTable : NachosOpenFilesTable) (addr size descriptor : ℤ) :
    Except Fault (WriteEffect × ℤ × μ) := do
  let content ← CharBuffer.new (size + 1)
  let (i, content, m) ← writeLoop memory addr size.toNat 0 content m
  let content ← content.store (i + 1) 0
  if descriptor = consoleInput then return (.nothing, -1, m)
  else if descriptor = consoleOutput then do
    let text ← content.text content.size 0
    return (.printed text, size, m)
  else do
    let opened ← openFilesTable.isOpened descriptor
    if opened then do
      let unixHandle ← openFilesTable.getUnixHandle descriptor
      -- `size` bytes, also where the copy has stopped at a line feed
      return (.wrote unixHandle ((List.range size.toNat).map content.bytes), size, m)
    else return (.nothing, -1, m)

/-! ## `Read` -/

/-- The first loop of `NachOS_Read` for the console: the position it is left with. At the end of
the input `read` leaves `charBuffer` as it is. -/
def readConsole (size : ℤ) :
    ℕ → List UInt8 → UInt8 → ℕ → CharBuffer → Except Fault (ℕ × CharBuffer)
  | 0, _, _, _, _ => .error .loop
  | fuel + 1, input, charBuffer, position, content => do
    let charBuffer := input.headD charBuffer
    -- a character that is not stored still takes its position
    let content ← content.keep (toChar charBuffer > 8) position charBuffer
    let position := position + 1
    if charBuffer ≠ 0 ∧ position < size then
      readConsole size fuel input.tail charBuffer position content
    else return (position, content)

/-- The condition of the second loop, `c` being `content[readingIndex]`. -/
def goesOn (size : ℤ) (content : CharBuffer) (readingIndex : ℕ) (c : UInt8) : Except Fault Bool :=
  if c ≠ 0 then .ok true
  else do
    let n ← content.strnlen size.toNat 0
    return decide (readingIndex < n ∨ readingIndex < size)

/-- The second loop, from `readingIndex` on: the index it is left with. -/
def deliver (addr size : ℤ) (content : CharBuffer) : ℕ → ℕ → μ → Except Fault (ℕ × μ)
  | 0, _, _ => .error .loop
  | fuel + 1, readingIndex, m => do
    let c ← content.load readingIndex
    let goesOn ← goesOn size content readingIndex c
    if goesOn then do
      let (_, m) ← memory.writeMem m (addr + readingIndex) (toChar c)
      deliver addr size content fuel (readingIndex + 1) m
    else return (readingIndex, m)

/-- The loop for a file, over the bytes that the host has read. -/
def deliverFile (addr : ℤ) : ℕ → List UInt8 → μ → Except Fault μ
  | _, [], m => .ok m
  | charPos, c :: cs, m => do
    let (_, m) ← memory.writeMem m (addr + charPos) (toChar c)
    deliverFile addr (charPos + 1) cs m

/-- `NachOS_Read`: what is in register 2 after it. `input` is what can be read at the console or
in the file, and `none` if the host cannot read the file. -/
def nachosRead (m : μ) (openFilesTable : NachosOpenFilesTable) (addr size descriptor : ℤ)
    (input : Option (List UInt8)) : Except Fault (ℤ × μ) := do
  let content ← CharBuffer.new size
  if descriptor = consoleInput then do
    let (position, content) ← readConsole size (size.toNat + 1) (input.getD []) 0 0 content
    let content ← content.keep ((position : ℤ) ≠ size) position '\n'.toUInt8
    let (readingIndex, m) ← deliver memory addr size content (size.toNat + 1) 0 m
    return (readingIndex, m)
  else if descriptor = consoleOutput then return (-1, m)
  else do
    let opened ← openFilesTable.isOpened descriptor
    if opened then do
      let _ ← openFilesTable.getUnixHandle descriptor
      match input with
      | none => return (-1, m)
      | some bytes => do
        let m ← deliverFile memory addr 0 (bytes.take size.toNat) m
        return ((bytes.take size.toNat).length, m)
    else return (-1, m)

/-! ## File names -/

/-- The size of the first buffer of `NachOS_Create`. -/
def firstCapacity : ℕ := 200

/-- `FILENAME_MAX` of the host's `stdio.h`. -/
def filenameMax : ℕ := 4096

/-- The start of the loop of `NachOS_Create`: a buffer that is about to be full is doubled. -/
def adjust (contents : ℕ → ℕ → UInt8) (charOnNamePos grown : ℕ) (fileName : CharBuffer) :
    Except Fault (ℕ × CharBuffer) :=
  if charOnNamePos + 1 = fileName.size then do
    let fileName ← fileName.grow (contents (grown + 1)) charOnNamePos
    return (grown + 1, fileName)
  else .ok (grown, fileName)

/-- The loop of `NachOS_Create` from position `charOnNamePos` on, `grown` being how often the
buffer has been doubled and `contents` what the new buffers start with. -/
def createLoop (contents : ℕ → ℕ → UInt8) (addr : ℤ) :
    ℕ → ℕ → ℕ → ℤ → CharBuffer → μ → Except Fault (CharBuffer × μ)
  | 0, _, _, _, _, _ => .error .loop
  | fuel + 1, charOnNamePos, grown, nameCharBuffer, fileName, m => do
    let (grown, fileName) ← adjust contents charOnNamePos grown fileName
    let (value, m) ← memory.readMem m (addr + charOnNamePos)
    let nameCharBuffer := value.getD nameCharBuffer
    if nameCharBuffer ≠ 0 then do
      let fileName ← fileName.store charOnNamePos (System.valueBytes nameCharBuffer 0)
      createLoop contents addr fuel (charOnNamePos + 1) grown nameCharBuffer fileName m
    else return (fileName, m)

/-- `NachOS_Create`: what the name given to `creat` points to, and what is in register 2. -/
def nachosCreate (contents : ℕ → ℕ → UInt8) (creat : (ℕ → Option UInt8) → ℤ) (fuel : ℕ) (m : μ)
    (addr : ℤ) : Except Fault ((ℕ → Option UInt8) × ℤ × μ) := do
  let fileName : CharBuffer := ⟨firstCapacity, fun i => some (contents 0 i)⟩
  let (fileName, m) ← createLoop memory contents addr fuel 0 0 0 fileName m
  return (fileName.pointee, creat fileName.pointee, m)

/-- What `ReadMem` stores at `(int*)&charBuffer`. `padding` is the number of bytes after the
variable `charBuffer` that no other variable is in. -/
def storeChar (padding : ℕ) (charBuffer : Option UInt8) : Option ℤ → Except Fault (Option UInt8)
  | none => .ok charBuffer
  | some value =>
    if sizeofInt ≤ 1 + padding then .ok (some (System.valueBytes value 0)) else .error .buffer

/-- The loop of `NachOS_Open`: the value of `iteratorOpen` after it. -/
def openLoop (padding : ℕ) (addr : ℤ) :
    ℕ → ℕ → Option UInt8 → CharBuffer → μ → Except Fault (ℕ × CharBuffer × μ)
  | 0, _, _, _, _ => .error .loop
  | fuel + 1, iteratorOpen, charBuffer, fileName, m => do
    let (value, m) ← memory.readMem m (addr + iteratorOpen)
    let charBuffer ← storeChar padding charBuffer value
    match charBuffer with
    | none => .error .uninitialised
    | some c => do
      let fileName ← fileName.store iteratorOpen c
      if c = 0 then return (iteratorOpen, fileName, m)
      else openLoop padding addr fuel (iteratorOpen + 1) (some c) fileName m

/-- `NachOS_Open` up to the host's `open`: what the name given to it points to. -/
def openName (padding fuel : ℕ) (m : μ) (iteratorOpen : ℕ) (addr : ℤ) :
    Except Fault ((ℕ → Option UInt8) × μ) := do
  let fileName : CharBuffer := ⟨filenameMax + 1, fun _ => some 0⟩
  let (iteratorOpen, fileName, m) ← openLoop memory padding addr fuel iteratorOpen none fileName m
  let fileName ← fileName.store iteratorOpen 0
  return (fileName.pointee, m)

/-- What `NachOS_Open` leaves behind. -/
structure Opened (μ : Type) where
  register2 : ℤ
  iteratorOpen : ℕ
  openFilesTable : NachosOpenFilesTable
  memory : μ

/-- `NachOS_Open`, where the host's `open` answers as `host` does. -/
def nachosOpen (padding : ℕ) (host : (ℕ → Option UInt8) → ℤ) (fuel : ℕ) (m : μ)
    (iteratorOpen : ℕ) (openFilesTable : NachosOpenFilesTable) (addr : ℤ) :
    Except Fault (Opened μ) := do
  let (name, m) ← openName memory padding fuel m iteratorOpen addr
  let fdOpenFile := host name
  if fdOpenFile = -1 then return ⟨-1, 0, openFilesTable, m⟩
  else do
    let (isOpened, openFilesTable) ← openFilesTable.openHandle fdOpenFile
    return ⟨isOpened, 0, openFilesTable, m⟩

/-- `NachOS_Exec` and `AuxExec`: what the name given to `fileSystem->Open` points to. Register 4
is cast to a pointer of the host, whose memory is `host`. -/
def nachosExec (host : ℤ → Option UInt8) (addr : ℤ) : ℕ → Option UInt8 := fun i => host (addr + i)

end

end NachOS
