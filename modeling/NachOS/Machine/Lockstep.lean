import NachOS.Machine.Crashes

/-!
# Machines with memories that answer alike

What an instruction does depends on the memory only through `Translate` and through what is read
and written where it points. Two machines with the same registers, on memories that answer alike,
stay so.
-/

namespace NachOS

open PartialRun

variable {μ ν : Type}

/-- What two memories answer to a translation: the same exception, or addresses of values that are
the same and stay so when they are written. -/
inductive Alike (env : Environment μ) (env' : Environment ν) (R : μ → ν → Prop) (size : Size) :
    Except ExceptionType ℕ × μ → Except ExceptionType ℕ × ν → Prop where
  | raised (exception : ExceptionType) {memory : μ} {memory' : ν} (h : R memory memory') :
    Alike env env' R size (.error exception, memory) (.error exception, memory')
  | translated {pa pa' : ℕ} {memory : μ} {memory' : ν} (h : R memory memory')
    (hfetch : env.fetch memory pa size = env'.fetch memory' pa' size)
    (hstore : ∀ value,
      R (env.store memory pa size value) (env'.store memory' pa' size value)) :
    Alike env env' R size (.ok pa, memory) (.ok pa', memory')

/-- The registers are the same, and the memories are related. -/
structure Twins (R : μ → ν → Prop) (m : Machine μ) (m' : Machine ν) : Prop where
  registers : m'.registers = m.registers
  memory : R m.memory m'.memory

/-- Related memories answer alike, and the kernel does the same to them. -/
structure Environment.Lockstep (env : Environment μ) (env' : Environment ν) (R : μ → ν → Prop) :
    Prop where
  vm : env'.vm = env.vm
  translate : ∀ {memory memory'}, R memory memory' → ∀ addr size writing,
    Alike env env' R size (env.translate memory addr size writing)
      (env'.translate memory' addr size writing)
  exceptionHandler : ∀ {m m'}, Twins R m m' → ∀ which,
    Twins R (env.exceptionHandler which m) (env'.exceptionHandler which m')

/-- Where `Translate` has led, with the trap to the kernel if there was one. -/
inductive SameFound (env : Environment μ) (env' : Environment ν) (R : μ → ν → Prop) (size : Size) :
    Option ℕ × Machine μ → Option ℕ × Machine ν → Prop where
  | none {m : Machine μ} {m' : Machine ν} (h : Twins R m m') :
    SameFound env env' R size (none, m) (none, m')
  | some {pa pa' : ℕ} {m : Machine μ} {m' : Machine ν} (h : Twins R m m')
    (hfetch : env.fetch m.memory pa size = env'.fetch m'.memory pa' size)
    (hstore : ∀ value,
      R (env.store m.memory pa size value) (env'.store m'.memory pa' size value)) :
    SameFound env env' R size (some pa, m) (some pa', m')

/-- The `switch` is left in the same way. -/
inductive SameWay (R : μ → ν → Prop) : Machine.Effect μ → Machine.Effect ν → Prop where
  | raised {m : Machine μ} {m' : Machine ν} (h : Twins R m m') : SameWay R (.raised m) (.raised m')
  | executed {m : Machine μ} {m' : Machine ν} (h : Twins R m m') (pcAfter : Word)
    (nextLoadReg : Fin numGPRegs) (nextLoadValue : Word) :
    SameWay R (.executed m pcAfter nextLoadReg nextLoadValue)
      (.executed m' pcAfter nextLoadReg nextLoadValue)

namespace Twins

variable {R : μ → ν → Prop} {env : Environment μ} {env' : Environment ν} {m : Machine μ}
  {m' : Machine ν}

/-- The general registers are the same. -/
theorem reg (h : Twins R m m') (r : Fin numGPRegs) : m'.reg r = m.reg r := congrFun h.registers _

theorem register (h : Twins R m m') (r : Fin numTotalRegs) : m'.registers r = m.registers r :=
  congrFun h.registers r

/-- Both machines set the same register to the same value. -/
theorem set (h : Twins R m m') (r : Fin numTotalRegs) (value : Word) :
    Twins R (m.set r value) (m'.set r value) := by
  refine ⟨?_, h.memory⟩
  rw [Machine.set, Machine.set, h.registers]

/-- The memories may change together, as long as they stay related. -/
theorem withMemory (h : Twins R m m') {memory : μ} {memory' : ν} (hR : R memory memory') :
    Twins R { m with memory } { m' with memory := memory' } := ⟨h.registers, hR⟩

/-- `LWL` and `LWR` merge with the same old value, also while a load is pending. -/
theorem merged (h : Twins R m m') (rt : Fin numGPRegs) : m'.merged rt = m.merged rt := by
  rw [Machine.merged, Machine.merged, h.register, h.register, h.reg]

/-- Both machines apply the pending load and remember the next one. -/
theorem delayedLoad (h : Twins R m m') (nextReg nextValue : Word) :
    Matches (Twins R) (m.delayedLoad nextReg nextValue) (m'.delayedLoad nextReg nextValue) := by
  by_cases hlt : (m.registers loadReg).toNat < numTotalRegs
  · have hlt' : (m'.registers loadReg).toNat < numTotalRegs := by
      rw [h.register]
      exact hlt
    rw [Machine.delayedLoad, Machine.delayedLoad, dif_pos hlt, dif_pos hlt']
    have hreg : (⟨(m'.registers loadReg).toNat, hlt'⟩ : Fin numTotalRegs) =
        ⟨(m.registers loadReg).toNat, hlt⟩ := by
      apply Fin.ext
      show (m'.registers loadReg).toNat = (m.registers loadReg).toNat
      rw [h.register]
    rw [hreg, h.register]
    exact .ok ((((h.set _ _).set _ _).set _ _).set _ _)
  · have hlt' : ¬ (m'.registers loadReg).toNat < numTotalRegs := by
      rw [h.register]
      exact hlt
    rw [Machine.delayedLoad, Machine.delayedLoad, dif_neg hlt, dif_neg hlt']
    exact .error _

section Lockstep

variable (hlock : env.Lockstep env' R)

include hlock

/-- Both handlers are called in related states, so they leave related states. -/
theorem raiseException (h : Twins R m m') (which : ExceptionType) (badVAddr : Word) :
    Matches (Twins R) (m.raiseException env which badVAddr)
      (m'.raiseException env' which badVAddr) := by
  refine ((h.set _ _).delayedLoad 0 0).bind fun a b h' => ?_
  exact .ok (hlock.exceptionHandler h' which)

omit hlock in
/-- A translation that succeeded. -/
theorem found (h : Twins R m m') {size : Size} {pa pa' : ℕ} {memory : μ} {memory' : ν}
    (hR : R memory memory') (hfetch : env.fetch memory pa size = env'.fetch memory' pa' size)
    (hstore : ∀ value, R (env.store memory pa size value) (env'.store memory' pa' size value)) :
    SameFound env env' R size (some pa, { m with memory }) (some pa', { m' with memory := memory' }) :=
  .some (h.withMemory hR) hfetch hstore

/-- Both translations find the same address, or raise the same exception. -/
theorem resolve (h : Twins R m m') (addr : Word) (size : Size) (writing : Bool) :
    Matches (SameFound env env' R size) (m.resolve env addr size writing)
      (m'.resolve env' addr size writing) := by
  have halike := hlock.translate h.memory addr size writing
  unfold Machine.resolve
  revert halike
  generalize env.translate m.memory addr size writing = x
  generalize env'.translate m'.memory addr size writing = y
  intro halike
  cases halike with
  | translated hR hfetch hstore => exact .ok (h.found hR hfetch hstore)
  | raised exception hR =>
    -- the kernel is called, and with virtual memory there is a second try
    refine (raiseException hlock (h.withMemory hR) exception addr).bind fun a b h' => ?_
    rw [hlock.vm]
    by_cases hvm : env.vm = true
    · rw [if_pos hvm, if_pos hvm]
      have hagain := hlock.translate h'.memory addr size true
      revert hagain
      generalize env.translate a.memory addr size true = x
      generalize env'.translate b.memory addr size true = y
      intro hagain
      cases hagain with
      | translated hR hfetch hstore => exact .ok (h'.found hR hfetch hstore)
      | raised exception hR => exact .ok (.none (h'.withMemory hR))
    · rw [if_neg hvm, if_neg hvm]
      exact .ok (.none h')

/-- The same value is read, or nothing. -/
theorem readMem (h : Twins R m m') (addr : Word) (size : Size) :
    Matches (fun x y => y.1 = x.1 ∧ Twins R x.2 y.2) (m.readMem env addr size)
      (m'.readMem env' addr size) := by
  refine (resolve hlock h addr size false).bind fun x y hfound => ?_
  cases hfound with
  | none h' => exact .ok ⟨rfl, h'⟩
  | some h' hfetch hstore =>
    refine .ok ⟨?_, h'⟩
    rw [Option.map_some, Option.map_some, hfetch]

/-- A store fails on both machines or on none. -/
theorem writeMem (h : Twins R m m') (addr : Word) (size : Size) (value : Word) :
    Matches (fun x y => y.1 = x.1 ∧ Twins R x.2 y.2) (m.writeMem env addr size value)
      (m'.writeMem env' addr size value) := by
  refine (resolve hlock h addr size true).bind fun x y hfound => ?_
  cases hfound with
  | none h' => exact .ok ⟨rfl, h'⟩
  | some h' hfetch hstore => exact .ok ⟨rfl, h'.withMemory (hstore value)⟩

/-! ## The switch -/

/-- Both machines end the instruction with the same exception. -/
theorem raise (h : Twins R m m') (which : ExceptionType) (badVAddr : Word) :
    Matches (SameWay R) (m.raise env which badVAddr) (m'.raise env' which badVAddr) :=
  (raiseException hlock h which badVAddr).bind fun _ _ h' => .ok (.raised h')

/-- A load gives both machines the same value, with which they go on alike. -/
theorem reading (h : Twins R m m') (addr : Word) (size : Size)
    {rest : Machine μ → Word → Except Fault (Machine.Effect μ)}
    {rest' : Machine ν → Word → Except Fault (Machine.Effect ν)}
    (hrest : ∀ {a b} value, Twins R a b → Matches (SameWay R) (rest a value) (rest' b value)) :
    Matches (SameWay R) (m.reading env addr size rest) (m'.reading env' addr size rest') := by
  refine (readMem hlock h addr size).bind fun x y hsame => ?_
  obtain ⟨value, a⟩ := x
  obtain ⟨value', b⟩ := y
  obtain ⟨hvalue, h'⟩ := hsame
  dsimp only at hvalue h'
  subst hvalue
  cases value' with
  | none => exact .ok (.raised h')
  | some value => exact hrest value h'

/-- A store ends alike on both machines. -/
theorem writing (h : Twins R m m') (pcAfter addr : Word) (size : Size) (value : Word) :
    Matches (SameWay R) (m.writing env pcAfter addr size value)
      (m'.writing env' pcAfter addr size value) := by
  refine (writeMem hlock h addr size value).bind fun x y hsame => ?_
  obtain ⟨wrote, a⟩ := x
  obtain ⟨wrote', b⟩ := y
  obtain ⟨hwrote, h'⟩ := hsame
  dsimp only at hwrote h'
  subst hwrote
  cases wrote' with
  | false => exact .ok (.raised h')
  | true => exact .ok (.executed h' pcAfter 0 0)

omit hlock in

/-- Both machines have executed an instruction with the same results. -/
theorem executed (h : Twins R m m') (pcAfter : Word) (nextLoadReg : Fin numGPRegs)
    (nextLoadValue : Word) :
    Matches (SameWay R) (.ok (.executed m pcAfter nextLoadReg nextLoadValue) : Except Fault _)
      (.ok (.executed m' pcAfter nextLoadReg nextLoadValue)) :=
  .ok (.executed h pcAfter nextLoadReg nextLoadValue)

/-- One case of the big `switch`, on both machines. -/
theorem execute (h : Twins R m m') (instr : Instruction) (pcAfter : Word) :
    Matches (SameWay R) (m.execute env instr pcAfter) (m'.execute env' instr pcAfter) := by
  have hreg := h.reg
  have hregister := h.register
  have hset := h.set
  unfold Machine.execute
  cases instr.opCode with
  | add | addi | sub =>
    simp only [hreg]
    split
    · exact raise hlock h _ _
    · exact (hset _ _).executed _ _ _
  | addiu | addu | and | andi | lui | nor | or | ori | slt | slti | sltiu | sltu | subu | xor
  | xori | mfhi | mflo | mthi | mtlo | jal =>
    simp only [hreg, hregister]
    exact (hset _ _).executed _ _ _
  | beq | bgez | bgtz | blez | bltz | bne | j | jr =>
    -- the branches only set the counter
    simp only [hreg, hregister]
    exact h.executed _ _ _
  | bgezal | bltzal | jalr =>
    simp only [hregister, (hset _ _).reg]
    exact (hset _ _).executed _ _ _
  | div | divu =>
    simp only [hreg]
    split
    · exact ((hset _ _).set _ _).executed _ _ _
    · exact .same _ fun _ => ((hset _ _).set _ _).executed _ _ _
  | mult | multu =>
    simp only [hreg]
    exact ((hset _ _).set _ _).executed _ _ _
  | lb | lbu =>
    simp only [hreg]
    exact reading hlock h _ _ fun value h' => h'.executed _ _ _
  | lh | lhu | lw =>
    simp only [hreg]
    split
    · exact raise hlock h _ _
    · exact reading hlock h _ _ fun value h' => h'.executed _ _ _
  | lwl | lwr =>
    -- the unaligned loads merge the word that is read with what the register is about to get
    simp only [hreg]
    split
    · exact .error _
    · refine reading hlock h _ _ fun value h' => ?_
      rw [h'.merged]
      exact h'.executed _ _ _
  | sb | sh | sw =>
    simp only [hreg]
    exact writing hlock h _ _ _ _
  | swl | swr =>
    simp only [hreg]
    split
    · exact .error _
    · refine reading hlock h _ _ fun value h' => ?_
      rw [h'.reg]
      exact writing hlock h' _ _ _ _
  | sll | sllv | sra | srav | srl | srlv =>
    simp only [hreg]
    exact .same _ fun _ => (hset _ _).executed _ _ _
  | syscall | res | unimp => exact raise hlock h _ _
  | rfe | special | bcond => exact .error _

omit hlock in

/-- What is done after the instruction keeps the machines related. -/
theorem finish {x : Machine.Effect μ} {y : Machine.Effect ν} (h : SameWay R x y) :
    Matches (fun x y => Twins R x.machine y.machine) (Machine.finish x) (Machine.finish y) := by
  cases h with
  | raised h => exact .ok h
  | executed h pcAfter nextLoadReg nextLoadValue =>
    refine (h.delayedLoad _ _).bind fun a b h' => ?_
    dsimp only
    rw [h'.register pcReg]
    have hprev := h'.set prevPCReg (a.registers pcReg)
    rw [hprev.register nextPCReg]
    exact .ok ((hprev.set _ _).set _ _)

/-- The machines fetch the same word, decode it alike and execute it alike. -/
theorem oneInstruction (h : Twins R m m') (debug : Bool) :
    Matches (fun x y => Twins R x.machine y.machine) (m.oneInstruction env debug)
      (m'.oneInstruction env' debug) := by
  unfold Machine.oneInstruction
  rw [h.register]
  refine (readMem hlock h (m.registers pcReg) .word).bind fun x y hsame => ?_
  obtain ⟨raw, a⟩ := x
  obtain ⟨raw', b⟩ := y
  obtain ⟨hraw, h'⟩ := hsame
  dsimp only at hraw h'
  subst hraw
  cases raw' with
  | none => exact .ok h'
  | some raw =>
    dsimp only
    split
    · exact .error _
    · rw [h'.register]
      exact (execute hlock h' (decode raw) _).bind fun _ _ hway => finish hway

end Lockstep
end Twins
end NachOS
