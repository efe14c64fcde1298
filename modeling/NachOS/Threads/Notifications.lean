import NachOS.Threads.Execution

/-!
# A semaphore on which a device notifies a thread

A device driver makes a semaphore with value `0`. The handler of the device's interrupt does a `V`
on it, and one thread does a `P` for each notification that it needs. The units that have been given
and those that the thread has asked for account for the value, whatever the other threads do.
-/

namespace NachOS
namespace Kernel

/-- The thread, alone, has called `P` on the semaphore so many times, and only devices call `V`,
which they have done so many times. -/
structure Notified (n t calls units : ℕ) (k : Kernel) : Prop where
  created : k.created t = true
  tests : testsLeft (.user n) (k.code t) ≤ 1
  others : ∀ u ≠ t, testsLeft (.user n) (k.code u) = 0
  quiet : ∀ u, .v (.user n) ∉ k.code u
  value : (k.semaphore (.user n)).value + calls = units + testsLeft (.user n) (k.code t)
  nonneg : 0 ≤ (k.semaphore (.user n)).value

section

variable {n t calls units : ℕ} {k k' : Kernel} {e : Event}

/-- The tests that are left do not change, or the thread takes a unit by one. -/
theorem Notified.testsLeft (hn : Notified n t calls units k) (hplaced : Placed k)
    (h : k.step e = .ok k') (hp : ∀ c, e = .call c → c ≠ .p n) :
    (TakesUnit (.user n) k e ∧
      Kernel.testsLeft (.user n) (k.code t) = Kernel.testsLeft (.user n) (k'.code t) + 1) ∨
    (¬ TakesUnit (.user n) k e ∧
      Kernel.testsLeft (.user n) (k'.code t) = Kernel.testsLeft (.user n) (k.code t)) := by
  have htakes : TakesUnit (.user n) k e → t = k.currentThread := by
    intro htakes
    by_contra hne
    exact htakes.testsLeft_ne_zero (hn.others _ (Ne.symm hne))
  by_cases hsilent : Silent t k e
  · rcases step_testsLeft hplaced h hn.created hsilent with ⟨-, htaken, hless⟩ | ⟨hnot, hsame⟩
    · exact .inl ⟨htaken, hless⟩
    · exact .inr ⟨fun htaken => hnot ⟨htakes htaken, htaken⟩, hsame⟩
  · -- the thread calls a routine, so it is in none
    obtain ⟨hcur, c, rfl⟩ : k.currentThread = t ∧ ∃ c, e = .call c := by
      simpa [Silent] using hsilent
    have hzero : Kernel.testsLeft (.user n) (k.code t) = 0 := by
      rw [← hcur, (call_called hplaced.current h).outside]
      rfl
    refine .inr ⟨fun htaken => not_tests (by simp) _ htaken.1, ?_⟩
    rw [hzero]
    exact step_testsLeft_zero hplaced h hp hzero

/-- A step in which nobody calls a routine of the semaphore. -/
theorem Notified.step (hn : Notified n t calls units k) (hplaced : Placed k)
    (h : k.step e = .ok k') (hp : ∀ c, e = .call c → c ≠ .p n)
    (hv : ∀ c, e = .call c → c ≠ .v n) : Notified n t calls (units + e.deviceV n) k' := by
  have hvalue := step_value h fun hexec => hn.quiet _ hexec.mem
  have htests := hn.testsLeft hplaced h hp
  have hold := hn.value
  have hnonneg := hn.nonneg
  have hone := hn.tests
  have hothers : ∀ u ≠ t, Kernel.testsLeft (.user n) (k'.code u) = 0 := fun u hu =>
    step_testsLeft_zero hplaced h hp (hn.others u hu)
  have hquiet := step_quiet hplaced h hv hn.quiet
  rcases htests with ⟨htakes, hless⟩ | ⟨hnot, hsame⟩
  · rcases hvalue with ⟨-, hnone, hvalue⟩ | ⟨hnot, -⟩
    · have hne := htakes.2
      exact ⟨step_created hplaced hn.created h, by omega, hothers, hquiet, by omega, by omega⟩
    · exact absurd htakes hnot
  · rcases hvalue with ⟨htakes, -⟩ | ⟨-, hvalue⟩
    · exact absurd htakes hnot
    · exact ⟨step_created hplaced hn.created h, by omega, hothers, hquiet, by omega, by omega⟩

/-- The thread calls `P`. -/
theorem Notified.call (hn : Notified n t calls units k) (hplaced : Placed k)
    (ht : k.currentThread = t) (h : k.step (.call (.p n)) = .ok k') :
    Notified n t (calls + 1) units k' := by
  have hcalled := call_called hplaced.current h
  have hold : Kernel.testsLeft (.user n) (k.code t) = 0 := by
    rw [← ht, hcalled.outside]
    rfl
  have hnew : Kernel.testsLeft (.user n) (k'.code t) = 1 := by
    rw [← ht, hcalled.code]
    simp [Call.routine, semaphoreP, Kernel.testsLeft]
  have hsem : k'.semaphore = k.semaphore := by rw [hcalled.frame]
  have hvalue := hn.value
  refine ⟨step_created hplaced hn.created h, by omega, fun u hu => ?_, ?_, ?_, ?_⟩
  · rw [← ht] at hu
    exact hcalled.testsLeft_zero hu (hn.others u (ht ▸ hu))
  · refine step_quiet hplaced h (fun c hc => ?_) hn.quiet
    rw [← Event.call.inj hc]
    simp
  · rw [hsem]
    omega
  · rw [hsem]
    exact hn.nonneg

/-- Once the thread is back from `P`, it has got a unit for each of its calls. -/
theorem Notified.calls_le (hn : Notified n t calls units k) (hcode : k.code t = []) :
    calls ≤ units := by
  have hvalue := hn.value
  have hnonneg := hn.nonneg
  have hzero : Kernel.testsLeft (.user n) (k.code t) = 0 := by
    rw [hcode]
    rfl
  omega

/-- At the start nobody has used the semaphore. -/
theorem Booted.notified (hboot : Booted k) (hvalue : (k.semaphore (.user n)).value = 0) :
    Notified n k.currentThread 0 0 k := by
  have hzero : ∀ u, Kernel.testsLeft (.user n) (k.code u) = 0 := fun u => by
    rw [hboot.code]
    rfl
  refine ⟨hboot.placed.current, ?_, fun u _ => hzero u, fun u => ?_, ?_, Int.le_of_eq hvalue.symm⟩
  · rw [hzero]
    exact Nat.zero_le 1
  · rw [hboot.code]
    simp
  · rw [hzero, hvalue]
    rfl

end

end Kernel
end NachOS
