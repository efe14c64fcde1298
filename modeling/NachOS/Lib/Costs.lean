import NachOS.Lib.Run
import Mathlib.Data.Nat.Notation

/-!
# What a run costs

The steps of a run cost something, and something is charged for them. If each step costs no more
than is charged for it, up to what it takes away from a potential, then a run costs no more than is
charged for all of it and the potential it starts with.
-/

namespace PartialRun

variable {σ α ε : Type} {step : σ → α → Except ε σ}

/-- The sum of the costs of the steps of a run, up to the first failure. -/
def totalCost (step : σ → α → Except ε σ) (cost : σ → α → ℕ) : σ → List α → ℕ
  | _, [] => 0
  | s, a :: as => cost s a + match step s a with
    | .error _ => 0
    | .ok s' => totalCost step cost s' as

theorem totalCost_cons {s s' : σ} {a : α} (cost : σ → α → ℕ) (as : List α) (h : step s a = .ok s') :
    totalCost step cost s (a :: as) = cost s a + totalCost step cost s' as := by
  rw [totalCost, h]

/-- What each step takes from the potential pays for the run. -/
theorem Along.amortised {I : σ → Prop} {good : σ → α → Prop} {potential : σ → ℕ}
    {cost charge : σ → α → ℕ}
    (hstep : ∀ s a s', I s → good s a → step s a = .ok s' →
      I s' ∧ potential s' + cost s a ≤ potential s + charge s a) :
    ∀ {as : List α} {s s' : σ}, I s → Along step good s as → run step s as = .ok s' →
      potential s' + totalCost step cost s as ≤ potential s + totalCost step charge s as := by
  intro as
  induction as with
  | nil =>
    intro s s' _ _ hrun
    cases hrun
    exact Nat.le_refl _
  | cons a as ih =>
    intro s s' hI hgood hrun
    obtain ⟨s₁, hst, hrun⟩ := run_cons_eq_ok.mp hrun
    obtain ⟨hI₁, hpays⟩ := hstep s a s₁ hI hgood.1 hst
    have hrest := ih hI₁ (hgood.2 s₁ hst) hrun
    rw [totalCost_cons cost as hst, totalCost_cons charge as hst]
    calc potential s' + (cost s a + totalCost step cost s₁ as)
        = potential s' + totalCost step cost s₁ as + cost s a := by
          rw [Nat.add_comm (cost s a), Nat.add_assoc]
      _ ≤ potential s₁ + totalCost step charge s₁ as + cost s a := Nat.add_le_add_right hrest _
      _ = potential s₁ + cost s a + totalCost step charge s₁ as := Nat.add_right_comm _ _ _
      _ ≤ potential s + charge s a + totalCost step charge s₁ as := Nat.add_le_add_right hpays _
      _ = potential s + (charge s a + totalCost step charge s₁ as) := Nat.add_assoc _ _ _

/-- If some steps cost one and the others nothing, a run costs as much as it has such steps. -/
theorem totalCost_count (p : α → Bool) {as : List α} : ∀ {s s' : σ}, run step s as = .ok s' →
    totalCost step (fun _ a => if p a then 1 else 0) s as = as.countP p := by
  induction as with
  | nil => exact fun _ => rfl
  | cons a as ih =>
    intro s s' hrun
    obtain ⟨s₁, hst, hrun⟩ := run_cons_eq_ok.mp hrun
    rw [totalCost_cons _ as hst, ih hrun, List.countP_cons, Nat.add_comm]

end PartialRun
