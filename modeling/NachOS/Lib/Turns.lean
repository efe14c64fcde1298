import NachOS.Lib.Run
import Mathlib.Logic.Function.Basic

/-!
# Systems that take turns

Several copies of a system of which one is on at a time: an input is either for the one that is on
or says which one is to be on next. If nothing is shared, each of them does what it does alone with
the inputs of its own turns, whatever the order of the turns.
-/

namespace PartialRun

variable {ι σ α ε : Type} [DecidableEq ι] {step : σ → α → Except ε σ}

/-- An input for the system that is on, or a change of turns. -/
inductive Turn (ι α : Type) where
  | act (a : α)
  | pass (next : ι)
deriving DecidableEq, Repr

/-- The systems, and which one is on. -/
structure Turns (ι σ : Type) where
  systems : ι → σ
  current : ι

namespace Turns

/-- A step of the system that is on. -/
def turn (step : σ → α → Except ε σ) (f : Turns ι σ) : Turn ι α → Except ε (Turns ι σ)
  | .act a => do
    let s ← step (f.systems f.current) a
    return { f with systems := Function.update f.systems f.current s }
  | .pass next => .ok { f with current := next }

/-- An input is for the system that is on. -/
theorem turn_act_ok {f f' : Turns ι σ} {a : α} (h : f.turn step (.act a) = .ok f') :
    f'.current = f.current ∧ ∀ i ≠ f.current, f'.systems i = f.systems i := by
  obtain ⟨s, -, h⟩ := bind_ok_iff.mp h
  rw [← pure_ok_iff.mp h]
  exact ⟨rfl, fun i hi => Function.update_of_ne hi _ _⟩

/-- The inputs of the turns of a system, if `current` is on at first. -/
def own (i : ι) : ι → List (Turn ι α) → List α
  | _, [] => []
  | current, .act a :: ts => if current = i then a :: own i current ts else own i current ts
  | _, .pass next :: ts => own i next ts

/-- The systems do together what each of them does alone. -/
theorem run_of_alone {ts : List (Turn ι α)} : ∀ {f : Turns ι σ} {g : ι → σ},
    (∀ i, run step (f.systems i) (own i f.current ts) = .ok (g i)) →
      ∃ f', run (turn step) f ts = .ok f' ∧ f'.systems = g := by
  induction ts with
  | nil =>
    intro f g h
    refine ⟨f, rfl, ?_⟩
    funext i
    exact Except.ok.inj (h i)
  | cons t ts ih =>
    intro f g h
    cases t with
    | pass next => exact ih (f := { f with current := next }) h
    | act a =>
      have hcurrent := h f.current
      rw [own, if_pos rfl] at hcurrent
      obtain ⟨s, hstep, hrest⟩ := run_cons_eq_ok.mp hcurrent
      obtain ⟨f', hrun, hsystems⟩ := ih
        (f := { f with systems := Function.update f.systems f.current s }) (g := g) (by
          intro i
          by_cases hi : i = f.current
          · subst hi
            dsimp only
            rw [Function.update_self]
            exact hrest
          · have hother := h i
            rw [own, if_neg (Ne.symm hi)] at hother
            dsimp only
            rw [Function.update_of_ne hi]
            exact hother)
      refine ⟨f', run_cons_eq_ok.mpr ⟨_, ?_, hrun⟩, hsystems⟩
      rw [turn, hstep]
      rfl

end Turns
end PartialRun
