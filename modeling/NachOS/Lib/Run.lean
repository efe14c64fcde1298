import Mathlib.Logic.Basic

/-!
# Runs of a fallible step function

A system is a step function `σ → α → Except ε σ`: a state and an input give either the
next state or a failure, after which nothing more happens. This file has the run of such a
function over a list of inputs, the predicate `Along` saying that every step of a run is
taken from a state that meets a condition, and the rules every development on top of it
needs: an invariant of one step is an invariant of every run, a step that cannot fail gives a
run that cannot fail, a simulation of one step is a simulation of every run, what the first
step of a kind turns a state into is reached by every run that has one, and a flag tells which
steps come between two others.
-/

namespace PartialRun

variable {σ τ α ε : Type}

/-! ## Sequencing -/

/-- A sequence of two fallible computations succeeds when both do. -/
theorem bind_ok_iff {β : Type} {x : Except ε σ} {f : σ → Except ε β} {b : β} :
    (x >>= f) = .ok b ↔ ∃ a, x = .ok a ∧ f a = .ok b := by
  cases x with
  | error e => simp [bind, Except.bind]
  | ok a => simp [bind, Except.bind]

/-- A sequence fails when its first part does, or its second on the result of the first. -/
theorem bind_error_iff {β : Type} {x : Except ε σ} {f : σ → Except ε β} {e : ε} :
    (x >>= f) = .error e ↔ x = .error e ∨ ∃ a, x = .ok a ∧ f a = .error e := by
  cases x with
  | error e => simp [bind, Except.bind]
  | ok a => simp [bind, Except.bind]

@[simp] theorem ok_bind {β : Type} (a : σ) (f : σ → Except ε β) :
    (Except.ok a >>= f) = f a := rfl

@[simp] theorem error_bind {β : Type} (e : ε) (f : σ → Except ε β) :
    (Except.error e >>= f) = .error e := rfl

theorem pure_ok_iff {a b : σ} : (pure a : Except ε σ) = .ok b ↔ a = b := by
  simp [pure, Except.pure]

/-- The computation does not fail with `e`. -/
def Avoids (e : ε) (x : Except ε σ) : Prop := x ≠ .error e

theorem Avoids.ok (e : ε) (a : σ) : Avoids e (.ok a : Except ε σ) := by
  intro h
  cases h

theorem Avoids.pure (e : ε) (a : σ) : Avoids e (pure a : Except ε σ) := .ok e a

theorem Avoids.error {e e' : ε} (h : e' ≠ e) : Avoids e (.error e' : Except ε σ) := by
  intro heq
  cases heq
  exact h rfl

theorem Avoids.bind {β : Type} {e : ε} {x : Except ε σ} {f : σ → Except ε β} (hx : Avoids e x)
    (hf : ∀ a, x = .ok a → Avoids e (f a)) : Avoids e (x >>= f) := by
  intro h
  rcases bind_error_iff.mp h with h | ⟨a, ha, h⟩
  · exact hx h
  · exact hf a ha h

/-- Two computations fail alike or have the same result, up to a relation on results. -/
def AgreeUpTo (R : σ → σ → Prop) (x y : Except ε σ) : Prop :=
  x = y ∨ ∃ a b, x = .ok a ∧ y = .ok b ∧ R a b

theorem AgreeUpTo.refl {R : σ → σ → Prop} (x : Except ε σ) : AgreeUpTo R x x := .inl rfl

theorem AgreeUpTo.ok {R : σ → σ → Prop} {a b : σ} (h : R a b) :
    AgreeUpTo R (.ok a : Except ε σ) (.ok b) := .inr ⟨a, b, rfl, rfl, h⟩

theorem AgreeUpTo.bind {β : Type} {R : σ → σ → Prop} {S : β → β → Prop} {x y : Except ε σ}
    {f g : σ → Except ε β} (h : AgreeUpTo R x y) (hsame : ∀ a, AgreeUpTo S (f a) (g a))
    (hrel : ∀ a b, R a b → AgreeUpTo S (f a) (g b)) : AgreeUpTo S (x >>= f) (y >>= g) := by
  rcases h with rfl | ⟨a, b, rfl, rfl, hR⟩
  · cases x with
    | error e => exact .refl _
    | ok a => exact hsame a
  · exact hrel a b hR

theorem AgreeUpTo.bind_same {β : Type} {S : β → β → Prop} (x : Except ε σ)
    {f g : σ → Except ε β} (h : ∀ a, AgreeUpTo S (f a) (g a)) :
    AgreeUpTo S (x >>= f) (x >>= g) := by
  cases x with
  | error e => exact .refl _
  | ok a => exact h a

/-- Two computations fail alike or have related results. -/
inductive Matches (R : σ → τ → Prop) : Except ε σ → Except ε τ → Prop where
  | error (e : ε) : Matches R (.error e) (.error e)
  | ok {a : σ} {b : τ} (h : R a b) : Matches R (.ok a) (.ok b)

theorem Matches.bind {β γ : Type} {R : σ → τ → Prop} {S : β → γ → Prop} {x : Except ε σ}
    {y : Except ε τ} {f : σ → Except ε β} {g : τ → Except ε γ} (h : Matches R x y)
    (hrel : ∀ a b, R a b → Matches S (f a) (g b)) : Matches S (x >>= f) (y >>= g) := by
  cases h with
  | error e => exact .error e
  | ok hR => exact hrel _ _ hR

theorem Matches.same {β γ : Type} {S : β → γ → Prop} (x : Except ε σ) {f : σ → Except ε β}
    {g : σ → Except ε γ} (h : ∀ a, Matches S (f a) (g a)) : Matches S (x >>= f) (x >>= g) := by
  cases x with
  | error e => exact .error e
  | ok a => exact h a

/-- What is related are the results. -/
theorem Matches.results {R : σ → τ → Prop} {x : Except ε σ} {y : Except ε τ} (h : Matches R x y) :
    Matches (fun a b => R a b ∧ x = .ok a ∧ y = .ok b) x y := by
  cases h with
  | error e => exact .error e
  | ok hR => exact .ok ⟨hR, rfl, rfl⟩

/-- If the second succeeds so does the first. -/
theorem Matches.exists_ok {R : σ → τ → Prop} {x : Except ε σ} {b : τ}
    (h : Matches R x (.ok b : Except ε τ)) : ∃ a, x = .ok a ∧ R a b := by
  cases h with
  | ok hR => exact ⟨_, rfl, hR⟩

/-- What a computation on concrete inputs results in can be checked. -/
instance decidableExistsOk {p : σ → Prop} [DecidablePred p] :
    (x : Except ε σ) → Decidable (∃ a, x = .ok a ∧ p a)
  | .error _ => isFalse fun ⟨_, h, _⟩ => nomatch h
  | .ok a => decidable_of_iff (p a) ⟨fun h => ⟨a, rfl, h⟩, fun ⟨_, h, hp⟩ => by cases h; exact hp⟩

/-! ## Runs -/

/-- Feed the inputs to the step function one by one, up to the first failure. -/
def run (step : σ → α → Except ε σ) : σ → List α → Except ε σ
  | s, [] => .ok s
  | s, a :: as => step s a >>= fun s' => run step s' as

/-- Every step of the run from `s` over the inputs starts in a state meeting `cond`. -/
def Along (step : σ → α → Except ε σ) (cond : σ → α → Prop) : σ → List α → Prop
  | _, [] => True
  | s, a :: as => cond s a ∧ ∀ s', step s a = .ok s' → Along step cond s' as

variable {step : σ → α → Except ε σ} {cond : σ → α → Prop}

@[simp] theorem run_nil (s : σ) : run step s [] = .ok s := rfl

theorem run_cons (s : σ) (a : α) (as : List α) :
    run step s (a :: as) = step s a >>= fun s' => run step s' as := rfl

theorem run_cons_eq_ok {s s' : σ} {a : α} {as : List α} :
    run step s (a :: as) = .ok s' ↔ ∃ t, step s a = .ok t ∧ run step t as = .ok s' :=
  bind_ok_iff

/-- Steps that match give runs that match. -/
theorem Matches.run {R : σ → τ → Prop} {step' : τ → α → Except ε τ}
    (hstep : ∀ s t a, R s t → Matches R (step s a) (step' t a)) :
    ∀ {as : List α} {s : σ} {t : τ}, R s t →
      Matches R (PartialRun.run step s as) (PartialRun.run step' t as) := by
  intro as
  induction as with
  | nil => exact fun h => .ok h
  | cons a as ih => exact fun h => (hstep _ _ a h).bind fun _ _ h' => ih h'

/-- A run over two lists is a run over the first, then one over the second. -/
theorem run_append_eq_ok {as bs : List α} {s s' : σ} :
    run step s (as ++ bs) = .ok s' ↔ ∃ t, run step s as = .ok t ∧ run step t bs = .ok s' := by
  induction as generalizing s with
  | nil => simp
  | cons a as ih =>
    rw [List.cons_append, run_cons_eq_ok]
    constructor
    · rintro ⟨r, hst, hrun⟩
      obtain ⟨t, hrun, hrest⟩ := ih.mp hrun
      exact ⟨t, run_cons_eq_ok.mpr ⟨r, hst, hrun⟩, hrest⟩
    · rintro ⟨t, hrun, hrest⟩
      obtain ⟨r, hst, hrun⟩ := run_cons_eq_ok.mp hrun
      exact ⟨r, hst, ih.mpr ⟨t, hrun, hrest⟩⟩

/-- A run on concrete inputs can be checked step by step. -/
instance Along.decide [∀ s a, Decidable (cond s a)] :
    (s : σ) → (as : List α) → Decidable (Along step cond s as)
  | _, [] => isTrue trivial
  | s, a :: as =>
    match hst : step s a with
    | .error _ => decidable_of_iff (cond s a) (by simp [Along, hst])
    | .ok t =>
      have := Along.decide t as
      decidable_of_iff (cond s a ∧ Along step cond t as) (by simp [Along, hst])

theorem Along.of_forall {p : α → Prop} :
    ∀ {as : List α} {s : σ}, (∀ a ∈ as, p a) → Along step (fun _ a => p a) s as := by
  intro as
  induction as with
  | nil => exact fun _ => trivial
  | cons a as ih =>
    intro s h
    exact ⟨h a List.mem_cons_self, fun t _ => ih fun b hb => h b (List.mem_cons_of_mem a hb)⟩

theorem Along.imp {cond' : σ → α → Prop} (himp : ∀ s a, cond s a → cond' s a) :
    ∀ {as : List α} {s : σ}, Along step cond s as → Along step cond' s as := by
  intro as
  induction as with
  | nil => exact fun _ => trivial
  | cons a as ih =>
    intro s h
    exact ⟨himp s a h.1, fun t hst => ih (h.2 t hst)⟩

theorem Along.and {cond' : σ → α → Prop} :
    ∀ {as : List α} {s : σ}, Along step cond s as → Along step cond' s as →
      Along step (fun s a => cond s a ∧ cond' s a) s as := by
  intro as
  induction as with
  | nil => exact fun _ _ => trivial
  | cons a as ih =>
    intro s h h'
    exact ⟨⟨h.1, h'.1⟩, fun t hst => ih (h.2 t hst) (h'.2 t hst)⟩

/-- The last step of a run. -/
theorem Along.last :
    ∀ {as : List α} {a : α} {s s' : σ}, Along step cond s (as ++ [a]) →
      run step s as = .ok s' → Along step cond s as ∧ cond s' a := by
  intro as a
  induction as with
  | nil =>
    intro s s' halong hrun
    rw [run_nil, Except.ok.injEq] at hrun
    exact ⟨trivial, hrun ▸ halong.1⟩
  | cons b as ih =>
    intro s s' halong hrun
    obtain ⟨t, hst, hrun⟩ := run_cons_eq_ok.mp hrun
    obtain ⟨hinit, hlast⟩ := ih (halong.2 t hst) hrun
    refine ⟨⟨halong.1, fun t' hst' => ?_⟩, hlast⟩
    rw [hst, Except.ok.injEq] at hst'
    exact hst' ▸ hinit

/-- A property kept by every step that starts in a state meeting `cond` is kept by every
run all of whose steps do. -/
theorem Along.invariant {I : σ → Prop}
    (hstep : ∀ s a s', I s → cond s a → step s a = .ok s' → I s') :
    ∀ {as : List α} {s s' : σ}, I s → Along step cond s as → run step s as = .ok s' →
      I s' := by
  intro as
  induction as with
  | nil =>
    intro s s' hinv _ hrun
    rw [run_nil, Except.ok.injEq] at hrun
    exact hrun ▸ hinv
  | cons a as ih =>
    intro s s' hinv halong hrun
    obtain ⟨t, hst, hrun⟩ := run_cons_eq_ok.mp hrun
    exact ih (hstep s a t hinv halong.1 hst) (halong.2 t hst) hrun

/-- A property kept by every step is kept by every run. -/
theorem run_invariant {I : σ → Prop} (hstep : ∀ s a s', I s → step s a = .ok s' → I s')
    {as : List α} {s s' : σ} (hinit : I s) (hrun : run step s as = .ok s') : I s' :=
  Along.invariant (fun s a s' hI (_ : True) hst => hstep s a s' hI hst) hinit
    (Along.of_forall fun _ _ => trivial) hrun

/-- A property of the state and of the inputs so far, kept by every step. -/
theorem run_inputs_invariant {I : List α → σ → Prop}
    (hstep : ∀ done a s s', I done s → step s a = .ok s' → I (done ++ [a]) s') :
    ∀ {as done : List α} {s s' : σ}, I done s → run step s as = .ok s' → I (done ++ as) s' := by
  intro as
  induction as with
  | nil =>
    intro done s s' hinv hrun
    rw [run_nil, Except.ok.injEq] at hrun
    rw [List.append_nil]
    exact hrun ▸ hinv
  | cons a as ih =>
    intro done s s' hinv hrun
    obtain ⟨t, hst, hrun⟩ := run_cons_eq_ok.mp hrun
    have := ih (hstep done a s t hinv hst) hrun
    rwa [List.append_assoc, List.singleton_append] at this

/-- If a step from a good state meeting `cond` succeeds in a good state, then a run all of
whose steps meet `cond` does. -/
theorem Along.total {I : σ → Prop}
    (hstep : ∀ s a, I s → cond s a → ∃ s', step s a = .ok s' ∧ I s') :
    ∀ {as : List α} {s : σ}, I s → Along step cond s as →
      ∃ s', run step s as = .ok s' ∧ I s' := by
  intro as
  induction as with
  | nil => exact fun hinv _ => ⟨_, rfl, hinv⟩
  | cons a as ih =>
    intro s hinv halong
    obtain ⟨t, hst, ht⟩ := hstep s a hinv halong.1
    obtain ⟨s', hrun, hs'⟩ := ih ht (halong.2 t hst)
    exact ⟨s', run_cons_eq_ok.mpr ⟨t, hst, hrun⟩, hs'⟩

/-- A condition that says of every step from a good state whether it goes well says it of
every run. -/
theorem Along.iff {I : σ → Prop} {good : σ → α → Prop}
    (hkeep : ∀ s a s', I s → cond s a → step s a = .ok s' → I s')
    (hiff : ∀ s a, I s → (good s a ↔ cond s a)) :
    ∀ {as : List α} {s : σ}, I s → (Along step good s as ↔ Along step cond s as) := by
  intro as
  induction as with
  | nil => exact fun _ => Iff.rfl
  | cons a as ih =>
    intro s hinv
    have hstep := hiff s a hinv
    constructor
    · intro h
      have hcond := hstep.mp h.1
      exact ⟨hcond, fun t hst => (ih (hkeep s a t hinv hcond hst)).mp (h.2 t hst)⟩
    · intro h
      exact ⟨hstep.mpr h.1, fun t hst => (ih (hkeep s a t hinv h.1 hst)).mpr (h.2 t hst)⟩

/-- The same for the runs that do not fail. -/
theorem Along.iff_of_run {I : σ → Prop} {good : σ → α → Prop}
    (hkeep : ∀ s a s', I s → cond s a → step s a = .ok s' → I s')
    (hiff : ∀ s a s', I s → step s a = .ok s' → (good s a ↔ cond s a)) :
    ∀ {as : List α} {s s' : σ}, I s → run step s as = .ok s' →
      (Along step good s as ↔ Along step cond s as) := by
  intro as
  induction as with
  | nil => exact fun _ _ => Iff.rfl
  | cons a as ih =>
    intro s s' hinv hrun
    obtain ⟨t, hst, hrun⟩ := run_cons_eq_ok.mp hrun
    have hstep := hiff s a t hinv hst
    have honly : ∀ t', step s a = .ok t' → t' = t := by
      intro t' hst'
      rw [hst, Except.ok.injEq] at hst'
      exact hst'.symm
    constructor
    · intro h
      have hcond := hstep.mp h.1
      refine ⟨hcond, fun t' hst' => ?_⟩
      have hrest := h.2 t' hst'
      rw [honly t' hst'] at hrest ⊢
      exact (ih (hkeep s a t hinv hcond hst) hrun).mp hrest
    · intro h
      refine ⟨hstep.mpr h.1, fun t' hst' => ?_⟩
      have hrest := h.2 t' hst'
      rw [honly t' hst'] at hrest ⊢
      exact (ih (hkeep s a t hinv h.1 hst) hrun).mpr hrest

/-! ## What happens at some point -/

/-- Some step of the run from `s` over the inputs is a `p`. -/
def Sometime (step : σ → α → Except ε σ) (p : σ → α → Prop) : σ → List α → Prop
  | _, [] => False
  | s, a :: as => p s a ∨ ∃ s', step s a = .ok s' ∧ Sometime step p s' as

instance Sometime.decide {p : σ → α → Prop} [∀ s a, Decidable (p s a)] :
    (s : σ) → (as : List α) → Decidable (Sometime step p s as)
  | _, [] => isFalse id
  | s, a :: as =>
    match hst : step s a with
    | .error _ => decidable_of_iff (p s a) (by simp [Sometime, hst])
    | .ok t =>
      have : Decidable (Sometime step p t as) := Sometime.decide t as
      decidable_of_iff (p s a ∨ Sometime step p t as) (by simp [Sometime, hst])

/-- A property that every step keeps which meets `cond` and is not a `p`, and that the first `p`
turns into another: the other one holds in a state of every run that has a `p`. -/
theorem Sometime.reaches {p : σ → α → Prop} {I J : σ → Prop}
    (hkeep : ∀ s a s', I s → cond s a → ¬ p s a → step s a = .ok s' → I s')
    (hturn : ∀ s a s', I s → cond s a → p s a → step s a = .ok s' → J s') :
    ∀ {as : List α} {s s' : σ}, I s → Along step cond s as → Sometime step p s as →
      run step s as = .ok s' →
      ∃ as₁ as₂ t, as = as₁ ++ as₂ ∧ run step s as₁ = .ok t ∧ J t := by
  intro as
  induction as with
  | nil => exact fun _ _ h _ => absurd h id
  | cons a as ih =>
    intro s s' hI halong hsome hrun
    obtain ⟨t, hst, hrun⟩ := run_cons_eq_ok.mp hrun
    by_cases hp : p s a
    · exact ⟨[a], as, t, rfl, run_cons_eq_ok.mpr ⟨t, hst, rfl⟩, hturn s a t hI halong.1 hp hst⟩
    · have hrest : Sometime step p t as := by
        rcases hsome with hnow | ⟨t', hst', hlater⟩
        · exact absurd hnow hp
        · rw [hst, Except.ok.injEq] at hst'
          exact hst' ▸ hlater
      obtain ⟨as₁, as₂, r, rfl, hrun₁, hJ⟩ :=
        ih (hkeep s a t hI halong.1 hp hst) (halong.2 t hst) hrest hrun
      exact ⟨a :: as₁, as₂, r, rfl, run_cons_eq_ok.mpr ⟨t, hst, hrun₁⟩, hJ⟩

/-! ## What comes between two steps -/

/-- The run has no `p` before its first `q`. -/
def Awaits (step : σ → α → Except ε σ) (p q : σ → α → Prop) : σ → List α → Prop
  | _, [] => True
  | s, a :: as => ¬ p s a ∧ (q s a ∨ ∀ s', step s a = .ok s' → Awaits step p q s' as)

/-- Between any two steps of the run that are a `p` there is one that is a `q`. -/
def Separated (step : σ → α → Except ε σ) (p q : σ → α → Prop) : σ → List α → Prop
  | _, [] => True
  | s, a :: as => ∀ s', step s a = .ok s' →
    (p s a → Awaits step p q s' as) ∧ Separated step p q s' as

section Between

variable {p q : σ → α → Prop}

instance Awaits.decide [∀ s a, Decidable (p s a)] [∀ s a, Decidable (q s a)] :
    (s : σ) → (as : List α) → Decidable (Awaits step p q s as)
  | _, [] => isTrue trivial
  | s, a :: as =>
    match hst : step s a with
    | .error _ => decidable_of_iff (¬ p s a) (by simp [Awaits, hst])
    | .ok t =>
      have := Awaits.decide t as
      decidable_of_iff (¬ p s a ∧ (q s a ∨ Awaits step p q t as)) (by simp [Awaits, hst])

instance Separated.decide [∀ s a, Decidable (p s a)] [∀ s a, Decidable (q s a)] :
    (s : σ) → (as : List α) → Decidable (Separated step p q s as)
  | _, [] => isTrue trivial
  | s, a :: as =>
    match hst : step s a with
    | .error _ => isTrue (by simp [Separated, hst])
    | .ok t =>
      have := Separated.decide t as
      decidable_of_iff ((p s a → Awaits step p q t as) ∧ Separated step p q t as)
        (by simp [Separated, hst])

/-- A flag that every `p` sets, every `q` clears and no other step touches: it is never set
when a `p` comes exactly if there is a `q` between any two of them, and before the first if it
is set from the start. -/
theorem along_not_iff_separated {I : σ → Prop} (flag : σ → Prop)
    (hkeep : ∀ s a s', I s → step s a = .ok s' → I s')
    (hset : ∀ s a s', I s → p s a → step s a = .ok s' → flag s')
    (hclear : ∀ s a s', I s → ¬ p s a → q s a → step s a = .ok s' → ¬ flag s')
    (hother : ∀ s a s', I s → ¬ p s a → ¬ q s a → step s a = .ok s' → (flag s' ↔ flag s)) :
    ∀ {as : List α} {s s' : σ}, I s → run step s as = .ok s' →
      (Along step (fun s a => p s a → ¬ flag s) s as ↔
        (flag s → Awaits step p q s as) ∧ Separated step p q s as) := by
  intro as
  induction as with
  | nil => exact fun _ _ => ⟨fun _ => ⟨fun _ => trivial, trivial⟩, fun _ => trivial⟩
  | cons a as ih =>
    intro s s' hinv hrun
    obtain ⟨t, hst, hrun⟩ := run_cons_eq_ok.mp hrun
    have hrest := ih (hkeep s a t hinv hst) hrun
    simp only [Along, Awaits, Separated, hst, Except.ok.injEq, forall_eq', hrest]
    by_cases hp : p s a
    · have hflag := hset s a t hinv hp hst
      simp only [hp, hflag, not_true_eq_false, false_and, imp_false, true_implies]
    · by_cases hq : q s a
      · have hflag := hclear s a t hinv hp hq hst
        simp only [hp, hq, hflag, not_false_eq_true, true_or, and_true, implies_true,
          false_implies, true_and]
      · have hflag := hother s a t hinv hp hq hst
        simp only [hp, hq, hflag, not_false_eq_true, false_or, true_and, false_implies]

end Between

/-! ## Outputs -/

section Outputs

variable {β : Type}

/-- What a step function with outputs answers to the inputs, up to the first failure. -/
def outputs (step : σ → α → Except ε (β × σ)) : σ → List α → Except ε (List β)
  | _, [] => .ok []
  | s, a :: as => do
    let (b, s') ← step s a
    let bs ← outputs step s' as
    return b :: bs

/-- The same for a step function that does not fail. -/
def answers (step : τ → α → β × τ) : τ → List α → List β
  | _, [] => []
  | t, a :: as => (step t a).1 :: answers step (step t a).2 as

/-- If related states answer a step that meets `cond` alike and stay related, then a run all
of whose steps meet `cond` is answered alike, and does not fail. -/
theorem Along.simulation {R : σ → τ → Prop} {impl : σ → α → Except ε (β × σ)}
    {spec : τ → α → β × τ}
    (hproj : ∀ s a b s', impl s a = .ok (b, s') → step s a = .ok s')
    (hsim : ∀ s t a, R s t → cond s a →
      ∃ s', impl s a = .ok ((spec t a).1, s') ∧ R s' (spec t a).2) :
    ∀ {as : List α} {s : σ} {t : τ}, R s t → Along step cond s as →
      outputs impl s as = .ok (answers spec t as) := by
  intro as
  induction as with
  | nil => exact fun _ _ => rfl
  | cons a as ih =>
    intro s t hR halong
    obtain ⟨s', himpl, hR'⟩ := hsim s t a hR halong.1
    have htail := ih hR' (halong.2 s' (hproj s a _ s' himpl))
    rw [outputs, himpl, ok_bind]
    dsimp only
    rw [htail]
    rfl

/-- If related states answer a step that meets `cond`, and whose answer is a good one, alike and
stay related, then a run with good answers, all of whose steps meet `cond`, is answered alike. -/
theorem Along.answered {R : σ → τ → Prop} {good : β → Prop} {impl : σ → α → Except ε (β × σ)}
    {spec : τ → α → β × τ}
    (hproj : ∀ s a b s', impl s a = .ok (b, s') → step s a = .ok s')
    (hsim : ∀ s t a b s', R s t → cond s a → impl s a = .ok (b, s') → good b →
      b = (spec t a).1 ∧ R s' (spec t a).2) :
    ∀ {as : List α} {bs : List β} {s : σ} {t : τ}, R s t → Along step cond s as →
      outputs impl s as = .ok bs → (∀ b ∈ bs, good b) → bs = answers spec t as := by
  intro as
  induction as with
  | nil =>
    intro bs s t _ _ h _
    exact (Except.ok.inj h).symm
  | cons a as ih =>
    intro bs s t hR halong h hgood
    obtain ⟨⟨b, s'⟩, himpl, h⟩ := bind_ok_iff.mp h
    obtain ⟨rest, htail, h⟩ := bind_ok_iff.mp h
    rw [pure_ok_iff] at h
    subst h
    obtain ⟨hb, hR'⟩ := hsim s t a b s' hR halong.1 himpl (hgood b List.mem_cons_self)
    have hrest := ih hR' (halong.2 s' (hproj s a b s' himpl)) htail
      fun c hc => hgood c (List.mem_cons_of_mem b hc)
    rw [answers, ← hb, ← hrest]

/-- If related states answer a step alike and stay related exactly if it meets `cond`, then a run
is answered alike exactly when all of its steps meet `cond`. -/
theorem outputs_eq_answers_iff {R : σ → τ → Prop} {impl : σ → α → Except ε (β × σ)}
    {spec : τ → α → β × τ}
    (hproj : ∀ s a s', step s a = .ok s' ↔ ∃ b, impl s a = .ok (b, s'))
    (hsim : ∀ s t a, R s t → cond s a →
      ∃ s', impl s a = .ok ((spec t a).1, s') ∧ R s' (spec t a).2)
    (hfail : ∀ s t a s', R s t → ¬ cond s a → impl s a ≠ .ok ((spec t a).1, s')) :
    ∀ {as : List α} {s : σ} {t : τ}, R s t →
      (outputs impl s as = .ok (answers spec t as) ↔ Along step cond s as) := by
  intro as
  induction as with
  | nil => exact fun _ => ⟨fun _ => trivial, fun _ => rfl⟩
  | cons a as ih =>
    intro s t hR
    constructor
    · intro h
      obtain ⟨⟨b, s'⟩, himpl, h⟩ := bind_ok_iff.mp h
      obtain ⟨bs, htail, h⟩ := bind_ok_iff.mp h
      obtain ⟨rfl, rfl⟩ := List.cons.inj (pure_ok_iff.mp h)
      have hcond : cond s a :=
        Classical.byContradiction fun hnot => hfail s t a s' hR hnot himpl
      refine ⟨hcond, fun s'' hst => ?_⟩
      obtain ⟨b', himpl'⟩ := (hproj s a s'').mp hst
      obtain ⟨s₁, himpl₁, hR₁⟩ := hsim s t a hR hcond
      rw [himpl] at himpl' himpl₁
      cases himpl'
      cases himpl₁
      exact (ih hR₁).mp htail
    · exact Along.simulation (fun s a b s' h => (hproj s a s').mpr ⟨b, h⟩) hsim hR

/-- The answers that a relation allows for the inputs, and the state at the end. -/
inductive Allows (spec : τ → α → β → τ → Prop) : τ → List α → List β → τ → Prop where
  | nil (t : τ) : Allows spec t [] [] t
  | cons {t t' t'' : τ} {a : α} {b : β} {as : List α} {bs : List β} (hstep : spec t a b t')
    (hrest : Allows spec t' as bs t'') : Allows spec t (a :: as) (b :: bs) t''

/-- If a step that meets `cond` succeeds from related states, with an answer that is allowed, and
they stay related, then so does a run all of whose steps meet `cond`. -/
theorem Along.allowed {R : σ → τ → Prop} {impl : σ → α → Except ε (β × σ)}
    {spec : τ → α → β → τ → Prop}
    (hproj : ∀ s a b s', impl s a = .ok (b, s') → step s a = .ok s')
    (hsim : ∀ s t a, R s t → cond s a →
      ∃ b s' t', impl s a = .ok (b, s') ∧ spec t a b t' ∧ R s' t') :
    ∀ {as : List α} {s : σ} {t : τ}, R s t → Along step cond s as →
      ∃ bs s' t', outputs impl s as = .ok bs ∧ run step s as = .ok s' ∧
        Allows spec t as bs t' ∧ R s' t' := by
  intro as
  induction as with
  | nil =>
    intro s t hR _
    exact ⟨[], s, t, rfl, rfl, .nil t, hR⟩
  | cons a as ih =>
    intro s t hR halong
    obtain ⟨b, s₁, t₁, himpl, hspec, hR₁⟩ := hsim s t a hR halong.1
    have hst := hproj s a b s₁ himpl
    obtain ⟨bs, s', t', houtputs, hrun, hallows, hR'⟩ := ih hR₁ (halong.2 s₁ hst)
    refine ⟨b :: bs, s', t', ?_, run_cons_eq_ok.mpr ⟨s₁, hst, hrun⟩, .cons hspec hallows, hR'⟩
    rw [outputs, himpl, ok_bind]
    dsimp only
    rw [houtputs]
    rfl

/-- What the steps of a run put out, up to the first failure. -/
def trace (step : σ → α → Except ε σ) (out : σ → α → List β) : σ → List α → List β
  | _, [] => []
  | s, a :: as => out s a ++ match step s a with
    | .error _ => []
    | .ok s' => trace step out s' as

/-- A queue that every step takes from at the front and adds to at the back: whatever comes
in goes out in the same order. -/
theorem trace_queue {q : σ → List β} {added taken : σ → α → List β}
    (hstep : ∀ s a s', step s a = .ok s' → q s ++ added s a = taken s a ++ q s') :
    ∀ {as : List α} {s s' : σ}, run step s as = .ok s' →
      q s ++ trace step added s as = trace step taken s as ++ q s' := by
  intro as
  induction as with
  | nil =>
    intro s s' hrun
    rw [run_nil, Except.ok.injEq] at hrun
    simp [trace, hrun]
  | cons a as ih =>
    intro s s' hrun
    obtain ⟨t, hst, hrun⟩ := run_cons_eq_ok.mp hrun
    simp only [trace, hst]
    rw [← List.append_assoc, hstep s a t hst, List.append_assoc, ih hrun, List.append_assoc]

end Outputs

end PartialRun
