import Mathlib.Logic.Function.Basic
import Mathlib.Data.List.Nodup

/-!
# Things in lists

A family of lists, such as the queues of a scheduler, in which nothing occurs twice. Such a
family is changed one list at a time: this file says when it stays so.
-/

namespace Placement

variable {π τ : Type}

/-- Nothing is twice in one list or in two of them. -/
structure Apart (lists : π → List τ) : Prop where
  nodup : ∀ p, (lists p).Nodup
  unique : ∀ {p q : π} {t : τ}, t ∈ lists p → t ∈ lists q → p = q

/-- Being in one of the lists. -/
def Occurs (lists : π → List τ) (t : τ) : Prop := ∃ p, t ∈ lists p

variable [DecidableEq π] {lists : π → List τ} {p q : π} {t u : τ} {ts : List τ}

theorem mem_update {list : List τ} :
    t ∈ Function.update lists p list q ↔ (q = p ∧ t ∈ list) ∨ (q ≠ p ∧ t ∈ lists q) := by
  by_cases hq : q = p
  · rw [hq, Function.update_self]
    simp
  · rw [Function.update_of_ne hq]
    simp [hq]

/-- One of the lists changes, and what is in it now was in it or was nowhere. -/
theorem Apart.update (hapart : Apart lists) {list : List τ} (hnodup : list.Nodup)
    (hfrom : ∀ t ∈ list, t ∈ lists p ∨ ¬ Occurs lists t) :
    Apart (Function.update lists p list) := by
  have helse : ∀ {q : π} {t : τ}, t ∈ list → t ∈ lists q → q = p := by
    intro q t ht hq
    rcases hfrom t ht with hp | hnowhere
    · exact hapart.unique hq hp
    · exact absurd ⟨q, hq⟩ hnowhere
  constructor
  · intro q
    by_cases hq : q = p
    · rw [hq, Function.update_self]
      exact hnodup
    · rw [Function.update_of_ne hq]
      exact hapart.nodup q
  · intro q q' t hq hq'
    rw [mem_update] at hq hq'
    rcases hq with ⟨rfl, hq⟩ | ⟨hne, hq⟩
    · rcases hq' with ⟨rfl, -⟩ | ⟨-, hq'⟩
      · rfl
      · exact (helse hq hq').symm
    · rcases hq' with ⟨rfl, hq'⟩ | ⟨-, hq'⟩
      · exact helse hq' hq
      · exact hapart.unique hq hq'

/-- What is anywhere once one of the lists has changed. -/
theorem occurs_update {list : List τ} :
    Occurs (Function.update lists p list) t ↔ t ∈ list ∨ ∃ q, q ≠ p ∧ t ∈ lists q := by
  constructor
  · rintro ⟨q, hq⟩
    rcases mem_update.mp hq with ⟨-, hq⟩ | hq
    · exact .inl hq
    · exact .inr ⟨q, hq⟩
  · rintro (ht | ⟨q, hq⟩)
    · exact ⟨p, mem_update.mpr (.inl ⟨rfl, ht⟩)⟩
    · exact ⟨q, mem_update.mpr (.inr hq)⟩

/-- Where the list was empty, what occurs is what it gets and what occurred before. -/
theorem occurs_update_nil {list : List τ} (hp : lists p = []) :
    Occurs (Function.update lists p list) t ↔ t ∈ list ∨ Occurs lists t := by
  rw [occurs_update]
  refine or_congr_right ⟨fun h => ⟨h.choose, h.choose_spec.2⟩, ?_⟩
  rintro ⟨q, hq⟩
  refine ⟨q, ?_, hq⟩
  rintro rfl
  rw [hp] at hq
  cases hq

/-- Something that was nowhere goes to the back of a list. -/
theorem Apart.append (hapart : Apart lists) (hnew : ¬ Occurs lists t) :
    Apart (Function.update lists p (lists p ++ [t])) := by
  refine hapart.update ?_ fun u hu => ?_
  · refine List.Nodup.append (hapart.nodup p) (List.nodup_singleton t) ?_
    rw [List.disjoint_singleton]
    exact fun hp => hnew ⟨p, hp⟩
  · rcases List.mem_append.mp hu with hu | hu
    · exact .inl hu
    · rw [List.mem_singleton.mp hu]
      exact .inr hnew

/-- An item is added at the end of a list. -/
theorem occurs_append :
    Occurs (Function.update lists p (lists p ++ [t])) u ↔ u = t ∨ Occurs lists u := by
  constructor
  · rintro ⟨q, hq⟩
    rcases mem_update.mp hq with ⟨-, hq⟩ | ⟨-, hq⟩
    · rcases List.mem_append.mp hq with hq | hq
      · exact .inr ⟨p, hq⟩
      · exact .inl (List.mem_singleton.mp hq)
    · exact .inr ⟨q, hq⟩
  · rintro (rfl | ⟨q, hq⟩)
    · exact ⟨p, mem_update.mpr (.inl ⟨rfl, by simp⟩)⟩
    · refine ⟨q, mem_update.mpr ?_⟩
      by_cases hqp : q = p
      · exact .inl ⟨hqp, List.mem_append_left _ (hqp ▸ hq)⟩
      · exact .inr ⟨hqp, hq⟩

/-- The first of a list leaves it. -/
theorem Apart.tail (hapart : Apart lists) (hp : lists p = t :: ts) :
    Apart (Function.update lists p ts) := by
  have hnodup := hapart.nodup p
  rw [hp] at hnodup
  refine hapart.update hnodup.of_cons fun u hu => .inl ?_
  rw [hp]
  exact List.mem_cons_of_mem t hu

/-- It is then nowhere. -/
theorem Apart.not_occurs_tail (hapart : Apart lists) (hp : lists p = t :: ts) :
    ¬ Occurs (Function.update lists p ts) t := by
  have hnodup := hapart.nodup p
  rw [hp] at hnodup
  rintro ⟨q, hq⟩
  rcases mem_update.mp hq with ⟨-, hq⟩ | ⟨hne, hq⟩
  · exact (List.nodup_cons.mp hnodup).1 hq
  · exact hne (hapart.unique hq (by rw [hp]; exact List.mem_cons_self))

theorem occurs_of_tail (hp : lists p = t :: ts) (h : Occurs (Function.update lists p ts) u) :
    Occurs lists u := by
  obtain ⟨q, hq⟩ := h
  rcases mem_update.mp hq with ⟨-, hq⟩ | ⟨-, hq⟩
  · exact ⟨p, by rw [hp]; exact List.mem_cons_of_mem t hq⟩
  · exact ⟨q, hq⟩

/-- The first of a list goes to the back of another one. -/
theorem Apart.move (hapart : Apart lists) (hp : lists p = t :: ts) (hpq : q ≠ p) :
    Apart (Function.update (Function.update lists p ts) q (lists q ++ [t])) := by
  have h := (hapart.tail hp).append (p := q) (hapart.not_occurs_tail hp)
  rwa [Function.update_of_ne hpq] at h

theorem occurs_of_move (hp : lists p = t :: ts) (hpq : q ≠ p)
    (h : Occurs (Function.update (Function.update lists p ts) q (lists q ++ [t])) u) :
    Occurs lists u := by
  have heq : lists q = Function.update lists p ts q := (Function.update_of_ne hpq _ _).symm
  rw [heq, occurs_append] at h
  rcases h with rfl | h
  · exact ⟨p, by rw [hp]; exact List.mem_cons_self⟩
  · exact occurs_of_tail hp h

/-- The first of a list leaves it, and something that was nowhere goes to its back. -/
theorem Apart.rotate (hapart : Apart lists) (hp : lists p = t :: ts) (hnew : ¬ Occurs lists u) :
    Apart (Function.update lists p (ts ++ [u])) ∧
      ¬ Occurs (Function.update lists p (ts ++ [u])) t := by
  have hnew' : ¬ Occurs (Function.update lists p ts) u := fun h => hnew (occurs_of_tail hp h)
  have heq : Function.update lists p (ts ++ [u]) =
      Function.update (Function.update lists p ts) p (Function.update lists p ts p ++ [u]) := by
    rw [Function.update_self, Function.update_idem]
  rw [heq]
  refine ⟨(hapart.tail hp).append hnew', fun h => ?_⟩
  rcases occurs_append.mp h with htu | h
  · exact hnew ⟨p, by rw [hp, ← htu]; exact List.mem_cons_self⟩
  · exact hapart.not_occurs_tail hp h

theorem occurs_of_rotate {v : τ} (hp : lists p = t :: ts)
    (h : Occurs (Function.update lists p (ts ++ [u])) v) : v = u ∨ Occurs lists v := by
  obtain ⟨q, hq⟩ := h
  rcases mem_update.mp hq with ⟨-, hq⟩ | ⟨-, hq⟩
  · rcases List.mem_append.mp hq with hq | hq
    · exact .inr ⟨p, by rw [hp]; exact List.mem_cons_of_mem t hq⟩
    · exact .inl (List.mem_singleton.mp hq)
  · exact .inr ⟨q, hq⟩

/-- All of a list goes to the back of another one. -/
theorem Apart.moveAll (hapart : Apart lists) (hpq : q ≠ p) :
    Apart (Function.update (Function.update lists p []) q (lists q ++ lists p)) := by
  have hempty : Apart (Function.update lists p []) :=
    hapart.update List.nodup_nil fun t ht => absurd ht List.not_mem_nil
  refine hempty.update ?_ fun t ht => ?_
  · refine List.Nodup.append (hapart.nodup q) (hapart.nodup p) ?_
    exact fun t htq htp => hpq (hapart.unique htq htp)
  · rw [Function.update_of_ne hpq]
    rcases List.mem_append.mp ht with htq | htp
    · exact .inl htq
    · refine .inr ?_
      rintro ⟨r, hr⟩
      rcases mem_update.mp hr with ⟨-, hr⟩ | ⟨hne, hr⟩
      · exact absurd hr List.not_mem_nil
      · exact hne (hapart.unique hr htp)

theorem occurs_of_moveAll
    (h : Occurs (Function.update (Function.update lists p []) q (lists q ++ lists p)) u) :
    Occurs lists u := by
  obtain ⟨r, hr⟩ := h
  rcases mem_update.mp hr with ⟨-, hr⟩ | ⟨-, hr⟩
  · rcases List.mem_append.mp hr with hr | hr
    · exact ⟨q, hr⟩
    · exact ⟨p, hr⟩
  · rcases mem_update.mp hr with ⟨-, hr⟩ | ⟨-, hr⟩
    · exact absurd hr List.not_mem_nil
    · exact ⟨r, hr⟩

/-! ## Nothing gets lost -/

/-- The head of a list is taken off. -/
theorem Occurs.tail (h : Occurs lists u) (hp : lists p = t :: ts) :
    u = t ∨ Occurs (Function.update lists p ts) u := by
  obtain ⟨r, hr⟩ := h
  by_cases hrp : r = p
  · rw [hrp, hp] at hr
    rcases List.mem_cons.mp hr with heq | hr
    · exact .inl heq
    · exact .inr ⟨p, mem_update.mpr (.inl ⟨rfl, hr⟩)⟩
  · exact .inr ⟨r, mem_update.mpr (.inr ⟨hrp, hr⟩)⟩

/-- The head of a list is taken off, and another item added at its end. -/
theorem Occurs.rotate {v : τ} (h : Occurs lists v) (hp : lists p = t :: ts) :
    v = t ∨ Occurs (Function.update lists p (ts ++ [u])) v := by
  refine (h.tail hp).imp_right fun h => ?_
  obtain ⟨r, hr⟩ := h
  rcases mem_update.mp hr with ⟨hrp, hr⟩ | ⟨hrp, hr⟩
  · exact ⟨r, mem_update.mpr (.inl ⟨hrp, List.mem_append_left _ hr⟩)⟩
  · exact ⟨r, mem_update.mpr (.inr ⟨hrp, hr⟩)⟩

/-- The head of a list goes to the end of another one. -/
theorem Occurs.move (h : Occurs lists u) (hp : lists p = t :: ts) (hpq : q ≠ p) :
    Occurs (Function.update (Function.update lists p ts) q (lists q ++ [t])) u := by
  have heq : lists q = Function.update lists p ts q := (Function.update_of_ne hpq _ _).symm
  rw [heq, occurs_append]
  exact h.tail hp

/-- All of a list goes to the end of another one. -/
theorem Occurs.moveAll (h : Occurs lists u) :
    Occurs (Function.update (Function.update lists p []) q (lists q ++ lists p)) u := by
  obtain ⟨r, hr⟩ := h
  by_cases hrp : r = p
  · rw [hrp] at hr
    exact ⟨q, mem_update.mpr (.inl ⟨rfl, List.mem_append_right _ hr⟩)⟩
  · by_cases hrq : r = q
    · rw [hrq] at hr
      exact ⟨q, mem_update.mpr (.inl ⟨rfl, List.mem_append_left _ hr⟩)⟩
    · exact ⟨r, mem_update.mpr (.inr ⟨hrq, mem_update.mpr (.inr ⟨hrp, hr⟩)⟩)⟩

end Placement
