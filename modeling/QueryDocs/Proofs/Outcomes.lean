import Mathlib.Data.List.Forall2
import Mathlib.Tactic.Common

/-! # Outcomes

An outcome is a value or an error. Values are changed and errors are kept (`map_eq_ok`, `map_eq_error`),
and the outcomes for the items of a list are values for all of them (`mapM_eq_ok`) or the first error
(`mapM_eq_error`). -/

namespace QueryDocs

variable {α β ε : Type} {f : α → Except ε β} {xs : List α} {ys : List β} {e : ε}

theorem map_eq_ok {g : α → β} {x : Except ε α} {b : β} :
    x.map g = .ok b ↔ ∃ a, x = .ok a ∧ b = g a := by
  cases x <;> simp [Except.map, eq_comm]

theorem map_eq_error {g : α → β} {x : Except ε α} : x.map g = .error e ↔ x = .error e := by
  cases x <;> simp [Except.map]

theorem mapM_eq_ok : xs.mapM f = .ok ys ↔ List.Forall₂ (fun x y => f x = .ok y) xs ys := by
  induction xs generalizing ys with
  | nil => cases ys <;> simp [pure, Except.pure]
  | cons x xs ih =>
    rw [List.mapM_cons]
    cases hx : f x with
    | error e => cases ys <;> simp [bind, Except.bind, hx]
    | ok y =>
      cases hxs : xs.mapM f with
      | error e => cases ys <;> simp [bind, Except.bind, ← ih, hx, hxs]
      | ok ys' => cases ys <;> simp [bind, Except.bind, pure, Except.pure, ← ih, hx, hxs]

theorem exists_of_forall₂ {α β : Type} {xs : List α} {ys : List β} {R : α → β → Prop}
    (h : List.Forall₂ R xs ys) {x : α} (hx : x ∈ xs) : ∃ y ∈ ys, R x y := by
  induction h with
  | nil => cases hx
  | cons hxy _ ih =>
    rcases List.mem_cons.mp hx with rfl | hx
    · exact ⟨_, List.mem_cons_self, hxy⟩
    · obtain ⟨y, hy, hxy⟩ := ih hx
      exact ⟨y, List.mem_cons_of_mem _ hy, hxy⟩

theorem exists_of_forall₂_append {α β : Type} {R : α → β → Prop} {as bs : List α} {cs : List β}
    (h : List.Forall₂ R (as ++ bs) cs) :
    ∃ cs₁ cs₂, cs = cs₁ ++ cs₂ ∧ List.Forall₂ R as cs₁ ∧ List.Forall₂ R bs cs₂ := by
  induction as generalizing cs with
  | nil => exact ⟨[], cs, rfl, .nil, h⟩
  | cons a as ih =>
    cases h with
    | cons hac h =>
      obtain ⟨cs₁, cs₂, rfl, h₁, h₂⟩ := ih h
      exact ⟨_ :: cs₁, cs₂, rfl, .cons hac h₁, h₂⟩

theorem mapM_eq_error (h : xs.mapM f = .error e) :
    ∃ (i : Nat) (x : α), xs[i]? = some x ∧ f x = .error e ∧
      ∀ j < i, ∀ x', xs[j]? = some x' → ∃ y, f x' = .ok y := by
  induction xs with
  | nil => cases h
  | cons x xs ih =>
    rw [List.mapM_cons] at h
    cases hx : f x with
    | error e' =>
      rw [hx] at h
      cases h
      exact ⟨0, x, rfl, hx, fun j hj => absurd hj (Nat.not_lt_zero j)⟩
    | ok y =>
      cases hxs : xs.mapM f with
      | ok ys => rw [hx, hxs] at h; cases h
      | error e' =>
        rw [hx, hxs] at h
        cases h
        obtain ⟨i, x', hi, he, hbefore⟩ := ih hxs
        refine ⟨i + 1, x', hi, he, fun j hj x'' hx'' => ?_⟩
        cases j with
        | zero =>
          cases hx''
          exact ⟨y, hx⟩
        | succ j => exact hbefore j (Nat.lt_of_succ_lt_succ hj) x'' hx''

end QueryDocs
