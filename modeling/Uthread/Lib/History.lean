import Mathlib.Data.List.Basic

/-!
# Histories

A history is a list of events, newest first. A property of every event and of
what came before it is carried along as the history grows.
-/

namespace History

variable {α : Type*} {P Q : α → List α → Prop} {e : α} {es l : List α}

/-- `P e l` for every event `e` of the history, with `l` what came before it. -/
def Always (P : α → List α → Prop) : List α → Prop
  | [] => True
  | e :: l => P e l ∧ Always P l

instance Always.decide [∀ e l, Decidable (P e l)] : (l : List α) → Decidable (Always P l)
  | [] => .isTrue trivial
  | e :: l => @instDecidableAnd (P e l) (Always P l) _ (Always.decide l)

theorem Always.nil : Always P [] := trivial

theorem Always.older (h : Always P (es ++ l)) : Always P l := by
  induction es with
  | nil => exact h
  | cons e es ih => exact ih h.2

theorem Always.silent (h : Always P l) (hs : ∀ e ∈ es, ∀ l, P e l) : Always P (es ++ l) := by
  induction es with
  | nil => exact h
  | cons e es ih => exact ⟨hs e (by simp) _, ih fun e he => hs e (List.mem_cons_of_mem _ he)⟩

theorem always_iff : Always P l ↔ ∀ l₁ e l₂, l = l₁ ++ e :: l₂ → P e l₂ := by
  constructor
  · intro h l₁ e l₂ hl
    subst hl
    exact (Always.older h).1
  · intro h
    induction l with
    | nil => exact .nil
    | cons e l ih =>
      refine ⟨h [] e l rfl, ih fun l₁ e' l₂ hl => h (e :: l₁) e' l₂ ?_⟩
      rw [hl]; rfl

end History
