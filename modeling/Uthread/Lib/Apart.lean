import Mathlib.Data.List.Nodup
import Mathlib.Logic.Function.Basic

/-!
# Families of disjoint lists

Items distributed over places, each item at most once. An item or a run of
items changes places by being taken out of one list and put into another.
-/

namespace Linked

variable {ι κ α : Type*}

/-- No item is twice in a place or in two places. -/
structure Apart (q : ι → List α) : Prop where
  nodup : ∀ i, (q i).Nodup
  disj : ∀ {i j x}, x ∈ q i → x ∈ q j → i = j

namespace Apart

variable {q : ι → List α} {i : ι} {x : α} {xs ys : List α}

theorem comp {f : κ → ι} (hf : Function.Injective f) (h : Apart q) : Apart fun k => q (f k) where
  nodup k := h.nodup (f k)
  disj hi hj := hf (h.disj hi hj)

theorem nodup_flatMap (h : Apart q) {is : List ι} (hi : is.Nodup) : (is.flatMap q).Nodup := by
  rw [List.nodup_flatMap]
  refine ⟨fun i _ => h.nodup i, ?_⟩
  apply hi.imp
  intro i j hij x hx hy
  exact hij (h.disj hx hy)

variable [DecidableEq ι]

theorem set (h : Apart q) (hn : xs.Nodup) (hx : ∀ j, j ≠ i → ∀ x ∈ xs, x ∉ q j) : Apart (Function.update q i xs) := by
  have hmem : ∀ {j y}, y ∈ Function.update q i xs j → (j = i ∧ y ∈ xs) ∨ (j ≠ i ∧ y ∈ q j) := by
    intro j y hy
    by_cases hj : j = i
    · subst hj
      left
      simpa using hy
    · right
      rw [Function.update_of_ne hj] at hy
      exact ⟨hj, hy⟩
  constructor
  · intro j
    by_cases hj : j = i
    · subst hj
      simpa using hn
    · rw [Function.update_of_ne hj]
      exact h.nodup j
  · intro j k y hj hk
    obtain ⟨rfl, hy⟩ | ⟨hj', hy⟩ := hmem hj <;> obtain ⟨rfl, hz⟩ | ⟨hk', hz⟩ := hmem hk
    · rfl
    · exact absurd hz (hx k hk' y hy)
    · exact absurd hy (hx j hj' y hz)
    · exact h.disj hy hz

theorem shrink (h : Apart q) (hs : xs.Sublist (q i)) : Apart (Function.update q i xs) := by
  apply h.set (hs.nodup (h.nodup i))
  intro j hj x hx hxj
  exact hj (h.disj hxj (hs.subset hx))

theorem extend (h : Apart q) (hn : xs.Nodup) (hx : ∀ j, ∀ x ∈ xs, x ∉ q j) :
    Apart (Function.update q i (q i ++ xs)) := by
  apply h.set
  · rw [List.nodup_append]
    refine ⟨h.nodup i, hn, ?_⟩
    intro a ha b hb hab
    subst hab
    exact hx i a hb ha
  · intro j hj x hm hxj
    rcases List.mem_append.mp hm with hm | hm
    · exact hj (h.disj hxj hm)
    · exact hx j x hm hxj

theorem notMem_shrink (h : Apart q) (hi : q i = xs ++ ys) (hx : x ∈ xs) (j : ι) : x ∉ Function.update q i ys j := by
  have hxi : x ∈ q i := by rw [hi]; exact List.mem_append_left _ hx
  by_cases hj : j = i
  · subst hj
    have hn := h.nodup j
    rw [hi] at hn
    rw [Function.update_self]
    exact fun hy => (List.nodup_append.mp hn).2.2 x hx x hy rfl
  · rw [Function.update_of_ne hj]
    exact fun hxj => hj (h.disj hxj hxi)

end Apart

end Linked
