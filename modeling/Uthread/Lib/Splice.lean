import Uthread.Lib.Seg

/-!
# Walking and splicing chains

The cells of a chain as a computed list, and the chain that results from
hanging one chain behind the last cell of another.
-/

namespace Linked

variable {α : Type*} {next : α → Option α} {h h' : Option α} {xs ys : List α}

def walk (next : α → Option α) : Nat → Option α → List α
  | n + 1, some x => x :: walk next n (next x)
  | _, _ => []

theorem walk_eq {n : Nat} (hc : Chain next h xs) (hn : xs.length ≤ n) : walk next n h = xs := by
  induction xs generalizing n h with
  | nil =>
    obtain rfl : h = none := hc
    cases n <;> rfl
  | cons x xs ih =>
    obtain ⟨rfl, hc⟩ := hc
    cases n with
    | zero => simp at hn
    | succ n =>
      simp only [walk, List.cons.injEq, true_and]
      apply ih hc
      simpa using hn

theorem chain_concat [DecidableEq α] (hn : (xs ++ ys).Nodup) (hx : Chain next h xs) (hy : Chain next h' ys) :
    Chain (relink next xs.getLast? h') (entry xs.getLast? h h') (xs ++ ys) := by
  cases hl : xs.getLast? with
  | none =>
    obtain rfl : xs = [] := by simpa using hl
    exact hy
  | some t =>
    obtain ⟨zs, rfl⟩ := List.getLast?_eq_some_iff.mp hl
    have hn' := List.nodup_append.mp hn
    have ht : t ∉ ys := fun hm => hn'.2.2 t (by simp) t hm rfl
    refine seg_append.mpr ⟨h', ?_, ?_⟩
    · exact seg_relink hn'.1 hx
    · exact (seg_update ht).mpr hy

theorem getLast?_drop {n : Nat} (hn : n < xs.length) : (xs.drop n).getLast? = xs.getLast? := by
  rw [List.getLast?_drop, if_neg (by omega)]

end Linked
