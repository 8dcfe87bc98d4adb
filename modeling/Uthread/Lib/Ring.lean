import Mathlib.Data.List.Basic
import Mathlib.Logic.Function.Basic
import Mathlib.Data.Int.ModEq

/-!
# Ring buffers

A ring buffer of `cap` cells that a sequence of values is put into, and got
from in order. The cursors are the numbers of values put and got, modulo `cap`.
-/

namespace Ring

variable {α : Type*} {cap n m : Nat} {buf : Int → α} {vs : List α}

def cell (cap n : Nat) : Int := (n % cap : Nat)

theorem cell_nonneg : 0 ≤ cell cap n := Int.natCast_nonneg _

theorem cell_lt (h : 0 < cap) : cell cap n < cap := Int.ofNat_lt.mpr (Nat.mod_lt n h)

theorem cell_succ : (cell cap n + 1).tmod cap = cell cap (n + 1) := by
  unfold cell
  rw [show ((n % cap : Nat) : Int) + 1 = ((n % cap + 1 : Nat) : Int) by simp, ← Int.ofNat_tmod, Nat.mod_add_mod]

theorem cell_ne (h₁ : m < n) (h₂ : n < m + cap) : cell cap m ≠ cell cap n := by
  intro h
  have hmod : m % cap = n % cap := Int.ofNat_inj.mp h
  have hdvd : cap ∣ n - m := (Nat.modEq_iff_dvd' h₁.le).mp hmod
  have := Nat.le_of_dvd (by omega) hdvd
  omega

/-- The values put but not yet got are in their cells. -/
def Holds (cap : Nat) (buf : Int → α) (vs : List α) (got : Nat) : Prop :=
  ∀ k (h : k < vs.length), got ≤ k → buf (cell cap k) = vs[k]

namespace Holds

variable {got : Nat}

theorem nil : Holds cap buf [] got := by
  intro k h
  cases h

theorem put (h : Holds cap buf vs got) (hroom : vs.length < got + cap) (v : α) :
    Holds cap (Function.update buf (cell cap vs.length) v) (vs ++ [v]) got := by
  intro k hk hgot
  rw [List.length_append, List.length_singleton] at hk
  by_cases hlast : k = vs.length
  · subst hlast
    rw [Function.update_self, List.getElem_concat_length]
    rfl
  · have hlt : k < vs.length := by omega
    rw [Function.update_of_ne (cell_ne hlt (by omega)), List.getElem_append_left hlt]
    exact h k hlt hgot

theorem get (h : Holds cap buf vs got) : Holds cap buf vs (got + 1) := by
  intro k hk hgot
  exact h k hk (by omega)

end Holds

end Ring
