import Uthread.Lib.Seg

/-!
# Doubly linked lists

A doubly linked list is a NULL-terminated chain of forward links together with
back links in which every cell names the cell before it (`none` for the first).
-/

namespace Linked

variable {α : Type*}

/-- Every cell of `xs` names its predecessor; the first one names `p`. -/
def Back (prev : α → Option α) : Option α → List α → Prop
  | _, [] => True
  | p, x :: xs => prev x = p ∧ Back prev (some x) xs

structure DList (next prev : α → Option α) (h : Option α) (xs : List α) : Prop where
  fwd : Chain next h xs
  back : Back prev none xs

section
variable {prev : α → Option α} {p : Option α} {x : α} {xs ys : List α}

theorem back_congr {prev' : α → Option α} : ∀ {xs : List α} {p : Option α}, (∀ x ∈ xs, prev x = prev' x) →
    (Back prev p xs ↔ Back prev' p xs)
  | [], _, _ => Iff.rfl
  | x :: xs, p, hx => by
    simp only [Back, hx x (by simp)]
    rw [back_congr fun y hy => hx y (List.mem_cons_of_mem _ hy)]

theorem back_append : ∀ {xs : List α} {p : Option α},
    Back prev p (xs ++ ys) ↔ Back prev p xs ∧ Back prev (xs.getLast?.or p) ys
  | [], p => by simp [Back]
  | [x], p => by simp [Back]
  | x :: x' :: xs, p => by
    have h : Back prev (some x) (x' :: xs ++ ys) ↔ _ := back_append
    simp only [List.cons_append, Back, List.getLast?_cons_cons] at h ⊢
    rw [h, ← and_assoc]
    cases hl : (x' :: xs).getLast? with
    | none => simp at hl
    | some l => simp only [Option.some_or, and_assoc]

theorem back_mid (hb : Back prev none (xs ++ x :: ys)) : prev x = xs.getLast? := by
  have h := (back_append.mp hb).2.1
  simpa using h

end

section
variable [DecidableEq α] {next prev : α → Option α} {h v : Option α} {x y : α} {xs ys : List α}

theorem back_update {p : Option α} (hx : x ∉ xs) : Back (Function.update prev x v) p xs ↔ Back prev p xs :=
  back_congr fun y hy => Function.update_of_ne (fun he : y = x => hx (he ▸ hy)) _ _

theorem dlist_add (hx : x ∉ xs) (hn : xs.Nodup) (hd : DList next prev h xs) :
    DList (Function.update next x h) (relink (Function.update prev x none) h (some x)) (some x) (x :: xs) := by
  refine ⟨⟨rfl, ?_⟩, ?_⟩
  · rw [Function.update_self]
    exact (seg_update hx).mpr hd.fwd
  · cases xs with
    | nil =>
      obtain rfl : h = none := hd.fwd
      simp [Back, relink]
    | cons y xs =>
      obtain rfl : h = some y := hd.fwd.1
      have hxy : x ≠ y := fun he => hx (by simp [he])
      have hb := hd.back.2
      simp only [Back, relink, Option.elim_some, Function.update_of_ne hxy, Function.update_self, true_and]
      rw [back_update (List.nodup_cons.mp hn).1, back_update fun hm => hx (List.mem_cons_of_mem _ hm)]
      exact hb

theorem back_remove (hn : (xs ++ x :: ys).Nodup) (hb : Back prev none (xs ++ x :: ys)) :
    Back (relink prev ys.head? (prev x)) none (xs ++ ys) := by
  have hp := back_mid hb
  obtain ⟨hxs, -, hys⟩ := back_append.mp hb
  have hn' := List.nodup_append.mp hn
  cases ys with
  | nil => simpa [relink] using hxs
  | cons y ys =>
    have hy : y ∉ xs := fun hm => hn'.2.2 y hm y (by simp) rfl
    have hy' : y ∉ ys := (List.nodup_cons.mp (List.nodup_cons.mp hn'.2.1).2).1
    refine back_append.mpr ⟨(back_update hy).mpr hxs, ?_, (back_update hy').mpr hys.2⟩
    simp [hp, relink]

theorem dlist_remove (hn : (xs ++ x :: ys).Nodup) (hd : DList next prev h (xs ++ x :: ys)) :
    DList (Function.update (relink next (prev x) (next x)) x none)
      (Function.update (relink prev (next x) (prev x)) x none) (entry (prev x) h (next x)) (xs ++ ys) := by
  have hx : x ∉ xs ++ ys := by
    have := List.nodup_middle.mp hn
    exact (List.nodup_cons.mp this).1
  constructor
  · rw [back_mid hd.back]
    exact (seg_update hx).mpr (chain_remove hn hd.fwd)
  · rw [chain_next hd.fwd]
    exact (back_update hx).mpr (back_remove hn hd.back)

end

end Linked
