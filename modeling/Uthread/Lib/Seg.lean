import Mathlib.Data.List.Basic
import Mathlib.Data.List.Nodup
import Mathlib.Logic.Function.Basic

/-!
# Segments of singly linked cells

`Seg next h xs e` says that following `next` from `h` visits exactly the cells
`xs` and then arrives at `e`. A NULL-terminated chain is a segment ending in
`none`. Nothing here depends on what the cells are.
-/

namespace Linked

variable {α : Type*}

/-- The cells `xs` lie between `h` and `e`. -/
def Seg (next : α → Option α) : Option α → List α → Option α → Prop
  | h, [], e => h = e
  | h, x :: xs, e => h = some x ∧ Seg next (next x) xs e

/-- The NULL-terminated chain of the cells `xs`. -/
abbrev Chain (next : α → Option α) (h : Option α) (xs : List α) : Prop := Seg next h xs none

section
variable {next next' : α → Option α} {h e : Option α} {x : α} {xs ys : List α}

@[simp] theorem seg_nil : Seg next h [] e ↔ h = e := Iff.rfl

@[simp] theorem seg_cons : Seg next h (x :: xs) e ↔ h = some x ∧ Seg next (next x) xs e := Iff.rfl

theorem seg_append : Seg next h (xs ++ ys) e ↔ ∃ m, Seg next h xs m ∧ Seg next m ys e := by
  induction xs generalizing h with
  | nil => simp
  | cons x xs ih =>
    simp only [List.cons_append, seg_cons, ih]
    constructor
    · rintro ⟨hx, m, h₁, h₂⟩; exact ⟨m, ⟨hx, h₁⟩, h₂⟩
    · rintro ⟨m, ⟨hx, h₁⟩, h₂⟩; exact ⟨hx, m, h₁, h₂⟩

theorem seg_congr : ∀ {xs : List α} {h : Option α}, (∀ x ∈ xs, next x = next' x) →
    (Seg next h xs e ↔ Seg next' h xs e)
  | [], _, _ => Iff.rfl
  | x :: xs, h, hx => by
    simp only [seg_cons, hx x (by simp)]
    rw [seg_congr fun y hy => hx y (List.mem_cons_of_mem _ hy)]

theorem seg_snoc : Seg next h (xs ++ [x]) e ↔ Seg next h xs (some x) ∧ next x = e := by
  rw [seg_append]
  constructor
  · intro h
    obtain ⟨m, h₁, hm, h₂⟩ := h
    subst hm; exact ⟨h₁, h₂⟩
  · rintro ⟨h₁, h₂⟩; exact ⟨some x, h₁, rfl, h₂⟩

/-- A chain determines its cells. -/
theorem chain_unique : ∀ {xs ys : List α} {h : Option α}, Chain next h xs → Chain next h ys → xs = ys
  | [], [], _, _, _ => rfl
  | [], y :: ys, h, h₁, h₂ => by simp_all [Chain]
  | x :: xs, [], h, h₁, h₂ => by simp_all [Chain]
  | x :: xs, y :: ys, h, h₁, h₂ => by
    obtain ⟨hx, h₁⟩ := h₁
    obtain ⟨hy, h₂⟩ := h₂
    obtain rfl : x = y := Option.some.inj (hx.symm.trans hy)
    rw [chain_unique h₁ h₂]

theorem chain_head (hc : Chain next h xs) : h = xs.head? := by
  cases xs with
  | nil => exact hc
  | cons x xs => exact hc.1

theorem chain_next (hc : Chain next h (xs ++ x :: ys)) : next x = ys.head? := by
  obtain ⟨m, -, -, h₂⟩ := seg_append.mp hc
  exact chain_head h₂

end

section
variable [DecidableEq α] {next : α → Option α} {h e v : Option α} {x : α} {xs ys : List α}

theorem seg_update (hx : x ∉ xs) : Seg (Function.update next x v) h xs e ↔ Seg next h xs e :=
  seg_congr fun y hy => Function.update_of_ne (fun he : y = x => hx (he ▸ hy)) _ _

theorem seg_relink (hn : (xs ++ [x]).Nodup) (hs : Seg next h (xs ++ [x]) e) :
    Seg (Function.update next x v) h (xs ++ [x]) v := by
  have hx : x ∉ xs := by
    rw [List.nodup_append] at hn
    exact fun hm => hn.2.2 x hm x (by simp) rfl
  rw [seg_snoc] at hs ⊢
  exact ⟨(seg_update hx).mpr hs.1, Function.update_self ..⟩

theorem chain_push {t : α} (hn : xs.Nodup) (hx : x ∉ xs) (ht : xs.getLast? = some t) (hc : Chain next h xs) :
    Chain (Function.update (Function.update next x none) t (some x)) h (xs ++ [x]) := by
  obtain ⟨ys, rfl⟩ := List.getLast?_eq_some_iff.mp ht
  have hxt : x ≠ t := fun he => hx (by simp [he])
  refine seg_snoc.mpr ⟨seg_relink hn ((seg_update hx).mpr hc), ?_⟩
  rw [Function.update_of_ne hxt, Function.update_self]

theorem chain_push_empty : Chain (Function.update next x none) (some x) [x] := by simp

theorem chain_pop (hn : (x :: xs).Nodup) (hc : Chain next h (x :: xs)) :
    Chain (Function.update next x none) (next x) xs :=
  (seg_update (List.nodup_cons.mp hn).1).mpr hc.2

theorem chain_unlink {p : α} (hn : (xs ++ x :: ys).Nodup) (hp : xs.getLast? = some p)
    (hc : Chain next h (xs ++ x :: ys)) : Chain (Function.update next p (next x)) h (xs ++ ys) := by
  obtain ⟨zs, rfl⟩ := List.getLast?_eq_some_iff.mp hp
  obtain ⟨m, h₁, hm, h₂⟩ := seg_append.mp hc
  have hn' := List.nodup_append.mp hn
  refine seg_append.mpr ⟨next x, seg_relink hn'.1 h₁, ?_⟩
  refine (seg_update fun hy => ?_).mpr h₂
  exact hn'.2.2 p (by simp) p (List.mem_cons_of_mem _ hy) rfl

end

/-! ## Links in front of an optional predecessor -/

/-- Store `v` in the link of `p`, if there is a `p`. -/
def relink [DecidableEq α] (next : α → Option α) (p v : Option α) : α → Option α :=
  p.elim next fun p => Function.update next p v

/-- The head of a list whose cell behind `p` is to be reached by `v`. -/
def entry (p h v : Option α) : Option α := p.elim v fun _ => h

section
variable [DecidableEq α] {next : α → Option α} {h v p : Option α} {x : α} {xs ys : List α}

theorem relink_seg (hp : ∀ y ∈ p, y ∉ xs) {e : Option α} :
    Seg (relink next p v) h xs e ↔ Seg next h xs e := by
  cases p with
  | none => exact Iff.rfl
  | some p => exact seg_update (hp p rfl)

theorem chain_append (hn : xs.Nodup) (hx : x ∉ xs) (hc : Chain next h xs) :
    Chain (relink (Function.update next x none) xs.getLast? (some x)) (entry xs.getLast? h (some x)) (xs ++ [x]) := by
  cases hl : xs.getLast? with
  | none =>
    obtain rfl : xs = [] := by simpa using hl
    exact chain_push_empty
  | some t => exact chain_push hn hx hl hc

theorem chain_remove (hn : (xs ++ x :: ys).Nodup) (hc : Chain next h (xs ++ x :: ys)) :
    Chain (relink next xs.getLast? (next x)) (entry xs.getLast? h (next x)) (xs ++ ys) := by
  cases hl : xs.getLast? with
  | none =>
    obtain rfl : xs = [] := by simpa using hl
    exact hc.2
  | some p => exact chain_unlink hn hl hc

end

end Linked
