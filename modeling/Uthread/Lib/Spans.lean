import Uthread.Lib.History
import Mathlib.Data.List.Chain

/-!
# Spans

A history of begin and end marks, newest first, in which every mark has a key.
A decoder that keeps one open begin mark for each key closes it at the next end
mark of that key. When the history is bracketed, no begin mark is overwritten,
and the decoder may use any coarser key.
-/

namespace Spans

inductive Phase
  | B | E | i
  deriving DecidableEq, Repr

open History

variable {α κ τ : Type*} [DecidableEq κ] [DecidableEq τ] {ph : α → Phase} {key : α → κ} {owner : α → τ}
  {k : κ} {e b : α} {l : List α}

def lastMark (ph : α → Phase) (key : α → κ) (k : κ) (l : List α) : Option α := l.find? fun e => key e = k ∧ ph e ≠ .i

def opened (ph : α → Phase) (key : α → κ) (k : κ) (l : List α) : Option α :=
  (lastMark ph key k l).filter fun e => ph e = .B

/-- Every end mark behind a begin mark of its key, with that begin mark, newest first. -/
def closed (ph : α → Phase) (key : α → κ) : List α → List (α × α)
  | [] => []
  | e :: l =>
    match ph e, opened ph key (key e) l with
    | .E, some b => (b, e) :: closed ph key l
    | _, _ => closed ph key l

theorem lastMark_cons : lastMark ph key k (e :: l) = if key e = k ∧ ph e ≠ .i then some e else lastMark ph key k l := by
  unfold lastMark
  rw [List.find?_cons]
  by_cases h : key e = k ∧ ph e ≠ .i
  · simp [h]
  · simp only [h, decide_false, if_false]

theorem lastMark_mark (hk : key e = k) (hp : ph e ≠ .i) : lastMark ph key k (e :: l) = some e := by
  rw [lastMark_cons, if_pos ⟨hk, hp⟩]

theorem lastMark_skip (h : key e = k → ph e = .i) : lastMark ph key k (e :: l) = lastMark ph key k l := by
  rw [lastMark_cons, if_neg]
  intro h
  obtain ⟨hk, hp⟩ := h
  exact hp (h hk)

theorem mem_of_lastMark (h : lastMark ph key k l = some e) : e ∈ l := List.mem_of_find?_eq_some h

theorem key_of_lastMark (h : lastMark ph key k l = some e) : key e = k ∧ ph e ≠ .i := by
  simpa using List.find?_some h

theorem opened_eq : opened ph key k l = some b ↔ lastMark ph key k l = some b ∧ ph b = .B := by
  unfold opened
  simp [Option.filter_eq_some_iff]

theorem opened_skip (h : key e = k → ph e = .i) : opened ph key k (e :: l) = opened ph key k l := by
  unfold opened
  rw [lastMark_skip h]

theorem opened_begin (hk : key e = k) (hp : ph e = .B) : opened ph key k (e :: l) = some e :=
  opened_eq.mpr ⟨lastMark_mark hk (by simp [hp]), hp⟩

theorem opened_end (hk : key e = k) (hp : ph e = .E) : opened ph key k (e :: l) = none := by
  unfold opened
  rw [lastMark_mark hk (by simp [hp])]
  simp [hp]

theorem closed_end (hp : ph e = .E) : closed ph key (e :: l) =
    (opened ph key (key e) l).toList.map (·, e) ++ closed ph key l := by
  simp only [closed, hp]
  cases opened ph key (key e) l <;> rfl

theorem closed_skip (hp : ph e ≠ .E) : closed ph key (e :: l) = closed ph key l := by
  simp only [closed]
  cases h : ph e with
  | E => exact absurd h hp
  | B | i => rfl

theorem mem_of_closed {p : α × α} (h : p ∈ closed ph key l) : p.1 ∈ l ∧ p.2 ∈ l := by
  induction l with
  | nil => cases h
  | cons e l ih =>
    by_cases hp : ph e = .E
    · rw [closed_end hp, List.mem_append] at h
      rcases h with h | h
      · simp only [List.mem_map, Option.mem_toList] at h
        obtain ⟨b, hb, rfl⟩ := h
        exact ⟨List.mem_cons_of_mem _ (mem_of_lastMark (opened_eq.mp hb).1), List.mem_cons_self⟩
      · exact (ih h).imp (List.mem_cons_of_mem _) (List.mem_cons_of_mem _)
    · rw [closed_skip hp] at h
      exact (ih h).imp (List.mem_cons_of_mem _) (List.mem_cons_of_mem _)

theorem lastMark_map {β : Type*} (f : β → α) (l : List β) :
    lastMark ph key k (l.map f) = (lastMark (ph ∘ f) (key ∘ f) k l).map f := by
  unfold lastMark
  rw [List.find?_map]
  rfl

theorem opened_map {β : Type*} (f : β → α) (l : List β) :
    opened ph key k (l.map f) = (opened (ph ∘ f) (key ∘ f) k l).map f := by
  unfold opened
  rw [lastMark_map, Option.filter_map]
  rfl

theorem closed_map {β : Type*} (f : β → α) (l : List β) :
    closed ph key (l.map f) = (closed (ph ∘ f) (key ∘ f) l).map (Prod.map f f) := by
  induction l with
  | nil => rfl
  | cons e l ih =>
    rw [List.map_cons]
    by_cases hp : ph (f e) = .E
    · have hp' : (ph ∘ f) e = .E := hp
      rw [closed_end hp, closed_end hp', ih, opened_map]
      change _ = ((opened (ph ∘ f) (key ∘ f) (key (f e)) l).toList.map (·, e) ++ _).map _
      cases opened (ph ∘ f) (key ∘ f) (key (f e)) l <;> rfl
    · have hp' : (ph ∘ f) e ≠ .E := hp
      rw [closed_skip hp, closed_skip hp', ih]

/-! ## Bracketed histories -/

/-- A begin mark finds none of its key open; an end mark finds the one of its owner open, or no mark of its key. -/
def Matched (ph : α → Phase) (key : α → κ) (owner : α → τ) (e : α) (l : List α) : Prop :=
  (ph e = .B → opened ph key (key e) l = none) ∧
    (ph e = .E → lastMark ph key (key e) l = none ∨ ∃ b, opened ph key (key e) l = some b ∧ owner b = owner e)

abbrev Bracketed (ph : α → Phase) (key : α → κ) (owner : α → τ) (l : List α) : Prop := Always (Matched ph key owner) l

def marks (ph : α → Phase) (key : α → κ) (k : κ) (l : List α) : List α := l.filter fun e => key e = k ∧ ph e ≠ .i

theorem head_marks : (marks ph key k l).head? = lastMark ph key k l := List.head?_filter ..

theorem first_mark (h : (marks ph key k l).getLast? = some e) :
    ∃ l₁ l₂, l = l₁ ++ e :: l₂ ∧ lastMark ph key k l₂ = none ∧ key e = k := by
  induction l with
  | nil => cases h
  | cons x l ih =>
    unfold marks at h ih
    rw [List.filter_cons] at h
    by_cases hx : key x = k ∧ ph x ≠ .i
    · rw [if_pos (by simpa using hx)] at h
      cases hm : l.filter fun e => key e = k ∧ ph e ≠ .i with
      | nil =>
        rw [hm] at h
        cases h
        refine ⟨[], l, rfl, ?_, hx.1⟩
        rw [← head_marks]
        unfold marks
        rw [hm]
        rfl
      | cons y ys =>
        rw [hm, List.getLast?_cons_cons] at h
        obtain ⟨l₁, l₂, rfl, hn, hk⟩ := ih (by rw [hm]; exact h)
        exact ⟨x :: l₁, l₂, rfl, hn, hk⟩
    · rw [if_neg (by simpa using hx)] at h
      obtain ⟨l₁, l₂, rfl, hn, hk⟩ := ih h
      exact ⟨x :: l₁, l₂, rfl, hn, hk⟩

omit [DecidableEq τ] in
theorem Bracketed.alternates (h : Bracketed ph key owner l) : (marks ph key k l).IsChain fun x y => ph x ≠ ph y := by
  induction l with
  | nil => exact .nil
  | cons e l ih =>
    have ih := ih h.2
    unfold marks at ih ⊢
    rw [List.filter_cons]
    by_cases hm : key e = k ∧ ph e ≠ .i
    · rw [if_pos (by simpa using hm)]
      refine List.isChain_cons.mpr ⟨fun y hy => ?_, ih⟩
      obtain ⟨rfl, hne⟩ := hm
      have hy : lastMark ph key (key e) l = some y := by
        rw [← head_marks]
        exact hy
      cases hp : ph e with
      | B =>
        intro hB
        have := h.1.1 hp
        rw [opened_eq.mpr ⟨hy, hB.symm⟩] at this
        cases this
      | E =>
        rcases h.1.2 hp with hn | ⟨b, hb, -⟩
        · rw [hn] at hy
          cases hy
        · obtain ⟨hl, hB⟩ := opened_eq.mp hb
          rw [hy] at hl
          cases hl
          rw [hB]
          simp
      | i => exact absurd hp hne
    · rw [if_neg (by simpa using hm)]
      exact ih

theorem lastMark_owner (h : lastMark ph key (key e) l = some b) (ho : owner b = owner e)
    (hk : ∀ x ∈ l, owner x = owner e → key x = key e) : lastMark ph owner (owner e) l = some b := by
  induction l with
  | nil => cases h
  | cons x l ih =>
    by_cases hx : key x = key e ∧ ph x ≠ .i
    · rw [lastMark_mark hx.1 hx.2] at h
      cases h
      exact lastMark_mark ho hx.2
    · rw [lastMark_cons, if_neg hx] at h
      rw [lastMark_skip]
      · exact ih h fun y hy => hk y (List.mem_cons_of_mem _ hy)
      · intro hox
        by_contra hne
        exact hx ⟨hk x List.mem_cons_self hox, hne⟩

theorem lastMark_owner_none (h : lastMark ph key (key e) l = none) (hk : ∀ x ∈ l, owner x = owner e → key x = key e) :
    lastMark ph owner (owner e) l = none := by
  unfold lastMark at h ⊢
  rw [List.find?_eq_none] at h ⊢
  intro x hx hm
  simp only [decide_eq_true_eq] at hm
  exact h x hx (by simpa using ⟨hk x hx hm.1, hm.2⟩)

theorem Bracketed.closed_owner (h : Bracketed ph key owner l)
    (hk : ∀ x ∈ l, ∀ y ∈ l, owner x = owner y → key x = key y) : closed ph key l = closed ph owner l := by
  induction l with
  | nil => rfl
  | cons e l ih =>
    have ih := ih h.2 fun x hx y hy => hk x (List.mem_cons_of_mem _ hx) y (List.mem_cons_of_mem _ hy)
    have hke : ∀ x ∈ l, owner x = owner e → key x = key e := fun x hx =>
      hk x (List.mem_cons_of_mem _ hx) e List.mem_cons_self
    by_cases hp : ph e = .E
    · rw [closed_end hp, closed_end hp, ih]
      congr 3
      rcases h.1.2 hp with hn | ⟨b, hb, ho⟩
      · unfold opened
        rw [hn, lastMark_owner_none hn hke]
      · obtain ⟨hl, hB⟩ := opened_eq.mp hb
        rw [hb, opened_eq.mpr ⟨lastMark_owner hl ho hke, hB⟩]
    · rw [closed_skip hp, closed_skip hp, ih]

/-! ## Time -/

section
variable {ts : α → Nat} (hts : l.Pairwise fun x y => ts y ≤ ts x)
include hts

theorem closed_before_opened (hb : opened ph key k l = some b) {p : α × α} (hp : p ∈ closed ph key l) (hk : key p.2 = k) :
    ts p.2 ≤ ts b := by
  induction l with
  | nil => cases hp
  | cons e l ih =>
    obtain ⟨hhd, htl⟩ := List.pairwise_cons.mp hts
    by_cases hm : key e = k ∧ ph e ≠ .i
    · obtain ⟨hl, hB⟩ := opened_eq.mp hb
      rw [lastMark_mark hm.1 hm.2] at hl
      cases hl
      rw [closed_skip (by simp [hB])] at hp
      exact hhd _ (mem_of_closed hp).2
    · have hskip : key e = k → ph e = .i := fun h => by
        by_contra hne
        exact hm ⟨h, hne⟩
      rw [opened_skip hskip] at hb
      by_cases hE : ph e = .E
      · rw [closed_end hE, List.mem_append] at hp
        rcases hp with hp | hp
        · simp only [List.mem_map] at hp
          obtain ⟨c, -, rfl⟩ := hp
          rw [hskip hk] at hE
          cases hE
        · exact ih htl hb hp
      · rw [closed_skip hE] at hp
        exact ih htl hb hp

/-- Spans of one key do not overlap. -/
theorem closed_disjoint : (closed ph key l).Pairwise fun p q => key p.2 = key q.2 → ts q.2 ≤ ts p.1 := by
  induction l with
  | nil => exact .nil
  | cons e l ih =>
    obtain ⟨-, htl⟩ := List.pairwise_cons.mp hts
    by_cases hE : ph e = .E
    · rw [closed_end hE]
      cases hb : opened ph key (key e) l with
      | none => exact ih htl
      | some b =>
        refine List.pairwise_cons.mpr ⟨fun q hq hkey => ?_, ih htl⟩
        exact closed_before_opened htl hb hq hkey.symm
    · rw [closed_skip hE]
      exact ih htl

end

/-! ## Lanes

Every begin mark has a lane, and an open mark keeps its lane to itself. -/

section
variable {ι : Type*} {lane : α → ι} {c : α} {k' : κ}

/-- A begin mark finds no mark of its key open, and none in its lane; an end mark finds one of its key open. -/
def Laned (ph : α → Phase) (key : α → κ) (lane : α → ι) (e : α) (l : List α) : Prop :=
  (ph e = .B → opened ph key (key e) l = none ∧ ∀ k b, opened ph key k l = some b → lane b ≠ lane e) ∧
    (ph e = .E → ∃ b, opened ph key (key e) l = some b)

theorem opened_cons (h : opened ph key k (e :: l) = some b) :
    (key e = k ∧ ph e = .B ∧ b = e) ∨ ((key e = k → ph e = .i) ∧ opened ph key k l = some b) := by
  by_cases hm : key e = k ∧ ph e ≠ .i
  · obtain ⟨hl, hB⟩ := opened_eq.mp h
    rw [lastMark_mark hm.1 hm.2] at hl
    cases hl
    exact .inl ⟨hm.1, hB, rfl⟩
  · have hskip : key e = k → ph e = .i := by
      intro hk
      by_contra hne
      exact hm ⟨hk, hne⟩
    rw [opened_skip hskip] at h
    exact .inr ⟨hskip, h⟩

section
variable {ts : α → Nat} (hts : l.Pairwise fun x y => ts y ≤ ts x)
include hts

end

end

end Spans
