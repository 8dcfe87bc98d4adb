import Mathlib.Logic.Function.Basic

/-!
# Straight-line code over cells

Code that loads and stores one cell at a time. `run` executes it at once, `next`
performs its next access; code that keeps to some cells depends on no others
and changes no others.
-/

namespace Locked

variable {X : Type} {V : X → Type} {α β : Type}

inductive Code (V : X → Type) (α : Type)
  | ret (r : α)
  | load (x : X) (k : V x → Code V α)
  | store (x : X) (v : V x) (k : Code V α)

abbrev Mem (V : X → Type) := ∀ x, V x

namespace Code

def bind : Code V α → (α → Code V β) → Code V β
  | .ret r, f => f r
  | .load x k, f => .load x fun v => (k v).bind f
  | .store x v k, f => .store x v (k.bind f)

instance : Monad (Code V) where
  pure := .ret
  bind := .bind

variable [DecidableEq X]

def run : Code V α → Mem V → α × Mem V
  | .ret r, μ => (r, μ)
  | .load x k, μ => (k (μ x)).run μ
  | .store x v k, μ => k.run (Function.update μ x v)

def next : Code V α → Mem V → Option (Code V α × Mem V)
  | .ret _, _ => none
  | .load x k, μ => some (k (μ x), μ)
  | .store x v k, μ => some (k, Function.update μ x v)

/-- Every cell that the code accesses satisfies `P`. -/
def Keeps (P : X → Prop) : Code V α → Mem V → Prop
  | .ret _, _ => True
  | .load x k, μ => P x ∧ (k (μ x)).Keeps P μ
  | .store x v k, μ => P x ∧ k.Keeps P (Function.update μ x v)

end Code

def load (x : X) : Code V (V x) := .load x .ret

def store (x : X) (v : V x) : Code V Unit := .store x v (.ret ())

namespace Code

variable [DecidableEq X] {P Q : X → Prop} {μ ν μ' : Mem V} {c c' : Code V α} {x : X} {v : V x}

/-! ## Execution -/

section
variable {k : α → Code V β} {r : α}

@[simp] theorem run_pure : (pure r : Code V α).run μ = (r, μ) := rfl

@[simp] theorem run_load : (Locked.load x).run μ = (μ x, μ) := rfl

@[simp] theorem run_store : (Locked.store x v).run μ = ((), Function.update μ x v) := rfl

@[simp] theorem keeps_pure : (pure r : Code V α).Keeps P μ := trivial

@[simp] theorem keeps_load : (Locked.load x : Code V (V x)).Keeps P μ ↔ P x := by simp [Locked.load, Keeps]

@[simp] theorem keeps_store : (Locked.store x v : Code V Unit).Keeps P μ ↔ P x := by simp [Locked.store, Keeps]

@[simp] theorem run_bind : (c >>= k).run μ = (k (c.run μ).1).run (c.run μ).2 := by
  change (c.bind k).run μ = _
  induction c generalizing μ with
  | ret r => rfl
  | load x j ih => exact ih (μ x)
  | store x v j ih => exact ih

@[simp] theorem keeps_bind : (c >>= k).Keeps P μ ↔ c.Keeps P μ ∧ (k (c.run μ).1).Keeps P (c.run μ).2 := by
  change (c.bind k).Keeps P μ ↔ _
  induction c generalizing μ with
  | ret r => simp [Code.bind, Keeps, run]
  | load x j ih => simp [Code.bind, Keeps, run, ih, and_assoc]
  | store x v j ih => simp [Code.bind, Keeps, run, ih, and_assoc]

end

/-! ## Footprints -/

theorem Keeps.frame (h : c.Keeps P μ) (hx : ¬ P x) : (c.run μ).2 x = μ x := by
  induction c generalizing μ with
  | ret r => rfl
  | load y k ih => exact ih _ h.2
  | store y v k ih =>
    have hne : x ≠ y := by
      intro e
      subst e
      exact hx h.1
    rw [run, ih h.2, Function.update_of_ne hne]

def Agree (P : X → Prop) (μ ν : Mem V) : Prop := ∀ x, P x → μ x = ν x

theorem Agree.update (h : Agree P μ ν) : Agree P (Function.update μ x v) (Function.update ν x v) := by
  intro y hy
  by_cases hyx : y = x
  · subst hyx
    simp
  · rw [Function.update_of_ne hyx, Function.update_of_ne hyx]
    exact h y hy

/-- Code that keeps to some cells does the same on memories that agree on them. -/
theorem Keeps.agree (h : c.Keeps P μ) (ha : Agree P μ ν) :
    c.Keeps P ν ∧ (c.run ν).1 = (c.run μ).1 ∧ Agree P (c.run μ).2 (c.run ν).2 := by
  induction c generalizing μ ν with
  | ret r => exact ⟨trivial, rfl, ha⟩
  | load x k ih =>
    have hx : μ x = ν x := ha x h.1
    have hk : (k (ν x)).Keeps P μ := by
      rw [← hx]
      exact h.2
    obtain ⟨h₁, h₂, h₃⟩ := ih (ν x) hk ha
    refine ⟨⟨h.1, h₁⟩, ?_, ?_⟩
    · simp only [run, hx]
      exact h₂
    · simp only [run, hx]
      exact h₃
  | store x v k ih =>
    obtain ⟨h₁, h₂, h₃⟩ := ih h.2 ha.update
    exact ⟨⟨h.1, h₁⟩, h₂, h₃⟩

/-! ## Single accesses -/

theorem run_next (h : c.next μ = some (c', μ')) : c'.run μ' = c.run μ := by
  cases c with
  | ret r => cases h
  | load x k =>
    cases h
    rfl
  | store x v k =>
    cases h
    rfl

theorem Keeps.next (hc : c.Keeps P μ) (h : c.next μ = some (c', μ')) : c'.Keeps P μ' := by
  cases c with
  | ret r => cases h
  | load x k =>
    cases h
    exact hc.2
  | store x v k =>
    cases h
    exact hc.2

theorem Keeps.next_frame (hc : c.Keeps P μ) (h : c.next μ = some (c', μ')) (hx : ¬ P x) : μ' x = μ x := by
  cases c with
  | ret r => cases h
  | load y k =>
    cases h
    rfl
  | store y v k =>
    cases h
    rw [Function.update_of_ne]
    intro e
    subst e
    exact hx hc.1

end Code

end Locked
