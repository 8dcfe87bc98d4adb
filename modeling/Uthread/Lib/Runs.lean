import Mathlib.Logic.Relation

/-!
# Runs of a transition system

States reached from an initial state by steps that all satisfy a side
condition, and the induction that carries an invariant along them.
-/

namespace Trans

variable {σ ι : Type*}

/-- The states reached from `init` by steps allowed by `ok`. -/
inductive Reach (init : σ → Prop) (step : σ → ι → Option σ) (ok : σ → ι → Prop) : σ → Prop
  | init {s} : init s → Reach init step ok s
  | step {s a s'} : Reach init step ok s → ok s a → step s a = some s' → Reach init step ok s'

def exec (step : σ → ι → Option σ) : σ → List ι → Option σ
  | s, [] => some s
  | s, a :: as => (step s a).bind fun s' => exec step s' as

theorem exec_append {step : σ → ι → Option σ} : ∀ {as bs : List ι} {s : σ},
    exec step s (as ++ bs) = (exec step s as).bind fun s' => exec step s' bs
  | [], bs, s => rfl
  | a :: as, bs, s => by
    simp only [List.cons_append, exec, Option.bind_assoc]
    congr 1
    funext s'
    exact exec_append

section
variable {init : σ → Prop} {step : σ → ι → Option σ} {ok ok' : σ → ι → Prop} {I : σ → Prop} {s s' : σ}

/-- What the initial states have and every allowed step keeps, every reached state has. -/
theorem Reach.inv (hi : ∀ s, init s → I s)
    (hs : ∀ s a s', I s → ok s a → step s a = some s' → I s') (h : Reach init step ok s) : I s := by
  induction h with
  | init h => exact hi _ h
  | step _ hok hst ih => exact hs _ _ _ ih hok hst

theorem Reach.mono (hk : ∀ s a, ok s a → ok' s a) (h : Reach init step ok s) : Reach init step ok' s := by
  induction h with
  | init h => exact .init h
  | step _ hok hst ih => exact .step ih (hk _ _ hok) hst

theorem Reach.exec : ∀ {as : List ι} {s : σ}, Reach init step ok s → (∀ s a, ok s a) →
    Trans.exec step s as = some s' → Reach init step ok s'
  | [], s, h, _, he => by cases he; exact h
  | a :: as, s, h, hk, he => by
    obtain ⟨m, hm, he⟩ := Option.bind_eq_some_iff.mp he
    exact Reach.exec (.step h (hk s a) hm) hk he

theorem Reach.exec_mem : ∀ {as : List ι} {s : σ}, Reach init step ok s → (∀ s, ∀ a ∈ as, ok s a) →
    Trans.exec step s as = some s' → Reach init step ok s'
  | [], s, h, _, he => by cases he; exact h
  | a :: as, s, h, hk, he => by
    obtain ⟨m, hm, he⟩ := Option.bind_eq_some_iff.mp he
    refine Reach.exec_mem (.step h (hk s a List.mem_cons_self) hm) ?_ he
    exact fun s b hb => hk s b (List.mem_cons_of_mem _ hb)

theorem Reach.replay {p : σ → ι → Bool} (hp : ∀ s a, p s a = true → ok s a) : ∀ {as : List ι} {s : σ},
    Reach init step ok s → Trans.exec (fun s a => if p s a then step s a else none) s as = some s' → Reach init step ok s'
  | [], s, h, he => by cases he; exact h
  | a :: as, s, h, he => by
    obtain ⟨m, hm, he⟩ := Option.bind_eq_some_iff.mp he
    simp only [Option.ite_none_right_eq_some] at hm
    exact Reach.replay hp (.step h (hp s a hm.1) hm.2) he

theorem exec_of_checked {p : σ → ι → Bool} : ∀ {as : List ι} {s : σ},
    Trans.exec (fun s a => if p s a then step s a else none) s as = some s' → Trans.exec step s as = some s'
  | [], s, he => he
  | a :: as, s, he => by
    obtain ⟨m, hm, he⟩ := Option.bind_eq_some_iff.mp he
    simp only [Option.ite_none_right_eq_some] at hm
    exact Option.bind_eq_some_iff.mpr ⟨m, hm.2, exec_of_checked he⟩

end

abbrev Steps (r : σ → σ → Prop) : σ → σ → Prop := Relation.ReflTransGen r

theorem Steps.inv {r : σ → σ → Prop} {I : σ → Prop} (hr : ∀ a b, I a → r a b → I b) {a b : σ}
    (h : Steps r a b) (ha : I a) : I b := by
  induction h with
  | refl => exact ha
  | tail _ hbc ih => exact hr _ _ ih hbc

end Trans
