import Uthread.SimApi

/-!
# Runs follow the transitions

What holds initially and is kept by every transition holds in every state of
every run. The rule is stated for runs with a side condition on their steps,
under which no transition may abandon a thread.
-/

namespace Uthread

open Trans

variable {s : Sys} {ok : Sys → Action → Prop} {I : Abs → Prop}

def initAbs (clock : Nat → Nat) (epollFd : Fd) (avail : Fd × IoDir → Bool) : Abs :=
  (Sys.uthreadInit clock epollFd avail).abs (fun _ => []) [0]

theorem sim_init (clock : Nat → Nat) (epollFd : Fd) (avail : Fd × IoDir → Bool) :
    Sim (Sys.uthreadInit clock epollFd avail) (fun _ => []) [0] where
  rep :=
    { chain := fun i => by cases i <;> rfl
      tail := fun i _ => by cases i <;> rfl
      count := rfl
      glob := ⟨⟨rfl, rfl⟩, ⟨rfl, trivial⟩⟩ }
  inv :=
    { ok := ⟨fun _ => List.nodup_nil, fun h => by cases h⟩
      state := fun h => by cases h
      live := fun h => by cases h
      nodup := by simp [Sys.abs]
      lt := fun t ht => by cases List.mem_singleton.mp ht; exact Nat.zero_lt_one
      cur := by simp [Sys.abs, Sys.uthreadInit]
      ready := fun t _ h => by cases h
      blocked := fun t _ h => by cases h
      io := fun t _ h => by cases h
      reg := fun h => by cases h
      exits := fun t ht h => by
        cases List.mem_singleton.mp ht
        obtain ⟨f, hf, hx⟩ := h
        cases List.mem_singleton.mp hf
        cases hx
      prevs := fun t ht f hf => by
        cases List.mem_singleton.mp ht
        cases List.mem_singleton.mp hf
        exact .inl rfl
      seated := fun t ht => by
        cases List.mem_singleton.mp ht
        exact .singleton _
      own := ⟨rfl, fun t _ => rfl, fun t ht hc => absurd (List.mem_singleton.mp ht) hc⟩
      mutexes := fun _ _ => rfl
      sems := fun _ _ => rfl
      chans := fun _ => ⟨Iff.rfl, Iff.rfl, Iff.rfl⟩
      chanFrames := fun t ht f hf id hid => by
        cases List.mem_singleton.mp ht
        cases List.mem_singleton.mp hf
        cases hid }

theorem bd_init (clock : Nat → Nat) (epollFd : Fd) (avail : Fd × IoDir → Bool) : Bd (initAbs clock epollFd avail) :=
  .of_alive rfl rfl

/-- An invariant of the transitions holds in every state of every allowed run. -/
theorem run_inv (h0 : ∀ clock epollFd avail, I (initAbs clock epollFd avail))
    (hI : ∀ a b, Inv a → I a → Prim a b → (Abandons a b → ∃ s act, ok s act ∧ Bad s act) → I b)
    (h : Sys.RunOf ok s) : ∃ q g, Sim s q g ∧ Bd (s.abs q g) ∧ I (s.abs q g) := by
  induction h with
  | init h =>
    obtain ⟨clock, epollFd, avail, rfl⟩ := h
    exact ⟨_, _, sim_init .., bd_init .., h0 ..⟩
  | @step s act s' _ hok hst ih =>
    obtain ⟨q, g, hs, hb, hi⟩ := ih
    obtain ⟨q', g', hp, hs', hb'⟩ := hs.step hb hst
    have hboth : Inv (s'.abs q' g') ∧ I (s'.abs q' g') := by
      refine Steps.inv (fun a b (hab : Inv a ∧ I a) hp => ?_) hp ⟨hs.inv, hi⟩
      exact ⟨hp.1.inv hab.1, hI a b hab.1 hab.2 hp.1 fun hx => ⟨s, act, hok, hp.2 hx⟩⟩
    exact ⟨q', g', hs', hb', hboth.2⟩

theorem reachable_inv (h0 : ∀ clock epollFd avail, I (initAbs clock epollFd avail))
    (hI : ∀ a b, Inv a → I a → Prim a b → I b) (h : Sys.Reachable s) :
    ∃ q g, Sim s q g ∧ Bd (s.abs q g) ∧ I (s.abs q g) :=
  run_inv h0 (fun a b hi ha hp _ => hI a b hi ha hp) h

theorem reachable_sim (h : Sys.Reachable s) : ∃ q g, Sim s q g ∧ Bd (s.abs q g) := by
  obtain ⟨q, g, hs, hb, -⟩ := reachable_inv (I := fun _ => True) (fun _ _ _ => trivial) (fun _ _ _ _ _ => trivial) h
  exact ⟨q, g, hs, hb⟩

end Uthread
