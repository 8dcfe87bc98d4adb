import Uthread.Mn.Refine

/-!
# Runs without races

Waiting and waking work on wait queues and on the ready queue without a lock.
As long as no other virtual processor works on the same queue meanwhile, what
such an operation has read is still so when it goes on, and the machine on
links refines the machine on lists.
-/

namespace Uthread

/-- Behind its load of `wait_head` or `wait_tail`, inside an operation on the wait queue of `w`. -/
def Pc.onWait (w : WaitObj) : Pc → Bool
  | .append w' _ | .pop w' _ => w' = w
  | _ => false

/-- Behind its load of `ready_tail`, inside an `enqueue` without `ready_lock`. -/
def Pc.onReady : Pc → Bool
  | .wakeEnq _ _ => true
  | _ => false

/-- No other virtual processor is inside such an operation on the queue that the step changes, and `mn_yield` does
not find a thread that has blocked RUNNING again. -/
def Orderly (c : MnCore) (a : MnAct) : Prop :=
  match c.pc a.vp with
  | .append w _ | .pop w _ => ∀ v < c.numVps, v ≠ a.vp → (c.pc v).onWait w = false
  | .createEnq _ | .wakeEnq _ _ | .ready => ∀ v < c.numVps, v ≠ a.vp → (c.pc v).onReady = false
  | .yieldTest => ∀ t ∈ c.current a.vp, c.state t ≠ .running
  | _ => True

instance (c : MnCore) (a : MnAct) : Decidable (Orderly c a) := by
  unfold Orderly
  split <;> infer_instance

variable {ok : MnCore → MnAct → Prop} {s s' : Mn MnLinks} {m m' : Mn Lists} {a : MnAct} {u v : VpId} {t x : Ptr} {w : WaitObj}
  {tl : Option Ptr}

/-- What a virtual processor has read of a queue and goes on to rely on is still so. -/
structure Current (m : Mn Lists) : Prop where
  append : ∀ {v w tl}, m.pc v = .append w tl → (m.q.q (.shared (.wait w))).getLast? = tl
  pop : ∀ {v w x}, m.pc v = .pop w x → (m.q.q (.shared (.wait w))).head? = some x
  enqueue : ∀ {v x tl}, m.pc v = .wakeEnq x tl → (m.q.q (.shared .ready)).getLast? = tl

theorem user_shared (h : UserStep m a m') (i : QId) : m'.q.q (.shared i) = m.q.q (.shared i) := by
  cases h <;> simp [Mn.gcFinishedThreads, RunQueues.gc]

theorem loop_wait (h : LoopStep m a m') (w : WaitObj) :
    m'.q.q (.shared (.wait w)) = m.q.q (.shared (.wait w)) ∨ (m.pc a.vp).onWait w = true := by
  cases h with
  | @createFail ok _ => cases ok <;> exact .inl rfl
  | @append t w' tl hpc =>
    by_cases hw : w' = w
    · right
      simp [hpc, Pc.onWait, hw]
    · left
      simp [Lists.push, Ne.symm hw]
  | @pop w' x ts hpc =>
    by_cases hw : w' = w
    · right
      simp [hpc, Pc.onWait, hw]
    · left
      simp [Ne.symm hw]
  | halt => unfold Mn.leave; split <;> exact .inl rfl
  | dead => unfold Mn.leave; split <;> exact .inl rfl
  | _ => exact .inl (by simp [MnCore.allocTcb, Lists.push, Mn.gcFinishedThreads, RunQueues.gc, RunQueues.globalListAdd])

theorem loop_ready (h : LoopStep m a m') : m'.q.q (.shared .ready) = m.q.q (.shared .ready) ∨
    (∃ t, m.pc a.vp = .createEnq t) ∨ (∃ t tl, m.pc a.vp = .wakeEnq t tl) ∨ m.pc a.vp = .ready := by
  cases h with
  | @createFail ok _ => cases ok <;> exact .inl rfl
  | createEnq hpc => exact .inr (.inl ⟨_, hpc⟩)
  | wakeEnq hpc => exact .inr (.inr (.inl ⟨_, _, hpc⟩))
  | ready hpc => exact .inr (.inr (.inr hpc))
  | halt => unfold Mn.leave; split <;> exact .inl rfl
  | dead => unfold Mn.leave; split <;> exact .inl rfl
  | _ => exact .inl (by simp [MnCore.allocTcb, Lists.push, Mn.gcFinishedThreads, RunQueues.gc, RunQueues.globalListAdd])

theorem Orderly.wait_kept (h : Orderly m.toMnCore a) (hs : LoopStep m a m') (hu : u ≠ a.vp) (hn : u < m.numVps)
    (hw : (m.pc u).onWait w = true) : m'.q.q (.shared (.wait w)) = m.q.q (.shared (.wait w)) := by
  refine (loop_wait hs w).resolve_right fun hon => ?_
  have hno : ∀ v < m.numVps, v ≠ a.vp → (m.pc v).onWait w = false := by
    unfold Orderly at h
    cases hpc : m.pc a.vp <;> rw [hpc] at h hon <;> simp only [Pc.onWait, decide_eq_true_eq, Bool.false_eq_true] at hon
    · rw [hon] at h
      exact h
    · rw [hon] at h
      exact h
  rw [hno u hn hu] at hw
  cases hw

theorem Orderly.ready_kept (h : Orderly m.toMnCore a) (hs : LoopStep m a m') (hu : u ≠ a.vp) (hn : u < m.numVps)
    (hw : (m.pc u).onReady = true) : m'.q.q (.shared .ready) = m.q.q (.shared .ready) := by
  refine (loop_ready hs).resolve_right fun hon => ?_
  have hno : ∀ v < m.numVps, v ≠ a.vp → (m.pc v).onReady = false := by
    unfold Orderly at h
    rcases hon with ⟨t, hpc⟩ | ⟨t, tl, hpc⟩ | hpc
    · rw [hpc] at h
      exact h
    · rw [hpc] at h
      exact h
    · rw [hpc] at h
      exact h
  rw [hno u hn hu] at hw
  cases hw

namespace Current

theorem userStep (h : Current m) (hs : UserStep m a m') : Current m' := by
  have hpc : ∀ {u pc}, m'.pc u = pc → pc.onReady = true ∨ (∃ w, pc.onWait w = true) → m.pc u = pc := by
    intro u pc hu hon
    by_cases hua : u = a.vp
    · subst hua
      subst hu
      cases hs <;> simp [Pc.onReady, Pc.onWait] at hon
    · rwa [(Mn.user_others hs hua).1] at hu
  constructor
  · intro v w tl hv
    rw [user_shared hs]
    exact h.append (hpc hv (.inr ⟨w, by simp [Pc.onWait]⟩))
  · intro v w x hv
    rw [user_shared hs]
    exact h.pop (hpc hv (.inr ⟨w, by simp [Pc.onWait]⟩))
  · intro v x tl hv
    rw [user_shared hs]
    exact h.enqueue (hpc hv (.inl rfl))

theorem loop_reads (hs : LoopStep m a m') :
    (∀ w tl, m'.pc a.vp = .append w tl → m.pc a.vp = .appendRead w ∧ tl = (m.q.q (.shared (.wait w))).getLast?) ∧
    (∀ w x, m'.pc a.vp = .pop w x → m.pc a.vp = .wakeRead w ∧ (m.q.q (.shared (.wait w))).head? = some x) ∧
    ∀ x tl, m'.pc a.vp = .wakeEnq x tl → m.pc a.vp = .enqRead x ∧ tl = (m.q.q (.shared .ready)).getLast? := by
  cases hs with
  | @createFail ok _ => cases ok <;> simp [MnCore.allocTcb]
  | appendRead hpc => simp +contextual [hpc]
  | wakeRead hpc hq => simp +contextual [hpc, hq]
  | enqRead hpc => simp +contextual [hpc]
  | readyEmpty => split <;> simp
  | halt => unfold Mn.leave; split <;> simp
  | dead => unfold Mn.leave; split <;> simp
  | _ => simp [MnCore.allocTcb]

theorem loopStep (h : Current m) (hb : Booted m) (hok : Orderly m.toMnCore a) (hs : LoopStep m a m') : Current m' := by
  obtain ⟨happend, hpop, henq⟩ := loop_reads hs
  have hother : ∀ {u pc}, u ≠ a.vp → m'.pc u = pc → pc ≠ .test → m.pc u = pc ∧ (pc ≠ .off → u < m.numVps) := by
    intro u pc hu hpc hne
    rcases (Mn.loop_started_other hs hu).1 with he | he
    · rw [he] at hpc
      refine ⟨hpc, fun hoff => ?_⟩
      by_contra hlt
      exact hoff (hpc.symm.trans (hb.range (Nat.le_of_not_lt hlt)))
    · exact absurd (hpc.symm.trans he) hne
  have hread : ∀ {pc : Pc} {w}, m.pc a.vp = pc → pc.onWait w = false →
      m'.q.q (.shared (.wait w)) = m.q.q (.shared (.wait w)) := by
    intro pc w hpc hno
    refine (loop_wait hs w).resolve_right fun hon => ?_
    rw [hpc, hno] at hon
    cases hon
  constructor
  · intro v w tl hv
    by_cases hva : v = a.vp
    · subst hva
      obtain ⟨hpc, rfl⟩ := happend w tl hv
      rw [hread hpc rfl]
    · obtain ⟨hpc, hn⟩ := hother hva hv (by simp)
      rw [hok.wait_kept hs hva (hn (by simp)) (by simp [hpc, Pc.onWait])]
      exact h.append hpc
  · intro v w x hv
    by_cases hva : v = a.vp
    · subst hva
      obtain ⟨hpc, hx⟩ := hpop w x hv
      rw [hread hpc rfl]
      exact hx
    · obtain ⟨hpc, hn⟩ := hother hva hv (by simp)
      rw [hok.wait_kept hs hva (hn (by simp)) (by simp [hpc, Pc.onWait])]
      exact h.pop hpc
  · intro v x tl hv
    by_cases hva : v = a.vp
    · subst hva
      obtain ⟨hpc, rfl⟩ := henq x tl hv
      have hkept := (loop_ready hs).resolve_right (by simp [hpc])
      rw [hkept]
    · obtain ⟨hpc, hn⟩ := hother hva hv (by simp)
      rw [hok.ready_kept hs hva (hn (by simp)) (by simp [hpc, Pc.onReady])]
      exact h.enqueue hpc

theorem timely (h : Current m) (hok : Orderly m.toMnCore a) : m.Timely a.vp := by
  unfold Mn.Timely
  unfold Orderly at hok
  cases hpc : m.pc a.vp with
  | append w tl => exact h.append hpc
  | pop w x => exact h.pop hpc
  | wakeEnq x tl => exact h.enqueue hpc
  | yieldTest =>
    rw [hpc] at hok
    exact hok
  | _ => trivial

end Current

theorem StartLists.current (h : StartLists m) : Current m := by
  constructor
  · intro v w tl hv
    rw [h.control] at hv
    by_cases h0 : v = 0 <;> simp [h0] at hv
  · intro v w x hv
    rw [h.control] at hv
    by_cases h0 : v = 0 <;> simp [h0] at hv
  · intro v x tl hv
    rw [h.control] at hv
    by_cases h0 : v = 0 <;> simp [h0] at hv

theorem ListRun.current (hk : ∀ c a, ok c a → Orderly c a) (h : ListRun ok m) : Current m := by
  apply ListRun.inv _ _ _ h
  · exact fun m => StartLists.current
  · intro m a m' _ hc _ _ hu
    have hc' : Current (m.on (.beginCall a.vp)) := ⟨hc.append, hc.pop, hc.enqueue⟩
    exact hc'.userStep hu
  · intro m a m' hsd hc hok hl
    exact hc.loopStep hsd.booted (hk _ _ hok) hl

/-- What the runtime reaches without races represents what the machine on lists reaches. -/
theorem MnRun.lists (hk : ∀ c a, ok c a → Orderly c a) (h : MnRun ok s) : ∃ m, ListRun ok m ∧ Refines s m := by
  induction h with
  | @init s h =>
    obtain ⟨n, k, sem, tr, q, hn, hc, hq, hsp⟩ := h
    exact ⟨{ s with q }, .init ⟨n, k, sem, tr, hn, hc, hsp⟩, rfl, hq⟩
  | step _ hok hs ih =>
    obtain ⟨m, hm, hr⟩ := ih
    rw [hr.core] at hok
    have ht := (ListRun.current hk hm).timely (hk _ _ hok)
    obtain ⟨m', hs', hr'⟩ := hr.step (ListRun.sound hm).placed ht hs
    exact ⟨m', .step hm ⟨ht, hok⟩ hs', hr'⟩

theorem MnRun.lift (hk : ∀ c a, ok c a → Orderly c a) (h : MnRun ok s) (ho : Orderly s.toMnCore a) (hs : s.step a = some s') :
    ∃ m m', ListRun ok m ∧ Refines s m ∧ m.Timely a.vp ∧ m.step a = some m' ∧ Refines s' m' := by
  obtain ⟨m, hm, hr⟩ := MnRun.lists hk h
  rw [hr.core] at ho
  have ht := (ListRun.current hk hm).timely ho
  obtain ⟨m', hs', hr'⟩ := hr.step (ListRun.sound hm).placed ht hs
  exact ⟨m, m', hm, hr, ht, hs', hr'⟩

end Uthread
