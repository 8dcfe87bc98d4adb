import Uthread.Mn.Conserve

/-!
# Mutexes in M:N mode

`uthread_mutex_lock` tests and sets `locked` in two steps that nothing holds
together in this mode. Without races on the queues a mutex is exclusive as long
as no other virtual processor sets it in between, and no thread that waits for it
is lost.
-/

namespace Uthread

open Linked

def MnCall.unlocked : MnCall → Option MutexId
  | .mutexUnlock mu => some mu
  | _ => none

/-- A mutex is unlocked by a thread that holds it. -/
def HolderUnlocks (c : MnCore) (a : MnAct) : Prop :=
  c.pc a.vp = .user → ∀ mu ∈ a.call.unlocked, ∀ t ∈ c.current a.vp, t ∈ c.holders mu

instance (c : MnCore) (a : MnAct) : Decidable (HolderUnlocks c a) := by
  unfold HolderUnlocks
  infer_instance

def Pc.sets : Pc → Option MutexId
  | .lockSet mu => some mu
  | _ => none

/-- `locked` is set while it still is 0. -/
def SetWhileFree (c : MnCore) (a : MnAct) : Prop := ∀ mu ∈ (c.pc a.vp).sets, c.mutexLocked mu = 0

instance (c : MnCore) (a : MnAct) : Decidable (SetWhileFree c a) := by
  unfold SetWhileFree
  infer_instance

def UnlocksInOrder (c : MnCore) (a : MnAct) : Prop := HolderUnlocks c a ∧ Orderly c a

instance (c : MnCore) (a : MnAct) : Decidable (UnlocksInOrder c a) := inferInstanceAs (Decidable (_ ∧ _))

def SetsInOrder (c : MnCore) (a : MnAct) : Prop := UnlocksInOrder c a ∧ SetWhileFree c a

instance (c : MnCore) (a : MnAct) : Decidable (SetsInOrder c a) := inferInstanceAs (Decidable (_ ∧ _))

variable {s s' : Mn MnLinks} {m m' : Mn Lists} {a : MnAct} {t x : Ptr} {v : VpId} {mu : MutexId}
  {ok : MnCore → MnAct → Prop}

/-! ## Exclusion -/

def Pc.unlocks : Pc → Option MutexId
  | .unlockClear mu | .wakeRead (.mutex mu) | .pop (.mutex mu) _ => some mu
  | _ => none

theorem Pc.own_of_unlocks {pc : Pc} (h : pc.unlocks = some mu) : pc.own = some .held := by
  cases pc <;> first
    | rfl
    | cases h

structure Exclusive (m : Mn Lists) : Prop where
  free : ∀ {mu}, m.mutexLocked mu = 0 ↔ m.holders mu = []
  one : ∀ {mu}, (m.holders mu).length ≤ 1
  unlocking : ∀ {v t mu}, (m.pc v).unlocks = some mu → m.current v = some t → t ∈ m.holders mu

namespace Exclusive

theorem sole (h : Exclusive m) (ht : t ∈ m.holders mu) : m.holders mu = [t] := by
  have hone : (m.holders mu).length ≤ 1 := h.one
  match hx : m.holders mu with
  | [] =>
    rw [hx] at ht
    cases ht
  | [x] =>
    rw [hx] at ht
    obtain rfl : t = x := by simpa using ht
    rfl
  | x :: y :: xs =>
    rw [hx] at hone
    simp at hone

theorem of_same (h : Exclusive m) (hl : m'.mutexLocked = m.mutexLocked) (hh : m'.holders = m.holders)
    (hu : ∀ u, u ≠ v → (m'.pc u = m.pc u ∨ m'.pc u = .test) ∧ m'.current u = m.current u ∧ m'.pos u = m.pos u)
    (hv : ∀ mu t, (m'.pc v).unlocks = some mu → m'.current v = some t → t ∈ m.holders mu) : Exclusive m' where
  free := by
    rw [hl, hh]
    exact h.free
  one := by
    rw [hh]
    exact h.one
  unlocking {u t mu} hp hc := by
    rw [hh]
    by_cases huv : u = v
    · subst huv
      exact hv mu t hp hc
    · obtain ⟨he | he, hcu, -⟩ := hu u huv
      · rw [he] at hp
        rw [hcu] at hc
        exact h.unlocking hp hc
      · rw [he] at hp
        cases hp

theorem release {l : List Ptr} {n : Int} (h : Exclusive m) (hp : Placed m) (ht : t ∈ m.places (.hand .held v))
    (hm : t ∈ m.holders mu) (hone : l.length ≤ 1) (hfree : n = 0 ↔ l = [])
    (hl : m'.mutexLocked = Function.update m.mutexLocked mu n) (hh : m'.holders = Function.update m.holders mu l)
    (hu : ∀ u, u ≠ v → (m'.pc u = m.pc u ∨ m'.pc u = .test) ∧ m'.current u = m.current u ∧ m'.pos u = m.pos u)
    (hv : (m'.pc v).unlocks = none) : Exclusive m' where
  free {mu'} := by
    rw [hl, hh]
    by_cases hx : mu' = mu
    · subst hx
      simpa using hfree
    · simpa [hx] using h.free
  one {mu'} := by
    rw [hh]
    by_cases hx : mu' = mu
    · subst hx
      simpa using hone
    · simpa [hx] using h.one
  unlocking {u x mu'} hpu hc := by
    by_cases huv : u = v
    · subst huv
      rw [hv] at hpu
      cases hpu
    · obtain ⟨he | he, hcu, -⟩ := hu u huv
      · rw [he] at hpu
        rw [hcu] at hc
        have hx := h.unlocking hpu hc
        by_cases hmu : mu' = mu
        · -- then `u` executes the holder as well
          subst hmu
          rw [h.sole hm] at hx
          obtain rfl : x = t := by simpa using hx
          have hd := hp.apart.disj (Mn.mem_own rfl (Pc.own_of_unlocks hpu) hc) ht
          cases hd
          exact absurd rfl huv
        · rw [hh]
          simpa [hmu] using hx
      · rw [he] at hpu
        cases hpu

theorem userStep (h : Exclusive m) (hok : HolderUnlocks m.toMnCore a) (hpc : m.pc a.vp = .user) (hs : UserStep m a m') :
    Exclusive m' := by
  have hu : ∀ u, u ≠ a.vp → (m'.pc u = m.pc u ∨ m'.pc u = .test) ∧ m'.current u = m.current u ∧ m'.pos u = m.pos u := by
    intro u hu
    obtain ⟨h₁, h₂⟩ := Mn.user_others hs hu
    exact ⟨.inl h₁, h₂⟩
  have hholder : ∀ {mu t}, a.call = .mutexUnlock mu → m.current a.vp = some t → t ∈ m.holders mu := by
    intro mu t hk hc
    exact hok hpc mu (by rw [hk]; rfl) t hc
  cases hs with
  | @unlockWake x mu hc hk | @unlock x mu hc hk =>
    refine h.of_same rfl rfl hu ?_
    intro mu' t hx hcx
    have hmu : mu = mu' := by simpa [Pc.unlocks] using hx
    subst hmu
    exact hholder hk hcx
  | _ =>
    refine h.of_same rfl rfl hu ?_
    intro mu t hx
    simp [Pc.unlocks] at hx

theorem loopStep (h : Exclusive m) (hp : Placed m) (hok : SetWhileFree m.toMnCore a) (hs : LoopStep m a m') : Exclusive m' := by
  have hu : ∀ u, u ≠ a.vp → (m'.pc u = m.pc u ∨ m'.pc u = .test) ∧ m'.current u = m.current u ∧ m'.pos u = m.pos u :=
    fun u => Mn.loop_started_other hs
  cases hs with
  | @lockSet t mu hpc hc =>
    have hfree : m.holders mu = [] := h.free.mp (hok mu (by rw [hpc]; rfl))
    constructor
    · intro mu'
      by_cases hx : mu' = mu
      · subst hx
        simp
      · simpa [hx] using h.free
    · intro mu'
      by_cases hx : mu' = mu
      · subst hx
        simp [hfree]
      · simpa [hx] using h.one
    · intro u x mu' hpu hcu
      by_cases huv : u = a.vp
      · subst huv
        simp [Pc.unlocks] at hpu
      · have hm : x ∈ m.holders mu' := h.unlocking (by simpa [huv] using hpu : (m.pc u).unlocks = _) hcu
        by_cases hx : mu' = mu
        · subst hx
          rw [hfree] at hm
          cases hm
        · simpa [hx] using hm
  | @unlockClear t mu hpc hc =>
    have hm := h.unlocking (by rw [hpc]; rfl) hc
    apply h.release (l := []) (n := 0) hp (Mn.mem_own hpc rfl hc) hm _ _ _ _ hu
    · simp [Pc.unlocks]
    · simp
    · simp
    · simp
    · simp [h.sole hm]
  | @wakeRead w x ts hpc =>
    refine h.of_same rfl rfl hu ?_
    intro mu t hx hc
    cases w with
    | mutex mu' =>
      obtain rfl : mu' = mu := by simpa [Pc.unlocks] using hx
      exact h.unlocking (by rw [hpc]; rfl) hc
    | sem sm => simp [Pc.unlocks] at hx
  | @pop w x ts hpc hq hcn =>
    obtain ⟨t, hc⟩ := Option.ne_none_iff_exists'.mp hcn
    cases w with
    | mutex mu =>
      have hm := h.unlocking (by rw [hpc]; rfl) hc
      apply h.release (l := [x]) (n := m.mutexLocked mu) hp (Mn.mem_own hpc rfl hc) hm _ _ _ _ hu
      · simp [Pc.unlocks]
      · simp
      · have hne : m.holders mu ≠ [] := List.ne_nil_of_mem hm
        simp [h.free, hne]
      · simp
      · simp [hc, h.sole hm]
    | sem sm =>
      refine h.of_same rfl (by simp) hu ?_
      intro mu t hx
      simp [Pc.unlocks] at hx
  | @createFail ok hpc => cases ok <;> exact h.of_same rfl rfl hu (by simp [MnCore.allocTcb, Pc.unlocks])
  | readyEmpty => exact h.of_same rfl rfl hu (by split <;> simp [Pc.unlocks])
  | halt => exact h.of_same rfl rfl hu (by unfold Mn.leave; split <;> simp [Pc.unlocks])
  | dead => exact h.of_same rfl rfl hu (by unfold Mn.leave; split <;> simp [Pc.unlocks])
  | _ => exact h.of_same rfl rfl hu (by simp [MnCore.allocTcb, Pc.unlocks])

end Exclusive

theorem StartLists.exclusive (h : StartLists m) : Exclusive m := by
  have hpc := h.control
  obtain ⟨n, k, sem, tr, hn, hc, -⟩ := h
  constructor
  · intro mu
    rw [hc]
    simp [loaded, initMn]
  · intro mu
    rw [hc]
    simp [loaded, initMn]
  · intro v t mu hv
    rw [hpc] at hv
    by_cases h0 : v = 0 <;> simp [h0, Pc.unlocks] at hv

theorem ListRun.exclusive (h : ListRun SetsInOrder m) : Exclusive m := by
  apply ListRun.inv _ _ _ h
  · exact fun m => StartLists.exclusive
  · intro m a m' hsd he hok hpc hu
    have he' : Exclusive (m.on (.beginCall a.vp)) := ⟨he.free, he.one, he.unlocking⟩
    exact he'.userStep hok.1.1 hpc hu
  · intro m a m' hsd he hok hs
    exact he.loopStep hsd.placed hok.2 hs

/-! ## Waiting threads -/

def Pc.brings : Pc → Option Ptr
  | .wakeMark t | .wakeTrace t | .enqRead t | .wakeEnq t _ | .dispatch t | .dispatchTrace t | .switchIn t => some t
  | _ => none

def Waking (m : Mn Lists) (t : Ptr) : Prop := t ∈ m.q.q (.shared .ready) ∨ ∃ v, (m.pc v).brings = some t

/-- A thread blocked in `uthread_mutex_lock` is in the wait queue, or holds the mutex and is on its way. -/
def Waiting (m : Mn Lists) : Prop :=
  ∀ t mu, m.lockWait t = some mu → t ∈ m.q.q (.shared (.wait (.mutex mu))) ∨ t ∈ m.holders mu ∧ Waking m t

theorem Sound.brings (h : Sound m) (hv : (m.pc v).brings = some t) :
    ∃ k, t ∈ m.places (.hand k v) ∧ (k = .held → m.pc v = .dispatchTrace t ∨ m.pc v = .switchIn t) := by
  cases hpc : m.pc v with
  | wakeMark x =>
    rw [hpc] at hv
    obtain rfl := Option.some.inj hv
    exact ⟨.popped, Mn.mem_popped hpc, by simp⟩
  | wakeTrace x | enqRead x | wakeEnq x =>
    rw [hpc] at hv
    obtain rfl := Option.some.inj hv
    exact ⟨.pend, Mn.mem_pend (by rw [hpc]; exact List.mem_singleton_self _), by simp⟩
  | dispatch x =>
    rw [hpc] at hv
    obtain rfl := Option.some.inj hv
    exact ⟨.taken, Mn.mem_taken hpc, by simp⟩
  | dispatchTrace x =>
    rw [hpc] at hv
    obtain rfl := Option.some.inj hv
    exact ⟨.held, Mn.mem_own hpc rfl (h.switching v x (.inl hpc)), fun _ => .inl rfl⟩
  | switchIn x =>
    rw [hpc] at hv
    obtain rfl := Option.some.inj hv
    exact ⟨.held, h.switched hpc, fun _ => .inr rfl⟩
  | _ =>
    rw [hpc] at hv
    cases hv

theorem Waking.ne_running {pc : Pc} (h : Waking m t) (hsd : Sound m) (hpc : m.pc v = pc) (hown : pc.own = some .held)
    (hsw : ∀ t, pc ≠ .dispatchTrace t ∧ pc ≠ .switchIn t) (hc : m.current v = some x) : t ≠ x := by
  intro e
  subst e
  have hheld := Mn.mem_own hpc hown hc
  rcases h with hr | ⟨u, hu⟩
  · have hd := hsd.placed.apart.disj hheld (j := .queue (.shared .ready)) hr
    cases hd
  · obtain ⟨k, hk, hx⟩ := hsd.brings hu
    have hd := hsd.placed.apart.disj hheld hk
    cases hd
    rcases hx rfl with hx | hx
    · exact (hsw t).1 (hpc.symm.trans hx)
    · exact (hsw t).2 (hpc.symm.trans hx)

theorem Waiting.userStep (h : Waiting m) (hpc : m.pc a.vp = .user) (hs : UserStep m a m') : Waiting m' := by
  intro t mu ht
  have hlw : m.lockWait t = some mu := by cases hs <;> exact ht
  rcases h t mu hlw with hq | ⟨hm, hr | ⟨v, hv⟩⟩
  · left
    rwa [user_shared hs]
  · refine .inr ⟨by cases hs <;> exact hm, .inl ?_⟩
    rwa [user_shared hs]
  · have hva : v ≠ a.vp := by
      intro e
      rw [e, hpc] at hv
      cases hv
    exact .inr ⟨by cases hs <;> exact hm, .inr ⟨v, by rwa [(Mn.user_others hs hva).1]⟩⟩

theorem Waking.loopStep (h : Waking m t) (hb : Booted m) (hs : LoopStep m a m') (hsw : m.pc a.vp ≠ .switchIn t) :
    Waking m' t := by
  rcases h with hr | ⟨v, hv⟩
  · cases hs with
    | @ready x ts hpc hq =>
      rw [hq] at hr
      rcases List.mem_cons.mp hr with rfl | hr
      · exact .inr ⟨a.vp, by simp [Pc.brings]⟩
      · exact .inl (by simpa using hr)
    | @createFail ok _ =>
      left
      cases ok <;> exact hr
    | _ =>
      left
      simp [Mn.leave, Mn.gcFinishedThreads, MnCore.allocTcb, Lists.push, RunQueues.gc, RunQueues.globalListAdd, hr]
  · by_cases hva : v = a.vp
    · subst hva
      cases hs with
      | wakeEnq hpc =>
        rw [hpc] at hv
        obtain rfl := Option.some.inj hv
        exact .inl (by simp [Lists.push])
      | wakeMark hpc | wakeTrace hpc | enqRead hpc | dispatch hpc | dispatchTrace hpc =>
        rw [hpc] at hv
        obtain rfl := Option.some.inj hv
        exact .inr ⟨a.vp, by simp [Pc.brings]⟩
      | switchIn hpc =>
        rw [hpc] at hv hsw
        obtain rfl := Option.some.inj hv
        exact absurd rfl hsw
      | deq hpc => rcases hpc with hpc | hpc <;> simp [hpc, Pc.brings] at hv
      | _ hpc => simp [hpc, Pc.brings] at hv
    · right
      refine ⟨v, ?_⟩
      rcases (hb.others hs hva).1 with he | ⟨he, -⟩
      · rwa [he]
      · simp [he, Pc.brings] at hv

/-- A step marks the thread that it appends to a wait queue, and none that it switches into. -/
theorem loop_lockWait (hs : LoopStep m a m') (ht : m'.lockWait t = some mu) :
    t ∈ m'.q.q (.shared (.wait (.mutex mu))) ∨ m.lockWait t = some mu ∧ m.pc a.vp ≠ .switchIn t := by
  cases hs with
  | @append x w tl hpc hc =>
    by_cases htx : w = .mutex mu ∧ t = x
    · obtain ⟨rfl, rfl⟩ := htx
      left
      simp [Lists.push]
    · refine .inr ⟨?_, by simp [hpc]⟩
      cases w with
      | sem sm => exact ht
      | mutex mu' =>
        by_cases he : t = x
        · subst he
          obtain rfl : mu' = mu := by simpa using ht
          exact absurd ⟨rfl, rfl⟩ htx
        · simpa [he] using ht
  | @switchIn x hpc =>
    right
    by_cases htx : t = x
    · subst htx
      simp at ht
    · exact ⟨by simpa [htx] using ht, by simp [hpc, Ne.symm htx]⟩
  | @createFail ok hpc =>
    refine .inr ⟨?_, by simp [hpc]⟩
    cases ok with
    | true => exact ht
    | false =>
      by_cases hta : t = a.addr
      · simp [MnCore.allocTcb, hta] at ht
      · simpa [MnCore.allocTcb, hta] using ht
  | createTcb hpc =>
    refine .inr ⟨?_, by simp [hpc]⟩
    by_cases hta : t = a.addr
    · simp [MnCore.allocTcb, hta] at ht
    · simpa [MnCore.allocTcb, hta] using ht
  | deq hpc => rcases hpc with hpc | hpc <;> exact .inr ⟨ht, by simp [hpc]⟩
  | _ hpc => exact .inr ⟨ht, by simp [hpc]⟩

/-- A thread leaves the wait queue of a mutex only for the hands of the virtual processor that passes the mutex on. -/
theorem loop_waiter (hs : LoopStep m a m') (hq : t ∈ m.q.q (.shared (.wait (.mutex mu)))) :
    t ∈ m'.q.q (.shared (.wait (.mutex mu))) ∨ t ∈ m'.holders mu ∧ Waking m' t := by
  cases hs with
  | @createFail ok _ => cases ok <;> exact .inl hq
  | @append x w tl =>
    left
    by_cases hw : w = .mutex mu
    · subst hw
      simp [Lists.push, hq]
    · simpa [Lists.push, Ne.symm hw] using hq
  | @pop w x ts hpc hx hcn =>
    obtain ⟨u, hc⟩ := Option.ne_none_iff_exists'.mp hcn
    by_cases hw : w = .mutex mu
    · subst hw
      rw [hx] at hq
      rcases List.mem_cons.mp hq with rfl | hq
      · exact .inr ⟨by simp [hc], .inr ⟨a.vp, by simp [Pc.brings]⟩⟩
      · left
        simpa using hq
    · left
      simpa [Ne.symm hw] using hq
  | _ =>
    left
    simpa [Mn.leave, Mn.gcFinishedThreads, MnCore.allocTcb, Lists.push, RunQueues.gc, RunQueues.globalListAdd] using hq

/-- On its way back a thread keeps the mutex: it is another thread that unlocks. -/
theorem Waking.holds (h : Waking m t) (hsd : Sound m) (hs : LoopStep m a m') (hm : t ∈ m.holders mu) : t ∈ m'.holders mu := by
  cases hs with
  | @unlockClear x mu' hpc hc =>
    have htx := h.ne_running hsd hpc rfl (by simp) hc
    by_cases hmu : mu = mu'
    · subst hmu
      have he : t ∈ (m.holders mu).erase x := (List.mem_erase_of_ne htx).mpr hm
      simpa using he
    · simpa [hmu] using hm
  | @pop w x ts hpc hx hcn =>
    obtain ⟨u, hc⟩ := Option.ne_none_iff_exists'.mp hcn
    cases w with
    | sem sm => simpa [hc] using hm
    | mutex mu' =>
      have htu := h.ne_running hsd hpc rfl (by simp) hc
      by_cases hmu : mu = mu'
      · subst hmu
        have he : t ∈ (m.holders mu).erase u := (List.mem_erase_of_ne htu).mpr hm
        simp [hc, he]
      · simpa [hc, hmu] using hm
  | @lockSet x mu' =>
    by_cases hmu : mu = mu'
    · subst hmu
      simp [hm]
    · simpa [hmu] using hm
  | @createFail ok _ => cases ok <;> exact hm
  | _ => exact hm

theorem Waiting.loopStep (h : Waiting m) (hsd : Sound m) (hs : LoopStep m a m') : Waiting m' := by
  intro t mu ht
  rcases loop_lockWait hs ht with hq | ⟨hlw, hsw⟩
  · exact .inl hq
  · rcases h t mu hlw with hq | ⟨hm, hk⟩
    · exact loop_waiter hs hq
    · exact .inr ⟨hk.holds hsd hs hm, hk.loopStep hsd.booted hs hsw⟩

theorem ListRun.waiting (h : ListRun ok m) : Waiting m := by
  apply ListRun.inv _ _ _ h
  · intro m hm t mu ht
    obtain ⟨n, k, sem, tr, hn, hc, -⟩ := hm
    rw [hc] at ht
    cases ht
  · intro m a m' hsd hw _ hpc hu
    exact Waiting.userStep (m := m.on (.beginCall a.vp)) hw hpc hu
  · intro m a m' hsd hw _ hs
    exact hw.loopStep hsd hs

/-! ## On the links -/

def Mn.waiters (s : Mn MnLinks) (mu : MutexId) : List Ptr := s.chain (s.q.waitHead (.mutex mu))

theorem Refines.kept (h : Refines s m) (hm : ListRun ok m) (ht : s.lockWait t = some mu) : t ∈ s.waiters mu ∨
    t ∈ s.holders mu ∧ (t ∈ s.readyThreads ∨ ∃ v k, t ∈ (s.pc v).hand (s.current v) k) := by
  have hsd := ListRun.sound hm
  have hp := hsd.placed
  have hw : s.waiters mu = m.q.q (.shared (.wait (.mutex mu))) := by
    apply walk_eq (h.q.shared.chain (.wait (.mutex mu)))
    rw [show s.brk = m.brk by rw [h.core]]
    exact hp.length_le
  rw [hw, h.readyThreads hp]
  rw [h.core] at ht ⊢
  rcases hm.waiting t mu ht with hq | ⟨hh, hr | ⟨v, hv⟩⟩
  · exact .inl hq
  · exact .inr ⟨hh, .inl hr⟩
  · obtain ⟨k, hk, -⟩ := hsd.brings hv
    exact .inr ⟨hh, .inr ⟨v, k, hk⟩⟩

end Uthread
