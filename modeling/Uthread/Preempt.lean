import Uthread.Reclaim

/-!
# No thread is lost

As long as no idle loop dispatches another thread for a thread that is RUNNING
again, only the current thread is RUNNING, and every other thread that has not
finished is where the scheduler looks for it.
-/

namespace Uthread

open Linked

variable {a b : Abs} {s : Sys}

def SoleRunner (a : Abs) : Prop := ∀ t ∈ a.glob, a.tcb.state t = .running → t = a.currentThread

theorem SoleRunner.of_state (h : SoleRunner a) (hcur : b.currentThread = a.currentThread)
    (hstate : ∀ t ∈ b.glob, b.tcb.state t = .running → t ∈ a.glob ∧ a.tcb.state t = .running) : SoleRunner b := by
  intro t ht hr
  obtain ⟨hg, hr⟩ := hstate t ht hr
  rw [hcur]
  exact h t hg hr

theorem SoleRunner.of_update (h : SoleRunner a) {x : Ptr} {st : TState} (hst : st ≠ .running)
    (hcur : b.currentThread = a.currentThread) (hglob : b.glob = a.glob)
    (hstate : b.tcb.state = Function.update a.tcb.state x st) : SoleRunner b := by
  refine h.of_state hcur fun t ht hr => ?_
  rw [hglob] at ht
  rw [hstate] at hr
  by_cases htx : t = x
  · subst htx
    rw [Function.update_self] at hr
    exact absurd hr hst
  · rw [Function.update_of_ne htx] at hr
    exact ⟨ht, hr⟩

theorem Prim.soleRunner (hi : Inv a) (h : SoleRunner a) (hp : Prim a b) (hx : ¬ Abandons a b) : SoleRunner b := by
  cases hp with
  | quiet hq => cases hq <;> exact h
  | tick | leave | sleepRet | ioRet | createRet | traceOn | avail | errno | move | mutexInit | semInit | chanInit | lock |
    wait | unlock | post => exact h
  | reap => exact h.of_state rfl fun t ht hr => ⟨List.mem_of_mem_erase ht, hr⟩
  | ioWake | sleepWake | preempt | block | unlockHandoff | postHandoff | sleep | ioBlock | finish =>
    exact h.of_update (by simp) rfl rfl rfl
  | @switch u hp hf =>
    intro t ht hr
    by_cases htu : t = u
    · exact htu
    · -- another RUNNING thread would be the one that is switched from
      rw [switch_state_ne htu] at hr
      have htc := h t ht hr
      subst htc
      exact absurd ⟨hr, fun he => htu he.symm⟩ hx
  | create =>
    refine h.of_state rfl fun t ht hr => ?_
    rcases List.mem_cons.mp ht with rfl | ht
    · rw [create_state_self] at hr; cases hr
    · rw [create_state_ne (hi.lt t ht).ne] at hr
      exact ⟨ht, hr⟩
  | createFail =>
    refine h.of_state rfl fun t ht hr => ⟨ht, ?_⟩
    change Function.update a.tcb.state a.brk .ready t = .running at hr
    rwa [Function.update_of_ne (hi.lt t ht).ne] at hr
  | chan hr hid hc => cases hc <;> exact h

structure Present (s : Sys) (q : QId → List Ptr) (g : List Ptr) : Prop where
  glob : Chain s.lk.globalNext s.lk.globalThreadList g
  chain : ∀ i, Chain s.lk.next (s.lk.head i) (q i)
  created : ∀ t, .created t ∈ s.log → .finished t ∉ s.log → t ∈ g
  running : ∀ t ∈ g, s.tcb.state t = .running → t = s.currentThread
  place : ∀ t ∈ g, t ≠ s.currentThread → s.tcb.state t ≠ .finished →
    s.tcb.state t = .ready ∧ t ∈ q .ready ∨
      s.tcb.state t = .blocked ∧ (∃ w, callOf (s.framesOf t) = some (.wait w) ∧ t ∈ q (.wait w)) ∨
      s.tcb.state t = .ioBlocked ∧ (t ∈ q .sleep ∨ ∃ fd dir, callOf (s.framesOf t) = some (.io fd dir))

theorem Sim.present {q : Layout} {g : List Ptr} (h : Sim s q g) (ha : Accounted (s.abs q g)) (hx : SoleRunner (s.abs q g)) :
    Present s q g where
  glob := h.rep.glob.fwd
  chain := h.rep.chain
  created t hc hf := by
    by_contra hg
    exact hf (ha.gone t hc hg)
  running := hx
  place t ht hne hfin := by
    cases hst : s.tcb.state t with
    | ready => exact .inl ⟨rfl, h.inv.ready t ht hst⟩
    | running => exact absurd (hx t ht hst) hne
    | blocked => exact .inr (.inl ⟨rfl, h.inv.blocked t ht hst⟩)
    | ioBlocked =>
      refine .inr (.inr ⟨rfl, ?_⟩)
      rcases h.inv.io t ht hst with ⟨-, hq⟩ | ⟨hc, -⟩
      · exact .inl hq
      · exact .inr hc
    | finished => exact absurd hst hfin

/-- In a run in which no idle loop of a RUNNING thread dispatches another thread, no thread is lost. -/
theorem no_lost_thread (h : Sys.RunOf (fun s act => ¬ Bad s act) s) : ∃ q g, Present s q g := by
  have h0 : ∀ c e v, Accounted (initAbs c e v) ∧ SoleRunner (initAbs c e v) := fun c e v =>
    ⟨accounted_init c e v, fun t ht _ => List.mem_singleton.mp ht⟩
  have hstep : ∀ a b, Inv a → Accounted a ∧ SoleRunner a → Prim a b →
      (Abandons a b → ∃ s act, ¬ Bad s act ∧ Bad s act) → Accounted b ∧ SoleRunner b := by
    intro a b hi ⟨ha, hx⟩ hp hok
    refine ⟨hp.accounted hi ha, hp.soleRunner hi hx fun hab => ?_⟩
    obtain ⟨s, act, hnb, hb⟩ := hok hab
    exact hnb hb
  obtain ⟨q, g, hs, -, ha, hx⟩ := run_inv (I := fun a => Accounted a ∧ SoleRunner a) h0 hstep h
  exact ⟨q, g, hs.present ha hx⟩

def Sys.calm (s : Sys) : Action → Bool
  | .resume _ =>
    match s.run.frames with
    | .yieldIdle _ :: _ => s.tcb.state s.currentThread ≠ .running
    | _ => true
  | _ => true

theorem not_bad_of_calm {act : Action} (h : s.calm act = true) : ¬ Bad s act := by
  cases act with
  | resume env =>
    intro h
    obtain ⟨⟨p, fs, hf⟩, hr, -⟩ := h
    simp only [Sys.calm, hf, hr, ne_eq, not_true_eq_false, decide_false] at h
    cases h
  | _ => exact id

def Sys.afterCalm (clock : Nat → Nat) (acts : List Action) : Sys :=
  (Trans.exec (fun s a => if s.calm a then Sys.step s a else none) (Sys.uthreadInit clock 3 fun _ => false) acts).getD
    (Sys.uthreadInit clock 3 fun _ => false)

theorem reachable_afterCalm {clock : Nat → Nat} {acts : List Action}
    (h : (Trans.exec (fun s a => if s.calm a then Sys.step s a else none) (Sys.uthreadInit clock 3 fun _ => false)
      acts).isSome) : Sys.RunOf (fun s act => ¬ Bad s act) (Sys.afterCalm clock acts) := by
  obtain ⟨s, hs⟩ := Option.isSome_iff_exists.mp h
  have h0 : Sys.RunOf (fun s act => ¬ Bad s act) (Sys.uthreadInit clock 3 fun _ => false) := .init ⟨clock, 3, _, rfl⟩
  unfold Sys.afterCalm
  rw [hs]
  exact h0.replay (fun _ _ => not_bad_of_calm) hs

/-- Both threads sleep; an idle loop wakes the main thread, and the other one stays on the sleep list. -/
theorem no_lost_thread_asleep :
    let s := Sys.afterCalm (fun i => i * 5000000) [.call (.create 0) {}, .resume {}, .resume {}, .call (.sleep 20) {}, .resume {},
      .resume {}, .resume {}, .call (.sleep 100) {}, .resume {}, .resume {}, .resume {}, .resume {}, .resume {}, .resume {}]
    (s.currentThread = 0 ∧ s.tcb.state 1 = .ioBlocked ∧ s.run.masked = false) ∧ ∃ q g, Present s q g :=
  ⟨by decide +kernel, no_lost_thread (reachable_afterCalm (by decide +kernel))⟩

/-- A tick in the idle loop of thread 1 wakes and dispatches it; back in the loop it dispatches the
main thread and remains RUNNING, in no queue. -/
theorem idle_loop_loses_thread :
    ∃ s : Sys, Sys.Reachable s ∧ s.run.masked = false ∧ .created 1 ∈ s.log ∧ s.tcb.state 1 = .running ∧
      s.currentThread = 0 ∧ s.lk.readyHead = none ∧ s.lk.sleepListHead = none :=
  ⟨Sys.after (fun i => if i ≤ 3 then 0 else if i ≤ 4 then 5000000 else 100000000) [.call (.create 0) {}, .resume {}, .resume {},
      .call (.sleep 20) {}, .resume {}, .resume {}, .resume {}, .call (.sleep 1) {}, .resume {}, .resume {}, .tick,
      .resume {}, .resume {}, .resume {}, .resume {}, .resume {}, .resume {}, .resume {}],
    Sys.reachable_after (by decide +kernel), by decide +kernel, by decide +kernel, by decide +kernel, by decide +kernel,
    by decide +kernel, by decide +kernel⟩

end Uthread
