import Uthread.Dispatch
import Uthread.Reclaim

/-!
# Ending the process

`uthread_yield` and `uthread_exit` end the process when they find nothing to
dispatch and no thread that is still to finish. Without an epoll descriptor
they end it whoever waits.
-/

namespace Uthread

open Trans Linked

variable {s s' c d : Sys} {q q' : Layout} {g : List Ptr} {a b : Abs} {act : Action} {t : Ptr}

/-- Every thread that was created has finished. -/
structure AllFinished (s : Sys) : Prop where
  log : ∀ t, .created t ∈ s.log → .finished t ∈ s.log
  -- those that are still on the global list
  state : ∃ g, Chain s.lk.globalNext s.lk.globalThreadList g ∧ ∀ t ∈ g, s.tcb.state t = .finished

abbrev Sys.RunsFrom (init : Sys) : Sys → Prop := Reach (· = init) Sys.step fun _ _ => True

/-! ## The descriptor -/

theorem Prim.epollFd (hp : Prim a b) : b.epollFd = a.epollFd := by
  cases hp with
  | quiet hq => cases hq <;> rfl
  | reap =>
    simp only [Abs.reap, Abs.on, Core.free, Core.freeGuardedStack]
    split <;> rfl
  | chan hr hid hc => cases hc <;> rfl
  | _ => rfl

theorem Sim.epollFd (h : Sim s q g) (hb : Bd (s.abs q g)) (hs : s.step act = some s') : s'.epollFd = s.epollFd := by
  obtain ⟨q', g', hp, -⟩ := h.step hb hs
  have hkeep : (s'.abs q' g').epollFd = s.epollFd := by
    refine Steps.inv (I := fun a => a.epollFd = s.epollFd) ?_ hp rfl
    exact fun a b ha hab => hab.1.epollFd.trans ha
  exact hkeep

/-! ## The decision -/

theorem reaped_log (h : Steps Reaped a b) :
    (∀ t, .created t ∈ b.log → .created t ∈ a.log) ∧ ∀ t, .finished t ∈ a.log → .finished t ∈ b.log := by
  induction h with
  | refl => exact ⟨fun _ h => h, fun _ h => h⟩
  | @tail b c _ hr ih =>
    cases hr with
    | @intro x =>
      rw [reap_log_eq]
      refine ⟨fun t ht => ih.1 t ?_, fun t ht => ?_⟩
      · split at ht <;> simpa using ht
      · have := ih.2 t ht
        split <;> simp [this]

theorem Sim.all_finished (h : Sim s q g) (hb : Bd (s.abs q g)) (ha : Accounted (s.abs q g)) (hs : s.step act = some s')
    (hx : s'.exited = true) (hfd : 0 ≤ s.epollFd) : ∀ t, .created t ∈ s'.log → .finished t ∈ s'.log := by
  have hx₀ : s.exited = false := by
    unfold Sys.step at hs
    split at hs
    · cases hs
    · next he => simpa using he
  cases hc : s.atSchedule act with
  | none =>
    rw [(step_unscheduled hs hc).exited, hx₀] at hx
    cases hx
  | some c =>
    obtain ⟨qc, hpc, hsc⟩ := h.atSchedule hb hs hc
    have hset := ahead_settled hpc
    have hans := h.answers hs hc hset.cur
    have hxc : c.exited = false := hset.exited.trans hx₀
    have hac : Accounted (c.abs qc g) := by
      refine (Steps.inv (I := fun a => Inv a ∧ Accounted a) ?_ hpc ⟨h.inv, ha⟩).2
      exact fun a b hi hab => ⟨hab.prim.inv hi.1, hab.prim.accounted hi.1 hi.2⟩
    obtain ⟨lk, hsn, hlk⟩ := hsc.scheduleNext
    cases hp : pick c.currentScheduler c.tcb (qc .ready) with
    | some next =>
      rw [hp] at hsn
      obtain ⟨fs, rfl⟩ := hans.found _ _ hsn
      exact absurd (hxc.symm.trans hx) (by simp)
    | none =>
      rw [hp] at hsn hlk
      obtain ⟨-, rfl⟩ := hlk
      obtain ⟨hlive, hs'⟩ := hans.exits _ hsn hx hxc
      have hfdc : 0 ≤ c.epollFd := hset.epollFd.symm ▸ hfd
      -- nobody on the global list is still to finish
      have hall : ∀ t ∈ g, c.tcb.state t = .finished := by
        intro t ht
        by_contra hne
        exact hlive ⟨(hasLive_iff hsc.rep.glob.fwd hsc.glob_le).mpr ⟨t, ht, hne⟩, hfdc⟩
      have hdone : ∀ t, .created t ∈ c.log → .finished t ∈ c.log := by
        intro t ht
        by_cases hg : t ∈ g
        · exact (hac.finished t hg).mpr (hall t hg)
        · exact hac.gone t ht hg
      obtain ⟨g', hr, -⟩ := hsc.gcFinishedThreads
      have hlog := reaped_log hr
      rcases hs' with rfl | rfl
      · exact hdone
      · exact fun t ht => hlog.2 t (hdone t (hlog.1 t ht))

theorem yieldBody_discards {env : Env} {fs : List Frame} (hfd : s.epollFd < 0)
    (hb : s.tcb.state s.currentThread = .blocked) (hr : s.lk.readyHead = none) (hsl : s.lk.sleepListHead = none)
    (hpol : s.currentScheduler = none) : s.yieldBody env fs = { s.on .tickClock with exited := true } := by
  have hio : s.checkIoEvents env = s := if_pos hfd
  have hsleep : s.checkSleepList = s.on .tickClock := by
    unfold Sys.checkSleepList
    exact sleepLoop_idle (s := s.on .tickClock) (show Linked.Chain _ _ [] from hsl) (by simp)
  have hnext : (s.on .tickClock).scheduleNext = (none, s.on .tickClock) := by
    have hpol : (s.on .tickClock).currentScheduler = none := hpol
    have hr : (s.on .tickClock).lk.readyHead = none := hr
    unfold Sys.scheduleNext
    simp only [hpol, Links.roundRobinNext, Links.dequeue, hr]
  have hb : (s.on .tickClock).tcb.state (s.on .tickClock).currentThread = .blocked := hb
  have hfd : ¬ 0 ≤ (s.on .tickClock).epollFd := Int.not_le.mpr hfd
  unfold Sys.yieldBody
  simp only [hio, hsleep, hb, hnext, hfd, reduceCtorEq, and_false, if_false]

/-- The main thread waits on a semaphore that nobody will post. -/
def wait : List Action := [.call (.semInit 0 0) {}, .call (.semWait 0) {}, .resume {}, .resume {}]

theorem wait_exits (clock : Nat → Nat) {epollFd : Fd} (avail : Fd × IoDir → Bool) (h : epollFd < 0) :
    ∃ s, exec Sys.step (Sys.uthreadInit clock epollFd avail) wait = some s ∧ s.exited = true ∧
      s.log = [.arrive (.sem (.user 0)) 0, .semInit (.user 0) 0, .created 0] := by
  let init := Sys.uthreadInit clock epollFd avail
  let s := (exec Sys.step init (wait.take 3)).getD init
  have hy : s.yieldBody {} [.waiting (.sem (.user 0)), .user] = { s.on .tickClock with exited := true } :=
    yieldBody_discards h rfl rfl rfl rfl
  exact ⟨_, congrArg some hy, rfl, rfl⟩

/-! ## Runs -/

theorem Sys.RunsFrom.reachable {clock : Nat → Nat} {epollFd : Fd} {avail : Fd × IoDir → Bool}
    (h : Sys.RunsFrom (Sys.uthreadInit clock epollFd avail) s) : Sys.Reachable s ∧ s.epollFd = epollFd := by
  induction h with
  | init h => exact ⟨.init ⟨_, _, _, h⟩, h ▸ rfl⟩
  | step _ hok hst ih =>
    obtain ⟨q, g, hs, hb⟩ := reachable_sim ih.1
    exact ⟨.step ih.1 hok hst, (hs.epollFd hb hst).trans ih.2⟩

theorem AllFinished.of_log (h : Sys.Reachable s) (hlog : ∀ t, .created t ∈ s.log → .finished t ∈ s.log) : AllFinished s := by
  obtain ⟨q, g, hs, -, ha⟩ := reachable_inv accounted_init (fun a b hi h hp => hp.accounted hi h) h
  exact ⟨hlog, g, hs.rep.glob.fwd, fun t ht => (ha.finished t ht).mp (hlog t (ha.created t ht))⟩

/-- The processes that exit only when every thread has finished are those that got an epoll descriptor. -/
theorem exit_iff_epoll (clock : Nat → Nat) (epollFd : Fd) (avail : Fd × IoDir → Bool) :
    (∀ s, Sys.RunsFrom (Sys.uthreadInit clock epollFd avail) s → s.exited = true → AllFinished s) ↔ 0 ≤ epollFd := by
  constructor
  · intro h
    by_contra hfd
    obtain ⟨s, hs, hx, hlog⟩ := wait_exits clock avail (Int.not_le.mp hfd)
    have h0 : Sys.RunsFrom (Sys.uthreadInit clock epollFd avail) (Sys.uthreadInit clock epollFd avail) := .init rfl
    have hfin := (h s (h0.exec (fun _ _ => trivial) hs) hx).log 0 (by rw [hlog]; simp)
    rw [hlog] at hfin
    simp at hfin
  · intro hfd s hrun hx
    refine .of_log (Sys.RunsFrom.reachable hrun).1 ?_
    cases hrun with
    | init h => rw [h] at hx; cases hx
    | step hrun _ hst =>
      obtain ⟨hr, hfd'⟩ := Sys.RunsFrom.reachable hrun
      obtain ⟨q, g, hs, hb, ha⟩ := reachable_inv accounted_init (fun a b hi h hp => hp.accounted hi h) hr
      exact hs.all_finished hb ha hst hx (hfd'.symm ▸ hfd)

/-- Without a descriptor the process ends while its main thread sleeps. -/
theorem exit_discards_sleeper : ¬ ∀ s, Sys.Reachable s → s.exited = true → AllFinished s := by
  intro h
  obtain ⟨s, hs⟩ := Option.isSome_iff_exists.mp (by decide +kernel :
    (exec Sys.step (Sys.uthreadInit (fun _ => 0) (-1) fun _ => false)
      [.call (.sleep 20) {}, .resume {}, .resume {}]).isSome)
  have hr : Sys.Reachable s := (Reach.init ⟨_, _, _, rfl⟩).exec (fun _ _ => trivial) hs
  have hlog : (exec Sys.step (Sys.uthreadInit (fun _ => 0) (-1) fun _ => false)
      [.call (.sleep 20) {}, .resume {}, .resume {}]).map (fun s => (s.exited, s.log)) =
        some (true, [.sleepCall 0 20 0, .created 0]) := by decide +kernel
  rw [hs, Option.map_some, Option.some.injEq, Prod.mk.injEq] at hlog
  have hfin := (h s hr hlog.1).log 0 (by rw [hlog.2]; simp)
  rw [hlog.2] at hfin
  simp at hfin

end Uthread
