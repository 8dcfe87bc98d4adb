import Uthread.Follow

/-!
# Calls of `schedule_next`

A step calls `schedule_next` at most once, as the last thing before it
dispatches: in `uthread_yield`, in `uthread_exit`, or in a pass of one of their
idle loops. Up to there it only appends to the ready queue.
-/

namespace Uthread

open Trans Linked

namespace Sys

/-- `uthread_yield`, from behind its collection pass to its call of `schedule_next`. -/
def yieldQueued (env : Env) (s : Sys) : Sys :=
  let s := s.checkIoEvents env
  let s := s.checkSleepList
  let prev := s.currentThread
  if s.tcb.state prev = .running then
    let s := s.on (.setState prev .ready)
    let s := s.on (.emit prev .yield)
    s.enqueue prev
  else s

def exitQueued (env : Env) (s : Sys) : Sys :=
  let s := s.on .blockSignals
  let prev := s.currentThread
  let s := s.on (.setState prev .finished)
  let s := s.on (.note (.finished prev))
  let s := s.on (.emit prev .exit)
  let s := s.checkIoEvents env
  s.checkSleepList

def idleQueued (env : Env) (s : Sys) : Sys :=
  let s := s.on .blockSignals
  let s := s.checkIoEvents env
  s.checkSleepList

/-- The state in which a step calls `schedule_next`. -/
def atSchedule (s : Sys) : Action → Option Sys
  | .call .exit env => some (s.exitQueued env)
  | .resume env =>
    match s.run.frames.head? with
    | some .yieldGc => some (s.yieldQueued env)
    | some (.yieldIdle _) => some (s.idleQueued env)
    | some (.exitIdle _) => some (s.idleQueued env)
    | _ => none
  | _ => none

end Sys

/-! ## Up to the call -/

inductive Ahead (a : Abs) : Abs → Prop
  | mask : Ahead a (a.on .blockSignals)
  | wake {b} : Wake a b → Ahead a b
  | preempt : a.tcb.state a.currentThread = .running → Ahead a a.preempt
  | finish {fs} : a.tcb.state a.currentThread = .running → a.run.frames = .user :: fs → Ahead a a.finish

structure Settled (a b : Abs) : Prop where
  cur : b.currentThread = a.currentThread := by rfl
  glob : b.glob = a.glob := by rfl
  exited : b.exited = a.exited := by rfl
  scheduler : b.currentScheduler = a.currentScheduler := by rfl
  priority : b.tcb.priority = a.tcb.priority := by rfl
  creationOrder : b.tcb.creationOrder = a.tcb.creationOrder := by rfl
  brk : b.brk = a.brk := by rfl
  epollFd : b.epollFd = a.epollFd := by rfl

variable {s s' c d : Sys} {q q' : Layout} {g : List Ptr} {a b : Abs} {act : Action} {env : Env} {fs : List Frame}
  {t u : Ptr} {e : Event} {l : List Event}

theorem Settled.trans {c : Abs} (h : Settled a b) (h' : Settled b c) : Settled a c where
  cur := h'.cur.trans h.cur
  glob := h'.glob.trans h.glob
  exited := h'.exited.trans h.exited
  scheduler := h'.scheduler.trans h.scheduler
  priority := h'.priority.trans h.priority
  creationOrder := h'.creationOrder.trans h.creationOrder
  brk := h'.brk.trans h.brk
  epollFd := h'.epollFd.trans h.epollFd

theorem Ahead.prim (h : Ahead a b) : Prim a b := by
  cases h with
  | mask => exact .quiet (.mask true)
  | wake hw => exact hw.prim
  | preempt hr => exact .preempt hr
  | finish hr hf => exact .finish hr hf

theorem Ahead.settled (h : Ahead a b) : Settled a b := by
  cases h with
  | wake hw => cases hw <;> exact ⟨rfl, rfl, rfl, rfl, rfl, rfl, rfl, rfl⟩
  | mask | preempt | finish => exact ⟨rfl, rfl, rfl, rfl, rfl, rfl, rfl, rfl⟩

theorem ahead_settled (h : Steps Ahead a b) : Settled a b := by
  induction h with
  | refl => exact ⟨rfl, rfl, rfl, rfl, rfl, rfl, rfl, rfl⟩
  | tail _ ha ih => exact ih.trans ha.settled

theorem ahead_of_wakes (h : Wakes a b) : Steps Ahead a b := Relation.ReflTransGen.mono (fun _ _ => .wake) _ _ h

theorem Sim.idleQueued (h : Sim s q g) (env : Env) :
    ∃ q', Steps Ahead (s.abs q g) ((s.idleQueued env).abs q' g) ∧ Sim (s.idleQueued env) q' g := by
  obtain ⟨-, h₁⟩ := h.blockSignals
  obtain ⟨q', hw, h₂⟩ := h₁.checks env
  exact ⟨q', .head .mask (ahead_of_wakes hw), h₂⟩

theorem Sim.exitQueued (h : Sim s q g) (hr : s.tcb.state s.currentThread = .running) (hf : s.run.frames = .user :: fs) :
    ∃ q', Steps Ahead (s.abs q g) ((s.exitQueued env).abs q' g) ∧ Sim (s.exitQueued env) q' g := by
  obtain ⟨-, h₁⟩ := h.blockSignals
  have hp : Ahead ((s.on .blockSignals).abs q g) ((s.on .blockSignals).abs q g).finish := .finish hr hf
  have h₂ : Sim (((s.on .blockSignals).on (.setState s.currentThread .finished)).on
      (.note (.finished s.currentThread)) |>.on (.emit s.currentThread .exit)) q g := ⟨h.rep, hp.prim.inv h₁.inv⟩
  obtain ⟨q', hw, h₃⟩ := h₂.checks env
  exact ⟨q', .head .mask (.head hp (ahead_of_wakes hw)), h₃⟩

theorem Sim.yieldQueued (h : Sim s q g) (env : Env) :
    ∃ q', Steps Ahead (s.abs q g) ((s.yieldQueued env).abs q' g) ∧ Sim (s.yieldQueued env) q' g := by
  obtain ⟨q₁, hw, h₁⟩ := h.checks env
  unfold Sys.yieldQueued
  simp only
  generalize (s.checkIoEvents env).checkSleepList = s₁ at hw h₁ ⊢
  by_cases hr : s₁.tcb.state s₁.currentThread = .running
  · have hp : Ahead (s₁.abs q₁ g) (s₁.abs q₁ g).preempt := .preempt hr
    have hno := h₁.inv.notMem_of_running hr
    rw [if_pos hr]
    exact ⟨q₁.push .ready s₁.currentThread, (ahead_of_wakes hw).tail hp,
      ⟨h₁.rep.enqueue h₁.inv.ok hno, hp.prim.inv h₁.inv⟩⟩
  · rw [if_neg hr]
    exact ⟨q₁, ahead_of_wakes hw, h₁⟩

theorem Sim.atSchedule (h : Sim s q g) (hb : Bd (s.abs q g)) (hs : s.step act = some s')
    (hc : s.atSchedule act = some c) : ∃ q', Steps Ahead (s.abs q g) (c.abs q' g) ∧ Sim c q' g := by
  unfold Sys.step at hs
  split at hs
  · cases hs
  · next hx =>
    have hx : s.exited = false := by simpa using hx
    unfold Sys.atSchedule at hc
    split at hc
    · next env =>
      cases hc
      simp only [Option.ite_none_right_eq_some] at hs
      obtain ⟨fs, hf⟩ := List.head?_eq_some_iff.mp hs.1
      have hm := hb.alive hx
      rw [show (s.abs q g).run.frames = _ from hf] at hm
      exact h.exitQueued hm hf
    · split at hc
      · cases hc
        exact h.yieldQueued _
      · cases hc
        exact h.idleQueued _
      · cases hc
        exact h.idleQueued _
      · cases hc
    · cases hc

/-! ## Behind the call -/

def dispatched (l : List Event) : List Ptr :=
  l.filterMap fun
    | .disp t _ => some t
    | _ => none

def enqueued (l : List Event) : List Ptr :=
  l.filterMap fun
    | .enq t => some t
    | _ => none

/-- What is done without dispatching a thread or ending the process. -/
structure Unscheduled (s s' : Sys) : Prop where
  dispatched : dispatched s'.log = dispatched s.log := by rfl
  exited : s'.exited = s.exited := by rfl

theorem Unscheduled.trans (h : Unscheduled s c) (h' : Unscheduled c s') : Unscheduled s s' where
  dispatched := h'.dispatched.trans h.dispatched
  exited := h'.exited.trans h.exited

theorem Unscheduled.ret (h : Unscheduled (s.ret fs) s') : Unscheduled s s' :=
  Unscheduled.trans (c := s.ret fs) ⟨rfl, rfl⟩ h

theorem gcLoop_unscheduled : ∀ {n : Nat} {p : Option Ptr} {s : Sys}, Unscheduled s (Sys.gcLoop n p s)
  | 0, p, s => by cases p <;> exact ⟨rfl, rfl⟩
  | n + 1, none, s => ⟨rfl, rfl⟩
  | n + 1, some t, s => by
    simp only [Sys.gcLoop]
    split
    · refine Unscheduled.trans (c := (({ s with lk := s.lk.globalListRemove t } : Sys).on (.freeGuardedStack t)).on (.free t))
        ?_ gcLoop_unscheduled
      constructor
      · change dispatched (.freed _ _ _ :: (Core.freeGuardedStack t s.toCore).log) = _
        unfold Core.freeGuardedStack
        split <;> rfl
      · change (Core.freeGuardedStack t s.toCore).exited = _
        unfold Core.freeGuardedStack
        split <;> rfl
    · exact gcLoop_unscheduled

theorem gcFinishedThreads_unscheduled : Unscheduled s s.gcFinishedThreads := gcLoop_unscheduled

/-- `next` is dispatched, or nobody is; the process ends only when no thread is left, or without an epoll descriptor. -/
structure Answers (c s' : Sys) : Prop where
  found : ∀ next d, c.scheduleNext = (some next, d) → ∃ fs, s' = (d.on (.setFrames fs)).switchTo c.currentThread next
  null : ∀ d, c.scheduleNext = (none, d) → dispatched s'.log = dispatched d.log
  exits : ∀ d, c.scheduleNext = (none, d) → s'.exited = true → c.exited = false →
    ¬ (d.lk.hasLive d.tcb.state d.fuel d.lk.globalThreadList ∧ 0 ≤ d.epollFd) ∧
      (s' = { d with exited := true } ∨ s' = { d.gcFinishedThreads with exited := true })

theorem scheduleNext_exited (h : c.scheduleNext.2 = d) : d.exited = c.exited := by
  subst h
  rfl

theorem yieldBody_eq {d : Sys} (hd : s.yieldQueued env = d) : s.yieldBody env fs =
    match d.scheduleNext with
    | (some next, e) => (e.on (.setFrames (.yieldSwap d.currentThread :: fs))).switchTo d.currentThread next
    | (none, e) =>
      if e.tcb.state d.currentThread = .ready then
        let e := e.on (.setState d.currentThread .running)
        let e := { e with lk := e.lk.removeFromReadyQueue e.fuel d.currentThread }
        let e := e.on (.emit d.currentThread .run)
        (e.on .unblockSignals).on (.setFrames (.yieldRet :: fs))
      else if e.lk.hasLive e.tcb.state e.fuel e.lk.globalThreadList ∧ 0 ≤ e.epollFd then
        (e.on (.setFrames (.yieldIdle d.currentThread :: fs))).on .unblockSignals
      else { e with exited := true } := by
  have hcur : (s.yieldQueued env).currentThread = (s.checkIoEvents env).checkSleepList.currentThread := by
    unfold Sys.yieldQueued
    simp only
    split <;> rfl
  subst hd
  rw [hcur]
  rfl

theorem answers_yield (h : s.yieldBody env fs = s') : Answers (s.yieldQueued env) s' := by
  rw [yieldBody_eq rfl] at h
  constructor
  · intro next d hd
    rw [hd] at h
    exact ⟨_, h.symm⟩
  · intro d hd
    rw [hd] at h
    subst h
    dsimp only
    split
    · rfl
    · split <;> rfl
  · intro d hd hx hc
    have hd' : d.exited = false := (scheduleNext_exited (congrArg Prod.snd hd)).trans hc
    rw [hd] at h
    subst h
    dsimp only at hx ⊢
    split at hx
    · exact absurd (hd'.symm.trans hx) (by simp)
    · next hr =>
      split at hx
      · exact absurd (hd'.symm.trans hx) (by simp)
      · next hl =>
        rw [if_neg hr, if_neg hl]
        exact ⟨hl, .inl rfl⟩

theorem answers_idle {idle swap : Ptr → Frame} {p : Ptr} (hp : p = (s.idleQueued env).currentThread)
    (h : s.idlePass env idle swap p fs = s') : Answers (s.idleQueued env) s' := by
  rw [idlePass_eq (d := s.idleQueued env) rfl] at h
  constructor
  · intro next d hd
    rw [hd, hp] at h
    exact ⟨_, h.symm⟩
  · intro d hd
    rw [hd] at h
    subst h
    rfl
  · intro d hd hx hc
    have hd' : d.exited = false := (scheduleNext_exited (congrArg Prod.snd hd)).trans hc
    rw [hd] at h
    subst h
    exact absurd (hd'.symm.trans hx) (by simp)

theorem answers_exit (hp : s.currentThread = (s.exitQueued env).currentThread) (h : s.uthreadExit env = s') :
    Answers (s.exitQueued env) s' := by
  rw [uthreadExit_eq (s := s) (d := s.exitQueued env) rfl] at h
  constructor
  · intro next d hd
    rw [hd, hp] at h
    exact ⟨_, h.symm⟩
  · intro d hd
    rw [hd] at h
    subst h
    dsimp only
    split
    · rfl
    · exact gcFinishedThreads_unscheduled.dispatched
  · intro d hd hx hc
    have hd' : d.exited = false := (scheduleNext_exited (congrArg Prod.snd hd)).trans hc
    rw [hd] at h
    subst h
    dsimp only at hx ⊢
    split at hx
    · exact absurd (hd'.symm.trans hx) (by simp)
    · next hl =>
      rw [if_neg hl]
      exact ⟨hl, .inr rfl⟩

theorem Sim.answers (h : Sim s q g) (hs : s.step act = some s') (hc : s.atSchedule act = some c)
    (hcur : c.currentThread = s.currentThread) : Answers c s' := by
  unfold Sys.step at hs
  split at hs
  · cases hs
  · unfold Sys.atSchedule at hc
    split at hc
    · cases hc
      simp only [Option.ite_none_right_eq_some, Sys.call, Option.some.injEq] at hs
      exact answers_exit hcur.symm hs.2
    · next env =>
      cases hf : s.run.frames with
      | nil => simp [hf] at hc
      | cons f fs =>
        rw [hf] at hs hc
        have hp : ∀ p, f.prev? = some p → p = c.currentThread := fun p hp => (h.prev_eq hf hp).trans hcur.symm
        cases f with
        | yieldGc =>
          cases hc
          exact answers_yield (Option.some.inj hs)
        | yieldIdle p =>
          cases hc
          exact answers_idle (hp p rfl) (Option.some.inj hs)
        | exitIdle p =>
          cases hc
          exact answers_idle (hp p rfl) (Option.some.inj hs)
        | _ => cases hc
    · cases hc

/-! ## Steps without a call -/

theorem mutexLock_unscheduled {m : MutexId} : Unscheduled s (s.uthreadMutexLock m) := by
  unfold Sys.uthreadMutexLock
  simp only
  split <;> exact ⟨rfl, rfl⟩

theorem mutexUnlock_unscheduled {m : MutexId} : Unscheduled s (s.uthreadMutexUnlock m) := by
  unfold Sys.uthreadMutexUnlock
  simp only
  split <;> exact ⟨rfl, rfl⟩

theorem semWait_unscheduled {sm : SemId} : Unscheduled s (s.uthreadSemWait sm) := by
  unfold Sys.uthreadSemWait
  simp only
  split <;> exact ⟨rfl, rfl⟩

theorem semPost_unscheduled {sm : SemId} : Unscheduled s (s.uthreadSemPost sm) := by
  unfold Sys.uthreadSemPost
  simp only
  split <;> exact ⟨rfl, rfl⟩

theorem createRest_unscheduled {prio : Int} : Unscheduled s (s.createRest env prio fs) := by
  unfold Sys.createRest
  simp only
  split
  · split <;> exact ⟨rfl, rfl⟩
  · exact ⟨rfl, rfl⟩

theorem systemCall_unscheduled {fd : Fd} {dir : IoDir} {next : IoResult → Frame} :
    Unscheduled s (s.systemCall env fd dir next fs) := by
  unfold Sys.systemCall
  simp only
  cases s.ioResult env fd dir <;> split <;> exact ⟨rfl, rfl⟩

theorem systemCall_frame {fd : Fd} {dir : IoDir} {next : IoResult → Frame} :
    (s.systemCall env fd dir next fs).tcb = s.tcb ∧ (s.systemCall env fd dir next fs).lk = s.lk ∧
      (s.systemCall env fd dir next fs).currentThread = s.currentThread ∧
      (s.systemCall env fd dir next fs).currentScheduler = s.currentScheduler := by
  unfold Sys.systemCall
  simp only
  cases s.ioResult env fd dir <;> split <;> exact ⟨rfl, rfl, rfl, rfl⟩

theorem ioTest_unscheduled {fd : Fd} {dir : IoDir} {ret : IoResult} : Unscheduled s (s.ioTest fd dir ret fs) := by
  unfold Sys.ioTest
  split <;> exact ⟨rfl, rfl⟩

theorem sendStep_unscheduled {c : Nat} {msg : Msg} {pc : ChanPc} : Unscheduled s (s.sendStep c msg fs pc) := by
  cases pc <;> simp only [Sys.sendStep]
  case wait => exact .ret semWait_unscheduled
  case lock => exact .ret mutexLock_unscheduled
  case unlock => exact .ret mutexUnlock_unscheduled
  case post => exact .ret semPost_unscheduled
  case access | advance => split <;> exact ⟨rfl, rfl⟩

theorem recvStep_unscheduled {c : Nat} {msg : Msg} {pc : ChanPc} : Unscheduled s (s.recvStep c msg fs pc) := by
  cases pc <;> simp only [Sys.recvStep]
  case wait => exact .ret semWait_unscheduled
  case lock => exact .ret mutexLock_unscheduled
  case unlock => exact .ret mutexUnlock_unscheduled
  case post => exact .ret semPost_unscheduled
  case access | advance => split <;> exact ⟨rfl, rfl⟩

theorem channelInit_unscheduled {c : Nat} {k : Int} : Unscheduled s (s.uthreadChannelInit c k) := by
  constructor <;>
    simp only [Sys.uthreadChannelInit, Sys.uthreadSemInit, Sys.uthreadMutexInit, Sys.on, Core.setLocked, Core.setCount,
      Core.setChan, Core.note, dispatched, List.filterMap_cons]

theorem gcEnter_unscheduled {fs : List Frame} :
    Unscheduled s ((s.on .blockSignals).gcFinishedThreads.on (.setFrames fs)) :=
  have hgc : Unscheduled (s.on .blockSignals) (s.on .blockSignals).gcFinishedThreads := gcFinishedThreads_unscheduled
  ⟨hgc.dispatched, hgc.exited⟩

theorem call_unscheduled {op : Op} (hop : op ≠ .exit) (h : s.call env op = some s') : Unscheduled s s' := by
  cases op <;> simp only [Sys.call, Option.ite_none_left_eq_some, Option.ite_none_right_eq_some, Option.some.injEq] at h
  case create => exact h ▸ gcEnter_unscheduled
  case exit => exact absurd rfl hop
  case mutexLock => exact h.2 ▸ mutexLock_unscheduled
  case mutexUnlock => exact h.2 ▸ mutexUnlock_unscheduled
  case semWait => exact h.2 ▸ semWait_unscheduled
  case semPost => exact h.2 ▸ semPost_unscheduled
  case io => exact h ▸ systemCall_unscheduled
  case channelInit => exact h.2 ▸ channelInit_unscheduled
  case mutexInit | semInit | channelSend | channelRecv =>
    obtain ⟨-, rfl⟩ := h
    exact ⟨rfl, rfl⟩
  case yield | sleep | setScheduler | traceEnable | traceDisable =>
    subst h
    exact ⟨rfl, rfl⟩

theorem resume_unscheduled {f : Frame} (hf : f ≠ .yieldGc ∧ f.idles = false) (h : s.resume env fs f = some s') :
    Unscheduled s s' := by
  cases f <;> simp only [Sys.resume, Option.some.injEq, reduceCtorEq] at h
  case create => exact h ▸ createRest_unscheduled
  case ioTest => exact h ▸ ioTest_unscheduled
  case ioRetry => exact h ▸ systemCall_unscheduled
  case yieldEntry => exact h ▸ gcEnter_unscheduled
  case yieldGc => exact absurd rfl hf.1
  case yieldIdle => cases hf.2
  case exitIdle => cases hf.2
  case chanSend => exact h ▸ sendStep_unscheduled
  case chanRecv => exact h ▸ recvStep_unscheduled
  all_goals
    subst h
    exact ⟨rfl, rfl⟩

theorem step_unscheduled (hs : s.step act = some s') (hc : s.atSchedule act = none) : Unscheduled s s' := by
  unfold Sys.step at hs
  split at hs
  · cases hs
  · cases act with
    | call op env =>
      simp only [Option.ite_none_right_eq_some] at hs
      refine call_unscheduled ?_ hs.2
      rintro rfl
      cases hc
    | resume env =>
      cases hf : s.run.frames with
      | nil =>
        rw [hf] at hs
        cases hs
      | cons f fs =>
        rw [hf] at hs
        simp only [Sys.atSchedule, hf, List.head?_cons] at hc
        refine resume_unscheduled ⟨?_, ?_⟩ hs
        · rintro rfl
          cases hc
        · cases f <;> first | rfl | cases hc
    | tick =>
      simp only [Option.ite_none_left_eq_some, Option.some.injEq] at hs
      obtain ⟨-, rfl⟩ := hs
      exact ⟨rfl, rfl⟩
    | avail fd dir b =>
      cases hs
      exact ⟨rfl, rfl⟩
    | errno e =>
      simp only [Option.ite_none_left_eq_some, Option.some.injEq] at hs
      obtain ⟨-, rfl⟩ := hs
      exact ⟨rfl, rfl⟩

/-! ## The queue and the history -/

/-- A transition that dispatches nobody: what the history enqueues is appended to the ready queue. -/
structure Appends (a b : Abs) : Prop where
  log : ∃ es, b.log = es ++ a.log ∧ dispatched es = [] ∧ b.q .ready = a.q .ready ++ (enqueued es).reverse

theorem Appends.silent (hlog : b.log = a.log) (hq : b.q .ready = a.q .ready) : Appends a b :=
  ⟨[], hlog, rfl, by simp [enqueued, hq]⟩

theorem Appends.other (hlog : b.log = e :: a.log) (hd : dispatched [e] = []) (he : enqueued [e] = [])
    (hq : b.q .ready = a.q .ready) : Appends a b := ⟨[e], hlog, hd, by simp [he, hq]⟩

theorem Appends.enq (hlog : b.log = .enq t :: a.log) (hq : b.q .ready = a.q .ready ++ [t]) : Appends a b :=
  ⟨[.enq t], hlog, rfl, hq⟩

theorem Prim.appends (hp : Prim a b) : Appends a b ∨ ∃ t, b = a.switch t ∧
    pick a.currentScheduler a.tcb (a.q .ready) = some t := by
  have hpush : ∀ t, (a.q.push .ready t) .ready = a.q .ready ++ [t] := fun _ => Layout.push_self
  have hmove : ∀ {i : QId} {t : Ptr}, i ≠ .ready → ((a.q.drop i t).push .ready t) .ready = a.q .ready ++ [t] := by
    intro i t hi
    rw [Layout.push_self, Layout.drop_of_ne (Ne.symm hi)]
  have hwait : ∀ w t, (a.q.push (.wait w) t) .ready = a.q .ready := fun _ _ => Layout.push_of_ne (by simp)
  have hsleep : ∀ t, (a.q.pushFront .sleep t) .ready = a.q .ready := fun _ => Layout.pushFront_of_ne (by simp)
  cases hp with
  | switch hp hf => exact .inr ⟨_, rfl, hp⟩
  | quiet hq => cases hq <;> exact .inl (.silent rfl rfl)
  | move | mutexInit => exact .inl (.silent rfl rfl)
  | tick | leave | sleepRet | ioRet | createRet | traceOn | avail | errno | createFail | finish | semInit =>
    exact .inl (.other rfl rfl rfl rfl)
  | @reap t =>
    refine .inl ?_
    cases hst : a.tcb.stack t with
    | none =>
      refine .other (e := .freed t (a.tcb.state t) a.run.onStack) ?_ rfl rfl rfl
      simp [Abs.reap, Abs.on, Core.free, Core.freeGuardedStack, Core.note, hst]
    | some r =>
      refine ⟨[.freed t (a.tcb.state t) a.run.onStack, .unmapped r], ?_, rfl, by simp [enqueued]; rfl⟩
      simp [Abs.reap, Abs.on, Core.free, Core.freeGuardedStack, Core.note, hst]
  | ioWake => exact .inl ⟨[.enq _, .ioEvent _ _], rfl, rfl, hpush _⟩
  | preempt => exact .inl (.enq rfl (hpush _))
  | sleepWake => exact .inl (.enq rfl (hmove (by simp)))
  | create => exact .inl ⟨[.created _, .enq _], rfl, rfl, hpush _⟩
  | chanInit => exact .inl ⟨[_, _, _], rfl, rfl, by simp [enqueued]; rfl⟩
  | lock | wait => exact .inl ⟨[_, _], rfl, rfl, by simp [enqueued]; rfl⟩
  | @block w => exact .inl (.other (e := .arrive w _) rfl rfl rfl (hwait w a.currentThread))
  | sleep => exact .inl (.other (e := .sleepCall _ _ _) rfl rfl rfl (hsleep a.currentThread))
  | ioBlock => exact .inl (.other (e := .ioBlock _ _ _ _) rfl rfl rfl rfl)
  | unlock | post => exact .inl (.other rfl rfl rfl rfl)
  | unlockHandoff | postHandoff => exact .inl ⟨[.handoff _ _ _, .enq _], rfl, rfl, hmove (by simp)⟩
  | chan hr hid hc => cases hc <;> exact .inl (.other rfl rfl rfl rfl)

end Uthread
