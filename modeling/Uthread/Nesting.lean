import Uthread.Exit
import Uthread.Io

/-!
# Nested handler activations

Every activation of `alrm_handler` that stands above another one was started
by a tick in a window that `uthread_yield` opened inside the handler: its idle
loop, or the code behind its last `unblock_signals`. There is no bound on their
number, in no process.
-/

namespace Uthread

variable {a b : Abs} {s : Sys} {t : Ptr} {fs gs : List Frame}

def handlers (fs : List Frame) : Nat := fs.count .alrmHandler

def Event.nests (t : Ptr) : Event → Bool
  | .tick u _ nested => u = t && nested
  | _ => false

def nestedTicks (t : Ptr) (l : List Event) : Nat := l.countP (Event.nests t)

theorem handlers_cons {f : Frame} (h : f ≠ .alrmHandler) : handlers (f :: fs) = handlers fs := by
  unfold handlers
  rw [List.count_cons_of_ne h]

theorem handlers_handler : handlers (.alrmHandler :: fs) = handlers fs + 1 := List.count_cons_self

theorem handlers_le_cons {f : Frame} : handlers fs ≤ handlers (f :: fs) := List.count_le_count_cons

theorem handlers_eq_zero (h : .alrmHandler ∉ fs) : handlers fs = 0 := List.count_eq_zero.mpr h

theorem FrameMove.handlers_le {c : Core} (h : FrameMove c fs gs) : handlers gs ≤ handlers fs := by
  cases h with
  | notCreated | yieldRet | sigreturn => exact handlers_le_cons
  | _ => simp [handlers]

theorem Site.handlers_le {op : SyncOp} (h : Site op fs gs) : handlers gs ≤ handlers fs := by
  cases h <;> simp [handlers]

/-! ## Runs -/

def Stacked (a : Abs) : Prop := ∀ t ∈ a.glob, handlers (a.framesOf t) ≤ 1 + nestedTicks t a.log

theorem Stacked.of_le (h : Stacked a) (hlog : ∃ es, b.log = es ++ a.log)
    (hle : ∀ t ∈ b.glob, handlers (b.framesOf t) ≤ 1 ∨ t ∈ a.glob ∧ handlers (b.framesOf t) ≤ handlers (a.framesOf t)) :
    Stacked b := by
  intro t ht
  obtain ⟨es, hlog⟩ := hlog
  have hn : nestedTicks t b.log = nestedTicks t es + nestedTicks t a.log := by
    rw [hlog]
    exact List.countP_append
  rcases hle t ht with h₁ | ⟨hg, h₁⟩
  · omega
  · have := h t hg
    omega

theorem Stacked.of_top (h : Stacked a) (hlog : ∃ es, b.log = es ++ a.log) (hcur : b.currentThread = a.currentThread)
    (hctx : b.tcb.context = a.tcb.context) (hglob : ∀ t ∈ b.glob, t ∈ a.glob)
    (hle : handlers b.run.frames ≤ handlers a.run.frames) : Stacked b := by
  apply h.of_le hlog
  intro t ht
  refine .inr ⟨hglob t ht, ?_⟩
  unfold Core.framesOf
  rw [hcur, hctx]
  split
  · exact hle
  · exact le_refl _

theorem Stacked.tick (h : Stacked a) : Stacked (a.on fun c =>
    (c.note (.tick c.currentThread c.run.frames.head? (.alrmHandler ∈ c.run.frames))).setFrames
      (.yieldEntry :: .alrmHandler :: c.run.frames)) := by
  intro t ht
  have ha := h t ht
  let e : Event := .tick a.currentThread a.run.frames.head? (.alrmHandler ∈ a.run.frames)
  have hfr : ((a.note e).setFrames (.yieldEntry :: .alrmHandler :: a.run.frames)).framesOf t =
      if t = a.currentThread then .yieldEntry :: .alrmHandler :: a.run.frames else a.framesOf t :=
    framesOf_setFrames _ t
  change handlers (((a.note e).setFrames (.yieldEntry :: .alrmHandler :: a.run.frames)).framesOf t) ≤
    1 + nestedTicks t (e :: a.log)
  rw [hfr]
  unfold nestedTicks at ha ⊢
  rw [List.countP_cons]
  by_cases hc : t = a.currentThread
  · subst hc
    rw [framesOf_cur] at ha
    rw [if_pos rfl, handlers_cons (by simp), handlers_handler]
    by_cases hm : .alrmHandler ∈ a.run.frames
    · have he : e.nests a.currentThread = true := by simp [e, Event.nests, hm]
      rw [if_pos he]
      omega
    · rw [handlers_eq_zero hm]
      omega
  · rw [if_neg hc]
    omega

theorem Prim.stacked (hi : Inv a) (h : Stacked a) (hp : Prim a b) : Stacked b := by
  have hlog := (hp.sync hi).log
  cases hp with
  | quiet hq => cases hq <;> exact h
  | tick => exact h.tick
  | leave _ hf | sleepRet _ hf | ioRet _ hf | createRet _ hf =>
    apply h.of_top hlog rfl rfl (fun _ => id)
    rw [hf]
    exact handlers_le_cons
  | move hm => exact h.of_top hlog rfl rfl (fun _ => id) hm.handlers_le
  | reap => exact h.of_top hlog rfl rfl (fun _ => List.mem_of_mem_erase) (le_refl _)
  | switch =>
    apply h.of_le hlog
    intro t ht
    rw [framesOf_switch]
    exact .inr ⟨ht, le_refl _⟩
  | create =>
    apply h.of_le hlog
    intro t ht
    rcases List.mem_cons.mp ht with rfl | ht
    · rw [create_framesOf_self (hi.lt _ hi.cur).ne]
      exact .inl (by simp [handlers])
    · rw [create_framesOf_ne (hi.lt t ht).ne]
      exact .inr ⟨ht, le_refl _⟩
  | lock _ hs | wait _ hs | unlock _ hs | post _ hs | unlockHandoff _ hs | postHandoff _ hs =>
    exact h.of_top hlog rfl rfl (fun _ => id) hs.handlers_le
  | @block w fs _ hs =>
    apply h.of_top hlog rfl rfl (fun _ => id)
    change handlers (.yieldEntry :: .waiting w :: fs) ≤ _
    rw [handlers_cons (by simp), handlers_cons (by simp)]
    exact hs.handlers_le
  | sleep =>
    apply h.of_top hlog rfl rfl (fun _ => id)
    change handlers (.yieldEntry :: .sleeping _ :: a.run.frames) ≤ _
    rw [handlers_cons (by simp), handlers_cons (by simp)]
  | ioBlock _ hf =>
    apply h.of_top hlog rfl rfl (fun _ => id)
    change handlers (.yieldEntry :: .ioWait _ _ :: _) ≤ _
    rw [hf, handlers_cons (by simp), handlers_cons (by simp)]
    exact handlers_le_cons
  | chan _ _ hc =>
    apply h.of_top hlog ?_ ?_ (fun _ ht => ?_) ?_ <;> cases hc with
    | store hf | tail hf | load hf | head hf =>
      first
      | rfl
      | exact ht
      | (rw [hf]; simp [handlers, Core.setFrames, Core.note])
  | _ => exact h.of_top hlog rfl rfl (fun _ => id) (le_refl _)

theorem reachable_stacked (h : Sys.Reachable s) : ∃ q g, Sim s q g ∧ Stacked (s.abs q g) := by
  have h0 : ∀ c e v, Stacked (initAbs c e v) := by
    intro c e v t ht
    cases List.mem_singleton.mp ht
    exact Nat.zero_le _
  obtain ⟨q, g, hs, -, hn⟩ := reachable_inv h0 (fun a b hi ha hp => hp.stacked hi ha) h
  exact ⟨q, g, hs, hn⟩

/-- What a stack carries beyond one handler activation was started by ticks above another one. -/
theorem nested_ticks (h : Sys.Reachable s) :
    ∃ g, Linked.Chain s.lk.globalNext s.lk.globalThreadList g ∧ ∀ t ∈ g, handlers (s.framesOf t) ≤ 1 + nestedTicks t s.log := by
  obtain ⟨q, g, hs, hn⟩ := reachable_stacked h
  exact ⟨g, hs.rep.glob.fwd, hn⟩

/-! ## In an idle loop -/

structure Dormant (s : Sys) : Prop where
  alive : s.exited = false
  current : s.currentThread = 0
  state : s.tcb.state 0 = .ioBlocked
  clock : s.clock = fun _ => 0
  deadline : s.tcb.sleepUntilNs 0 = 1000000
  epoll : 0 ≤ s.epollFd
  policy : s.currentScheduler = none
  ready : s.lk.readyHead = none
  sleepers : s.lk.sleepListHead = some 0 ∧ s.lk.next 0 = none
  threads : s.lk.globalThreadList = some 0 ∧ s.lk.globalNext 0 = none

namespace Dormant

theorem gcFinishedThreads (h : Dormant s) : s.gcFinishedThreads = s := by
  unfold Sys.gcFinishedThreads Sys.fuel
  rw [h.threads.1]
  simp only [Sys.gcLoop, h.state, h.threads.2]
  cases s.brk <;> simp [Sys.gcLoop]

theorem checkSleepList (h : Dormant s) : s.checkSleepList = s.on .tickClock := by
  unfold Sys.checkSleepList Core.getTimeNs Sys.fuel
  simp only [h.clock, Sys.on, Core.tickClock, h.sleepers.1, Sys.sleepLoop, h.deadline]
  cases s.brk <;> simp [Sys.sleepLoop, h.sleepers.2]

theorem hasLive (h : Dormant s) : s.lk.hasLive s.tcb.state s.fuel s.lk.globalThreadList = true := by
  unfold Sys.fuel
  rw [h.threads.1]
  simp [Links.hasLive, h.state]

theorem yieldBody (h : Dormant s) :
    s.yieldBody {} fs = ((s.on .tickClock).on (.setFrames (.yieldIdle 0 :: fs))).on .unblockSignals := by
  have hio : s.checkIoEvents {} = s := checkIoEvents_none fun _ t ht => by cases ht
  have ht : Dormant (s.on .tickClock) := { h with }
  have hnr : (s.on .tickClock).tcb.state (s.on .tickClock).currentThread ≠ .running := by simp [ht.current, ht.state]
  have hsn : (s.on .tickClock).scheduleNext = (none, s.on .tickClock) := by
    unfold Sys.scheduleNext
    simp only [ht.policy, Links.roundRobinNext, Links.dequeue, ht.ready]
  unfold Sys.yieldBody
  simp only [hio, h.checkSleepList]
  rw [if_neg hnr, hsn]
  simp [ht.current, ht.state, ht.hasLive, ht.epoll]

theorem nest (h : Dormant s) (hu : s.run.masked = false) :
    ∃ s', Trans.exec Sys.step s [.tick, .resume {}, .resume {}] = some s' ∧ Dormant s' ∧
      s'.run.masked = false ∧ s'.run.frames = .yieldIdle 0 :: .alrmHandler :: s.run.frames := by
  let s₁ := s.alrmHandler
  have h₁ : Dormant s₁ := { h with }
  have hs₁ : s.step .tick = some s₁ := by
    unfold Sys.step
    simp [h.alive, hu, s₁]
  let s₂ := (s₁.on .blockSignals).on (.setFrames (.yieldGc :: .alrmHandler :: s.run.frames))
  have h₂ : Dormant s₂ := { h with }
  have hb : Dormant (s₁.on .blockSignals) := { h with }
  have hs₂ : s₁.step (.resume {}) = some s₂ := by
    rw [step_resume s₁ h₁.alive rfl]
    change some (((s₁.on .blockSignals).gcFinishedThreads).on (.setFrames (.yieldGc :: .alrmHandler :: s.run.frames))) = _
    rw [hb.gcFinishedThreads]
  let s₃ := ((s₂.on .tickClock).on (.setFrames (.yieldIdle 0 :: .alrmHandler :: s.run.frames))).on .unblockSignals
  have hs₃ : s₂.step (.resume {}) = some s₃ := by
    rw [step_resume s₂ h₂.alive rfl]
    change some (s₂.yieldBody {} (.alrmHandler :: s.run.frames)) = _
    rw [h₂.yieldBody]
  refine ⟨s₃, ?_, { h with }, rfl, rfl⟩
  simp only [Trans.exec, hs₁, hs₂, hs₃, Option.bind_some]

end Dormant

theorem nested_sleep (n : Nat) : ∃ s, Sys.Reachable s ∧ Dormant s ∧ s.run.masked = false ∧
    ∃ fs, s.run.frames = .yieldIdle 0 :: fs ∧ handlers fs = n := by
  induction n with
  | zero =>
    let s := Sys.after (fun _ => 0) [.call (.sleep 1) {}, .resume {}, .resume {}]
    have hr : Sys.Reachable s := Sys.reachable_after rfl
    have hf : s.run.masked = false ∧ s.run.frames = .yieldIdle 0 :: [.sleeping 1000000, .user] := by decide +kernel
    have ha : s.exited = false ∧ s.currentThread = 0 ∧ s.tcb.state 0 = .ioBlocked ∧ s.tcb.sleepUntilNs 0 = 1000000 := by
      decide +kernel
    have hl : (s.lk.sleepListHead = some 0 ∧ s.lk.next 0 = none) ∧ s.lk.globalThreadList = some 0 ∧
        s.lk.globalNext 0 = none := by decide +kernel
    have hk : 0 ≤ s.epollFd ∧ s.currentScheduler = none ∧ s.lk.readyHead = none := by decide +kernel
    exact ⟨s, hr, ⟨ha.1, ha.2.1, ha.2.2.1, rfl, ha.2.2.2, hk.1, hk.2.1, hk.2.2, hl.1, hl.2⟩, hf.1, _, hf.2, rfl⟩
  | succ n ih =>
    obtain ⟨s, hr, hd, hu, fs, hf, hn⟩ := ih
    obtain ⟨s', hx, hd', hu', hf'⟩ := hd.nest hu
    refine ⟨s', hr.exec (fun _ _ => trivial) hx, hd', hu', .alrmHandler :: s.run.frames, hf', ?_⟩
    rw [handlers_handler, hf, handlers_cons (by simp), hn]

/-! ## Without any thread that waits -/

structure Lone (s : Sys) : Prop where
  alive : s.exited = false
  current : s.currentThread = 0
  state : s.tcb.state 0 = .running
  policy : s.currentScheduler = none
  ready : s.lk.readyHead = none ∧ s.lk.readyTail = none
  sleepers : s.lk.sleepListHead = none
  threads : s.lk.globalThreadList = some 0 ∧ s.lk.globalNext 0 = none

namespace Lone

theorem gcFinishedThreads (h : Lone s) : s.gcFinishedThreads = s := by
  unfold Sys.gcFinishedThreads Sys.fuel
  rw [h.threads.1]
  simp only [Sys.gcLoop, h.state, h.threads.2]
  cases s.brk <;> simp [Sys.gcLoop]

theorem checkSleepList (h : Lone s) : s.checkSleepList = s.on .tickClock := by
  unfold Sys.checkSleepList
  exact sleepLoop_idle (s := s.on .tickClock) (show Linked.Chain _ _ [] from h.sleepers) (by simp)

theorem dequeue_alone {l : Links} (h : l.readyHead = none ∧ l.readyTail = none) :
    (l.enqueue 0).dequeue = (some 0, { l with next := Function.update l.next 0 none, readyCount := l.readyCount }) := by
  simp [Links.enqueue, Links.dequeue, Links.setNext, h.1, h.2]

theorem switchTo {d : Sys} (hx : d.exited = false) (hpol : d.currentScheduler = none)
    (hr : d.lk.readyHead = none ∧ d.lk.readyTail = none) (hsl : d.lk.sleepListHead = none)
    (hg : d.lk.globalThreadList = some 0 ∧ d.lk.globalNext 0 = none) :
    Lone ((d.on (.setFrames fs)).switchTo 0 0) ∧ ((d.on (.setFrames fs)).switchTo 0 0).run.frames = fs := by
  refine ⟨⟨hx, rfl, ?_, hpol, hr, hsl, hg⟩, ?_⟩
  · change Function.update d.tcb.state 0 TState.running 0 = .running
    rw [Function.update_self]
  · let r : Context := { d.run with frames := fs }
    change (Function.update d.tcb.context 0 r 0).frames = _
    rw [Function.update_self]

theorem yieldBody (h : Lone s) : Lone (s.yieldBody {} fs) ∧ (s.yieldBody {} fs).run.frames = .yieldSwap 0 :: fs := by
  have hio : s.checkIoEvents {} = s := checkIoEvents_none fun _ t ht => by cases ht
  let d := (((s.on .tickClock).on (.setState 0 .ready)).on (.emit 0 .yield)).enqueue 0
  have hr : (s.on .tickClock).tcb.state (s.on .tickClock).currentThread = .running := by
    change s.tcb.state s.currentThread = _
    rw [h.current]
    exact h.state
  have hd : (((s.on .tickClock).on (.setState (s.on .tickClock).currentThread .ready)).on
      (.emit (s.on .tickClock).currentThread .yield)).enqueue (s.on .tickClock).currentThread = d := by
    rw [show (s.on .tickClock).currentThread = 0 from h.current]
  have hpol : d.currentScheduler = none := h.policy
  have hsn : d.scheduleNext = (some 0, { d with lk := { s.lk with next := Function.update s.lk.next 0 none } }) := by
    unfold Sys.scheduleNext
    simp only [hpol, Links.roundRobinNext]
    rw [show d.lk.dequeue = (s.lk.enqueue 0).dequeue from rfl, dequeue_alone h.ready]
  have hy : s.yieldBody {} fs =
      (({ d with lk := { s.lk with next := Function.update s.lk.next 0 none } } : Sys).on
        (.setFrames (.yieldSwap 0 :: fs))).switchTo 0 0 := by
    unfold Sys.yieldBody
    simp only [hio, h.checkSleepList]
    rw [if_pos hr, hd, hsn, show (s.on .tickClock).currentThread = 0 from h.current]
  rw [hy]
  exact switchTo h.alive h.policy h.ready h.sleepers h.threads

theorem nest (h : Lone s) (hu : s.run.masked = false) :
    ∃ s', Trans.exec Sys.step s [.tick, .resume {}, .resume {}, .resume {}] = some s' ∧ Lone s' ∧
      s'.run.masked = false ∧ s'.run.frames = .yieldRet :: .alrmHandler :: s.run.frames := by
  let s₁ := s.alrmHandler
  have h₁ : Lone s₁ := { h with }
  have hs₁ : s.step .tick = some s₁ := by
    unfold Sys.step
    simp [h.alive, hu, s₁]
  let s₂ := (s₁.on .blockSignals).on (.setFrames (.yieldGc :: .alrmHandler :: s.run.frames))
  have h₂ : Lone s₂ := { h with }
  have hb : Lone (s₁.on .blockSignals) := { h with }
  have hs₂ : s₁.step (.resume {}) = some s₂ := by
    rw [step_resume s₁ h₁.alive rfl]
    change some (((s₁.on .blockSignals).gcFinishedThreads).on (.setFrames (.yieldGc :: .alrmHandler :: s.run.frames))) = _
    rw [hb.gcFinishedThreads]
  obtain ⟨s₃, hs₃, h₃, hf₃⟩ : ∃ s₃, s₂.step (.resume {}) = some s₃ ∧ Lone s₃ ∧
      s₃.run.frames = .yieldSwap 0 :: .alrmHandler :: s.run.frames :=
    ⟨_, step_resume s₂ h₂.alive rfl, h₂.yieldBody⟩
  have hs₄ : s₃.step (.resume {}) = some ((s₃.on .unblockSignals).ret (.yieldRet :: .alrmHandler :: s.run.frames)) :=
    step_resume s₃ h₃.alive hf₃
  refine ⟨(s₃.on .unblockSignals).ret (.yieldRet :: .alrmHandler :: s.run.frames), ?_, { h₃ with }, rfl, rfl⟩
  simp only [Trans.exec, hs₁, hs₂, hs₃, hs₄, Option.bind_some]

end Lone

theorem nested_alone (clock : Nat → Nat) (epollFd : Fd) (avail : Fd × IoDir → Bool) (n : Nat) :
    ∃ s, Sys.RunsFrom (Sys.uthreadInit clock epollFd avail) s ∧ Lone s ∧ s.run.masked = false ∧ handlers s.run.frames = n := by
  induction n with
  | zero =>
    refine ⟨Sys.uthreadInit clock epollFd avail, .init rfl, ?_, rfl, rfl⟩
    exact ⟨rfl, rfl, rfl, rfl, ⟨rfl, rfl⟩, rfl, rfl, rfl⟩
  | succ n ih =>
    obtain ⟨s, hr, hl, hu, hn⟩ := ih
    obtain ⟨s', hx, hl', hu', hf⟩ := hl.nest hu
    refine ⟨s', hr.exec (fun _ _ => trivial) hx, hl', hu', ?_⟩
    rw [hf, handlers_cons (by simp), handlers_handler, hn]

/-- In every process the activations of the handler on the main thread's stack have no bound; the ticks above
a handler activation are what adds to the first one. -/
theorem nesting_has_no_bound (clock : Nat → Nat) (epollFd : Fd) (avail : Fd × IoDir → Bool) :
    (¬ ∃ k, ∀ s, Sys.RunsFrom (Sys.uthreadInit clock epollFd avail) s → ∀ t, handlers (s.framesOf t) ≤ k) ∧
      ∀ s, Sys.RunsFrom (Sys.uthreadInit clock epollFd avail) s →
        ∃ g, Linked.Chain s.lk.globalNext s.lk.globalThreadList g ∧
          ∀ t ∈ g, handlers (s.framesOf t) ≤ 1 + nestedTicks t s.log := by
  constructor
  · intro h
    obtain ⟨k, hk⟩ := h
    obtain ⟨s, hr, -, -, hn⟩ := nested_alone clock epollFd avail (k + 1)
    have hle := hk s hr s.currentThread
    rw [framesOf_cur, hn] at hle
    omega
  · intro s hr
    exact nested_ticks hr.reachable.1

/-- Ticks in the idle loop of one sleeping thread stack up any number of handler activations. -/
theorem nesting_unbounded : ¬ ∃ k, ∀ s, Sys.Reachable s → ∀ t, handlers (s.framesOf t) ≤ k := by
  intro h
  obtain ⟨k, hk⟩ := h
  obtain ⟨s, hr, hd, -, fs, hf, hn⟩ := nested_sleep (k + 1)
  have hle := hk s hr s.currentThread
  rw [framesOf_cur, hf, handlers_cons (by simp), hn] at hle
  omega

end Uthread
