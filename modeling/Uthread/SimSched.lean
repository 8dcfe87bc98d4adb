import Uthread.Sim

/-!
# Collection, dispatching and exit

`Bd` is what holds between two steps. It is stated by the activation that
continues: the state its thread has there, and that a collection pass has just
left no other finished thread.
-/

namespace Uthread

open Trans Linked

variable {s s' : Sys} {q : Layout} {g : List Ptr} {a b : Abs} {bad : Prop} {t : Ptr} {fs : List Frame} {env : Env}

def Swept (a : Abs) : Prop := ∀ t ∈ a.glob, a.tcb.state t = .finished → t = a.currentThread

def Meets (a : Abs) : Option Frame → Prop
  | some .yieldEntry => a.tcb.state a.currentThread ≠ .ready ∧ (a.run.masked = false → a.tcb.state a.currentThread = .running)
  | some .yieldGc => a.tcb.state a.currentThread ≠ .ready ∧ Swept a ∧ a.run.masked = true
  | some (.create _) => a.tcb.state a.currentThread = .running ∧ Swept a ∧ a.run.masked = true
  | some (.yieldIdle _) => a.tcb.state a.currentThread ≠ .ready
  | some (.exitIdle _) => a.tcb.state a.currentThread = .finished
  | _ => a.tcb.state a.currentThread = .running

/-- The process ends in `uthread_yield`, or in a call of `uthread_exit` behind its collection pass. -/
structure Bd (a : Abs) : Prop where
  alive : a.exited = false → Meets a a.run.frames.head?
  exited : a.exited = true → a.run.frames.head? = some .user → Swept a

theorem Bd.of_alive (h : a.exited = false) (hm : Meets a a.run.frames.head?) : Bd a :=
  ⟨fun _ => hm, fun he => by rw [h] at he; cases he⟩

/-- One step of the machine: a chain of transitions between two boundaries. -/
def Goes (bad : Prop) (s : Sys) (q : Layout) (g : List Ptr) (s' : Sys) : Prop :=
  ∃ q' g', Prims bad (s.abs q g) (s'.abs q' g') ∧ Sim s' q' g' ∧ Bd (s'.abs q' g')

theorem Goes.mono {bad' : Prop} (hb : bad → bad') (h : Goes bad s q g s') : Goes bad' s q g s' := by
  obtain ⟨q', g', hp, hs⟩ := h
  exact ⟨q', g', Relation.ReflTransGen.mono (fun _ _ hp => ⟨hp.1, hb ∘ hp.2⟩) _ _ hp, hs⟩

/-! ## Collection -/

inductive Reaped : Abs → Abs → Prop
  | intro {a : Abs} {t : Ptr} : t ∈ a.glob → a.tcb.state t = .finished → t ≠ a.currentThread → Reaped a (a.reap t)

theorem Reaped.prims (h : Steps Reaped a b) : Prims bad a b := by
  induction h with
  | refl => exact .refl
  | tail _ hr ih =>
    obtain ⟨ht, hf, hc⟩ := hr
    exact ih.next (.reap ht hf hc) rfl

structure Same (s s' : Sys) : Prop where
  tcb : s'.tcb = s.tcb := by rfl
  run : s'.run = s.run := by rfl
  cur : s'.currentThread = s.currentThread := by rfl
  exited : s'.exited = s.exited := by rfl
  scheduler : s'.currentScheduler = s.currentScheduler := by rfl

theorem Same.trans {s'' : Sys} (h : Same s s') (h' : Same s' s'') : Same s s'' :=
  ⟨h'.tcb.trans h.tcb, h'.run.trans h.run, h'.cur.trans h.cur, h'.exited.trans h.exited, h'.scheduler.trans h.scheduler⟩

theorem Sim.gcLoop {n : Nat} (xs : List Ptr) {ys : List Ptr} (h : Sim s q (xs ++ ys)) (hn : ys.length ≤ n)
    (hxs : ∀ t ∈ xs, s.tcb.state t = .finished → t = s.currentThread) :
    ∃ g', Steps Reaped (s.abs q (xs ++ ys)) ((Sys.gcLoop n ys.head? s).abs q g') ∧ Sim (Sys.gcLoop n ys.head? s) q g' ∧
      Same s (Sys.gcLoop n ys.head? s) ∧ ∀ t ∈ g', s.tcb.state t = .finished → t = s.currentThread := by
  induction n generalizing xs ys s with
  | zero =>
    obtain rfl : ys = [] := List.length_eq_zero_iff.mp (Nat.le_zero.mp hn)
    exact ⟨xs ++ [], .refl, h, {}, by simpa using hxs⟩
  | succ n ih =>
    cases ys with
    | nil => exact ⟨xs ++ [], .refl, h, {}, by simpa using hxs⟩
    | cons y ys =>
      have hn : ys.length ≤ n := by simpa using hn
      have hnx : s.lk.globalNext y = ys.head? := chain_next h.rep.glob.fwd
      simp only [List.head?_cons, Sys.gcLoop]
      by_cases hf : s.tcb.state y = .finished ∧ y ≠ s.currentThread
      · rw [if_pos hf, hnx]
        have hnd : (xs ++ y :: ys).Nodup := h.inv.nodup
        have hy : y ∉ xs := fun hm => (List.nodup_append.mp hnd).2.2 y hm y (by simp) rfl
        have herase : (xs ++ y :: ys).erase y = xs ++ ys := by
          rw [List.erase_append_right _ hy, List.erase_cons_head]
        have hstep : Reaped (s.abs q (xs ++ y :: ys)) ((s.abs q (xs ++ y :: ys)).reap y) :=
          .intro (by simp [Sys.abs]) hf.1 hf.2
        have hinv := h.inv.reap hf.1 hf.2
        rw [show (s.abs q (xs ++ y :: ys)).reap y = _ from rfl] at hstep hinv
        unfold Abs.reap at hstep hinv
        rw [show (s.abs q (xs ++ y :: ys)).glob.erase y = xs ++ ys from herase] at hstep hinv
        obtain ⟨g', hp, hs, hk, hsw⟩ := ih (s := (({ s with lk := s.lk.globalListRemove y } : Sys).on
          (.freeGuardedStack y)).on (.free y)) xs ⟨h.rep.globalListRemove hnd, hinv⟩ hn hxs
        exact ⟨g', .head hstep hp, hs, Same.trans {} hk, hsw⟩
      · rw [if_neg hf, hnx]
        have := ih (xs ++ [y]) (by simpa using h) hn fun t ht hst => by
          rcases List.mem_append.mp ht with ht | ht
          · exact hxs t ht hst
          · obtain rfl := List.mem_singleton.mp ht
            exact not_not.mp fun hc => hf ⟨hst, hc⟩
        simpa using this

theorem Sim.gcFinishedThreads (h : Sim s q g) :
    ∃ g', Steps Reaped (s.abs q g) (s.gcFinishedThreads.abs q g') ∧ Sim s.gcFinishedThreads q g' ∧
      Same s s.gcFinishedThreads ∧ Swept (s.gcFinishedThreads.abs q g') := by
  have hh : s.lk.globalThreadList = g.head? := chain_head h.rep.glob.fwd
  obtain ⟨g', hp, hs, hk, hsw⟩ := Sim.gcLoop [] h h.glob_le (by simp)
  unfold Sys.gcFinishedThreads
  rw [← hh] at hp hs hk
  refine ⟨g', hp, hs, hk, fun t ht hf => ?_⟩
  rw [show ((Sys.gcLoop s.fuel s.lk.globalThreadList s).abs q g').tcb = s.tcb from hk.tcb] at hf
  exact (hsw t ht hf).trans hk.cur.symm

/-! ## Dispatching -/

theorem Sim.scheduleNext (h : Sim s q g) :
    ∃ lk, s.scheduleNext = (pick s.currentScheduler s.tcb (q .ready), { s with lk }) ∧
      match pick s.currentScheduler s.tcb (q .ready) with
      | some m => m ∈ q .ready ∧ Rep lk (q.drop .ready m) g
      | none => q .ready = [] ∧ lk = s.lk := by
  obtain ⟨h₁, h₂⟩ := Rep.scheduleNext s.currentScheduler h.inv.ok h.rep (h.queue_le .ready) fun _ hy => h.inv.state hy
  refine ⟨_, Prod.ext h₁ rfl, ?_⟩
  rw [h₁] at h₂; exact h₂

theorem Sim.dispatch {lk : Links} {next : Ptr} {fs : List Frame} (h : Sim s q g)
    (hn : pick s.currentScheduler s.tcb (q .ready) = some next) (hr : Rep lk (q.drop .ready next) g)
    (hm : FrameMove s.toCore s.run.frames fs)
    (hc : s.tcb.state s.currentThread ≠ .running → s.tcb.state s.currentThread ≠ .finished →
      callOf fs = callOf s.run.frames)
    (hf : fs.head? = some (.yieldSwap s.currentThread) ∨ fs.head? = some (.exitSwap s.currentThread))
    (he : s.exited = false) (hb : s.tcb.state s.currentThread = .running → bad) :
    Goes bad s q g ((({ s with lk } : Sys).on (.setFrames fs)).switchTo s.currentThread next) := by
  have hmem : next ∈ q .ready := mem_of_pick (fun _ hu => h.inv.state hu) hn
  have h₁ : Prim (s.abs q g) ((s.on (.setFrames fs)).abs q g) := .move hm hc
  have hi₁ := h₁.inv h.inv
  have h₂ : Prim ((s.on (.setFrames fs)).abs q g) (((s.on (.setFrames fs)).abs q g).switch next) := .switch hn hf
  have hp : Prims bad (s.abs q g) (((s.on (.setFrames fs)).abs q g).switch next) :=
    (Prims.one h₁ rfl).tail ⟨h₂, fun hab => hb hab.1⟩
  refine ⟨q.drop .ready next, g, hp, ⟨hr, h₂.inv hi₁⟩, .of_alive he ?_⟩
  -- `next` continues at its own `swapcontext`, or starts
  have hst : (((s.on (.setFrames fs)).abs q g).switch next).tcb.state next = .running := switch_state_self
  have hsus : ∃ f fs', (((s.on (.setFrames fs)).abs q g).switch next).run.frames = f :: fs' ∧ f.suspends = true := by
    rw [switch_run]
    split_ifs with hcur
    · change ∃ f fs', fs = f :: fs' ∧ _
      rcases hf with hf | hf <;> obtain ⟨fs', rfl⟩ := List.head?_eq_some_iff.mp hf <;> exact ⟨_, _, rfl, rfl⟩
    · exact hi₁.own.suspended next (h.inv.live hmem) hcur
  obtain ⟨f, fs', hfs, hfsus⟩ := hsus
  change Meets (((s.on (.setFrames fs)).abs q g).switch next)
    (((s.on (.setFrames fs)).abs q g).switch next).run.frames.head?
  rw [hfs]
  cases f <;> first | exact hst | cases hfsus

def Dispatchable (env : Env) (s : Sys) : Prop :=
  s.lk.readyHead ≠ none ∨ (0 ≤ s.epollFd ∧ ∃ t ∈ s.epollWait env, s.tcb.state t = .ioBlocked) ∨
    ∃ xs, Chain s.lk.next s.lk.sleepListHead xs ∧ ∃ t ∈ xs, s.tcb.sleepUntilNs t ≤ s.getTimeNs

theorem checkIoEvents_none (h : 0 ≤ s.epollFd → ∀ t ∈ s.epollWait env, s.tcb.state t ≠ .ioBlocked) :
    s.checkIoEvents env = s := by
  unfold Sys.checkIoEvents
  split
  · rfl
  · next he =>
    have hno := h (not_lt.mp he)
    generalize s.epollWait env = ts at hno
    induction ts with
    | nil => rfl
    | cons t ts ih =>
      rw [List.foldl_cons]
      have : s.ioEvent t = s := by
        unfold Sys.ioEvent
        exact if_neg (hno t (by simp))
      rw [this]
      exact ih fun u hu => hno u (List.mem_cons_of_mem _ hu)

theorem checkIoEvents_idle (h : ¬ Dispatchable env s) : s.checkIoEvents env = s :=
  checkIoEvents_none fun he t ht hst => h (.inr (.inl ⟨he, t, ht, hst⟩))

theorem sleepLoop_idle {now : Nat} : ∀ {n : Nat} {p h : Option Ptr} {xs : List Ptr}, Chain s.lk.next h xs →
    (∀ t ∈ xs, ¬ s.tcb.sleepUntilNs t ≤ now) → Sys.sleepLoop now n p h s = s
  | 0, _, _, _, _, _ => by simp [Sys.sleepLoop]
  | n + 1, p, h, [], hc, _ => by
    obtain rfl : h = none := hc
    rfl
  | n + 1, p, h, x :: xs, hc, hd => by
    obtain ⟨rfl, hc⟩ := hc
    simp only [Sys.sleepLoop, hd x (by simp), ite_false]
    exact sleepLoop_idle hc fun t ht => hd t (List.mem_cons_of_mem _ ht)

theorem Sim.checks_idle (h : Sim s q g) (hd : ¬ Dispatchable env s) :
    (s.checkIoEvents env).checkSleepList = s.on .tickClock := by
  have hsl := h.rep.chain .sleep
  rw [checkIoEvents_idle hd]
  unfold Sys.checkSleepList
  exact sleepLoop_idle (s := s.on .tickClock) hsl fun t ht hle => hd (.inr (.inr ⟨_, hsl, t, ht, hle⟩))

theorem Sim.ready_nil (h : Sim s q g) (hh : s.lk.readyHead = none) : q .ready = [] := by
  rw [show s.lk.readyHead = (q .ready).head? from chain_head (h.rep.chain .ready)] at hh
  exact List.head?_eq_none_iff.mp hh

theorem Sim.checks (h : Sim s q g) (env : Env) :
    ∃ q', Wakes (s.abs q g) ((s.checkIoEvents env).checkSleepList.abs q' g) ∧
      Sim (s.checkIoEvents env).checkSleepList q' g := by
  obtain ⟨q₁, hw₁, h₁⟩ := h.checkIoEvents env
  obtain ⟨q₂, hw₂, h₂⟩ := h₁.checkSleepList
  exact ⟨q₂, hw₁.trans hw₂, h₂⟩

theorem Sim.blockSignals (h : Sim s q g) :
    Prim (s.abs q g) ((s.on .blockSignals).abs q g) ∧ Sim (s.on .blockSignals) q g :=
  have hp : Prim (s.abs q g) ((s.on .blockSignals).abs q g) := .quiet (.mask true)
  ⟨hp, h.rep, hp.inv h.inv⟩

theorem Goes.last {q' : Layout} {g' : List Ptr} (hp : Prims bad (s.abs q g) a) (hi : Inv a)
    (hl : Prim a (s'.abs q' g')) (hc : s'.currentThread = a.currentThread) (hr : Rep s'.lk q' g')
    (hb : Bd (s'.abs q' g')) : Goes bad s q g s' :=
  ⟨q', g', hp.next hl hc, ⟨hr, hl.inv hi⟩, hb⟩

/-! ## `uthread_yield` and `uthread_exit` -/

theorem Inv.not_ready (h : Inv a) (hq : a.q .ready = []) : a.tcb.state a.currentThread ≠ .ready := fun hs => by
  have := h.ready _ h.cur hs
  rw [hq] at this; cases this

theorem Sim.prev_eq {f : Frame} (h : Sim s q g) {p : Ptr} (hf : s.run.frames = f :: fs) (hp : f.prev? = some p) :
    p = s.currentThread := by
  have hm : f ∈ (s.abs q g).framesOf s.currentThread := by
    rw [show (s.abs q g).framesOf s.currentThread = s.run.frames from if_pos rfl, hf]; simp
  rcases h.inv.prevs _ h.inv.cur f hm with he | he <;> rw [hp] at he <;> cases he
  rfl

theorem idlePass_eq {idle swap : Ptr → Frame} {p : Ptr} {d : Sys}
    (hd : ((s.on .blockSignals).checkIoEvents env).checkSleepList = d) : s.idlePass env idle swap p fs =
      match d.scheduleNext with
      | (some next, e) => (e.on (.setFrames (swap p :: fs))).switchTo p next
      | (none, e) => (e.on (.setFrames (idle p :: fs))).on .unblockSignals := by
  subst hd
  rfl

/-- The idle loop of `uthread_yield` abandons its thread only by dispatching while that is RUNNING. -/
theorem Sim.idlePass (idle swap : Ptr → Frame) {p : Ptr} (h : Sim s q g) (hx : s.exited = false)
    (hf : s.run.frames = idle p :: fs) (hp : p = s.currentThread)
    (hm : ∀ c : Core, c.currentThread = p → FrameMove c (idle p :: fs) (swap p :: fs))
    (hc : s.tcb.state s.currentThread = .finished ∨ callOf (swap p :: fs) = callOf (idle p :: fs))
    (hs : swap p = .yieldSwap p ∨ swap p = .exitSwap p)
    (hb : ∀ b : Abs, b.currentThread = p → (s.tcb.state p = .finished → b.tcb.state p = .finished) →
      b.tcb.state p ≠ .ready → Meets b (some (idle p))) :
    Goes (s.tcb.state s.currentThread = .running ∧ Dispatchable env s) s q g (s.idlePass env idle swap p fs) := by
  obtain ⟨hp₁, h₁⟩ := h.blockSignals
  obtain ⟨q₂, hw, h₂⟩ := h₁.checks env
  have hk := hw.kept
  rw [idlePass_eq rfl]
  have hidle : ¬ Dispatchable env s → q₂ .ready = [] := by
    intro hd
    have hd' : ¬ Dispatchable env (s.on .blockSignals) := hd
    refine h₂.ready_nil ?_
    rw [h₁.checks_idle hd']
    exact not_not.mp fun hne => hd (.inl hne)
  generalize ((s.on .blockSignals).checkIoEvents env).checkSleepList = s₂ at hw h₂ hk ⊢
  have hpre : Prims (s.tcb.state s.currentThread = .running ∧ Dispatchable env s) (s.abs q g) (s₂.abs q₂ g) :=
    (Prims.one hp₁ rfl).trans hw.prims
  have hf₂ : s₂.run.frames = idle p :: fs := by
    rw [show s₂.run = (s.on .blockSignals).run from hk.run]; exact hf
  have hp₂ : s₂.currentThread = p := by
    rw [hp]; exact hk.cur
  have hx₂ : s₂.exited = false := by
    rw [show s₂.exited = (s.on .blockSignals).exited from hk.exited]; exact hx
  have hst : s₂.tcb.state p = s.tcb.state p ∨ s.tcb.state p = .ioBlocked ∧ s₂.tcb.state p = .ready := hk.state p
  obtain ⟨lk, hsn, hlk⟩ := h₂.scheduleNext
  rw [hsn]
  cases hpk : pick s₂.currentScheduler s₂.tcb (q₂ .ready) with
  | some next =>
    rw [hpk] at hlk
    have hdisp : Goes (s.tcb.state s.currentThread = .running ∧ Dispatchable env s) s₂ q₂ g
        ((({ s₂ with lk } : Sys).on (.setFrames (swap p :: fs))).switchTo s₂.currentThread next) := by
      refine h₂.dispatch hpk hlk.2 (hf₂ ▸ hm s₂.toCore hp₂) (fun h₁ h₂ => ?_) ?_ hx₂ fun hr => ⟨?_, ?_⟩
      · rcases hc with hc | hc
        · rw [hp₂] at h₂
          rw [← hp] at hc
          rcases hst with e | ⟨e, -⟩
          · rw [e] at h₂; exact absurd hc h₂
          · rw [e] at hc; cases hc
        · rw [hf₂]; exact hc
      · rw [hp₂]; exact hs.imp (congrArg some) (congrArg some)
      · rw [hp₂] at hr
        rw [← hp]
        rcases hst with e | ⟨-, e⟩
        · rw [← e]; exact hr
        · rw [e] at hr; cases hr
      · refine not_not.mp fun hd => ?_
        rw [hidle hd] at hlk
        exact absurd hlk.1 List.not_mem_nil
    obtain ⟨q', g', hp', hs', hb'⟩ := hdisp
    rw [hp₂] at hp' hs' hb'
    exact ⟨q', g', hpre.trans hp', hs', hb'⟩
  | none =>
    rw [hpk] at hlk
    obtain ⟨hq, rfl⟩ := hlk
    have hlast : Prim (s₂.abs q₂ g) ((s₂.on .unblockSignals).abs q₂ g) := .quiet (.mask false)
    have heq : (s₂.on (.setFrames (idle p :: fs))).on .unblockSignals = s₂.on .unblockSignals := by
      rw [← hf₂]; rfl
    have hnr : s₂.tcb.state s₂.currentThread ≠ .ready := h₂.inv.not_ready hq
    change Goes _ s q g ((s₂.on (.setFrames (idle p :: fs))).on .unblockSignals)
    rw [heq]
    refine Goes.last hpre h₂.inv hlast rfl h₂.rep (.of_alive hx₂ ?_)
    change Meets _ s₂.run.frames.head?
    rw [hf₂]
    refine hb _ hp₂ (fun hfin => ?_) (hp₂ ▸ hnr)
    rcases hst with e | ⟨e, -⟩
    · exact e.trans hfin
    · rw [hfin] at e; cases e

theorem Sim.yieldEnter (h : Sim s q g) (hx : s.exited = false) (hb : Bd (s.abs q g))
    (hf : s.run.frames = .yieldEntry :: fs) : Goes bad s q g (s.yieldEnter fs) := by
  obtain ⟨hp₁, h₁⟩ := h.blockSignals
  obtain ⟨g', hr, h₂, hk, hsw⟩ := h₁.gcFinishedThreads
  unfold Sys.yieldEnter
  change Goes _ s q g ((s.on .blockSignals).gcFinishedThreads.on (.setFrames (.yieldGc :: fs)))
  have hpre : Prims bad (s.abs q g) ((s.on .blockSignals).gcFinishedThreads.abs q g') :=
    (Prims.one hp₁ rfl).trans (Reaped.prims hr)
  have hst : s.tcb.state s.currentThread ≠ .ready := by
    have := hb.alive hx
    rw [show (s.abs q g).run.frames = _ from hf] at this
    exact this.1
  generalize (s.on .blockSignals).gcFinishedThreads = s₂ at *
  have hf₂ : s₂.run.frames = .yieldEntry :: fs := by rw [hk.run]; exact hf
  have hmask : s₂.run.masked = true := by rw [hk.run]; rfl
  have hlast : Prim (s₂.abs q g') ((s₂.on (.setFrames (.yieldGc :: fs))).abs q g') :=
    .move (by rw [show (s₂.abs q g').run.frames = _ from hf₂]; exact .collected)
      (fun _ _ => by rw [show (s₂.abs q g').run.frames = _ from hf₂]; rfl)
  refine Goes.last hpre h₂.inv hlast rfl h₂.rep (.of_alive (hk.exited.trans hx) ⟨?_, hsw, hmask⟩)
  change s₂.tcb.state s₂.currentThread ≠ .ready
  rw [hk.tcb, hk.cur]; exact hst

theorem Sim.yieldBody (h : Sim s q g) (hx : s.exited = false) (hf : s.run.frames = .yieldGc :: fs) :
    Goes bad s q g (s.yieldBody env fs) := by
  obtain ⟨q₁, hw, h₁⟩ := h.checks env
  have hk := hw.kept
  have hpre₁ : Prims bad (s.abs q g) ((s.checkIoEvents env).checkSleepList.abs q₁ g) := hw.prims
  unfold Sys.yieldBody
  simp only
  generalize (s.checkIoEvents env).checkSleepList = s₁ at *
  have hf₁ : s₁.run.frames = .yieldGc :: fs := by
    rw [show s₁.run = s.run from hk.run]; exact hf
  have hx₁ : s₁.exited = false := hk.exited.trans hx
  -- whether or not the thread is put into the ready queue, it is not RUNNING after that
  obtain ⟨s₂, q₂, hs₂, hpre₂, h₂, hf₂, hx₂, hcur, hnr⟩ : ∃ s₂ q₂,
      (if s₁.tcb.state s₁.currentThread = .running then
        ((s₁.on (.setState s₁.currentThread .ready)).on (.emit s₁.currentThread .yield)).enqueue s₁.currentThread
        else s₁) = s₂ ∧ Prims bad (s.abs q g) (s₂.abs q₂ g) ∧ Sim s₂ q₂ g ∧ s₂.run.frames = .yieldGc :: fs ∧
      s₂.exited = false ∧ s₂.currentThread = s₁.currentThread ∧ s₂.tcb.state s₂.currentThread ≠ .running := by
    by_cases hr : s₁.tcb.state s₁.currentThread = .running
    · have hp : Prim (s₁.abs q₁ g) (s₁.abs q₁ g).preempt := .preempt hr
      have hno := h₁.inv.notMem_of_running hr
      refine ⟨_, q₁.push .ready s₁.currentThread, if_pos hr, hpre₁.next hp rfl,
        ⟨h₁.rep.enqueue h₁.inv.ok hno, hp.inv h₁.inv⟩, hf₁, hx₁, rfl, fun e => ?_⟩
      have : TState.ready = .running := (Function.update_self ..).symm.trans e
      cases this
    · exact ⟨s₁, q₁, if_neg hr, hpre₁, h₁, hf₁, hx₁, rfl, hr⟩
  rw [hs₂, ← hcur]
  obtain ⟨lk, hsn, hlk⟩ := h₂.scheduleNext
  rw [hsn]
  have hcall : ∀ f : Frame, f = .yieldSwap s₂.currentThread ∨ f = .yieldIdle s₂.currentThread →
      callOf (f :: fs) = callOf s₂.run.frames := by
    rintro f (rfl | rfl) <;> rw [hf₂] <;> rfl
  cases hpk : pick s₂.currentScheduler s₂.tcb (q₂ .ready) with
  | some next =>
    rw [hpk] at hlk
    obtain ⟨q', g', hp', hs', hb'⟩ : Goes bad s₂ q₂ g
        ((({ s₂ with lk } : Sys).on (.setFrames (.yieldSwap s₂.currentThread :: fs))).switchTo s₂.currentThread next) :=
      h₂.dispatch hpk hlk.2 (hf₂ ▸ .save) (fun _ _ => hcall _ (.inl rfl)) (.inl rfl) hx₂ fun hr => absurd hr hnr
    exact ⟨q', g', hpre₂.trans hp', hs', hb'⟩
  | none =>
    rw [hpk] at hlk
    obtain ⟨hq, rfl⟩ := hlk
    have hrdy : s₂.tcb.state s₂.currentThread ≠ .ready := h₂.inv.not_ready hq
    simp only [hrdy, ite_false]
    by_cases hlive : s₂.lk.hasLive s₂.tcb.state s₂.fuel s₂.lk.globalThreadList ∧ 0 ≤ s₂.epollFd
    · change Goes bad s q g (if s₂.lk.hasLive s₂.tcb.state s₂.fuel s₂.lk.globalThreadList ∧ 0 ≤ s₂.epollFd then _ else _)
      rw [if_pos hlive]
      have hm : Prim (s₂.abs q₂ g) ((s₂.on (.setFrames (.yieldIdle s₂.currentThread :: fs))).abs q₂ g) :=
        .move (by rw [show (s₂.abs q₂ g).run.frames = _ from hf₂]; exact .idle hnr) fun _ _ => hcall _ (.inr rfl)
      refine Goes.last (hpre₂.next hm rfl) (hm.inv h₂.inv) (.quiet (.mask false)) rfl h₂.rep (.of_alive hx₂ hrdy)
    · change Goes bad s q g (if s₂.lk.hasLive s₂.tcb.state s₂.fuel s₂.lk.globalThreadList ∧ 0 ≤ s₂.epollFd then _ else _)
      rw [if_neg hlive]
      refine Goes.last hpre₂ h₂.inv (.quiet .exit) rfl h₂.rep ⟨fun e => (by cases e), fun _ hu => ?_⟩
      have hu : s₂.run.frames.head? = some .user := hu
      rw [hf₂] at hu; cases hu

theorem uthreadExit_eq {d : Sys} (hd : ((((((s.on .blockSignals).on (.setState s.currentThread .finished)).on
      (.note (.finished s.currentThread))).on (.emit s.currentThread .exit)).checkIoEvents env).checkSleepList) = d) :
    s.uthreadExit env =
      match d.scheduleNext with
      | (some next, e) => (e.on (.setFrames (.exitSwap s.currentThread :: s.run.frames))).switchTo s.currentThread next
      | (none, e) =>
        if e.lk.hasLive e.tcb.state e.fuel e.lk.globalThreadList ∧ 0 ≤ e.epollFd then
          (e.on (.setFrames (.exitIdle s.currentThread :: s.run.frames))).on .unblockSignals
        else { e.gcFinishedThreads with exited := true } := by
  subst hd
  rfl

theorem Sim.uthreadExit (h : Sim s q g) (hx : s.exited = false) (hr : s.tcb.state s.currentThread = .running)
    (hu : s.run.frames = .user :: fs) : Goes bad s q g (s.uthreadExit env) := by
  obtain ⟨hp₁, h₁⟩ := h.blockSignals
  have hp₂ : Prim ((s.on .blockSignals).abs q g) ((s.on .blockSignals).abs q g).finish := .finish hr hu
  have h₂ : Sim (((((s.on .blockSignals).on (.setState s.currentThread .finished)).on
      (.note (.finished s.currentThread))).on (.emit s.currentThread .exit))) q g := ⟨h.rep, hp₂.inv h₁.inv⟩
  obtain ⟨q₃, hw, h₃⟩ := h₂.checks env
  have hpre : Prims bad (s.abs q g) ((((((s.on .blockSignals).on (.setState s.currentThread .finished)).on
      (.note (.finished s.currentThread))).on (.emit s.currentThread .exit)).checkIoEvents env).checkSleepList.abs q₃ g) :=
    ((Prims.one hp₁ rfl).next hp₂ rfl).trans hw.prims
  have hk := hw.kept
  rw [uthreadExit_eq rfl]
  have hfin₂ : (((s.on .blockSignals).abs q g).finish).tcb.state s.currentThread = .finished := Function.update_self ..
  have hfin : (((((((s.on .blockSignals).on (.setState s.currentThread .finished)).on
      (.note (.finished s.currentThread))).on (.emit s.currentThread .exit)).checkIoEvents env).checkSleepList).tcb.state
        s.currentThread) = .finished := by
    rcases hk.state s.currentThread with e | ⟨e, -⟩
    · exact e.trans hfin₂
    · cases hfin₂.symm.trans e
  generalize (((((s.on .blockSignals).on (.setState s.currentThread .finished)).on
      (.note (.finished s.currentThread))).on (.emit s.currentThread .exit)).checkIoEvents env).checkSleepList = s₃ at *
  have hcur : s₃.currentThread = s.currentThread := hk.cur
  have hfr : s₃.run.frames = s.run.frames := by
    have := congrArg Context.frames hk.run
    exact this
  have hx₃ : s₃.exited = false := hk.exited.trans hx
  have hu₃ : s₃.run.frames = .user :: fs := hfr.trans hu
  rw [← hcur] at hfin ⊢
  rw [← hfr]
  obtain ⟨lk, hsn, hlk⟩ := h₃.scheduleNext
  rw [hsn]
  cases hpk : pick s₃.currentScheduler s₃.tcb (q₃ .ready) with
  | some next =>
    rw [hpk] at hlk
    obtain ⟨q', g', hp', hs', hb'⟩ : Goes bad s₃ q₃ g
        ((({ s₃ with lk } : Sys).on (.setFrames (.exitSwap s₃.currentThread :: s₃.run.frames))).switchTo
          s₃.currentThread next) :=
      h₃.dispatch hpk hlk.2 (by rw [hu₃]; exact .exitSave hfin) (fun _ hn => absurd hfin hn) (.inr rfl) hx₃ fun hr => by
        rw [hfin] at hr; cases hr
    exact ⟨q', g', hpre.trans hp', hs', hb'⟩
  | none =>
    rw [hpk] at hlk
    obtain ⟨-, rfl⟩ := hlk
    by_cases hlive : s₃.lk.hasLive s₃.tcb.state s₃.fuel s₃.lk.globalThreadList ∧ 0 ≤ s₃.epollFd
    · change Goes bad s q g (if s₃.lk.hasLive s₃.tcb.state s₃.fuel s₃.lk.globalThreadList ∧ 0 ≤ s₃.epollFd then _ else _)
      rw [if_pos hlive]
      have hm : Prim (s₃.abs q₃ g) ((s₃.on (.setFrames (.exitIdle s₃.currentThread :: s₃.run.frames))).abs q₃ g) :=
        .move (by rw [show (s₃.abs q₃ g).run.frames = _ from hu₃, hu₃]; exact .exitIdle hfin) fun _ hn => absurd hfin hn
      refine Goes.last (hpre.next hm rfl) (hm.inv h₃.inv) (.quiet (.mask false)) rfl h₃.rep (.of_alive hx₃ hfin)
    · change Goes bad s q g (if s₃.lk.hasLive s₃.tcb.state s₃.fuel s₃.lk.globalThreadList ∧ 0 ≤ s₃.epollFd then _ else
        ({ s₃.gcFinishedThreads with exited := true } : Sys))
      rw [if_neg hlive]
      obtain ⟨g', hr', h₄, -, hsw⟩ := h₃.gcFinishedThreads
      refine Goes.last (hpre.trans (Reaped.prims hr')) h₄.inv (.quiet .exit) rfl h₄.rep ⟨fun e => (by cases e), fun _ _ => hsw⟩

end Uthread
