import Uthread.Fifo
import Uthread.Crowd
import Uthread.Lib.Rota
import Uthread.Lib.Splice

/-!
# Sharing the processor under `priority_next`

When every thread only yields, `uthread_yield` puts the running thread behind
the others and dispatches the first thread of least (priority,
creation_order). Threads of one priority take turns only as far as their
creation orders do not tell them apart.
-/

namespace Uthread

open Trans Linked

namespace Sys

/-- The steps of a thread that calls nothing but `uthread_yield`, also from the SIGALRM handler; it may first
return from the call it was dispatched in. -/
def yielding (s : Sys) : Action → Bool
  | .call .yield _ => true
  | .call _ _ => false
  | .resume _ =>
    match s.run.frames.head? with
    | some .start | some .yieldEntry | some .yieldGc | some (.yieldSwap _) | some .yieldRet | some .alrmHandler => true
    | some (.waiting _) | some (.sleeping _) | some (.ioWait _ _) | some (.ioRetry _ _) | some (.ioDone _ _ _) => true
    | some (.createRet _) => true
    | _ => false
  | .tick => true
  | .avail _ _ _ => true
  | .errno _ => true

/-- The threads that a call of `uthread_yield` wakes, in the order in which it appends them to the ready queue. -/
def woken (env : Env) (s : Sys) : List Ptr :=
  let s' := (s.checkIoEvents env).checkSleepList
  ((enqueued s'.log).take ((enqueued s'.log).length - (enqueued s.log).length)).reverse

def arrives (s : Sys) : Action → List (List Ptr)
  | .resume env => if s.run.frames.head? = some .yieldGc then [s.woken env] else []
  | _ => []

def arrivals : Sys → List Action → List (List Ptr)
  | _, [] => []
  | s, a :: as => s.arrives a ++ (s.step a).elim [] fun s' => arrivals s' as

def yields (s : Sys) (as : List Action) : Option Sys := exec (fun s a => if s.yielding a then s.step a else none) s as

end Sys

variable {s s' c d : Sys} {q q' : Layout} {g : List Ptr} {a b : Abs} {act : Action} {acts : List Action} {env : Env}
  {fs : List Frame} {t u next : Ptr}

/-! ## Steps -/

structure Sharing (s s' : Sys) : Prop where
  scheduler : s'.currentScheduler = s.currentScheduler := by rfl
  priority : s'.tcb.priority = s.tcb.priority := by rfl
  creationOrder : s'.tcb.creationOrder = s.tcb.creationOrder := by rfl
  running : s'.tcb.state s'.currentThread = .running

theorem Sharing.rank (h : Sharing s s') : rank s'.tcb = rank s.tcb := by
  funext t
  unfold Uthread.rank
  rw [h.priority, h.creationOrder]

structure Waits (s s' : Sys) (q : Layout) : Prop where
  sharing : Sharing s s'
  cur : s'.currentThread = s.currentThread
  dispatched : dispatched s'.log = dispatched s.log
  ready : ∀ q' g', Rep s'.lk q' g' → q' .ready = q .ready

theorem Sim.waits (h : Sim s q g) (hr : s.tcb.state s.currentThread = .running) (hok : s.yielding act = true)
    (hs : s.step act = some s') (ha : s.arrives act = []) : Waits s s' q := by
  have hsame : ∀ {s'}, Sharing s s' → s'.currentThread = s.currentThread → dispatched s'.log = dispatched s.log →
      s'.lk = s.lk → Waits s s' q := by
    intro s' hsh hcur hd hlk
    exact ⟨hsh, hcur, hd, fun q' g' hr => Sim.ready_eq (hlk ▸ hr) h.rep⟩
  unfold Sys.step at hs
  split at hs
  · cases hs
  · cases act with
    | call op env =>
      cases op <;> simp only [Sys.yielding, Bool.false_eq_true] at hok
      simp only [Option.ite_none_right_eq_some, Sys.call, Option.some.injEq] at hs
      obtain ⟨-, rfl⟩ := hs
      exact hsame { running := hr } rfl rfl rfl
    | tick =>
      simp only [Option.ite_none_left_eq_some, Option.some.injEq] at hs
      obtain ⟨-, rfl⟩ := hs
      exact hsame { running := hr } rfl rfl rfl
    | avail fd dir b =>
      cases hs
      exact hsame { running := hr } rfl rfl rfl
    | errno e =>
      simp only [Option.ite_none_left_eq_some, Option.some.injEq] at hs
      obtain ⟨-, rfl⟩ := hs
      exact hsame { running := hr } rfl rfl rfl
    | resume env =>
      cases hf : s.run.frames with
      | nil =>
        rw [hf] at hs
        cases hs
      | cons f fs =>
        simp only [Sys.yielding, Sys.arrives, hf, List.head?_cons] at hok ha hs
        cases f <;> simp only [Sys.resume, Option.some.injEq, reduceCtorEq, Bool.false_eq_true] at hs hok ha <;> try subst hs
        case yieldEntry =>
          obtain ⟨-, h₁⟩ := h.blockSignals
          obtain ⟨g', -, h₂, hk, -⟩ := h₁.gcFinishedThreads
          have hgc : Unscheduled (s.on .blockSignals) (s.on .blockSignals).gcFinishedThreads := gcFinishedThreads_unscheduled
          refine ⟨⟨hk.scheduler, congrArg Tcbs.priority hk.tcb, congrArg Tcbs.creationOrder hk.tcb, ?_⟩, hk.cur, hgc.dispatched,
            fun q' g' hr => Sim.ready_eq hr h₂.rep⟩
          change (s.on .blockSignals).gcFinishedThreads.tcb.state (s.on .blockSignals).gcFinishedThreads.currentThread = _
          rw [hk.tcb, hk.cur]
          exact hr
        case yieldGc => simp at ha
        case ioRetry fd dir =>
          obtain ⟨htcb, hlk, hcur, hsch⟩ : (s.ioRetry env fd dir fs).tcb = s.tcb ∧ (s.ioRetry env fd dir fs).lk = s.lk ∧
            (s.ioRetry env fd dir fs).currentThread = s.currentThread ∧
            (s.ioRetry env fd dir fs).currentScheduler = s.currentScheduler := systemCall_frame
          refine hsame ⟨hsch, congrArg _ htcb, congrArg _ htcb, ?_⟩ hcur systemCall_unscheduled.dispatched hlk
          rw [htcb, hcur]
          exact hr
        all_goals exact hsame { running := hr } rfl rfl rfl

theorem Appends.trans {x : Abs} (h : Appends a b) (h' : Appends b x) : Appends a x := by
  obtain ⟨es, hlog, hd, hq⟩ := h.log
  obtain ⟨es', hlog', hd', hq'⟩ := h'.log
  refine ⟨es' ++ es, by rw [hlog', hlog, List.append_assoc], by rw [dispatched_append, hd', hd]; rfl, ?_⟩
  rw [hq', hq, enqueued_append, List.reverse_append, List.append_assoc]

theorem ioWake_ready (a : Abs) (t : Ptr) : (a.ioWake t).q .ready = a.q .ready ++ [t] := by
  change (a.q.push .ready t) .ready = _
  rw [Layout.push_self]

theorem sleepWake_ready (a : Abs) (t : Ptr) : (a.sleepWake t).q .ready = a.q .ready ++ [t] := by
  change ((a.q.drop .sleep t).push .ready t) .ready = _
  rw [Layout.push_self, Layout.drop_of_ne (by simp)]

theorem Wakes.appends (h : Wakes a b) : Appends a b := by
  induction h with
  | refl => exact .silent rfl rfl
  | tail _ hw ih =>
    refine ih.trans ?_
    cases hw with
    | clock => exact .silent rfl rfl
    | io => exact ⟨[.enq _, .ioEvent _ _], rfl, rfl, ioWake_ready ..⟩
    | sleep => exact .enq rfl (sleepWake_ready ..)

theorem Sim.woken (h : Sim s q g) (env : Env) :
    ∃ q₁, Wakes (s.abs q g) ((s.checkIoEvents env).checkSleepList.abs q₁ g) ∧
      Sim (s.checkIoEvents env).checkSleepList q₁ g ∧ q₁ .ready = q .ready ++ s.woken env := by
  obtain ⟨q₁, hw, h₁⟩ := h.checks env
  obtain ⟨es, hlog, -, hq⟩ := Wakes.appends hw
  have he : s.woken env = (enqueued es).reverse := by
    have hlog : (s.checkIoEvents env).checkSleepList.log = es ++ s.log := hlog
    unfold Sys.woken
    simp only [hlog, enqueued_append, List.length_append, Nat.add_sub_cancel, List.take_left']
  exact ⟨q₁, hw, h₁, he ▸ hq⟩

theorem Sim.turns (h : Sim s q g) (hb : Bd (s.abs q g)) (hr : s.tcb.state s.currentThread = .running)
    (hpol : s.currentScheduler = some .priority) (hf : s.run.frames.head? = some .yieldGc)
    (hs : s.step (.resume env) = some s') : Sharing s s' ∧ s.currentThread ∉ s.woken env ∧
      dispatched s'.log = s'.currentThread :: dispatched s.log ∧
      ∀ q' g', Rep s'.lk q' g' →
        (⟨q' .ready, s'.currentThread⟩ : Rota.State Ptr) = Rota.turn (rank s.tcb) ⟨q .ready, s.currentThread⟩ (s.woken env) := by
  obtain ⟨q₁, hw, h₁, hq₁⟩ := h.woken env
  have hk := Wakes.kept hw
  have hc : s.atSchedule (.resume env) = some (s.yieldQueued env) := by
    simp only [Sys.atSchedule, hf]
  obtain ⟨qc, hpc, hsc⟩ := h.atSchedule hb hs hc
  have hset := ahead_settled hpc
  have hans := h.answers hs hc hset.cur
  -- the queue in which `schedule_next` searches
  have hst : (s.checkIoEvents env).checkSleepList.tcb.state (s.checkIoEvents env).checkSleepList.currentThread = .running := by
    rw [show (s.checkIoEvents env).checkSleepList.currentThread = s.currentThread from hk.cur]
    rcases hk.state s.currentThread with e | ⟨e, -⟩
    · exact e.trans hr
    · exact absurd (hr.symm.trans e) (by simp)
  have hcur : (s.checkIoEvents env).checkSleepList.currentThread = s.currentThread := hk.cur
  have hqc : qc .ready = q .ready ++ s.woken env ++ [s.currentThread] := by
    have hno := h₁.inv.notMem_of_running hst
    have hrep := h₁.rep.enqueue h₁.inv.ok hno
    have hlk : (s.yieldQueued env).lk = (s.checkIoEvents env).checkSleepList.lk.enqueue
        (s.checkIoEvents env).checkSleepList.currentThread := by
      unfold Sys.yieldQueued
      simp only [hst, if_true]
      rfl
    have hpush := (Sim.ready_eq (hlk ▸ hsc.rep) hrep).trans Layout.push_self
    rw [hcur] at hpush
    rw [← hq₁]
    exact hpush
  have hrank : rank (s.yieldQueued env).tcb = rank s.tcb := by
    funext t
    unfold rank
    rw [show (s.yieldQueued env).tcb.priority = _ from hset.priority,
      show (s.yieldQueued env).tcb.creationOrder = _ from hset.creationOrder]
    rfl
  -- a first thread of least rank is dispatched
  obtain ⟨next, hnext⟩ := Rota.argmin_waiting (rank s.tcb) ⟨q .ready, s.currentThread⟩ (s.woken env)
  have hpick : pick (s.yieldQueued env).currentScheduler (s.yieldQueued env).tcb (qc .ready) = some next := by
    have hall : (qc .ready).filter ((s.yieldQueued env).tcb.state · = .ready) = qc .ready := by
      refine List.filter_eq_self.mpr fun t ht => ?_
      have hready : (s.yieldQueued env).tcb.state t = .ready := hsc.inv.state ht
      simpa using hready
    rw [show (s.yieldQueued env).currentScheduler = _ from hset.scheduler.trans hpol]
    change (qc .ready).foldl _ none = _
    rw [foldl_bestStep_eq, least, hall, hrank, hqc]
    exact hnext
  obtain ⟨lk, hsn, hlk⟩ := hsc.scheduleNext
  rw [hpick] at hsn hlk
  obtain ⟨fs, rfl⟩ := hans.found _ _ hsn
  have hlog : dispatched (s.yieldQueued env).log = dispatched s.log := ahead_dispatched hpc
  refine ⟨⟨hset.scheduler, hset.priority, hset.creationOrder, Function.update_self ..⟩, ?_, ?_, ?_⟩
  · have hnd := hsc.inv.ok.nodup .ready
    rw [show (((s.yieldQueued env).abs qc g).q .ready) = _ from hqc, List.nodup_append] at hnd
    exact fun hm => hnd.2.2 _ (List.mem_append_right _ hm) s.currentThread (by simp) rfl
  · change next :: dispatched (s.yieldQueued env).log = _
    rw [hlog]
    rfl
  · intro q' g' hr'
    rw [Rota.turn_eq hnext]
    have hq' := Sim.ready_eq hr' hlk.2
    rw [Layout.drop_self, hqc] at hq'
    rw [hq']
    rfl

/-! ## Runs -/

theorem Sim.shares : ∀ {acts : List Action} {s : Sys} {q : Layout} {g : List Ptr}, Sim s q g → Bd (s.abs q g) →
    s.tcb.state s.currentThread = .running → s.currentScheduler = some .priority → s.yields acts = some s' →
    dispatched s'.log =
        (Rota.served (rank s.tcb) ⟨q .ready, s.currentThread⟩ (s.arrivals acts)).reverse ++ dispatched s.log ∧
      ∀ W, (s.arrivals acts).head? = some W → s.currentThread ∉ W
  | [], s, q, g, _, _, _, _, hex => by
    cases hex
    exact ⟨rfl, fun W hW => by cases hW⟩
  | act :: acts, s, q, g, h, hb, hr, hpol, hex => by
    obtain ⟨s₁, hs, hrest⟩ := Option.bind_eq_some_iff.mp hex
    simp only [Option.ite_none_right_eq_some] at hs
    obtain ⟨hok, hs⟩ := hs
    obtain ⟨q₁, g₁, -, h₁, hb₁⟩ := h.step hb hs
    have harr : s.arrivals (act :: acts) = s.arrives act ++ s₁.arrivals acts := by
      simp only [Sys.arrivals, hs, Option.elim_some]
    by_cases ha : s.arrives act = []
    · -- the queue and the running thread stay what they are
      have hw := h.waits hr hok hs ha
      obtain ⟨hd, hfresh⟩ := h₁.shares hb₁ hw.sharing.running (hw.sharing.scheduler.trans hpol) hrest
      rw [hw.sharing.rank, hw.cur, hw.dispatched, show q₁ .ready = q .ready from hw.ready _ _ h₁.rep] at hd
      rw [hw.cur] at hfresh
      rw [harr, ha, List.nil_append]
      exact ⟨hd, hfresh⟩
    · -- a turn
      cases act with
      | resume env =>
        have hf : s.run.frames.head? = some .yieldGc := by
          by_contra hno
          exact ha (if_neg hno)
        have hone : s.arrives (.resume env) = [s.woken env] := if_pos hf
        obtain ⟨hsh, hno, hlog, hturn⟩ := h.turns hb hr hpol hf hs
        obtain ⟨hd, -⟩ := h₁.shares hb₁ hsh.running (hsh.scheduler.trans hpol) hrest
        have hturn : (⟨q₁ .ready, s₁.currentThread⟩ : Rota.State Ptr) = _ := hturn _ _ h₁.rep
        rw [harr, hone]
        refine ⟨?_, fun W hW => ?_⟩
        · rw [hd, hlog, hsh.rank]
          simp [Rota.served, ← hturn]
        · obtain rfl : s.woken env = W := by simpa using hW
          exact hno
      | call | tick | avail | errno => exact absurd rfl ha

/-- `n` threads of one priority that only yield each have one of `n` turns just when their creation orders do
not tell them apart, and no thread is woken that comes before them. -/
theorem equal_priority_turns (h : Sim s q g) (hb : Bd (s.abs q g)) (hr : s.tcb.state s.currentThread = .running)
    (hpol : s.currentScheduler = some .priority) (hp : ∀ t ∈ q .ready, s.tcb.priority t = s.tcb.priority s.currentThread)
    (hex : s.yields acts = some s') (hn : (s.arrivals acts).length = (q .ready).length + 1) :
    (∀ t ∈ s.currentThread :: q .ready, t ∈ (dispatched s'.log).take ((q .ready).length + 1)) ↔
      (∀ t ∈ q .ready, s.tcb.creationOrder t = s.tcb.creationOrder s.currentThread) ∧
        (∀ W ∈ s.arrivals acts, ∀ w ∈ W, rank s.tcb s.currentThread ≤ rank s.tcb w) ∧
        ∀ W, (s.arrivals acts).head? = some W → ∀ w ∈ W, rank s.tcb s.currentThread < rank s.tcb w := by
  obtain ⟨hd, hfresh⟩ := h.shares hb hr hpol hex
  let r : Rota.State Ptr := ⟨q .ready, s.currentThread⟩
  have htake : (dispatched s'.log).take ((q .ready).length + 1) = (Rota.served (rank s.tcb) r (s.arrivals acts)).reverse := by
    rw [hd]
    exact List.take_left' (by simp [hn])
  have hnd : r.items.Nodup := List.nodup_cons.mpr ⟨h.inv.notMem_of_running hr .ready, h.inv.ok.nodup .ready⟩
  have hall : _ ↔ Rota.Even (rank s.tcb) r (s.arrivals acts) := Rota.all_served_iff hnd (by simpa [Rota.State.items, r] using hn) hfresh
  have horder : (∀ t ∈ r.items, rank s.tcb t = rank s.tcb r.current) ↔
      ∀ t ∈ q .ready, s.tcb.creationOrder t = s.tcb.creationOrder s.currentThread := by
    constructor
    · intro he t ht
      exact congrArg (fun k => (ofLex k).2) (he t (List.mem_cons_of_mem _ ht))
    · intro he t ht
      rcases List.mem_cons.mp ht with rfl | ht
      · rfl
      · unfold rank
        rw [hp t ht, he t ht]
  simp only [htake, List.mem_reverse]
  refine hall.trans ⟨fun he => ⟨horder.mp he.equal, he.arrivals, he.first⟩, fun he => ⟨horder.mpr he.1, he.2.1, he.2.2⟩⟩

theorem Sim.ready_walk (h : Sim s q g) : q .ready = walk s.lk.next s.lk.readyCount.toNat s.lk.readyHead := by
  have hlen : (q .ready).length ≤ s.lk.readyCount.toNat := by rw [h.rep.count, Int.toNat_natCast]
  exact (walk_eq (h.rep.chain .ready) hlen).symm

/-- Two threads of one creation order take turns. -/
theorem equal_priority_turns_tied : ∃ (s : Sys) (q : Layout) (g : List Ptr) (s' : Sys), Sim s q g ∧ q .ready = [2 ^ 32] ∧
    ((dispatched s'.log).take 2).reverse = [2 ^ 32, 0] ∧
    let acts : List Action := [.resume {}, .resume {}, .call .yield {}, .resume {}, .resume {}]
    ((∀ t ∈ s.currentThread :: q .ready, t ∈ (dispatched s'.log).take ((q .ready).length + 1)) ↔
      (∀ t ∈ q .ready, s.tcb.creationOrder t = s.tcb.creationOrder s.currentThread) ∧
        (∀ W ∈ s.arrivals acts, ∀ w ∈ W, rank s.tcb s.currentThread ≤ rank s.tcb w) ∧
        ∀ W, (s.arrivals acts).head? = some W → ∀ w ∈ W, rank s.tcb s.currentThread < rank s.tcb w) := by
  let acts : List Action := [.resume {}, .resume {}, .call .yield {}, .resume {}, .resume {}]
  obtain ⟨s, hs⟩ := Option.isSome_iff_exists.mp (by decide +kernel : sharedOrder.isSome)
  obtain ⟨q, g, hsim, hb⟩ := reachable_sim ((reachable_crowded _ _).exec (fun _ _ => trivial) hs)
  have hthread : sharedOrder.map (fun s => (s.currentThread, s.tcb.state s.currentThread, s.currentScheduler)) =
      some (0, .running, some .priority) := by decide +kernel
  have hqueue : sharedOrder.map (fun s => (walk s.lk.next s.lk.readyCount.toNat s.lk.readyHead,
      (s.tcb.priority 0, s.tcb.priority (2 ^ 32)), (s.arrivals acts).length)) = some ([2 ^ 32], (0, 0), 2) := by decide +kernel
  have hrun : sharedOrder.map (fun s => (s.yields acts).map fun s' => ((dispatched s'.log).take 2).reverse) =
      some (some [2 ^ 32, 0]) := by decide +kernel
  simp only [hs, Option.map_some, Option.some.injEq, Prod.mk.injEq] at hthread hqueue hrun
  obtain ⟨hcur, hr, hpol⟩ := hthread
  obtain ⟨hwalk, ⟨hp₀, hp₁⟩, hn⟩ := hqueue
  obtain ⟨s', hs', hd⟩ := Option.map_eq_some_iff.mp hrun
  have hq : q .ready = [2 ^ 32] := hsim.ready_walk.trans hwalk
  have hp : ∀ t ∈ q .ready, s.tcb.priority t = s.tcb.priority s.currentThread := by
    intro t ht
    rw [hq, List.mem_singleton] at ht
    rw [ht, hcur, hp₀, hp₁]
  exact ⟨s, q, g, s', hsim, hq, hd, equal_priority_turns hsim hb hr hpol hp hs' (by rw [hn, hq]; rfl)⟩

/-- The main thread is older than the thread it creates, and keeps the processor. -/
theorem older_thread_keeps_turn : ¬ ∀ s q g acts s', Sys.Reachable s → Sim s q g → s.tcb.state s.currentThread = .running →
    s.currentScheduler = some .priority → (∀ t ∈ q .ready, s.tcb.priority t = s.tcb.priority s.currentThread) →
    s.yields acts = some s' → (s.arrivals acts).length = (q .ready).length + 1 →
    ∀ t ∈ s.currentThread :: q .ready, t ∈ (dispatched s'.log).take ((q .ready).length + 1) := by
  intro h
  let s := Sys.after (fun _ => 0) [.call (.create 0) {}, .resume {}, .resume {}, .call (.setScheduler (some .priority)) {}]
  let acts : List Action := [.call .yield {}, .resume {}, .resume {}, .resume {}, .resume {}, .call .yield {}, .resume {},
    .resume {}]
  have hreach : Sys.Reachable s := Sys.reachable_after (by decide +kernel)
  obtain ⟨q, g, hsim, -⟩ := reachable_sim hreach
  have hq : q .ready = [1] := hsim.ready_walk.trans (by decide +kernel)
  have hrun : (s.yields acts).map (fun s' => (dispatched s'.log).take 2) = some [0, 0] := by decide +kernel
  obtain ⟨s', hs', hd⟩ := Option.map_eq_some_iff.mp hrun
  have hp : ∀ t ∈ q .ready, s.tcb.priority t = s.tcb.priority s.currentThread := by
    rw [hq]
    decide +kernel
  have hserved := h s q g acts s' hreach hsim (by decide +kernel) (by decide +kernel) hp hs' (by rw [hq]; decide +kernel) 1
    (by rw [hq]; simp)
  rw [hq, show ([1] : List Ptr).length + 1 = 2 from rfl, hd] at hserved
  revert hserved
  decide

end Uthread
