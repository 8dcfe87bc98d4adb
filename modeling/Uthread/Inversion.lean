import Uthread.Fifo
import Uthread.Crowd

/-!
# Dispatching by priority

Every call of `schedule_next` finds the READY threads of the process in its
queue, so that it answers NULL only when there are none, and under
`priority_next` no thread that is READY precedes the one it chooses.
-/

namespace Uthread

open Trans Linked

variable {s s' c d : Sys} {q q' : Layout} {g xs : List Ptr} {a b : Abs} {act : Action} {t u next : Ptr}

/-! ## Creation orders -/

theorem cint_emod (z : Int) : cint z % (2 ^ 32 : Nat) = z % (2 ^ 32 : Nat) := Int.bmod_emod

theorem cint_inj {m n : Nat} (hm : m < 2 ^ 32) (hn : n < 2 ^ 32) (h : cint m = cint n) : m = n := by
  have he : (m : Int) % (2 ^ 32 : Nat) = n % (2 ^ 32 : Nat) := by rw [← cint_emod m, h, cint_emod n]
  omega

/-- The creation orders are the addresses, as far as an `int` goes. -/
structure Numbered (k : Core) : Prop where
  counter : k.creationCounter = cint k.brk
  order : ∀ t < k.brk, k.tcb.creationOrder t = cint t

theorem Numbered.of_eq {k k' : Core} (h : Numbered k) (hk : k'.creationCounter = k.creationCounter) (hb : k'.brk = k.brk)
    (ho : k'.tcb.creationOrder = k.tcb.creationOrder) : Numbered k' :=
  ⟨by rw [hk, hb, h.counter], fun t ht => by rw [ho]; exact h.order t (hb ▸ ht)⟩

theorem Numbered.alloc {k : Core} (h : Numbered k) (prio : Int) : Numbered (k.allocTcb prio) where
  counter := by
    change cint (k.creationCounter + 1) = cint ((k.brk + 1 : Nat) : Int)
    rw [h.counter, cint_succ]
    rfl
  order t ht := by
    change Function.update k.tcb.creationOrder k.brk k.creationCounter t = cint t
    by_cases he : t = k.brk
    · rw [he, Function.update_self, h.counter]
    · rw [Function.update_of_ne he]
      exact h.order t (Nat.lt_of_le_of_ne (Nat.le_of_lt_succ ht) he)

theorem Prim.numbered (h : Numbered a.toCore) (hp : Prim a b) : Numbered b.toCore := by
  cases hp with
  | quiet hq => cases hq <;> exact h.of_eq rfl rfl rfl
  | @create prio | @createFail prio => exact (h.alloc prio).of_eq rfl rfl rfl
  | reap =>
    refine h.of_eq ?_ ?_ ?_ <;>
    · simp only [Abs.reap, Abs.on, Core.free, Core.freeGuardedStack]
      split <;> rfl
  | chan hr hid hc => cases hc <;> exact h.of_eq rfl rfl rfl
  | _ => exact h.of_eq rfl rfl rfl

/-! ## Choices -/

structure Least (k : Core) (xs : List Ptr) (next : Ptr) : Prop where
  mem : next ∈ xs
  le : ∀ t ∈ xs, rank k.tcb next ≤ rank k.tcb t
  first : ∀ t ∈ xs, rank k.tcb t = rank k.tcb next → xs.idxOf next ≤ xs.idxOf t
  -- as long as `creation_order` has not come round
  strict : k.brk ≤ 2 ^ 32 → ∀ t ∈ xs, t ≠ next → rank k.tcb next < rank k.tcb t

theorem least_of_pick (hk : Numbered a.toCore) (hr : ∀ t ∈ xs, a.tcb.state t = .ready) (hlt : ∀ t ∈ xs, t < a.brk)
    (hp : pick (some .priority) a.tcb xs = some next) : Least a.toCore xs next := by
  have hmin : next ∈ xs.argmin (rank a.tcb) := by
    have hall : xs.filter (a.tcb.state · = .ready) = xs := List.filter_eq_self.mpr fun t ht => by simpa using hr t ht
    have hl : least a.tcb xs = some next := foldl_bestStep_eq.symm.trans hp
    rw [← hall]
    exact hl
  have hle : ∀ t ∈ xs, rank a.tcb next ≤ rank a.tcb t := fun t ht => List.le_of_mem_argmin ht hmin
  refine ⟨List.argmin_mem hmin, hle, fun t ht he => List.index_of_argmin hmin ht he.le, fun hb t ht hne => ?_⟩
  refine lt_of_le_of_ne (hle t ht) fun he => hne ?_
  -- two TCBs of one creation order are one TCB
  have ho : a.tcb.creationOrder next = a.tcb.creationOrder t := congrArg (fun r => (ofLex r).2) he
  have hn : next < a.brk := hlt next (List.argmin_mem hmin)
  rw [hk.order next hn, hk.order t (hlt t ht)] at ho
  exact (cint_inj (hn.trans_le hb) ((hlt t ht).trans_le hb) ho).symm

structure Choice (s c s' : Sys) (xs : List Ptr) : Prop where
  queue : ReadyQueue c.lk xs
  ready : ∀ t ∈ xs, c.tcb.state t = .ready
  all : ∃ g, Chain c.lk.globalNext c.lk.globalThreadList g ∧ ∀ t ∈ g, c.tcb.state t = .ready → t ∈ xs
  null : c.scheduleNext.1 = none ↔ xs = []
  -- the branch of `uthread_yield` that resumes the yielding thread
  unreachable : c.scheduleNext.1 = none → c.tcb.state c.currentThread ≠ .ready
  idle : c.scheduleNext.1 = none → dispatched s'.log = dispatched s.log
  least : c.currentScheduler = some .priority → ∀ next, c.scheduleNext.1 = some next → Least c.toCore xs next
  rest : ∀ next, c.scheduleNext.1 = some next → ReadyQueue c.scheduleNext.2.lk (xs.erase next)
  dispatch : ∀ next, c.scheduleNext.1 = some next →
    s'.currentThread = next ∧ s'.lk = c.scheduleNext.2.lk ∧ dispatched s'.log = next :: dispatched s.log

theorem Sim.choice (h : Sim s q g) (hb : Bd (s.abs q g)) (hk : Numbered s.toCore) (hs : s.step act = some s')
    (hc : s.atSchedule act = some c) : ∃ xs, Choice s c s' xs := by
  obtain ⟨qc, hpc, hsc⟩ := h.atSchedule hb hs hc
  have hset := ahead_settled hpc
  have hans := h.answers hs hc hset.cur
  have hlog : dispatched c.log = dispatched s.log := ahead_dispatched hpc
  have hkc : Numbered c.toCore := by
    refine Steps.inv (I := fun a => Numbered a.toCore) ?_ hpc hk
    exact fun a b ha hab => hab.prim.numbered ha
  have hready : ∀ t ∈ qc .ready, c.tcb.state t = .ready := fun t ht => hsc.inv.state ht
  obtain ⟨lk, hsn, hlk⟩ := hsc.scheduleNext
  have hans₁ : c.scheduleNext.1 = pick c.currentScheduler c.tcb (qc .ready) := by rw [hsn]
  refine ⟨qc .ready, ?_⟩
  cases hp : pick c.currentScheduler c.tcb (qc .ready) with
  | none =>
    rw [hp] at hsn hlk hans₁
    refine ⟨hsc.rep.readyQueue hsc.inv.ok, hready, ⟨g, hsc.rep.glob.fwd, hsc.inv.ready⟩, ?_, ?_, ?_, ?_, ?_, ?_⟩
    · simp [hans₁, hlk.1]
    · exact fun _ => hsc.inv.not_ready hlk.1
    · exact fun _ => (hans.null _ hsn).trans hlog
    all_goals simp [hans₁]
  | some next =>
    rw [hp] at hsn hlk hans₁
    obtain ⟨fs, rfl⟩ := hans.found _ _ hsn
    have hne : qc .ready ≠ [] := List.ne_nil_of_mem hlk.1
    refine ⟨hsc.rep.readyQueue hsc.inv.ok, hready, ⟨g, hsc.rep.glob.fwd, hsc.inv.ready⟩, ?_, ?_, ?_, ?_, ?_, ?_⟩
    · simp [hans₁, hne]
    · simp [hans₁]
    · simp [hans₁]
    · intro hpol t ht
      rw [hans₁] at ht
      cases ht
      rw [hpol] at hp
      exact least_of_pick (a := c.abs qc g) hkc hready (fun t ht => hsc.inv.lt t (hsc.inv.live ht)) hp
    · intro t ht
      rw [hans₁] at ht
      cases ht
      rw [hsn, ← Layout.drop_self]
      exact hlk.2.readyQueue hsc.inv.ok.drop
    · intro t ht
      rw [hans₁] at ht
      cases ht
      rw [hsn]
      refine ⟨rfl, rfl, ?_⟩
      change next :: dispatched c.log = _
      rw [hlog]

/-- `schedule_next` chooses from the READY threads, which are all in its queue, and a thread is dispatched by no
other step. -/
theorem priority_never_inverts (h : Sys.Reachable s) (hs : s.step act = some s') :
    (s.atSchedule act = none → dispatched s'.log = dispatched s.log) ∧
      ∀ c, s.atSchedule act = some c → ∃ xs, Choice s c s' xs := by
  have hinit : ∀ clock epollFd avail, Numbered (initAbs clock epollFd avail).toCore := by
    intro clock epollFd avail
    refine ⟨(by decide : (1 : Int) = cint (1 : Nat)), fun t ht => ?_⟩
    obtain rfl : t = 0 := Nat.lt_one_iff.mp ht
    rfl
  obtain ⟨q, g, hsim, hb, hk⟩ := reachable_inv hinit (fun a b _ ha hp => hp.numbered ha) h
  exact ⟨fun hc => (step_unscheduled hs hc).dispatched, fun c => hsim.choice hb hk hs⟩

/-- Of two threads of one priority the older one is dispatched, whatever their order in the queue. -/
theorem priority_never_inverts_yield :
    let s := Sys.after (fun _ => 0) [.call (.create 0) {}, .resume {}, .resume {}, .call (.create 0) {}, .resume {}, .resume {},
      .call (.setScheduler (some .priority)) {}, .call .yield {}, .resume {}]
    ∃ s', s.step (.resume {}) = some s' ∧ (dispatched s'.log).reverse = [0] ∧
      (s.atSchedule (.resume {}) = none → dispatched s'.log = dispatched s.log) ∧
        ∀ c, s.atSchedule (.resume {}) = some c → ∃ xs, Choice s c s' xs := by
  intro s
  obtain ⟨s', hs'⟩ := Option.isSome_iff_exists.mp (by decide +kernel : (s.step (.resume {})).isSome)
  refine ⟨s', hs', ?_, priority_never_inverts (Sys.reachable_after (by decide +kernel)) hs'⟩
  have hd : (s.step (.resume {})).map (fun s => (dispatched s.log).reverse) = some [0] := by decide +kernel
  rw [hs'] at hd
  simpa using hd

/-- The thread with the creation order of the main thread is dispatched, and not strictly before it. -/
theorem creation_orders_tie : ¬ ∀ s act s' c, Sys.Reachable s → s.step act = some s' → s.atSchedule act = some c →
    c.currentScheduler = some .priority → ∀ next, c.scheduleNext.1 = some next →
      ∀ xs, ReadyQueue c.lk xs → ∀ t ∈ xs, t ≠ next → rank c.tcb next < rank c.tcb t := by
  intro h
  obtain ⟨s, hs⟩ := Option.isSome_iff_exists.mp (by decide +kernel : sharedOrder.isSome)
  have hr : Sys.Reachable s := (reachable_crowded _ _).exec (fun _ _ => trivial) hs
  have hstep : sharedOrder.map (fun s => (s.step (.resume {})).isSome) = some true := by decide +kernel
  have hcall : sharedOrder.map (fun s => (s.atSchedule (.resume {})).map fun c =>
      (c.currentScheduler, c.scheduleNext.1, c.lk.readyHead, c.lk.next (2 ^ 32))) =
        some (some (some .priority, some (2 ^ 32), some (2 ^ 32), some 0)) := by decide +kernel
  have hrank : sharedOrder.map (fun s => (s.atSchedule (.resume {})).map fun c =>
      ((c.tcb.priority 0, c.tcb.creationOrder 0), (c.tcb.priority (2 ^ 32), c.tcb.creationOrder (2 ^ 32)))) =
        some (some ((0, 0), (0, 0))) := by decide +kernel
  simp only [hs, Option.map_some, Option.some.injEq] at hstep hcall hrank
  obtain ⟨s', hs'⟩ := Option.isSome_iff_exists.mp hstep
  obtain ⟨c, hc, hcc⟩ := Option.map_eq_some_iff.mp hcall
  rw [hc, Option.map_some, Option.some.injEq] at hrank
  simp only [Prod.mk.injEq] at hcc hrank
  obtain ⟨q, g, hsim, hb⟩ := reachable_sim hr
  obtain ⟨q', -, hsc⟩ := hsim.atSchedule hb hs' hc
  obtain ⟨xs, hq⟩ : ∃ xs, ReadyQueue c.lk xs := ⟨_, hsc.rep.readyQueue hsc.inv.ok⟩
  -- the queue begins with the two
  have hmem : 0 ∈ xs := by
    have hch := hq.chain
    cases xs with
    | nil => exact absurd (hcc.2.2.1.symm.trans hch) (by simp)
    | cons x xs =>
      obtain rfl : 2 ^ 32 = x := Option.some.inj (hcc.2.2.1.symm.trans hch.1)
      have hnext : xs.head? = some 0 := (chain_head hch.2).symm.trans hcc.2.2.2
      exact List.mem_cons_of_mem _ (List.mem_of_head? hnext)
  have hlt := h s _ s' c hr hs' hc hcc.1 _ hcc.2.1 _ hq 0 hmem (by decide)
  have he : rank c.tcb (2 ^ 32) = rank c.tcb 0 := by
    unfold rank
    rw [hrank.1.1, hrank.1.2, hrank.2.1, hrank.2.2]
  exact absurd he hlt.ne

end Uthread
