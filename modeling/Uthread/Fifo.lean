import Uthread.Dispatch
import Uthread.ReadyQueue

/-!
# Round-robin is first in, first out

As long as `priority_next` is not the policy, the threads are dispatched in the
order in which they were appended to the ready queue.
-/

namespace Uthread

open Trans Linked

variable {s s' c d : Sys} {q q' : Layout} {g : List Ptr} {a b : Abs} {act : Action} {t u : Ptr} {es l : List Event}

theorem dispatched_append : dispatched (es ++ l) = dispatched es ++ dispatched l := List.filterMap_append ..

theorem enqueued_append : enqueued (es ++ l) = enqueued es ++ enqueued l := List.filterMap_append ..

/-- At every moment the dispatched threads were the first of the enqueued ones, and the queue holds the others. -/
structure InOrder (xs : List Ptr) (l : List Event) : Prop where
  queue : enqueued l = xs.reverse ++ dispatched l
  always : ∀ l', l' <:+ l → dispatched l' <:+ enqueued l'

theorem InOrder.append {xs : List Ptr} (h : InOrder xs l) (hd : dispatched es = []) :
    InOrder (xs ++ (enqueued es).reverse) (es ++ l) where
  queue := by
    rw [enqueued_append, dispatched_append, hd, h.queue]
    simp
  always l' hl := by
    rcases List.suffix_or_suffix_of_suffix hl (List.suffix_append es l) with hs | ⟨es', rfl⟩
    · exact h.always l' hs
    · -- part of the new events happened
      have hs : es' <:+ es := List.suffix_append_self_iff.mp hl
      have hd' : dispatched es' = [] := by
        have hsub : (dispatched es').Sublist (dispatched es) := hs.sublist.filterMap _
        rw [hd] at hsub
        exact List.sublist_nil.mp hsub
      rw [dispatched_append, enqueued_append, hd']
      exact (h.always l (List.suffix_refl l)).trans (List.suffix_append ..)

theorem InOrder.dispatch {xs : List Ptr} {clash : Bool} (h : InOrder (t :: xs) l) : InOrder xs (.disp t clash :: l) where
  queue := by
    change enqueued l = xs.reverse ++ t :: dispatched l
    rw [h.queue]
    simp
  always l' hl := by
    rcases List.suffix_cons_iff.mp hl with rfl | hl
    · change t :: dispatched l <:+ enqueued l
      rw [h.queue]
      exact ⟨xs.reverse, by simp⟩
    · exact h.always l' hl

abbrev Fifo (a : Abs) : Prop := InOrder (a.q .ready) a.log

theorem Appends.fifo (h : Fifo a) (hab : Appends a b) : Fifo b := by
  obtain ⟨es, hlog, hd, hq⟩ := hab.log
  unfold Fifo
  rw [hlog, hq]
  exact h.append hd

theorem Appends.dispatched_eq (hab : Appends a b) : dispatched b.log = dispatched a.log := by
  obtain ⟨es, hlog, hd, -⟩ := hab.log
  rw [hlog, dispatched_append, hd]
  rfl

theorem fifo_silent {bad : Prop} (hp : Prims bad a b) (h : Fifo a) (hd : dispatched b.log = dispatched a.log) : Fifo b := by
  have hkeep : ∀ b, Prims bad a b → (dispatched a.log).length < (dispatched b.log).length ∨
      Fifo b ∧ dispatched b.log = dispatched a.log := by
    intro b hp
    induction hp with
    | refl => exact .inr ⟨h, rfl⟩
    | @tail b c _ hp ih =>
      rcases hp.1.appends with ha | ⟨t, rfl, -⟩
      · rw [ha.dispatched_eq]
        exact ih.imp_right fun hi => ⟨ha.fifo hi.1, hi.2⟩
      · -- whoever is dispatched stays in the history
        left
        have hc : dispatched (b.switch t).log = t :: dispatched b.log := rfl
        rw [hc, List.length_cons]
        rcases ih with hlt | ⟨-, he⟩
        · omega
        · rw [he]
          omega
  rcases hkeep b hp with hlt | hb
  · rw [hd] at hlt
    exact absurd hlt (Nat.lt_irrefl _)
  · exact hb.1

theorem ahead_dispatched (hp : Steps Ahead a b) : dispatched b.log = dispatched a.log := by
  induction hp with
  | refl => rfl
  | tail _ hp ih =>
    refine Eq.trans ?_ ih
    cases hp with
    | wake hw => cases hw <;> rfl
    | mask | preempt | finish => rfl

theorem ahead_prims (bad : Prop) (hp : Steps Ahead a b) : Prims bad a b := by
  induction hp with
  | refl => exact .refl
  | tail _ hp ih => exact ih.next hp.prim hp.settled.cur

theorem Sim.ready_eq {lk : Links} {q₁ q₂ : Layout} {g₁ g₂ : List Ptr} (h₁ : Rep lk q₁ g₁) (h₂ : Rep lk q₂ g₂) :
    q₁ .ready = q₂ .ready := chain_unique (h₁.chain .ready) (h₂.chain .ready)

theorem Sim.fifo (h : Sim s q g) (hb : Bd (s.abs q g)) (hf : Fifo (s.abs q g)) (hs : s.step act = some s')
    (hpol : s.currentScheduler ≠ some .priority) : ∃ q' g', Sim s' q' g' ∧ Bd (s'.abs q' g') ∧ Fifo (s'.abs q' g') := by
  obtain ⟨q', g', hp, hs', hb'⟩ := h.step hb hs
  refine ⟨q', g', hs', hb', ?_⟩
  cases hc : s.atSchedule act with
  | none => exact fifo_silent hp hf (step_unscheduled hs hc).dispatched
  | some c =>
    obtain ⟨qc, hpc, hsc⟩ := h.atSchedule hb hs hc
    have hset := ahead_settled hpc
    have hans := h.answers hs hc hset.cur
    have hfc : Fifo (c.abs qc g) := fifo_silent (ahead_prims False hpc) hf (ahead_dispatched hpc)
    obtain ⟨lk, hsn, hlk⟩ := hsc.scheduleNext
    cases hpk : pick c.currentScheduler c.tcb (qc .ready) with
    | none =>
      rw [hpk] at hsn
      exact fifo_silent hp hf ((hans.null _ hsn).trans (ahead_dispatched hpc))
    | some next =>
      rw [hpk] at hsn hlk
      obtain ⟨fs, rfl⟩ := hans.found _ _ hsn
      -- the policy takes the first thread of the queue
      have hhead : (qc .ready).head? = some next := by
        have hpol' : c.currentScheduler ≠ some .priority := by
          rw [show c.currentScheduler = s.currentScheduler from hset.scheduler]
          exact hpol
        rw [← hpk]
        unfold pick
        split
        · next hpr => exact absurd hpr hpol'
        · rfl
        · rfl
      obtain ⟨xs, hxs⟩ := List.head?_eq_some_iff.mp hhead
      have hq' : q' .ready = xs := by
        have hr : Rep lk q' g' := hs'.rep
        rw [Sim.ready_eq hr hlk.2, Layout.drop_self, hxs, List.erase_cons_head]
      have hfc' : InOrder (next :: xs) c.log := hxs ▸ hfc
      change InOrder (q' .ready) (.disp next _ :: c.log)
      rw [hq']
      exact hfc'.dispatch

theorem Rep.readyQueue {l : Links} (hq : q.Ok) (hr : Rep l q g) : ReadyQueue l (q .ready) :=
  .of (hr.chain .ready) (hq.nodup .ready) (hr.tail .ready (by simp)) hr.count

abbrev RoundRobinRun : Sys → Prop := Sys.RunOf fun s _ => s.currentScheduler ≠ some .priority

theorem RoundRobinRun.fifo (h : RoundRobinRun s) : ∃ q g, Sim s q g ∧ Bd (s.abs q g) ∧ Fifo (s.abs q g) := by
  induction h with
  | init h =>
    obtain ⟨clock, epollFd, avail, rfl⟩ := h
    refine ⟨_, _, sim_init .., bd_init .., rfl, fun l' hl => ?_⟩
    have hl : l' <:+ [.created 0] := hl
    rcases List.suffix_cons_iff.mp hl with rfl | hl
    · exact List.suffix_refl _
    · rw [List.suffix_nil.mp hl]
      exact List.suffix_refl _
  | step _ hok hst ih =>
    obtain ⟨q, g, hs, hb, hf⟩ := ih
    exact hs.fifo hb hf hst hok

/-- In every run under `round_robin_next` the k-th dispatched thread is the k-th enqueued one and the queue
holds the rest; and between the moment a thread is enqueued and its dispatch, the threads ahead of it at
that moment are dispatched, in order, and nobody else. -/
theorem round_robin_fifo (h : RoundRobinRun s) :
    (∃ xs, ReadyQueue s.lk xs ∧ (enqueued s.log).reverse = (dispatched s.log).reverse ++ xs) ∧
      ∀ l₂ t l₁, s.log = l₂ ++ .enq t :: l₁ → ∃ xs, (enqueued l₁).reverse = (dispatched l₁).reverse ++ xs ∧
        (dispatched l₂).reverse <+: xs ++ t :: (enqueued l₂).reverse := by
  obtain ⟨q, g, hs, -, hf⟩ := RoundRobinRun.fifo h
  have hq : enqueued s.log = (q .ready).reverse ++ dispatched s.log := hf.queue
  refine ⟨⟨q .ready, hs.rep.readyQueue hs.inv.ok, by rw [hq]; simp⟩, fun l₂ t l₁ hl => ?_⟩
  have hl : (s.abs q g).log = l₂ ++ .enq t :: l₁ := hl
  have h₁ := hf.always l₁ (by rw [hl]; exact (List.suffix_cons ..).trans (List.suffix_append ..))
  have h₂ := hf.always _ (List.suffix_refl _)
  rw [hl, dispatched_append, enqueued_append] at h₂
  obtain ⟨ys, hys⟩ := h₁
  obtain ⟨zs, hzs⟩ := h₂
  refine ⟨ys.reverse, by rw [← hys]; simp, zs.reverse, ?_⟩
  have he : zs ++ dispatched l₂ = enqueued l₂ ++ t :: ys := by
    have hcons : dispatched (.enq t :: l₁) = dispatched l₁ ∧ enqueued (.enq t :: l₁) = t :: enqueued l₁ := ⟨rfl, rfl⟩
    rw [hcons.1, hcons.2, ← hys] at hzs
    rw [← List.append_left_inj (dispatched l₁)]
    simpa using hzs
  have := congrArg List.reverse he
  simpa using this

/-- Two threads are created, the main thread yields, and each of them yields in turn. -/
theorem round_robin_fifo_turns :
    let s := Sys.after (fun _ => 0) [.call (.create 0) {}, .resume {}, .resume {}, .call (.create 0) {}, .resume {}, .resume {}, .call .yield {},
      .resume {}, .resume {}, .resume {}, .tick, .resume {}, .resume {}, .resume {}, .call .yield {}, .resume {},
      .resume {}]
    (dispatched s.log).reverse = [1, 2, 0] ∧
    (∃ xs, ReadyQueue s.lk xs ∧ (enqueued s.log).reverse = (dispatched s.log).reverse ++ xs) ∧
      ∀ l₂ t l₁, s.log = l₂ ++ .enq t :: l₁ → ∃ xs, (enqueued l₁).reverse = (dispatched l₁).reverse ++ xs ∧
        (dispatched l₂).reverse <+: xs ++ t :: (enqueued l₂).reverse :=
  ⟨by decide +kernel, round_robin_fifo (Sys.runOf_after (p := fun s _ => s.currentScheduler ≠ some .priority)
    (fun _ _ h => by simpa using h) (by decide +kernel))⟩

end Uthread
