import Uthread.InvPrim
import Uthread.Sched
import Mathlib.Data.List.Perm.Subperm

/-!
# The scheduler on links follows the scheduler over lists

`Sim s q g`: the links of `s` represent the layout `q` and the global list `g`,
and the scheduling invariant holds. Each function of `Uthread.Sched` is a chain
of transitions.
-/

namespace Uthread

open Trans Linked

def Sys.abs (s : Sys) (q : Layout) (g : List Ptr) : Abs := { toCore := s.toCore, q, glob := g }

structure Sim (s : Sys) (q : Layout) (g : List Ptr) : Prop where
  rep : Rep s.lk q g
  inv : Inv (s.abs q g)

/-- A switch that leaves a RUNNING thread behind. -/
def Abandons (a b : Abs) : Prop := a.tcb.state a.currentThread = .running ∧ b.currentThread ≠ a.currentThread

/-- Chains of transitions, of which one abandons a thread only if `bad`. -/
abbrev Prims (bad : Prop) : Abs → Abs → Prop := Steps fun a b => Prim a b ∧ (Abandons a b → bad)

variable {s s' : Sys} {q q' : Layout} {g g' : List Ptr} {a b c : Abs} {bad : Prop} {t : Ptr}

theorem Prims.one (hp : Prim a b) (hc : b.currentThread = a.currentThread) : Prims bad a b :=
  .single ⟨hp, fun h => absurd hc h.2⟩

theorem Prims.next (h : Prims bad a b) (hp : Prim b c) (hc : c.currentThread = b.currentThread) : Prims bad a c :=
  .tail h ⟨hp, fun h => absurd hc h.2⟩

/-! ## Bounds of the loops -/

theorem length_le_of_lt {xs : List Ptr} {n : Nat} (hn : xs.Nodup) (hl : ∀ x ∈ xs, x < n) : xs.length ≤ n := by
  have hs : xs ⊆ List.range n := fun x hx => List.mem_range.mpr (hl x hx)
  have := (List.subperm_of_subset hn hs).length_le
  rwa [List.length_range] at this

theorem Sim.queue_le (h : Sim s q g) (i : QId) : (q i).length ≤ s.fuel := by
  have := length_le_of_lt (h.inv.ok.nodup i) fun x hx => h.inv.lt x (h.inv.live hx)
  exact this.trans (Nat.le_succ _)

theorem Sim.glob_le (h : Sim s q g) : g.length ≤ s.fuel :=
  (length_le_of_lt h.inv.nodup h.inv.lt).trans (Nat.le_succ _)

/-! ## Wake-ups -/

inductive Wake : Abs → Abs → Prop
  | clock {a : Abs} : Wake a (a.on .tickClock)
  | io {a : Abs} {t fd dir} : a.interest fd = some (t, dir) → a.tcb.state t = .ioBlocked → Wake a (a.ioWake t)
  | sleep {a : Abs} {t} : t ∈ a.q .sleep → a.tcb.state t = .ioBlocked →
      (∃ i < a.readings, a.tcb.sleepUntilNs t ≤ a.clock i % 2 ^ 64) → Wake a (a.sleepWake t)

abbrev Wakes : Abs → Abs → Prop := Steps Wake

structure Kept (a b : Abs) : Prop where
  run : b.run = a.run := by rfl
  cur : b.currentThread = a.currentThread := by rfl
  glob : b.glob = a.glob := by rfl
  exited : b.exited = a.exited := by rfl
  readings : a.readings ≤ b.readings
  state : ∀ t, b.tcb.state t = a.tcb.state t ∨ a.tcb.state t = .ioBlocked ∧ b.tcb.state t = .ready := by
    intro t; exact .inl rfl

theorem Kept.trans (h₁ : Kept a b) (h₂ : Kept b c) : Kept a c where
  run := h₂.run.trans h₁.run
  cur := h₂.cur.trans h₁.cur
  glob := h₂.glob.trans h₁.glob
  exited := h₂.exited.trans h₁.exited
  readings := h₁.readings.trans h₂.readings
  state t := by
    rcases h₁.state t with e₁ | ⟨e₁, e₁'⟩ <;> rcases h₂.state t with e₂ | ⟨e₂, e₂'⟩
    · exact .inl (e₂.trans e₁)
    · exact .inr ⟨e₁ ▸ e₂, e₂'⟩
    · exact .inr ⟨e₁, e₂.trans e₁'⟩
    · rw [e₁'] at e₂; cases e₂

theorem update_state {f : Ptr → TState} (ht : f t = .ioBlocked) (u : Ptr) :
    Function.update f t .ready u = f u ∨ f u = .ioBlocked ∧ Function.update f t .ready u = .ready := by
  by_cases hu : u = t
  · subst hu; exact .inr ⟨ht, Function.update_self ..⟩
  · exact .inl (Function.update_of_ne hu ..)

theorem le_emit (c : Core) : c.readings ≤ if c.tr.records then c.readings + 1 else c.readings := by
  split <;> omega

theorem Wake.kept (h : Wake a b) : Kept a b := by
  cases h with
  | clock => exact { readings := Nat.le_succ _ }
  | io _ ht => exact { state := update_state ht, readings := le_emit _ }
  | sleep _ ht => exact { state := update_state ht, readings := le_emit _ }

theorem Wakes.kept (h : Wakes a b) : Kept a b := by
  induction h with
  | refl => exact { readings := le_rfl }
  | tail _ hw ih => exact ih.trans hw.kept

theorem Wake.prim (h : Wake a b) : Prim a b := by
  cases h with
  | clock => exact .quiet .tickClock
  | io hr => exact .ioWake hr
  | sleep ht _ hd => exact .sleepWake ht hd

theorem Wakes.prims (h : Wakes a b) : Prims bad a b := by
  induction h with
  | refl => exact .refl
  | tail _ hw ih => exact ih.next hw.prim hw.kept.cur

theorem Sim.of_wake (h : Sim s q g) (hw : Wake (s.abs q g) (s'.abs q' g')) (hr : Rep s'.lk q' g') : Sim s' q' g' :=
  ⟨hr, hw.prim.inv h.inv⟩

/-- `epoll_wait` reports registered threads; a thread reported twice is woken once. -/
def Reported (a : Abs) (t : Ptr) : Prop := (∃ fd dir, a.interest fd = some (t, dir)) ∨ a.tcb.state t ≠ .ioBlocked

theorem Sim.ioEvent (h : Sim s q g) (hr : Reported (s.abs q g) t) :
    ∃ q', Wakes (s.abs q g) ((s.ioEvent t).abs q' g) ∧ Sim (s.ioEvent t) q' g ∧
      ∀ u, Reported (s.abs q g) u → Reported ((s.ioEvent t).abs q' g) u := by
  unfold Sys.ioEvent
  by_cases hst : s.tcb.state t = .ioBlocked
  · rw [if_pos hst]
    obtain ⟨fd, dir, hi⟩ := hr.resolve_right (not_not_intro hst)
    have hw : Wake (s.abs q g) ((s.abs q g).ioWake t) := .io hi hst
    have hno : ∀ i, t ∉ q i := by
      intro i hm
      have hs : s.tcb.state t = i.state := h.inv.state hm
      rw [hst] at hs
      cases i with
      | sleep => exact (h.inv.reg hi).2.2.2 hm
      | ready => cases hs
      | wait w => cases hs
    refine ⟨q.push .ready t, .single hw, h.of_wake hw (h.rep.enqueue h.inv.ok hno), fun u hu => ?_⟩
    by_cases hut : u = t
    · subst hut
      refine .inr fun e => ?_
      have : TState.ready = .ioBlocked := (Function.update_self ..).symm.trans e
      cases this
    · rcases hu with ⟨fd', dir', hi'⟩ | hu
      · -- another thread is registered with another descriptor
        refine .inl ⟨fd', dir', (Function.update_of_ne ?_ ..).trans hi'⟩
        rintro rfl
        have h₁ := (h.inv.reg hi').2.2.1
        have h₂ := (h.inv.reg hi).2.2.1
        have : s.interest (s.tcb.ioFd t) = some (t, dir) := h₂ ▸ hi
        rw [show s.interest (s.tcb.ioFd t) = some (u, dir') from hi'] at this
        exact hut (by cases this; rfl)
      · exact .inr fun e => hu ((Function.update_of_ne hut ..).symm.trans e)
  · rw [if_neg hst]
    exact ⟨q, .refl, h, fun _ => id⟩

theorem Sim.ioEvents : ∀ {ts : List Ptr} {s : Sys} {q : Layout}, Sim s q g → (∀ t ∈ ts, Reported (s.abs q g) t) →
    ∃ q', Wakes (s.abs q g) ((ts.foldl Sys.ioEvent s).abs q' g) ∧ Sim (ts.foldl Sys.ioEvent s) q' g
  | [], s, q, h, _ => ⟨q, .refl, h⟩
  | t :: ts, s, q, h, hr => by
    obtain ⟨q₁, hw₁, h₁, hk⟩ := h.ioEvent (hr t (by simp))
    obtain ⟨q₂, hw₂, h₂⟩ := Sim.ioEvents h₁ fun u hu => hk u (hr u (List.mem_cons_of_mem _ hu))
    exact ⟨q₂, hw₁.trans hw₂, h₂⟩

theorem Sim.checkIoEvents (h : Sim s q g) (env : Env) :
    ∃ q', Wakes (s.abs q g) ((s.checkIoEvents env).abs q' g) ∧ Sim (s.checkIoEvents env) q' g := by
  unfold Sys.checkIoEvents
  split
  · exact ⟨q, .refl, h⟩
  · refine h.ioEvents fun t ht => ?_
    obtain ⟨⟨u, dir⟩, hu, rfl⟩ := List.mem_map.mp ht
    obtain ⟨fd, -, hfd⟩ := List.mem_filterMap.mp (List.mem_of_mem_take hu)
    exact .inl ⟨fd, dir, hfd⟩

theorem Sim.sleepWake {xs ys : List Ptr} (h : Sim s q g) (hx : q .sleep = xs ++ t :: ys)
    (hd : ∃ i < s.readings, s.tcb.sleepUntilNs t ≤ s.clock i % 2 ^ 64) :
    ∃ q', Wake (s.abs q g) ((s.sleepWake xs.getLast? t (s.lk.next t)).abs q' g) ∧
      Sim (s.sleepWake xs.getLast? t (s.lk.next t)) q' g ∧ q' .sleep = xs ++ ys ∧ q' .ready = q .ready ++ [t] ∧
      ∀ w, q' (.wait w) = q (.wait w) := by
  have ht : t ∈ q .sleep := by rw [hx]; simp
  have hw : Wake (s.abs q g) ((s.abs q g).sleepWake t) := .sleep ht (h.inv.state ht) hd
  have hr := (h.rep.sleepUnlink h.inv.ok hx).enqueue h.inv.ok.drop (h.inv.ok.notMem_drop ht)
  refine ⟨(q.drop .sleep t).push .ready t, hw, h.of_wake hw hr, ?_, ?_, fun w => ?_⟩
  · rw [Layout.push_of_ne (by simp)]
    exact h.inv.ok.erase_mid hx
  · rw [Layout.push_self, Layout.drop_of_ne (by simp)]
  · rw [Layout.push_of_ne (by simp), Layout.drop_of_ne (by simp)]

/-- What `check_sleep_list` does at time `now` to the sleepers `ys`, behind `xs` on the list. -/
structure Woke (now : Nat) (limit : Ptr → Nat) (xs ys : List Ptr) (q q' : Layout) : Prop where
  sleep : q' .sleep = xs ++ ys.filter (now < limit ·)
  ready : q' .ready = q .ready ++ ys.filter (limit · ≤ now)
  wait : ∀ w, q' (.wait w) = q (.wait w)

theorem Sim.sleepLoop {now : Nat} {n : Nat} (xs : List Ptr) {ys : List Ptr} (h : Sim s q g) (hx : q .sleep = xs ++ ys)
    (hn : ys.length ≤ n) (hnow : ∃ i < s.readings, now = s.clock i % 2 ^ 64) :
    ∃ q', Wakes (s.abs q g) ((Sys.sleepLoop now n xs.getLast? ys.head? s).abs q' g) ∧
      Sim (Sys.sleepLoop now n xs.getLast? ys.head? s) q' g ∧ Woke now s.tcb.sleepUntilNs xs ys q q' := by
  induction n generalizing xs ys s q with
  | zero =>
    obtain rfl : ys = [] := List.length_eq_zero_iff.mp (Nat.le_zero.mp hn)
    exact ⟨q, .refl, h, by simpa using hx, by simp, fun _ => rfl⟩
  | succ n ih =>
    cases ys with
    | nil => exact ⟨q, .refl, h, by simpa using hx, by simp, fun _ => rfl⟩
    | cons y ys =>
      have hnx : s.lk.next y = ys.head? := by
        have hc := h.rep.chain .sleep
        rw [hx] at hc; exact chain_next hc
      have hn : ys.length ≤ n := by simpa using hn
      have hy : y ∉ ys := by
        have hnd : (q .sleep).Nodup := h.inv.ok.nodup .sleep
        rw [hx] at hnd
        exact (List.nodup_cons.mp (List.nodup_append.mp hnd).2.1).1
      simp only [List.head?_cons, Sys.sleepLoop]
      by_cases hd : s.tcb.sleepUntilNs y ≤ now
      · rw [if_pos hd]
        obtain ⟨i, hi, rfl⟩ := hnow
        obtain ⟨q₁, hw₁, h₁, hx₁, hr₁, hwt₁⟩ := h.sleepWake hx ⟨i, hi, hd⟩
        obtain ⟨q', hw', h', hq'⟩ := ih xs h₁ hx₁ hn ⟨i, hi.trans_le hw₁.kept.readings, rfl⟩
        -- waking `y` changes the deadline of `y` only
        have huntil : ∀ t ∈ ys, (s.sleepWake xs.getLast? y (s.lk.next y)).tcb.sleepUntilNs t = s.tcb.sleepUntilNs t := by
          intro t ht
          have hne : t ≠ y := by rintro rfl; exact hy ht
          exact Function.update_of_ne hne ..
        rw [hnx] at hw' h' hw₁ hq' huntil ⊢
        refine ⟨q', .head hw₁ hw', h', ?_, ?_, fun w => (hq'.wait w).trans (hwt₁ w)⟩
        · rw [hq'.sleep, List.filter_cons_of_neg (by simpa using hd),
            List.filter_congr fun t ht => by rw [huntil t ht]]
        · rw [hq'.ready, hr₁, List.filter_cons_of_pos (by simpa using hd),
            List.filter_congr fun t ht => by rw [huntil t ht], List.append_assoc]
          rfl
      · rw [if_neg hd, hnx]
        obtain ⟨q', hw', h', hq'⟩ := ih (xs ++ [y]) h (by rw [hx]; simp) hn hnow
        rw [List.getLast?_concat] at hw' h'
        refine ⟨q', hw', h', ?_, ?_, hq'.wait⟩
        · rw [hq'.sleep, List.filter_cons_of_pos (by simpa using hd), List.append_assoc]
          rfl
        · rw [hq'.ready, List.filter_cons_of_neg (by simpa using hd)]

theorem Sim.checkSleepList_woke (h : Sim s q g) :
    ∃ q', Wakes (s.abs q g) (s.checkSleepList.abs q' g) ∧ Sim s.checkSleepList q' g ∧
      Woke s.getTimeNs s.tcb.sleepUntilNs [] (q .sleep) q q' := by
  have hw : Wake (s.abs q g) ((s.on .tickClock).abs q g) := .clock
  have h₁ : Sim (s.on .tickClock) q g := h.of_wake hw h.rep
  have hh : s.lk.sleepListHead = (q .sleep).head? := chain_head (h.rep.chain .sleep)
  obtain ⟨q', hw', h', hq'⟩ := Sim.sleepLoop [] h₁ rfl (h₁.queue_le .sleep)
    ⟨s.readings, Nat.lt_succ_self _, show s.getTimeNs = _ from rfl⟩
  unfold Sys.checkSleepList
  rw [← hh] at hw' h'
  exact ⟨q', .head hw hw', h', hq'⟩

theorem Sim.checkSleepList (h : Sim s q g) :
    ∃ q', Wakes (s.abs q g) (s.checkSleepList.abs q' g) ∧ Sim s.checkSleepList q' g := by
  obtain ⟨q', hw, h', -⟩ := h.checkSleepList_woke
  exact ⟨q', hw, h'⟩

end Uthread
