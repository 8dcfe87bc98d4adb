import Uthread.Mn.Orderly
import Mathlib.Data.List.Rotate

/-!
# Taking turns in M:N mode

With one virtual processor and threads that only yield, an iteration of
`vp_loop` turns the local queue round by one thread. The ready queue feeds the
local queue only when that is empty, which happens at most once.
-/

namespace Uthread

open Linked

namespace Mn

def dispatching (s : Mn MnLinks) : List Ptr :=
  match s.pc 0 with
  | .dispatch t => [t]
  | _ => []

/-- The rest of an iteration of `vp_loop`, of at most `n` steps: whom it dispatches, and the state at the next
`while (vp->running)`. -/
def toTest (a : Nat → MnAct) : Nat → Mn MnLinks → Option (List Ptr × Mn MnLinks)
  | 0, _ => none
  | n + 1, s => (s.step (a n)).bind fun s' =>
    if s'.pc 0 = .test then some (s.dispatching, s')
    else (toTest a n s').map fun r => (s.dispatching ++ r.1, r.2)

/-- An iteration in which the thread that is dispatched yields at once. -/
def iteration (a : Nat → MnAct) (s : Mn MnLinks) : Option (List Ptr × Mn MnLinks) := toTest a 11 s

def iterations (as : Nat → Nat → MnAct) (s : Mn MnLinks) : Nat → Option (Mn MnLinks)
  | 0 => some s
  | k + 1 => (iterations as s k).bind fun s => (s.iteration (as k)).map Prod.snd

def servedIn (as : Nat → Nat → MnAct) (s : Mn MnLinks) (k : Nat) : List Ptr :=
  ((s.iterations as k).bind (iteration (as k))).elim [] Prod.fst

end Mn

variable {s s' : Mn MnLinks} {q : Lists} {a : Nat → MnAct} {as : Nat → Nat → MnAct} {t u : Ptr} {n k : Nat} {xs : List Ptr}

/-- The only virtual processor is at `while (vp->running)`, and its queues are those of `q`. -/
structure Round (s : Mn MnLinks) (q : Lists) : Prop where
  one : s.numVps = 1
  pc : s.pc 0 = .test
  running : s.running 0 = true
  rep : QRep s.q q
  apart : Apart q.q

def Yields (a : Nat → MnAct) : Prop := ∀ i, (a i).vp = 0 ∧ (a i).call = .yield

/-! ## One iteration -/

theorem toTest_step (hs : s.step (a n) = some s') (hp : s'.pc 0 ≠ .test) :
    Mn.toTest a (n + 1) s = (Mn.toTest a n s').map fun r => (s.dispatching ++ r.1, r.2) := by
  simp only [Mn.toTest, hs, Option.bind_some, hp, if_false]

theorem toTest_last (hs : s.step (a n) = some s') (hp : s'.pc 0 = .test) :
    Mn.toTest a (n + 1) s = some (s.dispatching, s') := by
  simp only [Mn.toTest, hs, Option.bind_some, hp, if_true]

theorem dispatching_nil (pc : Pc) (hpc : s.pc 0 = pc) (h : ∀ t, pc ≠ .dispatch t) : s.dispatching = [] := by
  unfold Mn.dispatching
  split
  · next t ht => exact absurd (hpc.symm.trans ht) (h t)
  · rfl

theorem turn (hy : Yields a) (hpc : s.pc 0 = .dispatch t) (hn : s.numVps = 1) (hr : s.running 0 = true) (hq : QRep s.q q)
    (hap : Apart q.q) (ht : ∀ i, t ∉ q.q i) :
    ∃ s', Mn.toTest a (n + 8) s = some ([t], s') ∧ Round s' (q.push (.loc 0) t) := by
  have hd : s.dispatching = [t] := by
    unfold Mn.dispatching
    rw [hpc]
  -- the dispatch and its `swapcontext`
  let s₁ := s.dispatch 0 t
  have h₁ : s.step (a (n + 7)) = some s₁ := by simp only [Mn.step, (hy _).1, hpc, s₁]
  let s₂ := (s₁.on (.emit t .run 0 (a (n + 6)).now)).goto 0 (.switchIn t)
  have h₂ : s₁.step (a (n + 6)) = some s₂ := by
    have hpc₁ : s₁.pc 0 = .dispatchTrace t := rfl
    simp only [Mn.step, (hy _).1, hpc₁, s₂]
    rfl
  let s₃ := (s₂.on (.loadContext 0 t)).goto 0 .user
  have h₃ : s₂.step (a (n + 5)) = some s₃ := by
    have hpc₂ : s₂.pc 0 = .switchIn t := rfl
    simp only [Mn.step, (hy _).1, hpc₂, s₃]
  -- the call, in which the thread is put into the local queue
  have hframe₃ : s₃.numVps = s.numVps ∧ s₃.running = s.running := ⟨rfl, rfl⟩
  have hst : (s₃.on (.beginCall 0)).state t = .running := Function.update_self ..
  let s₄ := (s₃.on (.beginCall 0)).goto 0 .yieldMark
  have h₄ : s₃.step (a (n + 4)) = some s₄ := by
    have hpc₃ : s₃.pc 0 = .user := rfl
    have hcur₃ : (s₃.on (.beginCall 0)).current 0 = some t := rfl
    simp only [Mn.step, (hy _).1, hpc₃, Mn.call, (hy _).2, hcur₃, Mn.mnYield, if_pos hst, s₄]
  have hcur₄ : s₄.current 0 = some t := rfl
  let s₅ := (s₄.on (.setState t .ready)).goto 0 .yieldTrace
  have h₅ : s₄.step (a (n + 3)) = some s₅ := by
    have hpc₄ : s₄.pc 0 = .yieldMark := rfl
    simp only [Mn.step, (hy _).1, hpc₄, hcur₄, Option.bind_some, Mn.inCall, s₅]
  have hcur₅ : s₅.current 0 = some t := rfl
  let s₆ := (s₅.on (.emit t .yield 0 (a (n + 2)).now)).goto 0 .yieldEnq
  have h₆ : s₅.step (a (n + 2)) = some s₆ := by
    have hpc₅ : s₅.pc 0 = .yieldTrace := rfl
    simp only [Mn.step, (hy _).1, hpc₅, hcur₅, Option.bind_some, Mn.inCall, s₆]
    rfl
  have hframe₆ : s₆.numVps = s₃.numVps ∧ s₆.running = s₃.running := ⟨rfl, rfl⟩
  have hcur₆ : s₆.current 0 = some t := rfl
  let s₇ := (s₆.mapQ (RunQueues.vpEnqueue 0 t)).goto 0 (.swapOut true)
  have h₇ : s₆.step (a (n + 1)) = some s₇ := by
    have hpc₆ : s₆.pc 0 = .yieldEnq := rfl
    simp only [Mn.step, (hy _).1, hpc₆, hcur₆, Option.bind_some, Mn.inCall, s₇]
  have hcur₇ : s₇.current 0 = some t := rfl
  have hrep : QRep s₆.q q := ⟨hq.shared, hq.loc, hq.localTail, hq.localCount, hq.flight⟩
  -- back in the scheduler
  let s₈ := (s₇.on (.saveContext 0 t)).goto 0 .test
  have h₈ : s₇.step (a n) = some s₈ := by
    have hpc₇ : s₇.pc 0 = .swapOut true := rfl
    simp only [Mn.step, (hy _).1, hpc₇, hcur₇, Option.bind_some, Mn.inCall, s₈]
  have hframe₈ : s₈.numVps = s₆.numVps ∧ s₈.running = s₆.running := ⟨rfl, rfl⟩
  have hn₈ : s₈.numVps = 1 := by rw [hframe₈.1, hframe₆.1, hframe₃.1, hn]
  have hr₈ : s₈.running 0 = true := by rw [hframe₈.2, hframe₆.2, hframe₃.2, hr]
  refine ⟨s₈, ?_, hn₈, rfl, hr₈, hrep.vpEnqueue hap ht, ?_⟩
  · rw [toTest_step h₁ (by simp [s₁, Mn.dispatch]), toTest_step h₂ (by simp [s₂]), toTest_step h₃ (by simp [s₃]),
      toTest_step h₄ (by simp [s₄]), toTest_step h₅ (by simp [s₅]), toTest_step h₆ (by simp [s₆]),
      toTest_step h₇ (by simp [s₇]), toTest_last h₈ rfl, hd, dispatching_nil (.dispatchTrace t) rfl (by simp),
      dispatching_nil (.switchIn t) rfl (by simp), dispatching_nil .user rfl (by simp),
      dispatching_nil .yieldMark rfl (by simp), dispatching_nil .yieldTrace rfl (by simp),
      dispatching_nil .yieldEnq rfl (by simp), dispatching_nil (.swapOut true) rfl (by simp)]
    rfl
  · exact hap.extend (List.nodup_singleton t) fun j x hx => by
      rw [List.mem_singleton] at hx
      rw [hx]
      exact ht j

theorem took_some {r : Option Ptr × MnLinks} (pc : Pc) (hr : r.1 = some t) :
    (s.took 0 r pc).pc 0 = .dispatch t ∧ (s.took 0 r pc).q = r.2 ∧ (s.took 0 r pc).numVps = s.numVps ∧
      (s.took 0 r pc).running = s.running := by
  unfold Mn.took
  rw [hr]
  exact ⟨rfl, rfl, rfl, rfl⟩

theorem took_none {r : Option Ptr × MnLinks} (pc : Pc) (hr : r.1 = none) :
    (s.took 0 r pc).pc 0 = pc ∧ (s.took 0 r pc).q = r.2 ∧ (s.took 0 r pc).numVps = s.numVps ∧
      (s.took 0 r pc).running = s.running := by
  unfold Mn.took
  rw [hr]
  exact ⟨rfl, rfl, rfl, rfl⟩

/-- The threads that get turns: those in the local queue, or the first in the ready queue when there are none. -/
def feed (q : Lists) : List Ptr := if q.q (.loc 0) = [] then (q.q (.shared .ready)).take 1 else q.q (.loc 0)

theorem Round.turn {ts : List Ptr} (h : Round s q) (hy : Yields a) (hf : feed q = t :: ts) :
    ∃ s' q', s.iteration a = some ([t], s') ∧ Round s' q' ∧ q'.q (.loc 0) = ts ++ [t] := by
  -- `while (vp->running)` and `vp_dequeue`
  let s₁ := s.goto 0 .deq
  have h₁ : s.step (a 10) = some s₁ := by simp only [Mn.step, (hy _).1, h.pc, h.running, ite_true, s₁]
  let s₂ := s₁.took 0 (RunQueues.vpDequeue 0 s.q) .ready
  have h₂ : s₁.step (a 9) = some s₂ := by
    have hpc₁ : s₁.pc 0 = .deq := rfl
    simp only [Mn.step, (hy _).1, hpc₁, s₂]
    rfl
  have hd₁ : s.dispatching = [] ∧ s₁.dispatching = [] :=
    ⟨dispatching_nil _ h.pc (by simp), dispatching_nil .deq rfl (by simp)⟩
  obtain ⟨hr₁, hr₂⟩ : (RunQueues.vpDequeue 0 s.q).1 = (q.pop (.loc 0)).1 ∧ QRep (RunQueues.vpDequeue 0 s.q).2 (q.pop (.loc 0)).2 :=
    h.rep.vpDequeue h.apart
  unfold feed at hf
  cases hl : q.q (.loc 0) with
  | cons u us =>
    -- the local queue has a thread
    rw [hl, if_neg (by simp), List.cons.injEq] at hf
    obtain ⟨rfl, rfl⟩ := hf
    have hsome : (RunQueues.vpDequeue 0 s.q).1 = some u := by rw [hr₁]; simp [Lists.pop, hl]
    obtain ⟨hpc₂, hq₂, hn₂, hrun₂⟩ := took_some (s := s₁) .ready hsome
    have hap : Apart (q.pop (.loc 0)).2.q := by
      simp only [Lists.pop, Lists.set_q]
      exact h.apart.shrink (List.tail_sublist _)
    have hout : ∀ i, u ∉ (q.pop (.loc 0)).2.q i := by
      intro i
      simp only [Lists.pop, Lists.set_q, hl, List.tail_cons]
      exact h.apart.notMem_shrink (show _ = [u] ++ us from hl) (by simp) i
    obtain ⟨s', hs', hround⟩ := Uthread.turn (n := 1) hy hpc₂ (hn₂.trans h.one) ((congrFun hrun₂ 0).trans h.running) (hq₂ ▸ hr₂)
      hap hout
    refine ⟨s', _, ?_, hround, ?_⟩
    · unfold Mn.iteration
      rw [toTest_step h₁ (by simp [s₁]), toTest_step h₂ (by simp [s₂, hpc₂]), hs', hd₁.1, hd₁.2]
      rfl
    · simp [Lists.push, Lists.pop, hl]
  | nil =>
    -- the first thread in the ready queue becomes the only one in the local queue
    rw [hl, if_pos rfl] at hf
    cases hg : q.q (.shared .ready) with
    | nil =>
      rw [hg] at hf
      cases hf
    | cons u us =>
      rw [hg, List.take_succ_cons, List.take_zero, List.cons.injEq] at hf
      obtain ⟨rfl, rfl⟩ := hf
      have hnone : (RunQueues.vpDequeue 0 s.q).1 = none := by rw [hr₁]; simp [Lists.pop, hl]
      obtain ⟨hpc₂, hq₂, hn₂, hrun₂⟩ := took_none (s := s₁) .ready hnone
      have hsame : (q.pop (.loc 0)).2 = q := by
        simp only [Lists.pop, Lists.set, hl, List.tail_nil]
        rw [← hl, Function.update_eq_self]
      have hrep₂ : QRep s₂.q q := by
        rw [show s₂.q = (RunQueues.vpDequeue 0 s.q).2 from hq₂, ← hsame]
        exact hr₂
      obtain ⟨hg₁, hg₂⟩ : (RunQueues.dequeue s₂.q).1 = (q.pop (.shared .ready)).1 ∧
          QRep (RunQueues.dequeue s₂.q).2 (q.pop (.shared .ready)).2 := hrep₂.dequeue h.apart
      let s₃ := s₂.took 0 (RunQueues.dequeue s₂.q) .alive
      have h₃ : s₂.step (a 8) = some s₃ := by
        have hpc₂ : s₂.pc 0 = .ready := hpc₂
        have hn₂ : s₂.numVps ≤ 1 := (hn₂.trans h.one).le
        simp only [Mn.step, (hy _).1, hpc₂, hn₂, if_true, s₃]
      have hd₂ : s₂.dispatching = [] := dispatching_nil _ hpc₂ (by simp)
      have hsome : (RunQueues.dequeue s₂.q).1 = some u := by rw [hg₁]; simp [Lists.pop, hg]
      obtain ⟨hpc₃, hq₃, hn₃, hrun₃⟩ := took_some (s := s₂) .alive hsome
      have hap : Apart (q.pop (.shared .ready)).2.q := by
        simp only [Lists.pop, Lists.set_q]
        exact h.apart.shrink (List.tail_sublist _)
      have hout : ∀ i, u ∉ (q.pop (.shared .ready)).2.q i := by
        intro i
        simp only [Lists.pop, Lists.set_q, hg, List.tail_cons]
        exact h.apart.notMem_shrink (show _ = [u] ++ us from hg) (by simp) i
      obtain ⟨s', hs', hround⟩ := Uthread.turn (n := 0) hy hpc₃ (hn₃.trans (hn₂.trans h.one))
        ((congrFun hrun₃ 0).trans ((congrFun hrun₂ 0).trans h.running)) (hq₃ ▸ hg₂) hap hout
      refine ⟨s', _, ?_, hround, ?_⟩
      · unfold Mn.iteration
        rw [toTest_step h₁ (by simp [s₁]), toTest_step h₂ (by simp [s₂, hpc₂]), toTest_step h₃ (by simp [s₃, hpc₃]), hs',
          hd₁.1, hd₁.2, hd₂]
        rfl
      · simp [Lists.push, Lists.pop, hl]

/-! ## Any number of iterations -/

theorem Round.rotates (h : Round s q) (hy : ∀ k, Yields (as k)) (hne : feed q ≠ []) :
    ∃ s' q', s.iterations as k = some s' ∧ Round s' q' ∧ feed q' = (feed q).rotate k := by
  induction k with
  | zero => exact ⟨s, q, rfl, h, (List.rotate_zero _).symm⟩
  | succ k ih =>
    obtain ⟨s₁, q₁, hs₁, h₁, hf₁⟩ := ih
    cases hx : feed q₁ with
    | nil =>
      rw [hf₁, List.rotate_eq_nil_iff] at hx
      exact absurd hx hne
    | cons t ts =>
      obtain ⟨s₂, q₂, hs₂, h₂, hl⟩ := h₁.turn (hy k) hx
      refine ⟨s₂, q₂, ?_, h₂, ?_⟩
      · simp only [Mn.iterations, hs₁, Option.bind_some, hs₂, Option.map_some]
      · have hf₂ : feed q₂ = q₂.q (.loc 0) := if_neg (by rw [hl]; simp)
        rw [hf₂, hl, ← List.rotate_rotate, ← hf₁, hx, List.rotate_cons_succ, List.rotate_zero]

theorem Round.servedIn (h : Round s q) (hy : ∀ k, Yields (as k)) (hne : feed q ≠ []) :
    s.servedIn as k = ((feed q).rotate k).head?.toList := by
  obtain ⟨s', q', hs', h', hf⟩ := h.rotates (k := k) hy hne
  cases hx : feed q' with
  | nil =>
    rw [hf, List.rotate_eq_nil_iff] at hx
    exact absurd hx hne
  | cons t ts =>
    obtain ⟨s₂, q₂, hs₂, -⟩ := h'.turn (hy k) hx
    unfold Mn.servedIn
    rw [hs', Option.bind_some, hs₂, ← hf, hx]
    rfl

/-- In any `xs.length` consecutive iterations each thread of `xs` is dispatched once, and nobody else. -/
def EachOnce (as : Nat → Nat → MnAct) (s : Mn MnLinks) (xs : List Ptr) : Prop :=
  ∀ j, ((List.range xs.length).flatMap fun i => s.servedIn as (j + i)).Perm xs

theorem flatMap_getElem? : ∀ {xs : List Ptr}, ((List.range xs.length).flatMap fun i => xs[i]?.toList) = xs
  | [] => rfl
  | x :: xs => by
    rw [List.length_cons, List.range_succ_eq_map, List.flatMap_cons, List.flatMap_map]
    simp only [List.getElem?_cons_zero, Option.toList_some, List.getElem?_cons_succ, flatMap_getElem?]
    rfl

theorem rotate_window : ((List.range xs.length).flatMap fun i => (xs.rotate i).head?.toList) = xs := by
  have hget : ∀ i ∈ List.range xs.length, (xs.rotate i).head?.toList = xs[i]?.toList := by
    intro i hi
    rw [List.head?_rotate (List.mem_range.mp hi)]
  rw [List.flatMap_congr hget, flatMap_getElem?]

theorem Round.serves (h : Round s q) (hy : ∀ k, Yields (as k)) (hne : feed q ≠ []) (hn : (feed q).length = n) (j : Nat) :
    ((List.range n).flatMap fun i => s.servedIn as (j + i)) = (feed q).rotate j := by
  subst hn
  have hi : ∀ i ∈ List.range (feed q).length, s.servedIn as (j + i) = (((feed q).rotate j).rotate i).head?.toList := by
    intro i _
    rw [h.servedIn hy hne, List.rotate_rotate]
  rw [List.flatMap_congr hi, ← List.length_rotate (feed q) j]
  exact rotate_window

/-- With one virtual processor the threads take turns just when the ready queue is empty, or there is only one
thread: the others in the ready queue get no turn. -/
theorem turns_iff (h : Round s q) (hy : ∀ k, Yields (as k)) :
    EachOnce as s (q.q (.loc 0) ++ q.q (.shared .ready)) ↔
      q.q (.shared .ready) = [] ∨ (q.q (.loc 0) ++ q.q (.shared .ready)).length = 1 := by
  constructor
  · intro he
    by_cases hg : q.q (.shared .ready) = []
    · exact .inl hg
    · -- everybody in the ready queue is fed
      right
      have hne : feed q ≠ [] := by
        unfold feed
        split
        · simpa using hg
        · assumption
      have hfed : ∀ t ∈ q.q (.shared .ready), t ∈ feed q := by
        intro t ht
        have hm := (he 0).mem_iff.mpr (List.mem_append_right _ ht)
        obtain ⟨i, -, hi⟩ := List.mem_flatMap.mp hm
        rw [h.servedIn hy hne, Option.mem_toList] at hi
        exact List.mem_rotate.mp (List.mem_of_head? hi)
      obtain ⟨t, ts, hts⟩ := List.exists_cons_of_ne_nil hg
      unfold feed at hfed
      split at hfed
      · next hl =>
        rw [hl, List.nil_append, hts]
        cases ts with
        | nil => rfl
        | cons u us =>
          have hu := hfed u (by rw [hts]; simp)
          have hnd := h.apart.nodup (.shared .ready)
          rw [hts] at hu hnd
          obtain rfl : u = t := by simpa using hu
          simp at hnd
      · have ht := hfed t (by rw [hts]; simp)
        have := h.apart.disj (j := .shared .ready) ht (by rw [hts]; simp)
        cases this
  · intro hor j
    by_cases hne : feed q = []
    · have hnil : q.q (.loc 0) ++ q.q (.shared .ready) = [] := by
        unfold feed at hne
        split at hne
        · next hl =>
          rw [hl]
          simpa using hne
        · contradiction
      rw [hnil]
      exact .nil
    · have hall : feed q = q.q (.loc 0) ++ q.q (.shared .ready) := by
        unfold feed
        split
        · next hl =>
          rw [hl, List.nil_append]
          rcases hor with hg | h1
          · rw [hg]
            rfl
          · rw [hl, List.nil_append] at h1
            rw [List.take_of_length_le h1.le]
        · next hl =>
          rcases hor with hg | h1
          · rw [hg, List.append_nil]
          · have hpos := List.length_pos_of_ne_nil hl
            rw [List.length_append] at h1
            rw [List.eq_nil_of_length_eq_zero (by omega : (q.q (.shared .ready)).length = 0), List.append_nil]
      rw [h.serves hy hne (congrArg List.length hall) j, ← hall]
      exact List.rotate_perm ..

/-- Two threads in the local queue take turns. -/
theorem turns_iff_local :
    let s := (crowd 1 2).goto 0 .test
    EachOnce (fun _ _ => { vp := 0 }) s ((crowdLists 2).q (.loc 0) ++ (crowdLists 2).q (.shared .ready)) ↔
      (crowdLists 2).q (.shared .ready) = [] ∨
        ((crowdLists 2).q (.loc 0) ++ (crowdLists 2).q (.shared .ready)).length = 1 :=
  turns_iff ⟨rfl, rfl, rfl, crowd_rep 2, crowd_apart 2⟩ fun _ _ => ⟨rfl, rfl⟩

/-- The only thread creates another one and yields. -/
def createThenYield : List MnAct :=
  launch 1 ++ List.replicate 5 { vp := 0 } ++ { vp := 0, call := .create } :: { vp := 0, addr := 1 } ::
    List.replicate 9 { vp := 0 }

/-- The new thread is in the ready queue, and gets no turn. -/
theorem created_thread_shut_out : ¬ ∀ s q as, MnRun AnyStep s → Round s q → (∀ k, Yields (as k)) →
    EachOnce as s (q.q (.loc 0) ++ q.q (.shared .ready)) := by
  intro h
  let s := (initMn 1 (fun _ => 0) ⟨none, 0, false⟩).after createThenYield
  have hrun : MnRun Orderly s := .after (.init (initMn_start (by decide) _ _)) (by decide +kernel)
  obtain ⟨m, hm, hr⟩ := MnRun.lists (fun _ _ ho => ho) hrun
  have hround : Round s m.q :=
    ⟨by decide +kernel, by decide +kernel, by decide +kernel, hr.q, (ListRun.sound hm).placed.queues⟩
  have hloc : m.q.q (.loc 0) = [0] := by
    have hlen : ((m.q.q (.loc 0)).length : Int) = 1 := by rw [← hr.q.localCount 0]; decide +kernel
    rw [← walk_eq (n := 1) (hr.q.loc 0) (by omega)]
    decide +kernel
  have hready : m.q.q (.shared .ready) = [1] := by
    have hlen : ((m.q.shared .ready).length : Int) = 1 := by
      rw [← hr.q.shared.count]
      decide +kernel
    change m.q.shared .ready = [1]
    rw [← walk_eq (n := 1) (hr.q.shared.chain .ready) (by omega)]
    decide +kernel
  have hp := h s m.q (fun _ _ => { vp := 0 }) (hrun.mono fun _ _ _ => trivial) hround (fun _ _ => ⟨rfl, rfl⟩) 0
  have hserved : ((List.range 2).flatMap fun i => s.servedIn (fun _ _ => { vp := 0 }) (0 + i)) = [0, 0] := by
    decide +kernel
  rw [hloc, hready, show ([0] ++ [1] : List Ptr).length = 2 from rfl, hserved] at hp
  revert hp
  decide

end Uthread
