import Uthread.Mn.PlacedStep
import Uthread.Lib.Runs
import Mathlib.Data.List.Perm.Subperm

/-!
# The machine on links refines the machine on lists

Both take the same steps: an operation on links that represent lists answers
what the operation on the lists answers, and the results represent each other.
-/

namespace Uthread

open Linked

structure Refines (s : Mn MnLinks) (m : Mn Lists) : Prop where
  core : s.toMnCore = m.toMnCore
  q : QRep s.q m.q

variable {s s' : Mn MnLinks} {m m' : Mn Lists} {a : MnAct} {v : VpId} {t : Ptr} {pc : Pc} {w : WaitObj} {now : Nat}

theorem Placed.queues (h : Placed m) : Apart m.q.q := h.apart.comp (f := Place.queue) fun _ _ e => Place.queue.inj e

theorem Placed.notQueued {k : Place} (h : Placed m) (ht : t ∈ m.places k) (hk : ∀ i, k ≠ .queue i) (i : Queue) :
    t ∉ m.q.q i := fun hi => hk i (h.apart.disj ht (j := .queue i) hi)

theorem Placed.glob_le (h : Placed m) : m.q.glob.length ≤ m.brk := by
  have hsub : m.q.glob ⊆ List.range m.brk := by
    intro t ht
    exact List.mem_range.mpr (h.fresh ((h.listed t).mp ht).1)
  simpa using (h.glob.subperm hsub).length_le

namespace Refines

theorem on (f : MnCore → MnCore) (h : Refines s m) : Refines (s.on f) (m.on f) where
  core := congrArg f h.core
  q := h.q

theorem goto (h : Refines s m) : Refines (s.goto v pc) (m.goto v pc) := h.on (.goto v pc)

theorem mapQ {f : MnLinks → MnLinks} {g : Lists → Lists} (h : Refines s m) (hq : QRep (f s.q) (g m.q)) :
    Refines (s.mapQ f) (m.mapQ g) where
  core := h.core
  q := hq

theorem gc (hp : Placed m) (h : Refines s m) : Refines (s.gcFinishedThreads v) (m.gcFinishedThreads v) := by
  obtain ⟨c, l⟩ := s
  obtain ⟨c', q⟩ := m
  obtain rfl : c = c' := h.core
  obtain ⟨h₁, h₂⟩ := h.q.gc hp.glob (fun t => c.state t = .finished ∧ some t ≠ c.current v) hp.glob_le
  constructor
  · simp only [Mn.gcFinishedThreads]
    rw [show (RunQueues.gc _ c.brk l).1 = _ from h₁]
    rfl
  · exact h₂

theorem took {r : Option Ptr × MnLinks} {r' : Option Ptr × Lists} (h : Refines s m) (hr : r.1 = r'.1 ∧ QRep r.2 r'.2) :
    Refines (s.took v r pc) (m.took v r' pc) := by
  unfold Mn.took
  rw [hr.1]
  exact goto ⟨h.core, hr.2⟩

theorem mnYield (h : Refines s m) : Refines (s.mnYield v t) (m.mnYield v t) := by
  obtain ⟨c, l⟩ := s
  obtain ⟨c', q⟩ := m
  obtain rfl : c = c' := h.core
  unfold Mn.mnYield
  split
  · exact h.goto
  · exact h.goto

theorem mutexLock {mu : MutexId} (h : Refines s m) : Refines (s.mutexLock v mu) (m.mutexLock v mu) := by
  obtain ⟨c, l⟩ := s
  obtain ⟨c', q⟩ := m
  obtain rfl : c = c' := h.core
  unfold Mn.mutexLock
  split
  · exact h.goto
  · exact h.goto

theorem mutexUnlock {mu : MutexId} (h : Refines s m) : Refines (s.mutexUnlock v mu) (m.mutexUnlock v mu) := by
  unfold Mn.mutexUnlock
  have hw : RunQueues.waitHead s.q (.mutex mu) = RunQueues.waitHead m.q (.mutex mu) := h.q.waitHead
  rw [hw]
  split
  · exact h.goto
  · exact h.goto

theorem semWait {sm : SemId} (h : Refines s m) : Refines (s.semWait v sm) (m.semWait v sm) := by
  obtain ⟨c, l⟩ := s
  obtain ⟨c', q⟩ := m
  obtain rfl : c = c' := h.core
  unfold Mn.semWait
  split
  · exact h.goto
  · exact h.goto

theorem semStep {sm : SemId} {p : SemPc} (h : Refines s m) : Refines (s.semStep v sm p) (m.semStep v sm p) := by
  obtain ⟨c, l⟩ := s
  obtain ⟨c', q⟩ := m
  obtain rfl : c = c' := h.core
  have hw : RunQueues.waitHead l (.sem sm) = RunQueues.waitHead q (.sem sm) := h.q.waitHead
  cases p with
  | take => exact h.goto
  | postTest =>
    unfold Mn.semStep
    dsimp only
    rw [hw]
    exact h.goto
  | back => exact h.goto
  | _ => exact (h.on _).goto

theorem call (hp : Placed m) (h : Refines s m) (hs : s.call a = some s') : ∃ m', m.call a = some m' ∧ Refines s' m' := by
  obtain ⟨c, l⟩ := s
  obtain ⟨c', q⟩ := m
  obtain rfl : c = c' := h.core
  have hb : Refines ((⟨c, l⟩ : Mn MnLinks).on (.beginCall a.vp)) ((⟨c, q⟩ : Mn Lists).on (.beginCall a.vp)) := h.on _
  have hpb := hp.beginCall (v := a.vp)
  unfold Mn.call at hs ⊢
  dsimp only at hs ⊢
  have hcur : ∀ {σ} (x : σ), ((⟨c, x⟩ : Mn σ).on (.beginCall a.vp)).current a.vp = c.current a.vp := fun _ => rfl
  rw [hcur] at hs ⊢
  cases hcall : a.call <;> cases hc : c.current a.vp <;> simp only [hcall, hc] at hs ⊢ <;> cases hs
  all_goals refine ⟨_, rfl, ?_⟩
  case create.none | create.some => exact (gc hpb hb).goto
  case mnRun.none => exact hb.goto
  case yield.some => exact hb.mnYield
  case exit.some => exact (hb.on _).goto
  case mutexLock.some => exact hb.mutexLock
  case mutexUnlock.some => exact hb.mutexUnlock
  case semWait.some => exact hb.semWait
  case semPost.some => exact hb.goto
  case sleep.some => exact ((hb.on _).on _).goto
  case io.some => exact ((hb.on _).on _).goto

theorem createTcb (h : Refines s m) (hs : s.createTcb a = some s') : ∃ m', m.createTcb a = some m' ∧ Refines s' m' := by
  obtain ⟨c, l⟩ := s
  obtain ⟨c', q⟩ := m
  obtain rfl : c = c' := h.core
  unfold Mn.createTcb at hs ⊢
  split at hs
  · split at hs
    · cases hs
    · rename_i hal
      cases hs
      rw [if_pos ‹_›, if_neg hal]
      exact ⟨_, rfl, (h.on _).goto⟩
  · cases hs
    rw [if_neg ‹_›]
    exact ⟨_, rfl, h.goto⟩

theorem probe {start i : Nat} (hp : Placed m) (h : Refines s m) (hpc : m.pc v = .probe start i) :
    Refines (s.probe v start i) (m.probe v start i) := by
  obtain ⟨c, l⟩ := s
  obtain ⟨c', q⟩ := m
  obtain rfl : c = c' := h.core
  have hfl : q.q (.flight v) = [] := by
    have hf := hp.flight v
    rw [hpc] at hf
    exact hf
  have hcount : ∀ u, RunQueues.localCount l u = RunQueues.localCount q u := h.q.localCount
  unfold Mn.probe
  dsimp only
  split
  · split
    · exact h.goto
    · rw [hcount]
      split
      · exact h.goto
      · generalize hv : (start + i) % c.numVps = victim
        have hle : (RunQueues.localCount q victim / 2).toNat ≤ (q.q (.loc victim)).length := by
          have he : RunQueues.localCount q victim = ((q.q (.loc victim)).length : Int) := rfl
          rw [he]
          omega
        obtain ⟨h₁, h₂⟩ := h.q.steal v hp.queues hfl hle
        rw [show (RunQueues.steal v victim _ l).1 = _ from h₁]
        cases (RunQueues.steal v victim (RunQueues.localCount q victim / 2).toNat q).1.stolenHead with
        | none => exact ⟨rfl, h₂⟩
        | some x => exact ⟨rfl, h₂⟩
  · exact h.goto

theorem inCall (hp : Placed m) (ht : m.Timely a.vp) (h : Refines s m) (hpc : m.pc a.vp = pc) (hc : m.current a.vp = some t)
    (hs : s.inCall a t pc = some s') : ∃ m', m.inCall a t pc = some m' ∧ Refines s' m' := by
  have hl : m.holders = s.holders := by rw [h.core]
  have hcur : m.current = s.current := by rw [h.core]
  have ha := hp.queues
  have hown : ∀ k, pc.own = some k → ∀ i, t ∉ m.q.q i := by
    intro k hk
    exact hp.notQueued (Mn.mem_own hpc hk hc) (by simp)
  unfold Mn.Timely at ht
  rw [hpc] at ht
  cases pc with
  | lockSet mu =>
    cases hs
    refine ⟨_, rfl, ?_⟩
    rw [hl]
    exact (h.on _).goto
  | unlockClear mu =>
    cases hs
    refine ⟨_, rfl, ?_⟩
    rw [hl]
    exact (h.on _).goto
  | sem sm p =>
    cases hs
    exact ⟨_, rfl, h.semStep⟩
  | appendRead w =>
    cases hs
    have hw : RunQueues.waitTail s.q w = RunQueues.waitTail m.q w := h.q.waitTail
    rw [hw]
    exact ⟨_, rfl, h.goto⟩
  | append w tail =>
    cases hs
    refine ⟨_, rfl, goto (on _ (mapQ h ?_))⟩
    exact h.q.waitAppendAt ha (hown _ rfl) (h.q.waitTail.trans ht)
  | wakeRead w =>
    have hw : RunQueues.waitHead s.q w = RunQueues.waitHead m.q w := h.q.waitHead
    obtain ⟨x, hx, rfl⟩ := Option.map_eq_some_iff.mp hs
    refine ⟨m.goto a.vp (.pop w x), ?_, h.goto⟩
    exact Option.map_eq_some_iff.mpr ⟨x, hw.symm.trans hx, rfl⟩
  | pop w x =>
    cases hs
    obtain ⟨ts, hq⟩ := List.head?_eq_some_iff.mp ht
    refine ⟨_, rfl, ?_⟩
    unfold Mn.pop
    rw [hcur]
    exact goto (on _ (mapQ h (h.q.waitPop ha hq)))
  | enqRead x =>
    cases hs
    have hr : RunQueues.readyTail s.q = RunQueues.readyTail m.q := h.q.readyTail
    rw [hr]
    exact ⟨_, rfl, h.goto⟩
  | wakeEnq x tail =>
    cases hs
    have hx : x ∈ m.places (.hand .pend a.vp) := Mn.mem_pend (by simp [hpc, Pc.pend])
    refine ⟨_, rfl, goto (mapQ h ?_)⟩
    exact h.q.enqueueAt ha (hp.notQueued hx (by simp)) (h.q.readyTail.trans ht)
  | sleepPush =>
    cases hs
    refine ⟨_, rfl, goto (mapQ h ?_)⟩
    exact h.q.sleepPush (hown _ rfl)
  | yieldTest =>
    cases hs
    exact ⟨_, rfl, h.mnYield⟩
  | yieldEnq =>
    cases hs
    refine ⟨_, rfl, goto (mapQ h ?_)⟩
    exact h.q.vpEnqueue ha (hown _ rfl)
  | exitSwitch =>
    cases hs
    exact ⟨_, rfl, h.goto⟩
  | park | parkTrace | wakeMark | wakeTrace | sleepTrace | ioTrace | ioAdd | yieldMark | yieldTrace | swapOut | exitTrace =>
    cases hs
    exact ⟨_, rfl, (h.on _).goto⟩
  | _ => cases hs

theorem step (hp : Placed m) (ht : m.Timely a.vp) (h : Refines s m) (hs : s.step a = some s') :
    ∃ m', m.step a = some m' ∧ Refines s' m' := by
  obtain ⟨c, l⟩ := s
  obtain ⟨c', q⟩ := m
  obtain rfl : c = c' := h.core
  have ha := hp.queues
  unfold Mn.step at hs ⊢
  dsimp only at hs ⊢
  cases hpc : c.pc a.vp with
  | user =>
    simp only [hpc] at hs ⊢
    exact call hp h hs
  | off => simp [hpc] at hs
  | returned => simp [hpc] at hs
  | done => simp [hpc] at hs
  | createTcb =>
    simp only [hpc] at hs ⊢
    exact createTcb h hs
  | createAdd t =>
    simp only [hpc] at hs ⊢
    cases hs
    have hout : t ∉ q.glob := by
      rw [hp.listed]
      exact fun hx => hx.2 a.vp (by simp [hpc, Pc.unlisted])
    refine ⟨_, rfl, goto (mapQ h ?_)⟩
    exact h.q.globalListAdd hout hp.glob
  | createEnq t =>
    simp only [hpc] at hs ⊢
    cases hs
    have ht' : t ∈ (⟨c, q⟩ : Mn Lists).places (.hand .pend a.vp) := Mn.mem_pend (by simp [hpc, Pc.pend])
    refine ⟨_, rfl, goto (mapQ h ?_)⟩
    exact h.q.enqueue ha (hp.notQueued ht' (by simp))
  | createTrace t =>
    simp only [hpc] at hs ⊢
    cases hs
    exact ⟨_, rfl, (h.on _).goto⟩
  | createRet t =>
    simp only [hpc] at hs ⊢
    cases hs
    exact ⟨_, rfl, h.goto⟩
  | spawn i =>
    simp only [hpc] at hs ⊢
    split at hs
    · cases hs
      rename_i hi
      rw [if_pos hi]
      exact ⟨_, rfl, h.goto.goto⟩
    · cases hs
      rename_i hi
      rw [if_neg hi]
      exact ⟨_, rfl, h.goto⟩
  | stop i =>
    simp only [hpc] at hs ⊢
    split at hs
    · cases hs
      rename_i hi
      rw [if_pos hi]
      exact ⟨_, rfl, (h.on _).goto⟩
    · cases hs
      rename_i hi
      rw [if_neg hi]
      exact ⟨_, rfl, (gc hp h).goto⟩
  | join i =>
    simp only [hpc] at hs ⊢
    split at hs
    · cases hs
      rename_i hi
      rw [if_pos hi]
      exact ⟨_, rfl, h.goto⟩
    · cases hs
  | test =>
    simp only [hpc] at hs ⊢
    cases hs
    refine ⟨_, rfl, ?_⟩
    split
    · exact h.goto
    · exact h.goto
  | deq =>
    simp only [hpc] at hs ⊢
    cases hs
    exact ⟨_, rfl, took h (h.q.vpDequeue ha)⟩
  | stealDeq =>
    simp only [hpc] at hs ⊢
    cases hs
    exact ⟨_, rfl, took h (h.q.vpDequeue ha)⟩
  | ready =>
    simp only [hpc] at hs ⊢
    cases hs
    exact ⟨_, rfl, took h (h.q.dequeue ha)⟩
  | probe start i =>
    simp only [hpc] at hs ⊢
    cases hs
    exact ⟨_, rfl, probe hp h hpc⟩
  | attach x tl n =>
    simp only [hpc] at hs ⊢
    cases hs
    have hf := hp.flight a.vp
    rw [show (⟨c, q⟩ : Mn Lists).pc a.vp = .attach x tl n from hpc] at hf
    refine ⟨_, rfl, goto (mapQ h ?_)⟩
    exact h.q.attach ha hf.1 hf.2.1 hf.2.2
  | stealTrace x =>
    simp only [hpc] at hs ⊢
    cases hs
    exact ⟨_, rfl, (h.on _).goto⟩
  | alive =>
    simp only [hpc] at hs ⊢
    cases hs
    refine ⟨_, rfl, ?_⟩
    have hl : RunQueues.hasLive c.state c.brk l = RunQueues.hasLive c.state c.brk q := h.q.hasLive hp.glob_le
    rw [hl]
    split
    · exact h.goto
    · exact h.goto
  | dispatch t =>
    simp only [hpc] at hs ⊢
    cases hs
    refine ⟨_, rfl, ?_⟩
    unfold Mn.dispatch
    refine goto (mapQ ((h.on _).on _) ?_)
    exact ⟨h.q.shared, h.q.loc, h.q.localTail, h.q.localCount, h.q.flight⟩
  | dispatchTrace t =>
    simp only [hpc] at hs ⊢
    cases hs
    exact ⟨_, rfl, (h.on _).goto⟩
  | switchIn t =>
    simp only [hpc] at hs ⊢
    cases hs
    exact ⟨_, rfl, (h.on _).goto⟩
  | _ =>
    simp only [hpc] at hs ⊢
    obtain ⟨t, hc, hs⟩ := Option.bind_eq_some_iff.mp hs
    obtain ⟨m', hm', hr⟩ := inCall hp ht h hpc hc hs
    refine ⟨m', ?_, hr⟩
    rw [hc]
    exact hm'

end Refines

/-! ## Runs -/

/-- The runtime before `uthread_mn_run`, its threads spread over the queues. -/
def Start (s : Mn MnLinks) : Prop :=
  ∃ n k sem tr q, 1 ≤ n ∧ s.toMnCore = loaded n k sem tr ∧ QRep s.q q ∧ Spread n k q

abbrev MnRun (ok : MnCore → MnAct → Prop) : Mn MnLinks → Prop :=
  Trans.Reach Start Mn.step fun s a => ok s.toMnCore a

abbrev ListRun (ok : MnCore → MnAct → Prop) : Mn Lists → Prop :=
  Trans.Reach StartLists Mn.step fun m a => m.Timely a.vp ∧ ok m.toMnCore a

def AnyStep (_ : MnCore) (_ : MnAct) : Prop := True

instance (c : MnCore) (a : MnAct) : Decidable (AnyStep c a) := inferInstanceAs (Decidable True)

variable {ok ok' : MnCore → MnAct → Prop}

theorem ListRun.mono (hk : ∀ c a, ok c a → ok' c a) (h : ListRun ok m) : ListRun ok' m :=
  Trans.Reach.mono (fun _ _ ⟨ht, ho⟩ => ⟨ht, hk _ _ ho⟩) h

theorem ListRun.sound (h : ListRun ok m) : Sound m := by
  induction h with
  | init h => exact h.sound
  | step _ hok hs ih => exact ih.step hok.1 hs

/-- What holds at first and is kept by the steps of threads and of the runtime holds in every run. -/
theorem ListRun.inv {I : Mn Lists → Prop} (hi : ∀ m, StartLists m → I m)
    (hu : ∀ m a m', Sound m → I m → ok m.toMnCore a → m.pc a.vp = .user → UserStep (m.on (.beginCall a.vp)) a m' → I m')
    (hl : ∀ m a m', Sound m → I m → ok m.toMnCore a → LoopStep m a m' → I m') (h : ListRun ok m) : I m := by
  induction h with
  | init h => exact hi _ h
  | step hm hok hs ih =>
    have hsd := ListRun.sound hm
    rcases Mn.step_cases hsd.placed hok.1 hs with ⟨hpc, hst⟩ | hst
    · exact hu _ _ _ hsd ih hok.2 hpc hst
    · exact hl _ _ _ hsd ih hok.2 hst

/-! ## Runs from given queues -/

theorem initMn_rep (n : Nat) (sem : SemId → Int) (tr : Trace) : QRep (initMn n sem tr).q ⟨fun _ => [], []⟩ where
  shared := by
    constructor
    · intro i
      cases i <;> rfl
    · intro i hi
      cases i <;> rfl
    · rfl
    · exact ⟨rfl, trivial⟩
  loc v := rfl
  localTail v := rfl
  localCount v := rfl
  flight v := rfl

theorem initMn_start {n : Nat} (hn : 1 ≤ n) (sem : SemId → Int) (tr : Trace) : Start (initMn n sem tr) := by
  refine ⟨n, 0, sem, tr, ⟨fun _ => [], []⟩, hn, ?_, initMn_rep n sem tr, ?_⟩
  · simp [loaded, initMn]
  · constructor
    · exact ⟨fun _ => List.nodup_nil, fun h => by cases h⟩
    · simp
    · simp
    · exact List.nodup_nil
    · simp

/-- `uthread_init_mn` sets up between 1 and 64 virtual processors. -/
theorem uthreadInitMn_start (numProcessors : Int) (sem : SemId → Int) (tr : Trace) :
    Start (uthreadInitMn numProcessors sem tr) ∧ 1 ≤ (uthreadInitMn numProcessors sem tr).numVps ∧
      ((uthreadInitMn numProcessors sem tr).numVps : Int) ≤ maxVirtualProcs := by
  have h : 1 ≤ clampProcessors numProcessors ∧ clampProcessors numProcessors ≤ maxVirtualProcs := by
    unfold clampProcessors maxVirtualProcs
    grind
  have hn : 1 ≤ (clampProcessors numProcessors).toNat := by omega
  refine ⟨initMn_start hn sem tr, hn, ?_⟩
  have hv : (uthreadInitMn numProcessors sem tr).numVps = (clampProcessors numProcessors).toNat := rfl
  omega

def crowdLinks : Nat → MnLinks
  | 0 => (initMn 1 (fun _ => 0) ⟨none, 0, false⟩).q
  | k + 1 => ((crowdLinks k).vpEnqueue 0 k).on (·.globalListAdd k)

def crowdLists (k : Nat) : Lists where
  q i := if i = .loc 0 then List.range k else []
  glob := (List.range k).reverse

theorem crowd_apart (k : Nat) : Apart (crowdLists k).q where
  nodup i := by
    unfold crowdLists
    dsimp only
    split
    · exact List.nodup_range
    · exact List.nodup_nil
  disj {i j x} hi hj := by
    unfold crowdLists at hi hj
    dsimp only at hi hj
    split at hi
    · split at hj
      · simp [*]
      · cases hj
    · cases hi

theorem crowd_rep (k : Nat) : QRep (crowdLinks k) (crowdLists k) := by
  induction k with
  | zero =>
    have he : crowdLists 0 = ⟨fun _ => [], []⟩ := by simp [crowdLists]
    rw [he]
    exact initMn_rep 1 _ _
  | succ k ih =>
    have hk : ∀ i, k ∉ (crowdLists k).q i := by
      intro i
      simp only [crowdLists]
      split <;> simp
    have hq := ih.vpEnqueue (v := 0) (crowd_apart k) hk
    have hg : k ∉ ((crowdLists k).push (.loc 0) k).glob := by simp [Lists.push, crowdLists]
    have hn : ((crowdLists k).push (.loc 0) k).glob.Nodup := by simp [Lists.push, crowdLists, List.nodup_range]
    have he : crowdLists (k + 1) = { (crowdLists k).push (.loc 0) k with glob := k :: ((crowdLists k).push (.loc 0) k).glob } := by
      simp only [crowdLists, Lists.push, Lists.set, ite_true, List.range_succ, List.reverse_append, List.reverse_singleton,
        List.singleton_append, Lists.mk.injEq, and_true]
      funext i
      by_cases hi : i = .loc 0
      · subst hi
        simp
      · simp [hi]
    rw [he]
    exact hq.globalListAdd hg hn

def crowd (n k : Nat) : Mn MnLinks :=
  { loaded n k (fun _ => 0) ⟨none, 0, false⟩ with q := crowdLinks k }

theorem crowd_start {n : Nat} (hn : 1 ≤ n) (k : Nat) : Start (crowd n k) := by
  refine ⟨n, k, _, _, crowdLists k, hn, rfl, crowd_rep k, crowd_apart k, ?_, ?_, ?_, ?_⟩
  · intro t
    simp [crowdLists]
  · intro i hi
    refine .inr ⟨0, hn, ?_⟩
    by_contra hne
    exact hi (if_neg hne)
  · simp [crowdLists, List.nodup_range]
  · intro t
    simp [crowdLists]

def Mn.after (s : Mn MnLinks) (as : List MnAct) : Mn MnLinks := (Trans.exec Mn.step s as).getD s

theorem MnRun.after {I : Mn MnLinks → Prop} [∀ c a, Decidable (ok c a)] {as : List MnAct}
    (hs : Trans.Reach I Mn.step (fun s a => ok s.toMnCore a) s)
    (h : (Trans.exec (fun (s : Mn MnLinks) a => if ok s.toMnCore a then s.step a else none) s as).isSome = true) :
    Trans.Reach I Mn.step (fun s a => ok s.toMnCore a) (s.after as) := by
  obtain ⟨s', hx⟩ := Option.isSome_iff_exists.mp h
  have hp : Trans.exec (fun (s : Mn MnLinks) a => if decide (ok s.toMnCore a) = true then s.step a else none) s as = some s' := by
    simpa using hx
  unfold Mn.after
  rw [Trans.exec_of_checked hp]
  exact Trans.Reach.replay (fun _ _ => of_decide_eq_true) hs hp

/-- `main` creates the threads `0` to `k - 1` and enters `vp_loop` behind `uthread_mn_run`, which starts one more OS
thread. -/
def launch (k : Nat) : List MnAct :=
  ((List.range k).map fun t => { vp := 0, call := .create } :: { vp := 0, addr := t } :: List.replicate 4 { vp := 0 }).flatten ++
    { vp := 0, call := .mnRun } :: List.replicate 2 { vp := 0 }

end Uthread
