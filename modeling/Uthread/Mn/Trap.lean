import Uthread.Mn.Segment
import Uthread.Mn.Ending
import Uthread.Mn.Tickets

/-!
# Sleeping threads and I/O in M:N mode

In this mode `uthread_yield` goes to `mn_yield` before it comes to
`check_io_events` and `check_sleep_list`, and `vp_loop` calls neither. So a
thread that sleeps or waits for a file descriptor stays IO_BLOCKED for ever,
unless a race mixes up the links of the queues.
-/

namespace Uthread

open Linked

variable {ok : MnCore → MnAct → Prop} {s s' : Mn MnLinks} {m m' : Mn Lists} {a : MnAct} {t : Ptr} {v : VpId}

/-! ## On lists -/

def Retained (m : Mn Lists) : Prop := ∀ t, m.state t = .ioBlocked → m.allocated t = true

theorem Retained.userStep (h : Retained m) (hp : Placed m) (hpc : m.pc a.vp = .user) (hs : UserStep m a m') : Retained m' := by
  intro t ht
  have hst : m.allocated t = true ∧ m.state t ≠ .finished := by
    rcases Mn.user_state hpc hs t with he | ⟨i, hi, -⟩
    · rw [he] at ht
      exact ⟨h t ht, by simp [ht]⟩
    · exact ⟨hp.alive hi, hp.live hi⟩
  rcases Mn.user_allocated hs t with he | ⟨-, hf⟩
  · exact he.trans hst.1
  · exact absurd hf hst.2

theorem Retained.loopStep (h : Retained m) (hp : Placed m) (hs : LoopStep m a m') : Retained m' := by
  intro t ht
  by_cases hcr : m.pc a.vp = .createTcb ∧ t = a.addr
  · obtain ⟨hpc, rfl⟩ := hcr
    cases hs with
    | @createFail ok =>
      cases ok with
      | true => exact h _ ht
      | false => simp [MnCore.allocTcb] at ht
    | createTcb => simp [MnCore.allocTcb]
    | deq hpc' => simp [hpc] at hpc'
    | _ hpc' =>
      rw [hpc] at hpc'
      cases hpc'
  · have hst : m.allocated t = true ∧ m.state t ≠ .finished := by
      rcases Mn.loop_state hs t with he | ⟨i, hi, -⟩ | hx
      · rw [he] at ht
        exact ⟨h t ht, by simp [ht]⟩
      · exact ⟨hp.alive hi, hp.live hi⟩
      · exact absurd ⟨hx.1, hx.2.1⟩ hcr
    rcases Mn.loop_allocated hs t with he | ⟨-, hf⟩ | hx
    · exact he.trans hst.1
    · exact absurd hf hst.2
    · exact absurd ⟨hx.1, hx.2.1⟩ hcr

theorem ListRun.retained (h : ListRun ok m) : Retained m := by
  apply ListRun.inv _ _ _ h
  · intro m hm t ht
    obtain ⟨n, k, sem, tr, hn, hc, -⟩ := hm
    rw [hc] at ht
    cases ht
  · intro m a m' hsd hk _ hpc hu
    exact Retained.userStep (m := m.on (.beginCall a.vp)) hk hsd.placed.beginCall hpc hu
  · intro m a m' hsd hk _ hs
    exact hk.loopStep hsd.placed hs

theorem ioBlocked_step (hsd : Sound m) (htk : Ticketed m) (hk : Retained m) (hb : m.state t = .ioBlocked) (ht : m.Timely a.vp)
    (hs : m.step a = some m') :
    m'.state t = .ioBlocked ∧ m'.calls t = m.calls t ∧ m'.starts (m'.ticket t) = m.starts (m.ticket t) := by
  have hp := hsd.placed
  have hne : ∀ {i x}, x ∈ m.places i → i.expect ≠ .ioBlocked → t ≠ x := by
    intro i x hx hi e
    subst e
    exact hi ((hp.state hx).symm.trans hb)
  rcases Mn.step_cases hp ht hs with ⟨hpc, hu⟩ | hl
  · have hcalls : m'.calls t = m.calls t := by
      have he : m'.calls = (m.on (.beginCall a.vp)).calls := by cases hu <;> rfl
      rw [he]
      cases hc : m.current a.vp with
      | none => simp [hc]
      | some x => simp [hc, hne (Mn.mem_own hpc rfl hc) (by simp [Place.expect])]
    refine ⟨?_, hcalls, by cases hu <;> rfl⟩
    rcases Mn.user_state (m := m.on (.beginCall a.vp)) hpc hu t with he | ⟨i, hi, hx⟩
    · exact he.trans hb
    · have hst := hp.beginCall.state hi
      exact absurd (hst.symm.trans hb) hx
  · have haddr : m.allocated a.addr = false → t ≠ a.addr := by
      intro hn e
      rw [← e, hk t hb] at hn
      cases hn
    refine ⟨?_, ?_, ?_⟩
    · rcases Mn.loop_state hl t with he | ⟨i, hi, hx⟩ | ⟨-, hx, hn⟩
      · exact he.trans hb
      · exact absurd ((hp.state hi).symm.trans hb) hx
      · rw [hx] at haddr
        exact absurd rfl (haddr (hx ▸ hn))
    · cases hl with
      | @createFail ok _ ha =>
        cases ok with
        | true => rfl
        | false => simp [MnCore.allocTcb, haddr (ha rfl)]
      | createTcb _ ha => simp [MnCore.allocTcb, haddr ha]
      | _ => rfl
    · cases hl with
      | @createFail ok _ ha =>
        cases ok with
        | true => rfl
        | false => simp [MnCore.allocTcb, haddr (ha rfl)]
      | createTcb _ ha => simp [MnCore.allocTcb, haddr ha]
      | @switchIn x hpc =>
        have hx := hsd.switched hpc
        have hnt : m.ticket t ≠ m.ticket x := by
          intro he
          exact hne hx (by simp [Place.expect]) (htk.inj (hk t hb) (hp.alive hx) he)
        by_cases h0 : m.context x = 0 <;> simp [h0, hnt]
      | _ => rfl

/-! ## On the links -/

abbrev Continues (ok : MnCore → MnAct → Prop) : Mn MnLinks → Mn MnLinks → Prop :=
  Trans.Steps fun s s' => ∃ a, ok s.toMnCore a ∧ Mn.step s a = some s'

theorem Continues.after [∀ c a, Decidable (ok c a)] {as : List MnAct}
    (h : (Trans.exec (fun (s : Mn MnLinks) a => if ok s.toMnCore a then s.step a else none) s as).isSome = true) :
    Continues ok s (s.after as) := by
  induction as generalizing s with
  | nil => exact .refl
  | cons a as ih =>
    obtain ⟨s', hx⟩ := Option.isSome_iff_exists.mp h
    obtain ⟨s₁, h₁, h₂⟩ := Option.bind_eq_some_iff.mp hx
    simp only [Option.ite_none_right_eq_some] at h₁
    have he : s.after (a :: as) = s₁.after as := by
      have hp : Trans.exec (fun (s : Mn MnLinks) a => if decide (ok s.toMnCore a) = true then s.step a else none) s₁ as =
          some s' := by
        simpa using h₂
      simp [Mn.after, Trans.exec, h₁.2, Trans.exec_of_checked hp]
    rw [he]
    exact .head ⟨a, h₁⟩ (ih (Option.isSome_iff_exists.mpr ⟨s', h₂⟩))

/-- In a call that has put its thread to sleep, or in its `mn_yield`. -/
def Pc.dozes : Pc → Bool
  | .sleepTrace | .sleepPush | .ioTrace _ _ | .ioAdd _ _ | .yieldTest | .swapOut _ => true
  | _ => false

/-- `t` waits, no queue or virtual processor leads to its code, and `uthread_mn_run` has not returned. -/
structure Trapped (s : Mn MnLinks) (t : Ptr) : Prop where
  blocked : s.state t = .ioBlocked
  unqueued : t ∉ s.collection ∧ ∀ v, t ∉ (s.pc v).pend
  -- a virtual processor still on its stack is leaving it
  leaves : ∀ v, s.executes v = some t → (s.pc v).dozes = true
  running : ∀ v, s.pc v ≠ .returned

def Mn.sleepers (s : Mn MnLinks) : List Ptr := s.chain s.q.sleepListHead

theorem Refines.trapped (h : Refines s m) (hm : ListRun Mapped m) (hb : m.state t = .ioBlocked) : Trapped s t := by
  have hsd := ListRun.sound hm
  have hp := hsd.placed
  have hno : ∀ i, i.expect ≠ .ioBlocked → t ∉ m.places i := fun i hi ht => hi ((hp.state ht).symm.trans hb)
  constructor
  · rw [h.core]
    exact hb
  · rw [h.collection hp]
    constructor
    · intro ht
      obtain ⟨i, hi, hx⟩ := List.mem_flatMap.mp ht
      rw [mem_rooms] at hi
      apply hno i _ hx
      rcases hi with rfl | ⟨v, -, rfl | rfl | rfl | rfl | rfl⟩ <;> simp [Place.expect]
    · intro v ht
      rw [h.core] at ht
      exact hno (.hand .pend v) (by simp [Place.expect]) ht
  · intro v hv
    rw [h.core] at hv ⊢
    obtain ⟨hon, hc⟩ := executes_some hv
    have hx := ListRun.exiting (fun _ _ ho => ho) hm v t
    cases hown : (m.pc v).own with
    | some k =>
      have hk : (Place.hand k v).expect = .ioBlocked := by
        by_contra hne
        exact hno (.hand k v) hne (Mn.mem_own rfl hown hc)
      cases hpc : m.pc v <;> rw [hpc] at hown <;> cases hown <;> first | rfl | cases hk
    | none =>
      cases hpc : m.pc v with
      | yieldTest | swapOut => rfl
      | exitTrace =>
        rw [hx (.inl hpc) hc] at hb
        cases hb
      | exitSwitch =>
        rw [hx (.inr hpc) hc] at hb
        cases hb
      | _ => simp [hpc, Pc.own, Pc.onStack, Mn.midCall] at hown hon
  · intro v hv
    rw [h.core] at hv
    have hover := (ListRun.ending hm).left (v := v) (.inr (by rw [hv]; rfl))
    have hf := hover.finished (ListRun.retained hm t hb)
    rw [hb] at hf
    cases hf

theorem Refines.continues (h : Refines s m) (hm : ListRun Mapped m) (hb : m.state t = .ioBlocked) (hs : Continues Mapped s s') :
    Trapped s' t ∧ s'.calls t = s.calls t ∧ s'.starts (s'.ticket t) = s.starts (s.ticket t) := by
  have hx : ∃ m', ListRun Mapped m' ∧ Refines s' m' ∧ m'.state t = .ioBlocked ∧ m'.calls t = m.calls t ∧
      m'.starts (m'.ticket t) = m.starts (m.ticket t) := by
    induction hs with
    | refl => exact ⟨m, hm, h, hb, rfl, rfl⟩
    | tail _ hst ih =>
      obtain ⟨a, hok, hst⟩ := hst
      obtain ⟨m₁, hm₁, h₁, hb₁, hc₁, hs₁⟩ := ih
      rw [h₁.core] at hok
      have hsd := ListRun.sound hm₁
      have ht := (ListRun.current (fun _ _ ho => ho.1) hm₁).timely hok.1
      obtain ⟨m₂, hst₂, h₂⟩ := h₁.step hsd.placed ht hst
      obtain ⟨hb₂, hc₂, hs₂⟩ := ioBlocked_step hsd (ListRun.ticketed hm₁) (ListRun.retained hm₁) hb₁ ht hst₂
      exact ⟨m₂, .step hm₁ ⟨ht, hok⟩ hst₂, h₂, hb₂, hc₂.trans hc₁, hs₂.trans hs₁⟩
  obtain ⟨m', hm', h', hb', hc, hst⟩ := hx
  refine ⟨h'.trapped hm' hb', ?_, ?_⟩
  · rw [h'.core, h.core]
    exact hc
  · rw [h'.core, h.core]
    exact hst

theorem Refines.sleepers (hp : Placed m) (h : Refines s m) (ht : t ∈ s.sleepers) : m.state t = .ioBlocked := by
  have hb : s.brk = m.brk := by rw [h.core]
  have he : s.sleepers = m.q.q (.shared .sleep) := by
    apply walk_eq (h.q.shared.chain .sleep)
    rw [hb]
    exact hp.length_le
  rw [he] at ht
  exact hp.state (i := .queue (.shared .sleep)) ht

theorem MnRun.numVps_step (h : MnRun Mapped s) (hok : Mapped s.toMnCore a) (hs : s.step a = some s') : s'.numVps = s.numVps := by
  obtain ⟨m, m', hm, hr, ht, hs', hr'⟩ := MnRun.lift (fun _ _ ho => ho.1) h hok.1 hs
  rw [hr.core, hr'.core]
  rcases Mn.step_cases (ListRun.sound hm).placed ht hs' with ⟨-, hu⟩ | hl
  · exact (Mn.user_numVps hu).trans rfl
  · exact Mn.loop_numVps hl

theorem MnRun.solo_step (h : MnRun Saved s) (hn : s.numVps = 1) (hs : s.step a = some s') :
    Saved s.toMnCore a ∧ s'.numVps = 1 := by
  obtain ⟨m, hm, hr⟩ := MnRun.lists (fun _ _ ho => ho.1.1) h
  have hoff : ∀ {u}, u ≠ 0 → s.pc u = .off := by
    intro u hu
    rw [hr.core] at hn ⊢
    exact (ListRun.sound hm).booted.range (by rw [hn]; exact Nat.one_le_iff_ne_zero.mpr hu)
  have hv : a.vp = 0 := by
    by_contra hne
    simp [Mn.step, hoff hne] at hs
  have hok : Saved s.toMnCore a := by
    apply h.quiet
    intro u hu
    rw [hoff (hv ▸ hu)]
    rfl
  exact ⟨hok, (MnRun.numVps_step (h.mono fun _ _ ho => ho.1) hok.1 hs).trans hn⟩

/-- A step without a race; a race takes several virtual processors. -/
def Unraced (c : MnCore) (a : MnAct) : Prop := c.numVps = 1 ∨ Mapped c a

instance (c : MnCore) (a : MnAct) : Decidable (Unraced c a) := inferInstanceAs (Decidable (_ ∨ _))

theorem MnRun.unraced (h : MnRun Unraced s) : MnRun Mapped s ∧ (s.numVps = 1 → MnRun Saved s) := by
  induction h with
  | init h => exact ⟨.init h, fun _ => .init h⟩
  | @step s a s' _ hok hs ih =>
    obtain ⟨hm, hsv⟩ := ih
    by_cases hn : s.numVps = 1
    · obtain ⟨hsaved, -⟩ := MnRun.solo_step (hsv hn) hn hs
      exact ⟨.step hm hsaved.1 hs, fun _ => .step (hsv hn) hsaved hs⟩
    · have hmap := hok.resolve_left hn
      refine ⟨.step hm hmap hs, fun hn' => ?_⟩
      rw [hm.numVps_step hmap hs] at hn'
      exact absurd hn' hn

theorem Continues.unraced (h : MnRun Unraced s) (hs : Continues Unraced s s') : MnRun Unraced s' ∧ Continues Mapped s s' := by
  induction hs with
  | refl => exact ⟨h, .refl⟩
  | @tail s₁ s₂ _ hst ih =>
    obtain ⟨a, hok, hst⟩ := hst
    obtain ⟨hr, hc⟩ := ih
    refine ⟨.step hr hok hst, .tail hc ⟨a, ?_, hst⟩⟩
    rcases hok with hn | hmap
    · exact (MnRun.solo_step (hr.unraced.2 hn) hn hst).1.1
    · exact hmap

theorem Continues.solo (h : MnRun Unraced s) (hn : s.numVps = 1) (hs : Continues AnyStep s s') :
    Continues Unraced s s' ∧ MnRun Unraced s' ∧ s'.numVps = 1 := by
  induction hs with
  | refl => exact ⟨.refl, h, hn⟩
  | tail _ hst ih =>
    obtain ⟨a, -, hst⟩ := hst
    obtain ⟨hc, hr, hn⟩ := ih
    obtain ⟨-, hn'⟩ := MnRun.solo_step (hr.unraced.2 hn) hn hst
    exact ⟨.tail hc ⟨a, .inl hn, hst⟩, .step hr (.inl hn) hst, hn'⟩

/-- Whatever the deadline and the file descriptor, nothing wakes a thread that sleeps or waits for I/O. -/
theorem never_woken (h : MnRun Unraced s) (ht : t ∈ s.sleepers ∨ s.state t = .ioBlocked) (hs : Continues Unraced s s') :
    Trapped s' t ∧ s'.calls t = s.calls t ∧ s'.starts (s'.ticket t) = s.starts (s.ticket t) := by
  obtain ⟨m, hm, hr⟩ := MnRun.lists (fun _ _ ho => ho.1) h.unraced.1
  apply hr.continues hm _ (Continues.unraced h hs).2
  rcases ht with ht | ht
  · exact hr.sleepers (ListRun.sound hm).placed ht
  · rwa [hr.core] at ht

/-- One virtual processor, whose only thread has called `uthread_sleep(0)` at time 7. -/
def dozing : Mn MnLinks :=
  (initMn 1 (fun _ => 0) ⟨none, 0, false⟩).after (launch 1 ++ List.replicate 5 { vp := 0 } ++
    { vp := 0, call := .sleep 0, now := 7 } :: List.replicate 2 { vp := 0 })

theorem dozing_reached : MnRun Unraced dozing := MnRun.after (.init (initMn_start (by decide) _ _)) (by decide +kernel)

theorem never_woken_dozing :
    let s := dozing.after (List.replicate 20 { vp := 0, now := 1000000 })
    Trapped s 0 ∧ s.calls 0 = dozing.calls 0 ∧ s.starts (s.ticket 0) = dozing.starts (dozing.ticket 0) :=
  never_woken dozing_reached (.inl (by decide +kernel)) (Continues.after (by decide +kernel))

/-- The deadline has passed, and no continuation moves the thread into a queue or into a virtual processor's hands. -/
theorem overdue_not_woken : MnRun AnyStep dozing ∧ 0 ∈ dozing.sleepers ∧ dozing.sleepUntilNs 0 ≤ 7 ∧
    ¬ ∃ s', Continues AnyStep dozing s' ∧ (0 ∈ s'.collection ∨ ∃ v, 0 ∈ (s'.pc v).pend) := by
  refine ⟨dozing_reached.mono fun _ _ _ => trivial, by decide +kernel, by decide +kernel, ?_⟩
  intro ⟨s', hs, hw⟩
  obtain ⟨m, hm, hr⟩ := MnRun.lists (fun _ _ ho => ho.1) dozing_reached.unraced.1
  have hb := hr.sleepers (ListRun.sound hm).placed (t := 0) (by decide +kernel)
  have hc := (Continues.solo dozing_reached (by decide +kernel) hs).1
  obtain ⟨⟨-, ⟨hcol, hp⟩, -, -⟩, -⟩ := hr.continues hm hb (Continues.unraced dozing_reached hc).2
  rcases hw with hw | ⟨v, hw⟩
  · exact hcol hw
  · exact hp v hw

/-- Thread 0 sleeps. Thread 1 waits for a semaphore on virtual processor 0, and before the test in `mn_yield`
thread 2 posts on virtual processor 1, which exits and dispatches thread 1. -/
def wokenInYield : List MnAct :=
  launch 3 ++ List.replicate 6 { vp := 0 } ++ { vp := 0, call := .sleep 0 } :: List.replicate 10 { vp := 0 } ++
    List.replicate 6 { vp := 1 } ++ { vp := 0, call := .semWait (.user 0) } :: List.replicate 4 { vp := 0 } ++
    { vp := 1, call := .semPost (.user 0) } :: List.replicate 10 { vp := 1 } ++ { vp := 1, call := .exit } ::
    List.replicate 8 { vp := 1 }

/-- `mn_yield` finds thread 1 RUNNING and publishes it a second time. It falls asleep in front of thread 0, while the
local queue of virtual processor 0 still begins with it. -/
def asleepInQueue : List MnAct :=
  List.replicate 5 { vp := 0 } ++ { vp := 1, call := .sleep 0 } :: List.replicate 2 { vp := 1 } ++
    List.replicate 5 { vp := 0 } ++ { vp := 0, call := .exit } :: List.replicate 7 { vp := 0 }

/-- A race links a thread that sleeps and is in no queue into one. -/
theorem woken_by_race :
    let s := (initMn 2 (fun _ => 0) ⟨none, 0, false⟩).after wokenInYield
    MnRun AnyStep s ∧ 0 ∈ s.sleepers ∧ 0 ∉ s.collection ∧ (s.pc 0).pend ++ (s.pc 1).pend = [] ∧
      Continues AnyStep s (s.after asleepInQueue) ∧ (s.after asleepInQueue).executes 0 = some 0 :=
  ⟨MnRun.after (.init (initMn_start (by decide) _ _)) (by decide +kernel), by decide +kernel, by decide +kernel,
    by decide +kernel, Continues.after (by decide +kernel), by decide +kernel⟩

end Uthread
