import Uthread.Inv

/-!
# The transitions keep the scheduling invariant

A thread becomes READY (`Woken`), the running thread stops being RUNNING
(`Parked`), or threads appear, are dispatched and disappear.
-/

namespace Uthread

variable {a b : Abs} {t : Ptr}

/-! ## Becoming READY -/

/-- `t` leaves the list it may be on and is appended to the ready queue. -/
structure Woken (t : Ptr) (a b : Abs) : Prop where
  q : ∃ q' : Layout, q'.Ok ∧ (∀ i u, u ∈ q' i ↔ u ∈ a.q i ∧ u ≠ t) ∧ b.q = q'.push .ready t
  state : b.tcb.state = Function.update a.tcb.state t .ready := by rfl
  interest : ∀ {fd u dir}, b.interest fd = some (u, dir) → a.interest fd = some (u, dir) ∧ u ≠ t
  glob : b.glob = a.glob := by rfl
  cur : b.currentThread = a.currentThread := by rfl
  brk : b.brk = a.brk := by rfl
  context : b.tcb.context = a.tcb.context := by rfl
  run : b.run = a.run := by rfl
  ioFd : b.tcb.ioFd = a.tcb.ioFd := by rfl
  mutexes : b.mutexLocked = a.mutexLocked := by rfl
  sems : b.semCount = a.semCount := by rfl
  chan : b.chan = a.chan := by rfl

namespace Woken

theorem framesOf (h : Woken t a b) (u : Ptr) : b.framesOf u = a.framesOf u := by
  unfold Core.framesOf; rw [h.cur, h.context, h.run]

theorem mem (h : Woken t a b) {i : QId} {u : Ptr} : u ∈ b.q i ↔ (u ∈ a.q i ∧ u ≠ t) ∨ (i = .ready ∧ u = t) := by
  obtain ⟨q', -, hm, hb⟩ := h.q
  rw [hb, Layout.mem_push, hm]

theorem state_ne (h : Woken t a b) {u : Ptr} (hu : u ≠ t) : b.tcb.state u = a.tcb.state u := by
  rw [h.state, Function.update_of_ne hu]

theorem state_self (h : Woken t a b) : b.tcb.state t = .ready := by rw [h.state, Function.update_self]

theorem inv (hw : Woken t a b) (h : Inv a) (ht : t ∈ a.glob) (hf : a.tcb.state t ≠ .finished) : Inv b where
  ok := by
    obtain ⟨q', hok, hm, hb⟩ := hw.q
    rw [hb]
    exact hok.push fun i hi => ((hm i t).mp hi).2 rfl
  state {i u} hu := by
    rcases hw.mem.mp hu with ⟨hu, hne⟩ | ⟨rfl, rfl⟩
    · rw [hw.state_ne hne]; exact h.state hu
    · exact hw.state_self
  live {i u} hu := by
    rw [hw.glob]
    rcases hw.mem.mp hu with ⟨hu, -⟩ | ⟨-, rfl⟩
    · exact h.live hu
    · exact ht
  nodup := by rw [hw.glob]; exact h.nodup
  lt := by rw [hw.glob, hw.brk]; exact h.lt
  cur := by rw [hw.glob, hw.cur]; exact h.cur
  ready u hu hr := by
    rw [hw.glob] at hu
    by_cases hne : u = t
    · exact hw.mem.mpr (.inr ⟨rfl, hne⟩)
    · rw [hw.state_ne hne] at hr
      exact hw.mem.mpr (.inl ⟨h.ready u hu hr, hne⟩)
  blocked u hu hb := by
    rw [hw.glob] at hu
    have hne : u ≠ t := by rintro rfl; rw [hw.state_self] at hb; cases hb
    rw [hw.state_ne hne] at hb
    obtain ⟨w, hc, hm⟩ := h.blocked u hu hb
    exact ⟨w, by rw [hw.framesOf]; exact hc, hw.mem.mpr (.inl ⟨hm, hne⟩)⟩
  io u hu hb := by
    rw [hw.glob] at hu
    have hne : u ≠ t := by rintro rfl; rw [hw.state_self] at hb; cases hb
    rw [hw.state_ne hne] at hb
    rw [hw.framesOf]
    refine (h.io u hu hb).imp (And.imp_right fun hm => hw.mem.mpr (.inl ⟨hm, hne⟩)) (And.imp_right fun hm hm' => ?_)
    rcases hw.mem.mp hm' with ⟨hm', -⟩ | ⟨hi, -⟩
    · exact hm hm'
    · cases hi
  reg {fd u dir} hr := by
    obtain ⟨hr, hne⟩ := hw.interest hr
    obtain ⟨h₁, h₂, h₃, h₄⟩ := h.reg hr
    refine ⟨by rw [hw.glob]; exact h₁, by rw [hw.state_ne hne]; exact h₂, by rw [hw.ioFd]; exact h₃, fun hm => ?_⟩
    rcases hw.mem.mp hm with ⟨hm, -⟩ | ⟨hi, -⟩
    · exact h₄ hm
    · cases hi
  exits u hu he := by
    rw [hw.glob] at hu
    rw [hw.framesOf] at he
    have := h.exits u hu he
    rw [hw.state_ne (by rintro rfl; exact hf this)]; exact this
  prevs u hu := by
    rw [hw.glob] at hu
    rw [hw.framesOf]; exact h.prevs u hu
  seated u hu := by
    rw [hw.glob] at hu
    rw [hw.framesOf]; exact h.seated u hu
  own := ⟨by rw [hw.run, hw.cur]; exact h.own.run, by rw [hw.glob, hw.context]; exact h.own.saved,
    by rw [hw.glob, hw.cur, hw.context]; exact h.own.suspended⟩
  mutexes m hm := by
    rw [hw.mutexes] at hm
    refine List.eq_nil_iff_forall_not_mem.mpr fun u hu => ?_
    rcases hw.mem.mp hu with ⟨hu, -⟩ | ⟨hi, -⟩
    · rw [h.mutexes m hm] at hu; cases hu
    · cases hi
  sems sm hs := by
    rw [hw.sems] at hs
    refine List.eq_nil_iff_forall_not_mem.mpr fun u hu => ?_
    rcases hw.mem.mp hu with ⟨hu, -⟩ | ⟨hi, -⟩
    · rw [h.sems sm hs] at hu; cases hu
    · cases hi
  chans id := by
    unfold ChanReady
    rw [hw.mutexes, hw.sems, hw.chan]; exact h.chans id
  chanFrames u hu := by
    rw [hw.glob] at hu
    rw [hw.framesOf, hw.chan]; exact h.chanFrames u hu

end Woken

theorem drop_woken (h : Inv a) {i : QId} (ht : t ∈ a.q i) :
    ∃ q' : Layout, q'.Ok ∧ (∀ j u, u ∈ q' j ↔ u ∈ a.q j ∧ u ≠ t) ∧ (a.q.drop i t).push .ready t = q'.push .ready t := by
  refine ⟨a.q.drop i t, h.ok.drop, fun j u => ?_, rfl⟩
  rw [h.ok.mem_drop]
  constructor
  · rintro ⟨hu, hne⟩; exact ⟨hu, fun e => hne ⟨h.ok.disj hu (e ▸ ht), e⟩⟩
  · rintro ⟨hu, hne⟩; exact ⟨hu, fun e => hne e.2⟩

theorem push_woken (h : Inv a) (ht : ∀ i, t ∉ a.q i) :
    ∃ q' : Layout, q'.Ok ∧ (∀ j u, u ∈ q' j ↔ u ∈ a.q j ∧ u ≠ t) ∧ a.q.push .ready t = q'.push .ready t :=
  ⟨a.q, h.ok, fun j _ => ⟨fun hu => ⟨hu, fun e => ht j (e ▸ hu)⟩, And.left⟩, rfl⟩

theorem Inv.preempt_woken (h : Inv a) (hr : a.tcb.state a.currentThread = .running) :
    Woken a.currentThread a a.preempt :=
  ⟨push_woken h (h.notMem_of_running hr), rfl, fun hi => ⟨hi, fun e => h.not_registered (by rw [e, hr]; simp) hi⟩,
    rfl, rfl, rfl, rfl, rfl, rfl, rfl, rfl, rfl⟩

theorem Inv.ioWake_woken (h : Inv a) {fd : Fd} {dir : IoDir} (hr : a.interest fd = some (t, dir)) :
    Woken t a (a.ioWake t) := by
  obtain ⟨ht, hst, hfd, hsl⟩ := h.reg hr
  have hno : ∀ i, t ∉ a.q i := by
    intro i hm
    have hs := h.state hm
    rw [hst] at hs
    cases i with
    | sleep => exact hsl hm
    | ready => cases hs
    | wait w => cases hs
  refine ⟨push_woken h hno, rfl, ?_, rfl, rfl, rfl, rfl, rfl, rfl, rfl, rfl, rfl⟩
  intro fd' u dir' hi
  -- the registration of `t` is the one that was deleted
  have hne : fd' ≠ a.tcb.ioFd t := by
    rintro rfl
    have : (a.ioWake t).interest (a.tcb.ioFd t) = none := Function.update_self ..
    rw [this] at hi; cases hi
  have hi' : a.interest fd' = some (u, dir') := by
    rw [← hi]; exact (Function.update_of_ne hne ..).symm
  refine ⟨hi', fun e => hne ?_⟩
  rw [← (h.reg hi').2.2.1, e]

theorem Inv.sleepWake_woken (h : Inv a) (ht : t ∈ a.q .sleep) : Woken t a (a.sleepWake t) :=
  ⟨drop_woken h ht, rfl, fun hi => ⟨hi, fun e => (h.reg hi).2.2.2 (e ▸ ht)⟩, rfl, rfl, rfl, rfl, rfl, rfl, rfl, rfl, rfl⟩

theorem Inv.handoff_woken (h : Inv a) {w : WaitObj} (ht : t ∈ a.q (.wait w)) : Woken t a (a.handoff w t) :=
  ⟨drop_woken h ht, rfl, fun hi => ⟨hi, fun e => h.not_registered (by rw [e, h.state ht]; simp [QId.state]) hi⟩,
    rfl, rfl, rfl, rfl, rfl, rfl, rfl, rfl, rfl⟩

theorem Inv.preempt (h : Inv a) (hr : a.tcb.state a.currentThread = .running) : Inv a.preempt :=
  (h.preempt_woken hr).inv h h.cur (by rw [hr]; simp)

theorem Inv.ioWake (h : Inv a) {fd : Fd} {dir : IoDir} (hr : a.interest fd = some (t, dir)) : Inv (a.ioWake t) :=
  (h.ioWake_woken hr).inv h (h.reg hr).1 (by rw [(h.reg hr).2.1]; simp)

theorem Inv.sleepWake (h : Inv a) (ht : t ∈ a.q .sleep) : Inv (a.sleepWake t) :=
  (h.sleepWake_woken ht).inv h (h.live ht) (by rw [h.state ht]; simp [QId.state])

theorem Inv.handoff (h : Inv a) {w : WaitObj} (ht : t ∈ a.q (.wait w)) : Inv (a.handoff w t) :=
  (h.handoff_woken ht).inv h (h.live ht) (by rw [h.state ht]; simp [QId.state])

/-! ## Blocking -/

/-- The running thread leaves state RUNNING for `st` inside the blocking call `cl`. -/
structure Parked (st : TState) (cl : Call) (a b : Abs) : Prop where
  ok : b.q.Ok
  mem : ∀ i u, u ≠ a.currentThread → (u ∈ b.q i ↔ u ∈ a.q i)
  place : ∀ i, a.currentThread ∈ b.q i → i.state = st
  stuck : st = .blocked ∧ (∃ w, cl = .wait w ∧ a.currentThread ∈ b.q (.wait w)) ∨
    st = .ioBlocked ∧ (∃ d, cl = .sleep d) ∧ a.currentThread ∈ b.q .sleep ∨
    st = .ioBlocked ∧ (∃ fd dir, cl = .io fd dir) ∧ a.currentThread ∉ b.q .sleep
  interest : ∀ {fd u dir}, b.interest fd = some (u, dir) → a.interest fd = some (u, dir) ∨
    u = a.currentThread ∧ st = .ioBlocked ∧ b.tcb.ioFd u = fd ∧ a.currentThread ∉ b.q .sleep
  call : callOf b.run.frames = some cl
  frames : ∀ f ∈ b.run.frames, f ∈ a.run.frames ∨ f.isExit = false ∧ f.prev? = none ∧ f.chan? = none
  seated : Seated a.run.frames → Seated b.run.frames
  mutexes : ∀ m, b.mutexLocked m = none → b.q (.wait (.mutex m)) = []
  sems : ∀ sm, b.semCount sm = none → b.q (.wait (.sem sm)) = []
  state : b.tcb.state = Function.update a.tcb.state a.currentThread st := by rfl
  ioFd : ∀ u, u ≠ a.currentThread → b.tcb.ioFd u = a.tcb.ioFd u := by intros; rfl
  glob : b.glob = a.glob := by rfl
  cur : b.currentThread = a.currentThread := by rfl
  brk : b.brk = a.brk := by rfl
  context : b.tcb.context = a.tcb.context := by rfl
  onStack : b.run.onStack = a.run.onStack := by rfl
  chan : b.chan = a.chan := by rfl
  chans : ∀ id, ChanReady a.toCore id → ChanReady b.toCore id := by exact fun _ h => h

namespace Parked

variable {st : TState} {cl : Call}

theorem framesOf_ne (hp : Parked st cl a b) {u : Ptr} (hu : u ≠ a.currentThread) : b.framesOf u = a.framesOf u := by
  unfold Core.framesOf
  rw [hp.cur, hp.context, if_neg hu, if_neg hu]

theorem framesOf_self (hp : Parked st cl a b) : b.framesOf a.currentThread = b.run.frames := by
  rw [← hp.cur]; exact framesOf_cur _

theorem state_ne (hp : Parked st cl a b) {u : Ptr} (hu : u ≠ a.currentThread) : b.tcb.state u = a.tcb.state u := by
  rw [hp.state, Function.update_of_ne hu]

theorem state_self (hp : Parked st cl a b) : b.tcb.state a.currentThread = st := by
  rw [hp.state, Function.update_self]

theorem inv (hp : Parked st cl a b) (h : Inv a) (hr : a.tcb.state a.currentThread = .running) : Inv b where
  ok := hp.ok
  state {i u} hu := by
    by_cases hc : u = a.currentThread
    · subst hc; rw [hp.state_self, hp.place i hu]
    · rw [hp.state_ne hc]; exact h.state ((hp.mem i u hc).mp hu)
  live {i u} hu := by
    rw [hp.glob]
    by_cases hc : u = a.currentThread
    · subst hc; exact h.cur
    · exact h.live ((hp.mem i u hc).mp hu)
  nodup := by rw [hp.glob]; exact h.nodup
  lt := by rw [hp.glob, hp.brk]; exact h.lt
  cur := by rw [hp.glob, hp.cur]; exact h.cur
  ready u hu hs := by
    rw [hp.glob] at hu
    by_cases hc : u = a.currentThread
    · subst hc
      rw [hp.state_self] at hs
      rcases hp.stuck with ⟨e, -⟩ | ⟨e, -⟩ | ⟨e, -⟩ <;> rw [e] at hs <;> cases hs
    · rw [hp.state_ne hc] at hs
      exact (hp.mem _ u hc).mpr (h.ready u hu hs)
  blocked u hu hs := by
    rw [hp.glob] at hu
    by_cases hc : u = a.currentThread
    · subst hc
      rw [hp.state_self] at hs
      rw [hp.framesOf_self, hp.call]
      rcases hp.stuck with ⟨-, w, rfl, hw⟩ | ⟨e, -⟩ | ⟨e, -⟩
      · exact ⟨w, rfl, hw⟩
      · rw [e] at hs; cases hs
      · rw [e] at hs; cases hs
    · rw [hp.state_ne hc] at hs
      obtain ⟨w, hw, hm⟩ := h.blocked u hu hs
      exact ⟨w, by rw [hp.framesOf_ne hc]; exact hw, (hp.mem _ u hc).mpr hm⟩
  io u hu hs := by
    rw [hp.glob] at hu
    by_cases hc : u = a.currentThread
    · subst hc
      rw [hp.state_self] at hs
      rw [hp.framesOf_self, hp.call]
      rcases hp.stuck with ⟨e, -⟩ | ⟨-, ⟨d, rfl⟩, hm⟩ | ⟨-, ⟨fd, dir, rfl⟩, hm⟩
      · rw [e] at hs; cases hs
      · exact .inl ⟨⟨d, rfl⟩, hm⟩
      · exact .inr ⟨⟨fd, dir, rfl⟩, hm⟩
    · rw [hp.state_ne hc] at hs
      rw [hp.framesOf_ne hc, hp.mem _ u hc]
      exact h.io u hu hs
  reg {fd u dir} hi := by
    rcases hp.interest hi with hi | ⟨rfl, hst, hfd, hm⟩
    · obtain ⟨h₁, h₂, h₃, h₄⟩ := h.reg hi
      have hc : u ≠ a.currentThread := by rintro rfl; rw [hr] at h₂; cases h₂
      rw [hp.glob, hp.state_ne hc, hp.ioFd u hc, hp.mem _ u hc]
      exact ⟨h₁, h₂, h₃, h₄⟩
    · rw [hp.glob, hp.state_self]
      exact ⟨h.cur, hst, hfd, hm⟩
  exits u hu he := by
    rw [hp.glob] at hu
    by_cases hc : u = a.currentThread
    · subst hc
      rw [hp.framesOf_self] at he
      obtain ⟨f, hf, hx⟩ := he
      rcases hp.frames f hf with hf | ⟨hn, -⟩
      · have := h.exits _ hu ⟨f, by rw [framesOf_cur]; exact hf, hx⟩
        rw [hr] at this; cases this
      · rw [hx] at hn; cases hn
    · rw [hp.framesOf_ne hc] at he
      rw [hp.state_ne hc]; exact h.exits u hu he
  prevs u hu f hf := by
    rw [hp.glob] at hu
    by_cases hc : u = a.currentThread
    · subst hc
      rw [hp.framesOf_self] at hf
      rcases hp.frames f hf with hf | ⟨-, hn, -⟩
      · exact h.prevs _ hu f (by rw [framesOf_cur]; exact hf)
      · exact .inl hn
    · rw [hp.framesOf_ne hc] at hf; exact h.prevs u hu f hf
  seated u hu := by
    rw [hp.glob] at hu
    by_cases hc : u = a.currentThread
    · subst hc
      rw [hp.framesOf_self]
      exact hp.seated (by have := h.seated _ hu; rwa [framesOf_cur] at this)
    · rw [hp.framesOf_ne hc]; exact h.seated u hu
  own := ⟨by rw [hp.onStack, hp.cur]; exact h.own.run, by rw [hp.glob, hp.context]; exact h.own.saved,
    by rw [hp.glob, hp.cur, hp.context]; exact h.own.suspended⟩
  mutexes := hp.mutexes
  sems := hp.sems
  chans id := hp.chans id (h.chans id)
  chanFrames u hu f hf id hid := by
    rw [hp.glob] at hu
    rw [hp.chan]
    by_cases hc : u = a.currentThread
    · subst hc
      rw [hp.framesOf_self] at hf
      rcases hp.frames f hf with hf | ⟨-, -, hn⟩
      · exact h.chanFrames _ hu f (by rw [framesOf_cur]; exact hf) id hid
      · rw [hid] at hn; cases hn
    · rw [hp.framesOf_ne hc] at hf; exact h.chanFrames u hu f hf id hid

end Parked

theorem mem_push_ne {q : Layout} {i j : QId} {u : Ptr} (hu : u ≠ t) : u ∈ (q.push i t) j ↔ u ∈ q j := by
  rw [Layout.mem_push]
  exact or_iff_left fun h => hu h.2

theorem mem_pushFront_ne {q : Layout} {i j : QId} {u : Ptr} (hu : u ≠ t) : u ∈ (q.pushFront i t) j ↔ u ∈ q j := by
  rw [Layout.mem_pushFront]
  exact or_iff_left fun h => hu h.2

theorem Inv.block_parked (h : Inv a) (hr : a.tcb.state a.currentThread = .running) {w : WaitObj}
    (hm : ∀ m, w = .mutex m → a.mutexLocked m ≠ none) (hs : ∀ sm, w = .sem sm → a.semCount sm ≠ none)
    (hseat : Seated (.waiting w :: a.run.frames)) : Parked .blocked (.wait w) a (a.block w) := by
  have hno := h.notMem_of_running hr
  have hne : ∀ v, v ≠ w → (a.q.push (.wait w) a.currentThread) (.wait v) = a.q (.wait v) := fun v hv =>
    Layout.push_of_ne (by simpa using hv)
  refine
    { ok := h.ok.push hno
      mem := fun i u hu => mem_push_ne hu
      place := fun i hi => ?_
      stuck := .inl ⟨rfl, w, rfl, Layout.mem_push.mpr (.inr ⟨rfl, rfl⟩)⟩
      interest := .inl
      call := rfl
      frames := fun f hf => ?_
      seated := fun _ => hseat.push (by rintro _ ⟨⟩; rfl) rfl
      mutexes := fun m hm' => ?_
      sems := fun sm hs' => ?_
      state := rfl, ioFd := fun _ _ => rfl, glob := rfl, cur := rfl, brk := rfl, context := rfl, onStack := rfl, chan := rfl
      chans := fun _ h => h }
  · rcases Layout.mem_push.mp hi with hi | ⟨rfl, -⟩
    · exact absurd hi (hno i)
    · rfl
  · rcases List.mem_cons.mp hf with rfl | hf
    · exact .inr ⟨rfl, rfl, rfl⟩
    · rcases List.mem_cons.mp hf with rfl | hf
      · exact .inr ⟨rfl, rfl, rfl⟩
      · exact .inl hf
  · exact (hne _ fun e => hm m e.symm hm').trans (h.mutexes m hm')
  · exact (hne _ fun e => hs sm e.symm hs').trans (h.sems sm hs')

theorem Inv.sleep_parked (h : Inv a) (hr : a.tcb.state a.currentThread = .running) (ms : Nat) {fs : List Frame}
    (hfs : a.run.frames = .user :: fs) :
    Parked .ioBlocked (.sleep ((a.getTimeNs + (ms % 2 ^ 32) * 1000000) % 2 ^ 64)) a (a.sleep ms) := by
  have hno := h.notMem_of_running hr
  have hne : ∀ w, (a.q.pushFront .sleep a.currentThread) (.wait w) = a.q (.wait w) := fun w =>
    Layout.pushFront_of_ne (by simp)
  have hseat : Seated a.run.frames → ∀ d, Seated (.sleeping d :: a.run.frames) := by
    rw [hfs]; exact fun hs _ => hs.call (by simp [Frame.level])
  have hin : a.currentThread ∈ (a.q.pushFront .sleep a.currentThread) .sleep := Layout.mem_pushFront.mpr (.inr ⟨rfl, rfl⟩)
  refine
    { ok := h.ok.pushFront hno
      mem := fun i u hu => mem_pushFront_ne hu
      place := fun i hi => ?_
      stuck := .inr (.inl ⟨rfl, ⟨_, rfl⟩, hin⟩)
      interest := .inl
      call := rfl
      frames := fun f hf => ?_
      seated := fun hs => (hseat hs _).push (by rintro _ ⟨⟩; rfl) rfl
      mutexes := fun m hm => (hne _).trans (h.mutexes m hm)
      sems := fun sm hs => (hne _).trans (h.sems sm hs)
      state := rfl, ioFd := fun _ _ => rfl, glob := rfl, cur := rfl, brk := rfl, context := rfl, onStack := rfl, chan := rfl
      chans := fun _ h => h }
  · rcases Layout.mem_pushFront.mp hi with hi | ⟨rfl, -⟩
    · exact absurd hi (hno i)
    · rfl
  · rcases List.mem_cons.mp hf with rfl | hf
    · exact .inr ⟨rfl, rfl, rfl⟩
    · rcases List.mem_cons.mp hf with rfl | hf
      · exact .inr ⟨rfl, rfl, rfl⟩
      · exact .inl hf

theorem Inv.ioBlock_parked (h : Inv a) (env : Env) (hr : a.tcb.state a.currentThread = .running) {fd : Fd}
    {dir : IoDir} {fs : List Frame} (hfs : a.run.frames = .ioBlock fd dir :: fs) :
    Parked .ioBlocked (.io fd dir) a (a.ioBlock env fd dir fs) := by
  have hno := h.notMem_of_running hr
  refine
    { ok := h.ok
      mem := fun i u _ => Iff.rfl
      place := fun i hi => absurd hi (hno i)
      stuck := .inr (.inr ⟨rfl, ⟨fd, dir, rfl⟩, hno .sleep⟩)
      interest := fun {fd' u dir'} hi => ?_
      call := rfl
      frames := fun f hf => ?_
      seated := fun hs => Seated.push (by rw [hfs] at hs; exact hs.retop rfl) (by rintro _ ⟨⟩; rfl) rfl
      mutexes := h.mutexes
      sems := h.sems
      ioFd := fun u hu => Function.update_of_ne hu ..
      state := rfl, glob := rfl, cur := rfl, brk := rfl, context := rfl, onStack := rfl, chan := rfl, chans := fun _ h => h }
  · change (if a.ctlAddOk env fd then Function.update a.interest fd (some (a.currentThread, dir)) else a.interest) fd' = _ at hi
    split at hi
    · by_cases hfd : fd' = fd
      · subst hfd
        rw [Function.update_self] at hi
        obtain ⟨rfl, rfl⟩ := Prod.mk.inj (Option.some.inj hi)
        exact .inr ⟨rfl, rfl, Function.update_self .., hno .sleep⟩
      · rw [Function.update_of_ne hfd] at hi; exact .inl hi
    · exact .inl hi
  · rw [hfs]
    rcases List.mem_cons.mp hf with rfl | hf
    · exact .inr ⟨rfl, rfl, rfl⟩
    · rcases List.mem_cons.mp hf with rfl | hf
      · exact .inr ⟨rfl, rfl, rfl⟩
      · exact .inl (List.mem_cons_of_mem _ hf)

end Uthread
