import Uthread.Exit
import Uthread.Idle

/-!
# Waiting for I/O

A thread in `uthread_read` or `uthread_write` is registered for its descriptor
as long as no registration fails, and whoever is registered waits.
-/

namespace Uthread

open Linked

variable {a b : Abs} {s : Sys} {t u : Ptr} {fd : Fd} {dir : IoDir} {fs : List Frame} {env : Env}

/-! ## Registrations -/

def Registered (a : Abs) : Prop :=
  ∀ t ∈ a.glob, a.tcb.state t = .ioBlocked → ∀ fd dir, callOf (a.framesOf t) = some (.io fd dir) →
    a.interest fd = some (t, dir)

/-- A thread blocks in `uthread_read`/`_write` and `EPOLL_CTL_ADD` fails. -/
def Event.unregistered : Event → Bool
  | .ioBlock _ _ _ registered => !registered
  | _ => false

theorem Registered.of_local (h : Registered a) (hl : Local a b) : Registered b := by
  intro t ht hst fd dir hc
  rw [hl.glob] at ht
  rw [hl.state] at hst
  rw [hl.callOf_eq (by simp [hst]) (by simp [hst])] at hc
  rw [hl.interest]
  exact h t ht hst fd dir hc

theorem Registered.of_fewer (h : Registered a)
    (hw : ∀ t ∈ b.glob, b.tcb.state t = .ioBlocked → t ∈ a.glob ∧ a.tcb.state t = .ioBlocked ∧ b.framesOf t = a.framesOf t)
    (hi : ∀ fd t dir, b.tcb.state t = .ioBlocked → a.interest fd = some (t, dir) → b.interest fd = some (t, dir)) :
    Registered b := by
  intro t ht hst fd dir hc
  obtain ⟨hg, hsa, hfr⟩ := hw t ht hst
  rw [hfr] at hc
  exact hi fd t dir hst (h t hg hsa fd dir hc)

theorem Registered.of_update {st : TState} (h : Registered a) (hst : st ≠ .ioBlocked) (hglob : b.glob = a.glob)
    (hstate : b.tcb.state = Function.update a.tcb.state u st) (hfr : ∀ t, t ≠ u → b.framesOf t = a.framesOf t)
    (hi : ∀ fd t dir, t ≠ u → a.interest fd = some (t, dir) → b.interest fd = some (t, dir)) : Registered b := by
  have hne : ∀ t, b.tcb.state t = .ioBlocked → t ≠ u := by
    intro t ht e
    rw [hstate, e, Function.update_self] at ht
    exact hst ht
  refine h.of_fewer (fun t ht hs => ?_) fun fd t dir hs => hi fd t dir (hne t hs)
  have htu := hne t hs
  rw [hstate, Function.update_of_ne htu] at hs
  rw [hglob] at ht
  exact ⟨ht, hs, hfr t htu⟩

theorem Registered.ioWake (hi : Inv a) (h : Registered a) (hr : a.interest fd = some (t, dir)) : Registered (a.ioWake t) := by
  refine h.of_update (u := t) (by simp) rfl rfl (fun _ _ => rfl) fun fd' v dir' hv hi' => ?_
  change Function.update a.interest (a.tcb.ioFd t) none fd' = _
  rw [Function.update_of_ne]
  · exact hi'
  · intro e
    have hfd : a.interest fd' = some (t, dir) := by
      rw [e, (hi.reg hr).2.2.1]
      exact hr
    rw [hfd] at hi'
    cases hi'
    exact hv rfl

theorem Registered.ioBlock (hi : Inv a) (h : Registered a) (hr : a.tcb.state a.currentThread = .running)
    (hf : a.run.frames = .ioBlock fd dir :: fs) (hok : ∀ e ∈ (a.ioBlock env fd dir fs).log, e.unregistered = false) :
    Registered (a.ioBlock env fd dir fs) := by
  have hp := hi.ioBlock_parked env hr hf
  have hadd : a.ctlAddOk env fd = true := by
    have : (!a.ctlAddOk env fd) = false := hok _ List.mem_cons_self
    simpa using this
  have hint : (a.ioBlock env fd dir fs).interest = Function.update a.interest fd (some (a.currentThread, dir)) := by
    change (if a.ctlAddOk env fd then Function.update a.interest fd (some (a.currentThread, dir)) else a.interest) = _
    rw [if_pos hadd]
  intro t ht hst fd' dir' hc
  rw [hint]
  by_cases htc : t = a.currentThread
  · rw [htc, hp.framesOf_self, hp.call] at hc
    cases hc
    rw [Function.update_self, htc]
  · rw [hp.framesOf_ne htc] at hc
    rw [hp.state_ne htc] at hst
    have hint' := h t ht hst fd' dir' hc
    rw [Function.update_of_ne]
    · exact hint'
    · -- `fd` was free
      rintro rfl
      simp [Core.ctlAddOk, hint'] at hadd

theorem Prim.registered (hi : Inv a) (h : Registered a) (hp : Prim a b) (hok : ∀ e ∈ b.log, e.unregistered = false) : Registered b := by
  cases hp with
  | quiet hq => exact h.of_local hq.local
  | tick hc => exact h.of_local { stack := .tick hc }
  | leave hr hf | sleepRet hr hf | ioRet hr hf | createRet hr hf => exact h.of_local { stack := by rw [hf]; exact .pop hr }
  | traceOn | avail | errno => exact h.of_local { stack := .refl }
  | move hm hc => exact h.of_local { stack := hm.stack hc }
  | reap => exact h.of_fewer (fun t ht hs => ⟨List.mem_of_mem_erase ht, hs, rfl⟩) fun _ _ _ _ => id
  | ioWake hr => exact h.ioWake hi hr
  | sleepWake | preempt | finish => exact h.of_update (by simp) rfl rfl (fun _ _ => rfl) fun _ _ _ _ => id
  | switch hp hf =>
    exact h.of_update (by simp) rfl rfl (fun t _ => framesOf_switch _ t) fun _ _ _ _ => id
  | create =>
    refine h.of_fewer (fun t ht hs => ?_) fun _ _ _ _ => id
    rcases List.mem_cons.mp ht with rfl | ht
    · rw [create_state_self] at hs
      cases hs
    · rw [create_state_ne (hi.lt t ht).ne] at hs
      exact ⟨ht, hs, create_framesOf_ne (hi.lt t ht).ne⟩
  | createFail => exact h.of_update (by simp) rfl rfl (fun _ _ => rfl) fun _ _ _ _ => id
  | mutexInit | semInit => exact h
  | chanInit hid => exact h.of_local (Abs.chanInit_local hid)
  | lock hr hs | wait hr hs | unlock hr hs | post hr hs =>
    have h' := h.of_local (hs.local hr)
    exact h'
  | unlockHandoff hr hs | postHandoff hr hs =>
    exact (h.of_local (hs.local hr)).of_update (by simp) rfl rfl (fun _ _ => rfl) fun _ _ _ _ => id
  | block hr hs =>
    exact (h.of_local (hs.local hr)).of_update (by simp) rfl rfl (fun t ht => framesOf_setFrames_ne ht) fun _ _ _ _ => id
  | @sleep ms fs hr hf =>
    have hq := hi.sleep_parked hr ms hf
    intro t ht hst fd' dir' hc
    by_cases htc : t = a.currentThread
    · rw [htc, hq.framesOf_self, hq.call] at hc
      cases hc
    · rw [hq.framesOf_ne htc] at hc
      rw [hq.state_ne htc] at hst
      exact h t ht hst fd' dir' hc
  | ioBlock hr hf => exact h.ioBlock hi hr hf hok
  | chan hr hid hc => exact h.of_local (hc.local hr hid)

/-! ## Entries of the interest set -/

def Expected (a : Abs) : Prop :=
  ∀ fd t dir, a.interest fd = some (t, dir) → callOf (a.framesOf t) = some (.io fd dir)

structure Watched (s : Sys) (g : List Ptr) (fd : Fd) (t : Ptr) (dir : IoDir) : Prop where
  live : t ∈ g
  state : s.tcb.state t = .ioBlocked
  ioFd : s.tcb.ioFd t = fd
  call : callOf (s.framesOf t) = some (.io fd dir)
  -- and behind no other entry
  once : ∀ fd' dir', s.interest fd' = some (t, dir') → fd' = fd

theorem Expected.of_local (hi : Inv a) (h : Expected a) (hl : Local a b) : Expected b := by
  intro fd t dir hr
  rw [hl.interest] at hr
  have hst := (hi.reg hr).2.1
  rw [hl.callOf_eq (by simp [hst]) (by simp [hst])]
  exact h fd t dir hr

theorem Expected.of_fewer (h : Expected a)
    (hw : ∀ fd t dir, b.interest fd = some (t, dir) → a.interest fd = some (t, dir) ∧ b.framesOf t = a.framesOf t) :
    Expected b := by
  intro fd t dir hr
  obtain ⟨hra, hfr⟩ := hw fd t dir hr
  rw [hfr]
  exact h fd t dir hra

theorem Expected.of_parked {st : TState} {cl : Call} (h : Expected a)
    (hp : Parked st cl a b) (hn : ∀ fd dir, b.interest fd = some (a.currentThread, dir) → cl = .io fd dir) : Expected b := by
  intro fd t dir hi'
  by_cases htc : t = a.currentThread
  · rw [htc] at hi' ⊢
    rw [hp.framesOf_self, hp.call, hn fd dir hi']
  · have hra : a.interest fd = some (t, dir) := (hp.interest hi').resolve_right fun hx => htc hx.1
    rw [hp.framesOf_ne htc]
    exact h fd t dir hra

theorem Prim.expected (hi : Inv a) (h : Expected a) (hp : Prim a b) : Expected b := by
  cases hp with
  | quiet hq => exact h.of_local hi hq.local
  | tick hc => exact h.of_local hi { stack := .tick hc }
  | leave hr hf | sleepRet hr hf | ioRet hr hf | createRet hr hf => exact h.of_local hi { stack := by rw [hf]; exact .pop hr }
  | traceOn | avail | errno => exact h.of_local hi { stack := .refl }
  | move hm hc => exact h.of_local hi { stack := hm.stack hc }
  | reap | sleepWake | preempt | finish | createFail => exact h.of_fewer fun _ _ _ hr => ⟨hr, rfl⟩
  | @ioWake t fd dir hr =>
    refine h.of_fewer fun fd' u dir' hr' => ⟨?_, rfl⟩
    change Function.update a.interest (a.tcb.ioFd t) none fd' = _ at hr'
    by_cases he : fd' = a.tcb.ioFd t
    · rw [he, Function.update_self] at hr'
      cases hr'
    · rwa [Function.update_of_ne he] at hr'
  | switch hp hf => exact h.of_fewer fun _ t _ hr => ⟨hr, framesOf_switch _ t⟩
  | create => exact h.of_fewer fun _ t _ hr => ⟨hr, create_framesOf_ne (hi.lt t (hi.reg hr).1).ne⟩
  | mutexInit | semInit => exact h
  | chanInit hid => exact h.of_local hi (Abs.chanInit_local hid)
  | lock hr hs | wait hr hs | unlock hr hs | post hr hs =>
    have h' := h.of_local hi (hs.local hr)
    exact h'
  | unlockHandoff hr hs | postHandoff hr hs => exact (h.of_local hi (hs.local hr)).of_fewer fun _ _ _ hr => ⟨hr, rfl⟩
  | block hr hs =>
    refine (h.of_local hi (hs.local hr)).of_fewer fun fd t dir hi' => ⟨hi', framesOf_setFrames_ne ?_⟩
    intro ht
    have hst := (hi.reg hi').2.1
    rw [ht] at hst
    exact absurd (hr.symm.trans hst) (by simp)
  | sleep hr hf =>
    exact h.of_parked (hi.sleep_parked hr _ hf) fun fd dir hi' => absurd hi' (hi.not_registered (by rw [hr]; simp))
  | @ioBlock env fd dir fs hr hf =>
    refine h.of_parked (hi.ioBlock_parked env hr hf) fun fd' dir' hi' => ?_
    change (if a.ctlAddOk env fd then Function.update a.interest fd (some (a.currentThread, dir)) else a.interest) fd' = _ at hi'
    have hno : a.interest fd' ≠ some (a.currentThread, dir') := hi.not_registered (by rw [hr]; simp)
    by_cases hok : a.ctlAddOk env fd = true
    · rw [if_pos hok] at hi'
      by_cases he : fd' = fd
      · rw [he, Function.update_self] at hi'
        cases hi'
        rw [he]
      · rw [Function.update_of_ne he] at hi'
        exact absurd hi' hno
    · rw [if_neg hok] at hi'
      exact absurd hi' hno
  | chan hr hid hc => exact h.of_local hi (hc.local hr hid)

def Unpolled (a : Abs) : Prop := a.epollFd < 0 → ∀ fd, a.interest fd = none

theorem Unpolled.of_eq (h : Unpolled a) (hfd : b.epollFd = a.epollFd) (hi : b.interest = a.interest) : Unpolled b := by
  intro he fd
  rw [hi]
  exact h (hfd ▸ he) fd

theorem Prim.unpolled (h : Unpolled a) (hp : Prim a b) : Unpolled b := by
  have hfd := hp.epollFd
  cases hp with
  | quiet hq => cases hq <;> exact h
  | @ioWake t fd dir hr =>
    intro he fd'
    cases (h (hfd ▸ he) fd).symm.trans hr
  | @ioBlock env fd dir fs hr hf =>
    have hno : a.epollFd < 0 → a.ctlAddOk env fd = false := by
      intro he
      have : ¬ 0 ≤ a.epollFd := not_le.mpr he
      simp [Core.ctlAddOk, this]
    intro he fd'
    change (if a.ctlAddOk env fd then Function.update a.interest fd (some (a.currentThread, dir)) else a.interest) fd' = none
    rw [if_neg (by simp [hno (hfd ▸ he)])]
    exact h (hfd ▸ he) fd'
  | @reap t =>
    refine h.of_eq hfd ?_
    simp only [Abs.reap, Abs.on, Core.free, Core.freeGuardedStack]
    split <;> rfl
  | chan hr hid hc => cases hc <;> exact h
  | _ => exact h.of_eq hfd rfl

theorem Inv.reg_once {fd' : Fd} {dir' : IoDir} (hi : Inv a) (h : a.interest fd = some (t, dir))
    (h' : a.interest fd' = some (t, dir')) : fd' = fd := by
  rw [← (hi.reg h').2.2.1, (hi.reg h).2.2.1]

/-! ## Events -/

theorem ioEvent_state : (s.ioEvent u).tcb.state t = if t = u ∧ s.tcb.state t = .ioBlocked then .ready else s.tcb.state t := by
  unfold Sys.ioEvent
  by_cases hu : s.tcb.state u = .ioBlocked
  · rw [if_pos hu]
    change Function.update s.tcb.state u .ready t = _
    by_cases ht : t = u
    · subst ht
      rw [Function.update_self, if_pos ⟨rfl, hu⟩]
    · rw [Function.update_of_ne ht, if_neg fun h => ht h.1]
  · rw [if_neg hu, if_neg]
    intro hx
    obtain ⟨rfl, h⟩ := hx
    exact hu h

theorem ioEvents_ready {ts : List Ptr} (h : s.tcb.state t = .ready) : (ts.foldl Sys.ioEvent s).tcb.state t = .ready := by
  induction ts generalizing s with
  | nil => exact h
  | cons u ts ih =>
    apply ih
    rw [ioEvent_state, h]
    exact ite_self _

theorem ioEvents_woken {ts : List Ptr} (ht : t ∈ ts) (h : s.tcb.state t = .ioBlocked) :
    (ts.foldl Sys.ioEvent s).tcb.state t = .ready := by
  induction ts generalizing s with
  | nil => cases ht
  | cons u ts ih =>
    rw [List.foldl_cons]
    by_cases htu : t = u
    · apply ioEvents_ready
      rw [ioEvent_state, if_pos ⟨htu, h⟩]
    · apply ih ((List.mem_cons.mp ht).resolve_left htu)
      rw [ioEvent_state, if_neg fun hx => htu hx.1]
      exact h

theorem checkIoEvents_wakes {q : Layout} {g : List Ptr} (h : Sim s q g) (he : 0 ≤ s.epollFd) (ht : t ∈ s.epollWait env)
    (hst : s.tcb.state t = .ioBlocked) (hg : t ∈ g) :
    (s.checkIoEvents env).tcb.state t = .ready ∧
      ∃ xs, Chain (s.checkIoEvents env).lk.next (s.checkIoEvents env).lk.readyHead xs ∧ t ∈ xs := by
  have hr : (s.checkIoEvents env).tcb.state t = .ready := by
    unfold Sys.checkIoEvents
    rw [if_neg (not_lt.mpr he)]
    exact ioEvents_woken ht hst
  obtain ⟨q', -, h'⟩ := h.checkIoEvents env
  exact ⟨hr, q' .ready, h'.rep.chain .ready, h'.inv.ready t hg hr⟩

/-- Behind an entry of the interest set is a thread that lives and waits, in `uthread_read` or `uthread_write`, for that
descriptor and direction; whatever pointer `epoll_wait` hands back, its TCB was not freed. -/
theorem interest_watched (h : Sys.Reachable s) :
    ∃ g, Chain s.lk.globalNext s.lk.globalThreadList g ∧ (∀ t ∈ g, freedCount t s.log = 0) ∧
      (∀ fd t dir, s.interest fd = some (t, dir) → Watched s g fd t dir) ∧ ∀ env, ∀ t ∈ s.epollWait env, t ∈ g := by
  obtain ⟨q, g, hs, -, ha, he⟩ := reachable_inv (I := fun a => Accounted a ∧ Expected a)
    (fun c fd v => ⟨accounted_init c fd v, fun fd' t dir hr => by cases hr⟩)
    (fun a b hi h hp => ⟨hp.accounted hi h.1, hp.expected hi h.2⟩) h
  have hw : ∀ fd t dir, s.interest fd = some (t, dir) → Watched s g fd t dir := by
    intro fd t dir hr
    obtain ⟨hg, hst, hfd, -⟩ := hs.inv.reg hr
    exact ⟨hg, hst, hfd, he fd t dir hr, fun fd' dir' hr' => hs.inv.reg_once hr hr'⟩
  refine ⟨g, hs.rep.glob.fwd, ha.unfreed, hw, ?_⟩
  intro env t ht
  obtain ⟨⟨u, dir⟩, hu, rfl⟩ := List.mem_map.mp ht
  obtain ⟨fd, -, hfd⟩ := List.mem_filterMap.mp (List.mem_of_mem_take hu)
  exact (hw fd u dir hfd).live

/-- As long as every registration succeeds, whoever waits for a descriptor is registered for it, and an
event wakes it. -/
theorem io_registered (h : Sys.Reachable s) (hok : ∀ e ∈ s.log, e.unregistered = false) :
    ∃ g, Chain s.lk.globalNext s.lk.globalThreadList g ∧ ∀ t ∈ g, s.tcb.state t = .ioBlocked →
      ∀ fd dir, callOf (s.framesOf t) = some (.io fd dir) → s.tcb.ioFd t = fd ∧ s.interest fd = some (t, dir) ∧
        ∀ env, 0 ≤ s.epollFd → t ∈ s.epollWait env → (s.checkIoEvents env).tcb.state t = .ready ∧
          ∃ xs, Chain (s.checkIoEvents env).lk.next (s.checkIoEvents env).lk.readyHead xs ∧ t ∈ xs := by
  have hstep : ∀ a b, Inv a → ((∀ e ∈ a.log, e.unregistered = false) → Registered a) → Prim a b →
      (∀ e ∈ b.log, e.unregistered = false) → Registered b := by
    intro a b hi ha hp hok
    obtain ⟨es, hlog⟩ := (hp.sync hi).log
    refine hp.registered hi (ha fun e he => hok e ?_) hok
    rw [hlog]
    exact List.mem_append_right _ he
  have h0 : ∀ c fd v, (∀ e ∈ (initAbs c fd v).log, e.unregistered = false) → Registered (initAbs c fd v) := by
    intro c fd v _ t ht hst
    cases List.mem_singleton.mp ht
    cases hst
  obtain ⟨q, g, hs, -, hr⟩ := reachable_inv h0 hstep h
  refine ⟨g, hs.rep.glob.fwd, fun t ht hst fd dir hc => ?_⟩
  have hint := hr hok t ht hst fd dir hc
  exact ⟨(hs.inv.reg hint).2.2.1, hint, fun env he hm => checkIoEvents_wakes hs he hm hst ht⟩

def reader : Sys := Sys.after (fun i => i) [.call (.io 5 .epollin) {}, .resume {}, .resume {}, .resume {}, .resume {}]

theorem reader_reached : Sys.Reachable reader := Sys.reachable_after rfl

theorem interest_watched_reader : reader.interest 5 = some (0, .epollin) ∧
    ∃ g, Chain reader.lk.globalNext reader.lk.globalThreadList g ∧ (∀ t ∈ g, freedCount t reader.log = 0) ∧
      (∀ fd t dir, reader.interest fd = some (t, dir) → Watched reader g fd t dir) ∧ ∀ env, ∀ t ∈ reader.epollWait env, t ∈ g :=
  ⟨rfl, interest_watched reader_reached⟩

/-- A thread waits for a descriptor of its own. -/
theorem io_registered_alone :
    let s := Sys.after (fun i => i) [.call (.io 5 .epollin) {}, .resume {}, .resume {}, .resume {}, .resume {}]
    (s.run.masked = false ∧ s.tcb.state 0 = .ioBlocked ∧ callOf (s.framesOf 0) = some (.io 5 .epollin)) ∧
    ∃ g, Chain s.lk.globalNext s.lk.globalThreadList g ∧ ∀ t ∈ g, s.tcb.state t = .ioBlocked →
      ∀ fd dir, callOf (s.framesOf t) = some (.io fd dir) → s.tcb.ioFd t = fd ∧ s.interest fd = some (t, dir) ∧
        ∀ env, 0 ≤ s.epollFd → t ∈ s.epollWait env → (s.checkIoEvents env).tcb.state t = .ready ∧
          ∃ xs, Chain (s.checkIoEvents env).lk.next (s.checkIoEvents env).lk.readyHead xs ∧ t ∈ xs :=
  ⟨by decide +kernel, io_registered (Sys.reachable_after (by decide +kernel)) (by decide +kernel)⟩

/-- Two threads read one descriptor: the second is not registered. -/
theorem second_reader_unregistered :
    ∃ s : Sys, Sys.Reachable s ∧ s.run.masked = false ∧ s.tcb.state 1 = .ioBlocked ∧
      callOf (s.framesOf 1) = some (.io 5 .epollin) ∧ s.tcb.ioFd 1 = 5 ∧ s.interest 5 = some (0, .epollin) :=
  ⟨Sys.after (fun i => i) [.call (.create 0) {}, .resume {}, .resume {}, .call (.io 5 .epollin) {}, .resume {}, .resume {},
      .resume {}, .resume {}, .resume {}, .call (.io 5 .epollin) {}, .resume {}, .resume {}, .resume {}, .resume {}],
    Sys.reachable_after (by decide +kernel), by decide +kernel, by decide +kernel, by decide +kernel, by decide +kernel,
    by decide +kernel⟩

/-! ## What a check does -/

def Core.reported (env : Env) (c : Core) : List Fd := (env.events.filter fun fd => (c.interest fd).isSome).take maxEpollEvents

/-- `check_io_events` with the descriptors `fds` reported; the lists were `q`. -/
structure Polled (s s' : Sys) (fds : List Fd) (ts : List Ptr) (q : Layout) : Prop where
  state : ∀ t, s'.tcb.state t = if t ∈ ts then .ready else s.tcb.state t
  interest : ∀ fd, s'.interest fd = if fd ∈ fds then none else s.interest fd
  lists : ∀ i, Chain s'.lk.next (s'.lk.head i) (if i = .ready then q i ++ ts else q i)

def Core.waiter (c : Core) (fd : Fd) : Option Ptr := (c.interest fd).map (·.1)

theorem take_filterMap {α β : Type} (f : α → Option β) (l : List α) (n : Nat) :
    (l.filterMap f).take n = ((l.filter fun x => (f x).isSome).take n).filterMap f := by
  induction l generalizing n with
  | nil => simp
  | cons x l ih =>
    cases hx : f x with
    | none => simp [hx, ih]
    | some y =>
      cases n with
      | zero => simp
      | succ n => simp [hx, ih]

theorem epollWait_eq {c : Core} : c.epollWait env = (c.reported env).filterMap c.waiter := by
  unfold Core.epollWait Core.reported
  rw [take_filterMap, List.map_filterMap]
  rfl

theorem Sim.ioEvent_registered {q : Layout} {g : List Ptr} (h : Sim s q g) (hr : s.interest fd = some (t, dir)) :
    Sim (s.ioEvent t) (q.push .ready t) g ∧ (s.ioEvent t).tcb.state = Function.update s.tcb.state t .ready ∧
      (s.ioEvent t).interest = Function.update s.interest fd none := by
  obtain ⟨-, hst, hfd, hsl⟩ := h.inv.reg hr
  have hw : Wake (s.abs q g) ((s.abs q g).ioWake t) := .io hr hst
  have hno : ∀ i, t ∉ q i := by
    intro i hm
    have hs : s.tcb.state t = i.state := h.inv.state hm
    rw [show s.tcb.state t = .ioBlocked from hst] at hs
    cases i with
    | sleep => exact hsl hm
    | ready => cases hs
    | wait w => cases hs
  unfold Sys.ioEvent
  rw [if_pos (show s.tcb.state t = .ioBlocked from hst)]
  refine ⟨h.of_wake hw (h.rep.enqueue h.inv.ok hno), rfl, ?_⟩
  rw [← hfd]
  rfl

theorem Sim.ioEvents_polled {fds : List Fd} {q : Layout} {g : List Ptr} (h : Sim s q g) (hn : fds.Nodup)
    (hr : ∀ fd ∈ fds, (s.interest fd).isSome) :
    Polled s ((fds.filterMap s.waiter).foldl Sys.ioEvent s) fds (fds.filterMap s.waiter) q := by
  induction fds generalizing s q with
  | nil => exact ⟨by simp, by simp, by simpa using h.rep.chain⟩
  | cons fd fds ih =>
    obtain ⟨hfd, hn⟩ := List.nodup_cons.mp hn
    obtain ⟨⟨t, dir⟩, hi⟩ := Option.isSome_iff_exists.mp (hr fd List.mem_cons_self)
    obtain ⟨h₁, hst, hint⟩ := h.ioEvent_registered hi
    -- the other descriptors keep their waiters
    have hkeep : ∀ fd' ∈ fds, (s.ioEvent t).interest fd' = s.interest fd' := by
      intro fd' hm
      rw [hint, Function.update_of_ne]
      rintro rfl
      exact hfd hm
    have hts : fds.filterMap (s.ioEvent t).waiter = fds.filterMap s.waiter :=
      List.filterMap_congr fun fd' hm => by rw [Core.waiter, hkeep fd' hm, Core.waiter]
    have hp := ih h₁ hn fun fd' hm => by
      rw [hkeep fd' hm]
      exact hr fd' (List.mem_cons_of_mem _ hm)
    rw [hts] at hp
    have hw : s.waiter fd = some t := by rw [Core.waiter, hi, Option.map_some]
    rw [List.filterMap_cons_some hw, List.foldl_cons]
    constructor
    · intro u
      rw [hp.state, hst]
      by_cases hu : u = t
      · rw [hu, Function.update_self, if_pos List.mem_cons_self, ite_self]
      · simp [hu]
    · intro fd'
      rw [hp.interest, hint]
      by_cases hf : fd' = fd
      · rw [hf, Function.update_self, if_pos List.mem_cons_self, ite_self]
      · simp [hf]
    · intro i
      have hc := hp.lists i
      by_cases hi : i = .ready
      · rw [if_pos hi] at hc ⊢
        rw [hi, Layout.push_self, List.append_assoc] at hc
        rw [hi]
        exact hc
      · rw [if_neg hi] at hc ⊢
        rwa [Layout.push_of_ne hi] at hc

/-- `check_io_events` makes READY the threads registered for the reported descriptors, 64 at most, and appends them to
the ready queue in this order; it deletes their entries, and all else stays as it is. -/
theorem io_polled (h : Sys.Reachable s) (hn : env.events.Nodup) :
    (s.epollWait env).Nodup ∧ (s.epollWait env).length ≤ 64 ∧ (∀ t ∈ s.epollWait env, s.tcb.state t = .ioBlocked) ∧
      ∃ q, (∀ i, Chain s.lk.next (s.lk.head i) (q i)) ∧
        Polled s (s.checkIoEvents env) (s.reported env) (s.epollWait env) q := by
  obtain ⟨q, g, hs, -, hno⟩ := reachable_inv (I := Unpolled) (fun c fd v _ _ => rfl) (fun a b _ h hp => hp.unpolled h) h
  have hnd : (s.reported env).Nodup := (hn.filter _).sublist (List.take_sublist ..)
  have hreg : ∀ fd ∈ s.reported env, (s.interest fd).isSome := fun fd hm => (List.mem_filter.mp (List.mem_of_mem_take hm)).2
  have hmem : ∀ {fd t}, s.waiter fd = some t → ∃ dir, s.interest fd = some (t, dir) := by
    intro fd t hw
    obtain ⟨⟨u, dir⟩, hi, rfl⟩ := Option.map_eq_some_iff.mp hw
    exact ⟨dir, hi⟩
  rw [epollWait_eq]
  refine ⟨?_, ?_, ?_, q, hs.rep.chain, ?_⟩
  · -- a thread has one entry
    apply hnd.filterMap
    intro fd fd' t ht ht'
    obtain ⟨dir, hi⟩ := hmem ht
    obtain ⟨dir', hi'⟩ := hmem ht'
    exact hs.inv.reg_once hi' hi
  · exact (List.length_filterMap_le ..).trans (List.length_take_le ..)
  · intro t ht
    obtain ⟨fd, -, hw⟩ := List.mem_filterMap.mp ht
    obtain ⟨dir, hi⟩ := hmem hw
    exact (hs.inv.reg hi).2.1
  · unfold Sys.checkIoEvents
    split
    · next he =>
      -- nobody is registered
      have hnone : ∀ fd, s.interest fd = none := hno he
      have hrep : s.reported env = [] := by simp [Core.reported, hnone]
      rw [hrep]
      exact ⟨by simp, by simp, by simpa using hs.rep.chain⟩
    · rw [epollWait_eq]
      exact hs.ioEvents_polled hnd hreg

theorem io_polled_reader : reader.epollWait { events := [4, 5] } = [0] ∧
    ∃ q, (∀ i, Chain reader.lk.next (reader.lk.head i) (q i)) ∧
      Polled reader (reader.checkIoEvents { events := [4, 5] }) (reader.reported { events := [4, 5] }) [0] q :=
  ⟨rfl, (@io_polled reader { events := [4, 5] } reader_reached (by decide)).2.2.2⟩

end Uthread
