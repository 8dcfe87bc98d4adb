import Uthread.Io

/-!
# Sleeping

A call of `check_sleep_list` wakes the sleepers that are due and no others, and
`uthread_sleep` does not return before its deadline.
-/

namespace Uthread

open History Linked

variable {a b : Abs} {s s' : Sys} {t u : Ptr} {fs : List Frame}

/-! ## The calls of `check_sleep_list` -/

inductive ChecksSleep (s : Sys) : Action → Sys → Prop
  | yield {env fs} : s.run.frames = .yieldGc :: fs → ChecksSleep s (.resume env) (s.checkIoEvents env)
  | idle {env f fs} : s.run.frames = f :: fs → f.idles = true →
      ChecksSleep s (.resume env) ((s.on .blockSignals).checkIoEvents env)
  | exit {env fs} : s.run.frames = .user :: fs → ChecksSleep s (.call .exit env)
      (((((s.on .blockSignals).on (.setState s.currentThread .finished)).on (.note (.finished s.currentThread))).on
        (.emit s.currentThread .exit)).checkIoEvents env)

theorem ChecksSleep.sim {q : Layout} {g : List Ptr} {act : Action} (hc : ChecksSleep s act s') (h : Sim s q g)
    (hb : Bd (s.abs q g)) (hx : s.exited = false) : ∃ q', Sim s' q' g := by
  cases hc with
  | @yield env _ _ =>
    obtain ⟨q', -, h'⟩ := h.checkIoEvents env
    exact ⟨q', h'⟩
  | @idle env _ _ _ _ =>
    obtain ⟨q', -, h'⟩ := h.blockSignals.2.checkIoEvents env
    exact ⟨q', h'⟩
  | @exit env _ hf =>
    have hr : s.tcb.state s.currentThread = .running := by
      have := hb.alive hx
      rw [show (s.abs q g).run.frames = _ from hf] at this
      exact this
    have h₁ := h.blockSignals.2
    have hp : Prim ((s.on .blockSignals).abs q g) ((s.on .blockSignals).abs q g).finish := .finish hr hf
    have h₂ : Sim ((((s.on .blockSignals).on (.setState s.currentThread .finished)).on
      (.note (.finished s.currentThread))).on (.emit s.currentThread .exit)) q g := ⟨h.rep, hp.inv h₁.inv⟩
    obtain ⟨q', -, h'⟩ := h₂.checkIoEvents env
    exact ⟨q', h'⟩

structure WakesDue (s s' : Sys) (xs ys : List Ptr) : Prop where
  ready : Chain s.lk.next s.lk.readyHead xs
  sleepers : Chain s.lk.next s.lk.sleepListHead ys
  once : (xs ++ ys).Nodup
  woken : Chain s'.lk.next s'.lk.readyHead (xs ++ ys.filter (s.tcb.sleepUntilNs · ≤ s.getTimeNs))
  others : Chain s'.lk.next s'.lk.sleepListHead (ys.filter (s.getTimeNs < s.tcb.sleepUntilNs ·))
  state : ∀ t ∈ ys, s.tcb.sleepUntilNs t ≤ s.getTimeNs → s'.tcb.state t = .ready

theorem Sim.wakesDue {q : Layout} {g : List Ptr} (h : Sim s q g) : WakesDue s s.checkSleepList (q .ready) (q .sleep) := by
  obtain ⟨q', -, h', hq⟩ := h.checkSleepList_woke
  refine
    { ready := h.rep.chain .ready
      sleepers := h.rep.chain .sleep
      once := ?_
      woken := hq.ready ▸ h'.rep.chain .ready
      others := by
        have := h'.rep.chain .sleep
        rwa [hq.sleep] at this
      state := fun t ht hd => h'.inv.state (i := .ready) ?_ }
  · refine List.nodup_append.mpr ⟨h.inv.ok.nodup .ready, h.inv.ok.nodup .sleep, ?_⟩
    rintro t ht _ ht' rfl
    have hi : QId.ready = .sleep := h.inv.ok.disj ht ht'
    cases hi
  · change t ∈ q' .ready
    rw [hq.ready]
    exact List.mem_append_right _ (List.mem_filter.mpr ⟨ht, by simpa using hd⟩)

/-! ## The calls of `uthread_sleep` -/

/-- The argument and the clock reading of the last call of `uthread_sleep` by `t`. -/
def lastSleep (t : Ptr) (l : List Event) : Option (Nat × Nat) :=
  l.findSome? fun
    | .sleepCall u ms now => if u = t then some (ms, now) else none
    | _ => none

def DeadlineOf (t : Ptr) (d : Nat) (clock : Nat → Nat) (l : List Event) : Prop :=
  ∃ ms i, lastSleep t l = some (ms, clock i % 2 ^ 64) ∧ ms < 2 ^ 32 ∧ d = (clock i % 2 ^ 64 + ms * 1000000) % 2 ^ 64

def Punctual (clock : Nat → Nat) : Event → List Event → Prop
  | .sleepRet t d r, l => DeadlineOf t d clock l ∧ ∃ i < r, d ≤ clock i % 2 ^ 64
  | _, _ => True

structure Slept (a : Abs) : Prop where
  deadline : ∀ t ∈ a.glob, ∀ d, callOf (a.framesOf t) = some (.sleep d) → DeadlineOf t d a.clock a.log
  asleep : ∀ t ∈ a.glob, ∀ d, callOf (a.framesOf t) = some (.sleep d) → a.tcb.state t = .ioBlocked →
    a.tcb.sleepUntilNs t = d
  due : ∀ t ∈ a.glob, ∀ d, callOf (a.framesOf t) = some (.sleep d) → a.tcb.state t ≠ .ioBlocked →
    ∃ i < a.readings, d ≤ a.clock i % 2 ^ 64
  punctual : Always (Punctual a.clock) a.log

structure Restful (a b : Abs) : Prop where
  call : ∀ t ∈ b.glob, ∀ d, callOf (b.framesOf t) = some (.sleep d) → t ∈ a.glob ∧ callOf (a.framesOf t) = some (.sleep d) ∧
    (b.tcb.state t = .ioBlocked ↔ a.tcb.state t = .ioBlocked) ∧ b.tcb.sleepUntilNs t = a.tcb.sleepUntilNs t
  log : ∃ es, b.log = es ++ a.log ∧ ∀ e ∈ es, (∀ u ms now, e ≠ .sleepCall u ms now) ∧ ∀ u d r, e ≠ .sleepRet u d r
  readings : a.readings ≤ b.readings
  clock : b.clock = a.clock := by rfl

theorem lastSleep_other {e : Event} {l : List Event} (h : ∀ ms now, e ≠ .sleepCall t ms now) :
    lastSleep t (e :: l) = lastSleep t l := by
  unfold lastSleep
  rw [List.findSome?_cons]
  split
  · next v hv =>
    split at hv
    · next u ms now =>
      split at hv
      · next hu => exact absurd (hu ▸ rfl) (h ms now)
      · cases hv
    · cases hv
  · rfl

theorem lastSleep_append {es l : List Event} (h : ∀ e ∈ es, ∀ u ms now, e ≠ .sleepCall u ms now) :
    lastSleep t (es ++ l) = lastSleep t l := by
  induction es with
  | nil => rfl
  | cons e es ih =>
    rw [List.cons_append, lastSleep_other fun ms now => h e (by simp) t ms now]
    exact ih fun e he => h e (List.mem_cons_of_mem _ he)

theorem Slept.restful (h : Slept a) (hr : Restful a b) : Slept b := by
  obtain ⟨es, hlog, hes⟩ := hr.log
  have hlast : ∀ t, lastSleep t b.log = lastSleep t a.log := by
    intro t
    rw [hlog]
    exact lastSleep_append fun e he => (hes e he).1
  refine ⟨fun t ht d hd => ?_, fun t ht d hd hs => ?_, fun t ht d hd hs => ?_, ?_⟩
  · obtain ⟨hg, hc, -, -⟩ := hr.call t ht d hd
    unfold DeadlineOf
    rw [hlast, hr.clock]
    exact h.deadline t hg d hc
  · obtain ⟨hg, hc, hst, hu⟩ := hr.call t ht d hd
    rw [hu]
    exact h.asleep t hg d hc (hst.mp hs)
  · obtain ⟨hg, hc, hst, -⟩ := hr.call t ht d hd
    obtain ⟨i, hi, hle⟩ := h.due t hg d hc fun e => hs (hst.mpr e)
    exact ⟨i, hi.trans_le hr.readings, hr.clock ▸ hle⟩
  · rw [hr.clock, hlog]
    refine h.punctual.silent fun e he l => ?_
    cases e with
    | sleepRet u d r => exact absurd rfl ((hes _ he).2 u d r)
    | _ => trivial

theorem Restful.of_local (hl : Local a b) (hc : callOf b.run.frames = callOf a.run.frames ∨ callOf b.run.frames = none)
    (hlog : ∃ es, b.log = es ++ a.log ∧ ∀ e ∈ es, (∀ u ms now, e ≠ .sleepCall u ms now) ∧ ∀ u d r, e ≠ .sleepRet u d r)
    (hr : a.readings ≤ b.readings) (hu : b.tcb.sleepUntilNs = a.tcb.sleepUntilNs) (hcl : b.clock = a.clock) : Restful a b where
  call t ht d hd := by
    rw [hl.glob] at ht
    refine ⟨ht, ?_, by rw [hl.state], by rw [hu]⟩
    by_cases htc : t = a.currentThread
    · subst htc
      rw [← hl.cur, framesOf_cur] at hd
      rw [framesOf_cur]
      rcases hc with hc | hc
      · rw [← hc]
        exact hd
      · rw [hc] at hd
        cases hd
    · rw [← hl.framesOf_ne htc]
      exact hd
  log := hlog
  readings := hr
  clock := hcl

theorem Restful.of_update {st : TState} (hglob : b.glob = a.glob) (hst : b.tcb.state = Function.update a.tcb.state u st)
    (hne : st ≠ .ioBlocked) (hu : u ∈ a.glob → ∀ d, callOf (b.framesOf u) = some (.sleep d) → a.tcb.state u ≠ .ioBlocked)
    (hfr : ∀ t, callOf (b.framesOf t) = callOf (a.framesOf t) ∨ ∀ d, callOf (b.framesOf t) ≠ some (.sleep d))
    (hlog : ∃ es, b.log = es ++ a.log ∧ ∀ e ∈ es, (∀ u ms now, e ≠ .sleepCall u ms now) ∧ ∀ u d r, e ≠ .sleepRet u d r)
    (hr : a.readings ≤ b.readings) (hs : b.tcb.sleepUntilNs = a.tcb.sleepUntilNs) (hcl : b.clock = a.clock) : Restful a b where
  call t ht d hd := by
    rw [hglob] at ht
    refine ⟨ht, ?_, ?_, by rw [hs]⟩
    · rcases hfr t with hf | hf
      · rw [← hf]
        exact hd
      · exact absurd hd (hf d)
    · rw [hst]
      by_cases htu : t = u
      · subst htu
        rw [Function.update_self]
        exact ⟨fun h => absurd h hne, fun h => absurd h (hu ht d hd)⟩
      · rw [Function.update_of_ne htu]
  log := hlog
  readings := hr
  clock := hcl

theorem Restful.still (hglob : b.glob = a.glob) (hst : b.tcb = a.tcb) (hfr : ∀ t, b.framesOf t = a.framesOf t)
    (hlog : ∃ es, b.log = es ++ a.log ∧ ∀ e ∈ es, (∀ u ms now, e ≠ .sleepCall u ms now) ∧ ∀ u d r, e ≠ .sleepRet u d r)
    (hr : b.readings = a.readings) (hcl : b.clock = a.clock) : Restful a b where
  call t ht d hd := by
    rw [hglob] at ht
    rw [hfr] at hd
    exact ⟨ht, hd, by rw [hst], by rw [hst]⟩
  log := hlog
  readings := hr.ge
  clock := hcl

theorem Slept.sleepWake (hi : Inv a) (h : Slept a) (ht : t ∈ a.q .sleep)
    (hd : ∃ i < a.readings, a.tcb.sleepUntilNs t ≤ a.clock i % 2 ^ 64) : Slept (a.sleepWake t) := by
  have hw := hi.sleepWake_woken ht
  have hread : a.readings ≤ (a.sleepWake t).readings := le_emit _
  have hlog : (a.sleepWake t).log = [.enq t] ++ a.log := rfl
  have hlast : ∀ u, lastSleep u (a.sleepWake t).log = lastSleep u a.log := by
    intro u
    rw [hlog]
    exact lastSleep_append (by simp)
  refine ⟨fun u hu d hc => ?_, fun u hu d hc hs => ?_, fun u hu d hc hs => ?_, ?_⟩
  · rw [hw.framesOf] at hc
    unfold DeadlineOf
    rw [hlast]
    exact h.deadline u hu d hc
  · have hne : u ≠ t := by
      rintro rfl
      rw [hw.state_self] at hs
      cases hs
    rw [hw.framesOf] at hc
    rw [hw.state_ne hne] at hs
    change Function.update a.tcb.sleepUntilNs t 0 u = d
    rw [Function.update_of_ne hne]
    exact h.asleep u hu d hc hs
  · rw [hw.framesOf] at hc
    by_cases hut : u = t
    · subst hut
      obtain ⟨i, hir, hle⟩ := hd
      rw [h.asleep u hu d hc (hi.state ht)] at hle
      exact ⟨i, hir.trans_le hread, hle⟩
    · rw [hw.state_ne hut] at hs
      obtain ⟨i, hir, hle⟩ := h.due u hu d hc hs
      exact ⟨i, hir.trans_le hread, hle⟩
  · rw [hlog]
    exact h.punctual.silent fun e he l => by
      cases List.mem_singleton.mp he
      trivial

theorem Slept.sleep (hi : Inv a) (h : Slept a) (hr : a.tcb.state a.currentThread = .running) {ms : Nat}
    (hf : a.run.frames = .user :: fs) : Slept (a.sleep ms) := by
  have hp := hi.sleep_parked hr ms hf
  have hread : a.readings ≤ (a.sleep ms).readings := (Nat.le_succ _).trans (le_emit a.toCore.tickClock)
  have hlog : (a.sleep ms).log = .sleepCall a.currentThread (ms % 2 ^ 32) (a.clock a.readings % 2 ^ 64) :: a.log := rfl
  have hself : lastSleep a.currentThread (a.sleep ms).log = some (ms % 2 ^ 32, a.clock a.readings % 2 ^ 64) := by
    rw [hlog]
    simp [lastSleep]
  have hother : ∀ u, u ≠ a.currentThread → lastSleep u (a.sleep ms).log = lastSleep u a.log := by
    intro u hu
    rw [hlog]
    refine lastSleep_other fun ms' now he => hu ?_
    injection he with he
    exact he.symm
  refine ⟨fun u hu d hc => ?_, fun u hu d hc hs => ?_, fun u hu d hc hs => ?_, ⟨trivial, h.punctual⟩⟩
  · by_cases huc : u = a.currentThread
    · subst huc
      rw [hp.framesOf_self, hp.call] at hc
      cases hc
      exact ⟨_, _, hself, Nat.mod_lt _ (by omega), rfl⟩
    · rw [hp.framesOf_ne huc] at hc
      unfold DeadlineOf
      rw [hother u huc]
      exact h.deadline u hu d hc
  · by_cases huc : u = a.currentThread
    · subst huc
      rw [hp.framesOf_self, hp.call] at hc
      cases hc
      exact Function.update_self ..
    · rw [hp.framesOf_ne huc] at hc
      rw [hp.state_ne huc] at hs
      change Function.update a.tcb.sleepUntilNs a.currentThread _ u = d
      rw [Function.update_of_ne huc]
      exact h.asleep u hu d hc hs
  · by_cases huc : u = a.currentThread
    · rw [huc, hp.state_self] at hs
      exact absurd rfl hs
    · rw [hp.framesOf_ne huc] at hc
      rw [hp.state_ne huc] at hs
      obtain ⟨i, hir, hle⟩ := h.due u hu d hc hs
      exact ⟨i, hir.trans_le hread, hle⟩

theorem Slept.sleepRet (hi : Inv a) (h : Slept a) (hr : a.tcb.state a.currentThread = .running) {d : Nat}
    (hf : a.run.frames = .sleeping d :: fs) :
    Slept (a.on fun c => (c.note (.sleepRet c.currentThread d c.readings)).setFrames fs) := by
  have hcall : callOf (a.framesOf a.currentThread) = some (.sleep d) := by
    rw [framesOf_cur, hf]
    rfl
  have hnone : callOf fs = none := by
    have hs := hi.seated_run
    rw [hf] at hs
    exact hs.callOf_below (by simp [Frame.level])
  have hl : Local a (a.on (.setFrames fs)) := .of_frames (by rw [hf]; exact .pop hr)
  have hq : Slept (a.on (.setFrames fs)) :=
    h.restful (.of_local hl (.inr hnone) ⟨[], rfl, by simp⟩ le_rfl rfl rfl)
  have hlast : ∀ u l, lastSleep u (.sleepRet a.currentThread d a.readings :: l) = lastSleep u l := fun u l =>
    lastSleep_other (by simp)
  refine ⟨fun u hu d' hc => ?_, hq.asleep, hq.due, ⟨h.deadline _ hi.cur d hcall, ?_⟩, h.punctual⟩
  · obtain ⟨ms, i, hx, hrest⟩ := hq.deadline u hu d' hc
    exact ⟨ms, i, (hlast u _).trans hx, hrest⟩
  · exact h.due _ hi.cur d hcall (by rw [hr]; simp)

theorem Prim.slept (hi : Inv a) (h : Slept a) (hp : Prim a b) : Slept b := by
  have nolog : ∀ {l : List Event}, ∃ es, l = es ++ l ∧
      ∀ e ∈ es, (∀ u ms now, e ≠ .sleepCall u ms now) ∧ ∀ u d r, e ≠ .sleepRet u d r := ⟨[], rfl, by simp⟩
  have one : ∀ {l : List Event} (e : Event), (∀ u ms now, e ≠ .sleepCall u ms now) → (∀ u d r, e ≠ .sleepRet u d r) →
      ∃ es, e :: l = es ++ l ∧ ∀ e ∈ es, (∀ u ms now, e ≠ .sleepCall u ms now) ∧ ∀ u d r, e ≠ .sleepRet u d r :=
    fun e h₁ h₂ => ⟨[e], rfl, by simpa using ⟨h₁, h₂⟩⟩
  cases hp with
  | quiet hq =>
    refine h.restful (.of_local hq.local ?_ ?_ ?_ ?_ ?_) <;> cases hq <;>
      first | exact .inl rfl | exact nolog | exact le_rfl | exact Nat.le_succ _ | rfl
  | tick hc => exact h.restful (.of_local { stack := .tick hc } (.inl rfl) (one _ (by simp) (by simp)) le_rfl rfl rfl)
  | leave hr hf | ioRet hr hf | createRet hr hf =>
    have hs := hi.seated_run
    rw [hf] at hs
    have hnone := hs.callOf_below (by simp [Frame.level])
    exact h.restful (.of_local { stack := by rw [hf]; exact .pop hr } (.inr hnone) (one _ (by simp) (by simp)) le_rfl rfl rfl)
  | sleepRet hr hf => exact h.sleepRet hi hr hf
  | traceOn | avail | errno =>
    exact h.restful (.of_local { stack := .refl } (.inl rfl) (one _ (by simp) (by simp)) le_rfl rfl rfl)
  | move hm hc =>
    exact h.restful (.of_local { stack := hm.stack hc } (hm.callOf_eq hi.seated_run) nolog le_rfl rfl rfl)
  | @reap t ht hf hc =>
    refine h.restful
      { call := fun u hu d hd => ⟨List.mem_of_mem_erase hu, hd, Iff.rfl, rfl⟩, log := ?_, readings := le_rfl }
    have hlog : (a.reap t).log = .freed t _ _ :: (Core.freeGuardedStack t a.toCore).log := rfl
    rw [hlog]
    unfold Core.freeGuardedStack
    split
    · exact ⟨[_, _], rfl, by simp⟩
    · exact one _ (by simp) (by simp)
  | @ioWake t fd dir hr =>
    refine h.restful (.of_update rfl rfl (by simp) (fun ht d hd => ?_) (fun t => .inl rfl) ⟨[_, _], rfl, by simp⟩
      (le_emit _) rfl rfl)
    -- a registered thread is not asleep
    rcases hi.io t ht (hi.reg hr).2.1 with ⟨-, hm⟩ | ⟨⟨fd', dir', hc⟩, -⟩
    · exact absurd hm (hi.reg hr).2.2.2
    · rw [show (a.ioWake t).framesOf t = a.framesOf t from rfl, hc] at hd
      cases hd
  | sleepWake ht hd => exact h.sleepWake hi ht hd
  | preempt hr =>
    exact h.restful (.of_update rfl rfl (by simp) (fun _ d _ => by rw [hr]; simp) (fun t => .inl rfl)
      (one _ (by simp) (by simp)) (le_emit _) rfl rfl)
  | switch hp hf =>
    have ht := hi.state (mem_of_pick (fun _ hu => hi.state hu) hp)
    exact h.restful (.of_update rfl rfl (by simp) (fun _ d _ => by rw [ht]; simp [QId.state])
      (fun t => .inl (by rw [framesOf_switch])) (one _ (by simp) (by simp)) (le_emit _) rfl rfl)
  | create =>
    refine h.restful
      { call := fun u hu d hd => ?_, log := ⟨[_, _], rfl, by simp⟩, readings := le_emit _ }
    rcases List.mem_cons.mp hu with rfl | hu
    · rw [create_framesOf_self (hi.lt _ hi.cur).ne] at hd
      cases hd
    · have hne := (hi.lt u hu).ne
      rw [create_framesOf_ne hne] at hd
      exact ⟨hu, hd, by rw [create_state_ne hne], Function.update_of_ne hne ..⟩
  | createFail =>
    refine h.restful
      { call := fun u hu d hd => ?_, log := one _ (by simp) (by simp), readings := le_rfl }
    have hne := (hi.lt u hu).ne
    have hst : Function.update a.tcb.state a.brk .ready u = a.tcb.state u := Function.update_of_ne hne ..
    refine ⟨hu, hd, ?_, Function.update_of_ne hne ..⟩
    change Function.update a.tcb.state a.brk .ready u = _ ↔ _
    rw [hst]
  | finish hr =>
    exact h.restful (.of_update rfl rfl (by simp) (fun _ d _ => by rw [hr]; simp) (fun t => .inl rfl)
      (one _ (by simp) (by simp)) (le_emit _) rfl rfl)
  | mutexInit => exact h.restful (.still rfl rfl (fun _ => rfl) nolog rfl rfl)
  | semInit => exact h.restful (.still rfl rfl (fun _ => rfl) (one _ (by simp) (by simp)) rfl rfl)
  | chanInit hid => exact h.restful (.still rfl rfl (fun _ => rfl) ⟨[_, _, _], rfl, by simp⟩ rfl rfl)
  | lock hr hs | wait hr hs =>
    have h' := h.restful (.of_local (hs.local hr) (.inr (hs.callOf_eq hi.seated_run)) nolog le_rfl rfl rfl)
    exact h'.restful (.still rfl rfl (fun _ => rfl) ⟨[_, _], rfl, by simp⟩ rfl rfl)
  | unlock hr hs | post hr hs =>
    have h' := h.restful (.of_local (hs.local hr) (.inr (hs.callOf_eq hi.seated_run)) nolog le_rfl rfl rfl)
    exact h'.restful (.still rfl rfl (fun _ => rfl) (one _ (by simp) (by simp)) rfl rfl)
  | unlockHandoff hr hs hq | postHandoff hr hs hq =>
    have h' := h.restful (.of_local (hs.local hr) (.inr (hs.callOf_eq hi.seated_run)) nolog le_rfl rfl rfl)
    have hst := hi.state (hq ▸ List.mem_cons_self)
    exact h'.restful (.of_update rfl rfl (by simp) (fun _ d _ => by
      change a.tcb.state _ ≠ _
      rw [hst]; simp [QId.state]) (fun t => .inl rfl) ⟨[_, _], rfl, by simp⟩ (le_emit _) rfl rfl)
  | block hr hs =>
    have h' := h.restful (.of_local (hs.local hr) (.inr (hs.callOf_eq hi.seated_run)) nolog le_rfl rfl rfl)
    refine h'.restful (.of_update rfl rfl (by simp) (fun _ d hd => ?_) (fun t => ?_) (one _ (by simp) (by simp))
      (le_emit _) rfl rfl)
    · change a.tcb.state a.currentThread ≠ _
      rw [hr]; simp
    · by_cases ht : t = a.currentThread
      · refine .inr fun d hd => ?_
        rw [ht] at hd
        change callOf (if a.currentThread = a.currentThread then _ else _) = _ at hd
        rw [if_pos rfl] at hd
        cases hd
      · exact .inl (congrArg callOf (framesOf_setFrames_ne ht))
  | sleep hr hf => exact h.sleep hi hr hf
  | @ioBlock env fd dir fs hr hf =>
    have hq := hi.ioBlock_parked env hr hf
    refine h.restful
      { call := fun u hu d hd => ?_, log := one _ (by simp) (by simp), readings := le_emit _ }
    by_cases huc : u = a.currentThread
    · rw [huc, hq.framesOf_self, hq.call] at hd
      cases hd
    · rw [hq.framesOf_ne huc] at hd
      exact ⟨hu, hd, by rw [hq.state_ne huc], rfl⟩
  | chan hr hid hc =>
    have hl := hc.local hr hid
    refine h.restful (.of_local hl ?_ ?_ ?_ ?_ ?_) <;> cases hc <;>
      first | exact .inr rfl | exact one _ (by simp) (by simp) | exact le_rfl | rfl

/-! ## Runs -/

theorem slept_init (clock : Nat → Nat) (epollFd : Fd) (avail : Fd × IoDir → Bool) : Slept (initAbs clock epollFd avail) := by
  have hcall : ∀ t ∈ (initAbs clock epollFd avail).glob, callOf ((initAbs clock epollFd avail).framesOf t) = none := by
    intro t ht
    cases List.mem_singleton.mp ht
    rfl
  refine ⟨fun t ht d hd => ?_, fun t ht d hd => ?_, fun t ht d hd => ?_, ⟨trivial, trivial⟩⟩ <;>
    (rw [hcall t ht] at hd; cases hd)

/-- Every call of `check_sleep_list` wakes exactly the sleepers that are due, in their order, and with a
monotone clock below `2^63` no call of `uthread_sleep` returns early. -/
theorem sleep_punctual (h : Sys.Reachable s) :
    (∀ act s', s.exited = false → ChecksSleep s act s' → ∃ xs ys, WakesDue s' s'.checkSleepList xs ys) ∧
    (Monotone s.clock → (∀ i, s.clock i < 2 ^ 63) → ∀ l₁ t d r l₂, s.log = l₁ ++ .sleepRet t d r :: l₂ →
      ∃ ms i, lastSleep t l₂ = some (ms, s.clock i) ∧ d = s.clock i + ms * 1000000 ∧
        ∀ j, r ≤ j + 1 → s.clock i + ms * 1000000 ≤ s.clock j) := by
  obtain ⟨q, g, hs, hb, hsl⟩ := reachable_inv slept_init (fun a b hi ha hp => hp.slept hi ha) h
  constructor
  · intro act s' hx hc
    obtain ⟨q', h'⟩ := hc.sim hs hb hx
    exact ⟨_, _, h'.wakesDue⟩
  · intro hmono hlt l₁ t d r l₂ hlog
    obtain ⟨⟨ms, i, hlast, hms, hd⟩, k, hk, hle⟩ := always_iff.mp hsl.punctual l₁ _ l₂ hlog
    change lastSleep t l₂ = some (ms, s.clock i % 2 ^ 64) at hlast
    change d = (s.clock i % 2 ^ 64 + ms * 1000000) % 2 ^ 64 at hd
    change d ≤ s.clock k % 2 ^ 64 at hle
    have hi := hlt i
    have hk' := hlt k
    have hmod : s.clock i % 2 ^ 64 = s.clock i := Nat.mod_eq_of_lt (by omega)
    rw [hmod] at hlast hd
    rw [Nat.mod_eq_of_lt (by omega)] at hd
    rw [Nat.mod_eq_of_lt (by omega)] at hle
    refine ⟨ms, i, hlast, hd, fun j hj => ?_⟩
    rw [← hd]
    exact hle.trans (hmono (by omega))

/-- A thread sleeps a millisecond. -/
theorem sleep_punctual_once :
    let s := Sys.after (fun i => i * 400000) [.call (.sleep 1) {}, .resume {}, .resume {}, .resume {}, .resume {}, .resume {},
      .resume {}, .resume {}]
    .sleepRet 0 1000000 4 ∈ s.log ∧
    (∀ act s', s.exited = false → ChecksSleep s act s' → ∃ xs ys, WakesDue s' s'.checkSleepList xs ys) ∧
    (Monotone s.clock → (∀ i, s.clock i < 2 ^ 63) → ∀ l₁ t d r l₂, s.log = l₁ ++ .sleepRet t d r :: l₂ →
      ∃ ms i, lastSleep t l₂ = some (ms, s.clock i) ∧ d = s.clock i + ms * 1000000 ∧
        ∀ j, r ≤ j + 1 → s.clock i + ms * 1000000 ≤ s.clock j) :=
  ⟨by decide +kernel, sleep_punctual (Sys.reachable_after (by decide +kernel))⟩

end Uthread
