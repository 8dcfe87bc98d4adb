import Uthread.Follow

/-!
# The history of a mutex or semaphore

What the log says about an object, and the transitions as they act on objects:
twelve of them do, the others are `Unsync`.
-/

namespace Uthread

/-! ## Reading the log -/

namespace Event

def isSync : Event → Bool
  | .arrive _ _ => true
  | .take _ _ => true
  | .handoff _ _ _ => true
  | .release _ _ => true
  | .leave _ _ => true
  | .semInit _ _ => true
  | _ => false

def arrived? (w : WaitObj) : Event → Option Ptr
  | .arrive w' t => if w' = w then some t else none
  | _ => none

def granted? (w : WaitObj) : Event → Option Ptr
  | .take w' t => if w' = w then some t else none
  | .handoff w' _ t => if w' = w then some t else none
  | _ => none

def returns (w : WaitObj) : Event → Bool
  | .handoff w' _ _ => w' = w
  | .release w' _ => w' = w
  | _ => false

def about (w : WaitObj) (t : Ptr) : Event → Bool
  | .arrive w' t' => w' = w && t' = t
  | .take w' t' => w' = w && t' = t
  | .handoff w' _ t' => w' = w && t' = t
  | .leave w' t' => w' = w && t' = t
  | _ => false

end Event

def arrivals (w : WaitObj) (l : List Event) : List Ptr := (l.filterMap (Event.arrived? w)).reverse

def grants (w : WaitObj) (l : List Event) : List Ptr := (l.filterMap (Event.granted? w)).reverse

def returned (w : WaitObj) (l : List Event) : Nat := l.countP (Event.returns w)

def last (w : WaitObj) (t : Ptr) (l : List Event) : Option Event := l.find? (Event.about w t)

section
variable {w : WaitObj} {t : Ptr} {e : Event} {es l : List Event}

theorem arrivals_cons : arrivals w (e :: l) = arrivals w l ++ (e.arrived? w).toList := by
  unfold arrivals
  cases h : e.arrived? w <;> simp [h]

theorem grants_cons : grants w (e :: l) = grants w l ++ (e.granted? w).toList := by
  unfold grants
  cases h : e.granted? w <;> simp [h]

theorem returned_cons : returned w (e :: l) = returned w l + if e.returns w then 1 else 0 := List.countP_cons

theorem arrivals_silent (h : ∀ e ∈ es, e.isSync = false) : arrivals w (es ++ l) = arrivals w l := by
  induction es with
  | nil => rfl
  | cons e es ih =>
    rw [List.cons_append, arrivals_cons, ih fun e he => h e (List.mem_cons_of_mem _ he)]
    have he := h e (by simp)
    cases e <;> simp_all [Event.isSync, Event.arrived?]

theorem grants_silent (h : ∀ e ∈ es, e.isSync = false) : grants w (es ++ l) = grants w l := by
  induction es with
  | nil => rfl
  | cons e es ih =>
    rw [List.cons_append, grants_cons, ih fun e he => h e (List.mem_cons_of_mem _ he)]
    have he := h e (by simp)
    cases e <;> simp_all [Event.isSync, Event.granted?]

theorem last_silent (h : ∀ e ∈ es, e.isSync = false) : last w t (es ++ l) = last w t l := by
  induction es with
  | nil => rfl
  | cons e es ih =>
    have he := h e (by simp)
    have hno : Event.about w t e = false := by cases e <;> simp_all [Event.isSync, Event.about]
    unfold last at *
    rw [List.cons_append, List.find?_cons_of_neg (by simp [hno])]
    exact ih fun e he => h e (List.mem_cons_of_mem _ he)

theorem last_cons : last w t (e :: l) = if e.about w t then some e else last w t l := by
  unfold last
  rw [List.find?_cons]
  cases e.about w t <;> rfl

end

/-! ## Transitions as they act on objects -/

/-- `t` is inside a call on `w` in which it no longer waits. -/
def Resumes (a : Abs) (w : WaitObj) (t : Ptr) : Prop :=
  t ∈ a.glob ∧ callOf (a.framesOf t) = some (.wait w) ∧ a.tcb.state t ≠ .blocked

structure Unsync (a b : Abs) : Prop where
  log : ∃ es, b.log = es ++ a.log ∧ ∀ e ∈ es, e.isSync = false
  locked : b.mutexLocked = a.mutexLocked := by rfl
  count : b.semCount = a.semCount := by rfl
  queue : ∀ w, b.q (.wait w) = a.q (.wait w) := by intros; rfl
  resumes : ∀ {w t}, Resumes b w t → Resumes a w t

inductive SyncStep (a : Abs) : Abs → Prop
  | unsync {b} : Unsync a b → SyncStep a b
  | mutexInit {n} : a.mutexLocked (.user n) = none → SyncStep a (a.on (.setLocked (.user n) 0))
  | semInit {n k} : a.semCount (.user n) = none →
      SyncStep a (a.on fun c => (c.setCount (.user n) (cint k)).note (.semInit (.user n) (cint k)))
  | chanInit {id ch} : (a.chan id).isNone → SyncStep a (a.chanInit id ch)
  | lock {m fs} : a.tcb.state a.currentThread = .running → Site (.lock m) a.run.frames fs → a.mutexLocked m = some 0 →
      SyncStep a ((a.on fun c => (c.setFrames fs).setLocked m 1).take (.mutex m))
  | wait {sm fs} : a.tcb.state a.currentThread = .running → Site (.wait sm) a.run.frames fs → 0 < a.count sm →
      SyncStep a ((a.on fun c => (c.setFrames fs).setCount sm (c.count sm - 1)).take (.sem sm))
  | block {w fs} : a.tcb.state a.currentThread = .running → Site w.acquire a.run.frames fs →
      (match w with
        | .mutex m => a.mutexLocked m ≠ some 0 ∧ (a.mutexLocked m).isSome
        | .sem sm => a.count sm ≤ 0 ∧ (a.semCount sm).isSome) →
      SyncStep a ((a.on (.setFrames fs)).block w)
  | unlock {m fs} : a.tcb.state a.currentThread = .running → Site (.unlock m) a.run.frames fs → (a.mutexLocked m).isSome →
      a.q (.wait (.mutex m)) = [] → SyncStep a ((a.on fun c => (c.setFrames fs).setLocked m 0).release (.mutex m))
  | unlockHandoff {m fs t ts} : a.tcb.state a.currentThread = .running → Site (.unlock m) a.run.frames fs → a.q (.wait (.mutex m)) = t :: ts →
      SyncStep a ((a.on (.setFrames fs)).handoff (.mutex m) t)
  | post {sm fs} : a.tcb.state a.currentThread = .running → Site (.post sm) a.run.frames fs → (a.semCount sm).isSome → a.q (.wait (.sem sm)) = [] →
      SyncStep a ((a.on fun c => (c.setFrames fs).setCount sm (cint (c.count sm + 1))).release (.sem sm))
  | postHandoff {sm fs t ts} : a.tcb.state a.currentThread = .running → Site (.post sm) a.run.frames fs → a.q (.wait (.sem sm)) = t :: ts →
      SyncStep a ((a.on fun c => (c.setFrames fs).setCount sm (cint (cint (c.count sm + 1) - 1))).handoff (.sem sm) t)
  | leave {w fs} : a.tcb.state a.currentThread = .running → a.run.frames = .waiting w :: fs →
      SyncStep a (a.on fun c => (c.note (.leave w c.currentThread)).setFrames fs)

variable {a b : Abs} {t : Ptr} {fs : List Frame}

theorem Inv.seated_run (h : Inv a) : Seated a.run.frames := by
  have := h.seated _ h.cur
  rwa [framesOf_cur] at this

theorem Local.resumes (hl : Local a b) (hc : callOf b.run.frames = callOf a.run.frames ∨
    ∀ w, callOf b.run.frames ≠ some (.wait w)) {w : WaitObj} {t : Ptr} (h : Resumes b w t) : Resumes a w t := by
  obtain ⟨ht, hcall, hst⟩ := h
  refine ⟨hl.glob ▸ ht, ?_, hl.state ▸ hst⟩
  by_cases htc : t = a.currentThread
  · subst htc
    rw [← hl.cur, framesOf_cur] at hcall
    rcases hc with hc | hc
    · rw [framesOf_cur, ← hc]; exact hcall
    · exact absurd hcall (hc w)
  · rw [← hl.framesOf_ne htc]; exact hcall

theorem Woken.resumes {u : Ptr} (hw : Woken u a b) (hu : a.tcb.state u ≠ .blocked) {w : WaitObj} {t : Ptr}
    (h : Resumes b w t) : Resumes a w t := by
  obtain ⟨ht, hcall, hst⟩ := h
  refine ⟨hw.glob ▸ ht, by rw [← hw.framesOf]; exact hcall, ?_⟩
  by_cases htu : t = u
  · rw [htu]; exact hu
  · rw [← hw.state_ne htu]; exact hst

theorem Parked.resumes {st : TState} {cl : Call} (hp : Parked st cl a b) (hcl : ∀ w, cl ≠ .wait w) {w : WaitObj}
    {t : Ptr} (h : Resumes b w t) : Resumes a w t := by
  obtain ⟨ht, hcall, hst⟩ := h
  by_cases htc : t = a.currentThread
  · subst htc
    rw [hp.framesOf_self, hp.call] at hcall
    exact absurd (Option.some.inj hcall) (hcl w)
  · exact ⟨hp.glob ▸ ht, by rw [← hp.framesOf_ne htc]; exact hcall, by rw [← hp.state_ne htc]; exact hst⟩

theorem create_resumes (h : Inv a) {prio : Int} {w : WaitObj} {t : Ptr} (hr : Resumes (a.create prio) w t) :
    Resumes a w t := by
  obtain ⟨ht, hcall, hst⟩ := hr
  have hlt : ∀ u ∈ a.glob, u ≠ a.brk := fun u hu => (h.lt u hu).ne
  rcases List.mem_cons.mp ht with rfl | ht
  · rw [create_framesOf_self (hlt _ h.cur)] at hcall; cases hcall
  · rw [create_framesOf_ne (hlt t ht)] at hcall
    rw [create_state_ne (hlt t ht)] at hst
    exact ⟨ht, hcall, hst⟩

theorem switch_resumes (h : Inv a) {u : Ptr} (hu : u ∈ a.q .ready) {w : WaitObj} {t : Ptr}
    (hr : Resumes (a.switch u) w t) : Resumes a w t := by
  obtain ⟨ht, hcall, hst⟩ := hr
  refine ⟨ht, by rw [← framesOf_switch u]; exact hcall, ?_⟩
  by_cases htu : t = u
  · subst htu; rw [h.state hu]; simp [QId.state]
  · rw [← switch_state_ne htu]; exact hst

theorem Prim.sync (h : Inv a) (hp : Prim a b) : SyncStep a b := by
  have emit : ∀ {l l' : List Event}, l' = l → ∃ es, l' = es ++ l ∧ ∀ e ∈ es, e.isSync = false :=
    fun h => ⟨[], h, by simp⟩
  have one : ∀ {l : List Event} (e : Event), e.isSync = false → ∃ es, e :: l = es ++ l ∧ ∀ e ∈ es, e.isSync = false :=
    fun e he => ⟨[e], rfl, by simpa using he⟩
  cases hp with
  | quiet hq =>
    refine .unsync { log := ?_, locked := ?_, count := ?_, resumes := hq.local.resumes ?_ } <;> cases hq <;>
      first | exact emit rfl | rfl | exact .inl rfl
  | tick hc => exact .unsync { log := one _ rfl, resumes := ((Local.of_frames (.tick hc)).note _).resumes (.inl rfl) }
  | leave hr hf => exact .leave hr hf
  | sleepRet hr hf | ioRet hr hf | createRet hr hf =>
    have hl := Local.of_frames (by rw [hf]; exact .pop hr : StackMove a.toCore a.run.frames _)
    have hs := h.seated_run
    rw [hf] at hs
    have hnone := hs.callOf_below (by simp [Frame.level])
    refine .unsync { log := one _ rfl, resumes := hl.resumes (.inr fun w he => ?_) }
    cases hnone.symm.trans he
  | traceOn | avail | errno => exact .unsync { log := one _ rfl, resumes := id }
  | @move fs hm hc =>
    refine .unsync { log := emit rfl, resumes := (Local.of_frames (hm.stack hc)).resumes ?_ }
    rcases hm.callOf_eq h.seated_run with e | e
    · exact .inl e
    · refine .inr fun w => ?_
      change callOf fs ≠ _
      rw [e]; simp
  | @reap t => exact .unsync { log := reap_log a t (fun _ _ => rfl) fun _ => rfl, resumes := fun hr => ⟨List.mem_of_mem_erase hr.1, hr.2⟩ }
  | ioWake hr =>
    exact .unsync { log := ⟨[_, _], rfl, by simp [Event.isSync]⟩, resumes := (h.ioWake_woken hr).resumes (by rw [(h.reg hr).2.1]; simp) }
  | @sleepWake t ht =>
    refine .unsync { log := one _ rfl, queue := fun w => ?_, resumes := (h.sleepWake_woken ht).resumes ?_ }
    · change ((a.q.drop .sleep t).push .ready t) (.wait w) = _
      rw [Layout.push_of_ne (by simp), Layout.drop_of_ne (by simp)]
    · rw [h.state ht]; simp [QId.state]
  | preempt hr =>
    refine .unsync { log := one _ rfl, queue := fun w => ?_, resumes := (h.preempt_woken hr).resumes (by rw [hr]; simp) }
    change (a.q.push .ready a.currentThread) (.wait w) = _
    exact Layout.push_of_ne (by simp)
  | switch hp =>
    have ht := mem_of_pick (fun _ hu => h.state hu) hp
    exact .unsync { log := one _ rfl, queue := fun w => switch_wait, resumes := switch_resumes h ht }
  | create hr =>
    exact .unsync { log := ⟨[_, _], rfl, by simp [Event.isSync]⟩, queue := fun w => create_wait, resumes := create_resumes h }
  | createFail =>
    refine .unsync { log := one _ rfl, resumes := fun hr => ⟨hr.1, hr.2.1, fun e => hr.2.2 ?_⟩ }
    exact (Function.update_of_ne (h.lt _ hr.1).ne ..).trans e
  | finish hr =>
    refine .unsync { log := one _ rfl, resumes := fun {w t} hres => ⟨hres.1, hres.2.1, fun e => hres.2.2 ?_⟩ }
    have hne : t ≠ a.currentThread := by rintro rfl; rw [hr] at e; cases e
    exact (Function.update_of_ne hne ..).trans e
  | mutexInit hm => exact .mutexInit hm
  | semInit hs => exact .semInit hs
  | chanInit hc => exact .chanInit hc
  | lock hr hs hm => exact .lock hr hs hm
  | wait hr hs hn => exact .wait hr hs hn
  | block hr hs hw => exact .block hr hs hw
  | unlock hr hs hm hq => exact .unlock hr hs hm hq
  | unlockHandoff hr hs hq => exact .unlockHandoff hr hs hq
  | post hr hs hm hq => exact .post hr hs hm hq
  | postHandoff hr hs hq => exact .postHandoff hr hs hq
  | @sleep ms _ hr hf =>
    have hp := h.sleep_parked hr ms hf
    refine .unsync { log := one _ rfl, queue := fun w => ?_, resumes := hp.resumes (by simp) }
    change (a.q.pushFront .sleep a.currentThread) (.wait w) = _
    exact Layout.pushFront_of_ne (by simp)
  | ioBlock hr hf =>
    exact .unsync { log := one _ rfl, resumes := (h.ioBlock_parked _ hr hf).resumes (by simp) }
  | chan hr hid hc =>
    have hl := hc.local hr hid
    have hnone : callOf a.run.frames = none := by cases hc with | store hf | tail hf | load hf | head hf => rw [hf]; rfl
    cases hc with
    | store | tail | load | head =>
      exact .unsync { log := one _ rfl, resumes := hl.resumes (.inl hnone.symm) }

theorem SyncStep.log (h : SyncStep a b) : ∃ es, b.log = es ++ a.log := by
  cases h with
  | unsync hu =>
    obtain ⟨es, hlog, -⟩ := hu.log
    exact ⟨es, hlog⟩
  | mutexInit => exact ⟨[], rfl⟩
  | semInit | block | unlock | post | leave => exact ⟨[_], rfl⟩
  | lock | wait | unlockHandoff | postHandoff => exact ⟨[_, _], rfl⟩
  | chanInit => exact ⟨[_, _, _], rfl⟩

end Uthread
