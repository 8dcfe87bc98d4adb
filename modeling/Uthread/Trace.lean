import Uthread.Sleep
import Uthread.Lib.Spans

/-!
# The trace buffer

The events in the buffer, with the threads that emitted them, are bracketed for
each thread id: a thread that becomes RUNNING emits a begin mark, and it emits
an end mark when it stops being RUNNING. This needs that no two RUNNING threads
have the same id.
-/

namespace Uthread

open Linked Spans History

variable {a b : Abs} {s : Sys} {t u : Ptr} {type : TraceEventType} {c c' : Core}

def TraceEventType.phase : TraceEventType → Phase
  | .run => .B
  | .yield => .E
  | .preempt => .E
  | .block => .E
  | .ioBlock => .E
  | .sleep => .E
  | .exit => .E
  | _ => .i

def stored (buf : Int → TraceEvent) : Nat → List TraceEvent
  | 0 => []
  | n + 1 => buf n :: stored buf n

def Trace.recorded (tr : Trace) : List TraceEvent :=
  match tr.buffer with
  | some buf => stored buf tr.count.toNat
  | none => []

namespace Core

def recorded (c : Core) : List TraceEvent :=
  match c.tr.buffer with
  | some buf => stored buf c.tr.count.toNat
  | none => []

def history (c : Core) : List (Ptr × TraceEvent) := c.emitters.zip c.recorded

end Core

abbrev markOf (p : Ptr × TraceEvent) : Phase := p.2.type.phase
abbrev tidOf (p : Ptr × TraceEvent) : Int := p.2.tid

def enabler (l : List Event) : Option Ptr := l.findSome? fun e => match e with
  | .traceOn t => some t
  | _ => none

theorem stored_update {buf : Int → TraceEvent} {m : Nat} {e : TraceEvent} : ∀ {n : Nat}, n ≤ m →
    stored (Function.update buf m e) n = stored buf n
  | 0, _ => rfl
  | n + 1, h => by
    have hne : (n : Int) ≠ m := by omega
    simp only [stored]
    rw [Function.update_of_ne hne, stored_update (by omega)]

inductive Emits (t : Ptr) (type : TraceEventType) (c c' : Core) : Prop
  | skip : c.tr.records = false → c'.tr = c.tr → c'.emitters = c.emitters → Emits t type c c'
  | stored {j} : c.tr.records = true → c.readings ≤ j → j < c'.readings →
      c'.tr = c.tr.store ⟨c'.tcb.threadId t, type, c.clock j % 2 ^ 64, 0⟩ → c'.emitters = t :: c.emitters → Emits t type c c'

theorem Emits.of_emit {d : Core} (htr : d.tr = c.tr) (hem : d.emitters = c.emitters) (hrd : c.readings ≤ d.readings)
    (hclk : d.clock = c.clock) (h₁ : c'.tr = (d.emit t type).tr) (h₂ : c'.emitters = (d.emit t type).emitters)
    (h₃ : c'.readings = (d.emit t type).readings) (hid : c'.tcb.threadId t = d.tcb.threadId t) : Emits t type c c' := by
  have hrec : d.tr.records = c.tr.records := by rw [htr]
  unfold Core.emit Core.traceEmit at h₁ h₂ h₃
  rw [hrec] at h₁ h₂ h₃
  cases hc : c.tr.records with
  | false =>
    rw [hc] at h₁ h₂
    exact .skip hc (h₁.trans htr) (h₂.trans hem)
  | true =>
    rw [hc] at h₁ h₂ h₃
    refine .stored hc hrd (h₃ ▸ Nat.lt_succ_self _) ?_ (h₂.trans (by rw [hem]; rfl))
    rw [hid, ← hclk, ← htr]
    exact h₁

/-! ## Transitions -/

def Runs (t : Ptr) (a : Abs) : Prop := t ∈ a.glob ∧ a.tcb.state t = .running

inductive TraceStep (a b : Abs) : Prop
  | quiet : (∀ t, Runs t b ↔ Runs t a) → b.currentThread = a.currentThread →
      b.tr = a.tr ∨ b.tr = { a.tr with enabled := false } → b.emitters = a.emitters → enabler b.log = enabler a.log →
      TraceStep a b
  | instant (t : Ptr) (type : TraceEventType) : type.phase = .i → t < b.brk → (∀ t, Runs t b ↔ Runs t a) → b.currentThread = a.currentThread →
      Emits t type a.toCore b.toCore → enabler b.log = enabler a.log → TraceStep a b
  | ends (type : TraceEventType) : type.phase = .E → Runs a.currentThread a → (∀ t, Runs t b ↔ Runs t a ∧ t ≠ a.currentThread) →
      b.currentThread = a.currentThread → Emits a.currentThread type a.toCore b.toCore → enabler b.log = enabler a.log →
      TraceStep a b
  | begins {u : Ptr} : u ∈ a.glob → ¬ Runs u a → (∀ t, Runs t b ↔ Runs t a ∨ t = u) → b.currentThread = u →
      Emits u .run a.toCore b.toCore → enabler b.log = enabler a.log → .disp u (a.idClash u) ∈ b.log → TraceStep a b
  | enable : (∀ t, Runs t b ↔ Runs t a) → b.currentThread = a.currentThread → b.tr = a.enableTrace.tr →
      b.emitters = [] → enabler b.log = some a.currentThread → TraceStep a b

theorem runs_update {st : TState} (hglob : b.glob = a.glob) (hst : b.tcb.state = Function.update a.tcb.state u st)
    (hu : a.tcb.state u ≠ .running) (hne : st ≠ .running) (t : Ptr) : Runs t b ↔ Runs t a := by
  unfold Runs
  rw [hglob, hst]
  by_cases ht : t = u
  · subst ht
    rw [Function.update_self]
    simp [hu, hne]
  · rw [Function.update_of_ne ht]

theorem runs_leave {st : TState} (hglob : b.glob = a.glob)
    (hst : b.tcb.state = Function.update a.tcb.state a.currentThread st) (hne : st ≠ .running) (t : Ptr) :
    Runs t b ↔ Runs t a ∧ t ≠ a.currentThread := by
  unfold Runs
  rw [hglob, hst]
  by_cases ht : t = a.currentThread
  · subst ht
    rw [Function.update_self]
    simp [hne]
  · rw [Function.update_of_ne ht]
    simp [ht]

theorem Prim.traceStep (hi : Inv a) (hp : Prim a b) : TraceStep a b := by
  have same : ∀ t, Runs t a ↔ Runs t a := fun _ => Iff.rfl
  cases hp with
  | quiet hq =>
    cases hq with
    | traceOff => exact .quiet same rfl (.inr rfl) rfl rfl
    | _ => exact .quiet same rfl (.inl rfl) rfl rfl
  | traceOn => exact .enable same rfl rfl rfl rfl
  | @reap u hg hf hc =>
    refine .quiet (fun t => ?_) rfl (.inl rfl) rfl ?_
    · unfold Runs
      by_cases ht : t = u
      · subst ht
        have hne : a.tcb.state t ≠ .running := by simp [hf]
        exact ⟨fun h => absurd h.2 hne, fun h => absurd h.2 hne⟩
      · exact and_congr_left' (List.mem_erase_of_ne ht)
    · change enabler (.freed u _ _ :: (Core.freeGuardedStack u a.toCore).log) = _
      unfold Core.freeGuardedStack
      split <;> rfl
  | @ioWake u fd dir hr =>
    have hu := hi.reg hr
    exact .instant u _ rfl (hi.lt u hu.1) (runs_update rfl rfl (by simp [hu.2.1]) (by simp)) rfl
      (.of_emit (d := (a.epollCtlDel (a.tcb.ioFd u)).setState u .ready) rfl rfl (le_refl _) rfl rfl rfl rfl rfl) rfl
  | @sleepWake u hu =>
    exact .instant u _ rfl (hi.lt u (hi.live hu)) (runs_update rfl rfl (by simp [hi.state hu, QId.state]) (by simp)) rfl
      (.of_emit (d := (a.setSleepUntil u 0).setState u .ready) rfl rfl (le_refl _) rfl rfl rfl rfl rfl) rfl
  | preempt hr =>
    exact .ends .yield rfl ⟨hi.cur, hr⟩ (runs_leave rfl rfl (by simp)) rfl
      (.of_emit (d := a.setState a.currentThread .ready) rfl rfl (le_refl _) rfl rfl rfl rfl rfl) rfl
  | @switch u hp hf =>
    have hu := mem_of_pick (fun _ hu => hi.state hu) hp
    have hst := hi.state hu
    refine .begins (hi.live hu) (fun h => ?_) (fun t => ?_) rfl
      (.of_emit (d := { a.toCore with currentThread := u }.setState u .running) rfl rfl (le_refl _) rfl rfl rfl rfl rfl) rfl
      List.mem_cons_self
    · have hr := h.2
      rw [hst] at hr
      cases hr
    · unfold Runs
      by_cases ht : t = u
      · subst ht
        exact ⟨fun _ => .inr rfl, fun _ => ⟨hi.live hu, switch_state_self⟩⟩
      · rw [switch_state_ne ht]
        simp [Abs.switch, Abs.on, ht]
  | @create prio hr =>
    refine .instant a.brk .create rfl (Nat.lt_succ_self _) (fun t => ?_) rfl
      (.of_emit (d := ((a.allocTcb prio).makeContext a.brk).note (.enq a.brk)) rfl rfl (le_refl _) rfl rfl rfl rfl rfl) rfl
    unfold Runs
    by_cases ht : t = a.brk
    · subst ht
      rw [create_state_self]
      constructor
      · intro h
        cases h.2
      · intro h
        exact absurd (hi.lt _ h.1) (lt_irrefl _)
    · rw [create_state_ne ht]
      simp [Abs.create, Abs.on, ht]
  | createFail =>
    refine .quiet (fun t => ?_) rfl (.inl rfl) rfl rfl
    unfold Runs
    refine and_congr_right fun ht => ?_
    change Function.update a.tcb.state a.brk .ready t = _ ↔ _
    rw [Function.update_of_ne (hi.lt t ht).ne]
  | finish hr =>
    exact .ends .exit rfl ⟨hi.cur, hr⟩ (runs_leave rfl rfl (by simp)) rfl
      (.of_emit (d := (a.setState a.currentThread .finished).note (.finished a.currentThread)) rfl rfl (le_refl _) rfl
        rfl rfl rfl rfl) rfl
  | @block w fs hr =>
    exact .ends .block rfl ⟨hi.cur, hr⟩ (runs_leave rfl rfl (by simp)) rfl
      (.of_emit (d := (a.setFrames fs).setState a.currentThread .blocked) rfl rfl (le_refl _) rfl rfl rfl rfl rfl) rfl
  | @unlockHandoff m fs t ts hr hs hq | @postHandoff sm fs t ts hr hs hq =>
    have ht := hi.state (hq ▸ List.mem_cons_self : t ∈ a.q (.wait _))
    refine .instant t .unblock rfl (hi.lt t (hi.live (hq ▸ List.mem_cons_self : t ∈ a.q (.wait _))))
      (runs_update rfl rfl (by simp [ht, QId.state]) (by simp)) rfl ?_ rfl
    exact .of_emit (d := (a.setFrames fs).setState t .ready) rfl rfl (le_refl _) rfl rfl rfl rfl rfl
  | @sleep ms fs hr hf =>
    exact .ends .sleep rfl ⟨hi.cur, hr⟩ (runs_leave rfl rfl (by simp)) rfl
      (.of_emit (d := (((a.note (.sleepCall a.currentThread (ms % 2 ^ 32) a.getTimeNs)).tickClock).setSleepUntil
        a.currentThread ((a.getTimeNs + (ms % 2 ^ 32) * 1000000) % 2 ^ 64)).setState a.currentThread .ioBlocked) rfl rfl
        (Nat.le_succ _) rfl rfl rfl rfl rfl) rfl
  | @ioBlock env fd dir fs hr hf =>
    exact .ends .ioBlock rfl ⟨hi.cur, hr⟩ (runs_leave rfl rfl (by simp)) rfl
      (.of_emit (d := ((a.setIoFd a.currentThread fd).setIoEvents a.currentThread dir).setState a.currentThread .ioBlocked)
        rfl rfl (le_refl _) rfl rfl rfl rfl rfl) rfl
  | chan hr hid hc => cases hc <;> exact .quiet same rfl (.inl rfl) rfl rfl
  | _ => exact .quiet same rfl (.inl rfl) rfl rfl

structure Ages (a b : Abs) : Prop where
  ids : ∀ t < a.brk, b.tcb.threadId t = a.tcb.threadId t
  brk : a.brk ≤ b.brk
  readings : a.readings ≤ b.readings
  clock : b.clock = a.clock

theorem Prim.ages (hp : Prim a b) : Ages a b := by
  have still : ∀ t < a.brk, a.tcb.threadId t = a.tcb.threadId t := fun _ _ => rfl
  have alloc : ∀ t < a.brk, Function.update a.tcb.threadId a.brk a.nextThreadId t = a.tcb.threadId t := fun t ht =>
    Function.update_of_ne ht.ne ..
  cases hp with
  | quiet hq =>
    cases hq with
    | tickClock => exact ⟨still, le_refl _, Nat.le_succ _, rfl⟩
    | _ => exact ⟨still, le_refl _, le_refl _, rfl⟩
  | create => exact ⟨alloc, Nat.le_succ _, le_emit _, rfl⟩
  | createFail => exact ⟨alloc, Nat.le_succ _, le_refl _, rfl⟩
  | ioWake | sleepWake | preempt | switch | finish | block | unlockHandoff | postHandoff | ioBlock =>
    exact ⟨still, le_refl _, le_emit _, rfl⟩
  | sleep => exact ⟨still, le_refl _, (Nat.le_succ _).trans (le_emit a.toCore.tickClock), rfl⟩
  | chan hr hid hc => cases hc <;> exact ⟨still, le_refl _, le_refl _, rfl⟩
  | _ => exact ⟨still, le_refl _, le_refl _, rfl⟩

/-! ## The invariant -/

/-- Another RUNNING thread has the id of the one that is dispatched. -/
def Event.clashes : Event → Bool
  | .disp _ clash => clash
  | _ => false

/-- The first mark of an id, if it is an end mark, is one of `t`. -/
def FirstBy (t : Option Ptr) (p : Ptr × TraceEvent) (l : List (Ptr × TraceEvent)) : Prop :=
  markOf p = .E → lastMark markOf tidOf (tidOf p) l = none → t = some p.1

structure Traced (a : Abs) : Prop where
  count : 0 ≤ a.tr.count
  bound : a.tr.count ≤ traceBufferSize
  length : a.emitters.length = a.recorded.length
  ids : ∀ p ∈ a.history, p.1 < a.brk ∧ p.2.tid = a.tcb.threadId p.1
  unique : ∀ t u, Runs t a → Runs u a → a.tcb.threadId t = a.tcb.threadId u → t = u
  sound : Bracketed markOf tidOf Prod.fst a.history
  first : Always (FirstBy (enabler a.log)) a.history
  runs : a.tr.records = true → ∀ x p, opened markOf tidOf x a.history = some p → Runs p.1 a
  rests : a.tr.records = true → ∀ x p, lastMark markOf tidOf x a.history = some p → markOf p = .E →
    ∀ t, Runs t a → a.tcb.threadId t ≠ x
  enabled : a.tr.records = true → Runs a.currentThread a →
    lastMark markOf tidOf (a.tcb.threadId a.currentThread) a.history = none → enabler a.log = some a.currentThread

theorem Trace.recorded_store {tr : Trace} {e : TraceEvent} (hr : tr.records = true) (hn : 0 ≤ tr.count) :
    (tr.store e).recorded = e :: tr.recorded := by
  obtain ⟨n, hn⟩ := Int.eq_ofNat_of_zero_le hn
  unfold Trace.recorded
  cases hb : tr.buffer with
  | none =>
    unfold Trace.records at hr
    rw [hb] at hr
    simp at hr
  | some buf =>
    have hs : (tr.store e).buffer = some (Function.update buf n e) := by simp [Trace.store, hb, hn]
    have hc : (tr.store e).count.toNat = n + 1 := by simp [Trace.store, hn]
    rw [hs, hc, hn]
    simp only [stored, Function.update_self, Int.toNat_natCast]
    rw [stored_update (le_refl _)]

theorem recorded_store {e : TraceEvent} (hr : c.tr.records = true) (hn : 0 ≤ c.tr.count) (h : c'.tr = c.tr.store e) :
    c'.recorded = e :: c.recorded := by
  have hs := Trace.recorded_store (e := e) hr hn
  rw [← h] at hs
  exact hs

theorem history_store {e : TraceEvent} (hr : c.tr.records = true) (hn : 0 ≤ c.tr.count) (h : c'.tr = c.tr.store e)
    (hem : c'.emitters = t :: c.emitters) : c'.history = (t, e) :: c.history := by
  unfold Core.history
  rw [hem, recorded_store hr hn h]
  rfl

theorem history_same (h : c'.tr.buffer = c.tr.buffer) (hc : c'.tr.count = c.tr.count) (hem : c'.emitters = c.emitters) :
    c'.history = c.history ∧ c'.recorded = c.recorded := by
  unfold Core.history Core.recorded
  rw [h, hc, hem]
  exact ⟨rfl, rfl⟩

theorem Traced.keep (hi : Inv a) (h : Traced a) (hg : Ages a b) (hbuf : b.tr.buffer = a.tr.buffer)
    (hcount : b.tr.count = a.tr.count) (hem : b.emitters = a.emitters) (hlog : enabler b.log = enabler a.log)
    (hu : ∀ t u, Runs t b → Runs u b → b.tcb.threadId t = b.tcb.threadId u → t = u)
    (hrec : b.tr.records = true → a.tr.records = true ∧ (∀ t, Runs t b ↔ Runs t a) ∧ b.currentThread = a.currentThread) :
    Traced b := by
  obtain ⟨hh, hr⟩ := history_same hbuf hcount hem
  have hid : ∀ {t}, Runs t a → b.tcb.threadId t = a.tcb.threadId t := fun ht => hg.ids _ (hi.lt _ ht.1)
  refine
    { count := by rw [hcount]; exact h.count
      bound := by rw [hcount]; exact h.bound
      length := by rw [hem, hr]; exact h.length
      ids := ?_
      unique := hu
      sound := by rw [hh]; exact h.sound
      first := by rw [hh, hlog]; exact h.first
      runs := fun hb x p hp => ?_
      rests := fun hb x p hp hE t ht => ?_
      enabled := fun hb hc hl => ?_ }
  · rw [hh]
    intro p hp
    obtain ⟨hlt, htid⟩ := h.ids p hp
    exact ⟨hlt.trans_le hg.brk, by rw [hg.ids _ hlt]; exact htid⟩
  · obtain ⟨ha, hruns, -⟩ := hrec hb
    rw [hh] at hp
    exact (hruns _).mpr (h.runs ha x p hp)
  · obtain ⟨ha, hruns, -⟩ := hrec hb
    rw [hh] at hp
    have ht := (hruns t).mp ht
    rw [hid ht]
    exact h.rests ha x p hp hE t ht
  · obtain ⟨ha, hruns, hcur⟩ := hrec hb
    have hc := (hruns _).mp hc
    rw [hh, hid hc, hcur] at hl
    rw [hlog, hcur]
    exact h.enabled ha (hcur ▸ hc) hl

theorem Traced.skip (hi : Inv a) (h : Traced a) (hg : Ages a b) (hr : a.tr.records = false) (htr : b.tr = a.tr)
    (hem : b.emitters = a.emitters) (hlog : enabler b.log = enabler a.log)
    (hu : ∀ t u, Runs t b → Runs u b → b.tcb.threadId t = b.tcb.threadId u → t = u) : Traced b :=
  h.keep hi hg (by rw [htr]) (by rw [htr]) hem hlog hu fun hb => by
    rw [htr, hr] at hb
    cases hb

theorem Traced.tid_of_last (h : Traced a) {x : Int} {p : Ptr × TraceEvent} (hl : lastMark markOf tidOf x a.history = some p) : a.tcb.threadId p.1 = x := by
  rw [← (h.ids p (mem_of_lastMark hl)).2]
  exact (key_of_lastMark hl).1

section
variable (hi : Inv a) (h : Traced a) (hg : Ages a b) (hlog : enabler b.log = enabler a.log)
  (hu : ∀ t u, Runs t b → Runs u b → b.tcb.threadId t = b.tcb.threadId u → t = u)
include hi h hg hlog hu

omit hi in
theorem Traced.store {e : TraceEvent} (hr : a.tr.records = true) (htr : b.tr = a.tr.store e)
    (hem : b.emitters = t :: a.emitters) (ht : t < b.brk) (htid : e.tid = b.tcb.threadId t)
    (hm : Matched markOf tidOf Prod.fst (t, e) a.history) (hf : FirstBy (enabler a.log) (t, e) a.history)
    (hopen : ∀ x p, opened markOf tidOf x ((t, e) :: a.history) = some p → Runs p.1 b)
    (hend : ∀ x p, lastMark markOf tidOf x ((t, e) :: a.history) = some p → markOf p = .E →
      ∀ u, Runs u b → b.tcb.threadId u ≠ x)
    (hen : Runs b.currentThread b → lastMark markOf tidOf (b.tcb.threadId b.currentThread) ((t, e) :: a.history) = none →
      enabler a.log = some b.currentThread) : Traced b := by
  have hh := history_store hr h.count htr hem
  refine
    { count := ?_
      bound := ?_
      length := ?_
      ids := ?_
      unique := hu
      sound := by rw [hh]; exact ⟨hm, h.sound⟩
      first := by rw [hh, hlog]; exact ⟨hf, h.first⟩
      runs := fun _ => by rw [hh]; exact hopen
      rests := fun _ => by rw [hh]; exact hend
      enabled := fun _ => by rw [hh, hlog]; exact hen }
  · rw [htr]
    have := h.count
    change 0 ≤ a.tr.count + 1
    omega
  · rw [htr]
    have hlt : a.tr.count < traceBufferSize := by
      unfold Trace.records at hr
      simp only [Bool.and_eq_true, decide_eq_true_eq] at hr
      exact hr.2
    change a.tr.count + 1 ≤ traceBufferSize
    omega
  · rw [hem, recorded_store hr h.count htr, List.length_cons, List.length_cons, h.length]
  · rw [hh]
    intro p hp
    rcases List.mem_cons.mp hp with rfl | hp
    · exact ⟨ht, htid⟩
    · obtain ⟨hlt, hid⟩ := h.ids p hp
      exact ⟨hlt.trans_le hg.brk, by rw [hg.ids _ hlt]; exact hid⟩

theorem Traced.instant (hp : type.phase = .i) (ht : t < b.brk) (hruns : ∀ t, Runs t b ↔ Runs t a)
    (hcur : b.currentThread = a.currentThread) (hem : Emits t type a.toCore b.toCore) : Traced b := by
  have hid : ∀ {u}, Runs u b → b.tcb.threadId u = a.tcb.threadId u := fun hb => hg.ids _ (hi.lt _ ((hruns _).mp hb).1)
  cases hem with
  | skip hr htr hem => exact h.skip hi hg hr htr hem hlog hu
  | @stored j hr hj hj' htr hem =>
    let p₀ : Ptr × TraceEvent := (t, ⟨b.tcb.threadId t, type, a.clock j % 2 ^ 64, 0⟩)
    have hp₀ : markOf p₀ = .i := hp
    have hlast : ∀ x, lastMark markOf tidOf x (p₀ :: a.history) = lastMark markOf tidOf x a.history := fun x =>
      lastMark_skip fun _ => hp₀
    have hopen : ∀ x, opened markOf tidOf x (p₀ :: a.history) = opened markOf tidOf x a.history := fun x =>
      opened_skip fun _ => hp₀
    refine h.store hg hlog hu hr htr hem ht rfl ⟨fun hB => ?_, fun hE => ?_⟩ (fun hE => ?_) ?_ ?_ ?_
    · exact absurd (hp₀.symm.trans hB) (by simp)
    · exact absurd (hp₀.symm.trans hE) (by simp)
    · exact absurd (hp₀.symm.trans hE) (by simp)
    · intro x p hx
      rw [hopen] at hx
      exact (hruns _).mpr (h.runs hr x p hx)
    · intro x p hx hE u hu
      rw [hlast] at hx
      rw [hid hu]
      exact h.rests hr x p hx hE u ((hruns u).mp hu)
    · intro hb hl
      rw [hlast, hid hb, hcur] at hl
      rw [hcur]
      exact h.enabled hr (hcur ▸ (hruns _).mp hb) hl

theorem Traced.ends (hp : type.phase = .E) (hc : Runs a.currentThread a)
    (hruns : ∀ t, Runs t b ↔ Runs t a ∧ t ≠ a.currentThread) (hcur : b.currentThread = a.currentThread)
    (hem : Emits a.currentThread type a.toCore b.toCore) : Traced b := by
  have hid : ∀ {u}, Runs u a → b.tcb.threadId u = a.tcb.threadId u := fun ha => hg.ids _ (hi.lt _ ha.1)
  cases hem with
  | skip hr htr hem => exact h.skip hi hg hr htr hem hlog hu
  | @stored j hr hj hj' htr hem =>
    let p₀ : Ptr × TraceEvent := (a.currentThread, ⟨b.tcb.threadId a.currentThread, type, a.clock j % 2 ^ 64, 0⟩)
    have hp₀ : markOf p₀ = .E := hp
    have htid : tidOf p₀ = a.tcb.threadId a.currentThread := hid hc
    have hother : ∀ {x}, x ≠ tidOf p₀ → lastMark markOf tidOf x (p₀ :: a.history) = lastMark markOf tidOf x a.history :=
      fun hx => lastMark_skip fun e => absurd e.symm hx
    refine h.store hg hlog hu hr htr hem ((hi.lt _ hc.1).trans_le hg.brk) rfl ⟨fun hB => ?_, fun _ => ?_⟩ (fun _ hl => ?_) ?_ ?_ ?_
    · exact absurd (hp₀.symm.trans hB) (by simp)
    · -- the mark it ends is the begin mark of the running thread
      change lastMark markOf tidOf (tidOf p₀) a.history = none ∨ ∃ b, opened markOf tidOf (tidOf p₀) a.history = some b ∧ _
      rw [htid]
      cases hl : lastMark markOf tidOf (a.tcb.threadId a.currentThread) a.history with
      | none => exact .inl rfl
      | some p =>
        right
        have hpm := (key_of_lastMark hl).2
        cases hph : markOf p with
        | B =>
          have ho := opened_eq.mpr ⟨hl, hph⟩
          exact ⟨p, ho, h.unique _ _ (h.runs hr _ _ ho) hc (h.tid_of_last hl)⟩
        | E => exact absurd rfl (h.rests hr _ p hl hph _ hc)
        | i => exact absurd hph hpm
    · have hl : lastMark markOf tidOf (tidOf p₀) a.history = none := hl
      rw [htid] at hl
      exact h.enabled hr hc hl
    · intro x p hx
      by_cases hxe : x = tidOf p₀
      · rw [hxe] at hx
        have hnone : opened markOf tidOf (tidOf p₀) (p₀ :: a.history) = none := opened_end rfl hp₀
        cases hnone.symm.trans hx
      · obtain ⟨hl, hB⟩ := opened_eq.mp hx
        have hl := (hother hxe).symm.trans hl
        refine (hruns _).mpr ⟨h.runs hr x p (opened_eq.mpr ⟨hl, hB⟩), fun he => hxe ?_⟩
        rw [htid, ← he]
        exact (h.tid_of_last hl).symm
    · intro x p hx hE u hu
      obtain ⟨hua, huc⟩ := (hruns u).mp hu
      rw [hid hua]
      by_cases hxe : x = tidOf p₀
      · rw [hxe, htid]
        exact fun he => huc (h.unique _ _ hua hc he)
      · exact h.rests hr x p ((hother hxe).symm.trans hx) hE u hua
    · intro hb
      exact absurd hcur ((hruns _).mp hb).2

theorem Traced.begins {u : Ptr} (hg' : u ∈ a.glob) (hn : ¬ Runs u a) (hruns : ∀ t, Runs t b ↔ Runs t a ∨ t = u)
    (hcur : b.currentThread = u) (hclash : ∀ t, Runs t a → a.tcb.threadId t ≠ a.tcb.threadId u)
    (hem : Emits u .run a.toCore b.toCore) : Traced b := by
  have hid : ∀ {t}, t ∈ a.glob → b.tcb.threadId t = a.tcb.threadId t := fun ht => hg.ids _ (hi.lt _ ht)
  cases hem with
  | skip hr htr hem => exact h.skip hi hg hr htr hem hlog hu
  | @stored j hr hj hj' htr hem =>
    let p₀ : Ptr × TraceEvent := (u, ⟨b.tcb.threadId u, .run, a.clock j % 2 ^ 64, 0⟩)
    have hp₀ : markOf p₀ = .B := rfl
    have htid : tidOf p₀ = a.tcb.threadId u := hid hg'
    have hother : ∀ {x}, x ≠ tidOf p₀ → lastMark markOf tidOf x (p₀ :: a.history) = lastMark markOf tidOf x a.history :=
      fun hx => lastMark_skip fun e => absurd e.symm hx
    refine h.store hg hlog hu hr htr hem ((hi.lt _ hg').trans_le hg.brk) rfl ⟨fun _ => ?_, fun hE => ?_⟩ (fun hE => ?_) ?_ ?_ ?_
    · -- an open mark is one of another RUNNING thread
      change opened markOf tidOf (tidOf p₀) a.history = none
      rw [htid]
      cases ho : opened markOf tidOf (a.tcb.threadId u) a.history with
      | none => rfl
      | some p => exact absurd (h.tid_of_last (opened_eq.mp ho).1) (hclash _ (h.runs hr _ _ ho))
    · exact absurd (hp₀.symm.trans hE) (by simp)
    · exact absurd (hp₀.symm.trans hE) (by simp)
    · intro x p hx
      by_cases hxe : x = tidOf p₀
      · rw [hxe] at hx
        have hself : opened markOf tidOf (tidOf p₀) (p₀ :: a.history) = some p₀ := opened_begin rfl hp₀
        cases hself.symm.trans hx
        exact (hruns u).mpr (.inr rfl)
      · obtain ⟨hl, hB⟩ := opened_eq.mp hx
        exact (hruns _).mpr (.inl (h.runs hr x p (opened_eq.mpr ⟨(hother hxe).symm.trans hl, hB⟩)))
    · intro x p hx hE t ht
      by_cases hxe : x = tidOf p₀
      · rw [hxe] at hx
        have hself : lastMark markOf tidOf (tidOf p₀) (p₀ :: a.history) = some p₀ := lastMark_mark rfl (by simp [hp₀])
        cases hself.symm.trans hx
        exact absurd (hp₀.symm.trans hE) (by simp)
      · rcases (hruns t).mp ht with hta | rfl
        · rw [hid hta.1]
          exact h.rests hr x p ((hother hxe).symm.trans hx) hE t hta
        · exact fun he => hxe he.symm
    · intro _ hl
      rw [hcur] at hl
      have hself : lastMark markOf tidOf (tidOf p₀) (p₀ :: a.history) = some p₀ := lastMark_mark rfl (by simp [hp₀])
      cases hself.symm.trans hl

end

theorem Traced.of_enable (hcur : b.currentThread = a.currentThread)
    (htr : b.tr = a.enableTrace.tr) (hem : b.emitters = []) (hlog : enabler b.log = some a.currentThread)
    (hu : ∀ t u, Runs t b → Runs u b → b.tcb.threadId t = b.tcb.threadId u → t = u) : Traced b := by
  have hh : b.history = [] := by
    unfold Core.history
    rw [hem]
    rfl
  have hr : b.recorded = [] := by
    unfold Core.recorded
    rw [htr]
    rfl
  exact
    { count := by rw [htr]; exact le_refl _
      bound := by rw [htr]; exact (by decide : (0 : Int) ≤ traceBufferSize)
      length := by rw [hem, hr]; rfl
      ids := by rw [hh]; simp
      unique := hu
      sound := by rw [hh]; exact .nil
      first := by rw [hh]; exact .nil
      runs := fun _ x p hp => by rw [hh] at hp; cases hp
      rests := fun _ x p hp => by rw [hh] at hp; cases hp
      enabled := fun _ _ _ => by rw [hlog, hcur] }

theorem no_clash {u : Ptr} (hi : Inv a) (hn : ¬ Runs u a) (hc : a.idClash u = false) (ht : Runs t a) :
    a.tcb.threadId t ≠ a.tcb.threadId u := by
  intro he
  unfold Core.idClash at hc
  rw [List.any_eq_false] at hc
  have hne : t ≠ u := by
    rintro rfl
    exact hn ht
  exact hc t (List.mem_range.mpr (hi.lt t ht.1)) (by simpa using ⟨hne, ht.2, he⟩)

theorem Prim.traced (hi : Inv a) (h : Traced a) (hp : Prim a b) (hok : ∀ e ∈ b.log, e.clashes = false) : Traced b := by
  have hg := hp.ages
  have hid : ∀ {t}, Runs t a → b.tcb.threadId t = a.tcb.threadId t := fun ha => hg.ids _ (hi.lt _ ha.1)
  have hu : ∀ {t u}, Runs t a → Runs u a → b.tcb.threadId t = b.tcb.threadId u → t = u := by
    intro t u ht hu he
    rw [hid ht, hid hu] at he
    exact h.unique t u ht hu he
  have hsame : (∀ t, Runs t b ↔ Runs t a) → ∀ t u, Runs t b → Runs u b → b.tcb.threadId t = b.tcb.threadId u → t = u :=
    fun hruns t u ht hu' => hu ((hruns t).mp ht) ((hruns u).mp hu')
  cases hp.traceStep hi with
  | quiet hruns hcur htr hem hlog =>
    have hbuf : b.tr.buffer = a.tr.buffer := by rcases htr with htr | htr <;> rw [htr]
    have hcount : b.tr.count = a.tr.count := by rcases htr with htr | htr <;> rw [htr]
    refine h.keep hi hg hbuf hcount hem hlog (hsame hruns) fun hb => ⟨?_, hruns, hcur⟩
    rcases htr with htr | htr
    · rw [htr] at hb
      exact hb
    · rw [htr] at hb
      cases hb
  | instant _ _ hph ht hruns hcur hem hlog => exact h.instant hi hg hlog (hsame hruns) hph ht hruns hcur hem
  | ends _ hph hc hruns hcur hem hlog =>
    exact h.ends hi hg hlog (fun t u ht hu' => hu ((hruns t).mp ht).1 ((hruns u).mp hu').1) hph hc hruns hcur hem
  | @begins u hug hn hruns hcur hem hlog hdisp =>
    have hcl : ∀ t, Runs t a → a.tcb.threadId t ≠ a.tcb.threadId u := fun t => no_clash hi hn (hok _ hdisp)
    have hidu : b.tcb.threadId u = a.tcb.threadId u := hg.ids _ (hi.lt _ hug)
    refine h.begins hi hg hlog (fun t v ht hv he => ?_) hug hn hruns hcur hcl hem
    rcases (hruns t).mp ht with ht | rfl <;> rcases (hruns v).mp hv with hv | rfl
    · exact hu ht hv he
    · rw [hid ht, hidu] at he
      exact absurd he (hcl t ht)
    · rw [hidu, hid hv] at he
      exact absurd he.symm (hcl v hv)
    · rfl
  | enable hruns hcur htr hem hlog => exact .of_enable hcur htr hem hlog (hsame hruns)

/-! ## Time stamps -/

structure Stamped (c : Core) : Prop where
  sorted : c.recorded.Pairwise fun x y => y.timestampNs ≤ x.timestampNs
  past : ∀ e ∈ c.recorded, ∀ i, c.readings ≤ i → e.timestampNs ≤ c.clock i % 2 ^ 64

theorem Stamped.same (h : Stamped c) (hr : c'.recorded = c.recorded) (hread : c.readings ≤ c'.readings)
    (hclk : c'.clock = c.clock) : Stamped c' where
  sorted := by rw [hr]; exact h.sorted
  past := by
    rw [hr, hclk]
    intro e he i hi
    exact h.past e he i (hread.trans hi)

theorem Stamped.emits (h : Stamped c) (hm : Monotone fun i => c.clock i % 2 ^ 64) (hn : 0 ≤ c.tr.count)
    (hread : c.readings ≤ c'.readings) (hclk : c'.clock = c.clock) (hem : Emits t type c c') : Stamped c' := by
  cases hem with
  | skip _ htr hem =>
    have hr : c'.recorded = c.recorded := (history_same (by rw [htr]) (by rw [htr]) hem).2
    exact h.same hr hread hclk
  | stored hr hj hj' htr =>
    have hs := recorded_store hr hn htr
    refine ⟨?_, ?_⟩
    · rw [hs]
      exact List.pairwise_cons.mpr ⟨fun e he => h.past e he _ hj, h.sorted⟩
    · rw [hs, hclk]
      intro e he i hi
      rcases List.mem_cons.mp he with rfl | he
      · exact hm (hj'.le.trans hi)
      · exact h.past e he i (hread.trans hi)

theorem Prim.stamped (hi : Inv a) (hn : 0 ≤ a.tr.count) (h : Stamped a.toCore) (hm : Monotone fun i => a.clock i % 2 ^ 64)
    (hp : Prim a b) : Stamped b.toCore := by
  have hg := hp.ages
  cases hp.traceStep hi with
  | quiet _ _ htr hem =>
    refine h.same ?_ hg.readings hg.clock
    rcases htr with htr | htr <;> exact (history_same (by rw [htr]) (by rw [htr]) hem).2
  | instant _ _ _ _ _ _ hem => exact h.emits hm hn hg.readings hg.clock hem
  | ends _ _ _ _ _ hem => exact h.emits hm hn hg.readings hg.clock hem
  | begins _ _ _ _ hem => exact h.emits hm hn hg.readings hg.clock hem
  | enable _ _ htr =>
    have hr : b.recorded = [] := by
      unfold Core.recorded
      rw [htr]
      rfl
    exact ⟨by rw [hr]; exact .nil, by rw [hr]; simp⟩

/-! ## Runs -/

theorem traced_init (clock : Nat → Nat) (epollFd : Fd) (avail : Fd × IoDir → Bool) :
    Traced (initAbs clock epollFd avail) ∧ Stamped (initAbs clock epollFd avail).toCore := by
  refine ⟨⟨le_refl _, (by decide : (0 : Int) ≤ traceBufferSize), rfl, by simp [initAbs, Sys.abs, Sys.uthreadInit, Core.history], ?_, .nil, .nil, ?_, ?_, ?_⟩, .nil, ?_⟩
  · intro t u ht hu _
    rw [List.mem_singleton.mp ht.1, List.mem_singleton.mp hu.1]
  · intro hr
    cases hr
  · intro hr
    cases hr
  · intro hr
    cases hr
  · intro e he
    cases he

theorem reachable_traced (h : Sys.Reachable s) (hok : ∀ e ∈ s.log, e.clashes = false) :
    ∃ q g, Sim s q g ∧ Traced (s.abs q g) ∧ (Monotone (fun i => s.clock i % 2 ^ 64) → Stamped s.toCore) := by
  have h0 : ∀ c fd v, (∀ e ∈ (initAbs c fd v).log, e.clashes = false) → Traced (initAbs c fd v) ∧
      (Monotone (fun i => (initAbs c fd v).clock i % 2 ^ 64) → Stamped (initAbs c fd v).toCore) := by
    intro c fd v _
    exact ⟨(traced_init c fd v).1, fun _ => (traced_init c fd v).2⟩
  have hstep : ∀ a b, Inv a → ((∀ e ∈ a.log, e.clashes = false) → Traced a ∧
      (Monotone (fun i => a.clock i % 2 ^ 64) → Stamped a.toCore)) → Prim a b → (∀ e ∈ b.log, e.clashes = false) →
      Traced b ∧ (Monotone (fun i => b.clock i % 2 ^ 64) → Stamped b.toCore) := by
    intro a b hi ha hp hok
    obtain ⟨es, hlog⟩ := (hp.sync hi).log
    obtain ⟨ht, hst⟩ := ha fun e he => hok e (by rw [hlog]; exact List.mem_append_right _ he)
    refine ⟨hp.traced hi ht hok, fun hm => ?_⟩
    rw [hp.ages.clock] at hm
    exact hp.stamped hi ht.count (hst hm) hm
  obtain ⟨q, g, hs, -, hi⟩ := reachable_inv h0 hstep h
  exact ⟨q, g, hs, hi hok⟩

end Uthread
