import Uthread.Mn.Collect
import Uthread.Mn.Tickets
import Uthread.Viewer

/-!
# The chart of an M:N run

A virtual processor emits a begin event when it dispatches a thread, and the
thread an end event when it stops. The begin events that are open are thus
those of the threads on the processors, one for each core at most.
-/

namespace Uthread

open Linked Spans History

variable {c c' : MnCore} {m m' : Mn Lists} {s s' : Mn MnLinks} {a : MnAct} {t : Ptr} {u v : VpId} {type : TraceEventType}
  {core : Int} {now : Nat} {pc : Pc}

/-- Between the begin event of `current_thread` and its end event. -/
def Pc.onChart : Pc → Bool
  | .dispatchTrace _ | .yieldEnq | .appendRead _ | .append _ _ | .sleepPush | .ioAdd _ _ => false
  | .exitTrace => true
  | pc => pc.own.isSome

def MnCore.charted (c : MnCore) (v : VpId) : Option Ptr := if (c.pc v).onChart then c.current v else none

theorem charted_congr (hp : c'.pc v = c.pc v) (hc : c'.current v = c.current v) : c'.charted v = c.charted v := by
  unfold MnCore.charted
  rw [hp, hc]

theorem charted_on (hpc : c.pc v = pc) (hon : pc.onChart = true) : c.charted v = c.current v := by
  unfold MnCore.charted
  rw [hpc, if_pos hon]

theorem charted_off (hpc : c.pc v = pc) (hoff : pc.onChart = false) : c.charted v = none := by
  unfold MnCore.charted
  rw [hpc, if_neg (by simp [hoff])]

theorem charted_leave : (m.leave v).charted v = none := by
  unfold Mn.leave
  split <;> simp [MnCore.charted, Pc.onChart, Pc.own]

/-! ## Steps -/

inductive ChartStep (m m' : Mn Lists) (v : VpId) (now : Nat) : Prop
  | quiet : m'.tr = m.tr → m'.charted v = m.charted v → ChartStep m m' v now
  | instant (t : Ptr) (type : TraceEventType) (core : Int) : type.phase = .i → m'.tr = (m.emit t type core now).tr →
      m'.charted v = m.charted v → ChartStep m m' v now
  | begins (t : Ptr) : m.pc v = .dispatchTrace t → m'.tr = (m.emit t .run v now).tr → m'.charted v = some t →
      ChartStep m m' v now
  | ends (t : Ptr) (type : TraceEventType) (core : Int) : type.phase = .E → m.charted v = some t →
      m'.tr = (m.emit t type core now).tr → m'.charted v = none → ChartStep m m' v now

attribute [local simp] MnCore.charted Pc.onChart Pc.own

theorem UserStep.chart (hpc : m.pc a.vp = .user) (hs : UserStep (m.on (.beginCall a.vp)) a m') : ChartStep m m' a.vp a.now := by
  cases hs with
  | mnRun hc =>
    have hc : m.current a.vp = none := hc
    exact .quiet rfl (by simp [hpc, hc])
  | _ => exact .quiet rfl (by simp [Mn.gcFinishedThreads, hpc])

theorem LoopStep.chart (hsd : Sound m) (hs : LoopStep m a m') : ChartStep m m' a.vp a.now := by
  cases hs with
  | @createFail b hpc =>
    refine .quiet ?_ ?_
    · cases b <;> rfl
    · cases b <;> simp [MnCore.allocTcb, hpc]
  | createTrace hpc => exact .instant _ .create 0 rfl rfl (by simp [hpc])
  | wakeTrace hpc => exact .instant _ .unblock 0 rfl rfl (by simp [hpc])
  | stealTrace hpc => exact .instant _ .steal a.vp rfl rfl (by simp [hpc])
  | parkTrace hpc hc => exact .ends _ .block 0 rfl ((charted_on hpc rfl).trans hc) rfl (by simp)
  | sleepTrace hpc hc => exact .ends _ .sleep 0 rfl ((charted_on hpc rfl).trans hc) rfl (by simp)
  | ioTrace hpc hc => exact .ends _ .ioBlock 0 rfl ((charted_on hpc rfl).trans hc) rfl (by simp)
  | yieldTrace hpc hc => exact .ends _ .yield a.vp rfl ((charted_on hpc rfl).trans hc) rfl (by simp)
  | exitTrace hpc hc => exact .ends _ .exit a.vp rfl ((charted_on hpc rfl).trans hc) rfl (by simp)
  | @dispatchTrace t hpc =>
    have hc := hsd.switching a.vp t (.inl hpc)
    exact .begins t hpc rfl (by simpa using hc)
  | halt hpc => exact .quiet rfl (charted_leave.trans (charted_off hpc rfl).symm)
  | dead hpc => exact .quiet rfl (charted_leave.trans (charted_off hpc rfl).symm)
  | deq hpc =>
    refine .quiet rfl ?_
    rcases hpc with hpc | hpc <;> simp [hpc]
  | readyEmpty hpc =>
    refine .quiet rfl ?_
    split <;> simp [hpc]
  | _ hpc => exact .quiet rfl (by simp [MnCore.allocTcb, Mn.gcFinishedThreads, hpc])

theorem Sound.chart (hsd : Sound m) (ht : m.Timely a.vp) (hs : m.step a = some m') : ChartStep m m' a.vp a.now ∧
    ∀ u, u ≠ a.vp → m'.charted u = m.charted u := by
  rcases Mn.step_cases hsd.placed ht hs with ⟨hpc, hst⟩ | hst
  · refine ⟨UserStep.chart hpc hst, fun u hu => ?_⟩
    obtain ⟨hp, hc, -⟩ := Mn.user_others hst hu
    exact charted_congr hp hc
  · refine ⟨hst.chart hsd, fun u hu => ?_⟩
    obtain ⟨hp, hc, -⟩ := hsd.booted.others hst hu
    rcases hp with hp | ⟨hoff, htest⟩
    · exact charted_congr hp hc
    · rw [charted_off hoff rfl, charted_off htest rfl]

theorem charted_some (ht : m.charted v = some t) : (∃ k, t ∈ m.places (.hand k v)) ∨ m.pc v = .exitTrace ∧ m.executes v = some t := by
  unfold MnCore.charted at ht
  rw [Option.ite_none_right_eq_some] at ht
  obtain ⟨hon, hc⟩ := ht
  cases hown : (m.pc v).own with
  | some k => exact .inl ⟨k, Mn.mem_own rfl hown hc⟩
  | none =>
    right
    cases hpc : m.pc v with
    | exitTrace => exact ⟨rfl, by rw [executes_of_pc (by rw [hpc]; rfl), hc]⟩
    | _ => simp [hpc] at hown hon

/-! ## Thread ids -/

/-- A thread's id is the number drawn for it, round the range of an `int`. -/
structure Identified (c : MnCore) : Prop where
  ids : ∀ {t}, c.allocated t = true → c.threadId t % 2 ^ 32 = (c.ticket t : Int) % 2 ^ 32
  next : c.nextThreadId % 2 ^ 32 = (c.drawn : Int) % 2 ^ 32

theorem Identified.shrink (h : Identified c) (ha : ∀ t, c'.allocated t = true → c.allocated t = true) (hid : c'.threadId = c.threadId)
    (ht : c'.ticket = c.ticket) (hn : c'.nextThreadId = c.nextThreadId) (hd : c'.drawn = c.drawn) : Identified c' where
  ids hal := by
    rw [hid, ht]
    exact h.ids (ha _ hal)
  next := by
    rw [hn, hd]
    exact h.next

theorem Identified.alloc (b : Bool) (h : Identified c) : Identified (c.allocTcb t b) where
  ids {x} hal := by
    by_cases hx : x = t
    · simpa [MnCore.allocTcb, hx] using h.next
    · have hal' : c.allocated x = true := by simpa [MnCore.allocTcb, hx] using hal
      simpa [MnCore.allocTcb, hx] using h.ids hal'
  next := by
    have hc : cint (c.nextThreadId + 1) % 2 ^ 32 = (c.nextThreadId + 1) % 2 ^ 32 := Int.bmod_emod
    change cint (c.nextThreadId + 1) % 2 ^ 32 = ((c.drawn + 1 : Nat) : Int) % 2 ^ 32
    rw [hc, Int.natCast_succ, Int.add_emod, h.next, ← Int.add_emod]

structure Renames (c c' : MnCore) : Prop where
  kept : ∀ {t}, c.allocated t = true → c'.threadId t = c.threadId t
  drawn : c.drawn ≤ c'.drawn

theorem Sound.identifies (hsd : Sound m) (ht : m.Timely a.vp) (h : Identified m.toMnCore) (hs : m.step a = some m') :
    Identified m'.toMnCore ∧ Renames m.toMnCore m'.toMnCore := by
  have hno : ∀ {t}, m.allocated t = true → m.allocated a.addr = false → t ≠ a.addr := by
    intro t hal hn e
    rw [← e, hal] at hn
    cases hn
  rcases Mn.step_cases hsd.placed ht hs with ⟨-, hu⟩ | hl
  · have hshrink : ∀ t, m'.allocated t = true → m.allocated t = true := by
      intro t hal
      rcases Mn.user_allocated hu t with he | ⟨hn, -⟩
      · rw [he] at hal
        exact hal
      · rw [hal] at hn
        cases hn
    refine ⟨h.shrink hshrink ?_ ?_ ?_ ?_, ⟨?_, ?_⟩⟩
    · cases hu <;> rfl
    · cases hu <;> rfl
    · cases hu <;> rfl
    · cases hu <;> rfl
    · intro t _
      cases hu <;> rfl
    · cases hu <;> exact Nat.le_refl _
  · cases hl with
    | @createFail b _ hn =>
      cases b with
      | true => exact ⟨h.shrink (fun _ => id) rfl rfl rfl rfl, fun _ => rfl, Nat.le_refl _⟩
      | false =>
        refine ⟨(h.alloc (t := a.addr) false).shrink (fun _ => id) rfl rfl rfl rfl, ?_, Nat.le_succ _⟩
        intro t hal
        simp [MnCore.allocTcb, hno hal (hn rfl)]
    | createTcb _ hn =>
      refine ⟨(h.alloc (t := a.addr) true).shrink (fun _ => id) rfl rfl rfl rfl, ?_, Nat.le_succ _⟩
      intro t hal
      simp [MnCore.allocTcb, hno hal hn]
    | stopped =>
      refine ⟨h.shrink (fun t hal => ?_) rfl rfl rfl rfl, fun _ => rfl, Nat.le_refl _⟩
      simp only [Mn.gcFinishedThreads, Mn.goto, Mn.on, MnCore.goto, Bool.and_eq_true] at hal
      exact hal.1
    | _ => exact ⟨h.shrink (fun _ => id) rfl rfl rfl rfl, fun _ => rfl, Nat.le_refl _⟩

theorem Identified.inj (h : Identified m.toMnCore) (htk : Ticketed m) (hb : m.drawn ≤ 2 ^ 32) {x y : Ptr}
    (hx : m.allocated x = true) (hy : m.allocated y = true) (he : m.threadId x = m.threadId y) : x = y := by
  have h₁ : (m.ticket x : Int) % 2 ^ 32 = (m.ticket y : Int) % 2 ^ 32 := by rw [← h.ids hx, ← h.ids hy, he]
  have hx' := Nat.lt_of_lt_of_le (htk.drawn (htk.mem hx)) hb
  have hy' := Nat.lt_of_lt_of_le (htk.drawn (htk.mem hy)) hb
  have hxy : ∀ i j : Nat, i < 2 ^ 32 → j < 2 ^ 32 → (i : Int) % 2 ^ 32 = (j : Int) % 2 ^ 32 → i = j := by
    intro i j hi hj he
    omega
  exact htk.inj hx hy (hxy _ _ hx' hy' h₁)

/-! ## The open begin events -/

namespace Trace

def drawn (tr : Trace) : List JsonEvent := tr.recorded.map TraceEvent.json

def opens (tr : Trace) (x : Int) : Option JsonEvent := opened JsonEvent.ph JsonEvent.tid x tr.drawn

theorem records_lt {tr : Trace} (hr : tr.records = true) : tr.count < traceBufferSize := by
  unfold records at hr
  simp only [Bool.and_eq_true, decide_eq_true_eq] at hr
  exact hr.2

theorem drawn_store {tr : Trace} {e : TraceEvent} (hr : tr.records = true) (hn : 0 ≤ tr.count) : (tr.store e).drawn = e.json :: tr.drawn := by
  unfold drawn
  rw [recorded_store hr hn]
  rfl

end Trace

/-- The begin events lie on different cores, and those that are open are the ones of the threads on the processors. -/
structure Charted (c : MnCore) : Prop where
  count : 0 ≤ c.tr.count
  bound : c.tr.count ≤ traceBufferSize
  laned : Always (Laned JsonEvent.ph JsonEvent.tid JsonEvent.core) c.tr.drawn
  opens : c.tr.records = true → ∀ x b, c.tr.opens x = some b → ∃ v t, c.charted v = some t ∧ c.threadId t = x ∧ b.core = v
  runs : c.tr.records = true → ∀ v t, c.charted v = some t → ∃ b, c.tr.opens (c.threadId t) = some b ∧ b.core = v

theorem emit_recorded (hr : c.tr.records = true) :
    (c.emit t type core now).tr = c.tr.store ⟨c.threadId t, type, now % 2 ^ 64, core⟩ := if_pos hr

theorem emit_dropped (hr : ¬ c.tr.records = true) : (c.emit t type core now).tr = c.tr := if_neg hr

theorem Charted.store {e : TraceEvent} (h : Charted c) (hr : c.tr.records = true) (htr : c'.tr = c.tr.store e)
    (hl : Laned JsonEvent.ph JsonEvent.tid JsonEvent.core e.json c.tr.drawn)
    (hopens : ∀ x b, opened JsonEvent.ph JsonEvent.tid x (e.json :: c.tr.drawn) = some b →
      ∃ u t, c'.charted u = some t ∧ c'.threadId t = x ∧ b.core = u)
    (hruns : ∀ u t, c'.charted u = some t → ∃ b, opened JsonEvent.ph JsonEvent.tid (c'.threadId t) (e.json :: c.tr.drawn) = some b ∧
      b.core = u) : Charted c' := by
  have hrec : c'.tr.drawn = e.json :: c.tr.drawn := by
    rw [htr]
    exact Trace.drawn_store hr h.count
  have hcount : c'.tr.count = c.tr.count + 1 := by
    rw [htr]
    rfl
  constructor
  · have := h.count
    omega
  · have := Trace.records_lt hr
    omega
  · rw [hrec]
    exact ⟨hl, h.laned⟩
  · intro _ x b hb
    unfold Trace.opens at hb
    rw [hrec] at hb
    exact hopens x b hb
  · intro _ u t ht
    unfold Trace.opens
    rw [hrec]
    exact hruns u t ht

section
variable (h : Charted c) (hother : ∀ u, u ≠ v → c'.charted u = c.charted u)
  (hid : ∀ u t, c.charted u = some t → c'.threadId t = c.threadId t)
include h hother hid

theorem Charted.silent (htr : c'.tr = c.tr) (hr : c.tr.records = true → c'.charted v = c.charted v) : Charted c' := by
  have hall : c.tr.records = true → ∀ u, c'.charted u = c.charted u := by
    intro hrec u
    by_cases hu : u = v
    · subst hu
      exact hr hrec
    · exact hother u hu
  constructor
  · rw [htr]
    exact h.count
  · rw [htr]
    exact h.bound
  · rw [htr]
    exact h.laned
  · intro hrec x b hb
    rw [htr] at hrec hb
    obtain ⟨u, t, ht, hx, hcore⟩ := h.opens hrec x b hb
    refine ⟨u, t, (hall hrec u).trans ht, ?_, hcore⟩
    rw [hid u t ht]
    exact hx
  · intro hrec u t ht
    rw [htr] at hrec
    rw [hall hrec u] at ht
    rw [htr, hid u t ht]
    exact h.runs hrec u t ht

theorem Charted.instant (hp : type.phase = .i) (htr : c'.tr = (c.emit t type core now).tr) (hv : c'.charted v = c.charted v) :
    Charted c' := by
  have hall : ∀ u, c'.charted u = c.charted u := by
    intro u
    by_cases hu : u = v
    · subst hu
      exact hv
    · exact hother u hu
  by_cases hr : c.tr.records = true
  · rw [emit_recorded hr] at htr
    have hskip : ∀ x, opened JsonEvent.ph JsonEvent.tid x ((⟨c.threadId t, type, now % 2 ^ 64, core⟩ : TraceEvent).json :: c.tr.drawn) = c.tr.opens x :=
      fun x => opened_skip fun _ => hp
    apply h.store hr htr ?_
    · intro x b hb
      rw [hskip] at hb
      obtain ⟨u, y, hy, hx, hcore⟩ := h.opens hr x b hb
      refine ⟨u, y, (hall u).trans hy, ?_, hcore⟩
      rw [hid u y hy]
      exact hx
    · intro u y hy
      rw [hall u] at hy
      rw [hskip, hid u y hy]
      exact h.runs hr u y hy
    · constructor
      · intro hB
        exact absurd (hp.symm.trans hB) (by simp)
      · intro hE
        exact absurd (hp.symm.trans hE) (by simp)
  · rw [emit_dropped hr] at htr
    exact h.silent hother hid htr fun _ => hv

theorem Charted.begins (hfree : c.charted v = none) (ht : c'.threadId t = c.threadId t)
    (hdiff : ∀ u y, c.charted u = some y → c.threadId y ≠ c.threadId t) (htr : c'.tr = (c.emit t .run v now).tr) (hv : c'.charted v = some t) : Charted c' := by
  have hne : ∀ u y, c.charted u = some y → u ≠ v := by
    intro u y hy huv
    subst huv
    rw [hfree] at hy
    cases hy
  by_cases hr : c.tr.records = true
  · rw [emit_recorded hr] at htr
    apply h.store hr htr ?_
    · intro x b hb
      obtain ⟨hx, -, rfl⟩ | ⟨-, hb⟩ := opened_cons hb
      · refine ⟨v, t, hv, ?_, rfl⟩
        rw [ht]
        exact hx
      · obtain ⟨u, y, hy, hx, hcore⟩ := h.opens hr x b hb
        refine ⟨u, y, (hother u (hne u y hy)).trans hy, ?_, hcore⟩
        rw [hid u y hy]
        exact hx
    · intro u y hy
      by_cases hu : u = v
      · subst hu
        rw [hv] at hy
        cases hy
        rw [ht]
        exact ⟨_, opened_begin rfl rfl, rfl⟩
      · rw [hother u hu] at hy
        have hskip : opened JsonEvent.ph JsonEvent.tid (c.threadId y) ((⟨c.threadId t, .run, now % 2 ^ 64, v⟩ : TraceEvent).json :: c.tr.drawn) =
            c.tr.opens (c.threadId y) := opened_skip fun hk => absurd hk.symm (hdiff u y hy)
        rw [hid u y hy, hskip]
        exact h.runs hr u y hy
    · constructor
      · intro _
        constructor
        · apply Option.eq_none_iff_forall_ne_some.mpr
          intro b hb
          obtain ⟨u, y, hy, hx, -⟩ := h.opens hr _ b hb
          exact hdiff u y hy hx
        · intro k b hb
          obtain ⟨u, y, hy, -, hcore⟩ := h.opens hr k b hb
          rw [hcore]
          intro he
          exact hne u y hy (Int.ofNat.inj he)
      · intro hE
        cases hE
  · rw [emit_dropped hr] at htr
    exact h.silent hother hid htr fun hrec => absurd hrec hr

theorem Charted.ends (hp : type.phase = .E) (ht : c.charted v = some t) (htr : c'.tr = (c.emit t type core now).tr)
    (hv : c'.charted v = none) : Charted c' := by
  by_cases hr : c.tr.records = true
  · rw [emit_recorded hr] at htr
    obtain ⟨b₀, hb₀, hcore₀⟩ := h.runs hr v t ht
    apply h.store hr htr ?_
    · intro x b hb
      obtain ⟨-, hB, -⟩ | ⟨hskip, hb⟩ := opened_cons hb
      · exact absurd (hp.symm.trans hB) (by simp)
      · obtain ⟨u, y, hy, hx, hcore⟩ := h.opens hr x b hb
        have hu : u ≠ v := by
          intro huv
          subst huv
          rw [ht] at hy
          cases hy
          exact absurd (hp.symm.trans (hskip hx)) (by simp)
        refine ⟨u, y, (hother u hu).trans hy, ?_, hcore⟩
        rw [hid u y hy]
        exact hx
    · intro u y hy
      have hu : u ≠ v := by
        intro huv
        subst huv
        rw [hv] at hy
        cases hy
      rw [hother u hu] at hy
      obtain ⟨b, hb, hcore⟩ := h.runs hr u y hy
      rw [hid u y hy]
      refine ⟨b, ?_, hcore⟩
      rw [opened_skip]
      · exact hb
      · -- one begin event of the same id is open, and it is on one core
        intro hk
        have hk : c.threadId t = c.threadId y := hk
        rw [← hk, hb₀] at hb
        cases hb
        exact absurd (Int.ofNat.inj (hcore.symm.trans hcore₀)) hu
    · constructor
      · intro hB
        exact absurd (hp.symm.trans hB) (by simp)
      · intro _
        exact ⟨b₀, hb₀⟩
  · rw [emit_dropped hr] at htr
    exact h.silent hother hid htr fun hrec => absurd hrec hr

end

/-! ## Runs -/

theorem Charted.step (h : Charted m.toMnCore) (hsd : Sound m) (htk : Ticketed m) (hb : Backed m) (hx : Exiting m)
    (hnum : Identified m.toMnCore) (hlt : m.drawn ≤ 2 ^ 32) (ht : m.Timely a.vp) (hs : m.step a = some m') :
    Charted m'.toMnCore := by
  obtain ⟨hchart, hother⟩ := hsd.chart ht hs
  obtain ⟨-, hren⟩ := hsd.identifies ht hnum hs
  have hal : ∀ u y, m.charted u = some y → m.allocated y = true := by
    intro u y hy
    rcases charted_some hy with ⟨k, hk⟩ | ⟨-, he⟩
    · exact hsd.placed.alive hk
    · exact hb u y he
  have hid : ∀ u y, m.charted u = some y → m'.threadId y = m.threadId y := fun u y hy => hren.kept (hal u y hy)
  cases hchart with
  | quiet htr hv => exact h.silent hother hid htr fun _ => hv
  | instant t type core hp htr hv => exact h.instant hother hid hp htr hv
  | begins t hpc htr hv =>
    have hheld : t ∈ m.places (.hand .held a.vp) := Mn.mem_own hpc rfl (hsd.switching a.vp t (.inl hpc))
    have hta := hsd.placed.alive hheld
    have hfree : m.charted a.vp = none := charted_off hpc rfl
    refine h.begins hother hid hfree (hren.kept hta) ?_ htr hv
    intro u y hy he
    obtain rfl := hnum.inj htk hlt (hal u y hy) hta he
    rcases charted_some hy with ⟨k, hk⟩ | ⟨hpu, he⟩
    · have hd := hsd.placed.apart.disj hheld hk
      cases hd
      rw [hfree] at hy
      cases hy
    · have hf := hx u y (.inl hpu) (executes_some he).2
      exact hsd.placed.live hheld hf
  | ends t type core hp htc htr hv => exact h.ends hother hid hp htc htr hv

structure Unmarked (tr : Trace) : Prop where
  count : 0 ≤ tr.count
  bound : tr.count ≤ traceBufferSize
  instants : ∀ ev ∈ tr.recorded, ev.type.phase = .i

theorem Start.identified (h : Start s) : Identified s.toMnCore := by
  obtain ⟨n, k, sem, tr, q, -, hc, -⟩ := h
  rw [hc]
  constructor
  · intro t ht
    have hlt : t < k := by simpa [loaded] using ht
    simp [loaded, hlt]
  · rfl

theorem Start.charted (h : Start s) (hu : Unmarked s.tr) : Charted s.toMnCore := by
  have hnone : ∀ v, s.charted v = none := by
    intro v
    obtain ⟨n, k, sem, tr, q, -, hc, -⟩ := h
    rw [hc]
    unfold MnCore.charted
    exact ite_self none
  have hinst : ∀ ev ∈ s.tr.drawn, ev.ph = .i := by
    intro ev hev
    obtain ⟨e, he, rfl⟩ := List.mem_map.mp hev
    exact hu.instants e he
  constructor
  · exact hu.count
  · exact hu.bound
  · have hl : Always (Laned JsonEvent.ph JsonEvent.tid JsonEvent.core) (s.tr.drawn ++ []) := by
      apply Always.silent Always.nil
      intro ev hev l
      have hi := hinst ev hev
      constructor
      · intro hB
        rw [hi] at hB
        cases hB
      · intro hE
        rw [hi] at hE
        cases hE
    rw [List.append_nil] at hl
    exact hl
  · intro _ x b hb
    obtain ⟨hl, hB⟩ := opened_eq.mp hb
    rw [hinst b (mem_of_lastMark hl)] at hB
    cases hB
  · intro _ v t ht
    rw [hnone] at ht
    cases ht

abbrev ChartRun : Mn MnLinks → Prop := Trans.Reach (fun s => Start s ∧ Unmarked s.tr) Mn.step fun s a => Tidy s.toMnCore a

theorem ChartRun.charted (h : ChartRun s) : MnRun Tidy s ∧ Identified s.toMnCore ∧ (s.drawn ≤ 2 ^ 32 → Charted s.toMnCore) := by
  induction h with
  | init h => exact ⟨.init h.1, h.1.identified, fun _ => h.1.charted h.2⟩
  | @step s a s' _ hok hs ih =>
    obtain ⟨hrun, hnum, hch⟩ := ih
    obtain ⟨m, m', hm, hr, ht, hs', hr'⟩ := MnRun.lift (fun _ _ ho => ho.1) hrun hok.1 hs
    have hsd := ListRun.sound hm
    rw [hr.core] at hnum hch
    obtain ⟨hnum', hren⟩ := hsd.identifies ht hnum hs'
    refine ⟨.step hrun hok hs, by rwa [hr'.core], ?_⟩
    rw [hr'.core]
    intro hlt
    have hlt := Nat.le_trans hren.drawn hlt
    exact (hch hlt).step hsd (ListRun.ticketed hm) (ListRun.backed (fun _ _ ho => ho.mapped) hm)
      (ListRun.exiting (fun _ _ ho => ho.mapped) hm) hnum hlt ht hs'

/-! ## The viewer -/

namespace Charted

variable {pre post : List JsonEvent} {ev : JsonEvent}

theorem dump (h : Charted c) : dumpTrace c.tr = c.tr.drawn.reverse := Trace.dump_eq h.bound

theorem older (h : Charted c) (hd : dumpTrace c.tr = pre ++ post) : c.tr.drawn = post.reverse ++ pre.reverse := by
  rw [h.dump] at hd
  rw [← List.reverse_append, ← hd, List.reverse_reverse]

theorem marks (h : Charted c) (hd : dumpTrace c.tr = pre ++ ev :: post) :
    Laned JsonEvent.ph JsonEvent.tid JsonEvent.core ev pre.reverse := by
  have ho := h.older hd
  rw [List.reverse_cons, List.append_assoc] at ho
  exact always_iff.mp h.laned post.reverse ev pre.reverse ho

end Charted

end Uthread
