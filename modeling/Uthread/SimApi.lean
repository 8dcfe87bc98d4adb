import Uthread.SimSched
import Uthread.Step

/-!
# Every step is a chain of transitions

Each function of `Uthread.Api`, and from them `step` and every run.
-/

namespace Uthread

open Trans

variable {s s' : Sys} {q : Layout} {g : List Ptr} {a b : Abs} {bad : Prop} {t : Ptr} {fs : List Frame} {env : Env}

theorem Inv.meets (h : Inv a) (hr : a.tcb.state a.currentThread = .running) (hc : Clear a.run.frames) :
    Meets a a.run.frames.head? := by
  cases hf : a.run.frames with
  | nil => exact hr
  | cons f fs =>
    have hx : f.isExit = true → False := fun he => by
      have := h.exits _ h.cur ⟨f, by rw [framesOf_cur, hf]; simp, he⟩
      rw [hr] at this; cases this
    have hs : f.sweeps = false := hc f (by rw [hf]; rfl)
    cases f <;> first
      | exact hr
      | exact absurd rfl hx
      | (change a.tcb.state a.currentThread ≠ .ready; rw [hr]; simp)
      | exact ⟨by rw [hr]; simp, fun _ => hr⟩
      | exact absurd hs (by simp [Frame.sweeps])

theorem Bd.of_running (h : Inv a) (he : a.exited = false) (hr : a.tcb.state a.currentThread = .running)
    (hc : Clear a.run.frames) : Bd a := .of_alive he (h.meets hr hc)

theorem Sim.seated (h : Sim s q g) : Seated s.run.frames := by
  have := h.inv.seated _ h.inv.cur
  rwa [framesOf_cur] at this

theorem Site.clear {op : SyncOp} {fs fs' : List Frame} (h : Site op fs fs') (hs : Seated fs) : Clear fs' := by
  cases h <;> first | exact hs.clear | (rintro _ ⟨⟩; rfl)

theorem Sim.local {q' : Layout} {g' : List Ptr} (h : Sim s q g) (hp : Prim (s.abs q g) (s'.abs q' g'))
    (hc : s'.currentThread = s.currentThread) (hr : Rep s'.lk q' g') (hb : Bd (s'.abs q' g')) : Goes bad s q g s' :=
  ⟨q', g', .one hp hc, ⟨hr, hp.inv h.inv⟩, hb⟩

/-! ## Moves of the stack -/

theorem Sim.move (h : Sim s q g) (he : s.exited = false) (hr : s.tcb.state s.currentThread = .running)
    (hm : FrameMove s.toCore s.run.frames fs) (hc : Clear fs) : Goes bad s q g (s.ret fs) := by
  have hp : Prim (s.abs q g) ((s.ret fs).abs q g) := .move hm fun hn => absurd hr hn
  exact h.local hp rfl h.rep (.of_running (hp.inv h.inv) he hr hc)

theorem Sim.unmaskMove (h : Sim s q g) (he : s.exited = false) (hr : s.tcb.state s.currentThread = .running)
    (hm : FrameMove s.toCore s.run.frames fs) (hc : Clear fs) : Goes bad s q g ((s.on .unblockSignals).ret fs) := by
  have hp : Prim (s.abs q g) ((s.ret fs).abs q g) := .move hm fun hn => absurd hr hn
  have hl : Prim ((s.ret fs).abs q g) (((s.on .unblockSignals).ret fs).abs q g) := .quiet (.mask false)
  have hi := hp.inv h.inv
  exact Goes.last (.one hp rfl) hi hl rfl h.rep (.of_running (hl.inv hi) he hr hc)

theorem Sim.tick (h : Sim s q g) (he : s.exited = false) (hb : Bd (s.abs q g)) (hm : s.run.masked = false) :
    Goes bad s q g s.alrmHandler := by
  have hmeets := hb.alive he
  have hc : Clear s.run.frames := by
    intro f hf
    rw [show (s.abs q g).run.frames.head? = some f from hf] at hmeets
    cases f <;> first
      | rfl
      | (have h₁ : s.run.masked = true := hmeets.2.2; rw [hm] at h₁; cases h₁)
  have hrdy : s.tcb.state s.currentThread ≠ .ready := by
    cases hf : s.run.frames.head? with
    | none =>
      rw [show (s.abs q g).run.frames.head? = none from hf] at hmeets
      rw [show s.tcb.state s.currentThread = .running from hmeets]; simp
    | some f =>
      rw [show (s.abs q g).run.frames.head? = some f from hf] at hmeets
      cases f <;> first
        | exact hmeets
        | exact hmeets.1
        | (rw [show s.tcb.state s.currentThread = .running from hmeets.1]; simp)
        | (rw [show s.tcb.state s.currentThread = .running from hmeets]; simp)
        | (rw [show s.tcb.state s.currentThread = .finished from hmeets]; simp)
  have hrun : (∀ f, s.run.frames.head? = some f → f.idles = false) → s.tcb.state s.currentThread = .running := by
    intro hi
    cases hf : s.run.frames.head? with
    | none =>
      rw [show (s.abs q g).run.frames.head? = none from hf] at hmeets
      exact hmeets
    | some f =>
      have hi := hi f hf
      rw [show (s.abs q g).run.frames.head? = some f from hf] at hmeets
      cases f <;> first
        | exact hmeets.2 hm
        | exact hmeets
        | (have h₁ : s.run.masked = true := hmeets.2.2; rw [hm] at h₁; cases h₁)
        | exact absurd hi (by simp [Frame.idles])
  have hp : Prim (s.abs q g) _ := .tick hc hrun
  exact Goes.last (.one hp rfl) (hp.inv h.inv) (.quiet (.mask true)) rfl h.rep
    (.of_alive he ⟨hrdy, fun hm => by cases hm⟩)

/-! ## Threads -/

theorem Sim.createEnter {prio : Int} (h : Sim s q g) (he : s.exited = false) (hr : s.tcb.state s.currentThread = .running)
    (hf : s.run.frames = .user :: fs) : Goes bad s q g (s.createEnter prio) := by
  obtain ⟨hp₁, h₁⟩ := h.blockSignals
  obtain ⟨g', hreap, h₂, hk, hsw⟩ := h₁.gcFinishedThreads
  have hpre : Prims bad (s.abs q g) ((s.on .blockSignals).gcFinishedThreads.abs q g') :=
    (Prims.one hp₁ rfl).trans (Reaped.prims hreap)
  change Goes bad s q g ((s.on .blockSignals).gcFinishedThreads.on (.setFrames (.create prio :: s.run.frames)))
  generalize (s.on .blockSignals).gcFinishedThreads = s₂ at *
  have hf₂ : s₂.run.frames = .user :: fs := by rw [hk.run]; exact hf
  have hmask : s₂.run.masked = true := by rw [hk.run]; rfl
  have hst : s₂.tcb.state s₂.currentThread = .running := by rw [hk.tcb, hk.cur]; exact hr
  have hm : Prim (s₂.abs q g') ((s₂.on (.setFrames (.create prio :: s.run.frames))).abs q g') := by
    refine .move ?_ fun hn => absurd hst hn
    rw [show (s₂.abs q g').run.frames = _ from hf₂, hf]; exact .callCreate
  exact Goes.last hpre h₂.inv hm rfl h₂.rep (.of_alive (hk.exited.trans he) ⟨hst, hsw, hmask⟩)

theorem Sim.createRest {prio : Int} (h : Sim s q g) (he : s.exited = false)
    (hr : s.tcb.state s.currentThread = .running) (hf : s.run.frames = .create prio :: fs) :
    Goes bad s q g (s.createRest env prio fs) := by
  have hc : Clear fs := Seated.clear (hf ▸ h.seated)
  have hm : ∀ {fs'}, FrameMove s.toCore (.create prio :: fs) fs' → Prim (s.abs q g) ((s.ret fs').abs q g) := by
    intro fs' hm
    refine .move ?_ fun hn => absurd hr hn
    rw [show (s.abs q g).run.frames = _ from hf]; exact hm
  have hno := hm .notCreated
  have h₁ : Sim (s.ret fs) q g := ⟨h.rep, hno.inv h.inv⟩
  have hlt : ∀ u ∈ g, u < s.brk := h.inv.lt
  have hcur : s.currentThread ≠ s.brk := (hlt _ h.inv.cur).ne
  unfold Sys.createRest
  simp only
  split_ifs
  · -- the new thread is published
    have hm := hm (.created (t := s.brk))
    have hp : Prim ((s.ret (.createRet s.brk :: fs)).abs q g) (((s.ret (.createRet s.brk :: fs)).abs q g).create prio) :=
      .create hr
    have hrep : Rep ((s.lk.globalListAdd s.brk).enqueue s.brk) (q.push .ready s.brk) (s.brk :: g) :=
      (h.rep.globalListAdd (fun hm => (hlt _ hm).ne rfl) h.inv.nodup).enqueue h.inv.ok h.inv.notMem_of_fresh
    have hst : (((s.ret (.createRet s.brk :: fs)).abs q g).create prio).tcb.state s.currentThread = .running :=
      (create_state_ne (a := (s.ret (.createRet s.brk :: fs)).abs q g) hcur).trans hr
    have hi := hp.inv (hm.inv h.inv)
    have hlast : Prim (((s.ret (.createRet s.brk :: fs)).abs q g).create prio)
        ((((s.ret (.createRet s.brk :: fs)).abs q g).create prio).on .unblockSignals) := .quiet (.mask false)
    exact Goes.last ((Prims.one hm rfl).next hp rfl) hi hlast rfl hrep
      (.of_running (hlast.inv hi) he hst (by rintro _ ⟨⟩; rfl))
  · have hp : Prim ((s.ret fs).abs q g) (((s.ret fs).abs q g).on fun c => (c.allocTcb prio).free c.brk) := .createFail
    have hst : (((s.ret fs).abs q g).on fun c => (c.allocTcb prio).free c.brk).tcb.state s.currentThread = .running :=
      (Function.update_of_ne hcur ..).trans hr
    have hi := hp.inv h₁.inv
    have hlast : Prim (((s.ret fs).abs q g).on fun c => (c.allocTcb prio).free c.brk)
        ((((s.ret fs).abs q g).on fun c => (c.allocTcb prio).free c.brk).on .unblockSignals) := .quiet (.mask false)
    exact Goes.last ((Prims.one hno rfl).next hp rfl) hi hlast rfl h.rep (.of_running (hlast.inv hi) he hst hc)
  · have hlast : Prim ((s.ret fs).abs q g) (((s.ret fs).on .unblockSignals).abs q g) := .quiet (.mask false)
    exact Goes.last (.one hno rfl) h₁.inv hlast rfl h.rep (.of_running (hlast.inv h₁.inv) he hr hc)

/-! ## Mutexes and semaphores -/

theorem Sim.section {q' : Layout} {g' : List Ptr} {c : Sys} (h : Sim s q g)
    (hp : Prim ((s.on .blockSignals).abs q g) (c.abs q' g')) (hc : c.currentThread = s.currentThread)
    (hrep : Rep c.lk q' g') (he : c.exited = false) (hr : c.tcb.state c.currentThread = .running)
    (hcl : Clear c.run.frames) : Goes bad s q g (c.on .unblockSignals) := by
  obtain ⟨hm, h₁⟩ := h.blockSignals
  have hi := hp.inv h₁.inv
  have hl : Prim (c.abs q' g') ((c.on .unblockSignals).abs q' g') := .quiet (.mask false)
  exact Goes.last ((Prims.one hm rfl).next hp hc) hi hl rfl hrep (.of_running (hl.inv hi) he hr hcl)

theorem Sim.waitOn {w : WaitObj} (h : Sim s q g) (he : s.exited = false) (hr : s.tcb.state s.currentThread = .running)
    (hs : Site w.acquire s.run.frames fs)
    (hw : match w with
      | .mutex m => s.mutexLocked m ≠ some 0 ∧ (s.mutexLocked m).isSome
      | .sem sm => s.count sm ≤ 0 ∧ (s.semCount sm).isSome) :
    Goes bad s q g (((s.ret fs).on .blockSignals).waitOn w) := by
  obtain ⟨hm, h₁⟩ := h.blockSignals
  have hp : Prim ((s.on .blockSignals).abs q g) ((((s.on .blockSignals).abs q g).on (.setFrames fs)).block w) :=
    .block hr hs (by cases w <;> exact hw)
  have hrep : Rep (s.lk.waitAppend w s.currentThread) (q.push (.wait w) s.currentThread) g :=
    h.rep.waitAppend h.inv.ok (h.inv.notMem_of_running hr)
  refine Goes.last (.one hm rfl) h₁.inv hp rfl hrep (.of_alive he ?_)
  refine ⟨?_, fun hm => by cases hm⟩
  change Function.update s.tcb.state s.currentThread .blocked s.currentThread ≠ .ready
  rw [Function.update_self]; simp

theorem Sim.lock {m : MutexId} (h : Sim s q g) (he : s.exited = false) (hr : s.tcb.state s.currentThread = .running)
    (hs : Site (.lock m) s.run.frames fs) (hm : (s.mutexLocked m).isSome) :
    Goes bad s q g ((s.ret fs).uthreadMutexLock m) := by
  unfold Sys.uthreadMutexLock
  simp only
  split_ifs with h0
  · have hp : Prim ((s.on .blockSignals).abs q g) _ := .lock hr hs h0
    exact h.section hp rfl h.rep he hr (hs.clear h.seated)
  · exact h.waitOn (w := .mutex m) he hr hs ⟨h0, hm⟩

theorem Sim.wait {sm : SemId} (h : Sim s q g) (he : s.exited = false) (hr : s.tcb.state s.currentThread = .running)
    (hs : Site (.wait sm) s.run.frames fs) (hm : (s.semCount sm).isSome) :
    Goes bad s q g ((s.ret fs).uthreadSemWait sm) := by
  unfold Sys.uthreadSemWait
  simp only
  split_ifs with h0
  · have hp : Prim ((s.on .blockSignals).abs q g) _ := .wait hr hs h0
    exact h.section hp rfl h.rep he hr (hs.clear h.seated)
  · exact h.waitOn (w := .sem sm) he hr hs ⟨not_lt.mp h0, hm⟩

theorem Sim.woken_running {w : WaitObj} {ts : List Ptr} (h : Sim s q g) (hr : s.tcb.state s.currentThread = .running)
    (hq : q (.wait w) = t :: ts) : Function.update s.tcb.state t .ready s.currentThread = .running := by
  have ht : t ∈ q (.wait w) := by rw [hq]; simp
  have hne : s.currentThread ≠ t := by rintro e; exact h.inv.notMem_of_running hr _ (e ▸ ht)
  rw [Function.update_of_ne hne]; exact hr

theorem Sim.waitPop {w : WaitObj} {ts : List Ptr} (h : Sim s q g) (hq : q (.wait w) = t :: ts) :
    Rep ((s.lk.waitPop w t).enqueue t) ((q.drop (.wait w) t).push .ready t) g :=
  (h.rep.waitPop h.inv.ok hq).enqueue h.inv.ok.drop (h.inv.ok.notMem_drop (by rw [show (s.abs q g).q (.wait w) = _ from hq]; simp))

theorem uthreadMutexUnlock_eq {m : MutexId} {s : Sys} : s.uthreadMutexUnlock m =
    (match s.lk.waitHead (.mutex m) with
      | some woken => (s.on .blockSignals).wakeHead (.mutex m) woken
      | none => ((s.on .blockSignals).on (.setLocked m 0)).on (.note (.release (.mutex m) s.currentThread))).on .unblockSignals :=
  rfl

theorem Sim.unlock {m : MutexId} (h : Sim s q g) (he : s.exited = false) (hr : s.tcb.state s.currentThread = .running)
    (hs : Site (.unlock m) s.run.frames fs) (hm : (s.mutexLocked m).isSome) :
    Goes bad s q g ((s.ret fs).uthreadMutexUnlock m) := by
  have hh : (s.ret fs).lk.waitHead (.mutex m) = (q (.wait (.mutex m))).head? := h.rep.waitHead_eq
  rw [uthreadMutexUnlock_eq, hh]
  cases hq : q (.wait (.mutex m)) with
  | nil =>
    have hp : Prim ((s.on .blockSignals).abs q g) _ := .unlock hr hs hm hq
    exact h.section (c := (((s.ret fs).on .blockSignals).on (.setLocked m 0)).on (.note _)) hp rfl h.rep he hr
      (hs.clear h.seated)
  | cons t ts =>
    have hp : Prim ((s.on .blockSignals).abs q g) _ := .unlockHandoff hr hs hq
    exact h.section (c := ((s.ret fs).on .blockSignals).wakeHead (.mutex m) t) hp rfl (h.waitPop hq) he
      (h.woken_running hr hq) (hs.clear h.seated)

theorem uthreadSemPost_eq {sm : SemId} {s d : Sys} (hd : (s.on .blockSignals).on (.setCount sm (cint (s.count sm + 1))) = d) :
    s.uthreadSemPost sm =
      (match s.lk.waitHead (.sem sm) with
        | some woken => (d.on (.setCount sm (cint (d.count sm - 1)))).wakeHead (.sem sm) woken
        | none => d.on (.note (.release (.sem sm) s.currentThread))).on .unblockSignals := by
  subst hd
  rfl

theorem Sim.post {sm : SemId} (h : Sim s q g) (he : s.exited = false) (hr : s.tcb.state s.currentThread = .running)
    (hs : Site (.post sm) s.run.frames fs) (hm : (s.semCount sm).isSome) :
    Goes bad s q g ((s.ret fs).uthreadSemPost sm) := by
  have hh : (s.ret fs).lk.waitHead (.sem sm) = (q (.wait (.sem sm))).head? := h.rep.waitHead_eq
  rw [uthreadSemPost_eq rfl, hh]
  cases hq : q (.wait (.sem sm)) with
  | nil =>
    have hp : Prim ((s.on .blockSignals).abs q g) _ := .post hr hs hm hq
    exact h.section (c := (((s.ret fs).on .blockSignals).on (.setCount sm (cint (s.count sm + 1)))).on (.note _)) hp rfl
      h.rep he hr (hs.clear h.seated)
  | cons t ts =>
    have hp : Prim ((s.on .blockSignals).abs q g) _ := .postHandoff hr hs hq
    have hcount : (((s.ret fs).on .blockSignals).on (.setCount sm (cint (s.count sm + 1)))).on
        (.setCount sm (cint ((((s.ret fs).on .blockSignals).on (.setCount sm (cint (s.count sm + 1)))).count sm - 1))) =
        ((s.ret fs).on .blockSignals).on (.setCount sm (cint (cint (s.count sm + 1) - 1))) := by
      have hc : (((s.ret fs).on .blockSignals).on (.setCount sm (cint (s.count sm + 1)))).count sm = cint (s.count sm + 1) := by
        change (Function.update s.semCount sm (some (cint (s.count sm + 1))) sm).getD 0 = _
        rw [Function.update_self]; rfl
      rw [hc]
      unfold Sys.on Core.setCount
      simp only [Function.update_idem]
    change Goes bad s q g (((((((s.ret fs).on .blockSignals).on (.setCount sm (cint (s.count sm + 1)))).on
        (.setCount sm (cint ((((s.ret fs).on .blockSignals).on (.setCount sm (cint (s.count sm + 1)))).count sm - 1)))).wakeHead
          (.sem sm) t)).on .unblockSignals)
    rw [hcount]
    exact h.section (c := (((s.ret fs).on .blockSignals).on (.setCount sm (cint (cint (s.count sm + 1) - 1)))).wakeHead
      (.sem sm) t) hp rfl (h.waitPop hq) he (h.woken_running hr hq) (hs.clear h.seated)

/-! ## Initialisation -/

section
variable (h : Sim s q g) (he : s.exited = false) (hr : s.tcb.state s.currentThread = .running)
include h he hr

theorem Sim.uthreadMutexInit {n : Nat} (hc : Clear s.run.frames) (hm : s.mutexLocked (.user n) = none) :
    Goes bad s q g (s.uthreadMutexInit (.user n)) := by
  have hp : Prim (s.abs q g) ((s.uthreadMutexInit (.user n)).abs q g) := .mutexInit hm
  exact h.local hp rfl (h.rep.waitInit (h.inv.mutexes _ hm)) (.of_running (hp.inv h.inv) he hr hc)

theorem Sim.uthreadSemInit {n : Nat} {k : Int} (hc : Clear s.run.frames) (hm : s.semCount (.user n) = none) :
    Goes bad s q g (s.uthreadSemInit (.user n) k) := by
  have hp : Prim (s.abs q g) ((s.uthreadSemInit (.user n) k).abs q g) := .semInit hm
  exact h.local hp rfl (h.rep.waitInit (h.inv.sems _ hm)) (.of_running (hp.inv h.inv) he hr hc)

omit h he hr in
theorem clampCapacity_le (k : Int) : Sys.clampCapacity k ≤ uthreadChannelMaxCapacity := by
  unfold Sys.clampCapacity
  split <;> omega

omit h he hr in
theorem cint_clampCapacity (k : Int) : cint (Sys.clampCapacity (cint k)) = Sys.clampCapacity (cint k) := by
  have hk := cint_range k
  have hmax : uthreadChannelMaxCapacity = 64 := rfl
  unfold Sys.clampCapacity
  split <;> exact cint_of_range (by omega) (by omega)

theorem Sim.uthreadChannelInit {c : Nat} {k : Int} (hcl : Clear s.run.frames) (hc : (s.chan c).isNone) :
    Goes bad s q g (s.uthreadChannelInit c k) := by
  have hnone : s.mutexLocked (.chan c) = none ∧ s.semCount (.space c) = none ∧ s.semCount (.messages c) = none := by
    obtain ⟨h₁, h₂, h₃⟩ := h.inv.chans c
    have hc' : ¬ (s.chan c).isSome := by rw [Option.isNone_iff_eq_none.mp hc]; simp
    exact ⟨Option.not_isSome_iff_eq_none.mp (h₁.not.mpr hc'), Option.not_isSome_iff_eq_none.mp (h₂.not.mpr hc'),
      Option.not_isSome_iff_eq_none.mp (h₃.not.mpr hc')⟩
  have hp : Prim (s.abs q g) ((s.abs q g).chanInit c
      { buffer := fun _ => 0, head := 0, tail := 0, capacity := Sys.clampCapacity (cint k) }) :=
    .chanInit hc rfl rfl (clampCapacity_le _) (cint_clampCapacity k)
  have heq : (s.uthreadChannelInit c k).abs q g = (s.abs q g).chanInit c
      { buffer := fun _ => 0, head := 0, tail := 0, capacity := Sys.clampCapacity (cint k) } := by
    simp only [Sys.uthreadChannelInit, Sys.uthreadSemInit, Sys.uthreadMutexInit, Sys.on, Sys.abs, Abs.chanInit, Abs.on,
      Core.setLocked, Core.setCount, Core.setChan, Core.note]
  have hlk : (s.uthreadChannelInit c k).lk =
      ((s.lk.waitInit (.sem (.space c))).waitInit (.sem (.messages c))).waitInit (.mutex (.chan c)) := by
    simp only [Sys.uthreadChannelInit, Sys.uthreadSemInit, Sys.uthreadMutexInit, Sys.on]
  have hrep : Rep (s.uthreadChannelInit c k).lk q g := by
    rw [hlk]
    exact ((h.rep.waitInit (h.inv.sems _ hnone.2.1)).waitInit (h.inv.sems _ hnone.2.2)).waitInit
      (h.inv.mutexes _ hnone.1)
  have hb := Bd.of_running (hp.inv h.inv) he hr hcl
  rw [← heq] at hp hb
  exact h.local hp (congrArg (fun a : Abs => a.currentThread) heq) hrep hb

/-! ## Channels -/

theorem Sim.sendStep {c : Nat} {msg : Msg} {pc : ChanPc} (hf : s.run.frames = .chanSend c msg pc :: fs) :
    Goes bad s q g (s.sendStep c msg fs pc) := by
  have hcl : Clear fs := Seated.clear (hf ▸ h.seated)
  have hch : (s.chan c).isSome := by
    refine h.inv.chanFrames _ h.inv.cur (.chanSend c msg pc) ?_ c rfl
    rw [framesOf_cur, show (s.abs q g).run.frames = _ from hf]; simp
  obtain ⟨hm, hsp, hms⟩ := h.inv.chans c
  have hplain : ∀ pc', Clear (.chanSend c msg pc' :: fs) := by rintro pc' _ ⟨⟩; rfl
  cases pc with
  | wait => exact h.wait he hr (by rw [hf]; exact .sendWait) (hsp.mpr hch)
  | lock => exact h.lock he hr (by rw [hf]; exact .sendLock) (hm.mpr hch)
  | unlock => exact h.unlock he hr (by rw [hf]; exact .sendUnlock) (hm.mpr hch)
  | post => exact h.post he hr (by rw [hf]; exact .sendPost) (hms.mpr hch)
  | access =>
    obtain ⟨ch, hch⟩ := Option.isSome_iff_exists.mp hch
    simp only [Sys.sendStep, hch]
    have hp : Prim (s.abs q g) _ := .chan hr hch (.store hf)
    exact h.local hp rfl h.rep (.of_running (hp.inv h.inv) he hr (hplain _))
  | advance =>
    obtain ⟨ch, hch⟩ := Option.isSome_iff_exists.mp hch
    simp only [Sys.sendStep, hch]
    have hp : Prim (s.abs q g) _ := .chan hr hch (.tail hf)
    exact h.local hp rfl h.rep (.of_running (hp.inv h.inv) he hr (hplain _))

theorem Sim.recvStep {c : Nat} {msg : Msg} {pc : ChanPc} (hf : s.run.frames = .chanRecv c msg pc :: fs) :
    Goes bad s q g (s.recvStep c msg fs pc) := by
  have hcl : Clear fs := Seated.clear (hf ▸ h.seated)
  have hch : (s.chan c).isSome := by
    refine h.inv.chanFrames _ h.inv.cur (.chanRecv c msg pc) ?_ c rfl
    rw [framesOf_cur, show (s.abs q g).run.frames = _ from hf]; simp
  obtain ⟨hm, hsp, hms⟩ := h.inv.chans c
  have hplain : ∀ v pc', Clear (.chanRecv c v pc' :: fs) := by rintro v pc' _ ⟨⟩; rfl
  cases pc with
  | wait => exact h.wait he hr (by rw [hf]; exact .recvWait) (hms.mpr hch)
  | lock => exact h.lock he hr (by rw [hf]; exact .recvLock) (hm.mpr hch)
  | unlock => exact h.unlock he hr (by rw [hf]; exact .recvUnlock) (hm.mpr hch)
  | post => exact h.post he hr (by rw [hf]; exact .recvPost) (hsp.mpr hch)
  | access =>
    obtain ⟨ch, hch⟩ := Option.isSome_iff_exists.mp hch
    simp only [Sys.recvStep, hch]
    have hp : Prim (s.abs q g) _ := .chan hr hch (.load hf)
    exact h.local hp rfl h.rep (.of_running (hp.inv h.inv) he hr (hplain _ _))
  | advance =>
    obtain ⟨ch, hch⟩ := Option.isSome_iff_exists.mp hch
    simp only [Sys.recvStep, hch]
    have hp : Prim (s.abs q g) _ := .chan hr hch (.head hf)
    exact h.local hp rfl h.rep (.of_running (hp.inv h.inv) he hr (hplain _ _))

/-! ## Sleeping and I/O -/

theorem Sim.uthreadSleep {ms : Nat} (hf : s.run.frames = .user :: fs) : Goes bad s q g (s.uthreadSleep ms) := by
  obtain ⟨hm, h₁⟩ := h.blockSignals
  have hp : Prim ((s.on .blockSignals).abs q g) (((s.on .blockSignals).abs q g).sleep ms) := .sleep hr hf
  have hrep : Rep (s.lk.sleepPush s.currentThread) (q.pushFront .sleep s.currentThread) g :=
    h.rep.sleepPush (h.inv.notMem_of_running hr)
  refine Goes.last (.one hm rfl) h₁.inv hp rfl hrep (.of_alive he ?_)
  refine ⟨?_, fun hm => by cases hm⟩
  change Function.update s.tcb.state s.currentThread .ioBlocked s.currentThread ≠ .ready
  rw [Function.update_self]; simp

theorem Sim.systemCall {fd : Fd} {dir : IoDir} {next : IoResult → Frame}
    (hm : ∀ {c : Core} {ret}, c.Yields fd dir ret → FrameMove c s.run.frames (next ret :: fs))
    (hs : ∀ ret, (next ret).sweeps = false) : Goes bad s q g (s.systemCall env fd dir next fs) := by
  have hclear : ∀ ret, Clear (next ret :: fs) := by rintro ret _ ⟨⟩; exact hs ret
  -- the error
  obtain ⟨s₁, hs₁, hp₁, h₁, hr₁, he₁, hf₁, hy⟩ : ∃ s₁ : Sys, s.on (.setErrnoOf (s.ioResult env fd dir)) = s₁ ∧
      Prims bad (s.abs q g) (s₁.abs q g) ∧ Sim s₁ q g ∧ s₁.tcb.state s₁.currentThread = .running ∧ s₁.exited = false ∧
      s₁.run.frames = s.run.frames ∧ s₁.Yields fd dir (s.ioResult env fd dir) := by
    cases hret : s.ioResult env fd dir with
    | count n =>
      exact ⟨s, rfl, .refl, h, hr, he, rfl, ⟨fun hx => (by cases hx), fun e hx => (by cases hx)⟩⟩
    | failed e =>
      have hp : Prim (s.abs q g) ((s.on (.setErrno e)).abs q g) := .errno
      refine ⟨s.on (.setErrno e), rfl, .one hp rfl, ⟨h.rep, hp.inv h.inv⟩, hr, he, rfl, ?_, ?_⟩
      · intro hx
        change s.avail (fd, dir) = false
        unfold Core.ioResult at hret
        by_contra hav
        rw [if_pos (by simpa using hav)] at hret
        cases hx
        split at hret <;> cases hret
      · intro e' h
        obtain ⟨⟩ := h
        rfl
  have hp₂ : Prim (s₁.abs q g) ((s₁.ret (next (s.ioResult env fd dir) :: fs)).abs q g) := by
    refine .move ?_ fun hn => absurd hr₁ hn
    rw [show (s₁.abs q g).run.frames = _ from hf₁]
    exact hm hy
  have h₂ : Sim (s₁.ret (next (s.ioResult env fd dir) :: fs)) q g := ⟨h₁.rep, hp₂.inv h₁.inv⟩
  unfold Sys.systemCall
  simp only [hs₁]
  split
  · have hl : Prim ((s₁.ret (next (s.ioResult env fd dir) :: fs)).abs q g)
        (((s₁.ret (next (s.ioResult env fd dir) :: fs)).on (.setAvail fd dir env.left)).abs q g) := .avail
    exact Goes.last (hp₁.next hp₂ rfl) h₂.inv hl rfl h₁.rep (.of_running (hl.inv h₂.inv) he₁ hr₁ (hclear _))
  · exact Goes.last hp₁ h₁.inv hp₂ rfl h₁.rep (.of_running h₂.inv he₁ hr₁ (hclear _))

theorem Sim.ioEnter {fd : Fd} {dir : IoDir} (hf : s.run.frames = .user :: fs) : Goes bad s q g (s.ioEnter env fd dir) := by
  refine h.systemCall he hr ?_ fun _ => rfl
  intro c ret hy
  rw [hf]
  exact .callIo hy

theorem Sim.ioTest {fd : Fd} {dir : IoDir} {ret : IoResult} (hf : s.run.frames = .ioTest fd dir ret :: fs) :
    Goes bad s q g (s.ioTest fd dir ret fs) := by
  unfold Sys.ioTest
  split
  · next ht =>
    refine h.move he hr ?_ (by rintro _ ⟨⟩; rfl)
    rw [hf]
    exact .tested fun hx => ht.resolve_left (by simp [hx])
  · next ht =>
    refine h.move he hr ?_ (by rintro _ ⟨⟩; rfl)
    rw [hf]
    obtain ⟨hx, he⟩ := not_or.mp ht
    exact .wouldBlock (by simpa using hx) (not_not.mp he)

theorem Sim.ioBlock {fd : Fd} {dir : IoDir} (hf : s.run.frames = .ioBlock fd dir :: fs) :
    Goes bad s q g (s.ioBlock env fd dir fs) := by
  obtain ⟨hm, h₁⟩ := h.blockSignals
  have hp : Prim ((s.on .blockSignals).abs q g) (((s.on .blockSignals).abs q g).ioBlock env fd dir fs) := .ioBlock hr hf
  refine Goes.last (.one hm rfl) h₁.inv hp rfl h.rep (.of_alive he ?_)
  refine ⟨?_, fun hm => by cases hm⟩
  change Function.update s.tcb.state s.currentThread .ioBlocked s.currentThread ≠ .ready
  rw [Function.update_self]; simp

theorem Sim.ioResume {fd : Fd} {dir : IoDir} (hf : s.run.frames = .ioWait fd dir :: fs) :
    Goes bad s q g (s.ioResume fd dir fs) := by
  have hp : Prim (s.abs q g) ((s.on (.setIoFd s.currentThread (-1))).abs q g) := .quiet (.ioFd _ hr)
  have h₁ : Sim (s.on (.setIoFd s.currentThread (-1))) q g := ⟨h.rep, hp.inv h.inv⟩
  obtain ⟨q', g', hp', h'⟩ : Goes bad (s.on (.setIoFd s.currentThread (-1))) q g (s.ioResume fd dir fs) :=
    h₁.move he hr (by rw [show (s.on (.setIoFd s.currentThread (-1))).run.frames = _ from hf]; exact .ioReady)
      (by rintro _ ⟨⟩; rfl)
  exact ⟨q', g', (Prims.one hp rfl).trans hp', h'⟩

theorem Sim.ioRetry {fd : Fd} {dir : IoDir} (hf : s.run.frames = .ioRetry fd dir :: fs) :
    Goes bad s q g (s.ioRetry env fd dir fs) := by
  refine h.systemCall he hr ?_ fun _ => rfl
  intro c ret hy
  rw [hf]
  exact .retried hy

/-! ## Steps -/

theorem Sim.call {op : Op} (hf : s.run.frames = .user :: fs) (hs : s.call env op = some s') : Goes bad s q g s' := by
  have hcl : Clear s.run.frames := by rw [hf]; rintro _ ⟨⟩; rfl
  have hquiet : ∀ {s₁ : Sys}, s₁.lk = s.lk → Quiet s.toCore s₁.toCore → s₁.exited = false →
      s₁.tcb.state s₁.currentThread = .running → s₁.currentThread = s.currentThread → s₁.run = s.run →
      Goes bad s q g s₁ := by
    intro s₁ hl hq he hr hc hrun
    have hp : Prim (s.abs q g) (s₁.abs q g) := .quiet hq
    refine h.local hp hc (hl ▸ h.rep) (.of_running (hp.inv h.inv) he hr ?_)
    rw [show (s₁.abs q g).run = s.run from hrun]; exact hcl
  have site : ∀ {op : SyncOp}, Site op (.user :: fs) (.user :: fs) → Site op s.run.frames s.run.frames := by
    intro op hs
    rw [hf]; exact hs
  cases op <;> simp only [Sys.call, Option.ite_none_left_eq_some, Option.ite_none_right_eq_some, Option.some.injEq,
    ← Option.isSome_iff_ne_none] at hs
  case create prio => exact hs ▸ h.createEnter he hr hf
  case yield => exact hs ▸ h.move he hr (by rw [hf]; exact .callYield) (by rintro _ ⟨⟩; rfl)
  case exit => exact hs ▸ h.uthreadExit he hr hf
  case mutexInit n => exact hs.2 ▸ h.uthreadMutexInit he hr hcl hs.1
  case mutexLock n => exact hs.2 ▸ h.lock he hr (site .lock) hs.1
  case mutexUnlock n => exact hs.2 ▸ h.unlock he hr (site .unlock) hs.1
  case semInit n k => exact hs.2 ▸ h.uthreadSemInit he hr hcl hs.1
  case semWait n => exact hs.2 ▸ h.wait he hr (site .wait) hs.1
  case semPost n => exact hs.2 ▸ h.post he hr (site .post) hs.1
  case channelInit c k => exact hs.2 ▸ h.uthreadChannelInit he hr hcl hs.1
  case channelSend c v =>
    refine hs.2 ▸ h.move he hr ?_ (by rintro _ ⟨⟩; rfl)
    rw [hf]; exact .callSend (by simpa [Option.isSome_iff_ne_none] using hs.1) hr
  case channelRecv c =>
    refine hs.2 ▸ h.move he hr ?_ (by rintro _ ⟨⟩; rfl)
    rw [hf]; exact .callRecv (by simpa [Option.isSome_iff_ne_none] using hs.1) hr
  case sleep ms => exact hs ▸ h.uthreadSleep he hr hf
  case io fd dir => exact hs ▸ h.ioEnter he hr hf
  case setScheduler p => exact hs ▸ hquiet rfl (.scheduler p) he hr rfl rfl
  case traceEnable =>
    have hp : Prim (s.abs q g) (s.uthreadTraceEnable.abs q g) := .traceOn
    exact hs ▸ h.local hp rfl h.rep (.of_running (hp.inv h.inv) he hr hcl)
  case traceDisable => exact hs ▸ hquiet rfl .traceOff he hr rfl rfl

end

/-- The steps that lose a thread: the idle loop of a thread that is RUNNING finds another one to dispatch. -/
def Bad (s : Sys) : Action → Prop
  | .resume env => (∃ p fs, s.run.frames = .yieldIdle p :: fs) ∧ s.tcb.state s.currentThread = .running ∧
      Dispatchable env s
  | _ => False

theorem Sim.resume {f : Frame} (h : Sim s q g) (he : s.exited = false) (hb : Bd (s.abs q g))
    (hf : s.run.frames = f :: fs) (hs : s.resume env fs f = some s') : Goes (Bad s (.resume env)) s q g s' := by
  have hmeets : Meets (s.abs q g) (some f) := by
    have := hb.alive he
    rwa [show (s.abs q g).run.frames = _ from hf] at this
  have hcl : Clear fs := Seated.clear (hf ▸ h.seated)
  cases f <;> simp only [Sys.resume, Option.some.injEq, reduceCtorEq] at hs <;> subst hs
  case start => exact h.unmaskMove he hmeets (by rw [hf]; exact .start) (by rintro _ ⟨⟩; rfl)
  case create => exact h.createRest he hmeets.1 hf
  case createRet t =>
    have hp : Prim (s.abs q g) ((s.createReturn t fs).abs q g) := .createRet hmeets hf
    exact h.local hp rfl h.rep (.of_running (hp.inv h.inv) he hmeets hcl)
  case waiting w =>
    have hp : Prim (s.abs q g) (((s.on (.note (.leave w s.currentThread))).ret fs).abs q g) := .leave hmeets hf
    exact h.local hp rfl h.rep (.of_running (hp.inv h.inv) he hmeets hcl)
  case sleeping d =>
    have hp : Prim (s.abs q g) (((s.on (.note (.sleepRet s.currentThread d s.readings))).ret fs).abs q g) :=
      .sleepRet hmeets hf
    exact h.local hp rfl h.rep (.of_running (hp.inv h.inv) he hmeets hcl)
  case ioTest fd dir ret => exact h.ioTest he hmeets hf
  case ioBlock fd dir => exact h.ioBlock he hmeets hf
  case ioWait fd dir => exact h.ioResume he hmeets hf
  case ioRetry fd dir => exact h.ioRetry he hmeets hf
  case ioDone fd dir ret =>
    have hp : Prim (s.abs q g) ((s.ioReturn fd dir ret fs).abs q g) := .ioRet hmeets hf
    exact h.local hp rfl h.rep (.of_running (hp.inv h.inv) he hmeets hcl)
  case chanSend c msg pc => exact h.sendStep he hmeets hf
  case chanRecv c msg pc => exact h.recvStep he hmeets hf
  case alrmHandler => exact h.unmaskMove he hmeets (by rw [hf]; exact .sigreturn) hcl
  case yieldEntry => exact h.yieldEnter he hb hf
  case yieldGc => exact h.yieldBody he hf
  case yieldIdle p =>
    have hp : p = s.currentThread := h.prev_eq hf rfl
    refine (h.idlePass .yieldIdle .yieldSwap he hf hp ?_ (.inr rfl) (.inl rfl) ?_).mono
      fun hd => ⟨⟨p, fs, hf⟩, hd⟩
    · rintro c rfl; exact .idleSave
    · rintro b hc - hr; change b.tcb.state b.currentThread ≠ .ready; rw [hc]; exact hr
  case exitIdle p =>
    have hp : p = s.currentThread := h.prev_eq hf rfl
    have hfin : s.tcb.state s.currentThread = .finished := hmeets
    refine (h.idlePass .exitIdle .exitSwap he hf hp ?_ (.inl hfin) (.inr rfl) ?_).mono
      fun hd => ?_
    · rintro c rfl; exact .exitIdleSave
    · rintro b hc hk -; change b.tcb.state b.currentThread = .finished; rw [hc]; exact hk (hp ▸ hfin)
    · rw [hfin] at hd; cases hd.1
  case yieldSwap p => exact h.unmaskMove he hmeets (by rw [hf]; exact .resumed) (by rintro _ ⟨⟩; rfl)
  case yieldRet => exact h.move he hmeets (by rw [hf]; exact .yieldRet hmeets) hcl

/-- One step of the machine is a chain of transitions. -/
theorem Sim.step {act : Action} (h : Sim s q g) (hb : Bd (s.abs q g)) (hs : s.step act = some s') :
    Goes (Bad s act) s q g s' := by
  unfold Sys.step at hs
  split at hs
  · cases hs
  · next he =>
    have he : s.exited = false := by simpa using he
    cases act with
    | call op env =>
      simp only [Option.ite_none_right_eq_some] at hs
      obtain ⟨fs, hf⟩ := List.head?_eq_some_iff.mp hs.1
      have hr : s.tcb.state s.currentThread = .running := by
        have := hb.alive he
        rw [show (s.abs q g).run.frames = _ from hf] at this
        exact this
      exact h.call he hr hf hs.2
    | resume env =>
      cases hf : s.run.frames with
      | nil => rw [hf] at hs; cases hs
      | cons f fs =>
        rw [hf] at hs
        exact h.resume he hb hf hs
    | tick =>
      simp only [Option.ite_none_left_eq_some, Option.some.injEq] at hs
      exact hs.2 ▸ h.tick he hb (by simpa using hs.1)
    | avail fd dir b =>
      simp only [Option.some.injEq] at hs
      subst hs
      have hp : Prim (s.abs q g) ((s.on (.setAvail fd dir b)).abs q g) := .avail
      exact h.local hp rfl h.rep ⟨hb.alive, hb.exited⟩
    | errno e =>
      simp only [Option.ite_none_left_eq_some, Option.some.injEq] at hs
      obtain ⟨-, rfl⟩ := hs
      have hp : Prim (s.abs q g) ((s.on (.setErrno e)).abs q g) := .errno
      exact h.local hp rfl h.rep ⟨hb.alive, hb.exited⟩

end Uthread
