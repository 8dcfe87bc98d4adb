import Uthread.Mn.Handoff

/-!
# One call as one step

A run in which every thread's code goes, without interruption, to the end of its
next call is one of the runs in which the sections of calls are interleaved; in
it no thread is woken before its context is saved.
-/

namespace Uthread

open Linked

variable {s s' : Mn MnLinks} {m m' : Mn Lists} {a : MnAct} {u v : VpId} {ok : MnCore → MnAct → Prop}

def Pc.rest : Pc → Nat
  | .park _ => 9
  | .parkTrace _ => 8
  | .appendRead _ | .sleepTrace | .ioTrace _ _ => 7
  | .append _ _ | .sleepPush | .ioAdd _ _ | .wakeRead _ => 6
  | .createTcb | .yieldTest | .pop _ _ => 5
  | .createAdd _ | .yieldMark | .wakeMark _ => 4
  | .createEnq _ | .yieldTrace | .wakeTrace _ => 3
  | .createTrace _ | .yieldEnq | .enqRead _ | .exitTrace => 2
  | .createRet _ | .lockSet _ | .wakeEnq _ _ | .unlockClear _ | .swapOut _ | .exitSwitch => 1
  | .sem _ pc => pc.rest
  | _ => 0

theorem midCall_iff (pc : Pc) : Mn.midCall pc = true ↔ 0 < pc.rest := by
  cases pc with
  | sem sm pc => cases pc <;> simp [Mn.midCall, Pc.rest, SemPc.rest]
  | _ => simp [Mn.midCall, Pc.rest]

theorem Pc.rest_le (pc : Pc) : pc.rest ≤ 10 := by
  cases pc with
  | sem sm pc => cases pc <;> simp [Pc.rest, SemPc.rest]
  | _ => simp [Pc.rest]

theorem loop_rest (hs : LoopStep m a m') (h0 : 0 < (m.pc a.vp).rest) : (m'.pc a.vp).rest < (m.pc a.vp).rest := by
  cases hs with
  | @createFail ok hpc => cases ok <;> simp [MnCore.allocTcb, hpc, Pc.rest]
  | deq hpc => rcases hpc with hpc | hpc <;> simp [hpc, Pc.rest] at h0
  | sem hpc hp => simpa [hpc, Pc.rest] using hp
  | semDone hpc =>
    rw [hpc] at h0 ⊢
    simpa [Pc.rest] using h0
  | _ hpc => first
    | simp [MnCore.allocTcb, hpc, Pc.rest, SemPc.rest]; done
    | simp [hpc, Pc.rest] at h0

theorem MnRun.rest (h : MnRun Saved s) (hok : Orderly s.toMnCore a) (hs : s.step a = some s') :
    (∀ u, u ≠ a.vp → s'.pc u = s.pc u ∨ s'.pc u = .test) ∧
      (0 < (s.pc a.vp).rest → (s'.pc a.vp).rest < (s.pc a.vp).rest) := by
  obtain ⟨m, m', hm, hr, ht, hs', hr'⟩ := MnRun.lift (fun _ _ ho => ho.1.1) h hok hs
  rw [hr.core, hr'.core]
  rcases Mn.step_cases (ListRun.sound hm).placed ht hs' with ⟨hpc, hu⟩ | hl
  · refine ⟨fun u hu' => .inl (Mn.user_others hu hu').1, ?_⟩
    rw [hpc]
    intro h0
    cases h0
  · exact ⟨fun u hu => (Mn.loop_started_other hl hu).1, loop_rest hl⟩

theorem Pc.midCall_of_onWait {pc : Pc} {w : WaitObj} (h : pc.onWait w = true) : Mn.midCall pc = true := by
  cases pc <;> first | rfl | cases h

theorem Pc.midCall_of_onReady {pc : Pc} (h : pc.onReady = true) : Mn.midCall pc = true := by
  cases pc <;> first | rfl | cases h

theorem Pc.midCall_of_leaving {pc : Pc} (h : pc.leaving = true) : Mn.midCall pc = true := by
  cases pc <;> first | rfl | cases h

theorem Pc.midCall_of_leavesStack {pc : Pc} (h : pc.leavesStack = true) : Mn.midCall pc = true := by
  cases pc <;> first | rfl | cases h

theorem Pc.midCall_of_waking {pc : Pc} {t : Ptr} (h : pc.waking = some t) : Mn.midCall pc = true := by
  cases pc <;> first | rfl | cases h

/-- While the other virtual processors are outside calls, no step of this one meets them in a window. -/
theorem MnRun.quiet (h : MnRun Saved s) (hq : ∀ u, u ≠ a.vp → Mn.midCall (s.pc u) = false) : Saved s.toMnCore a := by
  have halone : ∀ {u}, Mn.midCall (s.pc u) = true → u = a.vp := by
    intro u hu
    by_contra hua
    rw [hq u hua] at hu
    cases hu
  refine ⟨⟨?_, ?_⟩, ?_⟩
  · unfold Orderly
    cases hpc : s.pc a.vp with
    | append w | pop w =>
      intro v _ hv
      by_contra hon
      exact hv (halone (Pc.midCall_of_onWait (Bool.not_eq_false _ ▸ hon)))
    | createEnq | wakeEnq | ready =>
      intro v _ hv
      by_contra hon
      exact hv (halone (Pc.midCall_of_onReady (Bool.not_eq_false _ ▸ hon)))
    | yieldTest =>
      obtain ⟨m, hm, hr⟩ := MnRun.lists (fun _ _ ho => ho.1.1) h
      obtain ⟨-, hlv⟩ := ListRun.handed (fun _ _ ho => ho) hm
      intro t ht hrun
      rw [hr.core] at ht hrun hpc
      rcases hlv a.vp t (by rw [hpc]; rfl) ht with hb | hb | ⟨w, hw⟩
      · rw [hb] at hrun
        cases hrun
      · rw [hb] at hrun
        cases hrun
      · obtain rfl := halone (u := w) (by rw [hr.core]; exact Pc.midCall_of_waking hw)
        rw [hpc] at hw
        cases hw
    | _ => trivial
  · intro hpc _ v _ hl t _
    obtain rfl := halone (Pc.midCall_of_leavesStack hl)
    rw [hpc] at hl
    cases hl
  · intro t ht v _ hl
    obtain rfl := halone (Pc.midCall_of_leaving hl)
    cases hpc : s.pc a.vp with
    | wakeEnq =>
      rw [hpc] at hl
      cases hl
    | _ =>
      rw [hpc] at ht
      cases ht

theorem quiet_step (h : MnRun Saved s) (hq : ∀ u, u ≠ a.vp → Mn.midCall (s.pc u) = false) (hs : s.step a = some s') :
    ∀ u, u ≠ a.vp → Mn.midCall (s'.pc u) = false := by
  intro u hu
  rcases (h.rest (h.quiet hq).1.1 hs).1 u hu with he | he
  · rw [he]
    exact hq u hu
  · rw [he]
    rfl

theorem settle_fine {n : Nat} (h : MnRun Saved s) (hq : ∀ u, u ≠ a.vp → Mn.midCall (s.pc u) = false)
    (hn : (s.pc a.vp).rest ≤ n) (hs : s.settle a n = some s') : MnRun Saved s' ∧ ∀ u, Mn.midCall (s'.pc u) = false := by
  have hdone : Mn.midCall (s.pc a.vp) = false → ∀ u, Mn.midCall (s.pc u) = false := by
    intro hv u
    by_cases hu : u = a.vp
    · rw [hu]
      exact hv
    · exact hq u hu
  induction n generalizing s with
  | zero =>
    cases hs
    refine ⟨h, hdone ?_⟩
    rw [Bool.eq_false_iff, Ne, midCall_iff]
    omega
  | succ n ih =>
    unfold Mn.settle at hs
    cases hc : Mn.midCall (s.pc a.vp) with
    | false =>
      rw [hc] at hs
      cases hs
      exact ⟨h, hdone hc⟩
    | true =>
      rw [hc, if_pos rfl] at hs
      obtain ⟨s₁, h₁, h₂⟩ := Option.bind_eq_some_iff.mp hs
      have hok := h.quiet hq
      have hq₁ := quiet_step h hq h₁
      apply ih (.step h hok h₁) hq₁ _ h₂
      · intro hv u
        by_cases hu : u = a.vp
        · rw [hu]
          exact hv
        · exact hq₁ u hu
      · have hlt := (h.rest hok.1.1 h₁).2 ((midCall_iff _).mp hc)
        omega

/-- The states of runs in which every call is one step. -/
abbrev SegmentRun : Mn MnLinks → Prop := Trans.Reach Start Mn.segment fun _ _ => True

theorem SegmentRun.fine (h : SegmentRun s) : MnRun Saved s ∧ ∀ u, Mn.midCall (s.pc u) = false := by
  induction h with
  | init h =>
    refine ⟨.init h, fun u => ?_⟩
    obtain ⟨n, k, sem, tr, q, hn, hc, -⟩ := h
    rw [hc]
    by_cases h0 : u = 0 <;> simp [loaded, initMn, h0, Mn.midCall]
  | @step s a s' _ _ hs ih =>
    obtain ⟨hr, hq⟩ := ih
    obtain ⟨s₁, h₁, h₂⟩ := Option.bind_eq_some_iff.mp hs
    have hr₁ : MnRun Saved s₁ := .step hr (hr.quiet fun u _ => hq u) h₁
    exact settle_fine hr₁ (quiet_step hr (fun u _ => hq u) h₁) (Pc.rest_le _) h₂

def Mn.segments (s : Mn MnLinks) (as : List MnAct) : Mn MnLinks := (Trans.exec Mn.segment s as).getD s

theorem SegmentRun.after {as : List MnAct} (hs : SegmentRun s) (h : (Trans.exec Mn.segment s as).isSome = true) :
    SegmentRun (s.segments as) := by
  obtain ⟨s', hx⟩ := Option.isSome_iff_exists.mp h
  unfold Mn.segments
  rw [hx]
  exact hs.exec (fun _ _ => trivial) hx

end Uthread
