import Uthread.Mn.Conserve

/-!
# When no thread is left

A `vp_loop` is left when the global list holds FINISHED threads only, or when
`running` is 0, which `uthread_mn_run` sets behind its own `vp_loop`. From then
on no thread is listed, held or created.
-/

namespace Uthread

open Linked

/-- Every thread has exited, and `main` is past the calls in which it creates some. -/
structure Over (m : Mn Lists) : Prop where
  finished : ∀ {t}, m.allocated t = true → m.state t = .finished
  launched : ∀ {v}, (m.pc v).own = some .held → m.current v ≠ none

variable {s : Mn MnLinks} {m m' : Mn Lists} {a : MnAct} {t : Ptr} {u v : VpId}

namespace Over

theorem empty (h : Over m) (hp : Placed m) (i : Place) : m.places i = [] := by
  rw [List.eq_nil_iff_forall_not_mem]
  intro t ht
  exact hp.live ht (h.finished (hp.alive ht))

theorem no_code (h : Over m) (hp : Placed m) (v : VpId) : (m.pc v).own ≠ some .held := by
  intro hown
  cases hx : m.current v with
  | none => exact h.launched hown hx
  | some t =>
    have ht := Mn.mem_own rfl hown hx
    rw [h.empty hp] at ht
    cases ht

theorem loopStep (h : Over m) (hsd : Sound m) (hs : LoopStep m a m') : Over m' := by
  have hp := hsd.placed
  have hcode : ∀ {pc}, m.pc a.vp = pc → pc.own = some .held → False := by
    intro pc hpc hc
    have hn := h.no_code hp a.vp
    rw [hpc] at hn
    exact hn hc
  constructor
  · intro t ha
    have hcr : m.pc a.vp ≠ .createTcb := fun hc => hcode hc rfl
    have hal : m.allocated t = true := by
      rcases Mn.loop_allocated hs t with he | ⟨hf, -⟩ | ⟨hc, -⟩
      · rwa [he] at ha
      · rw [hf] at ha
        cases ha
      · exact absurd hc hcr
    rcases Mn.loop_state hs t with he | ⟨i, hi, -⟩ | ⟨hc, -⟩
    · rw [he]
      exact h.finished hal
    · rw [h.empty hp] at hi
      cases hi
    · exact absurd hc hcr
  · intro v hv hc
    by_cases hva : v = a.vp
    · subst hva
      cases hs with
      | dispatch => simp at hc
      | @createFail ok hpc => exact hcode hpc rfl
      | readyEmpty => split at hv <;> simp [Pc.own] at hv
      | halt => unfold Mn.leave at hv; split at hv <;> simp [Pc.own] at hv
      | dead => unfold Mn.leave at hv; split at hv <;> simp [Pc.own] at hv
      | deq => simp [Pc.own] at hv
      | _ hpc => first
        | exact hcode hpc rfl
        | simp [Pc.own] at hv
    · obtain ⟨he | ⟨-, he⟩, hcu, -⟩ := hsd.booted.others hs hva
      · rw [he] at hv
        rw [hcu] at hc
        exact h.launched hv hc
      · rw [he] at hv
        simp [Pc.own] at hv

end Over

structure Ending (m : Mn Lists) : Prop where
  left : ∀ {v}, m.pc v = .done ∨ (m.pc v).closing = true → Over m
  stopped : ∀ {v}, v < m.numVps → m.running v = false → Over m

namespace Ending

theorem of_dead (hsd : Sound m) (hpc : m.pc v = .alive) (hs : ∀ t ∈ m.q.glob, m.state t = .finished) : Over m := by
  have hp := hsd.placed
  have hlaunched : ∀ {u}, (m.pc u).own = some .held → m.current u ≠ none := by
    intro u hu hc
    -- otherwise `main` has not started any virtual processor
    have hun : (m.pc u).unborn (m.current u) = some 1 := by
      cases hpu : m.pc u with
      | spawn i =>
        rw [hpu] at hu
        cases hu
      | _ =>
        rw [hpu] at hu
        simp [Pc.unborn, hu, hc]
    obtain ⟨rfl, -, hoff⟩ := hsd.booted.unborn hun
    by_cases hv : v = 0
    · subst hv
      rw [hpc] at hu
      cases hu
    · rw [hoff v (Nat.pos_of_ne_zero hv)] at hpc
      cases hpc
  have hpend : ∀ {u t}, t ∈ (m.pc u).unlisted → m.pc u = .createAdd t := by
    intro u t ht
    cases hpu : m.pc u with
    | createAdd x =>
      rw [hpu] at ht
      rw [List.mem_singleton.mp ht]
    | _ =>
      rw [hpu] at ht
      cases ht
  have hlisted : ∀ u t, t ∉ (m.pc u).unlisted := by
    intro u t ht
    have hpu := hpend ht
    cases hc : m.current u with
    | none => exact hlaunched (u := u) (by rw [hpu]; rfl) hc
    | some c =>
      have hheld := Mn.mem_own hpu rfl hc
      apply hp.live hheld
      apply hs
      refine (hp.listed c).mpr ⟨hp.alive hheld, fun w hw => ?_⟩
      have hx := hp.apart.disj hheld (Mn.mem_pend (v := w) (by rw [hpend hw]; exact List.mem_singleton_self c))
      simp at hx
  constructor
  · intro t ha
    exact hs t ((hp.listed t).mpr ⟨ha, fun u => hlisted u t⟩)
  · exact hlaunched

theorem userStep (h : Ending m) (hp : Placed m) (hpc : m.pc a.vp = .user) (hs : UserStep m a m') : Ending m' := by
  have hno : ¬ Over m := fun ho => ho.no_code hp a.vp (by rw [hpc]; rfl)
  constructor
  · intro v hv
    by_cases hva : v = a.vp
    · subst hva
      cases hs <;> simp [Pc.closing] at hv
    · rw [(Mn.user_others hs hva).1] at hv
      exact absurd (h.left hv) hno
  · intro v hv hr
    rw [Mn.user_numVps hs] at hv
    have hrun : m.running v = false := by cases hs <;> exact hr
    exact absurd (h.stopped hv hrun) hno

theorem loopStep (h : Ending m) (hsd : Sound m) (hs : LoopStep m a m') : Ending m' := by
  have hp := hsd.placed
  have hnext : Over m → Over m' := fun ho => ho.loopStep hsd hs
  have hrange : a.vp < m.numVps := by
    by_contra hlt
    exact Mn.loop_started hs (hsd.booted.range (Nat.le_of_not_lt hlt))
  constructor
  · intro v hv
    by_cases hva : v = a.vp
    · subst hva
      cases hs with
      | halt hpc hr => exact hnext (h.stopped hrange hr)
      | dead hpc hf => exact hnext (of_dead hsd hpc hf)
      | stop hpc => exact hnext (h.left (.inr (by rw [hpc]; rfl)))
      | stopped hpc => exact hnext (h.left (.inr (by rw [hpc]; rfl)))
      | join hpc => exact hnext (h.left (.inr (by rw [hpc]; rfl)))
      | @createFail ok _ => cases ok <;> simp [MnCore.allocTcb, Pc.closing] at hv
      | readyEmpty => split at hv <;> simp [Pc.closing] at hv
      | _ => simp [MnCore.allocTcb, Pc.closing] at hv
    · rcases (hsd.booted.others hs hva).1 with he | ⟨-, he⟩
      · rw [he] at hv
        exact hnext (h.left hv)
      · rw [he] at hv
        simp [Pc.closing] at hv
  · intro v hv hr
    rw [Mn.loop_numVps hs] at hv
    cases hs with
    | stop hpc => exact hnext (h.left (.inr (by rw [hpc]; rfl)))
    | @createFail ok _ =>
      have hrun : m.running v = false := by cases ok <;> exact hr
      exact hnext (h.stopped hv hrun)
    | halt =>
      have hrun : m.running v = false := by
        unfold Mn.leave at hr
        exact hr
      exact hnext (h.stopped hv hrun)
    | dead =>
      have hrun : m.running v = false := by
        unfold Mn.leave at hr
        exact hr
      exact hnext (h.stopped hv hrun)
    | _ => exact hnext (h.stopped hv hr)

end Ending

theorem StartLists.ending (h : StartLists m) : Ending m := by
  have hpc := h.control
  obtain ⟨n, k, sem, tr, hn, hc, -⟩ := h
  constructor
  · intro v hv
    by_cases h0 : v = 0 <;> simp [hpc, h0, Pc.closing] at hv
  · intro v hv hr
    rw [hc] at hv hr
    have hlt : v < n := hv
    simp [loaded, initMn, hlt] at hr

theorem ListRun.ending {ok : MnCore → MnAct → Prop} (h : ListRun ok m) : Ending m := by
  apply ListRun.inv _ _ _ h
  · exact fun m => StartLists.ending
  · intro m a m' hsd he _ hpc hu
    have he' : Ending (m.on (.beginCall a.vp)) := by
      have ho : Over m → Over (m.on (.beginCall a.vp)) := fun o => ⟨o.finished, o.launched⟩
      exact ⟨fun hv => ho (he.left hv), fun hv hr => ho (he.stopped hv hr)⟩
    exact he'.userStep hsd.placed.beginCall hpc hu
  · intro m a m' hsd he _ hs
    exact he.loopStep hsd hs

end Uthread
