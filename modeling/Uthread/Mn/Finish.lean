import Uthread.Mn.Ending
import Uthread.Mn.Segment
import Uthread.Mn.Tickets

/-!
# `uthread_mn_run` finishes the job

A thread's function is started by the first switch into its initial context, and
no later switch finds that context again. Together with what ends a `vp_loop`,
this says what is done when one has been left and when `uthread_mn_run` returns.
-/

namespace Uthread

open Linked

variable {s : Mn MnLinks} {m m' : Mn Lists} {a : MnAct} {t : Ptr} {u v : VpId}

/-! ## Every function is started once -/

def Begun (m : Mn Lists) (t : Ptr) : Prop := 0 < m.calls t ∨ ∃ v, m.executes v = some t

structure StartedOnce (m : Mn Lists) : Prop where
  once : ∀ {t}, m.allocated t = true → Begun m t → m.starts (m.ticket t) = 1
  never : ∀ {t}, m.allocated t = true → ¬ Begun m t → m.starts (m.ticket t) = 0
  called : ∀ {v t}, m.pc v ≠ .user → m.executes v = some t → 0 < m.calls t
  exited : ∀ {t}, m.allocated t = true → m.state t = .finished → 0 < m.calls t ∧ m.ended (m.ticket t) = true
  -- ids not drawn yet, and those of threads that were freed
  fresh : ∀ {k}, m.drawn ≤ k → m.starts k = 0
  gone : ∀ {k}, k ∈ m.threads → (∀ t, m.allocated t = true → m.ticket t ≠ k) → m.starts k = 1 ∧ m.ended k = true

structure Calm (m m' : Mn Lists) : Prop where
  begun : ∀ t, Begun m' t ↔ Begun m t
  starts : m'.starts = m.starts
  calls : m'.calls = m.calls
  ticket : m'.ticket = m.ticket
  threads : m'.threads = m.threads
  drawn : m'.drawn = m.drawn
  ended : ∀ {k}, m.ended k = true → m'.ended k = true
  allocated : ∀ {t}, m'.allocated t = true → m.allocated t = true
  freed : ∀ {t}, m.allocated t = true → m'.allocated t = false → m.state t = .finished

namespace StartedOnce

theorem calm (h : StartedOnce m) (hk : Calm m m')
    (hc : ∀ v t, m'.pc v ≠ .user → m'.executes v = some t → m.pc v ≠ .user ∧ m.executes v = some t ∨ 0 < m.calls t)
    (hf : ∀ t, m'.state t = .finished → m.state t = .finished ∨ 0 < m.calls t ∧ m'.ended (m.ticket t) = true) :
    StartedOnce m' := by
  constructor
  · intro t ha hb
    rw [hk.starts, hk.ticket]
    exact h.once (hk.allocated ha) ((hk.begun t).mp hb)
  · intro t ha hb
    rw [hk.starts, hk.ticket]
    exact h.never (hk.allocated ha) fun hx => hb ((hk.begun t).mpr hx)
  · intro v t hv hx
    rw [hk.calls]
    rcases hc v t hv hx with ⟨hv, hx⟩ | hx
    · exact h.called hv hx
    · exact hx
  · intro t ha ht
    rw [hk.calls, hk.ticket]
    rcases hf t ht with hst | hx
    · obtain ⟨h₁, h₂⟩ := h.exited (hk.allocated ha) hst
      exact ⟨h₁, hk.ended h₂⟩
    · exact hx
  · intro k hn
    rw [hk.drawn] at hn
    rw [hk.starts]
    exact h.fresh hn
  · intro k hm hn
    rw [hk.threads] at hm
    rw [hk.starts]
    by_cases hx : ∃ t, m.allocated t = true ∧ m.ticket t = k
    · -- it is freed in this step
      obtain ⟨t, ha, rfl⟩ := hx
      have hfree : m'.allocated t = false := by
        rw [Bool.eq_false_iff]
        intro hal
        apply hn t hal
        rw [hk.ticket]
      obtain ⟨h₁, h₂⟩ := h.exited ha (hk.freed ha hfree)
      exact ⟨h.once ha (.inl h₁), hk.ended h₂⟩
    · obtain ⟨h₁, h₂⟩ := h.gone hm fun t ha he => hx ⟨t, ha, he⟩
      exact ⟨h₁, hk.ended h₂⟩

theorem beginCall (h : StartedOnce m) (hpc : m.pc v = .user) :
    StartedOnce (m.on (.beginCall v)) ∧ ∀ t, m.current v = some t → 0 < (m.on (.beginCall v)).calls t := by
  have hle : ∀ t, 0 < m.calls t → 0 < (m.on (.beginCall v)).calls t := by
    intro t ht
    cases hc : m.current v with
    | none => simpa [hc] using ht
    | some x =>
      by_cases hx : t = x
      · simp [hc, hx]
      · simpa [hc, hx] using ht
  have hcur : ∀ t, m.current v = some t → 0 < (m.on (.beginCall v)).calls t := by
    intro t hc
    simp [hc]
  have hex : m.executes v = m.current v := executes_of_pc (by rw [hpc]; rfl)
  refine ⟨?_, hcur⟩
  have hb : ∀ t, Begun (m.on (.beginCall v)) t ↔ Begun m t := by
    intro t
    constructor
    · intro ht
      rcases ht with ht | ht
      · by_cases hc : m.current v = some t
        · exact .inr ⟨v, hex.trans hc⟩
        · left
          cases hx : m.current v with
          | none => simpa [hx] using ht
          | some x =>
            have htx : t ≠ x := by
              intro e
              rw [e] at hc
              exact hc hx
            simpa [hx, htx] using ht
      · exact .inr ht
    · intro ht
      rcases ht with ht | ht
      · exact .inl (hle t ht)
      · exact .inr ht
  constructor
  · exact fun ha ht => h.once ha ((hb _).mp ht)
  · exact fun ha ht => h.never ha fun hx => ht ((hb _).mpr hx)
  · exact fun hv hx => hle _ (h.called hv hx)
  · intro t ha hf
    obtain ⟨h₁, h₂⟩ := h.exited ha hf
    exact ⟨hle _ h₁, h₂⟩
  · exact h.fresh
  · exact h.gone

theorem userStep (h : StartedOnce m) (hcall : ∀ t, m.current a.vp = some t → 0 < m.calls t) (hpc : m.pc a.vp = .user)
    (hs : UserStep m a m') : StartedOnce m' := by
  have hex := user_executes hpc hs
  have hcalls : m'.calls = m.calls := by cases hs <;> rfl
  have hended : ∀ {k}, m.ended k = true → m'.ended k = true := by
    intro k hk
    cases hs with
    | @exit t =>
      by_cases he : k = m.ticket t
      · simp [he]
      · simp [he, hk]
    | _ => exact hk
  apply h.calm
  · constructor
    · intro t
      unfold Begun
      rw [hcalls]
      simp only [hex]
    · cases hs <;> rfl
    · exact hcalls
    · cases hs <;> rfl
    · cases hs <;> rfl
    · cases hs <;> rfl
    · exact hended
    · intro t ha
      rcases Mn.user_allocated hs t with he | ⟨hn, -⟩
      · rwa [← he]
      · rw [ha] at hn
        cases hn
    · intro t ha hn
      rcases Mn.user_allocated hs t with he | ⟨-, hf⟩
      · rw [he, ha] at hn
        cases hn
      · exact hf
  · intro u t hu hx
    rw [hex] at hx
    by_cases hua : u = a.vp
    · subst hua
      right
      apply hcall
      rwa [← executes_of_pc (m := m) (by rw [hpc]; rfl)]
    · left
      rw [(Mn.user_others hs hua).1] at hu
      exact ⟨hu, hx⟩
  · intro t hf
    rcases Mn.user_exit hs hf with hst | hc
    · exact .inl hst
    · by_cases hst : m.state t = .finished
      · exact .inl hst
      · refine .inr ⟨hcall t hc, ?_⟩
        cases hs with
        | @exit x hx =>
          obtain rfl := Option.some.inj (hx.symm.trans hc)
          simp
        | @sleep x ms d hx =>
          obtain rfl := Option.some.inj (hx.symm.trans hc)
          simp at hf
        | @io x fd dir hx =>
          obtain rfl := Option.some.inj (hx.symm.trans hc)
          simp at hf
        | _ => exact absurd hf hst

theorem alloc {x : Ptr} (b : Bool) (h : StartedOnce m) (hx : m.allocated x = false)
    (hno : ∀ u, m.executes u ≠ some x) : StartedOnce (m.on (.allocTcb x b)) := by
  have hold : ∀ {t}, t ≠ x → (m.on (.allocTcb x b)).allocated t = true → m.allocated t = true := by
    intro t ht ha
    simpa [MnCore.allocTcb, ht] using ha
  have hbegun : ∀ {t}, t ≠ x → (Begun (m.on (.allocTcb x b)) t ↔ Begun m t) := by
    intro t ht
    have hc : (m.on (.allocTcb x b)).calls t = m.calls t := by simp [MnCore.allocTcb, ht]
    unfold Begun
    rw [hc]
    rfl
  have hnot : ¬ Begun (m.on (.allocTcb x b)) x := by
    intro hb
    rcases hb with hb | ⟨u, hu⟩
    · simp [MnCore.allocTcb] at hb
    · exact hno u hu
  constructor
  · intro t ha hb
    have ht : t ≠ x := by
      intro e
      rw [e] at hb
      exact hnot hb
    simpa [MnCore.allocTcb, ht] using h.once (hold ht ha) ((hbegun ht).mp hb)
  · intro t ha hb
    by_cases ht : t = x
    · simpa [MnCore.allocTcb, ht] using h.fresh (Nat.le_refl m.drawn)
    · simpa [MnCore.allocTcb, ht] using h.never (hold ht ha) fun hy => hb ((hbegun ht).mpr hy)
  · intro u t hu he
    have ht : t ≠ x := by
      intro e
      rw [e] at he
      exact hno u he
    simpa [MnCore.allocTcb, ht] using h.called hu he
  · intro t ha hf
    by_cases ht : t = x
    · simp [MnCore.allocTcb, ht] at hf
    · have hst : m.state t = .finished := by simpa [MnCore.allocTcb, ht] using hf
      simpa [MnCore.allocTcb, ht] using h.exited (hold ht ha) hst
  · intro k hk
    exact h.fresh (Nat.le_of_succ_le hk)
  · intro k hk hn
    apply h.gone
    · cases b with
      | true =>
        have hk' : k = m.drawn ∨ k ∈ m.threads := by simpa [MnCore.allocTcb] using hk
        refine hk'.resolve_left fun e => ?_
        apply hn x
        · simp [MnCore.allocTcb]
        · simp [MnCore.allocTcb, e]
      | false => simpa [MnCore.allocTcb] using hk
    · intro t ha
      have ht : t ≠ x := by
        intro e
        rw [e, hx] at ha
        cases ha
      simpa [MnCore.allocTcb, ht, ha] using hn t

theorem goto {pc : Pc} (h : StartedOnce m) (hex : (m.goto v pc).executes v = m.executes v)
    (hv : m.pc v ≠ .user) : StartedOnce (m.goto v pc) := by
  have hexec : ∀ u, (m.goto v pc).executes u = m.executes u := by
    intro u
    by_cases hu : u = v
    · rw [hu]
      exact hex
    · simp [MnCore.executes, hu]
  have hk : Calm m (m.goto v pc) := by
    refine ⟨fun t => ?_, rfl, rfl, rfl, rfl, rfl, id, id, ?_⟩
    · unfold Begun
      simp only [hexec]
      rfl
    · intro t ha hn
      rw [show (m.goto v pc).allocated t = m.allocated t from rfl, ha] at hn
      cases hn
  apply h.calm hk
  · intro u t hu hx
    rw [hexec] at hx
    by_cases huv : u = v
    · subst huv
      exact .inl ⟨hv, hx⟩
    · exact .inl ⟨by simpa [huv] using hu, hx⟩
  · exact fun t hf => .inl hf

theorem switchIn (h : StartedOnce m) (hd : Handed m) (hsd : Sound m) (htk : Ticketed m) (hpc : m.pc v = .switchIn t)
    (hno : ∀ u, m.executes u ≠ some t) : StartedOnce ((m.on (.loadContext v t)).goto v .user) := by
  have hcur := hsd.switching v t (.inr hpc)
  have hheld := hsd.switched hpc
  have hal := hsd.placed.alive hheld
  have hctx : m.context t = m.calls t := hd.saved (hsd.placed.live hheld) hno
  have hnone : m.executes v = none := executes_none (by rw [hpc]; rfl)
  have hself : ((m.on (.loadContext v t)).goto v .user).executes v = some t := by
    simpa [MnCore.executes, Pc.onStack] using hcur
  have ho : ∀ u, u ≠ v → ((m.on (.loadContext v t)).goto v .user).executes u = m.executes u := by
    intro u hu
    simp [MnCore.executes, hu]
  have hb : ∀ x, x ≠ t → (Begun ((m.on (.loadContext v t)).goto v .user) x ↔ Begun m x) := by
    intro x hx
    constructor
    · intro hy
      rcases hy with hc | ⟨u, hu⟩
      · exact .inl hc
      · by_cases huv : u = v
        · subst huv
          rw [hself] at hu
          cases hu
          exact absurd rfl hx
        · exact .inr ⟨u, by rwa [← ho u huv]⟩
    · intro hy
      rcases hy with hc | ⟨u, hu⟩
      · exact .inl hc
      · have huv : u ≠ v := by
          intro e
          rw [e, hnone] at hu
          cases hu
        exact .inr ⟨u, by rwa [ho u huv]⟩
  have hst : ∀ k, k ≠ m.ticket t → ((m.on (.loadContext v t)).goto v .user).starts k = m.starts k := by
    intro k hk
    by_cases h0 : m.context t = 0 <;> simp [h0, hk]
  have htick : ∀ {x}, m.allocated x = true → x ≠ t → m.ticket x ≠ m.ticket t := by
    intro x hx hne he
    exact hne (htk.inj hx hal he)
  constructor
  · intro x ha hx
    by_cases hxt : x = t
    · subst hxt
      by_cases h0 : m.context x = 0
      · -- it has made no call and nobody executes it
        have hnever : m.starts (m.ticket x) = 0 := by
          apply h.never hal
          intro hy
          rcases hy with hc | ⟨u, hu⟩
          · omega
          · exact hno u hu
        simp [h0, hnever]
      · have hc : 0 < m.calls x := by omega
        simpa [h0] using h.once hal (.inl hc)
    · exact (hst _ (htick ha hxt)).trans (h.once ha ((hb x hxt).mp hx))
  · intro x ha hx
    have hxt : x ≠ t := by
      intro e
      rw [e] at hx
      exact hx (.inr ⟨v, hself⟩)
    exact (hst _ (htick ha hxt)).trans (h.never ha fun hy => hx ((hb x hxt).mpr hy))
  · intro u x hu hx
    by_cases huv : u = v
    · subst huv
      simp at hu
    · rw [ho u huv] at hx
      have hu' : m.pc u ≠ .user := by simpa [huv] using hu
      exact h.called hu' hx
  · exact h.exited
  · intro k hk
    rw [hst k (Nat.ne_of_gt (Nat.lt_of_lt_of_le (htk.drawn (htk.mem hal)) hk))]
    exact h.fresh hk
  · intro k hk hn
    rw [hst k (hn t hal).symm]
    exact h.gone hk hn

theorem ordinary (h : StartedOnce m) (hsd : Sound m) (hs : LoopStep m a m') (hsw : ∀ t, m.pc a.vp ≠ .switchIn t)
    (hcr : m.pc a.vp ≠ .createTcb) : StartedOnce m' := by
  have hsame : m'.starts = m.starts ∧ m'.calls = m.calls ∧ m'.ticket = m.ticket ∧ m'.threads = m.threads ∧
      m'.drawn = m.drawn ∧ m'.ended = m.ended := by
    cases hs with
    | createFail hpc => exact absurd hpc hcr
    | createTcb hpc => exact absurd hpc hcr
    | switchIn hpc => exact absurd hpc (hsw _)
    | _ => exact ⟨rfl, rfl, rfl, rfl, rfl, rfl⟩
  obtain ⟨hst, hcalls, hticket, hthreads, hdrawn, hended⟩ := hsame
  have huser : m.pc a.vp ≠ .user := by
    cases hs with
    | deq hpc => rcases hpc with hpc | hpc <;> simp [hpc]
    | _ hpc => simp [hpc]
  have ho : ∀ u, u ≠ a.vp → m'.executes u = m.executes u := by
    intro u hu
    obtain ⟨h₁, h₂, -⟩ := hsd.booted.others hs hu
    exact executes_others h₁ h₂
  have hold : ∀ u t, m'.executes u = some t → m.executes u = some t := by
    intro u t hx
    by_cases hu : u = a.vp
    · subst hu
      rcases loop_executes hs with he | ⟨-, he⟩ | ⟨t, hpc, -⟩
      · rwa [← he]
      · rw [he] at hx
        cases hx
      · exact absurd hpc (hsw t)
    · rwa [← ho u hu]
  apply h.calm
  · refine ⟨fun t => ?_, hst, hcalls, hticket, hthreads, hdrawn, ?_, ?_, ?_⟩
    · constructor
      · intro hb
        rcases hb with hc | ⟨u, hu⟩
        · rw [hcalls] at hc
          exact .inl hc
        · exact .inr ⟨u, hold u t hu⟩
      · intro hb
        rcases hb with hc | ⟨u, hu⟩
        · rw [← hcalls] at hc
          exact .inl hc
        · by_cases hua : u = a.vp
          · -- inside a call, or leaving the stack
            subst hua
            left
            rw [hcalls]
            exact h.called huser hu
          · exact .inr ⟨u, by rwa [ho u hua]⟩
    · intro k hk
      rwa [hended]
    · intro t ha
      rcases Mn.loop_allocated hs t with he | ⟨hn, -⟩ | ⟨hpc, -⟩
      · rwa [← he]
      · rw [ha] at hn
        cases hn
      · exact absurd hpc hcr
    · intro t ha hn
      rcases Mn.loop_allocated hs t with he | ⟨-, hf⟩ | ⟨hpc, -⟩
      · rw [he, ha] at hn
        cases hn
      · exact hf
      · exact absurd hpc hcr
  · intro u t hu hx
    have hx' := hold u t hx
    by_cases hua : u = a.vp
    · subst hua
      exact .inl ⟨huser, hx'⟩
    · rcases (hsd.booted.others hs hua).1 with he | ⟨he, -⟩
      · rw [he] at hu
        exact .inl ⟨hu, hx'⟩
      · rw [executes_none (by rw [he]; rfl)] at hx'
        cases hx'
  · exact fun t ht => .inl (Mn.loop_exit hs ht)

theorem loopStep (h : StartedOnce m) (hd : Handed m) (hsd : Sound m) (htk : Ticketed m) (hb : Backed m)
    (hno : ∀ t, m.pc a.vp = .switchIn t → ∀ u, m.executes u ≠ some t) (hs : LoopStep m a m') : StartedOnce m' := by
  have hfree : m.allocated a.addr = false → ∀ u, m.executes u ≠ some a.addr := by
    intro hn u hu
    rw [hb u _ hu] at hn
    cases hn
  have hstack : m.pc a.vp = .createTcb → m.executes a.vp = m.current a.vp := fun hpc => executes_of_pc (by rw [hpc]; rfl)
  by_cases hsw : ∃ t, m.pc a.vp = .switchIn t
  · obtain ⟨t, hpc⟩ := hsw
    cases hs with
    | switchIn hpc' => exact h.switchIn hd hsd htk hpc' (hno _ hpc')
    | deq hpc' => simp [hpc] at hpc'
    | _ hpc' =>
      rw [hpc] at hpc'
      cases hpc'
  · by_cases hcr : m.pc a.vp = .createTcb
    · have hx := hstack hcr
      cases hs with
      | @createFail ok hpc ha =>
        cases ok with
        | true => exact h.goto (by rw [hx]; simp [MnCore.executes, Pc.onStack]) (by simp [hpc])
        | false =>
          have hal := h.alloc false (ha rfl) (hfree (ha rfl))
          refine hal.goto ?_ (by simp [MnCore.allocTcb, hpc])
          simp [MnCore.executes, Pc.onStack, Mn.midCall, MnCore.allocTcb, hpc]
      | createTcb hpc ha =>
        have hal := h.alloc true ha (hfree ha)
        refine hal.goto ?_ (by simp [MnCore.allocTcb, hpc])
        simp [MnCore.executes, Pc.onStack, Mn.midCall, MnCore.allocTcb, hpc]
      | deq hpc' => simp [hcr] at hpc'
      | _ hpc' =>
        rw [hcr] at hpc'
        cases hpc'
    · exact h.ordinary hsd hs (fun t hpc => hsw ⟨t, hpc⟩) hcr

end StartedOnce

theorem StartLists.startedOnce (h : StartLists m) : StartedOnce m := by
  obtain ⟨n, k, sem, tr, hn, hc, -⟩ := h
  have hex : ∀ v t, m.executes v ≠ some t := by
    intro v t hv
    have hx := (executes_some hv).2
    rw [hc] at hx
    cases hx
  constructor
  · intro t _ hb
    rcases hb with ht | ⟨v, hv⟩
    · rw [hc] at ht
      exact absurd ht (Nat.lt_irrefl 0)
    · exact absurd hv (hex v t)
  · intro t _ _
    rw [hc]
    rfl
  · exact fun _ hx => absurd hx (hex _ _)
  · intro t _ ht
    rw [hc] at ht
    cases ht
  · intro i _
    rw [hc]
    rfl
  · intro i hi hn
    rw [hc] at hi hn
    have hlt : i < k := by simpa [loaded] using hi
    exact absurd (by simp [loaded, hlt]) (hn i (by simpa [loaded] using hlt))

theorem ListRun.startedOnce (h : ListRun Saved m) : StartedOnce m := by
  induction h with
  | init h => exact h.startedOnce
  | @step m a m' hm hok hs ih =>
    have hsd := ListRun.sound hm
    rcases Mn.step_cases hsd.placed hok.1 hs with ⟨hpc, hu⟩ | hl
    · obtain ⟨h₁, h₂⟩ := ih.beginCall hpc
      exact h₁.userStep h₂ hpc hu
    · exact ih.loopStep (ListRun.handed (fun _ _ ho => ho) hm).1 hsd (ListRun.ticketed hm)
        (ListRun.backed (fun _ _ ho => ho.1) hm) (fun t => ListRun.nobody (fun _ _ ho => ho) hm) hl

/-! ## What is done -/

/-- Every thread ever created has exited after its function was started once, and nothing is queued,
detached or held. -/
structure JobDone (s : Mn MnLinks) : Prop where
  threads : ∀ k ∈ s.threads, s.ended k = true ∧ s.starts k = 1
  finished : ∀ t, s.allocated t = true → s.state t = .finished
  queues : s.q.readyHead = none ∧ ∀ v, s.q.localHead v = none
  detached : ∀ v x tl n, s.pc v ≠ .attach x tl n
  held : ∀ v k, (s.pc v).hand (s.current v) k = []

theorem Refines.jobDone (h : Refines s m) (hm : ListRun Saved m) (ho : Over m) : JobDone s := by
  have hp := (ListRun.sound hm).placed
  have hso := ListRun.startedOnce hm
  have hempty := ho.empty hp
  constructor
  · intro k hk
    rw [h.core] at hk ⊢
    by_cases hx : ∃ t, m.allocated t = true ∧ m.ticket t = k
    · obtain ⟨t, ha, rfl⟩ := hx
      obtain ⟨hc, he⟩ := hso.exited ha (ho.finished ha)
      exact ⟨he, hso.once ha (.inl hc)⟩
    · obtain ⟨h₁, h₂⟩ := hso.gone hk fun t ha he => hx ⟨t, ha, he⟩
      exact ⟨h₂, h₁⟩
  · intro t ha
    rw [h.core] at ha ⊢
    exact ho.finished ha
  · constructor
    · have hc := chain_head (h.q.shared.chain .ready)
      rw [show m.q.shared .ready = [] from hempty (.queue (.shared .ready))] at hc
      exact hc
    · intro v
      have hc := chain_head (h.q.loc v)
      rw [show m.q.q (.loc v) = [] from hempty (.queue (.loc v))] at hc
      exact hc
  · intro v x tl n hv
    have hf := hp.flight v
    rw [h.core] at hv
    rw [hv, show m.q.q (.flight v) = [] from hempty (.queue (.flight v))] at hf
    cases hf.1
  · intro v k
    rw [h.core]
    exact hempty (.hand k v)

structure MnRunFinishes (s : Mn MnLinks) : Prop where
  -- a `vp_loop` that leaves because the traversal of the global list finds no live thread
  leaves : ∀ v, s.pc v = .alive → RunQueues.hasLive s.state s.brk s.q = false → JobDone s
  -- and for ever after, until `uthread_mn_run` has returned
  left : ∀ v, s.pc v = .done ∨ (s.pc v).closing = true → JobDone s
  -- a virtual processor that `running = 0` stops
  stopped : ∀ v, v < s.numVps → s.running v = false → JobDone s

theorem mn_run_finishes (h : SegmentRun s) : MnRunFinishes s := by
  obtain ⟨m, hm, hr⟩ := MnRun.lists (fun _ _ ho => ho.1.1) h.fine.1
  have hsd := ListRun.sound hm
  have he := ListRun.ending hm
  constructor
  · intro v hv hl
    rw [hr.core] at hv
    apply hr.jobDone hm
    apply Ending.of_dead hsd hv
    have hl' : RunQueues.hasLive m.state m.brk m.q = false := by
      rw [← hl, hr.core]
      exact (hr.q.hasLive hsd.placed.glob_le).symm
    intro t ht
    have hf := List.any_eq_false.mp hl' t ht
    simpa using hf
  · intro v hv
    rw [hr.core] at hv
    exact hr.jobDone hm (he.left hv)
  · intro v hv hrun
    rw [hr.core] at hv hrun
    exact hr.jobDone hm (he.stopped hv hrun)

/-- Two virtual processors: thread 0 creates thread 1 and yields, both exit, and `uthread_mn_run` returns. -/
def twoThreads : List MnAct :=
  [{ vp := 0, call := .create }, { vp := 0, call := .mnRun }] ++ List.replicate 8 { vp := 0 } ++
    [{ vp := 0, call := .create, addr := 1 }, { vp := 0, call := .yield }] ++ List.replicate 6 { vp := 1 } ++
    [{ vp := 1, call := .exit }] ++ List.replicate 5 { vp := 0 } ++ [{ vp := 0, call := .exit }] ++
    List.replicate 7 { vp := 1 } ++ List.replicate 10 { vp := 0 }

theorem mn_run_finishes_two :
    let s := (initMn 2 (fun _ => 0) ⟨none, 0, false⟩).segments twoThreads
    s.pc 0 = .returned ∧ s.threads = [1, 0] ∧ s.starts 1 = 1 ∧ MnRunFinishes s :=
  ⟨by decide +kernel, by decide +kernel, by decide +kernel,
    mn_run_finishes (SegmentRun.after (.init (initMn_start (by decide) _ _)) (by decide +kernel))⟩

end Uthread
