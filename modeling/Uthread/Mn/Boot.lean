import Uthread.Mn.Cases

/-!
# Starting the virtual processors

Before `vp_loop`, the only OS thread is the main thread; the others are started
one after the other, and only the main thread leaves `vp_loop` for `uthread_mn_run`.
-/

namespace Uthread

variable {m m' : Mn Lists} {a : MnAct} {v : VpId}

namespace Pc

/-- Inside `main` before `vp_loop`, the first virtual processor that has no OS thread yet. -/
def unborn (pc : Pc) (current : Option Ptr) : Option VpId :=
  match pc with
  | .spawn i => some i
  | pc => if pc.own = some .held ∧ current = none then some 1 else none

def closing : Pc → Bool
  | .stop _ | .join _ | .returned => true
  | _ => false

end Pc

structure Booted (m : Mn Lists) : Prop where
  unborn : ∀ {v n}, (m.pc v).unborn (m.current v) = some n → v = 0 ∧ 1 ≤ n ∧ ∀ u, n ≤ u → m.pc u = .off
  closing : ∀ {v}, (m.pc v).closing = true → v = 0
  range : ∀ {v}, m.numVps ≤ v → m.pc v = .off

namespace Booted

theorem spawning {i : Nat} (h : Booted m) (hpc : m.pc v = .spawn i) : ∀ u, i ≤ u → m.pc u = .off :=
  (h.unborn (v := v) (by rw [hpc]; rfl)).2.2

theorem of_step (h : Booted m) (hv : m.pc v ≠ .off) (hn : m'.numVps = m.numVps)
    (hu : ∀ u, u ≠ v → m'.pc u = m.pc u ∧ m'.current u = m.current u)
    (hb : ∀ n, (m'.pc v).unborn (m'.current v) = some n → (m.pc v).unborn (m.current v) = some n)
    (hc : (m'.pc v).closing = true → v = 0) : Booted m' where
  unborn {u n} hun := by
    by_cases hx : u = v
    · subst hx
      obtain ⟨h₁, h₂, h₃⟩ := h.unborn (hb n hun)
      refine ⟨h₁, h₂, fun w hw => ?_⟩
      have hwu : w ≠ u := by
        rw [h₁]
        exact Nat.ne_of_gt (Nat.lt_of_lt_of_le h₂ hw)
      rw [(hu w hwu).1]
      exact h₃ w hw
    · rw [(hu u hx).1, (hu u hx).2] at hun
      obtain ⟨h₁, h₂, h₃⟩ := h.unborn hun
      refine ⟨h₁, h₂, fun w hw => ?_⟩
      have hwv : w ≠ v := fun e => hv (e ▸ h₃ w hw)
      rw [(hu w hwv).1]
      exact h₃ w hw
  closing {u} hcl := by
    by_cases hx : u = v
    · subst hx
      exact hc hcl
    · rw [(hu u hx).1] at hcl
      exact h.closing hcl
  range {u} hr := by
    rw [hn] at hr
    have huv : u ≠ v := fun e => hv (e ▸ h.range hr)
    rw [(hu u huv).1]
    exact h.range hr

theorem userStep (h : Booted m) (hpc : m.pc a.vp = .user) (hs : UserStep m a m') : Booted m' := by
  have hv : m.pc a.vp ≠ .off := by simp [hpc]
  have hu : ∀ u, u ≠ a.vp → m'.pc u = m.pc u ∧ m'.current u = m.current u := by
    intro u hu
    obtain ⟨h₁, h₂, -⟩ := Mn.user_others hs hu
    exact ⟨h₁, h₂⟩
  apply h.of_step hv (Mn.user_numVps hs) hu
  · cases hs with
    | create => simp [hpc, Mn.gcFinishedThreads, Pc.unborn, Pc.own]
    | mnRun hc => simp [hpc, hc, Pc.unborn, Pc.own]
    | _ hc => simp [hc, Pc.unborn]
  · cases hs <;> simp [Pc.closing]

theorem spawn {i : Nat} (h : Booted m) (hpc : m.pc v = .spawn i) (hi : i < m.numVps) :
    Booted ((m.goto i .test).goto v (.spawn (i + 1))) := by
  obtain ⟨hv, hi₁, hoff⟩ := h.unborn (v := v) (n := i) (by rw [hpc]; rfl)
  have hiv : i ≠ v := by
    rw [hv]
    exact Nat.ne_of_gt hi₁
  constructor
  · intro u n hun
    by_cases hu : u = v
    · subst hu
      have hn : n = i + 1 := by simpa [Pc.unborn, eq_comm] using hun
      subst hn
      refine ⟨hv, Nat.le_add_left 1 i, fun w hw => ?_⟩
      have hwi : w ≠ i := Nat.ne_of_gt hw
      have hwu : w ≠ u := fun e => by
        have := hoff w (Nat.le_of_lt hw)
        rw [e, hpc] at this
        cases this
      simpa [hwi, hwu] using hoff w (Nat.le_of_lt hw)
    · by_cases hui : u = i
      · subst hui
        simp [hu, Pc.unborn, Pc.own] at hun
      · obtain ⟨h₁, -, -⟩ := h.unborn (v := u) (n := n) (by simpa [hu, hui] using hun)
        exact absurd (h₁.trans hv.symm) hu
  · intro u hcl
    by_cases hu : u = v
    · exact hu.trans hv
    · by_cases hui : u = i
      · subst hui
        simp [hu, Pc.closing] at hcl
      · exact h.closing (by simpa [hu, hui] using hcl)
  · intro u hr
    have hui : u ≠ i := fun e => by
      subst e
      exact absurd hi (Nat.not_lt.mpr hr)
    have huv : u ≠ v := fun e => by
      have := h.range hr
      rw [e, hpc] at this
      cases this
    simpa [hui, huv] using h.range hr

theorem loopStep (h : Booted m) (hs : LoopStep m a m') : Booted m' := by
  by_cases hsp : ∃ i, m.pc a.vp = .spawn i ∧ i < m.numVps
  · obtain ⟨i, hpc, hi⟩ := hsp
    rw [Mn.loop_spawn hs hpc hi]
    exact h.spawn hpc hi
  · have hu : ∀ u, u ≠ a.vp → m'.pc u = m.pc u ∧ m'.current u = m.current u := by
      intro u hu
      obtain ⟨h₁, h₂, -⟩ := Mn.loop_others hs hu fun e => hsp ⟨u, e⟩
      exact ⟨h₁, h₂⟩
    apply h.of_step (Mn.loop_started hs) (Mn.loop_numVps hs) hu
    · cases hs with
      | @createFail ok hpc => cases ok <;> simp [hpc, MnCore.allocTcb, Pc.unborn, Pc.own]
      | spawn hpc hi => exact absurd ⟨_, hpc, hi⟩ hsp
      | halt => unfold Mn.leave; split <;> simp [Pc.unborn, Pc.own]
      | dead => unfold Mn.leave; split <;> simp [Pc.unborn, Pc.own]
      | readyEmpty => split <;> simp [Pc.unborn, Pc.own]
      | deq hpc => simp [Pc.unborn, Pc.own]
      | _ hpc => simp [hpc, Mn.gcFinishedThreads, MnCore.allocTcb, Pc.unborn, Pc.own]
    · have hcl : (m.pc a.vp).closing = true → a.vp = 0 := h.closing
      cases hs with
      | @createFail ok hpc => cases ok <;> simp [MnCore.allocTcb, Pc.closing]
      | halt =>
        unfold Mn.leave
        split
        · exact fun _ => ‹_›
        · simp [Pc.closing]
      | dead =>
        unfold Mn.leave
        split
        · exact fun _ => ‹_›
        · simp [Pc.closing]
      | readyEmpty => split <;> simp [Pc.closing]
      | stop hpc => exact fun _ => hcl (by rw [hpc]; rfl)
      | stopped hpc => exact fun _ => hcl (by rw [hpc]; rfl)
      | join hpc => exact fun _ => hcl (by rw [hpc]; rfl)
      | _ => simp [MnCore.allocTcb, Pc.closing]

theorem step (hp : Placed m) (ht : m.Timely a.vp) (h : Booted m) (hs : m.step a = some m') : Booted m' := by
  rcases Mn.step_cases hp ht hs with ⟨hpc, hu⟩ | hl
  · have hb : Booted (m.on (.beginCall a.vp)) := ⟨h.unborn, h.closing, h.range⟩
    exact hb.userStep hpc hu
  · exact h.loopStep hl

theorem others {u : VpId} (h : Booted m) (hs : LoopStep m a m') (hu : u ≠ a.vp) :
    (m'.pc u = m.pc u ∨ m.pc u = .off ∧ m'.pc u = .test) ∧ m'.current u = m.current u ∧ m'.pos u = m.pos u := by
  by_cases hsp : m.pc a.vp = .spawn u ∧ u < m.numVps
  · have hoff := h.spawning hsp.1 u (Nat.le_refl u)
    rw [Mn.loop_spawn hs hsp.1 hsp.2]
    simp [hu, hoff]
  · obtain ⟨h₁, h₂⟩ := Mn.loop_others hs hu hsp
    exact ⟨.inl h₁, h₂⟩

end Booted

/-! ## Dispatch -/

def Switching (m : Mn Lists) : Prop :=
  ∀ v t, m.pc v = .dispatchTrace t ∨ m.pc v = .switchIn t → m.current v = some t

namespace Switching

theorem userStep (h : Switching m) (hs : UserStep m a m') : Switching m' := by
  intro u t hu
  by_cases hua : u = a.vp
  · subst hua
    cases hs <;> simp at hu
  · obtain ⟨hp, hc, -⟩ := Mn.user_others hs hua
    rw [hp] at hu
    rw [hc]
    exact h u t hu

theorem loopStep (h : Switching m) (hs : LoopStep m a m') : Switching m' := by
  intro u t hu
  by_cases hua : u = a.vp
  · subst hua
    have harr := (Mn.loop_arrives hs).2.2.2 t
    cases hs with
    | @dispatch x hpc =>
      obtain rfl : x = t := by simpa using hu
      simp
    | @dispatchTrace x hpc =>
      obtain rfl : x = t := by simpa using hu
      exact h a.vp x (.inl hpc)
    | deq hpc => rcases hu with hu | hu <;> rcases hpc with hpc | hpc <;> simp at hu
    | readyEmpty hpc => split at hu <;> simp at hu
    | _ hpc =>
      rcases hu with hu | hu
      · have he := harr.2 hu
        rw [hpc] at he
        cases he
      · have he := harr.1 hu
        rw [hpc] at he
        cases he
  · obtain ⟨hp | hp, hc, -⟩ := Mn.loop_started_other hs hua
    · rw [hp] at hu
      rw [hc]
      exact h u t hu
    · simp [hp] at hu

end Switching

/-! ## The end of `uthread_mn_run` -/

/-- Behind its own `vp_loop`, the main thread waits for one virtual processor after the other. -/
structure Joined (m : Mn Lists) : Prop where
  upTo : ∀ {v i}, m.pc v = .stop i ∨ m.pc v = .join i → ∀ u, 1 ≤ u → u < i → m.pc u = .done
  all : ∀ {v}, m.pc v = .returned → ∀ u, 1 ≤ u → u < m.numVps → m.pc u = .done

namespace Joined

theorem done_loop {u : VpId} (hs : LoopStep m a m') (hb : Booted m) (hu : m.pc u = .done) : m'.pc u = .done := by
  have hua : u ≠ a.vp := by
    rintro rfl
    cases hs with
    | deq hpc => simp [hu] at hpc
    | _ hpc =>
      rw [hu] at hpc
      cases hpc
  rcases (hb.others hs hua).1 with he | ⟨he, -⟩
  · rw [he, hu]
  · rw [hu] at he
    cases he

theorem userStep (h : Joined m) (hpc : m.pc a.vp = .user) (hs : UserStep m a m') : Joined m' := by
  have hdone : ∀ u, m.pc u = .done → m'.pc u = .done := by
    intro u hu
    have hua : u ≠ a.vp := by
      rintro rfl
      rw [hu] at hpc
      cases hpc
    rw [(Mn.user_others hs hua).1, hu]
  constructor
  · intro v i hv u h₁ h₂
    by_cases hva : v = a.vp
    · subst hva
      cases hs <;> simp at hv
    · rw [(Mn.user_others hs hva).1] at hv
      exact hdone u (h.upTo hv u h₁ h₂)
  · intro v hv u h₁ h₂
    by_cases hva : v = a.vp
    · subst hva
      cases hs <;> simp at hv
    · rw [(Mn.user_others hs hva).1] at hv
      rw [Mn.user_numVps hs] at h₂
      exact hdone u (h.all hv u h₁ h₂)

theorem loopStep (h : Joined m) (hb : Booted m) (hs : LoopStep m a m') : Joined m' := by
  have hdone : ∀ u, m.pc u = .done → m'.pc u = .done := fun u => done_loop hs hb
  constructor
  · intro v i hv u h₁ h₂
    by_cases hva : v = a.vp
    · subst hva
      have hup : ∀ {j}, m.pc a.vp = .stop j ∨ m.pc a.vp = .join j → u < j → m'.pc u = .done :=
        fun hj hlt => hdone u (h.upTo hj u h₁ hlt)
      cases hs with
      | @stop j hpc =>
        have hi : j = i := by simpa using hv
        exact hup (.inl hpc) (hi ▸ h₂)
      | @join j hpc hj =>
        have hi : j + 1 = i := by simpa using hv
        by_cases hu : u = j
        · subst hu
          exact hdone u hj
        · exact hup (.inr hpc) (by omega)
      | @createFail ok _ => cases ok <;> simp [MnCore.allocTcb] at hv
      | readyEmpty => split at hv <;> simp at hv
      | halt =>
        unfold Mn.leave at hv
        split at hv <;> simp at hv
        omega
      | dead =>
        unfold Mn.leave at hv
        split at hv <;> simp at hv
        omega
      | _ => simp [MnCore.allocTcb] at hv
    · rcases (hb.others hs hva).1 with he | ⟨-, he⟩
      · rw [he] at hv
        exact hdone u (h.upTo hv u h₁ h₂)
      · rw [he] at hv
        simp at hv
  · intro v hv u h₁ h₂
    rw [Mn.loop_numVps hs] at h₂
    by_cases hva : v = a.vp
    · subst hva
      cases hs with
      | @stopped i hpc hi => exact hdone u (h.upTo (.inl hpc) u h₁ (by omega))
      | @createFail ok _ => cases ok <;> simp [MnCore.allocTcb] at hv
      | readyEmpty => split at hv <;> simp at hv
      | halt => unfold Mn.leave at hv; split at hv <;> simp at hv
      | dead => unfold Mn.leave at hv; split at hv <;> simp at hv
      | _ => simp [MnCore.allocTcb] at hv
    · rcases (hb.others hs hva).1 with he | ⟨-, he⟩
      · rw [he] at hv
        exact hdone u (h.all hv u h₁ h₂)
      · rw [he] at hv
        cases hv

end Joined

end Uthread
