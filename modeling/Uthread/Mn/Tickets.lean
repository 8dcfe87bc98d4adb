import Uthread.Mn.Orderly

/-!
# Threads and their blocks

A block that was freed may become another thread's TCB. The id drawn for a
thread names it once and for all.
-/

namespace Uthread

open Linked

structure Ticketed (m : Mn Lists) : Prop where
  drawn : ∀ {k}, k ∈ m.threads → k < m.drawn
  nodup : m.threads.Nodup
  mem : ∀ {t}, m.allocated t = true → m.ticket t ∈ m.threads
  inj : ∀ {t u}, m.allocated t = true → m.allocated u = true → m.ticket t = m.ticket u → t = u

variable {m m' : Mn Lists} {a : MnAct} {t : Ptr} {v : VpId} {ok : MnCore → MnAct → Prop}

namespace Ticketed

theorem shrink (h : Ticketed m) (ha : ∀ t, m'.allocated t = true → m.allocated t = true) (ht : m'.ticket = m.ticket)
    (hth : m'.threads = m.threads) (hd : m'.drawn = m.drawn) : Ticketed m' where
  drawn hk := by
    rw [hth] at hk
    rw [hd]
    exact h.drawn hk
  nodup := by
    rw [hth]
    exact h.nodup
  mem hal := by
    rw [hth, ht]
    exact h.mem (ha _ hal)
  inj h₁ h₂ he := by
    rw [ht] at he
    exact h.inj (ha _ h₁) (ha _ h₂) he

theorem gc (h : Ticketed m) : Ticketed (m.gcFinishedThreads v) := by
  refine h.shrink ?_ rfl rfl rfl
  intro t ht
  simp only [Mn.gcFinishedThreads, Bool.and_eq_true] at ht
  exact ht.1

theorem alloc (h : Ticketed m) (b : Bool) : Ticketed (m.on (.allocTcb t b)) := by
  have hold : ∀ {u}, u ≠ t → (m.on (.allocTcb t b)).allocated u = true → m.allocated u = true := by
    intro u hu hal
    simpa [MnCore.allocTcb, hu] using hal
  have hb : ∀ {u}, u = t → (m.on (.allocTcb t b)).allocated u = true → b = true := by
    intro u hu hal
    simpa [MnCore.allocTcb, hu] using hal
  have hne : ∀ {u}, u ≠ t → (m.on (.allocTcb t b)).allocated u = true → m.ticket u ≠ m.drawn := by
    intro u hu hal
    exact Nat.ne_of_lt (h.drawn (h.mem (hold hu hal)))
  constructor
  · intro k hk
    have hk' : k = m.drawn ∨ k ∈ m.threads := by
      cases b with
      | true => simpa [MnCore.allocTcb] using hk
      | false => exact .inr (by simpa [MnCore.allocTcb] using hk)
    rcases hk' with rfl | hk'
    · exact Nat.lt_succ_self _
    · exact Nat.lt_succ_of_lt (h.drawn hk')
  · cases b with
    | true =>
      refine List.nodup_cons.mpr ⟨fun hm => ?_, h.nodup⟩
      exact Nat.lt_irrefl _ (h.drawn hm)
    | false => exact h.nodup
  · intro u hal
    by_cases hu : u = t
    · simp [MnCore.allocTcb, hu, hb hu hal]
    · have hm := h.mem (hold hu hal)
      cases b <;> simp [MnCore.allocTcb, hu, hm]
  · intro u w h₁ h₂ he
    by_cases hu : u = t
    · by_cases hw : w = t
      · rw [hu, hw]
      · exact absurd (by simpa [MnCore.allocTcb, hu, hw] using he.symm) (hne hw h₂)
    · by_cases hw : w = t
      · exact absurd (by simpa [MnCore.allocTcb, hu, hw] using he) (hne hu h₁)
      · exact h.inj (hold hu h₁) (hold hw h₂) (by simpa [MnCore.allocTcb, hu, hw] using he)

theorem userStep (h : Ticketed m) (hs : UserStep m a m') : Ticketed m' := by
  cases hs with
  | create => exact h.gc.shrink (fun _ ht => ht) rfl rfl rfl
  | _ => exact h.shrink (fun _ ht => ht) rfl rfl rfl

theorem loopStep (h : Ticketed m) (hs : LoopStep m a m') : Ticketed m' := by
  cases hs with
  | @createFail b =>
    cases b with
    | true => exact h.shrink (fun _ ht => ht) rfl rfl rfl
    | false => exact (h.alloc false).shrink (fun _ ht => ht) rfl rfl rfl
  | createTcb => exact (h.alloc true).shrink (fun _ ht => ht) rfl rfl rfl
  | stopped => exact h.gc.shrink (fun _ ht => ht) rfl rfl rfl
  | _ => exact h.shrink (fun _ ht => ht) rfl rfl rfl

end Ticketed

theorem ListRun.ticketed (h : ListRun ok m) : Ticketed m := by
  apply ListRun.inv _ _ _ h
  · intro m ⟨n, k, sem, tr, hn, hc, _⟩
    constructor
    · intro k hk
      rw [hc] at hk ⊢
      simpa [loaded] using hk
    · rw [hc]
      simp [loaded, List.nodup_range]
    · intro t ht
      rw [hc] at ht ⊢
      have hlt : t < k := by simpa [loaded] using ht
      simp [loaded, hlt]
    · intro t u h₁ h₂ he
      rw [hc] at h₁ h₂ he
      have ht : t < k := by simpa [loaded] using h₁
      have hu : u < k := by simpa [loaded] using h₂
      simpa [loaded, ht, hu] using he
  · intro m a m' _ ht _ _ hu
    have ht' : Ticketed (m.on (.beginCall a.vp)) := ⟨ht.drawn, ht.nodup, ht.mem, ht.inj⟩
    exact ht'.userStep hu
  · intro m a m' _ ht _ hl
    exact ht.loopStep hl

end Uthread
