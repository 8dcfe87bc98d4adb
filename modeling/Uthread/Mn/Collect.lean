import Uthread.Mn.Conserve

/-!
# Freeing threads

`gc_finished_threads` spares the thread of the collecting virtual processor. What
other virtual processors still use is FINISHED in a few windows only: behind
`state = FINISHED` in `mn_exit`, behind the thief section of `try_steal`, behind
`enqueue` in `uthread_create_with_priority`, and in `mn_yield` behind an append to
a wait queue or a publication.
-/

namespace Uthread

open Linked

def Pc.onStack : Pc → Bool
  | .user => true
  | pc => Mn.midCall pc

/-- The thread whose code a virtual processor executes. -/
def MnCore.executes (c : MnCore) (v : VpId) : Option Ptr := if (c.pc v).onStack then c.current v else none

def Pc.locals : Pc → List Ptr
  | .createAdd t | .createEnq t | .createTrace t | .createRet t => [t]
  | .append _ tail => tail.toList
  | .pop _ t | .wakeMark t | .wakeTrace t | .enqRead t => [t]
  | .wakeEnq t tail => t :: tail.toList
  | .attach h tl _ => h :: tl.toList
  | .stealTrace t | .dispatch t | .dispatchTrace t | .switchIn t => [t]
  | _ => []

/-- The TCBs that `v`'s code goes on to dereference, and the thread on whose stack it runs. -/
def MnCore.uses (c : MnCore) (v : VpId) : List Ptr := (c.pc v).locals ++ (c.executes v).toList

/-- Behind the last step at which a thread is held, and still on its stack. -/
def Pc.leavesStack : Pc → Bool
  | .yieldTest | .swapOut _ | .exitTrace | .exitSwitch => true
  | _ => false

/-- What is used once more where a thread is neither listed nor held. -/
def Pc.lastUse (pc : Pc) (current : Option Ptr) : List Ptr :=
  match pc with
  | .createTrace t | .createRet t | .stealTrace t => [t]
  | pc => if pc.leavesStack then current.toList else []

/-- The collection pass of `uthread_create` meets no FINISHED thread whose stack another processor is still leaving. -/
def CollectsLeft (c : MnCore) (a : MnAct) : Prop :=
  c.pc a.vp = .user → a.call = .create → ∀ v < c.numVps, (c.pc v).leavesStack = true → ∀ t ∈ c.current v, c.state t ≠ .finished

instance (c : MnCore) (a : MnAct) : Decidable (CollectsLeft c a) := by
  unfold CollectsLeft
  infer_instance

/-- It meets no thread that has FINISHED in one of the windows. -/
def CollectsUnused (c : MnCore) (a : MnAct) : Prop :=
  c.pc a.vp = .user → a.call = .create → ∀ v < c.numVps, ∀ t ∈ (c.pc v).lastUse (c.current v), c.state t ≠ .finished

instance (c : MnCore) (a : MnAct) : Decidable (CollectsUnused c a) := by
  unfold CollectsUnused
  infer_instance

/-- Steps without races that unmap no stack in use. -/
def Mapped (c : MnCore) (a : MnAct) : Prop := Orderly c a ∧ CollectsLeft c a

instance (c : MnCore) (a : MnAct) : Decidable (Mapped c a) := inferInstanceAs (Decidable (_ ∧ _))

/-- Steps without races that free nothing in use. -/
def Tidy (c : MnCore) (a : MnAct) : Prop := Orderly c a ∧ CollectsUnused c a

instance (c : MnCore) (a : MnAct) : Decidable (Tidy c a) := inferInstanceAs (Decidable (_ ∧ _))

theorem Tidy.mapped {c : MnCore} {a : MnAct} (h : Tidy c a) : Mapped c a := by
  refine ⟨h.1, fun hpc hk v hv hl t ht => h.2 hpc hk v hv t ?_⟩
  cases hp : c.pc v with
  | yieldTest | swapOut | exitTrace | exitSwitch => simpa [Pc.lastUse, Pc.leavesStack] using ht
  | _ =>
    rw [hp] at hl
    cases hl

section
variable {s : Mn MnLinks} {m m' : Mn Lists} {a : MnAct} {t : Ptr} {u v : VpId} {pc : Pc} {i : Nat}
  {ok : MnCore → MnAct → Prop}

attribute [local simp] Mn.midCall

/-! ## Stacks -/

theorem executes_of_pc (h : (m.pc v).onStack = true) : m.executes v = m.current v := by
  unfold MnCore.executes
  rw [if_pos h]

theorem executes_none (h : (m.pc v).onStack = false) : m.executes v = none := by
  unfold MnCore.executes
  rw [if_neg (by simp [h])]

theorem executes_some (h : m.executes v = some t) : (m.pc v).onStack = true ∧ m.current v = some t := by
  unfold MnCore.executes at h
  split at h
  · exact ⟨‹_›, h⟩
  · cases h

theorem executes_others (hp : m'.pc u = m.pc u ∨ m.pc u = .off ∧ m'.pc u = .test) (hc : m'.current u = m.current u) :
    m'.executes u = m.executes u := by
  obtain hp | ⟨h₁, h₂⟩ := hp
  · unfold MnCore.executes
    rw [hp, hc]
  · rw [executes_none (m := m) (by rw [h₁]; rfl), executes_none (by rw [h₂]; rfl)]

theorem user_executes (hpc : m.pc a.vp = .user) (hs : UserStep m a m') (u : VpId) : m'.executes u = m.executes u := by
  by_cases hu : u = a.vp
  · subst hu
    rw [executes_of_pc (m := m) (by rw [hpc]; rfl)]
    cases hs with
    | mnRun hc => simp [MnCore.executes, Pc.onStack, hc]
    | _ => simp [MnCore.executes, Pc.onStack, Mn.gcFinishedThreads]
  · obtain ⟨h₁, h₂, -⟩ := Mn.user_others hs hu
    exact executes_others (.inl h₁) h₂

theorem loop_executes (hs : LoopStep m a m') : m'.executes a.vp = m.executes a.vp ∨
    ((∃ b, m.pc a.vp = .swapOut b) ∨ m.pc a.vp = .exitSwitch) ∧ m'.executes a.vp = none ∨
    ∃ t, m.pc a.vp = .switchIn t ∧ m'.executes a.vp = m.current a.vp := by
  cases hs with
  | swapOut hpc => exact .inr (.inl ⟨.inl ⟨_, hpc⟩, by simp [MnCore.executes, Pc.onStack]⟩)
  | exitSwitch hpc => exact .inr (.inl ⟨.inr hpc, by simp [MnCore.executes, Pc.onStack]⟩)
  | switchIn hpc => exact .inr (.inr ⟨_, hpc, by simp [MnCore.executes, Pc.onStack]⟩)
  | @createFail ok hpc => cases ok <;> simp [MnCore.executes, Pc.onStack, MnCore.allocTcb, hpc]
  | deq hpc => rcases hpc with hpc | hpc <;> simp [MnCore.executes, Pc.onStack, hpc]
  | readyEmpty hpc => split <;> simp [MnCore.executes, Pc.onStack, hpc]
  | halt hpc => unfold Mn.leave; split <;> simp [MnCore.executes, Pc.onStack, hpc]
  | dead hpc => unfold Mn.leave; split <;> simp [MnCore.executes, Pc.onStack, hpc]
  | _ hpc => simp [MnCore.executes, Pc.onStack, Mn.gcFinishedThreads, MnCore.allocTcb, hpc]

theorem Sound.executed (h : Sound m) (he : m.executes v = some t) :
    (m.pc v).leavesStack = true ∧ v < m.numVps ∨ ∃ i, t ∈ m.places i := by
  obtain ⟨hs, hcur⟩ := executes_some he
  cases hown : (m.pc v).own with
  | some k => exact .inr ⟨_, Mn.mem_own rfl hown hcur⟩
  | none =>
    left
    constructor
    · cases hpc : m.pc v with
      | yieldTest | swapOut | exitTrace | exitSwitch => rfl
      | _ => simp [hpc, Pc.own, Pc.onStack, Mn.midCall] at hown hs
    · by_contra hlt
      rw [h.booted.range (Nat.le_of_not_lt hlt)] at hs
      cases hs

theorem Sound.last (h : Sound m) (hpc : m.pc v = .stop i) (hi : ¬ i < m.numVps) (hu : u ≠ v) :
    m.pc u = .done ∨ m.pc u = .off := by
  have hu0 : u ≠ 0 := by rwa [h.booted.closing (v := v) (by rw [hpc]; rfl)] at hu
  by_cases hlt : u < m.numVps
  · exact .inl (h.joined.upTo (.inl hpc) u (Nat.pos_of_ne_zero hu0) (Nat.lt_of_lt_of_le hlt (Nat.le_of_not_lt hi)))
  · exact .inr (h.booted.range (Nat.le_of_not_lt hlt))

theorem loop_keeps (hs : LoopStep m a m') (ha : m.allocated t = true) :
    m'.allocated t = true ∨ ∃ i, m.pc a.vp = .stop i ∧ ¬ i < m.numVps := by
  have hb : m.allocated a.addr = false → t ≠ a.addr := by
    intro hn e
    rw [← e, ha] at hn
    cases hn
  cases hs with
  | @createFail ok _ hn =>
    cases ok with
    | true => exact .inl ha
    | false => simp [MnCore.allocTcb, ha, hb (hn rfl)]
  | createTcb _ hn => simp [MnCore.allocTcb, ha, hb hn]
  | stopped hpc hi => exact .inr ⟨_, hpc, hi⟩
  | _ => exact .inl ha

def Backed (m : Mn Lists) : Prop := ∀ v t, m.executes v = some t → m.allocated t = true

theorem Backed.userStep (h : Backed m) (hsd : Sound m) (hok : CollectsLeft m.toMnCore a) (hpc : m.pc a.vp = .user)
    (hs : UserStep m a m') : Backed m' := by
  intro u t he
  rw [user_executes hpc hs] at he
  have ha := h u t he
  cases hs with
  | create hk =>
    have hst : m.state t ≠ .finished := by
      rcases hsd.executed he with ⟨hl, hlt⟩ | ⟨i, hi⟩
      · exact hok hpc hk u hlt hl t (executes_some he).2
      · exact hsd.placed.live hi
    simp [Mn.gcFinishedThreads, RunQueues.gc, ha, hst]
  | _ => exact ha

theorem Backed.loopStep (h : Backed m) (hsd : Sound m) (hs : LoopStep m a m') : Backed m' := by
  intro u t he
  by_cases hu : u = a.vp
  · subst hu
    rcases loop_executes hs with he' | ⟨-, he'⟩ | ⟨x, hpc, he'⟩
    · rw [he'] at he
      rcases loop_keeps hs (h _ t he) with ha | ⟨i, hpc, -⟩
      · exact ha
      · rw [executes_none (by rw [hpc]; rfl)] at he
        cases he
    · rw [he'] at he
      cases he
    · rw [he', hsd.switching a.vp x (.inr hpc)] at he
      cases he
      rcases loop_keeps hs (hsd.placed.alive (hsd.switched hpc)) with ha | ⟨i, hpc', -⟩
      · exact ha
      · rw [hpc] at hpc'
        cases hpc'
  · obtain ⟨hpu, hcu, -⟩ := hsd.booted.others hs hu
    rw [executes_others hpu hcu] at he
    rcases loop_keeps hs (h u t he) with ha | ⟨i, hpc, hi⟩
    · exact ha
    · rcases hsd.last hpc hi hu with hd | hd
      · rw [executes_none (by rw [hd]; rfl)] at he
        cases he
      · rw [executes_none (by rw [hd]; rfl)] at he
        cases he

theorem ListRun.backed (hk : ∀ c a, ok c a → Mapped c a) (h : ListRun ok m) : Backed m := by
  apply ListRun.inv _ _ _ h
  · intro m ⟨n, k, sem, tr, hn, hc, _⟩ v t he
    have hcur := (executes_some he).2
    rw [hc] at hcur
    cases hcur
  · intro m a m' hsd hb hok hpc hu
    exact Backed.userStep (m := m.on (.beginCall a.vp)) hb hsd.beginCall (hk _ _ hok).2 hpc hu
  · intro m a m' hsd hb _ hl
    exact hb.loopStep hsd hl

def Exiting (m : Mn Lists) : Prop :=
  ∀ v t, m.pc v = .exitTrace ∨ m.pc v = .exitSwitch → m.current v = some t → m.state t = .finished

theorem Exiting.userStep (h : Exiting m) (hp : Placed m) (hpc : m.pc a.vp = .user) (hs : UserStep m a m') : Exiting m' := by
  intro u t hu hc
  by_cases hua : u = a.vp
  · subst hua
    cases hs with
    | exit hx =>
      obtain rfl := Option.some.inj (hx.symm.trans hc)
      simp
    | _ => simp at hu
  · obtain ⟨hpu, hcu, -⟩ := Mn.user_others hs hua
    rw [hpu] at hu
    rw [hcu] at hc
    have hf := h u t hu hc
    rcases Mn.user_state hpc hs t with he | ⟨i, hi, -⟩
    · rw [he, hf]
    · exact absurd hf (hp.live hi)

theorem Exiting.loopStep (h : Exiting m) (hsd : Sound m) (hb : Backed m) (hs : LoopStep m a m') : Exiting m' := by
  have hkept : ∀ {u t}, m.pc u = .exitTrace ∨ m.pc u = .exitSwitch → m.current u = some t → m'.state t = .finished := by
    intro u t hu hc
    have hf := h u t hu hc
    rcases Mn.loop_state hs t with he | ⟨i, hi, -⟩ | ⟨-, -, hn⟩
    · rw [he, hf]
    · exact absurd hf (hsd.placed.live hi)
    · have hal : m.allocated t = true := by
        apply hb u
        rw [executes_of_pc _, hc]
        rcases hu with hu | hu <;> rw [hu] <;> rfl
      rw [hal] at hn
      cases hn
  intro u t hu hc
  by_cases hua : u = a.vp
  · subst hua
    obtain ⟨hexit, hswitch, -⟩ := Mn.loop_arrives hs
    have hpc := hswitch (hu.resolve_left hexit)
    cases hs with
    | exitTrace hpc' => exact hkept (.inl hpc') hc
    | deq hpc' => simp [hpc] at hpc'
    | _ hpc' =>
      rw [hpc] at hpc'
      cases hpc'
  · obtain ⟨he | ⟨-, he⟩, hcu, -⟩ := hsd.booted.others hs hua
    · rw [he] at hu
      rw [hcu] at hc
      exact hkept hu hc
    · simp [he] at hu

theorem ListRun.exiting (hk : ∀ c a, ok c a → Mapped c a) (h : ListRun ok m) : Exiting m := by
  induction h with
  | @init m hm =>
    intro v t hv
    rw [hm.control] at hv
    by_cases h0 : v = 0 <;> simp [h0] at hv
  | @step m a m' hm hok hs ih =>
    have hsd := ListRun.sound hm
    rcases Mn.step_cases hsd.placed hok.1 hs with ⟨hpc, hu⟩ | hl
    · exact Exiting.userStep (m := m.on (.beginCall a.vp)) ih hsd.placed.beginCall hpc hu
    · exact ih.loopStep hsd (ListRun.backed hk hm) hl

/-! ## Local variables -/

def Named (m : Mn Lists) : Prop := ∀ v t, t ∈ (m.pc v).locals → m.allocated t = true

attribute [local simp] Pc.locals

theorem Sound.named (h : Sound m) (hc : Current m) (ht : t ∈ (m.pc v).locals) :
    t ∈ (m.pc v).lastUse (m.current v) ∨ ∃ i, t ∈ m.places i := by
  cases hpc : m.pc v with
  | createAdd x | createEnq x | wakeTrace x | enqRead x =>
    rw [hpc] at ht
    exact .inr ⟨_, Mn.mem_pend (v := v) (by rw [hpc]; exact ht)⟩
  | createTrace x | createRet x | stealTrace x =>
    rw [hpc] at ht
    exact .inl ht
  | append w tl =>
    rw [hpc] at ht
    have hl := hc.append hpc
    obtain rfl : tl = some t := Option.mem_toList.mp ht
    exact .inr ⟨.queue (.shared (.wait w)), List.mem_of_getLast? hl⟩
  | pop w x =>
    rw [hpc] at ht
    obtain rfl : t = x := List.mem_singleton.mp ht
    exact .inr ⟨.queue (.shared (.wait w)), List.mem_of_head? (hc.pop hpc)⟩
  | wakeMark x =>
    rw [hpc] at ht
    obtain rfl : t = x := List.mem_singleton.mp ht
    exact .inr ⟨_, Mn.mem_popped hpc⟩
  | wakeEnq x tl =>
    rw [hpc] at ht
    right
    rcases List.mem_cons.mp ht with rfl | ht
    · exact ⟨_, Mn.mem_pend (v := v) (by simp [hpc, Pc.pend])⟩
    · have hl := hc.enqueue hpc
      obtain rfl : tl = some t := Option.mem_toList.mp ht
      exact ⟨.queue (.shared .ready), List.mem_of_getLast? hl⟩
  | attach x tl n =>
    rw [hpc] at ht
    have hf := h.placed.flight v
    rw [hpc] at hf
    refine .inr ⟨.queue (.flight v), ?_⟩
    rcases List.mem_cons.mp ht with rfl | ht
    · exact List.mem_of_head? hf.1
    · rw [← hf.2.1] at ht
      exact List.mem_of_getLast? (Option.mem_toList.mp ht)
  | dispatch x =>
    rw [hpc] at ht
    obtain rfl : t = x := List.mem_singleton.mp ht
    exact .inr ⟨_, Mn.mem_taken hpc⟩
  | dispatchTrace x =>
    rw [hpc] at ht
    obtain rfl : t = x := List.mem_singleton.mp ht
    exact .inr ⟨_, Mn.mem_own hpc rfl (h.switching v t (.inl hpc))⟩
  | switchIn x =>
    rw [hpc] at ht
    obtain rfl : t = x := List.mem_singleton.mp ht
    exact .inr ⟨_, h.switched hpc⟩
  | _ =>
    rw [hpc] at ht
    cases ht

theorem Named.userStep (h : Named m) (hsd : Sound m) (hcu : Current m) (hok : CollectsUnused m.toMnCore a)
    (hpc : m.pc a.vp = .user) (hs : UserStep m a m') : Named m' := by
  intro u t ht
  by_cases hu : u = a.vp
  · subst hu
    cases hs <;> simp at ht
  · rw [(Mn.user_others hs hu).1] at ht
    have ha := h u t ht
    cases hs with
    | create hk =>
      have hst : m.state t ≠ .finished := by
        rcases hsd.named hcu ht with hl | ⟨i, hi⟩
        · refine hok hpc hk u ?_ t hl
          by_contra hlt
          rw [hsd.booted.range (Nat.le_of_not_lt hlt)] at ht
          cases ht
        · exact hsd.placed.live hi
      simp [Mn.gcFinishedThreads, RunQueues.gc, ha, hst]
    | _ => exact ha

theorem Named.own (h : Named m) (hp : Placed m) (hs : LoopStep m a m') (ht : t ∈ (m'.pc a.vp).locals) :
    m.allocated t = true ∨ m.pc a.vp = .createTcb ∧ t = a.addr ∧ m'.allocated t = true := by
  have hloc : ∀ {pc x}, m.pc a.vp = pc → x ∈ pc.locals → m.allocated x = true := by
    intro pc x hpc hx
    apply h a.vp
    rw [hpc]
    exact hx
  cases hs with
  | @createFail ok => cases ok <;> simp [MnCore.allocTcb] at ht
  | createTcb hpc =>
    obtain rfl : t = a.addr := by simpa [MnCore.allocTcb] using ht
    exact .inr ⟨hpc, rfl, by simp [MnCore.allocTcb]⟩
  | createAdd hpc | createEnq hpc | createTrace hpc | pop hpc | wakeMark hpc | wakeTrace hpc | dispatch hpc
  | dispatchTrace hpc =>
    obtain rfl : t = _ := by simpa using ht
    exact .inl (hloc hpc (List.mem_singleton_self _))
  | @appendRead w hpc =>
    have hx : (m.q.q (.shared (.wait w))).getLast? = some t := by simpa using ht
    exact .inl (hp.alive (i := .queue (.shared (.wait w))) (List.mem_of_getLast? hx))
  | @wakeRead w x ts hpc hq =>
    obtain rfl : t = x := by simpa using ht
    exact .inl (hp.alive (i := .queue (.shared (.wait w))) (by simp [Mn.places, hq]))
  | @enqRead x hpc =>
    have hx : t = x ∨ (m.q.q (.shared .ready)).getLast? = some t := by simpa using ht
    rcases hx with rfl | hx
    · exact .inl (hloc hpc (List.mem_singleton_self t))
    · exact .inl (hp.alive (i := .queue (.shared .ready)) (List.mem_of_getLast? hx))
  | @deq x ts hpc hq =>
    obtain rfl : t = x := by simpa using ht
    exact .inl (hp.alive (i := .queue (.loc a.vp)) (by simp [Mn.places, hq]))
  | @ready x ts hpc hq =>
    obtain rfl : t = x := by simpa using ht
    exact .inl (hp.alive (i := .queue (.shared .ready)) (by simp [Mn.places, hq]))
  | @steal start i victim x xs ys hpc hv hq hx hn =>
    have hm : t ∈ xs := by
      have ht' : t = x ∨ xs.getLast? = some t := by simpa using ht
      rcases ht' with rfl | hl
      · exact List.mem_of_head? hx
      · exact List.mem_of_getLast? hl
    exact .inl (hp.alive (i := .queue (.loc victim)) (by simp [Mn.places, hq, hm]))
  | @attach x tl n hpc =>
    obtain rfl : t = x := by simpa using ht
    exact .inl (hloc hpc List.mem_cons_self)
  | readyEmpty => split at ht <;> simp at ht
  | halt => unfold Mn.leave at ht; split at ht <;> simp at ht
  | dead => unfold Mn.leave at ht; split at ht <;> simp at ht
  | _ => simp at ht

theorem Named.loopStep (h : Named m) (hsd : Sound m) (hs : LoopStep m a m') : Named m' := by
  intro u t ht
  by_cases hu : u = a.vp
  · subst hu
    rcases h.own hsd.placed hs ht with ha | ⟨-, -, ha⟩
    · rcases loop_keeps hs ha with ha | ⟨i, hpc, hi⟩
      · exact ha
      · cases hs with
        | stopped => simp at ht
        | stop hpc' hi' =>
          rw [hpc] at hpc'
          cases hpc'
          exact absurd hi' hi
        | deq hpc' => simp [hpc] at hpc'
        | _ hpc' =>
          rw [hpc] at hpc'
          cases hpc'
    · exact ha
  · obtain ⟨he | ⟨-, he⟩, -⟩ := hsd.booted.others hs hu
    · rw [he] at ht
      rcases loop_keeps hs (h u t ht) with ha | ⟨i, hpc, hi⟩
      · exact ha
      · rcases hsd.last hpc hi hu with hd | hd
        · rw [hd] at ht
          cases ht
        · rw [hd] at ht
          cases ht
    · rw [he] at ht
      cases ht

theorem ListRun.named (hk : ∀ c a, ok c a → Tidy c a) (h : ListRun ok m) : Named m := by
  induction h with
  | @init m hm =>
    intro v t ht
    rw [hm.control] at ht
    by_cases h0 : v = 0 <;> simp [h0] at ht
  | @step m a m' hm hok hs ih =>
    have hsd := ListRun.sound hm
    have hcu := ListRun.current (fun c a ho => (hk c a ho).1) hm
    rcases Mn.step_cases hsd.placed hok.1 hs with ⟨hpc, hu⟩ | hl
    · have hcu' : Current (m.on (.beginCall a.vp)) := ⟨hcu.append, hcu.pop, hcu.enqueue⟩
      exact Named.userStep (m := m.on (.beginCall a.vp)) ih hsd.beginCall hcu' (hk _ _ hok.2).2 hpc hu
    · exact ih.loopStep hsd hl

/-! ## On the links -/

/-- The threads that lists, queues and detached chains lead to. -/
def Mn.Linked (s : Mn MnLinks) (t : Ptr) : Prop :=
  t ∈ s.readyThreads ∨ (∃ v, t ∈ s.localThreads v ∨ t ∈ s.detached v) ∨ (∃ w, t ∈ s.chain (s.q.waitHead w)) ∨
    t ∈ s.chain s.q.sleepListHead ∨ t ∈ walk s.q.globalNext s.brk s.q.globalThreadList

structure Reclaimed (s : Mn MnLinks) : Prop where
  -- the stack under a virtual processor is mapped
  stack : ∀ v t, s.executes v = some t → s.allocated t = true
  -- a TCB that a virtual processor's code goes on to dereference is not freed, `stolen_head` included
  uses : ∀ v t, t ∈ s.uses v → s.allocated t = true
  linked : ∀ t, s.Linked t → s.allocated t = true

theorem Refines.linked (hp : Placed m) (h : Refines s m) (ht : s.Linked t) : m.allocated t = true := by
  have hb : s.brk = m.brk := by rw [h.core]
  have hwalk : ∀ {i : Queue} {p}, Chain s.q.next p (m.q.q i) → t ∈ s.chain p → m.allocated t = true := by
    intro i p hc hm
    unfold Mn.chain at hm
    rw [walk_eq hc (by rw [hb]; exact hp.length_le)] at hm
    exact hp.alive (i := .queue i) hm
  rcases ht with ht | ⟨v, ht | ht⟩ | ⟨w, ht⟩ | ht | ht
  · exact hwalk (h.q.shared.chain .ready) ht
  · exact hwalk (h.q.loc v) ht
  · rw [h.detached hp] at ht
    exact hp.alive (i := .queue (.flight v)) ht
  · exact hwalk (h.q.shared.chain (.wait w)) ht
  · exact hwalk (h.q.shared.chain .sleep) ht
  · rw [walk_eq h.q.shared.glob.fwd (by rw [hb]; exact hp.glob_le)] at ht
    exact ((hp.listed t).mp ht).1

theorem Refines.unfreed (hp : Placed m) (hb : Backed m) (hn : Named m) (h : Refines s m) : Reclaimed s := by
  have hal : s.allocated = m.allocated := by rw [h.core]
  constructor
  · intro v t ht
    rw [h.core] at ht ⊢
    exact hb v t ht
  · intro v t ht
    rw [h.core] at ht ⊢
    rcases List.mem_append.mp ht with ht | ht
    · exact hn v t ht
    · exact hb v t (Option.mem_toList.mp ht)
  · intro t ht
    rw [hal]
    exact h.linked hp ht

theorem lastUse_sub (ht : t ∈ (m.pc v).lastUse (m.current v)) : t ∈ m.uses v := by
  unfold MnCore.uses MnCore.executes
  cases hpc : m.pc v with
  | createTrace x | createRet x | stealTrace x =>
    obtain rfl : t = x := by simpa [hpc, Pc.lastUse] using ht
    simp
  | yieldTest | swapOut | exitTrace | exitSwitch => simpa [hpc, Pc.lastUse, Pc.leavesStack, Pc.onStack] using ht
  | _ => simp [hpc, Pc.lastUse, Pc.leavesStack] at ht

theorem freed_in_use (hp : Placed m) (h : ¬ CollectsUnused m.toMnCore a) (hs : m.step a = some m') :
    ∃ v t, t ∈ m'.uses v ∧ m'.allocated t = false := by
  simp only [CollectsUnused, Classical.not_imp, not_forall, not_not] at h
  obtain ⟨hpc, hk, v, hv, t, ht, hf⟩ := h
  have hva : v ≠ a.vp := by
    rintro rfl
    simp [hpc, Pc.lastUse, Pc.leavesStack] at ht
  have hcur : some t ≠ m.current a.vp := fun hc => hp.live (Mn.mem_own hpc rfl hc.symm) hf
  have hstep : m.step a = some (((m.on (.beginCall a.vp)).gcFinishedThreads a.vp).goto a.vp .createTcb) := by
    simp [Mn.step, Mn.call, hpc, hk]
  rw [hstep] at hs
  cases hs
  refine ⟨v, t, ?_, ?_⟩
  · have he : (((m.on (.beginCall a.vp)).gcFinishedThreads a.vp).goto a.vp .createTcb).uses v = m.uses v := by
      simp [MnCore.uses, MnCore.executes, Mn.gcFinishedThreads, hva]
    rw [he]
    exact lastUse_sub ht
  · cases ha : m.allocated t with
    | false => simp [Mn.gcFinishedThreads, ha]
    | true =>
      have hlisted : t ∈ m.q.glob := by
        refine (hp.listed t).mpr ⟨ha, fun w hw => ?_⟩
        exact hp.live (Mn.mem_pend (Pc.pend_of_unlisted hw)) hf
      simp [Mn.gcFinishedThreads, RunQueues.gc, ha, hf, hcur, hlisted]

/-- Collection is safe as long as no pass meets such a thread, and the first pass that does frees what is in use. -/
theorem reclaimed (h : MnRun Tidy s) : Reclaimed s ∧
    ∀ a s', s.step a = some s' → Orderly s.toMnCore a → (Reclaimed s' ↔ CollectsUnused s.toMnCore a) := by
  obtain ⟨m, hm, hr⟩ := MnRun.lists (fun _ _ hok => hok.1) h
  have hsd := ListRun.sound hm
  have hcu := ListRun.current (fun _ _ hok => hok.1) hm
  refine ⟨hr.unfreed hsd.placed (ListRun.backed (fun _ _ hok => hok.mapped) hm) (ListRun.named (fun _ _ hok => hok) hm), ?_⟩
  intro a s' hs ho
  rw [hr.core] at ho
  have ht := hcu.timely ho
  obtain ⟨m', hs', hr'⟩ := hr.step hsd.placed ht hs
  constructor
  · intro hrec
    by_contra hno
    rw [hr.core] at hno
    obtain ⟨v, t, ht, hf⟩ := freed_in_use hsd.placed hno hs'
    have ha := hrec.uses v t (by rwa [hr'.core])
    rw [hr'.core, hf] at ha
    cases ha
  · intro hok
    rw [hr.core] at hok
    have hm' : ListRun Tidy m' := .step hm ⟨ht, ho, hok⟩ hs'
    exact hr'.unfreed (ListRun.sound hm').placed (ListRun.backed (fun _ _ hok => hok.mapped) hm')
      (ListRun.named (fun _ _ hok => hok) hm')

/-- Thread 0 exits on virtual processor 0, which takes the steps `window`; then thread 1 creates a thread. -/
def exitThenCreate (window : List MnAct) : List MnAct :=
  launch 2 ++ List.replicate 6 { vp := 0 } ++ List.replicate 6 { vp := 1 } ++ { vp := 0, call := .exit } :: window ++
    [{ vp := 1, call := .create }]

/-- The `setcontext` of `mn_exit` comes before the collection. -/
theorem reclaimed_left :
    let s := (initMn 2 (fun _ => 0) ⟨none, 0, false⟩).after (exitThenCreate [{ vp := 0 }, { vp := 0 }])
    s.allocated 0 = false ∧ s.executes 0 = none ∧ (Reclaimed s ∧
      ∀ a s', s.step a = some s' → Orderly s.toMnCore a → (Reclaimed s' ↔ CollectsUnused s.toMnCore a)) :=
  ⟨by decide +kernel, by decide +kernel, reclaimed (MnRun.after (.init (initMn_start (by decide) _ _)) (by decide +kernel))⟩

/-- Without it, virtual processor 0 is left on a freed stack. -/
theorem reclaimed_exiting : ∃ s, MnRun Orderly s ∧ s.executes 0 = some 0 ∧ s.allocated 0 = false ∧ ¬ Reclaimed s := by
  refine ⟨(initMn 2 (fun _ => 0) ⟨none, 0, false⟩).after (exitThenCreate []),
    MnRun.after (.init (initMn_start (by decide) _ _)) (by decide +kernel), by decide +kernel, by decide +kernel, ?_⟩
  intro h
  have ha := h.stack 0 0 (by decide +kernel)
  revert ha
  decide +kernel

end

end Uthread
