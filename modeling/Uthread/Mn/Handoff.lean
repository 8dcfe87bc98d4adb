import Uthread.Mn.Collect

/-!
# Handing a thread from one processor to another

`mn_yield` publishes its thread before the context is saved. A thief leaves the
last thread of a local queue, so nobody takes a thread in this window; a thread
that blocks on a mutex or a semaphore can be woken and dispatched in it.
-/

namespace Uthread

open Linked

/-- In `mn_yield` behind a call that has blocked, before its `swapcontext`. -/
def Pc.leaving : Pc → Bool
  | .yieldTest | .swapOut false => true
  | _ => false

def Pc.enqueues : Pc → Option Ptr
  | .wakeEnq t _ => some t
  | _ => none

/-- A woken thread goes to the ready queue only when the virtual processor that blocked in it has left its stack. -/
def SavedBeforeEnqueue (c : MnCore) (a : MnAct) : Prop :=
  ∀ t ∈ (c.pc a.vp).enqueues, ∀ v < c.numVps, (c.pc v).leaving = true → c.current v ≠ some t

instance (c : MnCore) (a : MnAct) : Decidable (SavedBeforeEnqueue c a) := by
  unfold SavedBeforeEnqueue
  infer_instance

/-- Orderly steps that neither free nor enqueue a thread that is still executed. -/
def Saved (c : MnCore) (a : MnAct) : Prop := Mapped c a ∧ SavedBeforeEnqueue c a

instance (c : MnCore) (a : MnAct) : Decidable (Saved c a) := inferInstanceAs (Decidable (_ ∧ _))

structure Handed (m : Mn Lists) : Prop where
  alone : ∀ {u v t}, m.executes u = some t → m.executes v = some t → u = v
  newest : ∀ {v t}, m.executes v = some t → m.pos v = m.calls t
  saved : ∀ {t}, m.state t ≠ .finished → (∀ v, m.executes v ≠ some t) → m.context t = m.calls t
  published : ∀ {v t}, m.pc v = .swapOut true → m.current v = some t → (m.q.q (.loc v)).getLast? = some t

section
variable {s : Mn MnLinks} {m m' : Mn Lists} {a : MnAct} {t x : Ptr} {u v : VpId} {i : Place} {ok : MnCore → MnAct → Prop}

attribute [local simp] Mn.midCall

theorem Handed.of_step (h : Handed m)
    (ho : ∀ u, u ≠ v → (m'.pc u = m.pc u ∨ m.pc u = .off ∧ m'.pc u = .test) ∧ m'.current u = m.current u ∧ m'.pos u = m.pos u)
    (hpos : m'.pos v = m.pos v) (hcalls : m'.calls = m.calls) (hctx : m'.context = m.context)
    (hfin : ∀ t, m.state t = .finished → m'.state t = .finished) (hex : m'.executes v = m.executes v)
    (hloc : ∀ u t, u ≠ v → (m.q.q (.loc u)).getLast? = some t → (m'.q.q (.loc u)).getLast? = some t)
    (hpub : ∀ t, m'.pc v = .swapOut true → m'.current v = some t → (m'.q.q (.loc v)).getLast? = some t) :
    Handed m' := by
  have hexec : ∀ u, m'.executes u = m.executes u := by
    intro u
    by_cases hu : u = v
    · rw [hu]
      exact hex
    · exact executes_others (ho u hu).1 (ho u hu).2.1
  have hposs : ∀ u, m'.pos u = m.pos u := by
    intro u
    by_cases hu : u = v
    · rw [hu]
      exact hpos
    · exact (ho u hu).2.2
  constructor
  · intro u w t h₁ h₂
    rw [hexec] at h₁ h₂
    exact h.alone h₁ h₂
  · intro u t h₁
    rw [hexec] at h₁
    rw [hposs, hcalls]
    exact h.newest h₁
  · intro t h₁ h₂
    rw [hctx, hcalls]
    apply h.saved
    · exact fun hf => h₁ (hfin t hf)
    · intro u
      rw [← hexec]
      exact h₂ u
  · intro u t h₁ h₂
    by_cases hu : u = v
    · subst hu
      exact hpub t h₁ h₂
    · obtain ⟨hp | ⟨-, hp⟩, hc, -⟩ := ho u hu
      · rw [hp] at h₁
        rw [hc] at h₂
        exact hloc u t hu (h.published h₁ h₂)
      · rw [hp] at h₁
        cases h₁

theorem Handed.beginCall (h : Handed m) (hpc : m.pc v = .user) : Handed (m.on (.beginCall v)) := by
  have hv : m.executes v = m.current v := executes_of_pc (by rw [hpc]; rfl)
  cases hc : m.current v with
  | none =>
    rw [hc] at hv
    constructor
    · exact h.alone
    · intro u t hu
      have huv : u ≠ v := by
        intro e
        rw [e, show (m.on (.beginCall v)).executes v = m.executes v from rfl, hv] at hu
        cases hu
      simpa [hc, huv] using h.newest hu
    · intro t h₁ h₂
      simpa [hc] using h.saved h₁ h₂
    · exact h.published
  | some x =>
    rw [hc] at hv
    constructor
    · exact h.alone
    · intro u t hu
      by_cases huv : u = v
      · subst huv
        rw [show (m.on (.beginCall u)).executes u = m.executes u from rfl, hv] at hu
        cases hu
        simp [hc]
      · have htx : t ≠ x := by
          intro e
          subst e
          exact huv (h.alone hu hv)
        simpa [hc, huv, htx] using h.newest hu
    · intro t h₁ h₂
      have htx : t ≠ x := by
        intro e
        subst e
        exact h₂ v hv
      simpa [hc, htx] using h.saved h₁ h₂
    · exact h.published

theorem Handed.userStep (h : Handed m) (hp : Placed m) (hpc : m.pc a.vp = .user) (hs : UserStep m a m') : Handed m' := by
  apply h.of_step (v := a.vp)
  · intro u hu
    obtain ⟨h₁, h₂⟩ := Mn.user_others hs hu
    exact ⟨.inl h₁, h₂⟩
  · cases hs <;> rfl
  · cases hs <;> rfl
  · cases hs <;> rfl
  · intro t hf
    rcases Mn.user_state hpc hs t with he | ⟨i, hi, -⟩
    · rw [he, hf]
    · exact absurd hf (hp.live hi)
  · exact user_executes hpc hs a.vp
  · intro u t _ hl
    rw [user_loc hs]
    exact hl
  · intro t h₁ _
    cases hs <;> simp at h₁

theorem Handed.alloc (b : Bool) (h : Handed m) (hx : ∀ v, m.executes v ≠ some x) : Handed (m.on (.allocTcb x b)) := by
  constructor
  · exact h.alone
  · intro u t hu
    have hne : t ≠ x := fun e => hx u (e ▸ hu)
    simpa [MnCore.allocTcb, hne] using h.newest hu
  · intro t h₁ h₂
    by_cases ht : t = x
    · subst ht
      simp [MnCore.allocTcb]
    · have hst : m.state t ≠ .finished := by simpa [MnCore.allocTcb, ht] using h₁
      simpa [MnCore.allocTcb, ht] using h.saved hst h₂
  · exact h.published

theorem Handed.left {ctx : Ptr → Nat} (h : Handed m) (hv : m.executes v = some t)
    (hctx : ∀ x, x ≠ t → ctx x = m.context x) (ht : m.state t = .finished ∨ ctx t = m.calls t) :
    Handed ((m.on fun c => { c with context := ctx }).goto v .test) := by
  have hex : ∀ u x, ((m.on fun c => { c with context := ctx }).goto v .test).executes u = some x →
      u ≠ v ∧ m.executes u = some x := by
    intro u x hu
    by_cases huv : u = v
    · subst huv
      simp [MnCore.executes, Pc.onStack] at hu
    · exact ⟨huv, by simpa [MnCore.executes, huv] using hu⟩
  have hpc : ∀ {u pc}, pc ≠ .test → ((m.on fun c => { c with context := ctx }).goto v .test).pc u = pc → m.pc u = pc := by
    intro u pc hne hu
    by_cases huv : u = v
    · subst huv
      simp at hu
      exact absurd hu.symm hne
    · simpa [huv] using hu
  constructor
  · intro u w x h₁ h₂
    exact h.alone (hex u x h₁).2 (hex w x h₂).2
  · intro u x h₁
    exact h.newest (hex u x h₁).2
  · intro x h₁ h₂
    by_cases hx : x = t
    · subst hx
      exact ht.resolve_left h₁
    · have hno : ∀ u, m.executes u ≠ some x := by
        intro u hu
        by_cases huv : u = v
        · subst huv
          rw [hv] at hu
          cases hu
          exact hx rfl
        · exact h₂ u (by simpa [MnCore.executes, huv] using hu)
      have hc := h.saved h₁ hno
      rw [← hctx x hx] at hc
      exact hc
  · intro u x h₁ h₂
    exact h.published (hpc (by simp) h₁) h₂

theorem Handed.nobody (h : Handed m) (hsd : Sound m) (hx : Exiting m) (hw : m.pc v = .switchIn t)
    (hb : ∀ u, (m.pc u).leaving = true → m.current u ≠ some t) : m.executes u ≠ some t := by
  intro hu
  have hp := hsd.placed
  have hheld := hsd.switched hw
  obtain ⟨hs, hc⟩ := executes_some hu
  cases hown : (m.pc u).own with
  | some k =>
    cases hp.apart.disj hheld (Mn.mem_own rfl hown hc)
    rw [hw] at hs
    cases hs
  | none =>
    cases hpc : m.pc u with
    | yieldTest => exact hb u (by rw [hpc]; rfl) hc
    | swapOut b =>
      cases b with
      | false => exact hb u (by rw [hpc]; rfl) hc
      | true =>
        -- published and still the last thread of its local queue
        have hl := List.mem_of_getLast? (h.published hpc hc)
        have hq := hp.apart.disj hheld (j := .queue (.loc u)) hl
        cases hq
    | exitTrace => exact hp.live hheld (hx u t (.inl hpc) hc)
    | exitSwitch => exact hp.live hheld (hx u t (.inr hpc) hc)
    | _ => simp [hpc, Pc.own, Pc.onStack] at hown hs

theorem Handed.switchIn (h : Handed m) (hsd : Sound m) (hx : Exiting m) (hw : m.pc v = .switchIn t)
    (hb : ∀ u, (m.pc u).leaving = true → m.current u ≠ some t) :
    Handed ((m.on (.loadContext v t)).goto v .user) := by
  have hp := hsd.placed
  have hno : ∀ u, m.executes u ≠ some t := fun u => h.nobody hsd hx hw hb
  have hcur := hsd.switching v t (.inr hw)
  have hheld := hsd.switched hw
  have hctx : m.context t = m.calls t := h.saved (hp.live hheld) hno
  have hex : ∀ u x, ((m.on (.loadContext v t)).goto v .user).executes u = some x →
      u = v ∧ x = t ∨ u ≠ v ∧ m.executes u = some x := by
    intro u x hu
    by_cases huv : u = v
    · subst huv
      left
      have hx : m.current u = some x := by simpa [MnCore.executes, Pc.onStack] using hu
      rw [hcur] at hx
      cases hx
      exact ⟨rfl, rfl⟩
    · exact .inr ⟨huv, by simpa [MnCore.executes, huv] using hu⟩
  have hpc : ∀ {u pc}, pc ≠ .user → ((m.on (.loadContext v t)).goto v .user).pc u = pc → m.pc u = pc := by
    intro u pc hne hu
    by_cases huv : u = v
    · subst huv
      simp at hu
      exact absurd hu.symm hne
    · simpa [huv] using hu
  constructor
  · intro u w x h₁ h₂
    obtain ⟨hu, hx⟩ | ⟨-, hu⟩ := hex u x h₁ <;> obtain ⟨hw, hx'⟩ | ⟨-, hw⟩ := hex w x h₂
    · rw [hu, hw]
    · exact absurd (hx ▸ hw) (hno w)
    · exact absurd (hx' ▸ hu) (hno u)
    · exact h.alone hu hw
  · intro u x h₁
    obtain ⟨rfl, rfl⟩ | ⟨hu, hx⟩ := hex u x h₁
    · simpa using hctx
    · simpa [hu] using h.newest hx
  · intro x h₁ h₂
    apply h.saved h₁
    intro u hu
    by_cases huv : u = v
    · subst huv
      rw [executes_none (by rw [hw]; rfl)] at hu
      cases hu
    · exact h₂ u (by simpa [MnCore.executes, huv] using hu)
  · intro u x h₁ h₂
    exact h.published (hpc (by simp) h₁) h₂

theorem Handed.goto {pc : Pc} (h : Handed m) (hex : (m.goto v pc).executes v = m.executes v)
    (hpub : pc ≠ .swapOut true) : Handed (m.goto v pc) := by
  refine h.of_step (v := v) ?_ rfl rfl rfl (fun _ h => h) hex (fun _ _ _ h => h) ?_
  · intro u hu
    simp [hu]
  · intro t hp
    simp [hpub] at hp

/-- Steps at which a virtual processor comes to a thread's stack, leaves one or allocates one. -/
def Pc.changesStack : Pc → Bool
  | .createTcb | .swapOut _ | .exitSwitch | .switchIn _ => true
  | _ => false

theorem Handed.ordinary (h : Handed m) (hsd : Sound m) (hs : LoopStep m a m') (hn : (m.pc a.vp).changesStack = false) :
    Handed m' := by
  have hp := hsd.placed
  have hpub := (Mn.loop_arrives hs).2.2.1
  have hfin : ∀ t, m.state t = .finished → m'.state t = .finished := by
    intro t hf
    rcases Mn.loop_state hs t with he | ⟨i, hi, -⟩ | ⟨hpc, -⟩
    · rw [he, hf]
    · exact absurd hf (hp.live hi)
    · simp [hpc, Pc.changesStack] at hn
  apply h.of_step fun u hu => hsd.booted.others (u := u) hs hu
  · cases hs with
    | createFail hpc => simp [hpc, Pc.changesStack] at hn
    | switchIn hpc => simp [hpc, Pc.changesStack] at hn
    | _ => rfl
  · cases hs with
    | createFail hpc => simp [hpc, Pc.changesStack] at hn
    | createTcb hpc => simp [hpc, Pc.changesStack] at hn
    | _ => rfl
  · cases hs with
    | createFail hpc => simp [hpc, Pc.changesStack] at hn
    | createTcb hpc => simp [hpc, Pc.changesStack] at hn
    | swapOut hpc => simp [hpc, Pc.changesStack] at hn
    | _ => rfl
  · exact hfin
  · rcases loop_executes hs with he | ⟨⟨b, hpc⟩ | hpc, -⟩ | ⟨t, hpc, -⟩
    · exact he
    · simp [hpc, Pc.changesStack] at hn
    · simp [hpc, Pc.changesStack] at hn
    · simp [hpc, Pc.changesStack] at hn
  · intro u t hu hl
    rcases loop_loc hs hu with he | ⟨n, hn, he⟩
    · rwa [he]
    · rw [he, getLast?_drop hn]
      exact hl
  · intro t h₁ h₂
    have hpc := hpub h₁
    cases hs with
    | yieldEnq hpc' hc =>
      have htc : m.current a.vp = some t := h₂
      rw [hc] at htc
      cases htc
      simp [Lists.push]
    | deq hpc' => simp [hpc] at hpc'
    | _ hpc' =>
      rw [hpc] at hpc'
      cases hpc'

theorem Handed.loopStep (h : Handed m) (hsd : Sound m) (hv : Backed m) (hxt : Exiting m)
    (hb : ∀ t, m.pc a.vp = .switchIn t → ∀ u, (m.pc u).leaving = true → m.current u ≠ some t) (hs : LoopStep m a m') :
    Handed m' := by
  have hord : (m.pc a.vp).changesStack = false → Handed m' := h.ordinary hsd hs
  have hstack : ∀ {pc}, m.pc a.vp = pc → pc.onStack = true → m.executes a.vp = m.current a.vp := by
    intro pc hpc hon
    apply executes_of_pc
    rw [hpc]
    exact hon
  have hfree : m.allocated a.addr = false → ∀ v, m.executes v ≠ some a.addr := by
    intro ha v he
    have hal := hv v _ he
    rw [ha] at hal
    cases hal
  cases hs with
  | @createFail ok hpc ha =>
    have hx := hstack hpc rfl
    cases ok with
    | true => exact h.goto (by rw [hx]; simp [MnCore.executes, Pc.onStack]) (by simp)
    | false =>
      have ha := h.alloc false (hfree (ha rfl))
      have hx' : (m.on (.allocTcb a.addr false)).executes a.vp = m.current a.vp := hx
      exact ha.goto (by rw [hx']; simp [MnCore.executes, Pc.onStack, MnCore.allocTcb]) (by simp)
  | createTcb hpc ha =>
    have ha := h.alloc true (hfree ha)
    have hx : (m.on (.allocTcb a.addr true)).executes a.vp = m.current a.vp := hstack hpc rfl
    exact ha.goto (by rw [hx]; simp [MnCore.executes, Pc.onStack, MnCore.allocTcb]) (by simp)
  | @swapOut t b hpc hc =>
    have hx := (hstack hpc rfl).trans hc
    apply h.left hx
    · intro x hx
      simp [hx]
    · right
      simpa using h.newest hx
  | exitSwitch hpc =>
    have hx := hstack hpc rfl
    cases hc : m.current a.vp with
    | none =>
      rw [hc] at hx
      exact h.goto (by rw [hx]; simp [MnCore.executes, Pc.onStack]) (by simp)
    | some t =>
      rw [hc] at hx
      exact h.left hx (fun _ _ => rfl) (.inl (hxt a.vp t (.inr hpc) hc))
  | @switchIn t hpc => exact h.switchIn hsd hxt hpc (hb t hpc)
  | deq hpc => exact hord (by rcases hpc with hpc | hpc <;> rw [hpc] <;> rfl)
  | _ hpc => exact hord (by rw [hpc]; rfl)

theorem StartLists.handed (h : StartLists m) : Handed m := by
  have hpc := h.control
  obtain ⟨n, k, sem, tr, hn, hc, -⟩ := h
  have hcur : ∀ v, m.current v = none := by
    intro v
    rw [hc]
    rfl
  have hex : ∀ {v t}, m.executes v ≠ some t := by
    intro v t hv
    have hx := (executes_some hv).2
    rw [hcur] at hx
    cases hx
  constructor
  · exact fun hu => absurd hu hex
  · exact fun hu => absurd hu hex
  · intro t _ _
    rw [hc]
    rfl
  · intro v t _ hx
    rw [hcur] at hx
    cases hx

/-! ## Blocked threads -/

def Pc.waking : Pc → Option Ptr
  | .wakeTrace t | .enqRead t | .wakeEnq t _ => some t
  | _ => none

theorem Pc.pend_of_waking {pc : Pc} (h : pc.waking = some t) : t ∈ pc.pend := by
  cases pc with
  | wakeTrace | enqRead | wakeEnq =>
    cases h
    exact List.mem_singleton_self t
  | _ => cases h

/-- A thread whose processor blocks in it and has not left its stack is still blocked, or on its way to the ready queue. -/
def Leaving (m : Mn Lists) : Prop :=
  ∀ u t, (m.pc u).leaving = true → m.current u = some t →
    m.state t = .blocked ∨ m.state t = .ioBlocked ∨ ∃ v, (m.pc v).waking = some t

theorem Leaving.elsewhere (h : Leaving m) (hp : Placed m) (hx : x ∈ m.places (.hand .held v) ∨ x ∈ m.places (.hand .taken v))
    (hu : (m.pc u).leaving = true) (hc : m.current u = some t) : t ≠ x := by
  intro e
  subst e
  rcases h u t hu hc with hs | hs | ⟨w, hw⟩
  · rcases hx with hx | hx <;> simp [hp.state hx, Place.expect] at hs
  · rcases hx with hx | hx <;> simp [hp.state hx, Place.expect] at hs
  · have hm : t ∈ m.places (.hand .pend w) := Mn.mem_pend (Pc.pend_of_waking hw)
    rcases hx with hx | hx
    · have := hp.apart.disj hx hm
      simp at this
    · have := hp.apart.disj hx hm
      simp at this

theorem Leaving.userStep (h : Leaving m) (hp : Placed m) (hpc : m.pc a.vp = .user) (hs : UserStep m a m') : Leaving m' := by
  intro u t hu hc
  by_cases hua : u = a.vp
  · subst hua
    cases hs <;> simp [Pc.leaving] at hu
  · obtain ⟨hpu, hcu, -⟩ := Mn.user_others hs hua
    rw [hpu] at hu
    rw [hcu] at hc
    have hne : ∀ x, m.current a.vp = some x → t ≠ x := by
      intro x hx
      exact h.elsewhere hp (.inl (Mn.mem_own hpc rfl hx)) hu hc
    have hold : m'.state t = m.state t := by
      cases hs with
      | exit hx => simp [hne _ hx]
      | sleep hx => simp [hne _ hx]
      | io hx => simp [hne _ hx]
      | _ => rfl
    rw [hold]
    rcases h u t hu hc with hs' | hs' | ⟨w, hw⟩
    · exact .inl hs'
    · exact .inr (.inl hs')
    · have hwa : w ≠ a.vp := by
        intro e
        rw [e, hpc] at hw
        cases hw
      exact .inr (.inr ⟨w, by rw [(Mn.user_others hs hwa).1, hw]⟩)

theorem Leaving.own (h : Leaving m) (hp : Placed m) (hs : LoopStep m a m') (hu : (m'.pc a.vp).leaving = true)
    (hc : m'.current a.vp = some t) : m'.state t = .blocked ∨ m'.state t = .ioBlocked ∨ ∃ v, (m'.pc v).waking = some t := by
  have hown : ∀ {pc k x}, m.pc a.vp = pc → pc.own = some k → m.current a.vp = some x → m.state x = (Place.hand k a.vp).expect :=
    fun hpc hk hx => hp.state (Mn.mem_own hpc hk hx)
  cases hs with
  | append hpc hx =>
    obtain rfl := Option.some.inj (hx.symm.trans hc)
    exact .inl (hown hpc rfl hx)
  | sleepPush hpc hx =>
    obtain rfl := Option.some.inj (hx.symm.trans hc)
    exact .inr (.inl (hown hpc rfl hx))
  | ioAdd hpc hx =>
    obtain rfl := Option.some.inj (hx.symm.trans hc)
    exact .inr (.inl (hown hpc rfl hx))
  | yieldTest hpc hx =>
    rcases h a.vp t (by rw [hpc]; rfl) hc with hb | hb | ⟨w, hw⟩
    · exact .inl hb
    · exact .inr (.inl hb)
    · have hwa : w ≠ a.vp := by
        intro e
        rw [e, hpc] at hw
        cases hw
      exact .inr (.inr ⟨w, by simpa [hwa] using hw⟩)
  | @createFail ok _ => cases ok <;> simp [MnCore.allocTcb, Pc.leaving] at hu
  | readyEmpty => split at hu <;> simp [Pc.leaving] at hu
  | halt => unfold Mn.leave at hu; split at hu <;> simp [Pc.leaving] at hu
  | dead => unfold Mn.leave at hu; split at hu <;> simp [Pc.leaving] at hu
  | _ => simp [MnCore.allocTcb, Pc.leaving] at hu

theorem Leaving.loopStep (h : Leaving m) (hsd : Sound m) (hv : Backed m) (hok : SavedBeforeEnqueue m.toMnCore a)
    (hs : LoopStep m a m') : Leaving m' := by
  have hp := hsd.placed
  intro u t hu hc
  by_cases hua : u = a.vp
  · subst hua
    exact h.own hp hs hu hc
  · obtain ⟨hpu, hcu, -⟩ := hsd.booted.others hs hua
    rw [hcu] at hc
    have hpu' : (m.pc u).leaving = true := by
      rcases hpu with he | ⟨-, he⟩
      · rwa [he] at hu
      · rw [he] at hu
        cases hu
    have hal : m.allocated t = true := by
      apply hv u
      rw [executes_of_pc _, hc]
      cases hpc : m.pc u <;> rw [hpc] at hpu' <;> first | rfl | cases hpu'
    have haddr : m.allocated a.addr = false → t ≠ a.addr := by
      intro hn e
      rw [← e, hal] at hn
      cases hn
    have hheld : ∀ {pc x}, m.pc a.vp = pc → pc.own = some .held → m.current a.vp = some x → t ≠ x :=
      fun hpc hk hx => h.elsewhere hp (.inl (Mn.mem_own hpc hk hx)) hpu' hc
    have hold : m'.state t = m.state t ∨ m'.pc a.vp = .wakeTrace t := by
      cases hs with
      | park hpc hx => simp [hheld hpc rfl hx]
      | yieldMark hpc hx => simp [hheld hpc rfl hx]
      | @wakeMark x hpc =>
        by_cases he : t = x
        · simp [he]
        · simp [he]
      | dispatch hpc =>
        have hne := h.elsewhere hp (.inr (Mn.mem_taken hpc)) hpu' hc
        simp [hne]
      | @createFail ok _ ha =>
        cases ok with
        | true => exact .inl rfl
        | false => simp [MnCore.allocTcb, haddr (ha rfl)]
      | createTcb _ ha => simp [MnCore.allocTcb, haddr ha]
      | _ => exact .inl rfl
    rcases hold with hold | hw
    · rw [hold]
      rcases h u t hpu' hc with hs' | hs' | ⟨w, hw⟩
      · exact .inl hs'
      · exact .inr (.inl hs')
      · refine .inr (.inr ⟨w, ?_⟩)
        by_cases hwa : w = a.vp
        · subst hwa
          cases hs with
          | wakeTrace hpc | enqRead hpc =>
            rw [hpc] at hw
            cases hw
            simp [Pc.waking]
          | wakeEnq hpc =>
            rw [hpc] at hw
            cases hw
            refine absurd hc (hok _ (by rw [hpc]; rfl) u ?_ hpu')
            by_contra hlt
            rw [hsd.booted.range (Nat.le_of_not_lt hlt)] at hpu'
            cases hpu'
          | deq hpc => rcases hpc with hpc | hpc <;> rw [hpc] at hw <;> cases hw
          | _ hpc =>
            rw [hpc] at hw
            cases hw
        · rcases (hsd.booted.others hs hwa).1 with he | ⟨he, -⟩
          · rw [he, hw]
          · rw [he] at hw
            cases hw
    · exact .inr (.inr ⟨a.vp, by rw [hw]; rfl⟩)

theorem ListRun.handed (hk : ∀ c a, ok c a → Saved c a) (h : ListRun ok m) : Handed m ∧ Leaving m := by
  induction h with
  | @init m hm =>
    refine ⟨hm.handed, ?_⟩
    intro u t hu
    rw [hm.control] at hu
    by_cases h0 : u = 0 <;> simp [h0, Pc.leaving] at hu
  | @step m a m' hm hok hs ih =>
    obtain ⟨hd, hl⟩ := ih
    have hsd := ListRun.sound hm
    have hv := ListRun.backed (fun c a ho => (hk c a ho).1) hm
    have hx := ListRun.exiting (fun c a ho => (hk c a ho).1) hm
    rcases Mn.step_cases hsd.placed hok.1 hs with ⟨hpc, hu⟩ | hlp
    · have hp := hsd.placed.beginCall (v := a.vp)
      exact ⟨(hd.beginCall hpc).userStep hp hpc hu, Leaving.userStep (m := m.on (.beginCall a.vp)) hl hp hpc hu⟩
    · refine ⟨hd.loopStep hsd hv hx ?_ hlp, hl.loopStep hsd hv (hk _ _ hok.2).2 hlp⟩
      intro t hpc u hu hc
      exact hl.elsewhere hsd.placed (.inl (hsd.switched hpc)) hu hc rfl

theorem ListRun.nobody (hk : ∀ c a, ok c a → Saved c a) (h : ListRun ok m) (hpc : m.pc v = .switchIn t) (u : VpId) :
    m.executes u ≠ some t := by
  have hsd := ListRun.sound h
  obtain ⟨hd, hl⟩ := h.handed hk
  apply hd.nobody hsd (h.exiting fun c a ho => (hk c a ho).1) hpc
  exact fun w hw hc => hl.elsewhere hsd.placed (.inl (hsd.switched hpc)) hw hc rfl

/-- A thread passes from one virtual processor to another only with its newest context. -/
structure HandedOff (s : Mn MnLinks) : Prop where
  -- before a `swapcontext` into `t`, the virtual processor that ran `t` has completed the one that saves its context
  switched : ∀ v t, s.pc v = .switchIn t → (∀ u, s.executes u ≠ some t) ∧ s.context t = s.calls t
  alone : ∀ u v t, s.executes u = some t → s.executes v = some t → u = v
  -- the code of `t` goes on behind its last call
  newest : ∀ v t, s.executes v = some t → s.pos v = s.calls t

theorem handed_off (h : MnRun Saved s) : HandedOff s := by
  obtain ⟨m, hm, hr⟩ := MnRun.lists (fun _ _ hok => hok.1.1) h
  obtain ⟨hd, -⟩ := ListRun.handed (fun _ _ hok => hok) hm
  have hsd := ListRun.sound hm
  constructor
  · intro v t hv
    rw [hr.core] at hv ⊢
    have hno := ListRun.nobody (fun _ _ hok => hok) hm hv
    exact ⟨hno, hd.saved (hsd.placed.live (hsd.switched hv)) hno⟩
  · intro u v t hu hv
    rw [hr.core] at hu hv
    exact hd.alone hu hv
  · intro v t hv
    rw [hr.core] at hv ⊢
    exact hd.newest hv

/-- Thread 0 blocks on a semaphore on virtual processor 0, up to its `swapcontext`. On virtual processor 1, thread 1
posts and exits, and `vp_loop` dispatches thread 0; in between, virtual processor 0 takes the steps `window`. -/
def postWhileBlocking (window : List MnAct) : List MnAct :=
  launch 2 ++ List.replicate 6 { vp := 0 } ++ List.replicate 6 { vp := 1 } ++ { vp := 0, call := .semWait (.user 0) } ::
    List.replicate 5 { vp := 0 } ++ window ++ { vp := 1, call := .semPost (.user 0) } :: List.replicate 10 { vp := 1 } ++
    { vp := 1, call := .exit } :: List.replicate 7 { vp := 1 }

/-- The `swapcontext` of `mn_yield` comes before the post. -/
theorem handed_off_saved :
    let s := (initMn 2 (fun _ => 0) ⟨none, 0, false⟩).after (postWhileBlocking [{ vp := 0 }])
    s.pc 1 = .switchIn 0 ∧ s.calls 0 = 1 ∧ HandedOff s :=
  ⟨by decide +kernel, by decide +kernel, handed_off (MnRun.after (.init (initMn_start (by decide) _ _)) (by decide +kernel))⟩

/-- Without it, two virtual processors execute thread 0, one of them from its first instruction. -/
theorem handed_off_unsaved : ∃ s, MnRun Mapped s ∧ s.executes 0 = some 0 ∧ s.executes 1 = some 0 ∧ s.pos 1 < s.calls 0 ∧
    s.starts 0 = 2 ∧ ¬ HandedOff s := by
  refine ⟨(initMn 2 (fun _ => 0) ⟨none, 0, false⟩).after (postWhileBlocking [] ++ [{ vp := 1 }]),
    MnRun.after (.init (initMn_start (by decide) _ _)) (by decide +kernel), by decide +kernel, by decide +kernel,
    by decide +kernel, by decide +kernel, ?_⟩
  intro h
  have he := h.alone 0 1 0 (by decide +kernel) (by decide +kernel)
  cases he

end

end Uthread
