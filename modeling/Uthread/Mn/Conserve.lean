import Uthread.Mn.Orderly

/-!
# Work stealing conserves threads

The collection of all runnable threads, read off the links: the ready queue,
the local queues, the detached chains and what the virtual processors hold.
-/

namespace Uthread

open Linked

/-! ## The collection -/

namespace Mn

variable (s : Mn MnLinks)

def chain (h : Option Ptr) : List Ptr := walk s.q.next s.brk h

def readyThreads : List Ptr := s.chain s.q.readyHead

def localThreads (v : VpId) : List Ptr := s.chain (s.q.localHead v)

def detached (v : VpId) : List Ptr :=
  match s.pc v with
  | .attach h _ _ => s.chain (some h)
  | _ => []

/-- From a queue section of `vp_loop` until `vp_enqueue` in `mn_yield`, or `mn_exit`. -/
def hands (v : VpId) : List Ptr :=
  (s.pc v).taken ++ (s.pc v).hand (s.current v) .held ++ (s.pc v).hand (s.current v) .yielding

def collection : List Ptr :=
  s.readyThreads ++ (List.range s.numVps).flatMap fun v => s.localThreads v ++ s.detached v ++ s.hands v

end Mn

def rooms (n : Nat) : List Place :=
  .queue (.shared .ready) :: (List.range n).flatMap fun v =>
    [.queue (.loc v), .queue (.flight v), .hand .taken v, .hand .held v, .hand .yielding v]

theorem rooms_nodup (n : Nat) : (rooms n).Nodup := by
  unfold rooms
  rw [List.nodup_cons]
  constructor
  · simp
  · rw [List.nodup_flatMap]
    constructor
    · intro v _
      simp
    · apply List.nodup_range.imp
      intro u v huv x hx hy
      simp only [List.mem_cons, List.not_mem_nil, or_false] at hx hy
      rcases hx with rfl | rfl | rfl | rfl | rfl <;> simp [huv] at hy

section
variable {s : Mn MnLinks} {m m' : Mn Lists} {a : MnAct} {t : Ptr} {u v : VpId}

theorem Placed.length_le {i : Queue} (h : Placed m) : (m.q.q i).length ≤ m.brk := by
  have hsub : m.q.q i ⊆ List.range m.brk := by
    intro t ht
    exact List.mem_range.mpr (h.fresh (h.alive (i := .queue i) ht))
  have hn : (m.q.q i).Nodup := h.apart.nodup (.queue i)
  simpa using (hn.subperm hsub).length_le

namespace Refines

theorem readyThreads (hp : Placed m) (h : Refines s m) : s.readyThreads = m.q.q (.shared .ready) := by
  have hb : s.brk = m.brk := by rw [h.core]
  apply walk_eq (h.q.shared.chain .ready)
  rw [hb]
  exact hp.length_le

theorem localThreads (hp : Placed m) (h : Refines s m) : s.localThreads v = m.q.q (.loc v) := by
  have hb : s.brk = m.brk := by rw [h.core]
  apply walk_eq (h.q.loc v)
  rw [hb]
  exact hp.length_le

theorem detached (hp : Placed m) (h : Refines s m) : s.detached v = m.q.q (.flight v) := by
  have hb : s.brk = m.brk := by rw [h.core]
  have hpc : s.pc v = m.pc v := by rw [h.core]
  have hf := hp.flight v
  have hc := h.q.flight v
  unfold Mn.detached
  rw [hpc]
  split
  · rename_i x tl n hx
    rw [hx] at hf
    rw [hf.1] at hc
    apply walk_eq hc
    rw [hb]
    exact hp.length_le
  · rename_i hx
    cases hv : m.pc v with
    | attach x tl n => exact absurd hv (hx x tl n)
    | _ =>
      rw [hv] at hf
      exact hf.symm

theorem collection (hp : Placed m) (h : Refines s m) : s.collection = (rooms m.numVps).flatMap m.places := by
  have hn : s.numVps = m.numVps := by rw [h.core]
  have hv : ∀ v, s.localThreads v ++ s.detached v ++ s.hands v =
      [Place.queue (.loc v), .queue (.flight v), .hand .taken v, .hand .held v, .hand .yielding v].flatMap m.places := by
    intro v
    rw [h.localThreads hp, h.detached hp]
    unfold Mn.hands
    rw [h.core]
    simp [Mn.places, Pc.hand]
  unfold Mn.collection rooms
  rw [h.readyThreads hp, hn, List.flatMap_cons, List.flatMap_assoc]
  simp only [hv]
  rfl

end Refines

/-! ## What a thief finds -/

def Pc.stole : Pc → Bool
  | .stealTrace _ | .stealDeq => true
  | _ => false

structure Stocked (m : Mn Lists) : Prop where
  own : ∀ {v}, (m.pc v).stole = true → m.q.q (.loc v) ≠ []
  range : ∀ {v}, m.numVps ≤ v → m.q.q (.loc v) = []

theorem user_loc (h : UserStep m a m') : m'.q.q (.loc u) = m.q.q (.loc u) := by
  cases h <;> simp [Mn.gcFinishedThreads, RunQueues.gc]

theorem loop_loc (h : LoopStep m a m') (hu : u ≠ a.vp) :
    m'.q.q (.loc u) = m.q.q (.loc u) ∨
      ∃ n, n < (m.q.q (.loc u)).length ∧ m'.q.q (.loc u) = (m.q.q (.loc u)).drop n := by
  cases h with
  | @createFail ok _ => cases ok <;> exact .inl rfl
  | @steal start i victim x xs ys hpc hv hq hx hn =>
    by_cases huv : u = victim
    · subst huv
      right
      refine ⟨xs.length, ?_, ?_⟩
      · have hxs : xs ≠ [] := by
          rintro rfl
          cases hx
        have := List.length_pos_of_ne_nil hxs
        omega
      · simp [hq]
    · left
      simp [huv]
  | _ => 
    left
    simp [Mn.leave, Mn.gcFinishedThreads, MnCore.allocTcb, Lists.push, RunQueues.gc, RunQueues.globalListAdd, hu]

theorem loop_loc_ne (h : LoopStep m a m') (hu : u ≠ a.vp) (hne : m.q.q (.loc u) ≠ []) : m'.q.q (.loc u) ≠ [] := by
  rcases loop_loc h hu with he | ⟨n, hn, he⟩
  · rwa [he]
  · rw [he]
    simpa using hn

theorem StartLists.stocked (h : StartLists m) : Stocked m := by
  constructor
  · intro v hv
    rw [h.control] at hv
    by_cases h0 : v = 0 <;> simp [h0, Pc.stole] at hv
  · intro v hv
    by_contra hne
    rcases h.places (i := .queue (.loc v)) hne with he | ⟨u, hu, he⟩
    · cases he
    · cases he
      exact absurd hu (Nat.not_lt.mpr hv)

theorem Stocked.userStep (h : Stocked m) (hs : UserStep m a m') : Stocked m' := by
  constructor
  · intro u hu
    by_cases hua : u = a.vp
    · subst hua
      cases hs <;> simp [Pc.stole] at hu
    · rw [user_loc hs]
      rw [(Mn.user_others hs hua).1] at hu
      exact h.own hu
  · intro u hu
    rw [Mn.user_numVps hs] at hu
    rw [user_loc hs]
    exact h.range hu

theorem Stocked.loopStep (h : Stocked m) (hp : Placed m) (hb : Booted m) (hs : LoopStep m a m') : Stocked m' := by
  constructor
  · intro u hu
    by_cases hua : u = a.vp
    · subst hua
      -- only the thief section and the trace behind it lead to such a point
      cases hs with
      | @attach x tl n hpc =>
        have hf := hp.flight a.vp
        rw [hpc] at hf
        have hne : m.q.q (.flight a.vp) ≠ [] := by
          intro he
          rw [he] at hf
          cases hf.1
        simp [hne]
      | stealTrace hpc => exact h.own (by rw [hpc]; rfl)
      | @createFail ok _ => cases ok <;> simp [MnCore.allocTcb, Pc.stole] at hu
      | readyEmpty => split at hu <;> simp [Pc.stole] at hu
      | halt => unfold Mn.leave at hu; split at hu <;> simp [Pc.stole] at hu
      | dead => unfold Mn.leave at hu; split at hu <;> simp [Pc.stole] at hu
      | _ => simp [MnCore.allocTcb, Pc.stole] at hu
    · apply loop_loc_ne hs hua
      rcases (Mn.loop_started_other hs hua).1 with he | he
      · rw [he] at hu
        exact h.own hu
      · rw [he] at hu
        cases hu
  · intro u hu
    rw [Mn.loop_numVps hs] at hu
    have hua : u ≠ a.vp := fun e => Mn.loop_started hs (e ▸ hb.range hu)
    rcases loop_loc hs hua with he | ⟨n, -, he⟩
    · rw [he]
      exact h.range hu
    · rw [he, h.range hu]
      exact List.drop_nil

theorem ListRun.stocked {ok : MnCore → MnAct → Prop} (h : ListRun ok m) : Stocked m := by
  apply ListRun.inv _ _ _ h
  · exact fun m => StartLists.stocked
  · intro m a m' hsd hst _ hpc hu
    have hst' : Stocked (m.on (.beginCall a.vp)) := ⟨hst.own, hst.range⟩
    exact hst'.userStep hu
  · intro m a m' hsd hst _ hl
    exact hst.loopStep hsd.placed hsd.booted hl

/-! ## Threads created -/

def Known (m : Mn Lists) : Prop := ∀ t, m.created t = true → m.allocated t = true ∨ m.state t = .finished

theorem Known.userStep (h : Known m) (hp : Placed m) (hpc : m.pc a.vp = .user) (hs : UserStep m a m') : Known m' := by
  intro t hc
  have hcr : m.created t = true := by cases hs <;> exact hc
  have hkeep : m.state t = .finished → m'.state t = .finished := by
    intro hf
    rcases Mn.user_state hpc hs t with he | ⟨i, hi, -⟩
    · rw [he, hf]
    · exact absurd hf (hp.live hi)
  rcases h t hcr with ha | hf
  · rcases Mn.user_allocated hs t with he | ⟨-, hf⟩
    · exact .inl (he.trans ha)
    · exact .inr (hkeep hf)
  · exact .inr (hkeep hf)

theorem Known.loopStep (h : Known m) (hp : Placed m) (hs : LoopStep m a m') : Known m' := by
  intro t hc
  by_cases hcr : m.pc a.vp = .createTcb ∧ t = a.addr
  · obtain ⟨hpc, rfl⟩ := hcr
    cases hs with
    | @createFail ok _ ha =>
      cases ok with
      | true => exact h _ hc
      | false => simp [MnCore.allocTcb] at hc
    | createTcb => simp [MnCore.allocTcb]
    | deq hpc' => simp [hpc] at hpc'
    | _ hpc' =>
      rw [hpc] at hpc'
      cases hpc'
  · have hcr' : m.created t = true := by
      cases hs with
      | @createFail ok hpc =>
        have hne : t ≠ a.addr := fun e => hcr ⟨hpc, e⟩
        cases ok with
        | true => exact hc
        | false => simpa [MnCore.allocTcb, hne] using hc
      | createTcb hpc =>
        have hne : t ≠ a.addr := fun e => hcr ⟨hpc, e⟩
        simpa [MnCore.allocTcb, hne] using hc
      | _ => exact hc
    have hkeep : m.state t = .finished → m'.state t = .finished := by
      intro hf
      rcases Mn.loop_state hs t with he | ⟨i, hi, -⟩ | hx
      · rw [he, hf]
      · exact absurd hf (hp.live hi)
      · exact absurd ⟨hx.1, hx.2.1⟩ hcr
    rcases h t hcr' with ha | hf
    · rcases Mn.loop_allocated hs t with he | ⟨-, hf⟩ | hx
      · exact .inl (he.trans ha)
      · exact .inr (hkeep hf)
      · exact absurd ⟨hx.1, hx.2.1⟩ hcr
    · exact .inr (hkeep hf)

theorem ListRun.known {ok : MnCore → MnAct → Prop} (h : ListRun ok m) : Known m := by
  apply ListRun.inv _ _ _ h
  · intro m ⟨n, k, sem, tr, hn, hc, _⟩ t ht
    left
    rw [hc] at ht ⊢
    exact ht
  · intro m a m' hsd hk _ hpc hu
    have hk' : Known (m.on (.beginCall a.vp)) := hk
    exact hk'.userStep hsd.placed.beginCall hpc hu
  · intro m a m' hsd hk _ hl
    exact hk.loopStep hsd.placed hl

/-! ## Programs that create, yield and exit -/

def Basic (_ : MnCore) (a : MnAct) : Prop := a.call ∈ [.create, .yield, .exit, .mnRun]

instance (c : MnCore) (a : MnAct) : Decidable (Basic c a) := inferInstanceAs (Decidable (_ ∈ _))

def Pc.waits : Pc → Bool
  | .lockSet _ | .unlockClear _ | .sem _ _ | .park _ | .parkTrace _ | .appendRead _ | .append _ _ => true
  | .wakeRead _ | .pop _ _ | .wakeMark _ | .wakeTrace _ | .enqRead _ | .wakeEnq _ _ => true
  | .sleepTrace | .sleepPush | .ioTrace _ _ | .ioAdd _ _ | .yieldTest => true
  | _ => false

section
variable {σ : Type} {p p' : Mn σ} {pc : Pc}

theorem waits_goto (h : ∀ u, (p.pc u).waits = false) (hpc : pc.waits = false) (u : VpId) :
    ((p.goto v pc).pc u).waits = false := by
  by_cases hu : u = v
  · subst hu
    simpa using hpc
  · simpa [hu] using h u

variable [RunQueues σ]

theorem waits_call (h : ∀ u, (p.pc u).waits = false) (hk : Basic p.toMnCore a) (hs : p.call a = some p') (u : VpId) :
    (p'.pc u).waits = false := by
  unfold Mn.call at hs
  dsimp only at hs
  cases hcall : a.call <;> cases hc : (p.on (.beginCall a.vp)).current a.vp <;> simp only [hcall, hc] at hs <;> cases hs
  case yield.some t =>
    unfold Mn.mnYield
    split
    · exact waits_goto h rfl u
    · exact waits_goto h rfl u
  all_goals first
    | exact waits_goto h rfl u
    | simp [Basic, hcall] at hk

theorem waits_step (h : ∀ u, (p.pc u).waits = false) (hk : Basic p.toMnCore a) (hs : p.step a = some p') (u : VpId) :
    (p'.pc u).waits = false := by
  have hv := h a.vp
  unfold Mn.step at hs
  dsimp only at hs
  cases hpc : p.pc a.vp with
  | user =>
    rw [hpc] at hs
    exact waits_call h hk hs u
  | createTcb =>
    simp only [hpc, Mn.createTcb] at hs
    split at hs
    · split at hs
      · cases hs
      · cases hs
        split
        · exact waits_goto h rfl u
        · exact waits_goto h rfl u
    · cases hs
      exact waits_goto h rfl u
  | spawn i =>
    simp only [hpc] at hs
    split at hs
    · cases hs
      exact waits_goto (waits_goto h rfl) rfl u
    · cases hs
      exact waits_goto h rfl u
  | stop i =>
    simp only [hpc] at hs
    split at hs
    · cases hs
      exact waits_goto h rfl u
    · cases hs
      exact waits_goto h rfl u
  | join i =>
    simp only [hpc] at hs
    split at hs
    · cases hs
      exact waits_goto h rfl u
    · cases hs
  | test =>
    rw [hpc] at hs
    cases hs
    unfold Mn.leave
    split
    · exact waits_goto h rfl u
    · split
      · exact waits_goto h rfl u
      · exact waits_goto h rfl u
  | alive =>
    rw [hpc] at hs
    cases hs
    unfold Mn.leave
    split
    · exact waits_goto h rfl u
    · split
      · exact waits_goto h rfl u
      · exact waits_goto h rfl u
  | deq =>
    rw [hpc] at hs
    cases hs
    unfold Mn.took
    cases (RunQueues.vpDequeue a.vp p.q).1 <;> exact waits_goto h rfl u
  | stealDeq =>
    rw [hpc] at hs
    cases hs
    unfold Mn.took
    cases (RunQueues.vpDequeue a.vp p.q).1 <;> exact waits_goto h rfl u
  | ready =>
    rw [hpc] at hs
    cases hs
    unfold Mn.took
    cases (RunQueues.dequeue p.q).1 with
    | none =>
      dsimp only [Option.elim]
      split
      · exact waits_goto h rfl u
      · exact waits_goto h rfl u
    | some t => exact waits_goto h rfl u
  | probe start i =>
    rw [hpc] at hs
    cases hs
    unfold Mn.probe
    split
    · dsimp only
      split
      · exact waits_goto h rfl u
      · split
        · exact waits_goto h rfl u
        · split
          · exact waits_goto h rfl u
          · exact waits_goto h rfl u
    · exact waits_goto h rfl u
  | off | returned | done =>
    rw [hpc] at hs
    cases hs
  | createAdd | createEnq | createTrace | createRet | attach | stealTrace | dispatch | dispatchTrace | switchIn =>
    rw [hpc] at hs
    cases hs
    exact waits_goto h rfl u
  | yieldMark | yieldTrace | yieldEnq | swapOut | exitTrace | exitSwitch =>
    rw [hpc] at hs
    obtain ⟨t, -, hs⟩ := Option.bind_eq_some_iff.mp hs
    cases hs
    exact waits_goto h rfl u
  | _ =>
    rw [hpc] at hv
    cases hv

end

theorem MnRun.waits (h : MnRun Basic s) (v : VpId) : (s.pc v).waits = false := by
  induction h generalizing v with
  | @init s h =>
    obtain ⟨n, k, sem, tr, q, -, hc, -⟩ := h
    rw [hc]
    by_cases hv : v = 0 <;> simp [loaded, initMn, hv, Pc.waits]
  | step _ hok hs ih => exact waits_step ih hok hs v

theorem Orderly.of_waits {c : MnCore} (h : ∀ v, (c.pc v).waits = false) : Orderly c a := by
  have hready : ∀ v, (c.pc v).onReady = false := by
    intro v
    have hv := h v
    cases hpc : c.pc v with
    | wakeEnq x tl =>
      rw [hpc] at hv
      cases hv
    | _ => rfl
  have hv := h a.vp
  unfold Orderly
  cases hpc : c.pc a.vp with
  | createEnq | ready => exact fun v _ _ => hready v
  | append | pop | wakeEnq | yieldTest =>
    rw [hpc] at hv
    cases hv
  | _ => trivial

/-- Only calls that wait or wake work on a queue without its lock. -/
theorem MnRun.orderly (h : MnRun Basic s) : MnRun (fun c a => Orderly c a ∧ Basic c a) s := by
  induction h with
  | init h => exact .init h
  | @step s a s' hm hok hs ih => exact .step ih ⟨.of_waits (MnRun.waits hm), hok⟩ hs

def Unblocked (m : Mn Lists) : Prop := ∀ t, m.state t ≠ .blocked ∧ m.state t ≠ .ioBlocked

theorem Unblocked.update {st : TState} (h : Unblocked m) (hb : st ≠ .blocked) (hi : st ≠ .ioBlocked) (u : Ptr) :
    Function.update m.state t st u ≠ .blocked ∧ Function.update m.state t st u ≠ .ioBlocked := by
  by_cases hut : u = t
  · subst hut
    simp [hb, hi]
  · simpa [hut] using h u

theorem Unblocked.userStep (h : Unblocked m) (hk : Basic m.toMnCore a) (hs : UserStep m a m') : Unblocked m' := by
  intro t
  cases hs with
  | sleep _ hk' => simp [Basic, hk'] at hk
  | io _ hk' => simp [Basic, hk'] at hk
  | exit => exact h.update (by simp) (by simp) t
  | _ => exact h t

theorem Unblocked.loopStep (h : Unblocked m) (hw : (m.pc a.vp).waits = false) (hs : LoopStep m a m') : Unblocked m' := by
  intro t
  cases hs with
  | @createFail ok _ =>
    cases ok with
    | true => exact h t
    | false => exact h.update (by simp) (by simp) t
  | createTcb => exact h.update (by simp) (by simp) t
  | yieldMark => exact h.update (by simp) (by simp) t
  | dispatch => exact h.update (by simp) (by simp) t
  | park hpc =>
    rw [hpc] at hw
    cases hw
  | wakeMark hpc =>
    rw [hpc] at hw
    cases hw
  | _ => exact h t

theorem ListRun.unblocked (h : ListRun Basic m) : Unblocked m ∧ ∀ v, (m.pc v).waits = false := by
  induction h with
  | @init m h =>
    have hpc := h.control
    obtain ⟨n, k, sem, tr, hn, hc, -⟩ := h
    constructor
    · intro t
      rw [hc]
      simp [loaded, initMn]
    · intro v
      rw [hpc]
      by_cases h0 : v = 0 <;> simp [h0, Pc.waits]
  | @step m a m' hm hok hs ih =>
    refine ⟨?_, waits_step ih.2 hok.2 hs⟩
    rcases Mn.step_cases (ListRun.sound hm).placed hok.1 hs with ⟨hpc, hu⟩ | hl
    · have hub : Unblocked (m.on (.beginCall a.vp)) := ih.1
      exact hub.userStep hok.2 hu
    · exact ih.1.loopStep (ih.2 a.vp) hl

theorem mem_rooms {n : Nat} {i : Place} : i ∈ rooms n ↔ i = .queue (.shared .ready) ∨ ∃ v, v < n ∧
    (i = .queue (.loc v) ∨ i = .queue (.flight v) ∨ i = .hand .taken v ∨ i = .hand .held v ∨ i = .hand .yielding v) := by
  simp [rooms]

theorem Sound.collected (h : Sound m) (hst : Stocked m) (ha : m.allocated t = true) (hf : m.state t ≠ .finished)
    (hb : m.state t ≠ .blocked ∧ m.state t ≠ .ioBlocked) (hp : ∀ v, t ∉ (m.pc v).pend) :
    ((rooms m.numVps).flatMap m.places).count t = 1 := by
  apply List.count_eq_one_of_mem
  · exact h.placed.apart.nodup_flatMap (rooms_nodup _)
  · obtain ⟨i, hi⟩ := h.placed.complete ha hf hb.2
    have hs := h.placed.state hi
    refine List.mem_flatMap.mpr ⟨i, mem_rooms.mpr ?_, hi⟩
    have hrange : ∀ v, ((m.pc v = .off ∧ m.q.q (.loc v) = []) → False) → v < m.numVps := by
      intro v hv
      by_contra hn
      have hle := Nat.le_of_not_lt hn
      exact hv ⟨h.booted.range hle, hst.range hle⟩
    cases i with
    | hand k v =>
      have hv : v < m.numVps := by
        apply hrange v
        intro hx
        cases k <;> simp [Mn.places, Pc.hand, Pc.pend, Pc.popped, Pc.taken, Pc.own, hx.1] at hi
      refine .inr ⟨v, hv, ?_⟩
      cases k with
      | pend => exact absurd hi (hp v)
      | popped => exact absurd hs hb.1
      | parked => exact absurd hs hb.1
      | dozing => exact absurd hs hb.2
      | _ => simp
    | queue i =>
      cases i with
      | loc v =>
        refine .inr ⟨v, hrange v fun hx => ?_, by simp⟩
        simp [Mn.places, hx.2] at hi
      | flight v =>
        refine .inr ⟨v, hrange v fun hx => ?_, by simp⟩
        have hfl := h.placed.flight v
        rw [hx.1] at hfl
        have he : m.q.q (.flight v) = [] := hfl
        simp [Mn.places, he] at hi
      | shared k =>
        cases k with
        | ready => exact .inl rfl
        | sleep => exact absurd hs hb.2
        | wait w => exact absurd hs hb.1

structure Conserved (s : Mn MnLinks) : Prop where
  -- a thread that was created, appended to a queue and has not exited is in the collection exactly once
  once : ∀ t, s.created t = true → s.state t ≠ .finished → (∀ v, t ∉ (s.pc v).pend) → s.collection.count t = 1
  -- `local_count` is the length of the local chain and `local_tail` its last node
  exact : ∀ v, Chain s.q.next (s.q.localHead v) (s.localThreads v) ∧
    s.q.localCount v = (s.localThreads v).length ∧ s.q.localTail v = (s.localThreads v).getLast?
  -- a thief adds the length of the chain it attaches
  detached : ∀ v x tl n, s.pc v = .attach x tl n → Chain s.q.next (some x) (s.detached v) ∧
    n = (s.detached v).length ∧ tl = (s.detached v).getLast?
  -- the loop over `steal_count` never meets a NULL head
  victim : ∀ thief victim start i, s.pc thief = .probe start i → 1 < s.q.localCount victim →
    let stealCount := (s.q.localCount victim / 2).toNat
    (s.q.steal thief victim stealCount).1.j = stealCount
  -- a thief that attached a chain finds a thread in its own queue
  thief : ∀ v, (s.pc v).stole = true → (s.q.vpDequeue v).1 ≠ none

/-- Work stealing conserves threads. -/
theorem stealing_conserves (h : MnRun Basic s) : Conserved s := by
  obtain ⟨m, hm, hr⟩ := MnRun.lists (fun _ _ hok => hok.1) (MnRun.orderly h)
  have hsd := ListRun.sound hm
  have hst := ListRun.stocked hm
  obtain ⟨hub, -⟩ := ListRun.unblocked (hm.mono fun _ _ hok => hok.2)
  have hp := hsd.placed
  have hpc : s.pc = m.pc := by rw [hr.core]
  constructor
  · intro t hc hf hpend
    rw [show s.state = m.state by rw [hr.core]] at hf
    rw [show s.created = m.created by rw [hr.core]] at hc
    rw [hpc] at hpend
    rw [hr.collection hp]
    have ha := (ListRun.known hm t hc).resolve_right hf
    exact hsd.collected hst ha hf (hub t) hpend
  · intro v
    rw [hr.localThreads hp]
    exact ⟨hr.q.loc v, hr.q.localCount v, hr.q.localTail v⟩
  · intro v x tl n hv
    have hf := hp.flight v
    rw [hpc] at hv
    rw [hv] at hf
    rw [hr.detached hp]
    refine ⟨?_, hf.2.2, hf.2.1.symm⟩
    rw [← hf.1]
    exact hr.q.flight v
  · intro thief victim start i hv hlen
    have hf := hp.flight thief
    rw [hpc] at hv
    rw [hv] at hf
    have hlc := hr.q.localCount victim
    have hn : (s.q.localCount victim / 2).toNat ≤ (m.q.q (.loc victim)).length := by
      rw [hlc]
      omega
    obtain ⟨h₁, -⟩ := hr.q.steal thief hp.queues hf hn
    dsimp only
    rw [h₁]
    simp only [RunQueues.steal, List.length_take]
    omega
  · intro v hv
    rw [hpc] at hv
    rw [(hr.q.vpDequeue (v := v) hp.queues).1]
    simpa [Lists.pop] using hst.own hv

/-- One of three threads is in flight from virtual processor 0 to virtual processor 1. -/
theorem stealing_conserves_flight :
    let s := (crowd 2 3).after [{ vp := 0, call := .mnRun }, { vp := 0 }, { vp := 0 }, { vp := 1 }, { vp := 1 },
      { vp := 1, now := 1 }, { vp := 1 }]
    s.pc 1 = .attach 0 (some 0) 1 ∧ s.localThreads 0 = [1, 2] ∧ s.collection = [1, 2, 0] ∧ Conserved s :=
  ⟨by decide +kernel, by decide +kernel, by decide +kernel,
    stealing_conserves (MnRun.after (.init (crowd_start (by decide) 3)) (by decide +kernel))⟩

end

end Uthread
