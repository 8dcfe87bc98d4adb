import Uthread.Mn.Moves

/-!
# No step loses a thread

Every step keeps each thread in exactly one place, whatever the interleaving.
-/

namespace Uthread

open Linked

variable {m m' : Mn Lists} {a : MnAct} {v : VpId} {pc : Pc}

namespace Placed

theorem sameThreads (hu : ∀ u, u ≠ v → m'.pc u = m.pc u ∧ m'.current u = m.current u) (ha : m'.allocated = m.allocated)
    (hb : m'.brk = m.brk) (hg : m'.q.glob = m.q.glob) (hun : (m'.pc v).unlisted = (m.pc v).unlisted) :
    SameThreads m m' v := ⟨ha, hb, hg, hu, hun⟩

theorem regrip_on {t : Ptr} {k k' : Hand} {f : MnCore → MnCore} {p : Pc} (h : Placed m) (hpc : m.pc v = p) (hp : p.own = some k)
    (hc : m.current v = some t) (hk' : m.places (.hand k' v) = []) (hne : k' ≠ k)
    (hf : (f m.toMnCore).pc = m.pc ∧ (f m.toMnCore).current = m.current ∧ (f m.toMnCore).allocated = m.allocated ∧
      (f m.toMnCore).brk = m.brk) (hs : (f m.toMnCore).state = Function.update m.state t (Place.hand k' v).expect)
    (hun : pc.unlisted = p.unlisted) (hfl : ∀ xs, p.InFlight xs → pc.InFlight xs)
    (hh : ∀ j, pc.hand (some t) j = Function.update (Function.update (p.hand (some t)) k []) k' [t] j) :
    Placed ((m.on f).goto v pc) := by
  obtain ⟨hpc', hcur', ha', hb'⟩ := hf
  refine h.regrip (v := v) (sameThreads ?_ ha' hb' rfl ?_) (Mn.places_own hpc hp hc) hk' hne rfl hs ?_ ?_
  · intro u hu
    simp [hu, hpc', hcur']
  · simpa [hpc] using hun
  · intro j
    simpa [hpc, hc, hcur'] using hh j
  · simpa [hpc] using hfl

theorem userStep (h : Placed m) (hpc : m.pc a.vp = .user) (hs : UserStep m a m') : Placed m' := by
  have hdoze : m.places (.hand .dozing a.vp) = [] := by simp [Mn.places, Pc.hand, Pc.own, hpc]
  cases hs with
  | create => exact (h.gc (v := a.vp)).goto (p := .user) hpc rfl rfl fun _ h => h
  | mnRun hc =>
    refine h.goto hpc ?_ rfl fun _ h => h
    rw [hc]
    funext k
    cases k <;> simp [Pc.hand, Pc.own, Pc.pend, Pc.popped, Pc.taken]
  | exit hc =>
    refine h.quit (v := a.vp) (sameThreads ?_ rfl rfl rfl ?_) (Mn.places_own hpc rfl hc) (.inl rfl) rfl rfl ?_ ?_
    · intro u hu
      simp [hu]
    · simp [hpc, Pc.unlisted]
    · intro j
      cases j <;> simp [hpc, Pc.hand, Pc.own, Pc.pend, Pc.popped, Pc.taken]
    · simp [hpc, Pc.InFlight]
  | @sleep t _ deadline hc =>
    refine regrip_on (f := fun c => (c.setSleep t deadline).setState t .ioBlocked) h hpc rfl hc hdoze (by simp)
      ⟨rfl, rfl, rfl, rfl⟩ rfl rfl (fun _ h => h) fun j => ?_
    cases j <;> simp [Pc.hand, Pc.own, Pc.pend, Pc.popped, Pc.taken]
  | @io t fd dir hc =>
    refine regrip_on (f := fun c => (c.setIo t fd dir).setState t .ioBlocked) h hpc rfl hc hdoze (by simp)
      ⟨rfl, rfl, rfl, rfl⟩ rfl rfl (fun _ h => h) fun j => ?_
    cases j <;> simp [Pc.hand, Pc.own, Pc.pend, Pc.popped, Pc.taken]
  | _ => exact h.goto hpc rfl rfl fun _ h => h

theorem goto_on {p : Pc} {f : MnCore → MnCore} (h : Placed m)
    (hc : ∀ c, (f c).pc = c.pc ∧ (f c).current = c.current ∧ (f c).state = c.state ∧ (f c).allocated = c.allocated ∧
      (f c).brk = c.brk) (hpc : m.pc v = p) (hh : pc.hand (m.current v) = p.hand (m.current v))
    (hun : pc.unlisted = p.unlisted) (hf : ∀ xs, p.InFlight xs → pc.InFlight xs) : Placed ((m.on f).goto v pc) := by
  obtain ⟨hpc', hcur', hs', ha', hb'⟩ := hc m.toMnCore
  have hm : Placed (m.on f) := h.congr hpc' hcur' hs' ha' hb' rfl
  have hcur : (m.on f).current v = m.current v := congrFun hcur' v
  apply hm.goto (p := p) ((congrFun hpc' v).trans hpc)
  · rw [hcur]
    exact hh
  · exact hun
  · exact hf

theorem leave (h : Placed m) (hpc : m.pc v = .test ∨ m.pc v = .alive) : Placed (m.leave v) := by
  unfold Mn.leave
  rcases hpc with hpc | hpc <;> split <;> exact h.goto hpc rfl rfl fun _ h => h

theorem spawn {i : VpId} (h : Placed m) (hpc : m.pc i = .off) : Placed (m.goto i .test) :=
  h.goto hpc rfl rfl fun _ h => h

theorem append_goto {t : Ptr} {i : Queue} {k : Hand} {p : Pc} {f : MnCore → MnCore} (h : Placed m) (hpc : m.pc v = p)
    (hk : m.places (.hand k v) = [t]) (hi : ∀ u, i ≠ .flight u)
    (hc : ∀ c, (f c).pc = c.pc ∧ (f c).current = c.current ∧ (f c).state = c.state ∧ (f c).allocated = c.allocated ∧
      (f c).brk = c.brk) (hst : (Place.hand k v).expect = (Place.queue i).expect)
    (hh : ∀ j, pc.hand (m.current v) j = Function.update (p.hand (m.current v)) k [] j)
    (hun : pc.unlisted = p.unlisted) (hf : ∀ xs, p.InFlight xs → pc.InFlight xs) :
    Placed (((m.mapQ (Lists.push i t)).on f).goto v pc) := by
  obtain ⟨hpc', hcur', hs', ha', hb'⟩ := hc m.toMnCore
  refine h.append (v := v) (sameThreads ?_ ha' hb' rfl ?_) hk hi rfl hs' hst ?_ ?_
  · intro u hu
    simp [hu, hpc', hcur']
  · simpa [hpc] using hun
  · intro j
    simpa [hpc, hcur'] using hh j
  · simpa [hpc] using hf

theorem take_goto {t : Ptr} {i : Queue} {k : Hand} {p : Pc} {ts : List Ptr} {f : MnCore → MnCore} (h : Placed m)
    (hpc : m.pc v = p) (hi : m.q.q i = t :: ts) (hk : m.places (.hand k v) = []) (hfl : ∀ u, i ≠ .flight u)
    (hc : ∀ c, (f c).pc = c.pc ∧ (f c).current = c.current ∧ (f c).state = c.state ∧ (f c).allocated = c.allocated ∧
      (f c).brk = c.brk) (hst : (Place.queue i).expect = (Place.hand k v).expect)
    (hh : ∀ j, pc.hand (m.current v) j = Function.update (p.hand (m.current v)) k [t] j)
    (hun : pc.unlisted = p.unlisted) (hf : ∀ xs, p.InFlight xs → pc.InFlight xs) :
    Placed (((m.mapQ (Lists.set i ts)).on f).goto v pc) := by
  obtain ⟨hpc', hcur', hs', ha', hb'⟩ := hc m.toMnCore
  refine h.take (v := v) (sameThreads ?_ ha' hb' rfl ?_) hi hk hfl rfl hs' hst ?_ ?_
  · intro u hu
    simp [hu, hpc', hcur']
  · simpa [hpc] using hun
  · intro j
    simpa [hpc, hcur'] using hh j
  · simpa [hpc] using hf

theorem dispatch {t : Ptr} (h : Placed m) (hpc : m.pc v = .dispatch t) :
    Placed (((m.on (.setCurrent v t)).on (.setState t .running)).goto v (.dispatchTrace t)) := by
  have ht : m.places (.hand .taken v) = [t] := by simp [Mn.places, Pc.hand, Pc.taken, hpc]
  have hn : m.places (.hand .held v) = [] := by simp [Mn.places, Pc.hand, Pc.own, hpc]
  refine h.regrip (v := v) (sameThreads ?_ rfl rfl rfl ?_) ht hn (by simp) rfl rfl ?_ ?_
  · intro u hu
    simp [hu]
  · simp [hpc, Pc.unlisted]
  · intro j
    cases j <;> simp [hpc, Pc.hand, Pc.own, Pc.pend, Pc.popped, Pc.taken]
  · simp [hpc, Pc.InFlight]

theorem wakeMark {t : Ptr} (h : Placed m) (hpc : m.pc v = .wakeMark t) :
    Placed ((m.on (.setState t .ready)).goto v (.wakeTrace t)) := by
  have ht : m.places (.hand .popped v) = [t] := by simp [Mn.places, Pc.hand, Pc.popped, hpc]
  have hn : m.places (.hand .pend v) = [] := by simp [Mn.places, Pc.hand, Pc.pend, hpc]
  refine h.regrip (v := v) (sameThreads ?_ rfl rfl rfl ?_) ht hn (by simp) rfl rfl ?_ ?_
  · intro u hu
    simp [hu]
  · simp [hpc, Pc.unlisted]
  · intro j
    cases j <;> simp [hpc, Pc.hand, Pc.own, Pc.pend, Pc.popped, Pc.taken]
  · simp [hpc, Pc.InFlight]

theorem register {t : Ptr} {fd : Fd} {dir : IoDir} {ok : Bool} (h : Placed m) (hpc : m.pc v = .ioAdd fd dir)
    (hc : m.current v = some t) : Placed ((m.on (.register ok t fd dir)).goto v .yieldTest) := by
  have hk := Mn.places_own hpc rfl hc
  have hst : m.state t = .ioBlocked := h.state (i := .hand .dozing v) (by simp [hk])
  refine h.quit (v := v) (sameThreads ?_ rfl rfl rfl ?_) hk (.inr rfl) rfl ?_ ?_ ?_
  · intro u hu
    simp [hu]
  · simp [hpc, Pc.unlisted]
  · change m.state = _
    rw [← hst, Function.update_eq_self]
  · intro j
    cases j <;> simp [hpc, Pc.hand, Pc.own, Pc.pend, Pc.popped, Pc.taken]
  · simp [hpc, Pc.InFlight]

theorem loopStep (h : Placed m) (hb : Booted m) (hs : LoopStep m a m') : Placed m' := by
  have same : ∀ c : MnCore, c.pc = c.pc ∧ c.current = c.current ∧ c.state = c.state ∧ c.allocated = c.allocated ∧
    c.brk = c.brk := fun _ => ⟨rfl, rfl, rfl, rfl, rfl⟩
  cases hs with
  | @createFail ok hpc ha =>
    cases ok with
    | true => exact h.goto hpc rfl rfl fun _ h => h
    | false => exact (h.createFail (ha rfl)).goto (p := .createTcb) hpc rfl rfl fun _ h => h
  | createTcb hpc ha => exact h.createTcb hpc ha
  | createAdd hpc => exact h.createAdd hpc
  | @createEnq t hpc =>
    have hk : m.places (.hand .pend a.vp) = [t] := by simp [Mn.places, Pc.hand, Pc.pend, hpc]
    refine append_goto (f := id) h hpc hk (by simp) same rfl (fun j => ?_) rfl fun _ h => h
    cases j <;> simp [Pc.hand, Pc.own, Pc.pend, Pc.popped, Pc.taken]
  | @wakeEnq t tl hpc =>
    have hk : m.places (.hand .pend a.vp) = [t] := by simp [Mn.places, Pc.hand, Pc.pend, hpc]
    refine append_goto (f := id) h hpc hk (by simp) same rfl (fun j => ?_) rfl fun _ h => h
    cases j <;> simp [Pc.hand, Pc.own, Pc.pend, Pc.popped, Pc.taken]
  | @append t w tl hpc hc =>
    refine append_goto (f := .setLockWait t w) h hpc (Mn.places_own hpc rfl hc) (by simp) (fun c => ⟨rfl, rfl, rfl,
      rfl, rfl⟩) rfl (fun j => ?_) rfl fun _ h => h
    cases j <;> simp [Pc.hand, Pc.own, Pc.pend, Pc.popped, Pc.taken]
  | yieldEnq hpc hc =>
    refine append_goto (f := id) h hpc (Mn.places_own hpc rfl hc) (by simp) same rfl (fun j => ?_) rfl fun _ h => h
    cases j <;> simp [Pc.hand, Pc.own, Pc.pend, Pc.popped, Pc.taken]
  | sem hpc hp =>
    exact goto_on (f := fun c => { c with semCount := _ }) h (fun _ => ⟨rfl, rfl, rfl, rfl, rfl⟩) hpc rfl rfl fun _ h => h
  | semDone hpc =>
    exact goto_on (f := fun c => { c with semCount := _ }) h (fun _ => ⟨rfl, rfl, rfl, rfl, rfl⟩) hpc rfl rfl fun _ h => h
  | semWake hpc =>
    exact goto_on (f := fun c => { c with semCount := _ }) h (fun _ => ⟨rfl, rfl, rfl, rfl, rfl⟩) hpc rfl rfl fun _ h => h
  | park hpc hc =>
    have hn : m.places (.hand .parked a.vp) = [] := by simp [Mn.places, Pc.hand, Pc.own, hpc]
    refine regrip_on h hpc rfl hc hn (by simp) ⟨rfl, rfl, rfl, rfl⟩ rfl rfl (fun _ h => h) fun j => ?_
    cases j <;> simp [Pc.hand, Pc.own, Pc.pend, Pc.popped, Pc.taken]
  | yieldMark hpc hc =>
    have hn : m.places (.hand .yielding a.vp) = [] := by simp [Mn.places, Pc.hand, Pc.own, hpc]
    refine regrip_on h hpc rfl hc hn (by simp) ⟨rfl, rfl, rfl, rfl⟩ rfl rfl (fun _ h => h) fun j => ?_
    cases j <;> simp [Pc.hand, Pc.own, Pc.pend, Pc.popped, Pc.taken]
  | @pop w t ts hpc hq =>
    have hn : m.places (.hand .popped a.vp) = [] := by simp [Mn.places, Pc.hand, Pc.popped, hpc]
    refine take_goto (f := .handOver w (m.current a.vp) t) h hpc hq hn (by simp) (fun c => ⟨rfl, rfl, rfl, rfl, rfl⟩)
      rfl (fun j => ?_) rfl fun _ h => h
    cases j <;> simp [Pc.hand, Pc.own, Pc.pend, Pc.popped, Pc.taken]
  | wakeMark hpc => exact h.wakeMark hpc
  | sleepPush hpc hc => exact h.sleepPush hpc hc
  | ioAdd hpc hc => exact h.register hpc hc
  | @spawn i hpc hi =>
    have hoff := hb.spawning hpc i (Nat.le_refl i)
    have hia : a.vp ≠ i := by
      intro e
      rw [e, hoff] at hpc
      cases hpc
    have hpc' : (m.goto i .test).pc a.vp = .spawn i := by simpa [hia] using hpc
    exact (h.spawn hoff).goto hpc' rfl rfl fun _ h => h
  | @stopped i hpc hi => exact (h.gc (v := a.vp)).goto (p := .stop i) hpc rfl rfl fun _ h => h
  | halt hpc hr => exact h.leave (.inl hpc)
  | dead hpc hs => exact h.leave (.inr hpc)
  | @deq t ts hpc hq =>
    rcases hpc with hpc | hpc
    · have hn : m.places (.hand .taken a.vp) = [] := by simp [Mn.places, Pc.hand, Pc.taken, hpc]
      refine take_goto (f := id) h hpc hq hn (by simp) same rfl (fun j => ?_) rfl fun _ h => h
      cases j <;> simp [Pc.hand, Pc.own, Pc.pend, Pc.popped, Pc.taken]
    · have hn : m.places (.hand .taken a.vp) = [] := by simp [Mn.places, Pc.hand, Pc.taken, hpc]
      refine take_goto (f := id) h hpc hq hn (by simp) same rfl (fun j => ?_) rfl fun _ h => h
      cases j <;> simp [Pc.hand, Pc.own, Pc.pend, Pc.popped, Pc.taken]
  | ready hpc hq =>
    have hn : m.places (.hand .taken a.vp) = [] := by simp [Mn.places, Pc.hand, Pc.taken, hpc]
    refine take_goto (f := id) h hpc hq hn (by simp) same rfl (fun j => ?_) rfl fun _ h => h
    cases j <;> simp [Pc.hand, Pc.own, Pc.pend, Pc.popped, Pc.taken]
  | readyEmpty hpc hq => split <;> exact h.goto hpc rfl rfl fun _ h => h
  | steal hpc hv hq hx hn => exact h.steal hpc hq hx
  | attach hpc => exact h.attach hpc
  | dispatch hpc => exact h.dispatch hpc
  | _ hpc => first
    | exact h.goto hpc rfl rfl fun _ h => h
    | exact h.goto_on (fun _ => ⟨rfl, rfl, rfl, rfl, rfl⟩) hpc rfl rfl fun _ h => h

theorem step (h : Placed m) (hb : Booted m) (ht : m.Timely a.vp) (hs : m.step a = some m') : Placed m' := by
  rcases Mn.step_cases h ht hs with ⟨hpc, hu⟩ | hl
  · exact h.beginCall.userStep hpc hu
  · exact h.loopStep hb hl

end Placed

/-! ## Where runs start -/

/-- `k` threads, none of them started, spread in any way over the ready queue and `n` local queues. In a
runtime just initialised there are none; from there a local queue never holds two threads. -/
structure Spread (n k : Nat) (q : Lists) : Prop where
  apart : Apart q.q
  mem : ∀ t, t < k ↔ ∃ i, t ∈ q.q i
  only : ∀ i, q.q i ≠ [] → i = .shared .ready ∨ ∃ v, v < n ∧ i = .loc v
  glob : q.glob.Nodup
  listed : ∀ t, t ∈ q.glob ↔ t < k

def StartLists (m : Mn Lists) : Prop :=
  ∃ n k sem tr, 1 ≤ n ∧ m.toMnCore = loaded n k sem tr ∧ Spread n k m.q

structure Sound (m : Mn Lists) : Prop where
  placed : Placed m
  booted : Booted m
  joined : Joined m
  switching : Switching m

theorem StartLists.control (h : StartLists m) (v : VpId) : m.pc v = if v = 0 then .user else .off := by
  obtain ⟨n, k, sem, tr, hn, hc, -⟩ := h
  rw [hc]
  rfl

theorem StartLists.places (h : StartLists m) {i : Place} (hi : m.places i ≠ []) :
    i = .queue (.shared .ready) ∨ ∃ v, v < m.numVps ∧ i = .queue (.loc v) := by
  have hpc := h.control
  obtain ⟨n, k, sem, tr, hn, hc, hq⟩ := h
  cases i with
  | queue i =>
    rcases hq.only i hi with rfl | ⟨v, hv, rfl⟩
    · exact .inl rfl
    · refine .inr ⟨v, ?_, rfl⟩
      rw [hc]
      exact hv
  | hand k v =>
    have hcur : m.current v = none := by
      rw [hc]
      rfl
    exfalso
    apply hi
    by_cases hv : v = 0
    · subst hv
      cases k <;> simp [Mn.places, hpc, hcur, Pc.hand, Pc.pend, Pc.popped, Pc.taken]
    · cases k <;> simp [Mn.places, hpc, hv, hcur, Pc.hand, Pc.pend, Pc.popped, Pc.taken]

theorem StartLists.placed (h : StartLists m) : Placed m := by
  have hpl : ∀ {i : Place}, m.places i ≠ [] → _ := h.places
  have hpc := h.control
  obtain ⟨n, k, sem, tr, hn, hc, hq⟩ := h
  have hal : ∀ t, m.allocated t = true ↔ t < k := by
    intro t
    rw [hc]
    simp [loaded]
  constructor
  · constructor
    · intro i
      by_cases hi : m.places i = []
      · rw [hi]
        exact List.nodup_nil
      · rcases hpl hi with rfl | ⟨v, -, rfl⟩
        · exact hq.apart.nodup _
        · exact hq.apart.nodup _
    · intro i j t hi hj
      rcases hpl (List.ne_nil_of_mem hi) with rfl | ⟨u, -, rfl⟩ <;> rcases hpl (List.ne_nil_of_mem hj) with rfl | ⟨v, -, rfl⟩ <;>
        exact congrArg Place.queue (hq.apart.disj hi hj)
  · intro i t hi
    have hst : m.state t = .ready := by
      rw [hc]
      rfl
    rcases hpl (List.ne_nil_of_mem hi) with rfl | ⟨v, -, rfl⟩ <;> exact hst
  · intro i t hi
    rw [hal, hq.mem]
    rcases hpl (List.ne_nil_of_mem hi) with rfl | ⟨v, -, rfl⟩ <;> exact ⟨_, hi⟩
  · intro t ht _ _
    obtain ⟨i, hi⟩ := (hq.mem t).mp ((hal t).mp ht)
    exact ⟨.queue i, hi⟩
  · intro v
    have hfl : m.q.q (.flight v) = [] := by
      by_contra hne
      rcases hq.only _ hne with he | ⟨u, -, he⟩ <;> cases he
    rw [hpc v, hfl]
    by_cases hv : v = 0 <;> simp [hv, Pc.InFlight]
  · exact hq.glob
  · intro t
    have hun : ∀ v, t ∉ (m.pc v).unlisted := by
      intro v
      rw [hpc v]
      by_cases hv : v = 0 <;> simp [hv, Pc.unlisted]
    simp [hal, hq.listed, hun]
  · intro t ht
    rw [hc]
    exact (hal t).mp ht

theorem StartLists.booted (h : StartLists m) : Booted m := by
  have hpc := h.control
  obtain ⟨n, k, sem, tr, hn, hc, -⟩ := h
  have hcur : ∀ v, m.current v = none := by
    intro v
    rw [hc]
    rfl
  constructor
  · intro v i hi
    rw [hpc, hcur] at hi
    by_cases hv : v = 0
    · have hi1 : i = 1 := by simpa [hv, Pc.unborn, Pc.own, eq_comm] using hi
      subst hi1
      refine ⟨hv, Nat.le_refl 1, fun u hu => ?_⟩
      rw [hpc, if_neg (Nat.ne_of_gt hu)]
    · simp [hv, Pc.unborn, Pc.own] at hi
  · intro v hv
    rw [hpc] at hv
    by_cases h0 : v = 0
    · exact h0
    · simp [h0, Pc.closing] at hv
  · intro v hr
    have hn' : m.numVps = n := by
      rw [hc]
      rfl
    rw [hn'] at hr
    rw [hpc, if_neg (Nat.ne_of_gt (Nat.lt_of_lt_of_le hn hr))]

theorem StartLists.joined (h : StartLists m) : Joined m := by
  constructor
  · intro v i hv
    rw [h.control] at hv
    by_cases h0 : v = 0 <;> simp [h0] at hv
  · intro v hv
    rw [h.control] at hv
    by_cases h0 : v = 0 <;> simp [h0] at hv

theorem StartLists.sound (h : StartLists m) : Sound m := by
  refine ⟨h.placed, h.booted, h.joined, ?_⟩
  intro v t hv
  rw [h.control] at hv
  by_cases h0 : v = 0 <;> simp [h0] at hv

namespace Sound

theorem beginCall (h : Sound m) : Sound (m.on (.beginCall v)) :=
  ⟨h.placed.beginCall, ⟨h.booted.unborn, h.booted.closing, h.booted.range⟩, ⟨h.joined.upTo, h.joined.all⟩, h.switching⟩

theorem step (h : Sound m) (ht : m.Timely a.vp) (hs : m.step a = some m') : Sound m' := by
  have hp := h.placed.step h.booted ht hs
  have hb := h.booted.step h.placed ht hs
  rcases Mn.step_cases h.placed ht hs with ⟨hpc, hu⟩ | hl
  · exact ⟨hp, hb, h.beginCall.joined.userStep hpc hu, h.beginCall.switching.userStep hu⟩
  · exact ⟨hp, hb, h.joined.loopStep h.booted hl, h.switching.loopStep hl⟩

theorem switched (h : Sound m) {t : Ptr} (hpc : m.pc v = .switchIn t) : t ∈ m.places (.hand .held v) :=
  Mn.mem_own hpc rfl (h.switching v t (.inr hpc))

end Sound

end Uthread
