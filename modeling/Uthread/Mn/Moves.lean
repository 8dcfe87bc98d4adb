import Uthread.Mn.Boot

/-!
# Threads change places

For each kind of step, the places behind it and that every thread is in one.
-/

namespace Uthread

open Linked

variable {m m' : Mn Lists} {a : MnAct} {v : VpId} {t : Ptr} {pc : Pc}

namespace Placed

theorem congr (h : Placed m) (hpc : m'.pc = m.pc) (hcur : m'.current = m.current) (hs : m'.state = m.state)
    (ha : m'.allocated = m.allocated) (hb : m'.brk = m.brk) (hq : m'.q = m.q) : Placed m' := by
  have hp : m'.places = m.places := by
    funext k
    cases k <;> simp only [Mn.places, hpc, hcur, hq]
  constructor
  · rw [hp]
    exact h.apart
  · intro i t ht
    rw [hp] at ht
    rw [hs]
    exact h.state ht
  · intro i t ht
    rw [hp] at ht
    rw [ha]
    exact h.alive ht
  · rw [hp, ha, hs]
    exact h.complete
  · rw [hpc, hq]
    exact h.flight
  · rw [hq]
    exact h.glob
  · rw [hq, ha, hpc]
    exact h.listed
  · rw [ha, hb]
    exact h.fresh

theorem flight_of (h : Placed m) (hu : ∀ u, u ≠ v → m'.pc u = m.pc u) (hq : ∀ u, m'.q.q (.flight u) = m.q.q (.flight u))
    (hf : ∀ xs, (m.pc v).InFlight xs → (m'.pc v).InFlight xs) (u : VpId) : (m'.pc u).InFlight (m'.q.q (.flight u)) := by
  rw [hq]
  by_cases h' : u = v
  · subst h'
    exact hf _ (h.flight u)
  · rw [hu u h']
    exact h.flight u

theorem listed_of (h : Placed m) (hu : ∀ u, u ≠ v → m'.pc u = m.pc u) (hv : (m'.pc v).unlisted = (m.pc v).unlisted)
    (hg : m'.q.glob = m.q.glob) (ha : m'.allocated = m.allocated) (t : Ptr) :
    t ∈ m'.q.glob ↔ m'.allocated t = true ∧ ∀ u, t ∉ (m'.pc u).unlisted := by
  have hall : ∀ u, (m'.pc u).unlisted = (m.pc u).unlisted := by
    intro u
    by_cases h' : u = v
    · rw [h', hv]
    · rw [hu u h']
  rw [hg, ha, h.listed]
  simp only [hall]

theorem places_eq {p : Place → List Ptr} (hu : ∀ u, u ≠ v → m'.pc u = m.pc u ∧ m'.current u = m.current u)
    (hp : ∀ u k, u ≠ v → p (.hand k u) = m.places (.hand k u)) (hq : ∀ i, m'.q.q i = p (.queue i))
    (hv : ∀ k, (m'.pc v).hand (m'.current v) k = p (.hand k v)) : m'.places = p := by
  funext i
  cases i with
  | queue i => exact hq i
  | hand k u =>
    by_cases h : u = v
    · rw [h]
      exact hv k
    · rw [hp u k h]
      simp only [Mn.places, hu u h]

theorem goto {p : Pc} (h : Placed m) (hpc : m.pc v = p) (hh : pc.hand (m.current v) = p.hand (m.current v))
    (hun : pc.unlisted = p.unlisted) (hf : ∀ xs, p.InFlight xs → pc.InFlight xs) : Placed (m.goto v pc) := by
  subst hpc
  have hu : ∀ u, u ≠ v → (m.goto v pc).pc u = m.pc u := by
    intro u hu
    simp [hu]
  have hpl : (m.goto v pc).places = m.places := by
    apply places_eq (m := m) (v := v)
    · exact fun u h => ⟨hu u h, rfl⟩
    · exact fun u k _ => rfl
    · exact fun i => rfl
    · intro k
      simpa [Mn.places] using congrFun hh k
  apply h.moved [] none
  · rw [hpl]
    exact Moved.refl h.apart none
  · exact fun t _ _ => rfl
  · simp
  · simp
  · exact fun t _ _ => rfl
  · exact fun t _ ht => ht
  · exact h.flight_of hu (fun _ => rfl) (by simpa using hf)
  · exact h.glob
  · exact h.listed_of hu (by simpa using hun) rfl rfl
  · exact fun t => h.fresh

theorem beginCall (h : Placed m) : Placed (m.on (.beginCall v)) := h.congr rfl rfl rfl rfl rfl rfl

theorem gc (h : Placed m) : Placed (m.gcFinishedThreads v) := by
  have hfreed : ∀ t, (RunQueues.gc (fun t => m.state t = .finished ∧ some t ≠ m.current v) m.brk m.q).1.contains t = true ↔
      t ∈ m.q.glob ∧ m.state t = .finished ∧ some t ≠ m.current v := by
    intro t
    simp [RunQueues.gc]
  apply h.moved [] none
  · exact Moved.refl h.apart none
  · exact fun t _ _ => rfl
  · simp
  · simp
  · intro t _ hs
    have hnc : (RunQueues.gc (fun t => m.state t = .finished ∧ some t ≠ m.current v) m.brk m.q).1.contains t = false := by
      rw [Bool.eq_false_iff, ne_eq, hfreed]
      exact fun hx => hs hx.2.1
    unfold Mn.gcFinishedThreads
    dsimp only
    rw [hnc]
    simp
  · intro t _ ht
    simp only [Mn.gcFinishedThreads, Bool.and_eq_true] at ht
    exact ht.1
  · exact h.flight
  · exact h.glob.filter _
  · intro t
    simp only [Mn.gcFinishedThreads, Bool.and_eq_true, Bool.not_eq_true', Bool.eq_false_iff, ne_eq, hfreed]
    simp only [RunQueues.gc, List.mem_filter, Bool.not_eq_true', decide_eq_false_iff_not, h.listed t]
    tauto
  · intro t ht
    simp only [Mn.gcFinishedThreads, Bool.and_eq_true] at ht
    exact h.fresh ht.1

/-! ## Moves -/

structure SameThreads (m m' : Mn Lists) (v : VpId) : Prop where
  allocated : m'.allocated = m.allocated
  brk : m'.brk = m.brk
  glob : m'.q.glob = m.q.glob
  others : ∀ u, u ≠ v → m'.pc u = m.pc u ∧ m'.current u = m.current u
  unlisted : (m'.pc v).unlisted = (m.pc v).unlisted

/-- A step of `v` that moves threads and neither creates nor frees any. -/
theorem step_of {p : Place → List Ptr} {ts : List Ptr} {j : Option Place} (h : Placed m) (hm : Moved m.places p ts j)
    (hsame : SameThreads m m' v) (hp : m'.places = p) (hs : ∀ t, t ∉ ts → m'.state t = m.state t)
    (hj : ∀ i, j = some i → ∀ t ∈ ts, m'.state t = i.expect ∧ m.allocated t = true)
    (ho : j = none → ∀ t ∈ ts, m'.state t = .finished ∨ m'.state t = .ioBlocked)
    (hf : ∀ u, (m'.pc u).InFlight (m'.q.q (.flight u))) : Placed m' := by
  apply h.moved ts j
  · rw [hp]
    exact hm
  · exact fun t ht _ => hs t ht
  · rw [hsame.allocated]
    exact hj
  · exact ho
  · exact fun t _ _ => by rw [hsame.allocated]
  · intro t _ ht
    rwa [hsame.allocated] at ht
  · exact hf
  · rw [hsame.glob]
    exact h.glob
  · exact h.listed_of (fun u hu => (hsame.others u hu).1) hsame.unlisted hsame.glob hsame.allocated
  · rw [hsame.allocated, hsame.brk]
    exact fun t => h.fresh

theorem append {i : Queue} {k : Hand} (h : Placed m) (hsame : SameThreads m m' v) (hk : m.places (.hand k v) = [t])
    (hi : ∀ u, i ≠ .flight u) (hq : m'.q = m.q.push i t) (hs : m'.state = m.state) (hst : (Place.hand k v).expect = (Place.queue i).expect)
    (hh : ∀ j, (m'.pc v).hand (m'.current v) j = Function.update ((m.pc v).hand (m.current v)) k [] j)
    (hf : ∀ xs, (m.pc v).InFlight xs → (m'.pc v).InFlight xs) : Placed m' := by
  have hk' : m.places (.hand k v) = [t] ++ [] := hk
  have hmem : t ∈ m.places (.hand k v) := by simp [hk]
  apply h.step_of (Moved.shift h.apart (j := .queue i) (by simp) hk') hsame
  · apply places_eq (m := m) (v := v) hsame.others
    · intro u j hne
      simp [hne]
    · intro j
      rw [hq]
      by_cases hj : j = i
      · subst hj
        simp [Lists.push, Mn.places]
      · simp [Lists.push, hj, Mn.places]
    · intro j
      rw [hh j]
      by_cases hj : j = k
      · subst hj
        simp
      · simp [hj, Mn.places]
  · intro u _
    rw [hs]
  · intro j hj u hu
    cases hj
    rw [List.mem_singleton] at hu
    subst hu
    rw [hs, h.state hmem]
    exact ⟨hst, h.alive hmem⟩
  · simp
  · apply h.flight_of fun u hu => (hsame.others u hu).1
    · intro u
      rw [hq]
      simp [Lists.push, (hi u).symm]
    · exact hf

theorem regrip {k k' : Hand} (h : Placed m) (hsame : SameThreads m m' v) (hk : m.places (.hand k v) = [t])
    (hk' : m.places (.hand k' v) = []) (hne : k' ≠ k) (hq : m'.q = m.q)
    (hs : m'.state = Function.update m.state t (Place.hand k' v).expect)
    (hh : ∀ j, (m'.pc v).hand (m'.current v) j = Function.update (Function.update ((m.pc v).hand (m.current v)) k []) k' [t] j)
    (hf : ∀ xs, (m.pc v).InFlight xs → (m'.pc v).InFlight xs) : Placed m' := by
  have hcons : m.places (.hand k v) = [t] ++ [] := hk
  have hmem : t ∈ m.places (.hand k v) := by simp [hk]
  apply h.step_of (Moved.shift h.apart (j := .hand k' v) (by simpa using hne) hcons) hsame
  · apply places_eq (m := m) (v := v) hsame.others
    · intro u j hu
      simp [hu]
    · intro j
      rw [hq]
      simp [Mn.places]
    · intro j
      rw [hh j]
      by_cases hj' : j = k'
      · subst hj'
        simp [hk']
      · by_cases hj : j = k
        · subst hj
          simp [hj']
        · simp [hj, hj', Mn.places]
  · intro u hu
    rw [List.mem_singleton] at hu
    simp [hs, hu]
  · intro j hj u hu
    cases hj
    rw [List.mem_singleton] at hu
    subst hu
    simp [hs, h.alive hmem]
  · simp
  · apply h.flight_of fun u hu => (hsame.others u hu).1
    · simp [hq]
    · exact hf

theorem quit {k : Hand} {st : TState} (h : Placed m) (hsame : SameThreads m m' v) (hk : m.places (.hand k v) = [t])
    (hst : st = .finished ∨ st = .ioBlocked) (hq : m'.q = m.q) (hs : m'.state = Function.update m.state t st)
    (hh : ∀ j, (m'.pc v).hand (m'.current v) j = Function.update ((m.pc v).hand (m.current v)) k [] j)
    (hf : ∀ xs, (m.pc v).InFlight xs → (m'.pc v).InFlight xs) : Placed m' := by
  have hcons : m.places (.hand k v) = [t] ++ [] := hk
  apply h.step_of (Moved.out h.apart hcons) hsame
  · apply places_eq (m := m) (v := v) hsame.others
    · intro u j hu
      simp [hu]
    · intro j
      rw [hq]
      simp [Mn.places]
    · intro j
      rw [hh j]
      by_cases hj : j = k
      · subst hj
        simp
      · simp [hj, Mn.places]
  · intro u hu
    rw [List.mem_singleton] at hu
    simp [hs, hu]
  · simp
  · intro _ u hu
    rw [List.mem_singleton] at hu
    subst hu
    simpa [hs] using hst
  · apply h.flight_of fun u hu => (hsame.others u hu).1
    · simp [hq]
    · exact hf

theorem take {i : Queue} {k : Hand} {ts : List Ptr} (h : Placed m) (hsame : SameThreads m m' v) (hi : m.q.q i = t :: ts)
    (hk : m.places (.hand k v) = []) (hfl : ∀ u, i ≠ .flight u) (hq : m'.q = m.q.set i ts) (hs : m'.state = m.state)
    (hst : (Place.queue i).expect = (Place.hand k v).expect)
    (hh : ∀ j, (m'.pc v).hand (m'.current v) j = Function.update ((m.pc v).hand (m.current v)) k [t] j)
    (hf : ∀ xs, (m.pc v).InFlight xs → (m'.pc v).InFlight xs) : Placed m' := by
  have hcons : m.places (.queue i) = [t] ++ ts := hi
  have hmem : t ∈ m.places (.queue i) := by simp [hcons]
  apply h.step_of (Moved.shift h.apart (j := .hand k v) (by simp) hcons) hsame
  · apply places_eq (m := m) (v := v) hsame.others
    · intro u j hu
      simp [hu]
    · intro j
      rw [hq]
      by_cases hj : j = i
      · subst hj
        simp
      · simp [hj, Mn.places]
    · intro j
      rw [hh j]
      by_cases hj : j = k
      · subst hj
        simp [hk]
      · simp [hj, Mn.places]
  · intro u _
    rw [hs]
  · intro j hj u hu
    cases hj
    rw [List.mem_singleton] at hu
    subst hu
    rw [hs, h.state hmem]
    exact ⟨hst, h.alive hmem⟩
  · simp
  · apply h.flight_of fun u hu => (hsame.others u hu).1
    · intro u
      rw [hq]
      simp [(hfl u).symm]
    · exact hf

theorem sleepPush (h : Placed m) (hpc : m.pc v = .sleepPush) (hc : m.current v = some t) :
    Placed ((m.mapQ fun q => q.set (.shared .sleep) (t :: q.q (.shared .sleep))).goto v .yieldTest) := by
  have hh : m.places (.hand .dozing v) = [t] ++ [] := by simp [Mn.places, Pc.hand, Pc.own, hpc, hc]
  have hmem : t ∈ m.places (.hand .dozing v) := by simp [hh]
  have ho := Moved.out h.apart hh
  have hni : ∀ k, ∀ u ∈ [t], u ∉ Function.update m.places (.hand .dozing v) [] k := by
    intro k u hu hm
    rw [ho.mem] at hm
    simp [hu] at hm
  have hts : t ∉ m.q.q (.shared .sleep) := by
    have := hni (.queue (.shared .sleep)) t (by simp)
    simpa [Mn.places] using this
  apply h.step_of (v := v)
    (ho.trans (Moved.into (j := .queue (.shared .sleep)) (t :: m.q.q (.shared .sleep)) (ho.apart h.apart) hni ?_ ?_))
  · constructor
    · rfl
    · rfl
    · rfl
    · intro u hu
      simp [hu]
    · simp [hpc, Pc.unlisted]
  · apply places_eq (m := m) (v := v)
    · intro u hu
      simp [hu]
    · intro u j hu
      simp [hu]
    · intro i
      by_cases hi : i = .shared .sleep
      · subst hi
        simp
      · simp [hi, Mn.places]
    · intro j
      cases j <;> simp [Mn.places, hpc, Pc.hand, Pc.own, Pc.pend, Pc.popped, Pc.taken]
  · exact fun u _ => rfl
  · intro i hi u hu
    cases hi
    rw [List.mem_singleton] at hu
    subst hu
    exact ⟨(h.state (i := .hand .dozing v) hmem).trans rfl, h.alive hmem⟩
  · simp
  · apply h.flight_of (v := v)
    · intro u hu
      simp [hu]
    · simp
    · simp [hpc, Pc.InFlight]
  · exact List.nodup_cons.mpr ⟨hts, h.apart.nodup (.queue (.shared .sleep))⟩
  · intro u
    simp [Mn.places, or_comm]

/-! ## Stealing -/

theorem steal {start i : Nat} {victim : VpId} {x : Ptr} {xs ys : List Ptr} (h : Placed m) (hpc : m.pc v = .probe start i)
    (hq : m.q.q (.loc victim) = xs ++ ys) (hx : xs.head? = some x) :
    Placed ((m.mapQ fun q => (q.set (.loc victim) ys).set (.flight v) xs).goto v (.attach x xs.getLast? xs.length)) := by
  have hfl : m.places (.queue (.flight v)) = [] := by
    have := h.flight v
    rw [hpc] at this
    exact this
  have hq' : m.places (.queue (.loc victim)) = xs ++ ys := hq
  apply h.step_of (v := v) (Moved.shift h.apart (j := .queue (.flight v)) (by simp) hq')
  · constructor
    · rfl
    · rfl
    · rfl
    · intro u hu
      simp [hu]
    · simp [hpc, Pc.unlisted]
  · apply places_eq (m := m) (v := v)
    · intro u hu
      simp [hu]
    · intro u k hu
      simp
    · intro j
      by_cases hj : j = .flight v
      · subst hj
        simp [hfl]
      · by_cases hj' : j = .loc victim
        · subst hj'
          simp
        · simp [hj, hj', Mn.places]
    · intro k
      cases k <;> simp [Mn.places, hpc, Pc.hand, Pc.own, Pc.pend, Pc.popped, Pc.taken]
  · exact fun u _ => rfl
  · intro j hj u hu
    cases hj
    have hmem : u ∈ m.places (.queue (.loc victim)) := by simp [hq', hu]
    exact ⟨(h.state hmem).trans rfl, h.alive hmem⟩
  · simp
  · intro u
    by_cases hu : u = v
    · subst hu
      simp [Pc.InFlight, hx]
    · simpa [hu] using h.flight u

theorem attach {x : Ptr} {tl : Option Ptr} {n : Int} (h : Placed m) (hpc : m.pc v = .attach x tl n) :
    Placed ((m.mapQ fun q => (q.set (.flight v) []).set (.loc v) (q.q (.loc v) ++ q.q (.flight v))).goto v
      (.stealTrace x)) := by
  have hq : m.places (.queue (.flight v)) = m.q.q (.flight v) ++ [] := by simp [Mn.places]
  apply h.step_of (v := v) (Moved.shift h.apart (j := .queue (.loc v)) (by simp) hq)
  · constructor
    · rfl
    · rfl
    · rfl
    · intro u hu
      simp [hu]
    · simp [hpc, Pc.unlisted]
  · apply places_eq (m := m) (v := v)
    · intro u hu
      simp [hu]
    · intro u k hu
      simp
    · intro j
      by_cases hj : j = .loc v
      · subst hj
        simp [Mn.places]
      · by_cases hj' : j = .flight v
        · subst hj'
          simp
        · simp [hj, hj', Mn.places]
    · intro k
      cases k <;> simp [Mn.places, hpc, Pc.hand, Pc.own, Pc.pend, Pc.popped, Pc.taken]
  · exact fun u _ => rfl
  · intro j hj u hu
    cases hj
    have hmem : u ∈ m.places (.queue (.flight v)) := hu
    exact ⟨(h.state hmem).trans rfl, h.alive hmem⟩
  · simp
  · intro u
    by_cases hu : u = v
    · subst hu
      simp [Pc.InFlight]
    · simpa [hu] using h.flight u

/-! ## Creation -/

theorem createTcb (h : Placed m) (hpc : m.pc v = .createTcb) (ha : m.allocated t = false) :
    Placed ((m.on (.allocTcb t true)).goto v (.createAdd t)) := by
  have hno : ∀ k, ∀ u ∈ [t], u ∉ m.places k := by
    intro k u hu hm
    rw [List.mem_singleton] at hu
    subst hu
    simpa [ha] using h.alive hm
  have hp : m.places (.hand .pend v) = [] := by simp [Mn.places, hpc, Pc.hand, Pc.pend]
  have hu' : ∀ u, u ≠ v → ((m.on (.allocTcb t true)).goto v (.createAdd t)).pc u = m.pc u := by
    intro u hu
    simp [hu, MnCore.allocTcb]
  apply h.moved [t] (some (.hand .pend v))
  · have hm := Moved.into (j := .hand .pend v) [t] h.apart hno (by simp) (by simp [hp])
    convert hm using 1
    apply places_eq (m := m) (v := v)
    · exact fun u hu => ⟨hu' u hu, rfl⟩
    · intro u k hu
      simp [hu]
    · intro i
      simp [Mn.places]
    · intro k
      cases k <;> simp [Mn.places, hpc, Pc.hand, Pc.own, Pc.pend, Pc.popped, Pc.taken, MnCore.allocTcb]
  · intro u hu _
    rw [List.mem_singleton] at hu
    simp [MnCore.allocTcb, hu]
  · intro i hi u hu
    cases hi
    rw [List.mem_singleton] at hu
    subst hu
    simp [MnCore.allocTcb, Place.expect]
  · simp
  · intro u hu _
    rw [List.mem_singleton] at hu
    simp [MnCore.allocTcb, hu]
  · intro u hu hal
    rw [List.mem_singleton] at hu
    simpa [MnCore.allocTcb, hu] using hal
  · apply h.flight_of (v := v) hu'
    · exact fun _ => rfl
    · simp [hpc, Pc.InFlight]
  · exact h.glob
  · intro u
    have hall : (∀ w, u ∉ (((m.on (.allocTcb t true)).goto v (.createAdd t)).pc w).unlisted) ↔
        u ≠ t ∧ ∀ w, u ∉ (m.pc w).unlisted := by
      constructor
      · intro hx
        refine ⟨by simpa [Pc.unlisted] using hx v, fun w => ?_⟩
        by_cases hw : w = v
        · simp [hw, hpc, Pc.unlisted]
        · rw [← hu' w hw]
          exact hx w
      · intro hx w
        by_cases hw : w = v
        · simpa [hw, Pc.unlisted] using hx.1
        · rw [hu' w hw]
          exact hx.2 w
    rw [hall]
    by_cases hu : u = t
    · subst hu
      simp [h.listed, ha]
    · simp [h.listed, MnCore.allocTcb, hu]
  · intro u hal
    by_cases hu : u = t
    · subst hu
      simp [MnCore.allocTcb]
    · have hal' : m.allocated u = true := by simpa [MnCore.allocTcb, hu] using hal
      exact Nat.lt_of_lt_of_le (h.fresh hal') (Nat.le_max_left _ _)

theorem createFail (h : Placed m) (ha : m.allocated t = false) : Placed (m.on (.allocTcb t false)) := by
  have hal' : (m.on (.allocTcb t false)).allocated = m.allocated := by
    simp [MnCore.allocTcb, ← ha]
  apply h.moved [] none
  · exact Moved.refl h.apart none
  · intro u _ hal
    have hu : u ≠ t := by
      intro e
      rw [e, ha] at hal
      cases hal
    simp [MnCore.allocTcb, hu]
  · simp
  · simp
  · intro u _ _
    rw [hal']
  · intro u _ hal
    rwa [hal'] at hal
  · exact h.flight
  · exact h.glob
  · intro u
    rw [hal']
    exact h.listed u
  · intro u hal
    rw [hal'] at hal
    exact Nat.lt_of_lt_of_le (h.fresh hal) (Nat.le_max_left _ _)

theorem createAdd (h : Placed m) (hpc : m.pc v = .createAdd t) :
    Placed ((m.mapQ (RunQueues.globalListAdd t)).goto v (.createEnq t)) := by
  have hmem : t ∈ m.places (.hand .pend v) := Mn.mem_pend (by simp [hpc, Pc.pend])
  have hout : t ∉ m.q.glob := by
    rw [h.listed]
    exact fun hx => hx.2 v (by simp [hpc, Pc.unlisted])
  have hu' : ∀ u, u ≠ v → ((m.mapQ (RunQueues.globalListAdd t)).goto v (.createEnq t)).pc u = m.pc u := by
    intro u hu
    simp [hu]
  have hpl : ((m.mapQ (RunQueues.globalListAdd t)).goto v (.createEnq t)).places = m.places := by
    apply places_eq (m := m) (v := v)
    · exact fun u hu => ⟨hu' u hu, rfl⟩
    · exact fun u k _ => rfl
    · exact fun i => rfl
    · intro k
      cases k <;> simp [Mn.places, hpc, Pc.hand, Pc.own, Pc.pend, Pc.popped, Pc.taken]
  apply h.moved [] none
  · rw [hpl]
    exact Moved.refl h.apart none
  · exact fun u _ _ => rfl
  · simp
  · simp
  · exact fun u _ _ => rfl
  · exact fun u _ hal => hal
  · apply h.flight_of (v := v) hu'
    · exact fun _ => rfl
    · simp [hpc, Pc.InFlight]
  · exact List.nodup_cons.mpr ⟨hout, h.glob⟩
  · intro u
    -- a block is on its way to the global list in one place only
    have hall : (∀ w, u ∉ (((m.mapQ (RunQueues.globalListAdd t)).goto v (.createEnq t)).pc w).unlisted) ↔
        u = t ∨ ∀ w, u ∉ (m.pc w).unlisted := by
      constructor
      · intro hx
        by_cases hu : u = t
        · exact .inl hu
        · refine .inr fun w => ?_
          by_cases hw : w = v
          · simpa [hw, hpc, Pc.unlisted] using hu
          · rw [← hu' w hw]
            exact hx w
      · intro hx w
        by_cases hw : w = v
        · simp [hw, Pc.unlisted]
        · rw [hu' w hw]
          rcases hx with hx | hx
          · subst hx
            intro hm
            have hm' : u ∈ m.places (.hand .pend w) := by
              apply Mn.mem_pend
              cases hpw : m.pc w <;> rw [hpw] at hm <;> first | exact hm | cases hm
            have := h.apart.disj hm' hmem
            simp at this
            exact hw this
          · exact hx w
    rw [hall]
    have hal : ((m.mapQ (RunQueues.globalListAdd t)).goto v (.createEnq t)).allocated = m.allocated := rfl
    have hg : ((m.mapQ (RunQueues.globalListAdd t)).goto v (.createEnq t)).q.glob = t :: m.q.glob := rfl
    rw [hal, hg, List.mem_cons, h.listed]
    by_cases hu : u = t
    · subst hu
      simp [h.alive hmem]
    · simp [hu]
  · exact fun u => h.fresh

end Placed

end Uthread
