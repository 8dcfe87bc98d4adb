import Uthread.Mn.LocalRep

/-!
# `try_steal` by itself

Executed without interleaving, `try_steal` takes the first half of the queue of
the first virtual processor in cyclic order that holds two threads.
-/

namespace Uthread

open Linked

def Pc.steals : Pc → Bool
  | .probe _ _ | .attach _ _ _ | .stealTrace _ | .stealDeq => true
  | _ => false

namespace Mn

def finishSteal (a : MnAct) : Nat → Mn MnLinks → Option (Mn MnLinks)
  | 0, s => some s
  | n + 1, s => if (s.pc a.vp).steals then (s.step a).bind (finishSteal a n) else some s

/-- `try_steal(vp)` of the virtual processor `a.vp`, whose first clock reading is `now`. -/
def trySteal (now : Nat) (a : MnAct) (s : Mn MnLinks) : Option (Mn MnLinks) :=
  (s.goto a.vp (if s.numVps ≤ 1 then .alive else .probe (stealStart s.numVps a.vp now) 0)).finishSteal a (s.numVps + 4)

end Mn

/-- The other virtual processors in the order in which `try_steal` looks at them. -/
def victims (numVps : Nat) (thief : VpId) (start : Nat) : List VpId :=
  ((List.range numVps).map fun i => (start + i) % numVps).filter (· ≠ thief)

variable {s s' : Mn MnLinks} {m : Lists} {a : MnAct} {k : Links} {l l' : MnLinks} {v u victim thief : VpId} {t : Ptr}
  {q : VpId → List Ptr} {rest : List Ptr} {n i start : Nat}

/-- From `l` to `l'` the first half of the queue of `victim` went to `thief`, who took `t` out of it. -/
structure Stolen (l l' : MnLinks) (thief victim : VpId) (q : VpId → List Ptr) (t : Ptr) (rest : List Ptr) : Prop where
  half : (q victim).take ((q victim).length / 2) = t :: rest
  kept : LocalRep l' victim ((q victim).drop ((q victim).length / 2))
  tail : l'.localTail victim = l.localTail victim
  gained : LocalRep l' thief rest
  vpId : ∀ x, l'.vpId x = if x ∈ t :: rest then thief else l.vpId x
  others : ∀ u, u ≠ thief → u ≠ victim → LocalRep l' u (q u) ∧ l'.localHead u = l.localHead u ∧
    l'.localTail u = l.localTail u ∧ l'.localCount u = l.localCount u

theorem take_half {xs : List Ptr} (h : 2 ≤ xs.length) : ∃ t rest, xs.take (xs.length / 2) = t :: rest := by
  apply List.exists_cons_of_ne_nil
  simp only [ne_eq, List.take_eq_nil_iff, not_or]
  exact ⟨by omega, fun hx => by simp [hx] at h⟩

/-! ## The sections on lists -/

theorem Lists.attach_apart (t : Ptr) (tl : Option Ptr) (c : Int) (ha : Apart m.q) (hv : m.q (.loc thief) = []) :
    Apart (RunQueues.attach thief t tl c m : Lists).q := by
  have h₁ : Apart (m.set (.flight thief) []).q := ha.shrink (List.nil_sublist _)
  apply h₁.set
  · rw [hv]
    exact ha.nodup _
  · intro j _ x hx
    rw [hv, List.nil_append] at hx
    exact ha.notMem_shrink (List.append_nil _).symm hx j

theorem MnLinks.vpDequeue_vpId : (l.vpDequeue v).2.vpId = l.vpId := by
  cases h : l.localHead v with
  | none =>
    unfold vpDequeue
    simp [h]
  | some x => rw [vpDequeue_eq h]

theorem QRep.steal_half (h : QRep l m) (ha : Apart m.q) (hfl : m.q (.flight thief) = [])
    (hloc : m.q (.loc thief) = []) (hne : victim ≠ thief) (hlen : 2 ≤ (m.q (.loc victim)).length) :
    let c := (m.q (.loc victim)).length / 2
    let r := l.steal thief victim c
    ∃ t rest, r.1.stolenHead = some t ∧
      ((r.2.attach thief t r.1.stolenTail c).vpDequeue thief).1 = some t ∧
      Stolen l ((r.2.attach thief t r.1.stolenTail c).vpDequeue thief).2 thief victim (fun u => m.q (.loc u)) t rest := by
  intro c r
  have hc : c ≤ (m.q (.loc victim)).length := Nat.div_le_self _ _
  obtain ⟨t, rest, ht⟩ := take_half hlen
  obtain ⟨h₁, h₂⟩ := h.steal thief ha hfl hc
  have hids := h.steal_vpId thief ha hfl hc
  have ht' : (m.q (.loc victim)).take c = t :: rest := ht
  have ha₂ := Lists.theft_apart thief ha (List.take_append_drop c (m.q (.loc victim))).symm
  have hlen' : (t :: rest).length = c := by rw [← ht', List.length_take, Nat.min_eq_left hc]
  have hr : r.1 = ⟨c, some t, (t :: rest).getLast?⟩ := by
    refine h₁.trans ?_
    dsimp only [RunQueues.steal]
    rw [ht', hlen']
    rfl
  -- after the victim section
  have h₂ : QRep r.2 (m.theft thief victim (t :: rest) ((m.q (.loc victim)).drop c)) := by
    rw [← ht']
    exact h₂
  rw [ht'] at ha₂ hids
  generalize hm₂ : m.theft thief victim (t :: rest) ((m.q (.loc victim)).drop c) = m₂ at h₂ ha₂
  have hfl₂ : m₂.q (.flight thief) = t :: rest := by simp [← hm₂, Lists.theft]
  have hloc₂ : m₂.q (.loc thief) = [] := by simp [← hm₂, Lists.theft, hne.symm, hloc]
  have hvic₂ : m₂.q (.loc victim) = (m.q (.loc victim)).drop c := by simp [← hm₂, Lists.theft]
  have hoth₂ : ∀ u, u ≠ victim → m₂.q (.loc u) = m.q (.loc u) := by
    intro u hu
    simp [← hm₂, Lists.theft, hu]
  -- after the thief section
  have h₃ : QRep (r.2.attach thief t r.1.stolenTail c) (RunQueues.attach thief t r.1.stolenTail c m₂) := by
    apply h₂.attach ha₂
    · rw [hfl₂, List.head?_cons]
    · rw [hfl₂, hr]
    · rw [hfl₂, hlen']
  have ha₃ := Lists.attach_apart t r.1.stolenTail c ha₂ hloc₂
  generalize hm₃ : (RunQueues.attach thief t r.1.stolenTail c m₂ : Lists) = m₃ at h₃ ha₃
  have hloc₃ : m₃.q (.loc thief) = t :: rest := by simp [← hm₃, RunQueues.attach, hloc₂, hfl₂]
  have hoth₃ : ∀ u, u ≠ thief → m₃.q (.loc u) = m₂.q (.loc u) := by
    intro u hu
    simp [← hm₃, RunQueues.attach, hu]
  -- after the dequeue
  obtain ⟨h₄, h₅⟩ := h₃.vpDequeue (v := thief) ha₃
  generalize hm₄ : (m₃.pop (.loc thief)).2 = m₄ at h₅
  have hloc₄ : m₄.q (.loc thief) = rest := by simp [← hm₄, Lists.pop, hloc₃]
  have hoth₄ : ∀ u, u ≠ thief → m₄.q (.loc u) = m₃.q (.loc u) := by
    intro u hu
    simp [← hm₄, Lists.pop, hu]
  have hvic₄ : m₄.q (.loc victim) = (m.q (.loc victim)).drop c := by rw [hoth₄ _ hne, hoth₃ _ hne, hvic₂]
  refine ⟨t, rest, by rw [hr], ?_, ?_⟩
  · rw [h₄]
    simp [Lists.pop, hloc₃]
  · constructor
    · exact ht
    · rw [← hvic₄]
      exact h₅.localRep victim
    · rw [h₅.localTail victim, hvic₄, getLast?_drop (by omega), h.localTail victim]
    · rw [← hloc₄]
      exact h₅.localRep thief
    · intro x
      rw [MnLinks.vpDequeue_vpId, MnLinks.attach_eq]
      exact congrFun hids x
    · intro u hu hu'
      have hq : m₄.q (.loc u) = m.q (.loc u) := by rw [hoth₄ u hu, hoth₃ u hu, hoth₂ u hu']
      have hl := h₅.localRep u
      rw [hq] at hl
      refine ⟨hl, ?_, ?_, ?_⟩
      · rw [chain_head hl.chain, chain_head (h.loc u)]
      · rw [hl.tail, h.localTail u]
      · rw [hl.count, h.localCount u]

/-! ## The other lists

`try_steal` neither reads nor changes the ready queue, the wait queues, the sleep
list and the global list, so that nothing has to be known about these.
-/

def MnLinks.graft (k : Links) (l : MnLinks) : MnLinks := { l with toLinks := { k with next := l.next } }

namespace MnLinks

theorem graft_stealLoop {r : Theft} : (l.graft k).stealLoop thief victim n r =
    ((l.stealLoop thief victim n r).1, (l.stealLoop thief victim n r).2.graft k) := by
  induction n generalizing l r with
  | zero => rfl
  | succ n ih =>
    have hh : (l.graft k).localHead victim = l.localHead victim := rfl
    cases h : l.localHead victim with
    | none =>
      simp only [stealLoop, hh, h]
    | some t =>
      rw [stealLoop_succ (hh.trans h), stealLoop_succ h, ← ih]
      rfl

theorem graft_steal : (l.graft k).steal thief victim n =
    ((l.steal thief victim n).1, (l.steal thief victim n).2.graft k) := by
  unfold steal
  rw [graft_stealLoop]
  dsimp only
  split
  · rw [if_pos ‹_›]
    rfl
  · rw [if_neg ‹_›]

theorem graft_attach {tl : Option Ptr} {c : Int} :
    (l.graft k).attach thief t tl c = (l.attach thief t tl c).graft k := by
  rw [attach_eq, attach_eq]
  rfl

theorem graft_vpDequeue : (l.graft k).vpDequeue v = ((l.vpDequeue v).1, (l.vpDequeue v).2.graft k) := by
  have hh : (l.graft k).localHead v = l.localHead v := rfl
  cases h : l.localHead v with
  | none => simp only [vpDequeue, hh, h]
  | some x =>
    rw [vpDequeue_eq (hh.trans h), vpDequeue_eq h]
    rfl

end MnLinks

def Links.blank : Links where
  next := fun _ => none
  readyHead := none
  readyTail := none
  readyCount := 0
  waitHead := fun _ => none
  waitTail := fun _ => none
  sleepListHead := none
  globalThreadList := none
  globalNext := fun _ => none
  globalPrev := fun _ => none

def Lists.locals (q : VpId → List Ptr) : Lists where
  q
    | .loc v => q v
    | _ => []
  glob := []

theorem graft_rep (h : ∀ u, LocalRep l u (q u)) : QRep (l.graft .blank) (.locals q) where
  shared := {
    chain := fun i => by cases i <;> rfl
    tail := fun i _ => by cases i <;> rfl
    count := rfl
    glob := ⟨rfl, trivial⟩ }
  loc u := (h u).chain
  localTail u := (h u).tail
  localCount u := (h u).count
  flight _ := rfl

theorem Lists.locals_apart (h : Apart q) : Apart (Lists.locals q).q where
  nodup
    | .loc v => h.nodup v
    | .shared _ => List.nodup_nil
    | .flight _ => List.nodup_nil
  disj := by
    intro i j x hi hj
    cases i with
    | loc u =>
      cases j with
      | loc v => rw [h.disj hi hj]
      | shared => cases hj
      | flight => cases hj
    | shared => cases hi
    | flight => cases hi

theorem steal_half (h : ∀ u, LocalRep l u (q u)) (ha : Apart q) (hq : q thief = []) (hne : victim ≠ thief)
    (hlen : 2 ≤ (q victim).length) :
    let c := (q victim).length / 2
    let r := l.steal thief victim c
    ∃ t rest, r.1.stolenHead = some t ∧
      ((r.2.attach thief t r.1.stolenTail c).vpDequeue thief).1 = some t ∧
      Stolen l ((r.2.attach thief t r.1.stolenTail c).vpDequeue thief).2 thief victim q t rest := by
  intro c r
  obtain ⟨t, rest, h₁, h₂, h₃⟩ := (graft_rep h).steal_half (Lists.locals_apart ha) rfl hq hne hlen
  rw [MnLinks.graft_steal] at h₁
  rw [MnLinks.graft_steal, MnLinks.graft_attach, MnLinks.graft_vpDequeue] at h₂ h₃
  refine ⟨t, rest, h₁, h₂, ?_⟩
  -- the two sides differ in lists that `Stolen` does not mention
  constructor
  · exact h₃.half
  · exact ⟨h₃.kept.chain, h₃.kept.tail, h₃.kept.count⟩
  · exact h₃.tail
  · exact ⟨h₃.gained.chain, h₃.gained.tail, h₃.gained.count⟩
  · exact h₃.vpId
  · intro u hu hu'
    obtain ⟨hr, hs⟩ := h₃.others u hu hu'
    exact ⟨⟨hr.chain, hr.tail, hr.count⟩, hs⟩

/-! ## The search -/

namespace Mn

theorem goto_goto {pc pc' : Pc} : (s.goto v pc).goto v pc' = s.goto v pc' := by
  simp [goto, on, MnCore.goto]

theorem goto_pc {pc : Pc} : (s.goto v pc).pc v = pc := Function.update_self _ _ _

theorem finishSteal_succ (hp : (s.pc a.vp).steals) (hs : s.step a = some s') :
    s.finishSteal a (n + 1) = s'.finishSteal a n := by
  simp [finishSteal, hp, hs]

theorem finishSteal_done (hp : (s.pc a.vp).steals = false) : s.finishSteal a n = some s := by
  cases n <;> simp [finishSteal, hp]

theorem finishSteal_attach {tl : Option Ptr} {c : Int} (hd : ((s.q.attach a.vp t tl c).vpDequeue a.vp).1 = some t) :
    (s.goto a.vp (.attach t tl c)).finishSteal a (n + 3) =
      some ({ s.on (.emit t .steal a.vp a.now) with q := ((s.q.attach a.vp t tl c).vpDequeue a.vp).2 }.goto a.vp
        (.dispatch t)) := by
  let s₁ := s.mapQ (RunQueues.attach a.vp t tl c)
  let s₂ := s₁.on (.emit t .steal a.vp a.now)
  have h₁ : (s.goto a.vp (.attach t tl c)).step a = some (s₁.goto a.vp (.stealTrace t)) := by
    simp only [step, goto_pc]
    exact congrArg some (goto_goto (s := s₁))
  have h₂ : (s₁.goto a.vp (.stealTrace t)).step a = some (s₂.goto a.vp .stealDeq) := by
    simp only [step, goto_pc]
    exact congrArg some (goto_goto (s := s₂))
  have h₃ : (s₂.goto a.vp .stealDeq).step a =
      some ({ s.on (.emit t .steal a.vp a.now) with q := ((s.q.attach a.vp t tl c).vpDequeue a.vp).2 }.goto a.vp
        (.dispatch t)) := by
    have hd' : (RunQueues.vpDequeue a.vp (s₂.goto a.vp .stealDeq).q).1 = some t := hd
    simp only [step, goto_pc, took]
    rw [hd']
    exact congrArg some (goto_goto (s := { s₂ with q := ((s.q.attach a.vp t tl c).vpDequeue a.vp).2 }))
  rw [finishSteal_succ (by rw [goto_pc]; rfl) h₁, finishSteal_succ (by rw [goto_pc]; rfl) h₂,
    finishSteal_succ (by rw [goto_pc]; rfl) h₃, finishSteal_done (by rw [goto_pc]; rfl)]

theorem step_probe_skip (hi : i < s.numVps)
    (hu : (start + i) % s.numVps = a.vp ∨ RunQueues.localCount s.q ((start + i) % s.numVps) ≤ 1) :
    (s.goto a.vp (.probe start i)).step a = some (s.goto a.vp (.probe start (i + 1))) := by
  have hp : (s.goto a.vp (.probe start i)).step a = some ((s.goto a.vp (.probe start i)).probe a.vp start i) := by
    simp only [step, goto_pc]
  rw [hp]
  unfold probe
  by_cases hv : (start + i) % s.numVps = a.vp
  · simp [goto, on, MnCore.goto, hi, hv]
  · simp [goto, on, MnCore.goto, hi, hv, hu.resolve_left hv]

theorem step_probe_end (hi : s.numVps ≤ i) : (s.goto a.vp (.probe start i)).step a = some (s.goto a.vp .alive) := by
  simp [step, probe, goto, on, MnCore.goto, hi]

theorem step_probe_take (hi : i < s.numVps) (hv : (start + i) % s.numVps ≠ a.vp) {c : Nat}
    (hc : RunQueues.localCount s.q ((start + i) % s.numVps) = c) (hlen : 2 ≤ c)
    (ht : (s.q.steal a.vp ((start + i) % s.numVps) (c / 2)).1.stolenHead = some t) :
    (s.goto a.vp (.probe start i)).step a =
      some ({ s with q := (s.q.steal a.vp ((start + i) % s.numVps) (c / 2)).2 }.goto a.vp
        (.attach t (s.q.steal a.vp ((start + i) % s.numVps) (c / 2)).1.stolenTail (c / 2 : Nat))) := by
  have hp : (s.goto a.vp (.probe start i)).step a = some ((s.goto a.vp (.probe start i)).probe a.vp start i) := by
    simp only [step, goto_pc]
  have hc' : ¬ (c : Int) ≤ 1 := by omega
  have hn : ((c : Int) / 2).toNat = c / 2 := by omega
  have ht' : (RunQueues.steal a.vp ((start + i) % s.numVps) (c / 2) s.q).1.stolenHead = some t := ht
  rw [hp]
  unfold probe
  simp only [goto, on, MnCore.goto, hi, hv, hc, hc', hn, ht', if_true, if_false, Function.update_idem]
  rfl

/-- The end of a `try_steal` that began in `s`, by its victim: the result is NULL or the thread at `dispatch`. -/
def Tried (a : MnAct) (q : VpId → List Ptr) (s s' : Mn MnLinks) : Option VpId → Prop
  | none => s' = s.goto a.vp .alive
  | some u => ∃ t rest l', Stolen s.q l' a.vp u q t rest ∧
    s' = { s.on (.emit t .steal a.vp a.now) with q := l' }.goto a.vp (.dispatch t)

theorem finishSteal_probe (h : ∀ u, LocalRep s.q u (q u)) (ha : Apart q) (hq : q a.vp = []) {d : Nat}
    (hi : i + d = s.numVps) : ∃ s', (s.goto a.vp (.probe start i)).finishSteal a (d + 4) = some s' ∧
      Tried a q s s'
        ((((List.range' i d).map fun j => (start + j) % s.numVps).filter (· ≠ a.vp)).find? fun u => 2 ≤ (q u).length) := by
  induction d generalizing i with
  | zero =>
    refine ⟨_, ?_, rfl⟩
    rw [finishSteal_succ (by rw [goto_pc]; rfl) (step_probe_end (by omega)), finishSteal_done (by rw [goto_pc]; rfl)]
  | succ d ih =>
    have hlt : i < s.numVps := by omega
    have hcount : RunQueues.localCount s.q ((start + i) % s.numVps) = (q ((start + i) % s.numVps)).length := (h _).count
    rw [List.range'_succ, List.map_cons]
    by_cases hv : (start + i) % s.numVps = a.vp
    · rw [finishSteal_succ (by rw [goto_pc]; rfl) (step_probe_skip hlt (.inl hv)), List.filter_cons_of_neg (by simp [hv])]
      exact ih (by omega)
    · rw [List.filter_cons_of_pos (by simp [hv])]
      by_cases hlen : 2 ≤ (q ((start + i) % s.numVps)).length
      · obtain ⟨t, rest, h₁, h₂, h₃⟩ := steal_half h ha hq hv hlen
        rw [List.find?_cons_of_pos (by simpa using hlen),
          finishSteal_succ (by rw [goto_pc]; rfl) (step_probe_take hlt hv hcount hlen h₁)]
        exact ⟨_, finishSteal_attach h₂, t, rest, _, h₃, rfl⟩
      · rw [List.find?_cons_of_neg (by simpa using hlen),
          finishSteal_succ (by rw [goto_pc]; rfl) (step_probe_skip hlt (.inr (by rw [hcount]; omega)))]
        exact ih (by omega)

end Mn

theorem victims_alone (hn : n ≤ 1) (hv : v < n) : victims n v start = [] := by
  obtain rfl : n = 1 := Nat.le_antisymm hn (Nat.one_le_of_lt hv)
  obtain rfl : v = 0 := Nat.lt_one_iff.mp hv
  simp [victims, Nat.mod_one]

/-- `try_steal`, executed alone from any contents of the local queues, takes half of the first queue of two. -/
theorem try_steal_takes_half (hv : a.vp < s.numVps) (h : ∀ u, LocalRep s.q u (q u)) (ha : Apart q) (hq : q a.vp = [])
    (now : Nat) : ∃ s', s.trySteal now a = some s' ∧
      Mn.Tried a q s s'
        ((victims s.numVps a.vp (stealStart s.numVps a.vp now)).find? fun u => 2 ≤ (q u).length) := by
  unfold Mn.trySteal
  by_cases hn : s.numVps ≤ 1
  · rw [if_pos hn, victims_alone hn hv]
    exact ⟨_, Mn.finishSteal_done (by rw [Mn.goto_pc]; rfl), rfl⟩
  · rw [if_neg hn, victims, List.range_eq_range']
    exact Mn.finishSteal_probe h ha hq (Nat.zero_add _)

def loadedVp : Mn MnLinks :=
  let s := initMn 3 (fun _ => 0) ⟨none, 0, false⟩
  { s with q := [5, 6, 7, 8, 9].foldl (fun l t => l.vpEnqueue 2 t) s.q }

/-- Virtual processor 1 looks past itself, takes the threads 5 and 6 and runs the first. -/
theorem try_steal_takes_half_of_five : ∃ s', loadedVp.trySteal 3 { vp := 1 } = some s' ∧
    Mn.Tried { vp := 1 } (fun u => if u = 2 then [5, 6, 7, 8, 9] else []) loadedVp s' (some 2) := by
  have h := try_steal_takes_half (s := loadedVp) (a := { vp := 1 }) (q := fun u => if u = 2 then [5, 6, 7, 8, 9] else [])
    (by decide) ?_ ?_ rfl 3
  · exact h
  · intro u
    by_cases hu : u = 2
    · subst hu
      exact ⟨⟨rfl, rfl, rfl, rfl, rfl, rfl⟩, rfl, rfl⟩
    · simp only [hu, if_false]
      constructor
      · simp [loadedVp, MnLinks.vpEnqueue_eq, hu, initMn]
      · simp [loadedVp, MnLinks.vpEnqueue_eq, hu, initMn]
      · simp [loadedVp, MnLinks.vpEnqueue_eq, hu, initMn]
  · constructor
    · intro u
      split <;> decide
    · intro u v x hx hy
      by_cases hu : u = 2
      · by_cases hv : v = 2
        · exact hu.trans hv.symm
        · simp [hv] at hy
      · simp [hu] at hx

end Uthread
