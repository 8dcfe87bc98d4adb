import Uthread.Mn.Sections
import Uthread.Mn.Conserve

/-!
# Spinlocks make the queue sections atomic

Programs create, yield and exit. Every thread whose links a section touches is
in a list of the section's lock or in the hands of its virtual processor, so
loads and stores of different sections never meet.
-/

namespace Uthread

open Locked Linked

/-! ## Steps without a section -/

namespace Links

def setReady (next : Ptr → Option Ptr) (head tail : Option Ptr) (count : Int) (l : Links) : Links :=
  { l with next := next, readyHead := head, readyTail := tail, readyCount := count }

variable {l : Links} {next : Ptr → Option Ptr} {head tail : Option Ptr} {count : Int} {t : Ptr}

theorem globalListAdd_setReady :
    (l.setReady next head tail count).globalListAdd t = (l.globalListAdd t).setReady next head tail count := by
  unfold globalListAdd
  dsimp only [setReady]
  split <;> rfl

theorem globalListRemove_setReady :
    (l.setReady next head tail count).globalListRemove t = (l.globalListRemove t).setReady next head tail count := by
  unfold globalListRemove
  dsimp only [setReady]
  cases hp : l.globalPrev t with
  | none =>
    dsimp only
    split <;> rfl
  | some prev =>
    dsimp only
    split <;> rfl

theorem gcLoop_setReady {dead : Ptr → Bool} {n : Nat} {h : Option Ptr} :
    (l.setReady next head tail count).gcLoop dead n h =
      ((l.gcLoop dead n h).1, (l.gcLoop dead n h).2.setReady next head tail count) := by
  induction n generalizing l h with
  | zero => rfl
  | succ n ih =>
    cases h with
    | none => rfl
    | some tcb =>
      have hn : (l.setReady next head tail count).globalNext tcb = l.globalNext tcb := rfl
      unfold gcLoop
      dsimp only
      rw [hn, globalListRemove_setReady, ih, ih]
      split <;> rfl

theorem hasLive_setReady {st : Ptr → TState} {n : Nat} {h : Option Ptr} :
    hasLive st (l.setReady next head tail count) n h = hasLive st l n h := by
  induction n generalizing h with
  | zero => rfl
  | succ n ih =>
    cases h with
    | none => rfl
    | some t =>
      unfold hasLive
      rw [ih]
      rfl

end Links

section
variable {s s' : Mn MnLinks} {a : MnAct} {μ : Mem Cell.Val} {v : VpId} {pc : Pc} {f : MnCore → MnCore}

abbrev Mn.setCells (μ : Mem Cell.Val) (s : Mn MnLinks) : Mn MnLinks := { s with q := s.q.setCells μ }

theorem gc_setCells : (s.setCells μ).gcFinishedThreads v = (s.gcFinishedThreads v).setCells μ := by
  have h : ∀ dead n, (s.q.setCells μ).gc dead n = ((s.q.gc dead n).1, (s.q.gc dead n).2.setCells μ) := by
    intro dead n
    unfold MnLinks.gc
    dsimp only [MnLinks.setCells]
    rw [show ({ s.q.toLinks with next := _, readyHead := _, readyTail := _, readyCount := _ } : Links) =
      s.q.toLinks.setReady _ _ _ _ from rfl, Links.gcLoop_setReady]
    rfl
  unfold Mn.gcFinishedThreads
  simp only [RunQueues.gc, Mn.setCells, h]

theorem globalListAdd_setCells {t : Ptr} :
    (s.setCells μ).mapQ (RunQueues.globalListAdd t) = (s.mapQ (RunQueues.globalListAdd t)).setCells μ := by
  simp only [Mn.mapQ, RunQueues.globalListAdd, MnLinks.on, Mn.setCells, MnLinks.setCells]
  rw [show ({ s.q.toLinks with next := _, readyHead := _, readyTail := _, readyCount := _ } : Links) =
    s.q.toLinks.setReady _ _ _ _ from rfl, Links.globalListAdd_setReady]
  rfl

theorem step_setCells (hok : Basic s.toMnCore a) (hw : (s.pc a.vp).waits = false) (h : s.sec a = none) :
    (s.setCells μ).step a = (s.step a).map (Mn.setCells μ) := by
  unfold Mn.sec at h
  unfold Mn.step
  dsimp only at h ⊢
  cases hpc : s.pc a.vp with
  | user =>
    dsimp only
    unfold Mn.call
    simp only [Basic, List.mem_cons, List.not_mem_nil, or_false] at hok
    rcases hok with hk | hk | hk | hk
    · simp only [hk]
      have hg := gc_setCells (s := s.on (.beginCall a.vp)) (μ := μ) (v := a.vp)
      simp only [Option.map_some, Option.some.injEq]
      exact congrArg (Mn.goto a.vp .createTcb) hg
    · cases hc : s.current a.vp with
      | none => simp [hk, hc, Mn.on, MnCore.beginCall]
      | some t =>
        simp only [hk, Mn.on, MnCore.beginCall, hc, Mn.mnYield, Option.map_some, Option.some.injEq]
        split <;> rfl
    · cases hc : s.current a.vp with
      | none => simp [hk, hc, Mn.on, MnCore.beginCall]
      | some t => simp [hk, hc, Mn.on, MnCore.beginCall, Mn.goto]
    · cases hc : s.current a.vp with
      | none => simp [hk, hc, Mn.on, MnCore.beginCall, Mn.goto]
      | some t => simp [hk, hc, Mn.on, MnCore.beginCall]
  | createTcb =>
    dsimp only
    unfold Mn.createTcb
    split
    · split <;> rfl
    · rfl
  | createAdd tcb => exact congrArg (fun s => some (Mn.goto a.vp (.createEnq tcb) s)) globalListAdd_setCells
  | stop i =>
    dsimp only
    split
    · rfl
    · simp only [Option.map_some, Option.some.injEq]
      exact congrArg (Mn.goto a.vp .returned) gc_setCells
  | alive =>
    have hl : RunQueues.hasLive s.state s.brk (s.q.setCells μ) = RunQueues.hasLive s.state s.brk s.q :=
      Links.hasLive_setReady
    dsimp only [Mn.setCells]
    rw [hl]
    split <;> rfl
  | probe start i =>
    simp only [hpc] at h ⊢
    simp only [Mn.probe]
    by_cases hi : i < s.numVps
    · have hv : (start + i) % s.numVps = a.vp := by
        by_contra hv
        simp [hi, hv] at h
      rw [if_pos hi, if_pos hi, if_pos hv, if_pos hv]
      rfl
    · rw [if_neg hi, if_neg hi]
      rfl
  | test =>
    dsimp only
    split <;> rfl
  | spawn i =>
    dsimp only
    split <;> rfl
  | join i =>
    dsimp only
    split <;> rfl
  | yieldEnq =>
    simp only [hpc, Option.map_eq_none_iff] at h
    simp [h]
  | yieldMark | yieldTrace | swapOut b | exitTrace | exitSwitch =>
    dsimp only
    cases s.current a.vp <;> rfl
  | off | createTrace t | createRet t | returned | stealTrace x | dispatchTrace t | switchIn t | done => rfl
  | createEnq | deq | ready | attach | stealDeq | dispatch =>
    simp only [hpc] at h
    cases h
  | _ =>
    rw [hpc] at hw
    cases hw

theorem fin_setCells {r : Result} : Mn.fin a r (s.setCells μ) = (Mn.fin a r s).map (Mn.setCells μ) := by
  unfold Mn.fin
  dsimp only
  cases hpc : s.pc a.vp with
  | probe start i =>
    cases r with
    | chain r n =>
      dsimp only
      cases r.stolenHead <;> rfl
    | _ => rfl
  | _ => cases r <;> rfl

end

/-! ## Owners -/

def Mn.threadsOf (s : Mn MnLinks) : Owner VpId Lock → List Ptr
  | .lock .ready => s.readyThreads
  | .lock (.queue v) => s.localThreads v
  | .proc v => s.detached v ++ s.hands v ++ (s.pc v).pend

def Mn.Owns (s : Mn MnLinks) (o : Owner VpId Lock) : Cell → Prop
  | .next t | .vpId t => t ∈ s.threadsOf o
  | .readyHead | .readyTail | .readyCount => o = .lock .ready
  | .localHead v | .localTail v | .localCount v => o = .lock (.queue v)

def ownPlaces : Owner VpId Lock → List Place
  | .lock .ready => [.queue (.shared .ready)]
  | .lock (.queue v) => [.queue (.loc v)]
  | .proc v => [.queue (.flight v), .hand .taken v, .hand .held v, .hand .yielding v, .hand .pend v]

theorem ownPlaces_disj {o o' : Owner VpId Lock} {i : Place} (h : i ∈ ownPlaces o) (h' : i ∈ ownPlaces o') : o = o' := by
  rcases o with (_ | v) | v <;> rcases o' with (_ | u) | u <;> simp [ownPlaces] at h h' ⊢ <;> grind

section
variable {s s' : Mn MnLinks} {m m' : Mn Lists} {a b : MnAct} {t : Ptr} {v : VpId} {o o' : Owner VpId Lock} {x : Cell}

theorem Refines.threadsOf (hp : Placed m) (h : Refines s m) : s.threadsOf o = (ownPlaces o).flatMap m.places := by
  have hpc : s.pc = m.pc := by rw [h.core]
  have hcur : s.current = m.current := by rw [h.core]
  rcases o with (_ | v) | v
  · simp [Mn.threadsOf, ownPlaces, h.readyThreads hp, Mn.places]
  · simp [Mn.threadsOf, ownPlaces, h.localThreads hp, Mn.places]
  · simp [Mn.threadsOf, ownPlaces, h.detached hp, Mn.places, Mn.hands, Pc.hand, hpc, hcur]

theorem Refines.mem_threadsOf (hp : Placed m) (h : Refines s m) : t ∈ s.threadsOf o ↔ ∃ i ∈ ownPlaces o, t ∈ m.places i := by
  rw [h.threadsOf hp]
  exact List.mem_flatMap

theorem Refines.owns_disj (hp : Placed m) (h : Refines s m) (hx : s.Owns o x) (hy : s.Owns o' x) : o = o' := by
  have hthread : ∀ t, t ∈ s.threadsOf o → t ∈ s.threadsOf o' → o = o' := by
    intro t ht ht'
    obtain ⟨i, hi, hti⟩ := (h.mem_threadsOf hp).mp ht
    obtain ⟨j, hj, htj⟩ := (h.mem_threadsOf hp).mp ht'
    obtain rfl := hp.apart.disj hti htj
    exact ownPlaces_disj hi hj
  cases x with
  | next t => exact hthread t hx hy
  | vpId t => exact hthread t hx hy
  | _ =>
    have hx' : o = _ := hx
    have hy' : o' = _ := hy
    exact hx'.trans hy'.symm

/-! ## Sections keep to their cells -/

theorem Refines.keeps {lk : Option Lock} {c : Code Cell.Val Result} (hp : Placed m) (h : Refines s m)
    (hs : s.sec a = some (lk, c)) : c.Keeps (area Mn.Owns s a.vp lk) s.q.cells := by
  have hpc : s.pc = m.pc := by rw [h.core]
  have hcur : s.current = m.current := by rw [h.core]
  have hlock : ∀ {k x}, lk = some k → s.Owns (.lock k) x → area Mn.Owns s a.vp lk x := fun hk hx => ⟨.lock _, hk, hx⟩
  have hproc : ∀ {x}, s.Owns (.proc a.vp) x → area Mn.Owns s a.vp lk x := fun hx => ⟨.proc _, rfl, hx⟩
  have hmem : ∀ o i t, i ∈ ownPlaces o → t ∈ m.places i → s.Owns o (.next t) := fun o i t hi ht =>
    (h.mem_threadsOf hp).mpr ⟨i, hi, ht⟩
  have hready : ∀ t, t ∈ m.q.q (.shared .ready) → s.Owns (.lock .ready) (.next t) := fun t ht =>
    hmem _ (.queue (.shared .ready)) t (by simp [ownPlaces]) ht
  have hloc : ∀ v t, t ∈ m.q.q (.loc v) → s.Owns (.lock (.queue v)) (.next t) := fun v t ht =>
    hmem _ (.queue (.loc v)) t (by simp [ownPlaces]) ht
  -- the head and the tail of a queue are among its threads
  have hlh : ∀ v t, s.q.localHead v = some t → t ∈ m.q.q (.loc v) := by
    intro v t ht
    rw [chain_head (h.q.loc v)] at ht
    exact List.mem_of_head? ht
  have hlt : ∀ v t, s.q.localTail v = some t → t ∈ m.q.q (.loc v) := by
    intro v t ht
    rw [h.q.localTail v] at ht
    exact List.mem_of_getLast? ht
  unfold Mn.sec at hs
  dsimp only at hs
  split at hs
  · rename_i hpcv
    obtain ⟨t, hc, hx⟩ := Option.map_eq_some_iff.mp hs
    cases hx
    rw [hpc] at hpcv
    rw [hcur] at hc
    have ht : t ∈ m.places (.hand .yielding a.vp) := Mn.mem_own hpcv rfl hc
    apply Body.keeps_vpEnqueue
    · exact hproc (hmem _ _ _ (by simp [ownPlaces]) ht)
    · exact hproc (hmem _ _ _ (by simp [ownPlaces]) ht)
    · exact hlock rfl rfl
    · exact hlock rfl rfl
    · exact hlock rfl rfl
    · intro tail htl
      exact hlock rfl (hloc _ _ (hlt _ _ htl))
  · rename_i t hpcv
    cases hs
    rw [hpc] at hpcv
    have ht : t ∈ m.places (.hand .pend a.vp) := Mn.mem_pend (by rw [hpcv]; exact List.mem_singleton_self t)
    apply Body.keeps_enqueue
    · exact hproc (hmem _ _ _ (by simp [ownPlaces]) ht)
    · exact hlock rfl rfl
    · exact hlock rfl rfl
    · exact hlock rfl rfl
    · intro tail htl
      have htl' : s.q.readyTail = (m.q.q (.shared .ready)).getLast? := h.q.shared.tail .ready (by simp)
      rw [htl'] at htl
      exact hlock rfl (hready _ (List.mem_of_getLast? htl))
  · cases hs
    apply Body.keeps_vpDequeue
    · exact hlock rfl rfl
    · exact hlock rfl rfl
    · exact hlock rfl rfl
    · intro t ht
      exact hlock rfl (hloc _ _ (hlh _ _ ht))
  · cases hs
    apply Body.keeps_dequeue
    · exact hlock rfl rfl
    · exact hlock rfl rfl
    · exact hlock rfl rfl
    · intro t ht
      have hh : s.q.readyHead = (m.q.q (.shared .ready)).head? := chain_head (h.q.shared.chain .ready)
      rw [hh] at ht
      exact hlock rfl (hready _ (List.mem_of_head? ht))
  · split at hs
    · rename_i start i hpcv hv
      cases hs
      apply Body.keeps_steal
      · exact hlock rfl rfl
      · exact hlock rfl rfl
      · exact hlock rfl rfl
      · intro t ht
        exact ⟨hlock rfl (hloc _ _ ht), hlock rfl (hloc _ _ ht)⟩
      · exact hp.queues.nodup _
      · exact h.q.loc _
    · cases hs
  · cases hs
    apply Body.keeps_attach
    · exact hlock rfl rfl
    · exact hlock rfl rfl
    · exact hlock rfl rfl
    · intro tail htl
      exact hlock rfl (hloc _ _ (hlt _ _ htl))
  · cases hs
    apply Body.keeps_vpDequeue
    · exact hlock rfl rfl
    · exact hlock rfl rfl
    · exact hlock rfl rfl
    · intro t ht
      exact hlock rfl (hloc _ _ (hlh _ _ ht))
  · rename_i t hpcv
    cases hs
    rw [hpc] at hpcv
    apply Body.keeps_setVpId
    exact hproc (hmem _ _ _ (by simp [ownPlaces]) (Mn.mem_taken hpcv))
  · cases hs

/-! ## Other virtual processors -/

theorem others_step (hsd : Sound m) (ht : m.Timely a.vp) (hs : m.step a = some m') (hv : v ≠ a.vp) :
    (m'.pc v = m.pc v ∨ m.pc v = .off ∧ m'.pc v = .test) ∧ m'.current v = m.current v := by
  rcases Mn.step_cases hsd.placed ht hs with ⟨-, hu⟩ | hl
  · obtain ⟨h₁, h₂, -⟩ := Mn.user_others hu hv
    exact ⟨.inl h₁, h₂⟩
  · obtain ⟨h₁, h₂, -⟩ := hsd.booted.others hl hv
    exact ⟨h₁, h₂⟩

theorem step_numVps (hsd : Sound m) (ht : m.Timely a.vp) (hs : m.step a = some m') : m'.numVps = m.numVps := by
  rcases Mn.step_cases hsd.placed ht hs with ⟨-, hu⟩ | hl
  · have hn := Mn.user_numVps hu
    exact hn
  · exact Mn.loop_numVps hl

/-- A section stays the next one of its virtual processor while others take steps. -/
theorem sec_stable {y : Option Lock × Code Cell.Val Result} (hsd : Sound m) (hr : Refines s m) (hr' : Refines s' m')
    (ht : m.Timely a.vp) (hs : m.step a = some m') (hv : b.vp ≠ a.vp) (hy : s.sec b = some y) : s'.sec b = some y := by
  obtain ⟨hpc, hcur⟩ := others_step hsd ht hs hv
  have hn := step_numVps hsd ht hs
  rw [← hr.core, ← hr'.core] at hcur hn hpc
  have hpc' : s'.pc b.vp = s.pc b.vp := by
    rcases hpc with h | ⟨h, -⟩
    · exact h
    · simp [Mn.sec, h] at hy
  unfold Mn.sec at hy ⊢
  dsimp only at hy ⊢
  rw [hpc', hcur, hn]
  exact hy

theorem step_of_sec {y : Option Lock × Code Cell.Val Result} (h : s.sec a = some y) : s.step a ≠ none := by
  unfold Mn.sec at h
  unfold Mn.step
  dsimp only at h ⊢
  cases hpc : s.pc a.vp with
  | yieldEnq =>
    simp only [hpc] at h
    obtain ⟨t, hc, -⟩ := Option.map_eq_some_iff.mp h
    simp [hc, Mn.inCall]
  | createEnq | deq | ready | probe | attach | stealDeq | dispatch => exact Option.some_ne_none _
  | _ =>
    simp only [hpc] at h
    cases h

/-- What a step changes of the cells belongs to its section. -/
theorem cells_frame (hok : Basic s.toMnCore a) (hp : Placed m) (hr : Refines s m) (hw : (s.pc a.vp).waits = false)
    (hs : s.step a = some s')
    (hx : ¬ area Mn.Owns s a.vp ((s.sec a).bind Prod.fst) x) : s'.q.cells x = s.q.cells x := by
  cases hsec : s.sec a with
  | none =>
    have h := step_setCells (μ := s.q.cells) hok hw hsec
    rw [show s.setCells s.q.cells = s from rfl, hs] at h
    have he : s' = s'.setCells s.q.cells := Option.some.inj h
    rw [he]
    exact congrFun MnLinks.cells_setCells x
  | some y =>
    obtain ⟨lk, c⟩ := y
    rw [hsec] at hx
    have hk := hr.keeps hp hsec
    rw [← sections_atomic] at hs
    unfold Machine.atomic at hs
    rw [show sections.sec s a = some (lk, c) from hsec] at hs
    have hf : (Mn.fin a (c.run s.q.cells).1 s).map (Mn.setCells (c.run s.q.cells).2) = some s' := by
      rw [← fin_setCells]
      exact hs
    obtain ⟨s₁, -, rfl⟩ := Option.map_eq_some_iff.mp hf
    simp only [MnLinks.cells_setCells]
    exact hk.frame hx

theorem threadsOf_steady (hsd : Sound m) (hr : Refines s m) (hsd' : Sound m') (hr' : Refines s' m')
    (ht : m.Timely a.vp) (hs : m.step a = some m') (hcells : ∀ x, s.Owns o x → s'.q.cells x = s.q.cells x) (ho : o ≠ .proc a.vp) :
    s'.threadsOf o = s.threadsOf o := by
  -- a chain whose cells stay is a chain still
  have hchain : ∀ h xs, Chain s.q.next h xs → (∀ t ∈ xs, s.Owns o (.next t)) → Chain s'.q.next h xs := by
    intro h xs hc hxs
    refine (seg_congr fun t ht => ?_).mp hc
    exact (hcells (.next t) (hxs t ht)).symm
  have hown : ∀ i t, i ∈ ownPlaces o → t ∈ m.places i → s.Owns o (.next t) := fun i t hi ht =>
    (hr.mem_threadsOf hsd.placed).mpr ⟨i, hi, ht⟩
  rcases o with (_ | v) | v
  · have hh : s'.q.readyHead = s.q.readyHead := hcells .readyHead rfl
    have hc : Chain s'.q.next s'.q.readyHead (m.q.q (.shared .ready)) := by
      rw [hh]
      apply hchain _ _ (hr.q.shared.chain .ready)
      exact fun t ht => hown (.queue (.shared .ready)) t (by simp [ownPlaces]) ht
    simp only [Mn.threadsOf, hr.readyThreads hsd.placed, hr'.readyThreads hsd'.placed]
    exact chain_unique (hr'.q.shared.chain .ready) hc
  · have hh : s'.q.localHead v = s.q.localHead v := hcells (.localHead v) rfl
    have hc : Chain s'.q.next (s'.q.localHead v) (m.q.q (.loc v)) := by
      rw [hh]
      apply hchain _ _ (hr.q.loc v)
      exact fun t ht => hown (.queue (.loc v)) t (by simp [ownPlaces]) ht
    simp only [Mn.threadsOf, hr.localThreads hsd.placed, hr'.localThreads hsd'.placed]
    exact chain_unique (hr'.q.loc v) hc
  · have hv : v ≠ a.vp := fun e => ho (by rw [e])
    obtain ⟨hpc, hcur⟩ := others_step hsd ht hs hv
    have hf := hsd.placed.flight v
    have hf' := hsd'.placed.flight v
    have hflight : m'.q.q (.flight v) = m.q.q (.flight v) := by
      have hc : Chain s'.q.next (m.q.q (.flight v)).head? (m.q.q (.flight v)) := by
        apply hchain _ _ (hr.q.flight v)
        exact fun t ht => hown (.queue (.flight v)) t (by simp [ownPlaces]) ht
      rcases hpc with h | ⟨h, h'⟩
      · rw [h] at hf'
        cases hpv : m.pc v with
        | attach x tl n =>
          rw [hpv] at hf hf'
          have hc' := hr'.q.flight v
          rw [hf'.1] at hc'
          rw [hf.1] at hc
          exact chain_unique hc' hc
        | _ =>
          rw [hpv] at hf hf'
          exact Eq.trans hf' (Eq.symm hf)
      · rw [h] at hf
        rw [h'] at hf'
        exact Eq.trans hf' (Eq.symm hf)
    rw [hr'.threadsOf hsd'.placed, hr.threadsOf hsd.placed]
    simp only [ownPlaces, List.flatMap_cons, List.flatMap_nil, Mn.places, hflight, hcur]
    rcases hpc with h | ⟨h, h'⟩
    · rw [h]
    · rw [h, h']
      rfl

/-! ## The discipline -/

def BasicAct (a : MnAct) : Prop := a.call ∈ [.create, .yield, .exit, .mnRun]

instance (a : MnAct) : Decidable (BasicAct a) := inferInstanceAs (Decidable (_ ∈ _))

theorem MnRun.basic (h : MnRun Basic s) : ∃ m, ListRun Basic m ∧ Refines s m ∧ ∀ a : MnAct, m.Timely a.vp := by
  obtain ⟨m, hm, hr⟩ := MnRun.lists (fun _ _ hok => hok.1) h.orderly
  have hb : ListRun Basic m := hm.mono fun _ _ hok => hok.2
  refine ⟨m, hb, hr, fun a => ?_⟩
  exact (ListRun.current (fun _ _ hok => hok.1) hm).timely (.of_waits (ListRun.unblocked hb).2)

theorem sections_disciplined : Disciplined sections BasicAct (MnRun Basic) Mn.Owns where
  mem_put μ s := MnLinks.cells_setCells
  put_put μ ν s := rfl
  put_mem s := rfl
  sec_put μ s a := rfl
  fin_put μ s a r := fin_setCells
  plain_put {s a} hs hok hn μ := step_setCells hok (MnRun.waits hs a.vp) hn
  disj {s o o' x} hs hx hy := by
    obtain ⟨m, hm, hr, -⟩ := hs.basic
    exact hr.owns_disj (ListRun.sound hm).placed hx hy
  keeps {s a lk c} hs _ hsec := by
    obtain ⟨m, hm, hr, -⟩ := hs.basic
    exact hr.keeps (ListRun.sound hm).placed hsec
  inv {s a s'} hs hok hat := by
    rw [sections_atomic] at hat
    exact .step hs hok hat
  stable {s a s' b y} hs hok hat hv hy := by
    rw [sections_atomic] at hat
    obtain ⟨m, hm, hr, ht⟩ := hs.basic
    have hsd := ListRun.sound hm
    obtain ⟨m', hst, hr'⟩ := hr.step hsd.placed (ht a) hat
    exact sec_stable hsd hr hr' (ht a) hst hv hy
  steady {s a s' o x} hs hok hat ho := by
    rw [sections_atomic] at hat
    obtain ⟨m, hm, hr, ht⟩ := hs.basic
    have hsd := ListRun.sound hm
    obtain ⟨m', hst, hr'⟩ := hr.step hsd.placed (ht a) hat
    have hsd' := ListRun.sound (.step hm ⟨ht a, hok⟩ hst)
    have hcells : ∀ x, s.Owns o x → s'.q.cells x = s.q.cells x := by
      intro x hx
      apply cells_frame hok hsd.placed hr (MnRun.waits hs a.vp) hat
      intro ⟨o', ho', hx'⟩
      rw [hr.owns_disj hsd.placed hx hx'] at ho
      exact ho ho'
    have ht := threadsOf_steady hsd hr hsd' hr' (ht a) hst hcells fun e => ho (by rw [e]; rfl)
    cases x <;> simp only [Mn.Owns, ht]
  fins {s a lk c} _ _ hsec := by
    rw [sections_atomic]
    exact step_of_sec hsec

/-! ## Interleaved sections -/

/-- Virtual processors whose programs create, yield and exit, and whose sections are interleaved access by access. -/
abbrev SpinRun : Fine (Mn MnLinks) MnAct VpId Lock Cell.Val Result → Prop := sections.FineRun Start BasicAct

/-- An interleaved state next to one that sections run at once lead to. -/
structure Explained (f : Fine (Mn MnLinks) MnAct VpId Lock Cell.Val Result) (s : Mn MnLinks) : Prop where
  -- they differ in the links of queues only, and there in what a section in progress owns
  rest : f.g = s.setCells f.g.q.cells
  cells : ∀ x, (∀ v a lk c, f.stage v = .inside a lk c → ¬ area Mn.Owns s v lk x) → f.g.q.cells x = s.q.cells x
  quiet : (∀ v a lk c, f.stage v ≠ .inside a lk c) → f.g = s
  -- a lock is held by the one virtual processor that is in its section
  held : ∀ lk, f.word lk = true ↔ ∃ v a c, f.stage v = .inside a (some lk) c
  exclusive : ∀ {u v a b lk c d}, f.stage u = .inside a (some lk) c → f.stage v = .inside b (some lk) d → u = v

/-- Locked loads and stores in any order lead nowhere that atomic sections do not. -/
theorem spinlocks_suffice {f : Fine (Mn MnLinks) MnAct VpId Lock Cell.Val Result} (h : SpinRun f) :
    ∃ s, MnRun Basic s ∧ Explained f s := by
  obtain ⟨s, hs, hm⟩ := h.mirrors sections_disciplined fun s hs => .init hs
  refine ⟨s, hm.inv, hm.rest, fun x => hm.outside, ?_, hm.word, hm.excl⟩
  intro hq
  have hc : f.g.q.cells = s.q.cells := funext fun x => hm.outside fun v a lk c hv => absurd hv (hq v a lk c)
  rw [hm.rest, show sections.mem f.g = s.q.cells from hc]
  rfl

/-- Virtual processor 0 takes a thread from its queue while virtual processor 1 wants to steal from it. -/
def contention : List (Move MnAct VpId) :=
  [.enter { vp := 0, call := .mnRun }, .enter { vp := 0 }, .enter { vp := 0 }, .enter { vp := 0 }, .enter { vp := 1 }] ++
  [.enter { vp := 1 }, .go 1, .go 1, .go 1] ++ [.enter { vp := 1, now := 1 }, .go 1, .go 1, .go 1] ++
  [.enter { vp := 0 }, .go 0, .go 0, .go 0, .go 0, .enter { vp := 1 }, .go 1]

def contended : Fine (Mn MnLinks) MnAct VpId Lock Cell.Val Result :=
  (Trans.exec sections.step (Machine.start (crowd 2 3)) contention).getD (Machine.start (crowd 2 3))

theorem contended_run : SpinRun contended := by
  have hx : (Trans.exec sections.step (Machine.start (crowd 2 3)) contention).isSome = true := by decide
  obtain ⟨f, hf⟩ := Option.isSome_iff_exists.mp hx
  have he : contended = f := by rw [contended, hf]; rfl
  rw [he]
  refine Trans.Reach.exec_mem (.init ⟨_, crowd_start (by decide) 3, rfl⟩) ?_ hf
  intro _ m hm a ha
  subst ha
  simp only [contention, List.cons_append, List.nil_append, List.mem_cons, Move.enter.injEq, reduceCtorEq, false_or, or_false,
    List.not_mem_nil] at hm
  rcases hm with rfl | rfl | rfl | rfl | rfl | rfl | rfl | rfl | rfl <;> decide

/-- The queue's head has moved on, its count has not, and the lock is taken. -/
theorem spinlocks_suffice_contended : contended.g.q.localHead 0 = some 1 ∧ contended.g.q.localCount 0 = 3 ∧
    contended.word (.queue 0) = true ∧ ∃ s, MnRun Basic s ∧ Explained contended s :=
  ⟨by decide, by decide, by decide, spinlocks_suffice contended_run⟩

/-- A virtual processor that waits for a lock or is in a section gets through, by moves of its own and of the lock's holder. -/
theorem sections_end {f : Fine (Mn MnLinks) MnAct VpId Lock Cell.Val Result} (h : SpinRun f) (v : VpId) :
    ∃ u m n f', (u = v ∨ f.Blocks u v) ∧
      Trans.exec sections.step f (List.replicate m (.go u) ++ List.replicate n (.go v)) = some f' ∧
      SpinRun f' ∧ f'.stage v = .out := by
  obtain ⟨s, -, hm⟩ := h.mirrors sections_disciplined fun s hs => .init hs
  obtain ⟨u, m, n, f', g', hu, hx, -, hv⟩ := hm.completes sections_disciplined v
  refine ⟨u, m, n, f', hu, hx, ?_, hv⟩
  apply Trans.Reach.exec_mem h _ hx
  intro _ x hx a ha
  rw [ha, List.mem_append, List.mem_replicate, List.mem_replicate] at hx
  rcases hx with hx | hx <;> cases hx.2

theorem sections_end_contended : ∃ u m n f', (u = 1 ∨ contended.Blocks u 1) ∧
    Trans.exec sections.step contended (List.replicate m (.go u) ++ List.replicate n (.go 1)) = some f' ∧ SpinRun f' ∧
      f'.stage 1 = .out :=
  sections_end contended_run 1

end

end Uthread
