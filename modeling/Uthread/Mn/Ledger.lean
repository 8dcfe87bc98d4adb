import Uthread.Mn.Finish

/-!
# What `uthread_mn_run` frees

A ledger of the frees beside a run. The last `gc_finished_threads` is executed by
the main thread, whose thread-local `current_thread` still names the TCB that
virtual processor 0 dispatched last, or the block that held it.
-/

namespace Uthread

open Linked Trans

namespace Mn

variable {σ : Type} [RunQueues σ]

/-- The TCBs that `gc_finished_threads` on `v` frees with their stacks, in this order. -/
def collects (v : VpId) (s : Mn σ) : List Ptr :=
  (RunQueues.gc (fun t => s.state t = .finished ∧ some t ≠ s.current v) s.brk s.q).1

def freed (s : Mn σ) (a : MnAct) : List Nat :=
  match s.pc a.vp with
  | .user => if a.call = .create then (s.collects a.vp).map s.ticket else []
  | .stop i => if i < s.numVps then [] else (s.collects a.vp).map s.ticket
  | _ => []

/-- A segment, with the threads freed so far; no other step of a segment than its first frees any. -/
def segmentLog (p : Mn MnLinks × List Nat) (a : MnAct) : Option (Mn MnLinks × List Nat) :=
  (p.1.segment a).map fun s => (s, p.1.freed a ++ p.2)

end Mn

abbrev LedgerRun : Mn MnLinks × List Nat → Prop :=
  Reach (fun p => Start p.1 ∧ p.2 = []) Mn.segmentLog fun _ _ => True

/-- Every thread ever created has been freed exactly once, with its stack, and the global list is empty. -/
structure AllFreed (s : Mn MnLinks) (frees : List Nat) : Prop where
  once : ∀ k ∈ s.threads, frees.count k = 1
  freed : ∀ t, s.allocated t = false
  glob : s.q.globalThreadList = none

variable {s s' : Mn MnLinks} {m m' : Mn Lists} {a : MnAct} {t x : Ptr} {v : VpId} {l : List Nat} {p p' : Mn MnLinks × List Nat}

/-! ## The balance -/

structure Audited (c : MnCore) (frees : List Nat) : Prop where
  once : ∀ {k}, k ∈ c.threads → (∀ t, c.allocated t = true → c.ticket t ≠ k) → frees.count k = 1
  live : ∀ {t}, c.allocated t = true → c.ticket t ∉ frees
  created : ∀ {k}, k ∈ frees → k ∈ c.threads

namespace Audited

theorem congr {c c' : MnCore} (h : Audited c l) (ha : c'.allocated = c.allocated) (ht : c'.ticket = c.ticket)
    (hk : c'.threads = c.threads) : Audited c' l := by
  constructor
  · rw [ha, ht, hk]
    exact h.once
  · rw [ha, ht]
    exact h.live
  · rw [hk]
    exact h.created

theorem gc (h : Audited m.toMnCore l) (hp : Placed m) (htk : Ticketed m) :
    Audited (m.gcFinishedThreads v).toMnCore ((m.collects v).map m.ticket ++ l) := by
  have hal : ∀ {t}, t ∈ m.collects v → m.allocated t = true := fun ht => ((hp.listed _).mp (List.mem_of_mem_filter ht)).1
  have hkept : ∀ t, (m.gcFinishedThreads v).allocated t = (m.allocated t && !(m.collects v).contains t) := fun _ => rfl
  have hn : ((m.collects v).map m.ticket).Nodup := by
    refine (hp.glob.filter _).map_on ?_
    intro t ht u hu he
    exact htk.inj (hal ht) (hal hu) he
  constructor
  · intro k hk hno
    rw [List.count_append]
    by_cases hx : ∃ t, m.allocated t = true ∧ m.ticket t = k
    · obtain ⟨t, ha, rfl⟩ := hx
      have ht : t ∈ m.collects v := by
        by_contra ht
        exact hno t (by simp [hkept, ha, ht]) rfl
      rw [List.count_eq_one_of_mem hn (List.mem_map_of_mem ht), List.count_eq_zero_of_not_mem (h.live ha)]
    · have hc : k ∉ (m.collects v).map m.ticket := by
        intro hm
        obtain ⟨t, ht, he⟩ := List.mem_map.mp hm
        exact hx ⟨t, hal ht, he⟩
      rw [List.count_eq_zero_of_not_mem hc, h.once hk fun t ha he => hx ⟨t, ha, he⟩]
  · intro t ha hm
    rw [hkept, Bool.and_eq_true] at ha
    rcases List.mem_append.mp hm with hm | hm
    · obtain ⟨u, hu, he⟩ := List.mem_map.mp hm
      have hut := htk.inj (hal hu) ha.1 he
      rw [hut] at hu
      simp [hu] at ha
    · exact h.live ha.1 hm
  · intro k hm
    rcases List.mem_append.mp hm with hm | hm
    · obtain ⟨u, hu, rfl⟩ := List.mem_map.mp hm
      exact htk.mem (hal hu)
    · exact h.created hm

theorem alloc (b : Bool) (h : Audited m.toMnCore l) (htk : Ticketed m) (hx : m.allocated x = false) :
    Audited (m.on (.allocTcb x b)).toMnCore l := by
  have hold : ∀ {t}, t ≠ x → (m.on (.allocTcb x b)).allocated t = true → m.allocated t = true := by
    intro t ht ha
    simpa [MnCore.allocTcb, ht] using ha
  constructor
  · intro k hk hno
    apply h.once
    · cases b with
      | true =>
        have hk' : k = m.drawn ∨ k ∈ m.threads := by simpa [MnCore.allocTcb] using hk
        refine hk'.resolve_left fun e => ?_
        apply hno x
        · simp [MnCore.allocTcb]
        · simp [MnCore.allocTcb, e]
      | false => simpa [MnCore.allocTcb] using hk
    · intro t ha
      have ht : t ≠ x := by
        intro e
        rw [e, hx] at ha
        cases ha
      simpa [MnCore.allocTcb, ht, ha] using hno t
  · intro t ha hm
    by_cases ht : t = x
    · have hd : m.drawn ∈ l := by simpa [MnCore.allocTcb, ht] using hm
      exact Nat.lt_irrefl _ (htk.drawn (h.created hd))
    · exact h.live (hold ht ha) (by simpa [MnCore.allocTcb, ht] using hm)
  · intro k hm
    have hk := h.created hm
    cases b <;> simp [MnCore.allocTcb, hk]

theorem step (h : Audited m.toMnCore l) (hp : Placed m) (htk : Ticketed m) (ht : m.Timely a.vp) (hs : m.step a = some m') :
    Audited m'.toMnCore (m.freed a ++ l) := by
  rcases Mn.step_cases hp ht hs with ⟨hpc, hu⟩ | hl
  · by_cases hk : a.call = .create
    · have hf : m.freed a = (m.collects a.vp).map m.ticket := by simp [Mn.freed, hpc, hk]
      have hstep : m.step a = some (((m.on (.beginCall a.vp)).gcFinishedThreads a.vp).goto a.vp .createTcb) := by
        simp [Mn.step, Mn.call, hpc, hk]
      rw [hstep] at hs
      cases hs
      rw [hf]
      exact (h.gc hp htk).congr rfl rfl rfl
    · have hf : m.freed a = [] := by simp [Mn.freed, hpc, hk]
      rw [hf]
      cases hu with
      | create hk' => exact absurd hk' hk
      | _ => exact h.congr rfl rfl rfl
  · cases hl with
    | @createFail ok hpc ha =>
      have hf : m.freed a = [] := by simp [Mn.freed, hpc]
      rw [hf]
      cases ok with
      | true => exact h.congr rfl rfl rfl
      | false => exact (h.alloc false htk (ha rfl)).congr rfl rfl rfl
    | createTcb hpc ha =>
      have hf : m.freed a = [] := by simp [Mn.freed, hpc]
      rw [hf]
      exact (h.alloc true htk ha).congr rfl rfl rfl
    | stopped hpc hi =>
      have hf : m.freed a = (m.collects a.vp).map m.ticket := by simp [Mn.freed, hpc, hi]
      rw [hf]
      exact (h.gc hp htk).congr rfl rfl rfl
    | stop hpc hi =>
      have hf : m.freed a = [] := by simp [Mn.freed, hpc, hi]
      rw [hf]
      exact h.congr rfl rfl rfl
    | deq hpc =>
      have hf : m.freed a = [] := by rcases hpc with hpc | hpc <;> simp [Mn.freed, hpc]
      rw [hf]
      exact h.congr rfl rfl rfl
    | _ hpc =>
      have hf : m.freed a = [] := by simp [Mn.freed, hpc]
      rw [hf]
      exact h.congr rfl rfl rfl

end Audited

theorem Start.audited (h : Start s) : Audited s.toMnCore [] := by
  obtain ⟨n, k, sem, tr, q, hn, hc, -⟩ := h
  rw [hc]
  constructor
  · intro i hi hno
    have hlt : i < k := by simpa [loaded] using hi
    exact absurd (by simp [loaded, hlt]) (hno i (by simpa [loaded] using hlt))
  · exact fun _ => List.not_mem_nil
  · intro i hi
    cases hi

/-! ## Segments -/

theorem Refines.freed (hp : Placed m) (h : Refines s m) : s.freed a = m.freed a := by
  have hgc : s.collects a.vp = m.collects a.vp := by
    unfold Mn.collects
    rw [h.core]
    exact (h.q.gc hp.glob _ hp.glob_le).1
  unfold Mn.freed
  rw [hgc, h.core]

theorem MnRun.audited (h : MnRun Saved s) (hok : Saved s.toMnCore a) (hb : Audited s.toMnCore l) (hs : s.step a = some s') :
    Audited s'.toMnCore (s.freed a ++ l) := by
  obtain ⟨m, m', hm, hr, ht, hs', hr'⟩ := MnRun.lift (fun _ _ ho => ho.1.1) h hok.1.1 hs
  have hp := (ListRun.sound hm).placed
  rw [hr.core] at hb
  rw [hr'.core, hr.freed hp]
  exact hb.step hp (ListRun.ticketed hm) ht hs'

theorem returned_step (hsd : Sound m) (ht : m.Timely a.vp) (hs : m.step a = some m') (h : m'.pc v = .returned) :
    m.pc v = .returned ∨ v = a.vp ∧ ∃ i, m.pc v = .stop i ∧ m' = (m.gcFinishedThreads v).goto v .returned := by
  by_cases hv : v = a.vp
  · subst hv
    right
    rcases Mn.step_cases hsd.placed ht hs with ⟨-, hu⟩ | hl
    · cases hu <;> simp at h
    · cases hl with
      | stopped hpc hi => exact ⟨rfl, _, hpc, rfl⟩
      | @createFail ok _ => cases ok <;> simp [MnCore.allocTcb] at h
      | readyEmpty => split at h <;> simp at h
      | halt => unfold Mn.leave at h; split at h <;> simp at h
      | dead => unfold Mn.leave at h; split at h <;> simp at h
      | _ => simp [MnCore.allocTcb] at h
  · left
    rcases Mn.step_cases hsd.placed ht hs with ⟨-, hu⟩ | hl
    · rwa [(Mn.user_others hu hv).1] at h
    · rcases (hsd.booted.others hl hv).1 with he | ⟨-, he⟩
      · rwa [he] at h
      · rw [he] at h
        cases h

theorem settle_audited {n : Nat} (h : MnRun Saved s) (hq : ∀ u, u ≠ a.vp → Mn.midCall (s.pc u) = false)
    (hb : Audited s.toMnCore l) (hs : s.settle a n = some s') :
    Audited s'.toMnCore l ∧ ∀ u, s'.pc u = .returned → s.pc u = .returned := by
  induction n generalizing s with
  | zero =>
    cases hs
    exact ⟨hb, fun _ => id⟩
  | succ n ih =>
    unfold Mn.settle at hs
    cases hc : Mn.midCall (s.pc a.vp) with
    | false =>
      rw [hc] at hs
      cases hs
      exact ⟨hb, fun _ => id⟩
    | true =>
      rw [hc, if_pos rfl] at hs
      obtain ⟨s₁, h₁, h₂⟩ := Option.bind_eq_some_iff.mp hs
      have hok := h.quiet hq
      have hf : s.freed a = [] := by
        cases hpc : s.pc a.vp <;> first
          | simp [Mn.freed, hpc]; done
          | (rw [hpc] at hc; cases hc)
      have hb₁ := h.audited hok hb h₁
      rw [hf] at hb₁
      obtain ⟨hb', he⟩ := ih (.step h hok h₁) (quiet_step h hq h₁) hb₁ h₂
      refine ⟨hb', fun u hu => ?_⟩
      have hu₁ := he u hu
      obtain ⟨m, m₁, hm, hr, ht, hs₁, hr₁⟩ := MnRun.lift (fun _ _ ho => ho.1.1) h hok.1.1 h₁
      rw [hr₁.core] at hu₁
      rw [hr.core] at hc ⊢
      rcases returned_step (ListRun.sound hm) ht hs₁ hu₁ with hx | ⟨rfl, i, hpc, -⟩
      · exact hx
      · rw [hpc] at hc
        cases hc

theorem LedgerRun.segments (h : LedgerRun p) : SegmentRun p.1 ∧ Audited p.1.toMnCore p.2 := by
  induction h with
  | @init p h =>
    obtain ⟨hs, hl⟩ := h
    rw [hl]
    exact ⟨.init hs, hs.audited⟩
  | @step p a p' _ _ hs ih =>
    obtain ⟨hr, hb⟩ := ih
    obtain ⟨s', hseg, rfl⟩ := Option.map_eq_some_iff.mp hs
    refine ⟨.step hr trivial hseg, ?_⟩
    obtain ⟨s₁, h₁, h₂⟩ := Option.bind_eq_some_iff.mp hseg
    obtain ⟨hf, hq⟩ := hr.fine
    have hok := hf.quiet (a := a) fun u _ => hq u
    exact (settle_audited (.step hf hok h₁) (quiet_step hf (fun u _ => hq u) h₁) (hf.audited hok hb h₁) h₂).1

theorem returned_halts (hsd : Sound m) (h : m.pc 0 = .returned) : m.step a = none := by
  by_cases h0 : a.vp = 0
  · simp [Mn.step, h0, h]
  · by_cases hlt : a.vp < m.numVps
    · have hd := hsd.joined.all h a.vp (Nat.pos_of_ne_zero h0) hlt
      simp [Mn.step, hd]
    · have hoff := hsd.booted.range (Nat.le_of_not_lt hlt)
      simp [Mn.step, hoff]

theorem LedgerRun.last (h : LedgerRun p) (hs : Mn.segmentLog p a = some p') (hret : p'.1.pc 0 = .returned) :
    ∃ m m', ListRun Saved m ∧ ListRun Saved m' ∧ Refines p.1 m ∧ Refines p'.1 m' ∧ (m.pc 0).closing = true ∧
      m' = (m.gcFinishedThreads 0).goto 0 .returned ∧ Audited m'.toMnCore p'.2 := by
  have hb' : Audited p'.1.toMnCore p'.2 := (LedgerRun.segments (.step h trivial hs)).2
  obtain ⟨hseg, hb⟩ := h.segments
  obtain ⟨s', hsg, rfl⟩ := Option.map_eq_some_iff.mp hs
  obtain ⟨s₁, h₁, h₂⟩ := Option.bind_eq_some_iff.mp hsg
  obtain ⟨hf, hq⟩ := hseg.fine
  have hok := hf.quiet (a := a) fun u _ => hq u
  have hb₁ := hf.audited hok hb h₁
  have hret₁ := (settle_audited (.step hf hok h₁) (quiet_step hf (fun u _ => hq u) h₁) hb₁ h₂).2 0 hret
  obtain ⟨m, m₁, hm, hr, ht, hs₁, hr₁⟩ := MnRun.lift (fun _ _ ho => ho.1.1) hf hok.1.1 h₁
  have hsd := ListRun.sound hm
  rw [hr₁.core] at hret₁
  rcases returned_step hsd ht hs₁ hret₁ with h | ⟨h0, i, hpc, he⟩
  · rw [returned_halts hsd h] at hs₁
    cases hs₁
  · have hdone : Mn.midCall (s₁.pc a.vp) = false := by
      rw [hr₁.core, ← h0, hret₁]
      rfl
    have hsame : s₁ = s' := by
      unfold Mn.settle at h₂
      rw [hdone] at h₂
      exact Option.some.inj h₂
    subst hsame
    rw [hr.core] at hok
    rw [hr₁.core] at hb'
    exact ⟨m, m₁, hm, .step hm ⟨ht, hok⟩ hs₁, hr, hr₁, by rw [hpc]; rfl, he, hb'⟩

/-- A thread that has exited survives the collection pass of `v` if and only if it is the current one there. -/
theorem gc_survivor (hp : Placed m) (hf : m.state t = .finished) :
    (m.gcFinishedThreads v).allocated t = true ↔ m.allocated t = true ∧ m.current v = some t := by
  simp only [Mn.gcFinishedThreads, RunQueues.gc, Bool.and_eq_true, Bool.not_eq_true', List.contains_eq_mem,
    decide_eq_false_iff_not, List.mem_filter, hf, true_and, decide_eq_true_eq]
  constructor
  · intro h
    refine ⟨h.1, ?_⟩
    by_contra hc
    refine h.2 ⟨(hp.listed t).mpr ⟨h.1, fun w hw => ?_⟩, fun he => hc he.symm⟩
    exact hp.live (Mn.mem_pend (Pc.pend_of_unlisted hw)) hf
  · intro h
    exact ⟨h.1, fun hx => hx.2 h.2.symm⟩

/-- `uthread_mn_run` has freed every thread exactly if, before its last collection pass, `current_thread` of virtual
processor 0 is NULL or points to a block that is no TCB. -/
theorem mn_run_reclaims_iff (h : LedgerRun p) (hs : Mn.segmentLog p a = some p') (hret : p'.1.pc 0 = .returned) :
    AllFreed p'.1 p'.2 ↔ ∀ t, p.1.current 0 = some t → p.1.allocated t = false := by
  obtain ⟨m, m', hm, hm', hr, hr', hcl, rfl, hb⟩ := h.last hs hret
  have hp := (ListRun.sound hm).placed
  have hp' := (ListRun.sound hm').placed
  have ho : Over m := (ListRun.ending hm).left (.inr hcl)
  have hhead := chain_head hr'.q.shared.glob.fwd
  rw [hr.core]
  constructor
  · intro hsw t hc
    by_contra ha
    have hal : m.allocated t = true := by simpa using ha
    have hsurv := (gc_survivor hp (ho.finished hal)).mpr ⟨hal, hc⟩
    have hno := hsw.freed t
    rw [hr'.core] at hno
    rw [show ((m.gcFinishedThreads 0).goto 0 .returned).allocated t = (m.gcFinishedThreads 0).allocated t from rfl, hsurv] at hno
    cases hno
  · intro hcur
    have hnone : ∀ t, (m.gcFinishedThreads 0).allocated t = false := by
      intro t
      by_contra ha
      have ha' : (m.gcFinishedThreads 0).allocated t = true := by simpa using ha
      have hal : m.allocated t = true := by
        simp only [Mn.gcFinishedThreads, Bool.and_eq_true] at ha'
        exact ha'.1
      obtain ⟨-, hc⟩ := (gc_survivor hp (ho.finished hal)).mp ha'
      rw [hcur t hc] at hal
      cases hal
    constructor
    · intro k hk
      rw [hr'.core] at hk
      refine hb.once hk fun t ha => ?_
      rw [show ((m.gcFinishedThreads 0).goto 0 .returned).allocated t = (m.gcFinishedThreads 0).allocated t from rfl,
        hnone t] at ha
      cases ha
    · intro t
      rw [hr'.core]
      exact hnone t
    · rw [hhead, List.head?_eq_none_iff, List.eq_nil_iff_forall_not_mem]
      intro t ht
      have hal : (m.gcFinishedThreads 0).allocated t = true := ((hp'.listed t).mp ht).1
      rw [hnone t] at hal
      cases hal

def Mn.ledger (s : Mn MnLinks) (as : List MnAct) : Mn MnLinks × List Nat := (exec Mn.segmentLog (s, []) as).getD (s, [])

theorem LedgerRun.after {as : List MnAct} (hs : Start s) (h : (exec Mn.segmentLog (s, []) as).isSome = true) :
    LedgerRun (s.ledger as) := by
  obtain ⟨p, hx⟩ := Option.isSome_iff_exists.mp h
  have h₀ : LedgerRun (s, []) := .init ⟨hs, rfl⟩
  unfold Mn.ledger
  rw [hx]
  exact h₀.exec (fun _ _ => trivial) hx

/-- Two virtual processors: thread 0 exits on the first and is collected by thread 1 on the second, which puts thread 2
into the block at `addr`; the first dispatches no other thread and is at the end of `uthread_mn_run`. -/
def collectedBeside (addr : Ptr) : List MnAct :=
  [{ vp := 0, call := .create }, { vp := 0, call := .mnRun }] ++ List.replicate 8 { vp := 0 } ++
    { vp := 0, call := .create, addr := 1 } :: List.replicate 6 { vp := 1 } ++
    [{ vp := 0, call := .exit }, { vp := 1, call := .create, addr }, { vp := 1, call := .exit }] ++
    List.replicate 6 { vp := 1 } ++ { vp := 1, call := .exit } :: List.replicate 7 { vp := 1 } ++
    List.replicate 9 { vp := 0 }

theorem mn_run_reclaims_beside :
    let p := (initMn 2 (fun _ => 0) ⟨none, 0, false⟩).ledger (collectedBeside 2)
    p.1.current 0 = some 0 ∧ ∃ p', Mn.segmentLog p { vp := 0 } = some p' ∧ p'.2 = [2, 1, 0] ∧ AllFreed p'.1 p'.2 := by
  intro p
  have hrun : LedgerRun p := LedgerRun.after (initMn_start (by decide) _ _) (by decide +kernel)
  have hsome : ((Mn.segmentLog p { vp := 0 }).map fun p' => decide (p'.1.pc 0 = .returned ∧ p'.2 = [2, 1, 0])) = some true := by
    decide +kernel
  obtain ⟨p', hs, hp'⟩ := Option.map_eq_some_iff.mp hsome
  obtain ⟨hret, hl⟩ := of_decide_eq_true hp'
  refine ⟨by decide +kernel, p', hs, hl, ?_⟩
  rw [mn_run_reclaims_iff hrun hs hret]
  have hcur : p.1.current 0 = some 0 ∧ p.1.allocated 0 = false := by decide +kernel
  intro t ht
  rw [hcur.1] at ht
  cases ht
  exact hcur.2

/-- The same run, with thread 2 in thread 0's block: it is never freed. -/
theorem reused_block_leaks :
    let p := (initMn 2 (fun _ => 0) ⟨none, 0, false⟩).ledger (collectedBeside 0 ++ [{ vp := 0 }])
    LedgerRun p ∧ p.1.pc 0 = .returned ∧ p.1.threads = [2, 1, 0] ∧ p.2 = [1, 0] ∧ p.1.q.globalThreadList = some 0 :=
  ⟨LedgerRun.after (initMn_start (by decide) _ _) (by decide +kernel), by decide +kernel, by decide +kernel,
    by decide +kernel, by decide +kernel⟩

/-- One virtual processor runs one thread: it is never freed. -/
theorem last_thread_leaks :
    ∃ p, LedgerRun p ∧ p.1.pc 0 = .returned ∧ p.1.threads = [0] ∧ p.2 = [] ∧ p.1.q.globalThreadList = some 0 :=
  ⟨(initMn 1 (fun _ => 0) ⟨none, 0, false⟩).ledger ([{ vp := 0, call := .create }, { vp := 0, call := .mnRun }] ++
      List.replicate 7 { vp := 0 } ++ { vp := 0, call := .exit } :: List.replicate 5 { vp := 0 }),
    LedgerRun.after (initMn_start (by decide) _ _) (by decide +kernel), by decide +kernel, by decide +kernel,
    by decide +kernel, by decide +kernel⟩

end Uthread
