import Uthread.Sched
import Uthread.Lib.DList

/-!
# Collection in memory that is freed

`gc_finished_threads` once more, over memory in which a freed TCB is gone: a
load from it or a store to it fails, and so does a second `free`. What this
collection does is then transferred to `Sys.gcFinishedThreads`, whose memory
keeps the fields of freed TCBs.
-/

namespace Uthread

open Linked

structure GcCell where
  state : TState
  globalPrev : Option Ptr
  globalNext : Option Ptr

structure GcHeap where
  -- the allocated TCBs
  cell : Ptr → Option GcCell
  globalThreadList : Option Ptr

namespace GcHeap

def setNext (p : Ptr) (v : Option Ptr) (h : GcHeap) : Option GcHeap :=
  (h.cell p).map fun c => { h with cell := Function.update h.cell p (some { c with globalNext := v }) }

def setPrev (p : Ptr) (v : Option Ptr) (h : GcHeap) : Option GcHeap :=
  (h.cell p).map fun c => { h with cell := Function.update h.cell p (some { c with globalPrev := v }) }

def free (p : Ptr) (h : GcHeap) : Option GcHeap :=
  (h.cell p).map fun _ => { h with cell := Function.update h.cell p none }

/-- `prev->global_next = v`, or `global_thread_list = v` if there is no `prev` -/
def linkNext (prev v : Option Ptr) (h : GcHeap) : Option GcHeap :=
  match prev with
  | some prev => h.setNext prev v
  | none => some { h with globalThreadList := v }

def linkPrev (nx v : Option Ptr) (h : GcHeap) : Option GcHeap :=
  match nx with
  | some nx => h.setPrev nx v
  | none => some h

def globalListRemove (tcb : Ptr) (h : GcHeap) : Option GcHeap := do
  let c ← h.cell tcb
  let h ← h.linkNext c.globalPrev c.globalNext
  let c ← h.cell tcb
  let h ← h.linkPrev c.globalNext c.globalPrev
  let h ← h.setPrev tcb none
  h.setNext tcb none

/-- The loop of `gc_finished_threads` at `tcb`, with the TCBs it frees. It fails when it touches
a TCB that is not allocated, and when `n` iterations do not reach the end of the list. -/
def gcLoop (currentThread : Option Ptr) : Nat → Option Ptr → GcHeap → Option (List Ptr × GcHeap)
  | _, none, h => some ([], h)
  | 0, some _, _ => none
  | n + 1, some tcb, h => do
    let c ← h.cell tcb
    let next := c.globalNext
    if c.state = .finished ∧ some tcb ≠ currentThread then
      let h ← h.globalListRemove tcb
      let h ← h.free tcb
      let (ts, h) ← gcLoop currentThread n next h
      some (tcb :: ts, h)
    else gcLoop currentThread n next h

def gcFinishedThreads (currentThread : Option Ptr) (n : Nat) (h : GcHeap) : Option (List Ptr × GcHeap) :=
  gcLoop currentThread n h.globalThreadList h

/-! ## Well-formed lists -/

def next (h : GcHeap) (t : Ptr) : Option Ptr := (h.cell t).bind GcCell.globalNext

def prev (h : GcHeap) (t : Ptr) : Option Ptr := (h.cell t).bind GcCell.globalPrev

def state (h : GcHeap) (t : Ptr) : Option TState := (h.cell t).map GcCell.state

structure WellFormed (h : GcHeap) (g : List Ptr) : Prop where
  live : ∀ t ∈ g, (h.cell t).isSome
  dlist : DList h.next h.prev h.globalThreadList g
  nodup : g.Nodup

def dead (currentThread : Option Ptr) (h : GcHeap) (t : Ptr) : Bool := h.state t = some .finished ∧ some t ≠ currentThread

variable {h h' : GcHeap} {p t : Ptr} {p' v cur : Option Ptr} {xs ys g : List Ptr} {n : Nat}

structure Stored (h h' : GcHeap) (ps : List Ptr) : Prop where
  state : h'.state = h.state
  other : ∀ t, t ∉ ps → h'.cell t = h.cell t

theorem Stored.isSome {ps : List Ptr} (hs : Stored h h' ps) : (h'.cell t).isSome = (h.cell t).isSome := by
  have he : (h'.state t).isSome = (h.state t).isSome := by rw [hs.state]
  simpa only [GcHeap.state, Option.isSome_map] using he

theorem Stored.trans {h'' : GcHeap} {ps qs : List Ptr} (h₁ : Stored h h' ps) (h₂ : Stored h' h'' qs) :
    Stored h h'' (ps ++ qs) where
  state := h₂.state.trans h₁.state
  other t ht := by
    rw [List.mem_append, not_or] at ht
    exact (h₂.other t ht.2).trans (h₁.other t ht.1)

theorem setNext_spec (hp : (h.cell p).isSome) : ∃ h', h.setNext p v = some h' ∧ Stored h h' [p] ∧
    h'.next = Function.update h.next p v ∧ h'.prev = h.prev ∧ h'.globalThreadList = h.globalThreadList := by
  obtain ⟨c, hc⟩ := Option.isSome_iff_exists.mp hp
  refine ⟨{ h with cell := Function.update h.cell p (some { c with globalNext := v }) }, ?_, ⟨?_, ?_⟩, ?_, ?_, rfl⟩
  · simp [setNext, hc]
  · funext t
    by_cases ht : t = p <;> simp [state, ht, hc]
  · intro t ht
    exact Function.update_of_ne (by simpa using ht) ..
  · funext t
    by_cases ht : t = p <;> simp [next, ht]
  · funext t
    by_cases ht : t = p <;> simp [prev, ht, hc]

theorem setPrev_spec (hp : (h.cell p).isSome) : ∃ h', h.setPrev p v = some h' ∧ Stored h h' [p] ∧
    h'.next = h.next ∧ h'.prev = Function.update h.prev p v ∧ h'.globalThreadList = h.globalThreadList := by
  obtain ⟨c, hc⟩ := Option.isSome_iff_exists.mp hp
  refine ⟨{ h with cell := Function.update h.cell p (some { c with globalPrev := v }) }, ?_, ⟨?_, ?_⟩, ?_, ?_, rfl⟩
  · simp [setPrev, hc]
  · funext t
    by_cases ht : t = p <;> simp [state, ht, hc]
  · intro t ht
    exact Function.update_of_ne (by simpa using ht) ..
  · funext t
    by_cases ht : t = p <;> simp [next, ht, hc]
  · funext t
    by_cases ht : t = p <;> simp [prev, ht]

theorem linkNext_spec (hp : ∀ u, p' = some u → u ∈ xs ∧ (h.cell u).isSome) :
    ∃ h', h.linkNext p' v = some h' ∧ Stored h h' xs ∧ h'.next = relink h.next p' v ∧ h'.prev = h.prev ∧
      h'.globalThreadList = entry p' h.globalThreadList v := by
  cases p' with
  | none => exact ⟨_, rfl, ⟨rfl, fun _ _ => rfl⟩, rfl, rfl, rfl⟩
  | some u =>
    obtain ⟨hu, hc⟩ := hp u rfl
    obtain ⟨h', he, hs, hn, hp', hg⟩ := setNext_spec (v := v) hc
    refine ⟨h', he, ⟨hs.state, fun t ht => hs.other t ?_⟩, hn, hp', hg⟩
    rintro htu
    rw [List.mem_singleton.mp htu] at ht
    exact ht hu

theorem linkPrev_spec (hp : ∀ u, p' = some u → u ∈ xs ∧ (h.cell u).isSome) :
    ∃ h', h.linkPrev p' v = some h' ∧ Stored h h' xs ∧ h'.next = h.next ∧ h'.prev = relink h.prev p' v ∧
      h'.globalThreadList = h.globalThreadList := by
  cases p' with
  | none => exact ⟨_, rfl, ⟨rfl, fun _ _ => rfl⟩, rfl, rfl, rfl⟩
  | some u =>
    obtain ⟨hu, hc⟩ := hp u rfl
    obtain ⟨h', he, hs, hn, hp', hg⟩ := setPrev_spec (v := v) hc
    refine ⟨h', he, ⟨hs.state, fun t ht => hs.other t ?_⟩, hn, hp', hg⟩
    rintro htu
    rw [List.mem_singleton.mp htu] at ht
    exact ht hu

theorem WellFormed.remove (hw : WellFormed h (xs ++ t :: ys)) :
    ∃ h', h.globalListRemove t = some h' ∧ WellFormed h' (xs ++ ys) ∧ Stored h h' (xs ++ t :: ys) := by
  have hlive : ∀ {u}, u ∈ xs ++ t :: ys → (h.cell u).isSome := hw.live _
  have hpt : h.prev t = xs.getLast? := back_mid hw.dlist.back
  have hnt : h.next t = ys.head? := chain_next hw.dlist.fwd
  have htx : t ∉ xs := fun hm => (List.nodup_append.mp hw.nodup).2.2 t hm t (by simp) rfl
  obtain ⟨c, hc⟩ := Option.isSome_iff_exists.mp (hlive (u := t) (by simp))
  have hcp : c.globalPrev = h.prev t := by simp [prev, hc]
  have hcn : c.globalNext = h.next t := by simp [next, hc]
  -- the predecessor or the head, and the back link of the successor
  have hpred : ∀ u, h.prev t = some u → u ∈ xs ∧ (h.cell u).isSome := by
    intro u hu
    rw [hpt] at hu
    have hm := List.mem_of_getLast? hu
    exact ⟨hm, hlive (by simp [hm])⟩
  obtain ⟨h₁, he₁, hs₁, hn₁, hp₁, hg₁⟩ := linkNext_spec (v := h.next t) hpred
  have hc₁ : h₁.cell t = some c := (hs₁.other t htx).trans hc
  have hsucc : ∀ u, h.next t = some u → u ∈ ys ∧ (h₁.cell u).isSome := by
    intro u hu
    rw [hnt] at hu
    have hm := List.mem_of_head? hu
    exact ⟨hm, by rw [hs₁.isSome]; exact hlive (by simp [hm])⟩
  obtain ⟨h₂, he₂, hs₂, hn₂, hp₂, hg₂⟩ := linkPrev_spec (v := h.prev t) hsucc
  have hs₁₂ := hs₁.trans hs₂
  -- the links of the TCB itself
  obtain ⟨h₃, he₃, hs₃, hn₃, hp₃, hg₃⟩ := setPrev_spec (h := h₂) (v := none) (p := t)
    (by rw [hs₁₂.isSome, hc]; rfl)
  obtain ⟨h₄, he₄, hs₄, hn₄, hp₄, hg₄⟩ := setNext_spec (h := h₃) (v := none) (p := t)
    (by rw [(hs₁₂.trans hs₃).isSome, hc]; rfl)
  have hs := (hs₁₂.trans hs₃).trans hs₄
  refine ⟨h₄, ?_, ⟨?_, ?_, ?_⟩, hs.state, ?_⟩
  · unfold globalListRemove
    simp only [hc, hcp, hcn, he₁, hc₁, he₂, he₃, he₄, Option.bind_eq_bind, Option.bind_some]
  · intro u hu
    rw [hs.isSome]
    apply hlive
    rcases List.mem_append.mp hu with hu | hu <;> simp [hu]
  · rw [hn₄, hp₄, hg₄, hn₃, hp₃, hg₃, hn₂, hp₂, hg₂, hn₁, hp₁, hg₁]
    exact dlist_remove hw.nodup hw.dlist
  · exact (List.nodup_cons.mp (List.nodup_middle.mp hw.nodup)).2
  · intro u hu
    apply hs.other
    simp only [List.mem_append, List.mem_cons, not_or] at hu ⊢
    simp [hu]

theorem WellFormed.free (hw : WellFormed h g) (ht : t ∉ g) (hc : (h.cell t).isSome) :
    ∃ h', h.free t = some h' ∧ WellFormed h' g ∧ h'.cell t = none ∧ ∀ u, u ≠ t → h'.cell u = h.cell u := by
  obtain ⟨c, hc⟩ := Option.isSome_iff_exists.mp hc
  let h' : GcHeap := { h with cell := Function.update h.cell t none }
  have hoth : ∀ u, u ≠ t → h'.cell u = h.cell u := fun u hu => Function.update_of_ne hu ..
  have hmem : ∀ u ∈ g, h'.cell u = h.cell u := fun u hu => hoth u fun e => ht (e ▸ hu)
  refine ⟨h', by simp [GcHeap.free, hc, h'], ⟨?_, ⟨?_, ?_⟩, hw.nodup⟩, Function.update_self .., hoth⟩
  · intro u hu
    rw [hmem u hu]
    exact hw.live u hu
  · exact (seg_congr fun u hu => by simp [next, hmem u hu]).mpr hw.dlist.fwd
  · exact (back_congr fun u hu => by simp [prev, hmem u hu]).mpr hw.dlist.back

structure Swept (h h' : GcHeap) (g ts : List Ptr) : Prop where
  freed : ∀ t ∈ ts, h'.cell t = none
  state : ∀ t, t ∉ ts → h'.state t = h.state t
  other : ∀ t, t ∉ g → h'.cell t = h.cell t

/-- With the TCBs `xs` passed and `ys` still to be visited, the loop touches no freed TCB and ends. -/
theorem WellFormed.gcLoop (cur : Option Ptr) : ∀ {n : Nat} (xs : List Ptr) {ys : List Ptr} {h : GcHeap}, WellFormed h (xs ++ ys) →
    ys.length ≤ n → ∃ h', GcHeap.gcLoop cur n ys.head? h = some (ys.filter (h.dead cur), h') ∧
      WellFormed h' (xs ++ ys.filter fun t => !h.dead cur t) ∧ Swept h h' (xs ++ ys) (ys.filter (h.dead cur))
  | n, xs, [], h, hw, _ => by
    refine ⟨h, ?_, by simpa using hw, ⟨by simp, fun _ _ => rfl, fun _ _ => rfl⟩⟩
    cases n <;> rfl
  | 0, xs, y :: ys, h, _, hn => by simp at hn
  | n + 1, xs, y :: ys, h, hw, hn => by
    have hn : ys.length ≤ n := by simpa using hn
    obtain ⟨c, hc⟩ := Option.isSome_iff_exists.mp (hw.live y (by simp))
    have hnx : c.globalNext = ys.head? := by
      have := chain_next hw.dlist.fwd
      simpa [next, hc] using this
    have hdy : h.dead cur y = decide (c.state = .finished ∧ some y ≠ cur) := by simp [dead, state, hc]
    have hnd := List.nodup_cons.mp (List.nodup_middle.mp hw.nodup)
    by_cases hd : c.state = .finished ∧ some y ≠ cur
    · obtain ⟨h₁, he₁, hw₁, hs₁⟩ := hw.remove
      obtain ⟨h₂, he₂, hw₂, hf₂, ho₂⟩ := hw₁.free hnd.1 (by rw [hs₁.isSome, hc]; rfl)
      have hst : ∀ t, t ≠ y → h₂.state t = h.state t := by
        intro t ht
        have := congrFun hs₁.state t
        simpa [GcHeap.state, ho₂ t ht] using this
      -- the threads ahead are judged as before
      have hdead : ∀ t ∈ ys, h₂.dead cur t = h.dead cur t := by
        intro t ht
        have hty : t ≠ y := fun e => hnd.1 (by simp [← e, ht])
        simp [dead, hst t hty]
      obtain ⟨h', he', hw', hsw⟩ := WellFormed.gcLoop cur xs hw₂ hn
      rw [List.filter_congr hdead] at he' hsw
      rw [List.filter_congr fun t ht => by rw [hdead t ht]] at hw'
      have hy : h.dead cur y = true := by simpa [hdy] using hd
      have hyf : y ∉ ys.filter (h.dead cur) := fun hm => hnd.1 (by simp [List.mem_of_mem_filter hm])
      refine ⟨h', ?_, ?_, ?_, ?_, ?_⟩
      · simp only [List.head?_cons, GcHeap.gcLoop, hc, Option.bind_eq_bind, Option.bind_some, if_pos hd, he₁, he₂, hnx, he',
          List.filter_cons, hy, ite_true]
      · simpa [List.filter_cons, hy] using hw'
      · intro t ht
        rw [List.filter_cons, if_pos hy] at ht
        rcases List.mem_cons.mp ht with rfl | ht
        · exact (hsw.other t hnd.1).trans hf₂
        · exact hsw.freed t ht
      · intro t ht
        rw [List.filter_cons, if_pos hy, List.mem_cons, not_or] at ht
        exact (hsw.state t ht.2).trans (hst t ht.1)
      · intro t ht
        simp only [List.mem_append, List.mem_cons, not_or] at ht
        have ht' : t ∉ xs ++ ys := by simp [ht]
        rw [hsw.other t ht', ho₂ t ht.2.1]
        exact hs₁.other t (by simp [ht])
    · obtain ⟨h', he', hw', hsw⟩ := WellFormed.gcLoop cur (xs ++ [y]) (show WellFormed h (xs ++ [y] ++ ys) by simpa using hw) hn
      have hy : h.dead cur y = false := by simpa [hdy] using hd
      refine ⟨h', ?_, ?_, ?_⟩
      · simp only [List.head?_cons, GcHeap.gcLoop, hc, Option.bind_eq_bind, Option.bind_some, if_neg hd, hnx, he',
          List.filter_cons, hy, Bool.false_eq_true, ite_false]
      · simpa [List.filter_cons, hy] using hw'
      · simpa [List.filter_cons, hy] using hsw

end GcHeap

/-! ## The collection of the model -/

def GcHeap.view (l : Links) (state : Ptr → TState) (live : Ptr → Bool) : GcHeap where
  cell t := if live t then some ⟨state t, l.globalPrev t, l.globalNext t⟩ else none
  globalThreadList := l.globalThreadList

def Sys.gcHeap (live : Ptr → Bool) (s : Sys) : GcHeap := .view s.lk s.tcb.state live

namespace Links

def linkNext (prev v : Option Ptr) (l : Links) : Links :=
  match prev with
  | some prev => { l with globalNext := Function.update l.globalNext prev v }
  | none => { l with globalThreadList := v }

def linkPrev (nx v : Option Ptr) (l : Links) : Links :=
  match nx with
  | some nx => { l with globalPrev := Function.update l.globalPrev nx v }
  | none => l

theorem globalListRemove_eq (l : Links) (t : Ptr) :
    let l₁ := l.linkNext (l.globalPrev t) (l.globalNext t)
    let l₂ := l₁.linkPrev (l₁.globalNext t) (l₁.globalPrev t)
    l.globalListRemove t = { l₂ with
      globalPrev := Function.update l₂.globalPrev t none
      globalNext := Function.update l₂.globalNext t none } := by
  unfold globalListRemove linkNext linkPrev
  cases l.globalPrev t <;> rfl

end Links

def frees (l : List Event) : List Ptr :=
  l.filterMap fun
    | .freed t _ _ => some t
    | _ => none

namespace GcHeap

variable {l : Links} {st : Ptr → TState} {live : Ptr → Bool} {h' : GcHeap} {t p : Ptr} {p' v cur : Option Ptr} {ts : List Ptr}

theorem view_cell {c : GcCell} (hc : (view l st live).cell t = some c) :
    live t = true ∧ c = ⟨st t, l.globalPrev t, l.globalNext t⟩ := by
  simp only [view, Option.ite_none_right_eq_some, Option.some.injEq] at hc
  exact ⟨hc.1, hc.2.symm⟩

theorem setNext_view (h : (view l st live).setNext p v = some h') :
    h' = view { l with globalNext := Function.update l.globalNext p v } st live := by
  obtain ⟨c, hc, rfl⟩ := Option.map_eq_some_iff.mp h
  obtain ⟨hl, rfl⟩ := view_cell hc
  unfold view
  congr
  funext u
  by_cases hu : u = p
  · subst hu
    simp [hl]
  · simp [hu]

theorem setPrev_view (h : (view l st live).setPrev p v = some h') :
    h' = view { l with globalPrev := Function.update l.globalPrev p v } st live := by
  obtain ⟨c, hc, rfl⟩ := Option.map_eq_some_iff.mp h
  obtain ⟨hl, rfl⟩ := view_cell hc
  unfold view
  congr
  funext u
  by_cases hu : u = p
  · subst hu
    simp [hl]
  · simp [hu]

theorem free_view (h : (view l st live).free t = some h') : h' = view l st fun u => live u && decide (u ≠ t) := by
  obtain ⟨c, -, rfl⟩ := Option.map_eq_some_iff.mp h
  unfold view
  congr
  funext u
  by_cases hu : u = t
  · subst hu
    simp
  · simp [hu]

theorem linkNext_view (h : (view l st live).linkNext p' v = some h') :
    h' = view (l.linkNext p' v) st live := by
  cases p' with
  | some p => exact setNext_view h
  | none =>
    cases h
    rfl

theorem linkPrev_view (h : (view l st live).linkPrev p' v = some h') :
    h' = view (l.linkPrev p' v) st live := by
  cases p' with
  | some p => exact setPrev_view h
  | none =>
    cases h
    rfl

theorem globalListRemove_view (h : (view l st live).globalListRemove t = some h') :
    h' = view (l.globalListRemove t) st live := by
  obtain ⟨c, hc, h⟩ := Option.bind_eq_some_iff.mp h
  obtain ⟨h₁, h₁', h⟩ := Option.bind_eq_some_iff.mp h
  obtain ⟨c₁, hc₁, h⟩ := Option.bind_eq_some_iff.mp h
  obtain ⟨h₂, h₂', h⟩ := Option.bind_eq_some_iff.mp h
  obtain ⟨h₃, h₃', h₄⟩ := Option.bind_eq_some_iff.mp h
  obtain ⟨-, rfl⟩ := view_cell hc
  rw [linkNext_view h₁'] at hc₁ h₂'
  obtain ⟨-, rfl⟩ := view_cell hc₁
  rw [linkPrev_view h₂'] at h₃'
  rw [setPrev_view h₃'] at h₄
  rw [setNext_view h₄, Links.globalListRemove_eq]

theorem gcLoop_view : ∀ {n : Nat} {p' : Option Ptr} {s : Sys} {live : Ptr → Bool} {ts : List Ptr} {h' : GcHeap},
    gcLoop (some s.currentThread) n p' (s.gcHeap live) = some (ts, h') →
    h' = (Sys.gcLoop n p' s).gcHeap (fun t => live t && decide (t ∉ ts)) ∧
      frees (Sys.gcLoop n p' s).log = ts.reverse ++ frees s.log
  | n, none, s, live, ts, h', h => by
    have he : Sys.gcLoop n none s = s := by cases n <;> rfl
    have : (([] : List Ptr), s.gcHeap live) = (ts, h') := by cases n <;> exact Option.some.inj h
    cases this
    rw [he]
    simp
  | 0, some t, s, live, ts, h', h => by cases h
  | n + 1, some t, s, live, ts, h', h => by
    obtain ⟨c, hc, h⟩ := Option.bind_eq_some_iff.mp h
    obtain ⟨-, rfl⟩ := view_cell hc
    simp only [Sys.gcLoop]
    by_cases hd : s.tcb.state t = .finished ∧ t ≠ s.currentThread
    · rw [if_pos hd]
      rw [if_pos (by simpa using hd)] at h
      obtain ⟨h₁, he₁, h⟩ := Option.bind_eq_some_iff.mp h
      obtain ⟨h₂, he₂, h⟩ := Option.bind_eq_some_iff.mp h
      obtain ⟨⟨ts', h₃⟩, he₃, h⟩ := Option.bind_eq_some_iff.mp h
      cases h
      rw [globalListRemove_view he₁] at he₂
      rw [free_view he₂] at he₃
      obtain ⟨hv, hf⟩ := gcLoop_view
        (s := ((({ s with lk := s.lk.globalListRemove t } : Sys).on (.freeGuardedStack t)).on (.free t))) he₃
      refine ⟨hv.trans ?_, hf.trans ?_⟩
      · congr
        funext u
        simp [Bool.and_assoc]
      · have hfree : frees (Core.free t (Core.freeGuardedStack t s.toCore)).log = t :: frees s.log := by
          change frees (_ :: (Core.freeGuardedStack t s.toCore).log) = _
          unfold Core.freeGuardedStack
          split <;> rfl
        rw [show ((({ s with lk := s.lk.globalListRemove t } : Sys).on (.freeGuardedStack t)).on (.free t)).log =
          (Core.free t (Core.freeGuardedStack t s.toCore)).log from rfl, hfree]
        simp
    · rw [if_neg hd]
      rw [if_neg (by simpa using hd)] at h
      exact gcLoop_view h

end GcHeap

/-- Collection ends, touches no TCB that it has freed, frees exactly the FINISHED threads other than the
current one, and leaves the list of the others in their order. -/
theorem gc_sweeps {h : GcHeap} {g : List Ptr} {n : Nat} (hw : h.WellFormed g) (hn : g.length ≤ n) (cur : Option Ptr) :
    ∃ h', h.gcFinishedThreads cur n = some (g.filter (h.dead cur), h') ∧
      h'.WellFormed (g.filter fun t => !h.dead cur t) ∧ GcHeap.Swept h h' g (g.filter (h.dead cur)) ∧
      ∀ s : Sys, ∀ live, s.gcHeap live = h → some s.currentThread = cur → s.fuel = n →
        s.gcFinishedThreads.gcHeap (fun t => live t && decide (t ∉ g.filter (h.dead cur))) = h' ∧
          frees s.gcFinishedThreads.log = (g.filter (h.dead cur)).reverse ++ frees s.log := by
  obtain ⟨h', he, hw', hsw⟩ := GcHeap.WellFormed.gcLoop cur [] hw hn
  have hh : h.globalThreadList = g.head? := chain_head hw.dlist.fwd
  rw [← hh] at he
  refine ⟨h', he, hw', hsw, ?_⟩
  rintro s live rfl rfl rfl
  obtain ⟨hv, hf⟩ := GcHeap.gcLoop_view he
  exact ⟨hv.symm, hf⟩

/-- The first two threads are freed, and the last one, which is FINISHED too, is the current thread. -/
theorem gc_sweeps_front :
    let cell : Ptr → Option GcCell
      | 4 => some ⟨.finished, none, some 3⟩
      | 3 => some ⟨.finished, some 4, some 2⟩
      | 2 => some ⟨.ready, some 3, some 1⟩
      | 1 => some ⟨.finished, some 2, none⟩
      | _ => none
    let h : GcHeap := ⟨cell, some 4⟩
    [4, 3, 2, 1].filter (h.dead (some 1)) = [4, 3] ∧
    ∃ h', h.gcFinishedThreads (some 1) 4 = some ([4, 3, 2, 1].filter (h.dead (some 1)), h') ∧
      h'.WellFormed ([4, 3, 2, 1].filter fun t => !h.dead (some 1) t) ∧
      GcHeap.Swept h h' [4, 3, 2, 1] ([4, 3, 2, 1].filter (h.dead (some 1))) ∧
      ∀ s : Sys, ∀ live, s.gcHeap live = h → some s.currentThread = some 1 → s.fuel = 4 →
        s.gcFinishedThreads.gcHeap (fun t => live t && decide (t ∉ [4, 3, 2, 1].filter (h.dead (some 1)))) = h' ∧
          frees s.gcFinishedThreads.log = ([4, 3, 2, 1].filter (h.dead (some 1))).reverse ++ frees s.log := by
  intro cell h
  have hw : h.WellFormed [4, 3, 2, 1] :=
    ⟨by simp [h, cell], ⟨⟨rfl, rfl, rfl, rfl, rfl⟩, rfl, rfl, rfl, rfl, trivial⟩, by simp⟩
  exact ⟨by decide, gc_sweeps hw (by simp) (some 1)⟩

end Uthread
