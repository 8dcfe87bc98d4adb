import Uthread.Trace
import Uthread.Crowd

/-!
# The Gantt viewer

What `uthread_dump_trace` writes and `processTrace` of `tools/gantt_viewer.html`
makes of it. The viewer keeps one open span for each thread id, and so finds
the runs of every thread.
-/

namespace Uthread

open Linked Spans History

/-- A record of `trace.json`; time stamps are kept in nanoseconds. -/
structure JsonEvent where
  name : TraceEventType
  ph : Phase
  ts : Nat
  tid : Int
  core : Int
  deriving DecidableEq

def TraceEvent.json (ev : TraceEvent) : JsonEvent := ⟨ev.type, ev.type.phase, ev.timestampNs, ev.tid, ev.coreId⟩

def dumpTrace (tr : Trace) : List JsonEvent :=
  match tr.buffer with
  | some buf => (List.range (min tr.count traceBufferSize).toNat).map fun (i : Nat) => (buf i).json
  | none => []

structure OpenSpan where
  startTime : Nat
  type : TraceEventType
  core : Int

structure Span where
  tid : Int
  startTime : Nat
  endTime : Nat
  type : TraceEventType
  endType : Option TraceEventType
  core : Int
  duration : Int
  instant : Bool
  deriving DecidableEq

structure View where
  threadSpans : List Span
  openSpans : Int → Option OpenSpan

def View.event (v : View) (ev : JsonEvent) : View :=
  match ev.ph with
  | .B => { v with openSpans := Function.update v.openSpans ev.tid (some ⟨ev.ts, ev.name, ev.core⟩) }
  | .E =>
    match v.openSpans ev.tid with
    | some o =>
      { threadSpans := v.threadSpans ++
          [⟨ev.tid, o.startTime, ev.ts, o.type, some ev.name, o.core, ev.ts - o.startTime, false⟩]
        openSpans := Function.update v.openSpans ev.tid none }
    | none => v
  | .i => { v with threadSpans := v.threadSpans ++ [⟨ev.tid, ev.ts, ev.ts, ev.name, none, ev.core, 0, true⟩] }

def viewSpans (events : List JsonEvent) : View := events.foldl View.event ⟨[], fun _ => none⟩

/-- `processTrace` up to its drawing; `none` is the alert for a file without events. -/
def processTrace (events : List JsonEvent) : Option View :=
  if events.isEmpty then none else some (viewSpans (events.mergeSort fun a b => a.ts ≤ b.ts))

def View.durations (v : View) : List Span := v.threadSpans.filter fun sp => !sp.instant

def spanOf (p : JsonEvent × JsonEvent) : Span :=
  ⟨p.2.tid, p.1.ts, p.2.ts, p.1.name, some p.2.name, p.1.core, p.2.ts - p.1.ts, false⟩

variable {s : Sys} {l : List JsonEvent} {ev : JsonEvent} {x : Int} {c : Core}

/-! ## The spans of a file -/

theorem viewSpans_reverse_cons : viewSpans (ev :: l).reverse = (viewSpans l.reverse).event ev := by
  unfold viewSpans
  rw [List.reverse_cons, List.foldl_append]
  rfl

def openOf (ev : JsonEvent) : OpenSpan := ⟨ev.ts, ev.name, ev.core⟩

theorem viewSpans_open (l : List JsonEvent) (x : Int) :
    (viewSpans l.reverse).openSpans x = (opened JsonEvent.ph JsonEvent.tid x l).map openOf := by
  induction l with
  | nil => rfl
  | cons ev l ih =>
    rw [viewSpans_reverse_cons]
    by_cases hx : ev.tid = x
    · subst hx
      cases hp : ev.ph with
      | B =>
        rw [opened_begin rfl hp]
        simp [View.event, hp, openOf]
      | E =>
        rw [opened_end rfl hp]
        cases ho : (viewSpans l.reverse).openSpans ev.tid <;> simp [View.event, hp, ho]
      | i =>
        rw [opened_skip fun _ => hp, ← ih]
        simp [View.event, hp]
    · rw [opened_skip fun h => absurd h hx, ← ih]
      cases hp : ev.ph with
      | B => simp [View.event, hp, Ne.symm hx]
      | E => cases ho : (viewSpans l.reverse).openSpans ev.tid <;> simp [View.event, hp, ho, Ne.symm hx]
      | i => simp [View.event, hp]

theorem viewSpans_durations (l : List JsonEvent) :
    (viewSpans l.reverse).durations = (closed JsonEvent.ph JsonEvent.tid l).reverse.map spanOf := by
  induction l with
  | nil => rfl
  | cons ev l ih =>
    rw [viewSpans_reverse_cons]
    have hopen := viewSpans_open l ev.tid
    cases hp : ev.ph with
    | B =>
      rw [closed_skip (by simp [hp]), ← ih]
      simp [View.event, hp, View.durations]
    | E =>
      rw [closed_end hp]
      cases ho : opened JsonEvent.ph JsonEvent.tid ev.tid l with
      | none =>
        rw [ho] at hopen
        simpa [View.event, hp, hopen] using ih
      | some b =>
        rw [ho] at hopen
        unfold View.durations at ih ⊢
        simp [View.event, hp, hopen, openOf, spanOf, ih]
    | i =>
      rw [closed_skip (by simp [hp]), ← ih]
      simp [View.event, hp, View.durations]

/-! ## The file of a run -/

theorem stored_eq (buf : Int → TraceEvent) (n : Nat) : (stored buf n).reverse = (List.range n).map fun (i : Nat) => buf i := by
  induction n with
  | zero => rfl
  | succ n ih => rw [stored, List.reverse_cons, ih, List.range_succ, List.map_append]; rfl

theorem Trace.dump_eq {tr : Trace} (hn : tr.count ≤ traceBufferSize) :
    dumpTrace tr = (tr.recorded.map TraceEvent.json).reverse := by
  unfold dumpTrace Trace.recorded
  cases tr.buffer with
  | none => rfl
  | some buf =>
    rw [min_eq_left hn]
    simp only
    rw [← List.map_reverse, stored_eq, List.map_map]
    rfl

theorem dumpTrace_eq (hn : c.tr.count ≤ traceBufferSize) : dumpTrace c.tr = (c.recorded.map TraceEvent.json).reverse :=
  Trace.dump_eq hn

abbrev jsonOf (p : Ptr × TraceEvent) : JsonEvent := p.2.json

/-- The runs of the threads: every end event of a thread behind a begin event of that thread. -/
def Sys.runs (s : Sys) : List (JsonEvent × JsonEvent) :=
  ((closed markOf Prod.fst s.history).map (Prod.map jsonOf jsonOf)).reverse

/-- The begin and end events of one thread id alternate, and start with an end event only for the thread
that enabled the trace. -/
structure Alternating (s : Sys) (x : Int) : Prop where
  alternate : ((dumpTrace s.tr).filter fun ev => ev.tid = x ∧ ev.ph ≠ .i).IsChain fun a b => a.ph ≠ b.ph
  first : ∀ ev, ((dumpTrace s.tr).filter fun ev => ev.tid = x ∧ ev.ph ≠ .i).head? = some ev → ev.ph = .E →
    ∃ t, enabler s.log = some t ∧ s.tcb.threadId t = x

structure Rebuilt (s : Sys) (v : View) : Prop where
  overwrites : ∀ pre ev post, dumpTrace s.tr = pre ++ ev :: post → ev.ph = .B → (viewSpans pre).openSpans ev.tid = none
  spans : v.durations = s.runs.map spanOf
  disjoint : v.durations.Pairwise fun a b => a.tid = b.tid → a.endTime ≤ b.startTime

variable {a : Abs}

theorem Traced.dump (h : Traced a) : dumpTrace a.tr = (a.history.map jsonOf).reverse := by
  rw [dumpTrace_eq h.bound]
  have hsnd : a.recorded = a.history.map Prod.snd := (List.map_snd_zip h.length.ge).symm
  rw [hsnd, List.map_map]
  rfl

theorem filter_marks (l : List (Ptr × TraceEvent)) :
    ((l.map jsonOf).reverse.filter fun ev => ev.tid = x ∧ ev.ph ≠ .i) = ((marks markOf tidOf x l).map jsonOf).reverse := by
  unfold marks
  rw [List.filter_reverse, List.filter_map]
  rfl

theorem Traced.alternate (h : Traced a) :
    ((dumpTrace a.tr).filter fun ev => ev.tid = x ∧ ev.ph ≠ .i).IsChain fun a b => a.ph ≠ b.ph := by
  rw [h.dump, filter_marks, List.isChain_reverse, List.isChain_map]
  exact (h.sound.alternates (k := x)).imp fun _ _ hne => hne.symm

theorem Traced.firstMark (h : Traced a) (hhead : ((dumpTrace a.tr).filter fun ev => ev.tid = x ∧ ev.ph ≠ .i).head? = some ev)
    (hE : ev.ph = .E) : ∃ t, enabler a.log = some t ∧ a.tcb.threadId t = x := by
  rw [h.dump, filter_marks, List.head?_reverse, List.getLast?_map, Option.map_eq_some_iff] at hhead
  obtain ⟨p, hp, rfl⟩ := hhead
  obtain ⟨l₁, l₂, hl, hn, rfl⟩ := first_mark hp
  refine ⟨p.1, always_iff.mp h.first l₁ p l₂ hl hE hn, ?_⟩
  exact (h.ids p (by rw [hl]; simp)).2.symm

theorem Traced.overwrites (h : Traced a) {pre post : List JsonEvent} (hd : dumpTrace a.tr = pre ++ ev :: post)
    (hB : ev.ph = .B) : (viewSpans pre).openSpans ev.tid = none := by
  rw [h.dump, List.reverse_eq_iff, List.reverse_append, List.reverse_cons, List.append_assoc] at hd
  obtain ⟨l₁, l₂, hl, -, h₂⟩ := List.map_eq_append_iff.mp hd
  obtain ⟨p, l₂, rfl, rfl, hpre⟩ := List.map_eq_cons_iff.mp h₂
  have hpre : l₂.map jsonOf = pre.reverse := hpre
  have hm : opened markOf tidOf (tidOf p) l₂ = none := (always_iff.mp h.sound l₁ p l₂ hl).1 hB
  have hv := viewSpans_open pre.reverse (jsonOf p).tid
  rw [List.reverse_reverse, ← hpre, opened_map] at hv
  rw [hv]
  change (Option.map jsonOf (opened markOf tidOf (tidOf p) l₂)).map openOf = none
  rw [hm]
  rfl

theorem Traced.spans (h : Traced a) {q : Layout} {g : List Ptr} (hs : s.abs q g = a) :
    (viewSpans (dumpTrace s.tr)).durations = s.runs.map spanOf := by
  subst hs
  have hd := h.dump
  change dumpTrace s.tr = (s.history.map jsonOf).reverse at hd
  rw [hd, viewSpans_durations, closed_map]
  congr 2
  have hids : ∀ p ∈ s.history, ∀ p' ∈ s.history, p.1 = p'.1 → tidOf p = tidOf p' := by
    intro p hp p' hp' he
    have h₁ : p.2.tid = s.tcb.threadId p.1 := (h.ids p hp).2
    have h₂ : p'.2.tid = s.tcb.threadId p'.1 := (h.ids p' hp').2
    change p.2.tid = p'.2.tid
    rw [h₁, h₂, he]
  have howner : closed markOf tidOf s.history = closed markOf Prod.fst s.history := h.sound.closed_owner hids
  change (closed markOf tidOf s.history).map _ = _
  rw [howner]

theorem Stamped.disjoint (h : Stamped a.toCore) (ht : Traced a) :
    (viewSpans (dumpTrace a.tr)).durations.Pairwise fun p q => p.tid = q.tid → p.endTime ≤ q.startTime := by
  have hts : (a.history.map jsonOf).Pairwise fun p q => q.ts ≤ p.ts := by
    have hsnd : a.recorded = a.history.map Prod.snd := (List.map_snd_zip ht.length.ge).symm
    have hsort := h.sorted
    rw [hsnd, List.pairwise_map] at hsort
    exact List.pairwise_map.mpr hsort
  rw [ht.dump, viewSpans_durations, List.pairwise_map, List.pairwise_reverse]
  refine (closed_disjoint hts).imp fun hpq he => hpq ?_
  exact he.symm

theorem Stamped.sort (h : Stamped a.toCore) (ht : Traced a) :
    (dumpTrace a.tr).mergeSort (fun a b => a.ts ≤ b.ts) = dumpTrace a.tr := by
  have hsnd : a.recorded = a.history.map Prod.snd := (List.map_snd_zip ht.length.ge).symm
  have hsort := h.sorted
  rw [hsnd, List.pairwise_map] at hsort
  apply List.mergeSort_of_pairwise
  rw [ht.dump, List.pairwise_reverse, List.pairwise_map]
  exact hsort.imp fun hle => decide_eq_true hle

/-- Without two RUNNING threads of one id: the begin and end events of every thread id alternate, and with a
monotone clock the viewer rebuilds the runs of the threads from the file. -/
theorem trace_rebuilt (h : Sys.Reachable s) (hok : ∀ e ∈ s.log, e.clashes = false) :
    (∀ x, Alternating s x) ∧
      (Monotone (fun i => s.clock i % 2 ^ 64) → ∀ v, processTrace (dumpTrace s.tr) = some v → Rebuilt s v) := by
  obtain ⟨q, g, hs, ht, hst⟩ := reachable_traced h hok
  refine ⟨fun x => ⟨ht.alternate, fun ev => ht.firstMark⟩, fun hm v hv => ?_⟩
  have hsort : (dumpTrace s.tr).mergeSort (fun a b => a.ts ≤ b.ts) = dumpTrace s.tr := (hst hm).sort (a := s.abs q g) ht
  unfold processTrace at hv
  rw [hsort, Option.ite_none_left_eq_some, Option.some.injEq] at hv
  rw [← hv.2]
  exact ⟨fun pre ev post => ht.overwrites, ht.spans rfl, (hst hm).disjoint (a := s.abs q g) ht⟩

/-- Two threads take turns. -/
theorem trace_rebuilt_turns :
    let s := Sys.after (fun i => min i 100) [.call .traceEnable {}, .call (.create 0) {}, .resume {}, .resume {}, .call .yield {}, .resume {},
      .resume {}, .resume {}, .call .yield {}, .resume {}, .resume {}]
    (s.runs.map fun p => (p.1.ts, p.2.ts, p.1.tid)) = [(3, 5, 1)] ∧ (∀ x, Alternating s x) ∧
      ∃ v, processTrace (dumpTrace s.tr) = some v ∧ Rebuilt s v := by
  intro s
  have h := trace_rebuilt (s := s) (Sys.reachable_after (by decide +kernel)) (by decide +kernel)
  have hm : Monotone fun i => s.clock i % 2 ^ 64 := by
    have hc : s.clock = fun i => min i 100 := rfl
    intro i j hij
    simp only [hc]
    omega
  exact ⟨by decide +kernel, h.1, _, if_neg (by decide +kernel), h.2 hm _ (if_neg (by decide +kernel))⟩

/-! ## Thread ids that come round -/

/-- When `next_thread_id` has come round, a new thread has the id of the main thread. Its idle loop leaves it
RUNNING and dispatches the main thread. -/
def sharedId : Option Sys :=
  Trans.exec Sys.step (crowded (fun i => if i ≤ 6 then 0 else if i ≤ 9 then 5000000 else 100000000) (2 ^ 32 - 1))
    [.call (.create 0) {}, .resume {}, .resume {}, .call .traceEnable {}, .call (.sleep 20) {}, .resume {}, .resume {}, .resume {},
      .call (.sleep 1) {}, .resume {}, .resume {}, .tick, .resume {}, .resume {}, .resume {}, .resume {}, .resume {},
      .resume {}]

theorem ids_overwrite : ¬ ∀ s, Sys.Reachable s → ∀ x, Alternating s x := by
  intro h
  obtain ⟨s, hs⟩ := Option.isSome_iff_exists.mp (by decide +kernel : sharedId.isSome)
  have hr : Sys.Reachable s := (reachable_crowded _ _).exec (fun _ _ => trivial) hs
  have hmarks : sharedId.map (fun s => ((dumpTrace s.tr).filter fun ev => ev.tid = 0 ∧ ev.ph ≠ .i).map JsonEvent.ph) =
      some [.E, .B, .E, .B, .B] := by decide +kernel
  rw [hs, Option.map_some, Option.some.injEq] at hmarks
  have ha := (h s hr 0).alternate
  rw [← List.isChain_map JsonEvent.ph (R := (· ≠ ·)), hmarks] at ha
  revert ha
  decide

end Uthread
