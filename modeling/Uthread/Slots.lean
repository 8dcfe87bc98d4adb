import Mathlib.Data.Finset.Card
import Uthread.Tcb
import Uthread.Lib.Runs

/-!
# Claiming the slots of the trace buffer

Threads on different virtual processors execute `trace_emit`,
`uthread_trace_enable` and `uthread_trace_disable` at the same time. A step is
one access to what they share. The other machines treat a `trace_emit` as one
step; `emit_alone` says that they may, as long as nobody interferes.
-/

namespace Uthread

open Trans

inductive TracePc
  | idle
  -- `trace_emit` behind its test, and behind its `atomic_fetch_add` with and without overflow
  | add (tid : Int) (type : TraceEventType) (coreId : Int)
  | undo
  | write (idx : Int) (tid : Int) (type : TraceEventType) (coreId : Int)
  -- `uthread_trace_enable` behind its `calloc`, and behind its `atomic_store`
  | reset
  | enable
  deriving DecidableEq, Repr

inductive TraceCall
  | emit (tid : Int) (type : TraceEventType) (coreId : Int)
  | enable
  | disable
  deriving DecidableEq, Repr

structure TraceAct where
  thread : Nat
  call : TraceCall := .disable
  now : Nat := 0
  callocOk : Bool := true

structure TraceSys where
  tr : Trace
  pc : Nat → TracePc
  -- history: the slots claimed since the last reset, and the slots ever written
  claimed : List Int
  written : List Int

namespace TraceSys

def goto (e : Nat) (pc : TracePc) (s : TraceSys) : TraceSys := { s with pc := Function.update s.pc e pc }

def setCount (n : Int) (s : TraceSys) : TraceSys := { s with tr := { s.tr with count := n } }

def allocBuffer (ok : Bool) (s : TraceSys) : TraceSys :=
  { s with tr := { s.tr with
      buffer := if s.tr.buffer.isNone && ok then some fun _ => ⟨0, .create, 0, 0⟩ else s.tr.buffer } }

def setEnabled (b : Bool) (s : TraceSys) : TraceSys := { s with tr := { s.tr with enabled := b } }

def writeSlot (idx : Int) (ev : TraceEvent) (s : TraceSys) : TraceSys :=
  { s with
    tr := { s.tr with buffer := s.tr.buffer.map fun b => Function.update b idx ev }
    written := idx :: s.written }

def fetchAdd (size : Int) (e : Nat) (tid : Int) (type : TraceEventType) (coreId : Int) (s : TraceSys) : TraceSys :=
  let idx := s.tr.count
  let s := s.setCount (cint (idx + 1))
  if size ≤ idx then s.goto e .undo
  else { s with claimed := idx :: s.claimed }.goto e (.write idx tid type coreId)

def step (size : Int) (s : TraceSys) (a : TraceAct) : Option TraceSys :=
  let e := a.thread
  match s.pc e with
  | .idle =>
    match a.call with
    | .emit tid type coreId => some (if s.tr.enabled && s.tr.buffer.isSome then s.goto e (.add tid type coreId) else s)
    | .enable => some ((s.allocBuffer a.callocOk).goto e .reset)
    | .disable => some (s.setEnabled false)
  | .add tid type coreId => some (s.fetchAdd size e tid type coreId)
  | .undo => some ((s.setCount (cint (s.tr.count - 1))).goto e .idle)
  | .write idx tid type coreId => some ((s.writeSlot idx ⟨tid, type, a.now % 2 ^ 64, coreId⟩).goto e .idle)
  | .reset => some ({ s.setCount 0 with claimed := [] }.goto e .enable)
  | .enable => some ((s.setEnabled true).goto e .idle)

end TraceSys

def initTrace : TraceSys := ⟨⟨none, 0, false⟩, fun _ => .idle, [], []⟩

variable {s s' : TraceSys} {a : TraceAct} {size idx : Int} {e : Nat} {p : TracePc} {tid coreId : Int} {type : TraceEventType}

/-! ## The steps -/

namespace TraceSys

variable {call : TraceCall} {now : Nat} {ok : Bool}

theorem goto_pc : (s.goto e p).pc e = p := Function.update_self _ _ _

theorem step_emit (hpc : s.pc e = .idle) (hen : (s.tr.enabled && s.tr.buffer.isSome) = true) :
    s.step size ⟨e, .emit tid type coreId, now, ok⟩ = some (s.goto e (.add tid type coreId)) := by
  simp only [step, hpc, hen, if_true]

theorem step_add (hpc : s.pc e = .add tid type coreId) :
    s.step size ⟨e, call, now, ok⟩ = some (s.fetchAdd size e tid type coreId) := by
  simp only [step, hpc]

theorem step_undo (hpc : s.pc e = .undo) :
    s.step size ⟨e, call, now, ok⟩ = some ((s.setCount (cint (s.tr.count - 1))).goto e .idle) := by
  simp only [step, hpc]

theorem step_write (hpc : s.pc e = .write idx tid type coreId) :
    s.step size ⟨e, call, now, ok⟩ = some ((s.writeSlot idx ⟨tid, type, now % 2 ^ 64, coreId⟩).goto e .idle) := by
  simp only [step, hpc]

theorem fetchAdd_full (h : size ≤ s.tr.count) :
    s.fetchAdd size e tid type coreId = (s.setCount (cint (s.tr.count + 1))).goto e .undo := if_pos h

theorem fetchAdd_free (h : s.tr.count < size) : s.fetchAdd size e tid type coreId =
    { s.setCount (cint (s.tr.count + 1)) with claimed := s.tr.count :: s.claimed }.goto e
      (.write s.tr.count tid type coreId) := if_neg (by omega)

end TraceSys

/-! ## Safety -/

/-- The writes are in the buffer, no slot was claimed twice since the last reset, and the count is not negative. -/
structure SlotsSafe (size : Int) (s : TraceSys) : Prop where
  written : ∀ i ∈ s.written, 0 ≤ i ∧ i < size
  claimed : s.claimed.Nodup
  count : 0 ≤ s.tr.count

/-- The step does not reset the count while an emitter is about to undo its
increment, and does not increment the largest `int`. -/
structure Steady (s : TraceSys) (a : TraceAct) : Prop where
  reset : s.pc a.thread = .reset → ∀ e, s.pc e ≠ .undo
  add : (∃ tid type coreId, s.pc a.thread = .add tid type coreId) → s.tr.count < 2 ^ 31 - 1

/-- The slots 0, .., n - 1 are claimed, and the threads `u` are about to undo an increment. -/
structure Slots (size : Int) (s : TraceSys) (n : Nat) (u : Finset Nat) : Prop where
  undo : ∀ e, e ∈ u ↔ s.pc e = .undo
  count : s.tr.count = n + u.card
  small : s.tr.count < 2 ^ 31
  claimed : s.claimed = (List.range n).reverse.map Nat.cast
  bound : ∀ i : Nat, i < n → (i : Int) < size
  full : u.Nonempty → size ≤ n
  write : ∀ e idx tid type coreId, s.pc e = .write idx tid type coreId → 0 ≤ idx ∧ idx < size
  written : ∀ i ∈ s.written, 0 ≤ i ∧ i < size

namespace Slots

variable {n : Nat} {u : Finset Nat}

theorem safe (h : Slots size s n u) : SlotsSafe size s where
  written := h.written
  claimed := by
    rw [h.claimed]
    exact (List.nodup_reverse.mpr List.nodup_range).map fun _ _ => Int.ofNat.inj
  count := by
    rw [h.count]
    omega

theorem quiet (h : Slots size s n u) (hp : s.pc e ≠ .undo) (hp' : p ≠ .undo)
    (hw : ∀ idx tid type coreId, p ≠ .write idx tid type coreId) (hpc : s'.pc = Function.update s.pc e p)
    (hcount : s'.tr.count = s.tr.count) (hcl : s'.claimed = s.claimed)
    (hwr : ∀ i ∈ s'.written, i ∈ s.written ∨ 0 ≤ i ∧ i < size) : Slots size s' n u where
  undo x := by
    rw [hpc, h.undo]
    by_cases hx : x = e
    · subst hx
      simp [hp, hp']
    · rw [Function.update_of_ne hx]
  count := hcount.trans h.count
  small := by
    rw [hcount]
    exact h.small
  claimed := hcl.trans h.claimed
  bound := h.bound
  full := h.full
  write x idx tid type coreId hx := by
    rw [hpc] at hx
    by_cases hxe : x = e
    · subst hxe
      rw [Function.update_self] at hx
      exact absurd hx (hw _ _ _ _)
    · rw [Function.update_of_ne hxe] at hx
      exact h.write _ _ _ _ _ hx
  written i hi := (hwr i hi).elim (h.written i) id

theorem overflow (h : Slots size s n u) (hpc : s.pc e = .add tid type coreId) (hlt : s.tr.count < 2 ^ 31 - 1)
    (hle : size ≤ s.tr.count) : Slots size ((s.setCount (cint (s.tr.count + 1))).goto e .undo) n (insert e u) := by
  have hc := h.count
  have hadd : cint (s.tr.count + 1) = s.tr.count + 1 := cint_of_range (by omega) (by omega)
  have hu : e ∉ u := by
    rw [h.undo, hpc]
    simp
  constructor
  · intro x
    by_cases hx : x = e
    · simp [TraceSys.goto, hx]
    · simp [TraceSys.goto, TraceSys.setCount, hx, h.undo]
  · simp only [TraceSys.goto, TraceSys.setCount, hadd, Finset.card_insert_of_notMem hu]
    omega
  · simp only [TraceSys.goto, TraceSys.setCount, hadd]
    omega
  · exact h.claimed
  · exact h.bound
  · intro _
    -- without an undo the count is `n`, with one all slots were claimed before
    by_cases hne : u.Nonempty
    · exact h.full hne
    · simp only [Finset.not_nonempty_iff_eq_empty.mp hne, Finset.card_empty] at hc
      omega
  · intro x idx tid type coreId hx
    by_cases hxe : x = e
    · simp [TraceSys.goto, hxe] at hx
    · simp only [TraceSys.goto, TraceSys.setCount, Function.update_of_ne hxe] at hx
      exact h.write _ _ _ _ _ hx
  · exact h.written

theorem claim (h : Slots size s n u) (hpc : s.pc e = .add tid type coreId) (hlt : s.tr.count < 2 ^ 31 - 1)
    (hle : s.tr.count < size) :
    Slots size ({ s.setCount (cint (s.tr.count + 1)) with claimed := s.tr.count :: s.claimed }.goto e
      (.write s.tr.count tid type coreId)) (n + 1) u := by
  have hc := h.count
  have hu : u = ∅ := by
    by_contra hne
    have hf := h.full (Finset.nonempty_iff_ne_empty.mpr hne)
    omega
  have hn : s.tr.count = n := by
    rw [hu, Finset.card_empty] at hc
    omega
  have hadd : cint (s.tr.count + 1) = s.tr.count + 1 := cint_of_range (by omega) (by omega)
  constructor
  · intro x
    rw [h.undo]
    by_cases hx : x = e
    · simp [TraceSys.goto, hx, hpc]
    · simp [TraceSys.goto, TraceSys.setCount, hx]
  · simp only [TraceSys.goto, TraceSys.setCount, hadd, hu, Finset.card_empty]
    omega
  · simp only [TraceSys.goto, TraceSys.setCount, hadd]
    omega
  · simp only [TraceSys.goto, TraceSys.setCount, h.claimed, hn, List.range_succ, List.reverse_append]
    rfl
  · intro i hi
    by_cases hin : i < n
    · exact h.bound i hin
    · omega
  · intro hne
    simp [hu] at hne
  · intro x idx tid' type' coreId' hx
    by_cases hxe : x = e
    · simp only [TraceSys.goto, hxe, Function.update_self, TracePc.write.injEq] at hx
      omega
    · simp only [TraceSys.goto, TraceSys.setCount, Function.update_of_ne hxe] at hx
      exact h.write _ _ _ _ _ hx
  · exact h.written

theorem undone (h : Slots size s n u) (hpc : s.pc e = .undo) :
    Slots size ((s.setCount (cint (s.tr.count - 1))).goto e .idle) n (u.erase e) := by
  have hc := h.count
  have hs := h.small
  have hu : e ∈ u := (h.undo e).mpr hpc
  have hpos : 0 < u.card := Finset.card_pos.mpr ⟨e, hu⟩
  have hsub : cint (s.tr.count - 1) = s.tr.count - 1 := cint_of_range (by omega) (by omega)
  constructor
  · intro x
    by_cases hx : x = e
    · simp [TraceSys.goto, hx]
    · simp [TraceSys.goto, TraceSys.setCount, hx, h.undo]
  · simp only [TraceSys.goto, TraceSys.setCount, hsub, Finset.card_erase_of_mem hu]
    omega
  · simp only [TraceSys.goto, TraceSys.setCount, hsub]
    omega
  · exact h.claimed
  · exact h.bound
  · intro _
    exact h.full ⟨e, hu⟩
  · intro x idx tid type coreId hx
    by_cases hxe : x = e
    · simp [TraceSys.goto, hxe] at hx
    · simp only [TraceSys.goto, TraceSys.setCount, Function.update_of_ne hxe] at hx
      exact h.write _ _ _ _ _ hx
  · exact h.written

theorem reset (h : Slots size s n u) (hno : ∀ e, s.pc e ≠ .undo) :
    Slots size ({ s.setCount 0 with claimed := [] }.goto e .enable) 0 ∅ := by
  constructor
  · intro x
    by_cases hx : x = e
    · simp [TraceSys.goto, hx]
    · simp [TraceSys.goto, TraceSys.setCount, hx, hno]
  · rfl
  · simp [TraceSys.goto, TraceSys.setCount]
  · rfl
  · intro i hi
    omega
  · intro hne
    simp at hne
  · intro x idx tid type coreId hx
    by_cases hxe : x = e
    · simp [TraceSys.goto, hxe] at hx
    · simp only [TraceSys.goto, TraceSys.setCount, Function.update_of_ne hxe] at hx
      exact h.write _ _ _ _ _ hx
  · exact h.written

theorem step (h : Slots size s n u) (hst : Steady s a) (hs : s.step size a = some s') : ∃ n u, Slots size s' n u := by
  unfold TraceSys.step at hs
  cases hpc : s.pc a.thread with
  | idle =>
    simp only [hpc] at hs
    cases hcall : a.call with
    | emit tid type coreId =>
      simp only [hcall, Option.some.injEq] at hs
      split at hs
      · subst hs
        exact ⟨n, u, h.quiet (by simp [hpc]) (by simp) (by simp) rfl rfl rfl fun i hi => .inl hi⟩
      · subst hs
        exact ⟨n, u, h⟩
    | enable =>
      simp only [hcall, Option.some.injEq] at hs
      subst hs
      exact ⟨n, u, h.quiet (by simp [hpc]) (by simp) (by simp) rfl rfl rfl fun i hi => .inl hi⟩
    | disable =>
      simp only [hcall, Option.some.injEq] at hs
      subst hs
      refine ⟨n, u, h.quiet (e := a.thread) (p := .idle) (by simp [hpc]) (by simp) (by simp) ?_ rfl rfl fun i hi => .inl hi⟩
      rw [← hpc, Function.update_eq_self]
      rfl
  | add tid type coreId =>
    simp only [hpc, Option.some.injEq] at hs
    subst hs
    have hlt := hst.add ⟨_, _, _, hpc⟩
    by_cases hle : size ≤ s.tr.count
    · rw [TraceSys.fetchAdd_full hle]
      exact ⟨_, _, h.overflow hpc hlt hle⟩
    · have hle := lt_of_not_ge hle
      rw [TraceSys.fetchAdd_free hle]
      exact ⟨_, _, h.claim hpc hlt hle⟩
  | undo =>
    simp only [hpc, Option.some.injEq] at hs
    subst hs
    exact ⟨_, _, h.undone hpc⟩
  | write idx tid type coreId =>
    simp only [hpc, Option.some.injEq] at hs
    subst hs
    refine ⟨n, u, h.quiet (by simp [hpc]) (by simp) (by simp) rfl rfl rfl ?_⟩
    intro i hi
    rcases List.mem_cons.mp hi with rfl | hi
    · exact .inr (h.write _ _ _ _ _ hpc)
    · exact .inl hi
  | reset =>
    simp only [hpc, Option.some.injEq] at hs
    subst hs
    exact ⟨_, _, h.reset (hst.reset hpc)⟩
  | enable =>
    simp only [hpc, Option.some.injEq] at hs
    subst hs
    exact ⟨n, u, h.quiet (by simp [hpc]) (by simp) (by simp) rfl rfl rfl fun i hi => .inl hi⟩

end Slots

abbrev SteadyTrace (size : Int) : TraceSys → Prop := Reach (· = initTrace) (TraceSys.step size) Steady

theorem slots_init : Slots size initTrace 0 ∅ where
  undo e := by simp [initTrace]
  count := rfl
  small := by decide
  claimed := rfl
  bound i hi := by omega
  full h := by simp at h
  write e idx tid type coreId h := by cases h
  written i hi := by cases hi

theorem SteadyTrace.slots (h : SteadyTrace size s) : ∃ n u, Slots size s n u := by
  apply h.inv (I := fun s => ∃ n u, Slots size s n u)
  · rintro s rfl
    exact ⟨0, ∅, slots_init⟩
  · intro s a s' h hok hst
    obtain ⟨n, u, hs⟩ := h
    exact hs.step hok hst

theorem fetchAdd_wraps (hcount : s.tr.count = 2 ^ 31 - 1) : (s.fetchAdd size e tid type coreId).tr.count < 0 := by
  by_cases hle : size ≤ s.tr.count
  · rw [TraceSys.fetchAdd_full hle, hcount]
    simp [TraceSys.goto, TraceSys.setCount, cint]
  · rw [TraceSys.fetchAdd_free (lt_of_not_ge hle), hcount]
    simp [TraceSys.goto, TraceSys.setCount, cint]

theorem undo_below_zero (hpc : s.pc e = .undo) (hcount : s.tr.count = 0) :
    ∃ s', Reach (· = s) (TraceSys.step size) Steady s' ∧ s'.tr.count < 0 := by
  have h₀ : Reach (· = s) (TraceSys.step size) Steady s := .init rfl
  let a : TraceAct := { thread := e }
  refine ⟨(s.setCount (cint (s.tr.count - 1))).goto e .idle, ?_, ?_⟩
  · apply h₀.step (a := a)
    · constructor
      · intro h
        simp [a, hpc] at h
      · intro h
        simp [a, hpc] at h
    · simp only [TraceSys.step, a, hpc]
  · rw [hcount]
    simp [TraceSys.goto, TraceSys.setCount, cint]

/-- Behind a step that is not steady the count is or becomes negative. -/
theorem Slots.not_steady {n : Nat} {u : Finset Nat} (h : Slots size s n u) (hst : ¬ Steady s a)
    (hs : s.step size a = some s') : ∃ s'', Reach (· = s') (TraceSys.step size) Steady s'' ∧ s''.tr.count < 0 := by
  by_cases hadd : ∃ tid type coreId, s.pc a.thread = .add tid type coreId
  · obtain ⟨tid, type, coreId, hpc⟩ := hadd
    have hcount : s.tr.count = 2 ^ 31 - 1 := by
      by_contra hne
      apply hst
      constructor
      · intro hr
        simp [hpc] at hr
      · intro _
        have := h.small
        omega
    simp only [TraceSys.step, hpc, Option.some.injEq] at hs
    subst hs
    exact ⟨_, .init rfl, fetchAdd_wraps hcount⟩
  · have hr : s.pc a.thread = .reset ∧ ∃ e, s.pc e = .undo := by
      by_contra hno
      apply hst
      constructor
      · intro hr e he
        exact hno ⟨hr, e, he⟩
      · intro h
        exact absurd h hadd
    obtain ⟨hr, e, he⟩ := hr
    have hne : e ≠ a.thread := by
      rintro rfl
      simp [hr] at he
    simp only [TraceSys.step, hr, Option.some.injEq] at hs
    subst hs
    apply undo_below_zero (e := e)
    · simp [TraceSys.goto, TraceSys.setCount, hne, he]
    · rfl

/-- In every run of steady steps the slots are claimed safely, and they remain so
in all steady runs behind a step exactly if that is steady as well. -/
theorem trace_slots_iff (h : SteadyTrace size s) : SlotsSafe size s ∧
    ∀ a s', s.step size a = some s' →
      (Steady s a ↔ ∀ s'', Reach (· = s') (TraceSys.step size) Steady s'' → SlotsSafe size s'') := by
  obtain ⟨n, u, hs⟩ := h.slots
  refine ⟨hs.safe, ?_⟩
  intro a s' hst
  constructor
  · intro hok s'' hr
    obtain ⟨n, u, hs''⟩ : ∃ n u, Slots size s'' n u := by
      apply hr.inv (I := fun s => ∃ n u, Slots size s n u)
      · rintro s rfl
        exact hs.step hok hst
      · intro s a s' h hok hst
        obtain ⟨n, u, hs⟩ := h
        exact hs.step hok hst
    exact hs''.safe
  · intro hsafe
    by_contra hno
    obtain ⟨s'', hr, hneg⟩ := hs.not_steady hno hst
    have := (hsafe s'' hr).count
    omega

theorem steady_of_quiet (h : s.pc a.thread ≠ .reset) (hc : s.tr.count < 2 ^ 31 - 1) : Steady s a :=
  ⟨fun hr => absurd hr h, fun _ => hc⟩

def enabledTrace : TraceSys := ⟨⟨some fun _ => ⟨0, .create, 0, 0⟩, 0, true⟩, fun _ => .idle, [], []⟩

theorem steady_enabled : SteadyTrace size enabledTrace := by
  have h₀ : SteadyTrace size initTrace := .init rfl
  have h₁ := h₀.step (a := ⟨0, .enable, 0, true⟩) (steady_of_quiet (by simp [initTrace]) (by decide)) rfl
  have h₂ := h₁.step (a := ⟨0, .enable, 0, true⟩) ⟨fun _ e => ?_, fun _ => by decide⟩ rfl
  have h₃ := h₂.step (a := ⟨0, .enable, 0, true⟩) (steady_of_quiet ?_ (by decide)) rfl
  · have hidle : Function.update (Function.update (Function.update (fun _ : Nat => TracePc.idle) 0 .reset) 0 .enable) 0 .idle =
        fun _ => .idle := by simp
    unfold enabledTrace
    rw [← hidle]
    exact h₃
  · simp [TraceSys.goto]
  · by_cases he : e = 0
    · simp [he, TraceSys.goto]
    · simp [he, TraceSys.goto, TraceSys.allocBuffer, initTrace]

/-- Behind the overflow of a buffer of one slot, thread 1 is about to reset the count: this is no steady step. -/
theorem trace_slots_iff_one : ∃ s s', SlotsSafe 1 s ∧ s.step 1 ⟨1, .enable, 0, true⟩ = some s' ∧
    ¬ ∀ s'', Reach (· = s') (TraceSys.step 1) Steady s'' → SlotsSafe 1 s'' := by
  have h₁ : SteadyTrace 1 _ := steady_enabled.step (a := ⟨0, .emit 0 .yield 0, 0, true⟩) (steady_of_quiet (by decide) (by decide)) rfl
  have h₂ := h₁.step (a := ⟨0, .disable, 0, true⟩) (steady_of_quiet (by decide) (by decide)) rfl
  have h₃ := h₂.step (a := ⟨0, .disable, 0, true⟩) (steady_of_quiet (by decide) (by decide)) rfl
  have h₄ := h₃.step (a := ⟨0, .emit 0 .yield 0, 0, true⟩) (steady_of_quiet (by decide) (by decide)) rfl
  have h₅ := h₄.step (a := ⟨0, .disable, 0, true⟩) (steady_of_quiet (by decide) (by decide)) rfl
  have h₆ := h₅.step (a := ⟨1, .enable, 0, true⟩) (steady_of_quiet (by decide) (by decide)) rfl
  obtain ⟨hsafe, hiff⟩ := trace_slots_iff h₆
  refine ⟨_, _, hsafe, rfl, ?_⟩
  rw [← hiff ⟨1, .enable, 0, true⟩ _ rfl]
  intro hst
  exact hst.reset (by decide) 0 (by decide)

/-! ## A `trace_emit` without interference -/

theorem emit_off {acts : List TraceAct} (hpc : s.pc e = .idle) (hen : (s.tr.enabled && s.tr.buffer.isSome) = false)
    (ha : ∀ a ∈ acts, a.thread = e ∧ ∃ tid type coreId, a.call = .emit tid type coreId) : exec (TraceSys.step size) s acts = some s := by
  induction acts with
  | nil => rfl
  | cons a acts ih =>
    obtain ⟨hthread, tid, type, coreId, hcall⟩ := ha a (by simp)
    have hstep : s.step size a = some s := by
      simp only [TraceSys.step, hthread, hpc, hcall, hen, Bool.false_eq_true, if_false]
    rw [exec, hstep]
    exact ih fun b hb => ha b (by simp [hb])

/-- The steps of one `trace_emit` are the one step that the other machines take. -/
theorem emit_alone (tid : Int) (type : TraceEventType) (coreId : Int) (now : Nat) (hpc : s.pc e = .idle)
    (h₁ : 0 ≤ s.tr.count) (h₂ : s.tr.count < 2 ^ 31 - 1) :
    ∃ s', exec (TraceSys.step traceBufferSize) s (List.replicate 3 ⟨e, .emit tid type coreId, now, true⟩) = some s' ∧
      s'.tr = (if s.tr.records then s.tr.store ⟨tid, type, now % 2 ^ 64, coreId⟩ else s.tr) ∧ s'.pc = s.pc := by
  have hadd : cint (s.tr.count + 1) = s.tr.count + 1 := cint_of_range (by omega) (by omega)
  have hsub : cint (s.tr.count + 1 - 1) = s.tr.count := by
    rw [Int.add_sub_cancel]
    exact cint_of_range (by omega) (by omega)
  have hback : ∀ p q, Function.update (Function.update (Function.update s.pc e p) e q) e .idle = s.pc := by
    intro p q
    rw [Function.update_idem, Function.update_idem, ← hpc, Function.update_eq_self]
  cases hen : s.tr.enabled && s.tr.buffer.isSome with
  | false =>
    refine ⟨s, emit_off hpc hen ?_, ?_, rfl⟩
    · intro a ha
      rw [List.eq_of_mem_replicate ha]
      exact ⟨rfl, tid, type, coreId, rfl⟩
    · simp [Trace.records, hen]
  | true =>
    let s₁ := s.goto e (.add tid type coreId)
    by_cases hfull : traceBufferSize ≤ s.tr.count
    · have hrec : ¬ s.tr.records := by
        simp [Trace.records, hfull]
      rw [if_neg hrec]
      have hfull' : traceBufferSize ≤ (s.goto e (.add tid type coreId)).tr.count := hfull
      let s₂ := (s₁.setCount (cint (s.tr.count + 1))).goto e .undo
      refine ⟨(s₂.setCount (cint (cint (s.tr.count + 1) - 1))).goto e .idle, ?_, ?_, hback _ _⟩
      · simp only [List.replicate, exec]
        rw [TraceSys.step_emit hpc hen, Option.bind_some, TraceSys.step_add TraceSys.goto_pc, Option.bind_some,
          TraceSys.fetchAdd_full hfull', TraceSys.step_undo TraceSys.goto_pc, Option.bind_some]
        rfl
      · rw [hadd, hsub]
        rfl
    · have hlt := lt_of_not_ge hfull
      have hrec : s.tr.records := by
        simp only [Trace.records, hen, Bool.true_and, decide_eq_true_eq]
        exact hlt
      rw [if_pos hrec]
      have hlt' : (s.goto e (.add tid type coreId)).tr.count < traceBufferSize := hlt
      let s₂ := { s₁.setCount (cint (s.tr.count + 1)) with claimed := s.tr.count :: s.claimed }.goto e
        (.write s.tr.count tid type coreId)
      refine ⟨(s₂.writeSlot s.tr.count ⟨tid, type, now % 2 ^ 64, coreId⟩).goto e .idle, ?_, ?_, hback _ _⟩
      · simp only [List.replicate, exec]
        rw [TraceSys.step_emit hpc hen, Option.bind_some, TraceSys.step_add TraceSys.goto_pc, Option.bind_some,
          TraceSys.fetchAdd_free hlt', TraceSys.step_write TraceSys.goto_pc, Option.bind_some]
        rfl
      · unfold Trace.store
        rw [← hadd]
        rfl

/-! ## A reset in the middle of an overflow -/

abbrev AnyTrace : TraceSys → Prop := Reach (· = initTrace) (TraceSys.step traceBufferSize) fun _ _ => True

theorem fill {k : Nat} (hk : (k : Int) ≤ traceBufferSize) : ∃ s, AnyTrace s ∧ s.pc = (fun _ => .idle) ∧
    (s.tr.enabled && s.tr.buffer.isSome) = true ∧ s.tr.count = k := by
  induction k with
  | zero => exact ⟨enabledTrace, steady_enabled.mono fun _ _ _ => trivial, rfl, rfl, rfl⟩
  | succ k ih =>
    have hsize : traceBufferSize = 2 ^ 20 := rfl
    obtain ⟨s, hs, hpc, hen, hcount⟩ := ih (by omega)
    obtain ⟨s', he, htr, hpc'⟩ := emit_alone 0 .yield 0 0 (congrFun hpc 0) (by omega) (by omega)
    have hrec : s.tr.records := by
      simp only [Trace.records, hen, Bool.true_and, decide_eq_true_eq]
      omega
    rw [if_pos hrec] at htr
    refine ⟨s', hs.exec (fun _ _ => trivial) he, hpc'.trans hpc, ?_, ?_⟩
    · simpa [htr, Trace.store] using hen
    · simp [htr, Trace.store, hcount]

def lateUndo : List TraceAct :=
  [⟨0, .emit 0 .yield 0, 0, true⟩, ⟨0, .disable, 0, true⟩, ⟨1, .enable, 0, true⟩, ⟨1, .enable, 0, true⟩, ⟨0, .disable, 0, true⟩]

def lateEmit : List TraceAct := List.replicate 3 ⟨2, .emit 2 .yield 1, 0, true⟩

def lateUndoClaim : List TraceAct :=
  [⟨0, .emit 0 .yield 0, 0, true⟩, ⟨0, .disable, 0, true⟩, ⟨1, .enable, 0, true⟩, ⟨1, .enable, 0, true⟩,
    ⟨2, .emit 2 .yield 1, 0, true⟩, ⟨2, .disable, 0, true⟩, ⟨0, .disable, 0, true⟩, ⟨2, .disable, 0, true⟩,
    ⟨2, .emit 2 .yield 1, 0, true⟩, ⟨2, .disable, 0, true⟩]

/-- The count is -1, slot -1 is written, and slot 0 is claimed twice. -/
theorem reset_during_overflow : (∃ s, AnyTrace s ∧ s.tr.count = -1) ∧ (∃ s, AnyTrace s ∧ -1 ∈ s.written) ∧
    ∃ s, AnyTrace s ∧ ¬ s.claimed.Nodup := by
  obtain ⟨⟨⟨b, count, en⟩, pc, cl, wr⟩, hs, rfl, hen, hcount⟩ := fill (k := 2 ^ 20) (by decide)
  obtain rfl : count = 2 ^ 20 := hcount
  simp only [Bool.and_eq_true, Option.isSome_iff_exists] at hen
  obtain ⟨rfl, b, rfl⟩ := hen
  have run : ∀ acts {s'}, exec (TraceSys.step traceBufferSize) ⟨⟨some b, 2 ^ 20, true⟩, fun _ => .idle, cl, wr⟩ acts =
      some s' → AnyTrace s' := fun _ _ => hs.exec fun _ _ => trivial
  refine ⟨⟨_, run lateUndo rfl, rfl⟩, ⟨_, run (lateUndo ++ lateEmit) rfl, List.mem_cons_self⟩, ?_⟩
  obtain ⟨s', he, hc⟩ : ∃ s', exec (TraceSys.step traceBufferSize) ⟨⟨some b, 2 ^ 20, true⟩, fun _ => .idle, cl, wr⟩
      lateUndoClaim = some s' ∧ s'.claimed = [0, 0] := ⟨_, rfl, rfl⟩
  refine ⟨s', run _ he, ?_⟩
  rw [hc]
  decide

end Uthread
