import Uthread.Abs

/-!
# The scheduling invariant

A thread's state says which list it is on, and the stack of a thread that
cannot be dispatched says what it waits for. Every transition keeps this, also
those that lose a thread (`Uthread.Preempt`): it does not say that a RUNNING
thread is the current one.
-/

namespace Uthread

def QId.state : QId → TState
  | .ready => .ready
  | .sleep => .ioBlocked
  | .wait _ => .blocked

def HasExit (fs : List Frame) : Prop := ∃ f ∈ fs, f.isExit = true

structure OwnStacks (c : Core) (glob : List Ptr) : Prop where
  run : c.run.onStack = c.currentThread
  saved : ∀ t ∈ glob, (c.tcb.context t).onStack = t
  suspended : ∀ t ∈ glob, t ≠ c.currentThread → ∃ f fs, (c.tcb.context t).frames = f :: fs ∧ f.suspends = true

def ChanReady (c : Core) (id : Nat) : Prop :=
  ((c.mutexLocked (.chan id)).isSome ↔ (c.chan id).isSome) ∧
    ((c.semCount (.space id)).isSome ↔ (c.chan id).isSome) ∧ ((c.semCount (.messages id)).isSome ↔ (c.chan id).isSome)

structure Inv (a : Abs) : Prop where
  ok : a.q.Ok
  state : ∀ {i t}, t ∈ a.q i → a.tcb.state t = i.state
  live : ∀ {i t}, t ∈ a.q i → t ∈ a.glob
  nodup : a.glob.Nodup
  lt : ∀ t ∈ a.glob, t < a.brk
  cur : a.currentThread ∈ a.glob
  ready : ∀ t ∈ a.glob, a.tcb.state t = .ready → t ∈ a.q .ready
  blocked : ∀ t ∈ a.glob, a.tcb.state t = .blocked →
    ∃ w, callOf (a.framesOf t) = some (.wait w) ∧ t ∈ a.q (.wait w)
  io : ∀ t ∈ a.glob, a.tcb.state t = .ioBlocked →
    (∃ d, callOf (a.framesOf t) = some (.sleep d)) ∧ t ∈ a.q .sleep ∨
      (∃ fd dir, callOf (a.framesOf t) = some (.io fd dir)) ∧ t ∉ a.q .sleep
  reg : ∀ {fd t dir}, a.interest fd = some (t, dir) →
    t ∈ a.glob ∧ a.tcb.state t = .ioBlocked ∧ a.tcb.ioFd t = fd ∧ t ∉ a.q .sleep
  exits : ∀ t ∈ a.glob, HasExit (a.framesOf t) → a.tcb.state t = .finished
  prevs : ∀ t ∈ a.glob, ∀ f ∈ a.framesOf t, f.prev? = none ∨ f.prev? = some t
  seated : ∀ t ∈ a.glob, Seated (a.framesOf t)
  own : OwnStacks a.toCore a.glob
  mutexes : ∀ m, a.mutexLocked m = none → a.q (.wait (.mutex m)) = []
  sems : ∀ sm, a.semCount sm = none → a.q (.wait (.sem sm)) = []
  chans : ∀ id, ChanReady a.toCore id
  chanFrames : ∀ t ∈ a.glob, ∀ f ∈ a.framesOf t, ∀ id, f.chan? = some id → (a.chan id).isSome

section
variable {a b : Abs} {t u : Ptr} {fs : List Frame} {i : QId}

theorem framesOf_cur (c : Core) : c.framesOf c.currentThread = c.run.frames := if_pos rfl

theorem framesOf_setFrames (c : Core) (t : Ptr) :
    (c.setFrames fs).framesOf t = if t = c.currentThread then fs else c.framesOf t := by
  unfold Core.framesOf Core.setFrames
  by_cases h : t = c.currentThread <;> simp [h]

theorem framesOf_setFrames_ne {c : Core} (h : t ≠ c.currentThread) : (c.setFrames fs).framesOf t = c.framesOf t := by
  rw [framesOf_setFrames, if_neg h]

theorem framesOf_switch (next t : Ptr) : (a.switch next).framesOf t = a.framesOf t := by
  change (if t = next then (Function.update a.tcb.context a.currentThread a.run next).frames
    else (Function.update a.tcb.context a.currentThread a.run t).frames) = _
  unfold Core.framesOf
  by_cases hc : t = a.currentThread
  · subst hc
    by_cases hn : a.currentThread = next
    · simp [hn]
    · simp [hn]
  · by_cases hn : t = next
    · subst hn; simp [hc]
    · simp [hn, hc]

namespace Inv

theorem notMem_of_state (h : Inv a) (ht : a.tcb.state t ≠ i.state) : t ∉ a.q i := fun hm => ht (h.state hm)

theorem notMem_of_running (h : Inv a) (ht : a.tcb.state t = .running) (i : QId) : t ∉ a.q i :=
  h.notMem_of_state (by rw [ht]; cases i <;> simp [QId.state])

theorem notMem_of_finished (h : Inv a) (ht : a.tcb.state t = .finished) (i : QId) : t ∉ a.q i :=
  h.notMem_of_state (by rw [ht]; cases i <;> simp [QId.state])

theorem notMem_of_fresh (h : Inv a) (i : QId) : a.brk ∉ a.q i := fun hm => Nat.lt_irrefl _ (h.lt _ (h.live hm))

theorem not_registered (h : Inv a) (ht : a.tcb.state t ≠ .ioBlocked) {fd : Fd} {dir : IoDir} :
    a.interest fd ≠ some (t, dir) := fun hr => ht (h.reg hr).2.1

/-! ## Transitions that change no list and no state -/

end Inv

end

/-- What a change of the running thread's stack may not do. -/
structure StackMove (c : Core) (fs fs' : List Frame) : Prop where
  call : c.tcb.state c.currentThread ≠ .running → c.tcb.state c.currentThread ≠ .finished → callOf fs' = callOf fs
  exit : HasExit fs' → HasExit fs ∨ c.tcb.state c.currentThread = .finished
  prev : ∀ f ∈ fs', f ∈ fs ∨ f.prev? = none ∨ f.prev? = some c.currentThread
  chan : ∀ f ∈ fs', ∀ id, f.chan? = some id → (∃ f' ∈ fs, f'.chan? = some id) ∨ (c.chan id).isSome
  seated : Seated fs → Seated fs'

theorem StackMove.refl {c : Core} {fs : List Frame} : StackMove c fs fs :=
  ⟨fun _ _ => rfl, Or.inl, fun _ => Or.inl, fun f hf _ hc => .inl ⟨f, hf, hc⟩, id⟩

namespace Seated

variable {f g : Frame} {fs : List Frame}

theorem below (h : Seated (f :: fs)) : Seated fs := List.IsChain.of_cons h

theorem above (h : Seated (f :: g :: fs)) : Above f g := (List.isChain_cons_cons.mp h).1

theorem clear (h : Seated (f :: fs)) : Clear fs := by
  cases fs with
  | nil => rintro _ ⟨⟩
  | cons g fs => rintro _ ⟨⟩; exact h.above.1

theorem push (h : Seated fs) (hc : Clear fs) (hf : f.level = .free) : Seated (f :: fs) := by
  cases fs with
  | nil => exact .singleton _
  | cons g gs => exact .cons_cons ⟨hc g rfl, by simp [hf]⟩ h

theorem retop (h : Seated (g :: fs)) (hf : f.level = g.level) : Seated (f :: fs) := by
  cases fs with
  | nil => exact .singleton _
  | cons g' gs => exact .cons_cons ⟨h.above.1, hf ▸ h.above.2⟩ h.below

theorem call (h : Seated (.user :: fs)) (hf : f.level ≠ .base) : Seated (f :: .user :: fs) := by
  refine .cons_cons ⟨rfl, ?_⟩ h
  cases hl : f.level <;> first | exact absurd hl hf | rfl | trivial

theorem wait {w : WaitObj} (h : Seated (g :: fs)) (hg : g.calls = true) : Seated (.waiting w :: g :: fs) :=
  .cons_cons ⟨by cases g <;> first | rfl | exact absurd hg (by simp [Frame.calls]), hg⟩ h

theorem bottom (h : Seated (f :: fs)) (hf : f.level = .base) : fs = [] := by
  cases fs with
  | nil => rfl
  | cons g gs => have := h.above.2; rw [hf] at this; exact this.elim

theorem on_user (h : Seated (f :: fs)) (hf : f.level = .direct) : fs = [] ∨ fs = [.user] := by
  cases fs with
  | nil => exact .inl rfl
  | cons g gs =>
    have hg := h.above.2
    rw [hf] at hg
    obtain rfl : g = .user := hg
    rw [h.below.bottom rfl]; exact .inr rfl

theorem callOf_below (h : Seated (f :: fs)) (hf : f.level ≠ .free) : callOf fs = none := by
  cases fs with
  | nil => rfl
  | cons g gs =>
    have hg := h.above.2
    cases hl : f.level with
    | base => rw [hl] at hg; exact hg.elim
    | direct => rw [hl] at hg; obtain rfl : g = .user := hg; rfl
    | waits => rw [hl] at hg; cases g <;> first | rfl | cases hg
    | free => exact absurd hl hf

end Seated

/-- An activation that a move of the running thread's stack may leave on top. -/
structure Plain (c : Core) (fs : List Frame) (f : Frame) : Prop where
  exit : f.isExit = false
  prev : f.prev? = none ∨ f.prev? = some c.currentThread
  chan : ∀ id, f.chan? = some id → (∃ f' ∈ fs, f'.chan? = some id) ∨ (c.chan id).isSome

theorem StackMove.of_plain {c : Core} {fs fs' : List Frame}
    (hc : c.tcb.state c.currentThread ≠ .running → c.tcb.state c.currentThread ≠ .finished → callOf fs' = callOf fs)
    (hmem : ∀ f ∈ fs', f ∈ fs ∨ Plain c fs f) (hs : Seated fs → Seated fs') : StackMove c fs fs' where
  call := hc
  exit := by
    intro h
    obtain ⟨f, hf, he⟩ := h
    rcases hmem f hf with hf | hn
    · exact .inl ⟨f, hf, he⟩
    · rw [hn.exit] at he; cases he
  prev f hf := (hmem f hf).imp_right Plain.prev
  chan f hf id hid := by
    rcases hmem f hf with hf | hn
    · exact .inl ⟨f, hf, hid⟩
    · exact hn.chan id hid
  seated := hs

theorem StackMove.of_running {c : Core} {fs fs' : List Frame} (hr : c.tcb.state c.currentThread = .running)
    (hmem : ∀ f ∈ fs', f ∈ fs ∨ Plain c fs f) (hs : Seated fs → Seated fs') : StackMove c fs fs' :=
  .of_plain (fun h => absurd hr h) hmem hs

theorem Site.stack {op : SyncOp} {c : Core} {fs fs' : List Frame} (hr : c.tcb.state c.currentThread = .running)
    (h : Site op fs fs') : StackMove c fs fs' := by
  refine .of_running hr (fun f hf => ?_) fun hs => ?_
  · cases h <;> simp only [List.mem_cons] at hf ⊢ <;>
      first
      | exact .inl hf
      | exact .inl (.inr hf)
      | (rcases hf with rfl | hf
         · exact .inr ⟨rfl, .inl rfl, fun id hid => .inl ⟨_, List.mem_cons_self, hid⟩⟩
         · exact .inl (.inr hf))
  · cases h <;> first | exact hs | exact hs.below | exact hs.retop rfl

theorem Site.seated {op : SyncOp} {fs fs' : List Frame} (h : Site op fs fs') (w : WaitObj) (hw : op = w.acquire)
    (hs : Seated fs') : Seated (.waiting w :: fs') := by
  cases h <;> first | exact hs.wait rfl | (cases w <;> cases hw)

theorem FrameMove.mem {c : Core} {fs fs' : List Frame} (h : FrameMove c fs fs') {f : Frame} (hf : f ∈ fs') :
    f ∈ fs ∨ (f.prev? = none ∨ f.prev? = some c.currentThread) ∧
      (f.isExit = true → HasExit fs ∨ c.tcb.state c.currentThread = .finished) ∧
      ∀ id, f.chan? = some id → (c.chan id).isSome := by
  cases h with
  | notCreated | yieldRet | sigreturn => exact .inl (List.mem_cons_of_mem _ hf)
  | callSend hc | callRecv hc =>
    rcases List.mem_cons.mp hf with rfl | hf
    · exact .inr ⟨.inl rfl, by simp [Frame.isExit], fun id hid => by cases hid; exact hc⟩
    · exact .inl hf
  | callYield | callCreate | callIo =>
    rcases List.mem_cons.mp hf with rfl | hf
    · exact .inr ⟨.inl rfl, by simp [Frame.isExit], by simp [Frame.chan?]⟩
    · exact .inl hf
  | start | created | collected | resumed | tested | wouldBlock | ioReady | retried =>
    rcases List.mem_cons.mp hf with rfl | hf
    · exact .inr ⟨.inl rfl, by simp [Frame.isExit], by simp [Frame.chan?]⟩
    · exact .inl (List.mem_cons_of_mem _ hf)
  | save | idle | idleSave =>
    rcases List.mem_cons.mp hf with rfl | hf
    · exact .inr ⟨.inr rfl, by simp [Frame.isExit], by simp [Frame.chan?]⟩
    · exact .inl (List.mem_cons_of_mem _ hf)
  | exitSave hst | exitIdle hst =>
    rcases List.mem_cons.mp hf with rfl | hf
    · exact .inr ⟨.inr rfl, fun _ => .inr hst, by simp [Frame.chan?]⟩
    · exact .inl hf
  | exitIdleSave =>
    rcases List.mem_cons.mp hf with rfl | hf
    · exact .inr ⟨.inr rfl, fun _ => .inl ⟨.exitIdle c.currentThread, by simp, rfl⟩, by simp [Frame.chan?]⟩
    · exact .inl (List.mem_cons_of_mem _ hf)

theorem FrameMove.seated {c : Core} {fs fs' : List Frame} (h : FrameMove c fs fs') (hs : Seated fs) :
    Seated fs' := by
  cases h with
  | notCreated | yieldRet | sigreturn => exact hs.below
  | callYield | callCreate | callSend | callRecv | callIo | exitSave | exitIdle =>
    exact hs.call (by simp [Frame.level])
  | start | created | collected | resumed | tested | wouldBlock | ioReady | retried | save | idle | idleSave |
    exitIdleSave => exact hs.retop rfl

theorem FrameMove.callOf_eq {c : Core} {fs fs' : List Frame} (h : FrameMove c fs fs') (hs : Seated fs) :
    callOf fs' = callOf fs ∨ callOf fs' = none := by
  cases h with
  | notCreated => exact .inr (hs.callOf_below (by simp [Frame.level]))
  | created | start | ioReady | callYield | callCreate | callSend | callRecv | callIo | tested | wouldBlock | retried =>
    exact .inr rfl
  | exitSave | exitIdle | exitIdleSave => exact .inr rfl
  | collected | save | idle | idleSave | resumed | yieldRet | sigreturn => exact .inl rfl

theorem FrameMove.stack {c : Core} {fs fs' : List Frame} (h : FrameMove c fs fs')
    (hc : c.tcb.state c.currentThread ≠ .running → c.tcb.state c.currentThread ≠ .finished → callOf fs' = callOf fs) :
    StackMove c fs fs' where
  call := hc
  exit := by
    intro h
    obtain ⟨f, hf, he⟩ := h
    rcases h.mem hf with hf | ⟨-, hx, -⟩
    · exact .inl ⟨f, hf, he⟩
    · exact hx he
  prev f hf := (h.mem hf).imp_right And.left
  chan f hf id hid := by
    rcases h.mem hf with hf | ⟨-, -, hx⟩
    · exact .inl ⟨f, hf, hid⟩
    · exact .inr (hx id hid)
  seated := h.seated

/-- Transitions that change no list and no state. -/
structure Local (a b : Abs) : Prop where
  stack : StackMove a.toCore a.run.frames b.run.frames
  q : b.q = a.q := by rfl
  glob : b.glob = a.glob := by rfl
  state : b.tcb.state = a.tcb.state := by rfl
  cur : b.currentThread = a.currentThread := by rfl
  brk : b.brk = a.brk := by rfl
  interest : b.interest = a.interest := by rfl
  context : b.tcb.context = a.tcb.context := by rfl
  onStack : b.run.onStack = a.run.onStack := by rfl
  ioFd : ∀ t, a.tcb.state t ≠ .running → b.tcb.ioFd t = a.tcb.ioFd t := by intros; rfl
  mutexes : ∀ m, b.mutexLocked m = none → a.mutexLocked m = none := by exact fun _ h => h
  sems : ∀ sm, b.semCount sm = none → a.semCount sm = none := by exact fun _ h => h
  chan : ∀ id, (a.chan id).isSome → (b.chan id).isSome := by exact fun _ h => h
  chans : ∀ id, ChanReady a.toCore id → ChanReady b.toCore id := by exact fun _ h => h

namespace Local

variable {a b : Abs} {t : Ptr}

theorem refl : Local a a := { stack := .refl }

theorem of_frames {fs : List Frame} (hm : StackMove a.toCore a.run.frames fs) : Local a (a.on (.setFrames fs)) :=
  { (refl (a := a)) with stack := hm }

theorem framesOf_ne (h : Local a b) (ht : t ≠ a.currentThread) : b.framesOf t = a.framesOf t := by
  unfold Core.framesOf
  rw [h.cur, h.context, if_neg ht, if_neg ht]

theorem callOf_eq (h : Local a b) (h₁ : a.tcb.state t ≠ .running) (h₂ : a.tcb.state t ≠ .finished) :
    callOf (b.framesOf t) = callOf (a.framesOf t) := by
  by_cases ht : t = a.currentThread
  · subst ht
    rw [framesOf_cur, ← h.cur, framesOf_cur]
    exact h.stack.call h₁ h₂
  · rw [h.framesOf_ne ht]

theorem inv (hl : Local a b) (h : Inv a) : Inv b where
  ok := by rw [hl.q]; exact h.ok
  state := by rw [hl.q, hl.state]; exact h.state
  live := by rw [hl.q, hl.glob]; exact h.live
  nodup := by rw [hl.glob]; exact h.nodup
  lt := by rw [hl.glob, hl.brk]; exact h.lt
  cur := by rw [hl.glob, hl.cur]; exact h.cur
  ready := by rw [hl.glob, hl.state, hl.q]; exact h.ready
  blocked := by
    rw [hl.glob, hl.state, hl.q]
    intro t ht hb
    rw [hl.callOf_eq (by simp [hb]) (by simp [hb])]
    exact h.blocked t ht hb
  io := by
    rw [hl.glob, hl.state, hl.q]
    intro t ht hb
    rw [hl.callOf_eq (by simp [hb]) (by simp [hb])]
    exact h.io t ht hb
  reg := by
    intro fd t dir hr
    rw [hl.interest] at hr
    obtain ⟨h₁, h₂, h₃, h₄⟩ := h.reg hr
    rw [hl.glob, hl.state, hl.q, hl.ioFd t (by simp [h₂])]
    exact ⟨h₁, h₂, h₃, h₄⟩
  exits := by
    rw [hl.glob, hl.state]
    intro t ht he
    by_cases hc : t = a.currentThread
    · subst hc
      rw [← hl.cur, framesOf_cur] at he
      rcases hl.stack.exit he with he | he
      · exact h.exits _ ht (by rw [framesOf_cur]; exact he)
      · exact he
    · rw [hl.framesOf_ne hc] at he; exact h.exits t ht he
  prevs := by
    rw [hl.glob]
    intro t ht f hf
    by_cases hc : t = a.currentThread
    · subst hc
      rw [← hl.cur, framesOf_cur] at hf
      rcases hl.stack.prev f hf with hf | hf
      · exact h.prevs _ ht f (by rw [framesOf_cur]; exact hf)
      · exact hf
    · rw [hl.framesOf_ne hc] at hf; exact h.prevs t ht f hf
  seated := by
    rw [hl.glob]
    intro t ht
    by_cases hc : t = a.currentThread
    · subst hc
      rw [← hl.cur, framesOf_cur]
      exact hl.stack.seated (by have := h.seated _ ht; rwa [framesOf_cur] at this)
    · rw [hl.framesOf_ne hc]; exact h.seated t ht
  own := ⟨by rw [hl.onStack, hl.cur]; exact h.own.run, by rw [hl.glob, hl.context]; exact h.own.saved,
    by rw [hl.glob, hl.cur, hl.context]; exact h.own.suspended⟩
  mutexes m hm := by rw [hl.q]; exact h.mutexes m (hl.mutexes m hm)
  sems sm hs := by rw [hl.q]; exact h.sems sm (hl.sems sm hs)
  chans id := hl.chans id (h.chans id)
  chanFrames := by
    rw [hl.glob]
    intro t ht f hf id hid
    by_cases hc : t = a.currentThread
    · subst hc
      rw [← hl.cur, framesOf_cur] at hf
      rcases hl.stack.chan f hf id hid with ⟨f', hf', hid'⟩ | hid
      · exact hl.chan id (h.chanFrames _ ht f' (by rw [framesOf_cur]; exact hf') id hid')
      · exact hl.chan id hid
    · rw [hl.framesOf_ne hc] at hf; exact hl.chan id (h.chanFrames t ht f hf id hid)

end Local

end Uthread
