import Uthread.Grant

/-!
# Leaving the scheduler

As long as no thread is dispatched after SIGALRM was delivered in its idle
loop, a RUNNING thread has no idle loop on its stack, and one that was in a
blocking call returns from it.
-/

namespace Uthread

open History Linked

/-! ## Stacks of threads that return -/

namespace Frame

def blocks : Frame → Bool
  | .waiting _ => true
  | .sleeping _ => true
  | .ioWait _ _ => true
  | _ => false

def yields : Frame → Bool
  | .yieldEntry => true
  | .yieldGc => true
  | .yieldIdle _ => true
  | .yieldSwap _ => true
  | .yieldRet => true
  | _ => false

def returns : Frame → Bool
  | .yieldSwap _ => true
  | .yieldRet => true
  | _ => false

end Frame

/-- The stack of a thread on its way out of a blocking call, with activations of the handler above. -/
inductive Leaves : List Frame → Prop
  | base {f fs} : f.blocks = true → Leaves (f :: fs)
  | ret {g f fs} : g.returns = true → f.blocks = true → Leaves (g :: f :: fs)
  | handler {fs} : Leaves fs → Leaves (.alrmHandler :: fs)
  | yield {g fs} : g.yields = true → Leaves (.alrmHandler :: fs) → Leaves (g :: .alrmHandler :: fs)

def TState.waits : TState → Bool
  | .blocked => true
  | .ioBlocked => true
  | _ => false

/-- The stack of a thread in state `st` whose idle loops were not interrupted. -/
structure Shape (fs : List Frame) (st : TState) : Prop where
  below : ∀ p, .yieldIdle p ∉ fs.tail
  top : ∀ p, fs.head? = some (.yieldIdle p) → st ≠ .running
  call : callOf fs = none ∨ st.waits = false ∧ Leaves fs ∨
    st ≠ .running ∧ ∃ g f gs, fs = g :: f :: gs ∧ g.yields = true ∧ f.blocks = true

section
variable {fs gs : List Frame} {f g : Frame} {st st' : TState}

theorem Frame.not_blocks (h : f.yields = true) : f.blocks = false := by
  cases f <;> first | rfl | exact absurd h (by simp [Frame.yields])

theorem callOf_yields (h : f.yields = true) : callOf (f :: fs) = callOf fs := by
  cases f <;> first | rfl | exact absurd h (by simp [Frame.yields])

theorem Leaves.retop (h : Leaves (g :: fs)) (hg : g.yields = true) (hf : f.yields = true)
    (hr : g.returns = true → f.returns = true) : Leaves (f :: fs) := by
  cases h with
  | base hb => rw [Frame.not_blocks hg] at hb; cases hb
  | ret hg' hb => exact .ret (hr hg') hb
  | handler h => cases hg
  | yield _ h => exact .yield hf h

theorem Shape.mono (h : Shape fs st) (hr : st' ≠ .running) (hw : st'.waits = false) : Shape fs st' where
  below := h.below
  top p hp := fun _ => hr ‹_›
  call := h.call.imp_right (Or.imp (fun hl => ⟨hw, hl.2⟩) fun hc => ⟨hr, hc.2⟩)

theorem Shape.of_none (hb : ∀ p, .yieldIdle p ∉ fs) (hc : callOf fs = none) : Shape fs st where
  below p hp := hb p (List.mem_of_mem_tail hp)
  top p hp := absurd (List.mem_of_mem_head? hp) (hb p)
  call := .inl hc

theorem Shape.no_idle (h : Shape fs .running) (p : Ptr) : .yieldIdle p ∉ fs := by
  intro hp
  cases fs with
  | nil => cases hp
  | cons f fs =>
    rcases List.mem_cons.mp hp with rfl | hp
    · exact h.top p rfl rfl
    · exact h.below p hp

theorem Shape.not_mem (h : Shape (f :: fs) st) (p : Ptr) : .yieldIdle p ∉ fs := h.below p

theorem Shape.enter (hb : ∀ p, .yieldIdle p ∉ fs) (hf : f.blocks = true) (hst : st ≠ .running) :
    Shape (.yieldEntry :: f :: fs) st where
  below p hp := by
    rcases List.mem_cons.mp hp with rfl | hp
    · cases hf
    · exact hb p hp
  top p hp := by cases hp
  call := .inr (.inr ⟨hst, _, _, _, rfl, rfl, hf⟩)

theorem Shape.retop (h : Shape (g :: fs) st) (hg : g.yields = true) (hf : f.yields = true)
    (hr : g.returns = true → f.returns = true) (hst : ∀ p, f = .yieldIdle p → st ≠ .running) : Shape (f :: fs) st where
  below := h.below
  top p hp := hst p (by simpa using hp)
  call := by
    rcases h.call with hc | hl | ⟨hn, g', f', gs, he, hg', hf'⟩
    · left
      rw [callOf_yields hf, ← hc, callOf_yields hg]
    · exact .inr (.inl ⟨hl.1, hl.2.retop hg hf hr⟩)
    · cases he
      exact .inr (.inr ⟨hn, _, _, _, rfl, hf, hf'⟩)

theorem Shape.pop (h : Shape (.yieldRet :: fs) .running) : Shape fs .running where
  below p hp := h.below p (List.mem_of_mem_tail hp)
  top p hp := absurd (List.mem_of_mem_head? hp) (h.below p)
  call := by
    rcases h.call with hc | ⟨-, hl⟩ | ⟨hn, -⟩
    · exact .inl hc
    · refine .inr (.inl ⟨rfl, ?_⟩)
      cases hl with
      | base hb => cases hb
      | ret _ hb => exact .base hb
      | yield _ hl => exact hl
    · exact absurd rfl hn

theorem Shape.sigreturn (h : Shape (.alrmHandler :: fs) st) : Shape fs st where
  below p hp := h.below p (List.mem_of_mem_tail hp)
  top p hp := absurd (List.mem_of_mem_head? hp) (h.below p)
  call := by
    rcases h.call with hc | ⟨hw, hl⟩ | ⟨-, g', f', gs, he, hg', -⟩
    · exact .inl hc
    · refine .inr (.inl ⟨hw, ?_⟩)
      cases hl with
      | base hb => cases hb
      | ret hr => cases hr
      | handler hl => exact hl
      | yield hy => cases hy
    · cases he; cases hg'

theorem Shape.tick (h : Shape fs st) (hi : ∀ p, fs.head? ≠ some (.yieldIdle p))
    (hr : (∀ f, fs.head? = some f → f.idles = false) → st = .running) :
    Shape (.yieldEntry :: .alrmHandler :: fs) st where
  below p hp := by
    rcases List.mem_cons.mp hp with hp | hp
    · cases hp
    · cases fs with
      | nil => cases hp
      | cons f fs =>
        rcases List.mem_cons.mp hp with rfl | hp
        · exact hi p rfl
        · exact h.below p hp
  top p hp := by cases hp
  call := by
    rcases h.call with hc | ⟨hw, hl⟩ | ⟨hn, g, f, gs, rfl, hg, -⟩
    · exact .inl hc
    · exact .inr (.inl ⟨hw, .yield rfl (.handler hl)⟩)
    · refine absurd (hr ?_) hn
      intro f hf
      obtain rfl : g = f := by simpa using hf
      cases g with
      | yieldIdle p => exact absurd rfl (hi p)
      | exitIdle p => cases hg
      | _ => rfl

theorem Shape.run (h : Shape (f :: fs) st) (hf : f.suspends = true) : Shape (f :: fs) .running where
  below := h.below
  top p hp := by
    intro _
    cases hp
    cases hf
  call := by
    rcases h.call with hc | ⟨-, hl⟩ | ⟨-, g', f', gs, he, hg', hf'⟩
    · exact .inl hc
    · exact .inr (.inl ⟨rfl, hl⟩)
    · cases he
      refine .inr (.inl ⟨rfl, ?_⟩)
      cases f with
      | yieldSwap p => exact .ret rfl hf'
      | start => cases hg'
      | exitSwap p => cases hg'
      | _ => cases hf

theorem Shape.of_user (hs : Seated (.user :: fs)) (hf : ∀ p, f ≠ .yieldIdle p) (hc : callOf (f :: .user :: fs) = none) :
    Shape (f :: .user :: fs) st := by
  rw [hs.bottom rfl] at hc ⊢
  refine .of_none (fun p hp => ?_) hc
  rcases List.mem_cons.mp hp with hp | hp
  · exact hf p hp.symm
  · cases List.mem_singleton.mp hp

theorem Shape.replace (h : Shape (g :: fs) st) (hf : ∀ p, f ≠ .yieldIdle p) (hc : callOf (f :: fs) = none) :
    Shape (f :: fs) st' := by
  refine .of_none (fun p hp => ?_) hc
  rcases List.mem_cons.mp hp with hp | hp
  · exact hf p hp.symm
  · exact h.not_mem p hp

theorem Shape.frameMove {c : Core} (h : Shape fs (c.tcb.state c.currentThread)) (hm : FrameMove c fs gs) (hs : Seated fs) :
    Shape gs (c.tcb.state c.currentThread) := by
  cases hm with
  | callYield | callCreate | callSend | callRecv | callIo | exitSave | exitIdle => exact .of_user hs (by simp) rfl
  | start | created | tested | wouldBlock | ioReady | retried | exitIdleSave => exact h.replace (by simp) rfl
  | notCreated => exact .of_none h.not_mem (hs.callOf_below (by simp [Frame.level]))
  | collected => exact h.retop rfl rfl (fun hr => by cases hr) (by simp)
  | save | resumed => exact h.retop rfl rfl (fun _ => rfl) (by simp)
  | idle hn => exact h.retop rfl rfl (fun hr => by cases hr) (fun _ _ => hn)
  | idleSave => exact h.retop rfl rfl (fun _ => rfl) (by simp)
  | yieldRet hr =>
    rw [hr] at h ⊢
    exact h.pop
  | sigreturn => exact h.sigreturn

theorem Site.no_idle {op : SyncOp} (hm : Site op fs gs) (h : Shape fs st) (p : Ptr) : .yieldIdle p ∉ gs := by
  intro hp
  cases hm with
  | sendPost | recvPost => exact h.not_mem p hp
  | _ =>
    rcases List.mem_cons.mp hp with hp | hp
    · cases hp
    · exact h.not_mem p hp

end

/-! ## Interrupted idle loops -/

/-- SIGALRM was delivered to an idle loop of `uthread_yield` on the stack of `t`. -/
def interrupted (t : Ptr) (l : List Event) : Bool :=
  l.any fun
    | .tick u (some (.yieldIdle _)) _ => u = t
    | _ => false

/-- Only a thread whose idle loops were not interrupted is dispatched. -/
def Undisturbed : Event → List Event → Prop
  | .disp t _, l => interrupted t l = false
  | _, _ => True

def undisturbed : Event → List Event → Bool
  | .disp t _, l => !interrupted t l
  | _, _ => true

instance (e : Event) (l : List Event) : Decidable (Undisturbed e l) :=
  decidable_of_iff (undisturbed e l = true) (by cases e <;> simp [undisturbed, Undisturbed])

section
variable {a b : Abs} {t : Ptr} {e : Event} {l : List Event} {fs : List Frame}

theorem interrupted_cons_other (h : ∀ u p n, e ≠ .tick u (some (.yieldIdle p)) n) : interrupted t (e :: l) = interrupted t l := by
  unfold interrupted
  rw [List.any_cons]
  split
  · exact absurd rfl (h _ _ _)
  · rfl

theorem interrupted_tick {f : Option Frame} {n : Bool} (h : interrupted t (.tick t f n :: l) = false) :
    interrupted t l = false ∧ ∀ p, f ≠ some (.yieldIdle p) := by
  unfold interrupted at h
  rw [List.any_cons, Bool.or_eq_false_iff] at h
  refine ⟨h.2, fun p hp => ?_⟩
  subst hp
  simp at h

structure Unwound (a : Abs) : Prop where
  idle : ∀ t ∈ a.glob, a.tcb.state t = .running → interrupted t a.log = false
  shape : ∀ t ∈ a.glob, interrupted t a.log = false → Shape (a.framesOf t) (a.tcb.state t)

theorem Unwound.keep (h : Unwound a) (hlog : ∀ t, interrupted t b.log = interrupted t a.log)
    (hglob : ∀ t ∈ b.glob, t ∈ a.glob) (hrun : ∀ t ∈ b.glob, b.tcb.state t = .running → a.tcb.state t = .running)
    (hshape : ∀ t ∈ b.glob, Shape (a.framesOf t) (a.tcb.state t) → Shape (b.framesOf t) (b.tcb.state t)) : Unwound b where
  idle t ht hr := by
    rw [hlog]
    exact h.idle t (hglob t ht) (hrun t ht hr)
  shape t ht hn := by
    rw [hlog] at hn
    exact hshape t ht (h.shape t (hglob t ht) hn)

theorem Unwound.of_local (h : Unwound a) (hlog : ∀ t, interrupted t b.log = interrupted t a.log) (hl : Local a b)
    (hs : Shape a.run.frames (a.tcb.state a.currentThread) → Shape b.run.frames (a.tcb.state a.currentThread)) : Unwound b := by
  refine h.keep hlog (fun t ht => hl.glob ▸ ht) (fun t _ hr => hl.state ▸ hr) fun t _ hsh => ?_
  rw [hl.state]
  by_cases ht : t = a.currentThread
  · subst ht
    rw [framesOf_cur] at hsh
    rw [← hl.cur, framesOf_cur, hl.cur]
    exact hs hsh
  · rw [hl.framesOf_ne ht]
    exact hsh

theorem Unwound.of_update {u : Ptr} {st : TState} (h : Unwound a) (hlog : ∀ t, interrupted t b.log = interrupted t a.log)
    (hglob : b.glob = a.glob) (hne : st ≠ .running) (hw : st.waits = false)
    (hst : b.tcb.state = Function.update a.tcb.state u st) (hfr : ∀ t, b.framesOf t = a.framesOf t) : Unwound b := by
  refine h.keep hlog (fun t ht => hglob ▸ ht) (fun t _ hr => ?_) fun t _ hsh => ?_
  · rw [hst] at hr
    by_cases ht : t = u
    · rw [ht, Function.update_self] at hr
      exact absurd hr hne
    · rwa [Function.update_of_ne ht] at hr
  · rw [hfr, hst]
    by_cases ht : t = u
    · rw [ht, Function.update_self]
      exact (ht ▸ hsh).mono hne hw
    · rw [Function.update_of_ne ht]
      exact hsh

theorem Unwound.woken {u : Ptr} (h : Unwound a) (hlog : ∀ t, interrupted t b.log = interrupted t a.log) (hw : Woken u a b) :
    Unwound b :=
  h.of_update hlog hw.glob (by simp) rfl hw.state hw.framesOf

theorem Unwound.parked {st : TState} {cl : Call} (h : Unwound a) (hlog : ∀ t, interrupted t b.log = interrupted t a.log)
    (hp : Parked st cl a b) (hglob : b.glob = a.glob) (hst : st ≠ .running)
    (hs : Shape a.run.frames (a.tcb.state a.currentThread) → Shape b.run.frames st) : Unwound b := by
  refine h.keep hlog (fun t ht => hglob ▸ ht) (fun t _ hr => ?_) fun t _ hsh => ?_
  · by_cases ht : t = a.currentThread
    · rw [ht, hp.state_self] at hr
      exact absurd hr hst
    · rwa [hp.state_ne ht] at hr
  · by_cases ht : t = a.currentThread
    · subst ht
      rw [framesOf_cur] at hsh
      rw [hp.framesOf_self, hp.state_self]
      exact hs hsh
    · rw [hp.framesOf_ne ht, hp.state_ne ht]
      exact hsh

theorem Unwound.ticked (hi : Inv a) (h : Unwound a)
    (hr : (∀ f, a.run.frames.head? = some f → f.idles = false) → a.tcb.state a.currentThread = .running) :
    Unwound (a.on fun c => (c.note (.tick c.currentThread c.run.frames.head? (.alrmHandler ∈ c.run.frames))).setFrames
      (.yieldEntry :: .alrmHandler :: c.run.frames)) := by
  have hcur : interrupted a.currentThread a.log = false → Shape a.run.frames (a.tcb.state a.currentThread) := by
    intro hn
    have := h.shape _ hi.cur hn
    rwa [framesOf_cur] at this
  have hother : ∀ t f n, t ≠ a.currentThread → interrupted t (.tick a.currentThread f n :: a.log) = interrupted t a.log := by
    intro t f n ht
    unfold interrupted
    rw [List.any_cons]
    split
    · next u p n' he =>
      cases he
      simp [Ne.symm ht]
    · rfl
  refine ⟨fun t ht hrun => ?_, fun t ht hn => ?_⟩
  · by_cases htc : t = a.currentThread
    · subst htc
      have hn := h.idle _ hi.cur hrun
      refine (interrupted_cons_other fun u p n hp => ?_).trans hn
      injection hp with _ hp
      exact (hcur hn).top p hp hrun
    · exact (hother t _ _ htc).trans (h.idle t ht hrun)
  · by_cases htc : t = a.currentThread
    · subst htc
      obtain ⟨hn, hf⟩ := interrupted_tick hn
      change Shape ((a.toCore.setFrames _).framesOf a.currentThread) _
      rw [framesOf_setFrames, if_pos rfl]
      exact (hcur hn).tick hf hr
    · change Shape ((a.toCore.setFrames _).framesOf t) _
      rw [framesOf_setFrames_ne htc]
      exact h.shape t ht ((hother t _ _ htc).symm.trans hn)

theorem Unwound.switch (hi : Inv a) (h : Unwound a) {u : Ptr} (hu : u ∈ a.glob) (hn : interrupted u a.log = false)
    (hf : ∃ f fs, a.run.frames = f :: fs ∧ f.suspends = true) : Unwound (a.switch u) := by
  have hlog : ∀ t, interrupted t (a.switch u).log = interrupted t a.log := fun _ => rfl
  refine ⟨fun t ht hr => ?_, fun t ht hn' => ?_⟩
  · rw [hlog]
    by_cases htu : t = u
    · rw [htu]
      exact hn
    · rw [switch_state_ne htu] at hr
      exact h.idle t ht hr
  · rw [hlog] at hn'
    rw [framesOf_switch]
    by_cases htu : t = u
    · subst htu
      rw [switch_state_self]
      have hs := h.shape t hu hn
      have hsus : ∃ f fs, a.framesOf t = f :: fs ∧ f.suspends = true := by
        by_cases htc : t = a.currentThread
        · rw [htc, framesOf_cur]
          exact hf
        · unfold Core.framesOf
          rw [if_neg htc]
          exact hi.own.suspended t hu htc
      obtain ⟨f, fs, he, hfs⟩ := hsus
      rw [he] at hs ⊢
      exact hs.run hfs
    · rw [switch_state_ne htu]
      exact h.shape t ht hn'

theorem Unwound.create (hi : Inv a) (h : Unwound a) (prio : Int) : Unwound (a.create prio) := by
  refine ⟨fun t ht hr => ?_, fun t ht hn => ?_⟩
  · rcases List.mem_cons.mp ht with rfl | ht
    · rw [create_state_self] at hr
      cases hr
    · rw [create_state_ne (hi.lt t ht).ne] at hr
      exact h.idle t ht hr
  · rcases List.mem_cons.mp ht with rfl | ht
    · rw [create_framesOf_self (hi.lt _ hi.cur).ne]
      exact .of_none (by simp) rfl
    · rw [create_framesOf_ne (hi.lt t ht).ne, create_state_ne (hi.lt t ht).ne]
      exact h.shape t ht hn

theorem Unwound.returned {op : SyncOp} (hi : Inv a) (h : Unwound a) (hr : a.tcb.state a.currentThread = .running)
    (hs : Site op a.run.frames fs) : Unwound (a.on (.setFrames fs)) :=
  h.of_local (fun _ => rfl) (hs.local hr) fun hsh => .of_none (hs.no_idle hsh) (hs.callOf_eq hi.seated_run)

theorem Prim.unwound (hi : Inv a) (h : Unwound a) (hp : Prim a b) (hok : Always Undisturbed b.log) : Unwound b := by
  have hseat := hi.seated_run
  cases hp with
  | quiet hq => cases hq <;> exact h.keep (fun _ => rfl) (fun _ => id) (fun _ _ => id) fun _ _ => id
  | tick hc hr => exact h.ticked hi hr
  | leave hr hf | sleepRet hr hf | ioRet hr hf | createRet hr hf =>
    refine h.of_local (fun _ => rfl) { stack := by rw [hf]; exact .pop hr } fun hs => ?_
    rw [hf] at hs hseat
    exact .of_none hs.not_mem (hseat.callOf_below (by simp [Frame.level]))
  | traceOn | avail | errno => exact h.keep (fun _ => rfl) (fun _ => id) (fun _ _ => id) fun _ _ => id
  | move hm hc => exact h.of_local (fun _ => rfl) { stack := hm.stack hc } fun hs => hs.frameMove hm hseat
  | @reap u ht hf hc =>
    refine h.keep (fun t => ?_) (fun t ht => List.mem_of_mem_erase ht) (fun t _ hr => hr) fun t _ hs => hs
    change interrupted t (.freed u _ _ :: (Core.freeGuardedStack u a.toCore).log) = _
    unfold Core.freeGuardedStack
    split <;> rfl
  | ioWake hr => exact h.woken (fun _ => rfl) (hi.ioWake_woken hr)
  | sleepWake ht => exact h.woken (fun _ => rfl) (hi.sleepWake_woken ht)
  | preempt hr => exact h.woken (fun _ => rfl) (hi.preempt_woken hr)
  | @switch u hp hf =>
    refine h.switch hi (hi.live (mem_of_pick (fun _ hu => hi.state hu) hp)) hok.1 ?_
    rcases hf with hf | hf <;> obtain ⟨fs, hf⟩ := List.head?_eq_some_iff.mp hf <;> exact ⟨_, fs, hf, rfl⟩
  | create hr => exact h.create hi _
  | createFail =>
    have hst : ∀ t ∈ a.glob, Function.update a.tcb.state a.brk .ready t = a.tcb.state t := fun t ht =>
      Function.update_of_ne (hi.lt t ht).ne ..
    refine h.keep (fun _ => rfl) (fun _ => id) (fun t ht hr => (hst t ht).symm.trans hr) fun t ht hs => ?_
    change Shape (a.framesOf t) (Function.update a.tcb.state a.brk .ready t)
    rw [hst t ht]
    exact hs
  | finish => exact h.of_update (fun _ => rfl) rfl (by simp) rfl rfl fun _ => rfl
  | mutexInit | semInit => exact h.keep (fun _ => rfl) (fun _ => id) (fun _ _ => id) fun _ _ => id
  | chanInit => exact h.keep (fun _ => rfl) (fun _ => id) (fun _ _ => id) fun _ _ => id
  | lock hr hs | wait hr hs | unlock hr hs | post hr hs =>
    exact (h.returned hi hr hs).keep (fun _ => rfl) (fun _ => id) (fun _ _ => id) fun _ _ => id
  | @block w fs hr hs hw =>
    have hl := (hs.local hr).inv hi
    have hq : Parked .blocked (.wait w) (a.on (.setFrames fs)) ((a.on (.setFrames fs)).block w) := by
      refine hl.block_parked hr ?_ ?_ ?_
      · rintro m rfl; exact Option.isSome_iff_ne_none.mp hw.2
      · rintro sm rfl; exact Option.isSome_iff_ne_none.mp hw.2
      · exact hs.seated w rfl hl.seated_run
    refine (h.returned hi hr hs).parked (fun _ => rfl) hq rfl (by simp) fun hsh => .enter ?_ rfl (by simp)
    change Shape fs (a.tcb.state a.currentThread) at hsh
    rw [hr] at hsh
    exact hsh.no_idle
  | unlockHandoff hr hs | postHandoff hr hs =>
    exact (h.returned hi hr hs).of_update (fun _ => rfl) rfl (by simp) rfl rfl fun _ => rfl
  | sleep hr hf | ioBlock hr hf =>
    first
    | refine h.parked (fun _ => rfl) (hi.sleep_parked hr _ hf) rfl (by simp) fun hsh => .enter ?_ rfl (by simp)
    | refine h.parked (fun _ => rfl) (hi.ioBlock_parked _ hr hf) rfl (by simp) fun hsh => .enter ?_ rfl (by simp)
    rw [hr] at hsh
    first
    | exact hsh.no_idle
    | exact (hf ▸ hsh).not_mem
  | chan hr hid hc =>
    cases hc with
    | store hf | tail hf | load hf | head hf =>
      refine h.of_local (fun _ => rfl) (ChanMove.local hr hid (by constructor; exact hf)) fun hsh => ?_
      rw [hf] at hsh
      exact hsh.replace (by simp) rfl

end

/-! ## The only live thread sleeps -/

section
variable {s : Sys} {q : Layout} {g : List Ptr} {fs : List Frame} {p : Ptr} {env : Env}

theorem Sim.sleepers_single (h : Sim s q g) (ht : s.currentThread ∈ q .sleep)
    (ho : ∀ t ∈ g, t ≠ s.currentThread → s.tcb.state t = .finished) : q .sleep = [s.currentThread] := by
  have hall : ∀ t ∈ q .sleep, t = s.currentThread := by
    intro t hq
    by_contra hne
    have h₁ : s.tcb.state t = .ioBlocked := h.inv.state hq
    rw [ho t (h.inv.live hq) hne] at h₁
    cases h₁
  have hn := h.inv.ok.nodup .sleep
  change (q .sleep).Nodup at hn
  cases hq : q .sleep with
  | nil => rw [hq] at ht; cases ht
  | cons x xs =>
    rw [hq] at hall hn
    obtain rfl := hall x (by simp)
    cases xs with
    | nil => rfl
    | cons y ys =>
      have hy := hall y (by simp)
      simp [hy] at hn

theorem Sim.sole_pass (h : Sim s q g) (hf : s.run.frames = .yieldIdle p :: fs) (ht : s.currentThread ∈ q .sleep)
    (ho : ∀ t ∈ g, t ≠ s.currentThread → s.tcb.state t = .finished)
    (hd : s.tcb.sleepUntilNs s.currentThread ≤ s.getTimeNs) {s' : Sys}
    (hs : s.idlePass env .yieldIdle .yieldSwap p fs = s') :
    s'.run.frames = .yieldSwap p :: fs ∧ s'.currentThread = s.currentThread ∧ s'.exited = s.exited ∧
      s'.tcb.state s.currentThread = .running := by
  obtain ⟨-, h₁⟩ := h.blockSignals
  have hp : p = s.currentThread := h.prev_eq hf rfl
  have hio : (s.on .blockSignals).checkIoEvents env = s.on .blockSignals := by
    refine checkIoEvents_none fun _ t ht' hst => ?_
    obtain ⟨⟨u, dir⟩, hu, rfl⟩ := List.mem_map.mp ht'
    obtain ⟨fd, -, hfd⟩ := List.mem_filterMap.mp (List.mem_of_mem_take hu)
    -- whoever is registered does not sleep, so it is another thread
    obtain ⟨hg, hblk, -, hns⟩ := h.inv.reg hfd
    have hfin := ho u hg fun e => hns (e ▸ ht)
    rw [show s.tcb.state u = .ioBlocked from hblk] at hfin
    cases hfin
  have hchain : Linked.Chain s.lk.next s.lk.sleepListHead [s.currentThread] := by
    have := h.rep.chain .sleep
    rwa [h.sleepers_single ht ho] at this
  obtain ⟨hhead, hnext⟩ := hchain
  obtain ⟨q₂, hw, h₂⟩ := h₁.checkSleepList
  have hk := hw.kept
  have hst : (s.on .blockSignals).checkSleepList.tcb.state s.currentThread = .ready := by
    unfold Sys.checkSleepList
    change (Sys.sleepLoop s.getTimeNs (s.brk + 1) none s.lk.sleepListHead _).tcb.state _ = _
    rw [hhead]
    unfold Sys.sleepLoop
    rw [if_pos (show ((s.on .blockSignals).on .tickClock).tcb.sleepUntilNs s.currentThread ≤ s.getTimeNs from hd)]
    rw [show ((s.on .blockSignals).on .tickClock).lk.next s.currentThread = none from hnext]
    have hup : Function.update s.tcb.state s.currentThread TState.ready s.currentThread = .ready := Function.update_self ..
    cases s.brk <;> exact hup
  rw [idlePass_eq rfl, hio] at hs
  generalize (s.on .blockSignals).checkSleepList = s₂ at hw h₂ hk hst hs
  have hcur : s₂.currentThread = s.currentThread := hk.cur
  have hrun : s₂.run.frames = .yieldIdle p :: fs := by
    rw [show s₂.run = (s.on .blockSignals).run from hk.run]
    exact hf
  obtain ⟨lk, hsn, hlk⟩ := h₂.scheduleNext
  have hmem : s.currentThread ∈ q₂ .ready := h₂.inv.ready _ h.inv.cur hst
  have hpick : pick s₂.currentScheduler s₂.tcb (q₂ .ready) = some p := by
    cases hpk : pick s₂.currentScheduler s₂.tcb (q₂ .ready) with
    | none =>
      rw [hpk] at hlk
      rw [hlk.1] at hmem
      cases hmem
    | some u =>
      rw [hpk] at hlk
      have hu : s₂.tcb.state u = .ready := h₂.inv.state hlk.1
      by_contra hne
      have hfin := ho u (h₂.inv.live hlk.1) fun e => hne (by rw [e, hp])
      rcases hk.state u with e | ⟨e, -⟩
      · rw [show s₂.tcb.state u = s.tcb.state u from e, hfin] at hu
        cases hu
      · rw [show s.tcb.state u = .ioBlocked from e] at hfin
        cases hfin
  rw [hsn, hpick] at hs
  subst hs
  refine ⟨?_, hp, hk.exited, ?_⟩
  · change (Function.update s₂.tcb.context p _ p).frames = _
    rw [Function.update_self]
    rfl
  · rw [← hp]
    exact Function.update_self ..

theorem step_resume (s : Sys) {f : Frame} (hx : s.exited = false) (hf : s.run.frames = f :: fs) :
    s.step (.resume env) = s.resume env fs f := by
  unfold Sys.step
  simp [hx, hf]

theorem exec_return {d : Nat} (hx : s.exited = false) (hf : s.run.frames = .yieldSwap p :: .sleeping d :: fs) :
    ∃ s', Trans.exec Sys.step s [.resume env, .resume env, .resume env] = some s' ∧
      s'.currentThread = s.currentThread ∧ s'.tcb = s.tcb ∧ s'.run.frames = fs := by
  let s₁ := (s.on .unblockSignals).ret (.yieldRet :: .sleeping d :: fs)
  let s₂ := s₁.ret (.sleeping d :: fs)
  have h₁ : s.step (.resume env) = some s₁ := step_resume s hx hf
  have h₂ : s₁.step (.resume env) = some s₂ := step_resume s₁ hx rfl
  refine ⟨(s₂.on (.note (.sleepRet s₂.currentThread d s₂.readings))).ret fs, ?_, rfl, rfl, rfl⟩
  have h₃ : s₂.step (.resume env) = some _ := step_resume s₂ hx rfl
  simp only [Trans.exec, h₁, h₂, h₃, Option.bind_some]

end

/-! ## Runs -/

theorem unwound_init (clock : Nat → Nat) (epollFd : Fd) (avail : Fd × IoDir → Bool) : Unwound (initAbs clock epollFd avail) where
  idle _ _ _ := rfl
  shape t ht _ := by
    cases List.mem_singleton.mp ht
    exact .of_none (by simp [initAbs, Sys.abs, Sys.uthreadInit, Core.framesOf]) rfl

theorem reachable_unwound {s : Sys} (h : Sys.Reachable s) (hok : Always Undisturbed s.log) :
    ∃ q g, Sim s q g ∧ Bd (s.abs q g) ∧ Unwound (s.abs q g) := by
  have hstep : ∀ a b, Inv a → (Always Undisturbed a.log → Unwound a) → Prim a b → Always Undisturbed b.log → Unwound b := by
    intro a b hi ha hp hok
    obtain ⟨es, hlog⟩ := (hp.sync hi).log
    rw [hlog] at hok
    exact hp.unwound hi (ha hok.older) (hlog ▸ hok)
  obtain ⟨q, g, hs, hb, hu⟩ := reachable_inv (fun c e v _ => unwound_init c e v) hstep h
  exact ⟨q, g, hs, hb, hu hok⟩

structure SoleSleeper (s : Sys) (g : List Ptr) : Prop where
  sleeping : s.tcb.state s.currentThread = .ioBlocked
  call : ∃ d, callOf s.run.frames = some (.sleep d)
  idle : ∃ p, s.run.frames.head? = some (.yieldIdle p)
  others : ∀ t ∈ g, t ≠ s.currentThread → s.tcb.state t = .finished
  due : s.tcb.sleepUntilNs s.currentThread ≤ s.getTimeNs
  alive : s.exited = false

/-- In a run in which no thread is dispatched after a tick in its idle loop, a RUNNING thread is in no
idle loop, leaves the blocking call it is in, and the last thread leaves `uthread_sleep` when it is due. -/
theorem dispatched_leaves {s : Sys} (h : Sys.Reachable s) (hok : Always Undisturbed s.log) :
    (s.tcb.state s.currentThread = .running → (∀ p, .yieldIdle p ∉ s.run.frames) ∧
      (callOf s.run.frames ≠ none → Leaves s.run.frames)) ∧
    ∃ g, Linked.Chain s.lk.globalNext s.lk.globalThreadList g ∧
      (SoleSleeper s g → interrupted s.currentThread s.log = false → ∀ env, ∃ p d fs s',
        s.run.frames = .yieldIdle p :: .sleeping d :: fs ∧
        Trans.exec Sys.step s [.resume env, .resume env, .resume env, .resume env] = some s' ∧
        s'.currentThread = s.currentThread ∧ s'.tcb.state s.currentThread = .running ∧ s'.run.frames = fs) := by
  obtain ⟨q, g, hs, -, hu⟩ := reachable_unwound h hok
  have hcur : interrupted s.currentThread s.log = false → Shape s.run.frames (s.tcb.state s.currentThread) := by
    intro hn
    have := hu.shape _ hs.inv.cur hn
    rwa [framesOf_cur] at this
  refine ⟨fun hr => ?_, g, hs.rep.glob.fwd, fun hsole hn env => ?_⟩
  · have hsh := hcur (hu.idle _ hs.inv.cur hr)
    rw [hr] at hsh
    refine ⟨hsh.no_idle, fun hc => ?_⟩
    rcases hsh.call with he | ⟨-, hl⟩ | ⟨hn, -⟩
    · exact absurd he hc
    · exact hl
    · exact absurd rfl hn
  · have hsh := hcur hn
    rw [hsole.sleeping] at hsh
    obtain ⟨d, hd⟩ := hsole.call
    obtain ⟨p, hp⟩ := hsole.idle
    rcases hsh.call with he | ⟨hw, -⟩ | ⟨-, g', f, fs, he, -, hf⟩
    · rw [hd] at he
      cases he
    · cases hw
    · rw [he] at hp hd
      obtain rfl : g' = .yieldIdle p := by simpa using hp
      have hf' : f = .sleeping d := by
        cases f with
        | sleeping d' => simpa [callOf] using hd
        | waiting w => simp [callOf] at hd
        | ioWait fd dir => simp [callOf] at hd
        | _ => cases hf
      subst hf'
      have hmem : s.currentThread ∈ q .sleep := by
        rcases hs.inv.io _ hs.inv.cur hsole.sleeping with ⟨-, hm⟩ | ⟨⟨fd, dir, hc⟩, -⟩
        · exact hm
        · rw [framesOf_cur] at hc
          change callOf s.run.frames = _ at hc
          rw [he] at hc
          cases hc
      obtain ⟨h₁, h₂, h₃, h₄⟩ := hs.sole_pass he hmem hsole.others hsole.due rfl
      obtain ⟨s', hx, hc, ht, hfs⟩ := exec_return (h₃.trans hsole.alive) h₁
      refine ⟨p, d, fs, s', he, ?_, hc.trans h₂, ?_, hfs⟩
      · unfold Trans.exec
        rw [step_resume s hsole.alive he]
        exact hx
      · rw [ht]
        exact h₄

/-- A single thread sleeps, is woken by its own idle loop and returns. -/
theorem dispatched_leaves_asleep :
    let s := Sys.after (fun i => if i ≤ 1 then 0 else 10000000) [.call (.sleep 1) {}, .resume {}, .resume {}]
    (s.run.masked = false ∧ s.tcb.state 0 = .ioBlocked ∧ s.run.frames = [.yieldIdle 0, .sleeping 1000000, .user]) ∧
    (s.tcb.state s.currentThread = .running → (∀ p, .yieldIdle p ∉ s.run.frames) ∧
      (callOf s.run.frames ≠ none → Leaves s.run.frames)) ∧
    ∃ g, Linked.Chain s.lk.globalNext s.lk.globalThreadList g ∧
      (SoleSleeper s g → interrupted s.currentThread s.log = false → ∀ env, ∃ p d fs s',
        s.run.frames = .yieldIdle p :: .sleeping d :: fs ∧
        Trans.exec Sys.step s [.resume env, .resume env, .resume env, .resume env] = some s' ∧
        s'.currentThread = s.currentThread ∧ s'.tcb.state s.currentThread = .running ∧ s'.run.frames = fs) :=
  ⟨by decide +kernel, dispatched_leaves (Sys.reachable_after (by decide +kernel)) (by decide +kernel)⟩

/-- A tick in the idle loop of the only thread wakes it in the nested activation, and the outer idle loop
goes on with the thread RUNNING. -/
theorem idle_loop_keeps_thread :
    ∃ s : Sys, Sys.Reachable s ∧ s.run.masked = false ∧ s.tcb.state s.currentThread = .running ∧
      s.run.frames = [.yieldIdle 0, .sleeping 1000000, .user] :=
  ⟨Sys.after (fun i => if i ≤ 1 then 0 else 10000000) [.call (.sleep 1) {}, .resume {}, .resume {}, .tick,
      .resume {}, .resume {}, .resume {}, .resume {}, .resume {}],
    Sys.reachable_after (by decide +kernel), by decide +kernel, by decide +kernel, by decide +kernel⟩

end Uthread
