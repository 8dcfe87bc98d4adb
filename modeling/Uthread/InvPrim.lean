import Uthread.InvStep

/-!
# The scheduling invariant along runs

The transitions that add, dispatch, finish and reclaim threads, those that act
on one object, and the invariant over all of them.
-/

namespace Uthread

variable {a b : Abs} {t u : Ptr} {fs : List Frame}

/-! ## Threads come and go -/

theorem reap_log_eq (a : Abs) (t : Ptr) : (a.reap t).log =
    .freed t (a.tcb.state t) a.run.onStack ::
      (match a.tcb.stack t with | some r => Event.unmapped r :: a.log | none => a.log) := rfl

theorem reap_log {P : Event → Prop} (a : Abs) (t : Ptr) (hf : ∀ st own, P (.freed t st own)) (hu : ∀ r, P (.unmapped r)) :
    ∃ es, (a.reap t).log = es ++ a.log ∧ ∀ e ∈ es, P e := by
  rw [reap_log_eq]
  cases a.tcb.stack t with
  | none => exact ⟨[_], rfl, by simpa using hf _ _⟩
  | some r => exact ⟨[_, _], rfl, by simpa using ⟨hf _ _, hu r⟩⟩

theorem Inv.reap (h : Inv a) (hf : a.tcb.state t = .finished) (hc : t ≠ a.currentThread) : Inv (a.reap t) where
  ok := h.ok
  state := h.state
  live {i u} hu := by
    have hne : u ≠ t := by rintro rfl; exact h.notMem_of_finished hf i hu
    exact (List.mem_erase_of_ne hne).mpr (h.live hu)
  nodup := h.nodup.erase t
  lt u hu := h.lt u (List.mem_of_mem_erase hu)
  cur := (List.mem_erase_of_ne (Ne.symm hc)).mpr h.cur
  ready u hu := h.ready u (List.mem_of_mem_erase hu)
  blocked u hu := h.blocked u (List.mem_of_mem_erase hu)
  io u hu := h.io u (List.mem_of_mem_erase hu)
  reg {fd u dir} hr := by
    obtain ⟨h₁, h₂, h₃⟩ := h.reg hr
    have hne : u ≠ t := by rintro rfl; rw [hf] at h₂; cases h₂
    exact ⟨(List.mem_erase_of_ne hne).mpr h₁, h₂, h₃⟩
  exits u hu := h.exits u (List.mem_of_mem_erase hu)
  prevs u hu := h.prevs u (List.mem_of_mem_erase hu)
  seated u hu := h.seated u (List.mem_of_mem_erase hu)
  own := ⟨h.own.run, fun u hu => h.own.saved u (List.mem_of_mem_erase hu),
    fun u hu => h.own.suspended u (List.mem_of_mem_erase hu)⟩
  mutexes := h.mutexes
  sems := h.sems
  chans := h.chans
  chanFrames u hu := h.chanFrames u (List.mem_of_mem_erase hu)

theorem switch_state_ne (h : u ≠ t) : (a.switch t).tcb.state u = a.tcb.state u := Function.update_of_ne h ..

theorem switch_state_self : (a.switch t).tcb.state t = .running := Function.update_self ..

theorem switch_run : (a.switch t).run = if t = a.currentThread then a.run else a.tcb.context t := by
  change Function.update a.tcb.context a.currentThread a.run t = _
  by_cases h : t = a.currentThread
  · subst h; simp
  · simp [h]

theorem mem_switch (h : Inv a) (ht : t ∈ a.q .ready) {i : QId} : u ∈ (a.switch t).q i ↔ u ∈ a.q i ∧ u ≠ t := by
  refine h.ok.mem_drop.trans (and_congr_right fun hu => ⟨fun hn e => hn ⟨h.ok.disj hu (e ▸ ht), e⟩, fun hn e => hn e.2⟩)

theorem switch_wait {w : WaitObj} : (a.switch t).q (.wait w) = a.q (.wait w) := by
  change (a.q.drop .ready t) (.wait w) = _
  exact Layout.drop_of_ne (by simp)

theorem Inv.switch (h : Inv a) (ht : t ∈ a.q .ready)
    (hs : ∃ f fs, a.run.frames = f :: fs ∧ f.suspends = true) : Inv (a.switch t) where
  ok := h.ok.drop
  state {i u} hu := by
    obtain ⟨hu, hne⟩ := (mem_switch h ht).mp hu
    rw [switch_state_ne hne]; exact h.state hu
  live hu := h.live ((mem_switch h ht).mp hu).1
  nodup := h.nodup
  lt := h.lt
  cur := h.live ht
  ready u hu hs := by
    have hne : u ≠ t := by rintro rfl; rw [switch_state_self] at hs; cases hs
    rw [switch_state_ne hne] at hs
    exact (mem_switch h ht).mpr ⟨h.ready u hu hs, hne⟩
  blocked u hu hs := by
    have hne : u ≠ t := by rintro rfl; rw [switch_state_self] at hs; cases hs
    rw [switch_state_ne hne] at hs
    obtain ⟨w, hc, hm⟩ := h.blocked u hu hs
    exact ⟨w, by rw [framesOf_switch]; exact hc, (mem_switch h ht).mpr ⟨hm, hne⟩⟩
  io u hu hs := by
    have hne : u ≠ t := by rintro rfl; rw [switch_state_self] at hs; cases hs
    rw [switch_state_ne hne] at hs
    rw [framesOf_switch]
    exact (h.io u hu hs).imp (And.imp_right fun hm => (mem_switch h ht).mpr ⟨hm, hne⟩)
      (And.imp_right fun hm hm' => hm ((mem_switch h ht).mp hm').1)
  reg {fd u dir} hr := by
    obtain ⟨h₁, h₂, h₃, h₄⟩ := h.reg hr
    have hne : u ≠ t := by rintro rfl; rw [h.state ht] at h₂; cases h₂
    exact ⟨h₁, (switch_state_ne hne).trans h₂, h₃, fun hm => h₄ ((mem_switch h ht).mp hm).1⟩
  exits u hu he := by
    rw [framesOf_switch] at he
    have hf := h.exits u hu he
    have hne : u ≠ t := by rintro rfl; rw [h.state ht] at hf; cases hf
    exact (switch_state_ne hne).trans hf
  prevs u hu := by rw [framesOf_switch]; exact h.prevs u hu
  seated u hu := by rw [framesOf_switch]; exact h.seated u hu
  own := by
    constructor
    · rw [switch_run]
      split_ifs with hc
      · rw [h.own.run]; exact hc.symm
      · exact h.own.saved t (h.live ht)
    · intro u hu
      change (Function.update a.tcb.context a.currentThread a.run u).onStack = u
      by_cases hc : u = a.currentThread
      · subst hc; rw [Function.update_self]; exact h.own.run
      · rw [Function.update_of_ne hc]; exact h.own.saved u hu
    · intro u hu _
      change ∃ f fs, (Function.update a.tcb.context a.currentThread a.run u).frames = f :: fs ∧ _
      by_cases hc : u = a.currentThread
      · subst hc; rw [Function.update_self]; exact hs
      · rw [Function.update_of_ne hc]; exact h.own.suspended u hu hc
  mutexes m hm := switch_wait.trans (h.mutexes m hm)
  sems sm hs := switch_wait.trans (h.sems sm hs)
  chans := h.chans
  chanFrames u hu := by rw [framesOf_switch]; exact h.chanFrames u hu

section
variable {prio : Int}

theorem create_state_ne (h : u ≠ a.brk) : (a.create prio).tcb.state u = a.tcb.state u := Function.update_of_ne h ..

theorem create_state_self : (a.create prio).tcb.state a.brk = .ready := Function.update_self ..

theorem create_framesOf_ne (h : u ≠ a.brk) : (a.create prio).framesOf u = a.framesOf u := by
  change (if u = a.currentThread then a.run.frames else (Function.update a.tcb.context a.brk _ u).frames) = _
  rw [Function.update_of_ne h]; rfl

theorem create_framesOf_self (h : a.currentThread ≠ a.brk) : (a.create prio).framesOf a.brk = [.start] := by
  change (if a.brk = a.currentThread then a.run.frames else (Function.update a.tcb.context a.brk _ a.brk).frames) = _
  rw [if_neg h.symm, Function.update_self]

theorem mem_create {i : QId} : u ∈ (a.create prio).q i ↔ u ∈ a.q i ∨ i = .ready ∧ u = a.brk := Layout.mem_push

theorem create_wait {w : WaitObj} : (a.create prio).q (.wait w) = a.q (.wait w) := by
  change (a.q.push .ready a.brk) (.wait w) = _
  exact Layout.push_of_ne (by simp)

theorem Inv.create (h : Inv a) (prio : Int) : Inv (a.create prio) := by
  have hlt : ∀ u ∈ a.glob, u ≠ a.brk := fun u hu => (h.lt u hu).ne
  have hfresh := h.notMem_of_fresh
  exact
    { ok := h.ok.push hfresh
      state := fun {i u} hu => by
        rcases mem_create.mp hu with hu | ⟨rfl, rfl⟩
        · rw [create_state_ne (hlt u (h.live hu))]; exact h.state hu
        · exact create_state_self
      live := fun {i u} hu => by
        rcases mem_create.mp hu with hu | ⟨rfl, rfl⟩
        · exact List.mem_cons_of_mem _ (h.live hu)
        · exact List.mem_cons_self
      nodup := List.nodup_cons.mpr ⟨fun hm => hlt _ hm rfl, h.nodup⟩
      lt := fun u hu => by
        rcases List.mem_cons.mp hu with rfl | hu
        · exact Nat.lt_succ_self _
        · exact (h.lt u hu).trans (Nat.lt_succ_self _)
      cur := List.mem_cons_of_mem _ h.cur
      ready := fun u hu hs => by
        rcases List.mem_cons.mp hu with rfl | hu
        · exact mem_create.mpr (.inr ⟨rfl, rfl⟩)
        · rw [create_state_ne (hlt u hu)] at hs
          exact mem_create.mpr (.inl (h.ready u hu hs))
      blocked := fun u hu hs => by
        rcases List.mem_cons.mp hu with rfl | hu
        · rw [create_state_self] at hs; cases hs
        · rw [create_state_ne (hlt u hu)] at hs
          obtain ⟨w, hc, hm⟩ := h.blocked u hu hs
          exact ⟨w, by rw [create_framesOf_ne (hlt u hu)]; exact hc, mem_create.mpr (.inl hm)⟩
      io := fun u hu hs => by
        rcases List.mem_cons.mp hu with rfl | hu
        · rw [create_state_self] at hs; cases hs
        · rw [create_state_ne (hlt u hu)] at hs
          rw [create_framesOf_ne (hlt u hu)]
          refine (h.io u hu hs).imp (And.imp_right fun hm => mem_create.mpr (.inl hm))
            (And.imp_right fun hm hm' => ?_)
          rcases mem_create.mp hm' with hm' | ⟨hi, -⟩
          · exact hm hm'
          · cases hi
      reg := fun {fd u dir} hr => by
        obtain ⟨h₁, h₂, h₃, h₄⟩ := h.reg hr
        have hne := hlt u h₁
        refine ⟨List.mem_cons_of_mem _ h₁, (create_state_ne hne).trans h₂, (Function.update_of_ne hne ..).trans h₃, ?_⟩
        intro hm
        rcases mem_create.mp hm with hm | ⟨hi, -⟩
        · exact h₄ hm
        · cases hi
      exits := fun u hu he => by
        rcases List.mem_cons.mp hu with rfl | hu
        · rw [create_framesOf_self (hlt _ h.cur)] at he
          obtain ⟨f, hf, hx⟩ := he
          cases List.mem_singleton.mp hf
          cases hx
        · rw [create_framesOf_ne (hlt u hu)] at he
          rw [create_state_ne (hlt u hu)]; exact h.exits u hu he
      prevs := fun u hu f hf => by
        rcases List.mem_cons.mp hu with rfl | hu
        · rw [create_framesOf_self (hlt _ h.cur)] at hf
          cases List.mem_singleton.mp hf
          exact .inl rfl
        · rw [create_framesOf_ne (hlt u hu)] at hf; exact h.prevs u hu f hf
      seated := fun u hu => by
        rcases List.mem_cons.mp hu with rfl | hu
        · rw [create_framesOf_self (hlt _ h.cur)]; exact .singleton _
        · rw [create_framesOf_ne (hlt u hu)]; exact h.seated u hu
      own := by
        refine ⟨h.own.run, fun u hu => ?_, fun u hu hc => ?_⟩
        · change (Function.update a.tcb.context a.brk _ u).onStack = u
          rcases List.mem_cons.mp hu with rfl | hu
          · rw [Function.update_self]
          · rw [Function.update_of_ne (hlt u hu)]; exact h.own.saved u hu
        · change ∃ f fs, (Function.update a.tcb.context a.brk _ u).frames = f :: fs ∧ _
          rcases List.mem_cons.mp hu with rfl | hu
          · rw [Function.update_self]; exact ⟨_, _, rfl, rfl⟩
          · rw [Function.update_of_ne (hlt u hu)]; exact h.own.suspended u hu hc
      mutexes := fun m hm => create_wait.trans (h.mutexes m hm)
      sems := fun sm hs => create_wait.trans (h.sems sm hs)
      chans := h.chans
      chanFrames := fun u hu f hf => by
        rcases List.mem_cons.mp hu with rfl | hu
        · rw [create_framesOf_self (hlt _ h.cur)] at hf
          cases List.mem_singleton.mp hf
          simp [Frame.chan?]
        · rw [create_framesOf_ne (hlt u hu)] at hf; exact h.chanFrames u hu f hf }

theorem Inv.createFail (h : Inv a) (prio : Int) : Inv (a.on fun c => (c.allocTcb prio).free c.brk) := by
  have hlt : ∀ u ∈ a.glob, u ≠ a.brk := fun u hu => (h.lt u hu).ne
  have hst : ∀ u ∈ a.glob, (a.on fun c => (c.allocTcb prio).free c.brk).tcb.state u = a.tcb.state u := fun u hu =>
    Function.update_of_ne (hlt u hu) ..
  exact
    { ok := h.ok
      state := fun hu => (hst _ (h.live hu)).trans (h.state hu)
      live := h.live
      nodup := h.nodup
      lt := fun u hu => (h.lt u hu).trans (Nat.lt_succ_self _)
      cur := h.cur
      ready := fun u hu hs => h.ready u hu ((hst u hu).symm.trans hs)
      blocked := fun u hu hs => h.blocked u hu ((hst u hu).symm.trans hs)
      io := fun u hu hs => h.io u hu ((hst u hu).symm.trans hs)
      reg := fun {fd u dir} hr => by
        obtain ⟨h₁, h₂, h₃, h₄⟩ := h.reg hr
        exact ⟨h₁, (hst u h₁).trans h₂, (Function.update_of_ne (hlt u h₁) ..).trans h₃, h₄⟩
      exits := fun u hu he => (hst u hu).trans (h.exits u hu he)
      prevs := h.prevs
      seated := h.seated
      own := ⟨h.own.run, h.own.saved, h.own.suspended⟩
      mutexes := h.mutexes
      sems := h.sems
      chans := h.chans
      chanFrames := h.chanFrames }

end

theorem Inv.finish (h : Inv a) (hr : a.tcb.state a.currentThread = .running) : Inv a.finish := by
  have hno := h.notMem_of_running hr
  have hself : a.finish.tcb.state a.currentThread = .finished := Function.update_self ..
  have hst : ∀ {u}, u ≠ a.currentThread → a.finish.tcb.state u = a.tcb.state u := fun hu => Function.update_of_ne hu ..
  have hne : ∀ {u st}, a.finish.tcb.state u = st → st ≠ .finished → u ≠ a.currentThread := by
    rintro u st hu hs rfl; exact hs (hu.symm.trans hself)
  exact
    { ok := h.ok
      state := fun {i u} hu => by
        have : u ≠ a.currentThread := by rintro rfl; exact hno i hu
        rw [hst this]; exact h.state hu
      live := h.live
      nodup := h.nodup
      lt := h.lt
      cur := h.cur
      ready := fun u hu hs => h.ready u hu (by rw [← hst (hne hs (by simp))]; exact hs)
      blocked := fun u hu hs => h.blocked u hu (by rw [← hst (hne hs (by simp))]; exact hs)
      io := fun u hu hs => h.io u hu (by rw [← hst (hne hs (by simp))]; exact hs)
      reg := fun {fd u dir} hi => by
        obtain ⟨h₁, h₂, h₃⟩ := h.reg hi
        have : u ≠ a.currentThread := by rintro rfl; rw [hr] at h₂; cases h₂
        exact ⟨h₁, (hst this).trans h₂, h₃⟩
      exits := fun u hu he => by
        by_cases hc : u = a.currentThread
        · subst hc; exact hself
        · rw [hst hc]; exact h.exits u hu he
      prevs := h.prevs
      seated := h.seated
      own := ⟨h.own.run, h.own.saved, h.own.suspended⟩
      mutexes := h.mutexes
      sems := h.sems
      chans := h.chans
      chanFrames := h.chanFrames }

/-! ## Objects -/

theorem update_eq_none {α β : Type} [DecidableEq α] {f : α → Option β} {x y : α} {v : β}
    (h : Function.update f x (some v) y = none) : f y = none ∧ y ≠ x := by
  by_cases hy : y = x
  · subst hy; simp at h
  · rw [Function.update_of_ne hy] at h; exact ⟨h, hy⟩

theorem Quiet.local {c : Core} (h : Quiet a.toCore c) : Local a { a with toCore := c } := by
  cases h with
  | ioFd fd hr =>
    refine { (Local.refl (a := a)) with ioFd := fun t ht => Function.update_of_ne ?_ .. }
    rintro rfl; exact ht hr
  | mask | tickClock | scheduler | traceOff | exit => exact { (Local.refl (a := a)) with }

theorem ChanMove.local {id : Nat} {ch : Channel} {c : Core} (hr : a.tcb.state a.currentThread = .running)
    (hid : a.chan id = some ch) (h : ChanMove a.toCore id ch c) : Local a { a with toCore := c } := by
  have hstack : ∀ {f f' : Frame} {fs : List Frame}, a.run.frames = f :: fs → f'.level = f.level → f'.isExit = false →
      f'.prev? = none → f'.chan? = f.chan? → StackMove a.toCore a.run.frames (f' :: fs) := by
    intro f f' fs hf hb he hp hch
    rw [hf]
    refine .of_running hr (fun g hg => ?_) fun hs => hs.retop hb
    rcases List.mem_cons.mp hg with rfl | hg
    · exact .inr ⟨he, .inl hp, fun id hid => .inl ⟨f, List.mem_cons_self, hch ▸ hid⟩⟩
    · exact .inl (List.mem_cons_of_mem _ hg)
  have hset : ∀ {ch' : Channel} {x : Nat}, (Function.update a.chan id (some ch') x).isSome ↔ (a.chan x).isSome := by
    intro ch' x
    by_cases hx : x = id
    · subst hx; simp [hid]
    · simp [hx]
  cases h with
  | load hf => exact { (Local.refl (a := a)) with stack := hstack hf rfl rfl rfl rfl }
  | store hf | tail hf | head hf =>
    exact
      { (Local.refl (a := a)) with
        stack := hstack hf rfl rfl rfl rfl
        chan := fun x hx => hset.mpr hx
        chans := fun x hx =>
          ⟨hx.1.trans hset.symm, hx.2.1.trans hset.symm, hx.2.2.trans hset.symm⟩ }

theorem Site.local {op : SyncOp} (hr : a.tcb.state a.currentThread = .running) (h : Site op a.run.frames fs) :
    Local a (a.on (.setFrames fs)) :=
  .of_frames (h.stack hr)

theorem update_isSome {α β : Type} [DecidableEq α] {f : α → Option β} {x y : α} {v : β} (hx : (f x).isSome) :
    (Function.update f x (some v) y).isSome ↔ (f y).isSome := by
  by_cases hy : y = x
  · subst hy; simp [hx]
  · simp [hy]

theorem Local.setLocked {m : MutexId} {v : Int} {b : Abs} (hl : Local a b) (hm : (b.mutexLocked m).isSome) :
    Local a (b.on (.setLocked m v)) :=
  { hl with
    mutexes := fun m' h => hl.mutexes m' (update_eq_none h).1
    chans := fun id h => by
      have hb := hl.chans id h
      exact ⟨(update_isSome hm).trans hb.1, hb.2⟩ }

theorem Local.setCount {sm : SemId} {n : Int} {b : Abs} (hl : Local a b) (hm : (b.semCount sm).isSome) :
    Local a (b.on (.setCount sm n)) :=
  { hl with
    sems := fun m' h => hl.sems m' (update_eq_none h).1
    chans := fun id h => by
      have hb := hl.chans id h
      exact ⟨hb.1, (update_isSome hm).trans hb.2.1, (update_isSome hm).trans hb.2.2⟩ }

theorem isSome_of_count {sm : SemId} (h : 0 < a.count sm) : (a.semCount sm).isSome := by
  unfold Core.count at h
  cases hs : a.semCount sm with
  | none => rw [hs] at h; cases h
  | some n => rfl

theorem Local.note {b : Abs} (hl : Local a b) (e : Event) : Local a (b.on (.note e)) := { hl with stack := hl.stack }

theorem Abs.chanInit_local {id : Nat} {ch : Channel} (hid : (a.chan id).isNone) : Local a (a.chanInit id ch) where
  stack := .refl
  mutexes m h := (update_eq_none h).1
  sems sm h := (update_eq_none (update_eq_none h).1).1
  chan x hx := by
    change (Function.update a.chan id (some ch) x).isSome
    by_cases h : x = id
    · subst h; simp
    · simpa [h] using hx
  chans x hx := by
    change ((Function.update a.mutexLocked (.chan id) (some 0) (.chan x)).isSome ↔
        (Function.update a.chan id (some ch) x).isSome) ∧
      ((Function.update (Function.update a.semCount (.space id) (some (cint ch.capacity))) (.messages id)
        (some (cint 0)) (.space x)).isSome ↔ (Function.update a.chan id (some ch) x).isSome) ∧
      ((Function.update (Function.update a.semCount (.space id) (some (cint ch.capacity))) (.messages id)
        (some (cint 0)) (.messages x)).isSome ↔ (Function.update a.chan id (some ch) x).isSome)
    by_cases h : x = id
    · subst h; simp
    · obtain ⟨h₁, h₂, h₃⟩ := hx
      simp [h, ← h₁, h₂, h₃]

theorem StackMove.tick {c : Core} (hc : Clear fs) : StackMove c fs (.yieldEntry :: .alrmHandler :: fs) := by
  refine .of_plain (fun _ _ => rfl) (fun f hf => ?_) fun h => (h.push hc rfl).push (by rintro _ ⟨⟩; rfl) rfl
  rcases List.mem_cons.mp hf with rfl | hf
  · exact .inr ⟨rfl, .inl rfl, by simp [Frame.chan?]⟩
  · rcases List.mem_cons.mp hf with rfl | hf
    · exact .inr ⟨rfl, .inl rfl, by simp [Frame.chan?]⟩
    · exact .inl hf

theorem StackMove.pop {c : Core} {f : Frame} (hr : c.tcb.state c.currentThread = .running) : StackMove c (f :: fs) fs :=
  .of_running hr (fun _ hf => .inl (List.mem_cons_of_mem _ hf)) Seated.below

theorem Prim.inv (h : Inv a) (hp : Prim a b) : Inv b := by
  cases hp with
  | quiet hq => exact hq.local.inv h
  | tick hc => exact Local.inv (a := a) { stack := .tick hc } h
  | leave hr hf | sleepRet hr hf | ioRet hr hf | createRet hr hf => exact Local.inv (a := a) { stack := by rw [hf]; exact .pop hr } h
  | traceOn | avail | errno => exact Local.inv (a := a) { stack := .refl } h
  | move hm hc => exact Local.inv (a := a) { stack := hm.stack hc } h
  | reap _ hf hc => exact h.reap hf hc
  | ioWake hr => exact h.ioWake hr
  | sleepWake ht => exact h.sleepWake ht
  | preempt hr => exact h.preempt hr
  | switch hp hf =>
    refine h.switch (mem_of_pick (fun _ hu => h.state hu) hp) ?_
    rcases hf with hf | hf <;> obtain ⟨fs, hf⟩ := List.head?_eq_some_iff.mp hf <;> exact ⟨_, fs, hf, rfl⟩
  | create => exact h.create _
  | createFail => exact h.createFail _
  | finish hr => exact h.finish hr
  | mutexInit =>
    exact Local.inv (a := a) { stack := .refl, mutexes := fun _ hm => (update_eq_none hm).1, chans := fun _ hx => hx } h
  | semInit =>
    exact Local.inv (a := a) { stack := .refl, sems := fun _ hs => (update_eq_none hs).1, chans := fun _ hx => hx } h
  | chanInit hid => exact (Abs.chanInit_local hid).inv h
  | @lock m fs hr hs hm =>
    have hm : ((a.on (.setFrames fs)).mutexLocked m).isSome := Option.isSome_of_eq_some hm
    exact ((((hs.local hr).setLocked hm).note _).note _).inv h
  | @wait sm fs hr hs hn =>
    have hn : ((a.on (.setFrames fs)).semCount sm).isSome := isSome_of_count hn
    exact ((((hs.local hr).setCount hn).note _).note _).inv h
  | @block w fs hr hs hw =>
    have hl := (hs.local hr).inv h
    refine (hl.block_parked hr ?_ ?_ ?_).inv hl hr
    · rintro m rfl; exact Option.isSome_iff_ne_none.mp hw.2
    · rintro sm rfl; exact Option.isSome_iff_ne_none.mp hw.2
    · exact hs.seated w rfl (by have := hl.seated _ hl.cur; rwa [framesOf_cur] at this)
  | unlock hr hs hm => exact (((hs.local hr).setLocked hm).note _).inv h
  | unlockHandoff hr hs ht =>
    refine ((hs.local hr).inv h).handoff ?_
    change _ ∈ a.q _
    rw [ht]; exact List.mem_cons_self
  | post hr hs hm => exact (((hs.local hr).setCount hm).note _).inv h
  | @postHandoff sm fs t ts hr hs ht =>
    have hne : a.semCount sm ≠ none := fun hn => by rw [h.sems sm hn] at ht; cases ht
    refine (((hs.local hr).setCount (Option.isSome_iff_ne_none.mpr hne)).inv h).handoff ?_
    change _ ∈ a.q _
    rw [ht]; exact List.mem_cons_self
  | sleep hr hf => exact (h.sleep_parked hr _ hf).inv h hr
  | ioBlock hr hf => exact (h.ioBlock_parked _ hr hf).inv h hr
  | chan hr hid hc => exact (hc.local hr hid).inv h

end Uthread
