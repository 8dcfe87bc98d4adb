import Uthread.Io

/-!
# The results of reading and writing

`uthread_read` and `uthread_write` return what their last system call gave,
with whatever `errno` then is. As long as nobody takes from a woken thread what
it was woken for, and nobody sets `errno` behind the back of a thread that has
yet to look at it, that is a count or an error of the call itself, and never
that the call would block.
-/

namespace Uthread

variable {a b : Abs} {s : Sys} {t u : Ptr} {fd : Fd} {dir : IoDir} {fs gs : List Frame} {e : Errno} {f : Frame}

/-- A count, or the error that the system call itself met; not that it would block. -/
def Genuine : IoResult → Errno → Prop
  | .count _, _ => True
  | .failed e, errno => e ≠ .eagain ∧ errno = e

/-- `check_io_events` wakes a thread for a descriptor that is not ready, a descriptor stops being ready while a
woken thread has yet to use it, or `errno` is set while a thread has yet to look at another value of it. -/
def Event.disturbs : Event → Bool
  | .ioEvent _ ready => !ready
  | .avail _ _ _ spared => !spared
  | .errno _ kept => !kept
  | _ => false

def Event.ioReturns : Event → Bool
  | .ioRet _ _ _ _ _ => true
  | _ => false

def Frame.io : Frame → Bool
  | .ioTest _ _ _ => true
  | .ioWait _ _ => true
  | .ioRetry _ _ => true
  | .ioDone _ _ _ => true
  | _ => false

/-- What woken threads and those between a system call and its `errno` rely on. -/
structure Provided (a : Abs) : Prop where
  ready : ∀ t ∈ a.glob, ∀ fd dir, a.claims fd dir t = true → a.avail (fd, dir) = true
  errno : ∀ t ∈ a.glob, ∀ f ∈ a.framesOf t, ∀ e, f.errno? = some e → a.errno = e
  done : ∀ t ∈ a.glob, ∀ fd dir, .ioDone fd dir (.failed .eagain) ∉ a.framesOf t
  returned : ∀ t fd dir ret e, .ioRet t fd dir ret e ∈ a.log → Genuine ret e

theorem claims_iff {c : Core} : c.claims fd dir t = true ↔
    (c.tcb.state t ≠ .ioBlocked ∧ .ioWait fd dir ∈ c.framesOf t) ∨ .ioRetry fd dir ∈ c.framesOf t := by
  simp [Core.claims]

theorem Frame.io_of_errno (h : f.errno? = some e) : f.io = true := by
  cases f with
  | ioTest | ioDone => rfl
  | _ => cases h

theorem Seated.callOf_ioWait (h : Seated fs) (hm : .ioWait fd dir ∈ fs) : callOf fs = some (.io fd dir) := by
  induction fs with
  | nil => cases hm
  | cons f fs ih =>
    rcases List.mem_cons.mp hm with rfl | hm
    · rfl
    · have hc := ih h.below hm
      have hl : f.level = .free := by
        by_contra hl
        rw [h.callOf_below hl] at hc
        cases hc
      rw [← hc]
      cases f with
      | alrmHandler | yieldEntry | yieldGc | yieldIdle | yieldSwap | yieldRet => rfl
      | _ => cases hl

/-! ## Transitions -/

namespace Provided

theorem of_frames (h : Provided a) (hmem : ∀ t ∈ b.glob, ∀ f ∈ b.framesOf t, f.io = true → t ∈ a.glob ∧ f ∈ a.framesOf t)
    (hst : ∀ t ∈ a.glob, ∀ fd dir, .ioWait fd dir ∈ a.framesOf t → b.tcb.state t ≠ .ioBlocked → a.tcb.state t ≠ .ioBlocked)
    (hlog : ∃ es, b.log = es ++ a.log ∧ ∀ x ∈ es, x.ioReturns = false)
    (hav : b.avail = a.avail := by rfl) (herr : b.errno = a.errno := by rfl) : Provided b where
  ready t ht fd dir hc := by
    rw [hav]
    rcases claims_iff.mp hc with ⟨hs, hw⟩ | hr
    · obtain ⟨hg, hw⟩ := hmem t ht _ hw rfl
      exact h.ready t hg fd dir (claims_iff.mpr (.inl ⟨hst t hg fd dir hw hs, hw⟩))
    · obtain ⟨hg, hr⟩ := hmem t ht _ hr rfl
      exact h.ready t hg fd dir (claims_iff.mpr (.inr hr))
  errno t ht f hm e he := by
    rw [herr]
    obtain ⟨hg, hf⟩ := hmem t ht f hm (Frame.io_of_errno he)
    exact h.errno t hg f hf e he
  done t ht fd dir hm := by
    obtain ⟨hg, hf⟩ := hmem t ht _ hm rfl
    exact h.done t hg fd dir hf
  returned t fd dir ret e hm := by
    obtain ⟨es, hlog, hes⟩ := hlog
    rw [hlog] at hm
    rcases List.mem_append.mp hm with hm | hm
    · cases hes _ hm
    · exact h.returned t fd dir ret e hm

theorem of_top (h : Provided a) (hg : b.glob = a.glob) (hcur : b.currentThread = a.currentThread)
    (hctx : b.tcb.context = a.tcb.context) (hmem : ∀ f ∈ b.run.frames, f.io = true → f ∈ a.run.frames)
    (hst : ∀ t, b.tcb.state t ≠ .ioBlocked → a.tcb.state t ≠ .ioBlocked)
    (hlog : ∃ es, b.log = es ++ a.log ∧ ∀ x ∈ es, x.ioReturns = false)
    (hav : b.avail = a.avail := by rfl) (herr : b.errno = a.errno := by rfl) : Provided b := by
  refine h.of_frames (fun t ht f hf hio => ⟨hg ▸ ht, ?_⟩) (fun t _ _ _ _ => hst t) hlog hav herr
  unfold Core.framesOf at hf ⊢
  rw [hcur, hctx] at hf
  split
  · next ht =>
    rw [if_pos ht] at hf
    exact hmem f hf hio
  · next ht =>
    rwa [if_neg ht] at hf

theorem of_state (h : Provided a) (hg : b.glob = a.glob) (hfr : ∀ t, b.framesOf t = a.framesOf t)
    (hst : ∀ t ∈ a.glob, ∀ fd dir, .ioWait fd dir ∈ a.framesOf t → b.tcb.state t ≠ .ioBlocked → a.tcb.state t ≠ .ioBlocked)
    (hlog : ∃ es, b.log = es ++ a.log ∧ ∀ x ∈ es, x.ioReturns = false)
    (hav : b.avail = a.avail := by rfl) (herr : b.errno = a.errno := by rfl) : Provided b :=
  h.of_frames (fun t ht _ hf _ => ⟨hg ▸ ht, hfr t ▸ hf⟩) hst hlog hav herr

theorem setAvail {v : Bool} (hi : Inv a) (h : Provided a)
    (hok : (v || (List.range a.brk).all fun t => !a.claims fd dir t) = true) : Provided (a.on (.setAvail fd dir v)) where
  ready t ht fd' dir' hc := by
    have hc : a.claims fd' dir' t = true := hc
    have hav := h.ready t ht fd' dir' hc
    change Function.update a.avail (fd, dir) v (fd', dir') = true
    by_cases he : (fd', dir') = (fd, dir)
    · cases he
      rw [Function.update_self]
      rcases Bool.or_eq_true_iff.mp hok with hv | hall
      · exact hv
      · have := List.all_eq_true.mp hall t (List.mem_range.mpr (hi.lt t ht))
        rw [hc] at this
        cases this
    · rw [Function.update_of_ne he]
      exact hav
  errno := h.errno
  done := h.done
  returned t fd' dir' ret e hm := by
    rcases List.mem_cons.mp hm with hm | hm
    · cases hm
    · exact h.returned t fd' dir' ret e hm

theorem setErrno (hi : Inv a) (h : Provided a) (hok : ((List.range a.brk).all fun t => a.unread e t) = true) :
    Provided (a.on (.setErrno e)) where
  ready := h.ready
  errno t ht f hf e' he := by
    have hall := List.all_eq_true.mp hok t (List.mem_range.mpr (hi.lt t ht))
    have hf := List.all_eq_true.mp hall f hf
    rw [he] at hf
    have hf : e = e' := by simpa [eq_comm] using hf
    exact hf
  done := h.done
  returned t fd dir ret e' hm := by
    rcases List.mem_cons.mp hm with hm | hm
    · cases hm
    · exact h.returned t fd dir ret e' hm

theorem retop (hi : Inv a) (h : Provided a) (hmem : ∀ g ∈ gs, g ∈ a.run.frames)
    (hready : ∀ fd dir, f = .ioWait fd dir ∨ f = .ioRetry fd dir → a.claims fd dir a.currentThread = true)
    (herr : ∀ e, f.errno? = some e → a.errno = e) (hdone : ∀ fd dir, f ≠ .ioDone fd dir (.failed .eagain)) :
    Provided (a.on (.setFrames (f :: gs))) := by
  have hcur : ∀ x ∈ gs, x ∈ a.framesOf a.currentThread := fun x hx => by rw [framesOf_cur]; exact hmem x hx
  have hfr : ∀ {t x}, x ∈ (a.on (.setFrames (f :: gs))).framesOf t → x ∈ a.framesOf t ∨ t = a.currentThread ∧ x = f := by
    intro t x hx
    change x ∈ (a.toCore.setFrames (f :: gs)).framesOf t at hx
    rw [framesOf_setFrames] at hx
    split at hx
    · next ht =>
      subst ht
      rcases List.mem_cons.mp hx with rfl | hx
      · exact .inr ⟨rfl, rfl⟩
      · exact .inl (hcur x hx)
    · exact .inl hx
  constructor
  · intro t ht fd dir hc
    change a.avail (fd, dir) = true
    have hold : ∀ {x}, x = .ioWait fd dir ∨ x = .ioRetry fd dir → t = a.currentThread ∧ x = f → a.avail (fd, dir) = true := by
      intro x hx h
      obtain ⟨rfl, rfl⟩ := h
      exact h.ready _ hi.cur fd dir (hready fd dir hx)
    rcases claims_iff.mp hc with ⟨hs, hw⟩ | hr
    · rcases hfr hw with hw | hw
      · exact h.ready t ht fd dir (claims_iff.mpr (.inl ⟨hs, hw⟩))
      · exact hold (.inl rfl) hw
    · rcases hfr hr with hr | hr
      · exact h.ready t ht fd dir (claims_iff.mpr (.inr hr))
      · exact hold (.inr rfl) hr
  · intro t ht x hx e he
    rcases hfr hx with hx | ⟨-, rfl⟩
    · exact h.errno t ht x hx e he
    · exact herr e he
  · intro t ht fd dir hx
    rcases hfr hx with hx | ⟨-, hx⟩
    · exact h.done t ht fd dir hx
    · exact hdone fd dir hx.symm
  · exact h.returned

theorem move (hi : Inv a) (h : Provided a) (hm : FrameMove a.toCore a.run.frames fs)
    (hc : a.tcb.state a.currentThread ≠ .running → a.tcb.state a.currentThread ≠ .finished →
      callOf fs = callOf a.run.frames) : Provided (a.on (.setFrames fs)) := by
  have plain : (∀ f ∈ fs, f.io = true → f ∈ a.run.frames) → Provided (a.on (.setFrames fs)) := fun hmem =>
    h.of_top rfl rfl rfl hmem (fun _ => id) ⟨[], rfl, by simp⟩
  have herr : ∀ x ∈ a.run.frames, ∀ e, x.errno? = some e → a.errno = e := fun x hx =>
    h.errno _ hi.cur x (by rw [framesOf_cur]; exact hx)
  generalize hgs : a.run.frames = gs at hm hc
  have hmem : ∀ {x xs}, gs = x :: xs → ∀ y ∈ xs, y ∈ a.run.frames := by
    intro x xs hx y hy
    rw [hgs, hx]
    exact List.mem_cons_of_mem _ hy
  have htop : ∀ {x xs}, gs = x :: xs → x ∈ a.run.frames := by
    intro x xs hx
    rw [hgs, hx]
    exact List.mem_cons_self
  cases hm with
  | @callIo fd dir ret fs hy =>
    refine h.retop hi ?_ (by simp) (fun e he => ?_) (by simp)
    · intro g hg
      rw [hgs]
      exact hg
    · cases ret with
      | count => cases he
      | failed e' =>
        cases he
        exact hy.2 e rfl
  | @tested fd dir ret fs ht =>
    have hold : ∀ e, ret = .failed e → a.errno = e := fun e he => herr _ (htop rfl) e (by rw [he]; rfl)
    refine h.retop hi (hmem rfl) (by simp) (fun e he => ?_) ?_
    · cases ret with
      | count => cases he
      | failed e' =>
        cases he
        exact hold e rfl
    · intro fd' dir' he
      cases he
      exact ht rfl (hold _ rfl)
  | @ioReady fd dir fs =>
    refine h.retop hi (hmem rfl) ?_ (by simp [Frame.errno?]) (by simp)
    intro fd' dir' h
    rcases h with he | he
    · cases he
    · cases he
      refine claims_iff.mpr (.inl ⟨fun hst => ?_, by rw [framesOf_cur]; exact htop rfl⟩)
      cases hc (by simp [hst]) (by simp [hst])
  | @retried fd dir ret fs hy =>
    refine h.retop hi (hmem rfl) (by simp) (fun e he => ?_) ?_
    · cases ret with
      | count => cases he
      | failed e' =>
        cases he
        exact hy.2 e rfl
    · intro fd' dir' he
      cases he
      have hav := h.ready _ hi.cur fd dir (claims_iff.mpr (.inr (by rw [framesOf_cur]; exact htop rfl)))
      rw [hy.1 rfl] at hav
      cases hav
  | notCreated | yieldRet | sigreturn => exact plain fun f hf _ => hmem rfl f hf
  | callYield | callCreate | callSend | callRecv | exitSave | exitIdle =>
    refine plain fun f hf hio => ?_
    rcases List.mem_cons.mp hf with rfl | hf
    · cases hio
    · rw [hgs]
      exact hf
  | start | created | collected | save | idle | idleSave | resumed | wouldBlock | exitIdleSave =>
    refine plain fun f hf hio => ?_
    rcases List.mem_cons.mp hf with rfl | hf
    · cases hio
    · exact hmem rfl f hf

theorem ioRet {ret : IoResult} (hi : Inv a) (h : Provided a) (hf : a.run.frames = .ioDone fd dir ret :: fs) :
    Provided (a.on fun c => (c.note (.ioRet c.currentThread fd dir ret c.errno)).setFrames fs) := by
  have hmem : .ioDone fd dir ret ∈ a.framesOf a.currentThread := by rw [framesOf_cur, hf]; exact List.mem_cons_self
  have hgen : Genuine ret a.errno := by
    cases ret with
    | count => trivial
    | failed e =>
      refine ⟨?_, h.errno _ hi.cur _ hmem e rfl⟩
      rintro rfl
      exact h.done _ hi.cur fd dir hmem
  have hsub : ∀ f ∈ fs, f ∈ a.run.frames := fun f hm => by rw [hf]; exact List.mem_cons_of_mem _ hm
  have hk : Provided (a.on (.setFrames fs)) :=
    h.of_top rfl rfl rfl (fun f hm _ => hsub f hm) (fun _ => id) ⟨[], rfl, by simp⟩
  refine ⟨hk.ready, hk.errno, hk.done, fun t fd' dir' ret' e hm => ?_⟩
  rcases List.mem_cons.mp hm with hm | hm
  · cases hm
    exact hgen
  · exact h.returned t fd' dir' ret' e hm

theorem ioBlock {env : Env} (hi : Inv a) (h : Provided a) (hr : a.tcb.state a.currentThread = .running)
    (hf : a.run.frames = .ioBlock fd dir :: fs) : Provided (a.ioBlock env fd dir fs) := by
  have hp := hi.ioBlock_parked env hr hf
  have hself : (a.ioBlock env fd dir fs).framesOf a.currentThread = .yieldEntry :: .ioWait fd dir :: fs := if_pos rfl
  have hold : ∀ {u f}, f ∈ (a.ioBlock env fd dir fs).framesOf u → f.io = true → (∀ fd dir, f ≠ .ioWait fd dir) →
      f ∈ a.framesOf u := by
    intro u f hm hio hne
    by_cases hu : u = a.currentThread
    · subst hu
      rw [hself] at hm
      rw [framesOf_cur, hf]
      rcases List.mem_cons.mp hm with rfl | hm
      · cases hio
      · exact List.mem_cons_of_mem _ ((List.mem_cons.mp hm).resolve_left (hne _ _))
    · rwa [hp.framesOf_ne hu] at hm
  constructor
  · intro u hu fd' dir' hc
    change a.avail (fd', dir') = true
    rcases claims_iff.mp hc with ⟨hs, hw⟩ | hret
    · have huc : u ≠ a.currentThread := by
        rintro rfl
        exact hs (Function.update_self ..)
      rw [hp.framesOf_ne huc] at hw
      rw [hp.state_ne huc] at hs
      exact h.ready u hu fd' dir' (claims_iff.mpr (.inl ⟨hs, hw⟩))
    · exact h.ready u hu fd' dir' (claims_iff.mpr (.inr (hold hret rfl (by simp))))
  · intro u hu f hm e he
    refine h.errno u hu f (hold hm (Frame.io_of_errno he) ?_) e he
    rintro fd' dir' rfl
    cases he
  · exact fun u hu fd' dir' hm => h.done u hu fd' dir' (hold hm rfl (by simp))
  · intro u fd' dir' ret e hm
    rcases List.mem_cons.mp hm with hm | hm
    · cases hm
    · exact h.returned u fd' dir' ret e hm

theorem ioWake (hi : Inv a) (h : Provided a) (hx : Expected a) (hr : a.interest fd = some (t, dir)) (hok : a.ready t = true) :
    Provided (a.ioWake t) := by
  have hav : a.avail (fd, dir) = true := by
    unfold Core.ready at hok
    rw [(hi.reg hr).2.2.1, hr] at hok
    exact hok
  have hfr : ∀ u, (a.ioWake t).framesOf u = a.framesOf u := fun _ => rfl
  refine ⟨fun u hu fd' dir' hc => ?_, h.errno, h.done, fun u fd' dir' ret e hm => ?_⟩
  · change a.avail (fd', dir') = true
    rcases claims_iff.mp hc with ⟨hs, hw⟩ | hr'
    · by_cases hut : u = t
      · subst hut
        -- it waits for the descriptor it is registered for
        have hcall := (hi.seated u hu).callOf_ioWait hw
        rw [hx fd u dir hr] at hcall
        cases hcall
        exact hav
      · refine h.ready u hu fd' dir' (claims_iff.mpr (.inl ⟨?_, hw⟩))
        rwa [show (a.ioWake t).tcb.state u = a.tcb.state u from Function.update_of_ne hut ..] at hs
    · exact h.ready u hu fd' dir' (claims_iff.mpr (.inr hr'))
  · have hm : .ioRet u fd' dir' ret e ∈ Event.enq t :: .ioEvent t (a.ready t) :: a.log := hm
    exact h.returned u fd' dir' ret e (by simpa using hm)

end Provided

theorem Site.mem_io {op : SyncOp} (h : Site op fs gs) (hf : f ∈ gs) (hio : f.io = true) : f ∈ fs := by
  cases h with
  | sendPost | recvPost => exact List.mem_cons_of_mem _ hf
  | _ =>
    rcases List.mem_cons.mp hf with rfl | hf
    · cases hio
    · exact List.mem_cons_of_mem _ hf

theorem Prim.provided (hi : Inv a) (hx : Expected a) (h : Provided a) (hp : Prim a b)
    (hok : ∀ e ∈ b.log, e.disturbs = false) : Provided b := by
  have none : ∀ {l : List Event}, ∃ es, l = es ++ l ∧ ∀ x ∈ es, x.ioReturns = false := ⟨[], rfl, by simp⟩
  have one : ∀ {l : List Event} (x : Event), x.ioReturns = false → ∃ es, x :: l = es ++ l ∧ ∀ x ∈ es, x.ioReturns = false :=
    fun x hx => ⟨[x], rfl, by simpa using hx⟩
  have undisturbed : ∀ {v : Bool}, (!v) = false → v = true := fun h => by simpa using h
  have update : ∀ {u st}, a.tcb.state u ≠ .ioBlocked → ∀ t, Function.update a.tcb.state u st t ≠ .ioBlocked →
      a.tcb.state t ≠ .ioBlocked := by
    intro u st hu t hs
    by_cases htu : t = u
    · rw [htu]
      exact hu
    · rwa [Function.update_of_ne htu] at hs
  have pop : ∀ {f : Frame} {fs : List Frame}, a.run.frames = f :: fs → ∀ g ∈ fs, g.io = true → g ∈ a.run.frames := by
    intro f fs hf g hg _
    rw [hf]
    exact List.mem_cons_of_mem _ hg
  have running : a.tcb.state a.currentThread = .running → a.tcb.state a.currentThread ≠ .ioBlocked := by
    intro hr
    rw [hr]
    simp
  cases hp with
  | quiet hq => cases hq <;> exact h.of_top rfl rfl rfl (fun _ hf _ => hf) (fun _ => id) none
  | tick =>
    refine h.of_top rfl rfl rfl (fun f hf hio => ?_) (fun _ => id) (one _ rfl)
    rcases List.mem_cons.mp hf with rfl | hf
    · cases hio
    · rcases List.mem_cons.mp hf with rfl | hf
      · cases hio
      · exact hf
  | leave _ hf | sleepRet _ hf | createRet _ hf => exact h.of_top rfl rfl rfl (pop hf) (fun _ => id) (one _ rfl)
  | ioRet _ hf => exact h.ioRet hi hf
  | avail => exact h.setAvail hi (undisturbed (hok _ List.mem_cons_self))
  | errno => exact h.setErrno hi (undisturbed (hok _ List.mem_cons_self))
  | traceOn => exact h.of_top rfl rfl rfl (fun _ hf _ => hf) (fun _ => id) (one _ rfl)
  | move hm hc => exact h.move hi hm hc
  | @reap t =>
    refine h.of_frames (fun t ht f hf _ => ⟨List.mem_of_mem_erase ht, hf⟩) (fun _ _ _ _ _ => id) ?_
    exact reap_log a t (fun _ _ => rfl) fun _ => rfl
  | ioWake hr =>
    exact h.ioWake hi hx hr (undisturbed (hok (.ioEvent _ _) (List.mem_cons_of_mem _ List.mem_cons_self)))
  | @sleepWake t ht =>
    refine h.of_state rfl (fun _ => rfl) (fun u hu fd dir hw hs => ?_) (one _ rfl)
    by_cases hut : u = t
    · subst hut
      -- it waits for its deadline
      have hcall := (hi.seated u hu).callOf_ioWait hw
      rcases hi.io u hu (hi.state ht) with ⟨⟨d, hd⟩, -⟩ | ⟨-, hno⟩
      · rw [hcall] at hd
        cases hd
      · exact absurd ht hno
    · rwa [show (a.sleepWake t).tcb.state u = a.tcb.state u from Function.update_of_ne hut ..] at hs
  | preempt hr => exact h.of_state rfl (fun _ => rfl) (fun t _ _ _ _ => update (running hr) t) (one _ rfl)
  | @switch u hp hf =>
    have hu := mem_of_pick (fun _ hu => hi.state hu) hp
    refine h.of_state rfl (fun t => framesOf_switch _ t) (fun t _ _ _ _ => update ?_ t) (one _ rfl)
    rw [hi.state hu]
    simp [QId.state]
  | @create prio hr =>
    refine h.of_frames (fun t ht f hf hio => ?_) (fun t ht _ _ _ hs => ?_) ⟨[_, _], rfl, by simp [Event.ioReturns]⟩
    · rcases List.mem_cons.mp ht with rfl | ht
      · rw [create_framesOf_self (hi.lt _ hi.cur).ne] at hf
        cases List.mem_singleton.mp hf
        cases hio
      · rw [create_framesOf_ne (hi.lt t ht).ne] at hf
        exact ⟨ht, hf⟩
    · rwa [create_state_ne (hi.lt t ht).ne] at hs
  | createFail =>
    refine h.of_state rfl (fun _ => rfl) (fun t ht _ _ _ hs => ?_) (one _ rfl)
    rwa [show (a.on fun c => (c.allocTcb _).free c.brk).tcb.state t = a.tcb.state t from
      Function.update_of_ne (hi.lt t ht).ne ..] at hs
  | finish hr hf => exact h.of_state rfl (fun _ => rfl) (fun t _ _ _ _ => update (running hr) t) (one _ rfl)
  | mutexInit => exact h.of_top rfl rfl rfl (fun _ hf _ => hf) (fun _ => id) none
  | semInit => exact h.of_top rfl rfl rfl (fun _ hf _ => hf) (fun _ => id) (one _ rfl)
  | chanInit => exact h.of_top rfl rfl rfl (fun _ hf _ => hf) (fun _ => id) ⟨[_, _, _], rfl, by simp [Event.ioReturns]⟩
  | lock hr hs | wait hr hs =>
    exact h.of_top rfl rfl rfl (fun _ hf => hs.mem_io hf) (fun _ => id) ⟨[_, _], rfl, by simp [Event.ioReturns]⟩
  | unlock hr hs | post hr hs => exact h.of_top rfl rfl rfl (fun _ hf => hs.mem_io hf) (fun _ => id) (one _ rfl)
  | unlockHandoff hr hs hq | postHandoff hr hs hq =>
    refine h.of_top rfl rfl rfl (fun _ hf => hs.mem_io hf) (update ?_) ⟨[_, _], rfl, by simp [Event.ioReturns]⟩
    rw [hi.state (by rw [hq]; exact List.mem_cons_self)]
    simp [QId.state]
  | block hr hs =>
    refine h.of_top rfl rfl rfl (fun f hf hio => ?_) (update (running hr)) (one _ rfl)
    rcases List.mem_cons.mp hf with rfl | hf
    · cases hio
    · rcases List.mem_cons.mp hf with rfl | hf
      · cases hio
      · exact hs.mem_io hf hio
  | sleep hr hf =>
    refine h.of_top rfl rfl rfl (fun f hf hio => ?_) (update (running hr)) (one _ rfl)
    rcases List.mem_cons.mp hf with rfl | hf
    · cases hio
    · rcases List.mem_cons.mp hf with rfl | hf
      · cases hio
      · exact hf
  | ioBlock hr hf => exact h.ioBlock hi hr hf
  | chan hr hid hc =>
    cases hc with
    | store hf | tail hf | load hf | head hf =>
      refine h.of_top rfl rfl rfl (fun f hm hio => ?_) (fun _ => id) (one _ rfl)
      rcases List.mem_cons.mp hm with rfl | hm
      · cases hio
      · exact pop hf f hm hio

/-- As long as no step disturbs a woken thread or an `errno` that is still to be looked at, every call of
`uthread_read` and `uthread_write` returns a count or an error of its own, and never that it would block. -/
theorem io_blocks (h : Sys.Reachable s) (hok : ∀ e ∈ s.log, e.disturbs = false) :
    ∀ t fd dir ret e, .ioRet t fd dir ret e ∈ s.log → Genuine ret e := by
  have hstep : ∀ a b, Inv a → Expected a ∧ ((∀ e ∈ a.log, e.disturbs = false) → Provided a) → Prim a b →
      Expected b ∧ ((∀ e ∈ b.log, e.disturbs = false) → Provided b) := by
    intro a b hi ⟨hx, ha⟩ hp
    refine ⟨hp.expected hi hx, fun hok => hp.provided hi hx (ha fun e he => hok e ?_) hok⟩
    obtain ⟨es, hlog⟩ := (hp.sync hi).log
    rw [hlog]
    exact List.mem_append_right _ he
  have h0 : ∀ c fd v, Expected (initAbs c fd v) ∧ ((∀ e ∈ (initAbs c fd v).log, e.disturbs = false) → Provided (initAbs c fd v)) := by
    intro c fd v
    refine ⟨fun _ _ _ hr => (by cases hr), fun _ => ?_⟩
    have hfr : ∀ t ∈ (initAbs c fd v).glob, (initAbs c fd v).framesOf t = [.user] := by
      intro t ht
      cases List.mem_singleton.mp ht
      rfl
    constructor
    · intro t ht fd' dir hc
      rcases claims_iff.mp hc with ⟨-, hm⟩ | hm <;> simp [hfr t ht] at hm
    · intro t ht f hf e he
      rw [hfr t ht] at hf
      cases List.mem_singleton.mp hf
      cases he
    · intro t ht fd' dir hm
      simp [hfr t ht] at hm
    · intro t fd' dir ret e hm
      cases List.mem_singleton.mp hm
  obtain ⟨q, g, -, -, -, hs⟩ := reachable_inv h0 hstep h
  exact (hs hok).returned

/-- A reader is woken and finds its data. -/
theorem io_blocks_reader :
    let s := Sys.after (fun i => i) [.call (.io 5 .epollin) {}, .resume {}, .resume {}, .resume {}, .resume {},
      .avail 5 .epollin true, .resume { events := [5] }, .resume {}, .resume {}, .resume {}, .resume { io := 3 }, .resume {}]
    .ioRet 0 5 .epollin (.count 3) .eagain ∈ s.log ∧ ∀ t fd dir ret e, .ioRet t fd dir ret e ∈ s.log → Genuine ret e :=
  ⟨by decide +kernel, io_blocks (Sys.reachable_after (by decide +kernel)) (by decide +kernel)⟩

/-- Before a woken reader runs, another thread reads everything; and while a reader has yet to look at the `errno`
of its first call, SIGALRM brings another value. -/
theorem second_read_would_block :
    (∃ s : Sys, Sys.Reachable s ∧ .ioRet 0 5 .epollin (.failed .eagain) .eagain ∈ s.log) ∧
      ∃ s : Sys, Sys.Reachable s ∧ .ioRet 0 5 .epollin (.failed .eagain) (.other 4) ∈ s.log := by
  refine ⟨⟨Sys.after (fun i => i) [.call (.create 0) {}, .resume {}, .resume {}, .call (.create 0) {}, .resume {}, .resume {},
      .call (.io 5 .epollin) {}, .resume {}, .resume {}, .resume {}, .resume {}, .resume {}, .avail 5 .epollin true,
      .call .yield {}, .resume {}, .resume { events := [5] }, .resume {}, .call (.io 5 .epollin) { io := 3 }, .resume {},
      .resume {}, .call .yield {}, .resume {}, .resume {}, .resume {}, .resume {}, .resume {}, .resume {}, .resume {}],
    Sys.reachable_after (by decide +kernel), by decide +kernel⟩, ?_⟩
  exact ⟨Sys.after (fun i => i) [.call (.io 5 .epollin) {}, .tick, .errno (.other 4), .resume {}, .resume {}, .resume {},
      .resume {}, .resume {}, .resume {}, .resume {}], Sys.reachable_after (by decide +kernel), by decide +kernel⟩

end Uthread
