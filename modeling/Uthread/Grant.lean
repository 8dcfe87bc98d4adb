import Uthread.Sync
import Uthread.Lib.History

/-!
# Grants are served in the order of the calls

For every mutex and semaphore: the calls of its acquiring function are those
that were granted, in the order of the grants, followed by the threads in its
wait queue; and a thread leaves a call it blocked in only after a hand-off.
-/

namespace Uthread

open History

/-! ## The invariant -/

/-- A thread leaves a call on `w` in which it waited only after the hand-off to it. -/
def Left (w : WaitObj) : Event → List Event → Prop
  | .leave w' t, l => w' = w → ∃ u, last w t l = some (.handoff w u t)
  | _, _ => True

structure Served (a : Abs) : Prop where
  fifo : ∀ w, arrivals w a.log = grants w a.log ++ a.q (.wait w)
  locked : ∀ m, a.q (.wait (.mutex m)) ≠ [] → a.mutexLocked m ≠ some 0
  count : ∀ sm, a.q (.wait (.sem sm)) ≠ [] → a.count sm ≤ 0
  int : ∀ sm, cint (a.count sm) = a.count sm
  resumes : ∀ {w t}, Resumes a w t → ∃ u, last w t a.log = some (.handoff w u t)
  left : ∀ w, Always (Left w) a.log

variable {a b : Abs} {t : Ptr} {fs : List Frame}

theorem Left.silent {w : WaitObj} {e : Event} (h : e.isSync = false) (l : List Event) : Left w e l := by
  cases e <;> first | exact trivial | cases h

theorem Site.callOf_eq {op : SyncOp} {fs fs' : List Frame} (h : Site op fs fs') (hs : Seated fs) : callOf fs' = none := by
  cases h with
  | sendPost | recvPost => exact hs.callOf_below (by simp [Frame.level])
  | _ => rfl

theorem Site.resumes {op : SyncOp} (h : Inv a) (hr : a.tcb.state a.currentThread = .running)
    (hs : Site op a.run.frames fs) {w : WaitObj} {t : Ptr} (ht : Resumes (a.on (.setFrames fs)) w t) :
    Resumes a w t ∧ t ≠ a.currentThread := by
  have hnone : callOf fs = none := hs.callOf_eq h.seated_run
  have hl : Local a (a.on (.setFrames fs)) := .of_frames (hs.stack hr)
  constructor
  · refine hl.resumes (.inr fun w => ?_) ht
    change callOf fs ≠ _
    rw [hnone]; simp
  · intro e
    have := ht.2.1
    rw [e, show (a.on (.setFrames fs)).framesOf a.currentThread = fs from if_pos rfl, hnone] at this
    cases this

theorem last_other {w : WaitObj} {e : Event} {l : List Event} (h : e.about w t = false) : last w t (e :: l) = last w t l := by
  rw [last_cons, h]; simp

theorem last_take {w w₀ : WaitObj} {u : Ptr} {l : List Event} (hne : t ≠ u) :
    last w t (.take w₀ u :: .arrive w₀ u :: l) = last w t l := by
  rw [last_other, last_other] <;> simp [Event.about, Ne.symm hne]

theorem Parked.resumes_blocked {cl : Call} (hp : Parked .blocked cl a b) {w : WaitObj} {t : Ptr} (h : Resumes b w t) :
    t ≠ a.currentThread ∧ Resumes a w t := by
  obtain ⟨ht, hcall, hst⟩ := h
  have hne : t ≠ a.currentThread := by
    intro e
    rw [e, hp.state_self] at hst
    exact hst rfl
  exact ⟨hne, hp.glob ▸ ht, by rw [← hp.framesOf_ne hne]; exact hcall, by rw [← hp.state_ne hne]; exact hst⟩

theorem Served.unsync (h : Served a) (hu : Unsync a b) : Served b := by
  obtain ⟨es, hlog, hes⟩ := hu.log
  have hcount : ∀ sm, b.count sm = a.count sm := fun sm => by unfold Core.count; rw [hu.count]
  exact
    { fifo := fun w => by rw [hlog, arrivals_silent hes, grants_silent hes, hu.queue]; exact h.fifo w
      locked := fun m => by rw [hu.queue, hu.locked]; exact h.locked m
      count := fun sm => by rw [hu.queue, hcount]; exact h.count sm
      int := fun sm => by rw [hcount]; exact h.int sm
      resumes := fun hr => by rw [hlog, last_silent hes]; exact h.resumes (hu.resumes hr)
      left := fun w => by rw [hlog]; exact (h.left w).silent fun e he l => Left.silent (hes e he) l }

/-! ## The order of the grants -/

section
variable {w₀ : WaitObj} {u : Ptr} {l : List Event} {q : Layout}
variable (h : ∀ w, arrivals w l = grants w l ++ q (.wait w))
include h

theorem fifo_take (hq : q (.wait w₀) = []) (w : WaitObj) :
    arrivals w (.take w₀ t :: .arrive w₀ t :: l) = grants w (.take w₀ t :: .arrive w₀ t :: l) ++ q (.wait w) := by
  simp only [arrivals_cons, grants_cons, Event.arrived?, Event.granted?, h w]
  by_cases hw : w₀ = w
  · subst hw; simp [hq]
  · simp [hw]

theorem fifo_block (w : WaitObj) :
    arrivals w (.arrive w₀ t :: l) = grants w (.arrive w₀ t :: l) ++ (q.push (.wait w₀) t) (.wait w) := by
  simp only [arrivals_cons, grants_cons, Event.arrived?, Event.granted?, h w]
  by_cases hw : w₀ = w
  · subst hw; simp [Layout.push_self]
  · rw [Layout.push_of_ne (by simpa using Ne.symm hw)]; simp [hw]

theorem fifo_handoff {ts : List Ptr} (hq : q (.wait w₀) = t :: ts) (w : WaitObj) :
    arrivals w (.handoff w₀ u t :: .enq t :: l) =
      grants w (.handoff w₀ u t :: .enq t :: l) ++ ((q.drop (.wait w₀) t).push .ready t) (.wait w) := by
  rw [Layout.push_of_ne (by simp)]
  simp only [arrivals_cons, grants_cons, Event.arrived?, Event.granted?, h w]
  by_cases hw : w₀ = w
  · subst hw; simp [Layout.drop_self, hq]
  · rw [Layout.drop_of_ne (by simpa using Ne.symm hw)]; simp [hw]

end

/-! ## The transitions -/

theorem handoff_resumes (h : Inv a) {w₀ : WaitObj} {t₀ : Ptr} (ht : t₀ ∈ a.q (.wait w₀)) {w : WaitObj} {t : Ptr}
    (hr : Resumes (a.handoff w₀ t₀) w t) : t = t₀ ∧ w = w₀ ∨ t ≠ t₀ ∧ Resumes a w t := by
  have hw := h.handoff_woken ht
  obtain ⟨hg, hcall, hst⟩ := hr
  rw [hw.framesOf] at hcall
  by_cases htt : t = t₀
  · subst htt
    obtain ⟨w₁, hc₁, hm₁⟩ := h.blocked t hg (h.state ht)
    rw [hc₁] at hcall
    have he : QId.wait w₁ = .wait w₀ := h.ok.disj hm₁ ht
    cases he; cases hcall
    exact .inl ⟨rfl, rfl⟩
  · exact .inr ⟨htt, hg, hcall, by rw [← hw.state_ne htt]; exact hst⟩

theorem last_handoff {w : WaitObj} {u : Ptr} {l : List Event} :
    last w t (.handoff w u t :: .enq t :: l) = some (.handoff w u t) := by
  rw [last_cons]; simp [Event.about]

theorem Served.handoff {a' : Abs} (h : Served a) (hi' : Inv a') (hlog : a'.log = a.log) (hq : a'.q = a.q)
    (hres : ∀ {w t}, Resumes a' w t → Resumes a w t) {w₀ : WaitObj} {t₀ : Ptr} {ts : List Ptr}
    (hts : a.q (.wait w₀) = t₀ :: ts) (hlock : a'.mutexLocked = a.mutexLocked)
    (hcount : ∀ sm, a'.count sm = a.count sm) : Served (a'.handoff w₀ t₀) := by
  have hts' : a'.q (.wait w₀) = t₀ :: ts := by rw [hq]; exact hts
  have ht : t₀ ∈ a'.q (.wait w₀) := by rw [hts']; simp
  have hsub : ∀ {w}, (a'.handoff w₀ t₀).q (.wait w) ≠ [] → a.q (.wait w) ≠ [] := by
    intro w hne hnil
    change ((a'.q.drop (.wait w₀) t₀).push .ready t₀) (.wait w) ≠ [] at hne
    rw [Layout.push_of_ne (by simp)] at hne
    by_cases hw : w = w₀
    · subst hw; rw [hts] at hnil; cases hnil
    · rw [Layout.drop_of_ne (by simpa using hw), hq] at hne; exact hne hnil
  have hlog' : (a'.handoff w₀ t₀).log = .handoff w₀ a'.currentThread t₀ :: .enq t₀ :: a.log := by
    rw [← hlog]; rfl
  exact
    { fifo := fun w => by rw [hlog']; exact fifo_handoff (by rw [hq]; exact h.fifo) hts' w
      locked := fun m hm => by
        change a'.mutexLocked m ≠ some 0
        rw [hlock]; exact h.locked m (hsub hm)
      count := fun sm hs => (hcount sm).le.trans (h.count sm (hsub hs))
      int := fun sm => by
        change cint (a'.count sm) = a'.count sm
        rw [hcount]; exact h.int sm
      resumes := fun {w t} hr => by
        rw [hlog']
        rcases handoff_resumes hi' ht hr with ⟨rfl, rfl⟩ | ⟨hne, hr⟩
        · exact ⟨_, last_handoff⟩
        · rw [last_other (by simp [Event.about, Ne.symm hne]), last_other (by simp [Event.about])]
          exact h.resumes (hres hr)
      left := fun w => by rw [hlog']; exact ⟨trivial, trivial, h.left w⟩ }

theorem count_setCount (c : Core) (sm sm' : SemId) (n : Int) :
    (c.setCount sm n).count sm' = if sm' = sm then n else c.count sm' := by
  unfold Core.count Core.setCount
  by_cases hs : sm' = sm
  · subst hs; simp
  · simp [hs]

theorem Served.of_objects (h : Served a) (hq : ∀ w, b.q (.wait w) = a.q (.wait w))
    (hfifo : ∀ w, arrivals w b.log = grants w b.log ++ a.q (.wait w))
    (hlock : ∀ m, a.q (.wait (.mutex m)) ≠ [] → b.mutexLocked m ≠ some 0)
    (hcount : ∀ sm, a.q (.wait (.sem sm)) ≠ [] → b.count sm ≤ 0) (hint : ∀ sm, cint (b.count sm) = b.count sm)
    (hres : ∀ {w t}, Resumes b w t → Resumes a w t ∧ last w t b.log = last w t a.log)
    (hleft : ∀ w, Always (Left w) b.log) : Served b where
  fifo w := by rw [hq]; exact hfifo w
  locked m := by rw [hq]; exact hlock m
  count sm := by rw [hq]; exact hcount sm
  int := hint
  resumes hr := by rw [(hres hr).2]; exact h.resumes (hres hr).1
  left := hleft

theorem fifo_semInit {q : Layout} {l : List Event} {sm : SemId} {n : Int}
    (h : ∀ w, arrivals w l = grants w l ++ q (.wait w)) (w : WaitObj) :
    arrivals w (.semInit sm n :: l) = grants w (.semInit sm n :: l) ++ q (.wait w) := by
  rw [arrivals_cons, grants_cons]
  simpa [Event.arrived?, Event.granted?] using h w

theorem Served.step (hi : Inv a) (h : Served a) (hs : SyncStep a b) : Served b := by
  cases hs with
  | unsync hu => exact h.unsync hu
  | @mutexInit n hm =>
    refine h.of_objects (fun _ => rfl) h.fifo (fun m hq => ?_) h.count h.int (fun hr => ⟨hr, rfl⟩) h.left
    by_cases hmn : m = .user n
    · subst hmn; exact absurd (hi.mutexes _ hm) hq
    · change Function.update a.mutexLocked (.user n) (some 0) m ≠ some 0
      rw [Function.update_of_ne hmn]; exact h.locked m hq
  | @semInit n k hs =>
    have hcount : ∀ sm, (a.on fun c => (c.setCount (.user n) (cint k)).note (.semInit (.user n) (cint k))).count sm =
        if sm = .user n then cint k else a.count sm := fun sm => count_setCount a.toCore _ sm _
    refine h.of_objects (fun _ => rfl) (fifo_semInit h.fifo) h.locked (fun sm hq => ?_) (fun sm => ?_)
      (fun hr => ⟨hr, last_other rfl⟩) (fun w => ⟨trivial, h.left w⟩)
    · rw [hcount, if_neg (by rintro rfl; exact hq (hi.sems _ hs))]; exact h.count sm hq
    · rw [hcount]
      split
      · exact cint_cint k
      · exact h.int sm
  | @chanInit id ch hid =>
    have hcount : ∀ sm, (a.chanInit id ch).count sm =
        if sm = .messages id then cint 0 else if sm = .space id then cint ch.capacity else a.count sm := by
      intro sm
      change ((Function.update (Function.update a.semCount (.space id) (some (cint ch.capacity))) (.messages id)
        (some (cint 0))) sm).getD 0 = _
      by_cases h₁ : sm = .messages id
      · subst h₁; simp
      · by_cases h₂ : sm = .space id
        · subst h₂; simp
        · simp [h₁, h₂, Core.count]
    obtain ⟨hm, hsp, hms⟩ := hi.chans id
    have hno : ¬ (a.chan id).isSome := by rw [Option.isNone_iff_eq_none.mp hid]; simp
    refine h.of_objects (fun _ => rfl) (fun w => ?_) (fun m hq => ?_) (fun sm hq => ?_) (fun sm => ?_)
      (fun hr => ⟨hr, ?_⟩) (fun w => ⟨trivial, trivial, trivial, h.left w⟩)
    · exact fifo_semInit (fifo_semInit (fun w => by
        rw [arrivals_cons, grants_cons]
        simpa [Event.arrived?, Event.granted?] using h.fifo w)) w
    · by_cases hmn : m = .chan id
      · subst hmn; exact absurd (hi.mutexes _ (Option.not_isSome_iff_eq_none.mp (hm.not.mpr hno))) hq
      · change Function.update a.mutexLocked (.chan id) (some 0) m ≠ some 0
        rw [Function.update_of_ne hmn]; exact h.locked m hq
    · rw [hcount, if_neg, if_neg]
      · exact h.count sm hq
      · rintro rfl; exact hq (hi.sems _ (Option.not_isSome_iff_eq_none.mp (hsp.not.mpr hno)))
      · rintro rfl; exact hq (hi.sems _ (Option.not_isSome_iff_eq_none.mp (hms.not.mpr hno)))
    · rw [hcount]
      split_ifs
      · exact cint_cint 0
      · exact cint_cint _
      · exact h.int sm
    · exact (last_other rfl).trans ((last_other rfl).trans (last_other rfl))
  | @lock m fs hr hs h0 =>
    have hq : a.q (.wait (.mutex m)) = [] := not_not.mp fun hne => h.locked m hne h0
    refine h.of_objects (fun _ => rfl) (fifo_take h.fifo hq) (fun m' hm => ?_) h.count h.int (fun ht => ?_)
      (fun w => ⟨trivial, trivial, h.left w⟩)
    · by_cases hmm : m' = m
      · subst hmm; exact absurd hq hm
      · change Function.update a.mutexLocked m (some 1) m' ≠ some 0
        rw [Function.update_of_ne hmm]; exact h.locked m' hm
    · obtain ⟨ha, hne⟩ := hs.resumes hi hr ht
      exact ⟨ha, last_take hne⟩
  | @wait sm fs hr hs hn =>
    have hq : a.q (.wait (.sem sm)) = [] := not_not.mp fun hne => absurd (h.count sm hne) (not_le.mpr hn)
    have hcount : ∀ sm', ((a.on fun c => (c.setFrames fs).setCount sm (c.count sm - 1)).take (.sem sm)).count sm' =
        if sm' = sm then a.count sm - 1 else a.count sm' := fun sm' => count_setCount a.toCore _ sm' _
    refine h.of_objects (fun _ => rfl) (fifo_take h.fifo hq) h.locked (fun sm' hs' => ?_) (fun sm' => ?_) (fun ht => ?_)
      (fun w => ⟨trivial, trivial, h.left w⟩)
    · rw [hcount, if_neg (by rintro rfl; exact hs' hq)]; exact h.count sm' hs'
    · rw [hcount]
      split
      · have hrange := h.int sm ▸ cint_range (a.count sm)
        exact cint_of_range (by omega) (by omega)
      · exact h.int sm'
    · obtain ⟨ha, hne⟩ := hs.resumes hi hr ht
      exact ⟨ha, last_take hne⟩
  | @block w fs hr hs hw =>
    have hl : Inv (a.on (.setFrames fs)) := (Local.of_frames (hs.stack hr)).inv hi
    have hseat : Seated (.waiting w :: fs) := hs.seated w rfl hl.seated_run
    have hp : Parked .blocked (.wait w) (a.on (.setFrames fs)) ((a.on (.setFrames fs)).block w) := by
      refine hl.block_parked hr ?_ ?_ hseat
      · rintro m rfl; exact Option.isSome_iff_ne_none.mp hw.2
      · rintro sm rfl; exact Option.isSome_iff_ne_none.mp hw.2
    have hsub : ∀ w', w' ≠ w → ((a.on (.setFrames fs)).block w).q (.wait w') = a.q (.wait w') := fun w' hne => by
      change (a.q.push (.wait w) a.currentThread) (.wait w') = _
      exact Layout.push_of_ne (by simpa using hne)
    exact
      { fifo := fifo_block h.fifo
        locked := fun m hq => by
          by_cases hwm : .mutex m = w
          · subst hwm; exact hw.1
          · rw [hsub _ hwm] at hq; exact h.locked m hq
        count := fun sm hq => by
          by_cases hws : .sem sm = w
          · subst hws; exact hw.1
          · rw [hsub _ hws] at hq; exact h.count sm hq
        int := h.int
        resumes := fun {w' t} ht => by
          obtain ⟨hne, ht⟩ := hp.resumes_blocked ht
          have hne : t ≠ a.currentThread := hne
          change ∃ u, last w' t (.arrive w a.currentThread :: a.log) = _
          rw [last_other (by simp [Event.about, Ne.symm hne])]
          exact h.resumes (hs.resumes hi hr ht).1
        left := fun w' => ⟨trivial, h.left w'⟩ }
  | @unlock m fs hr hs _ hq =>
    have hlog : ∀ {w t}, last w t (.release (.mutex m) a.currentThread :: a.log) = last w t a.log := last_other rfl
    refine h.of_objects (fun _ => rfl) (fun w => ?_) (fun m' hm => ?_) h.count h.int
      (fun ht => ⟨(hs.resumes hi hr ht).1, hlog⟩) (fun w => ⟨trivial, h.left w⟩)
    · rw [show ((a.on fun c => (c.setFrames fs).setLocked m 0).release (.mutex m)).log =
        .release (.mutex m) a.currentThread :: a.log from rfl, arrivals_cons, grants_cons]
      simpa [Event.arrived?, Event.granted?] using h.fifo w
    · by_cases hmm : m' = m
      · subst hmm; exact absurd hq hm
      · change Function.update a.mutexLocked m (some 0) m' ≠ some 0
        rw [Function.update_of_ne hmm]; exact h.locked m' hm
  | @unlockHandoff m fs t ts hr hs hq =>
    exact h.handoff ((Local.of_frames (hs.stack hr)).inv hi) rfl rfl (fun ht => (hs.resumes hi hr ht).1) hq rfl
      fun _ => rfl
  | @post sm fs hr hs hm hq =>
    have hcount : ∀ sm', ((a.on fun c => (c.setFrames fs).setCount sm (cint (c.count sm + 1))).release (.sem sm)).count sm' =
        if sm' = sm then cint (a.count sm + 1) else a.count sm' := fun sm' => count_setCount a.toCore _ sm' _
    have hlog : ∀ {w t}, last w t (.release (.sem sm) a.currentThread :: a.log) = last w t a.log := last_other rfl
    refine h.of_objects (fun _ => rfl) (fun w => ?_) h.locked (fun sm' hs' => ?_) (fun sm' => ?_)
      (fun ht => ⟨(hs.resumes hi hr ht).1, hlog⟩) (fun w => ⟨trivial, h.left w⟩)
    · rw [show ((a.on fun c => (c.setFrames fs).setCount sm (cint (c.count sm + 1))).release (.sem sm)).log =
        .release (.sem sm) a.currentThread :: a.log from rfl, arrivals_cons, grants_cons]
      simpa [Event.arrived?, Event.granted?] using h.fifo w
    · rw [hcount, if_neg (by rintro rfl; exact hs' hq)]; exact h.count sm' hs'
    · rw [hcount]
      split
      · exact cint_cint _
      · exact h.int sm'
  | @postHandoff sm fs t ts hr hs hq =>
    have hsome : (a.semCount sm).isSome := by
      refine Option.isSome_iff_ne_none.mpr fun hn => ?_
      rw [hi.sems sm hn] at hq; cases hq
    have hcount : ∀ sm', (a.on fun c => (c.setFrames fs).setCount sm (cint (cint (c.count sm + 1) - 1))).count sm' =
        a.count sm' := by
      intro sm'
      refine (count_setCount a.toCore sm sm' _).trans ?_
      split
      · next he => rw [he, show a.toCore.count sm = a.count sm from rfl, cint_add_sub]; exact h.int sm
      · rfl
    exact h.handoff (((Local.of_frames (hs.stack hr)).setCount hsome).inv hi) rfl rfl
      (fun ht => (hs.resumes hi hr ht).1) hq rfl hcount
  | @leave w fs hr hf =>
    have hs := hi.seated_run
    rw [hf] at hs
    have hnone : callOf fs = none := hs.callOf_below (by simp [Frame.level])
    have hl : Local a (a.on (.setFrames fs)) := .of_frames (by rw [hf]; exact .pop hr)
    have hcur : Resumes a w a.currentThread :=
      ⟨hi.cur, by rw [framesOf_cur, hf]; rfl, by rw [hr]; simp⟩
    refine h.of_objects (fun _ => rfl) (fun w => ?_) h.locked h.count h.int (fun {w' t} ht => ?_) (fun w' => ⟨?_, h.left w'⟩)
    · rw [show (a.on fun c => (c.note (.leave _ c.currentThread)).setFrames fs).log = .leave _ a.currentThread :: a.log
        from rfl, arrivals_cons, grants_cons]
      simpa [Event.arrived?, Event.granted?] using h.fifo w
    · have ht' : Resumes (a.on (.setFrames fs)) w' t := ht
      have hne : t ≠ a.currentThread := by
        intro e
        have := ht'.2.1
        rw [e, show (a.on (.setFrames fs)).framesOf a.currentThread = fs from if_pos rfl, hnone] at this
        cases this
      refine ⟨hl.resumes (.inr fun w => ?_) ht', last_other (by simp [Event.about, Ne.symm hne])⟩
      change callOf fs ≠ _
      rw [hnone]; simp
    · rintro rfl; exact h.resumes hcur

theorem served_init (clock : Nat → Nat) (epollFd : Fd) (avail : Fd × IoDir → Bool) : Served (initAbs clock epollFd avail) where
  fifo w := rfl
  locked m h := absurd rfl h
  count sm h := absurd rfl h
  int sm := rfl
  resumes := by
    intro w t h
    obtain ⟨ht, hc, -⟩ := h
    cases List.mem_singleton.mp ht
    cases hc
  left w := ⟨trivial, trivial⟩

end Uthread
