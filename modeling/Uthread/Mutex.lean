import Uthread.Grant

/-!
# Mutual exclusion

Who holds a mutex is read off the log: the thread that took it last or was
handed it last, unless it has unlocked it since. On a mutex that only its
holder unlocks there is never a second holder.
-/

namespace Uthread

open History Linked

/-- The threads that hold `w` after the history `l`. -/
def holders (w : WaitObj) : List Event → List Ptr
  | [] => []
  | .take w' t :: l => if w' = w then t :: holders w l else holders w l
  | .handoff w' u t :: l => if w' = w then t :: (holders w l).erase u else holders w l
  | .release w' u :: l => if w' = w then (holders w l).erase u else holders w l
  | _ :: l => holders w l

def UnlockedByHolder (m : MutexId) : Event → List Event → Prop
  | .release w u, l => w = .mutex m → u ∈ holders w l
  | .handoff w u _, l => w = .mutex m → u ∈ holders w l
  | _, _ => True

def unlockedByHolder (m : MutexId) : Event → List Event → Bool
  | .release w u, l => w = .mutex m → u ∈ holders w l
  | .handoff w u _, l => w = .mutex m → u ∈ holders w l
  | _, _ => true

instance (m : MutexId) (e : Event) (l : List Event) : Decidable (UnlockedByHolder m e l) :=
  decidable_of_iff (unlockedByHolder m e l = true) (by cases e <;> simp [unlockedByHolder, UnlockedByHolder, imp_iff_not_or])

def TakenWhenFree (m : MutexId) : Event → List Event → Prop
  | .take w _, l => w = .mutex m → holders w l = []
  | _, _ => True

def PassedOn (m : MutexId) : Event → List Event → Prop
  | .handoff w u t, l => w = .mutex m → holders w (.handoff w u t :: l) = [t]
  | _, _ => True

variable {a b : Abs} {s : Sys} {m : MutexId}

theorem holders_silent {w : WaitObj} {es l : List Event} (h : ∀ e ∈ es, e.isSync = false) :
    holders w (es ++ l) = holders w l := by
  induction es with
  | nil => rfl
  | cons e es ih =>
    have he := h e (by simp)
    rw [List.cons_append, ← ih fun e he => h e (List.mem_cons_of_mem _ he)]
    cases e <;> first | rfl | cases he

structure Held (m : MutexId) (a : Abs) : Prop where
  holder : a.mutexLocked m = some 1 ∧ (∃ t, holders (.mutex m) a.log = [t]) ∨
    (a.mutexLocked m = some 0 ∨ a.mutexLocked m = none) ∧ holders (.mutex m) a.log = []
  taken : Always (TakenWhenFree m) a.log
  passed : Always (PassedOn m) a.log

theorem Held.of_same (h : Held m a) (hlock : b.mutexLocked m = a.mutexLocked m)
    (hh : holders (.mutex m) b.log = holders (.mutex m) a.log) (ht : Always (TakenWhenFree m) b.log)
    (hp : Always (PassedOn m) b.log) : Held m b :=
  ⟨by rw [hlock, hh]; exact h.holder, ht, hp⟩

theorem Held.step (hi : Inv a) (h : Held m a) (hd : Always (UnlockedByHolder m) b.log) (hs : SyncStep a b) : Held m b := by
  cases hs with
  | unsync hu =>
    obtain ⟨es, hlog, hes⟩ := hu.log
    refine h.of_same (by rw [hu.locked]) (by rw [hlog, holders_silent hes]) ?_ ?_ <;> rw [hlog]
    · exact h.taken.silent fun e he l => by have := hes e he; cases e <;> first | exact trivial | cases this
    · exact h.passed.silent fun e he l => by have := hes e he; cases e <;> first | exact trivial | cases this
  | @mutexInit n hm =>
    refine ⟨?_, h.taken, h.passed⟩
    by_cases hmn : m = .user n
    · subst hmn
      rcases h.holder with ⟨h₁, -⟩ | ⟨-, h₂⟩
      · rw [hm] at h₁; cases h₁
      · exact .inr ⟨.inl (Function.update_self ..), h₂⟩
    · have hlock : (a.on (.setLocked (.user n) 0)).mutexLocked m = a.mutexLocked m := Function.update_of_ne hmn ..
      rw [hlock]; exact h.holder
  | @semInit n k hs => exact h.of_same rfl rfl ⟨trivial, h.taken⟩ ⟨trivial, h.passed⟩
  | @chanInit id ch hid =>
    refine ⟨?_, ⟨trivial, trivial, trivial, h.taken⟩, ⟨trivial, trivial, trivial, h.passed⟩⟩
    by_cases hmn : m = .chan id
    · subst hmn
      have hno : ¬ (a.chan id).isSome := by rw [Option.isNone_iff_eq_none.mp hid]; simp
      have hm : a.mutexLocked (.chan id) = none := Option.not_isSome_iff_eq_none.mp ((hi.chans id).1.not.mpr hno)
      rcases h.holder with ⟨h₁, -⟩ | ⟨-, h₂⟩
      · rw [hm] at h₁; cases h₁
      · exact .inr ⟨.inl (Function.update_self ..), h₂⟩
    · have hlock : (a.chanInit id ch).mutexLocked m = a.mutexLocked m := Function.update_of_ne hmn ..
      rw [hlock]; exact h.holder
  | @lock m' fs hr hs h0 =>
    by_cases hmm : m' = m
    · subst hmm
      obtain ⟨-, hfree⟩ : (a.mutexLocked m' = some 0 ∨ a.mutexLocked m' = none) ∧ holders (.mutex m') a.log = [] :=
        h.holder.resolve_left fun h₁ => by rw [h0] at h₁; cases h₁.1
      refine ⟨.inl ⟨Function.update_self .., a.currentThread, ?_⟩, ⟨fun _ => hfree, trivial, h.taken⟩,
        ⟨trivial, trivial, h.passed⟩⟩
      change (if WaitObj.mutex m' = .mutex m' then a.currentThread :: holders (.mutex m') a.log else _) = _
      rw [if_pos rfl, hfree]
    · have hw : WaitObj.mutex m' ≠ .mutex m := by simpa using hmm
      exact h.of_same (Function.update_of_ne (Ne.symm hmm) ..) (if_neg hw)
        ⟨fun e => absurd e hw, trivial, h.taken⟩ ⟨trivial, trivial, h.passed⟩
  | @wait sm fs hr hs hn => exact h.of_same rfl rfl ⟨by rintro ⟨⟩, trivial, h.taken⟩ ⟨trivial, trivial, h.passed⟩
  | @block w fs hr hs hw => exact h.of_same rfl rfl ⟨trivial, h.taken⟩ ⟨trivial, h.passed⟩
  | @unlock m' fs hr hs hm hq =>
    by_cases hmm : m' = m
    · subst hmm
      have hcur : a.currentThread ∈ holders (.mutex m') a.log := hd.1 rfl
      obtain ⟨-, t, ht⟩ : a.mutexLocked m' = some 1 ∧ ∃ t, holders (.mutex m') a.log = [t] :=
        h.holder.resolve_right fun h₂ => by rw [h₂.2] at hcur; cases hcur
      refine ⟨.inr ⟨.inl (Function.update_self ..), ?_⟩, ⟨trivial, h.taken⟩, ⟨trivial, h.passed⟩⟩
      change (if WaitObj.mutex m' = .mutex m' then (holders (.mutex m') a.log).erase a.currentThread else _) = _
      rw [ht] at hcur ⊢
      rw [if_pos rfl, List.mem_singleton.mp hcur]; simp
    · have hw : WaitObj.mutex m' ≠ .mutex m := by simpa using hmm
      exact h.of_same (Function.update_of_ne (Ne.symm hmm) ..) (if_neg hw) ⟨trivial, h.taken⟩ ⟨trivial, h.passed⟩
  | @unlockHandoff m' fs t ts hr hs hq =>
    by_cases hmm : m' = m
    · subst hmm
      have hcur : a.currentThread ∈ holders (.mutex m') a.log := hd.1 rfl
      obtain ⟨h₁, t', ht⟩ : a.mutexLocked m' = some 1 ∧ ∃ t, holders (.mutex m') a.log = [t] :=
        h.holder.resolve_right fun h₂ => by rw [h₂.2] at hcur; cases hcur
      have hpass : holders (.mutex m') (.handoff (.mutex m') a.currentThread t :: .enq t :: a.log) = [t] := by
        change (if WaitObj.mutex m' = .mutex m' then t :: (holders (.mutex m') a.log).erase a.currentThread else _) = _
        rw [ht] at hcur ⊢
        rw [if_pos rfl, List.mem_singleton.mp hcur]; simp
      exact ⟨.inl ⟨h₁, t, hpass⟩, ⟨trivial, trivial, h.taken⟩, ⟨fun _ => hpass, trivial, h.passed⟩⟩
    · have hw : WaitObj.mutex m' ≠ .mutex m := by simpa using hmm
      exact h.of_same rfl (if_neg hw) ⟨trivial, trivial, h.taken⟩ ⟨fun e => absurd e hw, trivial, h.passed⟩
  | @post sm fs hr hs hm hq => exact h.of_same rfl rfl ⟨trivial, h.taken⟩ ⟨trivial, h.passed⟩
  | @postHandoff sm fs t ts hr hs hq =>
    exact h.of_same rfl rfl ⟨trivial, trivial, h.taken⟩ ⟨by rintro ⟨⟩, trivial, h.passed⟩
  | @leave w fs hr hf => exact h.of_same rfl rfl ⟨trivial, h.taken⟩ ⟨trivial, h.passed⟩

theorem reachable_held (h : Sys.Reachable s) (hd : Always (UnlockedByHolder m) s.log) :
    ∃ q g, Sim s q g ∧ Served (s.abs q g) ∧ Held m (s.abs q g) := by
  have hinit : ∀ c e v, Served (initAbs c e v) ∧
      (Always (UnlockedByHolder m) (initAbs c e v).log → Held m (initAbs c e v)) :=
    fun c e v => ⟨served_init c e v, fun _ => ⟨.inr ⟨.inr rfl, rfl⟩, ⟨trivial, trivial⟩, ⟨trivial, trivial⟩⟩⟩
  have hstep : ∀ a b, Inv a → Served a ∧ (Always (UnlockedByHolder m) a.log → Held m a) → Prim a b →
      Served b ∧ (Always (UnlockedByHolder m) b.log → Held m b) := by
    intro a b hi ⟨hsv, hh⟩ hp
    have hst := hp.sync hi
    obtain ⟨es, hlog⟩ := hst.log
    refine ⟨hsv.step hi hst, fun hd => (hh ?_).step hi hd hst⟩
    rw [hlog] at hd
    exact hd.older
  obtain ⟨q, g, hs, -, hsv, hh⟩ := reachable_inv
    (I := fun a => Served a ∧ (Always (UnlockedByHolder m) a.log → Held m a)) hinit hstep h
  exact ⟨q, g, hs, hsv, hh hd⟩

/-- A mutex that only its holder unlocks has at most one holder, the lock word says whether it has
one, the grant goes from holder to holder without being dropped, and the calls are served in order. -/
theorem mutex_handoff (h : Sys.Reachable s) (m : MutexId) (hd : Always (UnlockedByHolder m) s.log) :
    (holders (.mutex m) s.log).length ≤ 1 ∧
      (∀ v, s.mutexLocked m = some v → v = if holders (.mutex m) s.log = [] then 0 else 1) ∧
      (s.lk.waitHead (.mutex m) ≠ none → s.mutexLocked m = some 1) ∧
      Always (TakenWhenFree m) s.log ∧ Always (PassedOn m) s.log ∧
      (∃ queue, Chain s.lk.next (s.lk.waitHead (.mutex m)) queue ∧
        arrivals (.mutex m) s.log = grants (.mutex m) s.log ++ queue) ∧
      Always (Left (.mutex m)) s.log := by
  obtain ⟨q, g, hs, hsv, hh⟩ := reachable_held h hd
  have hholder : s.mutexLocked m = some 1 ∧ (∃ t, holders (.mutex m) s.log = [t]) ∨
    (s.mutexLocked m = some 0 ∨ s.mutexLocked m = none) ∧ holders (.mutex m) s.log = [] := hh.holder
  refine ⟨?_, fun v hv => ?_, fun hne => ?_, hh.taken, hh.passed, ⟨q (.wait (.mutex m)), hs.rep.chain (.wait (.mutex m)), hsv.fifo _⟩,
    hsv.left _⟩
  · rcases hholder with ⟨-, t, ht⟩ | ⟨-, ht⟩ <;> rw [ht] <;> simp
  · rcases hholder with ⟨h₁, t, ht⟩ | ⟨h₁ | h₁, ht⟩ <;> rw [hv] at h₁ <;> cases h₁ <;> rw [ht] <;> simp
  · have hq : q (.wait (.mutex m)) ≠ [] := by
      intro hq
      rw [hs.rep.waitHead_eq, hq] at hne
      exact hne rfl
    rcases hholder with ⟨h₁, -⟩ | ⟨h₁ | h₁, -⟩
    · exact h₁
    · exact absurd h₁ (hsv.locked m hq)
    · exact absurd (hs.inv.mutexes m h₁) hq

/-- The main thread holds a mutex on which another thread waits, and hands it over. -/
theorem mutex_handoff_contended :
    let s := Sys.after (fun _ => 0) [.call (.mutexInit 0) {}, .call (.mutexLock 0) {}, .call (.create 0) {}, .resume {}, .resume {},
      .call .yield {}, .resume {}, .resume {}, .resume {}, .call (.mutexLock 0) {}, .resume {}, .resume {}, .resume {},
      .resume {}, .call (.mutexUnlock 0) {}]
    holders (.mutex (.user 0)) s.log = [1] ∧ (holders (.mutex (.user 0)) s.log).length ≤ 1 :=
  ⟨by decide +kernel, (mutex_handoff (Sys.reachable_after (by decide +kernel)) (.user 0) (by decide +kernel)).1⟩

end Uthread
