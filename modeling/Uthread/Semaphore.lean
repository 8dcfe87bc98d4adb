import Uthread.Mutex

/-!
# Counting

The count of a semaphore is its initial count and the posts, less the waits
that were granted, as long as no post takes it over the largest `int`.
-/

namespace Uthread

open History Linked

/-- The initial counts of `sm`; a semaphore is initialised at most once. -/
def inits (sm : SemId) : List Event → Int
  | [] => 0
  | .semInit sm' n :: l => if sm' = sm then n + inits sm l else inits sm l
  | _ :: l => inits sm l

/-- What the count of `sm` should be after the history `l`. -/
def balance (sm : SemId) (l : List Event) : Int :=
  inits sm l + returned (.sem sm) l - (grants (.sem sm) l).length

def Fits (sm : SemId) : Event → List Event → Prop
  | .release w _, l => w = .sem sm → balance sm l < 2 ^ 31 - 1
  | _, _ => True

def fits (sm : SemId) : Event → List Event → Bool
  | .release w _, l => w = .sem sm → balance sm l < 2 ^ 31 - 1
  | _, _ => true

instance (sm : SemId) (e : Event) (l : List Event) : Decidable (Fits sm e l) :=
  decidable_of_iff (fits sm e l = true) (by cases e <;> simp [fits, Fits, imp_iff_not_or])

def Event.worth (sm : SemId) : Event → Int
  | .semInit sm' n => if sm' = sm then n else 0
  | .release w _ => if w = .sem sm then 1 else 0
  | .take w _ => if w = .sem sm then -1 else 0
  | _ => 0

variable {a b : Abs} {s : Sys} {sm : SemId} {e : Event} {es l : List Event}

theorem balance_cons : balance sm (e :: l) = balance sm l + e.worth sm := by
  unfold balance
  rw [returned_cons, grants_cons, List.length_append]
  cases e with
  | semInit sm' n =>
    by_cases h : sm' = sm
    · simp [inits, Event.returns, Event.granted?, Event.worth, h]; omega
    · simp [inits, Event.returns, Event.granted?, Event.worth, h]
  | release w u =>
    by_cases h : w = .sem sm
    · simp [inits, Event.returns, Event.granted?, Event.worth, h]; omega
    · simp [inits, Event.returns, Event.granted?, Event.worth, h]
  | take w u =>
    by_cases h : w = .sem sm
    · simp [inits, Event.returns, Event.granted?, Event.worth, h]; omega
    · simp [inits, Event.returns, Event.granted?, Event.worth, h]
  | handoff w u t =>
    by_cases h : w = .sem sm
    · simp [inits, Event.returns, Event.granted?, Event.worth, h]; omega
    · simp [inits, Event.returns, Event.granted?, Event.worth, h]
  | _ => simp [inits, Event.returns, Event.granted?, Event.worth]

def Event.counts (sm : SemId) : Event → Bool
  | .semInit sm' _ => sm' = sm
  | .release w _ => w = .sem sm
  | .take w _ => w = .sem sm
  | _ => false

theorem Event.worth_of_not_counts (h : e.counts sm = false) : e.worth sm = 0 := by
  cases e with
  | semInit sm' n => exact if_neg (by simpa [Event.counts] using h)
  | release w u => exact if_neg (by simpa [Event.counts] using h)
  | take w u => exact if_neg (by simpa [Event.counts] using h)
  | _ => rfl

theorem Event.not_counts (h : e.isSync = false) : e.counts sm = false := by
  cases e <;> first | rfl | cases h

theorem inits_cons (h : ∀ n, e ≠ .semInit sm n) : inits sm (e :: l) = inits sm l := by
  cases e with
  | semInit sm' n =>
    refine if_neg ?_
    intro hs
    subst hs
    exact h n rfl
  | _ => rfl

structure SameCount (sm : SemId) (l l' : List Event) : Prop where
  mem : ∀ n, .semInit sm n ∈ l' ↔ .semInit sm n ∈ l
  inits : inits sm l' = inits sm l
  balance : balance sm l' = balance sm l

theorem SameCount.of_not_counts (es : List Event) (h : ∀ e ∈ es, e.counts sm = false) : SameCount sm l (es ++ l) := by
  induction es with
  | nil => exact ⟨fun _ => Iff.rfl, rfl, rfl⟩
  | cons e es ih =>
    have he := h e (by simp)
    have hne : ∀ n, e ≠ .semInit sm n := by
      intro n hn
      rw [hn] at he
      simp [Event.counts] at he
    obtain ⟨h₁, h₂, h₃⟩ := ih fun e he => h e (List.mem_cons_of_mem _ he)
    refine ⟨fun n => ?_, (inits_cons hne).trans h₂, ?_⟩
    · rw [List.cons_append, List.mem_cons, h₁ n]
      exact or_iff_right (hne n).symm
    · rw [List.cons_append, balance_cons, Event.worth_of_not_counts he, h₃]; simp

/-! ## The invariant -/

structure Unused (sm : SemId) (l : List Event) : Prop where
  mem : ∀ n, .semInit sm n ∉ l
  inits : inits sm l = 0
  balance : balance sm l = 0

structure Counted (sm : SemId) (a : Abs) : Prop where
  unused : a.semCount sm = none → Unused sm a.log
  started : ∀ n, .semInit sm n ∈ a.log → (a.semCount sm).isSome ∧ inits sm a.log = n
  count : Always (Fits sm) a.log → ∀ c, a.semCount sm = some c → c = balance sm a.log ∧ min (inits sm a.log) 0 ≤ c

theorem Counted.of_log (es : List Event) (h : Counted sm a) (hs : b.semCount sm = a.semCount sm) (hlog : b.log = es ++ a.log)
    (hes : ∀ e ∈ es, e.counts sm = false) : Counted sm b := by
  obtain ⟨h₁, h₂, h₃⟩ := SameCount.of_not_counts es (l := a.log) hes
  refine ⟨fun hn => ?_, fun n hn => ?_, fun hf c hc => ?_⟩
  · rw [hs] at hn
    obtain ⟨u₁, u₂, u₃⟩ := h.unused hn
    rw [hlog]
    exact ⟨fun n hm => u₁ n ((h₁ n).mp hm), h₂.trans u₂, h₃.trans u₃⟩
  · rw [hlog] at hn
    rw [hs, hlog, h₂]; exact h.started n ((h₁ n).mp hn)
  · rw [hs] at hc
    rw [hlog] at hf
    rw [hlog, h₂, h₃]; exact h.count hf.older c hc

theorem Counted.init (es : List Event) (h : Counted sm a) (hn : a.semCount sm = none) {n : Int} (hs : b.semCount sm = some n)
    {l : List Event} (hlog : b.log = es ++ .semInit sm n :: l) (hl : SameCount sm a.log l)
    (hes : ∀ e ∈ es, e.counts sm = false) : Counted sm b := by
  obtain ⟨u₁, u₂, u₃⟩ := h.unused hn
  have hi : inits sm (.semInit sm n :: l) = n := by simp [inits, hl.inits, u₂]
  have hb : balance sm (.semInit sm n :: l) = n := by rw [balance_cons, hl.balance, u₃]; simp [Event.worth]
  obtain ⟨h₁, h₂, h₃⟩ := SameCount.of_not_counts es (l := .semInit sm n :: l) hes
  rw [hi] at h₂
  rw [hb] at h₃
  refine ⟨fun hn => ?_, fun m hm => ?_, fun _ c hc => ?_⟩
  · cases hs.symm.trans hn
  · rw [hlog] at hm ⊢
    refine ⟨by rw [hs]; rfl, ?_⟩
    rcases List.mem_cons.mp ((h₁ m).mp hm) with he | hm
    · cases he; exact h₂
    · exact absurd ((hl.mem m).mp hm) (u₁ m)
  · cases hs.symm.trans hc
    rw [hlog, h₂, h₃]
    exact ⟨rfl, min_le_left _ _⟩

theorem Counted.change (es : List Event) (h : Counted sm a) {c c' : Int} (hc : a.semCount sm = some c) (hs : b.semCount sm = some c')
    (hlog : b.log = e :: (es ++ a.log)) (hes : ∀ e ∈ es, e.counts sm = false) (he : ∀ n, e ≠ .semInit sm n)
    (hval : Always (Fits sm) b.log → c = balance sm a.log → min (inits sm a.log) 0 ≤ c →
      c' = c + e.worth sm ∧ min (inits sm a.log) 0 ≤ c') : Counted sm b := by
  obtain ⟨h₁, h₂, h₃⟩ := SameCount.of_not_counts es (l := a.log) hes
  refine ⟨fun hn => ?_, fun n hn => ?_, fun hf d hd => ?_⟩
  · cases hs.symm.trans hn
  · rw [hlog] at hn ⊢
    refine ⟨by rw [hs]; rfl, (inits_cons he).trans (h₂.trans (h.started n ?_).2)⟩
    rcases List.mem_cons.mp hn with hn | hn
    · exact absurd hn.symm (he n)
    · exact (h₁ n).mp hn
  · cases hs.symm.trans hd
    obtain ⟨hb, hm⟩ := h.count (by rw [hlog] at hf; exact hf.2.older) c hc
    obtain ⟨hb', hm'⟩ := hval hf hb hm
    rw [hlog, inits_cons he, h₂, balance_cons, h₃, ← hb]
    exact ⟨hb', hm'⟩

theorem Counted.step (hi : Inv a) (hsv : Served a) (h : Counted sm a) (hst : SyncStep a b) : Counted sm b := by
  cases hst with
  | unsync hu =>
    obtain ⟨es, hlog, hes⟩ := hu.log
    exact h.of_log es (by rw [hu.count]) hlog fun e he => Event.not_counts (hes e he)
  | mutexInit => exact h.of_log [] rfl rfl (by simp)
  | @semInit n k hs =>
    by_cases hsm : sm = .user n
    · subst hsm
      exact h.init [] hs (Function.update_self ..) rfl ⟨fun _ => Iff.rfl, rfl, rfl⟩ (by simp)
    · exact h.of_log [_] (Function.update_of_ne hsm ..) rfl (by simpa [Event.counts] using Ne.symm hsm)
  | @chanInit id ch hid =>
    obtain ⟨-, hsp, hms⟩ := hi.chans id
    have hno : ¬ (a.chan id).isSome := by rw [Option.isNone_iff_eq_none.mp hid]; simp
    by_cases h₁ : sm = .messages id
    · subst h₁
      refine h.init [] (Option.not_isSome_iff_eq_none.mp (hms.not.mpr hno)) (Function.update_self ..) rfl ?_
        (by simp)
      exact .of_not_counts [_, _] (by simp [Event.counts])
    · by_cases h₂ : sm = .space id
      · subst h₂
        have hs : (a.chanInit id ch).semCount (.space id) = some (cint ch.capacity) := by
          change Function.update (Function.update a.semCount (.space id) (some (cint ch.capacity))) (.messages id)
            (some (cint 0)) (.space id) = _
          rw [Function.update_of_ne h₁, Function.update_self]
        refine h.init [_] (Option.not_isSome_iff_eq_none.mp (hsp.not.mpr hno)) hs rfl ?_
          (by simp [Event.counts])
        exact .of_not_counts [_] (by simp [Event.counts])
      · exact h.of_log [_, _, _] ((Function.update_of_ne h₁ ..).trans (Function.update_of_ne h₂ ..)) rfl
          (by simp [Event.counts, Ne.symm h₁, Ne.symm h₂])
  | lock => exact h.of_log [_, _] rfl rfl (by simp [Event.counts])
  | @wait sm' fs hr hs hn =>
    by_cases hsm : sm = sm'
    · subst hsm
      obtain ⟨c, hc⟩ : ∃ c, a.semCount sm = some c := by
        cases hc : a.semCount sm with
        | some c => exact ⟨c, rfl⟩
        | none => simp [Core.count, hc] at hn
      have hcount : a.count sm = c := by simp [Core.count, hc]
      rw [hcount] at hn
      refine h.change [_] hc (Function.update_self ..) rfl (by simp [Event.counts]) (by simp) fun _ hb hm => ?_
      rw [hcount]
      exact ⟨by simp [Event.worth]; omega, by omega⟩
    · exact h.of_log [_, _] (Function.update_of_ne hsm ..) rfl (by simp [Event.counts, Ne.symm hsm])
  | block => exact h.of_log [_] rfl rfl (by simp [Event.counts])
  | unlock => exact h.of_log [_] rfl rfl (by simp [Event.counts])
  | unlockHandoff => exact h.of_log [_, _] rfl rfl (by simp [Event.counts])
  | @post sm' fs hr hs hsome hq =>
    by_cases hsm : sm = sm'
    · subst hsm
      obtain ⟨c, hc⟩ := Option.isSome_iff_exists.mp hsome
      have hcount : a.count sm = c := by simp [Core.count, hc]
      have hint : cint c = c := by rw [← hcount]; exact hsv.int sm
      have hrange := cint_range c
      refine h.change [] hc (Function.update_self ..) rfl (by simp) (by simp) fun hf hb hm => ?_
      have hfit : balance sm a.log < 2 ^ 31 - 1 := hf.1 rfl
      have hnext : cint (a.count sm + 1) = c + 1 := by rw [hcount]; exact cint_of_range (by omega) (by omega)
      change cint (a.count sm + 1) = _ ∧ _ ≤ cint (a.count sm + 1)
      rw [hnext]
      exact ⟨by simp [Event.worth], by omega⟩
    · exact h.of_log [_] (Function.update_of_ne hsm ..) rfl (by simp [Event.counts, Ne.symm hsm])
  | @postHandoff sm' fs t ts hr hs hq =>
    have hsame : ((a.on fun c => (c.setFrames fs).setCount sm' (cint (cint (c.count sm' + 1) - 1))).handoff (.sem sm')
        t).semCount sm = a.semCount sm := by
      change Function.update a.semCount sm' (some (cint (cint (a.count sm' + 1) - 1))) sm = _
      by_cases hsm : sm = sm'
      · subst hsm
        rw [Function.update_self, cint_add_sub, hsv.int]
        cases hc : a.semCount sm with
        | some c => simp [Core.count, hc]
        | none => rw [hi.sems sm hc] at hq; cases hq
      · exact Function.update_of_ne hsm ..
    exact h.of_log [_, _] hsame rfl (by simp [Event.counts])
  | leave => exact h.of_log [_] rfl rfl (by simp [Event.counts])

theorem counted_init (clock : Nat → Nat) (epollFd : Fd) (avail : Fd × IoDir → Bool) :
    Counted sm (initAbs clock epollFd avail) where
  unused _ := ⟨by simp [initAbs, Sys.abs, Sys.uthreadInit], rfl, rfl⟩
  started := by simp [initAbs, Sys.abs, Sys.uthreadInit]
  count _ c hc := by cases hc

theorem reachable_counted (h : Sys.Reachable s) (sm : SemId) :
    ∃ q g, Sim s q g ∧ Served (s.abs q g) ∧ Counted sm (s.abs q g) := by
  obtain ⟨q, g, hs, -, hsv, hc⟩ := reachable_inv (I := fun a => Served a ∧ Counted sm a)
    (fun c e v => ⟨served_init c e v, counted_init c e v⟩)
    (fun a b hi h hp => ⟨h.1.step hi (hp.sync hi), h.2.step hi h.1 (hp.sync hi)⟩) h
  exact ⟨q, g, hs, hsv, hc⟩

/-- A semaphore whose posts do not overflow its count grants as many waits as there are calls and
tokens for them, in the order of the calls, and its count is what is left. -/
theorem sem_counts (h : Sys.Reachable s) {sm : SemId} {n : Int} (hn : .semInit sm n ∈ s.log) (h0 : 0 ≤ n)
    (hf : Always (Fits sm) s.log) :
    s.semCount sm = some (n + returned (.sem sm) s.log - (grants (.sem sm) s.log).length) ∧ 0 ≤ s.count sm ∧
      ((grants (.sem sm) s.log).length : Int) =
        min ((arrivals (.sem sm) s.log).length : Int) (n + returned (.sem sm) s.log) ∧
      (s.lk.waitHead (.sem sm) ≠ none → s.semCount sm = some 0) ∧
      (∃ queue, Chain s.lk.next (s.lk.waitHead (.sem sm)) queue ∧
        arrivals (.sem sm) s.log = grants (.sem sm) s.log ++ queue) ∧
      Always (Left (.sem sm)) s.log := by
  obtain ⟨q, g, hs, hsv, hc⟩ := reachable_counted h sm
  obtain ⟨hsome, hin⟩ := hc.started n hn
  obtain ⟨c, hcs⟩ := Option.isSome_iff_exists.mp hsome
  obtain ⟨hb, hm⟩ := hc.count hf c hcs
  have hs' : s.semCount sm = some c := hcs
  have hcount : s.count sm = c := by simp [Core.count, hs']
  have hbal : c = n + returned (.sem sm) s.log - (grants (.sem sm) s.log).length := by
    rw [← hin]; exact hb
  have hpos : 0 ≤ c := by rw [hin] at hm; omega
  have hfifo : arrivals (.sem sm) s.log = grants (.sem sm) s.log ++ q (.wait (.sem sm)) := hsv.fifo _
  have hlen : (arrivals (.sem sm) s.log).length = (grants (.sem sm) s.log).length + (q (.wait (.sem sm))).length := by
    rw [hfifo, List.length_append]
  have hzero : q (.wait (.sem sm)) ≠ [] → c = 0 := by
    intro hne
    have hle : s.count sm ≤ 0 := hsv.count sm hne
    omega
  refine ⟨by rw [hs', hbal], by rw [hcount]; exact hpos, ?_, fun hne => ?_,
    ⟨q (.wait (.sem sm)), hs.rep.chain (.wait (.sem sm)), hfifo⟩, hsv.left _⟩
  · by_cases hq : q (.wait (.sem sm)) = []
    · rw [hq, List.length_nil] at hlen
      omega
    · have := hzero hq
      omega
  · have hq : q (.wait (.sem sm)) ≠ [] := by
      intro hq
      rw [hs.rep.waitHead_eq, hq] at hne
      exact hne rfl
    rw [hs', hzero hq]

/-- A thread waits on a semaphore, and is handed the token that the main thread posts. -/
theorem sem_counts_contended :
    let s := Sys.after (fun _ => 0) [.call (.semInit 0 0) {}, .call (.create 0) {}, .resume {}, .resume {},
      .call .yield {}, .resume {}, .resume {}, .resume {}, .call (.semWait 0) {}, .resume {}, .resume {}, .resume {},
      .resume {}, .call (.semPost 0) {}]
    grants (.sem (.user 0)) s.log = [1] ∧ s.semCount (.user 0) = some (0 + 1 - 1) :=
  ⟨by decide +kernel,
    (sem_counts (Sys.reachable_after (by decide +kernel)) (by decide +kernel : Event.semInit (.user 0) 0 ∈ _)
      (by decide) (by decide +kernel)).1.trans (by decide +kernel)⟩

/-- A post to a semaphore that holds the largest `int` makes its count negative. -/
theorem sem_count_overflows :
    ∃ s : Sys, Sys.Reachable s ∧ .semInit (.user 0) (2 ^ 31 - 1) ∈ s.log ∧ s.count (.user 0) < 0 ∧
      s.count (.user 0) ≠ 2 ^ 31 - 1 + returned (.sem (.user 0)) s.log - (grants (.sem (.user 0)) s.log).length :=
  ⟨Sys.after (fun _ => 0) [.call (.semInit 0 (2 ^ 31 - 1)) {}, .call (.semPost 0) {}],
    Sys.reachable_after (by decide +kernel), by decide +kernel, by decide +kernel, by decide +kernel⟩

end Uthread
