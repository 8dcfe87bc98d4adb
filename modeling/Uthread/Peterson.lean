import Uthread.Tcb
import Uthread.Lib.Runs

/-!
# Peterson's lock in the demo

The two workers of `demos/petersons/petersons.c`. Both run on one OS thread, so
their loads and stores take effect one after the other; SIGALRM may let the other
worker go on between any two. A step is one access to a shared variable.
-/

namespace Uthread

namespace Petersons

abbrev Worker := Fin 2

def other (self : Worker) : Worker := 1 - self

inductive At
  -- `lock`: the two stores, the two tests of the loop and its `uthread_yield`
  | raise
  | give
  | testFlag
  | testTurn
  | spin
  -- the critical section of the loop, with `temp`
  | load
  | pause (temp : Int)
  | store (temp : Int)
  | lower
  -- the section behind the loop
  | loadFinished
  | storeFinished (finished : Int)
  | testFinished
  | report
  | leave
  | done
  deriving DecidableEq, Repr

structure State where
  flag : Worker → Int
  turn : Worker
  counter : Int
  finished : Int
  pc : Worker → At
  i : Worker → Nat
  -- what `printf` has shown before `exit(0)`
  output : Option Int
  -- history: how often the other worker got the lock since a worker stored to `turn`
  passed : Worker → Nat

variable (iterations : Nat)

namespace State

def goto (self : Worker) (pc : At) (s : State) : State := { s with pc := Function.update s.pc self pc }

def setFlag (self : Worker) (v : Int) (s : State) : State := { s with flag := Function.update s.flag self v }

def setPassed (w : Worker) (n : Nat) (s : State) : State := { s with passed := Function.update s.passed w n }

def enter (self : Worker) (s : State) : State :=
  (s.setPassed (other self) (s.passed (other self) + 1)).goto self (if s.i self < iterations then .load else .loadFinished)

def step (s : State) (self : Worker) : Option State :=
  if s.output.isSome then none
  else match s.pc self with
  | .raise => some ((s.setFlag self 1).goto self .give)
  | .give => some (({ s with turn := other self }.setPassed self 0).goto self .testFlag)
  | .testFlag => some (if s.flag (other self) = 1 then s.goto self .testTurn else s.enter iterations self)
  | .testTurn => some (if s.turn = other self then s.goto self .spin else s.enter iterations self)
  | .spin => some (s.goto self .testFlag)
  | .load => some (s.goto self (if s.i self % 50000 = 0 then .pause s.counter else .store s.counter))
  | .pause temp => some (s.goto self (.store temp))
  | .store temp => some ({ s with counter := cint (temp + 1) }.goto self .lower)
  | .lower => some (({ s with i := Function.update s.i self (s.i self + 1) }.setFlag self 0).goto self .raise)
  | .loadFinished => some (s.goto self (.storeFinished s.finished))
  | .storeFinished finished => some ({ s with finished := finished + 1 }.goto self .testFinished)
  | .testFinished => some (s.goto self (if s.finished = 2 then .report else .leave))
  | .report => some { s with output := some s.counter }
  | .leave => some ((s.setFlag self 0).goto self .done)
  | .done => none

end State

def start : State where
  flag _ := 0
  turn := 0
  counter := 0
  finished := 0
  pc _ := .raise
  i _ := 0
  output := none
  passed _ := 0

abbrev Run : State → Prop := Trans.Reach (· = start) (State.step iterations) fun _ _ => True

@[simp] theorem other_other (w : Worker) : other (other w) = w := by
  revert w
  decide

@[simp] theorem other_ne (w : Worker) : other w ≠ w := by
  revert w
  decide

theorem eq_or_other (self w : Worker) : w = self ∨ w = other self := by
  revert self w
  decide

/-! ## The lock -/

inductive Phase
  | out
  | raised
  | waiting
  | inside
  deriving DecidableEq

def At.phase : At → Phase
  | .raise | .done => .out
  | .give => .raised
  | .testFlag | .testTurn | .spin => .waiting
  | _ => .inside

structure Locks (fl : Worker → Int) (tu : Worker) (pa : Worker → Nat) (phase : Worker → Phase) : Prop where
  flag : ∀ w, fl w = 1 ↔ phase w ≠ .out
  alone : ∀ w, phase w = .inside → phase (other w) ≠ .inside
  -- a worker that waits has given the turn away
  turn : ∀ w, phase w = .inside → phase (other w) = .waiting → tu = w
  -- the other worker passes a waiting one once at most, and then has to wait for it
  passed : ∀ w, phase w = .waiting → pa w ≤ 1 ∧ (pa w = 1 → phase (other w) = .waiting → tu = w)

namespace Locks

variable {flag : Worker → Int} {turn self : Worker} {passed : Worker → Nat} {phase : Worker → Phase}

theorem both {P : Worker → Prop} (self : Worker) (h : P self) (h' : P (other self)) (w : Worker) : P w := by
  rcases eq_or_other self w with rfl | rfl
  · exact h
  · exact h'

theorem raise (h : Locks flag turn passed phase) :
    Locks (Function.update flag self 1) turn passed (Function.update phase self .raised) where
  flag := both self (by simp) (by simpa using h.flag (other self))
  alone := both self (by simp) (by simp)
  turn := both self (by simp) (by simp)
  passed := both self (by simp) (by simpa using fun hw => (h.passed (other self) hw).1)

theorem give (h : Locks flag turn passed phase) (hp : phase self = .raised) :
    Locks flag (other self) (Function.update passed self 0) (Function.update phase self .waiting) where
  flag := both self (by simpa [hp] using h.flag self) (by simpa using h.flag (other self))
  alone := both self (by simp) (by simp)
  turn := both self (by simp) (by simp)
  passed := both self (by simp) (by simpa using fun hw => (h.passed (other self) hw).1)

theorem lower (h : Locks flag turn passed phase) :
    Locks (Function.update flag self 0) turn passed (Function.update phase self .out) where
  flag := both self (by simp) (by simpa using h.flag (other self))
  alone := both self (by simp) (by simp)
  turn := both self (by simp) (by simp)
  passed := both self (by simp) (by simpa using fun hw => (h.passed (other self) hw).1)

theorem enter (h : Locks flag turn passed phase) (hp : phase self = .waiting)
    (hin : flag (other self) ≠ 1 ∨ turn ≠ other self) :
    Locks flag turn (Function.update passed (other self) (passed (other self) + 1)) (Function.update phase self .inside) := by
  have hturn : phase (other self) ≠ .out → turn = self := by
    intro hne
    rcases hin with hf | ht
    · exact absurd ((h.flag _).mpr hne) hf
    · rcases eq_or_other self turn with he | he
      · exact he
      · exact absurd he ht
  have halone : phase (other self) ≠ .inside := by
    intro hi
    have h₁ := h.turn (other self) hi (by simpa using hp)
    have h₂ := hturn (by simp [hi])
    exact other_ne self (h₁.symm.trans h₂)
  constructor
  · exact both self (by simpa [hp] using h.flag self) (by simpa using h.flag (other self))
  · exact both self (by simpa using halone) (by simpa using fun hi => absurd hi halone)
  · refine both self ?_ (by simp)
    intro _ hw
    exact hturn (by simpa using (show phase (other self) ≠ .out by simpa using fun e => by simp [e] at hw))
  · refine both self (by simp) ?_
    intro hw
    have hw' : phase (other self) = .waiting := by simpa using hw
    have hzero : passed (other self) = 0 := by
      have h₁ := h.passed (other self) hw'
      by_contra hne
      have h₂ := h₁.2 (by omega) (by simpa using hp)
      exact other_ne self (h₂.symm.trans (hturn (by simp [hw'])))
    simp [hzero]

end Locks

/-! ## The counter -/

namespace At

def Holds (counter finished : Int) : At → Prop
  | .pause temp | .store temp => temp = counter
  | .storeFinished n => n = finished
  | .report => finished = 2
  | _ => True

def left : At → Bool
  | .leave | .done => true
  | _ => false

def Counts (i iterations : Nat) : At → Prop
  | .load | .pause _ | .store _ | .lower => i < iterations
  | .loadFinished | .storeFinished _ | .testFinished | .report | .leave | .done => i = iterations
  | _ => i ≤ iterations

def extra : At → Nat
  | .lower => 1
  | _ => 0

def ended : At → Nat
  | .testFinished | .report | .leave | .done => 1
  | _ => 0

theorem Counts.le {pc : At} {i n : Nat} (h : pc.Counts i n) : i + pc.extra ≤ n := by
  cases pc <;> simp only [Counts, extra] at h ⊢ <;> omega

theorem Counts.ended {pc : At} {i n : Nat} (h : pc.Counts i n) (he : pc.ended = 1) : i = n ∧ pc.extra = 0 := by
  cases pc <;> simp [Counts, At.ended, extra] at h he ⊢ <;> exact h

theorem left_ended {pc : At} (h : pc.left = true) : pc.ended = 1 := by
  cases pc <;> simp [left] at h ⊢ <;> rfl

theorem waits {pc : At} (h : pc.phase = .waiting) : pc.extra = 0 ∧ pc.ended = 0 := by
  cases pc <;> simp [phase, extra, At.ended] at h ⊢

theorem Holds.of_phase {pc : At} {m n : Int} (h : pc.phase ≠ .inside) : pc.Holds m n := by
  cases pc <;> simp [phase, Holds] at h ⊢

end At

namespace State

def phase (s : State) (w : Worker) : Phase := (s.pc w).phase

def made (s : State) (w : Worker) : Int := s.i w + (s.pc w).extra

def ended (s : State) (w : Worker) : Int := (s.pc w).ended

theorem phase_update {s : State} {self : Worker} {pc : At} :
    (fun w => (Function.update s.pc self pc w).phase) = Function.update s.phase self pc.phase := by
  funext w
  by_cases h : w = self
  · subst h
    simp
  · simp [h, phase]

end State

structure Ok (iterations : Nat) (s : State) : Prop where
  locks : Locks s.flag s.turn s.passed s.phase
  holds : ∀ w, (s.pc w).Holds s.counter s.finished
  counts : ∀ w, (s.pc w).Counts (s.i w) iterations
  counter : ∀ w, s.counter = s.made w + s.made (other w)
  finished : ∀ w, s.finished = s.ended w + s.ended (other w)
  -- the second worker that tests `finished` finds 2
  last : ∀ w, (s.pc w).left = true → (s.pc (other w)).left = false
  output : ∀ n, s.output = some n → n = 2 * iterations

section
variable {iterations : Nat} {s s' : State} {self : Worker} {pc : At}

theorem Ok.start : Ok iterations start where
  locks := ⟨by decide, by decide, by decide, by decide⟩
  holds w := trivial
  counts w := Nat.zero_le _
  counter w := rfl
  finished w := rfl
  last w h := rfl
  output n h := by cases h

theorem Ok.of_self (self : Worker) (pc : At) (h : Ok iterations s) (hpc : s'.pc = Function.update s.pc self pc) (hi : s'.i (other self) = s.i (other self))
    (hl : Locks s'.flag s'.turn s'.passed (Function.update s.phase self pc.phase))
    (hh : pc.Holds s'.counter s'.finished) (ho : (s.pc (other self)).Holds s'.counter s'.finished)
    (hc : pc.Counts (s'.i self) iterations) (hm : s'.counter - s.counter = s'.i self + pc.extra - s.made self)
    (hf : s'.finished - s.finished = pc.ended - s.ended self)
    (hb : pc.left = true → (s.pc (other self)).left = false) (hout : s'.output = s.output) : Ok iterations s' := by
  have hself : s'.pc self = pc := by simp [hpc]
  have hother : s'.pc (other self) = s.pc (other self) := by simp [hpc]
  have hsum := h.counter self
  have hend := h.finished self
  constructor
  · have hph : s'.phase = Function.update s.phase self pc.phase := by
      unfold State.phase
      rw [hpc]
      exact State.phase_update
    rw [hph]
    exact hl
  · exact Locks.both self (by rwa [hself]) (by rwa [hother])
  · refine Locks.both self (by rwa [hself]) ?_
    rw [hother, hi]
    exact h.counts (other self)
  · have hmo : s'.made (other self) = s.made (other self) := by simp [State.made, hother, hi]
    have hms : s'.made self = s'.i self + pc.extra := by simp [State.made, hself]
    refine Locks.both self ?_ ?_
    · rw [hmo, hms]
      omega
    · rw [other_other, hmo, hms]
      omega
  · have hmo : s'.ended (other self) = s.ended (other self) := by simp [State.ended, hother]
    have hms : s'.ended self = pc.ended := by simp [State.ended, hself]
    refine Locks.both self ?_ ?_
    · rw [hmo, hms]
      omega
    · rw [other_other, hmo, hms]
      omega
  · refine Locks.both self ?_ ?_
    · rw [hself, hother]
      exact hb
    · rw [other_other, hself, hother]
      intro ho
      by_contra hne
      rw [hb (by simpa using hne)] at ho
      cases ho
  · rw [hout]
    exact h.output

theorem Ok.enter (h : Ok iterations s) (hp : (s.pc self).phase = .waiting)
    (hin : s.flag (other self) ≠ 1 ∨ s.turn ≠ other self) : Ok iterations (s.enter iterations self) := by
  have hl := h.locks.enter hp hin
  have hc := h.counts self
  obtain ⟨hx, he⟩ := At.waits hp
  have hle := hc.le
  have hmade : s.made self = s.i self := by simp [State.made, hx]
  have hend : s.ended self = 0 := by simp [State.ended, he]
  unfold State.enter
  split
  · rename_i hlt
    refine Ok.of_self self .load h rfl rfl hl trivial (h.holds _) hlt ?_ ?_ (fun e => by cases e) rfl
    · simp [State.goto, State.setPassed, hmade, At.extra]
    · simp [State.goto, State.setPassed, hend, At.ended]
  · rename_i hge
    have hn : s.i self = iterations := by omega
    refine Ok.of_self self .loadFinished h rfl rfl hl trivial (h.holds _) hn ?_ ?_ (fun e => by cases e) rfl
    · simp [State.goto, State.setPassed, hmade, At.extra]
    · simp [State.goto, State.setPassed, hend, At.ended]

theorem Ok.goto (h : Ok iterations s) (hp : pc.phase = (s.pc self).phase) (hh : pc.Holds s.counter s.finished)
    (hc : pc.Counts (s.i self) iterations) (he : pc.extra = (s.pc self).extra) (hf : pc.ended = (s.pc self).ended)
    (hb : pc.left = true → (s.pc (other self)).left = false) : Ok iterations (s.goto self pc) := by
  refine Ok.of_self self pc h rfl rfl ?_ hh (h.holds _) hc ?_ ?_ hb rfl
  · rw [hp]
    have hu : Function.update s.phase self (s.pc self).phase = s.phase := Function.update_eq_self self s.phase
    rw [hu]
    exact h.locks
  · simp [State.goto, State.made, he]
  · simp [State.goto, State.ended, hf]

theorem Ok.step (hn : 2 * iterations < 2 ^ 31) (h : Ok iterations s) (hs : s.step iterations self = some s') :
    Ok iterations s' := by
  have hh := h.holds self
  have hc := h.counts self
  have hsum := h.counter self
  have hend := h.finished self
  have hlocks := h.locks
  -- while `self` is inside, the other worker holds no value that a store could outdate
  have hother : (s.pc self).phase = .inside → ∀ m n, (s.pc (other self)).Holds m n := fun hi m n =>
    At.Holds.of_phase (hlocks.alone self hi)
  unfold State.step at hs
  split at hs
  · cases hs
  cases hpc : s.pc self with
  | raise =>
    simp only [hpc] at hs hc
    cases hs
    refine Ok.of_self self .give h rfl rfl hlocks.raise trivial (h.holds _) hc ?_ ?_ (fun e => by cases e) rfl
    · simp [State.goto, State.setFlag, State.made, hpc, At.extra]
    · simp [State.goto, State.setFlag, State.ended, hpc, At.ended]
  | give =>
    simp only [hpc] at hs hc
    cases hs
    have hp : s.phase self = .raised := by simp [State.phase, hpc, At.phase]
    have hl := hlocks.give hp
    refine Ok.of_self self .testFlag h rfl rfl hl trivial (h.holds _) hc ?_ ?_ (fun e => by cases e) rfl
    · simp [State.goto, State.setPassed, State.made, hpc, At.extra]
    · simp [State.goto, State.setPassed, State.ended, hpc, At.ended]
  | testFlag =>
    simp only [hpc] at hs hc
    cases hs
    split
    · exact h.goto (by rw [hpc]; rfl) trivial hc (by rw [hpc]; rfl) (by rw [hpc]; rfl) (fun e => by cases e)
    · rename_i hf
      exact h.enter (by rw [hpc]; rfl) (.inl hf)
  | testTurn =>
    simp only [hpc] at hs hc
    cases hs
    split
    · exact h.goto (by rw [hpc]; rfl) trivial hc (by rw [hpc]; rfl) (by rw [hpc]; rfl) (fun e => by cases e)
    · rename_i hf
      exact h.enter (by rw [hpc]; rfl) (.inr hf)
  | spin =>
    simp only [hpc] at hs hc
    cases hs
    exact h.goto (by rw [hpc]; rfl) trivial hc (by rw [hpc]; rfl) (by rw [hpc]; rfl) (fun e => by cases e)
  | load =>
    simp only [hpc] at hs hc
    cases hs
    split
    · exact h.goto (by rw [hpc]; rfl) rfl hc (by rw [hpc]; rfl) (by rw [hpc]; rfl) (fun e => by cases e)
    · exact h.goto (by rw [hpc]; rfl) rfl hc (by rw [hpc]; rfl) (by rw [hpc]; rfl) (fun e => by cases e)
  | pause temp =>
    simp only [hpc] at hs hc hh
    cases hs
    exact h.goto (by rw [hpc]; rfl) hh hc (by rw [hpc]; rfl) (by rw [hpc]; rfl) (fun e => by cases e)
  | store temp =>
    simp only [hpc] at hs hc hh
    cases hs
    have hin : (s.pc self).phase = .inside := by rw [hpc]; rfl
    have hl : Locks s.flag s.turn s.passed (Function.update s.phase self At.lower.phase) := by
      have hu : Function.update s.phase self .inside = s.phase := by rw [← hin]; exact Function.update_eq_self self s.phase
      rw [show At.lower.phase = .inside from rfl, hu]
      exact hlocks
    refine Ok.of_self self .lower h rfl rfl hl trivial (hother hin _ _) hc ?_ ?_ (fun e => by cases e) rfl
    · have htemp : temp = s.counter := hh
      have hle := (h.counts (other self)).le
      have hlt : s.i self < iterations := hc
      have hmade : s.made self = s.i self := by simp [State.made, hpc, At.extra]
      have hmo : s.made (other self) = (s.i (other self) + (s.pc (other self)).extra : Nat) := by simp [State.made]
      have hcint : cint (temp + 1) = temp + 1 := cint_of_range (by omega) (by omega)
      simp only [State.goto, hcint, hmade, At.extra]
      omega
    · simp [State.goto, State.ended, hpc, At.ended]
  | lower =>
    simp only [hpc] at hs hc
    cases hs
    refine Ok.of_self self .raise h rfl ?_ hlocks.lower trivial (h.holds _) ?_ ?_ ?_ (fun e => by cases e) rfl
    · simp [State.goto, State.setFlag]
    · have hlt : s.i self < iterations := hc
      simpa [State.goto, State.setFlag, At.Counts] using Nat.succ_le_of_lt hlt
    · simp [State.goto, State.setFlag, State.made, hpc, At.extra]
    · simp [State.goto, State.setFlag, State.ended, hpc, At.ended]
  | loadFinished =>
    simp only [hpc] at hs hc hh
    cases hs
    exact h.goto (by rw [hpc]; rfl) rfl hc (by rw [hpc]; rfl) (by rw [hpc]; rfl) (fun e => by cases e)
  | storeFinished finished =>
    simp only [hpc] at hs hc hh
    cases hs
    have hin : (s.pc self).phase = .inside := by rw [hpc]; rfl
    have hl : Locks s.flag s.turn s.passed (Function.update s.phase self At.testFinished.phase) := by
      have hu : Function.update s.phase self .inside = s.phase := by rw [← hin]; exact Function.update_eq_self self s.phase
      rw [show At.testFinished.phase = .inside from rfl, hu]
      exact hlocks
    refine Ok.of_self self .testFinished h rfl rfl hl trivial (hother hin _ _) hc ?_ ?_ (fun e => by cases e) rfl
    · simp [State.goto, State.made, hpc, At.extra]
    · have hf : finished = s.finished := hh
      simp only [State.goto, State.ended, hpc, At.ended, hf]
      omega
  | testFinished =>
    simp only [hpc] at hs hc hh
    cases hs
    split
    · rename_i h₂
      exact h.goto (by rw [hpc]; rfl) h₂ hc (by rw [hpc]; rfl) (by rw [hpc]; rfl) (fun e => by cases e)
    · rename_i h₂
      refine h.goto (by rw [hpc]; rfl) trivial hc (by rw [hpc]; rfl) (by rw [hpc]; rfl) fun _ => ?_
      have hself : s.ended self = 1 := by simp [State.ended, hpc, At.ended]
      have hother : s.ended (other self) = ((s.pc (other self)).ended : Int) := rfl
      by_contra hl
      have hone := At.left_ended (by simpa using hl)
      omega
  | report =>
    simp only [hpc] at hs hc hh
    cases hs
    refine ⟨h.locks, h.holds, h.counts, h.counter, h.finished, h.last, ?_⟩
    intro n he
    cases he
    -- both workers are behind their increment of `finished`, and so behind the loop
    have htwo : s.finished = 2 := hh
    have hself : s.ended self = 1 := by simp [State.ended, hpc, At.ended]
    have hne : (s.pc (other self)).ended = 1 := by
      have he : s.ended (other self) = ((s.pc (other self)).ended : Int) := rfl
      omega
    obtain ⟨h₁, h₂⟩ := (h.counts (other self)).ended hne
    have h₃ : s.i self = iterations := hc
    have hs : s.made self = s.i self := by simp [State.made, hpc, At.extra]
    have ho : s.made (other self) = s.i (other self) := by simp [State.made, h₂]
    rw [hsum, hs, ho, h₁, h₃]
    omega
  | leave =>
    simp only [hpc] at hs hc
    cases hs
    have hlast := h.last self (by rw [hpc]; rfl)
    refine Ok.of_self self .done h rfl rfl hlocks.lower trivial (h.holds _) hc ?_ ?_ (fun _ => hlast) rfl
    · simp [State.goto, State.setFlag, State.made, hpc, At.extra]
    · simp [State.goto, State.setFlag, State.ended, hpc, At.ended]
  | done =>
    simp only [hpc] at hs
    cases hs
/-! ## Runs -/

theorem Run.ok (hn : 2 * iterations < 2 ^ 31) (h : Run iterations s) : Ok iterations s := by
  apply Trans.Reach.inv _ _ h
  · intro s hs
    subst hs
    exact Ok.start
  · intro s a s' ih _ hs
    exact ih.step hn hs

/-! ## The output comes within reach -/

def At.rank : At → Nat
  | .raise => 8
  | .give => 7
  | .testFlag | .testTurn | .spin => 6
  | .load | .loadFinished => 5
  | .pause _ | .storeFinished _ => 4
  | .store _ | .testFinished => 3
  | .lower | .report | .leave => 2
  | .done => 0

def State.work (iterations : Nat) (s : State) (w : Worker) : Nat := (iterations - s.i w) * 10 + (s.pc w).rank

structure Nearer (iterations : Nat) (w : Worker) (s s' : State) : Prop where
  mine : s'.work iterations w < s.work iterations w
  theirs : s'.work iterations (other w) = s.work iterations (other w)
  output : s'.output = s.output

theorem Nearer.of (hpc : s'.pc = Function.update s.pc self pc) (hi : s'.i = s.i) (hr : pc.rank < (s.pc self).rank)
    (ho : s'.output = s.output) : Nearer iterations self s s' where
  mine := by simpa [State.work, hpc, hi] using hr
  theirs := by simp [State.work, hpc, hi]
  output := ho

theorem Nearer.enter (hp : (s.pc self).phase = .waiting) : Nearer iterations self s (s.enter iterations self) := by
  have hr : (s.pc self).rank = 6 := by cases hpc : s.pc self <;> simp [hpc, At.phase, At.rank] at hp ⊢
  refine Nearer.of rfl rfl ?_ rfl
  rw [hr]
  split <;> decide

theorem Ok.forward (h : Ok iterations s) (ho : s.output = none) (hw : (s.pc self).phase ≠ .waiting) (hd : s.pc self ≠ .done) :
    ∃ s', s.step iterations self = some s' ∧ (s'.output ≠ none ∨ Nearer iterations self s s') := by
  have hc := h.counts self
  have hrun : ¬ s.output.isSome = true := by simp [ho]
  have hrank : ∀ {p q : At}, s.pc self = p → q.rank < p.rank → q.rank < (s.pc self).rank := fun he hlt => he ▸ hlt
  unfold State.step
  rw [if_neg hrun]
  cases hpc : s.pc self with
  | testFlag | testTurn | spin => simp [hpc, At.phase] at hw
  | done => exact absurd hpc hd
  | report => exact ⟨_, rfl, .inl (by simp)⟩
  | lower =>
    rw [hpc] at hc
    have hlt : s.i self < iterations := hc
    refine ⟨_, rfl, .inr ⟨?_, ?_, rfl⟩⟩
    · simp only [State.work, State.goto, State.setFlag, hpc, At.rank, Function.update_self]
      omega
    · simp [State.work, State.goto, State.setFlag]
  | load | testFinished =>
    refine ⟨_, rfl, .inr (Nearer.of rfl rfl (hrank hpc ?_) rfl)⟩
    split <;> simp [At.rank]
  | raise | give | store | storeFinished | leave | pause | loadFinished =>
    exact ⟨_, rfl, .inr (Nearer.of rfl rfl (hrank hpc (by simp [At.rank])) rfl)⟩

theorem State.enter_goto : (s.goto self pc).enter iterations self = s.enter iterations self := by
  simp only [State.enter, State.goto, State.setPassed, Function.update_idem]
  rfl

theorem enters (ho : s.output = none) (hp : (s.pc self).phase = .waiting) (hin : s.flag (other self) ≠ 1 ∨ s.turn ≠ other self) :
    ∃ n, Trans.exec (State.step iterations) s (List.replicate n self) = some (s.enter iterations self) := by
  -- from the test of the flag one or two steps are enough
  have htest : ∀ s : State, s.output = none → s.pc self = .testFlag → (s.flag (other self) ≠ 1 ∨ s.turn ≠ other self) →
      ∃ n, Trans.exec (State.step iterations) s (List.replicate n self) = some (s.enter iterations self) := by
    intro s ho hpc hin
    by_cases hf : s.flag (other self) = 1
    · have ht : s.turn ≠ other self := hin.resolve_left (not_not_intro hf)
      refine ⟨2, ?_⟩
      have h₁ : s.step iterations self = some (s.goto self .testTurn) := by simp [State.step, ho, hpc, hf]
      have h₂ : (s.goto self .testTurn).step iterations self = some (s.enter iterations self) := by
        have he : (s.goto self .testTurn).enter iterations self = s.enter iterations self := State.enter_goto
        rw [← he]
        simp [State.step, State.goto, ho, ht]
      simp [List.replicate, Trans.exec, h₁, h₂]
    · refine ⟨1, ?_⟩
      simp [List.replicate, Trans.exec, State.step, ho, hpc, hf]
  have hspin : ∀ s : State, s.output = none → s.pc self = .spin → (s.flag (other self) ≠ 1 ∨ s.turn ≠ other self) →
      ∃ n, Trans.exec (State.step iterations) s (List.replicate n self) = some (s.enter iterations self) := by
    intro s ho hpc hin
    obtain ⟨n, hn⟩ := htest (s.goto self .testFlag) ho (by simp [State.goto]) hin
    refine ⟨n + 1, ?_⟩
    rw [State.enter_goto] at hn
    simp only [List.replicate_succ, Trans.exec, State.step, ho, Option.isSome_none, Bool.false_eq_true, if_false, hpc, Option.bind_some]
    exact hn
  cases hpc : s.pc self with
  | testFlag => exact htest s ho hpc hin
  | spin => exact hspin s ho hpc hin
  | testTurn =>
    by_cases ht : s.turn = other self
    · obtain ⟨n, hn⟩ := hspin (s.goto self .spin) ho (by simp [State.goto]) hin
      refine ⟨n + 1, ?_⟩
      rw [State.enter_goto] at hn
      simp only [List.replicate_succ, Trans.exec, State.step, ho, Option.isSome_none, Bool.false_eq_true, if_false, hpc, Option.bind_some, ht, if_true]
      exact hn
    · refine ⟨1, ?_⟩
      simp [List.replicate, Trans.exec, State.step, ho, hpc, ht]
  | _ => simp [hpc, At.phase] at hp

/-- Some worker can come forward, alone. -/
theorem Ok.advance (h : Ok iterations s) (ho : s.output = none) : ∃ self ws s',
    Trans.exec (State.step iterations) s ws = some s' ∧ (s'.output ≠ none ∨ Nearer iterations self s s') := by
  by_cases hf : ∃ w, (s.pc w).phase ≠ .waiting ∧ s.pc w ≠ .done
  · obtain ⟨w, hw, hd⟩ := hf
    obtain ⟨s', hs, hn⟩ := h.forward ho hw hd
    exact ⟨w, [w], s', by simp [Trans.exec, hs], hn⟩
  · -- every worker waits or has ended; one of them is not kept out
    have hall : ∀ w, (s.pc w).phase = .waiting ∨ s.pc w = .done := by
      intro w
      by_cases hw : (s.pc w).phase = .waiting
      · exact .inl hw
      · by_cases hd : s.pc w = .done
        · exact .inr hd
        · exact absurd ⟨w, hw, hd⟩ hf
    have hfree : ∃ self, (s.pc self).phase = .waiting ∧ (s.flag (other self) ≠ 1 ∨ s.turn ≠ other self) := by
      rcases hall s.turn with ht | hd
      · exact ⟨s.turn, ht, .inr (other_ne s.turn).symm⟩
      · rcases hall (other s.turn) with hw | hd'
        · refine ⟨other s.turn, hw, .inl ?_⟩
          rw [other_other, ne_eq, h.locks.flag]
          simp [State.phase, hd, At.phase]
        · have hl := h.last s.turn (by rw [hd]; rfl)
          rw [hd'] at hl
          cases hl
    obtain ⟨self, hw, hin⟩ := hfree
    obtain ⟨n, hn⟩ := enters ho hw hin
    exact ⟨self, _, _, hn, .inr (Nearer.enter hw)⟩

theorem Run.finishes (hn : 2 * iterations < 2 ^ 31) {k : Nat} (h : Run iterations s)
    (hk : s.work iterations 0 + s.work iterations 1 ≤ k) :
    ∃ ws s', Trans.exec (State.step iterations) s ws = some s' ∧ s'.output ≠ none := by
  induction k using Nat.strongRecOn generalizing s with
  | ind k ih =>
    by_cases ho : s.output = none
    · obtain ⟨self, ws, s', hx, hs⟩ := (h.ok hn).advance ho
      rcases hs with hs | hs
      · exact ⟨ws, s', hx, hs⟩
      · have hmine := hs.mine
        have htheirs := hs.theirs
        have hless : s'.work iterations 0 + s'.work iterations 1 < s.work iterations 0 + s.work iterations 1 := by
          rcases eq_or_other 0 self with rfl | rfl
          · have h₁ : other 0 = 1 := rfl
            rw [h₁] at htheirs
            omega
          · have h₁ : other 0 = 1 := rfl
            rw [other_other] at htheirs
            rw [h₁] at hmine
            omega
        obtain ⟨ws', s'', hx', hs''⟩ := ih _ (Nat.lt_of_lt_of_le hless hk) (h.exec (fun _ _ => trivial) hx) (Nat.le_refl _)
        refine ⟨ws ++ ws', s'', ?_, hs''⟩
        rw [Trans.exec_append, hx]
        exact hx'
    · exact ⟨[], s, rfl, ho⟩

/-- Mutual exclusion, no second overtaking, only the expected output, and that output within reach. -/
theorem petersons_pass (hn : 2 * iterations < 2 ^ 31) (h : Run iterations s) :
    (∀ w, s.phase w = .inside → s.phase (other w) ≠ .inside) ∧ (∀ w, s.phase w = .waiting → s.passed w ≤ 1) ∧
      (∀ n, s.output = some n → n = 2 * iterations) ∧
      ∃ ws s', Trans.exec (State.step iterations) s ws = some s' ∧ s'.output = some (2 * (iterations : Int)) := by
  have hok := h.ok hn
  refine ⟨hok.locks.alone, fun w hw => (hok.locks.passed w hw).1, hok.output, ?_⟩
  obtain ⟨ws, s', hx, hs⟩ := h.finishes hn (Nat.le_refl _)
  obtain ⟨n, he⟩ := Option.ne_none_iff_exists'.mp hs
  have hr : Run iterations s' := h.exec (fun _ _ => trivial) hx
  refine ⟨ws, s', hx, ?_⟩
  rw [he, (hr.ok hn).output n he]

def contest : Option State := Trans.exec (State.step 500000) start [0, 0, 0, 0, 1, 1, 1, 1]

/-- `ITERATIONS` is 500000. -/
theorem petersons_pass_contest : ∃ s, contest = some s ∧ s.phase 0 = .inside ∧ s.phase 1 = .waiting ∧ s.passed 1 ≤ 1 ∧
    ∃ ws s', Trans.exec (State.step 500000) s ws = some s' ∧ s'.output = some (2 * ((500000 : Nat) : Int)) := by
  obtain ⟨s, hs⟩ := Option.isSome_iff_exists.mp (by decide : contest.isSome)
  have hr : Run 500000 s := Trans.Reach.exec (.init rfl) (fun _ _ => trivial) hs
  have hp : contest.map (fun s => (s.phase 0, s.phase 1)) = some (.inside, .waiting) := by decide
  rw [hs, Option.map_some, Option.some.injEq, Prod.mk.injEq] at hp
  obtain ⟨-, h₂, -, h₄⟩ := petersons_pass (by decide) hr
  exact ⟨s, hs, hp.1, hp.2, h₂ 1 hp.2, h₄⟩

end

end Petersons

end Uthread
