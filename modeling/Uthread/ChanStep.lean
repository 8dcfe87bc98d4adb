import Uthread.Sync

/-!
# What a transition does to a channel

Where a thread is inside `uthread_channel_send`/`_recv`, which of the ten
operations on a channel a transition performs, and what happens to the data.
-/

namespace Uthread

/-! ## Positions -/

inductive Pos
  | send (pc : ChanPc) | recv (pc : ChanPc)
  deriving DecidableEq

def Frame.pos? (c : Nat) : Frame → Option Pos
  | .chanSend c' _ pc => if c' = c then some (.send pc) else none
  | .chanRecv c' _ pc => if c' = c then some (.recv pc) else none
  | _ => none

def posOf (c : Nat) (fs : List Frame) : Option Pos := fs.findSome? (Frame.pos? c)

inductive ChanOp
  | waitSpace | waitMessages | lock | unlock | postSpace | postMessages | store | tail | load | head
  deriving DecidableEq

def SyncOp.on? (c : Nat) : SyncOp → Option ChanOp
  | .wait (.space c') => if c' = c then some .waitSpace else none
  | .wait (.messages c') => if c' = c then some .waitMessages else none
  | .lock (.chan c') => if c' = c then some .lock else none
  | .unlock (.chan c') => if c' = c then some .unlock else none
  | .post (.space c') => if c' = c then some .postSpace else none
  | .post (.messages c') => if c' = c then some .postMessages else none
  | _ => none

/-- The moves of a thread on a channel and the operations they perform. -/
inductive Turn : Option Pos → Option ChanOp → Option Pos → Prop
  | stay {p} : Turn p none p
  | callSend : Turn none none (some (.send .wait))
  | sendWait : Turn (some (.send .wait)) (some .waitSpace) (some (.send .lock))
  | sendLock : Turn (some (.send .lock)) (some .lock) (some (.send .access))
  | store : Turn (some (.send .access)) (some .store) (some (.send .advance))
  | tail : Turn (some (.send .advance)) (some .tail) (some (.send .unlock))
  | sendUnlock : Turn (some (.send .unlock)) (some .unlock) (some (.send .post))
  | sendPost : Turn (some (.send .post)) (some .postMessages) none
  | callRecv : Turn none none (some (.recv .wait))
  | recvWait : Turn (some (.recv .wait)) (some .waitMessages) (some (.recv .lock))
  | recvLock : Turn (some (.recv .lock)) (some .lock) (some (.recv .access))
  | load : Turn (some (.recv .access)) (some .load) (some (.recv .advance))
  | head : Turn (some (.recv .advance)) (some .head) (some (.recv .unlock))
  | recvUnlock : Turn (some (.recv .unlock)) (some .unlock) (some (.recv .post))
  | recvPost : Turn (some (.recv .post)) (some .postSpace) none

section
variable {c : Nat} {f : Frame} {fs fs' : List Frame}

theorem posOf_cons : posOf c (f :: fs) = (f.pos? c).or (posOf c fs) := by
  unfold posOf
  rw [List.findSome?_cons]
  cases f.pos? c <;> rfl

theorem posOf_skip (h : f.chan? = none) : posOf c (f :: fs) = posOf c fs := by
  rw [posOf_cons]
  cases f <;> first | rfl | cases h

theorem posOf_below (hs : Seated (f :: fs)) (hf : f.level = .direct) : posOf c fs = none := by
  rcases hs.on_user hf with rfl | rfl <;> rfl

theorem Site.turn {op : SyncOp} (h : Site op fs fs') (hs : Seated fs) : Turn (posOf c fs) (op.on? c) (posOf c fs') := by
  cases h with
  | lock | unlock | wait | post => exact .stay
  | @sendWait c' v fs | @sendLock c' v fs | @sendUnlock c' v fs | @recvWait c' v fs | @recvLock c' v fs
  | @recvUnlock c' v fs =>
    have hbelow : posOf c fs = none := posOf_below hs rfl
    by_cases hc : c' = c
    · simp only [posOf_cons, hbelow, Frame.pos?, SyncOp.on?, if_pos hc, Option.or_none]
      constructor
    · simp only [posOf_cons, hbelow, Frame.pos?, SyncOp.on?, if_neg hc, Option.or_none]
      exact .stay
  | @sendPost c' v | @recvPost c' v =>
    have hbelow : posOf c fs' = none := posOf_below hs rfl
    by_cases hc : c' = c
    · simp only [posOf_cons, hbelow, Frame.pos?, SyncOp.on?, if_pos hc, Option.or_none]
      constructor
    · simp only [posOf_cons, hbelow, Frame.pos?, SyncOp.on?, if_neg hc, Option.or_none]
      exact .stay

theorem FrameMove.turn {k : Core} (h : FrameMove k fs fs') (hs : Seated fs) :
    Turn (posOf c fs) none (posOf c fs') := by
  cases h with
  | @callSend id v fs | @callRecv id fs =>
    have hnone : posOf c (.user :: fs) = none := by rw [hs.bottom rfl]; rfl
    rw [hnone, posOf_cons, hnone, Option.or_none]
    by_cases hc : id = c
    · simp only [Frame.pos?, if_pos hc]; constructor
    · simp only [Frame.pos?, if_neg hc]; exact .stay
  | _ => exact .stay

end

/-! ## Operations in the log -/

def WaitObj.giveBack : WaitObj → SyncOp
  | .mutex m => .unlock m
  | .sem sm => .post sm

def ChanOp.logged : ChanOp → Bool
  | .tail => false
  | .head => false
  | _ => true

def ChanOp.data : ChanOp → Bool
  | .store => true
  | .tail => true
  | .load => true
  | .head => true
  | _ => false

namespace Event

def posted? (w : WaitObj) : Event → Option Ptr
  | .handoff w' u _ => if w' = w then some u else none
  | .release w' u => if w' = w then some u else none
  | _ => none

def sent? (c : Nat) : Event → Option (Ptr × Msg)
  | .store c' t _ msg => if c' = c then some (t, msg) else none
  | _ => none

def received? (c : Nat) : Event → Option (Ptr × Msg)
  | .load c' t _ msg => if c' = c then some (t, msg) else none
  | _ => none

def accesses (c : Nat) : Event → Bool
  | .store c' _ _ _ => c' = c
  | .load c' _ _ _ => c' = c
  | .modulo c' _ => c' = c
  | _ => false

def chanOp? (c : Nat) : Event → Option (ChanOp × Ptr)
  | .arrive w t => (w.acquire.on? c).map (·, t)
  | .handoff w u _ => (w.giveBack.on? c).map (·, u)
  | .release w u => (w.giveBack.on? c).map (·, u)
  | .store c' t _ _ => if c' = c then some (.store, t) else none
  | .load c' t _ _ => if c' = c then some (.load, t) else none
  | _ => none

end Event

/-- The operations on the channel `c`, last first. -/
def ops (c : Nat) (l : List Event) : List (ChanOp × Ptr) := l.filterMap (Event.chanOp? c)

def posters (w : WaitObj) (l : List Event) : List Ptr := l.filterMap (Event.posted? w)

def sent (c : Nat) (l : List Event) : List (Ptr × Msg) := (l.filterMap (Event.sent? c)).reverse

def received (c : Nat) (l : List Event) : List (Ptr × Msg) := (l.filterMap (Event.received? c)).reverse

def ChanOp.call? (c : Nat) : ChanOp → Option SyncOp
  | .waitSpace => some (.wait (.space c))
  | .waitMessages => some (.wait (.messages c))
  | .lock => some (.lock (.chan c))
  | .unlock => some (.unlock (.chan c))
  | .postSpace => some (.post (.space c))
  | .postMessages => some (.post (.messages c))
  | _ => none

section
variable {c : Nat} {k : ChanOp} {t : Ptr} {w w' : WaitObj} {e : Event} {es l : List Event} {op op' : SyncOp}

theorem SyncOp.on?_iff : op.on? c = some k ↔ k.call? c = some op := by
  cases op with
  | lock m | unlock m => cases m <;> cases k <;> simp [SyncOp.on?, ChanOp.call?, eq_comm]
  | wait sm | post sm => cases sm <;> cases k <;> simp [SyncOp.on?, ChanOp.call?, eq_comm]

theorem SyncOp.on?_inj (h : op.on? c = some k) (h' : op'.on? c = some k) : op = op' :=
  Option.some.inj ((SyncOp.on?_iff.mp h).symm.trans (SyncOp.on?_iff.mp h'))

theorem WaitObj.acquire_inj (h : w.acquire = w'.acquire) : w = w' := by
  cases w <;> cases w' <;> cases h <;> rfl

theorem WaitObj.giveBack_inj (h : w.giveBack = w'.giveBack) : w = w' := by
  cases w <;> cases w' <;> cases h <;> rfl

theorem WaitObj.acquire_ne_giveBack : w.acquire ≠ w'.giveBack := by
  cases w <;> cases w' <;> simp [WaitObj.acquire, WaitObj.giveBack]

theorem SyncOp.not_data (h : op.on? c = some k) : k.data = false := by
  have h := SyncOp.on?_iff.mp h
  cases k <;> first | rfl | cases h

theorem arrived?_iff (hw : w.acquire.on? c = some k) : e.arrived? w = some t ↔ e.chanOp? c = some (k, t) := by
  cases e with
  | arrive w' u =>
    simp only [Event.arrived?, Event.chanOp?, Option.map_eq_some_iff, Prod.mk.injEq]
    constructor
    · intro h
      split at h
      · next he => subst he; exact ⟨k, hw, rfl, Option.some.inj h⟩
      · cases h
    · intro h
      obtain ⟨k', hk, rfl, rfl⟩ := h
      rw [if_pos (WaitObj.acquire_inj (SyncOp.on?_inj hk hw))]
  | handoff w' u v | release w' u =>
    simp only [Event.arrived?, Event.chanOp?, Option.map_eq_some_iff, Prod.mk.injEq]
    constructor
    · intro h
      obtain ⟨⟩ := h
    · intro h
      obtain ⟨k', hk, rfl, rfl⟩ := h
      exact absurd (SyncOp.on?_inj hw hk) WaitObj.acquire_ne_giveBack
  | store c' u i m | load c' u i m =>
    have hk := SyncOp.not_data hw
    simp only [Event.arrived?, Event.chanOp?, Option.ite_none_right_eq_some, Option.some.injEq, Prod.mk.injEq]
    constructor
    · intro h
      obtain ⟨⟩ := h
    · rintro ⟨-, rfl, -⟩; cases hk
  | _ => simp [Event.arrived?, Event.chanOp?]

theorem posted?_iff (hw : w.giveBack.on? c = some k) : e.posted? w = some t ↔ e.chanOp? c = some (k, t) := by
  cases e with
  | arrive w' u =>
    simp only [Event.posted?, Event.chanOp?, Option.map_eq_some_iff, Prod.mk.injEq]
    constructor
    · intro h
      obtain ⟨⟩ := h
    · intro h
      obtain ⟨k', hk, rfl, rfl⟩ := h
      exact absurd (SyncOp.on?_inj hk hw) WaitObj.acquire_ne_giveBack
  | handoff w' u v | release w' u =>
    simp only [Event.posted?, Event.chanOp?, Option.map_eq_some_iff, Prod.mk.injEq]
    constructor
    · intro h
      split at h
      · next he => subst he; exact ⟨k, hw, rfl, Option.some.inj h⟩
      · cases h
    · intro h
      obtain ⟨k', hk, rfl, rfl⟩ := h
      rw [if_pos (WaitObj.giveBack_inj (SyncOp.on?_inj hk hw))]
  | store c' u i m | load c' u i m =>
    have hk := SyncOp.not_data hw
    simp only [Event.posted?, Event.chanOp?, Option.ite_none_right_eq_some, Option.some.injEq, Prod.mk.injEq]
    constructor
    · intro h
      obtain ⟨⟩ := h
    · rintro ⟨-, rfl, -⟩; cases hk
  | _ => simp [Event.posted?, Event.chanOp?]

theorem sent?_iff : (e.sent? c).map Prod.fst = some t ↔ e.chanOp? c = some (.store, t) := by
  cases e with
  | arrive w u | handoff w u v | release w u =>
    simp only [Event.sent?, Event.chanOp?, Option.map_eq_some_iff, Prod.mk.injEq, Option.map_none]
    constructor
    · intro h
      obtain ⟨⟩ := h
    · rintro ⟨k', hk, rfl, -⟩; cases SyncOp.not_data hk
  | store c' u i m => by_cases hc : c' = c <;> simp [Event.sent?, Event.chanOp?, hc]
  | load c' u i m => simp [Event.sent?, Event.chanOp?]
  | _ => simp [Event.sent?, Event.chanOp?]

theorem received?_iff : (e.received? c).map Prod.fst = some t ↔ e.chanOp? c = some (.load, t) := by
  cases e with
  | arrive w u | handoff w u v | release w u =>
    simp only [Event.received?, Event.chanOp?, Option.map_eq_some_iff, Prod.mk.injEq, Option.map_none]
    constructor
    · intro h
      obtain ⟨⟩ := h
    · rintro ⟨k', hk, rfl, -⟩; cases SyncOp.not_data hk
  | load c' u i m => by_cases hc : c' = c <;> simp [Event.received?, Event.chanOp?, hc]
  | store c' u i m => simp [Event.received?, Event.chanOp?]
  | _ => simp [Event.received?, Event.chanOp?]

theorem count_arrivals (hw : w.acquire.on? c = some k) : (arrivals w l).count t = (ops c l).count (k, t) := by
  unfold arrivals ops
  rw [List.count_reverse, List.count_filterMap, List.count_filterMap]
  refine List.countP_congr fun e _ => ?_
  simp only [beq_iff_eq]
  exact arrived?_iff hw

theorem count_posters (hw : w.giveBack.on? c = some k) : (posters w l).count t = (ops c l).count (k, t) := by
  unfold posters ops
  rw [List.count_filterMap, List.count_filterMap]
  refine List.countP_congr fun e _ => ?_
  simp only [beq_iff_eq]
  exact posted?_iff hw

theorem count_sent : ((sent c l).map Prod.fst).count t = (ops c l).count (.store, t) := by
  unfold sent ops
  rw [List.map_reverse, List.count_reverse, List.map_filterMap, List.count_filterMap, List.count_filterMap]
  refine List.countP_congr fun e _ => ?_
  simp only [beq_iff_eq]
  exact sent?_iff

theorem count_received : ((received c l).map Prod.fst).count t = (ops c l).count (.load, t) := by
  unfold received ops
  rw [List.map_reverse, List.count_reverse, List.map_filterMap, List.count_filterMap, List.count_filterMap]
  refine List.countP_congr fun e _ => ?_
  simp only [beq_iff_eq]
  exact received?_iff

theorem length_posters : (posters w l).length = returned w l := by
  unfold posters returned
  rw [List.length_filterMap_eq_countP]
  refine List.countP_congr fun e _ => ?_
  cases e <;> simp [Event.posted?, Event.returns]

end

/-! ## Transitions -/

/-- What the running thread does on the channel `c` from `a` to `b`. -/
structure Moves (c : Nat) (k : Option ChanOp) (a b : Abs) : Prop where
  did : ops c b.log = (k.filter ChanOp.logged).toList.map (·, a.currentThread) ++ ops c a.log
  turn : Turn (posOf c (a.framesOf a.currentThread)) k (posOf c (b.framesOf a.currentThread))
  other : ∀ t, t ≠ a.currentThread → posOf c (b.framesOf t) = posOf c (a.framesOf t)
  running : k ≠ none → a.tcb.state a.currentThread = .running
  brk : a.brk ≤ b.brk

inductive Effect (c : Nat) (a b : Abs) : Option ChanOp → Prop
  | keep {k} : (∀ k', k = some k' → k'.data = false) → b.chan c = a.chan c →
      (∃ es, b.log = es ++ a.log ∧ ∀ e ∈ es, e.accesses c = false) → Effect c a b k
  | init {ch} : a.chan c = none → b = a.chanInit c ch → ch.head = 0 → ch.tail = 0 →
      ch.capacity ≤ uthreadChannelMaxCapacity → cint ch.capacity = ch.capacity → Effect c a b none
  | store {ch msg} : a.chan c = some ch → b.chan c = some { ch with buffer := Function.update ch.buffer ch.tail msg } →
      b.log = .store c a.currentThread ch.tail msg :: a.log → Effect c a b (some .store)
  | tail {ch} : a.chan c = some ch → b.chan c = some { ch with tail := (ch.tail + 1).tmod ch.capacity } →
      b.log = .modulo c ch.capacity :: a.log → Effect c a b (some .tail)
  | load {ch} : a.chan c = some ch → b.chan c = some ch →
      b.log = .load c a.currentThread ch.head (ch.buffer ch.head) :: a.log → Effect c a b (some .load)
  | head {ch} : a.chan c = some ch → b.chan c = some { ch with head := (ch.head + 1).tmod ch.capacity } →
      b.log = .modulo c ch.capacity :: a.log → Effect c a b (some .head)

/-- What the transition from `a` to `b` does to the channel `c`. -/
def ChanStep (c : Nat) (a b : Abs) : Prop := ∃ k, Moves c k a b ∧ Effect c a b k

def Event.aside (c : Nat) (e : Event) : Prop := e.chanOp? c = none ∧ e.accesses c = false

section
variable {c : Nat} {a b : Abs} {fs : List Frame} {es : List Event} {w : WaitObj} {t : Ptr}

theorem ops_append {l : List Event} : ops c (es ++ l) = ops c es ++ ops c l := List.filterMap_append ..

theorem ops_aside {l : List Event} (h : ∀ e ∈ es, e.aside c) : ops c (es ++ l) = ops c l := by
  rw [ops_append, show ops c es = [] from List.filterMap_eq_nil_iff.mpr fun e he => (h e he).1, List.nil_append]

theorem ChanStep.other (hlog : ∃ es, b.log = es ++ a.log ∧ ∀ e ∈ es, e.aside c)
    (hpos : ∀ t, posOf c (b.framesOf t) = posOf c (a.framesOf t)) (hchan : b.chan c = a.chan c) (hbrk : a.brk ≤ b.brk) :
    ChanStep c a b := by
  obtain ⟨es, hlog, hes⟩ := hlog
  refine ⟨none, ⟨?_, ?_, fun t _ => hpos t, fun h => absurd rfl h, hbrk⟩, ?_⟩
  · rw [hlog, ops_aside hes]; rfl
  · rw [hpos]; exact .stay
  · exact .keep (by simp) hchan ⟨es, hlog, fun e he => (hes e he).2⟩

theorem posOf_setFrames (h : posOf c fs = posOf c a.run.frames) (t : Ptr) :
    posOf c ((a.on (.setFrames fs)).framesOf t) = posOf c (a.framesOf t) := by
  by_cases ht : t = a.currentThread
  · subst ht
    rw [framesOf_cur, show (a.on (.setFrames fs)).framesOf a.currentThread = fs from if_pos rfl, h]
  · rw [show (a.on (.setFrames fs)).framesOf t = a.framesOf t from framesOf_setFrames_ne ht]

theorem ChanStep.of_turn {k : Option ChanOp} (es : List Event) (fs : List Frame) (hfr : ∀ t, t ≠ a.currentThread → b.framesOf t = a.framesOf t)
    (hself : posOf c (b.framesOf a.currentThread) = posOf c fs)
    (hturn : Turn (posOf c a.run.frames) k (posOf c fs)) (hrun : k ≠ none → a.tcb.state a.currentThread = .running)
    (hbrk : a.brk ≤ b.brk) (hlog : b.log = es ++ a.log)
    (hops : ops c es = (k.filter ChanOp.logged).toList.map (·, a.currentThread)) (heff : Effect c a b k) :
    ChanStep c a b := by
  refine ⟨k, ⟨?_, ?_, fun t ht => by rw [hfr t ht], hrun, hbrk⟩, heff⟩
  · rw [hlog, ops_append, hops]
  · rw [framesOf_cur, hself]; exact hturn

theorem Site.chanStep {op : SyncOp} (es : List Event) (h : Inv a) (hr : a.tcb.state a.currentThread = .running)
    (hs : Site op a.run.frames fs) (hfr : ∀ t, t ≠ a.currentThread → b.framesOf t = a.framesOf t)
    (hself : posOf c (b.framesOf a.currentThread) = posOf c fs) (hbrk : b.brk = a.brk) (hchan : b.chan c = a.chan c)
    (hlog : b.log = es ++ a.log) (hops : ops c es = (op.on? c).toList.map (·, a.currentThread))
    (hacc : ∀ e ∈ es, e.accesses c = false) : ChanStep c a b := by
  have hdata : ∀ k, op.on? c = some k → k.data = false := fun k hk => SyncOp.not_data hk
  have hfilter : (op.on? c).filter ChanOp.logged = op.on? c := by
    cases hk : op.on? c with
    | none => rfl
    | some k =>
      have := hdata k hk
      cases k <;> first | rfl | cases this
  refine .of_turn es fs hfr hself (hs.turn h.seated_run) (fun _ => hr) hbrk.ge hlog (by rw [hfilter]; exact hops) ?_
  exact .keep hdata hchan ⟨es, hlog, hacc⟩

theorem ops_arrive : ops c [.arrive w t] = (w.acquire.on? c).toList.map (·, t) := by
  unfold ops
  cases h : w.acquire.on? c <;> simp [Event.chanOp?, h]

theorem ops_take : ops c [.take w t, .arrive w t] = (w.acquire.on? c).toList.map (·, t) := by
  rw [← ops_arrive]; rfl

theorem ops_release : ops c [.release w t] = (w.giveBack.on? c).toList.map (·, t) := by
  unfold ops
  cases h : w.giveBack.on? c <;> simp [Event.chanOp?, h]

theorem ops_handoff {u : Ptr} : ops c [.handoff w t u, .enq u] = (w.giveBack.on? c).toList.map (·, t) := by
  unfold ops
  cases h : w.giveBack.on? c <;> simp [Event.chanOp?, h]

theorem ops_store {i : Int} {msg : Msg} : ops c [.store c t i msg] = [(.store, t)] := by
  simp [ops, Event.chanOp?]

theorem ops_load {i : Int} {msg : Msg} : ops c [.load c t i msg] = [(.load, t)] := by
  simp [ops, Event.chanOp?]

theorem Prim.chanStep (h : Inv a) (hfresh : posOf c (a.framesOf a.brk) = none) (hp : Prim a b) : ChanStep c a b := by
  have one : ∀ {l : List Event} (e : Event), e.aside c → ∃ es, e :: l = es ++ l ∧ ∀ e ∈ es, e.aside c :=
    fun e he => ⟨[e], rfl, by simpa using he⟩
  have nolog : ∀ {l : List Event}, ∃ es, l = es ++ l ∧ ∀ e ∈ es, e.aside c := ⟨[], rfl, by simp⟩
  cases hp with
  | quiet hq => cases hq <;> exact .other nolog (fun _ => rfl) rfl le_rfl
  | tick =>
    have hpos : posOf c (.yieldEntry :: .alrmHandler :: a.run.frames) = posOf c a.run.frames := rfl
    exact .other (one _ ⟨rfl, rfl⟩) (posOf_setFrames hpos) rfl le_rfl
  | leave hr hf | sleepRet hr hf | ioRet hr hf | createRet hr hf =>
    exact .other (one _ ⟨rfl, rfl⟩) (fun t => posOf_setFrames (by rw [hf]; rfl) t) rfl le_rfl
  | traceOn | avail | errno => exact .other (one _ ⟨rfl, rfl⟩) (fun _ => rfl) rfl le_rfl
  | @move fs hm hc =>
    exact .of_turn [] fs (fun t ht => framesOf_setFrames_ne ht) (congrArg _ (if_pos rfl)) (hm.turn h.seated_run) (by simp)
      le_rfl rfl rfl (.keep (by simp) rfl ⟨[], rfl, by simp⟩)
  | @reap t =>
    have hlog : ∃ es, (a.reap t).log = es ++ a.log ∧ ∀ e ∈ es, e.aside c :=
      reap_log a t (fun _ _ => ⟨rfl, rfl⟩) fun _ => ⟨rfl, rfl⟩
    exact .other hlog (fun _ => rfl) rfl le_rfl
  | ioWake hr =>
    exact .other ⟨[_, _], rfl, by simp [Event.aside, Event.chanOp?, Event.accesses]⟩ (fun _ => rfl) rfl le_rfl
  | sleepWake ht => exact .other (one _ ⟨rfl, rfl⟩) (fun _ => rfl) rfl le_rfl
  | preempt hr => exact .other (one _ ⟨rfl, rfl⟩) (fun _ => rfl) rfl le_rfl
  | switch hp => exact .other (one _ ⟨rfl, rfl⟩) (fun t => by rw [framesOf_switch]) rfl le_rfl
  | create hr =>
    refine .other ⟨[_, _], rfl, by simp [Event.aside, Event.chanOp?, Event.accesses]⟩ (fun t => ?_) rfl (Nat.le_succ _)
    by_cases ht : t = a.brk
    · subst ht; rw [hfresh, create_framesOf_self (h.lt _ h.cur).ne]; rfl
    · rw [create_framesOf_ne ht]
  | createFail => exact .other (one _ ⟨rfl, rfl⟩) (fun _ => rfl) rfl (Nat.le_succ _)
  | finish hr => exact .other (one _ ⟨rfl, rfl⟩) (fun _ => rfl) rfl le_rfl
  | mutexInit hm => exact .other nolog (fun _ => rfl) rfl le_rfl
  | semInit hs => exact .other (one _ ⟨rfl, rfl⟩) (fun _ => rfl) rfl le_rfl
  | @chanInit id ch hid h₁ h₂ h₃ h₄ =>
    by_cases hc : id = c
    · subst hc
      exact .of_turn [_, _, _] a.run.frames (fun _ _ => rfl) (congrArg _ (framesOf_cur _)) .stay (by simp) le_rfl rfl rfl
        (.init (Option.isNone_iff_eq_none.mp hid) rfl h₁ h₂ h₃ h₄)
    · exact .other ⟨[_, _, _], rfl, by simp [Event.aside, Event.chanOp?, Event.accesses]⟩ (fun _ => rfl)
        (Function.update_of_ne (Ne.symm hc) ..) le_rfl
  | @lock m fs hr hs hm =>
    exact hs.chanStep [_, _] h hr (fun t ht => framesOf_setFrames_ne ht) (congrArg _ (if_pos rfl)) rfl rfl rfl
      (ops_take (w := .mutex m)) (by simp [Event.accesses])
  | @wait sm fs hr hs hn =>
    exact hs.chanStep [_, _] h hr (fun t ht => framesOf_setFrames_ne ht) (congrArg _ (if_pos rfl)) rfl rfl rfl
      (ops_take (w := .sem sm)) (by simp [Event.accesses])
  | @block w fs hr hs hw =>
    have hself : ((a.on (.setFrames fs)).block w).framesOf a.currentThread = .yieldEntry :: .waiting w :: fs := if_pos rfl
    exact hs.chanStep [_] h hr (fun t ht => framesOf_setFrames_ne ht) (by rw [hself]; rfl) rfl rfl rfl ops_arrive
      (by simp [Event.accesses])
  | @unlock m fs hr hs hm hq =>
    exact hs.chanStep [_] h hr (fun t ht => framesOf_setFrames_ne ht) (congrArg _ (if_pos rfl)) rfl rfl rfl
      (ops_release (w := .mutex m)) (by simp [Event.accesses])
  | @unlockHandoff m fs t ts hr hs hq =>
    exact hs.chanStep [_, _] h hr (fun t ht => framesOf_setFrames_ne ht) (congrArg _ (if_pos rfl)) rfl rfl rfl
      (ops_handoff (w := .mutex m)) (by simp [Event.accesses])
  | @post sm fs hr hs hm hq =>
    exact hs.chanStep [_] h hr (fun t ht => framesOf_setFrames_ne ht) (congrArg _ (if_pos rfl)) rfl rfl rfl
      (ops_release (w := .sem sm)) (by simp [Event.accesses])
  | @postHandoff sm fs t ts hr hs hq =>
    exact hs.chanStep [_, _] h hr (fun t ht => framesOf_setFrames_ne ht) (congrArg _ (if_pos rfl)) rfl rfl rfl
      (ops_handoff (w := .sem sm)) (by simp [Event.accesses])
  | sleep hr hf => exact .other (one _ ⟨rfl, rfl⟩) (posOf_setFrames rfl) rfl le_rfl
  | ioBlock hr hf => exact .other (one _ ⟨rfl, rfl⟩) (posOf_setFrames (by rw [hf]; rfl)) rfl le_rfl
  | @chan id ch b hr hid hm =>
    have hseat := h.seated_run
    by_cases hc : id = c
    · subst hc
      cases hm with
      | @store msg fs hf =>
        rw [hf] at hseat
        refine .of_turn [_] (.chanSend id msg .advance :: fs) (fun t ht => framesOf_setFrames_ne ht) (congrArg _ (if_pos rfl)) ?_ (fun _ => hr) le_rfl rfl ?_
          (.store hid (Function.update_self ..) rfl)
        · simp only [hf, posOf_cons, posOf_below hseat rfl, Frame.pos?, if_true, Option.or_none]; exact .store
        · exact ops_store
      | @tail msg fs hf =>
        rw [hf] at hseat
        refine .of_turn [_] (.chanSend id msg .unlock :: fs) (fun t ht => framesOf_setFrames_ne ht) (congrArg _ (if_pos rfl)) ?_ (fun _ => hr) le_rfl rfl ?_
          (.tail hid (Function.update_self ..) rfl)
        · simp only [hf, posOf_cons, posOf_below hseat rfl, Frame.pos?, if_true, Option.or_none]; exact .tail
        · rfl
      | @load msg fs hf =>
        rw [hf] at hseat
        refine .of_turn [_] (.chanRecv id (ch.buffer ch.head) .advance :: fs) (fun t ht => framesOf_setFrames_ne ht) (congrArg _ (if_pos rfl)) ?_ (fun _ => hr) le_rfl rfl ?_
          (.load hid hid rfl)
        · simp only [hf, posOf_cons, posOf_below hseat rfl, Frame.pos?, if_true, Option.or_none]; exact .load
        · exact ops_load
      | @head msg fs hf =>
        rw [hf] at hseat
        refine .of_turn [_] (.chanRecv id msg .unlock :: fs) (fun t ht => framesOf_setFrames_ne ht) (congrArg _ (if_pos rfl)) ?_ (fun _ => hr) le_rfl rfl ?_
          (.head hid (Function.update_self ..) rfl)
        · simp only [hf, posOf_cons, posOf_below hseat rfl, Frame.pos?, if_true, Option.or_none]; exact .head
        · rfl
    · cases hm with
      | @store msg fs hf | @tail msg fs hf | @load msg fs hf | @head msg fs hf =>
        refine .other (one _ ?_) (posOf_setFrames ?_) ?_ le_rfl
        · simp [Event.aside, Event.chanOp?, Event.accesses, hc]
        · rw [hf, posOf_cons, posOf_cons]; simp [Frame.pos?, hc]
        · first | rfl | exact Function.update_of_ne (Ne.symm hc) ..

end

end Uthread
