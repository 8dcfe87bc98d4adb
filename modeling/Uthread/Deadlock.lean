import Uthread.Channel

/-!
# A channel does not deadlock on itself

A thread that waits inside a channel operation waits for the object its
position names, and whoever holds the channel's mutex is a live thread inside
an operation. When all of them wait, the tokens between the two semaphores are
all in the buffer or all free.
-/

namespace Uthread

open History Linked

variable {c : Nat} {a b : Abs} {s : Sys} {t : Ptr} {w : WaitObj} {fs gs : List Frame} {p : Pos} {ch : Channel}

/-! ## What a stack waits for -/

/-- `uthread_mutex_lock`/`uthread_sem_wait` are called from where they are called. -/
def Caller (f g : Frame) : Prop := ∀ w, f = .waiting w → ∃ fs gs, Site w.acquire fs (g :: gs)

def Called (fs : List Frame) : Prop := fs.IsChain Caller

namespace Called

theorem below {f : Frame} (h : Called (f :: fs)) : Called fs := List.IsChain.of_cons h

theorem push {f : Frame} (h : Called fs) (hf : ∀ w, f ≠ .waiting w) : Called (f :: fs) := by
  cases fs with
  | nil => exact .singleton _
  | cons g fs => exact .cons_cons (fun w hw => absurd hw (hf w)) h

theorem move {k : Core} (h : Called fs) (hm : FrameMove k fs gs) : Called gs := by
  cases hm with
  | notCreated | yieldRet | sigreturn => exact h.below
  | callYield | callCreate | callSend | callRecv | callIo | exitSave | exitIdle => exact h.push (by simp)
  | _ => exact h.below.push (by simp)

theorem site {op : SyncOp} (h : Called fs) (hs : Site op fs gs) : Called gs := by
  cases hs with
  | lock | unlock | wait | post => exact h
  | sendPost | recvPost => exact h.below
  | _ => exact h.below.push (by simp)

theorem wait (h : Called fs) (hs : Site w.acquire fs gs) : Called (.yieldEntry :: .waiting w :: gs) := by
  have hg := h.site hs
  refine push ?_ (by simp)
  cases gs with
  | nil => exact .singleton _
  | cons g gs =>
    refine .cons_cons (fun w' hw => ?_) hg
    cases hw
    exact ⟨_, _, hs⟩

end Called

inductive Awaits (c : Nat) : WaitObj → Pos → Prop
  | space : Awaits c (.sem (.space c)) (.send .lock)
  | messages : Awaits c (.sem (.messages c)) (.recv .lock)
  | send : Awaits c (.mutex (.chan c)) (.send .access)
  | recv : Awaits c (.mutex (.chan c)) (.recv .access)

theorem Site.awaits {g : Frame} {xs ys : List Frame} (h : Site w.acquire xs (g :: ys)) (hs : Seated (g :: fs))
    (hp : posOf c (g :: fs) = some p) : Awaits c w p := by
  have top : g.level = .direct → g.pos? c = some p := by
    intro hg
    rw [posOf_cons, posOf_below hs hg, Option.or_none] at hp
    exact hp
  cases w with
  | mutex m =>
    cases h with
    | lock => rw [hs.bottom rfl] at hp; cases hp
    | sendLock | recvLock =>
      obtain ⟨rfl, he⟩ := Option.ite_none_right_eq_some.mp (top rfl)
      cases he
      constructor
  | sem sm =>
    cases h with
    | wait => rw [hs.bottom rfl] at hp; cases hp
    | sendWait | recvWait =>
      obtain ⟨rfl, he⟩ := Option.ite_none_right_eq_some.mp (top rfl)
      cases he
      constructor

theorem awaits_of_call (hc : Called fs) (hs : Seated fs) (hw : callOf fs = some (.wait w)) (hp : posOf c fs = some p) :
    Awaits c w p := by
  induction fs with
  | nil => cases hw
  | cons f fs ih =>
    cases f with
    | waiting w' =>
      cases hw
      cases fs with
      | nil => cases hp
      | cons g fs =>
        obtain ⟨xs, ys, h⟩ := (List.isChain_cons_cons.mp hc).1 _ rfl
        exact h.awaits hs.below hp
    | alrmHandler | yieldEntry | yieldGc | yieldIdle | yieldSwap | yieldRet => exact ih hc.below hs.below hw hp
    | _ => cases hw

/-! ## Who is inside -/

def Dead (t : Ptr) (a : Abs) : Prop := t ∉ a.glob ∨ a.tcb.state t = .finished

theorem Dead.of_update {u : Ptr} {st : TState} (h : Dead t b) (hglob : b.glob = a.glob)
    (hst : b.tcb.state = Function.update a.tcb.state u st) (hne : st ≠ .finished) : Dead t a := by
  rcases h with h | h
  · exact .inl (hglob ▸ h)
  · refine .inr ?_
    rw [hst] at h
    by_cases ht : t = u
    · subst ht
      rw [Function.update_self] at h
      exact absurd h hne
    · rwa [Function.update_of_ne ht] at h

theorem Prim.dead (hp : Prim a b) (h : Dead t b) : Dead t a ∨ t = a.currentThread ∧ b = a.finish ∧ ∃ fs, a.run.frames = .user :: fs := by
  cases hp with
  | quiet hq => cases hq <;> exact .inl h
  | reap hu hf =>
    left
    rcases h with h | h
    · by_cases hg : t ∈ a.glob
      · right
        by_contra hne
        refine h ((List.mem_erase_of_ne ?_).mpr hg)
        rintro rfl
        exact hne hf
      · exact .inl hg
    · exact .inr h
  | ioWake | sleepWake | preempt | switch | createFail | block | unlockHandoff | postHandoff | sleep | ioBlock =>
    exact .inl (h.of_update rfl rfl (by simp))
  | create =>
    left
    rcases h with h | h
    · exact .inl fun hg => h (List.mem_cons_of_mem _ hg)
    · by_cases ht : t = a.brk
      · rw [ht, create_state_self] at h
        cases h
      · rw [create_state_ne ht] at h
        exact .inr h
  | @finish fs hr hf =>
    by_cases ht : t = a.currentThread
    · exact .inr ⟨ht, rfl, fs, hf⟩
    · left
      rcases h with h | h
      · exact .inl h
      · right
        change Function.update a.tcb.state a.currentThread .finished t = .finished at h
        rwa [Function.update_of_ne ht] at h
  | chan hr hid hc => cases hc <;> exact .inl h
  | _ => exact .inl h

theorem Prim.dead_posOf (hp : Prim a b) (hf : a.tcb.state a.currentThread = .finished) :
    posOf c (b.framesOf a.currentThread) = posOf c (a.framesOf a.currentThread) := by
  have hnr : a.tcb.state a.currentThread ≠ .running := by simp [hf]
  cases hp with
  | quiet hq => cases hq <;> rfl
  | tick => exact posOf_setFrames (a := a.on (.note _)) (by rw [posOf_skip rfl, posOf_skip rfl]; rfl) _
  | move hm =>
    refine posOf_setFrames ?_ _
    generalize hfs : a.run.frames = fs at hm
    cases hm with
    | callSend _ hr | callRecv _ hr => exact absurd hr hnr
    | _ => rfl
  | reap | ioWake | sleepWake | traceOn | avail | errno | mutexInit | semInit | chanInit => rfl
  | switch => rw [framesOf_switch]
  | createFail => rfl
  | leave hr | sleepRet hr | ioRet hr | createRet hr | preempt hr | create hr | finish hr | lock hr | wait hr | block hr | unlock hr
    | unlockHandoff hr | post hr | postHandoff hr | sleep hr | ioBlock hr | chan hr => exact absurd hr hnr

structure Confined (c : Nat) (a : Abs) : Prop where
  called : ∀ t ∈ a.glob, Called (a.framesOf t)
  absent : ∀ t, Dead t a → posOf c (a.framesOf t) = none

theorem Prim.absent {k : Option ChanOp} (hi : Inv a) (h : Confined c a) (hm : Moves c k a b) (hp : Prim a b)
    (ht : Dead t b) : posOf c (b.framesOf t) = none := by
  rcases hp.dead ht with ht | ⟨rfl, rfl, fs, hf⟩
  · by_cases hc : t = a.currentThread
    · subst hc
      have hfin : a.tcb.state a.currentThread = .finished := ht.resolve_left (not_not.mpr hi.cur)
      rw [hp.dead_posOf hfin]
      exact h.absent _ ht
    · rw [hm.other t hc]
      exact h.absent t ht
  · have hs := hi.seated_run
    change posOf c (a.framesOf a.currentThread) = none
    rw [framesOf_cur]
    rw [hf] at hs ⊢
    rw [hs.bottom rfl]
    rfl

theorem called_of_top (h : ∀ t ∈ a.glob, Called (a.framesOf t)) (hcur : b.currentThread = a.currentThread)
    (hctx : b.tcb.context = a.tcb.context) (hglob : ∀ t ∈ b.glob, t ∈ a.glob)
    (hf : Called a.run.frames → Called b.run.frames) : ∀ t ∈ b.glob, Called (b.framesOf t) := by
  intro t ht
  have ha := h t (hglob t ht)
  unfold Core.framesOf at ha ⊢
  rw [hcur, hctx]
  split
  · next hc =>
    rw [if_pos hc] at ha
    exact hf ha
  · next hc =>
    rw [if_neg hc] at ha
    exact ha

theorem Prim.called (hi : Inv a) (h : ∀ t ∈ a.glob, Called (a.framesOf t)) (hp : Prim a b) :
    ∀ t ∈ b.glob, Called (b.framesOf t) := by
  have pop : ∀ {f : Frame} {fs : List Frame}, a.run.frames = f :: fs → Called a.run.frames → Called fs := by
    intro f fs hf hc
    rw [hf] at hc
    exact hc.below
  cases hp with
  | quiet hq => cases hq <;> exact h
  | tick => exact called_of_top h rfl rfl (fun _ => id) fun hc => (hc.push (by simp)).push (by simp)
  | leave _ hf | sleepRet _ hf | ioRet _ hf | createRet _ hf => exact called_of_top h rfl rfl (fun _ => id) (pop hf)
  | move hm => exact called_of_top h rfl rfl (fun _ => id) fun hc => hc.move hm
  | reap => exact called_of_top h rfl rfl (fun _ => List.mem_of_mem_erase) id
  | switch =>
    intro t ht
    rw [framesOf_switch]
    exact h t ht
  | create =>
    intro t ht
    rcases List.mem_cons.mp ht with rfl | ht
    · rw [create_framesOf_self (hi.lt _ hi.cur).ne]
      exact .singleton _
    · rw [create_framesOf_ne (hi.lt t ht).ne]
      exact h t ht
  | lock _ hs | wait _ hs | unlock _ hs | post _ hs | unlockHandoff _ hs | postHandoff _ hs =>
    exact called_of_top h rfl rfl (fun _ => id) fun hc => hc.site hs
  | block _ hs => exact called_of_top h rfl rfl (fun _ => id) fun hc => hc.wait hs
  | sleep => exact called_of_top h rfl rfl (fun _ => id) fun hc => (hc.push (by simp)).push (by simp)
  | ioBlock _ hf => exact called_of_top h rfl rfl (fun _ => id) fun hc => ((pop hf hc).push (by simp)).push (by simp)
  | chan _ _ hc =>
    cases hc with
    | store hf | tail hf | load hf | head hf =>
      exact called_of_top h rfl rfl (fun _ => id) fun hc => (pop hf hc).push (by simp)
  | _ => exact called_of_top h rfl rfl (fun _ => id) id

theorem Confined.step {k : Option ChanOp} (hi : Inv a) (h : Confined c a) (hm : Moves c k a b) (hp : Prim a b) :
    Confined c b := ⟨hp.called hi h.called, fun _ => hp.absent hi h hm⟩

/-! ## When all wait -/

/-- Who holds the channel's mutex is inside an operation and does not wait for the mutex. -/
theorem ChanInv.holder_inside (h : ChanInv c a) (ht : t ∈ holders (.mutex (.chan c)) a.log) :
    Ledger.mutex.phase (posOf c (a.framesOf t)) = true ∧ t ∉ a.q (.wait (.mutex (.chan c))) := by
  have h₁ := count_holders h.flow.owner t
  have h₂ := count_arrivals (l := a.log) (t := t) (SyncOp.on?_lock (c := c))
  have h₃ := count_posters (l := a.log) (t := t) (SyncOp.on?_unlock (c := c))
  have h₄ := h.flow.ledger .mutex t
  have hpos := List.count_pos_iff.mpr ht
  rw [h.served.fifo, List.count_append] at h₂
  change (ops c a.log).count (.lock, t) = (ops c a.log).count (.unlock, t) + _ at h₄
  have hle := Bool.toNat_le (Ledger.mutex.phase (posOf c (a.framesOf t)))
  constructor
  · by_contra hph
    rw [Bool.not_eq_true] at hph
    rw [hph, Bool.toNat_false] at h₄
    omega
  · rw [← List.count_eq_zero]
    omega

def Stuck (c : Nat) (a : Abs) : Prop := ∀ t ∈ a.glob, posOf c (a.framesOf t) ≠ none → a.tcb.state t = .blocked

theorem Stuck.awaits (hi : Inv a) (hf : Confined c a) (hst : Stuck c a) (hp : posOf c (a.framesOf t) = some p) :
    ∃ w, t ∈ a.q (.wait w) ∧ Awaits c w p := by
  have hg : t ∈ a.glob := by
    by_contra hg
    rw [hf.absent t (.inl hg)] at hp
    cases hp
  obtain ⟨w, hw, hq⟩ := hi.blocked t hg (hst t hg (by simp [hp]))
  exact ⟨w, hq, awaits_of_call (hf.called t hg) (hi.seated t hg) hw hp⟩

theorem Stuck.mutex (hi : Inv a) (hf : Confined c a) (h : ChanInv c a) (hst : Stuck c a) :
    a.q (.wait (.mutex (.chan c))) = [] := by
  by_contra hne
  rcases h.held.holder with ⟨-, v, hv⟩ | ⟨hl, -⟩
  · have hv : v ∈ holders (.mutex (.chan c)) a.log := by simp [hv]
    obtain ⟨hph, hq⟩ := h.holder_inside hv
    cases hp : posOf c (a.framesOf v) with
    | none => rw [hp] at hph; cases hph
    | some p =>
      rw [hp] at hph
      obtain ⟨w, hm, hw⟩ := hst.awaits hi hf hp
      cases hw with
      | space | messages => cases hph
      | send | recv => exact hq hm
  · obtain ⟨u, hu⟩ := List.exists_mem_of_ne_nil _ hne
    rcases hl with hl | hl
    · exact h.served.locked _ hne hl
    · rw [hi.mutexes _ hl] at hu
      cases hu

theorem Stuck.cases (hi : Inv a) (hf : Confined c a) (h : ChanInv c a) (hst : Stuck c a)
    (hp : posOf c (a.framesOf t) = some p) :
    p = .send .lock ∧ t ∈ a.q (.wait (.sem (.space c))) ∨ p = .recv .lock ∧ t ∈ a.q (.wait (.sem (.messages c))) := by
  obtain ⟨w, hq, hw⟩ := hst.awaits hi hf hp
  cases hw with
  | space => exact .inl ⟨rfl, hq⟩
  | messages => exact .inr ⟨rfl, hq⟩
  | send | recv =>
    rw [hst.mutex hi hf h] at hq
    cases hq

theorem length_eq_of_count {xs ys : List Ptr} (h : ∀ t, xs.count t = ys.count t) : xs.length = ys.length :=
  (List.perm_iff_count.mpr h).length_eq

theorem ChanInv.grants_level (h : ChanInv c a) {g : Ledger} (hw : w.acquire.on? c = some g.opens)
    (hle : (ops c a.log).count (g.closes, t) ≤ (grants w a.log).count t)
    (hph : g.phase (posOf c (a.framesOf t)) = true → t ∈ a.q (.wait w)) :
    (grants w a.log).count t = (ops c a.log).count (g.closes, t) := by
  have h₁ := count_arrivals (l := a.log) (t := t) hw
  rw [h.served.fifo, List.count_append] at h₁
  have h₂ := h.flow.ledger g t
  cases hp : g.phase (posOf c (a.framesOf t)) with
  | true =>
    have hq := List.count_pos_iff.mpr (hph hp)
    rw [hp, Bool.toNat_true] at h₂
    omega
  | false =>
    rw [hp, Bool.toNat_false] at h₂
    omega

section
variable (hi : Inv a) (hf : Confined c a) (h : ChanInv c a) (hst : Stuck c a)
include hi hf h hst

theorem Stuck.phase {g : Ledger} (pc : Pos) (hg : ∀ p, g.phase (some p) = true → p = .send .lock ∨ p = .recv .lock → p = pc)
    (hph : g.phase (posOf c (a.framesOf t)) = true) : posOf c (a.framesOf t) = some pc := by
  cases hp : posOf c (a.framesOf t) with
  | none => rw [hp, g.idle] at hph; cases hph
  | some p =>
    rw [hp] at hph
    rw [hg p hph ((hst.cases hi hf h hp).imp And.left And.left)]

theorem Stuck.sent : (sent c a.log).length = (grants (.sem (.space c)) a.log).length := by
  rw [← List.length_map Prod.fst]
  refine length_eq_of_count fun t => ?_
  rw [count_sent, h.grants_level (g := .space) SyncOp.on?_waitSpace (h.flow.paid t)]
  · rfl
  · intro hph
    have hp := hst.phase hi hf h (g := .space) (.send .lock) (by simp [Ledger.space]) hph
    rcases hst.cases hi hf h hp with ⟨-, hq⟩ | ⟨hn, -⟩
    · exact hq
    · cases hn

theorem Stuck.received : (received c a.log).length = (grants (.sem (.messages c)) a.log).length := by
  rw [← List.length_map Prod.fst]
  refine length_eq_of_count fun t => ?_
  rw [count_received, h.grants_level (g := .messages) SyncOp.on?_waitMessages (h.flow.earned t)]
  · rfl
  · intro hph
    have hp := hst.phase hi hf h (g := .messages) (.recv .lock) (by simp [Ledger.messages]) hph
    rcases hst.cases hi hf h hp with ⟨hn, -⟩ | ⟨-, hq⟩
    · cases hn
    · exact hq

theorem Stuck.posted : returned (.sem (.messages c)) a.log = (Uthread.sent c a.log).length := by
  rw [← length_posters, ← List.length_map Prod.fst]
  refine length_eq_of_count fun t => ?_
  rw [count_posters SyncOp.on?_postMessages, count_sent]
  have hb := h.flow.ledger .stored t
  cases hp : posOf c (a.framesOf t) with
  | none => rw [hp] at hb; simpa [Ledger.stored] using hb.symm
  | some p =>
    rw [hp] at hb
    rcases hst.cases hi hf h hp with ⟨rfl, -⟩ | ⟨rfl, -⟩ <;> simpa [Ledger.stored] using hb.symm

theorem Stuck.freed : returned (.sem (.space c)) a.log = (Uthread.received c a.log).length := by
  rw [← length_posters, ← List.length_map Prod.fst]
  refine length_eq_of_count fun t => ?_
  rw [count_posters SyncOp.on?_postSpace, count_received]
  have hb := h.flow.ledger .loaded t
  cases hp : posOf c (a.framesOf t) with
  | none => rw [hp] at hb; simpa [Ledger.loaded] using hb.symm
  | some p =>
    rw [hp] at hb
    rcases hst.cases hi hf h hp with ⟨rfl, -⟩ | ⟨rfl, -⟩ <;> simpa [Ledger.loaded] using hb.symm

theorem Stuck.full (hc : a.chan c = some ch) (hcap : 1 ≤ ch.capacity) (ht : t ∈ a.q (.wait (.sem (.space c)))) :
    (Uthread.sent c a.log).length = (Uthread.received c a.log).length + ch.capacity := by
  have h₁ := hst.sent hi hf h
  have h₂ := hst.freed hi hf h
  obtain ⟨hsome, hin⟩ := h.space.started _ (h.flow.data ch hc).space
  obtain ⟨n, hn⟩ := Option.isSome_iff_exists.mp hsome
  obtain ⟨hb, hm⟩ := h.space.count h.flow.space n hn
  have hle := h.served.count _ (List.ne_nil_of_mem ht)
  have hcount : a.count (.space c) = n := by simp [Core.count, hn]
  unfold balance at hb
  omega

theorem Stuck.empty (hc : a.chan c = some ch) (ht : t ∈ a.q (.wait (.sem (.messages c)))) :
    (Uthread.sent c a.log).length = (Uthread.received c a.log).length := by
  have h₁ := hst.received hi hf h
  have h₂ := hst.posted hi hf h
  obtain ⟨hsome, hin⟩ := h.messages.started _ (h.flow.data ch hc).messages
  obtain ⟨n, hn⟩ := Option.isSome_iff_exists.mp hsome
  obtain ⟨hb, hm⟩ := h.messages.count h.flow.messages n hn
  have hle := h.served.count _ (List.ne_nil_of_mem ht)
  have hcount : a.count (.messages c) = n := by simp [Core.count, hn]
  unfold balance at hb
  omega

end

/-! ## Runs -/

theorem confined_init (clock : Nat → Nat) (epollFd : Fd) (avail : Fd × IoDir → Bool) :
    Confined c (initAbs clock epollFd avail) where
  called t ht := by
    cases List.mem_singleton.mp ht
    exact .singleton _
  absent t _ := by
    change posOf c (if t = 0 then [.user] else []) = none
    split <;> rfl

theorem reachable_confined (h : Sys.Reachable s) (c : Nat) :
    ∃ q g, Sim s q g ∧ ChanInv c (s.abs q g) ∧ Confined c (s.abs q g) := by
  have hstep : ∀ a b, Inv a → ChanInv c a ∧ Confined c a → Prim a b → ChanInv c b ∧ Confined c b := by
    intro a b hi ⟨hc, hf⟩ hp
    obtain ⟨k, hm, -⟩ := hp.chanStep hi (hc.flow.fresh a.brk (le_refl _))
    exact ⟨hc.step hi hp, hf.step hi hm hp⟩
  obtain ⟨q, g, hs, -, hc, hf⟩ := reachable_inv (fun _ _ _ => ⟨chanInv_init .., confined_init ..⟩) hstep h
  exact ⟨q, g, hs, hc, hf⟩

/-- The threads of `g` that are inside an operation on `c` are senders in `xs` behind a full buffer, or
receivers in `ys` behind an empty one. -/
structure OneSided (s : Sys) (c : Nat) (ch : Channel) (g xs ys : List Ptr) : Prop where
  mutex : s.lk.waitHead (.mutex (.chan c)) = none
  side : (∀ t ∈ g, posOf c (s.framesOf t) ≠ none → posOf c (s.framesOf t) = some (.send .lock) ∧ t ∈ xs ∧
      (sent c s.log).length = (received c s.log).length + ch.capacity) ∨
    (∀ t ∈ g, posOf c (s.framesOf t) ≠ none → posOf c (s.framesOf t) = some (.recv .lock) ∧ t ∈ ys ∧
      (sent c s.log).length = (received c s.log).length)

theorem Stuck.oneSided {q : Layout} {g : List Ptr} (hs : Sim s q g) (hch : ChanInv c (s.abs q g))
    (hf : Confined c (s.abs q g)) (hst : Stuck c (s.abs q g)) (hc : s.chan c = some ch) (hcap : 1 ≤ ch.capacity) :
    OneSided s c ch g (q (.wait (.sem (.space c)))) (q (.wait (.sem (.messages c)))) where
  mutex := by
    have hchain := hs.rep.chain (.wait (.mutex (.chan c)))
    rw [show q (.wait (.mutex (.chan c))) = [] from hst.mutex hs.inv hf hch] at hchain
    exact hchain
  side := by
    by_cases hsend : ∃ t, t ∈ q (.wait (.sem (.space c)))
    · obtain ⟨u, hu⟩ := hsend
      have hfull := hst.full hs.inv hf hch hc hcap hu
      left
      intro t ht hp
      obtain ⟨p, hp⟩ := Option.ne_none_iff_exists'.mp hp
      rcases hst.cases hs.inv hf hch hp with ⟨rfl, hq⟩ | ⟨rfl, hq⟩
      · exact ⟨hp, hq, hfull⟩
      · -- the buffer cannot be full and empty
        have hempty := hst.empty hs.inv hf hch hc hq
        omega
    · right
      intro t ht hp
      obtain ⟨p, hp⟩ := Option.ne_none_iff_exists'.mp hp
      rcases hst.cases hs.inv hf hch hp with ⟨rfl, hq⟩ | ⟨rfl, hq⟩
      · exact absurd ⟨t, hq⟩ hsend
      · exact ⟨hp, hq, hst.empty hs.inv hf hch hc hq⟩

/-- When every thread inside an operation on a channel is blocked, nobody waits for its mutex, and they all
are senders waiting for space or all receivers waiting for messages. -/
theorem channel_deadlock_free (h : Sys.Reachable s) (hc : s.chan c = some ch) (hcap : 1 ≤ ch.capacity) :
    ∃ g xs ys, Chain s.lk.globalNext s.lk.globalThreadList g ∧
      Chain s.lk.next (s.lk.waitHead (.sem (.space c))) xs ∧ Chain s.lk.next (s.lk.waitHead (.sem (.messages c))) ys ∧
      ((∀ t ∈ g, posOf c (s.framesOf t) ≠ none → s.tcb.state t = .blocked) → OneSided s c ch g xs ys) := by
  obtain ⟨q, g, hs, hch, hf⟩ := reachable_confined h c
  refine ⟨g, _, _, hs.rep.glob.fwd, hs.rep.chain (.wait (.sem (.space c))), hs.rep.chain (.wait (.sem (.messages c))), ?_⟩
  intro hst
  exact Stuck.oneSided hs hch hf hst hc hcap

/-- The second message to a channel of capacity 1 blocks its sender. -/
theorem channel_deadlock_free_full :
    let s := Sys.after (fun _ => 0) (.call (.channelInit 0 1) {} :: .call (.create 0) {} :: .resume {} :: .resume {} ::
      .call (.channelSend 0 7) {} :: List.replicate 6 (.resume {}) ++ .call (.channelSend 0 8) {} ::
      List.replicate 4 (.resume {}))
    (s.currentThread = 1 ∧ s.tcb.state 0 = .blocked ∧ posOf 0 (s.framesOf 0) = some (.send .lock)) ∧
    ∃ ch, s.chan 0 = some ch ∧ ∃ g xs ys, Chain s.lk.globalNext s.lk.globalThreadList g ∧
      Chain s.lk.next (s.lk.waitHead (.sem (.space 0))) xs ∧ Chain s.lk.next (s.lk.waitHead (.sem (.messages 0))) ys ∧
      ((∀ t ∈ g, posOf 0 (s.framesOf t) ≠ none → s.tcb.state t = .blocked) → OneSided s 0 ch g xs ys) :=
  ⟨by decide +kernel, _, (Option.some_get (by decide +kernel)).symm,
    channel_deadlock_free (Sys.reachable_after (by decide +kernel)) (Option.some_get (by decide +kernel)).symm
      (by decide +kernel)⟩

end Uthread
