import Uthread.ChanStep
import Uthread.Semaphore
import Uthread.Lib.Ring
import Mathlib.Data.List.Perm.Subperm

/-!
# Channels are bounded queues

The operations of each thread on a channel alternate, which is kept in five
ledgers. Together with the counts of the two semaphores and the holders of the
mutex they bound the messages in the buffer and order the accesses to it.
-/

namespace Uthread

open History Linked

/-! ## Counting -/

theorem length_le_of_count {l₁ l₂ : List Ptr} (h : ∀ t, l₁.count t ≤ l₂.count t) : l₁.length ≤ l₂.length :=
  (List.subperm_ext_iff.mpr fun t _ => h t).length_le

theorem length_lt_of_count {l₁ l₂ : List Ptr} (h : ∀ t, l₁.count t ≤ l₂.count t) {u : Ptr}
    (hu : l₁.count u < l₂.count u) : l₁.length < l₂.length := by
  have hsub : l₁.Subperm l₂ := List.subperm_ext_iff.mpr fun t _ => h t
  refine lt_of_le_of_ne hsub.length_le fun heq => ?_
  have hperm := hsub.perm_of_length_le heq.ge
  rw [hperm.count_eq] at hu
  exact lt_irrefl _ hu

/-- Between `opens` and `closes` a thread is in `phase`. -/
structure Ledger where
  opens : ChanOp
  closes : ChanOp
  phase : Option Pos → Bool
  logged : opens.logged = true ∧ closes.logged = true
  idle : phase none = false
  turn : ∀ {p k p'}, Turn p k p' →
    (if k = some opens then 1 else 0) + (phase p).toNat = (if k = some closes then 1 else 0) + (phase p').toNat

namespace Ledger

/-- A granted sender that has not stored its message. -/
def space : Ledger where
  opens := .waitSpace
  closes := .store
  phase p := p = some (.send .lock) ∨ p = some (.send .access)
  logged := ⟨rfl, rfl⟩
  idle := by simp
  turn h := by cases h <;> simp

/-- A sender that has stored its message and not posted. -/
def stored : Ledger where
  opens := .store
  closes := .postMessages
  phase p := p = some (.send .advance) ∨ p = some (.send .unlock) ∨ p = some (.send .post)
  logged := ⟨rfl, rfl⟩
  idle := by simp
  turn h := by cases h <;> simp

def messages : Ledger where
  opens := .waitMessages
  closes := .load
  phase p := p = some (.recv .lock) ∨ p = some (.recv .access)
  logged := ⟨rfl, rfl⟩
  idle := by simp
  turn h := by cases h <;> simp

def loaded : Ledger where
  opens := .load
  closes := .postSpace
  phase p := p = some (.recv .advance) ∨ p = some (.recv .unlock) ∨ p = some (.recv .post)
  logged := ⟨rfl, rfl⟩
  idle := by simp
  turn h := by cases h <;> simp

def mutex : Ledger where
  opens := .lock
  closes := .unlock
  phase p := p = some (.send .access) ∨ p = some (.send .advance) ∨ p = some (.send .unlock) ∨
    p = some (.recv .access) ∨ p = some (.recv .advance) ∨ p = some (.recv .unlock)
  logged := ⟨rfl, rfl⟩
  idle := by simp
  turn h := by cases h <;> simp

end Ledger

def Balanced (c : Nat) (a : Abs) (g : Ledger) : Prop :=
  ∀ t, (ops c a.log).count (g.opens, t) = (ops c a.log).count (g.closes, t) + (g.phase (posOf c (a.framesOf t))).toNat

variable {c : Nat} {a b : Abs} {k : Option ChanOp} {t : Ptr} {ch : Channel} {g : Ledger}

theorem Moves.count (hm : Moves c k a b) {k' : ChanOp} (hk : k'.logged = true) :
    (ops c b.log).count (k', t) =
      (ops c a.log).count (k', t) + if k = some k' ∧ t = a.currentThread then 1 else 0 := by
  rw [hm.did, List.count_append, Nat.add_comm]
  congr 1
  cases k with
  | none => simp
  | some k₀ =>
    by_cases hl : k₀.logged = true
    · by_cases hkk : k₀ = k'
      · subst hkk
        by_cases ht : t = a.currentThread
        · subst ht; simp [Option.filter, hl]
        · simp [Option.filter, hl, ht, Ne.symm ht]
      · simp [Option.filter, hl, hkk]
    · have hkk : k₀ ≠ k' := by
        intro h
        rw [h] at hl
        exact hl hk
      simp [Option.filter, hl, hkk]

theorem Balanced.step (h : Balanced c a g) (hm : Moves c k a b) : Balanced c b g := by
  intro t
  rw [hm.count g.logged.1, hm.count g.logged.2]
  by_cases ht : t = a.currentThread
  · subst ht
    have hturn := g.turn hm.turn
    have := h a.currentThread
    simp only [and_true]
    omega
  · rw [hm.other t ht]
    simp only [ht, and_false, if_false, Nat.add_zero]
    exact h t

/-! ## The holders of the mutex -/

theorem posters_cons {w : WaitObj} {e : Event} {l : List Event} : posters w (e :: l) = (e.posted? w).toList ++ posters w l := by
  unfold posters
  cases h : e.posted? w <;> simp [h]

/-- Of a mutex that only its holder unlocks, the holders are those who were granted it and have not unlocked it. -/
theorem count_holders {m : MutexId} {l : List Event} (h : Always (UnlockedByHolder m) l) (t : Ptr) :
    (holders (.mutex m) l).count t + (posters (.mutex m) l).count t = (grants (.mutex m) l).count t := by
  induction l with
  | nil => rfl
  | cons e l ih =>
    have ih := ih h.2
    rw [posters_cons, grants_cons, List.count_append, List.count_append]
    cases e with
    | take w u =>
      by_cases hw : w = .mutex m
      · subst hw
        simp only [holders, Event.posted?, Event.granted?, if_true, Option.toList_some, Option.toList_none,
          List.count_nil, List.count_cons]
        omega
      · simpa [holders, Event.posted?, Event.granted?, hw] using ih
    | handoff w u v =>
      by_cases hw : w = .mutex m
      · subst hw
        have hu : 0 < (holders (.mutex m) l).count u := List.count_pos_iff.mpr (h.1 rfl)
        simp only [holders, Event.posted?, Event.granted?, if_true, Option.toList_some, List.count_cons, List.count_nil,
          List.count_erase, beq_iff_eq]
        split_ifs <;> subst_vars <;> omega
      · simpa [holders, Event.posted?, Event.granted?, hw] using ih
    | release w u =>
      by_cases hw : w = .mutex m
      · subst hw
        have hu : 0 < (holders (.mutex m) l).count u := List.count_pos_iff.mpr (h.1 rfl)
        simp only [holders, Event.posted?, Event.granted?, if_true, Option.toList_some, Option.toList_none,
          List.count_cons, List.count_nil, List.count_erase, beq_iff_eq]
        split_ifs <;> subst_vars <;> omega
      · simpa [holders, Event.posted?, Event.granted?, hw] using ih
    | _ => simpa [holders, Event.posted?, Event.granted?] using ih

/-! ## The invariant -/

def Pos.inside : Pos → Bool
  | .send .advance => true
  | .send .unlock => true
  | .recv .advance => true
  | .recv .unlock => true
  | _ => false

/-- What the operations that are executed say about the data of the channel. -/
structure Data (c : Nat) (a : Abs) (ch : Channel) : Prop where
  space : .semInit (.space c) ch.capacity ∈ a.log
  messages : .semInit (.messages c) 0 ∈ a.log
  max : ch.capacity ≤ uthreadChannelMaxCapacity
  pos : sent c a.log ≠ [] → 0 < ch.capacity
  read : (received c a.log).map Prod.snd = ((sent c a.log).map Prod.snd).take (received c a.log).length
  le : (received c a.log).length ≤ (sent c a.log).length
  buffer : Ring.Holds ch.capacity.toNat ch.buffer ((sent c a.log).map Prod.snd) (received c a.log).length
  tail : (∀ t, posOf c (a.framesOf t) ≠ some (.send .advance)) → ch.tail = Ring.cell ch.capacity.toNat (sent c a.log).length
  tailNext : ∀ t, posOf c (a.framesOf t) = some (.send .advance) →
    ∃ n, (sent c a.log).length = n + 1 ∧ ch.tail = Ring.cell ch.capacity.toNat n
  head : (∀ t, posOf c (a.framesOf t) ≠ some (.recv .advance)) →
    ch.head = Ring.cell ch.capacity.toNat (received c a.log).length
  headNext : ∀ t, posOf c (a.framesOf t) = some (.recv .advance) →
    ∃ n, (received c a.log).length = n + 1 ∧ ch.head = Ring.cell ch.capacity.toNat n
  stores : ∀ t i msg, .store c t i msg ∈ a.log → 0 ≤ i ∧ i < ch.capacity
  loads : ∀ t i msg, .load c t i msg ∈ a.log → 0 ≤ i ∧ i < ch.capacity
  modulo : ∀ n, .modulo c n ∈ a.log → n = ch.capacity ∧ 0 < n

structure Flow (c : Nat) (a : Abs) : Prop where
  ledger : ∀ g, Balanced c a g
  fresh : ∀ t, a.brk ≤ t → posOf c (a.framesOf t) = none
  owner : Always (UnlockedByHolder (.chan c)) a.log
  space : Always (Fits (.space c)) a.log
  messages : Always (Fits (.messages c)) a.log
  inside : ∀ t p, posOf c (a.framesOf t) = some p → p.inside = true → t ∈ holders (.mutex (.chan c)) a.log
  paid : ∀ t, (ops c a.log).count (.store, t) ≤ (grants (.sem (.space c)) a.log).count t
  earned : ∀ t, (ops c a.log).count (.load, t) ≤ (grants (.sem (.messages c)) a.log).count t
  unused : a.chan c = none → ∀ e ∈ a.log, e.accesses c = false
  data : ∀ ch, a.chan c = some ch → Data c a ch

structure ChanInv (c : Nat) (a : Abs) : Prop where
  served : Served a
  held : Held (.chan c) a
  space : Counted (.space c) a
  messages : Counted (.messages c) a
  flow : Flow c a

/-! ## What follows for the lengths -/

theorem SyncOp.on?_lock : (WaitObj.mutex (.chan c)).acquire.on? c = some .lock := by simp [WaitObj.acquire, SyncOp.on?]

theorem SyncOp.on?_unlock : (WaitObj.mutex (.chan c)).giveBack.on? c = some .unlock := by
  simp [WaitObj.giveBack, SyncOp.on?]

theorem SyncOp.on?_waitSpace : (WaitObj.sem (.space c)).acquire.on? c = some .waitSpace := by
  simp [WaitObj.acquire, SyncOp.on?]

theorem SyncOp.on?_waitMessages : (WaitObj.sem (.messages c)).acquire.on? c = some .waitMessages := by
  simp [WaitObj.acquire, SyncOp.on?]

theorem SyncOp.on?_postSpace : (WaitObj.sem (.space c)).giveBack.on? c = some .postSpace := by
  simp [WaitObj.giveBack, SyncOp.on?]

theorem SyncOp.on?_postMessages : (WaitObj.sem (.messages c)).giveBack.on? c = some .postMessages := by
  simp [WaitObj.giveBack, SyncOp.on?]

namespace ChanInv

theorem count_grants (h : ChanInv c a) {w : WaitObj} {k : ChanOp} (hw : w.acquire.on? c = some k) (ht : t ∉ a.q (.wait w)) :
    (grants w a.log).count t = (ops c a.log).count (k, t) := by
  rw [← count_arrivals hw, h.served.fifo w, List.count_append, List.count_eq_zero.mpr ht, Nat.add_zero]

theorem mem_holders (h : ChanInv c a) (ht : t ∉ a.q (.wait (.mutex (.chan c))))
    (hp : Ledger.mutex.phase (posOf c (a.framesOf t)) = true) : t ∈ holders (.mutex (.chan c)) a.log := by
  have h₁ := count_holders h.flow.owner t
  have h₂ := h.count_grants SyncOp.on?_lock ht
  have h₃ := count_posters (l := a.log) (t := t) (SyncOp.on?_unlock (c := c))
  have h₄ := h.flow.ledger .mutex t
  rw [hp] at h₄
  simp only [Ledger.mutex, Bool.toNat_true] at h₄
  exact List.count_pos_iff.mp (by omega)

theorem holder_unique (h : ChanInv c a) {u : Ptr} (ht : t ∈ holders (.mutex (.chan c)) a.log)
    (hu : u ∈ holders (.mutex (.chan c)) a.log) : t = u := by
  rcases h.held.holder with ⟨-, v, hv⟩ | ⟨-, hv⟩
  · rw [hv] at ht hu
    rw [List.mem_singleton.mp ht, List.mem_singleton.mp hu]
  · rw [hv] at ht; cases ht

theorem sent_le (h : ChanInv c a) : (sent c a.log).length ≤ (grants (.sem (.space c)) a.log).length := by
  have := length_le_of_count fun t => (count_sent (c := c) (l := a.log) (t := t)).le.trans (h.flow.paid t)
  rwa [List.length_map] at this

theorem received_le (h : ChanInv c a) : (received c a.log).length ≤ (grants (.sem (.messages c)) a.log).length := by
  have := length_le_of_count fun t => (count_received (c := c) (l := a.log) (t := t)).le.trans (h.flow.earned t)
  rwa [List.length_map] at this

theorem posted_le (h : ChanInv c a) : returned (.sem (.messages c)) a.log ≤ (sent c a.log).length := by
  rw [← length_posters, ← (List.length_map Prod.fst : ((sent c a.log).map _).length = _)]
  refine length_le_of_count fun t => ?_
  have := h.flow.ledger .stored t
  rw [count_posters SyncOp.on?_postMessages, count_sent]
  simp only [Ledger.stored] at this
  omega

theorem freed_le (h : ChanInv c a) : returned (.sem (.space c)) a.log ≤ (received c a.log).length := by
  rw [← length_posters, ← (List.length_map Prod.fst : ((received c a.log).map _).length = _)]
  refine length_le_of_count fun t => ?_
  have := h.flow.ledger .loaded t
  rw [count_posters SyncOp.on?_postSpace, count_received]
  simp only [Ledger.loaded] at this
  omega

theorem granted_space (h : ChanInv c a) (hc : a.chan c = some ch) :
    ((grants (.sem (.space c)) a.log).length : Int) ≤ returned (.sem (.space c)) a.log + max ch.capacity 0 := by
  obtain ⟨hsome, hin⟩ := h.space.started _ (h.flow.data ch hc).space
  obtain ⟨n, hn⟩ := Option.isSome_iff_exists.mp hsome
  obtain ⟨hb, hm⟩ := h.space.count h.flow.space n hn
  unfold balance at hb
  omega

theorem granted_messages (h : ChanInv c a) (hc : a.chan c = some ch) :
    (grants (.sem (.messages c)) a.log).length ≤ returned (.sem (.messages c)) a.log := by
  obtain ⟨hsome, hin⟩ := h.messages.started _ (h.flow.data ch hc).messages
  obtain ⟨n, hn⟩ := Option.isSome_iff_exists.mp hsome
  obtain ⟨hb, hm⟩ := h.messages.count h.flow.messages n hn
  unfold balance at hb
  omega

theorem bounded (h : ChanInv c a) (hc : a.chan c = some ch) :
    ((sent c a.log).length : Int) ≤ (received c a.log).length + max ch.capacity 0 := by
  have h₁ := h.sent_le
  have h₂ := h.granted_space hc
  have h₃ := h.freed_le
  omega

theorem balance_space (hi : Inv a) (h : ChanInv c a) : balance (.space c) a.log < 2 ^ 31 - 1 := by
  cases hc : a.chan c with
  | none =>
    have hnone : a.semCount (.space c) = none := Option.not_isSome_iff_eq_none.mp ((hi.chans c).2.1.not.mpr (by simp [hc]))
    rw [(h.space.unused hnone).balance]; decide
  | some ch =>
    have hd := h.flow.data ch hc
    have hmax : uthreadChannelMaxCapacity = 64 := rfl
    have h₀ := hd.max
    have h₁ := (h.space.started _ hd.space).2
    have h₂ := h.freed_le
    have h₃ := hd.le
    have h₄ := h.sent_le
    unfold balance
    omega

theorem balance_messages (hi : Inv a) (h : ChanInv c a) : balance (.messages c) a.log < 2 ^ 31 - 1 := by
  cases hc : a.chan c with
  | none =>
    have hnone : a.semCount (.messages c) = none :=
      Option.not_isSome_iff_eq_none.mp ((hi.chans c).2.2.not.mpr (by simp [hc]))
    rw [(h.messages.unused hnone).balance]; decide
  | some ch =>
    have hd := h.flow.data ch hc
    have hmax : uthreadChannelMaxCapacity = 64 := rfl
    have h₀ := hd.max
    have h₁ := (h.messages.started _ hd.messages).2
    have h₂ := h.posted_le
    have h₃ := h.bounded hc
    have h₄ := h.received_le
    unfold balance
    omega

end ChanInv

/-! ## The transitions -/

theorem Site.at_unlock {fs fs' : List Frame} (h : Site (.unlock (.chan c)) fs fs') :
    ∃ p, posOf c fs = some p ∧ p.inside = true := by
  cases h with
  | sendUnlock => exact ⟨.send .unlock, by simp [posOf_cons, Frame.pos?], rfl⟩
  | recvUnlock => exact ⟨.recv .unlock, by simp [posOf_cons, Frame.pos?], rfl⟩

theorem ChanInv.owner_step (h : ChanInv c a) (hst : SyncStep a b) : Always (UnlockedByHolder (.chan c)) b.log := by
  have hin : ∀ {m fs}, Site (.unlock m) a.run.frames fs → WaitObj.mutex m = .mutex (.chan c) →
      a.currentThread ∈ holders (.mutex m) a.log := by
    intro m fs hs hm
    cases hm
    obtain ⟨p, hp, hpi⟩ := hs.at_unlock
    exact h.flow.inside _ p (by rw [framesOf_cur]; exact hp) hpi
  have ho := h.flow.owner
  cases hst with
  | unsync hu =>
    obtain ⟨es, hlog, hes⟩ := hu.log
    rw [hlog]
    exact ho.silent fun e he l => by have := hes e he; cases e <;> first | exact trivial | cases this
  | mutexInit => exact ho
  | semInit | block | leave => exact ⟨trivial, ho⟩
  | chanInit => exact ⟨trivial, trivial, trivial, ho⟩
  | lock | wait => exact ⟨trivial, trivial, ho⟩
  | unlock hr hs => exact ⟨hin hs, ho⟩
  | unlockHandoff hr hs => exact ⟨hin hs, trivial, ho⟩
  | post => exact ⟨by rintro ⟨⟩, ho⟩
  | postHandoff => exact ⟨by rintro ⟨⟩, trivial, ho⟩

theorem fits_step {sm : SemId} (hb : balance sm a.log < 2 ^ 31 - 1) (h : Always (Fits sm) a.log) (hst : SyncStep a b) :
    Always (Fits sm) b.log := by
  cases hst with
  | unsync hu =>
    obtain ⟨es, hlog, hes⟩ := hu.log
    rw [hlog]
    exact h.silent fun e he l => by have := hes e he; cases e <;> first | exact trivial | cases this
  | mutexInit => exact h
  | semInit | block | leave => exact ⟨trivial, h⟩
  | chanInit => exact ⟨trivial, trivial, trivial, h⟩
  | lock | wait | unlockHandoff | postHandoff => exact ⟨trivial, trivial, h⟩
  | unlock => exact ⟨fun _ => hb, h⟩
  | post => exact ⟨fun _ => hb, h⟩

theorem grants_count_le {w : WaitObj} {es l : List Event} (t : Ptr) : (grants w l).count t ≤ (grants w (es ++ l)).count t := by
  unfold grants
  rw [List.count_reverse, List.count_reverse, List.filterMap_append, List.count_append]
  omega

theorem Turn.not_data {p p' : Option Pos} (h : Turn p k p') (hk : ∀ k', k = some k' → k'.data = false) :
    (p' = some (.send .advance) ↔ p = some (.send .advance)) ∧
      (p' = some (.recv .advance) ↔ p = some (.recv .advance)) := by
  cases h with
  | stay => exact ⟨Iff.rfl, Iff.rfl⟩
  | store | tail | load | head => cases hk _ rfl
  | _ => simp

theorem Turn.of_store {p p' : Option Pos} (h : Turn p (some .store) p') :
    p = some (.send .access) ∧ p' = some (.send .advance) := by
  cases h; exact ⟨rfl, rfl⟩

theorem Turn.of_tail {p p' : Option Pos} (h : Turn p (some .tail) p') :
    p = some (.send .advance) ∧ p' = some (.send .unlock) := by
  cases h; exact ⟨rfl, rfl⟩

theorem Turn.of_load {p p' : Option Pos} (h : Turn p (some .load) p') :
    p = some (.recv .access) ∧ p' = some (.recv .advance) := by
  cases h; exact ⟨rfl, rfl⟩

theorem Turn.of_head {p p' : Option Pos} (h : Turn p (some .head) p') :
    p = some (.recv .advance) ∧ p' = some (.recv .unlock) := by
  cases h; exact ⟨rfl, rfl⟩

theorem sent_cons {e : Event} {l : List Event} : sent c (e :: l) = sent c l ++ (e.sent? c).toList := by
  unfold sent
  cases h : e.sent? c <;> simp [h]

theorem received_cons {e : Event} {l : List Event} : received c (e :: l) = received c l ++ (e.received? c).toList := by
  unfold received
  cases h : e.received? c <;> simp [h]

theorem sent_keep {es l : List Event} (h : ∀ e ∈ es, e.accesses c = false) : sent c (es ++ l) = sent c l := by
  induction es with
  | nil => rfl
  | cons e es ih =>
    have he := h e (by simp)
    have hno : e.sent? c = none := by cases e <;> simp_all [Event.accesses, Event.sent?]
    rw [List.cons_append, sent_cons, hno, ih fun e he => h e (List.mem_cons_of_mem _ he)]
    simp

theorem received_keep {es l : List Event} (h : ∀ e ∈ es, e.accesses c = false) : received c (es ++ l) = received c l := by
  induction es with
  | nil => rfl
  | cons e es ih =>
    have he := h e (by simp)
    have hno : e.received? c = none := by cases e <;> simp_all [Event.accesses, Event.received?]
    rw [List.cons_append, received_cons, hno, ih fun e he => h e (List.mem_cons_of_mem _ he)]
    simp

namespace ChanInv

theorem cur_holds (hi : Inv a) (h : ChanInv c a) (hr : a.tcb.state a.currentThread = .running)
    (hp : Ledger.mutex.phase (posOf c (a.framesOf a.currentThread)) = true) :
    a.currentThread ∈ holders (.mutex (.chan c)) a.log :=
  h.mem_holders (hi.notMem_of_running hr _) hp

/-- A sender that reaches the buffer has a token it has not used. -/
theorem unspent (hi : Inv a) (h : ChanInv c a) (hr : a.tcb.state a.currentThread = .running)
    (hp : posOf c (a.framesOf a.currentThread) = some (.send .access)) :
    (ops c a.log).count (.store, a.currentThread) < (grants (.sem (.space c)) a.log).count a.currentThread := by
  rw [h.count_grants SyncOp.on?_waitSpace (hi.notMem_of_running hr _)]
  have := h.flow.ledger .space a.currentThread
  rw [hp] at this
  simp [Ledger.space] at this
  omega

theorem unspent_recv (hi : Inv a) (h : ChanInv c a) (hr : a.tcb.state a.currentThread = .running)
    (hp : posOf c (a.framesOf a.currentThread) = some (.recv .access)) :
    (ops c a.log).count (.load, a.currentThread) < (grants (.sem (.messages c)) a.log).count a.currentThread := by
  rw [h.count_grants SyncOp.on?_waitMessages (hi.notMem_of_running hr _)]
  have := h.flow.ledger .messages a.currentThread
  rw [hp] at this
  simp [Ledger.messages] at this
  omega

theorem room (hi : Inv a) (h : ChanInv c a) (hc : a.chan c = some ch) (hr : a.tcb.state a.currentThread = .running)
    (hp : posOf c (a.framesOf a.currentThread) = some (.send .access)) :
    0 < ch.capacity ∧ (sent c a.log).length < (received c a.log).length + ch.capacity.toNat := by
  have hlt := length_lt_of_count (fun t => (count_sent (c := c) (l := a.log) (t := t)).le.trans (h.flow.paid t))
    (by rw [count_sent]; exact h.unspent hi hr hp)
  rw [List.length_map] at hlt
  have h₁ := h.granted_space hc
  have h₂ := h.freed_le
  have h₃ := (h.flow.data ch hc).le
  omega

theorem available (hi : Inv a) (h : ChanInv c a) (hc : a.chan c = some ch)
    (hr : a.tcb.state a.currentThread = .running) (hp : posOf c (a.framesOf a.currentThread) = some (.recv .access)) :
    (received c a.log).length < (sent c a.log).length := by
  have hlt := length_lt_of_count (fun t => (count_received (c := c) (l := a.log) (t := t)).le.trans (h.flow.earned t))
    (by rw [count_received]; exact h.unspent_recv hi hr hp)
  rw [List.length_map] at hlt
  have h₁ := h.granted_messages hc
  have h₂ := h.posted_le
  omega

theorem paid_step (hi : Inv a) (h : ChanInv c a) (hm : Moves c k a b) (hlog : ∃ es, b.log = es ++ a.log) (t : Ptr) :
    (ops c b.log).count (.store, t) ≤ (grants (.sem (.space c)) b.log).count t := by
  obtain ⟨es, hlog⟩ := hlog
  have hmono : (grants (.sem (.space c)) a.log).count t ≤ (grants (.sem (.space c)) b.log).count t := by
    rw [hlog]; exact grants_count_le t
  rw [hm.count rfl]
  by_cases hk : k = some .store ∧ t = a.currentThread
  · obtain ⟨rfl, rfl⟩ := hk
    have hp := (Turn.of_store hm.turn).1
    have := h.unspent hi (hm.running (by simp)) hp
    simp
    omega
  · rw [if_neg hk]
    exact (h.flow.paid t).trans hmono

theorem earned_step (hi : Inv a) (h : ChanInv c a) (hm : Moves c k a b) (hlog : ∃ es, b.log = es ++ a.log) (t : Ptr) :
    (ops c b.log).count (.load, t) ≤ (grants (.sem (.messages c)) b.log).count t := by
  obtain ⟨es, hlog⟩ := hlog
  have hmono : (grants (.sem (.messages c)) a.log).count t ≤ (grants (.sem (.messages c)) b.log).count t := by
    rw [hlog]; exact grants_count_le t
  rw [hm.count rfl]
  by_cases hk : k = some .load ∧ t = a.currentThread
  · obtain ⟨rfl, rfl⟩ := hk
    have hp := (Turn.of_load hm.turn).1
    have := h.unspent_recv hi (hm.running (by simp)) hp
    simp
    omega
  · rw [if_neg hk]
    exact (h.flow.earned t).trans hmono

theorem inside_step (hi : Inv a) (h : ChanInv c a) (hm : Moves c k a b) (hlog : ∃ es, b.log = es ++ a.log)
    (ho : Always (UnlockedByHolder (.chan c)) b.log) {t : Ptr} {p : Pos} (hp : posOf c (b.framesOf t) = some p)
    (hpi : p.inside = true) : t ∈ holders (.mutex (.chan c)) b.log := by
  have hold : t ∈ holders (.mutex (.chan c)) a.log ∧ ¬ (k = some .unlock ∧ t = a.currentThread) := by
    by_cases ht : t = a.currentThread
    · subst ht
      have hturn := hm.turn
      have hrun := hm.running
      rw [hp] at hturn
      generalize hpa : posOf c (a.framesOf a.currentThread) = pa at hturn
      cases hturn with
      | stay => exact ⟨h.flow.inside _ p hpa hpi, by simp⟩
      | tail | head => exact ⟨h.flow.inside _ _ hpa rfl, by simp⟩
      | store | load => exact ⟨h.cur_holds hi (hrun (by simp)) (by rw [hpa]; rfl), by simp⟩
      | _ => cases hpi
    · rw [hm.other t ht] at hp
      exact ⟨h.flow.inside t p hp hpi, fun hk => ht hk.2⟩
  obtain ⟨hmem, hk⟩ := hold
  obtain ⟨es, hlog⟩ := hlog
  have h₁ := count_holders h.flow.owner t
  have h₂ := count_holders ho t
  have h₃ : (grants (.mutex (.chan c)) a.log).count t ≤ (grants (.mutex (.chan c)) b.log).count t := by
    rw [hlog]; exact grants_count_le t
  have h₄ : (posters (.mutex (.chan c)) b.log).count t = (posters (.mutex (.chan c)) a.log).count t := by
    rw [count_posters SyncOp.on?_unlock, count_posters SyncOp.on?_unlock, hm.count rfl, if_neg hk, Nat.add_zero]
  have h₅ : 0 < (holders (.mutex (.chan c)) a.log).count t := List.count_pos_iff.mpr hmem
  exact List.count_pos_iff.mp (by omega)

theorem alone (h : ChanInv c a) {u : Ptr} (hu : u ∈ holders (.mutex (.chan c)) a.log) {p : Pos}
    (hp : posOf c (a.framesOf t) = some p) (hpi : p.inside = true) : t = u :=
  h.holder_unique (h.flow.inside t p hp hpi) hu

theorem data_keep (h : Data c a ch) (hm : Moves c k a b) (hk : ∀ k', k = some k' → k'.data = false) {es : List Event}
    (hlog : b.log = es ++ a.log) (hes : ∀ e ∈ es, e.accesses c = false) : Data c b ch := by
  have hsent : sent c b.log = sent c a.log := by rw [hlog, sent_keep hes]
  have hrecv : received c b.log = received c a.log := by rw [hlog, received_keep hes]
  have hmem : ∀ {e}, e.accesses c = true → e ∈ b.log → e ∈ a.log := by
    intro e he hb
    rw [hlog] at hb
    rcases List.mem_append.mp hb with hb | hb
    · rw [hes e hb] at he; cases he
    · exact hb
  have hold : ∀ {e}, e ∈ a.log → e ∈ b.log := fun he => by rw [hlog]; exact List.mem_append_right _ he
  have hpos : ∀ t, (posOf c (b.framesOf t) = some (.send .advance) ↔ posOf c (a.framesOf t) = some (.send .advance)) ∧
      (posOf c (b.framesOf t) = some (.recv .advance) ↔ posOf c (a.framesOf t) = some (.recv .advance)) := by
    intro t
    by_cases ht : t = a.currentThread
    · subst ht; exact hm.turn.not_data hk
    · rw [hm.other t ht]; exact ⟨Iff.rfl, Iff.rfl⟩
  exact
    { space := hold h.space
      messages := hold h.messages
      max := h.max
      pos := by rw [hsent]; exact h.pos
      read := by rw [hsent, hrecv]; exact h.read
      le := by rw [hsent, hrecv]; exact h.le
      buffer := by rw [hsent, hrecv]; exact h.buffer
      tail := fun hno => by rw [hsent]; exact h.tail fun t ht => hno t ((hpos t).1.mpr ht)
      tailNext := fun t ht => by rw [hsent]; exact h.tailNext t ((hpos t).1.mp ht)
      head := fun hno => by rw [hrecv]; exact h.head fun t ht => hno t ((hpos t).2.mpr ht)
      headNext := fun t ht => by rw [hrecv]; exact h.headNext t ((hpos t).2.mp ht)
      stores := fun t i msg hb => h.stores t i msg (hmem (by simp [Event.accesses]) hb)
      loads := fun t i msg hb => h.loads t i msg (hmem (by simp [Event.accesses]) hb)
      modulo := fun n hb => h.modulo n (hmem (by simp [Event.accesses]) hb) }

theorem toNat_pos {n : Int} (h : 0 < n) : (n.toNat : Int) = n := Int.toNat_of_nonneg h.le

theorem data_store (hi : Inv a) (h : ChanInv c a) (hm : Moves c (some .store) a b) (hc : a.chan c = some ch) {msg : Msg}
    (hlog : b.log = .store c a.currentThread ch.tail msg :: a.log) :
    Data c b { ch with buffer := Function.update ch.buffer ch.tail msg } := by
  have hd := h.flow.data ch hc
  have hr := hm.running (by simp)
  obtain ⟨hp, hp'⟩ := hm.turn.of_store
  obtain ⟨hcap, hroom⟩ := h.room hi hc hr hp
  have hcur := h.cur_holds hi hr (by rw [hp]; rfl)
  have hno : ∀ q : Pos, q.inside = true → ∀ t, posOf c (a.framesOf t) ≠ some q := by
    intro q hq t ht
    have := h.alone hcur ht hq
    subst this
    rw [hp] at ht
    cases ht; cases hq
  have htail := hd.tail (hno (.send .advance) rfl)
  have hsent : sent c b.log = sent c a.log ++ [(a.currentThread, msg)] := by
    rw [hlog, sent_cons]; simp [Event.sent?]
  have hrecv : received c b.log = received c a.log := by
    rw [hlog, received_cons]; simp [Event.received?]
  have hold : ∀ {e}, e ∈ a.log → e ∈ b.log := fun he => by rw [hlog]; exact List.mem_cons_of_mem _ he
  have hmap : (sent c b.log).map Prod.snd = (sent c a.log).map Prod.snd ++ [msg] := by rw [hsent]; simp
  have hother : ∀ t, posOf c (b.framesOf t) ≠ some (.recv .advance) := by
    intro t ht
    by_cases htc : t = a.currentThread
    · subst htc; rw [hp'] at ht; cases ht
    · rw [hm.other t htc] at ht; exact hno (.recv .advance) rfl t ht
  exact
    { space := hold hd.space
      messages := hold hd.messages
      max := hd.max
      pos := fun _ => hcap
      read := by
        rw [hmap, hrecv, List.take_append_of_le_length (by rw [List.length_map]; exact hd.le)]
        exact hd.read
      le := by rw [hsent, hrecv, List.length_append]; exact hd.le.trans (Nat.le_add_right ..)
      buffer := by
        have hroom' : ((sent c a.log).map Prod.snd).length < (received c a.log).length + ch.capacity.toNat := by
          rw [List.length_map]; exact hroom
        have := hd.buffer.put hroom' msg
        rw [List.length_map, ← htail] at this
        rw [hmap, hrecv]; exact this
      tail := fun hn => absurd hp' (hn a.currentThread)
      tailNext := fun t _ => ⟨(sent c a.log).length, by rw [hsent]; simp, htail⟩
      head := fun _ => by rw [hrecv]; exact hd.head (hno (.recv .advance) rfl)
      headNext := fun t ht => absurd ht (hother t)
      stores := fun t i m hb => by
        rw [hlog] at hb
        rcases List.mem_cons.mp hb with he | hb
        · cases he
          rw [htail]
          refine ⟨Ring.cell_nonneg, ?_⟩
          rw [← toNat_pos hcap]
          exact Ring.cell_lt (by omega)
        · exact hd.stores t i m hb
      loads := fun t i m hb => by
        rw [hlog] at hb
        exact hd.loads t i m ((List.mem_cons.mp hb).resolve_left (by simp))
      modulo := fun n hb => by
        rw [hlog] at hb
        exact hd.modulo n ((List.mem_cons.mp hb).resolve_left (by simp)) }

theorem data_load (hi : Inv a) (h : ChanInv c a) (hm : Moves c (some .load) a b) (hc : a.chan c = some ch)
    (hlog : b.log = .load c a.currentThread ch.head (ch.buffer ch.head) :: a.log) : Data c b ch := by
  have hd := h.flow.data ch hc
  have hr := hm.running (by simp)
  obtain ⟨hp, hp'⟩ := hm.turn.of_load
  have hlt := h.available hi hc hr hp
  have hcap : 0 < ch.capacity := hd.pos (by intro he; rw [he] at hlt; cases hlt)
  have hcur := h.cur_holds hi hr (by rw [hp]; rfl)
  have hno : ∀ q : Pos, q.inside = true → ∀ t, posOf c (a.framesOf t) ≠ some q := by
    intro q hq t ht
    have := h.alone hcur ht hq
    subst this
    rw [hp] at ht
    cases ht; cases hq
  have hhead := hd.head (hno (.recv .advance) rfl)
  have hsent : sent c b.log = sent c a.log := by
    rw [hlog, sent_cons]; simp [Event.sent?]
  have hrecv : received c b.log = received c a.log ++ [(a.currentThread, ch.buffer ch.head)] := by
    rw [hlog, received_cons]; simp [Event.received?]
  have hold : ∀ {e}, e ∈ a.log → e ∈ b.log := fun he => by rw [hlog]; exact List.mem_cons_of_mem _ he
  have hother : ∀ t, posOf c (b.framesOf t) ≠ some (.send .advance) := by
    intro t ht
    by_cases htc : t = a.currentThread
    · subst htc; rw [hp'] at ht; cases ht
    · rw [hm.other t htc] at ht; exact hno (.send .advance) rfl t ht
  have hlt' : (received c a.log).length < ((sent c a.log).map Prod.snd).length := by rw [List.length_map]; exact hlt
  have hval : ch.buffer ch.head = ((sent c a.log).map Prod.snd)[(received c a.log).length] := by
    rw [hhead]; exact hd.buffer _ hlt' le_rfl
  exact
    { space := hold hd.space
      messages := hold hd.messages
      max := hd.max
      pos := fun _ => hcap
      read := by
        rw [hsent, hrecv, List.map_append, hd.read, List.length_append, List.map_singleton, hval]
        exact List.take_append_getElem hlt'
      le := by rw [hsent, hrecv, List.length_append]; exact hlt
      buffer := by
        rw [hsent, hrecv, List.length_append]
        exact hd.buffer.get
      tail := fun _ => by rw [hsent]; exact hd.tail (hno (.send .advance) rfl)
      tailNext := fun t ht => absurd ht (hother t)
      head := fun hn => absurd hp' (hn a.currentThread)
      headNext := fun t _ => ⟨(received c a.log).length, by rw [hrecv]; simp, hhead⟩
      stores := fun t i m hb => by
        rw [hlog] at hb
        exact hd.stores t i m ((List.mem_cons.mp hb).resolve_left (by simp))
      loads := fun t i m hb => by
        rw [hlog] at hb
        rcases List.mem_cons.mp hb with he | hb
        · cases he
          rw [hhead]
          refine ⟨Ring.cell_nonneg, ?_⟩
          rw [← toNat_pos hcap]
          exact Ring.cell_lt (by omega)
        · exact hd.loads t i m hb
      modulo := fun n hb => by
        rw [hlog] at hb
        exact hd.modulo n ((List.mem_cons.mp hb).resolve_left (by simp)) }

theorem data_tail (h : ChanInv c a) (hm : Moves c (some .tail) a b) (hc : a.chan c = some ch)
    (hlog : b.log = .modulo c ch.capacity :: a.log) :
    Data c b { ch with tail := (ch.tail + 1).tmod ch.capacity } := by
  have hd := h.flow.data ch hc
  obtain ⟨hp, hp'⟩ := hm.turn.of_tail
  have hcur := h.flow.inside _ _ hp rfl
  obtain ⟨n, hlen, htail⟩ := hd.tailNext _ hp
  have hcap : 0 < ch.capacity := hd.pos (by intro he; rw [he] at hlen; cases hlen)
  have hnext : (ch.tail + 1).tmod ch.capacity = Ring.cell ch.capacity.toNat (n + 1) := by
    rw [htail, ← Ring.cell_succ, toNat_pos hcap]
  have hsent : sent c b.log = sent c a.log := by
    rw [hlog, sent_cons]; simp [Event.sent?]
  have hrecv : received c b.log = received c a.log := by
    rw [hlog, received_cons]; simp [Event.received?]
  have hold : ∀ {e}, e ∈ a.log → e ∈ b.log := fun he => by rw [hlog]; exact List.mem_cons_of_mem _ he
  have hno : ∀ q : Pos, q.inside = true → q ≠ .send .unlock → ∀ t, posOf c (b.framesOf t) ≠ some q := by
    intro q hq hne t ht
    by_cases htc : t = a.currentThread
    · subst htc
      rw [hp'] at ht
      exact hne (Option.some.inj ht).symm
    · rw [hm.other t htc] at ht
      exact htc (h.alone hcur ht hq)
  have hno' : ∀ t, posOf c (a.framesOf t) ≠ some (.recv .advance) := by
    intro t ht
    have := h.alone hcur ht rfl
    subst this
    rw [hp] at ht
    cases ht
  exact
    { space := hold hd.space
      messages := hold hd.messages
      max := hd.max
      pos := fun _ => hcap
      read := by rw [hsent, hrecv]; exact hd.read
      le := by rw [hsent, hrecv]; exact hd.le
      buffer := by rw [hsent, hrecv]; exact hd.buffer
      tail := fun _ => by rw [hsent, hlen]; exact hnext
      tailNext := fun t ht => absurd ht (hno _ rfl (by simp) t)
      head := fun _ => by rw [hrecv]; exact hd.head hno'
      headNext := fun t ht => absurd ht (hno _ rfl (by simp) t)
      stores := fun t i m hb => by
        rw [hlog] at hb
        exact hd.stores t i m ((List.mem_cons.mp hb).resolve_left (by simp))
      loads := fun t i m hb => by
        rw [hlog] at hb
        exact hd.loads t i m ((List.mem_cons.mp hb).resolve_left (by simp))
      modulo := fun n hb => by
        rw [hlog] at hb
        rcases List.mem_cons.mp hb with he | hb
        · cases he; exact ⟨rfl, hcap⟩
        · exact hd.modulo n hb }

theorem data_head (h : ChanInv c a) (hm : Moves c (some .head) a b) (hc : a.chan c = some ch)
    (hlog : b.log = .modulo c ch.capacity :: a.log) :
    Data c b { ch with head := (ch.head + 1).tmod ch.capacity } := by
  have hd := h.flow.data ch hc
  obtain ⟨hp, hp'⟩ := hm.turn.of_head
  have hcur := h.flow.inside _ _ hp rfl
  obtain ⟨n, hlen, hhead⟩ := hd.headNext _ hp
  have hcap : 0 < ch.capacity := hd.pos (by intro he; have := hd.le; rw [he, hlen] at this; cases this)
  have hnext : (ch.head + 1).tmod ch.capacity = Ring.cell ch.capacity.toNat (n + 1) := by
    rw [hhead, ← Ring.cell_succ, toNat_pos hcap]
  have hsent : sent c b.log = sent c a.log := by
    rw [hlog, sent_cons]; simp [Event.sent?]
  have hrecv : received c b.log = received c a.log := by
    rw [hlog, received_cons]; simp [Event.received?]
  have hold : ∀ {e}, e ∈ a.log → e ∈ b.log := fun he => by rw [hlog]; exact List.mem_cons_of_mem _ he
  have hno : ∀ q : Pos, q.inside = true → q ≠ .recv .unlock → ∀ t, posOf c (b.framesOf t) ≠ some q := by
    intro q hq hne t ht
    by_cases htc : t = a.currentThread
    · subst htc
      rw [hp'] at ht
      exact hne (Option.some.inj ht).symm
    · rw [hm.other t htc] at ht
      exact htc (h.alone hcur ht hq)
  have hno' : ∀ t, posOf c (a.framesOf t) ≠ some (.send .advance) := by
    intro t ht
    have := h.alone hcur ht rfl
    subst this
    rw [hp] at ht
    cases ht
  exact
    { space := hold hd.space
      messages := hold hd.messages
      max := hd.max
      pos := fun _ => hcap
      read := by rw [hsent, hrecv]; exact hd.read
      le := by rw [hsent, hrecv]; exact hd.le
      buffer := by rw [hsent, hrecv]; exact hd.buffer
      head := fun _ => by rw [hrecv, hlen]; exact hnext
      headNext := fun t ht => absurd ht (hno _ rfl (by simp) t)
      tail := fun _ => by rw [hsent]; exact hd.tail hno'
      tailNext := fun t ht => absurd ht (hno _ rfl (by simp) t)
      stores := fun t i m hb => by
        rw [hlog] at hb
        exact hd.stores t i m ((List.mem_cons.mp hb).resolve_left (by simp))
      loads := fun t i m hb => by
        rw [hlog] at hb
        exact hd.loads t i m ((List.mem_cons.mp hb).resolve_left (by simp))
      modulo := fun n hb => by
        rw [hlog] at hb
        rcases List.mem_cons.mp hb with he | hb
        · cases he; exact ⟨rfl, hcap⟩
        · exact hd.modulo n hb }

theorem data_init (h : ChanInv c a) (hc : a.chan c = none) (h₁ : ch.head = 0) (h₂ : ch.tail = 0)
    (h₃ : ch.capacity ≤ uthreadChannelMaxCapacity) (h₄ : cint ch.capacity = ch.capacity) : Data c (a.chanInit c ch) ch := by
  have hlog : (a.chanInit c ch).log = .semInit (.messages c) 0 :: .semInit (.space c) (cint ch.capacity) ::
    .chanInit c ch.capacity :: a.log := rfl
  have hun := h.flow.unused hc
  have hun' : ∀ e ∈ (a.chanInit c ch).log, e.accesses c = false := by
    rw [hlog]
    intro e he
    simp only [List.mem_cons] at he
    rcases he with rfl | rfl | rfl | he
    · rfl
    · rfl
    · rfl
    · exact hun e he
  have hsent : sent c (a.chanInit c ch).log = [] := by
    have := sent_keep (l := []) hun'
    rwa [List.append_nil] at this
  have hrecv : received c (a.chanInit c ch).log = [] := by
    have := received_keep (l := []) hun'
    rwa [List.append_nil] at this
  have hsenta : sent c a.log = [] := by
    have := sent_keep (l := []) hun
    rwa [List.append_nil] at this
  have hrecva : received c a.log = [] := by
    have := received_keep (l := []) hun
    rwa [List.append_nil] at this
  have hno : ∀ t, posOf c (a.framesOf t) ≠ some (.send .advance) := by
    intro t ht
    have h₁ := h.flow.ledger .stored t
    have h₂ := count_sent (c := c) (l := a.log) (t := t)
    rw [hsenta] at h₂
    simp only [ht, Ledger.stored] at h₁
    rw [← h₂] at h₁
    simp at h₁
  have hno' : ∀ t, posOf c (a.framesOf t) ≠ some (.recv .advance) := by
    intro t ht
    have h₁ := h.flow.ledger .loaded t
    have h₂ := count_received (c := c) (l := a.log) (t := t)
    rw [hrecva] at h₂
    simp only [ht, Ledger.loaded] at h₁
    rw [← h₂] at h₁
    simp at h₁
  exact
    { space := by rw [hlog, h₄]; simp
      messages := by rw [hlog]; simp
      max := h₃
      pos := fun he => absurd hsent he
      read := by rw [hsent, hrecv]; rfl
      le := by rw [hsent, hrecv]
      buffer := by rw [hsent]; exact Ring.Holds.nil
      tail := fun _ => by rw [hsent, h₂]; simp [Ring.cell]
      tailNext := fun t ht => absurd ht (hno t)
      head := fun _ => by rw [hrecv, h₁]; simp [Ring.cell]
      headNext := fun t ht => absurd ht (hno' t)
      stores := fun t i m hb => by have := hun' _ hb; simp [Event.accesses] at this
      loads := fun t i m hb => by have := hun' _ hb; simp [Event.accesses] at this
      modulo := fun n hb => by have := hun' _ hb; simp [Event.accesses] at this }

theorem data_step (hi : Inv a) (h : ChanInv c a) (hm : Moves c k a b) (he : Effect c a b k) :
    (b.chan c = none → ∀ e ∈ b.log, e.accesses c = false) ∧ ∀ ch, b.chan c = some ch → Data c b ch := by
  cases he with
  | keep hk hchan hlog =>
    obtain ⟨es, hlog, hes⟩ := hlog
    rw [hchan]
    refine ⟨fun hc e he => ?_, fun ch hc => data_keep (h.flow.data ch hc) hm hk hlog hes⟩
    rw [hlog] at he
    rcases List.mem_append.mp he with he | he
    · exact hes e he
    · exact h.flow.unused hc e he
  | @init ch hc hb h₁ h₂ h₃ h₄ =>
    subst hb
    have hnew : (a.chanInit c ch).chan c = some ch := Function.update_self ..
    refine ⟨fun hn => ?_, fun ch' hc' => ?_⟩
    · cases hnew.symm.trans hn
    · cases hnew.symm.trans hc'
      exact h.data_init hc h₁ h₂ h₃ h₄
  | store hc hb hlog =>
    refine ⟨fun hn => ?_, fun ch' hc' => ?_⟩
    · cases hb.symm.trans hn
    · cases hb.symm.trans hc'
      exact h.data_store hi hm hc hlog
  | tail hc hb hlog =>
    refine ⟨fun hn => ?_, fun ch' hc' => ?_⟩
    · cases hb.symm.trans hn
    · cases hb.symm.trans hc'
      exact h.data_tail hm hc hlog
  | load hc hb hlog =>
    refine ⟨fun hn => ?_, fun ch' hc' => ?_⟩
    · cases hb.symm.trans hn
    · cases hb.symm.trans hc'
      exact h.data_load hi hm hc hlog
  | head hc hb hlog =>
    refine ⟨fun hn => ?_, fun ch' hc' => ?_⟩
    · cases hb.symm.trans hn
    · cases hb.symm.trans hc'
      exact h.data_head hm hc hlog

theorem step (hi : Inv a) (h : ChanInv c a) (hp : Prim a b) : ChanInv c b := by
  obtain ⟨k, hm, he⟩ := hp.chanStep hi (h.flow.fresh _ le_rfl)
  have hst := hp.sync hi
  have hlog := hst.log
  have howner := h.owner_step hst
  obtain ⟨hunused, hdata⟩ := h.data_step hi hm he
  exact
    { served := h.served.step hi hst
      held := h.held.step hi howner hst
      space := h.space.step hi h.served hst
      messages := h.messages.step hi h.served hst
      flow :=
        { ledger := fun g => (h.flow.ledger g).step hm
          fresh := fun t ht => by
            have hlt := hi.lt _ hi.cur
            have hle := hm.brk
            have hne : t ≠ a.currentThread := (hlt.trans_le (hle.trans ht)).ne'
            rw [hm.other t hne]; exact h.flow.fresh t (hle.trans ht)
          owner := howner
          space := fits_step (h.balance_space hi) h.flow.space hst
          messages := fits_step (h.balance_messages hi) h.flow.messages hst
          inside := fun t p hp hpi => h.inside_step hi hm hlog howner hp hpi
          paid := h.paid_step hi hm hlog
          earned := h.earned_step hi hm hlog
          unused := hunused
          data := hdata } }

end ChanInv

theorem chanInv_init (clock : Nat → Nat) (epollFd : Fd) (avail : Fd × IoDir → Bool) :
    ChanInv c (initAbs clock epollFd avail) := by
  have hpos : ∀ t, posOf c ((initAbs clock epollFd avail).framesOf t) = none := by
    intro t
    change posOf c (if t = 0 then [.user] else []) = none
    split <;> rfl
  exact
    { served := served_init ..
      held := ⟨.inr ⟨.inr rfl, rfl⟩, ⟨trivial, trivial⟩, ⟨trivial, trivial⟩⟩
      space := counted_init ..
      messages := counted_init ..
      flow :=
        { ledger := fun g t => by
            rw [hpos, g.idle]; rfl
          fresh := fun t _ => hpos t
          owner := ⟨trivial, trivial⟩
          space := ⟨trivial, trivial⟩
          messages := ⟨trivial, trivial⟩
          inside := fun t p hp => by rw [hpos] at hp; cases hp
          paid := fun t => Nat.zero_le _
          earned := fun t => Nat.zero_le _
          unused := fun _ e he => by cases List.mem_singleton.mp he; rfl
          data := fun ch hc => by cases hc } }

variable {s : Sys}

theorem reachable_chan (h : Sys.Reachable s) (c : Nat) : ∃ q g, Sim s q g ∧ Inv (s.abs q g) ∧ ChanInv c (s.abs q g) := by
  obtain ⟨q, g, hs, -, hc⟩ := reachable_inv (I := ChanInv c) (fun _ _ _ => chanInv_init ..)
    (fun a b hi h hp => h.step hi hp) h
  exact ⟨q, g, hs, hs.inv, hc⟩

def readFrom (c : Nat) (t : Ptr) (l : List Event) : List Msg :=
  (((sent c l).zip (received c l)).filter fun p => p.1.1 = t).map fun p => p.2.2

def sentBy (c : Nat) (t : Ptr) (l : List Event) : List Msg := ((sent c l).filter fun p => p.1 = t).map Prod.snd

theorem readFrom_prefix {xs ys : List (Ptr × Msg)} (h : ys.map Prod.snd = (xs.map Prod.snd).take ys.length) (t : Ptr) :
    (((xs.zip ys).filter fun p => p.1.1 = t).map fun p => p.2.2) <+: (xs.filter fun p => p.1 = t).map Prod.snd := by
  induction xs generalizing ys with
  | nil => simp
  | cons x xs ih =>
    cases ys with
    | nil => simp
    | cons y ys =>
      simp only [List.map_cons, List.length_cons, List.take_succ_cons, List.cons.injEq] at h
      have ih := ih h.2
      by_cases hx : x.1 = t
      · simpa [hx, h.1] using ih
      · simpa [hx] using ih

/-- A channel is a queue of at most `capacity` messages: indices are in range, nothing is taken
modulo a capacity that is not positive, and the messages are read in the order of their stores. -/
theorem channel_fifo (h : Sys.Reachable s) {c : Nat} {ch : Channel} (hc : s.chan c = some ch) :
    (∀ t i msg, .store c t i msg ∈ s.log ∨ .load c t i msg ∈ s.log → 0 ≤ i ∧ i < ch.capacity) ∧
      ch.capacity ≤ uthreadChannelMaxCapacity ∧ (∀ n, .modulo c n ∈ s.log → 0 < n) ∧
      (received c s.log).map Prod.snd <+: (sent c s.log).map Prod.snd ∧
      (sent c s.log).length ≤ (received c s.log).length + ch.capacity.toNat ∧
      ∀ t, readFrom c t s.log <+: sentBy c t s.log := by
  obtain ⟨q, g, hs, -, hf⟩ := reachable_chan h c
  have hd := hf.flow.data ch hc
  have hb := hf.bounded hc
  refine ⟨fun t i msg hm => hm.elim (hd.stores t i msg) (hd.loads t i msg), hd.max, fun n hn => (hd.modulo n hn).2, ?_, ?_,
    readFrom_prefix hd.read⟩
  · have hread : (received c s.log).map Prod.snd = ((sent c s.log).map Prod.snd).take (received c s.log).length := hd.read
    rw [hread]; exact List.take_prefix ..
  · have hb : ((sent c s.log).length : Int) ≤ (received c s.log).length + max ch.capacity 0 := hb
    omega

/-- Two messages through a channel of capacity 1; the second sender waits until the first message is read. -/
theorem channel_fifo_handed :
    let s := Sys.after (fun _ => 0) (.call (.channelInit 0 1) {} :: .call (.create 0) {} :: .resume {} :: .resume {} ::
      .call (.channelSend 0 7) {} :: List.replicate 6 (.resume {}) ++ .call .yield {} :: List.replicate 3 (.resume {}) ++
      .call (.channelSend 0 8) {} :: List.replicate 5 (.resume {}) ++ .call (.channelRecv 0) {} ::
      List.replicate 6 (.resume {}))
    received 0 s.log = [(0, 7)] ∧ (received 0 s.log).map Prod.snd <+: (sent 0 s.log).map Prod.snd :=
  ⟨by decide +kernel, (channel_fifo (Sys.reachable_after (by decide +kernel))
    (Option.some_get (by decide +kernel)).symm).2.2.2.1⟩

end Uthread
