import Uthread.Mn.LocalRep

/-!
# Where a thread is

Every thread that is neither FINISHED nor IO_BLOCKED is in exactly one place: a
list, a chain in flight, or the hands of a virtual processor.
-/

namespace Uthread

open Linked

/-- What a virtual processor is about to do with a thread in its hands. -/
inductive Hand
  -- created or woken, not yet appended to the ready queue
  | pend
  -- taken from a wait queue and still BLOCKED
  | popped
  -- taken from a queue and not yet RUNNING
  | taken
  -- `current_thread`: running, yielding, blocking and on its way to sleep
  | held
  | yielding
  | parked
  | dozing
  deriving DecidableEq

inductive Place
  | queue (i : Queue)
  | hand (k : Hand) (v : VpId)
  deriving DecidableEq

def Place.expect : Place → TState
  | .queue (.shared (.wait _)) | .hand .popped _ | .hand .parked _ => .blocked
  | .queue (.shared .sleep) | .hand .dozing _ => .ioBlocked
  | .hand .held _ => .running
  | _ => .ready

namespace Pc

def pend : Pc → List Ptr
  | .createAdd t | .createEnq t | .wakeTrace t | .enqRead t | .wakeEnq t _ => [t]
  | _ => []

def popped : Pc → List Ptr
  | .wakeMark t => [t]
  | _ => []

def taken : Pc → List Ptr
  | .dispatch t => [t]
  | _ => []

def own : Pc → Option Hand
  | .dispatchTrace _ | .switchIn _ | .user => some .held
  | .createTcb | .createAdd _ | .createEnq _ | .createTrace _ | .createRet _ | .lockSet _ | .unlockClear _ => some .held
  | .sem _ _ | .park _ | .yieldMark => some .held
  | .wakeRead _ | .pop _ _ | .wakeMark _ | .wakeTrace _ | .enqRead _ | .wakeEnq _ _ => some .held
  | .yieldTrace | .yieldEnq => some .yielding
  | .parkTrace _ | .appendRead _ | .append _ _ => some .parked
  | .sleepTrace | .sleepPush | .ioTrace _ _ | .ioAdd _ _ => some .dozing
  | _ => none

def hand (pc : Pc) (current : Option Ptr) : Hand → List Ptr
  | .pend => pc.pend
  | .popped => pc.popped
  | .taken => pc.taken
  | k => if pc.own = some k then current.toList else []

def unlisted : Pc → List Ptr
  | .createAdd t => [t]
  | _ => []

theorem pend_of_unlisted {pc : Pc} {t : Ptr} (h : t ∈ pc.unlisted) : t ∈ pc.pend := by
  cases pc with
  | createAdd => exact h
  | _ => cases h

/-- What `try_steal` keeps in its local variables between its two sections. -/
def InFlight : Pc → List Ptr → Prop
  | .attach h tl n, xs => xs.head? = some h ∧ xs.getLast? = tl ∧ n = xs.length
  | _, xs => xs = []

end Pc

namespace Mn

def places (m : Mn Lists) : Place → List Ptr
  | .queue i => m.q.q i
  | .hand k v => (m.pc v).hand (m.current v) k

variable {m : Mn Lists} {v : VpId} {pc : Pc} {t : Ptr} {k : Hand}

theorem places_own (hpc : m.pc v = pc) (hk : pc.own = some k) (hc : m.current v = some t) : m.places (.hand k v) = [t] := by
  have hne : k ≠ .pend ∧ k ≠ .popped ∧ k ≠ .taken := by
    rw [← hpc] at hk
    cases hx : m.pc v <;> rw [hx] at hk <;> cases hk <;> simp
  cases k <;> simp [places, Pc.hand, hpc, hk, hc] at hne ⊢

theorem mem_own (hpc : m.pc v = pc) (hk : pc.own = some k) (hc : m.current v = some t) : t ∈ m.places (.hand k v) := by
  rw [places_own hpc hk hc]
  exact List.mem_singleton_self t

theorem mem_taken (hpc : m.pc v = .dispatch t) : t ∈ m.places (.hand .taken v) := by
  simp [places, hpc, Pc.hand, Pc.taken]

theorem mem_popped (hpc : m.pc v = .wakeMark t) : t ∈ m.places (.hand .popped v) := by
  simp [places, hpc, Pc.hand, Pc.popped]

theorem mem_pend (ht : t ∈ (m.pc v).pend) : t ∈ m.places (.hand .pend v) := ht

end Mn

structure Placed (m : Mn Lists) : Prop where
  apart : Apart m.places
  state : ∀ {i t}, t ∈ m.places i → m.state t = i.expect
  alive : ∀ {i t}, t ∈ m.places i → m.allocated t = true
  complete : ∀ {t}, m.allocated t = true → m.state t ≠ .finished → m.state t ≠ .ioBlocked → ∃ i, t ∈ m.places i
  flight : ∀ v, (m.pc v).InFlight (m.q.q (.flight v))
  glob : m.q.glob.Nodup
  listed : ∀ t, t ∈ m.q.glob ↔ m.allocated t = true ∧ ∀ v, t ∉ (m.pc v).unlisted
  fresh : ∀ {t}, m.allocated t = true → t < m.brk

theorem Place.expect_ne (i : Place) : i.expect ≠ .finished := by
  unfold Place.expect
  split <;> simp

theorem Placed.live {m : Mn Lists} {i : Place} {t : Ptr} (h : Placed m) (ht : t ∈ m.places i) :
    m.state t ≠ .finished := by
  rw [h.state ht]
  exact i.expect_ne

/-! ## Moves -/

/-- The threads `ts` go to `j`, or out of all places; the others stay. -/
structure Moved (p p' : Place → List Ptr) (ts : List Ptr) (j : Option Place) : Prop where
  nodup : ∀ k, (p' k).Nodup
  mem : ∀ k t, t ∈ p' k ↔ (t ∉ ts ∧ t ∈ p k) ∨ (t ∈ ts ∧ j = some k)

namespace Moved

variable {p p' : Place → List Ptr} {ts xs ys : List Ptr} {i j : Place} {t : Ptr}

theorem refl (ha : Apart p) (j : Option Place) : Moved p p [] j where
  nodup := ha.nodup
  mem k t := by simp

theorem apart {j : Option Place} (ha : Apart p) (h : Moved p p' ts j) : Apart p' where
  nodup := h.nodup
  disj {k₁ k₂ t} h₁ h₂ := by
    rw [h.mem] at h₁ h₂
    obtain ⟨hn, h₁⟩ | ⟨hm, h₁⟩ := h₁ <;> obtain ⟨hn', h₂⟩ | ⟨hm', h₂⟩ := h₂
    · exact ha.disj h₁ h₂
    · exact absurd hm' hn
    · exact absurd hm hn'
    · rw [h₁] at h₂
      exact Option.some.inj h₂

theorem out (ha : Apart p) (hi : p i = ts ++ xs) : Moved p (Function.update p i xs) ts none where
  nodup := (ha.shrink (by rw [hi]; exact List.sublist_append_right ts xs)).nodup
  mem k t := by
    have hx : ∀ t, t ∈ ts → t ∉ Function.update p i xs k := fun t ht => ha.notMem_shrink hi ht k
    have hk : t ∈ Function.update p i xs k ↔ t ∉ ts ∧ t ∈ p k := by
      by_cases hki : k = i
      · subst hki
        constructor
        · intro hm
          refine ⟨fun ht => hx t ht hm, ?_⟩
          rw [Function.update_self] at hm
          rw [hi]
          exact List.mem_append_right _ hm
        · intro ⟨hn, hm⟩
          rw [hi] at hm
          rw [Function.update_self]
          exact (List.mem_append.mp hm).resolve_left hn
      · rw [Function.update_of_ne hki]
        constructor
        · intro hm
          exact ⟨fun ht => hki (ha.disj hm (by rw [hi]; simp [ht])), hm⟩
        · exact fun h => h.2
    simp [hk]

theorem into (ys : List Ptr) (ha : Apart p) (hn : ∀ k, ∀ t ∈ ts, t ∉ p k) (hy : ys.Nodup)
    (hm : ∀ t, t ∈ ys ↔ t ∈ p j ∨ t ∈ ts) :
    Moved p (Function.update p j ys) ts (some j) where
  nodup k := by
    by_cases hk : k = j
    · subst hk
      simpa using hy
    · rw [Function.update_of_ne hk]
      exact ha.nodup k
  mem k t := by
    by_cases hk : k = j
    · subst hk
      have := hn k t
      simp only [Function.update_self, hm, and_true]
      tauto
    · have hk' : ¬ some j = some k := fun e => hk (Option.some.inj e).symm
      have := hn k t
      simp only [Function.update_of_ne hk, hk', and_false, or_false]
      tauto

theorem trans {p'' : Place → List Ptr} {j : Option Place} (h : Moved p p' ts none) (h' : Moved p' p'' ts j) :
    Moved p p'' ts j where
  nodup := h'.nodup
  mem k t := by
    rw [h'.mem, h.mem]
    by_cases ht : t ∈ ts <;> simp [ht]

theorem shift (ha : Apart p) (hij : j ≠ i) (hi : p i = ts ++ xs) :
    Moved p (Function.update (Function.update p i xs) j (p j ++ ts)) ts (some j) := by
  have ho := out ha hi
  have hnd := ha.nodup i
  rw [hi] at hnd
  apply ho.trans
  apply into _ (ho.apart ha)
  · intro k t ht hm
    rw [ho.mem] at hm
    simp [ht] at hm
  · rw [List.nodup_append]
    refine ⟨ha.nodup j, (List.nodup_append.mp hnd).1, ?_⟩
    intro a hm b hb e
    subst e
    exact hij (ha.disj hm (by rw [hi]; simp [hb]))
  · intro t
    simp [Function.update_of_ne hij]

end Moved

theorem Placed.moved {m m' : Mn Lists} (ts : List Ptr) (j : Option Place) (h : Placed m)
    (hm : Moved m.places m'.places ts j) (hs : ∀ t, t ∉ ts → m.allocated t = true → m'.state t = m.state t)
    (hj : ∀ i, j = some i → ∀ t ∈ ts, m'.state t = i.expect ∧ m'.allocated t = true)
    (ho : j = none → ∀ t ∈ ts, m'.state t = .finished ∨ m'.state t = .ioBlocked)
    (ha : ∀ t, t ∉ ts → m.state t ≠ .finished → m'.allocated t = m.allocated t)
    (ha' : ∀ t, t ∉ ts → m'.allocated t = true → m.allocated t = true)
    (hf : ∀ v, (m'.pc v).InFlight (m'.q.q (.flight v))) (hg : m'.q.glob.Nodup)
    (hl : ∀ t, t ∈ m'.q.glob ↔ m'.allocated t = true ∧ ∀ v, t ∉ (m'.pc v).unlisted)
    (hb : ∀ t, m'.allocated t = true → t < m'.brk) : Placed m' where
  apart := hm.apart h.apart
  state {i t} ht := by
    rw [hm.mem] at ht
    obtain ⟨hn, ht⟩ | ⟨ht, he⟩ := ht
    · rw [hs t hn (h.alive ht)]
      exact h.state ht
    · exact (hj i he t ht).1
  alive {i t} ht := by
    rw [hm.mem] at ht
    obtain ⟨hn, ht⟩ | ⟨ht, he⟩ := ht
    · rw [ha t hn (h.live ht)]
      exact h.alive ht
    · exact (hj i he t ht).2
  complete {t} h₁ h₂ h₃ := by
    by_cases ht : t ∈ ts
    · cases j with
      | some j => exact ⟨j, (hm.mem j t).mpr (.inr ⟨ht, rfl⟩)⟩
      | none =>
        rcases ho rfl t ht with h | h
        · exact absurd h h₂
        · exact absurd h h₃
    · have hal := ha' t ht h₁
      rw [hs t ht hal] at h₂ h₃
      obtain ⟨i, hi⟩ := h.complete hal h₂ h₃
      exact ⟨i, (hm.mem i t).mpr (.inl ⟨ht, hi⟩)⟩
  flight := hf
  glob := hg
  listed := hl
  fresh {t} := hb t

end Uthread
