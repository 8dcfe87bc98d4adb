import Uthread.Mn.Machine
import Uthread.Lib.Splice
import Uthread.Lib.Apart
import Uthread.LoopRep

/-!
# Queues as lists

What the queues of M:N mode are for: lists of threads. `QRep` says that links
represent lists; the machine on lists is the one to reason about.
-/

namespace Uthread

open Linked

inductive Queue
  | shared (i : QId)
  | loc (v : VpId)
  -- the chain that `v` has detached and not attached yet
  | flight (v : VpId)
  deriving DecidableEq

structure Lists where
  q : Queue → List Ptr
  glob : List Ptr

namespace Lists

def set (i : Queue) (xs : List Ptr) (m : Lists) : Lists := { m with q := Function.update m.q i xs }

def push (i : Queue) (t : Ptr) (m : Lists) : Lists := m.set i (m.q i ++ [t])

def pop (i : Queue) (m : Lists) : Option Ptr × Lists := ((m.q i).head?, m.set i (m.q i).tail)

def shared (m : Lists) : Layout := fun i => m.q (.shared i)

instance : RunQueues Lists where
  enqueue := push (.shared .ready)
  readyTail m := (m.q (.shared .ready)).getLast?
  enqueueAt _ := push (.shared .ready)
  dequeue := pop (.shared .ready)
  vpEnqueue v := push (.loc v)
  vpDequeue v := pop (.loc v)
  localCount m v := (m.q (.loc v)).length
  steal thief victim n m :=
    let stolen := (m.q (.loc victim)).take n
    (⟨stolen.length, stolen.head?, stolen.getLast?⟩,
      (m.set (.loc victim) ((m.q (.loc victim)).drop n)).set (.flight thief) stolen)
  attach thief _ _ _ m := (m.set (.flight thief) []).set (.loc thief) (m.q (.loc thief) ++ m.q (.flight thief))
  setVpId _ _ m := m
  waitHead m w := (m.q (.shared (.wait w))).head?
  waitTail m w := (m.q (.shared (.wait w))).getLast?
  waitAppendAt w _ := push (.shared (.wait w))
  waitPop w _ m := (m.pop (.shared (.wait w))).2
  sleepPush t m := m.set (.shared .sleep) (t :: m.q (.shared .sleep))
  globalListAdd t m := { m with glob := t :: m.glob }
  gc dead _ m := (m.glob.filter dead, { m with glob := m.glob.filter fun t => !dead t })
  hasLive st _ m := m.glob.any fun t => st t ≠ .finished

section
variable {m : Lists} {i j : Queue} {k : QId} {v : VpId} {xs : List Ptr}

@[simp] theorem set_q : (m.set i xs).q = Function.update m.q i xs := rfl

@[simp] theorem set_glob : (m.set i xs).glob = m.glob := rfl

theorem shared_set : (m.set (.shared k) xs).shared = Function.update m.shared k xs := by
  funext j
  by_cases h : j = k
  · subst h
    simp [shared]
  · have h' : Queue.shared j ≠ Queue.shared k := by simpa using h
    simp [shared, Function.update_of_ne h, Function.update_of_ne h']

theorem shared_set_loc : (m.set (.loc v) xs).shared = m.shared := by
  funext j
  simp [shared]

theorem shared_set_flight : (m.set (.flight v) xs).shared = m.shared := by
  funext j
  simp [shared]

theorem shared_ok (h : Apart m.q) : m.shared.Ok where
  nodup i := h.nodup (.shared i)
  disj hi hj := Queue.shared.inj (h.disj hi hj)

end

end Lists

/-! ## Links that represent lists -/

structure QRep (l : MnLinks) (m : Lists) : Prop where
  shared : Rep l.toLinks m.shared m.glob
  loc : ∀ v, Chain l.next (l.localHead v) (m.q (.loc v))
  localTail : ∀ v, l.localTail v = (m.q (.loc v)).getLast?
  localCount : ∀ v, l.localCount v = (m.q (.loc v)).length
  flight : ∀ v, Chain l.next (m.q (.flight v)).head? (m.q (.flight v))

theorem Rep.of_next {l : Links} {q : Layout} {g : List Ptr} {next' : Ptr → Option Ptr} (hr : Rep l q g)
    (hn : ∀ i, ∀ x ∈ q i, l.next x = next' x) : Rep { l with next := next' } q g where
  chain i := by
    have h := (seg_congr (hn i)).mp (hr.chain i)
    cases i <;> exact h
  tail i hi := by
    have h := hr.tail i hi
    cases i <;> exact h
  count := hr.count
  glob := hr.glob

section
variable {l l' : MnLinks} {m m' : Lists} {t : Ptr} {w : WaitObj} {v : VpId}

theorem QRep.of_links {f : Links → Links} (h : QRep l m) (hs : Rep (f l.toLinks) m'.shared m'.glob)
    (hq : ∀ v, m'.q (.loc v) = m.q (.loc v) ∧ m'.q (.flight v) = m.q (.flight v))
    (hn : ∀ v, ∀ x ∈ m.q (.loc v) ++ m.q (.flight v), l.next x = (f l.toLinks).next x) : QRep (l.on f) m' where
  shared := hs
  loc v := by
    rw [(hq v).1]
    exact (seg_congr fun x hx => hn v x (by simp [hx])).mp (h.loc v)
  localTail v := by rw [(hq v).1]; exact h.localTail v
  localCount v := by rw [(hq v).1]; exact h.localCount v
  flight v := by
    rw [(hq v).2]
    exact (seg_congr fun x hx => hn v x (by simp [hx])).mp (h.flight v)

theorem Links.enqueue_next {l : Links} {x : Ptr} (ht : x ≠ t) (hx : l.readyTail ≠ some x) :
    l.next x = (l.enqueue t).next x := by
  unfold Links.enqueue Links.setNext
  cases h : l.readyTail with
  | none => simp [Function.update_of_ne ht]
  | some y =>
    have hy : x ≠ y := fun e => hx (by rw [h, e])
    simp [Function.update_of_ne ht, Function.update_of_ne hy]

theorem Links.waitAppend_next {l : Links} {x : Ptr} (ht : x ≠ t) (hx : l.waitTail w ≠ some x) :
    l.next x = (l.waitAppend w t).next x := by
  unfold Links.waitAppend Links.setNext
  cases h : l.waitTail w with
  | none => simp [h, Function.update_of_ne ht]
  | some y =>
    have hy : x ≠ y := fun e => hx (by rw [h, e])
    simp [h, Function.update_of_ne ht, Function.update_of_ne hy]

theorem Links.dequeue_next {l : Links} {x : Ptr} (hx : l.readyHead ≠ some x) : l.next x = l.dequeue.2.next x := by
  unfold Links.dequeue Links.setNext
  cases h : l.readyHead with
  | none => rfl
  | some y =>
    have hy : x ≠ y := fun e => hx (by rw [h, e])
    dsimp only
    split <;> simp [Function.update_of_ne hy]

theorem Links.waitPop_next {l : Links} {x : Ptr} (hx : x ≠ t) : l.next x = (l.waitPop w t).next x := by
  unfold Links.waitPop Links.setNext
  dsimp only
  split <;> simp [Function.update_of_ne hx]

theorem Lists.push_local {k : QId} (v : VpId) : (m.push (.shared k) t).q (.loc v) = m.q (.loc v) ∧
    (m.push (.shared k) t).q (.flight v) = m.q (.flight v) := by
  simp [Lists.push]

namespace QRep

theorem local_ne (ha : Apart m.q) {x y : Ptr} {k : QId} (hx : x ∈ m.q (.loc v) ++ m.q (.flight v))
    (hy : y ∈ m.q (.shared k)) : x ≠ y := by
  intro e
  subst e
  rcases List.mem_append.mp hx with hx | hx
  · have := ha.disj hx hy; cases this
  · have := ha.disj hx hy; cases this

theorem enqueue (ha : Apart m.q) (h : QRep l m) (ht : ∀ i, t ∉ m.q i) :
    QRep (l.on (·.enqueue t)) (m.push (.shared .ready) t) := by
  apply h.of_links
  · have hr := h.shared.enqueue (Lists.shared_ok ha) (t := t) fun j => ht (.shared j)
    rw [Lists.push, Lists.shared_set]
    exact hr
  · intro v
    exact Lists.push_local v
  · intro v x hx
    apply Links.enqueue_next
    · intro e
      subst e
      rcases List.mem_append.mp hx with hx | hx
      · exact ht _ hx
      · exact ht _ hx
    · have htl : l.readyTail = (m.shared .ready).getLast? := h.shared.tail .ready (by simp)
      rw [htl]
      intro he
      exact local_ne ha hx (List.mem_of_getLast? he) rfl

theorem waitAppend (ha : Apart m.q) (h : QRep l m) (ht : ∀ i, t ∉ m.q i) :
    QRep (l.on (·.waitAppend w t)) (m.push (.shared (.wait w)) t) := by
  apply h.of_links
  · have hr := h.shared.waitAppend (w := w) (Lists.shared_ok ha) (t := t) fun j => ht (.shared j)
    rw [Lists.push, Lists.shared_set]
    exact hr
  · intro v
    exact Lists.push_local v
  · intro v x hx
    apply Links.waitAppend_next
    · intro e
      subst e
      rcases List.mem_append.mp hx with hx | hx
      · exact ht _ hx
      · exact ht _ hx
    · have htl : l.waitTail w = (m.shared (.wait w)).getLast? := h.shared.tail (.wait w) (by simp)
      rw [htl]
      intro he
      exact local_ne ha hx (List.mem_of_getLast? he) rfl

theorem readyTail (h : QRep l m) : l.readyTail = (m.q (.shared .ready)).getLast? := h.shared.tail .ready (by simp)

theorem waitTail (h : QRep l m) : l.waitTail w = (m.q (.shared (.wait w))).getLast? := h.shared.tail (.wait w) (by simp)

theorem enqueueAt {tail : Option Ptr} (ha : Apart m.q) (h : QRep l m) (ht : ∀ i, t ∉ m.q i) (htl : l.readyTail = tail) :
    QRep (l.on (·.enqueueAt tail t)) (m.push (.shared .ready) t) := by
  subst htl
  exact h.enqueue ha ht

theorem waitAppendAt {tail : Option Ptr} (ha : Apart m.q) (h : QRep l m) (ht : ∀ i, t ∉ m.q i) (htl : l.waitTail w = tail) :
    QRep (l.on (·.waitAppendAt w tail t)) (m.push (.shared (.wait w)) t) := by
  subst htl
  exact h.waitAppend ha ht

theorem drop_head {q : Layout} {i : QId} {ts : List Ptr} (h : q i = t :: ts) : q.drop i t = Function.update q i ts := by
  simp [Layout.drop, h]

theorem dequeue (ha : Apart m.q) (h : QRep l m) :
    l.dequeue.1 = (m.pop (.shared .ready)).1 ∧ QRep l.dequeue.2 (m.pop (.shared .ready)).2 := by
  have hl : l.dequeue.2 = l.on fun k => k.dequeue.2 := rfl
  rw [hl]
  cases hx : m.shared .ready with
  | nil =>
    have hx' : m.q (.shared .ready) = [] := hx
    have hd := h.shared.dequeue_nil hx
    constructor
    · simp [MnLinks.dequeue, hd, Lists.pop, hx']
    · have he : (m.pop (.shared .ready)).2 = m := by
        simp only [Lists.pop, Lists.set, hx', List.tail_nil]
        rw [← hx', Function.update_eq_self]
      rw [he]
      apply h.of_links
      · simpa only [hd] using h.shared
      · exact fun v => ⟨rfl, rfl⟩
      · intro v x _
        rw [hd]
  | cons t ts =>
    have hx' : m.q (.shared .ready) = t :: ts := hx
    obtain ⟨h₁, h₂⟩ := h.shared.dequeue (Lists.shared_ok ha) hx
    constructor
    · simp [MnLinks.dequeue, h₁, Lists.pop, hx']
    · apply h.of_links
      · rw [drop_head hx] at h₂
        simp only [Lists.pop, hx', List.tail_cons, Lists.shared_set, Lists.set_glob]
        exact h₂
      · intro v
        simp [Lists.pop]
      · intro v x hm
        apply Links.dequeue_next
        have hh : l.readyHead = (m.shared .ready).head? := chain_head (h.shared.chain .ready)
        rw [hh, hx]
        intro he
        cases he
        exact local_ne ha hm (by rw [hx']; simp) rfl

theorem waitHead (h : QRep l m) : l.waitHead w = (m.q (.shared (.wait w))).head? := h.shared.waitHead_eq

theorem waitPop {ts : List Ptr} (ha : Apart m.q) (h : QRep l m) (hx : m.q (.shared (.wait w)) = t :: ts) :
    QRep (l.on (·.waitPop w t)) (m.pop (.shared (.wait w))).2 := by
  apply h.of_links
  · have hr := h.shared.waitPop (Lists.shared_ok ha) hx
    rw [drop_head hx] at hr
    simp only [Lists.pop, hx, List.tail_cons, Lists.shared_set, Lists.set_glob]
    exact hr
  · intro v
    simp [Lists.pop]
  · intro v x hm
    apply Links.waitPop_next
    exact local_ne ha hm (by rw [hx]; simp)

theorem sleepPush (h : QRep l m) (ht : ∀ i, t ∉ m.q i) :
    QRep (l.on (·.sleepPush t)) (m.set (.shared .sleep) (t :: m.q (.shared .sleep))) := by
  apply h.of_links
  · have hr := h.shared.sleepPush (t := t) fun j => ht (.shared j)
    rw [Lists.shared_set]
    exact hr
  · intro v
    simp
  · intro v x hx
    have hxt : x ≠ t := by
      intro e
      subst e
      rcases List.mem_append.mp hx with hx | hx
      · exact ht _ hx
      · exact ht _ hx
    exact (Function.update_of_ne hxt _ _).symm

/-! ## The global list -/

theorem globalListAdd (h : QRep l m) (ht : t ∉ m.glob) (hn : m.glob.Nodup) :
    QRep (l.on (·.globalListAdd t)) { m with glob := t :: m.glob } := by
  apply h.of_links
  · exact h.shared.globalListAdd ht hn
  · exact fun v => ⟨rfl, rfl⟩
  · intro v x _
    unfold Links.globalListAdd
    dsimp only
    split <;> rfl

theorem hasLive (h : QRep l m) {st : Ptr → TState} {n : Nat} (hn : m.glob.length ≤ n) :
    l.toLinks.hasLive st n l.globalThreadList = m.glob.any fun t => st t ≠ .finished := by
  rw [Bool.eq_iff_iff, hasLive_iff h.shared.glob.fwd hn]
  simp

end QRep

/-- With `xs` already passed, the collection removes the dead threads from `ys`. -/
theorem gcLoop_rep (dead : Ptr → Bool) {q : Layout} : ∀ {ys xs : List Ptr} {n : Nat} {l : Links},
    Rep l q (xs ++ ys) → (xs ++ ys).Nodup → ys.length ≤ n →
    (l.gcLoop dead n ys.head?).1 = ys.filter dead ∧
      Rep (l.gcLoop dead n ys.head?).2 q (xs ++ ys.filter fun t => !dead t) ∧
      (l.gcLoop dead n ys.head?).2.next = l.next
  | [], xs, n, l, hr, _, _ => by
    have he : l.gcLoop dead n none = ([], l) := by cases n <;> rfl
    simp only [List.head?_nil, he, List.filter_nil, true_and, and_true]
    exact hr
  | y :: ys, xs, 0, l, _, _, hn => by simp at hn
  | y :: ys, xs, n + 1, l, hr, hg, hn => by
    have hy : l.globalNext y = ys.head? := chain_next hr.glob.fwd
    have hlen : ys.length ≤ n := by simpa using hn
    simp only [List.head?_cons, Links.gcLoop, hy]
    cases hd : dead y with
    | true =>
      have hg' : (xs ++ ys).Nodup := by
        rw [List.nodup_middle] at hg
        exact (List.nodup_cons.mp hg).2
      obtain ⟨h₁, h₂, h₃⟩ := gcLoop_rep dead (hr.globalListRemove hg) hg' hlen
      have hnext : (l.globalListRemove y).next = l.next := by
        unfold Links.globalListRemove
        dsimp only
        split <;> split <;> rfl
      simp only [ite_true, h₁, List.filter_cons, hd, Bool.not_true, Bool.false_eq_true, ite_false, true_and]
      exact ⟨h₂, h₃.trans hnext⟩
    | false =>
      have hr' : Rep l q ((xs ++ [y]) ++ ys) := by simpa using hr
      obtain ⟨h₁, h₂, h₃⟩ := gcLoop_rep dead hr' (by simpa using hg) hlen
      simp only [Bool.false_eq_true, ite_false, h₁, List.filter_cons, hd, Bool.not_false, ite_true, true_and]
      exact ⟨by simpa using h₂, h₃⟩

theorem QRep.gc (h : QRep l m) (hg : m.glob.Nodup) (dead : Ptr → Bool) {n : Nat} (hn : m.glob.length ≤ n) :
    (l.gc dead n).1 = m.glob.filter dead ∧
      QRep (l.gc dead n).2 { m with glob := m.glob.filter fun t => !dead t } := by
  have hh : l.globalThreadList = m.glob.head? := chain_head h.shared.glob.fwd
  obtain ⟨h₁, h₂, h₃⟩ := gcLoop_rep dead
    (show Rep l.toLinks m.shared ([] ++ m.glob) from h.shared) hg hn
  rw [← hh] at h₁ h₂ h₃
  refine ⟨h₁, ?_⟩
  have he : (l.gc dead n).2 = l.on fun k => (k.gcLoop dead n k.globalThreadList).2 := rfl
  rw [he]
  apply h.of_links
  · exact h₂
  · exact fun v => ⟨rfl, rfl⟩
  · intro v x _
    rw [h₃]

end

end Uthread
