import Uthread.LoopRep
import Mathlib.Data.List.MinMax

/-!
# The ready queue refines a list

The ready queue by itself, in a heap in which everything else is arbitrary:
whatever sequence of its four operations is performed, each of them acts on the
represented list, and on no TCB that is not in the list.
-/

namespace Uthread

open Linked

variable {l l' : Links} {t : Ptr} {xs ys zs : List Ptr} {tcb : Tcbs} {n : Nat}

/-- `ready_head`, `ready_tail`, `ready_count` and the `next` fields represent `xs`. -/
structure ReadyQueue (l : Links) (xs : List Ptr) : Prop where
  chain : Chain l.next l.readyHead xs
  nodup : xs.Nodup
  tail : l.readyTail = xs.getLast?
  null : l.readyTail = none ↔ xs = []
  count : l.readyCount = xs.length

/-- What an operation that turns the queue `xs` into `ys` does to the heap. -/
structure Changes (l l' : Links) (xs ys : List Ptr) : Prop where
  queue : ReadyQueue l' ys
  -- a TCB that was taken out
  removed : ∀ t ∈ xs, t ∉ ys → l'.next t = none
  -- a TCB outside the queue
  outside : ∀ t, t ∉ xs → t ∉ ys → l'.next t = l.next t
  rest : ∃ nx h tl k, l' = { l with next := nx, readyHead := h, readyTail := tl, readyCount := k }

theorem ReadyQueue.of (hc : Chain l.next l.readyHead xs) (hn : xs.Nodup) (ht : l.readyTail = xs.getLast?)
    (hk : l.readyCount = xs.length) : ReadyQueue l xs where
  chain := hc
  nodup := hn
  tail := ht
  null := by rw [ht, List.getLast?_eq_none_iff]
  count := hk

theorem ReadyQueue.same (h : ReadyQueue l xs) : Changes l l xs xs where
  queue := h
  removed _ ht hn := absurd ht hn
  outside _ _ _ := rfl
  rest := ⟨_, _, _, _, rfl⟩

/-! ## The operations on links -/

theorem ReadyQueue.enqueue (h : ReadyQueue l xs) (ht : t ∉ xs) : Changes l (l.enqueue t) xs (xs ++ [t]) := by
  have he : l.enqueue t = { l with
      next := relink (Function.update l.next t none) xs.getLast? (some t)
      readyHead := entry xs.getLast? l.readyHead (some t)
      readyTail := some t
      readyCount := l.readyCount + 1 } := by
    have hset : (l.setNext t none).readyTail = l.readyTail := rfl
    rw [← h.tail]
    unfold Links.enqueue
    simp only [hset]
    cases l.readyTail <;> rfl
  have hn : (xs ++ [t]).Nodup := by
    rw [List.nodup_append]
    refine ⟨h.nodup, by simp, fun a ha b hb => ?_⟩
    obtain rfl := List.mem_singleton.mp hb
    exact fun e => ht (e ▸ ha)
  rw [he]
  refine ⟨.of (chain_append h.nodup ht h.chain) hn (by simp) (by simp [h.count]), ?_, ?_, ⟨_, _, _, _, rfl⟩⟩
  · intro u hu hno
    exact absurd (List.mem_append_left _ hu) hno
  · intro u hu hno
    have hut : u ≠ t := fun e => hno (by simp [e])
    change relink (Function.update l.next t none) xs.getLast? (some t) u = l.next u
    cases hl : xs.getLast? with
    | none => exact Function.update_of_ne hut ..
    | some z =>
      -- only the last TCB of the queue is redirected
      have huz : u ≠ z := fun e => hu (e ▸ List.mem_of_getLast? hl)
      exact (Function.update_of_ne huz ..).trans (Function.update_of_ne hut ..)

theorem ReadyQueue.unlink (h : ReadyQueue l (xs ++ t :: ys))
    (hl : l' = { l with
      next := Function.update (relink l.next xs.getLast? (l.next t)) t none
      readyHead := entry xs.getLast? l.readyHead (l.next t)
      readyTail := if l.readyTail = some t then xs.getLast? else l.readyTail
      readyCount := l.readyCount - 1 }) : Changes l l' (xs ++ t :: ys) (xs ++ ys) := by
  have hn : t ∉ xs ++ ys ∧ (xs ++ ys).Nodup := List.nodup_cons.mp (List.nodup_middle.mp h.nodup)
  have htail : (if l.readyTail = some t then xs.getLast? else l.readyTail) = (xs ++ ys).getLast? := by
    rw [h.tail]
    rcases List.eq_nil_or_concat ys with rfl | ⟨zs, z, rfl⟩
    · simp
    · have hz : z ≠ t := fun e => hn.1 (by simp [e])
      simp only [List.concat_eq_append, ← List.cons_append, ← List.append_assoc, List.getLast?_concat]
      exact if_neg (by simpa using hz)
  subst hl
  refine ⟨.of ?_ hn.2 htail ?_, ?_, ?_, ⟨_, _, _, _, rfl⟩⟩
  · exact (seg_update hn.1).mpr (chain_remove h.nodup h.chain)
  · simp [h.count]
    omega
  · intro u hu hno
    have hut : u = t := by
      by_contra hne
      exact hno (by simpa [hne] using hu)
    subst hut
    exact Function.update_self ..
  · intro u hu hno
    have hut : u ≠ t := fun e => hu (by simp [e])
    refine (Function.update_of_ne hut ..).trans ?_
    cases hl : xs.getLast? with
    | none => rfl
    | some z =>
      -- only the predecessor is redirected
      have huz : u ≠ z := fun e => hno (by simp [e, List.mem_of_getLast? hl])
      exact Function.update_of_ne huz ..

theorem ReadyQueue.dequeue (h : ReadyQueue l (t :: ys)) :
    l.dequeue.1 = some t ∧ Changes l l.dequeue.2 (t :: ys) ys := by
  have hh : l.readyHead = some t := h.chain.1
  have hnext : l.next t = ys.head? := chain_head h.chain.2
  -- the tail is `t` just when `t` has no successor
  have htail : (if l.next t = none then none else l.readyTail) = if l.readyTail = some t then none else l.readyTail := by
    rw [hnext, h.tail]
    cases ys with
    | nil => simp
    | cons u us =>
      have hne : (t :: u :: us).getLast? ≠ some t := by
        rw [List.getLast?_cons_cons]
        exact fun he => (List.nodup_cons.mp h.nodup).1 (List.mem_of_getLast? he)
      rw [if_neg (by simp), if_neg hne]
  have he : l.dequeue = (some t, { l with
      next := Function.update l.next t none
      readyHead := l.next t
      readyTail := if l.next t = none then none else l.readyTail
      readyCount := l.readyCount - 1 }) := by
    unfold Links.dequeue
    simp only [hh]
    split
    · simp [Links.setNext]
    · simp [Links.setNext]
  rw [he]
  refine ⟨rfl, ReadyQueue.unlink (show ReadyQueue l ([] ++ t :: ys) from h) ?_⟩
  rw [htail]
  rfl

theorem ReadyQueue.remove (h : ReadyQueue l xs) (hn : xs.length ≤ n) :
    Changes l (l.removeFromReadyQueue n t) xs (xs.erase t) := by
  by_cases ht : t ∈ xs
  · obtain ⟨ys, zs, rfl, hys⟩ := List.eq_append_cons_of_mem ht
    have hlen : ys.length < n := by
      simp at hn
      omega
    rw [removeFromReadyQueue_eq h.chain hys hlen, List.erase_append_right _ hys, List.erase_cons_head]
    refine h.unlink ?_
    rw [removeAt_rest, removeAt_next, removeAt_head, removeAt_tail]
  · rw [List.erase_of_not_mem ht]
    unfold Links.removeFromReadyQueue
    rw [removeLoop_notMem h.chain ht]
    exact h.same

/-! ## The minimum -/

def least (tcb : Tcbs) (xs : List Ptr) : Option Ptr := (xs.filter (tcb.state · = .ready)).argmin (rank tcb)

theorem foldl_bestStep_eq : xs.foldl (Links.bestStep tcb) none = least tcb xs := by
  unfold least List.argmin
  rw [List.foldl_filter]
  congr
  funext b x
  by_cases hx : tcb.state x = .ready
  · cases b with
    | none => simp [Links.bestStep, hx, List.argAux]
    | some b => simp [bestStep_some hx, hx, List.argAux]
  · simp [Links.bestStep, hx]

theorem ReadyQueue.priorityNext (h : ReadyQueue l xs) (hn : xs.length ≤ n) :
    (l.priorityNext n tcb).1 = least tcb xs ∧
      Changes l (l.priorityNext n tcb).2 xs (match least tcb xs with
        | some best => xs.erase best
        | none => xs) := by
  have hbest : l.bestLoop tcb n none l.readyHead = least tcb xs := (bestLoop_eq h.chain hn).trans foldl_bestStep_eq
  unfold Links.priorityNext
  rw [hbest]
  cases least tcb xs with
  | none => exact ⟨rfl, h.same⟩
  | some best => exact ⟨rfl, h.remove hn⟩

/-! ## Sequences of operations -/

inductive ReadyOp
  | enqueue (tcb : Ptr)
  | dequeue
  | removeFromReadyQueue (target : Ptr)
  -- with the states, priorities and creation orders that the TCBs have at that moment
  | priorityNext (tcb : Tcbs)

namespace ReadyOp

/-- The result and the heap; `n` bounds the iterations of the loops. -/
def run (n : Nat) (l : Links) : ReadyOp → Option Ptr × Links
  | .enqueue tcb => (none, l.enqueue tcb)
  | .dequeue => l.dequeue
  | .removeFromReadyQueue target => (none, l.removeFromReadyQueue n target)
  | .priorityNext tcb => l.priorityNext n tcb

def onList (xs : List Ptr) : ReadyOp → Option Ptr × List Ptr
  | .enqueue tcb => (none, xs ++ [tcb])
  | .dequeue => (xs.head?, xs.tail)
  | .removeFromReadyQueue target => (none, xs.erase target)
  | .priorityNext tcb =>
    (least tcb xs, match least tcb xs with
      | some best => xs.erase best
      | none => xs)

/-- A TCB that is enqueued is not linked. -/
def Allowed (xs : List Ptr) : ReadyOp → Prop
  | .enqueue tcb => tcb ∉ xs
  | _ => True

def runAll (n : Nat) (l : Links) (ops : List ReadyOp) : Links := ops.foldl (fun l op => (op.run n l).2) l

def onLists (xs : List Ptr) (ops : List ReadyOp) : List Ptr := ops.foldl (fun xs op => (op.onList xs).2) xs

def AllAllowed : List Ptr → List ReadyOp → Prop
  | _, [] => True
  | xs, op :: ops => op.Allowed xs ∧ AllAllowed (op.onList xs).2 ops

theorem refines {op : ReadyOp} (h : ReadyQueue l xs) (ha : op.Allowed xs) (hn : xs.length ≤ n) :
    (op.run n l).1 = (op.onList xs).1 ∧ Changes l (op.run n l).2 xs (op.onList xs).2 := by
  cases op with
  | enqueue t => exact ⟨rfl, h.enqueue ha⟩
  | removeFromReadyQueue t => exact ⟨rfl, h.remove hn⟩
  | priorityNext tcb => exact h.priorityNext hn
  | dequeue =>
    cases xs with
    | cons t ys => exact h.dequeue
    | nil =>
      have hh : l.readyHead = none := h.chain
      have he : l.dequeue = (none, l) := by
        unfold Links.dequeue
        simp only [hh]
      change l.dequeue.1 = none ∧ Changes l l.dequeue.2 [] []
      rw [he]
      exact ⟨rfl, h.same⟩

theorem onList_length {op : ReadyOp} : (op.onList xs).2.length ≤ xs.length + 1 := by
  cases op with
  | enqueue t => simp [onList]
  | dequeue =>
    simp only [onList, List.length_tail]
    omega
  | removeFromReadyQueue t => exact (List.length_erase_le).trans (Nat.le_succ _)
  | priorityNext tcb =>
    simp only [onList]
    split
    · exact (List.length_erase_le).trans (Nat.le_succ _)
    · exact Nat.le_succ _

theorem refines_all : ∀ {ops : List ReadyOp} {l : Links} {xs : List Ptr}, ReadyQueue l xs → AllAllowed xs ops →
    xs.length + ops.length ≤ n →
    ReadyQueue (runAll n l ops) (onLists xs ops) ∧ (onLists xs ops).length ≤ xs.length + ops.length
  | [], l, xs, h, _, _ => ⟨h, Nat.le_refl _⟩
  | op :: ops, l, xs, h, ha, hn => by
    simp only [List.length_cons] at hn
    obtain ⟨-, hc⟩ := refines h ha.1 (n := n) (by omega)
    have hle : (op.onList xs).2.length ≤ xs.length + 1 := onList_length
    obtain ⟨hq, hl⟩ := refines_all hc.queue ha.2 (by omega)
    refine ⟨hq, hl.trans ?_⟩
    simp only [List.length_cons]
    omega

end ReadyOp

/-- After every sequence of operations the ready queue is a list, and the next operation answers as on that
list, changes it as on that list, and leaves all other TCBs alone. -/
theorem ready_queue_refines (h : ReadyQueue l xs) (ops : List ReadyOp) (op : ReadyOp)
    (ha : ReadyOp.AllAllowed xs ops) (hop : op.Allowed (ReadyOp.onLists xs ops)) (hn : xs.length + ops.length ≤ n) :
    ReadyQueue (ReadyOp.runAll n l ops) (ReadyOp.onLists xs ops) ∧
      (op.run n (ReadyOp.runAll n l ops)).1 = (op.onList (ReadyOp.onLists xs ops)).1 ∧
      Changes (ReadyOp.runAll n l ops) (op.run n (ReadyOp.runAll n l ops)).2 (ReadyOp.onLists xs ops)
        (op.onList (ReadyOp.onLists xs ops)).2 := by
  obtain ⟨hq, hl⟩ := ReadyOp.refines_all h ha hn
  exact ⟨hq, ReadyOp.refines hq hop (hl.trans hn)⟩

/-- The tail is taken out, and another TCB is appended. -/
theorem ready_queue_refines_tail :
    let l : Links :=
      { next := fun _ => none, readyHead := none, readyTail := none, readyCount := 0, waitHead := fun _ => none
        waitTail := fun _ => none, sleepListHead := none, globalThreadList := none, globalNext := fun _ => none
        globalPrev := fun _ => none }
    let l' := ReadyOp.runAll 4 l [.enqueue 1, .enqueue 2, .enqueue 3, .removeFromReadyQueue 3]
    ReadyQueue l' [1, 2] ∧ (ReadyOp.run 4 l' (.enqueue 4)).1 = none ∧
      Changes l' (ReadyOp.run 4 l' (.enqueue 4)).2 [1, 2] [1, 2, 4] := by
  intro l
  have h : ReadyQueue l [] := .of rfl List.nodup_nil rfl rfl
  exact ready_queue_refines h [.enqueue 1, .enqueue 2, .enqueue 3, .removeFromReadyQueue 3] (.enqueue 4)
    (by simp [ReadyOp.AllAllowed, ReadyOp.Allowed, ReadyOp.onList])
    (by simp [ReadyOp.Allowed, ReadyOp.onLists, ReadyOp.onList]) (by simp)

end Uthread
