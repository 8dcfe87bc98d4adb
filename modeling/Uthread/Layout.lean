import Uthread.Links
import Uthread.Lib.DList

/-!
# The lists behind the links

A layout gives the contents of every list that uses the `next` field. `Rep`
says that links represent a layout; each operation on links acts on the
represented lists as an operation on lists.
-/

namespace Uthread

open Linked

inductive QId
  | ready | sleep | wait (w : WaitObj)
  deriving DecidableEq

abbrev Layout := QId → List Ptr

namespace Layout

/-- No TCB is twice on a list or on two lists. -/
structure Ok (q : Layout) : Prop where
  nodup : ∀ i, (q i).Nodup
  disj : ∀ {i j t}, t ∈ q i → t ∈ q j → i = j

def push (q : Layout) (i : QId) (t : Ptr) : Layout := Function.update q i (q i ++ [t])

def pushFront (q : Layout) (i : QId) (t : Ptr) : Layout := Function.update q i (t :: q i)

def drop (q : Layout) (i : QId) (t : Ptr) : Layout := Function.update q i ((q i).erase t)

section
variable {q : Layout} {i j : QId} {t u : Ptr}

theorem push_self : (q.push i t) i = q i ++ [t] := Function.update_self ..

theorem push_of_ne (h : j ≠ i) : (q.push i t) j = q j := Function.update_of_ne h ..

theorem pushFront_self : (q.pushFront i t) i = t :: q i := Function.update_self ..

theorem pushFront_of_ne (h : j ≠ i) : (q.pushFront i t) j = q j := Function.update_of_ne h ..

theorem drop_self : (q.drop i t) i = (q i).erase t := Function.update_self ..

theorem drop_of_ne (h : j ≠ i) : (q.drop i t) j = q j := Function.update_of_ne h ..

theorem mem_push : u ∈ (q.push i t) j ↔ u ∈ q j ∨ (j = i ∧ u = t) := by
  by_cases h : j = i
  · subst h; simp [push_self]
  · simp [push_of_ne h, h]

theorem mem_pushFront : u ∈ (q.pushFront i t) j ↔ u ∈ q j ∨ (j = i ∧ u = t) := by
  by_cases h : j = i
  · subst h; simp [pushFront_self, or_comm]
  · simp [pushFront_of_ne h, h]

theorem Ok.mem_drop (hq : q.Ok) : u ∈ (q.drop i t) j ↔ u ∈ q j ∧ ¬ (j = i ∧ u = t) := by
  by_cases h : j = i
  · subst h
    rw [drop_self, (hq.nodup j).mem_erase_iff]
    simp [and_comm]
  · simp [drop_of_ne h, h]

theorem Ok.notMem_drop (hq : q.Ok) (ht : t ∈ q i) (k : QId) : t ∉ (q.drop i t) k := by
  rw [hq.mem_drop]
  exact fun h => h.2 ⟨hq.disj h.1 ht, rfl⟩

theorem Ok.push (hq : q.Ok) (ht : ∀ k, t ∉ q k) : (q.push i t).Ok where
  nodup j := by
    by_cases h : j = i
    · subst h
      rw [push_self, List.nodup_append]
      exact ⟨hq.nodup j, by simp, fun a ha b hb => by simp at hb; exact fun e => ht j (hb ▸ e ▸ ha)⟩
    · rw [push_of_ne h]; exact hq.nodup j
  disj {j k u} hj hk := by
    rcases mem_push.mp hj with hj | ⟨rfl, rfl⟩ <;> rcases mem_push.mp hk with hk | ⟨hk, hk'⟩
    · exact hq.disj hj hk
    · exact absurd hj (hk' ▸ ht j)
    · exact absurd hk (ht k)
    · exact hk.symm

theorem Ok.pushFront (hq : q.Ok) (ht : ∀ k, t ∉ q k) : (q.pushFront i t).Ok where
  nodup j := by
    by_cases h : j = i
    · subst h; rw [pushFront_self]; exact List.nodup_cons.mpr ⟨ht j, hq.nodup j⟩
    · rw [pushFront_of_ne h]; exact hq.nodup j
  disj {j k u} hj hk := by
    rcases mem_pushFront.mp hj with hj | ⟨rfl, rfl⟩ <;> rcases mem_pushFront.mp hk with hk | ⟨hk, hk'⟩
    · exact hq.disj hj hk
    · exact absurd hj (hk' ▸ ht j)
    · exact absurd hk (ht k)
    · exact hk.symm

theorem Ok.drop (hq : q.Ok) : (q.drop i t).Ok where
  nodup j := by
    by_cases h : j = i
    · subst h; rw [drop_self]; exact (hq.nodup j).erase t
    · rw [drop_of_ne h]; exact hq.nodup j
  disj hj hk := hq.disj (hq.mem_drop.mp hj).1 (hq.mem_drop.mp hk).1

theorem Ok.erase_mid (hq : q.Ok) {xs ys : List Ptr} (h : q i = xs ++ t :: ys) :
    (q.drop i t) i = xs ++ ys := by
  have hn := hq.nodup i
  rw [h] at hn
  have ht : t ∉ xs := fun hm => (List.nodup_append.mp hn).2.2 t hm t (by simp) rfl
  rw [drop_self, h, List.erase_append_right _ ht, List.erase_cons_head]

end

end Layout

/-! ## Representation -/

namespace Links

def head (l : Links) : QId → Option Ptr
  | .ready => l.readyHead
  | .sleep => l.sleepListHead
  | .wait w => l.waitHead w

/-- The sleep list has no tail pointer. -/
def tail (l : Links) : QId → Option Ptr
  | .ready => l.readyTail
  | .sleep => none
  | .wait w => l.waitTail w

end Links

structure Rep (l : Links) (q : Layout) (glob : List Ptr) : Prop where
  chain : ∀ i, Chain l.next (l.head i) (q i)
  tail : ∀ i, i ≠ .sleep → l.tail i = (q i).getLast?
  count : l.readyCount = (q .ready).length
  glob : DList l.globalNext l.globalPrev l.globalThreadList glob

/-! ### Relinking one list leaves the others alone -/

section
variable {next : Ptr → Option Ptr} {head : QId → Option Ptr} {q : Layout} {i : QId} {x : Ptr}

theorem push_chains (hq : q.Ok) (hc : ∀ j, Chain next (head j) (q j)) (hx : ∀ j, x ∉ q j) :
    let next' := relink (Function.update next x none) (q i).getLast? (some x)
    (∀ j, j ≠ i → Chain next' (head j) (q j)) ∧ Chain next' (entry (q i).getLast? (head i) (some x)) (q i ++ [x]) := by
  refine ⟨fun j hj => ?_, chain_append (hq.nodup i) (hx i) (hc i)⟩
  refine (relink_seg fun y hy hm => ?_).mpr ((seg_update (hx j)).mpr (hc j))
  exact hj (hq.disj hm (List.mem_of_getLast? hy))

theorem unlink_chains (hq : q.Ok) (hc : ∀ j, Chain next (head j) (q j)) {xs ys : List Ptr}
    (hx : q i = xs ++ x :: ys) :
    let next' := Function.update (relink next xs.getLast? (next x)) x none
    (∀ j, j ≠ i → Chain next' (head j) (q j)) ∧ Chain next' (entry xs.getLast? (head i) (next x)) (xs ++ ys) := by
  have hci := hc i
  have hni := hq.nodup i
  rw [hx] at hci hni
  constructor
  · intro j hj
    refine (seg_update fun h => hj (hq.disj h (by simp [hx]))).mpr ?_
    refine (relink_seg fun y hy hm => ?_).mpr (hc j)
    exact hj (hq.disj hm (by rw [hx]; exact List.mem_append_left _ (List.mem_of_getLast? hy)))
  · refine (seg_update ?_).mpr (chain_remove hni hci)
    rw [← hq.erase_mid hx]
    exact hq.notMem_drop (by simp [hx]) i

end

end Uthread
