import Uthread.LinksRep
import Mathlib.Data.Prod.Lex

/-!
# The loops over links

The bound on a loop's iterations is never what ends it: every loop is shown to
compute its list function as soon as the bound is no less than the length.
-/

namespace Uthread

open Linked

variable {l : Links} {q : Layout} {g : List Ptr} {t : Ptr}

/-! ## `remove_from_ready_queue` -/

theorem removeLoop_notMem : ∀ {n : Nat} {p h : Option Ptr} {ys : List Ptr}, Chain l.next h ys → t ∉ ys →
    l.removeLoop t n p h = l
  | 0, _, _, _, _, _ => by simp [Links.removeLoop]
  | n + 1, p, h, [], hc, _ => by
    obtain rfl : h = none := hc
    rfl
  | n + 1, p, h, y :: ys, hc, ht => by
    obtain ⟨rfl, hc⟩ := hc
    have hy : y ≠ t := fun e => ht (by simp [e])
    simp only [Links.removeLoop, hy, ite_false]
    exact removeLoop_notMem hc fun hm => ht (List.mem_cons_of_mem _ hm)

section
variable {p : Option Ptr}

theorem removeAt_next : (l.removeAt p t).next = Function.update (relink l.next p (l.next t)) t none := by
  unfold Links.removeAt
  cases p <;> by_cases h : l.readyTail = some t <;> simp [Links.setNext, relink, h]

theorem removeAt_tail : (l.removeAt p t).readyTail = if l.readyTail = some t then p else l.readyTail := by
  unfold Links.removeAt
  cases p <;> by_cases h : l.readyTail = some t <;> simp [Links.setNext, h]

theorem removeAt_head : (l.removeAt p t).readyHead = entry p l.readyHead (l.next t) := by
  unfold Links.removeAt
  cases p <;> by_cases h : l.readyTail = some t <;> simp [Links.setNext, entry, h]

theorem removeAt_rest : l.removeAt p t = { l with
    next := (l.removeAt p t).next, readyHead := (l.removeAt p t).readyHead
    readyTail := (l.removeAt p t).readyTail, readyCount := l.readyCount - 1 } := by
  unfold Links.removeAt
  cases p <;> by_cases h : l.readyTail = some t <;> simp [Links.setNext, h]

end

theorem removeLoop_eq : ∀ {n : Nat} (xs : List Ptr) {ys zs : List Ptr} {h : Option Ptr},
    Chain l.next h (ys ++ t :: zs) → t ∉ ys → ys.length < n →
    l.removeLoop t n xs.getLast? h = l.removeAt (xs ++ ys).getLast? t
  | n + 1, xs, [], zs, h, hc, _, _ => by
    obtain ⟨rfl, hc⟩ := hc
    simp only [Links.removeLoop, ite_true, List.append_nil]
  | n + 1, xs, y :: ys, zs, h, hc, ht, hn => by
    obtain ⟨rfl, hc⟩ := hc
    have hy : y ≠ t := fun e => ht (by simp [e])
    have ih := removeLoop_eq (xs ++ [y]) hc (fun hm => ht (List.mem_cons_of_mem _ hm)) (by simpa using hn)
    simp only [List.getLast?_concat, List.append_assoc, List.cons_append, List.nil_append] at ih
    simp only [Links.removeLoop, hy, ite_false]
    exact ih

theorem removeFromReadyQueue_eq {n : Nat} {ys zs : List Ptr} (hc : Chain l.next l.readyHead (ys ++ t :: zs))
    (ht : t ∉ ys) (hn : ys.length < n) : l.removeFromReadyQueue n t = l.removeAt ys.getLast? t :=
  removeLoop_eq [] hc ht hn

theorem Rep.removeAt {xs ys : List Ptr} (hq : q.Ok) (hr : Rep l q g) (hx : q .ready = xs ++ t :: ys) :
    Rep (l.removeAt xs.getLast? t) (q.drop .ready t) g := by
  refine of_unlink xs hq hr hx removeAt_next removeAt_head ?_ (fun _ => removeAt_tail) ?_ ?_ ?_
  · intro j hj; rw [removeAt_rest]; cases j <;> first | rfl | exact absurd rfl hj
  · intro j hj; rw [removeAt_rest]; cases j <;> first | rfl | exact absurd rfl hj
  · rw [removeAt_rest]; rfl
  · rw [removeAt_rest]; exact ⟨rfl, rfl, rfl⟩

theorem Rep.removeFromReadyQueue {n : Nat} (hq : q.Ok) (hr : Rep l q g) (ht : t ∈ q .ready)
    (hn : (q .ready).length ≤ n) : Rep (l.removeFromReadyQueue n t) (q.drop .ready t) g := by
  obtain ⟨ys, zs, hx, hys⟩ := List.eq_append_cons_of_mem ht
  have hc : Chain l.next l.readyHead (ys ++ t :: zs) := by
    rw [← hx]; exact hr.chain .ready
  have hlen : ys.length < n := by
    rw [hx] at hn
    simp at hn; omega
  rw [removeFromReadyQueue_eq hc hys hlen]
  exact Rep.removeAt hq hr hx

/-! ## `priority_next` -/

instance rankOrder : LinearOrder (Int ×ₗ Int) := Prod.Lex.instLinearOrder Int Int

instance rankPreorder : Preorder (Int ×ₗ Int) := rankOrder.toPartialOrder.toPreorder

def rank (tcb : Tcbs) (t : Ptr) : Int ×ₗ Int := toLex (tcb.priority t, tcb.creationOrder t)

theorem bestLoop_eq {tcb : Tcbs} : ∀ {n : Nat} {b h : Option Ptr} {xs : List Ptr}, Chain l.next h xs → xs.length ≤ n →
    Links.bestLoop tcb l n b h = xs.foldl (Links.bestStep tcb) b
  | 0, b, h, [], _, _ => rfl
  | n + 1, b, h, [], hc, _ => by
    obtain rfl : h = none := hc
    rfl
  | n + 1, b, h, x :: xs, hc, hn => by
    obtain ⟨rfl, hc⟩ := hc
    simp only [Links.bestLoop, List.foldl_cons]
    exact bestLoop_eq hc (by simpa using hn)

theorem bestStep_some {tcb : Tcbs} {b x : Ptr} (hx : tcb.state x = .ready) :
    Links.bestStep tcb (some b) x = if rank tcb x < rank tcb b then some x else some b := by
  simp only [Links.bestStep, hx, ite_true, rank, Prod.Lex.toLex_lt_toLex]

theorem foldl_bestStep {tcb : Tcbs} : ∀ {xs : List Ptr} {b : Ptr}, (∀ x ∈ xs, tcb.state x = .ready) →
    ∃ m, xs.foldl (Links.bestStep tcb) (some b) = some m ∧ m ∈ b :: xs ∧ ∀ x ∈ b :: xs, rank tcb m ≤ rank tcb x
  | [], b, _ => ⟨b, rfl, by simp, by simp⟩
  | x :: xs, b, hr => by
    rw [List.foldl_cons, bestStep_some (hr x (by simp))]
    have hr' : ∀ y ∈ xs, tcb.state y = .ready := fun y hy => hr y (List.mem_cons_of_mem _ hy)
    by_cases hlt : rank tcb x < rank tcb b
    · rw [if_pos hlt]
      obtain ⟨m, hm, hmem, hmin⟩ := foldl_bestStep (b := x) hr'
      refine ⟨m, hm, List.mem_cons_of_mem _ hmem, fun y hy => ?_⟩
      rcases List.mem_cons.mp hy with rfl | hy
      · exact (hmin x (by simp)).trans hlt.le
      · exact hmin y hy
    · rw [if_neg hlt]
      obtain ⟨m, hm, hmem, hmin⟩ := foldl_bestStep (b := b) hr'
      refine ⟨m, hm, ?_, fun y hy => ?_⟩
      · rcases List.mem_cons.mp hmem with rfl | h
        · simp
        · simp [h]
      · rcases List.mem_cons.mp hy with rfl | hy
        · exact hmin y (by simp)
        · rcases List.mem_cons.mp hy with rfl | hy
          · exact (hmin b (by simp)).trans (not_lt.mp hlt)
          · exact hmin y (List.mem_cons_of_mem _ hy)

def pick (policy : Option Policy) (tcb : Tcbs) (xs : List Ptr) : Option Ptr :=
  match policy with
  | some .priority => xs.foldl (Links.bestStep tcb) none
  | some .roundRobin => xs.head?
  | none => xs.head?

theorem pick_nil {policy : Option Policy} {tcb : Tcbs} : pick policy tcb [] = none := by
  unfold pick; split <;> rfl

theorem pick_priority {tcb : Tcbs} {x : Ptr} {xs : List Ptr} (hr : ∀ y ∈ x :: xs, tcb.state y = .ready) :
    ∃ m, pick (some .priority) tcb (x :: xs) = some m ∧ m ∈ x :: xs ∧ ∀ y ∈ x :: xs, rank tcb m ≤ rank tcb y := by
  have hx : Links.bestStep tcb none x = some x := by simp [Links.bestStep, hr x (by simp)]
  simp only [pick, List.foldl_cons, hx]
  exact foldl_bestStep fun y hy => hr y (List.mem_cons_of_mem _ hy)

theorem pick_mem (policy : Option Policy) {tcb : Tcbs} {xs : List Ptr} (hne : xs ≠ [])
    (hr : ∀ y ∈ xs, tcb.state y = .ready) : ∃ m ∈ xs, pick policy tcb xs = some m := by
  obtain ⟨x, xs, rfl⟩ := List.exists_cons_of_ne_nil hne
  match policy with
  | some .priority =>
    obtain ⟨m, hm, hmem, -⟩ := pick_priority hr
    exact ⟨m, hmem, hm⟩
  | some .roundRobin => exact ⟨x, by simp, rfl⟩
  | none => exact ⟨x, by simp, rfl⟩

theorem mem_of_pick {policy : Option Policy} {tcb : Tcbs} {xs : List Ptr} {t : Ptr}
    (hr : ∀ y ∈ xs, tcb.state y = .ready) (hp : pick policy tcb xs = some t) : t ∈ xs := by
  have hne : xs ≠ [] := by rintro rfl; rw [pick_nil] at hp; cases hp
  obtain ⟨m, hm, hpm⟩ := pick_mem policy hne hr
  rw [hp] at hpm
  cases hpm; exact hm

/-- `schedule_next` on links takes what `pick` names from the represented queue. -/
theorem Rep.scheduleNext {n : Nat} {tcb : Tcbs} (policy : Option Policy) (hq : q.Ok) (hr : Rep l q g)
    (hn : (q .ready).length ≤ n) (hst : ∀ y ∈ q .ready, tcb.state y = .ready) :
    let r := match policy with
      | some .priority => l.priorityNext n tcb
      | some .roundRobin => l.roundRobinNext
      | none => l.roundRobinNext
    r.1 = pick policy tcb (q .ready) ∧
      match r.1 with
      | some m => m ∈ q .ready ∧ Rep r.2 (q.drop .ready m) g
      | none => q .ready = [] ∧ r.2 = l := by
  have hrr : l.roundRobinNext.1 = (q .ready).head? ∧
      match l.roundRobinNext.1 with
      | some m => m ∈ q .ready ∧ Rep l.roundRobinNext.2 (q.drop .ready m) g
      | none => q .ready = [] ∧ l.roundRobinNext.2 = l := by
    unfold Links.roundRobinNext
    cases hx : q .ready with
    | nil => rw [hr.dequeue_nil hx]; exact ⟨rfl, rfl, rfl⟩
    | cons t ts =>
      obtain ⟨h₁, h₂⟩ := hr.dequeue hq hx
      rw [h₁]
      exact ⟨rfl, by simp, h₂⟩
  match policy with
  | some .roundRobin => exact hrr
  | none => exact hrr
  | some .priority =>
    have hbest : l.bestLoop tcb n none l.readyHead = pick (some .priority) tcb (q .ready) :=
      bestLoop_eq (hr.chain .ready) hn
    simp only [Links.priorityNext, hbest]
    by_cases hne : q .ready = []
    · simp [hne, pick_nil]
    · obtain ⟨m, hm, hp⟩ := pick_mem (some .priority) hne hst
      simp only [hp, true_and]
      exact ⟨hm, hr.removeFromReadyQueue hq hm hn⟩

/-! ## The global list -/

theorem hasLive_iff {state : Ptr → TState} : ∀ {n : Nat} {h : Option Ptr} {xs : List Ptr},
    Chain l.globalNext h xs → xs.length ≤ n → (l.hasLive state n h = true ↔ ∃ t ∈ xs, state t ≠ .finished)
  | 0, h, [], _, _ => by simp [Links.hasLive]
  | n + 1, h, [], hc, _ => by
    obtain rfl : h = none := hc
    simp [Links.hasLive]
  | n + 1, h, x :: xs, hc, hn => by
    obtain ⟨rfl, hc⟩ := hc
    simp only [Links.hasLive, List.mem_cons, exists_eq_or_imp]
    by_cases hx : state x = .finished
    · simp only [hx, ite_true, ne_eq, not_true_eq_false, false_or]
      exact hasLive_iff hc (by simpa using hn)
    · simp [hx]

theorem Rep.of_global {g' : List Ptr} {gn gp : Ptr → Option Ptr} {gh : Option Ptr} (hr : Rep l q g)
    (hd : DList gn gp gh g') :
    Rep { l with globalNext := gn, globalPrev := gp, globalThreadList := gh } q g' where
  chain i := by
    have := hr.chain i
    cases i <;> exact this
  tail i hi := by
    have := hr.tail i hi
    cases i <;> exact this
  count := hr.count
  glob := hd

theorem Rep.globalListAdd (hr : Rep l q g) (ht : t ∉ g) (hg : g.Nodup) : Rep (l.globalListAdd t) q (t :: g) := by
  have he : l.globalListAdd t = { l with
      globalNext := Function.update l.globalNext t l.globalThreadList
      globalPrev := relink (Function.update l.globalPrev t none) l.globalThreadList (some t)
      globalThreadList := some t } := by
    unfold Links.globalListAdd; cases l.globalThreadList <;> rfl
  rw [he]
  exact hr.of_global (dlist_add ht hg hr.glob)

theorem Rep.globalListRemove {xs ys : List Ptr} (hr : Rep l q (xs ++ t :: ys)) (hg : (xs ++ t :: ys).Nodup) :
    Rep (l.globalListRemove t) q (xs ++ ys) := by
  have hpt : l.globalPrev t ≠ some t := by
    rw [back_mid hr.glob.back]
    intro he
    exact (List.nodup_append.mp hg).2.2 t (List.mem_of_getLast? he) t (by simp) rfl
  have he : l.globalListRemove t = { l with
      globalNext := Function.update (relink l.globalNext (l.globalPrev t) (l.globalNext t)) t none
      globalPrev := Function.update (relink l.globalPrev (l.globalNext t) (l.globalPrev t)) t none
      globalThreadList := entry (l.globalPrev t) l.globalThreadList (l.globalNext t) } := by
    unfold Links.globalListRemove
    cases hp : l.globalPrev t with
    | none => cases hn : l.globalNext t <;> simp [relink, entry, hn, hp]
    | some p =>
      have hpt' : t ≠ p := fun e => hpt (by rw [hp, e])
      cases hn : l.globalNext t <;> simp [relink, entry, hn, hp, Function.update_of_ne hpt']
  rw [he]
  exact hr.of_global (dlist_remove hg hr.glob)

end Uthread
