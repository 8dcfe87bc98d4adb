import Uthread.Layout

/-!
# Link operations act on lists

`enqueue` and the wait-queue append are `push`, the removals are `drop`, and
the loops over the ready queue and the global list compute list functions.
-/

namespace Uthread

open Linked

variable {l l' : Links} {q : Layout} {g : List Ptr} {i : QId} {t : Ptr} {w : WaitObj}

def SameGlobal (l l' : Links) : Prop :=
  l'.globalNext = l.globalNext ∧ l'.globalPrev = l.globalPrev ∧ l'.globalThreadList = l.globalThreadList

theorem SameGlobal.dlist (h : SameGlobal l l') (hd : DList l.globalNext l.globalPrev l.globalThreadList g) :
    DList l'.globalNext l'.globalPrev l'.globalThreadList g := by
  rw [h.1, h.2.1, h.2.2]; exact hd

namespace Rep

/-! ## Appending -/

theorem of_push (hq : q.Ok) (hr : Rep l q g) (ht : ∀ j, t ∉ q j)
    (hn : l'.next = relink (Function.update l.next t none) (q i).getLast? (some t))
    (hh : l'.head i = entry (q i).getLast? (l.head i) (some t)) (hh' : ∀ j, j ≠ i → l'.head j = l.head j)
    (htl : i ≠ .sleep → l'.tail i = some t) (htl' : ∀ j, j ≠ i → l'.tail j = l.tail j)
    (hc : l'.readyCount = l.readyCount + if i = .ready then 1 else 0) (hg : SameGlobal l l') :
    Rep l' (q.push i t) g where
  chain j := by
    obtain ⟨ho, hi⟩ := push_chains (i := i) hq hr.chain ht
    rw [hn]
    by_cases h : j = i
    · subst h; rw [Layout.push_self, hh]; exact hi
    · rw [Layout.push_of_ne h, hh' j h]; exact ho j h
  tail j hj := by
    by_cases h : j = i
    · subst h; rw [Layout.push_self, htl hj, List.getLast?_concat]
    · rw [Layout.push_of_ne h, htl' j h]; exact hr.tail j hj
  count := by
    rw [hc, hr.count]
    by_cases h : i = .ready
    · subst h; simp [Layout.push_self]
    · rw [Layout.push_of_ne (Ne.symm h)]; simp [h]
  glob := hg.dlist hr.glob

theorem enqueue (hq : q.Ok) (hr : Rep l q g) (ht : ∀ j, t ∉ q j) : Rep (l.enqueue t) (q.push .ready t) g := by
  have htl : l.readyTail = (q .ready).getLast? := hr.tail .ready (by simp)
  have hset : (l.setNext t none).readyTail = l.readyTail := rfl
  refine of_push hq hr ht ?_ ?_ ?_ ?_ ?_ ?_ ?_
  · rw [← htl]; unfold Links.enqueue; simp only [hset]; cases l.readyTail <;> rfl
  · rw [← htl]; unfold Links.enqueue; simp only [hset]; cases l.readyTail <;> rfl
  · intro j hj; unfold Links.enqueue; simp only [hset]
    cases l.readyTail <;> cases j <;> first | rfl | exact absurd rfl hj
  · intro _; rfl
  · intro j hj; unfold Links.enqueue; simp only [hset]
    cases j <;> first | exact absurd rfl hj | (cases l.readyTail <;> rfl)
  · unfold Links.enqueue; simp only [hset]; cases l.readyTail <;> rfl
  · unfold Links.enqueue; simp only [hset]; cases l.readyTail <;> exact ⟨rfl, rfl, rfl⟩

theorem waitAppend (hq : q.Ok) (hr : Rep l q g) (ht : ∀ j, t ∉ q j) :
    Rep (l.waitAppend w t) (q.push (.wait w) t) g := by
  have htl : l.waitTail w = (q (.wait w)).getLast? := hr.tail (.wait w) (by simp)
  have hset : (l.setNext t none).waitTail w = l.waitTail w := rfl
  refine of_push hq hr ht ?_ ?_ ?_ ?_ ?_ ?_ ?_
  · rw [← htl]; unfold Links.waitAppend; simp only [hset]; cases l.waitTail w <;> rfl
  · rw [← htl]; unfold Links.waitAppend; simp only [hset]
    cases l.waitTail w <;> simp [Links.head, Links.setNext, entry]
  · intro j hj; unfold Links.waitAppend; simp only [hset]
    cases l.waitTail w <;> cases j <;> simp_all [Links.head, Links.setNext]
  · intro _; simp [Links.waitAppend, Links.tail]
  · intro j hj; unfold Links.waitAppend; simp only [hset]
    cases l.waitTail w <;> cases j <;> simp_all [Links.tail, Links.setNext]
  · unfold Links.waitAppend; simp only [hset]; cases l.waitTail w <;> simp [Links.setNext]
  · unfold Links.waitAppend; simp only [hset]; cases l.waitTail w <;> exact ⟨rfl, rfl, rfl⟩

theorem sleepPush (hr : Rep l q g) (ht : ∀ j, t ∉ q j) :
    Rep (l.sleepPush t) (q.pushFront .sleep t) g where
  chain j := by
    have hj : Chain (l.sleepPush t).next (l.head j) (q j) := (seg_update (ht j)).mpr (hr.chain j)
    cases j with
    | sleep =>
      rw [Layout.pushFront_self]
      refine seg_cons.mpr ⟨rfl, ?_⟩
      have : (l.sleepPush t).next t = l.sleepListHead := Function.update_self ..
      rw [this]; exact hj
    | ready => rw [Layout.pushFront_of_ne (by simp)]; exact hj
    | wait w => rw [Layout.pushFront_of_ne (by simp)]; exact hj
  tail j hj := by
    rw [Layout.pushFront_of_ne hj]
    cases j with
    | sleep => exact absurd rfl hj
    | ready => exact hr.tail .ready hj
    | wait w => exact hr.tail (.wait w) hj
  count := by rw [Layout.pushFront_of_ne (by simp)]; exact hr.count
  glob := hr.glob

/-! ## Removing -/

theorem of_unlink (xs : List Ptr) {ys : List Ptr} (hq : q.Ok) (hr : Rep l q g) (hx : q i = xs ++ t :: ys)
    (hn : l'.next = Function.update (relink l.next xs.getLast? (l.next t)) t none)
    (hh : l'.head i = entry xs.getLast? (l.head i) (l.next t)) (hh' : ∀ j, j ≠ i → l'.head j = l.head j)
    (htl : i ≠ .sleep → l'.tail i = if l.tail i = some t then xs.getLast? else l.tail i)
    (htl' : ∀ j, j ≠ i → l'.tail j = l.tail j)
    (hc : l'.readyCount = l.readyCount - if i = .ready then 1 else 0) (hg : SameGlobal l l') :
    Rep l' (q.drop i t) g where
  chain j := by
    obtain ⟨ho, hi⟩ := unlink_chains hq hr.chain hx
    rw [hn]
    by_cases h : j = i
    · subst h; rw [hq.erase_mid hx, hh]; exact hi
    · rw [Layout.drop_of_ne h, hh' j h]; exact ho j h
  tail j hj := by
    by_cases h : j = i
    · subst h
      rw [hq.erase_mid hx, htl hj, hr.tail j hj, hx]
      have hn := hq.nodup j
      rw [hx] at hn
      have hd := (List.nodup_append.mp hn).2.1
      rcases List.eq_nil_or_concat ys with rfl | ⟨zs, z, rfl⟩
      · simp
      · have hz : z ≠ t := fun e => by subst e; simp at hd
        simp only [List.concat_eq_append, ← List.cons_append, ← List.append_assoc, List.getLast?_concat]
        exact if_neg (by simpa using hz)
    · rw [Layout.drop_of_ne h, htl' j h]; exact hr.tail j hj
  count := by
    rw [hc, hr.count]
    by_cases h : i = .ready
    · subst h; rw [hq.erase_mid hx, hx]; simp; omega
    · rw [Layout.drop_of_ne (Ne.symm h)]; simp [h]
  glob := hg.dlist hr.glob

theorem of_pop {ts : List Ptr} (hq : q.Ok) (hr : Rep l q g) (hi : i ≠ .sleep) (hx : q i = t :: ts)
    (hn : l'.next = Function.update l.next t none) (hh : l'.head i = l.next t)
    (hh' : ∀ j, j ≠ i → l'.head j = l.head j) (htl : l'.tail i = if l.next t = none then none else l.tail i)
    (htl' : ∀ j, j ≠ i → l'.tail j = l.tail j)
    (hc : l'.readyCount = l.readyCount - if i = .ready then 1 else 0) (hg : SameGlobal l l') :
    Rep l' (q.drop i t) g := by
  have hnt : l.next t = ts.head? := by
    have := hr.chain i
    rw [hx, ← List.nil_append (t :: ts)] at this; exact chain_next this
  have hlast : l.tail i = (t :: ts).getLast? := by rw [← hx]; exact hr.tail i hi
  refine of_unlink [] hq hr hx hn hh hh' (fun _ => ?_) htl' hc hg
  rw [htl, hlast, hnt]
  cases ts with
  | nil => simp
  | cons u us =>
    have hnd := hq.nodup i
    rw [hx] at hnd
    have hne : (t :: u :: us).getLast? ≠ some t := by
      rw [List.getLast?_cons_cons]
      exact fun he => (List.nodup_cons.mp hnd).1 (List.mem_of_getLast? he)
    rw [if_neg (by simp), if_neg hne]

theorem dequeue {ts : List Ptr} (hq : q.Ok) (hr : Rep l q g) (hx : q .ready = t :: ts) :
    l.dequeue.1 = some t ∧ Rep l.dequeue.2 (q.drop .ready t) g := by
  have hh : l.readyHead = some t := by
    have := chain_head (hr.chain .ready)
    rw [hx] at this; exact this
  unfold Links.dequeue
  simp only [hh, true_and]
  refine of_pop hq hr (by simp) hx ?_ ?_ ?_ ?_ ?_ ?_ ?_
  · split <;> rfl
  · split <;> rfl
  · intro j hj; split <;> cases j <;> first | rfl | exact absurd rfl hj
  · split <;> rename_i h <;> simp [h, Links.tail, Links.setNext]
  · intro j hj; split <;> cases j <;> first | rfl | exact absurd rfl hj
  · split <;> rfl
  · split <;> exact ⟨rfl, rfl, rfl⟩

theorem dequeue_nil (hr : Rep l q g) (hx : q .ready = []) : l.dequeue = (none, l) := by
  have hh : l.readyHead = none := by
    have := chain_head (hr.chain .ready)
    rw [hx] at this; exact this
  unfold Links.dequeue
  simp only [hh]

theorem waitHead_eq (hr : Rep l q g) : l.waitHead w = (q (.wait w)).head? := chain_head (hr.chain (.wait w))

theorem waitPop {ts : List Ptr} (hq : q.Ok) (hr : Rep l q g) (hx : q (.wait w) = t :: ts) :
    Rep (l.waitPop w t) (q.drop (.wait w) t) g := by
  unfold Links.waitPop
  simp only [Function.update_self]
  refine of_pop hq hr (by simp) hx ?_ ?_ ?_ ?_ ?_ ?_ ?_
  · split <;> rfl
  · split <;> simp [Links.setNext, Links.head]
  · intro j hj; split <;> cases j <;> simp_all [Links.setNext, Links.head]
  · split <;> rename_i h <;> simp [h, Links.tail, Links.setNext]
  · intro j hj; split <;> cases j <;> simp_all [Links.setNext, Links.tail]
  · split <;> simp [Links.setNext]
  · split <;> exact ⟨rfl, rfl, rfl⟩

theorem waitInit (hr : Rep l q g) (hx : q (.wait w) = []) : Rep (l.waitInit w) q g where
  chain j := by
    have := hr.chain j
    cases j with
    | ready => exact this
    | sleep => exact this
    | wait v =>
      by_cases h : v = w
      · subst h; simp [hx, Links.waitInit, Links.head]
      · simpa [Links.waitInit, Links.head, h] using this
  tail j hj := by
    have := hr.tail j hj
    cases j with
    | ready => exact this
    | sleep => exact this
    | wait v =>
      by_cases h : v = w
      · subst h; simp [hx, Links.waitInit, Links.tail]
      · simpa [Links.waitInit, Links.tail, h] using this
  count := hr.count
  glob := hr.glob

theorem sleepUnlink {xs ys : List Ptr} (hq : q.Ok) (hr : Rep l q g) (hx : q .sleep = xs ++ t :: ys) :
    Rep (l.sleepUnlink xs.getLast? t (l.next t)) (q.drop .sleep t) g := by
  unfold Links.sleepUnlink
  refine of_unlink xs hq hr hx ?_ ?_ ?_ ?_ ?_ ?_ ?_
  · cases xs.getLast? <;> rfl
  · cases xs.getLast? <;> rfl
  · intro j hj; cases xs.getLast? <;> cases j <;> first | rfl | exact absurd rfl hj
  · exact fun h => absurd rfl h
  · intro j _; cases xs.getLast? <;> cases j <;> rfl
  · cases xs.getLast? <;> simp [Links.setNext]
  · cases xs.getLast? <;> exact ⟨rfl, rfl, rfl⟩

end Rep

end Uthread
