import Uthread.Mn.Lists

/-!
# Local queues and stealing act on lists

`vp_enqueue` and `vp_dequeue` work on one list. The two sections of `try_steal`
move the front of the victim's list to the thief by way of a detached chain.
-/

namespace Uthread

open Linked

variable {l l' : MnLinks} {m m' : Lists} {t : Ptr} {u v thief victim : VpId} {xs ys : List Ptr}

structure LocalRep (l : MnLinks) (v : VpId) (xs : List Ptr) : Prop where
  chain : Chain l.next (l.localHead v) xs
  tail : l.localTail v = xs.getLast?
  count : l.localCount v = xs.length

theorem QRep.localRep (h : QRep l m) (v : VpId) : LocalRep l v (m.q (.loc v)) := ⟨h.loc v, h.localTail v, h.localCount v⟩

theorem LocalRep.frame (h : LocalRep l v xs) (hn : ∀ x ∈ xs, l.next x = l'.next x)
    (hh : l'.localHead v = l.localHead v) (ht : l'.localTail v = l.localTail v)
    (hc : l'.localCount v = l.localCount v) : LocalRep l' v xs where
  chain := by
    rw [hh]
    exact (seg_congr hn).mp h.chain
  tail := ht.trans h.tail
  count := hc.trans h.count

theorem QRep.of_local (h : QRep l m) (hl : l'.toLinks = { l.toLinks with next := l'.next })
    (hs : m'.shared = m.shared) (hg : m'.glob = m.glob) (hn : ∀ i, ∀ x ∈ m.q (.shared i), l.next x = l'.next x)
    (hloc : ∀ u, LocalRep l' u (m'.q (.loc u)))
    (hfl : ∀ u, Chain l'.next (m'.q (.flight u)).head? (m'.q (.flight u))) : QRep l' m' where
  shared := by
    rw [hl, hs, hg]
    exact h.shared.of_next hn
  loc u := (hloc u).chain
  localTail u := (hloc u).tail
  localCount u := (hloc u).count
  flight := hfl

/-! ## `vp_enqueue` and `vp_dequeue` -/

theorem MnLinks.vpEnqueue_eq : l.vpEnqueue v t = { l with
    next := relink (Function.update l.next t none) (l.localTail v) (some t)
    vpId := Function.update l.vpId t v
    localHead := Function.update l.localHead v (entry (l.localTail v) (l.localHead v) (some t))
    localTail := Function.update l.localTail v (some t)
    localCount := Function.update l.localCount v (l.localCount v + 1) } := by
  unfold vpEnqueue setNext setVpId on Links.setNext
  cases h : l.localTail v with
  | none => simp [relink, entry, h]
  | some x => simp [relink, entry, h]

theorem relink_of_ne {next : Ptr → Option Ptr} {p w : Option Ptr} {x : Ptr} (hp : p ≠ some x) :
    next x = relink next p w x := by
  cases p with
  | none => rfl
  | some y => exact (Function.update_of_ne (fun e => hp (by rw [e])) _ _).symm

theorem QRep.vpEnqueue (ha : Apart m.q) (h : QRep l m) (ht : ∀ i, t ∉ m.q i) :
    QRep (l.vpEnqueue v t) (m.push (.loc v) t) := by
  rw [MnLinks.vpEnqueue_eq, h.localTail v]
  have hframe : ∀ i, i ≠ .loc v → ∀ x ∈ m.q i, l.next x =
      relink (Function.update l.next t none) (m.q (.loc v)).getLast? (some t) x := by
    intro i hi x hx
    have hxt : x ≠ t := fun e => ht i (e ▸ hx)
    rw [← relink_of_ne, Function.update_of_ne hxt]
    intro he
    exact hi (ha.disj hx (List.mem_of_getLast? he))
  apply h.of_local
  · rfl
  · exact Lists.shared_set_loc
  · rfl
  · intro i
    exact hframe _ (by simp)
  · intro u
    by_cases hu : u = v
    · subst hu
      constructor
      · simp only [Lists.push, Lists.set_q, Function.update_self]
        exact chain_append (ha.nodup _) (ht _) (h.loc u)
      · simp [Lists.push]
      · simp [Lists.push, h.localCount u]
    · have hq : (m.push (.loc v) t).q (.loc u) = m.q (.loc u) := by simp [Lists.push, hu]
      rw [hq]
      apply (h.localRep u).frame
      · exact hframe _ (by simpa using hu)
      · simp [hu]
      · simp [hu]
      · simp [hu]
  · intro u
    have hq : (m.push (.loc v) t).q (.flight u) = m.q (.flight u) := by simp [Lists.push]
    rw [hq]
    exact (seg_congr (hframe _ (by simp))).mp (h.flight u)

theorem MnLinks.vpDequeue_eq (hh : l.localHead v = some t) : l.vpDequeue v = (some t, { l with
    next := Function.update l.next t none
    localHead := Function.update l.localHead v (l.next t)
    localTail := if l.next t = none then Function.update l.localTail v none else l.localTail
    localCount := Function.update l.localCount v (l.localCount v - 1) }) := by
  unfold vpDequeue setNext on Links.setNext
  simp only [hh, Function.update_self]
  by_cases hn : l.next t = none
  · simp [hn]
  · simp [hn]

theorem tail_after_pop {ts : List Ptr} (ht : xs = t :: ts) :
    (if ts.head? = none then none else xs.getLast?) = ts.getLast? := by
  subst ht
  cases ts with
  | nil => rfl
  | cons x ts => simp

theorem QRep.vpDequeue (ha : Apart m.q) (h : QRep l m) :
    (l.vpDequeue v).1 = (m.pop (.loc v)).1 ∧ QRep (l.vpDequeue v).2 (m.pop (.loc v)).2 := by
  have hh : l.localHead v = (m.q (.loc v)).head? := chain_head (h.loc v)
  cases hx : m.q (.loc v) with
  | nil =>
    have hd : l.vpDequeue v = (none, l) := by
      unfold MnLinks.vpDequeue
      simp [hh, hx]
    have he : (m.pop (.loc v)).2 = m := by
      simp only [Lists.pop, Lists.set, hx, List.tail_nil]
      rw [← hx, Function.update_eq_self]
    rw [hd, he]
    exact ⟨by simp [Lists.pop, hx], h⟩
  | cons t ts =>
    rw [hx] at hh
    have hnt : l.next t = ts.head? := by
      have hc := h.loc v
      rw [hx, ← List.nil_append (t :: ts)] at hc
      exact chain_next hc
    have hnd := ha.nodup (.loc v)
    rw [hx] at hnd
    have hframe : ∀ i, i ≠ .loc v → ∀ x ∈ m.q i, l.next x = Function.update l.next t none x := by
      intro i hi x hm
      have hxt : x ≠ t := by
        intro e
        subst e
        exact hi (ha.disj hm (by rw [hx]; simp))
      rw [Function.update_of_ne hxt]
    rw [MnLinks.vpDequeue_eq hh, hnt]
    refine ⟨by simp [Lists.pop, hx], ?_⟩
    simp only [Lists.pop, hx, List.tail_cons]
    apply h.of_local
    · rfl
    · exact Lists.shared_set_loc
    · rfl
    · intro i
      exact hframe _ (by simp)
    · intro u
      by_cases hu : u = v
      · subst hu
        have htl : l.localTail u = (t :: ts).getLast? := by rw [← hx]; exact h.localTail u
        constructor
        · have hc := h.loc u
          rw [hx] at hc
          have hp := chain_pop hnd hc
          rw [hnt] at hp
          simpa using hp
        · rw [Lists.set_q, Function.update_self, ← tail_after_pop rfl, ← htl]
          dsimp only
          split
          · simp
          · rfl
        · simp [h.localCount u, hx]
      · have hq : (m.set (.loc v) ts).q (.loc u) = m.q (.loc u) := by simp [hu]
        rw [hq]
        apply (h.localRep u).frame
        · exact hframe _ (by simpa using hu)
        · simp [hu]
        · dsimp only
          split
          · simp [hu]
          · rfl
        · simp [hu]
    · intro u
      have hq : (m.set (.loc v) ts).q (.flight u) = m.q (.flight u) := by simp
      rw [hq]
      exact (seg_congr (hframe _ (by simp))).mp (h.flight u)

/-! ## `try_steal` -/

/-- A state of the loop over `steal_count`: the victim keeps `ys`, the thief has `xs`. -/
def Lists.theft (thief victim : VpId) (xs ys : List Ptr) (m : Lists) : Lists :=
  (m.set (.loc victim) ys).set (.flight thief) xs

def MnLinks.retail (victim : VpId) (xs : List Ptr) (l : MnLinks) : MnLinks :=
  { l with localTail := Function.update l.localTail victim xs.getLast? }

theorem Lists.theft_apart (thief : VpId) (ha : Apart m.q) (hv : m.q (.loc victim) = xs ++ ys) :
    Apart (m.theft thief victim xs ys).q := by
  have hn := ha.nodup (.loc victim)
  rw [hv] at hn
  have h₁ : Apart (m.set (.loc victim) ys).q := ha.shrink (by rw [hv]; exact List.sublist_append_right xs ys)
  apply h₁.set (List.nodup_append.mp hn).1
  intro j _ x hx
  exact ha.notMem_shrink hv hx j

theorem MnLinks.stealLoop_succ {n : Nat} {r : Theft} (hh : l.localHead victim = some t) :
    l.stealLoop thief victim (n + 1) r = ({ l with
      next := relink (Function.update l.next t none) r.stolenTail (some t)
      vpId := Function.update l.vpId t thief
      localHead := Function.update l.localHead victim (l.next t)
      localCount := Function.update l.localCount victim (l.localCount victim - 1) } : MnLinks).stealLoop thief victim n
        ⟨r.j + 1, if r.stolenTail = none then some t else r.stolenHead, some t⟩ := by
  simp only [stealLoop, hh]
  cases r.stolenTail <;> rfl

theorem QRep.steal_one (ha : Apart m.q) (hm : m.q (.loc victim) = xs ++ t :: ys)
    (h : QRep (l.retail victim (t :: ys)) (m.theft thief victim xs (t :: ys)))
    (hl : l' = { l with
      next := relink (Function.update l.next t none) xs.getLast? (some t)
      vpId := Function.update l.vpId t thief
      localHead := Function.update l.localHead victim (l.next t)
      localCount := Function.update l.localCount victim (l.localCount victim - 1) }) :
    QRep (l'.retail victim ys) (m.theft thief victim (xs ++ [t]) ys) := by
  subst hl
  have hap := Lists.theft_apart thief ha hm
  have hloc : (m.theft thief victim xs (t :: ys)).q (.loc victim) = t :: ys := by simp [Lists.theft]
  have hfl : (m.theft thief victim xs (t :: ys)).q (.flight thief) = xs := by simp [Lists.theft]
  have hc := h.loc victim
  rw [hloc] at hc
  have hch : Chain l.next (some t) (t :: ys) := by
    have hh := chain_head hc
    rw [hh] at hc
    exact hc
  have hnt : l.next t = ys.head? := chain_head hch.2
  have hnd := hap.nodup (.loc victim)
  rw [hloc] at hnd
  have hframe : ∀ i, i ≠ .loc victim → i ≠ .flight thief → ∀ x ∈ (m.theft thief victim xs (t :: ys)).q i,
      l.next x = relink (Function.update l.next t none) xs.getLast? (some t) x := by
    intro i hi hi' x hx
    have hxt : x ≠ t := by
      intro e
      subst e
      exact hi (hap.disj hx (by rw [hloc]; simp))
    rw [← relink_of_ne, Function.update_of_ne hxt]
    intro he
    apply hi' (hap.disj hx _)
    rw [hfl]
    exact List.mem_of_getLast? he
  have hother : ∀ i, i ≠ .loc victim → i ≠ .flight thief →
      (m.theft thief victim (xs ++ [t]) ys).q i = (m.theft thief victim xs (t :: ys)).q i := by
    intro i hi hi'
    simp [Lists.theft, hi, hi']
  apply h.of_local
  · rfl
  · simp only [Lists.theft, Lists.shared_set_flight, Lists.shared_set_loc]
  · rfl
  · intro i
    exact hframe _ (by simp) (by simp)
  · intro u
    by_cases hu : u = victim
    · subst hu
      have hq : (m.theft thief u (xs ++ [t]) ys).q (.loc u) = ys := by simp [Lists.theft]
      rw [hq]
      constructor
      · have hys : ∀ x ∈ ys, l.next x = relink (Function.update l.next t none) xs.getLast? (some t) x := by
          intro x hx
          have hxt : x ≠ t := fun e => (List.nodup_cons.mp hnd).1 (e ▸ hx)
          rw [← relink_of_ne, Function.update_of_ne hxt]
          intro he
          have hq : Queue.loc u = Queue.flight thief :=
            hap.disj (x := x) (by rw [hloc]; simp [hx]) (by rw [hfl]; exact List.mem_of_getLast? he)
          cases hq
        have hy := (seg_congr hys).mp hch.2
        simpa [MnLinks.retail] using hy
      · simp [MnLinks.retail]
      · have hcount := h.localCount u
        rw [hloc] at hcount
        have hcount' : l.localCount u = ys.length + 1 := by simpa [MnLinks.retail] using hcount
        simp [MnLinks.retail, hcount']
    · rw [hother _ (by simpa using hu) (by simp)]
      apply (h.localRep u).frame
      · exact hframe _ (by simpa using hu) (by simp)
      · simp [MnLinks.retail, hu]
      · simp [MnLinks.retail, hu]
      · simp [MnLinks.retail, hu]
  · intro u
    by_cases hu : u = thief
    · subst hu
      have hq : (m.theft u victim (xs ++ [t]) ys).q (.flight u) = xs ++ [t] := by simp [Lists.theft]
      rw [hq]
      have hx : t ∉ xs := by
        intro hx
        have hq : Queue.flight u = Queue.loc victim :=
          hap.disj (x := t) (by rw [hfl]; exact hx) (by rw [hloc]; simp)
        cases hq
      have hcf := h.flight u
      rw [hfl] at hcf
      have hnx := hap.nodup (.flight u)
      rw [hfl] at hnx
      have ha := chain_append hnx hx hcf
      have hhead := chain_head ha
      rw [hhead] at ha
      exact ha
    · rw [hother _ (by simp) (by simpa using hu)]
      exact (seg_congr (hframe _ (by simp) (by simpa using hu))).mp (h.flight u)

/-- The loop over `steal_count`, having taken `xs`: it never meets a NULL head. -/
theorem QRep.stealLoop (thief : VpId) (ha : Apart m.q) : ∀ {n : Nat} {xs ys : List Ptr} {l : MnLinks}, n ≤ ys.length →
    m.q (.loc victim) = xs ++ ys → QRep (l.retail victim ys) (m.theft thief victim xs ys) →
    let r := l.stealLoop thief victim n ⟨xs.length, xs.head?, xs.getLast?⟩
    r.1 = ⟨xs.length + n, (xs ++ ys.take n).head?, (xs ++ ys.take n).getLast?⟩ ∧
      QRep (r.2.retail victim (ys.drop n)) (m.theft thief victim (xs ++ ys.take n) (ys.drop n)) ∧
      r.2.localTail = l.localTail ∧ r.2.vpId = fun x => if x ∈ ys.take n then thief else l.vpId x
  | 0, xs, ys, l, _, _, h => by
    simp only [MnLinks.stealLoop, List.take_zero, List.append_nil, List.drop_zero, List.not_mem_nil, if_false, and_true]
    exact ⟨rfl, h⟩
  | n + 1, xs, [], l, hn, _, _ => by simp at hn
  | n + 1, xs, t :: ys, l, hn, hm, h => by
    have hh : l.localHead victim = some t := by
      have hc := chain_head (h.loc victim)
      simpa [Lists.theft, MnLinks.retail] using hc
    have hm' : m.q (.loc victim) = (xs ++ [t]) ++ ys := by rw [hm]; simp
    have ih := QRep.stealLoop thief (n := n) ha (by simpa using hn) hm' (h.steal_one ha hm rfl)
    have hhead : (if xs.getLast? = none then some t else xs.head?) = (xs ++ [t]).head? := by cases xs <;> simp
    have hids : (fun x => if x ∈ ys.take n then thief else Function.update l.vpId t thief x) =
        fun x => if x ∈ t :: ys.take n then thief else l.vpId x := by
      funext x
      by_cases hx : x = t
      · subst hx
        simp
      · simp [hx]
    dsimp only at ih ⊢
    rw [hids] at ih
    rw [MnLinks.stealLoop_succ hh]
    simp only [List.take_succ_cons, List.drop_succ_cons, hhead]
    simpa [Nat.add_assoc, Nat.add_comm 1 n] using ih

theorem QRep.theft_nil (h : QRep l m) (hf : m.q (.flight thief) = []) :
    QRep (l.retail victim (m.q (.loc victim))) (m.theft thief victim [] (m.q (.loc victim))) := by
  have he : m.theft thief victim [] (m.q (.loc victim)) = m := by
    unfold Lists.theft Lists.set
    simp [← hf]
  have hl : l.retail victim (m.q (.loc victim)) = l := by
    unfold MnLinks.retail
    rw [← h.localTail victim, Function.update_eq_self]
  rw [he, hl]
  exact h

theorem QRep.steal (thief : VpId) {n : Nat} (ha : Apart m.q) (h : QRep l m) (hf : m.q (.flight thief) = [])
    (hn : n ≤ (m.q (.loc victim)).length) :
    (l.steal thief victim n).1 = (RunQueues.steal thief victim n m).1 ∧
      QRep (l.steal thief victim n).2 (RunQueues.steal thief victim n m).2 := by
  obtain ⟨h₁, h₂, h₃, -⟩ := QRep.stealLoop thief ha hn (List.nil_append _).symm (h.theft_nil hf)
  simp only [List.nil_append, List.length_nil, Nat.zero_add, List.head?_nil, List.getLast?_nil] at h₁ h₂ h₃
  constructor
  · refine h₁.trans ?_
    simp [RunQueues.steal, hn]
  · have he : (l.steal thief victim n).2 =
        (l.stealLoop thief victim n ⟨0, none, none⟩).2.retail victim ((m.q (.loc victim)).drop n) := by
      have hh : (l.stealLoop thief victim n ⟨0, none, none⟩).2.localHead victim = ((m.q (.loc victim)).drop n).head? := by
        have hc := chain_head (h₂.loc victim)
        simpa [Lists.theft, MnLinks.retail] using hc
      unfold MnLinks.steal MnLinks.retail
      dsimp only
      by_cases hd : (m.q (.loc victim)).drop n = []
      · simp [hh, hd]
      · have hlt : n < (m.q (.loc victim)).length := by simpa using hd
        rw [if_neg (by simpa [hh] using hd), getLast?_drop hlt, ← h.localTail victim, ← h₃, Function.update_eq_self]
    rw [he]
    exact h₂

theorem QRep.steal_vpId (thief : VpId) {n : Nat} (ha : Apart m.q) (h : QRep l m) (hf : m.q (.flight thief) = [])
    (hn : n ≤ (m.q (.loc victim)).length) : (l.steal thief victim n).2.vpId =
      fun x => if x ∈ (m.q (.loc victim)).take n then thief else l.vpId x := by
  obtain ⟨-, -, -, h₄⟩ := QRep.stealLoop thief ha hn (List.nil_append _).symm (h.theft_nil hf)
  unfold MnLinks.steal
  dsimp only
  split
  · exact h₄
  · exact h₄

theorem MnLinks.attach_eq {h : Ptr} {tl : Option Ptr} {n : Int} : l.attach thief h tl n = { l with
    next := relink l.next (l.localTail thief) (some h)
    localHead := Function.update l.localHead thief (entry (l.localTail thief) (l.localHead thief) (some h))
    localTail := Function.update l.localTail thief tl
    localCount := Function.update l.localCount thief (l.localCount thief + n) } := by
  unfold attach setNext on Links.setNext
  cases l.localTail thief <;> simp [relink, entry]

theorem QRep.attach {h : Ptr} {tl : Option Ptr} {n : Int} (ha : Apart m.q) (hr : QRep l m)
    (hh : (m.q (.flight thief)).head? = some h) (htl : (m.q (.flight thief)).getLast? = tl)
    (hn : n = (m.q (.flight thief)).length) :
    QRep (l.attach thief h tl n) (RunQueues.attach thief h tl n m) := by
  rw [MnLinks.attach_eq, hr.localTail thief]
  have hnd : (m.q (.loc thief) ++ m.q (.flight thief)).Nodup := by
    rw [List.nodup_append]
    refine ⟨ha.nodup _, ha.nodup _, ?_⟩
    intro a hx b hy e
    subst e
    have hq := ha.disj hx hy
    cases hq
  have hframe : ∀ i, i ≠ .loc thief → ∀ x ∈ m.q i,
      l.next x = relink l.next (m.q (.loc thief)).getLast? (some h) x := by
    intro i hi x hx
    apply relink_of_ne
    intro he
    exact hi (ha.disj hx (List.mem_of_getLast? he))
  have hne : m.q (.flight thief) ≠ [] := by
    intro e
    simp [e] at hh
  apply hr.of_local
  · rfl
  · simp only [RunQueues.attach, Lists.shared_set_loc, Lists.shared_set_flight]
  · rfl
  · intro i
    exact hframe _ (by simp)
  · intro u
    by_cases hu : u = thief
    · subst hu
      have hq : (RunQueues.attach u h tl n m : Lists).q (.loc u) = m.q (.loc u) ++ m.q (.flight u) := by
        simp [RunQueues.attach]
      rw [hq]
      constructor
      · have hf := hr.flight u
        have hc := chain_concat hnd (hr.loc u) hf
        rw [hh] at hc
        simpa using hc
      · rw [List.getLast?_append_of_ne_nil _ hne, htl]
        simp
      · rw [List.length_append]
        simp [hr.localCount u, hn]
    · have hq : (RunQueues.attach thief h tl n m : Lists).q (.loc u) = m.q (.loc u) := by
        simp [RunQueues.attach, hu]
      rw [hq]
      apply (hr.localRep u).frame
      · exact hframe _ (by simpa using hu)
      · simp [hu]
      · simp [hu]
      · simp [hu]
  · intro u
    by_cases hu : u = thief
    · subst hu
      have hq : (RunQueues.attach u h tl n m : Lists).q (.flight u) = [] := by simp [RunQueues.attach]
      rw [hq]
      rfl
    · have hq : (RunQueues.attach thief h tl n m : Lists).q (.flight u) = m.q (.flight u) := by
        simp [RunQueues.attach, hu]
      rw [hq]
      exact (seg_congr (hframe _ (by simp))).mp (hr.flight u)

end Uthread
