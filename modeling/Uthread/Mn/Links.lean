import Uthread.Links

/-!
# The queues of M:N mode

The ready queue, the wait queues, the sleep list and the global list are those
of 1:N mode. Every virtual processor has a local queue, which uses the same
`next` field, and `try_steal` keeps a chain in its local variables.
-/

namespace Uthread

/-- A virtual processor, named by its index in `vps`. -/
abbrev VpId := Nat

structure MnLinks extends Links where
  localHead : VpId → Option Ptr
  localTail : VpId → Option Ptr
  localCount : VpId → Int
  vpId : Ptr → VpId

/-- The variables `j`, `stolen_head` and `stolen_tail` of `try_steal`. -/
structure Theft where
  j : Nat
  stolenHead : Option Ptr
  stolenTail : Option Ptr
  deriving DecidableEq, Repr

namespace Links

/-- The loop of `gc_finished_threads`; the result lists the threads it frees. -/
def gcLoop (dead : Ptr → Bool) : Nat → Option Ptr → Links → List Ptr × Links
  | n + 1, some tcb, l =>
    let next := l.globalNext tcb
    if dead tcb then
      let r := gcLoop dead n next (l.globalListRemove tcb)
      (tcb :: r.1, r.2)
    else gcLoop dead n next l
  | _, _, l => ([], l)

end Links

namespace Links

/-- `enqueue` behind its test of `ready_tail`, with the TCB's own `next = NULL` that comes before it. -/
def enqueueAt (tail : Option Ptr) (tcb : Ptr) (l : Links) : Links :=
  let l := l.setNext tcb none
  let l := match tail with
    | some tail => l.setNext tail (some tcb)
    | none => { l with readyHead := some tcb }
  { l with readyTail := some tcb, readyCount := l.readyCount + 1 }

/-- An append to a wait queue behind its test of `wait_tail`, also with `next = NULL`. -/
def waitAppendAt (w : WaitObj) (tail : Option Ptr) (tcb : Ptr) (l : Links) : Links :=
  let l := l.setNext tcb none
  let l := match tail with
    | some tail => l.setNext tail (some tcb)
    | none => { l with waitHead := Function.update l.waitHead w (some tcb) }
  { l with waitTail := Function.update l.waitTail w (some tcb) }

end Links

namespace MnLinks

def on (f : Links → Links) (l : MnLinks) : MnLinks := { l with toLinks := f l.toLinks }

def setNext (p : Ptr) (v : Option Ptr) (l : MnLinks) : MnLinks := l.on (·.setNext p v)

def setVpId (p : Ptr) (v : VpId) (l : MnLinks) : MnLinks := { l with vpId := Function.update l.vpId p v }

def dequeue (l : MnLinks) : Option Ptr × MnLinks := (l.toLinks.dequeue.1, { l with toLinks := l.toLinks.dequeue.2 })

/-! ## Local queues -/

def vpEnqueue (vp : VpId) (tcb : Ptr) (l : MnLinks) : MnLinks :=
  let l := l.setNext tcb none
  let l := l.setVpId tcb vp
  let l := match l.localTail vp with
    | some tail => l.setNext tail (some tcb)
    | none => { l with localHead := Function.update l.localHead vp (some tcb) }
  { l with
    localTail := Function.update l.localTail vp (some tcb)
    localCount := Function.update l.localCount vp (l.localCount vp + 1) }

def vpDequeue (vp : VpId) (l : MnLinks) : Option Ptr × MnLinks :=
  match l.localHead vp with
  | none => (none, l)
  | some tcb =>
    let l := { l with localHead := Function.update l.localHead vp (l.next tcb) }
    let l := if l.localHead vp = none then { l with localTail := Function.update l.localTail vp none } else l
    let l := l.setNext tcb none
    (some tcb, { l with localCount := Function.update l.localCount vp (l.localCount vp - 1) })

/-! ## Stealing -/

/-- The loop of `try_steal` over `steal_count`, whose `break` is the second case. -/
def stealLoop (thief victim : VpId) : Nat → Theft → MnLinks → Theft × MnLinks
  | 0, r, l => (r, l)
  | n + 1, r, l =>
    match l.localHead victim with
    | none => (r, l)
    | some t =>
      let l := { l with
        localHead := Function.update l.localHead victim (l.next t)
        localCount := Function.update l.localCount victim (l.localCount victim - 1) }
      let l := (l.setNext t none).setVpId t thief
      match r.stolenTail with
      | some tail => stealLoop thief victim n ⟨r.j + 1, r.stolenHead, some t⟩ (l.setNext tail (some t))
      | none => stealLoop thief victim n ⟨r.j + 1, some t, some t⟩ l

def steal (thief victim : VpId) (stealCount : Nat) (l : MnLinks) : Theft × MnLinks :=
  let r := l.stealLoop thief victim stealCount ⟨0, none, none⟩
  (r.1, if r.2.localHead victim = none then
      { r.2 with localTail := Function.update r.2.localTail victim none }
    else r.2)

def attach (thief : VpId) (stolenHead : Ptr) (stolenTail : Option Ptr) (stealCount : Int) (l : MnLinks) : MnLinks :=
  let l := match l.localTail thief with
    | some tail => l.setNext tail (some stolenHead)
    | none => { l with localHead := Function.update l.localHead thief (some stolenHead) }
  { l with
    localTail := Function.update l.localTail thief stolenTail
    localCount := Function.update l.localCount thief (l.localCount thief + stealCount) }

/-! ## Collection -/

def gc (dead : Ptr → Bool) (fuel : Nat) (l : MnLinks) : List Ptr × MnLinks :=
  let r := l.toLinks.gcLoop dead fuel l.globalThreadList
  (r.1, { l with toLinks := r.2 })

end MnLinks

end Uthread
