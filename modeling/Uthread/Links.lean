import Uthread.Tcb

/-!
# Intrusive links

The link fields of all TCBs with the heads and tails of the lists they form,
and the operations of `src/uthread.c` on them. The `next` field is shared by
the ready queue, the wait queues and the sleep list.
-/

namespace Uthread

structure Links where
  next : Ptr → Option Ptr
  readyHead : Option Ptr
  readyTail : Option Ptr
  readyCount : Int
  waitHead : WaitObj → Option Ptr
  waitTail : WaitObj → Option Ptr
  sleepListHead : Option Ptr
  globalThreadList : Option Ptr
  globalNext : Ptr → Option Ptr
  globalPrev : Ptr → Option Ptr

namespace Links

def setNext (l : Links) (p : Ptr) (v : Option Ptr) : Links :=
  { l with next := Function.update l.next p v }

/-! ## The ready queue -/

def enqueue (l : Links) (tcb : Ptr) : Links :=
  let l := l.setNext tcb none
  let l := match l.readyTail with
    | some tail => l.setNext tail (some tcb)
    | none => { l with readyHead := some tcb }
  { l with readyTail := some tcb, readyCount := l.readyCount + 1 }

def dequeue (l : Links) : Option Ptr × Links :=
  match l.readyHead with
  | none => (none, l)
  | some tcb =>
    let l := { l with readyHead := l.next tcb }
    let l := if l.readyHead = none then { l with readyTail := none } else l
    let l := l.setNext tcb none
    (some tcb, { l with readyCount := l.readyCount - 1 })

/-- The removal of `cur` behind `prev` in `remove_from_ready_queue`. -/
def removeAt (l : Links) (prev : Option Ptr) (cur : Ptr) : Links :=
  let l := match prev with
    | some prev => l.setNext prev (l.next cur)
    | none => { l with readyHead := l.next cur }
  let l := if l.readyTail = some cur then { l with readyTail := prev } else l
  let l := l.setNext cur none
  { l with readyCount := l.readyCount - 1 }

/-- The loop of `remove_from_ready_queue`. Loops over links get a bound on
their iterations; a chain never visits more cells than were allocated. -/
def removeLoop (target : Ptr) : Nat → Option Ptr → Option Ptr → Links → Links
  | n + 1, prev, some cur, l =>
    if cur = target then l.removeAt prev cur
    else removeLoop target n (some cur) (l.next cur) l
  | _, _, _, l => l

def removeFromReadyQueue (fuel : Nat) (l : Links) (target : Ptr) : Links :=
  removeLoop target fuel none l.readyHead l

def bestStep (tcb : Tcbs) (best : Option Ptr) (cur : Ptr) : Option Ptr :=
  if tcb.state cur = .ready then
    match best with
    | none => some cur
    | some b =>
      if tcb.priority cur < tcb.priority b ∨
          tcb.priority cur = tcb.priority b ∧ tcb.creationOrder cur < tcb.creationOrder b
      then some cur else best
  else best

def bestLoop (tcb : Tcbs) (l : Links) : Nat → Option Ptr → Option Ptr → Option Ptr
  | n + 1, best, some cur => bestLoop tcb l n (bestStep tcb best cur) (l.next cur)
  | _, best, _ => best

def roundRobinNext (l : Links) : Option Ptr × Links := l.dequeue

def priorityNext (fuel : Nat) (tcb : Tcbs) (l : Links) : Option Ptr × Links :=
  match bestLoop tcb l fuel none l.readyHead with
  | some best => (some best, l.removeFromReadyQueue fuel best)
  | none => (none, l)

/-! ## Wait queues -/

/-- The append of `current_thread` in `uthread_mutex_lock` and `uthread_sem_wait`. -/
def waitAppend (l : Links) (w : WaitObj) (tcb : Ptr) : Links :=
  let l := l.setNext tcb none
  let l := match l.waitTail w with
    | some tail => l.setNext tail (some tcb)
    | none => { l with waitHead := Function.update l.waitHead w (some tcb) }
  { l with waitTail := Function.update l.waitTail w (some tcb) }

/-- The removal of the head `woken` in `uthread_mutex_unlock` and `uthread_sem_post`. -/
def waitPop (l : Links) (w : WaitObj) (woken : Ptr) : Links :=
  let l := { l with waitHead := Function.update l.waitHead w (l.next woken) }
  let l := if l.waitHead w = none then { l with waitTail := Function.update l.waitTail w none } else l
  l.setNext woken none

def waitInit (l : Links) (w : WaitObj) : Links :=
  { l with
    waitHead := Function.update l.waitHead w none
    waitTail := Function.update l.waitTail w none }

/-! ## The sleep list -/

def sleepPush (l : Links) (tcb : Ptr) : Links :=
  let l := l.setNext tcb l.sleepListHead
  { l with sleepListHead := some tcb }

/-- The removal of `cur`, whose successor is `nx`, in `check_sleep_list`. -/
def sleepUnlink (l : Links) (prev : Option Ptr) (cur : Ptr) (nx : Option Ptr) : Links :=
  let l := match prev with
    | some prev => l.setNext prev nx
    | none => { l with sleepListHead := nx }
  l.setNext cur none

/-! ## The global thread list -/

def globalListAdd (l : Links) (tcb : Ptr) : Links :=
  let l := { l with globalPrev := Function.update l.globalPrev tcb none }
  let l := { l with globalNext := Function.update l.globalNext tcb l.globalThreadList }
  let l := match l.globalThreadList with
    | some head => { l with globalPrev := Function.update l.globalPrev head (some tcb) }
    | none => l
  { l with globalThreadList := some tcb }

def globalListRemove (l : Links) (tcb : Ptr) : Links :=
  let l := match l.globalPrev tcb with
    | some prev => { l with globalNext := Function.update l.globalNext prev (l.globalNext tcb) }
    | none => { l with globalThreadList := l.globalNext tcb }
  let l := match l.globalNext tcb with
    | some nx => { l with globalPrev := Function.update l.globalPrev nx (l.globalPrev tcb) }
    | none => l
  { l with
    globalPrev := Function.update l.globalPrev tcb none
    globalNext := Function.update l.globalNext tcb none }

/-- The traversal that looks for a thread that is not FINISHED. -/
def hasLive (state : Ptr → TState) (l : Links) : Nat → Option Ptr → Bool
  | n + 1, some t => if state t = .finished then hasLive state l n (l.globalNext t) else true
  | _, _ => false

end Links

end Uthread
