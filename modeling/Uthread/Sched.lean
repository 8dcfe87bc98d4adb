import Uthread.Core

/-!
# The scheduler of 1:N mode

`gc_finished_threads`, the wake-up checks, `uthread_yield` and `uthread_exit`.
A function is cut where SIGALRM can be delivered, where control changes stacks
and behind each collection pass; between two cuts it runs with SIGALRM masked.
-/

namespace Uthread.Sys

/-! ## Garbage collection -/

def gcLoop : Nat → Option Ptr → Sys → Sys
  | n + 1, some tcb, s =>
    let next := s.lk.globalNext tcb
    let s :=
      if s.tcb.state tcb = .finished ∧ tcb ≠ s.currentThread then
        let s := { s with lk := s.lk.globalListRemove tcb }
        (s.on (.freeGuardedStack tcb)).on (.free tcb)
      else s
    gcLoop n next s
  | _, _, s => s

def gcFinishedThreads (s : Sys) : Sys := gcLoop s.fuel s.lk.globalThreadList s

/-! ## Policies -/

def enqueue (tcb : Ptr) (s : Sys) : Sys :=
  { s with lk := s.lk.enqueue tcb, toCore := s.note (.enq tcb) }

def scheduleNext (s : Sys) : Option Ptr × Sys :=
  let (next, lk) := match s.currentScheduler with
    | some .priority => s.lk.priorityNext s.fuel s.tcb
    | some .roundRobin => s.lk.roundRobinNext
    | none => s.lk.roundRobinNext
  (next, { s with lk })

/-! ## Wake-ups -/

def ioEvent (s : Sys) (tcb : Ptr) : Sys :=
  if s.tcb.state tcb = .ioBlocked then
    let s := s.on (.note (.ioEvent tcb (s.ready tcb)))
    let s := s.on fun c => c.epollCtlDel (c.tcb.ioFd tcb)
    let s := s.on (.setState tcb .ready)
    let s := s.on (.emit tcb .ioUnblock)
    s.enqueue tcb
  else s

def checkIoEvents (env : Env) (s : Sys) : Sys :=
  if s.epollFd < 0 then s else (s.epollWait env).foldl ioEvent s

def sleepWake (prev : Option Ptr) (cur : Ptr) (nx : Option Ptr) (s : Sys) : Sys :=
  let s := { s with lk := s.lk.sleepUnlink prev cur nx }
  let s := s.on (.setSleepUntil cur 0)
  let s := s.on (.setState cur .ready)
  let s := s.on (.emit cur .wakeup)
  s.enqueue cur

def sleepLoop (now : Nat) : Nat → Option Ptr → Option Ptr → Sys → Sys
  | n + 1, prev, some cur, s =>
    let nx := s.lk.next cur
    if s.tcb.sleepUntilNs cur ≤ now then sleepLoop now n prev nx (s.sleepWake prev cur nx)
    else sleepLoop now n (some cur) nx s
  | _, _, _, s => s

def checkSleepList (s : Sys) : Sys :=
  let now := s.getTimeNs
  let s := s.on .tickClock
  sleepLoop now s.fuel none s.lk.sleepListHead s

/-! ## Dispatching -/

/-- From `current_thread = next` to the `swapcontext` of `uthread_yield` and `uthread_exit`. -/
def switchTo (prev next : Ptr) (s : Sys) : Sys :=
  s.on fun c =>
    let clash := c.idClash next
    let c := { c with currentThread := next }
    let c := c.setState next .running
    let c := c.emit next .run
    (c.note (.disp next clash)).swapcontext prev next

/-- One pass of the idle loop of `uthread_yield`/`uthread_exit`, which continues
at `idle prev` or, on a dispatch, at `swap prev`; `fs` are the callers. -/
def idlePass (env : Env) (idle swap : Ptr → Frame) (prev : Ptr) (fs : List Frame) (s : Sys) : Sys :=
  let s := s.on .blockSignals
  let s := s.checkIoEvents env
  let s := s.checkSleepList
  match s.scheduleNext with
  | (some next, s) => (s.on (.setFrames (swap prev :: fs))).switchTo prev next
  | (none, s) => (s.on (.setFrames (idle prev :: fs))).on .unblockSignals

def yieldEnter (fs : List Frame) (s : Sys) : Sys :=
  let s := s.on .blockSignals
  let s := s.gcFinishedThreads
  s.on (.setFrames (.yieldGc :: fs))

/-- `uthread_yield` from its collection pass to its `swapcontext` or its idle loop. -/
def yieldBody (env : Env) (fs : List Frame) (s : Sys) : Sys :=
  let s := s.checkIoEvents env
  let s := s.checkSleepList
  let prev := s.currentThread
  let s :=
    if s.tcb.state prev = .running then
      let s := s.on (.setState prev .ready)
      let s := s.on (.emit prev .yield)
      s.enqueue prev
    else s
  match s.scheduleNext with
  | (some next, s) => (s.on (.setFrames (.yieldSwap prev :: fs))).switchTo prev next
  | (none, s) =>
    if s.tcb.state prev = .ready then
      let s := s.on (.setState prev .running)
      let s := { s with lk := s.lk.removeFromReadyQueue s.fuel prev }
      let s := s.on (.emit prev .run)
      (s.on .unblockSignals).on (.setFrames (.yieldRet :: fs))
    else if s.lk.hasLive s.tcb.state s.fuel s.lk.globalThreadList ∧ 0 ≤ s.epollFd then
      (s.on (.setFrames (.yieldIdle prev :: fs))).on .unblockSignals
    else { s with exited := true }

def uthreadExit (env : Env) (s : Sys) : Sys :=
  let fs := s.run.frames
  let s := s.on .blockSignals
  let prev := s.currentThread
  let s := s.on (.setState prev .finished)
  let s := s.on (.note (.finished prev))
  let s := s.on (.emit prev .exit)
  let s := s.checkIoEvents env
  let s := s.checkSleepList
  match s.scheduleNext with
  | (some next, s) => (s.on (.setFrames (.exitSwap prev :: fs))).switchTo prev next
  | (none, s) =>
    if s.lk.hasLive s.tcb.state s.fuel s.lk.globalThreadList ∧ 0 ≤ s.epollFd then
      (s.on (.setFrames (.exitIdle prev :: fs))).on .unblockSignals
    else { s.gcFinishedThreads with exited := true }

end Uthread.Sys
