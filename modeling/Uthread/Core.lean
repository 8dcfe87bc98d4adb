import Uthread.Links

/-!
# The machine without its links

The processor, the memory other than link fields, the kernel and the history
of a process in 1:N mode (`mn_mode` is 0), and what the library does to them.
-/

namespace Uthread

structure Core where
  tcb : Tcbs
  currentThread : Ptr
  -- the executing stack
  run : Context
  -- TCBs are allocated at increasing addresses; those from `brk` on are unused
  brk : Ptr
  nextThreadId : Int
  creationCounter : Int
  currentScheduler : Option Policy
  epollFd : Int
  -- `locked` of the mutexes that were initialised
  mutexLocked : MutexId → Option Int
  -- `count` of the semaphores that were initialised
  semCount : SemId → Option Int
  chan : Nat → Option Channel
  -- the interest set of `epoll_fd`: `data.ptr` and direction by descriptor
  interest : Fd → Option (Ptr × IoDir)
  -- whether a non-blocking read/write of a descriptor would not block now
  avail : Fd × IoDir → Bool
  -- all threads share the `errno` of their OS thread
  errno : Errno
  tr : Trace
  -- the values `clock_gettime` returns, in order, and how many were read
  clock : Nat → Nat
  readings : Nat
  exited : Bool
  log : List Event
  -- who emitted the events in the trace buffer (history)
  emitters : List Ptr

/-- What the world outside answers in one step. -/
structure Env where
  -- the descriptors `epoll_wait` reports
  events : List Fd := []
  -- whether `EPOLL_CTL_ADD` of a descriptor not in the set succeeds
  ctlOk : Bool := true
  callocOk : Bool := true
  mmapOk : Bool := true
  -- the result of a read/write that does not block: a count, or an error
  io : Nat := 0
  ioError : Option Nat := none
  -- whether the descriptor would not block after it
  left : Bool := false

namespace Core

def note (e : Event) (c : Core) : Core := { c with log := e :: c.log }

def blockSignals (c : Core) : Core := { c with run := { c.run with masked := true } }

def unblockSignals (c : Core) : Core := { c with run := { c.run with masked := false } }

def setFrames (fs : List Frame) (c : Core) : Core := { c with run := { c.run with frames := fs } }

def setState (p : Ptr) (st : TState) (c : Core) : Core :=
  { c with tcb := { c.tcb with state := Function.update c.tcb.state p st } }

def getTimeNs (c : Core) : Nat := c.clock c.readings % 2 ^ 64

def traceEmit (tid : Int) (type : TraceEventType) (coreId : Int) (c : Core) : Core :=
  { c with
    tr := if c.tr.records then c.tr.store ⟨tid, type, c.getTimeNs, coreId⟩ else c.tr
    readings := if c.tr.records then c.readings + 1 else c.readings }

def emit (tcb : Ptr) (type : TraceEventType) (c : Core) : Core :=
  { c.traceEmit (c.tcb.threadId tcb) type 0 with
    emitters := if c.tr.records then tcb :: c.emitters else c.emitters }

def framesOf (c : Core) (t : Ptr) : List Frame :=
  if t = c.currentThread then c.run.frames else (c.tcb.context t).frames

/-- Whether a thread other than `t` with the same id is RUNNING. -/
def idClash (t : Ptr) (c : Core) : Bool :=
  (List.range c.brk).any fun u => u ≠ t ∧ c.tcb.state u = .running ∧ c.tcb.threadId u = c.tcb.threadId t

def swapcontext (prev next : Ptr) (c : Core) : Core :=
  let c := { c with tcb := { c.tcb with context := Function.update c.tcb.context prev c.run } }
  { c with run := c.tcb.context next }

def enableTrace (c : Core) : Core :=
  { c with
    tr := {
      buffer := some (c.tr.buffer.getD fun _ => ⟨0, .create, 0, 0⟩)
      count := 0
      enabled := true }
    emitters := [] }

/-! ## Allocation -/

/-- `alloc_tcb` and the field assignments of `uthread_create_with_priority` -/
def allocTcb (priority : Int) (c : Core) : Core :=
  let p := c.brk
  { c with
    brk := c.brk + 1
    nextThreadId := cint (c.nextThreadId + 1)
    creationCounter := cint (c.creationCounter + 1)
    tcb := { c.tcb with
      threadId := Function.update c.tcb.threadId p c.nextThreadId
      state := Function.update c.tcb.state p .ready
      stack := Function.update c.tcb.stack p none
      priority := Function.update c.tcb.priority p priority
      creationOrder := Function.update c.tcb.creationOrder p c.creationCounter
      ioFd := Function.update c.tcb.ioFd p (-1)
      ioEvents := Function.update c.tcb.ioEvents p none
      sleepUntilNs := Function.update c.tcb.sleepUntilNs p 0 } }

/-- `alloc_guarded_stack`, `getcontext` and `makecontext` for `thread_wrapper` -/
def makeContext (p : Ptr) (c : Core) : Core :=
  { c with tcb := { c.tcb with
      stack := Function.update c.tcb.stack p (some p)
      context := Function.update c.tcb.context p ⟨p, [.start], c.run.masked⟩ } }

def free (p : Ptr) (c : Core) : Core := c.note (.freed p (c.tcb.state p) c.run.onStack)

def freeGuardedStack (p : Ptr) (c : Core) : Core :=
  { c with log := match c.tcb.stack p with
    | some region => .unmapped region :: c.log
    | none => c.log }

/-! ## Objects -/

def setLocked (m : MutexId) (v : Int) (c : Core) : Core :=
  { c with mutexLocked := Function.update c.mutexLocked m (some v) }

def count (c : Core) (sm : SemId) : Int := (c.semCount sm).getD 0

def setCount (sm : SemId) (n : Int) (c : Core) : Core :=
  { c with semCount := Function.update c.semCount sm (some n) }

def setChan (id : Nat) (ch : Channel) (c : Core) : Core :=
  { c with chan := Function.update c.chan id (some ch) }

/-! ## Fields of the running thread -/

def setSleepUntil (p : Ptr) (deadline : Nat) (c : Core) : Core :=
  { c with tcb := { c.tcb with sleepUntilNs := Function.update c.tcb.sleepUntilNs p deadline } }

def setIoFd (p : Ptr) (fd : Fd) (c : Core) : Core :=
  { c with tcb := { c.tcb with ioFd := Function.update c.tcb.ioFd p fd } }

def setIoEvents (p : Ptr) (dir : IoDir) (c : Core) : Core :=
  { c with tcb := { c.tcb with ioEvents := Function.update c.tcb.ioEvents p (some dir) } }

def tickClock (c : Core) : Core := { c with readings := c.readings + 1 }

/-! ## The kernel -/

/-- The `data.ptr`s `epoll_wait` reports: those of registered descriptors. -/
def epollWait (env : Env) (c : Core) : List Ptr :=
  ((env.events.filterMap c.interest).take maxEpollEvents).map (·.1)

/-- Whether `epoll_ctl(epoll_fd, EPOLL_CTL_ADD, fd, ..)` succeeds: not if `fd` is in the set. -/
def ctlAddOk (env : Env) (fd : Fd) (c : Core) : Bool := 0 ≤ c.epollFd && (c.interest fd).isNone && env.ctlOk

def epollCtlAdd (env : Env) (fd : Fd) (p : Ptr) (dir : IoDir) (c : Core) : Core :=
  { c with interest := if c.ctlAddOk env fd then Function.update c.interest fd (some (p, dir)) else c.interest }

def epollCtlDel (fd : Fd) (c : Core) : Core :=
  { c with interest := Function.update c.interest fd none }

def ioResult (env : Env) (fd : Fd) (dir : IoDir) (c : Core) : IoResult :=
  if c.avail (fd, dir) then
    match env.ioError with
    | some code => .failed (.other code)
    | none => .count env.io
  else .failed .eagain

/-- Whether `t` was woken to use a descriptor and has not done so. -/
def claims (fd : Fd) (dir : IoDir) (c : Core) (t : Ptr) : Bool :=
  (c.tcb.state t ≠ .ioBlocked ∧ .ioWait fd dir ∈ c.framesOf t) ∨ .ioRetry fd dir ∈ c.framesOf t

/-- Whether nobody has yet to look at a value of `errno` other than `e`. -/
def unread (e : Errno) (c : Core) (t : Ptr) : Bool :=
  (c.framesOf t).all fun f => f.errno? = none ∨ f.errno? = some e

/-- Whether the descriptor is ready that `t` is registered for. -/
def ready (t : Ptr) (c : Core) : Bool :=
  match c.interest (c.tcb.ioFd t) with
  | some (_, dir) => c.avail (c.tcb.ioFd t, dir)
  | none => false

def setAvail (fd : Fd) (dir : IoDir) (b : Bool) (c : Core) : Core :=
  { c with avail := Function.update c.avail (fd, dir) b }.note
    (.avail fd dir b (b || (List.range c.brk).all fun t => !c.claims fd dir t))

def setErrno (e : Errno) (c : Core) : Core :=
  { c with errno := e }.note (.errno e ((List.range c.brk).all fun t => c.unread e t))

def setErrnoOf (ret : IoResult) (c : Core) : Core :=
  match ret with
  | .failed e => c.setErrno e
  | .count _ => c

end Core

structure Sys extends Core where
  lk : Links

namespace Sys

def on (f : Core → Core) (s : Sys) : Sys := { s with toCore := f s.toCore }

/-- A bound on the length of every chain of distinct TCBs. -/
def fuel (s : Sys) : Nat := s.brk + 1

end Sys

end Uthread
