import Mathlib.Algebra.Group.Int.Defs
import Mathlib.Algebra.Group.Nat.Defs
import Mathlib.Logic.Function.Basic

/-!
# Thread control blocks

The data of `include/uthread.h` and of the internal types of `src/uthread.c`.
Memory is modelled by component: each field of `tcb_t` is a function of the
TCB's address. The three link fields are in `Uthread.Links`, the others here.
-/

namespace Uthread

/-- The address of a TCB; a `tcb_t*` that may be NULL is an `Option Ptr`. -/
abbrev Ptr := Nat
abbrev Fd := Int
abbrev Msg := Nat

def traceBufferSize : Int := 2 ^ 20
def maxEpollEvents : Nat := 64
def uthreadChannelMaxCapacity : Int := 64

/-- A C `int`: values wrap to 32-bit two's complement. -/
def cint (z : Int) : Int := z.bmod (2 ^ 32)

theorem cint_of_range {z : Int} (h₁ : -(2 ^ 31) ≤ z) (h₂ : z < 2 ^ 31) : cint z = z :=
  Int.bmod_eq_of_le (by omega) (by omega)

theorem cint_range (z : Int) : -(2 ^ 31) ≤ cint z ∧ cint z < 2 ^ 31 := by
  have h₁ : -((2 ^ 32 : Nat) / 2 : Int) ≤ cint z := Int.le_bmod (by omega)
  have h₂ : cint z < ((2 ^ 32 : Nat) + 1 : Int) / 2 := Int.bmod_lt (by omega)
  omega

theorem cint_cint (z : Int) : cint (cint z) = cint z := cint_of_range (cint_range z).1 (cint_range z).2

theorem cint_add_sub (z : Int) : cint (cint (z + 1) - 1) = cint z := by
  unfold cint
  rw [Int.sub_eq_add_neg, Int.bmod_add_bmod]
  congr 1; omega

inductive TState
  | ready | running | blocked | ioBlocked | finished
  deriving DecidableEq, Repr

inductive Policy
  | roundRobin | priority
  deriving DecidableEq, Repr

/-- `EPOLLIN` for `uthread_read`, `EPOLLOUT` for `uthread_write`. -/
inductive IoDir
  | epollin | epollout
  deriving DecidableEq, Repr

/-- `errno`, as far as `uthread_read` and `uthread_write` look at it. -/
inductive Errno
  -- `EAGAIN` or `EWOULDBLOCK`
  | eagain
  | other (code : Nat)
  deriving DecidableEq, Repr

/-- What a non-blocking `read`/`write` does: it returns a count, or -1 and sets `errno`. -/
inductive IoResult
  | count (n : Nat)
  | failed (e : Errno)
  deriving DecidableEq, Repr

def IoResult.isFailed : IoResult → Bool
  | .count _ => false
  | .failed _ => true

/-! ## Synchronisation objects -/

/-- A `uthread_mutex_t`: one of the program's own, or the one inside a channel. -/
inductive MutexId
  | user (n : Nat) | chan (c : Nat)
  deriving DecidableEq, Repr

/-- A `uthread_sem_t`: one of the program's own, or one of a channel's two. -/
inductive SemId
  | user (n : Nat) | space (c : Nat) | messages (c : Nat)
  deriving DecidableEq, Repr

inductive WaitObj
  | mutex (m : MutexId) | sem (s : SemId)
  deriving DecidableEq, Repr

/-- `uthread_channel_t` without its semaphores and mutex, which are
`SemId.space c`, `SemId.messages c` and `MutexId.chan c`. -/
structure Channel where
  buffer : Int → Msg
  head : Int
  tail : Int
  capacity : Int

inductive ChanPc
  | wait | lock | access | advance | unlock | post
  deriving DecidableEq, Repr

/-! ## Stacks -/

/-- One activation on a thread's stack, at the point where it will continue. -/
inductive Frame
  -- `thread_wrapper`, not yet entered
  | start
  -- the thread's function (or `main`) between two calls of the library
  | user
  -- `uthread_create_with_priority` after its collection pass
  | create (priority : Int)
  -- `uthread_create_with_priority` at its `return tcb->thread_id`
  | createRet (tcb : Ptr)
  -- `uthread_mutex_lock`/`uthread_sem_wait` behind its call of `uthread_yield`
  | waiting (w : WaitObj)
  -- `uthread_sleep` behind its call of `uthread_yield`
  | sleeping (deadline : Nat)
  -- `uthread_read`/`_write` before it tests the result of its first system call
  | ioTest (fd : Fd) (dir : IoDir) (ret : IoResult)
  -- `uthread_read`/`_write` after a system call that would have blocked
  | ioBlock (fd : Fd) (dir : IoDir)
  -- `uthread_read`/`_write` behind its call of `uthread_yield`
  | ioWait (fd : Fd) (dir : IoDir)
  -- `uthread_read`/`_write` before its second system call
  | ioRetry (fd : Fd) (dir : IoDir)
  -- `uthread_read`/`_write` about to return the result of its last system call
  | ioDone (fd : Fd) (dir : IoDir) (ret : IoResult)
  | chanSend (c : Nat) (msg : Msg) (pc : ChanPc)
  | chanRecv (c : Nat) (msg : Msg) (pc : ChanPc)
  -- `alrm_handler` behind its call of `uthread_yield`
  | alrmHandler
  -- `uthread_yield`, just called
  | yieldEntry
  -- `uthread_yield` after its collection pass
  | yieldGc
  -- `uthread_yield` in the unmasked window of its idle loop
  | yieldIdle (prev : Ptr)
  -- `uthread_yield` at its `swapcontext`
  | yieldSwap (prev : Ptr)
  -- `uthread_yield` after its last `unblock_signals`
  | yieldRet
  -- `uthread_exit` in the unmasked window of its idle loop
  | exitIdle (prev : Ptr)
  -- `uthread_exit` at its `swapcontext`
  | exitSwap (prev : Ptr)
  deriving DecidableEq, Repr

def Frame.errno? : Frame → Option Errno
  | .ioTest _ _ (.failed e) => some e
  | .ioDone _ _ (.failed e) => some e
  | _ => none

/-- `ucontext_t`: a stack, named by the thread it belongs to, with the
activations on it (innermost first) and whether SIGALRM is masked. -/
structure Context where
  onStack : Ptr
  frames : List Frame
  masked : Bool
  deriving DecidableEq, Repr

/-- `tcb_t` without its links. A stack region is named by the TCB it was mapped for. -/
structure Tcbs where
  threadId : Ptr → Int
  state : Ptr → TState
  stack : Ptr → Option Ptr
  priority : Ptr → Int
  creationOrder : Ptr → Int
  ioFd : Ptr → Fd
  ioEvents : Ptr → Option IoDir
  sleepUntilNs : Ptr → Nat
  context : Ptr → Context

/-! ## Tracing -/

inductive TraceEventType
  | create | ready | run | yield | preempt | block | unblock | ioBlock | ioUnblock | sleep | wakeup | exit | steal
  deriving DecidableEq, Repr

structure TraceEvent where
  tid : Int
  type : TraceEventType
  timestampNs : Nat
  coreId : Int
  deriving DecidableEq, Repr

structure Trace where
  buffer : Option (Int → TraceEvent)
  count : Int
  enabled : Bool

/-- Whether `trace_emit` stores its event; one that does not fit undoes its own
increment of `trace_count`. -/
def Trace.records (tr : Trace) : Bool := tr.enabled && tr.buffer.isSome && tr.count < traceBufferSize

def Trace.store (tr : Trace) (e : TraceEvent) : Trace :=
  { tr with buffer := tr.buffer.map fun b => Function.update b tr.count e, count := tr.count + 1 }

/-! ## History

`Event`s form a history variable: they are recorded and never read. -/

inductive Event
  | created (t : Ptr)
  | finished (t : Ptr)
  -- `free(t)` in state `st` while the stack of `onStack` executes
  | freed (t : Ptr) (st : TState) (onStack : Ptr)
  | unmapped (t : Ptr)
  -- `t` is appended to the ready queue
  | enq (t : Ptr)
  -- `t` is taken from the ready queue and dispatched, while a thread with its id is RUNNING or not
  | disp (t : Ptr) (clash : Bool)
  -- `t` executes `uthread_mutex_lock`/`uthread_sem_wait` on `w`
  | arrive (w : WaitObj) (t : Ptr)
  -- `t` is granted `w` on arrival
  | take (w : WaitObj) (t : Ptr)
  -- `u` unlocks/posts `w` and thereby grants it to the waiting thread `t`
  | handoff (w : WaitObj) (u t : Ptr)
  -- `u` unlocks/posts `w` with nobody waiting
  | release (w : WaitObj) (u : Ptr)
  -- `t` returns from an `uthread_mutex_lock`/`uthread_sem_wait` in which it waited
  | leave (w : WaitObj) (t : Ptr)
  | semInit (s : SemId) (count : Int)
  | chanInit (c : Nat) (capacity : Int)
  | store (c : Nat) (t : Ptr) (i : Int) (msg : Msg)
  | load (c : Nat) (t : Ptr) (i : Int) (msg : Msg)
  -- `(_ + 1) % ch->capacity` is evaluated
  | modulo (c : Nat) (capacity : Int)
  -- SIGALRM is delivered to the activation `f` of `t`, above a handler activation or not
  | tick (t : Ptr) (f : Option Frame) (nested : Bool)
  -- `t` calls `uthread_sleep` and reads the clock
  | sleepCall (t : Ptr) (ms now : Nat)
  -- `t` returns from a sleep until `deadline` after `reading` clock readings
  | sleepRet (t : Ptr) (deadline reading : Nat)
  -- `t` blocks in `uthread_read`/`_write`, registered or not
  | ioBlock (t : Ptr) (fd : Fd) (dir : IoDir) (registered : Bool)
  -- `check_io_events` wakes `t`, whose descriptor is ready or not
  | ioEvent (t : Ptr) (ready : Bool)
  -- a descriptor becomes ready or stops being so, no woken thread having yet to use it or some
  | avail (fd : Fd) (dir : IoDir) (b spared : Bool)
  -- `errno` is set, no thread having yet to look at another value of it or some
  | errno (e : Errno) (kept : Bool)
  -- `t` returns from `uthread_create` with the id of its new thread
  | createRet (t tcb : Ptr) (id : Int)
  -- `t` calls `uthread_trace_enable`
  | traceOn (t : Ptr)
  -- `uthread_read`/`_write` returns what its last system call gave, with this `errno`
  | ioRet (t : Ptr) (fd : Fd) (dir : IoDir) (ret : IoResult) (errno : Errno)
  deriving DecidableEq, Repr

end Uthread
