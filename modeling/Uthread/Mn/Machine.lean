import Uthread.Mn.Links

/-!
# The machine of M:N mode

Every virtual processor runs `vp_loop` on an OS thread of its own; the one with
index 0 runs it on the main thread, inside `uthread_mn_run`. A step is one section
under a spinlock, one `swapcontext`, one `trace_emit` or one access to what other
processors may access without a lock. An append, a pop and an `enqueue` that no
lock protects are two steps: the first reads the head or the tail, the second does
the rest. `block_signals` does nothing in this mode.
-/

namespace Uthread

/-- Between the accesses to `count` in `uthread_sem_wait` and `uthread_sem_post`. -/
inductive SemPc
  -- `count--` of `uthread_sem_wait`, before the load and before the store
  | take
  | takeSet (count : Int)
  -- `count++` of `uthread_sem_post` before the store, the test of `wait_head`, and `count--`
  | postSet (count : Int)
  | postTest
  | back
  | backSet (count : Int)
  deriving DecidableEq, Repr

/-- Where a virtual processor's OS thread continues. -/
inductive Pc
  -- its OS thread does not exist yet
  | off
  -- the function of its thread, or `main` before `uthread_mn_run`, between two calls of the library
  | user
  -- `uthread_create_with_priority` before `alloc_tcb`, `global_list_add`, `enqueue`, `trace_emit` and its return
  | createTcb
  | createAdd (tcb : Ptr)
  | createEnq (tcb : Ptr)
  | createTrace (tcb : Ptr)
  | createRet (tcb : Ptr)
  -- before `locked = 1` and before `locked = 0`
  | lockSet (m : MutexId)
  | unlockClear (m : MutexId)
  | sem (s : SemId) (pc : SemPc)
  -- the blocking branch of a wait: before `state = BLOCKED`, `trace_emit`, the test of `wait_tail` and the append
  | park (w : WaitObj)
  | parkTrace (w : WaitObj)
  | appendRead (w : WaitObj)
  | append (w : WaitObj) (tail : Option Ptr)
  -- the waking branch: before the load of `wait_head`, the pop, `state = READY`, `trace_emit`, the test of
  -- `ready_tail` in `enqueue` and the rest of it
  | wakeRead (w : WaitObj)
  | pop (w : WaitObj) (woken : Ptr)
  | wakeMark (woken : Ptr)
  | wakeTrace (woken : Ptr)
  | enqRead (woken : Ptr)
  | wakeEnq (woken : Ptr) (tail : Option Ptr)
  -- `uthread_sleep` behind `state = IO_BLOCKED`, `uthread_read`/`uthread_write` behind it
  | sleepTrace
  | sleepPush
  | ioTrace (fd : Fd) (dir : IoDir)
  | ioAdd (fd : Fd) (dir : IoDir)
  -- `mn_yield` in a call that has blocked, before its test of `prev->state`
  | yieldTest
  -- `mn_yield` before `state = READY`, `trace_emit`, `vp_enqueue` and `swapcontext`, with or without having
  -- called `vp_enqueue`
  | yieldMark
  | yieldTrace
  | yieldEnq
  | swapOut (published : Bool)
  -- `mn_exit` before `trace_emit` and before `setcontext`
  | exitTrace
  | exitSwitch
  -- the loops of `uthread_mn_run`
  | spawn (i : Nat)
  | stop (i : Nat)
  | join (i : Nat)
  | returned
  -- `vp_loop`: `while (vp->running)`, `vp_dequeue`, the ready queue
  | test
  | deq
  | ready
  -- `try_steal`: the loop over victims, the thief section and what follows it
  | probe (start i : Nat)
  | attach (stolenHead : Ptr) (stolenTail : Option Ptr) (stealCount : Int)
  | stealTrace (stolenHead : Ptr)
  | stealDeq
  -- `vp_loop`: the search for a live thread, the dispatch, its `trace_emit` and the `swapcontext`
  | alive
  | dispatch (next : Ptr)
  | dispatchTrace (next : Ptr)
  | switchIn (next : Ptr)
  -- `vp_loop` has returned on a `pthread` of its own
  | done
  deriving DecidableEq, Repr

/-- What a thread's code calls next. An `io` is a `uthread_read`/`uthread_write`
whose first system call would block; one that does not block changes nothing. -/
inductive MnCall
  | create | yield | exit
  | mutexLock (m : MutexId) | mutexUnlock (m : MutexId)
  | semWait (s : SemId) | semPost (s : SemId)
  | sleep (ms : Nat)
  | io (fd : Fd) (dir : IoDir)
  | mnRun
  deriving DecidableEq, Repr

/-- A step: who takes it, what its thread calls, and what the world outside answers. -/
structure MnAct where
  vp : VpId
  call : MnCall := .yield
  now : Nat := 0
  -- the block that `calloc` returns
  addr : Ptr := 0
  callocOk : Bool := true
  mmapOk : Bool := true
  ctlOk : Bool := true

class RunQueues (σ : Type) where
  enqueue : Ptr → σ → σ
  readyTail : σ → Option Ptr
  enqueueAt : Option Ptr → Ptr → σ → σ
  dequeue : σ → Option Ptr × σ
  vpEnqueue : VpId → Ptr → σ → σ
  vpDequeue : VpId → σ → Option Ptr × σ
  localCount : σ → VpId → Int
  steal : VpId → VpId → Nat → σ → Theft × σ
  attach : VpId → Ptr → Option Ptr → Int → σ → σ
  setVpId : Ptr → VpId → σ → σ
  waitHead : σ → WaitObj → Option Ptr
  waitTail : σ → WaitObj → Option Ptr
  waitAppendAt : WaitObj → Option Ptr → Ptr → σ → σ
  waitPop : WaitObj → Ptr → σ → σ
  sleepPush : Ptr → σ → σ
  globalListAdd : Ptr → σ → σ
  gc : (Ptr → Bool) → Nat → σ → List Ptr × σ
  hasLive : (Ptr → TState) → Nat → σ → Bool

instance : RunQueues MnLinks where
  enqueue t := MnLinks.on (·.enqueue t)
  readyTail l := l.readyTail
  enqueueAt tail t := MnLinks.on (·.enqueueAt tail t)
  dequeue := MnLinks.dequeue
  vpEnqueue := MnLinks.vpEnqueue
  vpDequeue := MnLinks.vpDequeue
  localCount := MnLinks.localCount
  steal := MnLinks.steal
  attach := MnLinks.attach
  setVpId := MnLinks.setVpId
  waitHead l := l.waitHead
  waitTail l := l.waitTail
  waitAppendAt w tail t := MnLinks.on (·.waitAppendAt w tail t)
  waitPop w t := MnLinks.on (·.waitPop w t)
  sleepPush t := MnLinks.on (·.sleepPush t)
  globalListAdd t := MnLinks.on (·.globalListAdd t)
  gc := MnLinks.gc
  hasLive st n l := l.toLinks.hasLive st n l.globalThreadList

/-! ## State -/

/-- The machine without its queues. A context is the number of library calls
behind which its thread continues, 0 for a thread not yet in `thread_wrapper`. -/
structure MnCore where
  numVps : Nat
  pc : VpId → Pc
  -- the thread-local `current_thread`
  current : VpId → Option Ptr
  -- the calls behind the point that the code of `current` has reached
  pos : VpId → Nat
  running : VpId → Bool
  state : Ptr → TState
  threadId : Ptr → Int
  sleepUntilNs : Ptr → Nat
  ioFd : Ptr → Fd
  ioEvents : Ptr → Option IoDir
  context : Ptr → Nat
  -- whether a TCB and its stack are allocated, and a bound above all addresses that ever were
  allocated : Ptr → Bool
  brk : Ptr
  nextThreadId : Int
  mutexLocked : MutexId → Int
  semCount : SemId → Int
  interest : Fd → Option (Ptr × IoDir)
  tr : Trace
  -- history: the ids drawn, which of them a TCB has, and those of the threads ever created
  drawn : Nat
  ticket : Ptr → Nat
  threads : List Nat
  -- for an id, the starts of the thread's function and whether it has exited
  starts : Nat → Nat
  ended : Nat → Bool
  -- for the last TCB at an address, whether its thread was created, the calls the thread made, and the mutex
  -- in whose `uthread_mutex_lock` it is blocked
  created : Ptr → Bool
  calls : Ptr → Nat
  lockWait : Ptr → Option MutexId
  -- the threads between `uthread_mutex_lock` and `uthread_mutex_unlock`
  holders : MutexId → List Ptr

structure Mn (σ : Type) extends MnCore where
  q : σ

namespace MnCore

def goto (v : VpId) (pc : Pc) (c : MnCore) : MnCore := { c with pc := Function.update c.pc v pc }

def setState (t : Ptr) (st : TState) (c : MnCore) : MnCore := { c with state := Function.update c.state t st }

def emit (tcb : Ptr) (type : TraceEventType) (coreId : Int) (now : Nat) (c : MnCore) : MnCore :=
  { c with tr := if c.tr.records then c.tr.store ⟨c.threadId tcb, type, now % 2 ^ 64, coreId⟩ else c.tr }

/-- The code of `v`'s thread has come to its next call. -/
def beginCall (v : VpId) (c : MnCore) : MnCore :=
  { c with
    pos := Function.update c.pos v (c.pos v + 1)
    calls := match c.current v with
      | some t => Function.update c.calls t (c.pos v + 1)
      | none => c.calls }

/-- `alloc_tcb`, the field assignments, `alloc_guarded_stack` and `makecontext` of `uthread_create_with_priority`. -/
def allocTcb (p : Ptr) (ok : Bool) (c : MnCore) : MnCore :=
  { c with
    allocated := Function.update c.allocated p ok
    brk := max c.brk (p + 1)
    nextThreadId := cint (c.nextThreadId + 1)
    threadId := Function.update c.threadId p c.nextThreadId
    state := Function.update c.state p .ready
    ioFd := Function.update c.ioFd p (-1)
    ioEvents := Function.update c.ioEvents p none
    sleepUntilNs := Function.update c.sleepUntilNs p 0
    context := Function.update c.context p 0
    drawn := c.drawn + 1
    ticket := Function.update c.ticket p c.drawn
    threads := if ok then c.drawn :: c.threads else c.threads
    created := Function.update c.created p ok
    calls := Function.update c.calls p 0
    lockWait := Function.update c.lockWait p none }

def saveContext (v : VpId) (prev : Ptr) (c : MnCore) : MnCore :=
  { c with context := Function.update c.context prev (c.pos v) }

/-- `swapcontext(&vp->sched_context, TCB_CONTEXT(next))`; an initial context starts the thread's function. -/
def loadContext (v : VpId) (next : Ptr) (c : MnCore) : MnCore :=
  { c with
    pos := Function.update c.pos v (c.context next)
    starts := if c.context next = 0 then Function.update c.starts (c.ticket next) (c.starts (c.ticket next) + 1) else c.starts
    lockWait := Function.update c.lockWait next none }

def finish (t : Ptr) (c : MnCore) : MnCore :=
  { c with
    state := Function.update c.state t .finished
    ended := Function.update c.ended (c.ticket t) true }

def setCurrent (v : VpId) (t : Ptr) (c : MnCore) : MnCore :=
  { c with current := Function.update c.current v (some t) }

def setRunning (v : VpId) (b : Bool) (c : MnCore) : MnCore :=
  { c with running := Function.update c.running v b }

def setLocked (m : MutexId) (n : Int) (hs : List Ptr) (c : MnCore) : MnCore :=
  { c with
    mutexLocked := Function.update c.mutexLocked m n
    holders := Function.update c.holders m hs }

def setCount (sm : SemId) (n : Int) (c : MnCore) : MnCore := { c with semCount := Function.update c.semCount sm n }

def setLockWait (t : Ptr) (w : WaitObj) (c : MnCore) : MnCore :=
  { c with lockWait := match w with
      | .mutex m => Function.update c.lockWait t (some m)
      | .sem _ => c.lockWait }

/-- A mutex goes from the unlocking thread to the woken one. -/
def handOver (w : WaitObj) (u : Option Ptr) (woken : Ptr) (c : MnCore) : MnCore :=
  { c with holders := match w, u with
      | .mutex m, some u => Function.update c.holders m (woken :: (c.holders m).erase u)
      | _, _ => c.holders }

def setSleep (t : Ptr) (deadline : Nat) (c : MnCore) : MnCore :=
  { c with sleepUntilNs := Function.update c.sleepUntilNs t deadline }

def setIo (t : Ptr) (fd : Fd) (dir : IoDir) (c : MnCore) : MnCore :=
  { c with
    ioFd := Function.update c.ioFd t fd
    ioEvents := Function.update c.ioEvents t (some dir) }

def register (ok : Bool) (t : Ptr) (fd : Fd) (dir : IoDir) (c : MnCore) : MnCore :=
  { c with interest := if (c.interest fd).isNone && ok then Function.update c.interest fd (some (t, dir)) else c.interest }

end MnCore

def stealStart (numVps : Nat) (thief : VpId) (now : Nat) : Nat := (thief * 31 + now % 2 ^ 64) % 2 ^ 64 % 2 ^ 32 % numVps

namespace Mn

variable {σ : Type} [RunQueues σ]

def on (f : MnCore → MnCore) (s : Mn σ) : Mn σ := { s with toMnCore := f s.toMnCore }

def goto (v : VpId) (pc : Pc) (s : Mn σ) : Mn σ := s.on (.goto v pc)

def mapQ (f : σ → σ) (s : Mn σ) : Mn σ := { s with q := f s.q }

/-! ## Threads -/

/-- `gc_finished_threads`: the stack goes with the TCB. -/
def gcFinishedThreads (v : VpId) (s : Mn σ) : Mn σ :=
  let r := RunQueues.gc (fun t => s.state t = .finished ∧ some t ≠ s.current v) s.brk s.q
  { s with
    q := r.2
    allocated := fun t => s.allocated t && !r.1.contains t }

/-- `alloc_tcb` to `makecontext`; `calloc` returns no block that is allocated. -/
def createTcb (a : MnAct) (s : Mn σ) : Option (Mn σ) :=
  if a.callocOk then
    if s.allocated a.addr then none
    else some ((s.on (.allocTcb a.addr a.mmapOk)).goto a.vp (if a.mmapOk then .createAdd a.addr else .user))
  else some (s.goto a.vp .user)

def mnYield (v : VpId) (prev : Ptr) (s : Mn σ) : Mn σ :=
  if s.state prev = .running then s.goto v .yieldMark else s.goto v (.swapOut false)

/-! ## Mutexes and semaphores -/

def mutexLock (v : VpId) (m : MutexId) (s : Mn σ) : Mn σ :=
  if s.mutexLocked m = 0 then s.goto v (.lockSet m) else s.goto v (.park (.mutex m))

def mutexUnlock (v : VpId) (m : MutexId) (s : Mn σ) : Mn σ :=
  if (RunQueues.waitHead s.q (.mutex m)).isSome then s.goto v (.wakeRead (.mutex m)) else s.goto v (.unlockClear m)

def semWait (v : VpId) (sm : SemId) (s : Mn σ) : Mn σ :=
  if 0 < s.semCount sm then s.goto v (.sem sm .take) else s.goto v (.park (.sem sm))

def semStep (v : VpId) (sm : SemId) (s : Mn σ) : SemPc → Mn σ
  | .take => s.goto v (.sem sm (.takeSet (cint (s.semCount sm - 1))))
  | .takeSet n => (s.on (.setCount sm n)).goto v .user
  | .postSet n => (s.on (.setCount sm n)).goto v (.sem sm .postTest)
  | .postTest => s.goto v (if (RunQueues.waitHead s.q (.sem sm)).isSome then .sem sm .back else .user)
  | .back => s.goto v (.sem sm (.backSet (cint (s.semCount sm - 1))))
  | .backSet n => (s.on (.setCount sm n)).goto v (.wakeRead (.sem sm))

def append (v : VpId) (w : WaitObj) (tail : Option Ptr) (t : Ptr) (s : Mn σ) : Mn σ :=
  ((s.mapQ (RunQueues.waitAppendAt w tail t)).on (.setLockWait t w)).goto v .yieldTest

/-- `wait_head = woken->next` and what follows, up to `next = NULL`. -/
def pop (v : VpId) (w : WaitObj) (woken : Ptr) (s : Mn σ) : Mn σ :=
  ((s.mapQ (RunQueues.waitPop w woken)).on (.handOver w (s.current v) woken)).goto v (.wakeMark woken)

/-! ## Sleeping and I/O -/

def uthreadSleep (v : VpId) (ms : Nat) (t : Ptr) (now : Nat) (s : Mn σ) : Mn σ :=
  let s := s.on (.setSleep t ((now % 2 ^ 64 + ms % 2 ^ 32 * 1000000) % 2 ^ 64))
  (s.on (.setState t .ioBlocked)).goto v .sleepTrace

def uthreadIo (v : VpId) (fd : Fd) (dir : IoDir) (t : Ptr) (s : Mn σ) : Mn σ :=
  ((s.on (.setIo t fd dir)).on (.setState t .ioBlocked)).goto v (.ioTrace fd dir)

/-! ## Calls -/

/-- The first step of a call; `main` has no thread and only creates or runs the others. -/
def call (a : MnAct) (s : Mn σ) : Option (Mn σ) :=
  let v := a.vp
  let s := s.on (.beginCall v)
  match a.call, s.current v with
  | .create, _ => some ((s.gcFinishedThreads v).goto v .createTcb)
  | .mnRun, none => some (s.goto v (.spawn 1))
  | .yield, some t => some (s.mnYield v t)
  | .exit, some t => some ((s.on (.finish t)).goto v .exitTrace)
  | .mutexLock m, some _ => some (s.mutexLock v m)
  | .mutexUnlock m, some _ => some (s.mutexUnlock v m)
  | .semWait sm, some _ => some (s.semWait v sm)
  | .semPost sm, some _ => some (s.goto v (.sem sm (.postSet (cint (s.semCount sm + 1)))))
  | .sleep ms, some t => some (s.uthreadSleep v ms t a.now)
  | .io fd dir, some t => some (s.uthreadIo v fd dir t)
  | _, _ => none

/-! ## Virtual processors -/

def leave (v : VpId) (s : Mn σ) : Mn σ := s.goto v (if v = 0 then .stop 1 else .done)

def took (v : VpId) (r : Option Ptr × σ) (pc : Pc) (s : Mn σ) : Mn σ :=
  { s with q := r.2 }.goto v (r.1.elim pc .dispatch)

def probe (v : VpId) (start i : Nat) (s : Mn σ) : Mn σ :=
  if i < s.numVps then
    let vid := (start + i) % s.numVps
    if vid = v then s.goto v (.probe start (i + 1))
    else if RunQueues.localCount s.q vid ≤ 1 then s.goto v (.probe start (i + 1))
    else
      let stealCount := RunQueues.localCount s.q vid / 2
      let r := RunQueues.steal v vid stealCount.toNat s.q
      let s := { s with q := r.2 }
      match r.1.stolenHead with
      | some stolenHead => s.goto v (.attach stolenHead r.1.stolenTail stealCount)
      | none => s.goto v (.probe start (i + 1))
  else s.goto v .alive

def dispatch (v : VpId) (next : Ptr) (s : Mn σ) : Mn σ :=
  let s := s.on (.setCurrent v next)
  let s := s.on (.setState next .running)
  (s.mapQ (RunQueues.setVpId next v)).goto v (.dispatchTrace next)

def inCall (a : MnAct) (t : Ptr) (s : Mn σ) : Pc → Option (Mn σ)
  | .lockSet m => some ((s.on (.setLocked m 1 (t :: s.holders m))).goto a.vp .user)
  | .unlockClear m => some ((s.on (.setLocked m 0 ((s.holders m).erase t))).goto a.vp .user)
  | .sem sm pc => some (s.semStep a.vp sm pc)
  | .park w => some ((s.on (.setState t .blocked)).goto a.vp (.parkTrace w))
  | .parkTrace w => some ((s.on (.emit t .block 0 a.now)).goto a.vp (.appendRead w))
  | .appendRead w => some (s.goto a.vp (.append w (RunQueues.waitTail s.q w)))
  | .append w tail => some (s.append a.vp w tail t)
  | .wakeRead w => (RunQueues.waitHead s.q w).map fun woken => s.goto a.vp (.pop w woken)
  | .pop w woken => some (s.pop a.vp w woken)
  | .wakeMark woken => some ((s.on (.setState woken .ready)).goto a.vp (.wakeTrace woken))
  | .wakeTrace woken => some ((s.on (.emit woken .unblock 0 a.now)).goto a.vp (.enqRead woken))
  | .enqRead woken => some (s.goto a.vp (.wakeEnq woken (RunQueues.readyTail s.q)))
  | .wakeEnq woken tail => some ((s.mapQ (RunQueues.enqueueAt tail woken)).goto a.vp .user)
  | .sleepTrace => some ((s.on (.emit t .sleep 0 a.now)).goto a.vp .sleepPush)
  | .sleepPush => some ((s.mapQ (RunQueues.sleepPush t)).goto a.vp .yieldTest)
  | .ioTrace fd dir => some ((s.on (.emit t .ioBlock 0 a.now)).goto a.vp (.ioAdd fd dir))
  | .ioAdd fd dir => some ((s.on (.register a.ctlOk t fd dir)).goto a.vp .yieldTest)
  | .yieldTest => some (s.mnYield a.vp t)
  | .yieldMark => some ((s.on (.setState t .ready)).goto a.vp .yieldTrace)
  | .yieldTrace => some ((s.on (.emit t .yield a.vp a.now)).goto a.vp .yieldEnq)
  | .yieldEnq => some ((s.mapQ (RunQueues.vpEnqueue a.vp t)).goto a.vp (.swapOut true))
  | .swapOut _ => some ((s.on (.saveContext a.vp t)).goto a.vp .test)
  | .exitTrace => some ((s.on (.emit t .exit a.vp a.now)).goto a.vp .exitSwitch)
  | .exitSwitch => some (s.goto a.vp .test)
  | _ => none

def step (s : Mn σ) (a : MnAct) : Option (Mn σ) :=
  let v := a.vp
  match s.pc v with
  | .off => none
  | .user => s.call a
  | .createTcb => s.createTcb a
  | .createAdd tcb => some ((s.mapQ (RunQueues.globalListAdd tcb)).goto v (.createEnq tcb))
  | .createEnq tcb => some ((s.mapQ (RunQueues.enqueue tcb)).goto v (.createTrace tcb))
  | .createTrace tcb => some ((s.on (.emit tcb .create 0 a.now)).goto v (.createRet tcb))
  | .createRet _ => some (s.goto v .user)
  | .spawn i =>
    if i < s.numVps then some ((s.goto i .test).goto v (.spawn (i + 1))) else some (s.goto v .test)
  | .stop i =>
    if i < s.numVps then some ((s.on (.setRunning i false)).goto v (.join i))
    else some ((s.gcFinishedThreads v).goto v .returned)
  | .join i => if s.pc i = .done then some (s.goto v (.stop (i + 1))) else none
  | .returned => none
  | .test => some (if s.running v then s.goto v .deq else s.leave v)
  | .deq => some (s.took v (RunQueues.vpDequeue v s.q) .ready)
  | .ready =>
    some (s.took v (RunQueues.dequeue s.q) (if s.numVps ≤ 1 then .alive else .probe (stealStart s.numVps v a.now) 0))
  | .probe start i => some (s.probe v start i)
  | .attach h t n => some ((s.mapQ (RunQueues.attach v h t n)).goto v (.stealTrace h))
  | .stealTrace h => some ((s.on (.emit h .steal v a.now)).goto v .stealDeq)
  | .stealDeq => some (s.took v (RunQueues.vpDequeue v s.q) .alive)
  | .alive => some (if RunQueues.hasLive s.state s.brk s.q then s.goto v .test else s.leave v)
  | .dispatch next => some (s.dispatch v next)
  | .dispatchTrace next => some ((s.on (.emit next .run v a.now)).goto v (.switchIn next))
  | .switchIn next => some ((s.on (.loadContext v next)).goto v .user)
  | .done => none
  | pc => (s.current v).bind fun t => s.inCall a t pc

/-! ## One call as one step -/

def midCall : Pc → Bool
  | .createTcb | .createAdd _ | .createEnq _ | .createTrace _ | .createRet _ | .lockSet _ | .unlockClear _ | .sem _ _ => true
  | .park _ | .parkTrace _ | .appendRead _ | .append _ _ => true
  | .wakeRead _ | .pop _ _ | .wakeMark _ | .wakeTrace _ | .enqRead _ | .wakeEnq _ _ => true
  | .sleepTrace | .sleepPush | .ioTrace _ _ | .ioAdd _ _ => true
  | .yieldTest | .yieldMark | .yieldTrace | .yieldEnq | .swapOut _ | .exitTrace | .exitSwitch => true
  | _ => false

def settle (a : MnAct) : Nat → Mn σ → Option (Mn σ)
  | 0, s => some s
  | n + 1, s => if midCall (s.pc a.vp) then (s.step a).bind (settle a n) else some s

/-- A step of `vp_loop`, or a thread's code up to and including its next call with its context switch. -/
def segment (s : Mn σ) (a : MnAct) : Option (Mn σ) := (s.step a).bind (settle a 10)

/-- What `v` has read of a queue and goes on to rely on is still so, and no other virtual processor runs the
thread that blocks in `v`. -/
def Timely (s : Mn σ) (v : VpId) : Prop :=
  match s.pc v with
  | .append w tail => RunQueues.waitTail s.q w = tail
  | .pop w woken => RunQueues.waitHead s.q w = some woken
  | .wakeEnq _ tail => RunQueues.readyTail s.q = tail
  | .yieldTest => ∀ t ∈ s.current v, s.state t ≠ .running
  | _ => True

end Mn

/-! ## Initialisation -/

/-- `uthread_init_mn` with `n` virtual processors; semaphores hold what their initialisation gave them. -/
def initMn (n : Nat) (semCount : SemId → Int) (tr : Trace) : Mn MnLinks where
  numVps := n
  pc v := if v = 0 then .user else .off
  current _ := none
  pos _ := 0
  running v := v < n
  state _ := .ready
  threadId _ := 0
  sleepUntilNs _ := 0
  ioFd _ := 0
  ioEvents _ := none
  context _ := 0
  allocated _ := false
  brk := 0
  nextThreadId := 0
  mutexLocked _ := 0
  semCount := semCount
  interest _ := none
  tr := tr
  drawn := 0
  ticket _ := 0
  threads := []
  starts _ := 0
  ended _ := false
  created _ := false
  calls _ := 0
  lockWait _ := none
  holders _ := []
  q := {
    next := fun _ => none
    readyHead := none, readyTail := none, readyCount := 0
    waitHead := fun _ => none, waitTail := fun _ => none
    sleepListHead := none, globalThreadList := none
    globalNext := fun _ => none, globalPrev := fun _ => none
    localHead := fun _ => none, localTail := fun _ => none, localCount := fun _ => 0
    vpId := fun _ => 0 }

def maxVirtualProcs : Int := 64

def clampProcessors (numProcessors : Int) : Int :=
  let n := if numProcessors < 1 then 1 else numProcessors
  if n > maxVirtualProcs then maxVirtualProcs else n

def uthreadInitMn (numProcessors : Int) : (SemId → Int) → Trace → Mn MnLinks := initMn (clampProcessors numProcessors).toNat

def loaded (n k : Nat) (semCount : SemId → Int) (tr : Trace) : MnCore :=
  { (initMn n semCount tr).toMnCore with
    allocated := fun t => t < k
    brk := k
    threadId := fun t => if t < k then t else 0
    nextThreadId := k
    drawn := k
    ticket := fun t => if t < k then t else 0
    threads := (List.range k).reverse
    created := fun t => t < k }

end Uthread
