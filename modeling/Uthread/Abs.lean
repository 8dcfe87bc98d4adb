import Uthread.LoopRep
import Uthread.Core
import Uthread.Lib.Runs

/-!
# The scheduler over lists

What the library is for, without links: every list is a list, and the running
of a process is a sequence of the small transitions `Prim`. A step of the
machine is a chain of them (`Uthread.Sim`), so an invariant of runs is proved
by one case per transition.
-/

namespace Uthread

/-! ## Stacks -/

/-- What a thread that is not dispatchable waits for. -/
inductive Call
  | wait (w : WaitObj) | sleep (deadline : Nat) | io (fd : Fd) (dir : IoDir)
  deriving DecidableEq

/-- The blocking call a stack is in, below activations of `uthread_yield` and `alrm_handler`. -/
def callOf : List Frame → Option Call
  | .waiting w :: _ => some (.wait w)
  | .sleeping deadline :: _ => some (.sleep deadline)
  | .ioWait fd dir :: _ => some (.io fd dir)
  | .alrmHandler :: fs => callOf fs
  | .yieldEntry :: fs => callOf fs
  | .yieldGc :: fs => callOf fs
  | .yieldIdle _ :: fs => callOf fs
  | .yieldSwap _ :: fs => callOf fs
  | .yieldRet :: fs => callOf fs
  | _ => none

def Frame.prev? : Frame → Option Ptr
  | .yieldIdle p => some p
  | .yieldSwap p => some p
  | .exitIdle p => some p
  | .exitSwap p => some p
  | _ => none

def Frame.isExit : Frame → Bool
  | .exitIdle _ => true
  | .exitSwap _ => true
  | _ => false

def Frame.chan? : Frame → Option Nat
  | .chanSend c _ _ => some c
  | .chanRecv c _ _ => some c
  | _ => none

/-- What an activation may be directly above: nothing, the thread's own code, a
caller of the synchronisation functions, or anything. -/
inductive Level
  | base | direct | waits | free

def Frame.level : Frame → Level
  | .start => .base
  | .user => .base
  | .create _ => .direct
  | .createRet _ => .direct
  | .sleeping _ => .direct
  | .ioTest _ _ _ => .direct
  | .ioBlock _ _ => .direct
  | .ioWait _ _ => .direct
  | .ioRetry _ _ => .direct
  | .ioDone _ _ _ => .direct
  | .chanSend _ _ _ => .direct
  | .chanRecv _ _ _ => .direct
  | .exitIdle _ => .direct
  | .exitSwap _ => .direct
  | .waiting _ => .waits
  | _ => .free

def Frame.calls : Frame → Bool
  | .user => true
  | .chanSend _ _ _ => true
  | .chanRecv _ _ _ => true
  | _ => false

/-- Activations right behind a collection pass, where SIGALRM is masked. -/
def Frame.sweeps : Frame → Bool
  | .create _ => true
  | .yieldGc => true
  | _ => false

def Frame.idles : Frame → Bool
  | .yieldIdle _ => true
  | .exitIdle _ => true
  | _ => false

def Above (f g : Frame) : Prop :=
  g.sweeps = false ∧ match f.level with
    | .base => False
    | .direct => g = .user
    | .waits => g.calls = true
    | .free => True

def Seated (fs : List Frame) : Prop := fs.IsChain Above

def Clear (fs : List Frame) : Prop := ∀ f, fs.head? = some f → f.sweeps = false

/-- The activation a suspended thread continues at. -/
def Frame.suspends : Frame → Bool
  | .start => true
  | .yieldSwap _ => true
  | .exitSwap _ => true
  | _ => false

inductive SyncOp
  | lock (m : MutexId) | unlock (m : MutexId) | wait (sm : SemId) | post (sm : SemId)

def WaitObj.acquire : WaitObj → SyncOp
  | .mutex m => .lock m
  | .sem sm => .wait sm

/-- Where a synchronisation function is called: the stack before, and the
stack it returns to. -/
inductive Site : SyncOp → List Frame → List Frame → Prop
  | lock {n fs} : Site (.lock (.user n)) (.user :: fs) (.user :: fs)
  | unlock {n fs} : Site (.unlock (.user n)) (.user :: fs) (.user :: fs)
  | wait {n fs} : Site (.wait (.user n)) (.user :: fs) (.user :: fs)
  | post {n fs} : Site (.post (.user n)) (.user :: fs) (.user :: fs)
  | sendWait {c v fs} : Site (.wait (.space c)) (.chanSend c v .wait :: fs) (.chanSend c v .lock :: fs)
  | sendLock {c v fs} : Site (.lock (.chan c)) (.chanSend c v .lock :: fs) (.chanSend c v .access :: fs)
  | sendUnlock {c v fs} : Site (.unlock (.chan c)) (.chanSend c v .unlock :: fs) (.chanSend c v .post :: fs)
  | sendPost {c v fs} : Site (.post (.messages c)) (.chanSend c v .post :: fs) fs
  | recvWait {c v fs} : Site (.wait (.messages c)) (.chanRecv c v .wait :: fs) (.chanRecv c v .lock :: fs)
  | recvLock {c v fs} : Site (.lock (.chan c)) (.chanRecv c v .lock :: fs) (.chanRecv c v .access :: fs)
  | recvUnlock {c v fs} : Site (.unlock (.chan c)) (.chanRecv c v .unlock :: fs) (.chanRecv c v .post :: fs)
  | recvPost {c v fs} : Site (.post (.space c)) (.chanRecv c v .post :: fs) fs

def Core.Yields (fd : Fd) (dir : IoDir) (ret : IoResult) (c : Core) : Prop :=
  (ret = .failed .eagain → c.avail (fd, dir) = false) ∧ ∀ e, ret = .failed e → c.errno = e

/-- Changes of the running thread's stack that come with no other change. -/
inductive FrameMove (c : Core) : List Frame → List Frame → Prop
  | callYield {fs} : FrameMove c (.user :: fs) (.yieldEntry :: .user :: fs)
  | callCreate {prio fs} : FrameMove c (.user :: fs) (.create prio :: .user :: fs)
  | callSend {id v fs} : (c.chan id).isSome → c.tcb.state c.currentThread = .running →
      FrameMove c (.user :: fs) (.chanSend id v .wait :: .user :: fs)
  | callRecv {id fs} : (c.chan id).isSome → c.tcb.state c.currentThread = .running →
      FrameMove c (.user :: fs) (.chanRecv id 0 .wait :: .user :: fs)
  | callIo {fd dir ret fs} : c.Yields fd dir ret → FrameMove c (.user :: fs) (.ioTest fd dir ret :: .user :: fs)
  | tested {fd dir ret fs} : (ret.isFailed = true → c.errno ≠ .eagain) →
      FrameMove c (.ioTest fd dir ret :: fs) (.ioDone fd dir ret :: fs)
  | wouldBlock {fd dir ret fs} : ret.isFailed = true → c.errno = .eagain →
      FrameMove c (.ioTest fd dir ret :: fs) (.ioBlock fd dir :: fs)
  | start {fs} : FrameMove c (.start :: fs) (.user :: fs)
  | created {prio t fs} : FrameMove c (.create prio :: fs) (.createRet t :: fs)
  | notCreated {prio fs} : FrameMove c (.create prio :: fs) fs
  | collected {fs} : FrameMove c (.yieldEntry :: fs) (.yieldGc :: fs)
  | save {fs} : FrameMove c (.yieldGc :: fs) (.yieldSwap c.currentThread :: fs)
  | idle {fs} : c.tcb.state c.currentThread ≠ .running →
      FrameMove c (.yieldGc :: fs) (.yieldIdle c.currentThread :: fs)
  | idleSave {fs} : FrameMove c (.yieldIdle c.currentThread :: fs) (.yieldSwap c.currentThread :: fs)
  | resumed {p fs} : FrameMove c (.yieldSwap p :: fs) (.yieldRet :: fs)
  | yieldRet {fs} : c.tcb.state c.currentThread = .running → FrameMove c (.yieldRet :: fs) fs
  | sigreturn {fs} : FrameMove c (.alrmHandler :: fs) fs
  | ioReady {fd dir fs} : FrameMove c (.ioWait fd dir :: fs) (.ioRetry fd dir :: fs)
  | retried {fd dir ret fs} : c.Yields fd dir ret → FrameMove c (.ioRetry fd dir :: fs) (.ioDone fd dir ret :: fs)
  | exitSave {fs} : c.tcb.state c.currentThread = .finished →
      FrameMove c (.user :: fs) (.exitSwap c.currentThread :: .user :: fs)
  | exitIdle {fs} : c.tcb.state c.currentThread = .finished →
      FrameMove c (.user :: fs) (.exitIdle c.currentThread :: .user :: fs)
  | exitIdleSave {fs} : FrameMove c (.exitIdle c.currentThread :: fs) (.exitSwap c.currentThread :: fs)

/-! ## States and operations -/

structure Abs extends Core where
  q : Layout
  glob : List Ptr

namespace Abs

def on (f : Core → Core) (a : Abs) : Abs := { a with toCore := f a.toCore }

def reap (t : Ptr) (a : Abs) : Abs :=
  { a.on fun c => (c.freeGuardedStack t).free t with glob := a.glob.erase t }

def ioWake (t : Ptr) (a : Abs) : Abs :=
  { a.on fun c =>
      let c := c.note (.ioEvent t (c.ready t))
      (((c.epollCtlDel (c.tcb.ioFd t)).setState t .ready).emit t .ioUnblock).note (.enq t) with
    q := a.q.push .ready t }

def sleepWake (t : Ptr) (a : Abs) : Abs :=
  { a.on fun c => (((c.setSleepUntil t 0).setState t .ready).emit t .wakeup).note (.enq t) with
    q := (a.q.drop .sleep t).push .ready t }

def preempt (a : Abs) : Abs :=
  let cur := a.currentThread
  { a.on fun c => ((c.setState cur .ready).emit cur .yield).note (.enq cur) with q := a.q.push .ready cur }

def switch (next : Ptr) (a : Abs) : Abs :=
  { a.on fun c =>
      let c' := { c with currentThread := next }
      (((c'.setState next .running).emit next .run).note (.disp next (c.idClash next))).swapcontext c.currentThread next with
    q := a.q.drop .ready next }

def create (priority : Int) (a : Abs) : Abs :=
  let t := a.brk
  { a.on fun c => ((((c.allocTcb priority).makeContext t).note (.enq t)).emit t .create).note (.created t) with
    q := a.q.push .ready t
    glob := t :: a.glob }

def finish (a : Abs) : Abs :=
  let cur := a.currentThread
  a.on fun c => ((c.setState cur .finished).note (.finished cur)).emit cur .exit

def block (w : WaitObj) (a : Abs) : Abs :=
  let cur := a.currentThread
  { a.on fun c =>
      let c := ((c.setState cur .blocked).emit cur .block).note (.arrive w cur)
      c.setFrames (.yieldEntry :: .waiting w :: c.run.frames) with
    q := a.q.push (.wait w) cur }

def take (w : WaitObj) (a : Abs) : Abs :=
  let cur := a.currentThread
  a.on fun c => (c.note (.arrive w cur)).note (.take w cur)

/-- The running thread grants `w` to the waiting thread `t`. -/
def handoff (w : WaitObj) (t : Ptr) (a : Abs) : Abs :=
  { a.on fun c => (((c.setState t .ready).emit t .unblock).note (.enq t)).note (.handoff w a.currentThread t) with
    q := (a.q.drop (.wait w) t).push .ready t }

def release (w : WaitObj) (a : Abs) : Abs := a.on (.note (.release w a.currentThread))

def sleep (ms : Nat) (a : Abs) : Abs :=
  let cur := a.currentThread
  let deadline := (a.getTimeNs + (ms % 2 ^ 32) * 1000000) % 2 ^ 64
  { a.on fun c =>
      let c := (c.note (.sleepCall cur (ms % 2 ^ 32) c.getTimeNs)).tickClock
      let c := ((c.setSleepUntil cur deadline).setState cur .ioBlocked).emit cur .sleep
      c.setFrames (.yieldEntry :: .sleeping deadline :: c.run.frames) with
    q := a.q.pushFront .sleep cur }

def ioBlock (env : Env) (fd : Fd) (dir : IoDir) (fs : List Frame) (a : Abs) : Abs :=
  let cur := a.currentThread
  a.on fun c =>
    let c := (((c.setIoFd cur fd).setIoEvents cur dir).setState cur .ioBlocked).emit cur .ioBlock
    let c := c.note (.ioBlock cur fd dir (c.ctlAddOk env fd))
    (c.epollCtlAdd env fd cur dir).setFrames (.yieldEntry :: .ioWait fd dir :: fs)

def chanInit (id : Nat) (ch : Channel) (a : Abs) : Abs :=
  a.on fun c => { c with
    chan := Function.update c.chan id (some ch)
    semCount := Function.update (Function.update c.semCount (.space id) (some (cint ch.capacity)))
      (.messages id) (some (cint 0))
    mutexLocked := Function.update c.mutexLocked (.chan id) (some 0)
    log := .semInit (.messages id) (cint 0) :: .semInit (.space id) (cint ch.capacity) ::
      .chanInit id ch.capacity :: c.log }

end Abs

/-- Changes that no scheduling depends on. -/
inductive Quiet (c : Core) : Core → Prop
  | mask (b : Bool) : Quiet c { c with run := { c.run with masked := b } }
  | tickClock : Quiet c c.tickClock
  | scheduler (p : Option Policy) : Quiet c { c with currentScheduler := p }
  | traceOff : Quiet c { c with tr := { c.tr with enabled := false } }
  | exit : Quiet c { c with exited := true }
  | ioFd (fd : Fd) : c.tcb.state c.currentThread = .running → Quiet c (c.setIoFd c.currentThread fd)

inductive ChanMove (c : Core) (id : Nat) (ch : Channel) : Core → Prop
  | store {v fs} : c.run.frames = .chanSend id v .access :: fs →
      ChanMove c id ch (((c.setChan id { ch with buffer := Function.update ch.buffer ch.tail v }).note
        (.store id c.currentThread ch.tail v)).setFrames (.chanSend id v .advance :: fs))
  | tail {v fs} : c.run.frames = .chanSend id v .advance :: fs →
      ChanMove c id ch (((c.setChan id { ch with tail := (ch.tail + 1).tmod ch.capacity }).note
        (.modulo id ch.capacity)).setFrames (.chanSend id v .unlock :: fs))
  | load {v fs} : c.run.frames = .chanRecv id v .access :: fs →
      ChanMove c id ch ((c.note (.load id c.currentThread ch.head (ch.buffer ch.head))).setFrames
        (.chanRecv id (ch.buffer ch.head) .advance :: fs))
  | head {v fs} : c.run.frames = .chanRecv id v .advance :: fs →
      ChanMove c id ch (((c.setChan id { ch with head := (ch.head + 1).tmod ch.capacity }).note
        (.modulo id ch.capacity)).setFrames (.chanRecv id v .unlock :: fs))

inductive Prim (a : Abs) : Abs → Prop
  | quiet {c} : Quiet a.toCore c → Prim a { a with toCore := c }
  | tick : Clear a.run.frames →
      ((∀ f, a.run.frames.head? = some f → f.idles = false) → a.tcb.state a.currentThread = .running) →
      Prim a (a.on fun c => (c.note (.tick c.currentThread c.run.frames.head? (.alrmHandler ∈ c.run.frames))).setFrames
        (.yieldEntry :: .alrmHandler :: c.run.frames))
  | leave {w fs} : a.tcb.state a.currentThread = .running → a.run.frames = .waiting w :: fs →
      Prim a (a.on fun c => (c.note (.leave w c.currentThread)).setFrames fs)
  | sleepRet {d fs} : a.tcb.state a.currentThread = .running → a.run.frames = .sleeping d :: fs →
      Prim a (a.on fun c => (c.note (.sleepRet c.currentThread d c.readings)).setFrames fs)
  | ioRet {fd dir ret fs} : a.tcb.state a.currentThread = .running → a.run.frames = .ioDone fd dir ret :: fs →
      Prim a (a.on fun c => (c.note (.ioRet c.currentThread fd dir ret c.errno)).setFrames fs)
  | createRet {t fs} : a.tcb.state a.currentThread = .running → a.run.frames = .createRet t :: fs →
      Prim a (a.on fun c => (c.note (.createRet c.currentThread t (c.tcb.threadId t))).setFrames fs)
  | avail {fd dir b} : Prim a (a.on (.setAvail fd dir b))
  | errno {e} : Prim a (a.on (.setErrno e))
  | traceOn : Prim a (a.on fun c => (c.note (.traceOn c.currentThread)).enableTrace)
  | move {fs} : FrameMove a.toCore a.run.frames fs →
      (a.tcb.state a.currentThread ≠ .running → a.tcb.state a.currentThread ≠ .finished →
        callOf fs = callOf a.run.frames) → Prim a (a.on (.setFrames fs))
  | reap {t} : t ∈ a.glob → a.tcb.state t = .finished → t ≠ a.currentThread → Prim a (a.reap t)
  | ioWake {t fd dir} : a.interest fd = some (t, dir) → Prim a (a.ioWake t)
  | sleepWake {t} : t ∈ a.q .sleep → (∃ i < a.readings, a.tcb.sleepUntilNs t ≤ a.clock i % 2 ^ 64) → Prim a (a.sleepWake t)
  | preempt : a.tcb.state a.currentThread = .running → Prim a a.preempt
  | switch {t} : pick a.currentScheduler a.tcb (a.q .ready) = some t →
      (a.run.frames.head? = some (.yieldSwap a.currentThread) ∨ a.run.frames.head? = some (.exitSwap a.currentThread)) →
      Prim a (a.switch t)
  | create {prio} : a.tcb.state a.currentThread = .running → Prim a (a.create prio)
  | createFail {prio} : Prim a (a.on fun c => (c.allocTcb prio).free c.brk)
  | finish {fs} : a.tcb.state a.currentThread = .running → a.run.frames = .user :: fs → Prim a a.finish
  | mutexInit {n} : a.mutexLocked (.user n) = none → Prim a (a.on (.setLocked (.user n) 0))
  | semInit {n k} : a.semCount (.user n) = none →
      Prim a (a.on fun c => (c.setCount (.user n) (cint k)).note (.semInit (.user n) (cint k)))
  | chanInit {id ch} : (a.chan id).isNone → ch.head = 0 → ch.tail = 0 → ch.capacity ≤ uthreadChannelMaxCapacity →
      cint ch.capacity = ch.capacity → Prim a (a.chanInit id ch)
  | lock {m fs} : a.tcb.state a.currentThread = .running → Site (.lock m) a.run.frames fs → a.mutexLocked m = some 0 →
      Prim a ((a.on fun c => (c.setFrames fs).setLocked m 1).take (.mutex m))
  | wait {sm fs} : a.tcb.state a.currentThread = .running → Site (.wait sm) a.run.frames fs → 0 < a.count sm →
      Prim a ((a.on fun c => (c.setFrames fs).setCount sm (c.count sm - 1)).take (.sem sm))
  | block {w fs} : a.tcb.state a.currentThread = .running → Site w.acquire a.run.frames fs →
      (match w with
        | .mutex m => a.mutexLocked m ≠ some 0 ∧ (a.mutexLocked m).isSome
        | .sem sm => a.count sm ≤ 0 ∧ (a.semCount sm).isSome) →
      Prim a ((a.on (.setFrames fs)).block w)
  | unlock {m fs} : a.tcb.state a.currentThread = .running → Site (.unlock m) a.run.frames fs → (a.mutexLocked m).isSome →
      a.q (.wait (.mutex m)) = [] →
      Prim a ((a.on fun c => (c.setFrames fs).setLocked m 0).release (.mutex m))
  | unlockHandoff {m fs t ts} : a.tcb.state a.currentThread = .running → Site (.unlock m) a.run.frames fs →
      a.q (.wait (.mutex m)) = t :: ts → Prim a ((a.on (.setFrames fs)).handoff (.mutex m) t)
  | post {sm fs} : a.tcb.state a.currentThread = .running → Site (.post sm) a.run.frames fs → (a.semCount sm).isSome →
      a.q (.wait (.sem sm)) = [] →
      Prim a ((a.on fun c => (c.setFrames fs).setCount sm (cint (c.count sm + 1))).release (.sem sm))
  | postHandoff {sm fs t ts} : a.tcb.state a.currentThread = .running → Site (.post sm) a.run.frames fs →
      a.q (.wait (.sem sm)) = t :: ts →
      Prim a ((a.on fun c => (c.setFrames fs).setCount sm (cint (cint (c.count sm + 1) - 1))).handoff (.sem sm) t)
  | sleep {ms fs} : a.tcb.state a.currentThread = .running → a.run.frames = .user :: fs → Prim a (a.sleep ms)
  | ioBlock {env fd dir fs} : a.tcb.state a.currentThread = .running → a.run.frames = .ioBlock fd dir :: fs →
      Prim a (a.ioBlock env fd dir fs)
  | chan {id ch c} : a.tcb.state a.currentThread = .running → a.chan id = some ch → ChanMove a.toCore id ch c →
      Prim a { a with toCore := c }


end Uthread
