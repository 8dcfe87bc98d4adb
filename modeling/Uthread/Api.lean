import Uthread.Sched

/-!
# The API of 1:N mode

Threads, mutexes, semaphores, channels, sleeping and I/O. A function that
calls `uthread_yield` pushes the activations `yieldEntry` and its own.
-/

namespace Uthread.Sys

def ret (fs : List Frame) (s : Sys) : Sys := s.on (.setFrames fs)

/-! ## Threads -/

/-- `uthread_create_with_priority` up to and including its collection pass. -/
def createEnter (priority : Int) (s : Sys) : Sys :=
  let fs := s.run.frames
  let s := s.on .blockSignals
  let s := s.gcFinishedThreads
  s.on (.setFrames (.create priority :: fs))

/-- The rest of `uthread_create_with_priority`, up to `return tcb->thread_id`. -/
def createRest (env : Env) (priority : Int) (fs : List Frame) (s : Sys) : Sys :=
  if env.callocOk then
    let tcb := s.brk
    let s := s.on (.allocTcb priority)
    if env.mmapOk then
      let s := s.on (.makeContext tcb)
      let s := { s with lk := s.lk.globalListAdd tcb }
      let s := s.enqueue tcb
      let s := s.on (.emit tcb .create)
      let s := s.on (.note (.created tcb))
      (s.on .unblockSignals).ret (.createRet tcb :: fs)
    else ((s.on (.free tcb)).on .unblockSignals).ret fs
  else (s.on .unblockSignals).ret fs

def createReturn (tcb : Ptr) (fs : List Frame) (s : Sys) : Sys :=
  (s.on (.note (.createRet s.currentThread tcb (s.tcb.threadId tcb)))).ret fs

/-! ## Wait queues -/

/-- The blocking branch of `uthread_mutex_lock` and `uthread_sem_wait`. -/
def waitOn (w : WaitObj) (s : Sys) : Sys :=
  let cur := s.currentThread
  let s := s.on (.setState cur .blocked)
  let s := s.on (.emit cur .block)
  let s := { s with lk := s.lk.waitAppend w cur }
  let s := s.on (.note (.arrive w cur))
  s.on (.setFrames (.yieldEntry :: .waiting w :: s.run.frames))

/-- Waking the head of a wait queue in `uthread_mutex_unlock` and `uthread_sem_post`. -/
def wakeHead (w : WaitObj) (woken : Ptr) (s : Sys) : Sys :=
  let s := { s with lk := s.lk.waitPop w woken }
  let s := s.on (.setState woken .ready)
  let s := s.on (.emit woken .unblock)
  let s := s.enqueue woken
  s.on (.note (.handoff w s.currentThread woken))

/-! ## Mutexes -/

def uthreadMutexInit (m : MutexId) (s : Sys) : Sys :=
  let s := s.on (.setLocked m 0)
  { s with lk := s.lk.waitInit (.mutex m) }

def uthreadMutexLock (m : MutexId) (s : Sys) : Sys :=
  let s := s.on .blockSignals
  if s.mutexLocked m = some 0 then
    let s := s.on (.setLocked m 1)
    let s := s.on (.note (.arrive (.mutex m) s.currentThread))
    let s := s.on (.note (.take (.mutex m) s.currentThread))
    s.on .unblockSignals
  else s.waitOn (.mutex m)

def uthreadMutexUnlock (m : MutexId) (s : Sys) : Sys :=
  let s := s.on .blockSignals
  let s := match s.lk.waitHead (.mutex m) with
    | some woken => s.wakeHead (.mutex m) woken
    | none => (s.on (.setLocked m 0)).on (.note (.release (.mutex m) s.currentThread))
  s.on .unblockSignals

/-! ## Semaphores -/

def uthreadSemInit (sm : SemId) (initialCount : Int) (s : Sys) : Sys :=
  let s := s.on (.setCount sm (cint initialCount))
  let s := s.on (.note (.semInit sm (cint initialCount)))
  { s with lk := s.lk.waitInit (.sem sm) }

def uthreadSemWait (sm : SemId) (s : Sys) : Sys :=
  let s := s.on .blockSignals
  if 0 < s.count sm then
    let s := s.on (.setCount sm (s.count sm - 1))
    let s := s.on (.note (.arrive (.sem sm) s.currentThread))
    let s := s.on (.note (.take (.sem sm) s.currentThread))
    s.on .unblockSignals
  else s.waitOn (.sem sm)

def uthreadSemPost (sm : SemId) (s : Sys) : Sys :=
  let s := s.on .blockSignals
  let s := s.on (.setCount sm (cint (s.count sm + 1)))
  let s := match s.lk.waitHead (.sem sm) with
    | some woken =>
      let s := s.on (.setCount sm (cint (s.count sm - 1)))
      s.wakeHead (.sem sm) woken
    | none => s.on (.note (.release (.sem sm) s.currentThread))
  s.on .unblockSignals

/-! ## Channels -/

def clampCapacity (capacity : Int) : Int :=
  if capacity > uthreadChannelMaxCapacity then uthreadChannelMaxCapacity else capacity

def uthreadChannelInit (c : Nat) (capacity : Int) (s : Sys) : Sys :=
  let capacity := clampCapacity (cint capacity)
  let s := s.on (.setChan c { buffer := fun _ => 0, head := 0, tail := 0, capacity })
  let s := s.on (.note (.chanInit c capacity))
  let s := s.uthreadSemInit (.space c) capacity
  let s := s.uthreadSemInit (.messages c) 0
  s.uthreadMutexInit (.chan c)

/-- The next statement of `uthread_channel_send`, whose callers are `fs`. -/
def sendStep (c : Nat) (msg : Msg) (fs : List Frame) (s : Sys) : ChanPc → Sys
  | .wait => (s.ret (.chanSend c msg .lock :: fs)).uthreadSemWait (.space c)
  | .lock => (s.ret (.chanSend c msg .access :: fs)).uthreadMutexLock (.chan c)
  | .access =>
    match s.chan c with
    | some ch =>
      let s := s.on (.setChan c { ch with buffer := Function.update ch.buffer ch.tail msg })
      let s := s.on (.note (.store c s.currentThread ch.tail msg))
      s.ret (.chanSend c msg .advance :: fs)
    | none => s
  | .advance =>
    match s.chan c with
    | some ch =>
      let s := s.on (.setChan c { ch with tail := (ch.tail + 1).tmod ch.capacity })
      let s := s.on (.note (.modulo c ch.capacity))
      s.ret (.chanSend c msg .unlock :: fs)
    | none => s
  | .unlock => (s.ret (.chanSend c msg .post :: fs)).uthreadMutexUnlock (.chan c)
  | .post => (s.ret fs).uthreadSemPost (.messages c)

/-- The next statement of `uthread_channel_recv`; `msg` is its local. -/
def recvStep (c : Nat) (msg : Msg) (fs : List Frame) (s : Sys) : ChanPc → Sys
  | .wait => (s.ret (.chanRecv c msg .lock :: fs)).uthreadSemWait (.messages c)
  | .lock => (s.ret (.chanRecv c msg .access :: fs)).uthreadMutexLock (.chan c)
  | .access =>
    match s.chan c with
    | some ch =>
      let s := s.on (.note (.load c s.currentThread ch.head (ch.buffer ch.head)))
      s.ret (.chanRecv c (ch.buffer ch.head) .advance :: fs)
    | none => s
  | .advance =>
    match s.chan c with
    | some ch =>
      let s := s.on (.setChan c { ch with head := (ch.head + 1).tmod ch.capacity })
      let s := s.on (.note (.modulo c ch.capacity))
      s.ret (.chanRecv c msg .unlock :: fs)
    | none => s
  | .unlock => (s.ret (.chanRecv c msg .post :: fs)).uthreadMutexUnlock (.chan c)
  | .post => (s.ret fs).uthreadSemPost (.space c)

/-! ## Sleeping and I/O -/

def uthreadSleep (ms : Nat) (s : Sys) : Sys :=
  let s := s.on .blockSignals
  let cur := s.currentThread
  let deadline := (s.getTimeNs + (ms % 2 ^ 32) * 1000000) % 2 ^ 64
  let s := s.on (.note (.sleepCall cur (ms % 2 ^ 32) s.getTimeNs))
  let s := s.on .tickClock
  let s := s.on (.setSleepUntil cur deadline)
  let s := s.on (.setState cur .ioBlocked)
  let s := s.on (.emit cur .sleep)
  let s := { s with lk := s.lk.sleepPush cur }
  s.on (.setFrames (.yieldEntry :: .sleeping deadline :: s.run.frames))

def systemCall (env : Env) (fd : Fd) (dir : IoDir) (next : IoResult → Frame) (fs : List Frame) (s : Sys) : Sys :=
  let ret := s.ioResult env fd dir
  let ready := s.avail (fd, dir)
  let s := s.on (.setErrnoOf ret)
  let s := s.ret (next ret :: fs)
  if ready then s.on (.setAvail fd dir env.left) else s

/-- `uthread_read` (`epollin`) and `uthread_write` (`epollout`) up to the return
of the first system call; `set_nonblocking` changes no data of the library. -/
def ioEnter (env : Env) (fd : Fd) (dir : IoDir) (s : Sys) : Sys :=
  s.systemCall env fd dir (.ioTest fd dir) s.run.frames

def ioTest (fd : Fd) (dir : IoDir) (ret : IoResult) (fs : List Frame) (s : Sys) : Sys :=
  if ret.isFailed = false ∨ s.errno ≠ .eagain then s.ret (.ioDone fd dir ret :: fs)
  else s.ret (.ioBlock fd dir :: fs)

def ioBlock (env : Env) (fd : Fd) (dir : IoDir) (fs : List Frame) (s : Sys) : Sys :=
  let s := s.on .blockSignals
  let cur := s.currentThread
  let s := s.on (.setIoFd cur fd)
  let s := s.on (.setIoEvents cur dir)
  let s := s.on (.setState cur .ioBlocked)
  let s := s.on (.emit cur .ioBlock)
  let s := s.on (.note (.ioBlock cur fd dir (s.ctlAddOk env fd)))
  let s := s.on (.epollCtlAdd env fd cur dir)
  s.on (.setFrames (.yieldEntry :: .ioWait fd dir :: fs))

def ioResume (fd : Fd) (dir : IoDir) (fs : List Frame) (s : Sys) : Sys :=
  (s.on (.setIoFd s.currentThread (-1))).ret (.ioRetry fd dir :: fs)

def ioRetry (env : Env) (fd : Fd) (dir : IoDir) (fs : List Frame) (s : Sys) : Sys :=
  s.systemCall env fd dir (.ioDone fd dir) fs

/-- The return to the caller, who finds -1 and the `errno` of this moment if the call failed. -/
def ioReturn (fd : Fd) (dir : IoDir) (ret : IoResult) (fs : List Frame) (s : Sys) : Sys :=
  (s.on (.note (.ioRet s.currentThread fd dir ret s.errno))).ret fs

/-! ## Tracing -/

def uthreadTraceEnable (s : Sys) : Sys :=
  (s.on (.note (.traceOn s.currentThread))).on .enableTrace

def uthreadTraceDisable (s : Sys) : Sys := { s with tr := { s.tr with enabled := false } }

end Uthread.Sys
