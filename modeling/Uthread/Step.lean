import Uthread.Api
import Uthread.Lib.Runs

/-!
# Runs of 1:N mode

A thread may call any function of the library whenever it is in its own code,
so the runs below contain those of every program. SIGALRM may arrive whenever
it is not masked.
-/

namespace Uthread

inductive Op
  | create (priority : Int)
  | yield
  | exit
  | mutexInit (n : Nat)
  | mutexLock (n : Nat)
  | mutexUnlock (n : Nat)
  | semInit (n : Nat) (initialCount : Int)
  | semWait (n : Nat)
  | semPost (n : Nat)
  | channelInit (c : Nat) (capacity : Int)
  | channelSend (c : Nat) (msg : Msg)
  | channelRecv (c : Nat)
  | sleep (ms : Nat)
  | io (fd : Fd) (dir : IoDir)
  | setScheduler (policy : Option Policy)
  | traceEnable
  | traceDisable

inductive Action
  -- the running thread, in its own code, calls `op`
  | call (op : Op) (env : Env)
  -- the innermost activation of the running thread continues
  | resume (env : Env)
  -- SIGALRM is delivered
  | tick
  -- a descriptor becomes ready, or stops being so
  | avail (fd : Fd) (dir : IoDir) (b : Bool)
  -- a call by the thread's own code or by the library sets `errno`
  | errno (e : Errno)

namespace Sys

/-- A call; objects are initialised once and used after that. -/
def call (env : Env) (s : Sys) : Op → Option Sys
  | .create priority => some (s.createEnter priority)
  | .yield => some (s.ret (.yieldEntry :: s.run.frames))
  | .exit => some (s.uthreadExit env)
  | .mutexInit n => if s.mutexLocked (.user n) = none then some (s.uthreadMutexInit (.user n)) else none
  | .mutexLock n => if s.mutexLocked (.user n) = none then none else some (s.uthreadMutexLock (.user n))
  | .mutexUnlock n => if s.mutexLocked (.user n) = none then none else some (s.uthreadMutexUnlock (.user n))
  | .semInit n k => if s.semCount (.user n) = none then some (s.uthreadSemInit (.user n) k) else none
  | .semWait n => if s.semCount (.user n) = none then none else some (s.uthreadSemWait (.user n))
  | .semPost n => if s.semCount (.user n) = none then none else some (s.uthreadSemPost (.user n))
  | .channelInit c k => if (s.chan c).isNone then some (s.uthreadChannelInit c k) else none
  | .channelSend c msg => if (s.chan c).isNone then none else some (s.ret (.chanSend c msg .wait :: s.run.frames))
  | .channelRecv c => if (s.chan c).isNone then none else some (s.ret (.chanRecv c 0 .wait :: s.run.frames))
  | .sleep ms => some (s.uthreadSleep ms)
  | .io fd dir => some (s.ioEnter env fd dir)
  | .setScheduler policy => some { s with currentScheduler := policy }
  | .traceEnable => some s.uthreadTraceEnable
  | .traceDisable => some s.uthreadTraceDisable

def resume (env : Env) (fs : List Frame) (s : Sys) : Frame → Option Sys
  | .user => none
  | .start => some ((s.on .unblockSignals).ret (.user :: fs))
  | .create priority => some (s.createRest env priority fs)
  | .createRet tcb => some (s.createReturn tcb fs)
  | .yieldEntry => some (s.yieldEnter fs)
  | .yieldGc => some (s.yieldBody env fs)
  | .yieldIdle prev => some (s.idlePass env .yieldIdle .yieldSwap prev fs)
  | .exitIdle prev => some (s.idlePass env .exitIdle .exitSwap prev fs)
  | .yieldSwap _ => some ((s.on .unblockSignals).ret (.yieldRet :: fs))
  | .exitSwap _ => none
  | .yieldRet => some (s.ret fs)
  | .alrmHandler => some ((s.on .unblockSignals).ret fs)
  | .waiting w => some ((s.on (.note (.leave w s.currentThread))).ret fs)
  | .sleeping deadline => some ((s.on (.note (.sleepRet s.currentThread deadline s.readings))).ret fs)
  | .ioTest fd dir ret => some (s.ioTest fd dir ret fs)
  | .ioBlock fd dir => some (s.ioBlock env fd dir fs)
  | .ioWait fd dir => some (s.ioResume fd dir fs)
  | .ioRetry fd dir => some (s.ioRetry env fd dir fs)
  | .ioDone fd dir ret => some (s.ioReturn fd dir ret fs)
  | .chanSend c msg pc => some (s.sendStep c msg fs pc)
  | .chanRecv c msg pc => some (s.recvStep c msg fs pc)

/-- The innermost activation calls nothing before it looks at `errno`. -/
def looksAtErrno (s : Sys) : Bool := s.run.frames.head?.any fun f => f.errno? ≠ none

/-- The delivery of SIGALRM: the kernel masks it and `alrm_handler` calls `uthread_yield`. -/
def alrmHandler (s : Sys) : Sys :=
  let fs := s.run.frames
  let s := s.on (.note (.tick s.currentThread fs.head? (.alrmHandler ∈ fs)))
  (s.on .blockSignals).ret (.yieldEntry :: .alrmHandler :: fs)

def step (s : Sys) (a : Action) : Option Sys :=
  if s.exited then none
  else match a with
    | .call op env => if s.run.frames.head? = some .user then s.call env op else none
    | .resume env =>
      match s.run.frames with
      | f :: fs => s.resume env fs f
      | [] => none
    | .tick => if s.run.masked then none else some s.alrmHandler
    | .avail fd dir b => some (s.on (.setAvail fd dir b))
    | .errno e => if s.looksAtErrno then none else some (s.on (.setErrno e))

/-- The process after `uthread_init`, with any kernel behind it. -/
def uthreadInit (clock : Nat → Nat) (epollFd : Fd) (avail : Fd × IoDir → Bool) : Sys where
  tcb :=
    { threadId := fun _ => 0
      state := fun _ => .running
      stack := fun _ => none
      priority := fun _ => 0
      creationOrder := fun _ => 0
      ioFd := fun _ => -1
      ioEvents := fun _ => none
      sleepUntilNs := fun _ => 0
      context := fun p => ⟨p, [], false⟩ }
  currentThread := 0
  run := ⟨0, [.user], false⟩
  brk := 1
  nextThreadId := 1
  creationCounter := 1
  currentScheduler := none
  epollFd
  mutexLocked := fun _ => none
  semCount := fun _ => none
  chan := fun _ => none
  interest := fun _ => none
  avail
  errno := .other 0
  tr := ⟨none, 0, false⟩
  clock
  readings := 0
  exited := false
  log := [.created 0]
  emitters := []
  lk :=
    { next := fun _ => none
      readyHead := none
      readyTail := none
      readyCount := 0
      waitHead := fun _ => none
      waitTail := fun _ => none
      sleepListHead := none
      globalThreadList := some 0
      globalNext := fun _ => none
      globalPrev := fun _ => none }

def Init (s : Sys) : Prop := ∃ clock epollFd avail, s = uthreadInit clock epollFd avail

abbrev RunOf (ok : Sys → Action → Prop) : Sys → Prop := Trans.Reach Init step ok

abbrev Reachable : Sys → Prop := RunOf fun _ _ => True

def after (clock : Nat → Nat) (acts : List Action) : Sys :=
  (Trans.exec step (uthreadInit clock 3 fun _ => false) acts).getD (uthreadInit clock 3 fun _ => false)

theorem reachable_after {clock : Nat → Nat} {acts : List Action}
    (h : (Trans.exec step (uthreadInit clock 3 fun _ => false) acts).isSome) : Reachable (after clock acts) := by
  obtain ⟨s, hs⟩ := Option.isSome_iff_exists.mp h
  have h0 : Reachable (uthreadInit clock 3 fun _ => false) := .init ⟨clock, 3, _, rfl⟩
  unfold after
  rw [hs]
  exact h0.exec (fun _ _ => trivial) hs

theorem runOf_after {ok : Sys → Action → Prop} {p : Sys → Action → Bool} (hp : ∀ s a, p s a = true → ok s a)
    {clock : Nat → Nat} {acts : List Action}
    (h : (Trans.exec (fun s a => if p s a then step s a else none) (uthreadInit clock 3 fun _ => false) acts).isSome) :
    RunOf ok (after clock acts) := by
  obtain ⟨s, hs⟩ := Option.isSome_iff_exists.mp h
  have h0 : RunOf ok (uthreadInit clock 3 fun _ => false) := .init ⟨clock, 3, _, rfl⟩
  unfold after
  rw [Trans.exec_of_checked hs]
  exact h0.replay hp hs

end Sys

end Uthread
