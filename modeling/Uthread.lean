import Uthread.Lib.Seg
import Uthread.Lib.DList
import Uthread.Lib.Runs
import Uthread.Lib.Ring
import Uthread.Step
import Uthread.LinkIntegrity
import Uthread.Mutex
import Uthread.Semaphore
import Uthread.ChanStep
import Uthread.Channel
import Uthread.Reclaim
import Uthread.Preempt
import Uthread.Idle
import Uthread.Io
import Uthread.IoCalls
import Uthread.Sleep
import Uthread.Nesting
import Uthread.Deadlock
import Uthread.Trace
import Uthread.Viewer
import Uthread.Lib.Splice
import Uthread.Lib.Json
import Uthread.Lib.Rounding
import Uthread.Lib.Apart
import Uthread.Lib.Code
import Uthread.Lib.Section
import Uthread.Mn.Machine
import Uthread.Mn.Lists
import Uthread.Mn.LocalRep
import Uthread.Mn.Places
import Uthread.Mn.Cases
import Uthread.Mn.Boot
import Uthread.Mn.Moves
import Uthread.Mn.PlacedStep
import Uthread.Mn.Refine
import Uthread.Mn.Orderly
import Uthread.Mn.Conserve
import Uthread.Mn.Collect
import Uthread.Mn.Handoff
import Uthread.Mn.Tickets
import Uthread.Mn.Ending
import Uthread.Mn.Segment
import Uthread.Mn.Trap
import Uthread.Mn.Finish
import Uthread.Mn.Exclusion
import Uthread.Mn.Turns
import Uthread.Mn.Steal
import Uthread.Mn.Ledger
import Uthread.Mn.Sections
import Uthread.Mn.Spin
import Uthread.ReadyQueue
import Uthread.Sweep
import Uthread.Fifo
import Uthread.Inversion
import Uthread.Exit
import Uthread.Share
import Uthread.Slots
import Uthread.Peterson
import Uthread.Dump
import Uthread.Guard
import Uthread.Mn.Chart
