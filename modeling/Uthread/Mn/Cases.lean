import Uthread.Mn.Places

/-!
# What a step on lists can do

One case for each way through `Mn.step`, with the state it leads to, in a placed
state in which what the step relies on is up to date. There `mn_yield` enqueues
exactly the threads that call `uthread_yield`, and `try_steal` leaves the victim
section with a thread.
-/

namespace Uthread

attribute [simp] MnCore.goto MnCore.setState MnCore.emit MnCore.beginCall MnCore.saveContext MnCore.loadContext
  MnCore.setCurrent MnCore.setRunning MnCore.setLocked MnCore.setCount MnCore.setLockWait MnCore.handOver
  MnCore.setSleep MnCore.setIo MnCore.register MnCore.finish Mn.on Mn.goto Mn.mapQ

def SemPc.rest : SemPc → Nat
  | .take => 2
  | .takeSet _ => 1
  | .postSet _ => 10
  | .postTest => 9
  | .back => 8
  | .backSet _ => 7

/-- `v` takes a step in `m`: in a thread's code. -/
inductive UserStep (m : Mn Lists) (a : MnAct) : Mn Lists → Prop
  | create (hk : a.call = .create) : UserStep m a ((m.gcFinishedThreads a.vp).goto a.vp .createTcb)
  | mnRun (hc : m.current a.vp = none) (hk : a.call = .mnRun) : UserStep m a (m.goto a.vp (.spawn 1))
  | yield {t : Ptr} (hc : m.current a.vp = some t) (hk : a.call = .yield) : UserStep m a (m.goto a.vp .yieldMark)
  | exit {t : Ptr} (hc : m.current a.vp = some t) (hk : a.call = .exit) :
    UserStep m a ((m.on (.finish t)).goto a.vp .exitTrace)
  | lock {t : Ptr} {mu : MutexId} (hc : m.current a.vp = some t) (hk : a.call = .mutexLock mu)
      (hl : m.mutexLocked mu = 0) : UserStep m a (m.goto a.vp (.lockSet mu))
  | lockBusy {t : Ptr} {mu : MutexId} (hc : m.current a.vp = some t) (hk : a.call = .mutexLock mu)
      (hl : m.mutexLocked mu ≠ 0) : UserStep m a (m.goto a.vp (.park (.mutex mu)))
  | unlockWake {t : Ptr} {mu : MutexId} (hc : m.current a.vp = some t) (hk : a.call = .mutexUnlock mu) :
    UserStep m a (m.goto a.vp (.wakeRead (.mutex mu)))
  | unlock {t : Ptr} {mu : MutexId} (hc : m.current a.vp = some t) (hk : a.call = .mutexUnlock mu) :
    UserStep m a (m.goto a.vp (.unlockClear mu))
  | semTake {t : Ptr} {sm : SemId} (hc : m.current a.vp = some t) (hk : a.call = .semWait sm) :
    UserStep m a (m.goto a.vp (.sem sm .take))
  | semBlock {t : Ptr} {sm : SemId} (hc : m.current a.vp = some t) (hk : a.call = .semWait sm) :
    UserStep m a (m.goto a.vp (.park (.sem sm)))
  | semPost {t : Ptr} {sm : SemId} {n : Int} (hc : m.current a.vp = some t) (hk : a.call = .semPost sm) :
    UserStep m a (m.goto a.vp (.sem sm (.postSet n)))
  | sleep {t : Ptr} {ms deadline : Nat} (hc : m.current a.vp = some t) (hk : a.call = .sleep ms) :
    UserStep m a (((m.on (.setSleep t deadline)).on (.setState t .ioBlocked)).goto a.vp .sleepTrace)
  | io {t : Ptr} {fd : Fd} {dir : IoDir} (hc : m.current a.vp = some t) (hk : a.call = .io fd dir) :
    UserStep m a (((m.on (.setIo t fd dir)).on (.setState t .ioBlocked)).goto a.vp (.ioTrace fd dir))

/-- `v` takes a step in `m`: inside a call, in `uthread_mn_run` or in `vp_loop`. -/
inductive LoopStep (m : Mn Lists) (a : MnAct) : Mn Lists → Prop
  | createFail {b : Bool} (hpc : m.pc a.vp = .createTcb) (ha : b = false → m.allocated a.addr = false) :
    LoopStep m a ((if b then m else m.on (.allocTcb a.addr false)).goto a.vp .user)
  | createTcb (hpc : m.pc a.vp = .createTcb) (ha : m.allocated a.addr = false) :
    LoopStep m a ((m.on (.allocTcb a.addr true)).goto a.vp (.createAdd a.addr))
  | createAdd {t : Ptr} (hpc : m.pc a.vp = .createAdd t) :
    LoopStep m a ((m.mapQ (RunQueues.globalListAdd t)).goto a.vp (.createEnq t))
  | createEnq {t : Ptr} (hpc : m.pc a.vp = .createEnq t) :
    LoopStep m a ((m.mapQ (Lists.push (.shared .ready) t)).goto a.vp (.createTrace t))
  | createTrace {t : Ptr} (hpc : m.pc a.vp = .createTrace t) :
    LoopStep m a ((m.on (.emit t .create 0 a.now)).goto a.vp (.createRet t))
  | createRet {t : Ptr} (hpc : m.pc a.vp = .createRet t) : LoopStep m a (m.goto a.vp .user)
  | lockSet {t : Ptr} {mu : MutexId} (hpc : m.pc a.vp = .lockSet mu) (hc : m.current a.vp = some t) :
    LoopStep m a ((m.on (.setLocked mu 1 (t :: m.holders mu))).goto a.vp .user)
  | unlockClear {t : Ptr} {mu : MutexId} (hpc : m.pc a.vp = .unlockClear mu) (hc : m.current a.vp = some t) :
    LoopStep m a ((m.on (.setLocked mu 0 ((m.holders mu).erase t))).goto a.vp .user)
  | sem {sm : SemId} {p p' : SemPc} {n : SemId → Int} (hpc : m.pc a.vp = .sem sm p) (hp : p'.rest < p.rest) :
    LoopStep m a ({ m with semCount := n }.goto a.vp (.sem sm p'))
  | semDone {sm : SemId} {p : SemPc} {n : SemId → Int} (hpc : m.pc a.vp = .sem sm p) :
    LoopStep m a ({ m with semCount := n }.goto a.vp .user)
  | semWake {sm : SemId} {k : Int} {n : SemId → Int} (hpc : m.pc a.vp = .sem sm (.backSet k)) :
    LoopStep m a ({ m with semCount := n }.goto a.vp (.wakeRead (.sem sm)))
  | park {t : Ptr} {w : WaitObj} (hpc : m.pc a.vp = .park w) (hc : m.current a.vp = some t) :
    LoopStep m a ((m.on (.setState t .blocked)).goto a.vp (.parkTrace w))
  | parkTrace {t : Ptr} {w : WaitObj} (hpc : m.pc a.vp = .parkTrace w) (hc : m.current a.vp = some t) :
    LoopStep m a ((m.on (.emit t .block 0 a.now)).goto a.vp (.appendRead w))
  | appendRead {w : WaitObj} (hpc : m.pc a.vp = .appendRead w) :
    LoopStep m a (m.goto a.vp (.append w (m.q.q (.shared (.wait w))).getLast?))
  | append {t : Ptr} {w : WaitObj} {tail : Option Ptr} (hpc : m.pc a.vp = .append w tail) (hc : m.current a.vp = some t) :
    LoopStep m a (((m.mapQ (Lists.push (.shared (.wait w)) t)).on (.setLockWait t w)).goto a.vp .yieldTest)
  | wakeRead {w : WaitObj} {x : Ptr} {ts : List Ptr} (hpc : m.pc a.vp = .wakeRead w) (hq : m.q.q (.shared (.wait w)) = x :: ts) :
    LoopStep m a (m.goto a.vp (.pop w x))
  | pop {w : WaitObj} {x : Ptr} {ts : List Ptr} (hpc : m.pc a.vp = .pop w x) (hq : m.q.q (.shared (.wait w)) = x :: ts)
      (hc : m.current a.vp ≠ none) :
    LoopStep m a (((m.mapQ (Lists.set (.shared (.wait w)) ts)).on (.handOver w (m.current a.vp) x)).goto a.vp (.wakeMark x))
  | wakeMark {x : Ptr} (hpc : m.pc a.vp = .wakeMark x) :
    LoopStep m a ((m.on (.setState x .ready)).goto a.vp (.wakeTrace x))
  | wakeTrace {x : Ptr} (hpc : m.pc a.vp = .wakeTrace x) :
    LoopStep m a ((m.on (.emit x .unblock 0 a.now)).goto a.vp (.enqRead x))
  | enqRead {x : Ptr} (hpc : m.pc a.vp = .enqRead x) :
    LoopStep m a (m.goto a.vp (.wakeEnq x (m.q.q (.shared .ready)).getLast?))
  | wakeEnq {x : Ptr} {tail : Option Ptr} (hpc : m.pc a.vp = .wakeEnq x tail) :
    LoopStep m a ((m.mapQ (Lists.push (.shared .ready) x)).goto a.vp .user)
  | sleepTrace {t : Ptr} (hpc : m.pc a.vp = .sleepTrace) (hc : m.current a.vp = some t) :
    LoopStep m a ((m.on (.emit t .sleep 0 a.now)).goto a.vp .sleepPush)
  | sleepPush {t : Ptr} (hpc : m.pc a.vp = .sleepPush) (hc : m.current a.vp = some t) :
    LoopStep m a ((m.mapQ fun q => q.set (.shared .sleep) (t :: q.q (.shared .sleep))).goto a.vp .yieldTest)
  | ioTrace {t : Ptr} {fd : Fd} {dir : IoDir} (hpc : m.pc a.vp = .ioTrace fd dir) (hc : m.current a.vp = some t) :
    LoopStep m a ((m.on (.emit t .ioBlock 0 a.now)).goto a.vp (.ioAdd fd dir))
  | ioAdd {t : Ptr} {fd : Fd} {dir : IoDir} (hpc : m.pc a.vp = .ioAdd fd dir) (hc : m.current a.vp = some t) :
    LoopStep m a ((m.on (.register a.ctlOk t fd dir)).goto a.vp .yieldTest)
  | yieldTest {t : Ptr} (hpc : m.pc a.vp = .yieldTest) (hc : m.current a.vp = some t) (hs : m.state t ≠ .running) :
    LoopStep m a (m.goto a.vp (.swapOut false))
  | yieldMark {t : Ptr} (hpc : m.pc a.vp = .yieldMark) (hc : m.current a.vp = some t) :
    LoopStep m a ((m.on (.setState t .ready)).goto a.vp .yieldTrace)
  | yieldTrace {t : Ptr} (hpc : m.pc a.vp = .yieldTrace) (hc : m.current a.vp = some t) :
    LoopStep m a ((m.on (.emit t .yield a.vp a.now)).goto a.vp .yieldEnq)
  | yieldEnq {t : Ptr} (hpc : m.pc a.vp = .yieldEnq) (hc : m.current a.vp = some t) :
    LoopStep m a ((m.mapQ (Lists.push (.loc a.vp) t)).goto a.vp (.swapOut true))
  | swapOut {t : Ptr} {b : Bool} (hpc : m.pc a.vp = .swapOut b) (hc : m.current a.vp = some t) :
    LoopStep m a ((m.on (.saveContext a.vp t)).goto a.vp .test)
  | exitTrace {t : Ptr} (hpc : m.pc a.vp = .exitTrace) (hc : m.current a.vp = some t) :
    LoopStep m a ((m.on (.emit t .exit a.vp a.now)).goto a.vp .exitSwitch)
  | exitSwitch (hpc : m.pc a.vp = .exitSwitch) : LoopStep m a (m.goto a.vp .test)
  | spawn {i : Nat} (hpc : m.pc a.vp = .spawn i) (hi : i < m.numVps) :
    LoopStep m a ((m.goto i .test).goto a.vp (.spawn (i + 1)))
  | spawned {i : Nat} (hpc : m.pc a.vp = .spawn i) (hi : ¬ i < m.numVps) : LoopStep m a (m.goto a.vp .test)
  | stop {i : Nat} (hpc : m.pc a.vp = .stop i) (hi : i < m.numVps) :
    LoopStep m a ((m.on (.setRunning i false)).goto a.vp (.join i))
  | stopped {i : Nat} (hpc : m.pc a.vp = .stop i) (hi : ¬ i < m.numVps) :
    LoopStep m a ((m.gcFinishedThreads a.vp).goto a.vp .returned)
  | join {i : Nat} (hpc : m.pc a.vp = .join i) (hi : m.pc i = .done) : LoopStep m a (m.goto a.vp (.stop (i + 1)))
  | test (hpc : m.pc a.vp = .test) (hr : m.running a.vp = true) : LoopStep m a (m.goto a.vp .deq)
  | halt (hpc : m.pc a.vp = .test) (hr : m.running a.vp = false) : LoopStep m a (m.leave a.vp)
  | deq {t : Ptr} {ts : List Ptr} (hpc : m.pc a.vp = .deq ∨ m.pc a.vp = .stealDeq) (hq : m.q.q (.loc a.vp) = t :: ts) :
    LoopStep m a ((m.mapQ (Lists.set (.loc a.vp) ts)).goto a.vp (.dispatch t))
  | deqEmpty (hpc : m.pc a.vp = .deq) (hq : m.q.q (.loc a.vp) = []) : LoopStep m a (m.goto a.vp .ready)
  | ready {t : Ptr} {ts : List Ptr} (hpc : m.pc a.vp = .ready) (hq : m.q.q (.shared .ready) = t :: ts) :
    LoopStep m a ((m.mapQ (Lists.set (.shared .ready) ts)).goto a.vp (.dispatch t))
  | readyEmpty (hpc : m.pc a.vp = .ready) (hq : m.q.q (.shared .ready) = []) : LoopStep m a
    (m.goto a.vp (if m.numVps ≤ 1 then .alive else .probe (stealStart m.numVps a.vp a.now) 0))
  | skip {start i : Nat} (hpc : m.pc a.vp = .probe start i) : LoopStep m a (m.goto a.vp (.probe start (i + 1)))
  | steal {start i : Nat} {victim : VpId} {h : Ptr} {xs ys : List Ptr} (hpc : m.pc a.vp = .probe start i)
      (hv : victim ≠ a.vp) (hq : m.q.q (.loc victim) = xs ++ ys) (hx : xs.head? = some h)
      (hn : xs.length = (m.q.q (.loc victim)).length / 2) : LoopStep m a
    ((m.mapQ fun q => (q.set (.loc victim) ys).set (.flight a.vp) xs).goto a.vp (.attach h xs.getLast? xs.length))
  | probed {start i : Nat} (hpc : m.pc a.vp = .probe start i) : LoopStep m a (m.goto a.vp .alive)
  | attach {h : Ptr} {tl : Option Ptr} {n : Int} (hpc : m.pc a.vp = .attach h tl n) : LoopStep m a
    ((m.mapQ fun q => (q.set (.flight a.vp) []).set (.loc a.vp) (q.q (.loc a.vp) ++ q.q (.flight a.vp))).goto a.vp
      (.stealTrace h))
  | stealTrace {h : Ptr} (hpc : m.pc a.vp = .stealTrace h) :
    LoopStep m a ((m.on (.emit h .steal a.vp a.now)).goto a.vp .stealDeq)
  | stealNone (hpc : m.pc a.vp = .stealDeq) (hq : m.q.q (.loc a.vp) = []) : LoopStep m a (m.goto a.vp .alive)
  | alive {t : Ptr} (hpc : m.pc a.vp = .alive) (ht : t ∈ m.q.glob) (hs : m.state t ≠ .finished) :
    LoopStep m a (m.goto a.vp .test)
  | dead (hpc : m.pc a.vp = .alive) (hs : ∀ t ∈ m.q.glob, m.state t = .finished) : LoopStep m a (m.leave a.vp)
  | dispatch {t : Ptr} (hpc : m.pc a.vp = .dispatch t) :
    LoopStep m a (((m.on (.setCurrent a.vp t)).on (.setState t .running)).goto a.vp (.dispatchTrace t))
  | dispatchTrace {t : Ptr} (hpc : m.pc a.vp = .dispatchTrace t) :
    LoopStep m a ((m.on (.emit t .run a.vp a.now)).goto a.vp (.switchIn t))
  | switchIn {t : Ptr} (hpc : m.pc a.vp = .switchIn t) : LoopStep m a ((m.on (.loadContext a.vp t)).goto a.vp .user)

namespace Mn

variable {m m' : Mn Lists} {a : MnAct}

theorem took_nil {v : VpId} {i : Queue} {pc : Pc} (hq : m.q.q i = []) : m.took v (m.q.pop i) pc = m.goto v pc := by
  have he : (m.q.pop i).2 = m.q := by
    simp only [Lists.pop, Lists.set, hq, List.tail_nil]
    rw [← hq, Function.update_eq_self]
  unfold took
  rw [he]
  simp [Lists.pop, hq]

theorem took_cons {v : VpId} {i : Queue} {pc : Pc} {t : Ptr} {ts : List Ptr} (hq : m.q.q i = t :: ts) :
    m.took v (m.q.pop i) pc = (m.mapQ (Lists.set i ts)).goto v (.dispatch t) := by
  simp [took, Lists.pop, hq]

theorem call_cases (hm : Placed m) (hpc : m.pc a.vp = .user) (h : m.call a = some m') :
    UserStep (m.on (.beginCall a.vp)) a m' := by
  have hcur : (m.on (.beginCall a.vp)).current = m.current := rfl
  unfold call at h
  simp only [hcur] at h
  split at h
  · cases h
    exact .create ‹_›
  · cases h
    exact .mnRun ‹_› ‹_›
  · rename_i t hk hc
    cases h
    have hrun : m.state t = .running := hm.state (mem_own hpc rfl hc)
    unfold mnYield
    rw [if_pos (by exact hrun)]
    exact .yield hc hk
  · cases h
    exact .exit ‹_› ‹_›
  · rename_i hk hc
    cases h
    unfold mutexLock
    split
    · exact .lock hc hk ‹_›
    · exact .lockBusy hc hk ‹_›
  · rename_i hk hc
    cases h
    unfold mutexUnlock
    split
    · exact .unlockWake hc hk
    · exact .unlock hc hk
  · rename_i hk hc
    cases h
    unfold semWait
    split
    · exact .semTake hc hk
    · exact .semBlock hc hk
  · cases h
    exact .semPost ‹_› ‹_›
  · cases h
    exact .sleep ‹_› ‹_›
  · cases h
    exact .io ‹_› ‹_›
  · cases h

theorem sem_cases {sm : SemId} {p : SemPc} (hpc : m.pc a.vp = .sem sm p) : LoopStep m a (m.semStep a.vp sm p) := by
  cases p with
  | take => exact .sem (n := m.semCount) hpc (by simp [SemPc.rest])
  | takeSet n => exact .semDone hpc
  | postSet n => exact .sem hpc (by simp [SemPc.rest])
  | postTest =>
    have he : m.semStep a.vp sm .postTest =
        m.goto a.vp (if (RunQueues.waitHead m.q (.sem sm)).isSome then .sem sm .back else .user) := rfl
    rw [he]
    split
    · exact .sem (n := m.semCount) hpc (by simp [SemPc.rest])
    · exact .semDone (n := m.semCount) hpc
  | back => exact .sem (n := m.semCount) hpc (by simp [SemPc.rest])
  | backSet n => exact .semWake hpc

theorem pop_cases {w : WaitObj} {x : Ptr} (hpc : m.pc a.vp = .pop w x) (hc : m.current a.vp ≠ none) (ht : m.Timely a.vp) :
    LoopStep m a (m.pop a.vp w x) := by
  unfold Timely at ht
  rw [hpc] at ht
  obtain ⟨ts, hq⟩ := List.head?_eq_some_iff.mp ht
  have hpop : (RunQueues.waitPop w x m.q : Lists) = m.q.set (.shared (.wait w)) ts := by
    simp [RunQueues.waitPop, Lists.pop, hq]
  have hs := LoopStep.pop hpc hq hc
  unfold Mn.mapQ at hs
  rw [← hpop] at hs
  exact hs

theorem inCall_cases {t : Ptr} {pc : Pc} (hpc : m.pc a.vp = pc) (hc : m.current a.vp = some t) (ht : m.Timely a.vp)
    (h : m.inCall a t pc = some m') : LoopStep m a m' := by
  cases pc with
  | lockSet => cases h; exact .lockSet hpc hc
  | unlockClear => cases h; exact .unlockClear hpc hc
  | sem => cases h; exact sem_cases hpc
  | park => cases h; exact .park hpc hc
  | parkTrace => cases h; exact .parkTrace hpc hc
  | appendRead => cases h; exact .appendRead hpc
  | append => cases h; exact .append hpc hc
  | wakeRead w =>
    obtain ⟨x, hx, rfl⟩ := Option.map_eq_some_iff.mp h
    obtain ⟨ts, hq⟩ := List.head?_eq_some_iff.mp hx
    exact .wakeRead hpc hq
  | pop => cases h; exact pop_cases hpc (by simp [hc]) ht
  | wakeMark => cases h; exact .wakeMark hpc
  | wakeTrace => cases h; exact .wakeTrace hpc
  | enqRead => cases h; exact .enqRead hpc
  | wakeEnq => cases h; exact .wakeEnq hpc
  | sleepTrace => cases h; exact .sleepTrace hpc hc
  | sleepPush => cases h; exact .sleepPush hpc hc
  | ioTrace => cases h; exact .ioTrace hpc hc
  | ioAdd => cases h; exact .ioAdd hpc hc
  | yieldTest =>
    cases h
    unfold Timely at ht
    rw [hpc] at ht
    have hs := ht t hc
    unfold mnYield
    rw [if_neg hs]
    exact .yieldTest hpc hc hs
  | yieldMark => cases h; exact .yieldMark hpc hc
  | yieldTrace => cases h; exact .yieldTrace hpc hc
  | yieldEnq => cases h; exact .yieldEnq hpc hc
  | swapOut => cases h; exact .swapOut hpc hc
  | exitTrace => cases h; exact .exitTrace hpc hc
  | exitSwitch => cases h; exact .exitSwitch hpc
  | _ => cases h

theorem createTcb_cases (hpc : m.pc a.vp = .createTcb) (h : m.createTcb a = some m') : LoopStep m a m' := by
  unfold createTcb at h
  split at h
  · split at h
    · cases h
    · rename_i ha
      cases h
      have hal : m.allocated a.addr = false := by simpa using ha
      cases hok : a.mmapOk with
      | true => exact .createTcb hpc hal
      | false => exact .createFail (b := false) hpc fun _ => hal
  · cases h
    exact .createFail (b := true) hpc (by simp)

theorem probe_cases {start i : Nat} (hpc : m.pc a.vp = .probe start i) : LoopStep m a (m.probe a.vp start i) := by
  unfold probe
  split
  · dsimp only
    split
    · exact .skip hpc
    · rename_i hv
      generalize (start + i) % m.numVps = victim at hv
      have hcount : RunQueues.localCount m.q victim = ((m.q.q (.loc victim)).length : Int) := rfl
      rw [hcount]
      split
      · exact .skip hpc
      · rename_i hlen
        have hn : (((m.q.q (.loc victim)).length : Int) / 2).toNat = (m.q.q (.loc victim)).length / 2 := by omega
        have hle : (m.q.q (.loc victim)).length / 2 ≤ (m.q.q (.loc victim)).length := by omega
        rw [hn]
        generalize hx : (m.q.q (.loc victim)).take ((m.q.q (.loc victim)).length / 2) = xs
        have hxl : xs.length = (m.q.q (.loc victim)).length / 2 := by
          rw [← hx, List.length_take]
          omega
        have hr : RunQueues.steal a.vp victim ((m.q.q (.loc victim)).length / 2) m.q =
            (⟨xs.length, xs.head?, xs.getLast?⟩, (m.q.set (.loc victim)
              ((m.q.q (.loc victim)).drop ((m.q.q (.loc victim)).length / 2))).set (.flight a.vp) xs) := by
          simp only [RunQueues.steal, hx]
        rw [hr]
        cases hh : xs.head? with
        | none =>
          rw [List.head?_eq_none_iff] at hh
          rw [hh] at hxl
          simp at hxl
          omega
        | some h =>
          have hc : (((m.q.q (.loc victim)).length : Int) / 2) = xs.length := by omega
          rw [hc]
          refine .steal hpc hv ?_ hh hxl
          rw [← hx, List.take_append_drop]
  · exact .probed hpc

theorem took_cases {i : Queue} {pc : Pc} (hn : m.q.q i = [] → LoopStep m a (m.goto a.vp pc))
    (hs : ∀ t ts, m.q.q i = t :: ts → LoopStep m a ((m.mapQ (Lists.set i ts)).goto a.vp (.dispatch t))) :
    LoopStep m a (m.took a.vp (m.q.pop i) pc) := by
  cases hq : m.q.q i with
  | nil =>
    rw [took_nil hq]
    exact hn hq
  | cons t ts =>
    rw [took_cons hq]
    exact hs t ts hq

theorem step_cases (hm : Placed m) (ht : m.Timely a.vp) (h : m.step a = some m') :
    (m.pc a.vp = .user ∧ UserStep (m.on (.beginCall a.vp)) a m') ∨ LoopStep m a m' := by
  unfold step at h
  dsimp only at h
  cases hpc : m.pc a.vp with
  | user =>
    rw [hpc] at h
    exact .inl ⟨rfl, call_cases hm hpc h⟩
  | off | returned | done =>
    rw [hpc] at h
    cases h
  | createTcb =>
    rw [hpc] at h
    exact .inr (createTcb_cases hpc h)
  | createAdd t =>
    rw [hpc] at h
    cases h
    exact .inr (.createAdd hpc)
  | createEnq t =>
    rw [hpc] at h
    cases h
    exact .inr (.createEnq hpc)
  | createTrace t =>
    rw [hpc] at h
    cases h
    exact .inr (.createTrace hpc)
  | createRet t =>
    rw [hpc] at h
    cases h
    exact .inr (.createRet hpc)
  | spawn i =>
    simp only [hpc] at h
    right
    split at h
    · cases h
      exact .spawn hpc ‹_›
    · cases h
      exact .spawned hpc ‹_›
  | stop i =>
    simp only [hpc] at h
    right
    split at h
    · cases h
      exact .stop hpc ‹_›
    · cases h
      exact .stopped hpc ‹_›
  | join i =>
    simp only [hpc] at h
    right
    split at h
    · cases h
      exact .join hpc ‹_›
    · cases h
  | test =>
    rw [hpc] at h
    cases h
    right
    split
    · exact .test hpc ‹_›
    · exact .halt hpc (Bool.eq_false_iff.mpr ‹_›)
  | deq =>
    rw [hpc] at h
    cases h
    exact .inr (took_cases (.deqEmpty hpc) fun t ts => .deq (.inl hpc))
  | ready =>
    rw [hpc] at h
    cases h
    exact .inr (took_cases (.readyEmpty hpc) fun t ts => .ready hpc)
  | probe start i =>
    rw [hpc] at h
    cases h
    exact .inr (probe_cases hpc)
  | attach x tl n =>
    rw [hpc] at h
    cases h
    exact .inr (.attach hpc)
  | stealTrace x =>
    rw [hpc] at h
    cases h
    exact .inr (.stealTrace hpc)
  | stealDeq =>
    rw [hpc] at h
    cases h
    exact .inr (took_cases (.stealNone hpc) fun t ts => .deq (.inr hpc))
  | alive =>
    rw [hpc] at h
    cases h
    right
    split
    · rename_i hl
      obtain ⟨t, ht, hs⟩ := List.any_eq_true.mp hl
      exact .alive hpc ht (by simpa using hs)
    · rename_i hl
      refine .dead hpc fun t ht => ?_
      have hf := List.any_eq_false.mp (Bool.eq_false_iff.mpr hl) t ht
      simpa using hf
  | dispatch t =>
    rw [hpc] at h
    cases h
    exact .inr (.dispatch hpc)
  | dispatchTrace t =>
    rw [hpc] at h
    cases h
    exact .inr (.dispatchTrace hpc)
  | switchIn t =>
    rw [hpc] at h
    cases h
    exact .inr (.switchIn hpc)
  | _ =>
    rw [hpc] at h
    obtain ⟨t, hc, h⟩ := Option.bind_eq_some_iff.mp h
    exact .inr (inCall_cases hpc hc ht h)

/-! ## What a step leaves alone -/

theorem user_numVps (h : UserStep m a m') : m'.numVps = m.numVps := by cases h <;> rfl

theorem loop_numVps (h : LoopStep m a m') : m'.numVps = m.numVps := by
  cases h with
  | @createFail ok _ => cases ok <;> rfl
  | _ => rfl

theorem loop_started (h : LoopStep m a m') : m.pc a.vp ≠ .off := by
  cases h with
  | deq hpc => rcases hpc with hpc | hpc <;> simp [hpc]
  | _ hpc => simp [hpc]

theorem loop_spawn {i : Nat} (h : LoopStep m a m') (hpc : m.pc a.vp = .spawn i) (hi : i < m.numVps) :
    m' = (m.goto i .test).goto a.vp (.spawn (i + 1)) := by
  cases h with
  | spawn hpc' =>
    rw [hpc] at hpc'
    cases hpc'
    rfl
  | spawned hpc' hi' =>
    rw [hpc] at hpc'
    cases hpc'
    exact absurd hi hi'
  | deq hpc' =>
    rw [hpc] at hpc'
    rcases hpc' with hpc' | hpc' <;> cases hpc'
  | _ hpc' =>
    rw [hpc] at hpc'
    cases hpc'

theorem user_others {u : VpId} (h : UserStep m a m') (hu : u ≠ a.vp) :
    m'.pc u = m.pc u ∧ m'.current u = m.current u ∧ m'.pos u = m.pos u := by
  cases h <;> simp [gcFinishedThreads, hu]

theorem loop_others {u : VpId} (h : LoopStep m a m') (hu : u ≠ a.vp) (hs : ¬ (m.pc a.vp = .spawn u ∧ u < m.numVps)) :
    m'.pc u = m.pc u ∧ m'.current u = m.current u ∧ m'.pos u = m.pos u := by
  cases h with
  | @createFail ok _ => cases ok <;> simp [MnCore.allocTcb, hu]
  | @spawn i hpc hlt =>
    have hi : u ≠ i := by
      intro e
      subst e
      exact hs ⟨hpc, hlt⟩
    simp [hu, hi]
  | _ => simp [leave, gcFinishedThreads, MnCore.allocTcb, hu]

theorem loop_started_other {u : VpId} (h : LoopStep m a m') (hu : u ≠ a.vp) :
    (m'.pc u = m.pc u ∨ m'.pc u = .test) ∧ m'.current u = m.current u ∧ m'.pos u = m.pos u := by
  by_cases hs : m.pc a.vp = .spawn u ∧ u < m.numVps
  · rw [loop_spawn h hs.1 hs.2]
    simp [hu]
  · obtain ⟨h₁, h₂⟩ := loop_others h hu hs
    exact ⟨.inl h₁, h₂⟩

theorem loop_arrives (h : LoopStep m a m') : m'.pc a.vp ≠ .exitTrace ∧ (m'.pc a.vp = .exitSwitch → m.pc a.vp = .exitTrace) ∧
    (m'.pc a.vp = .swapOut true → m.pc a.vp = .yieldEnq) ∧
    ∀ t, (m'.pc a.vp = .switchIn t → m.pc a.vp = .dispatchTrace t) ∧ (m'.pc a.vp = .dispatchTrace t → m.pc a.vp = .dispatch t) := by
  cases h with
  | @createFail ok _ => cases ok <;> simp [MnCore.allocTcb]
  | readyEmpty => split <;> simp
  | halt => unfold leave; split <;> simp
  | dead => unfold leave; split <;> simp
  | exitTrace hpc => simp [hpc]
  | yieldEnq hpc => simp [hpc]
  | dispatch hpc => simp [hpc]
  | dispatchTrace hpc => simp [hpc]
  | _ => simp [MnCore.allocTcb]

/-! ## States and allocation -/

theorem update_state (t x : Ptr) (st : TState) : Function.update m.state x st t = m.state t ∨ t = x := by
  by_cases h : t = x
  · exact .inr h
  · exact .inl (Function.update_of_ne h _ _)

theorem user_state (hpc : m.pc a.vp = .user) (h : UserStep m a m') (t : Ptr) :
    m'.state t = m.state t ∨ ∃ i, t ∈ m.places i ∧ i.expect ≠ .ioBlocked := by
  have hheld : ∀ {x}, m.current a.vp = some x → t = x → ∃ i, t ∈ m.places i ∧ i.expect ≠ .ioBlocked := by
    intro x hc he
    subst he
    exact ⟨_, mem_own hpc rfl hc, by simp [Place.expect]⟩
  cases h with
  | exit hc => exact (update_state _ _ _).imp_right (hheld hc)
  | sleep hc => exact (update_state _ _ _).imp_right (hheld hc)
  | io hc => exact (update_state _ _ _).imp_right (hheld hc)
  | _ => exact .inl rfl

theorem loop_state (h : LoopStep m a m') (t : Ptr) :
    m'.state t = m.state t ∨ (∃ i, t ∈ m.places i ∧ i.expect ≠ .ioBlocked) ∨
      m.pc a.vp = .createTcb ∧ t = a.addr ∧ m.allocated t = false := by
  have hown : ∀ {x pc k}, m.pc a.vp = pc → pc.own = some k → m.current a.vp = some x → k ≠ .dozing → t = x →
      ∃ i, t ∈ m.places i ∧ i.expect ≠ .ioBlocked := by
    intro x pc k hpc hk hc hd he
    subst he
    refine ⟨_, mem_own hpc hk hc, ?_⟩
    cases k <;> simp [Place.expect] at hd ⊢
  cases h with
  | @createFail ok hpc ha =>
    cases ok with
    | true => exact .inl rfl
    | false => exact (update_state _ _ _).imp_right fun e => .inr ⟨hpc, e, e ▸ ha rfl⟩
  | createTcb hpc ha => exact (update_state _ _ _).imp_right fun e => .inr ⟨hpc, e, e ▸ ha⟩
  | park hpc hc => exact (update_state _ _ _).imp_right fun e => .inl (hown hpc rfl hc (by simp) e)
  | yieldMark hpc hc => exact (update_state _ _ _).imp_right fun e => .inl (hown hpc rfl hc (by simp) e)
  | wakeMark hpc =>
    refine (update_state _ _ _).imp_right fun e => ?_
    subst e
    exact .inl ⟨_, mem_popped hpc, by simp [Place.expect]⟩
  | dispatch hpc =>
    refine (update_state _ _ _).imp_right fun e => ?_
    subst e
    exact .inl ⟨_, mem_taken hpc, by simp [Place.expect]⟩
  | _ => exact .inl rfl

theorem update_finished {t x : Ptr} {st : TState} (hst : st ≠ .finished) (h : Function.update m.state x st t = .finished) :
    m.state t = .finished := by
  obtain he | he := update_state (m := m) t x st
  · rwa [he] at h
  · subst he
    rw [Function.update_self] at h
    exact absurd h hst

theorem user_exit {t : Ptr} (h : UserStep m a m') (hf : m'.state t = .finished) :
    m.state t = .finished ∨ m.current a.vp = some t := by
  cases h with
  | @exit x hc =>
    obtain he | he := update_state (m := m) t x .finished
    · exact .inl (he.symm.trans hf)
    · exact .inr (he ▸ hc)
  | sleep => exact .inl (update_finished (by simp) hf)
  | io => exact .inl (update_finished (by simp) hf)
  | _ => exact .inl hf

theorem loop_exit {t : Ptr} (h : LoopStep m a m') (hf : m'.state t = .finished) : m.state t = .finished := by
  cases h with
  | @createFail ok _ =>
    cases ok with
    | true => exact hf
    | false => exact update_finished (by simp) hf
  | createTcb => exact update_finished (by simp) hf
  | park => exact update_finished (by simp) hf
  | wakeMark => exact update_finished (by simp) hf
  | yieldMark => exact update_finished (by simp) hf
  | dispatch => exact update_finished (by simp) hf
  | _ => exact hf

theorem gc_allocated {v : VpId} (t : Ptr) : (m.gcFinishedThreads v).allocated t = m.allocated t ∨
    (m.gcFinishedThreads v).allocated t = false ∧ m.state t = .finished := by
  by_cases hf : m.state t = .finished
  · cases ha : (m.gcFinishedThreads v).allocated t with
    | false => exact .inr ⟨rfl, hf⟩
    | true =>
      left
      simp only [gcFinishedThreads, Bool.and_eq_true] at ha
      exact ha.1.symm
  · left
    simp [gcFinishedThreads, RunQueues.gc, hf]

theorem user_allocated (h : UserStep m a m') (t : Ptr) :
    m'.allocated t = m.allocated t ∨ m'.allocated t = false ∧ m.state t = .finished := by
  cases h with
  | create => exact gc_allocated t
  | _ => exact .inl rfl

theorem loop_allocated (h : LoopStep m a m') (t : Ptr) :
    m'.allocated t = m.allocated t ∨ (m'.allocated t = false ∧ m.state t = .finished) ∨
      m.pc a.vp = .createTcb ∧ t = a.addr ∧ m.allocated t = false := by
  cases h with
  | @createFail ok hpc ha =>
    cases ok with
    | true => exact .inl rfl
    | false =>
      by_cases ht : t = a.addr
      · exact .inr (.inr ⟨hpc, ht, ht ▸ ha rfl⟩)
      · exact .inl (by simp [MnCore.allocTcb, ht])
  | createTcb hpc ha =>
    by_cases ht : t = a.addr
    · exact .inr (.inr ⟨hpc, ht, ht ▸ ha⟩)
    · exact .inl (by simp [MnCore.allocTcb, ht])
  | stopped => exact (gc_allocated t).imp_right .inl
  | _ => exact .inl rfl

end Mn

end Uthread
