import Uthread.Reclaim

/-!
# Guard pages

The lowest page of every stack region is not accessible. `sigsegv_handler`
looks for the thread whose guard page the faulting address is in.
-/

namespace Uthread

open Linked

def guardPageSize : Nat := 4096

def uthreadStackSize : Nat := 64 * 1024

def stackAllocSize : Nat := uthreadStackSize + guardPageSize

structure OverflowReport where
  threadId : Int
  faultAddr : Nat
  guardLo : Nat
  guardHi : Nat
  stackSize : Nat
  deriving DecidableEq, Repr

section
variable (base : Ptr → Nat) (faultAddr : Nat)

/-- The body of the loop of `sigsegv_handler`; `mmap` put the region of thread `t` at `base t`. -/
def Tcbs.overflow (tcb : Tcbs) (t : Ptr) : Option OverflowReport :=
  match tcb.stack t with
  | some region =>
    if base region ≤ faultAddr ∧ faultAddr < base region + guardPageSize then
      some ⟨tcb.threadId t, faultAddr, base region, base region + guardPageSize, uthreadStackSize⟩
    else none
  | none => none

def guardLoop (tcb : Tcbs) (l : Links) : Nat → Option Ptr → Option OverflowReport
  | n + 1, some t =>
    match tcb.overflow base faultAddr t with
    | some r => some r
    | none => guardLoop tcb l n (l.globalNext t)
  | _, _ => none

def Sys.sigsegvHandler (s : Sys) : Option OverflowReport := guardLoop base faultAddr s.tcb s.lk s.fuel s.lk.globalThreadList

end

def Sys.Mapped (s : Sys) (t : Ptr) : Prop := s.tcb.stack t = some t ∧ .unmapped t ∉ s.log

def RegionsApart (base : Ptr → Nat) (s : Sys) : Prop :=
  ∀ t u, s.Mapped t → s.Mapped u → t ≠ u → base t + stackAllocSize ≤ base u ∨ base u + stackAllocSize ≤ base t

variable {a b : Abs} {s : Sys} {t : Ptr} {base : Ptr → Nat} {faultAddr : Nat}

/-! ## Regions and threads -/

def Housed (a : Abs) : Prop := ∀ t r, a.tcb.stack t = some r → r = t ∧ t < a.brk ∧ (t ∈ a.glob ∨ .unmapped t ∈ a.log)

theorem Housed.of_same (h : Housed a) (hs : b.tcb.stack = a.tcb.stack) (hb : b.brk = a.brk) (hg : b.glob = a.glob)
    (hl : ∃ es, b.log = es ++ a.log) : Housed b := by
  obtain ⟨es, hl⟩ := hl
  intro t r hr
  rw [hs] at hr
  obtain ⟨rfl, hlt, hm⟩ := h t r hr
  rw [hb, hg, hl]
  exact ⟨rfl, hlt, hm.imp_right (List.mem_append_right es)⟩

theorem Housed.reap (h : Housed a) (t : Ptr) : Housed (a.reap t) := by
  intro u r hr
  obtain ⟨rfl, hlt, hm⟩ := h u r hr
  refine ⟨rfl, hlt, ?_⟩
  have hlog : (a.reap t).log = .freed t (a.tcb.state t) a.run.onStack :: (match a.tcb.stack t with
    | some region => .unmapped region :: a.log
    | none => a.log) := rfl
  rcases hm with hm | hm
  · by_cases hrt : r = t
    · right
      subst hrt
      rw [hlog, show a.tcb.stack r = some r from hr]
      simp
    · exact .inl ((List.mem_erase_of_ne hrt).mpr hm)
  · right
    rw [hlog]
    split <;> simp [hm]

theorem Housed.create (h : Housed a) (prio : Int) : Housed (a.create prio) := by
  intro u r hr
  change Function.update (Function.update a.tcb.stack a.brk none) a.brk (some a.brk) u = some r at hr
  rw [Function.update_idem] at hr
  change r = u ∧ u < a.brk + 1 ∧ (u ∈ a.brk :: a.glob ∨ .unmapped u ∈ Event.created a.brk :: .enq a.brk :: a.log)
  by_cases hu : u = a.brk
  · subst hu
    rw [Function.update_self, Option.some.injEq] at hr
    exact ⟨hr.symm, Nat.lt_succ_self _, .inl List.mem_cons_self⟩
  · rw [Function.update_of_ne hu] at hr
    obtain ⟨rfl, hlt, hm⟩ := h u r hr
    exact ⟨rfl, Nat.lt_succ_of_lt hlt, hm.imp (List.mem_cons_of_mem _) fun hx => by simp [hx]⟩

theorem Housed.createFail (h : Housed a) (prio : Int) : Housed (a.on fun c => (c.allocTcb prio).free c.brk) := by
  intro u r hr
  change Function.update a.tcb.stack a.brk none u = some r at hr
  by_cases hu : u = a.brk
  · rw [hu, Function.update_self] at hr
    cases hr
  · rw [Function.update_of_ne hu] at hr
    obtain ⟨rfl, hlt, hm⟩ := h u r hr
    exact ⟨rfl, Nat.lt_succ_of_lt hlt, hm.imp_right (List.mem_cons_of_mem _)⟩

theorem Prim.housed (h : Housed a) (hp : Prim a b) : Housed b := by
  have one : ∀ {l : List Event} (e : Event), ∃ es, e :: l = es ++ l := fun e => ⟨[e], rfl⟩
  cases hp with
  | quiet hq => cases hq <;> exact h.of_same rfl rfl rfl ⟨[], rfl⟩
  | move | mutexInit => exact h.of_same rfl rfl rfl ⟨[], rfl⟩
  | reap => exact h.reap _
  | create => exact h.create _
  | createFail => exact h.createFail _
  | ioWake | lock | wait | unlockHandoff | postHandoff => exact h.of_same rfl rfl rfl ⟨[_, _], rfl⟩
  | chanInit => exact h.of_same rfl rfl rfl ⟨[_, _, _], rfl⟩
  | chan hr hid hc => cases hc <;> exact h.of_same rfl rfl rfl (one _)
  | _ => exact h.of_same rfl rfl rfl (one _)

theorem housed_init (clock : Nat → Nat) (epollFd : Fd) (avail : Fd × IoDir → Bool) : Housed (initAbs clock epollFd avail) := by
  intro t r hr
  cases hr

/-! ## The walk over the global list -/

theorem guardLoop_eq {tcb : Tcbs} {l : Links} {n : Nat} {h : Option Ptr} {xs : List Ptr} (hc : Chain l.globalNext h xs)
    (hn : xs.length ≤ n) : guardLoop base faultAddr tcb l n h = xs.findSome? (tcb.overflow base faultAddr) := by
  induction xs generalizing n h with
  | nil =>
    obtain rfl : h = none := hc
    cases n <;> rfl
  | cons x xs ih =>
    obtain ⟨rfl, hc⟩ := hc
    obtain ⟨n, rfl⟩ := Nat.exists_eq_succ_of_ne_zero (Nat.ne_zero_of_lt hn)
    rw [guardLoop, List.findSome?_cons, ih hc (Nat.le_of_succ_le_succ hn)]
    split <;> simp [*]

/-- A fault is reported as the overflow of `t` if and only if the address is in the guard page of the mapped region of `t`;
mapped regions are those of threads on the global list. -/
theorem overflow_reported (h : Sys.Reachable s) (ha : RegionsApart base s) :
    (∃ g, Chain s.lk.globalNext s.lk.globalThreadList g ∧ ∀ t, s.Mapped t ↔ t ∈ g ∧ (s.tcb.stack t).isSome) ∧
      ∀ faultAddr r, s.sigsegvHandler base faultAddr = some r ↔
        ∃ t, s.Mapped t ∧ base t ≤ faultAddr ∧ faultAddr < base t + guardPageSize ∧
          r = ⟨s.tcb.threadId t, faultAddr, base t, base t + guardPageSize, uthreadStackSize⟩ := by
  obtain ⟨q, g, hs, -, hacc, hh⟩ := reachable_inv (I := fun a => Accounted a ∧ Housed a)
    (fun c fd v => ⟨accounted_init c fd v, housed_init c fd v⟩) (fun a b hi h hp => ⟨hp.accounted hi h.1, hp.housed h.2⟩) h
  have hmapped : ∀ t, s.Mapped t ↔ t ∈ g ∧ (s.tcb.stack t).isSome := by
    intro t
    constructor
    · intro h
      obtain ⟨hst, hun⟩ := h
      exact ⟨(hh t t hst).2.2.resolve_right hun, by rw [hst]; rfl⟩
    · intro h
      obtain ⟨hg, hst⟩ := h
      obtain ⟨r, hr⟩ := Option.isSome_iff_exists.mp hst
      obtain rfl := (hh t r hr).1
      exact ⟨hr, unmappedCount_eq_zero.mp (hacc.mapped r hg)⟩
  have hover : ∀ {faultAddr t r}, t ∈ g → (s.tcb.overflow base faultAddr t = some r ↔
      s.Mapped t ∧ base t ≤ faultAddr ∧ faultAddr < base t + guardPageSize ∧
        r = ⟨s.tcb.threadId t, faultAddr, base t, base t + guardPageSize, uthreadStackSize⟩) := by
    intro faultAddr t r hg
    unfold Tcbs.overflow
    cases hst : s.tcb.stack t with
    | none =>
      have hno : ¬ s.Mapped t := fun hm => by rw [hm.1] at hst; cases hst
      simp [hno]
    | some r' =>
      obtain rfl := (hh t r' hst).1
      have hm : s.Mapped r' := (hmapped r').mpr ⟨hg, by rw [hst]; rfl⟩
      simp only [hm, true_and, Option.ite_none_right_eq_some, Option.some.injEq, and_assoc]
      exact and_congr_right fun _ => and_congr_right fun _ => eq_comm
  refine ⟨⟨g, hs.rep.glob.fwd, hmapped⟩, fun faultAddr r => ?_⟩
  unfold Sys.sigsegvHandler
  rw [guardLoop_eq hs.rep.glob.fwd hs.glob_le]
  constructor
  · intro hr
    obtain ⟨t, ht, hr⟩ := List.exists_of_findSome?_eq_some hr
    exact ⟨t, (hover ht).mp hr⟩
  · intro h
    obtain ⟨t, hm, hlo, hhi, rfl⟩ := h
    have ht := ((hmapped t).mp hm).1
    have hsome : (g.findSome? (s.tcb.overflow base faultAddr)).isSome := by
      rw [List.findSome?_isSome_iff]
      exact ⟨t, ht, by rw [(hover ht).mpr ⟨hm, hlo, hhi, rfl⟩]; rfl⟩
    obtain ⟨r, hr⟩ := Option.isSome_iff_exists.mp hsome
    obtain ⟨u, hu, hru⟩ := List.exists_of_findSome?_eq_some hr
    obtain ⟨hmu, hlou, hhiu, rfl⟩ := (hover hu).mp hru
    -- an address is in one guard page at most
    have htu : t = u := by
      by_contra hne
      have := ha t u hm hmu hne
      unfold stackAllocSize at this
      omega
    rw [hr, htu]

/-- Two threads are created; the address is in the guard page of the second one's stack. -/
theorem overflow_reported_two :
    let s := Sys.after (fun i => i) [.call (.create 0) {}, .resume {}, .resume {}, .call (.create 0) {}, .resume {}, .resume {}]
    s.Mapped 2 ∧ s.sigsegvHandler (fun t => t * stackAllocSize) 139300 = some ⟨2, 139300, 139264, 143360, 65536⟩ := by
  intro s
  have hm : s.Mapped 2 := ⟨rfl, by decide⟩
  have ha : RegionsApart (fun t => t * stackAllocSize) s := by
    intro t u _ _ hne
    simp only [← Nat.succ_mul]
    exact (Nat.lt_or_gt_of_ne hne).imp (Nat.mul_le_mul_right _) (Nat.mul_le_mul_right _)
  exact ⟨hm, ((overflow_reported (Sys.reachable_after rfl) ha).2 _ _).mpr ⟨2, hm, by decide, by decide, rfl⟩⟩

end Uthread
