import Uthread.Step

/-!
# Counters that come round

The ids and the creation orders of the threads are counted by an `int`. A run
that allocates any number of TCBs, and keeps none of them, brings the counters
to any value.
-/

namespace Uthread

def failures : Nat → List Event
  | 0 => [.created 0]
  | n + 1 => .freed (n + 1) .ready 0 :: failures n

def crowded (clock : Nat → Nat) (n : Nat) : Sys :=
  let init := Sys.uthreadInit clock 3 fun _ => false
  { init with
    tcb := { init.tcb with
      threadId := fun p => if 0 < p ∧ p ≤ n then cint p else 0
      state := fun p => if 0 < p ∧ p ≤ n then .ready else .running
      creationOrder := fun p => if 0 < p ∧ p ≤ n then cint p else 0 }
    brk := n + 1
    nextThreadId := cint (n + 1)
    creationCounter := cint (n + 1)
    log := failures n }

theorem update_upTo {α : Type} (f : Ptr → α) (y : α) (n : Nat) :
    Function.update (fun p => if 0 < p ∧ p ≤ n then f p else y) (n + 1) (f (n + 1)) =
      fun p => if 0 < p ∧ p ≤ n + 1 then f p else y := by
  funext p
  by_cases hp : p = n + 1
  · subst hp
    simp
  · rw [Function.update_of_ne hp]
    have : (0 < p ∧ p ≤ n) ↔ (0 < p ∧ p ≤ n + 1) := by omega
    simp only [this]

theorem cint_succ (z : Int) : cint (cint z + 1) = cint (z + 1) := by
  unfold cint
  rw [Int.bmod_add_bmod]

theorem crowded_succ (clock : Nat → Nat) (n : Nat) :
    Trans.exec Sys.step (crowded clock n) [.call (.create 0) {}, .resume { mmapOk := false }] = some (crowded clock (n + 1)) := by
  let s₁ : Sys := ((crowded clock n).on .blockSignals).on (.setFrames [.create 0, .user])
  have h₁ : (crowded clock n).step (.call (.create 0) {}) = some s₁ := by
    have hgc : ((crowded clock n).on .blockSignals).gcFinishedThreads = (crowded clock n).on .blockSignals := by
      unfold Sys.gcFinishedThreads
      change Sys.gcLoop (n + 2) (some 0) _ = _
      simp [Sys.gcLoop, crowded, Sys.on, Core.blockSignals, Sys.uthreadInit]
    change some ((((crowded clock n).on .blockSignals).gcFinishedThreads).on (.setFrames [.create 0, .user])) = _
    rw [hgc]
  have h₂ : s₁.step (.resume { mmapOk := false }) = some (crowded clock (n + 1)) := by
    have hid : Function.update (fun p : Ptr => if 0 < p ∧ p ≤ n then cint p else 0) (n + 1) (cint (n + 1)) = _ :=
      update_upTo (fun p => cint p) 0 n
    have hst := update_upTo (fun _ => TState.ready) .running n
    change some ((((s₁.on (.allocTcb 0)).on (.free (n + 1))).on .unblockSignals).ret [.user]) = _
    simp [crowded, Sys.on, Core.free, Core.allocTcb, Core.note, Core.unblockSignals, s₁, Sys.ret, Core.setFrames,
      Core.blockSignals, Sys.uthreadInit, hid, hst, failures, cint_succ]
  simp only [Trans.exec, h₁, h₂, Option.bind_some]

theorem reachable_crowded (clock : Nat → Nat) (n : Nat) : Sys.Reachable (crowded clock n) := by
  induction n with
  | zero =>
    refine .init ⟨clock, 3, fun _ => false, ?_⟩
    have hno : ∀ p : Ptr, ¬ (0 < p ∧ p ≤ 0) := fun p h => absurd h.1 (Nat.not_lt.mpr h.2)
    have hone : cint (((0 : Nat) : Int) + 1) = 1 := by decide
    unfold crowded
    simp only [hno, if_false, hone]
    rfl
  | succ n ih => exact ih.exec (fun _ _ => trivial) (crowded_succ clock n)

/-- When `creation_counter` has come round, a new thread has the creation order of the main thread. Both are
READY when the main thread yields. -/
def sharedOrder : Option Sys :=
  Trans.exec Sys.step (crowded (fun _ => 0) (2 ^ 32 - 1))
    [.call (.create 0) {}, .resume {}, .resume {}, .call (.setScheduler (some .priority)) {}, .call .yield {}, .resume {}]

end Uthread
