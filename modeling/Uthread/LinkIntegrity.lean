import Uthread.Follow

/-!
# The link field

In every reachable state the ready queue, the wait queues and the sleep list
are disjoint chains of distinct TCBs, each in the state that belongs to its list.
-/

namespace Uthread

open Linked

/-- `q` is what the links of `s` spell out. -/
structure Integrity (s : Sys) (q : QId → List Ptr) : Prop where
  chain : ∀ i, Chain s.lk.next (s.lk.head i) (q i)
  nodup : ∀ i, (q i).Nodup
  disjoint : ∀ {i j t}, t ∈ q i → t ∈ q j → i = j
  tail : ∀ i, i ≠ .sleep → s.lk.tail i = (q i).getLast?
  null : ∀ i, i ≠ .sleep → (s.lk.tail i = none ↔ s.lk.head i = none)
  count : s.lk.readyCount = (q .ready).length
  state : ∀ {i t}, t ∈ q i → s.tcb.state t = i.state
  away : ∀ {t}, s.tcb.state t = .running ∨ s.tcb.state t = .finished → ∀ i, t ∉ q i

variable {s : Sys} {q : Layout} {g : List Ptr}

theorem Sim.integrity (h : Sim s q g) : Integrity s q where
  chain := h.rep.chain
  nodup := h.inv.ok.nodup
  disjoint := h.inv.ok.disj
  tail := h.rep.tail
  null i hi := by
    rw [h.rep.tail i hi, chain_head (h.rep.chain i), List.getLast?_eq_none_iff, List.head?_eq_none_iff]
  count := h.rep.count
  state := h.inv.state
  away := by
    intro t h
    rcases h with hr | hf
    · exact h.inv.notMem_of_running hr
    · exact h.inv.notMem_of_finished hf

/-- Between any two steps, and so wherever SIGALRM is not masked, the links are sound. -/
theorem links_sound (h : Sys.Reachable s) : ∃ q, Integrity s q := by
  obtain ⟨q, g, hs, -⟩ := reachable_sim h
  exact ⟨q, hs.integrity⟩

/-- Two threads are created, the first of them runs and goes to sleep. -/
theorem links_sound_after_sleep :
    let s := Sys.after (fun _ => 0) [.call (.create 0) {}, .resume {}, .resume {}, .call (.create 0) {}, .resume {}, .resume {}, .call .yield {},
      .resume {}, .resume {}, .resume {}, .call (.sleep 5) {}]
    (s.lk.readyHead = some 2 ∧ s.lk.readyTail = some 0 ∧ s.lk.sleepListHead = some 1) ∧ ∃ q, Integrity s q :=
  ⟨by decide +kernel, links_sound (Sys.reachable_after (by decide +kernel))⟩

end Uthread
