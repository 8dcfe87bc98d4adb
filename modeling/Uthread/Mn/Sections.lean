import Uthread.Mn.Machine
import Uthread.Lib.Section
import Uthread.Lib.Seg

/-!
# The queue sections of M:N mode, one access at a time

The bodies of the queue functions as sequences of loads and stores, and the
spinlocks that guard them. Run at once, the bodies are the operations on links.
-/

namespace Uthread

open Locked

inductive Lock
  | ready
  | queue (vp : VpId)
  deriving DecidableEq, Repr

inductive Cell
  | next (tcb : Ptr)
  | vpId (tcb : Ptr)
  | readyHead
  | readyTail
  | readyCount
  | localHead (vp : VpId)
  | localTail (vp : VpId)
  | localCount (vp : VpId)
  deriving DecidableEq

@[reducible] def Cell.Val : Cell → Type
  | .next _ | .readyHead | .readyTail | .localHead _ | .localTail _ => Option Ptr
  | .vpId _ => VpId
  | .readyCount | .localCount _ => Int

namespace MnLinks

def cells (l : MnLinks) : Mem Cell.Val
  | .next tcb => l.next tcb
  | .vpId tcb => l.vpId tcb
  | .readyHead => l.readyHead
  | .readyTail => l.readyTail
  | .readyCount => l.readyCount
  | .localHead vp => l.localHead vp
  | .localTail vp => l.localTail vp
  | .localCount vp => l.localCount vp

def setCells (μ : Mem Cell.Val) (l : MnLinks) : MnLinks :=
  { l with
    next := fun tcb => μ (.next tcb)
    vpId := fun tcb => μ (.vpId tcb)
    readyHead := μ .readyHead
    readyTail := μ .readyTail
    readyCount := μ .readyCount
    localHead := fun vp => μ (.localHead vp)
    localTail := fun vp => μ (.localTail vp)
    localCount := fun vp => μ (.localCount vp) }

end MnLinks

inductive Result
  | done
  | thread (tcb : Option Ptr)
  -- `local_count <= 1`
  | few
  | chain (theft : Theft) (stealCount : Int)
  deriving DecidableEq

/-! ## The bodies -/

namespace Body

abbrev get (x : Cell) : Code Cell.Val x.Val := load x

abbrev set (x : Cell) (v : x.Val) : Code Cell.Val Unit := store x v

def enqueue (tcb : Ptr) : Code Cell.Val Result := do
  set (.next tcb) none
  match ← get .readyTail with
  | some tail => store (.next tail) (some tcb)
  | none => store .readyHead (some tcb)
  set .readyTail (some tcb)
  set .readyCount ((← get .readyCount) + 1)
  return .done

def dequeue : Code Cell.Val Result := do
  match ← get .readyHead with
  | none => return .thread none
  | some tcb =>
    set .readyHead (← get (.next tcb))
    if (← get .readyHead) = none then
      set .readyTail none
    set (.next tcb) none
    set .readyCount ((← get .readyCount) - 1)
    return .thread (some tcb)

def vpEnqueue (vp : VpId) (tcb : Ptr) : Code Cell.Val Result := do
  set (.next tcb) none
  set (.vpId tcb) vp
  match ← get (.localTail vp) with
  | some tail => store (.next tail) (some tcb)
  | none => store (.localHead vp) (some tcb)
  set (.localTail vp) (some tcb)
  set (.localCount vp) ((← get (.localCount vp)) + 1)
  return .done

def vpDequeue (vp : VpId) : Code Cell.Val Result := do
  match ← get (.localHead vp) with
  | none => return .thread none
  | some tcb =>
    set (.localHead vp) (← get (.next tcb))
    if (← get (.localHead vp)) = none then
      set (.localTail vp) none
    set (.next tcb) none
    set (.localCount vp) ((← get (.localCount vp)) - 1)
    return .thread (some tcb)

def stealLoop (thief victim : VpId) : Nat → Theft → Code Cell.Val Theft
  | 0, r => return r
  | n + 1, r => do
    match ← get (.localHead victim) with
    | none => return r
    | some t =>
      set (.localHead victim) (← get (.next t))
      set (.localCount victim) ((← get (.localCount victim)) - 1)
      set (.next t) none
      set (.vpId t) thief
      match r.stolenTail with
      | some tail =>
        set (.next tail) (some t)
        stealLoop thief victim n ⟨r.j + 1, r.stolenHead, some t⟩
      | none => stealLoop thief victim n ⟨r.j + 1, some t, some t⟩

def steal (thief victim : VpId) : Code Cell.Val Result := do
  if (← get (.localCount victim)) ≤ 1 then
    return .few
  let stealCount := (← get (.localCount victim)) / 2
  let r ← stealLoop thief victim stealCount.toNat ⟨0, none, none⟩
  if (← get (.localHead victim)) = none then
    set (.localTail victim) none
  return .chain r stealCount

def attach (thief : VpId) (stolenHead : Ptr) (stolenTail : Option Ptr) (stealCount : Int) : Code Cell.Val Result := do
  match ← get (.localTail thief) with
  | some tail => store (.next tail) (some stolenHead)
  | none => store (.localHead thief) (some stolenHead)
  set (.localTail thief) stolenTail
  set (.localCount thief) ((← get (.localCount thief)) + stealCount)
  return .done

/-- The assignment to `next->vp_id` in `vp_loop`, which holds no lock. -/
def setVpId (next : Ptr) (vp : VpId) : Code Cell.Val Result := do
  set (.vpId next) vp
  return .done

end Body

/-! ## The bodies run at once -/

namespace MnLinks

section
variable {l : MnLinks} {t : Ptr} {v vp : VpId} {p : Option Ptr} {n : Int}

@[simp] theorem next_cells : l.cells (.next t) = l.next t := rfl

@[simp] theorem readyHead_cells : l.cells .readyHead = l.readyHead := rfl

@[simp] theorem readyTail_cells : l.cells .readyTail = l.readyTail := rfl

@[simp] theorem readyCount_cells : l.cells .readyCount = l.readyCount := rfl

@[simp] theorem localHead_cells : l.cells (.localHead vp) = l.localHead vp := rfl

@[simp] theorem localTail_cells : l.cells (.localTail vp) = l.localTail vp := rfl

@[simp] theorem localCount_cells : l.cells (.localCount vp) = l.localCount vp := rfl

@[simp] theorem cells_next : Function.update l.cells (.next t) p = (l.setNext t p).cells := by
  funext x
  cases x with
  | next u =>
    by_cases h : u = t
    · subst h
      simp [cells, setNext, on, Links.setNext]
    · simp [cells, setNext, on, Links.setNext, h]
  | _ => rfl

@[simp] theorem cells_vpId : Function.update l.cells (.vpId t) v = (l.setVpId t v).cells := by
  funext x
  cases x with
  | vpId u =>
    by_cases h : u = t
    · subst h
      simp [cells, setVpId]
    · simp [cells, setVpId, h]
  | _ => rfl

@[simp] theorem cells_readyHead : Function.update l.cells .readyHead p = { l with readyHead := p }.cells := by
  funext x
  cases x <;> rfl

@[simp] theorem cells_readyTail : Function.update l.cells .readyTail p = { l with readyTail := p }.cells := by
  funext x
  cases x <;> rfl

@[simp] theorem cells_readyCount : Function.update l.cells .readyCount n = { l with readyCount := n }.cells := by
  funext x
  cases x <;> rfl

@[simp] theorem cells_localHead :
    Function.update l.cells (.localHead vp) p = { l with localHead := Function.update l.localHead vp p }.cells := by
  funext x
  cases x with
  | localHead u =>
    by_cases h : u = vp
    · subst h
      simp [cells]
    · simp [cells, h]
  | _ => rfl

@[simp] theorem cells_localTail :
    Function.update l.cells (.localTail vp) p = { l with localTail := Function.update l.localTail vp p }.cells := by
  funext x
  cases x with
  | localTail u =>
    by_cases h : u = vp
    · subst h
      simp [cells]
    · simp [cells, h]
  | _ => rfl

@[simp] theorem cells_localCount :
    Function.update l.cells (.localCount vp) n = { l with localCount := Function.update l.localCount vp n }.cells := by
  funext x
  cases x with
  | localCount u =>
    by_cases h : u = vp
    · subst h
      simp [cells]
    · simp [cells, h]
  | _ => rfl

end

end MnLinks

namespace Body

open MnLinks Linked

variable {l : MnLinks} {t : Ptr} {vp : VpId}

theorem run_enqueue : (Body.enqueue t).run l.cells = (.done, (l.on (·.enqueue t)).cells) := by
  unfold Body.enqueue MnLinks.on Links.enqueue
  cases h : l.readyTail with
  | none => simp [h, MnLinks.setNext, MnLinks.on, Links.setNext]
  | some tail => simp [h, MnLinks.setNext, MnLinks.on, Links.setNext]

theorem run_dequeue : Body.dequeue.run l.cells = (.thread l.dequeue.1, l.dequeue.2.cells) := by
  unfold Body.dequeue MnLinks.dequeue Links.dequeue
  cases h : l.readyHead with
  | none => simp [h]
  | some tcb =>
    cases hn : l.next tcb with
    | none => simp [h, hn, MnLinks.setNext, MnLinks.on, Links.setNext]
    | some _ => simp [h, hn, MnLinks.setNext, MnLinks.on, Links.setNext]

theorem run_vpEnqueue : (Body.vpEnqueue vp t).run l.cells = (.done, (l.vpEnqueue vp t).cells) := by
  unfold Body.vpEnqueue MnLinks.vpEnqueue
  cases h : l.localTail vp with
  | none => simp [h, MnLinks.setNext, MnLinks.on, Links.setNext, MnLinks.setVpId]
  | some tail => simp [h, MnLinks.setNext, MnLinks.on, Links.setNext, MnLinks.setVpId]

theorem run_vpDequeue : (Body.vpDequeue vp).run l.cells = (.thread (l.vpDequeue vp).1, (l.vpDequeue vp).2.cells) := by
  unfold Body.vpDequeue MnLinks.vpDequeue
  cases h : l.localHead vp with
  | none => simp [h]
  | some tcb =>
    cases hn : l.next tcb with
    | none => simp [h, hn]
    | some _ => simp [h, hn]

theorem run_stealLoop {thief victim : VpId} {n : Nat} {r : Theft} : (Body.stealLoop thief victim n r).run l.cells =
    ((l.stealLoop thief victim n r).1, (l.stealLoop thief victim n r).2.cells) := by
  induction n generalizing l r with
  | zero => rfl
  | succ n ih =>
    unfold Body.stealLoop MnLinks.stealLoop
    cases h : l.localHead victim with
    | none => simp [h]
    | some t =>
      cases r.stolenTail with
      | none => simp [h, ih]
      | some tail => simp [h, ih]

theorem run_steal {thief victim : VpId} : (Body.steal thief victim).run l.cells =
    if l.localCount victim ≤ 1 then (.few, l.cells)
    else (.chain (l.steal thief victim (l.localCount victim / 2).toNat).1 (l.localCount victim / 2),
      (l.steal thief victim (l.localCount victim / 2).toNat).2.cells) := by
  unfold Body.steal MnLinks.steal
  by_cases hc : l.localCount victim ≤ 1
  · simp [hc]
  · simp [hc, run_stealLoop]
    split
    · simp [*]
    · simp [*]

theorem run_attach {h : Ptr} {tl : Option Ptr} {n : Int} :
    (Body.attach vp h tl n).run l.cells = (.done, (l.attach vp h tl n).cells) := by
  unfold Body.attach MnLinks.attach
  cases ht : l.localTail vp with
  | none => simp [ht]
  | some tail => simp [ht]

theorem run_setVpId : (Body.setVpId t vp).run l.cells = (.done, (l.setVpId t vp).cells) := by
  unfold Body.setVpId
  simp

/-! ## What the bodies access -/

section
variable {P : Cell → Prop} {thief victim : VpId} {r : Theft} {xs : List Ptr} {n : Nat}

theorem keeps_enqueue (ht : P (.next t)) (hh : P .readyHead) (hl : P .readyTail) (hc : P .readyCount)
    (htl : ∀ tail, l.readyTail = some tail → P (.next tail)) : (Body.enqueue t).Keeps P l.cells := by
  unfold Body.enqueue
  cases h : l.readyTail with
  | none => simp [h, MnLinks.setNext, MnLinks.on, Links.setNext, ht, hh, hl, hc]
  | some tail => simp [h, MnLinks.setNext, MnLinks.on, Links.setNext, ht, hl, hc, htl tail h]

theorem keeps_dequeue (hh : P .readyHead) (hl : P .readyTail) (hc : P .readyCount)
    (ht : ∀ t, l.readyHead = some t → P (.next t)) : Body.dequeue.Keeps P l.cells := by
  unfold Body.dequeue
  cases h : l.readyHead with
  | none => simp [h, hh]
  | some tcb => cases hn : l.next tcb <;> simp [h, hn, hh, hl, hc, ht tcb h]

theorem keeps_vpEnqueue (ht : P (.next t)) (hv : P (.vpId t)) (hh : P (.localHead vp)) (hl : P (.localTail vp))
    (hc : P (.localCount vp)) (htl : ∀ tail, l.localTail vp = some tail → P (.next tail)) :
    (Body.vpEnqueue vp t).Keeps P l.cells := by
  unfold Body.vpEnqueue
  cases h : l.localTail vp with
  | none => simp [h, MnLinks.setNext, MnLinks.on, MnLinks.setVpId, ht, hv, hh, hl, hc]
  | some tail => simp [h, MnLinks.setNext, MnLinks.on, MnLinks.setVpId, ht, hv, hl, hc, htl tail h]

theorem keeps_vpDequeue (hh : P (.localHead vp)) (hl : P (.localTail vp)) (hc : P (.localCount vp))
    (ht : ∀ t, l.localHead vp = some t → P (.next t)) : (Body.vpDequeue vp).Keeps P l.cells := by
  unfold Body.vpDequeue
  cases h : l.localHead vp with
  | none => simp [h, hh]
  | some tcb => cases hn : l.next tcb <;> simp [h, hn, hh, hl, hc, ht tcb h]

theorem keeps_stealLoop (hh : P (.localHead victim)) (hc : P (.localCount victim)) (hx : ∀ x ∈ xs, P (.next x) ∧ P (.vpId x))
    (hn : xs.Nodup) (hch : Chain l.next (l.localHead victim) xs)
    (htl : ∀ tail, r.stolenTail = some tail → P (.next tail) ∧ tail ∉ xs) :
    (Body.stealLoop thief victim n r).Keeps P l.cells := by
  induction n generalizing l r xs with
  | zero => exact Code.keeps_pure
  | succ n ih =>
    unfold Body.stealLoop
    cases xs with
    | nil =>
      have hnil : l.localHead victim = none := hch
      simp [hnil, hh]
    | cons t ts =>
      obtain ⟨ht, hts⟩ := hch
      obtain ⟨hnt, hnts⟩ := List.nodup_cons.mp hn
      have htP := hx t (by simp)
      have hrest : ∀ x ∈ ts, P (.next x) ∧ P (.vpId x) := fun x hm => hx x (by simp [hm])
      cases hr : r.stolenTail with
      | none =>
        simp only [Code.keeps_bind, Code.keeps_load, Code.keeps_store, Code.run_load, Code.run_store, MnLinks.localHead_cells,
          ht, MnLinks.next_cells, MnLinks.cells_localHead, MnLinks.localCount_cells, MnLinks.cells_localCount,
          MnLinks.cells_next, MnLinks.cells_vpId, hh, hc, htP, true_and]
        apply ih hrest hnts
        · simpa [MnLinks.setVpId, MnLinks.setNext, MnLinks.on, Links.setNext] using (seg_update hnt).mpr hts
        · intro tail he
          cases he
          exact ⟨htP.1, hnt⟩
      | some tail =>
        obtain ⟨hP, htail⟩ := htl tail hr
        simp only [Code.keeps_bind, Code.keeps_load, Code.keeps_store, Code.run_load, Code.run_store, MnLinks.localHead_cells,
          ht, MnLinks.next_cells, MnLinks.cells_localHead, MnLinks.localCount_cells, MnLinks.cells_localCount,
          MnLinks.cells_next, MnLinks.cells_vpId, hh, hc, htP, hP, true_and]
        apply ih hrest hnts
        · have htail' : tail ∉ ts := fun hm => htail (by simp [hm])
          simpa [MnLinks.setVpId, MnLinks.setNext, MnLinks.on, Links.setNext] using
            (seg_update htail').mpr ((seg_update hnt).mpr hts)
        · intro tail he
          cases he
          exact ⟨htP.1, hnt⟩

theorem keeps_steal (hh : P (.localHead victim)) (hl : P (.localTail victim)) (hc : P (.localCount victim))
    (hx : ∀ x ∈ xs, P (.next x) ∧ P (.vpId x)) (hn : xs.Nodup) (hch : Chain l.next (l.localHead victim) xs) :
    (Body.steal thief victim).Keeps P l.cells := by
  have hloop : (Body.stealLoop thief victim (l.localCount victim / 2).toNat ⟨0, none, none⟩).Keeps P l.cells :=
    keeps_stealLoop hh hc hx hn hch fun tail he => by cases he
  unfold Body.steal
  by_cases hlen : l.localCount victim ≤ 1
  · simp [hlen, hc]
  · simp only [Code.keeps_bind, Code.keeps_load, hc, Code.run_load, MnLinks.localCount_cells, hlen, if_false, hloop, run_stealLoop,
      MnLinks.localHead_cells, hh, true_and]
    generalize MnLinks.stealLoop thief victim _ _ l = r
    by_cases hd : r.2.localHead victim = none
    · simp [hd, hl]
    · simp [hd]

theorem keeps_attach {h : Ptr} {tl : Option Ptr} {n : Int} (hh : P (.localHead vp)) (hl : P (.localTail vp))
    (hc : P (.localCount vp)) (htl : ∀ tail, l.localTail vp = some tail → P (.next tail)) :
    (Body.attach vp h tl n).Keeps P l.cells := by
  unfold Body.attach
  cases ht : l.localTail vp with
  | none => simp [ht, hh, hl, hc]
  | some tail => simp [ht, hl, hc, htl tail ht]

theorem keeps_setVpId (h : P (.vpId t)) : (Body.setVpId t vp).Keeps P l.cells := by
  unfold Body.setVpId
  simp [h]

end

end Body

/-! ## Steps with sections -/

namespace Mn

/-- The section of `a.vp`'s next step. The `enqueue` of a woken thread is none: it is called without `ready_lock`. -/
def sec (s : Mn MnLinks) (a : MnAct) : Option (Option Lock × Code Cell.Val Result) :=
  let v := a.vp
  match s.pc v with
  | .yieldEnq => (s.current v).map fun t => (some (.queue v), Body.vpEnqueue v t)
  | .createEnq tcb => some (some .ready, Body.enqueue tcb)
  | .deq => some (some (.queue v), Body.vpDequeue v)
  | .ready => some (some .ready, Body.dequeue)
  | .probe start i =>
    let vid := (start + i) % s.numVps
    if i < s.numVps ∧ vid ≠ v then some (some (.queue vid), Body.steal v vid) else none
  | .attach h tl n => some (some (.queue v), Body.attach v h tl n)
  | .stealDeq => some (some (.queue v), Body.vpDequeue v)
  | .dispatch next => some (none, Body.setVpId next v)
  | _ => none

/-- What the step does besides its section, taken with the release. -/
def fin (a : MnAct) (r : Result) (s : Mn MnLinks) : Option (Mn MnLinks) :=
  let v := a.vp
  match s.pc v, r with
  | .yieldEnq, .done => some (s.goto v (.swapOut true))
  | .createEnq tcb, .done => some (s.goto v (.createTrace tcb))
  | .deq, .thread tcb => some (s.goto v (tcb.elim .ready .dispatch))
  | .ready, .thread tcb =>
    some (s.goto v (tcb.elim (if s.numVps ≤ 1 then .alive else .probe (stealStart s.numVps v a.now) 0) .dispatch))
  | .probe start i, .few => some (s.goto v (.probe start (i + 1)))
  | .probe start i, .chain r stealCount => some
    (match r.stolenHead with
    | some stolenHead => s.goto v (.attach stolenHead r.stolenTail stealCount)
    | none => s.goto v (.probe start (i + 1)))
  | .attach h _ _, .done => some (s.goto v (.stealTrace h))
  | .stealDeq, .thread tcb => some (s.goto v (tcb.elim .alive .dispatch))
  | .dispatch next, .done => some (((s.on (.setCurrent v next)).on (.setState next .running)).goto v (.dispatchTrace next))
  | _, _ => none

end Mn

def sections : Machine (Mn MnLinks) MnAct VpId Lock Cell.Val Result where
  proc a := a.vp
  mem s := s.q.cells
  put μ s := { s with q := s.q.setCells μ }
  sec := Mn.sec
  plain s a := s.step a
  fin := Mn.fin

/-! ## Sections run at once are steps -/

namespace MnLinks

variable {l l' l'' : MnLinks} {t : Ptr} {v vp thief victim : VpId}

@[simp] theorem cells_setCells {μ : Mem Cell.Val} : (l.setCells μ).cells = μ := by
  funext x
  cases x <;> rfl

def CellsOnly (l l' : MnLinks) : Prop := l.setCells l'.cells = l'

theorem CellsOnly.trans (h : CellsOnly l l') (h' : CellsOnly l' l'') : CellsOnly l l'' := by
  unfold CellsOnly at h h'
  rw [← h] at h'
  exact h'

theorem cellsOnly_enqueue : CellsOnly l (l.on (·.enqueue t)) := by
  unfold CellsOnly on Links.enqueue
  cases h : l.readyTail <;> simp [setCells, cells, Links.setNext, h]

theorem cellsOnly_dequeue : CellsOnly l l.dequeue.2 := by
  unfold CellsOnly dequeue Links.dequeue
  cases l.readyHead with
  | none => rfl
  | some tcb =>
    dsimp only
    split <;> rfl

theorem cellsOnly_vpEnqueue : CellsOnly l (l.vpEnqueue vp t) := by
  unfold CellsOnly vpEnqueue
  dsimp only
  split <;> rfl

theorem cellsOnly_vpDequeue : CellsOnly l (l.vpDequeue vp).2 := by
  unfold CellsOnly vpDequeue
  split
  · rfl
  · dsimp only
    split <;> rfl

theorem cellsOnly_stealLoop : ∀ {n : Nat} {r : Theft} {l : MnLinks}, CellsOnly l (l.stealLoop thief victim n r).2
  | 0, r, l => rfl
  | n + 1, r, l => by
    unfold stealLoop
    split
    · rfl
    · dsimp only
      split
      · refine CellsOnly.trans ?_ cellsOnly_stealLoop
        rfl
      · refine CellsOnly.trans ?_ cellsOnly_stealLoop
        rfl

theorem cellsOnly_steal {n : Nat} : CellsOnly l (l.steal thief victim n).2 := by
  unfold steal
  dsimp only
  split
  · exact cellsOnly_stealLoop.trans rfl
  · exact cellsOnly_stealLoop

theorem cellsOnly_attach {h : Ptr} {tl : Option Ptr} {n : Int} : CellsOnly l (l.attach vp h tl n) := by
  unfold CellsOnly attach
  dsimp only
  split <;> rfl

end MnLinks

section
variable {s : Mn MnLinks} {a : MnAct}

theorem sections_plain (h : s.sec a = none) : sections.atomic s a = s.step a := by
  unfold Machine.atomic
  rw [show sections.sec s a = none from h]
  rfl

theorem sections_run {lk : Option Lock} {c : Code Cell.Val Result} {r : Result} {l' : MnLinks} (h : s.sec a = some (lk, c))
    (hr : c.run s.q.cells = (r, l'.cells)) (hl : s.q.CellsOnly l') :
    sections.atomic s a = Mn.fin a r { s with q := l' } := by
  unfold Machine.atomic
  rw [show sections.sec s a = some (lk, c) from h]
  dsimp only [sections]
  rw [hr]
  dsimp only
  rw [show s.q.setCells l'.cells = l' from hl]

/-- Sections run at once are the steps of the machine on links. -/
theorem sections_atomic : sections.atomic s a = s.step a := by
  cases hs : s.sec a with
  | none => exact sections_plain hs
  | some x =>
    obtain ⟨lk, c⟩ := x
    have hs' := hs
    unfold Mn.sec at hs
    dsimp only at hs
    unfold Mn.step
    dsimp only
    split at hs
    · rename_i hpc
      obtain ⟨t, hc, hx⟩ := Option.map_eq_some_iff.mp hs
      cases hx
      rw [sections_run hs' Body.run_vpEnqueue MnLinks.cellsOnly_vpEnqueue]
      simp only [hpc, Mn.fin, hc, Option.bind_some, Mn.inCall]
      rfl
    · rename_i t hpc
      cases hs
      rw [sections_run hs' Body.run_enqueue MnLinks.cellsOnly_enqueue]
      simp only [hpc, Mn.fin]
      rfl
    · rename_i hpc
      cases hs
      rw [sections_run hs' Body.run_vpDequeue MnLinks.cellsOnly_vpDequeue]
      simp only [hpc, Mn.fin]
      rfl
    · rename_i hpc
      cases hs
      rw [sections_run hs' Body.run_dequeue MnLinks.cellsOnly_dequeue]
      simp only [hpc, Mn.fin]
      rfl
    · rename_i start i hpc
      split at hs
      · rename_i hv
        cases hs
        have hcount : RunQueues.localCount s.q = s.q.localCount := rfl
        simp only [hpc, Mn.probe, if_pos hv.1, if_neg hv.2, hcount]
        by_cases hlen : s.q.localCount ((start + i) % s.numVps) ≤ 1
        · have hr := @Body.run_steal s.q a.vp ((start + i) % s.numVps)
          rw [if_pos hlen] at hr
          rw [sections_run hs' hr rfl]
          simp only [hpc, Mn.fin, if_pos hlen]
        · have hr := @Body.run_steal s.q a.vp ((start + i) % s.numVps)
          rw [if_neg hlen] at hr
          rw [sections_run hs' hr MnLinks.cellsOnly_steal]
          simp only [hpc, Mn.fin, if_neg hlen]
          rfl
      · cases hs
    · rename_i h tl n hpc
      cases hs
      rw [sections_run hs' Body.run_attach MnLinks.cellsOnly_attach]
      simp only [hpc, Mn.fin]
      rfl
    · rename_i hpc
      cases hs
      rw [sections_run hs' Body.run_vpDequeue MnLinks.cellsOnly_vpDequeue]
      simp only [hpc, Mn.fin]
      rfl
    · rename_i next hpc
      cases hs
      rw [sections_run hs' Body.run_setVpId rfl]
      simp only [hpc, Mn.fin]
      rfl
    · cases hs

end

end Uthread
