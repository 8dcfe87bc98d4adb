import Mathlib.Data.List.MinMax
import Mathlib.Data.List.Nodup
import Mathlib.Data.List.Perm.Subperm

/-!
# Turns by least key

Items wait in a queue while one of them has its turn. When the turn ends new
items arrive, the item goes to the back, and the first of the items of least
key has the next turn.
-/

namespace Rota

variable {α β : Type*} [LinearOrder β] {key : α → β}

structure State (α : Type*) where
  queue : List α
  current : α

/-- Who waits when the turn ends and `W` have arrived. -/
def State.waiting (s : State α) (W : List α) : List α := s.queue ++ W ++ [s.current]

def State.items (s : State α) : List α := s.current :: s.queue

variable {s : State α} {W : List α} {Ws : List (List α)} {x d w : α} {k : β} {xs : List α}

/-! ## Minima -/

theorem argmin_waiting (key : α → β) (s : State α) (W : List α) : ∃ d, (s.waiting W).argmin key = some d := by
  rw [← Option.ne_none_iff_exists', ne_eq, List.argmin_eq_none]
  simp [State.waiting]

theorem mem_waiting (hx : x ∈ s.items) : x ∈ s.waiting W := by
  rcases List.mem_cons.mp hx with rfl | hx
  · simp [State.waiting]
  · simp [State.waiting, hx]

/-- Among keys that are at least `k` the first item of key `k` is the minimum. -/
theorem argmin_of_le : ∀ {xs : List α}, (∀ x ∈ xs, k ≤ key x) → (xs.filter (key · = k)).head? = some d →
    xs.argmin key = some d
  | x :: xs, hk, hd => by
    rw [List.argmin_cons]
    by_cases hx : key x = k
    · rw [List.filter_cons_of_pos (by simpa using hx), List.head?_cons, Option.some.injEq] at hd
      subst hd
      cases hm : xs.argmin key with
      | none => rfl
      | some c =>
        have hc : ¬ key c < key x := by
          rw [hx]
          exact not_lt.mpr (hk c (List.mem_cons_of_mem _ (List.argmin_mem hm)))
        simp only [hc, if_false]
    · rw [List.filter_cons_of_neg (by simpa using hx)] at hd
      have hd' := List.mem_filter.mp (List.mem_of_head? hd)
      have hdk : key d = k := by simpa using hd'.2
      rw [argmin_of_le (fun y hy => hk y (List.mem_cons_of_mem _ hy)) hd]
      have hlt : key d < key x := by
        rw [hdk]
        exact lt_of_le_of_ne (hk x List.mem_cons_self) (Ne.symm hx)
      simp only [hlt, if_true]

/-! ## One turn -/

variable [DecidableEq α]

def turn (key : α → β) (s : State α) (W : List α) : State α :=
  match (s.waiting W).argmin key with
  | some d => ⟨(s.waiting W).erase d, d⟩
  | none => s

def served (key : α → β) : State α → List (List α) → List α
  | _, [] => []
  | s, W :: Ws => (turn key s W).current :: served key (turn key s W) Ws

theorem turn_eq (h : (s.waiting W).argmin key = some d) : turn key s W = ⟨(s.waiting W).erase d, d⟩ := by
  unfold turn
  rw [h]

theorem mem_turn (hx : x ∈ s.waiting W) : x ∈ (turn key s W).items := by
  obtain ⟨d, hd⟩ := argmin_waiting key s W
  rw [turn_eq hd]
  by_cases hxd : x = d
  · exact List.mem_cons.mpr (.inl hxd)
  · exact List.mem_cons_of_mem _ ((List.mem_erase_of_ne hxd).mpr hx)

theorem turn_le (hx : x ∈ s.waiting W) : key (turn key s W).current ≤ key x := by
  obtain ⟨d, hd⟩ := argmin_waiting key s W
  rw [turn_eq hd]
  exact List.le_of_mem_argmin hx hd

/-! ## Many turns -/

@[simp] theorem served_length : ∀ {s : State α} {Ws : List (List α)}, (served key s Ws).length = Ws.length
  | _, [] => rfl
  | s, W :: Ws => by simp [served, served_length]

theorem served_le : ∀ {s : State α} {Ws : List (List α)}, x ∈ s.items → d ∈ served key s Ws → key d ≤ key x
  | s, W :: Ws, hx, hd => by
    rcases List.mem_cons.mp hd with rfl | hd
    · exact turn_le (mem_waiting hx)
    · exact served_le (mem_turn (mem_waiting hx)) hd

theorem served_le_arrival : ∀ {s : State α} {Ws : List (List α)}, W ∈ Ws → w ∈ W → ∃ d ∈ served key s Ws, key d ≤ key w
  | s, V :: Ws, hW, hw => by
    rcases List.mem_cons.mp hW with rfl | hW
    · exact ⟨_, List.mem_cons_self, turn_le (by simp [State.waiting, hw])⟩
    · obtain ⟨d, hd, hle⟩ := served_le_arrival (s := turn key s V) hW hw
      exact ⟨d, List.mem_cons_of_mem _ hd, hle⟩

/-! ## Items of the least key -/

structure AtLeast (key : α → β) (k : β) (s : State α) : Prop where
  queue : ∀ x ∈ s.queue, k ≤ key x
  current : key s.current = k

def State.firsts (key : α → β) (k : β) (s : State α) : List α := s.queue.filter (key · = k)

theorem AtLeast.turn (h : AtLeast key k s) (hW : ∀ w ∈ W, k ≤ key w) {rest : List α}
    (hd : (s.waiting W).filter (key · = k) = d :: rest) :
    (Rota.turn key s W).current = d ∧ AtLeast key k (Rota.turn key s W) ∧ (Rota.turn key s W).firsts key k = rest := by
  have hk : ∀ x ∈ s.waiting W, k ≤ key x := by
    intro x hx
    simp only [State.waiting, List.mem_append, List.mem_singleton] at hx
    rcases hx with (hx | hx) | rfl
    · exact h.queue x hx
    · exact hW x hx
    · exact h.current.ge
  have hmem : d ∈ (s.waiting W).filter (key · = k) := by rw [hd]; exact List.mem_cons_self
  have hdk : key d = k := by simpa using (List.mem_filter.mp hmem).2
  rw [turn_eq (argmin_of_le hk (by rw [hd]; rfl))]
  refine ⟨rfl, ⟨fun x hx => hk x (List.mem_of_mem_erase hx), hdk⟩, ?_⟩
  unfold State.firsts
  rw [← List.erase_filter, hd, List.erase_cons_head]

/-- As long as items of key `k` wait that were there first, they have the turns. -/
theorem AtLeast.served : ∀ {Ws : List (List α)} {s : State α} {xs : List α}, AtLeast key k s →
    (∀ W ∈ Ws, ∀ w ∈ W, k ≤ key w) → xs <+: s.firsts key k → Ws.length ≤ xs.length →
    Rota.served key s Ws = xs.take Ws.length
  | [], _, _, _, _, _, _ => by simp [Rota.served]
  | W :: Ws, s, [], _, _, _, hn => by simp at hn
  | W :: Ws, s, x :: xs, h, hW, ⟨ys, hys⟩, hn => by
    have hd : (s.waiting W).filter (key · = k) = x :: (xs ++ ys ++ (W ++ [s.current]).filter (key · = k)) := by
      have he : (s.waiting W).filter (key · = k) = s.firsts key k ++ (W ++ [s.current]).filter (key · = k) := by
        simp [State.waiting, State.firsts]
      rw [he, ← hys]
      simp
    obtain ⟨hc, hl, hf⟩ := h.turn (hW W List.mem_cons_self) hd
    have hrest : xs <+: (Rota.turn key s W).firsts key k := by
      rw [hf, List.append_assoc]
      exact List.prefix_append ..
    have ih := hl.served (fun V hV => hW V (List.mem_cons_of_mem _ hV)) hrest (by simpa using hn)
    simp only [Rota.served, hc, ih, List.length_cons, List.take_succ_cons]

/-! ## Everybody has a turn -/

/-- When all keys are `k`, and no arrival has a lesser one, the first turns go round with the first arrivals. -/
theorem served_eq (hx : ∀ x ∈ s.items, key x = k) (hW : ∀ V ∈ W :: Ws, ∀ w ∈ V, k ≤ key w) (hn : Ws.length ≤ s.queue.length) :
    served key s (W :: Ws) = (s.queue ++ W.filter (key · = k) ++ [s.current]).take (Ws.length + 1) := by
  have hq : ∀ x ∈ s.queue, key x = k := fun x hm => hx x (List.mem_cons_of_mem _ hm)
  have hcur : key s.current = k := hx _ List.mem_cons_self
  have hall : AtLeast key k s := ⟨fun x hm => (hq x hm).ge, hcur⟩
  have hfilter : (s.waiting W).filter (key · = k) = s.queue ++ W.filter (key · = k) ++ [s.current] := by
    have hqq : s.queue.filter (key · = k) = s.queue := List.filter_eq_self.mpr fun x hm => by simpa using hq x hm
    simp [State.waiting, hqq, hcur]
  obtain ⟨d, rest, hd⟩ := List.exists_cons_of_ne_nil
    (show s.queue ++ W.filter (key · = k) ++ [s.current] ≠ [] by simp)
  obtain ⟨hc, hl, hf⟩ := hall.turn (hW W List.mem_cons_self) (hfilter.trans hd)
  have hlen : Ws.length ≤ rest.length := by
    have := congrArg List.length hd
    simp at this
    omega
  have hrest := hl.served (fun V hV => hW V (List.mem_cons_of_mem _ hV)) (hf ▸ List.prefix_refl _) hlen
  rw [hd, List.take_succ_cons]
  simp only [served, hc, hrest]

/-- What makes everybody have one of as many turns: equal keys, and no arrival that comes before them. -/
structure Even (key : α → β) (s : State α) (Ws : List (List α)) : Prop where
  equal : ∀ x ∈ s.items, key x = key s.current
  arrivals : ∀ W ∈ Ws, ∀ w ∈ W, key s.current ≤ key w
  -- the first arrivals are ahead of the item that had the turn
  first : ∀ W, Ws.head? = some W → ∀ w ∈ W, key s.current < key w

theorem all_served_iff (hnd : s.items.Nodup) (hn : Ws.length = s.items.length)
    (hfresh : ∀ W, Ws.head? = some W → s.current ∉ W) : (∀ x ∈ s.items, x ∈ served key s Ws) ↔ Even key s Ws := by
  obtain ⟨W, Vs, rfl⟩ : ∃ W Vs, Ws = W :: Vs := List.exists_cons_of_length_pos (by rw [hn]; simp [State.items])
  have hlen : Vs.length = s.queue.length := by simpa [State.items] using hn
  constructor
  · intro h
    -- nobody else has a turn
    have hperm : s.items.Perm (served key s (W :: Vs)) := by
      refine (hnd.subperm h).perm_of_length_le ?_
      rw [served_length, hn]
    have hle : ∀ d ∈ served key s (W :: Vs), ∀ x ∈ s.items, key d ≤ key x := fun d hd x hx => served_le hx hd
    have heq : ∀ x ∈ s.items, key x = key s.current := fun x hx =>
      le_antisymm (hle x (h x hx) _ List.mem_cons_self) (hle _ (h _ List.mem_cons_self) x hx)
    have harr : ∀ V ∈ W :: Vs, ∀ w ∈ V, key s.current ≤ key w := by
      intro V hV w hw
      obtain ⟨d, hd, hdw⟩ : ∃ d ∈ served key s (W :: Vs), key d ≤ key w := served_le_arrival hV hw
      exact (heq d (hperm.mem_iff.mpr hd)).ge.trans hdw
    refine ⟨heq, harr, ?_⟩
    intro _ h w hw
    obtain ⟨⟩ := h
    refine lt_of_le_of_ne (harr W List.mem_cons_self w hw) fun he => ?_
    -- an arrival of the same key is ahead of the item that had the turn, which then has none
    have hserved := served_eq heq harr hlen.le
    have hm := h s.current List.mem_cons_self
    have hwf : w ∈ W.filter (key · = key s.current) := List.mem_filter.mpr ⟨hw, by simpa using he.symm⟩
    have hpos := List.length_pos_of_mem hwf
    rw [hserved, List.take_append_of_le_length (by simp; omega)] at hm
    rcases List.mem_append.mp (List.mem_of_mem_take hm) with hm | hm
    · exact (List.nodup_cons.mp hnd).1 hm
    · exact hfresh W rfl (List.mem_filter.mp hm).1
  · intro h x hx
    have hnone : W.filter (key · = key s.current) = [] := by
      rw [List.filter_eq_nil_iff]
      intro w hw
      simpa using (h.first W rfl w hw).ne'
    rw [served_eq h.equal h.arrivals hlen.le, hnone, List.append_nil, List.take_of_length_le (by simp [hlen])]
    rcases List.mem_cons.mp hx with rfl | hx
    · simp
    · simp [hx]

end Rota
