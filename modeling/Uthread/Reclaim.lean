import Uthread.Follow

/-!
# Reclamation

A ledger of the thread control blocks: each one that was created is on the
global list, or it finished and was freed, once, and nothing refers to it.
-/

namespace Uthread

open Linked

namespace Event

def frees (t : Ptr) : Event → Bool
  | .freed t' _ _ => t' = t
  | _ => false

def unmaps (t : Ptr) : Event → Bool
  | .unmapped t' => t' = t
  | _ => false

def life : Event → Bool
  | .created _ => true
  | .finished _ => true
  | .freed _ _ _ => true
  | .unmapped _ => true
  | _ => false

end Event

def freedCount (t : Ptr) (l : List Event) : Nat := l.countP (Event.frees t)

def unmappedCount (t : Ptr) (l : List Event) : Nat := l.countP (Event.unmaps t)

structure Unborn (t : Ptr) (l : List Event) : Prop where
  created : .created t ∉ l
  finished : .finished t ∉ l
  freed : freedCount t l = 0
  unmapped : unmappedCount t l = 0

structure Accounted (a : Abs) : Prop where
  created : ∀ t ∈ a.glob, .created t ∈ a.log
  unfreed : ∀ t ∈ a.glob, freedCount t a.log = 0
  mapped : ∀ t ∈ a.glob, unmappedCount t a.log = 0
  finished : ∀ t ∈ a.glob, .finished t ∈ a.log ↔ a.tcb.state t = .finished
  stack : ∀ t ∈ a.glob, ∀ r, a.tcb.stack t = some r → r = t
  gone : ∀ t, .created t ∈ a.log → t ∉ a.glob → .finished t ∈ a.log
  freed : ∀ t st u, .freed t st u ∈ a.log → .created t ∈ a.log → st = .finished ∧ t ≠ u
  stackless : ∀ t st u, .freed t st u ∈ a.log → .created t ∉ a.log → st = .ready
  unmapped : ∀ t, .unmapped t ∈ a.log → ∃ u, .freed t .finished u ∈ a.log
  once : ∀ t, freedCount t a.log ≤ 1 ∧ unmappedCount t a.log ≤ 1
  unborn : ∀ t, a.brk ≤ t → Unborn t a.log

section
variable {t : Ptr} {e : Event} {es l : List Event}

theorem freedCount_cons : freedCount t (e :: l) = freedCount t l + if e.frees t then 1 else 0 := List.countP_cons

theorem unmappedCount_cons : unmappedCount t (e :: l) = unmappedCount t l + if e.unmaps t then 1 else 0 := List.countP_cons

theorem freedCount_keep (h : ∀ e ∈ es, e.life = false) : freedCount t (es ++ l) = freedCount t l := by
  unfold freedCount
  rw [List.countP_append, List.countP_eq_zero.mpr, Nat.zero_add]
  intro e he
  have := h e he
  cases e <;> simp_all [Event.life, Event.frees]

theorem unmappedCount_keep (h : ∀ e ∈ es, e.life = false) : unmappedCount t (es ++ l) = unmappedCount t l := by
  unfold unmappedCount
  rw [List.countP_append, List.countP_eq_zero.mpr, Nat.zero_add]
  intro e he
  have := h e he
  cases e <;> simp_all [Event.life, Event.unmaps]

theorem mem_keep (h : ∀ e ∈ es, e.life = false) (he : e.life = true) : e ∈ es ++ l ↔ e ∈ l := by
  rw [List.mem_append, or_iff_right]
  intro hm
  rw [h e hm] at he
  cases he

theorem freedCount_eq_zero : freedCount t l = 0 ↔ ∀ st u, .freed t st u ∉ l := by
  unfold freedCount
  rw [List.countP_eq_zero]
  constructor
  · intro h st u hm
    exact h _ hm (by simp [Event.frees])
  · intro h e hm
    cases e <;> simp only [Event.frees, decide_eq_true_eq, Bool.false_eq_true, not_false_eq_true]
    rintro rfl
    exact h _ _ hm

theorem unmappedCount_eq_zero : unmappedCount t l = 0 ↔ .unmapped t ∉ l := by
  unfold unmappedCount
  rw [List.countP_eq_zero]
  constructor
  · intro h hm
    exact h _ hm (by simp [Event.unmaps])
  · intro h e hm
    cases e <;> simp only [Event.unmaps, decide_eq_true_eq, Bool.false_eq_true, not_false_eq_true]
    rintro rfl
    exact h hm

end

variable {a b : Abs} {t : Ptr}

structure Ageless (a b : Abs) : Prop where
  log : ∃ es, b.log = es ++ a.log ∧ ∀ e ∈ es, e.life = false
  glob : b.glob = a.glob := by rfl
  brk : b.brk = a.brk := by rfl
  stack : b.tcb.stack = a.tcb.stack := by rfl
  state : ∀ t ∈ a.glob, b.tcb.state t = .finished ↔ a.tcb.state t = .finished

theorem Accounted.ageless (h : Accounted a) (hs : Ageless a b) : Accounted b := by
  obtain ⟨es, hlog, hes⟩ := hs.log
  have hmem : ∀ {e : Event}, e.life = true → (e ∈ b.log ↔ e ∈ a.log) := fun he => by rw [hlog]; exact mem_keep hes he
  have hf : ∀ t, freedCount t b.log = freedCount t a.log := fun t => by rw [hlog]; exact freedCount_keep hes
  have hu : ∀ t, unmappedCount t b.log = unmappedCount t a.log := fun t => by rw [hlog]; exact unmappedCount_keep hes
  exact
    { created := fun t ht => (hmem rfl).mpr (h.created t (hs.glob ▸ ht))
      unfreed := fun t ht => (hf t).trans (h.unfreed t (hs.glob ▸ ht))
      mapped := fun t ht => (hu t).trans (h.mapped t (hs.glob ▸ ht))
      finished := fun t ht => (hmem rfl).trans ((h.finished t (hs.glob ▸ ht)).trans (hs.state t (hs.glob ▸ ht)).symm)
      stack := fun t ht r hr => h.stack t (hs.glob ▸ ht) r (hs.stack ▸ hr)
      gone := fun t hc ht => (hmem rfl).mpr (h.gone t ((hmem rfl).mp hc) (hs.glob ▸ ht))
      freed := fun t st u hm hc => h.freed t st u ((hmem rfl).mp hm) ((hmem rfl).mp hc)
      stackless := fun t st u hm hc => h.stackless t st u ((hmem rfl).mp hm) fun hm => hc ((hmem rfl).mpr hm)
      unmapped := fun t hm => (h.unmapped t ((hmem rfl).mp hm)).imp fun u hm => (hmem rfl).mpr hm
      once := fun t => by rw [hf, hu]; exact h.once t
      unborn := fun t ht => by
        obtain ⟨h₁, h₂, h₃, h₄⟩ := h.unborn t (hs.brk ▸ ht)
        exact ⟨fun hm => h₁ ((hmem rfl).mp hm), fun hm => h₂ ((hmem rfl).mp hm), (hf t).trans h₃, (hu t).trans h₄⟩ }

theorem Accounted.reap (hi : Inv a) (h : Accounted a) (ht : t ∈ a.glob) (hf : a.tcb.state t = .finished)
    (hc : t ≠ a.currentThread) : Accounted (a.reap t) := by
  have hon : t ≠ a.run.onStack := by rw [hi.own.run]; exact hc
  have hsub : ∀ u ∈ (a.reap t).glob, u ∈ a.glob ∧ u ≠ t := fun u hu =>
    ((List.Nodup.mem_erase_iff hi.nodup).mp hu).symm
  have hlog := reap_log_eq a t
  have hfree : ∀ u, freedCount u (a.reap t).log = freedCount u a.log + if u = t then 1 else 0 := by
    intro u
    rw [hlog]
    cases a.tcb.stack t with
    | none => simp [freedCount_cons, Event.frees, eq_comm]
    | some r => simp [freedCount_cons, Event.frees, eq_comm]
  have hunmap : ∀ u, unmappedCount u (a.reap t).log ≤ unmappedCount u a.log + if u = t then 1 else 0 := by
    intro u
    rw [hlog]
    cases hs : a.tcb.stack t with
    | none => simp [unmappedCount_cons, Event.unmaps]
    | some r =>
      obtain rfl := h.stack t ht r hs
      simp [unmappedCount_cons, Event.unmaps, eq_comm]
  have hold : ∀ {e}, e ∈ a.log → e ∈ (a.reap t).log := by
    intro e he
    rw [hlog]
    cases a.tcb.stack t <;> simp [he]
  have hmem : ∀ {e}, e ∈ (a.reap t).log → e = .freed t .finished a.run.onStack ∨ e = .unmapped t ∨ e ∈ a.log := by
    intro e he
    rw [hlog, hf] at he
    cases hs : a.tcb.stack t with
    | none => rw [hs] at he; simpa [or_iff_not_imp_left] using (List.mem_cons.mp he).imp_right Or.inr
    | some r =>
      obtain rfl := h.stack t ht r hs
      rw [hs] at he
      simpa using he
  have hcre : ∀ {u}, .created u ∈ (a.reap t).log → .created u ∈ a.log := fun hm => by simpa using hmem hm
  have hfin : ∀ {u}, .finished u ∈ (a.reap t).log → .finished u ∈ a.log := fun hm => by simpa using hmem hm
  exact
    { created := fun u hu => hold (h.created u (hsub u hu).1)
      unfreed := fun u hu => by rw [hfree, if_neg (hsub u hu).2]; exact h.unfreed u (hsub u hu).1
      mapped := fun u hu => by
        have := hunmap u
        rw [if_neg (hsub u hu).2, h.mapped u (hsub u hu).1] at this
        exact Nat.le_zero.mp this
      finished := fun u hu => ⟨fun hm => (h.finished u (hsub u hu).1).mp (hfin hm),
        fun hs => hold ((h.finished u (hsub u hu).1).mpr hs)⟩
      stack := fun u hu => h.stack u (hsub u hu).1
      gone := fun u hm hu => by
        by_cases hut : u = t
        · subst hut; exact hold ((h.finished u ht).mpr hf)
        · exact hold (h.gone u (hcre hm) fun hg => hu ((List.mem_erase_of_ne hut).mpr hg))
      freed := fun u st v hm hc' => by
        rcases hmem hm with he | he | he
        · cases he; exact ⟨rfl, hon⟩
        · cases he
        · exact h.freed u st v he (hcre hc')
      stackless := fun u st v hm hc' => by
        rcases hmem hm with he | he | he
        · cases he
          exact absurd (hold (h.created t ht)) hc'
        · cases he
        · exact h.stackless u st v he fun hm => hc' (hold hm)
      unmapped := fun u hm => by
        rcases hmem hm with he | he | he
        · cases he
        · cases he
          exact ⟨a.run.onStack, by rw [hlog, hf]; exact List.mem_cons_self⟩
        · exact (h.unmapped u he).imp fun v hv => hold hv
      once := fun u => by
        have h₁ := hfree u
        have h₂ := hunmap u
        by_cases hut : u = t
        · subst hut
          rw [h.unfreed u ht] at h₁
          rw [h.mapped u ht] at h₂
          simp at h₁ h₂
          omega
        · rw [if_neg hut] at h₁ h₂
          have := h.once u
          omega
      unborn := fun u hu => by
        have hut : u ≠ t := by
          rintro rfl
          exact absurd (hi.lt u ht) (not_lt.mpr hu)
        obtain ⟨h₁, h₂, h₃, h₄⟩ := h.unborn u hu
        refine ⟨fun hm => h₁ (hcre hm), fun hm => h₂ (hfin hm), ?_, ?_⟩
        · rw [hfree, if_neg hut]; exact h₃
        · have := hunmap u
          rw [if_neg hut, h₄] at this
          exact Nat.le_zero.mp this }

theorem Accounted.create (hi : Inv a) (h : Accounted a) (prio : Int) : Accounted (a.create prio) := by
  have hlog : (a.create prio).log = .created a.brk :: .enq a.brk :: a.log := rfl
  obtain ⟨hb₁, hb₂, hb₃, hb₄⟩ := h.unborn a.brk le_rfl
  have hglob : ∀ u ∈ (a.create prio).glob, u = a.brk ∨ u ∈ a.glob ∧ u ≠ a.brk := fun u hu =>
    (List.mem_cons.mp hu).imp_right fun hg => ⟨hg, (hi.lt u hg).ne⟩
  have hf : ∀ u, freedCount u (a.create prio).log = freedCount u a.log := fun u => by
    simp [hlog, freedCount_cons, Event.frees]
  have hu : ∀ u, unmappedCount u (a.create prio).log = unmappedCount u a.log := fun u => by
    simp [hlog, unmappedCount_cons, Event.unmaps]
  have hold : ∀ {e}, e ∈ a.log → e ∈ (a.create prio).log := fun he => by
    rw [hlog]; exact List.mem_cons_of_mem _ (List.mem_cons_of_mem _ he)
  have hmem : ∀ {e : Event}, e.life = true → e ∈ (a.create prio).log → e = .created a.brk ∨ e ∈ a.log := by
    intro e hl he
    rw [hlog] at he
    rcases List.mem_cons.mp he with he | he
    · exact .inl he
    · rcases List.mem_cons.mp he with rfl | he
      · cases hl
      · exact .inr he
  have hfin : ∀ {u}, .finished u ∈ (a.create prio).log → .finished u ∈ a.log := fun hm => by simpa using hmem rfl hm
  have hfre : ∀ {u st v}, .freed u st v ∈ (a.create prio).log → .freed u st v ∈ a.log := fun hm => by
    simpa using hmem rfl hm
  exact
    { created := fun u hu' => by
        rcases hglob u hu' with rfl | ⟨hg, -⟩
        · rw [hlog]; exact List.mem_cons_self
        · exact hold (h.created u hg)
      unfreed := fun u hu' => by
        rw [hf]
        rcases hglob u hu' with rfl | ⟨hg, -⟩
        · exact hb₃
        · exact h.unfreed u hg
      mapped := fun u hu' => by
        rw [hu]
        rcases hglob u hu' with rfl | ⟨hg, -⟩
        · exact hb₄
        · exact h.mapped u hg
      finished := fun u hu' => by
        rcases hglob u hu' with rfl | ⟨hg, hne⟩
        · rw [create_state_self]
          exact ⟨fun hm => absurd (hfin hm) hb₂, by rintro ⟨⟩⟩
        · rw [create_state_ne hne]
          exact ⟨fun hm => (h.finished u hg).mp (hfin hm), fun hs => hold ((h.finished u hg).mpr hs)⟩
      stack := fun u hu' r hr => by
        change Function.update (Function.update a.tcb.stack a.brk none) a.brk (some a.brk) u = some r at hr
        rcases hglob u hu' with rfl | ⟨hg, hne⟩
        · rw [Function.update_self] at hr
          exact (Option.some.inj hr).symm
        · rw [Function.update_of_ne hne, Function.update_of_ne hne] at hr
          exact h.stack u hg r hr
      gone := fun u hm hg => by
        rcases hmem rfl hm with he | he
        · cases he; exact absurd List.mem_cons_self hg
        · exact hold (h.gone u he fun hg' => hg (List.mem_cons_of_mem _ hg'))
      freed := fun u st v hm hc => by
        rcases hmem rfl hc with he | he
        · cases he
          exact absurd (hfre hm) (freedCount_eq_zero.mp hb₃ st v)
        · exact h.freed u st v (hfre hm) he
      stackless := fun u st v hm hc => h.stackless u st v (hfre hm) fun hm => hc (hold hm)
      unmapped := fun u hm => by
        have hm : .unmapped u ∈ a.log := by simpa using hmem rfl hm
        exact (h.unmapped u hm).imp fun v hv => hold hv
      once := fun u => by rw [hf, hu]; exact h.once u
      unborn := fun u hu' => by
        have hlt : a.brk < u := Nat.lt_of_succ_le hu'
        obtain ⟨h₁, h₂, h₃, h₄⟩ := h.unborn u hlt.le
        refine ⟨fun hm => ?_, fun hm => h₂ (hfin hm), (hf u).trans h₃, (hu u).trans h₄⟩
        rcases hmem rfl hm with he | he
        · cases he; exact lt_irrefl _ hlt
        · exact h₁ he }

theorem Accounted.createFail (hi : Inv a) (h : Accounted a) (prio : Int) :
    Accounted (a.on fun c => (c.allocTcb prio).free c.brk) := by
  have hlog : (a.on fun c => (c.allocTcb prio).free c.brk).log = .freed a.brk .ready a.run.onStack :: a.log := by
    change Event.freed a.brk (Function.update a.tcb.state a.brk .ready a.brk) _ :: _ = _
    rw [Function.update_self]
    rfl
  generalize hb : (a.on fun c => (c.allocTcb prio).free c.brk) = b at hlog
  have hstate : ∀ u ∈ a.glob, b.tcb.state u = a.tcb.state u := fun u hu => by
    rw [← hb]; exact Function.update_of_ne (hi.lt u hu).ne ..
  have hstack : ∀ u ∈ a.glob, b.tcb.stack u = a.tcb.stack u := fun u hu => by
    rw [← hb]; exact Function.update_of_ne (hi.lt u hu).ne ..
  have hglob : b.glob = a.glob := by rw [← hb]; rfl
  have hbrk : b.brk = a.brk + 1 := by rw [← hb]; rfl
  obtain ⟨hb₁, hb₂, hb₃, hb₄⟩ := h.unborn a.brk le_rfl
  have hf : ∀ u, freedCount u b.log = freedCount u a.log + if u = a.brk then 1 else 0 := fun u => by
    simp [hlog, freedCount_cons, Event.frees, eq_comm]
  have hu : ∀ u, unmappedCount u b.log = unmappedCount u a.log := fun u => by
    simp [hlog, unmappedCount_cons, Event.unmaps]
  have hold : ∀ {e}, e ∈ a.log → e ∈ b.log := fun he => by rw [hlog]; exact List.mem_cons_of_mem _ he
  have hmem : ∀ {e}, e ∈ b.log → e = .freed a.brk .ready a.run.onStack ∨ e ∈ a.log := fun he => by
    rw [hlog] at he; exact List.mem_cons.mp he
  have hcre : ∀ {u}, .created u ∈ b.log → .created u ∈ a.log := fun hm => by simpa using hmem hm
  have hfin : ∀ {u}, .finished u ∈ b.log → .finished u ∈ a.log := fun hm => by simpa using hmem hm
  exact
    { created := fun u hg => hold (h.created u (hglob ▸ hg))
      unfreed := fun u hg => by
        have hg : u ∈ a.glob := hglob ▸ hg
        rw [hf, if_neg (hi.lt u hg).ne]; exact h.unfreed u hg
      mapped := fun u hg => (hu u).trans (h.mapped u (hglob ▸ hg))
      finished := fun u hg => by
        have hg : u ∈ a.glob := hglob ▸ hg
        rw [hstate u hg]
        exact ⟨fun hm => (h.finished u hg).mp (hfin hm), fun hs => hold ((h.finished u hg).mpr hs)⟩
      stack := fun u hg r hr => by
        have hg : u ∈ a.glob := hglob ▸ hg
        rw [hstack u hg] at hr
        exact h.stack u hg r hr
      gone := fun u hm hg => hold (h.gone u (hcre hm) (hglob ▸ hg))
      freed := fun u st v hm hc => by
        rcases hmem hm with he | he
        · cases he; exact absurd (hcre hc) hb₁
        · exact h.freed u st v he (hcre hc)
      stackless := fun u st v hm hc => by
        rcases hmem hm with he | he
        · cases he
          rfl
        · exact h.stackless u st v he fun hm => hc (hold hm)
      unmapped := fun u hm => by
        have hm : .unmapped u ∈ a.log := by simpa using hmem hm
        exact (h.unmapped u hm).imp fun v hv => hold hv
      once := fun u => by
        rw [hu, hf]
        by_cases hub : u = a.brk
        · subst hub
          rw [hb₃, hb₄]; simp
        · rw [if_neg hub]; exact h.once u
      unborn := fun u hu' => by
        rw [hbrk] at hu'
        have hlt : a.brk < u := Nat.lt_of_succ_le hu'
        obtain ⟨h₁, h₂, h₃, h₄⟩ := h.unborn u hlt.le
        refine ⟨fun hm => h₁ (hcre hm), fun hm => h₂ (hfin hm), ?_, (hu u).trans h₄⟩
        rw [hf, if_neg hlt.ne']; exact h₃ }

theorem Accounted.finish (hi : Inv a) (h : Accounted a) : Accounted a.finish := by
  have hlog : a.finish.log = .finished a.currentThread :: a.log := rfl
  have hf : ∀ u, freedCount u a.finish.log = freedCount u a.log := fun u => by
    simp [hlog, freedCount_cons, Event.frees]
  have hu : ∀ u, unmappedCount u a.finish.log = unmappedCount u a.log := fun u => by
    simp [hlog, unmappedCount_cons, Event.unmaps]
  have hold : ∀ {e}, e ∈ a.log → e ∈ a.finish.log := fun he => by rw [hlog]; exact List.mem_cons_of_mem _ he
  have hmem : ∀ {e}, e ∈ a.finish.log → e = .finished a.currentThread ∨ e ∈ a.log := fun he => by
    rw [hlog] at he; exact List.mem_cons.mp he
  have hcre : ∀ {u}, .created u ∈ a.finish.log → .created u ∈ a.log := fun hm => by simpa using hmem hm
  have hfre : ∀ {u st v}, .freed u st v ∈ a.finish.log → .freed u st v ∈ a.log := fun hm => by simpa using hmem hm
  exact
    { created := fun u hg => hold (h.created u hg)
      unfreed := fun u hg => (hf u).trans (h.unfreed u hg)
      mapped := fun u hg => (hu u).trans (h.mapped u hg)
      finished := fun u hg => by
        change _ ↔ Function.update a.tcb.state a.currentThread .finished u = .finished
        by_cases huc : u = a.currentThread
        · subst huc
          rw [Function.update_self, hlog]
          exact ⟨fun _ => rfl, fun _ => List.mem_cons_self⟩
        · rw [Function.update_of_ne huc, ← h.finished u hg]
          refine ⟨fun hm => (hmem hm).resolve_left fun he => ?_, hold⟩
          cases he
          exact huc rfl
      stack := h.stack
      gone := fun u hm hg => hold (h.gone u (hcre hm) hg)
      freed := fun u st v hm hc => h.freed u st v (hfre hm) (hcre hc)
      stackless := fun u st v hm hc => h.stackless u st v (hfre hm) fun hm => hc (hold hm)
      unmapped := fun u hm => by
        have hm : .unmapped u ∈ a.log := by simpa using hmem hm
        exact (h.unmapped u hm).imp fun v hv => hold hv
      once := fun u => by rw [hf, hu]; exact h.once u
      unborn := fun u hu' => by
        obtain ⟨h₁, h₂, h₃, h₄⟩ := h.unborn u hu'
        refine ⟨fun hm => h₁ (hcre hm), fun hm => ?_, (hf u).trans h₃, (hu u).trans h₄⟩
        rcases hmem hm with he | he
        · cases he; exact absurd (hi.lt _ hi.cur) (not_lt.mpr hu')
        · exact h₂ he }

theorem Ageless.of_state {x : Ptr} {st : TState} (hlog : ∃ es, b.log = es ++ a.log ∧ ∀ e ∈ es, e.life = false)
    (hstate : b.tcb.state = Function.update a.tcb.state x st) (hx : a.tcb.state x ≠ .finished) (hst : st ≠ .finished)
    (hglob : b.glob = a.glob) (hbrk : b.brk = a.brk) (hstack : b.tcb.stack = a.tcb.stack) : Ageless a b where
  log := hlog
  glob := hglob
  brk := hbrk
  stack := hstack
  state u _ := by
    rw [hstate]
    by_cases hux : u = x
    · subst hux
      rw [Function.update_self]
      exact ⟨fun h => absurd h hst, fun h => absurd h hx⟩
    · rw [Function.update_of_ne hux]

theorem Prim.accounted (hi : Inv a) (h : Accounted a) (hp : Prim a b) : Accounted b := by
  have one : ∀ {l : List Event} (e : Event), e.life = false → ∃ es, e :: l = es ++ l ∧ ∀ e ∈ es, e.life = false :=
    fun e he => ⟨[e], rfl, by simpa using he⟩
  have nolog : ∀ {l : List Event}, ∃ es, l = es ++ l ∧ ∀ e ∈ es, e.life = false := ⟨[], rfl, by simp⟩
  have two : ∀ {l : List Event} (e e' : Event), e.life = false → e'.life = false →
      ∃ es, e :: e' :: l = es ++ l ∧ ∀ e ∈ es, e.life = false := fun e e' he he' => ⟨[e, e'], rfl, by simp [he, he']⟩
  cases hp with
  | quiet hq => cases hq <;> exact h.ageless { log := nolog, state := fun _ _ => Iff.rfl }
  | tick => exact h.ageless { log := one _ rfl, state := fun _ _ => Iff.rfl }
  | leave | sleepRet | ioRet | createRet | traceOn | avail | errno => exact h.ageless { log := one _ rfl, state := fun _ _ => Iff.rfl }
  | move => exact h.ageless { log := nolog, state := fun _ _ => Iff.rfl }
  | reap ht hf hc => exact h.reap hi ht hf hc
  | ioWake hr => exact h.ageless (.of_state (two _ _ rfl rfl) rfl (by rw [(hi.reg hr).2.1]; simp) (by simp) rfl rfl rfl)
  | sleepWake ht =>
    exact h.ageless (.of_state (one _ rfl) rfl (by rw [hi.state ht]; simp [QId.state]) (by simp) rfl rfl rfl)
  | preempt hr => exact h.ageless (.of_state (one _ rfl) rfl (by rw [hr]; simp) (by simp) rfl rfl rfl)
  | switch hp =>
    have ht := mem_of_pick (fun _ hu => hi.state hu) hp
    exact h.ageless (.of_state (one _ rfl) rfl (by rw [hi.state ht]; simp [QId.state]) (by simp) rfl rfl rfl)
  | create => exact h.create hi _
  | createFail => exact h.createFail hi _
  | finish => exact h.finish hi
  | mutexInit => exact h.ageless { log := nolog, state := fun _ _ => Iff.rfl }
  | semInit => exact h.ageless { log := one _ rfl, state := fun _ _ => Iff.rfl }
  | chanInit => exact h.ageless { log := ⟨[_, _, _], rfl, by simp [Event.life]⟩, state := fun _ _ => Iff.rfl }
  | lock | wait => exact h.ageless { log := two _ _ rfl rfl, state := fun _ _ => Iff.rfl }
  | unlock | post => exact h.ageless { log := one _ rfl, state := fun _ _ => Iff.rfl }
  | block hr =>
    have hne : a.tcb.state a.currentThread ≠ .finished := by rw [hr]; simp
    exact h.ageless (.of_state (one _ rfl) rfl hne (by simp) rfl rfl rfl)
  | unlockHandoff _ _ hq | postHandoff _ _ hq =>
    have ht := hi.state (hq ▸ List.mem_cons_self)
    exact h.ageless (.of_state (two _ _ rfl rfl) rfl (by rw [ht]; simp [QId.state]) (by simp) rfl rfl rfl)
  | sleep hr | ioBlock hr => exact h.ageless (.of_state (one _ rfl) rfl (by rw [hr]; simp) (by simp) rfl rfl rfl)
  | chan hr hid hc => cases hc <;> exact h.ageless { log := one _ rfl, state := fun _ _ => Iff.rfl }

theorem accounted_init (clock : Nat → Nat) (epollFd : Fd) (avail : Fd × IoDir → Bool) :
    Accounted (initAbs clock epollFd avail) where
  created t ht := by cases List.mem_singleton.mp ht; exact List.mem_cons_self
  unfreed _ _ := rfl
  mapped _ _ := rfl
  finished t ht := by
    cases List.mem_singleton.mp ht
    refine ⟨fun hm => ?_, fun hs => ?_⟩
    · cases List.mem_singleton.mp hm
    · cases hs
  stack _ _ _ hr := by cases hr
  gone t hm ht := by cases List.mem_singleton.mp hm; exact absurd List.mem_cons_self ht
  freed t st u hm := by cases List.mem_singleton.mp hm
  stackless t st u hm := by cases List.mem_singleton.mp hm
  unmapped t hm := by cases List.mem_singleton.mp hm
  once _ := ⟨Nat.zero_le _, Nat.zero_le _⟩
  unborn t ht := by
    refine ⟨fun hm => ?_, fun hm => ?_, rfl, rfl⟩
    · cases List.mem_singleton.mp hm; exact absurd ht (Nat.not_le_of_lt Nat.zero_lt_one)
    · cases List.mem_singleton.mp hm

variable {s : Sys}

def Collected (s : Sys) : Prop :=
  s.exited = false ∧ (∃ f, s.run.frames.head? = some f ∧ f.sweeps = true) ∨
    s.exited = true ∧ s.run.frames.head? = some .user

theorem Bd.swept {a : Abs} (h : Bd a)
    (hc : a.exited = false ∧ (∃ f, a.run.frames.head? = some f ∧ f.sweeps = true) ∨
      a.exited = true ∧ a.run.frames.head? = some .user) : Swept a := by
  rcases hc with ⟨he, f, hf, hs⟩ | ⟨he, hf⟩
  · have hm := h.alive he
    rw [hf] at hm
    cases f <;> first | exact hm.2.1 | cases hs
  · exact h.exited he hf

/-- What no longer exists: `t` is no node of a list, not the current thread and in no registration. -/
structure Unreferenced (s : Sys) (q : QId → List Ptr) (g : List Ptr) (t : Ptr) : Prop where
  current : s.currentThread ≠ t
  list : t ∉ g
  queue : ∀ i, t ∉ q i
  interest : ∀ fd dir, s.interest fd ≠ some (t, dir)

/-- A created thread is freed once, when it has finished and its stack is not the executing one, and a TCB that
got no stack when it is READY; after that nothing refers to it. Threads that can be dispatched keep their stacks,
and a collection pass leaves the threads that have not finished and the current one. -/
theorem reclaim_safe (h : Sys.Reachable s) :
    (∀ t st u, .freed t st u ∈ s.log → .created t ∈ s.log → st = .finished ∧ t ≠ u) ∧
      (∀ t st u, .freed t st u ∈ s.log → .created t ∉ s.log → st = .ready) ∧
      (∀ t, .unmapped t ∈ s.log → ∃ u, .freed t .finished u ∈ s.log) ∧
      (∀ t, freedCount t s.log ≤ 1 ∧ unmappedCount t s.log ≤ 1) ∧
      ∃ q g, Chain s.lk.globalNext s.lk.globalThreadList g ∧ (∀ i, Chain s.lk.next (s.lk.head i) (q i)) ∧
        (∀ t st u, .freed t st u ∈ s.log → Unreferenced s q g t) ∧
        (∀ t ∈ q .ready, .unmapped (s.tcb.context t).onStack ∉ s.log) ∧ .unmapped s.run.onStack ∉ s.log ∧
        (Collected s → ∀ t, t ∈ g ↔ .created t ∈ s.log ∧ (.finished t ∉ s.log ∨ t = s.currentThread)) := by
  obtain ⟨q, g, hs, hb, ha⟩ := reachable_inv accounted_init (fun a b hi h hp => hp.accounted hi h) h
  have hi := hs.inv
  refine ⟨ha.freed, ha.stackless, ha.unmapped, ha.once, q, g, hs.rep.glob.fwd, hs.rep.chain, fun t st u hf => ?_, fun t ht => ?_, ?_,
    fun hc t => ⟨fun ht => ⟨ha.created t ht, ?_⟩, fun ⟨hcr, hfin⟩ => ?_⟩⟩
  · have hg : t ∉ g := fun hg => freedCount_eq_zero.mp (ha.unfreed t hg) st u hf
    exact ⟨fun he => hg (he ▸ hi.cur), hg, fun i hm => hg (hi.live hm), fun fd dir hr => hg (hi.reg hr).1⟩
  · have hg : t ∈ g := hi.live ht
    have hon : (s.tcb.context t).onStack = t := hi.own.saved t hg
    rw [hon]; exact unmappedCount_eq_zero.mp (ha.mapped t hg)
  · have hon : s.run.onStack = s.currentThread := hi.own.run
    rw [hon]; exact unmappedCount_eq_zero.mp (ha.mapped _ hi.cur)
  · by_cases hfin : .finished t ∈ s.log
    · exact .inr (hb.swept hc t ht ((ha.finished t ht).mp hfin))
    · exact .inl hfin
  · by_contra hg
    rcases hfin with hfin | rfl
    · exact hfin (ha.gone t hcr hg)
    · exact hg hi.cur

/-- A finished thread is collected by the next call of `uthread_yield`. -/
theorem reclaim_safe_after_exit :
    let s := Sys.after (fun _ => 0) [.call (.create 0) {}, .resume {}, .resume {}, .call .yield {}, .resume {}, .resume {}, .resume {},
      .call .exit {}, .resume {}, .resume {}, .call .yield {}, .resume {}]
    freedCount 1 s.log = 1 ∧ unmappedCount 1 s.log = 1 ∧ freedCount 1 s.log ≤ 1 :=
  ⟨by decide +kernel, by decide +kernel, ((reclaim_safe (Sys.reachable_after (by decide +kernel))).2.2.2.1 1).1⟩

/-- A call of `uthread_create` that gets no stack frees a TCB that is READY. -/
theorem failed_create_frees_ready :
    ∃ s : Sys, Sys.Reachable s ∧ ∃ t st u, .freed t st u ∈ s.log ∧ st ≠ .finished :=
  ⟨Sys.after (fun _ => 0) [.call (.create 0) {}, .resume { mmapOk := false }], Sys.reachable_after (by decide +kernel),
    1, .ready, 0, by decide +kernel, by decide⟩

end Uthread
