import Uthread.Lib.Code
import Uthread.Lib.Runs

/-!
# Sections under spinlocks

Processes whose steps contain a section of code, most of them under a lock. In
one machine a step runs its section at once; in the other it spins on the lock,
performs one access after the other and releases the lock, while other processes
go on. If sections keep to cells that belong to their lock or to their process,
the second machine reaches nothing that the first does not.
-/

namespace Locked

/-- Steps of processes `P` on states `G`. -/
structure Machine (G A P L : Type) {X : Type} (V : X → Type) (ρ : Type) where
  proc : A → P
  mem : G → Mem V
  put : Mem V → G → G
  -- the section of a step, with its lock
  sec : G → A → Option (Option L × Code V ρ)
  -- a step without a section
  plain : G → A → Option G
  -- what a step does behind its section
  fin : A → ρ → G → Option G

inductive Stage (A L : Type) {X : Type} (V : X → Type) (ρ : Type)
  | out
  | spin (a : A) (l : L) (c : Code V ρ)
  | inside (a : A) (l : Option L) (c : Code V ρ)

structure Fine (G A P L : Type) {X : Type} (V : X → Type) (ρ : Type) where
  g : G
  word : L → Bool
  stage : P → Stage A L V ρ

/-- `q` holds the lock that `p` spins for. -/
def Fine.Blocks {G A P L X : Type} {V : X → Type} {ρ : Type} (f : Fine G A P L V ρ) (q p : P) : Prop :=
  ∃ a l c b d, f.stage p = .spin a l c ∧ f.stage q = .inside b (some l) d

inductive Move (A P : Type)
  | enter (a : A)
  | go (p : P)

inductive Owner (P L : Type)
  | lock (l : L)
  | proc (p : P)

def Owner.within {P L : Type} (p : P) (l : Option L) : Owner P L → Prop
  | .lock l' => l = some l'
  | .proc q => p = q

variable {G A P L X ρ : Type} {V : X → Type} [DecidableEq X]

namespace Machine

def start (g : G) : Fine G A P L V ρ := ⟨g, fun _ => false, fun _ => .out⟩

variable (M : Machine G A P L V ρ)

/-- A step that runs its section at once. -/
def atomic (g : G) (a : A) : Option G :=
  match M.sec g a with
  | none => M.plain g a
  | some (_, c) => M.fin a (c.run (M.mem g)).1 (M.put (c.run (M.mem g)).2 g)

section
variable [DecidableEq P] [DecidableEq L]

def acquire : Option L → (L → Bool) → L → Bool
  | none, w => w
  | some l, w => Function.update w l true

def release : Option L → (L → Bool) → L → Bool
  | none, w => w
  | some l, w => Function.update w l false

/-- A step up to its section, or without one. -/
def enter (a : A) (f : Fine G A P L V ρ) : Option (Fine G A P L V ρ) :=
  match M.sec f.g a with
  | none => (M.plain f.g a).map fun g => { f with g := g }
  | some (none, c) => some { f with stage := Function.update f.stage (M.proc a) (.inside a none c) }
  | some (some l, c) => some { f with stage := Function.update f.stage (M.proc a) (.spin a l c) }

/-- One exchange on the lock, one access, or the release and what is behind it. -/
def go (p : P) (f : Fine G A P L V ρ) : Option (Fine G A P L V ρ) :=
  match f.stage p with
  | .out => none
  | .spin a l c =>
    if f.word l then some f
    else some { f with word := acquire (some l) f.word, stage := Function.update f.stage p (.inside a (some l) c) }
  | .inside a l (.ret r) => (M.fin a r f.g).map fun g => ⟨g, release l f.word, Function.update f.stage p .out⟩
  | .inside a l c => (c.next (M.mem f.g)).map fun r =>
    { f with g := M.put r.2 f.g, stage := Function.update f.stage p (.inside a l r.1) }

def step (f : Fine G A P L V ρ) : Move A P → Option (Fine G A P L V ρ)
  | .enter a =>
    match f.stage (M.proc a) with
    | .out => M.enter a f
    | _ => none
  | .go p => M.go p f

abbrev FineRun (init : G → Prop) (ok : A → Prop) : Fine G A P L V ρ → Prop :=
  Trans.Reach (fun f => ∃ g, init g ∧ f = start g) M.step fun _ m => ∀ a, m = .enter a → ok a

end

end Machine

/-- What a section may access. -/
def area (owns : G → Owner P L → X → Prop) (g : G) (p : P) (l : Option L) (x : X) : Prop :=
  ∃ o, Owner.within p l o ∧ owns g o x

/-- Sections keep to cells of their lock and process, and what others own is not theirs to give or take. -/
structure Disciplined (M : Machine G A P L V ρ) (ok : A → Prop) (I : G → Prop) (owns : G → Owner P L → X → Prop) : Prop where
  mem_put : ∀ μ g, M.mem (M.put μ g) = μ
  put_put : ∀ μ ν g, M.put μ (M.put ν g) = M.put μ g
  put_mem : ∀ g, M.put (M.mem g) g = g
  sec_put : ∀ μ g a, M.sec (M.put μ g) a = M.sec g a
  fin_put : ∀ μ g a r, M.fin a r (M.put μ g) = (M.fin a r g).map (M.put μ)
  plain_put : ∀ {g a}, I g → ok a → M.sec g a = none → ∀ μ, M.plain (M.put μ g) a = (M.plain g a).map (M.put μ)
  disj : ∀ {g o o' x}, I g → owns g o x → owns g o' x → o = o'
  keeps : ∀ {g a l c}, I g → ok a → M.sec g a = some (l, c) → c.Keeps (area owns g (M.proc a) l) (M.mem g)
  inv : ∀ {g a g'}, I g → ok a → M.atomic g a = some g' → I g'
  stable : ∀ {g a g' b s}, I g → ok a → M.atomic g a = some g' → M.proc b ≠ M.proc a → M.sec g b = some s → M.sec g' b = some s
  steady : ∀ {g a g' o x}, I g → ok a → M.atomic g a = some g' →
    ¬ Owner.within (M.proc a) ((M.sec g a).bind Prod.fst) o → (owns g' o x ↔ owns g o x)
  fins : ∀ {g a l c}, I g → ok a → M.sec g a = some (l, c) → M.atomic g a ≠ none

/-- The section of `p` has the code `c` left, which leads where the whole section leads in `g`. -/
structure Rest (M : Machine G A P L V ρ) (ok : A → Prop) (owns : G → Owner P L → X → Prop) (μ : Mem V) (g : G) (p : P)
    (a : A) (l : Option L) (c : Code V ρ) : Prop where
  proc : M.proc a = p
  allowed : ok a
  leads : ∃ c₀, M.sec g a = some (l, c₀) ∧ (c.run μ).1 = (c₀.run (M.mem g)).1 ∧
    Code.Agree (area owns g p l) (c.run μ).2 (c₀.run (M.mem g)).2
  keeps : c.Keeps (area owns g p l) μ

/-- The interleaved state `f` is `g` but for the cells of the sections in progress. -/
structure Mirrors (M : Machine G A P L V ρ) (ok : A → Prop) (I : G → Prop) (owns : G → Owner P L → X → Prop)
    (f : Fine G A P L V ρ) (g : G) : Prop where
  inv : I g
  rest : f.g = M.put (M.mem f.g) g
  spin : ∀ {p a l c}, f.stage p = .spin a l c → M.proc a = p ∧ ok a ∧ M.sec g a = some (some l, c)
  inside : ∀ {p a l c}, f.stage p = .inside a l c → Rest M ok owns (M.mem f.g) g p a l c
  outside : ∀ {x}, (∀ p a l c, f.stage p = .inside a l c → ¬ area owns g p l x) → M.mem f.g x = M.mem g x
  excl : ∀ {p q a b l c d}, f.stage p = .inside a (some l) c → f.stage q = .inside b (some l) d → p = q
  word : ∀ l, f.word l = true ↔ ∃ p a c, f.stage p = .inside a (some l) c

section
variable {M : Machine G A P L V ρ} {ok : A → Prop} {I : G → Prop} {owns : G → Owner P L → X → Prop}
  {f f' : Fine G A P L V ρ} {g g' : G} {p q : P} {a b : A} {l l' : Option L} {c : Code V ρ} {μ ν : Mem V} {x : X} {r : ρ}

theorem Mirrors.start (hd : Disciplined M ok I owns) (hg : I g) : Mirrors M ok I owns (Machine.start g) g := by
  constructor
  · exact hg
  · exact (hd.put_mem g).symm
  · intro p a l c h
    cases h
  · intro p a l c h
    cases h
  · exact fun _ => rfl
  · intro p q a b l c d h
    cases h
  · intro l
    constructor
    · intro h
      cases h
    · intro hx
      obtain ⟨p, a, c, h⟩ := hx
      cases h

namespace Disciplined

theorem apart (hd : Disciplined M ok I owns) (hg : I g) (hpq : p ≠ q) (hl : ∀ k, l = some k → l' ≠ some k)
    (hx : area owns g p l x) : ¬ area owns g q l' x := by
  intro hy
  obtain ⟨o, ho, hx⟩ := hx
  obtain ⟨o', ho', hy⟩ := hy
  have he := hd.disj hg hx hy
  subst he
  cases o with
  | lock k => exact hl k ho ho'
  | proc s =>
    have h₁ : p = s := ho
    have h₂ : q = s := ho'
    exact hpq (h₁.trans h₂.symm)

theorem area_step (hd : Disciplined M ok I owns) (hg : I g) (ha : ok a) (hs : M.atomic g a = some g') (hq : q ≠ M.proc a)
    (hl : ∀ k, (M.sec g a).bind Prod.fst = some k → l ≠ some k) : area owns g' q l = area owns g q l := by
  have hw : ∀ o, Owner.within q l o → ¬ Owner.within (M.proc a) ((M.sec g a).bind Prod.fst) o := by
    intro o ho ho'
    cases o with
    | lock k => exact hl k ho' ho
    | proc s =>
      have h₁ : q = s := ho
      have h₂ : M.proc a = s := ho'
      exact hq (h₁.trans h₂.symm)
  funext x
  apply propext
  constructor
  · intro h
    obtain ⟨o, ho, hx⟩ := h
    exact ⟨o, ho, (hd.steady hg ha hs (hw o ho)).mp hx⟩
  · intro h
    obtain ⟨o, ho, hx⟩ := h
    exact ⟨o, ho, (hd.steady hg ha hs (hw o ho)).mpr hx⟩

theorem plain_mem (hd : Disciplined M ok I owns) (hg : I g) (ha : ok a) (hn : M.sec g a = none) (hs : M.plain g a = some g') :
    M.mem g' = M.mem g := by
  have h := hd.plain_put hg ha hn (M.mem g)
  rw [hd.put_mem, hs] at h
  have he : g' = M.put (M.mem g) g' := Option.some.inj h
  rw [he, hd.mem_put]

end Disciplined

theorem Rest.other (h : Rest M ok owns μ g p a l c) (hm : Code.Agree (area owns g p l) μ ν) : Rest M ok owns ν g p a l c := by
  obtain ⟨c₀, h₀, h₁, h₂⟩ := h.leads
  obtain ⟨k₁, k₂, k₃⟩ := h.keeps.agree hm
  refine ⟨h.proc, h.allowed, ⟨c₀, h₀, k₂.trans h₁, ?_⟩, k₁⟩
  intro x hx
  rw [← k₃ x hx]
  exact h₂ x hx

theorem Rest.step (hd : Disciplined M ok I owns) (hg : I g) (h : Rest M ok owns μ g p b l c) (ha : ok a)
    (hs : M.atomic g a = some g') (hp : p ≠ M.proc a) (hl : ∀ k, (M.sec g a).bind Prod.fst = some k → l ≠ some k)
    (hm : Code.Agree (area owns g p l) (M.mem g) (M.mem g')) : Rest M ok owns μ g' p b l c := by
  obtain ⟨c₀, h₀, h₁, h₂⟩ := h.leads
  have har := hd.area_step hg ha hs hp hl
  have hk := hd.keeps hg h.allowed h₀
  rw [h.proc] at hk
  obtain ⟨-, k₂, k₃⟩ := hk.agree hm
  refine ⟨h.proc, h.allowed, ⟨c₀, ?_, h₁.trans k₂.symm, ?_⟩, ?_⟩
  · apply hd.stable hg ha hs _ h₀
    rw [h.proc]
    exact hp
  · rw [har]
    intro x hx
    rw [h₂ x hx]
    exact k₃ x hx
  · rw [har]
    exact h.keeps

/-! ## One move -/

namespace Mirrors

theorem plain (hd : Disciplined M ok I owns) (h : Mirrors M ok I owns f g) {g₁ : G} (ha : ok a)
    (hout : f.stage (M.proc a) = .out) (hn : M.sec f.g a = none) (hs : M.plain f.g a = some g₁) :
    ∃ g', M.atomic g a = some g' ∧ Mirrors M ok I owns { f with g := g₁ } g' := by
  have hn' : M.sec g a = none := by rwa [h.rest, hd.sec_put] at hn
  rw [h.rest, hd.plain_put h.inv ha hn'] at hs
  obtain ⟨g', hg', rfl⟩ := Option.map_eq_some_iff.mp hs
  have hat : M.atomic g a = some g' := by
    unfold Machine.atomic
    rw [hn']
    exact hg'
  have hmem : M.mem g' = M.mem g := hd.plain_mem h.inv ha hn' hg'
  have hlock : ∀ (l : Option L) k, (M.sec g a).bind Prod.fst = some k → l ≠ some k := by
    intro l k hk
    rw [hn'] at hk
    cases hk
  have hne : ∀ {q b l c}, f.stage q = .inside b l c → q ≠ M.proc a := by
    intro q b l c hq e
    rw [e, hout] at hq
    cases hq
  refine ⟨g', hat, ?_⟩
  constructor
  · exact hd.inv h.inv ha hat
  · simp only [hd.mem_put]
  · intro q b k d hq
    obtain ⟨h₁, h₂, h₃⟩ := h.spin hq
    refine ⟨h₁, h₂, hd.stable h.inv ha hat ?_ h₃⟩
    intro e
    rw [← h₁, e, hout] at hq
    cases hq
  · intro q b l c hq
    simp only [hd.mem_put]
    apply (h.inside hq).step hd h.inv ha hat (hne hq) (hlock l)
    intro x _
    rw [hmem]
  · intro x hx
    simp only [hd.mem_put, hmem]
    apply h.outside
    intro q b l c hq hxq
    apply hx q b l c hq
    rw [hd.area_step h.inv ha hat (hne hq) (hlock l)]
    exact hxq
  · exact h.excl
  · exact h.word

variable [DecidableEq P]

theorem spinning (h : Mirrors M ok I owns f g) {k : L} (hp : M.proc a = p) (ha : ok a) (hs : M.sec g a = some (some k, c))
    (hout : f.stage p = .out) : Mirrors M ok I owns { f with stage := Function.update f.stage p (.spin a k c) } g := by
  have hin : ∀ q b j d, Function.update f.stage p (.spin a k c) q = .inside b j d ↔ f.stage q = .inside b j d := by
    intro q b j d
    by_cases hqp : q = p
    · subst hqp
      simp [hout]
    · rw [Function.update_of_ne hqp]
  constructor
  · exact h.inv
  · exact h.rest
  · intro q b j d hq
    by_cases hqp : q = p
    · subst hqp
      simp only [Function.update_self] at hq
      cases hq
      exact ⟨hp, ha, hs⟩
    · simp only [Function.update_of_ne hqp] at hq
      exact h.spin hq
  · intro q b j d hq
    exact h.inside ((hin q b j d).mp hq)
  · intro x hx
    apply h.outside
    intro q b j d hq
    exact hx q b j d ((hin q b j d).mpr hq)
  · intro q r b b' j d d' hq hr
    exact h.excl ((hin q b _ d).mp hq) ((hin r b' _ d').mp hr)
  · intro j
    simp only [hin]
    exact h.word j

theorem access (hd : Disciplined M ok I owns) (h : Mirrors M ok I owns f g) {c' : Code V ρ} {μ' : Mem V}
    (hp : f.stage p = .inside a l c) (hn : c.next (M.mem f.g) = some (c', μ')) :
    Mirrors M ok I owns { f with g := M.put μ' f.g, stage := Function.update f.stage p (.inside a l c') } g := by
  have hr := h.inside hp
  have hmem : M.mem (M.put μ' f.g) = μ' := hd.mem_put _ _
  have hframe : ∀ {x}, ¬ area owns g p l x → μ' x = M.mem f.g x := fun hx => hr.keeps.next_frame hn hx
  have hin : ∀ {q b k d}, Function.update f.stage p (.inside a l c') q = .inside b k d →
      (q = p ∧ b = a ∧ k = l ∧ d = c') ∨ (q ≠ p ∧ f.stage q = .inside b k d) := by
    intro q b k d hq
    by_cases hqp : q = p
    · subst hqp
      rw [Function.update_self] at hq
      cases hq
      exact .inl ⟨rfl, rfl, rfl, rfl⟩
    · rw [Function.update_of_ne hqp] at hq
      exact .inr ⟨hqp, hq⟩
  constructor
  · exact h.inv
  · simp only [hmem]
    rw [h.rest, hd.put_put]
  · intro q b k d hq
    by_cases hqp : q = p
    · subst hqp
      simp at hq
    · simp only [Function.update_of_ne hqp] at hq
      exact h.spin hq
  · intro q b k d hq
    simp only [hmem]
    rcases hin hq with ⟨rfl, rfl, rfl, rfl⟩ | ⟨hqp, hq⟩
    · obtain ⟨c₀, h₀, h₁, h₂⟩ := hr.leads
      refine ⟨hr.proc, hr.allowed, ⟨c₀, h₀, ?_, ?_⟩, hr.keeps.next hn⟩
      · rw [Code.run_next hn]
        exact h₁
      · rw [Code.run_next hn]
        exact h₂
    · apply (h.inside hq).other
      intro x hx
      symm
      apply hframe
      apply hd.apart h.inv hqp _ hx
      intro j hj hl
      rw [hj] at hq
      rw [hl] at hp
      exact hqp (h.excl hq hp)
  · intro x hx
    simp only [hmem]
    rw [hframe]
    · apply h.outside
      intro q b k d hq
      by_cases hqp : q = p
      · subst hqp
        rw [hp] at hq
        cases hq
        exact hx q a l c' (by simp)
      · exact hx q b k d (by simpa only [Function.update_of_ne hqp] using hq)
    · exact hx p a l c' (by simp)
  · intro q r b b' j d d' hq hr'
    rcases hin hq with ⟨hqp, -, hl, -⟩ | ⟨-, hq⟩ <;> rcases hin hr' with ⟨hrp, -, hl', -⟩ | ⟨-, hr'⟩
    · exact hqp.trans hrp.symm
    · rw [hqp]
      rw [← hl] at hp
      exact h.excl hp hr'
    · rw [hrp]
      rw [← hl'] at hp
      exact h.excl hq hp
    · exact h.excl hq hr'
  · intro j
    rw [h.word j]
    constructor
    · intro h
      obtain ⟨q, b, d, hq⟩ := h
      by_cases hqp : q = p
      · subst hqp
        rw [hp] at hq
        cases hq
        exact ⟨q, a, c', by simp⟩
      · exact ⟨q, b, d, by simpa only [Function.update_of_ne hqp] using hq⟩
    · intro h
      obtain ⟨q, b, d, hq⟩ := h
      rcases hin hq with ⟨rfl, rfl, hl, -⟩ | ⟨-, hq⟩
      · rw [← hl] at hp
        exact ⟨q, b, c, hp⟩
      · exact ⟨q, b, d, hq⟩

variable [DecidableEq L]

theorem opened (hd : Disciplined M ok I owns) (h : Mirrors M ok I owns f g) (hp : M.proc a = p) (ha : ok a)
    (hs : M.sec g a = some (l, c)) (hout : ∀ b k d, f.stage p ≠ .inside b k d) (hfree : ∀ k, l = some k → f.word k = false) :
    Mirrors M ok I owns { f with word := Machine.acquire l f.word, stage := Function.update f.stage p (.inside a l c) } g := by
  have hother : ∀ q b k d, f.stage q = .inside b k d → q ≠ p ∧ ∀ j, l = some j → k ≠ some j := by
    intro q b k d hq
    constructor
    · intro e
      subst e
      exact hout b k d hq
    · intro j hj hk
      subst hk
      have hw := (h.word j).mpr ⟨q, b, d, hq⟩
      rw [hfree j hj] at hw
      cases hw
  have hin : ∀ q b k d, Function.update f.stage p (.inside a l c) q = .inside b k d →
      (q = p ∧ b = a ∧ k = l ∧ d = c) ∨ (q ≠ p ∧ f.stage q = .inside b k d) := by
    intro q b k d hq
    by_cases hqp : q = p
    · subst hqp
      rw [Function.update_self] at hq
      cases hq
      exact .inl ⟨rfl, rfl, rfl, rfl⟩
    · rw [Function.update_of_ne hqp] at hq
      exact .inr ⟨hqp, hq⟩
  -- nobody else is on the cells that `p` may now access
  have hmem : ∀ x, area owns g p l x → M.mem f.g x = M.mem g x := by
    intro x hx
    apply h.outside
    intro q b k d hq
    obtain ⟨hqp, hk⟩ := hother q b k d hq
    exact hd.apart h.inv hqp.symm hk hx
  constructor
  · exact h.inv
  · exact h.rest
  · intro q b k d hq
    by_cases hqp : q = p
    · subst hqp
      simp at hq
    · simp only [Function.update_of_ne hqp] at hq
      exact h.spin hq
  · intro q b k d hq
    rcases hin q b k d hq with ⟨rfl, rfl, rfl, rfl⟩ | ⟨-, hq⟩
    · have hk := hd.keeps h.inv ha hs
      rw [hp] at hk
      obtain ⟨k₁, k₂, k₃⟩ := hk.agree (ν := M.mem f.g) fun x hx => (hmem x hx).symm
      exact ⟨hp, ha, ⟨d, hs, k₂, fun x hx => (k₃ x hx).symm⟩, k₁⟩
    · exact h.inside hq
  · intro x hx
    apply h.outside
    intro q b k d hq
    apply hx q b k d
    simp only [Function.update_of_ne (hother q b k d hq).1]
    exact hq
  · intro q r b b' k d d' hq hr
    rcases hin q b (some k) d hq with ⟨hqp, -, hl, -⟩ | ⟨hqp, hq⟩ <;>
      rcases hin r b' (some k) d' hr with ⟨hrp, -, hl', -⟩ | ⟨hrp, hr⟩
    · exact hqp.trans hrp.symm
    · exact absurd rfl ((hother r b' _ d' hr).2 k hl.symm)
    · exact absurd rfl ((hother q b _ d hq).2 k hl'.symm)
    · exact h.excl hq hr
  · intro k
    by_cases hk : l = some k
    · subst hk
      simp only [Machine.acquire, Function.update_self, true_iff]
      exact ⟨p, a, c, by simp⟩
    · have hw : Machine.acquire l f.word k = f.word k := by
        cases l with
        | none => rfl
        | some j =>
          have hkj : k ≠ j := by
            intro e
            subst e
            exact hk rfl
          simp [Machine.acquire, hkj]
      simp only [hw]
      rw [h.word k]
      constructor
      · intro h
        obtain ⟨q, b, d, hq⟩ := h
        refine ⟨q, b, d, ?_⟩
        simp only [Function.update_of_ne (hother q b _ d hq).1]
        exact hq
      · intro h
        obtain ⟨q, b, d, hq⟩ := h
        rcases hin q b _ d hq with ⟨-, -, hl, -⟩ | ⟨-, hq⟩
        · exact absurd hl.symm hk
        · exact ⟨q, b, d, hq⟩

theorem closed (hd : Disciplined M ok I owns) (h : Mirrors M ok I owns f g) {g₁ : G} (hp : f.stage p = .inside a l (.ret r))
    (hs : M.fin a r f.g = some g₁) :
    ∃ g', M.atomic g a = some g' ∧
      Mirrors M ok I owns ⟨g₁, Machine.release l f.word, Function.update f.stage p .out⟩ g' := by
  have hr := h.inside hp
  have hpa := hr.proc
  have ha := hr.allowed
  obtain ⟨c₀, h₀, h₁, h₂⟩ := hr.leads
  have hk := hd.keeps h.inv ha h₀
  rw [hpa] at hk
  have hlock : (M.sec g a).bind Prod.fst = l := by rw [h₀]; rfl
  -- the value and the cells of the whole section
  have hret : (c₀.run (M.mem g)).1 = r := h₁.symm
  have hcells : ∀ x, area owns g p l x → M.mem f.g x = (c₀.run (M.mem g)).2 x := h₂
  rw [h.rest, hd.fin_put] at hs
  obtain ⟨g₂, hg₂, rfl⟩ := Option.map_eq_some_iff.mp hs
  have hat : M.atomic g a = some (M.put (c₀.run (M.mem g)).2 g₂) := by
    unfold Machine.atomic
    rw [h₀]
    dsimp only
    rw [hret, hd.fin_put, hg₂]
    rfl
  have hmem : M.mem (M.put (c₀.run (M.mem g)).2 g₂) = (c₀.run (M.mem g)).2 := hd.mem_put _ _
  have hin : ∀ {q b k d}, Function.update f.stage p .out q = .inside b k d → q ≠ p ∧ f.stage q = .inside b k d := by
    intro q b k d hq
    by_cases hqp : q = p
    · subst hqp
      simp at hq
    · rw [Function.update_of_ne hqp] at hq
      exact ⟨hqp, hq⟩
  have hfree : ∀ {q b k d}, q ≠ p → f.stage q = .inside b k d → ∀ j, l = some j → k ≠ some j := by
    intro q b k d hqp hq j hj hkj
    rw [hkj] at hq
    rw [hj] at hp
    exact hqp (h.excl hq hp)
  have har : ∀ {q b k d}, q ≠ p → f.stage q = .inside b k d →
      area owns (M.put (c₀.run (M.mem g)).2 g₂) q k = area owns g q k := by
    intro q b k d hqp hq
    apply hd.area_step h.inv ha hat
    · rw [hpa]
      exact hqp
    · rw [hlock]
      exact hfree hqp hq
  refine ⟨_, hat, ?_⟩
  constructor
  · exact hd.inv h.inv ha hat
  · simp only [hd.mem_put, hd.put_put]
  · intro q b k d hq
    by_cases hqp : q = p
    · subst hqp
      simp at hq
    · simp only [Function.update_of_ne hqp] at hq
      obtain ⟨h₁, h₂, h₃⟩ := h.spin hq
      refine ⟨h₁, h₂, hd.stable h.inv ha hat ?_ h₃⟩
      rw [h₁, hpa]
      exact hqp
  · intro q b k d hq
    obtain ⟨hqp, hq⟩ := hin hq
    simp only [hd.mem_put]
    apply (h.inside hq).step hd h.inv ha hat
    · rw [hpa]
      exact hqp
    · rw [hlock]
      exact hfree hqp hq
    · intro x hx
      rw [hmem]
      symm
      apply hk.frame
      exact hd.apart h.inv hqp (fun j hj hl => hfree hqp hq j hl hj) hx
  · intro x hx
    simp only [hd.mem_put]
    by_cases hxp : area owns g p l x
    · exact hcells x hxp
    · rw [hk.frame hxp]
      apply h.outside
      intro q b k d hq
      by_cases hqp : q = p
      · subst hqp
        rw [hp] at hq
        cases hq
        exact hxp
      · rw [← har hqp hq]
        apply hx q b k d
        simpa only [Function.update_of_ne hqp] using hq
  · intro q s b b' j d d' hq hs
    exact h.excl (hin hq).2 (hin hs).2
  · intro j
    have hout : (∃ q b d, Function.update f.stage p .out q = .inside b (some j) d) ↔ l ≠ some j ∧ f.word j = true := by
      rw [h.word j]
      constructor
      · intro h
        obtain ⟨q, b, d, hq⟩ := h
        obtain ⟨hqp, hq⟩ := hin hq
        exact ⟨fun e => hfree hqp hq j e rfl, q, b, d, hq⟩
      · intro h
        obtain ⟨hl, q, b, d, hq⟩ := h
        have hqp : q ≠ p := by
          intro e
          subst e
          rw [hp] at hq
          cases hq
          exact hl rfl
        exact ⟨q, b, d, by rwa [Function.update_of_ne hqp]⟩
    simp only [hout]
    cases l with
    | none => simp [Machine.release]
    | some k =>
      by_cases hjk : j = k
      · subst hjk
        simp [Machine.release]
      · simp [Machine.release, hjk, Ne.symm hjk]

/-- A move is a step of the other machine, or part of one. -/
theorem move (hd : Disciplined M ok I owns) (h : Mirrors M ok I owns f g) {m : Move A P} (hok : ∀ a, m = .enter a → ok a)
    (hs : M.step f m = some f') :
    Mirrors M ok I owns f' g ∨ ∃ a g', ok a ∧ M.atomic g a = some g' ∧ Mirrors M ok I owns f' g' := by
  cases m with
  | enter a =>
    have ha := hok a rfl
    simp only [Machine.step] at hs
    split at hs
    · rename_i hout
      unfold Machine.enter at hs
      have hsec : M.sec f.g a = M.sec g a := by rw [h.rest, hd.sec_put]
      split at hs
      · rename_i hn
        obtain ⟨g₁, hg₁, rfl⟩ := Option.map_eq_some_iff.mp hs
        obtain ⟨g', hat, hm⟩ := h.plain hd ha hout hn hg₁
        exact .inr ⟨a, g', ha, hat, hm⟩
      · rename_i c hc
        cases hs
        rw [hsec] at hc
        left
        apply h.opened hd rfl ha hc
        · intro b k d hq
          rw [hout] at hq
          cases hq
        · intro k hk
          cases hk
      · rename_i k c hc
        cases hs
        rw [hsec] at hc
        exact .inl (h.spinning rfl ha hc hout)
    · cases hs
  | go p =>
    simp only [Machine.step, Machine.go] at hs
    split at hs
    · cases hs
    · rename_i a k c hp
      obtain ⟨hpa, ha, hc⟩ := h.spin hp
      split at hs
      · cases hs
        exact .inl h
      · rename_i hw
        cases hs
        left
        apply h.opened hd hpa ha hc
        · intro b j d hq
          rw [hp] at hq
          cases hq
        · intro j hj
          cases hj
          exact Bool.eq_false_iff.mpr hw
    · rename_i a l r hp
      obtain ⟨g₁, hg₁, rfl⟩ := Option.map_eq_some_iff.mp hs
      obtain ⟨g', hat, hm⟩ := h.closed hd hp hg₁
      exact .inr ⟨a, g', (h.inside hp).allowed, hat, hm⟩
    · rename_i a l c _ hp
      obtain ⟨⟨c', μ'⟩, hn, rfl⟩ := Option.map_eq_some_iff.mp hs
      exact .inl (h.access hd hp hn)

/-! ## Sections end -/

theorem leaves (hd : Disciplined M ok I owns) : ∀ {c : Code V ρ} {f : Fine G A P L V ρ} {g : G}, Mirrors M ok I owns f g →
    f.stage p = .inside a l c → ∃ n f' g', Trans.exec M.step f (List.replicate n (.go p)) = some f' ∧
      Mirrors M ok I owns f' g' ∧ f'.stage = Function.update f.stage p .out ∧ f'.word = Machine.release l f.word
  | .ret r, f, g, h, hp => by
    have hr := h.inside hp
    obtain ⟨c₀, h₀, h₁, -⟩ := hr.leads
    have hret : (c₀.run (M.mem g)).1 = r := h₁.symm
    have hfin : M.fin a r f.g ≠ none := by
      have hat := hd.fins h.inv hr.allowed h₀
      unfold Machine.atomic at hat
      rw [h₀] at hat
      dsimp only at hat
      rw [hret, hd.fin_put] at hat
      rw [h.rest, hd.fin_put]
      simpa using hat
    obtain ⟨g₁, hg₁⟩ := Option.ne_none_iff_exists'.mp hfin
    obtain ⟨g', -, hm⟩ := h.closed hd hp hg₁
    refine ⟨1, _, g', ?_, hm, rfl, rfl⟩
    simp [Trans.exec, Machine.step, Machine.go, hp, hg₁]
  | .load x k, f, g, h, hp => by
    have hn : (Code.load x k).next (M.mem f.g) = some (k (M.mem f.g x), M.mem f.g) := rfl
    have hm := h.access hd hp hn
    obtain ⟨n, f', g', hx, hm', hst, hw⟩ := leaves hd hm (Function.update_self ..)
    refine ⟨n + 1, f', g', ?_, hm', ?_, hw⟩
    · simp only [List.replicate_succ, Trans.exec, Machine.step, Machine.go, hp, Code.next, Option.map_some, Option.bind_some]
      exact hx
    · rw [hst]
      simp
  | .store x v k, f, g, h, hp => by
    have hn : (Code.store x v k).next (M.mem f.g) = some (k, Function.update (M.mem f.g) x v) := rfl
    have hm := h.access hd hp hn
    obtain ⟨n, f', g', hx, hm', hst, hw⟩ := leaves hd hm (Function.update_self ..)
    refine ⟨n + 1, f', g', ?_, hm', ?_, hw⟩
    · simp only [List.replicate_succ, Trans.exec, Machine.step, Machine.go, hp, Code.next, Option.map_some, Option.bind_some]
      exact hx
    · rw [hst]
      simp

theorem enters (hd : Disciplined M ok I owns) (h : Mirrors M ok I owns f g) {k : L} (hp : f.stage p = .spin a k c)
    (hw : f.word k = false) : ∃ n f' g', Trans.exec M.step f (List.replicate n (.go p)) = some f' ∧
      Mirrors M ok I owns f' g' ∧ f'.stage = Function.update f.stage p .out := by
  obtain ⟨hpa, ha, hc⟩ := h.spin hp
  have ho := h.opened hd hpa ha hc (by simp [hp]) fun j hj => by
    cases hj
    exact hw
  obtain ⟨n, f', g', hx, hm, hst, -⟩ := ho.leaves hd (Function.update_self ..)
  refine ⟨n + 1, f', g', ?_, hm, ?_⟩
  · simp only [List.replicate_succ, Trans.exec, Machine.step, Machine.go, hp, hw, Bool.false_eq_true, ite_false,
      Option.bind_some]
    exact hx
  · rw [hst]
    simp

/-- Moves of a process and of the holder of the lock it waits for complete its step. -/
theorem completes (hd : Disciplined M ok I owns) (h : Mirrors M ok I owns f g) (p : P) :
    ∃ q m n f' g', (q = p ∨ f.Blocks q p) ∧
      Trans.exec M.step f (List.replicate m (.go q) ++ List.replicate n (.go p)) = some f' ∧
      Mirrors M ok I owns f' g' ∧ f'.stage p = .out := by
  cases hp : f.stage p with
  | out => exact ⟨p, 0, 0, f, g, .inl rfl, rfl, h, hp⟩
  | inside a l c =>
    obtain ⟨n, f', g', hx, hm, hst, -⟩ := h.leaves hd hp
    exact ⟨p, 0, n, f', g', .inl rfl, hx, hm, by rw [hst]; simp⟩
  | spin a k c =>
    cases hw : f.word k with
    | false =>
      obtain ⟨n, f', g', hx, hm, hst⟩ := h.enters hd hp hw
      exact ⟨p, 0, n, f', g', .inl rfl, hx, hm, by rw [hst]; simp⟩
    | true =>
      obtain ⟨q, b, d, hq⟩ := (h.word k).mp hw
      have hqp : q ≠ p := by
        intro e
        rw [e, hp] at hq
        cases hq
      obtain ⟨m, f₁, g₁, hx₁, hm₁, hst₁, hw₁⟩ := h.leaves hd hq
      have hp₁ : f₁.stage p = .spin a k c := by
        rw [hst₁, Function.update_of_ne hqp.symm]
        exact hp
      obtain ⟨n, f₂, g₂, hx₂, hm₂, hst₂⟩ := hm₁.enters hd hp₁ (by rw [hw₁]; simp [Machine.release])
      refine ⟨q, m, n, f₂, g₂, .inr ⟨a, k, c, b, d, hp, hq⟩, ?_, hm₂, by rw [hst₂]; simp⟩
      rw [Trans.exec_append, hx₁]
      exact hx₂

end Mirrors

variable [DecidableEq P] [DecidableEq L]

/-- Interleaved sections reach only what sections run at once reach. -/
theorem Machine.FineRun.mirrors (hd : Disciplined M ok I owns) {init : G → Prop} (hi : ∀ g, init g → I g)
    (h : M.FineRun init ok f) : ∃ g, Trans.Reach init M.atomic (fun _ a => ok a) g ∧ Mirrors M ok I owns f g := by
  induction h with
  | init h =>
    obtain ⟨g, hg, rfl⟩ := h
    exact ⟨g, .init hg, Mirrors.start hd (hi g hg)⟩
  | step _ hok hs ih =>
    obtain ⟨g, hg, hm⟩ := ih
    rcases hm.move hd hok hs with hm' | ⟨a, g', ha, hat, hm'⟩
    · exact ⟨g, hg, hm'⟩
    · exact ⟨g', .step hg ha hat, hm'⟩

end

end Locked
