import Mathlib.Algebra.Field.Rat
import Mathlib.Algebra.Group.Nat.Defs
import Mathlib.Data.List.Basic
import Mathlib.Tactic.IntervalCases
import Mathlib.Tactic.Ring

/-!
# JSON

A reader of JSON texts and rules for what it makes of a text that is put
together from the texts of its parts. Numbers are exact decimals.
-/

namespace Json

inductive Value
  | null
  | bool (b : Bool)
  | num (q : ℚ)
  | str (s : List Char)
  | arr (vs : List Value)
  | obj (ms : List (List Char × Value))

/-! ## The reader -/

def isWs (c : Char) : Bool := c = ' ' || c = '\n' || c = '\t' || c = '\r'

def skipWs (cs : List Char) : List Char := cs.dropWhile isWs

def expect (c : Char) (cs : List Char) : Option (List Char) :=
  if (skipWs cs).head? = some c then some (skipWs cs).tail else none

def keyword : List Char → List Char → Option (List Char)
  | [], r => some r
  | k :: ks, c :: r => if c = k then keyword ks r else none
  | _ :: _, [] => none

/-! ### Numbers -/

def digits (cs : List Char) : Option (List Char × List Char) :=
  if (cs.takeWhile Char.isDigit).isEmpty then none else some (cs.takeWhile Char.isDigit, cs.dropWhile Char.isDigit)

/-- No other digit follows a leading zero. -/
def intPart (cs : List Char) : Option (List Char × List Char) :=
  if cs.head? = some '0' then some (['0'], cs.tail) else digits cs

def fracPart (cs : List Char) : Option (List Char × List Char) :=
  if cs.head? = some '.' then digits cs.tail else some ([], cs)

def natOf (ds : List Char) : ℕ := Nat.ofDigitChars 10 ds 0

def expPart (cs : List Char) : Option (ℤ × List Char) :=
  if cs.head? = some 'e' ∨ cs.head? = some 'E' then
    if cs.tail.head? = some '-' then (digits cs.tail.tail).map fun p => (-(natOf p.1 : ℤ), p.2)
    else if cs.tail.head? = some '+' then (digits cs.tail.tail).map fun p => ((natOf p.1 : ℤ), p.2)
    else (digits cs.tail).map fun p => ((natOf p.1 : ℤ), p.2)
  else some (0, cs)

def unsigned (cs : List Char) : Option (ℚ × List Char) := do
  let (ip, r) ← intPart cs
  let (fp, r) ← fracPart r
  let (e, r) ← expPart r
  some ((natOf (ip ++ fp) : ℚ) * 10 ^ (e - fp.length), r)

def number (cs : List Char) : Option (ℚ × List Char) :=
  if cs.head? = some '-' then (unsigned cs.tail).map fun p => (-p.1, p.2) else unsigned cs

/-! ### Strings -/

def hexVal (c : Char) : Option ℕ :=
  if c.isDigit then some (c.toNat - '0'.toNat)
  else if 'a' ≤ c ∧ c ≤ 'f' then some (c.toNat - 'a'.toNat + 10)
  else if 'A' ≤ c ∧ c ≤ 'F' then some (c.toNat - 'A'.toNat + 10)
  else none

def hex4 (a b c d : Char) : Option Char := do
  let n := (((← hexVal a) * 16 + (← hexVal b)) * 16 + (← hexVal c)) * 16 + (← hexVal d)
  if n.isValidChar then some (Char.ofNat n) else none

def unescape (c : Char) : Option Char :=
  if c = '\x22' ∨ c = '\x5c' ∨ c = '/' then some c
  else if c = 'b' then some '\x08'
  else if c = 'f' then some '\x0c'
  else if c = 'n' then some '\n'
  else if c = 'r' then some '\r'
  else if c = 't' then some '\t'
  else none

def string : List Char → Option (List Char × List Char)
  | [] => none
  | c :: r =>
    if c = '\x22' then some ([], r)
    else if c = '\x5c' then
      match r with
      | 'u' :: h₁ :: h₂ :: h₃ :: h₄ :: r =>
        (hex4 h₁ h₂ h₃ h₄).bind fun x => (string r).map fun p => (x :: p.1, p.2)
      | e :: r => (unescape e).bind fun x => (string r).map fun p => (x :: p.1, p.2)
      | [] => none
    else if c.toNat < 32 then none
    else (string r).map fun p => (c :: p.1, p.2)

/-! ### Values -/

def member (rd : List Char → Option (Value × List Char)) (cs : List Char) : Option ((List Char × Value) × List Char) :=
  (expect '\x22' cs).bind fun r => (string r).bind fun k => (expect ':' k.2).bind fun r => (rd r).map fun p => ((k.1, p.1), p.2)

mutual

def value : ℕ → List Char → Option (Value × List Char)
  | 0, _ => none
  | n + 1, cs =>
    match skipWs cs with
    | [] => none
    | c :: r =>
      if c = '\x22' then (string r).map fun p => (.str p.1, p.2)
      else if c = '[' then
        match expect ']' r with
        | some r => some (.arr [], r)
        | none => (elements n r).map fun p => (.arr p.1, p.2)
      else if c = '\x7b' then
        match expect '\x7d' r with
        | some r => some (.obj [], r)
        | none => (members n r).map fun p => (.obj p.1, p.2)
      else if c = 'n' then (keyword ['u', 'l', 'l'] r).map fun r => (.null, r)
      else if c = 't' then (keyword ['r', 'u', 'e'] r).map fun r => (.bool true, r)
      else if c = 'f' then (keyword ['a', 'l', 's', 'e'] r).map fun r => (.bool false, r)
      else (number (c :: r)).map fun p => (.num p.1, p.2)

def elements : ℕ → List Char → Option (List Value × List Char)
  | 0, _ => none
  | n + 1, cs =>
    (value n cs).bind fun p =>
      match expect ',' p.2 with
      | some r => (elements n r).map fun q => (p.1 :: q.1, q.2)
      | none => (expect ']' p.2).map fun r => ([p.1], r)

def members : ℕ → List Char → Option (List (List Char × Value) × List Char)
  | 0, _ => none
  | n + 1, cs =>
    (member (value n) cs).bind fun p =>
      match expect ',' p.2 with
      | some r => (members n r).map fun q => (p.1 :: q.1, q.2)
      | none => (expect '\x7d' p.2).map fun r => ([p.1], r)

end

def parse (cs : List Char) : Option Value :=
  (value (cs.length + 1) cs).bind fun p => if (skipWs p.2).isEmpty then some p.1 else none

/-- A member of an object; the last one of a name counts. -/
def Value.field (k : List Char) : Value → Option Value
  | .obj ms => (ms.reverse.find? fun m => m.1 = k).map (·.2)
  | _ => none

def Value.string? : Value → Option (List Char)
  | .str s => some s
  | _ => none

def Value.number? : Value → Option ℚ
  | .num q => some q
  | _ => none

def Value.integer? (v : Value) : Option ℤ := v.number?.bind fun q => if q.den = 1 then some q.num else none

theorem Value.integer?_num (z : ℤ) : (Value.num z).integer? = some z := by
  simp [Value.integer?, Value.number?]

/-! ## What a text is read as -/

/-- What follows a value continues no number. -/
def Ends (r : List Char) : Prop := ∀ c ∈ r.head?, c.isDigit = false ∧ c ≠ '.' ∧ c ≠ 'e' ∧ c ≠ 'E'

def Reads (t : List Char) (v : Value) : Prop := ∀ n r, t.length < n → Ends r → value n (t ++ r) = some (v, r)

variable {t w r cs ds : List Char} {v : Value} {n m : ℕ} {c : Char}

theorem Ends.cons (h : c.isDigit = false ∧ c ≠ '.' ∧ c ≠ 'e' ∧ c ≠ 'E') : Ends (c :: r) := by
  intro d hd
  cases hd
  exact h

theorem skipWs_append (h : ∀ c ∈ w, isWs c) : skipWs (w ++ r) = skipWs r := by
  unfold skipWs
  rw [List.dropWhile_append_of_pos h]

theorem skipWs_cons (h : isWs c = false) : skipWs (c :: r) = c :: r := by
  simp [skipWs, h]

theorem expect_self (h : isWs c = false) : expect c (c :: r) = some r := by
  simp [expect, skipWs_cons h]

theorem expect_ne {d : Char} (hc : isWs c = false) (hd : c ≠ d) : expect d (c :: r) = none := by
  simp [expect, skipWs_cons hc, hd]

theorem expect_ws (h : ∀ c ∈ w, isWs c) : expect c (w ++ r) = expect c r := by
  simp [expect, skipWs_append h]

theorem Reads.ws (h : Reads t v) (hw : ∀ c ∈ w, isWs c) : Reads (w ++ t) v := by
  intro n r hn hr
  rw [List.length_append] at hn
  rw [← h n r (by omega) hr, List.append_assoc]
  cases n with
  | zero => rfl
  | succ n => simp only [value, skipWs_append hw]

theorem parse_reads (h : Reads t v) (hw : ∀ c ∈ w, isWs c) : parse (t ++ w) = some v := by
  have he : Ends w := by
    intro c hc
    have hc' := hw c (List.mem_of_mem_head? hc)
    simp only [isWs, Bool.or_eq_true, decide_eq_true_eq] at hc'
    rcases hc' with ((rfl | rfl) | rfl) | rfl <;> decide
  have hs : skipWs w = [] := by
    have := skipWs_append (r := []) hw
    rwa [List.append_nil] at this
  unfold parse
  rw [h _ w (by rw [List.length_append]; omega) he, Option.bind_some, hs]
  rfl

/-! ### Strings -/

def plain (c : Char) : Bool := c ≠ '\x22' && c ≠ '\x5c' && 32 ≤ c.toNat

theorem string_quote : string ('\x22' :: r) = some ([], r) := by
  rw [string.eq_def]
  simp only [if_true]

theorem string_cons (h : plain c) : string (c :: r) = (string r).map fun p => (c :: p.1, p.2) := by
  simp only [plain, Bool.and_eq_true, decide_eq_true_eq] at h
  rw [string.eq_def]
  simp only
  rw [if_neg h.1.1, if_neg h.1.2, if_neg (by omega)]

theorem string_plain {s : List Char} (h : ∀ c ∈ s, plain c) : string (s ++ '\x22' :: r) = some (s, r) := by
  induction s with
  | nil => exact string_quote
  | cons c s ih =>
    rw [List.cons_append, string_cons (h c List.mem_cons_self), ih fun d hd => h d (List.mem_cons_of_mem _ hd)]
    rfl

def quoted (s : List Char) : List Char := '\x22' :: s ++ ['\x22']

theorem Reads.str {s : List Char} (h : ∀ c ∈ s, plain c) : Reads (quoted s) (.str s) := by
  intro n r hn _
  obtain ⟨n, rfl⟩ := Nat.exists_eq_succ_of_ne_zero (Nat.ne_zero_of_lt hn)
  have hq : quoted s ++ r = '\x22' :: (s ++ '\x22' :: r) := by simp [quoted]
  rw [hq, value, skipWs_cons (by decide)]
  simp only [if_true, string_plain h, Option.map_some]

/-! ### Numbers -/

theorem takeWhile_digits (hd : ∀ c ∈ ds, c.isDigit) (hr : ∀ c ∈ r.head?, c.isDigit = false) :
    (ds ++ r).takeWhile Char.isDigit = ds ∧ (ds ++ r).dropWhile Char.isDigit = r := by
  have hr' : r.takeWhile Char.isDigit = [] ∧ r.dropWhile Char.isDigit = r := by
    cases r with
    | nil => exact ⟨rfl, rfl⟩
    | cons c r =>
      have hc := hr c rfl
      simp [hc]
  rw [List.takeWhile_append_of_pos hd, List.dropWhile_append_of_pos hd, hr'.1, hr'.2, List.append_nil]
  exact ⟨rfl, rfl⟩

theorem digits_append (hd : ∀ c ∈ ds, c.isDigit) (hn : ds ≠ []) (hr : ∀ c ∈ r.head?, c.isDigit = false) :
    digits (ds ++ r) = some (ds, r) := by
  unfold digits
  rw [(takeWhile_digits hd hr).1, (takeWhile_digits hd hr).2, if_neg (by simpa using hn)]

theorem toDigits_head (n : ℕ) : Nat.toDigits 10 n = ['0'] ∨ (Nat.toDigits 10 n).head? ≠ some '0' := by
  induction n using Nat.strongRecOn with
  | ind n ih =>
    rw [Nat.toDigits_eq_if (by decide)]
    split
    · rename_i hn
      interval_cases n <;> decide
    · rename_i hn
      right
      rcases ih (n / 10) (by omega) with h | h
      · -- `n / 10` is not zero
        have hz := congrArg (fun l => Nat.ofDigitChars 10 l 0) h
        rw [Nat.ofDigitChars_ten_toDigits] at hz
        have : n / 10 = 0 := hz
        omega
      · rw [List.head?_append_of_ne_nil _ Nat.toDigits_ne_nil]
        exact h

theorem toDigits_isDigit (hc : c ∈ Nat.toDigits 10 n) : c.isDigit := Nat.isDigit_of_mem_toDigits (by decide) (by decide) hc

theorem intPart_toDigits (hr : ∀ c ∈ r.head?, c.isDigit = false) :
    intPart (Nat.toDigits 10 n ++ r) = some (Nat.toDigits 10 n, r) := by
  unfold intPart
  rcases toDigits_head n with h | h
  · rw [h]
    rfl
  · rw [List.head?_append_of_ne_nil _ Nat.toDigits_ne_nil, if_neg h]
    exact digits_append (fun c hc => toDigits_isDigit hc) Nat.toDigits_ne_nil hr

theorem expPart_ends (h : Ends r) : expPart r = some (0, r) := by
  unfold expPart
  rw [if_neg]
  intro h
  rcases h with he | he
  · exact (h _ he).2.2.1 rfl
  · exact (h _ he).2.2.2 rfl

theorem unsigned_toDigits (h : Ends r) : unsigned (Nat.toDigits 10 n ++ r) = some ((n : ℚ), r) := by
  have hf : fracPart r = some ([], r) := by
    unfold fracPart
    rw [if_neg fun he => (h '.' (by rw [he]; rfl)).2.1 rfl]
  simp [unsigned, intPart_toDigits fun c hc => (h c hc).1, hf, expPart_ends h, natOf, Nat.ofDigitChars_ten_toDigits]

def padded : ℕ → ℕ → List Char
  | 0, _ => []
  | k + 1, m => padded k (m / 10) ++ [Nat.digitChar (m % 10)]

theorem length_padded (k m : ℕ) : (padded k m).length = k := by
  induction k generalizing m with
  | zero => rfl
  | succ k ih => rw [padded, List.length_append, ih, List.length_singleton]

theorem padded_isDigit (k m : ℕ) : ∀ c ∈ padded k m, c.isDigit := by
  induction k generalizing m with
  | zero => simp [padded]
  | succ k ih =>
    intro c hc
    rw [padded, List.mem_append, List.mem_singleton] at hc
    rcases hc with hc | rfl
    · exact ih _ c hc
    · rw [Nat.isDigit_digitChar]
      exact decide_eq_true (Nat.mod_lt _ (by decide))

theorem natOf_padded (k m a : ℕ) : Nat.ofDigitChars 10 (padded k m) a = 10 ^ k * a + m % 10 ^ k := by
  induction k generalizing m with
  | zero => simp [padded, Nat.mod_one]
  | succ k ih =>
    rw [padded, Nat.ofDigitChars_append, ih, Nat.ofDigitChars_cons_digitChar_of_lt_ten (Nat.mod_lt _ (by decide)),
      Nat.ofDigitChars_nil, pow_succ, mul_comm (10 ^ k) 10, Nat.mod_mul]
    ring

/-- `m` in units of the last of `k` decimal places. -/
def decimal (k m : ℕ) : List Char := Nat.toDigits 10 (m / 10 ^ k) ++ '.' :: padded k m

theorem unsigned_decimal {k : ℕ} (hk : k ≠ 0) (h : Ends r) : unsigned (decimal k m ++ r) = some ((m : ℚ) / 10 ^ k, r) := by
  have hp : padded k m ≠ [] := fun he => hk (by rw [← length_padded k m, he]; rfl)
  have hf : fracPart ('.' :: (padded k m ++ r)) = some (padded k m, r) := by
    unfold fracPart
    rw [List.head?_cons, if_pos rfl]
    exact digits_append (padded_isDigit k m) hp fun c hc => (h c hc).1
  have hi : intPart (Nat.toDigits 10 (m / 10 ^ k) ++ '.' :: (padded k m ++ r)) =
      some (Nat.toDigits 10 (m / 10 ^ k), '.' :: (padded k m ++ r)) := by
    apply intPart_toDigits
    intro c hc
    cases hc
    rfl
  have hn : natOf (Nat.toDigits 10 (m / 10 ^ k) ++ padded k m) = m := by
    rw [natOf, Nat.ofDigitChars_append, Nat.ofDigitChars_ten_toDigits, natOf_padded, Nat.div_add_mod]
  have ht : decimal k m ++ r = Nat.toDigits 10 (m / 10 ^ k) ++ '.' :: (padded k m ++ r) := by simp [decimal]
  rw [ht]
  simp only [unsigned, hi, hf, expPart_ends h, Option.bind_eq_bind, Option.bind_some, hn, length_padded, zero_sub, zpow_neg,
    zpow_natCast, div_eq_mul_inv]

theorem value_number (hc : c.isDigit ∨ c = '-') : value (n + 1) (c :: r) = (number (c :: r)).map fun p => (.num p.1, p.2) := by
  have hne : ∀ d : Char, d.isDigit = false ∧ d ≠ '-' → c ≠ d := by
    intro d h hx
    obtain ⟨h₁, h₂⟩ := h
    obtain rfl := hx
    rcases hc with hc | hc
    · rw [h₁] at hc
      cases hc
    · exact h₂ hc
  have hw : isWs c = false := by
    simp only [isWs, Bool.or_eq_false_iff, decide_eq_false_iff_not]
    exact ⟨⟨⟨hne _ (by decide), hne _ (by decide)⟩, hne _ (by decide)⟩, hne _ (by decide)⟩
  rw [value, skipWs_cons hw]
  simp only
  rw [if_neg (hne _ (by decide)), if_neg (hne _ (by decide)), if_neg (hne _ (by decide)), if_neg (hne _ (by decide)),
    if_neg (hne _ (by decide)), if_neg (hne _ (by decide))]

theorem Reads.unsigned {q : ℚ} (hh : ∃ c ds, t = c :: ds ∧ c.isDigit) (h : ∀ r, Ends r → unsigned (t ++ r) = some (q, r)) :
    Reads t (.num q) ∧ Reads ('-' :: t) (.num (-q)) := by
  obtain ⟨c, ds, rfl, hc⟩ := hh
  refine ⟨fun n r hn hr => ?_, fun n r hn hr => ?_⟩ <;> obtain ⟨n, rfl⟩ := Nat.exists_eq_succ_of_ne_zero (Nat.ne_zero_of_lt hn)
  · have hne : c ≠ '-' := by
      rintro rfl
      exact absurd hc (by decide)
    have hu := h r hr
    rw [List.cons_append] at hu ⊢
    rw [value_number (.inl hc), number, if_neg (by simpa using hne), hu]
    rfl
  · have hu := h r hr
    rw [List.cons_append, value_number (.inr rfl), number, List.head?_cons, if_pos rfl, List.tail_cons, hu]
    rfl

theorem toDigits_cons (n : ℕ) : ∃ c ds, Nat.toDigits 10 n = c :: ds ∧ c.isDigit := by
  obtain ⟨c, ds, h⟩ := List.exists_cons_of_ne_nil (Nat.toDigits_ne_nil (b := 10) (n := n))
  exact ⟨c, ds, h, toDigits_isDigit (by rw [h]; exact List.mem_cons_self)⟩

def int : ℤ → List Char
  | .ofNat n => Nat.toDigits 10 n
  | .negSucc n => '-' :: Nat.toDigits 10 (n + 1)

theorem Reads.int (z : ℤ) : Reads (int z) (.num z) := by
  cases z with
  | ofNat n => exact (Reads.unsigned (toDigits_cons n) fun r => unsigned_toDigits).1
  | negSucc n =>
    have h := (Reads.unsigned (toDigits_cons (n + 1)) fun r => unsigned_toDigits).2
    rwa [← Int.cast_natCast, ← Int.cast_neg] at h

theorem Reads.decimal {k : ℕ} (hk : k ≠ 0) (m : ℕ) : Reads (decimal k m) (.num ((m : ℚ) / 10 ^ k)) := by
  refine (Reads.unsigned ?_ fun r => unsigned_decimal hk).1
  obtain ⟨c, ds, h, hc⟩ := toDigits_cons (m / 10 ^ k)
  exact ⟨c, ds ++ '.' :: padded k m, by rw [Json.decimal, h]; rfl, hc⟩

/-! ### Arrays and objects -/

theorem ends_of_ne (h : c.isDigit = false ∧ c ≠ '.' ∧ c ≠ 'e' ∧ c ≠ 'E') (hw : ∀ c ∈ w, isWs c) : Ends (w ++ c :: r) := by
  cases w with
  | nil => exact .cons h
  | cons d w =>
    apply Ends.cons
    have hd := hw d List.mem_cons_self
    simp only [isWs, Bool.or_eq_true, decide_eq_true_eq] at hd
    rcases hd with ((rfl | rfl) | rfl) | rfl <;> decide

def listed (w : List Char) : List (List Char) → List Char
  | [] => w
  | [t] => t ++ w
  | t :: ts => t ++ ',' :: listed w ts

theorem listed_cons {t u : List Char} {ts : List (List Char)} : listed w (t :: u :: ts) = t ++ ',' :: listed w (u :: ts) := rfl

theorem listed_concat {t : List Char} {ts : List (List Char)} (h : ts ≠ []) :
    listed w (ts ++ [t]) = listed [] ts ++ ',' :: (t ++ w) := by
  induction ts with
  | nil => exact absurd rfl h
  | cons u ts ih =>
    cases ts with
    | nil => simp [listed]
    | cons v ts =>
      have hi := ih (by simp)
      rw [List.cons_append] at hi
      rw [List.cons_append, List.cons_append, listed_cons, listed_cons, hi, List.append_assoc, List.cons_append]

theorem elements_listed {ts : List (List Char)} {vs : List Value} (h : List.Forall₂ Reads ts vs) (hn : ts ≠ [])
    (hw : ∀ c ∈ w, isWs c) (hl : (listed w ts).length + 1 < n) : elements n (listed w ts ++ ']' :: r) = some (vs, r) := by
  induction h generalizing n with
  | nil => exact absurd rfl hn
  | @cons t v ts vs ht hts ih =>
    obtain ⟨n, rfl⟩ := Nat.exists_eq_succ_of_ne_zero (Nat.ne_zero_of_lt hl)
    cases hts with
    | nil =>
      simp only [listed, List.length_append] at hl ⊢
      rw [List.append_assoc, elements, ht n _ (by omega) (ends_of_ne (by decide) hw), Option.bind_some]
      simp only [expect_ws hw, expect_ne (d := ',') (c := ']') (by decide) (by decide), expect_self (c := ']') (by decide), Option.map_some]
    | @cons u v' ts vs hu hts =>
      rw [listed_cons, List.length_append, List.length_cons] at hl
      rw [listed_cons, List.append_assoc, List.cons_append, elements, ht n _ (by omega) (.cons (by decide)), Option.bind_some]
      simp only [expect_self (c := ',') (by decide)]
      rw [ih (by simp) (by omega), Option.map_some]

theorem Reads.expect_close (h : Reads t v) (hr : Ends r) : expect ']' (t ++ r) = none := by
  have hv := h (t.length + 1) r (Nat.lt_succ_self _) hr
  unfold expect
  rw [if_neg]
  intro hh
  obtain ⟨cs, hcs⟩ := List.head?_eq_some_iff.mp hh
  have hnum : number (']' :: cs) = none := by
    have hd : digits (']' :: cs) = none := by simp [digits]
    simp [number, Json.unsigned, intPart, hd]
  rw [value, hcs] at hv
  simp [hnum] at hv

theorem Reads.arr {ts : List (List Char)} {vs : List Value} (h : List.Forall₂ Reads ts vs) (hw : ∀ c ∈ w, isWs c) :
    Reads ('[' :: listed w ts ++ [']']) (.arr vs) := by
  intro n r hn hr
  obtain ⟨n, rfl⟩ := Nat.exists_eq_succ_of_ne_zero (Nat.ne_zero_of_lt hn)
  have ht : '[' :: listed w ts ++ [']'] ++ r = '[' :: (listed w ts ++ ']' :: r) := by simp
  rw [ht, value, skipWs_cons (by decide)]
  simp only
  rw [if_neg (by decide), if_true]
  cases h with
  | nil => simp only [listed, expect_ws hw, expect_self (c := ']') (by decide)]
  | @cons t v ts vs h₁ h₂ =>
    have hc : expect ']' (listed w (t :: ts) ++ ']' :: r) = none := by
      cases ts with
      | nil =>
        rw [listed, List.append_assoc]
        exact h₁.expect_close (ends_of_ne (by decide) hw)
      | cons u ts =>
        rw [listed_cons, List.append_assoc]
        exact h₁.expect_close (.cons (by decide))
    rw [List.length_append, List.length_cons, List.length_singleton] at hn
    rw [hc]
    simp only
    rw [elements_listed (.cons h₁ h₂) (by simp) hw (by omega), Option.map_some]

def memberText (m : List Char × List Char) : List Char := quoted m.1 ++ ':' :: m.2

structure ReadsMember (m : List Char × List Char) (p : List Char × Value) : Prop where
  name : p.1 = m.1
  plain : ∀ c ∈ m.1, plain c
  value : Reads m.2 p.2

theorem ReadsMember.reads {m : List Char × List Char} {p : List Char × Value} (h : ReadsMember m p) (hr : Ends r)
    (hn : m.2.length < n) : member (Json.value n) (memberText m ++ r) = some (p, r) := by
  have ht : memberText m ++ r = '\x22' :: (m.1 ++ '\x22' :: (':' :: (m.2 ++ r))) := by simp [memberText, quoted]
  rw [ht, member, expect_self (by decide), Option.bind_some, string_plain h.plain, Option.bind_some, expect_self (by decide),
    Option.bind_some, h.value n r hn hr, Option.map_some, ← h.name]

theorem length_memberText (m : List Char × List Char) : (memberText m).length = m.1.length + m.2.length + 3 := by
  simp only [memberText, quoted, List.length_append, List.length_cons, List.length_nil]
  omega

theorem members_listed {ms : List (List Char × List Char)} {ps : List (List Char × Value)} (h : List.Forall₂ ReadsMember ms ps)
    (hn : ms ≠ []) (hw : ∀ c ∈ w, isWs c) (hl : (listed w (ms.map memberText)).length + 1 < n) :
    members n (listed w (ms.map memberText) ++ '\x7d' :: r) = some (ps, r) := by
  induction h generalizing n with
  | nil => exact absurd rfl hn
  | @cons m p ms ps hm hms ih =>
    obtain ⟨n, rfl⟩ := Nat.exists_eq_succ_of_ne_zero (Nat.ne_zero_of_lt hl)
    have hlen := length_memberText m
    cases hms with
    | nil =>
      simp only [List.map_cons, List.map_nil, listed, List.length_append] at hl ⊢
      rw [List.append_assoc, members, hm.reads (ends_of_ne (by decide) hw) (by omega), Option.bind_some]
      simp only [expect_ws hw, expect_ne (d := ',') (c := '\x7d') (by decide) (by decide), expect_self (c := '\x7d') (by decide),
        Option.map_some]
    | @cons m' p' ms ps hm' hms =>
      rw [List.map_cons, List.map_cons, listed_cons, List.length_append, List.length_cons] at hl
      rw [List.map_cons, List.map_cons, listed_cons, List.append_assoc, List.cons_append, members,
        hm.reads (.cons (by decide)) (by omega), Option.bind_some]
      simp only [expect_self (c := ',') (by decide)]
      rw [← List.map_cons, ih (by simp) (by rw [List.map_cons]; omega), Option.map_some]

theorem Reads.obj {ms : List (List Char × List Char)} {ps : List (List Char × Value)} (h : List.Forall₂ ReadsMember ms ps)
    (hw : ∀ c ∈ w, isWs c) : Reads ('\x7b' :: listed w (ms.map memberText) ++ ['\x7d']) (.obj ps) := by
  intro n r hn hr
  obtain ⟨n, rfl⟩ := Nat.exists_eq_succ_of_ne_zero (Nat.ne_zero_of_lt hn)
  have ht : '\x7b' :: listed w (ms.map memberText) ++ ['\x7d'] ++ r = '\x7b' :: (listed w (ms.map memberText) ++ '\x7d' :: r) := by
    simp
  rw [ht, value, skipWs_cons (by decide)]
  simp only
  rw [if_neg (by decide), if_neg (by decide), if_true]
  cases h with
  | nil => simp only [List.map_nil, listed, expect_ws hw, expect_self (c := '\x7d') (by decide)]
  | @cons m p ms ps h₁ h₂ =>
    have hc : expect '\x7d' (listed w ((m :: ms).map memberText) ++ '\x7d' :: r) = none := by
      cases ms with
      | nil => exact expect_ne (c := '\x22') (by decide) (by decide)
      | cons u ms => exact expect_ne (c := '\x22') (by decide) (by decide)
    rw [List.length_append, List.length_cons, List.length_singleton] at hn
    rw [hc]
    simp only
    rw [members_listed (.cons h₁ h₂) (by simp) hw (by omega), Option.map_some]

end Json
