import Uthread.Viewer
import Uthread.Lib.Json
import Uthread.Lib.Rounding
import Mathlib.Data.Rat.Floor

/-!
# The trace file

The characters that `uthread_dump_trace` writes, and what `JSON.parse` in the
viewer reads from them.
-/

namespace Uthread

open Rounding

def TraceEventType.traceEventName : TraceEventType → String
  | .create => "CREATE"
  | .ready => "READY"
  | .run => "RUN"
  | .yield => "YIELD"
  | .preempt => "PREEMPT"
  | .block => "BLOCK"
  | .unblock => "UNBLOCK"
  | .ioBlock => "IO_BLOCK"
  | .ioUnblock => "IO_UNBLOCK"
  | .sleep => "SLEEP"
  | .wakeup => "WAKEUP"
  | .exit => "EXIT"
  | .steal => "STEAL"

def phaseText : Spans.Phase → String
  | .B => "B"
  | .E => "E"
  | .i => "i"

/-! ## Numbers -/

def binary64 (x : ℚ) : ℚ := nearest 53 (-1074) x

def micros (ns : Nat) : ℚ := binary64 (binary64 ns / 1000)

/-- What `%.3f` prints for `micros ns`, in thousandths. -/
def printed (ns : Nat) : Nat := (fixed 3 (micros ns)).toNat

/-! ## The file -/

namespace JsonEvent

def text (ev : JsonEvent) : List Char :=
  "\x7b\x22name\x22:\x22".toList ++ ev.name.traceEventName.toList ++ "\x22,\x22cat\x22:\x22sched\x22,".toList ++
    "\x22ph\x22:\x22".toList ++ (phaseText ev.ph).toList ++ "\x22,\x22ts\x22:".toList ++ Json.decimal 3 (printed ev.ts) ++
    ",\x22pid\x22:0,\x22tid\x22:".toList ++ Json.int ev.tid ++ ",\x22args\x22:\x7b\x22core\x22:".toList ++ Json.int ev.core ++
    "\x7d\x7d".toList

def value (ev : JsonEvent) : Json.Value :=
  .obj [("name".toList, .str ev.name.traceEventName.toList), ("cat".toList, .str "sched".toList),
    ("ph".toList, .str (phaseText ev.ph).toList), ("ts".toList, .num ((printed ev.ts : ℚ) / 10 ^ 3)), ("pid".toList, .num ((0 : ℤ) : ℚ)),
    ("tid".toList, .num ev.tid), ("args".toList, .obj [("core".toList, .num ev.core)])]

end JsonEvent

def dumpLoop (buf : Int → TraceEvent) (count : Nat) : List Char :=
  (List.range count).flatMap fun (i : Nat) => (if 0 < i then ",\n".toList else []) ++ (buf i).json.text

/-- What `uthread_dump_trace` writes; `none` if it writes no file, because there is no event or `fopen` fails. -/
def dumpText (fopen : Bool) (tr : Trace) : Option (List Char) :=
  match tr.buffer with
  | none => none
  | some buf =>
    if tr.count ≤ 0 then none
    else
      let count := if tr.count > traceBufferSize then traceBufferSize else tr.count
      if fopen then some ("\x7b\x22traceEvents\x22:[\n".toList ++ dumpLoop buf count.toNat ++ "\n]\x7d\n".toList) else none

/-! ## The reader -/

def eventTypes : List TraceEventType :=
  [.create, .ready, .run, .yield, .preempt, .block, .unblock, .ioBlock, .ioUnblock, .sleep, .wakeup, .exit, .steal]

def typeOf (name : List Char) : Option TraceEventType := eventTypes.find? fun t => t.traceEventName.toList = name

def phaseOf (ph : List Char) : Option Spans.Phase := [.B, .E, .i].find? fun p => (phaseText p).toList = ph

def nanos (x : ℚ) : Nat := (fixed 3 x).toNat

/-- What the viewer reads of a record; `JSON.parse` makes a `double` of the time stamp. -/
def readEvent (v : Json.Value) : Option JsonEvent := do
  let name ← ((v.field "name".toList).bind Json.Value.string?).bind typeOf
  let ph ← ((v.field "ph".toList).bind Json.Value.string?).bind phaseOf
  let ts ← (v.field "ts".toList).bind Json.Value.number?
  let tid ← (v.field "tid".toList).bind Json.Value.integer?
  let core ← ((v.field "args".toList).bind fun a => a.field "core".toList).bind Json.Value.integer?
  some ⟨name, ph, nanos (binary64 ts), tid, core⟩

def readTrace (data : Json.Value) : Option (List JsonEvent) :=
  match (data.field "traceEvents".toList).getD data with
  | .arr vs => vs.mapM readEvent
  | _ => none

/-! ## The file is well formed -/

variable {ev : JsonEvent} {tr : Trace} {cs : List Char}

theorem plain_of_all {k : String} (h : k.toList.all Json.plain = true) : ∀ c ∈ k.toList, Json.plain c := List.all_eq_true.mp h

theorem plain_key {k : String} (h : k ∈ ["name", "cat", "sched", "ph", "ts", "pid", "tid", "args", "core", "traceEvents"]) :
    ∀ c ∈ k.toList, Json.plain c := by
  apply plain_of_all
  revert k
  decide

theorem plain_name (t : TraceEventType) : ∀ c ∈ t.traceEventName.toList, Json.plain c := by
  cases t <;> exact plain_of_all rfl

theorem plain_phase (p : Spans.Phase) : ∀ c ∈ (phaseText p).toList, Json.plain c := by
  cases p <;> exact plain_of_all rfl

def JsonEvent.members (ev : JsonEvent) : List (List Char × List Char) :=
  [("name".toList, Json.quoted ev.name.traceEventName.toList), ("cat".toList, Json.quoted "sched".toList),
    ("ph".toList, Json.quoted (phaseText ev.ph).toList), ("ts".toList, Json.decimal 3 (printed ev.ts)), ("pid".toList, Json.int 0),
    ("tid".toList, Json.int ev.tid),
    ("args".toList, '\x7b' :: Json.listed [] ([("core".toList, Json.int ev.core)].map Json.memberText) ++ ['\x7d'])]

theorem JsonEvent.text_eq : ev.text = '\x7b' :: Json.listed [] (ev.members.map Json.memberText) ++ ['\x7d'] := by
  have h0 : Json.int 0 = ['0'] := rfl
  unfold JsonEvent.text JsonEvent.members
  generalize Json.decimal 3 (printed ev.ts) = ts
  generalize Json.int ev.tid = tid
  generalize Json.int ev.core = core
  simp [Json.listed, Json.memberText, Json.quoted, h0]

theorem JsonEvent.text_reads : Json.Reads ev.text ev.value := by
  have hw : ∀ c ∈ ([] : List Char), Json.isWs c := by simp
  rw [JsonEvent.text_eq]
  apply Json.Reads.obj _ hw
  have hcore : List.Forall₂ Json.ReadsMember [("core".toList, Json.int ev.core)] [("core".toList, .num (ev.core : ℚ))] :=
    .cons ⟨rfl, plain_key (by simp), .int ev.core⟩ .nil
  exact .cons ⟨rfl, plain_key (by simp), .str (plain_name _)⟩ (.cons ⟨rfl, plain_key (by simp), .str (plain_key (by simp))⟩
    (.cons ⟨rfl, plain_key (by simp), .str (plain_phase _)⟩ (.cons ⟨rfl, plain_key (by simp), .decimal (by decide) _⟩
      (.cons ⟨rfl, plain_key (by simp), .int 0⟩ (.cons ⟨rfl, plain_key (by simp), .int ev.tid⟩
        (.cons ⟨rfl, plain_key (by simp), .obj hcore hw⟩ .nil))))))

theorem dumpLoop_eq (buf : Int → TraceEvent) (n : Nat) (w : List Char) : '\n' :: dumpLoop buf (n + 1) ++ w =
    Json.listed w ((List.range (n + 1)).map fun (i : Nat) => '\n' :: (buf i).json.text) := by
  induction n generalizing w with
  | zero => simp [dumpLoop, Json.listed]
  | succ n ih =>
    have hl : dumpLoop buf (n + 1 + 1) = dumpLoop buf (n + 1) ++ (',' :: '\n' :: (buf (n + 1 : Nat)).json.text) := by
      unfold dumpLoop
      rw [List.range_succ, List.flatMap_append, List.flatMap_singleton, if_pos (Nat.succ_pos n)]
      rfl
    rw [List.range_succ, List.map_append, List.map_singleton, Json.listed_concat (by simp), ← ih, hl]
    simp

theorem dumpText_some (h : dumpText true tr = some cs) : ∃ buf n, tr.buffer = some buf ∧ (min tr.count traceBufferSize).toNat = n + 1 ∧
    cs = '\x7b' :: Json.listed [] ([("traceEvents".toList,
      '[' :: Json.listed ['\n'] ((List.range (n + 1)).map fun (i : Nat) => '\n' :: (buf i).json.text) ++ [']'])].map Json.memberText) ++
        ['\x7d'] ++ ['\n'] := by
  unfold dumpText at h
  cases hb : tr.buffer with
  | none => simp [hb] at h
  | some buf =>
    simp only [hb] at h
    split at h
    · cases h
    · rename_i hc
      have hpos : 0 < (min tr.count traceBufferSize).toNat := by
        have : (0 : Int) < traceBufferSize := by decide
        omega
      obtain ⟨n, hn⟩ := Nat.exists_eq_succ_of_ne_zero hpos.ne'
      have hmin : (if tr.count > traceBufferSize then traceBufferSize else tr.count) = min tr.count traceBufferSize := by
        split <;> omega
      rw [hmin, hn, if_true, Option.some.injEq] at h
      refine ⟨buf, n, rfl, hn, ?_⟩
      rw [← dumpLoop_eq, ← h]
      simp [Json.listed, Json.memberText, Json.quoted]

theorem parse_dumpText (h : dumpText true tr = some cs) :
    Json.parse cs = some (.obj [("traceEvents".toList, .arr ((dumpTrace tr).map JsonEvent.value))]) := by
  obtain ⟨buf, n, hb, hn, rfl⟩ := dumpText_some h
  have hw : ∀ c ∈ ['\n'], Json.isWs c := List.all_eq_true.mp rfl
  have hd : dumpTrace tr = (List.range (n + 1)).map fun (i : Nat) => (buf i).json := by
    unfold dumpTrace
    rw [hb, ← hn]
  apply Json.parse_reads _ hw
  apply Json.Reads.obj _ (by simp)
  refine .cons ⟨rfl, plain_key (by simp), ?_⟩ .nil
  apply Json.Reads.arr _ hw
  rw [hd, List.map_map, List.forall₂_map_left_iff, List.forall₂_map_right_iff, List.forall₂_same]
  intro i _
  exact JsonEvent.text_reads.ws hw

theorem micros_mono {a b : Nat} (h : a ≤ b) : micros a ≤ micros b := by
  have h0 : (0 : ℚ) ≤ binary64 a := by
    have hz := nearest_mono (l := -1074) le_rfl (Nat.cast_nonneg (α := ℚ) a) (show 0 < 53 by decide)
    rwa [nearest_zero] at hz
  apply nearest_mono (div_nonneg h0 (by norm_num)) _ (by decide)
  apply div_le_div_of_nonneg_right _ (by norm_num)
  exact nearest_mono (Nat.cast_nonneg a) (Nat.cast_le.mpr h) (by decide)

theorem printed_mono {a b : Nat} (h : a ≤ b) : printed a ≤ printed b := Int.toNat_le_toNat (fixed_mono (micros_mono h))

/-- The file is a JSON text: the array `traceEvents` of the records of the recorded events in their order, whose time
stamps are printed in the order they have. -/
theorem dump_parses (tr : Trace) :
    (dumpText true tr = none ↔ tr.buffer = none ∨ tr.count ≤ 0) ∧
      (∀ cs, dumpText true tr = some cs →
        Json.parse cs = some (.obj [("traceEvents".toList, .arr ((dumpTrace tr).map JsonEvent.value))])) ∧
      ∀ a ∈ dumpTrace tr, ∀ b ∈ dumpTrace tr, a.ts ≤ b.ts → printed a.ts ≤ printed b.ts := by
  refine ⟨?_, fun cs => parse_dumpText, fun a _ b _ => printed_mono⟩
  unfold dumpText
  cases hb : tr.buffer with
  | none => simp
  | some buf =>
    by_cases hc : tr.count ≤ 0 <;> simp [hc]

/-! ## Nothing is lost -/

theorem typeOf_name (t : TraceEventType) : typeOf t.traceEventName.toList = some t := by
  cases t <;> rfl

theorem phaseOf_text (p : Spans.Phase) : phaseOf (phaseText p).toList = some p := by
  cases p <;> rfl

theorem micros_eq {ns : Nat} (h : ns < 1000 * 2 ^ 43) : micros ns = binary64 ((ns : ℚ) / 1000) := by
  have hc : binary64 ns = ns := nearest_natCast (h.trans (by norm_num)) (by decide)
  rw [micros, hc]

/-- Up to 2^43 microseconds three decimals tell all nanoseconds apart. -/
theorem printed_eq {ns : Nat} (h : ns < 1000 * 2 ^ 43) : printed ns = ns := by
  have hx : (ns : ℚ) / 1000 * 10 ^ 3 = ns := by
    norm_num
  have hj : (ns : ℚ) / 1000 < 2 ^ (43 : ℤ) := by
    rw [div_lt_iff₀ (by norm_num)]
    have hn : (ns : ℚ) < ((1000 * 2 ^ 43 : ℕ) : ℚ) := Nat.cast_lt.mpr h
    refine hn.trans_eq ?_
    norm_num
  have hf := fixed_nearest (p := 53) (l := -1074) hx hj (by decide) (by norm_num)
  rw [printed, micros_eq h, binary64, hf, Int.toNat_natCast]

theorem micros_le_iff {a b : Nat} (ha : a < 1000 * 2 ^ 43) (hb : b < 1000 * 2 ^ 43) : micros a ≤ micros b ↔ a ≤ b := by
  refine ⟨fun h => ?_, micros_mono⟩
  have hp : printed a ≤ printed b := Int.toNat_le_toNat (fixed_mono h)
  rwa [printed_eq ha, printed_eq hb] at hp

theorem binary64_printed {ns : Nat} (h : ns < 1000 * 2 ^ 43) : binary64 ((printed ns : ℚ) / 10 ^ 3) = micros ns := by
  rw [printed_eq h, micros_eq h]
  norm_num

theorem readEvent_value (h : ev.ts < 1000 * 2 ^ 43) : readEvent ev.value = some ev := by
  have hn : nanos (binary64 ((printed ev.ts : ℚ) / 10 ^ 3)) = ev.ts := by
    rw [binary64_printed h]
    exact printed_eq h
  simp [readEvent, JsonEvent.value, Json.Value.field, Json.Value.string?, Json.Value.number?, Json.Value.integer?_num, typeOf_name,
    phaseOf_text, hn]

theorem mapM_value {l : List JsonEvent} (h : ∀ ev ∈ l, ev.ts < 1000 * 2 ^ 43) :
    (l.map JsonEvent.value).mapM readEvent = some l := by
  induction l with
  | nil => rfl
  | cons ev l ih =>
    rw [List.map_cons, List.mapM_cons, readEvent_value (h ev List.mem_cons_self), ih fun e he => h e (List.mem_cons_of_mem _ he)]
    rfl

/-- With time stamps of less than 2^43 microseconds the viewer reads back what was recorded, and the numbers it
sorts by are in the order of the time stamps. -/
theorem dump_exact (hb : ∀ ev ∈ dumpTrace tr, ev.ts < 1000 * 2 ^ 43) :
    (∀ cs, dumpText true tr = some cs → (Json.parse cs).bind readTrace = some (dumpTrace tr)) ∧
      (∀ ev ∈ dumpTrace tr, printed ev.ts = ev.ts ∧ binary64 ((printed ev.ts : ℚ) / 10 ^ 3) = micros ev.ts) ∧
      ∀ a ∈ dumpTrace tr, ∀ b ∈ dumpTrace tr, micros a.ts ≤ micros b.ts ↔ a.ts ≤ b.ts := by
  refine ⟨fun cs h => ?_, fun ev he => ⟨printed_eq (hb ev he), binary64_printed (hb ev he)⟩,
    fun a ha b hb' => micros_le_iff (hb a ha) (hb b hb')⟩
  rw [parse_dumpText h, Option.bind_some]
  exact mapM_value hb

def twoEvents : Trace where
  buffer := some fun i => if i = 0 then ⟨1, .run, 1500, 0⟩ else ⟨1, .yield, 2000, 0⟩
  count := 2
  enabled := true

theorem dump_exact_two : (dumpTrace twoEvents).map JsonEvent.ts = [1500, 2000] ∧
    (∀ cs, dumpText true twoEvents = some cs → (Json.parse cs).bind readTrace = some (dumpTrace twoEvents)) ∧
    (∀ ev ∈ dumpTrace twoEvents, printed ev.ts = ev.ts ∧ binary64 ((printed ev.ts : ℚ) / 10 ^ 3) = micros ev.ts) ∧
    ∀ a ∈ dumpTrace twoEvents, ∀ b ∈ dumpTrace twoEvents, micros a.ts ≤ micros b.ts ↔ a.ts ≤ b.ts :=
  ⟨by decide, dump_exact (by decide)⟩

end Uthread
