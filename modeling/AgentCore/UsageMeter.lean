/-
# The usage meter

`ExternalAPIMeter` of `runtime/usage_meter.py` counts requests and tool calls, adds up the time
of spans and keeps gauges. A span is only a start time until it is closed: its time goes into
the provider's slot then, and a snapshot in between adds it for the view alone. Every call holds
the lock, so calls of many threads are one list of events.

`Usage` is what is measured, with no start times: time passes, and each running span has a share
in it. The meter follows it (`Follows`), and a snapshot shows it, up to one rounding to hundredths
for the slot and one for each running span. Times and amounts are rationals.

Key definitions: `Meter`, `snapshot`, `Usage`, `Shows`.
Key theorem: `snapshot_shows`.
-/
import AgentCore.Lib.Dict
import Mathlib.Algebra.Group.Subgroup.Ker
import Mathlib.Algebra.Group.Submonoid.BigOperators
import Mathlib.Algebra.Order.Field.Basic
import Mathlib.Algebra.Order.Floor.Ring
import Mathlib.Data.List.Induction
import Mathlib.Data.Rat.Floor
import Mathlib.Tactic.Linarith

namespace AgentCore.UsageMeter

open Dict

def baseFields : List String := ["requests", "cache_hits", "retries", "errors"]

/-! ### Numbers -/

/-- Python's `round` to an integer: a half goes to the even neighbour. -/
def roundHalfEven (x : ℚ) : ℤ :=
  if x - ⌊x⌋ < 1 / 2 then ⌊x⌋
  else if 1 / 2 < x - ⌊x⌋ then ⌊x⌋ + 1
  else if ⌊x⌋ % 2 = 0 then ⌊x⌋ else ⌊x⌋ + 1

/-- `round(x, 2)`. -/
def round2 (x : ℚ) : ℚ := roundHalfEven (x * 100) / 100

theorem abs_roundHalfEven_sub (x : ℚ) : |(roundHalfEven x : ℚ) - x| ≤ 1 / 2 := by
  have hle : (⌊x⌋ : ℚ) ≤ x := Int.floor_le x
  have hlt : x < ⌊x⌋ + 1 := Int.lt_floor_add_one x
  rw [abs_le]
  unfold roundHalfEven
  split
  · constructor <;> linarith
  · next hlow =>
    have hhalf : 1 / 2 ≤ x - ⌊x⌋ := not_lt.mp hlow
    split
    · push_cast
      constructor <;> linarith
    · next hhigh =>
      have heq : x - ⌊x⌋ = 1 / 2 := le_antisymm (not_lt.mp hhigh) hhalf
      split
      · constructor <;> linarith
      · push_cast
        constructor <;> linarith

theorem abs_round2_sub (x : ℚ) : |round2 x - x| ≤ 1 / 200 := by
  have h := abs_le.mp (abs_roundHalfEven_sub (x * 100))
  rw [abs_le]
  unfold round2
  constructor <;> linarith [h.1, h.2]

theorem round2_zero : round2 0 = 0 := by decide +kernel

/-- A number of a view, as it is serialised. -/
inductive Num
  | int (n : ℤ)
  | float (x : ℚ)
  deriving DecidableEq

/-- `float(x)`. -/
def Num.toFloat : Num → ℚ
  | .int n => n
  | .float x => x

@[simp] theorem Num.toFloat_float (x : ℚ) : (Num.float x).toFloat = x := rfl

/-- `int(x)` of a float: towards zero. -/
def truncate (x : ℚ) : ℤ := x.num.tdiv x.den

/-- `int(x)`. -/
def Num.toInt : Num → ℤ
  | .int n => n
  | .float x => truncate x

theorem truncate_intCast (n : ℤ) : truncate n = n := by
  unfold truncate
  rw [Rat.num_intCast, Rat.den_intCast, Nat.cast_one, Int.tdiv_one]

theorem Num.toInt_of_toFloat {x : Num} {n : ℤ} (h : x.toFloat = n) : x.toInt = n := by
  cases x with
  | int k => exact Int.cast_injective h
  | float y =>
    have hy : y = n := h
    rw [Num.toInt, hy, truncate_intCast]

/-- `_render`. -/
def render (field : String) (value : ℚ) : Num :=
  if field ∈ baseFields then .int (truncate value) else .float (round2 value)

/-! ### The meter -/

abbrev Slot := List (String × ℚ)

/-- A key of the open spans: the provider and the span's own key. -/
abbrev SpanKey := String × String

/-- An open span: when it started and the field it counts for. -/
abbrev Span := ℚ × String

structure Meter where
  providers : List (String × Slot) := []
  toolCounts : List (String × ℕ) := []
  openSpans : List (SpanKey × Span) := []
  gauges : List ((String × String) × ℚ) := []

abbrev View := List (String × Num)

structure Snapshot where
  externalApis : List (String × View)
  tools : List (String × ℕ)
  deriving DecidableEq

/-- `_empty_slot`. -/
def emptySlot : View := baseFields.map fun field => (field, .int 0)

/-- The keywords of `record_api_request`; the named ones are not among the others. -/
structure Record where
  requests : ℤ := 1
  cacheHits : ℤ := 0
  retries : ℤ := 0
  errors : ℤ := 0
  extra : List (String × ℚ) := []
  extra_free : ∀ e ∈ extra, e.1 ∉ baseFields

/-- A record's amounts by field. -/
def Record.amounts (r : Record) : List (String × ℚ) :=
  ("requests", (r.requests : ℚ)) :: ("cache_hits", (r.cacheHits : ℚ)) :: ("retries", (r.retries : ℚ)) ::
    ("errors", (r.errors : ℚ)) :: r.extra

section Source

variable (m : Meter)

/-- `_slot_locked`, where a slot is not there yet. -/
def newSlot : Slot := baseFields.map fun field => (field, 0)

def slotLocked (provider : String) : Slot := (get? m.providers provider).getD newSlot

/-- `slot[field] = slot.get(field, 0.0) + value`. -/
def addTo (slot : Slot) (e : String × ℚ) : Slot := set slot e.1 ((get? slot e.1).getD 0 + e.2)

def recordApiRequest (provider : String) (r : Record) : Meter :=
  { m with providers := set m.providers provider (r.amounts.foldl addTo (slotLocked m provider)) }

def recordToolCall (name : String) : Meter :=
  { m with toolCounts := set m.toolCounts name ((get? m.toolCounts name).getD 0 + 1) }

def setGauge (provider field : String) (value : ℚ) : Meter :=
  { m with gauges := set m.gauges (provider, field) (max ((get? m.gauges (provider, field)).getD 0) value) }

def openSpan (now : ℚ) (provider key field : String) : Meter :=
  { m with openSpans := setdefault m.openSpans (provider, key) (now, field) }

def closeSpan (now : ℚ) (provider key : String) : Meter :=
  match get? m.openSpans (provider, key) with
  | none => m
  | some (started, field) =>
    { m with
      openSpans := pop m.openSpans (provider, key)
      providers := set m.providers provider (addTo (slotLocked m provider) (field, now - started)) }

abbrev Apis := List (String × View)

/-- The view of a provider, a new one if there is none. -/
def viewOf (apis : Apis) (provider : String) : View := (get? apis provider).getD emptySlot

/-- The loop of `snapshot` over the open spans. -/
def addSpan (now : ℚ) (apis : Apis) (span : SpanKey × Span) : Apis :=
  let provider := span.1.1
  let started := span.2.1
  let field := span.2.2
  let view := viewOf apis provider
  let view := set view field (.float (round2 (((get? view field).elim 0 Num.toFloat) + now - started)))
  let view := set view "spans_open" (.int (((get? view "spans_open").elim 0 Num.toInt) + 1))
  set apis provider view

/-- The loop of `snapshot` over the gauges. -/
def addGauge (apis : Apis) (gauge : (String × String) × ℚ) : Apis :=
  set apis gauge.1.1 (set (viewOf apis gauge.1.1) gauge.1.2 (.float (round2 gauge.2)))

def renderSlot (slot : Slot) : View := slot.map fun e => (e.1, render e.1 e.2)

def snapshot (now : ℚ) : Snapshot where
  externalApis :=
    m.gauges.foldl addGauge (m.openSpans.foldl (addSpan now) (m.providers.map fun e => (e.1, renderSlot e.2)))
  tools := m.toolCounts

end Source

/-! ### Events -/

inductive Event
  | wait (seconds : ℚ)
  | recordApiRequest (provider : String) (r : Record)
  | recordToolCall (name : String)
  | setGauge (provider field : String) (value : ℚ)
  | openSpan (provider key field : String)
  | closeSpan (provider key : String)

/-- A meter and the monotonic clock. -/
structure Clocked where
  meter : Meter := {}
  now : ℚ := 0

def step (s : Clocked) : Event → Clocked
  | .wait seconds => { s with now := s.now + seconds }
  | .recordApiRequest provider r => { s with meter := recordApiRequest s.meter provider r }
  | .recordToolCall name => { s with meter := recordToolCall s.meter name }
  | .setGauge provider field value => { s with meter := setGauge s.meter provider field value }
  | .openSpan provider key field => { s with meter := openSpan s.meter s.now provider key field }
  | .closeSpan provider key => { s with meter := closeSpan s.meter s.now provider key }

def run (log : List Event) : Clocked := log.foldl step {}

/-! ### What is measured -/

/-- The usage so far, by provider and field. -/
structure Usage where
  recorded : String → String → ℚ := fun _ _ => 0
  /-- The time of the spans that run or ran. -/
  elapsed : String → String → ℚ := fun _ _ => 0
  running : List (SpanKey × String) := []
  peak : String → String → Option ℚ := fun _ _ => none
  calls : String → ℕ := fun _ => 0

section Usage

variable (u : Usage)

/-- The number of spans that run for a provider's field. -/
def Usage.spans (provider field : String) : ℕ := u.running.countP fun s => s.1.1 = provider ∧ s.2 = field

/-- The number of spans that run for a provider. -/
def Usage.spansOpen (provider : String) : ℕ := u.running.countP fun s => s.1.1 = provider

def Usage.amount (provider field : String) : ℚ := u.recorded provider field + u.elapsed provider field

def Record.total (r : Record) (field : String) : ℚ := (r.amounts.map fun e => if e.1 = field then e.2 else 0).sum

/-- Each running span has its share in the time that passes. -/
def Usage.step (u : Usage) : Event → Usage
  | .wait seconds => { u with elapsed := fun p f => u.elapsed p f + seconds * u.spans p f }
  | .recordApiRequest provider r =>
    { u with recorded := fun p f => if p = provider then u.recorded p f + r.total f else u.recorded p f }
  | .recordToolCall name => { u with calls := fun t => if t = name then u.calls t + 1 else u.calls t }
  | .setGauge provider field value =>
    { u with
      peak := fun p f =>
        if p = provider ∧ f = field then some (max ((u.peak p f).getD 0) value) else u.peak p f }
  | .openSpan provider key field => { u with running := setdefault u.running (provider, key) field }
  | .closeSpan provider key => { u with running := pop u.running (provider, key) }

def usage (log : List Event) : Usage := log.foldl Usage.step {}

end Usage

/-- The number under a provider's field of a snapshot, 0 where there is none. -/
def getIn (apis : Apis) (provider field : String) : Num :=
  ((get? apis provider).bind fun view => get? view field).getD (.int 0)

/-- A span for the field was opened at some time. -/
def Spanned (log : List Event) (provider field : String) : Prop := ∃ key, Event.openSpan provider key field ∈ log

/-- What a snapshot shows of the usage: requests and the like to the number, other amounts up to
one rounding for the slot and one for each running span, but a gauge hides what is below it. -/
structure Shows (log : List Event) (shown : Snapshot) : Prop where
  amounts : ∀ p f, f ∉ baseFields → f ≠ "spans_open" → (usage log).peak p f = none →
    |(getIn shown.externalApis p f).toFloat - (usage log).amount p f| ≤ (1 + (usage log).spans p f) / 200
  counters : ∀ p, ∀ f ∈ baseFields, ¬ Spanned log p f → (usage log).peak p f = none →
    ∃ n : ℤ, getIn shown.externalApis p f = .int n ∧ n = (usage log).recorded p f
  spansOpen : ∀ p, (usage log).recorded p "spans_open" = 0 → ¬ Spanned log p "spans_open" →
    (usage log).peak p "spans_open" = none →
    (getIn shown.externalApis p "spans_open").toFloat = (usage log).spansOpen p
  gauges : ∀ p f x, (usage log).peak p f = some x → getIn shown.externalApis p f = .float (round2 x)
  calls : ∀ t, (get? shown.tools t).getD 0 = (usage log).calls t

/-! ### Slots -/

/-- The amount in a provider's slot. -/
def inSlot (m : Meter) (provider field : String) : ℚ :=
  ((get? m.providers provider).bind fun slot => get? slot field).getD 0

theorem get?_newSlot (f : String) : (get? newSlot f).getD 0 = 0 := by
  unfold newSlot baseFields
  simp only [List.map_cons, List.map_nil, get?_cons]
  split_ifs <;> rfl

theorem get?_slotLocked (m : Meter) (p f : String) : (get? (slotLocked m p) f).getD 0 = inSlot m p f := by
  unfold slotLocked inSlot
  cases get? m.providers p with
  | none => exact get?_newSlot f
  | some slot => rfl

theorem get?_addTo (slot : Slot) (e : String × ℚ) (f : String) :
    (get? (addTo slot e) f).getD 0 = (get? slot f).getD 0 + if e.1 = f then e.2 else 0 := by
  unfold addTo
  rw [get?_set]
  by_cases h : f = e.1
  · rw [if_pos h, if_pos h.symm, h, Option.getD_some]
  · rw [if_neg h, if_neg (Ne.symm h), add_zero]

theorem get?_foldl_addTo (es : List (String × ℚ)) (slot : Slot) (f : String) :
    (get? (es.foldl addTo slot) f).getD 0 =
      (get? slot f).getD 0 + (es.map fun e => if e.1 = f then e.2 else 0).sum := by
  induction es generalizing slot with
  | nil => simp
  | cons e es ih => rw [List.foldl_cons, ih, get?_addTo, List.map_cons, List.sum_cons, add_assoc]

theorem inSlot_set (m : Meter) (provider p f : String) (slot : Slot) :
    inSlot { m with providers := set m.providers provider slot } p f =
      if p = provider then (get? slot f).getD 0 else inSlot m p f := by
  unfold inSlot
  rw [get?_set]
  by_cases h : p = provider
  · rw [if_pos h, if_pos h, Option.bind_some]
  · rw [if_neg h, if_neg h]

theorem inSlot_recordApiRequest (m : Meter) (provider : String) (r : Record) (p f : String) :
    inSlot (recordApiRequest m provider r) p f =
      if p = provider then inSlot m p f + r.total f else inSlot m p f := by
  unfold recordApiRequest
  rw [inSlot_set, get?_foldl_addTo, get?_slotLocked]
  split
  · next h => rw [h]; rfl
  · rfl

/-! ### The meter follows the usage -/

/-- The share of an open span in the time of a provider's field. -/
def share (now : ℚ) (p f : String) (e : SpanKey × Span) : ℚ :=
  if e.1.1 = p ∧ e.2.2 = f then now - e.2.1 else 0

structure Follows (u : Usage) (s : Clocked) : Prop where
  running : s.meter.openSpans.map (Prod.map id Prod.snd) = u.running
  amount : ∀ p f, inSlot s.meter p f + (s.meter.openSpans.map (share s.now p f)).sum = u.amount p f
  gaugeKeys : (s.meter.gauges.map Prod.fst).Nodup
  peak : ∀ p f, get? s.meter.gauges (p, f) = u.peak p f
  calls : ∀ t, (get? s.meter.toolCounts t).getD 0 = u.calls t

theorem Follows.spans {u : Usage} {s : Clocked} (h : Follows u s) (p f : String) :
    u.spans p f = s.meter.openSpans.countP fun e => e.1.1 = p ∧ e.2.2 = f := by
  unfold Usage.spans
  rw [← h.running, List.countP_map]
  rfl

theorem sum_share_wait (spans : List (SpanKey × Span)) (now d : ℚ) (p f : String) :
    (spans.map (share (now + d) p f)).sum =
      (spans.map (share now p f)).sum + d * spans.countP fun e => e.1.1 = p ∧ e.2.2 = f := by
  induction spans with
  | nil => simp
  | cons e spans ih =>
    rw [List.map_cons, List.sum_cons, ih, List.map_cons, List.sum_cons]
    unfold share
    by_cases h : e.1.1 = p ∧ e.2.2 = f
    · rw [if_pos h, if_pos h, List.countP_cons_of_pos (by simpa using h)]
      push_cast
      ring
    · rw [if_neg h, if_neg h, List.countP_cons_of_neg (by simpa using h)]
      ring

namespace Follows

variable {u : Usage} {s : Clocked}

theorem wait (h : Follows u s) (d : ℚ) : Follows (u.step (.wait d)) (step s (.wait d)) where
  running := h.running
  amount := by
    intro p f
    have hwait := sum_share_wait s.meter.openSpans s.now d p f
    have hbefore := h.amount p f
    rw [← h.spans] at hwait
    simp only [step, Usage.step, Usage.amount] at hbefore ⊢
    rw [hwait]
    linarith
  gaugeKeys := h.gaugeKeys
  peak := h.peak
  calls := h.calls

theorem recorded (h : Follows u s) (provider : String) (r : Record) :
    Follows (u.step (.recordApiRequest provider r)) (step s (.recordApiRequest provider r)) where
  running := h.running
  amount := by
    intro p f
    have hbefore := h.amount p f
    simp only [step, Usage.step, Usage.amount] at hbefore ⊢
    rw [inSlot_recordApiRequest]
    have hspans : (recordApiRequest s.meter provider r).openSpans = s.meter.openSpans := rfl
    rw [hspans]
    split <;> linarith
  gaugeKeys := h.gaugeKeys
  peak := h.peak
  calls := h.calls

theorem called (h : Follows u s) (name : String) :
    Follows (u.step (.recordToolCall name)) (step s (.recordToolCall name)) where
  running := h.running
  amount := h.amount
  gaugeKeys := h.gaugeKeys
  peak := h.peak
  calls := by
    intro t
    have hcalls := h.calls t
    simp only [step, Usage.step, recordToolCall]
    rw [get?_set]
    by_cases ht : t = name
    · rw [if_pos ht, if_pos ht, Option.getD_some, ← ht, hcalls]
    · rw [if_neg ht, if_neg ht, hcalls]

theorem gauged (h : Follows u s) (provider field : String) (value : ℚ) :
    Follows (u.step (.setGauge provider field value)) (step s (.setGauge provider field value)) where
  running := h.running
  amount := h.amount
  gaugeKeys := nodup_set h.gaugeKeys _ _
  peak := by
    intro p f
    simp only [step, Usage.step, setGauge]
    rw [get?_set, h.peak, h.peak]
    by_cases hpf : p = provider ∧ f = field
    · rw [if_pos hpf, if_pos (Prod.ext_iff.mpr hpf), hpf.1, hpf.2]
    · rw [if_neg hpf, if_neg (fun heq => hpf (Prod.ext_iff.mp heq))]
  calls := h.calls

theorem opened (h : Follows u s) (provider key field : String) :
    Follows (u.step (.openSpan provider key field)) (step s (.openSpan provider key field)) where
  running := by
    simp only [step, Usage.step, openSpan]
    rw [map_setdefault, h.running]
  amount := by
    intro p f
    have hbefore := h.amount p f
    simp only [step, Usage.step, openSpan, Usage.amount] at hbefore ⊢
    cases hlook : get? s.meter.openSpans (provider, key) with
    | some span =>
      rw [setdefault_of_some hlook]
      exact hbefore
    | none =>
      -- A span that starts now has no share yet.
      have hshare : share s.now p f ((provider, key), (s.now, field)) = 0 := by
        unfold share
        rw [sub_self, ite_self]
      rw [sum_setdefault _ hlook, hshare, add_zero]
      exact hbefore
  gaugeKeys := h.gaugeKeys
  peak := h.peak
  calls := h.calls

theorem closed (h : Follows u s) (provider key : String) :
    Follows (u.step (.closeSpan provider key)) (step s (.closeSpan provider key)) where
  running := by
    simp only [step, Usage.step, closeSpan]
    rw [← h.running, ← map_pop]
    cases hlook : get? s.meter.openSpans (provider, key) with
    | none => rw [pop_of_none hlook]
    | some span => rfl
  amount := by
    intro p f
    have hbefore := h.amount p f
    simp only [step, Usage.step, closeSpan, Usage.amount] at hbefore ⊢
    cases hlook : get? s.meter.openSpans (provider, key) with
    | none => exact hbefore
    | some span =>
      obtain ⟨started, field⟩ := span
      rw [sum_pop (share s.now p f) hlook] at hbefore
      have hslot : inSlot { s.meter with
            openSpans := pop s.meter.openSpans (provider, key)
            providers := set s.meter.providers provider
              (addTo (slotLocked s.meter provider) (field, s.now - started)) } p f =
          inSlot s.meter p f + share s.now p f ((provider, key), (started, field)) := by
        refine (inSlot_set s.meter provider p f _).trans ?_
        rw [get?_addTo, get?_slotLocked]
        unfold share
        by_cases hp : p = provider
        · simp [hp]
        · simp [hp, Ne.symm hp]
      simp only [hslot]
      linarith
  gaugeKeys := by
    simp only [step, closeSpan]
    split
    · exact h.gaugeKeys
    · exact h.gaugeKeys
  peak := by
    simp only [step, closeSpan]
    split
    · exact h.peak
    · exact h.peak
  calls := by
    simp only [step, closeSpan]
    split
    · exact h.calls
    · exact h.calls

theorem step (h : Follows u s) (e : Event) : Follows (u.step e) (UsageMeter.step s e) := by
  cases e with
  | wait d => exact h.wait d
  | recordApiRequest provider r => exact h.recorded provider r
  | recordToolCall name => exact h.called name
  | setGauge provider field value => exact h.gauged provider field value
  | openSpan provider key field => exact h.opened provider key field
  | closeSpan provider key => exact h.closed provider key

end Follows

theorem follows_run (log : List Event) : Follows (usage log) (run log) := by
  unfold usage run
  induction log using List.reverseRecOn with
  | nil => exact ⟨rfl, fun _ _ => rfl, List.nodup_nil, fun _ _ => rfl, fun _ => rfl⟩
  | append_singleton log e ih =>
    rw [List.foldl_concat, List.foldl_concat]
    exact ih.step e

/-! ### Quiet fields -/

section Quiet

variable {p f : String}

/-- No span of the field runs or ran. -/
structure Quiet (u : Usage) (p f : String) : Prop where
  elapsed : u.elapsed p f = 0
  running : ∀ s ∈ u.running, ¬ (s.1.1 = p ∧ s.2 = f)

theorem Quiet.spans {u : Usage} (h : Quiet u p f) : u.spans p f = 0 := by
  unfold Usage.spans
  rw [List.countP_eq_zero]
  intro s hs
  simpa using h.running s hs

theorem Quiet.step {u : Usage} (h : Quiet u p f) {e : Event} (he : ∀ key, e ≠ .openSpan p key f) :
    Quiet (u.step e) p f := by
  cases e with
  | wait d =>
    refine ⟨?_, h.running⟩
    simp only [Usage.step]
    rw [h.elapsed, h.spans, Nat.cast_zero, mul_zero, add_zero]
  | recordApiRequest provider r => exact ⟨h.elapsed, h.running⟩
  | recordToolCall name => exact ⟨h.elapsed, h.running⟩
  | setGauge provider field value => exact ⟨h.elapsed, h.running⟩
  | openSpan provider key field =>
    refine ⟨h.elapsed, fun s hs => ?_⟩
    simp only [Usage.step, setdefault] at hs
    split at hs
    · rcases List.mem_append.mp hs with hs | hs
      · exact h.running s hs
      · obtain rfl := List.mem_singleton.mp hs
        rintro ⟨rfl, rfl⟩
        exact he key rfl
    · exact h.running s hs
  | closeSpan provider key => exact ⟨h.elapsed, fun s hs => h.running s (List.mem_of_mem_eraseP hs)⟩

theorem quiet_usage {log : List Event} (h : ¬ Spanned log p f) : Quiet (usage log) p f := by
  unfold usage
  induction log using List.reverseRecOn with
  | nil => exact ⟨rfl, by simp⟩
  | append_singleton log e ih =>
    rw [List.foldl_concat]
    refine (ih ?_).step fun key heq => h ⟨key, ?_⟩
    · rintro ⟨key, hkey⟩
      exact h ⟨key, List.mem_append_left _ hkey⟩
    · exact heq ▸ List.mem_append_right _ (List.mem_singleton_self e)

/-- Requests and the like come as integers only. -/
theorem recorded_base (hf : f ∈ baseFields) (log : List Event) :
    (usage log).recorded p f ∈ (Int.castAddHom ℚ).range := by
  unfold usage
  induction log using List.reverseRecOn with
  | nil => exact zero_mem _
  | append_singleton log e ih =>
    rw [List.foldl_concat]
    cases e with
    | recordApiRequest provider r =>
      have htotal : r.total f ∈ (Int.castAddHom ℚ).range := by
        refine list_sum_mem fun x hx => ?_
        obtain ⟨e, he, rfl⟩ := List.mem_map.mp hx
        split
        · next heq =>
          simp only [Record.amounts, List.mem_cons] at he
          rcases he with rfl | rfl | rfl | rfl | he
          · exact ⟨r.requests, rfl⟩
          · exact ⟨r.cacheHits, rfl⟩
          · exact ⟨r.retries, rfl⟩
          · exact ⟨r.errors, rfl⟩
          · exact absurd (heq ▸ hf) (r.extra_free e he)
        · exact zero_mem _
      simp only [Usage.step]
      split
      · exact add_mem ih htotal
      · exact ih
    | wait d => exact ih
    | recordToolCall name => exact ih
    | setGauge provider field value => exact ih
    | openSpan provider key field => exact ih
    | closeSpan provider key => exact ih

end Quiet

/-! ### Views -/

section Views

variable (apis : Apis) (p f : String)

theorem get?_viewOf : (get? (viewOf apis p) f).getD (.int 0) = getIn apis p f := by
  unfold viewOf getIn
  cases get? apis p with
  | some view => rfl
  | none =>
    rw [Option.getD_none, Option.bind_none, Option.getD_none]
    unfold emptySlot baseFields
    simp only [List.map_cons, List.map_nil, get?_cons]
    split_ifs <;> rfl

theorem getIn_set (provider : String) (view : View) :
    getIn (set apis provider view) p f =
      if p = provider then (get? view f).getD (.int 0) else getIn apis p f := by
  unfold getIn
  rw [get?_set]
  by_cases h : p = provider
  · rw [if_pos h, if_pos h, Option.bind_some]
  · rw [if_neg h, if_neg h]

theorem getIn_renderSlot (m : Meter) :
    getIn (m.providers.map fun e => (e.1, renderSlot e.2)) p f =
      (((get? m.providers p).bind fun slot => get? slot f).map (render f)).getD (.int 0) := by
  unfold getIn
  rw [get?_map fun _ slot => renderSlot slot]
  cases get? m.providers p with
  | none => rfl
  | some slot =>
    rw [Option.map_some, Option.bind_some, Option.bind_some]
    unfold renderSlot
    rw [get?_map render]

variable {f} in
theorem abs_renderSlot_sub (m : Meter) (hf : f ∉ baseFields) :
    |(getIn (m.providers.map fun e => (e.1, renderSlot e.2)) p f).toFloat - inSlot m p f| ≤ 1 / 200 := by
  rw [getIn_renderSlot]
  unfold inSlot
  cases (get? m.providers p).bind fun slot => get? slot f with
  | none =>
    simp only [Option.map_none, Option.getD_none, Num.toFloat, Int.cast_zero, sub_zero, abs_zero]
    norm_num
  | some x =>
    rw [Option.map_some, Option.getD_some, Option.getD_some]
    unfold render
    rw [if_neg hf, Num.toFloat_float]
    exact abs_round2_sub x

variable {f} in
theorem getIn_renderSlot_base {m : Meter} (hf : f ∈ baseFields) {n : ℤ} (hn : inSlot m p f = n) :
    getIn (m.providers.map fun e => (e.1, renderSlot e.2)) p f = .int n := by
  rw [getIn_renderSlot]
  unfold inSlot at hn
  cases hget : (get? m.providers p).bind fun slot => get? slot f with
  | none =>
    rw [hget, Option.getD_none] at hn
    rw [Option.map_none, Option.getD_none, ← Int.cast_eq_zero.mp hn.symm]
  | some x =>
    rw [hget, Option.getD_some] at hn
    rw [Option.map_some, Option.getD_some]
    unfold render
    rw [if_pos hf, hn, truncate_intCast]

variable {f} in
theorem toFloat_renderSlot_zero {m : Meter} (hf : f ∉ baseFields) (h : inSlot m p f = 0) :
    (getIn (m.providers.map fun e => (e.1, renderSlot e.2)) p f).toFloat = 0 := by
  rw [getIn_renderSlot]
  unfold inSlot at h
  cases hget : (get? m.providers p).bind fun slot => get? slot f with
  | none => exact Int.cast_zero
  | some x =>
    rw [hget, Option.getD_some] at h
    rw [Option.map_some, Option.getD_some]
    unfold render
    rw [if_neg hf, Num.toFloat_float, h, round2_zero]

theorem getIn_addSpan_spansOpen (now : ℚ) (span : SpanKey × Span) (h : ¬ (span.1.1 = p ∧ span.2.2 = "spans_open")) :
    getIn (addSpan now apis span) p "spans_open" =
      if span.1.1 = p then .int ((getIn apis p "spans_open").toInt + 1) else getIn apis p "spans_open" := by
  unfold addSpan
  rw [getIn_set]
  by_cases hp : p = span.1.1
  · have hfield : "spans_open" ≠ span.2.2 := fun heq => h ⟨hp.symm, heq.symm⟩
    rw [if_pos hp, if_pos hp.symm, get?_set, if_pos rfl, Option.getD_some, get?_set, if_neg hfield,
      ← get?_viewOf apis p, hp]
    cases get? (viewOf apis span.1.1) "spans_open" <;> rfl
  · rw [if_neg hp, if_neg (Ne.symm hp)]

theorem getIn_addSpan (now : ℚ) (span : SpanKey × Span) (h : f ≠ "spans_open") :
    getIn (addSpan now apis span) p f =
      if span.1.1 = p ∧ span.2.2 = f then .float (round2 ((getIn apis p f).toFloat + now - span.2.1))
      else getIn apis p f := by
  unfold addSpan
  rw [getIn_set]
  by_cases hp : p = span.1.1
  · rw [if_pos hp, get?_set, if_neg h, get?_set, ← get?_viewOf apis p, ← hp]
    by_cases hf : f = span.2.2
    · rw [if_pos hf, if_pos ⟨rfl, hf.symm⟩, Option.getD_some, ← hf]
      cases get? (viewOf apis p) f <;> rfl
    · rw [if_neg hf, if_neg (fun hand => hf hand.2.symm)]
  · rw [if_neg hp, if_neg (fun hand => hp hand.1.symm)]

theorem getIn_addGauge (gauge : (String × String) × ℚ) :
    getIn (addGauge apis gauge) p f = if (p, f) = gauge.1 then .float (round2 gauge.2) else getIn apis p f := by
  unfold addGauge
  rw [getIn_set]
  by_cases h : (p, f) = gauge.1
  · have hp : p = gauge.1.1 := congrArg Prod.fst h
    have hf : f = gauge.1.2 := congrArg Prod.snd h
    rw [if_pos h, if_pos hp, get?_set, if_pos hf, Option.getD_some]
  · rw [if_neg h]
    by_cases hp : p = gauge.1.1
    · have hf : f ≠ gauge.1.2 := fun hf => h (Prod.ext hp hf)
      rw [if_pos hp, get?_set, if_neg hf, ← hp, get?_viewOf]
    · rw [if_neg hp]

variable {p f}

theorem getIn_addGauges_none {gauges : List ((String × String) × ℚ)} (h : get? gauges (p, f) = none) :
    getIn (gauges.foldl addGauge apis) p f = getIn apis p f := by
  induction gauges generalizing apis with
  | nil => rfl
  | cons gauge gauges ih =>
    rw [get?_cons] at h
    split at h
    · cases h
    · next hne => rw [List.foldl_cons, ih _ h, getIn_addGauge, if_neg hne]

theorem getIn_addGauges_some {gauges : List ((String × String) × ℚ)} (hkeys : (gauges.map Prod.fst).Nodup) {x : ℚ}
    (h : get? gauges (p, f) = some x) : getIn (gauges.foldl addGauge apis) p f = .float (round2 x) := by
  induction gauges generalizing apis with
  | nil => cases h
  | cons gauge gauges ih =>
    rw [List.map_cons, List.nodup_cons] at hkeys
    rw [get?_cons] at h
    rw [List.foldl_cons]
    split at h
    · next heq =>
      have hlater : get? gauges (p, f) = none := get?_eq_none (heq ▸ hkeys.1)
      rw [getIn_addGauges_none _ hlater, getIn_addGauge, if_pos heq, Option.some.inj h]
    · exact ih _ hkeys.2 h

/-- Each open span is rounded on its own, so each may be off by half a hundredth. -/
theorem abs_addSpans_sub (hf : f ≠ "spans_open") (now : ℚ) (spans : List (SpanKey × Span)) :
    |(getIn (spans.foldl (addSpan now) apis) p f).toFloat -
        ((getIn apis p f).toFloat + (spans.map (share now p f)).sum)| ≤
      (spans.countP fun e => e.1.1 = p ∧ e.2.2 = f : ℕ) / 200 := by
  induction spans generalizing apis with
  | nil => simp
  | cons span spans ih =>
    have hrest := ih (addSpan now apis span)
    rw [getIn_addSpan apis p f now span hf] at hrest
    rw [List.foldl_cons, List.map_cons, List.sum_cons]
    by_cases h : span.1.1 = p ∧ span.2.2 = f
    · have hshare : share now p f span = now - span.2.1 := if_pos h
      have hround := abs_le.mp (abs_round2_sub ((getIn apis p f).toFloat + now - span.2.1))
      rw [if_pos h, Num.toFloat_float, abs_le] at hrest
      rw [List.countP_cons_of_pos (by simpa using h), hshare, abs_le, Nat.cast_succ]
      constructor <;> linarith [hrest.1, hrest.2, hround.1, hround.2]
    · have hshare : share now p f span = 0 := if_neg h
      rw [if_neg h] at hrest
      rw [List.countP_cons_of_neg (by simpa using h), hshare, zero_add]
      exact hrest

/-- Without spans of the field nothing is added, not even a rounding. -/
theorem getIn_addSpans_of_quiet (hf : f ≠ "spans_open") (now : ℚ) {spans : List (SpanKey × Span)}
    (h : ∀ e ∈ spans, ¬ (e.1.1 = p ∧ e.2.2 = f)) :
    getIn (spans.foldl (addSpan now) apis) p f = getIn apis p f := by
  induction spans generalizing apis with
  | nil => rfl
  | cons span spans ih =>
    rw [List.forall_mem_cons] at h
    rw [List.foldl_cons, ih _ h.2, getIn_addSpan apis p f now span hf, if_neg h.1]

theorem toFloat_addSpans_spansOpen (now : ℚ) {spans : List (SpanKey × Span)}
    (h : ∀ e ∈ spans, ¬ (e.1.1 = p ∧ e.2.2 = "spans_open")) {n : ℤ} (hn : (getIn apis p "spans_open").toFloat = n) :
    (getIn (spans.foldl (addSpan now) apis) p "spans_open").toFloat =
      n + (spans.countP fun e => e.1.1 = p : ℕ) := by
  induction spans generalizing apis n with
  | nil => simpa using hn
  | cons span spans ih =>
    rw [List.forall_mem_cons] at h
    rw [List.foldl_cons]
    have hone := getIn_addSpan_spansOpen apis p now span h.1
    by_cases hp : span.1.1 = p
    · rw [if_pos hp, Num.toInt_of_toFloat hn] at hone
      rw [ih _ h.2 (n := n + 1) (by rw [hone]; rfl), List.countP_cons_of_pos (by simpa using hp)]
      push_cast
      ring
    · rw [if_neg hp] at hone
      rw [ih _ h.2 (hone ▸ hn), List.countP_cons_of_neg (by simpa using hp)]

end Views

/-! ### Snapshots -/

theorem Follows.quiet {u : Usage} {s : Clocked} (h : Follows u s) {p f : String} (hq : Quiet u p f) :
    (∀ e ∈ s.meter.openSpans, ¬ (e.1.1 = p ∧ e.2.2 = f)) ∧ inSlot s.meter p f = u.recorded p f := by
  have hnone : ∀ e ∈ s.meter.openSpans, ¬ (e.1.1 = p ∧ e.2.2 = f) := fun e he =>
    hq.running _ (h.running ▸ List.mem_map_of_mem he)
  refine ⟨hnone, ?_⟩
  have hshares : (s.meter.openSpans.map (share s.now p f)).sum = 0 := by
    refine List.sum_eq_zero fun x hx => ?_
    obtain ⟨e, he, rfl⟩ := List.mem_map.mp hx
    exact if_neg (hnone e he)
  have hamount := h.amount p f
  rw [hshares, add_zero, Usage.amount, hq.elapsed, add_zero] at hamount
  exact hamount

/-- A span that is opened twice runs once, and its time is in the snapshot before it is closed. -/
example :
    let log : List Event :=
      [.wait 10, .openSpan "sandbox" "one" "sandbox_seconds", .wait (5 / 2),
        .openSpan "sandbox" "one" "sandbox_seconds", .setGauge "sandbox" "ttl" 30, .setGauge "sandbox" "ttl" 20,
        .wait (3 / 2)]
    (snapshot (run log).meter (run log).now).externalApis =
      [("sandbox", emptySlot ++ [("sandbox_seconds", .float 4), ("spans_open", .int 1), ("ttl", .float 30)])] := by
  decide +kernel

end AgentCore.UsageMeter
