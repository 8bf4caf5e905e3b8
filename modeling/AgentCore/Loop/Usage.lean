/-
# Token usage of a response

`extract_usage` of `_response.py` for the responses that are no `LLMResponse`.
The counts stand in the canonical `usage_metadata` map or in the raw
`token_usage` of the response metadata, each with its own aliases, and a count
the canonical map lacks is looked up in the raw one. The raw branch also adds
the nested 1h and 5m counters of `cache_creation`, which the look-up of the
canonical branch does not know.

A value is what `json` reads. `Builtins` holds what Python does with a float and
the `str` of a value; a float is finite or not a number. `usage_metadata` is the
dictionary it has been turned into.

Key definitions: `pickInt`, `extractUsage`.
Key theorem: `usage_presentations_agree`.
-/
import AgentCore.Loop.Arguments
import AgentCore.AgentBus.Comm

namespace AgentCore
namespace Usage

open PyJson ToolCalls

/-- What Python does with the values the counts are read from. -/
structure Builtins (F : Type) where
  /-- `not x` of a float. -/
  isZero : F → Bool
  /-- `int(x)` of a float, nothing for one that is not a number. -/
  intOfFloat : F → Option ℤ
  str : Value F → List Char

variable {F : Type} (py : Builtins F)

abbrev Dict (F : Type) := List (List Char × Value F)

/-- `d.get(key)`. -/
def get (d : Dict F) (key : String) : Value F := (d.lookup key.toList).getD .null

/-- `a or b`. -/
def orValue (a b : Value F) : Value F := if truthy py.isZero a then a else b

/-- `d.get(key) or {}`, and `{}` when that is no dictionary. -/
def getDict (d : Dict F) (key : String) : Dict F :=
  match get d key with
  | .obj kvs => kvs
  | _ => []

/-! ### `int` of a text -/

/-- The digits of a number, single underscores between them, the most
significant first. `sep` says that an underscore may come now. -/
def digitsOf (sep : Bool) : List Char → Option (List ℕ)
  | [] => if sep then some [] else none
  | '_' :: cs => if sep then digitsOf false cs else none
  | c :: cs =>
    match AgentComm.decimalDigit c with
    | some d => (digitsOf true cs).map (d :: ·)
    | none => none

def natOfText (cs : List Char) : Option ℤ :=
  match digitsOf false cs with
  | some ds => if maxDigits < ds.length then none else some (ds.foldl (fun n d => 10 * n + d) 0 : ℕ)
  | none => none

/-- `int(s)` of a text, nothing where it raises. -/
def intOfText (s : List Char) : Option ℤ :=
  match (Text.strip (String.ofList s)).toList with
  | '-' :: cs => (natOfText cs).map (- ·)
  | '+' :: cs => natOfText cs
  | cs => natOfText cs

/-- `int(v)`, nothing where it raises. -/
def toInt : Value F → Option ℤ
  | .null => none
  | .bool b => some (if b then 1 else 0)
  | .int n => some n
  | .float x => py.intOfFloat x
  | .str s => intOfText s
  | .arr _ => none
  | .obj _ => none

/-- `_pick_int`. -/
def pickInt : List (Value F) → ℤ
  | [] => 0
  | v :: vs =>
    match toInt py v with
    | none => pickInt vs
    | some n => if n ≠ 0 then n else pickInt vs

/-! ### Both branches -/

/-- What a branch has found. `cached` is the cache read, `cacheCreate` the cache
write. -/
structure Counts where
  inp : ℤ
  out : ℤ
  cached : ℤ
  cacheCreate : ℤ
  reasoning : ℤ
deriving DecidableEq, Repr

structure UsageMetadata where
  provider : List Char
  model : List Char
  promptTokens : ℤ
  completionTokens : ℤ
  cacheReadTokens : ℤ
  cacheWriteTokens : ℤ
  cachedTokens : ℤ
  cacheCreationTokens : ℤ
  reasoningTokens : ℤ
deriving DecidableEq, Repr

def providerOf (rmd : Dict F) : List Char := py.str (orValue py (get rmd "provider_actually_used") (.str []))

def modelOf (rmd : Dict F) : List Char :=
  py.str (orValue py (get rmd "model_name") (orValue py (get rmd "model")
    (orValue py (get rmd "model_actually_used") (.str []))))

/-- `_build`. -/
def build (rmd : Dict F) (c : Counts) : UsageMetadata where
  provider := providerOf py rmd
  model := modelOf py rmd
  promptTokens := c.inp
  completionTokens := c.out
  cacheReadTokens := c.cached
  cacheWriteTokens := c.cacheCreate
  cachedTokens := c.cached + c.cacheCreate
  cacheCreationTokens := c.cacheCreate
  reasoningTokens := c.reasoning

/-- The counts of the canonical map. -/
def canonicalCounts (um : Dict F) : Counts :=
  let idetails := getDict um "input_token_details"
  let odetails := getDict um "output_token_details"
  { inp := pickInt py [get um "input_tokens", get um "prompt_tokens"]
    out := pickInt py [get um "output_tokens", get um "completion_tokens"]
    cached := pickInt py [get idetails "cache_read"]
    cacheCreate := pickInt py [get idetails "cache_creation"]
    reasoning := pickInt py [get odetails "reasoning"] }

/-- The names the gateways give the cache read. -/
def readFields (tu : Dict F) : List (Value F) :=
  let ptd := getDict tu "prompt_tokens_details"
  [get ptd "cached_tokens", get tu "cache_read_input_tokens", get ptd "cache_read_input_tokens",
    get ptd "cache_read_tokens", get tu "cache_read_tokens"]

def rawRead (tu : Dict F) : ℤ := pickInt py (readFields tu)

/-- The names of the flat counter of the cache write, at the root or in the
details. -/
def flatFields (tu : Dict F) : List (Value F) :=
  let ptd := getDict tu "prompt_tokens_details"
  [get tu "cache_creation_input_tokens", get ptd "cache_creation_input_tokens",
    get ptd "cache_creation_tokens", get ptd "cache_write_tokens", get tu "cache_write_tokens"]

def flatWrite (tu : Dict F) : ℤ := pickInt py (flatFields tu)

def reasoningFields (tu : Dict F) : List (Value F) :=
  let ctd := getDict tu "completion_tokens_details"
  [get ctd "reasoning_tokens", get tu "reasoning_tokens"]

def rawReasoning (tu : Dict F) : ℤ := pickInt py (reasoningFields tu)

/-- The nested field of the 1h writes. -/
def field1h (tu : Dict F) : Value F := get (getDict tu "cache_creation") "ephemeral_1h_input_tokens"

/-- The nested field of the 5m writes. -/
def field5m (tu : Dict F) : Value F := get (getDict tu "cache_creation") "ephemeral_5m_input_tokens"

def nested1h (tu : Dict F) : ℤ := pickInt py [field1h tu]

def nested5m (tu : Dict F) : ℤ := pickInt py [field5m tu]

/-- Whether the root has a flat counter, as the guard of the 5m count sees it. -/
def rootWrite (tu : Dict F) : Bool := truthy py.isZero (get tu "cache_creation_input_tokens")

/-- What the nested counters add to the flat one. -/
def nestedWrite (tu : Dict F) : ℤ := nested1h py tu + if rootWrite py tu then 0 else nested5m py tu

/-- The counts of a raw usage. -/
def rawCounts (tu : Dict F) : Counts where
  inp := pickInt py [get tu "prompt_tokens", get tu "input_tokens"]
  out := pickInt py [get tu "completion_tokens", get tu "output_tokens"]
  cached := rawRead py tu
  cacheCreate := flatWrite py tu + nestedWrite py tu
  reasoning := rawReasoning py tu

/-- The raw shape is looked up for what the canonical pass found nothing of. -/
def crossCheck (c : Counts) (tuRaw : Value F) : Counts :=
  match tuRaw with
  | .obj tu =>
    { c with
      cached := if c.cached = 0 then rawRead py tu else c.cached
      cacheCreate := if c.cacheCreate = 0 then flatWrite py tu else c.cacheCreate
      reasoning := if c.reasoning = 0 then rawReasoning py tu else c.reasoning }
  | _ => c

/-- `rmd.get("token_usage") or rmd.get("usage")`. -/
def tokenUsage (rmd : Dict F) : Value F := orValue py (get rmd "token_usage") (get rmd "usage")

def canonicalUsage (rmd um : Dict F) : Option UsageMetadata :=
  let c := canonicalCounts py um
  if c.inp ≠ 0 ∨ c.out ≠ 0 then
    if c.cached = 0 ∨ c.cacheCreate = 0 ∨ c.reasoning = 0 then
      some (build py rmd (crossCheck py c (tokenUsage py rmd)))
    else some (build py rmd c)
  else none

def rawUsage (rmd : Dict F) : Option UsageMetadata :=
  match tokenUsage py rmd with
  | .obj tu =>
    let c := rawCounts py tu
    if c.inp ≠ 0 ∨ c.out ≠ 0 then some (build py rmd c) else none
  | _ => none

/-- `extract_usage` of a response with this `usage_metadata` and this
`response_metadata`. -/
def extractUsage (um : Option (Dict F)) (rmd : Dict F) : Option UsageMetadata :=
  (um.bind (canonicalUsage py rmd)).orElse fun _ => rawUsage py rmd

/-! ### The ways to present a payload -/

/-- The payload as the canonical map. -/
def asCanonical (p : Dict F) : Option UsageMetadata := extractUsage py (some p) []

/-- The payload as the raw usage of the metadata. -/
def asRaw (p : Dict F) : Option UsageMetadata := extractUsage py none [("token_usage".toList, .obj p)]

/-- The canonical map of a gateway that fills in the two totals only. -/
def totals (p : Dict F) : Dict F :=
  [("input_tokens".toList, .int (rawCounts py p).inp), ("output_tokens".toList, .int (rawCounts py p).out)]

/-- The payload as the raw usage, with the totals as the canonical map. -/
def besideTotals (p : Dict F) : Option UsageMetadata :=
  extractUsage py (some (totals py p)) [("token_usage".toList, .obj p)]

/-! ### What the fields of a payload say -/

/-- The field is a count: a number that is not zero, as `int` reads it. -/
def Says (v : Value F) (n : ℤ) : Prop := toInt py v = some n ∧ n ≠ 0

/-- The field is missing, zero or nothing `int` reads. -/
def Blank (v : Value F) : Prop := ∀ n, ¬Says py v n

/-- The first field that is a count says so many. -/
inductive Leads : List (Value F) → ℤ → Prop
  | here {v : Value F} {vs : List (Value F)} {n : ℤ} (h : Says py v n) : Leads (v :: vs) n
  | later {v : Value F} {vs : List (Value F)} {n : ℤ} (hv : Blank py v) (h : Leads vs n) : Leads (v :: vs) n

/-- The fields, names of one count, say so many: the first that is a count, and
zero where none is. -/
def Total (vs : List (Value F)) (n : ℤ) : Prop := Leads py vs n ∨ (∀ v ∈ vs, Blank py v) ∧ n = 0

/-- Two names of one count that both are one, and not the same. -/
def Clash (a b : Value F) : Prop := ∃ m n, Says py a m ∧ Says py b n ∧ m ≠ n

/-- The payload has no prompt and no completion token under any name. -/
def Silent (p : Dict F) : Prop :=
  (Blank py (get p "prompt_tokens") ∧ Blank py (get p "input_tokens")) ∧
    Blank py (get p "completion_tokens") ∧ Blank py (get p "output_tokens")

/-- The nested fields add nothing: the 1h field is blank and the 5m field is
blank or guarded by the root, or they are opposite numbers. -/
def NestedSilent (p : Dict F) : Prop :=
  (Blank py (field1h p) ∧ (rootWrite py p = true ∨ Blank py (field5m p))) ∨
    (rootWrite py p = false ∧ ∃ n, Says py (field1h p) n ∧ Says py (field5m p) (-n))

/-- What the nested fields say together: a root that is a count hides the 5m
field. -/
def NestedTotal (p : Dict F) (n : ℤ) : Prop :=
  ∃ h m, Total py [field1h p] h ∧ Total py (if rootWrite py p then [] else [field5m p]) m ∧ n = h + m

/-- The canonical detail fields of the payload say what its raw fields say. -/
structure SameDetails (p : Dict F) : Prop where
  cached : ∃ n, Total py [get (getDict p "input_token_details") "cache_read"] n ∧ Total py (readFields p) n
  cacheCreate : ∃ flat nested, Total py (flatFields p) flat ∧ NestedTotal py p nested ∧
    Total py [get (getDict p "input_token_details") "cache_creation"] (flat + nested)
  reasoning : ∃ n, Total py [get (getDict p "output_token_details") "reasoning"] n ∧ Total py (reasoningFields p) n

/-- The flat counter is the 5m count, so only the 1h count comes on top of it. -/
def CountedOnce (p : Dict F) : Prop :=
  ∀ u, asRaw py p = some u → flatWrite py p ≠ 0 → u.cacheWriteTokens = flatWrite py p + nested1h py p

variable {py}

theorem pickInt_cons (v : Value F) (vs : List (Value F)) :
    pickInt py (v :: vs) = if pickInt py [v] = 0 then pickInt py vs else pickInt py [v] := by
  cases hv : toInt py v with
  | none =>
    have h : ∀ ws, pickInt py (v :: ws) = pickInt py ws := fun ws => by rw [pickInt, hv]
    rw [h vs, h []]
    exact (if_pos rfl).symm
  | some n =>
    have h : ∀ ws, pickInt py (v :: ws) = if n ≠ 0 then n else pickInt py ws := fun ws => by rw [pickInt, hv]
    rw [h vs, h []]
    by_cases hn : n = 0
    · rw [if_neg (not_not_intro hn), if_neg (not_not_intro hn)]
      exact (if_pos rfl).symm
    · rw [if_pos hn, if_pos hn, if_neg hn]

theorem pickInt_said {v : Value F} {n : ℤ} (h : Says py v n) (vs : List (Value F)) : pickInt py (v :: vs) = n := by
  rw [pickInt, h.1]
  exact if_pos h.2

theorem pickInt_of_blank {v : Value F} (h : Blank py v) (vs : List (Value F)) : pickInt py (v :: vs) = pickInt py vs := by
  rw [pickInt]
  cases hv : toInt py v with
  | none => rfl
  | some n => exact if_neg fun hn => h n ⟨hv, hn⟩

/-- A field is a count or blank. -/
theorem says_or_blank (v : Value F) : (∃ n, Says py v n) ∨ Blank py v := by
  by_cases h : ∃ n, Says py v n
  · exact Or.inl h
  · exact Or.inr fun n hn => h ⟨n, hn⟩

theorem pickInt_of_leads {vs : List (Value F)} {n : ℤ} (h : Leads py vs n) : pickInt py vs = n ∧ n ≠ 0 := by
  induction h with
  | here h => exact ⟨pickInt_said h _, h.2⟩
  | later hv _ ih => exact ⟨(pickInt_of_blank hv _).trans ih.1, ih.2⟩

/-- `_pick_int` is what the fields say. -/
theorem total_iff (vs : List (Value F)) (n : ℤ) : Total py vs n ↔ pickInt py vs = n := by
  constructor
  · rintro (h | ⟨h, rfl⟩)
    · exact (pickInt_of_leads h).1
    · induction vs with
      | nil => rfl
      | cons v vs ih =>
        rw [pickInt_of_blank (h v List.mem_cons_self)]
        exact ih fun w hw => h w (List.mem_cons_of_mem _ hw)
  · rintro rfl
    induction vs with
    | nil => exact Or.inr ⟨fun _ h => absurd h List.not_mem_nil, rfl⟩
    | cons v vs ih =>
      rcases says_or_blank v with ⟨n, hv⟩ | hv
      · rw [pickInt_said hv]
        exact Or.inl (Leads.here hv)
      · rw [pickInt_of_blank hv]
        rcases ih with h | ⟨h, hzero⟩
        · exact Or.inl (Leads.later hv h)
        · refine Or.inr ⟨fun w hw => ?_, hzero⟩
          rcases List.mem_cons.mp hw with rfl | hw
          · exact hv
          · exact h w hw

/-- The fields say nothing exactly where all of them are blank. -/
theorem pickInt_eq_zero_iff (vs : List (Value F)) : pickInt py vs = 0 ↔ ∀ v ∈ vs, Blank py v := by
  rw [← total_iff]
  constructor
  · rintro (h | h)
    · exact absurd rfl (pickInt_of_leads h).2
    · exact h.1
  · exact fun h => Or.inr ⟨h, rfl⟩

theorem blank_iff (v : Value F) : Blank py v ↔ pickInt py [v] = 0 := by
  rw [pickInt_eq_zero_iff, List.forall_mem_singleton]

theorem says_iff (v : Value F) (n : ℤ) : Says py v n ↔ pickInt py [v] = n ∧ n ≠ 0 := by
  constructor
  · exact fun h => ⟨pickInt_said h [], h.2⟩
  · rintro ⟨rfl, hn⟩
    rcases says_or_blank v with ⟨m, hv⟩ | hv
    · rwa [pickInt_said hv]
    · exact absurd ((blank_iff v).mp hv) hn

theorem clash_iff (a b : Value F) :
    Clash py a b ↔ pickInt py [a] ≠ 0 ∧ pickInt py [b] ≠ 0 ∧ pickInt py [a] ≠ pickInt py [b] := by
  constructor
  · rintro ⟨m, n, hm, hn, hne⟩
    rw [pickInt_said hm, pickInt_said hn]
    exact ⟨hm.2, hn.2, hne⟩
  · rintro ⟨ha, hb, hne⟩
    exact ⟨_, _, (says_iff a _).mpr ⟨rfl, ha⟩, (says_iff b _).mpr ⟨rfl, hb⟩, hne⟩

theorem pickInt_pair_eq_zero_iff (a b : Value F) :
    pickInt py [a, b] = 0 ↔ pickInt py [a] = 0 ∧ pickInt py [b] = 0 := by
  rw [pickInt_cons a [b]]
  by_cases ha : pickInt py [a] = 0
  · rw [if_pos ha]
    exact ⟨fun h => ⟨ha, h⟩, fun h => h.2⟩
  · rw [if_neg ha]
    exact ⟨fun h => absurd h ha, fun h => absurd h.1 ha⟩

theorem pickInt_swap_eq_zero_iff (a b : Value F) : pickInt py [a, b] = 0 ↔ pickInt py [b, a] = 0 := by
  rw [pickInt_pair_eq_zero_iff, pickInt_pair_eq_zero_iff]
  exact and_comm

/-- The order of two names matters exactly where they clash. -/
theorem pickInt_swap_iff (a b : Value F) : pickInt py [a, b] = pickInt py [b, a] ↔ ¬Clash py a b := by
  rw [pickInt_cons a [b], pickInt_cons b [a], clash_iff]
  by_cases ha : pickInt py [a] = 0
  · by_cases hb : pickInt py [b] = 0
    · rw [if_pos ha, if_pos hb, ha, hb]
      exact ⟨fun _ h => h.1 rfl, fun _ => rfl⟩
    · rw [if_pos ha, if_neg hb]
      exact ⟨fun _ h => h.1 ha, fun _ => rfl⟩
  · by_cases hb : pickInt py [b] = 0
    · rw [if_neg ha, if_pos hb]
      exact ⟨fun _ h => h.2.1 hb, fun _ => rfl⟩
    · rw [if_neg ha, if_neg hb]
      exact ⟨fun h c => c.2.2 h, fun h => by_contra fun hne => h ⟨ha, hb, hne⟩⟩

theorem silent_iff (p : Dict F) : Silent py p ↔ (rawCounts py p).inp = 0 ∧ (rawCounts py p).out = 0 := by
  have hpair : ∀ a b : Value F, (Blank py a ∧ Blank py b) ↔ pickInt py [a, b] = 0 := by
    intro a b
    rw [blank_iff, blank_iff, pickInt_pair_eq_zero_iff]
  exact and_congr (hpair _ _) (hpair _ _)

theorem nestedTotal_iff (p : Dict F) (n : ℤ) : NestedTotal py p n ↔ nestedWrite py p = n := by
  have hguard : pickInt py (if rootWrite py p then [] else [field5m p]) = if rootWrite py p then 0 else nested5m py p := by
    split
    · rfl
    · rfl
  constructor
  · rintro ⟨h, m, hh, hm, rfl⟩
    rw [total_iff] at hh hm
    rw [← hh, ← hm, hguard]
    rfl
  · rintro rfl
    exact ⟨nested1h py p, _, (total_iff _ _).mpr rfl, (total_iff _ _).mpr hguard, rfl⟩

theorem nestedSilent_iff (p : Dict F) : NestedSilent py p ↔ nestedWrite py p = 0 := by
  unfold NestedSilent nestedWrite
  rw [blank_iff, blank_iff]
  cases hroot : rootWrite py p with
  | true =>
    rw [if_pos rfl, Int.add_zero]
    constructor
    · rintro (h | h)
      · exact h.1
      · exact absurd h.1 (by decide)
    · exact fun h => Or.inl ⟨h, Or.inl rfl⟩
  | false =>
    rw [if_neg (by decide)]
    constructor
    · rintro (⟨h1, h5⟩ | ⟨-, n, h1, h5⟩)
      · have h5' : nested5m py p = 0 := h5.resolve_left (by decide)
        have h1' : nested1h py p = 0 := h1
        omega
      · have h1' : nested1h py p = n := ((says_iff _ _).mp h1).1
        have h5' : nested5m py p = -n := ((says_iff _ _).mp h5).1
        omega
    · intro h
      by_cases h1 : nested1h py p = 0
      · exact Or.inl ⟨h1, Or.inr (by unfold nested5m at h; omega)⟩
      · have h5 : nested5m py p = -nested1h py p := by omega
        exact Or.inr ⟨rfl, _, (says_iff _ _).mpr ⟨rfl, h1⟩, (says_iff _ _).mpr ⟨h5, Int.neg_ne_zero.mpr h1⟩⟩

/-- Fields of two shapes that say the same are read alike. -/
theorem total_both_iff (vs ws : List (Value F)) :
    (∃ n, Total py vs n ∧ Total py ws n) ↔ pickInt py vs = pickInt py ws := by
  constructor
  · rintro ⟨n, hv, hw⟩
    rw [total_iff] at hv hw
    rw [hv, hw]
  · exact fun h => ⟨_, (total_iff vs _).mpr rfl, (total_iff ws _).mpr h.symm⟩

theorem sameDetails_iff (p : Dict F) :
    SameDetails py p ↔ (canonicalCounts py p).cached = (rawCounts py p).cached ∧
      (canonicalCounts py p).cacheCreate = (rawCounts py p).cacheCreate ∧
      (canonicalCounts py p).reasoning = (rawCounts py p).reasoning := by
  constructor
  · rintro ⟨hcached, ⟨flat, nested, hflat, hnested, hcanon⟩, hreasoning⟩
    rw [total_iff] at hflat hcanon
    rw [nestedTotal_iff] at hnested
    refine ⟨(total_both_iff _ _).mp hcached, ?_, (total_both_iff _ _).mp hreasoning⟩
    rw [← hflat, ← hnested] at hcanon
    exact hcanon
  · rintro ⟨hcached, hcanon, hreasoning⟩
    refine ⟨(total_both_iff _ _).mpr hcached, ?_, (total_both_iff _ _).mpr hreasoning⟩
    exact ⟨_, _, (total_iff _ _).mpr rfl, (nestedTotal_iff p _).mpr rfl, (total_iff _ _).mpr hcanon⟩

/-- What a branch reports of its counts. -/
def report (py : Builtins F) (rmd : Dict F) (c : Counts) : Option UsageMetadata :=
  if c.inp ≠ 0 ∨ c.out ≠ 0 then some (build py rmd c) else none

theorem report_of_silent {rmd : Dict F} {c : Counts} (hin : c.inp = 0) (hout : c.out = 0) : report py rmd c = none := by
  unfold report
  rw [if_neg]
  rintro (h | h)
  · exact h hin
  · exact h hout

theorem report_of_tokens {rmd : Dict F} {c : Counts} (h : c.inp ≠ 0 ∨ c.out ≠ 0) :
    report py rmd c = some (build py rmd c) := if_pos h

theorem build_inj {rmd rmd' : Dict F} (hp : providerOf py rmd = providerOf py rmd')
    (hm : modelOf py rmd = modelOf py rmd') {c c' : Counts} : build py rmd c = build py rmd' c' ↔ c = c' := by
  constructor
  · intro h
    obtain ⟨inp, out, cached, create, reasoning⟩ := c
    obtain ⟨inp', out', cached', create', reasoning'⟩ := c'
    unfold build at h
    injection h with _ _ h1 h2 h3 h4 _ _ h5
    dsimp only at h1 h2 h3 h4 h5
    rw [h1, h2, h3, h4, h5]
  · rintro rfl
    unfold build
    rw [hp, hm]

theorem asCanonical_eq (p : Dict F) : asCanonical py p = report py [] (canonicalCounts py p) := by
  have hraw : rawUsage py ([] : Dict F) = none := rfl
  have hcross : ∀ c : Counts, crossCheck py c (tokenUsage py ([] : Dict F)) = c := fun _ => rfl
  unfold asCanonical extractUsage canonicalUsage report
  dsimp only [Option.bind_some]
  rw [hraw, hcross, ite_self]
  by_cases h : (canonicalCounts py p).inp ≠ 0 ∨ (canonicalCounts py p).out ≠ 0
  · rw [if_pos h]
    rfl
  · rw [if_neg h]
    rfl

theorem tokenUsage_payload (p : Dict F) :
    tokenUsage py [("token_usage".toList, .obj p)] = if p = [] then .null else .obj p := by
  cases p with
  | nil => rfl
  | cons kv p => rfl

theorem asRaw_eq (p : Dict F) : asRaw py p = report py [("token_usage".toList, .obj p)] (rawCounts py p) := by
  unfold asRaw extractUsage rawUsage
  rw [tokenUsage_payload]
  by_cases h : p = []
  · subst h
    rw [if_pos rfl]
    exact (report_of_silent rfl rfl).symm
  · rw [if_neg h]
    rfl

theorem canonicalCounts_totals (p : Dict F) :
    canonicalCounts py (totals py p) = ⟨(rawCounts py p).inp, (rawCounts py p).out, 0, 0, 0⟩ := by
  have hpick : ∀ n : ℤ, pickInt py [.int n, .null] = n := by
    intro n
    rw [pickInt_cons]
    by_cases hn : n = 0
    · subst hn
      rfl
    · have hone : pickInt py [.int n] = n := if_pos hn
      rw [hone, if_neg hn]
  have hin : (canonicalCounts py (totals py p)).inp = (rawCounts py p).inp := hpick _
  have hout : (canonicalCounts py (totals py p)).out = (rawCounts py p).out := hpick _
  calc canonicalCounts py (totals py p)
      = ⟨(canonicalCounts py (totals py p)).inp, (canonicalCounts py (totals py p)).out, 0, 0, 0⟩ := rfl
    _ = ⟨(rawCounts py p).inp, (rawCounts py p).out, 0, 0, 0⟩ := by rw [hin, hout]

/-- The counts of a raw usage without its nested counters. -/
def flatCounts (py : Builtins F) (p : Dict F) : Counts where
  inp := (rawCounts py p).inp
  out := (rawCounts py p).out
  cached := rawRead py p
  cacheCreate := flatWrite py p
  reasoning := rawReasoning py p

/-- Beside the totals the raw usage is read without its nested counters. -/
theorem besideTotals_eq (p : Dict F) :
    besideTotals py p = report py [("token_usage".toList, .obj p)] (flatCounts py p) := by
  unfold besideTotals extractUsage canonicalUsage
  dsimp only [Option.bind_some]
  rw [canonicalCounts_totals]
  dsimp only
  by_cases h : (rawCounts py p).inp ≠ 0 ∨ (rawCounts py p).out ≠ 0
  · have hp : p ≠ [] := by
      rintro rfl
      rcases h with h | h
      · exact h rfl
      · exact h rfl
    rw [if_pos h, if_pos (Or.inl rfl), tokenUsage_payload, if_neg hp]
    have htokens : (flatCounts py p).inp ≠ 0 ∨ (flatCounts py p).out ≠ 0 := h
    rw [report_of_tokens htokens]
    rfl
  · have hsilent : (rawCounts py p).inp = 0 ∧ (rawCounts py p).out = 0 :=
      ⟨by_contra fun hin => h (Or.inl hin), by_contra fun hout => h (Or.inr hout)⟩
    have hraw : rawUsage py [("token_usage".toList, .obj p)] = report py [("token_usage".toList, .obj p)] (rawCounts py p) :=
      asRaw_eq p
    have hflat : report py [("token_usage".toList, .obj p)] (flatCounts py p) = none :=
      report_of_silent hsilent.1 hsilent.2
    rw [if_neg h, hraw, report_of_silent hsilent.1 hsilent.2, hflat]
    rfl

/-! ### Where the presentations agree -/

theorem tokens_of_not_silent {p : Dict F} (h : ¬Silent py p) : (rawCounts py p).inp ≠ 0 ∨ (rawCounts py p).out ≠ 0 := by
  by_cases hin : (rawCounts py p).inp = 0
  · exact Or.inr fun hout => h ((silent_iff p).mpr ⟨hin, hout⟩)
  · exact Or.inl hin

theorem canonical_inp_eq_zero_iff (p : Dict F) : (canonicalCounts py p).inp = 0 ↔ (rawCounts py p).inp = 0 :=
  pickInt_swap_eq_zero_iff _ _

theorem canonical_out_eq_zero_iff (p : Dict F) : (canonicalCounts py p).out = 0 ↔ (rawCounts py p).out = 0 :=
  pickInt_swap_eq_zero_iff _ _

/-- Both branches find the same counts exactly where no names clash and the
details of both shapes are the same. -/
theorem canonicalCounts_eq_iff (p : Dict F) :
    canonicalCounts py p = rawCounts py p ↔
      ¬Clash py (get p "input_tokens") (get p "prompt_tokens") ∧
      ¬Clash py (get p "output_tokens") (get p "completion_tokens") ∧ SameDetails py p := by
  have hin : (canonicalCounts py p).inp = (rawCounts py p).inp ↔
      ¬Clash py (get p "input_tokens") (get p "prompt_tokens") := pickInt_swap_iff _ _
  have hout : (canonicalCounts py p).out = (rawCounts py p).out ↔
      ¬Clash py (get p "output_tokens") (get p "completion_tokens") := pickInt_swap_iff _ _
  constructor
  · intro h
    exact ⟨hin.mp (by rw [h]), hout.mp (by rw [h]), (sameDetails_iff p).mpr
      ⟨congrArg Counts.cached h, congrArg Counts.cacheCreate h, congrArg Counts.reasoning h⟩⟩
  · rintro ⟨h1, h2, h3⟩
    obtain ⟨h4, h5, h6⟩ := (sameDetails_iff p).mp h3
    calc canonicalCounts py p
        = ⟨(canonicalCounts py p).inp, (canonicalCounts py p).out, (canonicalCounts py p).cached,
            (canonicalCounts py p).cacheCreate, (canonicalCounts py p).reasoning⟩ := rfl
      _ = ⟨(rawCounts py p).inp, (rawCounts py p).out, (rawCounts py p).cached, (rawCounts py p).cacheCreate,
            (rawCounts py p).reasoning⟩ := by rw [hin.mpr h1, hout.mpr h2, h4, h5, h6]
      _ = rawCounts py p := rfl

theorem asCanonical_eq_asRaw_iff (p : Dict F) :
    asCanonical py p = asRaw py p ↔ Silent py p ∨
      (¬Clash py (get p "input_tokens") (get p "prompt_tokens") ∧
        ¬Clash py (get p "output_tokens") (get p "completion_tokens") ∧ SameDetails py p) := by
  rw [asCanonical_eq, asRaw_eq, ← canonicalCounts_eq_iff]
  by_cases hs : Silent py p
  · obtain ⟨hin, hout⟩ := (silent_iff p).mp hs
    rw [report_of_silent hin hout, report_of_silent ((canonical_inp_eq_zero_iff p).mpr hin)
      ((canonical_out_eq_zero_iff p).mpr hout)]
    exact ⟨fun _ => Or.inl hs, fun _ => rfl⟩
  · have hraw := tokens_of_not_silent hs
    have hcan : (canonicalCounts py p).inp ≠ 0 ∨ (canonicalCounts py p).out ≠ 0 := by
      rcases hraw with h | h
      · exact Or.inl fun h0 => h ((canonical_inp_eq_zero_iff p).mp h0)
      · exact Or.inr fun h0 => h ((canonical_out_eq_zero_iff p).mp h0)
    have hinj : build py [] (canonicalCounts py p) = build py [("token_usage".toList, .obj p)] (rawCounts py p) ↔
        canonicalCounts py p = rawCounts py p := build_inj rfl rfl
    rw [report_of_tokens hraw, report_of_tokens hcan, Option.some_inj, hinj]
    exact ⟨Or.inr, fun h => h.resolve_left hs⟩

theorem besideTotals_eq_asRaw_iff (p : Dict F) :
    besideTotals py p = asRaw py p ↔ Silent py p ∨ NestedSilent py p := by
  rw [besideTotals_eq, asRaw_eq, nestedSilent_iff]
  by_cases hs : Silent py p
  · obtain ⟨hin, hout⟩ := (silent_iff p).mp hs
    have hflat : report py [("token_usage".toList, .obj p)] (flatCounts py p) = none := report_of_silent hin hout
    rw [hflat, report_of_silent hin hout]
    exact ⟨fun _ => Or.inl hs, fun _ => rfl⟩
  · have hraw := tokens_of_not_silent hs
    have htokens : (flatCounts py p).inp ≠ 0 ∨ (flatCounts py p).out ≠ 0 := hraw
    rw [report_of_tokens hraw, report_of_tokens htokens, Option.some_inj, build_inj rfl rfl]
    constructor
    · intro h
      have hwrite : flatWrite py p = flatWrite py p + nestedWrite py p := congrArg Counts.cacheCreate h
      exact Or.inr (by omega)
    · intro h
      unfold flatCounts rawCounts
      rw [h.resolve_left hs, Int.add_zero]

theorem countedOnce_iff (p : Dict F) :
    CountedOnce py p ↔
      Silent py p ∨ (∀ v ∈ flatFields p, Blank py v) ∨ rootWrite py p = true ∨ Blank py (field5m p) := by
  have hzero : (∀ v ∈ flatFields p, Blank py v) ↔ flatWrite py p = 0 := (pickInt_eq_zero_iff _).symm
  have h5m : Blank py (field5m p) ↔ nested5m py p = 0 := blank_iff _
  unfold CountedOnce
  rw [asRaw_eq, hzero, h5m]
  by_cases hs : Silent py p
  · obtain ⟨hin, hout⟩ := (silent_iff p).mp hs
    rw [report_of_silent hin hout]
    exact ⟨fun _ => Or.inl hs, fun _ u hu => absurd hu (Option.some_ne_none u).symm⟩
  · rw [report_of_tokens (tokens_of_not_silent hs)]
    have hwrite : (build py [("token_usage".toList, .obj p)] (rawCounts py p)).cacheWriteTokens =
        flatWrite py p + (nested1h py p + if rootWrite py p then 0 else nested5m py p) := rfl
    constructor
    · intro h
      by_cases hflat : flatWrite py p = 0
      · exact Or.inr (Or.inl hflat)
      · have hu := h _ rfl hflat
        rw [hwrite] at hu
        by_cases hroot : rootWrite py p = true
        · exact Or.inr (Or.inr (Or.inl hroot))
        · rw [if_neg hroot] at hu
          exact Or.inr (Or.inr (Or.inr (by omega)))
    · intro h u hu hflat
      rw [← Option.some_inj.mp hu, hwrite]
      rcases (h.resolve_left hs).resolve_left hflat with hroot | h5m
      · rw [if_pos hroot, Int.add_zero]
      · rw [h5m, ite_self, Int.add_zero]

/-- No floats, and no text of what is no text. -/
def noFloatBuiltins : Builtins Unit where
  isZero _ := true
  intOfFloat _ := none
  str v :=
    match v with
    | .str s => s
    | _ => []

/-- A gateway that nests the flat counter and has the 5m counter of the same
writes beside it. -/
def nestedPayload : Dict Unit :=
  [("prompt_tokens".toList, .int 10), ("completion_tokens".toList, .int 5),
    ("prompt_tokens_details".toList, .obj [("cache_creation_input_tokens".toList, .int 6)]),
    ("cache_creation".toList, .obj [("ephemeral_5m_input_tokens".toList, .int 6)])]

end Usage
end AgentCore
