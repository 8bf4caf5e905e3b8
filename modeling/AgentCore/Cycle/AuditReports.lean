/-
# Reports of an auditor

`AuditFinding.from_dict` and `AuditReport.from_dict` of `components/cycle/types.py`,
and `_parse_audit_report` of `builders.py`, which makes a report of any response. The
object may hold any JSON value under any key. What does not fit the schema raises an
exception, and most of these are caught; not caught are an integer that is too large
for a float, and in the decoder one that has too many digits and a nesting too deep. A
verdict of any type is let through, and a list or an object as one breaks the cycle's terminal test.

So a report with a string for its verdict is returned exactly for the responses whose
object is `Harmless` (`parseAuditReport_iff`).

Key definitions: `fromDict`, `parseAuditReport`, `isTerminal`, `Fits`, `Harmless`.
Key theorems: `fromDict_ok_iff`, `fromDict_overflow_iff`, `parseAuditReport_iff`.
-/
import AgentCore.Cycle.AuditJson
import Mathlib.Algebra.Ring.Nat

namespace AgentCore
namespace Cycle
namespace Reports

open PyJson

/-- What the code asks of floats. -/
structure FloatOps (F : Type) where
  /-- `float(n)`, where it does not raise. -/
  ofInt : ℤ → F
  /-- `float(s)`; none is its `ValueError`. -/
  ofStr : List Char → Option F
  isZero : F → Bool

/-- `float(n)` is no float: it would be rounded to `2 ^ 1024` or beyond. -/
def tooLarge (n : ℤ) : Bool := 2 ^ 1024 - 2 ^ 970 ≤ n.natAbs

/-- What a `TypeError` is about. -/
inductive Operation
  | subscript
  | iterate
  | toFloat
  /-- A pair of `dict(...)`, by its place. -/
  | pair (place : ℕ)
  | hash
  deriving DecidableEq

inductive Exc (F : Type)
  | keyError (key : List Char)
  | typeError (op : Operation) (v : Value F)
  /-- An element of `dict(...)`, by its place, that is no pair. -/
  | lengthError (place : ℕ) (v : Value F)
  /-- `could not convert string to float` -/
  | floatError (s : List Char)
  | overflowError (n : ℤ)

variable {F : Type} (ops : FloatOps F)

/-- `bool(v)`. -/
def truthy : Value F → Bool
  | .null => false
  | .bool b => b
  | .int n => n ≠ 0
  | .float x => !ops.isZero x
  | .str s => s ≠ []
  | .arr xs => !xs.isEmpty
  | .obj kvs => !kvs.isEmpty

/-- `data[key]`. -/
def item (data : List (List Char × Value F)) (key : String) : Except (Exc F) (Value F) :=
  match data.lookup key.toList with
  | none => .error (.keyError key.toList)
  | some v => .ok v

/-- `data.get(key, default)`. -/
def getD (data : List (List Char × Value F)) (key : String) (default : Value F) : Value F :=
  (data.lookup key.toList).getD default

/-- `data.get(key) or empty`. -/
def getOr (data : List (List Char × Value F)) (key : String) (empty : Value F) : Value F :=
  if truthy ops (getD data key .null) then getD data key .null else empty

/-- Items of a dictionary in the order in which they are set; a later one takes the
place of an earlier one of the same key. -/
abbrev Items (F : Type) := List (Value F × Value F)

def strItems (kvs : List (List Char × Value F)) : Items F := kvs.map fun kv => (.str kv.1, kv.2)

def isHashable : Value F → Bool
  | .arr _ => false
  | .obj _ => false
  | _ => true

/-- An element of `dict(...)`. -/
def toPair (place : ℕ) : Value F → Except (Exc F) (Value F × Value F)
  | .arr [key, v] => if isHashable key then .ok (key, v) else .error (.typeError .hash key)
  | .arr xs => .error (.lengthError place (.arr xs))
  | .str [a, b] => .ok (.str [a], .str [b])
  | .str s => .error (.lengthError place (.str s))
  | .obj [a, b] => .ok (.str a.1, .str b.1)
  | .obj kvs => .error (.lengthError place (.obj kvs))
  | v => .error (.typeError (.pair place) v)

def toPairs : ℕ → List (Value F) → Except (Exc F) (Items F)
  | _, [] => .ok []
  | place, x :: xs => do
    let kv ← toPair place x
    let kvs ← toPairs (place + 1) xs
    return kv :: kvs

/-- The characters of a string, as an iteration yields them. -/
def charValues (s : List Char) : List (Value F) := s.map fun c => .str [c]

/-- `dict(v)`. -/
def toDict : Value F → Except (Exc F) (Items F)
  | .obj kvs => .ok (strItems kvs)
  | .arr xs => toPairs 0 xs
  | .str s => toPairs 0 (charValues s)
  | v => .error (.typeError .iterate v)

/-- `float(v)`. -/
def toFloat : Value F → Except (Exc F) F
  | .bool b => .ok (ops.ofInt (if b then 1 else 0))
  | .int n => if tooLarge n then .error (.overflowError n) else .ok (ops.ofInt n)
  | .float x => .ok x
  | .str s =>
    match ops.ofStr s with
    | none => .error (.floatError s)
    | some x => .ok x
  | v => .error (.typeError .toFloat v)

structure AuditFinding (F : Type) where
  category : Value F
  severity : Value F
  shortMessage : Value F
  detailedMessage : Value F := .str []
  file : Value F := .null
  line : Value F := .null
  snippet : Value F := .str []
  suggestedAction : Value F := .str []
  targetRole : Value F := .null
  metadata : Items F := []

/-- `AuditFinding.from_dict`. -/
def findingFromDict : Value F → Except (Exc F) (AuditFinding F)
  | .obj data => do
    let category ← item data "category"
    let severity ← item data "severity"
    let shortMessage ← item data "short_message"
    let metadata ← toDict (getOr ops data "metadata" (.obj []))
    return {
      category := category
      severity := severity
      shortMessage := shortMessage
      detailedMessage := getD data "detailed_message" (.str [])
      file := getD data "file" .null
      line := getD data "line" .null
      snippet := getD data "snippet" (.str [])
      suggestedAction := getD data "suggested_action" (.str [])
      targetRole := getD data "target_role" .null
      metadata := metadata }
  | v => .error (.typeError .subscript v)

def readFindings : List (Value F) → Except (Exc F) (List (AuditFinding F))
  | [] => .ok []
  | f :: fs => do
    let finding ← findingFromDict ops f
    let findings ← readFindings fs
    return finding :: findings

/-- `[AuditFinding.from_dict(f) for f in raw_findings]`. -/
def findingsFrom : Value F → Except (Exc F) (List (AuditFinding F))
  | .arr fs => readFindings ops fs
  | .str s => readFindings ops (charValues s)
  | .obj kvs => readFindings ops (kvs.map fun kv => .str kv.1)
  | v => .error (.typeError .iterate v)

structure AuditReport (F : Type) where
  verdict : Value F
  findings : List (AuditFinding F) := []
  summary : Value F := .str []
  confidence : F
  rawText : Value F := .str []
  metadata : Items F := []

/-- `AuditReport.from_dict`. -/
def fromDict (data : List (List Char × Value F)) : Except (Exc F) (AuditReport F) := do
  let rawFindings := getOr ops data "findings" (.arr [])
  let verdict ← item data "verdict"
  let findings ← findingsFrom ops rawFindings
  let confidence ← toFloat ops (getD data "confidence" (.float (ops.ofInt 0)))
  let metadata ← toDict (getOr ops data "metadata" (.obj []))
  return {
    verdict := verdict
    findings := findings
    summary := getD data "summary" (.str [])
    confidence := confidence
    rawText := getD data "raw_text" (.str [])
    metadata := metadata }

/-- `audit.verdict in verdicts`, for a set of strings; none is the `TypeError` of a
value that has no hash. -/
def isTerminal (verdicts : List (List Char)) : Value F → Option Bool
  | .str s => some (s ∈ verdicts)
  | .arr _ => none
  | .obj _ => none
  | _ => some false

/-! ### Parsing a response -/

/-- What a response raises, uncaught. -/
inductive Raised
  /-- `ValueError` or `RecursionError`, of the decoder -/
  | decoder (e : LoadsError)
  /-- `OverflowError: int too large to convert to float` -/
  | overflow (n : ℤ)
  deriving DecidableEq

/-- How the exceptions are written. -/
structure Texts (F : Type) where
  /-- `{exc!s}` of a `JSONDecodeError` on the text. -/
  decodeError : List Char → List Char
  excStr : Exc F → List Char

def strValue (s : String) : Value F := .str s.toList

def parseMessage (tx : Texts F) : ParseError → List Char
  | .emptyResponse => "empty response".toList
  | .fencedDidNotParse text => "fenced block did not parse: ".toList ++ tx.decodeError text
  | .fencedNotObject => "fenced JSON was not an object".toList
  | .noObjectFound => "no JSON object found".toList
  | .bareDidNotParse text => "bare JSON did not parse: ".toList ++ tx.decodeError text
  | .notObject => "JSON was not an object".toList

/-- The metadata of a report that stands in for the auditor's. -/
def synthetic (reason : String) (metadata : Items F) : Items F :=
  (strValue "synthetic", .bool true) :: (strValue "reason", strValue reason) :: metadata

def parseFailure (tx : Texts F) (raw : List Char) (metadata : Items F) (e : ParseError) : AuditReport F where
  verdict := strValue "iterate"
  findings := [{
    category := strValue "auditor_parse_failure"
    severity := strValue "error"
    shortMessage := strValue "Auditor did not emit parseable AuditReport JSON"
    detailedMessage := .str (parseMessage tx e)
    suggestedAction := strValue ("Inspect auditor's system prompt — it must instruct the LLM to emit structured " ++
      "AuditReport JSON.") }]
  summary := strValue ("The auditor's response did not contain parseable JSON. " ++
    "Treating verdict as iterate so the cycle can retry.")
  rawText := .str raw
  confidence := ops.ofInt 1
  metadata := synthetic "auditor_parse_failure" metadata

def schemaMismatch (tx : Texts F) (raw : List Char) (metadata : Items F) (e : Exc F) : AuditReport F where
  verdict := strValue "iterate"
  findings := [{
    category := strValue "auditor_schema_mismatch"
    severity := strValue "error"
    shortMessage := .str (("Auditor JSON did not match AuditReport schema: ".toList ++ tx.excStr e).take 200)
    detailedMessage := .str (tx.excStr e) }]
  summary := strValue ("The auditor's JSON parsed but did not match the AuditReport schema. " ++
    "Treating as iterate.")
  rawText := .str raw
  confidence := ops.ofInt 1
  metadata := synthetic "auditor_schema_mismatch" metadata

/-- `_parse_audit_report`; `metadata` is empty for `None`. -/
def parseAuditReport (ft : FloatText F) (tx : Texts F) (room : ℕ) (raw : List Char) (metadata : Items F) :
    Except Raised (AuditReport F) :=
  match tryParseJson ft room raw with
  | .raised e => .error (.decoder e)
  | .failed e => .ok (parseFailure ops tx raw metadata e)
  | .data data =>
    match fromDict ops data with
    | .ok report => .ok { report with rawText := .str raw, metadata := report.metadata ++ metadata }
    | .error (.overflowError n) => .error (.overflow n)
    | .error e => .ok (schemaMismatch ops tx raw metadata e)

/-! ### What fits the schema -/

/-- An element that `dict(...)` takes as a pair. -/
def isPair : Value F → Bool
  | .arr [key, _] => isHashable key
  | .str [_, _] => true
  | .obj [_, _] => true
  | _ => false

def isDictLike : Value F → Bool
  | .obj _ => true
  | .arr xs => xs.all isPair
  | .str s => s.isEmpty
  | _ => false

def hasKeys (data : List (List Char × Value F)) (keys : List String) : Bool :=
  keys.all fun key => (data.lookup key.toList).isSome

def hasMetadata (data : List (List Char × Value F)) : Bool := isDictLike (getOr ops data "metadata" (.obj []))

def isFinding : Value F → Bool
  | .obj data => hasKeys data ["category", "severity", "short_message"] && hasMetadata ops data
  | _ => false

def areFindings : Value F → Bool
  | .arr fs => fs.all (isFinding ops)
  | .str s => s.isEmpty
  | .obj kvs => kvs.isEmpty
  | _ => false

def hasFindings (data : List (List Char × Value F)) : Bool := areFindings ops (getOr ops data "findings" (.arr []))

def confidenceOf (data : List (List Char × Value F)) : Value F := getD data "confidence" (.float (ops.ofInt 0))

def isNumeric : Value F → Bool
  | .bool _ => true
  | .int n => !tooLarge n
  | .float _ => true
  | .str s => (ops.ofStr s).isSome
  | _ => false

def isTooLarge : Value F → Bool
  | .int n => tooLarge n
  | _ => false

/-- An object that is read as a report with a string for its verdict, or raises what is
caught. -/
structure Harmless (data : List (List Char × Value F)) : Prop where
  confidence : hasKeys data ["verdict"] = true → hasFindings ops data = true →
    isTooLarge (confidenceOf ops data) = false
  verdict : ∀ v, data.lookup "verdict".toList = some v → hasFindings ops data = true →
    isNumeric ops (confidenceOf ops data) = true → hasMetadata ops data = true → ∃ s, v = .str s

/-! ### Reading what fits -/

/-- The exception is a `KeyError`, a `TypeError` or a `ValueError`. -/
def Exc.Caught (e : Exc F) : Prop := ∀ n, e ≠ .overflowError n

/-- It returns if the test holds, and raises what is caught if not. -/
def Settles {β : Type} (fits : Bool) (x : Except (Exc F) β) : Prop :=
  if fits then ∃ b, x = .ok b else ∃ e : Exc F, x = .error e ∧ e.Caught

theorem Settles.ok {β : Type} (b : β) : Settles (F := F) true (.ok b) := ⟨b, rfl⟩

theorem Settles.error {β : Type} {e : Exc F} (h : e.Caught) : Settles (β := β) false (.error e) := ⟨e, rfl, h⟩

theorem Settles.bind {β γ : Type} {a b : Bool} {x : Except (Exc F) β} {f : β → Except (Exc F) γ} (hx : Settles a x)
    (hf : ∀ y, Settles b (f y)) : Settles (a && b) (x >>= f) := by
  cases a with
  | false =>
    obtain ⟨e, rfl, he⟩ := hx
    exact ⟨e, rfl, he⟩
  | true =>
    obtain ⟨y, rfl⟩ := hx
    exact hf y

theorem Settles.pure {β γ : Type} {a : Bool} {x : Except (Exc F) β} {g : β → γ} (hx : Settles a x) :
    Settles a (x >>= fun y => .ok (g y)) := by
  have hbind := hx.bind fun y => Settles.ok (g y)
  rwa [Bool.and_true] at hbind

theorem item_settles (data : List (List Char × Value F)) (key : String) :
    Settles (data.lookup key.toList).isSome (item data key) := by
  unfold item
  cases data.lookup key.toList with
  | none => exact .error nofun
  | some v => exact .ok v

theorem toPair_settles (place : ℕ) : ∀ v : Value F, Settles (isPair v) (toPair place v)
  | .null => .error nofun
  | .bool _ => .error nofun
  | .int _ => .error nofun
  | .float _ => .error nofun
  | .str [] => .error nofun
  | .str [_] => .error nofun
  | .str [_, _] => .ok _
  | .str (_ :: _ :: _ :: _) => .error nofun
  | .obj [] => .error nofun
  | .obj [_] => .error nofun
  | .obj [_, _] => .ok _
  | .obj (_ :: _ :: _ :: _) => .error nofun
  | .arr [] => .error nofun
  | .arr [_] => .error nofun
  | .arr (_ :: _ :: _ :: _) => .error nofun
  | .arr [key, v] => by
    show Settles (isHashable key) (if isHashable key then .ok (key, v) else .error (.typeError .hash key))
    cases isHashable key with
    | false => exact .error nofun
    | true => exact .ok _

theorem toPairs_settles : ∀ (place : ℕ) (xs : List (Value F)), Settles (xs.all isPair) (toPairs place xs)
  | _, [] => .ok _
  | place, x :: xs => by
    have hrest : ∀ kv : Value F × Value F, Settles (xs.all isPair) (do
        let kvs ← toPairs (place + 1) xs
        return kv :: kvs) := fun kv => (toPairs_settles (place + 1) xs).pure
    exact (toPair_settles place x).bind hrest

theorem all_charValues (test : Value F → Bool) (h : ∀ c, test (.str [c]) = false) (s : List Char) :
    (charValues s).all test = s.isEmpty := by
  cases s with
  | nil => rfl
  | cons c s => simp [charValues, h]

theorem toDict_settles : ∀ v : Value F, Settles (isDictLike v) (toDict v)
  | .null => .error nofun
  | .bool _ => .error nofun
  | .int _ => .error nofun
  | .float _ => .error nofun
  | .obj _ => .ok _
  | .arr xs => toPairs_settles 0 xs
  | .str s => by
    have hpairs := toPairs_settles 0 (charValues (F := F) s)
    rwa [all_charValues isPair fun _ => rfl] at hpairs

theorem hasKeys_cons (data : List (List Char × Value F)) (key : String) (keys : List String) :
    hasKeys data (key :: keys) = ((data.lookup key.toList).isSome && hasKeys data keys) := rfl

theorem findingFromDict_settles : ∀ v : Value F, Settles (isFinding ops v) (findingFromDict ops v)
  | .null => .error nofun
  | .bool _ => .error nofun
  | .int _ => .error nofun
  | .float _ => .error nofun
  | .str _ => .error nofun
  | .arr _ => .error nofun
  | .obj data => by
    have hfits : isFinding ops (.obj data) = ((data.lookup "category".toList).isSome &&
        ((data.lookup "severity".toList).isSome && ((data.lookup "short_message".toList).isSome &&
          hasMetadata ops data))) := by
      unfold isFinding
      simp only [hasKeys_cons, Bool.and_assoc]
      rfl
    rw [hfits]
    refine (item_settles data "category").bind fun category => ?_
    refine (item_settles data "severity").bind fun severity => ?_
    refine (item_settles data "short_message").bind fun shortMessage => ?_
    exact (toDict_settles (getOr ops data "metadata" (.obj []))).pure

theorem readFindings_settles : ∀ fs : List (Value F), Settles (fs.all (isFinding ops)) (readFindings ops fs)
  | [] => .ok _
  | f :: fs => by
    have hrest : ∀ finding : AuditFinding F, Settles (fs.all (isFinding ops)) (do
        let findings ← readFindings ops fs
        return finding :: findings) := fun finding => (readFindings_settles fs).pure
    exact (findingFromDict_settles ops f).bind hrest

theorem findingsFrom_settles : ∀ v : Value F, Settles (areFindings ops v) (findingsFrom ops v)
  | .null => .error nofun
  | .bool _ => .error nofun
  | .int _ => .error nofun
  | .float _ => .error nofun
  | .arr fs => readFindings_settles ops fs
  | .str s => by
    have hread := readFindings_settles ops (charValues s)
    rwa [all_charValues (isFinding ops) fun _ => rfl] at hread
  | .obj kvs => by
    have hread := readFindings_settles ops (kvs.map fun kv => .str kv.1)
    have hall : (kvs.map fun kv => Value.str (F := F) kv.1).all (isFinding ops) = kvs.isEmpty := by
      cases kvs with
      | nil => rfl
      | cons kv kvs => rfl
    rwa [hall] at hread

variable {ops}

theorem toFloat_settles {v : Value F} (h : isTooLarge v = false) : Settles (isNumeric ops v) (toFloat ops v) := by
  cases v with
  | null => exact .error nofun
  | bool b => exact .ok _
  | int n =>
    have hn : tooLarge n = false := h
    simp only [toFloat, isNumeric, hn]
    exact .ok _
  | float x => exact .ok _
  | str s =>
    simp only [toFloat, isNumeric]
    cases ops.ofStr s with
    | none => exact .error nofun
    | some x => exact .ok _
  | arr xs => exact .error nofun
  | obj kvs => exact .error nofun

variable {data : List (List Char × Value F)}

theorem hasVerdict_eq : hasKeys data ["verdict"] = (data.lookup "verdict".toList).isSome := by
  rw [hasKeys_cons]
  exact Bool.and_true _

/-- Unless the confidence is too large, the object is read if all of it fits. -/
theorem fromDict_settles (hc : isTooLarge (confidenceOf ops data) = false) :
    Settles (hasKeys data ["verdict"] && (hasFindings ops data && (isNumeric ops (confidenceOf ops data) &&
      hasMetadata ops data))) (fromDict ops data) := by
  rw [hasVerdict_eq]
  refine (item_settles data "verdict").bind fun verdict => ?_
  refine (findingsFrom_settles ops _).bind fun findings => ?_
  refine (toFloat_settles hc).bind fun confidence => ?_
  exact (toDict_settles _).pure

/-- What raises in front of the confidence is caught. -/
theorem fromDict_misfit (h : (hasKeys data ["verdict"] && hasFindings ops data) = false) :
    ∃ e : Exc F, fromDict ops data = .error e ∧ e.Caught := by
  rw [hasVerdict_eq] at h
  have hverdict := item_settles data "verdict"
  have hfindings := findingsFrom_settles ops (getOr ops data "findings" (.arr []))
  unfold fromDict
  cases hv : (data.lookup "verdict".toList).isSome with
  | false =>
    rw [hv] at hverdict
    obtain ⟨e, he, hcaught⟩ := hverdict
    rw [he]
    exact ⟨e, rfl, hcaught⟩
  | true =>
    rw [hv] at h hverdict
    obtain ⟨v, hv⟩ := hverdict
    have hf : areFindings ops (getOr ops data "findings" (.arr [])) = false := h
    rw [hf] at hfindings
    obtain ⟨e, he, hcaught⟩ := hfindings
    rw [hv]
    show ∃ e', (findingsFrom ops (getOr ops data "findings" (.arr [])) >>= _) = .error e' ∧ _
    rw [he]
    exact ⟨e, rfl, hcaught⟩

/-- The confidence that is too large raises what is not caught. -/
theorem fromDict_overflow (hv : hasKeys data ["verdict"] = true) (hf : hasFindings ops data = true)
    (hc : isTooLarge (confidenceOf ops data) = true) : ∃ n, fromDict ops data = .error (.overflowError n) := by
  have hverdict := item_settles data "verdict"
  have hfindings := findingsFrom_settles ops (getOr ops data "findings" (.arr []))
  have hfits : areFindings ops (getOr ops data "findings" (.arr [])) = true := hf
  rw [← hasVerdict_eq, hv] at hverdict
  rw [hfits] at hfindings
  obtain ⟨v, hv⟩ := hverdict
  obtain ⟨fs, hfs⟩ := hfindings
  obtain ⟨n, hn, hlarge⟩ : ∃ n, confidenceOf ops data = .int n ∧ tooLarge n = true := by
    cases hconf : confidenceOf ops data with
    | int n =>
      rw [hconf] at hc
      exact ⟨n, rfl, hc⟩
    | _ =>
      rw [hconf] at hc
      cases hc
  have hfloat : toFloat ops (confidenceOf ops data) = .error (.overflowError n) := by
    rw [hn]
    simp only [toFloat, if_pos hlarge]
  have hget : toFloat ops (getD data "confidence" (.float (ops.ofInt 0))) = .error (.overflowError n) := hfloat
  refine ⟨n, ?_⟩
  unfold fromDict
  rw [hv]
  show (findingsFrom ops (getOr ops data "findings" (.arr [])) >>= _) = _
  rw [hfs]
  show (toFloat ops (getD data "confidence" (.float (ops.ofInt 0))) >>= _) = _
  rw [hget]
  rfl

theorem fromDict_verdict {report : AuditReport F} (h : fromDict ops data = .ok report) :
    data.lookup "verdict".toList = some report.verdict := by
  obtain ⟨verdict, hv, h⟩ := Decoder.bind_eq_ok h
  obtain ⟨findings, -, h⟩ := Decoder.bind_eq_ok h
  obtain ⟨confidence, -, h⟩ := Decoder.bind_eq_ok h
  obtain ⟨metadata, -, h⟩ := Decoder.bind_eq_ok h
  rw [← Except.ok.inj h]
  unfold item at hv
  cases hl : data.lookup "verdict".toList with
  | none =>
    rw [hl] at hv
    cases hv
  | some v =>
    rw [hl] at hv
    rw [Except.ok.inj hv]

/-! ### Well typed reports -/

/-- A report is returned, and its verdict is a string. -/
def WellTyped : Except Raised (AuditReport F) → Prop
  | .ok report => ∃ s, report.verdict = .str s
  | .error _ => False

variable {ft : FloatText F} (tx : Texts F) {room : ℕ} {raw : List Char} (metadata : Items F)

theorem wellTyped_of_caught {e : Exc F} (hraw : tryParseJson ft room raw = .data data)
    (h : fromDict ops data = .error e) (he : e.Caught) : WellTyped (parseAuditReport ops ft tx room raw metadata) := by
  unfold parseAuditReport
  rw [hraw]
  dsimp only
  rw [h]
  cases e with
  | overflowError n => exact absurd rfl (he n)
  | _ => exact ⟨_, rfl⟩

/-- An object of the response is read as a well typed report exactly where it is
harmless. -/
theorem wellTyped_data_iff (hraw : tryParseJson ft room raw = .data data) :
    WellTyped (parseAuditReport ops ft tx room raw metadata) ↔ Harmless ops data := by
  cases hfront : hasKeys data ["verdict"] && hasFindings ops data with
  | false =>
    obtain ⟨e, he, hcaught⟩ := fromDict_misfit hfront
    refine iff_of_true (wellTyped_of_caught tx metadata hraw he hcaught) ⟨fun hv hf => ?_, fun v hv hf => ?_⟩
    · rw [hv, hf] at hfront
      cases hfront
    · rw [hasVerdict_eq, hv, hf] at hfront
      cases hfront
  | true =>
    obtain ⟨hv, hf⟩ := Bool.and_eq_true_iff.mp hfront
    cases hc : isTooLarge (confidenceOf ops data) with
    | true =>
      obtain ⟨n, hn⟩ := fromDict_overflow hv hf hc
      refine iff_of_false ?_ fun h => ?_
      · unfold parseAuditReport
        rw [hraw]
        dsimp only
        rw [hn]
        exact id
      · have hsmall := h.confidence hv hf
        rw [hc] at hsmall
        cases hsmall
    | false =>
      have hsettles := fromDict_settles hc
      rw [hv, hf, Bool.true_and, Bool.true_and] at hsettles
      cases hback : isNumeric ops (confidenceOf ops data) && hasMetadata ops data with
      | false =>
        rw [hback] at hsettles
        obtain ⟨e, he, hcaught⟩ := hsettles
        refine iff_of_true (wellTyped_of_caught tx metadata hraw he hcaught)
          ⟨fun _ _ => hc, fun v _ _ hn hm => ?_⟩
        rw [hn, hm] at hback
        cases hback
      | true =>
        rw [hback] at hsettles
        obtain ⟨report, hreport⟩ := hsettles
        obtain ⟨hn, hm⟩ := Bool.and_eq_true_iff.mp hback
        have hlookup := fromDict_verdict hreport
        have hresult : parseAuditReport ops ft tx room raw metadata =
            .ok { report with rawText := .str raw, metadata := report.metadata ++ metadata } := by
          unfold parseAuditReport
          rw [hraw]
          dsimp only
          rw [hreport]
        rw [hresult]
        show (∃ s, report.verdict = .str s) ↔ _
        constructor
        · intro hstr
          refine ⟨fun _ _ => hc, fun v hv' _ _ _ => ?_⟩
          rw [hlookup, Option.some.injEq] at hv'
          rwa [← hv']
        · exact fun h => h.verdict report.verdict hlookup hf hn hm

/-! ### Responses -/

/-- The JSON text of a response: what is fenced, or else from the first brace to the
last. -/
def payload (raw : List Char) : Option (List Char) := (extractFencedJson raw).or (widestBraces raw)

variable (ops ft) in
/-- The JSON text of the response is nested no deeper than the stack has room for, the
decoder meets no integer with too many digits in it, and an object there is harmless. -/
structure Tame (room : ℕ) (raw : List Char) : Prop where
  nesting : ∀ text, payload raw = some text → reach ft text ≤ room
  digits : ∀ text, payload raw = some text → decode ft text ≠ .error .digits
  object : ∀ text data, payload raw = some text → decode ft text = .ok (.obj data) → Harmless ops data

theorem tryParseJson_of_none (h : payload raw = none) : ∃ e, tryParseJson ft room raw = .failed e := by
  obtain ⟨hfenced, hbraces⟩ := Option.or_eq_none_iff.mp h
  unfold tryParseJson
  by_cases hnil : raw = []
  · rw [if_pos hnil]
    exact ⟨_, rfl⟩
  · rw [if_neg hnil, hfenced, hbraces]
    exact ⟨_, rfl⟩

theorem tryParseJson_of_some {text : List Char} (h : payload raw = some text) :
    ∃ e e', tryParseJson ft room raw = readObject ft room text e e' := by
  have hnil : raw ≠ [] := by
    rintro rfl
    have hnone : payload [] = none := by decide
    rw [hnone] at h
    cases h
  unfold tryParseJson
  rw [if_neg hnil]
  rcases Option.or_eq_some_iff.mp h with hfenced | ⟨hfenced, hbraces⟩
  · rw [hfenced]
    exact ⟨_, _, rfl⟩
  · rw [hfenced, hbraces]
    exact ⟨_, _, rfl⟩

theorem wellTyped_of_failed {e : ParseError} (h : tryParseJson ft room raw = .failed e) :
    WellTyped (parseAuditReport ops ft tx room raw metadata) := by
  unfold parseAuditReport
  rw [h]
  exact ⟨_, rfl⟩

/-- **Audit parsing**: a response makes a report whose verdict is a string exactly where
it is tame. -/
theorem parseAuditReport_iff :
    WellTyped (parseAuditReport ops ft tx room raw metadata) ↔ Tame ops ft room raw := by
  cases hpayload : payload raw with
  | none =>
    obtain ⟨e, he⟩ : ∃ e, tryParseJson ft room raw = .failed e := tryParseJson_of_none hpayload
    have hno : ∀ text, payload raw ≠ some text := fun text h => by
      rw [hpayload] at h
      cases h
    exact iff_of_true (wellTyped_of_failed tx metadata he)
      ⟨fun text h => absurd h (hno text), fun text h => absurd h (hno text), fun text _ h => absurd h (hno text)⟩
  | some text =>
    obtain ⟨e, e', hparse⟩ : ∃ e e', tryParseJson ft room raw = readObject ft room text e e' :=
      tryParseJson_of_some hpayload
    have htame : Tame ops ft room raw ↔ reach ft text ≤ room ∧
        decode ft text ≠ .error .digits ∧ ∀ data, decode ft text = .ok (.obj data) → Harmless ops data := by
      constructor
      · exact fun h => ⟨h.nesting text hpayload, h.digits text hpayload, fun data => h.object text data hpayload⟩
      · intro h
        have hsame : ∀ t, payload raw = some t → t = text := fun t ht =>
          (Option.some.inj (hpayload.symm.trans ht)).symm
        exact ⟨fun t ht => hsame t ht ▸ h.1, fun t ht => hsame t ht ▸ h.2.1, fun t data ht => hsame t ht ▸ h.2.2 data⟩
    rw [htame]
    by_cases hdeep : room < reach ft text
    · -- the decoder raises before it is done
      rw [readObject, decodeIn_eq_recursionError.mpr hdeep] at hparse
      refine iff_of_false ?_ fun h => Nat.not_le.mpr hdeep h.1
      unfold parseAuditReport
      rw [hparse]
      exact id
    have hroom : reach ft text ≤ room := Nat.not_lt.mp hdeep
    have hin : decodeIn ft room text = (decode ft text).mapError .valueError := if_neg hdeep
    rw [readObject, hin] at hparse
    cases hdecode : decode ft text with
    | error fault =>
      rw [hdecode] at hparse
      cases fault with
      | malformed => exact iff_of_true (wellTyped_of_failed tx metadata hparse) ⟨hroom, nofun, nofun⟩
      | digits =>
        refine iff_of_false ?_ fun h => h.2.1 rfl
        unfold parseAuditReport
        rw [hparse]
        exact id
    | ok v =>
      rw [hdecode] at hparse
      cases v with
      | obj data =>
        rw [wellTyped_data_iff tx metadata hparse]
        constructor
        · intro h
          refine ⟨hroom, nofun, fun data' hdata => ?_⟩
          rw [← Value.obj.inj (Except.ok.inj hdata)]
          exact h
        · exact fun h => h.2.2 data rfl
      | _ => exact iff_of_true (wellTyped_of_failed tx metadata hparse) ⟨hroom, nofun, nofun⟩

/-- A response whose verdict is a list. -/
def listVerdict : List (List Char × Value Unit) := [("verdict".toList, .arr [.str "success".toList])]

def noOps : FloatOps Unit := ⟨fun _ => (), fun _ => none, fun _ => false⟩

def noTexts : Texts Unit := ⟨fun _ => [], fun _ => []⟩

theorem listVerdict_keyed : (Value.obj listVerdict).Keyed := by
  have hstr : (Value.arr [Value.str (F := Unit) "success".toList]).Keyed := .arr _ (by simpa using .str _)
  exact .obj _ (by decide) (by simpa [listVerdict] using hstr)

/-- The list is let through, and the terminal test raises on it. -/
theorem listVerdict_untyped :
    ¬ WellTyped (parseAuditReport noOps ToolCalls.noFloats noTexts 1000
        (dumps ToolCalls.noFloats compact (.obj listVerdict)) []) ∧
      isTerminal ["success".toList, "abandon".toList] (.arr [.str (F := Unit) "success".toList]) = none := by
  have hplain : ¬ HasFence (dumps ToolCalls.noFloats compact (.obj listVerdict)) := by
    rintro ⟨a, b, c, hsplit⟩
    have hmem : '\x60' ∈ dumps ToolCalls.noFloats compact (.obj listVerdict) := by
      rw [hsplit]
      exact List.mem_append_right _ (List.mem_append_left _ (by decide))
    exact absurd hmem (by decide +kernel)
  have hprint : (Value.obj listVerdict).Printable := listVerdict_keyed.printable (by decide)
  have hroom : reach ToolCalls.noFloats (dumps ToolCalls.noFloats compact (.obj listVerdict)) ≤ 1000 := by
    rw [reach_dumps hprint]
    decide
  have hdata : tryParseJson ToolCalls.noFloats 1000 (dumps ToolCalls.noFloats compact (.obj listVerdict)) =
      .data listVerdict := by
    have hbare := bare_recovered (dumps_isText compact listVerdict_keyed) hroom (decode_of_loads (loads_dumps hprint))
      (a := []) (b := []) List.not_mem_nil List.not_mem_nil (by simpa using hplain)
    simpa using hbare
  rw [wellTyped_data_iff noTexts [] hdata]
  refine ⟨fun h => ?_, rfl⟩
  obtain ⟨s, hs⟩ := h.verdict (.arr [.str "success".toList]) rfl rfl rfl rfl
  cases hs

end Reports
end Cycle
end AgentCore
