/-
# Messages as the provider adapters read them

The adapters look into the blocks of a list content that the loop keeps
verbatim: the calls and the reasoning a provider gave back stand there beside
the thinking and the text. A key that the code reads with a falsy default is a
field whose empty value means that the key is absent.

Calls and results match when each result answers one call and each call has one
result (`Matched`); a history is well paired when that holds of every message
and the tool messages beneath it, and no id is used twice.

Key definitions: `Wire.Block`, `Wire.Message`, `Wire.Matched`, `Wire.WellPaired`.
Key theorem: `Wire.matched_iff`.
-/
import AgentCore.Messages
import AgentCore.Lib.Groups
import Mathlib.Data.List.Nodup
import Mathlib.Data.List.Perm.Basic

namespace AgentCore
namespace Wire

/-- `a or b`. -/
def strOr (a b : String) : String := if a ≠ "" then a else b

theorem strOr_of_ne {a : String} (h : a ≠ "") (b : String) : strOr a b = a := if_pos h

/-- The `function` of a call. -/
structure FunctionPart where
  name : String := ""
  arguments : Option String := none
  deriving DecidableEq, Repr

/-- A recorded call: a `function_call` block has its keys flat, an entry of
`tool_calls` has them under `function`. -/
structure CallSource where
  callId : String := ""
  id : String := ""
  name : String := ""
  arguments : Option String := none
  function : FunctionPart := {}
  deriving DecidableEq, Repr

/-- An entry of `tool_calls`. -/
def sourceOf (tc : ToolCall) : CallSource := { id := tc.id, function := ⟨tc.name, some tc.arguments⟩ }

/-- One entry of a list content. Neither adapter looks into `other`, whose text
is what `text_of` adds for it, if anything. -/
inductive Block
  | thinking (thinking signature : String)
  | redactedThinking (data : String)
  | text (text : String)
  | toolUse (id : String)
  | reasoning (id : String) (summary : List String) (encryptedContent : String)
  | functionCall (src : CallSource)
  | other (text : Option String)
  deriving DecidableEq, Repr

inductive Content
  | none
  | text (s : String)
  | blocks (bs : List Block)
  deriving DecidableEq, Repr

structure Message where
  role : Role
  content : Content := .text ""
  toolCalls : List ToolCall := []
  toolCallId : String := ""
  transient : Bool := false
  deriving DecidableEq, Repr

/-- What `text_of` adds for a block. -/
def Block.flat : Block → Option String
  | .text s => some s
  | .other s => s
  | _ => some ""

def textOf : Content → String
  | .none => ""
  | .text s => s
  | .blocks bs => Text.join "\n" (bs.filterMap Block.flat)

/-- The blocks of a list content. -/
def Content.blockList : Content → List Block
  | .blocks bs => bs
  | _ => []

def isTool (m : Message) : Bool := m.role == .tool

def isAssistant (m : Message) : Bool := m.role == .assistant

/-- The ids an assistant message records. -/
def callIds (m : Message) : List String := if isAssistant m then m.toolCalls.map (·.id) else []

/-- The calls that have a name. -/
def namedCalls (m : Message) : List ToolCall := m.toolCalls.filter fun tc => tc.name ≠ ""

theorem namedCalls_eq {m : Message} (h : ∀ tc ∈ m.toolCalls, tc.name ≠ "") : namedCalls m = m.toolCalls :=
  List.filter_eq_self.mpr fun tc htc => decide_eq_true (h tc htc)

/-- A conversion of calls that leaves out those without a name keeps the ids of
the others. -/
theorem filterMap_named {β : Type} {f : ToolCall → Option β} {key : β → String}
    (hnone : ∀ tc, tc.name = "" → f tc = none)
    (hsome : ∀ tc, tc.id ≠ "" → tc.name ≠ "" → ∃ b, f tc = some b ∧ key b = tc.id) :
    ∀ {tcs : List ToolCall}, (∀ tc ∈ tcs, tc.id ≠ "") →
      (tcs.filterMap f).map key = (tcs.filter fun tc => tc.name ≠ "").map (·.id)
  | [], _ => rfl
  | tc :: tcs, hid => by
    have ih := filterMap_named hnone hsome fun x hx => hid x (List.mem_cons_of_mem tc hx)
    by_cases hname : tc.name = ""
    · rw [List.filterMap_cons_none (hnone tc hname), ih, List.filter_cons_of_neg (by simpa using hname)]
    · obtain ⟨b, hb, hkey⟩ := hsome tc (hid tc List.mem_cons_self) hname
      rw [List.filterMap_cons_some hb, List.map_cons, ih, hkey, List.filter_cons_of_pos (by simpa using hname)]
      rfl

/-! ### Pairing -/

/-- Every result answers exactly one call, and every call has exactly one
result. -/
def Matched (calls results : List String) : Prop :=
  (∀ r ∈ results, calls.count r = 1) ∧ ∀ c ∈ calls, results.count c = 1

instance (calls results : List String) : Decidable (Matched calls results) := by
  unfold Matched
  infer_instance

/-- Calls and results match when they are the same ids, each once. -/
theorem matched_iff {calls results : List String} : Matched calls results ↔ calls.Nodup ∧ calls.Perm results := by
  constructor
  · rintro ⟨hr, hc⟩
    have hmem : ∀ id, id ∈ calls ↔ id ∈ results := by
      intro id
      constructor
      · intro hid
        exact List.count_pos_iff.mp (by rw [hc id hid]; exact Nat.one_pos)
      · intro hid
        exact List.count_pos_iff.mp (by rw [hr id hid]; exact Nat.one_pos)
    have hnodup : calls.Nodup := List.nodup_iff_count_eq_one.mpr fun id hid => hr id ((hmem id).mp hid)
    have hnodup' : results.Nodup := List.nodup_iff_count_eq_one.mpr fun id hid => hc id ((hmem id).mpr hid)
    exact ⟨hnodup, (List.perm_ext_iff_of_nodup hnodup hnodup').mpr hmem⟩
  · rintro ⟨hnodup, hperm⟩
    refine ⟨fun r hr => ?_, fun c hc => ?_⟩
    · exact List.count_eq_one_of_mem hnodup (hperm.mem_iff.mpr hr)
    · exact List.count_eq_one_of_mem (hperm.nodup hnodup) (hperm.mem_iff.mp hc)

/-- The tool messages beneath a message answer its calls. -/
def AnsweredBy (head : Message) (results : List Message) : Prop :=
  Matched (callIds head) (results.map (·.toolCallId))

instance (head : Message) (results : List Message) : Decidable (AnsweredBy head results) := by
  unfold AnsweredBy
  infer_instance

/-- A history in which every call has an id of its own and is answered directly
beneath its message. -/
structure WellPaired (h : List Message) : Prop where
  grouped : Groups.Grouped isTool AnsweredBy h
  distinct : (h.flatMap callIds).Nodup
  nonempty : ∀ id ∈ h.flatMap callIds, id ≠ ""

end Wire
end AgentCore
