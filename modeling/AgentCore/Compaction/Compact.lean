/-
# Compaction without a summarizer

The functions of `compact.py`: the split of a history into what is pinned,
what is squashed and what is kept (`partitionForCompaction`), the squash
itself (`compactMessages`), the condensing of large tool results
(`compressToolResults`), and the compactor that replaces old tool bodies by
mini cards (`KeepLastN.compact`).

A spill callback is a function of the tool name and the body; `none` is a
callback that declines or raises. The token estimate of a text is a
parameter: the tokenizer behind it is not part of the repository. Dictionaries
keyed by a call id are association lists in which the last entry wins.

Key definitions: `partitionForCompaction`, `compactMessages`,
`stripStaleReasoning`, `condense`, `compressToolResults`, `KeepLastN.compact`.
-/
import AgentCore.Messages
import AgentCore.Lib.Double

namespace AgentCore
namespace Compaction

open Text

def omittedToolResultPlaceholder : String :=
  "Tool result dropped to save tokens. You already read it; re-running the " ++
    "same call will not restore it. Rely on your notes and later messages."

def legacyOmittedToolResultPlaceholders : List String := ["Tool result is omitted to save tokens."]

def toolResultCompactMaxChars : ℕ := 1200

def miniCardArgsMaxChars : ℕ := 120

def miniCardBodyMaxChars : ℕ := 400

def spillManifestHeader : String :=
  "[Read-only recovery index; use only for missing older detail. Never write here.]"

def defaultRecoveryFooter (spillPath : String) : String := "[Full text] " ++ spillPath

/-! ### Dictionaries by call id -/

/-- `d.get(key)`, the last write to a key being the one that counts. -/
def dictGet (d : List (String × String)) (key : String) : Option String := d.reverse.lookup key

def toolNamesByCallId (messages : History) : List (String × String) :=
  (messages.filter isAssistantMsg).flatMap fun m =>
    (m.toolCalls.filter fun tc => tc.id ≠ "" ∧ tc.name ≠ "").map fun tc => (tc.id, tc.name)

/-- `d.get(key) in names`. -/
def namesOne (d : List (String × String)) (names : List String) (key : String) : Bool :=
  (dictGet d key).any (· ∈ names)

/-- A call's arguments on one short line. -/
def argsPreview (raw : String) : String :=
  let collapsed := strip (String.ofList (collapseSpaces false raw.toList))
  if collapsed.length ≤ miniCardArgsMaxChars then collapsed
  else take collapsed (miniCardArgsMaxChars - 1) ++ "\u2026"

/-- The first half of `_tool_args_by_call_id`: the previews. -/
def toolArgsByCallId (messages : History) : List (String × String) :=
  (messages.filter isAssistantMsg).flatMap fun m =>
    ((m.toolCalls.filter fun tc => tc.id ≠ "").map fun tc => (tc.id, argsPreview tc.arguments)).filter
      fun e => e.2 ≠ ""

/-- The second half of `_tool_args_by_call_id`: the first source URL of the
complete arguments. -/
def toolArgUrlsByCallId (messages : History) : List (String × String) :=
  (messages.filter isAssistantMsg).flatMap fun m =>
    (m.toolCalls.filter fun tc => tc.id ≠ "").filterMap fun tc =>
      (firstUrl tc.arguments).map fun url => (tc.id, url)

/-! ### Mini cards -/

def sourceUrlsLine (urls : List String) : String := "[Source URLs] " ++ join " | " urls

/-- The URLs a card takes from the body, in order, until the card is full. -/
def cardUrls (argsPreview : String) (lines : List String) (maxUrls : ℕ) :
    List String → List String → List String
  | taken, [] => taken
  | taken, url :: rest =>
    if maxUrls ≤ taken.length then taken
    -- a fetch's card would print its own url twice
    else if contains argsPreview url then cardUrls argsPreview lines maxUrls taken rest
    else if miniCardBodyMaxChars < (join "\n" (lines ++ [sourceUrlsLine (taken ++ [url])])).length then taken
    else cardUrls argsPreview lines maxUrls (taken ++ [url]) rest

def cardCallLine (toolName argsPreview : String) : List String :=
  if toolName = "" ∧ argsPreview = "" then []
  else
    let line :=
      if argsPreview ≠ "" then "[Called: " ++ toolName ++ "(" ++ argsPreview ++ ")]"
      else "[Called: " ++ toolName ++ "]"
    if miniCardBodyMaxChars < line.length then [take line (miniCardBodyMaxChars - 1) ++ "\u2026"] else [line]

/-- The lines that stand in for a discarded tool body. -/
def elidedToolCard (toolName argsPreview argsSourceUrl content : String) (maxUrls : ℕ) : String :=
  if (firstUrl content).isNone ∧ argsSourceUrl = "" then
    if toolName ≠ "" then "[Called: " ++ toolName ++ "]" else ""
  else
    let lines := cardCallLine toolName argsPreview
    let found := cardUrls argsPreview lines maxUrls [] (fromKeys (urls content))
    if found ≠ [] then join "\n" (lines ++ [sourceUrlsLine found])
    else if argsSourceUrl ≠ "" ∧ contains argsPreview argsSourceUrl = false then
      let candidate := lines ++ ["[Source URLs] " ++ argsSourceUrl]
      if (join "\n" candidate).length ≤ miniCardBodyMaxChars then join "\n" candidate else join "\n" lines
    else join "\n" lines

/-- A handle that already backs the body: `spill_refs` before
`result_store_ref`. -/
def messageRecoveryRef (m : Message) : String :=
  let refs := (m.spillRefs.getD []).filter (· ≠ "")
  let refs := if m.resultStoreRef ≠ "" ∧ m.resultStoreRef ∉ refs then refs ++ [m.resultStoreRef] else refs
  refs.headD ""

/-! ### Condensing -/

/-- The URLs a condensed result keeps, while their section fits its budget. -/
def condenseUrls (budget : ℕ) : List String → List String → List String
  | taken, [] => taken
  | taken, url :: rest =>
    if budget < ("\n[Source URLs]\n" ++ join "\n" (taken ++ [url])).length then taken
    else condenseUrls budget (taken ++ [url]) rest

/-- `int(remaining * 0.7)`, and zero when there is no room. -/
def headSize (remaining : ℤ) : ℕ :=
  if remaining ≤ 0 then 0 else Double.truncMul 6305039478318694 53 remaining.toNat

/-- Head, tail and URLs of a text, never longer than the text. -/
def condense (content : String) (maxChars : ℕ) : String :=
  let pre := "[Compressed tool result: " ++ thousands content.length ++ " characters]\n"
  let marker := "\n… [middle omitted] …\n"
  let urlLines := condenseUrls (maxChars / 2) [] (fromKeys (urls content))
  let urlSection := if urlLines = [] then "" else "\n[Source URLs]\n" ++ join "\n" urlLines
  let remaining : ℤ := (maxChars : ℤ) - pre.length - marker.length - urlSection.length
  let head := headSize remaining
  let tail := (remaining - head).toNat
  let summary := pre ++ take content head ++ marker ++ takeEnd content tail ++ urlSection
  if summary.length < content.length then summary else content

def carriesReasoning (m : Message) : Bool := isAssistantMsg m && m.reasoningContent != ""

/-- `f` on the first `k` messages that satisfy `q`. -/
def rewriteFirst (q : Message → Bool) (f : Message → Message) : ℕ → History → History
  | 0, ms => ms
  | _, [] => []
  | k + 1, m :: ms => if q m then f m :: rewriteFirst q f k ms else m :: rewriteFirst q f (k + 1) ms

/-- Drops the reasoning of all but the last `keepLast` assistants that carry
one. -/
def stripStaleReasoning (messages : History) (keepLast : ℤ) : History :=
  if keepLast < 0 then messages
  else rewriteFirst carriesReasoning (fun m => { m with reasoningContent := "" })
    (messages.countP carriesReasoning - keepLast.toNat) messages

/-- What `compress_tool_results` makes of one message. -/
def compressOne (idToName : List (String × String)) (maxChars : ℕ) (protectToolNames : List String)
    (protectMaxChars : Option ℕ) (preserveToolResultIds : List String) (m : Message) : Message :=
  if isToolMsg m = false ∨ m.toolCallId ∈ preserveToolResultIds then m
  else
    let guarded := namesOne idToName protectToolNames m.toolCallId
    if guarded ∧ protectMaxChars = none then m
    else
      let budget := if guarded then protectMaxChars.getD maxChars else maxChars
      let content := textOf m.content
      if content.length ≤ budget then m else { m with content := .text (condense content budget) }

/-- `compress_tool_results` past its argument checks. -/
def compressWith (messages : History) (maxChars : ℕ) (protectToolNames : List String)
    (protectMaxChars : Option ℕ) (preserveToolResultIds : List String) : History :=
  let idToName := if protectToolNames = [] then [] else toolNamesByCallId messages
  stripStaleReasoning
    (messages.map (compressOne idToName maxChars protectToolNames protectMaxChars preserveToolResultIds)) 1

/-- Every large tool result condensed. -/
def compressToolResults (messages : History) (maxChars : ℕ) (protectToolNames : List String)
    (protectMaxChars : Option ℕ) (preserveToolResultIds : List String) : Except String History :=
  if maxChars < 200 then .error "max_chars must be at least 200"
  else if protectMaxChars.any (· < 200) then .error "protect_max_chars must be at least 200"
  else .ok (compressWith messages maxChars protectToolNames protectMaxChars preserveToolResultIds)

/-! ### Estimates -/

/-- The tokens of a history, with four for each message; `est` counts those of
a text. -/
def estimateTokens (est : String → ℕ) (messages : History) : ℕ :=
  (messages.map fun m => est (textOf m.content) + 4 + est m.reasoningContent).sum

/-! ### Partition and squash -/

/-- The first message after the system messages is the task as the user wrote
it, not the rollup of an earlier compaction. -/
def pinsFirst (rest : History) : Bool :=
  match rest with
  | m :: _ => isUserMsg m && !startsWith (textOf m.content) "[Compacted"
  | [] => false

/-- The split moved back to the message above a tail of tool messages. -/
def walkBack (rest : History) : ℕ → ℕ
  | 0 => 0
  | i + 1 => if (rest[i + 1]?).any isToolMsg then walkBack rest i else i + 1

/-- Where the squashed part ends: past the tool messages at the cut, or above
the block they belong to when nothing else follows. -/
def splitIndex (rest : History) (keepRecent : ℕ) : ℕ :=
  let split := rest.length - keepRecent
  let forward := split + ((rest.drop split).takeWhile isToolMsg).length
  if forward < rest.length then forward
  else if split < rest.length then walkBack rest split
  else split

/-- Pinned, squashed and kept part of a history. -/
def partitionForCompaction (messages : History) (keepRecent : ℕ) : History × History × History :=
  let lead := messages.takeWhile isSystemMsg
  let rest := messages.dropWhile isSystemMsg
  if rest.length ≤ keepRecent then (lead, [], rest)
  else
    let pinned := if 0 < keepRecent ∧ pinsFirst rest then 1 else 0
    let lead := lead ++ rest.take pinned
    let rest := rest.drop pinned
    if rest.length ≤ keepRecent then (lead, [], rest)
    else (lead, rest.take (splitIndex rest keepRecent), rest.drop (splitIndex rest keepRecent))

/-- One call in a squashed line. -/
def callSnippet (tc : ToolCall) : String := tc.name ++ "(" ++ take tc.arguments 120 ++ ")"

/-- The snippet a squashed message leaves. -/
def squashLine (m : Message) : Option String :=
  let content := strip (textOf m.content)
  if startsWith content "[Compacted" then none
  else if m.spillRefs.any (· ≠ []) ∨ contains content spillManifestHeader then none
  else match m.role with
    | .user => if content ≠ "" then some ("[User: " ++ take content 400 ++ "]") else none
    | .assistant =>
      if m.toolCalls ≠ [] then
        let tcLine := join "; " ((m.toolCalls.take 3).map callSnippet)
        if content ≠ "" then some ("[Agent: " ++ take content 200 ++ " | called: " ++ tcLine ++ "]")
        else some ("[Agent called: " ++ tcLine ++ "]")
      else if content ≠ "" then some ("[Agent: " ++ take content 300 ++ "]")
      else none
    | .tool =>
      let toolName := if m.name ≠ "" then m.name else "tool"
      let urlTag := match firstUrl content with
        | some url => " url=" ++ url
        | none => ""
      if content ≠ "" then some ("[Tool " ++ toolName ++ urlTag ++ ": " ++ take content 300 ++ "]") else none
    | .system => none

/-- The one message the middle is squashed into. -/
def squash (middle : History) : Message :=
  let parts := middle.filterMap squashLine
  let body := join "\n" (parts.drop (parts.length - 20))
  let text := "[Compacted " ++ toString middle.length ++ " earlier messages]"
  userMsg (if body ≠ "" then text ++ "\n" ++ body else text)

def compactMessages (messages : History) (keepRecent : ℕ) : History :=
  let (lead, middle, recent) := partitionForCompaction messages keepRecent
  if middle = [] then messages else lead ++ squash middle :: recent

/-! ### Keep the last tool results -/

/-- A spill callback: the path the body went to, or `none` when it declines or
raises. -/
abbrev Spill := String → String → Option String

/-- `KeepLastNToolResultsCompactor`, with what its constructor checks. -/
structure KeepLastN where
  keep : ℤ
  protectToolNames : List String
  spill : Option Spill
  recoveryFooter : String → String
  maxCardUrls : ℕ
  keep_ge : -1 ≤ keep

namespace KeepLastN

variable (c : KeepLastN)

/-- What becomes of one old tool result. -/
def elideOne (idToName idToArgs idToArgUrl : List (String × String)) (m : Message) : Message :=
  let content := textOf m.content
  if namesOne idToName c.protectToolNames m.toolCallId then m
  else if startsWith content omittedToolResultPlaceholder ||
      legacyOmittedToolResultPlaceholders.any (startsWith content) then m
  else
    let ref := messageRecoveryRef m
    let spillPath := if ref ≠ "" then ref
      else (c.spill.bind (· ((dictGet idToName m.toolCallId).getD "tool") content)).getD ""
    -- a configured spill that declines keeps the body
    if c.spill.isSome ∧ spillPath = "" then m
    else
      let card := elidedToolCard ((dictGet idToName m.toolCallId).getD "")
        ((dictGet idToArgs m.toolCallId).getD "") ((dictGet idToArgUrl m.toolCallId).getD "") content
        c.maxCardUrls
      let placeholder := omittedToolResultPlaceholder ++
        (if card ≠ "" then "\n" ++ card else "") ++
        (if spillPath ≠ "" then "\n" ++ c.recoveryFooter spillPath else "")
      if spillPath = "" ∧ content.length ≤ placeholder.length then m
      else { toolMsg placeholder m.toolCallId with
        spillRefs := if spillPath ≠ "" then some [spillPath] else none }

def compact (messages : History) : History :=
  if c.keep = -1 then messages
  else
    let messages := stripStaleReasoning messages (max c.keep 1)
    let tools := messages.countP isToolMsg
    rewriteFirst isToolMsg
      (c.elideOne (toolNamesByCallId messages) (toolArgsByCallId messages) (toolArgUrlsByCallId messages))
      (tools - c.keep.toNat) messages

end KeepLastN

end Compaction
end AgentCore
