/-
# Messages

The chat messages of `messages.py`, in the OpenAI wire format with the
in-process keys the loop adds. A key that the code reads with a falsy default
is a field whose empty value means that the key is absent; `spill_refs` is an
option, since one reader asks whether the key is there at all. Left out are
`duration_ms` and `is_error`, which only the terminal's own copy of a history
carries.

Key definitions: `Message`, `textOf`, `toolMsg`, `userMsg`, `callIds`.
-/
import AgentCore.Text

namespace AgentCore

inductive Role
  | system | user | assistant | tool
  deriving DecidableEq, Repr

/-- `{"type": "function", "id": …, "function": {"name": …, "arguments": …}}`,
the arguments as JSON text. -/
structure ToolCall where
  id : String
  name : String
  arguments : String
  deriving DecidableEq, Repr

/-- One entry of a list content. -/
inductive Block
  | str (s : String)
  | text (text : String)
  | imageUrl (url : String)
  | thinking (thinking signature : String)
  | redactedThinking (data : String)
  | other (type text content : String)
  deriving DecidableEq, Repr

inductive Content
  | none
  | text (s : String)
  | blocks (bs : List Block)
  deriving DecidableEq, Repr

/-- Bookkeeping for one inline image. -/
structure ImageMeta where
  label : String
  tokens : ℕ
  deriving DecidableEq, Repr

structure Message where
  role : Role
  content : Content := .text ""
  name : String := ""
  toolCalls : List ToolCall := []
  toolCallId : String := ""
  reasoningContent : String := ""
  spillRefs : Option (List String) := none
  resultStoreRef : String := ""
  imageMeta : List ImageMeta := []
  transient : Bool := false
  deriving DecidableEq, Repr

abbrev History := List Message

/-! ### Builders -/

def systemMsg (content : String) : Message := { role := .system, content := .text content }

def userMsg (content : String) : Message := { role := .user, content := .text content }

def assistantMsg (content : Content) (toolCalls : List ToolCall) (reasoning : String) : Message :=
  { role := .assistant, content := content, toolCalls := toolCalls, reasoningContent := reasoning }

def toolMsg (content toolCallId : String) : Message :=
  { role := .tool, content := .text content, toolCallId := toolCallId }

/-! ### Helpers -/

/-- What an inline image reads as in flat text. -/
def imagePlaceholder : String := "[image — not visible in this text-only rendering]"

/-- `block.get("text") or block.get("content") or ""`, with an image leaving a
mark; a thinking block has neither key. -/
def Block.flat : Block → String
  | .str s => s
  | .text s => s
  | .imageUrl _ => imagePlaceholder
  | .thinking _ _ => ""
  | .redactedThinking _ => ""
  | .other _ t c => if t ≠ "" then t else c

def textOf : Content → String
  | .none => ""
  | .text s => s
  | .blocks bs => Text.join "\n" (bs.map Block.flat)

def isToolMsg (m : Message) : Bool := m.role == .tool

def isAssistantMsg (m : Message) : Bool := m.role == .assistant

def isUserMsg (m : Message) : Bool := m.role == .user

def isSystemMsg (m : Message) : Bool := m.role == .system

/-- The ids an assistant message records. -/
def callIds (m : Message) : List String :=
  if isAssistantMsg m then m.toolCalls.map (·.id) else []

/-- The ids the tool messages of a history answer. -/
def toolIds (h : History) : List String := (h.filter isToolMsg).map (·.toolCallId)

@[simp] theorem isToolMsg_userMsg (s : String) : isToolMsg (userMsg s) = false := rfl

@[simp] theorem isToolMsg_toolMsg (s id : String) : isToolMsg (toolMsg s id) = true := rfl

@[simp] theorem isSystemMsg_userMsg (s : String) : isSystemMsg (userMsg s) = false := rfl

@[simp] theorem callIds_userMsg (s : String) : callIds (userMsg s) = [] := rfl

@[simp] theorem toolCallId_toolMsg (s id : String) : (toolMsg s id).toolCallId = id := rfl

theorem callIds_of_not_assistant {m : Message} (h : isAssistantMsg m = false) : callIds m = [] := by
  simp [callIds, h]

theorem isToolMsg_of_user {m : Message} (h : isUserMsg m = true) : isToolMsg m = false := by
  simp only [isUserMsg, beq_iff_eq] at h
  simp [isToolMsg, h]

theorem isAssistantMsg_of_user {m : Message} (h : isUserMsg m = true) : isAssistantMsg m = false := by
  simp only [isUserMsg, beq_iff_eq] at h
  simp [isAssistantMsg, h]

theorem isToolMsg_of_assistant {m : Message} (h : isAssistantMsg m = true) : isToolMsg m = false := by
  simp only [isAssistantMsg, beq_iff_eq] at h
  simp [isToolMsg, h]

theorem isAssistantMsg_of_tool {m : Message} (h : isToolMsg m = true) : isAssistantMsg m = false := by
  simp only [isToolMsg, beq_iff_eq] at h
  simp [isAssistantMsg, h]

end AgentCore
