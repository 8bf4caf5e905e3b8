/-
# Patterns of the source

What the regular expressions of the source are made of: literals with and without
regard to case, white space, the border of a word. Beyond ASCII the characters of
`\w` are a parameter.

Key definitions: `Patterns.words`, `Patterns.spaced`, `Patterns.border`.
-/
import AgentCore.Lib.Regex
import AgentCore.Loop.LeakedReasoning

namespace AgentCore.Patterns

open Regex

/-- A literal. -/
def text (s : String) : Regex Char := tests (s.toList.map fun c => fun d => d = c)

/-- A literal in small letters, with `re.IGNORECASE`. -/
def words (s : String) : Regex Char := tests (Loop.LeakedReasoning.tests s)

/-- `\s*`. -/
def spaces : Regex Char := many (one Text.isSpace)

/-- `[_\s]*`. -/
def gap : Regex Char := many (one fun c => Text.isSpace c || c = '_')

/-- Literals with `[_\s]*` between them, with `re.IGNORECASE`. -/
def spaced : List String → Regex Char
  | [] => empty
  | [s] => words s
  | s :: t :: ss => seq (words s) (seq gap (spaced (t :: ss)))

variable (wordBeyond : Char → Bool)

/-- `\w`. -/
def isWord (c : Char) : Bool := if c.toNat < 128 then c.isAlphanum || c == '_' else wordBeyond c

/-- `\b`. -/
def border : Regex Char := place fun a b => a.any (isWord wordBeyond) != b.any (isWord wordBeyond)

end AgentCore.Patterns
