/-
# How a tool call fared against its targets

The verdicts of `stuck_target_guard.py`. A result with one host gives the verdict of
its text to that host. A result with several hosts gives a hard failure to none of
them, apart from a fetch whose text is divided into numbered blocks, where each block
counts for the hosts of its URL (`HardFailure`).

The text with which the guard answers a call itself is no success for any host
(`blockedText_not_succeeded`).

Key definitions: `resultVerdict`, `hostVerdicts`, `HardFailure`, `blockedText`.
Key theorems: `hardFailure_of_mem`, `blockedText_not_succeeded`.
-/
import AgentCore.Observers.TargetHosts

namespace AgentCore.Observers.StuckTarget

open Patterns Regex Text
open PyJson (Value)

inductive Verdict
  | failed
  | softFailed
  | succeeded
  | neutral
  deriving DecidableEq

/-- What the guard reads of a result. -/
structure ToolResult (F : Type) where
  name : String
  args : List (Chars × Value F)
  result : Chars
  isError : Bool

variable (u : Unicode)

/-! ### The patterns -/

/-- `\A|\n`. -/
def newLine : Regex Char := alt (place fun a _ => a.isNone) (one (· = '\n'))

/-- `^`, with `re.MULTILINE`. -/
def lineStart : Regex Char := place fun a _ => a.all (· = '\n')

/-- `(?:\A|\n)\s*(?:Info:\s*)?` and what is behind it. -/
def infoLine (r : Regex Char) : Regex Char :=
  seq newLine (seq spaces (seq (opt (seq (words "info:") spaces)) r))

def failureLineRe : Regex Char :=
  infoLine (anyOf [
    words "[error]", words "[not rendered]", words "[possibly not rendered]",
    words "[access blocked]", words "[blocked]", words "[stuck target blocked]",
    seq (words "[exit code")
      (seq (many1 (one isSpace)) (seq (opt (text "-")) (seq (many1 (digit u)) (text "]")))),
    words "error:", words "blocked:", words "url skipped:",
    words "could not extract content from", words "scraping failed:"])

def noResultRe : Regex Char := infoLine (anyOf [words "no results found", words "no results (error or empty)"])

def softFailureLineRe : Regex Char := infoLine (words "[possibly not rendered]")

/-- `(?:4\d\d|5\d\d)`. -/
def badStatus : Regex Char := alt (seq (text "4") (exactly 2 (digit u))) (seq (text "5") (exactly 2 (digit u)))

/-- `\b`, the expression, `\b`. -/
def bounded (r : Regex Char) : Regex Char := seq (border u.wordBeyond) (seq r (border u.wordBeyond))

def httpFailureRe : Regex Char :=
  anyOf [
    bounded u (seq (words "http") (seq (opt (seq (text "/") (many1 (one fun c => isDigit u c || c == '.'))))
      (seq spaces (seq (opt (seq (words "error") spaces)) (badStatus u))))),
    seq lineStart (seq spaces (seq (badStatus u) (seq spaces (text "--")))),
    bounded u (words "httperror"),
    seq (border u.wordBeyond) (seq (words "error code:") (seq spaces (many1 (digit u)))),
    seq (border u.wordBeyond)
      (seq (words "curl:") (seq spaces (seq (text "(") (seq (many1 (digit u)) (text ")"))))),
    bounded u (seq (opt (seq (text "403") (many1 (one isSpace)))) (words "forbidden")),
    bounded u (words "unauthorized"), bounded u (words "too many requests"),
    bounded u (seq (words "access ") (alt (words "denied") (words "denied"))),
    bounded u (words "service unavailable")]

def markupDumpRe : Regex Char :=
  anyOf [seq (words "<!doctype") (seq (many1 (one isSpace)) (words "html")),
    seq (words "<html") (border u.wordBeyond), seq (words "<script") (border u.wordBeyond)]

/-! ### Numbered blocks -/

/-- A match of `_NUMBERED_FETCH_BLOCK_RE`. -/
structure Block where
  url : Chars
  info : Chars

/-- `^\[\d+\]\s+URL:`. -/
def blockHead : Regex Char :=
  seq lineStart (seq (text "[") (seq (many1 (digit u)) (seq (text "]") (seq (many1 (one isSpace)) (words "url:")))))

/-- The text of a block goes on to the next block or to the end. -/
def infoEnd : Chars → Chars → Place Char
  | past, [] => ⟨past, []⟩
  | past, c :: t => if ((blockHead u).ends ⟨past, c :: t⟩).isEmpty then infoEnd (c :: past) t else ⟨past, c :: t⟩

def blockAt (q : Place Char) : Option (Block × Place Char) :=
  (((blockHead u).ends q).flatMap fun h => (spaces.ends h).flatMap fun a =>
    ((many1 (one (· ≠ '\n'))).ends a).flatMap fun b =>
      ((seq (text "\n") (seq spaces (seq (words "info:") spaces))).ends b).map fun c =>
        let e := infoEnd u c.past c.rest
        (⟨between a b, between c e⟩, e)).head?

def numberedBlocks (t : Chars) : List Block := findAll (blockAt u) t

/-! ### Verdicts -/

def isShellTool (name : String) : Bool := ["bash", "shell", "run_command"].contains (normalName name)

def vouchingToolHints : List String := ["web_fetch", "download"]

def mayVouch (name : String) : Bool := vouchingToolHints.any fun hint => contains (normalName name) hint

def isSearchTool (name : String) : Bool := contains (normalName name) "search"

def isFetchTool (name : String) : Bool := contains (normalName name) "web_fetch"

variable {F : Type}

/-- `_SOFT_FAILED if _is_search_tool(result.name) else _FAILED`. -/
def failureOf (name : String) : Verdict := if isSearchTool name then .softFailed else .failed

/-- `_result_verdict`. -/
def resultVerdict (r : ToolResult F) : Verdict :=
  if r.isError then failureOf r.name
  else
    let t := Trim.trim isSpace r.result
    if t = [] ∨ t = "(no output)".toList then failureOf r.name
    else if softFailureLineRe.search t then .softFailed
    else if noResultRe.search t then failureOf r.name
    else if (failureLineRe u).search t then failureOf r.name
    else if isShellTool r.name ∧ (httpFailureRe u).search t then .failed
    else if isShellTool r.name ∧ (markupDumpRe u).search t then .neutral
    else if mayVouch r.name then .succeeded
    else .neutral

def Verdict.rank : Verdict → ℕ
  | .failed => 2
  | .softFailed => 1
  | .succeeded => 0
  | .neutral => 0

/-- `_merge_verdict`. -/
def mergeVerdict : Option Verdict → Verdict → Verdict
  | none, new => new
  | some current, new =>
    if new = .succeeded then new
    else if current = .succeeded then current
    else if current.rank < new.rank then new
    else current

/-- The hosts of the URL of a block. -/
def blockHosts (b : Block) : List Host := (hostsInText u true b.url).dedup

def blockResult (r : ToolResult F) (b : Block) : ToolResult F := ⟨r.name, [], b.info, false⟩

/-- `_numbered_fetch_verdicts`, looked up at a host. -/
def numberedFetchVerdict (r : ToolResult F) (host : Host) : Option Verdict :=
  (numberedBlocks u r.result).foldl (fun current b =>
    if host ∈ blockHosts u b then some (mergeVerdict current (resultVerdict u (blockResult r b))) else current) none

/-- `_host_verdicts`. -/
def hostVerdicts (r : ToolResult F) (hosts : List Host) : List (Host × Verdict) :=
  if hosts.length ≤ 1 then hosts.map fun h => (h, resultVerdict u r)
  else if isFetchTool r.name then hosts.filterMap fun h => (numberedFetchVerdict u r h).map fun v => (h, v)
  else
    let v := resultVerdict u r
    hosts.map fun h => (h, if v = .failed then .softFailed else v)

/-- The hosts of the call that a result belongs to. -/
def ToolResult.hosts (r : ToolResult F) : List Host := hostsForTool u r.name (.obj r.args)

/-! ### Hard failures -/

variable {u}

/-- A hard failure of a host: a result with this host only reads as one, or in the
result of a fetch a numbered block for this host does. -/
inductive HardFailure (u : Unicode) (r : ToolResult F) (h : Host) : Prop
  | whole (only : r.hosts u = [h]) (fails : resultVerdict u r = .failed)
  | block (fetch : isFetchTool r.name = true) (b : Block) (mem : b ∈ numberedBlocks u r.result)
      (names : h ∈ blockHosts u b) (fails : resultVerdict u (blockResult r b) = .failed)

theorem mergeVerdict_failed {current : Option Verdict} {new : Verdict} (h : mergeVerdict current new = .failed) :
    current = some .failed ∨ new = .failed := by
  cases current with
  | none => exact .inr h
  | some current =>
    rw [mergeVerdict] at h
    split at h
    · exact .inr h
    · split at h
      · exact .inl (congrArg some h)
      · split at h
        · exact .inr h
        · exact .inl (congrArg some h)

theorem numberedFetchVerdict_failed {r : ToolResult F} {h : Host} (hv : numberedFetchVerdict u r h = some .failed) :
    ∃ b ∈ numberedBlocks u r.result, h ∈ blockHosts u b ∧ resultVerdict u (blockResult r b) = .failed := by
  have hfold : ∀ (bs : List Block) (current : Option Verdict),
      bs.foldl (fun current b => if h ∈ blockHosts u b then
        some (mergeVerdict current (resultVerdict u (blockResult r b))) else current) current = some .failed →
      current = some .failed ∨ ∃ b ∈ bs, h ∈ blockHosts u b ∧ resultVerdict u (blockResult r b) = .failed := by
    intro bs
    induction bs with
    | nil => exact fun current hc => .inl hc
    | cons b bs ih =>
      intro current hc
      rw [List.foldl_cons] at hc
      rcases ih _ hc with hb | ⟨b', hb', hfails⟩
      · by_cases hmem : h ∈ blockHosts u b
        · rw [if_pos hmem] at hb
          rcases mergeVerdict_failed (Option.some.inj hb) with hcur | hnew
          · exact .inl hcur
          · exact .inr ⟨b, List.mem_cons_self, hmem, hnew⟩
        · rw [if_neg hmem] at hb
          exact .inl hb
      · exact .inr ⟨b', List.mem_cons_of_mem b hb', hfails⟩
  exact (hfold _ none hv).resolve_left nofun

/-- **A failed verdict** is a hard failure of the host. -/
theorem hardFailure_of_mem {r : ToolResult F} {h : Host} (hv : (h, .failed) ∈ hostVerdicts u r (r.hosts u)) :
    HardFailure u r h := by
  unfold hostVerdicts at hv
  by_cases hlen : (r.hosts u).length ≤ 1
  · rw [if_pos hlen] at hv
    obtain ⟨h', hmem, heq⟩ := List.mem_map.mp hv
    obtain ⟨rfl, hfails⟩ := Prod.mk.inj heq
    obtain ⟨x, hx⟩ := List.length_eq_one_iff.mp (le_antisymm hlen (List.length_pos_of_mem hmem))
    rw [hx] at hmem
    rw [← List.mem_singleton.mp hmem] at hx
    exact .whole hx hfails
  · rw [if_neg hlen] at hv
    by_cases hfetch : isFetchTool r.name = true
    · rw [if_pos hfetch] at hv
      obtain ⟨h', -, heq⟩ := List.mem_filterMap.mp hv
      obtain ⟨v, hv', heq⟩ := Option.map_eq_some_iff.mp heq
      obtain ⟨rfl, rfl⟩ := Prod.mk.inj heq
      obtain ⟨b, hb, hnames, hfails⟩ := numberedFetchVerdict_failed hv'
      exact .block hfetch b hb hnames hfails
    · rw [if_neg hfetch] at hv
      obtain ⟨h', -, heq⟩ := List.mem_map.mp hv
      have hsoft := (Prod.mk.inj heq).2
      by_cases hfails : resultVerdict u r = .failed
      · rw [if_pos hfails] at hsoft
        cases hsoft
      · rw [if_neg hfails] at hsoft
        exact absurd hsoft hfails

theorem mem_hosts_of_mem_verdicts {r : ToolResult F} {hosts : List Host} {e : Host × Verdict}
    (he : e ∈ hostVerdicts u r hosts) : e.1 ∈ hosts := by
  unfold hostVerdicts at he
  split at he
  · obtain ⟨h, hh, rfl⟩ := List.mem_map.mp he
    exact hh
  · split at he
    · obtain ⟨h, hh, heq⟩ := List.mem_filterMap.mp he
      obtain ⟨v, -, rfl⟩ := Option.map_eq_some_iff.mp heq
      exact hh
    · obtain ⟨h, hh, rfl⟩ := List.mem_map.mp he
      exact hh

/-! ### The answer of the guard -/

def quoted (h : Host) : Chars := '\x60' :: h ++ ['\x60']

/-- `", ".join`. -/
def joined : List Host → Chars
  | [] => []
  | [h] => quoted h
  | h :: h' :: hs => quoted h ++ ", ".toList ++ joined (h' :: hs)

/-- The text with which a call that targets these hosts is skipped. -/
def blockedText (hosts : List Host) : Chars :=
  "[STUCK TARGET BLOCKED]".toList ++ (" Further calls targeting ".toList ++ joined hosts ++
    " are disabled for this run after repeated confirmed failures. Use a different source or finish with an explicit limitation".toList ++
    ['.'])

theorem joined_oneLine : ∀ {hosts : List Host}, (∀ h ∈ hosts, OneLine h) → '\n' ∉ joined hosts
  | [], _ => List.not_mem_nil
  | [h], hall => by
    have hh : '\n' ∉ h := hall h List.mem_cons_self
    simp [joined, quoted, hh]
  | h :: h' :: hs, hall => by
    have hh : '\n' ∉ h := hall h List.mem_cons_self
    have hrest : '\n' ∉ joined (h' :: hs) := joined_oneLine fun x hx => hall x (List.mem_cons_of_mem h hx)
    rw [joined]
    simp [quoted, hh, hrest]

theorem blockedText_oneLine {hosts : List Host} (hall : ∀ h ∈ hosts, OneLine h) : '\n' ∉ blockedText hosts := by
  have hjoined := joined_oneLine hall
  unfold blockedText
  simp only [List.mem_append, not_or]
  exact ⟨by decide, ⟨⟨by decide, hjoined⟩, by decide +kernel⟩, by decide⟩

/-- It reads as a failure: it begins like one. -/
theorem search_blockedText (hosts : List Host) : (failureLineRe u).search (blockedText hosts) = true := by
  unfold blockedText
  generalize " Further calls targeting ".toList ++ joined hosts ++ _ ++ ['.'] = behind
  have hhead := mem_ends_tests (Loop.LeakedReasoning.tests "[stuck target blocked]") "[STUCK TARGET BLOCKED]".toList []
    behind (by decide) (by decide)
  have hmatch : (⟨"[STUCK TARGET BLOCKED]".toList.reverse ++ [], behind⟩ : Place Char) ∈
      (failureLineRe u).ends ⟨[], "[STUCK TARGET BLOCKED]".toList ++ behind⟩ := by
    refine mem_ends_seq (mem_ends_left (List.mem_singleton_self _)) ?_
    refine mem_ends_seq (mem_ends_many _ _) ?_
    refine mem_ends_seq (mem_ends_right (List.mem_singleton_self _)) ?_
    refine mem_ends_anyOf ?_ hhead
    exact .tail _ (.tail _ (.tail _ (.tail _ (.tail _ (.head _)))))
  exact search_of_ends hmatch

theorem trim_blockedText (hosts : List Host) : Trim.trim isSpace (blockedText hosts) = blockedText hosts := by
  apply Trim.trim_of_ends
  · rfl
  · unfold blockedText
    simp only [List.reverse_append, List.reverse_singleton, List.append_assoc, List.singleton_append]
    rfl

theorem resultVerdict_blockedText {r : ToolResult F} {hosts : List Host} (hr : r.result = blockedText hosts) :
    resultVerdict u r ≠ .succeeded := by
  have hfailure : failureOf r.name ≠ .succeeded := by
    unfold failureOf
    split
    · nofun
    · nofun
  unfold resultVerdict
  by_cases herror : r.isError = true
  · rw [if_pos herror]
    exact hfailure
  rw [if_neg herror, hr]
  dsimp only
  rw [trim_blockedText]
  by_cases hnone : blockedText hosts = [] ∨ blockedText hosts = "(no output)".toList
  · rw [if_pos hnone]
    exact hfailure
  rw [if_neg hnone]
  by_cases hsoft : softFailureLineRe.search (blockedText hosts) = true
  · rw [if_pos hsoft]
    nofun
  rw [if_neg hsoft]
  by_cases hnothing : noResultRe.search (blockedText hosts) = true
  · rw [if_pos hnothing]
    exact hfailure
  rw [if_neg hnothing, if_pos (search_blockedText hosts)]
  exact hfailure

/-- A numbered block begins on a line with a number in brackets. -/
theorem blockHead_ends {q b : Place Char} (h : b ∈ (blockHead u).ends q) :
    q.past.head?.all (· = '\n') = true ∧ ∃ c t, q.rest = '[' :: c :: t ∧ isDigit u c = true := by
  obtain ⟨q₁, hstart, hbracketed⟩ := List.mem_flatMap.mp h
  obtain ⟨hline, hq₁⟩ := of_mem_ends_place hstart
  obtain ⟨q₂, hbracket, hnumber⟩ := List.mem_flatMap.mp hbracketed
  obtain ⟨q₃, hone, hempty⟩ := List.mem_flatMap.mp hbracket
  obtain ⟨x, t, hrest, hx, hq₃⟩ := of_mem_ends_one hone
  have hq₂ : q₂ = q₃ := List.mem_singleton.mp hempty
  obtain ⟨q₄, hdigits, -⟩ := List.mem_flatMap.mp hnumber
  obtain ⟨q₅, hdigit, -⟩ := List.mem_flatMap.mp hdigits
  obtain ⟨c, t', hrest', hc, -⟩ := of_mem_ends_one hdigit
  have hx : x = '[' := of_decide_eq_true hx
  rw [hq₂, hq₃] at hrest'
  have ht : t = c :: t' := hrest'
  refine ⟨hline, c, t', ?_, hc⟩
  rw [← hq₁, hrest, hx, ht]

/-- There are no such blocks in it: it is on one line, and has no number there. -/
theorem numberedBlocks_blockedText {hosts : List Host} (hall : ∀ h ∈ hosts, OneLine h) :
    numberedBlocks u (blockedText hosts) = [] := by
  apply List.eq_nil_iff_forall_not_mem.mpr
  intro block hblock
  obtain ⟨q, q', hat, htext⟩ := exists_of_mem_findAll hblock
  obtain ⟨b, hb, -⟩ := List.mem_flatMap.mp (List.mem_of_mem_head? hat)
  obtain ⟨hline, c, t, hrest, hc⟩ := blockHead_ends hb
  cases hpast : q.past with
  | nil =>
    rw [hpast, hrest] at htext
    have hsecond : c = 'S' := by
      unfold blockedText at htext
      have htail := congrArg List.tail htext
      exact (List.cons.inj htail).1
    have hdigit : isDigit u 'S' = false := rfl
    rw [hsecond, hdigit] at hc
    cases hc
  | cons x past =>
    rw [hpast] at hline
    have hx : x = '\n' := of_decide_eq_true hline
    refine blockedText_oneLine hall ?_
    rw [← htext, hpast, hx]
    simp

/-- **The answer of the guard** is no success for any host. -/
theorem blockedText_not_succeeded {r : ToolResult F} {blocked hosts : List Host} (hr : r.result = blockedText blocked)
    (hall : ∀ h ∈ blocked, OneLine h) : ∀ e ∈ hostVerdicts u r hosts, e.2 ≠ .succeeded := by
  intro e he
  have hverdict : resultVerdict u r ≠ .succeeded := resultVerdict_blockedText hr
  unfold hostVerdicts at he
  by_cases hlen : hosts.length ≤ 1
  · rw [if_pos hlen] at he
    obtain ⟨h, -, rfl⟩ := List.mem_map.mp he
    exact hverdict
  rw [if_neg hlen] at he
  by_cases hfetch : isFetchTool r.name = true
  · rw [if_pos hfetch] at he
    obtain ⟨h, -, heq⟩ := List.mem_filterMap.mp he
    have hnone : numberedFetchVerdict u r h = none := by
      unfold numberedFetchVerdict
      rw [hr, numberedBlocks_blockedText hall]
      rfl
    rw [hnone] at heq
    cases heq
  · rw [if_neg hfetch] at he
    obtain ⟨h, -, rfl⟩ := List.mem_map.mp he
    dsimp only
    split
    · nofun
    · exact hverdict

end AgentCore.Observers.StuckTarget
