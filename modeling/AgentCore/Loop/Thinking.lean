/-
# Inline thinking in answers and in the history

A model of the tag format writes its reasoning into its answer, between
`<think>` and `</think>`. Three functions deal with it. `_strip_thinking_blocks`
takes it out of a final answer: closed blocks, what stands behind an opening tag
that is not closed, and what stands before a closing tag that nothing opened.
The thinking parser cuts an answer into thinking and visible text for the
history, but knows closed blocks only. `assistant_msg_with_reasoning` writes the
two back into one content.

Left out are the summaries of Responses reasoning items; how much of a turn's
reasoning a cap keeps is a parameter.

Key definitions: `stripThinkingBlocks`, `extractFinalContent`, `extract`,
`toHistory`, `WellTagged`, `shown`.
Key theorems: `final_content_clean`, `history_hides_iff`, `thinking_round_trip`.
-/
import AgentCore.Lib.Blocks
import AgentCore.Lib.Trim
import AgentCore.Messages

namespace AgentCore.Loop.Thinking

open Blocks

def openTag : List Char := "<think>".toList

def closeTag : List Char := "</think>".toList

/-- Neither tag stands in the text. -/
def NoTag (t : List Char) : Prop := ¬openTag <:+: t ∧ ¬closeTag <:+: t

/-- `_THINK_BLOCK_RE` and `_THINK_RE`, which differ in what is captured. -/
def thinkBlock : Pattern Char Unit := tagged openTag closeTag (by decide) Text.isSpace

/-- `str.strip` on characters. -/
def strip (t : List Char) : List Char := Trim.trim Text.isSpace t

theorem toList_strip (s : String) : (Text.strip s).toList = strip s.toList := by
  unfold Text.strip
  rw [String.toList_ofList]
  rfl

/-! ### The final answer -/

/-- `_strip_thinking_blocks` on characters. -/
def stripBlocks (t : List Char) : List Char :=
  let t := thinkBlock.before (thinkBlock.sub [] t)
  strip ((Cut.afterLast closeTag t).getD t)

/-- `_strip_thinking_blocks`. -/
def stripThinkingBlocks (text : String) : String := String.ofList (stripBlocks text.toList)

/-- `block.get("text") or block.get("content") or ""`; an image or a thinking
block has neither. -/
def blockValue : Block → String
  | .text s => s
  | .other _ t c => if t ≠ "" then t else c
  | _ => ""

/-- `_flatten_message_text`: a text block is taken even where it is empty. -/
def flattenMessageText : Content → String
  | .none => ""
  | .text s => s
  | .blocks bs =>
    Text.join "\n" (bs.filterMap fun
      | .str s => some s
      | b => if blockValue b ≠ "" then some (blockValue b) else none)

/-- The walk of `extract_final_content`, the latest message first. -/
def latestContent : List Message → String
  | [] => ""
  | m :: ms =>
    if isAssistantMsg m then
      let cleaned := stripThinkingBlocks (flattenMessageText m.content)
      if cleaned ≠ "" then cleaned else latestContent ms
    else latestContent ms

/-- `extract_final_content`. -/
def extractFinalContent (messages : History) : String := latestContent messages.reverse

theorem NoTag.ofInfix {s t : List Char} (h : NoTag t) (hs : s <:+: t) : NoTag s :=
  ⟨fun ho => h.1 (ho.trans hs), fun hc => h.2 (hc.trans hs)⟩

theorem noTag_nil : NoTag [] := by
  unfold NoTag
  decide

/-- Stripping leaves no tag that was not there, and destroys none. -/
theorem noTag_strip {t : List Char} : NoTag (strip t) ↔ NoTag t := by
  refine ⟨fun h => ⟨fun ho => h.1 ?_, fun hc => h.2 ?_⟩, fun h => h.ofInfix (Trim.trim_isInfix t)⟩
  · exact Trim.infix_trim (x := '<') (y := '>') (u := "think>".toList) (v := "<think".toList)
      (by decide) (by decide) (by decide) (by decide) ho
  · exact Trim.infix_trim (x := '<') (y := '>') (u := "/think>".toList) (v := "</think".toList)
      (by decide) (by decide) (by decide) (by decide) hc

theorem noTag_stripBlocks (t : List Char) : NoTag (stripBlocks t) := by
  unfold stripBlocks
  refine noTag_strip.mpr ?_
  have hopen : ¬openTag <:+: thinkBlock.before (thinkBlock.sub [] t) := tagged_absent.mp (Opening.absent_before _)
  generalize thinkBlock.before (thinkBlock.sub [] t) = kept at hopen
  cases hlast : Cut.afterLast closeTag kept with
  | none => exact ⟨hopen, Cut.afterLast_eq_none (by decide) hlast⟩
  | some rest =>
    obtain ⟨hsuffix, hclose⟩ := Cut.afterLast_eq_some (by decide) hlast
    exact ⟨fun ho => hopen (ho.trans hsuffix.isInfix), hclose⟩

/-- A text without tags is only stripped. -/
theorem stripBlocks_of_noTag {t : List Char} (h : NoTag t) : stripBlocks t = strip t := by
  have habsent : thinkBlock.Absent t := tagged_absent.mpr h.1
  have hlast : Cut.afterLast closeTag t = none := by
    cases hlast : Cut.afterLast closeTag t with
    | none => rfl
    | some rest => exact absurd (Cut.afterLast_isInfix hlast) h.2
  unfold stripBlocks
  rw [Pattern.sub_of_absent habsent, Opening.before_of_absent habsent]
  simp only [hlast, Option.getD_none]

theorem stripBlocks_idem (t : List Char) : stripBlocks (stripBlocks t) = stripBlocks t := by
  rw [stripBlocks_of_noTag (noTag_stripBlocks t)]
  exact Trim.trim_trim _

theorem noTag_latestContent : ∀ ms : List Message, NoTag (latestContent ms).toList
  | [] => noTag_nil
  | m :: ms => by
    unfold latestContent
    by_cases hm : isAssistantMsg m = true
    · rw [if_pos hm]
      by_cases hc : stripThinkingBlocks (flattenMessageText m.content) ≠ ""
      · rw [if_pos hc]
        have hclean := noTag_stripBlocks (flattenMessageText m.content).toList
        unfold stripThinkingBlocks
        rwa [String.toList_ofList]
      · rw [if_neg hc]
        exact noTag_latestContent ms
    · rw [if_neg hm]
      exact noTag_latestContent ms

/-- No tag is left in a stripped text, stripping it again changes nothing, and so
no final content holds a tag. -/
theorem final_content_clean :
    (∀ text : String, NoTag (stripThinkingBlocks text).toList ∧
      stripThinkingBlocks (stripThinkingBlocks text) = stripThinkingBlocks text) ∧
    ∀ messages : History, NoTag (extractFinalContent messages).toList := by
  refine ⟨fun text => ⟨?_, ?_⟩, fun messages => noTag_latestContent messages.reverse⟩
  · unfold stripThinkingBlocks
    rw [String.toList_ofList]
    exact noTag_stripBlocks text.toList
  · unfold stripThinkingBlocks
    rw [String.toList_ofList, stripBlocks_idem]

/-! ### The parser and the history -/

inductive ThinkingFormat
  | tag | contentBlock | reasoningContent | none
  deriving DecidableEq, Repr

/-- What the parser and the normaliser read of a response. -/
structure Response where
  content : Content := .none
  reasoningContent : String := ""
  toolCalls : List ToolCall := []
  deriving DecidableEq, Repr

structure ThinkingResult where
  thinking : String
  visibleContent : String
  toolCalls : List ToolCall
  rawContentBlocks : Option (List Block) := Option.none
  deriving DecidableEq, Repr

/-- `response.content or ""`, and nothing where it is no string. -/
def stringContent : Content → String
  | .text s => s
  | _ => ""

/-- `_THINK_RE.findall`. -/
def thinkInners (raw : String) : List String := (thinkBlock.inners raw.toList).map String.ofList

/-- `_THINK_RE.sub("\n", raw).strip()` where there is a block, `raw` otherwise. -/
def visibleOf (raw : String) : String :=
  if thinkInners raw ≠ [] then String.ofList (strip (thinkBlock.sub ['\n'] raw.toList)) else raw

/-- The `tag` branch of `extract`: the typed channel goes before the blocks in
the content. -/
def extractTag (r : Response) : ThinkingResult where
  thinking :=
    if r.reasoningContent ≠ "" then Text.join "\n" (r.reasoningContent :: thinkInners (stringContent r.content))
    else Text.join "\n" (thinkInners (stringContent r.content))
  visibleContent := visibleOf (stringContent r.content)
  toolCalls := r.toolCalls

/-- The `content_block` branch of `extract`. -/
def extractBlocks (r : Response) : ThinkingResult :=
  match r.content with
  | .text s => { thinking := if s ≠ "" then r.reasoningContent else "", visibleContent := s, toolCalls := r.toolCalls }
  | .none => { thinking := "", visibleContent := "", toolCalls := r.toolCalls }
  | .blocks bs =>
    { thinking := Text.join "\n" (bs.filterMap fun
        | .thinking t _ => some t
        | _ => Option.none)
      visibleContent := Text.join "\n" (bs.filterMap fun
        | .text t => some t
        | _ => Option.none)
      toolCalls := r.toolCalls
      rawContentBlocks := if bs = [] then Option.none else some bs }

/-- `DefaultThinkingParser.extract`. -/
def extract (fmt : ThinkingFormat) (r : Response) : ThinkingResult :=
  match fmt with
  | .none => { thinking := "", visibleContent := stringContent r.content, toolCalls := r.toolCalls }
  | .tag => extractTag r
  | .contentBlock => extractBlocks r
  | .reasoningContent =>
    { thinking := r.reasoningContent, visibleContent := stringContent r.content, toolCalls := r.toolCalls }

/-- `str.replace("</think>", "</ think>")`, `skip` characters of a tag being still
to be passed. -/
def escapeFrom : ℕ → List Char → List Char
  | _, [] => []
  | skip + 1, _ :: cs => escapeFrom skip cs
  | 0, c :: cs =>
    if closeTag <+: c :: cs then "</ think>".toList ++ escapeFrom (closeTag.length - 1) cs else c :: escapeFrom 0 cs

def escapeClose (s : String) : String := String.ofList (escapeFrom 0 s.toList)

/-- `assistant_msg_with_reasoning`. -/
def assistantMsgWithReasoning (visible reasoning : String) (toolCalls : List ToolCall) (fmt : ThinkingFormat) :
    Message :=
  if reasoning ≠ "" ∧ fmt = .tag then
    let wrapped := "<think>" ++ escapeClose reasoning ++ "</think>"
    assistantMsg (.text (if visible ≠ "" then wrapped ++ "\n" ++ visible else wrapped)) toolCalls ""
  else if reasoning ≠ "" ∧ fmt = .reasoningContent then assistantMsg (.text visible) toolCalls reasoning
  else assistantMsg (.text visible) toolCalls ""

/-- The fields of `HistoryPolicy` that the normaliser reads. -/
structure HistoryPolicy where
  thinkingInHistory : Bool := false
  thinkingHistoryMaxTokens : Option ℕ := Option.none

/-- `to_history`; `capTail` is what `_cap_reasoning_tail` keeps of a reasoning. -/
def toHistory (capTail : String → ℕ → String) (r : Response) (t : ThinkingResult) (policy : HistoryPolicy)
    (fmt : ThinkingFormat) : Message :=
  match t.rawContentBlocks with
  | some bs => assistantMsg (.blocks bs) t.toolCalls ""
  | Option.none =>
    let reasoning :=
      if policy.thinkingInHistory then
        let full := if t.thinking ≠ "" then t.thinking else r.reasoningContent
        let cap := policy.thinkingHistoryMaxTokens.getD 0
        if full ≠ "" ∧ cap ≠ 0 then capTail full cap else full
      else ""
    assistantMsgWithReasoning t.visibleContent reasoning t.toolCalls fmt

/-! ### What the history keeps with the reasoning off -/

/-- A text of plain parts and closed blocks, the form the parser's pattern is
written for. -/
inductive WellTagged : List Char → Prop
  | plain {p : List Char} : NoTag p → WellTagged p
  | block {p inner rest : List Char} : NoTag p → ¬closeTag <:+: inner → WellTagged rest →
      WellTagged (p ++ (openTag ++ (inner ++ (closeTag ++ rest))))

/-- The next tag in the text is a closing one. -/
def closesNext : List Char → Bool
  | [] => false
  | c :: cs => if openTag <+: c :: cs then false else if closeTag <+: c :: cs then true else closesNext cs

/-- The text outside the tags: a character is shown where the tag before it is
not an opening one and the tag after it is not a closing one. A closing tag
counts as a line break. `inside` says that the tag before is an opening one, and
`skip` characters of a tag are still to be passed. -/
def shownFrom : ℕ → Bool → List Char → List Char
  | _, _, [] => []
  | skip + 1, inside, _ :: cs => shownFrom skip inside cs
  | 0, inside, c :: cs =>
    if openTag <+: c :: cs then shownFrom (openTag.length - 1) true cs
    else if closeTag <+: c :: cs then '\n' :: shownFrom (closeTag.length - 1) false cs
    else if inside || closesNext cs then shownFrom 0 inside cs
    else c :: shownFrom 0 inside cs

def shown (raw : List Char) : List Char := shownFrom 0 false raw

/-- A stored content that hides the thinking of a raw one: it holds no tag, and
only characters from outside the tags. -/
def Hides (raw stored : List Char) : Prop := NoTag stored ∧ stored.Sublist (shown raw)

/-- The content that is stored. -/
def storedText (m : Message) : List Char := (textOf m.content).toList

section Tags

variable {p inner rest : List Char}

theorem noTag_cons {c : Char} (hc : c ≠ '<') : NoTag (c :: p) ↔ NoTag p := by
  have hopen : ¬openTag <+: c :: p := fun h => hc (List.cons_prefix_cons.mp h).1.symm
  have hclose : ¬closeTag <+: c :: p := fun h => hc (List.cons_prefix_cons.mp h).1.symm
  unfold NoTag
  rw [List.infix_cons_iff, List.infix_cons_iff]
  simp only [hopen, hclose, false_or]

theorem noTag_append_newline : NoTag (p ++ '\n' :: rest) ↔ NoTag p ∧ NoTag rest := by
  refine ⟨fun h => ⟨h.ofInfix (List.prefix_append _ _).isInfix, h.ofInfix ?_⟩,
    fun ⟨hp, hr⟩ => ⟨fun ho => ?_, fun hc => ?_⟩⟩
  · exact ((List.suffix_cons _ _).trans (List.suffix_append _ _)).isInfix
  · exact (Cut.infix_append_cons (by decide) ho).elim hp.1 hr.1
  · exact (Cut.infix_append_cons (by decide) hc).elim hp.2 hr.2

/-- Before a tag or the end, a text without tags is clear of them. -/
theorem NoTag.clear_close (h : NoTag p) : Cut.Clear closeTag p (openTag ++ rest) :=
  Cut.Clear.of_not_infix_tail h.2 (by decide)

theorem NoTag.clear (h : NoTag p) : Cut.Clear openTag p (openTag ++ rest) :=
  Cut.Clear.of_not_infix_tail h.1 (by decide)

theorem clear_of_noClose (h : ¬closeTag <:+: inner) : Cut.Clear closeTag inner (closeTag ++ rest) :=
  Cut.Clear.of_not_infix_tail h (by decide)

theorem thinkBlock_block (hinner : ¬closeTag <:+: inner) :
    thinkBlock.blockAt? (openTag ++ (inner ++ (closeTag ++ rest))) = some ((), inner, rest.dropWhile Text.isSpace) :=
  tagged_block (clear_of_noClose hinner)

/-- No block begins in a text without tags. -/
theorem NoTag.front (hp : NoTag p) : ∀ s, s <:+ p → s ≠ [] → thinkBlock.at? (s ++ (openTag ++ rest)) = none :=
  fun s hs hne => tagged_at?_eq_none.mpr (not_prefix_of_clear hp.clear s hs hne)

theorem sub_block (repl : List Char) (hp : NoTag p) (hinner : ¬closeTag <:+: inner) :
    thinkBlock.sub repl (p ++ (openTag ++ (inner ++ (closeTag ++ rest)))) =
      p ++ (repl ++ thinkBlock.sub repl (rest.dropWhile Text.isSpace)) := by
  rw [Pattern.sub_clear repl hp.front, Pattern.sub_block repl (thinkBlock_block hinner)]

theorem inners_block (hp : NoTag p) (hinner : ¬closeTag <:+: inner) :
    thinkBlock.inners (p ++ (openTag ++ (inner ++ (closeTag ++ rest)))) =
      inner :: thinkBlock.inners (rest.dropWhile Text.isSpace) := by
  unfold Pattern.inners
  rw [Pattern.found_clear hp.front, Pattern.found_block (thinkBlock_block hinner)]
  rfl

theorem sub_of_noTag (repl : List Char) (hp : NoTag p) : thinkBlock.sub repl p = p :=
  Pattern.sub_of_absent (tagged_absent.mpr hp.1)

/-- White space begins no block. -/
theorem sub_dropWhile (repl : List Char) : ∀ t : List Char,
    thinkBlock.sub repl (t.dropWhile Text.isSpace) <:+ thinkBlock.sub repl t
  | [] => List.suffix_rfl
  | c :: t => by
    by_cases hc : Text.isSpace c = true
    · have hplain : thinkBlock.blockAt? (c :: t) = none := by
        refine Pattern.blockAt?_of_absent (tagged_at?_eq_none.mpr fun hpre => ?_)
        have hlt : '<' = c := (List.cons_prefix_cons.mp hpre).1
        rw [← hlt] at hc
        exact absurd hc (by decide)
      rw [List.dropWhile_cons_of_pos hc, Pattern.sub_plain repl hplain]
      exact (sub_dropWhile repl t).trans (List.suffix_cons _ _)
    · rw [List.dropWhile_cons_of_neg hc]

theorem WellTagged.cons {c : Char} (h : WellTagged inner) (hc : NoTag (c :: thinkBlock.sub ['\n'] inner)) :
    WellTagged (c :: inner) := by
  cases h with
  | plain hp =>
    rw [sub_of_noTag _ hp] at hc
    exact .plain hc
  | @block p inner rest hp hinner hrest =>
    rw [sub_block _ hp hinner] at hc
    exact .block (p := c :: p) (noTag_append_newline.mp hc).1 hinner hrest

theorem WellTagged.of_dropWhile : ∀ {t : List Char}, WellTagged (t.dropWhile Text.isSpace) → WellTagged t
  | [], h => h
  | c :: t, h => by
    by_cases hc : Text.isSpace c = true
    · rw [List.dropWhile_cons_of_pos hc] at h
      have hlt : c ≠ '<' := fun he => absurd (he ▸ hc) (by decide)
      cases WellTagged.of_dropWhile h with
      | plain hp => exact .plain ((noTag_cons hlt).mpr hp)
      | @block p inner rest hp hinner hrest =>
        exact .block (p := c :: p) ((noTag_cons hlt).mpr hp) hinner hrest
    · rwa [List.dropWhile_cons_of_neg hc] at h

/-- What is left of a text of plain parts and closed blocks holds no tag. -/
theorem WellTagged.noTag_sub {t : List Char} (h : WellTagged t) : NoTag (thinkBlock.sub ['\n'] t) := by
  induction h with
  | plain hp => rwa [sub_of_noTag _ hp]
  | block hp hinner _ ih =>
    rw [sub_block _ hp hinner]
    exact noTag_append_newline.mpr ⟨hp, ih.ofInfix (sub_dropWhile _ _).isInfix⟩

/-- And only such a text leaves none. -/
theorem wellTagged_of_noTag_sub (t : List Char) : NoTag (thinkBlock.sub ['\n'] t) → WellTagged t := by
  induction t using thinkBlock.induct with
  | nil => exact fun h => .plain h
  | plain c t hc ih =>
    intro h
    rw [Pattern.sub_plain _ hc] at h
    exact (ih (h.ofInfix (List.suffix_cons _ _).isInfix)).cons h
  | block t g inner r hb ih =>
    intro h
    rw [Pattern.sub_block _ hb] at h
    obtain ⟨rest, rfl, rfl, hinner⟩ := tagged_block_eq_some (by decide) hb
    have hrest : WellTagged rest := WellTagged.of_dropWhile (ih (noTag_append_newline (p := []).mp h).2)
    exact .block (p := []) noTag_nil hinner hrest

/-! What is shown of such a text. -/

theorem closesNext_append (hp : NoTag p) : closesNext (p ++ (openTag ++ rest)) = false := by
  induction p with
  | nil => rfl
  | cons c p ih =>
    have hopen : ¬openTag <+: c :: (p ++ (openTag ++ rest)) := hp.clear 0 (Nat.succ_pos _)
    have hclose : ¬closeTag <+: c :: (p ++ (openTag ++ rest)) := hp.clear_close 0 (Nat.succ_pos _)
    rw [List.cons_append, closesNext, if_neg hopen, if_neg hclose]
    exact ih (hp.ofInfix (List.suffix_cons c p).isInfix)

theorem shown_plain (hp : NoTag p) : shown (p ++ (openTag ++ rest)) = p ++ shown (openTag ++ rest) := by
  induction p with
  | nil => rfl
  | cons c p ih =>
    have hopen : ¬openTag <+: c :: (p ++ (openTag ++ rest)) := hp.clear 0 (Nat.succ_pos _)
    have hclose : ¬closeTag <+: c :: (p ++ (openTag ++ rest)) := hp.clear_close 0 (Nat.succ_pos _)
    have hp' : NoTag p := hp.ofInfix (List.suffix_cons c p).isInfix
    unfold shown at ih ⊢
    rw [List.cons_append, shownFrom, if_neg hopen, if_neg hclose, closesNext_append hp', if_neg (by simp), ih hp']
    rfl

theorem closesNext_of_noTag (hp : NoTag p) : closesNext p = false := by
  induction p with
  | nil => rfl
  | cons c p ih =>
    have hopen : ¬openTag <+: c :: p := fun h => hp.1 h.isInfix
    have hclose : ¬closeTag <+: c :: p := fun h => hp.2 h.isInfix
    rw [closesNext, if_neg hopen, if_neg hclose]
    exact ih (hp.ofInfix (List.suffix_cons c p).isInfix)

theorem shown_of_noTag (hp : NoTag p) : shown p = p := by
  induction p with
  | nil => rfl
  | cons c p ih =>
    have hopen : ¬openTag <+: c :: p := fun h => hp.1 h.isInfix
    have hclose : ¬closeTag <+: c :: p := fun h => hp.2 h.isInfix
    have hp' : NoTag p := hp.ofInfix (List.suffix_cons c p).isInfix
    unfold shown at ih ⊢
    rw [shownFrom, if_neg hopen, if_neg hclose, closesNext_of_noTag hp', if_neg (by simp), ih hp']

/-- Within a block nothing is shown; an opening tag in it is passed like the rest. -/
theorem shownFrom_inner : ∀ (inner : List Char) (skip : ℕ), skip ≤ inner.length → ¬closeTag <:+: inner →
    shownFrom skip true (inner ++ (closeTag ++ rest)) = '\n' :: shown rest
  | [], skip, hskip, _ => by
    rw [Nat.le_zero.mp hskip]
    rfl
  | c :: inner, skip + 1, hskip, hinner => by
    have hinner' : ¬closeTag <:+: inner := fun h => hinner (h.trans (List.suffix_cons c inner).isInfix)
    exact shownFrom_inner inner skip (Nat.le_of_succ_le_succ hskip) hinner'
  | c :: inner, 0, _, hinner => by
    have hinner' : ¬closeTag <:+: inner := fun h => hinner (h.trans (List.suffix_cons c inner).isInfix)
    have hclose : ¬closeTag <+: c :: (inner ++ (closeTag ++ rest)) := clear_of_noClose hinner 0 (Nat.succ_pos _)
    rw [List.cons_append, shownFrom]
    by_cases hopen : openTag <+: c :: (inner ++ (closeTag ++ rest))
    · -- the opening tag lies within the block, since no tag begins within another one
      have hin : openTag <:+: c :: inner := by
        by_contra hnot
        have hclear : Cut.Clear openTag (c :: inner) (closeTag ++ rest) := Cut.Clear.of_not_infix_tail hnot (by decide)
        exact hclear 0 (Nat.succ_pos _) hopen
      have hlen : openTag.length - 1 ≤ inner.length := Nat.sub_le_of_le_add hin.length_le
      rw [if_pos hopen]
      exact shownFrom_inner inner _ hlen hinner'
    · rw [if_neg hopen, if_neg hclose, if_pos (by simp)]
      exact shownFrom_inner inner 0 (Nat.zero_le _) hinner'

theorem shown_block (hp : NoTag p) (hinner : ¬closeTag <:+: inner) :
    shown (p ++ (openTag ++ (inner ++ (closeTag ++ rest)))) = p ++ '\n' :: shown rest := by
  rw [shown_plain hp]
  have hopened : shown (openTag ++ (inner ++ (closeTag ++ rest))) =
      shownFrom 0 true (inner ++ (closeTag ++ rest)) := rfl
  rw [hopened, shownFrom_inner inner 0 (Nat.zero_le _) hinner]

/-- Everything that is left of such a text stands outside its tags. -/
theorem WellTagged.sub_sublist {t : List Char} (h : WellTagged t) : (thinkBlock.sub ['\n'] t).Sublist (shown t) := by
  induction h with
  | plain hp => rw [sub_of_noTag _ hp, shown_of_noTag hp]
  | @block p inner rest hp hinner _ ih =>
    rw [sub_block _ hp hinner, shown_block hp hinner]
    refine (List.Sublist.refl p).append (List.Sublist.cons_cons '\n' ?_)
    exact (sub_dropWhile ['\n'] rest).sublist.trans ih

end Tags

theorem toList_visibleOf (raw : String) : (visibleOf raw).toList =
    if thinkInners raw ≠ [] then strip (thinkBlock.sub ['\n'] raw.toList) else raw.toList := by
  unfold visibleOf
  by_cases h : thinkInners raw ≠ []
  · rw [if_pos h, if_pos h, String.toList_ofList]
  · rw [if_neg h, if_neg h]

/-- Where no block is found the text is what the substitution leaves of it. -/
theorem sub_of_no_inners {raw : String} (h : thinkInners raw = []) (repl : List Char) :
    thinkBlock.sub repl raw.toList = raw.toList := by
  refine Pattern.sub_of_found_eq_nil repl ?_
  have hinners : thinkBlock.inners raw.toList = [] := List.map_eq_nil_iff.mp h
  exact List.map_eq_nil_iff.mp hinners

theorem visibleOf_isInfix (raw : String) : (visibleOf raw).toList <:+: thinkBlock.sub ['\n'] raw.toList := by
  rw [toList_visibleOf]
  by_cases h : thinkInners raw ≠ []
  · rw [if_pos h]
    exact Trim.trim_isInfix _
  · rw [if_neg h, sub_of_no_inners (not_not.mp h)]

theorem noTag_visibleOf (raw : String) : NoTag (visibleOf raw).toList ↔ NoTag (thinkBlock.sub ['\n'] raw.toList) := by
  rw [toList_visibleOf]
  by_cases h : thinkInners raw ≠ []
  · rw [if_pos h]
    exact noTag_strip
  · rw [if_neg h, sub_of_no_inners (not_not.mp h)]

/-- With the reasoning off the history stores the visible text of the parser. -/
theorem storedText_off (capTail : String → ℕ → String) (r : Response) (policy : HistoryPolicy) :
    storedText (toHistory capTail r (extract .tag r) { policy with thinkingInHistory := false } .tag) =
      (visibleOf (stringContent r.content)).toList := rfl

/-- With the reasoning off, what is stored of a response of the tag format hides
its thinking exactly where the content is made of plain parts and closed blocks. -/
theorem history_hides_iff (capTail : String → ℕ → String) (r : Response) (policy : HistoryPolicy) :
    Hides (stringContent r.content).toList
        (storedText (toHistory capTail r (extract .tag r) { policy with thinkingInHistory := false } .tag)) ↔
      WellTagged (stringContent r.content).toList := by
  rw [storedText_off]
  generalize stringContent r.content = raw
  refine ⟨fun h => wellTagged_of_noTag_sub _ ((noTag_visibleOf raw).mp h.1), fun h => ⟨?_, ?_⟩⟩
  · exact (noTag_visibleOf raw).mpr h.noTag_sub
  · exact (visibleOf_isInfix raw).sublist.trans h.sub_sublist

/-- An opening tag that is not closed stays, with what stands behind it. -/
theorem unclosed_block_stored :
    ¬∀ (r : Response) (policy : HistoryPolicy), policy.thinkingInHistory = false →
      Hides (stringContent r.content).toList
        (storedText (toHistory (fun s _ => s) r (extract .tag r) policy .tag)) := by
  intro h
  have hno := (h { content := .text "<think>secret" } {} rfl).1.1
  exact hno (by decide)

/-! ### Writing and reading back -/

theorem escapeFrom_of_noClose : ∀ {s : List Char}, ¬closeTag <:+: s → escapeFrom 0 s = s
  | [], _ => rfl
  | c :: s, h => by
    have hpre : ¬closeTag <+: c :: s := fun hp => h hp.isInfix
    rw [escapeFrom, if_neg hpre, escapeFrom_of_noClose fun hin => h (hin.trans (List.suffix_cons c s).isInfix)]

theorem escapeClose_of_noClose {s : String} (h : ¬closeTag <:+: s.toList) : escapeClose s = s := by
  unfold escapeClose
  rw [escapeFrom_of_noClose h, String.ofList_toList]

/-- A message read as a response. -/
def responseOf (m : Message) : Response := ⟨m.content, m.reasoningContent, m.toolCalls⟩

theorem thinkInners_of_noTag {v : String} (hv : NoTag v.toList) : thinkInners v = [] := by
  have hfound : thinkBlock.found v.toList = [] := Pattern.found_of_absent (tagged_absent.mpr hv.1)
  unfold thinkInners Pattern.inners
  rw [hfound]
  rfl

/-- A reasoning between the tags, then white space and a stripped text. -/
theorem read_wrapped {raw r v : String} {rest : List Char}
    (hraw : raw.toList = openTag ++ (r.toList ++ (closeTag ++ rest))) (hr : ¬closeTag <:+: r.toList)
    (hrest : rest.dropWhile Text.isSpace = v.toList) (hstripped : Text.strip v = v) (hv : NoTag v.toList) :
    thinkInners raw = [r] ∧ visibleOf raw = v := by
  have hinners : thinkInners raw = [r] := by
    have hnil : thinkBlock.inners v.toList = [] := List.map_eq_nil_iff.mp (thinkInners_of_noTag hv)
    have hblock := @inners_block [] r.toList rest noTag_nil hr
    rw [List.nil_append, hrest, hnil] at hblock
    unfold thinkInners
    rw [hraw, hblock, List.map_singleton, String.ofList_toList]
  refine ⟨hinners, String.toList_injective ?_⟩
  rw [toList_visibleOf, hinners, if_pos (List.cons_ne_nil _ _), hraw]
  have hsub := @sub_block [] r.toList rest ['\n'] noTag_nil hr
  rw [List.nil_append, List.nil_append, hrest, sub_of_noTag _ hv] at hsub
  rw [hsub]
  calc strip (['\n'] ++ v.toList) = strip v.toList := Trim.trim_cons (by decide) v.toList
    _ = (Text.strip v).toList := (toList_strip v).symm
    _ = v.toList := by rw [hstripped]

/-- A message without a typed reasoning, read back. -/
theorem extract_responseOf (content : String) (toolCalls : List ToolCall) :
    extract .tag (responseOf (assistantMsg (.text content) toolCalls "")) =
      ⟨Text.join "\n" (thinkInners content), visibleOf content, toolCalls, Option.none⟩ := rfl

/-- What is written where there is a reasoning. -/
def wrapped (v r : String) : String :=
  if v ≠ "" then "<think>" ++ escapeClose r ++ "</think>" ++ "\n" ++ v else "<think>" ++ escapeClose r ++ "</think>"

theorem toList_wrapped {r v : String} (hr : ¬closeTag <:+: r.toList)
    (hstart : v.toList.dropWhile Text.isSpace = v.toList) :
    ∃ rest, (wrapped v r).toList = openTag ++ (r.toList ++ (closeTag ++ rest)) ∧
      rest.dropWhile Text.isSpace = v.toList := by
  have htags : ("<think>" ++ escapeClose r ++ "</think>").toList = openTag ++ (r.toList ++ closeTag) := by
    rw [escapeClose_of_noClose hr, String.toList_append, String.toList_append, List.append_assoc]
    rfl
  unfold wrapped
  by_cases hv0 : v = ""
  · rw [if_neg (not_not.mpr hv0)]
    refine ⟨[], ?_, ?_⟩
    · rw [htags, List.append_nil]
    · rw [hv0]
      rfl
  · rw [if_pos hv0]
    refine ⟨'\n' :: v.toList, ?_, ?_⟩
    · rw [String.toList_append, String.toList_append, htags, List.append_assoc, List.append_assoc, List.append_assoc]
      rfl
    · rw [List.dropWhile_cons_of_pos (by decide), hstart]

theorem assistantMsgWithReasoning_tag {r : String} (hr0 : r ≠ "") (v : String) (toolCalls : List ToolCall) :
    assistantMsgWithReasoning v r toolCalls .tag = assistantMsg (.text (wrapped v r)) toolCalls "" := by
  unfold assistantMsgWithReasoning wrapped
  rw [if_pos ⟨hr0, rfl⟩]

/-- The text between the tags and the stripped text behind them come back as
they were written. -/
theorem thinking_round_trip (r v : String) (toolCalls : List ToolCall) (hr : ¬closeTag <:+: r.toList)
    (hstripped : Text.strip v = v) (hv : NoTag v.toList) :
    (extract .tag (responseOf (assistantMsgWithReasoning v r toolCalls .tag))).thinking = r ∧
      (extract .tag (responseOf (assistantMsgWithReasoning v r toolCalls .tag))).visibleContent = v := by
  by_cases hr0 : r = ""
  · -- no reasoning, no tags
    have hmsg : assistantMsgWithReasoning v r toolCalls .tag = assistantMsg (.text v) toolCalls "" := by
      rw [hr0]
      rfl
    rw [hmsg, extract_responseOf, thinkInners_of_noTag hv, hr0]
    refine ⟨rfl, ?_⟩
    show visibleOf v = v
    unfold visibleOf
    rw [thinkInners_of_noTag hv, if_neg (by simp)]
  · have hstart : v.toList.dropWhile Text.isSpace = v.toList := by
      have hstrip : strip v.toList = v.toList := by rw [← toList_strip, hstripped]
      rw [← hstrip]
      exact Trim.dropWhile_trim v.toList
    obtain ⟨rest, hraw, hrest⟩ := toList_wrapped hr hstart
    obtain ⟨hinners, hvisible⟩ := read_wrapped hraw hr hrest hstripped hv
    rw [assistantMsgWithReasoning_tag hr0, extract_responseOf, hinners]
    exact ⟨String.intercalate_singleton (s := "\n"), hvisible⟩

theorem thinking_round_trip_spaced :
    (extract .tag (responseOf (assistantMsgWithReasoning "the answer" " a guess\n" [] .tag))).thinking = " a guess\n" ∧
      (extract .tag (responseOf (assistantMsgWithReasoning "the answer" " a guess\n" [] .tag))).visibleContent =
        "the answer" :=
  thinking_round_trip " a guess\n" "the answer" [] (by decide) (by decide) (by unfold NoTag; decide)

/-- The reasoning comes back with the white space at its ends. -/
theorem reasoning_not_stripped :
    ¬∀ (r v : String), ¬closeTag <:+: r.toList → Text.strip v = v → NoTag v.toList →
      (extract .tag (responseOf (assistantMsgWithReasoning v r [] .tag))).thinking = Text.strip r ∧
        (extract .tag (responseOf (assistantMsgWithReasoning v r [] .tag))).visibleContent = v := by
  intro h
  have hread := (h " a" "" (by decide) (by decide) (by unfold NoTag; decide)).1
  exact absurd hread (by decide)

end AgentCore.Loop.Thinking
