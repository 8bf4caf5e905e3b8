/-
# The messages of an Anthropic request

What `_build_kwargs` of `anthropic.py` does to the converted messages: it merges tool
results, puts a cache breakpoint on the last block of the last persistent message
(`_add_prompt_cache`), and folds the transient messages at the end into the message
before them (`_fold_transient_tail`).

With roles beside the blocks, cache marks and empty texts left out, the blocks are the
same before and after. The mark stands where the last block of the last persistent
message does (`request_preserves`).

The environment variables are arguments, the one of the lifetime as
`normalize_prompt_cache_ttl` gives it. The other fields of the request are left out.

Key definitions: `addPromptCache`, `foldTransientTail`, `buildRequest`, `Preserves`.
Key theorem: `request_preserves`.
-/
import AgentCore.Providers.AnthropicWire
import Mathlib.Data.List.Chain

namespace AgentCore
namespace Wire
namespace Anthropic

variable {F : Type}

/-- `cache_control`, of type `ephemeral`. -/
structure CacheControl where
  ttl : Option String
  deriving DecidableEq, Repr

/-- A block with its mark. -/
structure SentBlock (F : Type) where
  block : OutBlock F
  cacheControl : Option CacheControl := none

inductive SentContent (F : Type)
  | text (s : String)
  | blocks (bs : List (SentBlock F))

/-- A message of a request. -/
structure SentMsg (F : Type) where
  role : OutRole
  content : SentContent F

structure Request (F : Type) where
  system : SentContent F
  messages : List (SentMsg F)

/-- A converted content, without marks. -/
def OutContent.sent : OutContent F → SentContent F
  | .text s => .text s
  | .blocks bs => .blocks (bs.map fun b => { block := b })

def OutMsg.sent (msg : OutMsg F) : SentMsg F := ⟨msg.role, msg.content.sent⟩

/-- The arguments of `_add_prompt_cache` that do not come from the messages. -/
structure CacheConfig where
  /-- `ANTHROPIC_PROMPT_CACHE`. -/
  promptCache : String := "1"
  ttl : String := ""
  /-- `ANTHROPIC_PROMPT_CACHE_TTL`, normalized. -/
  envTtl : String := ""

/-- `_cache_control`. -/
def CacheConfig.cacheControl (config : CacheConfig) : CacheControl :=
  let resolved := if config.ttl ≠ "" then config.ttl else config.envTtl
  if resolved = "" ∨ resolved = "5m" then ⟨none⟩ else ⟨some resolved⟩

def markLast (cacheControl : CacheControl) : List (SentBlock F) → List (SentBlock F)
  | [] => []
  | [b] => [{ b with cacheControl := some cacheControl }]
  | b :: next :: bs => b :: markLast cacheControl (next :: bs)

/-- The mark on the last block of a content. -/
def SentContent.mark (cacheControl : CacheControl) : SentContent F → SentContent F
  | .text s => if s ≠ "" then .blocks [⟨.text s, some cacheControl⟩] else .text s
  | .blocks bs => .blocks (markLast cacheControl bs)

def SentMsg.mark (cacheControl : CacheControl) (m : SentMsg F) : SentMsg F :=
  { m with content := m.content.mark cacheControl }

/-- `_add_prompt_cache`. -/
def addPromptCache (config : CacheConfig) (transientTail : ℕ) (kwargs : Request F) : Request F :=
  if config.promptCache = "0" then kwargs
  else
    { system := kwargs.system.mark config.cacheControl
      messages :=
        if kwargs.messages = [] ∨ kwargs.messages.length ≤ transientTail then kwargs.messages
        else kwargs.messages.modify (kwargs.messages.length - 1 - transientTail) (SentMsg.mark config.cacheControl) }

/-- The blocks of a message that others are folded into. -/
def SentContent.foldable : SentContent F → List (SentBlock F)
  | .text s => [{ block := .text s }]
  | .blocks bs => bs

/-- The blocks of a message that is folded. -/
def SentContent.extra : SentContent F → List (SentBlock F)
  | .text s => if s ≠ "" then [{ block := .text s }] else []
  | .blocks bs => bs

/-- `_fold_transient_tail`. -/
def foldTransientTail (msgs : List (SentMsg F)) (transientTail : ℕ) : List (SentMsg F) :=
  if transientTail = 0 ∨ msgs.length ≤ transientTail then msgs
  else
    let head := msgs.take (msgs.length - transientTail)
    let tail := msgs.drop (msgs.length - transientTail)
    match head.getLast? with
    | none => msgs
    | some target =>
      if target.role ≠ .user ∨ tail.any (fun m => m.role ≠ .user) then msgs
      else head.dropLast ++
        [{ target with content := .blocks (target.content.foldable ++ tail.flatMap fun m => m.content.extra) }]

/-- How many messages at the end are transient. -/
def transientTail (pairs : List (OutMsg F × Bool)) : ℕ := (pairs.reverse.takeWhile fun p => p.2).length

/-- `_build_kwargs`, from the converted messages on. -/
def buildRequest (config : CacheConfig) (system : String) (pairs : List (OutMsg F × Bool)) : Request F :=
  let pairs := mergeToolResults pairs
  let kwargs := addPromptCache config (transientTail pairs) ⟨.text system, pairs.map fun p => p.1.sent⟩
  { kwargs with messages := foldTransientTail kwargs.messages (transientTail pairs) }

/-! ### What is claimed -/

/-- The converted messages with their flags. -/
def convertedPairs (ft : PyJson.FloatText F) (h : List Message) : List (OutMsg F × Bool) :=
  h.filterMap fun m => (toAnthropicMsg ft m).map fun msg => (msg, m.transient)

def isEmptyText : OutBlock F → Bool
  | .text s => s = ""
  | _ => false

/-- The blocks of a content with their marks, empty texts left out. -/
def SentContent.marked : SentContent F → List (SentBlock F)
  | .text s => [{ block := .text s }].filter fun b => !isEmptyText b.block
  | .blocks bs => bs.filter fun b => !isEmptyText b.block

/-- The role, the block and the mark of every block sent. -/
def flatMarked (msgs : List (SentMsg F)) : List (OutRole × SentBlock F) :=
  msgs.flatMap fun m => m.content.marked.map fun b => (m.role, b)

/-- Without the marks. -/
def flat (msgs : List (SentMsg F)) : List (OutRole × OutBlock F) := (flatMarked msgs).map fun b => (b.1, b.2.block)

def SentMsg.onlyResults (m : SentMsg F) : Bool :=
  match m.role, m.content with
  | .user, .blocks bs => !bs.isEmpty && bs.all fun b => isResult b.block
  | _, _ => false

/-- Not both are persistent messages of tool results only. -/
def Apart (a b : SentMsg F × Bool) : Prop :=
  ¬ (a.2 = false ∧ b.2 = false ∧ a.1.onlyResults = true ∧ b.1.onlyResults = true)

/-- **The request keeps the content** of the messages. -/
structure Preserves (config : CacheConfig) (system : String) (pairs : List (OutMsg F × Bool)) : Prop where
  content : flat (buildRequest config system pairs).messages = flat (pairs.map fun p => p.1.sent)
  /-- A message that others are folded into keeps its flag. -/
  apart : ((buildRequest config system pairs).messages.zip ((mergeToolResults pairs).map Prod.snd)).IsChain Apart
  /-- The mark is on the last block of the last persistent message, and no other block has one. -/
  marked : config.promptCache ≠ "0" → ∀ before msg after blocks last,
    pairs = before ++ (msg, false) :: after → (∀ p ∈ after, p.2 = true) →
      flat [msg.sent] = blocks ++ [last] →
        flatMarked (buildRequest config system pairs).messages =
          (flat (before.map fun p => p.1.sent) ++ blocks).map (fun b => (b.1, { block := b.2 })) ++
            [(last.1, ⟨last.2, some config.cacheControl⟩)] ++
              (flat (after.map fun p => p.1.sent)).map fun b => (b.1, { block := b.2 })

/-! ### Blocks with their roles -/

@[simp] theorem flatMarked_nil : flatMarked ([] : List (SentMsg F)) = [] := rfl

theorem flatMarked_append (msgs msgs' : List (SentMsg F)) :
    flatMarked (msgs ++ msgs') = flatMarked msgs ++ flatMarked msgs' := List.flatMap_append

theorem flat_append (msgs msgs' : List (SentMsg F)) : flat (msgs ++ msgs') = flat msgs ++ flat msgs' := by
  unfold flat
  rw [flatMarked_append, List.map_append]

theorem flat_cons (m : SentMsg F) (msgs : List (SentMsg F)) : flat (m :: msgs) = flat [m] ++ flat msgs :=
  flat_append [m] msgs

theorem flat_singleton (m : SentMsg F) : flat [m] = m.content.marked.map fun b => (m.role, b.block) := by
  unfold flat flatMarked
  rw [List.flatMap_singleton, List.map_map]
  rfl

/-- A block that is not marked. -/
def unmarked (b : OutRole × OutBlock F) : OutRole × SentBlock F := (b.1, { block := b.2 })

theorem marked_sent (c : OutContent F) : ∀ b ∈ c.sent.marked, b.cacheControl = none := by
  intro b hb
  cases c with
  | text s =>
    have hmem : b ∈ [({ block := .text s } : SentBlock F)] := (List.mem_filter.mp hb).1
    rw [List.mem_singleton.mp hmem]
  | blocks bs =>
    obtain ⟨block, -, rfl⟩ := List.mem_map.mp (List.mem_filter.mp hb).1
    rfl

/-- Converted messages have no marks. -/
theorem flatMarked_sent (msgs : List (OutMsg F)) :
    flatMarked (msgs.map OutMsg.sent) = (flat (msgs.map OutMsg.sent)).map unmarked := by
  unfold flat flatMarked
  rw [List.map_map, List.map_flatMap]
  refine List.flatMap_congr fun m hm => ?_
  obtain ⟨msg, -, rfl⟩ := List.mem_map.mp hm
  rw [List.map_map]
  refine List.map_congr_left fun b hb => ?_
  have hnone : b.cacheControl = none := marked_sent msg.content b hb
  show (msg.sent.role, b) = (msg.sent.role, { block := b.block })
  rw [← hnone]

/-! ### Merging -/

/-- A block content is not empty and has no empty text. -/
def Sendable (msg : OutMsg F) : Prop :=
  ∀ bs, msg.content = .blocks bs → bs ≠ [] ∧ ∀ b ∈ bs, isEmptyText b = false

theorem isEmptyText_of_isResult {b : OutBlock F} (h : isResult b = true) : isEmptyText b = false := by
  cases b with
  | toolResult _ _ => rfl
  | _ => cases h

theorem onlyResults_blocks {msg : OutMsg F} (h : onlyResults msg = true) :
    msg.role = .user ∧ ∃ bs, msg.content = .blocks bs ∧ bs ≠ [] ∧ ∀ b ∈ bs, isEmptyText b = false := by
  obtain ⟨role, content⟩ := msg
  cases role with
  | assistant => cases h
  | user =>
    cases content with
    | text s => cases h
    | blocks bs =>
      obtain ⟨hne, hall⟩ := Bool.and_eq_true_iff.mp h
      refine ⟨rfl, bs, rfl, ?_, fun b hb => isEmptyText_of_isResult (List.all_eq_true.mp hall b hb)⟩
      rintro rfl
      cases hne

theorem sendable_of_onlyResults {msg : OutMsg F} (h : onlyResults msg = true) : Sendable msg := by
  obtain ⟨-, bs, hbs, hsendable⟩ := onlyResults_blocks h
  intro bs' hbs'
  rw [OutContent.blocks.inj (hbs'.symm.trans hbs)]
  exact hsendable

theorem flat_sent_ne_nil {msg : OutMsg F} (h : onlyResults msg = true) : flat [msg.sent] ≠ [] := by
  obtain ⟨-, bs, hbs, hne, hempty⟩ := onlyResults_blocks h
  obtain ⟨b, bs, rfl⟩ := List.exists_cons_of_ne_nil hne
  have hb : isEmptyText b = false := hempty b List.mem_cons_self
  rw [flat_singleton]
  show (msg.content.sent.marked.map _) ≠ []
  rw [hbs]
  simp [OutContent.sent, SentContent.marked, hb]

theorem flat_joinMsg {msg next : OutMsg F} (h : onlyResults msg = true) (h' : onlyResults next = true) :
    flat [(joinMsg msg next).sent] = flat [msg.sent] ++ flat [next.sent] := by
  obtain ⟨hrole, bs, hbs, -, -⟩ := onlyResults_blocks h
  obtain ⟨hrole', bs', hbs', -, -⟩ := onlyResults_blocks h'
  have hjoin : (joinMsg msg next).sent = ⟨.user, .blocks ((bs ++ bs').map fun b => { block := b })⟩ := by
    unfold OutMsg.sent joinMsg
    rw [hbs, hbs', hrole]
    rfl
  have hmsg : msg.sent = ⟨.user, .blocks (bs.map fun b => { block := b })⟩ := by
    unfold OutMsg.sent
    rw [hbs, hrole]
    rfl
  have hnext : next.sent = ⟨.user, .blocks (bs'.map fun b => { block := b })⟩ := by
    unfold OutMsg.sent
    rw [hbs', hrole']
    rfl
  rw [hjoin, hmsg, hnext, flat_singleton, flat_singleton, flat_singleton, ← List.map_append]
  simp only [SentContent.marked, List.map_append, List.filter_append]

theorem joins_persistent {cur next : OutMsg F × Bool} (h : joins cur next = true) : cur.2 = false ∧ next.2 = false := by
  unfold joins at h
  cases hcur : cur.2 with
  | false =>
    cases hnext : next.2 with
    | false => exact ⟨rfl, rfl⟩
    | true => simp [hnext] at h
  | true => simp [hcur] at h

abbrev sentAll (pairs : List (OutMsg F × Bool)) : List (SentMsg F) := pairs.map fun p => p.1.sent

theorem flat_sentAll_cons (p : OutMsg F × Bool) (pairs : List (OutMsg F × Bool)) :
    flat (sentAll (p :: pairs)) = flat [p.1.sent] ++ flat (sentAll pairs) := flat_cons _ _

theorem flat_sentAll_append (pairs pairs' : List (OutMsg F × Bool)) :
    flat (sentAll (pairs ++ pairs')) = flat (sentAll pairs) ++ flat (sentAll pairs') := by
  unfold sentAll
  rw [List.map_append, flat_append]

theorem flat_mergeInto : ∀ (rest : List (OutMsg F × Bool)) (cur : OutMsg F × Bool),
    flat (sentAll (mergeInto cur rest)) = flat (sentAll (cur :: rest))
  | [], _ => rfl
  | next :: rest, cur => by
    rw [mergeInto]
    by_cases hj : joins cur next = true
    · obtain ⟨hcur, hnext⟩ := results_of_joins hj
      rw [if_pos hj, flat_mergeInto rest, flat_sentAll_cons, flat_sentAll_cons, flat_sentAll_cons,
        flat_joinMsg hcur hnext, List.append_assoc]
    · rw [if_neg hj, flat_sentAll_cons, flat_mergeInto rest, flat_sentAll_cons cur]

/-- Merging keeps the blocks. -/
theorem flat_mergeToolResults (pairs : List (OutMsg F × Bool)) :
    flat (sentAll (mergeToolResults pairs)) = flat (sentAll pairs) := by
  cases pairs with
  | nil => rfl
  | cons cur rest => exact flat_mergeInto rest cur

theorem sendable_mergeInto : ∀ (rest : List (OutMsg F × Bool)) (cur : OutMsg F × Bool),
    (∀ p ∈ cur :: rest, Sendable p.1) → ∀ p ∈ mergeInto cur rest, Sendable p.1
  | [], _, h => h
  | next :: rest, cur, h => by
    rw [mergeInto]
    by_cases hj : joins cur next = true
    · obtain ⟨hcur, hnext⟩ := results_of_joins hj
      rw [if_pos hj]
      refine sendable_mergeInto rest _ fun p hp => ?_
      rcases List.mem_cons.mp hp with rfl | hp
      · exact sendable_of_onlyResults (onlyResults_joinMsg hcur hnext)
      · exact h p (List.mem_cons_of_mem _ (List.mem_cons_of_mem _ hp))
    · rw [if_neg hj]
      intro p hp
      rcases List.mem_cons.mp hp with rfl | hp
      · exact h p List.mem_cons_self
      · exact sendable_mergeInto rest next (fun q hq => h q (List.mem_cons_of_mem _ hq)) p hp

/-- No two neighbours are left that would be joined. -/
theorem mergeInto_chain : ∀ (rest : List (OutMsg F × Bool)) (cur : OutMsg F × Bool),
    (∃ first others, mergeInto cur rest = first :: others ∧ first.2 = cur.2 ∧ onlyResults first.1 = onlyResults cur.1) ∧
      (mergeInto cur rest).IsChain fun a b => joins a b = false
  | [], cur => ⟨⟨cur, [], rfl, rfl, rfl⟩, .singleton _⟩
  | next :: rest, cur => by
    rw [mergeInto]
    by_cases hj : joins cur next = true
    · obtain ⟨hcur, hnext⟩ := results_of_joins hj
      obtain ⟨⟨first, others, hfirst, hflag, honly⟩, hchain⟩ := mergeInto_chain rest (joinMsg cur.1 next.1, false)
      rw [if_pos hj]
      refine ⟨⟨first, others, hfirst, ?_, ?_⟩, hchain⟩
      · rw [hflag, (joins_persistent hj).1]
      · rw [honly, onlyResults_joinMsg hcur hnext, hcur]
    · obtain ⟨⟨first, others, hfirst, hflag, honly⟩, hchain⟩ := mergeInto_chain rest next
      rw [if_neg hj]
      refine ⟨⟨cur, _, rfl, rfl, rfl⟩, ?_⟩
      rw [hfirst] at hchain ⊢
      refine List.isChain_cons_cons.mpr ⟨?_, hchain⟩
      have hsame : joins cur first = joins cur next := by
        unfold joins
        rw [hflag, honly]
      rw [hsame]
      simpa using hj

/-- Transient messages at the end stay as they are. -/
theorem mergeInto_append : ∀ (rest : List (OutMsg F × Bool)) (cur : OutMsg F × Bool)
    {after : List (OutMsg F × Bool)}, (∀ p ∈ after, p.2 = true) →
      mergeInto cur (rest ++ after) = mergeInto cur rest ++ after
  | [], cur, [], _ => rfl
  | [], cur, p :: after, h => by
    have hp : p.2 = true := h p List.mem_cons_self
    have hj : ¬ joins cur p = true := fun hj => by
      rw [(joins_persistent hj).2] at hp
      cases hp
    have hlater : mergeInto p ([] ++ after) = mergeInto p [] ++ after :=
      mergeInto_append [] p fun q hq => h q (List.mem_cons_of_mem _ hq)
    rw [List.nil_append] at hlater
    show (if joins cur p then mergeInto (joinMsg cur.1 p.1, false) after else cur :: mergeInto p after) = cur :: p :: after
    rw [if_neg hj, hlater]
    rfl
  | next :: rest, cur, after, h => by
    rw [List.cons_append, mergeInto, mergeInto]
    by_cases hj : joins cur next = true
    · rw [if_pos hj, if_pos hj, mergeInto_append rest _ h]
    · rw [if_neg hj, if_neg hj, mergeInto_append rest _ h, List.cons_append]

/-- The last message keeps its flag, and stays one with content. -/
theorem mergeInto_last : ∀ (rest : List (OutMsg F × Bool)) (cur : OutMsg F × Bool),
    ∃ front last, mergeInto cur rest = front ++ [last] ∧ last.2 = (rest.getLastD cur).2 ∧
      (flat [(rest.getLastD cur).1.sent] ≠ [] → flat [last.1.sent] ≠ [])
  | [], cur => ⟨[], cur, rfl, rfl, id⟩
  | next :: rest, cur => by
    rw [mergeInto, List.getLastD_cons]
    by_cases hj : joins cur next = true
    · obtain ⟨hcur, hnext⟩ := results_of_joins hj
      obtain ⟨front, last, hlast, hflag, hne⟩ := mergeInto_last rest (joinMsg cur.1 next.1, false)
      rw [if_pos hj]
      refine ⟨front, last, hlast, ?_, ?_⟩
      · cases rest with
        | nil =>
          rw [hflag]
          exact (joins_persistent hj).2.symm
        | cons p rest => rwa [List.getLastD_cons] at hflag ⊢
      · cases rest with
        | nil => exact fun _ => hne (flat_sent_ne_nil (onlyResults_joinMsg hcur hnext))
        | cons p rest => rwa [List.getLastD_cons] at hne ⊢
    · obtain ⟨front, last, hlast, hflag, hne⟩ := mergeInto_last rest next
      rw [if_neg hj]
      exact ⟨cur :: front, last, by rw [hlast]; rfl, hflag, hne⟩

/-! ### The mark -/

theorem markLast_append (cacheControl : CacheControl) (b : SentBlock F) : ∀ bs : List (SentBlock F),
    markLast cacheControl (bs ++ [b]) = bs ++ [{ b with cacheControl := some cacheControl }]
  | [] => rfl
  | [first] => rfl
  | first :: next :: bs => by
    have hlater := markLast_append cacheControl b (next :: bs)
    show first :: markLast cacheControl ((next :: bs) ++ [b]) = _
    rw [hlater]
    rfl

theorem markLast_blocks (cacheControl : CacheControl) (bs : List (SentBlock F)) :
    (markLast cacheControl bs).map SentBlock.block = bs.map SentBlock.block := by
  rcases List.eq_nil_or_concat bs with rfl | ⟨front, b, rfl⟩
  · rfl
  · rw [List.concat_eq_append, markLast_append, List.map_append, List.map_append]
    rfl

theorem marked_blocks (bs : List (SentBlock F)) : (SentContent.blocks bs).marked.map SentBlock.block =
    (bs.map SentBlock.block).filter fun b => !isEmptyText b := by
  rw [List.filter_map]
  rfl

/-- A mark changes no block. -/
theorem flat_mark (cacheControl : CacheControl) (m : SentMsg F) : flat [m.mark cacheControl] = flat [m] := by
  have hblocks : (m.content.mark cacheControl).marked.map SentBlock.block = m.content.marked.map SentBlock.block := by
    cases m.content with
    | text s =>
      by_cases hs : s = ""
      · rw [hs]
        rfl
      · rw [SentContent.mark, if_pos hs, marked_blocks]
        simp [SentContent.marked, isEmptyText, hs]
    | blocks bs =>
      show (SentContent.blocks (markLast cacheControl bs)).marked.map _ = _
      rw [marked_blocks, marked_blocks, markLast_blocks]
  have hrole : ∀ bs : List (SentBlock F), bs.map (fun b => (m.role, b.block)) =
      (bs.map SentBlock.block).map fun b => (m.role, b) := fun bs => by
    rw [List.map_map]
    rfl
  rw [flat_singleton, flat_singleton]
  show (m.content.mark cacheControl).marked.map (fun b => (m.role, b.block)) = _
  rw [hrole, hrole, hblocks]

theorem marked_of_full {bs : List (SentBlock F)} (h : ∀ b ∈ bs, isEmptyText b.block = false) :
    (SentContent.blocks bs).marked = bs := by
  refine List.filter_eq_self.mpr fun b hb => ?_
  rw [h b hb]
  rfl

/-- The last block of a message sent is the one marked. -/
theorem flatMarked_mark (cacheControl : CacheControl) {msg : OutMsg F} (hsendable : Sendable msg)
    {blocks : List (OutRole × OutBlock F)} {last : OutRole × OutBlock F} (h : flat [msg.sent] = blocks ++ [last]) :
    flatMarked [msg.sent.mark cacheControl] = blocks.map unmarked ++ [(last.1, ⟨last.2, some cacheControl⟩)] := by
  obtain ⟨role, content⟩ := msg
  cases content with
  | text s =>
    by_cases hs : s = ""
    · rw [hs] at h
      exact absurd h.symm (by simp [flat, flatMarked, OutMsg.sent, OutContent.sent, SentContent.marked, isEmptyText])
    · have hflat : flat [(OutMsg.sent ⟨role, .text s⟩ : SentMsg F)] = [] ++ [(role, .text s)] := by
        simp [flat, flatMarked, OutMsg.sent, OutContent.sent, SentContent.marked, isEmptyText, hs]
      rw [hflat] at h
      obtain ⟨rfl, hlast⟩ := List.append_inj' h rfl
      obtain rfl := List.singleton_inj.mp hlast
      simp [flatMarked, OutMsg.sent, OutContent.sent, SentMsg.mark, SentContent.mark, SentContent.marked, isEmptyText, hs]
  | blocks bs =>
    obtain ⟨hne, hempty⟩ := hsendable bs rfl
    rcases List.eq_nil_or_concat bs with rfl | ⟨front, b, rfl⟩
    · exact absurd rfl hne
    · rw [List.concat_eq_append] at hempty h ⊢
      have hb : isEmptyText b = false := hempty b (List.mem_append_right _ List.mem_cons_self)
      have hfront : ∀ c ∈ front.map (fun c => ({ block := c } : SentBlock F)), isEmptyText c.block = false := by
        intro c hc
        obtain ⟨block, hblock, rfl⟩ := List.mem_map.mp hc
        exact hempty block (List.mem_append_left _ hblock)
      -- without the mark and with it, the blocks before the last one are the same
      have hends : ∀ mark : Option CacheControl,
          flatMarked [⟨role, .blocks (front.map (fun c => { block := c }) ++ [⟨b, mark⟩])⟩] =
            (front.map fun c => (role, c)).map unmarked ++ [(role, ⟨b, mark⟩)] := by
        intro mark
        unfold flatMarked
        rw [List.flatMap_singleton, marked_of_full, List.map_append, List.map_map, List.map_map]
        · rfl
        · intro c hc
          rcases List.mem_append.mp hc with hc | hc
          · exact hfront c hc
          · rw [List.mem_singleton.mp hc]
            exact hb
      have hsent : (OutMsg.sent ⟨role, .blocks (front ++ [b])⟩ : SentMsg F) =
          ⟨role, .blocks (front.map (fun c => { block := c }) ++ [{ block := b }])⟩ := by
        show (⟨role, .blocks ((front ++ [b]).map fun c => { block := c })⟩ : SentMsg F) = _
        rw [List.map_append]
        rfl
      have hflat : flat [(OutMsg.sent ⟨role, .blocks (front ++ [b])⟩ : SentMsg F)] =
          front.map (fun c => (role, c)) ++ [(role, b)] := by
        rw [hsent, flat, hends none, List.map_append, List.map_map, List.map_map]
        rfl
      rw [hflat] at h
      obtain ⟨rfl, hlast⟩ := List.append_inj' h rfl
      obtain rfl := List.singleton_inj.mp hlast
      rw [hsent, SentMsg.mark, SentContent.mark, markLast_append]
      exact hends (some cacheControl)

theorem modify_append (f : SentMsg F → SentMsg F) (m : SentMsg F) (later : List (SentMsg F)) :
    ∀ front : List (SentMsg F), (front ++ m :: later).modify front.length f = front ++ f m :: later
  | [] => rfl
  | first :: front => by
    rw [List.cons_append, List.length_cons, List.modify_succ_cons, modify_append f m later front]
    rfl

/-- The breakpoint falls on the message before the transient ones. -/
theorem addPromptCache_messages (config : CacheConfig) (hon : config.promptCache ≠ "0") (system : SentContent F)
    (front : List (SentMsg F)) (m : SentMsg F) (later : List (SentMsg F)) :
    (addPromptCache config later.length ⟨system, front ++ m :: later⟩).messages =
      front ++ m.mark config.cacheControl :: later := by
  have hne : ¬ (front ++ m :: later = [] ∨ (front ++ m :: later).length ≤ later.length) := by
    rw [List.length_append, List.length_cons]
    simp only [List.append_eq_nil_iff, List.cons_ne_nil, and_false, false_or]
    omega
  have hindex : (front ++ m :: later).length - 1 - later.length = front.length := by
    rw [List.length_append, List.length_cons]
    omega
  unfold addPromptCache
  rw [if_neg hon]
  show (if front ++ m :: later = [] ∨ (front ++ m :: later).length ≤ later.length then _ else _) = _
  rw [if_neg hne, hindex, modify_append]

/-! ### Folding -/

theorem extra_marked (c : SentContent F) : (SentContent.blocks c.extra).marked = c.marked := by
  cases c with
  | text s =>
    by_cases hs : s = ""
    · simp [SentContent.extra, SentContent.marked, isEmptyText, hs]
    · simp [SentContent.extra, SentContent.marked, isEmptyText, hs]
  | blocks bs => rfl

theorem foldable_marked (c : SentContent F) : (SentContent.blocks c.foldable).marked = c.marked := by
  cases c with
  | text s => rfl
  | blocks bs => rfl

/-- The messages of the user at the end go into the one before them, or all stays. -/
theorem foldTransientTail_cases (front : List (SentMsg F)) (m : SentMsg F) (later : List (SentMsg F)) :
    foldTransientTail (front ++ m :: later) later.length = front ++ m :: later ∨
      (m.role = .user ∧ (∀ next ∈ later, next.role = .user) ∧ foldTransientTail (front ++ m :: later) later.length =
        front ++ [{ m with content := .blocks (m.content.foldable ++ later.flatMap fun next => next.content.extra) }]) := by
  have hlength : (front ++ m :: later).length - later.length = (front ++ [m]).length := by
    rw [List.length_append, List.length_cons, List.length_append, List.length_singleton]
    omega
  have hassoc : front ++ m :: later = (front ++ [m]) ++ later := List.append_cons _ _ _
  unfold foldTransientTail
  by_cases hshort : later.length = 0 ∨ (front ++ m :: later).length ≤ later.length
  · rw [if_pos hshort]
    exact .inl rfl
  · rw [if_neg hshort, hlength]
    dsimp only
    rw [hassoc, List.take_left, List.drop_left, List.getLast?_concat, List.dropLast_concat]
    dsimp only
    by_cases hroles : m.role ≠ .user ∨ (later.any fun next => next.role ≠ .user) = true
    · rw [if_pos hroles]
      exact .inl rfl
    · rw [if_neg hroles]
      obtain ⟨hrole, hlater⟩ := not_or.mp hroles
      refine .inr ⟨not_not.mp hrole, fun next hnext => ?_, rfl⟩
      by_contra hne
      exact hlater (List.any_eq_true.mpr ⟨next, hnext, by simpa using hne⟩)

theorem flatMarked_user : ∀ {later : List (SentMsg F)}, (∀ m ∈ later, m.role = .user) →
    flatMarked later = ((SentContent.blocks (later.flatMap fun m => m.content.extra)).marked).map fun b => (.user, b)
  | [], _ => rfl
  | m :: later, h => by
    have hsplit : (SentContent.blocks ((m :: later).flatMap fun m => m.content.extra)).marked =
        m.content.marked ++ (SentContent.blocks (later.flatMap fun m => m.content.extra)).marked := by
      rw [← extra_marked m.content]
      exact List.filter_append _ _
    have hcons : flatMarked (m :: later) = flatMarked [m] ++ flatMarked later := flatMarked_append [m] later
    rw [hcons, flatMarked_user fun next hnext => h next (List.mem_cons_of_mem _ hnext), hsplit, List.map_append,
      flatMarked, List.flatMap_singleton, h m List.mem_cons_self]

/-- Folding moves no block. -/
theorem flatMarked_fold (front : List (SentMsg F)) (m : SentMsg F) (later : List (SentMsg F)) :
    flatMarked (foldTransientTail (front ++ m :: later) later.length) = flatMarked (front ++ m :: later) := by
  rcases foldTransientTail_cases front m later with h | ⟨hrole, hlater, h⟩
  · rw [h]
  · have hcons : flatMarked (m :: later) = flatMarked [m] ++ flatMarked later := flatMarked_append [m] later
    rw [h, flatMarked_append, flatMarked_append, hcons, flatMarked_user hlater]
    congr 1
    have hsplit : (SentContent.blocks (m.content.foldable ++ later.flatMap fun next => next.content.extra)).marked =
        m.content.marked ++ (SentContent.blocks (later.flatMap fun next => next.content.extra)).marked := by
      rw [← foldable_marked m.content]
      exact List.filter_append _ _
    unfold flatMarked
    rw [List.flatMap_singleton, List.flatMap_singleton]
    show (SentContent.marked _).map _ = _
    rw [hsplit, hrole, List.map_append]

/-! ### The request -/

/-- All messages are transient, or there is a last persistent one. -/
theorem transient_cases : ∀ pairs : List (OutMsg F × Bool), (∀ p ∈ pairs, p.2 = true) ∨
    ∃ before msg after, pairs = before ++ (msg, false) :: after ∧ ∀ p ∈ after, p.2 = true
  | [] => .inl (by simp)
  | (msg, flag) :: pairs => by
    rcases transient_cases pairs with hall | ⟨before, last, after, rfl, hafter⟩
    · cases flag with
      | true => exact .inl (by simpa using hall)
      | false => exact .inr ⟨[], msg, pairs, rfl, hall⟩
    · exact .inr ⟨(msg, flag) :: before, last, after, rfl, hafter⟩

theorem transientTail_all {pairs : List (OutMsg F × Bool)} (h : ∀ p ∈ pairs, p.2 = true) :
    transientTail pairs = pairs.length := by
  unfold transientTail
  rw [List.takeWhile_eq_self_iff.mpr fun p hp => h p (List.mem_reverse.mp hp), List.length_reverse]

theorem transientTail_append {before after : List (OutMsg F × Bool)} {msg : OutMsg F}
    (h : ∀ p ∈ after, p.2 = true) : transientTail (before ++ (msg, false) :: after) = after.length := by
  have hreverse : (before ++ (msg, false) :: after).reverse = after.reverse ++ (msg, false) :: before.reverse := by
    simp
  unfold transientTail
  rw [hreverse, List.takeWhile_append_of_pos fun p hp => h p (List.mem_reverse.mp hp),
    List.takeWhile_cons_of_neg Bool.false_ne_true, List.append_nil, List.length_reverse]

/-- What merging leaves around the last persistent message. -/
theorem mergeToolResults_split (before : List (OutMsg F × Bool)) (msg : OutMsg F) {after : List (OutMsg F × Bool)}
    (h : ∀ p ∈ after, p.2 = true) : ∃ front last,
      mergeToolResults (before ++ (msg, false) :: after) = front ++ (last, false) :: after ∧
        flat (sentAll front) ++ flat [last.sent] = flat (sentAll before) ++ flat [msg.sent] ∧
          (flat [msg.sent] ≠ [] → flat [last.sent] ≠ []) := by
  have hassoc : before ++ (msg, false) :: after = (before ++ [(msg, false)]) ++ after := List.append_cons _ _ _
  -- the messages up to the last persistent one are merged by themselves
  obtain ⟨front, last, hmerged, hne⟩ : ∃ front last, mergeToolResults (before ++ [(msg, false)]) = front ++ [(last, false)] ∧
      (flat [msg.sent] ≠ [] → flat [last.sent] ≠ []) := by
    cases before with
    | nil => exact ⟨[], msg, rfl, id⟩
    | cons cur rest =>
      obtain ⟨front, ⟨last, flag⟩, hlast, hflag, hne⟩ := mergeInto_last (rest ++ [(msg, false)]) cur
      rw [List.getLastD_concat] at hflag hne
      obtain rfl : flag = false := hflag
      exact ⟨front, last, hlast, hne⟩
  have hwhole : mergeToolResults (before ++ (msg, false) :: after) = mergeToolResults (before ++ [(msg, false)]) ++ after := by
    rw [hassoc]
    cases before with
    | nil => exact mergeInto_append [] _ h
    | cons cur rest => exact mergeInto_append (rest ++ [(msg, false)]) cur h
  refine ⟨front, last, ?_, ?_, hne⟩
  · rw [hwhole, hmerged, List.append_assoc]
    rfl
  · have hflat := flat_mergeToolResults (before ++ [(msg, false)])
    rw [hmerged, flat_sentAll_append, flat_sentAll_append] at hflat
    exact hflat

/-- The messages of a request with a persistent message. -/
theorem buildRequest_messages (config : CacheConfig) (hon : config.promptCache ≠ "0") (system : String)
    {pairs front after : List (OutMsg F × Bool)} {last : OutMsg F}
    (hmerged : mergeToolResults pairs = front ++ (last, false) :: after) (hafter : ∀ p ∈ after, p.2 = true) :
    (buildRequest config system pairs).messages =
      foldTransientTail (sentAll front ++ last.sent.mark config.cacheControl :: sentAll after) (sentAll after).length := by
  have htail : transientTail (mergeToolResults pairs) = (sentAll after).length := by
    rw [hmerged, transientTail_append hafter, List.length_map]
  have hsent : (mergeToolResults pairs).map (fun p => p.1.sent) = sentAll front ++ last.sent :: sentAll after := by
    rw [hmerged, List.map_append]
    rfl
  show foldTransientTail (addPromptCache config (transientTail (mergeToolResults pairs)) ⟨.text system, _⟩).messages
    (transientTail (mergeToolResults pairs)) = _
  rw [htail, hsent, addPromptCache_messages config hon]

theorem buildRequest_unmarked (config : CacheConfig) (hoff : config.promptCache = "0") (system : String)
    (pairs : List (OutMsg F × Bool)) : (buildRequest config system pairs).messages =
      foldTransientTail (sentAll (mergeToolResults pairs)) (transientTail (mergeToolResults pairs)) := by
  show foldTransientTail (addPromptCache config (transientTail (mergeToolResults pairs)) ⟨.text system, _⟩).messages
    (transientTail (mergeToolResults pairs)) = _
  unfold addPromptCache
  rw [if_pos hoff]

/-- A request without a persistent message is left as it is. -/
theorem buildRequest_transient (config : CacheConfig) (system : String) {pairs : List (OutMsg F × Bool)}
    (h : ∀ p ∈ mergeToolResults pairs, p.2 = true) :
    (buildRequest config system pairs).messages = sentAll (mergeToolResults pairs) := by
  have hlength : transientTail (mergeToolResults pairs) = (sentAll (mergeToolResults pairs)).length := by
    rw [transientTail_all h, List.length_map]
  have hfold : ∀ msgs : List (SentMsg F), foldTransientTail msgs msgs.length = msgs := by
    intro msgs
    unfold foldTransientTail
    rw [if_pos (.inr (Nat.le_refl _))]
  have hcache : (addPromptCache config (transientTail (mergeToolResults pairs))
      ⟨.text system, sentAll (mergeToolResults pairs)⟩).messages = sentAll (mergeToolResults pairs) := by
    unfold addPromptCache
    by_cases hoff : config.promptCache = "0"
    · rw [if_pos hoff]
    · rw [if_neg hoff, hlength]
      exact if_pos (.inr (Nat.le_refl _))
  show foldTransientTail (addPromptCache config (transientTail (mergeToolResults pairs)) ⟨.text system, _⟩).messages
    (transientTail (mergeToolResults pairs)) = _
  rw [hcache, hlength, hfold]

/-- The three shapes a request can have. -/
theorem request_cases (config : CacheConfig) (system : String) (pairs : List (OutMsg F × Bool)) :
    (buildRequest config system pairs).messages = sentAll (mergeToolResults pairs) ∨
      ∃ front last after mark, mergeToolResults pairs = front ++ (last, false) :: after ∧ (∀ p ∈ after, p.2 = true) ∧
        (mark = id ∨ mark = SentMsg.mark config.cacheControl) ∧ (buildRequest config system pairs).messages =
          foldTransientTail (sentAll front ++ mark last.sent :: sentAll after) (sentAll after).length := by
  rcases transient_cases (mergeToolResults pairs) with hall | ⟨front, last, after, hmerged, hafter⟩
  · exact .inl (buildRequest_transient config system hall)
  · right
    by_cases hoff : config.promptCache = "0"
    · refine ⟨front, last, after, id, hmerged, hafter, .inl rfl, ?_⟩
      rw [buildRequest_unmarked config hoff, hmerged, transientTail_append hafter, sentAll, List.map_append,
        List.length_map]
      rfl
    · exact ⟨front, last, after, _, hmerged, hafter, .inr rfl, buildRequest_messages config hoff system hmerged hafter⟩

/-- **The blocks** are those of the messages. -/
theorem request_content (config : CacheConfig) (system : String) (pairs : List (OutMsg F × Bool)) :
    flat (buildRequest config system pairs).messages = flat (sentAll pairs) := by
  rw [← flat_mergeToolResults pairs]
  rcases request_cases config system pairs with h | ⟨front, last, after, mark, hmerged, -, hmark, h⟩
  · rw [h]
  · have hflat : flat [mark last.sent] = flat [last.sent] := by
      rcases hmark with rfl | rfl
      · rfl
      · exact flat_mark _ _
    have hfold : flat (foldTransientTail (sentAll front ++ mark last.sent :: sentAll after) (sentAll after).length) =
        flat (sentAll front ++ mark last.sent :: sentAll after) := by
      unfold flat
      rw [flatMarked_fold]
    rw [h, hfold, hmerged, flat_append, flat_cons, hflat, flat_sentAll_append, flat_sentAll_cons]

/-- **The mark** stands on the last block of the last persistent message. -/
theorem request_marked (config : CacheConfig) (hon : config.promptCache ≠ "0") (system : String)
    {before after : List (OutMsg F × Bool)} {msg : OutMsg F} {blocks : List (OutRole × OutBlock F)}
    {last : OutRole × OutBlock F} (hsendable : ∀ p ∈ before ++ (msg, false) :: after, Sendable p.1)
    (hafter : ∀ p ∈ after, p.2 = true) (hlast : flat [msg.sent] = blocks ++ [last]) :
    flatMarked (buildRequest config system (before ++ (msg, false) :: after)).messages =
      (flat (sentAll before) ++ blocks).map unmarked ++ [(last.1, ⟨last.2, some config.cacheControl⟩)] ++
        (flat (sentAll after)).map unmarked := by
  obtain ⟨front, target, hmerged, hflat, hne⟩ := mergeToolResults_split before msg hafter
  have htarget : Sendable target := by
    have hall : ∀ p ∈ mergeToolResults (before ++ (msg, false) :: after), Sendable p.1 := by
      cases before with
      | nil => exact sendable_mergeInto _ _ hsendable
      | cons cur rest => exact sendable_mergeInto _ _ hsendable
    exact hall (target, false) (hmerged ▸ List.mem_append_right _ List.mem_cons_self)
  -- the last block of the merged message is the last block of the message
  obtain ⟨blocks', last', hlast'⟩ : ∃ blocks' last', flat [target.sent] = blocks' ++ [last'] := by
    rcases List.eq_nil_or_concat (flat [target.sent]) with h | ⟨blocks', last', h⟩
    · exact absurd h (hne (by rw [hlast]; simp))
    · exact ⟨blocks', last', by rw [h, List.concat_eq_append]⟩
  rw [hlast, hlast', ← List.append_assoc, ← List.append_assoc] at hflat
  obtain ⟨hblocks, hsame⟩ := List.append_inj' hflat rfl
  obtain rfl := List.singleton_inj.mp hsame
  have hunmarked : ∀ pairs : List (OutMsg F × Bool), flatMarked (sentAll pairs) = (flat (sentAll pairs)).map unmarked := by
    intro pairs
    have hmap : sentAll pairs = (pairs.map Prod.fst).map OutMsg.sent := by
      rw [List.map_map]
      rfl
    rw [hmap, flatMarked_sent]
  have hcons : flatMarked (target.sent.mark config.cacheControl :: sentAll after) =
      flatMarked [target.sent.mark config.cacheControl] ++ flatMarked (sentAll after) := flatMarked_append [_] _
  rw [buildRequest_messages config hon system hmerged hafter, flatMarked_fold, flatMarked_append, hcons,
    flatMarked_mark _ htarget hlast', hunmarked, hunmarked, ← hblocks, List.map_append]
  simp only [List.append_assoc]

/-! ### Neighbours -/

theorem onlyResults_sent (msg : OutMsg F) : msg.sent.onlyResults = onlyResults msg := by
  obtain ⟨role, content⟩ := msg
  cases role with
  | assistant => rfl
  | user =>
    cases content with
    | text s => rfl
    | blocks bs =>
      show (!(bs.map _).isEmpty && (bs.map _).all _) = (!bs.isEmpty && bs.all isResult)
      rw [List.isEmpty_map, List.all_map]
      rfl

/-- A message of results only has a list of blocks. -/
theorem onlyResults_content {m : SentMsg F} (h : m.onlyResults = true) :
    m.role = .user ∧ ∃ bs, m.content = .blocks bs ∧ bs ≠ [] ∧ ∀ b ∈ bs, isResult b.block = true := by
  obtain ⟨role, content⟩ := m
  cases role with
  | assistant => cases h
  | user =>
    cases content with
    | text s => cases h
    | blocks bs =>
      obtain ⟨hne, hall⟩ := Bool.and_eq_true_iff.mp h
      refine ⟨rfl, bs, rfl, ?_, List.all_eq_true.mp hall⟩
      rintro rfl
      cases hne

theorem onlyResults_of_blocks {m : SentMsg F} {bs : List (SentBlock F)} (hrole : m.role = .user)
    (hcontent : m.content = .blocks bs) (hne : bs ≠ []) (hall : ∀ b ∈ bs, isResult b.block = true) :
    m.onlyResults = true := by
  obtain ⟨role, content⟩ := m
  obtain rfl : role = .user := hrole
  obtain rfl : content = .blocks bs := hcontent
  refine Bool.and_eq_true_iff.mpr ⟨?_, List.all_eq_true.mpr hall⟩
  cases bs with
  | nil => exact absurd rfl hne
  | cons b bs => rfl

theorem onlyResults_of_mark (cacheControl : CacheControl) {msg : OutMsg F}
    (h : (msg.sent.mark cacheControl).onlyResults = true) : msg.sent.onlyResults = true := by
  obtain ⟨hrole, bs, hbs, hne, hall⟩ := onlyResults_content h
  obtain ⟨role, content⟩ := msg
  cases content with
  | text s =>
    -- a text that is marked is one text block
    by_cases hs : s = ""
    · rw [hs] at hbs
      cases hbs
    · have hmark : (SentContent.text s : SentContent F).mark cacheControl = .blocks [⟨.text s, some cacheControl⟩] :=
        if_pos hs
      obtain rfl := SentContent.blocks.inj (hbs.symm.trans hmark)
      cases hall _ List.mem_cons_self
  | blocks content =>
    have hsame : bs = markLast cacheControl (content.map fun b => { block := b }) := SentContent.blocks.inj hbs.symm
    have hblocks := markLast_blocks cacheControl (content.map fun b => ({ block := b } : SentBlock F))
    rw [← hsame] at hblocks
    refine onlyResults_of_blocks hrole rfl ?_ fun b hb => ?_
    · intro hnil
      rw [hnil, List.map_nil, List.map_eq_nil_iff] at hblocks
      exact hne hblocks
    · have hmem : b.block ∈ bs.map SentBlock.block := hblocks ▸ List.mem_map_of_mem hb
      obtain ⟨b', hb', heq⟩ := List.mem_map.mp hmem
      rw [← heq]
      exact hall b' hb'

theorem foldable_ne_nil {msg : OutMsg F} (h : Sendable msg) (cacheControl : CacheControl) :
    msg.sent.content.foldable ≠ [] ∧ (msg.sent.mark cacheControl).content.foldable ≠ [] := by
  obtain ⟨role, content⟩ := msg
  cases content with
  | text s =>
    refine ⟨List.cons_ne_nil _ _, ?_⟩
    by_cases hs : s = ""
    · rw [hs]
      exact List.cons_ne_nil _ _
    · show (if s ≠ "" then SentContent.blocks [⟨.text s, some cacheControl⟩] else .text s).foldable ≠ []
      rw [if_pos hs]
      exact List.cons_ne_nil _ _
  | blocks bs =>
    obtain ⟨hne, -⟩ := h bs rfl
    constructor
    · show (bs.map _) ≠ []
      simpa using hne
    · show markLast cacheControl (bs.map _) ≠ []
      intro hnil
      have hblocks := markLast_blocks cacheControl (bs.map fun b => ({ block := b } : SentBlock F))
      rw [hnil] at hblocks
      simp [hne] at hblocks

/-- What is folded into a message does not make it one of results only. -/
theorem onlyResults_of_fold {m : SentMsg F} (hne : m.content.foldable ≠ []) {extra : List (SentBlock F)}
    (h : ({ m with content := .blocks (m.content.foldable ++ extra) } : SentMsg F).onlyResults = true) :
    m.onlyResults = true := by
  obtain ⟨hrole, bs, hbs, -, hall⟩ := onlyResults_content h
  obtain rfl := SentContent.blocks.inj hbs
  obtain ⟨role, content⟩ := m
  cases content with
  | text s => cases hall { block := .text s } List.mem_cons_self
  | blocks bs => exact onlyResults_of_blocks hrole rfl hne fun b hb => hall b (List.mem_append_left _ hb)

theorem chain_replace {m m' : SentMsg F} (honly : m'.onlyResults = true → m.onlyResults = true)
    {front later : List (SentMsg F × Bool)} (h : (front ++ (m, false) :: later).IsChain Apart) :
    (front ++ (m', false) :: later).IsChain Apart := by
  rw [List.isChain_split] at h ⊢
  obtain ⟨hfront, hlater⟩ := h
  constructor
  · rw [List.isChain_append] at hfront ⊢
    refine ⟨hfront.1, .singleton _, fun a ha b hb hboth => ?_⟩
    obtain rfl : (m', false) = b := by simpa using hb
    exact hfront.2.2 a ha (m, false) rfl ⟨hboth.1, rfl, hboth.2.2.1, honly hboth.2.2.2⟩
  · rw [List.isChain_cons] at hlater ⊢
    exact ⟨fun b hb hboth => hlater.1 b hb ⟨rfl, hboth.2.1, honly hboth.2.2.1, hboth.2.2.2⟩, hlater.2⟩

theorem mergeToolResults_apart (pairs : List (OutMsg F × Bool)) :
    ((mergeToolResults pairs).map fun p => (p.1.sent, p.2)).IsChain Apart := by
  have hchain : (mergeToolResults pairs).IsChain fun a b => joins a b = false := by
    cases pairs with
    | nil => exact .nil
    | cons cur rest => exact (mergeInto_chain rest cur).2
  rw [List.isChain_map]
  refine hchain.imp fun a b hjoins hboth => ?_
  obtain ⟨ha, hb, honly, honly'⟩ := hboth
  dsimp only at ha hb honly honly'
  rw [onlyResults_sent] at honly honly'
  have hjoin : joins a b = true := by
    unfold joins
    rw [ha, hb, honly, honly']
    rfl
  rw [hjoins] at hjoin
  cases hjoin

/-- **No two neighbours** are persistent messages of results only. -/
theorem request_apart (config : CacheConfig) (system : String) {pairs : List (OutMsg F × Bool)}
    (hsendable : ∀ p ∈ pairs, Sendable p.1) :
    ((buildRequest config system pairs).messages.zip ((mergeToolResults pairs).map Prod.snd)).IsChain Apart := by
  have hapart := mergeToolResults_apart pairs
  rcases request_cases config system pairs with h | ⟨front, last, after, mark, hmerged, -, hmark, h⟩
  · rw [h, sentAll, List.zip_map']
    exact hapart
  · have hlast : Sendable last := by
      have hall : ∀ p ∈ mergeToolResults pairs, Sendable p.1 := by
        cases pairs with
        | nil => exact fun p hp => by cases hp
        | cons cur rest => exact sendable_mergeInto _ _ hsendable
      exact hall (last, false) (hmerged ▸ List.mem_append_right _ List.mem_cons_self)
    have hmarked : (mark last.sent).onlyResults = true → last.sent.onlyResults = true := by
      rcases hmark with rfl | rfl
      · exact id
      · exact onlyResults_of_mark _
    have hfoldable : (mark last.sent).content.foldable ≠ [] := by
      rcases hmark with rfl | rfl
      · exact (foldable_ne_nil hlast config.cacheControl).1
      · exact (foldable_ne_nil hlast config.cacheControl).2
    have hlength : (sentAll front).length = (front.map Prod.snd).length := by
      rw [List.length_map, List.length_map]
    rw [hmerged, List.map_append, List.map_cons] at hapart
    rw [h, hmerged, List.map_append, List.map_cons]
    have hpersistent := chain_replace hmarked hapart
    rcases foldTransientTail_cases (sentAll front) (mark last.sent) (sentAll after) with hfold | ⟨-, -, hfold⟩
    · rw [hfold, List.zip_append hlength, List.zip_cons_cons, List.zip_map', List.zip_map']
      exact hpersistent
    · rw [hfold, List.zip_append hlength, List.zip_cons_cons, List.zip_nil_left, List.zip_map']
      exact chain_replace (onlyResults_of_fold hfoldable) (List.isChain_split.mp hpersistent).1

/-! ### Converted messages -/

section Converted

variable (ft : PyJson.FloatText F)

theorem contentBlocks_full : ∀ (bs : List Block) (remaining : List (ToolUse F)),
    ∀ b ∈ (contentBlocks bs remaining).1, isEmptyText b = false
  | [], _ => by simp [contentBlocks]
  | .thinking thinking signature :: bs, remaining => by
    simpa [contentBlocks, isEmptyText] using contentBlocks_full bs remaining
  | .redactedThinking data :: bs, remaining => by
    simpa [contentBlocks, isEmptyText] using contentBlocks_full bs remaining
  | .text s :: bs, remaining => by
    by_cases hs : s = ""
    · simpa [contentBlocks, hs] using contentBlocks_full bs remaining
    · simpa [contentBlocks, isEmptyText, hs] using contentBlocks_full bs remaining
  | .toolUse id :: bs, remaining => by
    rw [contentBlocks]
    cases Keyed.get? ToolUse.id remaining id with
    | some call => simpa [isEmptyText] using contentBlocks_full bs (Keyed.pop ToolUse.id remaining id)
    | none => exact contentBlocks_full bs remaining
  | .reasoning _ _ _ :: bs, remaining => contentBlocks_full bs remaining
  | .functionCall _ :: bs, remaining => contentBlocks_full bs remaining
  | .other _ :: bs, remaining => contentBlocks_full bs remaining

theorem assistantBlocks_full (m : Message) : ∀ b ∈ assistantBlocks ft m, isEmptyText b = false := by
  have hcalls : ∀ calls : List (ToolUse F), ∀ b ∈ calls.map OutBlock.toolUse, isEmptyText b = false := by
    intro calls b hb
    obtain ⟨call, -, rfl⟩ := List.mem_map.mp hb
    rfl
  have htext : ∀ s : String, ∀ b ∈ (if s ≠ "" then [.text s] else [] : List (OutBlock F)), isEmptyText b = false := by
    intro s b hb
    by_cases hs : s = ""
    · simp [hs] at hb
    · rw [if_pos hs] at hb
      rw [List.mem_singleton.mp hb]
      simpa [isEmptyText] using hs
  intro b hb
  unfold assistantBlocks at hb
  rcases List.mem_append.mp hb with hb | hb
  · cases hcontent : m.content with
    | blocks bs =>
      rw [hcontent] at hb
      exact contentBlocks_full bs _ b hb
    | text s =>
      rw [hcontent] at hb
      exact htext _ b hb
    | none =>
      rw [hcontent] at hb
      exact htext (textOf .none) b hb
  · exact hcalls _ b hb

theorem toAnthropicMsg_sendable {m : Message} {msg : OutMsg F} (h : toAnthropicMsg ft m = some msg) : Sendable msg := by
  intro bs hbs
  unfold toAnthropicMsg at h
  split at h
  · obtain rfl := Option.some.inj h
    obtain rfl := OutContent.blocks.inj hbs
    refine ⟨List.cons_ne_nil _ _, fun b hb => ?_⟩
    rw [List.mem_singleton.mp hb]
    rfl
  · cases hblocks : assistantBlocks ft m with
    | nil =>
      rw [hblocks] at h
      cases h
    | cons b bs' =>
      rw [hblocks] at h
      obtain rfl := Option.some.inj h
      obtain rfl := OutContent.blocks.inj hbs
      refine ⟨List.cons_ne_nil _ _, fun b hb => ?_⟩
      exact assistantBlocks_full ft m b (hblocks ▸ hb)
  · obtain rfl := Option.some.inj h
    cases hbs

theorem convertedPairs_sendable (h : List Message) : ∀ p ∈ convertedPairs ft h, Sendable p.1 := by
  intro p hp
  obtain ⟨m, -, hm⟩ := List.mem_filterMap.mp hp
  obtain ⟨msg, hmsg, rfl⟩ := Option.map_eq_some_iff.mp hm
  exact toAnthropicMsg_sendable ft hmsg

/-- **A request keeps the content** of every list of messages, in any order of transient
and persistent ones. -/
theorem request_preserves (config : CacheConfig) (system : String) (h : List Message) :
    Preserves config system (convertedPairs ft h) where
  content := request_content config system _
  apart := request_apart config system (convertedPairs_sendable ft h)
  marked hon before msg after blocks last hpairs hafter hlast := by
    have hsendable := convertedPairs_sendable ft h
    rw [hpairs] at hsendable ⊢
    exact request_marked config hon system hsendable hafter hlast

end Converted

end Anthropic
end Wire
end AgentCore
