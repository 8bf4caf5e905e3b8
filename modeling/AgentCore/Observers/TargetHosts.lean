/-
# The hosts that a tool call targets

The host extraction of `stuck_target_guard.py`: hosts of URLs in the arguments of a
call, for a search also bare host names, without the hosts that only pass a request
on. A set is a list without repetitions.

The digits and word characters beyond ASCII are a parameter.

Key definitions: `hostsIn`, `hostsForTool`.
Key theorem: `hostsForTool_oneLine`.
-/
import AgentCore.Lib.Json
import AgentCore.Lib.Trim
import AgentCore.Patterns
import AgentCore.Providers.Errors
import Mathlib.Data.List.Dedup

namespace AgentCore.Observers.StuckTarget

open Patterns Regex Text
open PyJson (Value)

abbrev Chars := List Char

abbrev Host := Chars

/-- What Python knows of the characters beyond ASCII. -/
structure Unicode where
  wordBeyond : Char → Bool
  digitBeyond : Char → Bool

/-! ### Characters -/

section Characters

variable (u : Unicode)

/-- `\d`. -/
def isDigit (c : Char) : Bool := if c.toNat < 128 then c.isDigit else u.digitBeyond c

def digit : Regex Char := one (isDigit u)

/-- `[a-z]`, with `re.IGNORECASE`. -/
def isLetter (c : Char) : Bool := "abcdefghijklmnopqrstuvwxyz".toList.any fun p => Loop.LeakedReasoning.test p c

/-- `[a-z0-9-]`, with `re.IGNORECASE`. -/
def isLabelChar (c : Char) : Bool := isLetter c || c.isDigit || c == '-'

/-- `[a-z0-9.\-]`. -/
def isHostChar (c : Char) : Bool := c.isLower || c.isDigit || c == '.' || c == '-'

def lowerChars (t : Chars) : Chars := t.flatMap Providers.lowerChar

/-- `str.removeprefix`. -/
def removePrefix (p t : Chars) : Chars := if p.isPrefixOf t then t.drop p.length else t

end Characters

/-! ### Host names -/

/-- `_URL_RE`, with what its group captures. -/
def urlAt (q : Place Char) : Option (Chars × Place Char) :=
  captured (seq (words "http") (seq (opt (words "s")) (text "://")))
    (many1 (one fun c => !isSpace c && !(['/', '"', '\'', '>', ')', '\\'].contains c))) empty q

/-- `_BARE_HOST_RE`, with what its group captures. -/
def bareHostAt (u : Unicode) (q : Place Char) : Option (Chars × Place Char) :=
  captured (place fun a _ => !a.any fun c => isLabelChar c || c == '@' || c == '.')
    (seq (many1 (seq (many1 (one isLabelChar)) (text ".")))
      (seq (exactly 2 (one isLetter)) (upTo 61 (one isLetter))))
    (opt (seq (text ":") (many1 (digit u)))) q

/-- `_HOST_TAIL_RE.sub("", host)`. -/
def cutTail : Chars → Chars
  | [] => []
  | c :: t => if !isHostChar c && t.all (· ≠ '\n') then [] else c :: cutTail t

def nonTldSuffixes : List String :=
  ["json", "pdf", "md", "txt", "csv", "tsv", "xml", "html", "htm", "js",
    "css", "png", "jpg", "jpeg", "gif", "svg", "zip", "gz", "tar", "yaml",
    "yml", "toml", "ini", "log", "sh", "sql", "py", "ipynb", "xlsx", "docx",
    "pptx", "parquet", "db", "sqlite", "env", "lock", "cfg", "conf"]

def networkToolNames : List String := ["web_fetch", "web_search", "scholar_search", "download_file", "bash"]

def transparentHosts : List String :=
  ["r.jina.ai", "google.serper.dev", "webcache.googleusercontent.com",
    "translate.goog", "corsproxy.io", "api.allorigins.win", "web.archive.org",
    "archive.org", "archive.ph", "archive.today", "index.commoncrawl.org"]

def isTransparent (host : Host) : Bool :=
  transparentHosts.any fun item => host = item.toList || ('.' :: item.toList).isSuffixOf host

def isTarget (host : Host) : Bool := host ≠ [] && !isTransparent host

/-- The host of what `_URL_RE` captures. -/
def urlHost (raw : Chars) : Host :=
  let authority := (raw.splitOn '@').getLastD []
  cutTail (removePrefix "www.".toList (lowerChars ((authority.splitOn ':').headD [])))

def bareHost (raw : Chars) : Host := removePrefix "www.".toList (lowerChars raw)

/-- A file name, not a host. -/
def isFileName (host : Host) : Bool := nonTldSuffixes.any fun s => s.toList = (host.splitOn '.').getLastD []

/-- The hosts in a text. -/
def hostsInText (u : Unicode) (includeBare : Bool) (t : Chars) : List Host :=
  let fromUrls := (findAll urlAt t).map urlHost
  let bare := if includeBare then ((findAll (bareHostAt u) t).map bareHost).filter (!isFileName ·) else []
  (fromUrls ++ bare).filter isTarget

section Hosts

variable (u : Unicode) {F : Type} (includeBare : Bool)

mutual

/-- `_hosts_in`. -/
def hostsIn : Value F → List Host
  | .null => []
  | .bool _ => []
  | .int _ => []
  | .float _ => []
  | .str t => hostsInText u includeBare t
  | .arr xs => hostsInAll xs
  | .obj kvs => hostsInItems kvs

def hostsInAll : List (Value F) → List Host
  | [] => []
  | x :: xs => hostsIn x ++ hostsInAll xs

def hostsInItems : List (Chars × Value F) → List Host
  | [] => []
  | kv :: kvs => hostsIn kv.2 ++ hostsInItems kvs

end

/-- `(name or "").strip().lower()`. -/
def normalName (name : String) : String := Providers.lower (strip name)

def isNetworkTool (name : String) : Bool :=
  networkToolNames.contains (normalName name) || contains (normalName name) "web_fetch" ||
    contains (normalName name) "web_search" || contains (normalName name) "download"

def isUrlKey (key : Chars) : Bool :=
  let key := lowerChars (Trim.trim isSpace key)
  key = "url".toList || key = "urls".toList

/-- `_hosts_for_tool`; a call without arguments has no hosts. -/
def hostsForTool (name : String) (args : Value F) : List Host :=
  if !isNetworkTool name then []
  else
    let lowered := Providers.lower name
    match contains lowered "web_fetch", args with
    | true, .obj kvs => (hostsInItems u false (kvs.filter fun kv => isUrlKey kv.1)).dedup
    | _, args => (hostsIn u (contains lowered "search") args).dedup

end Hosts

/-! ### Lines -/

theorem toLower_eq_newline {c : Char} (h : c.toLower = '\n') : c = '\n' := by
  unfold Char.toLower at h
  split at h
  · rename_i hc
    have hval : c.val + 32 = 10 := congrArg Char.val h
    have hnat := congrArg UInt32.toNat hval
    have hlo : 65 ≤ c.val.toNat := hc.1
    have hhi : c.val.toNat ≤ 90 := hc.2
    have hval' : c.toNat = c.val.toNat := rfl
    rw [UInt32.toNat_add] at hnat
    simp at hnat
    omega
  · exact h

theorem newline_of_mem_lowerChars {t : Chars} (h : '\n' ∈ lowerChars t) : '\n' ∈ t := by
  obtain ⟨c, hc, h⟩ := List.mem_flatMap.mp h
  unfold Providers.lowerChar at h
  split at h
  · exact absurd h (by decide)
  · split at h
    · exact absurd h (by decide)
    · rw [← toLower_eq_newline (List.mem_singleton.mp h).symm]
      exact hc

theorem mem_of_mem_splitOn {a c : Char} : ∀ {l p : Chars}, p ∈ l.splitOn a → c ∈ p → c ∈ l
  | [], p, hp, hc => by
    rw [List.splitOn_nil, List.mem_singleton] at hp
    rw [hp] at hc
    exact hc
  | x :: xs, p, hp, hc => by
    rw [List.splitOn_cons_eq_if_modifyHead] at hp
    split at hp
    · rcases List.mem_cons.mp hp with rfl | hp
      · exact absurd hc List.not_mem_nil
      · exact List.mem_cons_of_mem x (mem_of_mem_splitOn hp hc)
    · obtain ⟨q, qs, hsplit⟩ := List.exists_cons_of_ne_nil (List.splitOn_ne_nil a xs)
      rw [hsplit, List.modifyHead_cons] at hp
      rcases List.mem_cons.mp hp with rfl | hp
      · rcases List.mem_cons.mp hc with rfl | hc
        · exact List.mem_cons_self
        · exact List.mem_cons_of_mem x (mem_of_mem_splitOn (hsplit ▸ List.mem_cons_self) hc)
      · exact List.mem_cons_of_mem x (mem_of_mem_splitOn (hsplit ▸ List.mem_cons_of_mem q hp) hc)

theorem cutTail_subset : ∀ (t : Chars), cutTail t ⊆ t
  | [] => List.Subset.refl []
  | c :: t => by
    rw [cutTail]
    split
    · exact List.nil_subset _
    · exact List.cons_subset_cons c (cutTail_subset t)

theorem removePrefix_subset (p t : Chars) : removePrefix p t ⊆ t := by
  unfold removePrefix
  split
  · exact List.drop_subset _ _
  · exact List.Subset.refl t

theorem urlHost_subset {raw : Chars} (h : '\n' ∈ urlHost raw) : '\n' ∈ raw := by
  have hpart := newline_of_mem_lowerChars (removePrefix_subset _ _ (cutTail_subset _ h))
  have hhead : ∀ {ps : List Chars} {q : Chars}, ps ≠ [] → q = ps.headD [] → q ∈ ps := by
    intro ps q hne hq
    obtain ⟨p, ps', rfl⟩ := List.exists_cons_of_ne_nil hne
    rw [hq]
    exact List.mem_cons_self
  have hlast : ∀ {ps : List Chars}, ps ≠ [] → ps.getLastD [] ∈ ps := by
    intro ps hne
    rw [List.getLastD_eq_getLast?, List.getLast?_eq_some_getLast hne]
    exact List.getLast_mem hne
  have hauthority := mem_of_mem_splitOn (hhead (List.splitOn_ne_nil _ _) rfl) hpart
  exact mem_of_mem_splitOn (hlast (List.splitOn_ne_nil _ _)) hauthority

theorem urlAt_newline {q q' : Place Char} {raw : Chars} (h : urlAt q = some (raw, q')) : '\n' ∉ raw := fun hmem =>
  absurd (captured_reads h '\n' hmem) (by decide)

theorem bareHostAt_newline {u : Unicode} {q q' : Place Char} {raw : Chars} (h : bareHostAt u q = some (raw, q')) :
    '\n' ∉ raw := fun hmem => absurd (captured_reads h '\n' hmem) (by decide)

/-- A host is on one line. -/
def OneLine (h : Host) : Prop := '\n' ∉ h

variable {u : Unicode} {F : Type} {includeBare : Bool}

theorem hostsInText_oneLine {t : Chars} {h : Host} (hh : h ∈ hostsInText u includeBare t) : OneLine h := by
  have hh := List.mem_of_mem_filter hh
  rcases List.mem_append.mp hh with hh | hh
  · obtain ⟨raw, hraw, rfl⟩ := List.mem_map.mp hh
    obtain ⟨q, q', hat, -⟩ := exists_of_mem_findAll hraw
    exact fun hn => urlAt_newline hat (urlHost_subset hn)
  · by_cases hbare : includeBare = true
    · rw [if_pos hbare] at hh
      obtain ⟨raw, hraw, rfl⟩ := List.mem_map.mp (List.mem_of_mem_filter hh)
      obtain ⟨q, q', hat, -⟩ := exists_of_mem_findAll hraw
      exact fun hn => bareHostAt_newline hat (newline_of_mem_lowerChars (removePrefix_subset _ _ hn))
    · rw [if_neg hbare] at hh
      exact absurd hh List.not_mem_nil

mutual

theorem hostsIn_oneLine {h : Host} : ∀ (v : Value F), h ∈ hostsIn u includeBare v → OneLine h
  | .null, hh => absurd hh List.not_mem_nil
  | .bool _, hh => absurd hh List.not_mem_nil
  | .int _, hh => absurd hh List.not_mem_nil
  | .float _, hh => absurd hh List.not_mem_nil
  | .str _, hh => hostsInText_oneLine hh
  | .arr xs, hh => hostsInAll_oneLine xs hh
  | .obj kvs, hh => hostsInItems_oneLine kvs hh

theorem hostsInAll_oneLine {h : Host} : ∀ (xs : List (Value F)), h ∈ hostsInAll u includeBare xs → OneLine h
  | [], hh => absurd hh List.not_mem_nil
  | x :: xs, hh => (List.mem_append.mp hh).elim (hostsIn_oneLine x) (hostsInAll_oneLine xs)

theorem hostsInItems_oneLine {h : Host} :
    ∀ (kvs : List (Chars × Value F)), h ∈ hostsInItems u includeBare kvs → OneLine h
  | [], hh => absurd hh List.not_mem_nil
  | kv :: kvs, hh => (List.mem_append.mp hh).elim (hostsIn_oneLine kv.2) (hostsInItems_oneLine kvs)

end

/-- **The hosts** of a call are on one line each. -/
theorem hostsForTool_oneLine {name : String} {args : Value F} {h : Host} (hh : h ∈ hostsForTool u name args) :
    OneLine h := by
  unfold hostsForTool at hh
  split at hh
  · exact absurd hh List.not_mem_nil
  · dsimp only at hh
    split at hh
    · exact hostsInItems_oneLine _ (List.mem_dedup.mp hh)
    · exact hostsIn_oneLine _ (List.mem_dedup.mp hh)

end AgentCore.Observers.StuckTarget
