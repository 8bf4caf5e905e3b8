/-
# Text

The string operations the agent loop's code uses, on code points as Python's
are. Searching and cutting go through the list of characters, so that they
reduce on a concrete text. Python's white space is that of `str.isspace`,
which is also what `\s` matches, and its line boundaries are those of
`str.splitlines`.
-/
import Mathlib.Data.List.Basic

namespace AgentCore
namespace Text

/-- Texts are equal if their characters are. -/
instance lawfulChars : LawfulBEq (List Char) := List.instLawfulBEq

/-- `str.isspace` of one character. -/
def isSpace (c : Char) : Bool :=
  let n := c.toNat
  (9 ≤ n && n ≤ 13) || (28 ≤ n && n ≤ 32) || n == 0x85 || n == 0xa0 || n == 0x1680 ||
    (0x2000 ≤ n && n ≤ 0x200a) || n == 0x2028 || n == 0x2029 || n == 0x202f || n == 0x205f || n == 0x3000

/-- The characters `str.splitlines` ends a line at. -/
def isLineEnd (c : Char) : Bool :=
  let n := c.toNat
  (10 ≤ n && n ≤ 13) || (28 ≤ n && n ≤ 30) || n == 0x85 || n == 0x2028 || n == 0x2029

def startsWith (s p : String) : Bool := p.toList.isPrefixOf s.toList

/-- `p in s`. -/
def contains (s p : String) : Bool := s.toList.tails.any p.toList.isPrefixOf

/-- `s[:n]`. -/
def take (s : String) (n : ℕ) : String := String.ofList (s.toList.take n)

/-- `s[n:]`. -/
def drop (s : String) (n : ℕ) : String := String.ofList (s.toList.drop n)

/-- `s[-n:]`, and nothing when `n` is zero. -/
def takeEnd (s : String) (n : ℕ) : String := String.ofList (s.toList.drop (s.length - n))

def stripStart (cs : List Char) : List Char := cs.dropWhile isSpace

def strip (s : String) : String :=
  String.ofList (stripStart (stripStart s.toList).reverse).reverse

/-- `sep.join(parts)`. -/
def join (sep : String) (parts : List String) : String := sep.intercalate parts

/-- The lines of a text, `cur` being the line begun (reversed). A carriage
return and the line feed after it are one boundary, and the text does not
end in an empty line. -/
def splitlinesAux : List Char → List Char → List String
  | cur, [] => if cur.isEmpty then [] else [String.ofList cur.reverse]
  | cur, '\r' :: '\n' :: cs => String.ofList cur.reverse :: splitlinesAux [] cs
  | cur, c :: cs =>
    if isLineEnd c then String.ofList cur.reverse :: splitlinesAux [] cs else splitlinesAux (c :: cur) cs

def splitlines (s : String) : List String := splitlinesAux [] s.toList

/-- `re.sub(r"\s+", " ", s)`: `inside` says that the run of white space being
read has left its one blank. -/
def collapseSpaces : Bool → List Char → List Char
  | _, [] => []
  | inside, c :: cs =>
    if isSpace c then (if inside then collapseSpaces true cs else ' ' :: collapseSpaces true cs)
    else c :: collapseSpaces false cs

/-- `list(dict.fromkeys(xs))`: the first of each, in order. -/
def fromKeys {α : Type} [DecidableEq α] (xs : List α) : List α :=
  xs.foldl (fun seen x => if x ∈ seen then seen else seen ++ [x]) []

/-- A comma after every third digit from the right, on the reversed digits. -/
def groupDigits : ℕ → List Char → List Char
  | _, [] => []
  | 3, c :: cs => ',' :: c :: groupDigits 1 cs
  | n, c :: cs => c :: groupDigits (n + 1) cs

/-- `f"{n:,}"`. -/
def thousands (n : ℕ) : String := String.ofList (groupDigits 0 (toString n).toList.reverse).reverse

/-- Names numbered under one prefix are different. -/
theorem append_toString_injective (base : String) : Function.Injective fun n : ℕ => base ++ toString n := by
  intro m n h
  have hlist := congrArg String.toList h
  simp only [String.toList_append, Nat.toString_eq_ofList_toDigits, String.toList_ofList] at hlist
  have hdigits := congrArg (Nat.ofDigitChars 10 · 0) (List.append_cancel_left hlist)
  simpa only [Nat.ofDigitChars_toDigits (b := 10) (by decide) (by decide)] using hdigits

theorem join_ne_empty {sep s : String} (hs : s ≠ "") (ts : List String) : join sep (s :: ts) ≠ "" := by
  cases ts with
  | nil =>
    rw [show join sep [s] = s from String.intercalate_singleton]
    exact hs
  | cons t ts =>
    rw [show join sep (s :: t :: ts) = s ++ sep ++ join sep (t :: ts) from String.intercalate_cons_cons]
    intro h
    rw [String.append_eq_empty_iff, String.append_eq_empty_iff] at h
    exact hs h.1.1

/-! ### Source URLs -/

/-- A character a URL runs on through: `[^\s\)>"'<]`. -/
def isUrlChar (c : Char) : Bool := !(isSpace c || [')', '>', '"', '\'', '<'].contains c)

/-- The scheme a text starts with: `https?://`. -/
def urlScheme (cs : List Char) : Option ℕ :=
  if "https://".toList.isPrefixOf cs then some 8
  else if "http://".toList.isPrefixOf cs then some 7
  else none

/-- The match of `URL_RE` that starts here, if there is one. -/
def urlAt (cs : List Char) : Option (List Char) :=
  match urlScheme cs with
  | none => none
  | some n =>
    match (cs.drop n).takeWhile isUrlChar with
    | [] => none
    | body => some (cs.take n ++ body)

/-- The matches from here on, `skip` characters of the last one being still
to be passed. -/
def findUrls : ℕ → List Char → List String
  | _, [] => []
  | skip + 1, _ :: cs => findUrls skip cs
  | 0, c :: cs =>
    match urlAt (c :: cs) with
    | some url => String.ofList url :: findUrls (url.length - 1) cs
    | none => findUrls 0 cs

/-- `URL_RE.findall(s)`. -/
def urls (s : String) : List String := findUrls 0 s.toList

/-- `URL_RE.search(s)`: the first match. -/
def firstUrl (s : String) : Option String := (urls s).head?

example : thousands 1234567 = "1,234,567" := by decide

example : urls "see (https://a.b/c) and http://d" = ["https://a.b/c", "http://d"] := by decide

end Text
end AgentCore
