/-
# JSON texts

`dumps` and `loads` of Python's `json` module. A value is what `loads` can
return: an object is the list of its members in insertion order. Floats are a
parameter: `FloatText` says how they are written and read, and that a float
reads back from its own text. A text is a list of characters, so an escape of a
lone surrogate is refused where Python would let it through.

`Style` holds the options of `dumps`: whether characters beyond ASCII are
escaped and what stands between the items. A value whose objects have distinct
keys, and whose integers Python can print, reads back from its text in every
style (`loads_dumps`).

Key definitions: `Value`, `dumps`, `loads`, `Value.Printable`.
Key theorem: `loads_dumps`.
-/
import Mathlib.Data.List.Basic
import Mathlib.Data.List.TakeWhile
import Mathlib.Data.Int.Order.Basic

namespace PyJson

/-! ### Values -/

inductive Value (F : Type)
  | null
  | bool (b : Bool)
  | int (n : ℤ)
  | float (x : F)
  | str (s : List Char)
  | arr (xs : List (Value F))
  | obj (kvs : List (List Char × Value F))

/-! ### Numbers -/

/-- The characters a number can be made of. -/
def isNumberChar (c : Char) : Bool := c.isDigit || c == '+' || c == '-' || c == '.' || c == 'e' || c == 'E'

/-- What stands behind an integer without sign: a zero, or digits that do not
begin with one. -/
def intPart : List Char → Option (List Char)
  | [] => none
  | c :: cs => if c = '0' then some cs else if c.isDigit then some (cs.dropWhile Char.isDigit) else none

/-- What stands behind a fraction, if there is one. -/
def fracPart : List Char → List Char
  | '.' :: d :: cs => if d.isDigit then cs.dropWhile Char.isDigit else '.' :: d :: cs
  | cs => cs

/-- What stands behind the digits of an exponent, and none if there are none. -/
def expDigits : List Char → Option (List Char)
  | [] => none
  | d :: cs => if d.isDigit then some (cs.dropWhile Char.isDigit) else none

def expPart : List Char → List Char
  | c :: cs =>
    if c = 'e' ∨ c = 'E' then
      (match cs with
        | '+' :: ds => expDigits ds
        | '-' :: ds => expDigits ds
        | ds => expDigits ds).getD (c :: cs)
    else c :: cs
  | [] => []

def stripSign : List Char → List Char
  | '-' :: cs => cs
  | cs => cs

def isIntToken (tok : List Char) : Bool := intPart (stripSign tok) == some []

def isFloatToken (tok : List Char) : Bool :=
  (intPart (stripSign tok)).any fun rest => rest != [] && expPart (fracPart rest) == []

/-- `int` of a token. -/
def readInt : List Char → ℤ
  | '-' :: cs => -(Nat.ofDigitChars 10 cs 0 : ℤ)
  | cs => (Nat.ofDigitChars 10 cs 0 : ℤ)

/-- The most digits `int` reads and `str` prints. -/
def maxDigits : ℕ := 4300

/-- How floats are written and read. -/
structure FloatText (F : Type) where
  nan : F
  inf : F
  negInf : F
  repr : F → List Char
  read : List Char → F
  repr_token : ∀ x, x ≠ nan → x ≠ inf → x ≠ negInf → isFloatToken (repr x) = true ∧ (repr x).all isNumberChar = true
  read_repr : ∀ x, x ≠ nan → x ≠ inf → x ≠ negInf → read (repr x) = x

/-! ### Reading -/

def isSpace (c : Char) : Bool := c == ' ' || c == '\t' || c == '\n' || c == '\r'

def skipSpace (cs : List Char) : List Char := cs.dropWhile isSpace

def hexDigit (c : Char) : Option ℕ :=
  if c.isDigit then some (c.toNat - '0'.toNat)
  else if 'a' ≤ c ∧ c ≤ 'f' then some (c.toNat - 'a'.toNat + 10)
  else if 'A' ≤ c ∧ c ≤ 'F' then some (c.toNat - 'A'.toNat + 10)
  else none

def hex4 (a b c d : Char) : Option ℕ := do
  let a ← hexDigit a
  let b ← hexDigit b
  let c ← hexDigit c
  let d ← hexDigit d
  return ((a * 16 + b) * 16 + c) * 16 + d

def isHigh (n : ℕ) : Bool := 0xd800 ≤ n && n < 0xdc00

def isLow (n : ℕ) : Bool := 0xdc00 ≤ n && n < 0xe000

/-- What an escape of one letter stands for. -/
def unescape (c : Char) : Option Char :=
  if c = '"' then some '"'
  else if c = '\\' then some '\\'
  else if c = '/' then some '/'
  else if c = 'b' then some '\x08'
  else if c = 'f' then some '\x0c'
  else if c = 'n' then some '\n'
  else if c = 'r' then some '\r'
  else if c = 't' then some '\t'
  else none

/-- A character read, and what the rest of the string reads as. -/
def push (c : Char) (rest : Option (List Char × List Char)) : Option (List Char × List Char) :=
  rest.map fun r => (c :: r.1, r.2)

/-- A string from behind its opening quote, and what stands behind it. -/
def string : List Char → Option (List Char × List Char)
  | [] => none
  | '"' :: cs => some ([], cs)
  | '\\' :: 'u' :: a :: b :: c :: d :: cs =>
    match hex4 a b c d with
    | none => none
    | some n =>
      if isHigh n then
        match cs with
        | '\\' :: 'u' :: e :: f :: g :: h :: cs' =>
          match hex4 e f g h with
          | none => none
          | some m =>
            if isLow m then push (Char.ofNat (0x10000 + (n - 0xd800) * 0x400 + (m - 0xdc00))) (string cs') else none
        | _ => none
      else if isLow n then none
      else push (Char.ofNat n) (string cs)
  | '\\' :: c :: cs =>
    match unescape c with
    | none => none
    | some x => push x (string cs)
  | c :: cs => if c.toNat < 0x20 then none else push c (string cs)

/-- A member of an object: a later one takes the place of an earlier one of the
same key. -/
def setKey {V : Type} (k : List Char) (v : V) : List (List Char × V) → List (List Char × V)
  | [] => [(k, v)]
  | kv :: kvs => if kv.1 = k then (k, v) :: kvs else kv :: setKey k v kvs

def dict {V : Type} (kvs : List (List Char × V)) : List (List Char × V) :=
  kvs.foldl (fun d kv => setKey kv.1 kv.2 d) []

section Reading

variable {F : Type} (ft : FloatText F)

/-- A number: what follows one cannot go on with a character of a number. -/
def number (cs : List Char) : Option (Value F × List Char) :=
  let tok := cs.takeWhile isNumberChar
  let rest := cs.dropWhile isNumberChar
  if isIntToken tok then
    if maxDigits < (stripSign tok).length then none else some (.int (readInt tok), rest)
  else if isFloatToken tok then some (.float (ft.read tok), rest)
  else none

def literals : List (List Char × Value F) :=
  [("null".toList, .null), ("true".toList, .bool true), ("false".toList, .bool false), ("NaN".toList, .float ft.nan),
    ("Infinity".toList, .float ft.inf), ("-Infinity".toList, .float ft.negInf)]

def literal (cs : List Char) : Option (Value F × List Char) :=
  (literals ft).findSome? fun l => (l.1.isPrefixOf? cs).map fun rest => (l.2, rest)

def scalar (cs : List Char) : Option (Value F × List Char) := (number ft cs).orElse fun _ => literal ft cs

mutual

/-- A value that begins here, and what stands behind it. -/
def value : ℕ → List Char → Option (Value F × List Char)
  | 0, _ => none
  | _ + 1, [] => none
  | n + 1, c :: cs =>
    if c = '"' then (string cs).map fun r => (.str r.1, r.2)
    else if c = '[' then
      match skipSpace cs with
      | [] => none
      | d :: rest =>
        if d = ']' then some (.arr [], rest) else (elements n (d :: rest)).map fun r => (.arr r.1, r.2)
    else if c = '\x7b' then
      match skipSpace cs with
      | [] => none
      | d :: rest =>
        if d = '\x7d' then some (.obj [], rest)
        else if d = '"' then (members n rest).map fun r => (.obj (dict r.1), r.2)
        else none
    else scalar ft (c :: cs)

/-- The values up to the closing bracket. -/
def elements : ℕ → List Char → Option (List (Value F) × List Char)
  | 0, _ => none
  | n + 1, cs =>
    (value n cs).bind fun r =>
      match skipSpace r.2 with
      | [] => none
      | d :: rest =>
        if d = ']' then some ([r.1], rest)
        else if d = ',' then (elements n (skipSpace rest)).map fun r' => (r.1 :: r'.1, r'.2)
        else none

/-- The members up to the closing brace, from behind the quote of the first
key. -/
def members : ℕ → List Char → Option (List (List Char × Value F) × List Char)
  | 0, _ => none
  | n + 1, cs =>
    (string cs).bind fun k =>
      match skipSpace k.2 with
      | [] => none
      | d :: rest =>
        if d = ':' then
          (value n (skipSpace rest)).bind fun r =>
            match skipSpace r.2 with
            | [] => none
            | d :: rest =>
              if d = '\x7d' then some ([(k.1, r.1)], rest)
              else if d = ',' then
                match skipSpace rest with
                | [] => none
                | d :: rest =>
                  if d = '"' then (members n rest).map fun r' => ((k.1, r.1) :: r'.1, r'.2) else none
              else none
        else none

end

/-- `json.loads`; none is its `ValueError`. -/
def loads (text : List Char) : Option (Value F) :=
  let cs := skipSpace text
  (value ft (cs.length + 1) cs).bind fun r => if skipSpace r.2 = [] then some r.1 else none

end Reading

/-! ### Writing -/

/-- `ensure_ascii`, and whether a blank stands behind commas and colons. -/
structure Style where
  ensureAscii : Bool
  spaced : Bool

def Style.gap (st : Style) : List Char := if st.spaced then [' '] else []

/-- The digit of a number below 16. -/
def hexChar (n : ℕ) : Char := Nat.digitChar n

def escapeUnit (n : ℕ) : List Char :=
  ['\\', 'u', hexChar (n / 4096 % 16), hexChar (n / 256 % 16), hexChar (n / 16 % 16), hexChar (n % 16)]

/-- The characters with a short escape, and its letter. -/
def shortEscapes : List (Char × Char) :=
  [('"', '"'), ('\\', '\\'), ('\n', 'n'), ('\r', 'r'), ('\t', 't'), ('\x0c', 'f'), ('\x08', 'b')]

def escapeLetter (c : Char) : Option Char := (shortEscapes.find? (·.1 == c)).map Prod.snd

def escapeChar (st : Style) (c : Char) : List Char :=
  match escapeLetter c with
  | some x => ['\\', x]
  | none =>
    if c.toNat < 0x20 then escapeUnit c.toNat
    else if st.ensureAscii ∧ 0x7e < c.toNat then
      if c.toNat < 0x10000 then escapeUnit c.toNat
      else escapeUnit (0xd800 + (c.toNat - 0x10000) / 0x400) ++ escapeUnit (0xdc00 + (c.toNat - 0x10000) % 0x400)
    else [c]

/-- A string behind its opening quote. -/
def escapeRest (st : Style) (s : List Char) : List Char := s.flatMap (escapeChar st) ++ ['"']

def writeInt (n : ℤ) : List Char :=
  if n < 0 then '-' :: Nat.toDigits 10 n.natAbs else Nat.toDigits 10 n.natAbs

section Writing

variable {F : Type} [DecidableEq F] (ft : FloatText F) (st : Style)

def writeFloat (x : F) : List Char :=
  if x = ft.nan then "NaN".toList
  else if x = ft.inf then "Infinity".toList
  else if x = ft.negInf then "-Infinity".toList
  else ft.repr x

mutual

/-- `json.dumps`. -/
def dumps : Value F → List Char
  | .null => "null".toList
  | .bool true => "true".toList
  | .bool false => "false".toList
  | .int n => writeInt n
  | .float x => writeFloat ft x
  | .str s => '"' :: escapeRest st s
  | .arr [] => ['[', ']']
  | .arr (x :: xs) => '[' :: (dumps x ++ moreElements xs)
  | .obj [] => ['\x7b', '\x7d']
  | .obj (kv :: kvs) =>
    '\x7b' :: '"' :: (escapeRest st kv.1 ++ (':' :: (st.gap ++ (dumps kv.2 ++ moreMembers kvs))))

def moreElements : List (Value F) → List Char
  | [] => [']']
  | x :: xs => ',' :: (st.gap ++ (dumps x ++ moreElements xs))

def moreMembers : List (List Char × Value F) → List Char
  | [] => ['\x7d']
  | kv :: kvs =>
    ',' :: (st.gap ++ ('"' :: (escapeRest st kv.1 ++ (':' :: (st.gap ++ (dumps kv.2 ++ moreMembers kvs))))))

end

end Writing

/-! ### Strings read back -/

theorem isHigh_iff {n : ℕ} : isHigh n = true ↔ 0xd800 ≤ n ∧ n < 0xdc00 := by simp [isHigh]

theorem isLow_iff {n : ℕ} : isLow n = true ↔ 0xdc00 ≤ n ∧ n < 0xe000 := by simp [isLow]

theorem hexDigit_hexChar : ∀ n < 16, hexDigit (hexChar n) = some n := by decide

theorem hex4_escapeUnit {n : ℕ} (h : n < 0x10000) :
    hex4 (hexChar (n / 4096 % 16)) (hexChar (n / 256 % 16)) (hexChar (n / 16 % 16)) (hexChar (n % 16)) = some n := by
  have h₁ := hexDigit_hexChar (n / 4096 % 16) (Nat.mod_lt _ (by decide))
  have h₂ := hexDigit_hexChar (n / 256 % 16) (Nat.mod_lt _ (by decide))
  have h₃ := hexDigit_hexChar (n / 16 % 16) (Nat.mod_lt _ (by decide))
  have h₄ := hexDigit_hexChar (n % 16) (Nat.mod_lt _ (by decide))
  rw [hex4, h₁, h₂, h₃, h₄]
  have hn : ((n / 4096 % 16 * 16 + n / 256 % 16) * 16 + n / 16 % 16) * 16 + n % 16 = n := by omega
  exact congrArg some hn

theorem string_escapeUnit {n : ℕ} (h : n < 0x10000) (hhigh : isHigh n = false) (hlow : isLow n = false)
    (rest : List Char) : string (escapeUnit n ++ rest) = push (Char.ofNat n) (string rest) := by
  simp only [escapeUnit, List.cons_append, List.nil_append]
  rw [string, hex4_escapeUnit h]
  dsimp only
  rw [if_neg (by rw [hhigh]; decide), if_neg (by rw [hlow]; decide)]

theorem string_escapePair {n m : ℕ} (hn : n < 0x10000) (hm : m < 0x10000) (hhigh : isHigh n = true)
    (hlow : isLow m = true) (rest : List Char) :
    string (escapeUnit n ++ (escapeUnit m ++ rest)) =
      push (Char.ofNat (0x10000 + (n - 0xd800) * 0x400 + (m - 0xdc00))) (string rest) := by
  simp only [escapeUnit, List.cons_append, List.nil_append]
  rw [string, hex4_escapeUnit hn]
  dsimp only
  rw [if_pos hhigh]
  split
  · next e f g h cs' heq =>
    simp only [List.cons.injEq, true_and] at heq
    obtain ⟨rfl, rfl, rfl, rfl, rfl⟩ := heq
    rw [hex4_escapeUnit hm]
    dsimp only
    rw [if_pos hlow]
  · next hne => exact absurd rfl (hne _ _ _ _ _)

/-- A character is no surrogate. -/
theorem toNat_valid (c : Char) : c.toNat < 0xd800 ∨ 0xdfff < c.toNat ∧ c.toNat < 0x110000 := c.valid

theorem string_plain {c : Char} (hquote : c ≠ '"') (hslash : c ≠ '\\') (hctrl : 0x20 ≤ c.toNat) (rest : List Char) :
    string (c :: rest) = push c (string rest) := by
  rw [string, if_neg (by omega)]
  · exact hquote
  · exact fun _ _ _ _ _ h => absurd h hslash
  · exact fun _ _ h => absurd h hslash

theorem string_letter {x c : Char} (hx : x ≠ 'u') (h : unescape x = some c) (rest : List Char) :
    string ('\\' :: x :: rest) = push c (string rest) := by
  rw [string, h]
  exact fun _ _ _ _ _ hu => absurd hu hx

theorem unescape_shortEscapes : ∀ p ∈ shortEscapes, p.2 ≠ 'u' ∧ unescape p.2 = some p.1 := by decide

theorem unescape_escapeLetter {c x : Char} (h : escapeLetter c = some x) : x ≠ 'u' ∧ unescape x = some c := by
  obtain ⟨p, hp, rfl⟩ := Option.map_eq_some_iff.mp h
  have hc : p.1 = c := by simpa using List.find?_some hp
  rw [← hc]
  exact unescape_shortEscapes p (List.mem_of_find?_eq_some hp)

theorem escapeLetter_eq_none {c : Char} (h : escapeLetter c = none) : c ≠ '"' ∧ c ≠ '\\' := by
  constructor
  · rintro rfl
    cases h
  · rintro rfl
    cases h

theorem string_escapeChar (st : Style) (c : Char) (rest : List Char) :
    string (escapeChar st c ++ rest) = push c (string rest) := by
  have hvalid := toNat_valid c
  have hunit : c.toNat < 0x10000 → string (escapeUnit c.toNat ++ rest) = push c (string rest) := by
    intro hlt
    have hhigh : isHigh c.toNat = false := by
      rw [Bool.eq_false_iff, ne_eq, isHigh_iff]
      omega
    have hlow : isLow c.toNat = false := by
      rw [Bool.eq_false_iff, ne_eq, isLow_iff]
      omega
    have hunit := string_escapeUnit hlt hhigh hlow rest
    rwa [Char.ofNat_toNat] at hunit
  unfold escapeChar
  cases hletter : escapeLetter c with
  | some x =>
    obtain ⟨hx, hc⟩ := unescape_escapeLetter hletter
    exact string_letter hx hc rest
  | none =>
    obtain ⟨hquote, hslash⟩ := escapeLetter_eq_none hletter
    dsimp only
    by_cases hctrl : c.toNat < 0x20
    · rw [if_pos hctrl]
      exact hunit (by omega)
    rw [if_neg hctrl]
    by_cases hascii : st.ensureAscii = true ∧ 0x7e < c.toNat
    · rw [if_pos hascii]
      by_cases hbasic : c.toNat < 0x10000
      · rw [if_pos hbasic]
        exact hunit hbasic
      · have hhigh : isHigh (0xd800 + (c.toNat - 0x10000) / 0x400) = true := isHigh_iff.mpr (by omega)
        have hlow : isLow (0xdc00 + (c.toNat - 0x10000) % 0x400) = true := isLow_iff.mpr (by omega)
        have hcode : 0x10000 + (0xd800 + (c.toNat - 0x10000) / 0x400 - 0xd800) * 0x400 +
            (0xdc00 + (c.toNat - 0x10000) % 0x400 - 0xdc00) = c.toNat := by omega
        rw [if_neg hbasic, List.append_assoc, string_escapePair (by omega) (by omega) hhigh hlow, hcode,
          Char.ofNat_toNat]
    · rw [if_neg hascii]
      exact string_plain hquote hslash (by omega) rest

/-- A string reads back from behind its opening quote. -/
theorem string_escapeRest (st : Style) (s rest : List Char) : string (escapeRest st s ++ rest) = some (s, rest) := by
  induction s with
  | nil => rfl
  | cons c s ih =>
    have hcons : escapeRest st (c :: s) ++ rest = escapeChar st c ++ (escapeRest st s ++ rest) := by
      simp only [escapeRest, List.flatMap_cons, List.append_assoc]
    rw [hcons, string_escapeChar, ih]
    rfl

/-! ### Numbers read back -/

/-- What can stand behind a number. -/
def Ends (rest : List Char) : Prop := ∀ c ∈ rest.head?, isNumberChar c = false

theorem Ends.cons {c : Char} (h : isNumberChar c = false) (rest : List Char) : Ends (c :: rest) := by
  intro d hd
  rw [List.head?_cons, Option.mem_some] at hd
  exact hd ▸ h

theorem takeWhile_token {tok rest : List Char} (h : ∀ c ∈ tok, isNumberChar c = true) (hrest : Ends rest) :
    (tok ++ rest).takeWhile isNumberChar = tok ∧ (tok ++ rest).dropWhile isNumberChar = rest := by
  induction tok with
  | nil =>
    rcases rest with _ | ⟨c, cs⟩
    · exact ⟨rfl, rfl⟩
    · have hc : isNumberChar c = false := hrest c rfl
      simp [hc]
  | cons c tok ih =>
    obtain ⟨h₁, h₂⟩ := ih fun d hd => h d (List.mem_cons_of_mem _ hd)
    have hc := h c List.mem_cons_self
    simp [hc, h₁, h₂]

theorem isNumberChar_of_isDigit {c : Char} (h : c.isDigit = true) : isNumberChar c = true := by
  simp [isNumberChar, h]

theorem toDigits_isDigit {n : ℕ} : ∀ c ∈ Nat.toDigits 10 n, c.isDigit = true := fun _ hc =>
  Nat.isDigit_of_mem_toDigits (by decide) (by decide) hc

theorem writeInt_isNumberChar {n : ℤ} : ∀ c ∈ writeInt n, isNumberChar c = true := by
  intro c hc
  unfold writeInt at hc
  split at hc
  · rcases List.mem_cons.mp hc with rfl | hc
    · decide
    · exact isNumberChar_of_isDigit (toDigits_isDigit c hc)
  · exact isNumberChar_of_isDigit (toDigits_isDigit c hc)

/-- The digits of a number have no leading zero. -/
theorem head_toDigits (n : ℕ) (hn : 0 < n) : ∃ d ds, Nat.toDigits 10 n = d :: ds ∧ d ≠ '0' := by
  induction n using Nat.strongRecOn with
  | ind n ih =>
    rw [Nat.toDigits_eq_if (by decide)]
    split
    · exact ⟨_, [], rfl, by simp; omega⟩
    · obtain ⟨d, ds, hd, hne⟩ := ih (n / 10) (by omega) (by omega)
      exact ⟨d, ds ++ [Nat.digitChar (n % 10)], by rw [hd, List.cons_append], hne⟩

theorem dropWhile_isDigit {ds : List Char} (h : ∀ c ∈ ds, c.isDigit = true) : ds.dropWhile Char.isDigit = [] :=
  List.dropWhile_eq_nil_iff.mpr h

theorem intPart_toDigits (n : ℕ) : intPart (Nat.toDigits 10 n) = some [] := by
  rcases Nat.eq_zero_or_pos n with rfl | hn
  · rfl
  · obtain ⟨d, ds, hd, hne⟩ := head_toDigits n hn
    have hdigits : ∀ c ∈ d :: ds, c.isDigit = true := hd ▸ toDigits_isDigit
    rw [hd, intPart, if_neg hne, if_pos (hdigits d List.mem_cons_self),
      dropWhile_isDigit fun c hc => hdigits c (List.mem_cons_of_mem _ hc)]

theorem stripSign_toDigits (n : ℕ) : stripSign (Nat.toDigits 10 n) = Nat.toDigits 10 n := by
  obtain ⟨d, ds, hd⟩ := List.exists_cons_of_ne_nil (Nat.toDigits_ne_nil (n := n) (b := 10))
  have hdigit : d.isDigit = true := toDigits_isDigit d (by rw [hd]; exact List.mem_cons_self)
  rw [hd, stripSign]
  intro cs heq
  rw [(List.cons.inj heq).1] at hdigit
  exact absurd hdigit (by decide)

theorem stripSign_writeInt (n : ℤ) : stripSign (writeInt n) = Nat.toDigits 10 n.natAbs := by
  unfold writeInt
  split
  · rfl
  · exact stripSign_toDigits _

theorem readInt_writeInt (n : ℤ) : readInt (writeInt n) = n := by
  unfold writeInt
  split
  · rw [readInt, Nat.ofDigitChars_ten_toDigits]
    omega
  · obtain ⟨d, ds, hd⟩ := List.exists_cons_of_ne_nil (Nat.toDigits_ne_nil (n := n.natAbs) (b := 10))
    have hdigit : d.isDigit = true := toDigits_isDigit d (by rw [hd]; exact List.mem_cons_self)
    have hread : readInt (Nat.toDigits 10 n.natAbs) = (Nat.ofDigitChars 10 (Nat.toDigits 10 n.natAbs) 0 : ℤ) := by
      rw [hd, readInt]
      intro cs heq
      rw [(List.cons.inj heq).1] at hdigit
      exact absurd hdigit (by decide)
    rw [hread, Nat.ofDigitChars_ten_toDigits]
    omega

section RoundTrip

variable {F : Type} (ft : FloatText F)

theorem number_writeInt {n : ℤ} (hn : (Nat.toDigits 10 n.natAbs).length ≤ maxDigits) {rest : List Char}
    (hrest : Ends rest) : number ft (writeInt n ++ rest) = some (.int n, rest) := by
  obtain ⟨htake, hdrop⟩ := takeWhile_token (fun c => writeInt_isNumberChar (n := n) c) hrest
  have htoken : isIntToken (writeInt n) = true := by
    rw [isIntToken, stripSign_writeInt, intPart_toDigits]
    rfl
  unfold number
  dsimp only
  rw [htake, hdrop, if_pos htoken, stripSign_writeInt, if_neg (by omega), readInt_writeInt]

theorem number_repr {x : F} (h₁ : x ≠ ft.nan) (h₂ : x ≠ ft.inf) (h₃ : x ≠ ft.negInf) {rest : List Char}
    (hrest : Ends rest) : number ft (ft.repr x ++ rest) = some (.float x, rest) := by
  obtain ⟨htoken, hall⟩ := ft.repr_token x h₁ h₂ h₃
  obtain ⟨htake, hdrop⟩ := takeWhile_token (List.all_eq_true.mp hall) hrest
  have hint : ¬ isIntToken (ft.repr x) = true := by
    intro h
    unfold isIntToken at h
    unfold isFloatToken at htoken
    rw [beq_iff_eq] at h
    rw [h] at htoken
    simp at htoken
  unfold number
  dsimp only
  rw [htake, hdrop, if_neg hint, if_pos htoken, ft.read_repr x h₁ h₂ h₃]

/-! ### Values read back -/

/-- A value whose objects have distinct keys and whose integers can be printed:
every value a Python program can dump. -/
inductive Value.Printable : Value F → Prop
  | null : Printable .null
  | bool (b : Bool) : Printable (.bool b)
  | int (n : ℤ) (h : (Nat.toDigits 10 n.natAbs).length ≤ maxDigits) : Printable (.int n)
  | float (x : F) : Printable (.float x)
  | str (s : List Char) : Printable (.str s)
  | arr (xs : List (Value F)) (h : ∀ x ∈ xs, Printable x) : Printable (.arr xs)
  | obj (kvs : List (List Char × Value F)) (hkeys : (kvs.map Prod.fst).Nodup) (h : ∀ kv ∈ kvs, Printable kv.2) :
      Printable (.obj kvs)

theorem setKey_of_notMem {V : Type} {k : List Char} {v : V} : ∀ {d : List (List Char × V)}, k ∉ d.map Prod.fst →
    setKey k v d = d ++ [(k, v)]
  | [], _ => rfl
  | kv :: kvs, h => by
    rw [List.map_cons, List.mem_cons, not_or] at h
    rw [setKey, if_neg fun heq => h.1 heq.symm, setKey_of_notMem h.2, List.cons_append]

/-- Members with distinct keys are an object as they are. -/
theorem dict_of_nodup {V : Type} {kvs : List (List Char × V)} (h : (kvs.map Prod.fst).Nodup) : dict kvs = kvs := by
  have hfold : ∀ (kvs d : List (List Char × V)), ((d ++ kvs).map Prod.fst).Nodup →
      kvs.foldl (fun d kv => setKey kv.1 kv.2 d) d = d ++ kvs := by
    intro kvs
    induction kvs with
    | nil => intro d _; rw [List.foldl_nil, List.append_nil]
    | cons kv kvs ih =>
      intro d hd
      have hnew : kv.1 ∉ d.map Prod.fst := by
        rw [List.map_append, List.map_cons, List.nodup_append] at hd
        exact fun hmem => hd.2.2 _ hmem _ List.mem_cons_self rfl
      rw [List.foldl_cons, setKey_of_notMem hnew, ih _ (by rwa [List.append_assoc, List.singleton_append]),
        List.append_assoc, List.singleton_append]
  exact hfold kvs [] h

theorem skipSpace_cons {c : Char} (h : isSpace c = false) (cs : List Char) : skipSpace (c :: cs) = c :: cs :=
  List.dropWhile_cons_of_neg (by rw [h]; decide)

theorem skipSpace_gap (st : Style) {c : Char} (h : isSpace c = false) (cs : List Char) :
    skipSpace (st.gap ++ c :: cs) = c :: cs := by
  unfold Style.gap
  split
  · rw [List.singleton_append, skipSpace, List.dropWhile_cons_of_pos (by decide)]
    exact skipSpace_cons h cs
  · exact skipSpace_cons h cs

/-- What a scalar begins with: nothing a string, an array or an object begins
with, and no closing bracket. -/
def Opens (c : Char) : Prop := isSpace c = false ∧ c ≠ ']'

theorem isNumberChar_opens {c : Char} (h : isNumberChar c = true) :
    Opens c ∧ c ≠ '"' ∧ c ≠ '[' ∧ c ≠ '\x7b' := by
  have hne : ∀ d, isNumberChar d = false → c ≠ d := by
    rintro d hd rfl
    rw [h] at hd
    cases hd
  refine ⟨⟨?_, hne _ (by decide)⟩, hne _ (by decide), hne _ (by decide), hne _ (by decide)⟩
  simp [isSpace, hne ' ' (by decide), hne '\t' (by decide), hne '\n' (by decide), hne '\r' (by decide)]

theorem writeInt_cons (n : ℤ) : ∃ c cs, writeInt n = c :: cs ∧ isNumberChar c = true := by
  have hne : writeInt n ≠ [] := by
    unfold writeInt
    split
    · exact List.cons_ne_nil _ _
    · exact Nat.toDigits_ne_nil
  obtain ⟨c, cs, hcs⟩ := List.exists_cons_of_ne_nil hne
  exact ⟨c, cs, hcs, writeInt_isNumberChar c (by rw [hcs]; exact List.mem_cons_self)⟩

theorem repr_cons {x : F} (h₁ : x ≠ ft.nan) (h₂ : x ≠ ft.inf) (h₃ : x ≠ ft.negInf) :
    ∃ c cs, ft.repr x = c :: cs ∧ isNumberChar c = true := by
  obtain ⟨htoken, hall⟩ := ft.repr_token x h₁ h₂ h₃
  have hne : ft.repr x ≠ [] := by
    intro h
    rw [h] at htoken
    cases htoken
  obtain ⟨c, cs, hcs⟩ := List.exists_cons_of_ne_nil hne
  exact ⟨c, cs, hcs, List.all_eq_true.mp hall c (by rw [hcs]; exact List.mem_cons_self)⟩

/-- A scalar is read as one. -/
theorem value_scalar {c : Char} (h : c ≠ '"' ∧ c ≠ '[' ∧ c ≠ '\x7b') (n : ℕ) (cs : List Char) :
    value ft (n + 1) (c :: cs) = scalar ft (c :: cs) := by
  rw [value, if_neg h.1, if_neg h.2.1, if_neg h.2.2]

theorem scalar_number {cs rest : List Char} {v : Value F} (h : number ft cs = some (v, rest)) :
    scalar ft cs = some (v, rest) := by
  rw [scalar, h]
  rfl

/-- A literal is read as one: none of them begins with a number. -/
theorem scalar_literal (lit : List Char) (v : Value F) (h : (lit, v) ∈ literals ft) (rest : List Char) :
    scalar ft (lit ++ rest) = some (v, rest) := by
  simp only [literals, List.mem_cons, List.not_mem_nil, or_false, Prod.mk.injEq] at h
  rcases h with ⟨rfl, rfl⟩ | ⟨rfl, rfl⟩ | ⟨rfl, rfl⟩ | ⟨rfl, rfl⟩ | ⟨rfl, rfl⟩ | ⟨rfl, rfl⟩ <;> rfl

variable [DecidableEq F] (st : Style)

theorem writeFloat_read {x : F} {rest : List Char} (hrest : Ends rest) (n : ℕ) :
    value ft (n + 1) (writeFloat ft x ++ rest) = some (.float x, rest) := by
  unfold writeFloat
  split_ifs with h₁ h₂ h₃
  · rw [h₁]
    exact (value_scalar ft (by decide) n _).trans (scalar_literal ft "NaN".toList _ (by simp [literals]) rest)
  · rw [h₂]
    exact (value_scalar ft (by decide) n _).trans (scalar_literal ft "Infinity".toList _ (by simp [literals]) rest)
  · rw [h₃]
    exact (value_scalar ft (by decide) n _).trans (scalar_literal ft "-Infinity".toList _ (by simp [literals]) rest)
  · obtain ⟨c, cs, hcs, hc⟩ := repr_cons ft h₁ h₂ h₃
    have hnum := number_repr ft h₁ h₂ h₃ hrest
    rw [hcs, List.cons_append] at hnum ⊢
    rw [value_scalar ft (isNumberChar_opens hc).2, scalar_number ft hnum]

theorem writeFloat_cons (x : F) : ∃ c cs, writeFloat ft x = c :: cs ∧ Opens c ∧ c ≠ '[' ∧ c ≠ '\x7b' := by
  unfold writeFloat
  split_ifs with h₁ h₂ h₃
  · exact ⟨'N', _, rfl, ⟨by decide, by decide⟩, by decide, by decide⟩
  · exact ⟨'I', _, rfl, ⟨by decide, by decide⟩, by decide, by decide⟩
  · exact ⟨'-', _, rfl, ⟨by decide, by decide⟩, by decide, by decide⟩
  · obtain ⟨c, cs, hcs, hc⟩ := repr_cons ft h₁ h₂ h₃
    obtain ⟨hopens, -, hplain⟩ := isNumberChar_opens hc
    exact ⟨c, cs, hcs, hopens, hplain⟩

/-- A text begins with something that opens a value. -/
theorem dumps_cons (v : Value F) : ∃ c cs, dumps ft st v = c :: cs ∧ Opens c := by
  rcases v with _ | (_ | _) | n | x | s | (_ | ⟨x, xs⟩) | (_ | ⟨kv, kvs⟩) <;> rw [dumps]
  · exact ⟨'n', _, rfl, by decide, by decide⟩
  · exact ⟨'f', _, rfl, by decide, by decide⟩
  · exact ⟨'t', _, rfl, by decide, by decide⟩
  · obtain ⟨c, cs, hcs, hc⟩ := writeInt_cons n
    exact ⟨c, cs, hcs, (isNumberChar_opens hc).1⟩
  · obtain ⟨c, cs, hcs, hopens, -⟩ := writeFloat_cons ft x
    exact ⟨c, cs, hcs, hopens⟩
  · exact ⟨'"', _, rfl, by decide, by decide⟩
  · exact ⟨'[', _, rfl, by decide, by decide⟩
  · exact ⟨'[', _, rfl, by decide, by decide⟩
  · exact ⟨'\x7b', _, rfl, by decide, by decide⟩
  · exact ⟨'\x7b', _, rfl, by decide, by decide⟩

theorem moreElements_ends (xs : List (Value F)) (rest : List Char) : Ends (moreElements ft st xs ++ rest) := by
  cases xs <;> exact Ends.cons (by decide) _

theorem moreMembers_ends (kvs : List (List Char × Value F)) (rest : List Char) :
    Ends (moreMembers ft st kvs ++ rest) := by
  cases kvs <;> exact Ends.cons (by decide) _

theorem skipSpace_dumps (v : Value F) (rest : List Char) :
    skipSpace (st.gap ++ (dumps ft st v ++ rest)) = dumps ft st v ++ rest := by
  obtain ⟨c, cs, hcs, hc⟩ := dumps_cons ft st v
  rw [hcs, List.cons_append, skipSpace_gap st hc.1]

theorem dumps_length_pos (v : Value F) : 0 < (dumps ft st v).length := by
  obtain ⟨c, cs, hcs, -⟩ := dumps_cons ft st v
  rw [hcs]
  exact Nat.succ_pos _

theorem moreElements_length_pos (xs : List (Value F)) : 0 < (moreElements ft st xs).length := by
  cases xs <;> exact Nat.succ_pos _

theorem moreMembers_length_pos (kvs : List (List Char × Value F)) : 0 < (moreMembers ft st kvs).length := by
  cases kvs <;> exact Nat.succ_pos _

theorem length_moreElements (x : Value F) (xs : List (Value F)) :
    (dumps ft st x).length + (moreElements ft st xs).length < (moreElements ft st (x :: xs)).length := by
  rw [moreElements]
  simp only [List.length_cons, List.length_append]
  omega

theorem length_moreMembers (kv : List Char × Value F) (kvs : List (List Char × Value F)) :
    (dumps ft st kv.2).length + (moreMembers ft st kvs).length < (moreMembers ft st (kv :: kvs)).length := by
  rw [moreMembers]
  simp only [List.length_cons, List.length_append]
  omega

theorem skipSpace_moreElements_nil (rest : List Char) : skipSpace (moreElements ft st [] ++ rest) = ']' :: rest := by
  rw [moreElements, List.singleton_append, skipSpace_cons (by decide)]

theorem skipSpace_moreElements_cons (x : Value F) (xs : List (Value F)) (rest : List Char) :
    skipSpace (moreElements ft st (x :: xs) ++ rest) =
      ',' :: (st.gap ++ (dumps ft st x ++ (moreElements ft st xs ++ rest))) := by
  rw [moreElements]
  simp only [List.cons_append, List.append_assoc]
  exact skipSpace_cons (by decide) _

theorem skipSpace_moreMembers_nil (rest : List Char) : skipSpace (moreMembers ft st [] ++ rest) = '\x7d' :: rest := by
  rw [moreMembers, List.singleton_append, skipSpace_cons (by decide)]

theorem skipSpace_moreMembers_cons (kv : List Char × Value F) (kvs : List (List Char × Value F)) (rest : List Char) :
    skipSpace (moreMembers ft st (kv :: kvs) ++ rest) = ',' :: (st.gap ++ '"' :: (escapeRest st kv.1 ++
      (':' :: (st.gap ++ (dumps ft st kv.2 ++ (moreMembers ft st kvs ++ rest)))))) := by
  rw [moreMembers]
  simp only [List.cons_append, List.append_assoc]
  exact skipSpace_cons (by decide) _

/-- With so much fuel, a value reads back from its text. -/
def ValueBack (n : ℕ) : Prop := ∀ (v : Value F) (rest : List Char), v.Printable → (dumps ft st v).length ≤ n →
  Ends rest → value ft n (dumps ft st v ++ rest) = some (v, rest)

/-- And the elements of an array, from the first on. -/
def ElementsBack (n : ℕ) : Prop := ∀ (x : Value F) (xs : List (Value F)) (rest : List Char),
  (∀ y ∈ x :: xs, y.Printable) → (dumps ft st x).length + (moreElements ft st xs).length ≤ n →
  elements ft n (dumps ft st x ++ (moreElements ft st xs ++ rest)) = some (x :: xs, rest)

/-- And the members of an object, from behind the quote of the first key. -/
def MembersBack (n : ℕ) : Prop := ∀ (kv : List Char × Value F) (kvs : List (List Char × Value F)) (rest : List Char),
  (∀ y ∈ kv :: kvs, y.2.Printable) → (dumps ft st kv.2).length + (moreMembers ft st kvs).length ≤ n →
  members ft n (escapeRest st kv.1 ++ (':' :: (st.gap ++ (dumps ft st kv.2 ++ (moreMembers ft st kvs ++ rest))))) =
    some (kv :: kvs, rest)

variable {ft st}

theorem elementsBack_succ {n : ℕ} (hv : ValueBack ft st n) (he : ElementsBack ft st n) :
    ElementsBack ft st (n + 1) := by
  intro x xs rest hp hlen
  have hpos := moreElements_length_pos ft st xs
  have hx := hv x (moreElements ft st xs ++ rest) (hp x List.mem_cons_self) (by omega) (moreElements_ends ft st xs rest)
  rw [elements, hx, Option.bind_some]
  cases xs with
  | nil =>
    rw [skipSpace_moreElements_nil]
    dsimp only
    rw [if_pos rfl]
  | cons y ys =>
    have hlt := length_moreElements ft st y ys
    have hy := he y ys rest (fun z hz => hp z (List.mem_cons_of_mem _ hz)) (by omega)
    rw [skipSpace_moreElements_cons]
    dsimp only
    rw [if_neg (by decide), if_pos rfl, skipSpace_dumps, hy]
    rfl

theorem membersBack_succ {n : ℕ} (hv : ValueBack ft st n) (hm : MembersBack ft st n) : MembersBack ft st (n + 1) := by
  intro kv kvs rest hp hlen
  have hpos := moreMembers_length_pos ft st kvs
  have hx := hv kv.2 (moreMembers ft st kvs ++ rest) (hp kv List.mem_cons_self) (by omega)
    (moreMembers_ends ft st kvs rest)
  rw [members, string_escapeRest, Option.bind_some]
  dsimp only
  rw [skipSpace_cons (by decide)]
  dsimp only
  rw [if_pos rfl, skipSpace_dumps, hx, Option.bind_some]
  cases kvs with
  | nil =>
    rw [skipSpace_moreMembers_nil]
    dsimp only
    rw [if_pos rfl]
  | cons y ys =>
    have hlt := length_moreMembers ft st y ys
    have hy := hm y ys rest (fun z hz => hp z (List.mem_cons_of_mem _ hz)) (by omega)
    rw [skipSpace_moreMembers_cons]
    dsimp only
    rw [if_neg (by decide), if_pos rfl, skipSpace_gap st (by decide)]
    dsimp only
    rw [if_pos rfl, hy]
    rfl

theorem valueBack_succ {n : ℕ} (he : ElementsBack ft st n) (hm : MembersBack ft st n) : ValueBack ft st (n + 1) := by
  intro v rest hp hlen hrest
  cases hp with
  | null => exact (value_scalar ft (by decide) n _).trans (scalar_literal ft "null".toList _ (by simp [literals]) rest)
  | bool b =>
    cases b with
    | false =>
      exact (value_scalar ft (by decide) n _).trans (scalar_literal ft "false".toList _ (by simp [literals]) rest)
    | true =>
      exact (value_scalar ft (by decide) n _).trans (scalar_literal ft "true".toList _ (by simp [literals]) rest)
  | int k hk =>
    obtain ⟨c, cs, hcs, hc⟩ := writeInt_cons k
    have hnum := number_writeInt ft hk hrest
    rw [dumps]
    rw [hcs, List.cons_append] at hnum ⊢
    rw [value_scalar ft (isNumberChar_opens hc).2, scalar_number ft hnum]
  | float x =>
    rw [dumps]
    exact writeFloat_read ft hrest n
  | str s =>
    rw [dumps, List.cons_append, value, if_pos rfl, string_escapeRest]
    rfl
  | arr xs hxs =>
    rcases xs with _ | ⟨x, xs⟩
    · rfl
    · rw [dumps, List.length_cons, List.length_append] at hlen
      have hx := he x xs rest hxs (by omega)
      obtain ⟨c, cs, hcs, hspace, hbracket⟩ := dumps_cons ft st x
      rw [dumps, List.cons_append, value, if_neg (by decide), if_pos rfl, List.append_assoc]
      rw [hcs, List.cons_append] at hx ⊢
      rw [skipSpace_cons hspace]
      dsimp only
      rw [if_neg hbracket, hx]
      rfl
  | obj kvs hkeys hkvs =>
    rcases kvs with _ | ⟨kv, kvs⟩
    · rfl
    · rw [dumps] at hlen
      simp only [List.length_cons, List.length_append] at hlen
      have hkv := hm kv kvs rest hkvs (by omega)
      rw [dumps, List.cons_append, value, if_neg (by decide), if_neg (by decide), if_pos rfl]
      simp only [List.cons_append, List.append_assoc]
      rw [skipSpace_cons (by decide)]
      dsimp only
      rw [if_neg (by decide), if_pos rfl, hkv, Option.map_some, dict_of_nodup hkeys]

/-- **A value reads back from its text**, whatever stands behind it. -/
theorem value_dumps (n : ℕ) : ValueBack ft st n ∧ ElementsBack ft st n ∧ MembersBack ft st n := by
  induction n with
  | zero =>
    refine ⟨fun v rest _ hlen _ => ?_, fun x xs rest _ hlen => ?_, fun kv kvs rest _ hlen => ?_⟩
    · exact absurd hlen (Nat.not_le_of_lt (dumps_length_pos ft st v))
    · have := dumps_length_pos ft st x
      omega
    · have := dumps_length_pos ft st kv.2
      omega
  | succ n ih =>
    obtain ⟨hv, he, hm⟩ := ih
    exact ⟨valueBack_succ he hm, elementsBack_succ hv he, membersBack_succ hv hm⟩

/-- **Round trip**: what is dumped is loaded again. -/
theorem loads_dumps {v : Value F} (h : v.Printable) : loads ft (dumps ft st v) = some v := by
  obtain ⟨c, cs, hcs, hc⟩ := dumps_cons ft st v
  have hskip : skipSpace (dumps ft st v) = dumps ft st v := by rw [hcs, skipSpace_cons hc.1]
  have hback := (value_dumps ((dumps ft st v).length + 1)).1 v [] h (Nat.le_succ _) (by simp [Ends])
  rw [List.append_nil] at hback
  unfold loads
  dsimp only
  rw [hskip, hback, Option.bind_some]
  rfl

end RoundTrip

end PyJson
