/-
# The string literals of a text

A text need not be a whole document to have string literals in it: from its
beginning on, what stands between two quotes is one, escapes being passed, up to a
quote that no complete literal begins at. A literal stands for the code points that
its characters and escapes spell, an escape each; two halves of a surrogate pair are
joined, and a half on its own stays.

What is put behind a text leaves its literals (`literals_prefix_append`), and so does
taking off an end without quotes (`literals_append_of_notMem`). Where the decoder
reads a string, the literal stands for that string (`literals_of_string`).

Key definitions: `Units`, `Literal`, `literals`.
Key theorems: `literals_prefix_append`, `literals_append_of_notMem`.
-/
import AgentCore.Lib.JsonGrammar

namespace JsonLiterals

open PyJson JsonGrammar

/-! ### One literal -/

/-- The text between two quotes, and what it spells: a character stands for itself,
an escape for a character or half of a pair. -/
inductive Units : List Char → List ℕ → Prop
  | nil : Units [] []
  | plain {c : Char} {b : List Char} {e : List ℕ} (hquote : c ≠ '"') (hslash : c ≠ '\\') (hctrl : 0x20 ≤ c.toNat)
      (h : Units b e) : Units (c :: b) (c.toNat :: e)
  | letter {c x : Char} {b : List Char} {e : List ℕ} (hc : unescape c = some x) (h : Units b e) :
      Units ('\\' :: c :: b) (x.toNat :: e)
  | unit {a b c d : Char} {n : ℕ} {t : List Char} {e : List ℕ} (hn : hex4 a b c d = some n) (h : Units t e) :
      Units ('\\' :: 'u' :: a :: b :: c :: d :: t) (n :: e)

/-- What a string spells from behind its opening quote, and what stands behind it. -/
def readUnits : List Char → Option (List ℕ × List Char)
  | [] => none
  | '"' :: cs => some ([], cs)
  | '\\' :: 'u' :: a :: b :: c :: d :: cs =>
    (hex4 a b c d).bind fun n => (readUnits cs).map fun r => (n :: r.1, r.2)
  | '\\' :: c :: cs => (unescape c).bind fun x => (readUnits cs).map fun r => (x.toNat :: r.1, r.2)
  | c :: cs => if c.toNat < 0x20 then none else (readUnits cs).map fun r => (c.toNat :: r.1, r.2)

theorem readUnits_plain {c : Char} (hquote : c ≠ '"') (hslash : c ≠ '\\') (hctrl : 0x20 ≤ c.toNat) (cs : List Char) :
    readUnits (c :: cs) = (readUnits cs).map fun r => (c.toNat :: r.1, r.2) := by
  rw [readUnits, if_neg (by omega)]
  · exact hquote
  · intro a b c' d cs' hc
    exact absurd hc hslash
  · intro c' cs' hc
    exact absurd hc hslash

theorem readUnits_letter {c x : Char} (hc : unescape c = some x) (cs : List Char) :
    readUnits ('\\' :: c :: cs) = (readUnits cs).map fun r => (x.toNat :: r.1, r.2) := by
  rw [readUnits, hc, Option.bind_some]
  intro a b c' d cs' hu
  exact absurd hu (ne_u_of_unescape hc)

theorem Units.read {b : List Char} {e : List ℕ} (h : Units b e) (rest : List Char) :
    readUnits (b ++ '"' :: rest) = some (e, rest) := by
  induction h with
  | nil => rfl
  | plain hquote hslash hctrl _ ih =>
    rw [List.cons_append, readUnits_plain hquote hslash hctrl, ih]
    rfl
  | letter hc _ ih =>
    rw [List.cons_append, List.cons_append, readUnits_letter hc, ih]
    rfl
  | unit hn _ ih =>
    simp only [List.cons_append, readUnits, hn, Option.bind_some, ih]
    rfl

/-- What is read: a text that spells it, and a quote. -/
theorem units_of_read {cs rest : List Char} {e : List ℕ} (h : readUnits cs = some (e, rest)) :
    ∃ b, Units b e ∧ cs = b ++ '"' :: rest := by
  fun_induction readUnits cs generalizing e with
  | case1 => cases h
  | case2 cs =>
    obtain ⟨rfl, rfl⟩ := Prod.mk.inj (Option.some.inj h)
    exact ⟨[], .nil, rfl⟩
  | case3 a b c d cs ih =>
    obtain ⟨n, hn, h⟩ := Option.bind_eq_some_iff.mp h
    obtain ⟨r, hr, he⟩ := Option.map_eq_some_iff.mp h
    obtain ⟨rfl, rfl⟩ := Prod.mk.inj he
    obtain ⟨t, ht, rfl⟩ := ih hr
    exact ⟨_, .unit hn ht, rfl⟩
  | case4 c cs _ ih =>
    obtain ⟨x, hx, h⟩ := Option.bind_eq_some_iff.mp h
    obtain ⟨r, hr, he⟩ := Option.map_eq_some_iff.mp h
    obtain ⟨rfl, rfl⟩ := Prod.mk.inj he
    obtain ⟨t, ht, rfl⟩ := ih hr
    exact ⟨_, .letter hx ht, rfl⟩
  | case5 c cs => cases h
  | case6 c cs hquote _ hslash hctrl ih =>
    obtain ⟨r, hr, he⟩ := Option.map_eq_some_iff.mp h
    obtain ⟨rfl, rfl⟩ := Prod.mk.inj he
    obtain ⟨t, ht, rfl⟩ := ih hr
    refine ⟨c :: t, .plain (fun h => hquote h) (fun hc => ?_) (by omega) ht, rfl⟩
    -- a backslash is not plain, as the closing quote stands behind it
    exact hslash _ _ hc (List.cons_head_tail (by simp)).symm

/-- The halves of surrogate pairs joined. -/
def joinPairs : List ℕ → List ℕ
  | n :: m :: e =>
    if isHigh n ∧ isLow m then (0x10000 + (n - 0xd800) * 0x400 + (m - 0xdc00)) :: joinPairs e
    else n :: joinPairs (m :: e)
  | e => e

theorem joinPairs_cons {n : ℕ} (hn : isHigh n = false) (e : List ℕ) : joinPairs (n :: e) = n :: joinPairs e := by
  cases e with
  | nil => rfl
  | cons m e => rw [joinPairs, if_neg (by simp [hn])]

theorem joinPairs_pair {n m : ℕ} (hn : isHigh n = true) (hm : isLow m = true) (e : List ℕ) :
    joinPairs (n :: m :: e) = (0x10000 + (n - 0xd800) * 0x400 + (m - 0xdc00)) :: joinPairs e := by
  rw [joinPairs, if_pos ⟨hn, hm⟩]

/-- Joining neither takes nor makes a code point that is below the surrogates. -/
theorem count_joinPairs {x : ℕ} (hx : x < 0xd800) : ∀ e : List ℕ, (joinPairs e).count x = e.count x
  | [] => rfl
  | [n] => rfl
  | n :: m :: e => by
    by_cases hpair : isHigh n ∧ isLow m
    · have hn : n ≠ x := by
        have := (isHigh_iff.mp hpair.1).1
        omega
      have hm : m ≠ x := by
        have := (isLow_iff.mp hpair.2).1
        omega
      rw [joinPairs, if_pos hpair, List.count_cons_of_ne (by omega), count_joinPairs hx e, List.count_cons_of_ne hn,
        List.count_cons_of_ne hm]
    · rw [joinPairs, if_neg hpair, List.count_cons, count_joinPairs hx (m :: e), ← List.count_cons]

theorem hexDigit_lt {c : Char} {n : ℕ} (h : hexDigit c = some n) : n < 16 := by
  unfold hexDigit at h
  by_cases hdigit : c.isDigit = true
  · rw [if_pos hdigit] at h
    have hc : c.toNat ≤ 57 := by
      simp only [Char.isDigit, Bool.and_eq_true, decide_eq_true_eq, UInt32.le_iff_toNat_le] at hdigit
      exact hdigit.2
    have hn : c.toNat - 48 = n := Option.some.inj h
    omega
  rw [if_neg hdigit] at h
  by_cases hlower : 'a' ≤ c ∧ c ≤ 'f'
  · rw [if_pos hlower] at h
    have hc : c.toNat ≤ 102 := hlower.2
    have hn : c.toNat - 97 + 10 = n := Option.some.inj h
    omega
  rw [if_neg hlower] at h
  by_cases hupper : 'A' ≤ c ∧ c ≤ 'F'
  · rw [if_pos hupper] at h
    have hc : c.toNat ≤ 70 := hupper.2
    have hn : c.toNat - 65 + 10 = n := Option.some.inj h
    omega
  · rw [if_neg hupper] at h
    cases h

theorem hex4_lt {a b c d : Char} {n : ℕ} (h : hex4 a b c d = some n) : n < 0x10000 := by
  unfold hex4 at h
  obtain ⟨a', ha, h⟩ := Option.bind_eq_some_iff.mp h
  obtain ⟨b', hb, h⟩ := Option.bind_eq_some_iff.mp h
  obtain ⟨c', hc, h⟩ := Option.bind_eq_some_iff.mp h
  obtain ⟨d', hd, h⟩ := Option.bind_eq_some_iff.mp h
  have hn : ((a' * 16 + b') * 16 + c') * 16 + d' = n := Option.some.inj h
  have ha' := hexDigit_lt ha
  have hb' := hexDigit_lt hb
  have hc' := hexDigit_lt hc
  have hd' := hexDigit_lt hd
  omega

theorem toNat_ofNat {n : ℕ} (h : n.isValidChar) : (Char.ofNat n).toNat = n := by
  rw [Char.ofNat, dif_pos h]
  rfl

theorem isHigh_toNat (c : Char) : isHigh c.toNat = false := by
  rw [← Bool.not_eq_true, isHigh_iff]
  have := toNat_valid c
  omega

/-- A string that the decoder reads is what its literal stands for. -/
theorem units_of_spells {b s : List Char} (h : Spells b s) : ∃ e, Units b e ∧ joinPairs e = s.map Char.toNat := by
  induction h with
  | nil => exact ⟨[], .nil, rfl⟩
  | @plain c b s hquote hslash hctrl _ ih =>
    obtain ⟨e, he, hs⟩ := ih
    exact ⟨_, .plain hquote hslash hctrl he, by rw [joinPairs_cons (isHigh_toNat c), hs, List.map_cons]⟩
  | @letter c x b s hc _ ih =>
    obtain ⟨e, he, hs⟩ := ih
    exact ⟨_, .letter hc he, by rw [joinPairs_cons (isHigh_toNat x), hs, List.map_cons]⟩
  | @unit a b c d n t s hn hhigh hlow _ ih =>
    obtain ⟨e, he, hs⟩ := ih
    have hvalid : n.isValidChar := by
      have hlt := hex4_lt hn
      have hhigh' := mt isHigh_iff.mpr (Bool.not_eq_true _ ▸ hhigh)
      have hlow' := mt isLow_iff.mpr (Bool.not_eq_true _ ▸ hlow)
      unfold Nat.isValidChar
      omega
    exact ⟨_, .unit hn he, by rw [joinPairs_cons hhigh, hs, List.map_cons, toNat_ofNat hvalid]⟩
  | @pair a b c d a' b' c' d' n m t s hn hhigh hm hlow _ ih =>
    obtain ⟨e, he, hs⟩ := ih
    have hvalid : (0x10000 + (n - 0xd800) * 0x400 + (m - 0xdc00)).isValidChar := by
      have hn' := isHigh_iff.mp hhigh
      have hm' := isLow_iff.mp hlow
      unfold Nat.isValidChar
      omega
    exact ⟨_, .unit hn (.unit hm he), by rw [joinPairs_pair hhigh hlow, hs, List.map_cons, toNat_ofNat hvalid]⟩

/-! ### The literals of a text -/

/-- A complete string literal: the text between its quotes, and the code points it
stands for. -/
structure Literal where
  written : List Char
  value : List ℕ
  deriving DecidableEq

/-- The literals of a text, `skip` characters of it being passed already. -/
def cut : ℕ → List Char → List Literal
  | _, [] => []
  | skip + 1, _ :: t => cut skip t
  | 0, c :: t =>
    if c = '"' then
      match readUnits t with
      | some r => ⟨t.take (t.length - r.2.length - 1), joinPairs r.1⟩ :: cut (t.length - r.2.length) t
      | none => []
    else cut 0 t

/-- The complete string literals of a text, in their order. -/
def literals (t : List Char) : List Literal := cut 0 t

/-- What the literals of a text stand for. -/
def values (t : List Char) : List (List ℕ) := (literals t).map Literal.value

theorem cut_skip : ∀ (front t : List Char), cut front.length (front ++ t) = literals t
  | [], _ => rfl
  | _ :: front, t => cut_skip front t

@[simp] theorem literals_nil : literals [] = [] := rfl

theorem literals_plain {c : Char} (hc : c ≠ '"') (t : List Char) : literals (c :: t) = literals t := by
  unfold literals
  rw [cut, if_neg hc]

theorem literals_open {t : List Char} (h : readUnits t = none) : literals ('"' :: t) = [] := by
  unfold literals
  rw [cut, if_pos rfl, h]

theorem literals_closed {b : List Char} {e : List ℕ} (h : Units b e) (rest : List Char) :
    literals ('"' :: (b ++ '"' :: rest)) = ⟨b, joinPairs e⟩ :: literals rest := by
  have hlength : (b ++ '"' :: rest).length - rest.length = (b ++ ['"']).length := by
    simp only [List.length_append, List.length_cons, List.length_nil]
    omega
  have hwritten : (b ++ '"' :: rest).take ((b ++ ['"']).length - 1) = b := by
    rw [List.length_append, List.length_singleton, Nat.add_sub_cancel, List.take_left]
  have hrest : cut (b ++ ['"']).length (b ++ '"' :: rest) = literals rest := by
    have hskip := cut_skip (b ++ ['"']) rest
    rwa [List.append_assoc] at hskip
  unfold literals
  rw [cut, if_pos rfl, h.read]
  dsimp only
  rw [hlength, hwritten, hrest]
  rfl

/-- A string that the decoder reads is a literal, and stands for that string. -/
theorem literals_of_string {t s rest : List Char} (h : string t = some (s, rest)) :
    ∃ b, literals ('"' :: t) = ⟨b, s.map Char.toNat⟩ :: literals rest := by
  obtain ⟨b, hb, rfl⟩ := spells_of_string h
  obtain ⟨e, he, hs⟩ := units_of_spells hb
  exact ⟨b, by rw [literals_closed he, hs]⟩

/-- A text is empty, or begins with a character outside literals, with a literal, or
with a quote that begins none. -/
theorem literals_induct {motive : List Char → Prop} (nil : motive [])
    (plain : ∀ c t, c ≠ '"' → motive t → motive (c :: t))
    (closed : ∀ b e rest, Units b e → motive rest → motive ('"' :: (b ++ '"' :: rest)))
    (unclosed : ∀ t, readUnits t = none → motive ('"' :: t)) : ∀ t, motive t := by
  intro t
  induction hn : t.length using Nat.strong_induction_on generalizing t with
  | _ n ih =>
    cases t with
    | nil => exact nil
    | cons c t =>
      by_cases hc : c = '"'
      · subst hc
        cases hread : readUnits t with
        | none => exact unclosed t hread
        | some r =>
          obtain ⟨b, hb, rfl⟩ := units_of_read hread
          refine closed b r.1 r.2 hb (ih _ ?_ _ rfl)
          rw [← hn]
          simp only [List.length_cons, List.length_append]
          omega
      · exact plain c t hc (ih _ (by rw [← hn]; exact Nat.lt_succ_self _) t rfl)

/-- What is put behind a text leaves its literals. -/
theorem literals_prefix_append (x y : List Char) : literals x <+: literals (x ++ y) := by
  induction x using literals_induct with
  | nil => exact List.nil_prefix
  | plain c t hc ih =>
    rw [List.cons_append, literals_plain hc, literals_plain hc]
    exact ih
  | closed b e rest hb ih =>
    rw [List.cons_append, List.append_assoc, List.cons_append, literals_closed hb, literals_closed hb]
    exact List.cons_prefix_cons.mpr ⟨rfl, ih⟩
  | unclosed t ht =>
    rw [literals_open ht]
    exact List.nil_prefix

/-- An end without quotes holds no literal and closes none. -/
theorem literals_append_of_notMem {y : List Char} (hy : '"' ∉ y) (x : List Char) : literals (x ++ y) = literals x := by
  induction x using literals_induct with
  | nil =>
    rw [List.nil_append, literals_nil]
    induction y with
    | nil => rfl
    | cons c y ih =>
      rw [List.mem_cons, not_or] at hy
      rw [literals_plain (Ne.symm hy.1), ih hy.2]
  | plain c t hc ih => rw [List.cons_append, literals_plain hc, literals_plain hc, ih]
  | closed b e rest hb ih =>
    rw [List.cons_append, List.append_assoc, List.cons_append, literals_closed hb, literals_closed hb, ih]
  | unclosed t ht =>
    have hnone : readUnits (t ++ y) = none := by
      rw [Option.eq_none_iff_forall_ne_some]
      intro r hr
      obtain ⟨b, hb, hsplit⟩ := units_of_read hr
      -- the closing quote stands in `t`, where none was found
      rcases List.append_eq_append_iff.mp hsplit with ⟨a, -, hquote⟩ | ⟨a, ht', hquote⟩
      · exact hy (hquote ▸ List.mem_append_right a List.mem_cons_self)
      · cases a with
        | nil => exact hy (by rw [← List.nil_append y, ← hquote]; exact List.mem_cons_self)
        | cons c a =>
          have hc : '"' = c := (List.cons.inj hquote).1
          subst hc
          rw [ht', hb.read] at ht
          cases ht
    rw [List.cons_append, literals_open hnone, literals_open ht]

/-- Nor does a beginning without quotes. -/
theorem literals_of_notMem_append {x : List Char} (hx : '"' ∉ x) (y : List Char) : literals (x ++ y) = literals y := by
  induction x with
  | nil => rfl
  | cons c x ih =>
    rw [List.mem_cons, not_or] at hx
    rw [List.cons_append, literals_plain (Ne.symm hx.1), ih hx.2]

end JsonLiterals
