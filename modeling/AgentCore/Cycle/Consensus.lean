/-
# Selection by consensus

`select_best_attempt` and `select_by_answer_consensus` of `components/cycle/builders.py`:
the attempts that have an answer are put into buckets of equivalent answers, the bucket
with the greatest sum of scores wins (the larger one among equal sums, and of these the
one that begins first), and its best attempt is selected. Floats are a parameter:
`FloatArith` says how they compare; nothing is said of their sums. Where a sum is no
number, the documentation of `list.sort` leaves the order open, so every bucket may come
to the front (`winners`).

An attempt that has no score counts as minus infinity, which makes the sum of its bucket
minus infinity. So the selected attempt may have no score although another one has
(`consensus_iff`).

Key definitions: `selectBestAttempt`, `selectByAnswerConsensus`, `Consensus`, `Leading`.
Key theorems: `pickBest_finite_iff`, `mem_winners_iff`, `consensus_iff`.
-/
import Mathlib.Data.List.Sort
import AgentCore.Cycle.AuditReports
import AgentCore.Cycle.WriteAudit
import AgentCore.Lib.Buckets

namespace AgentCore
namespace Cycle
namespace Selection

open PyJson Reports

/-! ### Floats -/

inductive FloatKind
  | nan
  | negInf
  | finite
  | posInf
  deriving DecidableEq

/-- The place of a kind in the order. -/
def FloatKind.rank : FloatKind → ℕ
  | .nan => 0
  | .negInf => 1
  | .finite => 2
  | .posInf => 3

/-- The floats, with what is known of their order. -/
structure FloatArith (F : Type) extends FloatOps F where
  kind : F → FloatKind
  lt : F → F → Bool
  /-- `sum` of the scores of a bucket. -/
  sum : List F → F
  negInf : F
  kind_negInf : kind negInf = .negInf
  lt_nan : ∀ a b, kind a = .nan ∨ kind b = .nan → lt a b = false
  lt_rank : ∀ a b, kind a ≠ .nan → (kind a).rank < (kind b).rank → lt a b = true
  lt_asymm : ∀ a b, lt a b = true → lt b a = false
  lt_split : ∀ a b c, kind b ≠ .nan → lt a c = true → lt a b = true ∨ lt b c = true
  /-- The scores of two of the compared pairs are one object. -/
  identical : F × ℕ → F × ℕ → Bool
  identical_eq : ∀ a b, identical a b = true → a.1 = b.1

variable {F : Type} (A : FloatArith F)

/-- `a == b`. -/
def eqFloat (a b : F) : Bool := A.kind a ≠ .nan ∧ A.kind b ≠ .nan ∧ A.lt a b = false ∧ A.lt b a = false

/-- `a < b` of pairs of a score and an index or a size: what is one object is equal, also
if it is no number. -/
def keyLt (a b : F × ℕ) : Bool :=
  if A.identical a b || eqFloat A a.1 b.1 then a.2 < b.2 else A.lt a.1 b.1

/-! ### Scores and answers -/

abbrev Attempt (F : Type) := WriterOutput × Reports.AuditReport F

/-- `metadata.get(key)`: of the items of one key the last is left. -/
def getItem (items : Items F) (key : String) : Option (Value F) :=
  (items.reverse.find? fun kv => match kv.1 with
    | .str s => s = key.toList
    | _ => false).map Prod.snd

inductive Raise
  /-- `ValueError: history is empty; cannot select` -/
  | emptyHistory
  /-- `OverflowError`, of `float` -/
  | overflow (n : ℤ)
  deriving DecidableEq

/-- The options of both functions. -/
structure Options where
  answerKey : String := "extracted_answer"
  scoreKey : String := "score"

variable (o : Options)

/-- `_score_of`, with the default score minus infinity. -/
def scoreOf (audit : Reports.AuditReport F) : Except Raise F :=
  match getItem audit.metadata o.scoreKey with
  | none => .ok A.negInf
  | some raw =>
    match toFloat A.toFloatOps raw with
    | .ok x => .ok x
    | .error (.overflowError n) => .error (.overflow n)
    | .error _ => .ok A.negInf

/-- The answer of a valid attempt. -/
def answerOf (audit : Reports.AuditReport F) : Option (List Char) :=
  match getItem audit.metadata o.answerKey with
  | some (.str ans) => if Trim.trim Text.isSpace ans = [] then none else some ans
  | _ => none

/-! ### The best attempt -/

/-- An attempt of the history with its index and its score. -/
structure Scored (F : Type) where
  idx : ℕ
  attempt : Attempt F
  score : F

/-- `_key`. -/
def Scored.key (e : Scored F) : F × ℕ := (e.score, e.idx)

/-- `max` of what is left, with the best so far. -/
def pickBest : Scored F → List (Scored F) → Scored F
  | best, [] => best
  | best, e :: es => if keyLt A best.key e.key then pickBest e es else pickBest best es

def scoreAll : ℕ → List (Attempt F) → Except Raise (List (Scored F))
  | _, [] => .ok []
  | i, attempt :: rest => do
    let score ← scoreOf A o attempt.2
    let more ← scoreAll (i + 1) rest
    return ⟨i, attempt, score⟩ :: more

def selectBestAttempt (history : List (Attempt F)) : Except Raise (ℕ × Attempt F) := do
  match ← scoreAll A o 0 history with
  | [] => .error .emptyHistory
  | e :: es => return ((pickBest A e es).idx, (pickBest A e es).attempt)

/-! ### Consensus -/

/-- A valid attempt; the source has its index and looks it up in the history. -/
structure Valid (F : Type) where
  idx : ℕ
  attempt : Attempt F
  answer : List Char

def validFrom : ℕ → List (Attempt F) → List (Valid F)
  | _, [] => []
  | i, attempt :: rest =>
    match answerOf o attempt.2 with
    | some ans => ⟨i, attempt, ans⟩ :: validFrom (i + 1) rest
    | none => validFrom (i + 1) rest

def valid (history : List (Attempt F)) : List (Valid F) := validFrom o 0 history

variable (equivalence : List Char → List Char → Bool)

/-- The bucket with this head takes the attempt. -/
def fits (head x : Valid F) : Bool :=
  decide (Trim.trim Text.isSpace head.answer = Trim.trim Text.isSpace x.answer) || equivalence x.answer head.answer

/-- A bucket with `_bucket_key`. -/
abbrev Keyed (F : Type) := List (Valid F) × (F × ℕ)

def scoresOf : List (Valid F) → Except Raise (List F)
  | [] => .ok []
  | a :: rest => do
    let score ← scoreOf A o a.attempt.2
    let more ← scoresOf rest
    return score :: more

def keyAll : List (List (Valid F)) → Except Raise (List (Keyed F))
  | [] => .ok []
  | bucket :: rest => do
    let scores ← scoresOf A o bucket
    let more ← keyAll rest
    return (bucket, (A.sum scores, bucket.length)) :: more

/-- `buckets.sort(key=_bucket_key, reverse=True)`: equal keys stay in order. -/
def sortBuckets (keyed : List (Keyed F)) : List (Keyed F) :=
  keyed.insertionSort fun a b => keyLt A a.2 b.2 = false

/-- The buckets that may come to the front; with a sum that is no number, the order is
not defined. -/
def winners (keyed : List (Keyed F)) : List (Keyed F) :=
  if keyed.any fun b => A.kind b.2.1 = .nan then keyed else (sortBuckets A keyed).take 1

/-- The selected attempt of a bucket, with its index in the history. -/
def selectIn (bucket : List (Valid F)) : Except Raise (ℕ × Attempt F) := do
  let best ← selectBestAttempt A o (bucket.map Valid.attempt)
  return (((bucket[best.1]?).map Valid.idx).getD 0, best.2)

def selectAll : List (Keyed F) → Except Raise (List (ℕ × Attempt F))
  | [] => .ok []
  | b :: rest => do
    let best ← selectIn A o b.1
    let more ← selectAll rest
    return best :: more

/-- The results that the sort leaves open. -/
def selectByAnswerConsensus (history : List (Attempt F)) : Except Raise (List (ℕ × Attempt F)) :=
  if history = [] then .error .emptyHistory
  else if valid o history = [] then do
    let best ← selectBestAttempt A o history
    return [best]
  else do
    let keyed ← keyAll A o (Buckets.buckets (fits equivalence) (valid o history))
    selectAll A o (winners A keyed)

/-! ### What is claimed -/

def hasFiniteScore (attempt : Attempt F) : Prop := ∃ x, scoreOf A o attempt.2 = .ok x ∧ A.kind x = .finite

/-- The answers of the attempts are equivalent. -/
def same (a b : Valid F) : Bool := equivalence a.answer b.answer

/-- **Consensus**: the buckets are the classes of equivalent answers, and an attempt with
a finite score is selected if there is one. -/
structure Consensus (history : List (Attempt F)) : Prop where
  classes : ∀ b, b ∈ Buckets.buckets (fits equivalence) (valid o history) ↔
    ∃ a ∈ valid o history, b = (valid o history).filter (same equivalence a)
  finite : (∃ a ∈ valid o history, hasFiniteScore A o a.attempt) →
    ∃ results, selectByAnswerConsensus A o equivalence history = .ok results ∧ results ≠ [] ∧
      ∀ r ∈ results, hasFiniteScore A o r.2

/-- The score of an attempt, where `float` does not raise. -/
def scoreD (attempt : Attempt F) : F :=
  match scoreOf A o attempt.2 with
  | .ok x => x
  | .error _ => A.negInf

/-- The scores of a class. -/
def classScores (c : List (Valid F)) : List F := c.map fun a => scoreD A o a.attempt

/-- The sum of the scores of a class, and its size. -/
def classKey (c : List (Valid F)) : F × ℕ := (A.sum (classScores A o c), c.length)

/-- The class leads: the ones that begin before it have less, and the ones that begin
after it no more. With a sum that is no number, every class leads. -/
def Leading (classes : List (List (Valid F))) (c : List (Valid F)) : Prop :=
  c ∈ classes ∧
    ((∃ b ∈ classes, A.kind (classKey A o b).1 = .nan) ∨
      ∃ l r, classes = l ++ c :: r ∧ (∀ b ∈ l, keyLt A (classKey A o b) (classKey A o c) = true) ∧
        ∀ b ∈ r, keyLt A (classKey A o c) (classKey A o b) = false)

/-- The best of these scores is finite. -/
def BestFinite : List F → Prop
  | [] => False
  | x :: xs => A.kind x ≠ .nan ∧ (∃ y ∈ x :: xs, A.kind y = .finite) ∧ ∀ y ∈ x :: xs, A.kind y ≠ .posInf

/-- Every valid score is no integer too large for a float, and the best scores of the
leading classes are finite. -/
structure LeadersScored (history : List (Attempt F)) : Prop where
  convertible : ∀ a ∈ valid o history, ∃ x, scoreOf A o a.attempt.2 = .ok x
  best : ∀ c, Leading A o (Buckets.buckets (same equivalence) (valid o history)) c →
    BestFinite A (classScores A o c)

/-! ### Order of keys -/

variable {A}

theorem number_of_lt {a b : F} (h : A.lt a b = true) : A.kind a ≠ .nan ∧ A.kind b ≠ .nan := by
  constructor
  · intro ha
    rw [A.lt_nan a b (.inl ha)] at h
    cases h
  · intro hb
    rw [A.lt_nan a b (.inr hb)] at h
    cases h

theorem eqFloat_iff {a b : F} : eqFloat A a b = true ↔
    A.kind a ≠ .nan ∧ A.kind b ≠ .nan ∧ A.lt a b = false ∧ A.lt b a = false := by
  unfold eqFloat
  rw [decide_eq_true_eq]

theorem lt_self (a : F) : A.lt a a = false := by
  by_contra h
  have h : A.lt a a = true := by simpa using h
  have hback := A.lt_asymm a a h
  rw [h] at hback
  cases hback

/-- Of numbers it does not matter what is one object. -/
theorem keyLt_eq {a b : F × ℕ} (ha : A.kind a.1 ≠ .nan) :
    keyLt A a b = if eqFloat A a.1 b.1 then decide (a.2 < b.2) else A.lt a.1 b.1 := by
  unfold keyLt
  by_cases hid : A.identical a b = true
  · have heq : eqFloat A a.1 b.1 = true := by
      rw [← A.identical_eq a b hid]
      exact eqFloat_iff.mpr ⟨ha, ha, lt_self a.1, lt_self a.1⟩
    rw [hid, heq]
    rfl
  · have hid : A.identical a b = false := by simpa using hid
    rw [hid, Bool.false_or]

/-- A greater key has a score of no lower kind, or both have no number. -/
theorem rank_le_of_keyLt {a b : F × ℕ} (h : keyLt A a b = true) :
    (A.kind a.1 = .nan ∧ A.kind b.1 = .nan) ∨
      (A.kind a.1 ≠ .nan ∧ A.kind b.1 ≠ .nan ∧ (A.kind a.1).rank ≤ (A.kind b.1).rank) := by
  by_cases ha : A.kind a.1 = .nan
  · refine .inl ⟨ha, ?_⟩
    have hne : eqFloat A a.1 b.1 = false := by
      by_contra heq
      exact (eqFloat_iff.mp (by simpa using heq)).1 ha
    unfold keyLt at h
    rw [hne, Bool.or_false, A.lt_nan _ _ (.inl ha)] at h
    have hid : A.identical a b = true := by
      by_contra hid
      rw [if_neg hid] at h
      cases h
    rw [← A.identical_eq a b hid, ha]
  · refine .inr ?_
    have hback : A.kind b.1 ≠ .nan ∧ A.lt b.1 a.1 = false := by
      rw [keyLt_eq ha] at h
      by_cases heq : eqFloat A a.1 b.1 = true
      · obtain ⟨-, hb, -, hba⟩ := eqFloat_iff.mp heq
        exact ⟨hb, hba⟩
      · rw [if_neg heq] at h
        exact ⟨(number_of_lt h).2, A.lt_asymm _ _ h⟩
    refine ⟨ha, hback.1, ?_⟩
    by_contra hlt
    have hba := A.lt_rank b.1 a.1 hback.1 (Nat.lt_of_not_le hlt)
    rw [hback.2] at hba
    cases hba

/-- A key that is not greater has a score of no higher kind, or no number. -/
theorem rank_le_of_not_keyLt {a b : F × ℕ} (ha : A.kind a.1 ≠ .nan) (h : keyLt A a b = false) :
    (A.kind b.1).rank ≤ (A.kind a.1).rank := by
  by_contra hlt
  have hab := A.lt_rank a.1 b.1 ha (Nat.lt_of_not_le hlt)
  have hne : ¬ eqFloat A a.1 b.1 = true := fun heq => by
    rw [(eqFloat_iff.mp heq).2.2.1] at hab
    cases hab
  rw [keyLt_eq ha, if_neg hne, hab] at h
  cases h

/-- The order of keys whose scores are numbers. -/
theorem keyLt_iff {a b : F × ℕ} (ha : A.kind a.1 ≠ .nan) (hb : A.kind b.1 ≠ .nan) : keyLt A a b = true ↔
    A.lt a.1 b.1 = true ∨ (A.lt a.1 b.1 = false ∧ A.lt b.1 a.1 = false ∧ a.2 < b.2) := by
  rw [keyLt_eq ha]
  by_cases heq : eqFloat A a.1 b.1 = true
  · obtain ⟨-, -, hab, hba⟩ := eqFloat_iff.mp heq
    rw [if_pos heq, hab, hba]
    simp
  · rw [if_neg heq]
    constructor
    · exact .inl
    · intro h
      rcases h with hlt | ⟨hab, hba, -⟩
      · exact hlt
      · exact absurd (eqFloat_iff.mpr ⟨ha, hb, hab, hba⟩) heq

theorem keyLt_asymm {a b : F × ℕ} (ha : A.kind a.1 ≠ .nan) (hb : A.kind b.1 ≠ .nan)
    (h : keyLt A a b = true) : keyLt A b a = false := by
  by_contra hback
  have hback := (keyLt_iff hb ha).mp (by simpa using hback)
  rcases (keyLt_iff ha hb).mp h with hab | ⟨hab, hba, hsize⟩
  · have hba := A.lt_asymm _ _ hab
    rcases hback with h' | ⟨-, h', -⟩
    · rw [hba] at h'
      cases h'
    · rw [hab] at h'
      cases h'
  · rcases hback with h' | ⟨-, -, hsize'⟩
    · rw [hba] at h'
      cases h'
    · omega

/-- Between two keys a third one is above the lower or below the higher. -/
theorem keyLt_split {a b c : F × ℕ} (ha : A.kind a.1 ≠ .nan) (hb : A.kind b.1 ≠ .nan) (hc : A.kind c.1 ≠ .nan)
    (h : keyLt A a c = true) : keyLt A a b = true ∨ keyLt A b c = true := by
  rw [keyLt_iff ha hb, keyLt_iff hb hc]
  rcases (keyLt_iff ha hc).mp h with hlt | ⟨hac, hca, hsize⟩
  · rcases A.lt_split _ _ _ hb hlt with hab | hbc
    · exact .inl (.inl hab)
    · exact .inr (.inl hbc)
  · by_cases hab : A.lt a.1 b.1 = true
    · exact .inl (.inl hab)
    · by_cases hbc : A.lt b.1 c.1 = true
      · exact .inr (.inl hbc)
      · have hba : A.lt b.1 a.1 = false := by
          by_contra hba
          rcases A.lt_split _ _ _ hc (by simpa using hba) with h | h
          · exact hbc h
          · rw [hca] at h
            cases h
        have hcb : A.lt c.1 b.1 = false := by
          by_contra hcb
          rcases A.lt_split _ _ _ ha (by simpa using hcb) with h | h
          · rw [hca] at h
            cases h
          · exact hab h
        have hab' : A.lt a.1 b.1 = false := by simpa using hab
        have hbc' : A.lt b.1 c.1 = false := by simpa using hbc
        by_cases hmid : a.2 < b.2
        · exact .inl (.inr ⟨hab', hba, hmid⟩)
        · exact .inr (.inr ⟨hbc', hcb, by omega⟩)

/-! ### The best attempt -/

theorem rank_finite {k : FloatKind} : k.rank = 2 ↔ k = .finite := by cases k <;> decide

theorem rank_posInf {k : FloatKind} : k.rank = 3 ↔ k = .posInf := by cases k <;> decide

theorem rank_nan {k : FloatKind} : k.rank = 0 ↔ k = .nan := by cases k <;> decide

theorem rank_le (k : FloatKind) : k.rank ≤ 3 := by cases k <;> decide

/-- The best of some scores, by the places of their kinds. -/
theorem bestFinite_iff {x : F} {xs : List F} : BestFinite A (x :: xs) ↔
    (A.kind x).rank ≠ 0 ∧ (∃ y ∈ x :: xs, (A.kind y).rank = 2) ∧ ∀ y ∈ x :: xs, (A.kind y).rank ≠ 3 := by
  unfold BestFinite
  simp only [ne_eq, rank_nan, rank_finite, rank_posInf]

/-- **The best attempt** has a finite score exactly where the first score is a number,
some score is finite and none is plus infinity. -/
theorem pickBest_finite_iff : ∀ (e : Scored F) (es : List (Scored F)),
    A.kind (pickBest A e es).score = .finite ↔ BestFinite A ((e :: es).map Scored.score)
  | e, [] => by
    rw [pickBest, List.map_singleton, bestFinite_iff, ← rank_finite]
    simp only [List.mem_singleton, exists_eq_left, forall_eq]
    omega
  | e, x :: xs => by
    rw [pickBest]
    have hkeys : e.key.1 = e.score ∧ x.key.1 = x.score := ⟨rfl, rfl⟩
    by_cases hlt : keyLt A e.key x.key = true
    · have hranks := rank_le_of_keyLt hlt
      rw [hkeys.1, hkeys.2, ne_eq, ne_eq, ← rank_nan, ← rank_nan] at hranks
      have hzero : (A.kind e.score).rank ≠ 0 ↔ (A.kind x.score).rank ≠ 0 := by omega
      have hle : (A.kind e.score).rank ≤ (A.kind x.score).rank := by omega
      have htop := rank_le (A.kind x.score)
      rw [if_pos hlt, pickBest_finite_iff x xs]
      simp only [List.map_cons, bestFinite_iff, List.exists_mem_cons_iff, List.forall_mem_cons]
      constructor
      · intro h
        obtain ⟨hx, hfin, hx3, hrest⟩ := h
        have he3 : (A.kind e.score).rank ≠ 3 := by omega
        exact ⟨hzero.mpr hx, .inr hfin, he3, hx3, hrest⟩
      · intro h
        obtain ⟨he, hfin, he3, hx3, hrest⟩ := h
        refine ⟨hzero.mp he, ?_, hx3, hrest⟩
        rcases hfin with he2 | hfin
        · exact .inl (by omega)
        · exact hfin
    · rw [if_neg hlt, pickBest_finite_iff e xs]
      simp only [List.map_cons, bestFinite_iff, List.exists_mem_cons_iff, List.forall_mem_cons]
      have hlt : keyLt A e.key x.key = false := by simpa using hlt
      have hle : (A.kind e.score).rank ≠ 0 → (A.kind x.score).rank ≤ (A.kind e.score).rank := by
        intro he
        rw [ne_eq, rank_nan] at he
        exact rank_le_of_not_keyLt he hlt
      have htop := rank_le (A.kind e.score)
      constructor
      · rintro ⟨he, hfin, he3, hrest⟩
        refine ⟨he, ?_, he3, ?_, hrest⟩
        · rcases hfin with he2 | hfin
          · exact .inl he2
          · exact .inr (.inr hfin)
        · intro hx3
          have := hle he
          omega
      · rintro ⟨he, hfin, he3, -, hrest⟩
        refine ⟨he, ?_, he3, hrest⟩
        rcases hfin with he2 | hx2 | hfin
        · exact .inl he2
        · have := hle he
          exact .inl (by omega)
        · exact .inr hfin

theorem pickBest_mem : ∀ (e : Scored F) (es : List (Scored F)), pickBest A e es ∈ e :: es
  | e, [] => List.mem_singleton_self e
  | e, x :: xs => by
    rw [pickBest]
    by_cases hlt : keyLt A e.key x.key = true
    · rw [if_pos hlt]
      exact List.mem_cons_of_mem e (pickBest_mem x xs)
    · rw [if_neg hlt]
      rcases List.mem_cons.mp (pickBest_mem e xs) with h | h
      · rw [h]
        exact List.mem_cons_self
      · exact List.mem_cons_of_mem e (List.mem_cons_of_mem x h)

variable {o}

/-- `float` does not raise on the score. -/
def Converts (A : FloatArith F) (o : Options) (attempt : Attempt F) : Prop := ∃ x, scoreOf A o attempt.2 = .ok x

theorem Converts.scoreOf {attempt : Attempt F} (h : Converts A o attempt) :
    Selection.scoreOf A o attempt.2 = .ok (scoreD A o attempt) := by
  obtain ⟨x, hx⟩ := h
  unfold scoreD
  rw [hx]

theorem hasFiniteScore_iff {attempt : Attempt F} (h : Converts A o attempt) :
    hasFiniteScore A o attempt ↔ A.kind (scoreD A o attempt) = .finite := by
  unfold hasFiniteScore
  rw [h.scoreOf]
  constructor
  · rintro ⟨x, hx, hfin⟩
    rwa [Except.ok.inj hx]
  · exact fun hfin => ⟨_, rfl, hfin⟩

theorem scoreAll_ok : ∀ (i : ℕ) {history : List (Attempt F)}, (∀ a ∈ history, Converts A o a) →
    ∃ es, scoreAll A o i history = .ok es ∧ es.map Scored.attempt = history ∧
      ∀ e ∈ es, e.score = scoreD A o e.attempt
  | _, [], _ => ⟨[], rfl, rfl, fun e he => absurd he List.not_mem_nil⟩
  | i, a :: rest, h => by
    obtain ⟨es, hes, hattempts, hscores⟩ := scoreAll_ok (i + 1) fun b hb => h b (List.mem_cons_of_mem a hb)
    refine ⟨⟨i, a, scoreD A o a⟩ :: es, ?_, ?_, ?_⟩
    · rw [scoreAll, (h a List.mem_cons_self).scoreOf, hes]
      rfl
    · rw [List.map_cons, hattempts]
    · exact List.forall_mem_cons.mpr ⟨rfl, hscores⟩

/-- A bucket gives its best attempt. -/
theorem selectIn_ok {bucket : List (Valid F)} (hne : bucket ≠ []) (h : ∀ a ∈ bucket, Converts A o a.attempt) :
    ∃ r, selectIn A o bucket = .ok r ∧ (hasFiniteScore A o r.2 ↔ BestFinite A (classScores A o bucket)) := by
  have hconverts : ∀ a ∈ bucket.map Valid.attempt, Converts A o a := by
    intro a ha
    obtain ⟨v, hv, rfl⟩ := List.mem_map.mp ha
    exact h v hv
  obtain ⟨es, hes, hattempts, hscores⟩ := scoreAll_ok 0 hconverts
  cases es with
  | nil =>
    have hnil : bucket = [] := List.map_eq_nil_iff.mp hattempts.symm
    exact absurd hnil hne
  | cons e es =>
    have hmem := pickBest_mem (A := A) e es
    have hattempt : (pickBest A e es).attempt ∈ bucket.map Valid.attempt := by
      rw [← hattempts]
      exact List.mem_map_of_mem hmem
    have hall : (e :: es).map Scored.score = classScores A o bucket := by
      have hmap : (e :: es).map Scored.score = ((e :: es).map Scored.attempt).map (scoreD A o) := by
        rw [List.map_map]
        exact List.map_congr_left hscores
      rw [hmap, hattempts, List.map_map]
      rfl
    have hbest : selectBestAttempt A o (bucket.map Valid.attempt) =
        .ok ((pickBest A e es).idx, (pickBest A e es).attempt) := by
      unfold selectBestAttempt
      rw [hes]
      rfl
    refine ⟨_, by unfold selectIn; rw [hbest]; rfl, ?_⟩
    rw [hasFiniteScore_iff (hconverts _ hattempt), ← hscores _ hmem, pickBest_finite_iff, hall]

/-! ### The winning bucket -/

theorem scoresOf_ok : ∀ {bucket : List (Valid F)}, (∀ a ∈ bucket, Converts A o a.attempt) →
    scoresOf A o bucket = .ok (classScores A o bucket)
  | [], _ => rfl
  | a :: rest, h => by
    rw [scoresOf, (h a List.mem_cons_self).scoreOf, scoresOf_ok fun b hb => h b (List.mem_cons_of_mem a hb)]
    rfl

theorem keyAll_ok : ∀ {bs : List (List (Valid F))}, (∀ b ∈ bs, ∀ a ∈ b, Converts A o a.attempt) →
    keyAll A o bs = .ok (bs.map fun b => (b, classKey A o b))
  | [], _ => rfl
  | b :: bs, h => by
    rw [keyAll, scoresOf_ok (h b List.mem_cons_self), keyAll_ok fun c hc => h c (List.mem_cons_of_mem b hc)]
    rfl

theorem converts_of_scoresOf : ∀ {bucket : List (Valid F)} {scores : List F}, scoresOf A o bucket = .ok scores →
    ∀ a ∈ bucket, Converts A o a.attempt
  | [], _, _ => fun a ha => absurd ha List.not_mem_nil
  | a :: rest, scores, h => by
    obtain ⟨x, hx, h⟩ := Decoder.bind_eq_ok h
    obtain ⟨more, hmore, -⟩ := Decoder.bind_eq_ok h
    exact List.forall_mem_cons.mpr ⟨⟨x, hx⟩, converts_of_scoresOf hmore⟩

/-- Every score is converted, or nothing is selected. -/
theorem converts_of_keyAll : ∀ {bs : List (List (Valid F))} {keyed : List (Keyed F)}, keyAll A o bs = .ok keyed →
    ∀ b ∈ bs, ∀ a ∈ b, Converts A o a.attempt
  | [], _, _ => fun b hb => absurd hb List.not_mem_nil
  | b :: bs, keyed, h => by
    obtain ⟨scores, hscores, h⟩ := Decoder.bind_eq_ok h
    obtain ⟨more, hmore, -⟩ := Decoder.bind_eq_ok h
    exact List.forall_mem_cons.mpr ⟨converts_of_scoresOf hscores, converts_of_keyAll hmore⟩

/-- The first of the sorted buckets: the ones in front of it have less, and the ones
behind it no more. -/
theorem sortBuckets_head : ∀ {keyed : List (Keyed F)}, keyed ≠ [] → (∀ b ∈ keyed, A.kind b.2.1 ≠ .nan) →
    ∃ l w r rest, keyed = l ++ w :: r ∧ sortBuckets A keyed = w :: rest ∧
      (∀ b ∈ l, keyLt A b.2 w.2 = true) ∧ ∀ b ∈ r, keyLt A w.2 b.2 = false
  | [], hne, _ => absurd rfl hne
  | [a], _, _ => ⟨[], a, [], [], rfl, rfl, by simp, by simp⟩
  | a :: b :: bs, _, hnan => by
    obtain ⟨l, w, r, rest, hsplit, hsort, hl, hr⟩ :=
      sortBuckets_head (List.cons_ne_nil b bs) fun c hc => hnan c (List.mem_cons_of_mem a hc)
    have hcons : sortBuckets A (a :: b :: bs) =
        (sortBuckets A (b :: bs)).orderedInsert (fun x y => keyLt A x.2 y.2 = false) a := rfl
    have hw : w ∈ b :: bs := by
      rw [hsplit]
      exact List.mem_append_right _ List.mem_cons_self
    rw [hcons, hsort, List.orderedInsert_cons]
    by_cases hlt : keyLt A a.2 w.2 = true
    · rw [if_neg (by rw [hlt]; decide)]
      exact ⟨a :: l, w, r, _, by rw [hsplit]; rfl, rfl, List.forall_mem_cons.mpr ⟨hlt, hl⟩, hr⟩
    · have hlt : keyLt A a.2 w.2 = false := by simpa using hlt
      rw [if_pos hlt]
      refine ⟨[], a, b :: bs, _, rfl, rfl, fun c hc => absurd hc List.not_mem_nil, fun c hc => ?_⟩
      -- what is above the new one is above the old first one
      by_contra hac
      have hna := hnan a List.mem_cons_self
      have hnw := hnan w (List.mem_cons_of_mem a hw)
      have hnc := hnan c (List.mem_cons_of_mem a hc)
      rcases keyLt_split hna hnw hnc (by simpa using hac) with h | h
      · rw [hlt] at h
        cases h
      · rw [hsplit] at hc
        rcases List.mem_append.mp hc with hc | hc
        · have hback := keyLt_asymm hnc hnw (hl c hc)
          rw [h] at hback
          cases hback
        · rcases List.mem_cons.mp hc with rfl | hc
          · have hback := keyLt_asymm hnw hnc h
            rw [h] at hback
            cases hback
          · rw [hr c hc] at h
            cases h

/-- **The buckets that may win** are the leading classes. -/
theorem mem_winners_iff {classes : List (List (Valid F))} {c : List (Valid F)} :
    c ∈ (winners A (classes.map fun b => (b, classKey A o b))).map Prod.fst ↔ Leading A o classes c := by
  by_cases hnan : ∃ b ∈ classes, A.kind (classKey A o b).1 = .nan
  · have hany : ((classes.map fun b => (b, classKey A o b)).any fun b => A.kind b.2.1 = .nan) = true := by
      obtain ⟨b, hb, hkind⟩ := hnan
      exact List.any_eq_true.mpr ⟨_, List.mem_map_of_mem hb, by simpa using hkind⟩
    unfold winners
    rw [if_pos hany, List.map_map]
    have hid : (Prod.fst ∘ fun b => (b, classKey A o b)) = @id (List (Valid F)) := rfl
    rw [hid, List.map_id]
    exact ⟨fun hc => ⟨hc, .inl hnan⟩, fun h => h.1⟩
  · have hany : ¬ ((classes.map fun b => (b, classKey A o b)).any fun b => A.kind b.2.1 = .nan) = true := by
      intro hany
      obtain ⟨b, hb, hkind⟩ := List.any_eq_true.mp hany
      obtain ⟨c, hc, rfl⟩ := List.mem_map.mp hb
      exact hnan ⟨c, hc, by simpa using hkind⟩
    unfold winners
    rw [if_neg hany]
    by_cases hne : classes = []
    · rw [hne]
      exact iff_of_false List.not_mem_nil fun h => absurd h.1 List.not_mem_nil
    · have hkinds : ∀ b ∈ classes.map fun b => (b, classKey A o b), A.kind b.2.1 ≠ .nan := by
        intro b hb hkind
        obtain ⟨d, hd, rfl⟩ := List.mem_map.mp hb
        exact hnan ⟨d, hd, hkind⟩
      obtain ⟨l, w, r, rest, hsplit, hsort, hl, hr⟩ := sortBuckets_head (fun h => hne (List.map_eq_nil_iff.mp h)) hkinds
      obtain ⟨l', t, rfl, rfl, ht⟩ := List.map_eq_append_iff.mp hsplit
      obtain ⟨w', r', rfl, rfl, rfl⟩ := List.map_eq_cons_iff.mp ht
      rw [hsort]
      show c ∈ [w'] ↔ _
      rw [List.mem_singleton]
      constructor
      · rintro rfl
        refine ⟨List.mem_append_right _ List.mem_cons_self, .inr ⟨l', r', rfl, fun b hb => ?_, fun b hb => ?_⟩⟩
        · exact hl _ (List.mem_map_of_mem hb)
        · exact hr _ (List.mem_map_of_mem hb)
      · rintro ⟨hc, hlead⟩
        obtain ⟨l₂, r₂, hsplit₂, hl₂, hr₂⟩ := hlead.resolve_left hnan
        -- of two leading classes the later one would have more
        rcases List.append_eq_append_iff.mp hsplit₂ with ⟨m, hm, hrest⟩ | ⟨m, hm, hrest⟩
        · cases m with
          | nil => exact (List.cons.inj hrest).1.symm
          | cons d m =>
            obtain ⟨rfl, hr'⟩ := List.cons.inj hrest
            have hless := hl₂ w' (hm ▸ List.mem_append_right _ List.mem_cons_self)
            have hnot := hr (c, classKey A o c) (List.mem_map_of_mem (hr' ▸ List.mem_append_right _ List.mem_cons_self))
            rw [hless] at hnot
            cases hnot
        · cases m with
          | nil => exact (List.cons.inj hrest).1
          | cons d m =>
            obtain ⟨rfl, hr'⟩ := List.cons.inj hrest
            have hless := hl (c, classKey A o c) (List.mem_map_of_mem (hm ▸ List.mem_append_right _ List.mem_cons_self))
            have hnot := hr₂ w' (hr' ▸ List.mem_append_right _ List.mem_cons_self)
            rw [hless] at hnot
            cases hnot

theorem winners_ne_nil {keyed : List (Keyed F)} (hne : keyed ≠ []) : winners A keyed ≠ [] := by
  unfold winners
  by_cases hany : (keyed.any fun b => A.kind b.2.1 = .nan) = true
  · rwa [if_pos hany]
  · rw [if_neg hany]
    have hlen : (sortBuckets A keyed).length = keyed.length := List.length_insertionSort _ _
    intro hnil
    have hpos := List.length_pos_iff.mpr hne
    have htake := congrArg List.length hnil
    rw [List.length_take, List.length_nil, hlen] at htake
    omega

theorem selectAll_ok : ∀ {ws : List (Keyed F)}, (∀ w ∈ ws, ∃ r, selectIn A o w.1 = .ok r) →
    ∃ rs, selectAll A o ws = .ok rs ∧ (rs = [] → ws = []) ∧ (∀ r ∈ rs, ∃ w ∈ ws, selectIn A o w.1 = .ok r)
  | [], _ => ⟨[], rfl, fun _ => rfl, fun r hr => absurd hr List.not_mem_nil⟩
  | w :: ws, h => by
    obtain ⟨r, hr⟩ := h w List.mem_cons_self
    obtain ⟨rs, hrs, -, hmem⟩ := selectAll_ok fun v hv => h v (List.mem_cons_of_mem w hv)
    refine ⟨r :: rs, by rw [selectAll, hr, hrs]; rfl, nofun, fun x hx => ?_⟩
    rcases List.mem_cons.mp hx with rfl | hx
    · exact ⟨w, List.mem_cons_self, hr⟩
    · obtain ⟨v, hv, hvx⟩ := hmem x hx
      exact ⟨v, List.mem_cons_of_mem w hv, hvx⟩

theorem mem_of_selectAll : ∀ {ws : List (Keyed F)} {rs : List (ℕ × Attempt F)}, selectAll A o ws = .ok rs →
    ∀ w ∈ ws, ∃ r ∈ rs, selectIn A o w.1 = .ok r
  | [], _, _ => fun w hw => absurd hw List.not_mem_nil
  | w :: ws, rs, h => by
    obtain ⟨r, hr, h⟩ := Decoder.bind_eq_ok h
    obtain ⟨more, hmore, h⟩ := Decoder.bind_eq_ok h
    rw [← Except.ok.inj h]
    intro v hv
    rcases List.mem_cons.mp hv with rfl | hv
    · exact ⟨r, List.mem_cons_self, hr⟩
    · obtain ⟨x, hx, hvx⟩ := mem_of_selectAll hmore v hv
      exact ⟨x, List.mem_cons_of_mem r hx, hvx⟩

/-! ### When the claim holds -/

section Claim

variable {equivalence : List Char → List Char → Bool} {history : List (Attempt F)}
  (hE : Equivalence fun a b => equivalence a b = true)

include hE

theorem same_equivalence : Equivalence fun a b : Valid F => same equivalence a b = true :=
  ⟨fun a => hE.refl a.answer, fun h => hE.symm h, fun h h' => hE.trans h h'⟩

theorem fits_of_same (a b : Valid F) (h : same equivalence a b = true) : fits equivalence a b = true := by
  have hback : equivalence b.answer a.answer = true := hE.symm h
  unfold fits
  rw [hback, Bool.or_true]

/-- Where the buckets are the classes, an attempt with a finite score is selected exactly
if the leading classes have one for their best. -/
theorem finite_iff (happart : Buckets.Apart (fits equivalence) (same equivalence) (valid o history))
    (hne : valid o history ≠ []) :
    (∃ results, selectByAnswerConsensus A o equivalence history = .ok results ∧ results ≠ [] ∧
      ∀ r ∈ results, hasFiniteScore A o r.2) ↔ LeadersScored A o equivalence history := by
  have hsame := same_equivalence (F := F) hE
  have hbuckets := Buckets.buckets_of_apart hsame (fits_of_same hE) happart
  have hclasses := Buckets.buckets_eq hsame (valid o history)
  have hhistory : history ≠ [] := by
    rintro rfl
    exact hne rfl
  have hmem : ∀ b ∈ Buckets.buckets (same equivalence) (valid o history), ∀ a ∈ b, a ∈ valid o history := by
    intro b hb a ha
    rw [hclasses] at hb
    obtain ⟨h, -, rfl⟩ := List.mem_map.mp hb
    exact (List.mem_filter.mp ha).1
  have hcover : ∀ a ∈ valid o history, ∃ b ∈ Buckets.buckets (same equivalence) (valid o history), a ∈ b := by
    intro a ha
    obtain ⟨h, hh, hha⟩ := Buckets.exists_first hsame ha
    rw [hclasses]
    exact ⟨_, List.mem_map_of_mem hh, List.mem_filter.mpr ⟨ha, hha⟩⟩
  have hnonempty : ∀ b ∈ Buckets.buckets (same equivalence) (valid o history), b ≠ [] := by
    intro b hb
    rw [hclasses] at hb
    obtain ⟨h, hh, rfl⟩ := List.mem_map.mp hb
    obtain ⟨t, ht⟩ := Buckets.filter_of_first hsame hh
    rw [ht]
    exact List.cons_ne_nil h t
  unfold selectByAnswerConsensus
  rw [if_neg hhistory, if_neg hne, hbuckets]
  generalize hbs : Buckets.buckets (same equivalence) (valid o history) = bs at hmem hcover hnonempty
  constructor
  · rintro ⟨results, hresults, -, hfinite⟩
    obtain ⟨keyed, hkeyed, hselect⟩ := Decoder.bind_eq_ok hresults
    have hconverts := converts_of_keyAll hkeyed
    rw [keyAll_ok hconverts] at hkeyed
    rw [← Except.ok.inj hkeyed] at hselect
    refine ⟨fun a ha => ?_, fun c hc => ?_⟩
    · obtain ⟨b, hb, hab⟩ := hcover a ha
      exact hconverts b hb a hab
    · rw [hbs] at hc
      obtain ⟨w, hw, rfl⟩ := List.mem_map.mp (mem_winners_iff.mpr hc)
      obtain ⟨r, hr, hwr⟩ := mem_of_selectAll hselect w hw
      obtain ⟨r', hr', hiff⟩ := selectIn_ok (hnonempty _ hc.1) (hconverts _ hc.1)
      rw [hwr] at hr'
      rw [← Except.ok.inj hr'] at hiff
      exact hiff.mp (hfinite r hr)
  · intro h
    have hconverts : ∀ b ∈ bs, ∀ a ∈ b, Converts A o a.attempt := fun b hb a ha =>
      h.convertible a (hmem b hb a ha)
    have hleading : ∀ w ∈ winners A (bs.map fun b => (b, classKey A o b)), Leading A o bs w.1 := fun w hw =>
      mem_winners_iff.mp (List.mem_map_of_mem hw)
    have hselect : ∀ w ∈ winners A (bs.map fun b => (b, classKey A o b)),
        ∃ r, selectIn A o w.1 = .ok r ∧ hasFiniteScore A o r.2 := by
      intro w hw
      have hlead := hleading w hw
      obtain ⟨r, hr, hiff⟩ := selectIn_ok (hnonempty _ hlead.1) (hconverts _ hlead.1)
      exact ⟨r, hr, hiff.mpr (h.best w.1 (by rw [hbs]; exact hlead))⟩
    obtain ⟨rs, hrs, hempty, hback⟩ := selectAll_ok fun w hw => (hselect w hw).imp fun r hr => hr.1
    refine ⟨rs, ?_, fun hnil => ?_, fun r hr => ?_⟩
    · rw [keyAll_ok hconverts]
      exact hrs
    · have hwinners := hempty hnil
      refine winners_ne_nil ?_ hwinners
      obtain ⟨a, ha⟩ := List.exists_mem_of_ne_nil _ hne
      obtain ⟨b, hb, -⟩ := hcover a ha
      exact List.ne_nil_of_mem (List.mem_map_of_mem hb)
    · obtain ⟨w, hw, hwr⟩ := hback r hr
      obtain ⟨r', hr', hfin⟩ := hselect w hw
      rw [hwr] at hr'
      rw [Except.ok.inj hr']
      exact hfin

/-- **Consensus holds** exactly where no valid answer is the same, up to white space
around it, as the first answer of a class that begins before its own, and where the
leading classes have finite scores for their best, if any valid attempt has a finite
score. -/
theorem consensus_iff :
    Consensus A o equivalence history ↔
      Buckets.Apart (fits equivalence) (same equivalence) (valid o history) ∧
        ((∃ a ∈ valid o history, hasFiniteScore A o a.attempt) → LeadersScored A o equivalence history) := by
  have hiff : (∀ b, b ∈ Buckets.buckets (fits equivalence) (valid o history) ↔
      ∃ a ∈ valid o history, b = (valid o history).filter (same equivalence a)) ↔
      Buckets.Apart (fits equivalence) (same equivalence) (valid o history) :=
    Buckets.classes_iff (same_equivalence hE) (fits_of_same hE)
  constructor
  · intro h
    have happart := hiff.mp h.classes
    refine ⟨happart, fun hfin => ?_⟩
    obtain ⟨a, ha, ha'⟩ := hfin
    exact (finite_iff hE happart (List.ne_nil_of_mem ha)).mp (h.finite ⟨a, ha, ha'⟩)
  · rintro ⟨happart, hscored⟩
    refine ⟨hiff.mpr happart, fun hfin => ?_⟩
    obtain ⟨a, ha, ha'⟩ := hfin
    exact (finite_iff hE happart (List.ne_nil_of_mem ha)).mpr (hscored ⟨a, ha, ha'⟩)

end Claim

/-! ### Examples -/

/-- Floats of small integers, whose sums are exact. -/
inductive Small
  | nan
  | negInf
  | num (n : ℤ)
  | posInf
  deriving DecidableEq

namespace Small

def kind : Small → FloatKind
  | nan => .nan
  | negInf => .negInf
  | num _ => .finite
  | posInf => .posInf

def lt : Small → Small → Bool
  | num a, num b => a < b
  | a, b => a.kind ≠ .nan ∧ a.kind.rank < b.kind.rank

def add : Small → Small → Small
  | num a, num b => num (a + b)
  | nan, _ | _, nan | negInf, posInf | posInf, negInf => nan
  | negInf, _ | _, negInf => negInf
  | posInf, _ | _, posInf => posInf

end Small

def smalls : FloatArith Small where
  ofInt := Small.num
  ofStr _ := none
  isZero a := a = .num 0
  kind := Small.kind
  lt := Small.lt
  sum scores := scores.foldl Small.add (.num 0)
  negInf := .negInf
  identical _ _ := false
  kind_negInf := rfl
  lt_nan a b h := by
    cases a <;> cases b <;> simp_all [Small.lt, Small.kind, FloatKind.rank]
  lt_rank a b := by
    cases a <;> cases b <;> simp [Small.lt, Small.kind, FloatKind.rank]
  lt_asymm a b := by
    cases a <;> cases b <;> simp [Small.lt, Small.kind, FloatKind.rank]
    omega
  lt_split a b c := by
    cases a <;> cases b <;> cases c <;> simp [Small.lt, Small.kind, FloatKind.rank]
    omega
  identical_eq _ _ h := by cases h

def attemptWith (answer : String) (score : Value Small) : Attempt Small :=
  let metadata := [(.str "extracted_answer".toList, .str answer.toList), (.str "score".toList, score)]
  (⟨"", [], 0⟩, { verdict := .str "iterate".toList, confidence := .num 0, metadata := metadata })

def textEq (a b : List Char) : Bool := decide (a = b)

theorem textEq_equivalence : Equivalence fun a b => textEq a b = true := by
  simp only [textEq, decide_eq_true_eq]
  exact eq_equivalence

def scoredHistory : List (Attempt Small) :=
  [attemptWith "4" (.int 1), attemptWith "2" (.int 3), attemptWith "4" .null]

theorem scoredHistory_scores :
    (Buckets.buckets (same textEq) (valid {} scoredHistory)).map (classScores smalls {}) =
      [[.num 1, .negInf], [.num 3]] := by
  decide +kernel

/-- An attempt without a score is not selected here. -/
theorem scoredHistory_consensus : Consensus smalls {} textEq scoredHistory := by
  have happart : Buckets.Apart (fits textEq) (same textEq) (valid {} scoredHistory) := by
    unfold Buckets.Apart
    decide +kernel
  have hscores : scoresOf smalls {} (valid {} scoredHistory) = .ok [.num 1, .num 3, .negInf] := by
    decide +kernel
  refine (consensus_iff textEq_equivalence).mpr ⟨happart, fun _ => ⟨converts_of_scoresOf hscores, ?_⟩⟩
  intro c hc
  have hmem : classScores smalls {} c ∈ [[Small.num 1, .negInf], [.num 3]] := by
    rw [← scoredHistory_scores]
    exact List.mem_map_of_mem hc.1
  rcases List.mem_pair.mp hmem with h | h
  · rw [h]
    exact ⟨by decide, ⟨_, List.mem_cons_self, rfl⟩, by decide⟩
  · rw [h]
    exact ⟨by decide, ⟨_, List.mem_cons_self, rfl⟩, by decide⟩

def unscoredHistory : List (Attempt Small) :=
  [attemptWith "4" (.int 1), attemptWith "4" .null, attemptWith "2" .null, attemptWith "2" .null,
    attemptWith "2" .null]

/-- Two sums of minus infinity: the larger bucket wins, and none of it has a score. -/
theorem unscored_selected :
    (∃ a ∈ valid {} unscoredHistory, hasFiniteScore smalls {} a.attempt) ∧
      ¬ Consensus smalls {} textEq unscoredHistory := by
  have hfinite : ∃ a ∈ valid {} unscoredHistory, hasFiniteScore smalls {} a.attempt := by
    refine ⟨_, List.mem_cons_self, .num 1, ?_, rfl⟩
    decide +kernel
  refine ⟨hfinite, fun h => ?_⟩
  obtain ⟨results, hresults, hne, hall⟩ := h.finite hfinite
  have hscore : (selectByAnswerConsensus smalls {} textEq unscoredHistory).map
      (List.map fun r => scoreOf smalls {} r.2.2) = .ok [.ok .negInf] := by
    decide +kernel
  rw [hresults] at hscore
  have hmap : results.map (fun r => scoreOf smalls {} r.2.2) = [.ok .negInf] := Except.ok.inj hscore
  obtain ⟨r, hr⟩ := List.exists_mem_of_ne_nil _ hne
  have hmem : scoreOf smalls {} r.2.2 ∈ [Except.ok Small.negInf] := by
    rw [← hmap]
    exact List.mem_map_of_mem hr
  obtain ⟨x, hx, hkind⟩ := hall r hr
  rw [List.mem_singleton.mp hmem] at hx
  rw [← Except.ok.inj hx] at hkind
  cases hkind

end Selection
end Cycle
end AgentCore
