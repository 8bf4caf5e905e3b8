/-
# JSON texts and the stack

`json.loads` and `json.dumps` call themselves for every container inside another
one, and raise a `RecursionError` where the stack has no room for one more. The
room differs from call to call; it is a number of nested containers.

`reach` is the deepest container the decoder comes to in a text before it is done
or gives up: the decoder raises exactly where the room is smaller. In what is
dumped it is the depth of the value (`reach_dumps`). The other thing that a dumped
value can hold and the decoder not read is an integer with too many digits
(`decode_dumps`).

Key definitions: `reach`, `decodeIn`, `dumpsIn`.
Key theorems: `reach_dumps`, `decodeIn_dumpsSorted`, `decode_dumps`, `reach_openers`.
-/
import AgentCore.Lib.JsonDecoder
import AgentCore.Lib.JsonSort

namespace PyJson

namespace Decoder

variable {F : Type} (ft : FloatText F)

mutual

/-- How many containers the decoder is inside of at most, in a value that begins
here. -/
def reachValue : ℕ → List Char → ℕ
  | 0, _ => 0
  | _ + 1, [] => 0
  | n + 1, c :: cs =>
    if c = '[' then
      match skipSpace cs with
      | [] => 1
      | d :: rest => if d = ']' then 1 else reachElements n (d :: rest) + 1
    else if c = '\x7b' then
      match skipSpace cs with
      | [] => 1
      | d :: rest => if d = '"' then reachMembers n rest + 1 else 1
    else 0

/-- In the values up to the closing bracket. -/
def reachElements : ℕ → List Char → ℕ
  | 0, _ => 0
  | n + 1, cs =>
    max (reachValue n cs)
      (match value ft n cs with
        | .error _ => 0
        | .ok r =>
          match skipSpace r.2 with
          | [] => 0
          | d :: rest => if d = ',' then reachElements n (skipSpace rest) else 0)

/-- In the members up to the closing brace, from behind the quote of the first
key. -/
def reachMembers : ℕ → List Char → ℕ
  | 0, _ => 0
  | n + 1, cs =>
    match string cs with
    | .error _ => 0
    | .ok k =>
      match skipSpace k.2 with
      | [] => 0
      | d :: rest =>
        if d = ':' then
          max (reachValue n (skipSpace rest))
            (match value ft n (skipSpace rest) with
              | .error _ => 0
              | .ok r =>
                match skipSpace r.2 with
                | [] => 0
                | d :: rest =>
                  if d = ',' then
                    match skipSpace rest with
                    | [] => 0
                    | d :: rest => if d = '"' then reachMembers n rest else 0
                  else 0)
        else 0

end

end Decoder

section Stack

variable {F : Type} (ft : FloatText F)

/-- The deepest container the decoder comes to in a text. -/
def reach (text : List Char) : ℕ := Decoder.reachValue ft (2 * (skipSpace text).length + 1) (skipSpace text)

/-- What `json.loads` raises. -/
inductive LoadsError
  | valueError (fault : Fault)
  | recursionError
  deriving DecidableEq

/-- `json.loads` on a stack with room for so many containers. -/
def decodeIn (room : ℕ) (text : List Char) : Except LoadsError (Value F) :=
  if room < reach ft text then .error .recursionError else (decode ft text).mapError .valueError

/-- `json.dumps` on such a stack; none is what it raises. -/
def dumpsIn [DecidableEq F] (st : Style) (room : ℕ) (v : Value F) : Option (List Char) :=
  if v.writable room then some (dumps ft st v) else none

variable {ft} {room : ℕ} {text : List Char}

theorem decodeIn_eq_ok {v : Value F} : decodeIn ft room text = .ok v ↔ reach ft text ≤ room ∧ decode ft text = .ok v := by
  unfold decodeIn
  split
  · next h => exact ⟨fun heq => (nomatch heq), fun hle => absurd hle.1 (Nat.not_le.mpr h)⟩
  · next h =>
    cases hd : decode ft text with
    | error e => exact ⟨fun heq => (nomatch heq), fun heq => (nomatch heq.2)⟩
    | ok w =>
      refine ⟨fun heq => ⟨Nat.not_lt.mp h, congrArg Except.ok (Except.ok.inj heq)⟩, fun heq => ?_⟩
      exact congrArg Except.ok (Except.ok.inj heq.2)

/-- The stack gives out exactly where the room is smaller than what the decoder
comes to. -/
theorem decodeIn_eq_recursionError : decodeIn ft room text = .error .recursionError ↔ room < reach ft text := by
  unfold decodeIn
  split
  · next h => exact ⟨fun _ => h, fun _ => rfl⟩
  · next h =>
    refine ⟨fun heq => ?_, fun hlt => absurd hlt h⟩
    cases hd : decode ft text with
    | error e =>
      rw [hd] at heq
      cases heq
    | ok w =>
      rw [hd] at heq
      cases heq

/-! ### What is dumped -/

section Dumps

open Decoder

/-- No container begins here. -/
theorem reachValue_scalar {n : ℕ} {cs : List Char} (h : ∀ c ∈ cs.head?, c ≠ '[' ∧ c ≠ '\x7b') :
    reachValue ft n cs = 0 := by
  cases n with
  | zero => rw [reachValue]
  | succ n =>
    cases cs with
    | nil => rw [reachValue]
    | cons c cs =>
      obtain ⟨hbracket, hbrace⟩ := h c rfl
      rw [reachValue, if_neg hbracket, if_neg hbrace]

variable [DecidableEq F] {st : Style}

variable (ft st) in
/-- With so much fuel, the decoder comes as deep in a dumped value as this is. -/
def ReachBack (n : ℕ) : Prop := ∀ (v : Value F) (rest : List Char), v.Printable → (dumps ft st v).length ≤ n →
  Ends rest → reachValue ft n (dumps ft st v ++ rest) = v.depth

variable (ft st) in
def ReachElementsBack (n : ℕ) : Prop := ∀ (x : Value F) (xs : List (Value F)) (rest : List Char),
  (∀ y ∈ x :: xs, y.Printable) → (dumps ft st x).length + (moreElements ft st xs).length ≤ n →
  reachElements ft n (dumps ft st x ++ (moreElements ft st xs ++ rest)) = depthElements (x :: xs)

variable (ft st) in
def ReachMembersBack (n : ℕ) : Prop := ∀ (kv : List Char × Value F) (kvs : List (List Char × Value F))
  (rest : List Char), (∀ y ∈ kv :: kvs, y.2.Printable) →
  (dumps ft st kv.2).length + (moreMembers ft st kvs).length ≤ n →
  reachMembers ft n (escapeRest st kv.1 ++ (':' :: (st.gap ++ (dumps ft st kv.2 ++ (moreMembers ft st kvs ++ rest))))) =
    depthMembers (kv :: kvs)

/-- A dumped value is decoded in front of any rest. -/
theorem value_back {n : ℕ} {v : Value F} {rest : List Char} (h : v.Printable) (hlen : (dumps ft st v).length ≤ n)
    (hrest : Ends rest) : Decoder.value ft n (dumps ft st v ++ rest) = .ok (v, rest) :=
  (follows n).value ((value_dumps n).1 v rest h hlen hrest)

theorem string_back (s rest : List Char) : Decoder.string (escapeRest st s ++ rest) = .ok (s, rest) :=
  string_of_string (string_escapeRest st s rest)

theorem reachElementsBack_succ {n : ℕ} (hv : ReachBack ft st n) (he : ReachElementsBack ft st n) :
    ReachElementsBack ft st (n + 1) := by
  intro x xs rest hp hlen
  have hpos := moreElements_length_pos ft st xs
  have hends := moreElements_ends ft st xs rest
  have hx := hp x List.mem_cons_self
  rw [reachElements, hv x _ hx (by omega) hends, value_back hx (by omega) hends, depthElements]
  dsimp only
  cases xs with
  | nil =>
    rw [skipSpace_moreElements_nil]
    rfl
  | cons y ys =>
    have hlt := length_moreElements ft st y ys
    have hy := he y ys rest (fun z hz => hp z (List.mem_cons_of_mem _ hz)) (by omega)
    rw [skipSpace_moreElements_cons]
    dsimp only
    rw [if_pos rfl, skipSpace_dumps, hy]

theorem reachMembersBack_succ {n : ℕ} (hv : ReachBack ft st n) (hm : ReachMembersBack ft st n) :
    ReachMembersBack ft st (n + 1) := by
  intro kv kvs rest hp hlen
  have hpos := moreMembers_length_pos ft st kvs
  have hends := moreMembers_ends ft st kvs rest
  have hx := hp kv List.mem_cons_self
  rw [reachMembers, string_back]
  dsimp only
  rw [skipSpace_cons (by decide)]
  dsimp only
  rw [if_pos rfl, skipSpace_dumps, hv kv.2 _ hx (by omega) hends, value_back hx (by omega) hends, depthMembers]
  dsimp only
  cases kvs with
  | nil =>
    rw [skipSpace_moreMembers_nil]
    rfl
  | cons y ys =>
    have hlt := length_moreMembers ft st y ys
    have hy := hm y ys rest (fun z hz => hp z (List.mem_cons_of_mem _ hz)) (by omega)
    rw [skipSpace_moreMembers_cons]
    dsimp only
    rw [if_pos rfl, skipSpace_gap st (by decide)]
    dsimp only
    rw [if_pos rfl, hy]

theorem reachBack_succ {n : ℕ} (he : ReachElementsBack ft st n) (hm : ReachMembersBack ft st n) :
    ReachBack ft st (n + 1) := by
  intro v rest hp hlen hrest
  cases hp with
  | null => exact reachValue_scalar (by simp [dumps])
  | bool b => cases b <;> exact reachValue_scalar (by simp [dumps])
  | int k hk =>
    obtain ⟨c, cs, hcs, hc⟩ := writeInt_cons k
    refine reachValue_scalar fun d hd => ?_
    rw [dumps, hcs, List.cons_append, List.head?_cons, Option.mem_some_iff] at hd
    obtain rfl := hd
    exact ⟨(isNumberChar_opens hc).2.2.1, (isNumberChar_opens hc).2.2.2⟩
  | float x =>
    refine reachValue_scalar fun d hd => ?_
    obtain ⟨c, cs, hcs, -, hbracket, hbrace⟩ := writeFloat_cons ft x
    rw [dumps, hcs, List.cons_append, List.head?_cons, Option.mem_some_iff] at hd
    obtain rfl := hd
    exact ⟨hbracket, hbrace⟩
  | str s => exact reachValue_scalar (by simp [dumps])
  | arr xs hxs =>
    rcases xs with _ | ⟨x, xs⟩
    · rfl
    · rw [dumps, List.length_cons, List.length_append] at hlen
      have hx := he x xs rest hxs (by omega)
      obtain ⟨c, cs, hcs, hspace, hbracket⟩ := dumps_cons ft st x
      rw [dumps, List.cons_append, reachValue, if_pos rfl, List.append_assoc]
      rw [hcs, List.cons_append] at hx ⊢
      rw [skipSpace_cons hspace]
      dsimp only
      rw [if_neg hbracket, hx, Value.depth]
  | obj kvs hkeys hkvs =>
    rcases kvs with _ | ⟨kv, kvs⟩
    · rfl
    · rw [dumps] at hlen
      simp only [List.length_cons, List.length_append] at hlen
      have hkv := hm kv kvs rest hkvs (by omega)
      rw [dumps, List.cons_append, reachValue, if_neg (by decide), if_pos rfl]
      simp only [List.cons_append, List.append_assoc]
      rw [skipSpace_cons (by decide)]
      dsimp only
      rw [if_pos rfl, hkv, Value.depth]

variable (ft st) in
theorem reach_back (n : ℕ) : ReachBack ft st n ∧ ReachElementsBack ft st n ∧ ReachMembersBack ft st n := by
  induction n with
  | zero =>
    refine ⟨fun v rest _ hlen _ => ?_, fun x xs rest _ hlen => ?_, fun kv kvs rest _ hlen => ?_⟩
    · exact absurd hlen (Nat.not_le_of_lt (dumps_length_pos ft st v))
    · have := dumps_length_pos ft st x
      omega
    · have := dumps_length_pos ft st kv.2
      omega
  | succ n ih =>
    obtain ⟨hv, he, hm⟩ := ih
    exact ⟨reachBack_succ he hm, reachElementsBack_succ hv he, reachMembersBack_succ hv hm⟩

/-- **In what is dumped** the decoder comes as deep as the value is. -/
theorem reach_dumps {v : Value F} (h : v.Printable) : reach ft (dumps ft st v) = v.depth := by
  obtain ⟨c, cs, hcs, hc⟩ := dumps_cons ft st v
  have hskip : skipSpace (dumps ft st v) = dumps ft st v := by rw [hcs, skipSpace_cons hc.1]
  have hback := (reach_back ft st (2 * (dumps ft st v).length + 1)).1 v [] h (by omega)
    (by simp [Ends])
  rw [List.append_nil] at hback
  rw [reach, hskip, hback]

/-- What one call writes another reads, where the stack has as much room. -/
theorem decodeIn_dumpsSorted {v : Value F} (h : v.Keyed) (ht : dumpsSorted ft st room v = some text) :
    decodeIn ft room text = .ok (sortKeys v) := by
  have hload := decode_of_loads (loads_dumpsSorted h ht)
  unfold dumpsSorted at ht
  split at ht
  · next hw =>
    obtain ⟨hs, hdepth⟩ := Value.writable_iff.mp hw
    obtain rfl := Option.some.inj ht
    refine decodeIn_eq_ok.mpr ⟨?_, hload⟩
    rw [reach_dumps (h.printable hs).sortKeys, h.depth_sortKeys]
    exact hdepth
  · cases ht

/-! ### Integers with too many digits -/

/-- An integer that Python does not print is one that it does not read. -/
theorem overlong_writeInt {k : ℤ} (hk : maxDigits < (Nat.toDigits 10 k.natAbs).length) {rest : List Char}
    (hrest : Ends rest) : overlong (writeInt k ++ rest) = true := by
  obtain ⟨c, cs, hcs, -⟩ := writeInt_cons k
  have hne : writeInt k ≠ [] := by rw [hcs]; exact List.cons_ne_nil c cs
  have hpart : intPart (Nat.toDigits 10 k.natAbs ++ rest) = some rest := intPart_append (intPart_toDigits _) hrest
  have hfrac : fracPart rest = rest := fracPart_append hrest []
  have hexp : expPart rest = rest := by
    cases rest with
    | nil => rfl
    | cons d rest =>
      have hd : ¬ (d = 'e' ∨ d = 'E') := not_or.mpr ⟨Ends.head hrest (by decide), Ends.head hrest (by decide)⟩
      simp only [expPart]
      rw [if_neg hd]
  unfold overlong
  rw [stripSign_append hne, stripSign_writeInt, hpart, Option.any_some]
  refine decide_eq_true ⟨hfrac, hexp, ?_⟩
  rw [List.length_append]
  omega

variable (ft st) in
/-- With so much fuel, the decoder raises at such an integer of a dumped value. -/
def DigitsBack (n : ℕ) : Prop := ∀ (v : Value F) (rest : List Char), v.Keyed → v.short = false →
  (dumps ft st v).length ≤ n → Ends rest → Decoder.value ft n (dumps ft st v ++ rest) = .error .digits

variable (ft st) in
def ElementsDigitsBack (n : ℕ) : Prop := ∀ (x : Value F) (xs : List (Value F)) (rest : List Char),
  (∀ y ∈ x :: xs, y.Keyed) → shortElements (x :: xs) = false →
  (dumps ft st x).length + (moreElements ft st xs).length ≤ n →
  Decoder.elements ft n (dumps ft st x ++ (moreElements ft st xs ++ rest)) = .error .digits

variable (ft st) in
def MembersDigitsBack (n : ℕ) : Prop := ∀ (kv : List Char × Value F) (kvs : List (List Char × Value F))
  (rest : List Char), (∀ y ∈ kv :: kvs, y.2.Keyed) → shortMembers (kv :: kvs) = false →
  (dumps ft st kv.2).length + (moreMembers ft st kvs).length ≤ n →
  Decoder.members ft n
    (escapeRest st kv.1 ++ (':' :: (st.gap ++ (dumps ft st kv.2 ++ (moreMembers ft st kvs ++ rest))))) = .error .digits

theorem elementsDigitsBack_succ {n : ℕ} (hv : DigitsBack ft st n) (he : ElementsDigitsBack ft st n) :
    ElementsDigitsBack ft st (n + 1) := by
  intro x xs rest hkeyed hshort hlen
  have hpos := moreElements_length_pos ft st xs
  have hends := moreElements_ends ft st xs rest
  have hx := hkeyed x List.mem_cons_self
  rw [shortElements, Bool.and_eq_false_iff] at hshort
  rw [Decoder.elements]
  cases hxs : x.short with
  | false =>
    rw [hv x _ hx hxs (by omega) hends]
    rfl
  | true =>
    have hmore : shortElements xs = false := hshort.resolve_left (by rw [hxs]; decide)
    rw [value_back (hx.printable hxs) (by omega) hends]
    cases xs with
    | nil => cases hmore
    | cons y ys =>
      have hlt := length_moreElements ft st y ys
      have hy := he y ys rest (fun z hz => hkeyed z (List.mem_cons_of_mem _ hz)) hmore (by omega)
      simp only [Except.bind]
      rw [skipSpace_moreElements_cons]
      dsimp only
      rw [if_neg (by decide), if_pos rfl, skipSpace_dumps, hy]
      rfl

theorem membersDigitsBack_succ {n : ℕ} (hv : DigitsBack ft st n) (hm : MembersDigitsBack ft st n) :
    MembersDigitsBack ft st (n + 1) := by
  intro kv kvs rest hkeyed hshort hlen
  have hpos := moreMembers_length_pos ft st kvs
  have hends := moreMembers_ends ft st kvs rest
  have hx := hkeyed kv List.mem_cons_self
  rw [shortMembers, Bool.and_eq_false_iff] at hshort
  rw [Decoder.members, string_back]
  simp only [Except.bind]
  rw [skipSpace_cons (by decide)]
  dsimp only
  rw [if_pos rfl, skipSpace_dumps]
  cases hxs : kv.2.short with
  | false => rw [hv kv.2 _ hx hxs (by omega) hends]
  | true =>
    have hmore : shortMembers kvs = false := hshort.resolve_left (by rw [hxs]; decide)
    rw [value_back (hx.printable hxs) (by omega) hends]
    cases kvs with
    | nil => cases hmore
    | cons y ys =>
      have hlt := length_moreMembers ft st y ys
      have hy := hm y ys rest (fun z hz => hkeyed z (List.mem_cons_of_mem _ hz)) hmore (by omega)
      dsimp only
      rw [skipSpace_moreMembers_cons]
      dsimp only
      rw [if_neg (by decide), if_pos rfl, skipSpace_gap st (by decide)]
      dsimp only
      rw [if_pos rfl, hy]
      rfl

theorem digitsBack_succ {n : ℕ} (he : ElementsDigitsBack ft st n) (hm : MembersDigitsBack ft st n) :
    DigitsBack ft st (n + 1) := by
  intro v rest hkeyed hshort hlen hrest
  cases hkeyed with
  | null | bool | float | str => cases hshort
  | int k =>
    have hk : maxDigits < (Nat.toDigits 10 k.natAbs).length := Nat.not_le.mp (of_decide_eq_false hshort)
    obtain ⟨c, cs, hcs, hc⟩ := writeInt_cons k
    have hlong := overlong_writeInt hk hrest
    rw [dumps]
    rw [hcs, List.cons_append] at hlong ⊢
    obtain ⟨-, hquote, hbracket, hbrace⟩ := isNumberChar_opens hc
    rw [Decoder.value, if_neg hquote, if_neg hbracket, if_neg hbrace, Decoder.scalar, if_pos hlong]
  | arr xs hxs =>
    rcases xs with _ | ⟨x, xs⟩
    · cases hshort
    · rw [dumps, List.length_cons, List.length_append] at hlen
      have hx := he x xs rest hxs hshort (by omega)
      obtain ⟨c, cs, hcs, hspace, hbracket⟩ := dumps_cons ft st x
      rw [dumps, List.cons_append, Decoder.value, if_neg (by decide), if_pos rfl, List.append_assoc]
      rw [hcs, List.cons_append] at hx ⊢
      rw [skipSpace_cons hspace]
      dsimp only
      rw [if_neg hbracket, hx]
      rfl
  | obj kvs hkeys hkvs =>
    rcases kvs with _ | ⟨kv, kvs⟩
    · cases hshort
    · rw [dumps] at hlen
      simp only [List.length_cons, List.length_append] at hlen
      have hkv := hm kv kvs rest hkvs hshort (by omega)
      rw [dumps, List.cons_append, Decoder.value, if_neg (by decide), if_neg (by decide), if_pos rfl]
      simp only [List.cons_append, List.append_assoc]
      rw [skipSpace_cons (by decide)]
      dsimp only
      rw [if_neg (by decide), if_pos rfl, hkv]
      rfl

variable (ft st) in
theorem digits_back (n : ℕ) : DigitsBack ft st n ∧ ElementsDigitsBack ft st n ∧ MembersDigitsBack ft st n := by
  induction n with
  | zero =>
    refine ⟨fun v rest _ _ hlen _ => ?_, fun x xs rest _ _ hlen => ?_, fun kv kvs rest _ _ hlen => ?_⟩
    · exact absurd hlen (Nat.not_le_of_lt (dumps_length_pos ft st v))
    · have := dumps_length_pos ft st x
      omega
    · have := dumps_length_pos ft st kv.2
      omega
  | succ n ih =>
    obtain ⟨hv, he, hm⟩ := ih
    exact ⟨digitsBack_succ he hm, elementsDigitsBack_succ hv he, membersDigitsBack_succ hv hm⟩

/-- **What is dumped is never malformed**: it is decoded to the value, or an integer of
it has too many digits. -/
theorem decode_dumps {v : Value F} (h : v.Keyed) :
    decode ft (dumps ft st v) = if v.short then .ok v else .error .digits := by
  cases hshort : v.short with
  | true => exact decode_of_loads (loads_dumps (h.printable hshort))
  | false =>
    obtain ⟨c, cs, hcs, hc⟩ := dumps_cons ft st v
    have hskip : skipSpace (dumps ft st v) = dumps ft st v := by rw [hcs, skipSpace_cons hc.1]
    have hback := (digits_back ft st (2 * (dumps ft st v).length + 1)).1 v [] h hshort (by omega) (by simp [Ends])
    rw [List.append_nil] at hback
    rw [decode, hskip, whole, hback]
    rfl

end Dumps

/-! ### Brackets that only open -/

theorem skipSpace_openers (n : ℕ) : skipSpace (List.replicate n '[') = List.replicate n '[' := by
  cases n with
  | zero => rfl
  | succ n => exact skipSpace_cons (by decide) _

variable (ft) in
/-- Nothing is read of brackets that are not closed. -/
theorem openers_unread (n m : ℕ) : (∃ e, Decoder.value ft m (List.replicate n '[') = .error e) ∧
    ∃ e, Decoder.elements ft m (List.replicate n '[') = .error e := by
  induction m generalizing n with
  | zero => exact ⟨⟨_, by rw [Decoder.value]⟩, ⟨_, by rw [Decoder.elements]⟩⟩
  | succ m ih =>
    obtain ⟨⟨e, hvalue⟩, -⟩ := ih n
    refine ⟨?_, ⟨e, by rw [Decoder.elements, hvalue]; rfl⟩⟩
    cases n with
    | zero => exact ⟨_, by rw [List.replicate_zero, Decoder.value]⟩
    | succ n =>
      cases n with
      | zero => exact ⟨.malformed, rfl⟩
      | succ n =>
        obtain ⟨-, e', helements⟩ := ih (n + 1)
        refine ⟨e', ?_⟩
        rw [List.replicate_succ] at helements
        rw [List.replicate_succ, Decoder.value, if_neg (by decide), if_pos rfl, skipSpace_openers, List.replicate_succ]
        dsimp only
        rw [if_neg (by decide), helements]
        rfl

/-- Every bracket that opens is entered. -/
theorem reachValue_openers : ∀ (n m : ℕ), 2 * n ≤ m → Decoder.reachValue ft m (List.replicate n '[') = n
  | 0, 0, _ => by rw [Decoder.reachValue]
  | 0, m + 1, _ => by rw [List.replicate_zero, Decoder.reachValue]
  | n + 1, 0, h => absurd h (by omega)
  | n + 1, 1, h => absurd h (by omega)
  | n + 1, m + 2, h => by
    rw [List.replicate_succ, Decoder.reachValue, if_pos rfl, skipSpace_openers]
    cases n with
    | zero => rfl
    | succ n =>
      have hin := reachValue_openers (n + 1) m (by omega)
      obtain ⟨⟨e, hvalue⟩, -⟩ := openers_unread ft (n + 1) m
      rw [List.replicate_succ] at hin hvalue ⊢
      dsimp only
      rw [if_neg (by decide), Decoder.reachElements, hin, hvalue]
      rfl

theorem reach_openers (n : ℕ) : reach ft (List.replicate n '[') = n := by
  rw [reach, skipSpace_openers, List.length_replicate]
  exact reachValue_openers n _ (by omega)

end Stack

end PyJson
