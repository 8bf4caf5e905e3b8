/-
# Thinking tags

The patterns of `output_repair.py` for the tags `<think>`, `<thinking>` and their
closing tags, in any case, and for a closing tag that repeats the one above with
nothing but white space between.

A tag stands between two `<`, so a text falls into segments, and what the patterns
find in it depends on the kinds of its segments only.

Key definitions: `openThink`, `closeThink`, `dupClose`, `HasKinds`, `repeatedCloses`,
`endsInClose`.
Key theorems: `HasKinds.opens`, `HasKinds.closes`, `HasKinds.repeated`,
`HasKinds.ends`.
-/
import AgentCore.Lib.Matches
import AgentCore.Loop.LeakedReasoning

namespace AgentCore.Middleware.OutputRepair

open Blocks Loop.LeakedReasoning Matches

abbrev Chars := List Char

/-! ### The patterns -/

/-- `(think|thinking)>`: the name, and the text behind it. -/
def readName (t : Chars) : Option (Chars × Chars) :=
  match lit (tests "think>") t with
  | some r => some (t.take 5, r)
  | none => (lit (tests "thinking>") t).map fun r => (t.take 8, r)

/-- A character, and what is read behind it. -/
def behind (d : Char) (read : Chars → Option (Chars × Chars)) : Chars → Option (Chars × Chars)
  | [] => none
  | c :: t => if c = d then read t else none

/-- `/(think|thinking)>`. -/
def readClose : Chars → Option (Chars × Chars) := behind '/' readName

/-- The texts that `think` and `thinking` match. -/
def IsName (n : Chars) : Prop :=
  List.Forall₂ (fun p c => p c = true) (tests "think") n ∨ List.Forall₂ (fun p c => p c = true) (tests "thinking") n

/-- The characters that a back reference takes for each other when `re` ignores
case: unlike a literal, it takes the dotless i and the long s for themselves only. -/
def simpleFolds : List (Char × Char) := caseFolds.filter fun f => f.1 ≠ '\u0131' ∧ f.1 ≠ '\u017f'

def sreLower (c : Char) : Char := (simpleFolds.lookup c).getD c

/-- What tags are compared by. -/
def key (n : Chars) : Chars := n.map sreLower

theorem test_close {c : Char} : test '>' c = true ↔ c = '>' := by
  have hnone : ∀ f ∈ caseFolds, f.2 ≠ '>' := by decide +kernel
  unfold test
  simp only [Bool.or_eq_true, decide_eq_true_eq]
  exact ⟨fun h => h.elim id fun h => absurd rfl (hnone _ h), .inl⟩

theorem lit_bind (ps qs : List (Char → Bool)) (t : Chars) : lit (ps ++ qs) t = (lit ps t).bind (lit qs) := by
  induction ps generalizing t with
  | nil => rfl
  | cons p ps ih =>
    cases t with
    | nil => rfl
    | cons c t =>
      rw [List.cons_append, lit, lit]
      by_cases hp : p c = true
      · rw [if_pos hp, if_pos hp, ih]
      · rw [if_neg hp, if_neg hp]
        rfl

theorem lit_close {t r : Chars} : lit [test '>'] t = some r ↔ t = '>' :: r := by
  cases t with
  | nil => simp [lit]
  | cons c t =>
    rw [lit]
    by_cases hc : test '>' c = true
    · rw [if_pos hc, test_close.mp hc]
      simp [lit]
    · rw [if_neg hc]
      refine iff_of_false (by simp) fun h => hc (test_close.mpr (List.cons.inj h).1)

theorem isName_length {n : Chars} (h : IsName n) : n.length = 5 ∨ n.length = 8 :=
  h.imp (fun h => h.length_eq.symm) fun h => h.length_eq.symm

/-- A name up to the bracket that closes the tag. -/
theorem lit_name {ps : List (Char → Bool)} {t r : Chars} : lit (ps ++ [test '>']) t = some r ↔
    ∃ n, t = n ++ '>' :: r ∧ List.Forall₂ (fun p c => p c = true) ps n := by
  rw [lit_bind, Option.bind_eq_some_iff]
  constructor
  · rintro ⟨u, hu, hr⟩
    obtain ⟨n, rfl, hn⟩ := lit_eq_some.mp hu
    exact ⟨n, by rw [lit_close.mp hr], hn⟩
  · rintro ⟨n, rfl, hn⟩
    exact ⟨'>' :: r, lit_eq_some.mpr ⟨n, rfl, hn⟩, lit_close.mpr rfl⟩

theorem tests_close_think : tests "think>" = tests "think" ++ [test '>'] := rfl

theorem tests_close_thinking : tests "thinking>" = tests "thinking" ++ [test '>'] := rfl

theorem test_of_mem {x c : Char} (h : test x c = true) : c = x ∨ (c, x) ∈ caseFolds := by
  unfold test at h
  simpa using h

theorem IsName.letter {n : Chars} (h : IsName n) {c : Char} (hc : c ∈ n) :
    c ∈ "thinking".toList ++ caseFolds.map Prod.fst := by
  by_contra hno
  have hbad : ∀ x ∈ "thinking".toList, test x c = false := by
    intro x hx
    by_contra htest
    rcases test_of_mem (by simpa using htest) with rfl | hmem
    · exact hno (List.mem_append_left _ hx)
    · exact hno (List.mem_append_right _ (List.mem_map.mpr ⟨_, hmem, rfl⟩))
  have hpre : "think".toList <+: "thinking".toList := by decide
  have hnone : ∀ w : Chars, (∀ x ∈ w, x ∈ "thinking".toList) → ∀ p ∈ w.map test, p c = false := by
    intro w hw p hp
    obtain ⟨x, hx, rfl⟩ := List.mem_map.mp hp
    exact hbad x (hw x hx)
  rcases h with h | h
  · exact notMem_of_forall₂ (hnone _ fun x hx => hpre.subset hx) h hc
  · exact notMem_of_forall₂ (hnone _ fun x hx => hx) h hc

/-- A character of a name is no white space and none of those that delimit a tag. -/
theorem IsName.notMem {n : Chars} (h : IsName n) {c : Char} (hc : c = '<' ∨ c = '/' ∨ c = '>' ∨ Text.isSpace c = true) :
    c ∉ n := by
  have hletters : ("thinking".toList ++ caseFolds.map Prod.fst).all
      (fun c => !(c = '<' ∨ c = '/' ∨ c = '>' ∨ Text.isSpace c = true)) = true := by decide +kernel
  intro hmem
  have := List.all_eq_true.mp hletters c (h.letter hmem)
  simp [hc] at this

/-- Two names that end at the first bracket of one text are one. -/
theorem append_close_inj {n n' r r' : Chars} (hn : '>' ∉ n) (hn' : '>' ∉ n') (h : n ++ '>' :: r = n' ++ '>' :: r') :
    n = n' ∧ r = r' := by
  have hidx := congrArg (List.idxOf '>') h
  rw [List.idxOf_append_of_notMem hn, List.idxOf_append_of_notMem hn', List.idxOf_cons_self,
    List.idxOf_cons_self] at hidx
  obtain ⟨hname, hrest⟩ := List.append_inj h hidx
  exact ⟨hname, (List.cons.inj hrest).2⟩

/-- A tag is read up to its bracket, and in one way only. -/
theorem readName_eq_some {t n r : Chars} : readName t = some (n, r) ↔ t = n ++ '>' :: r ∧ IsName n := by
  unfold readName
  rw [tests_close_think, tests_close_thinking]
  cases hshort : lit (tests "think" ++ [test '>']) t with
  | some r' =>
    obtain ⟨n', rfl, hn'⟩ := lit_name.mp hshort
    have hlen : n'.length = 5 := hn'.length_eq.symm
    have htake : (n' ++ '>' :: r').take 5 = n' := List.take_left' hlen
    simp only [htake]
    constructor
    · rintro ⟨⟩
      exact ⟨rfl, .inl hn'⟩
    · rintro ⟨heq, hn⟩
      have hclean : '>' ∉ n' := IsName.notMem (.inl hn') (.inr (.inr (.inl rfl)))
      have hclean' : '>' ∉ n := hn.notMem (.inr (.inr (.inl rfl)))
      obtain ⟨rfl, rfl⟩ := append_close_inj hclean hclean' heq
      rfl
  | none =>
    simp only [Option.map_eq_some_iff]
    constructor
    · rintro ⟨r', hr', heq⟩
      obtain ⟨n', rfl, hn'⟩ := lit_name.mp hr'
      have hlen : n'.length = 8 := hn'.length_eq.symm
      have htake : (n' ++ '>' :: r').take 8 = n' := List.take_left' hlen
      rw [htake] at heq
      obtain ⟨rfl, rfl⟩ := Prod.mk.inj heq
      exact ⟨rfl, .inr hn'⟩
    · rintro ⟨rfl, hn | hn⟩
      · rw [lit_name.mpr ⟨n, rfl, hn⟩] at hshort
        cases hshort
      · have hlen : n.length = 8 := hn.length_eq.symm
        have htake : (n ++ '>' :: r).take 8 = n := List.take_left' hlen
        exact ⟨r, lit_name.mpr ⟨n, rfl, hn⟩, by rw [htake]⟩

theorem behind_of_ne {c d : Char} (h : c ≠ d) (read : Chars → Option (Chars × Chars)) (t : Chars) :
    behind d read (c :: t) = none := if_neg h

theorem behind_self (d : Char) (read : Chars → Option (Chars × Chars)) (t : Chars) : behind d read (d :: t) = read t :=
  if_pos rfl

theorem behind_eq_some {d : Char} {read : Chars → Option (Chars × Chars)} {t : Chars} {found : Chars × Chars} :
    behind d read t = some found ↔ ∃ u, t = d :: u ∧ read u = some found := by
  cases t with
  | nil => simp [behind]
  | cons c t =>
    by_cases hc : c = d
    · rw [hc, behind_self]
      simp
    · rw [behind_of_ne hc]
      simp [hc]

theorem readClose_eq_some {t n r : Chars} : readClose t = some (n, r) ↔ t = '/' :: (n ++ '>' :: r) ∧ IsName n := by
  unfold readClose
  rw [behind_eq_some]
  simp only [readName_eq_some]
  constructor
  · rintro ⟨u, rfl, rfl, hn⟩
    exact ⟨rfl, hn⟩
  · rintro ⟨rfl, hn⟩
    exact ⟨_, rfl, rfl, hn⟩

/-- `_OPEN_THINK_RE`. -/
def openThink : Matcher Char Chars where
  at? := behind '<' readName
  shortens := by
    intro t n r h
    obtain ⟨u, rfl, hu⟩ := behind_eq_some.mp h
    obtain ⟨rfl, -⟩ := readName_eq_some.mp hu
    exact ⟨'<' :: (n ++ ['>']), by simp, by simp⟩

/-- `_CLOSE_THINK_RE`. -/
def closeThink : Matcher Char Chars where
  at? := behind '<' readClose
  shortens := by
    intro t n r h
    obtain ⟨u, rfl, hu⟩ := behind_eq_some.mp h
    obtain ⟨rfl, -⟩ := readClose_eq_some.mp hu
    exact ⟨'<' :: '/' :: (n ++ ['>']), by simp, by simp⟩

/-- `</\1>`, the group being `n`. -/
def backReference (n : Chars) : List (Char → Bool) :=
  (fun d => decide (d = '<')) :: (fun d => decide (d = '/')) ::
    (n.map (fun c d => decide (sreLower d = sreLower c)) ++ [fun d => decide (d = '>')])

/-- `_DUP_CLOSE_RE`. -/
def dupClose : Matcher Char Chars where
  at? t := (closeThink.at? t).bind fun found =>
    (lit (backReference found.1) (found.2.dropWhile Text.isSpace)).map fun r => (found.1, r)
  shortens := by
    intro t n r h
    obtain ⟨⟨m, u⟩, hclose, hback⟩ := Option.bind_eq_some_iff.mp h
    obtain ⟨r', hr, heq⟩ := Option.map_eq_some_iff.mp hback
    obtain ⟨rfl, rfl⟩ := Prod.mk.inj heq
    obtain ⟨front, hne, rfl⟩ := closeThink.shortens hclose
    obtain ⟨back, hdrop, -⟩ := lit_eq_some.mp hr
    refine ⟨front ++ (u.takeWhile Text.isSpace ++ back), by simp [hne], ?_⟩
    rw [List.append_assoc, List.append_assoc, ← hdrop, List.takeWhile_append_dropWhile]

/-! ### Names up to case -/

theorem sreLower_eq {d x : Char} (h : sreLower d = x) : d = x ∨ (d, x) ∈ simpleFolds := by
  unfold sreLower at h
  cases hl : simpleFolds.lookup d with
  | none =>
    rw [hl] at h
    exact .inl h
  | some y =>
    rw [hl] at h
    obtain rfl : y = x := h
    obtain ⟨l₁, l₂, heq, -⟩ := List.lookup_eq_some_iff.mp hl
    exact .inr (heq ▸ by simp)

/-- A character that is compared like one that a letter of the pattern matches is
matched too. -/
theorem test_sreLower {x c d : Char} (hx : x ∈ "thinking".toList) (hc : test x c = true) (h : sreLower d = sreLower c) :
    test x d = true := by
  have hpairs : "thinking".toList.all (fun x => (x :: caseFolds.map Prod.fst).all fun c =>
      !test x c || (sreLower c :: simpleFolds.map Prod.fst).all fun d =>
        !decide (sreLower d = sreLower c) || test x d) = true := by decide +kernel
  have hc' : c ∈ x :: caseFolds.map Prod.fst := by
    rcases test_of_mem hc with rfl | hmem
    · exact List.mem_cons_self
    · exact List.mem_cons_of_mem _ (List.mem_map.mpr ⟨_, hmem, rfl⟩)
  have hd' : d ∈ sreLower c :: simpleFolds.map Prod.fst := by
    rcases sreLower_eq h with heq | hmem
    · rw [heq]
      exact List.mem_cons_self
    · exact List.mem_cons_of_mem _ (List.mem_map.mpr ⟨_, hmem, rfl⟩)
  have hall := List.all_eq_true.mp (List.all_eq_true.mp hpairs x hx) c hc'
  rw [hc, Bool.not_true, Bool.false_or] at hall
  have := List.all_eq_true.mp hall d hd'
  simpa [h] using this

theorem forall₂_of_key {w : List Char} (hw : ∀ x ∈ w, x ∈ "thinking".toList) {n m : Chars}
    (hn : List.Forall₂ (fun p c => p c = true) (w.map test) n) (h : key m = key n) :
    List.Forall₂ (fun p c => p c = true) (w.map test) m := by
  induction w generalizing n m with
  | nil =>
    cases hn
    have hm : m = [] := List.map_eq_nil_iff.mp h
    rw [hm]
    exact .nil
  | cons x w ih =>
    cases hn with
    | @cons _ c _ n hc hn =>
      cases m with
      | nil => cases h
      | cons d m =>
        obtain ⟨hd, hm⟩ := List.cons.inj h
        exact .cons (test_sreLower (hw x (by simp)) hc hd) (ih (fun y hy => hw y (by simp [hy])) hn hm)

/-- What a back reference to a name takes for it is a name. -/
theorem IsName.of_key {n m : Chars} (hn : IsName n) (h : key m = key n) : IsName m := by
  have hpre : "think".toList <+: "thinking".toList := by decide
  exact hn.imp (fun hn => forall₂_of_key (fun _ hx => hpre.subset hx) hn h)
    fun hn => forall₂_of_key (fun _ hx => hx) hn h

/-! ### Segments and what they are -/

/-- What may stand behind a part of a text without changing the tags in it. -/
def Stops (b : Chars) : Prop := ∀ c ∈ b.head?, c = '<' ∨ Text.isSpace c = true

theorem stops_body (ss : List Chars) : Stops (body '<' ss) := by
  intro c hc
  cases ss with
  | nil => cases hc
  | cons s ss =>
    obtain rfl : '<' = c := by simpa [body_cons] using hc
    exact .inl rfl

theorem stops_of_isSpace {w : Chars} (hw : ∀ c ∈ w, Text.isSpace c = true) : Stops w :=
  fun c hc => .inr (hw c (List.mem_of_mem_head? hc))

/-- What may stand behind a part of a text is none of what a name is made of, and not
the bracket at its end. -/
theorem readName_append {b : Chars} (hb : Stops b) (s : Chars) :
    readName (s ++ b) = (readName s).map fun found => (found.1, found.2 ++ b) := by
  cases hs : readName s with
  | some found =>
    obtain ⟨n, r⟩ := found
    obtain ⟨rfl, hn⟩ := readName_eq_some.mp hs
    exact readName_eq_some.mpr ⟨by simp, hn⟩
  | none =>
    by_contra hne
    obtain ⟨⟨n, r⟩, hread⟩ := Option.ne_none_iff_exists'.mp hne
    obtain ⟨heq, hn⟩ := readName_eq_some.mp hread
    have hnot : ∀ r', s ≠ n ++ '>' :: r' := fun r' h => by
      rw [readName_eq_some.mpr ⟨h, hn⟩] at hs
      cases hs
    have hclose : ∀ u : Chars, b ≠ '>' :: u := by
      rintro u rfl
      have := hb '>' rfl
      revert this
      decide +kernel
    rcases List.append_eq_append_iff.mp heq with ⟨c, hc, hcb⟩ | ⟨c, hc, hcr⟩
    · cases c with
      | nil => exact hclose _ hcb
      | cons x c =>
        have hx : x ∈ n := by simp [hc]
        have := hb x (by simp [hcb])
        exact hn.notMem (this.imp id fun h => .inr (.inr h)) hx
    · cases c with
      | nil => exact hclose _ (by simpa using hcr.symm)
      | cons x c =>
        obtain ⟨rfl, -⟩ := List.cons.inj hcr
        exact hnot c hc

theorem readClose_append {b : Chars} (hb : Stops b) (s : Chars) :
    readClose (s ++ b) = (readClose s).map fun found => (found.1, found.2 ++ b) := by
  unfold readClose
  cases s with
  | nil =>
    cases b with
    | nil => rfl
    | cons x b =>
      have hx : x ≠ '/' := by
        rintro rfl
        have := hb '/' rfl
        revert this
        decide +kernel
      exact behind_of_ne hx readName b
  | cons x s =>
    by_cases hx : x = '/'
    · rw [hx, List.cons_append, behind_self, behind_self]
      exact readName_append hb s
    · rw [List.cons_append, behind_of_ne hx, behind_of_ne hx]
      rfl

/-- What a segment is: the name of the tag it begins with, and for a closing tag whether
there is only white space behind it. -/
inductive Kind
  | opening (n : Chars)
  | closing (n : Chars) (blank : Bool)
  | other

def kind (s : Chars) : Kind :=
  match readName s with
  | some (n, _) => .opening n
  | none =>
    match readClose s with
    | some (n, r) => .closing n (r.all Text.isSpace)
    | none => .other

/-- No name begins with a slash. -/
theorem readName_slash (t : Chars) : readName ('/' :: t) = none := by
  by_contra hne
  obtain ⟨⟨n, r⟩, hread⟩ := Option.ne_none_iff_exists'.mp hne
  obtain ⟨heq, hname⟩ := readName_eq_some.mp hread
  have hslash : '/' ∉ n := hname.notMem (.inr (.inl rfl))
  cases n with
  | nil => cases isName_length hname with | inl h => cases h | inr h => cases h
  | cons x n =>
    obtain ⟨rfl, -⟩ := List.cons.inj heq
    exact hslash List.mem_cons_self

theorem readName_of_readClose {s : Chars} (h : readClose s ≠ none) : readName s = none := by
  obtain ⟨⟨n, r⟩, hread⟩ := Option.ne_none_iff_exists'.mp h
  obtain ⟨rfl, -⟩ := readClose_eq_some.mp hread
  exact readName_slash _

theorem kind_closing {s n r : Chars} (h : readClose s = some (n, r)) : kind s = .closing n (r.all Text.isSpace) := by
  have hnone : readName s = none := readName_of_readClose (by simp [h])
  simp [kind, hnone, h]

theorem kind_append_space {w : Chars} (hw : ∀ c ∈ w, Text.isSpace c = true) (s : Chars) : kind (s ++ w) = kind s := by
  have hall : w.all Text.isSpace = true := List.all_eq_true.mpr hw
  unfold kind
  rw [readName_append (stops_of_isSpace hw), readClose_append (stops_of_isSpace hw)]
  cases readName s with
  | some found => rfl
  | none =>
    cases readClose s with
    | some found => simp [hall]
    | none => rfl

/-- The tags of a text, in order. -/
def HasKinds (t : Chars) (ks : List Kind) : Prop :=
  ∃ a ss, '<' ∉ a ∧ (∀ s ∈ ss, '<' ∉ s) ∧ t = a ++ body '<' ss ∧ ks = ss.map kind

theorem exists_kinds (t : Chars) : ∃ ks, HasKinds t ks := by
  obtain ⟨a, ss, ha, hss, ht⟩ := exists_segments '<' t
  exact ⟨_, a, ss, ha, hss, ht, rfl⟩

theorem headed_open : Headed '<' openThink := fun _ t hc => behind_of_ne hc readName t

theorem headed_close : Headed '<' closeThink := fun _ t hc => behind_of_ne hc readClose t

theorem closeThink_cons (t : Chars) : closeThink.at? ('<' :: t) = readClose t := behind_self '<' readClose t

theorem headed_dup : Headed '<' dupClose := by
  intro c t hc
  have hnone : closeThink.at? (c :: t) = none := headed_close c t hc
  change (closeThink.at? (c :: t)).bind _ = none
  rw [hnone]
  rfl

theorem local_open : Local '<' openThink readName := by
  intro s ss _
  change behind '<' readName ('<' :: (s ++ body '<' ss)) = _
  rw [behind_self, readName_append (stops_body ss)]

theorem local_close : Local '<' closeThink readClose := by
  intro s ss _
  change behind '<' readClose ('<' :: (s ++ body '<' ss)) = _
  rw [behind_self, readClose_append (stops_body ss)]

theorem readName_suffix {s n r : Chars} (h : readName s = some (n, r)) : r <:+ s := by
  obtain ⟨rfl, -⟩ := readName_eq_some.mp h
  exact ⟨n ++ ['>'], by simp⟩

theorem readClose_suffix {s n r : Chars} (h : readClose s = some (n, r)) : r <:+ s := by
  obtain ⟨rfl, -⟩ := readClose_eq_some.mp h
  exact ⟨'/' :: (n ++ ['>']), by simp⟩

/-! ### Tags of a text by its segments -/

def Kind.name? : Kind → Option Chars
  | .opening n => some n
  | _ => none

def Kind.closeName? : Kind → Option Chars
  | .closing n _ => some n
  | _ => none

theorem name?_kind (s : Chars) : (kind s).name? = (readName s).map Prod.fst := by
  unfold kind
  cases readName s with
  | some found => rfl
  | none =>
    cases readClose s with
    | some found => rfl
    | none => rfl

theorem closeName?_kind (s : Chars) : (kind s).closeName? = (readClose s).map Prod.fst := by
  cases hc : readClose s with
  | some found => rw [kind_closing hc]; rfl
  | none =>
    unfold kind
    rw [hc]
    cases readName s with
    | some found => rfl
    | none => rfl

theorem HasKinds.opens {t : Chars} {ks : List Kind} (h : HasKinds t ks) :
    openThink.findAll t = ks.filterMap Kind.name? := by
  obtain ⟨a, ss, ha, hss, rfl, rfl⟩ := h
  rw [findAll_clean headed_open ha, findAll_body headed_open local_open (fun _ _ _ h => readName_suffix h) hss,
    List.filterMap_map]
  exact List.filterMap_congr fun s _ => (name?_kind s).symm

theorem HasKinds.closes {t : Chars} {ks : List Kind} (h : HasKinds t ks) :
    closeThink.findAll t = ks.filterMap Kind.closeName? := by
  obtain ⟨a, ss, ha, hss, rfl, rfl⟩ := h
  rw [findAll_clean headed_close ha, findAll_body headed_close local_close (fun _ _ _ h => readClose_suffix h) hss,
    List.filterMap_map]
  exact List.filterMap_congr fun s _ => (closeName?_kind s).symm

/-- The closing tag a segment ends in, if there is nothing but white space behind it. -/
def Kind.endKey : Kind → Option Chars
  | .closing n true => some (key n)
  | _ => none

/-- The segment begins with the closing tag that is given. -/
def Kind.repeats (prev : Option Chars) : Kind → Bool
  | .closing n _ => prev = some (key n)
  | _ => false

theorem backReference_iff {n m : Chars} :
    List.Forall₂ (fun p c => p c = true) (n.map fun c d => decide (sreLower d = sreLower c)) m ↔ key m = key n := by
  induction n generalizing m with
  | nil =>
    cases m with
    | nil => simp [key]
    | cons d m => simp [key]
  | cons c n ih =>
    cases m with
    | nil => simp [key]
    | cons d m =>
      have htail : key m = key n ↔ m.map sreLower = n.map sreLower := Iff.rfl
      rw [List.map_cons, List.forall₂_cons, ih, htail]
      unfold key
      rw [List.map_cons, List.map_cons, List.cons.injEq, decide_eq_true_eq]

theorem lit_backReference {n t r : Chars} :
    lit (backReference n) t = some r ↔ ∃ m, t = '<' :: '/' :: (m ++ '>' :: r) ∧ key m = key n := by
  rw [lit_eq_some]
  unfold backReference
  constructor
  · rintro ⟨front, rfl, hfront⟩
    cases hfront with
    | @cons _ x _ front hx hfront =>
      cases hfront with
      | @cons _ y _ front hy hfront =>
        have hread := lit_eq_some.mpr ⟨front, (rfl : front ++ r = front ++ r), hfront⟩
        rw [lit_bind, Option.bind_eq_some_iff] at hread
        obtain ⟨u, hu, hr⟩ := hread
        obtain ⟨m, hm, hkey⟩ := lit_eq_some.mp hu
        obtain ⟨back, rfl, hback⟩ := lit_eq_some.mp hr
        cases hback with
        | cons hz hnil =>
          cases hnil
          have hx' : x = '<' := by simpa using hx
          have hy' : y = '/' := by simpa using hy
          have hz' := by simpa using hz
          subst hx' hy' hz'
          refine ⟨m, ?_, backReference_iff.mp hkey⟩
          rw [List.cons_append, List.cons_append, hm]
          rfl
  · rintro ⟨m, rfl, hkey⟩
    refine ⟨'<' :: '/' :: (m ++ ['>']), by simp, .cons (by decide) (.cons (by decide) ?_)⟩
    exact List.rel_append (backReference_iff.mpr hkey) (.cons (by decide) .nil)

theorem dup_at (s : Chars) (ss : List Chars) : dupClose.at? (body '<' (s :: ss)) =
    (readClose s).bind fun found =>
      (lit (backReference found.1) ((found.2 ++ body '<' ss).dropWhile Text.isSpace)).map fun r => (found.1, r) := by
  have hclose : closeThink.at? (body '<' (s :: ss)) =
      (readClose s).map fun found => (found.1, found.2 ++ body '<' ss) := by
    change behind '<' readClose ('<' :: (s ++ body '<' ss)) = _
    rw [behind_self, readClose_append (stops_body ss)]
  change (closeThink.at? (body '<' (s :: ss))).bind _ = _
  rw [hclose]
  cases readClose s with
  | none => rfl
  | some found => rfl

/-- The duplicate pattern matches a segment that ends in a closing tag, with the tag that
begins the next. -/
theorem dup_match {s n r s' n' r' : Chars} {ss : List Chars} (h : readClose s = some (n, r))
    (hr : ∀ c ∈ r, Text.isSpace c = true) (h' : readClose s' = some (n', r')) (hkey : key n' = key n) :
    dupClose.at? (body '<' (s :: s' :: ss)) = some (n, r' ++ body '<' ss) := by
  obtain ⟨rfl, -⟩ := readClose_eq_some.mp h'
  have hlt : Text.isSpace '<' = false := by decide +kernel
  have hdrop : (r ++ body '<' (('/' :: (n' ++ '>' :: r')) :: ss)).dropWhile Text.isSpace =
      '<' :: '/' :: (n' ++ '>' :: (r' ++ body '<' ss)) := by
    rw [List.dropWhile_append_of_pos hr, body_cons, List.dropWhile_cons_of_neg (by simp [hlt])]
    simp
  rw [dup_at, h, Option.bind_some, hdrop, lit_backReference.mpr ⟨n', rfl, hkey⟩]
  rfl

theorem dup_none {s : Chars} {ss : List Chars} (hs : '<' ∉ s)
    (h : ∀ s' ∈ ss.head?, (kind s').repeats (kind s).endKey = false) : dupClose.at? (body '<' (s :: ss)) = none := by
  rw [dup_at]
  cases hclose : readClose s with
  | none => rfl
  | some found =>
    obtain ⟨n, r⟩ := found
    by_contra hne
    obtain ⟨⟨n₀, u⟩, hsome⟩ := Option.ne_none_iff_exists'.mp hne
    obtain ⟨u', hlit, -⟩ := Option.map_eq_some_iff.mp hsome
    obtain ⟨m, heq, hkey⟩ := lit_backReference.mp hlit
    by_cases hr : ∀ c ∈ r, Text.isSpace c = true
    · rw [List.dropWhile_append_of_pos hr] at heq
      cases ss with
      | nil => cases heq
      | cons s' ss =>
        have hlt : Text.isSpace '<' = false := by decide +kernel
        rw [body_cons, List.dropWhile_cons_of_neg (by simp [hlt])] at heq
        have hname : IsName m := (readClose_eq_some.mp hclose).2.of_key hkey
        have hread := readClose_eq_some.mpr ⟨(List.cons.inj heq).2, hname⟩
        rw [readClose_append (stops_body ss)] at hread
        obtain ⟨⟨m', r'⟩, hs', heq'⟩ := Option.map_eq_some_iff.mp hread
        obtain ⟨rfl, -⟩ := Prod.mk.inj heq'
        have hrep := h s' rfl
        rw [kind_closing hs', kind_closing hclose, List.all_eq_true.mpr hr] at hrep
        simp [Kind.repeats, Kind.endKey, hkey] at hrep
    · -- what stands behind the white space is part of the segment and no delimiter
      have hne : r.dropWhile Text.isSpace ≠ [] := fun hnil => hr (List.dropWhile_eq_nil_iff.mp hnil)
      rw [List.dropWhile_append, if_neg (by simpa using hne)] at heq
      obtain ⟨x, xs, hx⟩ := List.exists_cons_of_ne_nil hne
      rw [hx] at heq
      have hmem : x ∈ r := (List.dropWhile_suffix _).subset (hx ▸ List.mem_cons_self)
      have hxlt : x = '<' := (List.cons.inj heq).1
      exact hs ((readClose_suffix hclose).subset (hxlt ▸ hmem))

/-! ### Repeated tags, and the tag at the end -/

/-- The closing tags that repeat the one above, which is `prev` for the first segment. -/
def repeatsFrom : Option Chars → List Kind → ℕ
  | _, [] => 0
  | prev, k :: ks => (if k.repeats prev then 1 else 0) + repeatsFrom k.endKey ks

/-- The closing tag that the last segment ends in. -/
def endsIn (prev : Option Chars) (ks : List Kind) : Option Chars := ks.foldl (fun _ k => k.endKey) prev

/-- Either the second segment begins with the tag that the first ends in, or not. -/
theorem pair_cases (k k' : Kind) : k'.repeats k.endKey = false ∨
    ∃ n n' blank, k = .closing n true ∧ k' = .closing n' blank ∧ key n' = key n := by
  cases k with
  | opening n => left; cases k' <;> simp [Kind.repeats, Kind.endKey]
  | other => left; cases k' <;> simp [Kind.repeats, Kind.endKey]
  | closing n b =>
    cases b with
    | false => left; cases k' <;> simp [Kind.repeats, Kind.endKey]
    | true =>
      cases k' with
      | opening n' => exact .inl rfl
      | other => exact .inl rfl
      | closing n' blank =>
        by_cases h : key n' = key n
        · exact .inr ⟨n, n', blank, rfl, rfl, h⟩
        · left
          simp [Kind.repeats, Kind.endKey, Ne.symm h]

theorem readClose_of_kind {s n : Chars} {blank : Bool} (h : kind s = .closing n blank) :
    ∃ r, readClose s = some (n, r) ∧ r.all Text.isSpace = blank := by
  cases hc : readClose s with
  | none =>
    unfold kind at h
    rw [hc] at h
    split at h
    · cases h
    · cases h
  | some found =>
    obtain ⟨m, r⟩ := found
    rw [kind_closing hc] at h
    cases h
    exact ⟨r, rfl, rfl⟩

/-- The closing tags that the duplicate pattern finds a repetition of. -/
def repeatedCloses (text : Chars) : ℕ := text.tails.countP fun s => (dupClose.at? s).isSome

/-- A closing tag up to which the text ends, but for white space, is the one named. -/
def endsInClose (text n : Chars) : Bool :=
  text.tails.any fun s => (closeThink.at? s).any fun found => found.2.all Text.isSpace && decide (key found.1 = key n)

theorem repeatedCloses_eq_zero {t : Chars} : repeatedCloses t = 0 ↔ dupClose.Absent t := by
  unfold repeatedCloses Matcher.Absent
  rw [List.countP_eq_zero]
  simp

theorem repeatedCloses_cons (c : Char) (t : Chars) :
    repeatedCloses (c :: t) = (if (dupClose.at? (c :: t)).isSome then 1 else 0) + repeatedCloses t := by
  unfold repeatedCloses
  rw [List.tails_cons, List.countP_cons]
  omega

theorem repeatedCloses_clean {a : Chars} (ha : '<' ∉ a) (t : Chars) : repeatedCloses (a ++ t) = repeatedCloses t := by
  induction a with
  | nil => rfl
  | cons c a ih =>
    simp only [List.mem_cons, not_or] at ha
    rw [List.cons_append, repeatedCloses_cons, headed_dup c _ (Ne.symm ha.1), ih ha.2]
    simp

/-- The first segment begins with the closing tag that is given. -/
def headRepeats (prev : Option Chars) (ks : List Kind) : Bool := ks.head?.any (Kind.repeats prev)

theorem repeatedCloses_body {ss : List Chars} (hss : ∀ s ∈ ss, '<' ∉ s) (prev : Option Chars) :
    repeatsFrom prev (ss.map kind) = (if headRepeats prev (ss.map kind) then 1 else 0) + repeatedCloses (body '<' ss) := by
  induction ss generalizing prev with
  | nil =>
    have hnil : dupClose.at? [] = none := rfl
    simp [repeatsFrom, headRepeats, repeatedCloses, hnil]
  | cons s ss ih =>
    have hs : '<' ∉ s := hss s (by simp)
    have hdup : (dupClose.at? (body '<' (s :: ss))).isSome = headRepeats (kind s).endKey (ss.map kind) := by
      by_cases hrep : headRepeats (kind s).endKey (ss.map kind) = true
      · cases ss with
        | nil => cases hrep
        | cons s' ss =>
          have hrep' : (kind s').repeats (kind s).endKey = true := hrep
          rcases pair_cases (kind s) (kind s') with hno | ⟨n, n', blank, hk, hk', hkey⟩
          · rw [hno] at hrep'
            cases hrep'
          · obtain ⟨r, hread, hr⟩ := readClose_of_kind hk
            obtain ⟨r', hread', -⟩ := readClose_of_kind hk'
            rw [dup_match hread (List.all_eq_true.mp hr) hread' hkey, hrep]
            rfl
      · have hnone : dupClose.at? (body '<' (s :: ss)) = none := by
          refine dup_none hs fun s' hs' => ?_
          cases ss with
          | nil => cases hs'
          | cons x ss =>
            obtain rfl : x = s' := by simpa using hs'
            exact Bool.eq_false_iff.mpr hrep
        rw [hnone, Bool.eq_false_iff.mpr hrep]
        rfl
    have hfrom : repeatsFrom prev ((s :: ss).map kind) =
        (if (kind s).repeats prev then 1 else 0) + repeatsFrom (kind s).endKey (ss.map kind) := rfl
    have hhead : headRepeats prev ((s :: ss).map kind) = (kind s).repeats prev := rfl
    rw [hfrom, hhead, ih (fun x hx => hss x (by simp [hx])), body_cons, repeatedCloses_cons, ← body_cons, hdup,
      repeatedCloses_clean hs]

theorem HasKinds.repeated {t : Chars} {ks : List Kind} (h : HasKinds t ks) : repeatedCloses t = repeatsFrom none ks := by
  obtain ⟨a, ss, ha, hss, rfl, rfl⟩ := h
  have hhead : headRepeats none (ss.map kind) = false := by
    cases ss with
    | nil => rfl
    | cons s ss =>
      change (kind s).repeats none = false
      cases kind s <;> simp [Kind.repeats]
  rw [repeatedCloses_clean ha, repeatedCloses_body hss, hhead]
  simp

theorem endsInClose_cons (c : Char) (t n : Chars) : endsInClose (c :: t) n =
    (((closeThink.at? (c :: t)).any fun found => found.2.all Text.isSpace && decide (key found.1 = key n)) ||
      endsInClose t n) := by
  unfold endsInClose
  rw [List.tails_cons, List.any_cons]

theorem endsInClose_clean {a : Chars} (ha : '<' ∉ a) (t n : Chars) : endsInClose (a ++ t) n = endsInClose t n := by
  induction a with
  | nil => rfl
  | cons c a ih =>
    simp only [List.mem_cons, not_or] at ha
    rw [List.cons_append, endsInClose_cons, headed_close c _ (Ne.symm ha.1), ih ha.2]
    rfl

theorem endsInClose_body {ss : List Chars} (hss : ∀ s ∈ ss, '<' ∉ s) (hne : ss ≠ []) (prev : Option Chars) (n : Chars) :
    endsInClose (body '<' ss) n = true ↔ endsIn prev (ss.map kind) = some (key n) := by
  induction ss generalizing prev with
  | nil => exact absurd rfl hne
  | cons s ss ih =>
    have hs : '<' ∉ s := hss s (by simp)
    have hat : closeThink.at? ('<' :: (s ++ body '<' ss)) =
        (readClose s).map fun found => (found.1, found.2 ++ body '<' ss) :=
      local_close s ss hs
    rw [body_cons, endsInClose_cons, hat, endsInClose_clean hs]
    have hfold : endsIn prev ((s :: ss).map kind) = endsIn (kind s).endKey (ss.map kind) := rfl
    rw [hfold]
    cases ss with
    | nil =>
      have hnil : endsInClose (body '<' []) n = false := rfl
      have hbase : endsIn (kind s).endKey ([].map kind) = (kind s).endKey := rfl
      rw [hnil, Bool.or_false, hbase]
      cases hc : readClose s with
      | none =>
        have hk : (kind s).endKey = none := by
          cases hk : kind s with
          | closing m blank =>
            obtain ⟨r, hr, -⟩ := readClose_of_kind hk
            rw [hc] at hr
            cases hr
          | _ => rfl
        rw [hk]
        simp
      | some found =>
        obtain ⟨m, r⟩ := found
        rw [kind_closing hc]
        cases hr : r.all Text.isSpace <;> simp [hr, Kind.endKey]
    | cons s' ss =>
      have hlt : Text.isSpace '<' = false := by decide +kernel
      have hnot : ((readClose s).map fun found => (found.1, found.2 ++ body '<' (s' :: ss))).any
          (fun found => found.2.all Text.isSpace && decide (key found.1 = key n)) = false := by
        cases readClose s with
        | none => rfl
        | some found => simp [body_cons, hlt]
      rw [hnot, Bool.false_or]
      exact ih (fun x hx => hss x (List.mem_cons_of_mem s hx)) (by simp) (kind s).endKey

theorem HasKinds.ends {t : Chars} {ks : List Kind} (h : HasKinds t ks) (n : Chars) :
    endsInClose t n = true ↔ endsIn none ks = some (key n) := by
  obtain ⟨a, ss, ha, hss, rfl, rfl⟩ := h
  rw [endsInClose_clean ha]
  cases ss with
  | nil => simp [endsInClose, endsIn, closeThink, behind]
  | cons s ss => exact endsInClose_body hss (by simp) none n

theorem repeatsFrom_append (prev : Option Chars) (ks : List Kind) (k : Kind) :
    repeatsFrom prev (ks ++ [k]) = repeatsFrom prev ks + if k.repeats (endsIn prev ks) then 1 else 0 := by
  induction ks generalizing prev with
  | nil => exact Nat.add_comm ..
  | cons k' ks ih =>
    have hfold : endsIn prev (k' :: ks) = endsIn k'.endKey ks := rfl
    rw [List.cons_append, repeatsFrom, repeatsFrom, ih, hfold]
    omega

end AgentCore.Middleware.OutputRepair
