/-
# Output repair

`repair_output_text` of `output_repair.py`: closing thinking tags that repeat the
one above are taken out, one closing tag is added when there are fewer of them than
opening tags, and trailing white space is taken off.

A repaired text is good when it has a closing tag for every opening one and no
closing tag repeats the one above; then it is repaired to itself. One closing tag is
added however many are missing, and the added tag may itself repeat the tag that ends
the text.

Key definitions: `repairOutputText`, `Projects`, `Repairable`.
Key theorem: `projects_iff`.
-/
import AgentCore.Middleware.ThinkingTags
import AgentCore.Providers.Errors

namespace AgentCore.Middleware.OutputRepair

open Blocks Loop.LeakedReasoning Matches
open Providers (lowerChar)

/-! ### The function -/

/-- `</name>`. -/
def closing (n : Chars) : Chars := '<' :: '/' :: (n ++ ['>'])

/-- `_DUP_CLOSE_RE.sub(r"</\1>", text)`. -/
def collapseOnce (text : Chars) : Chars := dupClose.replaceAll closing text

/-- The loop that collapses until the text stays; every round but the last makes it
shorter, so its length is fuel enough. -/
def collapseLoop : ℕ → Chars → Chars
  | 0, text => text
  | n + 1, text => if collapseOnce text = text then text else collapseLoop n (collapseOnce text)

def collapse (text : Chars) : Chars := collapseLoop text.length text

/-- `str.rstrip`. -/
def rstrip (text : Chars) : Chars := (text.reverse.dropWhile Text.isSpace).reverse

/-- The test of the early exit: no `<think` and no `</think` in the lower-case text. -/
def untouched (text : Chars) : Bool :=
  ¬ "<think".toList <:+: text.flatMap lowerChar ∧ ¬ "</think".toList <:+: text.flatMap lowerChar

def repairOutputText (text : Chars) : Chars :=
  if text = [] then text
  else if untouched text then rstrip text
  else
    let repaired := collapse text
    let opens := openThink.findAll repaired
    let closes := closeThink.findAll repaired
    if closes.length < opens.length then
      let tag := (opens.getD closes.length []).flatMap lowerChar
      rstrip (repaired ++ closing tag)
    else rstrip repaired

/-! ### One round of collapsing -/

/-- The first tag with what stands behind the second. -/
def Kind.join : Kind → Kind → Kind
  | .closing n _, .closing _ blank => .closing n blank
  | k, _ => k

/-- A round on segments: one tag of each pair is left. -/
def passKinds : List Kind → List Kind
  | [] => []
  | [k] => [k]
  | k :: k' :: ks => if k'.repeats k.endKey then k.join k' :: passKinds ks else k :: passKinds (k' :: ks)

/-- Closing tags of one key are compared with alike. -/
theorem endKey_closing {n n' : Chars} (blank : Bool) (h : key n' = key n) :
    (Kind.closing n blank).endKey = (Kind.closing n' blank).endKey := by
  cases blank with
  | false => rfl
  | true => exact congrArg some h.symm

theorem repeats_closing {n n' : Chars} (blank : Bool) (h : key n' = key n) :
    (Kind.closing n' blank).repeats (Kind.closing n true).endKey = true := by
  simp [Kind.repeats, Kind.endKey, h]

theorem passKinds_pair {n n' : Chars} {blank : Bool} {ks : List Kind} (h : key n' = key n) :
    passKinds (.closing n true :: .closing n' blank :: ks) = .closing n blank :: passKinds ks := by
  rw [passKinds, if_pos (repeats_closing blank h)]
  rfl

theorem passKinds_apart {k k' : Kind} {ks : List Kind} (h : k'.repeats k.endKey = false) :
    passKinds (k :: k' :: ks) = k :: passKinds (k' :: ks) := by
  rw [passKinds, if_neg (by simp [h])]

/-- A list of segments is empty or one, or begins with a pair of the same tag, or with two
that are none. -/
theorem kinds_induct {motive : List Kind → Prop} (nil : motive []) (single : ∀ k, motive [k])
    (pair : ∀ n n' blank ks, key n' = key n → motive ks → motive (.closing n true :: .closing n' blank :: ks))
    (apart : ∀ k k' ks, k'.repeats k.endKey = false → motive (k' :: ks) → motive (k :: k' :: ks)) : ∀ ks, motive ks
  | [] => nil
  | [k] => single k
  | k :: k' :: ks => by
    rcases pair_cases k k' with h | ⟨n, n', blank, rfl, rfl, h⟩
    · exact apart k k' ks h (kinds_induct nil single pair apart (k' :: ks))
    · exact pair n n' blank ks h (kinds_induct nil single pair apart ks)

theorem passKinds_name? (ks : List Kind) : (passKinds ks).filterMap Kind.name? = ks.filterMap Kind.name? := by
  induction ks using kinds_induct with
  | nil => rfl
  | single k => rfl
  | pair n n' blank ks h ih =>
    rw [passKinds_pair h]
    exact ih
  | apart k k' ks h ih =>
    rw [passKinds_apart h, List.filterMap_cons, ih]
    rfl

theorem passKinds_endsIn (ks : List Kind) (prev : Option Chars) : endsIn prev (passKinds ks) = endsIn prev ks := by
  induction ks using kinds_induct generalizing prev with
  | nil => rfl
  | single k => rfl
  | pair n n' blank ks h ih =>
    rw [passKinds_pair h]
    have hkey := endKey_closing blank h
    calc endsIn prev (.closing n blank :: passKinds ks) = endsIn (Kind.closing n blank).endKey (passKinds ks) := rfl
      _ = endsIn (Kind.closing n' blank).endKey ks := by rw [ih, hkey]
      _ = endsIn prev (.closing n true :: .closing n' blank :: ks) := rfl
  | apart k k' ks h ih =>
    rw [passKinds_apart h]
    exact ih k.endKey

def closers (ks : List Kind) : ℕ := (ks.filterMap Kind.closeName?).length

theorem closers_cons (k : Kind) (ks : List Kind) :
    closers (k :: ks) = (if k.closeName?.isSome then 1 else 0) + closers ks := by
  unfold closers
  rw [List.filterMap_cons]
  cases k.closeName? with
  | none => simp
  | some n => simp [Nat.add_comm]

/-- Every tag that a round takes out is one that repeats the one above. -/
theorem passKinds_closers (ks : List Kind) (prev : Option Chars) :
    closers (passKinds ks) + repeatsFrom prev ks = closers ks + repeatsFrom prev (passKinds ks) := by
  induction ks using kinds_induct generalizing prev with
  | nil => rfl
  | single k => rfl
  | pair n n' blank ks h ih =>
    rw [passKinds_pair h]
    have hkey := endKey_closing blank h
    have hrep := repeats_closing blank h
    have hsame : (Kind.closing n true).repeats prev = (Kind.closing n blank).repeats prev := rfl
    have hih := ih (Kind.closing n' blank).endKey
    simp only [closers_cons, repeatsFrom, hrep, hsame, hkey, Kind.closeName?, Option.isSome_some, if_true]
    omega
  | apart k k' ks h ih =>
    have hfrom : ∀ ks, repeatsFrom prev (k :: ks) = (if k.repeats prev then 1 else 0) + repeatsFrom k.endKey ks :=
      fun _ => rfl
    have hih := ih k.endKey
    rw [passKinds_apart h, closers_cons k, closers_cons k, hfrom, hfrom]
    omega

/-- A round on the text is a round on its segments. -/
theorem collapse_body : ∀ {ss : List Chars}, (∀ s ∈ ss, '<' ∉ s) →
    ∃ ss', (∀ s ∈ ss', '<' ∉ s) ∧ collapseOnce (body '<' ss) = body '<' ss' ∧ ss'.map kind = passKinds (ss.map kind)
  | [], _ => ⟨[], by simp, rfl, rfl⟩
  | [s], hss => by
    have hs : '<' ∉ s := hss s (by simp)
    have hnone : dupClose.at? (body '<' [s]) = none := dup_none hs (by simp)
    refine ⟨[s], hss, ?_, rfl⟩
    unfold collapseOnce
    rw [body_cons] at hnone ⊢
    rw [Matcher.replaceAll_plain _ hnone, replaceAll_clean headed_dup _ hs]
    rfl
  | s :: s' :: ss, hss => by
    have hs : '<' ∉ s := hss s (by simp)
    have hs' : '<' ∉ s' := hss s' (by simp)
    by_cases hrep : (kind s').repeats (kind s).endKey = false
    · have hrest : ∀ x ∈ s' :: ss, '<' ∉ x := fun x hx => hss x (List.mem_cons_of_mem s hx)
      obtain ⟨tt, htt, hbody, hkinds⟩ := collapse_body hrest
      have hnone : dupClose.at? (body '<' (s :: s' :: ss)) = none :=
        dup_none hs fun x hx => by
          obtain rfl : s' = x := by simpa using hx
          exact hrep
      refine ⟨s :: tt, by simpa [hs] using htt, ?_, ?_⟩
      · unfold collapseOnce at hbody ⊢
        rw [body_cons] at hnone ⊢
        rw [Matcher.replaceAll_plain _ hnone, replaceAll_clean headed_dup _ hs, hbody]
        rfl
      · rw [List.map_cons, hkinds, List.map_cons, List.map_cons, List.map_cons, passKinds_apart hrep]
    · rcases pair_cases (kind s) (kind s') with hno | ⟨n, n', blank, hk, hk', hkey⟩
      · exact absurd hno hrep
      · obtain ⟨r, hread, hr⟩ := readClose_of_kind hk
        obtain ⟨r', hread', hr'⟩ := readClose_of_kind hk'
        have hrest : ∀ x ∈ ss, '<' ∉ x := fun x hx => hss x (by simp [hx])
        obtain ⟨tt, htt, hbody, hkinds⟩ := collapse_body hrest
        have hclean : '<' ∉ r' := fun h => hs' ((readClose_suffix hread').subset h)
        have hname := (readClose_eq_some.mp hread).2
        have hnew : readClose ('/' :: (n ++ '>' :: r')) = some (n, r') := readClose_eq_some.mpr ⟨rfl, hname⟩
        refine ⟨('/' :: (n ++ '>' :: r')) :: tt, ?_, ?_, ?_⟩
        · simp only [List.mem_cons, forall_eq_or_imp]
          refine ⟨?_, htt⟩
          have hn : '<' ∉ n := hname.notMem (.inl rfl)
          simp [hn, hclean]
        · unfold collapseOnce at hbody ⊢
          rw [Matcher.replaceAll_match _ (dup_match hread (List.all_eq_true.mp hr) hread' hkey),
            replaceAll_clean headed_dup _ hclean, hbody, body_cons]
          simp [closing]
        · rw [List.map_cons, List.map_cons, List.map_cons, hkinds, hk, hk', passKinds_pair hkey, kind_closing hnew, hr']

/-! ### Collapsing to the end -/

theorem HasKinds.collapseOnce {t : Chars} {ks : List Kind} (h : HasKinds t ks) :
    HasKinds (collapseOnce t) (passKinds ks) := by
  obtain ⟨a, ss, ha, hss, rfl, rfl⟩ := h
  obtain ⟨ss', hss', hbody, hkinds⟩ := collapse_body hss
  refine ⟨a, ss', ha, hss', ?_, hkinds.symm⟩
  unfold OutputRepair.collapseOnce at hbody ⊢
  rw [replaceAll_clean headed_dup _ ha, hbody]

/-- What collapsing leaves as it is: the opening tags, the closing tags that do not repeat
the one above, and the closing tag at the end. -/
def SameTags (ks ks' : List Kind) : Prop :=
  ks'.filterMap Kind.name? = ks.filterMap Kind.name? ∧
    closers ks' + repeatsFrom none ks = closers ks + repeatsFrom none ks' ∧ endsIn none ks' = endsIn none ks

theorem HasKinds.collapseLoop {t : Chars} {ks : List Kind} (h : HasKinds t ks) (n : ℕ) :
    ∃ ks', HasKinds (collapseLoop n t) ks' ∧ SameTags ks ks' := by
  induction n generalizing t ks with
  | zero => exact ⟨ks, h, rfl, rfl, rfl⟩
  | succ n ih =>
    unfold OutputRepair.collapseLoop
    by_cases hstay : OutputRepair.collapseOnce t = t
    · rw [if_pos hstay]
      exact ⟨ks, h, rfl, rfl, rfl⟩
    · rw [if_neg hstay]
      obtain ⟨ks', hks', hname, hclose, hend⟩ := ih h.collapseOnce
      have hpass := passKinds_closers ks none
      exact ⟨ks', hks', hname.trans (passKinds_name? ks), by omega, hend.trans (passKinds_endsIn ks none)⟩

theorem dup_shrinks : dupClose.Shrinks closing := by
  intro t n r h
  obtain ⟨⟨m, u⟩, hclose, hback⟩ := Option.bind_eq_some_iff.mp h
  obtain ⟨r', hr, heq⟩ := Option.map_eq_some_iff.mp hback
  obtain ⟨rfl, rfl⟩ := Prod.mk.inj heq
  obtain ⟨u', rfl, hu'⟩ := behind_eq_some.mp hclose
  obtain ⟨rfl, -⟩ := readClose_eq_some.mp hu'
  obtain ⟨m', hm', -⟩ := lit_backReference.mp hr
  have hdrop : (u.dropWhile Text.isSpace).length ≤ u.length := (List.dropWhile_suffix _).length_le
  rw [hm'] at hdrop
  simp only [closing, List.length_cons, List.length_append, List.length_nil] at hdrop ⊢
  omega

/-- Nothing is left to collapse when the loop is over. -/
theorem absent_collapseLoop {n : ℕ} {t : Chars} (h : t.length ≤ n) : dupClose.Absent (collapseLoop n t) := by
  induction n generalizing t with
  | zero =>
    have hnil : t = [] := List.length_eq_zero_iff.mp (by omega)
    subst hnil
    exact Matcher.absent_of_replaceAll_length dup_shrinks rfl
  | succ n ih =>
    unfold collapseLoop
    by_cases hstay : collapseOnce t = t
    · rw [if_pos hstay]
      exact Matcher.absent_of_replaceAll_length dup_shrinks (congrArg List.length hstay)
    · rw [if_neg hstay]
      refine ih ?_
      have hle : (collapseOnce t).length ≤ t.length := Matcher.replaceAll_length_le dup_shrinks t
      have hlt : (collapseOnce t).length ≠ t.length := fun heq => by
        refine hstay ?_
        unfold collapseOnce at heq ⊢
        exact Matcher.replaceAll_of_absent _ (Matcher.absent_of_replaceAll_length dup_shrinks heq)
      omega

theorem absent_collapse (t : Chars) : dupClose.Absent (collapse t) := absent_collapseLoop (Nat.le_refl _)

theorem collapse_of_absent {t : Chars} (h : dupClose.Absent t) : collapse t = t := by
  have hstay : collapseOnce t = t := Matcher.replaceAll_of_absent _ h
  unfold collapse
  cases ht : t.length with
  | zero => rfl
  | succ n =>
    rw [collapseLoop, if_pos hstay]

/-! ### The end of the text -/

theorem rstrip_append (t : Chars) : ∃ w, (∀ c ∈ w, Text.isSpace c = true) ∧ t = rstrip t ++ w := by
  refine ⟨(t.reverse.takeWhile Text.isSpace).reverse, fun c hc => ?_, ?_⟩
  · exact List.mem_takeWhile_imp (List.mem_reverse.mp hc)
  · unfold rstrip
    rw [← List.reverse_append, List.takeWhile_append_dropWhile, List.reverse_reverse]

theorem rstrip_rstrip (t : Chars) : rstrip (rstrip t) = rstrip t := by
  unfold rstrip
  rw [List.reverse_reverse, Trim.dropWhile_dropWhile]

theorem rstrip_closing (t n : Chars) : rstrip (t ++ closing n) = t ++ closing n := by
  have hgt : Text.isSpace '>' = false := by decide +kernel
  have hrev : (t ++ closing n).reverse = '>' :: (t ++ '<' :: '/' :: n).reverse := by
    simp [closing]
  unfold rstrip
  rw [hrev, List.dropWhile_cons_of_neg (by simp [hgt]), ← hrev, List.reverse_reverse]

theorem HasKinds.append_space {t w : Chars} {ks : List Kind} (h : HasKinds t ks)
    (hw : ∀ c ∈ w, Text.isSpace c = true) : HasKinds (t ++ w) ks := by
  have hclean : '<' ∉ w := fun hlt => by
    have := hw _ hlt
    revert this
    decide +kernel
  obtain ⟨a, ss, ha, hss, rfl, rfl⟩ := h
  rcases List.eq_nil_or_concat ss with rfl | ⟨init, last, rfl⟩
  · exact ⟨a ++ w, [], by simp [ha, hclean], by simp, by simp, rfl⟩
  · rw [List.concat_eq_append] at hss ⊢
    refine ⟨a, init ++ [last ++ w], ha, ?_, ?_, ?_⟩
    · intro s hs
      rcases List.mem_append.mp hs with hs | hs
      · exact hss s (by simp [hs])
      · rw [List.mem_singleton.mp hs]
        have hlast : '<' ∉ last := hss last (by simp)
        simp [hlast, hclean]
    · rw [body_append, body_append, body_cons, body_cons]
      simp
    · rw [List.map_append, List.map_append, List.map_singleton, List.map_singleton, kind_append_space hw]

theorem HasKinds.append_closing {t n : Chars} {ks : List Kind} (h : HasKinds t ks) (hn : '<' ∉ n) :
    HasKinds (t ++ closing n) (ks ++ [kind ('/' :: (n ++ ['>']))]) := by
  obtain ⟨a, ss, ha, hss, rfl, rfl⟩ := h
  refine ⟨a, ss ++ ['/' :: (n ++ ['>'])], ha, ?_, ?_, by simp⟩
  · intro s hs
    rcases List.mem_append.mp hs with hs | hs
    · exact hss s hs
    · rw [List.mem_singleton.mp hs]
      simp [hn]
  · rw [body_append, body_cons]
    simp [closing]

/-- The text counts of tags, without the white space at the end. -/
theorem counts_rstrip (t : Chars) : openThink.findAll (rstrip t) = openThink.findAll t ∧
    closeThink.findAll (rstrip t) = closeThink.findAll t ∧ repeatedCloses (rstrip t) = repeatedCloses t := by
  obtain ⟨w, hw, ht⟩ := rstrip_append t
  obtain ⟨ks, hks⟩ := exists_kinds (rstrip t)
  have hks' : HasKinds t ks := by
    have := hks.append_space hw
    rwa [← ht] at this
  exact ⟨hks.opens.trans hks'.opens.symm, hks.closes.trans hks'.closes.symm, hks.repeated.trans hks'.repeated.symm⟩

/-! ### The tag that is added -/

theorem kind_closer {n : Chars} (h : IsName n) : kind ('/' :: (n ++ ['>'])) = .closing n true :=
  kind_closing (readClose_eq_some.mpr ⟨rfl, h⟩)

/-- What is no name makes no tag. -/
theorem kind_no_closer {n : Chars} (h : ¬ IsName n) (hn : '>' ∉ n) : kind ('/' :: (n ++ ['>'])) = .other := by
  have hno : readClose ('/' :: (n ++ ['>'])) = none := by
    by_contra hne
    obtain ⟨⟨m, r⟩, hread⟩ := Option.ne_none_iff_exists'.mp hne
    obtain ⟨heq, hm⟩ := readClose_eq_some.mp hread
    have hclean : '>' ∉ m := hm.notMem (.inr (.inr (.inl rfl)))
    have happ : n ++ '>' :: [] = m ++ '>' :: r := (List.cons.inj heq).2
    obtain ⟨rfl, -⟩ := append_close_inj hn hclean happ
    exact h hm
  unfold kind
  rw [readName_slash, hno]

/-- `str.lower` of a name has none of the brackets of a tag. -/
theorem lower_clean {n : Chars} (h : IsName n) : '<' ∉ n.flatMap lowerChar ∧ '>' ∉ n.flatMap lowerChar := by
  have hall : ("thinking".toList ++ caseFolds.map Prod.fst).all
      (fun c => (lowerChar c).all fun d => decide (d ≠ '<' ∧ d ≠ '>')) = true := by decide +kernel
  have hletter : ∀ d ∈ n.flatMap lowerChar, d ≠ '<' ∧ d ≠ '>' := by
    intro d hd
    obtain ⟨c, hc, hd⟩ := List.mem_flatMap.mp hd
    have := List.all_eq_true.mp (List.all_eq_true.mp hall c (h.letter hc)) d hd
    simpa using this
  exact ⟨fun hd => (hletter _ hd).1 rfl, fun hd => (hletter _ hd).2 rfl⟩

theorem isName_of_mem_opens {t n : Chars} (h : n ∈ openThink.findAll t) : IsName n := by
  obtain ⟨s, r, -, hat⟩ := Matcher.exists_of_mem_findAll h
  obtain ⟨u, -, hu⟩ := behind_eq_some.mp hat
  exact (readName_eq_some.mp hu).2

/-! ### When a repair is one -/

/-- Two closing tags that are the same up to case, with only white space between them. -/
def Twins (t : Chars) : Prop :=
  ∃ front n w m back, t = front ++ (closing n ++ (w ++ (closing m ++ back))) ∧ IsName n ∧ IsName m ∧
    (∀ c ∈ w, Text.isSpace c = true) ∧ key m = key n

theorem absent_iff {t : Chars} : dupClose.Absent t ↔ ¬ Twins t := by
  constructor
  · rintro h ⟨front, n, w, m, back, rfl, hn, -, hw, hkey⟩
    have hat := h _ (List.suffix_append front (closing n ++ (w ++ (closing m ++ back))))
    have hclose : closeThink.at? (closing n ++ (w ++ (closing m ++ back))) = some (n, w ++ (closing m ++ back)) := by
      have hcl : closing n ++ (w ++ (closing m ++ back)) = '<' :: '/' :: (n ++ '>' :: (w ++ (closing m ++ back))) := by
        simp [closing]
      rw [hcl, closeThink_cons]
      exact readClose_eq_some.mpr ⟨rfl, hn⟩
    have hlt : Text.isSpace '<' = false := by decide +kernel
    have hdrop : (w ++ (closing m ++ back)).dropWhile Text.isSpace = '<' :: '/' :: (m ++ '>' :: back) := by
      rw [List.dropWhile_append_of_pos hw, closing, List.cons_append, List.dropWhile_cons_of_neg (by simp [hlt])]
      simp
    change (closeThink.at? _).bind _ = none at hat
    rw [hclose, Option.bind_some, hdrop, lit_backReference.mpr ⟨m, rfl, hkey⟩] at hat
    cases hat
  · intro h s hs
    by_contra hne
    obtain ⟨⟨n, r⟩, hat⟩ := Option.ne_none_iff_exists'.mp hne
    obtain ⟨⟨n', u⟩, hclose, hback⟩ := Option.bind_eq_some_iff.mp hat
    obtain ⟨r', hr, -⟩ := Option.map_eq_some_iff.mp hback
    obtain ⟨u', rfl, hu'⟩ := behind_eq_some.mp hclose
    obtain ⟨rfl, hn⟩ := readClose_eq_some.mp hu'
    obtain ⟨m, hm, hkey⟩ := lit_backReference.mp hr
    obtain ⟨front, rfl⟩ := hs
    refine h ⟨front, n', u.takeWhile Text.isSpace, m, r', ?_, hn, hn.of_key hkey,
      fun c hc => List.mem_takeWhile_imp hc, hkey⟩
    have hu : u = u.takeWhile Text.isSpace ++ '<' :: '/' :: (m ++ '>' :: r') := by
      rw [← hm, List.takeWhile_append_dropWhile]
    rw [hu]
    simp [closing, ← hu]

/-- The text is repaired for good, with a closing tag for every opening one and without a
closing tag that repeats the one above. -/
def Projects (text : Chars) : Prop :=
  repairOutputText (repairOutputText text) = repairOutputText text ∧
    (openThink.findAll (repairOutputText text)).length ≤ (closeThink.findAll (repairOutputText text)).length ∧
    ¬ Twins (repairOutputText text)

/-- The text has enough closing tags, not counting those that repeat the one above; or it
lacks one, and the lower-case name of the last opening tag is a name and not that of the
tag which ends the text. Where no tag is spelled in a way that the early exit sees, the
closing tags have to be in order as they are. -/
def Repairable (text : Chars) : Prop :=
  if untouched text then
    (openThink.findAll text).length ≤ (closeThink.findAll text).length ∧ repeatedCloses text = 0
  else
    (openThink.findAll text).length + repeatedCloses text ≤ (closeThink.findAll text).length ∨
      (openThink.findAll text).length + repeatedCloses text = (closeThink.findAll text).length + 1 ∧
        ∃ n, (openThink.findAll text).getLast? = some n ∧ IsName (n.flatMap lowerChar) ∧
          endsInClose text (n.flatMap lowerChar) = false

/-- A text in order is repaired to itself but for the white space at its end. -/
theorem repair_in_order {t : Chars} (habsent : dupClose.Absent t)
    (hle : (openThink.findAll t).length ≤ (closeThink.findAll t).length) : repairOutputText t = rstrip t := by
  unfold repairOutputText
  by_cases hnil : t = []
  · rw [if_pos hnil, hnil]
    rfl
  · rw [if_neg hnil]
    by_cases hu : untouched t = true
    · rw [if_pos hu]
    · rw [if_neg hu]
      simp only [collapse_of_absent habsent]
      rw [if_neg (by omega)]

theorem rstrip_repair (t : Chars) : rstrip (repairOutputText t) = repairOutputText t := by
  unfold repairOutputText
  by_cases hnil : t = []
  · rw [if_pos hnil, hnil]
    rfl
  · rw [if_neg hnil]
    split
    · exact rstrip_rstrip t
    · dsimp only
      split
      · exact rstrip_rstrip _
      · exact rstrip_rstrip _

/-- A repaired text is good iff its tags are in order. -/
theorem projects_iff_order {text : Chars} : Projects text ↔
    (openThink.findAll (repairOutputText text)).length ≤ (closeThink.findAll (repairOutputText text)).length ∧
      repeatedCloses (repairOutputText text) = 0 := by
  unfold Projects
  rw [← absent_iff, ← repeatedCloses_eq_zero]
  refine and_iff_right_of_imp fun h => ?_
  rw [repair_in_order (repeatedCloses_eq_zero.mp h.2) h.1, rstrip_repair]

/-- The tags of the collapsed text: the same opening tags, the closing tags that repeat
none, and the same tag at the end. -/
theorem collapse_tags (text : Chars) : openThink.findAll (collapse text) = openThink.findAll text ∧
    (closeThink.findAll (collapse text)).length + repeatedCloses text = (closeThink.findAll text).length ∧
    ∀ n, endsInClose (collapse text) n = endsInClose text n := by
  obtain ⟨ks, hks⟩ := exists_kinds text
  obtain ⟨ks', hks', hname, hclose, hend⟩ := hks.collapseLoop text.length
  change HasKinds (collapse text) ks' at hks'
  have hzero : repeatsFrom none ks' = 0 := by
    rw [← hks'.repeated, repeatedCloses_eq_zero]
    exact absent_collapse text
  refine ⟨?_, ?_, fun n => ?_⟩
  · rw [hks'.opens, hks.opens, hname]
  · rw [hks'.closes, hks.closes, hks.repeated]
    unfold closers at hclose
    omega
  · rw [Bool.eq_iff_iff, hks'.ends, hks.ends, hend]

/-- The tags behind an added closing tag. -/
theorem counts_closing {t n : Chars} (habsent : dupClose.Absent t) (hlt : '<' ∉ n) (hgt : '>' ∉ n) :
    openThink.findAll (t ++ closing n) = openThink.findAll t ∧
      (IsName n → (closeThink.findAll (t ++ closing n)).length = (closeThink.findAll t).length + 1 ∧
        (repeatedCloses (t ++ closing n) = 0 ↔ endsInClose t n = false)) ∧
      (¬ IsName n → (closeThink.findAll (t ++ closing n)).length = (closeThink.findAll t).length) := by
  obtain ⟨ks, hks⟩ := exists_kinds t
  have happ := hks.append_closing hlt
  have hzero : repeatsFrom none ks = 0 := by
    rw [← hks.repeated, repeatedCloses_eq_zero]
    exact habsent
  by_cases hn : IsName n
  · rw [kind_closer hn] at happ
    refine ⟨?_, fun _ => ⟨?_, ?_⟩, fun h => absurd hn h⟩
    · rw [happ.opens, hks.opens, List.filterMap_append]
      simp [Kind.name?]
    · rw [happ.closes, hks.closes, List.filterMap_append]
      simp [Kind.closeName?]
    · rw [happ.repeated, repeatsFrom_append, hzero, ← Bool.not_eq_true, hks.ends]
      simp [Kind.repeats]
  · rw [kind_no_closer hn hgt] at happ
    refine ⟨?_, fun h => absurd h hn, fun _ => ?_⟩
    · rw [happ.opens, hks.opens, List.filterMap_append]
      simp [Kind.name?]
    · rw [happ.closes, hks.closes, List.filterMap_append]
      simp [Kind.closeName?]

/-- The repair is a projection exactly on the repairable texts. -/
theorem projects_iff (text : Chars) : Projects text ↔ Repairable text := by
  obtain ⟨hopens, hcloses, hends⟩ := collapse_tags text
  rw [projects_iff_order]
  unfold Repairable repairOutputText
  by_cases hnil : text = []
  · have hu : untouched [] = true := by decide +kernel
    rw [if_pos hnil, hnil, if_pos hu]
  · rw [if_neg hnil]
    by_cases hu : untouched text = true
    · obtain ⟨h1, h2, h3⟩ := counts_rstrip text
      rw [if_pos hu, if_pos hu, h1, h2, h3]
    · rw [if_neg hu, if_neg hu]
      simp only [hopens]
      by_cases hshort : (closeThink.findAll (collapse text)).length < (openThink.findAll text).length
      · rw [if_pos hshort, rstrip_closing]
        generalize htag : (openThink.findAll text).getD (closeThink.findAll (collapse text)).length [] = n
        have hget : (openThink.findAll text)[(closeThink.findAll (collapse text)).length]? = some n := by
          rw [← htag, List.getD_eq_getElem?_getD, List.getElem?_eq_getElem hshort]
          rfl
        have hmem : n ∈ openThink.findAll text := List.mem_of_getElem? hget
        obtain ⟨hlt, hgt⟩ := lower_clean (isName_of_mem_opens hmem)
        obtain ⟨h1, h2, h3⟩ := counts_closing (absent_collapse text) hlt hgt
        rw [h1, hopens]
        have hlast : (openThink.findAll text).length = (closeThink.findAll (collapse text)).length + 1 →
            (openThink.findAll text).getLast? = some n := fun hlen => by
          have hidx : (openThink.findAll text).length - 1 = (closeThink.findAll (collapse text)).length := by omega
          rw [List.getLast?_eq_getElem?, hidx, hget]
        by_cases hn : IsName (n.flatMap lowerChar)
        · obtain ⟨hone, hrep⟩ := h2 hn
          rw [hone, hrep, hends]
          constructor
          · rintro ⟨hle, hend⟩
            exact .inr ⟨by omega, n, hlast (by omega), hn, hend⟩
          · rintro (hle | ⟨heq, n', hn', -, hend⟩)
            · omega
            · rw [hlast (by omega)] at hn'
              obtain rfl : n = n' := Option.some.inj hn'
              exact ⟨by omega, hend⟩
        · rw [h3 hn]
          refine iff_of_false (by omega) ?_
          rintro (hle | ⟨heq, n', hn', hname, -⟩)
          · omega
          · rw [hlast (by omega)] at hn'
            obtain rfl : n = n' := Option.some.inj hn'
            exact hn hname
      · rw [if_neg hshort]
        obtain ⟨h1, h2, h3⟩ := counts_rstrip (collapse text)
        rw [h1, h2, h3, hopens]
        exact iff_of_true ⟨by omega, repeatedCloses_eq_zero.mpr (absent_collapse text)⟩ (.inl (by omega))

/-- Two opening tags get one closing tag. -/
theorem nested_not_projected : ¬ Projects "<think><think>".toList := by
  rintro ⟨-, hle, -⟩
  revert hle
  decide +kernel

end AgentCore.Middleware.OutputRepair
