/-
# The spill store

`SpillStore` of `spill.py` keeps oversized tool results in files named by a
digest of the tool name and the body. A file has a header, a separator and the
body; it is read back in text mode, where every line ending becomes a line
feed, and what stands behind the first separator is returned.

A text is a list of characters here, since a file holds no lone surrogates (a
body with one makes `write_text` raise). The digest and the time of capture
are texts on one line. Files are never rewritten: a digest that has its file
keeps it. A write that is refused (a symbolic link, an `OSError`, no visible
root where one is required) returns no path and changes nothing.

Key definitions: `document`, `universalNewlines`, `readPath`, `step`, `read`.
Key theorem: `spill_round_trip`.
-/
import AgentCore.Lib.Cut
import AgentCore.Text
import Mathlib.Data.Set.Function
import Mathlib.Logic.Function.Basic

namespace AgentCore
namespace Spill

open Cut

/-- A text without line endings. -/
structure Line where
  chars : List Char
  no_lf : '\n' ∉ chars
  no_cr : '\r' ∉ chars

/-- `_SPILL_SEPARATOR`. -/
def separator : List Char := "\n---\n\n".toList

/-- What stands in a header behind the tool name, line by line. -/
def headerRest (spillId captured : Line) (result : List Char) : List Char :=
  " — spilled tool result".toList ++ ('\n' :: '\n' :: ("- id: `".toList ++ (spillId.chars ++ ("`".toList ++
    ('\n' :: ("- captured: ".toList ++ (captured.chars ++
      ('\n' :: ("- length: ".toList ++ ((Text.thousands result.length).toList ++ " chars".toList))))))))))

/-- `_document`. -/
def document (toolName : List Char) (spillId captured : Line) (result : List Char) : List Char :=
  "# ".toList ++ (toolName ++ (headerRest spillId captured result ++ (separator ++ result)))

/-- Reading in text mode: `\r\n` and `\r` are read as `\n`. -/
def universalNewlines : List Char → List Char
  | [] => []
  | '\r' :: '\n' :: cs => '\n' :: universalNewlines cs
  | '\r' :: cs => '\n' :: universalNewlines cs
  | c :: cs => c :: universalNewlines cs

/-- `_read_path` of a file with this content. A file without a separator is
read as JSON, which `legacy` stands for. -/
def readPath (legacy : List Char → Option (List Char)) (file : List Char) : Option (List Char) :=
  let text := universalNewlines file
  match afterFirst separator text with
  | some body => some body
  | none => legacy text

/-- What is digested: the tool name and the body with a null between them. -/
def digestInput (toolName body : List Char) : List Char := toolName ++ '\x00' :: body

/-- One scope: its files by their digests. -/
abbrev Files := List Char → Option (List Char)

/-- A call of `write`, at the time it captures; or one that is refused. -/
inductive Event
  | write (toolName body : List Char) (captured : Line)
  | refused (toolName body : List Char)

/-- `write`, to the digest of the file. -/
def step (sha : List Char → Line) (files : Files) : Event → Files
  | .write toolName body captured =>
    let digest := sha (digestInput toolName body)
    if (files digest.chars).isSome then files
    else Function.update files digest.chars (some (document toolName digest captured body))
  | .refused _ _ => files

def run (sha : List Char → Line) (events : List Event) : Files := events.foldl (step sha) fun _ => none

/-- `read` of the path `write` returned. -/
def read (sha : List Char → Line) (legacy : List Char → Option (List Char)) (files : Files)
    (toolName body : List Char) : Option (List Char) :=
  (files (sha (digestInput toolName body)).chars).bind (readPath legacy)

/-- The tool names and bodies a list of calls has written. -/
def written (events : List Event) : Set (List Char × List Char) :=
  { w | ∃ captured, Event.write w.1 w.2 captured ∈ events }

/-! ### Line endings -/

theorem universalNewlines_cons {c : Char} (h : c ≠ '\r') (cs : List Char) :
    universalNewlines (c :: cs) = c :: universalNewlines cs := by
  rw [universalNewlines]
  · rintro _ rfl
    exact absurd rfl h
  · rintro rfl
    exact absurd rfl h

theorem cr_notMem_universalNewlines (cs : List Char) : '\r' ∉ universalNewlines cs := by
  fun_induction universalNewlines cs with
  | case1 => exact List.not_mem_nil
  | case2 cs ih => exact List.not_mem_cons_of_ne_of_not_mem (by decide) ih
  | case3 cs _ ih => exact List.not_mem_cons_of_ne_of_not_mem (by decide) ih
  | case4 c cs _ hc ih => exact List.not_mem_cons_of_ne_of_not_mem (fun h => hc h.symm) ih

/-- A text without carriage returns is read as it is. -/
theorem universalNewlines_append_left {front : List Char} (h : '\r' ∉ front) (rest : List Char) :
    universalNewlines (front ++ rest) = front ++ universalNewlines rest := by
  induction front with
  | nil => rfl
  | cons c cs ih =>
    rw [List.mem_cons, not_or] at h
    rw [List.cons_append, universalNewlines_cons (fun hc => h.1 hc.symm), ih h.2, List.cons_append]

theorem universalNewlines_eq_self_iff {cs : List Char} : universalNewlines cs = cs ↔ '\r' ∉ cs := by
  constructor
  · intro h
    rw [← h]
    exact cr_notMem_universalNewlines cs
  · intro h
    have happend := universalNewlines_append_left h []
    rwa [List.append_nil, universalNewlines, List.append_nil] at happend

/-- A line ending does not run over into a text that begins otherwise. -/
theorem universalNewlines_append {c : Char} (hc : c ≠ '\n') (front rest : List Char) :
    universalNewlines (front ++ c :: rest) = universalNewlines front ++ universalNewlines (c :: rest) := by
  fun_induction universalNewlines front with
  | case1 => rfl
  | case2 cs ih => rw [List.cons_append, List.cons_append, universalNewlines, ih, List.cons_append]
  | case3 cs hcs ih =>
    rw [List.cons_append, universalNewlines, ih, List.cons_append]
    intro cs' hcs'
    rcases cs with _ | ⟨d, ds⟩
    · exact hc (List.cons.inj hcs').1
    · exact hcs ds (by rw [(List.cons.inj hcs').1])
  | case4 d cs _ hd ih => rw [List.cons_append, universalNewlines_cons hd, ih, List.cons_append]

/-! ### Documents -/

theorem mem_groupDigits {c : Char} : ∀ {n : ℕ} {cs : List Char}, c ∈ Text.groupDigits n cs → c ∈ cs ∨ c = ',' := by
  intro n cs h
  fun_induction Text.groupDigits n cs with
  | case1 => exact .inl h
  | case2 d cs ih =>
    rcases List.mem_cons.mp h with rfl | h
    · exact .inr rfl
    · rcases List.mem_cons.mp h with rfl | h
      · exact .inl List.mem_cons_self
      · exact (ih h).imp_left (List.mem_cons_of_mem _)
  | case3 n d cs _ ih =>
    rcases List.mem_cons.mp h with rfl | h
    · exact .inl List.mem_cons_self
    · exact (ih h).imp_left (List.mem_cons_of_mem _)

/-- The number of characters is written on one line. -/
theorem thousands_line (n : ℕ) : '\n' ∉ (Text.thousands n).toList ∧ '\r' ∉ (Text.thousands n).toList := by
  have hdigits : ∀ c ∈ (Text.thousands n).toList, c.isDigit = true ∨ c = ',' := by
    intro c hc
    rw [Text.thousands, String.toList_ofList, List.mem_reverse] at hc
    rcases mem_groupDigits hc with hc | hc
    · rw [List.mem_reverse, Nat.toString_eq_ofList_toDigits, String.toList_ofList] at hc
      exact .inl (Nat.isDigit_of_mem_toDigits (by decide) (by decide) hc)
    · exact .inr hc
  exact ⟨fun h => by simpa using hdigits _ h, fun h => by simpa using hdigits _ h⟩

theorem separator_eq : separator = ['\n', '-', '-', '-', '\n', '\n'] := by decide

theorem separator_ne_nil : separator ≠ [] := by
  rw [separator_eq]
  exact List.cons_ne_nil _ _

theorem cr_notMem_headerRest (spillId captured : Line) (result : List Char) :
    '\r' ∉ headerRest spillId captured result := by
  have hdigits := (thousands_line result.length).2
  have htitle : '\r' ∉ " — spilled tool result".toList := by decide +kernel
  have hid : '\r' ∉ "- id: `".toList := by decide +kernel
  have hcaptured : '\r' ∉ "- captured: ".toList := by decide +kernel
  have hlength : '\r' ∉ "- length: ".toList := by decide +kernel
  have hlf : ∀ {cs : List Char}, '\r' ∉ cs → '\r' ∉ '\n' :: cs := List.not_mem_cons_of_ne_of_not_mem (by decide)
  unfold headerRest
  refine List.not_mem_append htitle (hlf (hlf (List.not_mem_append hid (List.not_mem_append spillId.no_cr ?_))))
  refine List.not_mem_append (by decide) (hlf (List.not_mem_append hcaptured (List.not_mem_append captured.no_cr ?_)))
  exact hlf (List.not_mem_append hlength (List.not_mem_append hdigits (by decide)))

/-- A document as it is read: only the tool name and the body change. -/
theorem universalNewlines_document (toolName : List Char) (spillId captured : Line) (result : List Char) :
    universalNewlines (document toolName spillId captured result) =
      "# ".toList ++ (universalNewlines toolName ++ (headerRest spillId captured result ++
        (separator ++ universalNewlines result))) := by
  have hhead : '\r' ∉ "# ".toList := by decide
  have hsep : '\r' ∉ separator := by decide
  have hrest := cr_notMem_headerRest spillId captured result
  obtain ⟨cs, hcs⟩ : ∃ cs, headerRest spillId captured result = ' ' :: cs := ⟨_, rfl⟩
  rw [document, universalNewlines_append_left hhead, hcs, List.cons_append, universalNewlines_append (by decide),
    ← List.cons_append, ← hcs, universalNewlines_append_left hrest, universalNewlines_append_left hsep]

/-- No separator begins at a line feed unless a rule follows it. -/
theorem not_separator_of_line {c d : Char} (h : ¬ (c = '-' ∧ d = '-')) (rest : List Char) :
    ¬ separator <+: '\n' :: c :: d :: rest := by
  intro hpre
  rw [separator_eq, List.cons_prefix_cons, List.cons_prefix_cons, List.cons_prefix_cons] at hpre
  exact h ⟨hpre.2.1.symm, hpre.2.2.1.symm⟩

theorem clear_of_line {line : List Char} (h : '\n' ∉ line) (rest : List Char) : Clear separator line rest := by
  rw [separator_eq]
  exact Clear.of_notMem h

/-- No separator begins behind the tool name. -/
theorem clear_headerRest (spillId captured : Line) (result rest : List Char) :
    Clear separator (headerRest spillId captured result) rest := by
  have htitle : '\n' ∉ " — spilled tool result".toList := by decide +kernel
  have hid : '\n' ∉ "- id: `".toList := by decide +kernel
  have hcaptured : '\n' ∉ "- captured: ".toList := by decide +kernel
  have hlength : '\n' ∉ "- length: ".toList := by decide +kernel
  have hlast : '\n' ∉ (Text.thousands result.length).toList ++ " chars".toList := by
    rw [List.mem_append, not_or]
    exact ⟨(thousands_line result.length).1, by decide⟩
  unfold headerRest
  refine (clear_of_line htitle _).append (Clear.cons (not_separator_of_line (by decide) _) ?_)
  refine Clear.cons (not_separator_of_line (c := '-') (d := ' ') (by decide) _) ?_
  refine (clear_of_line hid _).append ((clear_of_line spillId.no_lf _).append ?_)
  refine (clear_of_line (by decide) _).append ?_
  refine Clear.cons (not_separator_of_line (c := '-') (d := ' ') (by decide) _) ?_
  refine (clear_of_line hcaptured _).append ((clear_of_line captured.no_lf _).append ?_)
  refine Clear.cons (not_separator_of_line (c := '-') (d := ' ') (by decide) _) ?_
  exact (clear_of_line hlength _).append (clear_of_line hlast _)

/-- **One file** gives its body back exactly if the body has no carriage return
and the tool name, as it is read, no separator. -/
theorem readPath_document {legacy : List Char → Option (List Char)} {toolName body : List Char}
    {spillId captured : Line} :
    readPath legacy (document toolName spillId captured body) = some body ↔
      '\r' ∉ body ∧ ¬ separator <:+: universalNewlines toolName := by
  have hread : ∀ {found : List Char},
      afterFirst separator (universalNewlines (document toolName spillId captured body)) = some found →
        readPath legacy (document toolName spillId captured body) = some found := by
    intro found hfound
    rw [readPath, hfound]
  obtain ⟨cs, hcs⟩ : ∃ cs, headerRest spillId captured body = ' ' :: cs := ⟨_, rfl⟩
  by_cases hinfix : separator <:+: universalNewlines toolName
  · refine iff_of_false (fun h => ?_) (fun h => h.2 hinfix)
    obtain ⟨front, rest, hname⟩ := hinfix
    -- the first separator stands in the tool name, so more than the body is found
    have hdoc : universalNewlines (document toolName spillId captured body) =
        ("# ".toList ++ front) ++ (separator ++ (rest ++ (headerRest spillId captured body ++
          (separator ++ universalNewlines body)))) := by
      rw [universalNewlines_document, ← hname]
      simp only [List.append_assoc]
    obtain ⟨found, hfound, hsuffix, hfrom⟩ := afterFirst_suffix separator_ne_nil ("# ".toList ++ front)
      (rest ++ (headerRest spillId captured body ++ (separator ++ universalNewlines body)))
    rw [← hdoc] at hfound hfrom
    obtain rfl : found = body := Option.some.inj ((hread hfound).symm.trans h)
    have hcr : '\r' ∉ found := fun hmem => cr_notMem_universalNewlines _ (hfrom.subset hmem)
    have hlen := hsuffix.length_le
    rw [universalNewlines_eq_self_iff.mpr hcr, hcs] at hlen
    simp only [List.length_append, List.length_cons] at hlen
    omega
  · have hclear : Clear separator ("# ".toList ++ (universalNewlines toolName ++ headerRest spillId captured body))
        (separator ++ universalNewlines body) := by
      refine (clear_of_line (by decide) _).append (Clear.append ?_ (clear_headerRest _ _ _ _))
      rw [hcs, List.cons_append]
      exact Clear.of_not_infix hinfix (by decide)
    have hfound : afterFirst separator (universalNewlines (document toolName spillId captured body)) =
        some (universalNewlines body) := by
      have hdoc : universalNewlines (document toolName spillId captured body) =
          ("# ".toList ++ (universalNewlines toolName ++ headerRest spillId captured body)) ++
            (separator ++ universalNewlines body) := by
        rw [universalNewlines_document]
        simp only [List.append_assoc]
      rw [hdoc, afterFirst_of_clear hclear, afterFirst_self separator_ne_nil]
    rw [hread hfound, Option.some.injEq, universalNewlines_eq_self_iff]
    exact ⟨fun h => ⟨h, hinfix⟩, fun h => h.1⟩

/-! ### Whole runs -/

/-- Every file is the document of a write, and every write has its file. -/
structure Kept (sha : List Char → Line) (events : List Event) (files : Files) : Prop where
  isDocument : ∀ digest file, files digest = some file → ∃ toolName body captured,
    Event.write toolName body captured ∈ events ∧ (sha (digestInput toolName body)).chars = digest ∧
      file = document toolName (sha (digestInput toolName body)) captured body
  isKept : ∀ toolName body captured, Event.write toolName body captured ∈ events →
    (files (sha (digestInput toolName body)).chars).isSome

/-- **One call** keeps the files there are. -/
theorem Kept.step {sha : List Char → Line} {events : List Event} {files : Files} (h : Kept sha events files)
    (e : Event) : Kept sha (events ++ [e]) (step sha files e) := by
  have hold : ∀ digest file, files digest = some file → ∃ toolName body captured,
      Event.write toolName body captured ∈ events ++ [e] ∧ (sha (digestInput toolName body)).chars = digest ∧
        file = document toolName (sha (digestInput toolName body)) captured body := by
    intro digest file hfile
    obtain ⟨toolName, body, captured, hmem, hrest⟩ := h.isDocument digest file hfile
    exact ⟨toolName, body, captured, List.mem_append_left _ hmem, hrest⟩
  cases e with
  | refused toolName body =>
    refine ⟨hold, fun t b ts hmem => ?_⟩
    rcases List.mem_append.mp hmem with hmem | hmem
    · exact h.isKept t b ts hmem
    · cases List.mem_singleton.mp hmem
  | write toolName body captured =>
    unfold Spill.step
    dsimp only
    by_cases hsome : (files (sha (digestInput toolName body)).chars).isSome = true
    · rw [if_pos hsome]
      refine ⟨hold, fun t b ts hmem => ?_⟩
      rcases List.mem_append.mp hmem with hmem | hmem
      · exact h.isKept t b ts hmem
      · cases List.mem_singleton.mp hmem
        exact hsome
    · rw [if_neg hsome]
      constructor
      · intro digest file hfile
        by_cases hdigest : digest = (sha (digestInput toolName body)).chars
        · subst hdigest
          rw [Function.update_self, Option.some.injEq] at hfile
          exact ⟨toolName, body, captured, List.mem_append_right _ (List.mem_singleton_self _), rfl, hfile.symm⟩
        · rw [Function.update_of_ne hdigest] at hfile
          exact hold digest file hfile
      · intro t b ts hmem
        by_cases hdigest : (sha (digestInput t b)).chars = (sha (digestInput toolName body)).chars
        · rw [hdigest, Function.update_self]
          rfl
        · rw [Function.update_of_ne hdigest]
          rcases List.mem_append.mp hmem with hmem | hmem
          · exact h.isKept t b ts hmem
          · cases List.mem_singleton.mp hmem
            exact absurd rfl hdigest

theorem Kept.run (sha : List Char → Line) (events : List Event) : Kept sha events (run sha events) := by
  induction events using List.reverseRecOn with
  | nil => exact ⟨by simp [Spill.run], by simp⟩
  | append_singleton events e ih =>
    unfold Spill.run
    rw [List.foldl_append, List.foldl_cons, List.foldl_nil]
    exact ih.step e

/-- **Reading back what was spilled.** After any calls in which no two tool names
and bodies share a digest, and for any of their writes: the body is read back,
and not the body of another write in its place, exactly if the body has no
carriage return and the tool name, as it is read, no separator. -/
theorem spill_round_trip (sha : List Char → Line) (legacy : List Char → Option (List Char)) (events : List Event)
    (hsha : Set.InjOn (fun w => (sha (digestInput w.1 w.2)).chars) (written events))
    (toolName body : List Char) (captured : Line) (hwrite : Event.write toolName body captured ∈ events) :
    (read sha legacy (run sha events) toolName body = some body ∧
        ∀ toolName' body' captured', Event.write toolName' body' captured' ∈ events → body' ≠ body →
          read sha legacy (run sha events) toolName body ≠ some body') ↔
      '\r' ∉ body ∧ ¬ separator <:+: universalNewlines toolName := by
  have hkept := Kept.run sha events
  obtain ⟨file, hfile⟩ := Option.isSome_iff_exists.mp (hkept.isKept toolName body captured hwrite)
  obtain ⟨t, b, ts, hmem, hdigest, rfl⟩ := hkept.isDocument _ _ hfile
  have hsame : (t, b) = (toolName, body) := hsha ⟨ts, hmem⟩ ⟨captured, hwrite⟩ hdigest
  cases hsame
  have hread : read sha legacy (run sha events) toolName body =
      readPath legacy (document toolName (sha (digestInput toolName body)) ts body) := by
    rw [read, hfile, Option.bind_some]
  have hdocument := @readPath_document legacy toolName body (sha (digestInput toolName body)) ts
  rw [hread, ← hdocument]
  constructor
  · exact fun h => h.1
  · intro h
    refine ⟨h, fun _ body' _ _ hne heq => ?_⟩
    rw [h, Option.some.injEq] at heq
    exact hne heq.symm

def line (s : String) (h : '\n' ∉ s.toList ∧ '\r' ∉ s.toList) : Line := ⟨s.toList, h.1, h.2⟩

/-- The digests of four texts. -/
def someDigests (text : List Char) : Line :=
  if text = "ls\x00ok".toList then line "8f2ce521a36af4f9" (by decide +kernel)
  else if text = "ls\x00no".toList then line "a065f0232cb6fe24" (by decide +kernel)
  else if text = "ls\x00a\rb".toList then line "66ae852cf7b5f8f8" (by decide +kernel)
  else line "30583c57cfc2c527" (by decide +kernel)

def noon : Line := line "2026-01-01T12:00:00+0000" (by decide +kernel)

def noLegacy (_ : List Char) : Option (List Char) := none

def twoWrites : List Event :=
  [.write "ls".toList "ok".toList noon, .refused "ls".toList "ok".toList, .write "ls".toList "no".toList noon]

theorem mem_written_twoWrites {w : List Char × List Char} (h : w ∈ written twoWrites) :
    w = ("ls".toList, "ok".toList) ∨ w = ("ls".toList, "no".toList) := by
  obtain ⟨ts, h⟩ := h
  simp only [twoWrites, List.mem_cons, List.not_mem_nil, or_false, Event.write.injEq, reduceCtorEq, false_or] at h
  rcases h with ⟨ht, hb, -⟩ | ⟨ht, hb, -⟩
  · exact .inl (Prod.ext ht hb)
  · exact .inr (Prod.ext ht hb)

theorem spill_round_trip_twoWrites :
    read someDigests noLegacy (run someDigests twoWrites) "ls".toList "ok".toList = some "ok".toList ∧
      "ok".toList ≠ "no".toList := by
  have hsha : Set.InjOn (fun w => (someDigests (digestInput w.1 w.2)).chars) (written twoWrites) := by
    intro w hw w' hw' heq
    have hne : (someDigests (digestInput "ls".toList "ok".toList)).chars ≠
        (someDigests (digestInput "ls".toList "no".toList)).chars := by decide +kernel
    rcases mem_written_twoWrites hw with rfl | rfl <;> rcases mem_written_twoWrites hw' with rfl | rfl
    · rfl
    · exact absurd heq hne
    · exact absurd heq.symm hne
    · rfl
  have hname : ¬ separator <:+: universalNewlines "ls".toList := by
    intro hinfix
    exact absurd hinfix.length_le (by decide +kernel)
  refine ⟨((spill_round_trip someDigests noLegacy twoWrites hsha _ _ noon List.mem_cons_self).mpr ⟨?_, hname⟩).1, ?_⟩
  · decide
  · decide

/-- The digest of one text more. -/
def anotherDigest (_ : List Char) : Line := line "d12a01e89931657c" (by decide +kernel)

/-- A carriage return comes back as a line feed, so that reading the first path
returns the second body; and a tool name with a separator in it comes back with
the body. -/
theorem spill_changes_lineEndings :
    read someDigests noLegacy
        (run someDigests [.write "ls".toList "a\rb".toList noon, .write "ls".toList "a\nb".toList noon])
        "ls".toList "a\rb".toList = some "a\nb".toList ∧
      read anotherDigest noLegacy (run anotherDigest [.write "x\n---\n\ny".toList "ok".toList noon])
        "x\n---\n\ny".toList "ok".toList ≠ some "ok".toList :=
  ⟨by decide +kernel, by decide +kernel⟩

end Spill
end AgentCore
