/-
# Writing a spill file, step by step

`SpillStore.write` as the operating system sees it: the directory is made, the
destination is looked at, a temporary file is written and renamed. Each step may
fail. The errors of the last two are caught and end in no path; the ones before,
and the error that a lone surrogate of the body makes when the temporary file is
encoded, leave the function.

A Python text is a list of characters and lone surrogates. A file holds
characters only. The directory that is made, its modes and the log are left out,
and the document builder is the default one.

Whatever the steps come to, the files change as the store model of `Spill` says:
by one whole document, or not at all.

Key definitions: `Os`, `Disk`, `write`, `TotalAndClean`, `Unhindered`.
Key theorems: `write_total_and_clean_iff`, `returned_path_reads`.
-/
import AgentCore.Spill

namespace AgentCore.SpillWrite

open Spill

inductive PyChar
  | char (c : Char)
  | surrogate (n : Fin 2048)
  deriving DecidableEq, Repr

abbrev PyText := List PyChar

/-- `encode("utf-8")`, as the characters that are encoded; `none` where it raises. -/
def encode : PyText → Option (List Char)
  | [] => some []
  | .char c :: t => (encode t).map (c :: ·)
  | .surrogate _ :: _ => none

/-- `encode("utf-8", "replace")`. -/
def encodeReplace (t : PyText) : List Char :=
  t.map fun
    | .char c => c
    | .surrogate _ => '?'

inductive PyError
  | osError | unicodeEncodeError
  deriving DecidableEq, Repr

/-- What the operating system answers in one call of `write`. An answer of
`none` is an error, and so is a `false` of a step that asks for nothing. -/
structure Os where
  rootMade : Bool := true
  directoryIsSymlink : Option Bool := some false
  directoryMade : Bool := true
  directoryInside : Option Bool := some true
  pathIsSymlink : Option Bool := some false
  pathStat : Bool := true
  tmpOpened : Bool := true
  /-- How many characters reach the temporary file where writing it fails. -/
  tmpCutAt : Option ℕ := none
  replaced : Bool := true
  unlinked : Bool := true
  tmpName : List Char
  captured : Line

/-- The directory of one scope: its files by their digests, and the temporary
ones by their names. -/
structure Disk where
  files : Files
  temps : List Char → Option (List Char)

inductive WriteResult
  | path (digest : List Char) (ref : String)
  | refused
  | raised (e : PyError)

variable (sha : List Char → Line)

/-- `_ensure_directory`. -/
def ensureDirectory (os : Os) : Except PyError Unit :=
  if os.rootMade = false then .error .osError
  else
    match os.directoryIsSymlink with
    | none => .error .osError
    | some true => .error .osError
    | some false =>
      if os.directoryMade = false then .error .osError
      else
        match os.directoryInside with
        | some true => .ok ()
        | _ => .error .osError

/-- `tmp.write_text(…, encoding="utf-8")`: the file is opened, and only then the
text encoded. -/
def writeText (os : Os) (content : Option (List Char)) (disk : Disk) : Except PyError Unit × Disk :=
  if os.tmpOpened = false then (.error .osError, disk)
  else
    match content with
    | none => (.error .unicodeEncodeError, { disk with temps := Function.update disk.temps os.tmpName (some []) })
    | some text =>
      match os.tmpCutAt with
      | some n => (.error .osError, { disk with temps := Function.update disk.temps os.tmpName (some (text.take n)) })
      | none => (.ok (), { disk with temps := Function.update disk.temps os.tmpName (some text) })

/-- `os.replace(tmp, path)`. -/
def replaceTmp (os : Os) (digest : List Char) (disk : Disk) : Except PyError Unit × Disk :=
  if os.replaced = false then (.error .osError, disk)
  else (.ok (), { files := Function.update disk.files digest (disk.temps os.tmpName)
                  temps := Function.update disk.temps os.tmpName none })

/-- `tmp.unlink()`, its own error suppressed. -/
def unlinkTmp (os : Os) (disk : Disk) : Disk :=
  if os.unlinked = false then disk else { disk with temps := Function.update disk.temps os.tmpName none }

/-- `except OSError`. -/
def handle (os : Os) (e : PyError) (disk : Disk) : Except PyError Bool × Disk :=
  match e with
  | .osError => (.ok false, unlinkTmp os disk)
  | .unicodeEncodeError => (.error .unicodeEncodeError, disk)

/-- The `try` block: whether the file stands under its digest now. -/
def storeNew (os : Os) (digest : List Char) (content : Option (List Char)) (disk : Disk) : Except PyError Bool × Disk :=
  match writeText os content disk with
  | (.error e, disk) => handle os e disk
  | (.ok _, disk) =>
    match replaceTmp os digest disk with
    | (.error e, disk) => handle os e disk
    | (.ok _, disk) => (.ok true, disk)

/-- The document as it is encoded; what is not of the tool name or the body has
no surrogates. -/
def encodedDocument (toolName : List Char) (digest captured : Line) (body : PyText) : Option (List Char) :=
  (encode body).map (document toolName digest captured)

/-- The digest of a call whose tool name has been encoded. -/
def digestOf (toolName : List Char) (body : PyText) : Line := sha (digestInput toolName (encodeReplace body))

/-- What is returned for a file that is there. -/
def pathResult (visible : Option String) (digest : List Char) : WriteResult :=
  .path digest (visible.elim "" fun root => root ++ "/" ++ String.ofList digest ++ ".md")

/-- `write`, from the look at the destination on. -/
def writeAt (visible : Option String) (os : Os) (toolName : List Char) (body : PyText) (disk : Disk) :
    WriteResult × Disk :=
  let digest := digestOf sha toolName body
  match os.pathIsSymlink with
  | none => (.raised .osError, disk)
  | some true => (.refused, disk)
  | some false =>
    if os.pathStat = false then (.raised .osError, disk)
    else if (disk.files digest.chars).isSome then (pathResult visible digest.chars, disk)
    else
      match storeNew os digest.chars (encodedDocument toolName digest os.captured body) disk with
      | (.error e, disk) => (.raised e, disk)
      | (.ok false, disk) => (.refused, disk)
      | (.ok true, disk) => (pathResult visible digest.chars, disk)

/-- `SpillStore.write`. -/
def write (visible : Option String) (requireVisible : Bool) (os : Os) (toolName body : PyText) (disk : Disk) :
    WriteResult × Disk :=
  if requireVisible = true ∧ visible = none then (.refused, disk)
  else
    match ensureDirectory os with
    | .error e => (.raised e, disk)
    | .ok _ =>
      match encode toolName with
      | none => (.raised .unicodeEncodeError, disk)
      | some name => writeAt sha visible os name body disk

/-! ### What it should do -/

/-- No file is there that was not there before. -/
structure NoNewFile (before after : Disk) : Prop where
  files : after.files = before.files
  temps : ∀ name, (after.temps name).isSome → (before.temps name).isSome

/-- A path or none, and without a path no new file, where unlinking succeeds. -/
structure TotalAndClean (os : Os) (disk : Disk) (r : WriteResult × Disk) : Prop where
  total : ∀ e, r.1 ≠ .raised e
  clean : os.unlinked = true → (∀ digest ref, r.1 ≠ .path digest ref) → NoNewFile disk r.2

def DirectoryReady (os : Os) : Prop :=
  os.rootMade = true ∧ os.directoryIsSymlink = some false ∧ os.directoryMade = true ∧ os.directoryInside = some true

/-- The destination can be looked at, and a body with a lone surrogate does not
get as far as an open temporary file. -/
def DestinationReady (os : Os) (name : List Char) (body : PyText) (disk : Disk) : Prop :=
  os.pathIsSymlink = some true ∨
    (os.pathIsSymlink = some false ∧ os.pathStat = true ∧
      ((disk.files (digestOf sha name body).chars).isSome ∨ os.tmpOpened = false ∨ (encode body).isSome))

/-- Nothing goes wrong outside the `try` block, and no encoding error in it. -/
def Unhindered (visible : Option String) (requireVisible : Bool) (os : Os) (toolName body : PyText) (disk : Disk) :
    Prop :=
  (requireVisible = true ∧ visible = none) ∨
    (DirectoryReady os ∧ ∃ name, encode toolName = some name ∧ DestinationReady sha os name body disk)

/-! ### The steps -/

variable {sha} {os : Os} {disk : Disk}

theorem ensureDirectory_ok_iff : ensureDirectory os = .ok () ↔ DirectoryReady os := by
  unfold ensureDirectory DirectoryReady
  cases os.rootMade with
  | false => simp
  | true =>
    cases os.directoryIsSymlink with
    | none => simp
    | some symlink =>
      cases symlink with
      | true => simp
      | false =>
        cases os.directoryMade with
        | false => simp
        | true =>
          cases os.directoryInside with
          | none => simp
          | some inside => cases inside <;> simp

theorem NoNewFile.refl (disk : Disk) : NoNewFile disk disk := ⟨rfl, fun _ h => h⟩

/-- Unlinking takes away what was written to the temporary file. -/
theorem noNewFile_unlink (h : os.unlinked = true) (content : Option (List Char)) :
    NoNewFile disk (unlinkTmp os { disk with temps := Function.update disk.temps os.tmpName content }) := by
  unfold unlinkTmp
  rw [if_neg (by simp [h])]
  refine ⟨rfl, fun name hname => ?_⟩
  by_cases hn : name = os.tmpName
  · subst hn
    simp at hname
  · simpa [Function.update_of_ne hn] using hname

theorem noNewFile_unlink_self (h : os.unlinked = true) : NoNewFile disk (unlinkTmp os disk) := by
  have hself := @noNewFile_unlink os disk h (disk.temps os.tmpName)
  rwa [Function.update_eq_self] at hself

/-- The `try` block, by how it ends: the file is stored; an encoding error leaves
an empty temporary file; or it fails, and what it leaves is unlinked. -/
theorem storeNew_cases (digest : List Char) (content : Option (List Char)) :
    (∃ text, content = some text ∧ storeNew os digest content disk =
      (.ok true, { files := Function.update disk.files digest (some text)
                   temps := Function.update disk.temps os.tmpName none })) ∨
    (content = none ∧ os.tmpOpened = true ∧ storeNew os digest content disk =
      (.error .unicodeEncodeError, { disk with temps := Function.update disk.temps os.tmpName (some []) })) ∨
    ((os.tmpOpened = false ∨ content.isSome) ∧ ∃ left : Disk, storeNew os digest content disk = (.ok false, left) ∧
      left.files = disk.files ∧ (os.unlinked = true → NoNewFile disk left)) := by
  unfold storeNew writeText
  by_cases hopen : os.tmpOpened = false
  · rw [if_pos hopen]
    refine .inr (.inr ⟨.inl hopen, unlinkTmp os disk, rfl, ?_, noNewFile_unlink_self⟩)
    unfold unlinkTmp
    split <;> rfl
  rw [if_neg hopen]
  cases content with
  | none => exact .inr (.inl ⟨rfl, by simpa using hopen, rfl⟩)
  | some text =>
    cases hcut : os.tmpCutAt with
    | some n =>
      refine .inr (.inr ⟨.inr rfl, _, rfl, ?_, fun h => noNewFile_unlink h (some (text.take n))⟩)
      unfold unlinkTmp
      split <;> rfl
    | none =>
      unfold replaceTmp
      by_cases hreplaced : os.replaced = false
      · simp only [hreplaced, if_true]
        refine .inr (.inr ⟨.inr rfl, _, rfl, ?_, fun h => noNewFile_unlink h (some text)⟩)
        unfold unlinkTmp
        split <;> rfl
      · rw [Bool.not_eq_false] at hreplaced
        refine .inl ⟨text, rfl, ?_⟩
        simp only [hreplaced, Bool.true_eq_false, if_false, Function.update_self, Function.update_idem]

theorem TotalAndClean.of_path (digest : List Char) (ref : String) (after : Disk) :
    TotalAndClean os disk (.path digest ref, after) :=
  ⟨fun _ h => (by cases h), fun _ hno => absurd rfl (hno digest ref)⟩

theorem TotalAndClean.of_refused {after : Disk} (h : os.unlinked = true → NoNewFile disk after) :
    TotalAndClean os disk (.refused, after) :=
  ⟨fun _ h => (by cases h), fun hunlinked _ => h hunlinked⟩

theorem not_totalAndClean_raised (e : PyError) (after : Disk) : ¬TotalAndClean os disk (.raised e, after) :=
  fun h => h.total e rfl

theorem encodedDocument_isSome {name : List Char} {digest captured : Line} {body : PyText} :
    (encodedDocument name digest captured body).isSome ↔ (encode body).isSome := by
  unfold encodedDocument
  rw [Option.isSome_map]

theorem writeAt_total_and_clean_iff (visible : Option String) (name : List Char) (body : PyText) :
    TotalAndClean os disk (writeAt sha visible os name body disk) ↔ DestinationReady sha os name body disk := by
  unfold writeAt DestinationReady
  cases hsymlink : os.pathIsSymlink with
  | none => exact iff_of_false (not_totalAndClean_raised _ _) (by simp)
  | some symlink =>
    cases symlink with
    | true => exact iff_of_true (.of_refused fun _ => .refl disk) (.inl rfl)
    | false =>
      dsimp only
      by_cases hstat : os.pathStat = false
      · rw [if_pos hstat]
        exact iff_of_false (not_totalAndClean_raised _ _) (by simp [hstat])
      rw [if_neg hstat]
      by_cases hexists : (disk.files (digestOf sha name body).chars).isSome = true
      · rw [if_pos hexists]
        exact iff_of_true (.of_path _ _ _) (.inr ⟨rfl, by simpa using hstat, .inl hexists⟩)
      rw [if_neg hexists]
      obtain ⟨text, htext, hstored⟩ | ⟨hnone, hopen, hraised⟩ | ⟨hready, left, hfailed, -, hclean⟩ :=
        @storeNew_cases os disk (digestOf sha name body).chars
          (encodedDocument name (digestOf sha name body) os.captured body)
      · rw [hstored]
        have hbody : (encode body).isSome := encodedDocument_isSome.mp (Option.isSome_iff_exists.mpr ⟨text, htext⟩)
        exact iff_of_true (.of_path _ _ _) (.inr ⟨rfl, by simpa using hstat, .inr (.inr hbody)⟩)
      · rw [hraised]
        have hbody : ¬(encode body).isSome := by
          rw [← @encodedDocument_isSome name, hnone]
          exact Bool.false_ne_true
        refine iff_of_false (not_totalAndClean_raised _ _) ?_
        simp [hexists, hopen, hbody]
      · rw [hfailed]
        refine iff_of_true (.of_refused hclean) (.inr ⟨rfl, by simpa using hstat, .inr ?_⟩)
        exact hready.imp_right encodedDocument_isSome.mp

/-- A write is total and clean exactly where nothing fails outside the `try`
block and no lone surrogate is met. -/
theorem write_total_and_clean_iff (sha : List Char → Line) (visible : Option String) (requireVisible : Bool) (os : Os)
    (toolName body : PyText) (disk : Disk) :
    TotalAndClean os disk (write sha visible requireVisible os toolName body disk) ↔
      Unhindered sha visible requireVisible os toolName body disk := by
  unfold write Unhindered
  by_cases hinvisible : requireVisible = true ∧ visible = none
  · rw [if_pos hinvisible]
    exact iff_of_true (.of_refused fun _ => .refl disk) (.inl hinvisible)
  rw [if_neg hinvisible]
  cases hdirectory : ensureDirectory os with
  | error e =>
    refine iff_of_false (not_totalAndClean_raised _ _) ?_
    rintro (hinvisible' | ⟨hready, -⟩)
    · exact hinvisible hinvisible'
    · rw [ensureDirectory_ok_iff.mpr hready] at hdirectory
      cases hdirectory
  | ok u =>
    have hready : DirectoryReady os := ensureDirectory_ok_iff.mp hdirectory
    cases hname : encode toolName with
    | none =>
      refine iff_of_false (not_totalAndClean_raised _ _) ?_
      rintro (hinvisible' | ⟨-, name, hsome, -⟩)
      · exact hinvisible hinvisible'
      · cases hsome
    | some name =>
      dsimp only
      rw [writeAt_total_and_clean_iff]
      refine ⟨fun h => .inr ⟨hready, name, rfl, h⟩, ?_⟩
      rintro (hinvisible' | ⟨-, name', hsome, h⟩)
      · exact absurd hinvisible' hinvisible
      · cases hsome
        exact h

/-- A directory in which every step succeeds. -/
def calm : Os := { tmpName := "tmp".toList, captured := noon }

/-- A lone surrogate in a body raises, and an empty temporary file stays. -/
theorem surrogate_body_raises :
    ¬∀ (sha : List Char → Line) (visible : Option String) (requireVisible : Bool) (os : Os) (toolName body : PyText)
        (disk : Disk), TotalAndClean os disk (write sha visible requireVisible os toolName body disk) := by
  intro h
  have hclean := h (fun _ => noon) none false calm [.char 'l'] [.surrogate 0] ⟨fun _ => none, fun _ => none⟩
  exact hclean.total .unicodeEncodeError rfl

/-! ### Whole runs -/

theorem encodeReplace_of_encode : ∀ {body : PyText} {text : List Char}, encode body = some text →
    encodeReplace body = text
  | [], _, h => by
    cases h
    rfl
  | .char c :: body, text, h => by
    unfold encode at h
    obtain ⟨rest, hrest, rfl⟩ := Option.map_eq_some_iff.mp h
    show c :: encodeReplace body = c :: rest
    rw [encodeReplace_of_encode hrest]
  | .surrogate n :: body, text, h => by cases h

/-- What a call comes to in the store model: its own write where it returns a path, and its own
write or a refused one where it does not. -/
structure ComesTo (sha : List Char → Line) (os : Os) (toolName body : PyText) (r : WriteResult) (e : Event) : Prop where
  own : ∀ name text captured, e = .write name text captured →
    encode toolName = some name ∧ encodeReplace body = text ∧ os.captured = captured
  stored : ∀ digest ref, r = .path digest ref → ∃ name captured, e = .write name (encodeReplace body) captured ∧
    (sha (digestInput name (encodeReplace body))).chars = digest

theorem ComesTo.refused {toolName body : PyText} {r : WriteResult} (h : ∀ digest ref, r ≠ .path digest ref) :
    ComesTo sha os toolName body r (.refused [] []) :=
  ⟨nofun, fun digest ref heq => absurd heq (h digest ref)⟩

/-- A call that returns no path and leaves the files is a refused write. -/
theorem ComesTo.unchanged {toolName body : PyText} {r : WriteResult} (h : ∀ digest ref, r ≠ .path digest ref) :
    ∃ e, ComesTo sha os toolName body r e ∧ disk.files = Spill.step sha disk.files e :=
  ⟨.refused [] [], .refused h, rfl⟩

theorem ComesTo.written {toolName body : PyText} {name : List Char} (h : encode toolName = some name)
    (visible : Option String) :
    ComesTo sha os toolName body (pathResult visible (digestOf sha name body).chars)
      (.write name (encodeReplace body) os.captured) where
  own := by
    intro _ _ _ heq
    cases heq
    exact ⟨h, rfl, rfl⟩
  stored := by
    intro _ _ heq
    cases heq
    exact ⟨name, os.captured, rfl, rfl⟩

theorem files_writeAt (visible : Option String) {toolName : PyText} {name : List Char} (hname : encode toolName = some name)
    (body : PyText) :
    ∃ e, ComesTo sha os toolName body (writeAt sha visible os name body disk).1 e ∧
      (writeAt sha visible os name body disk).2.files = Spill.step sha disk.files e := by
  unfold writeAt
  cases os.pathIsSymlink with
  | none => exact ComesTo.unchanged nofun
  | some symlink =>
    cases symlink with
    | true => exact ComesTo.unchanged nofun
    | false =>
      dsimp only
      by_cases hstat : os.pathStat = false
      · rw [if_pos hstat]
        exact ComesTo.unchanged nofun
      rw [if_neg hstat]
      by_cases hexists : (disk.files (digestOf sha name body).chars).isSome = true
      · rw [if_pos hexists]
        exact ⟨.write name (encodeReplace body) os.captured, .written hname visible, (if_pos hexists).symm⟩
      rw [if_neg hexists]
      obtain ⟨text, htext, hstored⟩ | ⟨-, -, hraised⟩ | ⟨-, left, hfailed, hfiles, -⟩ :=
        @storeNew_cases os disk (digestOf sha name body).chars
          (encodedDocument name (digestOf sha name body) os.captured body)
      · rw [hstored]
        obtain ⟨chars, hchars, hdocument⟩ := Option.map_eq_some_iff.mp htext
        obtain rfl : encodeReplace body = chars := encodeReplace_of_encode hchars
        obtain rfl := hdocument
        exact ⟨.write name (encodeReplace body) os.captured, .written hname visible, (if_neg hexists).symm⟩
      · rw [hraised]
        exact ComesTo.unchanged nofun
      · rw [hfailed]
        exact ⟨.refused [] [], .refused nofun, hfiles⟩

/-- Every call changes the files by one document of the store model, or not at
all, even where it raises. -/
theorem files_write (sha : List Char → Line) (visible : Option String) (requireVisible : Bool) (os : Os)
    (toolName body : PyText) (disk : Disk) :
    ∃ e, ComesTo sha os toolName body (write sha visible requireVisible os toolName body disk).1 e ∧
      (write sha visible requireVisible os toolName body disk).2.files = Spill.step sha disk.files e := by
  unfold write
  by_cases hinvisible : requireVisible = true ∧ visible = none
  · rw [if_pos hinvisible]
    exact ComesTo.unchanged nofun
  rw [if_neg hinvisible]
  cases ensureDirectory os with
  | error e => exact ComesTo.unchanged nofun
  | ok u =>
    cases hname : encode toolName with
    | none => exact ComesTo.unchanged nofun
    | some name => exact files_writeAt visible hname body

/-- One call, with what the operating system answers in it. -/
structure Call where
  requireVisible : Bool
  os : Os
  toolName : PyText
  body : PyText

def writeCall (sha : List Char → Line) (visible : Option String) (c : Call) (disk : Disk) : WriteResult × Disk :=
  write sha visible c.requireVisible c.os c.toolName c.body disk

def runWrites (sha : List Char → Line) (visible : Option String) (calls : List Call) : Disk :=
  calls.foldl (fun disk c => (write sha visible c.requireVisible c.os c.toolName c.body disk).2)
    ⟨fun _ => none, fun _ => none⟩

/-- The tool names and bodies that calls ask to be digested. -/
def asked (calls : List Call) : Set (List Char × List Char) :=
  { w | ∃ c ∈ calls, encode c.toolName = some w.1 ∧ encodeReplace c.body = w.2 }

/-- The files after any calls, whatever fails in them, are those of a run of the
store model in which each call comes to one event. -/
theorem files_runWrites (sha : List Char → Line) (visible : Option String) (calls : List Call) :
    ∃ events, (runWrites sha visible calls).files = Spill.run sha events ∧
      (∀ name text captured, Event.write name text captured ∈ events → ∃ c ∈ calls,
        encode c.toolName = some name ∧ encodeReplace c.body = text ∧ c.os.captured = captured) ∧
      ∀ before c after digest ref, calls = before ++ c :: after →
        (writeCall sha visible c (runWrites sha visible before)).1 = .path digest ref →
        ∃ name captured, Event.write name (encodeReplace c.body) captured ∈ events ∧ encode c.toolName = some name ∧
          (sha (digestInput name (encodeReplace c.body))).chars = digest := by
  induction calls using List.reverseRecOn with
  | nil => exact ⟨[], rfl, nofun, fun before c after _ _ heq => absurd heq (by simp)⟩
  | append_singleton calls c ih =>
    obtain ⟨events, hevents, hown, hstored⟩ := ih
    obtain ⟨e, hcomes, he⟩ := files_write sha visible c.requireVisible c.os c.toolName c.body (runWrites sha visible calls)
    refine ⟨events ++ [e], ?_, ?_, ?_⟩
    · unfold runWrites at he hevents ⊢
      unfold Spill.run at hevents ⊢
      rw [List.foldl_append, List.foldl_append, ← hevents]
      exact he
    · intro name text captured hmem
      rcases List.mem_append.mp hmem with hmem | hmem
      · obtain ⟨d, hd, h⟩ := hown name text captured hmem
        exact ⟨d, List.mem_append_left _ hd, h⟩
      · exact ⟨c, List.mem_append_right _ (List.mem_singleton_self c),
          hcomes.own name text captured (List.mem_singleton.mp hmem).symm⟩
    · intro before d after digest ref heq hpath
      rcases List.eq_nil_or_concat after with rfl | ⟨after, last, rfl⟩
      · obtain ⟨rfl, hlast⟩ := List.append_inj' heq rfl
        obtain rfl := List.singleton_inj.mp hlast
        obtain ⟨name, captured, rfl, hdigest⟩ := hcomes.stored digest ref hpath
        exact ⟨name, captured, List.mem_append_right _ (List.mem_singleton_self _),
          (hcomes.own _ _ _ rfl).1, hdigest⟩
      · rw [List.concat_eq_append, ← List.cons_append, ← List.append_assoc] at heq
        obtain ⟨rfl, -⟩ := List.append_inj' heq rfl
        obtain ⟨name, captured, hmem, h⟩ := hstored before d after digest ref rfl hpath
        exact ⟨name, captured, List.mem_append_left _ hmem, h⟩

/-- **A path that was returned stays readable**, whatever fails before, in and after the call: every
file is the whole document of a call, and where no two calls share a digest, a returned path gives its
body back exactly if the body has no carriage return and the tool name, as it is read, no separator. -/
theorem returned_path_reads (sha : List Char → Line) (legacy : List Char → Option (List Char))
    (visible : Option String) (calls : List Call) :
    (∀ digest file, (runWrites sha visible calls).files digest = some file → ∃ c ∈ calls, ∃ name,
      encode c.toolName = some name ∧ (sha (digestInput name (encodeReplace c.body))).chars = digest ∧
        file = document name (digestOf sha name c.body) c.os.captured (encodeReplace c.body)) ∧
    ∀ before c after digest ref, calls = before ++ c :: after →
      Set.InjOn (fun w => (sha (digestInput w.1 w.2)).chars) (asked calls) →
      (writeCall sha visible c (runWrites sha visible before)).1 = .path digest ref →
      ∃ name, encode c.toolName = some name ∧
        (((runWrites sha visible calls).files digest).bind (readPath legacy) = some (encodeReplace c.body) ↔
          '\r' ∉ encodeReplace c.body ∧ ¬ separator <:+: universalNewlines name) := by
  obtain ⟨events, hevents, hown, hstored⟩ := files_runWrites sha visible calls
  have hkept : Kept sha events (runWrites sha visible calls).files := hevents ▸ Kept.run sha events
  constructor
  · intro digest file hfile
    obtain ⟨name, text, captured, hmem, hdigest, hdocument⟩ := hkept.isDocument digest file hfile
    obtain ⟨c, hc, hname, rfl, rfl⟩ := hown name text captured hmem
    exact ⟨c, hc, name, hname, hdigest, hdocument⟩
  · intro before c after digest ref heq hsha hpath
    obtain ⟨name, captured, hmem, hname, rfl⟩ := hstored before c after digest ref heq hpath
    refine ⟨name, hname, ?_⟩
    obtain ⟨file, hfile⟩ := Option.isSome_iff_exists.mp (hkept.isKept name _ captured hmem)
    obtain ⟨name', text, captured', hmem', hdigest, rfl⟩ := hkept.isDocument _ _ hfile
    obtain ⟨c', hc', hname', rfl, -⟩ := hown _ _ _ hmem'
    obtain ⟨d, hd, hname'', hbody, -⟩ := hown _ _ _ hmem
    have hsame : (name', encodeReplace c'.body) = (name, encodeReplace c.body) :=
      hsha ⟨c', hc', hname', rfl⟩ ⟨d, hd, hname'', hbody⟩ hdigest
    obtain ⟨rfl, htext⟩ := Prod.mk.inj hsame
    rw [hfile, Option.bind_some, htext]
    exact readPath_document

/-- A rename that fails, and the same call again. -/
def twoTries : List Call :=
  [⟨false, { calm with replaced := false }, [.char 'l'], [.char 'o', .char 'k']⟩,
    ⟨false, calm, [.char 'l'], [.char 'o', .char 'k']⟩]

theorem returned_path_reads_twoTries :
    ∃ name, encode [.char 'l'] = some name ∧
      (((runWrites (fun _ => noon) none twoTries).files noon.chars).bind (readPath noLegacy) = some ['o', 'k'] ↔
        '\r' ∉ ['o', 'k'] ∧ ¬ separator <:+: universalNewlines name) := by
  refine (returned_path_reads (fun _ => noon) noLegacy none twoTries).2
    [⟨false, { calm with replaced := false }, [.char 'l'], [.char 'o', .char 'k']⟩]
    ⟨false, calm, [.char 'l'], [.char 'o', .char 'k']⟩ [] noon.chars "" rfl ?_ rfl
  have hasked : ∀ w ∈ asked twoTries, w = (['l'], ['o', 'k']) := by
    rintro w ⟨c, hc, hname, hbody⟩
    have hboth : c.toolName = [.char 'l'] ∧ c.body = [.char 'o', .char 'k'] := by
      simp only [twoTries, List.mem_cons, List.not_mem_nil, or_false] at hc
      rcases hc with rfl | rfl <;> exact ⟨rfl, rfl⟩
    rw [hboth.1] at hname
    rw [hboth.2] at hbody
    exact Prod.ext (Option.some.inj hname).symm hbody.symm
  intro w hw w' hw' _
  rw [hasked w hw, hasked w' hw']

end AgentCore.SpillWrite
