/-
# The blob store holds what was put

A file is named after the digest of its content. As long as no two contents
that were put share their digest, a put leaves the file of its content and
every other file as they were, and a deletion touches the files of the digests
it is given and no other.

Key definitions: `Named`, `DigestsDiffer`.
Key theorems: `putAll_spec`, `deleteBlobs_spec`, `get_refOf`.
-/
import AgentCore.Context.Journal

namespace AgentCore
namespace Context

open PyJson

variable {H : Sha256} {attached : Bytes → Prop} {files : Files}

/-! ### Names of files -/

/-- The file of a content. -/
def pathOf (H : Sha256) (data : Bytes) : Path := ((H.hexdigest data).take 2, (H.hexdigest data).drop 2)

theorem path_hexdigest (data : Bytes) : path (H.hexdigest data) = some (pathOf H data) :=
  if_pos (H.hexdigest_valid data)

theorem pathOf_inj {x y : Bytes} (h : pathOf H x = pathOf H y) : H.hexdigest x = H.hexdigest y := by
  obtain ⟨htake, hdrop⟩ := Prod.mk.inj h
  rw [← List.take_append_drop 2 (H.hexdigest x), ← List.take_append_drop 2 (H.hexdigest y), htake, hdrop]

variable (H attached) in
/-- No two contents that are attached share their digest. -/
def DigestsDiffer : Prop := ∀ x y, attached x → attached y → H.hexdigest x = H.hexdigest y → x = y

variable (H attached files) in
/-- Every file holds an attached content and is named after it. -/
def Named : Prop := ∀ p data, files p = some data → p = pathOf H data ∧ attached data

/-- The files of `files` are files of `files'`. -/
def Extends (files files' : Files) : Prop := ∀ p data, files p = some data → files' p = some data

/-! ### Put -/

theorem setFile_self (p : Path) (content : Option Bytes) : setFile files p content p = content := if_pos rfl

theorem setFile_other {p q : Path} (h : q ≠ p) (content : Option Bytes) : setFile files p content q = files q :=
  if_neg h

theorem write_spec (hd : DigestsDiffer H attached) (hn : Named H attached files) {data : Bytes} (ha : attached data) :
    Named H attached (write files (pathOf H data) data) ∧
      write files (pathOf H data) data (pathOf H data) = some data ∧
      Extends files (write files (pathOf H data) data) := by
  unfold write
  cases hfile : files (pathOf H data) with
  | some old =>
    obtain ⟨hpath, hold⟩ := hn _ _ hfile
    obtain rfl := hd _ _ ha hold (pathOf_inj hpath)
    rw [Option.isSome_some, if_pos rfl]
    exact ⟨hn, hfile, fun p d h => h⟩
  | none =>
    rw [Option.isSome_none, if_neg Bool.false_ne_true]
    refine ⟨fun p d h => ?_, setFile_self _ _, fun p d h => ?_⟩
    · by_cases hp : p = pathOf H data
      · rw [hp, setFile_self, Option.some.injEq] at h
        exact ⟨hp.trans (by rw [h]), h ▸ ha⟩
      · rw [setFile_other hp] at h
        exact hn p d h
    · have hp : p ≠ pathOf H data := by
        rintro rfl
        rw [hfile] at h
        cases h
      rw [setFile_other hp]
      exact h

/-- The reference to an attachment. -/
def refOf (H : Sha256) (mediaTypes : List (Chars × Chars)) (x : Chars × Bytes) : BlobRef :=
  ⟨H.hexdigest x.2, x.2.1.length, (mediaTypes.lookup x.1).getD octetStream⟩

theorem put_eq (data : Bytes) (mediaType : Chars) : put H files data mediaType =
    (some ⟨H.hexdigest data, data.1.length, mediaType⟩, write files (pathOf H data) data) := by
  unfold put
  rw [path_hexdigest]

/-- All attachments are put and referred to, and no file is lost. -/
theorem putAll_spec (hd : DigestsDiffer H attached) (mediaTypes : List (Chars × Chars)) :
    ∀ (xs : List (Chars × Bytes)) (files : Files), Named H attached files → (∀ x ∈ xs, attached x.2) →
      ∃ files', putAll H mediaTypes files xs = (some (xs.map fun x => (x.1, refOf H mediaTypes x)), files') ∧
        Named H attached files' ∧ (∀ x ∈ xs, files' (pathOf H x.2) = some x.2) ∧ Extends files files'
  | [], files, hn, _ => ⟨files, rfl, hn, by simp, fun _ _ h => h⟩
  | (name, data) :: rest, files, hn, ha => by
    obtain ⟨hn₁, hself, hext⟩ := write_spec hd hn (ha _ List.mem_cons_self)
    obtain ⟨files', hput, hn', hheld, hext'⟩ :=
      putAll_spec hd mediaTypes rest _ hn₁ fun x hx => ha x (List.mem_cons_of_mem _ hx)
    refine ⟨files', ?_, hn', ?_, fun p d h => hext' p d (hext p d h)⟩
    · rw [putAll, put_eq]
      dsimp only
      rw [hput]
      rfl
    · intro x hx
      rcases List.mem_cons.mp hx with rfl | hx
      · exact hext' _ _ hself
      · exact hheld x hx

/-! ### Get -/

/-- A reference reads what its file holds. -/
theorem get_of_held {data : Bytes} (h : files (pathOf H data) = some data) (mediaType : Chars) :
    get H files ⟨H.hexdigest data, data.1.length, mediaType⟩ = some data := by
  unfold get
  dsimp only
  rw [path_hexdigest, Option.bind_some, h, Option.bind_some, if_neg (by simp)]

/-! ### Delete -/

theorem delete_spec {data : Bytes} : delete files (H.hexdigest data) = (true, setFile files (pathOf H data) none) := by
  unfold delete
  rw [path_hexdigest]

/-- Deletion of digests of contents: what is left was there, and a content of
another digest is left. -/
theorem deleteBlobs_spec : ∀ (digests : List Chars) (files : Files), (∀ d ∈ digests, ∃ data, d = H.hexdigest data) →
    ∃ files', deleteBlobs files digests = (true, files') ∧ Extends files' files ∧
      ∀ data, H.hexdigest data ∉ digests → files' (pathOf H data) = files (pathOf H data)
  | [], files, _ => ⟨files, rfl, fun _ _ h => h, fun _ _ => rfl⟩
  | d :: rest, files, hd => by
    obtain ⟨gone, rfl⟩ := hd d List.mem_cons_self
    obtain ⟨files', hdel, hsub, hkeep⟩ :=
      deleteBlobs_spec rest (setFile files (pathOf H gone) none) fun d hd' => hd d (List.mem_cons_of_mem _ hd')
    refine ⟨files', ?_, fun p data h => ?_, fun data hdata => ?_⟩
    · rw [deleteBlobs, delete_spec]
      exact hdel
    · have h' := hsub p data h
      by_cases hp : p = pathOf H gone
      · rw [hp, setFile_self] at h'
        cases h'
      · rwa [setFile_other hp] at h'
    · rw [List.mem_cons, not_or] at hdata
      have hp : pathOf H data ≠ pathOf H gone := fun h => hdata.1 (pathOf_inj h)
      rw [hkeep data hdata.2, setFile_other hp]

end Context
end AgentCore
