/-
# The scan for the done sentinel

`StreamActivity.observe_bytes` and `finish_bytes` of `providers/_stream_activity.py`
look for the line `data: [DONE]` in a body that comes in chunks. A line is put together
from the parts of it that the chunks hold, and given up when it gets too long.

What is kept between two chunks depends on the bytes of the unfinished line alone
(`Held`), so it does not matter how the body is cut (`sawDone_iff`).

Key definitions: `StreamActivity`, `observeBytes`, `finishBytes`, `Sentinel`.
Key theorem: `sawDone_iff`.
-/
import AgentCore.Lib.Lines
import Mathlib.Data.List.Infix

namespace AgentCore.Providers.DoneSentinel

/-- What the scan keeps. -/
structure StreamActivity where
  sawDone : Bool := false
  line : List UInt8 := []
  lineLong : Bool := false
  deriving DecidableEq, Repr

/-- A CR or a LF. -/
def isBreak (b : UInt8) : Bool := b = 0x0d || b = 0x0a

/-- `data:`. -/
def dataField : List UInt8 := [0x64, 0x61, 0x74, 0x61, 0x3a]

def space : UInt8 := 0x20

/-- `[DONE]`. -/
def doneValue : List UInt8 := [0x5b, 0x44, 0x4f, 0x4e, 0x45, 0x5d]

def checkLine (s : StreamActivity) : StreamActivity :=
  if s.lineLong || !dataField.isPrefixOf s.line then s
  else
    let value := s.line.drop 5
    let value := if [space].isPrefixOf value then value.drop 1 else value
    if doneValue.isPrefixOf value then { s with sawDone := true } else s

def appendLine (s : StreamActivity) (part : List UInt8) : StreamActivity :=
  if s.lineLong then s
  else if s.line.length + part.length ≤ 32 then { s with line := s.line ++ part }
  else { s with line := [], lineLong := true }

/-- A part that a break ends. -/
def endLine (s : StreamActivity) (part : List UInt8) : StreamActivity :=
  { checkLine (appendLine s part) with line := [], lineLong := false }

def observeBytes (s : StreamActivity) (chunk : List UInt8) : StreamActivity :=
  if s.sawDone then s
  else
    let parts := chunk.splitOnP isBreak
    appendLine (parts.dropLast.foldl endLine s) (parts.getLastD [])

def finishBytes (s : StreamActivity) : StreamActivity :=
  { (if s.sawDone then s else checkLine s) with line := [], lineLong := false }

/-- The scan after the chunks of a body. -/
def observed (chunks : List (List UInt8)) : StreamActivity := chunks.foldl observeBytes {}

/-! ### What is claimed -/

/-- The sentinel: `data:`, at most one space, and a value that starts with `[DONE]`, all
within 32 bytes. -/
def Sentinel (line : List UInt8) : Prop :=
  line.length ≤ 32 ∧ ∃ rest, line = dataField ++ (doneValue ++ rest) ∨ line = dataField ++ space :: (doneValue ++ rest)

/-! ### Lines -/

variable {s : StreamActivity} {cur : List UInt8}

/-- The scan holds the unfinished line `cur`. -/
def Held (s : StreamActivity) (cur : List UInt8) : Prop :=
  if cur.length ≤ 32 then s.line = cur ∧ s.lineLong = false else s.line = [] ∧ s.lineLong = true

theorem Held.length_le (h : Held s cur) : s.line.length ≤ 32 := by
  unfold Held at h
  by_cases hlen : cur.length ≤ 32
  · rw [if_pos hlen] at h
    rw [h.1]
    exact hlen
  · rw [if_neg hlen] at h
    rw [h.1]
    exact Nat.zero_le 32

theorem appendLine_sawDone (part : List UInt8) : (appendLine s part).sawDone = s.sawDone := by
  unfold appendLine
  split
  · rfl
  · split <;> rfl

theorem Held.append (h : Held s cur) (part : List UInt8) : Held (appendLine s part) (cur ++ part) := by
  unfold Held at h ⊢
  unfold appendLine
  rw [List.length_append]
  by_cases hlen : cur.length ≤ 32
  · rw [if_pos hlen] at h
    obtain ⟨hline, hlong⟩ := h
    rw [hlong, if_neg Bool.false_ne_true, hline]
    by_cases hsum : cur.length + part.length ≤ 32
    · rw [if_pos hsum, if_pos hsum]
      exact ⟨rfl, rfl⟩
    · rw [if_neg hsum, if_neg hsum]
      exact ⟨rfl, rfl⟩
  · -- a line that is too long stays so
    have hsum : ¬ cur.length + part.length ≤ 32 := by omega
    rw [if_neg hlen] at h
    rw [if_pos h.2, if_neg hsum]
    exact h

theorem value_iff (value : List UInt8) :
    doneValue.isPrefixOf (if [space].isPrefixOf value then value.drop 1 else value) = true ↔
      ∃ rest, value = doneValue ++ rest ∨ value = space :: (doneValue ++ rest) := by
  by_cases hspace : [space].isPrefixOf value = true
  · obtain ⟨value, rfl⟩ := List.isPrefixOf_iff_prefix.mp hspace
    rw [if_pos hspace, List.isPrefixOf_iff_prefix]
    constructor
    · rintro ⟨rest, hrest⟩
      exact ⟨rest, .inr (congrArg (space :: ·) hrest.symm)⟩
    · rintro ⟨rest, h | h⟩
      · -- a space does not start the value
        exact absurd (List.cons.inj h).1 (by decide)
      · exact ⟨rest, (List.cons.inj h).2.symm⟩
  · rw [if_neg hspace, List.isPrefixOf_iff_prefix]
    constructor
    · rintro ⟨rest, hrest⟩
      exact ⟨rest, .inl hrest.symm⟩
    · rintro ⟨rest, h | h⟩
      · exact ⟨rest, h.symm⟩
      · exact absurd (List.isPrefixOf_iff_prefix.mpr ⟨doneValue ++ rest, h.symm⟩) hspace

theorem checkLine_sawDone (h : Held s cur) : (checkLine s).sawDone = true ↔ s.sawDone = true ∨ Sentinel cur := by
  unfold Held at h
  unfold checkLine Sentinel
  dsimp only
  by_cases hlen : cur.length ≤ 32
  · rw [if_pos hlen] at h
    obtain ⟨rfl, hlong⟩ := h
    by_cases hdata : dataField.isPrefixOf s.line = true
    · have hgoes : ¬ (s.lineLong || !dataField.isPrefixOf s.line) = true := by simp [hlong, hdata]
      obtain ⟨value, hvalue⟩ := List.isPrefixOf_iff_prefix.mp hdata
      have hdrop : s.line.drop 5 = value := by rw [← hvalue]; rfl
      have hsentinel : (∃ rest, s.line = dataField ++ (doneValue ++ rest) ∨
          s.line = dataField ++ space :: (doneValue ++ rest)) ↔
            ∃ rest, value = doneValue ++ rest ∨ value = space :: (doneValue ++ rest) := by
        rw [← hvalue]
        simp only [List.append_cancel_left_eq]
      rw [if_neg hgoes, hdrop, hsentinel, ← value_iff]
      by_cases hdone : doneValue.isPrefixOf (if [space].isPrefixOf value then value.drop 1 else value) = true
      · rw [if_pos hdone]
        exact iff_of_true rfl (.inr ⟨hlen, hdone⟩)
      · rw [if_neg hdone]
        exact ⟨.inl, fun hs => hs.resolve_right fun hsentinel => hdone hsentinel.2⟩
    · have hskips : (s.lineLong || !dataField.isPrefixOf s.line) = true := by simp [hdata]
      rw [if_pos hskips]
      refine ⟨.inl, fun hs => hs.resolve_right ?_⟩
      rintro ⟨-, rest, hrest | hrest⟩
      · exact hdata (List.isPrefixOf_iff_prefix.mpr ⟨_, hrest.symm⟩)
      · exact hdata (List.isPrefixOf_iff_prefix.mpr ⟨_, hrest.symm⟩)
  · rw [if_neg hlen] at h
    have hskips : (s.lineLong || !dataField.isPrefixOf s.line) = true := by rw [h.2, Bool.true_or]
    rw [if_pos hskips]
    exact ⟨.inl, fun hs => hs.resolve_right fun hsentinel => hlen hsentinel.1⟩

theorem endLine_sawDone (h : Held s cur) (part : List UInt8) :
    (endLine s part).sawDone = true ↔ s.sawDone = true ∨ Sentinel (cur ++ part) := by
  show (checkLine (appendLine s part)).sawDone = true ↔ _
  rw [checkLine_sawDone (h.append part), appendLine_sawDone]

theorem endLine_held (part : List UInt8) : Held (endLine s part) [] := ⟨rfl, rfl⟩

/-! ### Chunks -/

/-- The parts of a chunk go on with the unfinished line. -/
theorem parts_held : ∀ (parts : List (List UInt8)) {s : StreamActivity} {cur : List UInt8}, parts ≠ [] → Held s cur →
    Held (appendLine (parts.dropLast.foldl endLine s) (parts.getLastD []))
        ((parts.modifyHead (cur ++ ·)).getLastD []) ∧
      ((appendLine (parts.dropLast.foldl endLine s) (parts.getLastD [])).sawDone = true ↔
        s.sawDone = true ∨ ∃ line ∈ (parts.modifyHead (cur ++ ·)).dropLast, Sentinel line)
  | [], _, _, h, _ => absurd rfl h
  | [part], s, cur, _, h => by
    refine ⟨h.append part, ?_⟩
    show (appendLine s part).sawDone = true ↔ _
    rw [appendLine_sawDone]
    simp
  | part :: next :: parts, s, cur, _, h => by
    have hid : (next :: parts).modifyHead (([] : List UInt8) ++ ·) = next :: parts := rfl
    obtain ⟨hheld, hsaw⟩ := parts_held (next :: parts) (List.cons_ne_nil _ _) (endLine_held (s := s) part)
    rw [hid] at hheld hsaw
    refine ⟨hheld, ?_⟩
    show (appendLine ((next :: parts).dropLast.foldl endLine (endLine s part)) ((next :: parts).getLastD [])).sawDone =
      true ↔ s.sawDone = true ∨ ∃ line ∈ (cur ++ part) :: (next :: parts).dropLast, Sentinel line
    rw [hsaw, endLine_sawDone h]
    simp [or_assoc]

/-- What the scan knows after the bytes `bs`. -/
structure Scanned (bs : List UInt8) (s : StreamActivity) : Prop where
  length_le : s.line.length ≤ 32
  sawDone : s.sawDone = true ↔ ∃ line ∈ (bs.splitOnP isBreak).dropLast, Sentinel line
  held : s.sawDone = false → Held s ((bs.splitOnP isBreak).getLastD [])

theorem start_scanned : Scanned [] {} where
  length_le := Nat.zero_le 32
  sawDone := by simp
  held _ := ⟨rfl, rfl⟩

theorem Scanned.observe {bs : List UInt8} (h : Scanned bs s) (chunk : List UInt8) :
    Scanned (bs ++ chunk) (observeBytes s chunk) := by
  have hparts : chunk.splitOnP isBreak ≠ [] := List.splitOnP_ne_nil isBreak chunk
  have hlines := Lines.splitOnP_append (p := isBreak) bs chunk
  generalize hcur : (bs.splitOnP isBreak).getLastD [] = cur at hlines
  have hne : (chunk.splitOnP isBreak).modifyHead (cur ++ ·) ≠ [] := by
    simp
  have hcomplete : ((bs ++ chunk).splitOnP isBreak).dropLast =
      (bs.splitOnP isBreak).dropLast ++ ((chunk.splitOnP isBreak).modifyHead (cur ++ ·)).dropLast := by
    rw [hlines, List.dropLast_append_of_ne_nil hne]
  unfold observeBytes
  by_cases hsaw : s.sawDone = true
  · rw [if_pos hsaw]
    refine ⟨h.length_le, ?_, fun hno => ?_⟩
    · obtain ⟨line, hmem, hline⟩ := h.sawDone.mp hsaw
      refine iff_of_true hsaw ⟨line, ?_, hline⟩
      rw [hcomplete]
      exact List.mem_append_left _ hmem
    · rw [hsaw] at hno
      cases hno
  · rw [if_neg hsaw]
    have hnone : ¬ ∃ line ∈ (bs.splitOnP isBreak).dropLast, Sentinel line := fun hex => hsaw (h.sawDone.mpr hex)
    have hheld : Held s cur := hcur ▸ h.held (by simpa using hsaw)
    obtain ⟨hheld', hsaw'⟩ := parts_held _ hparts hheld
    refine ⟨hheld'.length_le, ?_, fun _ => ?_⟩
    · rw [hsaw', hcomplete]
      simp only [List.mem_append, or_and_right, exists_or]
      exact or_congr (iff_of_false hsaw hnone) Iff.rfl
    · have hlast : ((bs ++ chunk).splitOnP isBreak).getLastD [] =
          ((chunk.splitOnP isBreak).modifyHead (cur ++ ·)).getLastD [] := by
        rw [hlines, List.getLastD_eq_getLast?, List.getLastD_eq_getLast?, List.getLast?_append_of_ne_nil _ hne]
      rw [hlast]
      exact hheld'

theorem observed_scanned (chunks : List (List UInt8)) : Scanned chunks.flatten (observed chunks) := by
  unfold observed
  induction chunks using List.reverseRecOn with
  | nil => exact start_scanned
  | append_singleton chunks chunk ih =>
    rw [List.foldl_append, List.flatten_append, List.flatten_singleton]
    exact ih.observe chunk

/-- At the end the unfinished line is looked at too. -/
theorem Scanned.finish {bs : List UInt8} (h : Scanned bs s) :
    (finishBytes s).sawDone = true ↔ ∃ line, Lines.IsLine isBreak bs line ∧ Sentinel line := by
  have hne : bs.splitOnP isBreak ≠ [] := List.splitOnP_ne_nil isBreak bs
  have hlines : bs.splitOnP isBreak = (bs.splitOnP isBreak).dropLast ++ [(bs.splitOnP isBreak).getLastD []] := by
    rw [List.getLastD_eq_getLast?, List.getLast?_eq_some_getLast hne]
    exact (List.dropLast_append_getLast hne).symm
  have hlast : (finishBytes s).sawDone = true ↔
      s.sawDone = true ∨ Sentinel ((bs.splitOnP isBreak).getLastD []) := by
    unfold finishBytes
    by_cases hsaw : s.sawDone = true
    · rw [if_pos hsaw]
      exact iff_of_true hsaw (.inl hsaw)
    · rw [if_neg hsaw]
      exact checkLine_sawDone (h.held (by simpa using hsaw))
  simp only [← Lines.mem_splitOnP_iff]
  rw [hlast, h.sawDone, hlines]
  simp only [List.dropLast_concat, List.getLastD_concat, List.mem_append, List.mem_singleton, or_and_right, exists_or,
    exists_eq_left]

/-- **The scan is chunk invariant.** However the body is cut, the sentinel is seen iff a
line of the body is one, and no more than 32 bytes are kept on the way. -/
theorem sawDone_iff (chunks : List (List UInt8)) :
    (finishBytes (observed chunks)).sawDone = (finishBytes (observed [chunks.flatten])).sawDone ∧
      ((finishBytes (observed chunks)).sawDone = true ↔
        ∃ line, Lines.IsLine isBreak chunks.flatten line ∧ Sentinel line) ∧
      ∀ past later, chunks = past ++ later → (observed past).line.length ≤ 32 := by
  have hchunks := (observed_scanned chunks).finish
  have hwhole := (observed_scanned [chunks.flatten]).finish
  rw [List.flatten_singleton] at hwhole
  exact ⟨Bool.eq_iff_iff.mpr (hchunks.trans hwhole.symm), hchunks,
    fun past _ _ => (observed_scanned past).length_le⟩

end AgentCore.Providers.DoneSentinel
