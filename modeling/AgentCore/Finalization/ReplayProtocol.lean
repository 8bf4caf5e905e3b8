/-
# The tool protocol of a replayed history

`has_malformed_tool_protocol` of `finalization/recovery.py`: one pass over the
messages with the ids that the last assistant message waits for and those answered
so far. It refuses a history exactly when that is no sequence of turns: a message
that is no tool message and carries no calls, or an assistant message whose calls
are well formed with the tool messages that answer each of them once.

A message is any value, since the code is asked about objects. `bool` of a float
and `str` of a value that is no string are parameters.

Key definitions: `hasMalformedToolProtocol`, `WellFormed`, `Turn`.
Key theorem: `malformed_iff`.
-/
import Mathlib.Data.Finset.Lattice.Lemmas
import Mathlib.Data.List.Perm.Basic
import AgentCore.Lib.Groups
import AgentCore.Lib.Trim
import AgentCore.Loop.Arguments

namespace AgentCore.Finalization.ReplayProtocol

open Groups PyJson

abbrev Chars := List Char

/-- What Python does with the values of a message. -/
structure Builtins (F : Type) where
  /-- `not x` of a float. -/
  isZero : F → Bool
  /-- `str` of a value that is no string. -/
  str : Value F → Chars

variable {F : Type} (py : Builtins F)

abbrev Dict (F : Type) := List (Chars × Value F)

def field (d : Dict F) (key : String) : Option (Value F) := d.lookup key.toList

/-- `str(d.get(key) or "")`. -/
def text (d : Dict F) (key : String) : Chars :=
  match field d key with
  | none => []
  | some (.str s) => s
  | some v => if ToolCalls.truthy py.isZero v then py.str v else []

/-- `str(d.get(key) or "").strip()`. -/
def strippedText (d : Dict F) (key : String) : Chars := Trim.trim Text.isSpace (text py d key)

/-- `d.get(key) in (None, "")`. -/
def isUnset (d : Dict F) (key : String) : Bool :=
  match field d key with
  | none => true
  | some .null => true
  | some (.str s) => s = []
  | some _ => false

/-- The loop over the calls of a message: their ids, or nothing when one of them is
malformed. -/
def readCalls : Finset Chars → List (Value F) → Option (Finset Chars)
  | callIds, [] => some callIds
  | callIds, .obj call :: calls =>
    let callId := strippedText py call "id"
    match field call "function" with
    | some (.obj function) =>
      if callId = [] ∨ callId ∈ callIds ∨ strippedText py function "name" = [] ∨ isUnset function "arguments" then
        none
      else readCalls (insert callId callIds) calls
    | _ => none
  | _, _ :: _ => none

/-- The loop over the messages; true is malformed. -/
def scan : Finset Chars → Finset Chars → List (Value F) → Bool
  | expected, seen, [] => expected ≠ ∅ ∧ seen ≠ expected
  | expected, seen, .obj message :: messages =>
    let role := text py message "role"
    if role = "tool".toList then
      let callId := strippedText py message "tool_call_id"
      if callId = [] ∨ callId ∉ expected ∨ callId ∈ seen then true else scan expected (insert callId seen) messages
    else if expected ≠ ∅ ∧ seen ≠ expected then true
    else
      -- only a message that waited for answers had some to forget
      let seen := if expected ≠ ∅ then ∅ else seen
      match (field message "tool_calls").filter (ToolCalls.truthy py.isZero) with
      | none => scan ∅ seen messages
      | some (.arr calls) =>
        if role = "assistant".toList then
          match readCalls py ∅ calls with
          | none => true
          | some callIds => scan callIds seen messages
        else true
      | some _ => true
  | _, _, _ :: _ => true

def hasMalformedToolProtocol (messages : List (Value F)) : Bool := scan py ∅ ∅ messages

/-! ### The protocol -/

/-- The id of a call, and the id a tool message answers. -/
def idAt (key : String) : Value F → Chars
  | .obj d => strippedText py d key
  | _ => []

def isToolMessage : Value F → Bool
  | .obj message => text py message "role" = "tool".toList
  | _ => false

/-- A call with an id, a name and arguments. -/
def WellFormed (call : Value F) : Prop :=
  idAt py "id" call ≠ [] ∧ ∃ c function, call = .obj c ∧ field c "function" = some (.obj function) ∧
    strippedText py function "name" ≠ [] ∧ isUnset function "arguments" = false

/-- A message and the tool messages directly beneath it. -/
inductive Turn : Value F → List (Value F) → Prop
  | plain {message : Dict F} : (field message "tool_calls").filter (ToolCalls.truthy py.isZero) = none →
      Turn (.obj message) []
  | calls {message : Dict F} {calls results : List (Value F)} : text py message "role" = "assistant".toList →
      field message "tool_calls" = some (.arr calls) → calls ≠ [] → (∀ call ∈ calls, WellFormed py call) →
      (calls.map (idAt py "id")).Nodup → (results.map (idAt py "tool_call_id")).Perm (calls.map (idAt py "id")) →
      Turn (.obj message) results

/-! ### The calls -/

variable {py}

theorem wellFormed_obj {c : Dict F} : WellFormed py (.obj c) ↔ strippedText py c "id" ≠ [] ∧
    ∃ function, field c "function" = some (.obj function) ∧ strippedText py function "name" ≠ [] ∧
      isUnset function "arguments" = false := by
  unfold WellFormed
  refine and_congr_right fun _ => ⟨?_, ?_⟩
  · rintro ⟨c', function, hc, hf⟩
    cases hc
    exact ⟨function, hf⟩
  · rintro ⟨function, hf⟩
    exact ⟨c, function, rfl, hf⟩

/-- The calls are read iff they are well formed and their ids are new and distinct. -/
theorem readCalls_eq_some {calls : List (Value F)} {callIds ids : Finset Chars} :
    readCalls py callIds calls = some ids ↔ (∀ call ∈ calls, WellFormed py call) ∧
      (calls.map (idAt py "id")).Nodup ∧ (∀ id ∈ calls.map (idAt py "id"), id ∉ callIds) ∧
      callIds ∪ (calls.map (idAt py "id")).toFinset = ids := by
  induction calls generalizing callIds with
  | nil => simp [readCalls]
  | cons call calls ih =>
    by_cases hwf : WellFormed py call
    · obtain ⟨hid, c, function, rfl, hf, hname, harg⟩ := hwf
      have hc : WellFormed py (.obj c) := ⟨hid, c, function, rfl, hf, hname, harg⟩
      change strippedText py c "id" ≠ [] at hid
      by_cases hnew : strippedText py c "id" ∈ callIds
      · have hread : readCalls py callIds (.obj c :: calls) = none := by simp [readCalls, hf, hnew]
        have hin : idAt py "id" (.obj c) ∈ callIds := hnew
        rw [hread]
        simp [hin]
      · have hread : readCalls py callIds (.obj c :: calls) =
            readCalls py (insert (strippedText py c "id") callIds) calls := by
          simp [readCalls, hf, hnew, hid, hname, harg]
        have hunion : insert (strippedText py c "id") callIds ∪ (calls.map (idAt py "id")).toFinset =
            callIds ∪ ((Value.obj c :: calls).map (idAt py "id")).toFinset := by
          rw [List.map_cons, List.toFinset_cons, Finset.union_insert, Finset.insert_union]
          rfl
        rw [hread, ih, hunion]
        simp only [List.mem_cons, forall_eq_or_imp, hc, true_and, List.map_cons, List.nodup_cons, Finset.mem_insert,
          not_or]
        have hid' : idAt py "id" (.obj c) = strippedText py c "id" := rfl
        rw [hid']
        grind
    · have hread : readCalls py callIds (call :: calls) = none := by
        cases call with
        | obj c =>
          rw [wellFormed_obj] at hwf
          simp only [readCalls]
          split
          · next function hf =>
            rw [if_pos]
            by_contra hno
            simp only [not_or] at hno
            exact hwf ⟨hno.1, function, hf, hno.2.2.1, by simpa using hno.2.2.2⟩
          · rfl
        | _ => rfl
      rw [hread]
      simp [hwf]

/-! ### The pass -/

/-- What is still missing when `seen` of the ids that are `expected` are answered:
each of the others once. -/
def Completes (expected seen : Finset Chars) (ids : List Chars) : Prop :=
  ids.Nodup ∧ (∀ id ∈ ids, id ∉ seen) ∧ seen ∪ ids.toFinset = expected

theorem completes_nil {expected seen : Finset Chars} : Completes expected seen [] ↔ seen = expected := by
  simp [Completes]

theorem completes_cons {expected seen : Finset Chars} {id : Chars} {ids : List Chars} :
    Completes expected seen (id :: ids) ↔ id ∈ expected ∧ id ∉ seen ∧ Completes expected (insert id seen) ids := by
  have hunion : seen ∪ (id :: ids).toFinset = insert id seen ∪ ids.toFinset := by
    rw [List.toFinset_cons, Finset.union_insert, Finset.insert_union]
  unfold Completes
  rw [hunion]
  constructor
  · rintro ⟨hnodup, hnew, hall⟩
    have hin : id ∈ insert id seen ∪ ids.toFinset := by simp
    simp only [List.nodup_cons, List.mem_cons, forall_eq_or_imp] at hnodup hnew
    refine ⟨hall ▸ hin, hnew.1, hnodup.2, fun x hx => ?_, hall⟩
    have hne : x ≠ id := fun h => hnodup.1 (h ▸ hx)
    simp [hne, hnew.2 x hx]
  · rintro ⟨-, hid, hnodup, hnew, hall⟩
    simp only [Finset.mem_insert, not_or] at hnew
    refine ⟨List.nodup_cons.mpr ⟨fun h => (hnew id h).1 rfl, hnodup⟩, ?_, hall⟩
    simp only [List.mem_cons, forall_eq_or_imp]
    exact ⟨hid, fun x hx => (hnew x hx).2⟩

/-- With nothing answered yet the ids are those expected in some order. -/
theorem completes_iff_perm {calls ids : List Chars} (hcalls : calls.Nodup) :
    Completes calls.toFinset ∅ ids ↔ ids.Perm calls := by
  unfold Completes
  constructor
  · rintro ⟨hnodup, -, hall⟩
    rw [Finset.empty_union] at hall
    exact List.perm_of_nodup_nodup_toFinset_eq hnodup hcalls hall
  · intro hperm
    refine ⟨hperm.nodup_iff.mpr hcalls, fun id _ => by simp, ?_⟩
    rw [Finset.empty_union]
    exact List.toFinset_eq_of_perm _ _ hperm

theorem isToolMessage_obj {message : Dict F} :
    isToolMessage py (.obj message) = true ↔ text py message "role" = "tool".toList := by
  simp [isToolMessage]

/-- The tool messages on top of a list answer what is left over, and what stands
below them is a sequence of turns. -/
def Replays (py : Builtins F) (expected seen : Finset Chars) (messages : List (Value F)) : Prop :=
  Completes expected seen ((messages.takeWhile (isToolMessage py)).map (idAt py "tool_call_id")) ∧
    Grouped (isToolMessage py) (Turn py) (messages.dropWhile (isToolMessage py))

theorem replays_head {expected seen : Finset Chars} {message : Value F} {messages : List (Value F)}
    (hm : isToolMessage py message = false) : Replays py expected seen (message :: messages) ↔
      seen = expected ∧ Turn py message (messages.takeWhile (isToolMessage py)) ∧
        Grouped (isToolMessage py) (Turn py) (messages.dropWhile (isToolMessage py)) := by
  have hbody : ∀ x ∈ messages.takeWhile (isToolMessage py), isToolMessage py x = true :=
    fun x hx => List.mem_takeWhile_imp hx
  have hcons : Grouped (isToolMessage py) (Turn py)
        (message :: (messages.takeWhile (isToolMessage py) ++ messages.dropWhile (isToolMessage py))) ↔
      Turn py message (messages.takeWhile (isToolMessage py)) ∧
        Grouped (isToolMessage py) (Turn py) (messages.dropWhile (isToolMessage py)) :=
    grouped_cons hm hbody (takeWhile_dropWhile (isToolMessage py) messages)
  rw [List.takeWhile_append_dropWhile] at hcons
  unfold Replays
  rw [List.takeWhile_cons_of_neg (by simp [hm]), List.dropWhile_cons_of_neg (by simp [hm]), List.map_nil,
    completes_nil, hcons]

theorem replays_tool {expected seen : Finset Chars} {message : Value F} {messages : List (Value F)}
    (hm : isToolMessage py message = true) : Replays py expected seen (message :: messages) ↔
      idAt py "tool_call_id" message ∈ expected ∧ idAt py "tool_call_id" message ∉ seen ∧
        Replays py expected (insert (idAt py "tool_call_id" message) seen) messages := by
  unfold Replays
  rw [List.takeWhile_cons_of_pos hm, List.dropWhile_cons_of_pos hm, List.map_cons, completes_cons]
  tauto

/-- Where no answer is left over the next messages begin afresh. -/
theorem replays_done {ids : Finset Chars} {messages : List (Value F)} :
    Replays py ids ids messages ↔ messages.takeWhile (isToolMessage py) = [] ∧
      Grouped (isToolMessage py) (Turn py) (messages.dropWhile (isToolMessage py)) := by
  unfold Replays
  refine and_congr_left fun _ => ?_
  cases messages.takeWhile (isToolMessage py) with
  | nil => simp [completes_nil]
  | cons m ms =>
    rw [List.map_cons, completes_cons]
    simp only [List.cons_ne_nil, iff_false]
    rintro ⟨hin, hnew, -⟩
    exact hnew hin

theorem turn_plain {message : Dict F} {results : List (Value F)}
    (hnone : (field message "tool_calls").filter (ToolCalls.truthy py.isZero) = none) :
    Turn py (.obj message) results ↔ results = [] := by
  constructor
  · intro ht
    cases ht with
    | plain _ => rfl
    | @calls _ calls _ _ hcalls hne _ _ _ =>
      have htruthy : ToolCalls.truthy py.isZero (.arr calls) = true := by simpa [ToolCalls.truthy] using hne
      rw [hcalls, Option.filter_some, if_pos htruthy] at hnone
      cases hnone
  · rintro rfl
    exact .plain hnone

theorem turn_calls {message : Dict F} {calls results : List (Value F)}
    (hcalls : (field message "tool_calls").filter (ToolCalls.truthy py.isZero) = some (.arr calls)) :
    Turn py (.obj message) results ↔ text py message "role" = "assistant".toList ∧
      (∀ call ∈ calls, WellFormed py call) ∧ (calls.map (idAt py "id")).Nodup ∧
        (results.map (idAt py "tool_call_id")).Perm (calls.map (idAt py "id")) := by
  obtain ⟨hfield, htruthy⟩ := Option.filter_eq_some_iff.mp hcalls
  constructor
  · intro ht
    cases ht with
    | plain hnone => rw [hnone] at hcalls; cases hcalls
    | calls hrole hfield' _ hwf hnodup hperm =>
      rw [hfield] at hfield'
      cases hfield'
      exact ⟨hrole, hwf, hnodup, hperm⟩
  · rintro ⟨hrole, hwf, hnodup, hperm⟩
    have hne : calls ≠ [] := by simpa [ToolCalls.truthy] using htruthy
    exact .calls hrole hfield hne hwf hnodup hperm

theorem not_turn_of_not_list {message : Dict F} {results : List (Value F)} {v : Value F}
    (hv : (field message "tool_calls").filter (ToolCalls.truthy py.isZero) = some v) (hlist : ∀ calls, v ≠ .arr calls) :
    ¬ Turn py (.obj message) results := by
  intro ht
  cases ht with
  | plain hnone => rw [hnone] at hv; cases hv
  | @calls _ calls _ _ hfield _ _ _ _ =>
    rw [hfield] at hv
    exact hlist calls (Option.some.inj (Option.filter_eq_some_iff.mp hv).1).symm

theorem not_turn_of_not_dict {message : Value F} {results : List (Value F)} (hm : ∀ d, message ≠ .obj d) :
    ¬ Turn py message results := by
  intro ht
  cases ht with
  | plain _ => exact hm _ rfl
  | calls _ _ _ _ _ _ => exact hm _ rfl

/-- Well-formed calls wait for their own ids, none of them blank. -/
theorem readCalls_ids {calls : List (Value F)} {ids : Finset Chars} (h : readCalls py ∅ calls = some ids) :
    (calls.map (idAt py "id")).Nodup ∧ ids = (calls.map (idAt py "id")).toFinset ∧ [] ∉ ids := by
  obtain ⟨hwf, hnodup, -, hids⟩ := readCalls_eq_some.mp h
  rw [Finset.empty_union] at hids
  refine ⟨hnodup, hids.symm, ?_⟩
  rw [← hids, List.mem_toFinset]
  intro hblank
  obtain ⟨call, hcall, heq⟩ := List.mem_map.mp hblank
  exact (hwf call hcall).1 heq

/-- What the pass over the messages below is known to do. -/
def Scans (py : Builtins F) (messages : List (Value F)) : Prop :=
  ∀ expected seen : Finset Chars, seen ⊆ expected → [] ∉ expected →
    (scan py expected seen messages = false ↔ Replays py expected seen messages)

theorem scan_nil : Scans py [] := by
  intro expected seen hsub _
  have hempty : expected = ∅ → seen = expected := fun h => by
    rw [h] at hsub ⊢
    exact Finset.subset_empty.mp hsub
  have hnil : Grouped (isToolMessage py) (Turn py) [] := .nil
  simp only [scan, Replays, List.takeWhile_nil, List.dropWhile_nil, List.map_nil, completes_nil,
    decide_eq_false_iff_not, hnil, and_true]
  tauto

theorem scan_tool {d : Dict F} {messages : List (Value F)} (ih : Scans py messages)
    (hrole : text py d "role" = "tool".toList) : Scans py (.obj d :: messages) := by
  intro expected seen hsub hblank
  have hid : idAt py "tool_call_id" (.obj d) = strippedText py d "tool_call_id" := rfl
  rw [replays_tool (isToolMessage_obj.mpr hrole), hid]
  simp only [scan, if_pos hrole]
  by_cases hbad : strippedText py d "tool_call_id" = [] ∨ strippedText py d "tool_call_id" ∉ expected ∨
      strippedText py d "tool_call_id" ∈ seen
  · rw [if_pos hbad]
    have hnot : ¬ (strippedText py d "tool_call_id" ∈ expected ∧ strippedText py d "tool_call_id" ∉ seen) := by
      rintro ⟨hin, hnew⟩
      rcases hbad with h | h | h
      · exact hblank (h ▸ hin)
      · exact h hin
      · exact hnew h
    tauto
  · rw [if_neg hbad]
    simp only [not_or, not_not] at hbad
    have hsub' : insert (strippedText py d "tool_call_id") seen ⊆ expected := Finset.insert_subset hbad.2.1 hsub
    rw [ih _ _ hsub' hblank]
    simp [hbad.2.1, hbad.2.2]

/-- Below calls that are waited for the tool messages answer each of them once. -/
theorem scan_calls {calls messages : List (Value F)} (ih : Scans py messages) {ids : Finset Chars}
    (hread : readCalls py ∅ calls = some ids) : scan py ids ∅ messages = false ↔
      ((messages.takeWhile (isToolMessage py)).map (idAt py "tool_call_id")).Perm (calls.map (idAt py "id")) ∧
        Grouped (isToolMessage py) (Turn py) (messages.dropWhile (isToolMessage py)) := by
  obtain ⟨hnodup, hids, hblank⟩ := readCalls_ids hread
  rw [ih _ _ (Finset.empty_subset ids) hblank]
  unfold Replays
  rw [hids, completes_iff_perm hnodup]

theorem scan_turn {d : Dict F} {messages : List (Value F)} (ih : Scans py messages)
    (hrole : text py d "role" ≠ "tool".toList) : Scans py (.obj d :: messages) := by
  intro expected seen hsub _
  have hm : isToolMessage py (.obj d) = false := by
    rw [← Bool.not_eq_true, isToolMessage_obj]
    exact hrole
  rw [replays_head hm]
  simp only [scan, if_neg hrole]
  by_cases hopen : expected ≠ ∅ ∧ seen ≠ expected
  · rw [if_pos hopen]
    simp [hopen.2]
  · have hdone : seen = expected := by
      by_contra hne
      refine hopen ⟨fun h => hne ?_, hne⟩
      rw [h] at hsub ⊢
      exact Finset.subset_empty.mp hsub
    have hseen : (if expected ≠ ∅ then ∅ else seen) = (∅ : Finset Chars) := by
      by_cases h : expected = ∅
      · simp [h, hdone]
      · simp [h]
    rw [if_neg hopen, hseen]
    simp only [hdone, true_and]
    cases hcalls : (field d "tool_calls").filter (ToolCalls.truthy py.isZero) with
    | none =>
      have hend : Replays py ∅ ∅ messages ↔ _ := replays_done
      rw [turn_plain hcalls, ← hend]
      exact ih ∅ ∅ (Finset.Subset.refl ∅) (Finset.notMem_empty [])
    | some v =>
      by_cases hlist : ∃ calls, v = .arr calls
      · obtain ⟨calls, rfl⟩ := hlist
        rw [turn_calls hcalls]
        by_cases hasst : text py d "role" = "assistant".toList
        · simp only [if_pos hasst]
          cases hread : readCalls py ∅ calls with
          | none =>
            have hno : ¬ ((∀ call ∈ calls, WellFormed py call) ∧ (calls.map (idAt py "id")).Nodup) := by
              rintro ⟨hwf, hnodup⟩
              rw [readCalls_eq_some.mpr ⟨hwf, hnodup, fun _ _ => Finset.notMem_empty _, rfl⟩] at hread
              cases hread
            simp only [Bool.true_eq_false, false_iff]
            rintro ⟨⟨-, hwf, hnodup, -⟩, -⟩
            exact hno ⟨hwf, hnodup⟩
          | some ids =>
            obtain ⟨hwf, hnodup, -⟩ := readCalls_eq_some.mp hread
            rw [scan_calls ih hread]
            exact ⟨fun ⟨hperm, hrest⟩ => ⟨⟨hasst, hwf, hnodup, hperm⟩, hrest⟩, fun ⟨ht, hrest⟩ => ⟨ht.2.2.2, hrest⟩⟩
        · simp only [if_neg hasst, Bool.true_eq_false, false_iff]
          exact fun ht => hasst ht.1.1
      · have hno : ¬ Turn py (.obj d) (messages.takeWhile (isToolMessage py)) :=
          not_turn_of_not_list hcalls fun calls h => hlist ⟨calls, h⟩
        cases v with
        | arr calls => exact absurd ⟨calls, rfl⟩ hlist
        | _ => simp [hno]

/-- The pass over the messages, from any of its states. -/
theorem scan_eq_false : ∀ messages : List (Value F), Scans py messages
  | [] => scan_nil
  | message :: messages => by
    have ih := scan_eq_false messages
    by_cases hobj : ∃ d, message = .obj d
    · obtain ⟨d, rfl⟩ := hobj
      by_cases hrole : text py d "role" = "tool".toList
      · exact scan_tool ih hrole
      · exact scan_turn ih hrole
    · intro expected seen _ _
      have hdict : ∀ d, message ≠ .obj d := fun d h => hobj ⟨d, h⟩
      have hm : isToolMessage py message = false := by
        cases message with
        | obj d => exact absurd rfl (hdict d)
        | _ => rfl
      have hscan : scan py expected seen (message :: messages) = true := by
        cases message with
        | obj d => exact absurd rfl (hdict d)
        | _ => rfl
      have hturn : ¬Turn py message (messages.takeWhile (isToolMessage py)) := not_turn_of_not_dict hdict
      rw [replays_head hm, hscan]
      simp [hturn]

/-- The history is found well formed iff it is a sequence of turns. -/
theorem malformed_iff (messages : List (Value F)) :
    hasMalformedToolProtocol py messages = false ↔ Grouped (isToolMessage py) (Turn py) messages := by
  unfold hasMalformedToolProtocol
  rw [scan_eq_false messages ∅ ∅ (Finset.Subset.refl ∅) (Finset.notMem_empty []), replays_done]
  constructor
  · rintro ⟨hlead, hrest⟩
    rwa [← List.takeWhile_append_dropWhile (p := isToolMessage py) (l := messages), hlead, List.nil_append]
  · intro h
    have hlead := h.takeWhile_eq_nil
    have hdrop := List.takeWhile_append_dropWhile (p := isToolMessage py) (l := messages)
    rw [hlead, List.nil_append] at hdrop
    exact ⟨hlead, hdrop.symm ▸ h⟩

end AgentCore.Finalization.ReplayProtocol
