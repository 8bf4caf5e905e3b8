/-
# Tool-call pairing

A history is well paired when it is a sequence of blocks: a message that is
no tool message, then the tool messages directly beneath it. In each block
every non-empty id the head records is answered exactly once, and every tool
message answers an id the head records; so a head that records nothing stands
alone. This is the shape a provider accepts: an id left open, answered twice,
or answered from below another message is refused.

Key definitions: `Answered`, `WellPaired`, `CallsAnswered`, `SameShape`.
Key theorems: `wellPaired_append`, `wellPaired_turn`, `WellPaired.sameShape`,
`WellPaired.filter_plain`.
-/
import AgentCore.Messages
import AgentCore.Lib.Groups

namespace AgentCore

open Groups

/-- The tool messages beneath `head` answer what it records: each non-empty
id once, and nothing else. -/
def Answered (head : Message) (results : List Message) : Prop :=
  (∀ id ∈ callIds head, id ≠ "" → (results.map (·.toolCallId)).count id = 1) ∧
    ∀ r ∈ results, r.toolCallId ∈ callIds head

instance (head : Message) (results : List Message) : Decidable (Answered head results) := by
  unfold Answered
  infer_instance

/-- A history of answered blocks. -/
def WellPaired (h : History) : Prop := Grouped isToolMsg Answered h

instance (h : History) : Decidable (WellPaired h) := by
  unfold WellPaired
  infer_instance

/-- A message that is neither a tool message nor records a call. -/
def PlainMsg (m : Message) : Prop := isToolMsg m = false ∧ callIds m = []

theorem plainMsg_userMsg (s : String) : PlainMsg (userMsg s) := ⟨rfl, rfl⟩

theorem plainMsg_of_user {m : Message} (h : isUserMsg m = true) : PlainMsg m :=
  ⟨isToolMsg_of_user h, callIds_of_not_assistant (isAssistantMsg_of_user h)⟩

theorem plainMsg_of_system {m : Message} (h : isSystemMsg m = true) : PlainMsg m := by
  simp only [isSystemMsg, beq_iff_eq] at h
  exact ⟨by simp [isToolMsg, h], callIds_of_not_assistant (by simp [isAssistantMsg, h])⟩

theorem PlainMsg.answered_iff {m : Message} (h : PlainMsg m) (b : List Message) :
    Answered m b ↔ b = [] := by
  unfold Answered
  rw [h.2]
  refine ⟨fun hb => List.eq_nil_iff_forall_not_mem.mpr fun r hr => ?_, fun hb => by simp [hb]⟩
  exact List.not_mem_nil (hb.2 r hr)

theorem PlainMsg.plain {m : Message} (h : PlainMsg m) : Plain isToolMsg Answered m :=
  ⟨h.1, h.answered_iff⟩

/-! ### Putting histories together -/

theorem WellPaired.append {h h' : History} (hh : WellPaired h) (hh' : WellPaired h') :
    WellPaired (h ++ h') := Grouped.append hh hh'

theorem WellPaired.takeWhile_tool {h : History} (hh : WellPaired h) : h.takeWhile isToolMsg = [] :=
  Grouped.takeWhile_eq_nil hh

/-- A history cut above a message that is no tool message is well paired iff
both parts are. -/
theorem wellPaired_append {h h' : History} (hh' : h'.takeWhile isToolMsg = []) :
    WellPaired (h ++ h') ↔ WellPaired h ∧ WellPaired h' := grouped_append hh'

/-- One turn's block at the end of a history. -/
theorem wellPaired_turn {h : History} {head : Message} {results : List Message} (hh : WellPaired h)
    (hhead : isToolMsg head = false) (hres : ∀ r ∈ results, isToolMsg r = true)
    (ha : Answered head results) : WellPaired (h ++ head :: results) :=
  hh.append (Grouped.single hhead hres ha)

theorem wellPaired_plain {ms : List Message} (h : ∀ m ∈ ms, PlainMsg m) : WellPaired ms := by
  induction ms with
  | nil => exact .nil
  | cons m ms ih =>
    have hm : PlainMsg m := h m (by simp)
    exact WellPaired.append (h := [m]) (Grouped.plain hm.plain) (ih fun x hx => h x (by simp [hx]))

theorem WellPaired.append_plain {h : History} {ms : List Message} (hh : WellPaired h)
    (hms : ∀ m ∈ ms, PlainMsg m) : WellPaired (h ++ ms) := hh.append (wellPaired_plain hms)

/-! ### Taking histories apart -/

theorem WellPaired.of_plain_cons {m : Message} {h : History} (hm : PlainMsg m)
    (hh : WellPaired (m :: h)) : WellPaired h := by
  cases hh with
  | group _ _ ha hrest =>
    rw [(hm.answered_iff _).mp ha]
    exact hrest

theorem WellPaired.of_plain_append {ms h : History} (hh : WellPaired (ms ++ h))
    (hms : ∀ m ∈ ms, PlainMsg m) : WellPaired h := by
  induction ms with
  | nil => exact hh
  | cons m ms ih =>
    exact ih (WellPaired.of_plain_cons (hms m (by simp)) hh) fun x hx => hms x (by simp [hx])

/-- Below leading plain messages a well-paired history is well paired. -/
theorem WellPaired.dropWhile_plain {q : Message → Bool} (hq : ∀ m, q m = true → PlainMsg m)
    {h : History} (hh : WellPaired h) : WellPaired (h.dropWhile q) := by
  rw [← List.takeWhile_append_dropWhile (p := q) (l := h)] at hh
  exact WellPaired.of_plain_append hh fun m hm => hq m (List.mem_takeWhile_imp hm)

/-! ### Edits that keep the pairing -/

/-- The two messages play the same part in the pairing: same role, same
recorded calls, same answered id. -/
def SameShape (m m' : Message) : Prop :=
  m.role = m'.role ∧ callIds m = callIds m' ∧ m.toolCallId = m'.toolCallId

theorem SameShape.refl (m : Message) : SameShape m m := ⟨rfl, rfl, rfl⟩

theorem SameShape.trans {a b c : Message} (h : SameShape a b) (h' : SameShape b c) : SameShape a c :=
  ⟨h.1.trans h'.1, h.2.1.trans h'.2.1, h.2.2.trans h'.2.2⟩

theorem SameShape.isToolMsg_eq {m m' : Message} (h : SameShape m m') : isToolMsg m = isToolMsg m' := by
  simp [isToolMsg, h.1]

theorem SameShape.isSystemMsg_eq {m m' : Message} (h : SameShape m m') :
    isSystemMsg m = isSystemMsg m' := by
  simp [isSystemMsg, h.1]

theorem sameShape_ids {b c : List Message} (h : List.Forall₂ SameShape b c) :
    b.map (·.toolCallId) = c.map (·.toolCallId) := by
  induction h with
  | nil => rfl
  | cons hxy _ ih => simp [hxy.2.2, ih]

theorem Answered.sameShape {x y : Message} {b c : List Message} (hxy : SameShape x y)
    (hbc : List.Forall₂ SameShape b c) (h : Answered x b) : Answered y c := by
  have hids := sameShape_ids hbc
  refine ⟨?_, fun r hr => ?_⟩
  · rw [← hxy.2.1, ← hids]
    exact h.1
  · have hmem : r.toolCallId ∈ b.map (·.toolCallId) := by
      rw [hids]
      exact List.mem_map_of_mem hr
    obtain ⟨r', hr', heq⟩ := List.mem_map.mp hmem
    rw [← hxy.2.1, ← heq]
    exact h.2 r' hr'

/-- Rewriting messages one by one in their shape keeps the pairing. -/
theorem WellPaired.sameShape {h h' : History} (hh : WellPaired h)
    (hr : List.Forall₂ SameShape h h') : WellPaired h' :=
  Grouped.forall₂ (fun _ _ hxy => hxy.isToolMsg_eq)
    (fun _ _ _ _ hxy hbc hx => hx.sameShape hxy hbc) hh hr

/-- Plain messages can be left out. -/
theorem WellPaired.filter_plain {q : Message → Bool} {h : History} (hh : WellPaired h)
    (hq : ∀ m ∈ h, q m = false → PlainMsg m) : WellPaired (h.filter q) :=
  Grouped.filter hh fun m hm hqm => (hq m hm hqm).plain

/-! ### Answers below their call -/

/-- The messages up to the next assistant message. -/
def untilAssistant (h : History) : History := h.takeWhile fun m => !isAssistantMsg m

/-- Every non-empty id an assistant message records is answered before the
next assistant message, wherever the answer stands. Weaker than `WellPaired`,
and all that a provider needs that replays only the last turn. -/
def CallsAnswered : History → Prop
  | [] => True
  | m :: ms => (∀ id ∈ callIds m, id ≠ "" → id ∈ toolIds (untilAssistant ms)) ∧ CallsAnswered ms

instance : ∀ h : History, Decidable (CallsAnswered h)
  | [] => inferInstanceAs (Decidable True)
  | m :: ms =>
    letI := instDecidableCallsAnswered ms
    inferInstanceAs (Decidable
      ((∀ id ∈ callIds m, id ≠ "" → id ∈ toolIds (untilAssistant ms)) ∧ CallsAnswered ms))

theorem toolIds_append (h h' : History) : toolIds (h ++ h') = toolIds h ++ toolIds h' := by
  simp [toolIds]

theorem toolIds_of_tools {h : History} (hh : ∀ m ∈ h, isToolMsg m = true) :
    toolIds h = h.map (·.toolCallId) := by
  rw [toolIds, List.filter_eq_self.mpr hh]

theorem untilAssistant_cons_of_not {m : Message} (hm : isAssistantMsg m = false) (h : History) :
    untilAssistant (m :: h) = m :: untilAssistant h := by
  simp [untilAssistant, hm]

theorem untilAssistant_eq_self {h : History} (hh : ∀ m ∈ h, isAssistantMsg m = false) :
    untilAssistant h = h :=
  List.takeWhile_eq_self_iff.mpr fun m hm => by simp [hh m hm]

theorem untilAssistant_append {h : History} (hh : ∀ m ∈ h, isAssistantMsg m = false) (h' : History) :
    untilAssistant (h ++ h') = h ++ untilAssistant h' :=
  List.takeWhile_append_of_pos fun m hm => by simp [hh m hm]

theorem mem_toolIds_untilAssistant_append {id : String} : ∀ {h : History} (h' : History),
    id ∈ toolIds (untilAssistant h) → id ∈ toolIds (untilAssistant (h ++ h'))
  | [], _, hid => by simp [untilAssistant, toolIds] at hid
  | m :: ms, h', hid => by
    by_cases hm : isAssistantMsg m = true
    · simp [untilAssistant, hm, toolIds] at hid
    · have hm' : isAssistantMsg m = false := by simpa using hm
      rw [List.cons_append, untilAssistant_cons_of_not hm', ← List.singleton_append, toolIds_append] at *
      rcases List.mem_append.mp hid with h1 | h1
      · exact List.mem_append_left _ h1
      · exact List.mem_append_right _ (mem_toolIds_untilAssistant_append h' h1)

theorem CallsAnswered.append {h h' : History} (hh : CallsAnswered h) (hh' : CallsAnswered h') :
    CallsAnswered (h ++ h') := by
  induction h with
  | nil => exact hh'
  | cons m ms ih =>
    obtain ⟨hm, hms⟩ := hh
    exact ⟨fun id hid hne => mem_toolIds_untilAssistant_append h' (hm id hid hne), ih hms⟩

theorem CallsAnswered.of_append_right {h h' : History} (hh : CallsAnswered (h ++ h')) :
    CallsAnswered h' := by
  induction h with
  | nil => exact hh
  | cons m ms ih => exact ih hh.2

/-- What stands above an assistant message owes nothing to what stands below. -/
theorem CallsAnswered.of_append_assistant {h h' : History} {a : Message} (ha : isAssistantMsg a = true)
    (hh : CallsAnswered (h ++ a :: h')) : CallsAnswered h := by
  have huntil : ∀ ms : History, untilAssistant (ms ++ a :: h') = untilAssistant ms := by
    intro ms
    induction ms with
    | nil => simp [untilAssistant, ha]
    | cons m ms ih =>
      unfold untilAssistant at *
      by_cases hm : isAssistantMsg m = true
      · simp [hm]
      · simp [hm, ih]
  induction h with
  | nil => trivial
  | cons m ms ih =>
    obtain ⟨hm, hms⟩ : (∀ id ∈ callIds m, id ≠ "" → id ∈ toolIds (untilAssistant (ms ++ a :: h'))) ∧
        CallsAnswered (ms ++ a :: h') := hh
    rw [huntil] at hm
    exact ⟨hm, ih hms⟩

theorem callsAnswered_of_not_assistant {h : History} (hh : ∀ m ∈ h, isAssistantMsg m = false) :
    CallsAnswered h := by
  induction h with
  | nil => trivial
  | cons m ms ih =>
    refine ⟨fun id hid => ?_, ih fun x hx => hh x (by simp [hx])⟩
    rw [callIds_of_not_assistant (hh m (by simp))] at hid
    simp at hid

theorem PlainMsg.callsAnswered {ms : List Message} (h : ∀ m ∈ ms, PlainMsg m) : CallsAnswered ms := by
  induction ms with
  | nil => trivial
  | cons m ms ih =>
    refine ⟨fun id hid => ?_, ih fun x hx => h x (by simp [hx])⟩
    rw [(h m (by simp)).2] at hid
    simp at hid

theorem SameShape.isAssistantMsg_eq {m m' : Message} (h : SameShape m m') :
    isAssistantMsg m = isAssistantMsg m' := by
  simp [isAssistantMsg, h.1]

theorem toolIds_sameShape {h h' : History} (hr : List.Forall₂ SameShape h h') : toolIds h = toolIds h' := by
  induction hr with
  | nil => rfl
  | cons hxy _ ih =>
    unfold toolIds at *
    simp only [List.filter_cons, hxy.isToolMsg_eq]
    split
    · simp [hxy.2.2, ih]
    · exact ih

theorem untilAssistant_sameShape {h h' : History} (hr : List.Forall₂ SameShape h h') :
    List.Forall₂ SameShape (untilAssistant h) (untilAssistant h') := by
  induction hr with
  | nil => exact .nil
  | @cons x y xs ys hxy _ ih =>
    unfold untilAssistant at *
    simp only [List.takeWhile_cons, hxy.isAssistantMsg_eq]
    split
    · exact .cons hxy ih
    · exact .nil

theorem CallsAnswered.sameShape {h h' : History} (hh : CallsAnswered h)
    (hr : List.Forall₂ SameShape h h') : CallsAnswered h' := by
  induction hr with
  | nil => trivial
  | cons hxy ht ih =>
    obtain ⟨hm, hms⟩ := hh
    refine ⟨?_, ih hms⟩
    rw [← hxy.2.1, ← toolIds_sameShape (untilAssistant_sameShape ht)]
    exact hm

/-- A well-paired history has its calls answered. -/
theorem WellPaired.callsAnswered {h : History} (hh : WellPaired h) : CallsAnswered h := by
  induction hh with
  | nil => trivial
  | @group x body rest hx hb ha _ ih =>
    have hnb : ∀ m ∈ body, isAssistantMsg m = false := fun m hm => isAssistantMsg_of_tool (hb m hm)
    refine ⟨fun id hid hne => ?_, (callsAnswered_of_not_assistant hnb).append ih⟩
    rw [untilAssistant_append hnb, toolIds_append, toolIds_of_tools hb]
    refine List.mem_append_left _ (List.count_pos_iff.mp ?_)
    rw [ha.1 id hid hne]
    exact Nat.one_pos

end AgentCore
