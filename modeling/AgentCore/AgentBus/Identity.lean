/-
# The identity of sessions

`create_session` of `bus.py` finds a session by the text `task_id::name` and
makes one if there is none; the messages dropped from a session are written
to a directory named by that text with `/`, `:` and the blank replaced. The two
steps go from a pair of texts to one text and from there to a file name, and
each of them can run two sessions into one.

The language model, the tools and the other runtime settings of a session are
not part of its identity and are left out, and so is the event that says it was
created.

Key definitions: `createSession`, `offloadPath`, `Ambiguous`, `Confusable`.
Key theorem: `session_identity`.
-/
import AgentCore.Text
import Mathlib.Data.List.Forall2
import Mathlib.Logic.Function.Basic

namespace AgentCore
namespace AgentBus
namespace Identity

/-- What makes up the identity of a `SubAgentSession`. -/
structure Session where
  sessionId : String
  taskId : String
  name : String
  roleId : String
  systemPrompt : String
  deriving DecidableEq, Repr

/-- What `create_session` raises: the `ValueError` of a name that is taken, with what it
quotes, and the `KeyError` of a role that the registry does not have. -/
inductive CreateError
  | nameTaken (name taskId existingRole requestedRole : String)
  | unknownRole (roleId : String)
  deriving DecidableEq, Repr

/-- The sessions of a bus by their ids, and the prompts of the roles of its agent
registry, if it has one. -/
structure Bus where
  sessions : String → Option Session
  getPromptFor : Option (String → Option String)

def makeSessionId (taskId name : String) : String := taskId ++ "::" ++ name

/-- The prompt a session is created with. -/
def Bus.resolvePrompt (b : Bus) (roleId : String) (systemPrompt : Option String) : Except CreateError String :=
  match systemPrompt, b.getPromptFor with
  | some prompt, _ => .ok prompt
  | none, none => .ok ""
  | none, some getPromptFor =>
    match getPromptFor roleId with
    | none => .error (.unknownRole roleId)
    | some prompt => .ok prompt

/-- `create_session`: the id returned, and the bus. -/
def Bus.createSession (b : Bus) (taskId name roleId : String) (systemPrompt : Option String) :
    Except CreateError (String × Bus) :=
  match b.resolvePrompt roleId systemPrompt with
  | .error e => .error e
  | .ok prompt =>
    let sessionId := makeSessionId taskId name
    match b.sessions sessionId with
    | some existing =>
      if existing.roleId ≠ roleId ∨ existing.systemPrompt ≠ prompt then
        .error (.nameTaken name taskId existing.roleId roleId)
      else .ok (sessionId, b)
    | none =>
      .ok (sessionId, { b with
        sessions := Function.update b.sessions sessionId (some ⟨sessionId, taskId, name, roleId, prompt⟩) })

/-- `s.replace(old, new)` for two characters. -/
def replaceChar (old new : Char) (s : String) : String :=
  String.ofList (s.toList.map fun c => if c = old then new else c)

/-- `_safe_session_filename`. -/
def safeSessionFilename (sessionId : String) : String :=
  replaceChar ' ' '_' (replaceChar ':' '_' (replaceChar '/' '_' sessionId))

/-- `f"{n:03d}"`. -/
def pad3 (n : ℕ) : String :=
  let digits := (toString n).toList
  String.ofList (List.replicate (3 - digits.length) '0' ++ digits)

/-- The file `_offload_dropped_messages` writes, as the parts of its path. -/
def offloadPath (outDir : List String) (sessionId : String) (totalTaskCount : ℕ) : List String :=
  outDir ++ [safeSessionFilename sessionId, "task_" ++ pad3 totalTaskCount ++ ".jsonl"]

/-! ### Where ids run into one another -/

/-- One pair of texts read as another: the separator can be found one character
or a whole part later. -/
def Shifted (t₁ n₁ t₂ n₂ : String) : Prop :=
  (t₂ = t₁ ++ ":" ∧ n₁ = ":" ++ n₂) ∨ ∃ u, t₂ = t₁ ++ "::" ++ u ∧ n₁ = u ++ "::" ++ n₂

def Ambiguous (t₁ n₁ t₂ n₂ : String) : Prop := Shifted t₁ n₁ t₂ n₂ ∨ Shifted t₂ n₂ t₁ n₁

/-- The characters a file name shows as `_`. -/
def blurred : List Char := ['/', ':', ' ', '_']

/-- Two texts of one length that differ only in characters a file name does
not tell apart. -/
def Confusable (s₁ s₂ : String) : Prop :=
  List.Forall₂ (fun c d => c = d ∨ c ∈ blurred ∧ d ∈ blurred) s₁.toList s₂.toList

theorem toList_makeSessionId (t n : String) : (makeSessionId t n).toList = t.toList ++ ':' :: ':' :: n.toList := by
  rw [makeSessionId, String.toList_append, String.toList_append, List.append_assoc]
  rfl

/-- What stands between the end of the shorter task id and that of the longer. -/
theorem shifted_of_append {t₁ n₁ t₂ n₂ : String} {x : List Char} (ht : t₂.toList = t₁.toList ++ x)
    (hn : ':' :: ':' :: n₁.toList = x ++ ':' :: ':' :: n₂.toList) :
    (t₁ = t₂ ∧ n₁ = n₂) ∨ Shifted t₁ n₁ t₂ n₂ := by
  rcases x with _ | ⟨c, _ | ⟨d, u⟩⟩
  · rw [List.append_nil] at ht
    simp only [List.nil_append, List.cons.injEq, true_and] at hn
    exact .inl ⟨(String.toList_inj.mp ht).symm, String.toList_inj.mp hn⟩
  · simp only [List.singleton_append, List.cons.injEq, true_and] at hn
    obtain ⟨rfl, hn⟩ := hn
    refine .inr (.inl ⟨String.toList_inj.mp ?_, String.toList_inj.mp ?_⟩)
    · rw [ht, String.toList_append]
      rfl
    · rw [hn, String.toList_append]
      rfl
  · simp only [List.cons_append, List.cons.injEq] at hn
    obtain ⟨rfl, rfl, hn⟩ := hn
    refine .inr (.inr ⟨String.ofList u, String.toList_inj.mp ?_, String.toList_inj.mp ?_⟩)
    · simp [ht, String.toList_append]
    · simp [hn, String.toList_append]

theorem Shifted.makeSessionId_eq {t₁ n₁ t₂ n₂ : String} (h : Shifted t₁ n₁ t₂ n₂) :
    makeSessionId t₁ n₁ = makeSessionId t₂ n₂ := by
  apply String.toList_inj.mp
  rw [toList_makeSessionId, toList_makeSessionId]
  rcases h with ⟨rfl, rfl⟩ | ⟨u, rfl, rfl⟩ <;> simp [String.toList_append]

/-- **Ids run into one another** exactly where one pair reads as the other. -/
theorem makeSessionId_eq_iff {t₁ n₁ t₂ n₂ : String} :
    makeSessionId t₁ n₁ = makeSessionId t₂ n₂ ↔ (t₁ = t₂ ∧ n₁ = n₂) ∨ Ambiguous t₁ n₁ t₂ n₂ := by
  constructor
  · intro h
    have hlist := congrArg String.toList h
    rw [toList_makeSessionId, toList_makeSessionId] at hlist
    rcases List.append_eq_append_iff.mp hlist with ⟨x, ht, hn⟩ | ⟨x, ht, hn⟩
    · rcases shifted_of_append ht hn with hsame | hshift
      · exact .inl hsame
      · exact .inr (.inl hshift)
    · rcases shifted_of_append ht hn with ⟨ht, hn⟩ | hshift
      · exact .inl ⟨ht.symm, hn.symm⟩
      · exact .inr (.inr hshift)
  · rintro (⟨rfl, rfl⟩ | h | h)
    · rfl
    · exact h.makeSessionId_eq
    · exact h.makeSessionId_eq.symm

theorem Shifted.ne {t₁ n₁ t₂ n₂ : String} (h : Shifted t₁ n₁ t₂ n₂) : t₁ ≠ t₂ := by
  intro heq
  subst heq
  rcases h with ⟨ht, -⟩ | ⟨u, ht, -⟩ <;> simpa [String.toList_append] using congrArg (fun s => s.toList.length) ht

/-! ### Where file names do -/

/-- What a file name shows of a character. -/
def shown (c : Char) : Char := if c ∈ blurred then '_' else c

theorem toList_safeSessionFilename (s : String) : (safeSessionFilename s).toList = s.toList.map shown := by
  simp only [safeSessionFilename, replaceChar, String.toList_ofList, List.map_map]
  congr 1
  funext c
  simp only [Function.comp_apply, shown, blurred]
  by_cases h₁ : c = '/'
  · subst h₁
    rfl
  by_cases h₂ : c = ':'
  · subst h₂
    rfl
  by_cases h₃ : c = ' '
  · subst h₃
    rfl
  by_cases h₄ : c = '_'
  · subst h₄
    rfl
  simp [h₁, h₂, h₃, h₄]

theorem shown_eq_iff {c d : Char} : shown c = shown d ↔ c = d ∨ c ∈ blurred ∧ d ∈ blurred := by
  have hmark : '_' ∈ blurred := by decide
  unfold shown
  by_cases hc : c ∈ blurred <;> by_cases hd : d ∈ blurred
  · simp [hc, hd]
  · rw [if_pos hc, if_neg hd]
    constructor
    · rintro rfl
      exact absurd hmark hd
    · rintro (rfl | ⟨-, h⟩)
      · exact absurd hc hd
      · exact absurd h hd
  · rw [if_neg hc, if_pos hd]
    constructor
    · rintro rfl
      exact absurd hmark hc
    · rintro (rfl | ⟨h, -⟩)
      · exact absurd hd hc
      · exact absurd h hc
  · simp [hc, hd]

theorem safeSessionFilename_eq_iff {s₁ s₂ : String} :
    safeSessionFilename s₁ = safeSessionFilename s₂ ↔ Confusable s₁ s₂ := by
  rw [← String.toList_inj, toList_safeSessionFilename, toList_safeSessionFilename, ← List.forall₂_eq_eq_eq,
    List.forall₂_map_left_iff, List.forall₂_map_right_iff]
  simp only [shown_eq_iff]
  rfl

/-- Two sessions are never offloaded to one file. -/
theorem offloadPath_ne_iff (s₁ s₂ : String) :
    (∀ outDir k₁ k₂, offloadPath outDir s₁ k₁ ≠ offloadPath outDir s₂ k₂) ↔ ¬ Confusable s₁ s₂ := by
  rw [← safeSessionFilename_eq_iff]
  constructor
  · intro h heq
    refine h [] 1 1 ?_
    rw [offloadPath, offloadPath, heq]
  · intro h outDir k₁ k₂ heq
    have hparts := List.append_cancel_left heq
    exact h (List.cons.inj hparts).1

theorem Confusable.refl (s : String) : Confusable s s := List.forall₂_same.mpr fun _ _ => .inl rfl

/-! ### Creating sessions -/

/-- What is created can be found: a call that returns leaves a session of its
role and prompt under the id. -/
theorem createSession_ok {b b' : Bus} {taskId name roleId id : String} {systemPrompt : Option String}
    (h : b.createSession taskId name roleId systemPrompt = .ok (id, b')) :
    id = makeSessionId taskId name ∧ b'.getPromptFor = b.getPromptFor ∧
      ∃ s, b'.sessions id = some s ∧ s.roleId = roleId ∧ b.resolvePrompt roleId systemPrompt = .ok s.systemPrompt := by
  unfold Bus.createSession at h
  cases hprompt : b.resolvePrompt roleId systemPrompt with
  | error e =>
    rw [hprompt] at h
    cases h
  | ok prompt =>
    rw [hprompt] at h
    dsimp only at h
    split at h
    · next existing hfound =>
      split_ifs at h with hdiffers
      cases h
      rw [not_or, not_not, not_not] at hdiffers
      exact ⟨rfl, rfl, existing, hfound, hdiffers.1, congrArg Except.ok hdiffers.2.symm⟩
    · cases h
      exact ⟨rfl, rfl, _, Function.update_self .., rfl, rfl⟩

/-- A call for an id that is not there makes a session. -/
theorem Bus.createSession_new {b : Bus} {t n r prompt : String} {systemPrompt : Option String}
    (hprompt : b.resolvePrompt r systemPrompt = .ok prompt) (h : b.sessions (makeSessionId t n) = none) :
    b.createSession t n r systemPrompt = .ok (makeSessionId t n, { b with
      sessions := Function.update b.sessions (makeSessionId t n) (some ⟨makeSessionId t n, t, n, r, prompt⟩) }) := by
  unfold Bus.createSession
  rw [hprompt]
  dsimp only
  rw [h]

/-- A second call for the same id returns the session that is there. -/
theorem createSession_again {b b' : Bus} {t₁ n₁ t₂ n₂ roleId id : String} {systemPrompt : Option String}
    (h : b.createSession t₁ n₁ roleId systemPrompt = .ok (id, b')) (hid : makeSessionId t₂ n₂ = id) :
    b'.createSession t₂ n₂ roleId systemPrompt = .ok (id, b') := by
  obtain ⟨-, hprompts, s, hs, hrole, hprompt⟩ := createSession_ok h
  have hresolve : b'.resolvePrompt roleId systemPrompt = .ok s.systemPrompt := by
    rw [← hprompt]
    unfold Bus.resolvePrompt
    rw [hprompts]
  unfold Bus.createSession
  rw [hresolve]
  dsimp only
  rw [hid, hs]
  dsimp only
  rw [hrole, if_neg (by simp)]

/-- **The identity of sessions.** Of two calls with one role and prompt, on any
bus: a second call that reads as the first returns its session; they return the
same session for the same task id and name only, exactly if the pairs are not
ambiguous; and that together with a file of its own for each of two distinct
sessions holds exactly if the pairs are the same or their texts are not
confusable. -/
theorem session_identity (b b₁ b₂ : Bus) (t₁ n₁ t₂ n₂ roleId id₁ id₂ : String) (systemPrompt : Option String)
    (h₁ : b.createSession t₁ n₁ roleId systemPrompt = .ok (id₁, b₁))
    (h₂ : b₁.createSession t₂ n₂ roleId systemPrompt = .ok (id₂, b₂)) :
    (id₁ = id₂ → b₂ = b₁) ∧
    ((id₁ = id₂ ↔ t₁ = t₂ ∧ n₁ = n₂) ↔ ¬ Ambiguous t₁ n₁ t₂ n₂) ∧
    (((id₁ = id₂ ↔ t₁ = t₂ ∧ n₁ = n₂) ∧
        (id₁ ≠ id₂ → ∀ outDir k₁ k₂, offloadPath outDir id₁ k₁ ≠ offloadPath outDir id₂ k₂)) ↔
      (t₁ = t₂ ∧ n₁ = n₂) ∨ ¬ Confusable (t₁ ++ "::" ++ n₁) (t₂ ++ "::" ++ n₂)) := by
  obtain ⟨hid₁, -⟩ := createSession_ok h₁
  obtain ⟨hid₂, -⟩ := createSession_ok h₂
  have hids : id₁ = id₂ ↔ (t₁ = t₂ ∧ n₁ = n₂) ∨ Ambiguous t₁ n₁ t₂ n₂ := by
    rw [hid₁, hid₂]
    exact makeSessionId_eq_iff
  have hexcl : t₁ = t₂ ∧ n₁ = n₂ → ¬ Ambiguous t₁ n₁ t₂ n₂ := by
    rintro ⟨ht, -⟩ (h | h)
    · exact h.ne ht
    · exact h.ne ht.symm
  refine ⟨fun hsame => ?_, ?_, ?_⟩
  · have hagain := createSession_again h₁ (hid₂.symm.trans hsame.symm)
    rw [h₂] at hagain
    exact (Prod.mk.inj (Except.ok.inj hagain)).2
  · rw [hids]
    tauto
  · have hfiles := offloadPath_ne_iff id₁ id₂
    have htexts : Confusable (t₁ ++ "::" ++ n₁) (t₂ ++ "::" ++ n₂) ↔ Confusable id₁ id₂ := by
      rw [hid₁, hid₂]
      rfl
    have hself : id₁ = id₂ → Confusable id₁ id₂ := by
      rintro rfl
      exact Confusable.refl _
    rw [htexts, hfiles]
    constructor
    · rintro ⟨hiff, hne⟩
      by_cases hsame : id₁ = id₂
      · exact .inl (hiff.mp hsame)
      · exact .inr (hne hsame)
    · rintro (hsame | hclear)
      · have heq : id₁ = id₂ := hids.mpr (.inl hsame)
        exact ⟨⟨fun _ => hsame, fun _ => heq⟩, fun hne => absurd heq hne⟩
      · have hne : id₁ ≠ id₂ := fun heq => hclear (hself heq)
        exact ⟨⟨fun heq => absurd heq hne, fun hsame => hids.mpr (.inl hsame)⟩, fun _ => hclear⟩

/-- A bus without sessions and without a registry. -/
def emptyBus : Bus := ⟨fun _ => none, none⟩

/-- Two tasks that get one session, and two sessions of one task that get one
file. -/
theorem sessions_run_together :
    (∃ b₁, emptyBus.createSession "a" ":b" "r" none = .ok (makeSessionId "a" ":b", b₁) ∧
      b₁.createSession "a:" "b" "r" none = .ok (makeSessionId "a" ":b", b₁)) ∧
    (∃ b₁ b₂, emptyBus.createSession "a" "b c" "r" none = .ok (makeSessionId "a" "b c", b₁) ∧
      b₁.createSession "a" "b_c" "r" none = .ok (makeSessionId "a" "b_c", b₂) ∧
      makeSessionId "a" "b c" ≠ makeSessionId "a" "b_c" ∧
      offloadPath ["h"] (makeSessionId "a" "b c") 1 = offloadPath ["h"] (makeSessionId "a" "b_c") 1) := by
  constructor
  · have hfirst : emptyBus.createSession "a" ":b" "r" none = _ := Bus.createSession_new rfl rfl
    exact ⟨_, hfirst, createSession_again hfirst (by decide)⟩
  · have hfirst : emptyBus.createSession "a" "b c" "r" none = _ := Bus.createSession_new rfl rfl
    have hids : makeSessionId "a" "b_c" ≠ makeSessionId "a" "b c" := by decide
    refine ⟨_, _, hfirst, Bus.createSession_new rfl ?_, hids.symm, ?_⟩
    · dsimp only
      rw [Function.update_of_ne hids]
      rfl
    · have hsafe : safeSessionFilename (makeSessionId "a" "b c") = safeSessionFilename (makeSessionId "a" "b_c") := by
        decide +kernel
      rw [offloadPath, offloadPath, hsafe]

theorem session_identity_twoNames :
    ∃ b₁ b₂, emptyBus.createSession "t" "a" "r" none = .ok ("t::a", b₁) ∧
      b₁.createSession "t" "b" "r" none = .ok ("t::b", b₂) ∧
      ∀ outDir k₁ k₂, offloadPath outDir "t::a" k₁ ≠ offloadPath outDir "t::b" k₂ := by
  refine ⟨_, _, rfl, rfl, ?_⟩
  have hclear : ¬ Confusable ("t" ++ "::" ++ "a") ("t" ++ "::" ++ "b") := by
    rw [← safeSessionFilename_eq_iff]
    decide
  have hidentity := session_identity emptyBus _ _ "t" "a" "t" "b" "r" "t::a" "t::b" none rfl rfl
  exact (hidentity.2.2.mpr (.inr hclear)).2 (by decide)

end Identity
end AgentBus
end AgentCore
