/-
# Clients with several legs

The client of a logical call is a model or a fallback chain, whose entries are
clients again. A request of a chain is a walk over its entries from the cursor
on; `advance_empty_completion` moves the innermost cursor that can be moved past
the entry that served last. A cursor of a logical call is never moved back, so a
request that goes past an entry, and an advance, each cost a leg.

What the models do in a request is an argument of it, by the path of the model
in the client; a request that is cancelled stops where it is. A proxy passes
requests and hooks on and is left out.

Key definitions: `Client.request`, `Client.advanceEmptyCompletion`,
`Client.legs`.
Key theorems: `Client.request_walked`, `Client.advance_legs`.
-/
import AgentCore.Providers.Chain
import Mathlib.Algebra.BigOperators.Group.List.Basic
import Mathlib.Algebra.Ring.Nat

namespace AgentCore
namespace Providers

namespace Chain

variable {chain : Chain}

/-! ### The entries of a walk -/

theorem remaining_indices (c : ChainCursor) (h : c.startIndex ≤ chain.entries.length) :
    (chain.entries.zipIdx.filter fun p => c.startIndex ≤ p.2).map (·.2) =
      List.range' c.startIndex (chain.entries.length - c.startIndex) := by
  have hfilter : (chain.entries.zipIdx.filter fun p => c.startIndex ≤ p.2).map Prod.snd =
      (chain.entries.zipIdx.map Prod.snd).filter fun i => c.startIndex ≤ i := by
    rw [List.filter_map]
    rfl
  have hsplit : List.range' 0 chain.entries.length =
      List.range' 0 c.startIndex ++ List.range' c.startIndex (chain.entries.length - c.startIndex) := by
    have happ := List.range'_append_1 (s := 0) (m := c.startIndex) (n := chain.entries.length - c.startIndex)
    rw [Nat.zero_add, Nat.add_sub_of_le h] at happ
    exact happ.symm
  have hfront : (List.range' 0 c.startIndex).filter (fun i => decide (c.startIndex ≤ i)) = [] := by
    rw [List.filter_eq_nil_iff]
    intro i hi
    have := (List.mem_range'_1.mp hi).2
    rw [decide_eq_true_eq]
    omega
  have hback : (List.range' c.startIndex (chain.entries.length - c.startIndex)).filter
      (fun i => decide (c.startIndex ≤ i)) = List.range' c.startIndex (chain.entries.length - c.startIndex) := by
    rw [List.filter_eq_self]
    intro i hi
    exact decide_eq_true (List.mem_range'_1.mp hi).1
  rw [hfilter, List.zipIdx_map_snd, hsplit, List.filter_append, hfront, hback, List.nil_append]

theorem tryEntries_ne_nil {last : ℕ} {outcome : ℕ → Option (LlmError × Bool)} {l : List (FallbackEntry × ℕ)}
    (h : l ≠ []) : (tryEntries last outcome l).1 ≠ [] := by
  cases l with
  | nil => exact absurd rfl h
  | cons p rest =>
    obtain ⟨entry, index⟩ := p
    rcases tryEntries_cases rest entry index with ⟨-, heq⟩ | ⟨e, y, -, -, heq⟩ | ⟨e, -, -, -, heq⟩
    all_goals
      rw [heq]
      exact List.cons_ne_nil _ _

/-- A walk tries the entries from the start on, one at least. -/
theorem tried_range (c : ChainCursor) (outcome : ℕ → Option (LlmError × Bool))
    (h : c.startIndex < chain.entries.length) :
    ∃ passed, (chain.tryFrom c outcome).1 = List.range' c.startIndex (passed + 1) ∧
      c.startIndex + passed < chain.entries.length := by
  have hpre : (chain.tryFrom c outcome).1 <+: List.range' c.startIndex (chain.entries.length - c.startIndex) := by
    rw [← remaining_indices c (Nat.le_of_lt h)]
    exact tried_initial _
  have hne : (chain.tryFrom c outcome).1 ≠ [] := by
    refine tryEntries_ne_nil fun hnil => ?_
    have hlen := congrArg List.length (remaining_indices c (Nat.le_of_lt h))
    rw [hnil, List.map_nil, List.length_nil, List.length_range'] at hlen
    omega
  obtain ⟨passed, hpassed⟩ : ∃ passed, (chain.tryFrom c outcome).1.length = passed + 1 :=
    Nat.exists_eq_succ_of_ne_zero fun hz => hne (List.length_eq_zero_iff.mp hz)
  have hle := hpre.length_le
  rw [List.length_range', hpassed] at hle
  refine ⟨passed, ?_, by omega⟩
  rw [List.prefix_iff_eq_take.mp hpre, hpassed, List.take_range'_of_length_ge hle]

end Chain

/-! ### Clients -/

/-- A client; `clients` gives the client of each entry of a chain. -/
inductive Client
  | model
  | fallbackChain (chain : Chain) (cursor : ChainCursor) (clients : ℕ → Client)

/-- What the models behind a client do in a request, by their paths: the error
of a model, with whether its output has reached the consumer. -/
abbrev Replies := List ℕ → Option (LlmError × Bool)

/-- A request of a client: the client after it, how many models it reached and
the error it ended with. -/
structure Walk where
  client : Client
  sent : ℕ
  error : Option (LlmError × Bool)

def chainExhausted : LlmError := { typeName := "RuntimeError", text := "LLMFallbackChain exhausted" }

namespace Client

/-- `for_logical_call`: a cursor of its own for every chain. -/
def forLogicalCall : Client → Client
  | .model => .model
  | .fallbackChain chain _ clients => .fallbackChain chain ⟨true, 0, 0⟩ fun i => (clients i).forLogicalCall

def request : Client → Replies → Walk
  | .model, replies => ⟨.model, 1, replies []⟩
  | .fallbackChain chain cursor clients, replies =>
    let walks := fun i => (clients i).request fun path => replies (i :: path)
    let (tried, ending) := chain.tryFrom cursor fun i => (walks i).error
    { client := .fallbackChain chain (Chain.moved cursor tried) fun i => if i ∈ tried then (walks i).client else clients i
      sent := (tried.map fun i => (walks i).sent).sum
      error := match ending with
        | .finished => none
        | .raised i _ => (walks i).error
        | .exhausted => some (chainExhausted, false) }

/-- `advance_empty_completion`, asked of the entry that served first. -/
def advanceEmptyCompletion (e : LlmError) : Client → Bool × Client
  | .model => (false, .model)
  | .fallbackChain chain cursor clients =>
    let (nested, client) := (clients cursor.servingIndex).advanceEmptyCompletion e
    let (advanced, cursor') := chain.advanceEmptyCompletion cursor e nested
    (advanced, .fallbackChain chain cursor' fun i =>
      if cursor.managed = true ∧ i = cursor.servingIndex then client else clients i)

/-- The models behind a client. -/
def models : Client → ℕ
  | .model => 1
  | .fallbackChain chain _ clients => ((List.range' 0 chain.entries.length).map fun i => (clients i).models).sum

/-- The models behind a client that its cursors have not been moved past. -/
def legs : Client → ℕ
  | .model => 1
  | .fallbackChain chain cursor clients =>
    ((List.range' cursor.startIndex (chain.entries.length - cursor.startIndex)).map fun i => (clients i).legs).sum

/-- Every cursor is one of a logical call and stands at an entry. -/
def Usable : Client → Prop
  | .model => True
  | .fallbackChain chain cursor clients =>
    cursor.managed = true ∧ cursor.startIndex < chain.entries.length ∧ ∀ i, (clients i).Usable

/-- The last request was answered where the cursors stand. -/
def Served : Client → Prop
  | .model => True
  | .fallbackChain _ cursor clients => cursor.servingIndex = cursor.startIndex ∧ (clients cursor.servingIndex).Served

/-! ### Legs -/

theorem forLogicalCall_usable : ∀ client : Client, client.forLogicalCall.Usable
  | .model => trivial
  | .fallbackChain chain _ clients =>
    ⟨rfl, List.length_pos_iff.mpr chain.nonempty, fun i => forLogicalCall_usable (clients i)⟩

theorem forLogicalCall_legs : ∀ client : Client, client.forLogicalCall.legs = client.models
  | .model => rfl
  | .fallbackChain chain cursor clients => by
    rw [forLogicalCall, legs, models]
    simp only [forLogicalCall_legs, Nat.sub_zero]

/-- A chain whose entries are models has as many as entries. -/
theorem models_of_entries (chain : Chain) (cursor : ChainCursor) :
    (Client.fallbackChain chain cursor fun _ => .model).models = chain.entries.length := by
  have hones : ∀ l : List ℕ, (l.map fun _ => 1).sum = l.length := by
    intro l
    induction l with
    | nil => rfl
    | cons i l ih => rw [List.map_cons, List.sum_cons, ih, List.length_cons, Nat.add_comm]
  simp only [models]
  rw [hones, List.length_range']

theorem legs_pos : ∀ {client : Client}, client.Usable → 1 ≤ client.legs
  | .model, _ => Nat.le_refl 1
  | .fallbackChain chain cursor clients, h => by
    obtain ⟨-, hstart, hclients⟩ := h
    obtain ⟨rest, hrest⟩ : ∃ rest, chain.entries.length - cursor.startIndex = rest + 1 :=
      ⟨chain.entries.length - cursor.startIndex - 1, by omega⟩
    have hfirst := legs_pos (hclients cursor.startIndex)
    rw [legs, hrest, List.range'_succ, List.map_cons, List.sum_cons]
    omega

theorem sum_range'_add (f : ℕ → ℕ) (start m n : ℕ) :
    ((List.range' start (m + n)).map f).sum =
      ((List.range' start m).map f).sum + ((List.range' (start + m) n).map f).sum := by
  rw [← List.range'_append_1, List.map_append, List.sum_append]

/-- A request leaves the cursors at the models that answered, and every model
it reached beyond the first cost a leg. -/
structure Walked (client : Client) (w : Walk) : Prop where
  usable : w.client.Usable
  served : w.client.Served
  reached : 1 ≤ w.sent
  paid : w.sent + w.client.legs ≤ client.legs + 1

/-- What the requests of the entries passed cost. -/
theorem passed_paid {clients : ℕ → Client} {walks : ℕ → Walk} (hw : ∀ i, Walked (clients i) (walks i)) (start : ℕ) :
    ∀ n, ((List.range' start n).map fun i => (walks i).sent).sum ≤
      ((List.range' start n).map fun i => (clients i).legs).sum
  | 0 => Nat.le_refl 0
  | n + 1 => by
    have hrest := passed_paid hw (start + 1) n
    have hpaid := (hw start).paid
    have hpos := legs_pos (hw start).usable
    rw [List.range'_succ, List.map_cons, List.map_cons, List.sum_cons, List.sum_cons]
    omega

theorem request_walked : ∀ (client : Client), client.Usable → ∀ replies, Walked client (client.request replies)
  | .model, _, _ => ⟨trivial, trivial, Nat.le_refl 1, Nat.le_refl 2⟩
  | .fallbackChain chain cursor clients, h, replies => by
    obtain ⟨hmanaged, hstart, hclients⟩ := h
    have hw : ∀ i, Walked (clients i) ((clients i).request fun path => replies (i :: path)) :=
      fun i => request_walked (clients i) (hclients i) _
    obtain ⟨passed, htried, hlt⟩ := @Chain.tried_range chain cursor
      (fun i => ((clients i).request fun path => replies (i :: path)).error) hstart
    have hlast : (List.range' cursor.startIndex (passed + 1)).getLast? = some (cursor.startIndex + passed) := by
      rw [List.getLast?_range', if_neg (Nat.succ_ne_zero passed)]
      rfl
    have hmoved : Chain.moved cursor (List.range' cursor.startIndex (passed + 1)) =
        ⟨true, cursor.startIndex + passed, cursor.startIndex + passed⟩ := by
      rw [Chain.moved, hlast]
      simp [hmanaged]
    unfold request
    dsimp only
    rw [htried, hmoved]
    refine ⟨⟨rfl, hlt, fun i => ?_⟩, ⟨rfl, ?_⟩, ?_, ?_⟩
    · dsimp only
      split
      · exact (hw i).usable
      · exact hclients i
    · have hmem : cursor.startIndex + passed ∈ List.range' cursor.startIndex (passed + 1) :=
        List.mem_range'_1.mpr ⟨by omega, by omega⟩
      dsimp only
      rw [if_pos hmem]
      exact (hw _).served
    · have hfirst := (hw cursor.startIndex).reached
      rw [List.range'_succ, List.map_cons, List.sum_cons]
      dsimp only
      omega
    · have hpassed := passed_paid hw cursor.startIndex passed
      have hserving := (hw (cursor.startIndex + passed)).paid
      obtain ⟨rest, hrest⟩ : ∃ rest, chain.entries.length = cursor.startIndex + passed + 1 + rest :=
        Nat.exists_eq_add_of_le hlt
      have hfrom : chain.entries.length - cursor.startIndex = passed + (1 + rest) := by omega
      have hafter : chain.entries.length - (cursor.startIndex + passed) = 1 + rest := by omega
      have hbehind : (List.range' (cursor.startIndex + passed + 1) rest).map
            (fun i => (if i ∈ List.range' cursor.startIndex (passed + 1) then
              ((clients i).request fun path => replies (i :: path)).client else clients i).legs) =
          (List.range' (cursor.startIndex + passed + 1) rest).map fun i => (clients i).legs := by
        refine List.map_congr_left fun i hi => ?_
        have hnot : i ∉ List.range' cursor.startIndex (passed + 1) := by
          intro hmem
          have h1 := (List.mem_range'_1.mp hmem).2
          have h2 := (List.mem_range'_1.mp hi).1
          omega
        rw [if_neg hnot]
      have hin : cursor.startIndex + passed ∈ List.range' cursor.startIndex (passed + 1) :=
        List.mem_range'_1.mpr ⟨by omega, by omega⟩
      dsimp only [legs]
      rw [hfrom, hafter, sum_range'_add _ _ passed 1, sum_range'_add _ _ passed, sum_range'_add _ _ 1,
        sum_range'_add _ _ 1, hbehind]
      simp only [List.range'_one, List.map_cons, List.map_nil, List.sum_cons, List.sum_nil, if_pos hin]
      omega

/-- The cursor moves past the entry that served, where there is one behind it. -/
theorem chainAdvance_cases {chain : Chain} {cursor : ChainCursor} (hmanaged : cursor.managed = true) (e : LlmError)
    (nested : Bool) :
    chain.advanceEmptyCompletion cursor e nested = (nested, cursor) ∨
    cursor.servingIndex + 1 < chain.entries.length ∧
      chain.advanceEmptyCompletion cursor e nested = (true, { cursor with startIndex := cursor.servingIndex + 1 }) := by
  cases nested with
  | true => exact .inl (by rw [Chain.advanceEmptyCompletion, if_pos ⟨hmanaged, rfl⟩])
  | false =>
    rw [Chain.advanceEmptyCompletion, if_neg fun h => Bool.false_ne_true h.2]
    split
    · exact .inl rfl
    · split
      · exact .inl rfl
      · next hc =>
        simp only [not_or] at hc
        exact .inr ⟨Nat.lt_of_not_le hc.2.1, rfl⟩

theorem advance_usable (e : LlmError) : ∀ {client : Client}, client.Usable → (client.advanceEmptyCompletion e).2.Usable
  | .model, _ => trivial
  | .fallbackChain chain cursor clients, h => by
    obtain ⟨hmanaged, hstart, hclients⟩ := h
    have hnested := advance_usable e (hclients cursor.servingIndex)
    have hall : ∀ i, (if cursor.managed = true ∧ i = cursor.servingIndex then
        ((clients cursor.servingIndex).advanceEmptyCompletion e).2 else clients i).Usable := by
      intro i
      split
      · exact hnested
      · exact hclients i
    unfold advanceEmptyCompletion
    dsimp only
    rcases @chainAdvance_cases chain cursor hmanaged e ((clients cursor.servingIndex).advanceEmptyCompletion e).1 with
      heq | ⟨hlt, heq⟩
    · rw [heq]
      exact ⟨hmanaged, hstart, hall⟩
    · rw [heq]
      exact ⟨hmanaged, hlt, hall⟩

/-- No leg is added, and an advance costs one. -/
theorem advance_legs (e : LlmError) : ∀ {client : Client}, client.Usable → client.Served →
    (client.advanceEmptyCompletion e).2.legs ≤ client.legs ∧
      ((client.advanceEmptyCompletion e).1 = true → (client.advanceEmptyCompletion e).2.legs < client.legs)
  | .model, _, _ => ⟨Nat.le_refl 1, fun h => absurd h Bool.false_ne_true⟩
  | .fallbackChain chain cursor clients, husable, hserved => by
    obtain ⟨hmanaged, hstart, hclients⟩ := husable
    obtain ⟨hserving, hinner⟩ := hserved
    obtain ⟨rest, hrest⟩ : ∃ rest, chain.entries.length = cursor.startIndex + 1 + rest :=
      Nat.exists_eq_add_of_le hstart
    have hfrom : chain.entries.length - cursor.startIndex = 1 + rest := by omega
    have hbehind : (List.range' (cursor.startIndex + 1) rest).map
          (fun i => (if cursor.managed = true ∧ i = cursor.servingIndex then
            ((clients cursor.servingIndex).advanceEmptyCompletion e).2 else clients i).legs) =
        (List.range' (cursor.startIndex + 1) rest).map fun i => (clients i).legs := by
      refine List.map_congr_left fun i hi => ?_
      have hne : i ≠ cursor.servingIndex := by
        have := (List.mem_range'_1.mp hi).1
        omega
      rw [if_neg fun hc => hne hc.2]
    have hpos := legs_pos (hclients cursor.startIndex)
    obtain ⟨hle, hless⟩ := advance_legs e (hclients cursor.servingIndex) hinner
    unfold advanceEmptyCompletion
    dsimp only
    rcases @chainAdvance_cases chain cursor hmanaged e ((clients cursor.servingIndex).advanceEmptyCompletion e).1 with
      heq | ⟨hlt, heq⟩
    · -- the entry's own client is where it moves, if it does
      rw [heq]
      dsimp only [legs]
      rw [hfrom, sum_range'_add _ _ 1, sum_range'_add _ _ 1, hbehind]
      simp only [List.range'_one, List.map_cons, List.map_nil, List.sum_cons, List.sum_nil]
      rw [if_pos ⟨hmanaged, hserving.symm⟩, ← hserving]
      refine ⟨by omega, fun h => ?_⟩
      have := hless h
      omega
    · -- the chain moves past the entry
      rw [heq]
      have hlen : chain.entries.length - (cursor.servingIndex + 1) = rest := by omega
      dsimp only [legs]
      rw [hlen, hserving, hfrom, sum_range'_add _ _ 1]
      rw [hserving] at hbehind
      rw [hbehind]
      simp only [List.range'_one, List.map_cons, List.map_nil, List.sum_cons, List.sum_nil]
      exact ⟨by omega, fun _ => by omega⟩

end Client
end Providers
end AgentCore
