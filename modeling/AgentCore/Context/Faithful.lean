/-
# The context store journals faithfully

An append is accepted when Python can write its payload and no two of its
attachments have the same content: two references of one entry to one digest
break the key of `context_journal_blobs`, and the transaction is rolled back. An
accepted append is recorded, a refused one leaves the journal as it is, and a
deletion takes away the entries of its scope and none of the blobs that other
entries need (`step_spec`). So the store journals a run faithfully exactly if
all of its appends are accepted (`journal_faithful_iff`).

Key definitions: `Faithful`, `Inv`.
-/
import AgentCore.Context.Blobs
import AgentCore.Loop.Arguments
import Mathlib.Data.List.Dedup
import Mathlib.Data.List.Forall2

namespace AgentCore
namespace Context

open PyJson

variable {F : Type} {room : ℕ}

/-! ### Specification -/

def Append.contents (a : Append F) : List Bytes := a.attachments.map Prod.snd

/-- Python can write the payload, and the attachments differ in content. -/
def Append.Accepted (room : ℕ) (a : Append F) : Prop :=
  a.kind ≠ [] ∧ (Value.obj a.payload.kvs).writable room = true ∧ a.contents.Nodup

instance (room : ℕ) (a : Append F) : Decidable (a.Accepted room) := inferInstanceAs (Decidable (_ ∧ _ ∧ _))

def appends (calls : List (Call F)) : List (Append F) :=
  calls.filterMap fun
    | .append a => some a
    | .deleteScope _ => none

/-- What a call makes of the appends to a scope since its last deletion. -/
def sinceDeletion (scope : ContextScope) (past : List (Append F)) : Call F → List (Append F)
  | .append a => if a.scope = scope then past ++ [a] else past
  | .deleteScope scope' => if scope' = scope then [] else past

/-- The appends to a scope since its last deletion. -/
def appended (scope : ContextScope) (calls : List (Call F)) : List (Append F) := calls.foldl (sinceDeletion scope) []

/-- An entry records an append: its payload is the given one, as dictionaries
are equal, and its references read the attached bytes. -/
structure Records (H : Sha256) (files : Files) (entry : JournalEntry F) (a : Append F) : Prop where
  scope : entry.scope = a.scope
  kind : entry.kind = a.kind
  entryId : entry.entryId = a.entryId
  createdAt : entry.createdAt = a.createdAt
  payload : (Value.obj a.payload.kvs).Same entry.payload
  names : (entry.blobs.map Prod.fst).Perm (a.attachments.map Prod.fst)
  reads : ∀ b ∈ entry.blobs, ∀ x ∈ a.attachments, b.1 = x.1 → get H files b.2 = some x.2

/-- Every call of the run returned, and the history of every scope is what was
appended to it since its last deletion. -/
def Faithful [DecidableEq F] (H : Sha256) (ft : FloatText F) (room : ℕ) (calls : List (Call F)) : Prop :=
  (∀ ok ∈ (run H ft room .empty calls).1, ok = true) ∧
    ∀ scope, ∃ entries, history ft room (run H ft room .empty calls).2 scope = some entries ∧
      List.Forall₂ (Records H (run H ft room .empty calls).2.files) entries (appended scope calls)

/-- What the run rests on: the stack has room for the table of references, `uuid4`
repeats no id, no two attached contents share their digest, and no kind is empty. -/
structure Admissible (H : Sha256) (room : ℕ) (calls : List (Call F)) : Prop where
  stack : 2 ≤ room
  ids : ((appends calls).map Append.entryId).Nodup
  digests : DigestsDiffer H fun data => ∃ a ∈ appends calls, data ∈ a.contents
  kinds : ∀ a ∈ appends calls, a.kind ≠ []

/-! ### What is kept -/

/-- What a call makes of the appends that are kept. -/
def keep (room : ℕ) (kept : List (Append F)) : Call F → List (Append F)
  | .append a => if a.Accepted room then kept ++ [a] else kept
  | .deleteScope scope => kept.filter fun a => !decide (a.scope = scope)

def accepts (room : ℕ) : Call F → Bool
  | .append a => decide (a.Accepted room)
  | .deleteScope _ => true

theorem appends_cons (c : Call F) (cs : List (Call F)) : appends (c :: cs) = appends [c] ++ appends cs := by
  unfold appends
  rw [← List.filterMap_append, List.singleton_append]

/-- What is kept are the appends so far, and those of the call. -/
theorem keep_sublist (kept : List (Append F)) (c : Call F) : (keep room kept c).Sublist (kept ++ appends [c]) := by
  cases c with
  | append a =>
    rw [keep]
    split
    · exact List.Sublist.refl _
    · exact List.sublist_append_left _ _
  | deleteScope scope => exact List.filter_sublist.trans (List.sublist_append_left _ _)

/-- If all appends are accepted, what is kept of a scope is what was appended to
it since its last deletion. -/
theorem kept_inScope (scope : ContextScope) : ∀ (calls : List (Call F)) (kept : List (Append F)),
    (∀ c ∈ calls, accepts room c = true) → (calls.foldl (keep room) kept).filter (fun a => a.scope = scope) =
      calls.foldl (sinceDeletion scope) (kept.filter fun a => a.scope = scope)
  | [], kept, _ => rfl
  | c :: cs, kept, hacc => by
    have hstep : (keep room kept c).filter (fun a => a.scope = scope) =
        sinceDeletion scope (kept.filter fun a => a.scope = scope) c := by
      cases c with
      | append a =>
        have ha : a.Accepted room := of_decide_eq_true (hacc _ List.mem_cons_self)
        rw [keep, if_pos ha, sinceDeletion, List.filter_append]
        split
        · next hscope =>
          have hone : [a].filter (fun a => a.scope = scope) = [a] := by simp [hscope]
          rw [hone]
        · next hscope =>
          have hnone : [a].filter (fun a => a.scope = scope) = [] := by simp [hscope]
          rw [hnone, List.append_nil]
      | deleteScope scope' =>
        rw [keep, sinceDeletion, List.filter_filter]
        split
        · next hscope =>
          subst hscope
          exact List.filter_eq_nil_iff.mpr fun a _ => by simp
        · next hscope =>
          refine List.filter_congr fun a _ => ?_
          by_cases hs : a.scope = scope
          · have hne : a.scope ≠ scope' := fun h => hscope (h.symm.trans hs)
            rw [decide_eq_true hs, decide_eq_false hne]
            rfl
          · rw [decide_eq_false hs, Bool.false_and]
    rw [List.foldl_cons, List.foldl_cons, kept_inScope scope cs _ fun c hc => hacc c (List.mem_cons_of_mem _ hc), hstep]

theorem accepts_iff {calls : List (Call F)} :
    (∀ c ∈ calls, accepts room c = true) ↔ ∀ a ∈ appends calls, a.Accepted room := by
  constructor
  · intro h a ha
    obtain ⟨c, hc, hca⟩ := List.mem_filterMap.mp ha
    cases c with
    | append b =>
      obtain rfl := Option.some.inj hca
      exact of_decide_eq_true (h _ hc)
    | deleteScope scope => cases hca
  · intro h c hc
    cases c with
    | append a => exact decide_eq_true (h a (List.mem_filterMap.mpr ⟨_, hc, rfl⟩))
    | deleteScope scope => rfl

/-! ### Rows -/

section Rows

variable (H : Sha256)

/-- The references of an append. -/
def refsOf (a : Append F) : List (Chars × BlobRef) := a.attachments.map fun x => (x.1, refOf H a.mediaTypes x)

/-- The rows of `context_journal_blobs` of an append. -/
def keysOf (a : Append F) : List (Chars × Chars) := a.contents.map fun data => (a.entryId, H.hexdigest data)

theorem refsOf_keys (a : Append F) : (refsOf H a).map (fun b => (a.entryId, b.2.digest)) = keysOf H a := by
  unfold refsOf keysOf Append.contents
  rw [List.map_map, List.map_map]
  rfl

theorem keysOf_nodup_iff {attached : Bytes → Prop} (hd : DigestsDiffer H attached) {a : Append F} (ha : ∀ data ∈ a.contents, attached data) :
    (keysOf H a).Nodup ↔ a.contents.Nodup := by
  constructor
  · exact List.Nodup.of_map _
  · intro h
    refine h.map_on fun x hx y hy heq => ?_
    exact hd x y (ha x hx) (ha y hy) (Prod.mk.inj heq).2

/-- What is read back of a reference: an empty media type is the default one. -/
def restored (ref : BlobRef) : BlobRef :=
  { ref with mediaType := if ref.mediaType = [] then octetStream else ref.mediaType }

theorem sortKeys_refJson (ref : BlobRef) : sortKeys (refJson ref : Value F) =
    .obj [("digest".toList, .str ref.digest), ("media_type".toList, .str ref.mediaType),
      ("size".toList, .int ref.size)] := by
  unfold refJson
  rw [sortKeys_obj]
  rfl

theorem decodeRef_refJson (ref : BlobRef) : decodeRef (sortKeys (refJson ref : Value F)) = some (restored ref) := by
  rw [sortKeys_refJson]
  rfl

theorem refJson_keyed (ref : BlobRef) : (refJson ref : Value F).Keyed := by
  have hkeys : ["digest".toList, "size".toList, "media_type".toList].Nodup := by decide
  refine .obj _ hkeys fun kv hkv => ?_
  simp only [List.mem_cons, List.not_mem_nil, or_false] at hkv
  rcases hkv with rfl | rfl | rfl
  · exact .str _
  · exact .int _
  · exact .str _

theorem blobsValue_keyed {blobs : List (Chars × BlobRef)} (h : (blobs.map Prod.fst).Nodup) :
    (blobsValue blobs : Value F).Keyed := by
  refine .obj _ ?_ fun kv hkv => ?_
  · rw [List.map_map]
    exact h
  · obtain ⟨b, _, rfl⟩ := List.mem_map.mp hkv
    exact refJson_keyed b.2

/-- The references read back in the order of their names. -/
theorem decodeBlobs_blobsValue (blobs : List (Chars × BlobRef)) :
    decodeBlobs (sortKeys (blobsValue blobs : Value F)) =
      some ((sortByKey blobs).map fun b => (b.1, restored b.2)) := by
  unfold blobsValue
  rw [sortKeys_obj, sortByKey_map fun b : Chars × BlobRef => (refJson b.2 : Value F), List.map_map, decodeBlobs,
    List.mapM_map]
  have hdecode : ∀ b : Chars × BlobRef,
      ((decodeRef (sortKeys (refJson b.2 : Value F))).map fun ref => (b.1, ref)) = some (b.1, restored b.2) := by
    intro b
    rw [decodeRef_refJson, Option.map_some]
  calc
    _ = List.mapM (m := Option) (fun b : Chars × BlobRef => some (b.1, restored b.2)) (sortByKey blobs) := by
      exact congrArg (fun f => List.mapM (m := Option) f (sortByKey blobs)) (funext hdecode)
    _ = _ := List.mapM_pure

theorem size_short (data : Bytes) : (Value.int (data.1.length : ℤ) : Value F).short = true := by
  have hlen : (Nat.toDigits 10 data.1.length).length ≤ 19 :=
    (Nat.length_toDigits_le_iff (by decide) (by decide)).mpr (lt_trans data.2 (by decide))
  simp only [Value.short, Int.natAbs_natCast, decide_eq_true_eq]
  exact hlen.trans (by decide)

theorem refsOf_short (a : Append F) : (blobsValue (refsOf H a) : Value F).short = true := by
  unfold blobsValue
  rw [Value.short, shortMembers_eq, List.all_eq_true]
  intro kv hkv
  obtain ⟨b, hb, rfl⟩ := List.mem_map.mp hkv
  obtain ⟨x, _, rfl⟩ := List.mem_map.mp hb
  have hsize := size_short (F := F) x.2
  simp only [refJson, refOf, Value.short, shortMembers, Bool.true_and, Bool.and_true] at hsize ⊢
  exact hsize

/-- The table of references is nested twice at most. -/
theorem refsOf_depth (a : Append F) : (blobsValue (refsOf H a) : Value F).depth ≤ 2 := by
  have hmembers : ∀ blobs : List (Chars × BlobRef),
      depthMembers (blobs.map fun b => (b.1, (refJson b.2 : Value F))) ≤ 1 := by
    intro blobs
    induction blobs with
    | nil => exact Nat.zero_le 1
    | cons b blobs ih =>
      rw [List.map_cons, depthMembers]
      exact max_le (by simp [refJson, Value.depth, depthMembers]) ih
  rw [blobsValue, Value.depth]
  exact Nat.succ_le_succ (hmembers _)

theorem refsOf_writable (hstack : 2 ≤ room) (a : Append F) :
    (blobsValue (refsOf H a) : Value F).writable room = true :=
  Value.writable_iff.mpr ⟨refsOf_short H a, (refsOf_depth H a).trans hstack⟩

variable [DecidableEq F] (ft : FloatText F) (room : ℕ)

/-- A row of the journal records an append. -/
structure RowOf (row : Row) (a : Append F) : Prop where
  entryId : row.entryId = a.entryId
  sessionId : row.sessionId = a.scope.sessionId
  runId : row.runId = a.scope.runId
  agentId : row.agentId = a.scope.agentId
  kind : row.kind = a.kind
  createdAt : row.createdAt = a.createdAt
  payload : dumpsSorted ft compact room (.obj a.payload.kvs) = some row.payloadJson
  blobs : dumpsSorted ft compact room (blobsValue (refsOf H a)) = some row.blobsJson
  kind_ne : a.kind ≠ []

variable {H ft room} {row : Row} {a : Append F}

theorem RowOf.inScope (h : RowOf H ft room row a) (scope : ContextScope) : row.inScope scope = decide (a.scope = scope) := by
  rw [Bool.eq_iff_iff, decide_eq_true_eq]
  unfold Row.inScope
  rw [Bool.and_eq_true, Bool.and_eq_true, beq_iff_eq, beq_iff_eq, beq_iff_eq, h.sessionId, h.runId, h.agentId]
  obtain ⟨s, r, g, _⟩ := scope
  cases a.scope
  simp only [ContextScope.mk.injEq, and_assoc]

theorem RowOf.contextScope (h : RowOf H ft room row a) :
    contextScope row.sessionId row.runId row.agentId = some a.scope := by
  unfold Context.contextScope
  rw [h.sessionId, h.runId, h.agentId]
  exact dif_pos a.scope.nonempty

/-- The entry a row decodes to. -/
theorem RowOf.decode (h : RowOf H ft room row a) : ∃ entry, decode ft room row = some entry ∧ entry.scope = a.scope ∧
    entry.kind = a.kind ∧ entry.entryId = a.entryId ∧ entry.createdAt = a.createdAt ∧
    entry.payload = sortKeys (.obj a.payload.kvs) ∧
    entry.blobs = (sortByKey (refsOf H a)).map fun b => (b.1, restored b.2) := by
  have hnames : ((refsOf H a).map Prod.fst).Nodup := by
    unfold refsOf
    rw [List.map_map]
    exact a.names
  have hkind : row.kind ≠ [] := h.kind ▸ h.kind_ne
  refine ⟨⟨a.scope, row.kind, sortKeys (.obj a.payload.kvs), (sortByKey (refsOf H a)).map fun b => (b.1, restored b.2),
    row.entryId, row.sequence, row.createdAt, hkind⟩, ?_, rfl, h.kind, h.entryId, h.createdAt, rfl, rfl⟩
  unfold Context.decode
  rw [decodeIn_dumpsSorted a.payload.keyed h.payload, decodeIn_dumpsSorted (blobsValue_keyed hnames) h.blobs]
  simp only [Except.toOption, Option.bind_eq_bind, Option.bind_some, decodeBlobs_blobsValue, h.contextScope]
  exact dif_pos hkind

/-- A decoded row records its append, as long as the blob store holds the
contents. -/
theorem RowOf.records (h : RowOf H ft room row a) {files : Files}
    (hheld : ∀ data ∈ a.contents, files (pathOf H data) = some data) :
    ∃ entry, Context.decode ft room row = some entry ∧ Records H files entry a := by
  obtain ⟨entry, hdec, hscope, hkind, hid, htime, hpayload, hblobs⟩ := h.decode
  refine ⟨entry, hdec, hscope, hkind, hid, htime, ?_, ?_, ?_⟩
  · rw [hpayload]
    exact a.payload.keyed.same_sortKeys
  · rw [hblobs, List.map_map]
    have hperm := (sortByKey_perm (refsOf H a)).map Prod.fst
    unfold refsOf at hperm ⊢
    rw [List.map_map (l := a.attachments)] at hperm
    exact hperm
  · intro b hb x hx hname
    rw [hblobs] at hb
    obtain ⟨r, hr, rfl⟩ := List.mem_map.mp hb
    obtain ⟨y, hy, rfl⟩ := List.mem_map.mp ((sortByKey_perm (refsOf H a)).mem_iff.mp hr)
    obtain rfl := List.inj_on_of_nodup_map a.names hy hx hname
    exact get_of_held (hheld y.2 (List.mem_map_of_mem hy)) _

end Rows

/-! ### The invariant -/

variable [DecidableEq F] {H : Sha256} {ft : FloatText F} {room : ℕ} {attached : Bytes → Prop} {st : Store}
  {kept : List (Append F)}

variable (H ft room attached) in
/-- The journal has the appends that are kept, in order and each with its
references, and the blob store has their contents. -/
structure Inv (st : Store) (kept : List (Append F)) : Prop where
  rows : List.Forall₂ (RowOf H ft room) st.db.rows kept
  increasing : st.db.rows.Pairwise fun a b => a.sequence < b.sequence
  bounds : ∀ row ∈ st.db.rows, 0 < row.sequence ∧ row.sequence ≤ st.db.lastSequence
  blobs : st.db.blobs = kept.flatMap (keysOf H)
  ids : (kept.map Append.entryId).Nodup
  held : ∀ a ∈ kept, ∀ data ∈ a.contents, st.files (pathOf H data) = some data
  named : Named H attached st.files

theorem Inv.empty : Inv H ft room attached .empty ([] : List (Append F)) where
  rows := .nil
  increasing := .nil
  bounds := by simp [Store.empty]
  blobs := rfl
  ids := List.nodup_nil
  held := by simp
  named := by
    intro p data h
    cases h

/-- More files do no harm. -/
theorem Inv.extend (h : Inv H ft room attached st kept) {files : Files} (hn : Named H attached files)
    (hext : Extends st.files files) : Inv H ft room attached { st with files } kept :=
  { h with
    held := fun a ha data hdata => hext _ _ (h.held a ha data hdata)
    named := hn }

theorem rowIds {rows : List Row} (h : List.Forall₂ (RowOf H ft room) rows kept) :
    rows.map Row.entryId = kept.map Append.entryId := by
  induction h with
  | nil => rfl
  | cons hrow _ ih => rw [List.map_cons, List.map_cons, hrow.entryId, ih]

theorem rows_filter {rows : List Row} (h : List.Forall₂ (RowOf H ft room) rows kept) (g : Bool → Bool)
    (scope : ContextScope) : List.Forall₂ (RowOf H ft room) (rows.filter fun row => g (row.inScope scope))
      (kept.filter fun a => g (decide (a.scope = scope))) := by
  refine List.rel_filter (fun row a hrow => ?_) h
  dsimp only
  rw [hrow.inScope scope]

/-! ### History -/

theorem mapM_of_forall₂ {α β γ : Type} {R : α → β → Prop} {S : γ → β → Prop} {f : α → Option γ} {l : List α}
    {m : List β} (h : List.Forall₂ R l m) (hf : ∀ a, ∀ b ∈ m, R a b → ∃ c, f a = some c ∧ S c b) :
    ∃ cs, l.mapM f = some cs ∧ List.Forall₂ S cs m := by
  induction h with
  | nil => exact ⟨[], rfl, .nil⟩
  | @cons a b l m hab _ ih =>
    obtain ⟨c, hc, hs⟩ := hf a b List.mem_cons_self hab
    obtain ⟨cs, hcs, hss⟩ := ih fun a b hb => hf a b (List.mem_cons_of_mem _ hb)
    refine ⟨c :: cs, ?_, .cons hs hss⟩
    rw [List.mapM_cons, hc, hcs]
    rfl

/-- The history of a scope is what is kept of it. -/
theorem Inv.history (h : Inv H ft room attached st kept) (scope : ContextScope) :
    ∃ entries, history ft room st scope = some entries ∧
      List.Forall₂ (Records H st.files) entries (kept.filter fun a => a.scope = scope) := by
  have hfilter : (st.db.rows.filter fun row => row.inScope scope && decide ((0 : ℤ) < row.sequence) &&
      (([] : List Chars).isEmpty || ([] : List Chars).contains row.kind)) = st.db.rows.filter (Row.inScope scope) := by
    refine List.filter_congr fun row hrow => ?_
    have hpos : (0 : ℤ) < row.sequence := Int.natCast_pos.mpr (h.bounds row hrow).1
    rw [decide_eq_true hpos, List.isEmpty_nil, Bool.true_or, Bool.and_true, Bool.and_true]
  have hsort : (st.db.rows.filter (Row.inScope scope)).insertionSort (fun a b => a.sequence ≤ b.sequence) =
      st.db.rows.filter (Row.inScope scope) :=
    ((h.increasing.sublist List.filter_sublist).imp Nat.le_of_lt).insertionSort_eq
  have hrows : List.Forall₂ (RowOf H ft room) (st.db.rows.filter (Row.inScope scope))
      (kept.filter fun a => a.scope = scope) := rows_filter h.rows id scope
  unfold Context.history listEntries
  dsimp only
  rw [hfilter, hsort]
  refine mapM_of_forall₂ hrows fun row a ha hrow => hrow.records ?_
  exact h.held a (List.mem_filter.mp ha).1

/-! ### Appending -/

theorem foldlM_insertBlob {keys : List (Chars × Chars)} {db : Db}
    (hrow : ∀ k ∈ keys, k.1 ∈ db.rows.map Row.entryId) :
    keys.foldlM insertBlob db = (Keyed.insertAllNew id db.blobs keys).map fun blobs => { db with blobs } := by
  unfold Keyed.insertAllNew
  induction keys generalizing db with
  | nil => rfl
  | cons k keys ih =>
    rw [List.foldlM_cons, List.foldlM_cons, insertBlob, if_pos (hrow k List.mem_cons_self)]
    cases Keyed.insertNew id db.blobs k with
    | none => rfl
    | some blobs => exact ih fun k' hk' => hrow k' (List.mem_cons_of_mem _ hk')

/-- The entry an append makes. -/
def entryOf (H : Sha256) (a : Append F) (hkind : a.kind ≠ []) : JournalEntry F :=
  ⟨a.scope, a.kind, .obj a.payload.kvs, refsOf H a, a.entryId, 0, a.createdAt, hkind⟩

variable (ft) in
theorem appendSync_accepted {db : Db} {a : Append F} (hstack : 2 ≤ room) (hkind : a.kind ≠ [])
    (hwrite : (Value.obj a.payload.kvs).writable room = true) (hkeys : (keysOf H a).Nodup)
    (hfresh : a.entryId ∉ db.rows.map Row.entryId) (hblobs : ∀ b ∈ db.blobs, b.1 ∈ db.rows.map Row.entryId) :
    ∃ row, RowOf H ft room row a ∧ row.sequence = db.lastSequence + 1 ∧
      appendSync ft room db (entryOf H a hkind) =
        some (row.sequence, ⟨db.rows ++ [row], db.blobs ++ keysOf H a, row.sequence⟩) := by
  obtain ⟨blobsJson, hbj⟩ : ∃ t, dumpsSorted ft compact room (blobsValue (refsOf H a)) = some t :=
    Option.isSome_iff_exists.mp (dumpsSorted_isSome.trans (refsOf_writable H hstack a))
  obtain ⟨payloadJson, hpj⟩ : ∃ t, dumpsSorted ft compact room (.obj a.payload.kvs) = some t :=
    Option.isSome_iff_exists.mp (dumpsSorted_isSome.trans hwrite)
  let row : Row := ⟨db.lastSequence + 1, a.entryId, a.scope.sessionId, a.scope.runId, a.scope.agentId, a.kind,
    payloadJson, blobsJson, a.createdAt⟩
  refine ⟨row, ⟨rfl, rfl, rfl, rfl, rfl, rfl, hpj, hbj, hkind⟩, rfl, ?_⟩
  have hrow : ∀ k ∈ keysOf H a, k.1 ∈ (db.rows ++ [row]).map Row.entryId := by
    intro k hk
    obtain ⟨data, _, rfl⟩ := List.mem_map.mp hk
    rw [List.map_append]
    exact List.mem_append_right _ (List.mem_singleton_self _)
  have hnew : ∀ k ∈ keysOf H a, id k ∉ db.blobs.map id := by
    intro k hk hmem
    obtain ⟨data, _, rfl⟩ := List.mem_map.mp hk
    rw [List.map_id] at hmem
    exact hfresh (hblobs _ hmem)
  unfold appendSync entryOf
  dsimp only
  rw [hbj, hpj, refsOf_keys]
  simp only [Option.bind_eq_bind, Option.bind_some]
  rw [Keyed.insertNew_of_notMem hfresh, Option.bind_some, foldlM_insertBlob hrow,
    Keyed.insertAllNew_of_nodup (by rwa [List.map_id]) hnew]
  rfl

/-- A transaction that commits has a payload to print and no digest twice, and
adds the row of its append. -/
theorem appendSync_committed {db : Db} {a : Append F} (hkind : a.kind ≠ []) {r : ℕ × Db}
    (h : appendSync ft room db (entryOf H a hkind) = some r) :
    (Value.obj a.payload.kvs).writable room = true ∧ (keysOf H a).Nodup ∧
      ∃ row, RowOf H ft room row a ∧ r.2.rows = db.rows ++ [row] := by
  unfold appendSync entryOf at h
  dsimp only at h
  rw [refsOf_keys] at h
  obtain ⟨blobsJson, hbj, h⟩ := Option.bind_eq_some_iff.mp h
  obtain ⟨payloadJson, hpj, h⟩ := Option.bind_eq_some_iff.mp h
  obtain ⟨rows, hrows, h⟩ := Option.bind_eq_some_iff.mp h
  obtain ⟨db', hdb', hr⟩ := Option.bind_eq_some_iff.mp h
  obtain ⟨_, rfl⟩ := Keyed.insertNew_eq_some hrows
  rw [foldlM_insertBlob] at hdb'
  · obtain ⟨blobs, hins, rfl⟩ := Option.map_eq_some_iff.mp hdb'
    have hnodup := (Keyed.nodup_of_insertAllNew hins).1
    rw [List.map_id] at hnodup
    obtain rfl := Option.some.inj hr
    exact ⟨dumpsSorted_isSome.symm.trans (by rw [hpj]; rfl), hnodup, _,
      ⟨rfl, rfl, rfl, rfl, rfl, rfl, hpj, hbj, hkind⟩, rfl⟩
  · intro k hk
    obtain ⟨data, _, rfl⟩ := List.mem_map.mp hk
    rw [List.map_append]
    exact List.mem_append_right _ (List.mem_singleton_self _)

/-- The attachments are put, and the rest is the transaction. -/
theorem append_spec (hd : DigestsDiffer H attached) (h : Inv H ft room attached st kept) {a : Append F}
    (ha : ∀ data ∈ a.contents, attached data) :
    ∃ files, Inv H ft room attached { st with files } kept ∧ (∀ data ∈ a.contents, files (pathOf H data) = some data) ∧
      append H ft room st a =
        match if hkind : a.kind ≠ [] then journalAppend ft room st.db (entryOf H a hkind) else none with
        | none => (none, { st with files })
        | some (entry, db) => (some entry, ⟨db, files⟩) := by
  obtain ⟨files, hput, hn, hheld, hext⟩ :=
    putAll_spec hd a.mediaTypes a.attachments st.files h.named fun x hx => ha x.2 (List.mem_map_of_mem hx)
  refine ⟨files, h.extend hn hext, fun data hdata => ?_, ?_⟩
  · obtain ⟨x, hx, rfl⟩ := List.mem_map.mp hdata
    exact hheld x hx
  · unfold append journalEntry
    rw [hput]
    dsimp only
    by_cases hkind : a.kind ≠ []
    · rw [dif_pos hkind, dif_pos hkind]
      rfl
    · rw [dif_neg hkind, dif_neg hkind]
      rfl

theorem Inv.blob_entry (h : Inv H ft room attached st kept) : ∀ b ∈ st.db.blobs, b.1 ∈ st.db.rows.map Row.entryId := by
  intro b hb
  rw [h.blobs] at hb
  obtain ⟨a, ha, hba⟩ := List.mem_flatMap.mp hb
  obtain ⟨data, _, rfl⟩ := List.mem_map.mp hba
  rw [rowIds h.rows]
  exact List.mem_map_of_mem ha

/-- **An accepted append is recorded.** -/
theorem append_accepted (hstack : 2 ≤ room) (hd : DigestsDiffer H attached) (h : Inv H ft room attached st kept) {a : Append F}
    (ha : ∀ data ∈ a.contents, attached data) (hacc : a.Accepted room) (hfresh : a.entryId ∉ kept.map Append.entryId) :
    (append H ft room st a).1.isSome = true ∧ Inv H ft room attached (append H ft room st a).2 (kept ++ [a]) := by
  obtain ⟨hkind, hwrite, hnodup⟩ := hacc
  obtain ⟨files, hinv, hheld, heq⟩ := append_spec hd h ha
  have hrowFresh : a.entryId ∉ st.db.rows.map Row.entryId := by
    rw [rowIds h.rows]
    exact hfresh
  obtain ⟨row, hrow, hseq, happend⟩ := appendSync_accepted ft hstack hkind hwrite ((keysOf_nodup_iff H hd ha).mpr hnodup)
    hrowFresh h.blob_entry
  rw [dif_pos hkind, journalAppend, happend, Option.map_some] at heq
  dsimp only at heq
  rw [heq]
  refine ⟨rfl, ?_, ?_, ?_, ?_, ?_, ?_, hinv.named⟩
  · exact List.rel_append h.rows (.cons hrow .nil)
  · rw [List.pairwise_append]
    refine ⟨h.increasing, List.pairwise_singleton _ _, fun r hr r' hr' => ?_⟩
    obtain rfl := List.mem_singleton.mp hr'
    have := (h.bounds r hr).2
    omega
  · intro r hr
    rcases List.mem_append.mp hr with hr | hr
    · have := h.bounds r hr
      dsimp only
      omega
    · obtain rfl := List.mem_singleton.mp hr
      dsimp only
      omega
  · rw [List.flatMap_append, List.flatMap_singleton, ← h.blobs]
  · rw [List.map_append, List.nodup_append]
    refine ⟨h.ids, List.nodup_singleton _, fun e he e' he' heq' => hfresh ?_⟩
    rw [← List.mem_singleton.mp he', ← heq']
    exact he
  · intro b hb
    rcases List.mem_append.mp hb with hb | hb
    · exact hinv.held b hb
    · obtain rfl := List.mem_singleton.mp hb
      exact hheld

/-- **A refused append raises** and changes nothing that is journalled. -/
theorem append_refused (hd : DigestsDiffer H attached) (h : Inv H ft room attached st kept) {a : Append F}
    (ha : ∀ data ∈ a.contents, attached data) (hacc : ¬ a.Accepted room) :
    (append H ft room st a).1 = none ∧ Inv H ft room attached (append H ft room st a).2 kept := by
  obtain ⟨files, hinv, _, heq⟩ := append_spec hd h ha
  have hnone : (if hkind : a.kind ≠ [] then journalAppend ft room st.db (entryOf H a hkind) else none) = none := by
    split
    · next hkind =>
      rw [journalAppend, Option.map_eq_none_iff, Option.eq_none_iff_forall_ne_some]
      intro r hr
      obtain ⟨hwrite, hkeys, -⟩ := appendSync_committed hkind hr
      exact hacc ⟨hkind, hwrite, (keysOf_nodup_iff H hd ha).mp hkeys⟩
    · rfl
  rw [hnone] at heq
  rw [heq]
  exact ⟨rfl, hinv⟩

/-! ### Deleting -/

/-- The ids that go with a scope are those of its appends. -/
theorem Inv.ids_inScope (h : Inv H ft room attached st kept) (scope : ContextScope) {a : Append F} (ha : a ∈ kept) :
    ((st.db.rows.filter (Row.inScope scope)).map Row.entryId).contains a.entryId = decide (a.scope = scope) := by
  have hids : (st.db.rows.filter (Row.inScope scope)).map Row.entryId =
      (kept.filter fun a => a.scope = scope).map Append.entryId := rowIds (rows_filter h.rows id scope)
  rw [hids, Bool.eq_iff_iff, List.contains_iff_mem, decide_eq_true_eq, List.mem_map]
  constructor
  · rintro ⟨b, hb, hid⟩
    obtain ⟨hb, hscope⟩ := List.mem_filter.mp hb
    rw [← List.inj_on_of_nodup_map h.ids hb ha hid]
    exact of_decide_eq_true hscope
  · intro hscope
    exact ⟨a, List.mem_filter.mpr ⟨ha, decide_eq_true hscope⟩, rfl⟩

theorem filter_flatMap_of {α β : Type} {f : α → List β} {p : β → Bool} {q : α → Bool} {l : List α}
    (h : ∀ a ∈ l, ∀ b ∈ f a, p b = q a) : (l.flatMap f).filter p = (l.filter q).flatMap f := by
  induction l with
  | nil => rfl
  | cons a l ih =>
    have ha := h a List.mem_cons_self
    rw [List.flatMap_cons, List.filter_append, ih fun a' ha' => h a' (List.mem_cons_of_mem _ ha'), List.filter_cons]
    cases hq : q a with
    | true =>
      have hall : (f a).filter p = f a := List.filter_eq_self.mpr fun b hb => (ha b hb).trans hq
      rw [hall, if_pos rfl, List.flatMap_cons]
    | false =>
      have hnone : (f a).filter p = [] := by
        refine List.filter_eq_nil_iff.mpr fun b hb => ?_
        rw [ha b hb, hq]
        exact Bool.false_ne_true
      rw [hnone, if_neg Bool.false_ne_true, List.nil_append]

/-- The references of the other scopes stay. -/
theorem Inv.blobs_deleted (h : Inv H ft room attached st kept) (scope : ContextScope) :
    (deleteScopeSync st.db scope).2.blobs = (kept.filter fun a => !decide (a.scope = scope)).flatMap (keysOf H) := by
  unfold deleteScopeSync
  dsimp only
  rw [h.blobs]
  refine filter_flatMap_of fun a ha b hb => ?_
  obtain ⟨data, _, rfl⟩ := List.mem_map.mp hb
  rw [h.ids_inScope scope ha]

/-- What is deleted is the digest of a content that no entry refers to. -/
theorem Inv.unreferenced (h : Inv H ft room attached st kept) {scope : ContextScope} {digest : Chars}
    (hd : digest ∈ (deleteScopeSync st.db scope).1) :
    (∃ data, digest = H.hexdigest data) ∧ digest ∉ (deleteScopeSync st.db scope).2.blobs.map Prod.snd := by
  unfold deleteScopeSync at hd ⊢
  dsimp only at hd ⊢
  obtain ⟨hcand, hfree⟩ := List.mem_filter.mp hd
  constructor
  · obtain ⟨b, hb, rfl⟩ := List.mem_map.mp (List.mem_dedup.mp hcand)
    have hb' := (List.mem_filter.mp hb).1
    rw [h.blobs] at hb'
    obtain ⟨a, _, hba⟩ := List.mem_flatMap.mp hb'
    obtain ⟨data, _, rfl⟩ := List.mem_map.mp hba
    exact ⟨data, rfl⟩
  · rwa [Bool.not_eq_true', ← Bool.not_eq_true, List.contains_iff_mem] at hfree

/-- **A deletion takes the entries of its scope** and leaves the others and their
blobs. -/
theorem deleteScope_spec (h : Inv H ft room attached st kept) (scope : ContextScope) :
    (deleteScope st scope).1 = true ∧
      Inv H ft room attached (deleteScope st scope).2 (kept.filter fun a => !decide (a.scope = scope)) := by
  obtain ⟨files, hdel, hsub, hkeep⟩ :=
    deleteBlobs_spec (H := H) (deleteScopeSync st.db scope).1 st.files fun d hd => (h.unreferenced hd).1
  have heq : deleteScope st scope = (true, ⟨(deleteScopeSync st.db scope).2, files⟩) := by
    unfold deleteScope
    dsimp only
    rw [hdel]
  have hrows : (deleteScopeSync st.db scope).2.rows = st.db.rows.filter fun row => !row.inScope scope := rfl
  rw [heq]
  refine ⟨rfl, ?_, ?_, ?_, h.blobs_deleted scope, ?_, ?_, ?_⟩
  · exact rows_filter h.rows not scope
  · exact h.increasing.sublist List.filter_sublist
  · intro row hrow
    exact h.bounds row (List.mem_filter.mp hrow).1
  · exact h.ids.sublist (List.filter_sublist.map _)
  · intro a ha data hdata
    have hused : H.hexdigest data ∈ (deleteScopeSync st.db scope).2.blobs.map Prod.snd := by
      rw [h.blobs_deleted scope]
      exact List.mem_map.mpr ⟨_, List.mem_flatMap.mpr ⟨a, ha, List.mem_map_of_mem hdata⟩, rfl⟩
    have hstays : H.hexdigest data ∉ (deleteScopeSync st.db scope).1 := fun hd => (h.unreferenced hd).2 hused
    dsimp only
    rw [hkeep data hstays]
    exact h.held a (List.mem_filter.mp ha).1 data hdata
  · intro p data hfile
    exact h.named p data (hsub p data hfile)

/-! ### Runs -/

/-- **Step**: an accepted call returns, another raises, and what is kept is
journalled. -/
theorem step_spec (hstack : 2 ≤ room) (hd : DigestsDiffer H attached) (h : Inv H ft room attached st kept) {c : Call F}
    (hc : ∀ a ∈ appends [c], (∀ data ∈ a.contents, attached data) ∧ a.entryId ∉ kept.map Append.entryId) :
    (step H ft room st c).1 = accepts room c ∧ Inv H ft room attached (step H ft room st c).2 (keep room kept c) := by
  cases c with
  | append a =>
    obtain ⟨ha, hfresh⟩ := hc a (List.mem_singleton_self a)
    unfold step keep accepts
    dsimp only
    by_cases hacc : a.Accepted room
    · rw [if_pos hacc, decide_eq_true hacc]
      exact append_accepted hstack hd h ha hacc hfresh
    · rw [if_neg hacc, decide_eq_false hacc]
      obtain ⟨hnone, hinv⟩ := append_refused hd h ha hacc
      exact ⟨by rw [hnone]; rfl, hinv⟩
  | deleteScope scope => exact deleteScope_spec h scope

/-- **Run**: of every run, whatever it begins with. -/
theorem run_spec (hstack : 2 ≤ room) (hd : DigestsDiffer H attached) : ∀ (calls : List (Call F)) (st : Store) (kept : List (Append F)),
    Inv H ft room attached st kept → ((kept ++ appends calls).map Append.entryId).Nodup →
      (∀ a ∈ appends calls, ∀ data ∈ a.contents, attached data) →
      (run H ft room st calls).1 = calls.map (accepts room) ∧ Inv H ft room attached (run H ft room st calls).2 (calls.foldl (keep room) kept)
  | [], st, kept, h, _, _ => ⟨rfl, h⟩
  | c :: cs, st, kept, h, hids, ha => by
    rw [appends_cons] at hids ha
    rw [← List.append_assoc] at hids
    have hstep := step_spec hstack hd h (c := c) fun a hmem => by
      refine ⟨ha a (List.mem_append_left _ hmem), fun hin => ?_⟩
      rw [List.map_append, List.map_append] at hids
      exact (List.nodup_append.mp (List.nodup_append.mp hids).1).2.2 _ hin _ (List.mem_map_of_mem hmem) rfl
    have hnext : ((keep room kept c ++ appends cs).map Append.entryId).Nodup :=
      hids.sublist (((keep_sublist kept c).append_right _).map _)
    obtain ⟨hoks, hinv⟩ := run_spec hstack hd cs _ _ hstep.2 hnext fun a hmem => ha a (List.mem_append_right _ hmem)
    rw [run, List.map_cons, List.foldl_cons, hstep.1, hoks]
    exact ⟨rfl, hinv⟩

/-- **The context store journals a run faithfully** exactly if Python can write
every payload and no append attaches the same bytes under two names. -/
theorem journal_faithful_iff {calls : List (Call F)} (h : Admissible H room calls) :
    Faithful H ft room calls ↔ ∀ a ∈ appends calls, (Value.obj a.payload.kvs).writable room = true ∧ a.contents.Nodup := by
  obtain ⟨hoks, hinv⟩ := run_spec h.stack h.digests calls .empty [] (Inv.empty : Inv H ft room _ .empty []) h.ids
    fun a ha data hdata => ⟨a, ha, hdata⟩
  have hcond : (∀ c ∈ calls, accepts room c = true) ↔
      ∀ a ∈ appends calls, (Value.obj a.payload.kvs).writable room = true ∧ a.contents.Nodup := by
    rw [accepts_iff]
    exact ⟨fun hall a ha => (hall a ha).2, fun hall a ha => ⟨h.kinds a ha, hall a ha⟩⟩
  rw [← hcond]
  constructor
  · rintro ⟨hall, _⟩ c hc
    rw [hoks] at hall
    exact hall _ (List.mem_map_of_mem hc)
  · intro hall
    refine ⟨fun ok hok => ?_, fun scope => ?_⟩
    · rw [hoks] at hok
      obtain ⟨c, hc, rfl⟩ := List.mem_map.mp hok
      exact hall c hc
    · have hhist := hinv.history scope
      rwa [kept_inScope scope calls [] hall] at hhist

/-! ### A shared blob, and a doubled one -/

open ToolCalls (noFloats)

def sampleRoom : ℕ := 1000

/-- SHA-256 of no byte and of the byte of `a`. -/
def sampleDigest (data : Bytes) : Chars :=
  if data.1 = [] then "e3b0c44298fc1c149afbf4c8996fb92427ae41e4649b934ca495991b7852b855".toList
  else if data.1 = [97] then "ca978112ca1bbdcafac231b39a23dc4da786eff8147c4e72b9807785afee48bb".toList
  else List.replicate 64 '0'

theorem sampleDigest_valid (data : Bytes) : validDigest (sampleDigest data) = true := by
  have hempty : validDigest "e3b0c44298fc1c149afbf4c8996fb92427ae41e4649b934ca495991b7852b855".toList = true := by
    rw [String.toList_ofList]
    decide
  have hone : validDigest "ca978112ca1bbdcafac231b39a23dc4da786eff8147c4e72b9807785afee48bb".toList = true := by
    rw [String.toList_ofList]
    decide
  unfold sampleDigest
  split_ifs
  · exact hempty
  · exact hone
  · decide

def sample : Sha256 := ⟨sampleDigest, sampleDigest_valid⟩

def emptyBytes : Bytes := ⟨[], by decide⟩

def oneByte : Bytes := ⟨[97], by decide⟩

def scopeA : ContextScope := ⟨['s'], ['a'], [], by decide⟩

def scopeB : ContextScope := ⟨['s'], ['b'], [], by decide⟩

/-- A payload of a number and a list, in an order other than that of the keys. -/
def samplePayload : Payload Unit :=
  ⟨[(['y'], .int 1), (['x'], .arr [.bool true])], .obj _ (by decide) fun kv hkv => by
    simp only [List.mem_cons, List.not_mem_nil, or_false] at hkv
    rcases hkv with rfl | rfl
    · exact .int 1
    · exact .arr _ fun x hx => by
        obtain rfl := List.mem_singleton.mp hx
        exact .bool true⟩

/-- Two scopes share a blob, and one of them is deleted and used again. -/
def sharedCalls : List (Call Unit) :=
  [.append ⟨scopeA, ['k'], samplePayload, [(['p'], oneByte), (['q'], emptyBytes)], [], ['1'], [], by decide⟩,
    .append ⟨scopeB, ['k'], samplePayload, [(['r'], oneByte)], [], ['2'], [], by decide⟩,
    .deleteScope scopeA,
    .append ⟨scopeA, ['k'], samplePayload, [(['p'], emptyBytes)], [], ['3'], [], by decide⟩]

/-- The same byte under two names. -/
def doubledCall : Call Unit :=
  .append ⟨scopeA, ['k'], samplePayload, [(['p'], oneByte), (['q'], oneByte)], [], ['1'], [], by decide⟩

theorem sampleDigest_ne : sampleDigest emptyBytes ≠ sampleDigest oneByte := by
  obtain ⟨rest, hempty⟩ : ∃ rest, sampleDigest emptyBytes = 'e' :: rest := ⟨_, (if_pos rfl).trans String.toList_ofList⟩
  obtain ⟨rest', hone⟩ : ∃ rest, sampleDigest oneByte = 'c' :: rest :=
    ⟨_, (if_neg (by decide)).trans ((if_pos rfl).trans String.toList_ofList)⟩
  rw [hempty, hone]
  intro heq
  exact absurd (List.cons.inj heq).1 (by decide)

theorem admissible_of {calls : List (Call Unit)} (hids : ((appends calls).map Append.entryId).Nodup)
    (hkinds : ∀ a ∈ appends calls, a.kind ≠ [])
    (hsub : ∀ a ∈ appends calls, ∀ data ∈ a.contents, data = emptyBytes ∨ data = oneByte) :
    Admissible sample sampleRoom calls := by
  refine ⟨by decide, hids, fun x y hx hy hdigest => ?_, hkinds⟩
  obtain ⟨a, ha, hxa⟩ := hx
  obtain ⟨b, hb, hyb⟩ := hy
  rcases hsub a ha x hxa with rfl | rfl <;> rcases hsub b hb y hyb with rfl | rfl
  · rfl
  · exact absurd hdigest sampleDigest_ne
  · exact absurd hdigest sampleDigest_ne.symm
  · rfl

theorem sharedCalls_admissible : Admissible sample sampleRoom sharedCalls :=
  admissible_of (by decide +kernel) (by decide +kernel) (by decide +kernel)

theorem journal_faithful_sharedCalls : Admissible sample sampleRoom sharedCalls ∧ Faithful sample noFloats sampleRoom sharedCalls :=
  ⟨sharedCalls_admissible, (journal_faithful_iff sharedCalls_admissible).mpr (by decide +kernel)⟩

/-- The second reference breaks the key, and the append raises. -/
theorem doubled_content_refused :
    Admissible sample sampleRoom [doubledCall] ∧ ¬ Faithful sample noFloats sampleRoom [doubledCall] := by
  have hadm : Admissible sample sampleRoom [doubledCall] :=
    admissible_of (by decide +kernel) (by decide +kernel) (by decide +kernel)
  obtain ⟨hoks, -⟩ := run_spec hadm.stack hadm.digests [doubledCall] .empty [] (Inv.empty : Inv sample noFloats sampleRoom _ .empty [])
    hadm.ids fun a ha data hdata => ⟨a, ha, hdata⟩
  have hrefused : accepts sampleRoom doubledCall = false := by decide +kernel
  rw [List.map_singleton, hrefused] at hoks
  refine ⟨hadm, fun h => ?_⟩
  exact absurd (h.1 false (by rw [hoks]; exact List.mem_singleton_self _)) Bool.false_ne_true

end Context
end AgentCore
