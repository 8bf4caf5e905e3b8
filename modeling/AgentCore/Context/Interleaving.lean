/-
# Appends and deletions that interleave

The calls of `ContextManager` on one event loop. A call is suspended at each
await: an append before every `put` and before its transaction, `delete_scope`
before its transaction and before every unlink, and between two of these
steps any other call may run. `delete_scope` returns a set, so its blobs are
unlinked in any order.

The deletion decides in its transaction which blobs nothing refers to and
unlinks them later, and an append that finds its blob on the disk does not
write it again. If no blob is unlinked that an entry has come to refer to, or
that an append in progress has already put, then no entry of the journal refers
to a blob that is gone.

Key definitions: `Progress`, `Shared`, `sharedStep`, `NoDangling`, `UnlinksUnused`.
Key theorem: `no_dangling`.
-/
import AgentCore.Context.Faithful
import AgentCore.Lib.Runs

namespace AgentCore
namespace Context

open PyJson

/-! ### Calls in progress -/

/-- How far a call has got. -/
inductive Progress (F : Type)
  /-- An append, with the references it has and the attachments still to put. -/
  | putting (a : Append F) (refs : List (Chars × BlobRef)) (rest : List (Chars × Bytes))
  /-- `delete_scope` before its transaction. -/
  | deleting (scope : ContextScope)
  /-- `delete_scope` with the blobs it has still to unlink. -/
  | unlinking (digests : List Chars)

/-- The store and the calls in progress. -/
structure Shared (F : Type) where
  store : Store
  calls : List (Progress F)

inductive Event (F : Type)
  | start (c : Call F)
  /-- The next put or transaction of a call. -/
  | advance (i : ℕ)
  | unlink (i : ℕ) (digest : Chars)

variable {F : Type} [DecidableEq F] (H : Sha256) (ft : FloatText F) (room : ℕ)

def Call.begin : Call F → Progress F
  | .append a => .putting a [] a.attachments
  | .deleteScope scope => .deleting scope

/-- A call goes on, or it has returned or raised. -/
def resume (calls : List (Progress F)) (i : ℕ) : Option (Progress F) → List (Progress F)
  | some p => calls.set i p
  | none => calls.eraseIdx i

/-- One put or one transaction. -/
def advance (st : Store) : Progress F → Option (Store × Option (Progress F))
  | .putting a refs ((name, data) :: rest) =>
    match put H st.files data ((a.mediaTypes.lookup name).getD octetStream) with
    | (none, files) => some ({ st with files }, none)
    | (some ref, files) => some ({ st with files }, some (.putting a (refs ++ [(name, ref)]) rest))
  | .putting a refs [] =>
    match (journalEntry a.scope a.kind (.obj a.payload.kvs) refs a.entryId 0 a.createdAt).bind
      (journalAppend ft room st.db) with
    | none => some (st, none)
    | some (_, db) => some ({ st with db }, none)
  | .deleting scope =>
    let (unreferenced, db) := deleteScopeSync st.db scope
    some ({ st with db }, if unreferenced = [] then none else some (.unlinking unreferenced))
  | .unlinking _ => none

/-- One unlink. -/
def unlink (st : Store) (digest : Chars) : Progress F → Option (Store × Option (Progress F))
  | .unlinking digests =>
    if digest ∈ digests then
      let (ok, files) := delete st.files digest
      some ({ st with files }, if ok = false ∨ digests.erase digest = [] then none
        else some (.unlinking (digests.erase digest)))
    else none
  | _ => none

def sharedStep (w : Shared F) : Event F → Option (Shared F)
  | .start c => some { w with calls := w.calls ++ [c.begin] }
  | .advance i => (w.calls[i]?).bind fun p => (advance H ft room w.store p).map fun r => ⟨r.1, resume w.calls i r.2⟩
  | .unlink i digest => (w.calls[i]?).bind fun p => (unlink w.store digest p).map fun r => ⟨r.1, resume w.calls i r.2⟩

/-! ### References -/

/-- The digests the entries of the journal refer to. -/
def referenced (db : Db) : List Chars :=
  db.rows.flatMap fun row => (decode ft room row).toList.flatMap fun entry => entry.blobs.map fun b => b.2.digest

/-- The blob store has a file for the digest. -/
def Present (files : Files) (digest : Chars) : Prop := ∃ p, path digest = some p ∧ (files p).isSome = true

/-- Every digest an entry refers to has its blob. -/
def NoDangling (st : Store) : Prop := ∀ digest ∈ referenced ft room st.db, Present st.files digest

/-- The digests an append in progress has put. -/
def Progress.digests : Progress F → List Chars
  | .putting _ refs _ => refs.map fun b => b.2.digest
  | _ => []

/-- A blob is unlinked only while no entry refers to it and no append in
progress has put it. -/
def UnlinksUnused (w : Shared F) : Event F → Prop
  | .unlink _ digest => digest ∉ referenced ft room w.store.db ∧ ∀ p ∈ w.calls, digest ∉ p.digests
  | _ => True

instance (w : Shared F) : ∀ e : Event F, Decidable (UnlinksUnused ft room w e)
  | .start _ => inferInstanceAs (Decidable True)
  | .advance _ => inferInstanceAs (Decidable True)
  | .unlink _ _ => inferInstanceAs (Decidable (_ ∧ _))

/-! ### Blobs that stay -/

variable {H ft room} {st : Store} {files : Files}

theorem path_inj {d d' : Chars} {p : Path} (h : path d = some p) (h' : path d' = some p) : d = d' := by
  unfold path at h h'
  split at h
  · split at h'
    · obtain rfl := Option.some.inj h
      obtain ⟨htake, hdrop⟩ := Prod.mk.inj (Option.some.inj h')
      rw [← List.take_append_drop 2 d, ← List.take_append_drop 2 d', htake, hdrop]
    · cases h'
  · cases h

theorem Present.write {d : Chars} (h : Present files d) (q : Path) (data : Bytes) :
    Present (write files q data) d := by
  obtain ⟨p, hp, hfile⟩ := h
  refine ⟨p, hp, ?_⟩
  unfold Context.write
  split
  · exact hfile
  · by_cases hq : p = q
    · rw [hq, setFile_self]
      rfl
    · rwa [setFile_other hq]

theorem present_write (data : Bytes) : Present (write files (pathOf H data) data) (H.hexdigest data) := by
  refine ⟨pathOf H data, path_hexdigest data, ?_⟩
  unfold Context.write
  split
  · next h => exact h
  · rw [setFile_self]
    rfl

theorem Present.delete {d d' : Chars} (h : Present files d) (hne : d ≠ d') : Present (delete files d').2 d := by
  obtain ⟨p, hp, hfile⟩ := h
  unfold Context.delete
  cases hp' : path d' with
  | none => exact ⟨p, hp, hfile⟩
  | some q =>
    have hq : p ≠ q := by
      rintro rfl
      exact hne (path_inj hp hp')
    refine ⟨p, hp, ?_⟩
    dsimp only
    rwa [setFile_other hq]

/-! ### What the journal refers to -/

omit [DecidableEq F] in
theorem mem_referenced {db : Db} {d : Chars} : d ∈ referenced ft room db ↔
    ∃ row ∈ db.rows, ∃ entry, decode ft room row = some entry ∧ ∃ b ∈ entry.blobs, b.2.digest = d := by
  unfold referenced
  simp only [List.mem_flatMap, Option.mem_toList, List.mem_map]

omit [DecidableEq F] in
theorem referenced_deleteScopeSync {db : Db} (scope : ContextScope) {d : Chars}
    (h : d ∈ referenced ft room (deleteScopeSync db scope).2) : d ∈ referenced ft room db := by
  obtain ⟨row, hrow, hrest⟩ := mem_referenced.mp h
  exact mem_referenced.mpr ⟨row, List.mem_of_mem_filter hrow, hrest⟩

/-- The digests of the row's entry are those of the append. -/
theorem RowOf.digest_mem {row : Row} {a : Append F} (h : RowOf H ft room row a) {entry : JournalEntry F}
    (hdec : Context.decode ft room row = some entry) {b : Chars × BlobRef} (hb : b ∈ entry.blobs) :
    ∃ r ∈ refsOf H a, r.2.digest = b.2.digest := by
  obtain ⟨entry', hdec', -, -, -, -, -, hblobs⟩ := h.decode
  obtain rfl := Option.some.inj (hdec.symm.trans hdec')
  rw [hblobs] at hb
  obtain ⟨r, hr, rfl⟩ := List.mem_map.mp hb
  exact ⟨r, (sortByKey_perm (refsOf H a)).mem_iff.mp hr, rfl⟩

/-- The transaction of an append adds its own references. -/
theorem referenced_journalAppend {db : Db} {a : Append F} {r : JournalEntry F × Db}
    (h : (journalEntry a.scope a.kind (.obj a.payload.kvs) (refsOf H a) a.entryId 0 a.createdAt).bind
      (journalAppend ft room db) = some r) {d : Chars} (hd : d ∈ referenced ft room r.2) :
    d ∈ referenced ft room db ∨ ∃ ref ∈ refsOf H a, ref.2.digest = d := by
  obtain ⟨entry, hentry, hcommit⟩ := Option.bind_eq_some_iff.mp h
  unfold journalEntry at hentry
  split at hentry
  · next hkind =>
    obtain rfl := Option.some.inj hentry
    obtain ⟨s, hsync, rfl⟩ := Option.map_eq_some_iff.mp hcommit
    obtain ⟨-, -, row, hrow, hrows⟩ := appendSync_committed hkind hsync
    obtain ⟨row', hrow', entry', hdec, b, hb, rfl⟩ := mem_referenced.mp hd
    dsimp only at hrow'
    rw [hrows] at hrow'
    rcases List.mem_append.mp hrow' with hold | hnew
    · exact .inl (mem_referenced.mpr ⟨row', hold, entry', hdec, b, hb, rfl⟩)
    · rw [List.mem_singleton.mp hnew] at hdec
      exact .inr (hrow.digest_mem hdec hb)
  · cases hentry

/-! ### The invariant -/

/-- An append in progress has the references of the attachments it has put, and
their blobs are there. -/
def Progress.Held (H : Sha256) (files : Files) : Progress F → Prop
  | .putting a refs rest => refs ++ rest.map (fun x => (x.1, refOf H a.mediaTypes x)) = refsOf H a ∧
      ∀ b ∈ refs, Present files b.2.digest
  | _ => True

variable (H ft room) in
structure Kept (w : Shared F) : Prop where
  journal : NoDangling ft room w.store
  calls : ∀ p ∈ w.calls, p.Held H w.store.files

omit [DecidableEq F] in
theorem Progress.Held.imp {files' : Files} {p : Progress F} (h : p.Held H files)
    (hfiles : ∀ d ∈ p.digests, Present files d → Present files' d) : p.Held H files' := by
  cases p with
  | putting a refs rest => exact ⟨h.1, fun b hb => hfiles _ (List.mem_map_of_mem hb) (h.2 b hb)⟩
  | deleting => exact h
  | unlinking => exact h

omit [DecidableEq F] in
theorem mem_resume {calls : List (Progress F)} {i : ℕ} {next : Option (Progress F)} {p : Progress F}
    (h : p ∈ resume calls i next) : p ∈ calls ∨ next = some p := by
  cases next with
  | none => exact .inl (List.mem_of_mem_eraseIdx h)
  | some q =>
    rcases List.mem_or_eq_of_mem_set h with h | rfl
    · exact .inl h
    · exact .inr rfl

/-- A put or a transaction of one call. -/
theorem advance_kept {w : Shared F} {p : Progress F} {r : Store × Option (Progress F)} (h : Kept H ft room w)
    (hp : p.Held H w.store.files) (hadv : advance H ft room w.store p = some r) :
    NoDangling ft room r.1 ∧ (∀ d, Present w.store.files d → Present r.1.files d) ∧
      ∀ q, r.2 = some q → q.Held H r.1.files := by
  unfold advance at hadv
  split at hadv
  · next a refs name data rest =>
    rw [put_eq] at hadv
    obtain rfl := Option.some.inj hadv
    have hkeep : ∀ d, Present w.store.files d → Present (write w.store.files (pathOf H data) data) d :=
      fun d hd => hd.write _ _
    refine ⟨fun d hd => hkeep d (h.journal d hd), hkeep, fun q hq => ?_⟩
    obtain rfl := Option.some.inj hq
    refine ⟨?_, fun b hb => ?_⟩
    · rw [← hp.1, List.append_assoc]
      rfl
    · rcases List.mem_append.mp hb with hb | hb
      · exact hkeep _ (hp.2 b hb)
      · rw [List.mem_singleton.mp hb]
        exact present_write data
  · next a refs =>
    have hrefs : refs = refsOf H a := by simpa using hp.1
    split at hadv
    · obtain rfl := Option.some.inj hadv
      exact ⟨h.journal, fun d hd => hd, fun q hq => by cases hq⟩
    · next entry db hcommit =>
      obtain rfl := Option.some.inj hadv
      refine ⟨fun d hd => ?_, fun d hd => hd, fun q hq => by cases hq⟩
      rw [hrefs] at hcommit hp
      rcases referenced_journalAppend hcommit hd with hold | ⟨ref, href, rfl⟩
      · exact h.journal d hold
      · exact hp.2 ref href
  · next scope =>
    obtain rfl := Option.some.inj hadv
    refine ⟨fun d hd => h.journal d (referenced_deleteScopeSync scope hd), fun d hd => hd, fun q hq => ?_⟩
    obtain ⟨-, hq⟩ := Option.ite_none_left_eq_some.mp hq
    obtain rfl := Option.some.inj hq
    trivial
  · cases hadv

omit [DecidableEq F] in
/-- The unlinking of a blob nobody uses. -/
theorem unlink_kept {w : Shared F} {p : Progress F} {digest : Chars} {r : Store × Option (Progress F)}
    (h : Kept H ft room w) (hunused : digest ∉ referenced ft room w.store.db)
    (hunl : unlink w.store digest p = some r) :
    NoDangling ft room r.1 ∧ (∀ d, d ≠ digest → Present w.store.files d → Present r.1.files d) ∧
      ∀ q, r.2 = some q → q.Held H r.1.files := by
  unfold unlink at hunl
  split at hunl
  · split at hunl
    · obtain rfl := Option.some.inj hunl
      have hkeep : ∀ d, d ≠ digest → Present w.store.files d → Present (delete w.store.files digest).2 d :=
        fun d hne hd => hd.delete hne
      refine ⟨fun d hd => hkeep d ?_ (h.journal d hd), hkeep, fun q hq => ?_⟩
      · rintro rfl
        exact hunused hd
      · obtain ⟨-, hq⟩ := Option.ite_none_left_eq_some.mp hq
        obtain rfl := Option.some.inj hq
        trivial
    · cases hunl
  · cases hunl

theorem sharedStep_kept {w w' : Shared F} {e : Event F} (h : Kept H ft room w) (hsafe : UnlinksUnused ft room w e)
    (hstep : sharedStep H ft room w e = some w') : Kept H ft room w' := by
  cases e with
  | start c =>
    obtain rfl := Option.some.inj hstep
    refine ⟨h.journal, fun p hp => ?_⟩
    rcases List.mem_append.mp hp with hp | hp
    · exact h.calls p hp
    · rw [List.mem_singleton.mp hp]
      cases c with
      | append a => exact ⟨rfl, fun b hb => absurd hb List.not_mem_nil⟩
      | deleteScope scope => trivial
  | advance i =>
    obtain ⟨p, hp, hstep⟩ := Option.bind_eq_some_iff.mp hstep
    obtain ⟨r, hadv, rfl⟩ := Option.map_eq_some_iff.mp hstep
    obtain ⟨hjournal, hkeep, hnext⟩ := advance_kept h (h.calls p (List.mem_of_getElem? hp)) hadv
    refine ⟨hjournal, fun q hq => ?_⟩
    rcases mem_resume hq with hq | hq
    · exact (h.calls q hq).imp fun d _ => hkeep d
    · exact hnext q hq
  | unlink i digest =>
    obtain ⟨p, -, hstep⟩ := Option.bind_eq_some_iff.mp hstep
    obtain ⟨r, hunl, rfl⟩ := Option.map_eq_some_iff.mp hstep
    obtain ⟨hjournal, hkeep, hnext⟩ := unlink_kept h hsafe.1 hunl
    refine ⟨hjournal, fun q hq => ?_⟩
    rcases mem_resume hq with hq | hq
    · refine (h.calls q hq).imp fun d hd => hkeep d ?_
      rintro rfl
      exact hsafe.2 q hq hd
    · exact hnext q hq

/-- **No dangling references**: in a run of any calls whose steps interleave in
any way, but unlink no blob that is in use, every digest an entry of the
journal refers to has its blob. -/
theorem no_dangling {es : List (Event F)} {w : Shared F}
    (h : Runs.Trace (sharedStep H ft room) (fun _ w e => UnlinksUnused ft room w e) ⟨.empty, []⟩ es w) :
    NoDangling ft room w.store := by
  have hkept : Kept H ft room w := by
    refine Runs.Trace.invariant (I := fun _ w => Kept H ft room w) ?_ ?_ h
    · exact ⟨fun d hd => absurd hd List.not_mem_nil, fun p hp => absurd hp List.not_mem_nil⟩
    · exact fun _ w e w' hw hsafe hs => sharedStep_kept hw hsafe hs
  exact hkept.journal

/-! ### A deletion and an append of the same content -/

open ToolCalls (noFloats)

/-- An append of one byte. -/
def attach (scope : ContextScope) (entryId : Chars) : Append Unit :=
  ⟨scope, ['k'], ⟨[], .obj _ (by decide) (by simp)⟩, [(['p'], oneByte)], [], entryId, [], by decide⟩

/-- One scope is deleted while the byte is appended to another, which puts it
after the deletion has unlinked it. -/
def putLater : List (Event Unit) :=
  [.start (.append (attach scopeA ['1'])), .advance 0, .advance 0,
    .start (.deleteScope scopeA), .advance 0, .start (.append (attach scopeB ['2'])),
    .unlink 0 (sampleDigest oneByte), .advance 0, .advance 0]

/-- The same, but the append puts and journals between the transaction and the
unlink. -/
def putBetween : List (Event Unit) :=
  [.start (.append (attach scopeA ['1'])), .advance 0, .advance 0,
    .start (.deleteScope scopeA), .advance 0, .start (.append (attach scopeB ['2'])),
    .advance 1, .advance 1, .unlink 0 (sampleDigest oneByte)]

theorem no_dangling_putLater : ∃ w : Shared Unit,
    Runs.Trace (sharedStep sample noFloats sampleRoom) (fun _ w e => UnlinksUnused noFloats sampleRoom w e) ⟨.empty, []⟩ putLater w ∧
      (referenced noFloats sampleRoom w.store.db).length = 1 ∧ NoDangling noFloats sampleRoom w.store := by
  have hrefs : (Runs.run (sharedStep sample noFloats sampleRoom) ⟨.empty, []⟩ putLater).map
      (fun w => (referenced noFloats sampleRoom w.store.db).length) = some 1 := by decide +kernel
  obtain ⟨w, hrun, hlen⟩ := Option.map_eq_some_iff.mp hrefs
  have htrace := Runs.Trace.of_run (p := fun _ w e => decide (UnlinksUnused noFloats sampleRoom w e))
    (fun _ _ _ => of_decide_eq_true) (by decide +kernel) hrun
  exact ⟨w, htrace, hlen, no_dangling htrace⟩

/-- The append finds its blob, the deletion takes it away, and the entry of the
other scope is left with nothing to refer to. -/
theorem put_found_then_unlinked : ∃ w : Shared Unit,
    Runs.Trace (sharedStep sample noFloats sampleRoom) (fun _ _ _ => True) ⟨.empty, []⟩ putBetween w ∧
      w.calls = [] ∧ ¬ NoDangling noFloats sampleRoom w.store := by
  have hend : (Runs.run (sharedStep sample noFloats sampleRoom) ⟨.empty, []⟩ putBetween).map (fun w => (w.calls.length,
      (referenced noFloats sampleRoom w.store.db).map fun d => (path d).map fun p => (w.store.files p).isSome)) =
      some (0, [some false]) := by decide +kernel
  obtain ⟨w, hrun, hw⟩ := Option.map_eq_some_iff.mp hend
  have htrace := Runs.Trace.of_run_any hrun
  obtain ⟨hcalls, hrefs⟩ := Prod.mk.inj hw
  obtain ⟨d, rest, href, hfile, -⟩ := List.map_eq_cons_iff.mp hrefs
  refine ⟨w, htrace, List.eq_nil_of_length_eq_zero hcalls, fun h => ?_⟩
  obtain ⟨p, hp, hsome⟩ := h d (by rw [href]; exact List.mem_cons_self)
  rw [hp, Option.map_some, hsome] at hfile
  exact absurd hfile (by decide)

end Context
end AgentCore
