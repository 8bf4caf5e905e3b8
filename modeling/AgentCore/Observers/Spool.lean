/-
# The spool mirrors the history

A sync of `_sync_history` keeps what it has found unchanged and writes the rest, so
what it leaves on disk is the kept lines and then new ones (`syncHistory_spec`). The
entries describe the file in every state (`Consistent`), also after a sync that
raises in the middle; and since a deep sync that raises stays due, the loop's next
sync is deep again.

Nothing is asked of the rendering, and of the digest only that no line on disk has
the digest of another line that the sync renders.

Key definitions: `Describes`, `CollisionFree`, `Mirrors`, `KeepsSpool`.
Key theorem: `spool_mirrors_history`.
-/
import AgentCore.Lib.Runs
import AgentCore.Observers.Trajectory

namespace AgentCore
namespace Trajectory

variable {D : Type} [DecidableEq D]

section Spool

variable (render : Heap → Ref → Option Ref → Option Line) (lineDigest : Line → D)

/-! ### What the spool says -/

/-- Entries and the lines they stand for, from an offset on. -/
abbrev Recorded : ℕ → List (SpoolEntry D) → List Line → Prop :=
  Spans.Recorded SpoolEntry.digest SpoolEntry.endOffset lineDigest

/-- The entries describe exactly what is in the file. -/
def Describes (s : Observer D) (lines : List Line) : Prop :=
  Recorded lineDigest 0 s.entries lines ∧ s.spool = some lines.flatten

/-- No line of the file has the digest of another line that a message of the
history is rendered to. -/
def CollisionFree (s : Observer D) : Prop :=
  ∀ history lines, s.history = some history → Describes lineDigest s lines → ∀ l ∈ lines, ∀ m ∈ history,
    ∀ line ∈ render s.heap m (s.details history m), lineDigest line = lineDigest l → line = l

/-- What is in the file is still what its messages are rendered to. -/
def Current (s : Observer D) : Prop :=
  ∀ history lines, s.history = some history → Describes lineDigest s lines →
    List.Forall₂ (fun e l => render s.heap e.message (s.details history e.message) = some l) s.entries lines

/-- The file is the rendering of the history, message by message. -/
def Mirrors (s : Observer D) : Prop :=
  ∀ history, s.history = some history → ∃ lines,
    List.Forall₂ (fun m line => render s.heap m (detailsFor s.heap s.metadata m) = some line) history lines ∧
      s.spool = some lines.flatten

/-- Where a sync that raised leaves the spool: as it was, or with the lines of
the first messages of the history. -/
def Interrupted (s s' : Observer D) : Prop :=
  (s'.entries = s.entries ∧ s'.spool = s.spool) ∨
    ∃ history, s.history = some history ∧ s'.entries.map (·.message) <+: history

end Spool

section Proofs

variable {heap : Heap} {cfg : Settings} {render : Heap → Ref → Option Ref → Option Line} {lineDigest : Line → D}

/-- What a comparison has found: the messages kept are the first of the history,
and after a deep one their lines have the digests of their renderings. -/
structure Kept (heap : Heap) (render : Heap → Ref → Option Ref → Option Line) (lineDigest : Line → D) (deep : Bool)
    (details : Ref → Option Ref) (es : List (SpoolEntry D)) (ms : List Ref) (ls : List Line) (keep : ℕ)
    (first : Option Line) : Prop where
  messages : (es.take keep).map (·.message) = ms.take keep
  first : ∀ line ∈ first, ∃ m rest, ms.drop keep = m :: rest ∧ render heap m (details m) = some line
  lines : deep = true → List.Forall₂
    (fun m l => ∃ line, render heap m (details m) = some line ∧ lineDigest line = lineDigest l) (ms.take keep)
    (ls.take keep)

section Kept

variable {deep : Bool} {details : Ref → Option Ref}

omit [DecidableEq D] in
theorem Kept.nothing (es : List (SpoolEntry D)) (ms : List Ref) (ls : List Line) :
    Kept heap render lineDigest deep details es ms ls 0 none where
  messages := rfl
  first := fun _ hl => absurd hl (Option.not_mem_none _)
  lines := fun _ => .nil

omit [DecidableEq D] in
theorem Kept.next {e : SpoolEntry D} {es : List (SpoolEntry D)} {m : Ref} {ms : List Ref} {l : Line} {ls : List Line}
    {keep : ℕ} {first : Option Line} (h : Kept heap render lineDigest deep details es ms ls keep first)
    (hm : e.message = m)
    (hl : deep = true → ∃ line, render heap m (details m) = some line ∧ lineDigest line = lineDigest l) :
    Kept heap render lineDigest deep details (e :: es) (m :: ms) (l :: ls) (keep + 1) first where
  messages := by rw [List.take_succ_cons, List.map_cons, hm, h.messages, List.take_succ_cons]
  first := h.first
  lines := fun hdeep => .cons (hl hdeep) (h.lines hdeep)

theorem unchanged_kept :
    ∀ {start : ℕ} {es : List (SpoolEntry D)} {ms : List Ref} {ls : List Line} {keep : ℕ} {first : Option Line},
    Recorded lineDigest start es ls → unchanged heap render lineDigest deep details es ms = some (keep, first) →
      Kept heap render lineDigest deep details es ms ls keep first
  | _, [], ms, ls, keep, first, _, h => by
    obtain ⟨rfl, rfl⟩ := Prod.mk.inj (Option.some.inj h)
    exact .nothing _ _ _
  | _, e :: es, [], ls, keep, first, _, h => by
    obtain ⟨rfl, rfl⟩ := Prod.mk.inj (Option.some.inj h)
    exact .nothing _ _ _
  | start, e :: es, m :: ms, l :: ls, keep, first, ⟨hd, _, hrec⟩, h => by
    rw [unchanged] at h
    by_cases hdiff : e.message ≠ m ∨ e.signature.same (signature heap m (details m)) = false
    · rw [if_pos hdiff] at h
      obtain ⟨rfl, rfl⟩ := Prod.mk.inj (Option.some.inj h)
      exact .nothing _ _ _
    · rw [if_neg hdiff] at h
      have hm : e.message = m := by
        by_contra hne
        exact hdiff (.inl hne)
      by_cases hdeep : deep = true
      · rw [if_pos hdeep] at h
        cases hr : render heap m (details m) with
        | none => simp [hr] at h
        | some line =>
          simp only [hr] at h
          by_cases hdig : lineDigest line ≠ e.digest
          · rw [if_pos hdig] at h
            obtain ⟨rfl, rfl⟩ := Prod.mk.inj (Option.some.inj h)
            exact ⟨rfl, fun line' hl => ⟨m, ms, rfl, hr.trans hl⟩, fun _ => .nil⟩
          · rw [if_neg hdig] at h
            obtain ⟨⟨k, f⟩, hk, hkf⟩ := Option.map_eq_some_iff.mp h
            obtain ⟨rfl, rfl⟩ := Prod.mk.inj hkf
            have hline : lineDigest line = lineDigest l := (not_ne_iff.mp hdig).trans hd
            exact (unchanged_kept hrec hk).next hm fun _ => ⟨line, hr, hline⟩
      · rw [if_neg hdeep] at h
        obtain ⟨⟨k, f⟩, hk, hkf⟩ := Option.map_eq_some_iff.mp h
        obtain ⟨rfl, rfl⟩ := Prod.mk.inj hkf
        exact (unchanged_kept hrec hk).next hm fun hd => absurd hd hdeep

end Kept

omit [DecidableEq D] in
/-- The lines that the rest of a sync adds: those of the first messages left, and
of all of them unless it raises. -/
theorem writeLines_spec (lineDigest : Line → D) {details : Ref → Option Ref} :
    ∀ (ms : List Ref) (first : Option Line) (offset : ℕ),
    (∀ line ∈ first, ∃ m rest, ms = m :: rest ∧ render heap m (details m) = some line) →
    ∃ done rest lines, ms = done ++ rest ∧
      List.Forall₂ (fun m line => render heap m (details m) = some line) done lines ∧
      (writeLines heap render lineDigest details first offset ms).bytes = lines.flatten ∧
      Recorded lineDigest offset (writeLines heap render lineDigest details first offset ms).entries lines ∧
      (writeLines heap render lineDigest details first offset ms).entries.map (·.message) = done ∧
      ((writeLines heap render lineDigest details first offset ms).raised = false → rest = [])
  | [], _, _, _ => ⟨[], [], [], rfl, .nil, rfl, trivial, rfl, fun _ => rfl⟩
  | m :: ms, first, offset, hfirst => by
    have hline : ∀ line, (first.orElse fun _ => render heap m (details m)) = some line →
        render heap m (details m) = some line := by
      intro line h
      cases first with
      | none => exact h
      | some line' =>
        obtain ⟨m', rest, heq, hr⟩ := hfirst line' rfl
        obtain ⟨rfl, rfl⟩ := List.cons.inj heq
        obtain rfl := Option.some.inj h
        exact hr
    rw [writeLines]
    cases hget : first.orElse fun _ => render heap m (details m) with
    | none => exact ⟨[], m :: ms, [], rfl, .nil, rfl, trivial, rfl, fun h => by cases h⟩
    | some line =>
      obtain ⟨done, rest, lines, hsplit, hall, hbytes, hrec, hmsgs, hraised⟩ :=
        writeLines_spec lineDigest ms none (offset + line.length) fun _ hl => absurd hl (Option.not_mem_none _)
      refine ⟨m :: done, rest, line :: lines, ?_, .cons (hline line hget) hall, ?_, ⟨rfl, rfl, hrec⟩, ?_, hraised⟩
      · rw [hsplit, List.cons_append]
      · dsimp only
        rw [hbytes, List.flatten_cons]
      · dsimp only
        rw [List.map_cons, hmsgs]

/-! ### A sync -/

/-- The entries describe the file, or there are none. -/
def Consistent (lineDigest : Line → D) (s : Observer D) : Prop :=
  s.entries = [] ∨ ∃ lines, Describes lineDigest s lines

/-- What a sync can rely on to keep a line. -/
def Reliable (render : Heap → Ref → Option Ref → Option Line) (lineDigest : Line → D) (deep : Bool) (s : Observer D) :
    Prop :=
  (deep = true ∧ CollisionFree render lineDigest s) ∨ Current render lineDigest s

omit [DecidableEq D] in
theorem Kept.rendered {s : Observer D} {deep : Bool} {history : List Ref} {lines : List Line} {keep : ℕ}
    {first : Option Line} (hs : s.history = some history) (hlines : Describes lineDigest s lines)
    (h : Kept s.heap render lineDigest deep (s.details history) s.entries history lines keep first)
    (hrel : Reliable render lineDigest deep s) :
    List.Forall₂ (fun m line => render s.heap m (s.details history m) = some line) (history.take keep)
      (lines.take keep) := by
  rcases hrel with ⟨hdeep, hfree⟩ | hcur
  · have hall := h.lines hdeep
    refine List.forall₂_iff_get.mpr ⟨hall.length_eq, fun i hi hi' => ?_⟩
    obtain ⟨line, hr, hdig⟩ := hall.get hi hi'
    have hmem : (lines.take keep).get ⟨i, hi'⟩ ∈ lines := List.mem_of_mem_take (List.get_mem _ _)
    have hmem' : (history.take keep).get ⟨i, hi⟩ ∈ history := List.mem_of_mem_take (List.get_mem _ _)
    rw [← hfree history lines hs hlines _ hmem _ hmem' line hr hdig]
    exact hr
  · have hall := List.forall₂_take keep (hcur history lines hs hlines)
    rw [← h.messages, List.forall₂_map_left_iff]
    exact hall

/-- What is left of the file when the writing starts. -/
theorem compare_kept {s : Observer D} {deep : Bool} {history : List Ref} {keep : ℕ} {first : Option Line}
    (hs : s.history = some history) (hcons : Consistent lineDigest s)
    (h : compare render lineDigest deep (s.details history) s history = some (keep, first)) :
    ∃ kept, Recorded lineDigest 0 (s.entries.take keep) kept ∧
      truncate (if keep = 0 then [] else s.spool.getD []) (lastOffset (s.entries.take keep)) = kept.flatten ∧
      (s.entries.take keep).map (·.message) = history.take keep ∧
      (∀ line ∈ first, ∃ m rest, history.drop keep = m :: rest ∧ render s.heap m (s.details history m) = some line) ∧
      (Reliable render lineDigest deep s →
        List.Forall₂ (fun m line => render s.heap m (s.details history m) = some line) (history.take keep) kept) := by
  rcases hcons with hnil | ⟨lines, hlines⟩
  · have hkeep : compare render lineDigest deep (s.details history) s history = some (0, none) := by
      unfold compare
      rw [hnil]
      cases s.spool with
      | none => rfl
      | some bytes => rfl
    rw [hkeep] at h
    obtain ⟨rfl, rfl⟩ := Prod.mk.inj (Option.some.inj h)
    exact ⟨[], trivial, rfl, rfl, fun _ hl => absurd hl (Option.not_mem_none _), fun _ => .nil⟩
  · obtain ⟨hrec, hspool⟩ := hlines
    simp only [compare, hspool] at h
    have hkept := unchanged_kept hrec h
    refine ⟨lines.take keep, hrec.take keep, ?_, hkept.messages, hkept.first, hkept.rendered hs ⟨hrec, hspool⟩⟩
    by_cases hzero : keep = 0
    · subst hzero
      rfl
    · rw [if_neg hzero, hspool]
      exact hrec.truncate 0 keep

variable (render) in
/-- **A sync** leaves entries that describe the file, whether it raises or not,
and the rendering of the history if it does not and could rely on what it kept. -/
theorem syncHistory_spec {s : Observer D} (deep : Bool) {history : List Ref} (hs : s.history = some history)
    (hcons : Consistent lineDigest s) :
    (∃ lines, Describes lineDigest (syncHistory render lineDigest deep s).1 lines) ∧
      ((syncHistory render lineDigest deep s).2 = true → Interrupted s (syncHistory render lineDigest deep s).1) ∧
      ((syncHistory render lineDigest deep s).2 = false → Reliable render lineDigest deep s →
        Mirrors render (syncHistory render lineDigest deep s).1) := by
  unfold syncHistory
  rw [hs]
  dsimp only
  cases hcmp : compare render lineDigest deep (s.details history) s history with
  | none =>
    dsimp only
    refine ⟨?_, fun _ => .inl ⟨rfl, rfl⟩, fun h => by cases h⟩
    rcases hcons with hnil | hlines
    · -- nothing is compared where nothing is recorded
      unfold compare at hcmp
      rw [hnil] at hcmp
      cases hspool : s.spool with
      | none => simp [hspool] at hcmp
      | some bytes => simp [hspool, unchanged] at hcmp
    · exact hlines
  | some found =>
    obtain ⟨keep, first⟩ := found
    obtain ⟨kept, hrec, hbytes, hmsgs, hfirst, hkept⟩ := compare_kept hs hcons hcmp
    dsimp only
    have hoff : lastOffset (s.entries.take keep) = kept.flatten.length := hrec.lastStop
    obtain ⟨done, rest, lines, hsplit, hall, hwritten, hrec', hmsgs', hraised⟩ :=
      writeLines_spec lineDigest (history.drop keep) first (lastOffset (s.entries.take keep)) hfirst
    have hhist : history = history.take keep ++ done ++ rest := by
      rw [List.append_assoc, ← hsplit, List.take_append_drop]
    refine ⟨⟨kept ++ lines, hrec.append ?_, ?_⟩, fun _ => .inr ⟨history, hs, ?_⟩, fun hno hrel => ?_⟩
    · rw [Nat.zero_add, ← hoff]
      exact hrec'
    · rw [hbytes, hwritten, List.flatten_append]
    · dsimp only
      rw [List.map_append, hmsgs, hmsgs']
      exact ⟨rest, hhist.symm⟩
    · rintro history' hh
      obtain rfl := Option.some.inj hh
      rw [hraised hno, List.append_nil] at hhist
      refine ⟨kept ++ lines, ?_, ?_⟩
      · have hrendered : List.Forall₂ (fun m line => render s.heap m (s.details history m) = some line)
            (history.take keep ++ done) (kept ++ lines) := List.rel_append (hkept hrel) hall
        rw [← hhist] at hrendered
        exact hrendered
      · rw [hbytes, hwritten, List.flatten_append]

/-! ### Flushes and runs -/

variable (render lineDigest) in
theorem syncHistory_deepCheckDue (deep : Bool) (s : Observer D) :
    (syncHistory render lineDigest deep s).1.deepCheckDue = s.deepCheckDue := by
  unfold syncHistory
  split
  · rfl
  · dsimp only
    split <;> rfl

variable (render) in
theorem syncHistory_consistent {s : Observer D} (deep : Bool) (h : Consistent lineDigest s) :
    Consistent lineDigest (syncHistory render lineDigest deep s).1 := by
  cases hs : s.history with
  | none =>
    rw [syncHistory, hs]
    exact h
  | some history => exact .inr (syncHistory_spec render deep hs h).1

variable (cfg render lineDigest) in
/-- How a flush goes: it does nothing to the spool, or it syncs. -/
theorem flushJson_cases (force elapsed : Bool) (s : Observer D) :
    ∃ n, flushJson cfg render lineDigest force elapsed s = ({ s with pendingFlushes := n }, .skipped) ∨
      flushJson cfg render lineDigest force elapsed s =
        flushDue render lineDigest (force || s.deepCheckDue) { s with pendingFlushes := n } := by
  unfold flushJson
  by_cases hjson : cfg.json = false
  · exact ⟨s.pendingFlushes, .inl (if_pos hjson)⟩
  rw [if_neg hjson]
  cases force with
  | true => exact ⟨s.pendingFlushes, .inr rfl⟩
  | false =>
    refine ⟨s.pendingFlushes + 1, ?_⟩
    dsimp only
    cases hdue : cfg.due { s with pendingFlushes := s.pendingFlushes + 1 } elapsed with
    | false => exact .inl rfl
    | true => exact .inr rfl

variable (render) in
/-- What a sync makes of the observer, by its outcome. -/
theorem flushDue_spec {s : Observer D} (deep : Bool) (h : Consistent lineDigest s) :
    (∃ s', flushDue render lineDigest deep s = (s', .raised deep) ∧ (∃ lines, Describes lineDigest s' lines) ∧
        Interrupted s s' ∧ s'.deepCheckDue = s.deepCheckDue) ∨
      ∃ s', flushDue render lineDigest deep s = (s', .completed deep) ∧ Consistent lineDigest s' ∧
        (Reliable render lineDigest deep s → Mirrors render s') := by
  have hcons : Consistent lineDigest { s with pendingFlushes := 0, flushed := true } := h
  have hdue := syncHistory_deepCheckDue render lineDigest deep { s with pendingFlushes := 0, flushed := true }
  have hcons' := syncHistory_consistent render deep hcons
  unfold flushDue
  cases hsync : syncHistory render lineDigest deep { s with pendingFlushes := 0, flushed := true } with
  | mk s₁ raised =>
    rw [hsync] at hdue hcons'
    cases hs : s.history with
    | none =>
      have hnone : syncHistory render lineDigest deep { s with pendingFlushes := 0, flushed := true } =
          ({ s with pendingFlushes := 0, flushed := true }, false) := by
        simp only [syncHistory, hs]
      obtain ⟨rfl, rfl⟩ := Prod.mk.inj (hsync.symm.trans hnone)
      refine .inr ⟨_, rfl, hcons', fun _ history hh => ?_⟩
      exact absurd (hh.symm.trans hs) (Option.some_ne_none _)
    | some history =>
      obtain ⟨hdesc, hraised, hmirrors⟩ :=
        syncHistory_spec (s := { s with pendingFlushes := 0, flushed := true }) render deep hs hcons
      rw [hsync] at hdesc hraised hmirrors
      cases raised with
      | true => exact .inl ⟨s₁, rfl, hdesc, hraised rfl, hdue⟩
      | false => exact .inr ⟨_, rfl, hcons', hmirrors rfl⟩

theorem flushJson_consistent {s : Observer D} (force elapsed : Bool) (h : Consistent lineDigest s) :
    Consistent lineDigest (flushJson cfg render lineDigest force elapsed s).1 := by
  obtain ⟨n, hflush | hflush⟩ := flushJson_cases cfg render lineDigest force elapsed s
  · rw [hflush]
    exact h
  · rw [hflush]
    have hn : Consistent lineDigest { s with pendingFlushes := n } := h
    rcases flushDue_spec render (force || s.deepCheckDue) hn with ⟨s', hs', hdesc, -, -⟩ | ⟨s', hs', hcons, -⟩
    · rw [hs']
      exact .inr hdesc
    · rw [hs']
      exact hcons

omit [DecidableEq D] in
theorem close_consistent (cleanup : Bool) (s : Observer D) : Consistent lineDigest (s.close cleanup) := .inl rfl

theorem step_consistent {s s' : Observer D} {e : Event} (h : Consistent lineDigest s)
    (hstep : step cfg render lineDigest s e = some s') : Consistent lineDigest s' := by
  cases e with
  | edit e =>
    obtain rfl := Option.some.inj hstep
    cases e <;> exact h
  | bind ms =>
    obtain rfl := Option.some.inj hstep
    unfold bindHistory
    split <;> exact h
  | annotate m d =>
    obtain rfl := Option.some.inj hstep
    exact h
  | notice =>
    obtain rfl := Option.some.inj hstep
    exact h
  | flush elapsed =>
    obtain rfl := Option.some.inj hstep
    exact flushJson_consistent false elapsed h
  | loopStart elapsed =>
    obtain ⟨-, hs⟩ := Option.ite_none_right_eq_some.mp hstep
    obtain rfl := Option.some.inj hs
    exact flushJson_consistent false elapsed h
  | loopEnd messages written =>
    obtain rfl := Option.some.inj hstep
    unfold loopEnd
    dsimp only
    split <;> exact close_consistent _ _
  | loopCancelled =>
    simp only [step] at hstep
    split at hstep
    · obtain rfl := Option.some.inj hstep
      exact h
    · obtain rfl := Option.some.inj hstep
      exact close_consistent _ _

end Proofs

section Runs

variable (cfg : Settings) (render : Heap → Ref → Option Ref → Option Line) (lineDigest : Line → D)

/-- The observer goes on in its loop, and no deep sync completes. -/
def StillOwed (s : Observer D) (e : Event) : Prop :=
  e.inLoop = true ∧ ∀ elapsed, e = .flush elapsed →
    (flushJson cfg render lineDigest false elapsed s).2 ≠ .completed true

/-- What the flushes from a state do for the spool. -/
structure KeepsSpool (s : Observer D) : Prop where
  /-- A deep sync that completes leaves the rendering of the history. -/
  deep : ∀ force elapsed s', flushJson cfg render lineDigest force elapsed s = (s', .completed true) →
    CollisionFree render lineDigest s → Mirrors render s'
  /-- So does any sync if what is in the file is current. -/
  current : ∀ force elapsed s' d, flushJson cfg render lineDigest force elapsed s = (s', .completed d) →
    Current render lineDigest s → Mirrors render s'
  /-- One that raises leaves entries that describe the file. -/
  raised : ∀ force elapsed s' d, flushJson cfg render lineDigest force elapsed s = (s', .raised d) →
    (∃ lines, Describes lineDigest s' lines) ∧ Interrupted s s'
  /-- After a deep sync that raises, the next sync of the loop is deep again. -/
  next : ∀ elapsed s', flushJson cfg render lineDigest false elapsed s = (s', .raised true) →
    ∀ es s'', Runs.Trace (step cfg render lineDigest) (fun _ => StillOwed cfg render lineDigest) s' es s'' →
      ∀ elapsed', (flushJson cfg render lineDigest false elapsed' s'').2 ∈
        [Outcome.skipped, .raised true, .completed true] ∧
        ∀ s₃, flushJson cfg render lineDigest false elapsed' s'' = (s₃, .completed true) →
          CollisionFree render lineDigest s'' → Mirrors render s₃

end Runs

section Proofs

variable {cfg : Settings} {render : Heap → Ref → Option Ref → Option Line} {lineDigest : Line → D}

theorem flushJson_completed {s s' : Observer D} {force elapsed d : Bool} (h : Consistent lineDigest s)
    (hflush : flushJson cfg render lineDigest force elapsed s = (s', .completed d))
    (hrel : Reliable render lineDigest d s) : Mirrors render s' := by
  obtain ⟨n, hskip | hdue⟩ := flushJson_cases cfg render lineDigest force elapsed s
  · rw [hskip] at hflush
    cases (Prod.mk.inj hflush).2
  · have hn : Consistent lineDigest { s with pendingFlushes := n } := h
    rw [hdue] at hflush
    rcases flushDue_spec render (force || s.deepCheckDue) hn with ⟨s₁, hs₁, -, -, -⟩ | ⟨s₁, hs₁, -, hmirrors⟩
    · rw [hs₁] at hflush
      cases (Prod.mk.inj hflush).2
    · rw [hs₁] at hflush
      obtain ⟨rfl, hd⟩ := Prod.mk.inj hflush
      obtain rfl := Outcome.completed.inj hd
      exact hmirrors hrel

theorem flushJson_raised {s s' : Observer D} {force elapsed d : Bool} (h : Consistent lineDigest s)
    (hflush : flushJson cfg render lineDigest force elapsed s = (s', .raised d)) :
    (∃ lines, Describes lineDigest s' lines) ∧ Interrupted s s' ∧ s'.deepCheckDue = s.deepCheckDue ∧
      d = (force || s.deepCheckDue) := by
  obtain ⟨n, hskip | hdue⟩ := flushJson_cases cfg render lineDigest force elapsed s
  · rw [hskip] at hflush
    cases (Prod.mk.inj hflush).2
  · have hn : Consistent lineDigest { s with pendingFlushes := n } := h
    rw [hdue] at hflush
    rcases flushDue_spec render (force || s.deepCheckDue) hn with ⟨s₁, hs₁, hdesc, hint, hkeep⟩ | ⟨s₁, hs₁, -, -⟩
    · rw [hs₁] at hflush
      obtain ⟨rfl, hd⟩ := Prod.mk.inj hflush
      obtain rfl := Outcome.raised.inj hd
      exact ⟨hdesc, hint, hkeep, rfl⟩
    · rw [hs₁] at hflush
      cases (Prod.mk.inj hflush).2

/-- A deep sync that is due is made, and stays due until it completes. -/
theorem flushJson_owed {s : Observer D} {elapsed : Bool} (hdue : s.deepCheckDue = true) :
    (flushJson cfg render lineDigest false elapsed s).2 ∈ [Outcome.skipped, .raised true, .completed true] ∧
      ((flushJson cfg render lineDigest false elapsed s).2 ≠ .completed true →
        (flushJson cfg render lineDigest false elapsed s).1.deepCheckDue = true) := by
  obtain ⟨n, hflush | hflush⟩ := flushJson_cases cfg render lineDigest false elapsed s
  · rw [hflush]
    exact ⟨List.mem_cons_self, fun _ => hdue⟩
  · have hdeep : (false || s.deepCheckDue) = true := hdue
    rw [hflush, hdeep, flushDue]
    have hkeep := syncHistory_deepCheckDue render lineDigest true { s with pendingFlushes := 0, flushed := true }
    dsimp only
    cases hsync : syncHistory render lineDigest true { s with pendingFlushes := 0, flushed := true } with
    | mk s₁ raised =>
      rw [hsync] at hkeep
      cases raised with
      | true => exact ⟨by simp, fun _ => hkeep.trans hdue⟩
      | false => exact ⟨by simp, fun hne => absurd rfl hne⟩

theorem step_owed {s s' : Observer D} {e : Event} (hdue : s.deepCheckDue = true)
    (howed : StillOwed cfg render lineDigest s e) (hstep : step cfg render lineDigest s e = some s') :
    s'.deepCheckDue = true := by
  obtain ⟨hloop, hflush⟩ := howed
  cases e with
  | edit e =>
    obtain rfl := Option.some.inj hstep
    cases e <;> exact hdue
  | bind ms =>
    obtain rfl := Option.some.inj hstep
    unfold bindHistory
    split <;> exact hdue
  | annotate m d =>
    obtain rfl := Option.some.inj hstep
    exact hdue
  | notice =>
    obtain rfl := Option.some.inj hstep
    rfl
  | flush elapsed =>
    obtain rfl := Option.some.inj hstep
    exact (flushJson_owed hdue).2 (hflush elapsed rfl)
  | loopStart elapsed => cases hloop
  | loopEnd messages written => cases hloop
  | loopCancelled => cases hloop

theorem trace_consistent {P : List Event → Observer D → Event → Prop} {s₀ s : Observer D} {es : List Event}
    (h₀ : Consistent lineDigest s₀) (h : Runs.Trace (step cfg render lineDigest) P s₀ es s) :
    Consistent lineDigest s :=
  h.invariant (I := fun _ s => Consistent lineDigest s) h₀ fun _ _ _ _ hi _ hstep => step_consistent hi hstep

theorem trace_owed {s₀ s : Observer D} {es : List Event} (h₀ : s₀.deepCheckDue = true)
    (h : Runs.Trace (step cfg render lineDigest) (fun _ => StillOwed cfg render lineDigest) s₀ es s) :
    s.deepCheckDue = true := by
  refine h.invariant (I := fun _ s => s.deepCheckDue = true) h₀ ?_
  intro _ _ _ _ hi hP hstep
  exact step_owed hi hP hstep

/-- **The spool mirrors the history.** However the loop edits the history and its
objects between flushes, a deep sync that completes leaves the rendering of the
history, and one that raises leaves entries that describe the file, to which the
next sync adds the rest. -/
theorem spool_mirrors_history {heap : Heap} {spool : Option Line} {es : List Event} {s : Observer D}
    (h : Runs.Trace (step cfg render lineDigest) (fun _ _ _ => True) { heap := heap, spool := spool } es s) :
    KeepsSpool cfg render lineDigest s := by
  have hcons : Consistent lineDigest s := trace_consistent (.inl rfl) h
  refine ⟨?_, ?_, ?_, ?_⟩
  · intro force elapsed s' hflush hfree
    exact flushJson_completed hcons hflush (.inl ⟨rfl, hfree⟩)
  · intro force elapsed s' d hflush hcur
    exact flushJson_completed hcons hflush (.inr hcur)
  · intro force elapsed s' d hflush
    obtain ⟨hdesc, hint, -, -⟩ := flushJson_raised hcons hflush
    exact ⟨hdesc, hint⟩
  · intro elapsed s' hflush es' s'' htrace elapsed'
    obtain ⟨hdesc, -, hkeep, hdeep⟩ := flushJson_raised hcons hflush
    have hdue : s'.deepCheckDue = true := by
      rw [hkeep]
      exact hdeep.symm
    refine ⟨(flushJson_owed (trace_owed hdue htrace)).1, fun s₃ hflush' hfree => ?_⟩
    exact flushJson_completed (trace_consistent (.inr hdesc) htrace) hflush' (.inl ⟨rfl, hfree⟩)

end Proofs

/-! ### A sync that is interrupted -/

def ascii (s : String) : Line := s.toList.map fun c => c.toNat.toUInt8

/-- The encoder, for text that needs no escapes; the fuel is the depth Python
allows. -/
def encode (heap : Heap) : ℕ → Val → Option Line
  | 0, _ => none
  | _ + 1, .none => some (ascii "null")
  | n + 1, .tuple items =>
    (items.mapM (encode heap n)).map fun texts => ascii "[" ++ (ascii ",").intercalate texts ++ ascii "]"
  | n + 1, .obj r =>
    match heap r with
    | .str s => some (ascii "\"" ++ ascii s ++ ascii "\"")
    | .list items =>
      (items.mapM (encode heap n)).map fun texts => ascii "[" ++ (ascii ",").intercalate texts ++ ascii "]"
    | .dict items =>
      (items.mapM fun i => (encode heap n i.1).bind fun k => (encode heap n i.2).map fun v => k ++ ascii ":" ++ v).map
        fun texts => ascii "\x7b" ++ (ascii ",").intercalate texts ++ ascii "\x7d"
    | .other _ => none

/-- `_render`, for messages without images, long bodies and diagnostics. -/
def renderPlain (heap : Heap) (message : Ref) (_details : Option Ref) : Option Line :=
  match heap message with
  | .dict items =>
    match get heap items "role" with
    | .none => some []
    | _ => (encode heap 1000 (.obj message)).map fun text => text ++ ascii "\n"
  | _ => some []

def lineHi : Line := ascii "\x7b\"role\":\"user\",\"content\":[\x7b\"text\":\"hi\"\x7d]\x7d\n"

def lineHello : Line := ascii "\x7b\"role\":\"user\",\"content\":[\x7b\"text\":\"hello\"\x7d]\x7d\n"

def lineGoOn : Line := ascii "\x7b\"role\":\"user\",\"content\":\"go on\"\x7d\n"

/-- The `blake2b` digests of the three lines. -/
def digestOf (line : Line) : List UInt8 :=
  if line = lineHi then [137, 55, 231, 93, 233, 212, 6, 171, 184, 77, 38, 116, 193, 12, 29, 20]
  else if line = lineHello then [99, 106, 25, 184, 240, 234, 150, 50, 7, 74, 99, 26, 77, 33, 112, 46]
  else if line = lineGoOn then [44, 209, 143, 175, 232, 185, 90, 232, 204, 242, 51, 184, 2, 59, 79, 101]
  else []

/-- A message with a list of one block at 0, and one at 1 whose content cannot be
encoded. -/
def objects : Heap := fun r =>
  match r with
  | 0 => .dict [(.obj 10, .obj 11), (.obj 12, .obj 20)]
  | 1 => .dict [(.obj 10, .obj 11), (.obj 12, .obj 23)]
  | 10 => .str "role"
  | 11 => .str "user"
  | 12 => .str "content"
  | 13 => .str "text"
  | 20 => .list [.obj 21]
  | 21 => .dict [(.obj 13, .obj 22)]
  | 22 => .str "hi"
  | _ => .other "raises"

/-- A snapshot, an edit inside the kept block, and a second message. -/
def beforeRaise : List Event :=
  [.bind [0], .flush false, .edit (.mutate 22 (.str "hello")), .edit (.append 1), .notice]

/-- The settings under which every event takes a snapshot. -/
def everyEvent : Settings := { coalesceN := 0 }

/-- After these, after the sync that raises, once the second message can be
encoded, and after the next sync. -/
def edited : Observer (List UInt8) :=
  (Runs.run (step everyEvent renderPlain digestOf) { heap := objects, spool := none } beforeRaise).getD
    { heap := objects, spool := none }

def interrupted : Observer (List UInt8) := (flushJson everyEvent renderPlain digestOf false false edited).1

def mended : Observer (List UInt8) := interrupted.edit (.mutate 23 (.str "go on"))

def retried : Observer (List UInt8) := (flushJson everyEvent renderPlain digestOf false false mended).1

/-- How the run goes, up to the states themselves. -/
theorem run_outcomes :
    (edited.spool = some lineHi ∧ (flushJson everyEvent renderPlain digestOf false false edited).2 = .raised true) ∧
      (mended.spool = some lineHello ∧ mended.history = some [0, 1] ∧ mended.entries.length = 1) ∧
      (renderPlain mended.heap 0 none = some lineHello ∧ renderPlain mended.heap 1 none = some lineGoOn ∧
        digestOf lineGoOn ≠ digestOf lineHello) ∧
      (flushJson everyEvent renderPlain digestOf false false mended).2 = .completed true ∧
      retried.spool = some (lineHello ++ lineGoOn) := by
  decide +kernel

theorem renderPlain_details (heap : Heap) (message : Ref) (details : Option Ref) :
    renderPlain heap message details = renderPlain heap message none := rfl

theorem mended_collisionFree : CollisionFree renderPlain digestOf mended := by
  obtain ⟨-, ⟨hspool, hhist, hlen⟩, ⟨hzero, hone, hne⟩, -⟩ := run_outcomes
  intro history lines hh hdesc l hl m hm line hline hdig
  rw [renderPlain_details] at hline
  obtain rfl := Option.some.inj (hhist.symm.trans hh)
  obtain ⟨e, he⟩ := List.length_eq_one_iff.mp hlen
  obtain ⟨hrec, hbytes⟩ := hdesc
  rw [he] at hrec
  obtain _ | ⟨l₀, _ | ⟨l₁, ls⟩⟩ := lines
  · cases hl
  · obtain rfl := List.mem_singleton.mp hl
    have hl₀ : l = lineHello := by
      rw [hspool, List.flatten_singleton] at hbytes
      exact (Option.some.inj hbytes).symm
    rcases List.mem_cons.mp hm with rfl | hm
    · rw [hl₀]
      exact (Option.some.inj (hzero.symm.trans hline)).symm
    · obtain rfl := List.mem_singleton.mp hm
      have hline₁ : line = lineGoOn := (Option.some.inj (hone.symm.trans hline)).symm
      rw [hl₀, hline₁] at hdig
      exact absurd hdig hne
  · cases hrec.2.2

theorem spool_mirrors_after_raise :
    Runs.Trace (step everyEvent renderPlain digestOf) (fun _ _ _ => True) { heap := objects, spool := none }
        beforeRaise edited ∧ edited.spool = some lineHi ∧
      flushJson everyEvent renderPlain digestOf false false edited = (interrupted, .raised true) ∧
      interrupted.spool = some lineHello ∧
      flushJson everyEvent renderPlain digestOf false false mended = (retried, .completed true) ∧
      Mirrors renderPlain retried ∧ retried.spool = some (lineHello ++ lineGoOn) := by
  obtain ⟨⟨hbefore, hraise⟩, ⟨hspool, -, -⟩, -, hcomplete, hafter⟩ := run_outcomes
  have htrace : Runs.Trace (step everyEvent renderPlain digestOf) (fun _ _ _ => True)
      { heap := objects, spool := none } beforeRaise edited := Runs.Trace.of_run_any rfl
  have hraised : flushJson everyEvent renderPlain digestOf false false edited = (interrupted, .raised true) := by
    rw [interrupted, ← hraise]
  have hdone : flushJson everyEvent renderPlain digestOf false false mended = (retried, .completed true) := by
    rw [retried, ← hcomplete]
  have hnext : Runs.Trace (step everyEvent renderPlain digestOf)
      (fun _ => StillOwed everyEvent renderPlain digestOf) interrupted
      [.edit (.mutate 23 (.str "go on"))] mended := .next .init ⟨rfl, fun _ h => by cases h⟩ rfl
  have hmirrors := ((spool_mirrors_history htrace).next false interrupted hraised _ mended hnext false).2 retried hdone
    mended_collisionFree
  exact ⟨htrace, hbefore, hraised, hspool, hdone, hmirrors, hafter⟩

end Trajectory
end AgentCore
