/-
# Every result reaches one caller

The result of a session job can reach a caller of `wait_any_session_detailed`
by three ways: the report in `pending_results`, the message in the log, and
the buffer of results recovered from messages. The set of delivered jobs is to
keep them apart: `_pop_ready_result` puts a job into it but does not look, and
`_reconcile_from_messages` looks, but in the set it found before its read.

`FanIn` is what holds of reports, messages and deliveries: what has been handed
out and what is buffered of a job together come to one at most, to none while
the job is not in the set of its task, and a job whose report is filed is not
in it. It is kept by every step but a read that takes a message of a job whose
report is still filed, or that has been delivered since the read looked; a
cleanup, which forgets the sets; and a result that names another job.

Key definitions: `Clashes`, `Once`, `FanIn`, `System.readsStale`, `HandsOnce`.
Key theorem: `results_handed_once`.
-/
import AgentCore.AgentBus.Exchange
import AgentCore.AgentBus.Reports

namespace AgentCore
namespace AgentBus

open Runs

/-- A message of the log is of the job of the task. -/
def Logged (store : List ResultMessage) (taskId : String) (j : ℕ) : Prop :=
  ∃ m ∈ store, m.taskId = taskId ∧ m.job = j

/-- A report of the job waits in a session of the task. -/
def Board.isPending (brd : Board) (taskId : String) (j : ℕ) : Bool :=
  (List.range brd.sessionCount).any fun r =>
    (brd.sessions r).taskId == taskId && (brd.sessions r).pendingResults.any fun rep => rep.job == j

/-- A job has the id of one that a message of the log the bus was started on is
of: the counter starts anew with every bus. -/
def Clashes (store : List ResultMessage) (brd : Board) (taskId : String) (j : ℕ) : Prop :=
  Logged store taskId j ∧ ∃ e, brd.jobs j = some e ∧ e.parentTaskId = taskId

/-- A job of the task has reported. -/
def ReportedIn (brd : Board) (taskId : String) (j : ℕ) : Prop :=
  ∃ r, brd.Reported j r ∧ (brd.sessions r).taskId = taskId

/-- The deliveries of one job. -/
structure Once (brd : Board) (x : Exchange) (taskId : String) (j : ℕ) : Prop where
  balance : x.total taskId j ≤ if x.isDelivered taskId j then 1 else 0
  pending : brd.isPending taskId j = true → x.isDelivered taskId j = false

/-- The invariant of fan-in, for a bus started on the log `store`. -/
structure FanIn (store : List ResultMessage) (brd : Board) (x : Exchange) : Prop where
  sound : Sound brd
  filed : Filed brd
  refs : x.Refs
  traced : ∀ taskId j, x.isDelivered taskId j = true ∨ Logged x.store taskId j →
    Logged store taskId j ∨ ReportedIn brd taskId j
  once : ∀ taskId j, ¬Clashes store brd taskId j → Once brd x taskId j

theorem Board.isPending_iff {brd : Board} {taskId : String} {j : ℕ} : brd.isPending taskId j = true ↔
    ∃ r < brd.sessionCount, (brd.sessions r).taskId = taskId ∧ ∃ rep ∈ (brd.sessions r).pendingResults, rep.job = j := by
  simp [Board.isPending]

/-- Of a report that is taken no second one is filed. -/
theorem Filed.isPending_dropResults {brd : Board} {r : ℕ} {rep : Report} {rest : List Report} (h : Filed brd)
    (hrep : (brd.sessions r).pendingResults = rep :: rest) (hr : Reports brd (brd.dropResults r rest))
    (hf : Filed (brd.dropResults r rest)) (taskId : String) :
    (brd.dropResults r rest).isPending taskId rep.job = false := by
  rw [Bool.eq_false_iff]
  intro hp
  obtain ⟨r', -, -, rep', hrep', hjob⟩ := Board.isPending_iff.mp hp
  have hreported := (h.own r rep (hrep ▸ List.mem_cons_self)).2
  have hsame : r' = r := by
    have hreported' := (hf.own r' rep' hrep').2
    rw [hjob] at hreported'
    exact hreported'.unique (hr.reported _ _ hreported)
  subst hsame
  rw [Board.dropResults, Board.sessions_updateSession_self] at hrep'
  have hnodup := h.nodup r'
  rw [hrep, List.map_cons, List.nodup_cons] at hnodup
  exact hnodup.1 (hjob ▸ List.mem_map_of_mem hrep')

namespace FanIn

variable {store : List ResultMessage} {brd brd' : Board} {x x' : Exchange} {taskId : String} {j : ℕ}

/-! ### Moves of the board -/

theorem clashes_of_reports (hr : Reports brd brd') (h : Clashes store brd taskId j) : Clashes store brd' taskId j := by
  obtain ⟨hlog, e, he, hp⟩ := h
  obtain ⟨e', he', hp', -⟩ := hr.old j e he
  exact ⟨hlog, e', he', hp'.trans hp⟩

theorem reportedIn_of_reports (hs : Sound brd) (hr : Reports brd brd') (h : ReportedIn brd taskId j) :
    ReportedIn brd' taskId j := by
  obtain ⟨r, hrep, rfl⟩ := h
  obtain ⟨e, he, hses⟩ := hrep.job
  exact ⟨r, hr.reported j r hrep, hr.tasks r (hs.home j e r he hses)⟩

/-- What is filed now was filed before, or its job had not reported. -/
theorem isPending_of_reports (h : FanIn store brd x) (hr : Reports brd brd') (hf : Filed brd')
    (hp : brd'.isPending taskId j = true) :
    brd.isPending taskId j = true ∨
      (∀ r, ¬brd.Reported j r) ∧ ∃ e, brd'.jobs j = some e ∧ e.parentTaskId = taskId := by
  obtain ⟨r, -, rfl, rep, hrep, rfl⟩ := Board.isPending_iff.mp hp
  obtain ⟨kept, new, hsplit, hkept, -, hnew⟩ := hr.files r
  rw [hsplit] at hrep
  rcases List.mem_append.mp hrep with hrep | hrep
  · have hmem := hkept.subset hrep
    obtain ⟨e, he, hses⟩ := (h.filed.own r rep hmem).2.job
    have hlt := h.sound.home _ e r he hses
    exact .inl (Board.isPending_iff.mpr ⟨r, hlt, (hr.tasks r hlt).symm, rep, hmem, rfl⟩)
  · obtain ⟨-, hnot, hreported⟩ := hnew rep hrep
    obtain ⟨e, he, hses⟩ := hreported.job
    exact .inr ⟨hnot, e, he, hf.housed _ e r he hses⟩

/-- The board moves on, nothing being delivered. -/
theorem reports (h : FanIn store brd x) (hs : Sound brd') (hf : Filed brd') (hr : Reports brd brd') :
    FanIn store brd' x where
  sound := hs
  filed := hf
  refs := h.refs
  traced taskId j ht := (h.traced taskId j ht).imp id (reportedIn_of_reports h.sound hr)
  once taskId j hc := by
    have honce := h.once taskId j fun hc' => hc (clashes_of_reports hr hc')
    refine ⟨honce.balance, fun hp => ?_⟩
    rcases h.isPending_of_reports hr hf hp with hp | ⟨hnot, e, he, htask⟩
    · exact honce.pending hp
    · -- the job has just filed its report, so the set cannot have it
      rw [Bool.eq_false_iff]
      intro hd
      rcases h.traced taskId j (.inl hd) with hlog | ⟨r, hrep, -⟩
      · exact hc ⟨hlog, e, he, htask⟩
      · exact hnot r hrep

theorem moves (h : FanIn store brd x) {ok : Quirk → Prop} (hm : Moves ok brd brd') (hup : ¬ok .givesUp)
    (hown : ¬ok .foreignResult) : FanIn store brd' x := by
  obtain ⟨hs, hf, hr⟩ := hm.reports hup hown h.sound h.filed
  exact h.reports hs hf hr

/-! ### Changes of the exchange -/

/-- What is handed out was buffered. -/
theorem exchange (h : FanIn store brd x) (hrefs : x'.Refs) (hstore : x'.store = x.store)
    (hdel : ∀ taskId j, x'.isDelivered taskId j = x.isDelivered taskId j)
    (htotal : ∀ taskId j, x'.total taskId j = x.total taskId j) : FanIn store brd x' where
  sound := h.sound
  filed := h.filed
  refs := hrefs
  traced taskId j := by
    rw [hdel, hstore]
    exact h.traced taskId j
  once taskId j hc := by
    obtain ⟨hb, hp⟩ := h.once taskId j hc
    exact ⟨by rwa [hdel, htotal], by rwa [hdel]⟩

/-- A job whose result was neither delivered nor filed is delivered. -/
theorem deliver (h : FanIn store brd x) (hrefs : x'.Refs) (hstore : x'.store = x.store)
    (hnew : ¬Clashes store brd taskId j → x.isDelivered taskId j = false) (hfiled : brd.isPending taskId j = false)
    (hdel : ∀ t k, x'.isDelivered t k = (x.isDelivered t k || decide (t = taskId ∧ k = j)))
    (htotal : ∀ t k, x'.total t k = x.total t k + if t = taskId ∧ k = j then 1 else 0)
    (htraced : Logged store taskId j ∨ ReportedIn brd taskId j) : FanIn store brd x' where
  sound := h.sound
  filed := h.filed
  refs := hrefs
  traced t k ht := by
    by_cases hk : t = taskId ∧ k = j
    · obtain ⟨rfl, rfl⟩ := hk
      exact htraced
    · rw [hdel, hstore, decide_eq_false hk, Bool.or_false] at ht
      exact h.traced t k ht
  once t k hc := by
    obtain ⟨hb, hp⟩ := h.once t k hc
    by_cases hk : t = taskId ∧ k = j
    · obtain ⟨rfl, rfl⟩ := hk
      rw [hnew hc, if_neg Bool.false_ne_true] at hb
      refine ⟨?_, fun hpend => ?_⟩
      · rw [htotal, hdel, decide_eq_true ⟨rfl, rfl⟩, Bool.or_true, if_pos rfl, if_pos ⟨rfl, rfl⟩]
        omega
      · rw [hfiled] at hpend
        cases hpend
    · refine ⟨?_, ?_⟩
      · rw [htotal, hdel, decide_eq_false hk, Bool.or_false, if_neg hk]
        exact hb
      · rw [hdel, decide_eq_false hk, Bool.or_false]
        exact hp

theorem of_ledger (h : FanIn store brd x) (hl : x'.ledger = x.ledger) : FanIn store brd x' := by
  simp only [Exchange.ledger, Exchange.mk.injEq] at hl
  obtain ⟨hdelivered, hrecovered, hsets, hbuffers, hrefs, -, hstore, -, hhanded⟩ := hl
  refine h.exchange ?_ hstore (fun t k => ?_) fun t k => ?_
  · obtain ⟨h1, h2, h3, h4, h5⟩ := h.refs
    constructor
    · rwa [hdelivered, hrefs]
    · rwa [hdelivered]
    · rwa [hrecovered, hrefs]
    · rwa [hrecovered]
    · rwa [hbuffers, hrefs]
  · rw [Exchange.isDelivered, Exchange.isDelivered, hdelivered, hsets]
  · rw [Exchange.total, Exchange.total, Exchange.buffered, Exchange.buffered, hhanded, hrecovered, hbuffers]

end FanIn

namespace Bus

variable {store : List ResultMessage} {b b' : Bus} {taskId : String} {j : ℕ}

/-! ### Handing out results -/

/-- The invariant of a bus. -/
def Fans (store : List ResultMessage) (b : Bus) : Prop := FanIn store b.toBoard b.toExchange

/-- A report that a caller takes was filed once. -/
theorem popReadyResult_fans (h : Fans store b) (hb : b.popReadyResult taskId = some b') :
    Fans store b' ∧ b'.recovered = b.recovered := by
  unfold popReadyResult at hb
  split at hb
  · cases hb
  · next r hfind =>
    split at hb
    · cases hb
    · next rep rest hrep =>
      have hr : r < b.sessionCount := List.mem_range.mp (List.mem_of_find?_eq_some hfind)
      have htask : (b.sessions r).taskId = taskId := by
        have hfound := List.find?_some hfind
        simp only [Bool.and_eq_true, beq_iff_eq] at hfound
        exact hfound.1.2
      have hmem : rep ∈ (b.sessions r).pendingResults := hrep ▸ List.mem_cons_self
      obtain ⟨hid, hreported⟩ := FanIn.filed h |>.own r rep hmem
      have hsub : rest.Sublist (b.sessions r).pendingResults := hrep ▸ List.sublist_cons_self ..
      have hmove : Move (fun _ => False) b.toBoard (b.dropResults r rest) := .dropResults hsub
      obtain ⟨hs, hf, hreports⟩ := hmove.single.reports id id (FanIn.sound h) (FanIn.filed h)
      have hbase : FanIn store (b.dropResults r rest) b.toExchange := FanIn.reports h hs hf hreports
      have hgone := (FanIn.filed h).isPending_dropResults hrep hreports hf taskId
      simp only [hid, Option.some.injEq] at hb
      subst hb
      obtain ⟨hrec, hbuf, hhand, hstore⟩ := markDelivered_frame (b.setBoard (b.dropResults r rest)) taskId rep.job
      have hrefs := refs_markDelivered (b := b.setBoard (b.dropResults r rest)) hbase.refs taskId rep.job
      refine ⟨?_, hrec⟩
      unfold Fans
      dsimp only
      rw [toBoard_markDelivered, toBoard_setBoard]
      refine hbase.deliver
        ⟨hrefs.delivered_lt, hrefs.delivered_inj, hrefs.recovered_lt, hrefs.recovered_inj, hrefs.fresh⟩ hstore
        (fun hc => ?_) hgone (isDelivered_markDelivered (b := b.setBoard (b.dropResults r rest)) hbase.refs _ _)
        (fun t k => ?_) (.inr ⟨r, hreports.reported _ _ hreported, (hreports.tasks r hr).trans htask⟩)
      · exact (FanIn.once h taskId rep.job hc).pending (Board.isPending_iff.mpr ⟨r, hr, htask, rep, hmem, rfl⟩)
      · unfold Exchange.total Exchange.buffered
        dsimp only
        rw [hrec, hbuf, hhand, List.count_append, List.count_singleton]
        simp only [beq_iff_eq, Prod.mk.injEq, eq_comm (a := taskId), eq_comm (a := rep.job)]
        change b.handed.count (t, k) + _ + _ = b.handed.count (t, k) + _ + _
        rw [Nat.add_right_comm]
        rfl

/-- What is handed out of the buffer was in it. -/
theorem popBuffer_fans {ref : ℕ} (h : Fans store b) (href : b.recovered taskId = some ref)
    (hb : b.popBuffer taskId ref = some b') : Fans store b' ∧ b'.recovered = b.recovered := by
  unfold popBuffer at hb
  split at hb
  · cases hb
  · next rep rest hbuf =>
    cases hb
    have hrefs := FanIn.refs h
    refine ⟨FanIn.exchange h ⟨hrefs.delivered_lt, hrefs.delivered_inj, hrefs.recovered_lt, hrefs.recovered_inj,
      fun ref' hle => ?_⟩ rfl (fun _ _ => rfl) fun t k => ?_, rfl⟩
    · have hne : ref' ≠ ref := Nat.ne_of_gt ((hrefs.recovered_lt _ _ href).trans_le hle)
      dsimp only
      rw [Function.update_of_ne hne]
      exact hrefs.fresh ref' hle
    · unfold Exchange.total Exchange.buffered
      dsimp only
      rw [List.count_append, List.count_singleton]
      by_cases ht : t = taskId
      · subst ht
        rw [href]
        dsimp only
        rw [Function.update_self, hbuf, List.map_cons, List.count_cons]
        simp only [beq_iff_eq, Prod.mk.injEq, true_and]
        omega
      · have hpair : ¬((taskId, rep.job) == (t, k)) = true := by
          rw [beq_iff_eq, Prod.mk.injEq]
          exact fun hp => ht hp.1.symm
        rw [if_neg hpair, Nat.add_zero]
        cases hrec : b.recovered t with
        | none => rfl
        | some ref' =>
          have hne : ref' ≠ ref := by
            rintro rfl
            exact ht (hrefs.recovered_inj t taskId ref' hrec href)
          dsimp only
          rw [Function.update_of_ne hne]

/-- The invariant is kept, buffers stay, and the call that goes on has the
right one. -/
structure Goes (store : List ResultMessage) (b : Bus) (p : Bus × Option Call) : Prop where
  fans : Fans store p.1
  stays : ∀ t ref, b.recovered t = some ref → p.1.recovered t = some ref
  call : ∀ c, p.2 = some c → p.1.Holds c

theorem Goes.after {p : Bus × Option Call} (h : Goes store b' p)
    (hb : ∀ t ref, b.recovered t = some ref → b'.recovered t = some ref) : Goes store b p :=
  ⟨h.fans, fun t ref ht => h.stays t ref (hb t ref ht), h.call⟩

theorem Goes.ended (h : Fans store b' ∧ b'.recovered = b.recovered) : Goes store b (b', none) :=
  ⟨h.1, fun t ref ht => by rwa [h.2], fun _ hc => by cases hc⟩

/-! ### Reading messages -/

theorem consumeNext_goes {buffer : ℕ} (h : Fans store b) (href : b.recovered taskId = some buffer) (delivered : ℕ)
    (agents : List String) : Goes store b (b.consumeNext taskId delivered buffer agents) := by
  cases agents with
  | nil =>
    rw [consumeNext]
    cases hb : b.popBuffer taskId buffer with
    | none => exact .ended ⟨h, rfl⟩
    | some b' => exact .ended (popBuffer_fans h href hb)
  | cons agent rest =>
    refine ⟨h, fun _ _ ht => ht, fun c hc => ?_⟩
    cases hc
    exact href

/-- A task gets a buffer, which is empty. -/
theorem recover_fans {b b' : Bus} (h : Fans store b) (hnone : b.recovered taskId = none)
    (hb : b' = { b with recovered := Function.update b.recovered taskId (some b.refs), refs := b.refs + 1 }) :
    Fans store b' := by
  subst hb
  have hrefs := FanIn.refs h
  have hcases : ∀ t ref, Function.update b.recovered taskId (some b.refs) t = some ref →
      t = taskId ∧ ref = b.refs ∨ b.recovered t = some ref ∧ ref < b.refs := by
    intro t ref ht
    rcases update_eq_some ht with hnew | ⟨-, hold⟩
    · exact .inl hnew
    · exact .inr ⟨hold, hrefs.recovered_lt t ref hold⟩
  refine FanIn.exchange h ⟨fun t ref ht => ?_, hrefs.delivered_inj, fun t ref ht => ?_, fun t t' ref ht ht' => ?_,
    fun ref hle => hrefs.fresh ref (Nat.le_of_succ_le hle)⟩ rfl (fun _ _ => rfl) fun t k => ?_
  · exact (hrefs.delivered_lt t ref ht).trans (Nat.lt_succ_self _)
  · rcases hcases t ref ht with ⟨-, rfl⟩ | ⟨-, hlt⟩
    · exact Nat.lt_succ_self _
    · exact hlt.trans (Nat.lt_succ_self _)
  · rcases hcases t ref ht with ⟨rfl, rfl⟩ | ⟨h1, h2⟩
    · rcases hcases t' _ ht' with ⟨rfl, -⟩ | ⟨-, h3⟩
      · rfl
      · exact absurd h3 (Nat.lt_irrefl _)
    · rcases hcases t' _ ht' with ⟨-, rfl⟩ | ⟨h3, -⟩
      · exact absurd h2 (Nat.lt_irrefl _)
      · exact hrefs.recovered_inj t t' ref h1 h3
  · unfold Exchange.total Exchange.buffered
    dsimp only
    by_cases ht : t = taskId
    · subst ht
      rw [Function.update_self, hnone]
      dsimp only
      rw [hrefs.fresh b.refs le_rfl]
      rfl
    · rw [Function.update_of_ne ht]

theorem beginConsume_goes (h : Fans store b) (taskId : String) (agents : List String) :
    Goes store b (b.beginConsume taskId agents) := by
  unfold beginConsume
  dsimp only
  -- the view is a set of its own when the task has none yet
  have hview : ∀ b', b' = (if (b.delivered taskId).isSome = true then b else { b with refs := b.refs + 1 }) →
      Fans store b' ∧ b'.recovered = b.recovered := by
    rintro _ rfl
    split
    · exact ⟨h, rfl⟩
    · have hrefs := FanIn.refs h
      refine ⟨FanIn.exchange h ⟨fun t ref ht => ?_, hrefs.delivered_inj, fun t ref ht => ?_, hrefs.recovered_inj,
        fun ref hle => hrefs.fresh ref (Nat.le_of_succ_le hle)⟩ rfl (fun _ _ => rfl) fun _ _ => rfl, rfl⟩
      · exact (hrefs.delivered_lt t ref ht).trans (Nat.lt_succ_self _)
      · exact (hrefs.recovered_lt t ref ht).trans (Nat.lt_succ_self _)
  obtain ⟨hf, hrec⟩ := hview _ rfl
  generalize (if (b.delivered taskId).isSome = true then b else { b with refs := b.refs + 1 }) = b₁ at hf hrec ⊢
  split
  · next buffer hbuf => exact (consumeNext_goes hf hbuf _ _).after fun t ref ht => by rwa [hrec]
  · next hnone =>
    refine (consumeNext_goes (recover_fans hf hnone rfl) (Function.update_self ..) _ _).after fun t ref ht => ?_
    rw [← hrec] at ht
    have hne : t ≠ taskId := by
      rintro rfl
      rw [hnone] at ht
      cases ht
    dsimp only
    rwa [Function.update_of_ne hne]

theorem reconcileFromMessages_goes (h : Fans store b) (taskId : String) :
    Goes store b (b.reconcileFromMessages taskId) := by
  unfold reconcileFromMessages
  split
  · next b' hb =>
    obtain ⟨buffer, href, hb⟩ := Option.bind_eq_some_iff.mp hb
    exact .ended (popBuffer_fans h href hb)
  · split
    · exact .ended ⟨h, rfl⟩
    · split
      · exact ⟨h, fun _ _ ht => ht, fun c hc => by cases hc; trivial⟩
      · exact beginConsume_goes h _ _

theorem discovered_goes (h : Fans store b) (taskId : String) (seen : ℕ) :
    Goes store b (b.discovered taskId seen) := by
  unfold discovered
  split
  · exact .ended ⟨h, rfl⟩
  · have hknown : ∀ known, Fans store { b with recipients := known } := fun _ => FanIn.of_ledger h rfl
    exact (beginConsume_goes (hknown _) taskId _).after fun _ _ ht => ht

/-- The message is of the task, its job's report is not filed, and if the job
has been delivered the set in hand says so. -/
structure Readable (b : Bus) (taskId : String) (delivered : ℕ) (m : ResultMessage) : Prop where
  logged : Logged b.store taskId m.job
  unfiled : b.isPending taskId m.job = false
  seen : b.isDelivered taskId m.job = true → m.job ∈ b.sets delivered

/-- A message is taken, or its job is known. -/
theorem takeMessage_cases (taskId : String) (buffer : ℕ) (b : Bus) (delivered : ℕ) (m : ResultMessage) :
    takeMessage taskId buffer (b, delivered) m = (b, delivered) ∨ m.job ∉ b.sets delivered ∧
      ∃ report : Report, report.job = m.job ∧
      takeMessage taskId buffer (b, delivered) m =
        ({ b.markDelivered taskId m.job with
            buffers := Function.update b.buffers buffer (b.buffers buffer ++ [report]) },
          ((b.markDelivered taskId m.job).delivered taskId).getD delivered) := by
  unfold takeMessage
  dsimp only
  split
  · exact .inl rfl
  · next hnot =>
    obtain ⟨-, hbuf, -, -⟩ := markDelivered_frame b taskId m.job
    refine .inr ⟨hnot, { job := m.job, sessionId := m.sessionId, result := m.result }, rfl, ?_⟩
    rw [hbuf]

/-- A message of a job that is neither delivered nor filed goes to the buffer. -/
theorem taken_fans {buffer : ℕ} (h : Fans store b) (href : b.recovered taskId = some buffer)
    (hlog : Logged b.store taskId j) (hfiled : b.isPending taskId j = false) (hnew : b.isDelivered taskId j = false)
    {report : Report} (hj : report.job = j) :
    Fans store { b.markDelivered taskId j with
      buffers := Function.update b.buffers buffer (b.buffers buffer ++ [report]) } := by
  obtain ⟨hrec, -, hhand, hstore⟩ := markDelivered_frame b taskId j
  have hold := FanIn.refs h
  have hrefs := refs_markDelivered hold taskId j
  have hlt : buffer < (b.markDelivered taskId j).refs := hrefs.recovered_lt taskId buffer (by rwa [hrec])
  unfold Fans
  dsimp only
  rw [toBoard_markDelivered]
  refine FanIn.deliver h ⟨hrefs.delivered_lt, hrefs.delivered_inj, hrefs.recovered_lt, hrefs.recovered_inj,
    fun ref hle => ?_⟩ hstore (fun _ => hnew) hfiled (isDelivered_markDelivered hold taskId j) (fun t k => ?_)
    (FanIn.traced h taskId j (.inr hlog))
  · dsimp only
    rw [Function.update_of_ne (Nat.ne_of_gt (hlt.trans_le hle))]
    obtain ⟨-, hbuf, -⟩ := markDelivered_frame b taskId j
    exact hbuf ▸ hrefs.fresh ref hle
  · unfold Exchange.total Exchange.buffered
    dsimp only
    rw [hrec, hhand]
    by_cases ht : t = taskId
    · subst ht
      rw [href]
      dsimp only
      rw [Function.update_self, List.map_append, List.count_append, List.map_singleton, List.count_singleton, hj,
        Nat.add_assoc]
      simp only [beq_iff_eq, true_and, eq_comm (a := j)]
    · rw [if_neg fun hand => ht hand.1, Nat.add_zero]
      cases hrec' : b.recovered t with
      | none => rfl
      | some ref =>
        have hne : ref ≠ buffer := by
          rintro rfl
          exact ht (hold.recovered_inj t taskId ref hrec' href)
        dsimp only
        rw [Function.update_of_ne hne]

theorem takeMessage_fans {buffer delivered : ℕ} {m : ResultMessage} (h : Fans store b)
    (href : b.recovered taskId = some buffer) (hm : b.Readable taskId delivered m) {acc : Bus × ℕ}
    (hacc : takeMessage taskId buffer (b, delivered) m = acc) :
    Fans store acc.1 ∧ acc.1.recovered = b.recovered ∧
      ∀ m', b.Readable taskId delivered m' → acc.1.Readable taskId acc.2 m' := by
  rcases takeMessage_cases taskId buffer b delivered m with heq | ⟨hnot, report, hj, heq⟩
  · rw [← hacc, heq]
    exact ⟨h, rfl, fun _ hm' => hm'⟩
  · have hnew : b.isDelivered taskId m.job = false := by
      rw [Bool.eq_false_iff]
      exact fun hd => hnot (hm.seen hd)
    obtain ⟨hrec, -, -, hstore⟩ := markDelivered_frame b taskId m.job
    rw [← hacc, heq]
    refine ⟨taken_fans h href hm.logged hm.unfiled hnew hj, hrec, fun m' hm' => ⟨?_, ?_, fun hd => ?_⟩⟩
    · exact hstore ▸ hm'.logged
    · have hunfiled := hm'.unfiled
      rw [← toBoard_markDelivered b taskId m.job] at hunfiled
      exact hunfiled
    · -- from here on the set in hand is that of the task
      obtain ⟨ref, hd, hmem⟩ := Exchange.isDelivered_iff.mp hd
      have hget : ((b.markDelivered taskId m.job).delivered taskId).getD delivered = ref := by
        rw [show (b.markDelivered taskId m.job).delivered taskId = some ref from hd, Option.getD_some]
      dsimp only
      rw [hget]
      exact hmem

theorem takeMessages_fans {buffer : ℕ} : ∀ (ms : List ResultMessage) {b : Bus} {delivered : ℕ}, Fans store b →
    b.recovered taskId = some buffer → (∀ m ∈ ms, b.Readable taskId delivered m) →
    Fans store (ms.foldl (takeMessage taskId buffer) (b, delivered)).1 ∧
      (ms.foldl (takeMessage taskId buffer) (b, delivered)).1.recovered = b.recovered
  | [], _, _, h, _, _ => ⟨h, rfl⟩
  | m :: ms, b, delivered, h, href, hms => by
    obtain ⟨b', delivered', hacc⟩ : ∃ b' delivered', takeMessage taskId buffer (b, delivered) m = (b', delivered') :=
      ⟨_, _, rfl⟩
    obtain ⟨h', hrec, hread⟩ := takeMessage_fans h href (hms m List.mem_cons_self) hacc
    rw [List.foldl_cons, hacc]
    obtain ⟨hf, hr⟩ := takeMessages_fans ms h' (by rwa [hrec]) fun m' hm' =>
      hread m' (hms m' (List.mem_cons_of_mem _ hm'))
    exact ⟨hf, hr.trans hrec⟩

/-- A message of the batch is in the log, for the task. -/
theorem logged_of_mem_batch {agent : String} {afterId seen : ℕ} {m : ResultMessage × ℕ}
    (hm : m ∈ b.batch taskId agent afterId seen) : Logged b.store taskId m.1.job := by
  unfold batch at hm
  have hfilter := List.mem_of_mem_take hm
  simp only [List.mem_filter, Bool.and_eq_true, beq_iff_eq] at hfilter
  have hmem : m.1 ∈ b.store.take seen := List.fst_mem_of_mem_zipIdx hfilter.1
  exact ⟨m.1, List.mem_of_mem_take hmem, hfilter.2.2, rfl⟩

theorem consumed_goes {buffer delivered afterId seen : ℕ} {agent : String} (h : Fans store b)
    (href : b.recovered taskId = some buffer)
    (hread : ∀ m ∈ b.batch taskId agent afterId seen, b.isPending taskId m.1.job = false ∧
      (b.isDelivered taskId m.1.job = true → m.1.job ∈ b.sets delivered)) (rest : List String) :
    Goes store b (b.consumed taskId delivered buffer agent rest afterId seen) := by
  have hreadable : ∀ m ∈ (b.batch taskId agent afterId seen).map (·.1), b.Readable taskId delivered m := by
    intro m₁ hm₁
    obtain ⟨m, hm, rfl⟩ := List.mem_map.mp hm₁
    exact ⟨logged_of_mem_batch hm, (hread m hm).1, (hread m hm).2⟩
  -- The rest of the round, whether or not the cursor moved.
  have htake : ∀ b' : Bus, Fans store b' → b'.recovered = b.recovered →
      (∀ m ∈ (b.batch taskId agent afterId seen).map (·.1), b'.Readable taskId delivered m) →
      Goes store b
        (Bus.consumeNext
          (((b.batch taskId agent afterId seen).map (·.1)).foldl (takeMessage taskId buffer) (b', delivered)).1 taskId
          (((b.batch taskId agent afterId seen).map (·.1)).foldl (takeMessage taskId buffer) (b', delivered)).2
          buffer rest) := by
    intro b' hf hrec hms
    obtain ⟨hf', hrec'⟩ := takeMessages_fans _ hf (by rwa [hrec]) hms
    refine (consumeNext_goes hf' (by rw [hrec', hrec, href]) _ _).after fun t ref ht => ?_
    rw [hrec', hrec]
    exact ht
  unfold consumed
  dsimp only
  split
  · exact htake b h rfl hreadable
  · refine htake _ (FanIn.of_ledger h rfl) rfl fun m hm => ?_
    obtain ⟨h1, h2, h3⟩ := hreadable m hm
    exact ⟨h1, h2, h3⟩

/-! ### Waiting for any session -/

/-- An operation that hands out nothing keeps the invariant. -/
theorem Quiet.goes {p : Bus × Option Call} (h : Quiet b p) (hfans : Fans store b) {ok : Quirk → Prop}
    (hm : Moves ok b.toBoard p.1.toBoard) (hup : ¬ok .givesUp) (hown : ¬ok .foreignResult) : Goes store b p := by
  have hl := h.1
  simp only [Exchange.ledger, Exchange.mk.injEq] at hl
  refine ⟨FanIn.of_ledger (FanIn.moves hfans hm hup hown) h.1, fun t ref ht => ?_, fun c hc => h.2 c hc _⟩
  rw [hl.2.1]
  exact ht

theorem waitRest_goes (h : Fans store b) (taskId : String) (again : Bool) :
    Goes store b (b.waitRest taskId again) := by
  unfold waitRest
  split
  · next b' hb => exact .ended (popReadyResult_fans h hb)
  · split
    · exact reconcileFromMessages_goes h taskId
    · split
      · exact reconcileFromMessages_goes h taskId
      · exact ⟨h, fun _ _ ht => ht, fun c hc => by cases hc; trivial⟩

/-- The quirks that matter here do not arise in a drain or a reconciliation. -/
def harmless : Quirk → Prop := fun q => q ≠ .givesUp ∧ q ≠ .foreignResult

theorem waitDrain_goes (taskId : String) (again trimRaises : Bool) (rs : List ℕ) :
    ∀ {b : Bus}, Fans store b → Goes store b (waitDrain taskId again trimRaises b rs) := by
  induction rs with
  | nil => exact fun h => waitRest_goes h taskId again
  | cons r rs ih =>
    intro b h
    obtain ⟨b', d, hd⟩ : ∃ b' d, b.drainQueue r trimRaises = (b', d) := ⟨_, _, rfl⟩
    obtain ⟨next, hdrains, -⟩ : ∃ next, Drains harmless b.toBoard r b'.toBoard next ∧ _ :=
      drainQueue_drains hd fun _ => by simp [harmless]
    have hmove : Moves harmless b.toBoard b'.toBoard := (Move.lateDrain hdrains (by simp [harmless])).single
    have hl := ledger_drainQueue b r trimRaises
    rw [hd] at hl
    have hgoes : ∀ c, (∀ b' : Bus, ∀ c', c = some c' → b'.Holds c') → Goes store b (b', c) := fun c hc =>
      Quiet.goes ⟨hl, fun c' hc' b' => hc b' c' hc'⟩ h hmove (by simp [harmless]) (by simp [harmless])
    unfold waitDrain
    rw [hd]
    cases d with
    | nothing =>
      have hthis := hgoes none fun _ _ hc => by cases hc
      exact (ih hthis.fans).after hthis.stays
    | raised => exact hgoes none fun _ _ hc => by cases hc
    | dispatched n => exact hgoes (some _) fun _ _ hc => by cases hc; trivial

theorem waitReconciled_goes (h : Fans store b) (taskId : String) (again trimRaises : Bool) :
    Goes store b (b.waitReconciled taskId again trimRaises) := by
  have hquiet : Quiet b ((b.reconcileTerminal taskId).1, none) := .none (ledger_reconcileTerminal b taskId)
  have hmoves : Moves harmless b.toBoard (b.reconcileTerminal taskId).1.toBoard := reconcileTerminal_moves b taskId
  have hthis := hquiet.goes h hmoves (by simp [harmless]) (by simp [harmless])
  exact (waitDrain_goes taskId again trimRaises _ hthis.fans).after hthis.stays

theorem waitAny_goes (h : Fans store b) (taskId : String) (trimRaises : Bool) :
    Goes store b (b.waitAny taskId trimRaises) := by
  unfold waitAny
  split
  · next b' hb => exact .ended (popReadyResult_fans h hb)
  · exact waitReconciled_goes h taskId false trimRaises

end Bus

/-! ### Steps -/

/-- The event is a step of a cleanup. -/
def Bus.Event.cleansUp : Bus.Event → Bool
  | .cleanupTask _ | .cleanEnds _ | .cleanGivesUp _ => true
  | _ => false

/-- A read ends that has found a message of a job whose report is still filed,
or of one that has been delivered and is not in the set the read looks into. -/
def System.readsStale (s : System) : Bus.Event → Bool
  | .consumed i seen =>
    match s.calls i with
    | some (.consuming taskId delivered _ agent _ afterId) =>
      (s.bus.batch taskId agent afterId seen).any fun m =>
        s.bus.isPending taskId m.1.job || s.bus.isDelivered taskId m.1.job && decide (m.1.job ∉ s.bus.sets delivered)
    | _ => false
  | _ => false

/-- The steps that keep the ways of a result apart. -/
structure HandsOnce (s : System) (ev : Bus.Event) : Prop where
  kept : ev.cleansUp = false
  fresh : s.readsStale ev = false
  own : Avoids [.foreignResult] s ev

instance (s : System) (ev : Bus.Event) : Decidable (HandsOnce s ev) :=
  decidable_of_iff (ev.cleansUp = false ∧ s.readsStale ev = false ∧ Avoids [.foreignResult] s ev)
    ⟨fun ⟨h1, h2, h3⟩ => ⟨h1, h2, h3⟩, fun ⟨h1, h2, h3⟩ => ⟨h1, h2, h3⟩⟩

theorem HandsOnce.hits_foreignResult {s : System} {ev : Bus.Event} (h : HandsOnce s ev) :
    ¬s.hits ev .foreignResult = true := by
  rw [h.own .foreignResult List.mem_cons_self]
  exact Bool.false_ne_true

theorem HandsOnce.hits_givesUp {s : System} {ev : Bus.Event} (h : HandsOnce s ev) : ¬s.hits ev .givesUp = true := by
  have hkept := h.kept
  cases ev <;> simp_all [System.hits, Bus.Event.cleansUp]

/-- The result of a job that has reported is sent. -/
theorem FanIn.send {store : List ResultMessage} {brd : Board} {x : Exchange} (h : FanIn store brd x)
    {m : ResultMessage} (hm : ReportedIn brd m.taskId m.job) : FanIn store brd { x with store := x.store ++ [m] } where
  sound := h.sound
  filed := h.filed
  refs := ⟨h.refs.delivered_lt, h.refs.delivered_inj, h.refs.recovered_lt, h.refs.recovered_inj, h.refs.fresh⟩
  traced taskId j ht := by
    rcases ht with ht | ⟨m', hm', rfl, rfl⟩
    · exact h.traced taskId j (.inl ht)
    · rcases List.mem_append.mp hm' with hm' | hm'
      · exact h.traced _ _ (.inr ⟨m', hm', rfl, rfl⟩)
      · rw [List.mem_singleton.mp hm']
        exact .inr hm
  once taskId j hc := ⟨(h.once taskId j hc).balance, (h.once taskId j hc).pending⟩

namespace Bus

variable {store : List ResultMessage}

theorem stepJob_ledger {b b' : Bus} {j : ℕ} {e : JobEntry} {t : JobTask} {ev : Event} (ha : ev.actor = .job j)
    (h : b.stepJob j e t ev = some b') (hsend : ∀ k, ev ≠ .send k) : b'.toExchange.ledger = b.toExchange.ledger := by
  cases stepJob_cases ha h with
  | abandon _ _ => rfl
  | acquire _ => exact ledger_acquireSlot _ _ _
  | resume _ _ => rfl
  | conclude _ _ => exact ledger_releaseJob b j
  | loopEnds _ _ => exact ledger_loopEnds _ _ _ _
  | adapterEnds _ _ => exact ledger_adapterEnds _ _ _ _
  | send _ _ _ => exact absurd rfl (hsend j)
  | published _ _ => exact ledger_finishJob _ _ _ _
  | lostOffload _ _ => rfl
  | offloaded _ _ => exact ledger_handOn _ _ _ _
  | drained _ => rfl
  | drainFails _ _ => exact ledger_drainFails _ _ _ _
  | undone _ _ _ => exact ledger_releaseJob _ _

theorem stepJob_goes {s : System} {b' : Bus} {j : ℕ} {e : JobEntry} {t : JobTask} {ev : Event}
    (ha : ev.actor = .job j) (he : s.bus.jobs j = some e) (ht : e.task = some t)
    (h : s.bus.stepJob j e t ev = some b') (hf : Fans store s.bus) (hev : HandsOnce s ev) :
    Goes store s.bus (b', none) := by
  have hm := stepJob_moves ha he ht h
  by_cases hsend : ∃ k, ev = .send k
  · obtain ⟨k, rfl⟩ := hsend
    cases stepJob_cases ha h with
    | @send r res hpc hses hres =>
      have hreported : s.bus.Reported j r :=
        ⟨_, ⟨e, t, he, hses, ht, rfl⟩, by rw [hpc]; rfl, fun hfin => by rw [hpc] at hfin; cases hfin⟩
      have hmove : Move (fun _ => False) s.bus.toBoard (s.bus.markSent j) :=
        .markSent (Board.pc_eq_some.mpr ⟨e, t, he, ht, hpc⟩)
      obtain ⟨hs, hfiled, hreports⟩ := hmove.single.reports id id (FanIn.sound hf) (FanIn.filed hf)
      have hin : ReportedIn (s.bus.markSent j) (s.bus.sessions r).taskId j :=
        FanIn.reportedIn_of_reports (FanIn.sound hf) hreports ⟨r, hreported, rfl⟩
      exact .ended ⟨FanIn.send (FanIn.reports hf hs hfiled hreports) hin, rfl⟩
  · exact (Quiet.none (stepJob_ledger ha h fun k hk => hsend ⟨k, hk⟩)).goes hf hm hev.hits_givesUp
      hev.hits_foreignResult

theorem stepCall_goes {s : System} {p : Bus × Option Call} {i : ℕ} {c : Call} {ev : Event}
    (ha : ev.actor = .call i) (hc : s.calls i = some c) (h : s.bus.stepCall c ev = some p) (hf : Fans store s.bus)
    (hhold : s.bus.Holds c) (hev : HandsOnce s ev) : Goes store s.bus p := by
  have hquiet : Quiet s.bus p → Goes store s.bus p := fun hq =>
    hq.goes hf (stepCall_moves ha hc h) hev.hits_givesUp hev.hits_foreignResult
  cases ev <;> simp only [Event.actor, Actor.call.injEq, reduceCtorEq] at ha
  all_goals subst ha
  all_goals cases c <;> simp only [stepCall, reduceCtorEq] at h
  case submitEnds.submitting => cases h; exact hquiet (.none rfl)
  case submitFails.submitting => cases h; exact hquiet (failDispatch_quiet _ _)
  case undoEnds.undoing =>
    split_ifs at h
    cases h
    exact hquiet (.none (ledger_releaseJob _ _))
  case abortEnds.aborting =>
    split_ifs at h
    cases h
    exact hquiet (.none (ledger_abortEnds _ _))
  case cancelEnds.cancelling =>
    split_ifs at h
    cases h
    exact hquiet ((cancelNext_quiet _ _).after (ledger_markUnlessTerminal _ _))
  case cleanEnds.cleaning => cases hev.kept
  case cleanGivesUp.cleaning => cases hev.kept
  case waitDrainEnds.draining => cases h; exact waitDrain_goes _ _ _ _ hf
  case waitDrainFails.draining => cases h; exact hquiet (failDispatch_quiet _ _)
  case waitEnds.waiting =>
    split_ifs at h
    cases h
    exact waitReconciled_goes hf _ _ _
  case waitTimesOut.waiting => cases h; exact hquiet (.none rfl)
  case discovered.discovering => cases h; exact discovered_goes hf _ _
  case consumed.consuming i seen taskId delivered buffer agent rest afterId =>
    cases h
    refine consumed_goes hf hhold (fun m hm => ?_) rest
    have hfresh := hev.fresh
    rw [System.readsStale, hc] at hfresh
    have hnot := List.any_eq_false.mp hfresh m hm
    simp only [Bool.or_eq_true, Bool.and_eq_true, decide_eq_true_eq, not_or, not_and, not_not,
      Bool.not_eq_true] at hnot
    exact hnot
  case consumeFails.consuming => cases h; exact consumeNext_goes hf hhold _ _
  case interrupt.undoing => cases h; exact hquiet (.some (ledger_cancelTask _ _ _) fun _ => trivial)
  case interrupt.aborting => cases h; exact hquiet (.some (ledger_cancelTask _ _ _) fun _ => trivial)
  case interrupt.cancelling => cases h; exact hquiet (.some (ledger_cancelTask _ _ _) fun _ => trivial)
  case interrupt.cleaning => cases h; exact hquiet (.some (ledger_cancelTask _ _ _) fun _ => trivial)
  case interrupt.waiting => cases h; exact hquiet (.none rfl)
  case interrupt.discovering => cases h; exact hquiet (.none rfl)
  case interrupt.consuming => cases h; exact hquiet (.none rfl)

theorem openCall_goes {s : System} {p : Bus × Option Call} {ev : Event} (h : s.bus.openCall ev = some p)
    (hf : Fans store s.bus) (hev : HandsOnce s ev) : Goes store s.bus p := by
  have hquiet : Quiet s.bus p → Goes store s.bus p := fun hq =>
    hq.goes hf (openCall_moves h) hev.hits_givesUp hev.hits_foreignResult
  cases ev <;> simp only [openCall, reduceCtorEq] at h
  case createSession =>
    cases h
    refine hquiet (.none ?_)
    split <;> rfl
  case submit => cases h; exact hquiet (.none (ledger_submit _ _ _ _))
  case submitTaskToSession =>
    split_ifs at h
    cases h
    exact hquiet (submitTask_quiet _ _ _ _ _ _)
  case abort => cases h; exact hquiet (abort_quiet _ _)
  case cancelForParent => cases h; exact hquiet (cancelForParent_quiet _ _)
  case cleanupTask => cases hev.kept
  case waitAny => cases h; exact waitAny_goes hf _ _

end Bus

/-! ### Whole runs -/

/-- The invariant of runs. -/
structure FanSystem (store : List ResultMessage) (s : System) : Prop where
  fans : Bus.Fans store s.bus
  calls : ∀ i c, s.calls i = some c → s.bus.Holds c

/-- The other calls keep their buffers. -/
theorem FanSystem.goes {store : List ResultMessage} {s : System} (h : FanSystem store s) {p : Bus × Option Call}
    (hp : Bus.Goes store s.bus p) (i n : ℕ) :
    FanSystem store { bus := p.1, calls := Function.update s.calls i p.2, callCount := n } where
  fans := hp.fans
  calls k c hc := by
    dsimp only at hc
    by_cases hk : k = i
    · subst hk
      rw [Function.update_self] at hc
      exact hp.call c hc
    · rw [Function.update_of_ne hk] at hc
      exact (h.calls k c hc).stays hp.stays

theorem step_fanSystem {store : List ResultMessage} {s s' : System} {ev : Bus.Event} (hs : s.step ev = some s')
    (hev : HandsOnce s ev) (h : FanSystem store s) : FanSystem store s' := by
  unfold System.step at hs
  split at hs
  · next j ha =>
    obtain ⟨e, he, hs⟩ := Option.bind_eq_some_iff.mp hs
    obtain ⟨t, ht, hs⟩ := Option.bind_eq_some_iff.mp hs
    obtain ⟨b, hb, rfl⟩ := Option.map_eq_some_iff.mp hs
    have hp := Bus.stepJob_goes ha he ht hb h.fans hev
    exact ⟨hp.fans, fun i c hc => (h.calls i c hc).stays hp.stays⟩
  · next i ha =>
    obtain ⟨c, hc, hs⟩ := Option.bind_eq_some_iff.mp hs
    obtain ⟨p, hp, rfl⟩ := Option.map_eq_some_iff.mp hs
    exact h.goes (Bus.stepCall_goes ha hc hp h.fans (h.calls i c hc) hev) i s.callCount
  · obtain ⟨p, hp, rfl⟩ := Option.map_eq_some_iff.mp hs
    exact h.goes (Bus.openCall_goes hp h.fans hev) s.callCount (s.callCount + 1)

theorem fanSystem_fresh (historyDir comm : Bool) (guard : Option SpawnGuard) (store : List ResultMessage) :
    FanSystem store (System.fresh historyDir comm guard store) where
  fans :=
    { sound := sound_fresh historyDir comm guard store
      filed := ⟨fun j e r he => by (cases he), fun r rep hrep => by (cases hrep), fun _ => List.nodup_nil⟩
      refs := ⟨fun t ref h => by (cases h), fun t t' ref h => by (cases h), fun t ref h => by (cases h),
        fun t t' ref h => by (cases h), fun _ _ => rfl⟩
      traced := fun taskId j h => by
        rcases h with h | h
        · cases h
        · exact .inl h
      once := fun taskId j _ => ⟨Nat.zero_le _, fun _ => rfl⟩ }
  calls i c hc := by cases hc

/-- **Every result reaches one caller at most.** In every run without cleanups
in which each job reports under its own id and no read is stale, the result of
a job is handed out at most once, by whichever way; except where the job has
the id of one that the log was about when the bus was started. -/
theorem results_handed_once {historyDir comm : Bool} {guard : Option SpawnGuard} {store : List ResultMessage}
    {es : List Bus.Event} {s : System}
    (h : Trace System.step (fun _ => HandsOnce) (System.fresh historyDir comm guard store) es s) {taskId : String}
    {j : ℕ} (hid : ¬Clashes store s.bus.toBoard taskId j) : s.bus.handed.count (taskId, j) ≤ 1 := by
  have hs : FanSystem store s := by
    refine Trace.invariant (I := fun _ s => FanSystem store s) (fanSystem_fresh historyDir comm guard store) ?_ h
    exact fun _ s ev s' hI hev hstep => step_fanSystem hstep hev hI
  have hbalance := (FanIn.once hs.fans taskId j hid).balance
  unfold Exchange.total at hbalance
  split at hbalance <;> omega

/-- The result of a job is taken, and its message is read behind that. -/
def takenThenRead : List Bus.Event :=
  [.createSession "t" "a", .submitTaskToSession 0 "p" "m" 0 false, .submitEnds 1, .start 1,
    .loopEnds 1 (.returned [] "x" ""), .adapterEnds 1 (.returned { success := true, jobId := some 1 }), .send 1,
    .published 1 false, .waitAny "t" false, .waitAny "t" false, .consumed 3 1]

theorem results_handed_once_takenThenRead :
    ∃ s, run System.step (System.fresh false true none []) takenThenRead = some s ∧ s.bus.handed = [("t", 1)] ∧
      s.bus.handed.count ("t", 1) ≤ 1 := by
  have h : Trace System.step (fun _ => HandsOnce) (System.fresh false true none []) takenThenRead _ :=
    Trace.of_run (p := fun _ s ev => decide (HandsOnce s ev)) (fun _ _ _ h => of_decide_eq_true h) (by decide) rfl
  exact ⟨_, rfl, rfl, results_handed_once h fun hc => by obtain ⟨⟨m, hm, -⟩, -⟩ := hc; cases hm⟩

/-- A second job reports and sends its message while a read is under way, and
the read takes the message; the report is still filed, and the next caller is
given it. -/
theorem read_overtakes_report :
    ∃ s, run System.step (System.fresh false true none [])
        [.createSession "t" "a", .submitTaskToSession 0 "p" "m" 0 false, .submitEnds 1, .start 1,
          .loopEnds 1 (.returned [] "x" ""), .adapterEnds 1 (.returned { success := true, jobId := some 1 }), .send 1,
          .published 1 false, .waitAny "t" false, .waitAny "t" false, .submitTaskToSession 0 "q" "m" 0 false,
          .submitEnds 4, .start 2, .loopEnds 2 (.returned [] "y" ""),
          .adapterEnds 2 (.returned { success := true, jobId := some 2 }), .send 2, .consumed 3 2,
          .waitAny "t" false] = some s ∧
      s.bus.handed.count ("t", 2) = 2 :=
  ⟨_, rfl, rfl⟩

end AgentBus
end AgentCore
