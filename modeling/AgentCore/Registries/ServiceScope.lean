/-
# Scoped service tables

The service registry of `runtime/registries/services.py` over the scopes of `scope.py`.
A task reads and writes the table of its active scope, and without one the table of the
process; a scope may let lookups fall back to the process. Entering a scope lasts to the
end of its block, and a child task starts with a copy of its parent's context.

Two runs of the program in one process do not see each other: what the tasks of a run
find is what they would find if the other runs were not there, as long as the others
write in scopes of their own, and whatever they write if the run itself keeps to scopes
that do not fall back (`isolated`).

Tasks and scopes get their names from the events; a name is given once. A call of the
registry has no suspension. A type is anything with a name; `isinstance` is the host's, and
may raise. The names of scopes, which only show up in their `repr`, are left out.

Key definitions: `Table`, `Call`, `System`, `step`, `Separate`, `Agree`.
Key theorem: `isolated`.
-/
import AgentCore.Lib.Noninterference
import Mathlib.Logic.Function.Basic

namespace AgentCore.Registries.ServiceScope

variable {τ ν : Type}

/-- A dictionary of services in insertion order; an instance may be `None`. -/
abbrev Table (τ ν : Type) := List (τ × Option ν)

structure Scope (τ ν : Type) where
  services : Table τ ν
  fallbackToProcess : Bool := true

/-! ### Calls of the registry -/

inductive Call (τ ν : Type)
  | register (serviceType : τ) (value : Option ν)
  | get (serviceType : τ)
  | getOptional (serviceType : τ)
  | getOptionalByTypeName (typeName : String)
  | clear
  | isRegistered (serviceType : τ)
  | getLocal (serviceType : τ)
  | isRegisteredLocal (serviceType : τ)
  | snapshot
  | restore (snapshotMap : Table τ ν)

inductive Answer (τ ν : Type)
  | done
  | found (value : Option ν)
  /-- `ServiceNotRegistered`. -/
  | notRegistered (serviceType : τ)
  | registered (present : Bool)
  | map (table : Table τ ν)
  deriving DecidableEq

/-! ### Tasks and their tables -/

/-- The context of a task, with the tokens of its open blocks. -/
structure Task where
  current : Option ℕ := none
  tokens : List (Option ℕ) := []

structure System (τ ν : Type) where
  process : Table τ ν
  scopes : ℕ → Option (Scope τ ν) := fun _ => none
  tasks : ℕ → Option Task

inductive Event (τ ν : Type)
  | spawn (task child : ℕ)
  /-- `ServiceScope(…)`. -/
  | create (task scope : ℕ) (fallbackToProcess : Bool) (services : Table τ ν)
  /-- The head of `with use_scope(scope)`. -/
  | enter (task scope : ℕ)
  /-- Its end. -/
  | leave (task : ℕ)
  | call (task : ℕ) (call : Call τ ν)

/-- `current_scope`. -/
def System.current (s : System τ ν) (task : ℕ) : Option ℕ := (s.tasks task).bind (·.current)

def System.scope (s : System τ ν) (task : ℕ) : Option (Scope τ ν) := (s.current task).bind s.scopes

/-- `_write_table`. -/
def writeTable (s : System τ ν) (task : ℕ) : Table τ ν :=
  match s.scope task with
  | some scope => scope.services
  | none => s.process

/-- `_read_tables`. -/
def readTables (s : System τ ν) (task : ℕ) : List (Table τ ν) :=
  match s.scope task with
  | some scope => if scope.fallbackToProcess then [scope.services, s.process] else [scope.services]
  | none => [s.process]

/-- The table of a task is now `table`. -/
def setTable (s : System τ ν) (task : ℕ) (table : Table τ ν) : System τ ν :=
  match s.current task with
  | some id =>
    { s with scopes := Function.update s.scopes id ((s.scopes id).map fun scope => { scope with services := table }) }
  | none => { s with process := table }

section Source

variable [DecidableEq τ]

/-- `table.get(service_type)`. -/
def Table.get (table : Table τ ν) (serviceType : τ) : Option ν := (table.lookup serviceType).join

def Table.contains (table : Table τ ν) (serviceType : τ) : Bool := (table.lookup serviceType).isSome

/-- `table[service_type] = instance`. -/
def Table.set (serviceType : τ) (value : Option ν) : Table τ ν → Table τ ν
  | [] => [(serviceType, value)]
  | (key, old) :: rest =>
    if key = serviceType then (key, value) :: rest else (key, old) :: Table.set serviceType value rest

/-- `isinstance(candidate, service_type)`, or a `TypeError`; and `__name__`. -/
structure Types (τ ν : Type) where
  isinstance : Option ν → τ → Option Bool
  name : τ → String

variable (types : Types τ ν)

/-- `_structural_lookup`. -/
def structuralLookup (serviceType : τ) : Table τ ν → Option ν
  | [] => none
  | (_, candidate) :: rest =>
    match types.isinstance candidate serviceType with
    | some true => candidate
    | some false => structuralLookup serviceType rest
    | none => none

/-- `get`. -/
def get (tables : List (Table τ ν)) (serviceType : τ) : Answer τ ν :=
  match tables.findSome? fun table => table.get serviceType with
  | some value => .found (some value)
  | none => .notRegistered serviceType

/-- `get_optional`: each table to its end before the next. -/
def getOptional (tables : List (Table τ ν)) (serviceType : τ) : Answer τ ν :=
  .found (tables.findSome? fun table => (table.get serviceType).or (structuralLookup types serviceType table))

/-- `get_optional_by_type_name`. -/
def getOptionalByTypeName (tables : List (Table τ ν)) (typeName : String) : Answer τ ν :=
  .found (tables.findSome? fun table => (table.find? fun entry => types.name entry.1 = typeName).map (·.2)).join

/-- `get_local`. -/
def getLocal (table : Table τ ν) (serviceType : τ) : Answer τ ν :=
  match table.get serviceType with
  | some value => .found (some value)
  | none => .notRegistered serviceType

/-- What a call answers, of the tables it reads and the one it writes. -/
def Call.answer (tables : List (Table τ ν)) (table : Table τ ν) : Call τ ν → Answer τ ν
  | .register _ _ => .done
  | .get serviceType => ServiceScope.get tables serviceType
  | .getOptional serviceType => ServiceScope.getOptional types tables serviceType
  | .getOptionalByTypeName typeName => ServiceScope.getOptionalByTypeName types tables typeName
  | .clear => .done
  | .isRegistered serviceType => .registered (tables.any fun table => table.contains serviceType)
  | .getLocal serviceType => ServiceScope.getLocal table serviceType
  | .isRegisteredLocal serviceType => .registered (table.contains serviceType)
  | .snapshot => .map table
  | .restore _ => .done

/-- The table that a call leaves, if it changes the table. -/
def Call.write (table : Table τ ν) : Call τ ν → Option (Table τ ν)
  | .register serviceType value => some (table.set serviceType value)
  | .clear => some []
  | .restore snapshotMap => some snapshotMap
  | _ => none

def step (s : System τ ν) : Event τ ν → Option (System τ ν)
  | .spawn task child =>
    match s.tasks task, s.tasks child with
    | some parent, none => some { s with tasks := Function.update s.tasks child (some ⟨parent.current, []⟩) }
    | _, _ => none
  | .create task id fallbackToProcess services =>
    match s.tasks task, s.scopes id with
    | some _, none => some { s with scopes := Function.update s.scopes id (some ⟨services, fallbackToProcess⟩) }
    | _, _ => none
  | .enter task id =>
    match s.tasks task, s.scopes id with
    | some t, some _ => some { s with tasks := Function.update s.tasks task (some ⟨some id, t.current :: t.tokens⟩) }
    | _, _ => none
  | .leave task =>
    match s.tasks task with
    | some ⟨_, token :: tokens⟩ => some { s with tasks := Function.update s.tasks task (some ⟨token, tokens⟩) }
    | _ => none
  | .call task call =>
    (s.tasks task).map fun _ =>
      match call.write (writeTable s task) with
      | some table => setTable s task table
      | none => s

/-- What an event answers. -/
def out (s : System τ ν) : Event τ ν → Answer τ ν
  | .call task call => call.answer types (readTables s task) (writeTable s task)
  | _ => .done

end Source

/-! ### Runs apart -/

/-- Tasks and scopes belong to runs. -/
structure Owners where
  task : ℕ → ℕ
  scope : ℕ → ℕ

def Event.task : Event τ ν → ℕ
  | .spawn task _ => task
  | .create task _ _ _ => task
  | .enter task _ => task
  | .leave task => task
  | .call task _ => task

def Call.writes : Call τ ν → Bool
  | .register _ _ => true
  | .clear => true
  | .restore _ => true
  | _ => false

variable (runs : Owners) (run : ℕ)

/-- Tasks start tasks of their own run and enter scopes of their own run. With `shared`, the
others write in scopes; without, the run itself does not look at the process. -/
def Separate (shared : Bool) (_ : List (Event τ ν)) (s : System τ ν) : Event τ ν → Prop
  | .spawn task child => runs.task child = runs.task task
  | .create task id _ _ => runs.scope id = runs.task task
  | .enter task id => runs.scope id = runs.task task
  | .leave _ => True
  | .call task call =>
    if runs.task task = run then shared = false → (s.scope task).any (fun scope => !scope.fallbackToProcess) = true
    else shared = true → call.writes = true → s.current task ≠ none

instance decidableSeparate (shared : Bool) (past : List (Event τ ν)) (s : System τ ν) :
    ∀ e, Decidable (Separate runs run shared past s e)
  | .spawn _ _ => inferInstanceAs (Decidable (_ = _))
  | .create _ _ _ _ => inferInstanceAs (Decidable (_ = _))
  | .enter _ _ => inferInstanceAs (Decidable (_ = _))
  | .leave _ => .isTrue trivial
  | .call task _ =>
    inferInstanceAs (Decidable (if runs.task task = run then _ else _))

/-- The tasks and the scopes of a run are the same, and the process is, where it is shared. -/
structure Agree (shared : Bool) (s u : System τ ν) : Prop where
  process : shared = true → s.process = u.process
  scopes : ∀ id, runs.scope id = run → s.scopes id = u.scopes id
  tasks : ∀ task, runs.task task = run → s.tasks task = u.tasks task
  /-- The scopes a task can come to are its run's. -/
  own : ∀ task t, s.tasks task = some t → ∀ id, (t.current = some id ∨ some id ∈ t.tokens) →
    runs.scope id = runs.task task ∧ (s.scopes id).isSome = true

variable {types : Types τ ν} {runs run} {shared : Bool} {s s' u : System τ ν}

theorem Agree.current (h : Agree runs run shared s u) {task : ℕ} (htask : runs.task task = run) :
    s.current task = u.current task := by
  unfold System.current
  rw [h.tasks task htask]

theorem Agree.own_current (h : Agree runs run shared s u) {task id : ℕ} (hcurrent : s.current task = some id) :
    runs.scope id = runs.task task ∧ (s.scopes id).isSome = true := by
  obtain ⟨t, ht, hid⟩ := Option.bind_eq_some_iff.mp hcurrent
  exact h.own task t ht id (.inl hid)

theorem Agree.scope (h : Agree runs run shared s u) {task : ℕ} (htask : runs.task task = run) :
    s.scope task = u.scope task := by
  unfold System.scope
  rw [← h.current htask]
  cases hcurrent : s.current task with
  | none => rfl
  | some id => exact h.scopes id ((h.own_current hcurrent).1.trans htask)

/-! ### One event -/

theorem own_tasks (h : Agree runs run shared s u) {task : ℕ} {t : Task}
    (hown : ∀ id, (t.current = some id ∨ some id ∈ t.tokens) → runs.scope id = runs.task task ∧ (s.scopes id).isSome = true) :
    ∀ task' t', Function.update s.tasks task (some t) task' = some t' → ∀ id, (t'.current = some id ∨ some id ∈ t'.tokens) →
      runs.scope id = runs.task task' ∧ (s.scopes id).isSome = true := by
  intro task' t' ht'
  by_cases heq : task' = task
  · subst heq
    rw [Function.update_self] at ht'
    obtain rfl := Option.some.inj ht'
    exact hown
  · rw [Function.update_of_ne heq] at ht'
    exact h.own task' t' ht'

theorem own_scopes (h : Agree runs run shared s u) {id : ℕ} {scope : Option (Scope τ ν)}
    (hkeeps : (s.scopes id).isSome = true → scope.isSome = true) :
    ∀ task t, s.tasks task = some t → ∀ id', (t.current = some id' ∨ some id' ∈ t.tokens) →
      runs.scope id' = runs.task task ∧ (Function.update s.scopes id scope id').isSome = true := by
  intro task t ht id' hid'
  obtain ⟨hrun, hsome⟩ := h.own task t ht id' hid'
  refine ⟨hrun, ?_⟩
  by_cases heq : id' = id
  · subst heq
    rw [Function.update_self]
    exact hkeeps hsome
  · rw [Function.update_of_ne heq]
    exact hsome

/-- A task of another run changes its context. -/
theorem agree_task_other (h : Agree runs run shared s u) {task : ℕ} (hother : runs.task task ≠ run) {t : Task}
    (hown : ∀ id, (t.current = some id ∨ some id ∈ t.tokens) → runs.scope id = runs.task task ∧ (s.scopes id).isSome = true) :
    Agree runs run shared { s with tasks := Function.update s.tasks task (some t) } u where
  process := h.process
  scopes := h.scopes
  tasks task' htask' := by
    have hne : task' ≠ task := fun heq => hother (heq ▸ htask')
    exact (Function.update_of_ne hne _ _).trans (h.tasks task' htask')
  own := own_tasks h hown

theorem agree_task (h : Agree runs run shared s u) {task : ℕ} {t : Task}
    (hown : ∀ id, (t.current = some id ∨ some id ∈ t.tokens) → runs.scope id = runs.task task ∧ (s.scopes id).isSome = true) :
    Agree runs run shared { s with tasks := Function.update s.tasks task (some t) }
      { u with tasks := Function.update u.tasks task (some t) } where
  process := h.process
  scopes := h.scopes
  tasks task' htask' := by
    dsimp only
    by_cases heq : task' = task
    · rw [heq, Function.update_self, Function.update_self]
    · rw [Function.update_of_ne heq, Function.update_of_ne heq]
      exact h.tasks task' htask'
  own := own_tasks h hown

theorem agree_scope_other (h : Agree runs run shared s u) {id : ℕ} (hother : runs.scope id ≠ run)
    {scope : Option (Scope τ ν)} (hkeeps : (s.scopes id).isSome = true → scope.isSome = true) :
    Agree runs run shared { s with scopes := Function.update s.scopes id scope } u where
  process := h.process
  scopes id' hid' := by
    have hne : id' ≠ id := fun heq => hother (heq ▸ hid')
    exact (Function.update_of_ne hne _ _).trans (h.scopes id' hid')
  tasks := h.tasks
  own := own_scopes h hkeeps

theorem agree_scope (h : Agree runs run shared s u) {id : ℕ} {scope : Option (Scope τ ν)}
    (hkeeps : (s.scopes id).isSome = true → scope.isSome = true) :
    Agree runs run shared { s with scopes := Function.update s.scopes id scope }
      { u with scopes := Function.update u.scopes id scope } where
  process := h.process
  scopes id' hid' := by
    dsimp only
    by_cases heq : id' = id
    · rw [heq, Function.update_self, Function.update_self]
    · rw [Function.update_of_ne heq, Function.update_of_ne heq]
      exact h.scopes id' hid'
  tasks := h.tasks
  own := own_scopes h hkeeps

theorem write_isSome [DecidableEq τ] (call : Call τ ν) (table : Table τ ν) : (call.write table).isSome = call.writes := by
  cases call <;> rfl

/-- What another run writes goes to its own scope, or to a process that the run does not look at. -/
theorem agree_setTable_other (h : Agree runs run shared s u) {task : ℕ} (hother : runs.task task ≠ run)
    (hscoped : shared = true → s.current task ≠ none) (table : Table τ ν) : Agree runs run shared (setTable s task table) u := by
  unfold setTable
  cases hcurrent : s.current task with
  | none => exact { h with process := fun hshared => absurd hcurrent (hscoped hshared) }
  | some id =>
    refine agree_scope_other h (fun heq => hother ((h.own_current hcurrent).1.symm.trans heq)) fun hsome => ?_
    rw [Option.isSome_map]
    exact hsome

theorem agree_setTable (h : Agree runs run shared s u) {task : ℕ} (htask : runs.task task = run) (table : Table τ ν) :
    Agree runs run shared (setTable s task table) (setTable u task table) := by
  unfold setTable
  rw [← h.current htask]
  cases hcurrent : s.current task with
  | none => exact { h with process := fun _ => rfl }
  | some id =>
    dsimp only
    rw [← h.scopes id ((h.own_current hcurrent).1.trans htask)]
    refine agree_scope h fun hsome => ?_
    rw [Option.isSome_map]
    exact hsome

/-- A run finds the same tables. -/
theorem Agree.tables (h : Agree runs run shared s u) {task : ℕ} (htask : runs.task task = run)
    (hsealed : shared = false → (s.scope task).any (fun scope => !scope.fallbackToProcess) = true) :
    readTables s task = readTables u task ∧ writeTable s task = writeTable u task := by
  unfold readTables writeTable
  rw [← h.scope htask]
  cases hshared : shared with
  | true =>
    rw [h.process hshared]
    exact ⟨rfl, rfl⟩
  | false =>
    have hscope := hsealed hshared
    cases hs : s.scope task with
    | none =>
      rw [hs] at hscope
      cases hscope
    | some scope =>
      rw [hs] at hscope
      have hclosed : scope.fallbackToProcess = false := by simpa using hscope
      dsimp only
      rw [hclosed]
      exact ⟨rfl, rfl⟩

/-- What a task becomes that starts, enters or leaves. -/
theorem own_of_mem (h : Agree runs run shared s u) {task : ℕ} {t : Task} (ht : s.tasks task = some t) {child : ℕ}
    (hchild : runs.task child = runs.task task) {t' : Task}
    (hsub : ∀ id, (t'.current = some id ∨ some id ∈ t'.tokens) →
      (t.current = some id ∨ some id ∈ t.tokens) ∨ runs.scope id = runs.task task ∧ (s.scopes id).isSome = true) :
    ∀ id, (t'.current = some id ∨ some id ∈ t'.tokens) → runs.scope id = runs.task child ∧ (s.scopes id).isSome = true := by
  intro id hid
  rw [hchild]
  rcases hsub id hid with hold | hnew
  · exact h.own task t ht id hold
  · exact hnew

/-- A process whose main tasks are in no scope. -/
def start (process : Table τ ν) (main : ℕ → Bool) : System τ ν :=
  { process := process, tasks := fun task => if main task then some {} else none }

theorem agree_start {process process' : Table τ ν} (hshared : shared = true → process = process') (main : ℕ → Bool) :
    Agree runs run shared (start process main) (start process' main) where
  process := hshared
  scopes _ _ := rfl
  tasks _ _ := rfl
  own task t ht id hid := by
    obtain ⟨-, heq⟩ := Option.ite_none_right_eq_some.mp ht
    cases heq
    exact absurd hid (not_or.mpr ⟨nofun, List.not_mem_nil⟩)

section Unwinding

variable [DecidableEq τ]

/-- What one event does, by its kind. -/
theorem step_cases {e : Event τ ν} (hstep : step s e = some s') :
    (∃ task child parent, e = .spawn task child ∧ s.tasks task = some parent ∧ s.tasks child = none ∧
      s' = { s with tasks := Function.update s.tasks child (some ⟨parent.current, []⟩) }) ∨
    (∃ task id fallback services t, e = .create task id fallback services ∧ s.tasks task = some t ∧ s.scopes id = none ∧
      s' = { s with scopes := Function.update s.scopes id (some ⟨services, fallback⟩) }) ∨
    (∃ task id t scope, e = .enter task id ∧ s.tasks task = some t ∧ s.scopes id = some scope ∧
      s' = { s with tasks := Function.update s.tasks task (some ⟨some id, t.current :: t.tokens⟩) }) ∨
    (∃ task current token tokens, e = .leave task ∧ s.tasks task = some ⟨current, token :: tokens⟩ ∧
      s' = { s with tasks := Function.update s.tasks task (some ⟨token, tokens⟩) }) ∨
    (∃ task call t, e = .call task call ∧ s.tasks task = some t ∧
      (call.write (writeTable s task) = none ∧ s' = s ∨
        ∃ table, call.write (writeTable s task) = some table ∧ s' = setTable s task table)) := by
  cases e with
  | spawn task child =>
    dsimp only [step] at hstep
    split at hstep
    · rename_i parent hparent hchild
      cases hstep
      exact .inl ⟨task, child, parent, rfl, hparent, hchild, rfl⟩
    · cases hstep
  | create task id fallback services =>
    dsimp only [step] at hstep
    split at hstep
    · rename_i t ht hid
      cases hstep
      exact .inr (.inl ⟨task, id, fallback, services, t, rfl, ht, hid, rfl⟩)
    · cases hstep
  | enter task id =>
    dsimp only [step] at hstep
    split at hstep
    · rename_i t scope ht hid
      cases hstep
      exact .inr (.inr (.inl ⟨task, id, t, scope, rfl, ht, hid, rfl⟩))
    · cases hstep
  | leave task =>
    dsimp only [step] at hstep
    split at hstep
    · rename_i current token tokens ht
      cases hstep
      exact .inr (.inr (.inr (.inl ⟨task, current, token, tokens, rfl, ht, rfl⟩)))
    · cases hstep
  | call task call =>
    obtain ⟨t, ht, heq⟩ := Option.map_eq_some_iff.mp hstep
    refine .inr (.inr (.inr (.inr ⟨task, call, t, rfl, ht, ?_⟩)))
    cases hwrite : call.write (writeTable s task) with
    | none =>
      rw [hwrite] at heq
      exact .inl ⟨rfl, heq.symm⟩
    | some table =>
      rw [hwrite] at heq
      exact .inr ⟨table, rfl, heq.symm⟩

/-- Another run's event changes nothing that the run has. -/
theorem agree_skip (h : Agree runs run shared s u) {past : List (Event τ ν)} {e : Event τ ν}
    (hP : Separate runs run shared past s e) (hother : runs.task e.task ≠ run) (hstep : step s e = some s') :
    Agree runs run shared s' u := by
  rcases step_cases hstep with ⟨task, child, parent, rfl, hparent, -, rfl⟩ | ⟨task, id, fallback, services, t, rfl, -, -, rfl⟩ |
    ⟨task, id, t, scope, rfl, ht, hid, rfl⟩ | ⟨task, current, token, tokens, rfl, ht, rfl⟩ |
    ⟨task, call, t, rfl, ht, ⟨-, rfl⟩ | ⟨table, hwrite, rfl⟩⟩
  · refine agree_task_other h (fun heq => hother (hP.symm.trans heq)) (own_of_mem h hparent hP fun id hid => .inl ?_)
    exact .inl (hid.resolve_right List.not_mem_nil)
  · exact agree_scope_other h (fun heq => hother (hP.symm.trans heq)) fun _ => rfl
  · refine agree_task_other h hother (own_of_mem h ht rfl fun id' hid' => ?_)
    rcases hid' with hnew | hold
    · obtain rfl := Option.some.inj hnew
      exact .inr ⟨hP, by rw [hid]; rfl⟩
    · exact .inl ((List.mem_cons.mp hold).imp Eq.symm fun hmem => hmem)
  · refine agree_task_other h hother (own_of_mem h ht rfl fun id hid => .inl (.inr ?_))
    exact List.mem_cons.mpr (hid.imp Eq.symm fun hmem => hmem)
  · exact h
  · have hwrites : call.writes = true := by rw [← write_isSome call (writeTable s task), hwrite]; rfl
    have hscoped : shared = true → call.writes = true → s.current task ≠ none := (if_neg hother).mp hP
    exact agree_setTable_other h hother (fun hshared => hscoped hshared hwrites) table

/-- The run's own event answers the same and does the same. -/
theorem agree_follow (h : Agree runs run shared s u) {past : List (Event τ ν)} {e : Event τ ν}
    (hP : Separate runs run shared past s e) (hmine : runs.task e.task = run) (hstep : step s e = some s') :
    out types s e = out types u e ∧ ∃ u', step u e = some u' ∧ Agree runs run shared s' u' := by
  rcases step_cases hstep with ⟨task, child, parent, rfl, hparent, hchild, rfl⟩ |
    ⟨task, id, fallback, services, t, rfl, ht, hid, rfl⟩ | ⟨task, id, t, scope, rfl, ht, hid, rfl⟩ |
    ⟨task, current, token, tokens, rfl, ht, rfl⟩ | ⟨task, call, t, rfl, ht, hcall⟩
  · refine ⟨rfl, { u with tasks := Function.update u.tasks child (some ⟨parent.current, []⟩) }, ?_,
      agree_task h (own_of_mem h hparent hP fun id hid => .inl (.inl (hid.resolve_right List.not_mem_nil)))⟩
    rw [step, ← h.tasks task hmine, ← h.tasks child (hP.trans hmine), hparent, hchild]
  · refine ⟨rfl, { u with scopes := Function.update u.scopes id (some ⟨services, fallback⟩) }, ?_, agree_scope h fun _ => rfl⟩
    rw [step, ← h.tasks task hmine, ← h.scopes id (hP.trans hmine), ht, hid]
  · refine ⟨rfl, { u with tasks := Function.update u.tasks task (some ⟨some id, t.current :: t.tokens⟩) }, ?_,
      agree_task h (own_of_mem h ht rfl fun id' hid' => ?_)⟩
    · rw [step, ← h.tasks task hmine, ← h.scopes id (hP.trans hmine), ht, hid]
    · rcases hid' with hnew | hold
      · obtain rfl := Option.some.inj hnew
        exact .inr ⟨hP, by rw [hid]; rfl⟩
      · exact .inl ((List.mem_cons.mp hold).imp Eq.symm fun hmem => hmem)
  · refine ⟨rfl, { u with tasks := Function.update u.tasks task (some ⟨token, tokens⟩) }, ?_,
      agree_task h (own_of_mem h ht rfl fun id hid => .inl (.inr ?_))⟩
    · rw [step, ← h.tasks task hmine, ht]
    · exact List.mem_cons.mpr (hid.imp Eq.symm fun hmem => hmem)
  · have htask : runs.task task = run := hmine
    obtain ⟨hread, hwritten⟩ := h.tables htask ((if_pos hmine).mp hP)
    have hut : u.tasks task = some t := (h.tasks task hmine).symm.trans ht
    refine ⟨by rw [out, out, hread, hwritten], ?_⟩
    rcases hcall with ⟨hnone, rfl⟩ | ⟨table, hsome, rfl⟩
    · refine ⟨u, ?_, h⟩
      rw [step, hut, ← hwritten, hnone]
      rfl
    · refine ⟨setTable u task table, ?_, agree_setTable h hmine table⟩
      rw [step, hut, ← hwritten, hsome]
      rfl

/-- **Runs are isolated**: in every interleaving, the calls of a run answer what they answer
without the other runs. -/
theorem isolated {process process' : Table τ ν} (hshared : shared = true → process = process') {main : ℕ → Bool}
    {es : List (Event τ ν)} (h : Runs.Trace step (Separate runs run shared) (start process main) es s) :
    (Runs.answers step (out types) (start process main) es).filter (fun a => runs.task a.1.task = run) =
      Runs.answers step (out types) (start process' main) (es.filter fun e => runs.task e.task = run) := by
  have hfollow : Runs.Unwinding step (out types) (Separate runs run shared) (fun e => runs.task e.task = run)
      (Agree runs run shared) :=
    { skip := fun hP hother hagree hstep => agree_skip hagree hP (of_decide_eq_false hother) hstep
      follow := fun hP hmine hagree hstep => agree_follow hagree hP (of_decide_eq_true hmine) hstep }
  obtain ⟨_, -, -, heq⟩ := Runs.noninterference hfollow (agree_start hshared main) h
  exact heq

end Unwinding

/-! ### A solver and its verifier -/

def evenOdd : Owners := ⟨(· % 2), (· % 2)⟩

/-- Types are their names, and nothing is an instance of another type. -/
def nominal : Types String ℕ := ⟨fun _ _ => some false, id⟩

/-- The solver is task 0, with a child 2, and its verifier is task 1, in a scope that does
not fall back. -/
def solverAndVerifier : List (Event String ℕ) :=
  [.create 0 0 true [], .enter 0 0, .create 1 1 false [], .enter 1 1, .call 0 (.register "ResourceManager" (some 1)),
    .spawn 0 2, .call 1 (.getOptional "ResourceManager"), .call 1 (.register "ResourceManager" (some 2)),
    .call 2 (.get "ResourceManager"), .leave 0, .call 0 (.get "ResourceManager"), .call 1 (.get "ResourceManager")]

/-- The solver and its child find what they registered, and the process after that. -/
theorem isolated_solver :
    (Runs.answers step (out nominal) (start [("ResourceManager", some 0)] (· < 2)) solverAndVerifier).filter
        (fun a => evenOdd.task a.1.task = 0) =
      Runs.answers step (out nominal) (start [("ResourceManager", some 0)] (· < 2))
        (solverAndVerifier.filter fun e => evenOdd.task e.task = 0) ∧
    (Runs.answers step (out nominal) (start [("ResourceManager", some 0)] (· < 2))
        (solverAndVerifier.filter fun e => evenOdd.task e.task = 0)).map (·.2) =
      [.done, .done, .done, .done, .found (some 1), .done, .found (some 0)] := by
  have hrun : ∃ s, Runs.run step (start [("ResourceManager", some 0)] (· < 2)) solverAndVerifier = some s :=
    Option.isSome_iff_exists.mp (by decide +kernel)
  obtain ⟨s, hs⟩ := hrun
  have hmeets : Runs.meets step (fun past s e => decide (Separate evenOdd 0 true past s e)) []
      (start [("ResourceManager", some 0)] (· < 2)) solverAndVerifier = true := by
    decide +kernel
  have htrace := Runs.Trace.of_run (fun _ _ _ hP => of_decide_eq_true hP) hmeets hs
  exact ⟨isolated (fun _ => rfl) htrace, by decide +kernel⟩

end AgentCore.Registries.ServiceScope
