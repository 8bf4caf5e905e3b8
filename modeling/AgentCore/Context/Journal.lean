/-
# The context journal

`ContextManager` of `context/manager.py` over the SQLite journal of
`sqlite_store.py` and the content-addressed blob store of `blob_store.py`. An
append puts its attachments into the blob store and then records an entry and
its references in one transaction; a transaction that fails leaves the database
as it was, and the blobs where they are. `delete_scope` deletes the entries of a
scope, their references with them, and then the blobs nothing refers to.

A text is a list of characters, a time the text of its ISO format. SHA-256 is a
parameter, and so is the room for nested containers on the stack of the thread
in which the store works. The entry id that `uuid4` picks and the time come with
the call. A member of `blobs_json` that the store does not write is refused on
decoding.

Key definitions: `append`, `history`, `deleteScope`, `run`.
-/
import AgentCore.Lib.JsonDepth
import AgentCore.Lib.Keyed
import Mathlib.Algebra.Ring.Nat

namespace AgentCore
namespace Context

open PyJson

abbrev Chars := List Char

-- Under one name for the membership tests of all these modules.
scoped instance instLawfulBEqChars : LawfulBEq Chars := inferInstance

/-! ### Models -/

/-- Product-assigned journal isolation keys. -/
structure ContextScope where
  sessionId : Chars
  runId : Chars
  agentId : Chars
  nonempty : sessionId ≠ [] ∧ runId ≠ []
  deriving DecidableEq

def contextScope (sessionId runId agentId : Chars) : Option ContextScope :=
  if h : sessionId ≠ [] ∧ runId ≠ [] then some ⟨sessionId, runId, agentId, h⟩ else none

structure BlobRef where
  digest : Chars
  size : ℤ
  mediaType : Chars
  deriving DecidableEq

structure JournalEntry (F : Type) where
  scope : ContextScope
  kind : Chars
  payload : Value F
  blobs : List (Chars × BlobRef)
  entryId : Chars
  sequence : ℕ
  createdAt : Chars
  kind_ne : kind ≠ []

def journalEntry {F : Type} (scope : ContextScope) (kind : Chars) (payload : Value F) (blobs : List (Chars × BlobRef))
    (entryId : Chars) (sequence : ℕ) (createdAt : Chars) : Option (JournalEntry F) :=
  if h : kind ≠ [] then some ⟨scope, kind, payload, blobs, entryId, sequence, createdAt, h⟩ else none

def octetStream : Chars := "application/octet-stream".toList

/-! ### The blob store -/

/-- A `bytes` object: its length fits a machine word. -/
abbrev Bytes := { data : List UInt8 // data.length < 2 ^ 63 }

def validDigest (digest : Chars) : Bool :=
  digest.length == 64 && digest.all fun ch => "0123456789abcdef".toList.contains ch

/-- `hashlib.sha256(data).hexdigest()`. -/
structure Sha256 where
  hexdigest : Bytes → Chars
  hexdigest_valid : ∀ data, validDigest (hexdigest data) = true

/-- A directory and a file below the root. -/
abbrev Path := Chars × Chars

/-- The files below the root. -/
abbrev Files := Path → Option Bytes

/-- `FileBlobStore._path`; none is its `ValueError`. -/
def path (digest : Chars) : Option Path := if validDigest digest then some (digest.take 2, digest.drop 2) else none

def setFile (files : Files) (p : Path) (content : Option Bytes) : Files := fun q => if q = p then content else files q

variable (H : Sha256)

/-- `_write`: a file that is there stays. -/
def write (files : Files) (p : Path) (data : Bytes) : Files :=
  if (files p).isSome then files else setFile files p (some data)

def put (files : Files) (data : Bytes) (mediaType : Chars) : Option BlobRef × Files :=
  match path (H.hexdigest data) with
  | none => (none, files)
  | some p => (some ⟨H.hexdigest data, data.1.length, mediaType⟩, write files p data)

/-- `FileBlobStore.get`; none is a missing file or a failed integrity check. -/
def get (files : Files) (ref : BlobRef) : Option Bytes :=
  (path ref.digest).bind fun p =>
    (files p).bind fun data =>
      if (data.1.length : ℤ) ≠ ref.size ∨ H.hexdigest data ≠ ref.digest then none else some data

/-- `FileBlobStore.delete`; false is the `ValueError` of `_path`. -/
def delete (files : Files) (digest : Chars) : Bool × Files :=
  match path digest with
  | none => (false, files)
  | some p => (true, setFile files p none)

/-! ### The journal -/

/-- A row of `context_journal`. -/
structure Row where
  sequence : ℕ
  entryId : Chars
  sessionId : Chars
  runId : Chars
  agentId : Chars
  kind : Chars
  payloadJson : Chars
  blobsJson : Chars
  createdAt : Chars
  deriving DecidableEq

/-- `context_journal`, `context_journal_blobs`, and the last sequence given out. -/
structure Db where
  rows : List Row
  blobs : List (Chars × Chars)
  lastSequence : ℕ
  deriving DecidableEq

def Row.inScope (scope : ContextScope) (row : Row) : Bool :=
  row.sessionId == scope.sessionId && row.runId == scope.runId && row.agentId == scope.agentId

/-- The separators of both texts. -/
def compact : Style := ⟨true, false⟩

def refJson {F : Type} (ref : BlobRef) : Value F :=
  .obj [("digest".toList, .str ref.digest), ("size".toList, .int ref.size), ("media_type".toList, .str ref.mediaType)]

def blobsValue {F : Type} (blobs : List (Chars × BlobRef)) : Value F := .obj (blobs.map fun b => (b.1, refJson b.2))

/-- An insertion into `context_journal_blobs`: its key is new, and its entry is
there. -/
def insertBlob (db : Db) (blob : Chars × Chars) : Option Db :=
  if blob.1 ∈ db.rows.map Row.entryId then (Keyed.insertNew id db.blobs blob).map fun blobs => { db with blobs }
  else none

section Sqlite

variable {F : Type} [DecidableEq F] (ft : FloatText F) (room : ℕ)

/-- `_append_sync`: the transaction, and the sequence of the new row. -/
def appendSync (db : Db) (entry : JournalEntry F) : Option (ℕ × Db) := do
  let blobsJson ← dumpsSorted ft compact room (blobsValue entry.blobs)
  let payloadJson ← dumpsSorted ft compact room entry.payload
  let row : Row :=
    { sequence := db.lastSequence + 1, entryId := entry.entryId, sessionId := entry.scope.sessionId,
      runId := entry.scope.runId, agentId := entry.scope.agentId, kind := entry.kind, payloadJson, blobsJson,
      createdAt := entry.createdAt }
  let rows ← Keyed.insertNew Row.entryId db.rows row
  let db' ← (entry.blobs.map fun b => (entry.entryId, b.2.digest)).foldlM insertBlob
    { db with rows, lastSequence := row.sequence }
  return (row.sequence, db')

/-- `SQLiteJournalStore.append`. -/
def journalAppend (db : Db) (entry : JournalEntry F) : Option (JournalEntry F × Db) :=
  (appendSync ft room db entry).map fun r => ({ entry with sequence := r.1 }, r.2)

/-- A member of a dictionary. -/
def member (kvs : List (Chars × Value F)) (key : Chars) : Option (Value F) := kvs.lookup key

/-- The reference a member of `blobs_json` stands for. -/
def decodeRef : Value F → Option BlobRef
  | .obj kvs =>
    match member kvs "digest".toList, member kvs "size".toList, member kvs "media_type".toList with
    | some (.str digest), some (.int size), some (.str mediaType) =>
      some ⟨digest, size, if mediaType = [] then octetStream else mediaType⟩
    | some (.str digest), some (.int size), none => some ⟨digest, size, octetStream⟩
    | _, _, _ => none
  | _ => none

def decodeBlobs : Value F → Option (List (Chars × BlobRef))
  | .obj kvs => kvs.mapM fun kv => (decodeRef kv.2).map fun ref => (kv.1, ref)
  | _ => none

/-- `_decode`. -/
def decode (row : Row) : Option (JournalEntry F) := do
  let payload ← (decodeIn ft room row.payloadJson).toOption
  let rawBlobs ← (decodeIn ft room row.blobsJson).toOption
  let blobs ← decodeBlobs rawBlobs
  let scope ← contextScope row.sessionId row.runId row.agentId
  journalEntry scope row.kind payload blobs row.entryId row.sequence row.createdAt

/-- `list_entries`: no kinds are all kinds. -/
def listEntries (db : Db) (scope : ContextScope) (afterSequence : ℤ) (kinds : List Chars) (limit : Option ℤ) :
    Option (List (JournalEntry F)) :=
  let rows := db.rows.filter fun row =>
    row.inScope scope && decide (afterSequence < row.sequence) && (kinds.isEmpty || kinds.contains row.kind)
  let rows := rows.insertionSort fun a b => a.sequence ≤ b.sequence
  let rows := match limit with
    | none => rows
    | some n => rows.take (max 0 n).toNat
  rows.mapM (decode ft room)

end Sqlite

/-- `_delete_scope_sync`: the references go with their entries. Returned are the
digests nothing refers to any more. -/
def deleteScopeSync (db : Db) (scope : ContextScope) : List Chars × Db :=
  let ids := (db.rows.filter (Row.inScope scope)).map Row.entryId
  let candidates := ((db.blobs.filter fun b => ids.contains b.1).map Prod.snd).dedup
  let blobs := db.blobs.filter fun b => !ids.contains b.1
  (candidates.filter fun digest => !(blobs.map Prod.snd).contains digest,
    { db with rows := db.rows.filter fun row => !row.inScope scope, blobs })

/-! ### The manager -/

/-- The journal's database and the files of the blob store. -/
structure Store where
  db : Db
  files : Files

def Store.empty : Store := ⟨⟨[], [], 0⟩, fun _ => none⟩

/-- A payload: a dictionary, and so is every object in it. -/
structure Payload (F : Type) where
  kvs : List (Chars × Value F)
  keyed : (Value.obj kvs).Keyed

/-- A call of `ContextManager.append`, with the id and the time of its entry. -/
structure Append (F : Type) where
  scope : ContextScope
  kind : Chars
  payload : Payload F
  attachments : List (Chars × Bytes)
  mediaTypes : List (Chars × Chars)
  entryId : Chars
  createdAt : Chars
  names : (attachments.map Prod.fst).Nodup

/-- The attachments are put one after the other. -/
def putAll (mediaTypes : List (Chars × Chars)) : Files → List (Chars × Bytes) →
    Option (List (Chars × BlobRef)) × Files
  | files, [] => (some [], files)
  | files, (name, data) :: rest =>
    match put H files data ((mediaTypes.lookup name).getD octetStream) with
    | (none, files') => (none, files')
    | (some ref, files') =>
      match putAll mediaTypes files' rest with
      | (none, files'') => (none, files'')
      | (some refs, files'') => (some ((name, ref) :: refs), files'')

variable {F : Type} [DecidableEq F] (ft : FloatText F) (room : ℕ)

/-- `ContextManager.append`; none is what it raises. -/
def append (st : Store) (a : Append F) : Option (JournalEntry F) × Store :=
  match putAll H a.mediaTypes st.files a.attachments with
  | (none, files) => (none, { st with files })
  | (some refs, files) =>
    match (journalEntry a.scope a.kind (.obj a.payload.kvs) refs a.entryId 0 a.createdAt).bind
      (journalAppend ft room st.db) with
    | none => (none, { st with files })
    | some (entry, db) => (some entry, ⟨db, files⟩)

/-- `ContextManager.history`, with its defaults. -/
def history (st : Store) (scope : ContextScope) : Option (List (JournalEntry F)) :=
  listEntries ft room st.db scope 0 [] none

def deleteBlobs : Files → List Chars → Bool × Files
  | files, [] => (true, files)
  | files, digest :: rest =>
    match delete files digest with
    | (false, files') => (false, files')
    | (true, files') => deleteBlobs files' rest

/-- `ContextManager.delete_scope`; false is what it raises. -/
def deleteScope (st : Store) (scope : ContextScope) : Bool × Store :=
  let (unreferenced, db) := deleteScopeSync st.db scope
  let (ok, files) := deleteBlobs st.files unreferenced
  (ok, ⟨db, files⟩)

inductive Call (F : Type)
  | append (a : Append F)
  | deleteScope (scope : ContextScope)

/-- A call, and whether it returned. -/
def step (st : Store) : Call F → Bool × Store
  | .append a => ((append H ft room st a).1.isSome, (append H ft room st a).2)
  | .deleteScope scope => deleteScope st scope

/-- Calls one at a time, and which of them returned. -/
def run : Store → List (Call F) → List Bool × Store
  | st, [] => ([], st)
  | st, c :: cs => ((step H ft room st c).1 :: (run (step H ft room st c).2 cs).1, (run (step H ft room st c).2 cs).2)

end Context
end AgentCore
