import Yasdb.Server.Create
import Yasdb.Lib.Scan
import Yasdb.Lib.Runs
import Mathlib.Data.Prod.Lex

/-!
# The server over its store

The server as a transition system in which every step makes at most one store commit. An operation that makes several
(a delete that cascades through a fork chain, a sweep, a range deletion) is a sequence of steps with its progress kept
in the state: in `held` while it owns `metaMu`, in `dues` for the sweeper, in `deleting` for the background deletions.
So a crash and a restart (`Action.crash`) may fall between any two commits. Every step carries the outcome of its
commit and the reads that fail.

A commit is durable or not (`Server.commit`). A crash keeps everything up to the last durable commit and may lose any
number of the later ones, latest first (`unsynced`).
-/

namespace Yasdb

open Batch Op Scan List

/-! ## Range deletion -/

/-- How many keys are range-deleted per batch. -/
def deleteChunk : Nat := 1000

/-- The next records of a stream, from `cursor` on. -/
def collectRecords (db : Store) (id cursor : Nat) : List Nat :=
  (Scan.scan (fun
    | .recordKey i n => if i = id ∧ cursor ≤ n then some n else none
    | _ => none) db).take deleteChunk

/-- The next producers of a stream. -/
def collectProducers (db : Store) (id : Nat) : List Bytes :=
  ((Scan.scan (fun
    | .producerKey i pid => if i = id then some (pid.map UInt8.toNat) else none
    | _ => none) db).take deleteChunk).map (·.map UInt8.ofNat)

/-- Where a background deletion stands. -/
inductive DeletePhase where
  /-- before the cursor is read -/
  | start
  | records (cursor : Nat)
  | producers
  /-- before the marker is cleared -/
  | finish
deriving DecidableEq, Repr

/-- The next step of a background deletion: a batch to commit, if any, and where the deletion stands then (`none` = it
ends). A scan error ends the deletion of records and skips that of producers. -/
def backgroundDelete (flt : Faults) (scanOk : Bool) (db : Store) (id : Nat) :
    DeletePhase → Option (List Op) × Option DeletePhase
  | .start =>
    match Store.get flt db (.deletePendingKey id) with
    | .ok (some c) => (none, some (.records c))
    | _ => (none, some (.records 0))
  | .records cursor =>
    if scanOk = false then (none, none)
    else
      match (collectRecords db id cursor).getLast? with
      | none => (none, some .producers)
      | some last =>
        (some ((collectRecords db id cursor).map (fun n => del (.recordKey id n)) ++
          [put (.deletePendingKey id) (last + 1)]), some (.records (last + 1)))
  | .producers =>
    if scanOk = false ∨ collectProducers db id = [] then (none, some .finish)
    else (some ((collectProducers db id).map fun pid => del (.producerKey id pid)), some .producers)
  | .finish => (some [del (.deletePendingKey id)], none)

section Chunks

variable {flt : Faults} {scanOk : Bool} {db : Store} {id : Nat} {phase : DeletePhase} {ops : List Op}
  {next : Option DeletePhase}

section

variable (h : backgroundDelete flt scanOk db id phase = (some ops, next))
include h

/-- The batches of a background deletion: a chunk of records with the new cursor, a chunk of producers, the marker. -/
theorem backgroundDelete_cases :
    (∃ cursor last, phase = .records cursor ∧ (collectRecords db id cursor).getLast? = some last ∧
      next = some (.records (last + 1)) ∧ ops = (collectRecords db id cursor).map (fun n => del (.recordKey id n)) ++
        [put (.deletePendingKey id) (last + 1)]) ∨
    (phase = .producers ∧ next = some .producers ∧
      ops = (collectProducers db id).map fun pid => del (.producerKey id pid)) ∨
    phase = .finish ∧ next = none ∧ ops = [del (.deletePendingKey id)] := by
  cases phase with
  | start => simp only [backgroundDelete] at h; split at h <;> cases h
  | records cursor =>
    simp only [backgroundDelete] at h
    split at h
    · cases h
    · split at h
      · cases h
      · cases h
        exact .inl ⟨cursor, _, rfl, ‹_›, rfl, rfl⟩
  | producers =>
    simp only [backgroundDelete] at h
    split at h
    · cases h
    · cases h
      exact .inr (.inl ⟨rfl, rfl, rfl⟩)
  | finish =>
    cases h
    exact .inr (.inr ⟨rfl, rfl, rfl⟩)

/-- A background deletion writes records, producers and the marker of its id. -/
theorem backgroundDelete_keys : ∀ op ∈ ops, (∃ n, op.key = .recordKey id n) ∨ (∃ pid, op.key = .producerKey id pid) ∨
      op.key = .deletePendingKey id := by
  intro op ho
  obtain ⟨cursor, last, -, -, -, rfl⟩ | ⟨-, -, rfl⟩ | ⟨-, -, rfl⟩ := backgroundDelete_cases h
  · rcases mem_append.mp ho with ho | ho
    · obtain ⟨n, -, rfl⟩ := mem_map.mp ho
      exact .inl ⟨n, rfl⟩
    · rw [mem_singleton.mp ho]
      exact .inr (.inr rfl)
  · obtain ⟨pid, -, rfl⟩ := mem_map.mp ho
    exact .inr (.inl ⟨pid, rfl⟩)
  · rw [mem_singleton.mp ho]
    exact .inr (.inr rfl)

end

end Chunks

/-! ## The server -/

/-- A background deletion. -/
structure Deletion where
  id : Nat
  phase : DeletePhase
deriving DecidableEq, Repr

/-- What the goroutine that owns `metaMu` still has to do after a commit. -/
inductive Task where
  | dropForkRef (sourceID : Nat)
  | deleteStreamLocked (path : Bytes) (m : StreamMeta)
deriving DecidableEq, Repr

structure Server where
  db : Store
  /-- the earlier contents of the store that a crash may fall back to -/
  unsynced : List Store := []
  /-- the resident streamers -/
  registry : Bytes → Option Streamer := fun _ => none
  nextID : Nat := 1
  /-- `metaMu` is owned in the middle of a delete -/
  held : Option Task := none
  /-- the entries that the sweep at hand has found and not yet looked at -/
  dues : List (UInt64 × Nat) := []
  sweepNow : Int64 := 0
  deleting : List Deletion := []

/-- The id counter that a start recovers. -/
def recoverNextID (db : Store) : Nat :=
  match db.lookup .idCounterKey with
  | some n => if n ≥ 1 then n else 1
  | none => 1

/-- The interrupted deletions. -/
def resumeDeletions (db : Store) : List Nat :=
  Scan.scan (fun
    | .deletePendingKey i => some i
    | _ => none) db

/-- A start over a store. The scan for interrupted deletions may fail after `seen` entries. -/
def newServer (db : Store) (seen : Nat) : Server where
  db := db
  nextID := recoverNextID db
  deleting := ((resumeDeletions db).take seen).map (⟨·, .start⟩)

namespace Server

/-- A successful commit. A durable one makes everything before it durable. -/
def commit (srv : Server) (durable : Bool) (ops : List Op) : Server :=
  { srv with
    db := applyOps srv.db ops
    unsynced := if durable then [] else srv.db :: srv.unsynced }

def setStreamer (srv : Server) (path : Bytes) (s : Streamer) : Server :=
  { srv with registry := Function.update srv.registry path (some s) }

/-- Retire the streamer of a path. -/
def removeStreamer (srv : Server) (path : Bytes) : Server :=
  { srv with registry := Function.update srv.registry path none }

/-! ## Creation -/

/-- Commit a planned creation; the id is used up only if that succeeds. -/
def create (srv : Server) (ok : Bool) (plan : CreatePlan) : Server :=
  match plan with
  | .error _ => srv
  | .ok (ops, _) => if ok then { srv.commit true ops with nextID := srv.nextID + 1 } else srv

/-! ## Streamers -/

/-- Spawn a streamer from the store, unless the path has one or has no stream. -/
def getOrSpawn (srv : Server) (flt : Faults) (path : Bytes) : Server :=
  match srv.registry path with
  | some _ => srv
  | none =>
    match loadMeta flt srv.db path with
    | .ok (some m) =>
      match loadTail flt srv.db m.streamID with
      | .ok tailSeq => srv.setStreamer path (newStreamer path m tailSeq)
      | .error _ => srv
    | _ => srv

/-- A whole burst of a resident streamer under the sync committer; for queued bursts there is `Notifier.step`. -/
def burst (L : GoLib) (srv : Server) (flt : Faults) (ok : Bool) (path : Bytes) (s : Streamer) (now : Int64)
    (batch : List AppendReq) : Server :=
  match processBurst L flt srv.db now s batch with
  | (s, .reply _) => srv.setStreamer path s
  | (s, .commit c) =>
    if ok then (srv.commit true c.ops).setStreamer path (syncCommit none srv.db s c).2.1 else srv.setStreamer path s

/-- A TTL touch of a resident streamer; its commit is not durable. -/
def touch (srv : Server) (ok : Bool) (path : Bytes) (s : Streamer) (now : Int64) : Server :=
  match refreshTTLOnRead now (if ok then none else some errStoreClosed) srv.db s with
  | (db, s) => { srv with db := db, unsynced := srv.db :: srv.unsynced }.setStreamer path s

/-! ## Deletion -/

/-- The batch of a hard delete. -/
def deleteOps (path : Bytes) (m : StreamMeta) : List Op :=
  [del (.metaKey path), del (.idMappingKey m.streamID), del (.tailKey m.streamID),
    del (.writerSeqKey m.streamID), del (.refCountKey m.streamID), del (.tombstoneKey path),
    put (.deletePendingKey m.streamID) 0] ++
    (if m.deadline > 0 then [del (.expiryKey m.deadline m.streamID)] else [])

/-- Hard-delete a stream up to the release of its source. -/
def deleteStreamLocked (srv : Server) (ok : Bool) (path : Bytes) (m : StreamMeta) : Server :=
  let srv := { srv.removeStreamer path with held := none }
  if ok then
    { srv.commit true (deleteOps path m) with
      deleting := srv.deleting ++ [⟨m.streamID, .start⟩]
      held := if m.forkedFrom ≠ 0 then some (.dropForkRef m.forkedFrom) else none }
  else srv

def softDeleteLocked (srv : Server) (ok : Bool) (path : Bytes) (m : StreamMeta) : Server :=
  let srv := srv.removeStreamer path
  if ok then srv.commit true [put (.tombstoneKey path) (.tombSoftDelete, m.streamID)] else srv

/-- What follows the release of a source with `count` forks left: a source that is no longer referenced and carries
a tombstone is deleted next. -/
def cascade (flt : Faults) (db : Store) (sourceID count : Nat) : Option Task :=
  if count > 0 then none
  else
    match loadMetaByID flt db sourceID with
    | .ok (some (m, path)) =>
      match loadTombstone flt db path with
      | .ok (some _) => some (.deleteStreamLocked path m)
      | _ => none
    | _ => none

/-- Release a source. The outcome of the commit is ignored. -/
def dropForkRef (srv : Server) (flt : Faults) (ok : Bool) (sourceID : Nat) : Server :=
  let count := loadRefCount flt srv.db sourceID - 1
  let srv := if ok then srv.commit true [put (.refCountKey sourceID) count] else srv
  { srv with held := cascade flt srv.db sourceID count }

/-- An explicit delete: soft if the stream has forks, hard otherwise. -/
def deleteStream (srv : Server) (flt : Faults) (ok : Bool) (path : Bytes) : Server :=
  match loadTombstone flt srv.db path with
  | .error _ => srv
  | .ok t =>
    if softDeleted t then srv
    else
      match loadMeta flt srv.db path with
      | .ok (some m) =>
        if loadRefCount flt srv.db m.streamID > 0 then srv.softDeleteLocked ok path m
        else srv.deleteStreamLocked ok path m
      | _ => srv

/-! ## Expiry -/

/-- The entries of the expiry index that are due, by deadline. -/
def dueEntries (db : Store) (now : Int64) : List (UInt64 × Nat) :=
  (Scan.scan (fun
    | .expiryKey d i => if d < now.toUInt64 + 1 then some (toLex (d.toNat, i)) else none
    | _ => none) db).map fun e => (UInt64.ofNat (ofLex e).1, (ofLex e).2)

/-- Remove an entry of the expiry index; the commit is not durable. -/
def dropStaleExpiry (srv : Server) (ok : Bool) (deadline : UInt64) (id : Nat) : Server :=
  if ok then srv.commit false [del (.expiryKey deadline id)] else srv

/-- Look at one due entry: expire the stream if the entry is still its deadline, else drop the entry. -/
def expireIfDue (srv : Server) (flt : Faults) (ok : Bool) (deadline : UInt64) (id : Nat) : Server :=
  match Store.get flt srv.db (.idMappingKey id) with
  | .error _ => srv
  | .ok none => srv.dropStaleExpiry ok deadline id
  | .ok (some path) =>
    match loadMeta flt srv.db path with
    | .error _ => srv
    | .ok none => srv.dropStaleExpiry ok deadline id
    | .ok (some m) =>
      if m.streamID ≠ id ∨ m.deadline ≠ deadline then srv.dropStaleExpiry ok deadline id
      -- refreshed to the future between scan and now
      else if deadline.toInt64 > srv.sweepNow then srv
      else srv.deleteStreamLocked ok path m

/-- Move a background deletion on, or end it. -/
def setPhase (srv : Server) (i : Nat) (id : Nat) (next : Option DeletePhase) : Server :=
  match next with
  | some phase => { srv with deleting := srv.deleting.set i ⟨id, phase⟩ }
  | none => { srv with deleting := srv.deleting.eraseIdx i }

/-- One step of the background deletion at position `i`; a failed commit ends it. -/
def chunk (srv : Server) (flt : Faults) (ok scanOk : Bool) (i : Nat) (d : Deletion) : Server :=
  match backgroundDelete flt scanOk srv.db d.id d.phase with
  | (none, next) => srv.setPhase i d.id next
  | (some ops, next) => if ok then (srv.commit true ops).setPhase i d.id next else srv.setPhase i d.id none

/-! ## Steps -/

inductive Action where
  | createStream (p : CreateParams) (now nowMs : Int64)
  | createFork (p : ForkParams) (now nowMs : Int64)
  | spawn (path : Bytes)
  | burst (path : Bytes) (now : Int64) (batch : List AppendReq)
  | touch (path : Bytes) (now : Int64)
  | retire (path : Bytes)
  | deleteStream (path : Bytes)
  /-- the next commit of a delete in progress -/
  | goOn
  /-- the scan of a sweep, which may fail after `seen` entries -/
  | sweep (now : Int64) (seen : Nat)
  /-- the next due entry of the sweep -/
  | expire
  | chunk (i : Nat) (scanOk : Bool)
  /-- a crash that loses the last `lost` commits, and a restart -/
  | crash (lost seen : Nat)

/-- A step: what is done, the reads that fail and the outcome of the commit. -/
structure Event where
  action : Action
  flt : Faults := noFaults
  ok : Bool := true

/-- The transition function; `none` when the step is not enabled. Whoever needs `metaMu` waits for its owner. -/
def step (L : GoLib) (srv : Server) (e : Event) : Option Server :=
  match e.action with
  | .createStream p now nowMs =>
    if srv.held.isSome then none
    else some (srv.create e.ok (createStream L e.flt srv.db srv.nextID now nowMs p))
  | .createFork p now nowMs =>
    if srv.held.isSome then none
    else some (srv.create e.ok (createFork L e.flt srv.db srv.nextID now nowMs p))
  | .spawn path => some (srv.getOrSpawn e.flt path)
  | .burst path now batch => (srv.registry path).map fun s => srv.burst L e.flt e.ok path s now batch
  | .touch path now => (srv.registry path).map fun s => srv.touch e.ok path s now
  | .retire path => some (srv.removeStreamer path)
  | .deleteStream path => if srv.held.isSome then none else some (srv.deleteStream e.flt e.ok path)
  | .goOn =>
    match srv.held with
    | some (.dropForkRef sourceID) => some (srv.dropForkRef e.flt e.ok sourceID)
    | some (.deleteStreamLocked path m) => some (srv.deleteStreamLocked e.ok path m)
    | none => none
  | .sweep now seen =>
    match srv.dues with
    | [] => some { srv with dues := (dueEntries srv.db now).take seen, sweepNow := now }
    | _ :: _ => none
  | .expire =>
    match srv.dues with
    | (deadline, id) :: dues =>
      if srv.held.isSome then none
      else some ({ srv with dues := dues }.expireIfDue e.flt e.ok deadline id)
    | [] => none
  | .chunk i scanOk => srv.deleting[i]?.map fun d => srv.chunk e.flt e.ok scanOk i d
  | .crash lost seen => (srv.db :: srv.unsynced)[lost]?.map fun db => newServer db seen

end Server

end Yasdb
