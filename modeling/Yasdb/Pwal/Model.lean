import Mathlib.Data.List.Sort
import Yasdb.Lib.Scan
import Yasdb.Lib.Runs
import Yasdb.Pwal.Codec
import Yasdb.Pwal.Watermark

/-!
# The sharded write-ahead log

`pwalStore` keeps its data in one file per shard and in memory only an index of where each value stands. A commit takes
the next shard in turn, writes its batch as one record there, and then updates the index; a flush goroutine per shard
fsyncs what has been written and passes its numbers to the watermark.

`step` is the store with all its goroutines: each call of `CommitAsync` chooses its shard, stages its record and updates
the index in three atomic steps, and each flush goroutine calls `Sync`, returns from it, reports, and takes over what
was staged meanwhile. The store may be closed and opened again, or lose what was not synced in a crash.
-/

namespace Yasdb.Pwal

open Batch BigEndian

/-! ## Shards -/

/-- The flush goroutine of a shard, by what it does next. -/
inductive Flush where
  /-- call `Sync` for these numbers -/
  | sync (seqs : List Nat)
  /-- in `Sync`, which was called when the file had `len` bytes -/
  | syncing (seqs : List Nat) (len : Nat)
  /-- report the numbers -/
  | onDurable (seqs : List Nat)
  /-- take over what is pending, or exit -/
  | next
deriving DecidableEq

/-- One WAL file with its own numbers. -/
structure Shard where
  idx : Nat
  numShards : Nat
  /-- the contents of the file -/
  file : Bytes
  /-- as many bytes of the file are on disk for certain -/
  synced : Nat
  localSeq : Nat := 0
  writeOffset : Nat
  /-- numbers written but not yet handed to a flush -/
  pending : List Nat := []
  /-- the flush goroutine, which runs exactly while the source's `inFlight` is set -/
  flush : Option Flush := none

/-- The number that the shard gives to its next batch. -/
def Shard.nextSeq (sh : Shard) : Nat := sh.localSeq * sh.numShards + sh.idx + 1

/-- Write one batch as a record, and see to it that a flush is running. If the write fails, only its first bytes reach
the file. -/
def Shard.stage (crc : Bytes → UInt32) (ops : List Op) (short : Option Nat) (sh : Shard) :
    Shard × Nat × List ValueLoc :=
  let seq := sh.nextSeq
  match encodePWALRecord crc seq ops with
  | (rec, relOff, relLen) =>
    let locs := locsOf sh.writeOffset ops relOff relLen
    let sh := { sh with
      localSeq := sh.localSeq + 1
      file := sh.file ++ (match short with | none => rec | some k => rec.take k)
      writeOffset := sh.writeOffset + rec.length
      pending := sh.pending ++ [seq] }
    match sh.flush with
    | some _ => (sh, seq, locs)
    | none => ({ sh with flush := some (.sync sh.pending), pending := [] }, seq, locs)

/-! ## The store -/

/-- Where the current value of a key stands. -/
structure Entry where
  shardIdx : Nat
  fileOff : Int
  n : Int32
deriving DecidableEq

/-- The error that a shard reports. -/
inductive Failure where
  | write (shard : Nat)
  | fsync (shard : Nat)
deriving DecidableEq

structure PwalStore where
  numShards : Nat
  shards : Nat → Shard
  nextShard : Nat := 0
  tree : Finmap fun _ : Bytes => Entry := ∅
  err : Option Failure := none
  wm : ContigWatermark := {}

/-- The first error stays. -/
def PwalStore.setErr (s : PwalStore) (err : Failure) : PwalStore := { s with err := s.err <|> some err }

/-- The index operations of a record read back from the files. -/
def Record.indexOps (numShards : Nat) (r : Record) : List (Batch.Op fun _ : Bytes => Entry) :=
  r.entries.map fun e => if e.del then .del e.key else .put e.key ⟨(r.seq - 1) % numShards, e.fileOff, e.n⟩

/-- The records of all shard files. -/
def recovered (crc : Bytes → UInt32) (numShards : Nat) (dir : Nat → Bytes) : List Record :=
  (List.range numShards).flatMap fun i => decodePWALShard crc (dir i)

/-- The records in the order of their numbers. -/
def inOrder (recs : List Record) : List Record := recs.insertionSort fun r r' => r.seq ≤ r'.seq

/-- A shard as it is opened. -/
def openShard (crc : Bytes → UInt32) (numShards i : Nat) (file : Bytes) : Shard where
  idx := i
  numShards := numShards
  file := file
  synced := file.length
  writeOffset := file.length
  localSeq := match (decodePWALShard crc file).getLast? with
    | none => 0
    | some last =>
      if i < last.seq then (last.seq - i - 1) / numShards + 1
      -- the difference of 64 bits wraps around
      else ((last.seq + 2 ^ 64 - i - 1) / numShards + 1) % 2 ^ 64

/-- Open a store on the shard files of a directory; a file that does not exist is empty. -/
def openPWALStore (crc : Bytes → UInt32) (shardCount : Nat) (dir : Nat → Bytes) : PwalStore :=
  let numShards := if shardCount < 1 then 1 else shardCount
  let all := recovered crc numShards dir
  { numShards := numShards
    shards := fun i => openShard crc numShards i (dir i)
    tree := applyOps ∅ ((inOrder all).flatMap (Record.indexOps numShards))
    wm := ContigWatermark.mark {} (all.map (·.seq)) }

/-- The largest number up to which every commit is durable, unless a shard has reported an error. -/
def PwalStore.durableSeq (s : PwalStore) : Except Failure Nat :=
  match s.err with
  | some err => .error err
  | none => .ok s.wm.value

/-- Read a value back from its shard file. A negative length panics; a range outside of the file is an error. -/
def PwalStore.readValue (s : PwalStore) (e : Entry) : Option Bytes :=
  if e.n.toInt < 0 ∨ e.fileOff < 0 then none
  else
    let buf := slice (s.shards e.shardIdx).file e.fileOff.toNat e.n.toInt.toNat
    if buf.length < e.n.toInt.toNat then none else some buf

/-- The value of a key, `some none` if there is none. -/
def PwalStore.get (s : PwalStore) (key : Bytes) : Option (Option Bytes) :=
  match s.tree.lookup key with
  | none => some none
  | some e => (s.readValue e).map some

/-- The items with keys from `start` on and below `stop`, ascending. -/
def ascend {γ : Type} (m : Finmap fun _ : Bytes => γ) (start : Bytes) (stop : Option Bytes) : List (Bytes × γ) :=
  (Scan.scan (fun k => if ¬ k < start ∧ ∀ b ∈ stop, k < b then some k else none) m).filterMap fun k =>
    (m.lookup k).map (k, ·)

/-- The keys and values of a range, read to its end. -/
def PwalStore.scan (s : PwalStore) (start : Bytes) (stop : Option Bytes) : Option (List (Bytes × Bytes)) :=
  (ascend s.tree start stop).mapM fun item => (s.readValue item.2).map (item.1, ·)

/-- The index entry of a key that a batch puts: the last place that the batch has for it. -/
def entryOf (shardIdx : Nat) (locs : List ValueLoc) (k : Bytes) : Entry :=
  let byKey : Finmap fun _ : Bytes => ValueLoc := applyOps ∅ (locs.map fun l => Batch.Op.put l.key l)
  let l := (byKey.lookup k).getD ⟨[], 0, 0⟩
  ⟨shardIdx, l.fileOff, l.n⟩

/-- The index operations of a commit. -/
def indexOps (shardIdx : Nat) (locs : List ValueLoc) (ops : List Op) : List (Batch.Op fun _ : Bytes => Entry) :=
  ops.map fun op => match op with
    | .del k => .del k
    | .put k _ => .put k (entryOf shardIdx locs k)

/-! ## The store and its goroutines -/

/-- A call of `CommitAsync`, by what it does next. -/
inductive Call where
  /-- choose the shard -/
  | select (ops : List Op)
  /-- stage the batch in the shard -/
  | stage (ops : List Op) (shardIdx : Nat)
  /-- update the index and return the number -/
  | index (ops : List Op) (shardIdx seq : Nat) (locs : List ValueLoc)

/-- A batch staged in this session; its record ends at `stop` of its shard file. -/
structure Staged where
  seq : Nat
  ops : List Op
  stop : Nat

/-- The store, the calls in flight and the history. -/
structure Sys where
  store : PwalStore
  calls : List Call := []
  /-- the shard files as they were opened -/
  dir : Nat → Bytes
  /-- the batches staged in this session, by shard -/
  staged : Nat → List Staged := fun _ => []
  /-- the numbers returned so far -/
  returned : List Nat := []
  /-- the batches committed so far, in the order of the calls -/
  batches : List (List Op) := []

inductive Event where
  /-- a call of `CommitAsync` that finds no error -/
  | commitAsync (ops : List Op)
  /-- the next step of a call; a write may fail after some bytes -/
  | call (i : Nat) (short : Option Nat := none)
  /-- the next step of the flush goroutine of a shard; an fsync may fail -/
  | flush (i : Nat) (ok : Bool := true)
  /-- `Close` and `OpenPWALStore` with the same shard count -/
  | reopen
  /-- a crash, which cuts each file somewhere after what is synced, and `OpenPWALStore` -/
  | crash (cut : Nat → Nat)

namespace Sys

variable (crc : Bytes → UInt32)

def setShard (s : Sys) (i : Nat) (sh : Shard) : Sys :=
  { s with store := { s.store with shards := Function.update s.store.shards i sh } }

/-- The step of the `i`-th call. -/
def call (s : Sys) (i : Nat) (short : Option Nat) : Call → Sys
  | .select ops =>
    { s with
      store := { s.store with nextShard := s.store.nextShard + 1 }
      calls := s.calls.set i (.stage ops (s.store.nextShard % s.store.numShards)) }
  | .stage ops j =>
    match (s.store.shards j).stage crc ops short with
    | (sh, seq, locs) =>
      let s := { s.setShard j sh with
        calls := s.calls.set i (.index ops j seq locs)
        staged := Function.update s.staged j (s.staged j ++ [⟨seq, ops, sh.file.length⟩]) }
      match short with
      | none => s
      | some _ => { s with store := s.store.setErr (.write j) }
  | .index ops j seq locs =>
    { s with
      store := { s.store with tree := applyOps s.store.tree (indexOps j locs ops) }
      calls := s.calls.eraseIdx i
      returned := s.returned ++ [seq] }

/-- The step of the flush goroutine of shard `i`. -/
def flush (s : Sys) (i : Nat) (ok : Bool) (f : Flush) : Sys :=
  let sh := s.store.shards i
  match f with
  | .sync seqs => s.setShard i { sh with flush := some (.syncing seqs sh.file.length) }
  | .syncing seqs len =>
    if ok then
      s.setShard i { sh with
        synced := max sh.synced len
        flush := some (if seqs.length > 0 then .onDurable seqs else .next) }
    else
      let s := s.setShard i { sh with flush := some .next }
      { s with store := s.store.setErr (.fsync i) }
  | .onDurable seqs =>
    let s := s.setShard i { sh with flush := some .next }
    { s with store := { s.store with wm := s.store.wm.mark seqs } }
  | .next =>
    if sh.pending.length = 0 then s.setShard i { sh with flush := none }
    else s.setShard i { sh with flush := some (.sync sh.pending), pending := [] }

/-- Open the store on a directory, with the history so far. -/
def reopen (s : Sys) (dir : Nat → Bytes) : Sys where
  store := openPWALStore crc s.store.numShards dir
  dir := dir
  returned := s.returned
  batches := s.batches

/-- A store that is opened for the first time. -/
def start (shardCount : Nat) (dir : Nat → Bytes) : Sys where
  store := openPWALStore crc shardCount dir
  dir := dir

def step (s : Sys) : Event → Option Sys
  | .commitAsync ops =>
    if s.store.err.isSome then none
    else some { s with calls := s.calls ++ [.select ops], batches := s.batches ++ [ops] }
  | .call i short => (s.calls[i]?).map (s.call crc i short)
  | .flush i ok => (s.store.shards i).flush.map (s.flush i ok)
  | .reopen => if s.calls.isEmpty then some (s.reopen crc fun i => (s.store.shards i).file) else none
  | .crash cut => some (s.reopen crc fun i =>
      (s.store.shards i).file.take (max (s.store.shards i).synced (cut i)))

end Sys

/-! ## Sample runs -/

/-- A checksum for sample runs. -/
def sampleCrc : Bytes → UInt32 := fun _ => 0

/-- A commit that nothing else comes in between. -/
def commitEvents (ops : List Op) : List Event := [.commitAsync ops, .call 0, .call 0, .call 0]

/-- A flush goroutine from `Sync` to its end. -/
def flushEvents (i : Nat) : List Event := [.flush i, .flush i, .flush i, .flush i]

end Yasdb.Pwal
