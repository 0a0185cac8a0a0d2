import Yasdb.Producer
import Mathlib.Data.List.AList

/-!
# The streamer: planning a burst of appends

A streamer owns one live stream. It drains a burst of queued appends, validates them in order against one pending
view (`planAppend`), assembles a single batch from the final view (`burstOps`) and hands it to the committer
(`processBurst`). The writer view (`applyWriter`) and the reader-visible state (`applyReader`) are published by the
committer.

The pending view overlays the streamer's own caches, which in turn cache the store: `effProducer` reads the overlay,
then the cache, then the store, and remembers in the cache that it has read the store.
-/

namespace Yasdb

open Batch Op

/-! ## Requests and answers -/

/-- A mutation submitted to a streamer. -/
structure AppendReq where
  /-- record payloads; empty for close-only -/
  records : List Bytes := []
  hasBody : Bool := false
  contentType : Bytes := []
  closeStream : Bool := false
  streamSeq : Option Bytes := none
  producer : Option ProducerHeaders := none
deriving DecidableEq, Repr

structure AppendResp where
  status : Nat
  nextOffset : Offset := {}
  closed : Bool := false
  producerEpoch : Option Nat := none
  producerSeq : Option Nat := none
  expectedSeq : Option Nat := none
  receivedSeq : Option Nat := none
  err : Option String := none
deriving DecidableEq, Repr

/-! ## Streamer state -/

/-- The state of a streamer: the goroutine-owned writer view and the reader-visible `tail` and `closed`. The maps
`producers` and `producerLoaded` of the source are one map here (`none` = not loaded, `some none` = absent), as are
`writerSeq` and `writerSeqLoaded`. -/
@[ext] structure Streamer where
  path : Bytes
  id : Nat
  streamMeta : StreamMeta
  producers : Bytes → Option (Option ProducerState)
  writerSeq : Option Bytes
  /-- the writer-view tail -/
  writeTail : Nat
  /-- the reader-visible tail -/
  tail : Nat
  /-- the reader-visible closure flag -/
  closed : Bool

/-- A streamer from loaded state. -/
def newStreamer (path : Bytes) (m : StreamMeta) (tailSeq : Nat) : Streamer where
  path := path
  id := m.streamID
  streamMeta := m
  producers := fun _ => none
  writerSeq := none
  writeTail := tailSeq
  tail := tailSeq
  closed := m.closed

/-- Mark a producer as loaded, with the state found. -/
def Streamer.setProducer (s : Streamer) (pid : Bytes) (st : Option ProducerState) : Streamer :=
  { s with producers := Function.update s.producers pid (some st) }

def Streamer.setWriterSeq (s : Streamer) (v : Bytes) : Streamer := { s with writerSeq := some v }

/-- The cached state of a producer, loaded from the store on first use. A producer counts as loaded from the first
read on, whether or not that read succeeded. -/
def loadProducer (flt : Faults) (db : Store) (s : Streamer) (pid : Bytes) : Streamer × Option ProducerState :=
  match s.producers pid with
  | some st => (s, st)
  | none =>
    match Store.get flt db (.producerKey s.id pid) with
    | .error _ => (s.setProducer pid none, none)
    | .ok none => (s.setProducer pid none, none)
    | .ok (some st) => (s.setProducer pid (some st), some st)

/-- The cached `Stream-Seq`, loaded from the store on first use; empty when there is none or the read fails. -/
def loadWriterSeq (flt : Faults) (db : Store) (s : Streamer) : Streamer × Bytes :=
  match s.writerSeq with
  | some v => (s, v)
  | none =>
    match Store.get flt db (.writerSeqKey s.id) with
    | .error _ => (s.setWriterSeq [], [])
    | .ok none => (s.setWriterSeq [], [])
    | .ok (some v) => (s.setWriterSeq v, v)

/-! ## The pending view -/

/-- The in-memory effects of a burst before its commit. The overlay of modified producers is empty exactly while the
source's map is still nil. -/
structure PendingBurst where
  tail : Nat
  closed : Bool
  deadline : UInt64
  producers : AList fun _ : Bytes => ProducerState
  writerSeq : Option Bytes
  recordOps : List Op
  now : Int64

/-- The pending view at the start of a burst. -/
def newPending (s : Streamer) (now : Int64) : PendingBurst where
  tail := s.writeTail
  closed := s.streamMeta.closed
  deadline := s.streamMeta.deadline
  producers := ∅
  writerSeq := none
  recordOps := []
  now := now

/-- The padding of a refreshed deadline: a quarter of the TTL, between 1 and 600 seconds. -/
def ttlGran (ttlSecs : UInt64) : UInt64 :=
  let gran := ttlSecs / 4
  if gran < 1 then 1 else if gran > 600 then 600 else gran

/-- Advance the pending sliding-TTL deadline. -/
def slideTTL (pend : PendingBurst) (ttlSecs : UInt64) : PendingBurst :=
  if ttlSecs = 0 then pend
  else
    let nowTTL := pend.now.toUInt64 + ttlSecs
    if nowTTL < pend.deadline then pend else { pend with deadline := nowTTL + ttlGran ttlSecs }

/-- The effective producer state within the burst: pending overlay first, then cache, then store. -/
def effProducer (flt : Faults) (db : Store) (s : Streamer) (pend : PendingBurst) (pid : Bytes) :
    Streamer × Option ProducerState :=
  match pend.producers.lookup pid with
  | some ps => (s, some ps)
  | none => loadProducer flt db s pid

def effWriterSeq (flt : Faults) (db : Store) (s : Streamer) (pend : PendingBurst) : Streamer × Bytes :=
  match pend.writerSeq with
  | some v => (s, v)
  | none => loadWriterSeq flt db s

/-- The puts of consecutive records. -/
def recordOpsFrom (id : Nat) : Nat → List Bytes → List Op
  | _, [] => []
  | start, rec :: recs => .put (.recordKey id start) (marshalRecord recFlagNone rec) :: recordOpsFrom id (start + 1)
      recs

/-! ## Planning one append -/

/-- An append to an already-closed stream (pending view). -/
def planAppendClosed (flt : Faults) (db : Store) (s : Streamer) (pend : PendingBurst) (req : AppendReq) :
    Streamer × AppendResp :=
  if req.hasBody = false then (s, { status := 204, nextOffset := tailOffset pend.tail, closed := true })
  else
    match req.producer with
    | none => (s, { status := 409, nextOffset := tailOffset pend.tail, closed := true })
    | some h =>
      match effProducer flt db s pend h.id with
      | (s, st) =>
        if validateProducer st h = .pDuplicate then
          (s, { status := 204, nextOffset := tailOffset pend.tail, closed := true
                producerEpoch := st.map (·.epoch), producerSeq := st.map (·.lastSeq) })
        else (s, { status := 409, nextOffset := tailOffset pend.tail, closed := true })

/-- Step 3a of `planAppend`: idempotent producer validation. The answer on a rejection, else the producer state to
record. -/
def planProducer (flt : Faults) (db : Store) (s : Streamer) (pend : PendingBurst) (req : AppendReq) :
    Streamer × Except AppendResp (Option ProducerState) :=
  match req.producer with
  | none => (s, .ok none)
  | some h =>
    match effProducer flt db s pend h.id with
    | (s, st) =>
      match validateProducer st h with
      | .pStaleEpoch e => (s, .error { status := 403, producerEpoch := some e })
      | .pBadSeqStart => (s, .error { status := 400 })
      | .pGap exp rcv => (s, .error { status := 409, expectedSeq := some exp, receivedSeq := some rcv })
      | .pDuplicate =>
        -- echo the highest accepted seq, not the request's
        (s, .error { status := 204, nextOffset := tailOffset pend.tail, closed := pend.closed
                     producerEpoch := st.map (·.epoch), producerSeq := st.map (·.lastSeq) })
      | .pAccept ns => (s, .ok (some { ns with closedBy := req.closeStream }))

/-- Step 3b of `planAppend`: `Stream-Seq` must be strictly increasing. -/
def planStreamSeq (flt : Faults) (db : Store) (s : Streamer) (pend : PendingBurst) (req : AppendReq) :
    Streamer × Bool :=
  match req.streamSeq with
  | none => (s, true)
  | some v =>
    match effWriterSeq flt db s pend with
    | (s, w) => (s, !decide (v ≤ w))

/-- The pending view after an accepted append. -/
def acceptPending (s : Streamer) (pend : PendingBurst) (req : AppendReq) (newProd : Option ProducerState) :
    PendingBurst :=
  slideTTL
    { pend with
      recordOps := pend.recordOps ++ recordOpsFrom s.id pend.tail req.records
      tail := pend.tail + req.records.length
      producers := match newProd, req.producer with
        | some ns, some h => pend.producers.insert h.id ns
        | _, _ => pend.producers
      writerSeq := match req.streamSeq with
        | some v => some v
        | none => pend.writerSeq
      closed := pend.closed || req.closeStream }
    s.streamMeta.ttlSeconds

/-- The answer to an accepted append: 200 for new data via an idempotent producer, 204 otherwise. -/
def acceptResp (pend : PendingBurst) (req : AppendReq) : AppendResp where
  status := if req.producer.isSome ∧ 0 < req.records.length then 200 else 204
  nextOffset := tailOffset (pend.tail + req.records.length)
  closed := pend.closed || req.closeStream
  producerEpoch := req.producer.map (·.epoch)
  producerSeq := req.producer.map (·.seq)

/-- Validate one append against the pending view and, when accepted, record its effects into that view. -/
def planAppend (L : GoLib) (flt : Faults) (db : Store) (s : Streamer) (pend : PendingBurst) (req : AppendReq) :
    Streamer × PendingBurst × AppendResp × Bool :=
  -- closed status has the highest precedence
  if pend.closed then
    match planAppendClosed flt db s pend req with
    | (s, resp) => (s, pend, resp, false)
  else if req.hasBody && !contentTypeMatches L s.streamMeta.contentType req.contentType then
    (s, pend, { status := 409 }, false)
  else
    match planProducer flt db s pend req with
    | (s, .error resp) => (s, pend, resp, false)
    | (s, .ok newProd) =>
      match planStreamSeq flt db s pend req with
      | (s, false) => (s, pend, { status := 409 }, false)
      | (s, true) => (s, acceptPending s pend req newProd, acceptResp pend req, true)

/-! ## Planning a burst -/

/-- What planning a burst yields. -/
structure Planned where
  st : Streamer
  pend : PendingBurst
  responses : List AppendResp
  accepted : List Bool
  metaChanged : Bool

/-- The planning loop. -/
def planBatch (L : GoLib) (flt : Faults) (db : Store) : Streamer → PendingBurst → List AppendReq → Planned
  | s, pend, [] => ⟨s, pend, [], [], false⟩
  | s, pend, req :: reqs =>
    match planAppend L flt db s pend req with
    | (s, pend, resp, acc) =>
      let rest := planBatch L flt db s pend reqs
      { rest with
        responses := resp :: rest.responses
        accepted := acc :: rest.accepted
        metaChanged := (acc && req.closeStream) || rest.metaChanged }

/-- Has the burst moved the deadline? -/
def deadlineChanged (s : Streamer) (pend : PendingBurst) : Bool := pend.deadline != s.streamMeta.deadline

/-- Nothing to write: every append of the burst is answered from the pending view alone. -/
def nothing (s : Streamer) (pend : PendingBurst) (metaChanged : Bool) : Bool :=
  pend.recordOps.isEmpty && !metaChanged && pend.writerSeq.isNone && pend.producers.entries.isEmpty &&
    !deadlineChanged s pend

/-- The metadata a burst writes. -/
def burstMeta (s : Streamer) (pend : PendingBurst) : StreamMeta :=
  { s.streamMeta with closed := pend.closed, deadline := pend.deadline }

def tailOps (s : Streamer) (pend : PendingBurst) : List Op :=
  [Op.put (.tailKey s.id) (marshalTail pend.tail pend.now)]

/-- The puts of the modified producers. -/
def producerOps (s : Streamer) (pend : PendingBurst) : List Op :=
  pend.producers.entries.map fun e => Op.put (.producerKey s.id e.1) e.2

def writerSeqOps (s : Streamer) (pend : PendingBurst) : List Op :=
  match pend.writerSeq with
  | some v => [Op.put (.writerSeqKey s.id) v]
  | none => []

/-- Move the entry of the expiry index. -/
def expiryOps (s : Streamer) (pend : PendingBurst) : List Op :=
  if deadlineChanged s pend then
    Op.put (.expiryKey pend.deadline s.id) s.streamMeta.ttlSeconds ::
      (if s.streamMeta.deadline > 0 then [Op.del (.expiryKey s.streamMeta.deadline s.id)] else [])
  else []

def metaOps (s : Streamer) (pend : PendingBurst) (metaChanged : Bool) : List Op :=
  if metaChanged || deadlineChanged s pend then [Op.put (.metaKey s.path) (burstMeta s pend)] else []

/-- The batch assembled from the final pending view. -/
def burstOps (s : Streamer) (pend : PendingBurst) (metaChanged : Bool) : List Op :=
  pend.recordOps ++ tailOps s pend ++ producerOps s pend ++ writerSeqOps s pend ++ expiryOps s pend ++
    metaOps s pend metaChanged

/-- The finalised pending view of one group commit. -/
structure CommitBurst where
  pend : PendingBurst
  ops : List Op
  responses : List AppendResp
  accepted : List Bool
  metaChanged : Bool

/-- What a burst hands on: answers to send at once, or a commit. -/
inductive Burst where
  | reply (responses : List AppendResp)
  | commit (c : CommitBurst)

/-- Plan a burst at clock value `now`, up to the call of the committer. -/
def processBurst (L : GoLib) (flt : Faults) (db : Store) (now : Int64) (s : Streamer) (batch : List AppendReq) :
    Streamer × Burst :=
  let p := planBatch L flt db s (newPending s now) batch
  if nothing p.st p.pend p.metaChanged then (p.st, .reply p.responses)
  else (p.st, .commit {
    pend := p.pend
    ops := burstOps p.st p.pend p.metaChanged
    responses := p.responses
    accepted := p.accepted
    metaChanged := p.metaChanged || deadlineChanged p.st p.pend })

/-! ## Publishing -/

/-- Publish the writer view. -/
def applyWriter (s : Streamer) (pend : PendingBurst) (metaChanged : Bool) : Streamer :=
  { s with
    writeTail := pend.tail
    streamMeta := if metaChanged then { s.streamMeta with closed := pend.closed, deadline := pend.deadline }
      else s.streamMeta
    producers := fun pid => ((pend.producers.lookup pid).map some).or (s.producers pid)
    writerSeq := pend.writerSeq.or s.writerSeq }

/-- Publish the reader-visible state. -/
def applyReader (s : Streamer) (tail : Nat) (closed : Bool) : Streamer :=
  { s with tail := tail, closed := closed || s.closed }

/-- Rewrite the answers of the accepted appends after a failed commit. -/
def failAccepted (responses : List AppendResp) (accepted : List Bool) (err : String) : List AppendResp :=
  List.zipWith (fun r a => if a then { status := 500, err := some err } else r) responses accepted

/-- The sync committer: `commitErr` is the outcome of the durable store commit. -/
def syncCommit (commitErr : Option String) (db : Store) (s : Streamer) (c : CommitBurst) :
    Store × Streamer × List AppendResp :=
  match commitErr with
  | some err => (db, s, failAccepted c.responses c.accepted err)
  | none =>
    (applyOps db c.ops,
      applyReader (applyWriter s c.pend c.metaChanged) c.pend.tail (c.metaChanged && c.pend.closed), c.responses)

/-- A whole burst under the sync committer. -/
def syncBurst (L : GoLib) (flt : Faults) (now : Int64) (commitErr : Option String) (w : Store × Streamer)
    (batch : List AppendReq) : (Store × Streamer) × List AppendResp :=
  match processBurst L flt w.1 now w.2 batch with
  | (s, .reply responses) => ((w.1, s), responses)
  | (s, .commit c) =>
    match syncCommit commitErr w.1 s c with
    | (db, s, responses) => ((db, s), responses)

/-! ## Sliding the TTL on a read -/

/-- The batch that slides the TTL deadline forward, with the streamer's cached deadline already moved; `none` when
there is no sliding TTL or a rewrite is not yet due. -/
def ttlRefreshOps (s : Streamer) (nowUnix : Int64) : Streamer × Option (List Op) :=
  if s.streamMeta.ttlSeconds = 0 then (s, none)
  else
    let nowTTL := nowUnix.toUInt64 + s.streamMeta.ttlSeconds
    if nowTTL < s.streamMeta.deadline then (s, none)
    else
      let old := s.streamMeta.deadline
      let deadline := nowTTL + ttlGran s.streamMeta.ttlSeconds
      ({ s with streamMeta := { s.streamMeta with deadline := deadline } },
        some (Op.put (.expiryKey deadline s.id) s.streamMeta.ttlSeconds ::
          (if old > 0 ∧ old ≠ deadline then [Op.del (.expiryKey old s.id)] else [])))

/-- Slide the TTL forward for a read: best-effort, the cached deadline is restored when the commit fails. -/
def refreshTTLOnRead (now : Int64) (commitErr : Option String) (db : Store) (s : Streamer) : Store × Streamer :=
  let old := s.streamMeta.deadline
  match ttlRefreshOps s now with
  | (s, none) => (db, s)
  | (s, some ops) =>
    match commitErr with
    | some _ => (db, { s with streamMeta := { s.streamMeta with deadline := old } })
    | none => (applyOps db (ops ++ [Op.put (.metaKey s.path) s.streamMeta]), s)

/-! ## A sample stream, for evaluation -/

/-- A standard library that parses nothing. -/
def plainLib : GoLib where
  trimSpace := id
  toLower := id
  parseMediaType := some
  unmarshalArray := fun _ => none
  jsonValid := fun _ => false
  jsonCompact := fun _ => none

def samplePath : Bytes := [47]

def sampleMeta : StreamMeta where
  streamID := 1
  contentType := []

/-- A store that holds the sample stream and nothing else. -/
def sampleStore : Store := applyOps ∅ [Op.put (.metaKey samplePath) sampleMeta]

/-- The producer of the sample appends. -/
def sampleProducer : Bytes := [112]

/-- An append of one record by the sample producer. -/
def producerAppend (epoch seq : Nat) : AppendReq where
  records := [[0]]
  hasBody := true
  producer := some ⟨sampleProducer, epoch, seq⟩

end Yasdb
