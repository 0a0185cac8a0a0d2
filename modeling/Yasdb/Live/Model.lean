import Yasdb.Live.Cache
import Yasdb.Lifecycle.Model

/-!
# Live readers of one streamer

The readers of a resident streamer, interleaved with its commits. Every access to what they share is a step of its own:

- a burst is planned, committed, and published (`publish`) by the stages of `applyReader`: the live cache, the tail,
  the closure flag, the count of readers, the waker (`Stage`). The sync committer finishes one burst before the next
  one is planned, the notifier committer may have many bursts on their way. Bursts are committed and published in order;
- a wake-up is a broadcast at once or, within the coalescing window of the last one, a trailing one when the timer fires
  (`wake`, `fire`). A broadcast swaps the waiter channel, then closes the old one (`Cast`);
- a reader registers, loads the waiter channel, the tail and the closure flag one by one, reads from the cache or else
  from the store, and answers or parks (`advance`). A long-poll client and a cursor ask again from the offset they were
  given; catch-up readers load the tail and the closure flag as `liveState` does.

The streamer is neither stopped nor retired here, and a flush of the notifier committer succeeds.
-/

namespace Yasdb.Live

open Batch Lifecycle

/-! ## Configuration -/

structure Config where
  durability : Durability
  liveCoalesceWindow : Int := 0
  maxReadBytes : Nat := 0
  disableLiveCache : Bool := false
  liveCacheMaxRecords : Int := 0
  liveCacheMaxBytes : Int := 0

/-- The soft cap on the bytes of a response; 0 stands for the default. -/
def Config.limit (cfg : Config) : Nat := if cfg.maxReadBytes = 0 then 1048576 else cfg.maxReadBytes

def Config.newLiveCache (cfg : Config) : LiveCache where
  maxRecs := if cfg.liveCacheMaxRecords = 0 then 512 else cfg.liveCacheMaxRecords
  maxBytes := if cfg.liveCacheMaxBytes = 0 then 262144 else cfg.liveCacheMaxBytes

/-! ## Bursts on their way to the readers -/

/-- A planned burst with the payloads captured for the live cache. -/
structure Job where
  c : CommitBurst
  seg : CacheSeg

/-- What the burst publishes. -/
def Job.tail (j : Job) : Nat := j.c.pend.tail

def Job.closed (j : Job) : Bool := j.c.metaChanged && j.c.pend.closed

/-- The payload of a record put. -/
def opPayload : Op → Bytes
  | .put (.recordKey _ _) v => recordPayload v
  | _ => []

/-- Where a broadcast stands: before the swap of the waiter channel, or before the old one is closed. -/
inductive Cast where
  | swap
  | close (chan : Nat)
deriving DecidableEq, Repr

/-- Where `applyReader` stands. -/
inductive Stage where
  | cache
  | tail
  | closed
  /-- before the reader count is looked at -/
  | gate
  /-- before `Wake` takes the waker's lock -/
  | wake
  | cast (c : Cast)
deriving DecidableEq, Repr

/-! ## Readers -/

inductive Kind where
  | longPoll
  | sse
  /-- `LiveCursor` -/
  | cursor
  /-- a catch-up read of the resident stream -/
  | catchup
  /-- a catch-up read that found no resident streamer, and reads the stored state -/
  | durable
deriving DecidableEq, Repr

/-- The reader is counted while it reads. -/
def Kind.live : Kind → Bool
  | .longPoll | .sse | .cursor => true
  | .catchup | .durable => false

/-- Where a reader stands, with what it has loaded in this round. -/
inductive Pc where
  /-- between two requests -/
  | idle
  | entered
  | loop
  | gotChan (chan : Nat)
  | gotTail (chan tail : Nat)
  | gotMeta (closed : Bool)
  | gotState (chan tail : Nat) (closed : Bool)
  /-- the cache did not serve it -/
  | missed (chan tail : Nat) (closed : Bool)
  | parked (chan tail : Nat)
  /-- the long-poll timer has fired -/
  | expired (tail : Nat)
deriving DecidableEq, Repr

/-- A response: `body` is absent in a 204, in a control event of its own and in `ErrStreamClosed`. -/
structure Response where
  body : Option Bytes := none
  next : Offset
  upToDate : Bool := false
  closed : Bool := false
deriving DecidableEq, Repr

structure Reader where
  kind : Kind
  /-- the request asks for `offset=now` -/
  now : Bool
  start : Offset
  /-- where the client began -/
  first : Offset
  pc : Pc := .entered
  /-- an SSE reader has sent nothing yet -/
  fresh : Bool := true
  /-- the responses so far -/
  got : List Response := []
deriving DecidableEq, Repr

namespace Reader

/-- The handler answers and returns; the next request starts from the offset given. -/
def reply (x : Reader) (resp : Response) : Reader :=
  { x with start := resp.next, pc := .idle, got := x.got ++ [resp] }

/-- The handler returns without a response. -/
def quit (x : Reader) : Reader := { x with pc := .idle }

/-- Data is delivered. An SSE reader goes on unless that was the end of the stream. -/
def deliver (x : Reader) (closed : Bool) (r : ReadResult) : Reader × Bool :=
  let resp : Response := { body := some r.body, next := r.next, upToDate := r.upToDate, closed := closed && r.upToDate }
  match x.kind with
  | .cursor => (x.reply { resp with closed := false }, true)
  | .sse =>
    if closed && r.upToDate then (x.reply resp, true)
    else ({ x with start := r.next, pc := .loop, fresh := false, got := x.got ++ [resp] }, false)
  | _ => (x.reply resp, true)

/-- The end of a closed stream. -/
def finish (x : Reader) (tail : Nat) : Reader :=
  match x.kind with
  | .cursor => x.reply { next := x.start, closed := true }
  | _ => x.reply { next := tailOffset tail, upToDate := true, closed := true }

/-- Wait for the next broadcast. An SSE reader that has sent nothing sends a control event first. -/
def park (x : Reader) (chan tail : Nat) : Reader :=
  if x.kind = .sse ∧ x.fresh then
    { x with pc := .parked chan tail, fresh := false
             got := x.got ++ [{ next := tailOffset tail, upToDate := true }] }
  else { x with pc := .parked chan tail }

/-- What a live reader does with what it has read, and whether its handler returns. -/
def settle (x : Reader) (chan tail : Nat) (closed : Bool) (r : ReadResult) : Reader × Bool :=
  if r.next ≠ x.start then x.deliver closed r
  else if closed then (x.finish tail, true)
  else (x.park chan tail, false)

end Reader

/-! ## The state -/

structure State where
  db : Store
  s : Streamer
  cache : Option LiveCache
  /-- planned, the store commit to come -/
  planned : List Job := []
  /-- committed, to be published -/
  landed : List Job := []
  /-- being published -/
  pub : Option (Job × Stage) := none
  /-- the current waiter channel -/
  waiter : Nat := 0
  /-- the waiter channels that are closed -/
  shut : List Nat := []
  lastWake : Option Int := none
  /-- the trailing wake is pending, with the timer armed -/
  pending : Bool := false
  /-- the broadcasts of fired timers -/
  fires : List Cast := []
  /-- `totalReaders` -/
  total : Nat := 0
  /-- handlers that have answered and not yet deregistered -/
  leaving : Nat := 0
  readers : List Reader := []

/-- A streamer spawned for the stream stored at `path`. -/
def State.spawn (cfg : Config) (db : Store) (path : Bytes) (m : StreamMeta) : State where
  db := db
  s := newStreamer path m (loadTailSeq db m.streamID)
  cache := if m.forkedFrom = 0 ∧ cfg.disableLiveCache = false then some cfg.newLiveCache else none

namespace State

/-! ## The committer -/

/-- The payloads of a planned burst, captured if readers are present. -/
def capture (st : State) (baseSeq : Nat) (c : CommitBurst) : CacheSeg :=
  if st.cache.isSome ∧ c.pend.recordOps ≠ [] ∧ st.total > 0 then ⟨baseSeq, c.pend.recordOps.map opPayload⟩ else {}

/-- The streamer plans a burst. -/
def plan (L : GoLib) (cfg : Config) (st : State) (flt : Faults) (now : Int64) (batch : List AppendReq) : Option State :=
  if cfg.durability = .sync ∧ ¬(st.planned = [] ∧ st.landed = [] ∧ st.pub.isNone) then none
  else
    match processBurst L flt st.db now st.s batch with
    | (s, .reply _) => some { st with s := s }
    | (s, .commit c) =>
      let j : Job := ⟨c, st.capture st.s.writeTail c⟩
      match cfg.durability with
      | .sync => some { st with s := s, planned := [j] }
      | .notifier => some { st with s := applyWriter s c.pend c.metaChanged, planned := st.planned ++ [j] }

/-- The store commits the next burst. A failing flush of the notifier committer, which leaves the writer view ahead of
the store, is no step here (`Notifier.commitFailStep`). -/
def commit (cfg : Config) (st : State) (ok : Bool) : Option State :=
  match st.planned with
  | [] => none
  | j :: js =>
    match cfg.durability, ok with
    | .sync, false => some { st with planned := js }
    | .notifier, false => none
    | .sync, true =>
      some { st with
        db := applyOps st.db j.c.ops, s := applyWriter st.s j.c.pend j.c.metaChanged
        planned := js, landed := st.landed ++ [j] }
    | .notifier, true => some { st with db := applyOps st.db j.c.ops, planned := js, landed := st.landed ++ [j] }

/-! ## Publishing -/

/-- The publisher goes on to the next committed burst. -/
def publish (st : State) : Option State :=
  match st.pub, st.landed with
  | none, j :: js => some { st with pub := some (j, .cache), landed := js }
  | _, _ => none

/-- `Wake` under the waker's lock, and whether the caller broadcasts. -/
def wake (cfg : Config) (st : State) (now : Int) : State × Bool :=
  if cfg.liveCoalesceWindow ≤ 0 then (st, true)
  else if st.lastWake.all fun last => decide (now - last ≥ cfg.liveCoalesceWindow) then
    ({ st with lastWake := some now }, true)
  else if st.pending then (st, false)
  else ({ st with pending := true }, false)

/-- One step of a broadcast: what is left of it. -/
def broadcast (st : State) : Cast → State × Option Cast
  | .swap => ({ st with waiter := st.waiter + 1 }, some (.close st.waiter))
  | .close chan => ({ st with shut := chan :: st.shut }, none)

/-- The next stage of `applyReader`. -/
def applyStage (cfg : Config) (st : State) (now : Int) (j : Job) : Stage → State
  | .cache =>
    { st with
      cache := st.cache.map fun c =>
        if st.total > 0 then c.append j.seg.firstSeq j.seg.payloads else c.reset
      pub := some (j, .tail) }
  | .tail => { st with s := { st.s with tail := j.tail }, pub := some (j, .closed) }
  | .closed => { st with s := if j.closed then { st.s with closed := true } else st.s, pub := some (j, .gate) }
  | .gate => if st.total > 0 then { st with pub := some (j, .wake) } else { st with pub := none }
  | .wake => { (st.wake cfg now).1 with pub := if (st.wake cfg now).2 then some (j, .cast .swap) else none }
  | .cast c => { (st.broadcast c).1 with pub := (st.broadcast c).2.map fun c => (j, .cast c) }

/-- The trailing timer fires. -/
def fire (st : State) (now : Int) : Option State :=
  if st.pending then some { st with pending := false, lastWake := some now, fires := st.fires ++ [.swap] } else none

/-- A fired timer goes on with its broadcast. -/
def fireStep (st : State) (k : Nat) : Option State :=
  (st.fires[k]?).map fun c =>
    match st.broadcast c with
    | (st', some c') => { st' with fires := st.fires.set k c' }
    | (st', none) => { st' with fires := st.fires.eraseIdx k }

/-! ## Reading -/

/-- `readRange` of the streamer's own stream. -/
def range (L : GoLib) (cfg : Config) (st : State) (flt : ReadFaults) (start : Offset) (tail : Nat) :
    Except String ReadResult :=
  readRange flt st.db st.s.id st.s.id st.s.streamMeta.forkedFrom st.s.streamMeta.forkOffset
    (isJSONStream L st.s.streamMeta.contentType) start tail cfg.limit

def cacheRead (L : GoLib) (cfg : Config) (st : State) (start : Offset) (tail : Nat) : Option ReadResult :=
  st.cache.bind fun c => c.tryRead (isJSONStream L st.s.streamMeta.contentType) start tail cfg.limit

/-- The response of a catch-up read. -/
def catchup (L : GoLib) (cfg : Config) (st : State) (flt : ReadFaults) (x : Reader) (tail : Nat) (closed : Bool) :
    Reader :=
  if x.now then
    x.reply {
      body := some (if isJSONStream L st.s.streamMeta.contentType then ascii "[]" else [])
      next := tailOffset tail
      upToDate := true
      closed := closed }
  else
    match st.range L cfg flt x.start tail with
    | .error _ => x.quit
    | .ok r => x.reply { body := some r.body, next := r.next, upToDate := r.upToDate, closed := closed && r.upToDate }

/-- The next access of a reader, and whether its handler returns; `none` when it has to wait. -/
def advance (L : GoLib) (cfg : Config) (st : State) (flt : ReadFaults) (x : Reader) : Option (Reader × Bool) :=
  match x.pc with
  | .idle => none
  | .entered =>
    if x.now && x.kind.live then
      some ({ x with pc := .loop, now := false, start := tailOffset st.s.tail, first := tailOffset st.s.tail }, false)
    else some ({ x with pc := .loop }, false)
  | .loop =>
    match x.kind with
    | .catchup => some ({ x with pc := .gotTail st.waiter st.s.tail }, false)
    | .durable =>
      match st.db.metaAt st.s.path with
      | none => some (x.quit, true)
      | some m => some ({ x with pc := .gotMeta m.closed }, false)
    | _ => some ({ x with pc := .gotChan st.waiter }, false)
  | .gotChan chan => some ({ x with pc := .gotTail chan st.s.tail }, false)
  | .gotTail chan tail => some ({ x with pc := .gotState chan tail st.s.closed }, false)
  | .gotMeta closed => some ({ x with pc := .gotState st.waiter (loadTailSeq st.db st.s.id) closed }, false)
  | .gotState chan tail closed =>
    if x.kind.live then
      match st.cacheRead L cfg x.start tail with
      | some r => some (x.settle chan tail closed r)
      | none => some ({ x with pc := .missed chan tail closed }, false)
    else some (st.catchup L cfg flt x tail closed, true)
  | .missed chan tail closed =>
    match st.range L cfg flt x.start tail with
    | .error _ => some (x.quit, true)
    | .ok r => some (x.settle chan tail closed r)
  | .parked .. => none
  | .expired _ => some (x.reply { next := tailOffset st.s.tail, upToDate := true }, true)

/-- A reader moves; when its handler returns, it is still to be deregistered. -/
def setReader (st : State) (i : Nat) (x : Reader) (returns : Bool) : State :=
  { st with
    readers := st.readers.set i x
    leaving := if returns && x.kind.live then st.leaving + 1 else st.leaving }

/-- A reader registers. -/
def register (st : State) (kind : Kind) : Nat := if kind.live then st.total + 1 else st.total

end State

/-! ## Steps -/

inductive Event where
  | plan (flt : Faults) (now : Int64) (batch : List AppendReq)
  | commit (ok : Bool)
  | publish
  /-- the next stage of `applyReader` -/
  | applyReader (now : Int)
  | fire (now : Int)
  | fireStep (k : Nat)
  /-- a new client, from an offset or from `now` -/
  | arrive (kind : Kind) (offset : Option Offset)
  /-- a client asks again, from the offset it was given -/
  | request (i : Nat)
  | advance (i : Nat) (flt : ReadFaults)
  /-- a parked reader finds its channel closed -/
  | wake (i : Nat)
  /-- the timer of a parked reader fires -/
  | timeout (i : Nat)
  /-- the client of a parked reader is gone -/
  | cancel (i : Nat)
  /-- a handler that has returned deregisters -/
  | leave

/-- The transition function; `none` when the step is not enabled. -/
def State.step (L : GoLib) (cfg : Config) (st : State) : Event → Option State
  | .plan flt now batch => st.plan L cfg flt now batch
  | .commit ok => st.commit cfg ok
  | .publish => st.publish
  | .applyReader now => st.pub.map fun p => st.applyStage cfg now p.1 p.2
  | .fire now => st.fire now
  | .fireStep k => st.fireStep k
  | .arrive kind offset =>
    let x : Reader := { kind := kind, now := offset.isNone, start := offset.getD {}, first := offset.getD {} }
    some { st with readers := st.readers ++ [x], total := st.register kind }
  | .request i =>
    (st.readers[i]?).bind fun x =>
      match x.pc with
      | .idle => some { st with readers := st.readers.set i { x with pc := .entered }, total := st.register x.kind }
      | _ => none
  | .advance i flt =>
    (st.readers[i]?).bind fun x => (st.advance L cfg flt x).map fun out => st.setReader i out.1 out.2
  | .wake i =>
    (st.readers[i]?).bind fun x =>
      match x.pc with
      | .parked chan _ => if chan ∈ st.shut then some (st.setReader i { x with pc := .loop } false) else none
      | _ => none
  | .timeout i =>
    (st.readers[i]?).bind fun x =>
      match x.pc, x.kind with
      | .parked _ tail, .longPoll => some (st.setReader i { x with pc := .expired tail } false)
      | .parked .., .sse => some (st.setReader i x.quit true)
      | _, _ => none
  | .cancel i =>
    (st.readers[i]?).bind fun x =>
      match x.pc with
      | .parked .. => some (st.setReader i x.quit true)
      | _ => none
  | .leave => if st.leaving > 0 then some { st with total := st.total - 1, leaving := st.leaving - 1 } else none

end Yasdb.Live
