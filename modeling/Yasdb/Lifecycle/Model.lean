import Yasdb.Lifecycle.Program

/-!
# Handlers, streamers and committer, interleaved

The state of a running server (`World`) and its steps (`step`), for either committer. A step is one access of a
handler to the shared state (`World.act`), one choice of a streamer's select loop or one operation of its burst, touch
or retirement, one commit of the flush goroutine, one durability callback, one answer received by its client, or one
chunk of a background deletion. Commits and reads may fail at any time.

A streamer object (`Inst`) lives on at its address after it has left the registry: handlers that hold a pointer to it
and its own goroutine go on using it. The store commits are kept in `history`, oldest first.
-/

namespace Yasdb.Lifecycle

open Batch Function

/-! ## Streamers at run time -/

/-- Who holds the mutex of a streamer: a handler, or the streamer's own goroutine. -/
inductive Holder where
  | thread (t : Nat)
  | self
deriving DecidableEq, Repr

/-- A buffered append of the handler `thread`; `late` records that its path carried a soft-delete tombstone when it
was sent. -/
structure Request where
  thread : Nat
  req : AppendReq
  late : Bool
deriving DecidableEq, Repr

/-- Where the goroutine of a streamer stands. -/
inductive Phase where
  /-- at the select -/
  | idle
  /-- in `drainBurst` -/
  | draining (batch : List Request)
  /-- before the commit of a planned burst -/
  | committing (c : CommitBurst) (batch : List Request)
  /-- before the commit of a TTL touch, with the deadline to go back to -/
  | touching (ops : List Op) (old : UInt64)
  /-- in `tryRetire`, before and after taking `mu` -/
  | retiring
  | retireLocked
  /-- in `tryRetire`, neither a request nor a reader having been found -/
  | retireCounted
  /-- in `tryRetire`, before it leaves the registry, and before it is marked dead -/
  | retirePassed
  | retireLeft
  /-- draining the buffer after `stop` -/
  | stopping
  | exited

/-- A streamer object: its state, its channels and what other goroutines share with it. -/
structure Inst where
  st : Streamer
  reqs : List Request := []
  touch : Bool := false
  stop : Bool := false
  dead : Bool := false
  mu : Option Holder := none
  readers : Nat := 0
  /-- in-flight durability callbacks -/
  pending : Nat := 0
  phase : Phase := .idle

/-- The capacity of the request buffer and of a burst. -/
def maxBurst : Nat := 512

/-- A planned burst in the hands of the shared committer. -/
structure Job where
  inst : Nat
  id : Nat
  c : CommitBurst
  batch : List Request

/-- A store commit. -/
inductive Entry where
  | create (path : Bytes) (id : Nat)
  | hardDelete (path : Bytes) (id : Nat)
  | softDelete (path : Bytes) (id : Nat)
  /-- by a streamer of the stream `id` -/
  | streamer (id : Nat) (ops : List Op)
  | other

def Commit.entry : Commit → Entry
  | .create path id _ => .create path id
  | .hardDelete path m => .hardDelete path m.streamID
  | .softDelete path m => .softDelete path m.streamID
  | _ => .other

/-- The durability strategy. -/
inductive Durability where
  | sync
  | notifier
deriving DecidableEq, Repr

structure World where
  db : Store
  nextID : Nat := 1
  registry : Bytes → Option Nat := fun _ => none
  insts : Nat → Option Inst := fun _ => none
  nextInst : Nat := 0
  spawnLocks : Nat → Option Nat := fun _ => none
  metaMu : Option Nat := none
  threads : Nat → Option Prog := fun _ => none
  /-- answers on their way to the handlers -/
  outbox : List (Nat × AppendResp) := []
  /-- the queue of the shared committer -/
  queue : List Job := []
  /-- the batch in the flush at hand; empty = no flush is running -/
  flight : List Job := []
  /-- committed, the durability callback to come -/
  landed : List Job := []
  deleting : List Deletion := []
  history : List Entry := []

/-- The path carries a soft-delete tombstone. -/
def World.tombstoned (w : World) (path : Bytes) : Bool := softDeleted (w.db.tombstoneAt path)

namespace World

def setProg (w : World) (t : Nat) (p : Prog) : World := { w with threads := update w.threads t (some p) }

def setInst (w : World) (i : Nat) (x : Inst) : World := { w with insts := update w.insts i (some x) }

/-- Send the answers of a batch. -/
def replyAll (w : World) (batch : List Request) (responses : List AppendResp) : World :=
  { w with outbox := w.outbox ++ List.zip (batch.map (·.thread)) responses }

/-- A successful commit. -/
def committed (w : World) (ops : List Op) (entries : List Entry) : World :=
  { w with db := applyOps w.db ops, history := w.history ++ entries }

/-! ## Handlers -/

/-- A commit by a handler. -/
def commitBy (w : World) (c : Commit) : World :=
  { w.committed c.ops [c.entry] with
    nextID := match c with
      | .create _ id _ => id + 1
      | _ => w.nextID }

/-- The next access of the handler `t`, which is at `p`; `none` when it has to wait. -/
def act (L : GoLib) (w : World) (t : Nat) (flt : Faults) (ok : Bool) : Prog → Option World
  | .done _ => none
  | .call c => some (w.setProg t (c.prog L))
  | .lockMeta k => if w.metaMu = none then some ({ w with metaMu := some t }.setProg t k) else none
  | .unlockMeta k => some ({ w with metaMu := none }.setProg t k)
  | .lockSpawn path _ k =>
    if w.spawnLocks (lockFor path) = none then
      some ({ w with spawnLocks := update w.spawnLocks (lockFor path) (some t) }.setProg t k)
    else none
  | .unlockSpawn path k =>
    some ({ w with spawnLocks := update w.spawnLocks (lockFor path) none }.setProg t k)
  | .lockMu i k =>
    (w.insts i).bind fun x =>
      if x.mu = none then some ((w.setInst i { x with mu := some (.thread t) }).setProg t k) else none
  | .unlockMu i k => (w.insts i).map fun x => (w.setInst i { x with mu := none }).setProg t k
  | .get key k => some (w.setProg t (k (Store.get flt w.db key)))
  | .plan _ f k => some (w.setProg t (k ((f flt w.db w.nextID).map fun r => (w.nextID, r.1))))
  | .commit c k => some (if ok then (w.commitBy c).setProg t (k true) else w.setProg t (k false))
  | .lookup path k => some (w.setProg t (k (w.registry path)))
  | .spawn path m tailSeq k =>
    some ({ w.setInst w.nextInst { st := newStreamer path m tailSeq } with
      registry := update w.registry path (some w.nextInst)
      nextInst := w.nextInst + 1 }.setProg t (k w.nextInst))
  | .evict path k =>
    some ({ w with registry := update w.registry path none }.setProg t (k (w.registry path)))
  | .look i k => (w.insts i).map fun x => w.setProg t (k x.st.closed x.st.streamMeta.contentType)
  | .isDead i k => (w.insts i).map fun x => w.setProg t (k x.dead)
  | .kill i k =>
    (w.insts i).map fun x => (w.setInst i { x with dead := true, stop := x.stop || !x.dead }).setProg t k
  | .send i req k =>
    (w.insts i).bind fun x =>
      if x.reqs.length < maxBurst then
        some ((w.setInst i { x with reqs := x.reqs ++ [Request.mk t req (w.tombstoned x.st.path)] }).setProg t k)
      else none
  | .signal i k => (w.insts i).map fun x => (w.setInst i { x with touch := true }).setProg t k
  | .await _ => none
  | .park i k => (w.insts i).map fun x => (w.setInst i { x with readers := x.readers + 1 }).setProg t k
  | .unpark i k => (w.insts i).map fun x => (w.setInst i { x with readers := x.readers - 1 }).setProg t k
  | .startBackgroundDelete id k => some ({ w with deleting := w.deleting ++ [Deletion.mk id .start] }.setProg t k)

/-! ## The goroutine of a streamer -/

/-- The moves of a streamer. -/
inductive Move where
  /-- the select takes a request -/
  | recv
  /-- `drainBurst` takes another one -/
  | drain
  /-- `drainBurst` is done: plan the burst at time `now` -/
  | plan (flt : Faults) (now : Int64)
  /-- the sync committer commits -/
  | commit (ok : Bool)
  /-- the shared committer takes the burst over -/
  | enqueue
  /-- the select takes a touch signal at time `now` -/
  | touch (now : Int64)
  | touchCommit (ok : Bool)
  /-- the select takes the dormancy timer -/
  | timer
  | retireLock
  /-- `tryRetire` looks at the buffer and the readers -/
  | retireCount
  /-- `tryRetire` looks at the outstanding callbacks -/
  | retirePending
  | unregister
  | retire
  /-- the select takes `stop` -/
  | stop
  | refuse
  | exit

/-- Take the next batch for the flush goroutine. -/
def takeBatch (w : World) (batchMax : Nat) : World :=
  { w with flight := w.queue.take batchMax, queue := w.queue.drop batchMax }

/-- A move of the streamer object `x` at address `i`. -/
def move (L : GoLib) (mode : Durability) (batchMax : Nat) (w : World) (i : Nat) (x : Inst) : Move → Option World
  | .recv =>
    match x.phase, x.reqs with
    | .idle, r :: rs => some (w.setInst i { x with reqs := rs, phase := .draining [r] })
    | _, _ => none
  | .drain =>
    match x.phase, x.reqs with
    | .draining batch, r :: rs =>
      if batch.length < maxBurst then some (w.setInst i { x with reqs := rs, phase := .draining (batch ++ [r]) })
      else none
    | _, _ => none
  | .plan flt now =>
    match x.phase with
    | .draining batch =>
      if x.reqs = [] ∨ maxBurst ≤ batch.length then
        match processBurst L flt w.db now x.st (batch.map (·.req)) with
        | (s, .reply responses) => some ((w.setInst i { x with st := s, phase := .idle }).replyAll batch responses)
        | (s, .commit c) => some (w.setInst i { x with st := s, phase := .committing c batch })
      else none
    | _ => none
  | .commit ok =>
    match mode, x.phase with
    | .sync, .committing c batch =>
      match syncCommit (if ok then none else some errStoreClosed) w.db x.st c with
      | (_, s, responses) =>
        let w := (w.setInst i { x with st := s, phase := .idle }).replyAll batch responses
        some (if ok then w.committed c.ops [.streamer x.st.id c.ops] else w)
    | _, _ => none
  | .enqueue =>
    match mode, x.phase with
    | .notifier, .committing c batch =>
      let w := w.setInst i
        { x with st := applyWriter x.st c.pend c.metaChanged, pending := x.pending + 1, phase := .idle }
      let w := { w with queue := w.queue ++ [Job.mk i x.st.id c batch] }
      some (if w.flight.isEmpty then w.takeBatch batchMax else w)
    | _, _ => none
  | .touch now =>
    match x.phase, x.touch with
    | .idle, true =>
      match ttlRefreshOps x.st now with
      | (s, none) => some (w.setInst i { x with st := s, touch := false })
      | (s, some ops) =>
        let phase := .touching (ops ++ [Op.put (.metaKey s.path) s.streamMeta]) x.st.streamMeta.deadline
        some (w.setInst i { x with st := s, touch := false, phase := phase })
    | _, _ => none
  | .touchCommit ok =>
    match x.phase with
    | .touching ops old =>
      some (if ok then (w.setInst i { x with phase := .idle }).committed ops [.streamer x.st.id ops]
        else w.setInst i { x with st := x.st.setDeadline old, phase := .idle })
    | _ => none
  | .timer =>
    match x.phase with
    | .idle => some (w.setInst i { x with phase := .retiring })
    | _ => none
  | .retireLock =>
    match x.phase, x.mu with
    | .retiring, none => some (w.setInst i { x with mu := some .self, phase := .retireLocked })
    | _, _ => none
  | .retireCount =>
    match x.phase with
    | .retireLocked =>
      some (if x.reqs ≠ [] ∨ x.readers > 0 then w.setInst i { x with mu := none, phase := .idle }
        else w.setInst i { x with phase := .retireCounted })
    | _ => none
  | .retirePending =>
    match x.phase with
    | .retireCounted =>
      some (if x.pending > 0 then w.setInst i { x with mu := none, phase := .idle }
        else w.setInst i { x with phase := .retirePassed })
    | _ => none
  | .unregister =>
    match x.phase with
    | .retirePassed =>
      some { w.setInst i { x with phase := .retireLeft } with
        registry := if w.registry x.st.path = some i then update w.registry x.st.path none else w.registry }
    | _ => none
  | .retire =>
    match x.phase with
    | .retireLeft => some (w.setInst i { x with dead := true, mu := none, phase := .exited })
    | _ => none
  | .stop =>
    match x.phase, x.stop with
    | .idle, true => some (w.setInst i { x with phase := .stopping })
    | _, _ => none
  | .refuse =>
    match x.phase, x.reqs with
    | .stopping, r :: rs => some ((w.setInst i { x with reqs := rs }).replyAll [r] [{ status := 404 }])
    | _, _ => none
  | .exit =>
    match x.phase, x.reqs with
    | .stopping, [] => some (w.setInst i { x with phase := .exited })
    | _, _ => none

/-! ## The shared committer and the background deletions -/

/-- End a job: its durability callback is no longer outstanding, and its answers are sent. -/
def endJob (f : Inst → Inst) (responses : Job → List AppendResp) (w : World) (j : Job) : World :=
  let w := match w.insts j.inst with
    | some x => w.setInst j.inst (f { x with pending := x.pending - 1 })
    | none => w
  w.replyAll j.batch (responses j)

def failJob (w : World) (j : Job) : World :=
  w.endJob id (fun j => failAccepted j.c.responses j.c.accepted errStoreClosed) j

/-- `CommitAsync` of the batch in flight, and the next batch. -/
def flush (batchMax : Nat) (w : World) (ok : Bool) : World :=
  let w' :=
    if ok then
      { w.committed (w.flight.flatMap (·.c.ops)) (w.flight.map fun j => .streamer j.id j.c.ops) with
        landed := w.landed ++ w.flight }
    else w.flight.foldl failJob w
  w'.takeBatch batchMax

/-- The durability callback of a committed job. -/
def callback (w : World) (j : Job) : World :=
  w.endJob
    (fun x => { x with st := applyReader x.st j.c.pend.tail (j.c.metaChanged && j.c.pend.closed) })
    (fun j => j.c.responses) j

def setPhase (w : World) (n id : Nat) (next : Option DeletePhase) : World :=
  match next with
  | some phase => { w with deleting := w.deleting.set n ⟨id, phase⟩ }
  | none => { w with deleting := w.deleting.eraseIdx n }

/-- One step of a background deletion. -/
def chunk (w : World) (flt : Faults) (ok scanOk : Bool) (n : Nat) (d : Deletion) : World :=
  match backgroundDelete flt scanOk w.db d.id d.phase with
  | (none, next) => w.setPhase n d.id next
  | (some ops, next) => if ok then (w.committed ops [.other]).setPhase n d.id next else w.setPhase n d.id none

/-! ## Steps -/

inductive Event where
  /-- a client, or the sweeper, makes a call -/
  | arrive (t : Nat) (c : Call)
  | act (t : Nat) (flt : Faults) (ok : Bool)
  | move (i : Nat) (m : Move)
  | flush (ok : Bool)
  | callback (n : Nat)
  /-- the handler receives its answer -/
  | deliver (n : Nat)
  | chunk (n : Nat) (flt : Faults) (ok scanOk : Bool)

/-- The transition function; `none` when the step is not enabled. -/
def step (L : GoLib) (mode : Durability) (batchMax : Nat) (w : World) : Event → Option World
  | .arrive t c => if (w.threads t).isNone && c.external then some (w.setProg t (c.prog L)) else none
  | .act t flt ok => (w.threads t).bind (w.act L t flt ok)
  | .move i m => (w.insts i).bind fun x => w.move L mode batchMax i x m
  | .flush ok => if w.flight.isEmpty then none else some (w.flush batchMax ok)
  | .callback n => (w.landed[n]?).map fun j => { w with landed := w.landed.eraseIdx n }.callback j
  | .deliver n =>
    (w.outbox[n]?).bind fun a =>
      match w.threads a.1 with
      | some (.await k) => some ({ w with outbox := w.outbox.eraseIdx n }.setProg a.1 (k a.2))
      | _ => none
  | .chunk n flt ok scanOk => (w.deleting[n]?).map fun d => w.chunk flt ok scanOk n d

end World

/-- A server that starts over an empty store. -/
def World.start : World where
  db := ∅

end Yasdb.Lifecycle
