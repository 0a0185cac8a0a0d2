import Yasdb.ExactlyOnce

/-!
# The notifier-durability committer

In notifier mode a burst is not blocked on durability. Its streamer publishes the writer view at once and queues the
burst as a job (`plan`, `enqueue`); one flush goroutine folds queued jobs into a `CommitAsync` and subscribes each of
them under the sequence number of the commit (`commitOk`, `subscribe`, `loop`); the poller reads the durable watermark
and runs the callbacks of the jobs it covers, in order, which publish the reader-visible state and send the answers
(`poll`, `fire`, `callback`).

`step` interleaves these goroutines for any number of streams. A commit may fail (`commitFail`, `failNext`), the poller
and the committer may be closed (`closeNotifier`, `closeCommitter`, `failStray`), and a streamer without outstanding
jobs may retire and be spawned again from the store (`respawn`).
-/

namespace Yasdb.Notifier

open Batch

/-! ## Jobs -/

/-- One streamer's already-planned burst, handed to the shared committer. -/
structure CommitJob where
  /-- the slot of its streamer -/
  st : Nat
  c : CommitBurst
  targetTail : Nat
  targetClosed : Bool
  /-- the sequence number of the first record of the burst -/
  baseSeq : Nat
  /-- the accepted appends of the burst -/
  log : List (Int64 × AppendReq)

/-- The job of a burst that the streamer `s` of slot `i` has planned. -/
def newJob (i : Nat) (now : Int64) (s : Streamer) (batch : List AppendReq) (c : CommitBurst) : CommitJob where
  st := i
  c := c
  targetTail := c.pend.tail
  targetClosed := c.metaChanged && c.pend.closed
  baseSeq := s.writeTail
  log := (picked batch c.accepted).map (now, ·)

/-! ## The state -/

/-- One stream: its resident streamer and the job that its goroutine has planned and not yet queued. -/
structure Slot where
  st : Streamer
  hand : Option CommitJob := none
  /-- history: a commit of this streamer has failed -/
  stale : Bool := false
  /-- history: the appends committed to the store, in order -/
  applied : List (Int64 × AppendReq) := []

/-- The flush goroutine. -/
inductive Flush where
  | idle
  /-- before `CommitAsync` -/
  | committing (jobs : List CommitJob)
  /-- after a commit at `seq`, with the jobs still to subscribe -/
  | subscribing (seq : Nat) (jobs : List CommitJob)
  /-- after a failed commit, with the jobs still to answer -/
  | failing (err : String) (jobs : List CommitJob)

/-- A durability waiter: the sequence number it waits for, and the job that its callback completes. -/
abbrev DurWaiter := Nat × CommitJob

/-- The poller goroutine of the durability notifier. -/
inductive Poller where
  | idle
  /-- `DurableSeq` has returned -/
  | polled (durable : Nat)
  /-- running callbacks, with `nil` or with an error -/
  | calling (err : Option String) (ready : List DurWaiter)

/-- An answer sent, with what a reader of the stream sees at that moment. -/
structure Sent where
  slot : Nat
  resp : AppendResp
  tail : Nat
  closed : Bool

structure World where
  /-- the store contents, including what is not yet durable -/
  db : Store
  /-- history: the commits, in order, with their sequence numbers -/
  commits : List (Nat × List Op) := []
  lastSeq : Nat := 0
  /-- every commit up to this sequence number is durable -/
  durable : Nat := 0
  slots : Nat → Option Slot
  /-- the shared commit queue -/
  pending : List CommitJob := []
  flush : Flush := .idle
  committerClosed : Bool := false
  /-- queued jobs that the closing committer still has to answer -/
  stray : List CommitJob := []
  /-- the waiters of the notifier, ascending by target -/
  waiters : List DurWaiter := []
  lastDurable : Nat := 0
  notifierClosed : Bool := false
  poller : Poller := .idle
  /-- history: the answers sent -/
  sent : List Sent := []

namespace World

def setSlot (w : World) (i : Nat) (sl : Slot) : World := { w with slots := Function.update w.slots i (some sl) }

/-- Send answers on behalf of slot `i`. -/
def reply (w : World) (i : Nat) (responses : List AppendResp) : World :=
  match w.slots i with
  | some sl => { w with sent := w.sent ++ responses.map fun r => ⟨i, r, sl.st.tail, sl.st.closed⟩ }
  | none => w

/-- Answer a job whose commit failed. -/
def failJob (w : World) (err : String) (j : CommitJob) : World :=
  w.reply j.st (failAccepted j.c.responses j.c.accepted err)

/-- Complete a job whose commit is durable: publish the reader-visible state, then answer. -/
def completeJob (w : World) (j : CommitJob) : World :=
  match w.slots j.st with
  | some sl =>
    (w.setSlot j.st { sl with st := applyReader sl.st j.targetTail j.targetClosed }).reply j.st j.c.responses
  | none => w

end World

/-- Insert a waiter before the first one with a greater target. -/
def insertWaiter (seq : Nat) (j : CommitJob) (waiters : List DurWaiter) : List DurWaiter :=
  waiters.takeWhile (·.1 ≤ seq) ++ (seq, j) :: waiters.dropWhile (·.1 ≤ seq)

/-- The jobs the flush goroutine has taken and not yet committed. -/
def Flush.jobs : Flush → List CommitJob
  | .committing js => js
  | _ => []

/-- The jobs the flush goroutine has committed and not yet subscribed. -/
def Flush.subs : Flush → List DurWaiter
  | .subscribing seq js => js.map (seq, ·)
  | _ => []

/-- The jobs the flush goroutine still has to fail. -/
def Flush.failed : Flush → List CommitJob
  | .failing _ js => js
  | _ => []

/-- The waiters whose callbacks are about to publish. -/
def Poller.ready : Poller → List DurWaiter
  | .calling none ws => ws
  | _ => []

/-- The waiters whose callbacks are about to fail. -/
def Poller.failed : Poller → List DurWaiter
  | .calling (some _) ws => ws
  | _ => []

namespace World

/-- The committed jobs that wait for durability, oldest first. -/
def waiting (w : World) : List DurWaiter := w.poller.ready ++ w.waiters ++ w.flush.subs

/-- The queued jobs that are not yet committed, oldest first. -/
def queued (w : World) : List CommitJob := w.flush.jobs ++ w.pending

/-- All jobs on their way to publication, oldest first. -/
def pipeline (w : World) : List CommitJob := w.waiting.map (·.2) ++ w.queued

/-- The jobs that are about to be answered with an error. -/
def dropped (w : World) : List CommitJob := w.flush.failed ++ w.stray ++ w.poller.failed.map (·.2)

/-- The source's `pending` counter of slot `i` is zero: no callback of its streamer is outstanding. -/
def noneOutstanding (w : World) (i : Nat) : Bool := (w.pipeline ++ w.dropped).all (·.st != i)

end World

/-! ## The steps -/

inductive Event where
  /-- the streamer of slot `i` plans a burst -/
  | plan (i : Nat) (now : Int64) (flt : Faults) (batch : List AppendReq)
  /-- the streamer of slot `i` hands its planned job to the committer -/
  | enqueue (i : Nat)
  /-- `CommitAsync` succeeds and returns `seq` -/
  | commitOk (seq : Nat)
  /-- `CommitAsync` fails, applying nothing -/
  | commitFail (err : String)
  | subscribe
  | failNext
  /-- the flush goroutine takes the next batch, or exits -/
  | loop
  /-- the engine makes every commit up to `seq` durable -/
  | persist (seq : Nat)
  /-- `DurableSeq` returns `seq` -/
  | poll (seq : Nat)
  | fire
  | callback
  | pollDone
  | closeNotifier (err : String)
  | closeCommitter
  | failStray
  | respawn (i : Nat)

/-- Plan a burst: answer at once when there is nothing to write, else publish the writer view and keep the job. -/
def planStep (L : GoLib) (w : World) (i : Nat) (sl : Slot) (now : Int64) (flt : Faults) (batch : List AppendReq) :
    World :=
  match processBurst L flt w.db now sl.st batch with
  | (s, .reply responses) => (w.setSlot i { sl with st := s }).reply i responses
  | (s, .commit c) =>
    w.setSlot i { sl with st := applyWriter s c.pend c.metaChanged, hand := some (newJob i now sl.st batch c) }

/-- Queue a job; whoever finds no flush running starts one. -/
def enqueueStep (batchMax : Nat) (w : World) (j : CommitJob) : World :=
  if w.committerClosed then w.failJob errStoreClosed j
  else
    match w.flush with
    | .idle =>
      { w with
        flush := .committing ((w.pending ++ [j]).take batchMax)
        pending := (w.pending ++ [j]).drop batchMax }
    | _ => { w with pending := w.pending ++ [j] }

/-- The commit of a batch of jobs at `seq`. -/
def commitStep (w : World) (seq : Nat) (jobs : List CommitJob) : World :=
  { w with
    db := applyOps w.db (jobs.flatMap (·.c.ops))
    commits := w.commits ++ [(seq, jobs.flatMap (·.c.ops))]
    lastSeq := seq
    flush := .subscribing seq jobs
    slots := fun i => (w.slots i).map fun sl =>
      { sl with applied := sl.applied ++ (jobs.filter (·.st = i)).flatMap (·.log) } }

/-- A failed commit of a batch of jobs. -/
def commitFailStep (w : World) (err : String) (jobs : List CommitJob) : World :=
  { w with
    flush := .failing err jobs
    slots := fun i => (w.slots i).map fun sl => { sl with stale := sl.stale || jobs.any (·.st = i) } }

/-- The end of a round of the flush loop. -/
def loopStep (batchMax : Nat) (w : World) : World :=
  if w.pending.isEmpty then { w with flush := .idle }
  else { w with flush := .committing (w.pending.take batchMax), pending := w.pending.drop batchMax }

/-- Split off the waiters that the durable watermark covers. -/
def fireStep (w : World) (durable : Nat) : World :=
  { w with
    lastDurable := max w.lastDurable durable
    waiters := w.waiters.dropWhile (·.1 ≤ durable)
    poller := .calling none (w.waiters.takeWhile (·.1 ≤ durable)) }

/-- The steps of the system, with at most `batchMax` jobs in one commit. -/
def step (L : GoLib) (batchMax : Nat) (w : World) : Event → Option World
  | .plan i now flt batch =>
    match w.slots i with
    | some sl => if sl.hand.isSome then none else some (planStep L w i sl now flt batch)
    | none => none
  | .enqueue i =>
    match w.slots i with
    | some sl => sl.hand.map fun j => enqueueStep batchMax (w.setSlot i { sl with hand := none }) j
    | none => none
  | .commitOk seq =>
    match w.flush with
    | .committing jobs => if w.lastSeq < seq then some (commitStep w seq jobs) else none
    | _ => none
  | .commitFail err =>
    match w.flush with
    | .committing jobs => some (commitFailStep w err jobs)
    | _ => none
  | .subscribe =>
    match w.flush with
    | .subscribing seq (j :: js) =>
      if w.notifierClosed then some (World.failJob { w with flush := .subscribing seq js } errStoreClosed j)
      else some { w with flush := .subscribing seq js, waiters := insertWaiter seq j w.waiters }
    | _ => none
  | .failNext =>
    match w.flush with
    | .failing err (j :: js) => some (World.failJob { w with flush := .failing err js } err j)
    | _ => none
  | .loop =>
    match w.flush with
    | .subscribing _ [] => some (loopStep batchMax w)
    | .failing _ [] => some (loopStep batchMax w)
    | _ => none
  | .persist seq => if w.durable ≤ seq then some { w with durable := seq } else none
  | .poll seq =>
    match w.poller with
    | .idle => if w.waiters.isEmpty ∨ w.durable < seq then none else some { w with poller := .polled seq }
    | _ => none
  | .fire =>
    match w.poller with
    | .polled durable => some (fireStep w durable)
    | _ => none
  | .callback =>
    match w.poller with
    | .calling none ((_, j) :: ws) => some (World.completeJob { w with poller := .calling none ws } j)
    | .calling (some err) ((_, j) :: ws) => some (World.failJob { w with poller := .calling (some err) ws } err j)
    | _ => none
  | .pollDone =>
    match w.poller with
    | .calling _ [] => some { w with poller := .idle }
    | _ => none
  | .closeNotifier err =>
    match w.poller with
    | .idle =>
      if w.notifierClosed then none
      else some { w with notifierClosed := true, waiters := [], poller := .calling (some err) w.waiters }
    | _ => none
  | .closeCommitter =>
    if w.committerClosed then none
    else some { w with committerClosed := true, stray := w.pending, pending := [] }
  | .failStray =>
    match w.stray with
    | j :: js => some (World.failJob { w with stray := js } errStoreClosed j)
    | [] => none
  | .respawn i =>
    match w.slots i with
    | some sl =>
      if sl.hand.isSome || !w.noneOutstanding i then none
      else (w.db.metaAt sl.st.path).map fun m =>
        w.setSlot i { sl with st := newStreamer sl.st.path m (loadTailSeq w.db m.streamID), stale := false }
    | none => none

/-! ## A sample server, for evaluation -/

/-- A server with one resident stream, the sample stream, in slot `0`. -/
def sampleWorld : World where
  db := sampleStore
  slots := fun i => if i = 0 then some { st := newStreamer samplePath sampleMeta 0 } else none

/-- The events that take a planned burst to its publication. -/
def publishCycle : List Event :=
  [.enqueue 0, .commitOk 1, .subscribe, .loop, .persist 1, .poll 1, .fire, .callback, .pollDone]

theorem sampleWorld_slots {i : Nat} {sl : Slot} (h : sampleWorld.slots i = some sl) :
    i = 0 ∧ sl = { st := newStreamer samplePath sampleMeta 0 } := by
  unfold sampleWorld at h
  dsimp only at h
  split at h
  · rename_i hi
    cases h
    exact ⟨hi, rfl⟩
  · cases h

end Yasdb.Notifier
