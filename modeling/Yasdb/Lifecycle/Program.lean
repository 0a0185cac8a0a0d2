import Yasdb.Server.Model

/-!
# The request handlers as programs

A handler runs on a goroutine of its own. It is written here as a program (`Prog`) whose nodes are its accesses to the
shared state: taking and releasing a lock, reading a key, a registry operation, a channel operation, a commit. Each
access is one step, and anything may happen between two of them. A loop of the source goes on with a `call`.

- `getOrSpawn`, `submitAppend`, `touchStream`: reaching the streamer of a path;
- `handlePost`, `appendOrClose`, `handleGet`, `tail`, `info`: requests on a stream;
- `create`, `deleteStream`, `deleteStreamLocked`, `dropForkRef`, `expireIfDue`: the operations under `metaMu`.
-/

namespace Yasdb.Lifecycle

open Batch

/-! ## Locks and commits -/

def fnv1a (s : Bytes) : UInt32 := s.foldl (fun h b => (h ^^^ b.toUInt32) * 16777619) 2166136261

def spawnLockShardCount : Nat := 64

/-- The spawn lock of a path. -/
def lockFor (path : Bytes) : Nat := (fnv1a path).toNat % spawnLockShardCount

/-- What a handler commits. -/
inductive Commit where
  | create (path : Bytes) (id : Nat) (ops : List Op)
  | hardDelete (path : Bytes) (m : StreamMeta)
  | softDelete (path : Bytes) (m : StreamMeta)
  | refCount (id count : Nat)
  | dropStaleExpiry (deadline : UInt64) (id : Nat)

def Commit.ops : Commit → List Op
  | .create _ _ ops => ops
  | .hardDelete path m => Server.deleteOps path m
  | .softDelete path m => [Op.put (.tombstoneKey path) (.tombSoftDelete, m.streamID)]
  | .refCount id count => [Op.put (.refCountKey id) count]
  | .dropStaleExpiry deadline id => [Op.del (.expiryKey deadline id)]

/-! ## The content of a POST -/

/-- A POST, past the checks of its producer headers. -/
structure Post where
  body : Bytes := []
  contentType : Bytes := []
  closeStream : Bool := false
  streamSeq : Option Bytes := none
  producer : Option ProducerHeaders := none
deriving DecidableEq, Repr

namespace Post

def hasBody (p : Post) : Bool := p.body ≠ []

/-- The records of the body for a content type. -/
def recordsFor (L : GoLib) (p : Post) (contentType : Bytes) : Except JSONErr (List Bytes) :=
  if isJSONStream L contentType then flattenJSON L p.body else .ok [p.body]

/-- The body is flattened only if the stream looks open and its content type matches. -/
def records (L : GoLib) (p : Post) (closed : Bool) (contentType : Bytes) : Except JSONErr (List Bytes) :=
  if p.hasBody && !closed && contentTypeMatches L contentType p.contentType then p.recordsFor L contentType else .ok []

def request (p : Post) (records : List Bytes) : AppendReq where
  records := records
  hasBody := p.hasBody
  contentType := p.contentType
  closeStream := p.closeStream
  streamSeq := p.streamSeq
  producer := p.producer

end Post

/-! ## Programs -/

/-- The calls: those that clients and the sweeper make, and those that handlers go on with. -/
inductive Call where
  | createStream (p : CreateParams) (now nowMs : Int64)
  | createFork (p : ForkParams) (now nowMs : Int64)
  | handlePost (path : Bytes) (p : Post)
  | appendOrClose (path : Bytes) (records : List Bytes) (closeStream : Bool)
  | handleGet (path : Bytes) (live : Bool)
  | tail (path : Bytes)
  /-- `LiveCursor.Next` on the streamer `i` -/
  | next (i : Nat)
  | info (path : Bytes)
  | deleteStream (path : Bytes)
  | expireIfDue (deadline : UInt64) (id : Nat) (now : Int64)
  | submitAppend (path : Bytes) (req : AppendReq)
  | deleteStreamLocked (path : Bytes) (m : StreamMeta) (cascade : Bool)
  | dropForkRef (sourceID : Nat)

/-- A handler at some point of its execution. Streamers are named by their address. -/
inductive Prog where
  /-- answered -/
  | done (status : Nat)
  | call (c : Call)
  /-- `metaMu` -/
  | lockMeta (k : Prog)
  | unlockMeta (k : Prog)
  /-- the spawn lock of a path, taken to spawn its streamer or to remove it -/
  | lockSpawn (path : Bytes) (toSpawn : Bool) (k : Prog)
  | unlockSpawn (path : Bytes) (k : Prog)
  /-- the mutex of a streamer -/
  | lockMu (i : Nat) (k : Prog)
  | unlockMu (i : Nat) (k : Prog)
  /-- `store.Get` -/
  | get (key : Key) (k : Except String (Option key.Val) → Prog)
  /-- the reads of a creation, up to its batch; the id is `nextID` -/
  | plan (path : Bytes) (f : Faults → Store → Nat → CreatePlan) (k : Except CreateResult (Nat × List Op) → Prog)
  /-- `store.Commit`; a committed creation uses up its id -/
  | commit (c : Commit) (k : Bool → Prog)
  /-- `registry.get` -/
  | lookup (path : Bytes) (k : Option Nat → Prog)
  /-- `newStreamer`, `registry.set` and `go st.run()` -/
  | spawn (path : Bytes) (m : StreamMeta) (tailSeq : Nat) (k : Nat → Prog)
  /-- `registry.deleteAndReturn` -/
  | evict (path : Bytes) (k : Option Nat → Prog)
  /-- `st.closed` and the content type, which never changes -/
  | look (i : Nat) (k : Bool → Bytes → Prog)
  /-- `st.dead`, read under `st.mu` -/
  | isDead (i : Nat) (k : Bool → Prog)
  /-- `st.dead = true; close(st.stop)`, unless it is dead -/
  | kill (i : Nat) (k : Prog)
  /-- `st.reqs <- req`, which waits while the buffer is full -/
  | send (i : Nat) (req : AppendReq) (k : Prog)
  /-- the non-blocking send on `st.touch` -/
  | signal (i : Nat) (k : Prog)
  /-- `<-req.resp` -/
  | await (k : AppendResp → Prog)
  /-- the count of parked readers -/
  | park (i : Nat) (k : Prog)
  | unpark (i : Nat) (k : Prog)
  | startBackgroundDelete (id : Nat) (k : Prog)

/-! ## Reaching a streamer -/

/-- The resident streamer of a path, spawned from the store if needed; `none` when there is no stream. -/
def getOrSpawn (path : Bytes) (k : Except String (Option Nat) → Prog) : Prog :=
  .lookup path fun
    | some i => k (.ok (some i))
    | none =>
      .lockSpawn path true <| .lookup path fun
        -- another goroutine may have spawned it while we waited for the lock
        | some i => .unlockSpawn path (k (.ok (some i)))
        | none => .get (.metaKey path) fun
          | .error e => .unlockSpawn path (k (.error e))
          | .ok none => .unlockSpawn path (k (.ok none))
          | .ok (some m) => .get (.tailKey m.streamID) fun
            | .error e => .unlockSpawn path (k (.error e))
            | .ok t => .spawn path m (t.elim 0 (·.seq)) fun i => .unlockSpawn path (k (.ok (some i)))

/-- Hand an append to a streamer and wait for the answer; start over if the streamer is dead. -/
def handOver (path : Bytes) (req : AppendReq) (i : Nat) : Prog :=
  .lockMu i <| .isDead i fun
    | true => .unlockMu i (.call (.submitAppend path req))
    | false => .send i req <| .unlockMu i <| .await fun resp => .done resp.status

/-- Route an append to the owning streamer. -/
def submitAppend (path : Bytes) (req : AppendReq) : Prog :=
  getOrSpawn path fun
    | .error _ => .done 500
    | .ok none => .done 404
    | .ok (some i) => handOver path req i

/-- POST to the streamer `i`: flatten the body if it looks as if it will be appended, and submit. -/
def postTo (L : GoLib) (path : Bytes) (p : Post) (i : Nat) : Prog :=
  .look i fun closed contentType =>
    match p.records L closed contentType with
    | .error _ => .done 400
    | .ok records => handOver path (p.request records) i

/-- An append to a path: a resident streamer counts as proof that the path is not soft-deleted. -/
def appendTo (path : Bytes) (submit : Nat → Prog) : Prog :=
  .lookup path fun
    | some i => submit i
    | none => .get (.tombstoneKey path) fun
      | .error _ => .done 500
      | .ok t =>
        if softDeleted t then .done 410
        else getOrSpawn path fun
          | .error _ => .done 500
          | .ok none => .done 404
          | .ok (some i) => submit i

def handlePost (L : GoLib) (path : Bytes) (p : Post) : Prog :=
  if !p.hasBody && !p.closeStream then .done 400
  else if p.hasBody && L.trimSpace p.contentType == [] then .done 400
  else appendTo path (postTo L path p)

/-- `Append` and `CloseStream` in process, with the content type of the streamer. -/
def appendOrClose (path : Bytes) (records : List Bytes) (closeStream : Bool) : Prog :=
  appendTo path fun i => .look i fun _ contentType =>
    let hasBody := !records.isEmpty
    handOver path { records, hasBody, contentType := if hasBody then contentType else [], closeStream } i

/-- Signal the streamer that a read slides the TTL. -/
def touchStream (path : Bytes) (k : Prog) : Prog :=
  getOrSpawn path fun
    | .ok (some i) => .lockMu i <| .isDead i fun
      | true => .unlockMu i k
      | false => .signal i (.unlockMu i k)
    | _ => k

/-! ## Reads -/

/-- A live read parks on the streamer. -/
def readLive (path : Bytes) : Prog :=
  getOrSpawn path fun
    | .error _ => .done 500
    | .ok none => .done 404
    | .ok (some i) => .park i (.unpark i (.done 200))

/-- GET, a live one or a catch-up read. -/
def handleGet (path : Bytes) (live : Bool) : Prog :=
  .get (.tombstoneKey path) fun
    | .error _ => .done 500
    | .ok t => if softDeleted t then .done 410 else .get (.metaKey path) fun
      | .error _ => .done 500
      | .ok none => .done 404
      | .ok (some m) =>
        let read := if live then readLive path else .done 200
        if m.ttlSeconds > 0 then touchStream path read else read

/-- `Server.Tail`; the statuses 404 and 410 stand for `ErrNotFound` and `ErrGone`. -/
def tail (path : Bytes) : Prog :=
  getOrSpawn path fun
    | .error _ => .done 500
    | .ok (some _) => .done 200
    | .ok none => .get (.tombstoneKey path) fun
      | .error _ => .done 500
      | .ok t => if softDeleted t then .done 410 else .done 404

/-- `Server.Info`; the live state is that of the resident streamer or the stored one. -/
def info (path : Bytes) : Prog :=
  .get (.tombstoneKey path) fun
    | .error _ => .done 500
    | .ok t => if softDeleted t then .done 410 else .get (.metaKey path) fun
      | .error _ => .done 500
      | .ok none => .done 404
      | .ok (some _) => .lookup path fun
        | some _ => .done 200
        | none => .get (.metaKey path) fun
          | .error _ => .done 500
          | .ok none => .done 200
          | .ok (some m) => .get (.tailKey m.streamID) fun
            | .error _ => .done 500
            | .ok _ => .done 200

/-! ## Creation and deletion -/

/-- `createStream` and `createFork` under `metaMu`. -/
def create (path : Bytes) (f : Faults → Store → Nat → CreatePlan) : Prog :=
  .lockMeta <| .plan path f fun
    | .error res => .unlockMeta (.done res.status)
    | .ok (id, ops) => .commit (.create path id ops) fun
      | true => .unlockMeta (.done 201)
      | false => .unlockMeta (.done 500)

/-- Retire the resident streamer of a path, if any, and commit. -/
def removeStreamerLocked (path : Bytes) (c : Commit) (k : Bool → Prog) : Prog :=
  .lockSpawn path false <| .evict path fun
    | none => .commit c fun ok => .unlockSpawn path (k ok)
    | some i => .lockMu i <| .kill i <| .unlockMu i <| .commit c fun ok => .unlockSpawn path (k ok)

/-- Hard-delete a stream and release its source. A failure is reported only by the delete of the request itself. -/
def deleteStreamLocked (path : Bytes) (m : StreamMeta) (cascade : Bool) : Prog :=
  removeStreamerLocked path (.hardDelete path m) fun
    | true => .startBackgroundDelete m.streamID <|
      if m.forkedFrom ≠ 0 then .call (.dropForkRef m.forkedFrom) else .unlockMeta (.done 204)
    | false => .unlockMeta (.done (if cascade then 204 else 500))

/-- The number of forks of a stream; a failed read counts as none. -/
def refCountOf (r : Except String (Option Nat)) : Nat :=
  match r with
  | .ok (some n) => n
  | _ => 0

/-- Release a source, and delete it if it is no longer referenced and carries a tombstone. -/
def dropForkRef (sourceID : Nat) : Prog :=
  .get (.refCountKey sourceID) fun r =>
    let count := refCountOf r - 1
    .commit (.refCount sourceID count) fun _ =>
      if count > 0 then .unlockMeta (.done 204)
      else .get (.idMappingKey sourceID) fun
        | .ok (some path) => .get (.metaKey path) fun
          | .ok (some m) => .get (.tombstoneKey path) fun
            | .ok (some _) => .call (.deleteStreamLocked path m true)
            | _ => .unlockMeta (.done 204)
          | _ => .unlockMeta (.done 204)
        | _ => .unlockMeta (.done 204)

/-- DELETE: soft if the stream has forks, hard otherwise. -/
def deleteStream (path : Bytes) : Prog :=
  .lockMeta <| .get (.tombstoneKey path) fun
    | .error _ => .unlockMeta (.done 500)
    | .ok t =>
      if softDeleted t then .unlockMeta (.done 410)
      else .get (.metaKey path) fun
        | .error _ => .unlockMeta (.done 500)
        | .ok none => .unlockMeta (.done 404)
        | .ok (some m) => .get (.refCountKey m.streamID) fun r =>
          if refCountOf r > 0 then
            removeStreamerLocked path (.softDelete path m) fun ok => .unlockMeta (.done (if ok then 204 else 500))
          else .call (.deleteStreamLocked path m false)

/-- One due entry of a sweep at time `now`. -/
def expireIfDue (deadline : UInt64) (id : Nat) (now : Int64) : Prog :=
  let drop : Prog := .commit (.dropStaleExpiry deadline id) fun _ => .unlockMeta (.done 204)
  .lockMeta <| .get (.idMappingKey id) fun
    | .error _ => .unlockMeta (.done 204)
    | .ok none => drop
    | .ok (some path) => .get (.metaKey path) fun
      | .error _ => .unlockMeta (.done 204)
      | .ok none => drop
      | .ok (some m) =>
        if m.streamID ≠ id ∨ m.deadline ≠ deadline then drop
        else if deadline.toInt64 > now then .unlockMeta (.done 204)
        else .call (.deleteStreamLocked path m true)

/-- The program of a call. -/
def Call.prog (L : GoLib) : Call → Prog
  | .createStream p now nowMs => create p.path fun flt db id => Yasdb.createStream L flt db id now nowMs p
  | .createFork p now nowMs => create p.path fun flt db id => Yasdb.createFork L flt db id now nowMs p
  | .handlePost path p => Lifecycle.handlePost L path p
  | .appendOrClose path records closeStream => Lifecycle.appendOrClose path records closeStream
  | .handleGet path live => Lifecycle.handleGet path live
  | .tail path => Lifecycle.tail path
  | .next i => .park i (.unpark i (.done 200))
  | .info path => Lifecycle.info path
  | .deleteStream path => Lifecycle.deleteStream path
  | .expireIfDue deadline id now => Lifecycle.expireIfDue deadline id now
  | .submitAppend path req => Lifecycle.submitAppend path req
  | .deleteStreamLocked path m cascade => Lifecycle.deleteStreamLocked path m cascade
  | .dropForkRef sourceID => Lifecycle.dropForkRef sourceID

/-- The calls that start a handler; the others go on with one. -/
def Call.external : Call → Bool
  | .submitAppend .. | .deleteStreamLocked .. | .dropForkRef _ => false
  | _ => true

/-! ## Properties of the handlers that read and append -/

/-- A property of handlers that hold nothing, closed under what such a handler does. -/
structure Passes (P : Prog → Prop) : Prop where
  done : ∀ status, P (.done status)
  get : ∀ {key : Key} {k : Except String (Option key.Val) → Prog}, (∀ r, P (k r)) → P (.get key k)
  lookup : ∀ {path : Bytes} {k : Option Nat → Prog}, (∀ r, P (k r)) → P (.lookup path k)
  look : ∀ {i : Nat} {k : Bool → Bytes → Prog}, (∀ closed contentType, P (k closed contentType)) → P (.look i k)
  getOrSpawn : ∀ {path : Bytes} {k : Except String (Option Nat) → Prog}, (∀ r, P (k r)) → P (getOrSpawn path k)
  handOver : ∀ path req i, P (handOver path req i)
  signal : ∀ {i : Nat} {k : Prog}, P k → P (.lockMu i (.isDead i fun
    | true => .unlockMu i k
    | false => .signal i (.unlockMu i k)))
  park : ∀ i, P (.park i (.unpark i (.done 200)))

namespace Passes

variable {P : Prog → Prop} (h : Passes P) (L : GoLib) (path : Bytes) (p : Post)
include h

theorem reach {k : Nat → Prog} (hk : ∀ i, P (k i)) : P (Lifecycle.getOrSpawn path fun
    | .error _ => .done 500
    | .ok none => .done 404
    | .ok (some i) => k i) := by
  refine h.getOrSpawn fun r => ?_
  match r with
  | .error e => exact h.done _
  | .ok none => exact h.done _
  | .ok (some i) => exact hk i

theorem submitAppend (req : AppendReq) : P (submitAppend path req) := h.reach path (h.handOver path req)

theorem postTo (i : Nat) : P (postTo L path p i) := by
  refine h.look fun closed contentType => ?_
  split
  · exact h.done _
  · exact h.handOver path _ i

/-- An append passes if its submission does. -/
theorem appendTo {submit : Nat → Prog} (hs : ∀ i, P (submit i)) : P (appendTo path submit) := by
  refine h.lookup fun r => ?_
  cases r with
  | some i => exact hs i
  | none =>
    refine h.get fun r => ?_
    cases r with
    | error e => exact h.done _
    | ok t =>
      dsimp only
      split
      · exact h.done _
      · exact h.reach path hs

theorem handlePost : P (handlePost L path p) := by
  unfold Lifecycle.handlePost
  split
  · exact h.done _
  split
  · exact h.done _
  exact h.appendTo path (h.postTo L path p)

theorem appendOrClose (records : List Bytes) (closeStream : Bool) : P (appendOrClose path records closeStream) :=
  h.appendTo path fun i => h.look fun _ _ => h.handOver path _ i

theorem touchStream {k : Prog} (hk : P k) : P (touchStream path k) := by
  refine h.getOrSpawn fun r => ?_
  match r with
  | .error e => exact hk
  | .ok none => exact hk
  | .ok (some i) => exact h.signal hk

theorem handleGet (live : Bool) : P (handleGet path live) := by
  have hread : P (if live then readLive path else .done 200) := by
    cases live with
    | true => exact h.reach path h.park
    | false => exact h.done _
  refine h.get fun r => ?_
  cases r with
  | error e => exact h.done _
  | ok t =>
    dsimp only
    split
    · exact h.done _
    · refine h.get fun r => ?_
      match r with
      | .error e => exact h.done _
      | .ok none => exact h.done _
      | .ok (some m) =>
        dsimp only
        split
        · exact h.touchStream path hread
        · exact hread

theorem tail : P (tail path) := by
  refine h.getOrSpawn fun r => ?_
  match r with
  | .error e => exact h.done _
  | .ok (some i) => exact h.done _
  | .ok none =>
    refine h.get fun r => ?_
    cases r with
    | error e => exact h.done _
    | ok t =>
      dsimp only
      split <;> exact h.done _

theorem info : P (info path) := by
  refine h.get fun r => ?_
  cases r with
  | error e => exact h.done _
  | ok t =>
    dsimp only
    split
    · exact h.done _
    · refine h.get fun r => ?_
      match r with
      | .error e => exact h.done _
      | .ok none => exact h.done _
      | .ok (some m) =>
        refine h.lookup fun r => ?_
        cases r with
        | some i => exact h.done _
        | none =>
          refine h.get fun r => ?_
          match r with
          | .error e => exact h.done _
          | .ok none => exact h.done _
          | .ok (some m) =>
            refine h.get fun r => ?_
            cases r with
            | _ => exact h.done _

end Passes

end Yasdb.Lifecycle
