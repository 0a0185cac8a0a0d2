import Yasdb.Coherent

/-!
# Creating streams and forks

`createStream` and `createFork` read the store and yield an answer to send at once, or a batch to commit and the
answer for the case that the commit succeeds. Both write a new stream with the same operations (`createOps`): its
records from a base on, its metadata, id mapping and tail, the next id, and its deadline.

- `createStream_spec`, `createFork_spec`: a batch is only built for a path without metadata, under the next id; a
  fork's base is its `ForkOffset`, and its source is a stored stream.
- `resolveWithin_fuel`: a source has a smaller id than its fork, so the fuel `id + 1` never runs out.
-/

namespace Yasdb

open Batch Store Nat Op

variable {m src : StreamMeta} {α : Type} {subOffset : Nat} {div : Nat × Nat}

/-! ## Parsing request data -/

def contentTypeJSON : Bytes := ascii "application/json"

def isJSONStream (L : GoLib) (ct : Bytes) : Bool := mediaType L ct == contentTypeJSON

/-- The value of an ASCII digit. -/
def digit (b : UInt8) : Option Nat := if 48 ≤ b ∧ b ≤ 57 then some (b.toNat - 48) else none

/-- `strconv.ParseUint` in base 10 for 64 bits. -/
def parseUint (s : Bytes) : Option Nat :=
  if s = [] then none
  else (s.foldlM (fun n b => (digit b).map fun d => n * 10 + d) 0).filter (· < 2 ^ 64)

/-- A decimal without leading zeros. -/
def parseStrictUint (s : Bytes) : Option Nat :=
  if 1 < s.length ∧ s.head? = some 48 then none else parseUint s

def offsetTokenLen : Nat := 33

/-- A client-supplied offset: a position, or the current tail. -/
inductive ParsedOffset where
  | off (o : Offset)
  | isNow
deriving DecidableEq, Repr

/-- Interpret an offset token; `none` when it is malformed. -/
def parseOffset (raw : Bytes) : Option ParsedOffset :=
  if raw = [] ∨ raw = ascii "-1" then some (.off ⟨0, 0⟩)
  else if raw = ascii "now" then some .isNow
  else if raw.length ≠ offsetTokenLen ∨ raw[16]? ≠ some 95 then none
  else
    match parseUint (raw.take 16), parseUint (raw.drop 17) with
    | some seq, some byte => some (.off ⟨seq, byte⟩)
    | _, _ => none

inductive JSONErr where
  | errInvalidJSON
  | errEmptyArray
deriving DecidableEq, Repr

/-- The messages of a JSON body: the elements of a top-level array, or the body itself, each compacted. -/
def flattenJSON (L : GoLib) (body : Bytes) : Except JSONErr (List Bytes) :=
  let trimmed := L.trimSpace body
  if trimmed.head? = some 91 then
    match L.unmarshalArray trimmed with
    | none => .error .errInvalidJSON
    | some [] => .error .errEmptyArray
    | some arr =>
      match arr.mapM L.jsonCompact with
      | some out => .ok out
      | none => .error .errInvalidJSON
  else if trimmed = [] ∨ L.jsonValid trimmed = false then .error .errInvalidJSON
  else
    match L.jsonCompact trimmed with
    | some c => .ok [c]
    | none => .error .errInvalidJSON

/-- The records of an initial body. An empty array is a valid empty stream. -/
def forkBodyRecords (L : GoLib) (contentType body : Bytes) : Except JSONErr (List Bytes) :=
  if isJSONStream L contentType then
    match flattenJSON L body with
    | .error .errEmptyArray => .ok []
    | r => r
  else .ok [body]

/-! ## Reading the catalog -/

section Reads

variable (flt : Faults) (db : Store)

def loadMeta (path : Bytes) : Except String (Option StreamMeta) := get flt db (.metaKey path)

def loadTombstone (path : Bytes) : Except String (Option (TombReason × Nat)) := get flt db (.tombstoneKey path)

def loadTail (id : Nat) : Except String Nat := (get flt db (.tailKey id)).map fun t => t.elim 0 (·.seq)

/-- The number of forks of a stream; a failed read counts as none. -/
def loadRefCount (id : Nat) : Nat :=
  match get flt db (.refCountKey id) with
  | .ok (some n) => n
  | _ => 0

/-- The path and the metadata of a stream id. -/
def loadMetaByID (id : Nat) : Except String (Option (StreamMeta × Bytes)) :=
  match get flt db (.idMappingKey id) with
  | .error e => .error e
  | .ok none => .ok none
  | .ok (some path) => (loadMeta flt db path).map fun m => m.map (·, path)

end Reads

/-- The path carries a soft-delete tombstone. -/
def softDeleted (t : Option (TombReason × Nat)) : Bool := t.any (·.1 = .tombSoftDelete)

/-! ## Following a fork chain -/

/-- A run of sequence numbers `[startSeq, endSeq)` that lives in one stream's own storage. -/
structure Segment where
  id : Nat
  startSeq : Nat
  endSeq : Nat
deriving DecidableEq, Repr

/-- The segments of a read range; `byID` resolves the range of a source. -/
def resolveSegments (byID : Nat → Nat → Nat → Except String (List Segment))
    (id forkedFrom forkOffset startSeq endSeq : Nat) : Except String (List Segment) :=
  if startSeq ≥ endSeq then .ok []
  else if forkedFrom = 0 then .ok [⟨id, startSeq, endSeq⟩]
  else
    let own := if endSeq > forkOffset then [⟨id, max startSeq forkOffset, endSeq⟩] else []
    if startSeq < forkOffset then (byID forkedFrom startSeq (min endSeq forkOffset)).map (· ++ own) else .ok own

/-- The segments of a range of the stream `id`; the range of a stream that has vanished is empty. `out` is the outcome
when the fuel runs out. -/
def resolveWithin (out : Except String (List Segment)) (flt : Faults) (db : Store) :
    Nat → Nat → Nat → Nat → Except String (List Segment)
  | 0, _, _, _ => out
  | fuel + 1, id, startSeq, endSeq =>
    match loadMetaByID flt db id with
    | .error e => .error e
    | .ok none => .ok []
    | .ok (some (m, _)) =>
      resolveSegments (resolveWithin out flt db fuel) id m.forkedFrom m.forkOffset startSeq endSeq

/-- `resolveWithin`, with an outcome that never shows: enough fuel is given in every state that a server reaches
(`resolveWithin_fuel`). -/
def resolveSegmentsByID : Faults → Store → Nat → Nat → Nat → Nat → Except String (List Segment) :=
  resolveWithin (.ok [])

/-- Every mapped id belongs to metadata with that id, and every source has a smaller id than its fork. -/
def ForksBelow (db : Store) : Prop :=
  ∀ id path m, db.idMappingAt id = some path → db.metaAt path = some m → m.streamID = id ∧ m.forkedFrom < id

variable {flt : Faults} {db : Store} {id nextID sourceTail : Nat} {L : GoLib} {now nowMs : Int64} {p : ForkParams}
  {ops : List Op} {res : CreateResult} {off : Offset}

theorem Store.get_ok {k : Key} {v : Option k.Val} (h : get flt db k = .ok v) : db.lookup k = v := by
  unfold get at h
  split at h
  · cases h
  · cases h; rfl

theorem loadMetaByID_ok {path : Bytes} (h : loadMetaByID flt db id = .ok (some (m, path))) :
    db.idMappingAt id = some path ∧ db.metaAt path = some m := by
  unfold loadMetaByID at h
  split at h
  · cases h
  · cases h
  · rename_i p hp
    unfold loadMeta at h
    cases hm : get flt db (.metaKey p) with
    | error e => rw [hm] at h; cases h
    | ok v =>
      rw [hm] at h
      cases v with
      | none => cases h
      | some m' =>
        cases h
        exact ⟨get_ok hp, get_ok hm⟩

theorem loadTail_ok {n : Nat} (h : loadTail flt db id = .ok n) : n = loadTailSeq db id := by
  unfold loadTail at h
  cases hg : get flt db (.tailKey id) with
  | error e => rw [hg] at h; cases h
  | ok v =>
    rw [hg] at h
    cases h
    have hl : db.tailAt id = v := get_ok hg
    rw [loadTailSeq, hl]

theorem resolveSegments_congr {byID byID' : Nat → Nat → Nat → Except String (List Segment)}
    {forkedFrom forkOffset : Nat} (h : ∀ s e, byID forkedFrom s e = byID' forkedFrom s e) (startSeq endSeq : Nat) :
    resolveSegments byID id forkedFrom forkOffset startSeq endSeq =
      resolveSegments byID' id forkedFrom forkOffset startSeq endSeq := by
  unfold resolveSegments
  simp only [h]

/-- **The fuel never runs out**: neither more than the id of the stream nor the outcome without fuel matters. -/
theorem resolveWithin_fuel (hf : ForksBelow db) (out out' : Except String (List Segment)) : ∀ (fuel fuel' id s e : Nat),
    id < fuel → id < fuel' → resolveWithin out flt db fuel id s e = resolveWithin out' flt db fuel' id s e
  | 0, _, _, _, _, h, _ => absurd h (not_lt_zero _)
  | _ + 1, 0, _, _, _, _, h' => absurd h' (not_lt_zero _)
  | fuel + 1, fuel' + 1, id, s, e, h, h' => by
    unfold resolveWithin
    cases hl : loadMetaByID flt db id with
    | error err => rfl
    | ok r =>
      cases r with
      | none => rfl
      | some r =>
        obtain ⟨m, path⟩ := r
        obtain ⟨hp, hm⟩ := loadMetaByID_ok hl
        have hlt := (hf id path m hp hm).2
        exact resolveSegments_congr (fun s e => resolveWithin_fuel hf out out' fuel fuel' m.forkedFrom s e
          (by omega) (by omega)) s e

/-- The payload at `(id, seq)`, read from wherever the fork chain keeps it. -/
def chainRecordAt (flt : Faults) (db : Store) (id seq : Nat) : Except String (Option Bytes) :=
  match resolveSegmentsByID flt db (id + 1) id seq (seq + 1) with
  | .error e => .error e
  | .ok segs =>
    match segs.getLast? with
    | none => .ok none
    | some seg => (get flt db (.recordKey seg.id seq)).map fun v => v.map recordPayload

/-! ## Creating a stream -/

structure CreateParams where
  path : Bytes
  contentType : Bytes
  ttl : UInt64 := 0
  ttlSet : Bool := false
  expiresAt : Int64 := 0
  expiresSet : Bool := false
  closed : Bool := false
  body : Bytes := []

structure CreateResult where
  status : Nat
  msg : String := ""
  contentType : Bytes := []
  nextOffset : Offset := {}
  closed : Bool := false
deriving DecidableEq, Repr

/-- An answer to send at once, or a batch and the answer after its commit. -/
abbrev CreatePlan := Except CreateResult (List Op × CreateResult)

/-- A failed read is an internal error. -/
def orInternal {α : Type} (r : Except String α) : Except CreateResult α := r.mapError fun _ => { status := 500 }

/-- Answer at once if the condition holds. -/
def rejectIf (c : Bool) (res : CreateResult) : Except CreateResult Unit := if c then .error res else .ok ()

/-- The operations that write a new stream with the given records from `start` on. -/
def createOps (path : Bytes) (m : StreamMeta) (start : Nat) (records : List Bytes) (now : Int64) : List Op :=
  recordOpsFrom m.streamID start records ++
    [Op.put (.metaKey path) m, Op.put (.idMappingKey m.streamID) path,
      Op.put (.tailKey m.streamID) (marshalTail (start + records.length) now),
      Op.put .idCounterKey (m.streamID + 1)] ++
    (if m.deadline > 0 then [Op.put (.expiryKey m.deadline m.streamID) m.ttlSeconds] else [])

/-- The records of an initial body, none when there is no body. -/
def initialRecords (L : GoLib) (contentType body : Bytes) (msg : String) : Except CreateResult (List Bytes) :=
  if body = [] then .ok []
  else (forkBodyRecords L contentType body).mapError fun _ => { status := 400, msg := msg }

/-- The metadata of a new plain stream. -/
def newMeta (id : Nat) (now nowMs : Int64) (p : CreateParams) : StreamMeta where
  streamID := id
  contentType := p.contentType
  ttlSeconds := if p.ttlSet then p.ttl else 0
  expiresAt := if p.expiresSet then p.expiresAt else 0
  closed := p.closed
  createdAtMs := nowMs
  deadline := if p.ttlSet then now.toUInt64 + p.ttl + 1
    else if p.expiresSet ∧ p.expiresAt > 0 then p.expiresAt.toUInt64 else 0

/-- The answer to the creation of a stream that exists: 200 when the configuration matches. -/
def createExisting (flt : Faults) (db : Store) (m : StreamMeta) (same : Bool) : CreatePlan := do
  rejectIf (!same) { status := 409 }
  let tailSeq ← orInternal (loadTail flt db m.streamID)
  throw { status := 200, contentType := m.contentType, nextOffset := tailOffset tailSeq, closed := m.closed }

def createStream (L : GoLib) (flt : Faults) (db : Store) (nextID : Nat) (now nowMs : Int64) (p : CreateParams) :
    CreatePlan := do
  let tomb ← orInternal (loadTombstone flt db p.path)
  rejectIf (softDeleted tomb) { status := 409 }
  match ← orInternal (loadMeta flt db p.path) with
  | some m =>
    createExisting flt db m (contentTypeMatches L m.contentType p.contentType &&
      m.ttlSeconds == (if p.ttlSet then p.ttl else 0) && m.expiresAt == (if p.expiresSet then p.expiresAt else 0) &&
      m.closed == p.closed)
  | none =>
    let records ← initialRecords L p.contentType p.body "invalid JSON"
    pure (createOps p.path (newMeta nextID now nowMs p) 0 records now,
      { status := 201, contentType := p.contentType, nextOffset := tailOffset records.length, closed := p.closed })

/-! ## Creating a fork -/

structure ForkParams where
  path : Bytes
  sourcePath : Bytes
  /-- empty = default to the source tail -/
  forkOffsetRaw : Bytes := []
  subOffsetRaw : Bytes := []
  subOffsetSet : Bool := false
  /-- empty = inherit from the source -/
  contentType : Bytes := []
  ttl : UInt64 := 0
  ttlSet : Bool := false
  expiresAt : Int64 := 0
  expiresSet : Bool := false
  closed : Bool := false
  body : Bytes := []

/-- The inheritance of TTL and expiry. -/
def forkTTL (src : StreamMeta) (p : ForkParams) : UInt64 × Int64 :=
  if p.ttlSet then (p.ttl, 0)
  else if p.expiresSet then (0, p.expiresAt)
  else if src.ttlSeconds > 0 then (src.ttlSeconds, 0)
  else if src.expiresAt > 0 then (0, src.expiresAt)
  else (0, 0)

/-- The fork offset, within the source. -/
def forkOff (p : ForkParams) (sourceTail : Nat) : Except CreateResult Offset := do
  let off ←
    if p.forkOffsetRaw = [] then .ok ⟨sourceTail, 0⟩
    else
      match parseOffset p.forkOffsetRaw with
      | none => .error { status := 400, msg := "invalid fork offset" }
      | some .isNow => .ok ⟨sourceTail, 0⟩
      | some (.off o) => .ok o
  rejectIf (off.seq > sourceTail ∨ (off.seq = sourceTail ∧ off.byte > 0))
    { status := 400, msg := "fork offset beyond stream length" }
  pure off

def forkSubOffset (p : ForkParams) (sourceTail : Nat) : Except CreateResult Nat :=
  if p.subOffsetSet then
    match parseStrictUint p.subOffsetRaw with
    | none => .error { status := 400, msg := "invalid sub-offset" }
    | some n =>
      if n > 0 ∧ p.forkOffsetRaw = [] then .error { status := 400, msg := "sub-offset requires fork offset" }
      else if n > 0 ∧ sourceTail = 0 then .error { status := 400, msg := "sub-offset on empty source" }
      else .ok n
  else .ok 0

def overshoots : CreateResult := { status := 400, msg := "sub-offset overshoots message length" }

/-- The divergence point `(divSeq, divByte)`; sums wrap at `2^64`. -/
def forkDivergence (L : GoLib) (flt : Faults) (db : Store) (src : StreamMeta) (sourceTail : Nat) (off : Offset)
    (subOffset : Nat) : Except CreateResult (Nat × Nat) :=
  if isJSONStream L src.contentType then
    let divSeq := (off.seq + subOffset) % 2 ^ 64
    if divSeq > sourceTail then .error { status := 400, msg := "sub-offset overshoots message count" }
    else .ok (divSeq, 0)
  else
    let combined := (off.byte + subOffset) % 2 ^ 64
    if combined = 0 then .ok (off.seq, off.byte)
    else if off.seq ≥ sourceTail then .error overshoots
    else
      match chainRecordAt flt db src.streamID off.seq with
      | .error _ => .error { status := 500 }
      | .ok none => .error overshoots
      | .ok (some payload) =>
        if combined > payload.length then .error overshoots
        else if combined = payload.length then .ok (off.seq + 1, 0)
        else .ok (off.seq, combined)

/-- The partial record that a divergence within a record materialises. A prefix longer than the record (only a wrapped
sum leads there) is out of bounds: the handler panics. -/
def forkPrefix (flt : Faults) (db : Store) (sourceID divSeq divByte : Nat) : Except CreateResult (List Bytes) :=
  if divByte > 0 then
    match chainRecordAt flt db sourceID divSeq with
    | .ok (some payload) =>
      if divByte > payload.length then .error { status := 0, msg := "slice bounds out of range" }
      else .ok [payload.take divByte]
    | _ => .error { status := 500 }
  else .ok []

/-- The metadata of a new fork. -/
def newForkMeta (id : Nat) (now nowMs : Int64) (src : StreamMeta) (p : ForkParams) (contentType : Bytes)
    (div : Nat × Nat) : StreamMeta where
  streamID := id
  contentType := contentType
  ttlSeconds := (forkTTL src p).1
  expiresAt := (forkTTL src p).2
  closed := p.closed
  createdAtMs := nowMs
  deadline := if (forkTTL src p).1 > 0 then now.toUInt64 + (forkTTL src p).1 + 1
    else if (forkTTL src p).2 > 0 then (forkTTL src p).2.toUInt64 else 0
  forkedFrom := src.streamID
  forkOffset := div.1
  forkByte := div.2

/-- Create a fork. Some keys are read twice (the source's when it is its own fork, the chain's for the partial record);
a second read that fails is answered 500 as a first one is. -/
def createFork (L : GoLib) (flt : Faults) (db : Store) (nextID : Nat) (now nowMs : Int64) (p : ForkParams) :
    CreatePlan := do
  let tomb ← orInternal (loadTombstone flt db p.path)
  rejectIf (softDeleted tomb) { status := 409 }
  let srcTomb ← orInternal (loadTombstone flt db p.sourcePath)
  rejectIf (softDeleted srcTomb) { status := 409 }
  match ← orInternal (loadMeta flt db p.sourcePath) with
  | none => throw { status := 404 }
  | some src =>
    let sourceTail ← orInternal (loadTail flt db src.streamID)
    rejectIf (p.contentType != [] && !contentTypeMatches L src.contentType p.contentType) { status := 409 }
    let contentType := if p.contentType = [] then src.contentType else p.contentType
    let off ← forkOff p sourceTail
    let subOffset ← forkSubOffset p sourceTail
    let div ← forkDivergence L flt db src sourceTail off subOffset
    match ← orInternal (loadMeta flt db p.path) with
    | some m =>
      createExisting flt db m (m.forkedFrom == src.streamID && m.forkOffset == div.1 && m.forkByte == div.2 &&
        contentTypeMatches L m.contentType contentType && m.ttlSeconds == (forkTTL src p).1 &&
        m.expiresAt == (forkTTL src p).2 && m.closed == p.closed)
    | none =>
      let pre ← forkPrefix flt db src.streamID div.1 div.2
      let records ← initialRecords L contentType p.body "invalid body"
      pure (createOps p.path (newForkMeta nextID now nowMs src p contentType div) div.1 (pre ++ records) now ++
          [Op.put (.refCountKey src.streamID) (loadRefCount flt db src.streamID + 1)],
        { status := 201, contentType := contentType, nextOffset := tailOffset (div.1 + (pre ++ records).length)
          closed := p.closed })

/-! ## What is committed -/

theorem bind_ok {ε β : Type} {x : Except ε α} {f : α → Except ε β} {b : β} (h : (x >>= f) = .ok b) :
    ∃ a, x = .ok a ∧ f a = .ok b := by
  cases x with
  | error e => cases h
  | ok a => exact ⟨a, rfl, h⟩

theorem orInternal_ok {r : Except String α} {a : α} (h : orInternal r = .ok a) : r = .ok a := by
  cases r with
  | error e => cases h
  | ok b => cases h; rfl

theorem createExisting_ne_ok {same : Bool} {r : List Op × CreateResult} : createExisting flt db m same ≠ .ok r := by
  intro h
  obtain ⟨_, -, h⟩ := bind_ok h
  obtain ⟨_, -, h⟩ := bind_ok h
  cases h

/-- A plain stream is written under the next id, for a path without metadata, with the records of its body from 0
on. -/
theorem createStream_records {p : CreateParams} (h : createStream L flt db nextID now nowMs p = .ok (ops, res)) :
    db.metaAt p.path = none ∧ ∃ records, initialRecords L p.contentType p.body "invalid JSON" = .ok records ∧
      ops = createOps p.path (newMeta nextID now nowMs p) 0 records now := by
  obtain ⟨_, -, h⟩ := bind_ok h
  obtain ⟨_, -, h⟩ := bind_ok h
  obtain ⟨m, hm, h⟩ := bind_ok h
  cases m with
  | some m => exact absurd h createExisting_ne_ok
  | none =>
    obtain ⟨records, hrec, h⟩ := bind_ok h
    cases h
    exact ⟨get_ok (orInternal_ok hm), records, hrec, rfl⟩

theorem createStream_spec {p : CreateParams} (h : createStream L flt db nextID now nowMs p = .ok (ops, res)) :
    db.metaAt p.path = none ∧ ∃ records, ops = createOps p.path (newMeta nextID now nowMs p) 0 records now := by
  obtain ⟨hp, records, -, hops⟩ := createStream_records h
  exact ⟨hp, records, hops⟩

theorem rejectIf_ok {c : Bool} {u : Unit} (h : rejectIf c res = .ok u) : c = false := by
  cases c with
  | false => rfl
  | true => cases h

theorem forkOff_ok (h : forkOff p sourceTail = .ok off) :
    off.seq ≤ sourceTail ∧ (0 < off.byte → off.seq < sourceTail) := by
  have key : ∀ o : Offset, (do
      rejectIf (o.seq > sourceTail ∨ (o.seq = sourceTail ∧ o.byte > 0))
        { status := 400, msg := "fork offset beyond stream length" }
      pure o) = .ok off → off.seq ≤ sourceTail ∧ (0 < off.byte → off.seq < sourceTail) := by
    intro o h
    obtain ⟨_, hr, h⟩ := bind_ok h
    cases h
    have := rejectIf_ok hr
    simp only [decide_eq_false_iff_not] at this
    omega
  unfold forkOff at h
  split at h
  · exact key _ h
  · split at h
    · cases h
    · exact key _ h
    · exact key _ h

/-- The divergence point lies within the source. -/
theorem forkDivergence_ok (ho : off.seq ≤ sourceTail ∧ (0 < off.byte → off.seq < sourceTail))
    (h : forkDivergence L flt db src sourceTail off subOffset = .ok div) :
    div.1 ≤ sourceTail ∧ (0 < div.2 → div.1 < sourceTail) := by
  unfold forkDivergence at h
  split at h
  · dsimp only at h
    split at h
    · cases h
    · rename_i hle
      cases h
      exact ⟨not_lt.mp hle, fun h => absurd h (lt_irrefl 0)⟩
  · dsimp only at h
    split at h
    · cases h; exact ho
    · split at h
      · cases h
      · rename_i hlt
        split at h
        · cases h
        · cases h
        · split at h
          · cases h
          · split at h
            · cases h
              exact ⟨not_le.mp hlt, fun h => absurd h (lt_irrefl 0)⟩
            · cases h
              exact ⟨ho.1, fun _ => not_le.mp hlt⟩

theorem forkDivergence_json
    (hj : isJSONStream L src.contentType = true) (h : forkDivergence L flt db src sourceTail off subOffset = .ok div) :
    div.2 = 0 := by
  unfold forkDivergence at h
  rw [if_pos hj] at h
  dsimp only at h
  split at h
  · cases h
  · cases h
    rfl

section

variable (h : createFork L flt db nextID now nowMs p = .ok (ops, res))
include h

/-- What `createFork` commits: the source is stored, the fork diverges within it, and its records start with the part of
the diverging record that it keeps. The fork is a JSON stream exactly if its source is one, and then keeps no such part.
-/
theorem createFork_source :
    db.metaAt p.path = none ∧ ∃ src sourceTail contentType div pre records, db.metaAt p.sourcePath = some src ∧
      loadTail flt db src.streamID = .ok sourceTail ∧ div.1 ≤ sourceTail ∧ (0 < div.2 → div.1 < sourceTail) ∧
      forkPrefix flt db src.streamID div.1 div.2 = .ok pre ∧
      initialRecords L contentType p.body "invalid body" = .ok records ∧
      isJSONStream L contentType = isJSONStream L src.contentType ∧
      (isJSONStream L src.contentType = true → div.2 = 0) ∧
      ops = createOps p.path (newForkMeta nextID now nowMs src p contentType div) div.1 (pre ++ records) now ++
        [put (.refCountKey src.streamID) (loadRefCount flt db src.streamID + 1)] := by
  obtain ⟨_, -, h⟩ := bind_ok h
  obtain ⟨_, -, h⟩ := bind_ok h
  obtain ⟨_, -, h⟩ := bind_ok h
  obtain ⟨_, -, h⟩ := bind_ok h
  obtain ⟨src, hsrc, h⟩ := bind_ok h
  cases src with
  | none => cases h
  | some src =>
    obtain ⟨sourceTail, htail, h⟩ := bind_ok h
    obtain ⟨_, htype, h⟩ := bind_ok h
    obtain ⟨off, hoff, h⟩ := bind_ok h
    obtain ⟨_, -, h⟩ := bind_ok h
    obtain ⟨div, hdiv, h⟩ := bind_ok h
    obtain ⟨m, hm, h⟩ := bind_ok h
    cases m with
    | some m => exact absurd h createExisting_ne_ok
    | none =>
      obtain ⟨pre, hpre, h⟩ := bind_ok h
      obtain ⟨records, hrec, h⟩ := bind_ok h
      cases h
      obtain ⟨hle, hlt⟩ := forkDivergence_ok (forkOff_ok hoff) hdiv
      have hjson : isJSONStream L (if p.contentType = [] then src.contentType else p.contentType) =
          isJSONStream L src.contentType := by
        have hm := rejectIf_ok htype
        split
        · rfl
        · simp_all [isJSONStream, contentTypeMatches]
      exact ⟨get_ok (orInternal_ok hm), src, sourceTail, _, div, pre, records,
        get_ok (orInternal_ok hsrc), orInternal_ok htail, hle, hlt, hpre, hrec, hjson,
        fun hj => forkDivergence_json hj hdiv, rfl⟩

/-- A fork is written under the next id, for a path without metadata, with records from its `ForkOffset` on, and its
source is a stored stream. -/
theorem createFork_spec :
    db.metaAt p.path = none ∧ ∃ src m records n, db.metaAt p.sourcePath = some src ∧ m.streamID = nextID ∧
      m.forkedFrom = src.streamID ∧
      ops = createOps p.path m m.forkOffset records now ++ [put (.refCountKey src.streamID) n] := by
  obtain ⟨hp, src, -, contentType, div, pre, records, hsrc, -, -, -, -, -, -, -, rfl⟩ := createFork_source h
  exact ⟨hp, src, newForkMeta nextID now nowMs src p contentType div, pre ++ records, _, hsrc, rfl, rfl, rfl⟩

end

end Yasdb
