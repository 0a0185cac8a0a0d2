import Yasdb.Server.Catchup

/-!
# The position of a fork

A fork is requested at an offset `(Seq, Byte)` of its source and a sub-offset: messages for JSON, bytes otherwise. The
code adds them in 64 bits before it compares; here the position is computed in unbounded integers (`requested`).

- `forkPoint_spec`: the divergence point is the requested one unless a sum wraps (`SumsExact`);
- `fork_position_exact_iff`: **a fork diverges where it was requested, or is answered 400, exactly then**;
- `parseOffset_string`: the text of an offset is read back modulo `10^16`;
- `createForkAt_exact_iff`: **when a fork created in process diverges at the given offset**.
-/

namespace Yasdb

open Batch Runs List Option Server Nat Prod

variable {record : Option Bytes} {json : Bool} {pre records : List Bytes}

/-! ## Reads without failures -/

theorem loadMetaByID_total (db : Store) (id : Nat) : ∃ r, loadMetaByID noFaults db id = .ok r := by
  unfold loadMetaByID
  cases hg : db.idMappingAt id with
  | none =>
    have h : Store.get noFaults db (.idMappingKey id) = .ok none := congrArg Except.ok hg
    exact ⟨none, by rw [h]⟩
  | some path =>
    have h : Store.get noFaults db (.idMappingKey id) = .ok (some path) := congrArg Except.ok hg
    exact ⟨(db.metaAt path).map (·, path), by rw [h]; rfl⟩

theorem resolveSegments_total {byID : Nat → Nat → Nat → Except String (List Segment)}
    (h : ∀ i s e, ∃ segs, byID i s e = .ok segs) (id forkedFrom forkOffset s e : Nat) :
    ∃ segs, resolveSegments byID id forkedFrom forkOffset s e = .ok segs := by
  unfold resolveSegments
  dsimp only
  obtain ⟨segs, hs⟩ := h forkedFrom s (min e forkOffset)
  split
  · exact ⟨_, rfl⟩
  · split
    · exact ⟨_, rfl⟩
    · split
      · exact ⟨_, by rw [hs]; rfl⟩
      · exact ⟨_, rfl⟩

theorem resolveSegmentsByID_total (db : Store) : ∀ fuel id s e, ∃ segs,
    resolveSegmentsByID noFaults db fuel id s e = .ok segs
  | 0, _, _, _ => ⟨[], rfl⟩
  | fuel + 1, id, s, e => by
    obtain ⟨r, hr⟩ := loadMetaByID_total db id
    unfold resolveSegmentsByID resolveWithin
    rw [hr]
    cases r with
    | none => exact ⟨[], rfl⟩
    | some r => exact resolveSegments_total (resolveSegmentsByID_total db fuel) _ _ _ _ _

/-- The record `seq` of the stream `id`, from wherever its fork chain keeps it. -/
def recordOf (db : Store) (id seq : Nat) : Option Bytes :=
  match chainRecordAt noFaults db id seq with
  | .ok record => record
  | .error _ => none

theorem chainRecordAt_eq (db : Store) (id seq : Nat) : chainRecordAt noFaults db id seq = .ok (recordOf db id seq) := by
  obtain ⟨segs, hs⟩ := resolveSegmentsByID_total db (id + 1) id seq (seq + 1)
  have h : ∃ r, chainRecordAt noFaults db id seq = .ok r := by
    unfold chainRecordAt
    rw [hs]
    dsimp only
    split <;> exact ⟨_, rfl⟩
  obtain ⟨r, hr⟩ := h
  rw [recordOf, hr]

/-! ## The steps of `createFork` -/

/-- The offset of a request; without one, the tail of the source. -/
def parsedFork (p : ForkParams) (sourceTail : Nat) : Option Offset :=
  if p.forkOffsetRaw = [] then some ⟨sourceTail, 0⟩
  else (parseOffset p.forkOffsetRaw).map fun
    | .isNow => ⟨sourceTail, 0⟩
    | .off o => o

/-- The sub-offset of a request. -/
def parsedSub (p : ForkParams) : Option Nat :=
  if p.subOffsetSet then parseStrictUint p.subOffsetRaw else some 0

/-- Neither path is soft-deleted, the source is stored, and the content type is its own. -/
structure Forkable (L : GoLib) (db : Store) (p : ForkParams) (src : StreamMeta) : Prop where
  target : softDeleted (db.tombstoneAt p.path) = false
  source : softDeleted (db.tombstoneAt p.sourcePath) = false
  stored : db.metaAt p.sourcePath = some src
  contentType : p.contentType = [] ∨ contentTypeMatches L src.contentType p.contentType = true

/-- The content type of a fork. -/
def forkContentType (src : StreamMeta) (p : ForkParams) : Bytes :=
  if p.contentType = [] then src.contentType else p.contentType

section Steps

variable (L : GoLib) (db : Store) (nextID : Nat) (now nowMs : Int64) (src : StreamMeta) (p : ForkParams)

/-- The first half of `createFork`: where the fork diverges. -/
def forkPoint (sourceTail : Nat) : Except CreateResult (Nat × Nat) := do
  let off ← forkOff p sourceTail
  let subOffset ← forkSubOffset p sourceTail
  forkDivergence L noFaults db src sourceTail off subOffset

/-- The second half: a fork that diverges at `div`. -/
def forkAt (div : Nat × Nat) : CreatePlan :=
  match db.metaAt p.path with
  | some m =>
    createExisting noFaults db m (m.forkedFrom == src.streamID && m.forkOffset == div.1 && m.forkByte == div.2 &&
      contentTypeMatches L m.contentType (forkContentType src p) && m.ttlSeconds == (forkTTL src p).1 &&
      m.expiresAt == (forkTTL src p).2 && m.closed == p.closed)
  | none => do
    let pre ← forkPrefix noFaults db src.streamID div.1 div.2
    let records ← initialRecords L (forkContentType src p) p.body "invalid body"
    pure (createOps p.path (newForkMeta nextID now nowMs src p (forkContentType src p) div) div.1
        (pre ++ records) now ++
        [Op.put (.refCountKey src.streamID) (loadRefCount noFaults db src.streamID + 1)],
      { status := 201, contentType := forkContentType src p
        nextOffset := tailOffset (div.1 + (pre ++ records).length), closed := p.closed })

variable {L db nextID now nowMs src p}

theorem createFork_eq (h : Forkable L db p src) : createFork L noFaults db nextID now nowMs p =
      forkPoint L db src p (loadTailSeq db src.streamID) >>= forkAt L db nextID now nowMs src p := by
  have ht : loadTombstone noFaults db p.path = .ok (db.tombstoneAt p.path) := rfl
  have hs : loadTombstone noFaults db p.sourcePath = .ok (db.tombstoneAt p.sourcePath) := rfl
  have hm : loadMeta noFaults db p.sourcePath = .ok (some src) := congrArg Except.ok h.stored
  have hp : loadMeta noFaults db p.path = .ok (db.metaAt p.path) := rfl
  have hl : loadTail noFaults db src.streamID = .ok (loadTailSeq db src.streamID) := rfl
  have hc : (p.contentType != [] && !contentTypeMatches L src.contentType p.contentType) = false := by
    rcases h.contentType with hc | hc <;> simp [hc]
  rw [createFork, ht, hs, hm, hp, forkPoint]
  simp only [orInternal, Except.mapError, bind, Except.bind, h.target, h.source, rejectIf, hl, hc, Bool.false_eq_true,
    if_false]
  cases forkOff p (loadTailSeq db src.streamID) with
  | error e => rfl
  | ok off =>
    cases forkSubOffset p (loadTailSeq db src.streamID) with
    | error e => rfl
    | ok sub =>
      cases forkDivergence L noFaults db src (loadTailSeq db src.streamID) off sub with
      | error e => rfl
      | ok div =>
        dsimp only [forkAt]
        cases db.metaAt p.path with
        | some m => rfl
        | none => rfl

end Steps

/-! ## The requested position -/

/-- The requested position in unbounded integers: `seq + sub` messages into a JSON stream, `byte + sub` bytes into the
record `seq` of another one; `none` if there is no such position. -/
def requested (json : Bool) (record : Option Bytes) (sourceTail : Nat) (off : Offset) (sub : Nat) :
    Option (Nat × Nat) :=
  if json then if off.seq + sub ≤ sourceTail then some (off.seq + sub, 0) else none
  else if off.byte + sub = 0 then if off.seq ≤ sourceTail then some (off.seq, 0) else none
  else
    match record with
    | none => none
    | some payload =>
      if sourceTail ≤ off.seq ∨ payload.length < off.byte + sub then none
      -- the end of a record is the start of the next one
      else if off.byte + sub = payload.length then some (off.seq + 1, 0)
      else some (off.seq, off.byte + sub)

/-- When 64 bits are enough. A request without an offset takes no sub-offset; a JSON offset is refused beyond the tail;
a sum of bytes that wraps may be refused all the same. -/
def SumsExact (raw : Bytes) (json : Bool) (record : Option Bytes) (sourceTail : Nat) (off : Offset) (sub : Nat) :
    Prop :=
  raw = [] ∨
    if json then
      sourceTail < off.seq ∨ (off.seq = sourceTail ∧ 0 < off.byte ∧ 0 < sub) ∨
        (¬(off.seq = sourceTail ∧ 0 < off.byte) ∧ off.seq + sub < 2 ^ 64)
    else
      off.byte + sub < 2 ^ 64 ∨ sourceTail ≤ off.seq ∨
        (2 ^ 64 < off.byte + sub ∧ ∀ payload, record = some payload → payload.length < off.byte + sub - 2 ^ 64)

/-- The request is answered 400, and nothing is written. -/
def Rejected {α : Type} (r : Except CreateResult α) : Prop := ∃ res, r = .error res ∧ res.status = 400

/-- A request is met: rejected if there is no such position, and resolved to it otherwise. -/
def Resolves (req : Option (Nat × Nat)) (res : Except CreateResult (Nat × Nat)) : Prop :=
  match req with
  | none => Rejected res
  | some div => res = .ok div

/-- A request is missed: a position is made up, or one is refused. -/
def Strays (req : Option (Nat × Nat)) (res : Except CreateResult (Nat × Nat)) : Prop :=
  (req = none ∧ ∃ div, res = .ok div) ∨ ((∃ div, req = some div) ∧ Rejected res)

section Position

variable {L : GoLib} {db : Store} {src : StreamMeta} {p : ForkParams} {sourceTail sub : Nat} {off : Offset}

theorem forkOff_eq (h : parsedFork p sourceTail = some off) : forkOff p sourceTail =
    if sourceTail < off.seq ∨ (off.seq = sourceTail ∧ 0 < off.byte) then
      .error { status := 400, msg := "fork offset beyond stream length" }
    else .ok off := by
  have key : ∀ o : Offset, (do
      rejectIf (o.seq > sourceTail ∨ (o.seq = sourceTail ∧ o.byte > 0))
        { status := 400, msg := "fork offset beyond stream length" }
      pure o) = if sourceTail < o.seq ∨ (o.seq = sourceTail ∧ 0 < o.byte) then
        (.error { status := 400, msg := "fork offset beyond stream length" } : Except CreateResult Offset)
      else .ok o := by
    intro o
    by_cases hb : sourceTail < o.seq ∨ (o.seq = sourceTail ∧ 0 < o.byte)
    · simp [rejectIf, hb, bind, Except.bind]
    · simp [rejectIf, hb, bind, Except.bind, pure, Except.pure]
  unfold parsedFork at h
  unfold forkOff
  split at h
  · rename_i hraw
    cases h
    rw [if_pos hraw]
    exact key _
  · rename_i hraw
    rw [if_neg hraw]
    obtain ⟨po, hpo, rfl⟩ := map_eq_some_iff.mp h
    rw [hpo]
    cases po with
    | isNow => exact key _
    | off o => exact key _

theorem forkSubOffset_eq (h : parsedSub p = some sub) : forkSubOffset p sourceTail =
    if 0 < sub ∧ p.forkOffsetRaw = [] then .error { status := 400, msg := "sub-offset requires fork offset" }
    else if 0 < sub ∧ sourceTail = 0 then .error { status := 400, msg := "sub-offset on empty source" }
    else .ok sub := by
  unfold parsedSub at h
  unfold forkSubOffset
  split at h
  · rename_i hset
    rw [if_pos hset, h]
  · rename_i hset
    cases h
    simp [hset]

theorem parsedSub_lt (h : parsedSub p = some sub) : sub < 2 ^ 64 := by
  unfold parsedSub parseStrictUint parseUint at h
  split at h
  · split at h
    · cases h
    · split at h
      · cases h
      · exact of_decide_eq_true (filter_eq_some_iff.mp h).2
  · cases h
    decide

theorem parsedFork_byte (h : parsedFork p sourceTail = some off) : off.byte < 10 ^ 16 := by
  unfold parsedFork at h
  split at h
  · cases h
    exact Nat.pow_pos (by decide)
  · obtain ⟨po, hpo, rfl⟩ := map_eq_some_iff.mp h
    cases po with
    | isNow => exact Nat.pow_pos (by decide)
    | off o => exact (parseOffset_fits hpo).2

theorem parsedFork_default (hraw : p.forkOffsetRaw = []) (h : parsedFork p sourceTail = some off) :
    off = ⟨sourceTail, 0⟩ := by
  rw [parsedFork, if_pos hraw] at h
  exact (some.inj h).symm

theorem forkDivergence_bytes (hj : isJSONStream L src.contentType = false) :
    forkDivergence L noFaults db src sourceTail off sub =
      if (off.byte + sub) % 2 ^ 64 = 0 then .ok (off.seq, off.byte)
      else if sourceTail ≤ off.seq then .error overshoots
      else
        match recordOf db src.streamID off.seq with
        | none => .error overshoots
        | some payload =>
          if payload.length < (off.byte + sub) % 2 ^ 64 then .error overshoots
          else if (off.byte + sub) % 2 ^ 64 = payload.length then .ok (off.seq + 1, 0)
          else .ok (off.seq, (off.byte + sub) % 2 ^ 64) := by
  rw [forkDivergence, if_neg (by rw [hj]; decide), chainRecordAt_eq]
  cases recordOf db src.streamID off.seq with
  | none => rfl
  | some payload => rfl

theorem requested_beyond (hle : sourceTail ≤ off.seq)
    (hlt : off.byte + sub = 0 → sourceTail < off.seq) : requested false record sourceTail off sub = none := by
  rw [requested.eq_def, if_neg (by decide)]
  by_cases hz : off.byte + sub = 0
  · rw [if_pos hz, if_neg (not_le.mpr (hlt hz))]
  · rw [if_neg hz]
    cases record with
    | none => rfl
    | some payload => simp only [hle, true_or, if_true]

theorem requested_overshoot (hz : 0 < off.byte + sub)
    (h : ∀ payload, record = some payload → payload.length < off.byte + sub) :
    requested false record sourceTail off sub = none := by
  rw [requested.eq_def, if_neg (by decide), if_neg (by omega)]
  cases record with
  | none => rfl
  | some payload => simp only [h payload rfl, or_true, if_true]

variable (hoff : parsedFork p sourceTail = some off) (hsub : parsedSub p = some sub)

include hoff hsub

variable (L db src) in
/-- A request is rejected on its own, or reaches the sums. -/
theorem forkPoint_cases : (Rejected (forkPoint L db src p sourceTail) ∧
      (sourceTail < off.seq ∨ (off.seq = sourceTail ∧ 0 < off.byte) ∨
        (0 < sub ∧ (p.forkOffsetRaw = [] ∨ sourceTail = 0)))) ∨
    (forkPoint L db src p sourceTail = forkDivergence L noFaults db src sourceTail off sub ∧
      off.seq ≤ sourceTail ∧ ¬(off.seq = sourceTail ∧ 0 < off.byte) ∧
      ¬(0 < sub ∧ (p.forkOffsetRaw = [] ∨ sourceTail = 0))) := by
  rw [forkPoint, forkOff_eq hoff]
  by_cases hb : sourceTail < off.seq ∨ (off.seq = sourceTail ∧ 0 < off.byte)
  · rw [if_pos hb]
    exact .inl ⟨⟨_, rfl, rfl⟩, by tauto⟩
  rw [if_neg hb, forkSubOffset_eq hsub]
  by_cases hr : 0 < sub ∧ p.forkOffsetRaw = []
  · rw [if_pos hr]
    exact .inl ⟨⟨_, rfl, rfl⟩, by tauto⟩
  rw [if_neg hr]
  by_cases he : 0 < sub ∧ sourceTail = 0
  · rw [if_pos he]
    exact .inl ⟨⟨_, rfl, rfl⟩, by tauto⟩
  rw [if_neg he]
  exact .inr ⟨rfl, by omega, by tauto, by tauto⟩

variable (htail : sourceTail < 2 ^ 64)

include htail

/-- A JSON fork: the sum of messages either stays in 64 bits, or wraps to a position below the offset. -/
theorem forkPoint_json (hj : isJSONStream L src.contentType = true) (record : Option Bytes) :
    (SumsExact p.forkOffsetRaw true record sourceTail off sub →
      Resolves (requested true record sourceTail off sub) (forkPoint L db src p sourceTail)) ∧
    (¬ SumsExact p.forkOffsetRaw true record sourceTail off sub →
      Strays (requested true record sourceTail off sub) (forkPoint L db src p sourceTail)) := by
  have hlt := parsedSub_lt hsub
  have hdef : p.forkOffsetRaw = [] → off.seq = sourceTail ∧ off.byte = 0 := by
    intro hraw
    rw [parsedFork_default hraw hoff]
    exact ⟨rfl, rfl⟩
  simp only [SumsExact, requested, if_true]
  rcases forkPoint_cases L db src hoff hsub with ⟨hrej, hwhy⟩ | ⟨heq, hle, hbyte, hfree⟩
  · by_cases hin : off.seq + sub ≤ sourceTail
    · -- only the byte, which does not count, was beyond the tail
      have hend : off.seq = sourceTail ∧ 0 < off.byte ∧ sub = 0 := by
        rcases hwhy with h | h | ⟨h, h' | h'⟩
        · omega
        · omega
        · have := hdef h'
          omega
        · omega
      rw [if_pos hin]
      refine ⟨?_, fun _ => .inr ⟨⟨_, rfl⟩, hrej⟩⟩
      rintro (hraw | h)
      · have := hdef hraw
        omega
      · omega
    · rw [if_neg hin]
      refine ⟨fun _ => hrej, fun hne => absurd ?_ hne⟩
      rcases hwhy with h | h | ⟨h, h' | h'⟩
      · exact .inr (.inl h)
      · exact .inr (.inr (.inl (by omega)))
      · exact .inl h'
      · exact .inr (by omega)
  · rw [heq, forkDivergence, if_pos hj]
    by_cases hwrap : off.seq + sub < 2 ^ 64
    · rw [mod_eq_of_lt hwrap]
      refine ⟨fun _ => ?_, fun hne => absurd (.inr (.inr (.inr ⟨hbyte, hwrap⟩))) hne⟩
      by_cases hin : off.seq + sub ≤ sourceTail
      · rw [if_pos hin, if_neg (not_lt.mpr hin)]
        rfl
      · rw [if_neg hin, if_pos (not_le.mp hin)]
        exact ⟨_, rfl, rfl⟩
    · have hmod : (off.seq + sub) % 2 ^ 64 = off.seq + sub - 2 ^ 64 := by
        rw [mod_eq_sub_mod (by omega), mod_eq_of_lt (by omega)]
      rw [hmod, if_neg (by omega), if_neg (by omega)]
      refine ⟨?_, fun _ => .inl ⟨rfl, _, rfl⟩⟩
      rintro (hraw | h)
      · exact absurd ⟨by omega, .inl hraw⟩ hfree
      · omega

/-- Another fork: the sum of bytes either stays in 64 bits, or wraps to a position in front of the byte. -/
theorem forkPoint_bytes (hj : isJSONStream L src.contentType = false)
    (hlen : ∀ v, recordOf db src.streamID off.seq = some v → v.length < 2 ^ 64) :
    (SumsExact p.forkOffsetRaw false (recordOf db src.streamID off.seq) sourceTail off sub →
      Resolves (requested false (recordOf db src.streamID off.seq) sourceTail off sub)
        (forkPoint L db src p sourceTail)) ∧
    (¬ SumsExact p.forkOffsetRaw false (recordOf db src.streamID off.seq) sourceTail off sub →
      Strays (requested false (recordOf db src.streamID off.seq) sourceTail off sub)
        (forkPoint L db src p sourceTail)) := by
  have hlt := parsedSub_lt hsub
  have hb := parsedFork_byte hoff
  rcases forkPoint_cases L db src hoff hsub with ⟨hrej, hwhy⟩ | ⟨heq, hle, hbyte, hfree⟩
  · have hend : sourceTail ≤ off.seq ∧ (off.byte + sub = 0 → sourceTail < off.seq) := by
      rcases hwhy with h | h | ⟨h, h' | h'⟩
      · omega
      · omega
      · rw [parsedFork_default h' hoff]
        exact ⟨le_refl _, by omega⟩
      · omega
    rw [requested_beyond hend.1 hend.2]
    exact ⟨fun _ => hrej, fun hne => absurd (.inr (.inr (.inl hend.1))) hne⟩
  rw [heq, forkDivergence_bytes hj]
  by_cases hwrap : off.byte + sub < 2 ^ 64
  · rw [mod_eq_of_lt hwrap]
    refine ⟨fun _ => ?_, fun hne => absurd (.inr (.inl hwrap)) hne⟩
    by_cases hz : off.byte + sub = 0
    · rw [requested.eq_def, if_neg (by decide), if_pos hz, if_pos hle, if_pos hz, show off.byte = 0 by omega]
      rfl
    rw [if_neg hz]
    by_cases hend : sourceTail ≤ off.seq
    · rw [if_pos hend, requested_beyond hend (fun h => absurd h hz)]
      exact ⟨_, rfl, rfl⟩
    rw [if_neg hend, requested.eq_def, if_neg (by decide), if_neg hz]
    cases recordOf db src.streamID off.seq with
    | none => exact ⟨_, rfl, rfl⟩
    | some payload =>
      dsimp only
      by_cases hover : payload.length < off.byte + sub
      · rw [if_pos (.inr hover), if_pos hover]
        exact ⟨_, rfl, rfl⟩
      rw [if_neg (by omega), if_neg hover]
      by_cases hfull : off.byte + sub = payload.length
      · rw [if_pos hfull, if_pos hfull]
        rfl
      · rw [if_neg hfull, if_neg hfull]
        rfl
  -- the sum wraps: the request lies beyond every record, and only what is left of the sum is compared
  have hmod : (off.byte + sub) % 2 ^ 64 = off.byte + sub - 2 ^ 64 := by
    rw [mod_eq_sub_mod (by omega), mod_eq_of_lt (by omega)]
  have hraw : p.forkOffsetRaw ≠ [] := fun h => hfree ⟨by omega, .inl h⟩
  have hseq : ¬ sourceTail ≤ off.seq := by omega
  have hexact : SumsExact p.forkOffsetRaw false (recordOf db src.streamID off.seq) sourceTail off sub ↔
      2 ^ 64 < off.byte + sub ∧ ∀ payload, recordOf db src.streamID off.seq = some payload →
        payload.length < off.byte + sub - 2 ^ 64 := by
    simp only [SumsExact, hraw, hwrap, hseq, Bool.false_eq_true, if_false, false_or]
  rw [hmod, hexact, requested_overshoot (by omega) fun v hv => by have := hlen v hv; omega]
  by_cases hz : off.byte + sub - 2 ^ 64 = 0
  · rw [if_pos hz]
    exact ⟨by omega, fun _ => .inl ⟨rfl, _, rfl⟩⟩
  rw [if_neg hz, if_neg hseq]
  cases recordOf db src.streamID off.seq with
  | none => exact ⟨fun _ => ⟨_, rfl, rfl⟩, fun hne => absurd ⟨by omega, fun _ h => nomatch h⟩ hne⟩
  | some payload =>
    dsimp only
    by_cases hover : payload.length < off.byte + sub - 2 ^ 64
    · rw [if_pos hover]
      refine ⟨fun _ => ⟨_, rfl, rfl⟩, fun hne => absurd ⟨by omega, fun v hv => ?_⟩ hne⟩
      cases hv
      exact hover
    · rw [if_neg hover]
      refine ⟨fun h => absurd (h.2 payload rfl) hover, fun _ => .inl ⟨rfl, ?_⟩⟩
      split <;> exact ⟨_, rfl⟩

/-- **The divergence point is the requested position** if the sums are exact, and is missed otherwise. -/
theorem forkPoint_spec (hlen : ∀ v, recordOf db src.streamID off.seq = some v → v.length < 2 ^ 64) :
    (SumsExact p.forkOffsetRaw (isJSONStream L src.contentType) (recordOf db src.streamID off.seq) sourceTail off sub →
      Resolves (requested (isJSONStream L src.contentType) (recordOf db src.streamID off.seq) sourceTail off sub)
        (forkPoint L db src p sourceTail)) ∧
    (¬ SumsExact p.forkOffsetRaw (isJSONStream L src.contentType) (recordOf db src.streamID off.seq)
    sourceTail off sub →
      Strays (requested (isJSONStream L src.contentType) (recordOf db src.streamID off.seq) sourceTail off sub)
        (forkPoint L db src p sourceTail)) := by
  cases hj : isJSONStream L src.contentType with
  | true => exact forkPoint_json hoff hsub htail hj _
  | false => exact forkPoint_bytes hoff hsub htail hj hlen

end Position

/-! ## What is written at the position -/

/-- The handler panics and answers nothing. -/
def Panics (plan : CreatePlan) : Prop := ∃ res, plan = .error res ∧ res.status = 0

/-- The test for it. -/
def panics : CreatePlan → Bool
  | .error res => res.status == 0
  | .ok _ => false

theorem panics_iff {plan : CreatePlan} : panics plan = true ↔ Panics plan := by
  cases plan with
  | ok r => exact ⟨nofun, fun ⟨_, h, _⟩ => nomatch h⟩
  | error res =>
    rw [panics, beq_iff_eq]
    exact ⟨fun h => ⟨res, rfl, h⟩, fun ⟨_, he, h⟩ => by cases he; exact h⟩

/-- The part of the diverging record that the fork keeps. -/
def kept (record : Option Bytes) (byte : Nat) : List Bytes :=
  if byte = 0 then [] else record.toList.map (·.take byte)

section Plan

variable {L : GoLib} {db : Store} {nextID : Nat} {now nowMs : Int64} {src : StreamMeta} {p : ForkParams}
  {div : Nat × Nat}

variable (nextID now nowMs) in
theorem createFork_rejected (hf : Forkable L db p src)
    (h : Rejected (forkPoint L db src p (loadTailSeq db src.streamID))) :
    Rejected (createFork L noFaults db nextID now nowMs p) := by
  obtain ⟨res, hres, h400⟩ := h
  rw [createFork_eq hf, hres]
  exact ⟨res, rfl, h400⟩

variable (nextID now nowMs) in
theorem createFork_passed (hf : Forkable L db p src)
    (h : forkPoint L db src p (loadTailSeq db src.streamID) = .ok div) :
    createFork L noFaults db nextID now nowMs p = forkAt L db nextID now nowMs src p div := by
  rw [createFork_eq hf, h]
  rfl

theorem requested_within {sourceTail sub : Nat} {off : Offset}
    (h : requested json record sourceTail off sub = some div) (hb : 0 < div.2) :
    div.1 = off.seq ∧ ∃ payload, record = some payload ∧ div.2 < payload.length := by
  rw [requested.eq_def] at h
  split at h
  · split at h
    · cases h
      exact absurd hb (lt_irrefl 0)
    · cases h
  · split at h
    · split at h
      · cases h
        exact absurd hb (lt_irrefl 0)
      · cases h
    · split at h
      · cases h
      · rename_i payload
        split at h
        · cases h
        · rename_i hfit
          split at h
          · cases h
            exact absurd hb (lt_irrefl 0)
          · cases h
            exact ⟨rfl, payload, rfl, by dsimp only; omega⟩

theorem forkPrefix_requested {sourceTail sub : Nat} {off : Offset}
    (h : requested json (recordOf db src.streamID off.seq) sourceTail off sub = some div) :
    forkPrefix noFaults db src.streamID div.1 div.2 = .ok (kept (recordOf db src.streamID div.1) div.2) := by
  rw [forkPrefix, kept]
  by_cases hb : 0 < div.2
  · obtain ⟨hseq, payload, hrec, hlt⟩ := requested_within h hb
    rw [if_pos hb, if_neg (by omega), chainRecordAt_eq, hseq, hrec]
    simp only [if_neg (lt_asymm hlt), toList_some, map_cons, map_nil]
  · rw [if_neg hb, if_pos (by omega)]

theorem createExisting_answers (m : StreamMeta) (same : Bool) : ¬ Panics (createExisting noFaults db m same) := by
  have hl : loadTail noFaults db m.streamID = .ok (loadTailSeq db m.streamID) := rfl
  rintro ⟨res, hres, h0⟩
  rw [createExisting, hl] at hres
  cases same with
  | false => cases hres; cases h0
  | true => cases hres; cases h0

theorem initialRecords_status {ct body : Bytes} {msg : String} {res : CreateResult}
    (h : initialRecords L ct body msg = .error res) : res.status = 400 := by
  unfold initialRecords at h
  split at h
  · cases h
  · cases hr : forkBodyRecords L ct body with
    | ok records => rw [hr] at h; cases h
    | error e => rw [hr] at h; cases h; rfl

theorem forkAt_fresh (hfresh : db.metaAt p.path = none)
    (hpre : forkPrefix noFaults db src.streamID div.1 div.2 = .ok pre)
    (hrec : initialRecords L (forkContentType src p) p.body "invalid body" = .ok records) :
    forkAt L db nextID now nowMs src p div =
      .ok (createOps p.path (newForkMeta nextID now nowMs src p (forkContentType src p) div) div.1
          (pre ++ records) now ++
          [Op.put (.refCountKey src.streamID) (loadRefCount noFaults db src.streamID + 1)],
        { status := 201, contentType := forkContentType src p
          nextOffset := tailOffset (div.1 + (pre ++ records).length), closed := p.closed }) := by
  rw [forkAt, hfresh]
  simp only [hpre, hrec, bind, Except.bind, pure, Except.pure]

theorem forkAt_answers (hpre : forkPrefix noFaults db src.streamID div.1 div.2 = .ok pre) :
    ¬ Panics (forkAt L db nextID now nowMs src p div) := by
  cases hm : db.metaAt p.path with
  | some m =>
    rw [forkAt, hm]
    exact createExisting_answers m _
  | none =>
    cases hrec : initialRecords L (forkContentType src p) p.body "invalid body" with
    | error e =>
      rintro ⟨res, hres, h0⟩
      rw [forkAt, hm] at hres
      simp only [hpre, hrec, bind, Except.bind] at hres
      cases hres
      have := initialRecords_status hrec
      omega
    | ok records =>
      rintro ⟨res, hres, -⟩
      rw [forkAt_fresh hm hpre hrec] at hres
      cases hres

theorem forkAt_not_rejected (hfresh : db.metaAt p.path = none)
    (hrec : initialRecords L (forkContentType src p) p.body "invalid body" = .ok records) :
    ¬ Rejected (forkAt L db nextID now nowMs src p div) := by
  rintro ⟨res, hres, h400⟩
  cases hpre : forkPrefix noFaults db src.streamID div.1 div.2 with
  | ok pre =>
    rw [forkAt_fresh hfresh hpre hrec] at hres
    cases hres
  | error e =>
    rw [forkAt, hfresh] at hres
    simp only [hpre, bind, Except.bind] at hres
    cases hres
    unfold forkPrefix at hpre
    split at hpre
    · split at hpre
      · split at hpre
        · cases hpre
          cases h400
        · cases hpre
      · cases hpre
        cases h400
    · cases hpre

end Plan

/-- The request is met: answered 400 if there is no such position; otherwise a fork is written that diverges at it and
keeps the bytes in front of it. -/
def Answers (L : GoLib) (db : Store) (nextID : Nat) (now nowMs : Int64) (src : StreamMeta) (p : ForkParams)
    (req : Option (Nat × Nat)) : Prop :=
  match req with
  | none => Rejected (createFork L noFaults db nextID now nowMs p)
  | some div => ∃ records res, initialRecords L (forkContentType src p) p.body "invalid body" = .ok records ∧
    createFork L noFaults db nextID now nowMs p =
      .ok (createOps p.path (newForkMeta nextID now nowMs src p (forkContentType src p) div) div.1
        (kept (recordOf db src.streamID div.1) div.2 ++ records) now ++
          [Op.put (.refCountKey src.streamID) (loadRefCount noFaults db src.streamID + 1)], res)

/-- **Fork positions are exact if and only if the sums are.** If they are, a position beyond the source is answered 400,
any other one is passed on as it is, and the handler never panics. For a free path and a body that can be parsed, the
fork is met exactly then. -/
theorem fork_position_exact_iff {L : GoLib} {db : Store} (nextID : Nat) (now nowMs : Int64) {src : StreamMeta}
    {p : ForkParams} {off : Offset} {sub : Nat} (hf : Forkable L db p src)
    (htail : loadTailSeq db src.streamID < 2 ^ 64)
    (hlen : ∀ v, recordOf db src.streamID off.seq = some v → v.length < 2 ^ 64)
    (hoff : parsedFork p (loadTailSeq db src.streamID) = some off) (hsub : parsedSub p = some sub) :
    let json := isJSONStream L src.contentType
    let record := recordOf db src.streamID off.seq
    let req := requested json record (loadTailSeq db src.streamID) off sub
    let plan := createFork L noFaults db nextID now nowMs p
    (SumsExact p.forkOffsetRaw json record (loadTailSeq db src.streamID) off sub →
      ¬ Panics plan ∧ (req = none → Rejected plan) ∧
        ∀ div, req = some div → plan = forkAt L db nextID now nowMs src p div) ∧
    (db.metaAt p.path = none →
      (∃ records, initialRecords L (forkContentType src p) p.body "invalid body" = .ok records) →
      (Answers L db nextID now nowMs src p req ↔
        SumsExact p.forkOffsetRaw json record (loadTailSeq db src.streamID) off sub)) := by
  intro json record req plan
  obtain ⟨hexact, hinexact⟩ := forkPoint_spec (L := L) hoff hsub htail hlen
  refine ⟨fun h => ?_, fun hfresh ⟨records, hrec⟩ => ⟨fun h => ?_, fun h => ?_⟩⟩
  · have hres : Resolves req _ := hexact h
    cases hreq : req with
    | none =>
      rw [hreq] at hres
      refine ⟨?_, fun _ => createFork_rejected nextID now nowMs hf hres, fun _ hne => nomatch hne⟩
      rintro ⟨res, he, h0⟩
      obtain ⟨res', he', h400⟩ := createFork_rejected nextID now nowMs hf hres
      cases he.symm.trans he'
      omega
    | some div =>
      rw [hreq] at hres
      refine ⟨?_, (nomatch ·), ?_⟩
      · rw [show plan = _ from createFork_passed nextID now nowMs hf hres]
        exact forkAt_answers (forkPrefix_requested hreq)
      · intro div' he
        cases he
        exact createFork_passed nextID now nowMs hf hres
  · by_contra hne
    rcases hinexact hne with ⟨hnone, div, hdiv⟩ | ⟨⟨div, hsome⟩, hrej⟩
    · rw [show req = none from hnone] at h
      have hrej : Rejected (createFork L noFaults db nextID now nowMs p) := h
      rw [createFork_passed nextID now nowMs hf hdiv] at hrej
      exact forkAt_not_rejected hfresh hrec hrej
    · rw [show req = some div from hsome] at h
      obtain ⟨_, _, _, hok⟩ := h
      obtain ⟨res, he, -⟩ := createFork_rejected nextID now nowMs hf hrej
      cases he.symm.trans hok
  · have hres : Resolves req _ := hexact h
    cases hreq : req with
    | none =>
      rw [hreq] at hres
      exact createFork_rejected nextID now nowMs hf hres
    | some div =>
      rw [hreq] at hres
      exact ⟨records, _, hrec, (createFork_passed nextID now nowMs hf hres).trans
        (forkAt_fresh hfresh (forkPrefix_requested hreq) hrec)⟩

/-! ## A sample source -/

/-- The path of a stream of bytes. -/
def bytesPath : Bytes := [47, 98]

/-- A JSON stream with one message, and a stream of bytes with one record of three bytes. -/
def sourceEvents : List Event :=
  [{ action := .createStream { path := samplePath, contentType := contentTypeJSON } 0 0 },
    { action := .spawn samplePath },
    { action := .burst samplePath 0 [{ records := [[49]], hasBody := true, contentType := contentTypeJSON }] },
    { action := .createStream { path := bytesPath, contentType := [], body := [1, 2, 3] } 0 0 }]

/-- Fork the JSON stream at its tail, `2^64 - 1` messages further. -/
def wrappedFork : ForkParams where
  path := forkPath
  sourcePath := samplePath
  forkOffsetRaw := ascii "0000000000000001_0000000000000000"
  subOffsetRaw := ascii "18446744073709551615"
  subOffsetSet := true

/-- Fork the stream of bytes at its fifth byte, `2^64 - 5` bytes further. -/
def wrappedPrefix : ForkParams where
  path := forkPath
  sourcePath := bytesPath
  forkOffsetRaw := ascii "0000000000000000_0000000000000005"
  subOffsetRaw := ascii "18446744073709551611"
  subOffsetSet := true

/-- The position at which a plan forks. -/
def divergesAt (plan : CreatePlan) (path : Bytes) : Option (Nat × Nat) :=
  match plan with
  | .ok (ops, _) => (Store.metaAt (applyOps ∅ ops) path).map fun m => (m.forkOffset, m.forkByte)
  | .error _ => none

/-- A JSON stream of one message is forked at message 0 where message `2^64` was requested; and for a position behind
the end of a record the handler panics. -/
theorem fork_sums_wrap : ∃ srv, Reach (step plainLib) Any (newServer ∅ 0) srv ∧
    (∃ src, srv.db.metaAt samplePath = some src ∧ isJSONStream plainLib src.contentType = true ∧
      loadTailSeq srv.db src.streamID = 1 ∧ parsedFork wrappedFork 1 = some ⟨1, 0⟩ ∧
      parsedSub wrappedFork = some (2 ^ 64 - 1) ∧ requested true (recordOf srv.db 1 1) 1 ⟨1, 0⟩ (2 ^ 64 - 1) = none ∧
      divergesAt (createFork plainLib noFaults srv.db srv.nextID 0 0 wrappedFork) forkPath = some (0, 0)) ∧
    Panics (createFork plainLib noFaults srv.db srv.nextID 0 0 wrappedPrefix) := by
  obtain ⟨srv, hsrv, src, hm, hjson, htail, hdiv, hpanic⟩ : ∃ srv ∈ run (step plainLib) (newServer ∅ 0)
      sourceEvents,
      ∃ src ∈ srv.db.metaAt samplePath, isJSONStream plainLib src.contentType = true ∧
      loadTailSeq srv.db src.streamID = 1 ∧ divergesAt (createFork plainLib noFaults srv.db srv.nextID 0 0
      wrappedFork) forkPath = some (0, 0) ∧ panics (createFork plainLib noFaults srv.db srv.nextID 0 0
      wrappedPrefix) = true := by decide +kernel
  exact ⟨srv, reach_any hsrv, ⟨src, hm, hjson, htail, by decide +kernel, by decide +kernel, rfl, hdiv⟩,
    panics_iff.mp hpanic⟩

/-- A stream of bytes with one record of three bytes. -/
def bytesMeta : StreamMeta where
  streamID := 1
  contentType := []

def bytesStore : Store := applyOps ∅ (createOps bytesPath bytesMeta 0 [[1, 2, 3]] 0)

/-- Fork it behind its second byte: one by the offset, and one by the sub-offset. -/
def innerFork : ForkParams where
  path := forkPath
  sourcePath := bytesPath
  forkOffsetRaw := ascii "0000000000000000_0000000000000001"
  subOffsetRaw := ascii "1"
  subOffsetSet := true

theorem forkable_innerFork : Forkable plainLib bytesStore innerFork bytesMeta where
  target := by decide +kernel
  source := by decide +kernel
  stored := by decide +kernel
  contentType := Or.inl rfl

theorem fork_position_exact_iff_sample :
    requested false (some [1, 2, 3]) 1 ⟨0, 1⟩ 1 = some (0, 2) ∧ kept (some [1, 2, 3]) 2 = [[1, 2]] ∧
      Answers plainLib bytesStore 2 0 0 bytesMeta innerFork (some (0, 2)) := by
  have htail : loadTailSeq bytesStore bytesMeta.streamID = 1 := by decide +kernel
  have hrec : recordOf bytesStore bytesMeta.streamID 0 = some [1, 2, 3] := by decide +kernel
  have hjson : isJSONStream plainLib bytesMeta.contentType = false := by decide +kernel
  have hoff : parsedFork innerFork (loadTailSeq bytesStore bytesMeta.streamID) = some ⟨0, 1⟩ := by decide +kernel
  have hsub : parsedSub innerFork = some 1 := by decide +kernel
  have hreq : requested false (some [1, 2, 3]) 1 ⟨0, 1⟩ 1 = some (0, 2) := rfl
  obtain ⟨-, h⟩ := fork_position_exact_iff 2 0 0 forkable_innerFork (by rw [htail]; decide)
    (fun v hv => by cases hrec.symm.trans hv; decide) hoff hsub
  rw [htail, hrec, hjson, hreq] at h
  exact ⟨hreq, rfl, (h (by decide +kernel) ⟨[], rfl⟩).mpr (.inr (.inl (by decide)))⟩

/-! ## Forks in process -/

/-- The errors of a creation in process. -/
inductive CreateErr where
  | conflict
  | notFound
  | badRequest (msg : String)
  | internal
deriving DecidableEq, Repr

def createResultToOffset (res : CreateResult) : Except CreateErr Offset :=
  match res.status with
  | 201 | 200 => .ok res.nextOffset
  | 409 => .error .conflict
  | 404 => .error .notFound
  | 400 => .error (.badRequest res.msg)
  | _ => .error .internal

/-- The request of a fork in process: the offset travels as a text. -/
def forkRequest (path sourcePath : Bytes) (pos : Offset) : ForkParams where
  path := path
  sourcePath := sourcePath
  forkOffsetRaw := pos.string

/-- `CreateFork` in process: what is committed, and what is returned. -/
def Server.createFork (L : GoLib) (srv : Server) (flt : Faults) (now nowMs : Int64) (path sourcePath : Bytes)
    (pos : Offset) : List Op × Except CreateErr Offset :=
  match Yasdb.createFork L flt srv.db srv.nextID now nowMs (forkRequest path sourcePath pos) with
  | .error res => ([], createResultToOffset res)
  | .ok (ops, res) => (ops, createResultToOffset res)

theorem digit_ofNat : ∀ d : Fin 10, digit (UInt8.ofNat (48 + d.val)) = some d.val := by decide

theorem foldlM_padDigits : ∀ k v n : Nat,
    (padDigits k v).foldlM (fun n b => (digit b).map fun d => n * 10 + d) n = some (n * 10 ^ k + v % 10 ^ k)
  | 0, v, n => by simp [padDigits, mod_one]
  | k + 1, v, n => by
    have hd := digit_ofNat ⟨v % 10, mod_lt v (by decide)⟩
    rw [padDigits, foldlM_append, foldlM_padDigits k (v / 10) n]
    simp only [bind_eq_bind, bind_some, foldlM_cons, foldlM_nil, hd, map_some]
    rw [pow_succ, mul_comm (10 ^ k) 10, mod_mul, mul_left_comm n 10]
    exact congrArg some (by omega)

theorem parseUint_padDigits (v : Nat) : parseUint (padDigits 16 v) = some (v % 10 ^ 16) := by
  have hlt : v % 10 ^ 16 < 10 ^ 16 := mod_lt _ (by decide)
  have hne : padDigits 16 v ≠ [] := by
    intro h
    have := length_padDigits 16 v
    rw [h] at this
    cases this
  rw [parseUint, if_neg hne, foldlM_padDigits, zero_mul, zero_add, filter_some, if_pos (decide_eq_true (by omega))]

/-- **The text of an offset is read back modulo `10^16`.** -/
theorem parseOffset_string (o : Offset) : parseOffset o.string = some (.off ⟨o.seq % 10 ^ 16, o.byte % 10 ^ 16⟩) := by
  have hs := string_eq o
  have hne : ∀ s : Bytes, s.length < 33 → o.string ≠ s := fun s hlt he => by
    rw [← he, length_string] at hlt
    exact absurd hlt (by decide)
  have h16 : o.string[16]? = some 95 := by
    rw [hs, getElem?_append_right (by simp), length_padDigits]
    rfl
  have htake : o.string.take 16 = padDigits 16 o.seq := by
    rw [hs, take_append_of_le_length (by simp), take_of_length_le (by simp)]
  have hdrop : o.string.drop 17 = padDigits 16 o.byte := by
    rw [hs, drop_append]
    simp
  rw [parseOffset, if_neg, if_neg (hne _ (by decide)), if_neg, htake, hdrop, parseUint_padDigits, parseUint_padDigits]
  · rw [h16, length_string]
    decide
  · rintro (h | h)
    · exact hne _ (by decide) h
    · exact hne _ (by decide) h

/-- What the text of an offset carries. -/
def Offset.carried (o : Offset) : Offset := ⟨o.seq % 10 ^ 16, o.byte % 10 ^ 16⟩

theorem Offset.Fits.carried_eq {o : Offset} (h : o.Fits) : o.carried = o := by
  rw [Offset.carried, mod_eq_of_lt h.1, mod_eq_of_lt h.2]

/-- The offset lies beyond the source: behind its tail, or behind the end of a record of bytes. -/
def Beyond (json : Bool) (record : Nat → Option Bytes) (sourceTail : Nat) (pos : Offset) : Prop :=
  sourceTail < pos.seq ∨ (pos.seq = sourceTail ∧ 0 < pos.byte) ∨
    (json = false ∧ 0 < pos.byte ∧ ∀ v, record pos.seq = some v → v.length < pos.byte)

/-- The position of an offset: a JSON stream ignores the byte, and the end of a record is the start of the next one. -/
def position (json : Bool) (record : Nat → Option Bytes) (pos : Offset) : Nat × Nat :=
  if json then (pos.seq, 0)
  else if 0 < pos.byte ∧ (record pos.seq).map List.length = some pos.byte then (pos.seq + 1, 0)
  else (pos.seq, pos.byte)

theorem position_bytes (record : Nat → Option Bytes) (pos : Offset) : position false record pos =
    if 0 < pos.byte ∧ (record pos.seq).map List.length = some pos.byte then (pos.seq + 1, 0)
    else (pos.seq, pos.byte) := rfl

section InProcess

variable {L : GoLib} {db : Store} {src : StreamMeta} {p : ForkParams} {sourceTail : Nat} {off : Offset}

variable (L db src) in
/-- An offset alone is resolved to its position, or rejected beyond the source. -/
theorem forkPoint_offset (hoff : parsedFork p sourceTail = some off) (hsub : parsedSub p = some 0) (hfit : off.Fits) :
    (Beyond (isJSONStream L src.contentType) (recordOf db src.streamID) sourceTail off ∧
      Rejected (forkPoint L db src p sourceTail)) ∨
    (¬ Beyond (isJSONStream L src.contentType) (recordOf db src.streamID) sourceTail off ∧
      forkPoint L db src p sourceTail = .ok (position (isJSONStream L src.contentType) (recordOf db src.streamID)
        off)) := by
  obtain ⟨hseq, hb⟩ := hfit
  rcases forkPoint_cases L db src hoff hsub with ⟨hrej, hwhy⟩ | ⟨heq, hle, hbyte, -⟩
  · refine .inl ⟨?_, hrej⟩
    rcases hwhy with h | h | ⟨h, -⟩
    · exact .inl h
    · exact .inr (.inl h)
    · exact absurd h (lt_irrefl 0)
  rw [heq]
  cases hj : isJSONStream L src.contentType with
  | true =>
    rw [forkDivergence, if_pos hj, add_zero, mod_eq_of_lt (by omega)]
    rw [if_neg (by omega)]
    refine .inr ⟨?_, rfl⟩
    rintro (h | h | ⟨h, -⟩)
    · omega
    · exact hbyte h
    · cases h
  | false =>
    rw [forkDivergence_bytes hj, add_zero, mod_eq_of_lt (by omega)]
    by_cases hz : off.byte = 0
    · rw [if_pos hz, position_bytes, if_neg (by omega)]
      refine .inr ⟨?_, rfl⟩
      rintro (h | h | h) <;> omega
    rw [if_neg hz, if_neg (by omega)]
    cases hr : recordOf db src.streamID off.seq with
    | none => exact .inl ⟨.inr (.inr ⟨rfl, by omega, fun _ h => nomatch hr.symm.trans h⟩), _, rfl, rfl⟩
    | some payload =>
      dsimp only
      by_cases hover : payload.length < off.byte
      · rw [if_pos hover]
        exact .inl ⟨.inr (.inr ⟨rfl, by omega, fun _ h => by cases hr.symm.trans h; exact hover⟩), _, rfl, rfl⟩
      rw [if_neg hover, position_bytes, hr]
      refine .inr ⟨?_, ?_⟩
      · rintro (h | h | ⟨-, -, h⟩)
        · omega
        · omega
        · exact hover (h payload hr)
      · by_cases hfull : off.byte = payload.length
        · rw [if_pos hfull, if_pos ⟨by omega, congrArg some hfull.symm⟩]
        · rw [if_neg hfull, if_neg fun h => hfull (some.inj h.2).symm]

/-- The prefix of a position that is not beyond the source is in range. -/
theorem forkPrefix_position (h : ¬ Beyond json (recordOf db src.streamID) sourceTail off) :
    forkPrefix noFaults db src.streamID (position json (recordOf db src.streamID) off).1
        (position json (recordOf db src.streamID) off).2 =
      .ok (kept (recordOf db src.streamID (position json (recordOf db src.streamID) off).1)
        (position json (recordOf db src.streamID) off).2) := by
  have hzero : ∀ seq, forkPrefix noFaults db src.streamID seq 0 = .ok (kept (recordOf db src.streamID seq) 0) :=
    fun _ => rfl
  cases json with
  | true => exact hzero _
  | false =>
    rw [position_bytes]
    split
    · exact hzero _
    · rename_i hend
      by_cases hz : off.byte = 0
      · rw [hz]
        exact hzero _
      -- the record is there, and the byte in front of its end
      obtain ⟨payload, hr, hle⟩ : ∃ payload, recordOf db src.streamID off.seq = some payload ∧
          off.byte ≤ payload.length := by
        by_contra hne
        refine h (.inr (.inr ⟨rfl, by omega, fun v hv => ?_⟩))
        by_contra hlt
        exact hne ⟨v, hv, by omega⟩
      rw [forkPrefix, if_pos (by omega), chainRecordAt_eq, kept, if_neg hz, hr]
      dsimp only
      rw [if_neg (by omega)]
      rfl

end InProcess

/-- The batch of a fork without a body that diverges at `div`. -/
def forkBatch (db : Store) (nextID : Nat) (now nowMs : Int64) (src : StreamMeta) (p : ForkParams) (div : Nat × Nat) :
    List Op :=
  createOps p.path (newForkMeta nextID now nowMs src p (forkContentType src p) div) div.1
      (kept (recordOf db src.streamID div.1) div.2) now ++
    [Op.put (.refCountKey src.streamID) (loadRefCount noFaults db src.streamID + 1)]

/-- The batch tells the position. -/
theorem forkBatch_inj {db : Store} {nextID : Nat} {now nowMs : Int64} {src : StreamMeta} {p : ForkParams}
    {div div' : Nat × Nat} (h : forkBatch db nextID now nowMs src p div = forkBatch db nextID now nowMs src p div') :
    div = div' := by
  have hmeta : ∀ d, Batch.effect (.metaKey p.path) (forkBatch db nextID now nowMs src p d) =
      some (some (newForkMeta nextID now nowMs src p (forkContentType src p) d)) := by
    intro d
    rw [forkBatch, effect_append, effect_createOps (by simp) (by simp)]
    simp
  have he := (hmeta div).symm.trans ((congrArg (Batch.effect (.metaKey p.path)) h).trans (hmeta div'))
  have hm : newForkMeta nextID now nowMs src p (forkContentType src p) div =
      newForkMeta nextID now nowMs src p (forkContentType src p) div' := some.inj (some.inj he)
  exact Prod.ext (congrArg StreamMeta.forkOffset hm) (congrArg StreamMeta.forkByte hm)

theorem forkBatch_ne_nil (db : Store) (nextID : Nat) (now nowMs : Int64) (src : StreamMeta) (p : ForkParams)
    (div : Nat × Nat) : forkBatch db nextID now nowMs src p div ≠ [] := by
  simp [forkBatch]

/-- A fork in process is met: an error beyond the source; otherwise a fork that diverges at the position of the offset,
with the bytes in front of it. -/
def Server.MeetsFork (L : GoLib) (srv : Server) (now nowMs : Int64) (path sourcePath : Bytes) (src : StreamMeta)
    (pos : Offset) : Prop :=
  let json := isJSONStream L src.contentType
  let record := recordOf srv.db src.streamID
  let out := srv.createFork L noFaults now nowMs path sourcePath pos
  let div := position json record pos
  (Beyond json record (loadTailSeq srv.db src.streamID) pos → out.1 = [] ∧ ∃ e, out.2 = .error e) ∧
  (¬ Beyond json record (loadTailSeq srv.db src.streamID) pos →
    out.1 = forkBatch srv.db srv.nextID now nowMs src (forkRequest path sourcePath pos) div ∧
      out.2 = .ok (tailOffset (div.1 + (kept (record div.1) div.2).length)))

/-- The text carries the offset, or what it loses does not matter. -/
def Carries (json : Bool) (record : Nat → Option Bytes) (sourceTail : Nat) (pos : Offset) : Prop :=
  pos.Fits ∨ (Beyond json record sourceTail pos ∧ Beyond json record sourceTail pos.carried) ∨
    (json = true ∧ pos.seq < 10 ^ 16 ∧ pos.seq < sourceTail)

theorem not_beyond_json {record : Nat → Option Bytes} {sourceTail : Nat} {pos : Offset}
    (hj : json = true) (hlt : pos.seq < sourceTail) : ¬ Beyond json record sourceTail pos := by
  rintro (h | h | ⟨h, -⟩)
  · omega
  · omega
  · cases hj.symm.trans h

/-- An offset within the source and what its text carries have the same position. -/
theorem position_carried_iff {record : Nat → Option Bytes} {sourceTail : Nat} {pos : Offset}
    (h : ¬ Beyond json record sourceTail pos) : position json record pos.carried = position json record pos ↔
      pos.Fits ∨ (json = true ∧ pos.seq < 10 ^ 16 ∧ pos.seq < sourceTail) := by
  have hs := mod_le pos.seq (10 ^ 16)
  have hss : pos.seq % 10 ^ 16 < 10 ^ 16 := mod_lt _ (by decide)
  constructor
  · intro he
    cases json with
    | true =>
      have hseq : pos.seq % 10 ^ 16 = pos.seq := (mk.inj he).1
      by_cases hb : pos.byte < 10 ^ 16
      · exact .inl ⟨by omega, hb⟩
      · refine .inr ⟨rfl, by omega, ?_⟩
        by_contra hlt
        rcases lt_or_eq_of_le (not_lt.mp hlt) with hlt | heq
        · exact h (.inl hlt)
        · exact h (.inr (.inl ⟨heq.symm, by omega⟩))
    | false =>
      -- what the text loses is never made up for by the end of a record
      refine .inl ?_
      rw [position_bytes, position_bytes] at he
      have hcs : pos.carried.seq = pos.seq % 10 ^ 16 := rfl
      have hcb : pos.carried.byte = pos.byte % 10 ^ 16 := rfl
      by_cases hend : 0 < pos.carried.byte ∧ (record pos.carried.seq).map List.length = some pos.carried.byte
      · rw [if_pos hend] at he
        by_cases hend' : 0 < pos.byte ∧ (record pos.seq).map List.length = some pos.byte
        · rw [if_pos hend'] at he
          have hseq : pos.carried.seq = pos.seq := succ.inj (mk.inj he).1
          rw [hseq] at hend
          have hbyte : pos.carried.byte = pos.byte := some.inj (hend.2.symm.trans hend'.2)
          exact ⟨by omega, by omega⟩
        · rw [if_neg hend'] at he
          have hbyte : 0 = pos.byte := (mk.inj he).2
          omega
      · rw [if_neg hend] at he
        by_cases hend' : 0 < pos.byte ∧ (record pos.seq).map List.length = some pos.byte
        · rw [if_pos hend'] at he
          have hseq : pos.carried.seq = pos.seq + 1 := (mk.inj he).1
          omega
        · rw [if_neg hend'] at he
          have hseq : pos.carried.seq = pos.seq := (mk.inj he).1
          have hbyte : pos.carried.byte = pos.byte := (mk.inj he).2
          exact ⟨by omega, by omega⟩
  · rintro (hfit | ⟨rfl, hseq, -⟩)
    · rw [hfit.carried_eq]
    · exact congrArg (·, 0) (mod_eq_of_lt hseq)

section Forks

variable {L : GoLib} {srv : Server} (now nowMs : Int64) {src : StreamMeta} {path sourcePath : Bytes} {pos : Offset}
  (hf : Forkable L srv.db (forkRequest path sourcePath pos) src)

include hf

/-- What is done for an offset depends on what its text carries. -/
theorem Server.createFork_cases (hfresh : srv.db.metaAt path = none) :
    let json := isJSONStream L src.contentType
    let record := recordOf srv.db src.streamID
    let out := srv.createFork L noFaults now nowMs path sourcePath pos
    let div := position json record pos.carried
    (Beyond json record (loadTailSeq srv.db src.streamID) pos.carried ∧ out.1 = [] ∧ ∃ e, out.2 = .error e) ∨
    (¬ Beyond json record (loadTailSeq srv.db src.streamID) pos.carried ∧
      out.1 = forkBatch srv.db srv.nextID now nowMs src (forkRequest path sourcePath pos) div ∧
      out.2 = .ok (tailOffset (div.1 + (kept (record div.1) div.2).length))) := by
  intro json record out div
  have hoff : parsedFork (forkRequest path sourcePath pos) (loadTailSeq srv.db src.streamID) = some pos.carried := by
    have hne : (forkRequest path sourcePath pos).forkOffsetRaw ≠ [] := fun h => by
      have := length_string pos
      rw [show pos.string = [] from h] at this
      cases this
    rw [parsedFork, if_neg hne, show (forkRequest path sourcePath pos).forkOffsetRaw = pos.string from rfl,
      parseOffset_string]
    rfl
  have hfit : pos.carried.Fits := ⟨mod_lt _ (by decide), mod_lt _ (by decide)⟩
  rcases forkPoint_offset L srv.db src hoff rfl hfit with ⟨hb, hrej⟩ | ⟨hb, hok⟩
  · obtain ⟨res, hres, h400⟩ := createFork_rejected srv.nextID now nowMs hf hrej
    have hout : out = ([], .error (.badRequest res.msg)) := by
      simp only [out, createFork, hres, createResultToOffset, h400]
    exact .inl ⟨hb, by rw [hout], _, by rw [hout]⟩
  · have hplan := (createFork_passed srv.nextID now nowMs hf hok).trans
      (forkAt_fresh hfresh (forkPrefix_position hb) rfl)
    rw [append_nil] at hplan
    refine .inr ⟨hb, ?_, ?_⟩
    · simp only [out, createFork, hplan]
      rfl
    · simp only [out, createFork, hplan]
      rfl

/-- **A fork in process diverges at the given offset, or fails beyond the source, if and only if its text carries the
offset** (or the difference does not matter). -/
theorem createForkAt_exact_iff (hfresh : srv.db.metaAt path = none) :
    srv.MeetsFork L now nowMs path sourcePath src pos ↔
      Carries (isJSONStream L src.contentType) (recordOf srv.db src.streamID)
        (loadTailSeq srv.db src.streamID) pos := by
  have hcases := createFork_cases now nowMs hf hfresh
  unfold MeetsFork Carries
  generalize srv.createFork L noFaults now nowMs path sourcePath pos = out at hcases ⊢
  by_cases hb : Beyond (isJSONStream L src.contentType) (recordOf srv.db src.streamID)
      (loadTailSeq srv.db src.streamID) pos
  · rcases hcases with ⟨hb', hfail⟩ | ⟨hb', hops, -⟩
    · exact ⟨fun _ => .inr (.inl ⟨hb, hb'⟩), fun _ => ⟨fun _ => hfail, fun hne => absurd hb hne⟩⟩
    · constructor
      · intro h
        exact absurd (hops.symm.trans (h.1 hb).1) (forkBatch_ne_nil _ _ _ _ _ _ _)
      · rintro (hfit | ⟨-, h⟩ | ⟨hj, -, hlt⟩)
        · rw [hfit.carried_eq] at hb'
          exact absurd hb hb'
        · exact absurd h hb'
        · exact absurd hb (not_beyond_json hj hlt)
  · rcases hcases with ⟨hb', -, e, he⟩ | ⟨hb', hops, hres⟩
    · constructor
      · intro h
        cases he.symm.trans (h.2 hb).2
      · rintro (hfit | ⟨h, -⟩ | ⟨hj, hfit, hlt⟩)
        · rw [hfit.carried_eq] at hb'
          exact absurd hb' hb
        · exact absurd h hb
        · refine absurd hb' (not_beyond_json hj ?_)
          rw [Offset.carried, mod_eq_of_lt hfit]
          exact hlt
    · have hpos := position_carried_iff hb
      constructor
      · intro h
        rcases hpos.mp (forkBatch_inj (hops.symm.trans (h.2 hb).1)) with h | h
        · exact .inl h
        · exact .inr (.inr h)
      · intro h
        have he := hpos.mpr (by rcases h with h | ⟨h, -⟩ | h; exacts [Or.inl h, absurd h hb, .inr h])
        rw [he] at hops hres
        exact ⟨fun h => absurd h hb, fun _ => ⟨hops, hres⟩⟩

end Forks

/-- The sample record is forked behind its second byte. -/
theorem createForkAt_exact_iff_sample :
    position false (recordOf bytesStore 1) ⟨0, 2⟩ = (0, 2) ∧
      (newServer bytesStore 0).MeetsFork plainLib 0 0 forkPath bytesPath bytesMeta ⟨0, 2⟩ := by
  have hf : Forkable plainLib (newServer bytesStore 0).db (forkRequest forkPath bytesPath ⟨0, 2⟩) bytesMeta :=
    ⟨by decide +kernel, by decide +kernel, by decide +kernel, .inl rfl⟩
  exact ⟨by decide +kernel, (createForkAt_exact_iff 0 0 hf (by decide +kernel)).mpr (.inl ⟨by decide, by decide⟩)⟩

/-- The JSON stream of one message is forked at message 0 where message `10^16` was given. -/
theorem createForkAt_truncates : ∃ srv src, Reach (step plainLib) Any (newServer ∅ 0) srv ∧
    srv.db.metaAt samplePath = some src ∧ loadTailSeq srv.db src.streamID = 1 ∧
    Beyond (isJSONStream plainLib src.contentType) (recordOf srv.db src.streamID) 1 ⟨10 ^ 16, 0⟩ ∧
    (Store.metaAt (applyOps srv.db (srv.createFork plainLib noFaults 0 0 forkPath samplePath ⟨10 ^ 16, 0⟩).1)
    forkPath).map
      (fun m => (m.forkOffset, m.forkByte)) = some (0, 0) := by
  obtain ⟨srv, hsrv, src, hm, htail, hfork⟩ : ∃ srv ∈ run (step plainLib) (newServer ∅ 0) sourceEvents,
      ∃ src ∈ srv.db.metaAt samplePath, loadTailSeq srv.db src.streamID = 1 ∧
      (Store.metaAt (applyOps srv.db (srv.createFork plainLib noFaults 0 0 forkPath samplePath ⟨10 ^ 16, 0⟩).1)
      forkPath).map (fun m => (m.forkOffset, m.forkByte)) = some (0, 0) := by decide +kernel
  exact ⟨srv, src, reach_any hsrv, hm, htail, .inl (by decide), hfork⟩

end Yasdb
