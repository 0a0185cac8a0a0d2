import Yasdb.Server.Expiry
import Yasdb.Server.ForkPosition

/-!
# Expiry of plain streams and of forks

`createStream` tests whether a TTL or an expiry was given, `createFork` whether the values are positive, and zero is a
legal value of both.

- `expires_createOps`: a new stream has an entry in the index exactly if its deadline is set;
- `create_expiry_agrees_iff`: **when the two agree**, with a deadline whenever one was asked for.
-/

namespace Yasdb

open Batch Store

/-- What is stored about the expiry of the stream at a path. -/
def Store.expiryAt (db : Store) (path : Bytes) : Option (UInt64 × Int64 × UInt64) :=
  (db.metaAt path).map fun m => (m.ttlSeconds, m.expiresAt, m.deadline)

/-- The stream at a path has a deadline and an entry in the index for it. -/
def Store.Expires (db : Store) (path : Bytes) : Prop :=
  ∃ m, db.metaAt path = some m ∧ 0 < m.deadline ∧ (db.lookup (.expiryKey m.deadline m.streamID)).isSome

/-- The headers ask for an expiry that is not lost: a TTL of at least a second whose deadline does not wrap to zero, and
an absolute time after the epoch. -/
def KeptExpiry (now : Int64) (ttl : UInt64) (ttlSet : Bool) (expires : Int64) (expiresSet : Bool) : Prop :=
  (ttlSet = true → 0 < ttl ∧ now.toUInt64 + ttl + 1 ≠ 0) ∧ (expiresSet = true → 0 < expires)

/-- The headers of a request are at most one of the two. -/
theorem parseExpiry_one {parseTime : Bytes → Option Int64} {ttlRaw expiresRaw : Bytes} {ttl : UInt64} {expires : Int64}
    {ttlSet expiresSet : Bool} (h : parseExpiry parseTime ttlRaw expiresRaw = some (ttl, ttlSet, expires, expiresSet)) :
    ttlSet = false ∨ expiresSet = false := by
  unfold parseExpiry at h
  cases ttlSet with
  | false => exact .inl rfl
  | true =>
    cases expiresSet with
    | false => exact .inr rfl
    | true =>
      by_cases h1 : ttlRaw = [] <;> by_cases h2 : expiresRaw = [] <;> cases ht : parseStrictUint ttlRaw <;>
        cases hx : parseTime expiresRaw <;> simp [h1, h2, ht, hx] at h

theorem toUInt64_pos {x : Int64} (h : 0 < x) : 0 < x.toUInt64 := by
  have hne : x.toUInt64 ≠ 0 := by
    intro h0
    have hx : x = 0 := by
      rw [← Int64.toInt64_toUInt64 x, h0]
      rfl
    rw [hx] at h
    exact absurd h (by decide)
  exact UInt64.pos_iff_ne_zero.mpr hne

section Stored

variable {db : Store} {path : Bytes} {m : StreamMeta} {start : Nat} {records : List Bytes} {now : Int64}
  {extra : List Op}

section

variable (hx : ∀ op ∈ extra, op.key.keyType = 10)
include hx

theorem expiryAt_createOps : expiryAt (applyOps db (createOps path m start records now ++ extra)) path =
      some (m.ttlSeconds, m.expiresAt, m.deadline) := by
  rw [expiryAt, metaAt_createOps _ _ _ _ _ _ hx, if_pos rfl]
  rfl

/-- A new stream expires exactly if its deadline is set. -/
theorem expires_createOps :
    Expires (applyOps db (createOps path m start records now ++ extra)) path ↔ 0 < m.deadline := by
  constructor
  · rintro ⟨m', hm, hpos, -⟩
    rw [metaAt_createOps _ _ _ _ _ _ hx, if_pos rfl] at hm
    cases hm
    exact hpos
  · intro hpos
    refine ⟨m, by rw [metaAt_createOps _ _ _ _ _ _ hx, if_pos rfl], hpos, ?_⟩
    rw [lookup_applyOps, effect_createOps_expiry _ _ _ _ _ hx, if_pos ⟨rfl, rfl, hpos⟩]
    rfl

end

end Stored

/-- **The two ways to create a stream agree on its expiry** exactly if what was asked for is kept. -/
theorem create_expiry_agrees_iff {L : GoLib} {flt flt' : Faults} {db db' : Store} {id id' : Nat}
    {now nowMs nowMs' : Int64} {p : CreateParams} {q : ForkParams} {ops ops' : List Op} {res res' : CreateResult}
    {src : StreamMeta} {parseTime : Bytes → Option Int64} {ttlRaw expiresRaw : Bytes}
    (hp : parseExpiry parseTime ttlRaw expiresRaw = some (p.ttl, p.ttlSet, p.expiresAt, p.expiresSet))
    (hq : parseExpiry parseTime ttlRaw expiresRaw = some (q.ttl, q.ttlSet, q.expiresAt, q.expiresSet))
    (hsrc : db'.metaAt q.sourcePath = some src) (hnone : src.ttlSeconds = 0 ∧ src.expiresAt = 0)
    (hc : createStream L flt db id now nowMs p = .ok (ops, res))
    (hf : createFork L flt' db' id' now nowMs' q = .ok (ops', res')) :
    (expiryAt (applyOps db ops) p.path = expiryAt (applyOps db' ops') q.path ∧
      (p.ttlSet = true ∨ p.expiresSet = true →
        Expires (applyOps db ops) p.path ∧ Expires (applyOps db' ops') q.path)) ↔
      KeptExpiry now p.ttl p.ttlSet p.expiresAt p.expiresSet := by
  obtain ⟨-, records, rfl⟩ := createStream_spec hc
  obtain ⟨-, src', -, ct, div, pre, records', hsrc', -, -, -, -, -, -, -, rfl⟩ := createFork_source hf
  cases hsrc.symm.trans hsrc'
  rw [hp, Option.some.injEq, Prod.mk.injEq, Prod.mk.injEq, Prod.mk.injEq] at hq
  obtain ⟨httl, hts, hexp, hes⟩ := hq
  have hx : ∀ op ∈ ([Op.put (.refCountKey src.streamID) (loadRefCount flt' db' src.streamID + 1)] : List Op),
      op.key.keyType = 10 := by
    intro op hop
    rw [List.mem_singleton.mp hop]
    rfl
  have hx0 : ∀ op ∈ ([] : List Op), op.key.keyType = 10 := nofun
  rw [← List.append_nil (createOps p.path _ _ _ _), expiryAt_createOps hx0, expiryAt_createOps hx,
    expires_createOps hx0, expires_createOps hx]
  -- one of the headers at most: a TTL, an absolute time, or neither
  unfold KeptExpiry newMeta newForkMeta forkTTL
  rw [← httl, ← hts, ← hexp, ← hes, hnone.1, hnone.2]
  rcases parseExpiry_one hp with h | h
  · rw [h]
    cases hset : p.expiresSet with
    | false => simp
    | true =>
      by_cases hpos : 0 < p.expiresAt
      · simp [hpos, toUInt64_pos hpos]
      · simp [hpos]
  · rw [h]
    cases hset : p.ttlSet with
    | false => simp
    | true =>
      by_cases hpos : 0 < p.ttl
      · simp [hpos, UInt64.pos_iff_ne_zero]
      · simp [hpos]

/-- Create a stream, and fork one without expiry, with the same TTL. -/
def plainRequest (ttl : UInt64) : CreateParams where
  path := ascii "/plain"
  contentType := []
  ttl := ttl
  ttlSet := true

def forkedRequest (ttl : UInt64) : ForkParams where
  path := forkPath
  sourcePath := bytesPath
  ttl := ttl
  ttlSet := true

/-- What either request stores at the clock 1000. -/
def plainExpiry (ttl : UInt64) : Option (UInt64 × Int64 × UInt64) :=
  match createStream plainLib noFaults bytesStore 2 1000 0 (plainRequest ttl) with
  | .ok (ops, _) => expiryAt (applyOps bytesStore ops) (ascii "/plain")
  | .error _ => none

def forkedExpiry (ttl : UInt64) : Option (UInt64 × Int64 × UInt64) :=
  match createFork plainLib noFaults bytesStore 2 1000 0 (forkedRequest ttl) with
  | .ok (ops, _) => expiryAt (applyOps bytesStore ops) forkPath
  | .error _ => none

/-- With a TTL of 0 the plain stream expires after a second and the fork never. -/
theorem zero_ttl_disagrees :
    parseExpiry (fun _ => none) (ascii "0") [] = some (0, true, 0, false) ∧
      plainExpiry 0 = some (0, 0, 1001) ∧ forkedExpiry 0 = some (0, 0, 0) := by
  decide +kernel

theorem create_expiry_agrees_iff_sample :
    ∃ ops res ops' res', createStream plainLib noFaults bytesStore 2 1000 0 (plainRequest 5) = .ok (ops, res) ∧
      createFork plainLib noFaults bytesStore 2 1000 0 (forkedRequest 5) = .ok (ops', res') ∧
      expiryAt (applyOps bytesStore ops) (ascii "/plain") =
        expiryAt (applyOps bytesStore ops') forkPath := by
  obtain ⟨ops, res, hc⟩ : ∃ ops res, createStream plainLib noFaults bytesStore 2 1000 0 (plainRequest 5) =
      .ok (ops, res) := ⟨_, _, rfl⟩
  have hok : (createFork plainLib noFaults bytesStore 2 1000 0 (forkedRequest 5)).isOk = true := by decide +kernel
  cases hf : createFork plainLib noFaults bytesStore 2 1000 0 (forkedRequest 5) with
  | error e => rw [hf] at hok; cases hok
  | ok r =>
    obtain ⟨ops', res'⟩ := r
    have hparse : parseExpiry (fun _ => none) (ascii "5") [] = some (5, true, 0, false) := by decide +kernel
    have hsrc : bytesStore.metaAt bytesPath = some bytesMeta := by decide +kernel
    have hkept : KeptExpiry 1000 5 true 0 false := ⟨fun _ => by decide, nofun⟩
    exact ⟨ops, res, ops', res', hc, rfl,
      ((create_expiry_agrees_iff (p := plainRequest 5) (q := forkedRequest 5) hparse hparse hsrc ⟨rfl, rfl⟩ hc hf).mpr
        hkept).1⟩

end Yasdb
