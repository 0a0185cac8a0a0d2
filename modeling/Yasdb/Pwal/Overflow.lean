import Yasdb.Lifecycle.Model
import Yasdb.Marshal
import Yasdb.Pwal.Index

/-!
# Offsets of 32 bits

The encoder keeps the offset and the length of each value, and the length of the record, in 32 bits. The limits of the
engine do not keep a batch below these bounds: 512 appends of 4 MiB, folded into one burst, take more than `2^31` bytes.

- `exact_iff`: when the encoder is exact;
- `offsets_exact_iff`: **exactly then every place that is indexed is that of the value written**;
- `full_burst_wraps`: a full burst whose tail entry is indexed before the start of the file.
-/

namespace Yasdb.Pwal

open Batch BigEndian List Option Int32 Lifecycle Op Post Key

variable {crc : Bytes → UInt32} {ops : List Op}

/-! ## Exact encodings -/

/-- What the encoder says about a record is exact: the offsets and lengths of the values, and the length of what follows
the prefix. -/
structure Exact (crc : Bytes → UInt32) (q : Nat) (ops : List Op) : Prop where
  offsets : (encodePWALRecord crc q ops).2.1.map toInt = (layout 20 ops).map fun p => (p.1 : Int)
  lengths : (encodePWALRecord crc q ops).2.2.map toInt = (layout 20 ops).map fun p => (p.2 : Int)
  total : 4 + ofBE (slice (recBytes crc q ops) 0 4) = (recBytes crc q ops).length

/-- The bytes of the operations in front of the last value, and the length of that value. -/
def lastValue : List Op → Option (Nat × Nat)
  | [] => none
  | op :: ops =>
    match lastValue ops with
    | some (off, n) => some ((opBytes op).length + off, n)
    | none =>
      match op with
      | .put k v => some (1 + 4 + k.length + 4, v.length)
      | .del _ => none

/-- The last value starts less than `2^31` bytes behind the start of the record and is shorter than that, and the record
without its prefix is shorter than `2^32` bytes. -/
def SmallEnough (ops : List Op) : Prop :=
  (∀ p ∈ lastValue ops, 20 + p.1 < 2 ^ 31 ∧ p.2 < 2 ^ 31) ∧ 12 + (payloadOf ops).length < 2 ^ 32

theorem toInt_ofNat_eq {n : Nat} : (ofNat n).toInt = n ↔ n < 2 ^ 31 := by
  refine ⟨fun h => ?_, toInt_ofNat_of_lt⟩
  have := toInt_lt (ofNat n)
  omega

theorem mem_layout_of_lastValue : ∀ {ops : List Op} {pos : Nat} {p : Nat × Nat}, p ∈ lastValue ops →
    (pos + p.1, p.2) ∈ layout pos ops
  | op :: ops, pos, p, h => by
    unfold lastValue at h
    cases hl : lastValue ops with
    | some l =>
      rw [hl] at h
      obtain rfl := mem_some_iff.mp h
      have ih := @mem_layout_of_lastValue ops (pos + (opBytes op).length) l hl
      rw [Nat.add_assoc] at ih
      cases op with
      | _ => exact mem_cons_of_mem _ ih
    | none =>
      rw [hl] at h
      cases op with
      | put k v =>
        obtain rfl := mem_some_iff.mp h
        exact mem_cons_self
      | del k => cases h

/-- No value starts behind the last one, and each one before it ends before it. -/
theorem layout_le_lastValue : ∀ {ops : List Op} {pos : Nat} {p : Nat × Nat}, p ∈ layout pos ops →
    p = (0, 0) ∨ ∃ l ∈ lastValue ops, p.1 ≤ pos + l.1 ∧ (p.2 ≤ l.1 ∨ p.2 = l.2)
  | .put k v :: ops, pos, p, h => by
    have hl : (opBytes (.put k v)).length = 1 + 4 + k.length + 4 + v.length := by simp [opBytes]; omega
    unfold lastValue
    rcases mem_cons.mp h with rfl | h
    · refine .inr ?_
      cases lastValue ops with
      | some l => exact ⟨_, rfl, by dsimp only; omega, .inl (by dsimp only; omega)⟩
      | none => exact ⟨_, rfl, Nat.le_refl _, .inr rfl⟩
    · refine (layout_le_lastValue h).imp_right ?_
      rintro ⟨l, hl', hoff, hlen⟩
      rw [mem_def.mp hl']
      exact ⟨_, rfl, by dsimp only; omega, hlen.imp_left fun h => by dsimp only; omega⟩
  | .del k :: ops, pos, p, h => by
    unfold lastValue
    rcases mem_cons.mp h with rfl | h
    · exact .inl rfl
    · refine (layout_le_lastValue h).imp_right ?_
      rintro ⟨l, hl', hoff, hlen⟩
      rw [mem_def.mp hl']
      exact ⟨_, rfl, by dsimp only; omega, hlen.imp_left fun h => by dsimp only; omega⟩

theorem forall_layout_lt : (∀ p ∈ layout 20 ops, p.1 < 2 ^ 31 ∧ p.2 < 2 ^ 31) ↔
    ∀ p ∈ lastValue ops, 20 + p.1 < 2 ^ 31 ∧ p.2 < 2 ^ 31 := by
  constructor
  · intro h p hp
    exact h _ (mem_layout_of_lastValue hp)
  · intro h p hp
    rcases layout_le_lastValue hp with rfl | ⟨l, hl, hoff, hlen⟩
    · decide
    · have := h l hl
      omega

theorem map_toInt_eq (f : Nat × Nat → Nat) {l : List (Nat × Nat)} :
    (l.map fun p => ofNat (f p)).map toInt = (l.map fun p => (f p : Int)) ↔ ∀ p ∈ l, f p < 2 ^ 31 := by
  rw [List.map_map, map_inj_left]
  exact forall₂_congr fun p _ => toInt_ofNat_eq

theorem encodePWALRecord_layout (q : Nat) (ops : List Op) : (encodePWALRecord crc q ops).2 =
    ((layout 20 ops).map fun p => ofNat p.1, (layout 20 ops).map fun p => ofNat p.2) := by
  have h := encodeOps_layout (be 4 ops.length) ops
  rw [length_be] at h
  exact h

/-- **When the encoder is exact.** -/
theorem exact_iff (q : Nat) (ops : List Op) : Exact crc q ops ↔ SmallEnough ops := by
  have hbounds : ((∀ p ∈ layout 20 ops, p.1 < 2 ^ 31) ∧ ∀ p ∈ layout 20 ops, p.2 < 2 ^ 31) ↔
      ∀ p ∈ layout 20 ops, p.1 < 2 ^ 31 ∧ p.2 < 2 ^ 31 :=
    ⟨fun h p hp => ⟨h.1 p hp, h.2 p hp⟩, fun h => ⟨fun p hp => (h p hp).1, fun p hp => (h p hp).2⟩⟩
  have hhead : slice (recBytes crc q ops) 0 4 = be 4 (12 + (payloadOf ops).length) := by
    rw [recBytes_eq, append_assoc, append_assoc]
    exact take_left' (length_be 4 _)
  have htotal : 4 + ofBE (slice (recBytes crc q ops) 0 4) = (recBytes crc q ops).length ↔
      12 + (payloadOf ops).length < 2 ^ 32 := by
    have hp : (payloadOf ops).length = 4 + (ops.flatMap opBytes).length := by simp [payloadOf]
    rw [hhead, ofBE_be, length_recBytes]
    omega
  have hoffsets : (encodePWALRecord crc q ops).2.1.map toInt = (layout 20 ops).map (fun p => (p.1 : Int)) ↔
      ∀ p ∈ layout 20 ops, p.1 < 2 ^ 31 := by
    rw [encodePWALRecord_layout]
    exact map_toInt_eq Prod.fst
  have hlengths : (encodePWALRecord crc q ops).2.2.map toInt = (layout 20 ops).map (fun p => (p.2 : Int)) ↔
      ∀ p ∈ layout 20 ops, p.2 < 2 ^ 31 := by
    rw [encodePWALRecord_layout]
    exact map_toInt_eq Prod.snd
  unfold SmallEnough
  rw [← forall_layout_lt, ← hbounds, ← htotal, ← hoffsets, ← hlengths]
  exact ⟨fun h => ⟨⟨h.offsets, h.lengths⟩, h.total⟩, fun h => ⟨h.1.1, h.1.2, h.2⟩⟩

/-! ## Places -/

/-- The puts of a batch. -/
def putsOf (ops : List Op) : List (Bytes × Bytes) :=
  ops.filterMap fun op => match op with
    | .put k v => some (k, v)
    | .del _ => none

/-- The place names the key, and its range of the file is the value. -/
def Locates (file : Bytes) (l : ValueLoc) (kv : Bytes × Bytes) : Prop :=
  l.key = kv.1 ∧ l.n.toInt = kv.2.length ∧ ∃ off : Nat, l.fileOff = off ∧ Stands kv.2 file off

theorem locates_of_points {file : Bytes} {es : List RecEntry}
    (h : List.Forall₂ (Points file) es ops) (hlen : ∀ k v, Batch.Op.put k v ∈ ops → v.length < 2 ^ 31) :
    List.Forall₂ (Locates file) ((es.filter fun e => !e.del).map RecEntry.loc) (putsOf ops) := by
  induction h with
  | nil => exact .nil
  | @cons e op es ops hp _ ih =>
    have ih := ih fun k v hm => hlen k v (mem_cons_of_mem _ hm)
    cases op with
    | put k v =>
      obtain ⟨hkey, hdel, hst, hn⟩ := hp
      have hv := hlen k v mem_cons_self
      rw [filter_cons_of_pos (by simp [hdel]), map_cons]
      exact .cons ⟨hkey, by rw [RecEntry.loc, hn, toInt_ofNat_of_lt hv], e.fileOff, rfl, hst⟩ ih
    | del k =>
      rw [filter_cons_of_neg (by simp [hp.2])]
      exact ih

theorem length_lt_of_layout : ∀ {ops : List Op} {pos : Nat}, (∀ p ∈ layout pos ops, p.2 < 2 ^ 31) →
    ∀ k v, Batch.Op.put k v ∈ ops → v.length < 2 ^ 31
  | .put k' v' :: ops, pos, h, k, v, hm => by
    rcases mem_cons.mp hm with he | hm
    · cases he
      exact h _ mem_cons_self
    · exact length_lt_of_layout (fun p hp => h p (mem_cons_of_mem _ hp)) k v hm
  | .del k' :: ops, pos, h, k, v, hm => by
    rcases mem_cons.mp hm with he | hm
    · cases he
    · exact length_lt_of_layout (fun p hp => h p (mem_cons_of_mem _ hp)) k v hm

/-- The places that a shard gives to the values of a batch are right, if the batch is small enough. -/
theorem locates_stage {sh : Shard} (hoff : sh.writeOffset = sh.file.length)
    (h : SmallEnough ops) :
    List.Forall₂ (Locates (sh.stage crc ops none).1.file) (sh.stage crc ops none).2.2 (putsOf ops) := by
  have hlayout := forall_layout_lt.mpr h.1
  rw [sh.stage_places fun p hp => (hlayout p hp).1, hoff, sh.stage_file]
  refine locates_of_points (points_entriesAt ?_) (length_lt_of_layout fun p hp => (hlayout p hp).2)
  have hst := stands_append sh.file (recBytes crc sh.nextSeq ops) []
  rw [append_nil] at hst
  exact stands_ops hst

/-- **Offsets of 32 bits suffice** for a batch if and only if its last value starts less than `2^31` bytes behind the
start of the record and is shorter than that, and the record is shorter than `2^32` bytes. -/
theorem offsets_exact_iff (crc : Bytes → UInt32) (q : Nat) (ops : List Op) :
    (Exact crc q ops ∧ ∀ sh : Shard, sh.writeOffset = sh.file.length →
      List.Forall₂ (Locates (sh.stage crc ops none).1.file) (sh.stage crc ops none).2.2 (putsOf ops)) ↔
    SmallEnough ops :=
  ⟨fun h => (exact_iff q ops).mp h.1, fun h => ⟨(exact_iff q ops).mpr h, fun _ hoff => locates_stage hoff h⟩⟩

/-! ## The batches of the engine -/

/-- The default limit on the body of a request. -/
def maxRecordBytes : Nat := 4 * 2 ^ 20

/-- The default limit on the bursts that one `CommitAsync` takes. -/
def defaultCommitterBatchMax : Nat := 512

/-- The request of a POST whose body is within the limit. -/
def Submitted (L : GoLib) (r : AppendReq) : Prop :=
  ∃ (p : Post) (seenClosed : Bool) (seenType : Bytes) (records : List Bytes),
    p.body.length ≤ maxRecordBytes ∧ p.records L seenClosed seenType = .ok records ∧ r = p.request records

/-- The operations of one burst of at most `maxBurst` requests. -/
def BurstOps (ops : List Yasdb.Op) : Prop :=
  ∃ (L : GoLib) (flt : Faults) (db : Store) (now : Int64) (s s' : Streamer) (reqs : List AppendReq) (c : CommitBurst),
    reqs.length ≤ maxBurst ∧ (∀ r ∈ reqs, Submitted L r) ∧
    processBurst L flt db now s reqs = (s', .commit c) ∧ ops = c.ops

/-- A batch that the engine hands to `CommitAsync`. -/
def EngineBatch (ops : List Yasdb.Op) : Prop :=
  ∃ jobs : List (List Yasdb.Op), jobs.length ≤ defaultCommitterBatchMax ∧ (∀ j ∈ jobs, BurstOps j) ∧
    ops = jobs.flatten

/-- Appends without any condition go into the burst one after the other. -/
theorem planBatch_plain {L : GoLib} {flt : Faults} {db : Store} {s : Streamer} {ct : Bytes}
    (hct : contentTypeMatches L s.streamMeta.contentType ct = true) (httl : s.streamMeta.ttlSeconds = 0) :
    ∀ {bodies : List Bytes} {pend : PendingBurst}, pend.closed = false →
      let p := planBatch L flt db s pend (bodies.map fun b => { records := [b], hasBody := true, contentType := ct })
      p.st = s ∧ p.metaChanged = false ∧
        p.pend = { pend with
          recordOps := pend.recordOps ++ recordOpsFrom s.id pend.tail bodies
          tail := pend.tail + bodies.length }
  | [], pend, _ => by
    refine ⟨rfl, rfl, ?_⟩
    simp [planBatch, recordOpsFrom]
  | b :: bodies, pend, hopen => by
    have hplan : planAppend L flt db s pend { records := [b], hasBody := true, contentType := ct } =
        (s, { pend with
          recordOps := pend.recordOps ++ recordOpsFrom s.id pend.tail [b]
          tail := pend.tail + 1 }, acceptResp pend { records := [b], hasBody := true, contentType := ct }, true) := by
      simp [planAppend, hopen, hct, planProducer, planStreamSeq, acceptPending, slideTTL, httl]
    obtain ⟨hst, hmeta, hpend⟩ := @planBatch_plain L flt db s ct hct httl bodies { pend with
      recordOps := pend.recordOps ++ recordOpsFrom s.id pend.tail [b]
      tail := pend.tail + 1 } hopen
    simp only [map_cons, planBatch, hplan]
    refine ⟨hst, by simpa using hmeta, ?_⟩
    rw [hpend]
    simp [recordOpsFrom, Nat.add_assoc, Nat.add_comm 1]

/-- The batch of such a burst: the records and the tail. -/
theorem processBurst_plain {L : GoLib} {s : Streamer} {ct : Bytes} (flt : Faults) (db : Store) (now : Int64)
    (hct : contentTypeMatches L s.streamMeta.contentType ct = true) (httl : s.streamMeta.ttlSeconds = 0)
    (hopen : s.streamMeta.closed = false) {bodies : List Bytes} (hne : bodies ≠ []) :
    ∃ s' c, processBurst L flt db now s (bodies.map fun b => { records := [b], hasBody := true, contentType := ct }) =
        (s', .commit c) ∧
      c.ops = recordOpsFrom s.id s.writeTail bodies ++
        [.put (.tailKey s.id) (marshalTail (s.writeTail + bodies.length) now)] := by
  obtain ⟨hst, hmeta, hpend⟩ := @planBatch_plain L flt db s ct hct httl bodies (newPending s now) hopen
  have hrec : recordOpsFrom s.id s.writeTail bodies ≠ [] := by
    cases bodies with
    | nil => exact absurd rfl hne
    | cons b bodies => exact cons_ne_nil _ _
  unfold processBurst
  dsimp only at hst hmeta hpend ⊢
  rw [hst, hmeta, hpend]
  have hnothing : nothing s { newPending s now with
      recordOps := (newPending s now).recordOps ++ recordOpsFrom s.id (newPending s now).tail bodies
      tail := (newPending s now).tail + bodies.length } false = false := by
    simp [nothing, newPending, hrec]
  rw [hnothing, if_neg Bool.false_ne_true]
  refine ⟨_, _, rfl, ?_⟩
  simp [burstOps, tailOps, producerOps, writerSeqOps, expiryOps, metaOps, deadlineChanged, newPending,
    AList.empty_entries]

theorem length_recordOps (id : Nat) : ∀ (t : Nat) (bodies : List Bytes),
    (((recordOpsFrom id t bodies).map raw).flatMap opBytes).length = (bodies.map fun b => 27 + b.length).sum
  | _, [] => rfl
  | t, b :: bodies => by
    have hop : (opBytes (raw (.put (.recordKey id t) (marshalRecord recFlagNone b)))).length = 27 + b.length := by
      simp [raw, opBytes, bytes, marshal, marshalRecord, Keys.recordKey, Keys.pairKey]
      omega
    rw [recordOpsFrom, map_cons, flatMap_cons, length_append, length_recordOps id (t + 1) bodies, hop,
      map_cons, sum_cons]

theorem lastValue_concat (k v : Bytes) : ∀ ops : List Op, lastValue (ops ++ [.put k v]) =
    some ((ops.flatMap opBytes).length + (1 + 4 + k.length + 4), v.length)
  | [] => by simp [lastValue]
  | op :: ops => by
    simp only [cons_append, lastValue, lastValue_concat k v ops, flatMap_cons, length_append, Nat.add_assoc]

theorem mem_locsOf (base : Nat) : ∀ {ops : List Op} {pos : Nat} {p : Nat × Nat}, p ∈ layout pos ops → p.1 ≠ 0 →
    ∃ l ∈ locsOf base ops ((layout pos ops).map fun p => ofNat p.1)
      ((layout pos ops).map fun p => ofNat p.2), l.fileOff = base + (ofNat p.1).toInt
  | .put k v :: ops, pos, p, h, hp => by
    rcases mem_cons.mp h with rfl | h
    · exact ⟨_, mem_cons_self, rfl⟩
    · obtain ⟨l, hl, he⟩ := mem_locsOf base h hp
      exact ⟨l, mem_cons_of_mem _ hl, he⟩
  | .del k :: ops, pos, p, h, hp => by
    rcases mem_cons.mp h with rfl | h
    · exact absurd rfl hp
    · obtain ⟨l, hl, he⟩ := mem_locsOf base h hp
      exact ⟨l, hl, he⟩

/-- The stream of the sample burst. -/
def plainStream : Streamer := newStreamer samplePath { streamID := 1, contentType := ascii "text/plain" } 0

theorem submitted_largest {body : Bytes} (hlen : body.length = maxRecordBytes) : Submitted plainLib
    { records := [body], hasBody := true, contentType := ascii "text/plain" } := by
  have hbody : (decide (body ≠ [])) = true := by
    refine decide_eq_true fun he => ?_
    rw [he] at hlen
    exact absurd hlen (by decide)
  refine ⟨{ body := body, contentType := ascii "text/plain" }, false, ascii "text/plain", [body], hlen.le, ?_, ?_⟩
  · unfold records recordsFor hasBody
    dsimp only
    rw [hbody, if_pos (by decide), if_neg (by decide)]
  · unfold request hasBody
    rw [hbody]

theorem lastValue_largest {body : Bytes} (hlen : body.length = maxRecordBytes) (n tail : Nat) (now : Int64) :
    lastValue ((recordOpsFrom 1 0 (List.replicate n body) ++
        [(.put (.tailKey 1) (marshalTail tail now) : Yasdb.Op)]).map raw) =
      some (n * (27 + maxRecordBytes) + (1 + 4 + 9 + 4), 16) := by
  have hkey : (tailKey 1).bytes.length = 9 := by simp [bytes, Keys.tailKey, Keys.idKey]
  have hvalue : ((tailKey 1).marshal (marshalTail tail now)).length = 16 := by
    simp [marshal, TailValue.marshal]
  rw [map_append, map_singleton, raw, lastValue_concat, length_recordOps, map_replicate,
    sum_replicate_nat, hlen, hkey, hvalue]

/-- **A full burst of the largest appends**: the value of the tail starts `2147497510` bytes behind the start of the
record. Its offset wraps around, and in the first record of a shard its place is before the start of the file. -/
theorem full_burst_wraps : ∃ ops, EngineBatch ops ∧ ∀ (crc : Bytes → UInt32) (q : Nat),
    ¬ Exact crc q (ops.map Op.raw) ∧
    ∀ sh : Shard, sh.writeOffset = 0 → ∃ l ∈ (sh.stage crc (ops.map Op.raw) none).2.2, l.fileOff = -2147469786 := by
  -- nothing but the length of the body matters, so it is kept abstract
  obtain ⟨body, hlen⟩ : ∃ body : Bytes, body.length = maxRecordBytes := ⟨List.replicate _ 0, length_replicate⟩
  have hne : List.replicate 512 body ≠ [] := cons_ne_nil _ _
  obtain ⟨s', c, hc, hops⟩ := @processBurst_plain plainLib plainStream (ascii "text/plain") noFaults ∅ 0 (by decide) rfl
    rfl _ hne
  have hlast : lastValue (c.ops.map Op.raw) = some (2147497490, 16) := by
    have hsize : 512 * (27 + maxRecordBytes) + (1 + 4 + 9 + 4) = 2147497490 := by
      unfold maxRecordBytes
      omega
    have hid : plainStream.id = 1 := rfl
    have htail : plainStream.writeTail = 0 := rfl
    rw [← hsize, hops, hid, htail]
    exact lastValue_largest hlen 512 _ 0
  refine ⟨c.ops, ⟨[c.ops], (by decide : 1 ≤ 512), fun j hj => ?_, by simp⟩, fun crc q =>
    ⟨fun he => ?_, fun sh hoff => ?_⟩⟩
  · rw [mem_singleton.mp hj]
    refine ⟨plainLib, noFaults, ∅, 0, plainStream, s', _, c, ?_, fun r hr => ?_, hc, rfl⟩
    · rw [length_map, length_replicate]
      decide
    · obtain ⟨b, hb, rfl⟩ := List.mem_map.mp hr
      rw [eq_of_mem_replicate hb]
      exact submitted_largest hlen
  · have hlt := (((exact_iff q _).mp he).1 _ hlast).1
    simp at hlt
  · have hmem := @mem_layout_of_lastValue _ 20 _ hlast
    obtain ⟨l, hl, hplace⟩ := mem_locsOf 0 hmem (by simp)
    have hlocs : (sh.stage crc (c.ops.map Op.raw) none).2.2 = locsOf 0 (c.ops.map Op.raw)
        ((layout 20 (c.ops.map Op.raw)).map fun p => ofNat p.1)
        ((layout 20 (c.ops.map Op.raw)).map fun p => ofNat p.2) := by
      rw [sh.stage_locs, hoff, encodePWALRecord_layout]
    refine ⟨l, by rw [hlocs]; exact hl, ?_⟩
    have hsize : size = 2 ^ 32 := rfl
    rw [hplace, toInt_ofNat', Int.bmod_def, hsize]
    omega

end Yasdb.Pwal
