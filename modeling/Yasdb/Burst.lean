import Yasdb.Plan

/-!
# The batch of a burst

What the batch of a burst (`burstOps`) leaves under every key, read off the pending view: `effect_burstOps_record`
and its siblings, one for each kind of key. Keys of other streams and of the kinds that no streamer writes are left
alone (`effect_burstOps_other`).
-/

namespace Yasdb

open Batch List Option Key Ne

variable {id : Nat} {ops : List Op} {k : Key}

/-- The operations are puts of records of the stream `id`. -/
def RecordOps (id : Nat) (ops : List Op) : Prop := ∀ op ∈ ops, ∃ n v, op = Op.put (.recordKey id n) v

theorem recordOps_nil (id : Nat) : RecordOps id [] := nofun

theorem RecordOps.append {ops' : List Op} (h : RecordOps id ops) (h' : RecordOps id ops') :
    RecordOps id (ops ++ ops') := fun op ho =>
  (mem_append.mp ho).elim (h op) (h' op)

theorem recordOps_recordOpsFrom (id : Nat) : ∀ (start : Nat) (recs : List Bytes),
    RecordOps id (recordOpsFrom id start recs)
  | _, [] => recordOps_nil id
  | start, r :: recs => fun op h => by
    rcases mem_cons.mp h with rfl | h
    · exact ⟨start, _, rfl⟩
    · exact recordOps_recordOpsFrom id (start + 1) recs op h

/-- Records are written under record keys. -/
theorem RecordOps.keyType (h : RecordOps id ops) : ∀ op ∈ ops, op.key.keyType = 4 := by
  intro op ho
  obtain ⟨n, v, rfl⟩ := h op ho
  rfl

section

variable (s : Streamer)

section

variable (pend : PendingBurst)

theorem tailOps_keyType : ∀ op ∈ tailOps s pend, op.key.keyType = 3 := by
  intro op ho
  rw [mem_singleton.mp ho]; rfl

theorem producerOps_keyType : ∀ op ∈ producerOps s pend, op.key.keyType = 5 := by
  intro op ho
  obtain ⟨e, -, rfl⟩ := List.mem_map.mp ho
  rfl

theorem writerSeqOps_keyType : ∀ op ∈ writerSeqOps s pend, op.key.keyType = 6 := by
  intro op ho
  unfold writerSeqOps at ho
  cases hw : pend.writerSeq with
  | none => rw [hw] at ho; cases ho
  | some v => rw [hw] at ho; rw [mem_singleton.mp ho]; rfl

theorem expiryOps_keyType : ∀ op ∈ expiryOps s pend, op.key.keyType = 7 := by
  intro op ho
  unfold expiryOps at ho
  split at ho
  · rcases mem_cons.mp ho with rfl | ho
    · rfl
    · split at ho
      · rw [mem_singleton.mp ho]; rfl
      · cases ho
  · cases ho

theorem metaOps_keyType (mc : Bool) : ∀ op ∈ metaOps s pend mc, op.key.keyType = 1 := by
  intro op ho
  unfold metaOps at ho
  split at ho
  · rw [mem_singleton.mp ho]; rfl
  · cases ho

end

end

/-! ## The effect on each key -/

section Effect

variable {s : Streamer} {pend : PendingBurst}

/-- **The parts of a burst**, the last one first. -/
theorem effect_burstOps (k : Key) (mc : Bool) : effect k (burstOps s pend mc) =
      (effect k (metaOps s pend mc)).or ((effect k (expiryOps s pend)).or ((effect k (writerSeqOps s pend)).or
        ((effect k (producerOps s pend)).or ((effect k (tailOps s pend)).or (effect k pend.recordOps))))) := by
  simp only [burstOps, effect_append]

theorem effect_metaOps (mc : Bool) (hk : k.keyType ≠ 1) : effect k (metaOps s pend mc) = none :=
  effect_of_class keyType (metaOps_keyType s pend mc) hk

theorem effect_expiryOps (hk : k.keyType ≠ 7) : effect k (expiryOps s pend) = none :=
  effect_of_class keyType (expiryOps_keyType s pend) hk

theorem effect_writerSeqOps (hk : k.keyType ≠ 6) : effect k (writerSeqOps s pend) = none :=
  effect_of_class keyType (writerSeqOps_keyType s pend) hk

theorem effect_producerOps (hk : k.keyType ≠ 5) : effect k (producerOps s pend) = none :=
  effect_of_class keyType (producerOps_keyType s pend) hk

theorem effect_tailOps (hk : k.keyType ≠ 3) : effect k (tailOps s pend) = none :=
  effect_of_class keyType (tailOps_keyType s pend) hk

theorem RecordOps.effect (h : RecordOps id ops) (hk : k.keyType ≠ 4) : effect k ops = none :=
  effect_of_class Key.keyType h.keyType hk

/-- A burst writes its records. -/
theorem effect_burstOps_record (i n : Nat) (mc : Bool) :
    effect (.recordKey i n) (burstOps s pend mc) = effect (.recordKey i n) pend.recordOps := by
  rw [effect_burstOps, effect_metaOps mc (by simp), effect_expiryOps (by simp),
    effect_writerSeqOps (by simp), effect_producerOps (by simp),
    effect_tailOps (by simp)]
  simp

variable (hr : RecordOps s.id pend.recordOps)
include hr

/-- A burst writes the new tail. -/
theorem effect_burstOps_tail (i : Nat) (mc : Bool) : effect (.tailKey i) (burstOps s pend mc) =
      if i = s.id then some (some (marshalTail pend.tail pend.now)) else none := by
  rw [effect_burstOps, effect_metaOps mc (by simp), effect_expiryOps (by simp),
    effect_writerSeqOps (by simp), effect_producerOps (by simp),
    hr.effect (by simp)]
  by_cases h : i = s.id
  · subst h; simp [tailOps]
  · simp [tailOps, h, symm h]

/-- A burst writes the producers that it has moved. -/
theorem effect_burstOps_producer (i : Nat) (pid : Bytes) (mc : Bool) :
    effect (.producerKey i pid) (burstOps s pend mc) =
      if i = s.id then (pend.producers.lookup pid).map some else none := by
  rw [effect_burstOps, effect_metaOps mc (by simp), effect_expiryOps (by simp),
    effect_writerSeqOps (by simp), effect_tailOps (by simp),
    hr.effect (by simp)]
  simp only [none_or, or_none]
  by_cases h : i = s.id
  · subst h
    rw [if_pos rfl]
    exact effect_entries (fun pid => producerKey s.id pid) (fun _ => rfl)
      (fun a b hab => by simpa using hab) pid _ pend.producers.nodupKeys
  · rw [if_neg h, effect_ne]
    intro op ho
    obtain ⟨e, -, rfl⟩ := List.mem_map.mp ho
    simp [symm h]

/-- A burst writes the last `Stream-Seq`. -/
theorem effect_burstOps_writerSeq (i : Nat) (mc : Bool) :
    effect (.writerSeqKey i) (burstOps s pend mc) = if i = s.id then pend.writerSeq.map some else none := by
  rw [effect_burstOps, effect_metaOps mc (by simp), effect_expiryOps (by simp),
    effect_producerOps (by simp), effect_tailOps (by simp),
    hr.effect (by simp)]
  simp only [none_or, or_none, writerSeqOps]
  by_cases h : i = s.id
  · subst h; cases pend.writerSeq <;> simp
  · cases pend.writerSeq <;> simp [h, symm h]

/-- A moved deadline is entered in the index, and its old entry removed. -/
theorem effect_burstOps_expiry (d : UInt64) (i : Nat) (mc : Bool) : effect (.expiryKey d i) (burstOps s pend mc) =
      if i = s.id ∧ pend.deadline ≠ s.streamMeta.deadline then
        if d = s.streamMeta.deadline ∧ s.streamMeta.deadline > 0 then some none
        else if d = pend.deadline then some (some s.streamMeta.ttlSeconds) else none
      else none := by
  rw [effect_burstOps, effect_metaOps mc (by simp), effect_writerSeqOps (by simp),
    effect_producerOps (by simp), effect_tailOps (by simp),
    hr.effect (by simp)]
  simp only [none_or, or_none, expiryOps, deadlineChanged, bne_iff_ne]
  by_cases hd : pend.deadline = s.streamMeta.deadline
  · simp [hd]
  have hd' : ¬ s.streamMeta.deadline = pend.deadline := symm hd
  by_cases h : i = s.id
  · subst h
    by_cases hp : 0 < s.streamMeta.deadline
    · by_cases h1 : d = s.streamMeta.deadline
      · subst h1; simp [hd, hp]
      · by_cases h2 : d = pend.deadline
        · subst h2; simp [hd, hd', hp]
        · simp [hd, hp, h1, h2, symm h1, symm h2]
    · by_cases h2 : d = pend.deadline
      · subst h2; simp [hd, hp]
      · simp [hd, hp, h2, symm h2]
  · by_cases hp : 0 < s.streamMeta.deadline <;> simp [hd, hp, h, symm h]

/-- A burst writes metadata that has changed. -/
theorem effect_burstOps_meta (q : Bytes) (mc : Bool) : effect (.metaKey q) (burstOps s pend mc) =
      if q = s.path ∧ (mc || deadlineChanged s pend) = true then some (some (burstMeta s pend)) else none := by
  rw [effect_burstOps, effect_expiryOps (by simp), effect_writerSeqOps (by simp),
    effect_producerOps (by simp), effect_tailOps (by simp),
    hr.effect (by simp)]
  simp only [or_none, metaOps]
  by_cases hm : (mc || deadlineChanged s pend) = true
  · rw [if_pos hm]
    by_cases h : q = s.path
    · subst h; simp [hm]
    · simp [h, symm h]
  · rw [if_neg hm, if_neg fun hh => hm hh.2]; rfl

/-- A burst writes nothing else. -/
theorem effect_burstOps_other (mc : Bool)
    (hk : k.keyType ≠ 1 ∧ k.keyType ≠ 3 ∧ k.keyType ≠ 4 ∧ k.keyType ≠ 5 ∧ k.keyType ≠ 6 ∧ k.keyType ≠ 7) :
    effect k (burstOps s pend mc) = none := by
  obtain ⟨h1, h3, h4, h5, h6, h7⟩ := hk
  rw [effect_burstOps, effect_metaOps mc h1, effect_expiryOps h7, effect_writerSeqOps h6, effect_producerOps h5,
    effect_tailOps h3, hr.effect h4]
  rfl

end Effect

end Yasdb
