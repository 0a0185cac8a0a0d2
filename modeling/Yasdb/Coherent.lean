import Yasdb.Sequence

/-!
# A streamer and the store

A streamer is attached to a store when its metadata and write tail are those of the store (`Attached`), and coherent
with it when its cached entries are right as well (`Coherent`). Its view is then a function of the store alone
(`storeView`). Bursts and TTL touches keep coherence, whether or not their commit succeeds (`Coherent.settled`,
`coherent_refreshTTLOnRead`).

The store that the cache is loaded from may lag behind, and its reads may fail: what matters is that a load returns the
right entry (`ReadsAs`).
-/

namespace Yasdb

open Batch Store Op

/-- The stored tail of a stream; `0` when there is none. -/
def loadTailSeq (db : Store) (id : Nat) : Nat := (db.tailAt id).elim 0 (·.seq)

/-- A stream as it is stored. -/
def storeView (db : Store) (m : StreamMeta) : View where
  contentType := m.contentType
  ttlSeconds := m.ttlSeconds
  tail := loadTailSeq db m.streamID
  closed := m.closed
  deadline := m.deadline
  producers := db.producerAt m.streamID
  writerSeq := (db.writerSeqAt m.streamID).getD []

/-- The streamer works on the stored stream, at its tail. -/
structure Attached (db : Store) (s : Streamer) : Prop where
  streamMeta : db.metaAt s.path = some s.streamMeta
  id : s.streamMeta.streamID = s.id
  writeTail : s.writeTail = loadTailSeq db s.id

/-- The streamer agrees with the store, cached entries included. -/
structure Coherent (db : Store) (s : Streamer) : Prop extends Attached db s where
  producers : ∀ pid st, s.producers pid = some st → st = db.producerAt s.id pid
  writerSeq : ∀ v, s.writerSeq = some v → v = (db.writerSeqAt s.id).getD []

/-- Loading from `db`, with failing reads, gives the entries of `db'`. -/
structure ReadsAs (flt : Faults) (db db' : Store) (s : Streamer) : Prop where
  producers : ∀ pid, s.producers pid = none →
    (if flt (.producerKey s.id pid) then none else db.producerAt s.id pid) = db'.producerAt s.id pid
  writerSeq : s.writerSeq = none →
    (if flt (.writerSeqKey s.id) then [] else (db.writerSeqAt s.id).getD []) = (db'.writerSeqAt s.id).getD []

theorem readsAs_noFaults (db : Store) (s : Streamer) : ReadsAs noFaults db db s :=
  ⟨fun _ _ => rfl, fun _ => rfl⟩

theorem coherent_newStreamer {db : Store} {path : Bytes} {m : StreamMeta} (h : db.metaAt path = some m) :
    Coherent db (newStreamer path m (loadTailSeq db m.streamID)) :=
  ⟨⟨h, rfl, rfl⟩, nofun, nofun⟩

section Coherent

variable {flt : Faults} {db db' : Store} {s s' : Streamer}

section

variable (h : Coherent db' s) (hr : ReadsAs flt db db' s)
include h hr

theorem Coherent.producerOf (pid : Bytes) : producerOf flt db s pid = db'.producerAt s.id pid := by
  unfold Yasdb.producerOf
  cases hp : s.producers pid with
  | some st => exact h.producers pid st hp
  | none => exact hr.producers pid hp

theorem Coherent.writerSeqOf : writerSeqOf flt db s = (db'.writerSeqAt s.id).getD [] := by
  unfold Yasdb.writerSeqOf
  cases hw : s.writerSeq with
  | some v => exact h.writerSeq v hw
  | none => exact hr.writerSeq hw

/-- **The view of a coherent streamer is read off the store.** -/
theorem Coherent.viewOf : viewOf flt db s = storeView db' s.streamMeta := by
  refine View.ext rfl rfl ?_ rfl rfl (funext fun pid => ?_) ?_
  · show s.writeTail = loadTailSeq db' s.streamMeta.streamID
    rw [h.id]; exact h.writeTail
  · show Yasdb.producerOf flt db s pid = db'.producerAt s.streamMeta.streamID pid
    rw [h.id]; exact h.producerOf hr pid
  · show Yasdb.writerSeqOf flt db s = (db'.writerSeqAt s.streamMeta.streamID).getD []
    rw [h.id]; exact h.writerSeqOf hr

end

theorem Attached.loads (h : Attached db' s) (hl : Loads flt db s s') : Attached db' s' :=
  ⟨by rw [hl.path, hl.streamMeta]; exact h.streamMeta, by rw [hl.streamMeta, hl.id]; exact h.id,
    by rw [hl.writeTail, hl.id]; exact h.writeTail⟩

theorem Coherent.loads (h : Coherent db' s) (hr : ReadsAs flt db db' s) (hl : Loads flt db s s') : Coherent db' s' := by
  refine ⟨h.toAttached.loads hl, fun pid st hp => ?_, fun v hw => ?_⟩
  · rw [hl.id]
    rcases hl.producers pid with he | he
    · exact h.producers pid st (he ▸ hp)
    · rw [hp, Option.some.injEq] at he
      rw [he]; exact h.producerOf hr pid
  · rw [hl.id]
    rcases hl.writerSeq with he | he
    · exact h.writerSeq v (he ▸ hw)
    · rw [hw, Option.some.injEq] at he
      rw [he]; exact h.writerSeqOf hr

theorem ReadsAs.loads (hr : ReadsAs flt db db' s) (hl : Loads flt db s s') : ReadsAs flt db db' s' := by
  refine ⟨fun pid hp => ?_, fun hw => ?_⟩
  · rw [hl.id]
    refine hr.producers pid ?_
    cases hs : s.producers pid with
    | none => rfl
    | some r => rw [hl.producers_some hs] at hp; cases hp
  · rw [hl.id]
    refine hr.writerSeq ?_
    rcases hl.writerSeq with he | he
    · rw [← he]; exact hw
    · rw [hw] at he; cases he

variable {now : Int64} {pend : PendingBurst} {mc : Bool}

theorem producerAt_settleOps (db : Store) (hP : Planning now s pend mc) (pid : Bytes) :
    producerAt (applyOps db (settleOps s pend mc)) s.id pid =
      (pend.producers.lookup pid).or (db.producerAt s.id pid) := by
  unfold producerAt
  rw [lookup_applyOps, effect_settleOps_producer hP.records, if_pos rfl]
  cases pend.producers.lookup pid <;> rfl

theorem writerSeqAt_settleOps (db : Store) (hP : Planning now s pend mc) :
    writerSeqAt (applyOps db (settleOps s pend mc)) s.id = pend.writerSeq.or (db.writerSeqAt s.id) := by
  unfold writerSeqAt
  rw [lookup_applyOps, effect_settleOps_writerSeq hP.records, if_pos rfl]
  cases pend.writerSeq <;> rfl

theorem burstMeta_of_unchanged (hP : Planning now s pend mc) (hm : (mc || deadlineChanged s pend) = false) :
    burstMeta s pend = s.streamMeta := by
  obtain ⟨hmc, hd⟩ := Bool.or_eq_false_iff.mp hm
  have hc : pend.closed = s.streamMeta.closed := by rw [hP.closed, hmc, Bool.or_false]
  have hd : pend.deadline = s.streamMeta.deadline := by simpa [deadlineChanged] using hd
  simp [burstMeta, hc, hd]

theorem Attached.settled (h : Attached db s) (hP : Planning now s pend mc) (wrote : Bool) :
    Attached (applyOps db (settleOps s pend mc)) (settled pend wrote mc s) := by
  refine ⟨?_, h.id, ?_⟩
  · show metaAt _ s.path = some (burstMeta s pend)
    unfold metaAt
    rw [lookup_applyOps, effect_settleOps_meta hP.records]
    cases hm : mc || deadlineChanged s pend with
    | true => simp
    | false => rw [burstMeta_of_unchanged hP hm, if_neg (by simp)]; exact h.streamMeta
  · show pend.tail = loadTailSeq _ s.id
    unfold loadTailSeq tailAt
    rw [lookup_applyOps, effect_settleOps_tail hP.records]
    cases hn : nothing s pend mc with
    | false => simp [marshalTail]
    | true =>
      rw [hP.tail (nothing_iff.mp hn).1, if_neg (by simp)]
      exact h.writeTail

/-- **A committed pending view keeps coherence.** -/
theorem Coherent.settled (h : Coherent db s) (hP : Planning now s pend mc) (wrote : Bool) :
    Coherent (applyOps db (settleOps s pend mc)) (settled pend wrote mc s) := by
  refine ⟨h.toAttached.settled hP wrote, fun pid st hp => ?_, fun v hw => ?_⟩
  · show st = producerAt _ s.id pid
    rw [producerAt_settleOps db hP]
    simp only [Yasdb.settled] at hp
    cases hl : pend.producers.lookup pid with
    | some ps => rw [hl] at hp; cases hp; rfl
    | none => rw [hl] at hp; exact h.producers pid st hp
  · show v = (writerSeqAt _ s.id).getD []
    rw [writerSeqAt_settleOps db hP]
    simp only [Yasdb.settled] at hw
    cases hl : pend.writerSeq with
    | some q => rw [hl] at hw; cases hw; rfl
    | none => rw [hl] at hw; exact h.writerSeq v hw

theorem Attached.applyWriter (h : Attached db s) (hP : Planning now s pend mc) (hn : nothing s pend mc = false) :
    Attached (applyOps db (burstOps s pend mc)) (applyWriter s pend (mc || deadlineChanged s pend)) := by
  have h' := h.settled hP false
  rw [show settleOps s pend mc = burstOps s pend mc by simp [settleOps, hn]] at h'
  have hm : (Yasdb.applyWriter s pend (mc || deadlineChanged s pend)).streamMeta = burstMeta s pend := by
    cases hm : mc || deadlineChanged s pend with
    | true => rfl
    | false => exact (burstMeta_of_unchanged hP hm).symm
  exact ⟨by rw [hm]; exact h'.streamMeta, by rw [hm]; exact h'.id, h'.writeTail⟩

theorem Coherent.applyWriter (h : Coherent db s) (hP : Planning now s pend mc) (hn : nothing s pend mc = false) :
    Coherent (applyOps db (burstOps s pend mc)) (applyWriter s pend (mc || deadlineChanged s pend)) := by
  have h' := h.settled hP false
  rw [show settleOps s pend mc = burstOps s pend mc by simp [settleOps, hn]] at h'
  exact ⟨h.toAttached.applyWriter hP hn, h'.producers, h'.writerSeq⟩

theorem Coherent.storeView_settled (h : Coherent db' s) (hr : ReadsAs flt db db' s) (hP : Planning now s pend mc) :
    storeView (applyOps db' (settleOps s pend mc)) (burstMeta s pend) = pendView flt db s pend := by
  have hv := (h.settled hP (!nothing s pend mc)).viewOf (readsAs_noFaults _ _)
  refine hv.symm.trans ((viewOf_settle db' hP).trans ?_)
  refine View.ext rfl rfl rfl rfl rfl (funext fun pid => ?_) ?_
  · rw [pendView_producers, pendView_producers, h.producerOf (readsAs_noFaults _ _), h.producerOf hr]
  · rw [pendView_writerSeq, pendView_writerSeq, h.writerSeqOf (readsAs_noFaults _ _), h.writerSeqOf hr]

end Coherent

/-! ## Bursts and touches under the sync committer -/

/-- The streamer with its cached deadline moved. -/
def Streamer.setDeadline (s : Streamer) (d : UInt64) : Streamer :=
  { s with streamMeta := { s.streamMeta with deadline := d } }

/-- The keys a touch writes. -/
def touchOps (s : Streamer) (d : UInt64) : List Op :=
  Op.put (.expiryKey d s.id) s.streamMeta.ttlSeconds ::
    (if s.streamMeta.deadline > 0 ∧ s.streamMeta.deadline ≠ d then [Op.del (.expiryKey s.streamMeta.deadline s.id)]
      else []) ++
    [Op.put (.metaKey s.path) (s.setDeadline d).streamMeta]

theorem refreshTTLOnRead_cases (now : Int64) (commitErr : Option String) (db : Store) (s : Streamer) :
    (refreshTTLOnRead now commitErr db s = (db, s) ∧ (commitErr = none →
      slideDeadline now s.streamMeta.ttlSeconds s.streamMeta.deadline = s.streamMeta.deadline)) ∨
    ∃ d, refreshTTLOnRead now commitErr db s = (applyOps db (touchOps s d), s.setDeadline d) ∧ commitErr = none ∧
      d = slideDeadline now s.streamMeta.ttlSeconds s.streamMeta.deadline ∧ s.streamMeta.ttlSeconds ≠ 0 ∧
      ¬ now.toUInt64 + s.streamMeta.ttlSeconds < s.streamMeta.deadline := by
  unfold refreshTTLOnRead ttlRefreshOps slideDeadline
  by_cases h0 : s.streamMeta.ttlSeconds = 0
  · simp [h0]
  · by_cases h1 : now.toUInt64 + s.streamMeta.ttlSeconds < s.streamMeta.deadline
    · simp [h0, h1]
    · cases commitErr with
      | some err => left; simp [h0, h1]
      | none => exact .inr ⟨_, by simp only [h0, h1, if_false]; rfl, rfl, by simp only [h0, h1, if_false], h0, h1⟩

theorem effect_touchOps {k : Key} {s : Streamer} {d : UInt64} (hk : k.keyType ≠ 7) :
    effect k (touchOps s d) = (put (.metaKey s.path) (s.setDeadline d).streamMeta : Op).effect k := by
  have he : ∀ d' v, (put (.expiryKey d' s.id) v : Op).effect k = none := fun d' v =>
    effect_of_ne fun h => hk (by rw [← h]; rfl)
  have hd : ∀ d', (Op.del (.expiryKey d' s.id) : Op).effect k = none := fun d' =>
    Op.effect_of_ne fun h => hk (by rw [← h]; rfl)
  unfold touchOps
  split
  · simp [-Op.effect, he, hd]
  · simp [-Op.effect, he]

theorem lookup_touchOps {k : Key} (db : Store) {s : Streamer} {d : UInt64} (h7 : k.keyType ≠ 7)
    (h1 : k ≠ .metaKey s.path) : (applyOps db (touchOps s d)).lookup k = db.lookup k := by
  rw [lookup_applyOps, effect_touchOps h7, effect_of_ne (Ne.symm h1)]
  rfl

theorem metaAt_touchOps (db : Store) (s : Streamer) (d : UInt64) :
    metaAt (applyOps db (touchOps s d)) s.path = some (s.setDeadline d).streamMeta := by
  unfold metaAt
  rw [lookup_applyOps, effect_touchOps (by simp)]
  simp

/-- A touch changes nothing of the stored stream but its deadline. -/
theorem storeView_touchOps (db : Store) (s : Streamer) (d : UInt64) :
    storeView (applyOps db (touchOps s d)) (s.setDeadline d).streamMeta =
      { storeView db s.streamMeta with deadline := d } := by
  refine View.ext rfl rfl ?_ rfl rfl (funext fun pid => ?_) ?_
  · show loadTailSeq _ s.streamMeta.streamID = loadTailSeq _ s.streamMeta.streamID
    unfold loadTailSeq tailAt
    rw [lookup_touchOps db (by simp) (by simp)]
  · show producerAt _ s.streamMeta.streamID pid = producerAt _ s.streamMeta.streamID pid
    unfold producerAt
    rw [lookup_touchOps db (by simp) (by simp)]
  · show (writerSeqAt _ s.streamMeta.streamID).getD [] = (writerSeqAt _ s.streamMeta.streamID).getD []
    unfold writerSeqAt
    rw [lookup_touchOps db (by simp) (by simp)]

theorem Attached.touchOps {db : Store} {s : Streamer} (h : Attached db s) (d : UInt64) :
    Attached (applyOps db (touchOps s d)) (s.setDeadline d) := by
  refine ⟨metaAt_touchOps db s d, h.id, ?_⟩
  unfold loadTailSeq tailAt
  rw [lookup_touchOps db (by simp) (by simp)]
  exact h.writeTail

/-- A touch keeps coherence, whatever the outcome of its commit. -/
theorem coherent_refreshTTLOnRead (now : Int64) (commitErr : Option String) {db : Store} {s : Streamer}
    (h : Coherent db s) :
    Coherent (refreshTTLOnRead now commitErr db s).1 (refreshTTLOnRead now commitErr db s).2 := by
  rcases refreshTTLOnRead_cases now commitErr db s with ⟨he, -⟩ | ⟨d, he, -⟩
  · rw [he]; exact h
  · rw [he]
    refine ⟨h.toAttached.touchOps d, fun pid st hp => ?_, fun v hw => ?_⟩
    · unfold producerAt
      rw [lookup_touchOps db (by simp) (by simp)]
      exact h.producers pid st hp
    · unfold writerSeqAt
      rw [lookup_touchOps db (by simp) (by simp)]
      exact h.writerSeq v hw

end Yasdb
