import Yasdb.Coherent
import Yasdb.AppliedLog

/-!
# The stored log of a stream

What the store holds of a stream after a list of applied appends (`StoredAs`): the metadata of its path, the view that
these appends lead to, and their records from the starting tail on.

- `StoredAs.settle`: committing a planned batch, perhaps planned over an older store, extends the list;
- `StoredAs.touch`: a TTL touch leaves the list;
- `StoredAs.congr`, `Coherent.congr`: all this depends on the keys of the stream alone (`Owns`).
-/

namespace Yasdb

open Batch List Option Store

variable {s : Streamer}

/-! ## The keys of a stream -/

/-- The keys that the streamer of the stream `id` at `path` writes. -/
def Owns (path : Bytes) (id : Nat) : Key → Prop
  | .metaKey p => p = path
  | .tailKey i => i = id
  | .recordKey i _ => i = id
  | .producerKey i _ => i = id
  | .writerSeqKey i => i = id
  | .expiryKey _ i => i = id
  | _ => False

theorem Owns.disjoint {p p' : Bytes} {i i' : Nat} {k : Key} (hp : p ≠ p') (hi : i ≠ i') (h : Owns p i k) :
    ¬ Owns p' i' k := by
  cases k with
  | metaKey q => exact fun h' => hp (h.symm.trans h')
  | tailKey j => exact fun h' => hi (h.symm.trans h')
  | recordKey j n => exact fun h' => hi (h.symm.trans h')
  | producerKey j pid => exact fun h' => hi (h.symm.trans h')
  | writerSeqKey j => exact fun h' => hi (h.symm.trans h')
  | expiryKey d j => exact fun h' => hi (h.symm.trans h')
  | _ => exact h.elim

/-- A burst writes keys of its own stream only. -/
theorem burstOps_owns {pend : PendingBurst} (mc : Bool) (hr : RecordOps s.id pend.recordOps) :
    ∀ op ∈ burstOps s pend mc, Owns s.path s.id op.key := by
  intro op ho
  unfold burstOps at ho
  simp only [mem_append] at ho
  rcases ho with ((((ho | ho) | ho) | ho) | ho) | ho
  · obtain ⟨n, v, rfl⟩ := hr op ho; exact rfl
  · rw [mem_singleton.mp ho]; exact rfl
  · obtain ⟨e, -, rfl⟩ := List.mem_map.mp ho; exact rfl
  · unfold writerSeqOps at ho
    split at ho
    · rw [mem_singleton.mp ho]; exact rfl
    · cases ho
  · unfold expiryOps at ho
    split at ho
    · rcases mem_cons.mp ho with rfl | ho
      · exact rfl
      · split at ho
        · rw [mem_singleton.mp ho]; exact rfl
        · cases ho
    · cases ho
  · unfold metaOps at ho
    split at ho
    · rw [mem_singleton.mp ho]; exact rfl
    · cases ho

theorem touchOps_owns (s : Streamer) (d : UInt64) : ∀ op ∈ touchOps s d, Owns s.path s.id op.key := by
  intro op ho
  unfold touchOps at ho
  simp only [mem_append, mem_cons, not_mem_nil, or_false] at ho
  rcases ho with (rfl | ho) | rfl
  · exact rfl
  · split at ho
    · rw [mem_singleton.mp ho]; exact rfl
    · cases ho
  · exact rfl

/-- Two stores agree on the keys of a stream. -/
def Agree (path : Bytes) (id : Nat) (db db' : Store) : Prop := ∀ k, Owns path id k → db.lookup k = db'.lookup k

namespace Agree

variable {path : Bytes} {id : Nat} {db db' : Store}

section

variable (h : Agree path id db db')
include h

theorem metaAt : db.metaAt path = db'.metaAt path := h (.metaKey path) rfl

theorem recordAt (n : Nat) : db.recordAt id n = db'.recordAt id n := h (.recordKey id n) rfl

theorem producerAt (pid : Bytes) : db.producerAt id pid = db'.producerAt id pid :=
  h (.producerKey id pid) rfl

theorem writerSeqAt : db.writerSeqAt id = db'.writerSeqAt id := h (.writerSeqKey id) rfl

theorem loadTailSeq : loadTailSeq db id = loadTailSeq db' id := by
  unfold Yasdb.loadTailSeq
  rw [show db.tailAt id = db'.tailAt id from h (.tailKey id) rfl]

theorem applyOps (ops : List Op) : Agree path id (applyOps db ops) (applyOps db' ops) :=
  fun k hk => by rw [lookup_applyOps, lookup_applyOps, h k hk]

end

theorem storeView {m : StreamMeta} (h : Agree path m.streamID db db') : storeView db m = storeView db' m := by
  refine View.ext rfl rfl h.loadTailSeq rfl rfl (funext h.producerAt) ?_
  show (db.writerSeqAt m.streamID).getD [] = (db'.writerSeqAt m.streamID).getD []
  rw [h.writerSeqAt]

end Agree

theorem Coherent.congr {db db' : Store} (h : Coherent db s) (ha : Agree s.path s.id db db') : Coherent db' s :=
  ⟨⟨ha.metaAt ▸ h.streamMeta, h.id, ha.loadTailSeq ▸ h.writeTail⟩,
    fun pid st hp => ha.producerAt pid ▸ h.producers pid st hp, fun v hw => ha.writerSeqAt ▸ h.writerSeq v hw⟩

/-! ## The stored log -/

/-- The store holds the stream with the view `v₀` at the start and the appends `l` applied since. -/
structure StoredAs (L : GoLib) (path : Bytes) (id : Nat) (v₀ : View) (db : Store) (l : List (Int64 × AppendReq)) :
    Prop where
  view : ∃ m, db.metaAt path = some m ∧ m.streamID = id ∧ View.Applies L v₀ l (storeView db m)
  records : ∀ n, db.recordAt id (v₀.tail + n) = (recordsOf l)[n]?.map (marshalRecord recFlagNone)

section StoredAs

variable {L : GoLib} {path : Bytes} {id : Nat} {v₀ : View} {db : Store} {l : List (Int64 × AppendReq)}

theorem StoredAs.congr {db' : Store} (h : StoredAs L path id v₀ db l) (ha : Agree path id db db') :
    StoredAs L path id v₀ db' l := by
  obtain ⟨⟨m, hm, hid, hv⟩, hr⟩ := h
  subst hid
  exact ⟨⟨m, ha.metaAt ▸ hm, rfl, ha.storeView ▸ hv⟩, fun n => ha.recordAt _ ▸ hr n⟩

theorem StoredAs.streamMeta (h : StoredAs L s.path id v₀ db l) (hc : Coherent db s) :
    s.streamMeta.streamID = id ∧ s.id = id ∧ View.Applies L v₀ l (storeView db s.streamMeta) := by
  obtain ⟨m, hm, hid, ha⟩ := h.view
  have := hc.streamMeta
  cases hm.symm.trans this
  exact ⟨hid, hc.id ▸ hid, ha⟩

theorem StoredAs.tail (h : StoredAs L path id v₀ db l) : loadTailSeq db id = v₀.tail + (recordsOf l).length := by
  obtain ⟨m, -, rfl, ha⟩ := h.view
  exact ha.tail

/-! ## Committing a planned batch -/

theorem recordsOf_map (now : Int64) (reqs : List AppendReq) :
    recordsOf (reqs.map (now, ·)) = reqs.flatMap (·.records) := by
  unfold recordsOf
  rw [flatMap_map]

/-- The records that consecutive puts store. -/
theorem effect_recordOpsFrom (id : Nat) (n : Nat) : ∀ (start : Nat) (recs : List Bytes),
    effect (.recordKey id n) (recordOpsFrom id start recs) =
      if start ≤ n then recs[n - start]?.map fun r => some (marshalRecord recFlagNone r) else none
  | start, [] => by simp [recordOpsFrom]
  | start, r :: recs => by
    rw [recordOpsFrom, effect_cons, effect_recordOpsFrom id n (start + 1) recs]
    rcases Nat.lt_trichotomy n start with h | h | h
    · have h1 : ¬ start + 1 ≤ n := by omega
      have h2 : ¬ start ≤ n := by omega
      have h3 : ¬ start = n := by omega
      simp [h1, h2, h3]
    · subst h
      rw [if_neg (by omega)]
      simp
    · obtain ⟨k, rfl⟩ := Nat.exists_eq_add_of_lt h
      have h1 : start + k + 1 - start = k + 1 := by omega
      have h2 : start + k + 1 - (start + 1) = k := by omega
      have h3 : ¬ start = start + k + 1 := by omega
      rw [if_pos (by omega), if_pos (by omega), h1, h2]
      simp [h3]

/-- The records after a committed batch. -/
theorem recordAt_settleOps (L : GoLib) (flt : Faults) (now : Int64) (db db' : Store) (s : Streamer)
    (batch : List AppendReq) (n : Nat) :
    let p := planBatch L flt db s (newPending s now) batch
    recordAt (applyOps db' (settleOps p.st p.pend p.metaChanged)) s.id n =
      ((if s.writeTail ≤ n then (((viewOf flt db s).accepted L now batch).flatMap (·.records))[n - s.writeTail]?
        else none).map (marshalRecord recFlagNone)).or (db'.recordAt s.id n) := by
  intro p
  have hrec := (planBatch_plans L flt db batch s (newPending s now)).recordOps
  rw [pendView_newPending] at hrec
  unfold recordAt
  rw [lookup_applyOps, effect_settleOps_record, hrec]
  show (effect (.recordKey s.id n) (recordOpsFrom s.id s.writeTail
    (((viewOf flt db s).accepted L now batch).flatMap (·.records)))).getD _ = _
  rw [effect_recordOpsFrom]
  split
  · cases (((viewOf flt db s).accepted L now batch).flatMap (·.records))[n - s.writeTail]? <;> rfl
  · rfl

/-- **A committed batch extends the stored log** by its accepted appends. -/
theorem StoredAs.settle {flt : Faults} {db' : Store} (h : StoredAs L s.path id v₀ db' l)
    (hc : Coherent db' s) (hr : ReadsAs flt db db' s) (now : Int64) (batch : List AppendReq) :
    let p := planBatch L flt db s (newPending s now) batch
    StoredAs L s.path id v₀ (applyOps db' (settleOps p.st p.pend p.metaChanged))
      (l ++ ((storeView db' s.streamMeta).accepted L now batch).map (now, ·)) := by
  intro p
  have hp := planBatch_plans L flt db batch s (newPending s now)
  have hP := planning_planBatch L flt db now s batch
  obtain ⟨-, hid, ha⟩ := h.streamMeta hc
  have hc₁ : Coherent db' p.st := hc.loads hr hp.loads
  have hc' := hc₁.settled hP false
  have hview := hp.view
  rw [pendView_newPending, hc.viewOf hr] at hview
  refine ⟨⟨burstMeta p.st p.pend, hp.loads.path ▸ hc'.streamMeta, hc'.id.trans (hp.loads.id.trans hid), ?_⟩,
    fun n => ?_⟩
  · rw [hc₁.storeView_settled (hr.loads hp.loads) hP, hview]
    exact ha.batch batch
  · -- the new records follow the old ones
    have htail : s.writeTail = v₀.tail + (recordsOf l).length := by
      rw [← ha.tail, hc.writeTail, ← hc.id]; rfl
    rw [recordsOf_append, recordsOf_map, getElem?_append, ← hid, recordAt_settleOps, hid, h.records,
      hc.viewOf hr, htail]
    by_cases hlt : n < (recordsOf l).length
    · rw [if_pos hlt, if_neg (by omega)]; rfl
    · have hold : (recordsOf l)[n]? = none := getElem?_eq_none (by omega)
      rw [if_neg hlt, if_pos (by omega), Nat.add_sub_add_left, hold, map_none, or_none]

theorem StoredAs.touch (h : StoredAs L s.path id v₀ db l) (hc : Coherent db s) (now : Int64)
    (commitErr : Option String) : StoredAs L s.path id v₀ (refreshTTLOnRead now commitErr db s).1 l := by
  obtain ⟨hmid, -, ha⟩ := h.streamMeta hc
  have hc' := coherent_refreshTTLOnRead now commitErr hc
  rcases refreshTTLOnRead_cases now commitErr db s with ⟨he, -⟩ | ⟨d, he, -⟩
  · rw [he]; exact h
  · rw [he] at hc' ⊢
    refine ⟨⟨(s.setDeadline d).streamMeta, hc'.streamMeta, hmid, ?_⟩, fun n => ?_⟩
    · rw [storeView_touchOps]; exact ha.slide d
    · rw [← h.records]
      unfold recordAt
      rw [lookup_touchOps db (by simp) (by simp)]

end StoredAs

end Yasdb
