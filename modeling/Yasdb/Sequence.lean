import Yasdb.GroupCommit

/-!
# A batch of appends over the view

Planning a batch is a walk over the writer's view: an accepted append moves it, every other one leaves it
(`View.after`, `View.accepted`).

- `planBatch_plans`: the answers, the records and the final pending view of a planned batch are those of that walk;
- `viewOf_settle`: committing the pending view makes it the view of the committed state;
- `View.Applies`: a view reached by accepted appends, in order.
-/

namespace Yasdb

open Batch List

variable {v : View} {req : AppendReq}

namespace View

variable (L : GoLib) (now : Int64)

instance (v : View) (req : AppendReq) : Decidable (v.Accepts L req) :=
  decidable_of_iff
    (v.closed = false ∧ (req.hasBody = true → contentTypeMatches L v.contentType req.contentType = true) ∧
      (∀ h ∈ req.producer, Follows (v.producers h.id) h.epoch h.seq) ∧ ∀ q ∈ req.streamSeq, v.writerSeq < q)
    ⟨fun ⟨h1, h2, h3, h4⟩ => ⟨h1, h2, h3, h4⟩, fun h => ⟨h.opened, h.contentType, h.producer, h.streamSeq⟩⟩

/-- The view after a batch. -/
def after : View → List AppendReq → View
  | v, [] => v
  | v, req :: reqs => if v.Accepts L req then after (v.apply now req) reqs else after v reqs

/-- The appends of a batch that are accepted. -/
def accepted : View → List AppendReq → List AppendReq
  | _, [] => []
  | v, req :: reqs => if v.Accepts L req then req :: accepted (v.apply now req) reqs else accepted v reqs

/-- The answer to an accepted append. -/
def ack (v : View) (req : AppendReq) : AppendResp where
  status := if req.producer.isSome ∧ 0 < req.records.length then 200 else 204
  nextOffset := tailOffset (v.tail + req.records.length)
  closed := v.closed || req.closeStream
  producerEpoch := req.producer.map (·.epoch)
  producerSeq := req.producer.map (·.seq)

/-- The answers and verdicts on a batch, append by append. -/
inductive Answered : View → List AppendReq → List AppendResp → List Bool → Prop
  | nil (v : View) : Answered v [] [] []
  | accept {v : View} {req : AppendReq} {reqs : List AppendReq} {rs : List AppendResp} {as : List Bool}
      (ha : v.Accepts L req) (h : Answered (v.apply now req) reqs rs as) :
      Answered v (req :: reqs) (v.ack req :: rs) (true :: as)
  | noop {v : View} {req : AppendReq} {reqs : List AppendReq} {resp : AppendResp} {rs : List AppendResp}
      {as : List Bool} (hn : v.Noop req resp) (hi : v.IsNoop L req) (h : Answered v reqs rs as) :
      Answered v (req :: reqs) (resp :: rs) (false :: as)
  | reject {v : View} {req : AppendReq} {reqs : List AppendReq} {resp : AppendResp} {rs : List AppendResp}
      {as : List Bool} (hr : Rejects resp) (ha : ¬ v.Accepts L req) (hi : ¬ v.IsNoop L req)
      (h : Answered v reqs rs as) : Answered v (req :: reqs) (resp :: rs) (false :: as)

theorem Answered.length {batch : List AppendReq} {rs : List AppendResp} {as : List Bool}
    (h : Answered L now v batch rs as) : rs.length = batch.length ∧ as.length = batch.length := by
  induction h with
  | nil v => exact ⟨rfl, rfl⟩
  | accept _ _ ih => simp [ih]
  | noop _ _ _ ih => simp [ih]
  | reject _ _ _ _ ih => simp [ih]

/-- `v'` is reached from `v` by accepted appends, each at its own clock value, and by moves of the deadline. -/
inductive Applies : View → List (Int64 × AppendReq) → View → Prop
  | nil (v : View) : Applies v [] v
  | slide {v v' : View} {l : List (Int64 × AppendReq)} (d : UInt64) (h : Applies v l v') :
      Applies v l { v' with deadline := d }
  | snoc {v v' : View} {l : List (Int64 × AppendReq)} (now : Int64) (req : AppendReq) (h : Applies v l v')
      (ha : v'.Accepts L req) : Applies v (l ++ [(now, req)]) (v'.apply now req)

variable {L now}

theorem after_cons_accept (ha : v.Accepts L req) (reqs : List AppendReq) :
    v.after L now (req :: reqs) = (v.apply now req).after L now reqs := by
  simp [after, ha]

theorem after_cons_not (ha : ¬ v.Accepts L req) (reqs : List AppendReq) :
    v.after L now (req :: reqs) = v.after L now reqs := by
  simp [after, ha]

theorem accepted_cons_accept (ha : v.Accepts L req) (reqs : List AppendReq) :
    v.accepted L now (req :: reqs) = req :: (v.apply now req).accepted L now reqs := by
  simp [accepted, ha]

theorem accepted_cons_not (ha : ¬ v.Accepts L req) (reqs : List AppendReq) :
    v.accepted L now (req :: reqs) = v.accepted L now reqs := by
  simp [accepted, ha]

theorem Applies.batch {v₀ : View} {l : List (Int64 × AppendReq)} (h : Applies L v₀ l v) (batch : List AppendReq) :
    Applies L v₀ (l ++ (v.accepted L now batch).map (now, ·)) (v.after L now batch) := by
  induction batch generalizing v l with
  | nil => simpa [accepted, after] using h
  | cons req reqs ih =>
    by_cases ha : v.Accepts L req
    · rw [after_cons_accept ha, accepted_cons_accept ha, map_cons, append_cons]
      exact ih (.snoc now req h ha)
    · rw [after_cons_not ha, accepted_cons_not ha]
      exact ih h

end View

/-! ## Planning a batch -/

section PlanBatch

variable (L : GoLib) (flt : Faults) (db : Store)

/-- What planning a batch yields. -/
structure Plans (s : Streamer) (pend : PendingBurst) (batch : List AppendReq) (p : Planned) : Prop where
  loads : Loads flt db s p.st
  now : p.pend.now = pend.now
  view : pendView flt db p.st p.pend = (pendView flt db s pend).after L pend.now batch
  recordOps : p.pend.recordOps = pend.recordOps ++
    recordOpsFrom s.id pend.tail (((pendView flt db s pend).accepted L pend.now batch).flatMap (·.records))
  metaChanged : p.metaChanged = ((pendView flt db s pend).accepted L pend.now batch).any (·.closeStream)
  answered : View.Answered L pend.now (pendView flt db s pend) batch p.responses p.accepted

theorem recordOpsFrom_append (id start : Nat) (recs recs' : List Bytes) : recordOpsFrom id start (recs ++ recs') =
      recordOpsFrom id start recs ++ recordOpsFrom id (start + recs.length) recs' := by
  induction recs generalizing start with
  | nil => rfl
  | cons rec recs ih =>
    rw [cons_append, recordOpsFrom, recordOpsFrom, ih, cons_append, length_cons, Nat.add_right_comm, Nat.add_assoc]

theorem acceptPending_now (s : Streamer) (pend : PendingBurst) (req : AppendReq) :
    (acceptPending s pend req (View.newProd req)).now = pend.now := by
  rw [acceptPending_eq]

theorem acceptPending_tail (s : Streamer) (pend : PendingBurst) (req : AppendReq) :
    (acceptPending s pend req (View.newProd req)).tail = pend.tail + req.records.length := by
  rw [acceptPending_eq]

theorem acceptPending_recordOps (s : Streamer) (pend : PendingBurst) (req : AppendReq) :
    (acceptPending s pend req (View.newProd req)).recordOps =
      pend.recordOps ++ recordOpsFrom s.id pend.tail req.records := by
  rw [acceptPending_eq]

/-- **Planning a batch is a walk over the view.** -/
theorem planBatch_plans (batch : List AppendReq) (s : Streamer) (pend : PendingBurst) :
    Plans L flt db s pend batch (planBatch L flt db s pend batch) := by
  induction batch generalizing s pend with
  | nil => exact ⟨Loads.refl s, rfl, rfl, by simp [planBatch, recordOpsFrom, View.accepted], rfl, .nil _⟩
  | cons req reqs ih =>
    have hcase := planAppend_cases L flt db s pend req
    rcases he : planAppend L flt db s pend req with ⟨s₁, pend₁, resp, acc⟩
    rw [he] at hcase
    have ih := ih s₁ pend₁
    simp only [planBatch, he]
    cases hcase with
    | accept _ hl ha =>
      have hv : pendView flt db s₁ (acceptPending s₁ pend req (View.newProd req)) =
          (pendView flt db s pend).apply pend.now req := by rw [pendView_accept, hl.pendView]
      obtain ⟨h1, h2, h3, h4, h5, h6⟩ := ih
      rw [acceptPending_now] at h2 h3 h4 h5 h6
      rw [hv] at h3 h4 h5 h6
      refine ⟨hl.trans h1, h2, ?_, ?_, ?_, .accept ha h6⟩
      · rw [View.after_cons_accept ha]; exact h3
      · rw [View.accepted_cons_accept ha, flatMap_cons, recordOpsFrom_append]
        rw [acceptPending_recordOps, acceptPending_tail, hl.id] at h4
        rw [h4, append_assoc]
      · rw [View.accepted_cons_accept ha, any_cons, h5, Bool.true_and]
    | noop _ _ hl hn hi =>
      have ha : ¬ (pendView flt db s pend).Accepts L req := fun ha => ha.not_isNoop hi
      obtain ⟨h1, h2, h3, h4, h5, h6⟩ := ih
      rw [hl.pendView] at h3 h4 h5 h6
      rw [hl.id] at h4
      refine ⟨hl.trans h1, h2, ?_, ?_, ?_, .noop hn hi h6⟩
      · rw [View.after_cons_not ha]; exact h3
      · rw [View.accepted_cons_not ha]; exact h4
      · rw [View.accepted_cons_not ha, h5, Bool.false_and, Bool.false_or]
    | reject _ _ hl hr ha hi =>
      obtain ⟨h1, h2, h3, h4, h5, h6⟩ := ih
      rw [hl.pendView] at h3 h4 h5 h6
      rw [hl.id] at h4
      refine ⟨hl.trans h1, h2, ?_, ?_, ?_, .reject hr ha hi h6⟩
      · rw [View.after_cons_not ha]; exact h3
      · rw [View.accepted_cons_not ha]; exact h4
      · rw [View.accepted_cons_not ha, h5, Bool.false_and, Bool.false_or]

theorem planning_planBatch (now : Int64) (s : Streamer) (batch : List AppendReq) :
    Planning now (planBatch L flt db s (newPending s now) batch).st
      (planBatch L flt db s (newPending s now) batch).pend
      (planBatch L flt db s (newPending s now) batch).metaChanged := by
  have h := (planning_newPending now s).planBatch L flt db batch
  rwa [Bool.false_or] at h

end PlanBatch

/-! ## Committing -/

section Settle

variable {flt : Faults} {now : Int64} {s : Streamer} {pend : PendingBurst} {mc : Bool}

/-- **Committing the pending view makes it the committed view.** -/
theorem viewOf_settle (db : Store) (hP : Planning now s pend mc) :
    viewOf flt (settle db s pend mc).1 (settle db s pend mc).2 = pendView flt db s pend := by
  refine View.ext rfl rfl rfl rfl rfl (funext fun pid => ?_) ?_
  · -- an overlaid producer is cached, any other one has its old entry
    have hdb : (settle db s pend mc).1.producerAt s.id pid =
        (pend.producers.lookup pid).or (db.producerAt s.id pid) := by
      unfold settle Store.producerAt
      rw [lookup_applyOps, effect_settleOps_producer hP.records, if_pos rfl]
      cases pend.producers.lookup pid <;> rfl
    show producerOf flt (settle db s pend mc).1 (settle db s pend mc).2 pid = _
    rw [pendView_producers]
    unfold producerOf
    rw [show (settle db s pend mc).2.id = s.id from rfl, hdb]
    simp only [settle, settled]
    cases pend.producers.lookup pid <;> rfl
  · have hdb : (settle db s pend mc).1.writerSeqAt s.id = pend.writerSeq.or (db.writerSeqAt s.id) := by
      unfold settle Store.writerSeqAt
      rw [lookup_applyOps, effect_settleOps_writerSeq hP.records, if_pos rfl]
      cases pend.writerSeq <;> rfl
    show writerSeqOf flt (settle db s pend mc).1 (settle db s pend mc).2 = _
    rw [pendView_writerSeq]
    unfold writerSeqOf
    rw [show (settle db s pend mc).2.id = s.id from rfl, hdb]
    simp only [settle, settled]
    cases pend.writerSeq <;> rfl

end Settle

theorem syncBurst_failed (L : GoLib) (flt : Faults) (now : Int64) (err : String) (db : Store) (s : Streamer)
    (batch : List AppendReq) :
    (syncBurst L flt now (some err) (db, s) batch).1.1 = db ∧
      Loads flt db s (syncBurst L flt now (some err) (db, s) batch).1.2 := by
  have hl := (planBatch_plans L flt db batch s (newPending s now)).loads
  unfold syncBurst processBurst
  dsimp only
  split
  · rename_i h; split at h <;> cases h; exact ⟨rfl, hl⟩
  · rename_i h; split at h <;> cases h; exact ⟨rfl, hl⟩

end Yasdb
