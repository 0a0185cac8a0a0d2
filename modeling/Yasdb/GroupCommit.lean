import Yasdb.Burst

/-!
# Group commit refines one-at-a-time processing

Committing a burst at once gives what committing its appends one by one gives (`syncBurst_eq_oneAtATime`).

`settle` commits the pending view reached so far. Planning one more append commutes with settling
(`planAppend_settled`), and settling a pending view and then its extension is settling the extended view
(`settle_settle`).
-/

namespace Yasdb

open Batch List Option Prod Streamer View

/-- The appends of a batch, each in a burst of its own. -/
def oneAtATime (L : GoLib) (flt : Faults) (now : Int64) : Store × Streamer → List AppendReq →
    (Store × Streamer) × List AppendResp
  | w, [] => (w, [])
  | w, req :: reqs =>
    let first := syncBurst L flt now none w [req]
    let rest := oneAtATime L flt now first.1 reqs
    (rest.1, first.2 ++ rest.2)

/-! ## Settling a pending view -/

/-- The operations of a burst, none when there is nothing to write. -/
def settleOps (s : Streamer) (pend : PendingBurst) (mc : Bool) : List Op :=
  if nothing s pend mc then [] else burstOps s pend mc

/-- The streamer after the pending view is committed. -/
def settled (pend : PendingBurst) (wrote mc : Bool) (s : Streamer) : Streamer :=
  { s with
    writeTail := pend.tail
    streamMeta := burstMeta s pend
    producers := fun pid => ((pend.producers.lookup pid).map some).or (s.producers pid)
    writerSeq := pend.writerSeq.or s.writerSeq
    tail := if wrote then pend.tail else s.tail
    closed := mc || s.closed }

theorem settled_tail (pend : PendingBurst) (wrote mc : Bool) (s : Streamer) :
    (settled pend wrote mc s).tail = if wrote then pend.tail else s.tail := rfl

/-- Commit the pending view. -/
def settle (db : Store) (s : Streamer) (pend : PendingBurst) (mc : Bool) : Store × Streamer :=
  (applyOps db (settleOps s pend mc), settled pend (!nothing s pend mc) mc s)

/-- A pending view as planning builds it over `s`; `mc` says that an append has closed the stream. -/
structure Planning (now : Int64) (s : Streamer) (pend : PendingBurst) (mc : Bool) : Prop where
  clock : pend.now = now
  records : RecordOps s.id pend.recordOps
  tail : pend.recordOps = [] → pend.tail = s.writeTail
  closed : pend.closed = (s.streamMeta.closed || mc)
  frozen : s.streamMeta.closed = true → nothing s pend mc = true
  deadline : pend.deadline = s.streamMeta.deadline ∨
    pend.deadline = slideDeadline now s.streamMeta.ttlSeconds s.streamMeta.deadline

theorem nothing_iff {s : Streamer} {pend : PendingBurst} {mc : Bool} :
    nothing s pend mc = true ↔ pend.recordOps = [] ∧ mc = false ∧ pend.writerSeq = none ∧
      (∀ pid, pend.producers.lookup pid = none) ∧ pend.deadline = s.streamMeta.deadline := by
  have he : pend.producers.entries.isEmpty = true ↔ ∀ pid, pend.producers.lookup pid = none := by
    rw [List.isEmpty_iff]
    constructor
    · intro h pid
      unfold AList.lookup
      rw [h]; rfl
    · intro h
      cases hes : pend.producers.entries with
      | nil => rfl
      | cons e es =>
        have := h e.1
        unfold AList.lookup at this
        rw [hes, dlookup_cons_eq] at this
        cases this
  simp only [nothing, deadlineChanged, Bool.and_eq_true, he, List.isEmpty_iff, Bool.not_eq_true',
    Option.isNone_iff_eq_none,
    bne_eq_false_iff_eq, and_assoc]

theorem planning_newPending (now : Int64) (s : Streamer) : Planning now s (newPending s now) false := by
  refine ⟨rfl, recordOps_nil _, fun _ => rfl, by simp [newPending], fun _ => ?_, .inl rfl⟩
  exact nothing_iff.mpr ⟨rfl, rfl, rfl, fun pid => rfl, rfl⟩

section Settle

variable {now : Int64} {s : Streamer} {pend : PendingBurst} {mc : Bool}

theorem effect_settleOps_of_eq {k : Key} {e : Option (Option k.Val)} (he : effect k (burstOps s pend mc) = e)
    (hn : nothing s pend mc = true → e = none) : effect k (settleOps s pend mc) = e := by
  unfold settleOps
  split
  · rename_i h; rw [hn h]; rfl
  · exact he

/-- The sync committer settles the final pending view of a burst. -/
theorem syncBurst_eq (L : GoLib) (flt : Faults) (db : Store) (batch : List AppendReq)
    (hP : Planning now (planBatch L flt db s (newPending s now) batch).st
      (planBatch L flt db s (newPending s now) batch).pend
      (planBatch L flt db s (newPending s now) batch).metaChanged) :
    syncBurst L flt now none (db, s) batch =
      let p := planBatch L flt db s (newPending s now) batch
      (settle db p.st p.pend p.metaChanged, p.responses) := by
  unfold syncBurst processBurst
  generalize planBatch L flt db s (newPending s now) batch = p at hP
  by_cases hn : nothing p.st p.pend p.metaChanged = true
  · obtain ⟨h1, h2, h3, h4, h5⟩ := nothing_iff.mp hn
    have hc : p.pend.closed = p.st.streamMeta.closed := by rw [hP.closed, h2, Bool.or_false]
    simp only [hn, if_true, settle, settleOps, applyOps_nil, Prod.mk.injEq, and_true, true_and]
    apply Streamer.ext <;> simp [settled, burstMeta, hP.tail h1, h2, h3, h4, h5, hc]
  · have hf : p.st.streamMeta.closed = false := by
      by_contra hc
      exact hn (hP.frozen (by simpa using hc))
    simp only [hn, Bool.false_eq_true, if_false, syncCommit, settle, settleOps, Prod.mk.injEq, and_true, true_and]
    have hc := hP.closed
    rw [hf, Bool.false_or] at hc
    apply Streamer.ext <;> simp [settled, applyReader, applyWriter, burstMeta]
    · intro h1 h2
      have hd : p.pend.deadline = p.st.streamMeta.deadline := by simpa [deadlineChanged] using h2
      rw [hc, h1, hd, ← hf]
    · rw [hc]; cases p.metaChanged <;> simp

end Settle

/-! ## Planning commutes with settling -/

/-- The pending view at the start of the next burst. -/
def rebase (pend : PendingBurst) : PendingBurst := { pend with producers := ∅, writerSeq := none, recordOps := [] }

section Commute

variable {L : GoLib} {flt : Faults} {db db' : Store} {pend : PendingBurst} {wrote mc : Bool}

theorem settled_setProducer {pid : Bytes} (h : pend.producers.lookup pid = none) (s : Streamer)
    (st : Option ProducerState) :
    settled pend wrote mc (s.setProducer pid st) = (settled pend wrote mc s).setProducer pid st := by
  apply Streamer.ext <;> try rfl
  funext q
  by_cases hq : q = pid
  · subst hq; simp [settled, setProducer, h]
  · simp [settled, setProducer, Function.update_of_ne hq]

theorem settled_setWriterSeq (h : pend.writerSeq = none) (s : Streamer) (v : Bytes) :
    settled pend wrote mc (s.setWriterSeq v) = (settled pend wrote mc s).setWriterSeq v := by
  apply Streamer.ext <;> simp [settled, Streamer.setWriterSeq, burstMeta, h]

/-- `db'` is `db` with at most the pending entries of the stream `id` changed. -/
structure Agrees (pend : PendingBurst) (db db' : Store) (id : Nat) : Prop where
  producers : ∀ pid, pend.producers.lookup pid = none → db'.producerAt id pid = db.producerAt id pid
  writerSeq : pend.writerSeq = none → db'.writerSeqAt id = db.writerSeqAt id

variable {s : Streamer}

section

variable (ha : Agrees pend db db' s.id)
include ha

theorem effProducer_settled (pid : Bytes) : effProducer flt db' (settled pend wrote mc s) (rebase pend) pid =
      (settled pend wrote mc (effProducer flt db s pend pid).1, (effProducer flt db s pend pid).2) := by
  have hr : effProducer flt db' (settled pend wrote mc s) (rebase pend) pid =
      loadProducer flt db' (settled pend wrote mc s) pid := rfl
  rw [hr, loadProducer_eq]
  unfold effProducer
  cases ho : pend.producers.lookup pid with
  | some ps =>
    have hp : (settled pend wrote mc s).producers pid = some (some ps) := by simp [settled, ho]
    have hk : producerOf flt db' (settled pend wrote mc s) pid = some ps := by simp [producerOf, hp]
    rw [hk]
    unfold setProducer
    rw [← hp, Function.update_eq_self]
  | none =>
    have hk : producerOf flt db' (settled pend wrote mc s) pid = producerOf flt db s pid := by
      have hp : (settled pend wrote mc s).producers pid = s.producers pid := by simp [settled, ho]
      have hid : (settled pend wrote mc s).id = s.id := rfl
      simp only [producerOf, hp, hid, ha.producers pid ho]
    rw [hk, loadProducer_eq, settled_setProducer ho]

theorem effWriterSeq_settled : effWriterSeq flt db' (settled pend wrote mc s) (rebase pend) =
      (settled pend wrote mc (effWriterSeq flt db s pend).1, (effWriterSeq flt db s pend).2) := by
  have hr : effWriterSeq flt db' (settled pend wrote mc s) (rebase pend) =
      loadWriterSeq flt db' (settled pend wrote mc s) := rfl
  rw [hr, loadWriterSeq_eq]
  unfold effWriterSeq
  cases ho : pend.writerSeq with
  | some v =>
    have hp : (settled pend wrote mc s).writerSeq = some v := by simp [settled, ho]
    have hk : writerSeqOf flt db' (settled pend wrote mc s) = v := by simp [writerSeqOf, hp]
    rw [hk]
    dsimp only
    unfold setWriterSeq
    rw [← hp]
  | none =>
    have hk : writerSeqOf flt db' (settled pend wrote mc s) = writerSeqOf flt db s := by
      have hp : (settled pend wrote mc s).writerSeq = s.writerSeq := by simp [settled, ho]
      have hid : (settled pend wrote mc s).id = s.id := rfl
      simp only [writerSeqOf, hp, hid, ha.writerSeq ho]
    rw [hk, loadWriterSeq_eq, settled_setWriterSeq ho]

theorem planAppendClosed_settled (req : AppendReq) :
    planAppendClosed flt db' (settled pend wrote mc s) (rebase pend) req =
      (settled pend wrote mc (planAppendClosed flt db s pend req).1, (planAppendClosed flt db s pend req).2) := by
  unfold planAppendClosed
  split
  · rfl
  · cases req.producer with
    | none => rfl
    | some h =>
      dsimp only
      rw [effProducer_settled ha]
      split <;> rfl

theorem planProducer_settled (req : AppendReq) : planProducer flt db' (settled pend wrote mc s) (rebase pend) req =
      (settled pend wrote mc (planProducer flt db s pend req).1, (planProducer flt db s pend req).2) := by
  unfold planProducer
  cases req.producer with
  | none => rfl
  | some h =>
    dsimp only
    rw [effProducer_settled ha]
    cases validateProducer (effProducer flt db s pend h.id).2 h <;> rfl

theorem planStreamSeq_settled (req : AppendReq) : planStreamSeq flt db' (settled pend wrote mc s) (rebase pend) req =
      (settled pend wrote mc (planStreamSeq flt db s pend req).1, (planStreamSeq flt db s pend req).2) := by
  unfold planStreamSeq
  cases req.streamSeq with
  | none => rfl
  | some v =>
    rw [effWriterSeq_settled ha]

end

/-- **Planning commutes with settling**: over the settled state an append gets the same answer and verdict, and
leaves the same cache, as over the pending view. -/
theorem planAppend_settled (L : GoLib) (flt : Faults) (wrote mc : Bool) (ha : Agrees pend db db' s.id)
    (req : AppendReq) : ∃ s₁ pend₁ pend₂ resp acc, planAppend L flt db s pend req = (s₁, pend₁, resp, acc) ∧
      planAppend L flt db' (settled pend wrote mc s) (rebase pend) req =
        (settled pend wrote mc s₁, pend₂, resp, acc) := by
  unfold planAppend
  have hc : (rebase pend).closed = pend.closed := rfl
  have hct : (settled pend wrote mc s).streamMeta.contentType = s.streamMeta.contentType := rfl
  rw [hc, hct]
  split
  · rw [planAppendClosed_settled ha]
    exact ⟨_, _, _, _, _, rfl, rfl⟩
  split
  · exact ⟨_, _, _, _, _, rfl, rfl⟩
  rw [planProducer_settled ha]
  rcases hp : planProducer flt db s pend req with ⟨t, resp | np⟩
  · exact ⟨_, _, _, _, _, rfl, rfl⟩
  dsimp only
  have hid : t.id = s.id := by
    obtain ⟨t', hl', ⟨he, -⟩ | ⟨_, _, he, -⟩⟩ := planProducer_spec flt db s pend req
    · rw [hp, Prod.mk.injEq] at he; rw [he.1]; exact hl'.id
    · rw [hp] at he; cases he
  rw [planStreamSeq_settled (hid ▸ ha)]
  rcases planStreamSeq flt db t pend req with ⟨t', b⟩
  cases b
  · exact ⟨_, _, _, _, _, rfl, rfl⟩
  · exact ⟨_, _, _, _, _, rfl, rfl⟩

end Commute

/-! ## Planning keeps the shape of the pending view -/

section Shape

variable {L : GoLib} {flt : Faults} {db : Store} {now : Int64} {s : Streamer} {pend : PendingBurst} {mc : Bool}

theorem acceptPending_eq (s : Streamer) (pend : PendingBurst) (req : AppendReq) :
    acceptPending s pend req (newProd req) =
      { tail := pend.tail + req.records.length
        closed := pend.closed || req.closeStream
        deadline := slideDeadline pend.now s.streamMeta.ttlSeconds pend.deadline
        producers := match req.producer with
          | some h => pend.producers.insert h.id ⟨h.epoch, h.seq, req.closeStream⟩
          | none => pend.producers
        writerSeq := req.streamSeq.or pend.writerSeq
        recordOps := pend.recordOps ++ recordOpsFrom s.id pend.tail req.records
        now := pend.now } := by
  unfold acceptPending newProd
  rw [slideTTL_eq]
  cases req.producer <;> cases req.streamSeq <;> rfl

theorem recordOpsFrom_eq_nil {id start : Nat} {recs : List Bytes} : recordOpsFrom id start recs = [] ↔ recs = [] := by
  cases recs <;> simp [recordOpsFrom]

theorem Planning.loads {s' : Streamer} (h : Planning now s pend mc) (hl : Loads flt db s s') :
    Planning now s' pend mc := by
  have hn : nothing s' pend mc = nothing s pend mc := by simp [nothing, deadlineChanged, hl.streamMeta]
  exact ⟨h.clock, hl.id ▸ h.records, hl.writeTail ▸ h.tail, hl.streamMeta ▸ h.closed,
    fun hc => hn ▸ h.frozen (hl.streamMeta ▸ hc), hl.streamMeta ▸ h.deadline⟩

/-- Planning one append keeps the shape. -/
theorem Planning.step {s₁ : Streamer} {pend₁ : PendingBurst} {req : AppendReq} {resp : AppendResp} {acc : Bool}
    (h : Planning now s pend mc) (he : planAppend L flt db s pend req = (s₁, pend₁, resp, acc)) :
    Planning now s₁ pend₁ (mc || (acc && req.closeStream)) := by
  have hcase := planAppend_cases L flt db s pend req
  rw [he] at hcase
  cases hcase with
  | noop _ _ hl => simpa using h.loads hl
  | reject _ _ hl => simpa using h.loads hl
  | accept _ hl ha =>
    have h₁ := h.loads hl
    have hopen : pend.closed = false := ha.opened
    have hcl := h₁.closed
    rw [hopen] at hcl
    obtain ⟨hm, hmc⟩ : s₁.streamMeta.closed = false ∧ mc = false := by simpa using hcl.symm
    rw [acceptPending_eq]
    refine ⟨h.clock, h₁.records.append (recordOps_recordOpsFrom _ _ _), fun hr => ?_, ?_, fun hc => ?_, ?_⟩
    · obtain ⟨hr1, hr2⟩ := append_eq_nil_iff.mp hr
      have hrec : req.records = [] := recordOpsFrom_eq_nil.mp hr2
      simp [hrec, h₁.tail hr1]
    · simp [hopen, hm, hmc]
    · rw [hm] at hc; cases hc
    · right
      rcases h₁.deadline with hd | hd
      · simp [h₁.clock, hd]
      · simp [h₁.clock, hd, slideDeadline_idem]

end Shape

/-! ## Settling in two steps -/

/-- `pend₁` is `pend` followed by `pend'`. -/
structure Extends (pend pend' pend₁ : PendingBurst) : Prop where
  recordOps : pend₁.recordOps = pend.recordOps ++ pend'.recordOps
  tail : pend₁.tail = pend'.tail
  closed : pend₁.closed = pend'.closed
  deadline : pend₁.deadline = pend'.deadline
  now : pend₁.now = pend'.now
  producers : ∀ pid, pend₁.producers.lookup pid = (pend'.producers.lookup pid).or (pend.producers.lookup pid)
  writerSeq : pend₁.writerSeq = pend'.writerSeq.or pend.writerSeq

theorem extends_rebase (pend : PendingBurst) : Extends pend (rebase pend) pend := by
  refine ⟨by simp [rebase], rfl, rfl, rfl, rfl, fun pid => ?_, by simp [rebase]⟩
  rw [show (rebase pend).producers.lookup pid = none from rfl, none_or]

theorem extends_accept (s : Streamer) (pend : PendingBurst) (wrote mc : Bool) (req : AppendReq) :
    Extends pend (acceptPending (settled pend wrote mc s) (rebase pend) req (newProd req))
      (acceptPending s pend req (newProd req)) := by
  rw [acceptPending_eq, acceptPending_eq]
  refine ⟨rfl, rfl, rfl, rfl, rfl, fun pid => ?_, by simp [rebase]⟩
  cases req.producer with
  | none => simp [rebase]
  | some h =>
    by_cases hp : pid = h.id
    · subst hp; simp
    · simp only [AList.lookup_insert_ne hp]; simp [rebase]

section SettleEffect

variable {now : Int64} {s : Streamer} {pend : PendingBurst} {mc : Bool}

theorem effect_settleOps_record (i n : Nat) :
    effect (.recordKey i n) (settleOps s pend mc) = effect (.recordKey i n) pend.recordOps :=
  effect_settleOps_of_eq (effect_burstOps_record i n mc) fun h => by rw [(nothing_iff.mp h).1]; rfl

variable (hr : RecordOps s.id pend.recordOps)
include hr

theorem effect_settleOps_tail (i : Nat) : effect (.tailKey i) (settleOps s pend mc) =
      if i = s.id ∧ nothing s pend mc = false then some (some (marshalTail pend.tail pend.now)) else none := by
  unfold settleOps
  cases hn : nothing s pend mc with
  | true => simp
  | false => simp [effect_burstOps_tail hr]

theorem effect_settleOps_producer (i : Nat) (pid : Bytes) : effect (.producerKey i pid) (settleOps s pend mc) =
      if i = s.id then (pend.producers.lookup pid).map some else none :=
  effect_settleOps_of_eq (effect_burstOps_producer hr i pid mc) fun h => by simp [(nothing_iff.mp h).2.2.2.1 pid]

theorem effect_settleOps_writerSeq (i : Nat) :
    effect (.writerSeqKey i) (settleOps s pend mc) = if i = s.id then pend.writerSeq.map some else none :=
  effect_settleOps_of_eq (effect_burstOps_writerSeq hr i mc) fun h => by simp [(nothing_iff.mp h).2.2.1]

theorem effect_settleOps_expiry (d : UInt64) (i : Nat) : effect (.expiryKey d i) (settleOps s pend mc) =
      if i = s.id ∧ pend.deadline ≠ s.streamMeta.deadline then
        if d = s.streamMeta.deadline ∧ s.streamMeta.deadline > 0 then some none
        else if d = pend.deadline then some (some s.streamMeta.ttlSeconds) else none
      else none :=
  effect_settleOps_of_eq (effect_burstOps_expiry hr d i mc) fun h => by simp [(nothing_iff.mp h).2.2.2.2]

theorem effect_settleOps_meta (q : Bytes) : effect (.metaKey q) (settleOps s pend mc) =
      if q = s.path ∧ (mc || deadlineChanged s pend) = true then some (some (burstMeta s pend)) else none :=
  effect_settleOps_of_eq (effect_burstOps_meta hr q mc) fun h => by
    obtain ⟨-, h2, -, -, h5⟩ := nothing_iff.mp h
    simp [deadlineChanged, h2, h5]

theorem effect_settleOps_other {k : Key}
    (hk : k.keyType ≠ 1 ∧ k.keyType ≠ 3 ∧ k.keyType ≠ 4 ∧ k.keyType ≠ 5 ∧ k.keyType ≠ 6 ∧ k.keyType ≠ 7) :
    effect k (settleOps s pend mc) = none :=
  effect_settleOps_of_eq (effect_burstOps_other hr mc hk) fun _ => rfl

end SettleEffect

section Compose

variable {now : Int64} {s : Streamer} {pend pend' pend₁ : PendingBurst} {mc mc' wrote : Bool}

section

variable (hP : Planning now s pend mc) (hQ : Planning now (settled pend wrote mc s) pend' mc')
include hP hQ

/-- The deadline does not move back: it has moved at the end iff it has moved in one of the two steps. -/
theorem deadline_moved : pend'.deadline ≠ s.streamMeta.deadline ↔
      pend.deadline ≠ s.streamMeta.deadline ∨ pend'.deadline ≠ pend.deadline := by
  have hQd : pend'.deadline = pend.deadline ∨
      pend'.deadline = slideDeadline now s.streamMeta.ttlSeconds pend.deadline := hQ.deadline
  rcases hP.deadline with hp | hp
  · rw [hp] at hQd ⊢; tauto
  · rw [hp, slideDeadline_idem] at hQd
    rw [hp]
    rcases hQd with hq | hq <;> rw [hq] <;> tauto

theorem nothing_compose (he : Extends pend pend' pend₁) :
    nothing s pend₁ (mc || mc') = (nothing s pend mc && nothing (settled pend wrote mc s) pend' mc') := by
  have hd := deadline_moved hP hQ
  rw [Bool.eq_iff_iff, Bool.and_eq_true, nothing_iff, nothing_iff, nothing_iff, he.recordOps, he.writerSeq, he.deadline]
  simp only [he.producers, or_eq_none_iff, append_eq_nil_iff, Bool.or_eq_false_iff, forall_and]
  have hs : (settled pend wrote mc s).streamMeta.deadline = pend.deadline := rfl
  rw [hs]
  constructor
  · rintro ⟨⟨h1, h2⟩, ⟨h3, h4⟩, ⟨h5, h6⟩, ⟨h7, h8⟩, h9⟩
    have h10 : ¬ (pend.deadline ≠ s.streamMeta.deadline ∨ pend'.deadline ≠ pend.deadline) := fun h => hd.mpr h h9
    rw [not_or, not_not, not_not] at h10
    exact ⟨⟨h1, h3, h6, h8, h10.1⟩, h2, h4, h5, h7, h10.2⟩
  · rintro ⟨⟨h1, h2, h3, h4, h5⟩, h6, h7, h8, h9, h10⟩
    exact ⟨⟨h1, h6⟩, ⟨h2, h7⟩, ⟨h8, h3⟩, ⟨h9, h4⟩, h10.trans h5⟩

/-- The two batches leave what the batch of the extended view leaves. -/
theorem effect_compose (he : Extends pend pend' pend₁) (k : Key) :
    effect k (settleOps s pend mc ++ settleOps (settled pend wrote mc s) pend' mc') =
      effect k (settleOps s pend₁ (mc || mc')) := by
  have hr := hP.records
  have hr' : RecordOps (settled pend wrote mc s).id pend'.recordOps := hQ.records
  have hr₁ : RecordOps s.id pend₁.recordOps := by rw [he.recordOps]; exact hr.append hr'
  have hid : (settled pend wrote mc s).id = s.id := rfl
  have hpath : (settled pend wrote mc s).path = s.path := rfl
  have hdl : (settled pend wrote mc s).streamMeta.deadline = pend.deadline := rfl
  have httl : (settled pend wrote mc s).streamMeta.ttlSeconds = s.streamMeta.ttlSeconds := rfl
  have hmoved := deadline_moved hP hQ
  rw [effect_append]
  cases k with
  | recordKey i n =>
    rw [effect_settleOps_record, effect_settleOps_record, effect_settleOps_record, he.recordOps, effect_append]
  | tailKey i =>
    rw [effect_settleOps_tail hr, effect_settleOps_tail hr', effect_settleOps_tail hr₁, nothing_compose hP hQ he, hid,
      he.tail, he.now, hP.clock, hQ.clock]
    by_cases hi : i = s.id
    · cases hn' : nothing (settled pend wrote mc s) pend' mc' with
      | false => simp [hi]
      | true =>
        -- the second step writes nothing, so the tail stands where the first step left it
        have ht : pend'.tail = pend.tail := hQ.tail (nothing_iff.mp hn').1
        cases nothing s pend mc <;> simp [hi, ht]
    · simp [hi]
  | producerKey i pid =>
    rw [effect_settleOps_producer hr, effect_settleOps_producer hr', effect_settleOps_producer hr₁, hid, he.producers]
    by_cases hi : i = s.id
    · simp only [hi, if_true]
      cases pend'.producers.lookup pid <;> simp
    · simp [hi]
  | writerSeqKey i =>
    rw [effect_settleOps_writerSeq hr, effect_settleOps_writerSeq hr', effect_settleOps_writerSeq hr₁, hid,
      he.writerSeq]
    by_cases hi : i = s.id
    · simp only [hi, if_true]
      cases pend'.writerSeq <;> simp
    · simp [hi]
  | expiryKey d i =>
    rw [effect_settleOps_expiry hr, effect_settleOps_expiry hr', effect_settleOps_expiry hr₁, hid, hdl, httl,
      he.deadline]
    by_cases hi : i = s.id
    · -- only one of the two steps moves the deadline
      by_cases h1 : pend.deadline = s.streamMeta.deadline
      · rw [h1]
        simp [hi]
      · have h2 : pend'.deadline = pend.deadline := by
          rcases hQ.deadline with h | h
          · exact h
          · rcases hP.deadline with h' | h'
            · exact absurd h' h1
            · rw [h, hdl, httl, h', slideDeadline_idem]
        rw [h2]
        simp [hi, h1]
    · simp [hi]
  | metaKey q =>
    have hbm : burstMeta (settled pend wrote mc s) pend' = burstMeta s pend₁ := by
      simp [burstMeta, settled, he.closed, he.deadline]
    have hdc : deadlineChanged s pend₁ =
        (deadlineChanged s pend || deadlineChanged (settled pend wrote mc s) pend') := by
      rw [Bool.eq_iff_iff, Bool.or_eq_true]
      simp only [deadlineChanged, bne_iff_ne, he.deadline, hdl]
      exact hmoved
    rw [effect_settleOps_meta hr, effect_settleOps_meta hr', effect_settleOps_meta hr₁, hpath, hbm, hdc]
    by_cases hq : q = s.path
    · by_cases h' : (mc' || deadlineChanged (settled pend wrote mc s) pend') = true
      · have : (mc || mc' || (deadlineChanged s pend || deadlineChanged (settled pend wrote mc s) pend')) = true := by
          revert h'
          cases mc' <;> cases deadlineChanged (settled pend wrote mc s) pend' <;> simp
        simp only [hq, true_and, h', this, if_true, some_or]
      · obtain ⟨hm', hd'⟩ : mc' = false ∧ deadlineChanged (settled pend wrote mc s) pend' = false := by simpa using h'
        -- the second step leaves the metadata alone, so the first one has written its final value
        have hbm' : burstMeta s pend = burstMeta s pend₁ := by
          have hc := hQ.closed
          have hcl : (settled pend wrote mc s).streamMeta.closed = pend.closed := rfl
          rw [hm', Bool.or_false, hcl] at hc
          have hdd : pend'.deadline = pend.deadline := by simpa [deadlineChanged, hdl] using hd'
          simp [burstMeta, he.closed, he.deadline, hc, hdd]
        rw [hm', hd', hbm']
        simp
    · simp [hq]
  | _ => simp [effect_settleOps_other hr, effect_settleOps_other hr', effect_settleOps_other hr₁]

end

/-- **Settling in two steps is settling once.** -/
theorem settle_settle (db : Store) (hP : Planning now s pend mc)
    (hQ : Planning now (settled pend (!nothing s pend mc) mc s) pend' mc') (he : Extends pend pend' pend₁) :
    settle (settle db s pend mc).1 (settled pend (!nothing s pend mc) mc s) pend' mc' =
      settle db s pend₁ (mc || mc') := by
  unfold settle
  rw [← applyOps_append, nothing_compose hP hQ he]
  refine Prod.ext (applyOps_ext (effect_compose hP hQ he)) ?_
  apply Streamer.ext
  · rfl
  · rfl
  · simp [settled, burstMeta, he.closed, he.deadline]
  · funext pid
    simp only [settled, he.producers]
    cases pend'.producers.lookup pid <;> simp
  · simp [settled, he.writerSeq, Option.or_assoc]
  · simp [settled, he.tail]
  · have hstep : ∀ n₁ n₂ : Bool, (n₂ = true → pend'.tail = pend.tail) →
        (if (!n₂) = true then pend'.tail else if (!n₁) = true then pend.tail else s.tail) =
          if (!(n₁ && n₂)) = true then pend'.tail else s.tail := by
      intro n₁ n₂ h
      cases n₂ with
      | false => simp
      | true => rw [h rfl]; cases n₁ <;> rfl
    simp only [settled_tail, he.tail]
    exact hstep _ _ fun hn => hQ.tail (nothing_iff.mp hn).1
  · simp only [settled]
    cases mc <;> cases mc' <;> simp

end Compose

/-! ## The refinement -/

section Refinement

variable {L : GoLib} {flt : Faults} {now : Int64}

variable {s s₁ : Streamer} {pend pend₁ : PendingBurst} {acc mc : Bool} {db : Store} {req : AppendReq}
  {resp : AppendResp}

theorem agrees_settle (db : Store) (hP : Planning now s pend mc) : Agrees pend db (settle db s pend mc).1 s.id := by
  refine ⟨fun pid h => ?_, fun h => ?_⟩
  · unfold Store.producerAt settle
    rw [lookup_applyOps, effect_settleOps_producer hP.records]
    simp [h]
  · unfold Store.writerSeqAt settle
    rw [lookup_applyOps, effect_settleOps_writerSeq hP.records]
    simp [h]

theorem Loads.settleOps {s' : Streamer} (h : Loads flt db s s') (pend : PendingBurst) (mc : Bool) :
    settleOps s' pend mc = settleOps s pend mc := by
  obtain ⟨hpath, hid, hmeta, -⟩ := h
  cases s
  cases s'
  subst hpath hid hmeta
  rfl

theorem Loads.nothing {s' : Streamer} (h : Loads flt db s s') (pend : PendingBurst) (mc : Bool) :
    nothing s' pend mc = nothing s pend mc := by
  simp only [Yasdb.nothing, deadlineChanged, h.streamMeta]

theorem planAppend_loads (he : planAppend L flt db s pend req = (s₁, pend₁, resp, acc)) : Loads flt db s s₁ := by
  have hcase := planAppend_cases L flt db s pend req
  rw [he] at hcase
  cases hcase with
  | accept _ hl => exact hl
  | noop _ _ hl => exact hl
  | reject _ _ hl => exact hl

theorem Planning.planBatch (L : GoLib) (flt : Faults) (db : Store) :
    ∀ (batch : List AppendReq) {s : Streamer} {pend : PendingBurst} {mc : Bool}, Planning now s pend mc →
      Planning now (planBatch L flt db s pend batch).st (planBatch L flt db s pend batch).pend
        (mc || (planBatch L flt db s pend batch).metaChanged)
  | [], s, pend, mc, h => by simpa [Yasdb.planBatch] using h
  | req :: reqs, s, pend, mc, h => by
    rcases he : planAppend L flt db s pend req with ⟨s₁, pend₁, resp, acc⟩
    have := (h.step he).planBatch L flt db reqs
    simp only [Yasdb.planBatch, he]
    rwa [Bool.or_assoc] at this

theorem syncBurst_singleton (he : planAppend L flt db s (newPending s now) req = (s₁, pend₁, resp, acc)) :
    syncBurst L flt now none (db, s) [req] = (settle db s₁ pend₁ (acc && req.closeStream), [resp]) := by
  have hP := (planning_newPending now s).planBatch L flt db [req]
  rw [Bool.false_or] at hP
  rw [syncBurst_eq L flt db [req] hP]
  simp [planBatch, he]

/-- The two plans of one append, over the pending view and over the settled state, extend each other. -/
theorem extends_of_plans {db' : Store} {pend₂ : PendingBurst} {wrote : Bool}
    (he : planAppend L flt db s pend req = (s₁, pend₁, resp, acc))
    (he' : planAppend L flt db' (settled pend wrote mc s) (rebase pend) req =
      (settled pend wrote mc s₁, pend₂, resp, acc)) : Extends pend pend₂ pend₁ := by
  have h := planAppend_cases L flt db s pend req
  have h' := planAppend_cases L flt db' (settled pend wrote mc s) (rebase pend) req
  rw [he] at h
  rw [he'] at h'
  cases h with
  | accept => cases h' with
    | accept => exact extends_accept s₁ pend wrote mc req
  | _ => cases h' with
    | noop => exact extends_rebase pend
    | reject => exact extends_rebase pend

/-- One append committed after the pending view is the append planned into it. -/
theorem syncBurst_settle (hP : Planning now s pend mc) (he : planAppend L flt db s pend req = (s₁, pend₁, resp, acc)) :
    syncBurst L flt now none (settle db s pend mc) [req] =
      (settle db s₁ pend₁ (mc || (acc && req.closeStream)), [resp]) := by
  obtain ⟨_, _, pend₂, _, _, he₁, he₂⟩ := planAppend_settled L flt (!nothing s pend mc) mc (agrees_settle db hP) req
  rw [he] at he₁
  cases he₁
  have hl := planAppend_loads he
  have hnew : newPending (settled pend (!nothing s pend mc) mc s) now = rebase pend := by
    rw [← hP.clock]; rfl
  have hQ : Planning now (settled pend (!nothing s pend mc) mc s₁) pend₂ (acc && req.closeStream) := by
    rw [← hnew] at he₂
    have := (planning_newPending now (settled pend (!nothing s pend mc) mc s)).step he₂
    rwa [Bool.false_or] at this
  rw [show settle db s pend mc = ((settle db s pend mc).1, settled pend (!nothing s pend mc) mc s) from rfl,
    syncBurst_singleton (hnew ▸ he₂)]
  -- the cache filled by planning does not change what is settled
  have hs : (settle db s pend mc).1 = (settle db s₁ pend mc).1 := by unfold settle; rw [hl.settleOps]
  rw [← hl.nothing pend mc] at hQ he₂ ⊢
  rw [hs, settle_settle db (hP.loads hl) hQ]
  exact extends_of_plans he he₂

theorem oneAtATime_settle (L : GoLib) (flt : Faults) (db : Store) :
    ∀ (batch : List AppendReq) {s : Streamer} {pend : PendingBurst} {mc : Bool}, Planning now s pend mc →
      oneAtATime L flt now (settle db s pend mc) batch =
        (settle db (planBatch L flt db s pend batch).st (planBatch L flt db s pend batch).pend
          (mc || (planBatch L flt db s pend batch).metaChanged), (planBatch L flt db s pend batch).responses)
  | [], s, pend, mc, _ => by simp [oneAtATime, planBatch]
  | req :: reqs, s, pend, mc, hP => by
    rcases he : planAppend L flt db s pend req with ⟨s₁, pend₁, resp, acc⟩
    simp only [oneAtATime, planBatch, syncBurst_settle hP he, he]
    rw [oneAtATime_settle L flt db reqs (hP.step he), Bool.or_assoc]
    rfl

/-- **Group commit refines one-at-a-time processing**: the same answers, the same streamer (metadata, producer
states, `Stream-Seq`, write tail, published tail and closure) and the same store. -/
theorem syncBurst_eq_oneAtATime (L : GoLib) (flt : Faults) (now : Int64) (w : Store × Streamer)
    (batch : List AppendReq) : syncBurst L flt now none w batch = oneAtATime L flt now w batch := by
  obtain ⟨db, s⟩ := w
  have hP := planning_newPending now s
  have h0 : settle db s (newPending s now) false = (db, s) := by
    have := syncBurst_eq (s := s) L flt db [] hP
    simpa [syncBurst, processBurst, planBatch, hP.frozen, nothing_iff.mpr, newPending] using this.symm
  have hB := hP.planBatch L flt db batch
  rw [Bool.false_or] at hB
  rw [syncBurst_eq L flt db batch hB]
  have := oneAtATime_settle L flt db batch hP
  rw [h0, Bool.false_or] at this
  exact this.symm

end Refinement

end Yasdb
