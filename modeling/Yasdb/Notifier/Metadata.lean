import Yasdb.Notifier.FailedFlush

/-!
# Stored metadata in notifier mode

A burst carries a whole metadata value when it closes the stream or moves the deadline, and waits in the shared queue; a
TTL refresh for a read writes the metadata of the writer view to the store at once, and overtakes it.

- `touch_overtakes_bursts`: a stream is stored as closed before its closing burst, then as open again;
- `metadata_with_its_burst`: **not if refreshes find no burst with metadata in the queue** (`TouchesInOrder`).

The metadata and the tail of a stream are followed through its outstanding jobs, from what is stored to what the
streamer has cached (`Leads`).
-/

namespace Yasdb.Notifier

open Batch Runs List Option World CommitJob Store

variable {now : Int64} {s : Streamer} {db' : Store} {flt : Faults} {batch : List AppendReq}

/-! ## The steps, with touches -/

inductive TouchEvent where
  | run (e : Event)
  /-- the streamer of slot `i` refreshes the TTL for a read; the store numbers the commit `seq` -/
  | touch (i : Nat) (now : Int64) (seq : Nat)

/-- A TTL refresh that does not fail. -/
def touchStep (w : World) (i : Nat) (sl : Slot) (now : Int64) (seq : Nat) : World :=
  let r := refreshTTLOnRead now none w.db sl.st
  let w' := { w.setSlot i { sl with st := r.2 } with db := r.1 }
  match (ttlRefreshOps sl.st now).2 with
  | none => w'
  | some ops =>
    { w' with
      lastSeq := seq
      commits := w.commits ++ [(seq, ops ++ [Op.put (.metaKey sl.st.path) r.2.streamMeta])] }

/-- The steps of the system, with TTL refreshes. -/
def stepWithTouches (L : GoLib) (batchMax : Nat) (w : World) : TouchEvent → Option World
  | .run e => step L batchMax w e
  | .touch i now seq =>
    match w.slots i with
    | some sl => if sl.hand.isSome ∨ seq ≤ w.lastSeq then none else some (touchStep w i sl now seq)
    | none => none

/-- No commit fails, and the committer is not shut down. -/
def CommitsLand (_ : World) : TouchEvent → Prop
  | .run (.commitFail _) => False
  | .run .closeCommitter => False
  | _ => True

/-- No commit fails, and a TTL refresh finds no burst of its stream in the queue that writes metadata. -/
def TouchesInOrder (w : World) : TouchEvent → Prop
  | .run (.commitFail _) => False
  | .run .closeCommitter => False
  | .touch i _ _ => ∀ j ∈ w.queued, j.st = i → j.c.metaChanged = false
  | _ => True

/-! ## What a job does to the metadata -/

/-- The metadata after a job. -/
def CommitJob.leaves (j : CommitJob) (m : StreamMeta) : StreamMeta :=
  if j.c.metaChanged then { m with closed := j.c.pend.closed, deadline := j.c.pend.deadline } else m

/-- The job was planned over the metadata `m` and the tail `t` of the stream `id`. -/
structure JobFrom (path : Bytes) (id : Nat) (m : StreamMeta) (t : Nat) (j : CommitJob) : Prop where
  opened : m.closed = false
  target : j.c.pend.tail = t + (recordsOf j.log).length
  tail : effect (.tailKey id) j.c.ops = some (some (marshalTail j.c.pend.tail j.c.pend.now))
  records : ∀ n, effect (.recordKey id n) j.c.ops =
    if t ≤ n then (recordsOf j.log)[n - t]?.map fun r => some (marshalRecord recFlagNone r) else none
  streamMeta : effect (.metaKey path) j.c.ops = if j.c.metaChanged then some (some (j.leaves m)) else none
  closes : (j.leaves m).closed = true → ∃ e ∈ j.log, e.2.closeStream = true
  /-- it leaves the expiry index and the deadline, or puts an entry for the new one -/
  expiry : ((j.leaves m).deadline = m.deadline ∧ ∀ d, effect (.expiryKey d id) j.c.ops = none) ∨
    (j.c.metaChanged = true ∧ ∃ v, effect (.expiryKey (j.leaves m).deadline id) j.c.ops = some (some v))

/-- The outstanding jobs lead from one state of metadata and tail to another. -/
def Leads (path : Bytes) (id : Nat) : StreamMeta → Nat → List CommitJob → StreamMeta → Nat → Prop
  | m, t, [], m', t' => m = m' ∧ t = t'
  | m, t, j :: js, m', t' => JobFrom path id m t j ∧ Leads path id (j.leaves m) j.c.pend.tail js m' t'

section Jobs

variable {path : Bytes} {id : Nat} {m m' : StreamMeta} {t t' : Nat} {js js' : List CommitJob} {j : CommitJob}

theorem leads_append : Leads path id m t (js ++ js') m' t' ↔
    ∃ m₁ t₁, Leads path id m t js m₁ t₁ ∧ Leads path id m₁ t₁ js' m' t' := by
  induction js generalizing m t with
  | nil =>
    constructor
    · exact fun h => ⟨m, t, ⟨rfl, rfl⟩, h⟩
    · rintro ⟨m₁, t₁, ⟨rfl, rfl⟩, h⟩
      exact h
  | cons j js ih =>
    simp only [cons_append, Leads, ih]
    constructor
    · rintro ⟨hj, m₁, t₁, h1, h2⟩
      exact ⟨m₁, t₁, ⟨hj, h1⟩, h2⟩
    · rintro ⟨m₁, t₁, ⟨hj, h1⟩, h2⟩
      exact ⟨hj, m₁, t₁, h1, h2⟩

theorem Leads.eq_nil (h : Leads path id m t js m' t') (hc : m.closed = true) : js = [] := by
  cases js with
  | nil => rfl
  | cons j js => rw [h.1.opened] at hc; cases hc

theorem leaves_streamID (j : CommitJob) (m : StreamMeta) : (j.leaves m).streamID = m.streamID := by
  unfold leaves
  split <;> rfl

theorem leaves_ttlSeconds (j : CommitJob) (m : StreamMeta) : (j.leaves m).ttlSeconds = m.ttlSeconds := by
  unfold leaves
  split <;> rfl

/-- Jobs without metadata are the same over any deadline. -/
theorem Leads.touch (h : Leads path id m t js m' t') (hj : ∀ j ∈ js, j.c.metaChanged = false) (d : UInt64) :
    m' = m ∧ Leads path id { m with deadline := d } t js { m with deadline := d } t' := by
  induction js generalizing t with
  | nil => exact ⟨h.1.symm, rfl, h.2⟩
  | cons j js ih =>
    have hno := hj j mem_cons_self
    have hleaves : ∀ m, j.leaves m = m := fun m => by unfold leaves; rw [hno]; rfl
    obtain ⟨h1, h2⟩ := h
    rw [hleaves] at h2
    obtain ⟨hm, h2⟩ := ih h2 fun k hk => hj k (mem_cons_of_mem _ hk)
    refine ⟨hm, ⟨h1.opened, h1.target, h1.tail, h1.records, ?_, ?_, ?_⟩, ?_⟩
    · have := h1.streamMeta
      rwa [hno] at this ⊢
    · have := h1.closes
      rw [hleaves] at this ⊢
      exact this
    · rcases h1.expiry with ⟨-, he⟩ | ⟨hyes, -⟩
      · exact .inl ⟨by rw [hleaves], he⟩
      · rw [hno] at hyes; cases hyes
    · rw [hleaves]
      exact h2

/-- **A planned burst** starts from the cached metadata and the write tail, and leaves the ones it publishes. -/
theorem jobFrom_newJob {L : GoLib} {db : Store} {s' : Streamer}
    {c : CommitBurst} (h : processBurst L flt db now s batch = (s', .commit c)) (i : Nat) :
    JobFrom s.path s.id s.streamMeta s.writeTail (newJob i now s batch c) ∧
      (newJob i now s batch c).leaves s.streamMeta = (applyWriter s' c.pend c.metaChanged).streamMeta := by
  obtain ⟨hl, hopen, p, hp, rfl, rfl, -, hP⟩ := processBurst_commit h
  have hplan := planBatch_plans L flt db batch s (newPending s now)
  obtain ⟨htail, -⟩ := pend_planBatch L flt db now s batch
  have hrec := hplan.recordOps
  have hmc := hplan.metaChanged
  have hans := hplan.answered
  rw [pendView_newPending] at hrec hmc hans
  rw [← hp] at htail hrec hmc hans
  rw [View.tail_after] at htail
  -- the log of the job is what the plan has accepted
  have hlog : (newJob i now s batch (commitOf p)).log = ((viewOf flt db s).accepted L now batch).map (now, ·) := by
    show (picked batch p.accepted).map (now, ·) = _
    rw [hans.picked]
    rfl
  have hrecs : recordsOf (newJob i now s batch (commitOf p)).log =
      ((viewOf flt db s).accepted L now batch).flatMap (·.records) := by rw [hlog, recordsOf_map]
  have hmeta : p.st.streamMeta = s.streamMeta := hl.streamMeta
  have hleaves : (newJob i now s batch (commitOf p)).leaves s.streamMeta =
      if p.metaChanged || deadlineChanged p.st p.pend then burstMeta p.st p.pend else s.streamMeta := by
    unfold burstMeta
    rw [hmeta]
    rfl
  refine ⟨⟨hmeta ▸ hopen, ?_, ?_, fun n => ?_, ?_, fun hcl => ?_, ?_⟩, ?_⟩
  · rw [hrecs]
    exact htail
  · show effect (.tailKey s.id) (burstOps p.st p.pend p.metaChanged) = _
    rw [effect_burstOps_tail hP.records, hl.id, if_pos rfl]
    rfl
  · show effect (.recordKey s.id n) (burstOps p.st p.pend p.metaChanged) = _
    rw [effect_burstOps_record, hrecs, ← effect_recordOpsFrom]
    exact congrArg _ hrec
  · show effect (.metaKey s.path) (burstOps p.st p.pend p.metaChanged) =
      if p.metaChanged || deadlineChanged p.st p.pend then _ else none
    rw [effect_burstOps_meta hP.records, hl.path, hleaves]
    cases p.metaChanged || deadlineChanged p.st p.pend <;> simp
  · -- the stream was open, so an accepted append closes it
    have hmc' : p.metaChanged = true := by
      rw [hleaves] at hcl
      split at hcl
      · have hc : p.pend.closed = true := hcl
        rwa [hP.closed, hopen, Bool.false_or] at hc
      · rw [← hmeta, hopen] at hcl
        cases hcl
    rw [hmc', eq_comm, List.any_eq_true] at hmc
    obtain ⟨req, hr, hcs⟩ := hmc
    exact ⟨(now, req), by rw [hlog]; exact List.mem_map_of_mem hr, hcs⟩
  · have hex := effect_burstOps_expiry hP.records
    rw [hleaves]
    by_cases hd : p.pend.deadline = p.st.streamMeta.deadline
    · refine .inl ⟨?_, fun d => ?_⟩
      · split
        · exact hd.trans (congrArg _ hmeta)
        · rfl
      · show effect (.expiryKey d s.id) (burstOps p.st p.pend p.metaChanged) = none
        rw [hex, if_neg fun h => h.2 hd]
    · have hdc : deadlineChanged p.st p.pend = true := by simp [deadlineChanged, hd]
      refine .inr ⟨?_, p.st.streamMeta.ttlSeconds, ?_⟩
      · show (p.metaChanged || deadlineChanged p.st p.pend) = true
        rw [hdc, Bool.or_true]
      · show effect (.expiryKey _ s.id) (burstOps p.st p.pend p.metaChanged) = _
        rw [hdc, Bool.or_true, if_pos rfl, hex, hl.id, if_pos ⟨rfl, hd⟩, if_neg fun h => hd h.1]
        exact if_pos rfl
  · rw [hleaves, ← hmeta]
    rfl

end Jobs

/-! ## What is stored -/

/-- The stream is stored with the metadata `m` and the tail `t`, which `log` has led to; at the start its tail was `t₀`,
and `c₀` says whether it was closed. -/
structure StoreAt (t₀ : Nat) (c₀ : Bool) (path : Bytes) (id : Nat) (db : Store) (log : List (Int64 × AppendReq))
    (m : StreamMeta) (t : Nat) : Prop where
  streamMeta : db.metaAt path = some m
  streamID : m.streamID = id
  tail : loadTailSeq db id = t
  length : t = t₀ + (recordsOf log).length
  records : ∀ n, db.recordAt id (t₀ + n) = (recordsOf log)[n]?.map (marshalRecord recFlagNone)
  closes : m.closed = true → c₀ = true ∨ ∃ e ∈ log, e.2.closeStream = true
  entry : m.ttlSeconds ≠ 0 → (db.lookup (.expiryKey m.deadline id)).isSome

namespace StoreAt

variable {t₀ : Nat} {c₀ : Bool} {path : Bytes} {id : Nat} {db : Store} {log : List (Int64 × AppendReq)}
  {m m' : StreamMeta} {t t' : Nat}

section

variable (h : StoreAt t₀ c₀ path id db log m t)
include h

theorem congr (ha : Agree path id db db') : StoreAt t₀ c₀ path id db' log m t :=
  ⟨ha.metaAt ▸ h.streamMeta, h.streamID, ha.loadTailSeq ▸ h.tail, h.length, fun n => ha.recordAt _ ▸ h.records n,
    h.closes, fun ht => ha (.expiryKey m.deadline id) rfl ▸ h.entry ht⟩

/-- **A job is stored.** -/
theorem job {j : CommitJob} (hj : JobFrom path id m t j) :
    StoreAt t₀ c₀ path id (applyOps db j.c.ops) (log ++ j.log) (j.leaves m) j.c.pend.tail := by
  have hrecs : recordsOf (log ++ j.log) = recordsOf log ++ recordsOf j.log := flatMap_append
  refine ⟨?_, (leaves_streamID j m).trans h.streamID, ?_, ?_, fun n => ?_, fun hc => ?_, fun ht => ?_⟩
  · unfold metaAt
    rw [lookup_applyOps, hj.streamMeta]
    cases hc : j.c.metaChanged with
    | true => rfl
    | false =>
      unfold leaves
      rw [hc]
      exact h.streamMeta
  · unfold loadTailSeq tailAt
    rw [lookup_applyOps, hj.tail]
    rfl
  · rw [hj.target, h.length, hrecs, length_append, Nat.add_assoc]
  · unfold recordAt
    have hold : db.lookup (.recordKey id (t₀ + n)) = (recordsOf log)[n]?.map (marshalRecord recFlagNone) := h.records n
    have hlen := h.length
    rw [lookup_applyOps, hj.records, hold, hrecs]
    by_cases hn : n < (recordsOf log).length
    · rw [if_neg (by omega), getElem?_append_left hn]
      rfl
    · rw [if_pos (by omega), getElem?_append_right (by omega),
        getElem?_eq_none (l := recordsOf log) (by omega), show t₀ + n - t = n - (recordsOf log).length by omega]
      cases (recordsOf j.log)[n - (recordsOf log).length]? with
      | none => rfl
      | some r => rfl
  · obtain ⟨e, he, hcs⟩ := hj.closes hc
    exact .inr ⟨e, mem_append_right _ he, hcs⟩
  · rw [lookup_applyOps]
    rcases hj.expiry with ⟨hd, he⟩ | ⟨-, v, hv⟩
    · rw [he, hd]
      exact h.entry (leaves_ttlSeconds j m ▸ ht)
    · rw [hv]
      rfl

/-- **The outstanding jobs are stored.** -/
theorem jobs {js : List CommitJob} (hl : Leads path id m t js m' t') :
    StoreAt t₀ c₀ path id (applyOps db (opsOf js)) (log ++ logOf js) m' t' := by
  induction js generalizing db log m t with
  | nil =>
    obtain ⟨rfl, rfl⟩ := hl
    simpa [opsOf, logOf] using h
  | cons j js ih =>
    have := ih (h.job hl.1) hl.2
    rw [show opsOf (j :: js) = j.c.ops ++ opsOf js from rfl, applyOps_append,
      show logOf (j :: js) = j.log ++ logOf js from rfl, ← append_assoc]
    exact this

end

/-- **A touch is stored**, of a streamer that has cached what is stored. -/
theorem touch (h : StoreAt t₀ c₀ s.path s.id db log s.streamMeta t) (d : UInt64) :
    StoreAt t₀ c₀ s.path s.id (applyOps db (touchOps s d)) log (s.setDeadline d).streamMeta t := by
  refine ⟨metaAt_touchOps db s d, h.streamID, ?_, h.length, fun n => ?_, h.closes, fun _ => ?_⟩
  · unfold loadTailSeq tailAt
    rw [lookup_touchOps db (by simp) (by simp)]
    exact h.tail
  · unfold recordAt
    rw [lookup_touchOps db (by simp) (by simp)]
    exact h.records n
  · have he : effect (.expiryKey d s.id) (touchOps s d) = some (some s.streamMeta.ttlSeconds) := by
      unfold touchOps
      split
      · rename_i hne
        simp [hne.2]
      · simp
    rw [show (s.setDeadline d).streamMeta.deadline = d from rfl, lookup_applyOps, he]
    rfl

end StoreAt

/-! ## Runs -/

/-- What is stored of a slot, and the jobs that lead to what its streamer has cached; `c i` says whether the stream was
stored as closed before. -/
def Behind (w₀ : World) (c : Nat → Bool) (i : Nat) (db : Store) (out : List CommitJob) (sl : Slot) : Prop :=
  ∃ sl₀ m t, w₀.slots i = some sl₀ ∧ sl.st.path = sl₀.st.path ∧ sl.st.id = sl₀.st.id ∧ (c i = true → m.closed = true) ∧
    StoreAt sl₀.st.writeTail sl₀.st.streamMeta.closed sl.st.path sl.st.id db sl.applied m t ∧
    Leads sl.st.path sl.st.id m t out sl.st.streamMeta sl.st.writeTail

namespace Behind

variable {w₀ : World} {c : Nat → Bool} {i : Nat} {db : Store} {out : List CommitJob} {sl : Slot}

theorem same (h : Behind w₀ c i db out sl) (hp : s.path = sl.st.path) (hid : s.id = sl.st.id)
    (hm : s.streamMeta = sl.st.streamMeta) (ht : s.writeTail = sl.st.writeTail) (hand : Option CommitJob) :
    Behind w₀ c i db out { sl with st := s, hand := hand } := by
  obtain ⟨sl₀, m, t, hs₀, hp₀, hid₀, hc, hst, hl⟩ := h
  refine ⟨sl₀, m, t, hs₀, hp.trans hp₀, hid.trans hid₀, hc, ?_, ?_⟩
  · rw [hp, hid]
    exact hst
  · rw [hp, hid, hm, ht]
    exact hl

theorem plan {L : GoLib} {b : CommitBurst}
    {hand : Option CommitJob} (h : Behind w₀ c i db out sl)
    (hb : processBurst L flt db now sl.st batch = (s, .commit b)) :
    Behind w₀ c i db (out ++ [newJob i now sl.st batch b])
      { sl with st := applyWriter s b.pend b.metaChanged, hand := hand } := by
  obtain ⟨sl₀, m, t, hs₀, hp₀, hid₀, hc, hst, hl⟩ := h
  obtain ⟨hload, -⟩ := processBurst_commit hb
  obtain ⟨hfrom, hleaves⟩ := jobFrom_newJob hb i
  refine ⟨sl₀, m, t, hs₀, hload.path.trans hp₀, hload.id.trans hid₀, hc, ?_, ?_⟩
  · show StoreAt _ _ s.path s.id db sl.applied m t
    rw [hload.path, hload.id]
    exact hst
  · show Leads s.path s.id m t _ (applyWriter s b.pend b.metaChanged).streamMeta b.pend.tail
    rw [hload.path, hload.id, leads_append, ← hleaves]
    exact ⟨_, _, hl, hfrom, rfl, rfl⟩

theorem commit {front rest : List CommitJob} (h : Behind w₀ c i db (front ++ rest) sl)
    (ha : Agree sl.st.path sl.st.id (applyOps db (opsOf front)) db') :
    Behind w₀ c i db' rest { sl with applied := sl.applied ++ logOf front } := by
  obtain ⟨sl₀, m, t, hs₀, hp₀, hid₀, hc, hst, hl⟩ := h
  obtain ⟨m₁, t₁, h1, h2⟩ := leads_append.mp hl
  refine ⟨sl₀, m₁, t₁, hs₀, hp₀, hid₀, fun hci => ?_, (hst.jobs h1).congr ha, h2⟩
  -- a closed stream has nothing to commit
  have hclosed := hc hci
  rw [h1.eq_nil hclosed] at h1
  exact h1.1 ▸ hclosed

theorem respawn {m : StreamMeta} (h : Behind w₀ c i db [] sl) (hm : db.metaAt sl.st.path = some m) :
    m.streamID = sl.st.id ∧ Behind w₀ c i db []
      { sl with st := newStreamer sl.st.path m (loadTailSeq db m.streamID), stale := false } := by
  obtain ⟨sl₀, m', t, hs₀, hp₀, hid₀, hc, hst, rfl, rfl⟩ := h
  have hmm := hst.streamMeta
  rw [hm, some.injEq] at hmm
  have hid : m.streamID = sl.st.id := by rw [hmm]; exact hst.streamID
  refine ⟨hid, sl₀, sl.st.streamMeta, sl.st.writeTail, hs₀, hp₀, hid.trans hid₀, hc, ?_, hmm.symm, ?_⟩
  · show StoreAt _ _ sl.st.path m.streamID db sl.applied _ _
    rw [hid]
    exact hst
  · show sl.st.writeTail = loadTailSeq db m.streamID
    rw [hid, hst.tail]

theorem touch (h : Behind w₀ c i db out sl) (hj : ∀ j ∈ out, j.c.metaChanged = false) (now : Int64) :
    Behind w₀ c i (refreshTTLOnRead now none db sl.st).1 out
      { sl with st := (refreshTTLOnRead now none db sl.st).2 } := by
  rcases refreshTTLOnRead_cases now none db sl.st with ⟨he, -⟩ | ⟨d, he, -⟩
  · rw [he]
    exact h
  · rw [he]
    obtain ⟨sl₀, m, t, hs₀, hp₀, hid₀, hc, hst, hl⟩ := h
    obtain ⟨hm, hl'⟩ := hl.touch hj d
    rw [← hm] at hst hl' hc
    exact ⟨sl₀, (sl.st.setDeadline d).streamMeta, t, hs₀, hp₀, hid₀, hc, hst.touch d, hl'⟩

theorem congr (h : Behind w₀ c i db out sl) (ha : Agree sl.st.path sl.st.id db db') : Behind w₀ c i db' out sl := by
  obtain ⟨sl₀, m, t, hs₀, hp₀, hid₀, hc, hst, hl⟩ := h
  exact ⟨sl₀, m, t, hs₀, hp₀, hid₀, hc, hst.congr ha, hl⟩

end Behind

theorem agree_refreshTTLOnRead (now : Int64) (db : Store) (s : Streamer) {path : Bytes} {id : Nat} (hp : s.path ≠ path)
    (hid : s.id ≠ id) : Agree path id db (refreshTTLOnRead now none db s).1 := by
  intro k hk
  rcases refreshTTLOnRead_cases now none db s with ⟨he, -⟩ | ⟨d, he, -⟩
  · rw [he]
  · rw [he]
    exact (lookup_applyOps_ne fun op ho hko => (touchOps_owns s d op ho).disjoint hp hid (hko ▸ hk)).symm

namespace Behind

variable {L : GoLib} {batchMax : Nat} {w₀ w w' : World} {c : Nat → Bool}

section

variable (h : Tracked (Behind w₀ c) w)
include h

theorem touchStep {i : Nat} {sl : Slot} {seq : Nat}
    (hs : w.slots i = some sl) (hh : sl.hand = none) (hc : ∀ j ∈ w.queued, j.st = i → j.c.metaChanged = false) :
    Tracked (Behind w₀ c) (touchStep w i sl now seq) := by
  have hsame : ((refreshTTLOnRead now none w.db sl.st).2).path = sl.st.path ∧
      ((refreshTTLOnRead now none w.db sl.st).2).id = sl.st.id := by
    rcases refreshTTLOnRead_cases now none w.db sl.st with ⟨he, -⟩ | ⟨d, he, -⟩
    · rw [he]; exact ⟨rfl, rfl⟩
    · rw [he]; exact ⟨rfl, rfl⟩
  have hout : ∀ j ∈ w.outstanding i sl, j.c.metaChanged = false := fun j hj => by
    unfold outstanding at hj
    rw [hh, toList_none, append_nil, mem_filter] at hj
    exact hc j hj.1 (by simpa using hj.2)
  have h' : Tracked (Behind w₀ c) { w.setSlot i { sl with st := (refreshTTLOnRead now none w.db sl.st).2 } with
      db := (refreshTTLOnRead now none w.db sl.st).1 } := h.change hs hsame.1 hsame.2
    (fun j hj => by rw [show _ = none from hh] at hj; cases hj) (refreshTTLOnRead now none w.db sl.st).1
    (fun hb => hb.touch hout now) fun k sk out hk hki hb => by
      obtain ⟨hp, hid⟩ := h.apart i k sl sk hs hk (Ne.symm hki)
      exact hb.congr (agree_refreshTTLOnRead now w.db sl.st hp hid)
  unfold Notifier.touchStep
  split
  · exact h'
  · exact h'.congr rfl rfl rfl rfl

/-- **The step lemma.** -/
theorem step {e : TouchEvent} (hc : TouchesInOrder w e)
    (he : stepWithTouches L batchMax w e = some w') : Tracked (Behind w₀ c) w' := by
  cases e with
  | touch i now seq =>
    simp only [stepWithTouches] at he
    split at he
    · rename_i sl hs
      simp only [ite_none_left_eq_some, not_or, some.injEq] at he
      obtain ⟨⟨hh, -⟩, rfl⟩ := he
      exact touchStep h hs (by simpa using hh) hc
    · cases he
  | run e =>
    cases steps_of_step he with
    | plan now flt batch hs hh =>
      exact h.plan hs hh (fun s out hl hb => hb.same hl.path hl.id hl.streamMeta hl.writeTail _)
        fun s b out hb' hb => hb.plan hb'
    | enqueue hs hj => exact h.enqueue hs hj fun out hb => hb.same rfl rfl rfl rfl none
    | commitOk hf _ => exact h.commitOk hf fun i sl front rest _ hb ha => hb.commit ha
    | commitFail hf => exact hc.elim
    | subscribe hf _ => exact h.congr rfl rfl (by unfold queued; rw [hf]; rfl) rfl
    | subscribeClosed hf _ =>
      refine Tracked.failJob ?_ _ _
      exact h.congr rfl rfl (by unfold queued; rw [hf]; rfl) rfl
    | failNext hf =>
      refine Tracked.failJob ?_ _ _
      exact h.congr rfl rfl (by unfold queued; rw [hf]; rfl) rfl
    | loop hj hs _ =>
      obtain ⟨f, p, heq, -, -, hq⟩ := @loopStep_eq w batchMax hj hs
      rw [heq]
      exact h.congr rfl rfl hq rfl
    | callback _ =>
      refine Tracked.completeJob ?_ _ fun i sl out tail closed _ hb => hb.same rfl rfl rfl rfl sl.hand
      exact h.congr rfl rfl rfl rfl
    | callbackErr _ =>
      refine Tracked.failJob ?_ _ _
      exact h.congr rfl rfl rfl rfl
    | closeCommitter _ => exact hc.elim
    | failStray _ =>
      refine Tracked.failJob ?_ _ _
      exact h.congr rfl rfl rfl rfl
    | respawn hs hh hn hm => exact h.respawn hs hh hn fun hb => hb.respawn hm
    | _ => exact h.congr rfl rfl rfl rfl

/-- **The run lemma.** -/
theorem reach (hr : Reach (stepWithTouches L batchMax) TouchesInOrder w w') : Tracked (Behind w₀ c) w' :=
  hr.invariant (P := Tracked (Behind w₀ c)) (fun _ _ _ hs hc he => step hs hc he) h

end

end Behind

/-! ## Slots stay -/

section Slots

variable {w : World} {k : Nat}

theorem isSome_setSlot {i : Nat} {sl : Slot} (h : (w.slots k).isSome) : ((w.setSlot i sl).slots k).isSome := by
  by_cases hk : k = i
  · rw [hk, setSlot_self]
    rfl
  · rw [setSlot_of_ne w sl hk]
    exact h

theorem isSome_reply {i : Nat} {rs : List AppendResp} (h : (w.slots k).isSome) : ((w.reply i rs).slots k).isSome := by
  obtain ⟨l, he⟩ := reply_eq w i rs
  rw [he]
  exact h

theorem isSome_stepWithTouches {L : GoLib} {batchMax : Nat} {w' : World} {e : TouchEvent} (h : (w.slots k).isSome)
    (he : stepWithTouches L batchMax w e = some w') : (w'.slots k).isSome := by
  cases e with
  | touch i now seq =>
    simp only [stepWithTouches] at he
    split at he
    · simp only [ite_none_left_eq_some, not_or, some.injEq] at he
      obtain ⟨-, rfl⟩ := he
      unfold touchStep
      split <;> exact isSome_setSlot h
    · cases he
  | run e =>
    cases steps_of_step he with
    | plan _ _ _ _ _ =>
      unfold planStep
      split
      · exact isSome_reply (isSome_setSlot h)
      · exact isSome_setSlot h
    | enqueue hs hj =>
      unfold enqueueStep
      split
      · exact isSome_reply (isSome_setSlot h)
      · split <;> exact isSome_setSlot h
    | commitOk _ _ => exact (isSome_map ..).trans h
    | commitFail _ => exact (isSome_map ..).trans h
    | subscribeClosed _ _ => exact isSome_reply h
    | failNext _ => exact isSome_reply h
    | loop hj hs _ =>
      obtain ⟨f, p, heq, -⟩ := @loopStep_eq w batchMax hj hs
      rw [heq]
      exact h
    | callback _ =>
      unfold completeJob
      split
      · exact isSome_reply (isSome_setSlot h)
      · exact h
    | callbackErr _ => exact isSome_reply h
    | failStray _ => exact isSome_reply h
    | respawn _ _ _ _ => exact isSome_setSlot h
    | _ => exact h

end Slots

/-! ## A server that has just started -/

/-- The stored deadline of every TTL stream has its entry in the expiry index. -/
def Indexed (w : World) : Prop :=
  ∀ i sl m, w.slots i = some sl → w.db.metaAt sl.st.path = some m → m.ttlSeconds ≠ 0 →
    (w.db.lookup (.expiryKey m.deadline m.streamID)).isSome

theorem Spawned.behind {w : World} (h : Spawned w) (hx : Indexed w) : Tracked (Behind w fun _ => false) w := by
  have hf := h.flushInv plainLib
  refine ⟨hf.apart, hf.queued, hf.hands, fun i sl hs => ?_, hf.opened⟩
  obtain ⟨hsl, hc⟩ := h.slots i sl hs
  have hout : w.outstanding i sl = [] := by
    rw [h.quiet, hsl]
    rfl
  rw [hout]
  refine ⟨sl, sl.st.streamMeta, sl.st.writeTail, hs, rfl, rfl, nofun, ?_, rfl, rfl⟩
  rw [show sl.applied = [] by rw [hsl]]
  refine ⟨hc.streamMeta, hc.id, hc.writeTail.symm, rfl, fun n => h.records i sl hs _ (Nat.le_add_right _ _),
    Or.inl, fun ht => hc.id ▸ hx i sl _ hs hc.streamMeta ht⟩

/-! ## A stream with a TTL -/

/-- The sample stream with a TTL of a minute. -/
def ttlMeta (deadline : UInt64) : StreamMeta := { sampleMeta with ttlSeconds := 60, deadline := deadline }

/-- A store that holds the stream and the entry of its deadline. -/
def ttlStore (deadline : UInt64) : Store :=
  applyOps ∅ [Op.put (.metaKey samplePath) (ttlMeta deadline), Op.put (.expiryKey deadline 1) 60]

def ttlWorld (deadline : UInt64) : World where
  db := ttlStore deadline
  slots := fun i => if i = 0 then some { st := newStreamer samplePath (ttlMeta deadline) 0 } else none

section Sample

variable {d : UInt64}

theorem ttlWorld_slots {i : Nat} {sl : Slot} (h : (ttlWorld d).slots i = some sl) :
    i = 0 ∧ sl = { st := newStreamer samplePath (ttlMeta d) 0 } := by
  unfold ttlWorld at h
  dsimp only at h
  split at h
  · rename_i hi
    cases h
    exact ⟨hi, rfl⟩
  · cases h

theorem ttlStore_meta : (ttlStore d).metaAt samplePath = some (ttlMeta d) := by
  unfold ttlStore metaAt
  rw [lookup_applyOps]
  simp

theorem ttlWorld_spawned : Spawned (ttlWorld d) := by
  refine ⟨rfl, fun i k sl sl' hi hk hne => ?_, fun i sl hi => ?_, fun i sl hi n _ => ?_⟩
  · exact absurd ((ttlWorld_slots hi).1.trans (ttlWorld_slots hk).1.symm) hne
  · rw [(ttlWorld_slots hi).2]
    have hc := coherent_newStreamer (@ttlStore_meta d)
    rw [show loadTailSeq (ttlStore d) (ttlMeta d).streamID = 0 from rfl] at hc
    exact ⟨rfl, hc⟩
  · rw [(ttlWorld_slots hi).2]
    rfl

theorem ttlWorld_indexed : Indexed (ttlWorld d) := by
  intro i sl m hi hm _
  rw [(ttlWorld_slots hi).2] at hm
  have : (ttlStore d).metaAt samplePath = some m := hm
  rw [ttlStore_meta, some.injEq] at this
  rw [← this]
  show ((ttlStore d).lookup (.expiryKey d 1)).isSome
  unfold ttlStore
  rw [lookup_applyOps]
  simp

end Sample

/-- An append of one record that closes the stream. -/
def closingAppend : AppendReq where
  records := [[0]]
  hasBody := true
  closeStream := true

/-! ## Main results -/

/-- **Stored metadata is that of the stored bursts.** If TTL refreshes find no burst with metadata in the queue, the
stored records and the tail are those of the bursts committed so far, the stream is closed only by one of them and for
good, and the stored deadline is in the expiry index. -/
theorem metadata_with_its_burst (L : GoLib) (batchMax : Nat) (w₀ w : World) (h₀ : Spawned w₀) (hx : Indexed w₀)
    (hr : Reach (stepWithTouches L batchMax) TouchesInOrder w₀ w) (i : Nat) (sl sl₀ : Slot) (hs : w.slots i = some sl)
    (hs₀ : w₀.slots i = some sl₀) :
    ∃ m, w.db.metaAt sl₀.st.path = some m ∧
      -- the bursts in the log are stored, and one of them closes the stream if it is stored as closed
      StoresSurvivors (viewOf noFaults w₀.db sl₀.st) w.db sl ∧
      (m.closed = true → sl₀.st.streamMeta.closed = true ∨ ∃ e ∈ sl.applied, e.2.closeStream = true) ∧
      -- the closed flag stays
      (m.closed = true → ∀ w', Reach (stepWithTouches L batchMax) TouchesInOrder w w' →
        ∃ m', w'.db.metaAt sl₀.st.path = some m' ∧ m'.closed = true) ∧
      -- the deadline has its entry
      (m.ttlSeconds ≠ 0 → (w.db.lookup (.expiryKey m.deadline m.streamID)).isSome) := by
  have hinv := Behind.reach (h₀.behind hx) hr
  obtain ⟨sl₁, m, t, hs₁, hp₀, hid₀, -, hst, -⟩ := hinv.slots i sl hs
  cases hs₀.symm.trans hs₁
  refine ⟨m, hp₀ ▸ hst.streamMeta, ⟨?_, hst.records⟩, hst.closes, fun hm w' hr' => ?_, fun ht => ?_⟩
  · rw [hst.tail, hst.length]
    rfl
  · have hinv' : Tracked (Behind w₀ fun k => k = i) w := by
      refine ⟨hinv.apart, hinv.queued, hinv.hands, fun k sk hk => ?_, hinv.opened⟩
      obtain ⟨sl₁, m₁, t₁, hs₁, hp₁, hid₁, -, hst₁, hl₁⟩ := hinv.slots k sk hk
      refine ⟨sl₁, m₁, t₁, hs₁, hp₁, hid₁, fun hk' => ?_, hst₁, hl₁⟩
      rw [of_decide_eq_true hk', hs] at hk
      cases hk
      have := hst₁.streamMeta
      rw [hst.streamMeta, some.injEq] at this
      exact this ▸ hm
    have hslot : (w'.slots i).isSome := hr'.invariant (P := fun w => (w.slots i).isSome)
      (fun _ _ _ h _ he => isSome_stepWithTouches h he) (by rw [hs]; rfl)
    obtain ⟨sl', hs'⟩ := isSome_iff_exists.mp hslot
    obtain ⟨sl₁, m', t', hs₁, hp₁, -, hc, hst', -⟩ := (Behind.reach hinv' hr').slots i sl' hs'
    cases hs₀.symm.trans hs₁
    exact ⟨m', hp₁ ▸ hst'.streamMeta, hc (decide_eq_true rfl)⟩
  · rw [hst.streamID]
    exact hst.entry ht

/-- A read refreshes the TTL, a closing append is stored, and a read refreshes the TTL again. -/
theorem metadata_closed_between_touches :
    ∃ w m, Reach (stepWithTouches plainLib 1) TouchesInOrder (ttlWorld 1) w ∧ w.db.metaAt samplePath = some m ∧
      m.closed = true ∧ m.deadline = 175 ∧ (w.db.lookup (.expiryKey m.deadline m.streamID)).isSome ∧
      ∀ w', Reach (stepWithTouches plainLib 1) TouchesInOrder w w' →
        ∃ m', w'.db.metaAt samplePath = some m' ∧ m'.closed = true := by
  have hrun : ∀ e ∈ [TouchEvent.run (.plan 0 0 noFaults [closingAppend]), .run (.enqueue 0), .run (.commitOk 2)],
      ∀ w, TouchesInOrder w e := by simp [TouchesInOrder]
  obtain ⟨w₁, w₂, w, sl, m, hw₁, hw₂, hq, hw, hs, hm, hc, hd, ht⟩ : ∃ w₁ w₂ w sl m,
      stepWithTouches plainLib 1 (ttlWorld 1) (.touch 0 0 1) = some w₁ ∧
      run (stepWithTouches plainLib 1) w₁
        [.run (.plan 0 0 noFaults [closingAppend]), .run (.enqueue 0), .run (.commitOk 2)] = some w₂ ∧
      w₂.queued = [] ∧ stepWithTouches plainLib 1 w₂ (.touch 0 100 3) = some w ∧ w.slots 0 = some sl ∧
      w.db.metaAt samplePath = some m ∧ m.closed = true ∧ m.deadline = 175 ∧ m.ttlSeconds ≠ 0 :=
    ⟨_, _, _, _, _, rfl, rfl, rfl, rfl, rfl, rfl, rfl, rfl, by decide⟩
  have ht₁ : TouchesInOrder (ttlWorld 1) (.touch 0 0 1) := nofun
  have ht₂ : TouchesInOrder w₂ (.touch 0 100 3) := fun j hj => (by rw [hq] at hj; cases hj)
  have hr := ((((Reach.refl (ttlWorld 1)).tail ht₁ hw₁).trans (reach_of_run hrun hw₂))).tail ht₂ hw
  obtain ⟨m', hm', -, -, hstays, hentry⟩ :=
    metadata_with_its_burst plainLib 1 (ttlWorld 1) w ttlWorld_spawned ttlWorld_indexed hr 0 sl _ hs rfl
  obtain rfl : m = m' := some.inj (hm.symm.trans hm')
  exact ⟨w, m, hr, hm, hc, hd, hentry ht, hstays hc⟩

/-- An append waits for its commit and a closing one behind it when a read refreshes the TTL. -/
def touchedWhileQueued : List TouchEvent :=
  [.run (.plan 0 0 noFaults [producerAppend 0 0]), .run (.enqueue 0), .run (.plan 0 0 noFaults [closingAppend]),
    .run (.enqueue 0), .touch 0 20 1]

/-- A closing append waits for its commit when a read moves the deadline. -/
def touchedWhileClosing : List TouchEvent :=
  [.run (.plan 0 0 noFaults [closingAppend]), .run (.enqueue 0), .touch 0 20 1, .run (.commitOk 2)]

/-- **A TTL refresh overtakes the queued bursts.** No commit fails, and yet a stream is stored as closed too early, then
as open again, and a stored deadline has no entry in the expiry index. -/
theorem touch_overtakes_bursts :
    (¬ ∀ (L : GoLib) (batchMax : Nat) (w₀ w : World), Spawned w₀ → Indexed w₀ →
      Reach (stepWithTouches L batchMax) CommitsLand w₀ w → ∀ i sl sl₀ m, w.slots i = some sl → w₀.slots i = some sl₀ →
      w.db.metaAt sl₀.st.path = some m → m.closed = true →
        sl₀.st.streamMeta.closed = true ∨ ∃ e ∈ sl.applied, e.2.closeStream = true) ∧
    (¬ ∀ (L : GoLib) (batchMax : Nat) (w₀ w w' : World), Spawned w₀ → Indexed w₀ →
      Reach (stepWithTouches L batchMax) CommitsLand w₀ w → Reach (stepWithTouches L batchMax) CommitsLand w w' →
      ∀ i sl₀ m, w₀.slots i = some sl₀ → w.db.metaAt sl₀.st.path = some m → m.closed = true →
        ∃ m', w'.db.metaAt sl₀.st.path = some m' ∧ m'.closed = true) ∧
    (¬ ∀ (L : GoLib) (batchMax : Nat) (w₀ w : World), Spawned w₀ → Indexed w₀ →
      Reach (stepWithTouches L batchMax) CommitsLand w₀ w → Indexed w) := by
  have hqueued : ∀ e ∈ touchedWhileQueued, ∀ w, CommitsLand w e := by simp [touchedWhileQueued, CommitsLand]
  have hclosing : ∀ e ∈ touchedWhileClosing, ∀ w, CommitsLand w e := by simp [touchedWhileClosing, CommitsLand]
  refine ⟨fun h => ?_, fun h => ?_, fun h => ?_⟩
  · obtain ⟨w, sl, m, hw, hs, hm, hc, hno⟩ : ∃ w sl m,
        run (stepWithTouches plainLib 1) (ttlWorld 1) touchedWhileQueued = some w ∧ w.slots 0 = some sl ∧
        w.db.metaAt samplePath = some m ∧ m.closed = true ∧ sl.applied = [] :=
      ⟨_, _, _, rfl, rfl, rfl, rfl, rfl⟩
    rcases h plainLib 1 (ttlWorld 1) w ttlWorld_spawned ttlWorld_indexed (reach_of_run hqueued hw) 0 sl _ m hs rfl hm hc
      with h | ⟨e, he, -⟩
    · cases h
    · rw [hno] at he
      cases he
  · obtain ⟨w, w', m, hw, hw', hm, hc, hm'⟩ : ∃ w w' m,
        run (stepWithTouches plainLib 1) (ttlWorld 1) touchedWhileQueued = some w ∧
        stepWithTouches plainLib 1 w (.run (.commitOk 2)) = some w' ∧ w.db.metaAt samplePath = some m ∧
        m.closed = true ∧ (w'.db.metaAt samplePath).any (·.closed) = false := ⟨_, _, _, rfl, rfl, rfl, rfl, rfl⟩
    have hland : CommitsLand w (.run (.commitOk 2)) := trivial
    obtain ⟨m', h', hc'⟩ := h plainLib 1 (ttlWorld 1) w w' ttlWorld_spawned ttlWorld_indexed (reach_of_run hqueued hw)
      ((Reach.refl w).tail hland hw') 0 _ m rfl hm hc
    rw [show w'.db.metaAt samplePath = some m' from h', any_some, hc'] at hm'
    cases hm'
  · obtain ⟨w, sl, m, hw, hs, hm, ht, hnone⟩ : ∃ w sl m,
        run (stepWithTouches plainLib 1) (ttlWorld 75) touchedWhileClosing = some w ∧ w.slots 0 = some sl ∧
        w.db.metaAt sl.st.path = some m ∧ m.ttlSeconds ≠ 0 ∧ w.db.lookup (.expiryKey m.deadline m.streamID) = none :=
      ⟨_, _, _, rfl, rfl, rfl, by decide, rfl⟩
    have := h plainLib 1 (ttlWorld 75) w ttlWorld_spawned ttlWorld_indexed (reach_of_run hclosing hw) 0 sl m hs hm ht
    rw [hnone] at this
    cases this

end Yasdb.Notifier
