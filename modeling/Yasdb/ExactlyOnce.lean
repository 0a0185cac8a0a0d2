import Yasdb.StoredLog
import Yasdb.Lib.Runs

/-!
# Exactly-once appends

The life of one stream under the sync committer (`streamStep`): bursts whose reads and whose commit may fail, TTL
touches, retirement of the streamer and respawn from the store, in any order. Beside the store and the streamer a state
keeps the appends applied so far and the answers sent outside failed bursts.

- `exactly_once`: with reads that do not fail, each append is applied once and in order;
- `failed_read_reapplies`: a read that fails is remembered as "absent", and a retry is applied again;
- `no_reapply_of_harmless_reads`: this needs a failing read of a key that is stored.
-/

namespace Yasdb

open Batch Runs List Option View

variable {v : View} {rs : List AppendResp} {as : List Bool} {flt : Faults} {db : Store}

/-! ## The system -/

/-- An answer sent, with the number of appends applied before it. -/
structure Answer where
  before : Nat
  req : AppendReq
  resp : AppendResp
  accepted : Bool

/-- The state of one stream, with the history of the run. -/
structure StreamState where
  db : Store
  /-- the resident streamer -/
  live : Option Streamer
  /-- the appends whose burst was committed, in order -/
  applied : List (Int64 × AppendReq) := []
  /-- the answers outside failed bursts, in order -/
  answers : List Answer := []

/-- What can happen to a stream. -/
inductive StreamEvent where
  /-- `getOrSpawn` finds no resident streamer and loads one -/
  | spawn
  /-- dormancy retirement -/
  | retire
  /-- a burst, with the reads that fail during it and the outcome of its commit -/
  | burst (now : Int64) (flt : Faults) (commitErr : Option String) (batch : List AppendReq)
  /-- a sliding-TTL touch -/
  | touch (now : Int64) (commitErr : Option String)

/-- The reads that fail during a step. -/
def StreamEvent.faults : StreamEvent → Faults
  | .burst _ flt _ _ => flt
  | _ => noFaults

/-- The requests of a batch that were accepted. -/
def picked : List AppendReq → List Bool → List AppendReq
  | req :: reqs, acc :: accs => if acc then req :: picked reqs accs else picked reqs accs
  | _, _ => []

/-- The answers of a batch, in order, from `n` applied appends on. -/
def answersFrom : Nat → List AppendReq → List AppendResp → List Bool → List Answer
  | n, req :: reqs, resp :: resps, acc :: accs =>
    ⟨n, req, resp, acc⟩ :: answersFrom (if acc then n + 1 else n) reqs resps accs
  | _, _, _, _ => []

/-- One burst. It fails when it reaches its commit and the commit returns an error. -/
def burstStep (L : GoLib) (now : Int64) (flt : Faults) (commitErr : Option String) (batch : List AppendReq)
    (w : StreamState) (s : Streamer) : StreamState :=
  let p := planBatch L flt w.db s (newPending s now) batch
  let failed := commitErr.isSome && !nothing p.st p.pend p.metaChanged
  match syncBurst L flt now commitErr (w.db, s) batch with
  | ((db, s), responses) =>
    { db := db
      live := some s
      applied := if failed then w.applied else w.applied ++ (picked batch p.accepted).map (now, ·)
      answers := if failed then w.answers
        else w.answers ++ answersFrom w.applied.length batch responses p.accepted }

/-- The steps of the stream at `path`. -/
def streamStep (L : GoLib) (path : Bytes) (w : StreamState) : StreamEvent → Option StreamState
  | .spawn =>
    match w.live, w.db.metaAt path with
    | none, some m => some { w with live := some (newStreamer path m (loadTailSeq w.db m.streamID)) }
    | _, _ => none
  | .retire => w.live.map fun _ => { w with live := none }
  | .burst now flt commitErr batch => w.live.map (burstStep L now flt commitErr batch w)
  | .touch now commitErr => w.live.map fun s =>
    match refreshTTLOnRead now commitErr w.db s with
    | (db, s) => { w with db := db, live := some s }

/-- A stream that has just been created: no producer state, no `Stream-Seq` and no records from the tail on. -/
structure FreshStream (db : Store) (path : Bytes) (m : StreamMeta) : Prop where
  streamMeta : db.metaAt path = some m
  producers : ∀ pid, db.producerAt m.streamID pid = none
  writerSeq : db.writerSeqAt m.streamID = none
  records : ∀ n, loadTailSeq db m.streamID ≤ n → db.recordAt m.streamID n = none

/-! ## What the history should say -/

/-- A duplicate answer: 204 to an append that was not accepted, echoing a producer state. -/
def Answer.IsDuplicate (a : Answer) (h : ProducerHeaders) (e n : Nat) : Prop :=
  a.accepted = false ∧ a.req.producer = some h ∧ a.resp.status = 204 ∧ a.resp.producerEpoch = some e ∧
    a.resp.producerSeq = some n

/-- A duplicate answer names, in the request and in the echo, appends applied before it. -/
def Answer.NamesApplied (applied : List (Int64 × AppendReq)) (a : Answer) : Prop :=
  ∀ h e n, a.IsDuplicate h e n →
    (h.epoch, h.seq) ∈ pairsOf h.id (applied.take a.before) ∧ (e, n) ∈ pairsOf h.id (applied.take a.before)

/-- Exactly-once, read off the history and the store. -/
structure ExactlyOnce (id start : Nat) (w : StreamState) : Prop where
  epochs : ∀ pid, (pairsOf pid w.applied).Pairwise (·.1 ≤ ·.1)
  seqs : ∀ pid e, ∃ k, ((pairsOf pid w.applied).filter (·.1 = e)).map (·.2) = List.range k
  duplicates : ∀ a ∈ w.answers, a.NamesApplied w.applied
  streamSeqs : (streamSeqsOf w.applied).Pairwise (· < ·)
  records : ∀ n, w.db.recordAt id (start + n) = (recordsOf w.applied)[n]?.map (marshalRecord recFlagNone)

/-! ## A burst and the history -/

variable {L : GoLib} {now : Int64} {batch : List AppendReq}

theorem View.Answered.picked (h : Answered L now v batch rs as) : picked batch as = v.accepted L now batch := by
  induction h with
  | nil => rfl
  | accept ha _ ih => rw [accepted_cons_accept ha, ← ih]; rfl
  | noop _ hi _ ih => rw [accepted_cons_not fun ha => ha.not_isNoop hi, ← ih]; rfl
  | reject _ ha _ _ ih => rw [accepted_cons_not ha, ← ih]; rfl

/-- The answers of a batch name applied appends, given that the view tracks the appends applied before the batch. -/
theorem View.Answered.namesApplied {v₀ : View}
    (h : Answered L now v batch rs as) (h0 : ∀ pid, v₀.producers pid = none) {l : List (Int64 × AppendReq)}
    (hl : Applies L v₀ l v) :
    ∀ a ∈ answersFrom l.length batch rs as, a.NamesApplied (l ++ (v.accepted L now batch).map (now, ·)) := by
  induction h generalizing l with
  | nil => simp [answersFrom]
  | @accept v req reqs rs as ha _ ih =>
    intro a hmem
    rcases mem_cons.mp hmem with rfl | hmem
    · exact fun h e n hd => by cases hd.1
    · have := ih (.snoc now req hl ha) a (by simpa using hmem)
      rwa [append_assoc, singleton_append, ← map_cons, ← accepted_cons_accept ha] at this
  | @noop v req reqs resp rs as hn hi _ ih =>
    rw [accepted_cons_not fun ha => ha.not_isNoop hi]
    intro a hmem
    rcases mem_cons.mp hmem with rfl | hmem
    · rintro h e n ⟨-, hp, -, he, hs⟩
      cases hn with
      | closed => cases he
      | duplicate h' p hp' hv hc =>
        rw [hp'] at hp
        cases hp
        cases he
        cases hs
        rw [take_left]
        have ht := hl.tracks h0 h.id
        rw [hv] at ht
        exact ⟨ht.mem_of_covers hc, ht.mem_of_covers ⟨p, rfl, rfl, le_refl _⟩⟩
    · exact ih hl a hmem
  | @reject v req reqs resp rs as hr ha _ _ ih =>
    rw [accepted_cons_not ha]
    intro a hmem
    rcases mem_cons.mp hmem with rfl | hmem
    · exact fun h e n hd => absurd hd.2.2.1 hr.2
    · exact ih hl a hmem

theorem Answer.NamesApplied.append {applied : List (Int64 × AppendReq)} {a : Answer} (h : a.NamesApplied applied)
    (l : List (Int64 × AppendReq)) : a.NamesApplied (applied ++ l) := by
  intro hd e n hdup
  obtain ⟨h1, h2⟩ := h hd e n hdup
  have hsub : pairsOf hd.id (applied.take a.before) ⊆ pairsOf hd.id ((applied ++ l).take a.before) := by
    rw [take_append, pairsOf_append]
    exact subset_append_left _ _
  exact ⟨hsub h1, hsub h2⟩

theorem syncBurst_of_nothing {s : Streamer} (commitErr : Option String)
    (hn : nothing (planBatch L flt db s (newPending s now) batch).st
    (planBatch L flt db s (newPending s now) batch).pend
      (planBatch L flt db s (newPending s now) batch).metaChanged = true) :
    syncBurst L flt now commitErr (db, s) batch = syncBurst L flt now none (db, s) batch := by
  unfold syncBurst processBurst
  simp only [hn, if_true]

/-- **One burst and the history**: it fails and only fills the cache, or it is the burst of a commit that succeeds. -/
theorem burstStep_cases (L : GoLib) (now : Int64) (flt : Faults) (commitErr : Option String)
    (batch : List AppendReq) (w : StreamState) (s : Streamer) :
    (∃ s', Loads flt w.db s s' ∧ burstStep L now flt commitErr batch w s = { w with live := some s' }) ∨
      burstStep L now flt commitErr batch w s = burstStep L now flt none batch w s := by
  unfold burstStep
  cases commitErr with
  | none => exact Or.inr rfl
  | some err =>
    by_cases hn : nothing (planBatch L flt w.db s (newPending s now) batch).st
        (planBatch L flt w.db s (newPending s now) batch).pend
        (planBatch L flt w.db s (newPending s now) batch).metaChanged = true
    · right
      simp [syncBurst_of_nothing (some err) hn, hn]
    · left
      obtain ⟨hdb, hl⟩ := syncBurst_failed L flt now err w.db s batch
      exact ⟨_, hl, by simp [hn, hdb]⟩

/-! ## The invariant -/

/-- What holds in every state of a run from a fresh stream with the view `v₀`. -/
structure StreamInv (L : GoLib) (path : Bytes) (id : Nat) (v₀ : View) (w : StreamState) : Prop where
  live : ∀ s, w.live = some s → s.path = path ∧ Coherent w.db s
  stored : StoredAs L path id v₀ w.db w.applied
  answers : ∀ a ∈ w.answers, a.NamesApplied w.applied

section Invariant

variable {L : GoLib} {path : Bytes} {id : Nat} {v₀ : View} {w : StreamState} {s : Streamer}

section

variable (h : StreamInv L path id v₀ w)
include h

theorem StreamInv.loads {s' : Streamer} (hs : w.live = some s)
    (hr : ReadsAs flt w.db w.db s) (hl : Loads flt w.db s s') : StreamInv L path id v₀ { w with live := some s' } := by
  obtain ⟨hp, hc⟩ := h.live s hs
  refine ⟨fun t ht => ?_, h.stored, h.answers⟩
  cases ht
  exact ⟨hl.path.trans hp, hc.loads hr hl⟩

/-- A burst that does not fail keeps the invariant. -/
theorem StreamInv.burst (h0 : ∀ pid, v₀.producers pid = none)
    (hs : w.live = some s) (hr : ReadsAs flt w.db w.db s) (now : Int64) (batch : List AppendReq) :
    StreamInv L path id v₀ (burstStep L now flt none batch w s) := by
  obtain ⟨rfl, hc⟩ := h.live s hs
  obtain ⟨-, -, ha⟩ := h.stored.streamMeta hc
  have hplan := planBatch_plans L flt w.db batch s (newPending s now)
  have hP := planning_planBatch L flt w.db now s batch
  have hans := hplan.answered
  rw [pendView_newPending, hc.viewOf hr] at hans
  have hlog : (picked batch (planBatch L flt w.db s (newPending s now) batch).accepted).map (now, ·) =
      ((storeView w.db s.streamMeta).accepted L now batch).map (now, ·) := by
    rw [hans.picked]; rfl
  unfold burstStep
  simp only [isSome_none, Bool.false_and, Bool.false_eq_true, if_false, hlog, syncBurst_eq L flt w.db batch hP]
  refine ⟨fun t ht => ?_, h.stored.settle hc hr now batch, fun a hmem => ?_⟩
  · cases ht
    exact ⟨hplan.loads.path, (hc.loads hr hplan.loads).settled hP _⟩
  · rcases mem_append.mp hmem with hmem | hmem
    · exact (h.answers a hmem).append _
    · exact hans.namesApplied h0 ha a hmem

theorem StreamInv.touch (hs : w.live = some s) (now : Int64)
    (commitErr : Option String) :
    StreamInv L path id v₀ { w with
      db := (refreshTTLOnRead now commitErr w.db s).1, live := some (refreshTTLOnRead now commitErr w.db s).2 } := by
  obtain ⟨rfl, hc⟩ := h.live s hs
  refine ⟨fun t ht => ?_, h.stored.touch hc now commitErr, h.answers⟩
  cases ht
  refine ⟨?_, coherent_refreshTTLOnRead now commitErr hc⟩
  rcases refreshTTLOnRead_cases now commitErr w.db s with ⟨he, -⟩ | ⟨d, he, -⟩
  · rw [he]
  · rw [he]; rfl

end

/-- Failing reads that do no harm: each hits a key that is not stored, or one that the streamer has cached. -/
def HarmlessReads (w : StreamState) (e : StreamEvent) : Prop :=
  ∀ s, w.live = some s →
    (∀ pid, e.faults (.producerKey s.id pid) = true → s.producers pid = none → w.db.producerAt s.id pid = none) ∧
      (e.faults (.writerSeqKey s.id) = true → s.writerSeq = none → w.db.writerSeqAt s.id = none)

theorem HarmlessReads.readsAs {e : StreamEvent} (h : HarmlessReads w e) (hs : w.live = some s) :
    ReadsAs e.faults w.db w.db s := by
  obtain ⟨h1, h2⟩ := h s hs
  refine ⟨fun pid hp => ?_, fun hw => ?_⟩
  · split
    · rename_i hf; rw [h1 pid hf hp]
    · rfl
  · split
    · rename_i hf; rw [h2 hf hw]; rfl
    · rfl

/-- **Every step with harmless reads keeps the invariant.** -/
theorem StreamInv.step {w' : StreamState} {e : StreamEvent} (h0 : ∀ pid, v₀.producers pid = none)
    (h : StreamInv L path id v₀ w) (hr : HarmlessReads w e) (he : streamStep L path w e = some w') :
    StreamInv L path id v₀ w' := by
  cases e with
  | spawn =>
    unfold streamStep at he
    cases hl : w.live with
    | some s => simp [hl] at he
    | none =>
      cases hm : w.db.metaAt path with
      | none => simp [hl, hm] at he
      | some m =>
        simp only [hl, hm, some.injEq] at he
        subst he
        refine ⟨fun s hs => ?_, h.stored, h.answers⟩
        cases hs
        exact ⟨rfl, coherent_newStreamer hm⟩
  | retire =>
    obtain ⟨s, -, rfl⟩ := map_eq_some_iff.mp he
    exact ⟨nofun, h.stored, h.answers⟩
  | burst now flt commitErr batch =>
    obtain ⟨s, hs, rfl⟩ := map_eq_some_iff.mp he
    have hra : ReadsAs flt w.db w.db s := hr.readsAs hs
    rcases burstStep_cases L now flt commitErr batch w s with ⟨s', hl, hb⟩ | hb
    · rw [hb]; exact h.loads hs hra hl
    · rw [hb]; exact h.burst h0 hs hra now batch
  | touch now commitErr =>
    obtain ⟨s, hs, rfl⟩ := map_eq_some_iff.mp he
    exact h.touch hs now commitErr

end Invariant

/-- The state of a fresh stream, before its first streamer. -/
def freshState (db : Store) : StreamState := { db := db, live := none }

theorem streamInv_fresh {path : Bytes} {m : StreamMeta} (h : FreshStream db path m) :
    StreamInv L path m.streamID (storeView db m) (freshState db) := by
  refine ⟨by rintro _ ⟨⟩, ⟨⟨m, h.streamMeta, rfl, .nil _⟩, fun n => ?_⟩, by rintro _ ⟨⟩⟩
  exact h.records _ (Nat.le_add_right _ _)

/-! ## Main results -/

/-- **Exactly-once idempotent producers.** In every state of every run from a fresh stream whose reads do not fail. -/
theorem exactly_once (L : GoLib) (path : Bytes) (db : Store) (m : StreamMeta) (w : StreamState)
    (hf : FreshStream db path m)
    (hr : Reach (streamStep L path) (fun _ e => e.faults = noFaults) (freshState db) w) :
    ExactlyOnce m.streamID (loadTailSeq db m.streamID) w := by
  have hinv : StreamInv L path m.streamID (storeView db m) w :=
    hr.invariant (fun s e s' hs he hst => hs.step hf.producers (fun _ _ => by simp [he, noFaults]) hst)
      (streamInv_fresh hf)
  obtain ⟨m', -, -, ha⟩ := hinv.stored.view
  exact ⟨fun pid => (ha.tracks hf.producers pid).epochs, fun pid e => (ha.tracks hf.producers pid).seqs e,
    hinv.answers, ha.streamSeqs.1, hinv.stored.records⟩

theorem sampleStore_fresh : FreshStream sampleStore samplePath sampleMeta := by
  have hlookup : ∀ k : Key, Key.metaKey samplePath ≠ k → sampleStore.lookup k = none := fun k hk => by
    unfold sampleStore
    rw [lookup_applyOps_ne (by simpa using hk)]
    rfl
  exact ⟨by simp [Store.metaAt, sampleStore, Op.apply], fun pid => hlookup _ (by simp), hlookup _ (by simp),
    fun n _ => hlookup _ (by simp)⟩

/-- An append, respawn, and the retry of the append. -/
def retryAfterRespawn (flt : Faults) : List StreamEvent :=
  [.spawn, .burst 0 noFaults none [producerAppend 0 0], .retire, .spawn, .burst 0 flt none [producerAppend 0 0]]

/-- A retry after respawn is answered as a duplicate of the one applied append. -/
theorem exactly_once_retryAfterRespawn :
    ∃ w, run (streamStep plainLib samplePath) (freshState sampleStore) (retryAfterRespawn noFaults) = some w ∧
      pairsOf sampleProducer w.applied = [(0, 0)] ∧ ExactlyOnce 1 0 w := by
  have hreads : ∀ e ∈ retryAfterRespawn noFaults, ∀ _ : StreamState, e.faults = noFaults := by
    simp [retryAfterRespawn, StreamEvent.faults]
  exact ⟨_, rfl, rfl, exactly_once plainLib samplePath sampleStore sampleMeta _ sampleStore_fresh
    (reach_of_run hreads rfl)⟩

/-- **Harmless failing reads do not weaken deduplication.** If all failing reads hit keys that are not stored (or
already cached), no append is applied twice and applied `Stream-Seq` values strictly increase. -/
theorem no_reapply_of_harmless_reads (L : GoLib) (path : Bytes) (db : Store) (m : StreamMeta) (w : StreamState)
    (hf : FreshStream db path m) (hr : Reach (streamStep L path) HarmlessReads (freshState db) w) :
    (∀ pid, (pairsOf pid w.applied).Nodup) ∧ (streamSeqsOf w.applied).Pairwise (· < ·) := by
  have hinv : StreamInv L path m.streamID (storeView db m) w :=
    hr.invariant (fun s e s' hs he hst => hs.step hf.producers he hst) (streamInv_fresh hf)
  obtain ⟨m', -, -, ha⟩ := hinv.stored.view
  exact ⟨fun pid => (ha.tracks hf.producers pid).nodup, ha.streamSeqs.1⟩

/-- The read of the sample producer's state fails. -/
def producerFault : Faults := fun k => k = .producerKey 1 sampleProducer

/-- The first read of a producer without state may fail. The retry of its append is taken for a duplicate. -/
theorem no_reapply_first_read :
    ∃ w, run (streamStep plainLib samplePath) (freshState sampleStore)
        [.spawn, .burst 0 producerFault none [producerAppend 0 0],
          .burst 0 noFaults none [producerAppend 0 0]] = some w ∧
      pairsOf sampleProducer w.applied = [(0, 0)] ∧
      ((∀ pid, (pairsOf pid w.applied).Nodup) ∧ (streamSeqsOf w.applied).Pairwise (· < ·)) := by
  have hspawn : HarmlessReads (freshState sampleStore) .spawn := nofun
  have hburst : HarmlessReads { freshState sampleStore with live := some (newStreamer samplePath sampleMeta 0) }
      (.burst 0 producerFault none [producerAppend 0 0]) := fun s hs => by
    cases hs
    exact ⟨fun pid _ _ => sampleStore_fresh.producers pid, fun _ _ => sampleStore_fresh.writerSeq⟩
  have hretry : ∀ w, HarmlessReads w (.burst 0 noFaults none [producerAppend 0 0]) := fun _ _ _ => ⟨nofun, nofun⟩
  exact ⟨_, rfl, rfl, no_reapply_of_harmless_reads plainLib samplePath sampleStore sampleMeta _ sampleStore_fresh
    ((((Reach.refl _).tail hspawn rfl).tail hburst rfl).tail (hretry _) rfl)⟩

/-- **A failed read weakens deduplication**: the read of a stored producer state fails once after a respawn, and the
retry of an applied append is applied again. -/
theorem failed_read_reapplies :
    ¬ ∀ (L : GoLib) (path : Bytes) (db : Store) (m : StreamMeta) (w : StreamState), FreshStream db path m →
      Reach (streamStep L path) Any (freshState db) w →
      (∀ pid, (pairsOf pid w.applied).Nodup) ∧ (streamSeqsOf w.applied).Pairwise (· < ·) := by
  intro h
  obtain ⟨w, hw, hp⟩ : ∃ w, run (streamStep plainLib samplePath) (freshState sampleStore)
      (retryAfterRespawn producerFault) = some w ∧ pairsOf sampleProducer w.applied = [(0, 0), (0, 0)] :=
    ⟨_, rfl, rfl⟩
  have hnd := (h plainLib samplePath sampleStore sampleMeta w sampleStore_fresh
    (reach_any hw)).1 sampleProducer
  rw [hp] at hnd
  exact absurd hnd (by decide)

end Yasdb
