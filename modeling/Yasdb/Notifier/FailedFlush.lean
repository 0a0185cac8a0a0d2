import Yasdb.Notifier.Tracked

/-!
# Failed commits in notifier mode

A streamer publishes the writer view of a burst before the flush goroutine commits it, and nothing takes that back when
the commit fails. The next burst of the stream is then planned over appends that were never stored.

- `failed_flush_leaves_hole`: a retry is answered as a duplicate, and an append is stored behind a hole;
- `failed_flush_no_trace`: **none of this happens** if a failing commit strikes a stream without further jobs in flight,
  which plans no burst before its streamer has been respawned (`FailsAlone`).

Per stream, the invariant (`SlotInv`) follows the jobs that are not yet stored.
-/

namespace Yasdb

open Batch List Option

/-! ## A streamer ahead of the store -/

/-- The batch writes nothing that the streamer would still load. -/
structure Uncached (s : Streamer) (ops : List Op) : Prop where
  producers : ∀ pid, s.producers pid = none → ∀ op ∈ ops, op.key ≠ .producerKey s.id pid
  writerSeq : s.writerSeq = none → ∀ op ∈ ops, op.key ≠ .writerSeqKey s.id

section Ahead

variable {s s' : Streamer} {ops : List Op}

theorem uncached_nil (s : Streamer) : Uncached s [] :=
  ⟨nofun, nofun⟩

section

variable (h : Uncached s ops)
include h

theorem Uncached.readsAs (db : Store) : ReadsAs noFaults db (applyOps db ops) s := by
  refine ⟨fun pid hp => ?_, fun hw => ?_⟩
  · exact (lookup_applyOps_ne (h.producers pid hp)).symm
  · show (db.writerSeqAt s.id).getD [] = (Store.writerSeqAt (applyOps db ops) s.id).getD []
    unfold Store.writerSeqAt
    rw [lookup_applyOps_ne (h.writerSeq hw)]

theorem Uncached.loads {flt : Faults} {db : Store} (hl : Loads flt db s s') : Uncached s' ops := by
  refine ⟨fun pid hp => ?_, fun hw => ?_⟩
  · rw [hl.id]
    refine h.producers pid ?_
    cases hs : s.producers pid with
    | none => rfl
    | some r => rw [hl.producers_some hs] at hp; cases hp
  · rw [hl.id]
    refine h.writerSeq ?_
    rcases hl.writerSeq with he | he
    · rw [← he]; exact hw
    · rw [hw] at he; cases he

theorem Uncached.subset {ops' : List Op} (hsub : ops' ⊆ ops) : Uncached s ops' :=
  ⟨fun pid hp op ho => h.producers pid hp op (hsub ho), fun hw op ho => h.writerSeq hw op (hsub ho)⟩

end

variable {now : Int64} {pend : PendingBurst} {mc : Bool}

/-- What a burst writes is cached by the writer view it publishes. -/
theorem Uncached.applyWriter (h : Uncached s ops) (hP : Planning now s pend mc) (mc' : Bool) :
    Uncached (applyWriter s pend mc') (ops ++ burstOps s pend mc) := by
  have hrec := hP.records
  refine ⟨fun pid hp op ho hk => ?_, fun hw op ho hk => ?_⟩
  · simp only [Yasdb.applyWriter] at hp hk
    rcases mem_append.mp ho with ho | ho
    · cases hl : pend.producers.lookup pid with
      | some ps => rw [hl] at hp; cases hp
      | none => rw [hl] at hp; exact h.producers pid hp op ho hk
    · have he : effect (.producerKey s.id pid) (burstOps s pend mc) = none := by
        rw [effect_burstOps_producer hrec, if_pos rfl]
        cases hl : pend.producers.lookup pid with
        | some ps => rw [hl] at hp; cases hp
        | none => rfl
      exact ne_of_effect_none he op ho hk
  · simp only [Yasdb.applyWriter] at hw hk
    rcases mem_append.mp ho with ho | ho
    · cases hl : pend.writerSeq with
      | some q => rw [hl] at hw; cases hw
      | none => rw [hl] at hw; exact h.writerSeq hw op ho hk
    · have he : effect (.writerSeqKey s.id) (burstOps s pend mc) = none := by
        rw [effect_burstOps_writerSeq hrec, if_pos rfl]
        cases hl : pend.writerSeq with
        | some q => rw [hl] at hw; cases hw
        | none => rfl
      exact ne_of_effect_none he op ho hk

end Ahead

namespace Notifier

open Runs

/-! ## The jobs of one stream -/

/-- A stream with the jobs `out` planned and not yet stored: after each prefix of them the store holds the appends so
far, and after all of them its streamer is coherent with it. -/
structure SlotInv (L : GoLib) (v₀ : View) (db : Store) (out : List CommitJob) (sl : Slot) : Prop where
  lands : ∀ front, front <+: out →
    StoredAs L sl.st.path sl.st.id v₀ (applyOps db (opsOf front)) (sl.applied ++ logOf front)
  live : sl.stale = false → Coherent (applyOps db (opsOf out)) sl.st ∧ Uncached sl.st (opsOf out)
  cleared : sl.stale = true → out = []

namespace SlotInv

variable {L : GoLib} {v₀ : View} {db : Store} {out : List CommitJob} {sl : Slot}

section

variable (h : SlotInv L v₀ db out sl)
include h

theorem stored : StoredAs L sl.st.path sl.st.id v₀ db sl.applied := by
  simpa [opsOf, logOf] using h.lands [] nil_prefix

theorem loads {s : Streamer} (hl : Loads noFaults db sl.st s) : SlotInv L v₀ db out { sl with st := s } := by
  refine ⟨fun front hf => ?_, fun hst => ?_, h.cleared⟩
  · rw [hl.path, hl.id]; exact h.lands front hf
  · obtain ⟨hc, hu⟩ := h.live hst
    exact ⟨hc.loads (hu.readsAs db) hl, hu.loads hl⟩

theorem reader (tail : Nat) (closed : Bool) : SlotInv L v₀ db out { sl with st := applyReader sl.st tail closed } := by
  refine ⟨h.lands, fun hst => ?_, h.cleared⟩
  obtain ⟨hc, hu⟩ := h.live hst
  exact ⟨⟨⟨hc.streamMeta, hc.id, hc.writeTail⟩, hc.producers, hc.writerSeq⟩, hu.producers, hu.writerSeq⟩

/-- A burst that commits appends its job. -/
theorem plan {i : Nat} {now : Int64} {batch : List AppendReq} {s : Streamer} {c : CommitBurst} {hand : Option CommitJob}
    (hst : sl.stale = false)
    (hb : processBurst L noFaults db now sl.st batch = (s, .commit c)) :
    SlotInv L v₀ db (out ++ [newJob i now sl.st batch c])
      { sl with st := applyWriter s c.pend c.metaChanged, hand := hand } := by
  obtain ⟨hl, -, p, hp, rfl, rfl, hn, hP⟩ := processBurst_commit hb
  obtain ⟨hc, hu⟩ := h.live hst
  have hr := hu.readsAs db
  have hops : settleOps p.st p.pend p.metaChanged = (commitOf p).ops := by simp [settleOps, hn, commitOf]
  have hplan := planBatch_plans L noFaults db batch sl.st (newPending sl.st now)
  have hans := hplan.answered
  rw [pendView_newPending, hc.viewOf hr, ← hp] at hans
  have hlog : (newJob i now sl.st batch (commitOf p)).log =
      ((storeView (applyOps db (opsOf out)) sl.st.streamMeta).accepted L now batch).map (now, ·) := by
    show (picked batch p.accepted).map (now, ·) = _
    rw [hans.picked]; rfl
  refine ⟨fun front hf => ?_, fun _ => ?_, fun hst' => ?_⟩
  · show StoredAs L p.st.path p.st.id v₀ _ (sl.applied ++ logOf front)
    rw [hl.path, hl.id]
    rcases prefix_concat_iff.mp hf with rfl | hf
    · have hset := (h.lands out (prefix_refl out)).settle hc hr now batch
      dsimp only at hset
      rw [← hp, hops, ← hlog] at hset
      rwa [opsOf_append, applyOps_append, logOf_append, ← append_assoc, opsOf_singleton, logOf_singleton]
    · exact h.lands front hf
  · rw [opsOf_append, applyOps_append, opsOf_singleton]
    exact ⟨(hc.loads hr hl).applyWriter hP hn, (hu.loads hl).applyWriter hP _⟩
  · rw [show sl.stale = true from hst'] at hst; cases hst

end

theorem commit {db' : Store} {front rest : List CommitJob} (h : SlotInv L v₀ db (front ++ rest) sl)
    (ha : Agree sl.st.path sl.st.id (applyOps db (opsOf front)) db') :
    SlotInv L v₀ db' rest { sl with applied := sl.applied ++ logOf front } := by
  refine ⟨fun js hjs => ?_, fun hst => ?_, fun hst => (append_eq_nil_iff.mp (h.cleared hst)).2⟩
  · have hl := h.lands (front ++ js) (prefix_append_right_inj front |>.mpr hjs)
    rw [opsOf_append, applyOps_append, logOf_append, ← append_assoc] at hl
    exact hl.congr (ha.applyOps _)
  · obtain ⟨hc, hu⟩ := h.live hst
    rw [opsOf_append, applyOps_append] at hc
    rw [opsOf_append] at hu
    exact ⟨hc.congr (ha.applyOps _), hu.subset (subset_append_right _ _)⟩

theorem fail (h : SlotInv L v₀ db out sl) : SlotInv L v₀ db [] { sl with stale := true } := by
  refine ⟨fun front hf => ?_, nofun, fun _ => rfl⟩
  exact h.lands front ((prefix_nil.mp hf) ▸ nil_prefix)

theorem respawn {m : StreamMeta} (h : SlotInv L v₀ db [] sl) (hm : db.metaAt sl.st.path = some m) : SlotInv L v₀ db []
      { sl with st := newStreamer sl.st.path m (loadTailSeq db m.streamID), stale := false } := by
  obtain ⟨m', hm', hid, -⟩ := h.stored.view
  cases hm.symm.trans hm'
  refine ⟨fun front hf => ?_, fun _ => ?_, nofun⟩
  · show StoredAs L sl.st.path m.streamID v₀ _ _
    rw [hid]; exact h.lands front hf
  · exact ⟨coherent_newStreamer hm, uncached_nil _⟩

end SlotInv

/-! ## All streams -/

/-- The invariant of a run from `w₀`. -/
abbrev FlushInv (L : GoLib) (w₀ : World) : World → Prop :=
  Tracked fun i db out sl => ∃ sl₀, w₀.slots i = some sl₀ ∧ SlotInv L (viewOf noFaults w₀.db sl₀.st) db out sl

/-- A failing commit strikes streams that have no other job in flight, and such a stream plans no burst until its
streamer is respawned. Reads do not fail and the committer is not shut down. -/
def FailsAlone (w : World) : Event → Prop
  | .plan i _ flt _ => flt = noFaults ∧ ∀ sl, w.slots i = some sl → sl.stale = false
  | .commitFail _ => ∀ j ∈ w.flush.jobs, (∀ j' ∈ w.pending, j'.st ≠ j.st) ∧
      ∀ sl, w.slots j.st = some sl → sl.hand = none
  | .closeCommitter => False
  | _ => True

namespace FlushInv

variable {L : GoLib} {w₀ w : World}

/-- A failed commit marks the streams of its jobs. -/
theorem commitFail {err : String} {jobs : List CommitJob} (h : FlushInv L w₀ w) (hf : w.flush = .committing jobs)
    (hc : FailsAlone w (.commitFail err)) : FlushInv L w₀ (commitFailStep w err jobs) := by
  have hq : w.queued = jobs ++ w.pending := by unfold World.queued; rw [hf]; rfl
  have hown : ∀ {j}, JobOwned w.slots j → JobOwned (commitFailStep w err jobs).slots j := fun ⟨sl, hs, ho⟩ =>
    ⟨_, congrArg (Option.map _) hs, ho⟩
  have hc' : ∀ j ∈ jobs, (∀ j' ∈ w.pending, j'.st ≠ j.st) ∧ ∀ sl, w.slots j.st = some sl → sl.hand = none := by
    have := hc
    unfold FailsAlone at this
    rwa [hf] at this
  refine ⟨fun a b sa sb ha hb hab => ?_, fun j hj => ?_, fun i sl j hs hj => ?_, fun i sl hs => ?_, h.opened⟩
  · obtain ⟨sa', ha', rfl⟩ := map_eq_some_iff.mp ha
    obtain ⟨sb', hb', rfl⟩ := map_eq_some_iff.mp hb
    exact h.apart a b sa' sb' ha' hb' hab
  · exact hown (h.queued j (by rw [hq]; exact mem_append_right _ hj))
  · obtain ⟨so, hso, rfl⟩ := map_eq_some_iff.mp hs
    exact ⟨(h.hands i so j hso hj).1, hown (h.hands i so j hso hj).2⟩
  · obtain ⟨so, hso, rfl⟩ := map_eq_some_iff.mp hs
    obtain ⟨sl₀, hs₀, hsl⟩ := h.slots i so hso
    refine ⟨sl₀, hs₀, ?_⟩
    cases hany : jobs.any (·.st = i) with
    | true =>
      obtain ⟨j, hj, hji⟩ := List.any_eq_true.mp hany
      obtain ⟨hpend, hhand⟩ := hc' j hj
      rw [of_decide_eq_true hji] at hpend hhand
      have hout : (commitFailStep w err jobs).outstanding i { so with stale := so.stale || true } = [] := by
        unfold World.outstanding
        rw [show ({ so with stale := so.stale || true } : Slot).hand = none from hhand so hso]
        have : w.pending.filter (·.st = i) = [] := filter_eq_nil_iff.mpr fun j' hj' => by simpa using hpend j' hj'
        simpa [World.queued, commitFailStep, Flush.jobs] using this
      rw [hout, Bool.or_true]
      exact hsl.fail
    | false =>
      have hnone : jobs.filter (·.st = i) = [] := filter_eq_nil_iff.mpr (by simpa using hany)
      unfold World.outstanding at hsl ⊢
      rw [hq, filter_append, hnone, nil_append] at hsl
      rw [Bool.or_false]
      exact hsl

/-- **Every step that meets the condition keeps the invariant.** -/
theorem step {batchMax : Nat} {w' : World} {e : Event} (h : FlushInv L w₀ w) (hc : FailsAlone w e)
    (he : step L batchMax w e = some w') : FlushInv L w₀ w' := by
  have ht : Tracked _ w := h
  cases steps_of_step he with
  | plan now flt batch hs hh =>
    obtain ⟨rfl, hst⟩ := hc
    refine ht.plan hs hh (fun s out hl ⟨sl₀, hs₀, hsl⟩ => ⟨sl₀, hs₀, hsl.loads hl⟩)
      fun s c out hb ⟨sl₀, hs₀, hsl⟩ => ⟨sl₀, hs₀, ?_⟩
    exact hsl.plan (hst _ hs) hb
  | enqueue hs hj =>
    exact ht.enqueue hs hj fun out ⟨sl₀, hs₀, hsl⟩ => ⟨sl₀, hs₀, hsl.lands, hsl.live, hsl.cleared⟩
  | commitOk hf _ =>
    exact ht.commitOk hf fun i sl front rest _ ⟨sl₀, hs₀, hsl⟩ ha => ⟨sl₀, hs₀, hsl.commit ha⟩
  | commitFail hf => exact h.commitFail hf hc
  | subscribe hf _ => exact ht.congr rfl rfl (by unfold World.queued; rw [hf]; rfl) rfl
  | subscribeClosed hf _ =>
    refine Tracked.failJob ?_ _ _
    exact ht.congr rfl rfl (by unfold World.queued; rw [hf]; rfl) rfl
  | failNext hf =>
    refine Tracked.failJob ?_ _ _
    exact ht.congr rfl rfl (by unfold World.queued; rw [hf]; rfl) rfl
  | loop hj hs _ =>
    obtain ⟨f, p, heq, -, -, hq⟩ := @loopStep_eq w batchMax hj hs
    rw [heq]
    exact ht.congr rfl rfl hq rfl
  | callback _ =>
    refine Tracked.completeJob ?_ _ fun i sl out tail closed _ ⟨sl₀, hs₀, hsl⟩ =>
      ⟨sl₀, hs₀, hsl.reader tail closed⟩
    exact ht.congr rfl rfl rfl rfl
  | callbackErr _ =>
    refine Tracked.failJob ?_ _ _
    exact ht.congr rfl rfl rfl rfl
  | closeCommitter _ => exact hc.elim
  | failStray _ =>
    refine Tracked.failJob ?_ _ _
    exact ht.congr rfl rfl rfl rfl
  | respawn hs hh hn hm =>
    refine ht.respawn hs hh hn fun ⟨sl₀, hs₀, hsl⟩ => ?_
    obtain ⟨m', hm', hid, -⟩ := hsl.stored.view
    cases hm.symm.trans hm'
    exact ⟨hid, sl₀, hs₀, hsl.respawn hm⟩
  | _ => exact ht.congr rfl rfl rfl rfl

end FlushInv

/-! ## Main results -/

/-- A server that has just started: nothing in flight, every streamer coherent with the store, no records from the
tails on, different streams in different slots. -/
structure Spawned (w : World) : Prop where
  quiet : w = { db := w.db, slots := w.slots }
  apart : Apart w.slots
  slots : ∀ i sl, w.slots i = some sl → sl = { st := sl.st } ∧ Coherent w.db sl.st
  records : ∀ i sl, w.slots i = some sl → ∀ n, sl.st.writeTail ≤ n → w.db.recordAt sl.st.id n = none

theorem Spawned.flushInv {w : World} (L : GoLib) (h : Spawned w) : FlushInv L w w := by
  have hq : w.queued = [] := by rw [h.quiet]; rfl
  refine ⟨h.apart, by rw [hq]; exact nofun, fun i sl j hs hj => ?_, fun i sl hs => ⟨sl, hs, ?_⟩,
    by rw [h.quiet]⟩
  · rw [(h.slots i sl hs).1] at hj; cases hj
  · obtain ⟨hsl, hc⟩ := h.slots i sl hs
    have hout : w.outstanding i sl = [] := by unfold World.outstanding; rw [hq, hsl]; rfl
    have hv := hc.viewOf (readsAs_noFaults w.db sl.st)
    have hstored : StoredAs L sl.st.path sl.st.id (viewOf noFaults w.db sl.st) w.db [] :=
      ⟨⟨_, hc.streamMeta, hc.id, by rw [hv]; exact .nil _⟩, fun n => h.records i sl hs _ (Nat.le_add_right _ _)⟩
    rw [hout]
    refine ⟨fun front hf => ?_, fun _ => ⟨hc, uncached_nil _⟩, fun _ => rfl⟩
    rw [prefix_nil.mp hf, show sl.applied = [] by rw [hsl]]
    exact hstored

/-- The store holds the surviving appends of the stream and nothing else: its tail is the starting one moved by their
records, which lie below it. -/
structure StoresSurvivors (v₀ : View) (db : Store) (sl : Slot) : Prop where
  tail : loadTailSeq db sl.st.id = v₀.tail + (recordsOf sl.applied).length
  records : ∀ n, db.recordAt sl.st.id (v₀.tail + n) = (recordsOf sl.applied)[n]?.map (marshalRecord recFlagNone)

/-- A burst is answered as if only the surviving appends had ever been submitted: over a view that they lead to, with
the producers that they leave. -/
def AnsweredOverSurvivors (L : GoLib) (v₀ : View) (w : World) (i : Nat) (sl : Slot) (now : Int64)
    (batch : List AppendReq) : Prop :=
  ∃ v, View.Applies L v₀ (sl.applied ++ logOf (w.outstanding i sl)) v ∧
    View.Answered L now v batch (planBatch L noFaults w.db sl.st (newPending sl.st now) batch).responses
      (planBatch L noFaults w.db sl.st (newPending sl.st now) batch).accepted ∧
    ∀ pid e n, Covers (v.producers pid) e n →
      Covers (v₀.producers pid) e n ∨ (e, n) ∈ pairsOf pid (sl.applied ++ logOf (w.outstanding i sl))

/-- **A failed commit that strikes alone leaves no trace.** Along every run whose steps meet the condition, the store
holds exactly the surviving appends of each stream, and bursts are answered as if only these had been submitted. -/
theorem failed_flush_no_trace (L : GoLib) (batchMax : Nat) (w₀ w : World) (h₀ : Spawned w₀)
    (hr : Reach (step L batchMax) FailsAlone w₀ w) (i : Nat) (sl sl₀ : Slot) (hs : w.slots i = some sl)
    (hs₀ : w₀.slots i = some sl₀) :
    StoresSurvivors (viewOf noFaults w₀.db sl₀.st) w.db sl ∧
      ∀ now batch, FailsAlone w (.plan i now noFaults batch) →
        AnsweredOverSurvivors L (viewOf noFaults w₀.db sl₀.st) w i sl now batch := by
  have hinv := hr.invariant (fun _ _ _ hs hc he => hs.step hc he) (h₀.flushInv L)
  obtain ⟨sl₁, hs₁, hsl⟩ := hinv.slots i sl hs
  cases hs₀.symm.trans hs₁
  refine ⟨⟨hsl.stored.tail, hsl.stored.records⟩, fun now batch hc => ?_⟩
  obtain ⟨hco, hu⟩ := hsl.live (hc.2 sl hs)
  obtain ⟨-, -, ha⟩ := (hsl.lands _ (prefix_refl _)).streamMeta hco
  have hans := (planBatch_plans L noFaults w.db batch sl.st (newPending sl.st now)).answered
  rw [pendView_newPending, hco.viewOf (hu.readsAs w.db)] at hans
  exact ⟨_, ha, hans, fun pid e n hcov => ha.covers hcov⟩

theorem sampleWorld_spawned : Spawned sampleWorld := by
  refine ⟨rfl, fun i k sl sl' hi hk hne => ?_, fun i sl hi => ?_, fun i sl hi n _ => ?_⟩
  · exact absurd ((sampleWorld_slots hi).1.trans (sampleWorld_slots hk).1.symm) hne
  · rw [(sampleWorld_slots hi).2]
    have hc := coherent_newStreamer sampleStore_fresh.streamMeta
    rw [show loadTailSeq sampleStore sampleMeta.streamID = 0 from rfl] at hc
    exact ⟨rfl, hc⟩
  · rw [(sampleWorld_slots hi).2]
    exact sampleStore_fresh.records n (Nat.zero_le n)

/-- An append is planned and queued, its commit fails and it is answered 500. -/
def failedAppend : List Event :=
  [.plan 0 0 noFaults [producerAppend 0 0], .enqueue 0, .commitFail errStoreClosed, .failNext, .loop]

/-- After a respawn the retry of a failed append is accepted. -/
theorem failed_flush_respawned :
    ∃ w sl, Reach (step plainLib 1) FailsAlone sampleWorld w ∧ w.slots 0 = some sl ∧
      w.sent.map (·.resp.status) = [500] ∧
      (planBatch plainLib noFaults w.db sl.st (newPending sl.st 0) [producerAppend 0 0]).responses.map (·.status) =
        [200] ∧
      StoresSurvivors (viewOf noFaults sampleStore (newStreamer samplePath sampleMeta 0)) w.db sl ∧
      AnsweredOverSurvivors plainLib (viewOf noFaults sampleStore (newStreamer samplePath sampleMeta 0)) w 0 sl 0
        [producerAppend 0 0] := by
  have hplan : FailsAlone sampleWorld (.plan 0 0 noFaults [producerAppend 0 0]) :=
    ⟨rfl, fun sl hs => by rw [(sampleWorld_slots hs).2]⟩
  have hrest : ∀ e ∈ [Event.failNext, .loop, .respawn 0], ∀ w, FailsAlone w e := by simp [FailsAlone]
  obtain ⟨w₁, w₂, w, sl, hw₁, hc₁, hw₂, hw, hs, hsent, hst, hresp⟩ :
      ∃ w₁ w₂ w sl, step plainLib 1 (planStep plainLib sampleWorld 0 { st := newStreamer samplePath sampleMeta 0 } 0
          noFaults [producerAppend 0 0]) (.enqueue 0) = some w₁ ∧ FailsAlone w₁ (.commitFail errStoreClosed) ∧
        step plainLib 1 w₁ (.commitFail errStoreClosed) = some w₂ ∧
        run (step plainLib 1) w₂ [.failNext, .loop, .respawn 0] = some w ∧ w.slots 0 = some sl ∧
        w.sent.map (·.resp.status) = [500] ∧ sl.stale = false ∧
        (planBatch plainLib noFaults w.db sl.st (newPending sl.st 0) [producerAppend 0 0]).responses.map (·.status) =
          [200] := by
    refine ⟨_, _, _, _, rfl, fun j hj => ?_, rfl, rfl, rfl, rfl, rfl, rfl⟩
    rw [mem_singleton.mp hj]
    exact ⟨nofun, fun sl hs => (by cases hs; rfl)⟩
  have henq : ∀ w, FailsAlone w (.enqueue 0) := fun _ => trivial
  have hr := ((((Reach.refl sampleWorld).tail hplan rfl).tail (henq _) hw₁).tail hc₁ hw₂).trans (reach_of_run hrest hw)
  obtain ⟨h1, h2⟩ := failed_flush_no_trace plainLib 1 sampleWorld w sampleWorld_spawned hr 0 sl _ hs rfl
  refine ⟨w, sl, hr, hs, hsent, hresp, h1, h2 0 [producerAppend 0 0] ⟨rfl, fun sl' hs' => ?_⟩⟩
  rw [hs, some.injEq] at hs'
  rw [← hs', hst]

/-- Commits may fail; reads do not, and nothing shuts down. -/
def CommitsMayFail (_ : World) : Event → Prop
  | .plan _ _ flt _ => flt = noFaults
  | .closeNotifier _ => False
  | .closeCommitter => False
  | _ => True

/-- **A failed commit leaves a trace**: the retry of the failed append is answered as a duplicate, and the next append
is stored at sequence number 1, so that record 0 is missing. -/
theorem failed_flush_leaves_hole :
    (¬ ∀ (L : GoLib) (batchMax : Nat) (w₀ w : World), Spawned w₀ → Reach (step L batchMax) CommitsMayFail w₀ w →
      ∀ i sl sl₀, w.slots i = some sl → w₀.slots i = some sl₀ → ∀ now batch,
        AnsweredOverSurvivors L (viewOf noFaults w₀.db sl₀.st) w i sl now batch) ∧
    (¬ ∀ (L : GoLib) (batchMax : Nat) (w₀ w : World), Spawned w₀ → Reach (step L batchMax) CommitsMayFail w₀ w →
      ∀ i sl sl₀, w.slots i = some sl → w₀.slots i = some sl₀ →
        StoresSurvivors (viewOf noFaults w₀.db sl₀.st) w.db sl) := by
  have hfail : ∀ e ∈ failedAppend, ∀ w, CommitsMayFail w e := by simp [failedAppend, CommitsMayFail]
  constructor
  · intro h
    obtain ⟨w, sl, hw, hs, hsurv, hresp⟩ : ∃ w sl, run (step plainLib 1) sampleWorld failedAppend = some w ∧
        w.slots 0 = some sl ∧ sl.applied ++ logOf (w.outstanding 0 sl) = [] ∧
        (planBatch plainLib noFaults w.db sl.st (newPending sl.st 0) [producerAppend 0 0]).responses =
          [{ status := 204, nextOffset := tailOffset 1, producerEpoch := some 0, producerSeq := some 0 }] :=
      ⟨_, _, rfl, rfl, rfl, rfl⟩
    obtain ⟨v, hv, hans, -⟩ := h plainLib 1 sampleWorld w sampleWorld_spawned (reach_of_run hfail hw) 0 sl _ hs rfl 0
      [producerAppend 0 0]
    rw [hsurv] at hv
    rw [hresp] at hans
    -- nothing has been applied, so the view covers no append and cannot answer it as a duplicate
    generalize (planBatch plainLib noFaults w.db sl.st (newPending sl.st 0) [producerAppend 0 0]).accepted = as at hans
    cases hans with
    | noop _ hi _ =>
      rcases hi with ⟨-, hb⟩ | ⟨-, hd, -, hc⟩
      · cases hb
      · have ht := hv.tracks (fun pid => sampleStore_fresh.producers pid) hd.id
        exact absurd (ht.mem_of_covers hc) (by simp [pairsOf])
    | reject hr _ _ _ => exact hr.2 rfl
  · intro h
    have hnext : ∀ e ∈ failedAppend ++ [.plan 0 0 noFaults [producerAppend 0 1], .enqueue 0, .commitOk 1],
        ∀ w, CommitsMayFail w e := by simp [failedAppend, CommitsMayFail]
    obtain ⟨w, sl, hw, hs, hnone, hsome⟩ : ∃ w sl, run (step plainLib 1) sampleWorld
        (failedAppend ++ [.plan 0 0 noFaults [producerAppend 0 1], .enqueue 0, .commitOk 1]) = some w ∧
        w.slots 0 = some sl ∧ loadTailSeq w.db sl.st.id = 2 ∧ recordsOf sl.applied = [[0]] := ⟨_, _, rfl, rfl, rfl, rfl⟩
    have := (h plainLib 1 sampleWorld w sampleWorld_spawned (reach_of_run hnext hw) 0 sl _ hs rfl).tail
    rw [hnone, hsome] at this
    exact absurd this (by decide)

end Notifier

end Yasdb
