import Yasdb.Server.Identity
import Yasdb.ExactlyOnce

/-!
# Closure is final

A closed stream accepts nothing (`processBurst_closed`, `AnsweredClosed`). Nothing else writes the flag, the tail or a
record of a closed stream (`KeepsClosed`), ids are not reused, and every store that a crash may fall back to holds the
closed stream as well (`Sealed`).

- `Sealed.step`: no step of the server touches a sealed stream;
- `closure_final`: **after the commit of an append with `Stream-Closed`** the stream never changes again.
-/

namespace Yasdb

open Batch Runs List Option Server

/-! ## The answers of a closed stream -/

/-- The append is a duplicate, by the states `st` of the producers. -/
def IsDuplicate (st : Bytes → Option ProducerState) (req : AppendReq) : Prop :=
  ∃ h, req.producer = some h ∧ validateProducer (st h.id) h = .pDuplicate

/-- The answer of a stream that was closed at `tail`. -/
structure AnsweredClosed (tail : Nat) (st : Bytes → Option ProducerState) (req : AppendReq) (resp : AppendResp) :
    Prop where
  nextOffset : resp.nextOffset = tailOffset tail
  closed : resp.closed = true
  closeOnly : req.hasBody = false → resp.status = 204
  duplicate : req.hasBody = true → IsDuplicate st req → resp.status = 204
  conflict : req.hasBody = true → ¬ IsDuplicate st req → resp.status = 409

section Answers

variable (L : GoLib) (flt : Faults) (db : Store)

theorem answeredClosed_planAppendClosed (s : Streamer) (pend : PendingBurst) (req : AppendReq) :
    ∃ s' resp, Loads flt db s s' ∧ planAppendClosed flt db s pend req = (s', resp) ∧
      AnsweredClosed pend.tail (pendView flt db s pend).producers req resp := by
  unfold planAppendClosed
  by_cases hb : req.hasBody = false
  · rw [if_pos hb]
    refine ⟨s, _, Loads.refl s, rfl, rfl, rfl, fun _ => rfl, fun hb' => ?_, fun hb' => ?_⟩
    all_goals rw [hb] at hb'; cases hb'
  · rw [if_neg hb]
    cases hp : req.producer with
    | none =>
      refine ⟨s, _, Loads.refl s, rfl, rfl, rfl, fun hb' => (hb hb').elim, fun _ hd => ?_, fun _ _ => rfl⟩
      obtain ⟨h, hh, -⟩ := hd
      rw [hp] at hh; cases hh
    | some h =>
      obtain ⟨s', hl, he⟩ := effProducer_spec flt db s pend h.id
      dsimp only
      rw [he]
      have hdup : IsDuplicate (pendView flt db s pend).producers req ↔
          validateProducer ((pendView flt db s pend).producers h.id) h = .pDuplicate := by
        refine ⟨fun ⟨h', hh, hd⟩ => ?_, fun hd => ⟨h, hp, hd⟩⟩
        rw [hp, some.injEq] at hh
        exact hh ▸ hd
      by_cases hd : validateProducer ((pendView flt db s pend).producers h.id) h = .pDuplicate
      · rw [if_pos hd]
        exact ⟨s', _, hl, rfl, rfl, rfl, fun hb' => (hb hb').elim, fun _ _ => rfl, fun _ hn => (hn (hdup.mpr hd)).elim⟩
      · rw [if_neg hd]
        exact ⟨s', _, hl, rfl, rfl, rfl, fun hb' => (hb hb').elim, fun _ hn => (hd (hdup.mp hn)).elim, fun _ _ => rfl⟩

theorem planBatch_closed {pend : PendingBurst} (hc : pend.closed = true) : ∀ (batch : List AppendReq) (s : Streamer),
    (planBatch L flt db s pend batch).pend = pend ∧
      List.Forall₂ (AnsweredClosed pend.tail (pendView flt db s pend).producers) batch
        (planBatch L flt db s pend batch).responses
  | [], _ => ⟨rfl, .nil⟩
  | req :: reqs, s => by
    obtain ⟨s', resp, hl, he, ha⟩ := answeredClosed_planAppendClosed flt db s pend req
    have hplan : planAppend L flt db s pend req = (s', pend, resp, false) := by
      unfold planAppend
      rw [if_pos hc, he]
    obtain ⟨h1, h2⟩ := planBatch_closed hc reqs s'
    rw [hl.pendView] at h2
    unfold planBatch
    rw [hplan]
    exact ⟨h1, .cons ha h2⟩

/-- **A burst on a closed stream** commits nothing. -/
theorem processBurst_closed {s : Streamer} (hc : s.streamMeta.closed = true) (now : Int64) (batch : List AppendReq) :
    ∃ s' responses, processBurst L flt db now s batch = (s', .reply responses) ∧
      List.Forall₂ (AnsweredClosed s.writeTail (producerOf flt db s)) batch responses := by
  obtain ⟨-, ha⟩ := @planBatch_closed L flt db (newPending s now) hc batch s
  rw [pendView_newPending] at ha
  rcases processBurst_cases L flt db now s batch with ⟨-, he⟩ | ⟨-, he⟩
  · exact ⟨_, _, he, ha⟩
  · obtain ⟨hl, hopen, -⟩ := processBurst_commit he
    rw [hl.streamMeta, hc] at hopen
    cases hopen

end Answers

/-! ## Sealed streams -/

/-- If the stream `id` is still at `path`, it is closed, with that tail and those records. -/
structure Sealed (path : Bytes) (id tail : Nat) (record : Nat → Option Bytes) (db : Store) : Prop where
  below : id < recoverNextID db
  final : ∀ m, db.metaAt path = some m → m.streamID = id →
    m.closed = true ∧ loadTailSeq db id = tail ∧ ∀ n, db.recordAt id n = record n

namespace Sealed

variable {path : Bytes} {id tail : Nat} {record : Nat → Option Bytes} {db db' : Store}
  (h : Sealed path id tail record db)
include h

theorem grows (hb : id < recoverNextID db') (g : Grows db db') (hk : KeepsClosed db db') :
    Sealed path id tail record db' := by
  refine ⟨hb, fun m hm hid => ?_⟩
  obtain ⟨m₀, hm₀, hl⟩ := g.origin hm
  have hid₀ : m₀.streamID = id := (congrArg Prod.fst hl).symm.trans hid
  obtain ⟨hc, ht, hr⟩ := h.final m₀ hm₀ hid₀
  obtain ⟨⟨m', hm', hc'⟩, ht', hr'⟩ := hk path m₀ hm₀ hc
  rw [hm, some.injEq] at hm'
  rw [hid₀] at ht' hr'
  exact ⟨hm' ▸ hc', ht'.trans ht, fun n => (hr' n).trans (hr n)⟩

theorem quiet (hc : Catalog db) (q : Quiet db db') : Sealed path id tail record db' := by
  refine ⟨q.counter ▸ h.below, fun m hm hid => ?_⟩
  rw [q.metaAt] at hm
  obtain ⟨hcl, ht, hr⟩ := h.final m hm hid
  exact ⟨hcl, (loadTailSeq_congr (q.tailAt id)).trans ht,
    fun n => (q (.recordKey id n) (hid ▸ hc.not_dead hm)).trans (hr n)⟩

theorem rewrites (hb : id < recoverNextID db') (hc : Catalog db) {p : Bytes} {i : Nat} (r : Rewrites p i db db')
    (hne : p = path → ∀ m, db'.metaAt path = some m → m.streamID ≠ id) : Sealed path id tail record db' := by
  refine ⟨hb, fun m hm hid => ?_⟩
  by_cases hp : p = path
  · exact absurd hid (hne hp m hm)
  · rw [show db'.metaAt path = db.metaAt path from r.frame (.metaKey path) (Ne.symm hp)] at hm
    have hi : id ≠ i := hid ▸ hc.ne_of_holds r.before (Ne.symm hp) hm
    obtain ⟨hcl, ht, hr⟩ := h.final m hm hid
    exact ⟨hcl, (loadTailSeq_congr (r.frame (.tailKey id) hi)).trans ht,
      fun n => (r.frame (.recordKey id n) hi).trans (hr n)⟩

end Sealed

section Steps

variable {path : Bytes} {id tail : Nat} {record : Nat → Option Bytes} {srv srv' : Server}

section

variable (hi : ServerInv srv)
include hi

section

variable (h : Sealed path id tail record srv.db)
include h

theorem Sealed.softDeleteLocked (ok : Bool) (p : Bytes)
    (m : StreamMeta) : Sealed path id tail record (srv.softDeleteLocked ok p m).db := by
  cases ok with
  | false => exact h
  | true =>
    refine h.quiet hi.stored (quiet_applyOps fun op ho => ?_)
    rw [mem_singleton.mp ho]
    trivial

theorem Sealed.dropForkRef (flt : Faults) (ok : Bool)
    (sourceID : Nat) : Sealed path id tail record (srv.dropForkRef flt ok sourceID).db := by
  cases ok with
  | false => exact h
  | true =>
    refine h.quiet hi.stored (quiet_applyOps fun op ho => ?_)
    rw [mem_singleton.mp ho]
    trivial

/-- A removal leaves no stream at its path. -/
theorem Sealed.deleted (hb : id < recoverNextID srv'.db) {e : Event} {p : Bytes} {m : StreamMeta}
    (why : srv.Cause e p m)
    (d : srv.Deleted srv' e.ok p m) : Sealed path id tail record srv'.db := by
  obtain ⟨m', hm', hid⟩ : ∃ m', srv.db.metaAt p = some m' ∧ m'.streamID = m.streamID := by
    cases why with
    | asked _ hm => exact ⟨m, hm, rfl⟩
    | next hheld => exact hi.held p m hheld
    | expired _ hm => exact ⟨m, hm, rfl⟩
  have r := removes_delete hi.stored hm' hid
  have hdb := d.db
  cases hok : e.ok with
  | false =>
    rw [hok, if_neg Bool.false_ne_true] at hdb
    rw [hdb]; exact h
  | true =>
    rw [hok, if_pos rfl] at hdb
    rw [← hdb] at r
    refine h.rewrites hb hi.stored r.rewrites fun hp m₁ hm₁ => ?_
    rw [← hp, r.removed] at hm₁
    cases hm₁

end

/-- **No step touches a sealed stream**, and no store that a crash falls back to differs in it. -/
theorem Sealed.step {L : GoLib} {e : Event}
    (h : ∀ db ∈ srv.db :: srv.unsynced, Sealed path id tail record db) (he : step L srv e = some srv') :
    ∀ db ∈ srv'.db :: srv'.unsynced, Sealed path id tail record db := by
  have hi' := hi.step he
  by_cases hcrash : ∀ lost seen, e.action ≠ .crash lost seen
  · have hb : id < recoverNextID srv'.db := by
      have hlt := (h _ mem_cons_self).below
      have hcnt := (ids_of_step he hcrash).counter
      rw [hi.nextID, hi'.nextID] at hcnt
      omega
    have hdb : Sealed path id tail record srv'.db := by
      have h := h _ mem_cons_self
      cases hi.moves he with
      | calm c _ hk => exact h.grows hb c.grows hk
      | softDeleted => exact h.softDeleteLocked hi e.ok _ _
      | created _ c =>
        refine h.rewrites hb hi.stored c.adds.rewrites fun hp m hm => ?_
        rw [← hp, c.adds.added, some.injEq] at hm
        have hlt := h.below
        rcases c.adds.rewrites.before with ⟨m', hm', -⟩ | ⟨-, hnext⟩
        · rw [c.adds.fresh] at hm'; cases hm'
        · rw [← hm, hnext]; exact Nat.ne_of_gt hlt
      | deleted why d => exact h.deleted hi hb why d
      | released => exact h.dropForkRef hi e.flt e.ok _
      | restarted hc => exact absurd hc (hcrash _ _)
    have hu := unsynced_of_step hi he
    intro db hm
    rcases mem_cons.mp hm with rfl | hm
    · exact hdb
    · exact h db (hu db hm)
  · simp only [not_forall, not_not] at hcrash
    obtain ⟨lost, seen, hc⟩ := hcrash
    obtain ⟨action, flt, ok⟩ := e
    cases hc
    obtain ⟨db, hdb, rfl⟩ := map_eq_some_iff.mp he
    intro db' hm
    rw [mem_singleton.mp hm]
    exact h db (mem_of_getElem? hdb)

end

end Steps

/-! ## Committing a close -/

/-- The commit of an append with `Stream-Closed` closes the stored stream at the tail of the burst. -/
theorem stored_close {L : GoLib} {flt : Faults} {db : Store} (h : Catalog db) {s s' : Streamer} (ha : Attached db s)
    {now : Int64} {batch : List AppendReq} {c : CommitBurst}
    (hb : processBurst L flt db now s batch = (s', .commit c)) {req : AppendReq} (hreq : req ∈ picked batch c.accepted)
    (hclose : req.closeStream = true) :
    ∃ m, Store.metaAt (applyOps db c.ops) s.path = some m ∧ m.streamID = s.id ∧ m.closed = true ∧
      loadTailSeq (applyOps db c.ops) s.id = c.pend.tail := by
  obtain ⟨-, hpath, ha'⟩ := rewrites_burst h ha hb
  obtain ⟨hl, -, p, rfl, rfl, rfl, -, hP⟩ := processBurst_commit hb
  have hplan := planBatch_plans L flt db batch s (newPending s now)
  have hmc : (planBatch L flt db s (newPending s now) batch).metaChanged = true := by
    rw [hplan.metaChanged, ← hplan.answered.picked, List.any_eq_true]
    exact ⟨req, hreq, hclose⟩
  have hm := ha'.streamMeta
  have hid := ha'.id
  have ht := ha'.writeTail
  rw [hpath] at hm
  have hwid : (syncCommit none db (planBatch L flt db s (newPending s now) batch).st
      (commitOf (planBatch L flt db s (newPending s now) batch))).2.1.id = s.id := hl.id
  rw [hwid] at hid ht
  refine ⟨_, hm, hid, ?_, ht.symm⟩
  simp [syncCommit, applyReader, applyWriter, commitOf, hmc, hP.closed]

/-! ## Closure -/

/-- **Closure is final.** From the commit of an append with `Stream-Closed` on, while the stream exists, it is stored as
closed with the tail and the records of that commit; and a streamer of it commits nothing more, and answers with 204 or
409 at that tail. -/
theorem closure_final (L : GoLib) (seen : Nat) {srv₀ srv₁ srv : Server}
    (h₀ : Reach (step L) Any (newServer ∅ seen) srv₀) {path : Bytes} {s s' : Streamer}
    (hs : srv₀.registry path = some s) {flt : Faults} {now : Int64} {batch : List AppendReq} {c : CommitBurst}
    (hb : processBurst L flt srv₀.db now s batch = (s', .commit c)) {req : AppendReq}
    (hreq : req ∈ picked batch c.accepted)
    (hclose : req.closeStream = true) (h₁ : step L srv₀ ⟨.burst path now batch, flt, true⟩ = some srv₁)
    (hr : Reach (step L) Any srv₁ srv) :
    (∃ m, srv₁.db.metaAt path = some m ∧ m.streamID = s.id) ∧
      ∀ m, srv.db.metaAt path = some m → m.streamID = s.id →
        m.closed = true ∧ loadTailSeq srv.db s.id = c.pend.tail ∧
        (∀ n, srv.db.recordAt s.id n = srv₁.db.recordAt s.id n) ∧
        ∀ t, srv.registry path = some t → ∀ flt now batch, ∃ t' responses,
          processBurst L flt srv.db now t batch = (t', .reply responses) ∧
          List.Forall₂ (AnsweredClosed c.pend.tail (producerOf flt srv.db t)) batch responses := by
  have hi₀ : ServerInv srv₀ := ServerInv.reach h₀ (.start catalog_empty seen)
  have hi₁ : ServerInv srv₁ := hi₀.step h₁
  obtain ⟨hpath, ha⟩ := hi₀.resident path s hs
  have hdb : srv₁.db = applyOps srv₀.db c.ops ∧ srv₁.unsynced = [] := by
    simp only [step, hs, map_some, some.injEq] at h₁
    rw [← h₁]
    unfold burst
    rw [hb]
    exact ⟨rfl, rfl⟩
  obtain ⟨m₁, hm₁, hid₁, hcl₁, ht₁⟩ := stored_close hi₀.stored ha hb hreq hclose
  rw [← hdb.1, hpath] at hm₁
  rw [← hdb.1] at ht₁
  refine ⟨⟨m₁, hm₁, hid₁⟩, ?_⟩
  have hseal : ∀ db ∈ srv₁.db :: srv₁.unsynced,
      Sealed path s.id c.pend.tail (fun n => srv₁.db.recordAt s.id n) db := by
    intro db hm
    rw [hdb.2] at hm
    rw [mem_singleton.mp hm]
    refine ⟨hid₁ ▸ (hi₁.stored.ids path m₁ hm₁).1, fun m hm _ => ⟨?_, ht₁, fun _ => rfl⟩⟩
    rw [hm₁, some.injEq] at hm
    exact hm ▸ hcl₁
  obtain ⟨hi, hsealed⟩ := hr.invariant (P := fun srv => ServerInv srv ∧ ∀ db ∈ srv.db :: srv.unsynced,
      Sealed path s.id c.pend.tail (fun n => srv₁.db.recordAt s.id n) db)
    (fun _ _ _ h _ he => ⟨h.1.step he, Sealed.step h.1 h.2 he⟩) ⟨hi₁, hseal⟩
  intro m hm hid
  obtain ⟨hcl, ht, hrec⟩ := (hsealed _ mem_cons_self).final m hm hid
  refine ⟨hcl, ht, hrec, fun t hreg flt now batch => ?_⟩
  obtain ⟨hp, hat⟩ := hi.resident path t hreg
  have hmt := hat.streamMeta
  rw [hp, hm, some.injEq] at hmt
  have htail : t.writeTail = c.pend.tail := by rw [hat.writeTail, ← hat.id, ← hmt, hid, ht]
  rw [← htail]
  exact processBurst_closed L flt srv.db (hmt ▸ hcl) now batch

/-! ## A sample run -/

/-- The last append of a producer, which closes the stream. -/
def closingReq : AppendReq :=
  { records := [[2]], hasBody := true, closeStream := true, producer := some ⟨[7], 0, 0⟩ }

/-- After a restart the closed stream is at tail 2. A close-only request and the closing append sent again are answered
with 204, an append without a producer with 409. -/
theorem closure_final_restart : ∃ (srv : Server) (t t' : Streamer) (responses : List AppendResp),
    srv.db.metaAt samplePath = some { streamID := 1, contentType := [], closed := true } ∧
    loadTailSeq srv.db 1 = 2 ∧ srv.registry samplePath = some t ∧
    processBurst plainLib noFaults srv.db 0 t
      [{ closeStream := true }, closingReq, { records := [[3]], hasBody := true }] = (t', .reply responses) ∧
    responses.map (·.status) = [204, 204, 409] := by
  let closing : Event := { action := .burst samplePath 0 [closingReq] }
  obtain ⟨srv₀, h₀, s, hs, hid, hb, srv₁, h₁, srv, hrun, t, ht, hm, hdup⟩ : ∃ srv₀ ∈ run (step plainLib)
      (newServer ∅ 0)
      [{ action := .createStream { path := samplePath, contentType := [], body := [1] } 0 0 },
      { action := .spawn samplePath }], ∃ s ∈ srv₀.registry samplePath, s.id = 1 ∧
      (match processBurst plainLib noFaults srv₀.db 0 s [closingReq] with
        | (_, .commit c) => decide (c.accepted = [true] ∧ c.pend.tail = 2)
        | (_, .reply _) => false) = true ∧
      ∃ srv₁ ∈ step plainLib srv₀ closing, ∃ srv ∈ run (step plainLib) srv₁
        [{ action := .crash 0 0 }, { action := .spawn samplePath }], ∃ t ∈ srv.registry samplePath,
      srv.db.metaAt samplePath = some { streamID := 1, contentType := [], closed := true } ∧
      producerOf noFaults srv.db t [7] = some ⟨0, 0, true⟩ := by decide
  split at hb
  · rename_i c hc
    obtain ⟨hacc, htail⟩ := of_decide_eq_true hb
    have hreq : closingReq ∈ picked [closingReq] c.accepted := by rw [hacc]; exact mem_singleton_self _
    obtain ⟨-, hfin⟩ := closure_final plainLib 0 (reach_any h₀) hs hc hreq rfl h₁
      (reach_any hrun)
    obtain ⟨-, hT, -, hans⟩ := hfin _ hm hid.symm
    obtain ⟨t', responses, hr, hall⟩ := hans t ht noFaults 0
      [{ closeStream := true }, closingReq, { records := [[3]], hasBody := true }]
    refine ⟨srv, t, t', responses, hm, by rw [hid] at hT; rw [hT, htail], ht, hr, ?_⟩
    cases hall with
    | cons h1 hall => cases hall with
      | cons h2 hall => cases hall with
        | cons h3 hall =>
          cases hall
          have hd : IsDuplicate (producerOf noFaults srv.db t) closingReq :=
            ⟨⟨[7], 0, 0⟩, rfl, by rw [hdup]; decide⟩
          have hn : ¬ IsDuplicate (producerOf noFaults srv.db t) { records := [[3]], hasBody := true } :=
            fun ⟨_, hh, _⟩ => by cases hh
          simp [h1.closeOnly rfl, h2.duplicate rfl hd, h3.conflict rfl hn]
  · cases hb

end Yasdb
