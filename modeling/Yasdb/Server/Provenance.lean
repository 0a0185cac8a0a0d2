import Yasdb.Server.Identity
import Yasdb.Server.ForkLog

/-!
# Where the records of a stream come from

The id, the source and the content type of a stream never change (`StreamMeta.identity`), and its records (`ownEntries`)
only grow. What a step of the server does to them is said once:

- `ServerInv.change`: a step leaves the streams as they are (`Alike`), adds the records of a burst to one stream,
  creates a stream or a fork, removes a stream, or is a restart;
- `continues_of_reach`: **every state of a run continues every earlier one** (`Continues`), restarts included.
-/

namespace Yasdb

open Batch Runs List Option Server StreamMeta Nat Store View

/-- What never changes of a stream. -/
def StreamMeta.identity (m : StreamMeta) : (Nat × Nat × Nat × Nat) × Bytes := (m.lineage, m.contentType)

section Identity

variable {m m' : StreamMeta} (h : m'.identity = m.identity)
include h

theorem lineage_of_identity : m'.lineage = m.lineage := congrArg Prod.fst h

theorem contentType_of_identity : m'.contentType = m.contentType := congrArg Prod.snd h

theorem streamID_of_identity : m'.streamID = m.streamID := congrArg (·.1.1) h

theorem forkedFrom_of_identity : m'.forkedFrom = m.forkedFrom := congrArg (·.1.2.1) h

end Identity

/-! ## Stores with the same streams -/

/-- The same streams with the same records, up to deadlines and closing. -/
structure Alike (db db' : Store) : Prop where
  counter : recoverNextID db' = recoverNextID db
  metas : ∀ path, (db'.metaAt path).map StreamMeta.identity = (db.metaAt path).map StreamMeta.identity
  own : ∀ path m, db.metaAt path = some m → db'.tailAt m.streamID = db.tailAt m.streamID ∧
    ∀ n, db'.recordAt m.streamID n = db.recordAt m.streamID n

theorem Alike.refl (db : Store) : Alike db db := ⟨rfl, fun _ => rfl, fun _ _ _ => ⟨rfl, fun _ => rfl⟩⟩

variable {db db' : Store} {path : Bytes} {m' : StreamMeta} {L : GoLib} {srv srv' : Server}

theorem map_identity (h : (db'.metaAt path).map identity = (db.metaAt path).map identity)
    (hm : db'.metaAt path = some m') : ∃ m, db.metaAt path = some m ∧ m'.identity = m.identity := by
  rw [hm, map_some] at h
  obtain ⟨m, hm, hi⟩ := map_eq_some_iff.mp h.symm
  exact ⟨m, hm, hi.symm⟩

section

variable (a : Alike db db')
include a

theorem Alike.origin (hm : db'.metaAt path = some m') : ∃ m, db.metaAt path = some m ∧ m'.identity = m.identity :=
  map_identity (a.metas path) hm

theorem Alike.symm : Alike db' db := by
  refine ⟨a.counter.symm, fun path => (a.metas path).symm, fun path m' hm' => ?_⟩
  obtain ⟨m, hm, hi⟩ := a.origin hm'
  rw [streamID_of_identity hi]
  exact ⟨(a.own path m hm).1.symm, fun n => ((a.own path m hm).2 n).symm⟩

theorem Alike.trans {db'' : Store} (a' : Alike db' db'') : Alike db db'' := by
  refine ⟨a'.counter.trans a.counter, fun path => (a'.metas path).trans (a.metas path), fun path m hm => ?_⟩
  obtain ⟨m', hm', hi⟩ := map_identity (a.metas path).symm hm
  have h := a.own path m hm
  have h' := a'.own path m' hm'
  rw [← streamID_of_identity hi] at h'
  exact ⟨h'.1.trans h.1, fun n => (h'.2 n).trans (h.2 n)⟩

theorem Alike.ownEntries {m : StreamMeta} (hm : db.metaAt path = some m)
    (hi : m'.identity = m.identity) : ownEntries db' m' = Yasdb.ownEntries db m := by
  obtain ⟨ht, hr⟩ := a.own path m hm
  unfold Yasdb.ownEntries loadTailSeq
  rw [base_of_lineage (lineage_of_identity hi), streamID_of_identity hi, ht]
  refine entries_congr fun n _ _ => ?_
  unfold payload
  rw [hr n]

end

theorem alike_quiet (h : Catalog db) (q : Quiet db db') : Alike db db' :=
  ⟨q.counter, fun path => by rw [q.metaAt], fun _ m hm =>
    ⟨q.tailAt m.streamID, fun n => q (.recordKey m.streamID n) (h.not_dead hm)⟩⟩

theorem alike_touchOps {s : Streamer} (ha : Attached db s) (d : UInt64) : Alike db (applyOps db (touchOps s d)) := by
  refine ⟨recoverNextID_congr (lookup_touchOps db (by simp) (by simp)), fun path => ?_, fun path m hm =>
    ⟨lookup_touchOps db (by simp) (by simp),
      fun n => lookup_touchOps db (by simp) (by simp)⟩⟩
  by_cases hp : path = s.path
  · rw [hp, metaAt_touchOps, ha.streamMeta]
    rfl
  · rw [show metaAt (applyOps db (touchOps s d)) path = db.metaAt path from
      lookup_touchOps db (by simp) (by simpa using hp)]

/-- Records at the end of a stream. -/
theorem ownEntries_append {m : StreamMeta} {records : List Bytes} (hl : m'.lineage = m.lineage)
    (hle : m.base ≤ loadTailSeq db m.streamID)
    (ht : loadTailSeq db' m.streamID = loadTailSeq db m.streamID + records.length)
    (hold : ∀ n, n < loadTailSeq db m.streamID → db'.recordAt m.streamID n = db.recordAt m.streamID n)
    (hnew : ∀ n, db'.recordAt m.streamID (loadTailSeq db m.streamID + n) = records[n]?.map (marshalRecord recFlagNone) ∨
      records.length ≤ n) : ownEntries db' m' = ownEntries db m ++ records := by
  have hid : m'.streamID = m.streamID := congrArg Prod.fst hl
  unfold ownEntries
  rw [base_of_lineage hl, hid, ht, ← entries_append _ hle (le_add_right _ records.length)]
  congr 1
  · refine entries_congr fun n _ hn => ?_
    unfold payload
    rw [hold n hn]
  · refine ext_getElem? fun i => ?_
    rw [getElem?_entries]
    by_cases hi : i < records.length
    · rw [if_pos (by omega), getElem?_eq_getElem hi]
      rcases hnew i with hr | hr
      · rw [getElem?_eq_getElem hi, map_some] at hr
        rw [payload_eq hr, recordPayload_marshalRecord]
      · omega
    · rw [if_neg (by omega), getElem?_eq_none (by omega)]

/-- **A committed burst** adds the records of its accepted requests. -/
theorem ownEntries_burst {flt : Faults} (h : Catalog db) {s s₁ : Streamer} (ha : Attached db s) {now : Int64}
    {batch : List AppendReq} {c : CommitBurst} (hb : processBurst L flt db now s batch = (s₁, .commit c)) :
    ∃ m', metaAt (applyOps db c.ops) s.path = some m' ∧ m'.identity = s.streamMeta.identity ∧
      ownEntries (applyOps db c.ops) m' = ownEntries db s.streamMeta ++
        ((viewOf flt db s).accepted L now batch).flatMap (·.records) := by
  obtain ⟨hrec, htail⟩ := processBurst_accepted hb
  generalize ((viewOf flt db s).accepted L now batch).flatMap (·.records) = recs at hrec htail
  obtain ⟨hl, -, p, -, rfl, rfl, hn, hP⟩ := processBurst_commit hb
  have ha₁ : Attached db p.st := ha.loads hl
  have hw := ha₁.applyWriter hP hn
  have hi : (applyWriter p.st p.pend (p.metaChanged || deadlineChanged p.st p.pend)).streamMeta.identity =
      p.st.streamMeta.identity := by
    unfold applyWriter
    split <;> rfl
  have hstart : s.writeTail = loadTailSeq db s.streamMeta.streamID := ha.writeTail.trans (by rw [ha.id])
  refine ⟨_, hl.path ▸ hw.streamMeta, by rw [hi, hl.streamMeta], ?_⟩
  rw [hl.streamMeta] at hi
  refine ownEntries_append (lineage_of_identity hi) (ownLog_le h ha.streamMeta).1 ?_ (fun n hn => ?_) fun n => ?_
  · have hnew : p.pend.tail = loadTailSeq (applyOps db (commitOf p).ops) p.st.id := hw.writeTail
    rw [← hstart, ha.id, ← hl.id, ← hnew]
    exact htail
  · rw [ha.id, ← hl.id]
    show (applyOps db (burstOps p.st p.pend p.metaChanged)).lookup (.recordKey p.st.id n) = _
    rw [lookup_applyOps, effect_burstOps_record, show p.pend.recordOps = _ from hrec, ← hl.id, effect_recordOpsFrom,
      if_neg (by omega)]
    rfl
  · rw [← hstart, ha.id, ← hl.id]
    show (applyOps db (burstOps p.st p.pend p.metaChanged)).lookup (.recordKey p.st.id _) = _ ∨ _
    rw [lookup_applyOps, effect_burstOps_record, show p.pend.recordOps = _ from hrec, ← hl.id, effect_recordOpsFrom,
      if_pos (Nat.le_add_right _ _), Nat.add_sub_cancel_left]
    rcases lt_or_ge n recs.length with hlt | hge
    · rw [getElem?_eq_getElem hlt]
      exact .inl rfl
    · exact .inr hge

/-! ## What a step does -/

theorem View.matches_of_accepted {now : Int64} {req : AppendReq} (hb : req.hasBody = true) :
    ∀ {batch : List AppendReq} {v : View}, req ∈ v.accepted L now batch →
      contentTypeMatches L v.contentType req.contentType = true
  | [], _, h => by cases h
  | r :: batch, v, h => by
    by_cases ha : v.Accepts L r
    · rw [accepted_cons_accept ha] at h
      rcases mem_cons.mp h with rfl | h
      · exact ha.contentType hb
      · exact matches_of_accepted hb (v := v.apply now r) h
    · rw [accepted_cons_not ha] at h
      exact matches_of_accepted hb h

namespace Server

/-- The records of a step: those of the accepted requests of a burst that is not refused by the store. -/
def added (L : GoLib) (srv : Server) (e : Event) : List Bytes :=
  match e.action with
  | .burst path now batch =>
    match srv.registry path with
    | some s => if e.ok then ((viewOf e.flt srv.db s).accepted L now batch).flatMap (·.records) else []
    | none => []
  | _ => []

/-- What a step does to the streams and their records. -/
inductive Change (L : GoLib) (srv : Server) (e : Event) (srv' : Server) : Prop where
  | alike (a : Alike srv.db srv'.db) (hn : srv.added L e = [])
  | appended {path : Bytes} {s : Streamer} {now : Int64} {batch : List AppendReq} {m' : StreamMeta}
      (ha : e.action = .burst path now batch) (hok : e.ok = true) (hs : srv.registry path = some s)
      (r : Rewrites path s.id srv.db srv'.db) (hm : srv'.db.metaAt path = some m')
      (hi : m'.identity = s.streamMeta.identity)
      (ho : ownEntries srv'.db m' = ownEntries srv.db s.streamMeta ++
        ((viewOf e.flt srv.db s).accepted L now batch).flatMap (·.records)) (hu : srv'.unsynced = [])
  | created {p : CreateParams} {now nowMs : Int64} {records : List Bytes} (ha : e.action = .createStream p now nowMs)
      (hr : initialRecords L p.contentType p.body "invalid JSON" = .ok records)
      (c : Created srv srv' p.path (newMeta srv.nextID now nowMs p) records 0)
  | forked {p : ForkParams} {now nowMs : Int64} {src m : StreamMeta} {pre records : List Bytes} {count : Nat}
      (ha : e.action = .createFork p now nowMs) (hsrc : srv.db.metaAt p.sourcePath = some src)
      (hfrom : m.forkedFrom = src.streamID)
      (hpre : forkPrefix e.flt srv.db src.streamID m.forkOffset m.forkByte = .ok pre)
      (hr : initialRecords L m.contentType p.body "invalid body" = .ok records)
      (hj : isJSONStream L m.contentType = isJSONStream L src.contentType)
      (hb : isJSONStream L src.contentType = true → m.forkByte = 0)
      (c : Created srv srv' p.path m (pre ++ records) count)
  | removed {path : Bytes} {id : Nat} (hq : ∀ path now batch, e.action ≠ .burst path now batch)
      (r : Removes srv.db srv'.db path id) (hu : srv'.unsynced = [])
  | restarted {db : Store} {lost seen : Nat} (ha : e.action = .crash lost seen) (hdb : db ∈ srv.db :: srv.unsynced)
      (he : srv' = newServer db seen)

theorem added_of_ne {L : GoLib} {srv : Server} {e : Event} (hq : ∀ path now batch, e.action ≠ .burst path now batch) :
    srv.added L e = [] := by
  unfold added
  split
  · exact absurd ‹_› (hq _ _ _)
  · rfl

section Quiet

variable {srv : Server} (h : ServerInv srv) {L : GoLib} {e : Event}
  (hq : ∀ path now batch, e.action ≠ .burst path now batch)
include h hq

theorem change_quiet {srv' : Server} (ops : List Op) (hops : ∀ op ∈ ops, Unbound srv.db op.key)
    (hdb : srv'.db = srv.db ∨ srv'.db = applyOps srv.db ops) : Change L srv e srv' := by
  rcases hdb with hdb | hdb
  · exact .alike (hdb ▸ .refl _) (added_of_ne hq)
  · exact .alike (hdb ▸ alike_quiet h.stored (quiet_applyOps hops)) (added_of_ne hq)

/-- A commit of one operation that touches no stream, or its failure. -/
theorem change_single {srv' : Server} (op : Op) (hop : Unbound srv.db op.key) (ok : Bool)
    (hdb : srv'.db = if ok then applyOps srv.db [op] else srv.db) : Change L srv e srv' := by
  refine change_quiet h hq [op] (fun o ho => by rw [mem_singleton.mp ho]; exact hop) ?_
  cases ok with
  | false => exact .inl hdb
  | true => exact .inr hdb

theorem change_deleted {srv' : Server} {ok : Bool} {path : Bytes} {m m' : StreamMeta}
    (d : Deleted srv srv' ok path m) (hm : srv.db.metaAt path = some m') (hid : m'.streamID = m.streamID) :
    Change L srv e srv' := by
  obtain ⟨hdb, hu, -⟩ := d
  cases ok with
  | false => exact .alike (hdb ▸ .refl _) (added_of_ne hq)
  | true =>
    rw [if_pos rfl] at hdb
    exact .removed hq (hdb ▸ removes_delete h.stored hm hid) hu

end Quiet

end Server

/-- **What a step of the server does.** -/
theorem ServerInv.change (h : ServerInv srv) {e : Server.Event} (he : Server.step L srv e = some srv') :
    Change L srv e srv' := by
  cases Server.stepped he with
  | createStream p now nowMs flt ok =>
    rcases create_stream_cases h L flt ok p now nowMs with hs | ⟨records, hr, c⟩
    · exact .alike (by rw [hs]; exact .refl _) (added_of_ne nofun)
    · exact .created rfl hr c
  | createFork p now nowMs flt ok =>
    rcases create_fork_cases h L flt ok p now nowMs with
      hs | ⟨src, m, pre, records, hsrc, hfrom, -, -, -, hpre, hr, hj, hb, c⟩
    · exact .alike (by rw [hs]; exact .refl _) (added_of_ne nofun)
    · exact .forked rfl hsrc hfrom hpre hr hj hb c
  | replied hs _ hn =>
    refine .alike (.refl _) ?_
    simp only [added, hs]
    split
    · obtain ⟨rs, hb⟩ := hn ‹_›
      rw [accepted_of_reply hb]
    · rfl
  | @burst path now batch flt s s' c hs hb =>
    obtain ⟨rfl, ha⟩ := h.resident path s hs
    obtain ⟨r, -, -⟩ := rewrites_burst h.stored ha hb
    obtain ⟨m', hm, hi, ho⟩ := ownEntries_burst h.stored ha hb
    exact .appended rfl rfl hs r hm hi ho rfl
  | touch hs => exact .alike (alike_touchOps (h.resident _ _ hs).2 _) (added_of_ne nofun)
  | @softDelete path flt ok m =>
    exact change_single h (by simp) (Op.put (.tombstoneKey path) _) trivial ok (by cases ok <;> rfl)
  | delete _ hm => exact change_deleted h (by simp) (srv.deleted _ _ _) hm rfl
  | @dropForkRef id flt ok =>
    exact change_single h (by simp) (Op.put (.refCountKey id) _) trivial ok (by cases ok <;> rfl)
  | cascade hheld =>
    obtain ⟨m', hm', hid⟩ := h.held _ _ hheld
    exact change_deleted h (by simp) (srv.deleted _ _ _) hm' hid
  | @stale d id => exact change_single h (by simp) (Op.del (.expiryKey d id)) trivial true rfl
  | @expire path m dues flt ok _ _ hm =>
    have d := deleted { srv with dues := dues } ok path m
    exact change_deleted h (by simp) ⟨d.db, d.unsynced, d.held⟩ hm rfl
  | noChunk => exact .alike (by rw [setPhase_db]; exact .refl _) (added_of_ne nofun)
  | chunk hd hb =>
    exact change_quiet h (by simp) _ (backgroundDelete_unbound (h.deleting _ hd) hb)
      (.inr (setPhase_db _ _ _ _))
  | crash hdb => exact .restarted rfl (mem_of_getElem? hdb) rfl
  | _ => exact .alike (.refl _) (added_of_ne nofun)

/-! ## Whole runs -/

/-- The streams of a store, seen from a later one: a stream that is still there is the same one, with the same records
and perhaps more. -/
structure Continues (db db' : Store) : Prop where
  counter : recoverNextID db ≤ recoverNextID db'
  kept : ∀ path m', db'.metaAt path = some m' → m'.streamID < recoverNextID db →
    ∃ m, db.metaAt path = some m ∧ m'.identity = m.identity ∧ ownEntries db m <+: ownEntries db' m'

namespace Continues

variable {db db' db'' : Store}

theorem refl (db : Store) : Continues db db :=
  ⟨le_refl _, fun _ m hm _ => ⟨m, hm, rfl, prefix_refl _⟩⟩

theorem trans (h : Continues db db') (h' : Continues db' db'') : Continues db db'' := by
  refine ⟨le_trans h.counter h'.counter, fun path m'' hm'' hid => ?_⟩
  obtain ⟨m', hm', hi', hp'⟩ := h'.kept path m'' hm'' (lt_of_lt_of_le hid h.counter)
  rw [streamID_of_identity hi'] at hid
  obtain ⟨m, hm, hi, hp⟩ := h.kept path m' hm' hid
  exact ⟨m, hm, hi'.trans hi, hp.trans hp'⟩

theorem alike (a : Alike db db') : Continues db db' := by
  refine ⟨le_of_eq a.counter.symm, fun path m' hm' _ => ?_⟩
  obtain ⟨m, hm, hi⟩ := a.origin hm'
  exact ⟨m, hm, hi, by rw [a.ownEntries hm hi]⟩

theorem rewrites (h : Catalog db) {path : Bytes} {id : Nat} (r : Rewrites path id db db')
    (hp : ∀ m', db'.metaAt path = some m' → m'.streamID < recoverNextID db →
      ∃ m, db.metaAt path = some m ∧ m'.identity = m.identity ∧ ownEntries db m <+: ownEntries db' m') :
    Continues db db' := by
  refine ⟨by rw [r.counter]; exact le_max_left _ _, fun p m' hm' hid => ?_⟩
  by_cases he : p = path
  · subst he
    exact hp m' hm' hid
  · rw [show db'.metaAt p = db.metaAt p from r.frame (.metaKey p) he] at hm'
    exact ⟨m', hm', rfl, by rw [(r.ownEntries h he hm').2]⟩

theorem adds (h : Catalog db) {path : Bytes} {m : StreamMeta} {records : List Bytes} {count : Nat}
    (a : Adds db db' path m records count) : Continues db db' := by
  refine rewrites h a.rewrites fun m' hm' hid => ?_
  rw [a.added, some.injEq] at hm'
  rcases a.rewrites.before with ⟨m₁, hm₁, -⟩ | ⟨-, hnew⟩
  · rw [a.fresh] at hm₁
    cases hm₁
  · rw [← hm', hnew] at hid
    exact absurd hid (lt_irrefl _)

end Continues

/-- The stores that a crash may leave have the streams of now. -/
def Server.Settled (srv : Server) : Prop := ∀ db ∈ srv.unsynced, Alike srv.db db

/-- **Every step continues the streams**, and keeps the stores that a crash may leave up to date. -/
theorem ServerInv.continues (h : ServerInv srv) (hs : srv.Settled) {e : Event}
    (he : Server.step L srv e = some srv') : srv'.Settled ∧ Continues srv.db srv'.db := by
  have hnone : srv'.unsynced = [] → srv'.Settled := fun hu db hdb => by
    rw [hu] at hdb
    cases hdb
  cases h.change he with
  | alike a hn =>
    refine ⟨fun db hdb => ?_, .alike a⟩
    refine a.symm.trans ?_
    rcases mem_cons.mp (unsynced_of_step h he db hdb) with rfl | hdb
    · exact .refl _
    · exact hs db hdb
  | appended ha hok hreg r hm hi ho hu =>
    obtain ⟨rfl, hatt⟩ := h.resident _ _ hreg
    refine ⟨hnone hu, .rewrites h.stored r fun m₁ hm₁ _ => ?_⟩
    cases hm.symm.trans hm₁
    exact ⟨_, hatt.streamMeta, hi, by rw [ho]; exact prefix_append _ _⟩
  | created ha hr c => exact ⟨hnone c.unsynced, .adds h.stored c.adds⟩
  | forked ha hsrc hfrom hpre hr hj hb c => exact ⟨hnone c.unsynced, .adds h.stored c.adds⟩
  | removed _ r hu =>
    refine ⟨hnone hu, .rewrites h.stored r.rewrites fun m₁ hm₁ _ => ?_⟩
    rw [r.removed] at hm₁
    cases hm₁
  | restarted _ hdb hnew =>
    subst hnew
    refine ⟨hnone rfl, ?_⟩
    rcases mem_cons.mp hdb with rfl | hdb
    · exact .refl _
    · exact .alike (hs _ hdb)

/-- **Every state of a run continues every earlier one.** -/
theorem continues_of_reach (hr : Reach (step L) Any srv srv') (h : ServerInv srv) (hs : srv.Settled) :
    Continues srv.db srv'.db :=
  hr.related (P := fun srv => ServerInv srv ∧ srv.Settled) (R := fun srv srv' => Continues srv.db srv'.db)
    (fun _ => .refl _) (fun _ _ _ h h' => h.trans h')
    (fun _ _ _ ⟨h, hs⟩ _ he => ⟨⟨h.step he, (h.continues hs he).1⟩, (h.continues hs he).2⟩) ⟨h, hs⟩

theorem settled_of_reach (hr : Reach (step L) Any srv srv') (h : ServerInv srv) (hs : srv.Settled) :
    ServerInv srv' ∧ srv'.Settled :=
  hr.invariant (P := fun srv => ServerInv srv ∧ srv.Settled)
    (fun _ _ _ ⟨h, hs⟩ _ he => ⟨h.step he, (h.continues hs he).1⟩) ⟨h, hs⟩

end Yasdb
