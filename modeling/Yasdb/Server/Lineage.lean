import Yasdb.Server.Contiguity

/-!
# What a commit does to the streams of a store

Every commit of the server leaves the streams as they are up to new records (`Grows`), adds one stream (`Adds`), removes
one stream (`Removes`), or changes a reference count only (`Recounts`). The lineage of a stream (its id, its source and
the point where it diverges) never changes.

- `grows_quiet`, `grows_burst`, `grows_touch`;
- `adds_stream`, `adds_fork`;
- `removes_delete`, `recounts_put`.
-/

namespace Yasdb

open Batch List Option Store StreamMeta

variable {flt : Faults} {ops : List Op} {id : Nat} {L : GoLib} {batch : List AppendReq} {c : CommitBurst}

/-- What is fixed when a stream is created. -/
def StreamMeta.lineage (m : StreamMeta) : Nat × Nat × Nat × Nat := (m.streamID, m.forkedFrom, m.forkOffset, m.forkByte)

variable {m : StreamMeta} {db db' : Store} {path : Bytes} {s : Streamer}

theorem base_of_lineage {m' : StreamMeta} (h : m'.lineage = m.lineage) : m'.base = m.base := by
  simp only [lineage, Prod.mk.injEq] at h
  simp only [base, h.2.1, h.2.2.1]

/-- The stored number of forks of a stream. -/
def Store.refCountAt (db : Store) (id : Nat) : Nat := Option.getD (db.lookup (.refCountKey id)) 0

theorem loadRefCount_eq (h : flt (.refCountKey id) = false) : loadRefCount flt db id = db.refCountAt id := by
  unfold loadRefCount Store.get Store.refCountAt
  simp only [h, Bool.false_eq_true, if_false]
  cases db.lookup (.refCountKey id) <;> rfl

/-- The payload of a stored record. -/
def Store.payload (db : Store) (id seq : Nat) : Bytes := ((db.recordAt id seq).map recordPayload).getD []

/-! ## The kinds of change -/

/-- The streams are the same, and what they hold is still there. -/
structure Grows (db db' : Store) : Prop where
  metas : ∀ path, (db'.metaAt path).map StreamMeta.lineage = (db.metaAt path).map StreamMeta.lineage
  tails : ∀ path m, db.metaAt path = some m → loadTailSeq db m.streamID ≤ loadTailSeq db' m.streamID
  records : ∀ path m, db.metaAt path = some m → ∀ n v, db.recordAt m.streamID n = some v →
    db'.recordAt m.streamID n = some v
  refs : ∀ id, db'.refCountAt id = db.refCountAt id

/-- A new stream with the given records; `count` is the new reference count of its source, if it has one. -/
structure Adds (db db' : Store) (path : Bytes) (m : StreamMeta) (records : List Bytes) (count : Nat) : Prop where
  rewrites : Rewrites path m.streamID db db'
  fresh : db.metaAt path = none
  added : db'.metaAt path = some m
  tail : loadTailSeq db' m.streamID = m.base + records.length
  own : ∀ i, db'.recordAt m.streamID (m.base + i) = records[i]?.map (marshalRecord recFlagNone)
  refs : ∀ id, db'.refCountAt id = if m.forkedFrom ≠ 0 ∧ id = m.forkedFrom then count else db.refCountAt id

/-- A stream is gone, with its reference count. -/
structure Removes (db db' : Store) (path : Bytes) (id : Nat) : Prop where
  rewrites : Rewrites path id db db'
  removed : db'.metaAt path = none
  refs : ∀ i, i ≠ id → db'.refCountAt i = db.refCountAt i

/-- Only the reference count of `id` changes. -/
structure Recounts (db db' : Store) (id count : Nat) : Prop where
  same : ∀ k, k ≠ .refCountKey id → db'.lookup k = db.lookup k
  count : db'.refCountAt id = count

theorem Grows.refl (db : Store) : Grows db db :=
  ⟨fun _ => rfl, fun _ _ _ => Nat.le_refl _, fun _ _ _ _ _ h => h, fun _ => rfl⟩

theorem Grows.kept (h : Grows db db') (hm : db.metaAt path = some m) :
    ∃ m', db'.metaAt path = some m' ∧ m'.lineage = m.lineage := by
  have := h.metas path
  rw [hm, map_some, map_eq_some_iff] at this
  exact this

theorem Grows.origin (h : Grows db db') (hm : db'.metaAt path = some m) :
    ∃ m', db.metaAt path = some m' ∧ m.lineage = m'.lineage := by
  have := (h.metas path).symm
  rw [hm, map_some, map_eq_some_iff] at this
  obtain ⟨m', hm', hl⟩ := this
  exact ⟨m', hm', hl.symm⟩

/-! ## Commits of the server -/

theorem refCountAt_congr (h : db'.lookup (.refCountKey id) = db.lookup (.refCountKey id)) :
    db'.refCountAt id = db.refCountAt id := by
  unfold refCountAt
  rw [h]

theorem grows_quiet (h : Catalog db) (hq : ∀ op ∈ ops, Unbound db op.key)
    (hr : ∀ op ∈ ops, op.key.keyType ≠ 10) : Grows db (applyOps db ops) := by
  have q := quiet_applyOps hq
  refine ⟨fun path => by rw [q.metaAt], fun path m hm => ?_, fun path m hm n v hv => ?_, fun id => refCountAt_congr ?_⟩
  · unfold loadTailSeq
    rw [q.tailAt]
  · exact (q (.recordKey m.streamID n) (h.not_dead hm)).trans hv
  · exact lookup_applyOps_ne fun op ho he => hr op ho (by rw [he]; rfl)

/-- A commit of a streamer that keeps the lineage and the records of its stream. -/
theorem grows_of_owns (h : Catalog db) (ha : Attached db s) (ho : ∀ op ∈ ops, Owns s.path s.id op.key)
    (hm : metaAt (applyOps db ops) s.path = some m) (hl : m.lineage = s.streamMeta.lineage)
    (ht : loadTailSeq db s.id ≤ loadTailSeq (applyOps db ops) s.id)
    (hr : ∀ n v, db.recordAt s.id n = some v → recordAt (applyOps db ops) s.id n = some v) :
    Grows db (applyOps db ops) := by
  have hkeep : ∀ k, ¬ Owns s.path s.id k → (applyOps db ops).lookup k = db.lookup k := fun k hk =>
    lookup_applyOps_ne fun op hop he => hk (he ▸ ho op hop)
  have hb : Holds db s.path s.id := Or.inl ⟨_, ha.streamMeta, ha.id⟩
  -- every other path holds a stream with another id
  have hne : ∀ path m, db.metaAt path = some m → m.streamID = s.id → path = s.path := by
    intro path m hp hid
    by_contra hpp
    exact h.ne_of_holds hb hpp hp hid
  refine ⟨fun path => ?_, fun path m' hp => ?_, fun path m' hp n v hv => ?_, fun id => refCountAt_congr (hkeep _ nofun)⟩
  · by_cases hp : path = s.path
    · rw [hp, hm, ha.streamMeta, map_some, map_some, hl]
    · rw [show metaAt (applyOps db ops) path = db.metaAt path from hkeep (.metaKey path) hp]
  · by_cases hid : m'.streamID = s.id
    · rw [hid]; exact ht
    · unfold loadTailSeq
      rw [show tailAt (applyOps db ops) m'.streamID = db.tailAt m'.streamID from hkeep (.tailKey _) hid]
  · by_cases hid : m'.streamID = s.id
    · rw [hid] at hv ⊢; exact hr n v hv
    · exact (hkeep (.recordKey _ n) hid).trans hv

/-- **A committed burst** adds records at the end. The burst may have been planned on an earlier store `db₀`. -/
theorem grows_burst {db₀ : Store} (h : Catalog db) {s₁ : Streamer} (ha : Attached db s)
    {now : Int64} (hb : processBurst L flt db₀ now s batch = (s₁, .commit c)) : Grows db (applyOps db c.ops) := by
  obtain ⟨recs, hrec, htail⟩ := processBurst_records hb
  obtain ⟨hl, -, p, -, rfl, rfl, hn, hP⟩ := processBurst_commit hb
  have ha₁ : Attached db p.st := ha.loads hl
  have hw := ha₁.applyWriter hP hn
  refine grows_of_owns h ha₁ (burstOps_owns _ hP.records) hw.streamMeta ?_ ?_ fun n v hv => ?_
  · unfold applyWriter
    split <;> rfl
  · have hnew : p.pend.tail = loadTailSeq (applyOps db (commitOf p).ops) p.st.id := hw.writeTail
    have hend : p.pend.tail = s.writeTail + recs.length := htail
    rw [← hnew, ← ha₁.writeTail, hl.writeTail, hend]
    omega
  · -- a stored record lies below the tail, where the new ones start
    obtain ⟨t, ht, -, hrecs⟩ := h.log _ _ ha₁.streamMeta
    have hwt : s.writeTail = t.seq := by
      rw [← hl.writeTail, ha₁.writeTail, ← ha₁.id]
      unfold loadTailSeq
      rw [ht]; rfl
    rw [ha₁.id] at hrecs
    have hlt : n < t.seq := ((hrecs n).mp (by rw [hv]; rfl)).2
    show (applyOps db (burstOps p.st p.pend p.metaChanged)).lookup (.recordKey p.st.id n) = some v
    rw [lookup_applyOps, effect_burstOps_record, show p.pend.recordOps = _ from hrec, ← hl.id, effect_recordOpsFrom,
      if_neg (by omega)]
    exact hv

theorem grows_touch (ha : Attached db s) (d : UInt64) : Grows db (applyOps db (touchOps s d)) := by
  refine ⟨fun path => ?_, fun path m hm => ?_, fun path m hm n v hv => ?_, fun id => refCountAt_congr ?_⟩
  · by_cases hp : path = s.path
    · rw [hp, metaAt_touchOps, ha.streamMeta]
      rfl
    · rw [show metaAt (applyOps db (touchOps s d)) path = db.metaAt path from
        lookup_touchOps db (by simp) (by simpa using hp)]
  · unfold loadTailSeq
    rw [show tailAt (applyOps db (touchOps s d)) m.streamID = db.tailAt m.streamID from
      lookup_touchOps db (by simp) (by simp)]
  · exact (lookup_touchOps db (by simp) (by simp)).trans hv
  · exact lookup_touchOps db (by simp) (by simp)

section Create

variable {db : Store} (h : Catalog db) {path : Bytes} {m : StreamMeta} (hid : m.streamID = recoverNextID db)
  (records : List Bytes) (now : Int64)
include h hid

variable (path) in
/-- What a created stream holds, whatever follows in its batch for reference counts. -/
theorem created_stored {extra : List Op} (hx : ∀ op ∈ extra, op.key.keyType = 10) :
    metaAt (applyOps db (createOps path m m.base records now ++ extra)) path = some m ∧
      loadTailSeq (applyOps db (createOps path m m.base records now ++ extra)) m.streamID = m.base + records.length ∧
      ∀ i, recordAt (applyOps db (createOps path m m.base records now ++ extra)) m.streamID (m.base + i) =
        records[i]?.map (marshalRecord recFlagNone) := by
  have hk : ∀ k : Key, k.keyType ≠ 10 → (applyOps db (createOps path m m.base records now ++ extra)).lookup k =
      (effect k (createOps path m m.base records now)).getD (db.lookup k) := by
    intro k hk
    rw [lookup_applyOps, effect_append, effect_of_class Key.keyType hx hk, none_or]
  refine ⟨?_, ?_, fun i => ?_⟩
  · unfold metaAt
    rw [hk _ (by simp), effect_createOps (by simp) (by simp)]
    simp
  · unfold loadTailSeq tailAt
    rw [hk _ (by simp), effect_createOps (by simp) (by simp)]
    simp [marshalTail]
  · have hnone : db.lookup (.recordKey m.streamID (m.base + i)) = none := h.unused _ _ (by omega)
    unfold recordAt
    rw [hk _ (by simp), effect_createOps_record, effect_recordOpsFrom, if_pos (by omega), hnone,
      Nat.add_sub_cancel_left]
    cases records[i]? <;> rfl

/-- **A new plain stream.** -/
theorem adds_stream (hp : db.metaAt path = none) (hsrc : m.forkedFrom < m.streamID) (hf : m.forkedFrom = 0) :
    Adds db (applyOps db (createOps path m m.base records now)) path m records 0 := by
  have hx : ∀ op ∈ ([] : List Op), op.key.keyType = 10 := nofun
  have r := rewrites_create records now h hp hid hsrc rfl hx
  obtain ⟨h1, h2, h3⟩ := created_stored h path hid records now hx
  rw [append_nil] at r h1 h2 h3
  refine ⟨r, hp, h1, h2, h3, fun id => ?_⟩
  rw [if_neg (fun hn => hn.1 hf)]
  refine refCountAt_congr ?_
  rw [lookup_applyOps, effect_createOps (by simp) (by simp)]
  simp

/-- **A new fork.** -/
theorem adds_fork (hp : db.metaAt path = none) (hsrc : m.forkedFrom < m.streamID) (hf : m.forkedFrom ≠ 0)
    (count : Nat) :
    Adds db (applyOps db (createOps path m m.base records now ++ [Op.put (.refCountKey m.forkedFrom) count])) path m
      records count := by
  have hx : ∀ op ∈ [(Op.put (.refCountKey m.forkedFrom) count : Op)], op.key.keyType = 10 := by
    intro op ho
    rw [mem_singleton.mp ho]
    rfl
  have r := rewrites_create records now h hp hid hsrc rfl hx
  obtain ⟨h1, h2, h3⟩ := created_stored h path hid records now hx
  refine ⟨r, hp, h1, h2, h3, fun id => ?_⟩
  unfold refCountAt
  rw [lookup_applyOps, effect_append, effect_createOps (by simp) (by simp)]
  by_cases he : id = m.forkedFrom
  · rw [if_pos ⟨hf, he⟩, he]
    simp
  · rw [if_neg (fun hn => he hn.2)]
    simp [Ne.symm he]

end Create

/-- **A hard delete.** -/
theorem removes_delete (h : Catalog db) {m' : StreamMeta} (hm : db.metaAt path = some m')
    (hid : m'.streamID = m.streamID) : Removes db (applyOps db (Server.deleteOps path m)) path m.streamID := by
  refine ⟨rewrites_delete h hm hid, metaAt_deleteOps db path m, fun i hi => refCountAt_congr ?_⟩
  rw [lookup_deleteOps db path m (by simp)]
  simp [Ne.symm hi]

theorem recounts_put (db : Store) (id count : Nat) :
    Recounts db (applyOps db [Op.put (.refCountKey id) count]) id count := by
  refine ⟨fun k hk => lookup_applyOps_ne fun op ho he => hk ?_, ?_⟩
  · rw [← he, mem_singleton.mp ho]
    rfl
  · unfold refCountAt
    rw [lookup_applyOps]
    simp

/-! ## Steps of the server -/

namespace Server

/-- A step that leaves the streams of the server, up to new records. -/
structure Calm (srv srv' : Server) : Prop where
  grows : Grows srv.db srv'.db
  unsynced : ∀ db ∈ srv'.unsynced, db ∈ srv.db :: srv.unsynced
  held : srv'.held = srv.held

/-- A step that adds a stream. -/
structure Created (srv srv' : Server) (path : Bytes) (m : StreamMeta) (records : List Bytes) (count : Nat) : Prop where
  adds : Adds srv.db srv'.db path m records count
  unsynced : srv'.unsynced = []
  held : srv'.held = srv.held

theorem Calm.refl (srv : Server) : Calm srv srv := ⟨.refl _, fun _ h => mem_cons_of_mem _ h, rfl⟩

theorem Calm.commit {srv : Server} (g : Grows srv.db (applyOps srv.db ops)) (durable : Bool) :
    Calm srv (srv.commit durable ops) := by
  refine ⟨g, fun db hdb => ?_, rfl⟩
  cases durable with
  | true => cases hdb
  | false => exact hdb

section Steps

variable {srv : Server} (h : ServerInv srv)
include h

omit h in
theorem calm_removeStreamer (path : Bytes) : Calm srv (srv.removeStreamer path) :=
  ⟨.refl _, fun _ hm => mem_cons_of_mem _ hm, rfl⟩

omit h in
theorem calm_setStreamer (path : Bytes) (s : Streamer) : Calm srv (srv.setStreamer path s) :=
  ⟨.refl _, fun _ hm => mem_cons_of_mem _ hm, rfl⟩

omit h in
theorem calm_untouched (path : Bytes) (s : Streamer) :
    Calm srv ({ srv with unsynced := srv.db :: srv.unsynced }.setStreamer path s) :=
  ⟨.refl _, fun _ hm => hm, rfl⟩

theorem calm_burst {path : Bytes} {s s' : Streamer} (hs : srv.registry path = some s)
    {now : Int64} (hb : processBurst L flt srv.db now s batch = (s', .commit c)) (t : Streamer) :
    Calm srv ((srv.commit true c.ops).setStreamer path t) := by
  have c := Calm.commit (grows_burst h.stored (h.resident path s hs).2 hb) true
  exact ⟨c.grows, c.unsynced, c.held⟩

theorem calm_touch {path : Bytes} {s : Streamer} (hs : srv.registry path = some s) (d : UInt64) (t : Streamer) :
    Calm srv ((srv.commit false (touchOps s d)).setStreamer path t) :=
  ⟨grows_touch (h.resident path s hs).2 d, fun _ hm => hm, rfl⟩

theorem calm_softDeleteLocked (ok : Bool) (path : Bytes) (m : StreamMeta) :
    Calm srv (srv.softDeleteLocked ok path m) := by
  cases ok with
  | false => exact calm_removeStreamer path
  | true =>
    have g : Grows srv.db (applyOps srv.db [Op.put (.tombstoneKey path) (.tombSoftDelete, m.streamID)]) := by
      refine grows_quiet h.stored (fun op ho => ?_) fun op ho => ?_
      · rw [mem_singleton.mp ho]; trivial
      · rw [mem_singleton.mp ho]; simp
    exact ⟨g, by rintro _ ⟨⟩, rfl⟩

theorem calm_stale (d : UInt64) (id : Nat) : Calm srv (srv.commit false [Op.del (.expiryKey d id)]) := by
  refine Calm.commit (grows_quiet h.stored (fun op ho => ?_) fun op ho => ?_) false
  · rw [mem_singleton.mp ho]; trivial
  · rw [mem_singleton.mp ho]; simp

omit h in
theorem calm_setPhase {srv' : Server} (c : Calm srv srv') (i id : Nat) (next : Option DeletePhase) :
    Calm srv (srv'.setPhase i id next) := by
  cases next with
  | _ => exact ⟨c.grows, c.unsynced, c.held⟩

theorem calm_chunk {scanOk : Bool} {d : Deletion} (hd : d ∈ srv.deleting)
    {next : Option DeletePhase} (hb : backgroundDelete flt scanOk srv.db d.id d.phase = (some ops, next)) (i : Nat) :
    Calm srv ((srv.commit true ops).setPhase i d.id next) := by
  refine calm_setPhase (Calm.commit (grows_quiet h.stored (backgroundDelete_unbound (h.deleting d hd) hb)
    fun op ho => ?_) true) i d.id next
  rcases backgroundDelete_keys hb op ho with ⟨n, hk⟩ | ⟨pid, hk⟩ | hk
  all_goals rw [hk]; simp

/-- Creating a stream adds it with the records of its body, or changes nothing. -/
theorem create_stream_cases (L : GoLib) (flt : Faults) (ok : Bool) (p : CreateParams) (now nowMs : Int64) :
    srv.create ok (createStream L flt srv.db srv.nextID now nowMs p) = srv ∨
      ∃ records, initialRecords L p.contentType p.body "invalid JSON" = .ok records ∧
        Created srv (srv.create ok (createStream L flt srv.db srv.nextID now nowMs p)) p.path
          (newMeta srv.nextID now nowMs p) records 0 := by
  cases hplan : createStream L flt srv.db srv.nextID now nowMs p with
  | error res => exact .inl rfl
  | ok plan =>
    obtain ⟨ops, res⟩ := plan
    cases ok with
    | false => exact .inl rfl
    | true =>
      obtain ⟨hp, records, hrec, rfl⟩ := createStream_records hplan
      have hpos : 0 < srv.nextID := h.nextID ▸ recoverNextID_pos srv.db
      exact .inr ⟨records, hrec, adds_stream h.stored h.nextID records now hp hpos rfl, rfl, rfl⟩

/-- Creating a fork adds it, or changes nothing. Its source is stored, it diverges within it, and its records start with
the part of the diverging record that it keeps, which is none for JSON. -/
theorem create_fork_cases (L : GoLib) (flt : Faults) (ok : Bool) (p : ForkParams) (now nowMs : Int64) :
    srv.create ok (createFork L flt srv.db srv.nextID now nowMs p) = srv ∨
      ∃ src m pre records, srv.db.metaAt p.sourcePath = some src ∧ m.forkedFrom = src.streamID ∧ m.forkedFrom ≠ 0 ∧
        m.forkOffset ≤ loadTailSeq srv.db src.streamID ∧
        (0 < m.forkByte → m.forkOffset < loadTailSeq srv.db src.streamID) ∧
        forkPrefix flt srv.db src.streamID m.forkOffset m.forkByte = .ok pre ∧
        initialRecords L m.contentType p.body "invalid body" = .ok records ∧
        isJSONStream L m.contentType = isJSONStream L src.contentType ∧
        (isJSONStream L src.contentType = true → m.forkByte = 0) ∧
        Created srv (srv.create ok (createFork L flt srv.db srv.nextID now nowMs p)) p.path m (pre ++ records)
          (loadRefCount flt srv.db src.streamID + 1) := by
  cases hplan : createFork L flt srv.db srv.nextID now nowMs p with
  | error res => exact .inl rfl
  | ok plan =>
    obtain ⟨ops, res⟩ := plan
    cases ok with
    | false => exact .inl rfl
    | true =>
      obtain ⟨hp, src, sourceTail, contentType, div, pre, records, hsrc, htail, hle, hlt, hpre, hrec, hjson, hbyte,
        rfl⟩ := createFork_source hplan
      rw [loadTail_ok htail] at hle hlt
      obtain ⟨hid, hpos⟩ := h.stored.ids _ _ hsrc
      have hf : src.streamID ≠ 0 := by omega
      have hbase : (newForkMeta srv.nextID now nowMs src p contentType div).base = div.1 := if_neg hf
      have a := adds_fork (m := newForkMeta srv.nextID now nowMs src p contentType div) h.stored h.nextID
        (pre ++ records) now hp (h.nextID ▸ hid) hf (loadRefCount flt srv.db src.streamID + 1)
      rw [hbase] at a
      exact .inr ⟨src, _, pre, records, hsrc, rfl, hf, hle, hlt, hpre, hrec, hjson, hbyte, a, rfl, rfl⟩

end Steps

end Server

end Yasdb
