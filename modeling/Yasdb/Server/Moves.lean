import Yasdb.Server.Lineage

/-!
# What a step of the server does to its streams

Every step leaves the streams and the tombstones, soft-deletes a stream, adds one, removes one, releases a source, or
is a restart (`Moves`). Whatever holds of the streams in all runs is proved along these cases.

- `ServerInv.moves`: the case of a step.
-/

namespace Yasdb

open Batch List Server Store Option

variable {path : Bytes} {ops : List Op} {k : Key} {flt : Faults} {s : Streamer} {L : GoLib}

namespace Server

variable {srv : Server}

/-! ## Tombstones -/

variable {db db' : Store} {id : Nat}

theorem tombstoneAt_of_owns (h : ∀ op ∈ ops, Owns path id op.key) (p : Bytes) :
    tombstoneAt (applyOps db ops) p = db.tombstoneAt p :=
  lookup_applyOps_ne fun op ho he => by
    have := h op ho
    rw [he] at this
    exact this

theorem lookup_single {op : Op} (hk : k.keyType ≠ op.key.keyType) : (applyOps db [op]).lookup k = db.lookup k :=
  lookup_applyOps_ne fun o ho he => hk (by rw [← he, mem_singleton.mp ho])

theorem setPhase_db (srv : Server) (i id : Nat) (next : Option DeletePhase) : (srv.setPhase i id next).db = srv.db := by
  cases next <;> rfl

/-- A chunk of a deletion takes records and producers. -/
theorem lookup_chunk {scanOk : Bool} {d : Deletion} {next : Option DeletePhase}
    (hb : backgroundDelete flt scanOk db d.id d.phase = (some ops, next)) (hk : k.keyType ∉ [4, 5, 8]) :
    (applyOps db ops).lookup k = db.lookup k := by
  refine lookup_applyOps_ne fun op ho he => ?_
  rw [← he] at hk
  rcases backgroundDelete_keys hb op ho with ⟨n, hop⟩ | ⟨pid, hop⟩ | hop
  all_goals exact hk (by rw [hop]; simp)

theorem tombstoneAt_createOps (db : Store) (path : Bytes) (m : StreamMeta) (start : Nat) (records : List Bytes)
    (now : Int64) {extra : List Op} (hx : ∀ op ∈ extra, op.key.keyType = 10) (p : Bytes) :
    tombstoneAt (applyOps db (createOps path m start records now ++ extra)) p = db.tombstoneAt p := by
  unfold tombstoneAt
  rw [lookup_applyOps, effect_append, effect_of_class Key.keyType hx (by simp), none_or,
    effect_createOps (by simp) (by simp)]
  simp

theorem tombstoneAt_createStream (L : GoLib) (flt : Faults) (ok : Bool) (cp : CreateParams) (now nowMs : Int64)
    (p : Bytes) : (srv.create ok (createStream L flt srv.db srv.nextID now nowMs cp)).db.tombstoneAt p =
      srv.db.tombstoneAt p := by
  cases hplan : createStream L flt srv.db srv.nextID now nowMs cp with
  | error res => rfl
  | ok plan =>
    obtain ⟨ops, res⟩ := plan
    cases ok with
    | false => rfl
    | true =>
      obtain ⟨-, records, rfl⟩ := createStream_spec hplan
      have hx : ∀ op ∈ ([] : List Op), op.key.keyType = 10 := nofun
      have hc := tombstoneAt_createOps srv.db cp.path (newMeta srv.nextID now nowMs cp) 0 records now hx p
      rw [append_nil] at hc
      exact hc

theorem tombstoneAt_createFork (L : GoLib) (flt : Faults) (ok : Bool) (fp : ForkParams) (now nowMs : Int64)
    (p : Bytes) : (srv.create ok (createFork L flt srv.db srv.nextID now nowMs fp)).db.tombstoneAt p =
      srv.db.tombstoneAt p := by
  cases hplan : createFork L flt srv.db srv.nextID now nowMs fp with
  | error res => rfl
  | ok plan =>
    obtain ⟨ops, res⟩ := plan
    cases ok with
    | false => rfl
    | true =>
      obtain ⟨-, src, sourceTail, contentType, div, pre, records, -, -, -, -, -, -, -, -, rfl⟩ :=
        createFork_source hplan
      exact tombstoneAt_createOps srv.db _ _ _ _ now (fun op ho => by rw [mem_singleton.mp ho]; rfl) p

/-- A hard delete removes the tombstone. -/
theorem tombstoneAt_deleteOps (db : Store) (path : Bytes) (m : StreamMeta) (p : Bytes) :
    tombstoneAt (applyOps db (deleteOps path m)) p = if p = path then none else db.tombstoneAt p := by
  unfold tombstoneAt
  rw [lookup_deleteOps db path m (by simp)]
  by_cases hp : p = path
  · subst hp
    simp
  · simp [hp, Ne.symm hp]

theorem refCountAt_deleteOps (db : Store) (path : Bytes) (m : StreamMeta) :
    refCountAt (applyOps db (deleteOps path m)) m.streamID = 0 := by
  unfold refCountAt
  rw [lookup_deleteOps db path m (by simp)]
  simp

/-- A soft delete sets the tombstone. -/
theorem tombstoneAt_softDeleteLocked (srv : Server) (path : Bytes) (m : StreamMeta) (p : Bytes) :
    (srv.softDeleteLocked true path m).db.tombstoneAt p =
      if p = path then some (.tombSoftDelete, m.streamID) else srv.db.tombstoneAt p := by
  show tombstoneAt (applyOps srv.db [Op.put (.tombstoneKey path) (.tombSoftDelete, m.streamID)]) p = _
  unfold tombstoneAt
  rw [lookup_applyOps]
  by_cases hp : p = path
  · subst hp
    simp
  · simp [hp, Ne.symm hp]

/-- A soft delete leaves the metadata. -/
theorem metaAt_softDeleteLocked (srv : Server) (path : Bytes) (m : StreamMeta) (p : Bytes) :
    (srv.softDeleteLocked true path m).db.metaAt p = srv.db.metaAt p :=
  lookup_applyOps_ne fun op ho he => by
    rw [mem_singleton.mp ho] at he
    cases he

/-! ## Closed streams -/

/-- A closed stream stays closed, with the tail and the records it has. -/
def KeepsClosed (db db' : Store) : Prop :=
  ∀ path m, db.metaAt path = some m → m.closed = true →
    (∃ m', db'.metaAt path = some m' ∧ m'.closed = true) ∧
      loadTailSeq db' m.streamID = loadTailSeq db m.streamID ∧
      ∀ n, db'.recordAt m.streamID n = db.recordAt m.streamID n

theorem KeepsClosed.refl (db : Store) : KeepsClosed db db := fun _ m hm hc => ⟨⟨m, hm, hc⟩, rfl, fun _ => rfl⟩

theorem loadTailSeq_congr (h : db'.tailAt id = db.tailAt id) : loadTailSeq db' id = loadTailSeq db id := by
  unfold loadTailSeq
  rw [h]

theorem keepsClosed_quiet (h : Catalog db) (q : Quiet db db') : KeepsClosed db db' :=
  fun path m hm hc => ⟨⟨m, (q.metaAt path).trans hm, hc⟩, loadTailSeq_congr (q.tailAt _),
    fun n => q (.recordKey _ n) (h.not_dead hm)⟩

/-- A rewrite of an open stream spares the closed ones. -/
theorem keepsClosed_rewrites (h : Catalog db) (r : Rewrites path id db db')
    (ho : ∀ m, db.metaAt path = some m → m.closed = false) : KeepsClosed db db' := by
  intro p m hm hc
  have hp : p ≠ path := by
    rintro rfl
    rw [ho m hm] at hc
    cases hc
  have hi : m.streamID ≠ id := h.ne_of_holds r.before hp hm
  exact ⟨⟨m, (r.frame (.metaKey p) hp).trans hm, hc⟩, loadTailSeq_congr (r.frame (.tailKey _) hi),
    fun n => r.frame (.recordKey _ n) hi⟩

/-- A TTL refresh spares closed streams. -/
theorem keepsClosed_touchOps (ha : Attached db s) (d : UInt64) : KeepsClosed db (applyOps db (touchOps s d)) := by
  intro p m hm hc
  refine ⟨?_, loadTailSeq_congr (lookup_touchOps db (by simp) (by simp)),
    fun n => lookup_touchOps db (by simp) (by simp)⟩
  by_cases hp : p = s.path
  · subst hp
    rw [ha.streamMeta, some.injEq] at hm
    exact ⟨_, metaAt_touchOps db s d, by rw [← hc, ← hm]; rfl⟩
  · exact ⟨m, (lookup_touchOps db (by simp) (by simpa using hp)).trans hm, hc⟩

/-- Bursts are committed to open streams only. -/
theorem keepsClosed_burst (h : Catalog db) {s' : Streamer} (ha : Attached db s)
    {now : Int64} {batch : List AppendReq} {c : CommitBurst}
    (hb : processBurst L flt db now s batch = (s', .commit c)) :
    KeepsClosed db (applyOps db c.ops) := by
  obtain ⟨hl, hopen, -⟩ := processBurst_commit hb
  refine keepsClosed_rewrites h (rewrites_burst h ha hb).1 fun m hm => ?_
  rw [ha.streamMeta, some.injEq] at hm
  rw [← hm, ← hl.streamMeta, hopen]

/-! ## The cases of a step -/

/-- Why a stream is removed. -/
inductive Cause (srv : Server) (e : Event) (path : Bytes) (m : StreamMeta) : Prop where
  /-- a delete that finds no reference -/
  | asked (hidle : srv.held = none) (hm : srv.db.metaAt path = some m) (h0 : loadRefCount e.flt srv.db m.streamID = 0)
  /-- the next one of a cascade -/
  | next (hheld : srv.held = some (.deleteStreamLocked path m))
  /-- a sweep comes upon its deadline -/
  | expired (hidle : srv.held = none) (hm : srv.db.metaAt path = some m) (hexp : e.action = .expire)
      {dues : List (UInt64 × Nat)} (hdue : srv.dues = (m.deadline, m.streamID) :: dues)

/-- A stream is removed and its source is released next; if the commit fails, the delete ends there. -/
structure Deleted (srv srv' : Server) (ok : Bool) (path : Bytes) (m : StreamMeta) : Prop where
  db : srv'.db = if ok then applyOps srv.db (deleteOps path m) else srv.db
  unsynced : srv'.unsynced = if ok then [] else srv.unsynced
  held : srv'.held = if ok = true ∧ m.forkedFrom ≠ 0 then some (.dropForkRef m.forkedFrom) else none

/-- What a hard delete commits. -/
theorem deleted (srv : Server) (ok : Bool) (path : Bytes) (m : StreamMeta) :
    Deleted srv (srv.deleteStreamLocked ok path m) ok path m := by
  cases ok with
  | false => exact ⟨rfl, rfl, rfl⟩
  | true => exact ⟨rfl, rfl, by simp [deleteStreamLocked]⟩

/-- What a step does to the streams. -/
inductive Moves (srv : Server) (e : Event) : Server → Prop where
  | calm {srv' : Server} (c : Calm srv srv') (ht : ∀ p, srv'.db.tombstoneAt p = srv.db.tombstoneAt p)
      (hc : KeepsClosed srv.db srv'.db) : Moves srv e srv'
  | softDeleted {path : Bytes} {m : StreamMeta} (hidle : srv.held = none) (hm : srv.db.metaAt path = some m)
      (hpos : 0 < loadRefCount e.flt srv.db m.streamID) : Moves srv e (srv.softDeleteLocked e.ok path m)
  | created {srv' : Server} {path : Bytes} {m : StreamMeta} {records : List Bytes} {count : Nat}
      (hidle : srv.held = none) (c : Created srv srv' path m records count)
      (ht : ∀ p, srv'.db.tombstoneAt p = srv.db.tombstoneAt p)
      (hsrc : m.forkedFrom ≠ 0 → (∃ p src, srv.db.metaAt p = some src ∧ src.streamID = m.forkedFrom ∧
        m.forkOffset ≤ loadTailSeq srv.db m.forkedFrom) ∧ count = loadRefCount e.flt srv.db m.forkedFrom + 1) :
      Moves srv e srv'
  | deleted {srv' : Server} {path : Bytes} {m : StreamMeta} (why : Cause srv e path m)
      (d : Deleted srv srv' e.ok path m) : Moves srv e srv'
  | released {id : Nat} (hheld : srv.held = some (.dropForkRef id)) : Moves srv e (srv.dropForkRef e.flt e.ok id)
  | restarted {lost seen : Nat} (hcrash : e.action = .crash lost seen) {db : Store}
      (hdb : db ∈ srv.db :: srv.unsynced) : Moves srv e (newServer db seen)

theorem Moves.same (srv : Server) (e : Event) : Moves srv e srv := .calm (.refl srv) (fun _ => rfl) (.refl _)

section Cases

variable (h : ServerInv srv)
include h

variable {e : Event}

/-- A creation moves no tombstone. -/
theorem moves_createStream (L : GoLib) (hidle : srv.held = none) (p : CreateParams) (now nowMs : Int64) :
    Moves srv e (srv.create e.ok (createStream L e.flt srv.db srv.nextID now nowMs p)) := by
  rcases create_stream_cases h L e.flt e.ok p now nowMs with hs | ⟨records, -, c⟩
  · rw [hs]
    exact .same srv e
  · exact .created hidle c (tombstoneAt_createStream L _ _ p now nowMs) fun hn => absurd rfl hn

theorem moves_createFork (L : GoLib) (hidle : srv.held = none) (p : ForkParams) (now nowMs : Int64) :
    Moves srv e (srv.create e.ok (createFork L e.flt srv.db srv.nextID now nowMs p)) := by
  rcases create_fork_cases h L e.flt e.ok p now nowMs with
    hs | ⟨src, m, pre, records, hsrc, hfrom, -, hle, -, -, -, -, -, c⟩
  · rw [hs]
    exact .same srv e
  · refine .created hidle c (tombstoneAt_createFork L _ _ p now nowMs) fun _ => ⟨⟨_, src, hsrc, hfrom.symm, ?_⟩, ?_⟩
    · rw [hfrom]
      exact hle
    · rw [hfrom]

end Cases

end Server

/-- **Every step is one of these moves.** -/
theorem ServerInv.moves {srv srv' : Server} (h : ServerInv srv) {e : Event}
    (he : Server.step L srv e = some srv') : Server.Moves srv e srv' := by
  cases Server.stepped he with
  | createStream p now nowMs flt ok hidle =>
    exact moves_createStream h L (e := ⟨.createStream p now nowMs, flt, ok⟩) hidle p now nowMs
  | createFork p now nowMs flt ok hidle =>
    exact moves_createFork h L (e := ⟨.createFork p now nowMs, flt, ok⟩) hidle p now nowMs
  | noSpawn => exact .same srv _
  | spawn => exact .calm (calm_setStreamer _ _) (fun _ => rfl) (.refl _)
  | replied => exact .calm (calm_setStreamer _ _) (fun _ => rfl) (.refl _)
  | burst hs hb =>
    refine .calm (calm_burst h hs hb _) ?_ (keepsClosed_burst h.stored (h.resident _ _ hs).2 hb)
    obtain ⟨-, -, q, -, rfl, rfl, -, hP⟩ := processBurst_commit hb
    exact tombstoneAt_of_owns (burstOps_owns _ hP.records)
  | untouched => exact .calm (calm_untouched _ _) (fun _ => rfl) (.refl _)
  | touch hs =>
    exact .calm (calm_touch h hs _ _) (tombstoneAt_of_owns (touchOps_owns _ _))
      (keepsClosed_touchOps (h.resident _ _ hs).2 _)
  | retire => exact .calm (calm_removeStreamer _) (fun _ => rfl) (.refl _)
  | noDelete => exact .same srv _
  | softDelete hidle hm hpos => exact .softDeleted hidle hm hpos
  | delete hidle hm h0 => exact .deleted (.asked hidle hm h0) (srv.deleted _ _ _)
  | dropForkRef hheld => exact .released hheld
  | cascade hheld => exact .deleted (.next hheld) (srv.deleted _ _ _)
  | @stale d id dues =>
    have hs : ServerInv { srv with dues := dues } := { h with }
    have c := calm_stale hs d id
    refine .calm ⟨c.grows, c.unsynced, c.held⟩ (fun p => lookup_applyOps_ne fun op ho he => ?_)
      (keepsClosed_quiet h.stored (quiet_applyOps fun op ho => ?_))
    · rw [mem_singleton.mp ho] at he
      cases he
    · rw [mem_singleton.mp ho]
      trivial
  | @expire path m dues flt ok hidle hdue hm =>
    have d := deleted { srv with dues := dues } ok path m
    exact .deleted (.expired hidle hm rfl hdue) ⟨d.db, d.unsynced, d.held⟩
  | noChunk =>
    refine .calm (calm_setPhase (.refl srv) _ _ _) (fun _ => ?_) ?_
    all_goals rw [setPhase_db]
    exact .refl _
  | chunk hd hb =>
    refine .calm (calm_chunk h hd hb _) (fun _ => ?_) ?_
    all_goals rw [setPhase_db]
    · exact lookup_chunk hb (by simp)
    · exact keepsClosed_quiet h.stored (quiet_applyOps (backgroundDelete_unbound (h.deleting _ hd) hb))
  | crash hdb => exact .restarted rfl (mem_of_getElem? hdb)
  | _ => exact .calm ⟨.refl _, fun _ hm => mem_cons_of_mem _ hm, rfl⟩ (fun _ => rfl) (.refl _)

end Yasdb
