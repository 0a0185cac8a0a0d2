import Yasdb.Server.Model
import Yasdb.Outcome

/-!
# The catalog of stored streams

What every store of the server satisfies (`Catalog`): ids and paths match, ids are below the counter, every stream
stores exactly the records from its base up to its tail (`OwnLog`), nothing is stored under ids not yet given out, and
a pending deletion concerns an id without a stream (`Dead`).

Two rules cover every batch that the server commits:

- `Catalog.quiet`: a batch that writes only keys no stored stream depends on (`Unbound`);
- `Catalog.rewrites`: a batch that creates, changes or removes one stream (`Rewrites`) and leaves the others.

The batches are put under these rules by `rewrites_create`, `rewrites_delete`, `rewrites_burst` and `rewrites_touch`.
-/

namespace Yasdb

open Batch List Option Store Server Op Nat

/-- The first record that a stream stores itself. -/
def StreamMeta.base (m : StreamMeta) : Nat := if m.forkedFrom = 0 then 0 else m.forkOffset

/-- The stream stores exactly the records from its base up to its tail. -/
def OwnLog (db : Store) (m : StreamMeta) : Prop :=
  ∃ t, db.tailAt m.streamID = some t ∧ m.base ≤ t.seq ∧
    ∀ n, (db.recordAt m.streamID n).isSome ↔ m.base ≤ n ∧ n < t.seq

/-- The id has been given out and has no stream any more. -/
def Dead (db : Store) (id : Nat) : Prop := id < recoverNextID db ∧ db.idMappingAt id = none

structure Catalog (db : Store) : Prop where
  mapped : ∀ id path, db.idMappingAt id = some path ↔ ∃ m, db.metaAt path = some m ∧ m.streamID = id
  ids : ∀ path m, db.metaAt path = some m → m.streamID < recoverNextID db ∧ m.forkedFrom < m.streamID
  log : ∀ path m, db.metaAt path = some m → OwnLog db m
  unused : ∀ id n, recoverNextID db ≤ id → db.recordAt id n = none
  dead : ∀ id, db.deletePendingAt id ≠ none → Dead db id

variable {db db' : Store} {m : StreamMeta} {ops : List Op} {s : Streamer}

theorem recoverNextID_congr (h : db'.lookup .idCounterKey = db.lookup .idCounterKey) :
    recoverNextID db' = recoverNextID db := by
  unfold recoverNextID; rw [h]

theorem recoverNextID_pos (db : Store) : 0 < recoverNextID db := by
  unfold recoverNextID
  split
  · split
    · assumption
    · exact one_pos
  · exact one_pos

theorem catalog_empty : Catalog ∅ :=
  ⟨fun _ _ => ⟨nofun, fun ⟨_, h, _⟩ => (by cases h)⟩, nofun,
    nofun, fun _ _ _ => rfl, fun _ h => (h rfl).elim⟩

namespace Catalog

variable {db : Store} (h : Catalog db)
include h

variable {path : Bytes} {m : StreamMeta}

section

variable (hm : db.metaAt path = some m)
include hm

theorem mapping : db.idMappingAt m.streamID = some path :=
  (h.mapped _ _).mpr ⟨m, hm, rfl⟩

theorem not_dead : ¬ Dead db m.streamID := fun hd => by
  have := h.mapping hm
  rw [hd.2] at this; cases this

theorem path_eq {path' : Bytes} {m' : StreamMeta} (hm' : db.metaAt path' = some m')
    (he : m.streamID = m'.streamID) : path = path' := by
  have h1 := h.mapping hm
  rw [he, h.mapping hm', some.injEq] at h1
  exact h1.symm

end

theorem forksBelow : ForksBelow db := by
  intro id path m hp hm
  obtain ⟨m', hm', rfl⟩ := (h.mapped _ _).mp hp
  cases hm.symm.trans hm'
  exact ⟨rfl, (h.ids path m hm).2⟩

end Catalog

theorem OwnLog.congr (h : OwnLog db m) (ht : db'.tailAt m.streamID = db.tailAt m.streamID)
    (hr : ∀ n, db'.recordAt m.streamID n = db.recordAt m.streamID n) : OwnLog db' m := by
  obtain ⟨t, h1, h2, h3⟩ := h
  exact ⟨t, ht.trans h1, h2, fun n => by rw [hr n]; exact h3 n⟩

/-! ## Batches that no stream depends on -/

/-- The keys that no stored stream depends on. -/
def Unbound (db : Store) : Key → Prop
  | .metaKey _ | .idMappingKey _ | .tailKey _ | .idCounterKey => False
  | .recordKey i _ | .deletePendingKey i => Dead db i
  | _ => True

/-- Everything that a stored stream depends on is as before. -/
def Quiet (db db' : Store) : Prop := ∀ k, ¬ Unbound db k → db'.lookup k = db.lookup k

theorem quiet_applyOps (h : ∀ op ∈ ops, Unbound db op.key) : Quiet db (applyOps db ops) :=
  fun _ hk => lookup_applyOps_ne fun op ho he => hk (he ▸ h op ho)

namespace Quiet

variable {db db' : Store} (q : Quiet db db')
include q

theorem metaAt (path : Bytes) : db'.metaAt path = db.metaAt path := q (.metaKey path) id

theorem idMappingAt (i : Nat) : db'.idMappingAt i = db.idMappingAt i := q (.idMappingKey i) id

theorem tailAt (i : Nat) : db'.tailAt i = db.tailAt i := q (.tailKey i) id

theorem counter : recoverNextID db' = recoverNextID db := recoverNextID_congr (q .idCounterKey id)

theorem dead {i : Nat} (h : Dead db i) : Dead db' i := ⟨q.counter.symm ▸ h.1, (q.idMappingAt i).trans h.2⟩

theorem attached {s : Streamer} (h : Attached db s) : Attached db' s := by
  refine ⟨(q.metaAt _).trans h.streamMeta, h.id, ?_⟩
  rw [h.writeTail]; unfold loadTailSeq
  rw [q.tailAt]

end Quiet

/-- **A quiet batch keeps the catalog.** -/
theorem Catalog.quiet (h : Catalog db) (q : Quiet db db') : Catalog db' := by
  refine ⟨fun id path => ?_, fun path m hm => ?_, fun path m hm => ?_, fun id n hid => ?_, fun id hid => ?_⟩
  · rw [q.idMappingAt, q.metaAt]; exact h.mapped id path
  · rw [q.metaAt] at hm; rw [q.counter]; exact h.ids path m hm
  · rw [q.metaAt] at hm
    exact (h.log path m hm).congr (q.tailAt _) fun n => q (.recordKey _ n) (h.not_dead hm)
  · rw [q.counter] at hid
    have hnd : ¬ Dead db id := fun hd => absurd hd.1 (by omega)
    exact (q (.recordKey id n) hnd).trans (h.unused id n hid)
  · refine q.dead ?_
    by_contra hnd
    exact hnd (h.dead id fun hn => hid ((q (.deletePendingKey id) hnd).trans hn))

/-! ## Batches that rewrite one stream -/

/-- The keys that the other streams depend on. -/
def Foreign (path : Bytes) (id : Nat) : Key → Prop
  | .metaKey p => p ≠ path
  | .idMappingKey i | .tailKey i | .recordKey i _ | .deletePendingKey i => i ≠ id
  | _ => False

/-- The path holds the stream `id`, or nothing yet, with `id` the next id. -/
def Holds (db : Store) (path : Bytes) (id : Nat) : Prop :=
  (∃ m, db.metaAt path = some m ∧ m.streamID = id) ∨ (db.metaAt path = none ∧ id = recoverNextID db)

/-- The stream is fully stored at its path. -/
structure Placed (db : Store) (path : Bytes) (m : StreamMeta) : Prop where
  streamMeta : db.metaAt path = some m
  mapping : db.idMappingAt m.streamID = some path
  source : m.forkedFrom < m.streamID
  log : OwnLog db m
  pending : db.deletePendingAt m.streamID = none

/-- From `db` to `db'`, the stream `id` at `path` is created, changed or removed, and the others stay. -/
structure Rewrites (path : Bytes) (id : Nat) (db db' : Store) : Prop where
  before : Holds db path id
  after : (∃ m, m.streamID = id ∧ Placed db' path m) ∨ (db'.metaAt path = none ∧ db'.idMappingAt id = none)
  counter : recoverNextID db' = max (recoverNextID db) (id + 1)
  frame : ∀ k, Foreign path id k → db'.lookup k = db.lookup k

section Holds

variable {db : Store} {path : Bytes} {id : Nat}

section

variable (h : Catalog db) (hb : Holds db path id)
include h hb

theorem Catalog.ne_of_holds {p : Bytes} {m : StreamMeta} (hp : p ≠ path)
    (hm : db.metaAt p = some m) : m.streamID ≠ id := by
  rcases hb with ⟨m', hm', rfl⟩ | ⟨-, rfl⟩
  · exact fun he => hp (h.path_eq hm hm' he)
  · exact Nat.ne_of_lt (h.ids p m hm).1

theorem Catalog.mapping_ne_of_holds {i : Nat} (hi : i ≠ id) : db.idMappingAt i ≠ some path := by
  intro he
  obtain ⟨m, hm, rfl⟩ := (h.mapped i path).mp he
  rcases hb with ⟨m', hm', rfl⟩ | ⟨hn, -⟩
  · rw [hm, some.injEq] at hm'; exact hi (by rw [hm'])
  · rw [hm] at hn; cases hn

theorem Catalog.not_dead_of_holds : ¬ Dead db id := by
  rcases hb with ⟨m, hm, rfl⟩ | ⟨-, rfl⟩
  · exact h.not_dead hm
  · exact fun hd => absurd hd.1 (lt_irrefl _)

theorem Catalog.not_pending : db.deletePendingAt id = none := by
  by_contra hp
  exact h.not_dead_of_holds hb (h.dead id hp)

end

end Holds

section Rewrites

variable {path : Bytes} {id : Nat} {db db' : Store} (h : Catalog db) (r : Rewrites path id db db')
include h r

theorem Rewrites.dead {i : Nat} (hd : Dead db i) : Dead db' i := by
  have hi : i ≠ id := fun he => h.not_dead_of_holds r.before (he ▸ hd)
  refine ⟨?_, (r.frame (.idMappingKey i) hi).trans hd.2⟩
  rw [r.counter]
  exact lt_of_lt_of_le hd.1 (le_max_left _ _)

theorem Rewrites.attached {s : Streamer} (ha : Attached db s) (hs : s.path ≠ path) : Attached db' s := by
  have hi : s.id ≠ id := ha.id ▸ h.ne_of_holds r.before hs ha.streamMeta
  refine ⟨(r.frame (.metaKey s.path) hs).trans ha.streamMeta, ha.id, ?_⟩
  rw [ha.writeTail]; unfold loadTailSeq
  rw [show db'.tailAt s.id = db.tailAt s.id from r.frame (.tailKey s.id) hi]

/-- **A batch that rewrites one stream keeps the catalog.** -/
theorem Catalog.rewrites : Catalog db' := by
  have hmeta : ∀ p, p ≠ path → db'.metaAt p = db.metaAt p := fun p hp => r.frame (.metaKey p) hp
  have hmap : ∀ i, i ≠ id → db'.idMappingAt i = db.idMappingAt i := fun i hi => r.frame (.idMappingKey i) hi
  have hcnt : recoverNextID db ≤ recoverNextID db' ∧ id < recoverNextID db' := by rw [r.counter]; omega
  refine ⟨fun i p => ?_, fun p m hm => ?_, fun p m hm => ?_, fun i n hi => ?_, fun i hi => ?_⟩
  · by_cases hp : p = path
    · subst hp
      by_cases hi : i = id
      · subst hi
        rcases r.after with ⟨m, hid, hpl⟩ | ⟨h1, h2⟩
        · exact ⟨fun _ => ⟨m, hpl.streamMeta, hid⟩, fun _ => hid ▸ hpl.mapping⟩
        · rw [h1, h2]
          exact ⟨nofun, fun ⟨_, he, _⟩ => (by cases he)⟩
      · rw [hmap i hi]
        refine ⟨fun he => (h.mapping_ne_of_holds r.before hi he).elim, fun ⟨m, hm, hid⟩ => ?_⟩
        rcases r.after with ⟨m', hid', hpl⟩ | ⟨h1, -⟩
        · rw [hpl.streamMeta, some.injEq] at hm
          exact (hi (by rw [← hid, ← hm, hid'])).elim
        · rw [h1] at hm; cases hm
    · rw [hmeta p hp]
      by_cases hi : i = id
      · subst hi
        refine ⟨fun he => ?_, fun ⟨m, hm, hid⟩ => (h.ne_of_holds r.before hp hm hid).elim⟩
        rcases r.after with ⟨m', hid', hpl⟩ | ⟨-, h2⟩
        · rw [← hid', hpl.mapping, some.injEq] at he
          exact (hp he.symm).elim
        · rw [h2] at he; cases he
      · rw [hmap i hi]; exact h.mapped i p
  · by_cases hp : p = path
    · subst hp
      rcases r.after with ⟨m', hid', hpl⟩ | ⟨h1, -⟩
      · cases hpl.streamMeta.symm.trans hm
        exact ⟨hid'.symm ▸ hcnt.2, hpl.source⟩
      · rw [h1] at hm; cases hm
    · rw [hmeta p hp] at hm
      exact ⟨lt_of_lt_of_le (h.ids p m hm).1 hcnt.1, (h.ids p m hm).2⟩
  · by_cases hp : p = path
    · subst hp
      rcases r.after with ⟨m', -, hpl⟩ | ⟨h1, -⟩
      · rw [hpl.streamMeta, some.injEq] at hm
        exact hm ▸ hpl.log
      · rw [h1] at hm; cases hm
    · rw [hmeta p hp] at hm
      have hi := h.ne_of_holds r.before hp hm
      exact (h.log p m hm).congr (r.frame (.tailKey _) hi) fun n => r.frame (.recordKey _ n) hi
  · exact (r.frame (.recordKey i n) (by show i ≠ id; omega)).trans (h.unused i n (by omega))
  · by_cases hid : i = id
    · subst hid
      rcases r.after with ⟨m, rfl, hpl⟩ | ⟨-, h2⟩
      · exact (hi hpl.pending).elim
      · exact ⟨hcnt.2, h2⟩
    · refine r.dead h (h.dead i fun hn => hi ?_)
      exact (r.frame (.deletePendingKey i) hid).trans hn

end Rewrites

theorem frame_applyOps {path : Bytes} {id : Nat} (h : ∀ op ∈ ops, ¬ Foreign path id op.key) :
    ∀ k, Foreign path id k → (applyOps db ops).lookup k = db.lookup k :=
  fun _ hk => lookup_applyOps_ne fun op ho he => h op ho (he.symm ▸ hk)

/-! ## Creating and removing a stream -/

theorem isSome_effect_recordOpsFrom (id n start : Nat) (recs : List Bytes) (v : Option Bytes) :
    ((effect (.recordKey id n) (recordOpsFrom id start recs)).getD v).isSome ↔
      (start ≤ n ∧ n < start + recs.length) ∨ v.isSome := by
  rw [effect_recordOpsFrom]
  by_cases h : start ≤ n
  · rw [if_pos h]
    by_cases hn : n - start < recs.length
    · rw [getElem?_eq_getElem hn]
      simp; omega
    · rw [getElem?_eq_none (by omega)]
      simp; omega
  · rw [if_neg h]
    simp [h]

theorem mem_createOps {path : Bytes} {start : Nat} {records : List Bytes} {now : Int64} {op : Op}
    (h : op ∈ createOps path m start records now) : ¬ Foreign path m.streamID op.key := by
  unfold createOps at h
  simp only [mem_append, mem_cons, not_mem_nil, or_false] at h
  rcases h with (h | rfl | rfl | rfl | rfl) | h
  · obtain ⟨n, v, rfl⟩ := recordOps_recordOpsFrom _ _ _ op h
    simp [Foreign]
  · simp [Foreign]
  · simp [Foreign]
  · simp [Foreign]
  · simp [Foreign]
  · split at h
    · rw [mem_singleton.mp h]; simp [Foreign]
    · cases h

section Create

variable {path : Bytes} {m : StreamMeta} {start : Nat} {records : List Bytes} {now : Int64}

theorem effect_createOps {k : Key} (h4 : k.keyType ≠ 4) (h7 : k.keyType ≠ 7) :
    effect k (createOps path m start records now) =
      effect k [put (.metaKey path) m, put (.idMappingKey m.streamID) path,
        put (.tailKey m.streamID) (marshalTail (start + records.length) now), put .idCounterKey (m.streamID + 1)] := by
  have he : effect k (if m.deadline > 0 then [put (.expiryKey m.deadline m.streamID) m.ttlSeconds] else [] : List Op)
      = none := by
    refine effect_of_class Key.keyType (c := 7) (fun op ho => ?_) h7
    split at ho
    · rw [mem_singleton.mp ho]; rfl
    · cases ho
  unfold createOps
  rw [effect_append, effect_append, he, (recordOps_recordOpsFrom _ _ _).effect h4, none_or, or_none]

theorem effect_createOps_record (n : Nat) : effect (.recordKey m.streamID n) (createOps path m start records now) =
      effect (.recordKey m.streamID n) (recordOpsFrom m.streamID start records) := by
  unfold createOps
  rw [append_assoc, effect_append, effect_ne, none_or]
  intro op ho
  simp only [mem_append, mem_cons, not_mem_nil, or_false] at ho
  rcases ho with (rfl | rfl | rfl | rfl) | ho
  · simp
  · simp
  · simp
  · simp
  · split at ho
    · rw [mem_singleton.mp ho]; simp
    · cases ho

variable (records now) in
/-- **A created stream** is placed under the next id. The batch may end with operations on keys that no stream depends
on. -/
theorem rewrites_create {db : Store} (h : Catalog db) (hp : db.metaAt path = none)
    (hid : m.streamID = recoverNextID db) (hsrc : m.forkedFrom < m.streamID) (hs : start = m.base) {extra : List Op}
    (hx : ∀ op ∈ extra, op.key.keyType = 10) :
    Rewrites path m.streamID db (applyOps db (createOps path m start records now ++ extra)) := by
  have hb : Holds db path m.streamID := Or.inr ⟨hp, hid⟩
  have hk : ∀ k : Key, k.keyType ≠ 10 → (applyOps db (createOps path m start records now ++ extra)).lookup k =
      (effect k (createOps path m start records now)).getD (db.lookup k) := by
    intro k hk
    rw [lookup_applyOps, effect_append, effect_of_class Key.keyType hx hk, none_or]
  have hlook : ∀ k : Key, k.keyType ≠ 10 → k.keyType ≠ 4 → k.keyType ≠ 7 →
      (applyOps db (createOps path m start records now ++ extra)).lookup k =
      (effect k [put (.metaKey path) m, put (.idMappingKey m.streamID) path,
        put (.tailKey m.streamID) (marshalTail (start + records.length) now),
        put .idCounterKey (m.streamID + 1)]).getD (db.lookup k) := by
    intro k h10 h4 h7
    rw [hk k h10, effect_createOps h4 h7]
  refine ⟨hb, .inl ⟨m, rfl, ⟨?_, ?_, hsrc, ⟨marshalTail (start + records.length) now, ?_, ?_, fun n => ?_⟩, ?_⟩⟩, ?_,
    ?_⟩
  · unfold metaAt
    rw [hlook _ (by simp) (by simp) (by simp)]
    simp
  · unfold idMappingAt
    rw [hlook _ (by simp) (by simp) (by simp)]
    simp
  · unfold tailAt
    rw [hlook _ (by simp) (by simp) (by simp)]
    simp
  · simp only [marshalTail]; omega
  · have hnone : db.lookup (.recordKey m.streamID n) = none := h.unused _ n (by omega)
    unfold recordAt
    rw [hk _ (by simp), effect_createOps_record, isSome_effect_recordOpsFrom, hnone, hs]
    simp [marshalTail]
  · unfold deletePendingAt
    rw [hlook _ (by simp) (by simp) (by simp)]
    have hp : db.lookup (.deletePendingKey m.streamID) = none := h.not_pending hb
    simp [hp]
  · have hc : (applyOps db (createOps path m start records now ++ extra)).lookup .idCounterKey =
        some (m.streamID + 1) := by
      rw [hlook _ (by simp) (by simp) (by simp)]
      simp
    unfold recoverNextID at hid ⊢
    rw [hc, ← hid]
    simp
  · refine frame_applyOps fun op ho => ?_
    rcases mem_append.mp ho with ho | ho
    · exact mem_createOps ho
    · intro ha
      have := hx op ho
      cases hk : op.key <;> rw [hk] at ha this <;> simp_all [Foreign, Key.keyType]

end Create

section Delete

variable (db : Store) (path : Bytes) (m : StreamMeta)

theorem lookup_deleteOps {k : Key} (hk : k.keyType ≠ 7) : (applyOps db (deleteOps path m)).lookup k =
      (effect k [del (.metaKey path), del (.idMappingKey m.streamID), del (.tailKey m.streamID),
        del (.writerSeqKey m.streamID), del (.refCountKey m.streamID), del (.tombstoneKey path),
        put (.deletePendingKey m.streamID) 0]).getD (db.lookup k) := by
  have hx : effect k (if m.deadline > 0 then [del (.expiryKey m.deadline m.streamID)] else [] : List Op) = none := by
    refine effect_of_class Key.keyType (c := 7) (fun op ho => ?_) hk
    split at ho
    · rw [mem_singleton.mp ho]; rfl
    · cases ho
  unfold deleteOps
  rw [lookup_applyOps, effect_append, hx, none_or]

theorem metaAt_deleteOps : metaAt (applyOps db (deleteOps path m)) path = none := by
  unfold metaAt
  rw [lookup_deleteOps db path m (by simp)]
  simp

theorem idMappingAt_deleteOps : idMappingAt (applyOps db (deleteOps path m)) m.streamID = none := by
  unfold idMappingAt
  rw [lookup_deleteOps db path m (by simp)]
  simp

theorem recoverNextID_deleteOps : recoverNextID (applyOps db (deleteOps path m)) = recoverNextID db := by
  refine recoverNextID_congr ?_
  rw [lookup_deleteOps db path m (by simp)]
  simp

variable {db path m}

theorem mem_deleteOps {op : Op} (h : op ∈ deleteOps path m) : ¬ Foreign path m.streamID op.key := by
  unfold deleteOps at h
  simp only [mem_append, mem_cons, not_mem_nil, or_false] at h
  rcases h with (rfl | rfl | rfl | rfl | rfl | rfl | rfl) | h
  iterate 7 simp [Foreign]
  split at h
  · rw [mem_singleton.mp h]; simp [Foreign]
  · cases h

/-- **A hard delete** removes the stream. The metadata it goes by may be older than the stored one. -/
theorem rewrites_delete (h : Catalog db) {m' : StreamMeta} (hm : db.metaAt path = some m')
    (hid : m'.streamID = m.streamID) : Rewrites path m.streamID db (applyOps db (deleteOps path m)) := by
  refine ⟨.inl ⟨m', hm, hid⟩, .inr ⟨metaAt_deleteOps db path m, idMappingAt_deleteOps db path m⟩, ?_,
    frame_applyOps fun op ho => mem_deleteOps ho⟩
  have := (h.ids path m' hm).1
  rw [recoverNextID_deleteOps]
  omega

end Delete

/-! ## Changing a stream -/

/-- A streamer's commit keeps the other streams and the counter. -/
theorem rewrites_of_owns (h : Catalog db) (ha : Attached db s) (ho : ∀ op ∈ ops, Owns s.path s.id op.key)
    (hm : metaAt (applyOps db ops) s.path = some m) (hid : m.streamID = s.id)
    (hsrc : m.forkedFrom = s.streamMeta.forkedFrom) (hlog : OwnLog (applyOps db ops) m) :
    Rewrites s.path s.id db (applyOps db ops) := by
  have hb : Holds db s.path s.id := Or.inl ⟨_, ha.streamMeta, ha.id⟩
  have hids := h.ids _ _ ha.streamMeta
  have hkeep : ∀ k, ¬ Owns s.path s.id k → (applyOps db ops).lookup k = db.lookup k := fun k hk =>
    lookup_applyOps_ne fun op hop he => hk (he ▸ ho op hop)
  have hc : recoverNextID (applyOps db ops) = recoverNextID db := recoverNextID_congr (hkeep _ id)
  refine ⟨hb, .inl ⟨m, hid, hm, ?_, ?_, hlog, ?_⟩, ?_, frame_applyOps fun op hop hap => ?_⟩
  · rw [hid, ← ha.id]
    exact (hkeep (.idMappingKey _) id).trans (h.mapping ha.streamMeta)
  · rw [hid, hsrc, ← ha.id]; exact hids.2
  · rw [hid]
    exact (hkeep (.deletePendingKey _) id).trans (h.not_pending hb)
  · rw [hc, ← ha.id]; omega
  · have := ho op hop
    cases hk : op.key <;> rw [hk] at hap this <;> simp_all [Foreign, Owns]

/-- **A committed burst** extends the stored log, and its streamer stays attached. The burst may have been planned on an
earlier store `db₀`. -/
theorem rewrites_burst {L : GoLib} {flt : Faults} {db₀ : Store} (h : Catalog db) {s₁ : Streamer} (ha : Attached db s)
    {now : Int64} {batch : List AppendReq} {c : CommitBurst}
    (hb : processBurst L flt db₀ now s batch = (s₁, .commit c)) :
    Rewrites s.path s.id db (applyOps db c.ops) ∧ (syncCommit none db s₁ c).2.1.path = s.path ∧
      Attached (applyOps db c.ops) (syncCommit none db s₁ c).2.1 := by
  obtain ⟨recs, hrec, htail⟩ := processBurst_records hb
  obtain ⟨hl, -, p, -, rfl, rfl, hn, hP⟩ := processBurst_commit hb
  have ha₁ : Attached db p.st := ha.loads hl
  have hw := ha₁.applyWriter hP hn
  have hsame : (applyWriter p.st p.pend (p.metaChanged || deadlineChanged p.st p.pend)).streamMeta.forkedFrom =
      p.st.streamMeta.forkedFrom ∧ (applyWriter p.st p.pend
        (p.metaChanged || deadlineChanged p.st p.pend)).streamMeta.base = p.st.streamMeta.base := by
    unfold applyWriter
    split <;> exact ⟨rfl, rfl⟩
  refine ⟨?_, hl.path, ⟨hw.streamMeta, hw.id, hw.writeTail⟩⟩
  rw [← hl.path, ← hl.id]
  refine rewrites_of_owns h ha₁ (burstOps_owns _ hP.records) hw.streamMeta hw.id hsame.1 ?_
  -- the new records start at the stored tail
  obtain ⟨t, ht, hle, hrecs⟩ := h.log _ _ ha₁.streamMeta
  have hwt : s.writeTail = t.seq := by
    rw [← hl.writeTail, ha₁.writeTail, ← ha₁.id]
    unfold loadTailSeq
    rw [ht]; rfl
  have htail' : p.pend.tail = t.seq + recs.length := hwt ▸ htail
  rw [ha₁.id] at hrecs
  unfold OwnLog
  rw [hw.id, hsame.2]
  refine ⟨marshalTail p.pend.tail p.pend.now, ?_, ?_, fun n => ?_⟩
  · show (applyOps db (burstOps p.st p.pend p.metaChanged)).lookup (.tailKey p.st.id) = _
    rw [lookup_applyOps, effect_burstOps_tail hP.records, if_pos rfl]
    rfl
  · simp only [marshalTail]; omega
  · have hold := hrecs n
    unfold recordAt at hold ⊢
    show ((applyOps db (burstOps p.st p.pend p.metaChanged)).lookup (.recordKey p.st.id n)).isSome = true ↔ _
    rw [lookup_applyOps, effect_burstOps_record, show p.pend.recordOps = _ from hrec, ← hl.id,
      isSome_effect_recordOpsFrom, hold, hwt]
    simp only [marshalTail]
    omega

theorem rewrites_touch (h : Catalog db) (ha : Attached db s) (d : UInt64) :
    Rewrites s.path s.id db (applyOps db (touchOps s d)) := by
  have ha' := ha.touchOps d
  refine rewrites_of_owns h ha (touchOps_owns s d) ha'.streamMeta ha'.id rfl ?_
  have hlog : OwnLog db (s.setDeadline d).streamMeta := h.log s.path s.streamMeta ha.streamMeta
  exact hlog.congr (lookup_touchOps db (by simp) (by simp))
    fun n => lookup_touchOps db (by simp) (by simp)

end Yasdb
