import Yasdb.Lifecycle.Control
import Yasdb.Server.Catalog

/-!
# The locking discipline of the handlers

At every point of its execution a handler does only what it may do with the locks it holds and with what it knows
(`Prog.Good`): it kills the streamer it has taken out of the registry, it sends to a streamer whose mutex it holds and
which is not dead, it commits a deletion with no live streamer left at the path, and so on.

- `good_getOrSpawn`, `good_removeStreamerLocked`: the two ways to use a spawn lock;
- `good_prog`: every handler keeps the discipline, from its first step on.
-/

namespace Yasdb.Lifecycle

open Batch Store Option Function

/-! ## The metadata that a batch writes -/

/-- A batch that writes no metadata but that of the stream `id` at `path`, and no tombstone. -/
structure WritesMeta (path : Bytes) (id : Nat) (ops : List Op) : Prop where
  streamMeta : ∀ p e, effect (.metaKey p) ops = some e → p = path ∧ ∃ m, e = some m ∧ m.streamID = id
  tombstone : ∀ p, effect (.tombstoneKey p) ops = none

/-- A batch that writes the metadata of a new stream. -/
structure Creates (path : Bytes) (id : Nat) (ops : List Op) : Prop extends WritesMeta path id ops where
  writes : effect (.metaKey path) ops ≠ none

section WritesMeta

variable {path : Bytes} {id : Nat} {ops : List Op}

/-- A streamer writes the metadata of its own stream only. -/
theorem WritesMeta.metaAt (h : WritesMeta path id ops) (db : Store) (p : Bytes) :
    metaAt (applyOps db ops) p = db.metaAt p ∨
      (p = path ∧ ∃ m, metaAt (applyOps db ops) p = some m ∧ m.streamID = id) := by
  unfold Store.metaAt
  rw [lookup_applyOps]
  cases he : effect (.metaKey p) ops with
  | none => exact .inl rfl
  | some e =>
    obtain ⟨hp, m, rfl, hm⟩ := h.streamMeta p e he
    exact .inr ⟨hp, m, rfl, hm⟩

theorem WritesMeta.streamAt (h : WritesMeta path id ops) {db : Store}
    (hdb : (db.metaAt path).map (·.streamID) = some id) (p : Bytes) :
    (Store.metaAt (applyOps db ops) p).map (·.streamID) = (db.metaAt p).map (·.streamID) := by
  rcases h.metaAt db p with he | ⟨rfl, m, he, hm⟩
  · rw [he]
  · rw [he, hdb, map_some, hm]

/-- A creation takes its path. -/
theorem Creates.streamAt (h : Creates path id ops) (db : Store) (p : Bytes) :
    (metaAt (applyOps db ops) p).map (·.streamID) =
      update (fun p => (db.metaAt p).map (·.streamID)) path (some id) p := by
  by_cases hp : p = path
  · subst hp
    obtain ⟨e, he⟩ := ne_none_iff_exists'.mp h.writes
    obtain ⟨-, m, rfl, hm⟩ := h.streamMeta p e he
    unfold metaAt
    rw [lookup_applyOps, he, update_self, ← hm]
    rfl
  · rcases h.metaAt db p with he | ⟨rfl, -⟩
    · rw [he, update_of_ne hp]
    · exact (hp rfl).elim

/-- A streamer writes no tombstone. -/
theorem WritesMeta.tombstoneAt (h : WritesMeta path id ops) (db : Store) (p : Bytes) :
    tombstoneAt (applyOps db ops) p = db.tombstoneAt p := by
  unfold Store.tombstoneAt
  rw [lookup_applyOps, h.tombstone p]
  rfl

theorem writesMeta_of_keyType (h : ∀ op ∈ ops, op.key.keyType ≠ 1 ∧ op.key.keyType ≠ 9) (path : Bytes) (id : Nat) :
    WritesMeta path id ops := by
  refine ⟨fun p e he => ?_, fun p => effect_ne fun op ho hk => (h op ho).2 (by rw [hk]; rfl)⟩
  rw [effect_ne fun op ho hk => (h op ho).1 (by rw [hk]; rfl)] at he
  cases he

theorem WritesMeta.append {ops' : List Op} (h : WritesMeta path id ops) (h' : WritesMeta path id ops') :
    WritesMeta path id (ops ++ ops') := by
  refine ⟨fun p e he => ?_, fun p => by rw [effect_append, h.tombstone, h'.tombstone]; rfl⟩
  rw [effect_append, or_eq_some_iff] at he
  rcases he with he | ⟨-, he⟩
  · exact h'.streamMeta p e he
  · exact h.streamMeta p e he

end WritesMeta

/-- The batch of a new stream takes its path. -/
theorem creates_createOps (path : Bytes) (m : StreamMeta) (start : Nat) (records : List Bytes) (now : Int64) :
    Creates path m.streamID (createOps path m start records now) := by
  have hmeta : ∀ p, effect (.metaKey p) (createOps path m start records now) =
      if p = path then some (some m) else none := by
    intro p
    rw [effect_createOps (by simp) (by simp)]
    by_cases hp : p = path
    · subst hp; simp
    · simp [hp, Ne.symm hp]
  refine ⟨⟨fun p e he => ?_, fun p => ?_⟩, by rw [hmeta, if_pos rfl]; simp⟩
  · rw [hmeta] at he
    split at he
    · cases he; exact ⟨‹_›, m, rfl, rfl⟩
    · cases he
  · rw [effect_createOps (by simp) (by simp)]
    simp

/-! ## The discipline -/

/-- What a handler learns from reading a key: under a lock of the path, the metadata tells its owner. -/
def Know.learn (K : Know) : (key : Key) → Except String (Option key.Val) → Know
  | .metaKey path, .ok (some m) =>
    if K.metaMu || K.spawn = some path then { K with owner := some (path, some m.streamID) } else K
  | _, _ => K

/-- What a handler has to know before a commit. -/
def Commit.Allowed (K : Know) : Commit → Prop
  | .create path id ops =>
    K.metaMu = true ∧ K.owner = some (path, none) ∧ K.fresh = some id ∧ Creates path id ops
  | .hardDelete path m =>
    K.metaMu = true ∧ K.spawn = some path ∧ K.toSpawn = false ∧ K.cleared = true ∧ K.victim = none ∧
      K.owner = some (path, some m.streamID)
  | .softDelete path _ => K.spawn = some path ∧ K.toSpawn = false ∧ K.cleared = true ∧ K.victim = none
  | .refCount .. => True
  | .dropStaleExpiry .. => True

/-- What a handler knows when it makes a call. -/
def Call.pre : Call → Know
  | .deleteStreamLocked path m _ => { metaMu := true, owner := some (path, some m.streamID) }
  | .dropForkRef _ => { metaMu := true }
  | _ => {}

/-- The handler keeps the discipline from here on, knowing `K`. -/
def Prog.Good : Prog → Know → Prop
  | .done _, K => K = {}
  | .call c, K => K = c.pre
  | .lockMeta k, K => K = {} ∧ k.Good { metaMu := true }
  | .unlockMeta k, K => K.metaMu = true ∧ K.victim = none ∧ k.Good {}
  | .lockSpawn path toSpawn k, K =>
    K.spawn = none ∧ K.victim = none ∧
      k.Good { K with spawn := some path, toSpawn := toSpawn, vacant := false, cleared := false }
  | .unlockSpawn path k, K => K.spawn = some path ∧ K.victim = none ∧ k.Good { metaMu := K.metaMu }
  | .lockMu i k, K => k.Good { K with mu := some i, alive := false }
  | .unlockMu i k, K => K.mu = some i ∧ k.Good { K with mu := none, alive := false }
  | .get key k, K => ∀ r, (k r).Good (K.learn key r)
  | .plan path f k, K =>
    K.metaMu = true ∧
      (∀ flt db id ops res, f flt db id = .ok (ops, res) → db.metaAt path = none ∧ Creates path id ops) ∧
      (∀ e, (k (.error e)).Good K) ∧
      ∀ id ops, Creates path id ops → (k (.ok (id, ops))).Good { K with owner := some (path, none), fresh := some id }
  | .commit c k, K => c.Allowed K ∧ ∀ ok, (k ok).Good K.spent
  | .lookup path k, K =>
    (∀ i, (k (some i)).Good K) ∧ (k none).Good (if K.spawn = some path then { K with vacant := true } else K)
  | .spawn path m _ k, K =>
    K.spawn = some path ∧ K.toSpawn = true ∧ K.vacant = true ∧ K.owner = some (path, some m.streamID) ∧
      ∀ i, (k i).Good { K with vacant := false, cleared := false }
  | .evict path k, K =>
    K.spawn = some path ∧ K.victim = none ∧
      ∀ r, (k r).Good { K with vacant := true, cleared := true, victim := r }
  | .look _ k, K => ∀ closed contentType, (k closed contentType).Good K
  | .isDead i k, K => K.mu = some i ∧ (k true).Good K ∧ (k false).Good { K with alive := true }
  | .kill i k, K =>
    K.mu = some i ∧ K.victim = some i ∧ K.vacant = true ∧ k.Good { K with victim := none, alive := false }
  | .send i _ k, K => K.mu = some i ∧ K.alive = true ∧ k.Good K
  | .signal i k, K => K.mu = some i ∧ K.alive = true ∧ k.Good K
  | .await k, K => ∀ r, (k r).Good K
  | .park _ k, K => k.Good K
  | .unpark _ k, K => k.Good K
  | .startBackgroundDelete _ k, K => k.Good K

/-! ## The spawn lock -/

/-- The spawn lock is held while a streamer is spawned. -/
theorem good_getOrSpawn {path : Bytes} {k : Except String (Option Nat) → Prog} (hk : ∀ r, (k r).Good {}) :
    (getOrSpawn path k).Good {} := by
  refine ⟨fun i => hk _, rfl, rfl, fun i => ⟨rfl, rfl, hk _⟩, ?_⟩
  rw [if_pos rfl]
  rintro (e | _ | m)
  · exact ⟨rfl, rfl, hk _⟩
  · exact ⟨rfl, rfl, hk _⟩
  · simp only [Know.learn, decide_true, Bool.or_true, if_true]
    rintro (e | t)
    · exact ⟨rfl, rfl, hk _⟩
    · exact ⟨rfl, rfl, rfl, rfl, fun i => ⟨rfl, rfl, hk _⟩⟩

/-- The path is vacant when the delete is committed. -/
theorem good_removeStreamerLocked {path : Bytes} {c : Commit} {k : Bool → Prog} {o : Option (Bytes × Option Nat)}
    (hc : c.Allowed { metaMu := true, spawn := some path, vacant := true, cleared := true, owner := o })
    (hk : ∀ ok, (k ok).Good { metaMu := true }) :
    (removeStreamerLocked path c k).Good { metaMu := true, owner := o } := by
  refine ⟨rfl, rfl, rfl, rfl, ?_⟩
  rintro (_ | i)
  · exact ⟨hc, fun ok => ⟨rfl, rfl, hk ok⟩⟩
  · exact ⟨rfl, rfl, rfl, rfl, hc, fun ok => ⟨rfl, rfl, hk ok⟩⟩

/-! ## The handlers -/

theorem Know.learn_empty (key : Key) (r : Except String (Option key.Val)) : ({} : Know).learn key r = {} := by
  unfold Know.learn
  split <;> rfl

theorem passes_good : Passes (Prog.Good · {}) where
  done := fun _ => rfl
  get := fun hk r => by rw [Know.learn_empty]; exact hk r
  lookup := fun hk => ⟨fun i => hk (some i), hk none⟩
  look := fun hk => hk
  getOrSpawn := good_getOrSpawn
  handOver := fun _ _ _ => ⟨rfl, ⟨rfl, rfl⟩, rfl, rfl, rfl, fun _ => rfl⟩
  signal := fun hk => ⟨rfl, ⟨rfl, hk⟩, rfl, rfl, rfl, hk⟩
  park := fun _ => rfl

/-- A creation is committed under `metaMu`. -/
theorem good_create {path : Bytes} {f : Faults → Store → Nat → CreatePlan}
    (hf : ∀ flt db id ops res, f flt db id = .ok (ops, res) → db.metaAt path = none ∧ Creates path id ops) :
    (create path f).Good {} := by
  refine ⟨rfl, rfl, hf, fun e => ⟨rfl, rfl, rfl⟩, fun id ops hc => ⟨⟨rfl, rfl, rfl, hc⟩, ?_⟩⟩
  rintro (_ | _)
  · exact ⟨rfl, rfl, rfl⟩
  · exact ⟨rfl, rfl, rfl⟩

theorem good_createStream (L : GoLib) (p : CreateParams) (now nowMs : Int64) :
    (create p.path fun flt db id => createStream L flt db id now nowMs p).Good {} := by
  refine good_create fun flt db id ops res h => ?_
  obtain ⟨hm, records, rfl⟩ := createStream_spec h
  exact ⟨hm, creates_createOps p.path (newMeta id now nowMs p) 0 records now⟩

theorem good_createFork (L : GoLib) (p : ForkParams) (now nowMs : Int64) :
    (create p.path fun flt db id => createFork L flt db id now nowMs p).Good {} := by
  refine good_create fun flt db id ops res h => ?_
  obtain ⟨hm, src, m, records, n, -, rfl, -, rfl⟩ := createFork_spec h
  have href : WritesMeta p.path m.streamID [Op.put (.refCountKey src.streamID) n] :=
    writesMeta_of_keyType (fun op ho => by rw [List.mem_singleton.mp ho]; simp) _ _
  have hcr := creates_createOps p.path m m.forkOffset records now
  refine ⟨hm, hcr.toWritesMeta.append href, ?_⟩
  rw [effect_append, effect_ne fun op ho => by rw [List.mem_singleton.mp ho]; simp]
  exact hcr.writes

/-- A delete knows the owner of its path. -/
theorem good_deleteStreamLocked (path : Bytes) (m : StreamMeta) (cascade : Bool) :
    (deleteStreamLocked path m cascade).Good { metaMu := true, owner := some (path, some m.streamID) } := by
  refine good_removeStreamerLocked ⟨rfl, rfl, rfl, rfl, rfl, rfl⟩ ?_
  rintro (_ | _)
  · exact ⟨rfl, rfl, rfl⟩
  · change Prog.Good (if m.forkedFrom ≠ 0 then _ else _) _
    split
    · rfl
    · exact ⟨rfl, rfl, rfl⟩

theorem good_dropForkRef (sourceID : Nat) : (dropForkRef sourceID).Good { metaMu := true } := by
  intro r
  refine ⟨trivial, fun _ => ?_⟩
  split
  · exact ⟨rfl, rfl, rfl⟩
  · rintro (e | _ | path)
    · exact ⟨rfl, rfl, rfl⟩
    · exact ⟨rfl, rfl, rfl⟩
    · rintro (e | _ | m)
      · exact ⟨rfl, rfl, rfl⟩
      · exact ⟨rfl, rfl, rfl⟩
      · rintro (e | _ | t)
        · exact ⟨rfl, rfl, rfl⟩
        · exact ⟨rfl, rfl, rfl⟩
        · rfl

theorem good_deleteStream (path : Bytes) : (deleteStream path).Good {} := by
  refine ⟨rfl, ?_⟩
  rintro (e | t)
  · exact ⟨rfl, rfl, rfl⟩
  · dsimp only
    split
    · exact ⟨rfl, rfl, rfl⟩
    · rintro (e | _ | m)
      · exact ⟨rfl, rfl, rfl⟩
      · exact ⟨rfl, rfl, rfl⟩
      · intro r
        dsimp only
        split
        · exact good_removeStreamerLocked ⟨rfl, rfl, rfl, rfl⟩ fun ok => ⟨rfl, rfl, rfl⟩
        · rfl

/-- An expiry is such a delete. -/
theorem good_expireIfDue (deadline : UInt64) (id : Nat) (now : Int64) : (expireIfDue deadline id now).Good {} := by
  have hdrop : ∀ o, Prog.Good (.commit (.dropStaleExpiry deadline id) fun _ => .unlockMeta (.done 204))
      { metaMu := true, owner := o } := fun o => ⟨trivial, fun _ => ⟨rfl, rfl, rfl⟩⟩
  refine ⟨rfl, ?_⟩
  rintro (e | _ | path)
  · exact ⟨rfl, rfl, rfl⟩
  · exact hdrop none
  · rintro (e | _ | m)
    · exact ⟨rfl, rfl, rfl⟩
    · exact hdrop none
    · dsimp only
      split
      · exact hdrop _
      · split
        · exact ⟨rfl, rfl, rfl⟩
        · rfl

/-- **Every handler keeps the discipline.** -/
theorem good_prog (L : GoLib) (c : Call) : (c.prog L).Good c.pre := by
  cases c with
  | createStream p now nowMs => exact good_createStream L p now nowMs
  | createFork p now nowMs => exact good_createFork L p now nowMs
  | handlePost path p => exact passes_good.handlePost L path p
  | appendOrClose path records closeStream => exact passes_good.appendOrClose path records closeStream
  | handleGet path live => exact passes_good.handleGet path live
  | tail path => exact passes_good.tail path
  | next i => exact rfl
  | info path => exact passes_good.info path
  | deleteStream path => exact good_deleteStream path
  | expireIfDue deadline id now => exact good_expireIfDue deadline id now
  | submitAppend path req => exact passes_good.submitAppend path req
  | deleteStreamLocked path m cascade => exact good_deleteStreamLocked path m cascade
  | dropForkRef sourceID => exact good_dropForkRef sourceID

end Yasdb.Lifecycle
