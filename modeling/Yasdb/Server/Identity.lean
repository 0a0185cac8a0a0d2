import Yasdb.Server.BulkProvision
import Yasdb.Server.Moves

/-!
# Stream identity

Ids are handed out by `createStream`, `createFork` and `bulkProvisionBatch`, each of which stores the id counter in the
batch that creates its streams. A run is observed together with the list of all ids handed out so far (`Ledger`), which
is always 1, 2, 3, … up to the counter.

- `ids_of_step`: the ids that a step hands out are the next ones;
- `LedgerInv.step`: every step keeps the list and the counter together;
- `identity_bijection`: **paths and ids correspond**.
-/

namespace Yasdb

open Batch Runs List Option StreamMeta

/-! ## Ids handed out -/

/-- The id in a metadata value that an operation stores. -/
def newID : Op → Option Nat
  | .put (.metaKey _) m => some (StreamMeta.streamID m)
  | _ => none

/-- The ids of the streams that a batch creates. -/
def newIDs (ops : List Op) : List Nat := ops.filterMap newID

theorem newIDs_recordOpsFrom (id start : Nat) (records : List Bytes) :
    newIDs (recordOpsFrom id start records) = [] := by
  refine filterMap_eq_nil_iff.mpr fun op ho => ?_
  obtain ⟨n, v, rfl⟩ := recordOps_recordOpsFrom _ _ _ op ho
  rfl

theorem newIDs_createOps (path : Bytes) (m : StreamMeta) (start : Nat) (records : List Bytes) (now : Int64) :
    newIDs (createOps path m start records now) = [m.streamID] := by
  have hx : newIDs (if m.deadline > 0 then [Op.put (.expiryKey m.deadline m.streamID) m.ttlSeconds] else []) = [] := by
    split <;> rfl
  have hr := newIDs_recordOpsFrom m.streamID start records
  unfold newIDs at hx hr ⊢
  rw [createOps, filterMap_append, filterMap_append, hx, hr]
  rfl

theorem Provision.newIDs_ops (p : Provision) (id n : Nat) : newIDs (p.ops id n) = List.range' id n := by
  unfold newIDs Provision.ops
  rw [filterMap_append, filterMap_flatMap, range'_eq_map_range]
  have hone : ∀ i, (p.streamOps id i).filterMap newID = [id + i] := fun _ => rfl
  simp only [hone]
  rw [← map_eq_flatMap]
  simp [newID]

/-- The ids of a planned creation. -/
def plannedIDs : CreatePlan → List Nat
  | .ok (ops, _) => newIDs ops
  | .error _ => []

namespace Server

/-- The ids that a step hands out. -/
def allocates (L : GoLib) (srv : Server) (e : Event) : List Nat :=
  match e.action with
  | .createStream p now nowMs => if e.ok then plannedIDs (createStream L e.flt srv.db srv.nextID now nowMs p) else []
  | .createFork p now nowMs => if e.ok then plannedIDs (createFork L e.flt srv.db srv.nextID now nowMs p) else []
  | _ => []

variable {srv srv' : Server}

/-- The step hands out the next `ids.length` ids, and keeps no older store if it hands out any. -/
structure Advances (srv srv' : Server) (ids : List Nat) : Prop where
  next : ids = List.range' srv.nextID ids.length
  counter : srv'.nextID = srv.nextID + ids.length
  synced : ids = [] ∨ srv'.unsynced = []

theorem Advances.none (h : srv'.nextID = srv.nextID) : Advances srv srv' [] := ⟨rfl, h, .inl rfl⟩

theorem advances_create {plan : CreatePlan} (ok : Bool)
    (h : ∀ ops res, plan = .ok (ops, res) → newIDs ops = [srv.nextID]) :
    Advances srv (srv.create ok plan) (if ok then plannedIDs plan else []) := by
  cases plan with
  | error res => cases ok <;> exact .none rfl
  | ok plan =>
    obtain ⟨ops, res⟩ := plan
    cases ok with
    | false => exact .none rfl
    | true =>
      rw [if_pos rfl, plannedIDs, h ops res rfl]
      exact ⟨rfl, rfl, .inr rfl⟩

theorem advances_createStream (L : GoLib) (flt : Faults) (ok : Bool) (p : CreateParams) (now nowMs : Int64) :
    Advances srv (srv.create ok (createStream L flt srv.db srv.nextID now nowMs p))
      (if ok then plannedIDs (createStream L flt srv.db srv.nextID now nowMs p) else []) := by
  refine advances_create ok fun ops res hplan => ?_
  obtain ⟨-, records, rfl⟩ := createStream_spec hplan
  exact newIDs_createOps _ _ _ _ _

theorem advances_createFork (L : GoLib) (flt : Faults) (ok : Bool) (p : ForkParams) (now nowMs : Int64) :
    Advances srv (srv.create ok (createFork L flt srv.db srv.nextID now nowMs p))
      (if ok then plannedIDs (createFork L flt srv.db srv.nextID now nowMs p) else []) := by
  refine advances_create ok fun ops res hplan => ?_
  obtain ⟨-, src, m, records, n, -, hid, -, rfl⟩ := createFork_spec hplan
  have hc := newIDs_createOps p.path m m.forkOffset records now
  unfold newIDs at hc ⊢
  rw [filterMap_append, hc, hid]
  rfl

theorem advances_bulkProvisionBatch (ok : Bool) (p : Provision) (n : Nat) :
    Advances srv (srv.bulkProvisionBatch ok p n) (if ok then newIDs (p.ops srv.nextID n) else []) := by
  cases ok with
  | false => exact .none rfl
  | true =>
    rw [if_pos rfl, p.newIDs_ops]
    exact ⟨by rw [length_range'], by rw [length_range']; rfl, .inr rfl⟩

/-! ### Steps that create nothing -/

theorem nextID_deleteStreamLocked (ok : Bool) (path : Bytes) (m : StreamMeta) :
    (srv.deleteStreamLocked ok path m).nextID = srv.nextID := by
  cases ok <;> rfl

theorem nextID_setPhase (srv : Server) (i id : Nat) (next : Option DeletePhase) :
    (srv.setPhase i id next).nextID = srv.nextID := by
  cases next <;> rfl

/-- **The ids that a step hands out are the next ones.** -/
theorem ids_of_step {L : GoLib} {e : Event} (he : step L srv e = some srv')
    (hcrash : ∀ lost seen, e.action ≠ .crash lost seen) : Advances srv srv' (allocates L srv e) := by
  cases stepped he with
  | createStream p now nowMs flt ok => exact advances_createStream L flt ok p now nowMs
  | createFork p now nowMs flt ok => exact advances_createFork L flt ok p now nowMs
  | @softDelete _ _ ok => cases ok <;> exact .none rfl
  | delete => exact .none (nextID_deleteStreamLocked _ _ _)
  | @dropForkRef _ _ ok => cases ok <;> exact .none rfl
  | cascade => exact .none (nextID_deleteStreamLocked _ _ _)
  | expire => exact .none (nextID_deleteStreamLocked _ _ _)
  | noChunk => exact .none (nextID_setPhase _ _ _ _)
  | chunk => exact .none (nextID_setPhase _ _ _ _)
  | crash => exact absurd rfl (hcrash _ _)
  | _ => exact .none rfl

theorem unsynced_of_step (h : ServerInv srv) {L : GoLib} {e : Event} (he : step L srv e = some srv') :
    ∀ db ∈ srv'.unsynced, db ∈ srv.db :: srv.unsynced := by
  cases h.moves he with
  | calm c => exact c.unsynced
  | softDeleted => exact (calm_softDeleteLocked h e.ok _ _).unsynced
  | created _ c => rw [c.unsynced]; exact fun _ hm => absurd hm not_mem_nil
  | deleted _ d =>
    rw [d.unsynced]
    intro db hm
    split at hm
    · cases hm
    · exact mem_cons_of_mem _ hm
  | released =>
    intro db hm
    cases hok : e.ok with
    | false => rw [hok] at hm; exact mem_cons_of_mem _ hm
    | true => rw [hok] at hm; cases hm
  | restarted => exact nofun

end Server

/-! ## The ledger -/

/-- A server and all ids handed out so far, oldest first. -/
structure Ledger where
  srv : Server
  allocated : List Nat := []

namespace Ledger

inductive Event where
  | server (e : Server.Event)
  | bulkProvision (p : Provision) (n : Nat) (ok : Bool := true)

def step (L : GoLib) (s : Ledger) : Event → Option Ledger
  | .server e => (Server.step L s.srv e).map fun srv => ⟨srv, s.allocated ++ s.srv.allocates L e⟩
  | .bulkProvision p n ok =>
    if s.srv.held.isSome then none
    else some ⟨s.srv.bulkProvisionBatch ok p n,
      s.allocated ++ if ok then newIDs (p.ops s.srv.nextID n) else []⟩

/-- Bulk provisioning is called on paths without metadata. -/
def FreshPaths (s : Ledger) : Event → Prop
  | .server _ => True
  | .bulkProvision p n _ => p.Fresh n s.srv.db

instance (s : Ledger) : ∀ e, Decidable (s.FreshPaths e) := fun e => by
  cases e <;> (dsimp only [FreshPaths, Provision.Fresh]; infer_instance)

end Ledger

/-- The ids handed out are 1, 2, 3, … up to the counter, which a crash does not lose. -/
structure LedgerInv (s : Ledger) : Prop where
  server : ServerInv s.srv
  ids : s.allocated = List.range' 1 (s.srv.nextID - 1)
  counters : ∀ db ∈ s.srv.unsynced, recoverNextID db = s.srv.nextID

namespace LedgerInv

variable {s : Ledger}

theorem start (seen : Nat) : LedgerInv ⟨newServer ∅ seen, []⟩ :=
  ⟨ServerInv.start catalog_empty seen, rfl, nofun⟩

/-- A step that hands out the next ids. -/
theorem advanced (h : LedgerInv s) {srv' : Server} {ids : List Nat} (hi : ServerInv srv') (a : s.srv.Advances srv' ids)
    (hu : ∀ db ∈ srv'.unsynced, db ∈ s.srv.db :: s.srv.unsynced) : LedgerInv ⟨srv', s.allocated ++ ids⟩ := by
  have hpos : 0 < s.srv.nextID := h.server.nextID ▸ recoverNextID_pos _
  refine ⟨hi, ?_, fun db hdb => ?_⟩
  · show s.allocated ++ ids = List.range' 1 (srv'.nextID - 1)
    rw [h.ids, a.next, a.counter]
    generalize ids.length = k
    rw [show s.srv.nextID + k - 1 = (s.srv.nextID - 1) + k by omega, ← range'_append_1]
    congr 2
    omega
  · rcases a.synced with rfl | hs
    · rw [a.counter]
      rcases mem_cons.mp (hu db hdb) with rfl | hdb
      · exact h.server.nextID.symm
      · exact h.counters db hdb
    · rw [hs] at hdb
      cases hdb

/-- **Every step keeps the list and the counter together.** -/
theorem step (h : LedgerInv s) {L : GoLib} {e : Ledger.Event} {s' : Ledger} (hf : s.FreshPaths e)
    (he : s.step L e = some s') : LedgerInv s' := by
  cases e with
  | server e =>
    obtain ⟨srv', hs, rfl⟩ := map_eq_some_iff.mp he
    have hi := h.server.step hs
    by_cases hcrash : ∀ lost seen, e.action ≠ .crash lost seen
    · exact h.advanced hi (Server.ids_of_step hs hcrash) (Server.unsynced_of_step h.server hs)
    · -- a restart recovers the counter
      simp only [not_forall, not_not] at hcrash
      obtain ⟨lost, seen, hc⟩ := hcrash
      obtain ⟨action, flt, ok⟩ := e
      cases hc
      obtain ⟨db, hdb, rfl⟩ := map_eq_some_iff.mp hs
      have hn : recoverNextID db = s.srv.nextID := by
        rcases mem_cons.mp (mem_of_getElem? hdb) with rfl | hdb
        · exact h.server.nextID.symm
        · exact h.counters db hdb
      refine ⟨hi, ?_, nofun⟩
      show s.allocated ++ [] = List.range' 1 (recoverNextID db - 1)
      rw [append_nil, hn]
      exact h.ids
  | bulkProvision p n ok =>
    simp only [Ledger.step] at he
    split at he
    · cases he
    · rename_i hheld
      cases he
      refine h.advanced (h.server.bulkProvisionBatch (not_isSome_iff_eq_none.mp hheld) ok p hf)
        (Server.advances_bulkProvisionBatch ok p n) fun db hdb => ?_
      cases ok with
      | false => exact mem_cons_of_mem _ hdb
      | true => cases hdb

end LedgerInv

/-- **Stream identity is a bijection.** In every state of every run, whatever fails, the metadata of a path names an id
if and only if the id is mapped to the path, and different paths have different ids. All ids ever handed out are below
the stored counter, and none has been handed out twice. -/
theorem identity_bijection (L : GoLib) (seen : Nat) (s : Ledger)
    (hr : Reach (Ledger.step L) Ledger.FreshPaths ⟨newServer ∅ seen, []⟩ s) :
    (∀ path id, (s.srv.db.metaAt path).map StreamMeta.streamID = some id ↔ s.srv.db.idMappingAt id = some path) ∧
      (∀ path path' m m', s.srv.db.metaAt path = some m → s.srv.db.metaAt path' = some m' →
        m.streamID = m'.streamID → path = path') ∧
      (∀ id ∈ s.allocated, ∃ counter, s.srv.db.lookup .idCounterKey = some counter ∧ id < counter) ∧
      s.srv.nextID = max 1 ((s.srv.db.lookup .idCounterKey).getD 0) ∧ s.allocated.Nodup ∧
      ∀ path m, s.srv.db.metaAt path = some m → m.streamID ∈ s.allocated := by
  have h : LedgerInv s := hr.invariant (fun _ _ _ h hf he => h.step hf he) (.start seen)
  have hc := h.server.stored
  have hn := h.server.nextID
  refine ⟨fun path id => ?_, fun path path' m m' hm hm' he => hc.path_eq hm hm' he, fun id hid => ?_, ?_, ?_,
    fun path m hm => ?_⟩
  · rw [map_eq_some_iff]
    exact (hc.mapped id path).symm
  · rw [h.ids, mem_range'_1] at hid
    unfold recoverNextID at hn
    split at hn
    · rename_i counter hl
      split at hn
      · exact ⟨counter, hl, by omega⟩
      · omega
    · omega
  · rw [hn, recoverNextID]
    split
    · rename_i counter hl
      rw [hl, getD_some]
      split
      · exact (Nat.max_eq_right ‹_›).symm
      · exact (Nat.max_eq_left (Nat.le_of_not_le ‹_›)).symm
    · rename_i hl
      rw [hl]
      rfl
  · rw [h.ids]
    exact nodup_range'
  · obtain ⟨hlt, hpos⟩ := hc.ids path m hm
    rw [h.ids, mem_range'_1, hn]
    omega

/-- A stream is created and deleted, a batch of two streams follows, the server restarts, the first path is created
again, and one of the batch is forked. -/
def identityEvents : List Ledger.Event :=
  [.server { action := .createStream { path := samplePath, contentType := [], body := [1] } 0 0 },
    .server { action := .deleteStream samplePath },
    .bulkProvision { pathPrefix := ascii "/s", start := 9, contentType := [] } 2,
    .server { action := .crash 0 0 },
    .server { action := .createStream { path := samplePath, contentType := [] } 0 0 },
    .server { action := .createFork { path := forkPath, sourcePath := ascii "/s10" } 0 0 }]

/-- Five ids have been handed out; the first path has its second one. -/
theorem identity_bijection_sample : ∃ s, Reach (Ledger.step plainLib) Ledger.FreshPaths ⟨newServer ∅ 0, []⟩ s ∧
    s.allocated = [1, 2, 3, 4, 5] ∧ s.srv.db.idMappingAt 3 = some (ascii "/s10") ∧
    s.srv.db.idMappingAt 4 = some samplePath ∧ s.srv.nextID = 6 ∧ s.allocated.Nodup := by
  obtain ⟨s, hs, hids, h4, h3, hc⟩ : ∃ s ∈ run (guarded (Ledger.step plainLib) fun s e => s.FreshPaths e) ⟨newServer ∅
      0, []⟩ identityEvents, s.allocated = [1, 2, 3, 4, 5] ∧
      (s.srv.db.metaAt samplePath).map StreamMeta.streamID = some 4 ∧ (s.srv.db.metaAt (ascii "/s10")).map
      StreamMeta.streamID = some 3 ∧ (s.srv.db.lookup .idCounterKey).getD 0 = 6 := by decide
  have hr := reach_guarded hs
  obtain ⟨hiff, -, -, hnext, hnodup, -⟩ := identity_bijection plainLib 0 s hr
  refine ⟨s, hr, hids, (hiff _ _).mp h3, (hiff _ _).mp h4, ?_, hnodup⟩
  rw [hnext, hc]
  rfl

end Yasdb
