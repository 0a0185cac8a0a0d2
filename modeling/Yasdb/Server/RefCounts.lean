import Yasdb.Server.Sources

/-!
# Reference counts

The stored reference count of a stream is the number of its forks, and a soft-deleted stream has forks (`Accounts`). In
the middle of a delete the books are open at one place: the source of a removed fork still counts it, or a soft-deleted
source without forks is about to go.

- `CountsInv.step`: a step without failures, expiries and crashes keeps the invariant;
- `Cascading.finish`: the releases that follow a hard delete end, and remove what they should;
- `ref_counts_exact`: **reference counts under explicit deletes**.
-/

namespace Yasdb

open Batch Runs List Option Server Set Store

variable {id count : Nat} {L : GoLib} {p : Bytes}
  {t : TombReason × Nat} {records : List Bytes} {m' : StreamMeta} {e : Event}

/-! ## The books of a store -/

/-- The release that a delete in progress owes to a source. -/
def owed (held : Option Task) (id : Nat) : Nat := if held = some (.dropForkRef id) then 1 else 0

/-- Every count is exact, up to the release that is owed, and every tombstone is that of a soft-deleted stream that is
still referenced, or is deleted next. -/
structure Accounts (db : Store) (held : Option Task) : Prop where
  exact : ∀ id, id ≠ 0 → db.refCountAt id = (forksOf db id).ncard + owed held id
  tombs : ∀ path t, db.tombstoneAt path = some t → t.1 = .tombSoftDelete ∧ ∃ m, db.metaAt path = some m ∧
    (0 < db.refCountAt m.streamID ∨ ∃ m', held = some (.deleteStreamLocked path m'))

theorem owed_release (m : StreamMeta) (h0 : id ≠ 0) :
    owed (if m.forkedFrom ≠ 0 then some (.dropForkRef m.forkedFrom) else none) id =
      if m.forkedFrom = id then 1 else 0 := by
  unfold owed
  by_cases hf : m.forkedFrom = id
  · subst hf
    simp [h0]
  · split <;> simp [hf]

theorem softDeleted_some {t : Option (TombReason × Nat)} (h : softDeleted t = true) : ∃ u, t = some u := by
  obtain ⟨u, hu, -⟩ := (Option.any_eq_true _ _).mp h
  exact ⟨u, hu⟩

namespace Accounts

variable {db db' : Store} {held : Option Task}

theorem empty : Accounts ∅ none := by
  refine ⟨fun id _ => ?_, nofun⟩
  have : forksOf ∅ id = ∅ := eq_empty_of_forall_notMem fun p ⟨_, h, _⟩ => by cases h
  rw [this, ncard_empty]
  rfl

variable {path : Bytes} {m : StreamMeta}

section

variable (a : Accounts db held)
include a

theorem softDeleted (h : db.tombstoneAt path = some t) : softDeleted (db.tombstoneAt path) = true := by
  rw [h]
  exact decide_eq_true (a.tombs path t h).1

theorem of_grows (g : Grows db db')
    (ht : ∀ p t, db'.tombstoneAt p = some t → t.1 = .tombSoftDelete ∧ ∃ m, db.metaAt p = some m ∧
      (0 < db.refCountAt m.streamID ∨ ∃ m', held = some (.deleteStreamLocked p m'))) : Accounts db' held := by
  refine ⟨fun id hid => ?_, fun path t hpt => ?_⟩
  · rw [g.refs, g.forksOf]
    exact a.exact id hid
  · obtain ⟨hsoft, m, hm, hpos⟩ := ht path t hpt
    obtain ⟨m', hm', hl⟩ := g.kept hm
    refine ⟨hsoft, m', hm', ?_⟩
    rw [g.refs, show m'.streamID = m.streamID from congrArg Prod.fst hl]
    exact hpos

theorem grown (g : Grows db db') (ht : ∀ p, db'.tombstoneAt p = db.tombstoneAt p) : Accounts db' held :=
  a.of_grows g fun p t hpt => a.tombs p t ((ht p).symm.trans hpt)

theorem soft (hm : db.metaAt path = some m) (hpos : 0 < db.refCountAt m.streamID)
    (g : Grows db db')
    (ht : ∀ p, db'.tombstoneAt p = if p = path then some (.tombSoftDelete, m.streamID) else db.tombstoneAt p) :
    Accounts db' held := by
  refine a.of_grows g fun p t hpt => ?_
  rw [ht] at hpt
  split at hpt
  · rename_i hp
    cases hpt
    exact ⟨rfl, m, hp ▸ hm, Or.inl hpos⟩
  · exact a.tombs p t hpt

end

/-- A new stream, counted by its source. -/
theorem adds (a : Accounts db none) (ad : Adds db db' path m records count)
    (ht : ∀ p, db'.tombstoneAt p = db.tombstoneAt p)
    (hcount : m.forkedFrom ≠ 0 → count = db.refCountAt m.forkedFrom + 1) : Accounts db' none := by
  have hfresh : ∀ id, path ∉ forksOf db id := fun _ ⟨m', hm', _⟩ => by rw [ad.fresh] at hm'; cases hm'
  refine ⟨fun id hid => ?_, fun p t hpt => ?_⟩
  · have ha := a.exact id hid
    rw [ad.refs, ad.forksOf_eq]
    by_cases hf : m.forkedFrom = id
    · have hf0 : m.forkedFrom ≠ 0 := hf ▸ hid
      rw [if_pos hf, if_pos ⟨hf0, hf.symm⟩, hcount hf0, hf, ha,
        ncard_insert_of_notMem (hfresh id) (finite_forksOf db id)]
      rfl
    · rw [if_neg hf, if_neg fun hn => hf hn.2.symm]
      exact ha
  · rw [ht] at hpt
    obtain ⟨hsoft, m', hm', hpos | ⟨_, hh⟩⟩ := a.tombs p t hpt
    · have hp : p ≠ path := fun he => by rw [he, ad.fresh] at hm'; cases hm'
      refine ⟨hsoft, m', (ad.metaAt_ne hp).trans hm', Or.inl ?_⟩
      rw [ad.refs]
      split
      · rename_i hf
        rw [hcount hf.1]
        omega
      · exact hpos
    · cases hh

/-- A stream without forks is removed, and its source is owed a release. -/
theorem removes (hc : Catalog db) (a : Accounts db held) (hm : db.metaAt path = some m')
    (hl : m'.lineage = m.lineage) (hnone : forksOf db m.streamID = ∅)
    (hheld : held = none ∨ held = some (.deleteStreamLocked path m)) (r : Removes db db' path m.streamID)
    (hzero : db'.refCountAt m.streamID = 0)
    (ht : ∀ p, db'.tombstoneAt p = if p = path then none else db.tombstoneAt p) :
    Accounts db' (if m.forkedFrom ≠ 0 then some (.dropForkRef m.forkedFrom) else none) := by
  have hid : m'.streamID = m.streamID := congrArg Prod.fst hl
  have hfrom : m'.forkedFrom = m.forkedFrom := congrArg (·.2.1) hl
  have hlt := (hc.ids path m' hm).2
  have hnow : ∀ id, owed held id = 0 := by
    intro id
    rcases hheld with rfl | rfl <;> rfl
  refine ⟨fun id h0 => ?_, fun p t hpt => ?_⟩
  · rw [owed_release m h0]
    by_cases he : id = m.streamID
    · rw [he, hzero, r.forksOf_eq, hnone, if_neg (by omega)]
      simp
    · have ha := a.exact id h0
      rw [hnow] at ha
      rw [r.exact hm he ha, hfrom]
  · rw [ht] at hpt
    split at hpt
    · cases hpt
    · rename_i hp
      obtain ⟨hsoft, m₁, hm₁, hpos⟩ := a.tombs p t hpt
      have hne : m₁.streamID ≠ m.streamID := fun he => hp (hc.path_eq hm₁ hm (he.trans hid.symm))
      refine ⟨hsoft, m₁, (r.rewrites.frame (.metaKey p) hp).trans hm₁, Or.inl ?_⟩
      rw [r.refs _ hne]
      rcases hpos with hpos | ⟨m₂, hh⟩
      · exact hpos
      · rcases hheld with rfl | rfl
        · cases hh
        · cases hh
          exact absurd rfl hp

/-- The release of a source. If it was the last one, a soft-deleted source goes next. -/
theorem recounts (a : Accounts db (some (.dropForkRef id))) (hid : id ≠ 0)
    (r : Recounts db db' id count) (hcount : count = db.refCountAt id - 1)
    (hnext : ∀ i, held ≠ some (.dropForkRef i))
    (hlast : ∀ path t m, db.tombstoneAt path = some t → db.metaAt path = some m → m.streamID = id → count = 0 →
      ∃ m', held = some (.deleteStreamLocked path m')) : Accounts db' held := by
  refine ⟨fun i h0 => ?_, fun path t hpt => ?_⟩
  · have ha := a.exact i h0
    rw [r.forksOf, owed, if_neg (hnext i)]
    by_cases he : i = id
    · subst he
      rw [owed, if_pos rfl] at ha
      rw [r.count, hcount, ha]
      rfl
    · rw [owed, if_neg (by simpa using Ne.symm he)] at ha
      rw [refCountAt_congr (r.same (.refCountKey i) (by simpa using he))]
      exact ha
  · rw [show db'.tombstoneAt path = db.tombstoneAt path from r.same (.tombstoneKey path) nofun] at hpt
    obtain ⟨hsoft, m, hm, hpos | ⟨_, hh⟩⟩ := a.tombs path t hpt
    · refine ⟨hsoft, m, (r.metaAt path).trans hm, ?_⟩
      by_cases he : m.streamID = id
      · by_cases h0 : count = 0
        · exact Or.inr (hlast path t m hpt hm he h0)
        · left
          rw [he, r.count]
          omega
      · left
        rw [refCountAt_congr (r.same (.refCountKey _) (by simpa using he))]
        exact hpos
    · cases hh

end Accounts

/-! ## Deletes without failures -/

namespace Server

theorem cascade_noFaults {db : Store} (hc : Catalog db) {path : Bytes} {m : StreamMeta} (hm : db.metaAt path = some m)
    (ht : db.tombstoneAt path = some t) :
    cascade noFaults db m.streamID 0 = some (.deleteStreamLocked path m) := by
  have hmap : get noFaults db (.idMappingKey m.streamID) = .ok (some path) := congrArg Except.ok (hc.mapping hm)
  have hmeta : get noFaults db (.metaKey path) = .ok (some m) := congrArg Except.ok hm
  have htomb : loadTombstone noFaults db path = .ok (some t) := congrArg Except.ok ht
  unfold cascade loadMetaByID loadMeta
  rw [hmap]
  simp only [hmeta, Except.map, map_some, htomb, Nat.lt_irrefl, if_false]

theorem recounts_dropForkRef (srv : Server) (id : Nat) :
    Recounts srv.db (srv.dropForkRef noFaults true id).db id (srv.db.refCountAt id - 1) := by
  unfold dropForkRef
  rw [loadRefCount_eq rfl]
  exact recounts_put _ _ _

theorem held_dropForkRef (srv : Server) (id : Nat) : (srv.dropForkRef noFaults true id).held =
    cascade noFaults (srv.dropForkRef noFaults true id).db id (srv.db.refCountAt id - 1) := by
  unfold dropForkRef
  rw [loadRefCount_eq rfl]

theorem deleteStream_noFaults (srv : Server) (ok : Bool) (path : Bytes) : srv.deleteStream noFaults ok path =
      if softDeleted (srv.db.tombstoneAt path) then srv
      else (srv.db.metaAt path).elim srv fun m =>
        if 0 < srv.db.refCountAt m.streamID then srv.softDeleteLocked ok path m
        else srv.deleteStreamLocked ok path m := by
  have htomb : loadTombstone noFaults srv.db path = .ok (srv.db.tombstoneAt path) := rfl
  have hmeta : loadMeta noFaults srv.db path = .ok (srv.db.metaAt path) := rfl
  unfold deleteStream
  rw [htomb, hmeta]
  cases srv.db.metaAt path with
  | none => rfl
  | some m => simp only [@loadRefCount_eq noFaults _ _ rfl, elim_some, gt_iff_lt]

end Server

/-! ## The server -/

/-- The step does not fail, is no expiry, and is no crash in the middle of a delete. -/
def Explicit (srv : Server) (e : Event) : Prop :=
  e.flt = noFaults ∧ e.ok = true ∧ e.action ≠ .expire ∧ ∀ lost seen, e.action = .crash lost seen → srv.held = none

theorem Explicit.sparesForks {srv : Server} (h : Explicit srv e) : SparesForks srv e :=
  ⟨fun id hf => (by rw [h.1] at hf; cases hf), fun _ _ _ _ _ he => absurd he h.2.2.1⟩

/-- The books of the server; between two deletes also those of the stores that a crash may fall back to. -/
structure CountsInv (srv : Server) : Prop where
  forks : ForksInv srv
  accounts : Accounts srv.db srv.held
  settled : srv.held = none → ∀ db ∈ srv.unsynced, Accounts db none
  deleting : ∀ path m, srv.held = some (.deleteStreamLocked path m) → softDeleted (srv.db.tombstoneAt path) = true

namespace CountsInv

variable {srv srv' : Server}

section

variable (h : CountsInv srv)
include h

theorem catalog : Catalog srv.db := h.forks.server.stored

omit h in
theorem start {db : Store} (hf : ForksInv (newServer db 0)) (ha : Accounts db none) (seen : Nat) :
    CountsInv (newServer db seen) := by
  have hs : ForksInv (newServer db seen) :=
    ForksInv.start hf.server.stored (hf.sourced db mem_cons_self) (hf.counted db mem_cons_self) seen
  exact ⟨hs, ha, nofun, nofun⟩

theorem calm (hi : ServerInv srv') (c : srv.Calm srv')
    (ht : ∀ p, srv'.db.tombstoneAt p = srv.db.tombstoneAt p) : CountsInv srv' := by
  refine ⟨h.forks.calm hi c, ?_, fun hn db hdb => ?_, fun path m hh => ?_⟩
  · rw [c.held]
    exact h.accounts.grown c.grows ht
  · rw [c.held] at hn
    rcases mem_cons.mp (c.unsynced db hdb) with rfl | hdb
    · exact hn ▸ h.accounts
    · exact h.settled hn db hdb
  · rw [c.held] at hh
    rw [ht]
    exact h.deleting path m hh

variable {path : Bytes} {m : StreamMeta}

theorem created (hf : ForksInv srv') (hheld : srv.held = none) (c : srv.Created srv' path m records count)
    (ht : ∀ p, srv'.db.tombstoneAt p = srv.db.tombstoneAt p)
    (hcount : m.forkedFrom ≠ 0 → count = srv.db.refCountAt m.forkedFrom + 1) : CountsInv srv' := by
  have hnone : srv'.held = none := c.held.trans hheld
  refine ⟨hf, ?_, fun _ db hdb => ?_, fun path m hh => ?_⟩
  · rw [hnone]
    exact Accounts.adds (hheld ▸ h.accounts) c.adds ht hcount
  · rw [c.unsynced] at hdb; cases hdb
  · rw [hnone] at hh; cases hh

theorem softDeleteLocked (hheld : srv.held = none) (hm : srv.db.metaAt path = some m)
    (hpos : 0 < srv.db.refCountAt m.streamID) : CountsInv (srv.softDeleteLocked true path m) := by
  have c := calm_softDeleteLocked h.forks.server true path m
  have hnone : (srv.softDeleteLocked true path m).held = none := c.held.trans hheld
  refine ⟨h.forks.calm (h.forks.server.softDeleteLocked true path m) c, ?_, nofun,
    fun path m hh => ?_⟩
  · rw [hnone]
    exact Accounts.soft (hheld ▸ h.accounts) hm hpos c.grows (srv.tombstoneAt_softDeleteLocked path m)
  · rw [hnone] at hh; cases hh

/-- A hard delete of a stream without forks, by request or as the next one of a cascade. -/
theorem deleted (hf : ForksInv srv')
    (hheld : srv.held = none ∨ srv.held = some (.deleteStreamLocked path m)) (hm : srv.db.metaAt path = some m')
    (hl : m'.lineage = m.lineage) (hnone : forksOf srv.db m.streamID = ∅) (d : srv.Deleted srv' true path m) :
    CountsInv srv' := by
  have hid : m'.streamID = m.streamID := congrArg Prod.fst hl
  obtain ⟨hdb, hu, hh⟩ := d
  rw [if_pos rfl] at hdb hu
  simp only [true_and] at hh
  have ha := h.accounts.removes h.catalog hm hl hnone hheld (removes_delete h.catalog hm hid)
    (refCountAt_deleteOps srv.db path m) (tombstoneAt_deleteOps srv.db path m)
  rw [← hdb, ← hh] at ha
  refine ⟨hf, ha, fun _ db hm' => ?_, fun p m₁ hp => ?_⟩
  · rw [hu] at hm'
    cases hm'
  · rw [hh] at hp
    split at hp <;> cases hp

/-- The release of a source. -/
theorem dropForkRef (hheld : srv.held = some (.dropForkRef id)) : CountsInv (srv.dropForkRef noFaults true id) := by
  have hf := h.forks.dropForkRef noFaults true hheld nofun
  have r := srv.recounts_dropForkRef id
  have hnext := srv.held_dropForkRef id
  have htomb : ∀ p, (srv.dropForkRef noFaults true id).db.tombstoneAt p = srv.db.tombstoneAt p :=
    fun p => r.same (.tombstoneKey p) nofun
  refine ⟨hf, ?_, nofun, fun path m hh => ?_⟩
  · refine Accounts.recounts (hheld ▸ h.accounts) (h.forks.dropping id hheld).1 r rfl (fun i hi => ?_)
      fun path t m ht hm hid h0 => ?_
    · rw [hnext] at hi
      obtain ⟨-, _, _, hcas, -⟩ := cascade_some hi
      cases hcas
    · subst hid
      rw [hnext, h0]
      exact ⟨m, cascade_noFaults hf.server.stored ((r.metaAt path).trans hm) ((htomb path).trans ht)⟩
  · rw [hnext] at hh
    unfold cascade at hh
    split at hh
    · cases hh
    · split at hh
      · split at hh
        · rename_i t ht
          cases hh
          have ht := get_ok ht
          rw [htomb]
          exact h.accounts.softDeleted ((htomb path).symm.trans ht)
        · cases hh
      · cases hh

/-- **A step that meets the condition keeps the books.** -/
theorem step (hx : Explicit srv e)
    (he : step L srv e = some srv') : CountsInv srv' := by
  have hs := hx.sparesForks
  have hf := h.forks.step hs he
  obtain ⟨action, flt, ok⟩ := e
  obtain ⟨rfl, rfl, -, hcrash⟩ := hx
  cases h.forks.server.moves he with
  | calm c ht _ => exact h.calm hf.server c ht
  | softDeleted hidle hm hpos =>
    rw [loadRefCount_eq rfl] at hpos
    exact h.softDeleteLocked hidle hm hpos
  | created hidle c ht hsrc =>
    refine h.created hf hidle c ht fun hn => ?_
    rw [(hsrc hn).2, loadRefCount_eq rfl]
  | deleted why d =>
    obtain ⟨⟨m', hm', hl⟩, hnone⟩ := h.forks.unforked hs why
    refine h.deleted hf ?_ hm' hl hnone d
    cases why with
    | asked hidle => exact Or.inl hidle
    | next hheld => exact Or.inr hheld
    | expired hidle => exact Or.inl hidle
  | released hheld => exact h.dropForkRef hheld
  | @restarted lost seen hcr db hdb =>
    have hn := hcrash lost seen hcr
    have ha : Accounts db none := by
      rcases mem_cons.mp hdb with rfl | hdb
      · exact hn ▸ h.accounts
      · exact h.settled hn db hdb
    exact ⟨hf, ha, nofun, nofun⟩

end

theorem deleteStream (h : CountsInv srv) (hidle : srv.held = none) (path : Bytes) :
    CountsInv (srv.deleteStream noFaults true path) := by
  refine h.step (L := plainLib) (e := { action := .deleteStream path }) ⟨rfl, rfl, nofun, nofun⟩ ?_
  simp only [Server.step, hidle, isSome_none, Bool.false_eq_true, if_false]

theorem reach (hr : Reach (Server.step L) Explicit srv srv') (h : CountsInv srv) : CountsInv srv' :=
  hr.invariant (fun _ _ _ h hx he => h.step hx he) h

end CountsInv

/-! ## A whole delete -/

/-- A delete up to its `n + 1`st commit. -/
def deleteCall (path : Bytes) (n : Nat) : List Event :=
  { action := .deleteStream path } :: List.replicate n { action := .goOn }

/-- What a hard delete of `path` removes: the stream itself, and every soft-deleted source all of whose forks go. -/
inductive Reclaimed (db : Store) (path : Bytes) : Bytes → Prop where
  | self : Reclaimed db path path
  | source {p a : Bytes} {m src : StreamMeta} (h : Reclaimed db path p) (hm : db.metaAt p = some m)
      (ha : db.metaAt a = some src) (hid : src.streamID = m.forkedFrom)
      (hsoft : softDeleted (db.tombstoneAt a) = true)
      (hforks : ∀ q ∈ forksOf db src.streamID, Reclaimed db path q) : Reclaimed db path a

/-- From `db₀` to `db`, only streams that are to be removed are gone, and the others keep their tombstones. -/
structure Reclaims (db₀ : Store) (path : Bytes) (db : Store) : Prop where
  metas : ∀ p, db.metaAt p = db₀.metaAt p ∨ (db.metaAt p = none ∧ Reclaimed db₀ path p)
  tombs : ∀ p, db.metaAt p ≠ none → db.tombstoneAt p = db₀.tombstoneAt p

namespace Reclaims

variable {db₀ db db' : Store} {path : Bytes}

theorem refl (db₀ : Store) (path : Bytes) : Reclaims db₀ path db₀ := ⟨fun _ => Or.inl rfl, fun _ _ => rfl⟩

section

variable (h : Reclaims db₀ path db)
include h

theorem origin {m : StreamMeta} (hm : db.metaAt p = some m) : db₀.metaAt p = some m := by
  rcases h.metas p with he | ⟨hn, -⟩
  · exact he.symm.trans hm
  · rw [hn] at hm; cases hm

theorem removes {a : Bytes} (r : Removes db db' a id)
    (ht : ∀ p, db'.tombstoneAt p = if p = a then none else db.tombstoneAt p) (ha : Reclaimed db₀ path a) :
    Reclaims db₀ path db' := by
  have hkeep : ∀ p, p ≠ a → db'.metaAt p = db.metaAt p := fun p hp => r.rewrites.frame (.metaKey p) hp
  refine ⟨fun p => ?_, fun p hp => ?_⟩
  · by_cases hpa : p = a
    · subst hpa
      exact Or.inr ⟨r.removed, ha⟩
    · rw [hkeep p hpa]
      exact h.metas p
  · have hpa : p ≠ a := fun he => hp (he ▸ r.removed)
    rw [ht, if_neg hpa]
    exact h.tombs p (hkeep p hpa ▸ hp)

theorem recounts (r : Recounts db db' id count) : Reclaims db₀ path db' := by
  refine ⟨fun p => ?_, fun p hp => ?_⟩
  · rw [r.metaAt]
    exact h.metas p
  · rw [r.metaAt] at hp
    exact (r.same (.tombstoneKey p) nofun).trans (h.tombs p hp)

end

end Reclaims

/-- How far a delete in progress still has to go: ids fall along a fork chain. -/
def rank : Option Task → Nat
  | none => 0
  | some (.dropForkRef id) => 2 * id + 1
  | some (.deleteStreamLocked _ m) => 2 * m.streamID

/-- A hard delete of `path` is under way since the store was `db₀`. -/
structure Cascading (db₀ : Store) (path : Bytes) (srv : Server) : Prop where
  counts : CountsInv srv
  reclaims : Reclaims db₀ path srv.db
  gone : srv.db.metaAt path = none
  dropping : ∀ id, srv.held = some (.dropForkRef id) →
    ∃ p m, Reclaimed db₀ path p ∧ db₀.metaAt p = some m ∧ m.forkedFrom = id
  deleting : ∀ a m, srv.held = some (.deleteStreamLocked a m) → srv.db.metaAt a = some m ∧ Reclaimed db₀ path a

namespace Cascading

variable {db₀ : Store} {path : Bytes} {srv : Server}

/-- One hard delete, the first one or one of the cascade. -/
theorem delete (h : CountsInv srv) (hr : Reclaims db₀ path srv.db) {a : Bytes} {m : StreamMeta}
    (hheld : srv.held = none ∨ srv.held = some (.deleteStreamLocked a m)) (hgone : a = path ∨ srv.db.metaAt path = none)
    (hm : srv.db.metaAt a = some m) (hnone : forksOf srv.db m.streamID = ∅) (ha : Reclaimed db₀ path a) :
    Cascading db₀ path (srv.deleteStreamLocked true a m) ∧
      rank (srv.deleteStreamLocked true a m).held < 2 * m.streamID := by
  have r := removes_delete h.catalog hm rfl
  have hlt := (h.catalog.ids a m hm).2
  have hheld' : (srv.deleteStreamLocked true a m).held =
      if m.forkedFrom ≠ 0 then some (.dropForkRef m.forkedFrom) else none := rfl
  have d := srv.deleted true a m
  have hf := h.forks.deleted (h.forks.server.deleteStreamLocked true hm rfl) hm rfl hnone d
  refine ⟨⟨h.deleted hf hheld hm rfl hnone d, hr.removes r (tombstoneAt_deleteOps srv.db a m) ha, ?_,
    fun id hid => ?_, fun p m' hp => ?_⟩, ?_⟩
  · by_cases he : path = a
    · exact he ▸ r.removed
    · rcases hgone with hg | hg
      · exact absurd hg.symm he
      · exact (r.rewrites.frame (.metaKey path) he).trans hg
  · rw [hheld'] at hid
    split at hid
    · cases hid
      exact ⟨a, m, ha, hr.origin hm, rfl⟩
    · cases hid
  · rw [hheld'] at hp
    split at hp <;> cases hp
  · rw [hheld']
    split
    · simp only [rank]; omega
    · simp only [rank]; omega

section

variable (h : Cascading db₀ path srv)
include h

/-- One release of a source. If a delete of the source follows, all its forks are gone. -/
theorem drop (hheld : srv.held = some (.dropForkRef id)) : Cascading db₀ path (srv.dropForkRef noFaults true id) ∧
      rank (srv.dropForkRef noFaults true id).held < 2 * id + 1 := by
  have r := srv.recounts_dropForkRef id
  have hc := h.counts.dropForkRef hheld
  have hr := h.reclaims.recounts r
  -- the only thing that may follow is the delete of the source
  have hnext : ∀ t, (srv.dropForkRef noFaults true id).held = some t → ∃ a m, t = .deleteStreamLocked a m ∧
      (srv.dropForkRef noFaults true id).db.metaAt a = some m ∧ m.streamID = id := by
    intro t ht
    rw [srv.held_dropForkRef] at ht
    obtain ⟨-, a, m, rfl, hmap, hm⟩ := cascade_some ht
    exact ⟨a, m, rfl, hm, (hc.catalog.forksBelow id a m hmap hm).1⟩
  refine ⟨⟨hc, hr, (r.metaAt path).trans h.gone, fun i hi => ?_, fun a m ha => ?_⟩, ?_⟩
  · obtain ⟨_, _, ht, -⟩ := hnext _ hi
    cases ht
  · obtain ⟨_, _, ht, hm, hid⟩ := hnext _ ha
    cases ht
    obtain ⟨p, mp, hp, hmp, hfrom⟩ := h.dropping id hheld
    refine ⟨hm, .source hp hmp (hr.origin hm) (hid.trans hfrom.symm) ?_ fun q hq => ?_⟩
    · rw [← hr.tombs a (by rw [hm]; nofun)]
      exact hc.deleting a m ha
    · obtain ⟨mq, hmq, hfq⟩ := hq
      rcases hr.metas q with he | ⟨-, hq⟩
      · have hmem : q ∈ forksOf (srv.dropForkRef noFaults true id).db m.streamID := ⟨mq, he.trans hmq, hfq⟩
        rw [(hc.forks.deleting a m ha).2] at hmem
        exact hmem.elim
      · exact hq
  · cases ht : (srv.dropForkRef noFaults true id).held with
    | none => simp only [rank]; omega
    | some t =>
      obtain ⟨a, m, rfl, -, hid⟩ := hnext t ht
      simp only [rank]; omega

/-- **The cascade ends.** -/
theorem finish : ∃ n srv', run (step L) srv (List.replicate n { action := .goOn }) = some srv' ∧ srv'.held = none ∧
      Cascading db₀ path srv' := by
  induction hk : rank srv.held using Nat.strong_induction_on generalizing srv with
  | _ k ih =>
    -- a step on and, by induction, the rest
    have more : ∀ srv₁, step L srv { action := .goOn } = some srv₁ → Cascading db₀ path srv₁ →
        rank srv₁.held < k → ∃ n srv', run (step L) srv (List.replicate n { action := .goOn }) = some srv' ∧
          srv'.held = none ∧ Cascading db₀ path srv' := by
      intro srv₁ he hc hlt
      obtain ⟨n, srv', hrun, hn, hc'⟩ := ih _ hlt hc rfl
      refine ⟨n + 1, srv', ?_, hn, hc'⟩
      rw [replicate_succ, run, he]
      exact hrun
    cases hh : srv.held with
    | none => exact ⟨0, srv, rfl, hh, h⟩
    | some t =>
      rw [hh] at hk
      cases t with
      | dropForkRef id =>
        obtain ⟨hc, hlt⟩ := h.drop hh
        exact more _ (by simp only [step, hh]) hc (hk ▸ hlt)
      | deleteStreamLocked a m =>
        obtain ⟨hm, ha⟩ := h.deleting a m hh
        obtain ⟨hc, hlt⟩ := delete h.counts h.reclaims (Or.inr hh) (Or.inr h.gone) hm
          (h.counts.forks.deleting a m hh).2 ha
        exact more _ (by simp only [step, hh]) hc (hk ▸ hlt)

/-- When the cascade has ended, everything is gone that should be: a source that is left still has a fork. -/
theorem metaAt_reclaimed (hidle : srv.held = none)
    (hp : Reclaimed db₀ path p) : srv.db.metaAt p = none := by
  induction hp with
  | self => exact h.gone
  | @source p a m src _ _ ha _ hsoft _ _ ih =>
    rcases h.reclaims.metas a with he | ⟨hn, -⟩
    · have hm := he.trans ha
      obtain ⟨t, ht⟩ := softDeleted_some hsoft
      rw [← h.reclaims.tombs a (by rw [hm]; nofun)] at ht
      obtain ⟨-, m', hm', hpos | ⟨_, hh⟩⟩ := h.counts.accounts.tombs a t ht
      · cases hm.symm.trans hm'
        have hid := (h.counts.catalog.ids a src hm).2
        rw [h.counts.accounts.exact _ (by omega), hidle] at hpos
        obtain ⟨q, mq, hq, hf⟩ := (ncard_pos (finite_forksOf _ _)).mp hpos
        rw [ih q ⟨mq, h.reclaims.origin hq, hf⟩] at hq
        cases hq
      · rw [hidle] at hh; cases hh
    · exact hn

theorem metaAt_kept (hp : ¬ Reclaimed db₀ path p) : srv.db.metaAt p = db₀.metaAt p :=
  (h.reclaims.metas p).resolve_right fun hn => hp hn.2

end

end Cascading

theorem run_deleteCall {srv : Server} (hidle : srv.held = none) (path : Bytes) (n : Nat) :
    run (step L) srv (deleteCall path n) =
      run (step L) (srv.deleteStream noFaults true path) (List.replicate n { action := .goOn }) := by
  have hstep : step L srv { action := .deleteStream path } = some (srv.deleteStream noFaults true path) := by
    simp only [step, hidle, isSome_none, Bool.false_eq_true, if_false]
  rw [deleteCall, run, hstep]
  rfl

theorem countsInv_start (seen : Nat) : CountsInv (newServer ∅ seen) :=
  CountsInv.start (ForksInv.start_empty 0) .empty seen

namespace CountsInv

variable {srv : Server} (h : CountsInv srv) (hidle : srv.held = none)
include h hidle

theorem referenced {path : Bytes} (ht : softDeleted (srv.db.tombstoneAt path) = true) :
    ∃ m, srv.db.metaAt path = some m ∧ 0 < srv.db.refCountAt m.streamID := by
  obtain ⟨t, ht⟩ := softDeleted_some ht
  obtain ⟨-, m, hm, hpos | ⟨_, hh⟩⟩ := h.accounts.tombs path t ht
  · exact ⟨m, hm, hpos⟩
  · rw [hidle] at hh; cases hh

variable {path : Bytes} {m : StreamMeta} (hm : srv.db.metaAt path = some m)
include hm

theorem refCountAt_eq : srv.db.refCountAt m.streamID = (forksOf srv.db m.streamID).ncard := by
  have hlt := (h.catalog.ids _ _ hm).2
  rw [h.accounts.exact _ (by omega), hidle]
  rfl

omit h in
theorem soft_delete (hpos : 0 < srv.db.refCountAt m.streamID) : (srv.deleteStream noFaults true path).held = none ∧
      softDeleted ((srv.deleteStream noFaults true path).db.tombstoneAt path) = true ∧
      ∀ p, (srv.deleteStream noFaults true path).db.metaAt p = srv.db.metaAt p := by
  rw [deleteStream_noFaults]
  split
  · exact ⟨hidle, ‹_›, fun _ => rfl⟩
  · rw [hm, elim_some, if_pos hpos, tombstoneAt_softDeleteLocked, if_pos rfl]
    exact ⟨hidle, rfl, srv.metaAt_softDeleteLocked path m⟩

theorem hard_delete (h0 : srv.db.refCountAt m.streamID = 0) :
    srv.deleteStream noFaults true path = srv.deleteStreamLocked true path m ∧
      Cascading srv.db path (srv.deleteStreamLocked true path m) := by
  have hsoft : ¬ softDeleted (srv.db.tombstoneAt path) = true := by
    intro ht
    obtain ⟨m', hm', hpos⟩ := h.referenced hidle ht
    rw [hm, some.injEq] at hm'
    rw [← hm', h0] at hpos
    exact Nat.lt_irrefl 0 hpos
  have hnone : forksOf srv.db m.streamID = ∅ :=
    (ncard_eq_zero (finite_forksOf _ _)).mp (h.refCountAt_eq hidle hm ▸ h0)
  constructor
  · rw [deleteStream_noFaults, if_neg hsoft, hm, elim_some, if_neg (by omega)]
  · exact (Cascading.delete h (.refl _ _) (Or.inl hidle) (Or.inl rfl) hm hnone .self).1

end CountsInv

/-- **Reference counts are exact under explicit deletes.** Between the calls of a run without failures and expiries, the
count of every stream is the number of its forks. A delete ends, and removes the stream, with the soft-deleted sources
whose forks all go, if and only if its count is 0; otherwise it soft-deletes the stream. -/
theorem ref_counts_exact (L : GoLib) (seen : Nat) (srv : Server)
    (hr : Reach (Server.step L) Explicit (newServer ∅ seen) srv) (hidle : srv.held = none) :
    (∀ path m, srv.db.metaAt path = some m → srv.db.refCountAt m.streamID = (forksOf srv.db m.streamID).ncard) ∧
      (∀ path, softDeleted (srv.db.tombstoneAt path) = true →
        ∃ m, srv.db.metaAt path = some m ∧ 0 < srv.db.refCountAt m.streamID) ∧
      ∀ path m, srv.db.metaAt path = some m → ∃ n srv', run (Server.step L) srv (deleteCall path n) = some srv' ∧
        srv'.held = none ∧ (srv'.db.metaAt path = none ↔ srv.db.refCountAt m.streamID = 0) ∧
        (srv.db.refCountAt m.streamID = 0 → ∀ p, (Reclaimed srv.db path p → srv'.db.metaAt p = none) ∧
          (¬ Reclaimed srv.db path p → srv'.db.metaAt p = srv.db.metaAt p)) ∧
        (0 < srv.db.refCountAt m.streamID → softDeleted (srv'.db.tombstoneAt path) = true ∧
          ∀ p, srv'.db.metaAt p = srv.db.metaAt p) := by
  have h := CountsInv.reach hr (countsInv_start seen)
  refine ⟨fun path m hm => h.refCountAt_eq hidle hm, fun path ht => h.referenced hidle ht, fun path m hm => ?_⟩
  by_cases h0 : srv.db.refCountAt m.streamID = 0
  · obtain ⟨he, hc⟩ := h.hard_delete hidle hm h0
    obtain ⟨n, srv', hrun, hn, hc'⟩ := hc.finish (L := L)
    refine ⟨n, srv', ?_, hn, ?_, fun _ p => ⟨hc'.metaAt_reclaimed hn, hc'.metaAt_kept⟩, fun hpos => ?_⟩
    · rw [run_deleteCall hidle, he]
      exact hrun
    · exact ⟨fun _ => h0, fun _ => hc'.gone⟩
    · omega
  · obtain ⟨hn, hsoft, hkept⟩ := CountsInv.soft_delete hidle hm (by omega)
    refine ⟨0, _, ?_, hn, ?_, fun h => absurd h h0, fun _ => ⟨hsoft, hkept⟩⟩
    · exact run_deleteCall hidle path 0
    · rw [hkept, hm]
      exact ⟨nofun, fun h => absurd h h0⟩

/-- The source of the sample fork is soft-deleted. -/
def softEvents : List Event := forkEvents ++ [{ action := .deleteStream samplePath }]

theorem explicit_softEvents : ∀ e ∈ softEvents, ∀ s, Explicit s e := by
  intro e he s
  simp only [softEvents, forkEvents, cons_append, nil_append, mem_cons, not_mem_nil, or_false] at he
  rcases he with rfl | rfl | rfl | rfl | rfl
  all_goals exact ⟨rfl, rfl, by simp, by simp⟩

/-- What the sample run leads to. -/
theorem run_softEvents : ∃ srv src, run (step plainLib) (newServer ∅ 0) softEvents = some srv ∧
    srv.held = none ∧ softDeleted (srv.db.tombstoneAt samplePath) = true ∧ srv.db.metaAt forkPath = some forkMeta ∧
    srv.db.metaAt samplePath = some src ∧ src.streamID = 1 ∧ srv.db.refCountAt 1 = 1 ∧ srv.db.refCountAt 2 = 0 := by
  obtain ⟨srv, hs, src, hsrc, hidle, hsoft, hfork, hp⟩ : ∃ srv ∈ run (step plainLib) (newServer ∅ 0) softEvents,
      ∃ src ∈ srv.db.metaAt samplePath, srv.held = none ∧ softDeleted (srv.db.tombstoneAt samplePath) = true ∧
      srv.db.metaAt forkPath = some forkMeta ∧ src.streamID = 1 ∧ srv.db.refCountAt 1 = 1 ∧
      srv.db.refCountAt 2 = 0 := by decide
  exact ⟨srv, src, hs, hidle, hsoft, hfork, hsrc, hp⟩

/-- The soft-deleted source counts its one fork, and goes with it. -/
theorem ref_counts_exact_soft : ∃ srv, Reach (step plainLib) Explicit (newServer ∅ 0) srv ∧ srv.held = none ∧
    softDeleted (srv.db.tombstoneAt samplePath) = true ∧ (forksOf srv.db 1).ncard = 1 ∧
    ∃ n srv', run (step plainLib) srv (deleteCall forkPath n) = some srv' ∧ srv'.held = none ∧
      srv'.db.metaAt forkPath = none ∧ srv'.db.metaAt samplePath = none := by
  obtain ⟨srv, src, hs, hidle, hsoft, hfork, hsrc, hid, h1, h2⟩ := run_softEvents
  have hr := reach_of_run explicit_softEvents hs
  obtain ⟨hexact, -, hdelete⟩ := ref_counts_exact plainLib 0 srv hr hidle
  have hone : (forksOf srv.db 1).ncard = 1 := by
    have := hexact samplePath src hsrc
    rw [hid, h1] at this
    exact this.symm
  obtain ⟨n, srv', hrun', hidle', hgone, hreclaimed, -⟩ := hdelete forkPath forkMeta hfork
  have h2 : srv.db.refCountAt forkMeta.streamID = 0 := h2
  have hlast : Reclaimed srv.db forkPath samplePath := by
    refine .source .self hfork hsrc (hid.trans rfl) hsoft fun q hq => ?_
    obtain ⟨p, hp⟩ := Set.ncard_eq_one.mp hone
    have hmem : forkPath ∈ forksOf srv.db 1 := ⟨forkMeta, hfork, rfl⟩
    rw [hid, hp, Set.mem_singleton_iff] at hq
    rw [hp, Set.mem_singleton_iff] at hmem
    rw [hq, ← hmem]
    exact .self
  exact ⟨srv, hr, hidle, hsoft, hone, n, srv', hrun', hidle', hgone.mpr h2, (hreclaimed h2 samplePath).1 hlast⟩

end Yasdb
