import Yasdb.Server.Moves
import Yasdb.Server.Read
import Mathlib.Data.Set.Card

/-!
# The sources of forks

A fork reads the records below its offset from its source. `Sourced` says that the source of every fork is stored and
reaches the fork's offset, and `Counted` that no stream has more forks than its reference count says. The sweep deletes
a stream without looking at its count, and a count that cannot be read counts as 0; without both (`KeepsSources`) the
two hold in every state.

- `ForksInv.step`: a step that meets the condition keeps the invariant;
- `sources_kept`: **in such a run every fork keeps its sources**;
- `expiry_removes_source`: a sweep removes the source of a fork.
-/

namespace Yasdb

open Batch Runs List Option Server Nat StreamMeta

variable {p : Bytes} {m' : StreamMeta}

/-! ## Sources and reference counts -/

/-- The source of every fork is stored, with all that the fork inherits. -/
def Sourced (db : Store) : Prop :=
  ∀ path m, db.metaAt path = some m → m.forkedFrom ≠ 0 → ∃ p src, db.metaAt p = some src ∧
    src.streamID = m.forkedFrom ∧ m.forkOffset ≤ loadTailSeq db m.forkedFrom

/-- The paths of the forks of a stream. -/
def forksOf (db : Store) (id : Nat) : Set Bytes := {p | ∃ m, db.metaAt p = some m ∧ m.forkedFrom = id}

instance decidableMemForksOf (db : Store) (id : Nat) (p : Bytes) : Decidable (p ∈ forksOf db id) :=
  inferInstanceAs (Decidable (∃ m ∈ db.metaAt p, m.forkedFrom = id))

/-- No stream has more forks than its reference count. -/
def Counted (db : Store) : Prop := ∀ id, id ≠ 0 → (forksOf db id).ncard ≤ db.refCountAt id

theorem finite_forksOf (db : Store) (id : Nat) : (forksOf db id).Finite := by
  refine ((db.keys.finite_toSet).preimage (f := Key.metaKey) fun _ _ _ _ h => by cases h; rfl).subset ?_
  rintro p ⟨m, hm, -⟩
  exact Finmap.mem_keys.mpr (Finmap.mem_of_lookup_eq_some hm)

variable {db : Store} {m : StreamMeta}

theorem forksOf_eq_empty (h : Counted db) {id : Nat} (hid : id ≠ 0) (h0 : db.refCountAt id = 0) : forksOf db id = ∅ :=
  (Set.ncard_eq_zero (finite_forksOf db id)).mp (le_zero.mp (h0 ▸ h id hid))

/-- A count that is read is high enough; one that fails to be read is 0, which is enough for a stream without forks. -/
theorem Counted.le_loadRefCount {flt : Faults} (h : Counted db) {id : Nat} (hid : id ≠ 0)
    (hflt : flt (.refCountKey id) = true → forksOf db id = ∅) : (forksOf db id).ncard ≤ loadRefCount flt db id := by
  cases hf : flt (.refCountKey id) with
  | false =>
    rw [loadRefCount_eq hf]
    exact h id hid
  | true =>
    rw [hflt hf, Set.ncard_empty]
    exact zero_le _

section Grows

variable {db db' : Store} (g : Grows db db')
include g

theorem Grows.forksOf (id : Nat) : forksOf db' id = Yasdb.forksOf db id := by
  ext p
  constructor
  · rintro ⟨m, hm, rfl⟩
    obtain ⟨m', hm', hl⟩ := g.origin hm
    exact ⟨m', hm', (congrArg (·.2.1) hl).symm⟩
  · rintro ⟨m, hm, rfl⟩
    obtain ⟨m', hm', hl⟩ := g.kept hm
    exact ⟨m', hm', congrArg (·.2.1) hl⟩

theorem Grows.counted (h : Counted db) : Counted db' := by
  intro id hid
  rw [g.forksOf, g.refs]
  exact h id hid

theorem Grows.sourced (h : Sourced db) : Sourced db' := by
  intro path m hm hf
  obtain ⟨m₀, hm₀, hl⟩ := g.origin hm
  have hfrom : m.forkedFrom = m₀.forkedFrom := congrArg (·.2.1) hl
  have hoff : m.forkOffset = m₀.forkOffset := congrArg (·.2.2.1) hl
  obtain ⟨p, src, hsrc, hid, hle⟩ := h path m₀ hm₀ (hfrom ▸ hf)
  obtain ⟨src', hsrc', hl'⟩ := g.kept hsrc
  have ht := g.tails p src hsrc
  rw [hid] at ht
  refine ⟨p, src', hsrc', (congrArg Prod.fst hl').trans (hid.trans hfrom.symm), ?_⟩
  rw [hoff, hfrom]
  exact hle.trans ht

end Grows

section Adds

variable {db db' : Store} {path : Bytes} {m : StreamMeta} {records : List Bytes} {count : Nat}
  (h : Catalog db) (a : Adds db db' path m records count)
include h a

omit h in
theorem Adds.metaAt_ne (hp : p ≠ path) : db'.metaAt p = db.metaAt p := a.rewrites.frame (.metaKey p) hp

theorem Adds.tail_eq (hm : db.metaAt p = some m') : loadTailSeq db' m'.streamID = loadTailSeq db m'.streamID := by
  have hp : p ≠ path := fun he => by rw [he, a.fresh] at hm; cases hm
  have hne : m'.streamID ≠ m.streamID := h.ne_of_holds a.rewrites.before hp hm
  unfold loadTailSeq
  rw [show db'.tailAt m'.streamID = db.tailAt m'.streamID from a.rewrites.frame (.tailKey _) hne]

theorem Adds.sourced (hs : Sourced db)
    (hsrc : m.forkedFrom ≠ 0 → ∃ p src, db.metaAt p = some src ∧ src.streamID = m.forkedFrom ∧
      m.forkOffset ≤ loadTailSeq db m.forkedFrom) : Sourced db' := by
  have hold : ∀ m' : StreamMeta, (∃ p src, db.metaAt p = some src ∧ src.streamID = m'.forkedFrom ∧
      m'.forkOffset ≤ loadTailSeq db m'.forkedFrom) → ∃ p src, db'.metaAt p = some src ∧
        src.streamID = m'.forkedFrom ∧ m'.forkOffset ≤ loadTailSeq db' m'.forkedFrom := by
    rintro m' ⟨p, src, hp, hid, hle⟩
    have hne : p ≠ path := fun he => by rw [he, a.fresh] at hp; cases hp
    refine ⟨p, src, (a.metaAt_ne hne).trans hp, hid, ?_⟩
    have := a.tail_eq h hp
    rw [hid] at this
    rw [this]
    exact hle
  intro p m' hm' hf
  by_cases hp : p = path
  · rw [hp, a.added, some.injEq] at hm'
    subst hm'
    exact hold m (hsrc hf)
  · exact hold m' (hs p m' ((a.metaAt_ne hp).symm.trans hm') hf)

omit h in
theorem Adds.forksOf_eq (id : Nat) :
    forksOf db' id = if m.forkedFrom = id then insert path (forksOf db id) else forksOf db id := by
  have hold : ∀ p, p ≠ path → (p ∈ forksOf db' id ↔ p ∈ forksOf db id) := fun p hp => by
    show (∃ m, db'.metaAt p = some m ∧ m.forkedFrom = id) ↔ ∃ m, db.metaAt p = some m ∧ m.forkedFrom = id
    rw [a.metaAt_ne hp]
  have hnew : path ∈ forksOf db' id ↔ m.forkedFrom = id := by
    constructor
    · rintro ⟨m', hm', rfl⟩
      rw [a.added, some.injEq] at hm'
      rw [hm']
    · exact fun hf => ⟨m, a.added, hf⟩
  have hfresh : path ∉ forksOf db id := fun ⟨m', hm', _⟩ => by rw [a.fresh] at hm'; cases hm'
  ext p
  by_cases hp : p = path
  · subst hp
    rw [hnew]
    split <;> simp [*]
  · rw [hold p hp]
    split <;> simp [hp]

omit h in
theorem Adds.counted (hc : Counted db) (hcount : m.forkedFrom ≠ 0 → (forksOf db m.forkedFrom).ncard + 1 ≤ count) :
    Counted db' := by
  intro id hid
  rw [a.refs, a.forksOf_eq]
  by_cases hf : m.forkedFrom = id
  · have hf0 : m.forkedFrom ≠ 0 := hf ▸ hid
    rw [if_pos hf, if_pos ⟨hf0, hf.symm⟩]
    have h1 := Set.ncard_insert_le path (forksOf db id)
    have h2 := hcount hf0
    rw [hf] at h2
    omega
  · rw [if_neg hf, if_neg (fun hn => hf hn.2.symm)]
    exact hc id hid

end Adds

section Removes

variable {db db' : Store} {path : Bytes} {id : Nat} (r : Removes db db' path id)
  {m : StreamMeta} (hm : db.metaAt path = some m) (hid : m.streamID = id) (hnone : forksOf db id = ∅)
include r

theorem Removes.metaAt_some (hp : db'.metaAt p = some m') : p ≠ path ∧ db.metaAt p = some m' := by
  have hne : p ≠ path := fun he => by rw [he, r.removed] at hp; cases hp
  exact ⟨hne, (r.rewrites.frame (.metaKey p) hne).symm.trans hp⟩

include hm hid hnone in
theorem Removes.sourced (hs : Sourced db) : Sourced db' := by
  intro p m' hp hf
  obtain ⟨-, hp₀⟩ := r.metaAt_some hp
  obtain ⟨q, src, hq, hsid, hle⟩ := hs p m' hp₀ hf
  -- the source is another stream, because the removed one has no forks
  have hne : src.streamID ≠ id := by
    intro he
    have : p ∈ forksOf db id := ⟨m', hp₀, by rw [← hsid, he]⟩
    rw [hnone] at this
    exact this
  have hq' : q ≠ path := fun he => by
    rw [he, hm, some.injEq] at hq
    exact hne (hq ▸ hid)
  refine ⟨q, src, (r.rewrites.frame (.metaKey q) hq').trans hq, hsid, ?_⟩
  unfold loadTailSeq at hle ⊢
  rw [show db'.tailAt m'.forkedFrom = db.tailAt m'.forkedFrom from r.rewrites.frame (.tailKey _) (hsid ▸ hne)]
  exact hle

theorem Removes.forksOf_eq (i : Nat) : forksOf db' i = forksOf db i \ {path} := by
  ext p
  constructor
  · rintro ⟨m', hp, rfl⟩
    obtain ⟨hne, hp₀⟩ := r.metaAt_some hp
    exact ⟨⟨m', hp₀, rfl⟩, hne⟩
  · rintro ⟨⟨m', hp, rfl⟩, hne⟩
    exact ⟨m', (r.rewrites.frame (.metaKey p) hne).trans hp, rfl⟩

include hm in
theorem Removes.exact {i : Nat} (hi : i ≠ id) (ha : db.refCountAt i = (forksOf db i).ncard) :
    db'.refCountAt i = (forksOf db' i).ncard + if m.forkedFrom = i then 1 else 0 := by
  rw [r.refs i hi, ha, r.forksOf_eq]
  by_cases hf : m.forkedFrom = i
  · have hmem : path ∈ forksOf db i := ⟨m, hm, hf⟩
    rw [if_pos hf, Set.ncard_sdiff_singleton_add_one hmem (finite_forksOf db i)]
  · have hmem : path ∉ forksOf db i := by
      rintro ⟨m', hm', rfl⟩
      rw [hm, some.injEq] at hm'
      exact hf (by rw [hm'])
    rw [if_neg hf, Set.sdiff_singleton_eq_self hmem]
    rfl

include hnone in
theorem Removes.counted (hc : Counted db) : Counted db' := by
  intro i hi
  have hsub := (r.forksOf_eq i).subset.trans Set.sdiff_subset
  by_cases he : i = id
  · rw [he] at hsub ⊢
    rw [hnone, Set.subset_empty_iff] at hsub
    rw [hsub, Set.ncard_empty]
    exact zero_le _
  · rw [r.refs i he]
    exact (Set.ncard_le_ncard hsub (finite_forksOf db i)).trans (hc i hi)

include hm in
theorem Removes.released (hc : Counted db) (hf : m.forkedFrom ≠ 0) (hne : m.forkedFrom ≠ id) :
    (forksOf db' m.forkedFrom).ncard + 1 ≤ db'.refCountAt m.forkedFrom := by
  have hmem : path ∈ forksOf db m.forkedFrom := ⟨m, hm, rfl⟩
  have hfin := finite_forksOf db m.forkedFrom
  have h1 := Set.ncard_sdiff_singleton_add_one hmem hfin
  have h2 := hc m.forkedFrom hf
  rw [r.refs _ hne, r.forksOf_eq]
  omega

end Removes

section Recounts

variable {db db' : Store} {id count : Nat} (r : Recounts db db' id count)
include r

theorem Recounts.metaAt (path : Bytes) : db'.metaAt path = db.metaAt path := r.same (.metaKey path) nofun

theorem Recounts.forksOf (i : Nat) : forksOf db' i = Yasdb.forksOf db i := by
  unfold Yasdb.forksOf
  simp only [r.metaAt]

theorem Recounts.sourced (h : Sourced db) : Sourced db' := by
  have ht : ∀ i, loadTailSeq db' i = loadTailSeq db i := fun i => by
    unfold loadTailSeq
    rw [show db'.tailAt i = db.tailAt i from r.same (.tailKey i) nofun]
  intro path m hm hf
  simp only [r.metaAt, ht] at hm ⊢
  exact h path m hm hf

theorem Recounts.counted (h : Counted db) (hc : (Yasdb.forksOf db id).ncard ≤ count) : Counted db' := by
  intro i hi
  rw [r.forksOf]
  by_cases he : i = id
  · rw [he, r.count]
    exact hc
  · rw [refCountAt_congr (r.same (.refCountKey i) (by simpa using he))]
    exact h i hi

end Recounts

/-! ## The server -/

/-- The step reads every reference count, and a sweep does not come upon the deadline of a stream with forks. -/
def KeepsSources (srv : Server) (e : Event) : Prop :=
  (∀ id, e.flt (.refCountKey id) = false) ∧
    ∀ deadline id dues path m, e.action = .expire → srv.dues = (deadline, id) :: dues →
      srv.db.metaAt path = some m → m.streamID = id → m.deadline = deadline → srv.db.refCountAt id = 0

/-- A reference count that the step fails to read is that of a stream without forks, and a sweep does not come upon the
deadline of a stream with forks. -/
def SparesForks (srv : Server) (e : Event) : Prop :=
  (∀ id, e.flt (.refCountKey id) = true → forksOf srv.db id = ∅) ∧
    ∀ deadline id dues path m, e.action = .expire → srv.dues = (deadline, id) :: dues →
      srv.db.metaAt path = some m → m.streamID = id → m.deadline = deadline → forksOf srv.db id = ∅

/-- Sources and reference counts, also of the stores that a crash may fall back to, and of a delete in progress. -/
structure ForksInv (srv : Server) : Prop where
  server : ServerInv srv
  sourced : ∀ db ∈ srv.db :: srv.unsynced, Sourced db
  counted : ∀ db ∈ srv.db :: srv.unsynced, Counted db
  dropping : ∀ id, srv.held = some (.dropForkRef id) →
    id ≠ 0 ∧ (forksOf srv.db id).ncard + 1 ≤ srv.db.refCountAt id
  deleting : ∀ path m, srv.held = some (.deleteStreamLocked path m) →
    (∃ m', srv.db.metaAt path = some m' ∧ m'.lineage = m.lineage) ∧ forksOf srv.db m.streamID = ∅

namespace ForksInv

variable {srv srv' : Server}

theorem start {db : Store} (hc : Catalog db) (hs : Sourced db) (hn : Counted db) (seen : Nat) :
    ForksInv (newServer db seen) := by
  refine ⟨ServerInv.start hc seen, fun db' h => ?_, fun db' h => ?_, nofun, nofun⟩
  · rw [mem_singleton.mp h]; exact hs
  · rw [mem_singleton.mp h]; exact hn

theorem start_empty (seen : Nat) : ForksInv (newServer ∅ seen) := by
  refine ForksInv.start catalog_empty nofun (fun id _ => ?_) seen
  have : forksOf ∅ id = ∅ := Set.eq_empty_of_forall_notMem fun p ⟨_, h, _⟩ => by cases h
  rw [this, Set.ncard_empty]
  exact zero_le _

/-- A step that leaves the streams keeps the invariant. -/
theorem grown (h : ForksInv srv) (hi : ServerInv srv') (g : Grows srv.db srv'.db)
    (hu : ∀ db ∈ srv'.unsynced, db ∈ srv.db :: srv.unsynced) (hh : srv'.held = srv.held ∨ srv'.held = none) :
    ForksInv srv' := by
  have hheld : ∀ t, srv'.held = some t → srv.held = some t := by
    intro t ht
    rcases hh with hh | hh
    · rw [← hh]; exact ht
    · rw [hh] at ht; cases ht
  refine ⟨hi, fun db hdb => ?_, fun db hdb => ?_, fun id ht => ?_, fun path m ht => ?_⟩
  · rcases mem_cons.mp hdb with rfl | hdb
    · exact g.sourced (h.sourced _ mem_cons_self)
    · exact h.sourced db (hu db hdb)
  · rcases mem_cons.mp hdb with rfl | hdb
    · exact g.counted (h.counted _ mem_cons_self)
    · exact h.counted db (hu db hdb)
  · rw [g.forksOf, g.refs]
    exact h.dropping id (hheld _ ht)
  · obtain ⟨⟨m', hm', hl⟩, hnone⟩ := h.deleting path m (hheld _ ht)
    obtain ⟨m'', hm'', hl'⟩ := g.kept hm'
    exact ⟨⟨m'', hm'', hl'.trans hl⟩, by rw [g.forksOf]; exact hnone⟩

theorem calm (h : ForksInv srv) (hi : ServerInv srv') (c : srv.Calm srv') : ForksInv srv' :=
  h.grown hi c.grows c.unsynced (.inl c.held)

variable {path : Bytes} {m : StreamMeta} {e : Event}

section

variable (h : ForksInv srv)
include h

theorem created (hi : ServerInv srv') (hheld : srv.held = none) {records : List Bytes}
    {count : Nat} (c : srv.Created srv' path m records count)
    (hsrc : m.forkedFrom ≠ 0 → ∃ p src, srv.db.metaAt p = some src ∧ src.streamID = m.forkedFrom ∧
      m.forkOffset ≤ loadTailSeq srv.db m.forkedFrom)
    (hcount : m.forkedFrom ≠ 0 → (forksOf srv.db m.forkedFrom).ncard + 1 ≤ count) : ForksInv srv' := by
  have hnone : srv'.held = none := c.held.trans hheld
  refine ⟨hi, fun db hdb => ?_, fun db hdb => ?_, fun id ht => ?_, fun path m ht => ?_⟩
  · rw [c.unsynced, mem_singleton] at hdb
    exact hdb ▸ c.adds.sourced h.server.stored (h.sourced _ mem_cons_self) hsrc
  · rw [c.unsynced, mem_singleton] at hdb
    exact hdb ▸ c.adds.counted (h.counted _ mem_cons_self) hcount
  · rw [hnone] at ht; cases ht
  · rw [hnone] at ht; cases ht

/-- A hard delete of a stream without forks. -/
theorem deleted (hi : ServerInv srv') {ok : Bool}
    (hm : srv.db.metaAt path = some m') (hl : m'.lineage = m.lineage) (hnone : forksOf srv.db m.streamID = ∅)
    (d : srv.Deleted srv' ok path m) : ForksInv srv' := by
  have hid : m'.streamID = m.streamID := congrArg Prod.fst hl
  have hfrom : m'.forkedFrom = m.forkedFrom := congrArg (·.2.1) hl
  obtain ⟨hdb, hu, hheld⟩ := d
  cases ok with
  | false =>
    rw [if_neg Bool.false_ne_true] at hdb hu
    rw [if_neg (fun hn => Bool.false_ne_true hn.1)] at hheld
    exact h.grown hi (hdb ▸ .refl _) (fun _ hm => mem_cons_of_mem _ (hu ▸ hm)) (.inr hheld)
  | true =>
    rw [if_pos rfl] at hdb hu
    have r := removes_delete h.server.stored hm hid
    rw [← hdb] at r
    refine ⟨hi, fun db hm' => ?_, fun db hm' => ?_, fun id ht => ?_, fun p m₁ ht => ?_⟩
    · rw [hu, mem_singleton] at hm'
      rw [hm']
      exact r.sourced hm hid hnone (h.sourced _ mem_cons_self)
    · rw [hu, mem_singleton] at hm'
      rw [hm']
      exact r.counted hnone (h.counted _ mem_cons_self)
    · rw [hheld] at ht
      split at ht
      · rename_i hf
        cases ht
        have hlt := (h.server.stored.ids _ _ hm).2
        have hf := hf.2
        rw [← hfrom] at hf ⊢
        exact ⟨hf, r.released hm (h.counted _ mem_cons_self) hf (by omega)⟩
      · cases ht
    · rw [hheld] at ht
      split at ht <;> cases ht

/-- The release of a source. The source is deleted next only if no fork is left. -/
theorem dropForkRef (flt : Faults) (ok : Bool) {id : Nat} (ht : srv.held = some (.dropForkRef id))
    (hflt : flt (.refCountKey id) = true → forksOf srv.db id = ∅) : ForksInv (srv.dropForkRef flt ok id) := by
  have hi := h.server.dropForkRef flt ok id
  obtain ⟨hid, hlt⟩ := h.dropping id ht
  have hle : (forksOf srv.db id).ncard ≤ loadRefCount flt srv.db id - 1 := by
    cases hf : flt (.refCountKey id) with
    | false => rw [loadRefCount_eq hf]; omega
    | true => rw [hflt hf, Set.ncard_empty]; exact zero_le _
  have hdb : (srv.dropForkRef flt ok id).db = srv.db ∨
      Recounts srv.db (srv.dropForkRef flt ok id).db id (loadRefCount flt srv.db id - 1) := by
    cases ok with
    | false => exact .inl rfl
    | true => exact .inr (recounts_put _ _ _)
  have hu : ∀ db ∈ (srv.dropForkRef flt ok id).unsynced, db ∈ srv.unsynced := by
    intro db hdb
    cases ok with
    | false => exact hdb
    | true => cases hdb
  have hforks : ∀ i, forksOf (srv.dropForkRef flt ok id).db i = forksOf srv.db i := by
    intro i
    rcases hdb with he | r
    · rw [he]
    · exact r.forksOf i
  refine ⟨hi, fun db hm => ?_, fun db hm => ?_, fun i he => ?_, fun path m he => ?_⟩
  · rcases mem_cons.mp hm with rfl | hm
    · rcases hdb with he | r
      · rw [he]; exact h.sourced _ mem_cons_self
      · exact r.sourced (h.sourced _ mem_cons_self)
    · exact h.sourced db (mem_cons_of_mem _ (hu db hm))
  · rcases mem_cons.mp hm with rfl | hm
    · rcases hdb with he | r
      · rw [he]; exact h.counted _ mem_cons_self
      · exact r.counted (h.counted _ mem_cons_self) hle
    · exact h.counted db (mem_cons_of_mem _ (hu db hm))
  · obtain ⟨-, _, _, hcas, -⟩ := cascade_some he
    cases hcas
  · obtain ⟨hcount, _, _, hcas, hmap, hmeta⟩ := cascade_some he
    cases hcas
    have hmid := (hi.stored.forksBelow id path m hmap hmeta).1
    refine ⟨⟨m, hmeta, rfl⟩, ?_⟩
    rw [hforks, hmid]
    exact (Set.ncard_eq_zero (finite_forksOf _ _)).mp (by omega)

theorem unforked (hk : SparesForks srv e) (why : srv.Cause e path m) :
    (∃ m', srv.db.metaAt path = some m' ∧ m'.lineage = m.lineage) ∧ forksOf srv.db m.streamID = ∅ := by
  cases why with
  | asked _ hm h0 =>
    have hpos := (h.server.stored.ids _ _ hm).2
    have hle := (h.counted _ mem_cons_self).le_loadRefCount (by omega) (hk.1 m.streamID)
    exact ⟨⟨m, hm, rfl⟩, (Set.ncard_eq_zero (finite_forksOf _ _)).mp (by omega)⟩
  | next hheld => exact h.deleting path m hheld
  | expired _ hm hexp hdue => exact ⟨⟨m, hm, rfl⟩, hk.2 _ _ _ path m hexp hdue hm rfl rfl⟩

/-- **A step that meets the condition keeps the invariant.** -/
theorem step {L : GoLib} (hk : SparesForks srv e) (he : step L srv e = some srv') : ForksInv srv' := by
  have hi := h.server.step he
  cases h.server.moves he with
  | calm c => exact h.calm hi c
  | softDeleted => exact h.calm hi (calm_softDeleteLocked h.server e.ok _ _)
  | created hidle c _ hsrc =>
    refine h.created hi hidle c (fun hf => (hsrc hf).1) fun hf => ?_
    rw [(hsrc hf).2]
    exact succ_le_succ ((h.counted _ mem_cons_self).le_loadRefCount hf (hk.1 _))
  | deleted why d =>
    obtain ⟨⟨m', hm', hl⟩, hnone⟩ := h.unforked hk why
    exact h.deleted hi hm' hl hnone d
  | released hheld => exact h.dropForkRef e.flt e.ok hheld (hk.1 _)
  | restarted _ hdb => exact ForksInv.start (h.server.catalog _ hdb) (h.sourced _ hdb) (h.counted _ hdb) _

theorem sparesForks (hk : KeepsSources srv e) : SparesForks srv e := by
  refine ⟨fun id hf => ?_, fun deadline id dues path m he hd hm hid hdl => ?_⟩
  · rw [hk.1 id] at hf
    cases hf
  · have hpos := (h.server.stored.ids _ _ hm).2
    exact Yasdb.forksOf_eq_empty (h.counted _ mem_cons_self) (by omega) (hk.2 deadline id dues path m he hd hm hid hdl)

end

theorem reach {L : GoLib} (hr : Reach (Server.step L) KeepsSources srv srv') (h : ForksInv srv) : ForksInv srv' :=
  hr.invariant (fun _ _ _ h hk he => h.step (h.sparesForks hk) he) h

end ForksInv

/-! ## What a fork inherits -/

/-- The chain of sources of a stream is stored, down to a plain stream. -/
inductive Rooted (db : Store) : StreamMeta → Prop where
  | plain {m : StreamMeta} (h : m.forkedFrom = 0) : Rooted db m
  | fork {m src : StreamMeta} {p : Bytes} (hp : db.metaAt p = some src) (hid : src.streamID = m.forkedFrom)
      (hle : m.forkOffset ≤ loadTailSeq db m.forkedFrom) (h : Rooted db src) : Rooted db m

theorem Sourced.rooted (hc : Catalog db) (hs : Sourced db) : ∀ (id : Nat) (path : Bytes) (m : StreamMeta),
    db.metaAt path = some m → m.streamID = id → Rooted db m := by
  intro id
  induction id using Nat.strong_induction_on with
  | _ id ih =>
    rintro path m hm rfl
    by_cases hf : m.forkedFrom = 0
    · exact .plain hf
    · obtain ⟨p, src, hsrc, hid, hle⟩ := hs path m hm hf
      exact .fork hsrc hid hle (ih m.forkedFrom (hc.ids path m hm).2 p src hsrc hid)

theorem Rooted.of_lineage (h : Rooted db m) (hl : m'.lineage = m.lineage) : Rooted db m' := by
  simp only [lineage, Prod.mk.injEq] at hl
  cases h with
  | plain hf => exact .plain (hl.2.1.trans hf)
  | fork hp hid hle h => exact .fork hp (hid.trans hl.2.1.symm) (by rw [hl.2.1, hl.2.2.1]; exact hle) h

theorem Grows.rooted {db' : Store} (g : Grows db db') (h : Rooted db m) : Rooted db' m := by
  induction h with
  | plain hf => exact .plain hf
  | @fork m src p hp hid hle _ ih =>
    obtain ⟨src', hsrc', hl⟩ := g.kept hp
    have ht := g.tails p src hp
    rw [hid] at ht
    exact .fork hsrc' ((congrArg Prod.fst hl).trans hid) (hle.trans ht) (ih.of_lineage hl)

section

variable (hc : Catalog db)
include hc

theorem Catalog.own_record {path : Bytes} (hm : db.metaAt path = some m) {n : Nat}
    (hn : n < loadTailSeq db m.streamID) (hown : m.forkedFrom = 0 ∨ m.forkOffset ≤ n) :
    ∃ v, db.recordAt m.streamID n = some v := by
  obtain ⟨t, ht, -, hrecs⟩ := hc.log path m hm
  rw [loadTailSeq, ht] at hn
  have hbase : m.base ≤ n := by
    unfold base
    split
    · exact zero_le _
    · rcases hown with h | h
      · contradiction
      · exact h
  exact isSome_iff_exists.mp ((hrecs n).mpr ⟨hbase, hn⟩)

theorem payloadAt_fork {path : Bytes} {src : StreamMeta} (hm : db.metaAt path = some m)
    (hp : db.metaAt p = some src) (hid : src.streamID = m.forkedFrom) {n : Nat} (hf : m.forkedFrom ≠ 0)
    (hn : n < m.forkOffset) {v : Bytes}
    (hv : payloadAt db src.streamID src.streamID src.forkedFrom src.forkOffset n = some v) :
    payloadAt db m.streamID m.streamID m.forkedFrom m.forkOffset n = some v := by
  have hlt := (hc.ids path m hm).2
  obtain ⟨d, hd⟩ : ∃ d, m.streamID = d + 1 := ⟨m.streamID - 1, by omega⟩
  have hmap : db.idMappingAt m.forkedFrom = some p := hid ▸ hc.mapping hp
  rw [hd, payloadAt, if_neg (by omega)]
  simp only [hmap, hp]
  rw [hid] at hv
  exact payloadAt_mono (by omega) hv

/-- **Every entry below the tail of a stream is stored somewhere in its chain.** -/
theorem Rooted.payloadAt_some (h : Rooted db m) : ∀ {path : Bytes},
    db.metaAt path = some m → ∀ {n}, n < loadTailSeq db m.streamID →
    ∃ v, payloadAt db m.streamID m.streamID m.forkedFrom m.forkOffset n = some v := by
  induction h with
  | plain hf =>
    intro path hm n hn
    obtain ⟨v, hv⟩ := hc.own_record hm hn (.inl hf)
    rw [payloadAt_own db _ _ (.inl hf), hv]
    exact ⟨_, rfl⟩
  | @fork m src p hp hid hle _ ih =>
    intro path hm n hn
    by_cases hown : m.forkedFrom = 0 ∨ m.forkOffset ≤ n
    · obtain ⟨v, hv⟩ := hc.own_record hm hn hown
      rw [payloadAt_own db _ _ hown, hv]
      exact ⟨_, rfl⟩
    · simp only [not_or, not_le] at hown
      obtain ⟨v, hv⟩ := ih hp (by rw [hid]; exact lt_of_lt_of_le hown.2 hle)
      exact ⟨v, payloadAt_fork hc hm hp hid hown.1 hown.2 hv⟩

theorem payloadAt_some (hs : Sourced db) (id : Nat) (path : Bytes) (m : StreamMeta)
    (hm : db.metaAt path = some m) (hid : m.streamID = id) (n : Nat) (hn : n < loadTailSeq db id) :
    ∃ v, payloadAt db id id m.forkedFrom m.forkOffset n = some v := by
  subst hid
  exact (hs.rooted hc m.streamID path m hm rfl).payloadAt_some hc hm hn

end

/-- **Entries below the tail never change** while the streams grow. -/
theorem Rooted.payloadAt_grows {db' : Store} (g : Grows db db') (hc : Catalog db) (hc' : Catalog db')
    (h : Rooted db m) : ∀ {path : Bytes} {m' : StreamMeta}, db.metaAt path = some m → db'.metaAt path = some m' →
    ∀ {n}, n < loadTailSeq db m.streamID → ∀ {v},
    payloadAt db m.streamID m.streamID m.forkedFrom m.forkOffset n = some v →
    payloadAt db' m'.streamID m'.streamID m'.forkedFrom m'.forkOffset n = some v := by
  -- an entry of its own is kept as a record
  have own : ∀ {path : Bytes} {m m' : StreamMeta}, db.metaAt path = some m → m'.lineage = m.lineage → ∀ {n v},
      m.forkedFrom = 0 ∨ m.forkOffset ≤ n → payloadAt db m.streamID m.streamID m.forkedFrom m.forkOffset n = some v →
      payloadAt db' m'.streamID m'.streamID m'.forkedFrom m'.forkOffset n = some v := by
    intro path m m' hm hl n v hown hv
    simp only [lineage, Prod.mk.injEq] at hl
    rw [hl.1, hl.2.1, hl.2.2.1, payloadAt_own db' _ _ hown]
    rw [payloadAt_own db _ _ hown] at hv
    obtain ⟨r, hr, rfl⟩ := map_eq_some_iff.mp hv
    rw [g.records path m hm n r hr, map_some]
  have line : ∀ {path : Bytes} {m m' : StreamMeta}, db.metaAt path = some m → db'.metaAt path = some m' →
      m'.lineage = m.lineage := by
    intro path m m' hm hm'
    obtain ⟨m'', hm'', hl⟩ := g.kept hm
    rw [hm', some.injEq] at hm''
    rw [hm'']
    exact hl
  induction h with
  | plain hf =>
    intro path m' hm hm' n hn v hv
    exact own hm (line hm hm') (.inl hf) hv
  | @fork m src p hp hid hle hroot ih =>
    intro path m' hm hm' n hn v hv
    by_cases hown : m.forkedFrom = 0 ∨ m.forkOffset ≤ n
    · exact own hm (line hm hm') hown hv
    · simp only [not_or, not_le] at hown
      obtain ⟨src', hp', hls⟩ := g.kept hp
      have hl := line hm hm'
      simp only [lineage, Prod.mk.injEq] at hl hls
      have hn' : n < loadTailSeq db src.streamID := by rw [hid]; exact lt_of_lt_of_le hown.2 hle
      obtain ⟨w, hw⟩ := hroot.payloadAt_some hc hp hn'
      have hvw := payloadAt_fork hc hm hp hid hown.1 hown.2 hw
      rw [hv, some.injEq] at hvw
      rw [hvw]
      refine payloadAt_fork hc' hm' hp' (by rw [hls.1, hid, hl.2.1]) (by rw [hl.2.1]; exact hown.1)
        (by rw [hl.2.2.1]; exact hown.2) (ih hp hp' hn' hw)

/-- The ids above a stream in its fork chain, as far as the stored metadata leads. -/
inductive Ancestor (db : Store) : StreamMeta → Nat → Prop where
  | source {m : StreamMeta} : m.forkedFrom ≠ 0 → Ancestor db m m.forkedFrom
  | above {m src : StreamMeta} {path : Bytes} {id : Nat} : db.idMappingAt m.forkedFrom = some path →
      db.metaAt path = some src → Ancestor db src id → Ancestor db m id

/-- **Forks keep their source data alive.** If no reference count fails to be read and no sweep comes upon the deadline
of a stream with a nonzero count, every ancestor of a stored fork is stored, and every record that the fork inherits is
found. -/
theorem sources_kept (L : GoLib) (seen : Nat) (srv : Server)
    (hr : Reach (Server.step L) KeepsSources (newServer ∅ seen) srv) (path : Bytes) (m : StreamMeta)
    (hm : srv.db.metaAt path = some m) :
    (∀ id, Ancestor srv.db m id → ∃ p a, srv.db.idMappingAt id = some p ∧ srv.db.metaAt p = some a) ∧
      (m.forkedFrom ≠ 0 → ∀ n, n < m.forkOffset →
        ∃ v, chainRecordAt noFaults srv.db m.forkedFrom n = .ok (some v)) := by
  have h := ForksInv.reach hr (.start_empty seen)
  have hc := h.server.stored
  have hs := h.sourced _ mem_cons_self
  constructor
  · intro id ha
    induction ha generalizing path with
    | source hf =>
      obtain ⟨p, src, hsrc, hid, -⟩ := hs path _ hm hf
      exact ⟨p, src, hid ▸ hc.mapping hsrc, hsrc⟩
    | above _ hsrc _ ih => exact ih _ hsrc
  · intro hf n hn
    obtain ⟨p, src, hsrc, hid, hle⟩ := hs path m hm hf
    obtain ⟨v, hv⟩ := payloadAt_some hc hs m.forkedFrom p src hsrc hid n (Nat.lt_of_lt_of_le hn hle)
    exact ⟨v, chainRecordAt_stored (hid ▸ hc.mapping hsrc) hsrc (Nat.le_refl _) hv⟩

/-- The sample fork inherits both records of its source. -/
theorem sources_kept_fork : ∃ srv, Reach (step plainLib) KeepsSources (newServer ∅ 0) srv ∧
    srv.db.metaAt forkPath = some forkMeta ∧
    (∀ id, Ancestor srv.db forkMeta id → ∃ p a, srv.db.idMappingAt id = some p ∧ srv.db.metaAt p = some a) ∧
      (forkMeta.forkedFrom ≠ 0 → ∀ n, n < forkMeta.forkOffset →
        ∃ v, chainRecordAt noFaults srv.db forkMeta.forkedFrom n = .ok (some v)) := by
  obtain ⟨srv, hrun, hm⟩ : ∃ srv ∈ run (step plainLib) (newServer ∅ 0) forkEvents,
      srv.db.metaAt forkPath = some forkMeta := by decide
  have hc : ∀ e ∈ forkEvents, ∀ s, KeepsSources s e := by
    intro e he s
    simp only [forkEvents, mem_cons, not_mem_nil, or_false] at he
    rcases he with rfl | rfl | rfl | rfl
    all_goals exact ⟨fun _ => rfl, nofun⟩
  have hr := reach_of_run hc hrun
  exact ⟨srv, hr, hm, sources_kept plainLib 0 srv hr forkPath forkMeta hm⟩

/-- A stream that expires after a second is forked; the fork does not expire. A sweep comes by later. -/
def expiryEvents : List Event :=
  [{ action := .createStream { path := samplePath, contentType := [], ttlSet := true, ttl := 1, body := [1] } 0 0 },
    { action := .createFork { path := forkPath, sourcePath := samplePath, ttlSet := true } 0 0 },
    { action := .sweep 10 1 },
    { action := .expire }]

/-- The sweep removes the source, and the fork has lost the record that it inherits. -/
theorem expiry_removes_source : ∃ srv m, Reach (step plainLib) Any (newServer ∅ 0) srv ∧
    srv.db.metaAt forkPath = some m ∧ Ancestor srv.db m 1 ∧ srv.db.idMappingAt 1 = none ∧ 0 < m.forkOffset ∧
    chainRecordAt noFaults srv.db m.forkedFrom 0 = .ok none := by
  obtain ⟨srv, hs, m, hm, hf, ho, hnone⟩ : ∃ srv ∈ run (step plainLib) (newServer ∅ 0) expiryEvents,
      ∃ m ∈ srv.db.metaAt forkPath, m.forkedFrom = 1 ∧ m.forkOffset = 1 ∧ srv.db.idMappingAt 1 = none := by
    decide +kernel
  have hload : loadMetaByID noFaults srv.db 1 = .ok none := by
    have hget : Store.get noFaults srv.db (.idMappingKey 1) = .ok none := congrArg Except.ok hnone
    rw [loadMetaByID, hget]
  refine ⟨srv, m, reach_any hs, hm, ?_, hnone, by omega, ?_⟩
  · have ha : Ancestor srv.db m m.forkedFrom := .source (by omega)
    rwa [hf] at ha
  · rw [hf, chainRecordAt, resolveSegmentsByID, resolveWithin, hload]
    rfl

end Yasdb
