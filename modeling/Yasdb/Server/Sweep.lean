import Yasdb.Server.Expiry
import Yasdb.Server.RefCounts

/-!
# A whole sweep

A sweep takes the due entries of the index one by one. It removes the stream of an entry, and with it the soft-deleted
sources that lose their last fork; an entry that is no longer the deadline of its stream is dropped.

- `Server.sweepOnce`: a sweep without failures and without other operations;
- `Sweeping`: what holds of the store between any two commits of a sweep;
- `sweep_exact`: **a sweep removes what is due**, and the sources that are then done with.
-/

namespace Yasdb

open Batch Runs Server Store Option Set Op List

variable {db : Store} {id : Nat} {path : Bytes} {m : StreamMeta} {p : Bytes} {x : UInt64 × Nat} {d : UInt64}

namespace Server

/-- The next commit of the delete in progress. -/
def goOn (srv : Server) : Server :=
  match srv.held with
  | some (.dropForkRef id) => srv.dropForkRef noFaults true id
  | some (.deleteStreamLocked path m) => srv.deleteStreamLocked true path m
  | none => srv

/-- The rest of the delete in progress. -/
def settle (srv : Server) : Server := goOn^[rank srv.held] srv

/-- A due entry of a sweep, with all that its stream takes along. -/
def expireEntry (now : Int64) (srv : Server) (x : UInt64 × Nat) : Server :=
  ({ srv with sweepNow := now }.expireIfDue noFaults true x.1 x.2).settle

/-- A sweep in which no read and no commit fails. -/
def sweepOnce (srv : Server) (now : Int64) : Server := (dueEntries srv.db now).foldl (expireEntry now) srv

end Server

/-! ## What a sweep starts from -/

/-- The stream has a deadline, and it has come. -/
def Due (now : Int64) (m : StreamMeta) : Prop := 0 < m.deadline ∧ (m.deadline.toNat : Int) ≤ now.toInt

/-- A soft-deleted source of `db₀` whose forks, at least one, are all gone in `db`. -/
structure Orphaned (db₀ db : Store) (path : Bytes) (m : StreamMeta) : Prop where
  soft : softDeleted (db₀.tombstoneAt path) = true
  forked : (forksOf db₀ m.streamID).Nonempty
  gone : ∀ q ∈ forksOf db₀ m.streamID, db.metaAt q = none

/-- A store whose reference counts are exact and whose index has the entry of each deadline, besides stale ones. -/
structure Sweepable (db : Store) : Prop where
  catalog : Catalog db
  tombs : ∀ path t, db.tombstoneAt path = some t → t.1 = .tombSoftDelete
  counts : ∀ path m, db.metaAt path = some m → db.refCountAt m.streamID = (forksOf db m.streamID).ncard
  index : ∀ path m, db.metaAt path = some m →
    ((db.lookup (.expiryKey m.deadline m.streamID)).isSome = true ↔ 0 < m.deadline)

/-- Read as a signed number, no stored deadline comes before the clock unless it has passed. Only a clock before 1970
can be at odds with that. -/
def NoneWraps (db : Store) (now : Int64) : Prop :=
  -1 ≤ now.toInt ∨ ∀ path m, db.metaAt path = some m → m.deadline.toNat < 2 ^ 63 ∨ 2 ^ 64 + now.toInt < m.deadline.toNat

/-- The keys of a stream that a sweep leaves, if it leaves the stream. -/
def Part (path : Bytes) (m : StreamMeta) : Key → Prop
  | .tailKey i | .recordKey i _ => i = m.streamID
  | .tombstoneKey p => p = path
  | .expiryKey d i => d = m.deadline ∧ i = m.streamID
  | _ => False

/-- A sweep at `now` is under way since the store was `db₀`, and has dealt with the entries `D`. -/
structure Sweeping (db₀ : Store) (now : Int64) (D : Set (UInt64 × Nat)) (srv : Server) : Prop where
  catalog : Catalog srv.db
  origin : ∀ p m, srv.db.metaAt p = some m → db₀.metaAt p = some m
  kept : ∀ p m, srv.db.metaAt p = some m → ∀ k, Part p m k → srv.db.lookup k = db₀.lookup k
  gone : ∀ p m, db₀.metaAt p = some m → srv.db.metaAt p = none →
    (Due now m ∨ Orphaned db₀ srv.db p m) ∧ srv.db.tailAt m.streamID = none
  counts : ∀ p m, srv.db.metaAt p = some m →
    srv.db.refCountAt m.streamID = (forksOf srv.db m.streamID).ncard + owed srv.held m.streamID
  forked : ∀ p m, srv.db.metaAt p = some m → softDeleted (db₀.tombstoneAt p) = true →
    (forksOf db₀ m.streamID).Nonempty → (forksOf srv.db m.streamID).Nonempty ∨
      srv.held = some (.dropForkRef m.streamID) ∨ srv.held = some (.deleteStreamLocked p m)
  entries : ∀ d i, (srv.db.lookup (.expiryKey d i)).isSome = true →
    (db₀.lookup (.expiryKey d i)).isSome = true ∧ (d, i) ∉ D
  dropping : ∀ id, srv.held = some (.dropForkRef id) → (forksOf db₀ id).Nonempty
  deleting : ∀ p m, srv.held = some (.deleteStreamLocked p m) → srv.db.metaAt p = some m ∧
    softDeleted (db₀.tombstoneAt p) = true ∧ (forksOf db₀ m.streamID).Nonempty ∧ forksOf srv.db m.streamID = ∅

theorem cascade_tombstone {flt : Faults} {count : Nat}
    (h : cascade flt db id count = some (.deleteStreamLocked path m)) : ∃ t, db.tombstoneAt path = some t := by
  unfold cascade at h
  split at h
  · cases h
  · split at h
    · split at h
      · rename_i t ht
        cases h
        exact ⟨t, get_ok ht⟩
      · cases h
    · cases h

theorem Orphaned.shrinks {db₀ db' : Store} (h : Orphaned db₀ db path m)
    (hs : ∀ p, db.metaAt p = none → db'.metaAt p = none) : Orphaned db₀ db' path m :=
  ⟨h.soft, h.forked, fun q hq => hs q (h.gone q hq)⟩

theorem lookup_deleteOps_part {m' : StreamMeta} (hp : p ≠ path)
    (hid : m'.streamID ≠ m.streamID) {k : Key} (hk : Part p m' k) :
    (applyOps db (deleteOps path m)).lookup k = db.lookup k := by
  cases k with
  | expiryKey d i => rw [lookup_deleteOps_expiry, if_neg fun h => hid (hk.2.symm.trans h.1)]
  | tombstoneKey q =>
    have hq : q = p := hk
    rw [lookup_deleteOps db path m (by simp)]
    simp [hq, Ne.symm hp]
  | tailKey i =>
    have hi : i = m'.streamID := hk
    rw [lookup_deleteOps db path m (by simp)]
    simp [hi, Ne.symm hid]
  | recordKey i n =>
    rw [lookup_deleteOps db path m (by simp)]
    simp
  | _ => exact hk.elim

namespace Sweeping

variable {db₀ : Store} {now : Int64} {D : Set (UInt64 × Nat)} {srv : Server}

theorem start (hs : Sweepable srv.db) (hidle : srv.held = none) : Sweeping srv.db now ∅ srv := by
  refine ⟨hs.catalog, fun _ _ h => h, fun _ _ _ _ _ => rfl, fun p m hm hn => ?_, fun p m hm => ?_,
    fun _ _ _ _ hf => .inl hf, fun _ _ h => ⟨h, fun hx => hx⟩, fun id hh => ?_, fun p m hh => ?_⟩
  · rw [hm] at hn; cases hn
  · rw [hs.counts p m hm, hidle]; rfl
  · rw [hidle] at hh; cases hh
  · rw [hidle] at hh; cases hh

section Delete

variable (h : Sweeping db₀ now D srv)
include h

theorem absent (hempty : forksOf srv.db id = ∅) {f : Bytes} (hf : f ∈ forksOf db₀ id) : srv.db.metaAt f = none := by
  obtain ⟨mf, hmf, hfrom⟩ := hf
  cases hfs : srv.db.metaAt f with
  | none => rfl
  | some mf' =>
    cases hmf.symm.trans (h.origin f mf' hfs)
    have hmem : f ∈ forksOf srv.db id := ⟨mf, hfs, hfrom⟩
    rw [hempty] at hmem
    exact hmem.elim

/-- A hard delete, of a stream that is due or of a source that is done with. -/
theorem delete (hm : srv.db.metaAt p = some m)
    (hheld : srv.held = none ∨ srv.held = some (.deleteStreamLocked p m))
    (why : Due now m ∨ (softDeleted (db₀.tombstoneAt p) = true ∧ (forksOf db₀ m.streamID).Nonempty ∧
      forksOf srv.db m.streamID = ∅)) : Sweeping db₀ now D (srv.deleteStreamLocked true p m) ∧
        rank (srv.deleteStreamLocked true p m).held < 2 * m.streamID := by
  have hlt := (h.catalog.ids p m hm).2
  have r := removes_delete h.catalog hm rfl
  obtain ⟨hdb, -, hh⟩ := srv.deleted true p m
  rw [if_pos rfl] at hdb
  simp only [true_and] at hh
  generalize srv.deleteStreamLocked true p m = srv' at hdb hh
  rw [← hdb] at r
  have hnone : ∀ q, srv.db.metaAt q = none → srv'.db.metaAt q = none := by
    intro q hq
    rw [hdb, metaAt_deleteOps_eq, hq, ite_self]
  have hne : ∀ q mq, srv'.db.metaAt q = some mq → q ≠ p ∧ srv.db.metaAt q = some mq ∧ mq.streamID ≠ m.streamID := by
    intro q mq hq
    obtain ⟨hqp, hq⟩ := r.metaAt_some hq
    exact ⟨hqp, hq, fun he => hqp (h.catalog.path_eq hq hm he)⟩
  have howed : ∀ id, owed srv.held id = 0 := by
    intro id
    rcases hheld with hn | hn <;> rw [hn] <;> rfl
  refine ⟨⟨h.catalog.rewrites r.rewrites, fun q mq hq => h.origin q mq (hne q mq hq).2.1, fun q mq hq k hk => ?_,
    fun q mq hq hn => ?_, fun q mq hq => ?_, fun q mq hq hsoft hforked => ?_, fun d i hx => ?_, fun id hid => ?_,
    fun q mq hq => ?_⟩, ?_⟩
  · obtain ⟨hqp, hq, hid⟩ := hne q mq hq
    rw [hdb, lookup_deleteOps_part hqp hid hk]
    exact h.kept q mq hq k hk
  · by_cases hqp : q = p
    · subst hqp
      have hmq : mq = m := some.inj (hq.symm.trans (h.origin q m hm))
      subst hmq
      refine ⟨why.imp id fun ⟨hsoft, hforked, hempty⟩ => ⟨hsoft, hforked, fun f hf => hnone f (h.absent hempty hf)⟩, ?_⟩
      rw [hdb]
      unfold tailAt
      rw [lookup_deleteOps _ _ _ (by simp)]
      simp
    · rw [hdb, metaAt_deleteOps_eq, if_neg hqp] at hn
      obtain ⟨hwhy, htail⟩ := h.gone q mq hq hn
      refine ⟨hwhy.imp id fun o => o.shrinks hnone, ?_⟩
      rw [hdb]
      unfold tailAt at htail ⊢
      rw [lookup_deleteOps _ _ _ (by simp), htail]
      by_cases hi : mq.streamID = m.streamID
      · simp [hi]
      · simp [Ne.symm hi]
  · obtain ⟨hqp, hq, hid⟩ := hne q mq hq
    have hpos := (h.catalog.ids q mq hq).2
    have hcount := h.counts q mq hq
    rw [howed] at hcount
    rw [hh, owed_release m (by omega)]
    exact r.exact hm hid hcount
  · obtain ⟨hqp, hq, hid⟩ := hne q mq hq
    by_cases hf : m.forkedFrom = mq.streamID
    · have hpos := (h.catalog.ids q mq hq).2
      rw [hh, if_pos (by omega), hf]
      exact .inr (.inl rfl)
    · rcases h.forked q mq hq hsoft hforked with ⟨f, hfmem⟩ | hx | hx
      · refine .inl ⟨f, ?_⟩
        rw [r.forksOf_eq]
        refine ⟨hfmem, ?_⟩
        rintro rfl
        obtain ⟨mf, hmf, hfrom⟩ := hfmem
        rw [hm, some.injEq] at hmf
        exact hf (by rw [hmf, hfrom])
      · rcases hheld with hn | hn <;> rw [hn] at hx <;> cases hx
      · rcases hheld with hn | hn
        · rw [hn] at hx; cases hx
        · rw [hn] at hx; cases hx; exact absurd rfl hqp
  · rw [hdb, lookup_deleteOps_expiry] at hx
    split at hx
    · cases hx
    · exact h.entries d i hx
  · rw [hh] at hid
    split at hid
    · cases hid
      exact ⟨p, m, h.origin p m hm, rfl⟩
    · cases hid
  · rw [hh] at hq
    split at hq <;> cases hq
  · rw [hh]
    split
    · simp only [rank]; omega
    · simp only [rank]; omega

section

variable (hs : Sweepable db₀)
include hs

/-- The release of a source. -/
theorem drop (hheld : srv.held = some (.dropForkRef id)) : Sweeping db₀ now D (srv.dropForkRef noFaults true id) ∧
      rank (srv.dropForkRef noFaults true id).held < 2 * id + 1 := by
  have r := srv.recounts_dropForkRef id
  have hh := srv.held_dropForkRef id
  generalize srv.dropForkRef noFaults true id = srv' at r hh
  have hcat : Catalog srv'.db := by
    refine h.catalog.quiet fun k hk => r.same k ?_
    rintro rfl
    exact hk trivial
  -- the only thing that may follow is the delete of the source
  have hnext : ∀ t, srv'.held = some t → ∃ p m, t = .deleteStreamLocked p m ∧ srv.db.metaAt p = some m ∧
      m.streamID = id ∧ softDeleted (db₀.tombstoneAt p) = true ∧ forksOf srv.db id = ∅ := by
    intro t ht
    rw [hh] at ht
    obtain ⟨hcount, p, m, rfl, hmap, hm⟩ := cascade_some ht
    obtain ⟨tomb, htomb⟩ := cascade_tombstone ht
    have hid := (hcat.forksBelow id p m hmap hm).1
    rw [r.metaAt] at hm
    refine ⟨p, m, rfl, hm, hid, ?_, ?_⟩
    · have hsame : db₀.tombstoneAt p = some tomb := by
        rw [← htomb]
        exact ((r.same (.tombstoneKey p) (by simp)).trans (h.kept p m hm (.tombstoneKey p) rfl)).symm
      rw [hsame]
      exact decide_eq_true (hs.tombs p tomb hsame)
    · have hcnt := h.counts p m hm
      rw [hid, hheld, owed, if_pos rfl] at hcnt
      exact (ncard_eq_zero (finite_forksOf _ _)).mp (by omega)
  refine ⟨⟨hcat, fun q mq hq => h.origin q mq ((r.metaAt q).symm.trans hq), fun q mq hq k hk => ?_,
    fun q mq hq hn => ?_, fun q mq hq => ?_, fun q mq hq hsoft hforked => ?_, fun d i hx => ?_, fun i hi => ?_,
    fun q mq hq => ?_⟩, ?_⟩
  · rw [r.metaAt] at hq
    refine (r.same k ?_).trans (h.kept q mq hq k hk)
    rintro rfl
    exact hk
  · rw [r.metaAt] at hn
    obtain ⟨hwhy, htail⟩ := h.gone q mq hq hn
    exact ⟨hwhy.imp (fun hd => hd) fun o => o.shrinks fun p hp => (r.metaAt p).trans hp,
      (r.same (.tailKey _) (by simp)).trans htail⟩
  · rw [r.metaAt] at hq
    have hcount := h.counts q mq hq
    have hnone : owed srv'.held mq.streamID = 0 := by
      refine if_neg fun ht => ?_
      obtain ⟨_, _, he, -⟩ := hnext _ ht
      cases he
    rw [hnone, r.forksOf]
    rw [hheld, owed] at hcount
    by_cases he : mq.streamID = id
    · rw [he] at hcount ⊢
      rw [if_pos rfl] at hcount
      rw [r.count, hcount]
      rfl
    · rw [if_neg (by simpa using Ne.symm he)] at hcount
      rw [refCountAt_congr (r.same (.refCountKey _) (by simpa using he)), hcount]
  · rw [r.metaAt] at hq
    rw [r.forksOf]
    rcases h.forked q mq hq hsoft hforked with hf | hx | hx
    · exact .inl hf
    · rw [hheld] at hx
      cases hx
      by_cases hempty : forksOf srv.db mq.streamID = ∅
      · -- the last fork is gone, so the source goes next
        have hcount := h.counts q mq hq
        rw [hheld, owed, if_pos rfl, hempty, ncard_empty] at hcount
        obtain ⟨t, ht⟩ := softDeleted_some hsoft
        have htomb : srv'.db.tombstoneAt q = some t :=
          (r.same (.tombstoneKey q) (by simp)).trans ((h.kept q mq hq (.tombstoneKey q) rfl).trans ht)
        rw [hh, hcount]
        exact .inr (.inr (cascade_noFaults hcat ((r.metaAt q).trans hq) htomb))
      · exact .inl (nonempty_iff_ne_empty.mpr hempty)
    · rw [hheld] at hx; cases hx
  · exact h.entries d i ((r.same (.expiryKey d i) (by simp)) ▸ hx)
  · obtain ⟨_, _, he, -⟩ := hnext _ hi
    cases he
  · obtain ⟨_, _, he, hm, hid, hsoft, hempty⟩ := hnext _ hq
    cases he
    rw [r.metaAt, r.forksOf, hid]
    exact ⟨hm, hsoft, h.dropping id hheld, hempty⟩
  · cases ht : srv'.held with
    | none => simp only [rank]; omega
    | some t =>
      obtain ⟨_, _, rfl, -, hid, -⟩ := hnext t ht
      simp only [rank]; omega

theorem goOn : Sweeping db₀ now D srv.goOn ∧ rank srv.goOn.held ≤ rank srv.held - 1 := by
  unfold Server.goOn
  cases hh : srv.held with
  | none => exact ⟨h, by rw [hh]; exact Nat.zero_le _⟩
  | some t =>
    cases t with
    | dropForkRef id =>
      obtain ⟨h', hlt⟩ := h.drop hs hh
      exact ⟨h', Nat.le_sub_one_of_lt hlt⟩
    | deleteStreamLocked p m =>
      obtain ⟨hm, hwhy⟩ := h.deleting p m hh
      obtain ⟨h', hlt⟩ := h.delete hm (.inr hh) (.inr hwhy)
      exact ⟨h', Nat.le_sub_one_of_lt hlt⟩

/-- **The delete in progress ends.** -/
theorem settle : Sweeping db₀ now D srv.settle ∧ srv.settle.held = none := by
  have main : ∀ n (srv : Server), Sweeping db₀ now D srv → rank srv.held ≤ n →
      Sweeping db₀ now D (Server.goOn^[n] srv) ∧ (Server.goOn^[n] srv).held = none := by
    intro n
    induction n with
    | zero =>
      intro srv h hr
      refine ⟨h, ?_⟩
      cases hh : srv.held with
      | none => exact hh
      | some t =>
        rw [hh] at hr
        cases t with
        | dropForkRef id => simp only [rank] at hr; omega
        | deleteStreamLocked p m =>
          have := (h.catalog.ids p m (h.deleting p m hh).1).2
          simp only [rank] at hr
          omega
    | succ n ih =>
      intro srv h hr
      obtain ⟨h', hle⟩ := h.goOn hs
      exact ih _ h' (by omega)
  exact main _ srv h (Nat.le_refl _)

end

theorem done (hx : srv.db.lookup (.expiryKey x.1 x.2) = none) : Sweeping db₀ now (insert x D) srv := by
  refine { h with entries := fun d i hs => ?_ }
  obtain ⟨h1, h2⟩ := h.entries d i hs
  refine ⟨h1, ?_⟩
  rintro (rfl | hmem)
  · rw [hx] at hs; cases hs
  · exact h2 hmem

/-- A stale entry is dropped. -/
theorem stale {i : Nat} (hstale : ∀ p m, srv.db.metaAt p = some m → m.streamID = i → m.deadline ≠ d) :
    Sweeping db₀ now D (srv.commit false [del (.expiryKey d i)]) := by
  have hsame : ∀ k : Key, k ≠ .expiryKey d i →
      (srv.commit false [del (.expiryKey d i)]).db.lookup k = srv.db.lookup k := fun k hk =>
    lookup_applyOps_ne fun op ho he => hk (by rw [← he, mem_singleton.mp ho]; rfl)
  have hmeta : ∀ p, (srv.commit false [del (.expiryKey d i)]).db.metaAt p = srv.db.metaAt p :=
    fun p => hsame (.metaKey p) nofun
  have hforks : ∀ id, forksOf (srv.commit false [del (.expiryKey d i)]).db id = forksOf srv.db id := by
    intro id
    unfold forksOf
    simp only [hmeta]
  refine ⟨h.catalog.quiet fun k hk => hsame k ?_, fun p m hm => h.origin p m ((hmeta p).symm.trans hm),
    fun p m hm k hk => ?_, fun p m hm hn => ?_, fun p m hm => ?_, fun p m hm => ?_, fun d' i' hx => ?_, h.dropping,
    fun p m hh => ?_⟩
  · rintro rfl
    exact hk trivial
  · rw [hmeta] at hm
    refine (hsame k ?_).trans (h.kept p m hm k hk)
    rintro rfl
    exact hstale p m hm hk.2.symm hk.1.symm
  · rw [hmeta] at hn
    obtain ⟨hwhy, htail⟩ := h.gone p m hm hn
    exact ⟨hwhy.imp (fun hd => hd) fun o => o.shrinks fun q hq => (hmeta q).trans hq,
      (hsame (.tailKey _) nofun).trans htail⟩
  · rw [hmeta] at hm
    rw [hforks, refCountAt_congr (hsame (.refCountKey _) nofun)]
    exact h.counts p m hm
  · rw [hmeta] at hm
    rw [hforks]
    exact h.forked p m hm
  · by_cases he : (Key.expiryKey d' i') = .expiryKey d i
    · cases he
      have hnone : (srv.commit false [del (.expiryKey d i)]).db.lookup (.expiryKey d i) = none := by
        show (applyOps srv.db _).lookup _ = none
        rw [lookup_applyOps]
        simp
      rw [hnone] at hx
      cases hx
    · rw [hsame _ he] at hx
      exact h.entries d' i' hx
  · rw [hmeta, hforks]
    exact h.deleting p m hh

end Delete

end Sweeping

/-! ## One entry after the other -/

namespace Server

/-- What becomes of a due entry, when nothing fails: it is the deadline of a stream, or it is stale. -/
theorem expireIfDue_noFaults {srv : Server} (hc : Catalog srv.db) (d : UInt64) (id : Nat) :
    (∃ p m, srv.db.metaAt p = some m ∧ m.streamID = id ∧ m.deadline = d ∧ srv.expireIfDue noFaults true d id =
      if d.toInt64 > srv.sweepNow then srv else srv.deleteStreamLocked true p m) ∨
    ((∀ p m, srv.db.metaAt p = some m → m.streamID = id → m.deadline ≠ d) ∧
      srv.expireIfDue noFaults true d id = srv.commit false [del (.expiryKey d id)]) := by
  have hget : get noFaults srv.db (.idMappingKey id) = .ok (srv.db.idMappingAt id) := rfl
  have hload : ∀ p, loadMeta noFaults srv.db p = .ok (srv.db.metaAt p) := fun _ => rfl
  unfold expireIfDue
  rw [hget]
  by_cases hex : ∃ p m, srv.db.metaAt p = some m ∧ m.streamID = id ∧ m.deadline = d
  · obtain ⟨p, m, hm, hid, hd⟩ := hex
    refine .inl ⟨p, m, hm, hid, hd, ?_⟩
    have hmap : srv.db.idMappingAt id = some p := hid ▸ hc.mapping hm
    simp [hmap, hload, hm, hid, hd]
  · refine .inr ⟨fun p m hm hid hd => hex ⟨p, m, hm, hid, hd⟩, ?_⟩
    cases hmap : srv.db.idMappingAt id with
    | none => rfl
    | some p =>
      simp only [hload]
      cases hm : srv.db.metaAt p with
      | none => rfl
      | some m =>
        refine if_pos (not_and_or.mp fun hcur => hex ⟨p, m, hm, ?_⟩)
        exact hcur

end Server

theorem not_toInt64_gt {now : Int64} (h : (d.toNat : Int) ≤ now.toInt) : ¬ d.toInt64 > now := by
  have hd : d.toInt64.toInt = if 2 * d.toNat < 2 ^ 64 then (d.toNat : Int) else (d.toNat : Int) - 2 ^ 64 :=
    BitVec.toInt_eq_toNat_cond _
  rw [gt_iff_lt, Int64.lt_iff_toInt_lt]
  split at hd <;> omega

/-- An entry that the scan takes and that is not due is put off, unless its deadline wraps. -/
theorem toInt64_gt {now : Int64} (hscan : d < now.toUInt64 + 1) (hlt : now.toInt < d.toNat)
    (hw : -1 ≤ now.toInt ∨ d.toNat < 2 ^ 63 ∨ 2 ^ 64 + now.toInt < d.toNat) : d.toInt64 > now := by
  have hd : d.toInt64.toInt = if 2 * d.toNat < 2 ^ 64 then (d.toNat : Int) else (d.toNat : Int) - 2 ^ 64 :=
    BitVec.toInt_eq_toNat_cond _
  have hnow := toInt_eq_cond now
  have hmax := now.toUInt64.toNat_lt
  rw [UInt64.lt_iff_toNat_lt, UInt64.toNat_add, UInt64.toNat_one] at hscan
  rw [gt_iff_lt, Int64.lt_iff_toInt_lt]
  split at hd <;> split at hnow <;> omega

namespace Sweeping

variable {db₀ : Store} {now : Int64} {D : Set (UInt64 × Nat)} {srv : Server} (hs : Sweepable db₀)
include hs

/-- **One entry of the scan**, with all that its stream takes along. An entry that is not due is met at a clock before
1970 only. -/
theorem entry (hw : NoneWraps db₀ now) (h : Sweeping db₀ now D srv) (hidle : srv.held = none)
    (hx : x ∈ dueEntries db₀ now) : ∃ D', D ⊆ D' ∧ ((x.1.toNat : Int) ≤ now.toInt → x ∈ D') ∧
      Sweeping db₀ now D' (srv.expireEntry now x) ∧ (srv.expireEntry now x).held = none := by
  obtain ⟨d, i⟩ := x
  have h' : Sweeping db₀ now D { srv with sweepNow := now } := { h with }
  rcases expireIfDue_noFaults h'.catalog d i with ⟨p, m, hm, rfl, rfl, he⟩ | ⟨hstale, he⟩
  · have ho := h'.origin p m hm
    by_cases hle : (m.deadline.toNat : Int) ≤ now.toInt
    · refine ⟨_, Set.subset_insert _ D, fun _ => Set.mem_insert _ D, Sweeping.settle ?_ hs⟩
      rw [he, if_neg (not_toInt64_gt hle)]
      have hpos : 0 < m.deadline := (hs.index p m ho).mp (mem_dueEntries.mp hx).1
      refine (h'.delete hm (.inl hidle) (.inl ⟨hpos, hle⟩)).1.done ?_
      show (applyOps srv.db (deleteOps p m)).lookup (.expiryKey m.deadline m.streamID) = none
      rw [lookup_deleteOps_expiry, if_pos ⟨rfl, rfl, hpos⟩]
    · refine ⟨D, Set.Subset.rfl, fun h => absurd h hle, Sweeping.settle ?_ hs⟩
      rw [he, if_pos (toInt64_gt (mem_dueEntries.mp hx).2 (by omega) (hw.imp_right fun hw => hw p m ho))]
      exact h'
  · refine ⟨_, Set.subset_insert _ D, fun _ => Set.mem_insert _ D, Sweeping.settle ?_ hs⟩
    rw [he]
    refine (h'.stale hstale).done ?_
    show (applyOps srv.db _).lookup (.expiryKey d i) = none
    rw [lookup_applyOps]
    simp

theorem fold (hw : NoneWraps db₀ now) : ∀ (l : List (UInt64 × Nat)), (∀ x ∈ l, x ∈ dueEntries db₀ now) →
    ∀ (D : Set (UInt64 × Nat)) (srv : Server), Sweeping db₀ now D srv → srv.held = none →
      ∃ D', D ⊆ D' ∧ (∀ x ∈ l, (x.1.toNat : Int) ≤ now.toInt → x ∈ D') ∧
        Sweeping db₀ now D' (l.foldl (expireEntry now) srv) ∧ (l.foldl (expireEntry now) srv).held = none
  | [], _, D, srv, h, hidle => ⟨D, Set.Subset.rfl, nofun, h, hidle⟩
  | x :: l, hl, D, srv, h, hidle => by
    obtain ⟨D₁, hsub₁, hx, h₁, hidle₁⟩ := entry hs hw h hidle (hl x mem_cons_self)
    obtain ⟨D', hsub, hmem, hdone⟩ := fold hw l (fun y hy => hl y (mem_cons_of_mem _ hy)) D₁ _ h₁ hidle₁
    exact ⟨D', hsub₁.trans hsub, forall_mem_cons.mpr ⟨fun hle => hsub (hx hle), hmem⟩, hdone⟩

end Sweeping

theorem sweepable_of_inv {srv : Server} (hc : CountsInv srv) (hi : IndexInv srv) (hidle : srv.held = none) :
    Sweepable srv.db :=
  ⟨hc.catalog, fun path t ht => (hc.accounts.tombs path t ht).1, fun _ _ hm => hc.refCountAt_eq hidle hm,
    fun _ m hm => (hi.stored.own hc.catalog hm m.deadline).trans (and_iff_right rfl)⟩

/-- The steps of the sample runs: nothing fails, no delete is under way, and no deadline overflows. -/
def calmAction (srv : Server) : Action → Bool
  | .expire | .crash .. => false
  | a => srv.held.isNone &&
    (srv.mark plainLib { action := a }).all fun k => k.now.toUInt64.toNat + k.ttl.toNat + 601 < 2 ^ 64

/-- The server after such steps. -/
def calmRun (actions : List Action) : Option Server :=
  run (guarded (fun srv a => step plainLib srv { action := a }) (calmAction · ·)) (newServer ∅ 0) actions

theorem sweepable_calmRun {actions : List Action} {srv : Server} (h : srv ∈ calmRun actions) (hidle : srv.held = none) :
    Sweepable srv.db := by
  have hinv : CountsInv srv ∧ IndexInv srv := (reach_guarded h).invariant
    (P := fun srv => CountsInv srv ∧ IndexInv srv) (fun s a s' ⟨hc, hi⟩ ha he => ?_)
    ⟨countsInv_start 0, indexInv_start 0⟩
  · exact sweepable_of_inv hinv.1 hinv.2 hidle
  · have hnot : a ≠ .expire ∧ ∀ lost seen, a ≠ .crash lost seen := by
      constructor
      · rintro rfl
        cases ha
      · rintro lost seen rfl
        cases ha
    have hcalm : s.held.isNone ∧ (s.mark plainLib { action := a }).all (fun k =>
        k.now.toUInt64.toNat + k.ttl.toNat + 601 < 2 ^ 64) := by
      cases a <;> first | cases ha | exact Bool.and_eq_true_iff.mp ha
    refine ⟨hc.step ⟨rfl, rfl, hnot.1, fun lost seen he => absurd he (hnot.2 lost seen)⟩ he, hi.step
      ⟨fun hn => absurd (isNone_iff_eq_none.mp hcalm.1) hn, fun k hk => ?_⟩ he⟩
    simpa [hk] using hcalm.2

/-- A soft-deleted source has lost its forks with the only one. -/
theorem Sweepable.orphaned (h : Sweepable db) {db' : Store} (hm : db.metaAt path = some m)
    (hsoft : softDeleted (db.tombstoneAt path) = true) (hone : db.refCountAt m.streamID = 1)
    (hp : p ∈ forksOf db m.streamID) (hgone : db'.metaAt p = none) : Orphaned db db' path m := by
  refine ⟨hsoft, ⟨p, hp⟩, fun q hq => ?_⟩
  obtain ⟨r, hr⟩ := ncard_eq_one.mp ((h.counts path m hm).symm.trans hone)
  rw [hr, mem_singleton_iff] at hp hq
  rw [hq, ← hp]
  exact hgone

/-- A stale entry changes nothing else. -/
theorem Sweepable.addStale (h : Sweepable db) {i : Nat} (hi : ∀ path m, db.metaAt path = some m → m.streamID ≠ i)
    (ttl : UInt64) : Sweepable (applyOps db [put (.expiryKey d i) ttl]) := by
  have hsame : ∀ k : Key, k ≠ .expiryKey d i → (applyOps db [put (.expiryKey d i) ttl]).lookup k = db.lookup k :=
    fun k hk => lookup_applyOps_ne fun op ho he => hk (by rw [← he, mem_singleton.mp ho]; rfl)
  have hmeta : ∀ p, Store.metaAt (applyOps db [put (.expiryKey d i) ttl]) p = db.metaAt p := fun p => hsame (.metaKey p)
    nofun
  refine ⟨h.catalog.quiet (quiet_applyOps fun op ho => by rw [mem_singleton.mp ho]; trivial), fun p t ht => ?_,
    fun p m hm => ?_, fun p m hm => ?_⟩
  · exact h.tombs p t ((hsame (.tombstoneKey p) nofun).symm.trans ht)
  · rw [hmeta] at hm
    rw [refCountAt_congr (hsame (.refCountKey _) nofun), h.counts p m hm]
    simp only [forksOf, hmeta]
  · rw [hmeta] at hm
    rw [hsame _ fun he => hi p m hm (Key.expiryKey.inj he).2]
    exact h.index p m hm

/-- A stream is forked and soft-deleted; the fork has a TTL of 10 seconds, and another stream one of 5000 seconds. -/
def sweepActions : List Action :=
  [.createStream { path := samplePath, contentType := [] } 0 0,
    .createFork { path := forkPath, sourcePath := samplePath, ttl := 10, ttlSet := true } 1000 0,
    .createStream { path := [1], contentType := [], ttl := 5000, ttlSet := true } 1000 0, .deleteStream samplePath]

/-- The server with an entry of a stream that there is not. -/
def withStale (srv : Server) : Server := srv.commit true [put (.expiryKey 5 9) 0]

end Yasdb
