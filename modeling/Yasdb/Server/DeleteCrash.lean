import Yasdb.Server.RefCounts

/-!
# A crash in the middle of a delete

A delete of a fork makes several durable commits: the fork is removed, its source is released, and a soft-deleted source
without forks is removed in turn. A restart goes on with the deletion of records only.

- `consistent_resumed_iff`: the resumed deletions change nothing in this;
- `delete_crash_consistent_iff`: **a delete survives every crash if and only if it needs no second commit**;
- `delete_crash_inconsistent`: the sample fork is deleted, and its source stays.
-/

namespace Yasdb

open Batch Runs List Option Server

variable {db : Store} {srv : Server} {L : GoLib} {db' : Store} {srv' : Server} {seen n : Nat}

/-! ## Consistent stores -/

/-- Every stored reference count is the number of forks (0 is no id), and every soft-deleted stream has forks. -/
structure Consistent (db : Store) : Prop where
  counts : ∀ id n, id ≠ 0 → db.lookup (.refCountKey id) = some n → n = (forksOf db id).ncard
  tombs : ∀ path m, softDeleted (db.tombstoneAt path) = true → db.metaAt path = some m →
    (forksOf db m.streamID).Nonempty

theorem Accounts.consistent (hc : Catalog db) (a : Accounts db none) : Consistent db := by
  refine ⟨fun id n hid hn => ?_, fun path m ht hm => ?_⟩
  · have he := a.exact id hid
    rw [Store.refCountAt, hn] at he
    exact he
  · obtain ⟨t, ht⟩ := softDeleted_some ht
    obtain ⟨-, m', hm', hpos | ⟨_, hh⟩⟩ := a.tombs path t ht
    · cases hm.symm.trans hm'
      have hlt := (hc.ids path m hm).2
      rw [a.exact _ (by omega)] at hpos
      exact (Set.ncard_pos (finite_forksOf _ _)).mp hpos
    · cases hh

/-- The store is consistent exactly when no delete is in progress. -/
theorem CountsInv.consistent_iff (h : CountsInv srv) : Consistent srv.db ↔ srv.held = none := by
  constructor
  · intro hc
    cases hh : srv.held with
    | none => rfl
    | some t =>
      cases t with
      | dropForkRef id =>
        -- the source still counts the fork that is gone
        have hid := (h.forks.dropping id hh).1
        have he := h.accounts.exact id hid
        rw [hh, owed, if_pos rfl] at he
        cases hl : srv.db.lookup (.refCountKey id) with
        | none => rw [Store.refCountAt, hl, getD_none] at he; omega
        | some n =>
          have hn := hc.counts id n hid hl
          rw [Store.refCountAt, hl, getD_some] at he
          exact absurd (hn.symm.trans he) (Nat.ne_of_lt (Nat.lt_succ_self _))
      | deleteStreamLocked path m =>
        obtain ⟨⟨m', hm', hl⟩, hnone⟩ := h.forks.deleting path m hh
        have hne := hc.tombs path m' (h.deleting path m hh) hm'
        rw [show m'.streamID = m.streamID from congrArg Prod.fst hl, hnone] at hne
        exact absurd hne Set.not_nonempty_empty
  · intro hidle
    exact Accounts.consistent h.catalog (hidle ▸ h.accounts)

/-! ## The resumed deletions -/

/-- The step belongs to a background deletion. -/
def Resuming (_ : Server) (e : Event) : Prop := ∃ i scanOk, e.action = .chunk i scanOk

/-- The two stores agree on streams, counts and tombstones. -/
structure SameBooks (db db' : Store) : Prop where
  metas : ∀ path, db'.metaAt path = db.metaAt path
  counts : ∀ id, db'.lookup (.refCountKey id) = db.lookup (.refCountKey id)
  tombs : ∀ path, db'.tombstoneAt path = db.tombstoneAt path

theorem SameBooks.forksOf (h : SameBooks db db') (id : Nat) : forksOf db' id = Yasdb.forksOf db id := by
  unfold Yasdb.forksOf
  simp only [h.metas]

theorem SameBooks.consistent_iff (h : SameBooks db db') : Consistent db' ↔ Consistent db := by
  constructor
  · rintro ⟨h1, h2⟩
    simp only [h.metas, h.counts, h.tombs, h.forksOf] at h1 h2
    exact ⟨h1, h2⟩
  · rintro ⟨h1, h2⟩
    refine ⟨?_, ?_⟩
    · simpa only [h.counts, h.forksOf] using h1
    · simpa only [h.metas, h.tombs, h.forksOf] using h2

theorem sameBooks_resumed (hr : Reach (step L) Resuming srv srv') : SameBooks srv.db srv'.db := by
  refine hr.invariant (P := fun s => SameBooks srv.db s.db) ?_ ⟨fun _ => rfl, fun _ => rfl, fun _ => rfl⟩
  rintro s ⟨action, flt, ok⟩ s' h ⟨i, scanOk, rfl⟩ he
  have hk : ∀ k : Key, k.keyType ∉ [4, 5, 8] → s'.db.lookup k = s.db.lookup k := by
    intro k hk
    cases stepped he with
    | noChunk => rw [setPhase_db]
    | chunk _ hb => rw [setPhase_db]; exact lookup_chunk hb hk
  refine ⟨fun path => ?_, fun id => ?_, fun path => ?_⟩
  · exact (hk (.metaKey path) (by simp)).trans (h.metas path)
  · exact (hk (.refCountKey id) (by simp)).trans (h.counts id)
  · exact (hk (.tombstoneKey path) (by simp)).trans (h.tombs path)

theorem consistent_resumed_iff (hr : Reach (step L) Resuming (newServer db seen) srv) :
    Consistent srv.db ↔ Consistent db :=
  (sameBooks_resumed hr).consistent_iff

/-! ## Crash points of a delete -/

/-- In the middle of a delete, everything is on disk. -/
def Synced (srv : Server) : Prop := srv.held ≠ none → srv.unsynced = []

theorem synced_deleteStream (hidle : srv.held = none) (path : Bytes) :
    Synced (srv.deleteStream noFaults true path) := by
  rw [deleteStream_noFaults]
  split
  · exact fun h => absurd hidle h
  · cases srv.db.metaAt path with
    | none => exact fun h => absurd hidle h
    | some m =>
      rw [elim_some]
      split <;> exact fun _ => rfl

theorem call_states (h : CountsInv srv) (hs : Synced srv)
    (hrun : run (step L) srv (List.replicate n { action := .goOn }) = some srv') :
    CountsInv srv' ∧ Synced srv' := by
  induction n generalizing srv with
  | zero => cases hrun; exact ⟨h, hs⟩
  | succ n ih =>
    obtain ⟨srv₁, he, hrun⟩ := bind_eq_some_iff.mp hrun
    refine ih (h.step (e := { action := .goOn }) ⟨rfl, rfl, nofun, nofun⟩ he) ?_ hrun
    cases stepped he with
    | _ => exact fun _ => rfl

/-- A crash at any point of a delete, and the resumed deletions: the store is consistent if and only if the delete had
nothing left to commit. -/
theorem consistent_crash_iff {srv₁ srv₂ srv₃ : Server} (h : CountsInv srv) (hidle : srv.held = none)
    {path : Bytes} {lost : Nat} (hrun : run (step L) srv (deleteCall path n) = some srv₁)
    (hcrash : step L srv₁ { action := .crash lost seen } = some srv₂)
    (hres : Reach (step L) Resuming srv₂ srv₃) : Consistent srv₃.db ↔ srv₁.held = none := by
  rw [run_deleteCall hidle] at hrun
  obtain ⟨h₁, hs₁⟩ := call_states (h.deleteStream hidle path) (synced_deleteStream hidle path) hrun
  obtain ⟨db, hdb, rfl⟩ := map_eq_some_iff.mp hcrash
  have hdb := mem_of_getElem? hdb
  rw [consistent_resumed_iff hres]
  by_cases hh : srv₁.held = none
  · refine iff_of_true (Accounts.consistent (h₁.forks.server.catalog db hdb) ?_) hh
    rcases mem_cons.mp hdb with rfl | hdb
    · exact hh ▸ h₁.accounts
    · exact h₁.settled hh db hdb
  · rw [hs₁ hh, mem_singleton] at hdb
    rw [hdb]
    exact h₁.consistent_iff

/-- **Deleting a fork is not crash-consistent.** A delete survives a crash at every one of its points if and only if the
stream is still referenced or is no fork. Otherwise a crash after the first commit leaves the store inconsistent. -/
theorem delete_crash_consistent_iff (L : GoLib) (seen : Nat) (srv : Server)
    (hr : Reach (step L) Explicit (newServer ∅ seen) srv) (hidle : srv.held = none) (path : Bytes) :
    ((∀ n srv₁ lost seen' srv₂ srv₃, run (step L) srv (deleteCall path n) = some srv₁ →
        step L srv₁ { action := .crash lost seen' } = some srv₂ →
        Reach (step L) Resuming srv₂ srv₃ → Consistent srv₃.db) ↔
      ∀ m, srv.db.metaAt path = some m → srv.db.refCountAt m.streamID = 0 → m.forkedFrom = 0) ∧
    ∀ m, srv.db.metaAt path = some m → srv.db.refCountAt m.streamID = 0 → m.forkedFrom ≠ 0 →
      ∃ srv₁, run (step L) srv (deleteCall path 0) = some srv₁ ∧
        ∀ lost seen' srv₂ srv₃, step L srv₁ { action := .crash lost seen' } = some srv₂ →
          Reach (step L) Resuming srv₂ srv₃ → ¬ Consistent srv₃.db := by
  have h := CountsInv.reach hr (countsInv_start seen)
  have hfirst : run (step L) srv (deleteCall path 0) = some (srv.deleteStream noFaults true path) :=
    run_deleteCall hidle path 0
  have hfails : ∀ m, srv.db.metaAt path = some m → srv.db.refCountAt m.streamID = 0 → m.forkedFrom ≠ 0 →
      (srv.deleteStream noFaults true path).held ≠ none := by
    intro m hm h0 hf hn
    rw [(h.hard_delete hidle hm h0).1] at hn
    change (if m.forkedFrom ≠ 0 then some (Task.dropForkRef m.forkedFrom) else none) = none at hn
    rw [if_pos hf] at hn
    cases hn
  refine ⟨⟨fun hall m hm h0 => ?_, fun hcond n srv₁ lost seen' srv₂ srv₃ hrun hcrash hres => ?_⟩,
    fun m hm h0 hf => ⟨_, hfirst, fun lost seen' srv₂ srv₃ hcrash hres hc => ?_⟩⟩
  · by_contra hf
    have hcrash : step L (srv.deleteStream noFaults true path) { action := .crash 0 0 } =
        some (newServer (srv.deleteStream noFaults true path).db 0) := rfl
    exact hfails m hm h0 hf ((consistent_crash_iff h hidle hfirst hcrash (.refl _)).mp
      (hall 0 _ 0 0 _ _ hfirst hcrash (.refl _)))
  · refine (consistent_crash_iff h hidle hrun hcrash hres).mpr ?_
    -- the first commit is the only one
    have hnone : (srv.deleteStream noFaults true path).held = none := by
      cases hm : srv.db.metaAt path with
      | none =>
        rw [deleteStream_noFaults, hm]
        split <;> exact hidle
      | some m =>
        by_cases h0 : srv.db.refCountAt m.streamID = 0
        · rw [(h.hard_delete hidle hm h0).1]
          exact if_neg (not_not.mpr (hcond m hm h0))
        · exact (CountsInv.soft_delete hidle hm (by omega)).1
    rw [run_deleteCall hidle] at hrun
    cases n with
    | zero => cases hrun; exact hnone
    | succ n =>
      obtain ⟨_, he, -⟩ := bind_eq_some_iff.mp hrun
      simp only [step, hnone] at he
      cases he
  · exact hfails m hm h0 hf ((consistent_crash_iff h hidle hfirst hcrash hres).mp hc)

/-- The source of the sample fork may be deleted with a crash at any point. -/
theorem delete_crash_consistent_source : ∃ srv, Reach (step plainLib) Explicit (newServer ∅ 0) srv ∧
    srv.held = none ∧ (srv.db.metaAt samplePath).isSome = true ∧
    ∀ n srv₁ lost seen srv₂ srv₃, run (step plainLib) srv (deleteCall samplePath n) = some srv₁ →
      step plainLib srv₁ { action := .crash lost seen } = some srv₂ →
      Reach (step plainLib) Resuming srv₂ srv₃ → Consistent srv₃.db := by
  obtain ⟨srv, hs, src, hsrc, hidle, hid, h1⟩ : ∃ srv ∈ run (step plainLib) (newServer ∅ 0) forkEvents,
      ∃ src ∈ srv.db.metaAt samplePath, srv.held = none ∧ src.streamID = 1 ∧ srv.db.refCountAt 1 = 1 := by decide
  have hr := reach_of_run (fun e he => explicit_softEvents e (mem_append_left _ he)) hs
  refine ⟨srv, hr, hidle, by rw [hsrc]; rfl,
    (delete_crash_consistent_iff plainLib 0 srv hr hidle samplePath).1.mpr fun m hm h0 => ?_⟩
  rw [hsrc, some.injEq] at hm
  rw [← hm, hid, h1] at h0
  cases h0

/-- **The sample fork is deleted after its source, with a crash after the first commit.** When the resumed deletion has
ended, the source still counts the fork, and nothing is left that would remove it. -/
theorem delete_crash_inconsistent : ∃ srv srv₁ srv₂ srv₃ src,
    Reach (step plainLib) Explicit (newServer ∅ 0) srv ∧ srv.held = none ∧
    run (step plainLib) srv (deleteCall forkPath 0) = some srv₁ ∧
    step plainLib srv₁ { action := .crash 0 10 } = some srv₂ ∧ Reach (step plainLib) Resuming srv₂ srv₃ ∧
    srv₃.deleting = [] ∧ srv₃.held = none ∧ srv₃.db.lookup (.refCountKey 1) = some 1 ∧ forksOf srv₃.db 1 = ∅ ∧
    srv₃.db.metaAt samplePath = some src ∧ src.streamID = 1 ∧ softDeleted (srv₃.db.tombstoneAt samplePath) = true := by
  obtain ⟨srv, hs, srv₁, hs₁, srv₂, hs₂, srv₃, hs₃, hidle, hheld, hdone, hheld₃, hcount, hany, hsoft⟩ :
      ∃ srv ∈ run (step plainLib) (newServer ∅ 0) softEvents, ∃ srv₁ ∈ run (step plainLib) srv
      (deleteCall forkPath 0), ∃ srv₂ ∈ step plainLib srv₁ { action := .crash 0 10 },
      ∃ srv₃ ∈ run (step plainLib) srv₂ (List.replicate 5 { action := .chunk 0 true }), srv.held = none ∧
      srv₁.held = some (.dropForkRef 1) ∧ srv₃.deleting = [] ∧ srv₃.held = none ∧
      srv₃.db.lookup (.refCountKey 1) = some 1 ∧ (srv₃.db.metaAt samplePath).any (·.streamID = 1) = true ∧
      softDeleted (srv₃.db.tombstoneAt samplePath) = true := by decide +kernel
  obtain ⟨src, hsrc, hid⟩ := (Option.any_eq_true _ _).mp hany
  have hr := reach_of_run explicit_softEvents hs
  have hres : Reach (step plainLib) Resuming srv₂ srv₃ :=
    reach_of_run (fun e he _ => ⟨0, true, by rw [eq_of_mem_replicate he]⟩) hs₃
  refine ⟨srv, srv₁, srv₂, srv₃, src, hr, hidle, hs₁, hs₂, hres, hdone, hheld₃, hcount, ?_, hsrc,
    of_decide_eq_true hid, hsoft⟩
  -- the count of 1 is the release that is owed
  have h₁ : CountsInv srv₁ := by
    rw [run_deleteCall hidle] at hs₁
    exact (call_states ((CountsInv.reach hr (countsInv_start 0)).deleteStream hidle forkPath)
      (synced_deleteStream hidle forkPath) hs₁).1
  have hbooks := sameBooks_resumed hres
  rw [show srv₂ = newServer srv₁.db 10 from some.inj hs₂.symm] at hbooks
  have hbooks : SameBooks srv₁.db srv₃.db := hbooks
  have he := h₁.accounts.exact 1 (by decide)
  rw [Store.refCountAt, ← hbooks.counts, hcount, hheld, owed, if_pos rfl] at he
  rw [hbooks.forksOf]
  exact (Set.ncard_eq_zero (finite_forksOf _ _)).mp (Nat.succ.inj he.symm)

end Yasdb
