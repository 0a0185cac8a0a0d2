import Yasdb.Server.RefCounts

/-!
# Failed reads of reference counts

`loadRefCount` answers 0 when the read fails. A delete then removes a stream that has forks, a new fork sets the count
of its source to 1, and a release sets it to 0 and may go on to remove the source.

- `counts_survive_failed_reads`: nothing is lost in a run in which only counts of streams without forks fail to be read;
- `failed_read_destroys`: each of the three callers goes wrong otherwise.
-/

namespace Yasdb

open Batch Runs Server

/-- What the step removes has no forks. -/
def RemovesUnforked (srv srv' : Server) : Prop :=
  ∀ path m, srv.db.metaAt path = some m → srv'.db.metaAt path = none → forksOf srv.db m.streamID = ∅

namespace RemovesUnforked

variable {srv srv' : Server}

theorem of_kept (h : ∀ path m, srv.db.metaAt path = some m → ∃ m', srv'.db.metaAt path = some m') :
    RemovesUnforked srv srv' := by
  intro path m hm hn
  obtain ⟨m', hm'⟩ := h path m hm
  rw [hn] at hm'
  cases hm'

theorem calm (c : srv.Calm srv') : RemovesUnforked srv srv' := by
  refine of_kept fun path m hm => ?_
  obtain ⟨m', hm', -⟩ := c.grows.kept hm
  exact ⟨m', hm'⟩

theorem created {path : Bytes} {m : StreamMeta} {records : List Bytes} {count : Nat}
    (c : srv.Created srv' path m records count) : RemovesUnforked srv srv' := by
  refine of_kept fun p m' hm => ⟨m', (c.adds.metaAt_ne fun he => ?_).trans hm⟩
  rw [he, c.adds.fresh] at hm
  cases hm

theorem deleted (hc : Catalog srv.db) {ok : Bool} {path : Bytes} {m m' : StreamMeta}
    (hm : srv.db.metaAt path = some m') (hl : m'.lineage = m.lineage) (hnone : forksOf srv.db m.streamID = ∅)
    (d : srv.Deleted srv' ok path m) : RemovesUnforked srv srv' := by
  have hdb := d.db
  cases ok with
  | false =>
    rw [if_neg Bool.false_ne_true] at hdb
    exact of_kept fun _ m hm => ⟨m, hdb ▸ hm⟩
  | true =>
    rw [if_pos rfl] at hdb
    have hid : m'.streamID = m.streamID := congrArg Prod.fst hl
    have r := removes_delete hc hm hid
    rw [← hdb] at r
    intro p m₁ hp hn
    by_cases he : p = path
    · rw [he, hm, Option.some.injEq] at hp
      rw [← hp, hid]
      exact hnone
    · rw [show srv'.db.metaAt p = srv.db.metaAt p from r.rewrites.frame (.metaKey p) he, hp] at hn
      cases hn

theorem dropForkRef (srv : Server) (flt : Faults) (ok : Bool) (id : Nat) :
    RemovesUnforked srv (srv.dropForkRef flt ok id) := by
  refine of_kept fun p m hm => ⟨m, ?_⟩
  cases ok with
  | false => exact hm
  | true => exact ((recounts_put _ _ _).metaAt p).trans hm

/-- **A step that meets the condition removes no stream with forks.** -/
theorem step (h : ForksInv srv) {L : GoLib} {e : Event} (hk : SparesForks srv e)
    (hcrash : ∀ lost seen, e.action ≠ .crash lost seen) (he : step L srv e = some srv') :
    RemovesUnforked srv srv' := by
  cases h.server.moves he with
  | calm c => exact calm c
  | softDeleted => exact calm (calm_softDeleteLocked h.server e.ok _ _)
  | created _ c => exact created c
  | deleted why d =>
    obtain ⟨⟨m', hm', hl⟩, hnone⟩ := h.unforked hk why
    exact deleted h.server.stored hm' hl hnone d
  | released => exact dropForkRef srv e.flt e.ok _
  | restarted hc => exact absurd hc (hcrash _ _)

end RemovesUnforked

/-- **Failed reads of reference counts.** If reference counts fail to be read only for streams without forks, and no
sweep comes upon the deadline of a stream with forks, every stored count is at least the number of forks, and no
operation removes a stream that has forks. -/
theorem counts_survive_failed_reads (L : GoLib) (seen : Nat) (srv : Server)
    (hr : Reach (step L) SparesForks (newServer ∅ seen) srv) :
    (∀ id, id ≠ 0 → (forksOf srv.db id).ncard ≤ srv.db.refCountAt id) ∧
      ∀ e srv', SparesForks srv e → (∀ lost seen, e.action ≠ .crash lost seen) → step L srv e = some srv' →
        ∀ path m, srv.db.metaAt path = some m → srv'.db.metaAt path = none → forksOf srv.db m.streamID = ∅ := by
  have h : ForksInv srv := hr.invariant (fun _ _ _ h hk he => h.step hk he) (.start_empty seen)
  exact ⟨h.counted _ List.mem_cons_self, fun e srv' hk hcrash he => RemovesUnforked.step h hk hcrash he⟩

/-! ## Sample runs -/

/-- The reference count of `id` cannot be read. -/
def unreadable (id : Nat) : Faults := fun k => k = .refCountKey id

/-- A second path. -/
def secondPath : Bytes := [47, 103]

/-- A stream with a fork, and another one without. -/
def besideEvents : List Event :=
  forkEvents ++ [{ action := .createStream { path := secondPath, contentType := [], body := [1] } 0 0 }]

/-- The second stream has no forks, and a delete cannot read its count: the stream goes, and nothing else is lost. -/
theorem counts_survive_failed_reads_unforked : ∃ srv srv',
    Reach (step plainLib) SparesForks (newServer ∅ 0) srv' ∧
    step plainLib srv { action := .deleteStream secondPath, flt := unreadable 3 } = some srv' ∧
    (srv.db.metaAt secondPath).isSome = true ∧ srv'.db.metaAt secondPath = none ∧ forksOf srv.db 3 = ∅ ∧
    forkPath ∈ forksOf srv'.db 1 ∧ ∀ id, id ≠ 0 → (forksOf srv'.db id).ncard ≤ srv'.db.refCountAt id := by
  obtain ⟨srv, hs, srv', hs', hany, hgone, hfork, h0⟩ : ∃ srv ∈ run (step plainLib) (newServer ∅ 0) besideEvents,
      ∃ srv' ∈ step plainLib srv { action := .deleteStream secondPath, flt := unreadable 3 },
      (srv.db.metaAt secondPath).isSome = true ∧ srv'.db.metaAt secondPath = none ∧ forkPath ∈ forksOf srv'.db 1 ∧
      srv.db.refCountAt 3 = 0 := by decide
  have hr : Reach (step plainLib) SparesForks (newServer ∅ 0) srv := by
    refine reach_of_run (fun e he s => ?_) hs
    simp only [besideEvents, forkEvents, List.mem_append, List.mem_cons, List.not_mem_nil, or_false] at he
    rcases he with (rfl | rfl | rfl | rfl) | rfl
    all_goals
      refine ⟨fun _ hf => ?_, fun _ _ _ _ _ he => ?_⟩
      · cases hf
      · cases he
  have hnone : forksOf srv.db 3 = ∅ :=
    forksOf_eq_empty (counts_survive_failed_reads plainLib 0 srv hr).1 (by decide) h0
  have hk : SparesForks srv { action := .deleteStream secondPath, flt := unreadable 3 } := by
    refine ⟨fun id hf => ?_, fun _ _ _ _ _ he => by cases he⟩
    have hid : Key.refCountKey id = .refCountKey 3 := of_decide_eq_true hf
    cases hid
    exact hnone
  exact ⟨srv, srv', hr.tail hk hs', hs', hany, hgone, hnone, hfork,
    (counts_survive_failed_reads plainLib 0 srv' (hr.tail hk hs')).1⟩

/-- A second fork of the sample stream. -/
def secondFork : Action := .createFork { path := secondPath, sourcePath := samplePath, body := [4] } 0 0

/-- Both forks are there, the source is soft-deleted, and the first fork is removed. -/
def releaseEvents : List Event :=
  forkEvents ++ [{ action := secondFork }, { action := .deleteStream samplePath }, { action := .deleteStream forkPath }]

/-- **A count that cannot be read destroys shared data.** A delete removes a source that has a fork; a new fork sets the
count of its source to 1 while it has two; and the release of a source with another fork removes it. -/
theorem failed_read_destroys :
    (∃ srv srv', Reach (step plainLib) Any (newServer ∅ 0) srv ∧
      step plainLib srv { action := .deleteStream samplePath, flt := unreadable 1 } = some srv' ∧
      forkPath ∈ forksOf srv.db 1 ∧ srv.db.idMappingAt 1 = some samplePath ∧ srv'.db.metaAt samplePath = none ∧
      forkPath ∈ forksOf srv'.db 1) ∧
    (∃ srv srv', Reach (step plainLib) Any (newServer ∅ 0) srv ∧
      step plainLib srv { action := secondFork, flt := unreadable 1 } = some srv' ∧
      srv'.db.lookup (.refCountKey 1) = some 1 ∧ 1 < (forksOf srv'.db 1).ncard) ∧
    ∃ srv srv' srv'', Reach (step plainLib) Any (newServer ∅ 0) srv ∧ srv.held = some (.dropForkRef 1) ∧
      step plainLib srv { action := .goOn, flt := unreadable 1 } = some srv' ∧
      srv'.db.lookup (.refCountKey 1) = some 0 ∧ secondPath ∈ forksOf srv'.db 1 ∧
      step plainLib srv' { action := .goOn } = some srv'' ∧ srv.db.idMappingAt 1 = some samplePath ∧
      srv''.db.metaAt samplePath = none ∧ secondPath ∈ forksOf srv''.db 1 := by
  refine ⟨?_, ?_, ?_⟩
  · obtain ⟨srv, hs, srv', hs', hp⟩ : ∃ srv ∈ run (step plainLib) (newServer ∅ 0) forkEvents,
        ∃ srv' ∈ step plainLib srv { action := .deleteStream samplePath, flt := unreadable 1 },
        forkPath ∈ forksOf srv.db 1 ∧ srv.db.idMappingAt 1 = some samplePath ∧ srv'.db.metaAt samplePath = none ∧
        forkPath ∈ forksOf srv'.db 1 := by decide
    exact ⟨srv, srv', reach_any hs, hs', hp⟩
  · obtain ⟨srv, hs, srv', hs', hcount, hfork, hsecond⟩ : ∃ srv ∈ run (step plainLib) (newServer ∅ 0) forkEvents,
        ∃ srv' ∈ step plainLib srv { action := secondFork, flt := unreadable 1 },
        srv'.db.lookup (.refCountKey 1) = some 1 ∧ forkPath ∈ forksOf srv'.db 1 ∧ secondPath ∈ forksOf srv'.db 1 := by
      decide
    exact ⟨srv, srv', reach_any hs, hs', hcount,
      (Set.one_lt_ncard (finite_forksOf _ _)).mpr ⟨forkPath, hfork, secondPath, hsecond, by decide⟩⟩
  · obtain ⟨srv, hs, srv', hs', srv'', hs'', hheld, hcount, hsecond, hmap, hgone, hsecond'⟩ :
        ∃ srv ∈ run (step plainLib) (newServer ∅ 0) releaseEvents,
        ∃ srv' ∈ step plainLib srv { action := .goOn, flt := unreadable 1 },
        ∃ srv'' ∈ step plainLib srv' { action := .goOn }, srv.held = some (.dropForkRef 1) ∧
        srv'.db.lookup (.refCountKey 1) = some 0 ∧ secondPath ∈ forksOf srv'.db 1 ∧
        srv.db.idMappingAt 1 = some samplePath ∧ srv''.db.metaAt samplePath = none ∧
        secondPath ∈ forksOf srv''.db 1 := by decide
    exact ⟨srv, srv', srv'', reach_any hs, hheld, hs', hcount, hsecond, hs'', hmap, hgone, hsecond'⟩

end Yasdb
