import Yasdb.Lifecycle.Steps

/-!
# Deletion is final

`removeStreamer` marks the streamer of a deleted stream dead and closes its `stop` channel, but it does not wait for its
goroutine: a planned burst, a buffered request, a touch signal or a queued job can still be committed after the hard
delete.

- `burst_survives_delete`: the burst of a deleted stream overwrites the metadata of its successor;
- `deletion_final`: **no streamer writes for a deleted stream** if its streamers have no work left at every hard delete
  (`deletesQuietly`);
- `ids_never_reused`: nor is an id used again.
-/

namespace Yasdb.Lifecycle

open Batch Runs World

/-- **Deletion is final** in every run that deletes streams only when their streamers are quiet, under either
committer. -/
theorem deletion_final (L : GoLib) (mode : Durability) (batchMax : Nat) (w : World)
    (h : Reach (step L mode batchMax) (fun w e => deletesQuietly w e = true) start w) :
    w.history.Pairwise Entry.Final ∧ ∀ p, (w.db.metaAt p).map (·.streamID) = owners w.history p := by
  obtain ⟨ks, hi⟩ := inv_reach (Q := True) (R := False) (fun _ _ _ hc => hc) False.elim h
  have hl := hi.data.log trivial
  exact ⟨hl.final, hl.stored⟩

/-! ## Sample runs -/

/-- `n` accesses of the handler `t`, none of which fails. -/
def acts (t n : Nat) : List Event := List.replicate n (.act t noFaults true)

def sampleType : Bytes := [97]

/-- A POST of one record by the sample producer. -/
def samplePost (seq : Nat) : Post where
  body := [0]
  contentType := sampleType
  producer := some ⟨sampleProducer, 0, seq⟩

/-- A PUT of the sample path, from its arrival to its answer. -/
def putEvents (t : Nat) : List Event :=
  .arrive t (.createStream { path := samplePath, contentType := sampleType } 0 0) :: acts t 4

/-- A POST is handed to a new streamer of the sample path, which plans it. -/
def postEvents (t : Nat) (p : Post) : List Event :=
  .arrive t (.handlePost samplePath p) :: acts t 14 ++ [.move 0 .recv, .move 0 (.plan noFaults 0)]

/-- A DELETE of the sample path with a resident streamer. -/
def deleteEvents (t : Nat) : List Event := .arrive t (.deleteStream samplePath) :: acts t 14

/-- A stream is appended to and deleted, and the path is used again. -/
def deleteAfterCommit : List Event :=
  putEvents 0 ++ postEvents 1 (samplePost 0) ++ [.move 0 (.commit true)] ++ deleteEvents 2 ++ putEvents 3

/-- The streamer has answered its append before the delete, and the path belongs to the new stream. -/
theorem deletion_final_recreated :
    ∃ w, Reach (step plainLib .sync 1) (fun w e => deletesQuietly w e = true) start w ∧
      owners w.history samplePath = some 2 ∧ w.history.Pairwise Entry.Final ∧
      ∀ p, (w.db.metaAt p).map (·.streamID) = owners w.history p := by
  obtain ⟨w, hrun, hown⟩ : ∃ w ∈ run (guarded (step plainLib .sync 1) fun w e => deletesQuietly w e) start
      deleteAfterCommit, owners w.history samplePath = some 2 := by decide
  have hr := reach_guarded hrun
  exact ⟨w, hr, hown, deletion_final plainLib .sync 1 w hr⟩

/-- **No id is used again** in such a run: it is at one path at most, and at none once its stream is deleted. -/
theorem ids_never_reused {L : GoLib} {mode : Durability} {batchMax : Nat} {w : World}
    (h : Reach (step L mode batchMax) (fun w e => deletesQuietly w e = true) start w) {p q : Bytes} {m m' : StreamMeta}
    (hm : w.db.metaAt p = some m) : .hardDelete q m.streamID ∉ w.history ∧
      (w.db.metaAt q = some m' → m'.streamID = m.streamID → p = q) := by
  obtain ⟨ks, hi⟩ := inv_reach (Q := True) (R := False) (fun _ _ _ hc => hc) False.elim h
  have hl := hi.data.log trivial
  have hp : owners w.history p = some m.streamID := by rw [← hl.stored, hm]; rfl
  refine ⟨fun hd => (hl.deleted q _ hd).2 p hp, fun hm' he => hl.inj p q _ hp ?_⟩
  rw [← hl.stored, hm', ← he]
  rfl

theorem ids_never_reused_recreated : ∃ w, Reach (step plainLib .sync 1) (fun w e => deletesQuietly w e = true) start w ∧
    .hardDelete samplePath 2 ∉ w.history := by
  obtain ⟨w, hw, m, hm, hid⟩ : ∃ w ∈ run (guarded (step plainLib .sync 1) fun w e => deletesQuietly w e) start
      deleteAfterCommit, ∃ m ∈ w.db.metaAt samplePath, m.streamID = 2 := by decide
  have hr := reach_guarded hw
  exact ⟨w, hr, hid ▸ (@ids_never_reused _ _ _ _ hr _ _ _ m hm).1⟩

/-- A streamer has planned the closure of its stream when the stream is deleted and the path used again; then it
commits. -/
def deleteBeforeCommit : List Event :=
  putEvents 0 ++ postEvents 1 { closeStream := true } ++ deleteEvents 2 ++ putEvents 3 ++ [.move 0 (.commit true)]

/-- The commit is one of a streamer of the stream `id` and writes the metadata of a path. -/
def rewritesMeta (path : Bytes) (id : Nat) : Entry → Bool
  | .streamer i ops => i == id && ops.any fun op => op.key == .metaKey path
  | _ => false

theorem not_final_of_rewritesMeta {path : Bytes} {id : Nat} {e : Entry} (h : rewritesMeta path id e = true) :
    ¬ Entry.Final (.hardDelete path id) e := by
  intro hf
  cases e with
  | streamer i ops =>
    simp only [rewritesMeta, Bool.and_eq_true, beq_iff_eq, List.any_eq_true] at h
    obtain ⟨rfl, op, ho, hk⟩ := h
    exact (hf path i ops rfl rfl op ho).1 hk
  | _ => cases h

/-- The last of four commits writes metadata, after a delete. -/
def writesLast : List Entry → Bool
  | [_, .hardDelete p i, _, e] => p == samplePath && i == 1 && rewritesMeta samplePath 1 e
  | _ => false

/-- **A planned burst survives the delete**: the streamer of the deleted stream 1 commits after it, and its metadata
replaces that of stream 2, created at the path in the meantime. -/
theorem burst_survives_delete :
    ∃ w, Reach (step plainLib .sync 1) Any start w ∧ ¬ w.history.Pairwise Entry.Final ∧
      (w.db.metaAt samplePath).map (·.streamID) = some 1 ∧ owners w.history samplePath = some 2 := by
  obtain ⟨w, hw, hm, ho, hh⟩ : ∃ w ∈ run (step plainLib .sync 1) start deleteBeforeCommit,
      (w.db.metaAt samplePath).map (·.streamID) = some 1 ∧ owners w.history samplePath = some 2 ∧
        writesLast w.history = true := by decide
  refine ⟨w, reach_any hw, fun hf => ?_, hm, ho⟩
  unfold writesLast at hh
  split at hh
  · rename_i p i _ e hist
    simp only [Bool.and_eq_true, beq_iff_eq] at hh
    obtain ⟨⟨rfl, rfl⟩, he⟩ := hh
    rw [hist] at hf
    have := (List.pairwise_cons.mp (List.pairwise_cons.mp hf).2).1 e (by simp)
    exact not_final_of_rewritesMeta he this
  · cases hh

end Yasdb.Lifecycle
