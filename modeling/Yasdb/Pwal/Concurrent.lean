import Yasdb.Pwal.Crash
import Yasdb.Pwal.Restarts

/-!
# Concurrent commits

Calls of one session in any interleaving. The numbers are given out when the batches are staged, and the index is
updated later, so two calls that write one key may be ordered differently in the index and in the files.

- `ConcurrentInv.step`: if they are not, the index is what the batches leave in the order of their numbers;
- `concurrent_replayed`: **then a restart** rebuilds the map that `Get` and `Scan` showed before;
- `concurrent_reordered`: two puts of one key, where the one with the smaller number comes second.
-/

namespace Yasdb.Pwal

open Batch BigEndian Runs Function List Option Sys Staged Call

variable {i : Nat} {ops : List Op}

/-- The batch of a call that is going to update the index. -/
def Call.staged : Call → Option (Nat × List Op)
  | .index ops _ seq _ => some (seq, ops)
  | _ => none

/-- The batch has a larger number than `seq` and a key in common with `ops`. -/
def Staged.Follows (seq : Nat) (ops : List Op) (r : Staged) : Prop :=
  seq < r.seq ∧ ∃ op ∈ ops, ∃ op' ∈ r.ops, op'.key = op.key

instance (seq : Nat) (ops : List Op) (r : Staged) : Decidable (r.Follows seq ops) :=
  inferInstanceAs (Decidable (seq < r.seq ∧ ∃ op ∈ ops, ∃ op' ∈ r.ops, op'.key = op.key))

/-- What is staged fits into its record, and when a call updates the index, no batch with a larger number and a common
key has done so before. -/
def Call.InOrder (crc : Bytes → UInt32) (s : Sys) : Call → Prop
  | .select _ => True
  | .stage ops j => Fits crc ((s.store.shards j).nextSeq, ops)
  | .index ops _ seq _ => ∀ k < s.store.numShards, ∀ r ∈ s.staged k, r.Follows seq ops →
      ∃ c ∈ s.calls, c.staged.map Prod.fst = some r.seq

/-- No write fails, calls proceed in order, and the session goes on. -/
def UpdatesInOrder (crc : Bytes → UInt32) (s : Sys) : Event → Prop
  | .commitAsync _ => True
  | .call i short => short = none ∧ ∀ c ∈ s.calls[i]?, c.InOrder crc s
  | .flush _ _ => True
  | .reopen => False
  | .crash _ => False

instance (crc : Bytes → UInt32) (s : Sys) : ∀ c : Call, Decidable (c.InOrder crc s)
  | .select _ => inferInstanceAs (Decidable True)
  | .stage ops j => inferInstanceAs (Decidable (Fits crc ((s.store.shards j).nextSeq, ops)))
  | .index ops _ seq _ => inferInstanceAs (Decidable (∀ k < s.store.numShards, ∀ r ∈ s.staged k, r.Follows seq ops →
      ∃ c ∈ s.calls, c.staged.map Prod.fst = some r.seq))

instance (crc : Bytes → UInt32) (s : Sys) : ∀ e, Decidable (UpdatesInOrder crc s e)
  | .commitAsync _ => inferInstanceAs (Decidable True)
  | .call _ _ => inferInstanceAs (Decidable (_ ∧ _))
  | .flush _ _ => inferInstanceAs (Decidable True)
  | .reopen | .crash _ => inferInstanceAs (Decidable False)

/-! ## The invariant -/

/-- The batches staged whose calls have not updated the index yet. -/
def Sys.waiting (s : Sys) : List (Nat × List Op) := s.calls.filterMap Call.staged

/-- The batches `done` have updated the index. -/
structure ConcurrentInv (crc : Bytes → UInt32) (done : List (Nat × List Op)) (s : Sys) : Prop where
  count : 0 < s.store.numShards
  shards : ∀ i, ShardLog crc s.store.numShards i ((s.staged i).map Staged.record) (s.store.shards i)
  valid : ∀ c ∈ s.calls, c.Valid s.store.numShards
  perm : (allRecs s.store.numShards fun i => (s.staged i).map Staged.record).Perm (done ++ s.waiting)
  tree : Indexes s.store.files s.store.tree (replay done)
  locs : ∀ ops j seq locs, Call.index ops j seq locs ∈ s.calls → ∀ k,
    EffectRel (fun _ => Holds s.store.files) k (effect k (indexOps j locs ops)) (effect k ops)

theorem effectRel_append {files files' : Nat → Bytes} (hf : ∀ i, ∃ more, files' i = files i ++ more) {k : Bytes}
    {a : Option (Option Entry)} {b : Option (Option Bytes)} (h : EffectRel (fun _ => Holds files) k a b) :
    EffectRel (fun _ => Holds files') k a b := by
  cases h with
  | none => exact .none
  | some h =>
    cases h with
    | none => exact .some .none
    | some h => exact .some (.some (h.append hf))

theorem waiting_set {calls : List Call} {c : Call} (hc : calls[i]? = some c) (hst : c.staged = none)
    (c' : Call) : ((calls.set i c').filterMap staged).Perm (c'.staged.toList ++ calls.filterMap staged) := by
  obtain ⟨hi, rfl⟩ := List.getElem?_eq_some_iff.mp hc
  have hsplit : calls = calls.take i ++ calls[i] :: calls.drop (i + 1) := by
    rw [getElem_cons_drop, take_append_drop]
  rw [set_eq_take_append_cons_drop, if_pos hi]
  conv_rhs => rw [hsplit]
  rw [filterMap_append, filterMap_append, filterMap_cons_none hst]
  cases hc' : c'.staged with
  | none => rw [filterMap_cons_none hc']; exact List.Perm.refl _
  | some r => rw [filterMap_cons_some hc']; exact perm_middle

theorem waiting_eraseIdx {calls : List Call} {c : Call} (hc : calls[i]? = some c) {r : Nat × List Op}
    (hst : c.staged = some r) :
    (calls.filterMap staged).Perm (r :: (calls.eraseIdx i).filterMap staged) := by
  obtain ⟨hi, rfl⟩ := List.getElem?_eq_some_iff.mp hc
  have h := (getElem_cons_eraseIdx_perm hi).symm.filterMap staged
  rwa [filterMap_cons_some hst] at h

namespace ConcurrentInv

variable {crc : Bytes → UInt32} {done : List (Nat × List Op)} {s : Sys}

theorem start (crc : Bytes → UInt32) (shardCount : Nat) : ConcurrentInv crc [] (start crc shardCount fun _ => []) := by
  have h := restartInv_start crc shardCount
  have hnil : (allRecs (Sys.start crc shardCount fun _ => []).store.numShards fun _ => []) = [] :=
    flatMap_eq_nil_iff.mpr fun _ _ => rfl
  refine ⟨h.count, h.shards, nofun, ?_, ?_, nofun⟩
  · exact (List.Perm.of_eq hnil)
  · have hphase := h.phase
    rw [hnil] at hphase
    cases hphase with
    | idle hs hi => exact hi

variable (h : ConcurrentInv crc done s)
include h

theorem nodup : ((done ++ s.waiting).map Prod.fst).Nodup :=
  (h.perm.map Prod.fst).nodup_iff.mp (nodup_allRecs h.shards)

theorem select (hc : s.calls[i]? = some (.select ops)) : ConcurrentInv crc done (s.call crc i none (.select ops)) := by
  have hw := waiting_set hc rfl (.stage ops (s.store.nextShard % s.store.numShards))
  refine ⟨h.count, h.shards, fun c hm => ?_, h.perm.trans (hw.symm.append_left done), h.tree,
    fun ops' j seq locs hm => ?_⟩
  · rcases mem_or_eq_of_mem_set hm with hm | rfl
    · exact h.valid c hm
    · exact Nat.mod_lt _ h.count
  · rcases mem_or_eq_of_mem_set hm with hm | hm
    · exact h.locs ops' j seq locs hm
    · cases hm

/-- A call stages its batch. -/
theorem stage {j : Nat} (hc : s.calls[i]? = some (.stage ops j))
    (hfit : Fits crc ((s.store.shards j).nextSeq, ops)) :
    ConcurrentInv crc done (s.call crc i none (.stage ops j)) := by
  have hj : j < s.store.numShards := h.valid _ (mem_of_getElem? hc)
  have hshards := shardLogs_stage h.shards hfit
  have hfiles := file_stage crc s.store.shards j ops
  rw [call_stage]
  have hrecs : (fun k => ((update s.staged j (s.staged j ++ [⟨(s.store.shards j).nextSeq, ops,
      ((s.store.shards j).stage crc ops none).1.file.length⟩])) k).map record) =
      update (fun k => (s.staged k).map record) j
        ((s.staged j).map record ++ [((s.store.shards j).nextSeq, ops)]) := by
    funext k
    by_cases hk : k = j
    · subst hk
      simp [record]
    · simp [hk]
  refine ⟨h.count, fun k => ?_, fun c hm => ?_, ?_, h.tree.append hfiles, fun ops' j' seq locs hm k => ?_⟩
  · exact (congrFun hrecs k) ▸ hshards k
  · rcases mem_or_eq_of_mem_set hm with hm | rfl
    · exact h.valid c hm
    · trivial
  · have hw := waiting_set hc rfl (.index ops j (s.store.shards j).nextSeq ((s.store.shards j).stage crc ops none).2.2)
    rw [hrecs]
    refine (perm_allRecs hj _ _).trans (((h.perm.cons _).trans perm_middle.symm).trans ?_)
    exact hw.symm.append_left done
  · rcases mem_or_eq_of_mem_set hm with hm | hm
    · exact effectRel_append hfiles (h.locs ops' j' seq locs hm k)
    · cases hm
      refine effectRel_stage (h.shards j).offset hfit.1 ?_ k
      show (update s.store.shards j _ j).file = _
      rw [update_self]

/-- **A call updates the index**, in order. -/
theorem index {j seq : Nat} {locs : List ValueLoc} (hc : s.calls[i]? = some (.index ops j seq locs))
    (hord : Call.InOrder crc s (.index ops j seq locs)) :
    ConcurrentInv crc ((seq, ops) :: done) (s.call crc i none (.index ops j seq locs)) := by
  have hmem := mem_of_getElem? hc
  have hw := waiting_eraseIdx hc rfl
  have hreplay : replay ((seq, ops) :: done) = applyOps (replay done) ops := by
    refine replay_cons fun r hr hle op ho op' ho' hkey => ?_
    -- the numbers of `done` and of the waiting calls are all different
    have hnd := h.nodup
    rw [map_append, nodup_append] at hnd
    have hdisj := hnd.2.2
    have hwait : (seq, ops) ∈ s.waiting := mem_filterMap.mpr ⟨_, hmem, rfl⟩
    have hne : seq ≠ r.1 := fun he =>
      hdisj r.1 (List.mem_map_of_mem hr) seq (List.mem_map.mpr ⟨_, hwait, rfl⟩) he.symm
    obtain ⟨k, hk, hrk⟩ := mem_flatMap.mp (h.perm.mem_iff.mpr (mem_append_left _ hr))
    obtain ⟨st, hst, rfl⟩ := List.mem_map.mp hrk
    have hle : seq ≤ st.seq := hle
    have hne : seq ≠ st.seq := hne
    obtain ⟨c, hcm, hcs⟩ := hord k (mem_range.mp hk) st hst ⟨by omega, op, ho, op', ho', hkey⟩
    obtain ⟨r', hr', he⟩ := map_eq_some_iff.mp hcs
    exact hdisj _ (List.mem_map_of_mem hr) r'.1 (List.mem_map_of_mem (mem_filterMap.mpr ⟨c, hcm, hr'⟩)) he.symm
  refine ⟨h.count, h.shards, fun c hm => h.valid c (mem_of_mem_eraseIdx hm), ?_, ?_,
    fun ops' j' seq' locs' hm => h.locs ops' j' seq' locs' (mem_of_mem_eraseIdx hm)⟩
  · exact h.perm.trans ((hw.append_left done).trans perm_middle)
  · rw [hreplay]
    exact h.tree.applyOps (h.locs ops j seq locs hmem)

/-- **The step lemma.** -/
theorem step {e : Event} {s' : Sys} (hg : UpdatesInOrder crc s e) (hs : s.step crc e = some s') :
    ∃ done', ConcurrentInv crc done' s' := by
  cases e with
  | commitAsync ops =>
    simp only [Sys.step] at hs
    split at hs
    · cases hs
    · cases hs
      refine ⟨done, h.count, h.shards, fun c hm => ?_, ?_, h.tree, fun ops' j seq locs hm => ?_⟩
      · rcases mem_append.mp hm with hm | hm
        · exact h.valid c hm
        · rw [mem_singleton.mp hm]
          trivial
      · show (allRecs s.store.numShards _).Perm (done ++ (s.calls ++ [Call.select ops]).filterMap Call.staged)
        rw [filterMap_append, filterMap_cons_none rfl, filterMap_nil, append_nil]
        exact h.perm
      · rcases mem_append.mp hm with hm | hm
        · exact h.locs ops' j seq locs hm
        · cases mem_singleton.mp hm
  | call i short =>
    obtain ⟨rfl, hord⟩ := hg
    obtain ⟨c, hc, rfl⟩ := map_eq_some_iff.mp hs
    have hord := hord c hc
    cases c with
    | select ops => exact ⟨done, h.select hc⟩
    | stage ops j => exact ⟨done, h.stage hc hord⟩
    | index ops j seq locs => exact ⟨_, h.index hc hord⟩
  | flush i ok =>
    obtain ⟨f, -, rfl⟩ := map_eq_some_iff.mp hs
    obtain ⟨hcalls, -, hstaged, -, hn, -⟩ := s.flush_same i ok f
    obtain ⟨-, htree, -⟩ := s.flush_shards i ok f
    have hfiles := s.files_flush i ok f
    refine ⟨done, hn ▸ h.count, fun k => ?_, ?_, ?_, ?_, ?_⟩
    · rw [hn, hstaged]
      exact shardLogs_flush h.shards i ok f k
    · rw [hcalls, hn]
      exact h.valid
    · unfold waiting
      rw [hcalls, hn, hstaged]
      exact h.perm
    · rw [hfiles, htree]
      exact h.tree
    · rw [hcalls, hfiles]
      exact h.locs
  | reopen => exact hg.elim
  | crash cut => exact hg.elim

end ConcurrentInv

/-! ## Main results -/

/-- **Concurrent commits are replayed to the live state.** In every session in which calls with a common key update the
index in the order of their numbers: when all calls have returned, the store that is opened next shows the map that
`Get` and `Scan` showed before. -/
theorem concurrent_replayed (crc : Bytes → UInt32) (shardCount : Nat) {s s' : Sys}
    (hr : Reach (step crc) (UpdatesInOrder crc) (start crc shardCount fun _ => []) s) (hidle : s.calls = [])
    (hs : s.step crc .reopen = some s') :
    ∃ m : Finmap fun _ : Bytes => Bytes,
      (∀ k, s.store.get k = some (m.lookup k) ∧ s'.store.get k = some (m.lookup k)) ∧
      ∀ start stop, s.store.scan start stop = some (ascend m start stop) ∧
        s'.store.scan start stop = some (ascend m start stop) := by
  obtain ⟨done, h⟩ := hr.invariant (P := fun s => ∃ done, ConcurrentInv crc done s)
    (fun _ _ _ ⟨_, h⟩ hg hs => h.step hg hs) ⟨_, ConcurrentInv.start crc shardCount⟩
  simp only [step, hidle, isEmpty_nil, if_true, some.injEq] at hs
  have hopen := indexes_open h.count fun i _ => (h.shards i).file.torn
  have hperm := h.perm
  unfold waiting at hperm
  rw [hidle, filterMap_nil, append_nil] at hperm
  have hreplay := replay_perm (nodup_allRecs h.shards) hperm
  unfold allRecs at hreplay
  rw [hreplay] at hopen
  subst hs
  have hidx : Indexes (openPWALStore crc s.store.numShards fun i => (s.store.shards i).file).files _ (replay done) :=
    hopen
  refine ⟨replay done, fun k => ⟨h.tree.get k, hidx.get k⟩, fun start stop => ?_⟩
  exact ⟨h.tree.scan start stop, hidx.scan start stop⟩

/-- Two concurrent puts of one key on two shards, in the order of their numbers. -/
theorem concurrent_replayed_sample : ∃ s s' : Sys, Reach (step sampleCrc) (UpdatesInOrder sampleCrc)
      (start sampleCrc 2 fun _ => []) s ∧ s.returned = [1, 2] ∧ s.step sampleCrc .reopen = some s' ∧
    s'.store.get [1] = s.store.get [1] := by
  obtain ⟨s, hs, hcalls, hret, hsome⟩ : ∃ s ∈ run (guarded (step sampleCrc) (UpdatesInOrder sampleCrc)) (start
      sampleCrc 2 fun _ => []) [.commitAsync [.put [1] [7]],
      .commitAsync [.put [1] [8]], .call 0, .call 1, .call 1, .call 0, .call 0, .call 0], s.calls.isEmpty = true ∧
      s.returned = [1, 2] ∧ (s.step sampleCrc .reopen).isSome = true := by decide +kernel
  obtain ⟨s', hs'⟩ := isSome_iff_exists.mp hsome
  have hr := reach_guarded hs
  obtain ⟨m, hget, -⟩ := concurrent_replayed sampleCrc 2 hr (List.isEmpty_iff.mp hcalls) hs'
  exact ⟨s, s', hr, hret, hs', (hget [1]).2.trans (hget [1]).1.symm⟩

/-- **Two concurrent puts of one key on two shards**: the one with number 2 updates the index first, the one with number
1 second. `Get` shows the latter, and after a restart the former. -/
theorem concurrent_reordered : ∃ s s', run (step sampleCrc) (start sampleCrc 2 fun _ => [])
      [.commitAsync [.put [1] [7]], .commitAsync [.put [1] [8]], .call 0, .call 1, .call 1, .call 1, .call 0, .call 0] =
        some s ∧
    s.calls.isEmpty = true ∧ s.returned = [2, 1] ∧ s.step sampleCrc .reopen = some s' ∧
    s.store.get [1] = some (some [7]) ∧ s'.store.get [1] = some (some [8]) := by
  obtain ⟨s, hs, hcalls, hret, hget, s', hs', hget'⟩ : ∃ s ∈ run (step sampleCrc) (start sampleCrc 2 fun _ =>
      [])
      [.commitAsync [.put [1] [7]], .commitAsync [.put [1] [8]], .call 0, .call 1, .call 1, .call 1, .call 0, .call 0],
      s.calls.isEmpty = true ∧ s.returned = [2, 1] ∧ s.store.get [1] = some (some [7]) ∧
      ∃ s' ∈ s.step sampleCrc .reopen, s'.store.get [1] = some (some [8]) := by decide +kernel
  exact ⟨s, s', hs, hcalls, hret, hs', hget, hget'⟩

end Yasdb.Pwal
