import Yasdb.Pwal.Index

/-!
# The log across restarts

Calls that do not overlap, and clean restarts. During a session the index is updated in the order of the calls; a
restart builds it again in the order of the numbers. The two agree as long as no batch gets a number below that of an
earlier batch with a common key.

- `RestartInv.step`: every step keeps the index and the records in agreement with the batches;
- `restarts_refine`: **then `Get` and `Scan` return the contents of the map** that the batches leave;
- `restart_reorders`: of two puts of one key the first one wins.
-/

namespace Yasdb.Pwal

open Batch BigEndian Runs Function List Sys

variable {ops : List Op} {j : Nat}

/-- The map that the batches leave in the order of the calls. -/
def applied (batches : List (List Op)) : Finmap fun _ : Bytes => Bytes := applyOps ∅ batches.flatten

theorem applied_concat (batches : List (List Op)) (ops : List Op) :
    applied (batches ++ [ops]) = applyOps (applied batches) ops := by
  unfold applied
  rw [flatten_append, flatten_singleton, applyOps_append]

/-- Calls do not overlap and no write fails; a batch that is staged fits into its record, and shares no key with a batch
in the shard files under a larger number. -/
def InTurn (crc : Bytes → UInt32) (s : Sys) : Event → Prop
  | .commitAsync _ => s.calls.length = 0
  | .call i short => short = none ∧ ∀ ops j, s.calls[i]? = some (.stage ops j) →
      Fits crc ((s.store.shards j).nextSeq, ops) ∧
      ∀ i < s.store.numShards, ∀ r ∈ decodePWALShard crc (s.store.shards i).file,
        (s.store.shards j).nextSeq < r.seq → ∀ e ∈ r.entries, ∀ op ∈ ops, e.key ≠ op.key
  | .flush _ _ => True
  | .reopen => True
  | .crash _ => False

instance (crc : Bytes → UInt32) (s : Sys) : ∀ e, Decidable (InTurn crc s e)
  | .commitAsync _ => inferInstanceAs (Decidable (_ = _))
  | .call _ _ => inferInstanceAs (Decidable (_ ∧ _))
  | .flush _ _ | .reopen => inferInstanceAs (Decidable True)
  | .crash _ => inferInstanceAs (Decidable False)

/-! ## The invariant -/

/-- A shard whose file consists of these records. -/
structure ShardLog (crc : Bytes → UInt32) (n i : Nat) (recs : List (Nat × List Op)) (sh : Shard) : Prop where
  idx : sh.idx = i
  count : sh.numShards = n
  localSeq : sh.localSeq = recs.length
  offset : sh.writeOffset = sh.file.length
  file : FileLog crc n i recs sh.file

namespace ShardLog

variable {crc : Bytes → UInt32} {n i : Nat} {recs : List (Nat × List Op)} {sh : Shard}

theorem openShard (hn : 0 < n) {file : Bytes} (h : FileLog crc n i recs file) :
    ShardLog crc n i recs (openShard crc n i file) :=
  ⟨rfl, rfl, h.localSeq hn, rfl, h⟩

variable (h : ShardLog crc n i recs sh)
include h

theorem nextSeq : sh.nextSeq = recs.length * n + i + 1 := by
  unfold Shard.nextSeq
  rw [h.localSeq, h.count, h.idx]

theorem stage (hfit : Fits crc (sh.nextSeq, ops)) :
    ShardLog crc n i (recs ++ [(sh.nextSeq, ops)]) (sh.stage crc ops none).1 := by
  obtain ⟨hidx, hcount, hlocal, -⟩ := sh.stage_same crc ops
  have hfile := sh.stage_file crc ops
  refine ⟨hidx.trans h.idx, hcount.trans h.count, ?_, ?_, ?_, fun r hr => ?_, ?_⟩
  · rw [hlocal, h.localSeq, length_append, length_singleton]
  · rw [sh.stage_writeOffset, hfile, h.offset, length_append]
  · rw [hfile, h.file.bytes]
    simp [fileBytes]
  · rcases mem_append.mp hr with hr | hr
    · exact h.file.fits r hr
    · exact mem_singleton.mp hr ▸ hfit
  · rw [map_append, h.file.seqs, length_append, length_singleton, range_succ, map_append, h.nextSeq]
    rfl

theorem flushed {synced : Nat} {pending : List Nat} {f : Option Flush} :
    ShardLog crc n i recs { sh with synced := synced, pending := pending, flush := f } :=
  ⟨h.idx, h.count, h.localSeq, h.offset, h.file⟩

end ShardLog

/-! ### Steps of the shards -/

section Shards

variable {crc : Bytes → UInt32} {n : Nat} {recs : Nat → List (Nat × List Op)}

theorem shardLogs_stage {shards : Nat → Shard} (h : ∀ i, ShardLog crc n i (recs i) (shards i))
    (hfit : Fits crc ((shards j).nextSeq, ops)) (i : Nat) :
    ShardLog crc n i (update recs j (recs j ++ [((shards j).nextSeq, ops)]) i)
      (update shards j ((shards j).stage crc ops none).1 i) := by
  by_cases hij : i = j
  · subst hij
    rw [update_self, update_self]
    exact (h i).stage hfit
  · rw [update_of_ne hij, update_of_ne hij]
    exact h i

theorem file_stage (crc : Bytes → UInt32) (shards : Nat → Shard) (j : Nat) (ops : List Op) (i : Nat) :
    ∃ more, (update shards j ((shards j).stage crc ops none).1 i).file = (shards i).file ++ more := by
  by_cases hij : i = j
  · subst hij
    rw [update_self, Shard.stage_file]
    exact ⟨_, rfl⟩
  · rw [update_of_ne hij]
    exact ⟨[], (append_nil _).symm⟩

theorem shardLogs_flush {s : Sys} (h : ∀ i, ShardLog crc n i (recs i) (s.store.shards i)) (i : Nat) (ok : Bool)
    (f : Flush) (k : Nat) : ShardLog crc n k (recs k) ((s.flush i ok f).store.shards k) := by
  obtain ⟨⟨synced, pending, f', -, hsh⟩, -, -⟩ := s.flush_shards i ok f
  rw [hsh]
  by_cases hk : k = i
  · subst hk
    rw [update_self]
    exact (h k).flushed
  · rw [update_of_ne hk]
    exact h k

theorem Sys.files_flush (s : Sys) (i : Nat) (ok : Bool) (f : Flush) : (s.flush i ok f).store.files = s.store.files := by
  obtain ⟨⟨synced, pending, f', -, hsh⟩, -, -⟩ := s.flush_shards i ok f
  funext k
  show ((s.flush i ok f).store.shards k).file = (s.store.shards k).file
  rw [hsh]
  by_cases hk : k = i
  · subst hk
    rw [update_self]
  · rw [update_of_ne hk]

end Shards

/-- All records of the shards. -/
def allRecs (n : Nat) (recs : Nat → List (Nat × List Op)) : List (Nat × List Op) := (List.range n).flatMap recs

/-- How far the only call in flight has come; `stored` is the map that the records leave. -/
inductive Phase (s : Sys) (stored : Finmap fun _ : Bytes => Bytes) : List Call → Prop
  | idle (hs : stored = applied s.batches) (hi : Indexes s.store.files s.store.tree stored) : Phase s stored []
  | select {done : List (List Op)} {ops : List Op} (hb : s.batches = done ++ [ops]) (hs : stored = applied done)
      (hi : Indexes s.store.files s.store.tree stored) : Phase s stored [.select ops]
  | stage {done : List (List Op)} {ops : List Op} {j : Nat} (hj : j < s.store.numShards)
      (hb : s.batches = done ++ [ops]) (hs : stored = applied done)
      (hi : Indexes s.store.files s.store.tree stored) : Phase s stored [.stage ops j]
  | index {done : List (List Op)} {ops : List Op} {j seq : Nat} {locs : List ValueLoc}
      (hb : s.batches = done ++ [ops]) (hs : stored = applied s.batches)
      (hi : Indexes s.store.files s.store.tree (applied done))
      (hl : ∀ k, EffectRel (fun _ => Holds s.store.files) k (effect k (indexOps j locs ops)) (effect k ops)) :
      Phase s stored [.index ops j seq locs]

structure RestartInv (crc : Bytes → UInt32) (recs : Nat → List (Nat × List Op)) (s : Sys) : Prop where
  count : 0 < s.store.numShards
  shards : ∀ i, ShardLog crc s.store.numShards i (recs i) (s.store.shards i)
  phase : Phase s (replay (allRecs s.store.numShards recs)) s.calls

/-! ## Staging and the order of numbers -/

/-- A record is added to one shard. -/
theorem perm_allRecs {n : Nat} (hj : j < n) (recs : Nat → List (Nat × List Op)) (r : Nat × List Op) :
    (allRecs n (update recs j (recs j ++ [r]))).Perm (r :: allRecs n recs) := by
  have hshard : ∀ is : List Nat, is.Nodup → j ∈ is →
      (is.flatMap (update recs j (recs j ++ [r]))).Perm (r :: is.flatMap recs) := by
    intro is hnd hmem
    induction is with
    | nil => cases hmem
    | cons i is ih =>
      obtain ⟨hi, hnd⟩ := nodup_cons.mp hnd
      rw [flatMap_cons, flatMap_cons]
      by_cases hij : i = j
      · subst hij
        have hrest : is.flatMap (update recs i (recs i ++ [r])) = is.flatMap recs :=
          flatMap_congr fun k hk => update_of_ne (fun he : k = i => hi (he ▸ hk)) _ _
        rw [hrest, update_self, append_assoc]
        exact perm_middle
      · rw [update_of_ne hij]
        have hmem : j ∈ is := (mem_cons.mp hmem).resolve_left (Ne.symm hij)
        exact ((ih hnd hmem).append_left _).trans perm_middle
  exact hshard _ nodup_range (mem_range.mpr hj)

section Order

variable {crc : Bytes → UInt32} {n : Nat} {recs : Nat → List (Nat × List Op)} {shards : Nat → Shard}

theorem nodup_allRecs (h : ∀ i, ShardLog crc n i (recs i) (shards i)) : ((allRecs n recs).map Prod.fst).Nodup := by
  unfold allRecs
  rw [map_flatMap, nodup_flatMap]
  refine ⟨fun i hi => ?_, ?_⟩
  · have hi := mem_range.mp hi
    rw [(h i).file.seqs]
    exact nodup_range.map fun l l' he => (seq_split hi hi he).2
  · refine List.Pairwise.imp_of_mem (fun {i j} hi hj hij => ?_) nodup_range
    intro q hq hq'
    dsimp only at hq hq'
    rw [(h i).file.seqs] at hq
    rw [(h j).file.seqs] at hq'
    obtain ⟨l, -, hl⟩ := List.mem_map.mp hq
    obtain ⟨l', -, hl'⟩ := List.mem_map.mp hq'
    exact hij (seq_split (mem_range.mp hi) (mem_range.mp hj) (hl.trans hl'.symm)).1

/-- **A batch staged in turn** comes last in the order of the numbers, as far as its keys are concerned. -/
theorem replay_stage (hj : j < n) {q : Nat} {shards' : Nat → Shard}
    (h : ∀ i, ShardLog crc n i (recs i) (shards i))
    (h' : ∀ i, ShardLog crc n i (update recs j (recs j ++ [(q, ops)]) i) (shards' i))
    (hturn : ∀ i < n, ∀ r ∈ decodePWALShard crc (shards i).file, q < r.seq →
      ∀ e ∈ r.entries, ∀ op ∈ ops, e.key ≠ op.key) :
    replay (allRecs n (update recs j (recs j ++ [(q, ops)]))) = applyOps (replay (allRecs n recs)) ops := by
  have hperm := perm_allRecs hj recs (q, ops)
  have hnd := nodup_allRecs h'
  rw [replay_perm hnd hperm]
  refine replay_cons fun r hr hle op ho op' ho' he => ?_
  have hne : q ≠ r.1 := by
    intro hq
    have hfresh := (hperm.map Prod.fst).nodup_iff.mp hnd
    rw [map_cons, nodup_cons] at hfresh
    exact hfresh.1 (List.mem_map.mpr ⟨r, hr, hq.symm⟩)
  obtain ⟨i, hi, hr⟩ := mem_flatMap.mp hr
  have hst : Stands (fileBytes crc (recs i)) (shards i).file 0 := by
    rw [(h i).file.bytes]
    exact prefix_refl _
  obtain ⟨rec, hrec, hseq, hpoints⟩ := exists_recordsAt hst hr
  have hmem : op'.key ∈ rec.entries.map (·.key) := by
    rw [keys_of_points hpoints]
    exact List.mem_map_of_mem ho'
  obtain ⟨e, hem, hek⟩ := List.mem_map.mp hmem
  have hle : q ≤ r.1 := hle
  exact hturn i (mem_range.mp hi) rec ((h i).file.decode ▸ hrec) (by omega) e hem op ho (hek.trans he)

end Order

/-! ## Steps -/

theorem effectRel_stage {crc : Bytes → UInt32} {sh : Shard}
    (hoff : sh.writeOffset = sh.file.length) (hlen : (recBytes crc sh.nextSeq ops).length < 2 ^ 31)
    {files : Nat → Bytes} (hfile : files j = (sh.stage crc ops none).1.file) (k : Bytes) :
    EffectRel (fun _ => Holds files) k (effect k (indexOps j (sh.stage crc ops none).2.2 ops)) (effect k ops) := by
  rw [sh.stage_places (layout_lt hlen), hoff]
  refine effectRel_indexOps (points_entriesAt ?_) (fun k v hm => length_lt_of_put hlen hm) k
  have hst := stands_append sh.file (recBytes crc sh.nextSeq ops) []
  rw [append_nil] at hst
  rw [hfile, sh.stage_file]
  exact stands_ops hst

namespace RestartInv

variable {crc : Bytes → UInt32} {recs : Nat → List (Nat × List Op)} {s : Sys} (h : RestartInv crc recs s)
include h

theorem commitAsync (hc : s.calls = []) (ops : List Op) :
    RestartInv crc recs { s with calls := s.calls ++ [.select ops], batches := s.batches ++ [ops] } := by
  refine ⟨h.count, h.shards, ?_⟩
  have hphase := h.phase
  rw [hc] at hphase ⊢
  cases hphase with
  | idle hs hi => exact .select rfl hs hi

theorem select (hc : s.calls = [.select ops]) : RestartInv crc recs (s.call crc 0 none (.select ops)) := by
  refine ⟨h.count, h.shards, ?_⟩
  have hphase := h.phase
  rw [hc] at hphase
  cases hphase with
  | select hb hs hi =>
    show Phase _ _ (s.calls.set 0 _)
    rw [hc]
    exact .stage (Nat.mod_lt _ h.count) hb hs hi

/-- The only call stages its batch in turn. -/
theorem stage (hc : s.calls = [.stage ops j])
    (hfit : Fits crc ((s.store.shards j).nextSeq, ops))
    (hturn : ∀ i < s.store.numShards, ∀ r ∈ decodePWALShard crc (s.store.shards i).file,
      (s.store.shards j).nextSeq < r.seq → ∀ e ∈ r.entries, ∀ op ∈ ops, e.key ≠ op.key) :
    RestartInv crc (update recs j (recs j ++ [((s.store.shards j).nextSeq, ops)]))
      (s.call crc 0 none (.stage ops j)) := by
  rw [call_stage]
  have hshards := shardLogs_stage h.shards hfit
  refine ⟨h.count, hshards, ?_⟩
  have hphase := h.phase
  rw [hc] at hphase
  cases hphase with
  | stage hj hb hs hi =>
    have hreplay := replay_stage hj h.shards hshards hturn
    rw [hs] at hi
    rw [hc, hreplay, hs]
    refine .index hb ?_ (hi.append fun i => ?_) fun k => effectRel_stage (h.shards j).offset hfit.1 ?_ k
    · rw [hb, applied_concat]
    · exact file_stage crc s.store.shards j ops i
    · show (update s.store.shards j _ j).file = _
      rw [update_self]

theorem index {seq : Nat} {locs : List ValueLoc} (hc : s.calls = [.index ops j seq locs]) :
    RestartInv crc recs (s.call crc 0 none (.index ops j seq locs)) := by
  refine ⟨h.count, h.shards, ?_⟩
  have hphase := h.phase
  rw [hc] at hphase
  cases hphase with
  | index hb hs hi hl =>
    show Phase _ _ (s.calls.eraseIdx 0)
    rw [hc]
    refine .idle hs ?_
    show Indexes s.store.files (applyOps s.store.tree (indexOps j locs ops)) (replay (allRecs s.store.numShards recs))
    rw [hs, hb, applied_concat]
    exact hi.applyOps hl

theorem flush (i : Nat) (ok : Bool) (f : Flush) : RestartInv crc recs (s.flush i ok f) := by
  obtain ⟨hcalls, -, -, -, hn, -⟩ := s.flush_same i ok f
  obtain ⟨-, htree, hbatches⟩ := s.flush_shards i ok f
  have hfiles := s.files_flush i ok f
  refine ⟨hn ▸ h.count, fun k => ?_, ?_⟩
  · rw [hn]
    exact shardLogs_flush h.shards i ok f k
  · have hphase := h.phase
    rw [hcalls, hn]
    generalize s.calls = calls at hphase ⊢
    cases hphase with
    | idle hs hi => exact .idle (hbatches ▸ hs) (hfiles ▸ htree ▸ hi)
    | select hb hs hi => exact .select (hbatches ▸ hb) hs (hfiles ▸ htree ▸ hi)
    | stage hj hb hs hi => exact .stage (hn ▸ hj) (hbatches ▸ hb) hs (hfiles ▸ htree ▸ hi)
    | index hb hs hi hl => exact .index (hbatches ▸ hb) (hbatches ▸ hs) (hfiles ▸ htree ▸ hi) (hfiles ▸ hl)

/-- **A restart** builds the index again from the records. -/
theorem reopen (hc : s.calls = []) : RestartInv crc recs (s.reopen crc fun i => (s.store.shards i).file) := by
  have hn : (s.reopen crc fun i => (s.store.shards i).file).store.numShards = s.store.numShards :=
    if_neg (by have := h.count; omega)
  have hopen := indexes_open h.count fun i _ => (h.shards i).file.torn
  refine ⟨hn ▸ h.count, fun i => ?_, ?_⟩
  · rw [hn]
    show ShardLog crc _ i (recs i) (Yasdb.Pwal.openShard crc (if s.store.numShards < 1 then 1 else _) i _)
    rw [if_neg (by have := h.count; omega)]
    exact .openShard h.count (h.shards i).file
  · have hphase := h.phase
    rw [hc] at hphase
    rw [hn]
    cases hphase with
    | idle hs hi => exact .idle hs hopen

/-- **Every step in turn keeps the index and the records in agreement with the batches.** -/
theorem step {e : Event} {s' : Sys} (hg : InTurn crc s e) (hs : s.step crc e = some s') :
    ∃ recs', RestartInv crc recs' s' := by
  cases e with
  | commitAsync ops =>
    have hc : s.calls = [] := eq_nil_of_length_eq_zero hg
    unfold Sys.step at hs
    dsimp only at hs
    split at hs
    · cases hs
    · cases hs
      exact ⟨recs, h.commitAsync hc ops⟩
  | call i short =>
    obtain ⟨rfl, hstage⟩ := hg
    obtain ⟨c, hi, rfl⟩ := Option.map_eq_some_iff.mp hs
    -- at most one call is in flight
    have hsingle : i = 0 ∧ s.calls = [c] := by
      have hphase := h.phase
      generalize s.calls = calls at hphase hi
      cases hphase <;> cases i <;> simp at hi ⊢ <;> exact hi
    obtain ⟨rfl, hc⟩ := hsingle
    cases c with
    | select ops => exact ⟨recs, h.select hc⟩
    | stage ops j => exact ⟨_, h.stage hc (hstage ops j hi).1 (hstage ops j hi).2⟩
    | index ops j seq locs => exact ⟨recs, h.index hc⟩
  | flush i ok =>
    obtain ⟨f, -, rfl⟩ := Option.map_eq_some_iff.mp hs
    exact ⟨recs, h.flush i ok f⟩
  | reopen =>
    unfold Sys.step at hs
    dsimp only at hs
    split at hs
    · rename_i hc
      cases hs
      exact ⟨recs, h.reopen (List.isEmpty_iff.mp hc)⟩
    · cases hs
  | crash cut => exact hg.elim

end RestartInv

/-- A store that is opened on an empty directory. -/
theorem restartInv_start (crc : Bytes → UInt32) (shardCount : Nat) :
    RestartInv crc (fun _ => []) (start crc shardCount fun _ => []) := by
  have hn : ∃ n, 0 < n ∧ start crc shardCount (fun _ => []) = start crc n fun _ => [] := by
    by_cases hlt : shardCount < 1
    · obtain rfl : shardCount = 0 := by omega
      exact ⟨1, Nat.one_pos, rfl⟩
    · exact ⟨shardCount, by omega, rfl⟩
  obtain ⟨n, hn, he⟩ := hn
  rw [he]
  have hcount : (start crc n fun _ => []).store.numShards = n := if_neg (by omega)
  have hopen := indexes_open hn fun i _ => tornLog_empty crc n i
  have hnil : allRecs n (fun _ => []) = [] := flatMap_eq_nil_iff.mpr fun _ _ => rfl
  refine ⟨by rw [hcount]; exact hn, fun i => ?_, ?_⟩
  · rw [hcount]
    show ShardLog crc n i [] (openShard crc (if n < 1 then 1 else n) i [])
    rw [if_neg (by omega)]
    exact .openShard hn (fileLog_empty crc n i)
  · rw [hcount]
    exact .idle (by rw [hnil]; rfl) hopen

/-! ## Main results -/

/-- **The log across restarts.** If calls do not overlap and each batch is staged in turn, `Get` and `Scan` return the
contents of the map that the batches leave in the order of the calls. -/
theorem restarts_refine (crc : Bytes → UInt32) (shardCount : Nat) {s : Sys}
    (hr : Reach (step crc) (InTurn crc) (start crc shardCount fun _ => []) s) (hidle : s.calls = []) :
    (∀ k, s.store.get k = some ((applied s.batches).lookup k)) ∧
    ∀ start stop, s.store.scan start stop = some (ascend (applied s.batches) start stop) := by
  obtain ⟨recs, h⟩ := hr.invariant (P := fun s => ∃ recs, RestartInv crc recs s)
    (fun _ _ _ ⟨_, h⟩ hg hs => h.step hg hs) ⟨_, restartInv_start crc shardCount⟩
  have hphase := h.phase
  rw [hidle] at hphase
  cases hphase with
  | idle hs hi =>
    rw [hs] at hi
    exact ⟨hi.get, hi.scan⟩

/-- Two puts of one key and a delete of another on two shards, with a restart before and after the last one. -/
theorem restarts_refine_sample : ∃ s, Reach (step sampleCrc) (InTurn sampleCrc)
    (start sampleCrc 2 fun _ => []) s ∧ s.store.get [1] = some (some [8]) ∧ s.store.get [2] = some none := by
  obtain ⟨s, hs, hcalls, h1, h2⟩ : ∃ s ∈ run (guarded (step sampleCrc) (InTurn sampleCrc)) (start sampleCrc 2
      fun _ => []) (commitEvents [.put [1] [7], .put [2] [5]] ++ commitEvents
      [.put [1] [8]] ++ [.reopen] ++ commitEvents [.del [2]] ++ [.reopen]), s.calls.isEmpty = true ∧
      (applied s.batches).lookup [1] = some [8] ∧ (applied s.batches).lookup [2] = none := by decide +kernel
  have hr := reach_guarded hs
  have h := (restarts_refine sampleCrc 2 hr (List.isEmpty_iff.mp hcalls)).1
  exact ⟨s, hr, (h [1]).trans (congrArg some h1), (h [2]).trans (congrArg some h2)⟩

/-- **Three commits on two shards, a restart, two puts of one key and a restart**: the first put gets number 5 in shard
0, the second one number 4 in shard 1, and after the restart the first one wins. -/
theorem restart_reorders : ∃ s, run (step sampleCrc) (start sampleCrc 2 fun _ => [])
      (commitEvents [.put [9] [0]] ++ commitEvents [.put [9] [0]] ++ commitEvents [.put [9] [0]] ++ [.reopen] ++
        commitEvents [.put [1] [7]] ++ commitEvents [.put [1] [8]] ++ [.reopen]) = some s ∧
    s.calls.isEmpty = true ∧ (applied s.batches).lookup [1] = some [8] ∧ s.store.get [1] = some (some [7]) ∧
    s.store.scan [1] (some [2]) = some [([1], [7])] := by
  obtain ⟨s, hs, hp⟩ : ∃ s ∈ run (step sampleCrc) (start sampleCrc 2 fun _ => [])
      (commitEvents [.put [9] [0]] ++ commitEvents [.put [9] [0]] ++ commitEvents [.put [9] [0]] ++ [.reopen] ++
      commitEvents [.put [1] [7]] ++ commitEvents [.put [1] [8]] ++ [.reopen]), s.calls.isEmpty = true ∧
      (applied s.batches).lookup [1] = some [8] ∧ s.store.get [1] = some (some [7]) ∧
      s.store.scan [1] (some [2]) = some [([1], [7])] := by decide +kernel
  exact ⟨s, hs, hp⟩

end Yasdb.Pwal
