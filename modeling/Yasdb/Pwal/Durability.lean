import Yasdb.Pwal.Session

/-!
# What the watermark stands for

`DurableSeq` reads the watermark after it has seen no error, so what it returns is the value of the watermark in some
state of the run.

- `watermark_sound`: **up to the watermark everything is on disk**: each number was read back at open or staged in this
  session, and what was staged was written before a successful fsync of its file. This holds whatever fsyncs fail.
-/

namespace Yasdb.Pwal

open Batch BigEndian Runs List

variable {crc : Bytes → UInt32} {n i : Nat} {dir : Nat → Bytes}

/-! ## Directories of the same shard count -/

/-- The files were written with `n` shards: the records of shard `i` carry numbers `l * n + i + 1` for ascending `l`. -/
def SameCount (crc : Bytes → UInt32) (n : Nat) (dir : Nat → Bytes) : Prop :=
  ∀ i < n, ∃ ls : List Nat, ls.Pairwise (· < ·) ∧
    (decodePWALShard crc (dir i)).map (·.seq) = ls.map fun l => l * n + i + 1

theorem le_getLast {l : Nat} : ∀ {ls : List Nat}, ls.Pairwise (· < ·) → l ∈ ls →
    ∃ last, ls.getLast? = some last ∧ l ≤ last
  | ls, hp, hl => by
    obtain ⟨init, last, rfl⟩ : ∃ init last, ls = init ++ [last] :=
      ⟨ls.dropLast, ls.getLast (ne_nil_of_mem hl), (dropLast_append_getLast _).symm⟩
    refine ⟨last, by simp, ?_⟩
    rcases mem_append.mp hl with hl | hl
    · exact Nat.le_of_lt ((pairwise_append.mp hp).2.2 l hl last (mem_singleton_self _))
    · rw [mem_singleton.mp hl]

/-- A shard starts above the numbers in its file. -/
theorem SameCount.below (h : SameCount crc n dir)
    (hi : i < n) {r : Record} (hr : r ∈ decodePWALShard crc (dir i)) :
    ∃ l, r.seq = l * n + i + 1 ∧ l < (openShard crc n i (dir i)).localSeq := by
  obtain ⟨ls, hp, hls⟩ := h i hi
  have hmem : r.seq ∈ (decodePWALShard crc (dir i)).map (·.seq) := List.mem_map_of_mem hr
  rw [hls] at hmem
  obtain ⟨l, hl, hseq⟩ := List.mem_map.mp hmem
  obtain ⟨last, hlast, hle⟩ := le_getLast hp hl
  refine ⟨l, hseq.symm, ?_⟩
  have hdec : ((decodePWALShard crc (dir i)).getLast?).map (·.seq) = some (last * n + i + 1) := by
    rw [← getLast?_map, hls, getLast?_map, hlast]
    rfl
  obtain ⟨rl, hrl, hrseq⟩ := Option.map_eq_some_iff.mp hdec
  have hlocal : (openShard crc n i (dir i)).localSeq = last + 1 := by
    unfold openShard
    rw [hrl]
    dsimp only
    rw [hrseq, if_pos (by omega), show last * n + i + 1 - i - 1 = last * n by omega,
      Nat.mul_div_cancel last (by omega)]
  omega

/-! ## Soundness -/

theorem exists_of_readBack {q : Nat} (h : ReadBack crc n dir q) :
    ∃ i < n, ∃ r ∈ decodePWALShard crc (dir i), r.seq = q := by
  obtain ⟨r, hr, hq⟩ := h
  obtain ⟨i, hi, hr⟩ := mem_flatMap.mp hr
  exact ⟨i, mem_range.mp hi, r, hr, hq⟩

/-- The record of a batch of this session that the watermark has reached is synced. -/
theorem SessionInv.synced {marked : Nat → Prop} {s : Sys} (h : SessionInv crc marked s)
    (hd : SameCount crc s.store.numShards s.dir) {r : Staged} (hr : r ∈ s.staged i)
    (hle : r.seq ≤ s.store.wm.value) : r.stop ≤ (s.store.shards i).synced := by
  have hi := h.staged i (ne_nil_of_mem hr)
  obtain ⟨k, hk⟩ := mem_iff_getElem?.mp hr
  have hseq := (h.shards i).seqs k r hk
  rcases h.sound r.seq (h.tracks.below r.seq (by omega) hle) with hb | ⟨j, r', hr', hq, hs⟩
  · -- the numbers read back from the file are smaller
    obtain ⟨j, hj, r', hr', hq⟩ := exists_of_readBack hb
    obtain ⟨l, hl, hlt⟩ := hd.below hj hr'
    rw [hl, hseq] at hq
    obtain ⟨rfl, hlk⟩ := seq_split hj hi hq
    omega
  · obtain ⟨k', hk'⟩ := mem_iff_getElem?.mp hr'
    have hj := h.staged j (ne_nil_of_mem hr')
    have hq' := hq
    rw [(h.shards j).seqs k' r' hk', hseq] at hq'
    obtain ⟨rfl, -⟩ := seq_split hj hi hq'
    rw [← (h.shards j).seq_inj h.count hr' hr hq]
    exact hs

/-- **The watermark is sound.** In every run in which no write fails, whatever fsyncs fail: each number up to the
watermark was read back at the opening or staged since, and the record of one staged since is in its shard file, below
the length that the file had when a `Sync` was called that succeeded. -/
theorem watermark_sound (crc : Bytes → UInt32) (shardCount : Nat) (dir : Nat → Bytes) {s : Sys}
    (hr : Reach (Sys.step crc) (fun _ e => e.Writes) (Sys.start crc shardCount dir) s)
    (hd : SameCount crc s.store.numShards s.dir) :
    (∀ q, 1 ≤ q → q ≤ s.store.wm.value →
      (∃ i < s.store.numShards, ∃ r ∈ decodePWALShard crc (s.dir i), r.seq = q) ∨ ∃ i, ∃ r ∈ s.staged i, r.seq = q) ∧
    ∀ i, ∀ r ∈ s.staged i, r.seq ≤ s.store.wm.value →
      (s.dir i).length < r.stop ∧ r.stop ≤ (s.store.shards i).synced ∧
      ∃ pre, (s.store.shards i).file.take r.stop = pre ++ recBytes crc r.seq r.ops := by
  obtain ⟨marked, h⟩ := hr.invariant (P := fun s => ∃ marked, SessionInv crc marked s)
    (fun _ _ _ ⟨_, h⟩ hw he => h.step hw he) ⟨_, SessionInv.opened rfl rfl rfl rfl⟩
  refine ⟨fun q h1 h2 => ?_, fun i r hr hle => ?_⟩
  · rcases h.sound q (h.tracks.below q h1 h2) with hb | ⟨i, r, hr, hq, -⟩
    · exact .inl (exists_of_readBack hb)
    · exact .inr ⟨i, r, hr, hq⟩
  · obtain ⟨hlow, -, hpre⟩ := (h.shards i).stops r hr
    exact ⟨hlow, h.synced hd hr hle, hpre⟩

/-- Two concurrent commits on two shards; the fsync of shard 1 fails, the one of shard 0 succeeds. The watermark stands
at 1, and the record of batch 1 is synced. -/
theorem watermark_sound_sample : ∃ s r, Reach (Sys.step sampleCrc) (fun _ e => e.Writes)
      (Sys.start sampleCrc 2 fun _ => []) s ∧ s.store.err = some (.fsync 1) ∧ s.store.wm.value = 1 ∧
    r ∈ s.staged 0 ∧ r.seq = 1 ∧ r.stop ≤ (s.store.shards 0).synced := by
  obtain ⟨s, hs, herr, hval, hn, h0, h1, hst⟩ : ∃ s ∈ run (guarded (Sys.step sampleCrc) fun s e => e.Writes)
      (Sys.start sampleCrc 2 fun _ => []) [.commitAsync [.put [1] [7]], .commitAsync [.put [2] [8]], .call 0,
      .call 1, .call 1, .call 0, .flush 1, .flush 1 false, .flush 0, .flush 0, .flush 0],
      s.store.err = some (.fsync 1) ∧ s.store.wm.value = 1 ∧ s.store.numShards = 2 ∧ s.dir 0 = [] ∧ s.dir 1 = [] ∧
      (s.staged 0).map (·.seq) = [1] := by decide +kernel
  have hr := reach_guarded hs
  have hd : SameCount sampleCrc s.store.numShards s.dir := by
    intro i hi
    rw [hn] at hi
    refine ⟨[], .nil, ?_⟩
    rcases (show i = 0 ∨ i = 1 by omega) with rfl | rfl
    · rw [h0]; rfl
    · rw [h1]; rfl
  obtain ⟨r, hr0, hseq⟩ := List.mem_map.mp (show 1 ∈ (s.staged 0).map (·.seq) by rw [hst]; simp)
  obtain ⟨-, hsync, -⟩ := (watermark_sound sampleCrc 2 (fun _ => []) hr hd).2 0 r hr0 (by rw [hseq, hval])
  exact ⟨s, r, hr, herr, hval, hr0, hseq, hsync⟩

end Yasdb.Pwal
