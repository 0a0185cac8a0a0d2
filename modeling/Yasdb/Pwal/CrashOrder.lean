import Yasdb.Pwal.Completeness
import Yasdb.Pwal.Crash
import Yasdb.Pwal.Restarts

/-!
# What a crash leaves of a session

One session from an empty directory, with calls that do not overlap: batch `q` gets number `q` and goes to shard `(q -
1) % n` (`SerialInv`). A crash cuts each shard file on its own.

- `recovered_numbered`: if no batch is cut off while a later one is left, the first `k` batches are left;
- `crash_leaves_prefix`: **then the store that is opened next** holds the map after them;
- `crash_leaves_hole`: two commits on two shards, and the crash takes the first one only.
-/

namespace Yasdb.Pwal

open Batch BigEndian Runs List Option Staged Nat Sys Prod Function

/-- Calls do not overlap, no write fails, what is staged fits into its record, and the session goes on. -/
def Serial (crc : Bytes → UInt32) (s : Sys) : Event → Prop
  | .commitAsync _ => s.calls.length = 0
  | .call i short => short = none ∧
      ∀ ops j, s.calls[i]? = some (.stage ops j) → Fits crc ((s.store.shards j).nextSeq, ops)
  | .flush _ _ => True
  | .reopen => False
  | .crash _ => False

instance (crc : Bytes → UInt32) (s : Sys) : ∀ e, Decidable (Serial crc s e)
  | .commitAsync _ => inferInstanceAs (Decidable (_ = _))
  | .call _ _ => inferInstanceAs (Decidable (_ ∧ _))
  | .flush _ _ => inferInstanceAs (Decidable True)
  | .reopen | .crash _ => inferInstanceAs (Decidable False)

/-! ## Batches by number -/

/-- The batches with their numbers. -/
def numbered (done : List (List Op)) : List (Nat × List Op) := done.mapIdx fun k ops => (k + 1, ops)

theorem numbered_concat (done : List (List Op)) (ops : List Op) :
    numbered (done ++ [ops]) = numbered done ++ [(done.length + 1, ops)] := mapIdx_concat

theorem mem_numbered {done : List (List Op)} {r : Nat × List Op} :
    r ∈ numbered done ↔ ∃ k, r.1 = k + 1 ∧ done[k]? = some r.2 := by
  unfold numbered
  rw [mem_mapIdx]
  constructor
  · rintro ⟨k, hk, rfl⟩
    exact ⟨k, rfl, getElem?_eq_getElem hk⟩
  · rintro ⟨k, h1, h2⟩
    obtain ⟨hk, he⟩ := List.getElem?_eq_some_iff.mp h2
    exact ⟨k, hk, by rw [he, ← h1]⟩

theorem numbered_inj {done : List (List Op)} {r r' : Nat × List Op} (h : r ∈ numbered done) (h' : r' ∈ numbered done)
    (he : r.1 = r'.1) : r = r' := by
  obtain ⟨k, hk, hr⟩ := mem_numbered.mp h
  obtain ⟨k', hk', hr'⟩ := mem_numbered.mp h'
  obtain rfl : k = k' := by omega
  exact Prod.ext he (some.inj (hr.symm.trans hr'))

theorem pairwise_numbered (done : List (List Op)) : (numbered done).Pairwise fun r r' => r.1 < r'.1 := by
  induction done using List.reverseRecOn with
  | nil => exact .nil
  | append_singleton done ops ih =>
    rw [numbered_concat, pairwise_append]
    refine ⟨ih, pairwise_singleton _ _, fun r hr r' hr' => ?_⟩
    obtain ⟨k, hk, hget⟩ := mem_numbered.mp hr
    have := (List.getElem?_eq_some_iff.mp hget).1
    rw [mem_singleton.mp hr']
    omega

theorem replay_numbered (done : List (List Op)) : replay (numbered done) = applied done := by
  have hsort : byNumber (numbered done) = numbered done :=
    ((pairwise_numbered done).imp fun h => le_of_lt h).insertionSort_eq
  have hflat : ∀ done : List (List Op), (numbered done).flatMap snd = done.flatten := by
    intro done
    induction done using List.reverseRecOn with
    | nil => rfl
    | append_singleton done ops ih => rw [numbered_concat, flatMap_append, ih, flatten_append]; simp
  unfold replay applied
  rw [hsort, hflat]

theorem filter_le_numbered (k : Nat) (done : List (List Op)) :
    (numbered done).filter (fun r => r.1 ≤ k) = numbered (done.take k) := by
  induction done using List.reverseRecOn with
  | nil => simp [numbered]
  | append_singleton done ops ih =>
    rw [numbered_concat, filter_append, ih]
    rcases lt_or_ge done.length k with hlt | hge
    · rw [take_of_length_le (by omega), take_of_length_le (by simp; omega), numbered_concat]
      simp
      omega
    · rw [take_append_of_le_length hge]
      simp
      omega

/-- The record belongs to shard `i` of `n`. -/
def OfShard (n i : Nat) (r : Nat × List Op) : Bool := (r.1 - 1) % n = i

theorem length_ofShard {n i : Nat} (hi : i < n) (done : List (List Op)) :
    ((numbered done).filter (OfShard n i)).length = slots n done.length i := by
  induction done using List.reverseRecOn with
  | nil => rw [length_nil, slots_zero hi]; rfl
  | append_singleton done ops ih =>
    rw [numbered_concat, filter_append, length_append, ih, length_append, length_singleton, slots_succ hi]
    by_cases he : done.length % n = i <;> simp [OfShard, he]

theorem perm_ofShard {n : Nat} (hn : 0 < n) (recs : List (Nat × List Op)) :
    (allRecs n fun i => recs.filter (OfShard n i)).Perm recs := by
  induction recs using List.reverseRecOn with
  | nil =>
    have hnil : allRecs n (fun _ => []) = [] := flatMap_eq_nil_iff.mpr fun _ _ => rfl
    simp [hnil]
  | append_singleton recs r ih =>
    have hstep : (fun i => (recs ++ [r]).filter (OfShard n i)) = update (fun i => recs.filter (OfShard n i))
        ((r.1 - 1) % n) (recs.filter (OfShard n ((r.1 - 1) % n)) ++ [r]) := by
      funext i
      by_cases hi : i = (r.1 - 1) % n
      · subst hi
        simp [OfShard]
      · simp [hi, OfShard, Ne.symm hi]
    rw [hstep]
    exact ((perm_allRecs (mod_lt _ hn) _ r).trans (ih.cons r)).trans (perm_append_singleton r recs).symm

/-! ## The invariant -/

/-- How far the only call in flight has come; `done` are the batches staged so far. -/
inductive SerialPhase (s : Sys) (done : List (List Op)) : List Call → Prop
  | idle (hb : s.batches = done) (hn : s.store.nextShard = done.length) : SerialPhase s done []
  | select {ops : List Op} (hb : s.batches = done ++ [ops]) (hn : s.store.nextShard = done.length) :
      SerialPhase s done [.select ops]
  | stage {ops : List Op} (hb : s.batches = done ++ [ops]) (hn : s.store.nextShard = done.length + 1) :
      SerialPhase s done [.stage ops (done.length % s.store.numShards)]
  | index {ops : List Op} {j seq : Nat} {locs : List ValueLoc} (hb : s.batches = done)
      (hn : s.store.nextShard = done.length) : SerialPhase s done [.index ops j seq locs]

structure SerialInv (crc : Bytes → UInt32) (done : List (List Op)) (s : Sys) : Prop where
  crash : CrashInv crc (fun _ => []) s
  dir : ∀ i, s.dir i = []
  staged : ∀ i < s.store.numShards,
    (s.staged i).map record = (numbered done).filter (OfShard s.store.numShards i)
  phase : SerialPhase s done s.calls

namespace SerialInv

variable {crc : Bytes → UInt32} {done : List (List Op)} {s : Sys}

theorem start (crc : Bytes → UInt32) (shardCount : Nat) : SerialInv crc [] (start crc shardCount fun _ => []) :=
  ⟨CrashInv.start crc shardCount, fun _ => rfl, fun _ _ => rfl, .idle rfl rfl⟩

variable (h : SerialInv crc done s)
include h

theorem count : 0 < s.store.numShards := h.crash.session.choose_spec.count

theorem fileLog (i : Nat) : FileLog crc s.store.numShards i ((s.staged i).map record) (s.store.shards i).file := by
  have hempty : FileLog crc s.store.numShards i [] (s.dir i) := by
    rw [h.dir i]
    exact fileLog_empty crc _ i
  exact hempty.session h.count (h.crash.session.choose_spec.shards i) (h.crash.fits i)

theorem behindWhole {e : Event} (hg : Serial crc s e) : BehindWhole crc s e ∧ ¬ e.Opens := by
  cases e with
  | call i short => exact ⟨⟨hg.1, fun ops j hc => ⟨hg.2 ops j hc, (h.fileLog j).isWhole⟩⟩, id⟩
  | reopen => exact hg.elim
  | crash cut => exact hg.elim
  | _ => exact ⟨trivial, id⟩

theorem nextSeq : (s.store.shards (done.length % s.store.numShards)).nextSeq = done.length + 1 := by
  have hj := mod_lt done.length h.count
  have hsh := h.crash.session.choose_spec.shards (done.length % s.store.numShards)
  have hbase : (openShard crc s.store.numShards (done.length % s.store.numShards)
      (s.dir (done.length % s.store.numShards))).localSeq = 0 := by
    rw [h.dir]
    exact (tornLog_empty crc _ _).localSeq h.count
  have hlen : (s.staged (done.length % s.store.numShards)).length = done.length / s.store.numShards := by
    rw [← length_map record, h.staged _ hj, length_ofShard hj, slots_mod hj rfl]
  have hdiv := div_add_mod' done.length s.store.numShards
  rw [hsh.nextSeq, hbase, hlen, zero_add]
  omega

/-- The only call stages its batch. -/
theorem stage {ops : List Op} (hc : s.calls = [.stage ops (done.length % s.store.numShards)])
    (hcrash : CrashInv crc (fun _ => []) (s.call crc 0 none (.stage ops (done.length % s.store.numShards)))) :
    SerialInv crc (done ++ [ops]) (s.call crc 0 none (.stage ops (done.length % s.store.numShards))) := by
  have hnext := h.nextSeq
  have hphase := h.phase
  rw [hc] at hphase
  rw [call_stage] at hcrash ⊢
  refine ⟨hcrash, h.dir, fun i hi => ?_, ?_⟩
  · dsimp only
    rw [numbered_concat, filter_append, ← h.staged i hi]
    by_cases hij : i = done.length % s.store.numShards
    · subst hij
      rw [update_self, map_append, map_singleton]
      simp [OfShard, record, hnext]
    · rw [update_of_ne hij]
      simp [OfShard, Ne.symm hij]
  · rw [hc]
    cases hphase with
    | stage hb hn => exact .index hb (by rw [length_append, length_singleton]; exact hn)

/-- **The step lemma.** -/
theorem step {e : Event} {s' : Sys} (hg : Serial crc s e) (hs : s.step crc e = some s') :
    ∃ done', SerialInv crc done' s' := by
  obtain ⟨hwhole, hopens⟩ := h.behindWhole hg
  obtain ⟨hcrash, -⟩ := h.crash.within hwhole hopens hs
  have hphase := h.phase
  cases e with
  | commitAsync ops =>
    have hc : s.calls = [] := eq_nil_of_length_eq_zero hg
    simp only [Sys.step] at hs
    split at hs
    · cases hs
    · cases hs
      refine ⟨done, hcrash, h.dir, h.staged, ?_⟩
      rw [hc] at hphase
      rw [hc]
      cases hphase with
      | idle hb hn => exact .select (congrArg (· ++ [ops]) hb) hn
  | call i short =>
    obtain ⟨rfl, -⟩ := hg
    obtain ⟨c, hi, rfl⟩ := map_eq_some_iff.mp hs
    have hsingle : i = 0 ∧ s.calls = [c] := by
      generalize s.calls = calls at hphase hi
      cases hphase <;> cases i <;> simp at hi ⊢ <;> exact hi
    obtain ⟨rfl, hc⟩ := hsingle
    rw [hc] at hphase
    cases hphase with
    | select hb hn =>
      refine ⟨done, hcrash, h.dir, h.staged, ?_⟩
      show SerialPhase _ done (s.calls.set 0 (.stage _ (s.store.nextShard % s.store.numShards)))
      rw [hc, hn]
      exact .stage hb (congrArg (· + 1) hn)
    | stage hb hn => exact ⟨_, h.stage hc hcrash⟩
    | index hb hn =>
      refine ⟨done, hcrash, h.dir, h.staged, ?_⟩
      show SerialPhase _ done (s.calls.eraseIdx 0)
      rw [hc]
      exact .idle hb hn
  | flush i ok =>
    obtain ⟨f, hf, rfl⟩ := map_eq_some_iff.mp hs
    obtain ⟨hcalls, hdir, hstaged, -, hn, hnext⟩ := s.flush_same i ok f
    obtain ⟨-, -, hbatches⟩ := s.flush_shards i ok f
    refine ⟨done, hcrash, fun k => (congrFun hdir k).trans (h.dir k), ?_, ?_⟩
    · rw [hn, hstaged]
      exact h.staged
    · rw [hcalls]
      generalize s.calls = calls at hphase ⊢
      cases hphase with
      | idle hb hk => exact .idle (hbatches.trans hb) (hnext.trans hk)
      | select hb hk => exact .select (hbatches.trans hb) (hnext.trans hk)
      | stage hb hk => rw [← hn]; exact .stage (hbatches.trans hb) (hnext.trans hk)
      | index hb hk => exact .index (hbatches.trans hb) (hnext.trans hk)
  | reopen => exact hg.elim
  | crash cut => exact hg.elim

end SerialInv

/-! ## What is left -/

/-- No batch is cut off while a later one is left. -/
def CutsInOrder (s : Sys) (cut : Nat → Nat) : Prop :=
  ∀ i < s.store.numShards, ∀ j < s.store.numShards, ∀ r ∈ s.staged i, ∀ r' ∈ s.staged j, r.seq < r'.seq →
    r'.stop ≤ max (s.store.shards j).synced (cut j) → r.stop ≤ max (s.store.shards i).synced (cut i)

instance (s : Sys) (cut : Nat → Nat) : Decidable (CutsInOrder s cut) :=
  inferInstanceAs (Decidable (∀ i < s.store.numShards, ∀ j < s.store.numShards, ∀ r ∈ s.staged i, ∀ r' ∈ s.staged j,
    r.seq < r'.seq → r'.stop ≤ max (s.store.shards j).synced (cut j) → r.stop ≤ max (s.store.shards i).synced (cut i)))

/-- A batch is left by a cut exactly if its record ends before it. -/
theorem SerialInv.mem_cut {crc : Bytes → UInt32} {done : List (List Op)} {s : Sys} (h : SerialInv crc done s)
    {i m : Nat} {recs : List (Nat × List Op)}
    (hlog : TornLog crc s.store.numShards i recs ((s.store.shards i).file.take m))
    (hpre : recs <+: (s.staged i).map record)
    (hkept : ∀ K, K <+: (s.staged i).map record → (fileBytes crc K).length ≤ m → K <+: recs) {r : Staged}
    (hr : r ∈ s.staged i) : r.record ∈ recs ↔ r.stop ≤ m := by
  obtain ⟨k, hk⟩ := mem_iff_getElem?.mp hr
  have hstop := h.crash.stops i k r hk
  rw [h.dir i, length_nil, zero_add, map_take] at hstop
  have hget : ((s.staged i).map record)[k]? = some r.record := by rw [getElem?_map, hk]; rfl
  constructor
  · intro hmem
    -- the record stands in its place, so all before it are left too
    obtain ⟨l, hl⟩ := mem_iff_getElem?.mp hmem
    have hlt := (List.getElem?_eq_some_iff.mp hl).1
    have hl' : ((s.staged i).map record)[l]? = some r.record := by
      rw [prefix_iff_eq_take.mp hpre, getElem?_take_of_lt hlt] at hl
      exact hl
    have hlk : l = k := by
      rw [getElem?_map] at hl'
      obtain ⟨r', hr', he⟩ := map_eq_some_iff.mp hl'
      have hsh := h.crash.session.choose_spec.shards i
      have hseq : r'.seq = r.seq := congrArg fst he
      rw [hsh.seqs l r' hr', hsh.seqs k r hk] at hseq
      have hmul : (openShard crc s.store.numShards i (s.dir i)).localSeq + l =
          (openShard crc s.store.numShards i (s.dir i)).localSeq + k :=
        eq_of_mul_eq_mul_right h.count (by omega)
      omega
    subst hlk
    have hK : ((s.staged i).map record).take (l + 1) <+: recs := by
      rw [prefix_iff_eq_take.mp hpre]
      exact take_prefix_take_left (by omega)
    have hle := hlog.length_le hK
    rw [length_take] at hle
    omega
  · intro hle
    have hK := hkept _ ⟨_, take_append_drop (k + 1) _⟩ (hstop ▸ hle)
    refine hK.subset (mem_of_getElem? (i := k) ?_)
    rw [getElem?_take_of_lt (lt_succ_self k), hget]

theorem exists_max (L : List Nat) : ∃ k, (∀ q ∈ L, q ≤ k) ∧ (k = 0 ∨ k ∈ L) := by
  induction L with
  | nil => exact ⟨0, nofun, .inl rfl⟩
  | cons q L ih =>
    obtain ⟨k, hle, hk⟩ := ih
    refine ⟨max q k, fun q' hq' => ?_, ?_⟩
    · rcases mem_cons.mp hq' with rfl | hq'
      · exact le_max_left _ _
      · exact (hle q' hq').trans (le_max_right _ _)
    · rcases le_total q k with hqk | hqk
      · rw [max_eq_right hqk]
        exact hk.imp id (mem_cons_of_mem _)
      · rw [max_eq_left hqk]
        exact .inr mem_cons_self

/-- **What is left are the first `k` batches**, if the cuts are in order. -/
theorem SerialInv.recovered_numbered {crc : Bytes → UInt32} {done : List (List Op)} {s : Sys}
    (h : SerialInv crc done s) {cut : Nat → Nat} (hcut : CutsInOrder s cut) {recs : Nat → List (Nat × List Op)}
    (hpre : ∀ i, recs i <+: (s.staged i).map record)
    (hmem : ∀ i, ∀ r ∈ s.staged i, r.record ∈ recs i ↔ r.stop ≤ max (s.store.shards i).synced (cut i)) :
    ∃ k ≤ done.length, (∀ i < s.store.numShards, recs i = (numbered (done.take k)).filter
      (OfShard s.store.numShards i)) ∧ ∀ i < s.store.numShards, ∀ r ∈ recs i, r.1 ≤ k := by
  obtain ⟨k, hle, hk⟩ := exists_max ((allRecs s.store.numShards recs).map fst)
  have hbound : ∀ i < s.store.numShards, ∀ r ∈ recs i, r.1 ≤ k := fun i hi r hr =>
    hle _ (List.mem_map_of_mem (mem_flatMap.mpr ⟨i, mem_range.mpr hi, hr⟩))
  have hshard : ∀ j < s.store.numShards, ∀ r ∈ (s.staged j).map record, r ∈ numbered done ∧
      OfShard s.store.numShards j r = true := fun j hj r hr => mem_filter.mp (h.staged j hj ▸ hr)
  have hlen : k ≤ done.length := by
    rcases hk with rfl | hk
    · exact zero_le _
    · obtain ⟨r, hr, rfl⟩ := List.mem_map.mp hk
      obtain ⟨j, hj, hrj⟩ := mem_flatMap.mp hr
      obtain ⟨l, hl, hget⟩ := mem_numbered.mp (hshard j (mem_range.mp hj) r ((hpre j).subset hrj)).1
      have := (List.getElem?_eq_some_iff.mp hget).1
      omega
  refine ⟨k, hlen, fun i hi => ?_, hbound⟩
  obtain ⟨more, hmore⟩ := hpre i
  have hsorted : (recs i ++ more).Pairwise fun r r' => r.1 < r'.1 := by
    rw [hmore, h.staged i hi]
    exact (pairwise_numbered done).filter _
  -- what is cut off in shard `i` has larger numbers than everything left
  have hlost : ∀ r ∈ more, ¬ r.1 ≤ k := by
    intro r hr hrk
    have hrm : r ∈ (s.staged i).map record := hmore ▸ mem_append_right _ hr
    have hnot : r ∉ recs i := fun hr' => lt_irrefl _ ((pairwise_append.mp hsorted).2.2 r hr' r hr)
    obtain ⟨hrn, hro⟩ := hshard i hi r hrm
    rcases hk with rfl | hk
    · obtain ⟨l, hl, -⟩ := mem_numbered.mp hrn
      omega
    · obtain ⟨r', hr', hk⟩ := List.mem_map.mp hk
      obtain ⟨j, hj, hr'j⟩ := mem_flatMap.mp hr'
      have hj := mem_range.mp hj
      obtain ⟨hrn', hro'⟩ := hshard j hj r' ((hpre j).subset hr'j)
      rcases lt_or_eq_of_le hrk with hlt | heq
      · obtain ⟨st, hst, rfl⟩ := List.mem_map.mp hrm
        obtain ⟨st', hst', rfl⟩ := List.mem_map.mp ((hpre j).subset hr'j)
        exact hnot ((hmem i st hst).mpr (hcut i hi j hj st hst st' hst' (hlt.trans_eq hk.symm)
          ((hmem j st' hst').mp hr'j)))
      · have hrr : r = r' := numbered_inj hrn hrn' (heq.trans hk.symm)
        subst hrr
        have hij : i = j := (of_decide_eq_true hro).symm.trans (of_decide_eq_true hro')
        exact hnot (hij ▸ hr'j)
  calc recs i = (recs i ++ more).filter (fun r => r.1 ≤ k) := by
        rw [filter_append, filter_eq_self.mpr fun r hr => decide_eq_true (hbound i hi r hr),
          filter_eq_nil_iff.mpr fun r hr => by simpa using hlost r hr, append_nil]
    _ = ((numbered done).filter (fun r => r.1 ≤ k)).filter (OfShard s.store.numShards i) := by
        rw [hmore, h.staged i hi, List.filter_filter, List.filter_filter]
        simp only [Bool.and_comm]
    _ = (numbered (done.take k)).filter (OfShard s.store.numShards i) := by rw [filter_le_numbered]

theorem replay_ofShard {n : Nat} (hn : 0 < n) (done : List (List Op)) {recs : Nat → List (Nat × List Op)}
    (h : ∀ i < n, recs i = (numbered done).filter (OfShard n i)) : replay (allRecs n recs) = applied done := by
  have hall : allRecs n recs = allRecs n fun i => (numbered done).filter (OfShard n i) :=
    flatMap_congr fun i hi => h i (mem_range.mp hi)
  have hperm := perm_ofShard hn (numbered done)
  have hnd : ((numbered done).map fst).Nodup :=
    pairwise_map.mpr ((pairwise_numbered done).imp fun h => ne_of_lt h)
  rw [hall, replay_perm ((hperm.map _).nodup_iff.mpr hnd) hperm, replay_numbered]

/-! ## Main results -/

/-- **A crash leaves a prefix** of the batches of a session, if no batch is cut off while a later one is left: the store
that is opened next holds the map after the first `k` batches, which include every batch that `DurableSeq` had reached.
-/
theorem crash_leaves_prefix (crc : Bytes → UInt32) (shardCount : Nat) {s s' : Sys}
    (hr : Reach (Sys.step crc) (Serial crc) (Sys.start crc shardCount fun _ => []) s) {cut : Nat → Nat}
    (hcut : CutsInOrder s cut) (hs : s.step crc (.crash cut) = some s') :
    ∃ k, (∀ key, s'.store.get key = some ((applied (s.batches.take k)).lookup key)) ∧
      (∀ start stop, s'.store.scan start stop = some (ascend (applied (s.batches.take k)) start stop)) ∧
      ∀ d, s.store.durableSeq = .ok d → ∀ i, ∀ r ∈ s.staged i, r.seq ≤ d →
        r.seq ≤ k ∧ s.batches[r.seq - 1]? = some r.ops := by
  obtain ⟨done, h⟩ := hr.invariant (P := fun s => ∃ done, SerialInv crc done s)
    (fun _ _ _ ⟨_, h⟩ hg hs => h.step hg hs) ⟨_, SerialInv.start crc shardCount⟩
  cases hs
  choose recs hlog hpre hkept using fun i => (h.crash.log i).cut (max (s.store.shards i).synced (cut i))
  have hmem := fun i r hr => @SerialInv.mem_cut crc done s h i _ (recs i) (hlog i) (hpre i) (hkept i) r hr
  obtain ⟨k, hk, hrecs, hbound⟩ := h.recovered_numbered hcut hpre hmem
  obtain ⟨more, hbatches⟩ : ∃ more, s.batches = done ++ more := by
    have hphase := h.phase
    generalize s.calls = calls at hphase
    cases hphase with
    | idle hb hn => exact ⟨[], by rw [hb, append_nil]⟩
    | select hb hn => exact ⟨_, hb⟩
    | stage hb hn => exact ⟨_, hb⟩
    | index hb hn => exact ⟨[], by rw [hb, append_nil]⟩
  have htake : s.batches.take k = done.take k := by rw [hbatches, take_append_of_le_length hk]
  have hopen := indexes_open h.count fun i _ => hlog i
  rw [show (List.range s.store.numShards).flatMap recs = allRecs s.store.numShards recs from rfl,
    replay_ofShard h.count (done.take k) hrecs, ← htake] at hopen
  have hidx : Indexes (openPWALStore crc s.store.numShards fun i => (s.store.shards i).file.take
      (max (s.store.shards i).synced (cut i))).files _ (applied (s.batches.take k)) := hopen
  refine ⟨k, hidx.get, hidx.scan, fun d hd i r hri hle => ?_⟩
  obtain ⟨marked, hsess⟩ := h.crash.session
  rw [PwalStore.durableSeq_eq hd] at hle
  have hi := hsess.staged i (ne_nil_of_mem hri)
  have hsync := hsess.synced (TornLog.sameCount h.crash.logs) hri hle
  have hkeep := (hmem i r hri).mpr (hsync.trans (Nat.le_max_left _ _))
  obtain ⟨l, hl, hget⟩ := mem_numbered.mp (mem_filter.mp (h.staged i hi ▸ List.mem_map_of_mem hri)).1
  have hlt := (List.getElem?_eq_some_iff.mp hget).1
  refine ⟨hbound i hi _ hkeep, ?_⟩
  rw [hbatches, show r.seq - 1 = l from by rw [show r.seq = l + 1 from hl]; rfl, getElem?_append_left hlt]
  exact hget

/-- The first batch is synced, the second one is lost in the crash. -/
theorem crash_leaves_prefix_sample : ∃ s s' : Sys, s.step sampleCrc (.crash fun _ => 0) = some s' ∧
    s.batches.length = 2 ∧ ∃ k, 1 ≤ k ∧ s'.store.get [1] = some ((applied (s.batches.take k)).lookup [1]) := by
  obtain ⟨s, hs, hcut, hd, hlen, r, hr0, hseq⟩ : ∃ s ∈ run (guarded (Sys.step sampleCrc) (Serial sampleCrc))
      (Sys.start sampleCrc 2 fun _ => []) (commitEvents [.put [1] [7]] ++ flushEvents 0 ++ commitEvents
      [.put [2] [8]]), CutsInOrder s (fun _ => 0) ∧ s.store.durableSeq = .ok 1 ∧
      s.batches.length = 2 ∧ ∃ r ∈ s.staged 0, r.seq = 1 := by decide +kernel
  have hr := reach_guarded hs
  obtain ⟨k, hget, -, hk⟩ := crash_leaves_prefix sampleCrc 2 hr hcut rfl
  exact ⟨s, _, rfl, hlen, k, hseq ▸ (hk 1 hd 0 r hr0 (by rw [hseq])).1, hget [1]⟩

/-- **Two commits on two shards, and the crash takes the first one only**: the map that is rebuilt is not the map after
any number of batches. -/
theorem crash_leaves_hole : ∃ s s', run (Sys.step sampleCrc) (Sys.start sampleCrc 2 fun _ => [])
      (commitEvents [.put [1] [7]] ++ commitEvents [.put [2] [8]]) = some s ∧
    s.step sampleCrc (.crash fun i => if i = 0 then 0 else 31) = some s' ∧
    ∀ k, ¬ ∀ key, s'.store.get key = some ((applied (s.batches.take k)).lookup key) := by
  obtain ⟨s, hs, hlen, s', hs', hno⟩ : ∃ s ∈ run (Sys.step sampleCrc) (Sys.start sampleCrc 2 fun _ => [])
      (commitEvents [.put [1] [7]] ++ commitEvents [.put [2] [8]]), s.batches.length = 2 ∧
      ∃ s' ∈ s.step sampleCrc (.crash fun i => if i = 0 then 0 else 31), ∀ k < 3,
      ¬ (s'.store.get [1] = some ((applied (s.batches.take k)).lookup [1]) ∧
      s'.store.get [2] = some ((applied (s.batches.take k)).lookup [2])) := by decide +kernel
  refine ⟨s, s', hs, hs', fun k hk => ?_⟩
  rcases Nat.lt_or_ge k 3 with hlt | hge
  · exact hno k hlt ⟨hk [1], hk [2]⟩
  · rw [take_of_length_le (by omega), ← take_of_length_le (i := 2) (show s.batches.length ≤ 2 by omega)] at hk
    exact hno 2 (by decide) ⟨hk [1], hk [2]⟩

end Yasdb.Pwal
