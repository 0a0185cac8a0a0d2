import Yasdb.Pwal.Restarts

/-!
# A session of the log as an ordered map

One session on a directory with any contents, with calls that do not overlap. The decoder accepts any records, with any
numbers; the number of a record says which shard its values are read from, so a record is useful only in the file of
that shard (`Placed`).

- `decodePWALShard_inside`: the values of the records that the decoder accepts lie in the file;
- `indexes_found`: the index built at open then corresponds to the map that the records leave;
- `SessionMap.step`: every step keeps the index in agreement with the batches;
- `session_refines`: **`Get` and `Scan` return the contents of an ordered map**;
- `shard_count_changed`: a directory that was written with one shard and is opened with two.
-/

namespace Yasdb.Pwal

open Batch BigEndian Runs Function List Option Sys Int32

variable {crc : Bytes → UInt32} {payload data : Bytes} {fileStart : Nat} {dir : Nat → Bytes}

/-! ## What the decoder accepts -/

/-- The value of a put lies in the first `stop` bytes of the file. -/
def RecEntry.Inside (stop : Nat) (e : RecEntry) : Prop :=
  e.del = false → ∃ len < 2 ^ 32, e.n = Int32.ofNat len ∧ e.fileOff + len ≤ stop

theorem decodeOp_inside {cur : Nat} {r : RecEntry × Nat}
    (h : decodeOp payload fileStart cur = some r) : r.1.Inside (fileStart + payload.length) := by
  unfold decodeOp at h
  dsimp only at h
  split at h
  · cases h
  split at h
  · cases h
  split at h
  · cases h
  split at h
  · cases h
    exact nofun
  split at h
  · cases h
  split at h
  · cases h
  · rename_i hfit
    cases h
    refine fun _ => ⟨_, ?_, rfl, by dsimp only; omega⟩
    refine Nat.lt_of_lt_of_le (ofBE_lt _) (Nat.pow_le_pow_right (by decide) ?_ : _ ≤ 256 ^ 4)
    rw [length_slice]
    exact Nat.min_le_left _ _

theorem decodeOps_inside : ∀ {opCount cur : Nat} {es : List RecEntry},
    decodeOps payload fileStart opCount cur = some es → ∀ e ∈ es, e.Inside (fileStart + payload.length)
  | 0, _, es, h => by
    cases h
    exact nofun
  | opCount + 1, cur, es, h => by
    unfold decodeOps at h
    split at h
    · cases h
    · next e cur' hop =>
      obtain ⟨es, hes, rfl⟩ := map_eq_some_iff.mp h
      intro e' he'
      rcases mem_cons.mp he' with rfl | he'
      · exact decodeOp_inside hop
      · exact decodeOps_inside hes e' he'

theorem decodeRecord_inside {filePos : Nat} {r : Record × Nat}
    (h : decodeRecord crc data filePos = some r) : ∀ e ∈ r.1.entries, e.Inside data.length := by
  unfold decodeRecord at h
  dsimp only at h
  split at h
  · cases h
  split at h
  · cases h
  split at h
  · cases h
  split at h
  · cases h
  split at h
  · cases h
  split at h
  · cases h
  · next hle hbuf _ _ _ es hes =>
    cases h
    intro e he hdel
    obtain ⟨len, hlen, hn, hin⟩ := decodeOps_inside hes e he hdel
    refine ⟨len, hlen, hn, hin.trans ?_⟩
    rw [length_slice] at hbuf
    rw [length_drop, length_slice]
    omega

/-- **The values of accepted records lie in the file.** -/
theorem decodePWALShard_inside {r : Record} (h : r ∈ decodePWALShard crc data) :
    ∀ e ∈ r.entries, e.Inside data.length := by
  have hloop : ∀ turns filePos, r ∈ decodeLoop crc data turns filePos → ∀ e ∈ r.entries, e.Inside data.length := by
    intro turns
    induction turns with
    | zero => exact fun _ h => nomatch h
    | succ turns ih =>
      intro filePos h
      unfold decodeLoop at h
      split at h
      · cases h
      · next rec pos' hrec =>
        rcases mem_cons.mp h with rfl | h
        · exact decodeRecord_inside hrec
        · exact ih _ h
  exact hloop _ _ h

/-! ## The contents of a directory -/

/-- The batch that a record of a file stands for. -/
def Record.ops (file : Bytes) (r : Record) : List Op :=
  r.entries.map fun e => if e.del then .del e.key else .put e.key (slice file e.fileOff e.n.toInt.toNat)

/-- The batches found in the shard files, with their numbers. -/
def found (crc : Bytes → UInt32) (n : Nat) (dir : Nat → Bytes) : List (Nat × List Op) :=
  (List.range n).flatMap fun i => (decodePWALShard crc (dir i)).map fun r => (r.seq, r.ops (dir i))

/-- Each record stands in the file of the shard that its number leads to, under a number of its own, and its values are
not too long to be addressed. -/
structure Placed (crc : Bytes → UInt32) (n : Nat) (dir : Nat → Bytes) : Prop where
  home : ∀ i < n, ∀ r ∈ decodePWALShard crc (dir i), 1 ≤ r.seq ∧ (r.seq - 1) % n = i
  short : ∀ i < n, ∀ r ∈ decodePWALShard crc (dir i), ∀ e ∈ r.entries, e.del = false → 0 ≤ e.n.toInt
  nodup : ((found crc n dir).map Prod.fst).Nodup

theorem holds_slice {files : Nat → Bytes} {i : Nat} {e : RecEntry} (hin : e.Inside (files i).length)
    (hdel : e.del = false) (hn : 0 ≤ e.n.toInt) :
    Holds files ⟨i, e.fileOff, e.n⟩ (slice (files i) e.fileOff e.n.toInt.toNat) := by
  obtain ⟨len, hlen, he, hle⟩ := hin hdel
  have hint : e.n.toInt = len ∧ len < 2 ^ 31 := by
    have hsize : size = 2 ^ 32 := rfl
    rw [he, toInt_ofNat', Int.bmod_def, hsize] at hn
    rw [he, toInt_ofNat', Int.bmod_def, hsize]
    omega
  have hslice : (slice (files i) e.fileOff e.n.toInt.toNat).length = len := by
    rw [hint.1, Int.toNat_natCast, length_slice]
    omega
  exact ⟨e.fileOff, rfl, by rw [hslice, he], by rw [hslice]; exact hint.2, stands_slice _ _ _⟩

/-- **The index built at open** corresponds to the map that the records leave. -/
theorem indexes_found {n : Nat} (hn : 0 < n) (h : Placed crc n dir) :
    Indexes dir (openPWALStore crc n dir).tree (replay (found crc n dir)) := by
  refine indexes_of_readsBack hn (readsBack_recovered fun i hi => ?_)
  rw [forall₂_map_right_iff, forall₂_same]
  intro r hr
  refine ⟨rfl, ?_⟩
  unfold Record.indexOps Record.ops
  rw [forall₂_map_right_iff, forall₂_map_left_iff, forall₂_same]
  intro e he
  cases hdel : e.del with
  | true => exact .del e.key
  | false =>
    rw [(h.home i hi r hr).2]
    exact .put (holds_slice (decodePWALShard_inside hr e he) hdel (h.short i hi r hr e he hdel))

/-! ## The session -/

/-- Calls do not overlap, each batch encodes to a record of less than `2^31` bytes, no write fails, and the session goes
on. -/
def InSession (s : Sys) : Event → Prop
  | .commitAsync ops => s.calls.length = 0 ∧ headerLen + (payloadOf ops).length < 2 ^ 31
  | .call _ short => short = none
  | .flush _ _ => True
  | .reopen => False
  | .crash _ => False

instance (s : Sys) : ∀ e, Decidable (InSession s e)
  | .commitAsync _ => inferInstanceAs (Decidable (_ ∧ _))
  | .call _ _ => inferInstanceAs (Decidable (_ = _))
  | .flush _ _ => inferInstanceAs (Decidable True)
  | .reopen | .crash _ => inferInstanceAs (Decidable False)

theorem length_recBytes_lt {ops : List Op} (h : headerLen + (payloadOf ops).length < 2 ^ 31) (q : Nat) :
    (recBytes crc q ops).length < 2 ^ 31 := by
  rw [length_recBytes]
  simp only [headerLen, payloadOf, length_append, length_be] at h
  omega

/-- How far the only call in flight has come; `m` is the map of the directory. -/
inductive Turn (m : Finmap fun _ : Bytes => Bytes) (s : Sys) : List Call → Prop
  | idle (hi : Indexes s.store.files s.store.tree (applyOps m s.batches.flatten)) : Turn m s []
  | select {done : List (List Op)} {ops : List Op} (hb : s.batches = done ++ [ops])
      (hlen : headerLen + (payloadOf ops).length < 2 ^ 31)
      (hi : Indexes s.store.files s.store.tree (applyOps m done.flatten)) : Turn m s [.select ops]
  | stage {done : List (List Op)} {ops : List Op} {j : Nat} (hb : s.batches = done ++ [ops])
      (hlen : headerLen + (payloadOf ops).length < 2 ^ 31)
      (hi : Indexes s.store.files s.store.tree (applyOps m done.flatten)) : Turn m s [.stage ops j]
  | index {done : List (List Op)} {ops : List Op} {j seq : Nat} {locs : List ValueLoc}
      (hb : s.batches = done ++ [ops]) (hi : Indexes s.store.files s.store.tree (applyOps m done.flatten))
      (hl : ∀ k, EffectRel (fun _ => Holds s.store.files) k (effect k (indexOps j locs ops)) (effect k ops)) :
      Turn m s [.index ops j seq locs]

/-- The index is that of the map `m` with the batches applied, and each shard writes at the end of its file. -/
structure SessionMap (m : Finmap fun _ : Bytes => Bytes) (s : Sys) : Prop where
  offset : ∀ i, (s.store.shards i).writeOffset = (s.store.shards i).file.length
  turn : Turn m s s.calls

namespace SessionMap

variable {m : Finmap fun _ : Bytes => Bytes} {s : Sys} (h : SessionMap m s)
include h

theorem commitAsync (hc : s.calls = []) {ops : List Op} (hlen : headerLen + (payloadOf ops).length < 2 ^ 31) :
    SessionMap m { s with calls := s.calls ++ [.select ops], batches := s.batches ++ [ops] } := by
  refine ⟨h.offset, ?_⟩
  have hturn := h.turn
  rw [hc] at hturn ⊢
  cases hturn with
  | idle hi => exact .select rfl hlen hi

/-- The only call takes its next step. -/
theorem call {c : Call} (hc : s.calls = [c]) : SessionMap m (s.call crc 0 none c) := by
  have hturn := h.turn
  rw [hc] at hturn
  cases hturn with
  | select hb hlen hi =>
    refine ⟨h.offset, ?_⟩
    show Turn m _ (s.calls.set 0 _)
    rw [hc]
    exact .stage hb hlen hi
  | @stage done ops j hb hlen hi =>
    rw [call_stage]
    refine ⟨fun i => ?_, ?_⟩
    · by_cases hij : i = j
      · subst hij
        dsimp only
        rw [update_self, Shard.stage_writeOffset, Shard.stage_file, h.offset, length_append]
      · dsimp only
        rw [update_of_ne hij]
        exact h.offset i
    · rw [hc]
      refine .index hb (hi.append fun i => ?_) fun k => effectRel_stage (h.offset j) (length_recBytes_lt hlen _) ?_ k
      · exact file_stage crc s.store.shards j ops i
      · show (update s.store.shards j _ j).file = _
        rw [update_self]
  | @index done ops j seq locs hb hi hl =>
    refine ⟨h.offset, ?_⟩
    show Turn m _ (s.calls.eraseIdx 0)
    rw [hc]
    refine .idle ?_
    show Indexes s.store.files (applyOps s.store.tree (indexOps j locs ops)) (applyOps m s.batches.flatten)
    rw [hb, flatten_append, flatten_singleton, applyOps_append]
    exact hi.applyOps hl

theorem flush (i : Nat) (ok : Bool) (f : Flush) : SessionMap m (s.flush i ok f) := by
  obtain ⟨hcalls, -⟩ := s.flush_same i ok f
  obtain ⟨⟨synced, pending, f', -, hsh⟩, htree, hbatches⟩ := s.flush_shards i ok f
  have hfiles := s.files_flush i ok f
  refine ⟨fun k => ?_, ?_⟩
  · rw [hsh]
    by_cases hk : k = i
    · subst hk
      rw [update_self]
      exact h.offset k
    · rw [update_of_ne hk]
      exact h.offset k
  · have hturn := h.turn
    rw [hcalls]
    generalize s.calls = calls at hturn ⊢
    cases hturn with
    | idle hi => exact .idle (hfiles ▸ htree ▸ hbatches ▸ hi)
    | select hb hlen hi => exact .select (hbatches ▸ hb) hlen (hfiles ▸ htree ▸ hi)
    | stage hb hlen hi => exact .stage (hbatches ▸ hb) hlen (hfiles ▸ htree ▸ hi)
    | index hb hi hl => exact .index (hbatches ▸ hb) (hfiles ▸ htree ▸ hi) (hfiles ▸ hl)

/-- **Every step of a session keeps the index in agreement with the batches.** -/
theorem step {e : Event} {s' : Sys} (hg : InSession s e) (hs : s.step crc e = some s') : SessionMap m s' := by
  cases e with
  | commitAsync ops =>
    have hc : s.calls = [] := eq_nil_of_length_eq_zero hg.1
    unfold Sys.step at hs
    dsimp only at hs
    split at hs
    · cases hs
    · cases hs
      exact h.commitAsync hc hg.2
  | call i short =>
    obtain rfl : short = none := hg
    obtain ⟨c, hi, rfl⟩ := map_eq_some_iff.mp hs
    -- at most one call is in flight
    have hsingle : i = 0 ∧ s.calls = [c] := by
      have hturn := h.turn
      generalize s.calls = calls at hturn hi
      cases hturn <;> cases i <;> simp at hi ⊢ <;> exact hi
    obtain ⟨rfl, hc⟩ := hsingle
    exact h.call hc
  | flush i ok =>
    obtain ⟨f, -, rfl⟩ := map_eq_some_iff.mp hs
    exact h.flush i ok f
  | reopen => exact hg.elim
  | crash cut => exact hg.elim

end SessionMap

/-! ## Main results -/

section Ascend

variable {m : Finmap fun _ : Bytes => Bytes} {start : Bytes} {stop : Option Bytes}

theorem mem_ascend {k v : Bytes} :
    (k, v) ∈ ascend m start stop ↔ m.lookup k = some v ∧ start ≤ k ∧ ∀ b ∈ stop, k < b := by
  unfold ascend
  rw [mem_filterMap]
  constructor
  · rintro ⟨k', hk', he⟩
    obtain ⟨v', hv', he⟩ := map_eq_some_iff.mp he
    cases he
    obtain ⟨k', -, hk'⟩ := Scan.mem_scan.mp hk'
    split at hk'
    · next hrange =>
      obtain rfl := some.inj hk'
      exact ⟨hv', not_lt.mp hrange.1, hrange.2⟩
    · cases hk'
  · rintro ⟨hv, hlo, hhi⟩
    refine ⟨k, Scan.mem_scan.mpr ⟨k, ?_, if_pos ⟨not_lt.mpr hlo, hhi⟩⟩, by rw [hv]; rfl⟩
    exact Finmap.lookup_isSome.mp (by rw [hv]; rfl)

theorem sorted_ascend : ((ascend m start stop).map Prod.fst).SortedLT := by
  refine (pairwise_map.mpr (pairwise_filterMap.mpr ?_)).sortedLT
  refine (Scan.sortedLT_scan _ m).pairwise.imp fun {k k'} hlt item hitem item' hitem' => ?_
  obtain ⟨v, -, rfl⟩ := map_eq_some_iff.mp hitem
  obtain ⟨v', -, rfl⟩ := map_eq_some_iff.mp hitem'
  exact hlt

end Ascend

theorem sessionMap_start {shardCount : Nat}
    (h : Placed crc (start crc shardCount dir).store.numShards dir) :
    SessionMap (replay (found crc (start crc shardCount dir).store.numShards dir))
      (start crc shardCount dir) := by
  refine ⟨fun i => rfl, .idle ?_⟩
  have hn := SessionInv.numShards_pos crc shardCount dir
  have htree : (openPWALStore crc shardCount dir).tree =
      (openPWALStore crc (openPWALStore crc shardCount dir).numShards dir).tree := by
    unfold openPWALStore
    by_cases hlt : shardCount < 1
    · rw [if_pos hlt]
      rfl
    · rw [if_neg hlt, if_neg hlt]
  show Indexes _ (openPWALStore crc shardCount dir).tree _
  rw [htree]
  exact indexes_found hn h

/-- **The log refines an ordered map within a session.** On a directory whose records stand where their numbers lead to,
after any number of batches `Get` and `Scan` return what the map of the directory contains with the batches applied to
it. -/
theorem session_refines (crc : Bytes → UInt32) (shardCount : Nat) (dir : Nat → Bytes)
    (hdir : Placed crc (start crc shardCount dir).store.numShards dir) {s : Sys}
    (hr : Reach (step crc) InSession (start crc shardCount dir) s) (hidle : s.calls = [])
    {recs : List (Nat × List Op)}
    (hrecs : (found crc (start crc shardCount dir).store.numShards dir).Perm recs) :
    (∀ k, s.store.get k = some ((applyOps (replay recs) s.batches.flatten).lookup k)) ∧
    ∀ start stop, ∃ items, s.store.scan start stop = some items ∧ (items.map Prod.fst).SortedLT ∧
      ∀ k v, (k, v) ∈ items ↔
        (applyOps (replay recs) s.batches.flatten).lookup k = some v ∧ start ≤ k ∧ ∀ b ∈ stop, k < b := by
  have h := hr.invariant (P := SessionMap _) (fun _ _ _ h hg hs => h.step hg hs) (sessionMap_start hdir)
  have hturn := h.turn
  rw [hidle] at hturn
  cases hturn with
  | idle hi =>
    rw [replay_perm hdir.nodup hrecs] at hi
    exact ⟨hi.get, fun start stop => ⟨_, hi.scan start stop, sorted_ascend, fun k v => mem_ascend⟩⟩

/-- The files of two shards with a record each. -/
def sampleDir : Nat → Bytes
  | 0 => recBytes sampleCrc 1 [.put [1] [7]]
  | 1 => recBytes sampleCrc 2 [.put [2] [8]]
  | _ => []

theorem placed_sampleDir : Placed sampleCrc 2 sampleDir :=
  ⟨by decide +kernel, by decide +kernel, by decide +kernel⟩

/-- One batch that puts, deletes and puts a key of the directory. -/
theorem session_refines_sample : ∃ s, Reach (step sampleCrc) InSession (start sampleCrc 2 sampleDir) s ∧
    s.store.get [1] = some (some [5]) ∧ s.store.get [2] = some (some [8]) := by
  obtain ⟨s, hs, hcalls, h1, h2⟩ : ∃ s ∈ run (guarded (step sampleCrc) InSession) (start sampleCrc 2
      sampleDir) (commitEvents [.put [1] [9], .del [1], .put [1] [5]]),
      s.calls.isEmpty = true ∧ (applyOps (replay (found sampleCrc 2 sampleDir)) s.batches.flatten).lookup [1] = some
      [5] ∧ (applyOps (replay (found sampleCrc 2 sampleDir)) s.batches.flatten).lookup [2] = some [8] := by
        decide +kernel
  have hr := reach_guarded hs
  have h := (session_refines sampleCrc 2 sampleDir placed_sampleDir hr (List.isEmpty_iff.mp hcalls) (.refl _)).1
  exact ⟨s, hr, (h [1]).trans (congrArg some h1), (h [2]).trans (congrArg some h2)⟩

/-- **A directory that was written with one shard and is opened with two**: the value of record 2 is looked for in the
wrong file, so that `Get` and `Scan` fail. -/
theorem shard_count_changed : ∃ s, run (step sampleCrc) (start sampleCrc 1 fun _ => [])
      (commitEvents [.put [1] [7]] ++ commitEvents [.put [2] [8]]) = some s ∧
    (∀ i < 2, Whole sampleCrc (s.store.files i)) ∧
    (replay (found sampleCrc 2 s.store.files)).lookup [2] = some [8] ∧
    (start sampleCrc 2 s.store.files).store.get [2] = none ∧
    (start sampleCrc 2 s.store.files).store.scan [2] (some [3]) = none := by
  obtain ⟨s, hs, hp⟩ : ∃ s ∈ run (step sampleCrc) (start sampleCrc 1 fun _ => [])
      (commitEvents [.put [1] [7]] ++ commitEvents [.put [2] [8]]), (∀ i < 2, Whole sampleCrc (s.store.files i)) ∧
      (replay (found sampleCrc 2 s.store.files)).lookup [2] = some [8] ∧
      (start sampleCrc 2 s.store.files).store.get [2] = none ∧ (start sampleCrc 2 s.store.files).store.scan [2]
      (some [3]) = none := by decide +kernel
  exact ⟨s, hs, hp⟩

end Yasdb.Pwal
