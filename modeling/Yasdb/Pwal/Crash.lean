import Yasdb.Pwal.Durability
import Yasdb.Pwal.Files

/-!
# Durable batches across crashes

A crash may leave a torn record at the end of a shard file. `OpenPWALStore` drops it in memory only: the file is opened
for appending behind it, and what is staged there is out of reach of the decoder for good.

- `CrashInv.step`: if nothing is staged behind a torn record, the records of every file that are synced stay;
- `durable_replayed`: **then every batch that `DurableSeq` has reached** is read back at every later opening;
- `durable_lost`: a crash leaves one byte of a record, and a batch that was reported durable is lost.
-/

namespace Yasdb.Pwal

open Batch BigEndian Runs Function List Sys Nat Staged

/-- No write fails, what is staged fits into its record, and nothing is staged behind a torn record. Fsyncs may fail,
and a crash may cut the files behind what is synced. -/
def BehindWhole (crc : Bytes → UInt32) (s : Sys) : Event → Prop
  | .call i short => short = none ∧ ∀ ops j, s.calls[i]? = some (.stage ops j) →
      Fits crc ((s.store.shards j).nextSeq, ops) ∧ Whole crc (s.store.shards j).file
  | .commitAsync _ => True
  | .flush _ _ => True
  | .reopen => True
  | .crash _ => True

instance (crc : Bytes → UInt32) (s : Sys) : ∀ e, Decidable (BehindWhole crc s e)
  | .call _ _ => inferInstanceAs (Decidable (_ ∧ _))
  | .commitAsync _ | .flush _ _ | .reopen | .crash _ => inferInstanceAs (Decidable True)

theorem BehindWhole.writes {crc : Bytes → UInt32} {s : Sys} : ∀ {e : Event}, BehindWhole crc s e → e.Writes
  | .call _ _, h => h.1
  | .commitAsync _, _ | .flush _ _, _ | .reopen, _ | .crash _, _ => trivial

/-- The store is opened. -/
def Event.Opens : Event → Prop
  | .reopen => True
  | .crash _ => True
  | _ => False

/-! ## The invariant -/

/-- The record of a staged batch. -/
def Staged.record (r : Staged) : Nat × List Op := (r.seq, r.ops)

/-- The files were opened with the records `recs`. -/
structure CrashInv (crc : Bytes → UInt32) (recs : Nat → List (Nat × List Op)) (s : Sys) : Prop where
  session : ∃ marked, SessionInv crc marked s
  logs : ∀ i, TornLog crc s.store.numShards i (recs i) (s.dir i)
  fits : ∀ i, ∀ r ∈ s.staged i, Fits crc (r.seq, r.ops)
  whole : ∀ i, s.staged i ≠ [] → Whole crc (s.dir i)
  stops : ∀ i k r, (s.staged i)[k]? = some r →
    r.stop = (s.dir i).length + (fileBytes crc (((s.staged i).take (k + 1)).map Staged.record)).length
  opened : ∀ i, (s.dir i).length ≤ (s.store.shards i).synced

/-- The records of shard `i`. -/
def shardRecs (recs : Nat → List (Nat × List Op)) (s : Sys) (i : Nat) : List (Nat × List Op) :=
  recs i ++ (s.staged i).map Staged.record

/-- These are the first records of shard `i`, and they are synced. -/
def Kept (crc : Bytes → UInt32) (recs : Nat → List (Nat × List Op)) (s : Sys) (i : Nat) (K : List (Nat × List Op)) :
    Prop := K <+: shardRecs recs s i ∧ (fileBytes crc K).length ≤ (s.store.shards i).synced

theorem length_fileBytes_le {crc : Bytes → UInt32} {K recs : List (Nat × List Op)} (h : K <+: recs) :
    (fileBytes crc K).length ≤ (fileBytes crc recs).length := by
  obtain ⟨more, rfl⟩ := h
  unfold fileBytes
  rw [flatMap_append, length_append]
  omega

theorem TornLog.length_le {crc : Bytes → UInt32} {n i : Nat} {recs K : List (Nat × List Op)} {file : Bytes}
    (h : TornLog crc n i recs file) (hK : K <+: recs) : (fileBytes crc K).length ≤ file.length := by
  obtain ⟨rest, -, hfile⟩ := h.bytes
  rw [hfile, length_append]
  exact le_add_right_of_le (length_fileBytes_le hK)

namespace CrashInv

variable {crc : Bytes → UInt32} {recs : Nat → List (Nat × List Op)} {s : Sys}

theorem start (crc : Bytes → UInt32) (shardCount : Nat) :
    CrashInv crc (fun _ => []) (start crc shardCount fun _ => []) where
  session := ⟨_, SessionInv.opened rfl rfl rfl rfl⟩
  logs i := tornLog_empty crc _ i
  fits i r hr := by cases hr
  whole i hi := absurd rfl hi
  stops i k r hk := by simp [Sys.start] at hk
  opened i := le_refl _

variable (h : CrashInv crc recs s)
include h

theorem log (i : Nat) : TornLog crc s.store.numShards i (shardRecs recs s i) (s.store.shards i).file := by
  obtain ⟨marked, hsess⟩ := h.session
  exact (h.logs i).session hsess.count (hsess.shards i) (h.fits i) (h.whole i)

/-- A batch is staged behind whole records. -/
theorem stage {i j : Nat} {ops : List Op} (hc : s.calls[i]? = some (.stage ops j))
    (hfit : Fits crc ((s.store.shards j).nextSeq, ops)) (hw : Whole crc (s.store.shards j).file) :
    CrashInv crc recs (s.call crc i none (.stage ops j)) ∧
    ∀ k K, Kept crc recs s k K → Kept crc recs (s.call crc i none (.stage ops j)) k K := by
  obtain ⟨marked, hsess⟩ := h.session
  have hsess' := hsess.stage hc
  obtain ⟨-, -, -, hsynced⟩ := (s.store.shards j).stage_same crc ops
  have hfile := (s.store.shards j).stage_file crc ops
  rw [call_stage] at hsess' ⊢
  refine ⟨⟨⟨marked, hsess'⟩, h.logs, fun k r hr => ?_, fun k hk => ?_, fun k l r hr => ?_, fun k => ?_⟩,
    fun k K hK => ⟨?_, ?_⟩⟩
  · by_cases hkj : k = j
    · subst hkj
      dsimp only at hr
      rw [update_self, mem_append] at hr
      rcases hr with hr | hr
      · exact h.fits k r hr
      · rw [mem_singleton.mp hr]
        exact hfit
    · exact h.fits k r (by simpa [hkj] using hr)
  · by_cases hkj : k = j
    · subst hkj
      by_cases hst : s.staged k = []
      · -- the first batch of the session: the file is still as it was opened
        rw [(hsess.shards k).file, hst] at hw
        simpa using hw
      · exact h.whole k hst
    · exact h.whole k (by simpa [hkj] using hk)
  · by_cases hkj : k = j
    · subst hkj
      dsimp only at hr ⊢
      rw [update_self] at hr ⊢
      rcases lt_or_ge l (s.staged k).length with hlt | hge
      · rw [getElem?_append_left hlt] at hr
        rw [take_append_of_le_length (by omega)]
        exact h.stops k l r hr
      · rw [getElem?_append_right hge, getElem?_singleton] at hr
        split at hr
        · cases hr
          rw [take_of_length_le (by simp; omega), hfile, (hsess.shards k).file]
          simp only [length_append, map_append, fileBytes, flatMap_append, flatMap_map]
          simp [record, add_assoc]
        · cases hr
    · simp only [update_of_ne hkj] at hr ⊢
      exact h.stops k l r hr
  · by_cases hkj : k = j
    · subst hkj
      simpa [hsynced] using h.opened k
    · simpa [hkj] using h.opened k
  · refine hK.1.trans ?_
    unfold shardRecs
    by_cases hkj : k = j
    · subst hkj
      simp
    · simp [hkj]
  · by_cases hkj : k = j
    · subst hkj
      simpa [hsynced] using hK.2
    · simpa [hkj] using hK.2

/-- The flush goroutine of a shard. -/
theorem flush {i : Nat} {f : Flush} (hf : (s.store.shards i).flush = some f) (ok : Bool) :
    CrashInv crc recs (s.flush i ok f) ∧ ∀ k K, Kept crc recs s k K → Kept crc recs (s.flush i ok f) k K := by
  obtain ⟨marked, hsess⟩ := h.session
  obtain ⟨-, hdir, hstaged, -, hn, -⟩ := s.flush_same i ok f
  obtain ⟨⟨synced, pending, f', hle, hsh⟩, -, -⟩ := s.flush_shards i ok f
  have hsynced : ∀ k, (s.store.shards k).synced ≤ ((s.flush i ok f).store.shards k).synced := by
    intro k
    rw [hsh]
    by_cases hk : k = i
    · subst hk
      rw [update_self]
      exact hle
    · rw [update_of_ne hk]
  refine ⟨⟨hsess.flush hf ok, ?_, ?_, ?_, ?_, fun k => ?_⟩, fun k K hK => ⟨?_, hK.2.trans (hsynced k)⟩⟩
  · rw [hn, hdir]; exact h.logs
  · rw [hstaged]; exact h.fits
  · rw [hstaged, hdir]; exact h.whole
  · rw [hstaged, hdir]; exact h.stops
  · rw [hdir]; exact (h.opened k).trans (hsynced k)
  · unfold shardRecs
    rw [hstaged]
    exact hK.1

/-- **The store is opened again** on files that are cut behind what is synced. -/
theorem cut {m : Nat → Nat} (hm : ∀ i, (s.store.shards i).synced ≤ m i) :
    ∃ recs', CrashInv crc recs' (s.reopen crc fun i => (s.store.shards i).file.take (m i)) ∧
    ∀ k K, Kept crc recs s k K → Kept crc recs' (s.reopen crc fun i => (s.store.shards i).file.take (m i)) k K := by
  obtain ⟨marked, hsess⟩ := h.session
  have hn : (s.reopen crc fun i => (s.store.shards i).file.take (m i)).store.numShards = s.store.numShards :=
    if_neg (by have := hsess.count; omega)
  choose recs' hlog hpre hkept using fun i => (h.log i).cut (m i)
  refine ⟨recs', ⟨⟨_, SessionInv.opened rfl rfl rfl rfl⟩, fun i => ?_, fun i r hr => ?_, fun i hi => ?_,
    fun i k r hk => ?_, fun i => le_refl _⟩, fun k K hK => ?_⟩
  · rw [hn]
    exact hlog i
  · cases hr
  · exact absurd rfl hi
  · simp [reopen] at hk
  · have hK' := hkept k K hK.1 (hK.2.trans (hm k))
    exact ⟨by simpa [shardRecs, reopen] using hK', (hlog k).length_le hK'⟩

/-- A step within a session. -/
theorem within {e : Event} {s' : Sys} (hg : BehindWhole crc s e) (ho : ¬ e.Opens) (hs : s.step crc e = some s') :
    CrashInv crc recs s' ∧ ∀ k K, Kept crc recs s k K → Kept crc recs s' k K := by
  obtain ⟨marked, hsess⟩ := h.session
  have hsess' := hsess.step hg.writes hs
  cases e with
  | commitAsync ops =>
    simp only [step] at hs
    split at hs
    · cases hs
    · cases hs
      exact ⟨⟨hsess', h.logs, h.fits, h.whole, h.stops, h.opened⟩, fun _ _ hK => hK⟩
  | call i short =>
    obtain ⟨c, hc, rfl⟩ := Option.map_eq_some_iff.mp hs
    obtain ⟨rfl, hstage⟩ := hg
    cases c with
    | stage ops j => exact h.stage hc (hstage ops j hc).1 (hstage ops j hc).2
    | _ => exact ⟨⟨hsess', h.logs, h.fits, h.whole, h.stops, h.opened⟩, fun _ _ hK => hK⟩
  | flush i ok =>
    obtain ⟨f, hf, rfl⟩ := Option.map_eq_some_iff.mp hs
    exact h.flush hf ok
  | reopen => exact absurd trivial ho
  | crash cut => exact absurd trivial ho

/-- **The step lemma**: what is synced stays. -/
theorem step {e : Event} {s' : Sys} (hg : BehindWhole crc s e) (hs : s.step crc e = some s') :
    ∃ recs', CrashInv crc recs' s' ∧ ∀ k K, Kept crc recs s k K → Kept crc recs' s' k K := by
  cases e with
  | reopen =>
    simp only [Sys.step] at hs
    split at hs
    · cases hs
      have hcut := h.cut fun i => le_max_left (s.store.shards i).synced (s.store.shards i).file.length
      have hall : ∀ i, (s.store.shards i).file.take (max (s.store.shards i).synced (s.store.shards i).file.length) =
          (s.store.shards i).file := fun i => take_of_length_le (le_max_right _ _)
      simp only [hall] at hcut
      exact hcut
    · cases hs
  | crash cut =>
    cases hs
    exact h.cut fun i => le_max_left _ _
  | _ => exact ⟨recs, h.within hg id hs⟩

end CrashInv

/-! ## Main results -/

theorem TornLog.sameCount {crc : Bytes → UInt32} {n : Nat} {dir : Nat → Bytes} {recs : Nat → List (Nat × List Op)}
    (h : ∀ i, TornLog crc n i (recs i) (dir i)) : SameCount crc n dir := by
  intro i _
  refine ⟨List.range (recs i).length, pairwise_lt_range, ?_⟩
  rw [(h i).decode, seq_recordsAt, (h i).seqs]

/-- A batch of the session whose record is synced is kept with all before it. -/
theorem CrashInv.kept {crc : Bytes → UInt32} {recs : Nat → List (Nat × List Op)} {s : Sys} (h : CrashInv crc recs s)
    {i : Nat} {r : Staged} (hr : r ∈ s.staged i) (hsync : r.stop ≤ (s.store.shards i).synced) :
    ∃ K, Kept crc recs s i K ∧ r.record ∈ K := by
  obtain ⟨k, hk⟩ := mem_iff_getElem?.mp hr
  have hwhole := (h.logs i).whole (h.whole i (ne_nil_of_mem hr))
  refine ⟨recs i ++ ((s.staged i).take (k + 1)).map record, ⟨?_, ?_⟩, ?_⟩
  · exact prefix_append_right_inj _ |>.mpr (IsPrefix.map _ ⟨_, take_append_drop _ _⟩)
  · have hstop := h.stops i k r hk
    rw [hwhole.bytes] at hstop
    unfold fileBytes at hstop ⊢
    rw [flatMap_append, length_append]
    omega
  · refine mem_append_right _ (List.mem_map_of_mem (mem_of_getElem? (i := k) ?_))
    rw [getElem?_take_of_lt (lt_succ_self k), hk]

theorem PwalStore.durableSeq_eq {s : PwalStore} {d : Nat} (h : s.durableSeq = .ok d) : d = s.wm.value := by
  unfold PwalStore.durableSeq at h
  split at h
  · cases h
  · cases h
    rfl

/-- **Durable batches are replayed.** In every run of sessions that end cleanly or in crashes, as long as nothing is
staged behind a torn record: a batch that `DurableSeq` has reached in some state is read back whenever the store is
opened later. -/
theorem durable_replayed (crc : Bytes → UInt32) (shardCount : Nat) {s s₁ s₂ : Sys}
    (hr : Reach (step crc) (BehindWhole crc) (start crc shardCount fun _ => []) s) {d : Nat}
    (hd : s.store.durableSeq = .ok d) (hr₁ : Reach (step crc) (BehindWhole crc) s s₁) {e : Event}
    (he : e = .reopen ∨ ∃ cut, e = .crash cut) (hs : s₁.step crc e = some s₂) :
    (∀ i, ∀ r ∈ s.staged i, r.seq ≤ d → ∃ rec ∈ decodePWALShard crc (s₂.dir i),
      rec.seq = r.seq ∧ List.Forall₂ (Points (s₂.dir i)) rec.entries r.ops) ∧
    ∀ i, decodePWALShard crc (s.dir i) <+: decodePWALShard crc (s₂.dir i) := by
  obtain ⟨recs, h⟩ := hr.invariant (P := fun s => ∃ recs, CrashInv crc recs s)
    (fun _ _ _ ⟨_, h⟩ hg hs => (h.step hg hs).imp fun _ h => h.1) ⟨_, CrashInv.start crc shardCount⟩
  -- what is kept in `s` is kept to the end
  obtain ⟨recs₁, h₁, hkept₁⟩ := hr₁.invariant (P := fun s₁ => ∃ recs₁, CrashInv crc recs₁ s₁ ∧
      ∀ k K, Kept crc recs s k K → Kept crc recs₁ s₁ k K)
    (fun _ _ _ ⟨_, h₁, hk₁⟩ hg hs => (h₁.step hg hs).imp fun _ h₂ => ⟨h₂.1, fun k K hK => h₂.2 k K (hk₁ k K hK)⟩)
    ⟨recs, h, fun _ _ hK => hK⟩
  have hg : BehindWhole crc s₁ e := by
    rcases he with rfl | ⟨cut, rfl⟩ <;> trivial
  obtain ⟨recs₂, h₂, hkept₂⟩ := h₁.step hg hs
  have hstaged : s₂.staged = fun _ => [] := by
    rcases he with rfl | ⟨cut, rfl⟩
    · simp only [step] at hs
      split at hs
      · cases hs; rfl
      · cases hs
    · cases hs; rfl
  have hfinal : ∀ i K, Kept crc recs s i K → K <+: recs₂ i := by
    intro i K hK
    have hpre := (hkept₂ i K (hkept₁ i K hK)).1
    unfold shardRecs at hpre
    rw [hstaged, map_nil, append_nil] at hpre
    exact hpre
  obtain ⟨marked, hsess⟩ := h.session
  refine ⟨fun i r hri hle => ?_, fun i => ?_⟩
  · rw [PwalStore.durableSeq_eq hd] at hle
    obtain ⟨K, hK, hrK⟩ := h.kept hri (hsess.synced (TornLog.sameCount h.logs) hri hle)
    obtain ⟨rest, -, hfile⟩ := (h₂.logs i).bytes
    have hst : Stands (fileBytes crc (recs₂ i)) (s₂.dir i) 0 := by
      rw [hfile]
      exact prefix_append _ _
    rw [(h₂.logs i).decode]
    exact exists_recordsAt hst ((hfinal i K hK).subset hrK)
  · have hpre := hfinal i (recs i) ⟨prefix_append _ _,
      ((h.logs i).length_le (prefix_refl _)).trans (h.opened i)⟩
    rw [(h.logs i).decode, (h₂.logs i).decode]
    exact recordsAt_prefix hpre

/-- The first batch is reported durable, a crash leaves one byte of the second one, and the store is opened twice. -/
theorem durable_replayed_sample : ∃ s₂ : Sys, ¬ Whole sampleCrc (s₂.dir 0) ∧
    ∃ rec ∈ decodePWALShard sampleCrc (s₂.dir 0), rec.seq = 1 := by
  obtain ⟨s, hs, hd, ⟨r, hr0, hseq⟩, s₁, hs₁, s₂, hs₂, hp⟩ :
      ∃ s ∈ run (guarded (step sampleCrc) (BehindWhole sampleCrc)) (start sampleCrc 1 fun _ => [])
      (commitEvents [.put [1] [7]] ++ flushEvents 0),
      s.store.durableSeq = .ok 1 ∧ (∃ r ∈ s.staged 0, r.seq = 1) ∧
      ∃ s₁ ∈ run (guarded (step sampleCrc) (BehindWhole sampleCrc)) s
      (commitEvents [.put [2] [8]] ++ [.crash fun _ => 32]), ∃ s₂ ∈ s₁.step sampleCrc .reopen,
      ¬ Whole sampleCrc (s₂.dir 0) := by decide +kernel
  have hr := reach_guarded hs
  have hr₁ := reach_guarded hs₁
  obtain ⟨rec, hrec, hq, -⟩ := (durable_replayed sampleCrc 1 hr hd hr₁ (.inl rfl) hs₂).1 0 r hr0 (by rw [hseq])
  exact ⟨s₂, hp, rec, hrec, hq.trans hseq⟩

/-- **One byte of a record at the end of the file**: the first batch is lost in a crash before it is synced; the second
batch is written behind the byte that is left, reported durable, and not found by the next opening. -/
theorem durable_lost : ∃ s s₁, run (step sampleCrc) (start sampleCrc 1 fun _ => [])
      (commitEvents [.put [1] [7]] ++ [.crash fun _ => 1] ++ commitEvents [.put [2] [8]] ++ flushEvents 0) = some s ∧
    s.store.err = none ∧ s.store.wm.value = 1 ∧ s.returned = [1, 1] ∧ s.store.get [2] = some (some [8]) ∧
    s.step sampleCrc .reopen = some s₁ ∧ decodePWALShard sampleCrc (s₁.dir 0) = [] ∧ s₁.store.get [2] = some none := by
  obtain ⟨s, hs, herr, hwm, hret, hget, s₁, hs₁, hp₁⟩ : ∃ s ∈ run (step sampleCrc) (start sampleCrc 1 fun _ =>
      [])
      (commitEvents [.put [1] [7]] ++ [.crash fun _ => 1] ++ commitEvents [.put [2] [8]] ++ flushEvents 0),
      s.store.err = none ∧ s.store.wm.value = 1 ∧ s.returned = [1, 1] ∧ s.store.get [2] = some (some [8]) ∧
      ∃ s₁ ∈ s.step sampleCrc .reopen, decodePWALShard sampleCrc (s₁.dir 0) = [] ∧
      s₁.store.get [2] = some none := by decide +kernel
  exact ⟨s, s₁, hs, herr, hwm, hret, hget, hs₁, hp₁⟩

end Yasdb.Pwal
