import Yasdb.Pwal.Model

/-!
# One session of the log

Between two openings, each shard file grows by the records that are staged there, under consecutive numbers
(`ShardInv`); a number is handed to the watermark only after an fsync that began when its record had been written, and
every number that was staged is on its way there as long as no error is reported (`SessionInv`).

- `SessionInv.opened`: the store as it is opened;
- `SessionInv.call`, `SessionInv.flush`: the steps of calls and of flush goroutines.
-/

namespace Yasdb.Pwal

open Batch BigEndian Function List Option Shard Nat Sys

theorem seq_split {n i j l k : Nat} (hi : i < n) (hj : j < n) (h : l * n + i + 1 = k * n + j + 1) : i = j ∧ l = k := by
  have h1 : (l * n + i) % n = (k * n + j) % n := by rw [show l * n + i = k * n + j by omega]
  rw [mul_add_mod_of_lt hi, mul_add_mod_of_lt hj] at h1
  subst h1
  exact ⟨rfl, eq_of_mul_eq_mul_right (by omega) (show l * n = k * n by omega)⟩

/-- The numbers that a flush goroutine is working on. -/
def Flush.seqs : Flush → List Nat
  | .sync seqs => seqs
  | .syncing seqs _ => seqs
  | .onDurable seqs => seqs
  | .next => []

/-- The numbers written but not yet reported, except those of a failed fsync. -/
def Shard.flight (sh : Shard) : List Nat := (sh.flush.elim [] Flush.seqs) ++ sh.pending

section Stage

variable (crc : Bytes → UInt32) (ops : List Op) (sh : Shard)

theorem Shard.stage_seq : (sh.stage crc ops none).2.1 = sh.nextSeq := by
  unfold stage
  cases sh.flush <;> rfl

theorem Shard.stage_locs : (sh.stage crc ops none).2.2 =
    locsOf sh.writeOffset ops (encodePWALRecord crc sh.nextSeq ops).2.1 (encodePWALRecord crc sh.nextSeq ops).2.2 := by
  unfold stage
  cases sh.flush <;> rfl

theorem Shard.stage_file : (sh.stage crc ops none).1.file = sh.file ++ recBytes crc sh.nextSeq ops := by
  unfold stage
  cases sh.flush <;> rfl

theorem Shard.stage_writeOffset :
    (sh.stage crc ops none).1.writeOffset = sh.writeOffset + (recBytes crc sh.nextSeq ops).length := by
  unfold stage
  cases sh.flush <;> rfl

theorem Shard.stage_same : (sh.stage crc ops none).1.idx = sh.idx ∧
    (sh.stage crc ops none).1.numShards = sh.numShards ∧ (sh.stage crc ops none).1.localSeq = sh.localSeq + 1 ∧
    (sh.stage crc ops none).1.synced = sh.synced := by
  unfold stage
  cases sh.flush <;> exact ⟨rfl, rfl, rfl, rfl⟩

theorem Shard.stage_flush :
    (sh.stage crc ops none).1.flush = some (sh.flush.getD (.sync (sh.pending ++ [sh.nextSeq]))) := by
  unfold stage
  cases hf : sh.flush <;> simp

theorem Shard.stage_flight : (sh.stage crc ops none).1.flight = sh.flight ++ [sh.nextSeq] := by
  unfold stage flight
  cases sh.flush with
  | none => simp [Flush.seqs]
  | some f => simp

theorem Sys.call_stage (s : Sys) (i j : Nat) : s.call crc i none (.stage ops j) =
    { s with
      store := { s.store with shards := update s.store.shards j ((s.store.shards j).stage crc ops none).1 }
      calls := s.calls.set i
        (.index ops j (s.store.shards j).nextSeq ((s.store.shards j).stage crc ops none).2.2)
      staged := update s.staged j (s.staged j ++
        [⟨(s.store.shards j).nextSeq, ops, ((s.store.shards j).stage crc ops none).1.file.length⟩]) } := by
  have hseq := (s.store.shards j).stage_seq crc ops
  unfold call setShard
  dsimp only
  rw [hseq]

end Stage

theorem Sys.flush_same (s : Sys) (i : Nat) (ok : Bool) (f : Flush) :
    (s.flush i ok f).calls = s.calls ∧ (s.flush i ok f).dir = s.dir ∧ (s.flush i ok f).staged = s.staged ∧
    (s.flush i ok f).returned = s.returned ∧ (s.flush i ok f).store.numShards = s.store.numShards ∧
    (s.flush i ok f).store.nextShard = s.store.nextShard := by
  unfold flush
  cases f with
  | syncing seqs len => cases ok <;> exact ⟨rfl, rfl, rfl, rfl, rfl, rfl⟩
  | next =>
    dsimp only
    split <;> exact ⟨rfl, rfl, rfl, rfl, rfl, rfl⟩
  | _ => exact ⟨rfl, rfl, rfl, rfl, rfl, rfl⟩

theorem Sys.flush_shards (s : Sys) (i : Nat) (ok : Bool) (f : Flush) :
    (∃ synced pending f', (s.store.shards i).synced ≤ synced ∧ (s.flush i ok f).store.shards =
      update s.store.shards i { s.store.shards i with synced := synced, pending := pending, flush := f' }) ∧
    (s.flush i ok f).store.tree = s.store.tree ∧ (s.flush i ok f).batches = s.batches := by
  unfold flush
  cases f with
  | syncing seqs len =>
    cases ok with
    | true => exact ⟨⟨_, _, _, le_max_left _ _, rfl⟩, rfl, rfl⟩
    | false => exact ⟨⟨_, _, _, le_refl _, rfl⟩, rfl, rfl⟩
  | next =>
    dsimp only
    split <;> exact ⟨⟨_, _, _, le_refl _, rfl⟩, rfl, rfl⟩
  | _ => exact ⟨⟨_, _, _, le_refl _, rfl⟩, rfl, rfl⟩

/-- What a flush goroutine has achieved so far for the numbers it is working on. -/
def FlushInv (staged : List Staged) (sh : Shard) : Option Flush → Prop
  | none => sh.pending = []
  | some (.syncing seqs len) => len ≤ sh.file.length ∧ ∀ q ∈ seqs, ∃ r ∈ staged, r.seq = q ∧ r.stop ≤ len
  | some (.onDurable seqs) => ∀ q ∈ seqs, ∃ r ∈ staged, r.seq = q ∧ r.stop ≤ sh.synced
  | some _ => True

/-- Shard `i` of `n`, opened on `dir` at local number `base`. -/
structure ShardInv (crc : Bytes → UInt32) (n i : Nat) (dir : Bytes) (base : Nat) (staged : List Staged) (sh : Shard) :
    Prop where
  idx : sh.idx = i
  count : sh.numShards = n
  localSeq : sh.localSeq = base + staged.length
  seqs : ∀ k r, staged[k]? = some r → r.seq = (base + k) * n + i + 1
  file : sh.file = dir ++ staged.flatMap fun r => recBytes crc r.seq r.ops
  offset : sh.writeOffset = sh.file.length
  stops : ∀ r ∈ staged, dir.length < r.stop ∧ r.stop ≤ sh.file.length ∧
    ∃ pre, sh.file.take r.stop = pre ++ recBytes crc r.seq r.ops
  flight : ∀ q ∈ sh.flight, ∃ r ∈ staged, r.seq = q
  flush : FlushInv staged sh sh.flush

namespace ShardInv

variable {crc : Bytes → UInt32} {n i base : Nat} {dir : Bytes} {staged : List Staged} {sh : Shard}

theorem openShard (crc : Bytes → UInt32) (n i : Nat) (dir : Bytes) :
    ShardInv crc n i dir (openShard crc n i dir).localSeq [] (openShard crc n i dir) where
  idx := rfl
  count := rfl
  localSeq := rfl
  seqs k r h := by simp at h
  file := by simp [Pwal.openShard]
  offset := rfl
  stops r h := by cases h
  flight q h := by cases h
  flush := rfl

variable (h : ShardInv crc n i dir base staged sh)
include h

theorem nextSeq : sh.nextSeq = (base + staged.length) * n + i + 1 := by
  unfold Shard.nextSeq
  rw [h.localSeq, h.count, h.idx]

theorem seq_inj (hn : 0 < n) {r r' : Staged} (hr : r ∈ staged) (hr' : r' ∈ staged) (he : r.seq = r'.seq) : r = r' := by
  obtain ⟨k, hk⟩ := mem_iff_getElem?.mp hr
  obtain ⟨k', hk'⟩ := mem_iff_getElem?.mp hr'
  rw [h.seqs k r hk, h.seqs k' r' hk'] at he
  have hkk : k = k' := by
    have : (base + k) * n = (base + k') * n := by omega
    have := eq_of_mul_eq_mul_right hn this
    omega
  rw [hkk, hk', some.injEq] at hk
  exact hk.symm

/-- Staging a batch. -/
theorem stage (ops : List Op) :
    ShardInv crc n i dir base (staged ++ [⟨sh.nextSeq, ops, (sh.stage crc ops none).1.file.length⟩])
      (sh.stage crc ops none).1 := by
  have hfile := sh.stage_file crc ops
  have hpos := length_recBytes crc sh.nextSeq ops
  obtain ⟨hidx, hcount, hlocal, hsynced⟩ := sh.stage_same crc ops
  refine ⟨hidx.trans h.idx, hcount.trans h.count, ?_, fun k r hk => ?_, ?_, ?_, fun r hr => ?_, fun q hq => ?_, ?_⟩
  · rw [hlocal, h.localSeq, length_append, length_singleton, add_assoc]
  · rcases lt_or_ge k staged.length with hlt | hge
    · rw [getElem?_append_left hlt] at hk
      exact h.seqs k r hk
    · rw [getElem?_append_right hge, getElem?_singleton] at hk
      split at hk
      · rw [some.injEq] at hk
        rw [← hk, h.nextSeq, show k = staged.length by omega]
      · cases hk
  · rw [hfile, h.file, flatMap_append, flatMap_singleton, append_assoc]
  · rw [sh.stage_writeOffset, hfile, h.offset, length_append]
  · rcases mem_append.mp hr with hr | hr
    · obtain ⟨h1, h2, pre, hpre⟩ := h.stops r hr
      refine ⟨h1, ?_, pre, ?_⟩
      · rw [hfile, length_append]
        omega
      · rw [hfile, take_append_of_le_length h2, hpre]
    · have hdir : dir.length ≤ sh.file.length := by rw [h.file, length_append]; omega
      rw [mem_singleton.mp hr]
      dsimp only
      rw [hfile]
      refine ⟨?_, le_refl _, sh.file, take_length⟩
      rw [length_append]
      omega
  · rw [sh.stage_flight, mem_append] at hq
    rcases hq with hq | hq
    · obtain ⟨r, hr, he⟩ := h.flight q hq
      exact ⟨r, mem_append_left _ hr, he⟩
    · exact ⟨_, mem_append_right _ (mem_singleton_self _), (mem_singleton.mp hq).symm⟩
  · have hmono : ∀ {q b}, (∃ r ∈ staged, r.seq = q ∧ r.stop ≤ b) →
        ∃ r ∈ staged ++ [⟨sh.nextSeq, ops, (sh.stage crc ops none).1.file.length⟩], r.seq = q ∧ r.stop ≤ b :=
      fun ⟨r, hr, he⟩ => ⟨r, mem_append_left _ hr, he⟩
    have hfl := h.flush
    rw [sh.stage_flush]
    cases hf : sh.flush with
    | none => trivial
    | some f =>
      rw [hf] at hfl
      cases f with
      | syncing seqs len =>
        refine ⟨?_, fun q hq => hmono (hfl.2 q hq)⟩
        rw [hfile, length_append]
        exact le_add_right_of_le hfl.1
      | onDurable seqs =>
        intro q hq
        rw [hsynced]
        exact hmono (hfl q hq)
      | sync seqs => trivial
      | next => trivial

theorem flushed {synced : Nat} {pending : List Nat} {f : Option Flush}
    (hflight : ∀ q ∈ ({ sh with synced := synced, pending := pending, flush := f } : Shard).flight, q ∈ sh.flight)
    (hflush : FlushInv staged { sh with synced := synced, pending := pending, flush := f } f) :
    ShardInv crc n i dir base staged { sh with synced := synced, pending := pending, flush := f } :=
  ⟨h.idx, h.count, h.localSeq, h.seqs, h.file, h.offset, h.stops, fun q hq => h.flight q (hflight q hq), hflush⟩

end ShardInv

/-! ## The session -/

/-- The call has chosen one of the shards. -/
def Call.Valid (n : Nat) : Call → Prop
  | .stage _ j => j < n
  | _ => True

/-- The numbers of the records read back from the files. -/
def ReadBack (crc : Bytes → UInt32) (n : Nat) (dir : Nat → Bytes) (q : Nat) : Prop :=
  ∃ r ∈ recovered crc n dir, r.seq = q

/-- The invariant of a session; `marked` are the numbers handed to the watermark. -/
structure SessionInv (crc : Bytes → UInt32) (marked : Nat → Prop) (s : Sys) : Prop where
  count : 0 < s.store.numShards
  shards : ∀ i, ShardInv crc s.store.numShards i (s.dir i) (openShard crc s.store.numShards i (s.dir i)).localSeq
    (s.staged i) (s.store.shards i)
  calls : ∀ c ∈ s.calls, c.Valid s.store.numShards
  staged : ∀ i, s.staged i ≠ [] → i < s.store.numShards
  tracks : Tracks marked s.store.wm
  readBack : ∀ q, ReadBack crc s.store.numShards s.dir q → marked q
  sound : ∀ q, marked q → ReadBack crc s.store.numShards s.dir q ∨
    ∃ i, ∃ r ∈ s.staged i, r.seq = q ∧ r.stop ≤ (s.store.shards i).synced
  covered : s.store.err = none → ∀ i, ∀ r ∈ s.staged i, marked r.seq ∨ r.seq ∈ (s.store.shards i).flight

namespace SessionInv

variable {crc : Bytes → UInt32} {marked : Nat → Prop} {s : Sys}

theorem numShards_pos (crc : Bytes → UInt32) (shardCount : Nat) (dir : Nat → Bytes) :
    0 < (openPWALStore crc shardCount dir).numShards := by
  show 0 < if shardCount < 1 then 1 else shardCount
  split <;> omega

/-- The store as it is opened. -/
theorem opened {s : Sys} {shardCount : Nat} {dir : Nat → Bytes} (hstore : s.store = openPWALStore crc shardCount dir)
    (hcalls : s.calls = []) (hdir : s.dir = dir) (hstaged : s.staged = fun _ => []) :
    SessionInv crc (ReadBack crc s.store.numShards s.dir) s := by
  have hn := numShards_pos crc shardCount dir
  rw [← hstore] at hn
  refine ⟨hn, fun i => ?_, fun c hc => ?_, fun i hi => ?_, ?_, fun _ h => h, fun _ h => .inl h, fun _ i r hr => ?_⟩
  · rw [hstaged, hstore, hdir]
    exact ShardInv.openShard crc _ i (dir i)
  · rw [hcalls] at hc; cases hc
  · rw [hstaged] at hi; exact absurd rfl hi
  · have ht := tracks_empty.mark ((recovered crc (openPWALStore crc shardCount dir).numShards dir).map (·.seq))
    have hwm : s.store.wm = ContigWatermark.mark {}
        ((recovered crc (openPWALStore crc shardCount dir).numShards dir).map (·.seq)) := by rw [hstore]; rfl
    rw [hwm, hstore, hdir]
    have hsame : (fun q => False ∨ q ∈ (recovered crc (openPWALStore crc shardCount dir).numShards dir).map (·.seq)) =
        ReadBack crc (openPWALStore crc shardCount dir).numShards dir := by
      funext q
      simp [ReadBack]
    rw [← hsame]
    exact ht
  · rw [hstaged] at hr; cases hr

variable (h : SessionInv crc marked s)
include h

/-- A shard takes a step that stages nothing. -/
theorem setShard {marked' : Nat → Prop} {i : Nat} {sh : Shard} {err : Option Failure} {wm : ContigWatermark}
    (hsh : ShardInv crc s.store.numShards i (s.dir i) (openShard crc s.store.numShards i (s.dir i)).localSeq
      (s.staged i) sh)
    (hsynced : (s.store.shards i).synced ≤ sh.synced) (ht : Tracks marked' wm) (hmono : ∀ q, marked q → marked' q)
    (hsound : ∀ q, marked' q → marked q ∨ ∃ r ∈ s.staged i, r.seq = q ∧ r.stop ≤ sh.synced)
    (hcov : err = none → s.store.err = none ∧ ∀ q ∈ (s.store.shards i).flight, marked' q ∨ q ∈ sh.flight) :
    SessionInv crc marked' { s with store := { s.store with
      shards := update s.store.shards i sh, err := err, wm := wm } } := by
  refine ⟨h.count, fun j => ?_, h.calls, h.staged, ht, fun q hq => hmono q (h.readBack q hq), fun q hq => ?_,
    fun he j r hr => ?_⟩
  · by_cases hj : j = i
    · subst hj; simpa using hsh
    · simpa [hj] using h.shards j
  · have hcase : ∀ j r, r ∈ s.staged j → r.seq = q → r.stop ≤ (s.store.shards j).synced →
        ∃ j, ∃ r ∈ s.staged j, r.seq = q ∧ r.stop ≤ (update s.store.shards i sh j).synced := by
      intro j r hr hrq hrs
      refine ⟨j, r, hr, hrq, ?_⟩
      by_cases hj : j = i
      · subst hj; rw [update_self]; omega
      · rw [update_of_ne hj]; exact hrs
    rcases hsound q hq with hq | ⟨r, hr, hrq, hrs⟩
    · rcases h.sound q hq with hb | ⟨j, r, hr, hrq, hrs⟩
      · exact .inl hb
      · exact .inr (hcase j r hr hrq hrs)
    · exact .inr ⟨i, r, hr, hrq, by simpa using hrs⟩
  · obtain ⟨he', hfl⟩ := hcov he
    rcases h.covered he' j r hr with hm | hm
    · exact .inl (hmono _ hm)
    · by_cases hj : j = i
      · subst hj
        rcases hfl _ hm with hm | hm
        · exact .inl hm
        · right
          simpa using hm
      · right
        simpa [hj] using hm

/-- **The steps of a flush goroutine.** -/
theorem flush {i : Nat} {f : Flush} (hf : (s.store.shards i).flush = some f) (ok : Bool) :
    ∃ marked', SessionInv crc marked' (s.flush i ok f) := by
  have hsh := h.shards i
  have hfl := hsh.flush
  have hflight : (s.store.shards i).flight = f.seqs ++ (s.store.shards i).pending := by
    unfold flight
    rw [hf]
    rfl
  rw [hf] at hfl
  cases f with
  | sync seqs =>
    refine ⟨marked, h.setShard (hsh.flushed (fun q hq => ?_) ⟨le_refl _, fun q hq => ?_⟩) (le_refl _) h.tracks
      (fun _ hq => hq) (fun _ hq => .inl hq) fun he => ⟨he, fun q hq => .inr ?_⟩⟩
    · rw [hflight]; exact hq
    · obtain ⟨r, hr, hrq⟩ := hsh.flight q (by rw [hflight]; exact mem_append_left _ hq)
      exact ⟨r, hr, hrq, (hsh.stops r hr).2.1⟩
    · rw [hflight] at hq; exact hq
  | syncing seqs len =>
    unfold Sys.flush
    cases ok with
    | true =>
      simp only [if_true]
      refine ⟨marked, h.setShard (hsh.flushed (fun q hq => ?_) ?_) (le_max_left _ _) h.tracks (fun _ hq => hq)
        (fun _ hq => .inl hq) fun he => ⟨he, fun q hq => .inr ?_⟩⟩
      · rw [hflight]
        cases seqs with
        | nil => exact hq
        | cons q' seqs => exact hq
      · cases seqs with
        | nil => trivial
        | cons q' seqs =>
          intro q hq
          obtain ⟨r, hr, hrq, hrs⟩ := hfl.2 q hq
          exact ⟨r, hr, hrq, hrs.trans (le_max_right _ _)⟩
      · rw [hflight] at hq
        cases seqs with
        | nil => exact hq
        | cons q' seqs => exact hq
    | false =>
      refine ⟨marked, h.setShard (hsh.flushed (fun q hq => ?_) trivial) (le_refl _) h.tracks (fun _ hq => hq)
        (fun _ hq => .inl hq) fun he => ?_⟩
      · rw [hflight]; exact mem_append_right _ hq
      · -- the error is reported
        simp at he
  | onDurable seqs =>
    refine ⟨fun q => marked q ∨ q ∈ seqs, h.setShard (hsh.flushed (fun q hq => ?_) trivial) (le_refl _)
      (h.tracks.mark seqs) (fun _ hq => .inl hq) (fun q hq => hq.imp id fun hq => hfl q hq)
      fun he => ⟨he, fun q hq => ?_⟩⟩
    · rw [hflight]; exact mem_append_right _ hq
    · rw [hflight] at hq
      rcases mem_append.mp hq with hq | hq
      · exact .inl (.inr hq)
      · exact .inr hq
  | next =>
    unfold Sys.flush
    dsimp only
    split
    · rename_i hp
      refine ⟨marked, h.setShard (hsh.flushed (fun q hq => ?_) ?_) (le_refl _) h.tracks (fun _ hq => hq)
        (fun _ hq => .inl hq) fun he => ⟨he, fun q hq => .inr ?_⟩⟩
      · rw [hflight]; exact hq
      · exact eq_nil_of_length_eq_zero hp
      · rw [hflight] at hq; exact hq
    · refine ⟨marked, h.setShard (hsh.flushed (fun q hq => ?_) trivial) (le_refl _) h.tracks (fun _ hq => hq)
        (fun _ hq => .inl hq) fun he => ⟨he, fun q hq => .inr ?_⟩⟩
      · rw [hflight]
        simpa [flight, Flush.seqs] using hq
      · rw [hflight] at hq
        simpa [flight, Flush.seqs] using hq

/-- A batch is staged. -/
theorem stage {i j : Nat} {ops : List Op} (hc : s.calls[i]? = some (.stage ops j)) :
    SessionInv crc marked (s.call crc i none (.stage ops j)) := by
  have hj : j < s.store.numShards := h.calls _ (mem_of_getElem? hc)
  have hsh := (h.shards j).stage ops
  have hflight := (s.store.shards j).stage_flight crc ops
  obtain ⟨-, -, -, hsynced⟩ := (s.store.shards j).stage_same crc ops
  rw [call_stage]
  refine ⟨h.count, fun k => ?_, fun c hc => ?_, fun k hk => ?_, h.tracks, h.readBack, fun q hq => ?_,
    fun he k r hr => ?_⟩
  · by_cases hk : k = j
    · subst hk; simpa using hsh
    · simpa [hk] using h.shards k
  · rcases mem_or_eq_of_mem_set hc with hc | rfl
    · exact h.calls c hc
    · trivial
  · by_cases hkj : k = j
    · exact hkj ▸ hj
    · exact h.staged k (by simpa [hkj] using hk)
  · rcases h.sound q hq with hb | ⟨k, r, hr, hrq, hrs⟩
    · exact .inl hb
    · right
      refine ⟨k, r, ?_, hrq, ?_⟩
      · by_cases hk : k = j
        · subst hk; simp [hr]
        · simpa [hk] using hr
      · by_cases hk : k = j
        · subst hk; simpa [hsynced] using hrs
        · simpa [hk] using hrs
  · by_cases hk : k = j
    · subst hk
      simp only [update_self, mem_append, mem_singleton, hflight] at hr ⊢
      rcases hr with hr | rfl
      · exact (h.covered he k r hr).imp id Or.inl
      · exact .inr (.inr rfl)
    · simp only [update_of_ne hk] at hr ⊢
      exact h.covered he k r hr

/-- **The steps of a call** whose write succeeds. -/
theorem call {i : Nat} {c : Call} (hc : s.calls[i]? = some c) : SessionInv crc marked (s.call crc i none c) := by
  cases c with
  | select ops =>
    refine ⟨h.count, h.shards, fun c hc => ?_, h.staged, h.tracks, h.readBack, h.sound, h.covered⟩
    rcases mem_or_eq_of_mem_set hc with hc | rfl
    · exact h.calls c hc
    · exact mod_lt _ h.count
  | stage ops j => exact h.stage hc
  | index ops j seq locs =>
    exact ⟨h.count, h.shards, fun c hc => h.calls c (mem_of_mem_eraseIdx hc), h.staged, h.tracks, h.readBack,
      h.sound, h.covered⟩

end SessionInv

/-- No write fails. -/
def Event.Writes : Event → Prop
  | .call _ short => short = none
  | _ => True

instance : ∀ e : Event, Decidable e.Writes
  | .call _ short => inferInstanceAs (Decidable (short = none))
  | .commitAsync _ => inferInstanceAs (Decidable True)
  | .flush _ _ => inferInstanceAs (Decidable True)
  | .reopen => inferInstanceAs (Decidable True)
  | .crash _ => inferInstanceAs (Decidable True)

/-- A condition on a call that is about to stage its batch. -/
instance (P : List Op → Nat → Prop) [∀ ops j, Decidable (P ops j)] : ∀ c : Option Call,
    Decidable (∀ ops j, c = some (.stage ops j) → P ops j)
  | some (.stage ops j) => decidable_of_iff (P ops j) ⟨fun h _ _ he => by cases he; exact h, fun h => h ops j rfl⟩
  | some (.select _) => isTrue nofun
  | some (.index _ _ _ _) => isTrue nofun
  | none => isTrue nofun

/-- **Every step keeps the invariant**, if no write fails. -/
theorem SessionInv.step {crc : Bytes → UInt32} {marked : Nat → Prop} {s s' : Sys} (h : SessionInv crc marked s)
    {e : Event} (hw : e.Writes) (he : s.step crc e = some s') : ∃ marked', SessionInv crc marked' s' := by
  cases e with
  | commitAsync ops =>
    simp only [Sys.step] at he
    split at he
    · cases he
    · cases he
      refine ⟨marked, h.count, h.shards, fun c hc => ?_, h.staged, h.tracks, h.readBack, h.sound, h.covered⟩
      rcases mem_append.mp hc with hc | hc
      · exact h.calls c hc
      · rw [mem_singleton.mp hc]; trivial
  | call i short =>
    obtain ⟨c, hc, rfl⟩ := map_eq_some_iff.mp he
    cases hw
    exact ⟨marked, h.call hc⟩
  | flush i ok =>
    obtain ⟨f, hf, rfl⟩ := map_eq_some_iff.mp he
    exact h.flush hf ok
  | reopen =>
    simp only [Sys.step] at he
    split at he
    · cases he; exact ⟨_, opened rfl rfl rfl rfl⟩
    · cases he
  | crash cut => cases he; exact ⟨_, opened rfl rfl rfl rfl⟩

end Yasdb.Pwal
