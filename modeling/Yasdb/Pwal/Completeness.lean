import Yasdb.Pwal.Files

/-!
# When the watermark reaches every commit

Shards are chosen in turn, so the commits of a session take the next numbers without a gap if the session started with
the same number of batches in every shard. The turn starts again at shard 0 in every session, while each shard goes on
with its own numbers; with uneven shards this leaves a gap, and the watermark stops there.

- `durableSeq_complete`: **with commits only in sessions that start even**, `DurableSeq` reaches every number;
- `durableSeq_stuck`: after one commit on two shards and a restart, it does not reach the next one.
-/

namespace Yasdb.Pwal

open Batch BigEndian Runs List Call Sys Nat

/-! ## Numbers in turn -/

/-- How many of the first `k` numbers fall to shard `i` of `n`. -/
def slots (n k i : Nat) : Nat := (k + n - 1 - i) / n

section Slots

variable {n k i : Nat} (hi : i < n)
include hi

theorem lt_slots {m : Nat} : m < slots n k i ↔ m * n + i < k := by
  unfold slots
  rw [← succ_le_iff, le_div_iff_mul_le (by omega), succ_mul]
  omega

theorem slots_mod (he : k % n = i) : slots n k i = k / n := by
  have hk := Nat.div_add_mod' k n
  refine eq_of_forall_lt_iff fun m => ?_
  have hmul : m * n < k / n * n ↔ m < k / n := Nat.mul_lt_mul_right (by omega)
  rw [lt_slots hi, ← hmul]
  omega

theorem slots_succ : slots n (k + 1) i = slots n k i + if k % n = i then 1 else 0 := by
  have hn : 0 < n := by omega
  have hk := div_add_mod' k n
  have hmod := mod_lt k hn
  refine eq_of_forall_lt_iff fun m => ?_
  rw [lt_slots hi]
  split
  · rename_i he
    have hmul : m * n ≤ k / n * n ↔ m ≤ k / n := Nat.mul_le_mul_right_iff hn
    rw [slots_mod hi he, show m < k / n + 1 ↔ m ≤ k / n from Nat.lt_succ_iff, ← hmul]
    omega
  · rename_i he
    have hne : m * n + i ≠ k := by
      intro hmk
      rw [← hmk, mul_add_mod_of_lt hi] at he
      exact he rfl
    show _ ↔ m < slots n k i
    rw [lt_slots hi]
    omega

theorem slots_add {l : Nat} : slots n (l * n + k) i = l + slots n k i := by
  refine eq_of_forall_lt_iff fun m => ?_
  rw [lt_slots hi]
  rcases lt_or_ge m l with hm | hm
  · have := mul_le_mul_right n (show m + 1 ≤ l by omega)
    rw [Nat.succ_mul] at this
    omega
  · obtain ⟨d, rfl⟩ := Nat.exists_eq_add_of_le hm
    rw [add_mul, show l + d < l + slots n k i ↔ d < slots n k i by omega, lt_slots hi]
    omega

theorem slots_zero : slots n 0 i = 0 := by
  by_contra h
  have := (lt_slots hi).mp (Nat.pos_of_ne_zero h)
  omega

theorem slots_mul {l : Nat} : slots n (l * n) i = l := by
  have := @slots_add n 0 i hi l
  rwa [slots_zero hi] at this

end Slots

theorem even_of_slots {n N : Nat} (hn : 0 < n) (h : ∀ i < n, ∀ j < n, slots n N i = slots n N j) : ∃ l, N = l * n := by
  refine ⟨slots n N 0, ?_⟩
  have h0 := h 0 hn (n - 1) (by omega)
  have hle : ¬ slots n N 0 * n + 0 < N := fun hlt => lt_irrefl _ ((lt_slots hn).mpr hlt)
  rcases Nat.eq_zero_or_pos (slots n N 0) with hz | hpos
  · rw [hz] at hle ⊢
    omega
  · have hlt := (@lt_slots n N (n - 1) (by omega) (slots n N 0 - 1)).mp (by omega)
    have hmul := Nat.sub_one_mul (slots n N 0) n
    have : n ≤ slots n N 0 * n := Nat.le_mul_of_pos_left n hpos
    omega

/-! ## Sessions that start even -/

/-- Commits are made only in sessions that found as many batches in every shard file; what is staged fits, no write
fails and there is no crash. -/
def EvenStart (crc : Bytes → UInt32) (s : Sys) : Event → Prop
  | .commitAsync _ => ∀ i < s.store.numShards, ∀ j < s.store.numShards,
      (decodePWALShard crc (s.dir i)).length = (decodePWALShard crc (s.dir j)).length
  | .call i short => short = none ∧
      ∀ ops j, s.calls[i]? = some (.stage ops j) → Fits crc ((s.store.shards j).nextSeq, ops)
  | .flush _ _ => True
  | .reopen => True
  | .crash _ => False

instance (crc : Bytes → UInt32) (s : Sys) : ∀ e, Decidable (EvenStart crc s e)
  | .commitAsync _ => inferInstanceAs (Decidable (∀ i < _, ∀ j < _, _ = _))
  | .call _ _ => inferInstanceAs (Decidable (_ ∧ _))
  | .flush _ _ | .reopen => inferInstanceAs (Decidable True)
  | .crash _ => inferInstanceAs (Decidable False)

/-- The call has chosen shard `i` and not yet staged its batch. -/
def Call.waits (i : Nat) : Call → Bool
  | .stage _ j => j == i
  | _ => false

/-- `N` numbers had been given out when the session started. -/
structure TurnInv (crc : Bytes → UInt32) (N : Nat) (s : Sys) : Prop where
  session : ∃ marked, SessionInv crc marked s
  logs : ∀ i < s.store.numShards, ∃ recs, FileLog crc s.store.numShards i recs (s.dir i) ∧
    recs.length = slots s.store.numShards N i
  fits : ∀ i, ∀ r ∈ s.staged i, Fits crc (r.seq, r.ops)
  even : (s.calls = [] ∧ s.store.nextShard = 0) ∨ ∃ l, N = l * s.store.numShards
  turn : ∀ i < s.store.numShards,
    (s.staged i).length + s.calls.countP (waits i) = slots s.store.numShards s.store.nextShard i
  returned : ∀ q ∈ s.returned, q ≤ N + s.store.nextShard
  numbers : ∀ ops j seq locs, index ops j seq locs ∈ s.calls → seq ≤ N + s.store.nextShard

namespace TurnInv

variable {crc : Bytes → UInt32} {N : Nat} {s : Sys}

theorem start (crc : Bytes → UInt32) (shardCount : Nat) : TurnInv crc 0 (start crc shardCount fun _ => []) := by
  refine ⟨⟨_, SessionInv.opened rfl rfl rfl rfl⟩, fun i hi => ⟨[], fileLog_empty crc _ i, ?_⟩, fun i r hr => ?_,
    Or.inl ⟨rfl, rfl⟩, fun i hi => ?_, fun q hq => ?_, fun ops j seq locs hc => ?_⟩
  · rw [slots_zero hi]; rfl
  · cases hr
  · exact (slots_zero hi).symm
  · cases hq
  · cases hc

variable (h : TurnInv crc N s)
include h

theorem numShards_pos : 0 < s.store.numShards := h.session.choose_spec.count

theorem share {i : Nat} (hi : i < s.store.numShards) :
    slots s.store.numShards N i + slots s.store.numShards s.store.nextShard i =
      slots s.store.numShards (N + s.store.nextShard) i := by
  rcases h.even with ⟨-, hz⟩ | ⟨l, hl⟩
  · rw [hz, slots_zero hi, add_zero, add_zero]
  · rw [hl, slots_mul hi, slots_add hi]

theorem nextSeq_le {i j : Nat} {ops : List Op} (hc : s.calls[i]? = some (.stage ops j)) :
    (s.store.shards j).nextSeq ≤ N + s.store.nextShard := by
  obtain ⟨marked, hs⟩ := h.session
  have hmem := mem_of_getElem? hc
  have hj : j < s.store.numShards := hs.calls _ hmem
  obtain ⟨recs, hlog, hlen⟩ := h.logs j hj
  have hwait : 0 < s.calls.countP (waits j) := countP_pos_iff.mpr ⟨_, hmem, by simp [waits]⟩
  have hlt : slots s.store.numShards N j + (s.staged j).length < slots s.store.numShards (N + s.store.nextShard) j := by
    have := h.turn j hj
    rw [← h.share hj]
    omega
  have := (lt_slots hj).mp hlt
  rw [(hs.shards j).nextSeq, hlog.localSeq h.numShards_pos, hlen]
  omega

theorem commitAsync (heven : ∀ i < s.store.numShards, ∀ j < s.store.numShards,
      (decodePWALShard crc (s.dir i)).length = (decodePWALShard crc (s.dir j)).length) (ops : List Op)
    (hs' : ∃ marked, SessionInv crc marked
      { s with calls := s.calls ++ [.select ops], batches := s.batches ++ [ops] }) :
    TurnInv crc N { s with calls := s.calls ++ [.select ops], batches := s.batches ++ [ops] } := by
  refine ⟨hs', h.logs, h.fits, .inr (even_of_slots h.numShards_pos fun i hi j hj => ?_), fun i hi => ?_, h.returned,
    fun ops' j seq locs hc => ?_⟩
  · obtain ⟨ri, hli, hi'⟩ := h.logs i hi
    obtain ⟨rj, hlj, hj'⟩ := h.logs j hj
    rw [← hi', ← hj', ← hli.length_decode, ← hlj.length_decode]
    exact heven i hi j hj
  · rw [← h.turn i hi]
    simp [waits]
  · rcases mem_append.mp hc with hc | hc
    · exact h.numbers ops' j seq locs hc
    · simp at hc

theorem call {i : Nat} {c : Call} (hc : s.calls[i]? = some c)
    (hfit : ∀ ops j, c = .stage ops j → Fits crc ((s.store.shards j).nextSeq, ops)) :
    TurnInv crc N (s.call crc i none c) := by
  have hs' : ∃ marked, SessionInv crc marked (s.call crc i none c) := ⟨_, h.session.choose_spec.call hc⟩
  obtain ⟨hi, hget⟩ := List.getElem?_eq_some_iff.mp hc
  have heven : ∃ l, N = l * s.store.numShards := by
    rcases h.even with ⟨hnil, -⟩ | he
    · rw [hnil] at hc; simp at hc
    · exact he
  cases c with
  | select ops =>
    refine ⟨hs', h.logs, h.fits, .inr heven, fun j hj => ?_, fun q hq => ?_, fun ops' j seq locs hm => ?_⟩
    · have hj : j < s.store.numShards := hj
      show (s.staged j).length + (s.calls.set i _).countP (waits j) = slots s.store.numShards (s.store.nextShard + 1) j
      rw [countP_set hi, hget, slots_succ hj, ← h.turn j hj]
      simp [waits, add_assoc]
    · exact (h.returned q hq).trans (le_succ _)
    · rcases mem_or_eq_of_mem_set hm with hm | hm
      · exact (h.numbers ops' j seq locs hm).trans (le_succ _)
      · cases hm
  | stage ops j =>
    have hle := h.nextSeq_le hc
    rw [call_stage] at hs' ⊢
    refine ⟨hs', h.logs, fun k r hr => ?_, .inr heven, fun k hk => ?_, h.returned, fun ops' k seq locs hm => ?_⟩
    · by_cases hkj : k = j
      · subst hkj
        simp only [Function.update_self, mem_append, mem_singleton] at hr
        rcases hr with hr | rfl
        · exact h.fits k r hr
        · exact hfit ops k rfl
      · simp only [Function.update_of_ne hkj] at hr
        exact h.fits k r hr
    · have hturn := h.turn k hk
      rw [countP_set hi, hget, ← hturn]
      by_cases hkj : k = j
      · subst hkj
        have hwait : 0 < s.calls.countP (waits k) :=
          countP_pos_iff.mpr ⟨_, mem_of_getElem? hc, by simp [waits]⟩
        simp [waits]
        omega
      · simp [waits, hkj, Ne.symm hkj]
    · rcases mem_or_eq_of_mem_set hm with hm | hm
      · exact h.numbers ops' k seq locs hm
      · simp only [index.injEq] at hm
        rw [hm.2.2.1]
        exact hle
  | index ops j seq locs =>
    refine ⟨hs', h.logs, h.fits, .inr heven, fun k hk => ?_, fun q hq => ?_, fun ops' k seq' locs' hm => ?_⟩
    · have hperm := (getElem_cons_eraseIdx_perm hi).countP_eq (waits k)
      rw [hget, countP_cons_of_neg (by simp [waits])] at hperm
      show (s.staged k).length + (s.calls.eraseIdx i).countP (waits k) = slots _ s.store.nextShard k
      rw [hperm]
      exact h.turn k hk
    · rcases mem_append.mp hq with hq | hq
      · exact h.returned q hq
      · rw [mem_singleton.mp hq]
        exact h.numbers ops j seq locs (mem_of_getElem? hc)
    · exact h.numbers ops' k seq' locs' (mem_of_mem_eraseIdx hm)

theorem flush {i : Nat} {f : Flush} (hf : (s.store.shards i).flush = some f) (ok : Bool) :
    TurnInv crc N (s.flush i ok f) := by
  obtain ⟨hcalls, hdir, hstaged, hret, hn, hnext⟩ := s.flush_same i ok f
  refine ⟨h.session.choose_spec.flush hf ok, ?_, ?_, ?_, ?_, ?_, ?_⟩
  · rw [hdir, hn]; exact h.logs
  · rw [hstaged]; exact h.fits
  · rw [hcalls, hnext, hn]; exact h.even
  · rw [hcalls, hstaged, hn, hnext]; exact h.turn
  · rw [hret, hnext]; exact h.returned
  · rw [hcalls, hnext]; exact h.numbers

/-- A session ends: its numbers join those given out before. -/
theorem reopen (hc : s.calls = []) :
    TurnInv crc (N + s.store.nextShard) (s.reopen crc fun i => (s.store.shards i).file) := by
  have hn : (s.reopen crc fun i => (s.store.shards i).file).store.numShards = s.store.numShards := by
    show (if s.store.numShards < 1 then 1 else s.store.numShards) = s.store.numShards
    rw [if_neg (by have := h.numShards_pos; omega)]
  obtain ⟨marked, hs⟩ := h.session
  refine ⟨⟨_, SessionInv.opened rfl rfl rfl rfl⟩, fun i hi => ?_, fun i r hr => ?_, .inl ⟨rfl, rfl⟩, fun i hi => ?_,
    h.returned, fun ops j seq locs hm => ?_⟩
  · rw [hn] at hi ⊢
    obtain ⟨recs, hlog, hlen⟩ := h.logs i hi
    refine ⟨_, hlog.session h.numShards_pos (hs.shards i) (h.fits i), ?_⟩
    have := h.turn i hi
    rw [hc, countP_nil, add_zero] at this
    rw [length_append, length_map, hlen, this, h.share hi]
  · cases hr
  · exact (slots_zero hi).symm
  · cases hm

theorem step {e : Event} (hg : EvenStart crc s e) {s' : Sys} (he : s.step crc e = some s') :
    ∃ N', TurnInv crc N' s' := by
  cases e with
  | commitAsync ops =>
    have hs' := h.session.choose_spec.step (e := .commitAsync ops) trivial he
    simp only [Sys.step] at he
    split at he
    · cases he
    · cases he; exact ⟨N, h.commitAsync hg ops hs'⟩
  | call i short =>
    obtain ⟨c, hc, rfl⟩ := Option.map_eq_some_iff.mp he
    obtain ⟨rfl, hfit⟩ := hg
    exact ⟨N, h.call hc fun ops j hcj => hfit ops j (hcj ▸ hc)⟩
  | flush i ok =>
    obtain ⟨f, hf, rfl⟩ := Option.map_eq_some_iff.mp he
    exact ⟨N, h.flush hf ok⟩
  | reopen =>
    simp only [Sys.step] at he
    split at he
    · cases he
      exact ⟨_, h.reopen (List.isEmpty_iff.mp ‹_›)⟩
    · cases he
  | crash cut => exact hg.elim

/-- **Once everything is flushed**, the watermark has reached every number given out. -/
theorem le_value (hwait : ∀ ops j, stage ops j ∉ s.calls)
    (hidle : ∀ i < s.store.numShards, (s.store.shards i).flush = none) (herr : s.store.err = none) :
    N + s.store.nextShard ≤ s.store.wm.value := by
  obtain ⟨marked, hs⟩ := h.session
  have hn := h.numShards_pos
  refine hs.tracks.le_value fun q h1 hq => ?_
  -- the shard of the number and its place there
  have hdiv := div_add_mod' (q - 1) s.store.numShards
  have hi := mod_lt (q - 1) hn
  generalize hl : (q - 1) / s.store.numShards = l at hdiv
  generalize hii : (q - 1) % s.store.numShards = i at hdiv hi
  obtain ⟨recs, hlog, hlen⟩ := h.logs i hi
  have hlt : l < slots s.store.numShards (N + s.store.nextShard) i := (lt_slots hi).mpr (by omega)
  rw [← h.share hi] at hlt
  rcases lt_or_ge l recs.length with hold | hnew
  · -- it was read back when the session started
    refine hs.readBack q ?_
    obtain ⟨r, hr, hrq⟩ := hlog.mem_seqs.mpr ⟨l, hold, rfl⟩
    exact ⟨r, mem_flatMap.mpr ⟨i, mem_range.mpr hi, hr⟩, by omega⟩
  · -- it was staged in this session
    have hcount : s.calls.countP (waits i) = 0 := by
      refine countP_eq_zero.mpr fun c hc hw => ?_
      cases c with
      | stage ops j => exact hwait ops j hc
      | select ops => cases hw
      | index ops j seq locs => cases hw
    have hturn := h.turn i hi
    rw [hcount, add_zero] at hturn
    obtain ⟨r, hr⟩ : ∃ r, (s.staged i)[l - recs.length]? = some r :=
      ⟨_, getElem?_eq_getElem (by omega)⟩
    have hseq := (hs.shards i).seqs _ r hr
    rw [hlog.localSeq hn, show recs.length + (l - recs.length) = l by omega] at hseq
    have hrq : r.seq = q := by omega
    rcases hs.covered herr i r (mem_of_getElem? hr) with hm | hm
    · exact hrq ▸ hm
    · have hpend := (hs.shards i).flush
      rw [hidle i hi] at hpend
      have hpend : (s.store.shards i).pending = [] := hpend
      unfold Shard.flight at hm
      rw [hidle i hi, hpend] at hm
      cases hm

end TurnInv

/-! ## Flushing to the end -/

/-- Flush goroutines run, and their fsyncs succeed. -/
def Flushing (_ : Sys) : Event → Prop
  | .flush _ ok => ok = true
  | _ => False

/-- How far a shard is from being flushed. -/
def Shard.backlog (sh : Shard) : Nat :=
  (if sh.pending = [] then 0 else 5) + match sh.flush with
    | none => 0
    | some .next => 1
    | some (.onDurable _) => 2
    | some (.syncing _ _) => 3
    | some (.sync _) => 4

/-- A flush goroutine whose fsyncs succeed gets closer to its end and reports no error. -/
theorem Sys.flush_ok {s : Sys} {i : Nat} {f : Flush} (hf : (s.store.shards i).flush = some f) :
    ((s.flush i true f).store.shards i).backlog < (s.store.shards i).backlog ∧
    (s.flush i true f).store.err = s.store.err ∧ ∀ j, j ≠ i → (s.flush i true f).store.shards j = s.store.shards j := by
  unfold flush
  cases f with
  | syncing seqs len =>
    refine ⟨?_, rfl, fun j hj => by simp [setShard, hj]⟩
    cases seqs <;> simp [setShard, Shard.backlog, hf]
  | next =>
    dsimp only
    split
    · exact ⟨by simp [setShard, Shard.backlog, hf], rfl, fun j hj => by simp [setShard, hj]⟩
    · rename_i hp
      refine ⟨?_, rfl, fun j hj => by simp [setShard, hj]⟩
      have hp : (s.store.shards i).pending ≠ [] := fun hnil => hp (by rw [hnil]; rfl)
      simp [setShard, Shard.backlog, hf, hp]
  | _ => exact ⟨by simp [setShard, Shard.backlog, hf], rfl, fun j hj => by simp [setShard, hj]⟩

/-- A run of flush goroutines only. -/
structure Flushes (crc : Bytes → UInt32) (s s' : Sys) : Prop where
  reach : Reach (step crc) Flushing s s'
  calls : s'.calls = s.calls
  returned : s'.returned = s.returned
  numShards : s'.store.numShards = s.store.numShards
  err : s'.store.err = s.store.err

theorem Flushes.trans {crc : Bytes → UInt32} {s s₁ s₂ : Sys} (h : Flushes crc s s₁) (h' : Flushes crc s₁ s₂) :
    Flushes crc s s₂ :=
  ⟨h.reach.trans h'.reach, h'.calls.trans h.calls, h'.returned.trans h.returned, h'.numShards.trans h.numShards,
    h'.err.trans h.err⟩

/-- The flush goroutine of one shard can run to its end, whatever the others do. -/
theorem flush_shard (crc : Bytes → UInt32) (i : Nat) : ∀ (b : Nat) (s : Sys), (s.store.shards i).backlog ≤ b →
    ∃ s', Flushes crc s s' ∧ (s'.store.shards i).flush = none ∧ ∀ j, j ≠ i → s'.store.shards j = s.store.shards j := by
  intro b
  induction b with
  | zero =>
    intro s hb
    refine ⟨s, ⟨.refl s, rfl, rfl, rfl, rfl⟩, ?_, fun _ _ => rfl⟩
    unfold Shard.backlog at hb
    cases hf : (s.store.shards i).flush with
    | none => rfl
    | some f => rw [hf] at hb; cases f <;> simp at hb
  | succ b ih =>
    intro s hb
    cases hf : (s.store.shards i).flush with
    | none => exact ⟨s, ⟨.refl s, rfl, rfl, rfl, rfl⟩, hf, fun _ _ => rfl⟩
    | some f =>
      obtain ⟨hlt, herr, hsame⟩ := flush_ok hf
      obtain ⟨hcalls, -, -, hret, hn, -⟩ := s.flush_same i true f
      obtain ⟨s', hfl, hdone, hsame'⟩ := ih (s.flush i true f) (by omega)
      have hstep : Reach (step crc) Flushing s (s.flush i true f) := by
        refine (Reach.refl s).tail (e := .flush i true) rfl ?_
        simp [step, hf]
      exact ⟨s', Flushes.trans ⟨hstep, hcalls, hret, hn, herr⟩ hfl, hdone,
        fun j hj => (hsame' j hj).trans (hsame j hj)⟩

theorem flush_all (crc : Bytes → UInt32) (s : Sys) : ∀ m, ∃ s', Flushes crc s s' ∧
    ∀ i < m, (s'.store.shards i).flush = none
  | 0 => ⟨s, ⟨.refl s, rfl, rfl, rfl, rfl⟩, fun i hi => absurd hi (not_lt_zero i)⟩
  | m + 1 => by
    obtain ⟨s₁, h₁, hdone₁⟩ := flush_all crc s m
    obtain ⟨s₂, h₂, hdone₂, hsame⟩ := flush_shard crc m _ s₁ (le_refl _)
    refine ⟨s₂, h₁.trans h₂, fun i hi => ?_⟩
    by_cases him : i = m
    · rw [him, hdone₂]
    · rw [hsame i him]
      exact hdone₁ i (by omega)

/-! ## Completeness -/

/-- **The watermark is complete if sessions start even**, with as many batches in every shard file. When all flush
goroutines have ended without an error and no call is about to stage, `DurableSeq` is at least every number returned;
and flushing alone leads to such a state. -/
theorem durableSeq_complete (crc : Bytes → UInt32) (shardCount : Nat) {s : Sys}
    (hr : Reach (step crc) (EvenStart crc) (start crc shardCount fun _ => []) s) :
    ((∀ ops j, stage ops j ∉ s.calls) → (∀ i < s.store.numShards, (s.store.shards i).flush = none) →
      s.store.err = none → ∃ d, s.store.durableSeq = .ok d ∧ ∀ q ∈ s.returned, q ≤ d) ∧
    (s.calls = [] → s.store.err = none → ∃ s', Reach (step crc) Flushing s s' ∧ s'.returned = s.returned ∧
      ∃ d, s'.store.durableSeq = .ok d ∧ ∀ q ∈ s'.returned, q ≤ d) := by
  have hstep : ∀ (s : Sys) e s', (∃ N, TurnInv crc N s) → EvenStart crc s e → s.step crc e = some s' →
      ∃ N, TurnInv crc N s' := fun _ _ _ ⟨_, h⟩ hg he => h.step hg he
  have hdurable : ∀ {N : Nat} {s : Sys}, TurnInv crc N s → (∀ ops j, stage ops j ∉ s.calls) →
      (∀ i < s.store.numShards, (s.store.shards i).flush = none) → s.store.err = none →
      ∃ d, s.store.durableSeq = .ok d ∧ ∀ q ∈ s.returned, q ≤ d := by
    intro N s h hwait hidle herr
    refine ⟨s.store.wm.value, ?_, fun q hq => (h.returned q hq).trans (h.le_value hwait hidle herr)⟩
    unfold PwalStore.durableSeq
    rw [herr]
  have hinv : ∃ N, TurnInv crc N s := hr.invariant hstep ⟨0, .start crc shardCount⟩
  refine ⟨fun hwait hidle herr => ?_, fun hcalls herr => ?_⟩
  · obtain ⟨N, h⟩ := hinv
    exact hdurable h hwait hidle herr
  · obtain ⟨s', hfl, hidle⟩ := flush_all crc s s.store.numShards
    have hflush : ∀ (s : Sys) e, Flushing s e → EvenStart crc s e := by
      intro s e he
      cases e with
      | flush i ok => trivial
      | _ => exact he.elim
    obtain ⟨N, h⟩ := (hfl.reach.mono hflush).invariant hstep hinv
    refine ⟨s', hfl.reach, hfl.returned, hdurable h (fun ops j hm => ?_) ?_ (hfl.err.trans herr)⟩
    · rw [hfl.calls, hcalls] at hm; cases hm
    · rw [hfl.numShards]; exact hidle

/-- Two commits on two shards, a restart and a third commit: `DurableSeq` reaches 3 after the flush of its shard. -/
theorem durableSeq_complete_even : ∃ s d, Reach (step sampleCrc) (EvenStart sampleCrc)
    (start sampleCrc 2 fun _ => []) s ∧ s.returned = [1, 2, 3] ∧ s.store.durableSeq = .ok d ∧ 3 ≤ d := by
  obtain ⟨s, hs, hcalls, hn, h0, h1, herr, hret⟩ : ∃ s ∈ run (guarded (step sampleCrc) (EvenStart sampleCrc))
      (start sampleCrc 2 fun _ => [])
      (commitEvents [.put [1] [7]] ++ commitEvents [.put [2] [8]] ++ [.reopen] ++ commitEvents [.del [1]] ++ flushEvents
      0), s.calls.isEmpty = true ∧ s.store.numShards = 2 ∧ (s.store.shards 0).flush = none ∧
      (s.store.shards 1).flush = none ∧ s.store.err = none ∧ s.returned = [1, 2, 3] := by decide +kernel
  have hr := reach_guarded hs
  obtain ⟨d, hd, hle⟩ := (durableSeq_complete sampleCrc 2 hr).1
    (fun ops j hm => by rw [List.isEmpty_iff.mp hcalls] at hm; cases hm)
    (fun i hi => by
      rw [hn] at hi
      rcases (show i = 0 ∨ i = 1 by omega) with rfl | rfl
      · exact h0
      · exact h1) herr
  exact ⟨s, d, hr, hret, hd, hle 3 (by rw [hret]; simp)⟩

/-- **One commit on two shards, a restart and a second commit**: the second one has number 3, number 2 is never given
out, and with everything flushed without an error `DurableSeq` stays at 1. -/
theorem durableSeq_stuck : ∃ s, run (step sampleCrc) (start sampleCrc 2 fun _ => [])
      (commitEvents [.put [1] [7]] ++ flushEvents 0 ++ [.reopen] ++ commitEvents [.put [2] [8]] ++ flushEvents 0) =
        some s ∧
    s.calls.isEmpty = true ∧ (∀ i < 2, (s.store.shards i).flush = none ∧ (s.store.shards i).pending = []) ∧
    s.returned = [1, 3] ∧ s.store.err = none ∧ s.store.wm.value = 1 := by
  obtain ⟨s, hs, hp⟩ : ∃ s ∈ run (step sampleCrc) (start sampleCrc 2 fun _ => [])
      (commitEvents [.put [1] [7]] ++ flushEvents 0 ++ [.reopen] ++ commitEvents [.put [2] [8]] ++ flushEvents 0),
      s.calls.isEmpty = true ∧ (∀ i < 2, (s.store.shards i).flush = none ∧ (s.store.shards i).pending = []) ∧
      s.returned = [1, 3] ∧ s.store.err = none ∧ s.store.wm.value = 1 := by decide +kernel
  exact ⟨s, hs, hp⟩

end Yasdb.Pwal
