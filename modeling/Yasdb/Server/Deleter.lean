import Yasdb.Server.Model

/-!
# Background deletion and its marker

A failed scan ends the loop over the records but only leaves the one over the producers, and the marker is cleared next.

- `Cleanup.inv_step`: what each phase leaves behind;
- `marker_outlives_data`: **the marker is cleared after the data**, if no scan of the producers fails.
-/

namespace Yasdb

open Batch Runs List Finmap Key

variable {db : Store} {id : Nat} {ops : List Op} {n : Nat} {flt : Faults} {scanOk : Bool}

/-- A background deletion: the store, and where the deletion stands unless it has ended. -/
structure Cleanup where
  db : Store
  phase : Option DeletePhase

/-- What fails in a step: reads, the scan or its iteration, the commit. -/
structure Mishap where
  flt : Faults := noFaults
  scanOk : Bool := true
  ok : Bool := true

namespace Cleanup

/-- The next step; a failed commit ends the deletion. -/
def step (id : Nat) (s : Cleanup) (e : Mishap) : Option Cleanup :=
  s.phase.map fun phase =>
    match backgroundDelete e.flt e.scanOk s.db id phase with
    | (none, next) => ⟨s.db, next⟩
    | (some ops, next) => if e.ok then ⟨applyOps s.db ops, next⟩ else ⟨s.db, none⟩

/-- No scan of the producers fails. -/
def ProducersScanned (s : Cleanup) (e : Mishap) : Prop := s.phase = some .producers → e.scanOk = true

instance (s : Cleanup) (e : Mishap) : Decidable (ProducersScanned s e) :=
  inferInstanceAs (Decidable (_ → _))

end Cleanup

/-- Every record of the stream lies at the cursor or behind it. -/
def RecordsFrom (db : Store) (id cursor : Nat) : Prop := ∀ n, Key.recordKey id n ∈ db → cursor ≤ n

def NoRecords (db : Store) (id : Nat) : Prop := ∀ n, Key.recordKey id n ∉ db

def NoProducers (db : Store) (id : Nat) : Prop := ∀ pid, Key.producerKey id pid ∉ db

/-- What a phase may rely on. -/
def DeletePhase.Inv (db : Store) (id : Nat) : DeletePhase → Prop
  | .start => ∀ c, db.lookup (.deletePendingKey id) = some c → RecordsFrom db id c
  | .records cursor => RecordsFrom db id cursor
  | .producers => NoRecords db id
  | .finish => NoRecords db id ∧ NoProducers db id

/-- A key that a batch does not write was there before, and is not deleted. -/
theorem mem_of_mem_applyOps {k : Key} (hput : ∀ v, Op.put k v ∉ ops)
    (h : k ∈ applyOps db ops) : k ∈ db ∧ ∀ op ∈ ops, op.key ≠ k := by
  obtain ⟨v, hv⟩ := mem_iff.mp h
  rw [lookup_applyOps] at hv
  cases he : effect k ops with
  | none => exact ⟨mem_iff.mpr ⟨v, by rwa [he] at hv⟩, ne_of_effect_none he⟩
  | some w =>
    rw [he] at hv
    cases hv
    exact absurd (mem_of_effect_put he) (hput v)

/-- What a chunk of a sorted list leaves out lies behind the last one of the chunk. -/
theorem mem_take_or {l : List Nat} {k : Nat} (hsorted : l.Pairwise (· < ·)) (hk : k ≠ 0) (hmem : n ∈ l) :
    n ∈ l.take k ∨ ∃ last, (l.take k).getLast? = some last ∧ last < n := by
  rw [← take_append_drop k l] at hmem hsorted
  rcases mem_append.mp hmem with h | h
  · exact Or.inl h
  · have hne : l.take k ≠ [] := by
      intro he
      rcases take_eq_nil_iff.mp he with h0 | h0
      · exact hk h0
      · rw [h0, drop_nil] at h
        cases h
    have hlast := getLast?_eq_some_getLast hne
    exact Or.inr ⟨_, hlast, (pairwise_append.mp hsorted).2.2 _ (mem_of_getLast? hlast) n h⟩

theorem mem_collectRecords_or {cursor : Nat} (hn : recordKey id n ∈ db) (hc : cursor ≤ n) :
    n ∈ collectRecords db id cursor ∨ ∃ last, (collectRecords db id cursor).getLast? = some last ∧ last < n :=
  mem_take_or (Scan.sortedLT_scan _ db).pairwise (by decide) (Scan.mem_scan.mpr ⟨_, hn, if_pos ⟨rfl, hc⟩⟩)

theorem noProducers_of_nil (h : collectProducers db id = []) : NoProducers db id := by
  intro pid hmem
  unfold collectProducers at h
  rw [map_eq_nil_iff, take_eq_nil_iff] at h
  rcases h with h | h
  · cases h
  · refine not_mem_nil (a := pid.map UInt8.toNat) ?_
    rw [← h, Scan.mem_scan]
    exact ⟨_, hmem, if_pos rfl⟩

/-- **Each phase leaves behind what the next one relies on.** -/
theorem backgroundDelete_inv {db : Store} {id : Nat} {phase : DeletePhase}
    {out : Option (List Op)} {next : Option DeletePhase} (hi : phase.Inv db id)
    (hscan : phase = .producers → scanOk = true) (hb : backgroundDelete flt scanOk db id phase = (out, next)) :
    ∀ ph, next = some ph → ph.Inv (out.elim db (applyOps db)) id := by
  cases phase with
  | start =>
    simp only [backgroundDelete] at hb
    split at hb
    · rename_i c hget
      cases hb
      rintro _ ⟨⟩
      exact hi c (Store.get_ok hget)
    · cases hb
      rintro _ ⟨⟩
      exact fun n _ => Nat.zero_le n
  | records cursor =>
    simp only [backgroundDelete] at hb
    split at hb
    · cases hb
      rintro _ ⟨⟩
    · split at hb
      · rename_i hnil
        cases hb
        rintro _ ⟨⟩ n (hn : _ ∈ db)
        rcases mem_collectRecords_or hn (hi n hn) with h | ⟨last, h, -⟩
        · rw [getLast?_eq_none_iff.mp hnil] at h
          cases h
        · rw [hnil] at h
          cases h
      · rename_i last hlast
        cases hb
        rintro _ ⟨⟩ n hn
        obtain ⟨hmem, hkeys⟩ := mem_of_mem_applyOps (by simp) hn
        rcases mem_collectRecords_or hmem (hi n hmem) with h | ⟨last', h, hlt⟩
        · exact absurd rfl (hkeys _ (mem_append_left _ (List.mem_map_of_mem h)))
        · rw [hlast] at h
          cases h
          exact hlt
  | producers =>
    simp only [backgroundDelete] at hb
    split at hb
    · rename_i hend
      cases hb
      rintro _ ⟨⟩
      rcases hend with h | h
      · rw [hscan rfl] at h
        cases h
      · exact ⟨hi, noProducers_of_nil h⟩
    · cases hb
      rintro _ ⟨⟩ n hn
      exact hi n (mem_of_mem_applyOps (by simp) hn).1
  | finish =>
    cases hb
    rintro _ ⟨⟩

/-- Only the last phase removes the marker. -/
theorem marker_mem {phase : DeletePhase}
    {next : Option DeletePhase} (hb : backgroundDelete flt scanOk db id phase = (some ops, next))
    (hne : phase ≠ .finish) (hmark : deletePendingKey id ∈ db) : deletePendingKey id ∈ applyOps db ops := by
  rw [mem_iff] at hmark ⊢
  obtain ⟨cursor, last, -, -, -, rfl⟩ | ⟨-, -, rfl⟩ | ⟨hfin, -, -⟩ := backgroundDelete_cases hb
  · refine ⟨last + 1, ?_⟩
    rw [lookup_applyOps, effect_append]
    simp
  · rwa [lookup_applyOps_ne (by simp)]
  · exact absurd hfin hne

namespace Cleanup

/-- The invariant: what the phase at hand may rely on. -/
def Inv (id : Nat) (s : Cleanup) : Prop := ∀ phase, s.phase = some phase → phase.Inv s.db id

theorem inv_step {s s' : Cleanup} {e : Mishap} (h : Inv id s) (hc : ProducersScanned s e)
    (hs : step id s e = some s') : Inv id s' := by
  obtain ⟨phase, hp, rfl⟩ := Option.map_eq_some_iff.mp hs
  have hnext := fun out next => @backgroundDelete_inv e.flt e.scanOk s.db id phase out next (h phase hp)
    fun hph => hc (by rw [hp, hph])
  split
  · exact hnext _ _ ‹_›
  · split
    · exact hnext _ _ ‹_›
    · exact nofun

end Cleanup

/-- **The marker outlives the data.** If no scan of the producers fails and no record lies below the cursor of the
marker, the marker is removed only when neither a record nor a producer is left. -/
theorem marker_outlives_data {db : Store} {id : Nat}
    (hcur : ∀ c, db.lookup (.deletePendingKey id) = some c → RecordsFrom db id c) {s s' : Cleanup} {e : Mishap}
    (hr : Reach (Cleanup.step id) Cleanup.ProducersScanned ⟨db, some .start⟩ s) (hs : s.step id e = some s')
    (hmark : Key.deletePendingKey id ∈ s.db) (hgone : Key.deletePendingKey id ∉ s'.db) :
    NoRecords s.db id ∧ NoProducers s.db id := by
  have hinv : Cleanup.Inv id s := hr.invariant (fun _ _ _ => Cleanup.inv_step) (by rintro _ ⟨⟩; exact hcur)
  obtain ⟨phase, hp, rfl⟩ := Option.map_eq_some_iff.mp hs
  by_cases hfin : phase = .finish
  · subst hfin
    exact hinv _ hp
  · exfalso
    split at hgone
    · exact hgone hmark
    · split at hgone
      · exact hgone (marker_mem ‹_› hfin hmark)
      · exact hgone hmark

/-- A store with the marker of a stream and one of its producers. -/
def pendingStore : Store := applyOps ∅ [Op.put (.deletePendingKey 1) 0, Op.put (.producerKey 1 [97]) ⟨0, 0, false⟩]

/-- The scan of the producers fails, and the marker is cleared all the same. -/
theorem producer_left_behind : ∃ s ∈ run (Cleanup.step 1) ⟨pendingStore, some .start⟩ [{}, {}, { scanOk := false }, {}],
    Key.deletePendingKey 1 ∉ s.db ∧ Key.producerKey 1 [97] ∈ s.db := by
  decide +kernel

theorem marker_outlives_data_sample : ∃ s s', Cleanup.step 1 s {} = some s' ∧ Key.deletePendingKey 1 ∉ s'.db ∧
    NoRecords s.db 1 ∧ NoProducers s.db 1 := by
  obtain ⟨s, hrun, s', hs, hmark, hgone⟩ : ∃ s ∈ run (fun s e => if s.ProducersScanned e then s.step 1 e else none)
      ⟨pendingStore, some .start⟩ [{}, {}, {}, {}], ∃ s' ∈ Cleanup.step 1 s {}, Key.deletePendingKey 1 ∈ s.db ∧
        Key.deletePendingKey 1 ∉ s'.db := by decide +kernel
  refine ⟨s, s', hs, hgone, marker_outlives_data ?_ (reach_guarded hrun) hs hmark hgone⟩
  intro c hc n _
  have h0 : pendingStore.lookup (.deletePendingKey 1) = some 0 := by decide +kernel
  rw [h0] at hc
  cases hc
  exact Nat.zero_le n

end Yasdb
