import Yasdb.Notifier.Model
import Yasdb.Outcome
import Yasdb.Lib.Chain

/-!
# Planned jobs

What a job carries, read off the plan of its burst (`JobOk`): its records are those of its stream from its base up to
its target tail, and its 2xx answers stay within the target that its callback publishes.
-/

namespace Yasdb

open Batch List

namespace Notifier

/-! ## Jobs -/

/-- A job of the stream `id`. -/
structure JobOk (id : Nat) (j : CommitJob) : Prop where
  le : j.baseSeq ≤ j.targetTail
  records : ∀ op ∈ j.c.ops, ∀ i n, op.key = .recordKey i n → i = id ∧ j.baseSeq ≤ n ∧ n < j.targetTail
  covers : ∀ n, j.baseSeq ≤ n → n < j.targetTail → ∃ op ∈ j.c.ops, op.key = .recordKey id n
  answers : ∀ r ∈ j.c.responses, Within j.targetTail j.targetClosed r

theorem mem_recordOpsFrom {id : Nat} {op : Op} : ∀ {start : Nat} {recs : List Bytes},
    op ∈ recordOpsFrom id start recs → ∃ n, op.key = .recordKey id n ∧ start ≤ n ∧ n < start + recs.length
  | _, [], h => by cases h
  | start, r :: recs, h => by
    rcases mem_cons.mp h with rfl | h
    · exact ⟨start, rfl, le_refl _, by simp⟩
    · obtain ⟨n, hk, h1, h2⟩ := mem_recordOpsFrom h
      exact ⟨n, hk, by omega, by rw [length_cons]; omega⟩

theorem recordOpsFrom_covers (id n : Nat) : ∀ (start : Nat) (recs : List Bytes), start ≤ n →
    n < start + recs.length → ∃ op ∈ recordOpsFrom id start recs, op.key = .recordKey id n
  | start, [], h1, h2 => by rw [length_nil] at h2; omega
  | start, r :: recs, h1, h2 => by
    by_cases h : n = start
    · subst h; exact ⟨_, mem_cons_self, rfl⟩
    · obtain ⟨op, ho, hk⟩ := recordOpsFrom_covers id n (start + 1) recs (by omega)
        (by rw [length_cons] at h2; omega)
      exact ⟨op, mem_cons_of_mem _ ho, hk⟩

theorem mem_burstOps_record {s : Streamer} {pend : PendingBurst} {mc : Bool} {op : Op} {i n : Nat}
    (ho : op ∈ burstOps s pend mc) (hk : op.key = .recordKey i n) : op ∈ pend.recordOps := by
  have hne : ∀ t, op.key.keyType = t → t = 4 := fun t ht => by rw [← ht, hk]; rfl
  unfold burstOps at ho
  simp only [mem_append] at ho
  rcases ho with ((((ho | ho) | ho) | ho) | ho) | ho
  · exact ho
  · exact absurd (hne _ (tailOps_keyType s pend op ho)) (by decide)
  · exact absurd (hne _ (producerOps_keyType s pend op ho)) (by decide)
  · exact absurd (hne _ (writerSeqOps_keyType s pend op ho)) (by decide)
  · exact absurd (hne _ (expiryOps_keyType s pend op ho)) (by decide)
  · exact absurd (hne _ (metaOps_keyType s pend mc op ho)) (by decide)

theorem recordOps_subset_burstOps (s : Streamer) (pend : PendingBurst) (mc : Bool) :
    pend.recordOps ⊆ burstOps s pend mc := fun op ho => by
  simp [burstOps, ho]

/-- **What a planned job carries.** -/
theorem newJob_ok {L : GoLib} {flt : Faults} {db : Store} {now : Int64} {s s' : Streamer} {batch : List AppendReq}
    {c : CommitBurst} (h : processBurst L flt db now s batch = (s', .commit c)) (i : Nat) :
    JobOk s.id (newJob i now s batch c) := by
  obtain ⟨hl, hopen, p, hp, hst, rfl, hn, hP⟩ := processBurst_commit h
  have hplan := planBatch_plans L flt db batch s (newPending s now)
  have hw := within_planBatch L flt db now s batch
  obtain ⟨htail, -⟩ := pend_planBatch L flt db now s batch
  have hrec := hplan.recordOps
  rw [pendView_newPending] at hrec
  rw [← hp] at htail hrec hw
  rw [View.tail_after] at htail
  change p.pend.recordOps = recordOpsFrom s.id s.writeTail
    (((viewOf flt db s).accepted L now batch).flatMap (·.records)) at hrec
  change p.pend.tail = s.writeTail + (((viewOf flt db s).accepted L now batch).flatMap (·.records)).length at htail
  refine ⟨?_, fun op ho i n hk => ?_, fun n h1 h2 => ?_, fun r hr => ?_⟩
  · show s.writeTail ≤ p.pend.tail
    omega
  · have ho := mem_burstOps_record ho hk
    rw [hrec] at ho
    obtain ⟨n', hk', h1, h2⟩ := mem_recordOpsFrom ho
    rw [hk] at hk'
    cases hk'
    exact ⟨rfl, h1, by show n < p.pend.tail; omega⟩
  · change n < p.pend.tail at h2
    obtain ⟨op, ho, hk⟩ := recordOpsFrom_covers s.id n _ _ h1 (htail ▸ h2)
    exact ⟨op, recordOps_subset_burstOps _ _ _ (hrec ▸ ho), hk⟩
  · -- a closed answer of a burst on an open stream comes from a close of the burst
    have hcl : p.pend.closed = p.metaChanged := by rw [hP.closed, hopen, Bool.false_or]
    have ht : (newJob i now s batch (commitOf p)).targetClosed = p.pend.closed := by
      show ((p.metaChanged || _) && p.pend.closed) = p.pend.closed
      rw [hcl]
      cases p.metaChanged <;> simp
    rw [ht]
    exact hw r hr

end Notifier

end Yasdb
