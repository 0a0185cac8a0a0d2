import Yasdb.StoredLog

/-!
# The outcomes of a burst

A burst is answered at once, when its plan writes nothing, or handed to the committer (`processBurst_cases`). Answers
without a commit stay within the writer view of the streamer (`processBurst_reply`); a commit carries the batch of
the plan (`processBurst_commit`), and its records are those between the old and the new tail
(`processBurst_records`).
-/

namespace Yasdb

open Batch View

/-! ## Answers and the view -/

section Bounds

variable (L : GoLib) (now : Int64)

theorem View.le_after (v : View) (batch : List AppendReq) :
    v.tail ≤ (v.after L now batch).tail ∧ (v.closed = true → (v.after L now batch).closed = true) := by
  induction batch generalizing v with
  | nil => exact ⟨le_refl _, id⟩
  | cons req reqs ih =>
    by_cases ha : v.Accepts L req
    · rw [after_cons_accept ha]
      obtain ⟨h1, h2⟩ := ih (v.apply now req)
      refine ⟨le_trans (Nat.le_add_right _ _) h1, fun hc => h2 ?_⟩
      simp [apply, hc]
    · rw [after_cons_not ha]; exact ih v

theorem View.tail_after (v : View) (batch : List AppendReq) :
    (v.after L now batch).tail = v.tail + ((v.accepted L now batch).flatMap (·.records)).length := by
  have h := ((Applies.nil v).batch batch : Applies L v _ (v.after L now batch)).tail
  rwa [List.nil_append, recordsOf_map] at h

variable {L now}

/-- An answer within a tail and a closure flag. -/
def Within (tail : Nat) (closed : Bool) (resp : AppendResp) : Prop :=
  resp.status = 200 ∨ resp.status = 204 → resp.nextOffset ≤ tailOffset tail ∧ (resp.closed = true → closed = true)

/-- The answers of a batch stay within the view after it. -/
theorem View.Answered.within {v : View} {batch : List AppendReq} {rs : List AppendResp} {as : List Bool}
    (h : Answered L now v batch rs as) :
    ∀ r ∈ rs, Within (v.after L now batch).tail (v.after L now batch).closed r := by
  induction h with
  | nil => exact nofun
  | @accept v req reqs rs as ha _ ih =>
    rw [after_cons_accept ha]
    obtain ⟨h1, h2⟩ := (v.apply now req).le_after L now reqs
    intro r hr
    rcases List.mem_cons.mp hr with rfl | hr
    · exact fun _ => ⟨tailOffset_le.mpr h1, h2⟩
    · exact ih r hr
  | @noop v req reqs resp rs as hn hi _ ih =>
    rw [after_cons_not fun ha => ha.not_isNoop hi]
    obtain ⟨h1, h2⟩ := v.le_after L now reqs
    intro r hr
    rcases List.mem_cons.mp hr with rfl | hr
    · intro _
      cases hn with
      | duplicate => exact ⟨tailOffset_le.mpr h1, h2⟩
      | closed hc => exact ⟨tailOffset_le.mpr h1, fun _ => h2 hc⟩
    · exact ih r hr
  | @reject v req reqs resp rs as hrej ha _ _ ih =>
    rw [after_cons_not ha]
    intro r hr
    rcases List.mem_cons.mp hr with rfl | hr
    · rintro (h | h)
      · exact absurd h hrej.1
      · exact absurd h hrej.2
    · exact ih r hr

end Bounds

/-! ## The two outcomes of a burst -/

section Outcomes

variable (L : GoLib) (flt : Faults) (db : Store) (now : Int64) (s : Streamer) (batch : List AppendReq)

/-- The commit of a planned batch. -/
def commitOf (p : Planned) : CommitBurst where
  pend := p.pend
  ops := burstOps p.st p.pend p.metaChanged
  responses := p.responses
  accepted := p.accepted
  metaChanged := p.metaChanged || deadlineChanged p.st p.pend

/-- **The outcomes of a burst**: answers, when the plan writes nothing, or a commit. -/
theorem processBurst_cases :
    let p := planBatch L flt db s (newPending s now) batch
    (nothing p.st p.pend p.metaChanged = true ∧ processBurst L flt db now s batch = (p.st, .reply p.responses)) ∨
      (nothing p.st p.pend p.metaChanged = false ∧
        processBurst L flt db now s batch = (p.st, .commit (commitOf p))) := by
  intro p
  cases hn : nothing p.st p.pend p.metaChanged with
  | true => left; exact ⟨rfl, if_pos hn⟩
  | false => right; exact ⟨rfl, if_neg (by simp [p, hn])⟩

theorem pend_planBatch :
    (planBatch L flt db s (newPending s now) batch).pend.tail = ((viewOf flt db s).after L now batch).tail ∧
      (planBatch L flt db s (newPending s now) batch).pend.closed = ((viewOf flt db s).after L now batch).closed := by
  have hv := (planBatch_plans L flt db batch s (newPending s now)).view
  rw [pendView_newPending] at hv
  exact ⟨congrArg tail hv, congrArg closed hv⟩

theorem within_planBatch : ∀ r ∈ (planBatch L flt db s (newPending s now) batch).responses,
    Within (planBatch L flt db s (newPending s now) batch).pend.tail
      (planBatch L flt db s (newPending s now) batch).pend.closed r := by
  have ha := (planBatch_plans L flt db batch s (newPending s now)).answered
  rw [pendView_newPending] at ha
  obtain ⟨h1, h2⟩ := pend_planBatch L flt db now s batch
  rw [h1, h2]
  exact ha.within

variable {L flt db now s batch}

variable {s' : Streamer} {c : CommitBurst}

theorem processBurst_reply {responses : List AppendResp}
    (h : processBurst L flt db now s batch = (s', .reply responses)) :
    Loads flt db s s' ∧ ∀ r ∈ responses, Within s.writeTail s.streamMeta.closed r := by
  have hl := (planBatch_plans L flt db batch s (newPending s now)).loads
  have hP := planning_planBatch L flt db now s batch
  have hw := within_planBatch L flt db now s batch
  rcases processBurst_cases L flt db now s batch with ⟨hn, he⟩ | ⟨-, he⟩
  · rw [h] at he
    cases he
    obtain ⟨h1, h2, -⟩ := nothing_iff.mp hn
    rw [hP.tail h1, hP.closed, h2, Bool.or_false, hl.writeTail, hl.streamMeta] at hw
    exact ⟨hl, hw⟩
  · rw [h] at he; cases he

section

variable (h : processBurst L flt db now s batch = (s', .commit c))
include h

theorem processBurst_commit : Loads flt db s s' ∧ s'.streamMeta.closed = false ∧
      ∃ p, p = planBatch L flt db s (newPending s now) batch ∧ p.st = s' ∧ c = commitOf p ∧
        nothing p.st p.pend p.metaChanged = false ∧ Planning now s' p.pend p.metaChanged := by
  have hl := (planBatch_plans L flt db batch s (newPending s now)).loads
  have hP := planning_planBatch L flt db now s batch
  rcases processBurst_cases L flt db now s batch with ⟨-, he⟩ | ⟨hn, he⟩
  · rw [h] at he; cases he
  · rw [h] at he
    cases he
    refine ⟨hl, ?_, _, rfl, rfl, rfl, hn, hP⟩
    by_contra hc
    rw [hP.frozen (by simpa using hc)] at hn
    cases hn

theorem processBurst_accepted :
    c.pend.recordOps = recordOpsFrom s.id s.writeTail (((viewOf flt db s).accepted L now batch).flatMap (·.records)) ∧
      c.pend.tail = s.writeTail + (((viewOf flt db s).accepted L now batch).flatMap (·.records)).length := by
  obtain ⟨-, -, p, rfl, -, rfl, -⟩ := processBurst_commit h
  have hrec := (planBatch_plans L flt db batch s (newPending s now)).recordOps
  rw [pendView_newPending] at hrec
  exact ⟨hrec, (pend_planBatch L flt db now s batch).1.trans (tail_after L now _ batch)⟩

end

theorem accepted_of_reply {responses : List AppendResp}
    (h : processBurst L flt db now s batch = (s', .reply responses)) :
    ((viewOf flt db s).accepted L now batch).flatMap (·.records) = [] := by
  have hrec := (planBatch_plans L flt db batch s (newPending s now)).recordOps
  rw [pendView_newPending] at hrec
  rcases processBurst_cases L flt db now s batch with ⟨hn, -⟩ | ⟨-, he⟩
  · simp only [nothing, Bool.and_eq_true, List.isEmpty_iff] at hn
    rw [hn.1.1.1.1] at hrec
    replace hrec : [] = recordOpsFrom s.id s.writeTail _ := hrec
    cases hr : ((viewOf flt db s).accepted L now batch).flatMap (·.records) with
    | nil => rfl
    | cons r recs =>
      rw [show (newPending s now).now = now from rfl, hr] at hrec
      cases hrec
  · rw [h] at he
    cases he

theorem processBurst_records (h : processBurst L flt db now s batch = (s', .commit c)) :
    ∃ recs, c.pend.recordOps = recordOpsFrom s.id s.writeTail recs ∧ c.pend.tail = s.writeTail + recs.length :=
  ⟨_, processBurst_accepted h⟩

end Outcomes

end Yasdb
