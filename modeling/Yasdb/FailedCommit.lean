import Yasdb.Sequence

/-!
# Answers of a burst whose commit fails

`failAccepted` rewrites the answers of the accepted appends only. An append that was answered as a no-op keeps an answer
computed over the pending effects of the accepted appends before it. It describes the committed state exactly when none
of those appends disturbs it (`failed_commit_sound_iff`); an append and its retry in one batch are a case where it does
not (`failed_commit_acks_lost_append`).
-/

namespace Yasdb

open Batch List View Function

/-- A 2xx answer describes the state `v`: its offset lies within the tail, its closure flag is that of the stream,
and a duplicate answer names appends that `v` stands for. -/
structure DescribesState (v : View) (req : AppendReq) (resp : AppendResp) : Prop where
  nextOffset : resp.nextOffset ≤ tailOffset v.tail
  closed : resp.closed = v.closed
  duplicate : ∀ h e n, req.producer = some h → resp.producerEpoch = some e → resp.producerSeq = some n →
    Covers (v.producers h.id) e n ∧ Covers (v.producers h.id) h.epoch h.seq

/-- An answer is sound for the state `v`. -/
def SoundAck (v : View) (req : AppendReq) (resp : AppendResp) : Prop :=
  resp.status = 200 ∨ resp.status = 204 → DescribesState v req resp

/-- The accepted append `a` changes what a no-op answer to `req` says: it appended records, closed the stream, or
moved the same producer. -/
def Disturbs (a req : AppendReq) : Prop :=
  a.records ≠ [] ∨ a.closeStream = true ∨ ∃ h h', a.producer = some h ∧ req.producer = some h' ∧ h.id = h'.id

/-- No append of the batch that is answered as a no-op follows an accepted append that disturbs it. -/
def Undisturbed (L : GoLib) (now : Int64) (v : View) (batch : List AppendReq) : Prop :=
  ∀ pre req post, batch = pre ++ req :: post → (v.after L now pre).IsNoop L req →
    ∀ a ∈ v.accepted L now pre, ¬ Disturbs a req

/-! ## A view and the accepted appends that led to it -/

/-- An append of `A` moved the producer `pid`. -/
def Touched (A : List AppendReq) (pid : Bytes) : Prop := ∃ a ∈ A, ∃ h, a.producer = some h ∧ h.id = pid

/-- `v` differs from `v₀` by the accepted appends `A`. -/
structure Moved (v₀ : View) (A : List AppendReq) (v : View) : Prop where
  tail : v.tail = v₀.tail + (A.flatMap (·.records)).length
  closed : v.closed = (v₀.closed || A.any (·.closeStream))
  opened : A ≠ [] → v₀.closed = false
  touched : ∀ pid, Touched A pid → ∃ p, v.producers pid = some p ∧ Newer (v₀.producers pid) p.epoch p.lastSeq
  untouched : ∀ pid, ¬ Touched A pid → v.producers pid = v₀.producers pid

theorem moved_refl (v : View) : Moved v [] v :=
  ⟨by simp, by simp, fun h => absurd rfl h, fun _ ⟨_, h, _⟩ => (by cases h), fun _ _ => rfl⟩

variable {A : List AppendReq} {req : AppendReq} {v v₀ : View}

theorem touched_snoc {pid : Bytes} :
    Touched (A ++ [req]) pid ↔ Touched A pid ∨ ∃ h, req.producer = some h ∧ h.id = pid := by
  simp only [Touched, mem_append, mem_singleton, or_and_right, exists_or, exists_eq_left]

/-- One more accepted append. -/
theorem Moved.accept {L : GoLib} (hm : Moved v₀ A v) (ha : v.Accepts L req) (now : Int64) :
    Moved v₀ (A ++ [req]) (v.apply now req) := by
  have hnew : ∀ h, req.producer = some h → Newer (v₀.producers h.id) h.epoch h.seq := by
    intro h hp
    have hf := (ha.producer h hp).newer
    by_cases ht : Touched A h.id
    · obtain ⟨p, hvp, hn⟩ := hm.touched _ ht
      exact hn.trans (hvp ▸ hf)
    · exact hm.untouched _ ht ▸ hf
  refine ⟨?_, ?_, fun _ => ?_, fun pid ht => ?_, fun pid ht => ?_⟩
  · simp [apply, hm.tail, Nat.add_assoc]
  · simp [apply, hm.closed, Bool.or_assoc]
  · have := hm.closed.symm.trans ha.opened
    exact (Bool.or_eq_false_iff.mp this).1
  · simp only [apply]
    cases hp : req.producer with
    | none =>
      rw [touched_snoc, hp] at ht
      exact hm.touched pid (ht.resolve_right (by rintro ⟨_, h, _⟩; cases h))
    | some h =>
      by_cases hid : pid = h.id
      · subst hid
        exact ⟨_, update_self .., hnew h hp⟩
      · rw [touched_snoc, hp] at ht
        obtain ⟨p, hvp, hn⟩ := hm.touched pid (ht.resolve_right (by rintro ⟨_, h', he⟩; cases h'; exact hid he.symm))
        exact ⟨p, by dsimp only; rw [update_of_ne hid]; exact hvp, hn⟩
  · rw [touched_snoc, not_or] at ht
    simp only [apply]
    cases hp : req.producer with
    | none => exact hm.untouched pid ht.1
    | some h =>
      have hid : pid ≠ h.id := fun he => ht.2 ⟨h, hp, he.symm⟩
      dsimp only
      rw [update_of_ne hid]
      exact hm.untouched pid ht.1

/-! ## One answer -/

/-- A no-op answer over `v` is sound for `v₀` exactly when no append between them disturbs it. -/
theorem Moved.sound_noop {resp : AppendResp} (hm : Moved v₀ A v) (hn : v.Noop req resp) :
    SoundAck v₀ req resp ↔ ∀ a ∈ A, ¬ Disturbs a req := by
  constructor
  · intro hs a haA hd
    have hopen : v₀.closed = false := hm.opened (ne_nil_of_mem haA)
    -- the offset and the closure flag of the answer are those of `v`
    have hdesc : DescribesState v₀ req resp := by cases hn <;> exact hs (.inr rfl)
    have htail : v.tail ≤ v₀.tail := by cases hn <;> exact tailOffset_le.mp hdesc.nextOffset
    have hclosed : v.closed = false := by
      cases hn with
      | duplicate => exact hdesc.closed.trans hopen
      | closed => exact absurd (hdesc.closed.trans hopen) (by simp)
    rcases hd with hr | hc | ⟨h, h', hp, hp', hid⟩
    · have : 0 < (A.flatMap (·.records)).length := by
        rw [length_pos_iff, Ne, flatMap_eq_nil_iff]
        exact fun hall => hr (hall a haA)
      have := hm.tail
      omega
    · rw [hm.closed, hopen, Bool.false_or] at hclosed
      have := List.any_eq_false.mp hclosed a haA
      exact this hc
    · obtain ⟨p, hvp, hnew⟩ := hm.touched h.id ⟨a, haA, h, hp, rfl⟩
      cases hn with
      | duplicate hh q hq hv hc =>
        rw [hp'] at hq
        cases hq
        rw [hid, hv] at hvp
        cases hvp
        exact hnew.not_covers (hid ▸ (hdesc.duplicate h' p.epoch p.lastSeq hp' rfl rfl).1)
      | closed hc hb => rw [hclosed] at hc; cases hc
  · intro hu _
    have hrec : A.flatMap (·.records) = [] :=
      flatMap_eq_nil_iff.mpr fun a ha => by_contra fun hr => hu a ha (.inl hr)
    have htail : v.tail = v₀.tail := by rw [hm.tail, hrec]; rfl
    have hany : A.any (·.closeStream) = false :=
      List.any_eq_false.mpr fun a ha hc => hu a ha (.inr (.inl hc))
    have hclosed : v.closed = v₀.closed := by rw [hm.closed, hany, Bool.or_false]
    cases hn with
    | duplicate h p hp hv hc =>
      have hut : ¬ Touched A h.id := by
        rintro ⟨a, ha, h', hp', hid⟩
        exact hu a ha (.inr (.inr ⟨h', h, hp', hp, hid⟩))
      refine ⟨tailOffset_le.mpr htail.le, hclosed, fun h' e n hp' he hn => ?_⟩
      rw [hp] at hp'
      cases hp'
      cases he
      cases hn
      rw [← hm.untouched _ hut, hv]
      exact ⟨⟨p, rfl, rfl, le_refl _⟩, hc⟩
    | closed hc hb => exact ⟨tailOffset_le.mpr htail.le, hc.symm.trans hclosed, nofun⟩

/-! ## The whole batch -/

theorem forall_position_cons {α : Type*} {P : List α → α → Prop} {x : α} {xs : List α} :
    (∀ pre y post, x :: xs = pre ++ y :: post → P pre y) ↔
      P [] x ∧ ∀ pre y post, xs = pre ++ y :: post → P (x :: pre) y := by
  constructor
  · intro h
    exact ⟨h [] x xs rfl, fun pre y post he => h (x :: pre) y post (by rw [he]; rfl)⟩
  · rintro ⟨h0, h⟩ pre y post he
    cases pre with
    | nil => cases he; exact h0
    | cons z pre =>
      rw [cons_append, List.cons.injEq] at he
      obtain ⟨rfl, he⟩ := he
      exact h pre y post he

/-- The answers after a failed commit, from any accepted appends on. -/
theorem sound_failAccepted {L : GoLib} {now : Int64} {batch : List AppendReq} {rs : List AppendResp} {as : List Bool}
    (h : View.Answered L now v batch rs as) (err : String) (hm : Moved v₀ A v) :
    (∀ x ∈ batch.zip (failAccepted rs as err), SoundAck v₀ x.1 x.2) ↔
      ∀ pre req post, batch = pre ++ req :: post → (v.after L now pre).IsNoop L req →
        ∀ a ∈ A ++ v.accepted L now pre, ¬ Disturbs a req := by
  induction h generalizing A with
  | nil v => simp [failAccepted]
  | @accept v req reqs rs as ha h ih =>
    rw [forall_position_cons, failAccepted, zipWith_cons_cons, zip_cons_cons, forall_mem_cons]
    refine and_congr ?_ ((ih (hm.accept ha now)).trans ?_)
    · -- the answer of the accepted append itself is rewritten to 500
      simp [SoundAck, View.after, ha.not_isNoop]
    · simp only [View.after_cons_accept ha, View.accepted_cons_accept ha, append_assoc, singleton_append]
  | @noop v req reqs resp rs as hn hi h ih =>
    have ha : ¬ v.Accepts L req := fun ha => ha.not_isNoop hi
    rw [forall_position_cons, failAccepted, zipWith_cons_cons, zip_cons_cons, forall_mem_cons]
    refine and_congr ?_ ((ih hm).trans ?_)
    · simpa [View.after, View.accepted, hi] using hm.sound_noop hn
    · simp only [View.after_cons_not ha, View.accepted_cons_not ha]
  | @reject v req reqs resp rs as hr ha hi h ih =>
    rw [forall_position_cons, failAccepted, zipWith_cons_cons, zip_cons_cons, forall_mem_cons]
    refine and_congr ?_ ((ih hm).trans ?_)
    · simp [SoundAck, View.after, hi, hr.1, hr.2]
    · simp only [after_cons_not ha, accepted_cons_not ha]

/-- **Answers after a failed commit.** The 2xx answers of a burst whose commit fails describe the unchanged committed
state exactly when no append answered as a no-op follows an accepted append of the same batch that disturbs it. -/
theorem failed_commit_sound_iff (L : GoLib) (now : Int64) (err : String) (db : Store) (s s' : Streamer)
    (batch : List AppendReq) (c : CommitBurst) (hc : processBurst L noFaults db now s batch = (s', .commit c)) :
    (∀ x ∈ batch.zip (syncBurst L noFaults now (some err) (db, s) batch).2,
        SoundAck (viewOf noFaults db s) x.1 x.2) ↔
      Undisturbed L now (viewOf noFaults db s) batch := by
  have hp := (planBatch_plans L noFaults db batch s (newPending s now)).answered
  rw [pendView_newPending] at hp
  have hr : (syncBurst L noFaults now (some err) (db, s) batch).2 = failAccepted c.responses c.accepted err := by
    unfold syncBurst
    rw [hc]
    rfl
  have hca : c.responses = (planBatch L noFaults db s (newPending s now) batch).responses ∧
      c.accepted = (planBatch L noFaults db s (newPending s now) batch).accepted := by
    unfold processBurst at hc
    dsimp only at hc
    split at hc
    · cases hc
    · cases hc; exact ⟨rfl, rfl⟩
  rw [hr, hca.1, hca.2]
  exact sound_failAccepted hp err (moved_refl _)

/-! ## A lost append acknowledged by its own retry -/

/-- A stream with an empty log. -/
def freshStreamer : Streamer := newStreamer samplePath sampleMeta 0

/-- The stream after its first append. -/
def appendedOnce : Store × Streamer := (syncBurst plainLib noFaults 0 none (∅, freshStreamer) [producerAppend 0 0]).1

/-- The retry of a stored append, and the next append: the retry keeps its 204, and the other answer becomes 500. -/
theorem failed_commit_sound_retry :
    (syncBurst plainLib noFaults 0 (some errStoreClosed) appendedOnce [producerAppend 0 0, producerAppend 0 1]).2.map
      (·.status) = [204, 500] ∧
    ∀ x ∈ [producerAppend 0 0, producerAppend 0 1].zip (syncBurst plainLib noFaults 0 (some errStoreClosed) appendedOnce
        [producerAppend 0 0, producerAppend 0 1]).2,
      SoundAck (viewOf noFaults appendedOnce.1 appendedOnce.2) x.1 x.2 := by
  refine ⟨by decide, (failed_commit_sound_iff plainLib 0 errStoreClosed appendedOnce.1 appendedOnce.2 _
    [producerAppend 0 0, producerAppend 0 1] _ rfl).mpr ?_⟩
  have hnone : (viewOf noFaults appendedOnce.1 appendedOnce.2).accepted plainLib 0 [producerAppend 0 0] = [] := by
    decide
  refine forall_position_cons.mpr ⟨fun _ => nofun, forall_position_cons.mpr ⟨fun _ => ?_, fun pre _ _ h => ?_⟩⟩
  · rw [hnone]
    nofun
  · cases pre <;> cases h

/-- An append and its retry in one batch whose commit fails: the retry is answered 204 as a duplicate, at an offset
past the committed tail. -/
theorem failed_commit_acks_lost_append :
    ¬ ∀ (L : GoLib) (now : Int64) (err : String) (db : Store) (s s' : Streamer) (batch : List AppendReq)
      (c : CommitBurst), processBurst L noFaults db now s batch = (s', .commit c) →
      ∀ x ∈ batch.zip (syncBurst L noFaults now (some err) (db, s) batch).2,
        SoundAck (viewOf noFaults db s) x.1 x.2 := by
  intro h
  have hs := h plainLib 0 errStoreClosed ∅ freshStreamer _ [producerAppend 0 0, producerAppend 0 0] _ rfl
    (producerAppend 0 0, { status := 204, nextOffset := tailOffset 1, producerEpoch := some 0, producerSeq := some 0 })
    (by decide)
  exact absurd (hs (.inr rfl)).nextOffset (by decide)

end Yasdb
