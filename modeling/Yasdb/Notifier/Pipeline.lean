import Yasdb.Notifier.Model

/-!
# Steps and the line of jobs

`Steps` lists every step of the system with its guard and its result, and `steps_of_step` inverts the step function
into it. All jobs on their way to publication form one line, oldest first (`World.pipeline`): queueing a job appends
to it (`enqueueStep_eq`), a commit and a firing leave it (`pipeline_commitStep`, `waiting_fireStep`), and no step
brings in a job other than one that a streamer has just planned (`mem_pipeline_of_step`).
-/

namespace Yasdb.Notifier

open Batch List World Function

variable {batchMax : Nat} {w' : World} {j : CommitJob}
  {L : GoLib} {e : Event} {seq i k : Nat} {waiters : List DurWaiter} {jobs : List CommitJob}

/-! ## What a step can do -/

/-- Every step of the system, with its guard and its result. -/
inductive Steps (L : GoLib) (batchMax : Nat) (w : World) : Event → World → Prop
  | plan {i : Nat} {sl : Slot} (now : Int64) (flt : Faults) (batch : List AppendReq) (hs : w.slots i = some sl)
      (hh : sl.hand = none) : Steps L batchMax w (.plan i now flt batch) (planStep L w i sl now flt batch)
  | enqueue {i : Nat} {sl : Slot} {j : CommitJob} (hs : w.slots i = some sl) (hj : sl.hand = some j) :
      Steps L batchMax w (.enqueue i) (enqueueStep batchMax (w.setSlot i { sl with hand := none }) j)
  | commitOk {seq : Nat} {jobs : List CommitJob} (hf : w.flush = .committing jobs) (hseq : w.lastSeq < seq) :
      Steps L batchMax w (.commitOk seq) (commitStep w seq jobs)
  | commitFail {err : String} {jobs : List CommitJob} (hf : w.flush = .committing jobs) :
      Steps L batchMax w (.commitFail err) (commitFailStep w err jobs)
  | subscribe {seq : Nat} {j : CommitJob} {js : List CommitJob} (hf : w.flush = .subscribing seq (j :: js))
      (ho : w.notifierClosed = false) :
      Steps L batchMax w .subscribe
        { w with flush := .subscribing seq js, waiters := insertWaiter seq j w.waiters }
  | subscribeClosed {seq : Nat} {j : CommitJob} {js : List CommitJob} (hf : w.flush = .subscribing seq (j :: js))
      (hc : w.notifierClosed = true) :
      Steps L batchMax w .subscribe (failJob { w with flush := .subscribing seq js } errStoreClosed j)
  | failNext {err : String} {j : CommitJob} {js : List CommitJob} (hf : w.flush = .failing err (j :: js)) :
      Steps L batchMax w .failNext (failJob { w with flush := .failing err js } err j)
  | loop (hj : w.flush.jobs = []) (hs : w.flush.subs = []) (hd : w.flush.failed = []) :
      Steps L batchMax w .loop (loopStep batchMax w)
  | persist {seq : Nat} (hle : w.durable ≤ seq) : Steps L batchMax w (.persist seq) { w with durable := seq }
  | poll {seq : Nat} (hp : w.poller = .idle) (hle : seq ≤ w.durable) :
      Steps L batchMax w (.poll seq) { w with poller := .polled seq }
  | fire {d : Nat} (hp : w.poller = .polled d) : Steps L batchMax w .fire (fireStep w d)
  | callback {t : Nat} {j : CommitJob} {ws : List DurWaiter} (hp : w.poller = .calling none ((t, j) :: ws)) :
      Steps L batchMax w .callback (completeJob { w with poller := .calling none ws } j)
  | callbackErr {err : String} {t : Nat} {j : CommitJob} {ws : List DurWaiter}
      (hp : w.poller = .calling (some err) ((t, j) :: ws)) :
      Steps L batchMax w .callback (failJob { w with poller := .calling (some err) ws } err j)
  | pollDone (hr : w.poller.ready = []) (hd : w.poller.failed = []) :
      Steps L batchMax w .pollDone { w with poller := .idle }
  | closeNotifier {err : String} (hp : w.poller = .idle) (ho : w.notifierClosed = false) :
      Steps L batchMax w (.closeNotifier err)
        { w with notifierClosed := true, waiters := [], poller := .calling (some err) w.waiters }
  | closeCommitter (ho : w.committerClosed = false) :
      Steps L batchMax w .closeCommitter { w with committerClosed := true, stray := w.pending, pending := [] }
  | failStray {j : CommitJob} {js : List CommitJob} (hst : w.stray = j :: js) :
      Steps L batchMax w .failStray (failJob { w with stray := js } errStoreClosed j)
  | respawn {i : Nat} {sl : Slot} {m : StreamMeta} (hs : w.slots i = some sl) (hh : sl.hand = none)
      (hn : w.noneOutstanding i = true) (hm : w.db.metaAt sl.st.path = some m) :
      Steps L batchMax w (.respawn i)
        (w.setSlot i { sl with st := newStreamer sl.st.path m (loadTailSeq w.db m.streamID), stale := false })

/-- **Inversion of a step.** -/
theorem steps_of_step {w : World} (he : step L batchMax w e = some w') : Steps L batchMax w e w' := by
  -- every event stands in one state of the flush loop or of the poller
  cases e with
    (simp only [step] at he; split at he <;> try cases he)
  | plan i now flt batch =>
    split at he
    · cases he
    · rename_i hh
      cases he
      exact .plan now flt batch ‹_› (by simpa using hh)
  | enqueue i =>
    obtain ⟨j, hj, rfl⟩ := Option.map_eq_some_iff.mp he
    exact .enqueue ‹_› hj
  | commitOk seq =>
    split at he
    · cases he
      exact .commitOk ‹_› ‹_›
    · cases he
  | commitFail err => exact .commitFail ‹_›
  | subscribe =>
    split at he
    · cases he
      exact .subscribeClosed ‹_› ‹_›
    · rename_i ho
      cases he
      exact .subscribe ‹_› (by simpa using ho)
  | failNext => exact .failNext ‹_›
  | loop =>
    rename_i hf
    exact .loop (by rw [hf]; rfl) (by rw [hf]; rfl) (by rw [hf]; rfl)
  | persist seq => exact .persist ‹_›
  | poll seq =>
    split at he
    · cases he
    · rename_i hp hg
      cases he
      exact .poll hp (not_lt.mp fun hlt => hg (Or.inr hlt))
  | fire => exact .fire ‹_›
  | callback =>
    first
    | exact .callback ‹_›
    | exact .callbackErr ‹_›
  | pollDone =>
    rename_i err hp
    exact .pollDone (by rw [hp]; cases err <;> rfl) (by rw [hp]; cases err <;> rfl)
  | closeNotifier err =>
    split at he
    · cases he
    · rename_i ho
      cases he
      exact .closeNotifier ‹_› (by simpa using ho)
  | closeCommitter => rename_i ho; exact .closeCommitter (by simpa using ho)
  | failStray => exact .failStray ‹_›
  | respawn i =>
    split at he
    · cases he
    · rename_i hs hg
      obtain ⟨m, hm, rfl⟩ := Option.map_eq_some_iff.mp he
      rw [Bool.or_eq_true, not_or] at hg
      exact .respawn hs (by simpa using hg.1) (by simpa using hg.2) hm

/-! ## Moving jobs along the line -/

section Pipeline

variable {w : World}

theorem insertWaiter_of_le (h : ∀ x ∈ waiters, x.1 ≤ seq) (j : CommitJob) :
    insertWaiter seq j waiters = waiters ++ [(seq, j)] := by
  induction waiters with
  | nil => rfl
  | cons x xs ih =>
    have hx : x.1 ≤ seq := h x mem_cons_self
    have ih := ih fun y hy => h y (mem_cons_of_mem _ hy)
    unfold insertWaiter at ih ⊢
    rw [takeWhile_cons_of_pos (by simpa using hx), dropWhile_cons_of_pos (by simpa using hx),
      cons_append, ih, cons_append]

theorem waiting_commitStep (hf : w.flush = .committing jobs) (seq : Nat) :
    (commitStep w seq jobs).waiting = w.waiting ++ jobs.map (seq, ·) := by
  have hs : w.flush.subs = [] := by rw [hf]; rfl
  unfold waiting
  rw [hs, append_nil]
  rfl

theorem pipeline_commitStep (hf : w.flush = .committing jobs) (seq : Nat) :
    (commitStep w seq jobs).pipeline = w.pipeline := by
  have hq : w.queued = jobs ++ w.pending := by unfold queued; rw [hf]; rfl
  unfold pipeline
  rw [waiting_commitStep hf, hq, map_append, List.map_map, append_assoc]
  simp [comp_def, queued, commitStep, Flush.jobs]

theorem waiting_requeue {f : Flush} (p : List CommitJob) (hs : f.subs = w.flush.subs) :
    waiting { w with flush := f, pending := p } = w.waiting := by
  unfold waiting
  rw [hs]

theorem enqueueStep_eq {batchMax : Nat} (hc : w.committerClosed = false) (j : CommitJob) :
    ∃ f p, enqueueStep batchMax w j = { w with flush := f, pending := p } ∧ f.subs = w.flush.subs ∧
      f.failed = w.flush.failed ∧ f.jobs ++ p = w.queued ++ [j] := by
  unfold enqueueStep queued
  rw [if_neg (by simp [hc])]
  split
  · rename_i hf
    refine ⟨_, _, rfl, by rw [hf]; rfl, by rw [hf]; rfl, ?_⟩
    rw [hf]
    exact take_append_drop _ _
  · exact ⟨_, _, rfl, rfl, rfl, (append_assoc _ _ _).symm⟩

theorem loopStep_eq {batchMax : Nat} (hj : w.flush.jobs = []) (hs : w.flush.subs = []) :
    ∃ f p, loopStep batchMax w = { w with flush := f, pending := p } ∧ f.subs = w.flush.subs ∧ f.failed = [] ∧
      f.jobs ++ p = w.queued := by
  unfold loopStep queued
  rw [hs, hj]
  split
  · exact ⟨_, w.pending, rfl, rfl, rfl, rfl⟩
  · exact ⟨_, _, rfl, rfl, rfl, take_append_drop _ _⟩

theorem waiting_fireStep {d : Nat} (hp : w.poller = .polled d) : (fireStep w d).waiting = w.waiting := by
  have hr : w.poller.ready = [] := by rw [hp]; rfl
  unfold waiting
  rw [hr]
  simp [fireStep, Poller.ready]

end Pipeline

/-! ## Slots -/

theorem setSlot_self (w : World) (i : Nat) (sl : Slot) : (w.setSlot i sl).slots i = some sl :=
  update_self ..

theorem setSlot_of_ne (w : World) (sl : Slot) (h : k ≠ i) : (w.setSlot i sl).slots k = w.slots k :=
  update_of_ne h ..

theorem setSlot_cases {w : World} {sl sl' : Slot} (h : (w.setSlot i sl).slots k = some sl') :
    (k = i ∧ sl' = sl) ∨ (k ≠ i ∧ w.slots k = some sl') := by
  by_cases hk : k = i
  · subst hk
    rw [setSlot_self, Option.some.injEq] at h
    exact Or.inl ⟨rfl, h.symm⟩
  · rw [setSlot_of_ne w sl hk] at h
    exact Or.inr ⟨hk, h⟩

theorem reply_eq (w : World) (i : Nat) (rs : List AppendResp) : ∃ l, w.reply i rs = { w with sent := l } := by
  unfold reply
  split
  · exact ⟨_, rfl⟩
  · exact ⟨w.sent, rfl⟩

theorem failJob_eq (w : World) (err : String) (j : CommitJob) : ∃ l, w.failJob err j = { w with sent := l } :=
  reply_eq w _ _

theorem slots_failJob (w : World) (err : String) (j : CommitJob) : (w.failJob err j).slots = w.slots := by
  obtain ⟨l, he⟩ := failJob_eq w err j
  rw [he]

theorem slots_enqueueStep (batchMax : Nat) (w : World) (j : CommitJob) :
    (enqueueStep batchMax w j).slots = w.slots := by
  unfold enqueueStep
  split
  · exact slots_failJob _ _ _
  · split <;> rfl

theorem slots_loopStep (batchMax : Nat) (w : World) : (loopStep batchMax w).slots = w.slots := by
  unfold loopStep
  split <;> rfl

/-! ## Where the jobs of the line come from -/

theorem mem_insertWaiter {x : DurWaiter} : x ∈ insertWaiter seq j waiters ↔ x ∈ waiters ∨ x = (seq, j) := by
  unfold insertWaiter
  rw [mem_append, mem_cons, or_left_comm, ← mem_append, takeWhile_append_dropWhile, or_comm]

theorem mem_pipeline {w : World} :
    j ∈ w.pipeline ↔ (∃ t, (t, j) ∈ w.poller.ready) ∨ (∃ t, (t, j) ∈ w.waiters) ∨ (∃ t, (t, j) ∈ w.flush.subs) ∨
      j ∈ w.flush.jobs ∨ j ∈ w.pending := by
  simp only [pipeline, waiting, queued, mem_append, List.mem_map, Prod.exists, exists_eq_right, exists_or, or_assoc]

theorem pipeline_reply (w : World) (i : Nat) (rs : List AppendResp) : (w.reply i rs).pipeline = w.pipeline := by
  obtain ⟨l, he⟩ := reply_eq w i rs
  rw [he]; rfl

theorem pipeline_failJob (w : World) (err : String) (j : CommitJob) : (w.failJob err j).pipeline = w.pipeline :=
  pipeline_reply w _ _

theorem pipeline_completeJob (w : World) (j : CommitJob) : (w.completeJob j).pipeline = w.pipeline := by
  unfold completeJob
  split
  · exact pipeline_reply _ _ _
  · rfl

theorem mem_pipeline_mono {w : World} (h : j ∈ w'.pipeline)
    (hr : w'.poller.ready ⊆ w.poller.ready) (hw : w'.waiters ⊆ w.waiters) (hs : w'.flush.subs ⊆ w.flush.subs)
    (hj : w'.flush.jobs ⊆ w.flush.jobs) (hp : w'.pending ⊆ w.pending) : j ∈ w.pipeline := by
  rw [mem_pipeline] at h ⊢
  rcases h with ⟨t, h⟩ | ⟨t, h⟩ | ⟨t, h⟩ | h | h
  · exact Or.inl ⟨t, hr h⟩
  · exact Or.inr (Or.inl ⟨t, hw h⟩)
  · exact Or.inr (Or.inr (Or.inl ⟨t, hs h⟩))
  · exact Or.inr (Or.inr (Or.inr (Or.inl (hj h))))
  · exact Or.inr (Or.inr (Or.inr (Or.inr (hp h))))

/-- **The line only takes in planned jobs.** -/
theorem mem_pipeline_of_step {w : World} (h : Steps L batchMax w e w') (hj : j ∈ w'.pipeline) :
    j ∈ w.pipeline ∨ ∃ i sl, w.slots i = some sl ∧ sl.hand = some j := by
  cases h with
  | plan now flt batch hs hh =>
    unfold planStep at hj
    split at hj
    · rw [pipeline_reply] at hj; exact Or.inl hj
    · exact Or.inl hj
  | @enqueue i sl j' hs hj' =>
    cases hc : w.committerClosed with
    | true =>
      unfold enqueueStep at hj
      rw [if_pos (show (w.setSlot i _).committerClosed = true from hc), pipeline_failJob] at hj
      exact Or.inl hj
    | false =>
      obtain ⟨f, p, he, hsub, -, hq⟩ := @enqueueStep_eq (w.setSlot i { sl with hand := none }) batchMax hc j'
      rw [he] at hj
      unfold pipeline at hj
      rw [@waiting_requeue (w.setSlot i { sl with hand := none }) f p hsub,
        show queued { w.setSlot i { sl with hand := none } with flush := f, pending := p } = _ from hq,
        ← append_assoc] at hj
      rcases mem_append.mp hj with hj | hj
      · exact Or.inl hj
      · rw [mem_singleton.mp hj]; exact Or.inr ⟨i, sl, hs, hj'⟩
  | commitOk hf _ => exact Or.inl (pipeline_commitStep hf _ ▸ hj)
  | commitFail hf => exact Or.inl (mem_pipeline_mono hj (.refl _) (.refl _) nofun nofun (.refl _))
  | @subscribe seq j' js hf ho =>
    left
    rw [mem_pipeline] at hj ⊢
    rw [show w.flush.subs = (seq, j') :: js.map (seq, ·) by rw [hf]; rfl]
    rcases hj with h | ⟨t, h⟩ | ⟨t, h⟩ | h | h
    · exact Or.inl h
    · rcases mem_insertWaiter.mp h with h | h
      · exact Or.inr (Or.inl ⟨t, h⟩)
      · exact Or.inr (Or.inr (Or.inl ⟨t, h ▸ mem_cons_self⟩))
    · exact Or.inr (Or.inr (Or.inl ⟨t, mem_cons_of_mem _ h⟩))
    · cases h
    · exact Or.inr (Or.inr (Or.inr (Or.inr h)))
  | @subscribeClosed seq j' js hf hc =>
    rw [pipeline_failJob] at hj
    exact Or.inl (mem_pipeline_mono hj (.refl _) (.refl _) (by rw [hf]; exact subset_cons_self _ _) nofun (.refl _))
  | failNext hf =>
    rw [pipeline_failJob] at hj
    exact Or.inl (mem_pipeline_mono hj (.refl _) (.refl _) nofun nofun (.refl _))
  | loop hjobs hs _ =>
    obtain ⟨f, p, he, hsub, -, hq⟩ := @loopStep_eq w batchMax hjobs hs
    rw [he] at hj
    unfold pipeline at hj
    rw [@waiting_requeue w f p hsub, show queued { w with flush := f, pending := p } = _ from hq] at hj
    exact Or.inl hj
  | fire hp =>
    left
    unfold pipeline at hj
    rwa [waiting_fireStep hp] at hj
  | callback hp =>
    rw [pipeline_completeJob] at hj
    exact Or.inl (mem_pipeline_mono hj (by rw [hp]; exact subset_cons_self _ _) (.refl _) (.refl _) (.refl _) (.refl _))
  | callbackErr hp =>
    rw [pipeline_failJob] at hj
    exact Or.inl (mem_pipeline_mono hj nofun (.refl _) (.refl _) (.refl _) (.refl _))
  | poll hp _ => exact Or.inl (mem_pipeline_mono hj nofun (.refl _) (.refl _) (.refl _) (.refl _))
  | pollDone hr _ => exact Or.inl (mem_pipeline_mono hj nofun (.refl _) (.refl _) (.refl _) (.refl _))
  | closeNotifier hp _ => exact Or.inl (mem_pipeline_mono hj nofun nofun (.refl _) (.refl _) (.refl _))
  | closeCommitter _ => exact Or.inl (mem_pipeline_mono hj (.refl _) (.refl _) (.refl _) (.refl _) nofun)
  | failStray _ => rw [pipeline_failJob] at hj; exact Or.inl hj
  | _ => exact Or.inl hj

end Yasdb.Notifier
