import Yasdb.Notifier.Jobs
import Yasdb.Notifier.Pipeline

/-!
# Acknowledgements in notifier mode

A 2xx answer is readable when a reader of the stream already sees its offset and its closure (`Readable`). A durability
callback publishes the target of its job before it answers. A burst with nothing to write is answered at once from the
writer view, which runs ahead of what readers see.

- `acks_readable`: **every answer is readable** if such a burst is answered only when its streamer has published all
  that it has accepted (`NoopsPublished`);
- `retry_acked_early`: the retry of an append in flight is answered 204 before anything is durable.
-/

namespace Yasdb

variable {i : Nat} {sl : Slot}

/-- The view refuses every append of the batch. -/
def View.Refuses (L : GoLib) (v : View) (batch : List AppendReq) : Prop :=
  ∀ req ∈ batch, ¬ v.Accepts L req ∧ ¬ v.IsNoop L req

theorem View.Answered.rejects {L : GoLib} {now : Int64} {v : View} {batch : List AppendReq} {rs : List AppendResp}
    {as : List Bool} (h : View.Answered L now v batch rs as) (hr : v.Refuses L batch) : ∀ r ∈ rs, View.Rejects r := by
  induction h with
  | nil => exact nofun
  | accept ha => exact absurd ha (hr _ List.mem_cons_self).1
  | noop _ hi => exact absurd hi (hr _ List.mem_cons_self).2
  | reject hrej _ _ _ ih =>
    intro r hm
    rcases List.mem_cons.mp hm with rfl | hm
    · exact hrej
    · exact ih (fun req hreq => hr req (List.mem_cons_of_mem _ hreq)) r hm

/-- All that the writer has accepted is visible to readers. -/
structure Published (s : Streamer) : Prop where
  tail : s.writeTail ≤ s.tail
  closed : s.streamMeta.closed = true → s.closed = true

section Reply

variable {L : GoLib} {flt : Faults} {db : Store} {now : Int64} {s s' : Streamer} {batch : List AppendReq}
  {responses : List AppendResp}

section

variable (h : processBurst L flt db now s batch = (s', .reply responses))
include h

/-- A burst with nothing to write leaves the view as it is. -/
theorem after_of_reply : (viewOf flt db s).after L now batch = viewOf flt db s := by
  have hP := planning_planBatch L flt db now s batch
  have hp := planBatch_plans L flt db batch s (newPending s now)
  have hview := hp.view
  rw [hp.loads.pendView, pendView_newPending] at hview
  rcases processBurst_cases L flt db now s batch with ⟨hn, -⟩ | ⟨-, he⟩
  · obtain ⟨h1, h2, h3, h4, h5⟩ := nothing_iff.mp hn
    refine hview.symm.trans (View.ext rfl rfl ?_ ?_ ?_ (funext fun pid => ?_) ?_)
    · exact (hP.tail h1).trans hp.loads.writeTail
    · exact hP.closed.trans (by rw [h2, Bool.or_false, hp.loads.streamMeta]; rfl)
    · exact h5.trans (by rw [hp.loads.streamMeta]; rfl)
    · rw [pendView_producers, h4 pid]; rfl
    · rw [pendView_writerSeq, h3]; rfl
  · rw [h] at he; cases he

/-- The answers of a burst with nothing to write are readable if all that was accepted is published, and also if
there is no 2xx answer among them. -/
theorem within_of_reply (hc : Published s ∨ (viewOf flt db s).Refuses L batch) :
    ∀ r ∈ responses, Within s.tail s.closed r := by
  intro r hr
  rcases hc with hpub | href
  · intro h2xx
    obtain ⟨h1, h2⟩ := (processBurst_reply h).2 r hr h2xx
    refine ⟨?_, fun hcl => hpub.closed (h2 hcl)⟩
    have := hpub.tail
    rcases h1 with h1 | ⟨h1, h1'⟩
    · exact .inl (lt_of_lt_of_le h1 this)
    · rcases lt_or_eq_of_le this with hlt | heq
      · exact .inl (h1 ▸ hlt)
      · exact .inr ⟨h1.trans heq, h1'⟩
  · have ha := (planBatch_plans L flt db batch s (newPending s now)).answered
    rw [pendView_newPending] at ha
    have hresp : responses = (planBatch L flt db s (newPending s now) batch).responses := by
      rcases processBurst_cases L flt db now s batch with ⟨-, he⟩ | ⟨-, he⟩
      · rw [h] at he; cases he; rfl
      · rw [h] at he; cases he
    have hrej := ha.rejects href r (hresp ▸ hr)
    rintro (h200 | h204)
    · exact absurd h200 hrej.1
    · exact absurd h204 hrej.2

end

end Reply

namespace Notifier

open Runs List World

/-- The answer is readable: at the moment it is sent, a reader sees its offset and its closure. -/
def Readable (s : Sent) : Prop := Within s.tail s.closed s.resp

/-- A burst is planned when its streamer has published all that it has accepted, or it changes the stream, or it is
refused as a whole; and nothing fails or shuts down. -/
def NoopsPublished (L : GoLib) (w : World) : Event → Prop
  | .plan i now flt batch => ∀ sl, w.slots i = some sl →
      Published sl.st ∨ (viewOf flt w.db sl.st).after L now batch ≠ viewOf flt w.db sl.st ∨
        (viewOf flt w.db sl.st).Refuses L batch
  | .commitFail _ => False
  | .closeNotifier _ => False
  | .closeCommitter => False
  | _ => True

/-- Nothing has failed, and every planned job keeps its answers within its target. -/
structure AckInv (w : World) : Prop where
  sent : ∀ s ∈ w.sent, Readable s
  jobs : ∀ j ∈ w.pipeline, ∀ r ∈ j.c.responses, Within j.targetTail j.targetClosed r
  hands : ∀ i sl j, w.slots i = some sl → sl.hand = some j → ∀ r ∈ j.c.responses, Within j.targetTail j.targetClosed r
  failed : w.flush.failed = []
  stray : w.stray = []
  aborted : w.poller.failed = []
  openNotifier : w.notifierClosed = false
  openCommitter : w.committerClosed = false

namespace AckInv

variable {L : GoLib} {w : World}

section

variable (h : AckInv w)
include h

theorem reply {rs : List AppendResp} (hs : w.slots i = some sl)
    (hr : ∀ r ∈ rs, Within sl.st.tail sl.st.closed r) : AckInv (w.reply i rs) := by
  unfold World.reply
  rw [hs]
  refine ⟨fun s hm => ?_, h.jobs, h.hands, h.failed, h.stray, h.aborted, h.openNotifier, h.openCommitter⟩
  rcases mem_append.mp hm with hm | hm
  · exact h.sent s hm
  · obtain ⟨r, hrm, rfl⟩ := mem_map.mp hm
    exact hr r hrm

theorem setSlot (hh : ∀ j, sl.hand = some j → ∀ r ∈ j.c.responses, Within j.targetTail j.targetClosed r) :
    AckInv (w.setSlot i sl) := by
  refine ⟨h.sent, h.jobs, fun k sk j hk hj => ?_, h.failed, h.stray, h.aborted, h.openNotifier, h.openCommitter⟩
  rcases setSlot_cases hk with ⟨-, rfl⟩ | ⟨-, hk⟩
  · exact hh j hj
  · exact h.hands k sk j hk hj

theorem plan {now : Int64} {flt : Faults} {batch : List AppendReq}
    (hs : w.slots i = some sl) (hh : sl.hand = none) (hc : NoopsPublished L w (.plan i now flt batch)) :
    AckInv (planStep L w i sl now flt batch) := by
  unfold planStep
  split
  · rename_i s responses hb
    obtain ⟨hl, -⟩ := processBurst_reply hb
    have hpub : Published sl.st ∨ (viewOf flt w.db sl.st).Refuses L batch := by
      rcases hc sl hs with hc | hc | hc
      · exact .inl hc
      · exact absurd (after_of_reply hb) hc
      · exact .inr hc
    have h' : AckInv (w.setSlot i { sl with st := s }) := h.setSlot fun j hj => by rw [hh] at hj; cases hj
    refine h'.reply (setSlot_self _ _ _) ?_
    rw [hl.tail, hl.closed]
    exact within_of_reply hb hpub
  · rename_i s c hb
    refine h.setSlot fun j hj => ?_
    cases hj
    exact (newJob_ok hb i).answers

/-- A callback publishes the target of its job before it answers. -/
theorem callback {t : Nat} {j : CommitJob} {ws : List DurWaiter}
    (hp : w.poller = .calling none ((t, j) :: ws)) :
    AckInv (completeJob { w with poller := .calling none ws } j) := by
  have hr : w.poller.ready = (t, j) :: ws := by rw [hp]; rfl
  have hj : j ∈ w.pipeline := mem_pipeline.mpr (.inl ⟨t, by rw [hr]; exact mem_cons_self⟩)
  have h₁ : AckInv { w with poller := .calling none ws } := by
    refine ⟨h.sent, fun j' hj' => h.jobs j' ?_, h.hands, h.failed, h.stray, rfl, h.openNotifier, h.openCommitter⟩
    rw [mem_pipeline] at hj' ⊢
    rw [hr]
    exact hj'.imp_left fun ⟨t, ht⟩ => ⟨t, mem_cons_of_mem _ ht⟩
  unfold World.completeJob
  split
  · rename_i sl hs
    have h₂ : AckInv (World.setSlot { w with poller := .calling none ws } j.st
        { sl with st := applyReader sl.st j.targetTail j.targetClosed }) :=
      h₁.setSlot fun j' hj' => h₁.hands j.st sl j' hs hj'
    refine h₂.reply (setSlot_self _ _ _) fun r hr h2xx => ?_
    obtain ⟨h3, h4⟩ := h.jobs j hj r hr h2xx
    exact ⟨h3, fun hcl => by show (j.targetClosed || _) = true; rw [h4 hcl]; rfl⟩
  · exact h₁

/-- **Every step keeps the answers readable.** -/
theorem step {batchMax : Nat} {w' : World} {e : Event} (hc : NoopsPublished L w e)
    (he : step L batchMax w e = some w') : AckInv w' := by
  have hst := steps_of_step he
  have hjobs : ∀ j ∈ w'.pipeline, ∀ r ∈ j.c.responses, Within j.targetTail j.targetClosed r := fun j hj =>
    (mem_pipeline_of_step hst hj).elim (h.jobs j) fun ⟨i, sl, hs, hh⟩ => h.hands i sl j hs hh
  cases hst with
  | plan now flt batch hs hh => exact h.plan hs hh hc
  | @enqueue i sl j hs hj =>
    have h' : AckInv (w.setSlot i { sl with hand := none }) := h.setSlot nofun
    obtain ⟨f, p, heq, -, hf, -⟩ := @enqueueStep_eq (w.setSlot i { sl with hand := none }) batchMax h.openCommitter j
    rw [heq] at hjobs ⊢
    exact ⟨h.sent, hjobs, h'.hands, hf.trans h.failed, h.stray, h.aborted, h.openNotifier, h.openCommitter⟩
  | commitOk hf _ =>
    refine ⟨h.sent, hjobs, fun i sl j hs hj => ?_, rfl, h.stray, h.aborted, h.openNotifier, h.openCommitter⟩
    obtain ⟨so, hso, rfl⟩ := Option.map_eq_some_iff.mp hs
    exact h.hands i so j hso hj
  | commitFail => exact hc.elim
  | subscribe => exact ⟨h.sent, hjobs, h.hands, rfl, h.stray, h.aborted, h.openNotifier, h.openCommitter⟩
  | subscribeClosed _ hcl => rw [h.openNotifier] at hcl; cases hcl
  | failNext hf => have := h.failed; rw [hf] at this; cases this
  | loop hj hs _ =>
    obtain ⟨f, p, heq, -, hf, -⟩ := @loopStep_eq w batchMax hj hs
    rw [heq] at hjobs ⊢
    exact ⟨h.sent, hjobs, h.hands, hf, h.stray, h.aborted, h.openNotifier, h.openCommitter⟩
  | persist => exact ⟨h.sent, hjobs, h.hands, h.failed, h.stray, h.aborted, h.openNotifier, h.openCommitter⟩
  | callback hp => exact h.callback hp
  | callbackErr hp => have := h.aborted; rw [hp] at this; cases this
  | closeNotifier => exact hc.elim
  | closeCommitter => exact hc.elim
  | failStray hst => rw [h.stray] at hst; cases hst
  | respawn hs hh => exact h.setSlot fun j hj => by rw [hh] at hj; cases hj
  | _ => exact ⟨h.sent, hjobs, h.hands, h.failed, h.stray, rfl, h.openNotifier, h.openCommitter⟩

end

end AckInv

/-! ## Main results -/

/-- Nothing is in flight and nothing has been answered yet. -/
def Idle (w : World) : Prop := w = { db := w.db, slots := w.slots } ∧ ∀ i sl, w.slots i = some sl → sl.hand = none

theorem Idle.ackInv {w : World} (h : Idle w) : AckInv w := by
  obtain ⟨hw, hh⟩ := h
  rw [hw]
  exact ⟨nofun, nofun, fun i sl j hs hj => (by rw [hh i sl hs] at hj; cases hj),
    rfl, rfl, rfl, rfl, rfl⟩

/-- **Acknowledgements are readable when no-ops are.** Along every run whose bursts meet the condition and in which
nothing fails, every answer was readable at the moment it was sent. -/
theorem acks_readable (L : GoLib) (batchMax : Nat) (w₀ w : World) (h₀ : Idle w₀)
    (hr : Reach (step L batchMax) (NoopsPublished L) w₀ w) : ∀ s ∈ w.sent, Readable s :=
  (hr.invariant (fun _ _ _ hs hc he => hs.step hc he) h₀.ackInv).sent

theorem sampleWorld_idle : Idle sampleWorld :=
  ⟨rfl, fun i sl hi => by rw [(sampleWorld_slots hi).2]⟩

/-- An append is acknowledged by its callback, and its retry after that by the streamer. -/
theorem acks_readable_retryPublished :
    ∃ w, Reach (step plainLib 1) (NoopsPublished plainLib) sampleWorld w ∧
      w.sent.map (·.resp.status) = [200, 204] ∧ ∀ s ∈ w.sent, Readable s := by
  have hplan : NoopsPublished plainLib sampleWorld (.plan 0 0 noFaults [producerAppend 0 0]) := fun sl hs =>
    Or.inl (by rw [(sampleWorld_slots hs).2]; exact ⟨le_refl _, id⟩)
  have hcycle : ∀ e ∈ publishCycle, ∀ w, NoopsPublished plainLib w e := by simp [publishCycle, NoopsPublished]
  obtain ⟨w, hw, hpub, w', hw', hsent⟩ :
      ∃ w, run (step plainLib 1) (planStep plainLib sampleWorld 0 { st := newStreamer samplePath sampleMeta 0 } 0
          noFaults [producerAppend 0 0]) publishCycle = some w ∧ (∀ sl, w.slots 0 = some sl → Published sl.st) ∧
        ∃ w', step plainLib 1 w (.plan 0 0 noFaults [producerAppend 0 0]) = some w' ∧
          w'.sent.map (·.resp.status) = [200, 204] :=
    ⟨_, rfl, fun sl hs => by cases hs; exact ⟨le_refl _, id⟩, _, rfl, rfl⟩
  have hretry : NoopsPublished plainLib w (.plan 0 0 noFaults [producerAppend 0 0]) := fun sl hs => .inl (hpub sl hs)
  have hr := (((Reach.refl sampleWorld).tail hplan rfl).trans (reach_of_run hcycle hw)).tail hretry hw'
  exact ⟨w', hr, hsent, acks_readable plainLib 1 sampleWorld w' sampleWorld_idle hr⟩

/-- No commit fails, no read fails and nothing shuts down. -/
def StoreWorks (_ : World) : Event → Prop
  | .plan _ _ flt _ => flt = noFaults
  | .commitFail _ => False
  | .closeNotifier _ => False
  | .closeCommitter => False
  | _ => True

/-- An append is accepted and queued, and its retry arrives before the flush goroutine has committed it. -/
def retryInFlight : List Event :=
  [.plan 0 0 noFaults [producerAppend 0 0], .enqueue 0, .plan 0 0 noFaults [producerAppend 0 0]]

/-- **A retry is acknowledged before its append is durable**: it is answered 204 with the offset after the append, while
nothing is stored. -/
theorem retry_acked_early :
    ¬ ∀ (L : GoLib) (batchMax : Nat) (w₀ w : World), Idle w₀ → Reach (step L batchMax) StoreWorks w₀ w →
      ∀ s ∈ w.sent, Readable s := by
  intro h
  have hc : ∀ e ∈ retryInFlight, ∀ w, StoreWorks w e := by simp [retryInFlight, StoreWorks]
  obtain ⟨w, hw, hsent⟩ : ∃ w, run (step plainLib 1) sampleWorld retryInFlight = some w ∧
      w.sent = [⟨0, { status := 204, nextOffset := tailOffset 1, producerEpoch := some 0, producerSeq := some 0 },
        0, false⟩] := ⟨_, rfl, rfl⟩
  have hread := h plainLib 1 sampleWorld w sampleWorld_idle (reach_of_run hc hw) _
    (by rw [hsent]; exact List.mem_singleton_self _)
  exact absurd (hread (.inr rfl)).1 (by decide)

end Notifier

end Yasdb
