import Yasdb.Live.Readers

/-!
# The end of a stream

The publisher stores the tail and then the closure flag, and a reader loads them in the same order. A reader that has
loaded the tail before a closing append with records is published, and the flag after it, reports the end of the stream
at the old tail (`end_reported_early`). `ClosesSettled` rules this out.

- `report_of_move`: who reports the end has loaded the closure flag, and is at the tail that it has loaded;
- `Final.step`: a closed stream does not grow;
- `Ending.step`: every step keeps what holds of a reader on its way to the end;
- `end_not_reported_early`: **a reported end is the end**.
-/

namespace Yasdb.Live

open Batch Runs List Live.State Nat

/-! ## Reports -/

section Reports

variable {L : GoLib} {cfg : Config} {st st' : State} {x x' : Reader}

theorem got_catchup {flt : ReadFaults} {tail : Nat} {closed : Bool} {resp : Response}
    (h : resp ∈ (st.catchup L cfg flt x tail closed).got) (hc : resp.closed = true) :
    resp ∈ x.got ∨ (closed = true ∧ tail ≤ resp.next.seq) := by
  unfold catchup at h
  split at h
  · rcases mem_append.mp h with h | h
    · exact .inl h
    · rw [mem_singleton.mp h] at hc ⊢
      exact .inr ⟨hc, le_refl _⟩
  · split at h
    · exact .inl h
    · rename_i r hr
      rcases mem_append.mp h with h | h
      · exact .inl h
      · rw [mem_singleton.mp h] at hc ⊢
        have hcu := Bool.and_eq_true_iff.mp hc
        exact .inr ⟨hcu.1, le_next_of_upToDate hr hcu.2⟩

/-- **Who reports the end** has loaded the closure flag, and is at the tail that it has loaded. -/
theorem report_of_move (hr : Reading cfg st) (hx : x ∈ st.readers) (h : Move L cfg st x x') {resp : Response}
    (hresp : resp ∈ x'.got) (hc : resp.closed = true) :
    resp ∈ x.got ∨ ∃ chan tail, (x.pc = .gotState chan tail true ∨ x.pc = .missed chan tail true) ∧
      tail ≤ resp.next.seq := by
  have hpc : ∀ {chan tail closed r}, Reads L cfg st x chan tail closed r →
      x.pc = .gotState chan tail closed ∨ x.pc = .missed chan tail closed := fun h => h.imp And.left And.left
  cases h with
  | @deliver chan tail closed r hreads _ =>
    obtain ⟨-, resp', hgot, -, hnext, hclosed⟩ := x.got_deliver closed r
    rw [hgot] at hresp
    rcases mem_append.mp hresp with h | h
    · exact .inl h
    · rw [mem_singleton.mp h] at hc ⊢
      obtain ⟨rfl, hu⟩ := hclosed hc
      refine .inr ⟨chan, tail, hpc hreads, ?_⟩
      rw [hnext]
      exact le_next_of_upToDate (hr.reads hx hreads).2 hu
  | @finish chan tail r hreads hn =>
    obtain ⟨resp', hgot, -, -, hnext⟩ := x.got_finish tail
    rw [hgot] at hresp
    rcases mem_append.mp hresp with h | h
    · exact .inl h
    · rw [mem_singleton.mp h, hnext]
      refine .inr ⟨chan, tail, hpc hreads, ?_⟩
      split
      · exact hr.tail_le hx hreads hn
      · exact le_refl _
  | park =>
    rcases x.got_park _ _ hresp with h | h
    · exact .inl h
    · rw [h] at hc
      cases hc
  | @catchup chan tail closed flt h _ =>
    rcases got_catchup hresp hc with h' | ⟨rfl, hle⟩
    · exact .inl h'
    · exact .inr ⟨chan, tail, .inl h, hle⟩
  | expire =>
    rcases mem_append.mp hresp with h | h
    · exact .inl h
    · rw [mem_singleton.mp h] at hc
      cases hc
  | _ => exact .inl hresp

end Reports

/-! ## The final tail -/

/-- The stream has been closed, with its final tail at `n` or before. -/
def Final (st : State) (n : Nat) : Prop := st.s.streamMeta.closed = true ∧ st.s.writeTail ≤ n

section Steps

variable {L : GoLib} {cfg : Config} {st st' : State} {x x' : Reader} {e : Event}

/-- **A closed stream does not grow.** -/
theorem Final.step {n : Nat} (h : Final st n) (hs : st.Sound cfg) (he : st.step L cfg e = some st') : Final st' n := by
  have hopen : st.s.streamMeta.closed ≠ false := by
    rw [h.1]
    exact Bool.noConfusion
  rcases step_cases he with ⟨rs, total, leaving, -, rfl⟩ | ⟨flt, now, batch, hp⟩ | ⟨ok, hc⟩ | hp |
    ⟨now, j, stage, -, hp, rfl⟩ | ⟨now, hf⟩ | ⟨k, hf⟩
  · exact h
  · obtain ⟨-, ⟨s, responses, hb, rfl⟩ | ⟨s, c, hb, -⟩⟩ := plan_cases hp
    · have hl := (processBurst_reply hb).1
      unfold Final
      rw [hl.streamMeta, hl.writeTail]
      exact h
    · -- a burst is planned on an open stream only
      obtain ⟨hl, hc, -⟩ := processBurst_commit hb
      exact absurd (hl.streamMeta ▸ hc) hopen
  · obtain ⟨j, js, hp, ⟨-, rfl⟩ | ⟨hm, rfl⟩ | ⟨-, rfl⟩⟩ := commit_cases hc
    · exact h
    · -- the burst in the hands of the sync committer was planned on an open stream
      unfold Sound at hs
      rw [hp, hm] at hs
      obtain ⟨s₀, s₁, -, hj, -, -, hsync, -⟩ := hs.queue.head
      obtain ⟨-, -, hmeta, -, -, -, hc, -⟩ := hj.keeps
      rw [(hsync rfl).1] at hmeta
      exact absurd (hmeta ▸ hc) hopen
    · exact h
  · obtain ⟨j, js, -, -, rfl⟩ := publish_cases hp
    exact h
  · cases stage with
    | closed =>
      unfold applyStage
      dsimp only
      split <;> exact h
    | gate =>
      rcases applyStage_gate cfg st now j with ⟨-, hst⟩ | ⟨-, hst⟩
      all_goals
        rw [hst]
        exact h
    | wake =>
      rcases applyStage_wake cfg st now j with ⟨last, hst⟩ | hst
      all_goals
        rw [hst]
        exact h
    | cast c => cases c <;> exact h
    | _ => exact h
  · obtain ⟨-, rfl⟩ := fire_cases hf
    exact h
  · rcases fireStep_cases hf with ⟨-, rfl⟩ | ⟨chan, -, rfl⟩
    all_goals exact h

/-- The closure flag is stored at one stage only. -/
theorem closed_of_step (he : st.step L cfg e = some st') (hc : st'.s.closed = true) :
    st.s.closed = true ∨ ∃ now j, e = .applyReader now ∧ st.pub = some (j, .closed) ∧ j.closed = true ∧
      st'.s.tail = st.s.tail := by
  rcases step_cases he with ⟨rs, total, leaving, -, rfl⟩ | ⟨flt, now, batch, hp⟩ | ⟨ok, hcm⟩ | hp |
    ⟨now, j, stage, rfl, hp, rfl⟩ | ⟨now, hf⟩ | ⟨k, hf⟩
  · exact .inl hc
  · left
    obtain ⟨-, ⟨s, responses, hb, rfl⟩ | ⟨s, c, hb, ⟨-, rfl⟩ | ⟨-, rfl⟩⟩⟩ := plan_cases hp
    · exact (processBurst_reply hb).1.closed ▸ hc
    · exact (processBurst_commit hb).1.closed ▸ hc
    · exact (processBurst_commit hb).1.closed ▸ hc
  · obtain ⟨j, js, -, ⟨-, rfl⟩ | ⟨-, rfl⟩ | ⟨-, rfl⟩⟩ := commit_cases hcm
    all_goals exact .inl hc
  · obtain ⟨j, js, -, -, rfl⟩ := publish_cases hp
    exact .inl hc
  · cases stage with
    | closed =>
      unfold applyStage at hc ⊢
      dsimp only at hc ⊢
      split at hc
      · rename_i hj
        rw [if_pos hj]
        exact .inr ⟨now, j, rfl, hp, hj, rfl⟩
      · exact .inl hc
    | gate =>
      rcases applyStage_gate cfg st now j with ⟨-, hst⟩ | ⟨-, hst⟩
      all_goals
        rw [hst] at hc
        exact .inl hc
    | wake =>
      rcases applyStage_wake cfg st now j with ⟨last, hst⟩ | hst
      all_goals
        rw [hst] at hc
        exact .inl hc
    | cast c => cases c <;> exact .inl hc
    | _ => exact .inl hc
  · obtain ⟨-, rfl⟩ := fire_cases hf
    exact .inl hc
  · rcases fireStep_cases hf with ⟨-, rfl⟩ | ⟨chan, -, rfl⟩
    all_goals exact .inl hc

/-! ## Readers on their way to the end -/

/-- When the closure flag is stored, no reader between its two loads has loaded an older tail. -/
def ClosesSettled (st : State) (e : Event) : Prop :=
  ∀ now j, e = .applyReader now → st.pub = some (j, .closed) → j.closed = true →
    ∀ x ∈ st.readers, ∀ chan tail, x.pc = .gotTail chan tail → tail = st.s.tail

/-- What a reader knows of the end is final. -/
structure Ending (st : State) (x : Reader) : Prop where
  tail : st.s.closed = true → ∀ chan tail, x.pc = .gotTail chan tail → Final st tail
  stored : x.pc = .gotMeta true → Final st (loadTailSeq st.db st.s.id)
  state : ∀ chan tail, x.pc = .gotState chan tail true ∨ x.pc = .missed chan tail true → Final st tail
  got : ∀ resp ∈ x.got, resp.closed = true → Final st resp.next.seq

theorem Ending.unloaded (h : x.pc.loaded = none) (hm : x.pc ≠ .gotMeta true)
    (hg : ∀ resp ∈ x.got, resp.closed = true → Final st resp.next.seq) : Ending st x := by
  refine ⟨fun _ chan tail hp => ?_, fun hp => absurd hp hm, fun chan tail hp => ?_, hg⟩
  · rw [hp] at h
    cases h
  · rcases hp with hp | hp
    all_goals
      rw [hp] at h
      cases h

theorem Ending.move (hr : Reading cfg st) (hx : x ∈ st.readers) (h : Ending st x) (hm : Move L cfg st x x') :
    Ending st x' := by
  have hgot : ∀ resp ∈ x'.got, resp.closed = true → Final st resp.next.seq := by
    intro resp hresp hc
    rcases report_of_move hr hx hm hresp hc with hold | ⟨chan, tail, hpc, hle⟩
    · exact h.got resp hold hc
    · obtain ⟨hcl, hw⟩ := h.state chan tail hpc
      exact ⟨hcl, hw.trans hle⟩
  cases hm with
  | loadTail =>
    refine ⟨fun hc chan tail hp => ?_, nofun, fun _ _ hp => (by rcases hp with hp | hp <;> cases hp), hgot⟩
    cases hp
    obtain ⟨hcl, ht⟩ := hr.sound.final hc
    exact ⟨hcl, le_of_eq ht.symm⟩
  | @loadClosed chan tail hpc =>
    refine ⟨nofun, nofun, fun chan' tail' hp => ?_, hgot⟩
    rcases hp with hp | hp
    · injection hp with h1 h2 h3
      subst h1 h2
      exact h.tail h3 _ _ hpc
    · cases hp
  | @loadMeta m hpc _ hm =>
    refine ⟨nofun, fun hp => ?_, fun _ _ hp => (by rcases hp with hp | hp <;> cases hp), hgot⟩
    injection hp with hcl
    obtain ⟨h1, h2⟩ := hr.sound.stored_closed hm hcl
    exact ⟨h1, le_of_eq h2.symm⟩
  | @loadStored closed hpc =>
    refine ⟨nofun, nofun, fun chan' tail' hp => ?_, hgot⟩
    rcases hp with hp | hp
    · injection hp with h1 h2 h3
      subst h2 h3
      exact h.stored hpc
    · cases hp
  | @miss chan tail closed hpc _ =>
    refine ⟨nofun, nofun, fun chan' tail' hp => ?_, hgot⟩
    rcases hp with hp | hp
    · cases hp
    · injection hp with h1 h2 h3
      subst h1 h2 h3
      exact h.state _ _ (.inl hpc)
  | deliver =>
    rcases x.pc_deliver _ _ with hpc | hpc
    all_goals exact .unloaded (by rw [hpc]; rfl) (by rw [hpc]; nofun) hgot
  | finish => exact .unloaded (by rw [x.pc_finish]; rfl) (by rw [x.pc_finish]; nofun) hgot
  | park =>
    refine ⟨fun _ _ _ hp => ?_, fun hp => ?_, fun _ _ hp => ?_, hgot⟩
    · rw [x.pc_park] at hp
      cases hp
    · rw [x.pc_park] at hp
      cases hp
    · rw [x.pc_park] at hp
      rcases hp with hp | hp <;> cases hp
  | catchup => exact .unloaded (by rw [pc_catchup]; rfl) (by rw [pc_catchup]; nofun) hgot
  | _ => exact .unloaded rfl nofun hgot

/-- **Every step keeps what holds of a reader on its way to the end.** -/
theorem Ending.step (hr : Reading cfg st) (h : ∀ x ∈ st.readers, Ending st x) (hg : ClosesSettled st e)
    (he : st.step L cfg e = some st') : ∀ x ∈ st'.readers, Ending st' x := by
  obtain ⟨hs', f⟩ := Sound.step hr.sound he
  rcases frame_of_step he with ⟨rs, total, leaving, hm, rfl⟩ | ⟨hrs, -⟩
  · intro x hx
    have hw : Ending st x := hm.forall h (fun _ _ _ => .unloaded rfl nofun (fun _ hresp => by cases hresp))
      (fun i x x' hx hmove _ hw => hw.move hr (mem_of_getElem? hx) hmove) x hx
    exact ⟨hw.tail, hw.stored, hw.state, hw.got⟩
  · rw [hrs]
    intro x hx
    have hw := h x hx
    refine ⟨fun hc chan tail hp => ?_, fun hp => ?_, fun chan tail hp => (hw.state chan tail hp).step hr.sound he,
      fun resp hresp hc => (hw.got resp hresp hc).step hr.sound he⟩
    · rcases closed_of_step he hc with hold | ⟨now, j, hev, hpub, hj, ht⟩
      · exact (hw.tail hold chan tail hp).step hr.sound he
      · -- the closure is published now: the reader has loaded the tail that was published with it
        obtain ⟨hcl, htail⟩ := hs'.final hc
        rw [hg now j hev hpub hj x hx chan tail hp, ← ht]
        exact ⟨hcl, le_of_eq htail.symm⟩
    · obtain ⟨hcl, hle⟩ := (hw.stored hp).step hr.sound he
      exact ⟨hcl, hle.trans (f.stored_le hr.sound)⟩

end Steps

/-- **A reported end is the end.** If no reader between its two loads has an older tail when the closure flag is stored,
a reader that reports the end of the stream reports it at or after its final tail. -/
theorem end_not_reported_early (L : GoLib) (cfg : Config) (db : Store) (path : Bytes) (m : StreamMeta) (hc : Catalog db)
    (hm : db.metaAt path = some m) (hroot : Rooted db m) (st : State)
    (hr : Reach (step L cfg) ClosesSettled (spawn cfg db path m) st) (x : Reader) (hx : x ∈ st.readers)
    (resp : Response) (hresp : resp ∈ x.got) (hclosed : resp.closed = true) :
    st.s.streamMeta.closed = true ∧ st.s.writeTail ≤ resp.next.seq := by
  obtain ⟨-, h⟩ := hr.invariant (P := fun st => Reading cfg st ∧ ∀ x ∈ st.readers, Ending st x)
    (fun _ _ _ h hg he => ⟨h.1.step he, Ending.step h.1 h.2 hg he⟩)
    ⟨Reading.spawn hc hm hroot, nofun⟩
  exact (h x hx).got resp hresp hclosed

/-- An append with a record that closes the stream, up to the store of the closure flag. -/
def closeEvents : List Event :=
  [.plan noFaults 0 [{ records := [[7]], hasBody := true, closeStream := true }], .commit true, .publish,
    .applyReader 0, .applyReader 0, .applyReader 0]

/-- A reader that comes after the closure is told the end with the record. -/
theorem end_not_reported_early_record : ∃ st x resp,
    Reach (step plainLib liveConfig) ClosesSettled liveStart st ∧
    x ∈ st.readers ∧ resp ∈ x.got ∧ resp.closed = true ∧ resp.body = some [7] ∧
    st.s.streamMeta.closed = true ∧ st.s.writeTail ≤ resp.next.seq := by
  obtain ⟨st, hst, x, hx, resp, hresp, hclosed, hbody⟩ : ∃ st ∈ run (guarded (step plainLib liveConfig) fun st e
      => !(e matches .applyReader _) || st.readers.isEmpty) liveStart
      (closeEvents ++ .arrive .catchup (some {}) :: List.replicate 4 (.advance 0 {})), ∃ x ∈ st.readers[0]?,
      ∃ resp ∈ x.got[0]?, resp.closed = true ∧ resp.body = some [7] := by decide +kernel
  have hr : Reach (step plainLib liveConfig) ClosesSettled liveStart st := by
    refine Reach.mono (fun st e hg now j he _ _ x hx => ?_) (reach_guarded hst)
    rw [he] at hg
    rw [List.isEmpty_iff.mp hg] at hx
    cases hx
  have hmem := mem_of_getElem? hx
  have hrmem := mem_of_getElem? hresp
  exact ⟨st, x, resp, hr, hmem, hrmem, hclosed, hbody, end_not_reported_early plainLib _ _ samplePath sampleMeta
    catalog_liveServer metaAt_liveServer (.plain rfl) st hr x hmem resp hrmem hclosed⟩

/-- A reader loads the tail; an append with a record that closes the stream is published; the reader goes on. -/
def earlyEndEvents : List Event :=
  .arrive .longPoll none :: List.replicate 3 (.advance 0 {}) ++ closeEvents ++ List.replicate 3 (.advance 0 {})

/-- The reader is told that the stream has ended before its only record. -/
theorem end_reported_early : ∃ st x resp,
    Reach (step plainLib liveConfig) Any liveStart st ∧
    x ∈ st.readers ∧ resp ∈ x.got ∧ resp.closed = true ∧ resp.next = ⟨0, 0⟩ ∧ st.s.streamMeta.closed = true ∧
    st.s.writeTail = 1 := by
  obtain ⟨st, hst, x, hx, resp, hresp, h⟩ : ∃ st ∈ run (step plainLib liveConfig) liveStart earlyEndEvents,
      ∃ x ∈ st.readers[0]?, ∃ resp ∈ x.got[0]?, resp.closed = true ∧ resp.next = ⟨0, 0⟩ ∧
      st.s.streamMeta.closed = true ∧ st.s.writeTail = 1 := by decide
  exact ⟨st, x, resp, reach_any hst, mem_of_getElem? hx, mem_of_getElem? hresp,
    h⟩

end Yasdb.Live
