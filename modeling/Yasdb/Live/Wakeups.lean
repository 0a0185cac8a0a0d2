import Yasdb.Live.Readers

/-!
# No wake-up is lost

A reader loads the waiter channel before the tail, and the publisher stores the tail before it looks at the count of
readers and broadcasts. So a reader that works with an old tail holds a channel that is closed, or about to be closed
(`Owes`): by a broadcast in progress, by the publisher on its way to one, or by the armed timer.

- `Waits`: what holds of a reader and the channel that it has loaded;
- `WakeInv.step`: every step keeps it;
- `no_lost_wakeup`: **a reader parked below the published tail will be woken** if all that it reads is stored;
- `orphan_never_woken`: a reader of a fork whose source has expired;
- `channels_closed_once`: no channel is closed twice.
-/

namespace Yasdb.Live

open Batch Runs List Option Nat Reader

variable {j : Job} {now : Int} {e : Event}

/-! ## Owed broadcasts -/

/-- The publisher has stored the tail, and its broadcast has not yet swapped the channel. -/
def Stage.wakes : Stage → Bool
  | .closed | .gate | .wake | .cast .swap => true
  | _ => false

namespace State

variable (st : State)

/-- A swap of the waiter channel is to come. -/
def Swapping : Prop :=
  st.pending = true ∨ .swap ∈ st.fires ∨ ∃ j stage, st.pub = some (j, stage) ∧ stage.wakes = true

/-- The channel has been swapped out and is about to be closed. -/
def Closing (chan : Nat) : Prop := .close chan ∈ st.fires ∨ ∃ j, st.pub = some (j, .cast (.close chan))

/-- A broadcast that will close the channel is owed. -/
def Owes (chan : Nat) : Prop := (chan = st.waiter ∧ st.Swapping) ∨ st.Closing chan

end State

/-- What a step of the writer, the publisher or a timer does to the channels. -/
structure Channels (st st' : State) : Prop where
  waiter : st.waiter ≤ st'.waiter
  /-- while readers are counted, a new tail comes with a broadcast to be made, and a broadcast is made -/
  swapping : 0 < st.total →
    (st'.s.tail = st.s.tail ∧ (st.Swapping → st'.Swapping ∨ st.waiter < st'.waiter)) ∨ st'.Swapping
  closing : (∀ chan < st.waiter, chan ∈ st.shut ∨ st.Closing chan) →
    ∀ chan < st'.waiter, chan ∈ st'.shut ∨ st'.Closing chan

section Lists

variable {c d c' : Cast} {fires : List Cast} {k : Nat}

theorem mem_set_fires (hc : c ∈ fires) (hk : fires[k]? = some d) (hne : c ≠ d) : c ∈ fires.set k c' := by
  obtain ⟨i, hi⟩ := mem_iff_getElem?.mp hc
  have hik : k ≠ i := by
    rintro rfl
    exact hne (some.inj (hi.symm.trans hk))
  exact mem_iff_getElem?.mpr ⟨i, by rw [getElem?_set_ne hik, hi]⟩

theorem mem_eraseIdx_fires (hc : c ∈ fires) (hk : fires[k]? = some d) (hne : c ≠ d) : c ∈ fires.eraseIdx k := by
  obtain ⟨i, hi⟩ := mem_iff_getElem?.mp hc
  refine mem_eraseIdx_iff_getElem?.mpr ⟨i, ?_, hi⟩
  rintro rfl
  exact hne (some.inj (hi.symm.trans hk))

end Lists

namespace Channels

variable {L : GoLib} {cfg : Config} {st st' : State}

theorem of_eq (hw : st'.waiter = st.waiter) (hs : st'.shut = st.shut) (ht : st'.s.tail = st.s.tail)
    (hsw : st.Swapping → st'.Swapping) (hcl : ∀ chan, st.Closing chan → st'.Closing chan) : Channels st st' := by
  refine ⟨le_of_eq hw.symm, fun _ => .inl ⟨ht, fun h => .inl (hsw h)⟩, fun h chan hc => ?_⟩
  rw [hw] at hc
  rw [hs]
  exact (h chan hc).imp_right (hcl chan)

theorem swap (hw : st'.waiter = st.waiter + 1) (hs : st'.shut = st.shut) (ht : st'.s.tail = st.s.tail)
    (hcl : ∀ chan, st.Closing chan → st'.Closing chan) (hnew : st'.Closing st.waiter) : Channels st st' := by
  refine ⟨by omega, fun _ => .inl ⟨ht, fun _ => .inr (by omega)⟩, fun h chan hc => ?_⟩
  rw [hs]
  rcases lt_or_ge chan st.waiter with hlt | hge
  · exact (h chan hlt).imp_right (hcl chan)
  · have : chan = st.waiter := by omega
    rw [this]
    exact .inr hnew

theorem close {chan₀ : Nat} (hw : st'.waiter = st.waiter) (hs : st'.shut = chan₀ :: st.shut)
    (ht : st'.s.tail = st.s.tail)
    (hsw : st.Swapping → st'.Swapping) (hcl : ∀ chan, chan ≠ chan₀ → st.Closing chan → st'.Closing chan) :
    Channels st st' := by
  refine ⟨le_of_eq hw.symm, fun _ => .inl ⟨ht, fun h => .inl (hsw h)⟩, fun h chan hc => ?_⟩
  rw [hw] at hc
  rw [hs]
  by_cases heq : chan = chan₀
  · exact .inl (heq ▸ mem_cons_self)
  · exact (h chan hc).imp (mem_cons_of_mem _) (hcl chan heq)

theorem writer (hw : st'.waiter = st.waiter) (hs : st'.shut = st.shut) (ht : st'.s.tail = st.s.tail)
    (hpub : st'.pub = st.pub) (hfires : st'.fires = st.fires) (hpend : st'.pending = st.pending) : Channels st st' := by
  refine of_eq hw hs ht (fun h => ?_) (fun chan h => ?_)
  · unfold State.Swapping
    rw [hpend, hfires, hpub]
    exact h
  · unfold State.Closing
    rw [hfires, hpub]
    exact h

theorem plan {flt : Faults} {now : Int64} {batch : List AppendReq} (he : st.plan L cfg flt now batch = some st') :
    Channels st st' := by
  obtain ⟨-, ⟨s, responses, hb, rfl⟩ | ⟨s, c, hb, ⟨-, rfl⟩ | ⟨-, rfl⟩⟩⟩ := plan_cases he
  · exact writer rfl rfl (processBurst_reply hb).1.tail rfl rfl rfl
  · exact writer rfl rfl (processBurst_commit hb).1.tail rfl rfl rfl
  · exact writer rfl rfl (processBurst_commit hb).1.tail rfl rfl rfl

theorem commit {ok : Bool} (he : st.commit cfg ok = some st') : Channels st st' := by
  obtain ⟨j, js, -, ⟨-, rfl⟩ | ⟨-, rfl⟩ | ⟨-, rfl⟩⟩ := commit_cases he
  all_goals exact writer rfl rfl rfl rfl rfl rfl

/-- The publisher goes on to a stage that owes at least as much. -/
theorem goOn {stage : Stage} (hp : st.pub = some (j, stage)) {pub : Option (Job × Stage)}
    (hw : st'.waiter = st.waiter) (hs : st'.shut = st.shut) (ht : st'.s.tail = st.s.tail)
    (hfires : st'.fires = st.fires)
    (hpend : st'.pending = st.pending) (hpub : st'.pub = pub)
    (hsw : stage.wakes = true → ∃ j stage, pub = some (j, stage) ∧ stage.wakes = true)
    (hcl : ∀ chan, stage ≠ .cast (.close chan)) : Channels st st' := by
  refine of_eq hw hs ht (fun h => ?_) (fun chan h => ?_)
  · unfold State.Swapping at h ⊢
    rw [hpend, hfires, hpub]
    refine h.imp_right (Or.imp_right ?_)
    rintro ⟨j', stage', hp', hk⟩
    rw [hp, some.injEq, Prod.mk.injEq] at hp'
    exact hsw (hp'.2 ▸ hk)
  · unfold State.Closing at h ⊢
    rw [hfires]
    refine h.imp_right ?_
    rintro ⟨j', hp'⟩
    rw [hp, some.injEq, Prod.mk.injEq] at hp'
    exact absurd hp'.2 (hcl chan)

theorem applyStage {stage : Stage} (hp : st.pub = some (j, stage)) : Channels st (st.applyStage cfg now j stage) := by
  cases stage with
  | cache => exact goOn hp rfl rfl rfl rfl rfl rfl nofun nofun
  | tail =>
    -- the new tail is published, and the publisher is on its way to the broadcast
    refine ⟨le_refl _, fun _ => .inr (.inr (.inr ⟨j, .closed, rfl, rfl⟩)), fun h chan hc => ?_⟩
    refine (h chan hc).imp_right (Or.imp_right ?_)
    rintro ⟨j', hp'⟩
    rw [hp] at hp'
    cases hp'
  | closed =>
    refine goOn hp rfl rfl ?_ rfl rfl rfl (fun _ => ⟨j, .gate, rfl, rfl⟩) nofun
    unfold State.applyStage
    dsimp only
    split <;> rfl
  | gate =>
    rcases applyStage_gate cfg st now j with ⟨-, hst⟩ | ⟨hzero, hst⟩
    · rw [hst]
      exact goOn hp rfl rfl rfl rfl rfl rfl (fun _ => ⟨j, .wake, rfl, rfl⟩) nofun
    · rw [hst]
      refine ⟨le_refl _, fun hpos => absurd hpos (by omega), fun h chan hc => ?_⟩
      refine (h chan hc).imp_right (Or.imp_right ?_)
      rintro ⟨j', hp'⟩
      rw [hp] at hp'
      cases hp'
  | wake =>
    rcases applyStage_wake cfg st now j with ⟨last, hst⟩ | hst
    · rw [hst]
      exact goOn hp rfl rfl rfl rfl rfl rfl (fun _ => ⟨j, .cast .swap, rfl, rfl⟩) nofun
    · rw [hst]
      refine of_eq rfl rfl rfl (fun _ => .inl rfl) (fun chan h => h.imp_right ?_)
      rintro ⟨j', hp'⟩
      rw [hp] at hp'
      cases hp'
  | cast c =>
    cases c with
    | swap =>
      refine swap rfl rfl rfl (fun chan h => h.imp_right ?_) (.inr ⟨j, rfl⟩)
      rintro ⟨j', hp'⟩
      rw [hp] at hp'
      cases hp'
    | close chan₀ =>
      refine close rfl rfl rfl (fun h => h.imp_right (Or.imp_right ?_)) (fun chan hne h => h.imp_right ?_)
      · rintro ⟨j', stage', hp', hk⟩
        rw [hp] at hp'
        cases hp'
        cases hk
      · rintro ⟨j', hp'⟩
        rw [hp] at hp'
        cases hp'
        exact absurd rfl hne

theorem publish (he : st.publish = some st') : Channels st st' := by
  obtain ⟨j, js, hp, -, rfl⟩ := publish_cases he
  refine of_eq rfl rfl rfl (fun h => h.imp_right (Or.imp_right ?_)) (fun chan h => h.imp_right ?_)
  · rintro ⟨j', stage', hp', -⟩
    rw [hp] at hp'
    cases hp'
  · rintro ⟨j', hp'⟩
    rw [hp] at hp'
    cases hp'

theorem fire (he : st.fire now = some st') : Channels st st' := by
  obtain ⟨-, rfl⟩ := fire_cases he
  refine of_eq rfl rfl rfl (fun _ => ?_) (fun chan h => h.imp_left (mem_append_left _))
  exact .inr (.inl (mem_append_right _ (mem_singleton_self _)))

theorem fireStep {k : Nat} (he : st.fireStep k = some st') : Channels st st' := by
  rcases fireStep_cases he with ⟨hk, rfl⟩ | ⟨chan₀, hk, rfl⟩
  · refine swap rfl rfl rfl (fun chan h => h.imp_left fun hc => mem_set_fires hc hk nofun) (.inl ?_)
    have hlt := (List.getElem?_eq_some_iff.mp hk).1
    exact mem_iff_getElem?.mpr ⟨k, getElem?_set_self hlt⟩
  · refine close rfl rfl rfl (fun h => h.imp_right (Or.imp_left fun hc => mem_eraseIdx_fires hc hk nofun))
      (fun chan hne h => h.imp_left fun hc => mem_eraseIdx_fires hc hk ?_)
    intro heq
    exact hne (Cast.close.inj heq)

end Channels

/-! ## Waiting readers -/

/-- What holds of a reader and the channel that it has loaded. -/
structure Waits (st : State) (x : Reader) : Prop where
  chan : ∀ chan, x.pc = .gotChan chan → chan ≤ st.waiter
  /-- if its tail is not the published one, its channel has been swapped out, or will be -/
  fresh : x.kind.live = true → ∀ chan tail, x.pc.loaded = some (chan, tail) →
    chan ≤ st.waiter ∧ (st.s.tail ≤ tail ∨ chan < st.waiter ∨ st.Swapping)
  missed : ∀ chan tail closed, x.pc = .missed chan tail closed → x.kind.live = true
  parked : ∀ chan tail, x.pc = .parked chan tail → x.kind.live = true ∧ tail ≤ x.start.seq

structure WakeInv (st : State) : Prop where
  count : st.total = st.readers.countP Reader.counted + st.leaving
  closing : ∀ chan < st.waiter, chan ∈ st.shut ∨ st.Closing chan
  waits : ∀ x ∈ st.readers, Waits st x

section Readers

variable {L : GoLib} {cfg : Config} {st st' : State} {x x' : Reader}

theorem Waits.unloaded (h : x.pc = .idle ∨ x.pc = .entered ∨ x.pc = .loop) : Waits st x := by
  rcases h with h | h | h
  all_goals
    refine ⟨?_, fun _ => ?_, ?_, ?_⟩
    all_goals
      rw [h]
      nofun

theorem Waits.move (hr : Reading cfg st) (hx : x ∈ st.readers) (h : Waits st x) (hm : Move L cfg st x x') :
    Waits st x' := by
  -- a tail that has been loaded is the one of before, or not older than the published one
  have hfresh : x'.kind.live = true → ∀ chan tail, x'.pc.loaded = some (chan, tail) →
      chan ≤ st.waiter ∧ (st.s.tail ≤ tail ∨ chan < st.waiter ∨ st.Swapping) := by
    intro hk chan tail hl
    rw [hm.kind] at hk
    rcases (loaded_of_move hr.sound hm hl).2 with hl | ⟨hle, -, hchan, -⟩
    · exact h.fresh hk chan tail hl
    · refine ⟨?_, .inl hle⟩
      rcases hchan with hpc | rfl
      · exact h.chan chan hpc
      · exact le_refl _
  cases hm with
  | request | enterNow | enter | wake => exact .unloaded (by simp)
  | loadChan => exact ⟨fun chan hc => by cases hc; exact le_refl _, hfresh, nofun, nofun⟩
  | miss _ hk => exact ⟨nofun, hfresh, fun _ _ _ _ => hk, nofun⟩
  | deliver =>
    rcases x.pc_deliver _ _ with hpc | hpc
    · exact .unloaded (.inl hpc)
    · exact .unloaded (.inr (.inr hpc))
  | finish => exact .unloaded (.inl (x.pc_finish _))
  | @park chan tail r hreads hn =>
    have hlive : x.kind.live = true := by
      rcases hreads with ⟨-, hk, -⟩ | ⟨hpc, -⟩
      · exact hk
      · exact h.missed _ _ _ hpc
    refine ⟨?_, hfresh, ?_, fun chan' tail' hp => ?_⟩
    · rw [x.pc_park]
      nofun
    · rw [x.pc_park]
      nofun
    · rw [x.pc_park] at hp
      cases hp
      rw [x.kind_park, x.start_park]
      exact ⟨hlive, hr.tail_le hx hreads hn⟩
  | catchup => exact .unloaded (.inl (pc_catchup _ _ _))
  | expire | quit => exact .unloaded (.inl rfl)
  | _ => exact ⟨nofun, hfresh, nofun, nofun⟩

/-- A step of the others keeps what holds of a reader. -/
theorem Waits.channels (h : Waits st x) (hc : Channels st st') (hcount : x.counted = true → 0 < st.total) :
    Waits st' x := by
  refine ⟨fun chan hp => (h.chan chan hp).trans hc.waiter, fun hk chan tail hl => ?_, h.missed, h.parked⟩
  obtain ⟨hchan, hf⟩ := h.fresh hk chan tail hl
  refine ⟨hchan.trans hc.waiter, ?_⟩
  have hpos : 0 < st.total := by
    refine hcount ?_
    unfold counted
    rw [hk, Bool.true_and, decide_eq_true_iff]
    intro hpc
    rw [hpc] at hl
    cases hl
  have hw := hc.waiter
  rcases hc.swapping hpos with ⟨ht, hs⟩ | hs
  · rcases hf with hf | hf | hf
    · exact .inl (ht ▸ hf)
    · exact .inr (.inl (lt_of_lt_of_le hf hw))
    · rcases hs hf with hs | hs
      · exact .inr (.inr hs)
      · exact .inr (.inl (lt_of_le_of_lt hchan hs))
  · exact .inr (.inr hs)

/-- The count of readers is exact. -/
theorem count_moved {rs : List Reader} {total leaving : Nat}
    (h : st.total = st.readers.countP counted + st.leaving) (hm : Moved L cfg st e rs total leaving) :
    total = rs.countP counted + leaving := by
  cases hm with
  | @arrive kind offset _ =>
    rw [countP_append, countP_singleton, State.register, h]
    have hc : (newReader kind offset).counted = kind.live := by
      unfold counted newReader
      simp
    rw [hc]
    split <;> omega
  | @move i x x' total leaving hx _ _ hcount =>
    obtain ⟨hi, rfl⟩ := List.getElem?_eq_some_iff.mp hx
    have hpos : st.readers[i].counted.toNat ≤ st.readers.countP counted := by
      cases hcx : st.readers[i].counted with
      | false => exact zero_le _
      | true => exact countP_pos_iff.mpr ⟨_, getElem_mem hi, hcx⟩
    have hite : ∀ b : Bool, (if b = true then 1 else 0) = b.toNat := fun b => by cases b <;> rfl
    rw [countP_set hi, hite, hite]
    omega
  | leave hl => omega

end Readers

namespace WakeInv

variable {L : GoLib} {cfg : Config} {st st' : State}

theorem channels (h : WakeInv st) (hc : Channels st st') (hrs : st'.readers = st.readers) (ht : st'.total = st.total)
    (hl : st'.leaving = st.leaving) : WakeInv st' := by
  refine ⟨by rw [ht, hrs, hl]; exact h.count, hc.closing h.closing, ?_⟩
  rw [hrs]
  intro x hx
  refine (h.waits x hx).channels hc fun hcx => ?_
  have := countP_pos_iff.mpr ⟨x, hx, hcx⟩
  have := h.count
  omega

/-- **Every step keeps the invariant.** -/
theorem step (h : WakeInv st) (hr : Reading cfg st) (he : st.step L cfg e = some st') : WakeInv st' := by
  rcases frame_of_step he with ⟨rs, total, leaving, hm, rfl⟩ | ⟨hrs, ht, hl, -⟩
  · refine ⟨count_moved h.count hm, h.closing, fun x hx => ?_⟩
    have hw : Waits st x := hm.forall h.waits (fun _ _ _ => .unloaded (.inr (.inl rfl)))
      (fun i x x' hx hmove _ hw => hw.move hr (mem_of_getElem? hx) hmove) x hx
    exact ⟨hw.chan, hw.fresh, hw.missed, hw.parked⟩
  · rcases step_cases he with ⟨rs, total, leaving, hm, rfl⟩ | ⟨flt, now, batch, hp⟩ | ⟨ok, hc⟩ | hp |
      ⟨now, j, stage, -, hp, rfl⟩ | ⟨now, hf⟩ | ⟨k, hf⟩
    · exact h.channels (.writer rfl rfl rfl rfl rfl rfl) hrs ht hl
    · exact h.channels (.plan hp) hrs ht hl
    · exact h.channels (.commit hc) hrs ht hl
    · exact h.channels (.publish hp) hrs ht hl
    · exact h.channels (.applyStage hp) hrs ht hl
    · exact h.channels (.fire hf) hrs ht hl
    · exact h.channels (.fireStep hf) hrs ht hl

theorem spawn (cfg : Config) (db : Store) (path : Bytes) (m : StreamMeta) : WakeInv (State.spawn cfg db path m) :=
  ⟨rfl, fun _ h => absurd h (not_lt_zero _), nofun⟩

end WakeInv

/-- **No wake-up is lost.** In every run of commits, coalesced wakes, timers and readers, on a stream whose sources are
all stored, a reader that is parked on an open channel below the published tail is owed a broadcast that will close the
channel. -/
theorem no_lost_wakeup (L : GoLib) (cfg : Config) (db : Store) (path : Bytes) (m : StreamMeta) (hc : Catalog db)
    (hm : db.metaAt path = some m) (hroot : Rooted db m) (st : State)
    (hr : Reach (State.step L cfg) Any (State.spawn cfg db path m) st) (x : Reader) (hx : x ∈ st.readers)
    (chan tail : Nat)
    (hp : x.pc = .parked chan tail) (hopen : chan ∉ st.shut) (hold : x.start.seq < st.s.tail) : st.Owes chan := by
  obtain ⟨-, h⟩ := hr.invariant (P := fun st => Reading cfg st ∧ WakeInv st)
    (fun _ _ _ h _ he => ⟨h.1.step he, h.2.step h.1 he⟩)
    ⟨Reading.spawn hc hm hroot, WakeInv.spawn cfg db path m⟩
  obtain ⟨hlive, hle⟩ := (h.waits x hx).parked chan tail hp
  obtain ⟨hchan, hf⟩ := (h.waits x hx).fresh hlive chan tail (by rw [hp]; rfl)
  rcases Nat.lt_or_eq_of_le hchan with hlt | heq
  · exact .inr ((h.closing chan hlt).resolve_left hopen)
  · refine .inl ⟨heq, ?_⟩
    rcases hf with hf | hf | hf
    · omega
    · omega
    · exact hf

/-- A record is published while the reader is parked: the publisher owes it a broadcast. -/
theorem no_lost_wakeup_record : ∃ st x,
    Reach (State.step plainLib liveConfig) Any liveStart st ∧
    x ∈ st.readers ∧ x.pc = .parked 0 0 ∧ x.start.seq < st.s.tail ∧ st.Owes 0 := by
  obtain ⟨st, hst, x, hx, hpc, hopen, hold⟩ : ∃ st ∈ run (State.step plainLib liveConfig) liveStart
      (parkEvents ++ appendEvents), ∃ x ∈ st.readers[0]?, x.pc = .parked 0 0 ∧ 0 ∉ st.shut ∧
      x.start.seq < st.s.tail := by decide
  have hr := reach_any hst
  have hmem := mem_of_getElem? hx
  exact ⟨st, x, hr, hmem, hpc, hold, no_lost_wakeup plainLib _ _ samplePath sampleMeta catalog_liveServer
    metaAt_liveServer (.plain rfl) st hr x hmem 0 0 hpc hopen hold⟩

/-- **A reader that nobody wakes**: the source of a fork has expired, and a long-poll from the start of the fork finds
nothing up to the tail. It parks below the tail with no broadcast owed. -/
theorem orphan_never_woken : ∃ srv m st x, Reach (Server.step plainLib) Any (newServer ∅ 0) srv ∧
    srv.db.metaAt forkPath = some m ∧
    Reach (State.step plainLib liveConfig) Any (State.spawn liveConfig srv.db forkPath m) st ∧
    x ∈ st.readers ∧ x.pc = .parked 0 1 ∧ 0 ∉ st.shut ∧ x.start.seq < st.s.tail ∧ ¬ st.Owes 0 := by
  obtain ⟨srv, hs, m, hm, st, hst, x, hx, hpc, hopen, hold, hpend, hfires, hpub⟩ :
      ∃ srv ∈ run (Server.step plainLib) (newServer ∅ 0) expiryEvents, ∃ m ∈ srv.db.metaAt forkPath,
      ∃ st ∈ run (State.step plainLib liveConfig) (State.spawn liveConfig srv.db forkPath m)
        (.arrive .longPoll (some {}) :: parkEvents.tail),
      ∃ x ∈ st.readers[0]?, x.pc = .parked 0 1 ∧ 0 ∉ st.shut ∧ x.start.seq < st.s.tail ∧
        st.pending = false ∧ st.fires = [] ∧ st.pub.isNone := by decide +kernel
  refine ⟨srv, m, st, x, reach_any hs, hm, reach_any hst, mem_of_getElem? hx, hpc, hopen, hold, ?_⟩
  simp [State.Owes, State.Swapping, State.Closing, hpend, hfires, isNone_iff_eq_none.mp hpub]

/-! ## Closing the channels -/

open Live.State

/-- How often the channel has been closed, or is about to be. -/
def State.closes (st : State) (chan : Nat) : Nat :=
  st.shut.count chan + st.fires.count (.close chan) + (st.pub.map (·.2)).toList.count (.cast (.close chan))

theorem closes_step {L : GoLib} {cfg : Config} {st st' : State} {chan : Nat}
    (he : st.step L cfg e = some st') (h : st.closes chan = if chan < st.waiter then 1 else 0) :
    st'.closes chan = if chan < st'.waiter then 1 else 0 := by
  rcases step_cases he with ⟨rs, total, leaving, -, rfl⟩ | ⟨flt, now, batch, hp⟩ | ⟨ok, hc⟩ | hp |
    ⟨now, j, stage, -, hp, rfl⟩ | ⟨now, hf⟩ | ⟨k, hf⟩
  · exact h
  · obtain ⟨-, ⟨s, responses, -, rfl⟩ | ⟨s, c, -, ⟨-, rfl⟩ | ⟨-, rfl⟩⟩⟩ := plan_cases hp
    all_goals exact h
  · obtain ⟨j, js, -, ⟨-, rfl⟩ | ⟨-, rfl⟩ | ⟨-, rfl⟩⟩ := commit_cases hc
    all_goals exact h
  · obtain ⟨j, js, hpub, -, rfl⟩ := publish_cases hp
    rw [closes, hpub] at h
    exact h
  · rw [closes, hp] at h
    cases stage with
    | cast c =>
      -- a swap retires the channel that it is about to close
      cases c <;> grind [closes, applyStage, broadcast]
    | wake => rcases applyStage_wake cfg st now j with ⟨last, hst⟩ | hst <;> rw [hst] <;> exact h
    | gate => rcases applyStage_gate cfg st now j with ⟨-, hst⟩ | ⟨-, hst⟩ <;> rw [hst] <;> exact h
    | _ => exact h
  · obtain ⟨-, rfl⟩ := fire_cases hf
    simpa [closes] using h
  · unfold closes at h ⊢
    rcases fireStep_cases hf with ⟨hk, rfl⟩ | ⟨chan₀, hk, rfl⟩
    all_goals
      obtain ⟨hlt, hk⟩ := List.getElem?_eq_some_iff.mp hk
      have hfires := (getElem_cons_eraseIdx_perm hlt).count_eq (.close chan)
      rw [hk, count_cons] at hfires
    · rw [(set_perm_cons_eraseIdx hlt (.close st.waiter)).count_eq (.close chan), count_cons]
      grind
    · grind

/-- **No channel is closed twice**: in every run the channels closed or about to be are those swapped out, each once. -/
theorem channels_closed_once {L : GoLib} {cfg : Config} {db : Store} {path : Bytes} {m : StreamMeta} {st : State}
    (hr : Reach (step L cfg) Any (spawn cfg db path m) st) (chan : Nat) :
    st.closes chan = if chan < st.waiter then 1 else 0 :=
  hr.invariant (fun _ _ _ h _ he => closes_step he h) (if_neg (not_lt_zero _)).symm

/-- The publisher has closed the channel of a parked reader. -/
theorem channels_closed_once_record : ∃ st, Reach (step plainLib liveConfig) Any liveStart st ∧ st.shut = [0] ∧
    st.closes 0 = 1 := by
  obtain ⟨st, hst, hshut, hw⟩ : ∃ st ∈ run (step plainLib liveConfig) liveStart
      (parkEvents ++ appendEvents ++ replicate 5 (.applyReader 0)), st.shut = [0] ∧ st.waiter = 1 := by decide
  have hr := reach_any hst
  exact ⟨st, hr, hshut, (channels_closed_once hr 0).trans (by rw [hw]; rfl)⟩

end Yasdb.Live
