import Yasdb.Live.Model

/-!
# The steps of live readers

What a step can do, said once. A step of the readers (`Moved`) leaves what they share; the moves of one reader (`Move`)
are spelled out by what it had loaded and what it finds. Every other step leaves the readers.

- `step_cases`: **the inversion of a step**;
- `frame_of_step`: what a step leaves as it is.
-/

namespace Yasdb.Live

open Batch Lifecycle Option Live.State Reader List

variable {chan tail : Nat} {closed : Bool} {r : ReadResult} {flt : ReadFaults} {e : Event}

section Moves

variable (L : GoLib) (cfg : Config) (st : State)

/-- A live reader that has loaded the state of the stream reads, from the cache or from the store. -/
def Reads (x : Reader) (chan tail : Nat) (closed : Bool) (r : ReadResult) : Prop :=
  (x.pc = .gotState chan tail closed ∧ x.kind.live = true ∧ st.cacheRead L cfg x.start tail = some r) ∨
    (x.pc = .missed chan tail closed ∧ ∃ flt, st.range L cfg flt x.start tail = .ok r)

/-- The moves of a reader. -/
inductive Move (x : Reader) : Reader → Prop where
  | request (h : x.pc = .idle) : Move x { x with pc := .entered }
  | enterNow (h : x.pc = .entered) (hn : x.now = true) (hk : x.kind.live = true) :
      Move x { x with pc := .loop, now := false, start := tailOffset st.s.tail, first := tailOffset st.s.tail }
  | enter (h : x.pc = .entered) (hn : (x.now && x.kind.live) = false) : Move x { x with pc := .loop }
  | loadChan (h : x.pc = .loop) : Move x { x with pc := .gotChan st.waiter }
  | loadTail {chan : Nat} (h : x.pc = .gotChan chan ∨ (x.pc = .loop ∧ chan = st.waiter)) :
      Move x { x with pc := .gotTail chan st.s.tail }
  | loadClosed {chan tail : Nat} (h : x.pc = .gotTail chan tail) :
      Move x { x with pc := .gotState chan tail st.s.closed }
  | loadMeta {m : StreamMeta} (h : x.pc = .loop) (hk : x.kind = .durable) (hm : st.db.metaAt st.s.path = some m) :
      Move x { x with pc := .gotMeta m.closed }
  | loadStored {closed : Bool} (h : x.pc = .gotMeta closed) :
      Move x { x with pc := .gotState st.waiter (loadTailSeq st.db st.s.id) closed }
  | miss {chan tail : Nat} {closed : Bool} (h : x.pc = .gotState chan tail closed) (hk : x.kind.live = true) :
      Move x { x with pc := .missed chan tail closed }
  | deliver {chan tail : Nat} {closed : Bool} {r : ReadResult} (hr : Reads L cfg st x chan tail closed r)
      (hn : r.next ≠ x.start) : Move x (x.deliver closed r).1
  | finish {chan tail : Nat} {r : ReadResult} (hr : Reads L cfg st x chan tail true r) (hn : r.next = x.start) :
      Move x (x.finish tail)
  | park {chan tail : Nat} {r : ReadResult} (hr : Reads L cfg st x chan tail false r) (hn : r.next = x.start) :
      Move x (x.park chan tail)
  | catchup {chan tail : Nat} {closed : Bool} {flt : ReadFaults} (h : x.pc = .gotState chan tail closed)
      (hk : x.kind.live = false) : Move x (st.catchup L cfg flt x tail closed)
  | wake {chan tail : Nat} (h : x.pc = .parked chan tail) (hs : chan ∈ st.shut) : Move x { x with pc := .loop }
  | timeout {chan tail : Nat} (h : x.pc = .parked chan tail) (hk : x.kind = .longPoll) :
      Move x { x with pc := .expired tail }
  | expire {tail : Nat} (h : x.pc = .expired tail) : Move x (x.reply { next := tailOffset st.s.tail, upToDate := true })
  | quit : Move x x.quit

/-- A new reader. -/
def newReader (kind : Kind) (offset : Option Offset) : Reader where
  kind := kind
  now := offset.isNone
  start := offset.getD {}
  first := offset.getD {}

/-- The reader is in a request, and live: it is among `totalReaders`. -/
def Reader.counted (x : Reader) : Bool := x.kind.live && decide (x.pc ≠ .idle)

/-- What becomes of the readers and their counts when one of them arrives, moves or deregisters. -/
inductive Moved (e : Event) : List Reader → Nat → Nat → Prop where
  | arrive {kind : Kind} {offset : Option Offset} (he : e = .arrive kind offset) :
      Moved e (st.readers ++ [newReader kind offset]) (st.register kind) st.leaving
  | move {i : Nat} {x x' : Reader} {total leaving : Nat} (hx : st.readers[i]? = some x) (hm : Move L cfg st x x')
      (he : ∀ tail, x.pc = .expired tail → ∃ flt, e = .advance i flt)
      (hcount : total + st.leaving + x.counted.toNat = st.total + leaving + x'.counted.toNat) :
      Moved e (st.readers.set i x') total leaving
  | leave (h : 0 < st.leaving) : Moved e st.readers (st.total - 1) (st.leaving - 1)

end Moves

section Inversion

variable {L : GoLib} {cfg : Config} {st st' : State}

theorem move_settle {x : Reader}
    (hr : Reads L cfg st x chan tail closed r) : Move L cfg st x (x.settle chan tail closed r).1 := by
  unfold Reader.settle
  split
  · rename_i hn
    exact .deliver hr hn
  · rename_i hn
    have hn : r.next = x.start := not_not.mp hn
    cases closed with
    | true => exact .finish hr hn
    | false => exact .park hr hn

/-- **What one access of a reader does.** -/
theorem move_advance {x : Reader} {out : Reader × Bool}
    (h : st.advance L cfg flt x = some out) : Move L cfg st x out.1 := by
  unfold advance at h
  split at h
  · cases h
  · rename_i hpc
    split at h
    · rename_i hn
      rw [Bool.and_eq_true] at hn
      cases h
      exact .enterNow hpc hn.1 hn.2
    · rename_i hn
      cases h
      exact .enter hpc (by simpa using hn)
  · rename_i hpc
    split at h
    · cases h
      exact .loadTail (.inr ⟨hpc, rfl⟩)
    · rename_i hk
      split at h
      · cases h
        exact .quit
      · rename_i m hm
        cases h
        exact .loadMeta hpc hk hm
    · cases h
      exact .loadChan hpc
  · rename_i chan hpc
    cases h
    exact .loadTail (.inl hpc)
  · rename_i chan tail hpc
    cases h
    exact .loadClosed hpc
  · rename_i closed hpc
    cases h
    exact .loadStored hpc
  · rename_i chan tail closed hpc
    split at h
    · rename_i hk
      split at h
      · rename_i r hr
        cases h
        exact move_settle (.inl ⟨hpc, hk, hr⟩)
      · cases h
        exact .miss hpc hk
    · rename_i hk
      cases h
      exact .catchup hpc (by simpa using hk)
  · rename_i chan tail closed hpc
    split at h
    · cases h
      exact .quit
    · rename_i r hr
      cases h
      exact move_settle (.inr ⟨hpc, flt, hr⟩)
  · cases h
  · rename_i tail hpc
    cases h
    exact .expire hpc

theorem returns_settle {x : Reader} : (x.settle chan tail closed r).1.kind = x.kind ∧
      ((x.settle chan tail closed r).2 = true ↔ (x.settle chan tail closed r).1.pc = .idle) := by
  unfold Reader.settle
  split
  · unfold deliver
    split
    · exact ⟨rfl, iff_of_true rfl rfl⟩
    · split
      · exact ⟨rfl, iff_of_true rfl rfl⟩
      · exact ⟨rfl, iff_of_false nofun nofun⟩
    · exact ⟨rfl, iff_of_true rfl rfl⟩
  · split
    · unfold finish
      split <;> exact ⟨rfl, iff_of_true rfl rfl⟩
    · unfold park
      split <;> exact ⟨rfl, iff_of_false nofun nofun⟩

theorem returns_advance {x : Reader} {out : Reader × Bool} (h : st.advance L cfg flt x = some out) :
    x.pc ≠ .idle ∧ out.1.kind = x.kind ∧ (out.2 = true ↔ out.1.pc = .idle) := by
  unfold advance at h
  split at h
  · cases h
  all_goals
    rename_i hpc
    refine ⟨by rw [hpc]; nofun, ?_⟩
  · split at h <;> cases h <;> exact ⟨rfl, iff_of_false nofun nofun⟩
  · split at h
    · cases h
      exact ⟨rfl, iff_of_false nofun nofun⟩
    · split at h <;> cases h
      · exact ⟨rfl, iff_of_true rfl rfl⟩
      · exact ⟨rfl, iff_of_false nofun nofun⟩
    · cases h
      exact ⟨rfl, iff_of_false nofun nofun⟩
  · cases h
    exact ⟨rfl, iff_of_false nofun nofun⟩
  · cases h
    exact ⟨rfl, iff_of_false nofun nofun⟩
  · cases h
    exact ⟨rfl, iff_of_false nofun nofun⟩
  · split at h
    · split at h <;> cases h
      · exact returns_settle
      · exact ⟨rfl, iff_of_false nofun nofun⟩
    · cases h
      unfold catchup
      split
      · exact ⟨rfl, iff_of_true rfl rfl⟩
      · split <;> exact ⟨rfl, iff_of_true rfl rfl⟩
  · split at h <;> cases h
    · exact ⟨rfl, iff_of_true rfl rfl⟩
    · exact returns_settle
  · cases h
  · cases h
    exact ⟨rfl, iff_of_true rfl rfl⟩

theorem count_setReader (st : State) (i : Nat) {x : Reader} (x' : Reader) (returns : Bool) (hpc : x.pc ≠ .idle)
    (hk : x'.kind = x.kind) (hret : returns = true ↔ x'.pc = .idle) :
    (st.setReader i x' returns).total + st.leaving + x.counted.toNat =
      st.total + (st.setReader i x' returns).leaving + x'.counted.toNat := by
  unfold setReader counted
  rw [hk]
  cases hlive : x.kind.live with
  | false => simp
  | true =>
    cases returns with
    | true => simp [hpc, hret.mp rfl, Nat.add_assoc]
    | false =>
      have hpc' : x'.pc ≠ .idle := fun h => Bool.false_ne_true (hret.mpr h)
      simp [hpc, hpc']

/-- **The inversion of a step**: of the readers, of the writer, of the publisher, or of a fired timer. -/
theorem step_cases (h : st.step L cfg e = some st') : (∃ rs total leaving, Moved L cfg st e rs total leaving ∧
      st' = { st with readers := rs, total := total, leaving := leaving }) ∨
    (∃ flt now batch, st.plan L cfg flt now batch = some st') ∨ (∃ ok, st.commit cfg ok = some st') ∨
    st.publish = some st' ∨
    (∃ now j stage, e = .applyReader now ∧ st.pub = some (j, stage) ∧ st' = st.applyStage cfg now j stage) ∨
    (∃ now, st.fire now = some st') ∨ ∃ k, st.fireStep k = some st' := by
  cases e with
  | plan flt now batch => exact .inr (.inl ⟨flt, now, batch, h⟩)
  | commit ok => exact .inr (.inr (.inl ⟨ok, h⟩))
  | publish => exact .inr (.inr (.inr (.inl h)))
  | applyReader now =>
    obtain ⟨⟨j, stage⟩, hp, rfl⟩ := map_eq_some_iff.mp h
    exact .inr (.inr (.inr (.inr (.inl ⟨now, j, stage, rfl, hp, rfl⟩))))
  | fire now => exact .inr (.inr (.inr (.inr (.inr (.inl ⟨now, h⟩)))))
  | fireStep k => exact .inr (.inr (.inr (.inr (.inr (.inr ⟨k, h⟩)))))
  | arrive kind offset =>
    cases h
    exact .inl ⟨_, _, _, .arrive rfl, rfl⟩
  | request i =>
    obtain ⟨x, hx, h⟩ := bind_eq_some_iff.mp h
    split at h
    · rename_i hpc
      cases h
      refine .inl ⟨_, _, _, .move hx (.request hpc) (fun _ h => by rw [hpc] at h; cases h) ?_, rfl⟩
      unfold register counted
      rw [hpc]
      cases x.kind.live with
      | true => simp; omega
      | false => simp
    · cases h
  | advance i flt =>
    obtain ⟨x, hx, h⟩ := bind_eq_some_iff.mp h
    obtain ⟨out, ho, rfl⟩ := map_eq_some_iff.mp h
    obtain ⟨hpc, hk, hret⟩ := returns_advance ho
    exact .inl ⟨_, _, _, .move hx (move_advance ho) (fun _ _ => ⟨flt, rfl⟩) (count_setReader st i _ _ hpc hk hret), rfl⟩
  | wake i =>
    obtain ⟨x, hx, h⟩ := bind_eq_some_iff.mp h
    split at h
    · rename_i chan tail hpc
      split at h
      · rename_i hs
        cases h
        refine .inl ⟨_, _, _, .move hx (.wake hpc hs) (fun _ h => by rw [hpc] at h; cases h) ?_, rfl⟩
        exact count_setReader st i { x with pc := .loop } false (by rw [hpc]; nofun) rfl (iff_of_false nofun nofun)
      · cases h
    · cases h
  | timeout i =>
    obtain ⟨x, hx, h⟩ := bind_eq_some_iff.mp h
    split at h
    · rename_i chan tail hpc hk
      cases h
      refine .inl ⟨_, _, _, .move hx (.timeout hpc hk) (fun _ h => by rw [hpc] at h; cases h) ?_, rfl⟩
      exact count_setReader st i { x with pc := .expired tail } false (by rw [hpc]; nofun) rfl
        (iff_of_false nofun nofun)
    · rename_i hpc _
      cases h
      refine .inl ⟨_, _, _, .move hx .quit (fun _ h => by rw [hpc] at h; cases h) ?_, rfl⟩
      exact count_setReader st i x.quit true (by rw [hpc]; nofun) rfl (iff_of_true rfl rfl)
    · cases h
  | cancel i =>
    obtain ⟨x, hx, h⟩ := bind_eq_some_iff.mp h
    split at h
    · rename_i hpc
      cases h
      refine .inl ⟨_, _, _, .move hx .quit (fun _ h => by rw [hpc] at h; cases h) ?_, rfl⟩
      exact count_setReader st i x.quit true (by rw [hpc]; nofun) rfl (iff_of_true rfl rfl)
    · cases h
  | leave =>
    simp only [step] at h
    split at h
    · rename_i hl
      cases h
      exact .inl ⟨_, _, _, .leave hl, rfl⟩
    · cases h

theorem wake_cases (cfg : Config) (st : State) (now : Int) :
    (∃ last, st.wake cfg now = ({ st with lastWake := last }, true)) ∨
      st.wake cfg now = ({ st with pending := true }, false) := by
  unfold wake
  split
  · exact .inl ⟨st.lastWake, rfl⟩
  · split
    · exact .inl ⟨some now, rfl⟩
    · split
      · rename_i hp
        right
        rw [← hp]
      · exact .inr rfl

theorem fireStep_cases {k : Nat} (h : st.fireStep k = some st') : (st.fires[k]? = some .swap ∧
      st' = { st with waiter := st.waiter + 1, fires := st.fires.set k (.close st.waiter) }) ∨
    ∃ chan, st.fires[k]? = some (.close chan) ∧
      st' = { st with shut := chan :: st.shut, fires := st.fires.eraseIdx k } := by
  obtain ⟨c, hc, rfl⟩ := map_eq_some_iff.mp h
  cases c with
  | swap => exact .inl ⟨hc, rfl⟩
  | close chan => exact .inr ⟨chan, hc, rfl⟩

theorem fire_cases {now : Int} (h : st.fire now = some st') : st.pending = true ∧
    st' = { st with pending := false, lastWake := some now, fires := st.fires ++ [.swap] } := by
  unfold fire at h
  split at h
  · cases h
    exact ⟨‹_›, rfl⟩
  · cases h

theorem publish_cases (h : st.publish = some st') :
    ∃ j js, st.pub = none ∧ st.landed = j :: js ∧ st' = { st with pub := some (j, .cache), landed := js } := by
  unfold publish at h
  split at h
  · rename_i j js hp hl
    cases h
    exact ⟨j, js, hp, hl, rfl⟩
  · cases h

/-- A burst is answered at once, or handed to the committer. -/
theorem plan_cases {flt : Faults} {now : Int64} {batch : List AppendReq} (h : st.plan L cfg flt now batch = some st') :
    (cfg.durability = .sync → st.planned = [] ∧ st.landed = [] ∧ st.pub = none) ∧
    ((∃ s responses, processBurst L flt st.db now st.s batch = (s, .reply responses) ∧ st' = { st with s := s }) ∨
      ∃ s c, processBurst L flt st.db now st.s batch = (s, .commit c) ∧
        ((cfg.durability = .sync ∧ st' = { st with s := s, planned := [⟨c, st.capture st.s.writeTail c⟩] }) ∨
          (cfg.durability = .notifier ∧
            st' = { st with
              s := applyWriter s c.pend c.metaChanged
              planned := st.planned ++ [⟨c, st.capture st.s.writeTail c⟩] }))) := by
  unfold plan at h
  split at h
  · cases h
  rename_i hfree
  refine ⟨fun hs => ?_, ?_⟩
  · have := not_not.mp fun hn => hfree ⟨hs, hn⟩
    exact ⟨this.1, this.2.1, isNone_iff_eq_none.mp this.2.2⟩
  · split at h
    · rename_i s responses hb
      cases h
      exact .inl ⟨s, responses, hb, rfl⟩
    · rename_i s c hb
      right
      refine ⟨s, c, hb, ?_⟩
      split at h
      · rename_i hm
        cases h
        exact .inl ⟨hm, rfl⟩
      · rename_i hm
        cases h
        exact .inr ⟨hm, rfl⟩

/-- The next burst is committed; the sync committer may fail. -/
theorem commit_cases {ok : Bool} (h : st.commit cfg ok = some st') : ∃ j js, st.planned = j :: js ∧
    ((cfg.durability = .sync ∧ st' = { st with planned := js }) ∨
      (cfg.durability = .sync ∧ st' = { st with
        db := applyOps st.db j.c.ops, s := applyWriter st.s j.c.pend j.c.metaChanged
        planned := js, landed := st.landed ++ [j] }) ∨
      (cfg.durability = .notifier ∧ st' = { st with
        db := applyOps st.db j.c.ops, planned := js, landed := st.landed ++ [j] })) := by
  unfold commit at h
  split at h
  · cases h
  rename_i j js hp
  refine ⟨j, js, hp, ?_⟩
  cases hm : cfg.durability with
  | sync =>
    rw [hm] at h
    cases ok with
    | false =>
      cases h
      exact .inl ⟨rfl, rfl⟩
    | true =>
      cases h
      exact .inr (.inl ⟨rfl, rfl⟩)
  | notifier =>
    rw [hm] at h
    cases ok with
    | false => cases h
    | true =>
      cases h
      exact .inr (.inr ⟨rfl, rfl⟩)

theorem applyStage_gate (cfg : Config) (st : State) (now : Int) (j : Job) :
    (0 < st.total ∧ st.applyStage cfg now j .gate = { st with pub := some (j, .wake) }) ∨
      (st.total = 0 ∧ st.applyStage cfg now j .gate = { st with pub := none }) := by
  rcases Nat.eq_zero_or_pos st.total with h | h
  · exact .inr ⟨h, if_neg (by omega)⟩
  · exact .inl ⟨h, if_pos h⟩

theorem applyStage_wake (cfg : Config) (st : State) (now : Int) (j : Job) :
    (∃ last, st.applyStage cfg now j .wake = { st with lastWake := last, pub := some (j, .cast .swap) }) ∨
      st.applyStage cfg now j .wake = { st with pending := true, pub := none } := by
  unfold applyStage
  rcases wake_cases cfg st now with ⟨last, hw⟩ | hw
  · rw [hw]
    exact .inl ⟨last, rfl⟩
  · rw [hw]
    exact .inr rfl

/-- A step of the readers leaves the rest; any other step leaves the readers, and the cache but for its own stage. -/
theorem frame_of_step (h : st.step L cfg e = some st') : (∃ rs total leaving, Moved L cfg st e rs total leaving ∧
      st' = { st with readers := rs, total := total, leaving := leaving }) ∨
    (st'.readers = st.readers ∧ st'.total = st.total ∧ st'.leaving = st.leaving ∧
      (st'.cache = st.cache ∨ ∃ now j, st.pub = some (j, .cache) ∧ st' = st.applyStage cfg now j .cache)) := by
  rcases step_cases h with hm | ⟨flt, now, batch, hp⟩ | ⟨ok, hc⟩ | hp | ⟨now, j, stage, -, hp, rfl⟩ | ⟨now, hf⟩ |
    ⟨k, hf⟩
  · exact .inl hm
  · obtain ⟨-, ⟨s, responses, -, rfl⟩ | ⟨s, c, -, ⟨-, rfl⟩ | ⟨-, rfl⟩⟩⟩ := plan_cases hp
    all_goals exact .inr ⟨rfl, rfl, rfl, .inl rfl⟩
  · obtain ⟨j, js, -, ⟨-, rfl⟩ | ⟨-, rfl⟩ | ⟨-, rfl⟩⟩ := commit_cases hc
    all_goals exact .inr ⟨rfl, rfl, rfl, .inl rfl⟩
  · obtain ⟨j, js, -, -, rfl⟩ := publish_cases hp
    exact .inr ⟨rfl, rfl, rfl, .inl rfl⟩
  · right
    cases stage with
    | cache => exact ⟨rfl, rfl, rfl, .inr ⟨now, j, hp, rfl⟩⟩
    | gate =>
      rcases applyStage_gate cfg st now j with ⟨-, hst⟩ | ⟨-, hst⟩
      all_goals
        rw [hst]
        exact ⟨rfl, rfl, rfl, .inl rfl⟩
    | wake =>
      rcases applyStage_wake cfg st now j with ⟨last, hst⟩ | hst
      all_goals
        rw [hst]
        exact ⟨rfl, rfl, rfl, .inl rfl⟩
    | cast c => cases c <;> exact ⟨rfl, rfl, rfl, .inl rfl⟩
    | _ => exact ⟨rfl, rfl, rfl, .inl rfl⟩
  · obtain ⟨-, rfl⟩ := fire_cases hf
    exact .inr ⟨rfl, rfl, rfl, .inl rfl⟩
  · rcases fireStep_cases hf with ⟨-, rfl⟩ | ⟨chan, -, rfl⟩
    all_goals exact .inr ⟨rfl, rfl, rfl, .inl rfl⟩

/-- What holds of every reader still does after they moved, if the moves and the new readers see to it. -/
theorem Moved.forall {rs : List Reader} {total leaving : Nat} (h : Moved L cfg st e rs total leaving)
    {P : Reader → Prop}
    (hP : ∀ x ∈ st.readers, P x) (hnew : ∀ kind offset, e = .arrive kind offset → P (newReader kind offset))
    (hmove : ∀ i x x', st.readers[i]? = some x → Move L cfg st x x' →
      (∀ tail, x.pc = .expired tail → ∃ flt, e = .advance i flt) → P x → P x') : ∀ x ∈ rs, P x := by
  intro x hx
  cases h with
  | arrive he =>
    rcases mem_append.mp hx with hx | hx
    · exact hP x hx
    · rw [mem_singleton.mp hx]
      exact hnew _ _ he
  | move hi hm he _ =>
    rcases mem_or_eq_of_mem_set hx with hx | rfl
    · exact hP x hx
    · exact hmove _ _ _ hi hm he (hP _ (mem_of_getElem? hi))
  | leave _ => exact hP x hx

end Inversion

end Yasdb.Live
