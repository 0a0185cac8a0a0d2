import Yasdb.Live.Agreement

/-!
# What live readers read

A reader works with the tail that it loaded in its round, which is never beyond the stored log (`Reading`). So what it
reads, from the cache or from the store, are records of the stream, and below the loaded tail it always moves on.

- `loaded_of_move`: where a loaded tail comes from;
- `Reading.reads`: what a live reader reads is `readRange` of the stored log.
-/

namespace Yasdb.Live

open Batch Runs Live.State Nat

variable {chan : Nat} {closed : Bool}

/-- The waiter channel and the tail that a reader has loaded in this round. -/
def Pc.loaded : Pc → Option (Nat × Nat)
  | .gotTail chan tail | .gotState chan tail _ | .missed chan tail _ | .parked chan tail => some (chan, tail)
  | _ => none

/-! ## Readers that answer -/

namespace Reader

variable (x : Reader)

theorem pc_deliver (closed : Bool) (r : ReadResult) :
    (x.deliver closed r).1.pc = .idle ∨ (x.deliver closed r).1.pc = .loop := by
  unfold deliver
  split
  · exact .inl rfl
  · split
    · exact .inl rfl
    · exact .inr rfl
  · exact .inl rfl

theorem got_deliver (closed : Bool) (r : ReadResult) : (x.deliver closed r).1.start = r.next ∧
    ∃ resp, (x.deliver closed r).1.got = x.got ++ [resp] ∧ resp.body = some r.body ∧ resp.next = r.next ∧
      (resp.closed = true → closed = true ∧ r.upToDate = true) := by
  unfold deliver
  split
  · exact ⟨rfl, _, rfl, rfl, rfl, nofun⟩
  · split <;> exact ⟨rfl, _, rfl, rfl, rfl, fun h => by simpa using h⟩
  · exact ⟨rfl, _, rfl, rfl, rfl, fun h => by simpa using h⟩

theorem got_finish (tail : Nat) : ∃ resp, (x.finish tail).got = x.got ++ [resp] ∧ resp.body = none ∧
    (x.finish tail).start = resp.next ∧ resp.next = if x.kind = .cursor then x.start else tailOffset tail := by
  unfold finish
  split
  · rename_i hk
    exact ⟨_, rfl, rfl, rfl, by rw [if_pos hk]⟩
  · rename_i hk
    exact ⟨_, rfl, rfl, rfl, by rw [if_neg hk]⟩

theorem got_park (chan tail : Nat) {resp : Response} (h : resp ∈ (x.park chan tail).got) :
    resp ∈ x.got ∨ resp.closed = false := by
  unfold park at h
  split at h
  · rcases List.mem_append.mp h with h | h
    · exact .inl h
    · rw [List.mem_singleton.mp h]
      exact .inr rfl
  · exact .inl h

theorem pc_finish (tail : Nat) : (x.finish tail).pc = .idle := by
  unfold finish
  split <;> rfl

theorem pc_park (chan tail : Nat) : (x.park chan tail).pc = .parked chan tail := by
  unfold park
  split <;> rfl

theorem start_park (chan tail : Nat) : (x.park chan tail).start = x.start := by
  unfold park
  split <;> rfl

theorem kind_deliver (closed : Bool) (r : ReadResult) : (x.deliver closed r).1.kind = x.kind := by
  unfold deliver
  split
  · rfl
  · split <;> rfl
  · rfl

theorem kind_finish (tail : Nat) : (x.finish tail).kind = x.kind := by
  unfold finish
  split <;> rfl

theorem kind_park (chan tail : Nat) : (x.park chan tail).kind = x.kind := by
  unfold park
  split <;> rfl

end Reader

section Moves

variable {L : GoLib} {cfg : Config} {st st' : State} {x x' : Reader}

theorem pc_catchup (flt : ReadFaults) (tail : Nat) (closed : Bool) :
    (st.catchup L cfg flt x tail closed).pc = .idle := by
  unfold catchup
  split
  · rfl
  · split <;> rfl

theorem kind_catchup (flt : ReadFaults) (tail : Nat) (closed : Bool) :
    (st.catchup L cfg flt x tail closed).kind = x.kind := by
  unfold catchup
  split
  · rfl
  · split <;> rfl

theorem Move.kind (h : Move L cfg st x x') : x'.kind = x.kind := by
  cases h with
  | deliver => exact x.kind_deliver _ _
  | finish => exact x.kind_finish _
  | park => exact x.kind_park _ _
  | catchup => exact kind_catchup _ _ _
  | _ => rfl

theorem Reads.loaded {tail : Nat} {r : ReadResult} (h : Reads L cfg st x chan tail closed r) :
    x.pc.loaded = some (chan, tail) := by
  rcases h with ⟨hpc, -⟩ | ⟨hpc, -⟩
  · rw [hpc]; rfl
  · rw [hpc]; rfl

/-- **Where a loaded tail comes from**: it has been loaded before, or it is the published or the stored tail of now. -/
theorem loaded_of_move (hs : st.Sound cfg) (h : Move L cfg st x x') {tail : Nat}
    (hl : x'.pc.loaded = some (chan, tail)) :
    x'.start = x.start ∧ (x.pc.loaded = some (chan, tail) ∨
      (st.s.tail ≤ tail ∧ tail ≤ loadTailSeq st.db st.s.id ∧ (x.pc = .gotChan chan ∨ chan = st.waiter) ∧
        (tail = st.s.tail ∨ ∃ closed, x.pc = .gotMeta closed))) := by
  cases h with
  | loadTail h =>
    cases hl
    exact ⟨rfl, .inr ⟨le_refl _, hs.tail, h.imp_right And.right, .inl rfl⟩⟩
  | loadStored h =>
    cases hl
    exact ⟨rfl, .inr ⟨hs.tail, le_refl _, .inr rfl, .inr ⟨_, h⟩⟩⟩
  | loadClosed h =>
    cases hl
    exact ⟨rfl, .inl (by rw [h]; rfl)⟩
  | miss h _ =>
    cases hl
    exact ⟨rfl, .inl (by rw [h]; rfl)⟩
  | deliver =>
    rcases x.pc_deliver _ _ with hpc | hpc
    · rw [hpc] at hl; cases hl
    · rw [hpc] at hl; cases hl
  | finish => rw [x.pc_finish] at hl; cases hl
  | park hr =>
    rw [x.pc_park] at hl
    cases hl
    exact ⟨x.start_park _ _, .inl hr.loaded⟩
  | catchup => rw [pc_catchup] at hl; cases hl
  | _ => cases hl

end Moves

/-! ## The invariant -/

/-- The readers have loaded tails of the stored log. -/
structure Reading (cfg : Config) (st : State) : Prop where
  sound : st.Sound cfg
  cache : CacheInv st
  loaded : ∀ x ∈ st.readers, ∀ chan tail, x.pc.loaded = some (chan, tail) → tail ≤ loadTailSeq st.db st.s.id

namespace Reading

variable {L : GoLib} {cfg : Config} {st st' : State}

theorem step (h : Reading cfg st) {e : Event} (he : st.step L cfg e = some st') : Reading cfg st' := by
  obtain ⟨hs', f⟩ := Sound.step h.sound he
  refine ⟨hs', h.cache.step h.sound he, ?_⟩
  rcases frame_of_step he with ⟨rs, total, leaving, hm, rfl⟩ | ⟨hrs, -⟩
  · refine hm.forall (P := fun x => ∀ chan tail, x.pc.loaded = some (chan, tail) → tail ≤ loadTailSeq st.db st.s.id)
      h.loaded nofun fun i x x' _ hmove _ hx chan tail hl => ?_
    rcases (loaded_of_move h.sound hmove hl).2 with hl | ⟨-, hle, -⟩
    · exact hx chan tail hl
    · exact hle
  · rw [hrs]
    exact fun x hx chan tail hl => (h.loaded x hx chan tail hl).trans (f.stored_le h.sound)

theorem spawn {db : Store} {path : Bytes} {m : StreamMeta} (hc : Catalog db) (hm : db.metaAt path = some m)
    (hroot : Rooted db m) : Reading cfg (spawn cfg db path m) :=
  ⟨Written.spawn cfg.durability hc hm hroot, CacheInv.spawn cfg db path m, nofun⟩

theorem reads (h : Reading cfg st) {x : Reader} (hx : x ∈ st.readers) {tail : Nat} {r : ReadResult}
    (hr : Reads L cfg st x chan tail closed r) :
    tail ≤ loadTailSeq st.db st.s.id ∧ st.range L cfg {} x.start tail = .ok r := by
  refine ⟨h.loaded x hx chan tail hr.loaded, ?_⟩
  rcases hr with ⟨-, -, hr⟩ | ⟨-, flt, hr⟩
  · obtain ⟨c, hc, ht⟩ := Option.bind_eq_some_iff.mp hr
    exact (h.cache c hc).tryRead (le_refl _) (fun n hn => h.sound.entry hn) ht
  · exact readRange_noFaults hr

end Reading

/-! ## Reading the stored log -/

section Range

variable {L : GoLib} {cfg : Config} {st : State} {start : Offset} {tail : Nat} {r : ReadResult}

theorem Config.one_le_limit (cfg : Config) : 1 ≤ cfg.limit := by
  unfold Config.limit
  split
  · decide
  · omega

theorem range_rest (hr : st.range L cfg {} start tail = .ok r) (h : tail ≤ start.seq) : r.next = start := by
  unfold range readRange at hr
  rw [if_pos h] at hr
  cases hr
  rfl

/-- **Below the tail a reader moves on.** -/
theorem range_moves (hs : st.Sound cfg) (ht : tail ≤ loadTailSeq st.db st.s.id)
    (hr : st.range L cfg {} start tail = .ok r) (h : start.seq < tail) :
    r.next ≠ start ∧ start.seq ≤ r.next.seq ∧ r.next.Inside tail :=
  readRange_moves (le_refl _) (fun _ hn => hs.entry (lt_of_lt_of_le hn ht)) cfg.one_le_limit h hr

theorem Reading.tail_le (h : Reading cfg st) {x : Reader} (hx : x ∈ st.readers)
    (hr : Reads L cfg st x chan tail closed r) (hn : r.next = x.start) : tail ≤ x.start.seq := by
  obtain ⟨ht, hrange⟩ := h.reads hx hr
  by_contra hlt
  exact (range_moves h.sound ht hrange (not_le.mp hlt)).1 hn

end Range

end Yasdb.Live
