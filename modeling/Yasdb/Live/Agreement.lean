import Yasdb.Live.Writer

/-!
# The live cache agrees with the store

In every state of a live streamer the cached records are a range of the stored stream (`CacheInv`): payloads are
captured when a burst is planned and readers are present, cached when the burst is published and readers are present,
and a burst that was not captured leaves a gap at which the window starts anew.

- `CacheInv.step`: every step keeps this;
- `cache_agrees`: **what the cache serves is what `readRange` reads**.
-/

namespace Yasdb.Live

open Batch Runs Live.State

/-- The cached records are records of the stream. -/
def CacheInv (st : State) : Prop :=
  ∀ c, st.cache = some c → Window (storedEntry st.db st.s.streamMeta) (loadTailSeq st.db st.s.id) c.recs

section Step

variable {L : GoLib} {cfg : Config} {st st' : State}

theorem cache_of_step {e : Event} (he : st.step L cfg e = some st') :
    st'.cache = st.cache ∨ ∃ now j, st.pub = some (j, .cache) ∧ st' = st.applyStage cfg now j .cache := by
  rcases frame_of_step he with ⟨rs, total, leaving, -, rfl⟩ | ⟨-, -, -, hc⟩
  · exact .inl rfl
  · exact hc

/-- **Every step keeps the cache a range of the stream.** -/
theorem CacheInv.step (h : CacheInv st) (hs : st.Sound cfg) {e : Event} (he : st.step L cfg e = some st') :
    CacheInv st' := by
  intro c hc
  rcases cache_of_step he with hsame | ⟨now, j, hp, rfl⟩
  · obtain ⟨hs', f⟩ := Sound.step hs he
    rw [hsame] at hc
    exact (h c hc).congr (f.stored_le hs) fun n hn => f.entry hs hs' hn
  · -- the captured payloads of the burst are stored
    obtain ⟨c₀, hc₀, rfl⟩ := Option.map_eq_some_iff.mp hc
    have hw := h c₀ hc₀
    unfold Sound at hs
    rw [hp] at hs
    split
    · rcases (hs.stored j List.mem_cons_self).2 with hnil | ⟨hseg, hb⟩
      · unfold LiveCache.append LiveCache.appendMod
        rw [if_pos hnil]
        exact hw
      · rw [hs.id] at hb
        rw [hseg]
        exact hw.append hb
    · exact Window.nil _ _

end Step

theorem CacheInv.spawn (cfg : Config) (db : Store) (path : Bytes) (m : StreamMeta) :
    CacheInv (spawn cfg db path m) := by
  intro c hc
  unfold State.spawn at hc
  split at hc
  · cases hc
    exact Window.nil _ _
  · cases hc

theorem sound_reach {L : GoLib} {cfg : Config} {C : State → Event → Prop} {db : Store} {path : Bytes} {m : StreamMeta}
    (hc : Catalog db) (hm : db.metaAt path = some m) (hroot : Rooted db m) {st : State}
    (hr : Reach (step L cfg) C (spawn cfg db path m) st) : st.Sound cfg ∧ CacheInv st :=
  hr.invariant (P := fun st => st.Sound cfg ∧ CacheInv st)
    (fun _ _ _ h _ he => ⟨(Sound.step h.1 he).1, h.2.step h.1 he⟩)
    ⟨Written.spawn cfg.durability hc hm hroot, CacheInv.spawn cfg db path m⟩

/-- **The live cache agrees with the store.** For every run of the streamer of a plain stream, and every content kind,
start, tail and limit: what the cache serves is what `readRange` reads from the store at that time. -/
theorem cache_agrees (L : GoLib) (cfg : Config) (db : Store) (path : Bytes) (m : StreamMeta) (hc : Catalog db)
    (hm : db.metaAt path = some m) (hplain : m.forkedFrom = 0) (st : State)
    (hr : Reach (step L cfg) Any (spawn cfg db path m) st) (c : LiveCache) (hcache : st.cache = some c)
    (isJSON : Bool) (start : Offset) (tailSeq limit : Nat) (r : ReadResult)
    (ht : c.tryRead isJSON start tailSeq limit = some r) :
    readRange {} st.db st.s.id st.s.id st.s.streamMeta.forkedFrom st.s.streamMeta.forkOffset isJSON start tailSeq
      limit = .ok r := by
  obtain ⟨h, hw⟩ := sound_reach hc hm (.plain hplain) hr
  exact (hw c hcache).tryRead (Nat.le_refl _) (fun n hn => h.entry hn) ht

/-! ## A sample stream -/

/-- A server on which an empty stream has been created. -/
def liveServer : Server :=
  (newServer ∅ 0).create true
    (createStream plainLib noFaults ∅ (newServer ∅ 0).nextID 0 0 { path := samplePath, contentType := [] })

theorem catalog_liveServer : Catalog liveServer.db :=
  ((ServerInv.start catalog_empty 0).createStream rfl plainLib noFaults true _ 0 0).stored

theorem metaAt_liveServer : liveServer.db.metaAt samplePath = some sampleMeta := by decide

def liveConfig : Config where
  durability := .sync

/-- The streamer of the sample stream. -/
def liveStart : State := spawn liveConfig liveServer.db samplePath sampleMeta

/-- A burst with one record is committed; it is being published, and its tail is stored. -/
def appendEvents : List Event :=
  [.plan noFaults 0 [{ records := [[7]], hasBody := true }], .commit true, .publish, .applyReader 0, .applyReader 0]

/-- A long-poll reader at the end of the stream parks. -/
def parkEvents : List Event := .arrive .longPoll none :: List.replicate 6 (.advance 0 {})

/-- With a reader present, the record of the burst is served from the cache. -/
theorem cache_agrees_record : ∃ st c r,
    Reach (step plainLib liveConfig) Any liveStart st ∧
    st.cache = some c ∧ c.tryRead false {} 1 10 = some r ∧ r.body = [7] ∧
    readRange {} st.db st.s.id st.s.id st.s.streamMeta.forkedFrom st.s.streamMeta.forkOffset false {} 1 10 = .ok r := by
  obtain ⟨st, hst, c, hcache, r, ht, hbody⟩ : ∃ st ∈ run (step plainLib liveConfig) liveStart
      (.arrive .longPoll none :: appendEvents), ∃ c ∈ st.cache, ∃ r ∈ c.tryRead false {} 1 10, r.body = [7] := by decide
  have hr := reach_any hst
  exact ⟨st, c, r, hr, hcache, ht, hbody,
    cache_agrees plainLib _ _ samplePath sampleMeta catalog_liveServer metaAt_liveServer rfl st hr c hcache false {}
    1 10 r ht⟩

end Yasdb.Live
