import Yasdb.Live.Readers

/-!
# Long-poll clients

A long-poll client asks again and again, each time from the next offset of the last response: data, a timeout at the
tail, or the end of the stream. What it has received is the stream up to that offset (`Received`), as long as a request
that times out answers with the tail at which it has been waiting; otherwise it may be sent past a record
(`timeout_skips_record`).

- `Received.read`: a response with data goes on where the last one ended;
- `Polling.step`: every step keeps what holds of a client;
- `longPoll_receives_all`: **nothing is skipped, and nothing comes twice**.
-/

namespace Yasdb.Live

open Batch Runs List Option Live.State Reader Nat

/-- The bodies that a client has received. -/
def Reader.bodies (x : Reader) : List Bytes := x.got.filterMap Response.body

/-! ## What has been received -/

/-- The bodies hold the log from `first` to `next`. -/
structure Received (isJSON : Bool) (log : Nat → Bytes) (tail : Nat) (first next : Offset) (bodies : List Bytes) :
    Prop where
  firstIn : first.Inside tail
  nextIn : next.Inside tail
  le : first.seq ≤ next.seq
  binary : isJSON = false → bodies.flatten ++ bytesFrom log tail next = bytesFrom log tail first
  json : isJSON = true → ∃ messages : List (List Bytes), bodies = messages.map wrapJSONArray ∧
    messages.flatten = entries log first.seq next.seq

namespace Received

variable {isJSON : Bool} {log log' : Nat → Bytes} {tail tail' : Nat} {first next : Offset} {bodies : List Bytes}

theorem nothing (h : first.Inside tail) : Received isJSON log tail first first [] :=
  ⟨h, h, le_refl _, fun _ => rfl, fun _ => ⟨[], rfl, (entries_of_le log (le_refl _)).symm⟩⟩

theorem grow (h : Received isJSON log tail first next bodies) (ht : tail ≤ tail')
    (hlog : ∀ n, n < tail → log' n = log n) :
    Received isJSON log' tail' first next bodies := by
  refine ⟨h.firstIn.mono ht, h.nextIn.mono ht, h.le, fun hj => ?_, fun hj => ?_⟩
  · rw [bytesFrom_grow log' h.nextIn ht, bytesFrom_grow log' h.firstIn ht, bytesFrom_congr next hlog,
      bytesFrom_congr first hlog, ← append_assoc, h.binary hj]
  · obtain ⟨messages, hb, hm⟩ := h.json hj
    have hle : next.seq ≤ tail := by
      rcases h.nextIn with h | h <;> omega
    exact ⟨messages, hb, hm.trans (entries_congr fun n _ hn => (hlog n (by omega)).symm)⟩

end Received

section Moves

variable {L : GoLib} {cfg : Config} {st st' : State} {x x' : Reader} {e : Event}

/-- What a client of the stream has received. -/
def Receives (L : GoLib) (st : State) (first next : Offset) (bodies : List Bytes) : Prop :=
  Received (isJSONStream L st.s.streamMeta.contentType) (storedEntry st.db st.s.streamMeta) st.s.tail first next bodies

/-- **A response with data goes on where the last one ended.** -/
theorem Receives.read (hs : st.Sound cfg) {first start : Offset} {bodies : List Bytes}
    (h : Receives L st first start bodies)
    {tail : Nat} (ht : tail ≤ st.s.tail) (hlt : start.seq < tail) {r : ReadResult}
    (hr : st.range L cfg {} start tail = .ok r) : Receives L st first r.next (bodies ++ [r.body]) := by
  have htail := hs.tail
  have hlog : ∀ n, n < tail → payloadAt st.db st.s.id st.s.id st.s.streamMeta.forkedFrom st.s.streamMeta.forkOffset n =
      some (storedEntry st.db st.s.streamMeta n) := fun n hn => hs.entry (by omega)
  obtain ⟨-, hle, hin⟩ := range_moves hs (ht.trans htail) hr hlt
  refine ⟨h.firstIn, hin.mono ht, h.le.trans hle, fun hj => ?_, fun hj => ?_⟩
  · unfold State.range at hr
    rw [hj] at hr
    have happ := readRange_binary_append (le_refl _) hlog hlt hr
    have hold := h.binary hj
    rw [bytesFrom_grow _ (.inl hlt) ht, ← happ] at hold
    rw [flatten_append, flatten_singleton, bytesFrom_grow _ hin ht, ← hold]
    simp only [append_assoc]
  · unfold State.range at hr
    rw [hj] at hr
    have hbody := readRange_json_messages (le_refl _) hlog hlt hr
    obtain ⟨messages, hb, hm⟩ := h.json hj
    refine ⟨messages ++ [entries (storedEntry st.db st.s.streamMeta) start.seq r.next.seq], ?_, ?_⟩
    · rw [hb, hbody, map_append, map_singleton]
    · rw [flatten_append, flatten_singleton, hm, entries_append _ h.le hle]

/-! ## Clients -/

/-- What holds of a long-poll client. -/
structure Polling (L : GoLib) (st : State) (x : Reader) : Prop where
  received : Receives L st x.first x.start x.bodies
  last : ∀ resp, x.got.getLast? = some resp → resp.next = x.start
  /-- `offset=now` is resolved when the first request enters -/
  now : x.now = true → x.got = [] ∧ (x.pc = .idle ∨ x.pc = .entered)
  resident : ∀ closed, x.pc ≠ .gotMeta closed
  loaded : ∀ chan tail, x.pc.loaded = some (chan, tail) → tail ≤ st.s.tail ∧ x.start.Inside tail
  /-- it waits at the end -/
  waiting : ∀ tail, (∃ chan, x.pc = .parked chan tail) ∨ x.pc = .expired tail → x.start = tailOffset tail

theorem Polling.unloaded (hrec : Receives L st x.first x.start x.bodies)
    (hlast : ∀ resp, x.got.getLast? = some resp → resp.next = x.start)
    (hnow : x.now = true → x.got = [] ∧ (x.pc = .idle ∨ x.pc = .entered))
    (hpc : x.pc = .idle ∨ x.pc = .entered ∨ x.pc = .loop ∨ ∃ chan, x.pc = .gotChan chan) : Polling L st x := by
  refine ⟨hrec, hlast, hnow, fun _ => ?_, fun _ _ => ?_, fun _ => ?_⟩
  all_goals
    rcases hpc with h | h | h | ⟨_, h⟩
    all_goals
      rw [h]
      simp [Pc.loaded]

theorem Polling.answered {resp : Response} (hrec : Receives L st x.first resp.next (x.bodies ++ resp.body.toList))
    (hnow : x.now = false) : Polling L st (x.reply resp) := by
  refine .unloaded ?_ (fun resp' h => ?_) (fun hn => ?_) (.inl rfl)
  · have hb : (x.reply resp).bodies = x.bodies ++ resp.body.toList := by
      unfold reply bodies
      rw [filterMap_append]
      cases h : resp.body with
      | none => simp [h]
      | some b => simp [h]
    rw [hb]
    exact hrec
  · unfold reply at h ⊢
    rw [getLast?_append, getLast?_singleton, some_or, some.injEq] at h
    rw [← h]
  · rw [show (x.reply resp).now = x.now from rfl, hnow] at hn
    cases hn

theorem Polling.move (hr : Reading cfg st) (hx : x ∈ st.readers) (hk : x.kind = .longPoll) (h : Polling L st x)
    (hm : Move L cfg st x x') (hexp : ∀ tail, x.pc = .expired tail → tail = st.s.tail) : Polling L st x' := by
  have hnow : x.pc ≠ .idle → x.pc ≠ .entered → x.now = false := by
    intro h1 h2
    cases hn : x.now with
    | false => rfl
    | true => exact absurd (h.now hn).2 (not_or.mpr ⟨h1, h2⟩)
  -- at the tail that it has loaded, the client is at the end
  have hend : ∀ {chan tail closed r}, Reads L cfg st x chan tail closed r → r.next = x.start →
    x.start = tailOffset tail :=
    fun hreads hn => (h.loaded _ _ hreads.loaded).2.eq_tailOffset (hr.tail_le hx hreads hn)
  have hreading : ∀ {chan tail closed r}, Reads L cfg st x chan tail closed r → x.now = false := by
    intro chan tail closed r hreads
    have hl := hreads.loaded
    refine hnow (fun hp => ?_) (fun hp => ?_)
    all_goals
      rw [hp] at hl
      cases hl
  have hloaded : ∀ chan tail, x'.pc.loaded = some (chan, tail) → tail ≤ st.s.tail ∧ x'.start.Inside tail := by
    intro chan tail hl
    obtain ⟨hstart, hold⟩ := loaded_of_move hr.sound hm hl
    rw [hstart]
    rcases hold with hl | ⟨-, -, -, rfl | ⟨closed, hpc⟩⟩
    · exact h.loaded chan tail hl
    · exact ⟨le_refl _, h.received.nextIn⟩
    · exact absurd hpc (h.resident closed)
  cases hm with
  | request => exact .unloaded h.received h.last (fun hn => ⟨(h.now hn).1, .inr rfl⟩) (.inr (.inl rfl))
  | enterNow _ hn =>
    have hgot := (h.now hn).1
    refine .unloaded ?_ (fun resp hl => ?_) nofun (.inr (.inr (.inl rfl)))
    · rw [hgot]
      exact .nothing (.inr ⟨rfl, rfl⟩)
    · rw [show _ = x.got from rfl, hgot] at hl
      cases hl
  | enter _ hn =>
    rw [hk, show Kind.live .longPoll = true from rfl, Bool.and_true] at hn
    exact .unloaded h.received h.last (fun hn' => absurd (hn.symm.trans hn') nofun) (.inr (.inr (.inl rfl)))
  | loadChan hpc =>
    have hn := hnow (by rw [hpc]; nofun) (by rw [hpc]; nofun)
    exact .unloaded h.received h.last (fun hn' => absurd (hn.symm.trans hn') nofun) (.inr (.inr (.inr ⟨_, rfl⟩)))
  | loadTail hpc =>
    have hn : x.now = false := by
      rcases hpc with hpc | ⟨hpc, -⟩
      all_goals exact hnow (by rw [hpc]; nofun) (by rw [hpc]; nofun)
    exact ⟨h.received, h.last, fun hn' => absurd (hn.symm.trans hn') nofun, nofun, hloaded, by simp⟩
  | loadClosed hpc =>
    have hn := hnow (by rw [hpc]; nofun) (by rw [hpc]; nofun)
    exact ⟨h.received, h.last, fun hn' => absurd (hn.symm.trans hn') nofun, nofun, hloaded, by simp⟩
  | loadMeta _ hd =>
    rw [hk] at hd
    cases hd
  | loadStored hpc => exact absurd hpc (h.resident _)
  | miss hpc =>
    have hn := hnow (by rw [hpc]; nofun) (by rw [hpc]; nofun)
    exact ⟨h.received, h.last, fun hn' => absurd (hn.symm.trans hn') nofun, nofun, hloaded, by simp⟩
  | @deliver chan tail closed r hreads hn =>
    have hrange := (hr.reads hx hreads).2
    have hlt : x.start.seq < tail := by
      by_contra hge
      exact hn (range_rest hrange (not_lt.mp hge))
    have hrec := h.received.read hr.sound (h.loaded chan tail hreads.loaded).1 hlt hrange
    unfold deliver
    rw [hk]
    exact .answered hrec (hreading hreads)
  | @finish chan tail r hreads hn =>
    -- the tail that the client is told is where it stands
    have hstart := hend hreads hn
    unfold finish
    rw [hk]
    refine .answered ?_ (hreading hreads)
    rw [← hstart, toList_none, append_nil]
    exact h.received
  | @park chan tail r hreads hn =>
    have hstart := hend hreads hn
    have hnow := hreading hreads
    unfold park at hloaded ⊢
    rw [if_neg (by rw [hk]; exact fun hs => nomatch hs.1)] at hloaded ⊢
    refine ⟨h.received, h.last, fun hn' => absurd (hnow.symm.trans hn') nofun, nofun, hloaded, fun tail' hp => ?_⟩
    rcases hp with ⟨_, hp⟩ | hp
    · cases hp
      exact hstart
    · cases hp
  | catchup _ hd =>
    rw [hk] at hd
    cases hd
  | wake hpc =>
    have hn := hnow (by rw [hpc]; nofun) (by rw [hpc]; nofun)
    exact .unloaded h.received h.last (fun hn' => absurd (hn.symm.trans hn') nofun) (.inr (.inr (.inl rfl)))
  | @timeout chan tail hpc _ =>
    have hn := hnow (by rw [hpc]; nofun) (by rw [hpc]; nofun)
    refine ⟨h.received, h.last, fun hn' => absurd (hn.symm.trans hn') nofun, nofun, hloaded, fun tail' hp => ?_⟩
    rcases hp with ⟨_, hp⟩ | hp
    · cases hp
    · cases hp
      exact h.waiting tail (.inl ⟨chan, hpc⟩)
  | @expire tail hpc =>
    -- the tail has not moved since the client parked
    have hstart := h.waiting tail (.inr hpc)
    rw [hexp tail hpc] at hstart
    refine .answered ?_ (hnow (by rw [hpc]; nofun) (by rw [hpc]; nofun))
    rw [← hstart, toList_none, append_nil]
    exact h.received
  | quit => exact .unloaded h.received h.last (fun hn => ⟨(h.now hn).1, .inl rfl⟩) (.inl rfl)

/-! ## Runs -/

/-- A client starts from an offset of the published log, and when the answer to a request that has timed out loads the
tail, it is the one at which the reader has been waiting. -/
def PollsSettled (st : State) (e : Event) : Prop :=
  (∀ o, e = .arrive .longPoll (some o) → o.Inside st.s.tail) ∧
    ∀ i flt x tail, e = .advance i flt → st.readers[i]? = some x → x.pc = .expired tail → tail = st.s.tail

/-- **Every step keeps what holds of a client.** -/
theorem Polling.step (hr : Reading cfg st) (h : ∀ x ∈ st.readers, x.kind = .longPoll → Polling L st x)
    (hg : PollsSettled st e) (he : st.step L cfg e = some st') :
    ∀ x ∈ st'.readers, x.kind = .longPoll → Polling L st' x := by
  obtain ⟨hs', f⟩ := Sound.step hr.sound he
  rcases frame_of_step he with ⟨rs, total, leaving, hm, rfl⟩ | ⟨hrs, -⟩
  · intro x hx
    have hw : x.kind = .longPoll → Polling L st x := by
      refine hm.forall h (fun kind offset hev hk => ?_) (fun i x x' hx hmove hexp hw hk => ?_) x hx
      · have hk : kind = .longPoll := hk
        subst hk
        cases offset with
        | none =>
          refine .unloaded (.nothing ?_) nofun (fun _ => ⟨rfl, .inr rfl⟩) (.inr (.inl rfl))
          exact (Nat.eq_zero_or_pos st.s.tail).elim (fun h => .inr ⟨h.symm, rfl⟩) Or.inl
        | some o => exact .unloaded (.nothing (hg.1 o hev)) nofun nofun (.inr (.inl rfl))
      · rw [hmove.kind] at hk
        refine (hw hk).move hr (mem_of_getElem? hx) hk hmove fun tail hpc => ?_
        obtain ⟨flt, hev⟩ := hexp tail hpc
        exact hg.2 i flt x tail hev hx hpc
    exact fun hk => ⟨(hw hk).received, (hw hk).last, (hw hk).now, (hw hk).resident, (hw hk).loaded, (hw hk).waiting⟩
  · rw [hrs]
    intro x hx hk
    have hw := h x hx hk
    refine ⟨?_, hw.last, hw.now, hw.resident, fun chan tail hl => ?_, hw.waiting⟩
    · unfold Receives
      rw [f.contentType]
      exact hw.received.grow f.tail fun n hn => f.entry hr.sound hs' (lt_of_lt_of_le hn hr.sound.tail)
    · obtain ⟨hle, hin⟩ := hw.loaded chan tail hl
      exact ⟨hle.trans f.tail, hin⟩

end Moves

/-- **Long-poll clients receive everything.** If clients start from offsets of the published log and requests that time
out answer with the tail at which they have been waiting, the bodies that a client has received are the stream from its
first offset to the next offset of its last response. -/
theorem longPoll_receives_all (L : GoLib) (cfg : Config) (db : Store) (path : Bytes) (m : StreamMeta) (hc : Catalog db)
    (hm : db.metaAt path = some m) (hroot : Rooted db m) (st : State)
    (hr : Reach (step L cfg) PollsSettled (spawn cfg db path m) st) (x : Reader) (hx : x ∈ st.readers)
    (hk : x.kind = .longPoll) (resp : Response) (hlast : x.got.getLast? = some resp) :
    resp.next.Inside st.s.tail ∧
    (isJSONStream L st.s.streamMeta.contentType = false →
      x.bodies.flatten ++ bytesFrom (storedEntry st.db st.s.streamMeta) st.s.tail resp.next =
        bytesFrom (storedEntry st.db st.s.streamMeta) st.s.tail x.first) ∧
    (isJSONStream L st.s.streamMeta.contentType = true →
      ∃ messages : List (List Bytes), x.bodies = messages.map wrapJSONArray ∧
        messages.flatten = entries (storedEntry st.db st.s.streamMeta) x.first.seq resp.next.seq) := by
  obtain ⟨-, h⟩ := hr.invariant
    (P := fun st => Reading cfg st ∧ ∀ x ∈ st.readers, x.kind = .longPoll → Polling L st x)
    (fun _ _ _ h hg he => ⟨h.1.step he, Polling.step h.1 h.2 hg he⟩)
    ⟨Reading.spawn hc hm hroot, nofun⟩
  have hx := h x hx hk
  rw [hx.last resp hlast]
  exact ⟨hx.received.nextIn, hx.received.binary, hx.received.json⟩

/-- No client arrives with an offset, and none has expired. -/
def settling (st : State) (e : Event) : Bool :=
  !(e matches .arrive _ (some _)) && st.readers.all fun x => !(x.pc matches .expired _)

/-- A client waits at the end, is woken by a record, and receives it. -/
theorem longPoll_receives_record : ∃ st x resp,
    Reach (step plainLib liveConfig) PollsSettled liveStart st ∧ x ∈ st.readers ∧ x.bodies = [[7]] ∧
    x.got.getLast? = some resp ∧ resp.next.Inside st.s.tail ∧
    (isJSONStream plainLib st.s.streamMeta.contentType = false →
      x.bodies.flatten ++ bytesFrom (storedEntry st.db st.s.streamMeta) st.s.tail resp.next =
        bytesFrom (storedEntry st.db st.s.streamMeta) st.s.tail x.first) ∧
    (isJSONStream plainLib st.s.streamMeta.contentType = true →
      ∃ messages : List (List Bytes), x.bodies = messages.map wrapJSONArray ∧
        messages.flatten = entries (storedEntry st.db st.s.streamMeta) x.first.seq resp.next.seq) := by
  obtain ⟨st, hst, x, hx, hk, hbodies, hlast⟩ : ∃ st ∈ run (guarded (step plainLib liveConfig) fun st e =>
      settling st e) liveStart (parkEvents ++ appendEvents ++ List.replicate 5 (.applyReader 0) ++
      .wake 0 :: List.replicate 4 (.advance 0 {})), ∃ x ∈ st.readers[0]?, x.kind = .longPoll ∧ x.bodies = [[7]] ∧
      x.got.getLast?.isSome := by decide +kernel
  obtain ⟨resp, hlast⟩ := isSome_iff_exists.mp hlast
  have hr : Reach (step plainLib liveConfig) PollsSettled liveStart st := by
    refine Reach.mono (fun st e hg => ?_) (reach_guarded hst)
    obtain ⟨hg₁, hg₂⟩ := Bool.and_eq_true_iff.mp hg
    refine ⟨fun o he => ?_, fun i flt x tail _ hx hpc => ?_⟩
    · rw [he] at hg₁
      cases hg₁
    · have hne := List.all_eq_true.mp hg₂ x (mem_of_getElem? hx)
      rw [hpc] at hne
      cases hne
  have hmem := mem_of_getElem? hx
  exact ⟨st, x, resp, hr, hmem, hbodies, hlast, longPoll_receives_all plainLib _ _ samplePath sampleMeta
    catalog_liveServer metaAt_liveServer (.plain rfl) st hr x hmem hk resp hlast⟩

/-- A client times out, a record is published, and then the client is answered. -/
def timeoutEvents : List Event := parkEvents ++ [.timeout 0] ++ appendEvents ++ [.advance 0 {}]

/-- The timed out client is sent past a record that it has not received. -/
theorem timeout_skips_record : ∃ st x resp, Reach (step plainLib liveConfig) Any liveStart st ∧
    x ∈ st.readers ∧ x.kind = .longPoll ∧ x.got.getLast? = some resp ∧
    isJSONStream plainLib st.s.streamMeta.contentType = false ∧
    x.bodies.flatten ++ bytesFrom (storedEntry st.db st.s.streamMeta) st.s.tail resp.next ≠
      bytesFrom (storedEntry st.db st.s.streamMeta) st.s.tail x.first := by
  obtain ⟨st, hst, x, hx, resp, hresp, hk, hrest⟩ : ∃ st ∈ run (step plainLib liveConfig) liveStart timeoutEvents,
      ∃ x ∈ st.readers[0]?, ∃ resp ∈ x.got.getLast?, x.kind = .longPoll ∧
      isJSONStream plainLib st.s.streamMeta.contentType = false ∧ x.bodies.flatten ++ bytesFrom
      (storedEntry st.db st.s.streamMeta) st.s.tail resp.next ≠ bytesFrom (storedEntry st.db st.s.streamMeta) st.s.tail
      x.first := by decide +kernel
  exact ⟨st, x, resp, reach_any hst, mem_of_getElem? hx, hk, hresp, hrest⟩

end Yasdb.Live
