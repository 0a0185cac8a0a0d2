import Yasdb.Server.RoundTrip
import Yasdb.State

/-!
# Materializing a stream

`Server.Read` and its cursor in process, and `Server.Materialize`, which replays a stream chunk by chunk into a fresh
materializer. What `encoding/json` makes of the records is taken as given (`DecodesMessages`).

- `materializeLoop_eq`: the loop ends, with the fold of all messages or with an error;
- `materialize_last_writer`: **a materialized stream is the last-writer fold of its messages**.
-/

namespace Yasdb

open Batch Runs State List Option Json Server Nat

variable {calls : Nat} {flt : ReadFaults}

/-! ## Cursors -/

/-- The errors of the calls in process. -/
inductive PublicErr where
  | notFound
  | gone
  | notStateProtocolStream
  | streamClosed
  /-- a failure of the store -/
  | store (msg : String)
deriving DecidableEq, Repr

structure StreamInfo where
  streamID : Nat
  contentType : Bytes
  isJSON : Bool
  closed : Bool
  tail : Nat
  forkedFrom : Nat
  forkOffset : Nat
  ttlSeconds : UInt64
  expiresAt : Int64

/-- A catch-up scan, and the offset it goes on from. -/
structure Cursor where
  path : Bytes
  id : Nat
  forkedFrom : Nat
  forkOffset : Nat
  isJSON : Bool
  start : Offset

def Server.info (L : GoLib) (srv : Server) (flt : Faults) (path : Bytes) : Except PublicErr StreamInfo :=
  match loadTombstone flt srv.db path with
  | .error e => .error (.store e)
  | .ok t =>
    if softDeleted t then .error .gone
    else
      match loadMeta flt srv.db path with
      | .error e => .error (.store e)
      | .ok none => .error .notFound
      | .ok (some m) =>
        match srv.liveState flt path with
        | .error e => .error (.store e)
        | .ok (tail, closed) =>
          .ok { streamID := m.streamID, contentType := m.contentType, isJSON := isJSONStream L m.contentType,
                closed := closed, tail := tail, forkedFrom := m.forkedFrom, forkOffset := m.forkOffset,
                ttlSeconds := m.ttlSeconds, expiresAt := m.expiresAt }

def Server.read (L : GoLib) (srv : Server) (flt : Faults) (path : Bytes) (start : Offset) : Except PublicErr Cursor :=
  (srv.info L flt path).map fun info =>
    { path := path, id := info.streamID, forkedFrom := info.forkedFrom, forkOffset := info.forkOffset,
      isJSON := info.isJSON, start := start }

/-- One chunk, the cursor after it, and whether there may be more. -/
def Cursor.next (srv : Server) (flt : ReadFaults) (maxReadBytes : Nat) (c : Cursor) :
    Except PublicErr (Bytes × Cursor × Bool) :=
  match srv.liveState flt.gets c.path with
  | .error e => .error (.store e)
  | .ok (tail, _) =>
    match readRange flt srv.db srv.nextID c.id c.forkedFrom c.forkOffset c.isJSON c.start tail maxReadBytes with
    | .error e => .error (.store e)
    | .ok r => .ok (r.body, { c with start := r.next }, !r.upToDate)

/-! ## Messages in chunks -/

/-- What is used of `encoding/json`: `json.Unmarshal` into a slice of messages, and what it makes of one element of an
array, given by its text. -/
structure StateJSON where
  unmarshal : Bytes → Option (List Message)
  decode : Bytes → Option Message

/-- Arrays are decoded element by element, and what is decoded is JSON. -/
structure DecodesMessages (D : StateJSON) : Prop where
  sound : ∀ r, (D.decode r).isSome → (parse r).isSome
  elements : ∀ records, (∀ r ∈ records, (parse r).isSome) →
    D.unmarshal (wrapJSONArray records) = records.mapM D.decode

/-- The messages of a chunk. -/
def decodeStateMessages (D : StateJSON) (body : Bytes) : Option (List Message) :=
  if body = [] then some [] else D.unmarshal body

/-- The loop of `Materialize`, for at most a number of chunks. -/
def materializeLoop (D : StateJSON) (srv : Server) (flt : ReadFaults) (maxReadBytes : Nat) :
    Nat → Cursor → Materializer → Option (Except PublicErr (Materializer × Offset))
  | 0, _, _ => none
  | calls + 1, c, mat =>
    match c.next srv flt maxReadBytes with
    | .error e => some (.error e)
    | .ok (body, c', more) =>
      match decodeStateMessages D body with
      | none => some (.error .notStateProtocolStream)
      | some msgs =>
        if more then materializeLoop D srv flt maxReadBytes calls c' (mat.applyAll msgs).1
        else some (.ok ((mat.applyAll msgs).1, c'.start))

def Server.materialize (L : GoLib) (D : StateJSON) (srv : Server) (flt : ReadFaults) (maxReadBytes : Nat)
    (path : Bytes) (calls : Nat) : Option (Except PublicErr (Materializer × Offset)) :=
  match srv.read L flt.gets path ⟨0, 0⟩ with
  | .error e => some (.error e)
  | .ok c => materializeLoop D srv flt maxReadBytes calls c {}

/-- What the loop comes to when the records from `start` on are replayed. -/
def replayed (D : StateJSON) (mat : Materializer) (records : List Bytes) (tail : Nat) :
    Except PublicErr (Materializer × Offset) :=
  match records.mapM D.decode with
  | none => .error .notStateProtocolStream
  | some msgs => .ok ((mat.applyAll msgs).1, tailOffset tail)

theorem replayed_append (D : StateJSON) (mat : Materializer) (records records' : List Bytes) (tail : Nat) :
    replayed D mat (records ++ records') tail =
      match records.mapM D.decode with
      | none => .error .notStateProtocolStream
      | some msgs => replayed D (mat.applyAll msgs).1 records' tail := by
  unfold replayed
  rw [mapM_append]
  cases records.mapM D.decode with
  | none => rfl
  | some msgs =>
    cases records'.mapM D.decode with
    | none => rfl
    | some msgs' => simp [Materializer.applyAll_append]

section Loop

variable {D : StateJSON} (hD : DecodesMessages D)
include hD

theorem decode_chunk {records : List Bytes} (h : ∀ r ∈ records, (parse r).isSome) :
    decodeStateMessages D (wrapJSONArray records) = records.mapM D.decode := by
  rw [decodeStateMessages, if_neg (by rw [wrapJSONArray_eq]; exact cons_ne_nil _ _), hD.elements records h]

variable {srv : Server} {c : Cursor} {log : Nat → Bytes} {depth tail maxReadBytes : Nat} (hjson : c.isJSON = true)
  (htail : ∃ closed, srv.liveState noFaults c.path = .ok (tail, closed)) (hdepth : depth ≤ srv.nextID)
  (hlog : ∀ n, n < tail → payloadAt srv.db depth c.id c.forkedFrom c.forkOffset n = some (log n))
  (hparse : ∀ n, n < tail → (parse (log n)).isSome)
include hjson htail hdepth hlog hparse

/-- **The loop replays the log** from its start on, whatever the chunks are. -/
theorem materializeLoop_eq (start : Offset) (hin : start.Inside tail) (mat : Materializer)
    (hcalls : tail - start.seq < calls) :
    materializeLoop D srv {} maxReadBytes calls { c with start := start } mat =
      some (replayed D mat (entries log start.seq tail) tail) := by
  obtain ⟨closed, hlive⟩ := htail
  induction calls generalizing start mat with
  | zero => exact absurd hcalls (not_lt_zero _)
  | succ calls ih =>
    rcases lt_or_ge start.seq tail with hlt | hge
    · have hread := readRange_json hdepth start maxReadBytes hlt fun n _ => hlog n
      have hpos := Paging.gather_pos maxReadBytes 0 (log start.seq) (entries log (start.seq + 1) tail)
      have hle := Paging.gather_le maxReadBytes (entries log start.seq tail) false 0
      rw [← entries_cons log hlt] at hpos
      rw [length_entries] at hle
      generalize Paging.gather maxReadBytes false 0 (entries log start.seq tail) = k at hread hpos hle
      have hchunk : decodeStateMessages D (wrapJSONArray (entries log start.seq (start.seq + k))) = _ :=
        decode_chunk hD fun r hr => by
          obtain ⟨n, hn, rfl⟩ := List.mem_map.mp hr
          rw [mem_range'_1] at hn
          exact hparse n (by omega)
      rw [take_entries log (by omega)] at hread
      rw [materializeLoop, ← entries_append log (le_add_right start.seq k) (by omega), replayed_append]
      simp only [Cursor.next, hlive, hjson, hread, hchunk]
      cases (entries log start.seq (start.seq + k)).mapM D.decode with
      | none => rfl
      | some msgs =>
        simp only
        by_cases hmore : start.seq + k ≥ tail
        · rw [if_neg (by simp [hmore]), entries_of_le log hmore]
          have hend : start.seq + k = tail := by omega
          rw [hend]
          rfl
        · rw [if_pos (by simp [hmore])]
          have hrest := ih ⟨start.seq + k, 0⟩ (.inl (by dsimp only; omega)) (mat.applyAll msgs).1
            (by dsimp only; omega)
          rw [hjson] at hrest
          exact hrest
    · have hnil := @decode_chunk D hD [] nofun
      rw [hin.eq_tailOffset hge, materializeLoop]
      simp only [Cursor.next, hlive, hjson, readRange, tailOffset, ge_iff_le, le_refl, if_true]
      rw [show ascii "[]" = wrapJSONArray [] from rfl, hnil, entries_of_le log (le_refl _)]
      rfl

end Loop

theorem materializeLoop_mono {D : StateJSON} {srv : Server} {maxReadBytes : Nat}
    {out : Except PublicErr (Materializer × Offset)} : ∀ {calls calls' : Nat} {c : Cursor} {mat : Materializer},
    calls ≤ calls' → materializeLoop D srv flt maxReadBytes calls c mat = some out →
    materializeLoop D srv flt maxReadBytes calls' c mat = some out
  | 0, _, _, _, _, h => by cases h
  | calls + 1, calls', c, mat, hle, h => by
    obtain ⟨calls', rfl⟩ : ∃ k, calls' = k + 1 := ⟨calls' - 1, by omega⟩
    unfold materializeLoop at h ⊢
    split at h
    · exact h
    · split at h
      · exact h
      · split at h
        · rename_i hmore
          rw [if_pos hmore]
          exact materializeLoop_mono (le_of_succ_le_succ hle) h
        · rename_i hmore
          rw [if_neg hmore]
          exact h

/-! ## Failed reads -/

theorem path_next {srv : Server} {maxReadBytes : Nat} {c c' : Cursor} {body : Bytes} {more : Bool}
    (h : c.next srv flt maxReadBytes = .ok (body, c', more)) : c'.path = c.path := by
  unfold Cursor.next at h
  split at h
  · cases h
  · split at h
    · cases h
    · cases h
      rfl

section Faults

variable {srv : Server} (h : ServerInv srv) (hp : srv.Published)
include h hp

theorem next_noFaults {maxReadBytes : Nat} {c : Cursor} {m : StreamMeta}
    (hm : srv.db.metaAt c.path = some m) {r : Bytes × Cursor × Bool} (hr : c.next srv flt maxReadBytes = .ok r) :
    c.next srv {} maxReadBytes = .ok r := by
  unfold Cursor.next at hr ⊢
  split at hr
  · cases hr
  · rename_i tail closed hl
    obtain ⟨closed', hl'⟩ := liveState_noFaults h hp hm
    rw [liveState_tail h hp hm hl] at hr
    split at hr
    · cases hr
    · rename_i page hpage
      cases hr
      rw [show ({} : ReadFaults).gets = noFaults from rfl, hl']
      simp only [readRange_noFaults hpage]

theorem materializeLoop_ends {D : StateJSON} {maxReadBytes : Nat} {m : StreamMeta} :
    ∀ {calls : Nat} {c : Cursor} {mat : Materializer}, srv.db.metaAt c.path = some m →
    (materializeLoop D srv {} maxReadBytes calls c mat).isSome →
    (materializeLoop D srv flt maxReadBytes calls c mat).isSome
  | 0, _, _, _, hr => by cases hr
  | calls + 1, c, mat, hm, hr => by
    unfold materializeLoop at hr ⊢
    split
    · rfl
    · rename_i body c' more hnext
      rw [next_noFaults h hp hm hnext] at hr
      dsimp only at hr ⊢
      cases hd : decodeStateMessages D body with
      | none => rfl
      | some msgs =>
        rw [hd] at hr
        cases more with
        | false => rfl
        | true => exact materializeLoop_ends (path_next hnext ▸ hm) hr

/-- A loop that succeeds is the loop without failures. -/
theorem materializeLoop_noFaults {D : StateJSON} {maxReadBytes : Nat} {m : StreamMeta}
    {out : Materializer × Offset} : ∀ {calls : Nat} {c : Cursor} {mat : Materializer},
    srv.db.metaAt c.path = some m → materializeLoop D srv flt maxReadBytes calls c mat = some (.ok out) →
    materializeLoop D srv {} maxReadBytes calls c mat = some (.ok out)
  | 0, _, _, _, hr => by cases hr
  | calls + 1, c, mat, hm, hr => by
    unfold materializeLoop at hr ⊢
    split at hr
    · cases hr
    · rename_i body c' more hnext
      rw [next_noFaults h hp hm hnext]
      dsimp only
      cases hd : decodeStateMessages D body with
      | none => rw [hd] at hr; cases hr
      | some msgs =>
        rw [hd] at hr
        cases more with
        | false => exact hr
        | true => exact materializeLoop_noFaults (path_next hnext ▸ hm) hr

end Faults

/-! ## The whole call -/

theorem read_eq {L : GoLib} {srv : Server} (h : ServerInv srv) (hp : srv.Published) {path : Bytes} {m : StreamMeta}
    (hm : srv.db.metaAt path = some m) (hlive : softDeleted (srv.db.tombstoneAt path) = false) (start : Offset) :
    srv.read L noFaults path start =
      .ok ⟨path, m.streamID, m.forkedFrom, m.forkOffset, isJSONStream L m.contentType, start⟩ := by
  obtain ⟨closed, hl⟩ := liveState_noFaults h hp hm
  have htomb : loadTombstone noFaults srv.db path = .ok (srv.db.tombstoneAt path) := rfl
  have hmeta : loadMeta noFaults srv.db path = .ok (some m) := congrArg Except.ok hm
  simp [Server.read, Server.info, htomb, hlive, hmeta, hl, Except.map]

/-- What a read finds with failing lookups is there without them. -/
theorem read_noFaults {L : GoLib} {srv : Server} {flt : Faults} {path : Bytes} {m : StreamMeta}
    (hm : srv.db.metaAt path = some m) {start : Offset} {c : Cursor}
    (hr : srv.read L flt path start = .ok c) : softDeleted (srv.db.tombstoneAt path) = false ∧
      c = ⟨path, m.streamID, m.forkedFrom, m.forkOffset, isJSONStream L m.contentType, start⟩ := by
  unfold Server.read Server.info at hr
  split at hr
  · cases hr
  · rename_i t ht
    rw [show srv.db.tombstoneAt path = t from Store.get_ok ht]
    split at hr
    · cases hr
    · rename_i hs
      split at hr
      · cases hr
      · cases hr
      · rename_i m' hm'
        rw [show srv.db.metaAt path = some m' from Store.get_ok hm', some.injEq] at hm
        subst hm
        split at hr
        · cases hr
        · cases hr
          exact ⟨by simpa using hs, rfl⟩

variable {L : GoLib} {D : StateJSON} (hD : DecodesMessages D) {srv : Server} (h : ServerInv srv) (hp : srv.Published)
  {path : Bytes} {m : StreamMeta} (hm : srv.db.metaAt path = some m)
  (hlive : softDeleted (srv.db.tombstoneAt path) = false) (hjson : isJSONStream L m.contentType = true)

section Stream

variable {log : Nat → Bytes} {depth : Nat} (hdepth : depth ≤ srv.nextID)
  (hlog : ∀ n, n < loadTailSeq srv.db m.streamID →
    payloadAt srv.db depth m.streamID m.forkedFrom m.forkOffset n = some (log n))
  (hparse : ∀ n, n < loadTailSeq srv.db m.streamID → (parse (log n)).isSome)
include hD h hp hm hlive hjson hdepth hlog hparse

/-- **`Materialize` replays the stream.** -/
theorem materialize_eq (maxReadBytes : Nat) (hcalls : loadTailSeq srv.db m.streamID < calls) :
    srv.materialize L D {} maxReadBytes path calls =
      some (replayed D {} (entries log 0 (loadTailSeq srv.db m.streamID)) (loadTailSeq srv.db m.streamID)) := by
  rw [materialize, show ({} : ReadFaults).gets = noFaults from rfl, read_eq h hp hm hlive]
  refine materializeLoop_eq hD (c := ⟨path, m.streamID, m.forkedFrom, m.forkOffset, isJSONStream L m.contentType,
    ⟨0, 0⟩⟩)
    hjson (liveState_noFaults h hp hm) hdepth hlog hparse ⟨0, 0⟩ ?_ {} hcalls
  rcases Nat.eq_zero_or_pos (loadTailSeq srv.db m.streamID) with h0 | hpos
  · exact .inr ⟨h0.symm, rfl⟩
  · exact .inl hpos

/-- With failing reads the call ends as well, and fails or replays the stream. -/
theorem materialize_faults (flt : ReadFaults) (maxReadBytes : Nat)
    (hcalls : loadTailSeq srv.db m.streamID < calls) :
    ∃ r, srv.materialize L D flt maxReadBytes path calls = some r ∧ ∀ out, r = .ok out →
      replayed D {} (entries log 0 (loadTailSeq srv.db m.streamID)) (loadTailSeq srv.db m.streamID) = .ok out := by
  have hclean := materialize_eq hD h hp hm hlive hjson hdepth hlog hparse maxReadBytes hcalls
  rw [materialize, show ({} : ReadFaults).gets = noFaults from rfl, read_eq h hp hm hlive] at hclean
  cases hread : srv.read L flt.gets path ⟨0, 0⟩ with
  | error e => exact ⟨.error e, by rw [materialize, hread], nofun⟩
  | ok c =>
    obtain ⟨-, hc⟩ := read_noFaults hm hread
    rw [← hc] at hclean
    have hm' : srv.db.metaAt c.path = some m := by rw [hc]; exact hm
    have hends : (materializeLoop D srv flt maxReadBytes calls c {}).isSome :=
      materializeLoop_ends h hp hm' (by rw [show materializeLoop D srv {} maxReadBytes calls c {} = _ from hclean]; rfl)
    obtain ⟨r, hr⟩ := isSome_iff_exists.mp hends
    refine ⟨r, by rw [materialize, hread]; exact hr, fun out hout => ?_⟩
    rw [hout] at hr
    have hsame := hclean.symm.trans (materializeLoop_noFaults h hp hm' hr)
    rwa [some.injEq] at hsame

end Stream

theorem ownEntries_plain {db : Store} {m : StreamMeta} (hplain : m.forkedFrom = 0) :
    ownEntries db m = entries (db.payload m.streamID) 0 (loadTailSeq db m.streamID) := by
  rw [ownEntries, StreamMeta.base, if_pos hplain]

theorem isSome_of_mapM {α β : Type} {f : α → Option β} : ∀ {xs : List α} {ys : List β}, xs.mapM f = some ys →
    ∀ x ∈ xs, (f x).isSome
  | x :: xs, ys, h, y, hy => by
    rw [mapM_cons] at h
    obtain ⟨z, hz, h⟩ := bind_eq_some_iff.mp h
    obtain ⟨zs, hzs, -⟩ := bind_eq_some_iff.mp h
    rcases mem_cons.mp hy with rfl | hy
    · rw [hz]; rfl
    · exact isSome_of_mapM hzs y hy

theorem length_of_mapM {α β : Type} {f : α → Option β} : ∀ {xs : List α} {ys : List β}, xs.mapM f = some ys →
    xs.length = ys.length
  | [], _, h => by
    cases h
    rfl
  | x :: xs, ys, h => by
    rw [mapM_cons] at h
    obtain ⟨z, -, h⟩ := bind_eq_some_iff.mp h
    obtain ⟨zs, hzs, h⟩ := bind_eq_some_iff.mp h
    cases h
    rw [length_cons, length_cons, length_of_mapM hzs]

section Plain

variable (hplain : m.forkedFrom = 0) {msgs : List Message} (hdec : (ownEntries srv.db m).mapM D.decode = some msgs)
include hD h hp hm hlive hplain hjson hdec

/-- A plain stream of messages. -/
theorem materialize_plain (maxReadBytes : Nat) (hcalls : loadTailSeq srv.db m.streamID < calls) :
    srv.materialize L D {} maxReadBytes path calls =
        some (.ok ((({} : Materializer).applyAll msgs).1, tailOffset (loadTailSeq srv.db m.streamID))) ∧
      ∀ flt, ∃ r, srv.materialize L D flt maxReadBytes path calls = some r ∧ ∀ out, r = .ok out →
        out = ((({} : Materializer).applyAll msgs).1, tailOffset (loadTailSeq srv.db m.streamID)) := by
  have hlog := plain_payloadAt h.stored hm hplain
  have hparse : ∀ n, n < loadTailSeq srv.db m.streamID → (parse (srv.db.payload m.streamID n)).isSome := fun n hn =>
    hD.sound _ (isSome_of_mapM hdec _ (by
      rw [ownEntries_plain hplain]
      exact List.mem_map.mpr ⟨n, mem_range'_1.mpr ⟨zero_le n, by omega⟩, rfl⟩))
  have hreplayed : replayed D {} (entries (srv.db.payload m.streamID) 0 (loadTailSeq srv.db m.streamID))
      (loadTailSeq srv.db m.streamID) =
        .ok ((({} : Materializer).applyAll msgs).1, tailOffset (loadTailSeq srv.db m.streamID)) := by
    rw [replayed, ← ownEntries_plain hplain, hdec]
  refine ⟨?_, fun flt => ?_⟩
  · rw [materialize_eq hD h hp hm hlive hjson (zero_le _) hlog hparse maxReadBytes hcalls, hreplayed]
  · obtain ⟨r, hr, hout⟩ := materialize_faults hD h hp hm hlive hjson (zero_le _) hlog hparse flt maxReadBytes
      hcalls
    refine ⟨r, hr, fun out he => ?_⟩
    have hsame := (hout out he).symm.trans hreplayed
    rwa [Except.ok.injEq] at hsame

end Plain

/-- **Materialization is a last-writer fold**, independent of the chunks. For a plain stream of state messages,
`Materialize` ends after at most one chunk for each record and one more, with the value of the last valid write of every
entity and the tail; the messages after it lead to what is materialized later. -/
theorem materialize_last_writer {L : GoLib} {D : StateJSON} (hD : DecodesMessages D) {seen : Nat} {srv : Server}
    (hr : Reach (step L) Any (newServer ∅ seen) srv) {path : Bytes} {m : StreamMeta}
    (hm : srv.db.metaAt path = some m) (hlive : softDeleted (srv.db.tombstoneAt path) = false)
    (hplain : m.forkedFrom = 0) (hjson : isJSONStream L m.contentType = true) {msgs : List Message}
    (hdec : (ownEntries srv.db m).mapM D.decode = some msgs) (maxReadBytes : Nat) :
    ∃ mat : Materializer,
      (∀ calls, loadTailSeq srv.db m.streamID < calls →
        srv.materialize L D {} maxReadBytes path calls =
            some (.ok (mat, tailOffset (loadTailSeq srv.db m.streamID))) ∧
          ∀ flt, ∃ r, srv.materialize L D flt maxReadBytes path calls = some r ∧ ∀ out, r = .ok out →
            out = (mat, tailOffset (loadTailSeq srv.db m.streamID))) ∧
      (∀ type key v, mat.snapshot type key = some v ↔ LastWrite msgs type key v) ∧
      mat = (({} : Materializer).applyAll (msgs.filter Message.valid)).1 ∧
      ∀ srv' m', Reach (step L) Any srv srv' → srv'.db.metaAt path = some m' → m'.streamID = m.streamID →
        softDeleted (srv'.db.tombstoneAt path) = false → ∀ msgs', (ownEntries srv'.db m').mapM D.decode = some msgs' →
        ∃ later, (entries (srv'.db.payload m.streamID) (loadTailSeq srv.db m.streamID)
            (loadTailSeq srv'.db m.streamID)).mapM D.decode = some later ∧
          ∀ maxReadBytes' calls, loadTailSeq srv'.db m.streamID < calls →
            srv'.materialize L D {} maxReadBytes' path calls =
              some (.ok ((mat.applyAll later).1, tailOffset (loadTailSeq srv'.db m.streamID))) := by
  obtain ⟨h, hset⟩ := settled_of_reach hr (.start catalog_empty seen) nofun
  have hp := published_of_reach hr nofun
  refine ⟨_, fun calls hcalls => materialize_plain hD h hp hm hlive hjson hplain hdec maxReadBytes hcalls,
    fun type key v => snapshot_eq_some, (Materializer.applyAll_filter _ _).symm, ?_⟩
  intro srv' m' hr' hm' hid hlive' msgs' hdec'
  have h' := h.reach hr'
  obtain ⟨m₁, hm₁, hi, t, ht⟩ := (continues_of_reach hr' h hset).kept path m' hm' (by
    rw [hid]
    exact (h.stored.ids path m hm).1)
  cases hm.symm.trans hm₁
  have hplain' : m'.forkedFrom = 0 := (forkedFrom_of_identity hi).trans hplain
  -- the records of now are those of then and the ones after the offset
  have hsplit : entries (srv'.db.payload m.streamID) (loadTailSeq srv.db m.streamID)
    (loadTailSeq srv'.db m.streamID) = t := by
    have hlen := congrArg List.length (@ownEntries_plain srv.db m hplain)
    rw [length_entries] at hlen
    have hdrop := congrArg (List.drop (loadTailSeq srv.db m.streamID)) ht
    rw [ownEntries_plain hplain', drop_entries, drop_append_of_le_length (by omega),
      drop_of_length_le (by omega), nil_append, Nat.zero_add, hid] at hdrop
    exact hdrop.symm
  have hmap := hdec'
  rw [← ht, mapM_append] at hmap
  obtain ⟨first, hfirst, hmap⟩ := bind_eq_some_iff.mp hmap
  obtain ⟨later, hlater, hmap⟩ := bind_eq_some_iff.mp hmap
  rw [hdec] at hfirst
  cases hfirst
  cases hmap
  refine ⟨later, by rw [hsplit]; exact hlater, fun maxReadBytes' calls hcalls => ?_⟩
  rw [← hid] at hcalls ⊢
  rw [(materialize_plain hD h' (published_of_reach hr' hp) hm' hlive'
    (by rw [contentType_of_identity hi]; exact hjson) hplain' hdec' maxReadBytes' hcalls).1,
    Materializer.applyAll_append]

/-! ## A decoder -/

/-- How deep `encoding/json` reads. -/
def maxNestingDepth : Nat := 10000

def isNull (v : Value) : Bool :=
  match v with
  | .atom s => s == ascii "null"
  | _ => false

/-- A string field; `null` leaves what is there. -/
def decodeString (old : Bytes) : Value → Option Bytes
  | .str s => some s
  | v => if isNull v then some old else none

/-- One member of the headers. -/
def decodeHeader (h : Headers) (member : Bytes × Value) : Option Headers :=
  if member.1 = ascii "operation" then (decodeString h.operation member.2).map fun s => { h with operation := s }
  else if member.1 = ascii "control" then (decodeString h.control member.2).map fun s => { h with control := s }
  else if member.1 = ascii "txid" ∨ member.1 = ascii "timestamp" ∨ member.1 = ascii "offset" then
    (decodeString [] member.2).map fun _ => h
  else some h

def decodeHeaders (h : Headers) : Value → Option Headers
  | .obj ms => ms.foldlM decodeHeader h
  | v => if isNull v then some h else none

/-- One member of a message. -/
def decodeField (m : Message) (member : Bytes × Value) : Option Message :=
  if member.1 = ascii "type" then (decodeString m.type member.2).map fun s => { m with type := s }
  else if member.1 = ascii "key" then (decodeString m.key member.2).map fun s => { m with key := s }
  else if member.1 = ascii "value" then some { m with value := member.2.render }
  else if member.1 = ascii "headers" then (decodeHeaders m.headers member.2).map fun h => { m with headers := h }
  else some m

def decodeMessage (v : Value) : Option Message :=
  if v.depth < maxNestingDepth then
    match v with
    | .obj ms => ms.foldlM decodeField {}
    | v => if isNull v then some {} else none
  else none

/-- A decoder for records without escapes, with the field names as they are declared. -/
def jsonState : StateJSON where
  unmarshal := fun b =>
    match parse b with
    | some (.arr vs) => vs.mapM decodeMessage
    | _ => none
  decode := fun r => (parse r).bind decodeMessage

theorem mapM_parse {α : Type} (f : Value → Option α) : ∀ {records : List Bytes} {vs : List Value},
    records.map parse = vs.map some → records.mapM (fun r => (parse r).bind f) = vs.mapM f
  | [], [], _ => rfl
  | [], _ :: _, h => by cases h
  | _ :: _, [], h => by cases h
  | r :: records, v :: vs, h => by
    obtain ⟨hr, h⟩ := List.cons.inj h
    rw [mapM_cons, mapM_cons, hr, mapM_parse f h]
    rfl

theorem decodesMessages_jsonState : DecodesMessages jsonState where
  sound := fun r h => by
    cases hp : parse r with
    | none => simp [jsonState, hp] at h
    | some v => rfl
  elements := fun records h => by
    obtain ⟨vs, hvs, hmap⟩ := parse_wrapJSONArray h
    show (match parse (wrapJSONArray records) with
      | some (.arr vs) => vs.mapM decodeMessage
      | _ => none) = _
    rw [hvs]
    exact (mapM_parse decodeMessage hmap).symm

/-- An insert, and a message without a key. -/
def stateBody : Bytes :=
  ascii "[\x7b\"type\":\"t\",\"key\":\"k\",\"value\":7,\"headers\":\x7b\"operation\":\"insert\"\x7d\x7d," ++
    ascii "\x7b\"type\":\"t\"\x7d]"

def stateEvents : List Event :=
  [{ action := .createStream { path := samplePath, contentType := contentTypeJSON, body := stateBody } 0 0 }]

def stateMessages : List Message :=
  [{ type := ascii "t", key := ascii "k", value := ascii "7", headers := { operation := opInsert } },
    { type := ascii "t" }]

/-- Two messages, one of them invalid, in chunks of one record. -/
theorem materialize_last_writer_sample : ∃ srv mat, Reach (step jsonLib) Any (newServer ∅ 0) srv ∧
    srv.materialize jsonLib jsonState {} 1 samplePath 3 = some (.ok (mat, ⟨2, 0⟩)) ∧
    mat.snapshot (ascii "t") (ascii "k") = some (ascii "7") := by
  obtain ⟨srv, hs, hm, hlive, htail, hdec⟩ : ∃ srv ∈ run (step jsonLib) (newServer ∅ 0) stateEvents,
      srv.db.metaAt samplePath = some { streamID := 1, contentType := contentTypeJSON } ∧
      softDeleted (srv.db.tombstoneAt samplePath) = false ∧ loadTailSeq srv.db 1 = 2 ∧
      (ownEntries srv.db { streamID := 1, contentType := contentTypeJSON }).mapM jsonState.decode = some
      stateMessages := by decide +kernel
  have hr := reach_any hs
  obtain ⟨mat, hmat, hsnap, -, -⟩ := materialize_last_writer decodesMessages_jsonState hr hm hlive rfl rfl hdec 1
  rw [htail] at hmat
  refine ⟨srv, mat, hr, (hmat 3 (by decide)).1, (hsnap _ _ _).mpr ?_⟩
  refine ⟨[], _, _, rfl, by decide, rfl, fun m' hm' => ?_⟩
  rw [mem_singleton.mp hm']
  decide

end Yasdb
