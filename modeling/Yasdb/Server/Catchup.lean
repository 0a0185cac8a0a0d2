import Yasdb.Server.Provenance
import Yasdb.OffsetText

/-!
# Catch-up reads and their entity tags

`handleGet` without a live mode: the offset and the tombstone are checked, the tail is taken from the resident streamer
or from the store (`liveState`), and one range is read. The answer carries a tag made of the stream id, the two offsets
and a closed mark (`makeETag`); a request that names the tag is answered by 304 without a body.

- `liveState_tail`: the tail that a reader is given is the stored one;
- `makeETag_inj`: a tag determines the id, the texts of the offsets, and the mark;
- `same_page`: two reads of a growing log with the same offsets have the same body;
- `etag_identifies`: **two reads with the same tag have the same body**.
-/

namespace Yasdb

open Batch Runs List Option Server Nat Except

variable {L : GoLib} {maxReadBytes : Nat}
  {flt : ReadFaults} {offsets : List Bytes} {tag : Bytes} {log : Nat → Bytes} {isJSON : Bool}

/-! ## Catch-up reads -/

/-- An entity tag: the id, the offsets of the range, and a mark for the end of a closed stream. -/
def makeETag (id : Nat) (start next : Offset) (closed : Bool) : Bytes :=
  ascii "\"" ++ formatInt id ++ ascii ":" ++ start.string ++ ascii ":" ++ next.string ++
    (if closed then ascii ":c" else []) ++ ascii "\""

/-- `strings.TrimPrefix` -/
def trimPrefix (s pre : Bytes) : Bytes := if pre.isPrefixOf s then s.drop pre.length else s

def etagMatches (L : GoLib) (ifNoneMatch etag : Bytes) : Bool :=
  (ifNoneMatch.splitOn 44).any fun part =>
    let part := trimPrefix (L.trimSpace part) (ascii "W/")
    part = etag ∨ part = ascii "*"

def cacheControl (isPrivate : Bool) : String :=
  if isPrivate then "private, max-age=60, stale-while-revalidate=300"
  else "public, max-age=60, stale-while-revalidate=300"

/-- A request that is answered by an error. -/
structure HTTPError where
  status : Nat
  msg : String
deriving DecidableEq, Repr

def errInternal : HTTPError := ⟨500, "internal error"⟩

/-- The headers and the body of a catch-up read; `closed` is the Stream-Closed flag. -/
structure CatchupRead where
  contentType : Bytes
  cacheControl : String
  etag : Option Bytes
  next : Offset
  upToDate : Bool
  closed : Bool
  body : Bytes
deriving DecidableEq, Repr

/-- The status and the body that are sent. -/
def CatchupRead.respond (L : GoLib) (r : CatchupRead) (ifNoneMatch : Bytes) : Nat × Bytes :=
  if ifNoneMatch ≠ [] ∧ r.etag.any (etagMatches L ifNoneMatch) then (304, []) else (200, r.body)

namespace Server

/-- The tail and the closure flag, from the resident streamer if there is one. -/
def liveState (srv : Server) (flt : Faults) (path : Bytes) : Except String (Nat × Bool) :=
  match srv.registry path with
  | some s => .ok (s.tail, s.closed)
  | none =>
    match loadMeta flt srv.db path with
    | .error e => .error e
    | .ok none => .ok (0, false)
    | .ok (some m) => (loadTail flt srv.db m.streamID).map (·, m.closed)

/-- Answer from the store: one range up to the tail of `liveState`. No fork chain is longer than the next id. -/
def readCatchup (L : GoLib) (srv : Server) (flt : ReadFaults) (maxReadBytes : Nat) (path : Bytes) (m : StreamMeta)
    (po : ParsedOffset) : Except HTTPError CatchupRead :=
  let isJSON := isJSONStream L m.contentType
  match srv.liveState flt.gets path with
  | .error _ => .error errInternal
  | .ok (tail, closed) =>
    match po with
    | .isNow =>
      -- skip to the tail, never cache, no tag
      .ok { contentType := m.contentType, cacheControl := "no-store", etag := none, next := tailOffset tail,
            upToDate := true, closed := closed, body := if isJSON then ascii "[]" else [] }
    | .off start =>
      match readRange flt srv.db srv.nextID m.streamID m.forkedFrom m.forkOffset isJSON start tail maxReadBytes with
      | .error _ => .error errInternal
      | .ok r =>
        let closedEOF := closed && r.upToDate
        .ok { contentType := m.contentType, cacheControl := cacheControl m.isPrivate,
              etag := some (makeETag m.streamID start r.next closedEOF), next := r.next, upToDate := r.upToDate,
              closed := closedEOF, body := r.body }

/-- A GET without a live mode; `offsets` are the values of the query parameter. The touch of a stream with a TTL is a
step of its own. -/
def handleGet (L : GoLib) (srv : Server) (flt : ReadFaults) (maxReadBytes : Nat) (path : Bytes) (offsets : List Bytes) :
    Except HTTPError CatchupRead :=
  if 1 < offsets.length ∨ offsets.head? = some [] then .error ⟨400, "malformed offset"⟩
  else
    match parseOffset (offsets.headD []) with
    | none => .error ⟨400, "malformed offset"⟩
    | some po =>
      match loadTombstone flt.gets srv.db path with
      | .error _ => .error errInternal
      | .ok t =>
        if softDeleted t then .error ⟨410, "stream gone"⟩
        else
          match loadMeta flt.gets srv.db path with
          | .error _ => .error errInternal
          | .ok none => .error ⟨404, "stream not found"⟩
          | .ok (some m) => srv.readCatchup L flt maxReadBytes path m po

/-- **What an answer comes from**: nothing for the tail itself, and otherwise one range of the stream, up to the tail
that `liveState` gives. -/
theorem handleGet_cases {srv : Server} {path : Bytes} {r : CatchupRead}
    (h : srv.handleGet L flt maxReadBytes path offsets = .ok r) :
    ∃ m, srv.db.metaAt path = some m ∧
      (r.etag = none ∧ r.body = (if isJSONStream L m.contentType then ascii "[]" else []) ∨
        ∃ start tail closed page, parseOffset (offsets.headD []) = some (.off start) ∧
          srv.liveState flt.gets path = .ok (tail, closed) ∧
          readRange flt srv.db srv.nextID m.streamID m.forkedFrom m.forkOffset (isJSONStream L m.contentType) start
            tail maxReadBytes = .ok page ∧
          r.etag = some (makeETag m.streamID start page.next r.closed) ∧ r.body = page.body ∧
          r.closed = (closed && page.upToDate)) := by
  unfold handleGet at h
  split at h
  · cases h
  · split at h
    · cases h
    · rename_i po hpo
      split at h
      · cases h
      · split at h
        · cases h
        · split at h
          · cases h
          · cases h
          · rename_i m hm
            refine ⟨m, Store.get_ok hm, ?_⟩
            unfold readCatchup at h
            split at h
            · cases h
            · rename_i tail closed hlive
              split at h
              · cases h
                exact .inl ⟨rfl, rfl⟩
              · rename_i start
                dsimp only at h
                split at h
                · cases h
                · rename_i page hpage
                  cases h
                  exact .inr ⟨start, tail, closed, page, hpo, hlive, hpage, rfl, rfl, rfl⟩

/-- A tagged answer is a range. -/
theorem handleGet_tagged {srv : Server} {path : Bytes} {r : CatchupRead}
    (h : srv.handleGet L flt maxReadBytes path offsets = .ok r)
    (ht : r.etag = some tag) : ∃ m start tail closed page, srv.db.metaAt path = some m ∧
      parseOffset (offsets.headD []) = some (.off start) ∧ srv.liveState flt.gets path = .ok (tail, closed) ∧
      readRange flt srv.db srv.nextID m.streamID m.forkedFrom m.forkOffset (isJSONStream L m.contentType) start tail
        maxReadBytes = .ok page ∧
      tag = makeETag m.streamID start page.next r.closed ∧ r.body = page.body ∧
      r.closed = (closed && page.upToDate) := by
  obtain ⟨m, hm, ⟨hnone, -⟩ | ⟨start, tail, closed, page, hpo, hlive, hpage, hsome, hbody, hclosed⟩⟩ :=
      handleGet_cases h
  · rw [hnone] at ht
    cases ht
  · rw [hsome, some.injEq] at ht
    exact ⟨m, start, tail, closed, page, hm, hpo, hlive, hpage, ht.symm, hbody, hclosed⟩

end Server

/-! ## Offsets of requests -/

theorem digit_lt {b : UInt8} {d : Nat} (h : digit b = some d) : d < 10 := by
  unfold digit at h
  split at h
  · rename_i hb
    have hle : b.toNat ≤ 57 := UInt8.le_iff_toNat_le.mp hb.2
    cases h
    omega
  · cases h

theorem foldlM_digits_lt : ∀ (s : Bytes) (n : Nat) {v : Nat},
    s.foldlM (fun n b => (digit b).map fun d => n * 10 + d) n = some v → v < (n + 1) * 10 ^ s.length
  | [], n, v, h => by
    cases h
    simp
  | b :: s, n, v, h => by
    rw [foldlM_cons] at h
    obtain ⟨n', hn, h⟩ := bind_eq_some_iff.mp h
    obtain ⟨d, hd, rfl⟩ := map_eq_some_iff.mp hn
    have ih := foldlM_digits_lt s _ h
    have hlt := digit_lt hd
    calc v < (n * 10 + d + 1) * 10 ^ s.length := ih
      _ ≤ ((n + 1) * 10) * 10 ^ s.length := mul_le_mul_right _ (by omega)
      _ = (n + 1) * 10 ^ (b :: s).length := by rw [length_cons, pow_succ', mul_assoc]

theorem parseUint_lt {s : Bytes} {n : Nat} (h : parseUint s = some n) : n < 10 ^ s.length := by
  unfold parseUint at h
  split at h
  · cases h
  · have hlt := foldlM_digits_lt s 0 (filter_eq_some_iff.mp h).1
    omega

/-- An offset fits its text: each component has at most 16 digits. -/
def Offset.Fits (o : Offset) : Prop := o.seq < 10 ^ 16 ∧ o.byte < 10 ^ 16

theorem Offset.Fits.eq_of_string {o o' : Offset} (h : o.Fits) (h' : o'.Fits) (he : o.string = o'.string) : o = o' := by
  obtain ⟨hs, hb⟩ := string_eq_iff.mp he
  rw [mod_eq_of_lt h.1, mod_eq_of_lt h'.1] at hs
  rw [mod_eq_of_lt h.2, mod_eq_of_lt h'.2] at hb
  cases o
  cases o'
  simp only at hs hb
  rw [hs, hb]

theorem parseOffset_fits {raw : Bytes} {o : Offset} (h : parseOffset raw = some (.off o)) : o.Fits := by
  unfold parseOffset at h
  split at h
  · cases h
    exact ⟨by decide, by decide⟩
  · split at h
    · cases h
    · split at h
      · cases h
      · rename_i hlen
        split at h
        · rename_i seq byte hseq hbyte
          cases h
          have h1 := parseUint_lt hseq
          have h2 := parseUint_lt hbyte
          have hraw : raw.length = 33 := by
            by_contra hne
            exact hlen (.inl hne)
          rw [length_take, hraw] at h1
          rw [length_drop, hraw] at h2
          exact ⟨h1, h2⟩
        · cases h

/-! ## Tags -/

theorem length_string (o : Offset) : o.string.length = 33 := by
  simp [Offset.string, appendOffset, appendPad16]

theorem append_cons_inj {a : UInt8} : ∀ {x z u v : Bytes}, a ∉ x → a ∉ z → x ++ a :: u = z ++ a :: v → x = z ∧ u = v
  | [], [], _, _, _, _, h => ⟨rfl, (List.cons.inj h).2⟩
  | [], b :: z, _, _, _, hz, h => absurd (List.cons.inj h).1 (ne_of_not_mem_cons hz)
  | b :: x, [], _, _, hx, _, h => absurd (List.cons.inj h).1.symm (ne_of_not_mem_cons hx)
  | b :: x, c :: z, u, v, hx, hz, h => by
    obtain ⟨hb, h⟩ := List.cons.inj h
    obtain ⟨he, ht⟩ := append_cons_inj (not_mem_of_not_mem_cons hx) (not_mem_of_not_mem_cons hz) h
    exact ⟨by rw [hb, he], ht⟩

theorem makeETag_eq (id : Nat) (start next : Offset) (closed : Bool) : makeETag id start next closed =
    34 :: (formatInt id ++ 58 :: (start.string ++ 58 :: (next.string ++ if closed then [58, 99, 34] else [34]))) := by
  cases closed <;> simp [makeETag, ascii]

variable {id : Nat} {start : Offset} {closed : Bool} {m : StreamMeta} {db : Store}

/-- **A tag determines what it is made of.** -/
theorem makeETag_inj {id' : Nat} {start' next next' : Offset} {closed' : Bool}
    (h : makeETag id start next closed = makeETag id' start' next' closed') :
    id = id' ∧ start.string = start'.string ∧ next.string = next'.string ∧ closed = closed' := by
  have hcolon : ∀ n, (58 : UInt8) ∉ formatInt n := fun n hm => absurd (mem_formatInt hm).2 (by decide)
  rw [makeETag_eq, makeETag_eq, List.cons.injEq] at h
  obtain ⟨hid, h⟩ := append_cons_inj (hcolon id) (hcolon id') h.2
  obtain ⟨hs, h⟩ := append_inj h (by rw [length_string, length_string])
  obtain ⟨hn, h⟩ := append_inj (List.cons.inj h).2 (by rw [length_string, length_string])
  refine ⟨formatInt_injective hid, hs, hn, ?_⟩
  cases closed <;> cases closed' <;> first | rfl | cases h

/-! ## The published tail -/

namespace Server

/-- Every resident streamer shows its readers the tail that it has written, and only a closure that it has written. -/
def Published (srv : Server) : Prop :=
  ∀ path s, srv.registry path = some s → s.tail = s.writeTail ∧ (s.closed = true → s.streamMeta.closed = true)

namespace Published

variable {srv srv' : Server}

variable (h : srv.Published)
include h

theorem fewer (hf : ∀ path s, srv'.registry path = some s → srv.registry path = some s) :
    srv'.Published := fun path s hs => h path s (hf path s hs)

variable {s : Streamer}

theorem setStreamer (path : Bytes)
    (hs : s.tail = s.writeTail ∧ (s.closed = true → s.streamMeta.closed = true)) :
    (srv.setStreamer path s).Published := by
  intro p s' hs'
  simp only [Server.setStreamer, Function.update_apply] at hs'
  split at hs'
  · cases hs'
    exact hs
  · exact h p s' hs'

theorem removeStreamer (path : Bytes) : (srv.removeStreamer path).Published := by
  refine h.fewer fun p s hs => ?_
  simp only [Server.removeStreamer, Function.update_apply] at hs
  split at hs
  · cases hs
  · exact hs

theorem commit (durable : Bool) (ops : List Op) : (srv.commit durable ops).Published := h

theorem create (ok : Bool) (plan : CreatePlan) : (srv.create ok plan).Published := by
  unfold Server.create
  split
  · exact h
  · cases ok <;> exact h

theorem burst {path : Bytes} (hs : srv.registry path = some s) {flt : Faults}
    {now : Int64} {batch : List AppendReq} {s' : Streamer} {c : CommitBurst}
    (hb : processBurst L flt srv.db now s batch = (s', .commit c)) :
    ((srv.commit true c.ops).setStreamer path (syncCommit none srv.db s' c).2.1).Published := by
  have hpub := h path s hs
  obtain ⟨hl, hopen, -⟩ := processBurst_commit hb
  rw [← hl.tail, ← hl.writeTail, ← hl.closed, ← hl.streamMeta] at hpub
  -- a stream that takes part in a commit was open
  refine (h.commit true c.ops).setStreamer path ⟨rfl, fun hc => ?_⟩
  have hs' : s'.closed = false := Bool.eq_false_iff.mpr fun hc => by
    rw [hpub.2 hc] at hopen
    cases hopen
  simp only [syncCommit, applyReader, applyWriter, hs', Bool.or_false, Bool.and_eq_true] at hc ⊢
  rw [if_pos hc.1]
  exact hc.2

theorem deleteStreamLocked (ok : Bool) (path : Bytes) (m : StreamMeta) :
    (srv.deleteStreamLocked ok path m).Published := by
  cases ok <;> exact h.removeStreamer path

theorem softDeleteLocked (ok : Bool) (path : Bytes) (m : StreamMeta) : (srv.softDeleteLocked ok path m).Published := by
  cases ok <;> exact h.removeStreamer path

theorem setPhase (i id : Nat) (next : Option DeletePhase) : (srv.setPhase i id next).Published := by
  cases next <;> exact h

/-- **Every step publishes what it has written.** -/
theorem step {e : Event} (he : step L srv e = some srv') : srv'.Published := by
  cases stepped he with
  | createStream => exact h.create _ _
  | createFork => exact h.create _ _
  | spawn => exact h.setStreamer _ ⟨rfl, id⟩
  | replied hs hl =>
    exact h.setStreamer _ (by rw [hl.tail, hl.writeTail, hl.closed, hl.streamMeta]; exact h _ _ hs)
  | burst hs hb => exact h.burst hs hb
  | untouched hs => exact setStreamer h _ (h _ _ hs)
  | touch hs =>
    have hpub := h _ _ hs
    exact setStreamer h _ hpub
  | retire => exact h.removeStreamer _
  | softDelete => exact h.softDeleteLocked _ _ _
  | delete => exact h.deleteStreamLocked _ _ _
  | @dropForkRef _ _ ok => cases ok <;> exact h
  | cascade => exact h.deleteStreamLocked _ _ _
  | @expire _ _ dues => exact @deleteStreamLocked { srv with dues := dues } h _ _ _
  | noChunk => exact h.setPhase _ _ _
  | chunk => exact (h.commit true _).setPhase _ _ _
  | crash => exact nofun
  | _ => exact h

end Published

end Server

/-- **The tail that a reader is given is the stored one.** -/
theorem liveState_tail {srv : Server} (h : ServerInv srv) (hp : srv.Published) {flt : Faults} {path : Bytes}
    (hm : srv.db.metaAt path = some m) {tail : Nat} (hl : srv.liveState flt path = .ok (tail, closed)) :
    tail = loadTailSeq srv.db m.streamID := by
  unfold liveState at hl
  split at hl
  · rename_i s hs
    cases hl
    obtain ⟨rfl, ha⟩ := h.resident path s hs
    rw [ha.streamMeta, some.injEq] at hm
    rw [(hp _ s hs).1, ha.writeTail, ← hm, ha.id]
  · split at hl
    · cases hl
    · rename_i hm'
      rw [show srv.db.metaAt path = none from Store.get_ok hm'] at hm
      cases hm
    · rename_i m' hm'
      rw [show srv.db.metaAt path = some m' from Store.get_ok hm', some.injEq] at hm
      cases ht : loadTail flt srv.db m'.streamID with
      | error e => rw [ht] at hl; cases hl
      | ok t =>
        rw [ht] at hl
        cases hl
        rw [loadTail_ok ht, hm]

theorem published_of_reach {srv srv' : Server} (hr : Reach (step L) Any srv srv')
    (h : srv.Published) : srv'.Published :=
  hr.invariant (P := Server.Published) (fun _ _ _ h _ he => h.step he) h

/-! ## Two reads of one stream -/

theorem plain_payloadAt (h : Catalog db) {path : Bytes} (hm : db.metaAt path = some m) (hplain : m.forkedFrom = 0)
    (n : Nat) (hn : n < loadTailSeq db m.streamID) :
    payloadAt db 0 m.streamID m.forkedFrom m.forkOffset n = some (db.payload m.streamID n) := by
  obtain ⟨v, hv⟩ := h.own_record hm hn (.inl hplain)
  rw [payloadAt, if_pos (.inl hplain), hv, payload_eq hv]
  rfl

/-- **One range, read at two moments.** A log that has grown gives the same body for the same offsets, whatever the
limits were. -/
theorem same_page {t₁ t₂ : Nat} (ht : t₁ ≤ t₂) {db₁ : Store}
    {fuel₁ id₁ src₁ off₁ limit₁ : Nat} {r₁ : ReadResult}
    (hlog₁ : ∀ n, n < t₁ → payloadAt db₁ 0 id₁ src₁ off₁ n = some (log n))
    (h₁ : readRange {} db₁ fuel₁ id₁ src₁ off₁ isJSON start t₁ limit₁ = .ok r₁) {db₂ : Store}
    {fuel₂ id₂ src₂ off₂ limit₂ : Nat} {r₂ : ReadResult}
    (hlog₂ : ∀ n, n < t₂ → payloadAt db₂ 0 id₂ src₂ off₂ n = some (log n))
    (h₂ : readRange {} db₂ fuel₂ id₂ src₂ off₂ isJSON start t₂ limit₂ = .ok r₂) (hn : r₁.next = r₂.next) :
    r₁.body = r₂.body := by
  rcases lt_or_ge start.seq t₁ with hs₁ | hs₁
  · have hs₂ := lt_of_lt_of_le hs₁ ht
    cases isJSON with
    | true =>
      rw [readRange_json_messages (zero_le _) hlog₁ hs₁ h₁, readRange_json_messages (zero_le _) hlog₂ hs₂ h₂, hn]
    | false =>
      have hb₁ := readRange_binary_append (zero_le _) hlog₁ hs₁ h₁
      have hb₂ := readRange_binary_append (zero_le _) hlog₂ hs₂ h₂
      have hin := (readRange_inside (zero_le _) hlog₁ hs₁ h₁).2
      rw [← hn, bytesFrom_grow log hin ht, bytesFrom_grow log (.inl hs₁) ht, ← hb₁, ← append_assoc] at hb₂
      exact (append_cancel_right (append_cancel_right hb₂)).symm
  · -- the first read was at the tail, or beyond it
    rw [readRange, if_pos hs₁, ok.injEq] at h₁
    subst h₁
    rcases lt_or_ge start.seq t₂ with hs₂ | hs₂
    · cases isJSON with
      | true =>
        have hlt := readRange_json_moves (zero_le _) hlog₂ hs₂ h₂
        rw [← hn] at hlt
        exact absurd hlt (lt_irrefl _)
      | false =>
        have hb₂ := readRange_binary_append (zero_le _) hlog₂ hs₂ h₂
        rw [← hn] at hb₂
        exact (append_left_eq_self.mp hb₂).symm
    · rw [readRange, if_pos hs₂, ok.injEq] at h₂
      rw [← h₂]

/-- The offsets of a stream fit their text: it has fewer than `10^16` records, none longer than `10^16` bytes. No
process can hold a stream for which this fails. -/
structure FitsOffsets (db : Store) (id : Nat) : Prop where
  records : loadTailSeq db id < 10 ^ 16
  payloads : ∀ n v, db.recordAt id n = some v → (recordPayload v).length ≤ 10 ^ 16

theorem next_fits {t : Nat} (ht : t < 10 ^ 16) (hlen : ∀ n, n < t → (log n).length ≤ 10 ^ 16) (hs : start.Fits)
    {fuel src off limit : Nat} {r : ReadResult}
    (hlog : ∀ n, n < t → payloadAt db 0 id src off n = some (log n))
    (h : readRange {} db fuel id src off isJSON start t limit = .ok r) : r.next.Fits := by
  rcases lt_or_ge start.seq t with hlt | hge
  · have hin := (readRange_inside (zero_le _) hlog hlt h).2
    refine ⟨?_, readRange_byte_lt (zero_le _) hlog hlt hlen hs.2 h⟩
    unfold Offset.Inside at hin
    omega
  · rw [readRange, if_pos hge, ok.injEq] at h
    rw [← h]
    exact hs

/-- A plain stream and what it was before: the tail has not moved back, and the old entries are the same. -/
theorem plain_prefix {db' : Store} {m' : StreamMeta} (hi : m'.identity = m.identity) (hplain : m'.forkedFrom = 0)
    (hp : ownEntries db m <+: ownEntries db' m') : loadTailSeq db m.streamID ≤ loadTailSeq db' m'.streamID ∧
      ∀ n, n < loadTailSeq db m.streamID → db.payload m.streamID n = db'.payload m'.streamID n := by
  have hb' : m'.base = 0 := if_pos hplain
  have hb : m.base = 0 := if_pos ((forkedFrom_of_identity hi).symm.trans hplain)
  unfold ownEntries at hp
  rw [hb, hb'] at hp
  have hle := hp.length_le
  rw [length_entries, length_entries] at hle
  obtain ⟨rest, hrest⟩ := hp
  refine ⟨by omega, fun n hn => ?_⟩
  have hlen : n < (entries (db.payload m.streamID) 0 (loadTailSeq db m.streamID)).length := by
    rw [length_entries]
    exact hn
  have he : (_ ++ rest)[n]? = _ := getElem?_append_left hlen
  rw [hrest, getElem?_entries, getElem?_entries, zero_add, if_pos hn, if_pos (by omega), some.injEq] at he
  exact he.symm

/-- A tag in a request matches only itself. -/
theorem etagMatches_makeETag {next : Offset}
    (htrim : L.trimSpace (makeETag id start next closed) = makeETag id start next closed)
    (h : etagMatches L (makeETag id start next closed) tag = true) : makeETag id start next closed = tag := by
  have hcomma : (44 : UInt8) ∉ makeETag id start next closed := by
    have hdigits : (44 : UInt8) ∉ formatInt id := fun hm => absurd (mem_formatInt hm).1 (by decide)
    have hoff : ∀ o : Offset, (44 : UInt8) ∉ o.string := fun o hm => by
      have hpad : ∀ v, (44 : UInt8) ∉ padDigits 16 v := fun v hm => absurd (mem_padDigits hm).1 (by decide)
      simp [Offset.string, appendOffset, appendPad16, hpad] at hm
    rw [makeETag_eq]
    cases closed <;> simp [hdigits, hoff]
  have hsplit := @splitOn_intercalate UInt8 [makeETag id start next closed] _ _ 44
    (fun l hl hm => hcomma (mem_singleton.mp hl ▸ hm)) (by simp)
  simp only [intercalate_singleton] at hsplit
  rw [etagMatches, hsplit, any_cons, htrim] at h
  rw [makeETag_eq] at h ⊢
  simpa [trimPrefix, ascii] using h

/-- **Tags identify content.** Of two catch-up reads in a run, whatever happens in between, with any limits: if they
carry the same tag and the later one is of a plain stream whose offsets fit their text, they have the same body and the
same closed flag; so a 304 hides nothing. -/
theorem etag_identifies (L : GoLib) (seen : Nat) {srv₁ srv₂ : Server}
    (hr₁ : Reach (step L) Any (newServer ∅ seen) srv₁) (hr₂ : Reach (step L) Any srv₁ srv₂)
    {flt₁ flt₂ : ReadFaults} {max₁ max₂ : Nat} {path₁ path₂ : Bytes} {offsets₁ offsets₂ : List Bytes}
    {r₁ r₂ : CatchupRead} {tag₁ tag₂ : Bytes} (h₁ : srv₁.handleGet L flt₁ max₁ path₁ offsets₁ = .ok r₁)
    (h₂ : srv₂.handleGet L flt₂ max₂ path₂ offsets₂ = .ok r₂) (ht₁ : r₁.etag = some tag₁) (ht₂ : r₂.etag = some tag₂)
    {m : StreamMeta} (hm : srv₂.db.metaAt path₂ = some m) (hplain : m.forkedFrom = 0)
    (hfits : FitsOffsets srv₂.db m.streamID) :
    (tag₁ = tag₂ → r₁.body = r₂.body ∧ r₁.closed = r₂.closed) ∧
      (L.trimSpace tag₁ = tag₁ → (r₂.respond L tag₁).1 = 304 → r₁.body = r₂.body ∧ r₁.closed = r₂.closed) := by
  have hsettled : (newServer ∅ seen).Settled := nofun
  obtain ⟨hi₁, hs₁⟩ := settled_of_reach hr₁ (.start catalog_empty seen) hsettled
  have hi₂ := hi₁.reach hr₂
  have hp₁ := published_of_reach hr₁ nofun
  have hp₂ := published_of_reach hr₂ hp₁
  obtain ⟨m₁, start₁, t₁, c₁, page₁, hm₁, hpo₁, hl₁, hpage₁, rfl, hb₁, -⟩ := handleGet_tagged h₁ ht₁
  obtain ⟨m₂, start₂, t₂, c₂, page₂, hm₂, hpo₂, hl₂, hpage₂, rfl, hb₂, -⟩ := handleGet_tagged h₂ ht₂
  cases hm.symm.trans hm₂
  have hsame : makeETag m₁.streamID start₁ page₁.next r₁.closed = makeETag m.streamID start₂ page₂.next r₂.closed →
      r₁.body = r₂.body ∧ r₁.closed = r₂.closed := by
    intro he
    obtain ⟨hid, hstart, hnext, hclosed⟩ := makeETag_inj he
    refine ⟨?_, hclosed⟩
    -- the same id at both moments is the same stream
    have hlt : m.streamID < recoverNextID srv₁.db := hid ▸ (hi₁.stored.ids path₁ m₁ hm₁).1
    obtain ⟨m', hm', hi, hpre⟩ := (continues_of_reach hr₂ hi₁ hs₁).kept path₂ m hm hlt
    have hpath := hi₁.stored.path_eq hm₁ hm' (hid.trans (streamID_of_identity hi))
    rw [← hpath, hm₁, some.injEq] at hm'
    subst hm'
    obtain ⟨htail, hold⟩ := plain_prefix hi hplain hpre
    have hplain₁ : m₁.forkedFrom = 0 := (forkedFrom_of_identity hi).symm.trans hplain
    have hlen : ∀ n, n < loadTailSeq srv₂.db m.streamID → (srv₂.db.payload m.streamID n).length ≤ 10 ^ 16 := by
      intro n hn
      obtain ⟨v, hv⟩ := hi₂.stored.own_record hm hn (.inl hplain)
      rw [payload_eq hv]
      exact hfits.payloads n v hv
    obtain rfl := liveState_tail hi₁ hp₁ hm₁ hl₁
    obtain rfl := liveState_tail hi₂ hp₂ hm hl₂
    have hlog₂ := plain_payloadAt hi₂.stored hm hplain
    have hlog₁ : ∀ n, n < loadTailSeq srv₁.db m₁.streamID →
        payloadAt srv₁.db 0 m₁.streamID m₁.forkedFrom m₁.forkOffset n = some (srv₂.db.payload m.streamID n) :=
      fun n hn => (plain_payloadAt hi₁.stored hm₁ hplain₁ n hn).trans (by rw [hold n hn])
    have hf₁ := parseOffset_fits hpo₁
    obtain rfl := hf₁.eq_of_string (parseOffset_fits hpo₂) hstart
    replace hpage₁ := readRange_noFaults hpage₁
    replace hpage₂ := readRange_noFaults hpage₂
    rw [← contentType_of_identity hi] at hpage₁
    have hn₁ := next_fits (lt_of_le_of_lt htail hfits.records)
      (fun n hn => hlen n (lt_of_lt_of_le hn htail)) hf₁ hlog₁ hpage₁
    have hn₂ := next_fits hfits.records hlen hf₁ hlog₂ hpage₂
    rw [hb₁, hb₂]
    exact same_page htail hlog₁ hpage₁ hlog₂ hpage₂ (hn₁.eq_of_string hn₂ hnext)
  refine ⟨hsame, fun htrim hnot => hsame (etagMatches_makeETag htrim ?_)⟩
  unfold CatchupRead.respond at hnot
  split at hnot
  · rename_i hmatch
    simpa [ht₂] using hmatch.2
  · cases hnot

/-! ## A read that ends within the first record -/

section First

variable {srv : Server} (h : ServerInv srv) (hp : srv.Published) {path : Bytes} {m : StreamMeta}
  (hm : srv.db.metaAt path = some m)
include h hp hm

theorem liveState_noFaults : ∃ closed, srv.liveState noFaults path = .ok (loadTailSeq srv.db m.streamID, closed) := by
  have hok : ∃ tail closed, srv.liveState noFaults path = .ok (tail, closed) := by
    unfold liveState
    split
    · exact ⟨_, _, rfl⟩
    · rw [show loadMeta noFaults srv.db path = .ok (some m) from congrArg ok hm]
      exact ⟨_, _, rfl⟩
  obtain ⟨tail, closed, hl⟩ := hok
  exact ⟨closed, by rw [hl, liveState_tail h hp hm hl]⟩

/-- A read from the start with a limit below the size of the first record. -/
theorem handleGet_first (ht : srv.db.tombstoneAt path = none)
    (hplain : m.forkedFrom = 0) (hbin : isJSONStream L m.contentType = false)
    (htail : 0 < loadTailSeq srv.db m.streamID)
    (hpos : 0 < maxReadBytes) (hlong : maxReadBytes < (srv.db.payload m.streamID 0).length) :
    ∃ r, srv.handleGet L {} maxReadBytes path [] = .ok r ∧ r.body = (srv.db.payload m.streamID 0).take maxReadBytes ∧
      r.etag = some (makeETag m.streamID ⟨0, 0⟩ ⟨0, maxReadBytes⟩ false) := by
  have hlog := plain_payloadAt h.stored hm hplain
  have hread := readRange_binary (zero_le srv.nextID) hlog ⟨0, 0⟩ maxReadBytes htail
  have hfill : Paging.fill maxReadBytes [] 0 (entries (srv.db.payload m.streamID) 0 (loadTailSeq srv.db m.streamID)) =
      ((srv.db.payload m.streamID 0).take maxReadBytes, 0, maxReadBytes) := by
    rw [entries_cons _ htail, Paging.fill_cut hpos (by rw [drop_zero, length_nil]; omega)]
    simp
  obtain ⟨closed, hlive⟩ := liveState_noFaults h hp hm
  have htomb : loadTombstone noFaults srv.db path = .ok none := congrArg ok ht
  have hmeta : loadMeta noFaults srv.db path = .ok (some m) := congrArg ok hm
  have hpo : parseOffset [] = some (.off ⟨0, 0⟩) := rfl
  simp only [hfill] at hread
  simp [handleGet, readCatchup, hpo, htomb, hmeta, hlive, softDeleted, hbin, hread, ne_of_gt htail]

end First

/-- A stream of one record of two bytes. -/
def tagEvents : List Event :=
  [{ action := .createStream { path := samplePath, contentType := [], body := [7, 8] } 0 0 },
    { action := .spawn samplePath }]

/-- A record more, and the end of the stream. -/
def moreEvents : List Event :=
  [{ action := .burst samplePath 0 [{ records := [[9]], hasBody := true, closeStream := true }] }]

/-- The stream in a state of its run. -/
def TagSample (srv : Server) (tail : Nat) : Prop :=
  srv.db.tombstoneAt samplePath = none ∧ loadTailSeq srv.db 1 = tail ∧ srv.db.payload 1 0 = [7, 8] ∧
    srv.db.payload 1 1 = (if tail = 2 then [9] else []) ∧ ∃ m ∈ srv.db.metaAt samplePath,
      m.forkedFrom = 0 ∧ m.streamID = 1 ∧ m.contentType = []

instance (srv : Server) (tail : Nat) : Decidable (TagSample srv tail) := by
  unfold TagSample
  infer_instance

/-- One byte is read before and after the append and the closure: the tag is the same, and so is the byte. -/
theorem etag_identifies_sample : ∃ srv₁ srv₂ r₁ r₂, Reach (step plainLib) Any (newServer ∅ 0) srv₁ ∧
    Reach (step plainLib) Any srv₁ srv₂ ∧ srv₁.handleGet plainLib {} 1 samplePath [] = .ok r₁ ∧
    srv₂.handleGet plainLib {} 1 samplePath [] = .ok r₂ ∧ loadTailSeq srv₁.db 1 < loadTailSeq srv₂.db 1 ∧
    r₁.etag = r₂.etag ∧ r₁.body = [7] ∧ r₁.body = r₂.body ∧ r₁.closed = r₂.closed := by
  obtain ⟨srv₁, hs₁, ⟨ht₁, htail₁, hpay₁, -, m₁, hm₁, hplain₁, hid₁, hct₁⟩, srv₂, hs₂, ht₂, htail₂, hpay₂, hnext₂, m₂,
      hm₂, hplain₂, hid₂, hct₂⟩ : ∃ srv₁ ∈ run (step plainLib) (newServer ∅ 0) tagEvents, TagSample srv₁ 1 ∧
      ∃ srv₂ ∈ run (step plainLib) srv₁ moreEvents, TagSample srv₂ 2 := by decide +kernel
  have hr₁ := reach_any hs₁
  have hr₂ := reach_any hs₂
  have hi₁ := (ServerInv.start catalog_empty 0).reach hr₁
  have hi₂ := hi₁.reach hr₂
  have hpub₁ := published_of_reach hr₁ nofun
  have hpub₂ := published_of_reach hr₂ hpub₁
  obtain ⟨r₁, ho₁, hb₁, he₁⟩ := handleGet_first hi₁ hpub₁ hm₁ (L := plainLib) ht₁ hplain₁ (by rw [hct₁]; decide)
    (by rw [hid₁, htail₁]; decide) one_pos (by rw [hid₁, hpay₁]; decide)
  obtain ⟨r₂, ho₂, hb₂, he₂⟩ := handleGet_first hi₂ hpub₂ hm₂ (L := plainLib) ht₂ hplain₂ (by rw [hct₂]; decide)
    (by rw [hid₂, htail₂]; decide) one_pos (by rw [hid₂, hpay₂]; decide)
  rw [hid₁] at he₁ hb₁
  rw [hpay₁] at hb₁
  rw [hid₂] at he₂
  have hfits : FitsOffsets srv₂.db m₂.streamID := by
    refine ⟨by rw [hid₂, htail₂]; decide, fun n v hv => ?_⟩
    obtain ⟨t, ht, -, hrecs⟩ := hi₂.stored.log _ m₂ hm₂
    have hn := ((hrecs n).mp (by rw [hv]; rfl)).2
    have hbound : n < 2 := by
      rw [← htail₂, ← hid₂, loadTailSeq, ht]
      exact hn
    rw [hid₂] at hv
    rw [← payload_eq hv]
    obtain rfl | rfl : n = 0 ∨ n = 1 := by omega
    · rw [hpay₂]; decide
    · rw [hnext₂]; decide
  obtain ⟨hb, hc⟩ := (etag_identifies plainLib 0 hr₁ hr₂ ho₁ ho₂ he₁ he₂ hm₂ hplain₂ hfits).1 rfl
  exact ⟨srv₁, srv₂, r₁, r₂, hr₁, hr₂, ho₁, ho₂, by rw [htail₁, htail₂]; decide, he₁.trans he₂.symm, hb₁, hb, hc⟩

end Yasdb
