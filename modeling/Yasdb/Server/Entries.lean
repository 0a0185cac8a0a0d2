import Yasdb.Server.Catchup
import Yasdb.Server.Messages
import Yasdb.Server.MetaCodec
import Yasdb.Lifecycle.Program

/-!
# What enters a stream

Records enter a stream with the body of the PUT that makes it, with POSTs, and with calls of `Server.Append` in process.
The server is run here with bursts of such entries, with a note of the entries that each stream has taken, and with the
metadata of a new stream as its bytes are read back (`Front`).

- `Front.Inv`: a JSON stream stores the records of the entries that it took, in order; kept by every step;
- `readRange_json_forall`: a JSON response holds records of the segments of its range;
- `json_only`: **JSON streams hold only JSON** if callers in process append only JSON;
- `append_unchecked`: a call in process that makes a JSON stream unreadable.
-/

namespace Yasdb

open Batch Runs Function List Option Json Lifecycle

variable {flt : Faults} {s : Streamer} {path : Bytes} {m : StreamMeta} {records : List Bytes} {id : Nat}

/-! ## Entries -/

/-- How records reach a stream. A handler goes by what it saw of the stream, which may have changed since. -/
inductive Entry where
  /-- the body of the PUT that makes the stream -/
  | put (body : Bytes)
  /-- a POST -/
  | post (p : Lifecycle.Post) (seenClosed : Bool) (seenType : Bytes)
  /-- `Server.Append` -/
  | append (records : List Bytes) (seenType : Bytes)
  /-- `Server.CloseStream` -/
  | close

open Entry

namespace Entry

/-- The request that is submitted to the streamer; `none` when the handler answers by itself. -/
def request (L : GoLib) : Entry → Option AppendReq
  | .put _ => none
  | .post p seenClosed seenType => (p.records L seenClosed seenType).toOption.map p.request
  | .append records seenType =>
    some { records := records, hasBody := !records.isEmpty, contentType := if records.isEmpty then [] else seenType }
  | .close => some { closeStream := true }

/-- The body that the handler turns into records. -/
def bodies (L : GoLib) : Entry → List Bytes
  | .put body => if body = [] then [] else [body]
  | .post p seenClosed seenType =>
    if p.hasBody && !seenClosed && contentTypeMatches L seenType p.contentType then [p.body] else []
  | _ => []

/-- The messages of an entry. -/
def messages (L : GoLib) (x : Entry) : List Value := (x.bodies L).flatMap (messagesOf L)

/-- The records that a JSON stream stores for an entry. -/
def stores (L : GoLib) : Entry → List Bytes
  | .append records _ => records
  | x => (x.messages L).map Value.render

/-- The records of a call in process are JSON if the stream is a JSON stream. -/
def Checked (L : GoLib) : Entry → Prop
  | .append records seenType => isJSONStream L seenType = true → ∀ r ∈ records, (parse r).isSome
  | _ => True

instance decidableChecked (L : GoLib) : DecidablePred (Checked L)
  | .append records seenType =>
    inferInstanceAs (Decidable (isJSONStream L seenType = true → ∀ r ∈ records, (parse r).isSome))
  | .put _ | .post .. | .close => .isTrue trivial

theorem isJSONStream_of_matches {L : GoLib} {ct ct' : Bytes} (h : contentTypeMatches L ct ct' = true) :
    isJSONStream L ct = isJSONStream L ct' := by
  rw [isJSONStream, isJSONStream, beq_iff_eq.mp h]

section Laws

variable {L : GoLib} (J : EncodingJSON L)
include J

theorem post_records {p : Post} {seenClosed : Bool} {seenType : Bytes}
    (hjson : p.hasBody = true → isJSONStream L p.contentType = true)
    (h : p.records L seenClosed seenType = .ok records) :
    records = ((post p seenClosed seenType).messages L).map Value.render ∧
      ∀ v ∈ (post p seenClosed seenType).messages L, parse v.render = some v := by
  unfold Post.records at h
  simp only [messages, bodies]
  split at h
  · rename_i hc
    rw [if_pos hc, flatMap_singleton]
    simp only [Bool.and_eq_true] at hc
    rw [Post.recordsFor, if_pos ((isJSONStream_of_matches hc.2).trans (hjson hc.1.1))] at h
    exact flattenJSON_messages J h
  · rename_i hc
    rw [if_neg hc, flatMap_nil]
    cases h
    exact ⟨rfl, nofun⟩

/-- **The records of an accepted request**, for a JSON stream. -/
theorem request_records {x : Entry} {req : AppendReq} (hreq : x.request L = some req)
    (hjson : req.hasBody = true → isJSONStream L req.contentType = true) :
    req.records = x.stores L ∧ ∀ v ∈ x.messages L, parse v.render = some v := by
  cases x with
  | put body => cases hreq
  | post p seenClosed seenType =>
    simp only [request] at hreq
    cases hr : p.records L seenClosed seenType with
    | error e => rw [hr] at hreq; cases hreq
    | ok records =>
      rw [hr] at hreq
      cases hreq
      exact post_records J hjson hr
  | _ =>
    cases hreq
    exact ⟨rfl, nofun⟩

theorem put_records {contentType body : Bytes} {msg : String}
    (hjson : isJSONStream L contentType = true) (h : initialRecords L contentType body msg = .ok records) :
    records = (put body).stores L ∧ ∀ v ∈ (put body).messages L, parse v.render = some v := by
  obtain ⟨hr, hv⟩ := initialRecords_messages J hjson h
  refine ⟨hr, fun v hv' => ?_⟩
  obtain ⟨b, hb, hv'⟩ := mem_flatMap.mp hv'
  exact hv b hb v hv'

end Laws

theorem stores_valid {L : GoLib} {x : Entry} (hc : x.Checked L)
    (hjson : ∀ records seenType, x = .append records seenType → records ≠ [] → isJSONStream L seenType = true)
    (hv : ∀ v ∈ x.messages L, parse v.render = some v) : ∀ r ∈ x.stores L, (parse r).isSome := by
  intro r hr
  have hrender : r ∈ (x.messages L).map Value.render → (parse r).isSome := fun hr => by
    obtain ⟨v, hm, rfl⟩ := List.mem_map.mp hr
    rw [hv v hm]
    rfl
  cases x with
  | append records seenType => exact hc (hjson records seenType rfl (ne_nil_of_mem hr)) r hr
  | _ => exact hrender hr

end Entry

/-- The entries whose requests are accepted, one after the other. -/
def View.acceptedOf (L : GoLib) (now : Int64) : View → List (Entry × AppendReq) → List (Entry × AppendReq)
  | _, [] => []
  | v, x :: xs => if v.Accepts L x.2 then x :: acceptedOf L now (v.apply now x.2) xs else acceptedOf L now v xs

namespace View

variable {L : GoLib} {now : Int64}

theorem map_acceptedOf : ∀ (xs : List (Entry × AppendReq)) (v : View),
    (v.acceptedOf L now xs).map (·.2) = v.accepted L now (xs.map (·.2))
  | [], _ => rfl
  | x :: xs, v => by
    by_cases ha : v.Accepts L x.2
    · rw [acceptedOf, if_pos ha, map_cons, map_cons, accepted_cons_accept ha, map_acceptedOf]
    · rw [acceptedOf, if_neg ha, map_cons, accepted_cons_not ha, map_acceptedOf]

theorem mem_acceptedOf {x : Entry × AppendReq} : ∀ {xs : List (Entry × AppendReq)} {v : View},
    x ∈ v.acceptedOf L now xs → x ∈ xs
  | y :: xs, v, h => by
    unfold acceptedOf at h
    split at h
    · rcases mem_cons.mp h with rfl | h
      · exact mem_cons_self
      · exact mem_cons_of_mem _ (mem_acceptedOf h)
    · exact mem_cons_of_mem _ (mem_acceptedOf h)

end View

/-! ## The server and its entries -/

/-- The path of a stream that is to be created. -/
def Server.Action.target : Server.Action → Option Bytes
  | .createStream p _ _ => some p.path
  | .createFork p _ _ => some p.path
  | _ => none

/-- The server with the metadata at a path as its bytes are read back. -/
def Server.readBack (srv : Server) (path : Bytes) : Server :=
  match srv.db.metaAt path with
  | none => srv
  | some m => { srv with db := srv.db.insert (.metaKey path) m.readBack }

/-- Sixteen bits hold the length of the content type with which a stream is created. -/
def Server.Measured (L : GoLib) (srv : Server) (e : Server.Event) : Prop :=
  ∀ srv' ∈ Server.step L srv e, ∀ p ∈ e.action.target, ∀ m ∈ srv'.db.metaAt p, m.contentType.length < 2 ^ 16

theorem Server.readBack_eq {srv : Server} (h : ∀ m ∈ srv.db.metaAt path, m.contentType.length < 2 ^ 16) :
    srv.readBack path = srv := by
  unfold readBack
  split
  · rfl
  · rename_i m hm
    rw [StreamMeta.readBack_eq (h m hm)]
    have hdb : srv.db.insert (.metaKey path) m = srv.db := Finmap.ext_lookup fun k => by
      by_cases hk : k = .metaKey path
      · subst hk
        rw [Finmap.lookup_insert]
        exact hm.symm
      · exact Finmap.lookup_insert_of_ne _ hk
    rw [hdb]

/-- The server, and the entries that each stream has taken, oldest first. -/
structure Front where
  srv : Server
  took : Nat → List Entry := fun _ => []

namespace Front

inductive Event where
  /-- a step of the server other than a burst -/
  | server (e : Server.Event)
  /-- a burst -/
  | appends (path : Bytes) (now : Int64) (entries : List Entry) (flt : Faults := noFaults) (ok : Bool := true)

/-- Note the body of a stream that has appeared. -/
def started (f : Front) (srv' : Server) (path body : Bytes) : Nat → List Entry :=
  match f.srv.db.metaAt path, srv'.db.metaAt path with
  | none, some m => update f.took m.streamID [.put body]
  | _, _ => f.took

/-- Note what a step other than a burst takes. -/
def noted (f : Front) (srv' : Server) : Server.Action → Nat → List Entry
  | .createStream p _ _ => f.started srv' p.path p.body
  | .createFork p _ _ => f.started srv' p.path p.body
  | _ => f.took

/-- The entries of a burst with their requests. -/
def requests (L : GoLib) (entries : List Entry) : List (Entry × AppendReq) :=
  entries.filterMap fun x => (x.request L).map (x, ·)

/-- The accepted entries of a burst. -/
def accepted (L : GoLib) (f : Front) (flt : Faults) (s : Streamer) (now : Int64) (entries : List Entry) :
    List (Entry × AppendReq) :=
  (viewOf flt f.srv.db s).acceptedOf L now (requests L entries)

/-- A burst of requests, as an event of the server. -/
def burst (L : GoLib) (path : Bytes) (now : Int64) (entries : List Entry) (flt : Faults) (ok : Bool) :
    Server.Event where
  action := .burst path now ((requests L entries).map (·.2))
  flt := flt
  ok := ok

def step (L : GoLib) (f : Front) : Event → Option Front
  | .server e =>
    match e.action with
    | .burst .. => none
    | a =>
      (Server.step L f.srv e).map fun srv' =>
        let srv' := a.target.elim srv' srv'.readBack
        ⟨srv', f.noted srv' a⟩
  | .appends path now entries flt ok =>
    match f.srv.registry path with
    | none => none
    | some s =>
      (Server.step L f.srv (burst L path now entries flt ok)).map fun srv' =>
        ⟨srv', if ok then update f.took s.id (f.took s.id ++ (f.accepted L flt s now entries).map (·.1))
          else f.took⟩

/-- Only entries with a property are submitted, and no content type is cut. -/
def Only (L : GoLib) (G : Entry → Prop) (f : Front) : Event → Prop
  | .server e => f.srv.Measured L e
  | .appends _ _ entries _ _ => ∀ x ∈ entries, G x

instance decidableOnly {L : GoLib} {G : Entry → Prop} [DecidablePred G] (f : Front) : ∀ e, Decidable (Only L G f e)
  | .server e => inferInstanceAs (Decidable (∀ srv' ∈ Server.step L f.srv e, ∀ p ∈ e.action.target,
      ∀ m ∈ srv'.db.metaAt p, m.contentType.length < 2 ^ 16))
  | .appends _ _ entries _ _ => inferInstanceAs (Decidable (∀ x ∈ entries, G x))

variable {L : GoLib} {f f' : Front}

/-- A step of the server, or a burst. -/
theorem step_cases {G : Entry → Prop} {e : Event} (hG : Only L G f e) (h : f.step L e = some f') :
    (∃ e₀, e = .server e₀ ∧ (∀ path now batch, e₀.action ≠ .burst path now batch) ∧
      Server.step L f.srv e₀ = some f'.srv ∧ f'.took = f.noted f'.srv e₀.action) ∨
    ∃ path now entries flt ok s, e = .appends path now entries flt ok ∧ f.srv.registry path = some s ∧
      Server.step L f.srv (burst L path now entries flt ok) = some f'.srv ∧
      f'.took = if ok then update f.took s.id (f.took s.id ++ (f.accepted L flt s now entries).map (·.1))
        else f.took := by
  cases e with
  | server e₀ =>
    left
    simp only [step] at h
    split at h
    · cases h
    · rename_i hne
      obtain ⟨srv', hs, rfl⟩ := map_eq_some_iff.mp h
      have hback : e₀.action.target.elim srv' srv'.readBack = srv' := by
        cases ht : e₀.action.target with
        | none => rfl
        | some p => exact Server.readBack_eq fun m hm => hG srv' hs p ht m hm
      rw [hback]
      exact ⟨e₀, rfl, hne, hs, rfl⟩
  | appends path now entries flt ok =>
    right
    simp only [step] at h
    split at h
    · cases h
    · rename_i s hs
      obtain ⟨srv', hstep, rfl⟩ := map_eq_some_iff.mp h
      exact ⟨path, now, entries, flt, ok, s, rfl, hs, hstep, rfl⟩

theorem mem_accepted {now : Int64} {entries : List Entry} {x : Entry × AppendReq}
    (h : x ∈ f.accepted L flt s now entries) : x.1 ∈ entries ∧ x.1.request L = some x.2 ∧
      (x.2.hasBody = true → isJSONStream L x.2.contentType = isJSONStream L s.streamMeta.contentType) := by
  obtain ⟨y, hy, hsub⟩ := mem_filterMap.mp (View.mem_acceptedOf h)
  obtain ⟨req, hreq, rfl⟩ := map_eq_some_iff.mp hsub
  refine ⟨hy, hreq, fun hb => ?_⟩
  have hm := List.mem_map_of_mem (f := (·.2)) h
  rw [accepted, View.map_acceptedOf] at hm
  exact (isJSONStream_of_matches (View.matches_of_accepted hb hm)).symm

theorem accepted_records (J : EncodingJSON L) {now : Int64} {entries : List Entry}
    (hjson : isJSONStream L s.streamMeta.contentType = true) :
    ((viewOf flt f.srv.db s).accepted L now ((requests L entries).map (·.2))).flatMap (·.records) =
      ((f.accepted L flt s now entries).map (·.1)).flatMap (stores L) := by
  rw [← View.map_acceptedOf, flatMap_map, flatMap_map]
  refine flatMap_congr fun x hx => ?_
  obtain ⟨-, hreq, hm⟩ := mem_accepted hx
  exact (request_records J hreq fun hb => (hm hb).trans hjson).1

end Front

/-! ## What JSON streams hold -/

theorem Removes.kept {db db' : Store} (r : Removes db db' path id) {p : Bytes} (hm : db'.metaAt p = some m) :
    db.metaAt p = some m ∧ p ≠ path := by
  have hne : p ≠ path := by
    rintro rfl
    rw [r.removed] at hm
    cases hm
  exact ⟨(r.rewrites.frame (.metaKey p) hne).symm.trans hm, hne⟩

/-- What is known of an entry that a JSON stream has taken. -/
structure Entry.Taken (L : GoLib) (G : Entry → Prop) (x : Entry) : Prop where
  only : G x
  json : ∀ records seenType, x = .append records seenType → records ≠ [] → isJSONStream L seenType = true
  valid : ∀ v ∈ x.messages L, parse v.render = some v

namespace Front

/-- The JSON stream stores the records of the entries that it took. -/
structure Holds (L : GoLib) (G : Entry → Prop) (f : Front) (m : StreamMeta) : Prop where
  records : ownEntries f.srv.db m = (f.took m.streamID).flatMap (stores L)
  taken : ∀ x ∈ f.took m.streamID, x.Taken L G

structure Inv (L : GoLib) (G : Entry → Prop) (f : Front) : Prop where
  server : ServerInv f.srv
  settled : f.srv.Settled
  holds : ∀ path m, f.srv.db.metaAt path = some m → isJSONStream L m.contentType = true → f.Holds L G m
  sources : ∀ path m p src, f.srv.db.metaAt path = some m → isJSONStream L m.contentType = true →
    f.srv.db.metaAt p = some src → src.streamID = m.forkedFrom → isJSONStream L src.contentType = true

variable {L : GoLib} {G : Entry → Prop} {f f' : Front}

namespace Inv

theorem start (L : GoLib) (G : Entry → Prop) (seen : Nat) : Inv L G { srv := newServer ∅ seen } :=
  ⟨.start catalog_empty seen, nofun, nofun, nofun⟩

section

variable (h : Inv L G f) (hi : ServerInv f'.srv) (hs : f'.srv.Settled)
include h hi hs

/-- Every stream was there before, and stores the records of the entries that it took since. -/
theorem grown
    (hg : ∀ path m', f'.srv.db.metaAt path = some m' → ∃ m, f.srv.db.metaAt path = some m ∧ m'.identity = m.identity ∧
      (isJSONStream L m.contentType = true → ∃ xs, f'.took m.streamID = f.took m.streamID ++ xs ∧
        (∀ x ∈ xs, x.Taken L G) ∧ ownEntries f'.srv.db m' = ownEntries f.srv.db m ++ xs.flatMap (stores L))) :
    Inv L G f' := by
  refine ⟨hi, hs, fun path m' hm' hj => ?_, fun path m' p src' hm' hj hp hsrc => ?_⟩
  · obtain ⟨m, hm, hid, hxs⟩ := hg path m' hm'
    rw [contentType_of_identity hid] at hj
    obtain ⟨xs, htook, hxs, hown⟩ := hxs hj
    obtain ⟨hr, hx⟩ := h.holds path m hm hj
    rw [← streamID_of_identity hid] at htook
    refine ⟨?_, fun x hmem => ?_⟩
    · rw [hown, hr, htook, flatMap_append, streamID_of_identity hid]
    · rw [htook, streamID_of_identity hid] at hmem
      rcases mem_append.mp hmem with hmem | hmem
      · exact hx x hmem
      · exact hxs x hmem
  · obtain ⟨m, hm, hid, -⟩ := hg path m' hm'
    obtain ⟨src, hsrc', hid', -⟩ := hg p src' hp
    rw [contentType_of_identity hid']
    refine h.sources path m p src hm (contentType_of_identity hid ▸ hj) hsrc' ?_
    rw [← streamID_of_identity hid', hsrc, forkedFrom_of_identity hid]

theorem alike (a : Alike f.srv.db f'.srv.db)
    (ht : f'.took = f.took) : Inv L G f' := by
  refine h.grown hi hs fun path m' hm' => ?_
  obtain ⟨m, hm, hid⟩ := a.origin hm'
  exact ⟨m, hm, hid, fun _ => ⟨[], by rw [ht, append_nil], nofun, by simpa using a.ownEntries hm hid⟩⟩

theorem removed (r : Removes f.srv.db f'.srv.db path id) (ht : f'.took = f.took) : Inv L G f' := by
  refine h.grown hi hs fun p m hm => ?_
  obtain ⟨hm, hne⟩ := r.kept hm
  exact ⟨m, hm, rfl, fun _ => ⟨[], by rw [ht, append_nil], nofun,
    by simpa using (r.rewrites.ownEntries h.server.stored hne hm).2⟩⟩

/-- A new stream. No older stream is a fork of it, since sources have smaller ids. -/
theorem adds {count : Nat} (a : Adds f.srv.db f'.srv.db path m records count)
    (ht : ∀ i, i ≠ m.streamID → f'.took i = f.took i)
    (hnew : isJSONStream L m.contentType = true →
      records = (f'.took m.streamID).flatMap (stores L) ∧ ∀ x ∈ f'.took m.streamID, x.Taken L G)
    (hsrc : ∀ p src, f.srv.db.metaAt p = some src → src.streamID = m.forkedFrom → isJSONStream L m.contentType = true →
      isJSONStream L src.contentType = true) : Inv L G f' := by
  have hc := h.server.stored
  have hother : ∀ p, p ≠ path → f'.srv.db.metaAt p = f.srv.db.metaAt p := fun p hp => a.rewrites.frame (.metaKey p) hp
  have hid : m.streamID = recoverNextID f.srv.db := by
    rcases a.rewrites.before with ⟨m₁, hm₁, -⟩ | ⟨-, hid⟩
    · rw [a.fresh] at hm₁
      cases hm₁
    · exact hid
  refine ⟨hi, hs, fun p m' hm' hj => ?_, fun p m' p' src' hm' hj hp' hsrc' => ?_⟩
  · by_cases he : p = path
    · rw [he, a.added, some.injEq] at hm'
      subst hm'
      exact ⟨a.ownEntries_new.trans (hnew hj).1, (hnew hj).2⟩
    · rw [hother p he] at hm'
      obtain ⟨hr, hx⟩ := h.holds p m' hm' hj
      rw [← ht m'.streamID (by have := (hc.ids p m' hm').1; omega)] at hr hx
      exact ⟨(a.ownEntries_eq hc hm').2.trans hr, hx⟩
  · by_cases he : p = path
    · rw [he, a.added, some.injEq] at hm'
      subst hm'
      by_cases he' : p' = path
      · rw [he', a.added, some.injEq] at hp'
        rw [← hp']
        exact hj
      · rw [hother p' he'] at hp'
        exact hsrc p' src' hp' hsrc' hj
    · rw [hother p he] at hm'
      by_cases he' : p' = path
      · rw [he', a.added, some.injEq] at hp'
        have hlt := hc.ids p m' hm'
        rw [← hp', hid] at hsrc'
        omega
      · rw [hother p' he'] at hp'
        exact h.sources p m' p' src' hm' hj hp' hsrc'

end

end Inv

theorem noted_eq {srv' : Server} (h : ∀ path m', srv'.db.metaAt path = some m' → ∃ m, f.srv.db.metaAt path = some m)
    (a : Server.Action) : f.noted srv' a = f.took := by
  have hstart : ∀ path body, f.started srv' path body = f.took := fun path body => by
    unfold started
    split
    · rename_i hnone hsome
      obtain ⟨m, hm⟩ := h path _ hsome
      rw [hnone] at hm
      cases hm
    · rfl
  cases a with
  | createStream p now nowMs => exact hstart p.path p.body
  | createFork p now nowMs => exact hstart p.path p.body
  | _ => rfl

theorem started_eq {srv' : Server} {body : Bytes} (hnone : f.srv.db.metaAt path = none)
    (hm : srv'.db.metaAt path = some m) :
    f.started srv' path body = update f.took m.streamID [.put body] := by
  rw [started, hnone, hm]

theorem taken_of_accepted (J : EncodingJSON L) {now : Int64} {entries : List Entry}
    (hG : ∀ x ∈ entries, G x) (hjson : isJSONStream L s.streamMeta.contentType = true) :
    ∀ x ∈ (f.accepted L flt s now entries).map (·.1), x.Taken L G := by
  intro x hx
  obtain ⟨⟨x, req⟩, hacc, rfl⟩ := List.mem_map.mp hx
  obtain ⟨hmem, hreq, hm⟩ := mem_accepted hacc
  refine ⟨hG x hmem, ?_, (request_records J hreq fun hb => (hm hb).trans hjson).2⟩
  rintro records seenType rfl hne
  cases hreq
  have hfalse : records.isEmpty = false := by simpa using hne
  simpa [hfalse, hjson] using hm

namespace Inv

/-- A burst. -/
theorem burst (J : EncodingJSON L) (h : Inv L G f) {now : Int64} {entries : List Entry}
    {ok : Bool} (hG : ∀ x ∈ entries, G x) (hreg : f.srv.registry path = some s)
    (hs : Server.step L f.srv (Front.burst L path now entries flt ok) = some f'.srv)
    (ht : f'.took = if ok then update f.took s.id (f.took s.id ++ (f.accepted L flt s now entries).map (·.1))
      else f.took) : Inv L G f' := by
  have hi := h.server.step hs
  have hset := (h.server.continues h.settled hs).1
  obtain ⟨rfl, hatt⟩ := h.server.resident _ _ hreg
  have hother : ∀ p m, p ≠ s.path → f.srv.db.metaAt p = some m → f'.took m.streamID = f.took m.streamID := by
    intro p m hp hm
    have hne : m.streamID ≠ s.id := fun he => hp (h.server.stored.path_eq hm hatt.streamMeta (he.trans hatt.id.symm))
    rw [ht]
    split
    · exact update_of_ne hne _ _
    · rfl
  have hown : ok = true →
      f'.took s.streamMeta.streamID = f.took s.streamMeta.streamID ++ (f.accepted L flt s now entries).map (·.1) := by
    intro hok
    rw [ht, if_pos hok, ← hatt.id, update_self]
  cases h.server.change hs with
  | alike a hn =>
    cases ok with
    | false => exact h.alike hi hset a ht
    | true =>
      refine h.grown hi hset fun p m' hm' => ?_
      obtain ⟨m, hm, hid⟩ := a.origin hm'
      refine ⟨m, hm, hid, fun hj => ?_⟩
      by_cases hp : p = s.path
      · rw [hp, hatt.streamMeta, some.injEq] at hm
        subst hm
        refine ⟨_, hown rfl, taken_of_accepted J hG hj, ?_⟩
        simp only [Server.added, Front.burst, hreg, if_true, accepted_records J hj] at hn
        rw [a.ownEntries hatt.streamMeta hid, hn, append_nil]
      · exact ⟨[], by rw [hother p m hp hm, append_nil], by simp, by simpa using a.ownEntries hm hid⟩
  | appended ha hok hs' r hm hid ho hu =>
    cases ha
    cases hreg.symm.trans hs'
    refine h.grown hi hset fun p m' hm' => ?_
    by_cases hp : p = s.path
    · rw [hp, hm, some.injEq] at hm'
      subst hm'
      refine ⟨_, hp ▸ hatt.streamMeta, hid, fun hj => ⟨_, hown hok, taken_of_accepted J hG hj, ?_⟩⟩
      rw [ho, ← accepted_records J hj]
      rfl
    · rw [show f'.srv.db.metaAt p = f.srv.db.metaAt p from r.frame (.metaKey p) hp] at hm'
      exact ⟨m', hm', rfl, fun _ => ⟨[], by rw [hother p m' hp hm', append_nil], by simp,
        by simpa using (r.ownEntries h.server.stored hp hm').2⟩⟩
  | created ha => cases ha
  | forked ha => cases ha
  | removed hq => exact absurd rfl (hq _ _ _)
  | restarted ha => cases ha

/-- A step other than a burst. -/
theorem quiet (J : EncodingJSON L) (hput : ∀ body, G (.put body)) (h : Inv L G f) {e : Server.Event}
    (hq : ∀ path now batch, e.action ≠ .burst path now batch) (hs : Server.step L f.srv e = some f'.srv)
    (ht : f'.took = f.noted f'.srv e.action) : Inv L G f' := by
  have hi := h.server.step hs
  have hset := (h.server.continues h.settled hs).1
  have hc := h.server.stored
  cases h.server.change hs with
  | alike a hn =>
    refine h.alike hi hset a (ht.trans (noted_eq (fun path m' hm' => ?_) _))
    obtain ⟨m, hm, -⟩ := a.origin hm'
    exact ⟨m, hm⟩
  | appended ha => exact absurd ha (hq _ _ _)
  | created ha hr c =>
    rw [ha] at ht
    have ht := ht.trans (started_eq c.adds.fresh c.adds.added)
    refine h.adds hi hset c.adds (fun i hne => by rw [ht]; exact update_of_ne hne _ _) (fun hj => ?_) ?_
    · rw [ht, update_self, flatMap_singleton]
      obtain ⟨hrec, hv⟩ := put_records J hj hr
      exact ⟨hrec, fun x hx => mem_singleton.mp hx ▸ ⟨hput _, nofun, hv⟩⟩
    · intro p src hsrc hid _
      have hlt := (hc.ids p src hsrc).2
      rw [hid] at hlt
      exact absurd hlt (Nat.not_lt_zero _)
  | forked ha hsrc hfrom hpre hr hj hb c =>
    rw [ha] at ht
    have ht := ht.trans (started_eq c.adds.fresh c.adds.added)
    refine h.adds hi hset c.adds (fun i hne => by rw [ht]; exact update_of_ne hne _ _) (fun hjson => ?_) ?_
    · rw [ht, update_self, flatMap_singleton]
      obtain ⟨hrec, hv⟩ := put_records J hjson hr
      rw [hb (hj ▸ hjson), forkPrefix, if_neg (Nat.lt_irrefl 0)] at hpre
      cases hpre
      exact ⟨hrec, fun x hx => mem_singleton.mp hx ▸ ⟨hput _, nofun, hv⟩⟩
    · intro p src' hsrc' hid hjson
      have hpath := hc.path_eq hsrc' hsrc (hid.trans hfrom)
      rw [hpath, hsrc, some.injEq] at hsrc'
      rw [← hsrc', ← hj]
      exact hjson
  | removed _ r hu =>
    refine h.removed hi hset r (ht.trans (noted_eq (fun p m hm => ?_) _))
    exact ⟨m, (r.kept hm).1⟩
  | restarted ha hdb hnew =>
    rw [ha] at ht
    refine h.alike hi hset ?_ ht
    rw [hnew]
    rcases mem_cons.mp hdb with rfl | hdb
    · exact .refl _
    · exact h.settled _ hdb

/-- **Every step keeps the invariant.** -/
theorem step (J : EncodingJSON L) (hput : ∀ body, G (.put body)) (h : Inv L G f) {e : Event} (hG : Only L G f e)
    (he : f.step L e = some f') : Inv L G f' := by
  rcases step_cases hG he with ⟨e₀, rfl, hq, hs, ht⟩ | ⟨path, now, entries, flt, ok, s, rfl, hreg, hs, ht⟩
  · exact h.quiet J hput hq hs ht
  · exact h.burst J hG hreg hs ht

end Inv

theorem inv_of_reach (J : EncodingJSON L) (hput : ∀ body, G (.put body)) {seen : Nat}
    (hr : Reach (step L) (Only L G) { srv := newServer ∅ seen } f) : Inv L G f :=
  hr.invariant (P := Inv L G) (fun _ _ _ h hG he => h.step J hput hG he) (.start L G seen)

end Front

/-! ## Reads of JSON streams -/

/-- A segment is one of the stream itself or one of its source. -/
theorem mem_resolveSegments {byID : Nat → Nat → Nat → Except String (List Segment)} {forkedFrom forkOffset s e : Nat}
    {segs : List Segment} (h : resolveSegments byID id forkedFrom forkOffset s e = .ok segs) {seg : Segment}
    (hseg : seg ∈ segs) : seg.id = id ∨ ∃ s' e' below, byID forkedFrom s' e' = .ok below ∧ seg ∈ below := by
  unfold resolveSegments at h
  split at h
  · cases h
    cases hseg
  · split at h
    · cases h
      rw [mem_singleton.mp hseg]
      exact .inl rfl
    · have hown : seg ∈ (if e > forkOffset then [(⟨id, max s forkOffset, e⟩ : Segment)] else []) → seg.id = id := by
        intro hm
        split at hm
        · rw [mem_singleton.mp hm]
        · cases hm
      dsimp only at h
      split at h
      · cases hr : byID forkedFrom s (min e forkOffset) with
        | error err => rw [hr] at h; cases h
        | ok below =>
          rw [hr] at h
          cases h
          rcases mem_append.mp hseg with hseg | hseg
          · exact .inr ⟨s, _, below, hr, hseg⟩
          · exact .inl (hown hseg)
      · cases h
        exact .inl (hown hseg)

theorem mem_ownEntries {db : Store} (h : Catalog db) (hm : db.metaAt path = some m)
    {n : Nat} {v : Bytes} (hv : db.recordAt m.streamID n = some v) : recordPayload v ∈ ownEntries db m := by
  obtain ⟨t, ht, -, hlog⟩ := h.log path m hm
  have hn := (hlog n).mp (by rw [hv]; rfl)
  refine List.mem_map.mpr ⟨n, mem_range'_1.mpr ?_, by rw [Store.payload, hv]; rfl⟩
  rw [loadTailSeq, ht]
  exact ⟨hn.1, by show n < m.base + (t.seq - m.base); omega⟩

namespace Front.Inv

variable {L : GoLib} {G : Entry → Prop} {f : Front} (h : f.Inv L G)
include h

/-- The chain of sources of a JSON stream consists of JSON streams. -/
theorem chain : ∀ {fuel id s e : Nat} {segs : List Segment},
    (∀ path m, f.srv.db.metaAt path = some m → m.streamID = id → isJSONStream L m.contentType = true) →
    resolveSegmentsByID noFaults f.srv.db fuel id s e = .ok segs → ∀ seg ∈ segs,
    ∃ path m, f.srv.db.metaAt path = some m ∧ m.streamID = seg.id ∧ isJSONStream L m.contentType = true
  | 0, _, _, _, _, _, hr => by
    cases hr
    nofun
  | fuel + 1, id, s, e, segs, hj, hr => by
    intro seg hseg
    unfold resolveSegmentsByID resolveWithin at hr
    split at hr
    · cases hr
    · cases hr
      cases hseg
    · rename_i m path hl
      obtain ⟨hmap, hm⟩ := loadMetaByID_ok hl
      have hid := (h.server.stored.forksBelow id path m hmap hm).1
      rcases mem_resolveSegments hr hseg with hs | ⟨s', e', below, hbelow, hseg⟩
      · exact ⟨path, m, hm, hid.trans hs.symm, hj path m hm hid⟩
      · exact chain (fun p src hp hsrc => h.sources path m p src hm (hj path m hm hid) hp hsrc) hbelow seg hseg

/-- A JSON response holds records of JSON streams. -/
theorem readRange_json (hm : f.srv.db.metaAt path = some m)
    (hjson : isJSONStream L m.contentType = true) {P : Bytes → Prop}
    (hP : ∀ p m', f.srv.db.metaAt p = some m' → isJSONStream L m'.contentType = true →
      ∀ r ∈ ownEntries f.srv.db m', P r) {flt : ReadFaults} {fuel : Nat} {start : Offset} {tail limit : Nat}
    {page : ReadResult}
    (hr : readRange flt f.srv.db fuel m.streamID m.forkedFrom m.forkOffset true start tail limit = .ok page) :
    ∃ recs, page.body = wrapJSONArray recs ∧ ∀ r ∈ recs, P r := by
  refine readRange_json_forall hr fun segs hsegs seg hseg n v hv => ?_
  rcases mem_resolveSegments hsegs hseg with hs | ⟨s', e', below, hbelow, hseg⟩
  · exact hP path m hm hjson _ (mem_ownEntries h.server.stored hm (hs ▸ hv))
  · obtain ⟨p, m', hm', hid, hj⟩ := h.chain (fun p src hp hsrc => h.sources path m p src hm hjson hp hsrc) hbelow seg
      hseg
    exact hP p m' hm' hj _ (mem_ownEntries h.server.stored hm' (hid ▸ hv))

end Front.Inv

/-! ## Only JSON -/

theorem Front.Inv.records_valid {L : GoLib} {f : Front} (h : f.Inv L (Checked L))
    (hm : f.srv.db.metaAt path = some m) (hjson : isJSONStream L m.contentType = true) :
    ∀ r ∈ ownEntries f.srv.db m, (parse r).isSome := by
  obtain ⟨hrec, htaken⟩ := h.holds path m hm hjson
  intro r hr
  rw [hrec] at hr
  obtain ⟨x, hx, hr⟩ := mem_flatMap.mp hr
  obtain ⟨hc, hj, hv⟩ := htaken x hx
  exact stores_valid hc hj hv r hr

/-- **A JSON stream holds only JSON**, in every run in which no content type is cut and callers in process append only
JSON to JSON streams: every record is one JSON value, and every response is a JSON array. -/
theorem json_only {L : GoLib} (J : EncodingJSON L) {seen : Nat} {f : Front}
    (hr : Reach (Front.step L) (Front.Only L (Checked L)) { srv := newServer ∅ seen } f) {path : Bytes}
    {m : StreamMeta} (hm : f.srv.db.metaAt path = some m) (hjson : isJSONStream L m.contentType = true) :
    (∀ n v, f.srv.db.recordAt m.streamID n = some v → (parse (recordPayload v)).isSome) ∧
    (∀ flt fuel start tail limit page,
      readRange flt f.srv.db fuel m.streamID m.forkedFrom m.forkOffset true start tail limit = .ok page →
        ∃ vs, parse page.body = some (.arr vs)) ∧
    ∀ flt maxReadBytes offsets r, f.srv.handleGet L flt maxReadBytes path offsets = .ok r →
      ∃ vs, parse r.body = some (.arr vs) := by
  have h := Front.inv_of_reach J (fun _ => trivial) hr
  have hrange : ∀ flt fuel start tail limit page,
      readRange flt f.srv.db fuel m.streamID m.forkedFrom m.forkOffset true start tail limit = .ok page →
        ∃ vs, parse page.body = some (.arr vs) := by
    intro flt fuel start tail limit page hpage
    obtain ⟨recs, hbody, hrecs⟩ := h.readRange_json hm hjson (fun p m' hm' hj => h.records_valid hm' hj) hpage
    obtain ⟨vs, hvs, -⟩ := parse_wrapJSONArray hrecs
    exact ⟨vs, hbody ▸ hvs⟩
  refine ⟨fun n v hv => h.records_valid hm hjson _ (mem_ownEntries h.server.stored hm hv), hrange, ?_⟩
  intro flt maxReadBytes offsets r hget
  obtain ⟨m', hm', hcases⟩ := Server.handleGet_cases hget
  cases hm.symm.trans hm'
  rw [hjson] at hcases
  rcases hcases with ⟨-, hbody⟩ | ⟨start, tail, closed, page, -, -, hpage, -, hbody, -⟩
  · obtain ⟨vs, hvs, -⟩ := @parse_wrapJSONArray [] nofun
    exact ⟨vs, hbody ▸ hvs⟩
  · exact hbody ▸ hrange _ _ _ _ _ page hpage

/-! ## Sample runs -/

/-- A JSON stream, and records that are appended in process. -/
def inProcess (records : List Bytes) : List Front.Event :=
  [.server { action := .createStream { path := samplePath, contentType := contentTypeJSON } 0 0 },
    .server { action := .spawn samplePath }, .appends samplePath 0 [.append records contentTypeJSON]]

/-- A stream with one record. -/
def OneRecord (srv : Server) (payload : Bytes) : Prop :=
  loadTailSeq srv.db 1 = 1 ∧ srv.db.recordAt 1 0 = some (marshalRecord recFlagNone payload) ∧
    srv.db.metaAt samplePath = some { streamID := 1, contentType := contentTypeJSON }

instance (srv : Server) (payload : Bytes) : Decidable (OneRecord srv payload) := by
  unfold OneRecord
  infer_instance

theorem OneRecord.read {srv : Server} {payload : Bytes} (h : OneRecord srv payload) (hi : ServerInv srv) (limit : Nat) :
    ∃ page, readRange {} srv.db 0 1 0 0 true ⟨0, 0⟩ 1 limit = .ok page ∧ page.body = wrapJSONArray [payload] := by
  obtain ⟨htail, hrec, hm⟩ := h
  have hlog := plain_payloadAt hi.stored hm rfl
  rw [htail] at hlog
  have hentries : entries (srv.db.payload 1) 0 1 = [payload] := by
    rw [entries_cons _ Nat.one_pos, entries_of_le _ (Nat.le_refl _), payload_eq hrec, recordPayload_marshalRecord]
  have hread := readRange_json (Nat.le_refl 0) ⟨0, 0⟩ limit Nat.one_pos fun n _ => hlog n
  have hpos := Paging.gather_pos limit 0 payload []
  refine ⟨_, hread, ?_⟩
  rw [hentries, take_of_length_le hpos]

/-- A number is appended. -/
theorem json_only_sample : ∃ f : Front, Reach (Front.step jsonLib) (Front.Only jsonLib (Checked jsonLib))
      { srv := newServer ∅ 0 } f ∧ OneRecord f.srv (ascii "17") ∧ (parse (ascii "17")).isSome ∧
    ∃ page vs, readRange {} f.srv.db 0 1 0 0 true ⟨0, 0⟩ 1 8 = .ok page ∧ parse page.body = some (.arr vs) := by
  obtain ⟨f, hs, hone⟩ : ∃ f ∈ run (guarded (Front.step jsonLib) (Front.Only jsonLib (Checked jsonLib)))
      { srv := newServer ∅ 0 } (inProcess [ascii "17"]), OneRecord f.srv (ascii "17") := by decide +kernel
  have hr := reach_guarded hs
  obtain ⟨hrecs, hpages, -⟩ := json_only encodingJSON_jsonLib hr hone.2.2 rfl
  obtain ⟨page, hpage, -⟩ := hone.read (Front.inv_of_reach encodingJSON_jsonLib (fun _ => trivial) hr).server 8
  obtain ⟨vs, hvs⟩ := hpages _ _ _ _ _ page hpage
  have hv := hrecs 0 _ hone.2.1
  rw [recordPayload_marshalRecord] at hv
  exact ⟨f, hr, hone, hv, page, vs, hpage, hvs⟩

/-- **`Server.Append` does not look at its records**: one that is no JSON value is stored in a JSON stream, and what is
read from the stream is not JSON. -/
theorem append_unchecked : ∃ (f : Front) (page : ReadResult), EncodingJSON jsonLib ∧
    Reach (Front.step jsonLib) Any { srv := newServer ∅ 0 } f ∧ isJSONStream jsonLib contentTypeJSON = true ∧
    OneRecord f.srv (ascii "\x7d") ∧ parse (ascii "\x7d") = none ∧
    readRange {} f.srv.db 0 1 0 0 true ⟨0, 0⟩ 1 8 = .ok page ∧ parse page.body = none := by
  obtain ⟨f, hs, hone⟩ : ∃ f ∈ run (guarded (Front.step jsonLib) (Front.Only jsonLib fun _ => True))
      { srv := newServer ∅ 0 } (inProcess [ascii "\x7d"]), OneRecord f.srv (ascii "\x7d") := by decide +kernel
  have hr := reach_guarded hs
  obtain ⟨page, hpage, hbody⟩ := hone.read (Front.inv_of_reach encodingJSON_jsonLib (fun _ => trivial) hr).server 8
  refine ⟨f, page, encodingJSON_jsonLib, hr.mono fun _ _ _ => trivial, by decide, hone, by decide, hpage, ?_⟩
  rw [hbody]
  decide

end Yasdb
