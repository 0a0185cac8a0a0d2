import Yasdb.Server.Entries

/-!
# What a JSON stream takes and gives back

The bodies of PUT and POST requests are cut into messages, stored as compact texts, and delivered in arrays, as many
messages to an array as its limit allows.

- `own_turn`: every response delivers the next messages, and every response but the last leaves fewer;
- `json_round_trip`: **the messages that were posted are the messages that are read**, in the order in which they were
  taken, with any limits.
-/

namespace Yasdb

open Batch Runs List Json Front Paging Entry Value Nat

/-! ## Reading with a limit for each call -/

/-- A call of a client's loop whose `i`-th call has the limit `limits i`. -/
def limitedPage (db : Store) (fuel streamID forkedFrom forkOffset : Nat) (isJSON : Bool) (tailSeq : Nat)
    (limits : Nat → Nat) (s : Nat × Offset) : Option (Bytes × (Nat × Offset) × Bool) :=
  (readPage db fuel streamID forkedFrom forkOffset isJSON tailSeq (limits s.1) s.2).map fun t =>
    (t.1, (s.1 + 1, t.2.1), t.2.2)

theorem elementsOf_wrapJSONArray {records : List Bytes} (h : ∀ r ∈ records, (parse r).isSome) :
    elementsOf (wrapJSONArray records) = records.filterMap parse := by
  obtain ⟨vs, hvs, hmap⟩ := parse_wrapJSONArray h
  have hself : (vs.map some).filterMap id = vs := by simp
  rw [elementsOf, hvs, ← hself, ← hmap, filterMap_map]
  rfl

section Own

variable {db : Store} {log : Nat → Bytes} (fuel : Nat) {streamID forkedFrom forkOffset base tailSeq : Nat}
  (hlog : ∀ n, base ≤ n → n < tailSeq → payloadAt db 0 streamID forkedFrom forkOffset n = some (log n))
  (hvalid : ∀ n, base ≤ n → n < tailSeq → (parse (log n)).isSome)
include hlog hvalid

/-- One response, from an offset at which the stream has its own records. -/
theorem own_turn (limits : Nat → Nat) (s : Nat × Offset) (hs : base ≤ s.2.seq) :
    ∃ b next last, Turn (limitedPage db fuel streamID forkedFrom forkOffset true tailSeq limits)
      (fun s => base ≤ s.2.seq) (fun b : Bytes => ∃ vs, parse b = some (.arr vs)) elementsOf
      (fun s => (entries log s.2.seq tailSeq).filterMap parse) (fun s => tailSeq - s.2.seq) s b next last := by
  obtain ⟨i, start⟩ := s
  rcases lt_or_ge start.seq tailSeq with hlt | hge
  · have hread := readRange_json (zero_le fuel) start (limits i) hlt fun n hn => hlog n (le_trans hs hn)
    have hpos := gather_pos (limits i) 0 (log start.seq) (entries log (start.seq + 1) tailSeq)
    rw [← entries_cons log hlt] at hpos
    generalize gather (limits i) false 0 (entries log start.seq tailSeq) = k at hread hpos
    have hrecs : ∀ r ∈ (entries log start.seq tailSeq).take k, (parse r).isSome := fun r hr => by
      obtain ⟨n, hn, rfl⟩ := List.mem_map.mp (mem_of_mem_take hr)
      rw [mem_range'_1] at hn
      exact hvalid n (le_trans hs hn.1) (by omega)
    obtain ⟨vs, hvs, -⟩ := parse_wrapJSONArray hrecs
    refine ⟨_, (i + 1, ⟨start.seq + k, 0⟩), decide (start.seq + k ≥ tailSeq), ?_, ⟨vs, hvs⟩, ?_, ?_, ?_, ?_⟩
    · rw [limitedPage, readPage, hread]
      rfl
    · rw [elementsOf_wrapJSONArray hrecs, ← filterMap_append, ← drop_entries, take_append_drop]
    · intro hlast
      rw [entries_of_le log (by simpa using hlast), filterMap_nil]
    · intro _
      exact le_trans hs (le_add_right _ _)
    · intro _
      dsimp only
      omega
  · obtain ⟨vs, hvs, -⟩ := @parse_wrapJSONArray [] (by simp)
    refine ⟨wrapJSONArray [], (i + 1, start), true, ?_, ⟨vs, hvs⟩, ?_, ?_, (by simp), (by simp)⟩
    · rw [limitedPage, readPage, readRange, if_pos hge]
      rfl
    · rw [@elementsOf_wrapJSONArray [] (by simp)]
      rfl
    · intro _
      rw [entries_of_le log hge, filterMap_nil]

theorem own_pages (limits : Nat → Nat) : ∃ calls bodies,
    drain (limitedPage db fuel streamID forkedFrom forkOffset true tailSeq limits) calls (0, ⟨base, 0⟩) = some bodies ∧
      (∀ b ∈ bodies, ∃ vs, parse b = some (.arr vs)) ∧
      bodies.flatMap elementsOf = (entries log base tailSeq).filterMap parse := by
  obtain ⟨bodies, hd, hout, hfits⟩ := drain_total (fun s hs => own_turn fuel hlog hvalid limits s hs) _
    (0, ⟨base, 0⟩) (le_refl base) (lt_succ_self _)
  exact ⟨_, bodies, hd, hfits, hout⟩

end Own

theorem own_payloadAt {db : Store} (h : Catalog db) {path : Bytes} {m : StreamMeta} (hm : db.metaAt path = some m)
    {n : Nat} (hbase : m.base ≤ n) (hn : n < loadTailSeq db m.streamID) :
    payloadAt db 0 m.streamID m.forkedFrom m.forkOffset n = some (db.payload m.streamID n) := by
  have hown : m.forkedFrom = 0 ∨ m.forkOffset ≤ n := by
    unfold StreamMeta.base at hbase
    split at hbase
    · exact .inl ‹_›
    · exact .inr hbase
  obtain ⟨v, hv⟩ := h.own_record hm hn hown
  rw [payloadAt, if_pos hown, hv, payload_eq hv]
  rfl

/-! ## The round trip -/

/-- The entries of the HTTP surface, and calls that append nothing. -/
def Entry.OverHTTP : Entry → Prop
  | .append records _ => records = []
  | _ => True

theorem Entry.OverHTTP.stores {L : GoLib} {x : Entry} (h : x.OverHTTP) : x.stores L = (x.messages L).map render := by
  cases x with
  | append records seenType =>
    obtain rfl : records = [] := h
    rfl
  | _ => rfl

theorem filterMap_parse_render : ∀ {vs : List Value}, (∀ v ∈ vs, parse v.render = some v) →
    (vs.map render).filterMap parse = vs
  | [], _ => rfl
  | v :: vs, h => by
    rw [map_cons, filterMap_cons_some (h v mem_cons_self),
      filterMap_parse_render fun w hw => h w (mem_cons_of_mem _ hw)]

instance decidableOverHTTP : DecidablePred OverHTTP
  | .append records _ => inferInstanceAs (Decidable (records = []))
  | .put _ | .post .. | .close => .isTrue trivial

/-- **The JSON round trip.** In every run in which JSON streams take records over HTTP only and no content type is cut,
a JSON stream stores the compact texts of the messages that it took, in order, and reads with any limits deliver arrays
with exactly these messages. -/
theorem json_round_trip {L : GoLib} (J : EncodingJSON L) {seen : Nat} {f : Front}
    (hr : Reach (step L) (Only L OverHTTP) { srv := newServer ∅ seen } f) {path : Bytes}
    {m : StreamMeta} (hm : f.srv.db.metaAt path = some m) (hjson : isJSONStream L m.contentType = true) :
    ownEntries f.srv.db m = ((f.took m.streamID).flatMap (messages L)).map Value.render ∧
    ∀ (fuel : Nat) (limits : Nat → Nat), ∃ calls bodies,
      drain (limitedPage f.srv.db fuel m.streamID m.forkedFrom m.forkOffset true
        (loadTailSeq f.srv.db m.streamID) limits) calls (0, ⟨m.base, 0⟩) = some bodies ∧
      (∀ b ∈ bodies, ∃ vs, parse b = some (.arr vs)) ∧
      bodies.flatMap elementsOf = (f.took m.streamID).flatMap (messages L) := by
  have h := inv_of_reach J (fun _ => trivial) hr
  obtain ⟨hrec, htaken⟩ := h.holds path m hm hjson
  have hstored : ownEntries f.srv.db m = ((f.took m.streamID).flatMap (messages L)).map Value.render := by
    rw [hrec, map_flatMap]
    exact flatMap_congr fun x hx => (htaken x hx).only.stores
  have hback : ∀ v ∈ (f.took m.streamID).flatMap (messages L), parse v.render = some v := fun v hv => by
    obtain ⟨x, hx, hv⟩ := mem_flatMap.mp hv
    exact (htaken x hx).valid v hv
  have hvalid : ∀ n, m.base ≤ n → n < loadTailSeq f.srv.db m.streamID →
      (parse (f.srv.db.payload m.streamID n)).isSome := fun n hbase hn => by
    have hmem : f.srv.db.payload m.streamID n ∈ ownEntries f.srv.db m :=
      List.mem_map.mpr ⟨n, mem_range'_1.mpr ⟨hbase, by omega⟩, rfl⟩
    rw [hstored] at hmem
    obtain ⟨v, hv, he⟩ := List.mem_map.mp hmem
    rw [← he, hback v hv]
    rfl
  refine ⟨hstored, fun fuel limits => ?_⟩
  obtain ⟨calls, bodies, hd, hfits, hout⟩ := own_pages fuel
    (fun n => own_payloadAt h.server.stored hm (n := n)) hvalid limits
  refine ⟨calls, bodies, hd, hfits, ?_⟩
  rw [hout, ← ownEntries, hstored, filterMap_parse_render hback]

/-- A stream with an initial body, to which a value is posted. -/
def postEvents : List Event :=
  [.server
      { action := .createStream { path := samplePath, contentType := contentTypeJSON, body := ascii "[1, [2]]" } 0 0 },
    .server { action := .spawn samplePath },
    .appends samplePath 0
      [.post { body := ascii " \x7b\"a\" : 3\x7d", contentType := contentTypeJSON } false contentTypeJSON]]

/-- One array is cut, the inner one is not, and white space goes. The messages are read one by one. -/
theorem json_round_trip_sample : ∃ f m, Reach (step jsonLib) (Only jsonLib OverHTTP)
      { srv := newServer ∅ 0 } f ∧ f.srv.db.metaAt samplePath = some m ∧
    ownEntries f.srv.db m = [ascii "1", ascii "[2]", ascii "\x7b\"a\":3\x7d"] ∧
    ∃ calls bodies, drain (limitedPage f.srv.db 0 m.streamID m.forkedFrom m.forkOffset true
        (loadTailSeq f.srv.db m.streamID) fun _ => 1) calls (0, ⟨m.base, 0⟩) = some bodies ∧
      (bodies.flatMap elementsOf).map Value.render = [ascii "1", ascii "[2]", ascii "\x7b\"a\":3\x7d"] := by
  obtain ⟨f, hs, hm, htook⟩ : ∃ f ∈ run (guarded (step jsonLib) (Only jsonLib OverHTTP)) { srv := newServer ∅ 0 }
      postEvents, f.srv.db.metaAt samplePath = some { streamID := 1, contentType := contentTypeJSON } ∧
      ((f.took 1).flatMap (messages jsonLib)).map Value.render =
      [ascii "1", ascii "[2]", ascii "\x7b\"a\":3\x7d"] := by decide +kernel
  have hr := reach_guarded hs
  obtain ⟨hown, hpages⟩ := json_round_trip encodingJSON_jsonLib hr hm (by decide)
  obtain ⟨calls, bodies, hd, -, hout⟩ := hpages 0 fun _ => 1
  exact ⟨f, _, hr, hm, hown.trans htook, calls, bodies, hd, by rw [hout]; exact htook⟩

/-! ## A content type that is cut -/

/-- `jsonLib` for texts that do not end with white space, with media types that end at their parameters. -/
def mimeLib : GoLib :=
  { jsonLib with trimSpace := dropWhile isSpace, parseMediaType := fun ct => some (ct.takeWhile (· ≠ 59)) }

theorem encodingJSON_mimeLib : EncodingJSON mimeLib where
  __ := encodingJSON_jsonLib
  trim := fun b c h => by
    have hnot := head?_dropWhile_not isSpace b
    rw [show (b.dropWhile isSpace).head? = some c from h] at hnot
    simpa using hnot

/-- A stream is created with a type that has parameters, and with an array as its body. -/
def createArray (params : Bytes) : Server.Action :=
  .createStream { path := samplePath, contentType := ascii "application/json;" ++ params, body := ascii "[1, 2]" } 0 0

/-- **A JSON stream that is read as bytes.** The content type has 65536 bytes, its length is stored as 0, and the two
messages of the stream are read as one text that is no array. -/
theorem json_round_trip_cut : ∃ params f page, EncodingJSON mimeLib ∧
    isJSONStream mimeLib (ascii "application/json;" ++ params) = true ∧
    run (step mimeLib) { srv := newServer ∅ 0 } [.server { action := createArray params }] = some f ∧
    ((f.took 1).flatMap (messages mimeLib)).map Value.render = [ascii "1", ascii "2"] ∧
    f.srv.db.metaAt samplePath = some { streamID := 1, contentType := [] } ∧
    readRange {} f.srv.db 0 1 0 0 (isJSONStream mimeLib []) {} 2 8 = .ok page ∧
    ∀ vs, parse page.body ≠ some (.arr vs) := by
  generalize hp : ascii "a=" ++ replicate 65517 (97 : UInt8) = params
  have hlen : (ascii "application/json;" ++ params).length = 65536 := by
    rw [← hp, length_append, length_append, length_replicate]
    rfl
  have hrun : (run (step mimeLib) { srv := newServer ∅ 0 } [.server { action := createArray params }]).map (fun f =>
      (((f.took 1).flatMap (messages mimeLib)).map Value.render, f.srv.db.metaAt samplePath,
        payloadAt f.srv.db 0 1 0 0 0, payloadAt f.srv.db 0 1 0 0 1)) =
      some ([ascii "1", ascii "2"],
        some (StreamMeta.readBack { streamID := 1, contentType := ascii "application/json;" ++ params }),
        some (ascii "1"), some (ascii "2")) := rfl
  obtain ⟨f, hf, hfacts⟩ := Option.map_eq_some_iff.mp hrun
  simp only [Prod.mk.injEq, StreamMeta.readBack, hlen] at hfacts
  obtain ⟨htook, hm, h0, h1⟩ := hfacts
  have hlog : ∀ n, n < 2 → payloadAt f.srv.db 0 1 0 0 n = some ([ascii "1", ascii "2"].getD n []) := fun n hn => by
    obtain rfl | rfl : n = 0 ∨ n = 1 := by omega
    · exact h0
    · exact h1
  refine ⟨params, f, _, encodingJSON_mimeLib, rfl, hf, htook, hm, readRange_binary (le_refl 0) hlog {} 8 (by decide),
    fun vs h => ?_⟩
  have hparse : parse (ascii "12") = some (.atom (ascii "12")) := rfl
  cases hparse.symm.trans h

end Yasdb
