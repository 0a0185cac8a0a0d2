import Yasdb.Server.Read

/-!
# Reading a stream page by page

A client calls `readRange` again and again, each time from the offset that the last response gave, until a response
says that it is up to date. For a stream whose records below the tail are all stored:

- `readRange_binary`, `readRange_json`: one response is one page of the log;
- `binary_turn`, `json_turn`: every response but the last leaves less to read;
- `readRange_pages`: **the loop ends, and the responses make up the log from the first offset on**.
-/

namespace Yasdb

open Batch List Paging Nat Except

/-- One call of a client's loop: the body, the offset to go on from, and whether this was the last response. -/
def readPage (db : Store) (fuel streamID forkedFrom forkOffset : Nat) (isJSON : Bool) (tailSeq limit : Nat)
    (start : Offset) : Option (Bytes × Offset × Bool) :=
  match readRange {} db fuel streamID forkedFrom forkOffset isJSON start tailSeq limit with
  | .error _ => none
  | .ok r => some (r.body, r.next, r.upToDate)

/-- The bytes of the log from an offset on: the record it points into from its byte on, and all later records. -/
def bytesFrom (log : Nat → Bytes) (tailSeq : Nat) (o : Offset) : Bytes :=
  left o.byte (entries log o.seq tailSeq)

variable {o : Offset} {t : Nat}

theorem bytesFrom_of_le (log : Nat → Bytes) {tailSeq : Nat} (h : tailSeq ≤ o.seq) : bytesFrom log tailSeq o = [] := by
  rw [bytesFrom, entries_of_le log h, left_nil]

/-- The offset points into the log, or to its end. -/
def Offset.Inside (o : Offset) (tailSeq : Nat) : Prop := o.seq < tailSeq ∨ (o.seq = tailSeq ∧ o.byte = 0)

theorem Offset.Inside.mono {t' : Nat} (h : o.Inside t) (ht : t ≤ t') : o.Inside t' := by
  unfold Offset.Inside at h ⊢
  omega

theorem Offset.Inside.eq_tailOffset (h : o.Inside t) (ht : t ≤ o.seq) : o = tailOffset t := by
  rcases h with h | ⟨hs, hb⟩
  · omega
  · obtain ⟨seq, byte⟩ := o
    subst hs hb
    rfl

theorem bytesFrom_congr {f g : Nat → Bytes} (o : Offset) (h : ∀ n, n < t → f n = g n) :
    bytesFrom f t o = bytesFrom g t o := by
  rw [bytesFrom, bytesFrom, entries_congr fun n _ hn => h n hn]

theorem bytesFrom_grow (log : Nat → Bytes) {t' : Nat} (h : o.Inside t) (ht : t ≤ t') :
    bytesFrom log t' o = bytesFrom log t o ++ (entries log t t').flatten := by
  rcases h with h | ⟨h, hb⟩
  · rw [bytesFrom, bytesFrom, ← entries_append log (le_of_lt h) ht, left_append]
    rw [entries_cons log h]
    exact cons_ne_nil _ _
  · rw [bytesFrom, bytesFrom, hb, left_zero, left_zero, h, entries_of_le log (le_refl t)]
    rfl

/-- A JSON response is a page of what is stored from its start on. -/
theorem readRange_json {db : Store} {log : Nat → Bytes} {depth fuel streamID forkedFrom forkOffset tailSeq : Nat}
    (hfuel : depth ≤ fuel) (start : Offset) (limit : Nat) (hs : start.seq < tailSeq)
    (hlog : ∀ n, start.seq ≤ n → n < tailSeq → payloadAt db depth streamID forkedFrom forkOffset n = some (log n)) :
    readRange {} db fuel streamID forkedFrom forkOffset true start tailSeq limit =
      .ok { body := wrapJSONArray ((entries log start.seq tailSeq).take
              (gather limit false 0 (entries log start.seq tailSeq)))
            next := ⟨start.seq + gather limit false 0 (entries log start.seq tailSeq), 0⟩
            upToDate := start.seq + gather limit false 0 (entries log start.seq tailSeq) ≥ tailSeq } := by
  obtain ⟨segs, hr, -, hrecs⟩ := resolve_stored log depth fuel streamID forkedFrom forkOffset hfuel (le_of_lt hs)
      hlog
  rw [readRange, if_neg (not_le.mpr hs)]
  simp only [hr, if_true]
  exact readSegmentsJSON_eq start limit hrecs

section Stored

variable {db : Store} {log : Nat → Bytes} {depth fuel streamID forkedFrom forkOffset tailSeq : Nat}
  (hfuel : depth ≤ fuel)
  (hlog : ∀ n, n < tailSeq → payloadAt db depth streamID forkedFrom forkOffset n = some (log n))

include hfuel hlog

/-! ## One response -/

theorem readRange_binary (start : Offset) (limit : Nat) (hs : start.seq < tailSeq) :
    readRange {} db fuel streamID forkedFrom forkOffset false start tailSeq limit =
      .ok { body := (fill limit [] start.byte (entries log start.seq tailSeq)).1
            next := ⟨start.seq + (fill limit [] start.byte (entries log start.seq tailSeq)).2.1,
              (fill limit [] start.byte (entries log start.seq tailSeq)).2.2⟩
            upToDate := start.seq + (fill limit [] start.byte (entries log start.seq tailSeq)).2.1 ≥ tailSeq } := by
  obtain ⟨segs, hr, -, hrecs⟩ := resolve_stored log depth fuel streamID forkedFrom forkOffset hfuel (le_of_lt hs)
    (fun n _ hn => hlog n hn)
  rw [readRange, if_neg (not_le.mpr hs)]
  simp only [hr, Bool.false_eq_true, if_false]
  exact readSegmentsBinary_eq start limit hrecs

variable {isJSON : Bool} {start : Offset} {limit : Nat} {r : ReadResult}

/-- A response stays within the range. -/
theorem readRange_inside (hs : start.seq < tailSeq)
    (h : readRange {} db fuel streamID forkedFrom forkOffset isJSON start tailSeq limit = .ok r) :
    start.seq ≤ r.next.seq ∧ r.next.Inside tailSeq := by
  unfold Offset.Inside
  cases isJSON with
  | false =>
    rw [readRange_binary hfuel hlog start limit hs, ok.injEq] at h
    have hin := fill_inside limit (entries log start.seq tailSeq) [] start.byte
      (by rw [entries_cons log hs]; exact cons_ne_nil _ _)
    rw [length_entries] at hin
    subst h
    dsimp only
    omega
  | true =>
    rw [readRange_json hfuel start limit hs fun n _ => hlog n, ok.injEq] at h
    have hle := gather_le limit (entries log start.seq tailSeq) false 0
    rw [length_entries] at hle
    subst h
    dsimp only
    omega

/-- A JSON response takes a message, whatever the limit. -/
theorem readRange_json_moves (hs : start.seq < tailSeq)
    (h : readRange {} db fuel streamID forkedFrom forkOffset true start tailSeq limit = .ok r) :
    start.seq < r.next.seq := by
  rw [readRange_json hfuel start limit hs fun n _ => hlog n, ok.injEq] at h
  have hpos := gather_pos limit 0 (log start.seq) (entries log (start.seq + 1) tailSeq)
  rw [← entries_cons log hs] at hpos
  subst h
  dsimp only
  omega

/-- A response moves on, and stays within the range. -/
theorem readRange_moves (hl : 1 ≤ limit) (hs : start.seq < tailSeq)
    (h : readRange {} db fuel streamID forkedFrom forkOffset isJSON start tailSeq limit = .ok r) :
    r.next ≠ start ∧ start.seq ≤ r.next.seq ∧ r.next.Inside tailSeq := by
  refine ⟨fun he => ?_, readRange_inside hfuel hlog hs h⟩
  cases isJSON with
  | false =>
    rw [readRange_binary hfuel hlog start limit hs, ok.injEq] at h
    have hprog := fill_progress (show ([] : Bytes).length < limit from hl) start.byte (log start.seq)
      (entries log (start.seq + 1) tailSeq)
    have happ := fill_append limit (entries log start.seq tailSeq) [] start.byte
    rw [← entries_cons log hs] at hprog
    generalize fill limit [] start.byte (entries log start.seq tailSeq) = out at h hprog happ
    subst h
    -- without a record passed and at the same byte, no byte was delivered
    obtain ⟨hseq, hbyte⟩ : start.seq + out.2.1 = start.seq ∧ out.2.2 = start.byte :=
      ⟨congrArg Offset.seq he, congrArg Offset.byte he⟩
    have hzero : out.2.1 = 0 := by omega
    rw [hzero, hbyte, drop_zero, nil_append] at happ
    have hlen := congrArg List.length happ
    rw [length_append] at hlen
    omega
  | true =>
    have hlt := readRange_json_moves hfuel hlog hs h
    rw [he] at hlt
    exact lt_irrefl _ hlt

section

variable (hs : start.seq < tailSeq)
include hs

theorem readRange_byte_lt {bound : Nat}
    (hbound : ∀ n, n < tailSeq → (log n).length ≤ bound) (hstart : start.byte < bound)
    (h : readRange {} db fuel streamID forkedFrom forkOffset isJSON start tailSeq limit = .ok r) :
    r.next.byte < bound := by
  cases isJSON with
  | false =>
    rw [readRange_binary hfuel hlog start limit hs, ok.injEq] at h
    subst h
    refine fill_position limit _ [] start.byte (fun b hb => ?_) hstart
    obtain ⟨n, hn, rfl⟩ := List.mem_map.mp hb
    rw [mem_range'_1] at hn
    exact hbound n (by omega)
  | true =>
    rw [readRange_json hfuel start limit hs fun n _ => hlog n, ok.injEq] at h
    subst h
    exact lt_of_le_of_lt (zero_le _) hstart

/-- What a binary response delivers, followed by what is left after it, is what was left before it. -/
theorem readRange_binary_append
    (h : readRange {} db fuel streamID forkedFrom forkOffset false start tailSeq limit = .ok r) :
    r.body ++ bytesFrom log tailSeq r.next = bytesFrom log tailSeq start := by
  rw [readRange_binary hfuel hlog start limit hs, ok.injEq] at h
  have happ := fill_append limit (entries log start.seq tailSeq) [] start.byte
  rw [drop_entries] at happ
  subst h
  exact happ

theorem readRange_json_messages
    (h : readRange {} db fuel streamID forkedFrom forkOffset true start tailSeq limit = .ok r) :
    r.body = wrapJSONArray (entries log start.seq r.next.seq) := by
  rw [readRange_json hfuel start limit hs fun n _ => hlog n, ok.injEq] at h
  have hle := gather_le limit (entries log start.seq tailSeq) false 0
  rw [length_entries] at hle
  generalize gather limit false 0 (entries log start.seq tailSeq) = k at h hle
  subst h
  rw [take_entries log (by omega)]

end

/-! ## The loop over a binary stream -/

/-- What is left to do from an offset on: records to pass and bytes to deliver. -/
abbrev binaryLeft (log : Nat → Bytes) (tailSeq : Nat) (o : Offset) : Nat :=
  (tailSeq - o.seq) + (bytesFrom log tailSeq o).length

theorem binary_turn (hl : 1 ≤ limit) (start : Offset) :
    ∃ b next last, Turn (readPage db fuel streamID forkedFrom forkOffset false tailSeq limit)
      (fun _ => True) (fun b : Bytes => b.length ≤ limit) (fun b : Bytes => b) (bytesFrom log tailSeq)
      (binaryLeft log tailSeq) start b next last := by
  rcases lt_or_ge start.seq tailSeq with hlt | hge
  · have happ := fill_append limit (entries log start.seq tailSeq) [] start.byte
    have hprog := fill_progress (show ([] : Bytes).length < limit from hl) start.byte (log start.seq)
      (entries log (start.seq + 1) tailSeq)
    rw [← entries_cons log hlt] at hprog
    have hread := readRange_binary hfuel hlog start limit hlt
    have hfits := fill_length limit (entries log start.seq tailSeq) [] start.byte (zero_le _)
    generalize fill limit [] start.byte (entries log start.seq tailSeq) = out at happ hprog hread hfits
    rw [drop_entries] at happ
    have hrest : out.1 ++ bytesFrom log tailSeq ⟨start.seq + out.2.1, out.2.2⟩ = bytesFrom log tailSeq start := happ
    have hlen := congrArg List.length hrest
    rw [length_append] at hlen
    refine ⟨out.1, ⟨start.seq + out.2.1, out.2.2⟩, decide (start.seq + out.2.1 ≥ tailSeq), ?_, hfits, hrest, ?_, ?_, ?_⟩
    · rw [readPage, hread]
    · intro h
      exact bytesFrom_of_le log (by simpa using h)
    · intro _
      trivial
    · intro h
      have h' : start.seq + out.2.1 < tailSeq := by simpa using h
      simp only [binaryLeft]
      omega
  · refine ⟨[], start, true, ?_, zero_le _, rfl, fun _ => bytesFrom_of_le log hge, nofun, nofun⟩
    rw [readPage, readRange, if_pos hge]
    rfl

/-! ## The loop over a JSON stream -/

omit hfuel hlog in
/-- A JSON response as its list of messages. -/
def messagePage (log : Nat → Bytes) (tailSeq limit : Nat) (start : Offset) : Option (List Bytes × Offset × Bool) :=
  if start.seq ≥ tailSeq then some ([], start, true)
  else
    let k := gather limit false 0 (entries log start.seq tailSeq)
    some ((entries log start.seq tailSeq).take k, ⟨start.seq + k, 0⟩, decide (start.seq + k ≥ tailSeq))

theorem readPage_json (limit : Nat) (start : Offset) :
    readPage db fuel streamID forkedFrom forkOffset true tailSeq limit start =
      (messagePage log tailSeq limit start).map fun t => (wrapJSONArray t.1, t.2) := by
  rcases lt_or_ge start.seq tailSeq with hlt | hge
  · rw [readPage, readRange_json hfuel start limit hlt fun n _ => hlog n, messagePage, if_neg (not_le.mpr hlt)]
    rfl
  · rw [readPage, readRange, messagePage, if_pos hge, if_pos hge]
    rfl

omit hfuel hlog in
theorem json_turn (log : Nat → Bytes) (tailSeq limit : Nat) (start : Offset) :
    ∃ b next last, Turn (messagePage log tailSeq limit) (fun _ => True) (fun _ => True)
      (fun b : List Bytes => b) (fun o => entries log o.seq tailSeq) (fun o => tailSeq - o.seq) start b next last := by
  rcases lt_or_ge start.seq tailSeq with hlt | hge
  · have hpos := gather_pos limit 0 (log start.seq) (entries log (start.seq + 1) tailSeq)
    rw [← entries_cons log hlt] at hpos
    refine ⟨_, _, _, by rw [messagePage, if_neg (not_le.mpr hlt)], trivial, ?_, ?_, ?_, ?_⟩
    · rw [← drop_entries, take_append_drop]
    · intro h
      exact entries_of_le log (by simpa using h)
    · intro _
      trivial
    · intro _
      dsimp only
      omega
  · refine ⟨[], start, true, ?_, trivial, rfl, fun _ => entries_of_le log hge, nofun, nofun⟩
    rw [messagePage, if_pos hge]

/-! ## The whole loop -/

/-- **Paged reads lose and repeat nothing.** -/
theorem readRange_pages {limit : Nat} (hl : 1 ≤ limit) (start : Offset) :
    (∃ (calls : Nat) (bodies : List Bytes),
      drain (readPage db fuel streamID forkedFrom forkOffset false tailSeq limit) calls start = some bodies ∧
        bodies.flatten = bytesFrom log tailSeq start ∧ ∀ b ∈ bodies, b.length ≤ limit) ∧
    ∃ (calls : Nat) (messages : List (List Bytes)),
      drain (readPage db fuel streamID forkedFrom forkOffset true tailSeq limit) calls start =
          some (messages.map wrapJSONArray) ∧
        messages.flatten = entries log start.seq tailSeq := by
  constructor
  · obtain ⟨bs, hd, hout, hfits⟩ := drain_total (fun s _ => binary_turn hfuel hlog hl s) _ start trivial
      (Nat.lt_succ_self _)
    exact ⟨_, bs, hd, by rw [← hout, flatMap_id'], hfits⟩
  · obtain ⟨ms, hd, hout, -⟩ := drain_total (fun s _ => json_turn log tailSeq limit s) _ start trivial
      (Nat.lt_succ_self _)
    refine ⟨tailSeq - start.seq + 1, ms, ?_, by rw [← hout, flatMap_id']⟩
    rw [drain_map wrapJSONArray (readPage_json hfuel hlog limit), hd, Option.map_some]

end Stored

/-- A stream with two records, and a fork of it that shares the first of them. -/
def forkedStore : Store :=
  applyOps ∅ [Op.put (.metaKey (ascii "a")) { sampleMeta with streamID := 1 }, Op.put (.idMappingKey 1) (ascii "a"),
    Op.put (.recordKey 1 0) (marshalRecord 0 (ascii "xyz")), Op.put (.recordKey 1 1) (marshalRecord 0 (ascii "w")),
    Op.put (.recordKey 2 1) (marshalRecord 0 (ascii "uv"))]

/-- Two bytes a response, from the second byte of the inherited record on. -/
theorem readRange_pages_fork :
    (∃ (calls : Nat) (bodies : List Bytes),
      drain (readPage forkedStore 1 2 1 1 false 2 2) calls ⟨0, 1⟩ = some bodies ∧
        bodies.flatten = bytesFrom (fun n => if n = 0 then ascii "xyz" else ascii "uv") 2 ⟨0, 1⟩ ∧
        ∀ b ∈ bodies, b.length ≤ 2) ∧
    ∃ (calls : Nat) (messages : List (List Bytes)),
      drain (readPage forkedStore 1 2 1 1 true 2 2) calls ⟨0, 1⟩ = some (messages.map wrapJSONArray) ∧
        messages.flatten = entries (fun n => if n = 0 then ascii "xyz" else ascii "uv") 0 2 :=
  readRange_pages (Nat.le_refl 1) (by decide) (by decide) ⟨0, 1⟩

end Yasdb
