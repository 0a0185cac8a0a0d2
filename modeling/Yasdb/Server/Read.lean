import Yasdb.Lib.Paging
import Yasdb.Lib.Scan
import Yasdb.Server.Create

/-!
# Reading a range of a stream

`readRange` resolves a range into segments and assembles one response from them: bytes up to the limit for a binary
stream, whole messages for a JSON stream. `payloadAt` says what the store holds for a sequence number, followed through
the fork chain.

- `resolve_stored`: **the segments of a stored range** are adjacent, cover it exactly, and hold its records;
- `readSegmentsBinary_eq`, `readSegmentsJSON_eq`: both assemblers are the page functions of `Paging`.
-/

namespace Yasdb

open Batch List Option Paging Nat Store Scan

variable {c depth endSeq fuel streamID : Nat} {path : Bytes} {m : StreamMeta} {e : String} {isJSON : Bool}

/-! ## Scanning the records of a stream -/

/-- The reads of the store that fail: Gets, scans that do not open, and scans whose iterator fails after that many
records. -/
structure ReadFaults where
  gets : Faults := noFaults
  opens : Nat → Bool := fun _ => false
  next : Nat → Option Nat := fun _ => none

def errScan : String := "scan failed"

/-- The records of a stream from `startSeq` on, ascending. -/
def scanRecords (db : Store) (id startSeq : Nat) : List (Nat × Bytes) :=
  (Scan.scan (fun
    | .recordKey i n => if i = id ∧ startSeq ≤ n then some n else none
    | _ => none) db).map fun n => (n, (db.recordAt id n).getD [])

/-- What the iterator of a scan delivers, record by record. -/
def iterate (flt : ReadFaults) (db : Store) (id startSeq : Nat) :
    Except String (List (Except String (Nat × Bytes))) :=
  if flt.opens id then .error errScan
  else
    match flt.next id with
    | none => .ok ((scanRecords db id startSeq).map .ok)
    | some n => .ok (((scanRecords db id startSeq).take n).map .ok ++ [.error errScan])

/-! ## Binary streams -/

/-- The scan of one segment: stop at the limit, at the end of the segment, or inside a record that does not fit. -/
def binaryLoop (start : Offset) (endSeq limit : Nat) :
    List (Except String (Nat × Bytes)) → Bytes → Offset → Except String (Bytes × Offset × Bool)
  | [], buf, next => .ok (buf, next, false)
  | item :: items, buf, next =>
    if buf.length < limit then
      match item with
      | .error e => .error e
      | .ok (recSeq, v) =>
        if recSeq ≥ endSeq then .ok (buf, next, false)
        else
          let payload := recordPayload v
          let skip := min (if recSeq = start.seq then start.byte else 0) payload.length
          let avail := payload.drop skip
          let room := limit - buf.length
          if avail.length ≤ room then binaryLoop start endSeq limit items (buf ++ avail) ⟨recSeq + 1, 0⟩
          else .ok (buf ++ avail.take room, ⟨recSeq, skip + room⟩, true)
    else .ok (buf, next, false)

def binarySegments (flt : ReadFaults) (db : Store) (start : Offset) (limit : Nat) :
    List Segment → Bytes → Offset → Except String (Bytes × Offset)
  | [], buf, next => .ok (buf, next)
  | seg :: segs, buf, next =>
    match iterate flt db seg.id seg.startSeq with
    | .error e => .error e
    | .ok items =>
      match binaryLoop start seg.endSeq limit items buf next with
      | .error e => .error e
      | .ok (buf, next, stop) =>
        if stop ∨ buf.length ≥ limit then .ok (buf, next) else binarySegments flt db start limit segs buf next

/-- A response: its body, the offset to go on from, and whether that is the tail. -/
structure ReadResult where
  body : Bytes
  next : Offset
  upToDate : Bool
deriving DecidableEq, Repr

def readSegmentsBinary (flt : ReadFaults) (db : Store) (segs : List Segment) (start : Offset) (tailSeq limit : Nat) :
    Except String ReadResult :=
  (binarySegments flt db start limit segs [] start).map fun out =>
    { body := out.1, next := out.2, upToDate := out.2.seq ≥ tailSeq }

/-! ## JSON streams -/

/-- The messages with a comma between them. -/
def joinMessages : List Bytes → Bytes
  | [] => []
  | [r] => r
  | r :: rs => r ++ ascii "," ++ joinMessages rs

/-- The single-array body of stored JSON messages. -/
def wrapJSONArray (records : List Bytes) : Bytes := ascii "[" ++ joinMessages records ++ ascii "]"

/-- The messages collected so far, their size, the sequence number to go on from, and whether the page is full. -/
structure JSONPage where
  recs : List Bytes := []
  total : Nat := 0
  nextSeq : Nat
  stop : Bool := false

/-- The scan of one segment. Messages are whole, and the first one is taken whatever its size. -/
def jsonLoop (endSeq limit : Nat) : List (Except String (Nat × Bytes)) → JSONPage → Except String JSONPage
  | [], p => .ok p
  | .error e :: _, _ => .error e
  | .ok (recSeq, v) :: items, p =>
    if recSeq ≥ endSeq then .ok p
    else
      let payload := recordPayload v
      if p.recs ≠ [] ∧ p.total + payload.length > limit then .ok { p with stop := true }
      else
        let p' := { p with
          recs := p.recs ++ [payload], nextSeq := recSeq + 1, total := p.total + payload.length }
        if p'.total ≥ limit then .ok { p' with stop := true } else jsonLoop endSeq limit items p'

def jsonSegments (flt : ReadFaults) (db : Store) (limit : Nat) : List Segment → JSONPage → Except String JSONPage
  | [], p => .ok p
  | seg :: segs, p =>
    if p.stop then .ok p
    else
      match iterate flt db seg.id seg.startSeq with
      | .error e => .error e
      | .ok items =>
        match jsonLoop seg.endSeq limit items p with
        | .error e => .error e
        | .ok p => jsonSegments flt db limit segs p

def readSegmentsJSON (flt : ReadFaults) (db : Store) (segs : List Segment) (start : Offset) (tailSeq limit : Nat) :
    Except String ReadResult :=
  (jsonSegments flt db limit segs { nextSeq := start.seq }).map fun p =>
    { body := wrapJSONArray p.recs, next := ⟨p.nextSeq, 0⟩, upToDate := p.nextSeq ≥ tailSeq }

/-! ## A range -/

/-- One response for `[start, tailSeq)` of about `limit` bytes; `fuel` bounds the fork chain that is followed. -/
def readRange (flt : ReadFaults) (db : Store) (fuel streamID forkedFrom forkOffset : Nat) (isJSON : Bool)
    (start : Offset) (tailSeq limit : Nat) : Except String ReadResult :=
  if start.seq ≥ tailSeq then .ok { body := if isJSON then ascii "[]" else [], next := start, upToDate := true }
  else
    match resolveSegments (resolveSegmentsByID flt.gets db fuel) streamID forkedFrom forkOffset start.seq tailSeq with
    | .error e => .error e
    | .ok segs =>
      if isJSON then readSegmentsJSON flt db segs start tailSeq limit
      else readSegmentsBinary flt db segs start tailSeq limit

/-! ## What a range holds -/

/-- The payload that the store holds for a sequence number of a stream, through at most `depth` sources. -/
def payloadAt (db : Store) (depth id forkedFrom forkOffset seq : Nat) : Option Bytes :=
  if forkedFrom = 0 ∨ forkOffset ≤ seq then (db.recordAt id seq).map recordPayload
  else
    match depth with
    | 0 => none
    | depth + 1 =>
      match db.idMappingAt forkedFrom with
      | none => none
      | some path =>
        match db.metaAt path with
        | none => none
        | some m => payloadAt db depth forkedFrom m.forkedFrom m.forkOffset seq

/-- The segments are adjacent, ascending and not empty, and cover `[startSeq, endSeq)`. -/
def Tiles : List Segment → Nat → Nat → Prop
  | [], a, b => a = b
  | seg :: segs, a, b => seg.startSeq = a ∧ a < seg.endSeq ∧ Tiles segs seg.endSeq b

/-- The records of one segment, as its scan delivers them. -/
def segmentRecords (db : Store) (seg : Segment) : List (Nat × Bytes) :=
  ((scanRecords db seg.id seg.startSeq).takeWhile (·.1 < seg.endSeq)).map fun r => (r.1, recordPayload r.2)

/-- The entries `a`, …, `b - 1` of a log, with their sequence numbers. -/
def numbered (log : Nat → Bytes) (a b : Nat) : List (Nat × Bytes) := (List.range' a (b - a)).map fun n => (n, log n)

/-- The entries `a`, …, `b - 1` of a log. -/
def entries (log : Nat → Bytes) (a b : Nat) : List Bytes := (List.range' a (b - a)).map log

variable {a b forkOffset forkedFrom id limit n tailSeq : Nat} {db : Store} {log : Nat → Bytes} {v : Bytes}
  {segs : List Segment} {flt : ReadFaults} {start : Offset}

section

variable (log : Nat → Bytes)

theorem entries_of_le (h : b ≤ a) : entries log a b = [] := by
  simp [entries, Nat.sub_eq_zero_of_le h]

theorem entries_cons (h : a < b) : entries log a b = log a :: entries log (a + 1) b := by
  obtain ⟨k, rfl⟩ := Nat.exists_eq_add_of_lt h
  have h1 : a + k + 1 - a = k + 1 := by omega
  have h2 : a + k + 1 - (a + 1) = k := by omega
  rw [entries, entries, h1, h2, range'_succ, map_cons]

theorem length_entries (a b : Nat) : (entries log a b).length = b - a := by simp [entries]

theorem drop_entries (a b k : Nat) : (entries log a b).drop k = entries log (a + k) b := by
  rw [entries, entries, ← map_drop, drop_range', Nat.sub_sub, Nat.mul_one]

theorem take_entries {k : Nat} (h : a + k ≤ b) : (entries log a b).take k = entries log a (a + k) := by
  rw [entries, entries, ← map_take, take_range'_of_length_ge (by omega), Nat.add_sub_cancel_left]

theorem numbered_append (hab : a ≤ b) (hbc : b ≤ c) : numbered log a b ++ numbered log b c = numbered log a c := by
  have h1 : a + 1 * (b - a) = b := by omega
  have h2 : b - a + (c - b) = c - a := by omega
  rw [numbered, numbered, numbered, ← map_append, ← h2, ← range'_append, h1]

theorem map_snd_numbered (a b : Nat) : (numbered log a b).map (·.2) = entries log a b := by
  simp [numbered, entries]

theorem entries_append (hab : a ≤ b) (hbc : b ≤ c) : entries log a b ++ entries log b c = entries log a c := by
  rw [← map_snd_numbered, ← map_snd_numbered, ← map_snd_numbered, ← map_append, numbered_append log hab hbc]

end

theorem entries_congr {f g : Nat → Bytes} (h : ∀ n, a ≤ n → n < b → f n = g n) : entries f a b = entries g a b := by
  refine map_congr_left fun n hn => ?_
  rw [mem_range'_1] at hn
  exact h n hn.1 (by omega)

theorem getElem?_entries (log : Nat → Bytes) (a b i : Nat) :
    (entries log a b)[i]? = if a + i < b then some (log (a + i)) else none := by
  unfold entries
  rw [getElem?_map]
  by_cases h : a + i < b
  · rw [if_pos h, getElem?_range' (by omega), one_mul, map_some]
  · rw [if_neg h, getElem?_eq_none (by rw [length_range']; omega), map_none]

theorem tiles_append : ∀ {xs ys : List Segment} {a b c : Nat}, Tiles xs a b → Tiles ys b c → Tiles (xs ++ ys) a c
  | [], _, _, _, _, h, h' => by cases h; exact h'
  | _ :: _, _, _, _, _, h, h' => ⟨h.1, h.2.1, tiles_append h.2.2 h'⟩

/-! ## The records of a segment -/

theorem takeWhile_scanRecords (db : Store) (h : ∀ n, a ≤ n → n < b → (db.recordAt id n).isSome) :
    (scanRecords db id a).takeWhile (·.1 < b) =
      (List.range' a (b - a)).map fun n => (n, (db.recordAt id n).getD []) := by
  unfold scanRecords
  rw [takeWhile_map]
  congr 1
  refine takeWhile_scan ?_ ?_
  · intro n hn
    obtain ⟨k, -, hk⟩ := mem_scan.mp hn
    cases k <;> simp at hk
    omega
  · intro n ha hb
    have hmem := Finmap.mem_of_lookup_eq_some (Option.get_mem (h n ha hb))
    exact mem_scan.mpr ⟨.recordKey id n, hmem, by simp [ha]⟩

theorem segmentRecords_eq (h : ∀ n, a ≤ n → n < b → (db.recordAt id n).map recordPayload = some (log n)) :
    segmentRecords db ⟨id, a, b⟩ = numbered log a b := by
  have hs : ∀ n, a ≤ n → n < b → (db.recordAt id n).isSome := by
    intro n ha hb
    have := h n ha hb
    cases hr : db.recordAt id n with
    | none => rw [hr] at this; cases this
    | some v => rfl
  rw [segmentRecords, takeWhile_scanRecords db hs, numbered, List.map_map]
  refine map_congr_left fun n hn => ?_
  rw [mem_range'_1] at hn
  obtain ⟨v, hv⟩ := isSome_iff_exists.mp (hs n hn.1 (by omega))
  have hlog := h n hn.1 (by omega)
  rw [hv, map_some, some.injEq] at hlog
  simp [hv, hlog]

/-! ## Resolving a stored range -/

theorem payloadAt_own (db : Store) (depth id : Nat) (h : forkedFrom = 0 ∨ forkOffset ≤ n) :
    payloadAt db depth id forkedFrom forkOffset n = (db.recordAt id n).map recordPayload := by
  rw [payloadAt.eq_def, if_pos h]

/-- An inherited entry is an entry of the source. -/
theorem payloadAt_source {p : Bytes} (hf : forkedFrom ≠ 0) (hn : n < forkOffset)
    (h : payloadAt db depth id forkedFrom forkOffset n = some p) :
    ∃ d path m, depth = d + 1 ∧ db.idMappingAt forkedFrom = some path ∧ db.metaAt path = some m ∧
      ∀ k, k < forkOffset → payloadAt db depth id forkedFrom forkOffset k =
        payloadAt db d forkedFrom m.forkedFrom m.forkOffset k := by
  have hn' : ∀ {k}, k < forkOffset → ¬(forkedFrom = 0 ∨ forkOffset ≤ k) := fun hk => by omega
  rw [payloadAt.eq_def, if_neg (hn' hn)] at h
  cases depth with
  | zero => cases h
  | succ d =>
    cases hi : db.idMappingAt forkedFrom with
    | none => simp [hi] at h
    | some path =>
      cases hm : db.metaAt path with
      | none => simp [hi, hm] at h
      | some m =>
        refine ⟨d, path, m, rfl, rfl, hm, fun k hk => ?_⟩
        conv_lhs => rw [payloadAt.eq_def, if_neg (hn' hk)]
        simp only [hi, hm]

theorem loadMetaByID_noFaults (hi : db.idMappingAt id = some path)
    (hm : db.metaAt path = some m) : loadMetaByID noFaults db id = .ok (some (m, path)) := by
  have h1 : get noFaults db (.idMappingKey id) = .ok (some path) := congrArg Except.ok hi
  have h2 : loadMeta noFaults db path = .ok (some m) := congrArg Except.ok hm
  rw [loadMetaByID, h1]
  simp [h2, Except.map]

theorem own_stored (id : Nat) (hab : a < b)
    (h : ∀ n, a ≤ n → n < b → (db.recordAt id n).map recordPayload = some (log n)) :
    Tiles [⟨id, a, b⟩] a b ∧ [⟨id, a, b⟩].flatMap (segmentRecords db) = numbered log a b := by
  refine ⟨⟨rfl, hab, rfl⟩, ?_⟩
  rw [flatMap_singleton, segmentRecords_eq h]

/-- **The segments of a stored range** are adjacent, cover it exactly, and hold its records. -/
theorem resolve_stored (log : Nat → Bytes) : ∀ (depth fuel id forkedFrom forkOffset : Nat)
    {a b : Nat}, depth ≤ fuel → a ≤ b →
    (∀ n, a ≤ n → n < b → payloadAt db depth id forkedFrom forkOffset n = some (log n)) →
    ∃ segs, resolveSegments (resolveSegmentsByID noFaults db fuel) id forkedFrom forkOffset a b = .ok segs ∧
      Tiles segs a b ∧ segs.flatMap (segmentRecords db) = numbered log a b := by
  intro depth
  -- the induction is on the number of sources; each of them serves the part below its fork's offset
  induction depth using Nat.strong_induction_on with
  | _ depth ih =>
    intro fuel id forkedFrom forkOffset a b hfuel hab hlog
    unfold resolveSegments
    rcases eq_or_lt_of_le hab with rfl | hlt
    · exact ⟨[], by simp, rfl, by simp [numbered]⟩
    rw [if_neg (by omega)]
    by_cases hf : forkedFrom = 0
    · rw [if_pos hf]
      exact ⟨_, rfl, own_stored id hlt fun n ha hb => payloadAt_own db depth id (.inl hf) ▸ hlog n ha hb⟩
    rw [if_neg hf]
    by_cases ha : a < forkOffset
    · obtain ⟨d, path, m, rfl, hi, hm, hsrc⟩ := payloadAt_source hf ha (hlog a (le_refl _) hlt)
      obtain ⟨fuel, rfl⟩ : ∃ k, fuel = k + 1 := ⟨fuel - 1, by omega⟩
      obtain ⟨segs, hs, ht, hr⟩ := ih d (lt_succ_self d) fuel forkedFrom m.forkedFrom m.forkOffset
        (a := a) (b := min b forkOffset) (by omega) (by omega)
        (fun n hna hnb => by rw [← hsrc n (by omega)]; exact hlog n hna (by omega))
      simp only [ha, if_true, resolveSegmentsByID, resolveWithin, loadMetaByID_noFaults hi hm]
      rw [show resolveSegments (resolveWithin _ _ _ _) .. = _ from hs, Except.map]
      by_cases hb : b > forkOffset
      · have hmin : min b forkOffset = forkOffset := by omega
        have hmax : max a forkOffset = forkOffset := by omega
        rw [hmin] at ht hr
        obtain ⟨ht', hr'⟩ := own_stored id hb fun n hna hnb =>
          payloadAt_own db (d + 1) id (.inr hna) ▸ hlog n (by omega) hnb
        refine ⟨_, rfl, ?_, ?_⟩
        · rw [if_pos hb, hmax]
          exact tiles_append ht ht'
        · rw [if_pos hb, hmax, flatMap_append, hr, hr', numbered_append log (by omega) (by omega)]
      · have hmin : min b forkOffset = b := by omega
        rw [hmin] at ht hr
        refine ⟨_, rfl, ?_, ?_⟩
        · rw [if_neg hb, append_nil]
          exact ht
        · rw [if_neg hb, append_nil, hr]
    · have hmax : max a forkOffset = a := by omega
      simp only [ha, if_false]
      rw [if_pos (by omega), hmax]
      have hfo : forkOffset ≤ a := by omega
      exact ⟨_, rfl, own_stored id hlt fun n hna hnb =>
        payloadAt_own db depth id (.inr (hfo.trans hna)) ▸ hlog n hna hnb⟩

/-- More sources than the chain has change nothing. -/
theorem payloadAt_mono : ∀ {d d' : Nat} {id forkedFrom forkOffset n : Nat}, d ≤ d' →
    payloadAt db d id forkedFrom forkOffset n = some v → payloadAt db d' id forkedFrom forkOffset n = some v := by
  intro d
  induction d with
  | zero =>
    intro d' id forkedFrom forkOffset n _ h
    by_cases hown : forkedFrom = 0 ∨ forkOffset ≤ n
    · rw [payloadAt_own db _ id hown] at h ⊢
      exact h
    · rw [payloadAt, if_neg hown] at h
      cases h
  | succ d ih =>
    intro d' id forkedFrom forkOffset n hd h
    obtain ⟨k, rfl⟩ : ∃ k, d' = k + 1 := ⟨d' - 1, by omega⟩
    by_cases hown : forkedFrom = 0 ∨ forkOffset ≤ n
    · rw [payloadAt_own db _ id hown] at h ⊢
      exact h
    · rw [payloadAt, if_neg hown] at h ⊢
      cases hi : db.idMappingAt forkedFrom with
      | none => simp [hi] at h
      | some path =>
        cases hm : db.metaAt path with
        | none => simp [hi, hm] at h
        | some m =>
          simp only [hi, hm] at h ⊢
          exact ih (by omega) h

theorem le_of_tiles : ∀ {segs : List Segment} {a b : Nat}, Tiles segs a b → a ≤ b
  | [], _, _, h => le_of_eq h
  | _ :: _, _, _, h => (le_of_lt h.2.1).trans (le_of_tiles h.2.2)

theorem tiles_one (h : Tiles segs n (n + 1)) : ∃ id, segs = [⟨id, n, n + 1⟩] := by
  cases segs with
  | nil => exact absurd h (Nat.ne_of_lt (Nat.lt_succ_self n))
  | cons seg segs =>
    obtain ⟨hs, hlt, ht⟩ := h
    have hend : seg.endSeq = n + 1 := le_antisymm (le_of_tiles ht) hlt
    cases segs with
    | nil => exact ⟨seg.id, by rw [← hend, ← hs]⟩
    | cons seg' segs' =>
      have := le_of_tiles ht.2.2
      have := ht.2.1
      omega

theorem mem_segmentRecords {seg : Segment} (h : (n, v) ∈ segmentRecords db seg) :
    (db.recordAt seg.id n).map recordPayload = some v := by
  obtain ⟨⟨k, w⟩, hr, he⟩ := List.mem_map.mp h
  obtain ⟨i, hi, hk⟩ := List.mem_map.mp ((takeWhile_sublist _).subset hr)
  obtain ⟨key, hkey, hidx⟩ := mem_scan.mp hi
  cases key with
  | recordKey j s =>
    simp only [ite_none_right_eq_some, some.injEq] at hidx
    obtain ⟨⟨rfl, -⟩, rfl⟩ := hidx
    obtain ⟨r, hrec⟩ := isSome_iff_exists.mp (Finmap.lookup_isSome.mpr hkey)
    have hrec : db.recordAt seg.id s = some r := hrec
    simp only [hrec, getD_some, Prod.mk.injEq] at hk he
    obtain ⟨rfl, rfl⟩ := hk
    obtain ⟨rfl, rfl⟩ := he
    rw [hrec, map_some]
  | _ => cases hidx

/-- **The source's lookup of one record** finds what the store holds. -/
theorem chainRecordAt_stored (hi : db.idMappingAt id = some path)
    (hm : db.metaAt path = some m) (hd : depth ≤ id) (h : payloadAt db depth id m.forkedFrom m.forkOffset n = some v) :
    chainRecordAt noFaults db id n = .ok (some v) := by
  obtain ⟨segs, hs, ht, hr⟩ := resolve_stored (fun _ => v) depth id id m.forkedFrom m.forkOffset hd
    (le_succ n) (fun k hk hk' => by rw [show k = n by omega]; exact h)
  obtain ⟨i, rfl⟩ := tiles_one ht
  have hmem : (n, v) ∈ segmentRecords db ⟨i, n, n + 1⟩ := by
    rw [flatMap_singleton] at hr
    rw [hr]
    simp [numbered]
  have hget : get noFaults db (.recordKey i n) = .ok (db.recordAt i n) := rfl
  rw [chainRecordAt, resolveSegmentsByID, resolveWithin, loadMetaByID_noFaults hi hm, ← resolveSegmentsByID]
  simp only [hs, getLast?_singleton, hget, Except.map, mem_segmentRecords hmem]

/-! ## Reads that do not fail -/

theorem get_noFaults {flt : Faults} {k : Key} {v : Option k.Val} (h : get flt db k = .ok v) :
    get noFaults db k = .ok v :=
  congrArg Except.ok (get_ok h)

theorem loadMetaByID_noFaults_of_ok {flt : Faults} {r : Option (StreamMeta × Bytes)}
    (h : loadMetaByID flt db id = .ok r) : loadMetaByID noFaults db id = .ok r := by
  unfold loadMetaByID at h ⊢
  split at h
  · cases h
  · rename_i hg
    rw [get_noFaults hg]
    exact h
  · rename_i path hg
    rw [get_noFaults hg]
    cases hm : loadMeta flt db path with
    | error e => rw [hm] at h; cases h
    | ok m =>
      have hm' : loadMeta noFaults db path = .ok m := get_noFaults hm
      rw [hm] at h
      simp only [hm']
      exact h

theorem resolveSegments_mono {byID byID' : Nat → Nat → Nat → Except String (List Segment)}
    (hb : ∀ s e segs, byID forkedFrom s e = .ok segs → byID' forkedFrom s e = .ok segs) {s e : Nat}
    (h : resolveSegments byID id forkedFrom forkOffset s e = .ok segs) :
    resolveSegments byID' id forkedFrom forkOffset s e = .ok segs := by
  unfold resolveSegments at h ⊢
  by_cases hempty : s ≥ e
  · rw [if_pos hempty] at h ⊢
    exact h
  rw [if_neg hempty] at h ⊢
  by_cases hplain : forkedFrom = 0
  · rw [if_pos hplain] at h ⊢
    exact h
  rw [if_neg hplain] at h ⊢
  by_cases hs : s < forkOffset
  · rw [if_pos hs] at h ⊢
    cases hr : byID forkedFrom s (min e forkOffset) with
    | error err => rw [hr] at h; cases h
    | ok below =>
      rw [hr] at h
      rw [hb _ _ _ hr]
      exact h
  · rw [if_neg hs] at h ⊢
    exact h

theorem resolveSegmentsByID_noFaults {flt : Faults} : ∀ {fuel id s e : Nat} {segs : List Segment},
    resolveSegmentsByID flt db fuel id s e = .ok segs → resolveSegmentsByID noFaults db fuel id s e = .ok segs
  | 0, _, _, _, _, h => h
  | fuel + 1, id, s, e, segs, h => by
    unfold resolveSegmentsByID resolveWithin at h ⊢
    split at h
    · cases h
    · rename_i hl
      rw [loadMetaByID_noFaults_of_ok hl]
      exact h
    · rename_i m path hl
      rw [loadMetaByID_noFaults_of_ok hl]
      exact resolveSegments_mono (fun _ _ _ => resolveSegmentsByID_noFaults) h

theorem chainRecordAt_noFaults {flt : Faults} {r : Option Bytes} (h : chainRecordAt flt db id n = .ok r) :
    chainRecordAt noFaults db id n = .ok r := by
  unfold chainRecordAt at h ⊢
  split at h
  · cases h
  · rename_i segs hs
    rw [resolveSegmentsByID_noFaults hs]
    dsimp only
    split at h
    · exact h
    · rename_i seg _
      cases hg : get flt db (.recordKey seg.id n) with
      | error e => rw [hg] at h; cases h
      | ok v =>
        rw [hg] at h
        rw [get_noFaults hg]
        exact h

/-- A scan that fails after `xs` and was not read that far is a scan without failure. -/
theorem binaryLoop_noFaults {out : Bytes × Offset × Bool} (ys : List (Nat × Bytes)) :
    ∀ (xs : List (Nat × Bytes)) (buf : Bytes) (next : Offset),
    binaryLoop start endSeq limit (xs.map .ok ++ [.error e]) buf next = .ok out →
    binaryLoop start endSeq limit ((xs ++ ys).map .ok) buf next = .ok out
  | [], buf, next, h => by
    rw [map_nil, nil_append, binaryLoop] at h
    split at h
    · cases h
    · rename_i hfull
      cases ys with
      | nil => exact h
      | cons y ys =>
        rw [nil_append, map_cons, binaryLoop, if_neg hfull]
        exact h
  | (recSeq, v) :: xs, buf, next, h => by
    rw [map_cons, cons_append, binaryLoop] at h
    rw [cons_append, map_cons, binaryLoop]
    split at h
    · rename_i hroom
      rw [if_pos hroom]
      dsimp only at h ⊢
      split at h
      · rename_i hend
        rw [if_pos hend]
        exact h
      · rename_i hend
        rw [if_neg hend]
        generalize min (if recSeq = start.seq then start.byte else 0) (recordPayload v).length = skip at h ⊢
        split at h
        · rename_i hfit
          rw [if_pos hfit]
          exact binaryLoop_noFaults ys xs _ _ h
        · rename_i hfit
          rw [if_neg hfit]
          exact h
    · rename_i hroom
      rw [if_neg hroom]
      exact h

theorem jsonLoop_noFaults {out : JSONPage} (ys : List (Nat × Bytes)) :
    ∀ (xs : List (Nat × Bytes)) (p : JSONPage), jsonLoop endSeq limit (xs.map .ok ++ [.error e]) p = .ok out →
    jsonLoop endSeq limit ((xs ++ ys).map .ok) p = .ok out
  | [], p, h => by cases h
  | (recSeq, v) :: xs, p, h => by
    rw [map_cons, cons_append, jsonLoop] at h
    rw [cons_append, map_cons, jsonLoop]
    dsimp only at h ⊢
    split at h
    · rename_i hend
      rw [if_pos hend]
      exact h
    · rename_i hend
      rw [if_neg hend]
      split at h
      · rename_i hover
        rw [if_pos hover]
        exact h
      · rename_i hover
        rw [if_neg hover]
        split at h
        · rename_i hfull
          rw [if_pos hfull]
          exact h
        · rename_i hfull
          rw [if_neg hfull]
          exact jsonLoop_noFaults ys xs _ h

theorem iterate_noFaults (db : Store) (id startSeq : Nat) :
    iterate {} db id startSeq = .ok ((scanRecords db id startSeq).map .ok) := rfl

theorem iterate_cases {startSeq : Nat} {items : List (Except String (Nat × Bytes))}
    (h : iterate flt db id startSeq = .ok items) :
    items = (scanRecords db id startSeq).map .ok ∨ ∃ xs ys, scanRecords db id startSeq = xs ++ ys ∧
      items = xs.map .ok ++ [.error errScan] := by
  unfold iterate at h
  split at h
  · cases h
  · split at h
    · cases h
      exact .inl rfl
    · rename_i n _
      cases h
      exact .inr ⟨_, _, (take_append_drop n _).symm, rfl⟩

theorem binarySegments_noFaults {out : Bytes × Offset} : ∀ (segs : List Segment) (buf : Bytes) (next : Offset),
    binarySegments flt db start limit segs buf next = .ok out → binarySegments {} db start limit segs buf next = .ok out
  | [], _, _, h => h
  | seg :: segs, buf, next, h => by
    have key : ∀ loop, binaryLoop start seg.endSeq limit ((scanRecords db seg.id seg.startSeq).map .ok) buf next =
          .ok loop →
        (if loop.2.2 ∨ loop.1.length ≥ limit then .ok (loop.1, loop.2.1)
          else binarySegments flt db start limit segs loop.1 loop.2.1) = .ok out →
        binarySegments {} db start limit (seg :: segs) buf next = .ok out := by
      intro loop hloop hrest
      rw [binarySegments, iterate_noFaults]
      simp only [hloop]
      split at hrest
      · rename_i hstop
        rw [if_pos hstop]
        exact hrest
      · rename_i hstop
        rw [if_neg hstop]
        exact binarySegments_noFaults segs _ _ hrest
    rw [binarySegments] at h
    split at h
    · cases h
    · rename_i items hitems
      split at h
      · cases h
      · rename_i b n stop hloop
        refine key (b, n, stop) ?_ h
        rcases iterate_cases hitems with rfl | ⟨xs, ys, hxs, rfl⟩
        · exact hloop
        · rw [hxs]
          exact binaryLoop_noFaults ys xs _ _ hloop

theorem jsonSegments_noFaults {out : JSONPage} : ∀ (segs : List Segment) (p : JSONPage),
    jsonSegments flt db limit segs p = .ok out → jsonSegments {} db limit segs p = .ok out
  | [], _, h => h
  | seg :: segs, p, h => by
    have key : ∀ p', jsonLoop seg.endSeq limit ((scanRecords db seg.id seg.startSeq).map .ok) p = .ok p' →
        p.stop = false → jsonSegments flt db limit segs p' = .ok out →
        jsonSegments {} db limit (seg :: segs) p = .ok out := by
      intro p' hloop hstop hrest
      rw [jsonSegments, if_neg (by simp [hstop]), iterate_noFaults]
      simp only [hloop]
      exact jsonSegments_noFaults segs _ hrest
    rw [jsonSegments] at h
    split at h
    · rename_i hstop
      rw [jsonSegments, if_pos hstop]
      exact h
    · rename_i hstop
      split at h
      · cases h
      · rename_i items hitems
        split at h
        · cases h
        · rename_i p' hloop
          refine key p' ?_ (by simpa using hstop) h
          rcases iterate_cases hitems with rfl | ⟨xs, ys, hxs, rfl⟩
          · exact hloop
          · rw [hxs]
            exact jsonLoop_noFaults ys xs _ hloop

/-- **A read that succeeds is the read without failures.** -/
theorem readRange_noFaults {r : ReadResult}
    (h : readRange flt db fuel streamID forkedFrom forkOffset isJSON start tailSeq limit = .ok r) :
    readRange {} db fuel streamID forkedFrom forkOffset isJSON start tailSeq limit = .ok r := by
  unfold readRange at h ⊢
  split at h
  · rename_i hempty
    rw [if_pos hempty]
    exact h
  · rename_i hempty
    rw [if_neg hempty]
    split at h
    · cases h
    · rename_i segs hsegs
      have hsegs' := resolveSegments_mono (fun _ _ _ => resolveSegmentsByID_noFaults) hsegs
      rw [show ({} : ReadFaults).gets = noFaults from rfl, hsegs']
      cases isJSON with
      | false =>
        simp only [Bool.false_eq_true, if_false, readSegmentsBinary] at h ⊢
        cases hb : binarySegments flt db start limit segs [] start with
        | error e => rw [hb] at h; cases h
        | ok out =>
          rw [hb] at h
          rw [binarySegments_noFaults segs _ _ hb]
          exact h
      | true =>
        simp only [if_true, readSegmentsJSON] at h ⊢
        cases hj : jsonSegments flt db limit segs { nextSeq := start.seq } with
        | error e => rw [hj] at h; cases h
        | ok out =>
          rw [hj] at h
          rw [jsonSegments_noFaults segs _ hj]
          exact h

theorem le_next_of_upToDate {r : ReadResult}
    (h : readRange flt db fuel streamID forkedFrom forkOffset isJSON start tailSeq limit = .ok r)
    (hu : r.upToDate = true) : tailSeq ≤ r.next.seq := by
  unfold readRange at h
  split at h
  · rename_i hge
    cases h
    exact hge
  · split at h
    · cases h
    · split at h
      · unfold readSegmentsJSON Except.map at h
        split at h
        · cases h
        · cases h
          simpa using hu
      · unfold readSegmentsBinary Except.map at h
        split at h
        · cases h
        · cases h
          simpa using hu

/-! ## The assemblers as page functions -/

/-- Where a record is read from: the byte offset applies to the record it points into. -/
def skipAt (start : Offset) (recSeq : Nat) (payload : Bytes) : Nat :=
  min (if recSeq = start.seq then start.byte else 0) payload.length

/-- `binaryLoop` over payloads, without segments. -/
def binaryFlat (start : Offset) (limit : Nat) : List (Nat × Bytes) → Bytes → Offset → Bytes × Offset × Bool
  | [], buf, next => (buf, next, false)
  | (recSeq, payload) :: rs, buf, next =>
    if buf.length < limit then
      if (payload.drop (skipAt start recSeq payload)).length ≤ limit - buf.length then
        binaryFlat start limit rs (buf ++ payload.drop (skipAt start recSeq payload)) ⟨recSeq + 1, 0⟩
      else (buf ++ (payload.drop (skipAt start recSeq payload)).take (limit - buf.length),
        ⟨recSeq, skipAt start recSeq payload + (limit - buf.length)⟩, true)
    else (buf, next, false)

section BinaryFlat

variable {start : Offset} {limit : Nat} {buf : Bytes} {recSeq : Nat} {payload : Bytes}

theorem binaryFlat_full (h : ¬buf.length < limit) (rs : List (Nat × Bytes)) (next : Offset) :
    binaryFlat start limit rs buf next = (buf, next, false) := by
  cases rs with
  | nil => rfl
  | cons r rs => rw [binaryFlat, if_neg h]

theorem binaryFlat_fit (h : buf.length < limit)
    (hfit : (payload.drop (skipAt start recSeq payload)).length ≤ limit - buf.length) (rs : List (Nat × Bytes))
    (next : Offset) : binaryFlat start limit ((recSeq, payload) :: rs) buf next =
      binaryFlat start limit rs (buf ++ payload.drop (skipAt start recSeq payload)) ⟨recSeq + 1, 0⟩ := by
  rw [binaryFlat, if_pos h, if_pos hfit]

theorem binaryFlat_cut (h : buf.length < limit)
    (hfit : ¬(payload.drop (skipAt start recSeq payload)).length ≤ limit - buf.length) (rs : List (Nat × Bytes))
    (next : Offset) : binaryFlat start limit ((recSeq, payload) :: rs) buf next =
      (buf ++ (payload.drop (skipAt start recSeq payload)).take (limit - buf.length),
        ⟨recSeq, skipAt start recSeq payload + (limit - buf.length)⟩, true) := by
  rw [binaryFlat, if_pos h, if_neg hfit]

end BinaryFlat

theorem binaryFlat_append (start : Offset) (limit : Nat) (ys : List (Nat × Bytes)) :
    ∀ (xs : List (Nat × Bytes)) (buf : Bytes) (next : Offset), binaryFlat start limit (xs ++ ys) buf next =
      if (binaryFlat start limit xs buf next).2.2 ∨ (binaryFlat start limit xs buf next).1.length ≥ limit
      then binaryFlat start limit xs buf next
      else binaryFlat start limit ys (binaryFlat start limit xs buf next).1 (binaryFlat start limit xs buf next).2.1
  | [], buf, next => by
    by_cases h : buf.length < limit
    · rw [if_neg (by simp [binaryFlat, h])]
      rfl
    · rw [binaryFlat_full h, binaryFlat_full h, if_pos (.inr (not_lt.mp h))]
  | (recSeq, payload) :: xs, buf, next => by
    rw [cons_append]
    by_cases h : buf.length < limit
    · by_cases hfit : (payload.drop (skipAt start recSeq payload)).length ≤ limit - buf.length
      · rw [binaryFlat_fit h hfit, binaryFlat_fit h hfit]
        exact binaryFlat_append start limit ys xs _ _
      · rw [binaryFlat_cut h hfit, binaryFlat_cut h hfit, if_pos (.inl rfl)]
    · rw [binaryFlat_full h, binaryFlat_full h, if_pos (.inr (not_lt.mp h))]

theorem binaryLoop_map (start : Offset) (endSeq limit : Nat) : ∀ (recs : List (Nat × Bytes)) (buf : Bytes)
    (next : Offset), binaryLoop start endSeq limit (recs.map .ok) buf next =
      .ok (binaryFlat start limit ((recs.takeWhile (·.1 < endSeq)).map fun r => (r.1, recordPayload r.2)) buf next)
  | [], _, _ => rfl
  | (recSeq, v) :: recs, buf, next => by
    rw [map_cons, binaryLoop]
    by_cases h : buf.length < limit
    · rw [if_pos h]
      by_cases hend : recSeq < endSeq
      · rw [takeWhile_cons_of_pos (by simpa using hend), map_cons]
        by_cases hfit : ((recordPayload v).drop (skipAt start recSeq (recordPayload v))).length ≤ limit - buf.length
        · rw [binaryFlat_fit h hfit]
          have ih := binaryLoop_map start endSeq limit recs
            (buf ++ (recordPayload v).drop (skipAt start recSeq (recordPayload v))) ⟨recSeq + 1, 0⟩
          exact (if_neg (not_le.mpr hend)).trans ((if_pos hfit).trans ih)
        · rw [binaryFlat_cut h hfit]
          exact (if_neg (not_le.mpr hend)).trans (if_neg hfit)
      · rw [takeWhile_cons_of_neg (by simpa using hend), map_nil, binaryFlat]
        exact if_pos (not_lt.mp hend)
    · rw [if_neg h, binaryFlat_full h]

theorem binarySegments_eq (db : Store) (start : Offset) (limit : Nat) : ∀ (segs : List Segment) (buf : Bytes)
    (next : Offset), binarySegments {} db start limit segs buf next =
      .ok ((binaryFlat start limit (segs.flatMap (segmentRecords db)) buf next).1,
        (binaryFlat start limit (segs.flatMap (segmentRecords db)) buf next).2.1)
  | [], _, _ => rfl
  | seg :: segs, buf, next => by
    have hloop := binaryLoop_map start seg.endSeq limit (scanRecords db seg.id seg.startSeq) buf next
    rw [← segmentRecords] at hloop
    rw [binarySegments, iterate_noFaults, flatMap_cons, binaryFlat_append]
    simp only [hloop]
    split
    · rfl
    · exact binarySegments_eq db start limit segs _ _

theorem numbered_cons (log : Nat → Bytes) (h : a < b) : numbered log a b = (a, log a) :: numbered log (a + 1) b := by
  rw [← numbered_append log (le_succ a) (succ_le_of_lt h)]
  simp [numbered]

theorem drop_min_length (l : Bytes) (k : Nat) : l.drop (min k l.length) = l.drop k := by
  rcases le_total k l.length with h | h
  · rw [min_eq_left h]
  · rw [min_eq_right h, drop_length, drop_eq_nil_of_le h]

/-- Over consecutive records the loop fills a page. -/
theorem binaryFlat_numbered (start : Offset) (limit : Nat) (log : Nat → Bytes) (b : Nat) : ∀ (len a : Nat),
    len = b - a → start.seq ≤ a → ∀ (buf : Bytes) (skip : Nat), skip = (if a = start.seq then start.byte else 0) →
    (binaryFlat start limit (numbered log a b) buf ⟨a, skip⟩).1 = (fill limit buf skip (entries log a b)).1 ∧
      (binaryFlat start limit (numbered log a b) buf ⟨a, skip⟩).2.1 =
        ⟨a + (fill limit buf skip (entries log a b)).2.1, (fill limit buf skip (entries log a b)).2.2⟩
  | 0, a, hlen, _, buf, skip, _ => by
    simp [numbered, entries, ← hlen, binaryFlat, fill]
  | len + 1, a, hlen, ha, buf, skip, hskip => by
    rw [numbered_cons log (by omega), entries_cons log (by omega)]
    have hat : skipAt start a (log a) = min skip (log a).length := by rw [skipAt, hskip]
    have hdrop : (log a).drop (skipAt start a (log a)) = (log a).drop skip := by rw [hat, drop_min_length]
    by_cases h : buf.length < limit
    · by_cases hfit : ((log a).drop skip).length ≤ limit - buf.length
      · rw [binaryFlat_fit h (hdrop ▸ hfit), hdrop, fill_fit h hfit]
        have ih := binaryFlat_numbered start limit log b len (a + 1) (by omega) (by omega)
          (buf ++ (log a).drop skip) 0 (by rw [if_neg (by omega)])
        exact ⟨ih.1, ih.2.trans (by rw [add_assoc, add_comm 1])⟩
      · -- what is cut is not empty, so the offset lies within the record
        have hlt : skip ≤ (log a).length := by
          rw [length_drop] at hfit
          omega
        rw [binaryFlat_cut h (hdrop ▸ hfit), hdrop, hat, min_eq_left hlt, fill_cut h hfit]
        exact ⟨rfl, rfl⟩
    · rw [binaryFlat_full h, fill_full h]
      exact ⟨rfl, rfl⟩

/-- **The binary assembler fills a page.** -/
theorem readSegmentsBinary_eq (start : Offset) (limit : Nat)
    (h : segs.flatMap (segmentRecords db) = numbered log start.seq tailSeq) :
    readSegmentsBinary {} db segs start tailSeq limit =
      .ok { body := (fill limit [] start.byte (entries log start.seq tailSeq)).1
            next := ⟨start.seq + (fill limit [] start.byte (entries log start.seq tailSeq)).2.1,
              (fill limit [] start.byte (entries log start.seq tailSeq)).2.2⟩
            upToDate := start.seq + (fill limit [] start.byte (entries log start.seq tailSeq)).2.1 ≥ tailSeq } := by
  obtain ⟨h1, h2⟩ := binaryFlat_numbered start limit log tailSeq _ start.seq rfl (le_refl _) [] start.byte
    (by rw [if_pos rfl])
  rw [readSegmentsBinary, binarySegments_eq, h, Except.map, h1, h2]

/-- `jsonLoop` over payloads, without segments. -/
def jsonFlat (limit : Nat) : List (Nat × Bytes) → JSONPage → JSONPage
  | [], p => p
  | (recSeq, payload) :: rs, p =>
    if p.recs ≠ [] ∧ p.total + payload.length > limit then { p with stop := true }
    else
      let p' := { p with
        recs := p.recs ++ [payload], nextSeq := recSeq + 1, total := p.total + payload.length }
      if p'.total ≥ limit then { p' with stop := true } else jsonFlat limit rs p'

section JsonFlat

variable {limit : Nat} {p : JSONPage} {recSeq : Nat} {payload : Bytes}

theorem jsonFlat_over (h : p.recs ≠ [] ∧ p.total + payload.length > limit) (rs : List (Nat × Bytes)) :
    jsonFlat limit ((recSeq, payload) :: rs) p = { p with stop := true } := by
  rw [jsonFlat, if_pos h]

theorem jsonFlat_take (h : ¬(p.recs ≠ [] ∧ p.total + payload.length > limit)) (rs : List (Nat × Bytes)) :
    jsonFlat limit ((recSeq, payload) :: rs) p =
      if p.total + payload.length ≥ limit then
        { recs := p.recs ++ [payload], nextSeq := recSeq + 1, total := p.total + payload.length, stop := true }
      else jsonFlat limit rs
        { p with recs := p.recs ++ [payload], nextSeq := recSeq + 1, total := p.total + payload.length } := by
  rw [jsonFlat, if_neg h]

end JsonFlat

theorem jsonFlat_append (limit : Nat) (ys : List (Nat × Bytes)) : ∀ (xs : List (Nat × Bytes)) (p : JSONPage),
    p.stop = false → jsonFlat limit (xs ++ ys) p =
      if (jsonFlat limit xs p).stop then jsonFlat limit xs p else jsonFlat limit ys (jsonFlat limit xs p)
  | [], p, h => by simp [jsonFlat, h]
  | (recSeq, payload) :: xs, p, h => by
    rw [cons_append]
    by_cases hover : p.recs ≠ [] ∧ p.total + payload.length > limit
    · rw [jsonFlat_over hover, jsonFlat_over hover, if_pos rfl]
    · rw [jsonFlat_take hover, jsonFlat_take hover]
      by_cases hfull : p.total + payload.length ≥ limit
      · rw [if_pos hfull, if_pos hfull, if_pos rfl]
      · rw [if_neg hfull, if_neg hfull]
        exact jsonFlat_append limit ys xs _ h

theorem jsonLoop_map (endSeq limit : Nat) : ∀ (recs : List (Nat × Bytes)) (p : JSONPage),
    jsonLoop endSeq limit (recs.map .ok) p =
      .ok (jsonFlat limit ((recs.takeWhile (·.1 < endSeq)).map fun r => (r.1, recordPayload r.2)) p)
  | [], _ => rfl
  | (recSeq, v) :: recs, p => by
    rw [map_cons, jsonLoop]
    by_cases hend : recSeq < endSeq
    · rw [takeWhile_cons_of_pos (by simpa using hend), map_cons, jsonFlat, if_neg (by omega)]
      dsimp only
      split
      · rfl
      · split
        · rfl
        · exact jsonLoop_map endSeq limit recs _
    · rw [takeWhile_cons_of_neg (by simpa using hend), map_nil, jsonFlat, if_pos (by omega)]

theorem jsonSegments_stop (db : Store) (limit : Nat) {p : JSONPage} (h : p.stop = true) (segs : List Segment) :
    jsonSegments {} db limit segs p = .ok p := by
  cases segs with
  | nil => rfl
  | cons seg segs => rw [jsonSegments, if_pos h]

theorem jsonSegments_eq (db : Store) (limit : Nat) : ∀ (segs : List Segment) (p : JSONPage), p.stop = false →
    jsonSegments {} db limit segs p = .ok (jsonFlat limit (segs.flatMap (segmentRecords db)) p)
  | [], _, _ => rfl
  | seg :: segs, p, h => by
    have hloop := jsonLoop_map seg.endSeq limit (scanRecords db seg.id seg.startSeq) p
    rw [← segmentRecords] at hloop
    rw [jsonSegments, if_neg (by simp [h]), iterate_noFaults, flatMap_cons, jsonFlat_append limit _ _ _ h]
    simp only [hloop]
    by_cases hs : (jsonFlat limit (segmentRecords db seg) p).stop = true
    · rw [if_pos hs, jsonSegments_stop db limit hs]
    · rw [if_neg hs, jsonSegments_eq db limit segs _ (by simpa using hs)]

/-- Over consecutive records the loop gathers a page. -/
theorem jsonFlat_numbered (limit : Nat) (log : Nat → Bytes) (b : Nat) : ∀ (len a : Nat), len = b - a →
    ∀ (p : JSONPage), p.nextSeq = a → (jsonFlat limit (numbered log a b) p).recs =
        p.recs ++ (entries log a b).take (gather limit (p.recs ≠ []) p.total (entries log a b)) ∧
      (jsonFlat limit (numbered log a b) p).nextSeq = a + gather limit (p.recs ≠ []) p.total (entries log a b)
  | 0, a, hlen, p, hp => by
    simp [numbered, entries, ← hlen, jsonFlat, gather, hp]
  | len + 1, a, hlen, p, hp => by
    rw [numbered_cons log (by omega), entries_cons log (by omega), gather]
    simp only [decide_eq_true_eq]
    by_cases hover : p.recs ≠ [] ∧ p.total + (log a).length > limit
    · rw [jsonFlat_over hover, if_pos hover]
      exact ⟨by simp, by simpa using hp⟩
    · rw [jsonFlat_take hover, if_neg hover]
      by_cases hfull : p.total + (log a).length ≥ limit
      · rw [if_pos hfull, if_pos hfull]
        exact ⟨by simp, rfl⟩
      · rw [if_neg hfull, if_neg hfull]
        have ih := jsonFlat_numbered limit log b len (a + 1) (by omega)
          { p with recs := p.recs ++ [log a], nextSeq := a + 1, total := p.total + (log a).length } rfl
        have hheld : decide (p.recs ++ [log a] ≠ []) = true := by simp
        dsimp only at ih
        rw [hheld] at ih
        refine ⟨ih.1.trans ?_, ih.2.trans (by omega)⟩
        rw [take_succ_cons, append_assoc, singleton_append]

/-- **The JSON assembler gathers a page.** -/
theorem readSegmentsJSON_eq (start : Offset) (limit : Nat)
    (h : segs.flatMap (segmentRecords db) = numbered log start.seq tailSeq) :
    readSegmentsJSON {} db segs start tailSeq limit =
      .ok { body := wrapJSONArray ((entries log start.seq tailSeq).take
              (gather limit false 0 (entries log start.seq tailSeq)))
            next := ⟨start.seq + gather limit false 0 (entries log start.seq tailSeq), 0⟩
            upToDate := start.seq + gather limit false 0 (entries log start.seq tailSeq) ≥ tailSeq } := by
  obtain ⟨h1, h2⟩ := jsonFlat_numbered limit log tailSeq _ start.seq rfl { nextSeq := start.seq } rfl
  simp only [ne_eq, not_true_eq_false, decide_false, nil_append] at h1 h2
  rw [readSegmentsJSON, jsonSegments_eq db limit segs _ rfl, h, Except.map, h1, h2]

end Yasdb
