import Mathlib.Data.List.DropRight
import Yasdb.Lib.Json
import Yasdb.Server.Read

/-!
# The messages of a JSON body

`flattenJSON` cuts a body into messages and compacts them, `wrapJSONArray` puts stored messages into one array. What
`encoding/json` does is taken as given (`EncodingJSON`), in terms of the texts and values of `Json`.

- `flattenJSON_messages`: a body that is accepted is cut into the compact texts of its messages;
- `initialRecords_messages`: the same for an initial body, where an empty array stands for no message;
- `parse_wrapJSONArray`: **valid messages in one array are a JSON array**.
-/

namespace Yasdb

open List Option Json Value

variable {body : Bytes} {records : List Bytes}

/-- What is used of `bytes.TrimSpace` and `encoding/json`: no trimmed text starts with white space, what is valid is
JSON, a slice of raw messages holds texts of the elements, and compact texts lack white space. -/
structure EncodingJSON (L : GoLib) : Prop where
  trim : ∀ b c, (L.trimSpace b).head? = some c → isSpace c = false
  valid : ∀ b, L.jsonValid b = true → (parse b).isSome
  unmarshal : ∀ b es, b.head? = some 91 → L.unmarshalArray b = some es →
    ∃ vs, parse b = some (.arr vs) ∧ es.map parse = vs.map some
  compact : ∀ b v c, parse b = some v → L.jsonCompact b = some c → c = v.render

/-- The messages of a body: the elements of an array, or the one value. -/
def messagesOf (L : GoLib) (body : Bytes) : List Value :=
  match parse (L.trimSpace body) with
  | some (.arr vs) => vs
  | some v => [v]
  | none => []

/-- The elements of an array text. -/
def elementsOf (text : Bytes) : List Value :=
  match parse text with
  | some (.arr vs) => vs
  | _ => []

section Laws

variable {L : GoLib} (J : EncodingJSON L)
include J

theorem mapM_jsonCompact : ∀ {es : List Bytes} {vs : List Value} {out : List Bytes},
    es.map parse = vs.map some → es.mapM L.jsonCompact = some out → out = vs.map render
  | [], [], _, _, h => by
    cases h
    rfl
  | [], _ :: _, _, he, _ => by cases he
  | _ :: _, [], _, he, _ => by cases he
  | e :: es, v :: vs, out, he, h => by
    obtain ⟨hv, he⟩ := List.cons.inj he
    rw [mapM_cons] at h
    obtain ⟨c, hc, h⟩ := bind_eq_some_iff.mp h
    obtain ⟨cs, hcs, h⟩ := bind_eq_some_iff.mp h
    cases h
    rw [J.compact e v c hv hc, mapM_jsonCompact he hcs, map_cons]

theorem messagesOf_array {es : List Bytes} (hhead : (L.trimSpace body).head? = some 91)
    (hes : L.unmarshalArray (L.trimSpace body) = some es) : es.map parse = (messagesOf L body).map some ∧
      ∀ v ∈ messagesOf L body, parse v.render = some v := by
  obtain ⟨vs, hp, hm⟩ := J.unmarshal _ es hhead hes
  have hmsg : messagesOf L body = vs := by rw [messagesOf, hp]
  rw [hmsg]
  exact ⟨hm, fun v hv => parse_render_elem hp hv⟩

theorem messagesOf_single {c : UInt8} (hhead : (L.trimSpace body).head? = some c) (hc : c ≠ 91)
    {v : Value} (hv : parse (L.trimSpace body) = some v) : messagesOf L body = [v] := by
  have hs := J.trim body c hhead
  unfold messagesOf
  rw [hv]
  cases v with
  | arr vs =>
    obtain ⟨rest, hb⟩ : ∃ rest, L.trimSpace body = c :: rest := by
      cases hb : L.trimSpace body with
      | nil => rw [hb] at hhead; cases hhead
      | cons d rest => rw [hb] at hhead; cases hhead; exact ⟨rest, rfl⟩
    rw [hb] at hv
    exact absurd (head_of_parse_arr hv hs) hc
  | atom s => rfl
  | str s => rfl
  | obj ms => rfl

/-- **The messages of an accepted body**, and their compact texts as its records. -/
theorem flattenJSON_messages (h : flattenJSON L body = .ok records) :
    records = (messagesOf L body).map render ∧ ∀ v ∈ messagesOf L body, parse v.render = some v := by
  unfold flattenJSON at h
  dsimp only at h
  split at h
  · rename_i hhead
    split at h
    · cases h
    · cases h
    · rename_i es _ hes
      obtain ⟨hm, hback⟩ := messagesOf_array J hhead hes
      split at h
      · rename_i out hout
        cases h
        exact ⟨mapM_jsonCompact J hm hout, hback⟩
      · cases h
  · rename_i hhead
    split at h
    · cases h
    · rename_i hvalid
      rw [not_or, Bool.not_eq_false] at hvalid
      obtain ⟨hne, hvalid⟩ := hvalid
      obtain ⟨v, hv⟩ := isSome_iff_exists.mp (J.valid _ hvalid)
      obtain ⟨c, rest, hb⟩ := exists_cons_of_ne_nil hne
      have hc : (L.trimSpace body).head? = some c := by rw [hb]; rfl
      have hmsg := messagesOf_single J hc (fun he => hhead (by rw [hc, he])) hv
      split at h
      · rename_i out hout
        cases h
        rw [hmsg, J.compact _ v out hv hout]
        exact ⟨rfl, fun w hw => mem_singleton.mp hw ▸ parse_render hv⟩
      · cases h

theorem flattenJSON_empty (h : flattenJSON L body = .error .errEmptyArray) : messagesOf L body = [] := by
  unfold flattenJSON at h
  dsimp only at h
  split at h
  · rename_i hhead
    split at h
    · cases h
    · rename_i hes
      have hm := (messagesOf_array J hhead hes).1
      rw [map_nil] at hm
      exact map_eq_nil_iff.mp hm.symm
    · split at h <;> cases h
  · split at h
    · cases h
    · split at h <;> cases h

/-- **The records of an initial body.** -/
theorem initialRecords_messages {contentType : Bytes} {msg : String}
    (hjson : isJSONStream L contentType = true) (h : initialRecords L contentType body msg = .ok records) :
    records = ((if body = [] then [] else [body]).flatMap (messagesOf L)).map render ∧
      ∀ b ∈ (if body = [] then [] else [body]), ∀ v ∈ messagesOf L b, parse v.render = some v := by
  unfold initialRecords at h
  split at h
  · rename_i he
    cases h
    simp [he]
  · rename_i he
    simp only [if_neg he, flatMap_singleton, mem_singleton, forall_eq]
    unfold forkBodyRecords at h
    rw [if_pos hjson] at h
    cases hf : flattenJSON L body with
    | error err =>
      rw [hf] at h
      cases err with
      | errInvalidJSON => cases h
      | errEmptyArray =>
        cases h
        rw [flattenJSON_empty J hf]
        exact ⟨rfl, nofun⟩
    | ok recs =>
      rw [hf] at h
      cases h
      exact flattenJSON_messages J hf

end Laws

/-! ## One array of messages -/

theorem joinMessages_eq : ∀ records : List Bytes, joinMessages records = List.intercalate [44] records
  | [] => rfl
  | [r] => by simp [joinMessages]
  | r :: r' :: rs => by
    rw [joinMessages, joinMessages_eq (r' :: rs), intercalate_cons_cons]
    · rfl
    · nofun

theorem wrapJSONArray_eq (records : List Bytes) :
    wrapJSONArray records = 91 :: (List.intercalate [44] records ++ [93]) := by
  rw [wrapJSONArray, joinMessages_eq]
  rfl

/-- **Valid messages in one array are a JSON array.** -/
theorem parse_wrapJSONArray (h : ∀ r ∈ records, (parse r).isSome) :
    ∃ vs, parse (wrapJSONArray records) = some (.arr vs) ∧ records.map parse = vs.map some := by
  have hvs : ∃ vs : List Value, records.map parse = vs.map some := by
    induction records with
    | nil => exact ⟨[], rfl⟩
    | cons r records ih =>
      obtain ⟨v, hv⟩ := isSome_iff_exists.mp (h r mem_cons_self)
      obtain ⟨vs, hvs⟩ := ih fun r' hr' => h r' (mem_cons_of_mem _ hr')
      exact ⟨v :: vs, by rw [map_cons, map_cons, hv, hvs]⟩
  obtain ⟨vs, hvs⟩ := hvs
  exact ⟨vs, by rw [wrapJSONArray_eq]; exact parse_array hvs, hvs⟩

/-! ## The records of a response -/

theorem jsonFlat_forall {P : Bytes → Prop} (limit : Nat) : ∀ {rs : List (Nat × Bytes)} {p : JSONPage},
    (∀ r ∈ p.recs, P r) → (∀ x ∈ rs, P x.2) → ∀ r ∈ (jsonFlat limit rs p).recs, P r
  | [], _, hp, _ => hp
  | (recSeq, payload) :: rs, p, hp, hrs => by
    have hp' : ∀ r ∈ p.recs ++ [payload], P r := fun r hr => by
      rcases mem_append.mp hr with hr | hr
      · exact hp r hr
      · exact mem_singleton.mp hr ▸ hrs _ mem_cons_self
    by_cases hover : p.recs ≠ [] ∧ p.total + payload.length > limit
    · rw [jsonFlat_over hover]
      exact hp
    · rw [jsonFlat_take hover]
      split
      · exact hp'
      · exact jsonFlat_forall limit hp' fun x hx => hrs x (mem_cons_of_mem _ hx)

/-- **A JSON response holds records of the segments of its range.** -/
theorem readRange_json_forall {P : Bytes → Prop} {flt : ReadFaults} {db : Store}
    {fuel id forkedFrom forkOffset : Nat} {start : Offset} {tail limit : Nat} {page : ReadResult}
    (h : readRange flt db fuel id forkedFrom forkOffset true start tail limit = .ok page)
    (hP : ∀ segs, resolveSegments (resolveSegmentsByID noFaults db fuel) id forkedFrom forkOffset start.seq tail =
      .ok segs → ∀ seg ∈ segs, ∀ n v, db.recordAt seg.id n = some v → P (recordPayload v)) :
    ∃ recs, page.body = wrapJSONArray recs ∧ ∀ r ∈ recs, P r := by
  have h := readRange_noFaults h
  unfold readRange at h
  split at h
  · cases h
    exact ⟨[], rfl, (by simp)⟩
  · split at h
    · cases h
    · rename_i segs hsegs
      rw [if_pos rfl, readSegmentsJSON, jsonSegments_eq db limit segs _ rfl] at h
      cases h
      refine ⟨_, rfl, jsonFlat_forall limit (by simp) fun x hx => ?_⟩
      obtain ⟨seg, hseg, hx⟩ := mem_flatMap.mp hx
      obtain ⟨v, hv, hpayload⟩ := map_eq_some_iff.mp (mem_segmentRecords hx)
      exact hpayload ▸ hP segs hsegs seg hseg x.1 v hv

/-! ## A library that parses -/

/-- A standard library whose JSON functions are those of `Json`. -/
def jsonLib : GoLib where
  trimSpace := fun b => (b.dropWhile isSpace).rdropWhile isSpace
  toLower := id
  parseMediaType := some
  unmarshalArray := fun b =>
    match parse b with
    | some (.arr vs) => some (vs.map Value.render)
    | _ => none
  jsonValid := fun b => (parse b).isSome
  jsonCompact := fun b => (parse b).map Value.render

theorem encodingJSON_jsonLib : EncodingJSON jsonLib where
  trim := by
    intro b c h
    have hlast : ((b.dropWhile isSpace).rdropWhile isSpace).head? = some c := h
    have hfirst : (b.dropWhile isSpace).head? = some c := by
      obtain ⟨t, ht⟩ := rdropWhile_prefix isSpace (l := b.dropWhile isSpace)
      rw [← ht, head?_append, hlast]
      rfl
    have hnot := head?_dropWhile_not isSpace b
    rw [hfirst] at hnot
    simpa using hnot
  valid := fun _ h => h
  unmarshal := by
    intro b es _ h
    simp only [jsonLib] at h
    split at h
    · rename_i vs hp
      cases h
      refine ⟨vs, hp, ?_⟩
      rw [List.map_map]
      exact map_congr_left fun v hv => parse_render_elem hp hv
    · cases h
  compact := by
    intro b v c hv h
    simp only [jsonLib, hv, map_some, some.injEq] at h
    exact h.symm

end Yasdb
