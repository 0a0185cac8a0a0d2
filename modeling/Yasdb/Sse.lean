import Yasdb.Lib.EventStream
import Yasdb.OffsetText

/-!
# Server-sent events

`writeSSEData` frames a delivery as one `data` event and `writeSSEControl` the position behind it as one `control`
event. A reader interprets the whole output as an event stream (`EventStream`).

- `frame_bytes`: what the two functions write are frames;
- `one_event_per_write`: **the output is one event per call**, whatever the payloads contain;
- `text_faithful_iff`: when a text payload arrives as it is, up to its line ends; `space_lost` is one that does not.
-/

namespace Yasdb.Sse

open EventStream List OneLine

variable {b : UInt8} {s : Bytes}

/-! ## Library functions -/

/-- The alphabet of `base64.StdEncoding`. -/
def base64Alphabet : Bytes := ascii "ABCDEFGHIJKLMNOPQRSTUVWXYZabcdefghijklmnopqrstuvwxyz0123456789+/"

/-- The character of a group of six bits; the padding character is `=`. -/
def base64Char (i : Nat) : UInt8 := base64Alphabet.getD i 61

/-- `base64.StdEncoding.Encode` -/
def base64 : Bytes → Bytes
  | [] => []
  | [a] => [base64Char (a.toNat / 4), base64Char (a.toNat % 4 * 16), 61, 61]
  | [a, b] =>
    [base64Char (a.toNat / 4), base64Char (a.toNat % 4 * 16 + b.toNat / 16), base64Char (b.toNat % 16 * 4), 61]
  | a :: b :: c :: s =>
    [base64Char (a.toNat / 4), base64Char (a.toNat % 4 * 16 + b.toNat / 16),
      base64Char (b.toNat % 16 * 4 + c.toNat / 64), base64Char (c.toNat % 64)] ++ base64 s

/-- `strings.ReplaceAll` for a nonempty `old`, where the first `skip` bytes belong to the occurrence just replaced. -/
def replaceAllFrom (old new : Bytes) (skip : Nat) : Bytes → Bytes
  | [] => []
  | b :: s =>
    if 0 < skip then replaceAllFrom old new (skip - 1) s
    else if old.isPrefixOf (b :: s) then new ++ replaceAllFrom old new (old.length - 1) s
    else b :: replaceAllFrom old new 0 s

def replaceAll (s old new : Bytes) : Bytes := replaceAllFrom old new 0 s

/-! ## Frames as they are written -/

def sseEventData : Bytes := ascii "event: data\n"
def sseDataPrefix : Bytes := ascii "data:"
def sseNL : Bytes := ascii "\n"
def sseNLNL : Bytes := ascii "\n\n"
def sseControlHead : Bytes := ascii "event: control\ndata:\x7b\"streamNextOffset\":\""
def sseControlCursor : Bytes := ascii ",\"streamCursor\":\""
def sseControlUpToDate : Bytes := ascii ",\"upToDate\":true"
def sseControlClosed : Bytes := ascii ",\"streamClosed\":true"

/-- The bytes written for a delivery. -/
def writeSSEData (textLike : Bool) (payload : Bytes) : Bytes :=
  sseEventData ++
    if !textLike then sseDataPrefix ++ base64 payload ++ sseNLNL
    else if 10 ∉ payload ∧ 13 ∉ payload then sseDataPrefix ++ payload ++ sseNLNL
    else
      let normalized := replaceAll payload [13, 10] [10]
      let normalized := replaceAll normalized [13] [10]
      (normalized.splitOn 10).flatMap (fun line => sseDataPrefix ++ line ++ sseNL) ++ sseNL

structure SseControl where
  next : Offset
  streamCursor : Bytes := []
  upToDate : Bool := false
  streamClosed : Bool := false

def appendSSEControl (dst : Bytes) (c : SseControl) : Bytes :=
  let dst := dst ++ sseControlHead
  let dst := appendOffset dst c.next
  let dst := dst ++ [34]
  let dst := if c.streamCursor ≠ [] then dst ++ sseControlCursor ++ c.streamCursor ++ [34] else dst
  let dst := if c.upToDate then dst ++ sseControlUpToDate else dst
  let dst := if c.streamClosed then dst ++ sseControlClosed else dst
  dst ++ [125, 10, 10]

/-- The bytes written for a control event. -/
def writeSSEControl (c : SseControl) : Bytes := appendSSEControl [] c

/-- A call of `writeSSEData` or `writeSSEControl`. -/
inductive Write where
  | data (textLike : Bool) (payload : Bytes)
  | control (c : SseControl)

open Write

def Write.bytes : Write → Bytes
  | .data textLike payload => writeSSEData textLike payload
  | .control c => writeSSEControl c

/-- The type of event that the call is to produce. -/
def Write.type : Write → Bytes
  | .data _ _ => ascii "data"
  | .control _ => ascii "control"

/-! ## Line ends of a payload -/

/-- Each CR LF and each lone CR becomes a LF; `cr` says that the byte before was a CR. -/
def toLF (cr : Bool) : Bytes → Bytes
  | [] => []
  | b :: s =>
    if b = 10 then if cr then toLF false s else 10 :: toLF false s
    else if b = 13 then 10 :: toLF true s
    else b :: toLF false s

/-- The payload with each CR LF and each lone CR replaced by a LF. -/
def newlinesToLF (payload : Bytes) : Bytes := toLF false payload

theorem isPrefixOf_crlf {c : UInt8} : List.isPrefixOf [13, 10] (b :: c :: s) = true ↔ b = 13 ∧ c = 10 := by
  simp only [List.isPrefixOf, Bool.and_true, Bool.and_eq_true, beq_iff_eq]
  exact and_congr eq_comm eq_comm

theorem replaceAll_cr_cons (b : UInt8) (s : Bytes) :
    replaceAll (b :: s) [13] [10] = (if b = 13 then 10 else b) :: replaceAll s [13] [10] := by
  unfold replaceAll
  rw [replaceAllFrom]
  by_cases hb : b = 13
  · simp [hb]
  · simp [hb, Ne.symm hb]

/-- The two replacements of the code replace every line end. -/
theorem replaceAll_eq : ∀ s : Bytes, replaceAll (replaceAll s [13, 10] [10]) [13] [10] = newlinesToLF s
  | [] => rfl
  | [b] => by
    have h1 : replaceAll [b] [13, 10] [10] = [b] := by simp [replaceAll, replaceAllFrom]
    rw [h1, replaceAll_cr_cons]
    by_cases h10 : b = 10 <;> by_cases h13 : b = 13 <;> simp [newlinesToLF, toLF, h10, h13, replaceAll, replaceAllFrom]
  | b :: c :: s => by
    have ih := replaceAll_eq s
    have ih' := replaceAll_eq (c :: s)
    by_cases hp : b = 13 ∧ c = 10
    · obtain ⟨rfl, rfl⟩ := hp
      have h1 : replaceAll (13 :: 10 :: s) [13, 10] [10] = 10 :: replaceAll s [13, 10] [10] := by
        simp [replaceAll, replaceAllFrom]
      rw [h1, replaceAll_cr_cons, ih]
      simp [newlinesToLF, toLF]
    · have hpre : ¬ List.isPrefixOf [13, 10] (b :: c :: s) = true := fun h => hp (isPrefixOf_crlf.mp h)
      have h1 : replaceAll (b :: c :: s) [13, 10] [10] = b :: replaceAll (c :: s) [13, 10] [10] := by
        unfold replaceAll
        rw [replaceAllFrom, if_neg (Nat.lt_irrefl 0), if_neg hpre]
      rw [h1, replaceAll_cr_cons, ih']
      unfold newlinesToLF
      by_cases h10 : b = 10
      · simp [toLF, h10]
      · by_cases h13 : b = 13
        · -- the CR stands alone, so nothing of what follows belongs to it
          have hc : c ≠ 10 := fun hc => hp ⟨h13, hc⟩
          simp [toLF, h13, hc]
        · simp [toLF, h10, h13]

theorem ne_cr_of_mem_toLF : ∀ {cr : Bool} {s : Bytes}, b ∈ toLF cr s → b ≠ 13
  | cr, [], h => by cases h
  | cr, a :: s, h => by
    rw [toLF] at h
    split at h
    · split at h
      · exact ne_cr_of_mem_toLF h
      · rcases mem_cons.mp h with rfl | h
        · decide
        · exact ne_cr_of_mem_toLF h
    · split at h
      · rcases mem_cons.mp h with rfl | h
        · decide
        · exact ne_cr_of_mem_toLF h
      · rename_i h13
        rcases mem_cons.mp h with rfl | h
        · exact h13
        · exact ne_cr_of_mem_toLF h

theorem toLF_of_oneLine : ∀ {s : Bytes}, OneLine s → toLF false s = s
  | [], _ => rfl
  | b :: s, h => by
    obtain ⟨h10, h13⟩ := h b mem_cons_self
    rw [toLF, if_neg h10, if_neg h13, toLF_of_oneLine fun b' hb' => h b' (mem_cons_of_mem _ hb')]

/-- A line has bytes of the text, and no LF. -/
theorem mem_splitOn {b : UInt8} : ∀ {s l : Bytes}, l ∈ s.splitOn 10 → b ∈ l → b ∈ s ∧ b ≠ 10
  | [], l, hl, hb => by
    rw [mem_singleton.mp hl] at hb
    cases hb
  | a :: s, l, hl, hb => by
    have ih := fun l' hl' => @mem_splitOn b s l' hl'
    unfold List.splitOn at hl ih
    rw [splitOnP_cons_eq_if_modifyHead] at hl
    split at hl
    · rcases mem_cons.mp hl with rfl | hl
      · cases hb
      · obtain ⟨hs, hne⟩ := ih l hl hb
        exact ⟨mem_cons_of_mem _ hs, hne⟩
    · rename_i ha
      obtain ⟨l', ls, hls⟩ := exists_cons_of_ne_nil (splitOnP_ne_nil (fun x => x == 10) s)
      rw [hls, modifyHead_cons] at hl
      rw [hls] at ih
      rcases mem_cons.mp hl with rfl | hl
      · rcases mem_cons.mp hb with rfl | hb
        · exact ⟨mem_cons_self, by simpa using ha⟩
        · obtain ⟨hs, hne⟩ := ih l' mem_cons_self hb
          exact ⟨mem_cons_of_mem _ hs, hne⟩
      · obtain ⟨hs, hne⟩ := ih l (mem_cons_of_mem _ hl) hb
        exact ⟨mem_cons_of_mem _ hs, hne⟩

theorem oneLine_of_mem_splitOn {payload l : Bytes} (hl : l ∈ (newlinesToLF payload).splitOn 10) : OneLine l := by
  intro b hb
  obtain ⟨hs, hne⟩ := mem_splitOn hl hb
  exact ⟨hne, ne_cr_of_mem_toLF hs⟩

theorem splitOn_of_oneLine (h : OneLine s) : (newlinesToLF s).splitOn 10 = [s] := by
  have hsplit := @splitOn_intercalate UInt8 [s] _ _ 10 (fun l hl hm => by
    rw [mem_singleton.mp hl] at hm
    exact (h 10 hm).1 rfl) (by simp)
  unfold newlinesToLF
  rw [toLF_of_oneLine h]
  simpa using hsplit

/-! ## What is written are frames -/

/-- The members of the control object up to its end. -/
def controlJSON (c : SseControl) : Bytes :=
  ascii "\x7b\"streamNextOffset\":\"" ++ c.next.string ++ [34] ++
    (if c.streamCursor ≠ [] then sseControlCursor ++ c.streamCursor ++ [34] else []) ++
    (if c.upToDate then sseControlUpToDate else []) ++ (if c.streamClosed then sseControlClosed else []) ++ [125]

/-- The frame of a call. -/
def Write.frame (w : Write) : Frame where
  type := w.type
  values := match w with
    | .data true payload => (newlinesToLF payload).splitOn 10
    | .data false payload => [base64 payload]
    | .control c => [controlJSON c]

theorem oneLine_base64 : ∀ s, OneLine (base64 s) := by
  have hchar : ∀ i, base64Char i ≠ 10 ∧ base64Char i ≠ 13 := by
    intro i
    have hmem : base64Char i ∈ 61 :: base64Alphabet := by
      unfold base64Char
      rw [getD_eq_getElem?_getD]
      cases hi : base64Alphabet[i]? with
      | none => exact mem_cons_self
      | some b => exact mem_cons_of_mem _ (mem_of_getElem? hi)
    have hall : ∀ b ∈ 61 :: base64Alphabet, b ≠ 10 ∧ b ≠ 13 := by decide +kernel
    exact hall _ hmem
  intro s
  fun_induction base64 s with
  | case1 => intro b hb; cases hb
  | case2 a => simp [OneLine, hchar]
  | case3 a b => simp [OneLine, hchar]
  | case4 a b c s ih => exact append (by simp [OneLine, hchar]) ih

theorem oneLine_digits (h : ∀ b ∈ s, 48 ≤ b.toNat ∧ b.toNat ≤ 57) : OneLine s := by
  intro b hb
  have hd := h b hb
  constructor
  · rintro rfl
    exact absurd hd.1 (by decide)
  · rintro rfl
    exact absurd hd.1 (by decide)

theorem oneLine_string (o : Offset) : OneLine o.string := by
  have hs : o.string = padDigits 16 o.seq ++ ([95] ++ padDigits 16 o.byte) := by
    simp [Offset.string, appendOffset, appendPad16]
  rw [hs]
  exact (oneLine_digits fun b hb => mem_padDigits hb).append
    (append (by unfold OneLine; decide +kernel) (oneLine_digits fun b hb => mem_padDigits hb))

theorem oneLine_controlJSON {c : SseControl} (hc : ∀ b ∈ c.streamCursor, 48 ≤ b.toNat ∧ b.toNat ≤ 57) :
    OneLine (controlJSON c) := by
  have hlit : ∀ s ∈ [ascii "\x7b\"streamNextOffset\":\"", [34], sseControlCursor, sseControlUpToDate, sseControlClosed,
      [125], []], OneLine s := by unfold OneLine; decide +kernel
  refine append (append (append (append (append (append ?_ ?_) ?_) ?_) ?_) ?_) ?_
  · exact hlit _ (by simp)
  · exact oneLine_string _
  · exact hlit _ (by simp)
  · split
    · exact append (append (hlit _ (by simp)) (oneLine_digits hc)) (hlit _ (by simp))
    · exact hlit _ (by simp)
  · split <;> exact hlit _ (by simp)
  · split <;> exact hlit _ (by simp)
  · exact hlit _ (by simp)

/-- The cursor of a control event is a decimal or empty. -/
def Write.CursorDecimal : Write → Prop
  | .data _ _ => True
  | .control c => ∀ b ∈ c.streamCursor, 48 ≤ b.toNat ∧ b.toNat ≤ 57

theorem oneLine_type (w : Write) : OneLine w.type ∧ w.type ≠ [] := by
  have h : ∀ s ∈ [ascii "data", ascii "control"], OneLine s ∧ s ≠ [] := by unfold OneLine; decide +kernel
  cases w with
  | _ => exact h _ (by simp [type])

theorem frame_valid {w : Write} (h : w.CursorDecimal) : w.frame.Valid where
  type := (oneLine_type w).1
  values := by
    cases w with
    | control c =>
      intro v hv
      rw [mem_singleton.mp hv]
      exact oneLine_controlJSON h
    | data textLike payload =>
      cases textLike with
      | true => exact fun v hv => oneLine_of_mem_splitOn hv
      | false =>
        intro v hv
        rw [mem_singleton.mp hv]
        exact oneLine_base64 payload
  type_ne := (oneLine_type w).2
  values_ne := by
    cases w with
    | control c => exact cons_ne_nil _ _
    | data textLike payload =>
      cases textLike with
      | true => exact splitOnP_ne_nil _ _
      | false => exact cons_ne_nil _ _

/-- **What is written are frames**, on the fast path as on the slow one. -/
theorem frame_bytes (w : Write) : w.bytes = w.frame.bytes := by
  have hevent : sseEventData = eventName ++ 58 :: 32 :: ascii "data" ++ [10] := by decide
  have hdata : sseDataPrefix = dataName ++ [58] := by decide
  cases w with
  | control c =>
    have hhead : sseControlHead = eventName ++ 58 :: 32 :: ascii "control" ++ [10] ++
        (dataName ++ 58 :: ascii "\x7b\"streamNextOffset\":\"") := by decide
    have hwrite : writeSSEControl c = eventName ++ 58 :: 32 :: ascii "control" ++ [10] ++ (dataName ++ 58 ::
        controlJSON c) ++ [10, 10] := by
      unfold writeSSEControl appendSSEControl controlJSON
      simp only [appendOffset_eq, hhead, nil_append]
      split <;> split <;> split <;> simp
    simp [bytes, frame, type, Frame.bytes, Frame.text, hwrite]
  | data textLike payload =>
    have hnl : sseNLNL = [10, 10] := by decide
    cases textLike with
    | false =>
      simp [bytes, frame, type, Frame.bytes, Frame.text, writeSSEData, hevent, hdata, hnl]
    | true =>
      have hnl1 : sseNL = [10] := by decide
      unfold bytes writeSSEData
      dsimp only
      rw [if_neg (by simp)]
      split
      · rename_i hfast
        have hone : OneLine payload := fun b hb => ⟨fun h => hfast.1 (h ▸ hb), fun h => hfast.2 (h ▸ hb)⟩
        simp [frame, type, Frame.bytes, Frame.text, splitOn_of_oneLine hone, hevent, hdata, hnl]
      · rw [replaceAll_eq]
        simp [frame, type, Frame.bytes, Frame.text, hevent, hdata, hnl1, flatMap_map]

theorem flatMap_bytes (ws : List Write) : ws.flatMap bytes = (ws.map frame).flatMap Frame.bytes := by
  rw [flatMap_map]
  exact flatMap_congr fun w _ => frame_bytes w

/-! ## Main results -/

/-- **The output is one event per call**, of its type, with one event field and nothing else but data fields. -/
theorem one_event_per_write (ws : List Write) (hc : ∀ w ∈ ws, w.CursorDecimal) :
    (events (ws.flatMap bytes)).map Event.type = ws.map type ∧
    List.Forall₂ (fun block w => ∃ values, values ≠ [] ∧ block = .field (ascii "event") (type w) ::
      values.map (Line.field (ascii "data"))) (blocks (ws.flatMap bytes)) ws := by
  have hvalid : ∀ f ∈ ws.map frame, f.Valid := by
    intro f hf
    obtain ⟨w, hw, rfl⟩ := List.mem_map.mp hf
    exact frame_valid (hc w hw)
  rw [flatMap_bytes, events_frames hvalid, blocks_frames hvalid]
  constructor
  · rw [List.map_map, List.map_map]
    rfl
  · rw [List.map_map, forall₂_map_left_iff, forall₂_same]
    intro w hw
    refine ⟨w.frame.values.map dropSpace, ?_, ?_⟩
    · simpa using (frame_valid (hc w hw)).values_ne
    · rw [List.map_map]
      rfl

/-- A payload that imitates the end of an event and a control event. -/
def forgery : Bytes := ascii "a\r\n\r\nevent: control\rdata:b\n\n: c"

theorem one_event_per_write_forgery :
    (events ([.data true forgery, .control { next := ⟨7, 0⟩, streamCursor := ascii "42" }].flatMap bytes)).map
      Event.type = [ascii "data", ascii "control"] := by
  refine (one_event_per_write [.data true forgery, .control { next := ⟨7, 0⟩, streamCursor := ascii "42" }] ?_).1
  intro w hw
  rcases mem_cons.mp hw with rfl | hw
  · exact trivial
  · rw [mem_singleton.mp hw]
    show ∀ b ∈ ascii "42", 48 ≤ b.toNat ∧ b.toNat ≤ 57
    decide +kernel

theorem events_text (payload : Bytes) : events (writeSSEData true payload) =
    [⟨ascii "data", [10].intercalate (((newlinesToLF payload).splitOn 10).map dropSpace)⟩] := by
  have h := @events_frames [(data true payload).frame] fun f hf => by
    rw [mem_singleton.mp hf]
    exact frame_valid trivial
  rw [show writeSSEData true payload = _ from frame_bytes (.data true payload)]
  rw [flatMap_singleton] at h
  exact h

theorem dropSpace_eq_self {l : Bytes} : dropSpace l = l ↔ l.head? ≠ some 32 := by
  cases l with
  | nil => simp [dropSpace]
  | cons b l =>
    rw [dropSpace, head?_cons]
    split
    · rename_i hb
      refine ⟨fun h => absurd (congrArg List.length h) (by simp), fun h => absurd (congrArg some hb) h⟩
    · rename_i hb
      simpa using hb

/-- **A text payload arrives as it is**, up to its line ends, exactly if no line of it starts with a space. -/
theorem text_faithful_iff (payload : Bytes) :
    events (writeSSEData true payload) = [⟨ascii "data", newlinesToLF payload⟩] ↔
      ∀ line ∈ (newlinesToLF payload).splitOn 10, line.head? ≠ some 32 := by
  have hlines := @intercalate_splitOn UInt8 (newlinesToLF payload) _ _ 10
  have hmap : (∀ line ∈ (newlinesToLF payload).splitOn 10, line.head? ≠ some 32) ↔
      ((newlinesToLF payload).splitOn 10).map dropSpace = (newlinesToLF payload).splitOn 10 := by
    have hid := @map_inj_left _ _ ((newlinesToLF payload).splitOn 10) dropSpace id
    rw [List.map_id] at hid
    rw [hid]
    exact forall₂_congr fun l _ => dropSpace_eq_self.symm
  rw [events_text, hmap]
  simp only [List.cons.injEq, Event.mk.injEq, and_true, true_and]
  constructor
  · -- the lines can be read off the data again
    intro h
    have hsplit := congrArg (List.splitOn 10) h
    rwa [splitOn_intercalate] at hsplit
    · intro l hl hm
      obtain ⟨l', hl', rfl⟩ := List.mem_map.mp hl
      have hmem : (10 : UInt8) ∈ l' := by
        cases l' with
        | nil => exact hm
        | cons b l' =>
          rw [dropSpace] at hm
          split at hm
          · exact mem_cons_of_mem _ hm
          · exact hm
      exact (oneLine_of_mem_splitOn hl' 10 hmem).1 rfl
    · simp
  · intro h
    rw [h, hlines]

/-- The space at the beginning of a text is lost. -/
theorem space_lost : events (writeSSEData true (ascii " x")) = [⟨ascii "data", ascii "x"⟩] ∧
    newlinesToLF (ascii " x") = ascii " x" := by decide +kernel

end Yasdb.Sse
