import Mathlib.Data.List.Basic

/-!
# Event streams

The interpretation of `text/event-stream` as bytes. Lines end in CR LF, in LF or in CR; a line is blank, a comment or a
field; a blank line ends an event. Fields named `event` and `data` are collected in two buffers, and a blank line
dispatches them.

- `lines_frame`: the lines of a frame, in front of any other output;
- `blocks_frames`, `events_frames`: **frames are read back one by one**, if no line end stands in a value.
-/

namespace EventStream

open List

/-! ## Lines -/

/-- The lines that have ended; `cr` says that the byte before was a CR, which a LF then belongs to. -/
def linesFrom (cr : Bool) (line : List UInt8) : List UInt8 → List (List UInt8)
  | [] => []
  | b :: s =>
    if b = 10 then if cr then linesFrom false line s else line :: linesFrom false [] s
    else if b = 13 then line :: linesFrom true [] s
    else linesFrom false (line ++ [b]) s

/-- One byte order mark at the beginning is ignored. -/
def stripBOM (s : List UInt8) : List UInt8 := if [0xEF, 0xBB, 0xBF].isPrefixOf s then s.drop 3 else s

def lines (s : List UInt8) : List (List UInt8) := linesFrom false [] (stripBOM s)

/-- A line that is not blank. -/
inductive Line where
  | comment
  | field (name value : List UInt8)
deriving DecidableEq

/-- One space directly after the colon does not belong to the value. -/
def dropSpace : List UInt8 → List UInt8
  | [] => []
  | b :: v => if b = 32 then v else b :: v

/-- A line that starts with a colon is a comment; a line without a colon is a field with an empty value. -/
def parseLine (line : List UInt8) : Line :=
  if line.head? = some 58 then .comment
  else .field (line.takeWhile (· ≠ 58)) (dropSpace (line.dropWhile (· ≠ 58)).tail)

/-! ## Events -/

/-- The lines up to each blank line; those after the last one are dropped. -/
def blocksFrom (block : List Line) : List (List UInt8) → List (List Line)
  | [] => []
  | line :: ls => if line = [] then block :: blocksFrom [] ls else blocksFrom (block ++ [parseLine line]) ls

def blocks (s : List UInt8) : List (List Line) := blocksFrom [] (lines s)

structure Event where
  type : List UInt8
  data : List UInt8
deriving DecidableEq

/-- The two buffers. -/
structure Buffers where
  data : List UInt8 := []
  type : List UInt8 := []

/-- The field names `event` and `data`, and the default type. -/
def eventName : List UInt8 := [101, 118, 101, 110, 116]
def dataName : List UInt8 := [100, 97, 116, 97]
def messageType : List UInt8 := [109, 101, 115, 115, 97, 103, 101]

/-- What a field does to the buffers. -/
def Buffers.process (bufs : Buffers) : Line → Buffers
  | .comment => bufs
  | .field name value =>
    if name = eventName then { bufs with type := value }
    else if name = dataName then { bufs with data := bufs.data ++ value ++ [10] }
    else bufs

/-- A blank line dispatches the buffers, unless there is no data; the last LF of the data is removed. -/
def eventsFrom (bufs : Buffers) : List (List UInt8) → List Event
  | [] => []
  | line :: ls =>
    if line = [] then
      if bufs.data = [] then eventsFrom {} ls
      else ⟨if bufs.type = [] then messageType else bufs.type, bufs.data.dropLast⟩ :: eventsFrom {} ls
    else eventsFrom (bufs.process (parseLine line)) ls

def events (s : List UInt8) : List Event := eventsFrom {} (lines s)

/-! ## Reading lines -/

/-- No byte of the text ends a line. -/
def OneLine (s : List UInt8) : Prop := ∀ b ∈ s, b ≠ 10 ∧ b ≠ 13

theorem OneLine.append {s s' : List UInt8} (h : OneLine s) (h' : OneLine s') : OneLine (s ++ s') := by
  intro b hb
  rcases mem_append.mp hb with hb | hb
  · exact h b hb
  · exact h' b hb

theorem linesFrom_append : ∀ {l : List UInt8} (line s : List UInt8), OneLine l →
    linesFrom false line (l ++ 10 :: s) = (line ++ l) :: linesFrom false [] s
  | [], line, s, _ => by simp [linesFrom]
  | b :: l, line, s, h => by
    obtain ⟨h10, h13⟩ := h b mem_cons_self
    have ih := linesFrom_append (line ++ [b]) s fun b' hb' => h b' (mem_cons_of_mem _ hb')
    rw [cons_append, linesFrom, if_neg h10, if_neg h13, ih, append_assoc, singleton_append]

theorem parseLine_field {name : List UInt8} (hne : name ≠ []) (hname : ∀ b ∈ name, b ≠ 58) (value : List UInt8) :
    parseLine (name ++ 58 :: value) = .field name (dropSpace value) := by
  have hhead : (name ++ 58 :: value).head? ≠ some 58 := by
    cases name with
    | nil => exact absurd rfl hne
    | cons b name =>
      intro h
      exact hname b mem_cons_self (Option.some.inj h)
  have htake : (name ++ 58 :: value).takeWhile (· ≠ 58) = name := by
    rw [takeWhile_append_of_pos (by simpa using hname)]
    simp
  have hdrop : (name ++ 58 :: value).dropWhile (· ≠ 58) = 58 :: value := by
    rw [dropWhile_append_of_pos (by simpa using hname)]
    simp
  rw [parseLine, if_neg hhead, htake, hdrop, tail_cons]

/-! ## Frames -/

/-- An event as a server writes it: the type after a space, and the values directly after the colon. -/
structure Frame where
  type : List UInt8
  values : List (List UInt8)

/-- No line end stands in the type or in a value, and there is a value. -/
structure Frame.Valid (f : Frame) : Prop where
  type : OneLine f.type
  values : ∀ v ∈ f.values, OneLine v
  type_ne : f.type ≠ []
  values_ne : f.values ≠ []

/-- The lines of a frame without the blank one at its end. -/
def Frame.text (f : Frame) : List (List UInt8) :=
  (eventName ++ 58 :: 32 :: f.type) :: f.values.map fun v => dataName ++ 58 :: v

def Frame.bytes (f : Frame) : List UInt8 := f.text.flatMap (· ++ [10]) ++ [10]

/-- The event that a reader sees. -/
def Frame.event (f : Frame) : Event := ⟨f.type, [10].intercalate (f.values.map dropSpace)⟩

/-- The fields that a reader sees. -/
def Frame.fields (f : Frame) : List Line :=
  .field eventName f.type :: f.values.map fun v => .field dataName (dropSpace v)

theorem linesFrom_flatMap : ∀ {ls : List (List UInt8)} (s : List UInt8), (∀ l ∈ ls, OneLine l) →
    linesFrom false [] (ls.flatMap (· ++ [10]) ++ s) = ls ++ linesFrom false [] s
  | [], _, _ => rfl
  | l :: ls, s, h => by
    have ih := linesFrom_flatMap s fun l' hl' => h l' (mem_cons_of_mem _ hl')
    rw [flatMap_cons, append_assoc, append_assoc, singleton_append,
      linesFrom_append _ _ (h l mem_cons_self), nil_append, ih, cons_append]

theorem Frame.Valid.oneLine {f : Frame} (h : f.Valid) : ∀ l ∈ f.text, OneLine l := by
  intro l hl
  rcases mem_cons.mp hl with rfl | hl
  · exact OneLine.append (s := eventName ++ [58, 32]) (by unfold OneLine; decide +kernel) h.type
  · obtain ⟨v, hv, rfl⟩ := List.mem_map.mp hl
    exact OneLine.append (s := dataName ++ [58]) (by unfold OneLine; decide +kernel) (h.values v hv)

/-- **The lines of a frame** come first, whatever follows. -/
theorem lines_frame {f : Frame} (h : f.Valid) (s : List UInt8) :
    linesFrom false [] (f.bytes ++ s) = f.text ++ [] :: linesFrom false [] s := by
  rw [Frame.bytes, append_assoc, linesFrom_flatMap _ h.oneLine]
  rfl

theorem parse_text (f : Frame) : f.text.map parseLine = f.fields := by
  have hevent := @parseLine_field eventName (by decide +kernel) (by decide +kernel) (32 :: f.type)
  have hdata := @parseLine_field dataName (by decide +kernel) (by decide +kernel)
  rw [Frame.text, Frame.fields, map_cons, List.map_map, hevent]
  exact congrArg _ (map_congr_left fun v _ => hdata v)

theorem ne_nil_of_mem_text {f : Frame} {l : List UInt8} (hl : l ∈ f.text) : l ≠ [] := by
  rcases mem_cons.mp hl with rfl | hl
  · simp [eventName]
  · obtain ⟨v, -, rfl⟩ := List.mem_map.mp hl
    simp [dataName]

theorem blocksFrom_append : ∀ {ls : List (List UInt8)} (block : List Line) (rest : List (List UInt8)),
    (∀ l ∈ ls, l ≠ []) → blocksFrom block (ls ++ [] :: rest) = (block ++ ls.map parseLine) :: blocksFrom [] rest
  | [], block, rest, _ => by simp [blocksFrom]
  | l :: ls, block, rest, h => by
    have ih := blocksFrom_append (block ++ [parseLine l]) rest fun l' hl' => h l' (mem_cons_of_mem _ hl')
    rw [cons_append, blocksFrom, if_neg (h l mem_cons_self), ih, map_cons, append_assoc, singleton_append]

theorem eventsFrom_append : ∀ {ls : List (List UInt8)} (bufs : Buffers) (rest : List (List UInt8)), (∀ l ∈ ls, l ≠ []) →
    eventsFrom bufs (ls ++ rest) = eventsFrom ((ls.map parseLine).foldl Buffers.process bufs) rest
  | [], _, _, _ => rfl
  | l :: ls, bufs, rest, h => by
    have ih := eventsFrom_append (bufs.process (parseLine l)) rest fun l' hl' => h l' (mem_cons_of_mem _ hl')
    rw [cons_append, eventsFrom, if_neg (h l mem_cons_self), ih, map_cons, foldl_cons]

theorem foldl_data : ∀ (vs : List (List UInt8)) (bufs : Buffers),
    (vs.map fun v => Line.field dataName (dropSpace v)).foldl Buffers.process bufs =
      { bufs with data := bufs.data ++ vs.flatMap fun v => dropSpace v ++ [10] }
  | [], bufs => by simp
  | v :: vs, bufs => by
    have hne : dataName ≠ eventName := by decide
    rw [map_cons, foldl_cons, foldl_data vs, Buffers.process, if_neg hne, if_pos rfl, flatMap_cons]
    simp

theorem dropLast_flatMap_lf : ∀ {vs : List (List UInt8)}, vs ≠ [] →
    (vs.flatMap (· ++ [10])).dropLast = ([10] : List UInt8).intercalate vs
  | [], h => absurd rfl h
  | [v], _ => by simp
  | v :: w :: vs, _ => by
    have ih := @dropLast_flatMap_lf (w :: vs) (by simp)
    have hne : (w :: vs).flatMap (· ++ [(10 : UInt8)]) ≠ [] := by simp
    rw [flatMap_cons, dropLast_append_of_ne_nil hne, ih, intercalate_cons_cons]

/-- A frame in front of other output is one event. -/
theorem events_frame {f : Frame} (h : f.Valid) (rest : List (List UInt8)) :
    eventsFrom {} (f.text ++ [] :: rest) = f.event :: eventsFrom {} rest := by
  have hbufs : (f.text.map parseLine).foldl Buffers.process {} =
      ⟨f.values.flatMap fun v => dropSpace v ++ [10], f.type⟩ := by
    rw [parse_text, Frame.fields, foldl_cons, foldl_data]
    rfl
  have hflat : f.values.flatMap (fun v => dropSpace v ++ [10]) = (f.values.map dropSpace).flatMap (· ++ [10]) := by
    rw [flatMap_map]
  have hne : (f.values.map dropSpace).flatMap (· ++ [(10 : UInt8)]) ≠ [] := by
    obtain ⟨v, vs, hv⟩ := exists_cons_of_ne_nil h.values_ne
    simp [hv]
  rw [eventsFrom_append _ _ fun l hl => ne_nil_of_mem_text hl, hbufs, hflat, eventsFrom, if_pos rfl, if_neg hne,
    if_neg h.type_ne, dropLast_flatMap_lf (by simpa using h.values_ne)]
  rfl

/-! ## Whole outputs -/

theorem lines_frames : ∀ {fs : List Frame}, (∀ f ∈ fs, f.Valid) →
    linesFrom false [] (fs.flatMap Frame.bytes) = fs.flatMap fun f => f.text ++ [[]]
  | [], _ => rfl
  | f :: fs, h => by
    have ih := lines_frames fun f' hf' => h f' (mem_cons_of_mem _ hf')
    rw [flatMap_cons, lines_frame (h f mem_cons_self), ih, flatMap_cons, append_assoc, singleton_append]

theorem stripBOM_frames (fs : List Frame) : stripBOM (fs.flatMap Frame.bytes) = fs.flatMap Frame.bytes := by
  cases fs with
  | nil => rfl
  | cons f fs => rfl

/-- **Frames are read back one by one**, as blocks of fields. -/
theorem blocks_frames {fs : List Frame} (h : ∀ f ∈ fs, f.Valid) :
    blocks (fs.flatMap Frame.bytes) = fs.map Frame.fields := by
  rw [blocks, lines, stripBOM_frames, lines_frames h]
  clear h
  induction fs with
  | nil => rfl
  | cons f fs ih =>
    rw [flatMap_cons, append_assoc, singleton_append,
      blocksFrom_append _ _ fun l hl => ne_nil_of_mem_text hl, ih, nil_append, parse_text, map_cons]

/-- **Frames are read back one by one**, as events. -/
theorem events_frames {fs : List Frame} (h : ∀ f ∈ fs, f.Valid) :
    events (fs.flatMap Frame.bytes) = fs.map Frame.event := by
  rw [events, lines, stripBOM_frames, lines_frames h]
  induction fs with
  | nil => rfl
  | cons f fs ih =>
    rw [flatMap_cons, append_assoc, singleton_append, events_frame (h f mem_cons_self),
      ih fun f' hf' => h f' (mem_cons_of_mem _ hf'), map_cons]

end EventStream
