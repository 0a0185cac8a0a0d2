import Mathlib.Data.List.Basic

/-!
# JSON texts

A lexer and a parser of JSON texts, each a machine that reads its input once. Values keep the texts of their literals,
numbers and strings, so that a value determines its text up to insignificant white space.

- `parseTokens_eq_some`: the parser accepts the tokens of a value and nothing else;
- `good_of_tokens`, `tokens_flatMap_text`: the tokens of a text are read back from their own texts;
- `parse_render`: **a value is read back from its compact text**;
- `parse_array`: **texts with commas between them, in brackets, are the text of an array**.
-/

namespace Json

open List Option

/-! ## Values and tokens -/

inductive Value where
  /-- a literal or a number, as it is written -/
  | atom (s : List UInt8)
  /-- a string as it is written, without its quotes -/
  | str (s : List UInt8)
  | arr (vs : List Value)
  | obj (ms : List (List UInt8 × Value))

inductive Token where
  | lbracket
  | rbracket
  | lbrace
  | rbrace
  | comma
  | colon
  | atom (s : List UInt8)
  | str (s : List UInt8)
deriving DecidableEq, Repr

/-- The token of a structural byte. -/
def punct (c : UInt8) : Option Token :=
  if c = 91 then some .lbracket
  else if c = 93 then some .rbracket
  else if c = 123 then some .lbrace
  else if c = 125 then some .rbrace
  else if c = 44 then some .comma
  else if c = 58 then some .colon
  else none

def Token.text : Token → List UInt8
  | .lbracket => [91]
  | .rbracket => [93]
  | .lbrace => [123]
  | .rbrace => [125]
  | .comma => [44]
  | .colon => [58]
  | .atom s => s
  | .str s => 34 :: s ++ [34]

mutual

/-- The tokens of a value. -/
def Value.tokens : Value → List Token
  | .atom s => [.atom s]
  | .str s => [.str s]
  | .arr vs => .lbracket :: (elems true vs ++ [.rbracket])
  | .obj ms => .lbrace :: (members true ms ++ [.rbrace])

/-- The elements of an array, with a comma before each but the first one. -/
def elems (first : Bool) : List Value → List Token
  | [] => []
  | v :: vs => (if first then [] else [.comma]) ++ (v.tokens ++ elems false vs)

def members (first : Bool) : List (List UInt8 × Value) → List Token
  | [] => []
  | (k, v) :: ms => (if first then [] else [.comma]) ++ (.str k :: .colon :: (v.tokens ++ members false ms))

end

/-- The text of a value without white space. -/
def Value.render (v : Value) : List UInt8 := v.tokens.flatMap Token.text

mutual

/-- How deep arrays and objects are nested. -/
def Value.depth : Value → Nat
  | .atom _ => 0
  | .str _ => 0
  | .arr vs => depthElems vs + 1
  | .obj ms => depthMembers ms + 1

def depthElems : List Value → Nat
  | [] => 0
  | v :: vs => max v.depth (depthElems vs)

def depthMembers : List (List UInt8 × Value) → Nat
  | [] => 0
  | (_, v) :: ms => max v.depth (depthMembers ms)

end

/-! ## The lexer -/

def isSpace (c : UInt8) : Bool := c = 32 || c = 9 || c = 10 || c = 13

def isDigit (c : UInt8) : Bool := 48 ≤ c && c ≤ 57

def isHex (c : UInt8) : Bool := isDigit c || (65 ≤ c && c ≤ 70) || (97 ≤ c && c ≤ 102)

/-- How far the text of a number has been read. -/
inductive Num where
  | start
  | minus
  | zero
  | int
  | dot
  | frac
  | exp
  | sign
  | expDigits

def Num.step : Num → UInt8 → Option Num
  | .start, c => if c = 45 then some .minus else if c = 48 then some .zero else if isDigit c then some .int else none
  | .minus, c => if c = 48 then some .zero else if isDigit c then some .int else none
  | .zero, c => if c = 46 then some .dot else if c = 101 ∨ c = 69 then some .exp else none
  | .int, c =>
    if isDigit c then some .int
    else if c = 46 then some .dot
    else if c = 101 ∨ c = 69 then some .exp
    else none
  | .dot, c => if isDigit c then some .frac else none
  | .frac, c => if isDigit c then some .frac else if c = 101 ∨ c = 69 then some .exp else none
  | .exp, c => if c = 43 ∨ c = 45 then some .sign else if isDigit c then some .expDigits else none
  | .sign, c => if isDigit c then some .expDigits else none
  | .expDigits, c => if isDigit c then some .expDigits else none

def Num.complete : Num → Bool
  | .zero | .int | .frac | .expDigits => true
  | _ => false

def isNumber (s : List UInt8) : Bool := (s.foldlM Num.step .start).any Num.complete

/-- `null`, `true`, `false` or a number. -/
def isAtom (s : List UInt8) : Bool :=
  s = [110, 117, 108, 108] || s = [116, 114, 117, 101] || s = [102, 97, 108, 115, 101] || isNumber s

/-- The lexer between two bytes. -/
inductive Lex where
  | idle
  | atom (s : List UInt8)
  | str (s : List UInt8)
  /-- behind a backslash -/
  | esc (s : List UInt8)
  /-- in a four-digit escape, with `more` digits to come after the next one -/
  | hex (more : Nat) (s : List UInt8)
deriving DecidableEq, Repr

/-- Read a byte: the tokens that end with it, and the new state. -/
def Lex.step : Lex → UInt8 → Option (List Token × Lex)
  | .idle, c =>
    if isSpace c then some ([], .idle)
    else
      match punct c with
      | some t => some ([t], .idle)
      | none => if c = 34 then some ([], .str []) else some ([], .atom [c])
  | .atom s, c =>
    if isSpace c then if isAtom s then some ([.atom s], .idle) else none
    else
      match punct c with
      | some t => if isAtom s then some ([.atom s, t], .idle) else none
      | none => if c = 34 then none else some ([], .atom (s ++ [c]))
  | .str s, c =>
    if c = 34 then some ([.str s], .idle)
    else if c = 92 then some ([], .esc s)
    else if c < 32 then none
    else some ([], .str (s ++ [c]))
  | .esc s, c =>
    if c ∈ ([34, 92, 47, 98, 102, 110, 114, 116] : List UInt8) then some ([], .str (s ++ [92, c]))
    else if c = 117 then some ([], .hex 3 (s ++ [92, 117]))
    else none
  | .hex more s, c =>
    if isHex c then
      match more with
      | 0 => some ([], .str (s ++ [c]))
      | more + 1 => some ([], .hex more (s ++ [c]))
    else none

def lex : Lex → List UInt8 → Option (List Token × Lex)
  | q, [] => some ([], q)
  | q, c :: b =>
    match q.step c with
    | none => none
    | some (ts, q) => (lex q b).map fun out => (ts ++ out.1, out.2)

/-- What is still to be emitted at the end of the input. -/
def Lex.flush : Lex → Option (List Token)
  | .idle => some []
  | .atom s => if isAtom s then some [.atom s] else none
  | _ => none

/-- The tokens of a text. -/
def tokens (b : List UInt8) : Option (List Token) :=
  match lex .idle b with
  | none => none
  | some (ts, q) => q.flush.map (ts ++ ·)

/-! ## The parser -/

/-- An array or an object that a value is being read for. -/
inductive Frame where
  | arr (done : List Value)
  | obj (done : List (List UInt8 × Value)) (key : List UInt8)

/-- What has just been read, or must come next. -/
inductive Mode where
  /-- a value -/
  | value
  /-- the first element of an array, or its end -/
  | first
  /-- a key -/
  | key (done : List (List UInt8 × Value))
  /-- the first key of an object, or its end -/
  | firstKey
  | colon (done : List (List UInt8 × Value)) (key : List UInt8)
  | done (v : Value)

structure State where
  stack : List Frame
  mode : Mode

/-- The first token of a value. -/
def begin (st : List Frame) : Token → Option State
  | .atom s => some ⟨st, .done (.atom s)⟩
  | .str s => some ⟨st, .done (.str s)⟩
  | .lbracket => some ⟨st, .first⟩
  | .lbrace => some ⟨st, .firstKey⟩
  | _ => none

def State.step : State → Token → Option State
  | ⟨st, .value⟩, t => begin st t
  | ⟨st, .first⟩, .rbracket => some ⟨st, .done (.arr [])⟩
  | ⟨st, .first⟩, t => begin (.arr [] :: st) t
  | ⟨st, .firstKey⟩, .rbrace => some ⟨st, .done (.obj [])⟩
  | ⟨st, .firstKey⟩, .str k => some ⟨st, .colon [] k⟩
  | ⟨st, .key ms⟩, .str k => some ⟨st, .colon ms k⟩
  | ⟨st, .colon ms k⟩, .colon => some ⟨.obj ms k :: st, .value⟩
  | ⟨.arr vs :: st, .done v⟩, .comma => some ⟨.arr (vs ++ [v]) :: st, .value⟩
  | ⟨.arr vs :: st, .done v⟩, .rbracket => some ⟨st, .done (.arr (vs ++ [v]))⟩
  | ⟨.obj ms k :: st, .done v⟩, .comma => some ⟨st, .key (ms ++ [(k, v)])⟩
  | ⟨.obj ms k :: st, .done v⟩, .rbrace => some ⟨st, .done (.obj (ms ++ [(k, v)]))⟩
  | _, _ => none

def parseTokens (ts : List Token) : Option Value :=
  match ts.foldlM State.step ⟨[], .value⟩ with
  | some ⟨[], .done v⟩ => some v
  | _ => none

/-- The value of a text. -/
def parse (b : List UInt8) : Option Value := (tokens b).bind parseTokens

/-! ## The parser accepts the tokens of values -/

theorem tokens_eq_cons : ∀ v : Value, ∃ t ts, v.tokens = t :: ts ∧ t ≠ .rbracket
  | .atom s => ⟨.atom s, [], rfl, nofun⟩
  | .str s => ⟨.str s, [], rfl, nofun⟩
  | .arr _ => ⟨.lbracket, _, rfl, nofun⟩
  | .obj _ => ⟨.lbrace, _, rfl, nofun⟩

variable {t : Token} {q : State} {q' : Lex} {ts : List Token} {v : Value} {c : UInt8} {b : List UInt8}
  {vs : List Value}

theorem step_first (ht : t ≠ .rbracket) (st : List Frame) :
    State.step ⟨st, .first⟩ t = State.step ⟨.arr [] :: st, .value⟩ t := by
  cases t <;> first | rfl | exact absurd rfl ht

theorem run_first (v : Value) (st : List Frame) (rest : List Token) :
    (v.tokens ++ rest).foldlM State.step ⟨st, .first⟩ =
      (v.tokens ++ rest).foldlM State.step ⟨.arr [] :: st, .value⟩ := by
  obtain ⟨t, ts, hv, ht⟩ := tokens_eq_cons v
  rw [hv, cons_append, foldlM_cons, foldlM_cons, step_first ht]

mutual

theorem run_tokens : ∀ (v : Value) (st : List Frame) (rest : List Token),
    (v.tokens ++ rest).foldlM State.step ⟨st, .value⟩ = rest.foldlM State.step ⟨st, .done v⟩
  | .atom s, st, rest => by
    rw [Value.tokens]
    rfl
  | .str s, st, rest => by
    rw [Value.tokens]
    rfl
  | .arr [], st, rest => by
    rw [Value.tokens, elems]
    rfl
  | .arr (v :: vs), st, rest => by
    have ih := run_elems vs v [] st rest
    rw [nil_append] at ih
    rw [Value.tokens, elems]
    simp only [if_true, nil_append, append_assoc, cons_append]
    rw [← ih, ← run_tokens v, ← run_first]
    rfl
  | .obj [], st, rest => by
    rw [Value.tokens, members]
    rfl
  | .obj ((k, v) :: ms), st, rest => by
    have ih := run_members ms k v [] st rest
    rw [nil_append] at ih
    rw [Value.tokens, members]
    simp only [if_true, nil_append, append_assoc, cons_append]
    rw [← ih, ← run_tokens v]
    rfl

theorem run_elems : ∀ (vs : List Value) (v : Value) (done : List Value) (st : List Frame) (rest : List Token),
    (elems false vs ++ .rbracket :: rest).foldlM State.step ⟨.arr done :: st, .done v⟩ =
      rest.foldlM State.step ⟨st, .done (.arr (done ++ v :: vs))⟩
  | [], v, done, st, rest => by
    rw [elems]
    rfl
  | w :: vs, v, done, st, rest => by
    have ih := run_elems vs w (done ++ [v]) st rest
    rw [append_assoc, singleton_append] at ih
    rw [elems]
    simp only [Bool.false_eq_true, if_false, append_assoc, cons_append]
    rw [← ih, ← run_tokens w]
    rfl

theorem run_members : ∀ (ms : List (List UInt8 × Value)) (k : List UInt8) (v : Value)
    (done : List (List UInt8 × Value)) (st : List Frame) (rest : List Token),
    (members false ms ++ .rbrace :: rest).foldlM State.step ⟨.obj done k :: st, .done v⟩ =
      rest.foldlM State.step ⟨st, .done (.obj (done ++ (k, v) :: ms))⟩
  | [], k, v, done, st, rest => by
    rw [members]
    rfl
  | (k', w) :: ms, k, v, done, st, rest => by
    have ih := run_members ms k' w (done ++ [(k, v)]) st rest
    rw [append_assoc, singleton_append] at ih
    rw [members]
    simp only [Bool.false_eq_true, if_false, append_assoc, cons_append]
    rw [← ih, ← run_tokens w]
    rfl

end

theorem parseTokens_tokens (v : Value) : parseTokens v.tokens = some v := by
  have h := run_tokens v [] []
  rw [append_nil] at h
  rw [parseTokens, h]
  rfl

/-! ## The parser accepts nothing else -/

/-- A comma, if something comes before. -/
def lead {α : Type} : List α → List Token
  | [] => []
  | _ :: _ => [.comma]

theorem elems_append (first : Bool) (vs : List Value) (v : Value) :
    elems first (vs ++ [v]) = elems first vs ++ (if first then lead vs else [.comma]) ++ v.tokens := by
  induction vs generalizing first with
  | nil => cases first <;> simp [elems, lead]
  | cons w vs ih => cases first <;> simp [elems, ih, lead]

theorem members_append (first : Bool) (ms : List (List UInt8 × Value)) (k : List UInt8) (v : Value) :
    members first (ms ++ [(k, v)]) =
      members first ms ++ (if first then lead ms else [.comma]) ++ .str k :: .colon :: v.tokens := by
  induction ms generalizing first with
  | nil => cases first <;> simp [members, lead]
  | cons w ms ih => cases first <;> simp [members, ih, lead]

/-- The tokens that the frames have taken. -/
def taken : List Frame → List Token
  | [] => []
  | .arr vs :: st => taken st ++ .lbracket :: (elems true vs ++ lead vs)
  | .obj ms k :: st => taken st ++ .lbrace :: (members true ms ++ lead ms ++ [.str k, .colon])

/-- The tokens that the parser has taken. -/
def State.taken : State → List Token
  | ⟨st, .value⟩ => Json.taken st
  | ⟨st, .first⟩ => Json.taken st ++ [.lbracket]
  | ⟨st, .key ms⟩ => Json.taken st ++ .lbrace :: (members true ms ++ lead ms)
  | ⟨st, .firstKey⟩ => Json.taken st ++ [.lbrace]
  | ⟨st, .colon ms k⟩ => Json.taken st ++ .lbrace :: (members true ms ++ lead ms ++ [.str k])
  | ⟨st, .done v⟩ => Json.taken st ++ v.tokens

theorem lead_append {α : Type} (xs : List α) (x : α) : lead (xs ++ [x]) = [.comma] := by
  cases xs <;> rfl

theorem taken_begin {st : List Frame} (h : begin st t = some q) : q.taken = taken st ++ [t] := by
  cases t <;> simp only [begin, some.injEq, reduceCtorEq] at h
  all_goals subst h; rfl

theorem taken_step {q' : State} (h : q.step t = some q') : q'.taken = q.taken ++ [t] := by
  obtain ⟨st, mode⟩ := q
  cases mode with
  | value => exact taken_begin h
  | first =>
    by_cases ht : t = .rbracket
    · subst ht
      cases h
      simp [State.taken, Value.tokens, elems]
    · rw [step_first ht] at h
      rw [taken_begin h]
      simp [taken, elems, lead, State.taken]
  | key ms =>
    cases t <;> simp only [State.step, some.injEq, reduceCtorEq] at h
    subst h
    simp [State.taken]
  | firstKey =>
    cases t <;> simp only [State.step, some.injEq, reduceCtorEq] at h
    all_goals subst h; simp [State.taken, Value.tokens, members, lead]
  | colon ms k =>
    cases t <;> simp only [State.step, some.injEq, reduceCtorEq] at h
    subst h
    simp [State.taken, taken]
  | done v =>
    cases st with
    | nil => cases t <;> cases h
    | cons frame st =>
      cases frame <;> cases t <;> simp only [State.step, some.injEq, reduceCtorEq] at h
      all_goals
        subst h
        simp [State.taken, taken, Value.tokens, elems_append, members_append, lead_append]

theorem taken_run : ∀ (ts : List Token) {q q' : State}, ts.foldlM State.step q = some q' → q'.taken = q.taken ++ ts
  | [], q, q', h => by
    cases h
    rw [append_nil]
  | t :: ts, q, q', h => by
    rw [foldlM_cons] at h
    obtain ⟨q₁, hs, h⟩ := bind_eq_some_iff.mp h
    rw [taken_run ts h, taken_step hs, append_assoc, singleton_append]

/-- **The parser accepts the tokens of a value, and nothing else.** -/
theorem parseTokens_eq_some : parseTokens ts = some v ↔ ts = v.tokens := by
  constructor
  · intro h
    unfold parseTokens at h
    split at h
    · rename_i w hrun
      cases h
      simpa [State.taken, taken] using (taken_run ts hrun).symm
    · cases h
  · rintro rfl
    exact parseTokens_tokens v

/-! ## Lexing in parts -/

theorem lex_append : ∀ (a : List UInt8) (q : Lex) (b : List UInt8),
    lex q (a ++ b) = (lex q a).bind fun out => (lex out.2 b).map fun out' => (out.1 ++ out'.1, out'.2)
  | [], q, b => by simp [lex]
  | c :: a, q, b => by
    rw [cons_append, lex, lex]
    cases q.step c with
    | none => rfl
    | some out =>
      simp only [lex_append a]
      cases lex out.2 a with
      | none => rfl
      | some out' => cases h : lex out'.2 b <;> simp [h]

theorem punct_text (h : punct c = some t) : t.text = [c] ∧ isSpace c = false := by
  unfold punct at h
  split_ifs at h
  all_goals cases h; subst c; exact ⟨rfl, rfl⟩

theorem step_punct {q : Lex} (hc : punct c = some t) (hq : q.flush = some ts) : q.step c = some (ts ++ [t], .idle) := by
  have hs := (punct_text hc).2
  cases q with
  | idle =>
    cases hq
    simp [Lex.step, hs, hc]
  | atom s =>
    simp only [Lex.flush] at hq
    split at hq
    · rename_i ha
      cases hq
      simp [Lex.step, hs, hc, ha]
    · cases hq
  | _ => cases hq

theorem tokens_eq_some :
    tokens b = some ts ↔ ∃ us q vs, lex .idle b = some (us, q) ∧ q.flush = some vs ∧ ts = us ++ vs := by
  unfold tokens
  constructor
  · intro h
    split at h
    · cases h
    · rename_i us q hl
      obtain ⟨vs, hq, rfl⟩ := map_eq_some_iff.mp h
      exact ⟨us, q, vs, hl, hq, rfl⟩
  · rintro ⟨us, q, vs, hl, hq, rfl⟩
    rw [hl]
    simp [hq]

/-- **A structural byte separates texts.** -/
theorem tokens_punct {a : List UInt8} (ha : tokens a = some ts) (hc : punct c = some t) :
    tokens (a ++ c :: b) = (tokens b).map fun us => ts ++ t :: us := by
  obtain ⟨us, q, vs, hl, hq, rfl⟩ := tokens_eq_some.mp ha
  unfold tokens
  rw [lex_append, hl, bind_some, lex, step_punct hc hq]
  dsimp only
  cases lex .idle b with
  | none => rfl
  | some out => cases h : out.2.flush <;> simp [h]

theorem tokens_punct_cons (hc : punct c = some t) : tokens (c :: b) = (tokens b).map (t :: ·) := by
  have h := tokens_punct (b := b) (show tokens [] = some [] from rfl) hc
  rwa [nil_append] at h

/-! ## Tokens are read back -/

/-- A token that is read back from its text. -/
def Token.Good (t : Token) : Prop := tokens t.text = some [t]

/-- What has been read of the token at hand. -/
def Lex.pending : Lex → List UInt8
  | .idle => []
  | .atom s => s
  | .str s => 34 :: s
  | .esc s => 34 :: s ++ [92]
  | .hex _ s => 34 :: s

def Lex.Reads (q : Lex) : Prop := lex .idle q.pending = some ([], q)

theorem Lex.Reads.next {q : Lex} (h : q.Reads) (hs : q.step c = some ([], q')) (hp : q'.pending = q.pending ++ [c]) :
    q'.Reads := by
  unfold Reads at h ⊢
  rw [hp, lex_append, h, bind_some, lex, hs]
  rfl

theorem good_punct (hc : punct c = some t) : t.Good := by
  rw [Token.Good, (punct_text hc).1, tokens_punct_cons hc]
  rfl

theorem Lex.Reads.good_atom {s : List UInt8} (h : (Lex.atom s).Reads) (ha : isAtom s = true) : (Token.atom s).Good :=
  tokens_eq_some.mpr ⟨[], .atom s, [.atom s], h, if_pos ha, rfl⟩

theorem Lex.Reads.good_str {s : List UInt8} (h : (Lex.str s).Reads) : (Token.str s).Good := by
  refine tokens_eq_some.mpr ⟨[.str s], .idle, [], ?_, rfl, rfl⟩
  show lex .idle ((34 :: s) ++ [34]) = _
  rw [lex_append, show lex .idle (34 :: s) = _ from h]
  rfl

theorem Lex.reads_idle : Lex.idle.Reads := rfl

/-- **One byte.** The tokens that end with it are read back, and so is what has been read of the next one. -/
theorem Lex.Reads.step {q : Lex} (h : q.Reads) (hs : q.step c = some (ts, q')) : q'.Reads ∧ ∀ t ∈ ts, t.Good := by
  cases q with
  | idle =>
    have hs' := hs
    simp only [Lex.step] at hs
    split at hs
    · cases hs
      exact ⟨reads_idle, nofun⟩
    · split at hs
      · rename_i t ht
        cases hs
        exact ⟨reads_idle, fun t' h' => mem_singleton.mp h' ▸ good_punct ht⟩
      · split at hs
        · rename_i hq
          cases hs
          exact ⟨h.next hs' (by rw [hq]; rfl), nofun⟩
        · cases hs
          exact ⟨h.next hs' rfl, nofun⟩
  | atom s =>
    have hs' := hs
    simp only [Lex.step] at hs
    split at hs
    · split at hs
      · rename_i ha
        cases hs
        exact ⟨reads_idle, fun t' h' => mem_singleton.mp h' ▸ h.good_atom ha⟩
      · cases hs
    · split at hs
      · rename_i t ht
        split at hs
        · rename_i ha
          cases hs
          refine ⟨reads_idle, fun t' h' => ?_⟩
          rcases mem_cons.mp h' with rfl | h'
          · exact h.good_atom ha
          · exact mem_singleton.mp h' ▸ good_punct ht
        · cases hs
      · split at hs
        · cases hs
        · cases hs
          exact ⟨h.next hs' rfl, nofun⟩
  | str s =>
    have hs' := hs
    simp only [Lex.step] at hs
    split at hs
    · cases hs
      exact ⟨reads_idle, fun t' h' => mem_singleton.mp h' ▸ h.good_str⟩
    · split at hs
      · rename_i hq
        cases hs
        exact ⟨h.next hs' (by rw [hq]; rfl), nofun⟩
      · split at hs
        · cases hs
        · cases hs
          exact ⟨h.next hs' rfl, nofun⟩
  | esc s =>
    have hs' := hs
    simp only [Lex.step] at hs
    split at hs
    · cases hs
      exact ⟨h.next hs' (by simp [pending]), nofun⟩
    · split at hs
      · rename_i hq
        cases hs
        exact ⟨h.next hs' (by simp [pending, hq]), nofun⟩
      · cases hs
  | hex more s =>
    have hs' := hs
    simp only [Lex.step] at hs
    split at hs
    · cases more with
      | _ =>
        cases hs
        exact ⟨h.next hs' rfl, nofun⟩
    · cases hs

theorem Lex.Reads.lex : ∀ (b : List UInt8) {q q' : Lex} {ts : List Token}, q.Reads → lex q b = some (ts, q') →
    q'.Reads ∧ ∀ t ∈ ts, t.Good
  | [], q, q', ts, h, hl => by
    cases hl
    exact ⟨h, nofun⟩
  | c :: b, q, q', ts, h, hl => by
    rw [Json.lex] at hl
    split at hl
    · cases hl
    · rename_i us q₁ hs
      obtain ⟨out, hb, he⟩ := map_eq_some_iff.mp hl
      cases he
      obtain ⟨h₁, hus⟩ := h.step hs
      obtain ⟨h₂, hvs⟩ := Lex.Reads.lex b h₁ hb
      exact ⟨h₂, fun t ht => (mem_append.mp ht).elim (hus t) (hvs t)⟩

/-- **The tokens of a text are read back from their own texts.** -/
theorem good_of_tokens (h : tokens b = some ts) : ∀ t ∈ ts, t.Good := by
  obtain ⟨us, q, vs, hl, hq, rfl⟩ := tokens_eq_some.mp h
  obtain ⟨hr, hus⟩ := Lex.reads_idle.lex b hl
  intro t ht
  rcases mem_append.mp ht with ht | ht
  · exact hus t ht
  · cases q with
    | atom s =>
      simp only [Lex.flush] at hq
      split at hq
      · rename_i ha
        cases hq
        exact mem_singleton.mp ht ▸ hr.good_atom ha
      · cases hq
    | idle => cases hq; cases ht
    | _ => cases hq

/-! ## Compact texts -/

/-- The structural byte of a token. -/
def Token.byte : Token → Option UInt8
  | .lbracket => some 91
  | .rbracket => some 93
  | .lbrace => some 123
  | .rbrace => some 125
  | .comma => some 44
  | .colon => some 58
  | .atom _ | .str _ => none

theorem Token.byte_spec (h : t.byte = some c) : punct c = some t ∧ t.text = [c] := by
  cases t <;> cases h <;> exact ⟨rfl, rfl⟩

/-- A literal, a number or a string is followed by a structural byte. -/
def Separate (t t' : Token) : Prop := t.byte = none → t'.byte.isSome

/-- **Texts of tokens, one after the other**, are read back. -/
theorem tokens_flatMap_text : ∀ {ts : List Token}, (∀ t ∈ ts, t.Good) → ts.IsChain Separate →
    tokens (ts.flatMap Token.text) = some ts
  | [], _, _ => rfl
  | [t], h, _ => by
    rw [flatMap_singleton]
    exact h t mem_cons_self
  | t :: t' :: ts, h, hc => by
    have ih := tokens_flatMap_text (fun u hu => h u (mem_cons_of_mem _ hu)) (isChain_cons_cons.mp hc).2
    rw [flatMap_cons]
    cases hb : t.byte with
    | some c =>
      obtain ⟨hp, ht⟩ := Token.byte_spec hb
      rw [ht, singleton_append, tokens_punct_cons hp, ih]
      rfl
    | none =>
      obtain ⟨c, hb'⟩ := isSome_iff_exists.mp ((isChain_cons_cons.mp hc).1 hb)
      obtain ⟨hp, ht'⟩ := Token.byte_spec hb'
      rw [flatMap_cons, ht', singleton_append, tokens_punct_cons hp] at ih
      obtain ⟨us, hus, he⟩ := map_eq_some_iff.mp ih
      obtain rfl : us = ts := List.cons.inj he |>.2
      rw [flatMap_cons, ht', singleton_append, tokens_punct (h t mem_cons_self) hp, hus]
      rfl

/-- After a literal, a number or a string, a value or a key is complete. -/
theorem step_scalar {q' : State} (ht : t.byte = none) (h : q.step t = some q') :
    ∃ st, (∃ v, q' = ⟨st, .done v⟩) ∨ ∃ ms k, q' = ⟨st, .colon ms k⟩ := by
  obtain ⟨st, mode⟩ := q
  have hbegin : ∀ st', begin st' t = some q' → ∃ st, (∃ v, q' = ⟨st, .done v⟩) ∨ ∃ ms k, q' = ⟨st, .colon ms k⟩ := by
    intro st' hb
    cases t with
    | atom s => cases hb; exact ⟨st', Or.inl ⟨_, rfl⟩⟩
    | str s => cases hb; exact ⟨st', Or.inl ⟨_, rfl⟩⟩
    | _ => cases ht
  cases mode with
  | value => exact hbegin st h
  | first =>
    rw [step_first (fun he => by rw [he] at ht; cases ht)] at h
    exact hbegin _ h
  | key ms =>
    cases t <;> cases h
    exact ⟨st, Or.inr ⟨_, _, rfl⟩⟩
  | firstKey =>
    cases t <;> cases h
    · cases ht
    · exact ⟨st, Or.inr ⟨_, _, rfl⟩⟩
  | colon ms k =>
    cases t <;> cases h
    cases ht
  | done v =>
    cases st with
    | nil => cases t <;> cases h
    | cons frame st => cases frame <;> cases t <;> cases h <;> cases ht

theorem separate_of_step {q₁ q₂ : State} {t' : Token} (h : q.step t = some q₁) (h' : q₁.step t' = some q₂) :
    Separate t t' := by
  intro ht
  obtain ⟨st, ⟨v, rfl⟩ | ⟨ms, k, rfl⟩⟩ := step_scalar ht h
  · cases st with
    | nil => cases t' <;> cases h'
    | cons frame st => cases frame <;> cases t' <;> first | rfl | cases h'
  · cases t' <;> first | rfl | cases h'

theorem isChain_of_run : ∀ (ts : List Token) {q q' : State}, ts.foldlM State.step q = some q' → ts.IsChain Separate
  | [], _, _, _ => .nil
  | [_], _, _, _ => .singleton _
  | t :: t' :: ts, q, q', h => by
    rw [foldlM_cons] at h
    obtain ⟨q₁, hs, h⟩ := bind_eq_some_iff.mp h
    refine isChain_cons_cons.mpr ⟨?_, isChain_of_run (t' :: ts) h⟩
    rw [foldlM_cons] at h
    obtain ⟨q₂, hs', -⟩ := bind_eq_some_iff.mp h
    exact separate_of_step hs hs'

theorem parse_render_of_good (h : ∀ t ∈ v.tokens, t.Good) : parse v.render = some v := by
  have hrun : v.tokens.foldlM State.step ⟨[], .value⟩ = some ⟨[], .done v⟩ := by
    simpa using run_tokens v [] []
  rw [parse, Value.render, tokens_flatMap_text h (isChain_of_run _ hrun), bind_some, parseTokens_tokens]

theorem parse_eq_some : parse b = some v ↔ tokens b = some v.tokens := by
  unfold parse
  rw [bind_eq_some_iff]
  constructor
  · rintro ⟨ts, ht, hp⟩
    rw [ht, parseTokens_eq_some.mp hp]
  · intro h
    exact ⟨_, h, parseTokens_tokens v⟩

/-- **A value is read back from its compact text.** -/
theorem parse_render (h : parse b = some v) : parse v.render = some v :=
  parse_render_of_good (good_of_tokens (parse_eq_some.mp h))

/-! ## Arrays -/

theorem intercalate_cons (b : List UInt8) (bs : List (List UInt8)) :
    List.intercalate [44] (b :: bs) = b ++ bs.flatMap (44 :: ·) := by
  induction bs generalizing b with
  | nil => simp
  | cons b' bs ih => rw [intercalate_cons_cons, ih, flatMap_cons, append_assoc, singleton_append]; rfl

theorem tokens_more : ∀ {bs : List (List UInt8)} {vs : List Value} {a : List UInt8} {ts : List Token},
    bs.map parse = vs.map some → tokens a = some ts →
      tokens (a ++ bs.flatMap (44 :: ·) ++ [93]) = some (ts ++ elems false vs ++ [.rbracket])
  | [], [], a, ts, _, ha => by
    simp [tokens_punct ha (show punct 93 = some .rbracket from rfl), elems, show tokens [] = some [] from rfl]
  | [], _ :: _, _, _, h, _ => by cases h
  | _ :: _, [], _, _, h, _ => by cases h
  | b :: bs, v :: vs, a, ts, h, ha => by
    obtain ⟨hb, h⟩ := List.cons.inj h
    have ih := tokens_more h (parse_eq_some.mp hb)
    rw [flatMap_cons, append_assoc, cons_append, cons_append,
      tokens_punct ha (show punct 44 = some .comma from rfl), ih]
    simp [elems]

/-- **Texts with commas between them, in brackets, are the text of an array.** -/
theorem parse_array {bs : List (List UInt8)} (h : bs.map parse = vs.map some) :
    parse (91 :: (List.intercalate [44] bs ++ [93])) = some (.arr vs) := by
  rw [parse_eq_some, tokens_punct_cons (show punct 91 = some .lbracket from rfl)]
  match bs, vs, h with
  | [], [], _ => rfl
  | [], _ :: _, h => cases h
  | _ :: _, [], h => cases h
  | b :: bs, v :: vs, h =>
    obtain ⟨hb, h⟩ := List.cons.inj h
    rw [intercalate_cons, tokens_more h (parse_eq_some.mp hb)]
    simp [Value.tokens, elems]

theorem tokens_subset_elems : ∀ {vs : List Value} {first : Bool}, v ∈ vs → v.tokens ⊆ elems first vs
  | w :: vs, first, h => by
    rw [elems]
    rcases mem_cons.mp h with rfl | h
    · exact fun t ht => mem_append_right _ (mem_append_left _ ht)
    · exact fun t ht => mem_append_right _ (mem_append_right _ (tokens_subset_elems h ht))

theorem parse_render_elem (h : parse b = some (.arr vs)) (hv : v ∈ vs) : parse v.render = some v := by
  have hgood := good_of_tokens (parse_eq_some.mp h)
  rw [Value.tokens] at hgood
  refine parse_render_of_good fun t ht => hgood t ?_
  exact mem_cons_of_mem _ (mem_append_left _ (tokens_subset_elems hv ht))

/-! ## The first byte of an array -/

/-- Inside a literal, a number or a string, that token comes first. -/
theorem step_pending {q : Lex} (hq : q ≠ .idle) (h : q.step c = some (ts, q')) :
    (∃ t us, ts = t :: us ∧ t.byte = none) ∨ (ts = [] ∧ q' ≠ .idle) := by
  cases q with
  | idle => exact absurd rfl hq
  | atom s =>
    simp only [Lex.step] at h
    split at h
    · split at h
      · cases h
        exact Or.inl ⟨_, _, rfl, rfl⟩
      · cases h
    · split at h
      · split at h
        · cases h
          exact Or.inl ⟨_, _, rfl, rfl⟩
        · cases h
      · split at h
        · cases h
        · cases h
          exact Or.inr ⟨rfl, nofun⟩
  | str s =>
    simp only [Lex.step] at h
    split_ifs at h
    · cases h
      exact Or.inl ⟨_, _, rfl, rfl⟩
    · cases h
      exact Or.inr ⟨rfl, nofun⟩
    · cases h
      exact Or.inr ⟨rfl, nofun⟩
  | esc s =>
    simp only [Lex.step] at h
    split_ifs at h
    · cases h
      exact Or.inr ⟨rfl, nofun⟩
    · cases h
      exact Or.inr ⟨rfl, nofun⟩
  | hex more s =>
    simp only [Lex.step] at h
    split at h
    · cases more <;> cases h <;> exact Or.inr ⟨rfl, nofun⟩
    · cases h

theorem lex_pending : ∀ {b : List UInt8} {q q' : Lex} {ts us : List Token}, q ≠ .idle → lex q b = some (ts, q') →
    q'.flush = some us → ∃ t vs, ts ++ us = t :: vs ∧ t.byte = none
  | [], q, q', ts, us, hq, h, hf => by
    cases h
    cases q with
    | atom s =>
      simp only [Lex.flush] at hf
      split at hf
      · cases hf
        exact ⟨_, _, rfl, rfl⟩
      · cases hf
    | idle => exact absurd rfl hq
    | _ => cases hf
  | c :: b, q, q', ts, us, hq, h, hf => by
    rw [lex] at h
    split at h
    · cases h
    · rename_i ws q₁ hs
      obtain ⟨out, hb, he⟩ := map_eq_some_iff.mp h
      cases he
      rcases step_pending hq hs with ⟨t, vs, rfl, ht⟩ | ⟨rfl, hq₁⟩
      · exact ⟨t, _, rfl, ht⟩
      · exact lex_pending hq₁ hb hf

/-- The text of an array starts with a bracket, behind white space. -/
theorem head_of_parse_arr (h : parse (c :: b) = some (.arr vs)) (hs : isSpace c = false) : c = 91 := by
  obtain ⟨us, q, ws, hl, hf, he⟩ := tokens_eq_some.mp (parse_eq_some.mp h)
  rw [Value.tokens] at he
  by_contra hc
  rw [lex] at hl
  split at hl
  · cases hl
  · rename_i ts q₁ hstep
    obtain ⟨out, hb, hout⟩ := map_eq_some_iff.mp hl
    cases hout
    simp only [Lex.step, hs, Bool.false_eq_true, if_false] at hstep
    split at hstep
    · rename_i t ht
      cases hstep
      have htext := (punct_text ht).1
      rw [← (List.cons.inj he).1] at htext
      exact hc (singleton_inj.mp htext).symm
    · have hnil : ts = [] ∧ q₁ ≠ .idle := by
        split at hstep
        · cases hstep
          exact ⟨rfl, nofun⟩
        · cases hstep
          exact ⟨rfl, nofun⟩
      obtain ⟨rfl, hq⟩ := hnil
      obtain ⟨t, ts, ht, hbyte⟩ := lex_pending hq hb hf
      rw [nil_append, ht] at he
      rw [← (List.cons.inj he).1] at hbyte
      cases hbyte

end Json
