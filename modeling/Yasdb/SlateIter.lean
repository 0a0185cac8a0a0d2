import Mathlib.Data.List.Basic

/-!
# The buffered scan iterator

`slateIter.Next` pulls the rows of a scan in batches and hands them out one by one. A batch shorter than asked for is
the last one.

- `SlateIter.next_cases`: a call is an error of `NextBatch`, or does what the plain iterator does;
- `slateIter_refines`: **the buffered iterator is the plain one**, with errors only where `NextBatch` fails.
-/

namespace Yasdb

open List

/-- How many rows one `NextBatch` call pulls. -/
def scanBatchSize : Nat := 64

/-- The iterator; `rows` are those that the underlying one has not returned yet. -/
structure SlateIter (α : Type) where
  rows : List α
  buf : List α := []
  idx : Nat := 0
  exhausted : Bool := false

open SlateIter

/-- What `Next` returns: a row, `ok = false`, or an error. An index out of range panics. -/
inductive NextResult (α : Type) where
  | row (kv : α)
  | done
  | error
  | panic
deriving DecidableEq, Repr

variable {α : Type}

/-- The next rows, up to `max`, and those left. A call that fails consumes nothing and returns no rows. -/
def nextBatch (fails : Bool) (max : Nat) (rows : List α) : Option (List α × List α) :=
  if fails then none else some (rows.take max, rows.drop max)

namespace SlateIter

/-- Take over a batch. -/
def fill (si : SlateIter α) (batch rest : List α) : SlateIter α where
  rows := rest
  buf := batch
  idx := 0
  exhausted := si.exhausted || batch.length < scanBatchSize

/-- The row at the index. -/
def yield (si : SlateIter α) : NextResult α × SlateIter α :=
  match si.buf[si.idx]? with
  | some kv => (.row kv, { si with idx := si.idx + 1 })
  | none => (.panic, si)

/-- A call of `Next`, in which `NextBatch` fails or not; the second component tells whether it was called. -/
def next (si : SlateIter α) (fails : Bool) : (NextResult α × SlateIter α) × Bool :=
  if si.idx ≥ si.buf.length then
    if si.exhausted then ((.done, si), false)
    else
      match nextBatch fails scanBatchSize si.rows with
      | none => ((.error, { si with buf := [] }), true)
      | some (batch, rest) =>
        if batch.length = 0 then ((.done, si.fill batch rest), true) else ((si.fill batch rest).yield, true)
  else (si.yield, false)

/-- A sequence of calls: what each returns, and whether it called `NextBatch`. -/
def nexts : SlateIter α → List Bool → List (NextResult α × Bool)
  | _, [] => []
  | si, fails :: faults => ((si.next fails).1.1, (si.next fails).2) :: nexts (si.next fails).1.2 faults

/-! ## One call -/

/-- The iterator stands before the rows `rest`. -/
structure Before (rest : List α) (si : SlateIter α) : Prop where
  rest : rest = si.buf.drop si.idx ++ si.rows
  exhausted : si.exhausted = true → si.rows = []

/-- The iterator has reached the end. -/
def Ended (si : SlateIter α) : Prop := si.buf.length ≤ si.idx ∧ si.exhausted = true

variable {si : SlateIter α} {rest : List α}

theorem next_of_ended (h : si.Ended) (fails : Bool) : si.next fails = ((.done, si), false) := by
  rw [next, if_pos h.1, if_pos h.2]

theorem Before.yield {kv : α} (h : Before (kv :: rest) si) (hne : si.buf.drop si.idx ≠ []) :
    ∃ si', si.yield = (.row kv, si') ∧ Before rest si' := by
  obtain ⟨kv', l, hl⟩ := exists_cons_of_ne_nil hne
  have hr := h.rest
  rw [hl, cons_append, cons.injEq] at hr
  obtain ⟨rfl, rfl⟩ := hr
  have hget : si.buf[si.idx]? = some kv := by rw [← head?_drop, hl, head?_cons]
  have hdrop : si.buf.drop (si.idx + 1) = l := by
    rw [← drop_drop, hl]
    rfl
  exact ⟨{ si with idx := si.idx + 1 }, by simp only [yield, hget], ⟨by rw [hdrop], h.exhausted⟩⟩

theorem before_fill (hx : si.exhausted = false) :
    Before si.rows (si.fill (si.rows.take scanBatchSize) (si.rows.drop scanBatchSize)) := by
  refine ⟨(take_append_drop _ _).symm, fun h => ?_⟩
  simp only [fill, hx, Bool.false_or, decide_eq_true_eq, length_take] at h
  exact drop_eq_nil_of_le (by omega)

/-- The answers of the plain iterator: the rows in order, and then the end. -/
def plain (rows : List α) (i : Nat) : NextResult α := rows[i]?.elim .done .row

/-- What a call does to an iterator before `rest`: an error of `NextBatch` changes nothing; otherwise it answers as the
plain iterator, and the end is for good. -/
inductive Call (rest : List α) (fails : Bool) : (NextResult α × SlateIter α) × Bool → Prop where
  | error {si' : SlateIter α} (hf : fails = true) (h : Before rest si') : Call rest fails ((.error, si'), true)
  | answer {si' : SlateIter α} {called : Bool} (hf : called = true → fails = false) (h : Before rest.tail si')
      (he : rest = [] → si'.Ended) : Call rest fails ((plain rest 0, si'), called)

theorem next_cases (h : Before rest si) (fails : Bool) : Call rest fails (si.next fails) := by
  by_cases hidx : si.buf.length ≤ si.idx
  · have hrest : rest = si.rows := by rw [h.rest, drop_eq_nil_of_le hidx, nil_append]
    cases hx : si.exhausted with
    | true =>
      obtain rfl : rest = [] := hrest.trans (h.exhausted hx)
      rw [next_of_ended ⟨hidx, hx⟩]
      exact .answer (by rintro ⟨⟩) h fun _ => ⟨hidx, hx⟩
    | false =>
      rw [next, if_pos hidx, if_neg (by simp [hx]), nextBatch]
      cases fails with
      | true => exact .error rfl ⟨by rw [hrest, drop_nil, nil_append], h.exhausted⟩
      | false =>
        have hb := before_fill hx
        rw [← hrest] at hb ⊢
        cases rest with
        | nil => exact .answer (fun _ => rfl) hb fun _ => ⟨Nat.le_refl 0, by simp [fill, scanBatchSize]⟩
        | cons kv rest =>
          obtain ⟨si', hy, hb'⟩ := hb.yield (by simp [fill, scanBatchSize])
          change Call _ _ (if ((kv :: rest).take scanBatchSize).length = 0 then _ else (yield _, true))
          rw [if_neg (by simp [scanBatchSize]), hy]
          exact .answer (fun _ => rfl) hb' (by rintro ⟨⟩)
  · have hne : si.buf.drop si.idx ≠ [] := by
      rw [Ne, drop_eq_nil_iff]
      exact hidx
    obtain ⟨kv, l, hl⟩ := exists_cons_of_ne_nil hne
    obtain rfl : rest = kv :: (l ++ si.rows) := by rw [h.rest, hl, cons_append]
    obtain ⟨si', hy, hb⟩ := h.yield hne
    rw [next, if_neg hidx, hy]
    exact .answer (by rintro ⟨⟩) hb (by rintro ⟨⟩)

/-! ## Sequences of calls -/

def isError : NextResult α → Bool
  | .error => true
  | _ => false

/-- The answers that are no errors. -/
def answers (out : List (NextResult α × Bool)) : List (NextResult α) := (out.map Prod.fst).filter fun r => !isError r

theorem isError_plain (rows : List α) (i : Nat) : isError (plain rows i) = false := by
  unfold plain
  cases rows[i]? <;> rfl

theorem nexts_of_ended (h : si.Ended) : ∀ faults, ∀ o ∈ si.nexts faults, o = (.done, false)
  | [] => by simp [nexts]
  | fails :: faults => by
    rw [nexts, next_of_ended h]
    simpa using nexts_of_ended h faults

/-- The answers are those of the plain iterator. -/
theorem answers_nexts : ∀ {faults : List Bool} {rest : List α} {si : SlateIter α}, Before rest si →
    answers (si.nexts faults) = (range (answers (si.nexts faults)).length).map (plain rest)
  | [], _, _, _ => rfl
  | fails :: faults, rest, si, h => by
    have hc := next_cases h fails
    rw [nexts]
    generalize si.next fails = c at hc
    cases hc with
    | error hf hb => exact answers_nexts hb
    | answer hf hb he =>
      have htail : plain rest ∘ Nat.succ = plain rest.tail := by cases rest <;> rfl
      rw [answers, map_cons, filter_cons_of_pos (by rw [isError_plain]; rfl), length_cons, range_succ_eq_map, map_cons,
        map_map, htail]
      exact congrArg _ (answers_nexts hb)

/-- A call returns an error exactly if it called `NextBatch` and that failed. -/
theorem error_nexts : ∀ {faults : List Bool} {rest : List α} {si : SlateIter α}, Before rest si →
    ∀ p ∈ (si.nexts faults).zip faults, p.1.1 = .error ↔ p.1.2 = true ∧ p.2 = true
  | [], _, _, _ => by simp [nexts]
  | fails :: faults, rest, si, h => by
    have hc := next_cases h fails
    rw [nexts, zip_cons_cons, forall_mem_cons]
    generalize si.next fails = c at hc
    cases hc with
    | error hf hb => exact ⟨by simp [hf], error_nexts hb⟩
    | answer hf hb he =>
      have hne : plain rest 0 ≠ .error := fun he => by simpa [he, isError] using isError_plain rest 0
      exact ⟨by simpa [hne] using hf, error_nexts hb⟩

/-- After the end there is nothing but the end, without a call of `NextBatch`. -/
theorem done_nexts : ∀ {faults : List Bool} {rest : List α} {si : SlateIter α}, Before rest si →
    (si.nexts faults).Pairwise fun o o' => o.1 = .done → o' = (.done, false)
  | [], _, _, _ => Pairwise.nil
  | fails :: faults, rest, si, h => by
    have hc := next_cases h fails
    rw [nexts, pairwise_cons]
    generalize si.next fails = c at hc
    cases hc with
    | error hf hb => exact ⟨by simp, done_nexts hb⟩
    | answer hf hb he =>
      refine ⟨fun o ho hd => nexts_of_ended (he ?_) faults o ho, done_nexts hb⟩
      cases rest with
      | nil => rfl
      | cons kv rest => cases hd

end SlateIter

/-- **The buffered iterator is the plain one**, for every sequence of rows, of calls, and of failures of `NextBatch`:
the calls that do not fail return the rows in order and then the end; a call fails exactly if its `NextBatch` does. -/
theorem slateIter_refines (rows : List α) (faults : List Bool) :
    let out := nexts { rows := rows } faults
    answers out = (List.range (answers out).length).map (plain rows) ∧
    (∀ p ∈ out.zip faults, p.1.1 = .error ↔ p.1.2 = true ∧ p.2 = true) ∧
    out.Pairwise fun o o' => o.1 = .done → o' = (.done, false) := by
  have h : Before rows { rows := rows } := ⟨rfl, by rintro ⟨⟩⟩
  exact ⟨answers_nexts h, error_nexts h, done_nexts h⟩

end Yasdb
