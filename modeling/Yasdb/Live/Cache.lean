import Yasdb.Server.Pages

/-!
# The live cache

The most recently published records of a stream, kept in memory for readers that have caught up. The window is
contiguous: a run of payloads that does not continue it starts a new one. `tryRead` serves a range that the window
covers and that stays under the limit; for everything else the reader goes to the store.

- `Window`: the cached records are a range of a log;
- `Window.append`, `Window.evict`: adding and evicting records keep this;
- `Window.tryRead`: **what the cache serves is what `readRange` reads**.
-/

namespace Yasdb

open List Nat

variable {a b tailSeq limit : Nat} {isJSON : Bool} {start : Offset} {r : ReadResult}

structure LiveCache where
  recs : List (Nat × Bytes) := []
  curBytes : Nat := 0
  maxRecs : Int
  maxBytes : Int

/-- The run of record payloads a burst has committed. -/
structure CacheSeg where
  firstSeq : Nat := 0
  payloads : List Bytes := []

/-- Payloads with consecutive sequence numbers. -/
def numberFrom : Nat → List Bytes → List (Nat × Bytes)
  | _, [] => []
  | n, p :: ps => (n, p) :: numberFrom (n + 1) ps

/-- Payloads numbered modulo `modulus`. -/
def numbersMod (modulus n : Nat) (payloads : List Bytes) : List (Nat × Bytes) :=
  (numberFrom n payloads).map fun r => (r.1 % modulus, r.2)

namespace LiveCache

/-- Evict the oldest records beyond the bounds, always keeping one. -/
def evict (maxRecs maxBytes : Int) : List (Nat × Bytes) → Nat → List (Nat × Bytes) × Nat
  | r :: r' :: rs, curBytes =>
    if ((r :: r' :: rs).length : Int) > maxRecs ∨ (curBytes : Int) > maxBytes then
      evict maxRecs maxBytes (r' :: rs) (curBytes - r.2.length)
    else (r :: r' :: rs, curBytes)
  | recs, curBytes => (recs, curBytes)

/-- What is kept of the window: all of it, unless the new records do not continue it. -/
def kept (modulus : Nat) (c : LiveCache) (firstSeq : Nat) : List (Nat × Bytes) × Nat :=
  match c.recs.getLast? with
  | some last => if firstSeq ≠ (last.1 + 1) % modulus then ([], 0) else (c.recs, c.curBytes)
  | none => (c.recs, c.curBytes)

/-- Add a run of payloads, with sequence numbers that wrap around at `modulus` (`0` = never). A discontinuity drops the
window and restarts it. -/
def appendMod (modulus : Nat) (c : LiveCache) (firstSeq : Nat) (payloads : List Bytes) : LiveCache :=
  if payloads = [] then c
  else
    let out := evict c.maxRecs c.maxBytes ((c.kept modulus firstSeq).1 ++ numbersMod modulus firstSeq payloads)
      ((c.kept modulus firstSeq).2 + (payloads.map List.length).sum)
    { c with recs := out.1, curBytes := out.2 }

/-- `append` on sequence numbers that do not wrap. -/
def append (c : LiveCache) (firstSeq : Nat) (payloads : List Bytes) : LiveCache := c.appendMod 0 firstSeq payloads

/-- Drop the window. -/
def reset (c : LiveCache) : LiveCache := { c with recs := [], curBytes := 0 }

/-- The response for `[start, tailSeq)`, if the window covers it with whole records and less than `limit` bytes. -/
def tryRead (c : LiveCache) (isJSON : Bool) (start : Offset) (tailSeq limit : Nat) : Option ReadResult :=
  if start.byte ≠ 0 ∨ start.seq ≥ tailSeq then none
  else
    match c.recs.head?, c.recs.getLast? with
    | some first, some last =>
      let lo := first.1
      let hi := last.1 + 1
      if start.seq < lo ∨ tailSeq > hi then none
      else
        let i := start.seq - lo
        let j := tailSeq - lo
        if j > c.recs.length ∨ i ≥ j then none
        else
          let payloads := ((c.recs.drop i).take (j - i)).map (·.2)
          -- at the limit itself `readRange` would leave out trailing empty records
          if (payloads.map List.length).sum ≥ limit then none
          else some {
            body := if isJSON then wrapJSONArray payloads else payloads.flatten
            next := ⟨tailSeq, 0⟩
            upToDate := true }
    | _, _ => none

end LiveCache

/-! ## The window -/

/-- The cached records are a range of the log, below `bound`. -/
def Window (log : Nat → Bytes) (bound : Nat) (recs : List (Nat × Bytes)) : Prop :=
  ∃ a b, a ≤ b ∧ b ≤ bound ∧ recs = numbered log a b

theorem numberFrom_entries (log : Nat → Bytes) : ∀ (len a : Nat),
    numberFrom a (entries log a (a + len)) = numbered log a (a + len)
  | 0, a => by simp [entries, numbered, numberFrom]
  | len + 1, a => by
    have ih := numberFrom_entries log len (a + 1)
    rw [add_right_comm] at ih
    rw [entries_cons log (by omega), numbered_cons log (by omega), numberFrom, ← add_assoc, ih]

theorem length_numbered (log : Nat → Bytes) (a b : Nat) : (numbered log a b).length = b - a := by
  simp [numbered]

theorem head?_numbered (log : Nat → Bytes) (h : a < b) : (numbered log a b).head? = some (a, log a) := by
  rw [numbered_cons log h, head?_cons]

theorem getLast?_numbered (log : Nat → Bytes) (h : a < b) :
    (numbered log a b).getLast? = some (b - 1, log (b - 1)) := by
  have hb : b = (b - 1) + 1 := by omega
  rw [hb, ← numbered_append log (show a ≤ b - 1 by omega) (Nat.le_succ _), numbered_cons log (Nat.lt_succ_self _),
    getLast?_append, Nat.add_sub_cancel]
  simp [numbered]

theorem slice_numbered (log : Nat → Bytes) {s t : Nat} (hs : a ≤ s) (ht : t ≤ b) :
    (((numbered log a b).drop (s - a)).take (t - a - (s - a))).map (·.2) = entries log s t := by
  have hlen : t - a - (s - a) = t - s := by omega
  rw [numbered, entries, ← map_drop, ← map_take, List.map_map, drop_range', hlen,
    take_range'_of_length_ge (by omega), Nat.mul_one, Nat.add_sub_cancel' hs]
  rfl

namespace Window

variable {log : Nat → Bytes} {bound : Nat} {recs : List (Nat × Bytes)}

theorem nil (log : Nat → Bytes) (bound : Nat) : Window log bound [] :=
  ⟨0, 0, le_refl 0, zero_le _, by simp [numbered]⟩

theorem congr (h : Window log bound recs) {log' : Nat → Bytes} {bound' : Nat} (hb : bound ≤ bound')
    (hl : ∀ n, n < bound → log' n = log n) : Window log' bound' recs := by
  obtain ⟨a, b, hab, hbound, rfl⟩ := h
  refine ⟨a, b, hab, hbound.trans hb, map_congr_left fun n hn => ?_⟩
  rw [mem_range'_1] at hn
  rw [hl n (by omega)]

theorem evict (maxRecs maxBytes : Int) : ∀ {recs : List (Nat × Bytes)} (curBytes : Nat), Window log bound recs →
    Window log bound (LiveCache.evict maxRecs maxBytes recs curBytes).1
  | [], _, h => h
  | [_], _, h => h
  | r :: r' :: rs, curBytes, h => by
    unfold LiveCache.evict
    split
    · refine evict maxRecs maxBytes _ ?_
      obtain ⟨a, b, hab, hbound, he⟩ := h
      have hlt : a < b := by
        by_contra hge
        have hlen := congrArg List.length he
        rw [length_numbered] at hlen
        simp only [length_cons] at hlen
        omega
      rw [numbered_cons log hlt, List.cons.injEq] at he
      exact ⟨a + 1, b, hlt, hbound, he.2⟩
    · exact h

/-- **Adding the next records of the log** keeps the window. -/
theorem append {c : LiveCache} (h : Window log bound c.recs) {firstSeq len : Nat} (hb : firstSeq + len ≤ bound) :
    Window log bound (c.append firstSeq (entries log firstSeq (firstSeq + len))).recs := by
  unfold LiveCache.append LiveCache.appendMod
  split
  · exact h
  · refine evict _ _ _ ?_
    have hnum : numbersMod 0 firstSeq (entries log firstSeq (firstSeq + len)) =
        numbered log firstSeq (firstSeq + len) := by
      simp [numbersMod, numberFrom_entries]
    rw [hnum, LiveCache.kept]
    have hnew : Window log bound ([] ++ numbered log firstSeq (firstSeq + len)) :=
      ⟨firstSeq, firstSeq + len, le_add_right _ _, hb, rfl⟩
    obtain ⟨a, b, hab, hbound, he⟩ := h
    rw [he]
    rcases eq_or_lt_of_le hab with rfl | hlt
    · have hnil : numbered log a a = [] := by simp [numbered]
      rw [hnil]
      exact hnew
    · rw [getLast?_numbered log hlt]
      dsimp only
      split
      · exact hnew
      · rename_i hnext
        have hnext : firstSeq = b := by simp only [ne_eq, not_not, mod_zero] at hnext; omega
        subst hnext
        exact ⟨a, firstSeq + len, by omega, hb, numbered_append log (by omega) (by omega)⟩

/-- What a window serves: a whole range of the log, under the limit. -/
theorem tryRead_spec {c : LiveCache} (h : Window log bound c.recs)
      (hr : c.tryRead isJSON start tailSeq limit = some r) :
    start.byte = 0 ∧ start.seq < tailSeq ∧ tailSeq ≤ bound ∧ (entries log start.seq tailSeq).flatten.length < limit ∧
      r = { body := if isJSON then wrapJSONArray (entries log start.seq tailSeq) else
              (entries log start.seq tailSeq).flatten
            next := ⟨tailSeq, 0⟩
            upToDate := true } := by
  obtain ⟨a, b, hab, hbound, he⟩ := h
  unfold LiveCache.tryRead at hr
  split at hr
  · cases hr
  rename_i hcov
  simp only [ne_eq, not_or, not_not, ge_iff_le, not_le] at hcov
  rcases eq_or_lt_of_le hab with rfl | hlt
  · rw [he, show numbered log a a = [] by simp [numbered]] at hr
    cases hr
  rw [he, head?_numbered log hlt, getLast?_numbered log hlt, length_numbered] at hr
  dsimp only at hr
  split at hr
  · cases hr
  split at hr
  · cases hr
  rename_i hin hlen
  rw [slice_numbered log (by omega) (by omega)] at hr
  split at hr
  · cases hr
  rename_i hlim
  rw [Option.some.injEq] at hr
  refine ⟨hcov.1, hcov.2, by omega, ?_, hr.symm⟩
  rw [length_flatten]
  omega

/-- **What the cache serves is what `readRange` reads**, if the store holds the log. -/
theorem tryRead {c : LiveCache} (h : Window log bound c.recs) {db : Store}
    {depth fuel streamID forkedFrom forkOffset : Nat} (hfuel : depth ≤ fuel)
    (hlog : ∀ n, n < bound → payloadAt db depth streamID forkedFrom forkOffset n = some (log n))
       (hr : c.tryRead isJSON start tailSeq limit = some r) :
    readRange {} db fuel streamID forkedFrom forkOffset isJSON start tailSeq limit = .ok r := by
  obtain ⟨hbyte, hlt, hb, hlim, rfl⟩ := h.tryRead_spec hr
  have hstored : ∀ n, n < tailSeq → payloadAt db depth streamID forkedFrom forkOffset n = some (log n) :=
    fun n hn => hlog n (hn.trans_le hb)
  have hall : start.seq + (entries log start.seq tailSeq).length = tailSeq := by rw [length_entries]; omega
  cases isJSON with
  | false =>
    rw [readRange_binary hfuel hstored start limit hlt, hbyte,
      Paging.fill_whole limit _ _ (by rw [nil_append]; exact hlim), hall]
    simp
  | true =>
    rw [readRange_json hfuel start limit hlt fun n _ => hstored n, Paging.gather_all limit _ _ _ (by omega), hall,
      take_length]
    simp

end Window

end Yasdb
