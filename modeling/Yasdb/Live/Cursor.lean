import Yasdb.Server.OffsetToken

/-!
# Cursors of live responses

A live response carries a cursor, which the client echoes with its next request. A cursor at or ahead of the current
interval is advanced by a random number of intervals; the sum is a word of 64 bits.

- `parseUint_formatInt`: an echoed cursor is read back;
- `computeCursor_eq`: the number that is sent;
- `cursor_advances_iff`: **a cursor advances exactly if the sum fits**, and a run of such cursors never goes back.
-/

namespace Yasdb

open List Option Nat

/-- 2024-10-09 00:00 UTC, in nanoseconds since 1970. -/
def cursorEpoch : Int := 1728432000 * 10 ^ 9

def cursorIntervalSecs : Nat := 20

def maxJitterIntervals : Nat := 3600 / cursorIntervalSecs

/-- `time.Time.Sub`: a duration has 64 bits, and saturates. -/
def timeSub (t u : Int) : Int := max (-2 ^ 63) (min (2 ^ 63 - 1) (t - u))

section

-- `uint64(d.Seconds())`: the whole seconds of a duration, by way of a floating-point number
variable (seconds : Int → UInt64)

/-- The interval of a moment of the clock. -/
def currentInterval (now : Int) : Nat :=
  if timeSub now cursorEpoch > 0 then (seconds (timeSub now cursorEpoch)).toNat / cursorIntervalSecs else 0

/-- The cursor to send for the one that the client has echoed, with the draw `jitter`. -/
def computeCursor (clientCursor : Bytes) (now : Int) (jitter : Fin maxJitterIntervals) : Bytes :=
  let cur := currentInterval seconds now
  if clientCursor ≠ [] then
    match parseUint clientCursor with
    | some c => if c ≥ cur then formatInt ((c + 1 + jitter) % 2 ^ 64) else formatInt cur
    | none => formatInt cur
  else formatInt cur

/-- The cursors sent to a client that echoes each of them. -/
def cursors : Bytes → List (Int × Fin maxJitterIntervals) → List Bytes
  | _, [] => []
  | s, (now, jitter) :: reqs => computeCursor seconds s now jitter :: cursors (computeCursor seconds s now jitter) reqs

/-- A cursor that is advanced stays below `2^64`. -/
def CursorFits (clientCursor : Bytes) (now : Int) (jitter : Fin maxJitterIntervals) : Prop :=
  ∀ c, parseUint clientCursor = some c → currentInterval seconds now ≤ c → c + 1 + jitter < 2 ^ 64

/-- No cursor of the run is advanced beyond 64 bits. -/
def CursorsFit : Bytes → List (Int × Fin maxJitterIntervals) → Prop
  | _, [] => True
  | s, (now, jitter) :: reqs =>
    CursorFits seconds s now jitter ∧ CursorsFit (computeCursor seconds s now jitter) reqs

/-- The cursor is at or ahead of the interval, and beyond the one it answers if that is too. -/
def Advances (cursor : Bytes) (c cur : Nat) : Prop := ∃ n, cursor = formatInt n ∧ (cur ≤ c → c < n) ∧ cur ≤ n

end

theorem parseUint_formatInt {n : Nat} (h : n < 2 ^ 64) : parseUint (formatInt n) = some n := by
  have hd : Digits (formatInt n) := fun b hb => by
    rw [UInt8.le_iff_toNat_le, UInt8.le_iff_toNat_le]
    exact mem_formatInt hb
  have hne : formatInt n ≠ [] := by
    rw [formatInt, Ne, map_eq_nil_iff]
    exact toDigits_ne_nil
  have hv : (formatInt n).foldl (fun n b => 10 * n + (b.toNat - 48)) 0 = n := ofDecimal_formatInt n
  rw [parseUint, if_neg hne, foldlM_digits 0 hd, hv, filter_some, if_pos (decide_eq_true h)]

section

variable {seconds : Int → UInt64} {s : Bytes} {now : Int} {jitter : Fin maxJitterIntervals}

theorem currentInterval_lt : currentInterval seconds now < 2 ^ 64 := by
  unfold currentInterval
  split
  · exact lt_of_le_of_lt (div_le_self _ _) (UInt64.toNat_lt _)
  · decide

/-- A cursor is advanced if it is at or ahead of the interval, and otherwise replaced by the interval. -/
theorem computeCursor_eq : (∃ c, parseUint s = some c ∧ currentInterval seconds now ≤ c ∧
      computeCursor seconds s now jitter = formatInt ((c + 1 + jitter) % 2 ^ 64)) ∨
    (∀ c, parseUint s = some c → c < currentInterval seconds now) ∧
      computeCursor seconds s now jitter = formatInt (currentInterval seconds now) := by
  unfold computeCursor
  cases hp : parseUint s with
  | none =>
    refine .inr ⟨by rintro _ ⟨⟩, ?_⟩
    split <;> rfl
  | some c =>
    have hne : s ≠ [] := by
      rintro rfl
      cases hp
    rw [if_pos hne]
    rcases lt_or_ge c (currentInterval seconds now) with hlt | hge
    · refine .inr ⟨?_, if_neg (not_le.mpr hlt)⟩
      rintro _ ⟨⟩
      exact hlt
    · exact .inl ⟨c, rfl, hge, if_pos hge⟩

theorem parseUint_word {c : Nat} (h : parseUint s = some c) : c < 2 ^ 64 := by
  unfold parseUint at h
  split at h
  · cases h
  · exact of_decide_eq_true (filter_eq_some_iff.mp h).2

theorem advances_iff (seconds : Int → UInt64) (now : Int) (jitter : Fin maxJitterIntervals) {c : Nat}
    (hp : parseUint s = some c) :
    Advances (computeCursor seconds s now jitter) c (currentInterval seconds now) ↔
      CursorFits seconds s now jitter := by
  have hc := parseUint_word hp
  have hj : (jitter : Nat) < 180 := jitter.isLt
  have hfits : CursorFits seconds s now jitter ↔ (currentInterval seconds now ≤ c → c + 1 + jitter < 2 ^ 64) := by
    simp [CursorFits, hp]
  rw [hfits]
  obtain ⟨c', hp', hle, he⟩ | ⟨hlt, he⟩ := @computeCursor_eq seconds s now jitter
  · cases hp.symm.trans hp'
    rw [Advances, he]
    constructor
    · rintro ⟨n, hn, hadv, -⟩ -
      have := formatInt_injective hn
      have := hadv hle
      omega
    · intro hfit
      have := hfit hle
      exact ⟨_, rfl, fun _ => by omega, by omega⟩
  · have := hlt c hp
    exact ⟨fun _ hle => by omega, fun _ => ⟨_, he, fun hle => by omega, le_refl _⟩⟩

/-- The next cursor for one that fits is a number of 64 bits, not below the one the client has echoed. -/
theorem exists_cursor (h : CursorFits seconds s now jitter) : ∃ n, computeCursor seconds s now jitter = formatInt n ∧
    n < 2 ^ 64 ∧ ∀ c, parseUint s = some c → c ≤ n := by
  obtain ⟨c, hp, hle, he⟩ | ⟨hlt, he⟩ := @computeCursor_eq seconds s now jitter
  · have hfit := h c hp hle
    refine ⟨_, he, mod_lt _ (by decide), fun c' hc' => ?_⟩
    rw [hp, some.injEq] at hc'
    omega
  · exact ⟨_, he, currentInterval_lt, fun c hc => le_of_lt (hlt c hc)⟩

/-- The cursors of a run that fits are numbers in ascending order, from the one the client starts with. -/
theorem cursors_ascend : ∀ {reqs : List (Int × Fin maxJitterIntervals)} {s : Bytes}, CursorsFit seconds s reqs →
    ∃ ns : List Nat, cursors seconds s reqs = ns.map formatInt ∧ ns.Pairwise (· ≤ ·) ∧
      ∀ c, parseUint s = some c → ∀ n ∈ ns, c ≤ n
  | [], s, _ => ⟨[], rfl, Pairwise.nil, by simp⟩
  | (now, jitter) :: reqs, s, h => by
    obtain ⟨n, hn, hlt, hle⟩ := exists_cursor h.1
    obtain ⟨ns, hns, hsorted, hfrom⟩ := cursors_ascend h.2
    rw [hn] at hns hfrom
    have hnext := hfrom n (parseUint_formatInt hlt)
    refine ⟨n :: ns, by rw [cursors, hn, hns, map_cons], pairwise_cons.mpr ⟨hnext, hsorted⟩, fun c hc m hm => ?_⟩
    rcases mem_cons.mp hm with rfl | hm
    · exact hle c hc
    · exact (hle c hc).trans (hnext m hm)

end

/-- **A cursor advances if and only if the sum fits into 64 bits**, and in every run in which all of them fit the
cursors never decrease, even if the clock goes back. -/
theorem cursor_advances_iff (seconds : Int → UInt64) :
    (∀ now jitter s c, parseUint s = some c →
      (Advances (computeCursor seconds s now jitter) c (currentInterval seconds now) ↔
        CursorFits seconds s now jitter)) ∧
    ∀ s reqs, CursorsFit seconds s reqs →
      ∃ ns : List Nat, cursors seconds s reqs = ns.map formatInt ∧ ns.Pairwise (· ≤ ·) := by
  refine ⟨fun now jitter s c hp => advances_iff seconds now jitter hp, fun s reqs h => ?_⟩
  obtain ⟨ns, hns, hsorted, -⟩ := cursors_ascend h
  exact ⟨ns, hns, hsorted⟩

/-- The largest cursor is followed by the smallest. -/
theorem cursor_wraps :
    computeCursor (fun _ => 0) (ascii "18446744073709551615") cursorEpoch ⟨0, by decide⟩ = ascii "0" := by
  decide +kernel

end Yasdb
