import Mathlib.Data.Finset.Card
import Mathlib.Order.Bounds.Basic

/-!
# The contiguous watermark

`ContigWatermark.mark` folds completed numbers into the largest prefix `1, …, value` that is complete; numbers beyond a
gap wait in a set.

- `Tracks.mark`: whatever the order of the calls, the watermark describes the set of all numbers marked so far;
- `watermark_is_prefix`: **its value is the largest prefix** of that set.
-/

namespace Yasdb.Pwal

open Finset

variable {marked : Nat → Prop}

structure ContigWatermark where
  set : Finset Nat := ∅
  value : Nat := 0

/-- The loop of `mark`: while the next number is in the set, it moves into the prefix. Each turn takes a number out of
the set, so the size of the set bounds the turns. -/
def advance : Nat → Finset Nat → Nat → Finset Nat × Nat
  | 0, set, v => (set, v)
  | turns + 1, set, v => if v + 1 ∈ set then advance turns (set.erase (v + 1)) (v + 1) else (set, v)

/-- Fold newly completed numbers into the watermark. -/
def ContigWatermark.mark (w : ContigWatermark) (seqs : List Nat) : ContigWatermark :=
  let set := seqs.foldl (fun set sq => insert sq set) w.set
  match advance set.card set w.value with
  | (set, v) => ⟨set, v⟩

/-- The watermark of the numbers `marked`: everything up to its value is marked, and beyond it the set holds what is
marked. -/
structure Describes (marked : Nat → Prop) (set : Finset Nat) (value : Nat) : Prop where
  below : ∀ q, 1 ≤ q → q ≤ value → marked q
  beyond : ∀ q, value < q → (q ∈ set ↔ marked q)

/-- The watermark stops at the first number that is not marked. -/
structure Tracks (marked : Nat → Prop) (w : ContigWatermark) : Prop extends Describes marked w.set w.value where
  stops : ¬ marked (w.value + 1)

theorem tracks_empty : Tracks (fun _ => False) {} where
  below q h1 h2 := by simp only at h2; omega
  beyond q _ := by simp
  stops := id

/-- The loop ends at the first gap. -/
theorem describes_advance : ∀ {turns : Nat} {set : Finset Nat} {v : Nat}, Describes marked set v → set.card ≤ turns →
    Describes marked (advance turns set v).1 (advance turns set v).2 ∧ ¬ marked ((advance turns set v).2 + 1)
  | 0, set, v, h, hc => by
    have hempty : set = ∅ := card_eq_zero.mp (by omega)
    refine ⟨h, fun hm => ?_⟩
    have := (h.beyond (v + 1) (by omega)).mpr hm
    rw [hempty] at this
    simp at this
  | turns + 1, set, v, h, hc => by
    unfold advance
    split
    · rename_i hin
      refine describes_advance ⟨fun q h1 h2 => ?_, fun q hq => ?_⟩ ?_
      · rcases Nat.lt_or_ge v q with hq | hq
        · have hq' : q = v + 1 := by omega
          rw [hq']
          exact (h.beyond (v + 1) (by omega)).mp hin
        · exact h.below q h1 hq
      · rw [mem_erase, ← h.beyond q (by omega)]
        exact ⟨fun hm => hm.2, fun hm => ⟨by omega, hm⟩⟩
      · rw [card_erase_of_mem hin]
        omega
    · rename_i hout
      exact ⟨h, fun hm => hout ((h.beyond (v + 1) (by omega)).mpr hm)⟩

theorem mem_foldl_insert {q : Nat} : ∀ {seqs : List Nat} {set : Finset Nat},
    q ∈ seqs.foldl (fun set sq => insert sq set) set ↔ q ∈ seqs ∨ q ∈ set
  | [], set => by simp
  | sq :: seqs, set => by
    rw [List.foldl_cons, mem_foldl_insert, mem_insert, List.mem_cons]
    tauto

/-- **Marking numbers** adds them to those the watermark describes. -/
theorem Tracks.mark {w : ContigWatermark} (h : Tracks marked w) (seqs : List Nat) :
    Tracks (fun q => marked q ∨ q ∈ seqs) (w.mark seqs) := by
  have hf : Describes (fun q => marked q ∨ q ∈ seqs) (seqs.foldl (fun set sq => insert sq set) w.set) w.value := by
    refine ⟨fun q h1 h2 => .inl (h.below q h1 h2), fun q hq => ?_⟩
    rw [mem_foldl_insert, h.beyond q hq]
    exact or_comm
  obtain ⟨h1, h2⟩ := describes_advance hf (Nat.le_refl _)
  exact ⟨h1, h2⟩

theorem Tracks.le_value {w : ContigWatermark} (h : Tracks marked w) {n : Nat}
    (hall : ∀ q, 1 ≤ q → q ≤ n → marked q) : n ≤ w.value := by
  by_contra hn
  exact h.stops (hall (w.value + 1) (by omega) (by omega))

/-! ## Runs of calls -/

/-- The watermark after a sequence of calls. Behind the last number of 64 bits the code looks for 0, which is no
sequence number, and stops as well. -/
def ContigWatermark.marks (calls : List (List Nat)) : ContigWatermark := calls.foldl ContigWatermark.mark {}

theorem ContigWatermark.marks_concat (calls : List (List Nat)) (seqs : List Nat) :
    marks (calls ++ [seqs]) = (marks calls).mark seqs := by
  rw [marks, List.foldl_append, List.foldl_cons, List.foldl_nil, marks]

theorem tracks_marks (calls : List (List Nat)) : Tracks (· ∈ calls.flatten) (ContigWatermark.marks calls) := by
  induction calls using List.reverseRecOn with
  | nil => simpa [ContigWatermark.marks] using tracks_empty
  | append_singleton calls seqs ih =>
    rw [ContigWatermark.marks_concat]
    simpa using ih.mark seqs

/-- The watermark of a set of numbers is the largest prefix of it. -/
theorem Tracks.isGreatest {w : ContigWatermark} (h : Tracks marked w) :
    IsGreatest {n | ∀ q, 1 ≤ q → q ≤ n → marked q} w.value :=
  ⟨h.below, fun _ hn => h.le_value hn⟩

/-- **The watermark is the contiguous prefix**: after any calls it is the largest number up to which everything is
marked. It never decreases, and the order of the calls does not matter. -/
theorem watermark_is_prefix (calls : List (List Nat)) :
    IsGreatest {n | ∀ q, 1 ≤ q → q ≤ n → q ∈ calls.flatten} (ContigWatermark.marks calls).value ∧
    (∀ seqs, (ContigWatermark.marks calls).value ≤ (ContigWatermark.marks (calls ++ [seqs])).value) ∧
    ∀ calls', (∀ q, q ∈ calls.flatten ↔ q ∈ calls'.flatten) →
      (ContigWatermark.marks calls).value = (ContigWatermark.marks calls').value := by
  have h := (tracks_marks calls).isGreatest
  refine ⟨h, fun seqs => ?_, fun calls' hsame => ?_⟩
  · refine (tracks_marks (calls ++ [seqs])).le_value fun q h1 h2 => ?_
    rw [List.flatten_append]
    exact List.mem_append_left _ (h.1 q h1 h2)
  · refine h.unique ?_
    simp only [hsame]
    exact (tracks_marks calls').isGreatest

end Yasdb.Pwal
