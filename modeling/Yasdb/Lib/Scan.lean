import Mathlib.Data.Finmap
import Mathlib.Data.Finset.Sort
import Mathlib.Data.Finset.Union

/-!
# Ordered scans over a finite map

A partial index `f : κ → Option ι` selects the keys of a scan and says where each of them stands in the order.
`scan f s` lists the indices of the selected keys of `s`, ascending (`mem_scan`, `sortedLT_scan`). A scan over the
naturals that starts at `a` and is cut at `b` is the whole range when no index is missing (`takeWhile_scan`).
-/

namespace Scan

open List

universe u v w

variable {κ : Type u} {β : κ → Type v} {ι : Type w} [LinearOrder ι]

/-- The indices of the selected keys of the map, ascending. -/
def scan (f : κ → Option ι) (s : Finmap β) : List ι := (s.keys.biUnion fun k => (f k).toFinset).sort (· ≤ ·)

theorem mem_scan {f : κ → Option ι} {s : Finmap β} {i : ι} : i ∈ scan f s ↔ ∃ k ∈ s, f k = some i := by
  simp [scan, Finmap.mem_keys]

theorem sortedLT_scan (f : κ → Option ι) (s : Finmap β) : (scan f s).SortedLT := Finset.sortedLT_sort _

/-- Cutting an ascending list at a bound keeps what is below the bound. -/
theorem mem_takeWhile_lt {b x : ι} : ∀ {l : List ι}, l.SortedLT → (x ∈ l.takeWhile (· < b) ↔ x ∈ l ∧ x < b)
  | [], _ => by simp
  | y :: l, h => by
    have hp := pairwise_cons.mp h.pairwise
    have ih : x ∈ l.takeWhile (· < b) ↔ x ∈ l ∧ x < b := mem_takeWhile_lt hp.2.sortedLT
    by_cases hy : y < b
    · rw [takeWhile_cons_of_pos (by simpa using hy), mem_cons, ih, mem_cons]
      constructor
      · rintro (rfl | h)
        · exact ⟨Or.inl rfl, hy⟩
        · exact ⟨Or.inr h.1, h.2⟩
      · rintro ⟨rfl | h, hx⟩
        · exact Or.inl rfl
        · exact Or.inr ⟨h, hx⟩
    · rw [takeWhile_cons_of_neg (by simpa using hy), mem_cons]
      refine ⟨fun h => absurd h (by simp), ?_⟩
      rintro ⟨rfl | hx, hlt⟩
      · exact absurd hlt hy
      · exact absurd ((hp.1 x hx).trans hlt) hy

/-- **A scan without gaps** delivers the whole range. -/
theorem takeWhile_scan {f : κ → Option ℕ} {s : Finmap β} {a b : ℕ} (hlow : ∀ n ∈ scan f s, a ≤ n)
    (hall : ∀ n, a ≤ n → n < b → n ∈ scan f s) :
    (scan f s).takeWhile (· < b) = List.range' a (b - a) := by
  have hscan := sortedLT_scan f s
  refine List.SortedLT.eq_of_mem_iff ?_ (pairwise_lt_range').sortedLT ?_
  · exact (hscan.pairwise.sublist (takeWhile_sublist _)).sortedLT
  · intro n
    rw [mem_takeWhile_lt hscan, mem_range'_1]
    constructor
    · rintro ⟨hn, hb⟩
      have := hlow n hn
      omega
    · rintro ⟨ha, hb⟩
      exact ⟨hall n ha (by omega), by omega⟩

end Scan
