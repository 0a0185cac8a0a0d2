import Mathlib.Algebra.BigOperators.Intervals

/-!
# Families of objects

Objects live at addresses `0, 1, …, n - 1` of a partial family `f : Nat → Option α`; an object is replaced in place, or
a new one is put at the address `n`.

- `update_eq_some`: what an updated family has at an address;
- `census`: a measure of the objects, summed over the family, and how it changes (`census_update`, `census_push`).
-/

namespace Objects

open Function Finset

universe u

variable {α : Type u}

theorem update_eq_some {f : Nat → Option α} {i j : Nat} {a b : α} (h : update f i (some a) j = some b) :
    (j = i ∧ b = a) ∨ (j ≠ i ∧ f j = some b) := by
  by_cases hj : j = i
  · subst hj
    rw [update_self, Option.some.injEq] at h
    exact Or.inl ⟨rfl, h.symm⟩
  · exact Or.inr ⟨hj, (update_of_ne hj ..).symm.trans h⟩

theorem forall_update {f : Nat → Option α} {P : Nat → α → Prop} (h : ∀ j b, f j = some b → P j b) {i : Nat} {a : α}
    (ha : P i a) (j : Nat) (b : α) (hb : update f i (some a) j = some b) : P j b := by
  rcases update_eq_some hb with ⟨rfl, rfl⟩ | ⟨-, hb⟩
  · exact ha
  · exact h j b hb

/-- The sum of a measure over the objects below `n`. -/
def census (m : α → Nat) (n : Nat) (f : Nat → Option α) : Nat := ∑ i ∈ range n, (f i).elim 0 m

variable {m : α → Nat} {n i : Nat} {f : Nat → Option α} {a b : α}

theorem census_update (hi : i < n) (ha : f i = some a) :
    census m n (update f i (some b)) + m a = census m n f + m b := by
  have hmem := mem_range.mpr hi
  have hrest : ∑ j ∈ (range n).erase i, (update f i (some b) j).elim 0 m = ∑ j ∈ (range n).erase i, (f j).elim 0 m :=
    sum_congr rfl fun j hj => by rw [update_of_ne (ne_of_mem_erase hj)]
  unfold census
  rw [← sum_erase_add _ _ hmem, ← sum_erase_add _ (fun j => (f j).elim 0 m) hmem, hrest, update_self, ha]
  simp only [Option.elim_some]
  omega

theorem census_push : census m (n + 1) (update f n (some b)) = census m n f + m b := by
  unfold census
  rw [sum_range_succ, update_self]
  congr 1
  refine sum_congr rfl fun j hj => ?_
  rw [update_of_ne (Nat.ne_of_lt (mem_range.mp hj))]

theorem census_eq_zero (h : ∀ i a, f i = some a → m a = 0) : census m n f = 0 := by
  refine sum_eq_zero fun i _ => ?_
  cases ha : f i with
  | none => rfl
  | some a => exact h i a ha

end Objects
