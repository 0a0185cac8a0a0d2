import Mathlib.Data.List.Basic

/-!
# Intervals laid end to end

A list of intervals `[lo a, hi a)` is a chain from `t` to `t'` when the first one starts at `t`, each next one starts
where its predecessor ends, and the last one ends at `t'` (`Chain`).

- chains concatenate (`chain_append`);
- the ends of a chain bound all its members (`Chain.le`, `Chain.mem`).
-/

namespace Chains

universe u

variable {α : Type u} (lo hi : α → Nat)

/-- The intervals of the list, laid end to end from `t` to `t'`. -/
def Chain : Nat → List α → Nat → Prop
  | t, [], t' => t = t'
  | t, a :: l, t' => lo a = t ∧ t ≤ hi a ∧ Chain (hi a) l t'

variable {lo hi}

theorem chain_append {l l' : List α} : ∀ {t t' : Nat},
    Chain lo hi t (l ++ l') t' ↔ ∃ m, Chain lo hi t l m ∧ Chain lo hi m l' t' := by
  induction l with
  | nil => simp [Chain]
  | cons a l ih =>
    intro t t'
    simp only [List.cons_append, Chain, ih]
    constructor
    · rintro ⟨h1, h2, m, h3, h4⟩
      exact ⟨m, ⟨h1, h2, h3⟩, h4⟩
    · rintro ⟨m, ⟨h1, h2, h3⟩, h4⟩
      exact ⟨h1, h2, m, h3, h4⟩

theorem chain_singleton {a : α} {t t' : Nat} : Chain lo hi t [a] t' ↔ lo a = t ∧ t ≤ hi a ∧ hi a = t' := Iff.rfl

theorem Chain.le {l : List α} : ∀ {t t' : Nat}, Chain lo hi t l t' → t ≤ t' := by
  induction l with
  | nil => exact fun h => Nat.le_of_eq h
  | cons a l ih => exact fun h => Nat.le_trans h.2.1 (ih h.2.2)

theorem Chain.mem {l : List α} {a : α} : ∀ {t t' : Nat}, Chain lo hi t l t' → a ∈ l → t ≤ lo a ∧ hi a ≤ t' := by
  induction l with
  | nil => exact nofun
  | cons b l ih =>
    intro t t' h ha
    rcases List.mem_cons.mp ha with rfl | ha
    · exact ⟨Nat.le_of_eq h.1.symm, h.2.2.le⟩
    · obtain ⟨h1, h2⟩ := ih h.2.2 ha
      exact ⟨Nat.le_trans h.2.1 h1, h2⟩

end Chains
