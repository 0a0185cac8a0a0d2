import Yasdb.Lib.BigEndian

/-!
# The order of byte strings

Byte strings in lexicographic order.

- `be_lt_be`: numbers of one width are ordered as their big-endian bytes;
- `append_lt_append`: fields of one length are compared one after the other;
- `prefix_iff`: **the strings with a prefix are a range**, from the prefix itself up to `prefixEnd`.
-/

namespace BigEndian

open List Nat UInt8 Option

/-! ## Fields -/

theorem append_lt_append : ∀ {a b : List UInt8}, a.length = b.length → ∀ {x y : List UInt8},
    a ++ x < b ++ y ↔ a < b ∨ a = b ∧ x < y
  | [], [], _, x, y => by simp
  | [], _ :: _, h, _, _ => by cases h
  | _ :: _, [], h, _, _ => by cases h
  | c :: a, d :: b, h, x, y => by
    rw [cons_append, cons_append, cons_lt_cons_iff, cons_lt_cons_iff, append_lt_append (succ.inj h), List.cons.injEq]
    constructor
    · rintro (hlt | ⟨rfl, hlt | ⟨rfl, hlt⟩⟩)
      · exact Or.inl (Or.inl hlt)
      · exact Or.inl (Or.inr ⟨rfl, hlt⟩)
      · exact Or.inr ⟨⟨rfl, rfl⟩, hlt⟩
    · rintro ((hlt | ⟨rfl, hlt⟩) | ⟨⟨rfl, rfl⟩, hlt⟩)
      · exact Or.inl hlt
      · exact Or.inr ⟨rfl, Or.inl hlt⟩
      · exact Or.inr ⟨rfl, Or.inr ⟨rfl, hlt⟩⟩

theorem be_inj {w n m : Nat} (hn : n < 256 ^ w) (hm : m < 256 ^ w) (h : be w n = be w m) : n = m := by
  rw [← ofBE_be_of_lt hn, h, ofBE_be_of_lt hm]

/-- **Numbers are ordered as their bytes.** -/
theorem be_lt_be : ∀ {w n m : Nat}, n < 256 ^ w → m < 256 ^ w → (be w n < be w m ↔ n < m)
  | 0, n, m, hn, hm => by
    have hz : n = m := by
      rw [pow_zero] at hn hm
      omega
    simp [hz]
  | w + 1, n, m, hn, hm => by
    rw [pow_succ] at hn hm
    have hn' : n / 256 < 256 ^ w := Nat.div_lt_of_lt_mul (by omega)
    have hm' : m / 256 < 256 ^ w := Nat.div_lt_of_lt_mul (by omega)
    have hlast : ([ofNat n] < [ofNat m]) ↔ n % 256 < m % 256 := by
      rw [cons_lt_cons_iff, lt_iff_toNat_lt]
      simp
    rw [be, be, append_lt_append (by simp), be_lt_be hn' hm', hlast]
    constructor
    · rintro (hlt | ⟨he, hlt⟩)
      · omega
      · have := be_inj hn' hm' he
        omega
    · intro hlt
      rcases lt_or_ge (n / 256) (m / 256) with hd | hd
      · exact Or.inl hd
      · have hd : n / 256 = m / 256 := by omega
        exact Or.inr ⟨by rw [hd], by omega⟩

/-! ## Prefixes -/

/-- From the last byte on: the last one below `0xff` is raised, and what follows it is cut. -/
def raise : List UInt8 → Option (List UInt8)
  | [] => none
  | b :: rest => if b ≠ 255 then some ((b + 1) :: rest) else raise rest

/-- The least byte string above all strings with the prefix; `none` if there is no bound. -/
def prefixEnd (p : List UInt8) : Option (List UInt8) := (raise p.reverse).map List.reverse

theorem raise_append : ∀ (l : List UInt8) (b : UInt8), raise (l ++ [b]) = match raise l with
      | some e => some (e ++ [b])
      | none => if b ≠ 255 then some [b + 1] else none
  | [], b => rfl
  | c :: l, b => by
    rw [cons_append, raise, raise]
    by_cases hc : c ≠ 255
    · rw [if_pos hc, if_pos hc]
      rfl
    · rw [if_neg hc, if_neg hc]
      exact raise_append l b

theorem prefixEnd_cons (b : UInt8) (p : List UInt8) : prefixEnd (b :: p) = match prefixEnd p with
      | some e => some (b :: e)
      | none => if b ≠ 255 then some [b + 1] else none := by
  unfold prefixEnd
  rw [reverse_cons, raise_append]
  cases raise p.reverse with
  | some e => simp
  | none =>
    simp only [Option.map_none]
    split <;> rfl

theorem lt_add_one_iff {b c : UInt8} (hb : b ≠ 255) : c < b + 1 ↔ c ≤ b := by
  have hlt : b.toNat < 255 := by
    have := b.toNat_lt
    rcases lt_or_ge b.toNat 255 with h | h
    · exact h
    · exact absurd (UInt8.toNat_inj.mp (show b.toNat = (255 : UInt8).toNat by
        have : (255 : UInt8).toNat = 255 := rfl
        omega)) hb
  rw [UInt8.lt_iff_toNat_lt, UInt8.le_iff_toNat_le, UInt8.toNat_add]
  have : (1 : UInt8).toNat = 1 := rfl
  omega

theorem not_lt_byte {a b : UInt8} (h : a < b) : ¬ b < a := fun h' => lt_irrefl a (lt_trans h h')

theorem not_cons_lt_cons {b c : UInt8} {p s : List UInt8} : ¬ c :: s < b :: p ↔ b < c ∨ b = c ∧ ¬ s < p := by
  rw [cons_lt_cons_iff]
  rcases lt_trichotomy b c with h | rfl | h
  · exact iff_of_true (fun h' => h'.elim (not_lt_byte h) fun h' => h.ne' h'.1) (Or.inl h)
  · simp
  · exact iff_of_false (fun h' => h' (Or.inl h)) fun h' => h'.elim (not_lt_byte h) fun h' => h.ne' h'.1

/-- **The strings with a prefix are a range.** -/
theorem prefix_iff : ∀ {p s : List UInt8}, p <+: s ↔ ¬ s < p ∧ ∀ e ∈ prefixEnd p, s < e
  | [], s => by simp [prefixEnd, raise]
  | b :: p, [] => by simp
  | b :: p, c :: s => by
    rw [cons_prefix_cons, prefix_iff, prefixEnd_cons, not_cons_lt_cons]
    cases prefixEnd p with
    | some e =>
      simp only [mem_some_iff, forall_eq']
      rw [cons_lt_cons_iff]
      constructor
      · rintro ⟨rfl, hle, hlt⟩
        exact ⟨Or.inr ⟨rfl, hle⟩, Or.inr ⟨rfl, hlt⟩⟩
      · rintro ⟨hbc | ⟨rfl, hle⟩, hcb | ⟨he, hlt⟩⟩
        · exact absurd hcb (not_lt_byte hbc)
        · exact absurd he hbc.ne'
        · exact absurd hcb (lt_irrefl _)
        · exact ⟨rfl, hle, hlt⟩
    | none =>
      by_cases hb : b ≠ 255
      · simp only [if_pos hb, mem_some_iff, forall_eq']
        rw [cons_lt_cons_iff, lt_add_one_iff hb]
        constructor
        · rintro ⟨rfl, hle, -⟩
          exact ⟨Or.inr ⟨rfl, hle⟩, Or.inl (le_refl b)⟩
        · rintro ⟨hbc | ⟨rfl, hle⟩, hcb⟩
          · rcases hcb with hcb | ⟨-, hnil⟩
            · exact absurd hbc (not_lt.mpr hcb)
            · exact absurd hnil (not_lt_nil s)
          · exact ⟨rfl, hle, nofun⟩
      · -- no byte is above `0xff`
        have hb : b = 255 := not_not.mp hb
        subst hb
        rw [if_neg (not_not.mpr rfl)]
        constructor
        · rintro ⟨rfl, hle, -⟩
          exact ⟨Or.inr ⟨rfl, hle⟩, nofun⟩
        · rintro ⟨hbc | ⟨rfl, hle⟩, -⟩
          · have hc := c.toNat_lt
            have hmax : 255 < c.toNat := lt_iff_toNat_lt.mp hbc
            omega
          · exact ⟨rfl, hle, nofun⟩

end BigEndian
