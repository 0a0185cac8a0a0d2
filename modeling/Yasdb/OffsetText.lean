import Yasdb.Store

/-!
# Offsets on the wire

An offset is written as two fields of 16 decimal digits. A number with more digits loses the leading ones, so two
offsets have the same text exactly when their components agree modulo `10^16` (`string_eq_iff`).
-/

namespace Yasdb

open List UInt8 Nat

/-- The last `k` decimal digits of `v`. -/
def padDigits : Nat → Nat → Bytes
  | 0, _ => []
  | k + 1, v => padDigits k (v / 10) ++ [UInt8.ofNat (48 + v % 10)]

/-- Append `v` as exactly 16 zero-padded decimal digits. -/
def appendPad16 (dst : Bytes) (v : Nat) : Bytes := dst ++ padDigits 16 v

/-- Append the fixed-width wire form. -/
def appendOffset (dst : Bytes) (o : Offset) : Bytes := appendPad16 (appendPad16 dst o.seq ++ [95]) o.byte

/-- The offset in its fixed-width wire form. -/
def Offset.string (o : Offset) : Bytes := appendOffset [] o

theorem appendOffset_eq (dst : Bytes) (o : Offset) : appendOffset dst o = dst ++ o.string := by
  simp [Offset.string, appendOffset, appendPad16]

@[simp] theorem length_padDigits : ∀ k v, (padDigits k v).length = k
  | 0, _ => rfl
  | k + 1, v => by rw [padDigits, length_append, length_padDigits k, length_singleton]

theorem digit_toNat {d : Nat} (h : d < 10) : (ofNat (48 + d)).toNat = 48 + d := by
  rw [toNat_ofNat']
  omega

theorem mem_padDigits {b : UInt8} : ∀ {k v : Nat}, b ∈ padDigits k v → 48 ≤ b.toNat ∧ b.toNat ≤ 57
  | k + 1, v, h => by
    rcases mem_append.mp h with h | h
    · exact mem_padDigits h
    · rw [mem_singleton.mp h, digit_toNat (mod_lt _ (by decide))]
      omega

/-- Two numbers have the same last digits. -/
theorem padDigits_eq_iff : ∀ {k v w : Nat}, padDigits k v = padDigits k w ↔ v % 10 ^ k = w % 10 ^ k
  | 0, v, w => by simp [padDigits, mod_one]
  | k + 1, v, w => by
    have hlast : ofNat (48 + v % 10) = ofNat (48 + w % 10) ↔ v % 10 = w % 10 := by
      have hv := digit_toNat (mod_lt v (by decide : 10 > 0))
      have hw := digit_toNat (mod_lt w (by decide : 10 > 0))
      rw [← UInt8.toNat_inj, hv, hw]
      omega
    have happ : padDigits (k + 1) v = padDigits (k + 1) w ↔
        padDigits k (v / 10) = padDigits k (w / 10) ∧ v % 10 = w % 10 := by
      rw [padDigits, padDigits, ← hlast]
      constructor
      · intro h
        obtain ⟨h1, h2⟩ := append_inj h (by rw [length_padDigits, length_padDigits])
        exact ⟨h1, singleton_inj.mp h2⟩
      · rintro ⟨h1, h2⟩
        rw [h1, h2]
    rw [happ, padDigits_eq_iff, pow_succ, mul_comm (10 ^ k) 10, mod_mul, mod_mul]
    omega

theorem string_eq (o : Offset) : o.string = padDigits 16 o.seq ++ 95 :: padDigits 16 o.byte := by
  simp [Offset.string, appendOffset, appendPad16]

theorem string_eq_iff {o o' : Offset} : o.string = o'.string ↔
    o.seq % 10 ^ 16 = o'.seq % 10 ^ 16 ∧ o.byte % 10 ^ 16 = o'.byte % 10 ^ 16 := by
  rw [string_eq, string_eq, ← padDigits_eq_iff, ← padDigits_eq_iff]
  constructor
  · intro h
    obtain ⟨h1, h2⟩ := append_inj h (by simp)
    exact ⟨h1, (cons.inj h2).2⟩
  · rintro ⟨h1, h2⟩
    rw [h1, h2]

end Yasdb
