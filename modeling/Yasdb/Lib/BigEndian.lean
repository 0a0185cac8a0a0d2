import Mathlib.Algebra.Ring.Nat
import Mathlib.Data.List.Induction
import Mathlib.Data.List.Lex
import Mathlib.Data.Nat.Basic

/-!
# Big-endian numbers and byte ranges

`be w n` is `n` in `w` bytes, the most significant one first, and `ofBE` reads such a number back (`ofBE_be`).
`slice data off n` is the range of `n` bytes from `off` on; `Stands v data off` says that the bytes `v` stand at `off`,
so that this range is `v` (`Stands.slice_eq`), also after more bytes have been appended (`Stands.append`).
-/

namespace BigEndian

open List Nat

/-- The last `w` base-256 digits of `n`, most significant first. -/
def be : Nat → Nat → List UInt8
  | 0, _ => []
  | w + 1, n => be w (n / 256) ++ [UInt8.ofNat n]

/-- The number that the bytes stand for. -/
def ofBE (l : List UInt8) : Nat := l.foldl (fun n b => 256 * n + b.toNat) 0

/-- A number takes as many bytes as its width. -/
@[simp] theorem length_be : ∀ w n, (be w n).length = w
  | 0, _ => rfl
  | w + 1, n => by simp [be, length_be w]

theorem ofBE_concat (l : List UInt8) (b : UInt8) : ofBE (l ++ [b]) = 256 * ofBE l + b.toNat := by
  simp [ofBE]

/-- **A number is read back** modulo the width. -/
theorem ofBE_be : ∀ w n, ofBE (be w n) = n % 256 ^ w
  | 0, n => by simp [be, ofBE, mod_one]
  | w + 1, n => by
    rw [be, ofBE_concat, ofBE_be w, pow_succ', mod_mul, UInt8.toNat_ofNat']
    omega

theorem ofBE_be_of_lt {w n : Nat} (h : n < 256 ^ w) : ofBE (be w n) = n := by
  rw [ofBE_be, mod_eq_of_lt h]

theorem ofBE_lt (l : List UInt8) : ofBE l < 256 ^ l.length := by
  induction l using List.reverseRecOn with
  | nil => exact Nat.one_pos
  | append_singleton l b ih =>
    have hb := b.toNat_lt
    rw [ofBE_concat, length_append, length_singleton, pow_succ]
    omega

/-! ## The order of bytes -/

/-- Bytes are ordered by value; byte strings then are ordered lexicographically. -/
scoped instance linearOrderByte : LinearOrder UInt8 where
  le_refl := UInt8.le_refl
  le_trans _ _ _ := UInt8.le_trans
  le_antisymm _ _ := UInt8.le_antisymm
  le_total := UInt8.le_total
  lt_iff_le_not_ge a b := by
    rw [UInt8.not_le]
    exact ⟨fun h => ⟨UInt8.le_of_lt h, h⟩, fun h => h.2⟩
  toDecidableLE := inferInstance
  toDecidableEq := inferInstance
  toDecidableLT := inferInstance

/-! ## Byte ranges -/

/-- `n` bytes from `off` on, fewer at the end. -/
def slice (data : List UInt8) (off n : Nat) : List UInt8 := (data.drop off).take n

/-- The bytes `v` stand in `data` at `off`. -/
def Stands (v data : List UInt8) (off : Nat) : Prop := v <+: data.drop off

variable {v w data : List UInt8} {off : Nat}

/-- A part of a concatenation stands in it. -/
theorem stands_append (a v b : List UInt8) : Stands v (a ++ v ++ b) a.length := by
  unfold Stands
  rw [append_assoc, drop_left]
  exact prefix_append v b

theorem length_slice (data : List UInt8) (off n : Nat) : (slice data off n).length = min n (data.length - off) := by
  rw [slice, length_take, length_drop]

theorem stands_slice (data : List UInt8) (off n : Nat) : Stands (slice data off n) data off := take_prefix _ _

section

variable (h : Stands v data off)
include h

/-- What stands somewhere is read there. -/
theorem Stands.slice_eq : slice data off v.length = v :=
  (prefix_iff_eq_take.mp h).symm

/-- It ends within the data. -/
theorem Stands.le_length (hv : v ≠ []) : off + v.length ≤ data.length := by
  have hlen := h.length_le
  rw [length_drop] at hlen
  have := length_pos_of_ne_nil hv
  omega

/-- It stays when data is added. -/
theorem Stands.append (more : List UInt8) : Stands v (data ++ more) off := by
  unfold Stands
  rw [drop_append]
  exact h.trans (prefix_append _ _)

end

/-- Parts of what stands somewhere stand there. -/
theorem Stands.part {whole : List UInt8} (h : Stands whole data off) (a v b : List UInt8) (hw : whole = a ++ v ++ b)
    {p : Nat} (hp : p = off + a.length) : Stands v data p := by
  obtain ⟨t, ht⟩ := h
  unfold Stands
  rw [hp, ← drop_drop, ← ht, hw, append_assoc, append_assoc, drop_left]
  exact prefix_append _ _

theorem Stands.getD_eq {b : UInt8} (h : Stands [b] data off) (d : UInt8) : data.getD off d = b := by
  obtain ⟨t, ht⟩ := h
  rw [getD_eq_getElem?_getD, ← add_zero off, ← getElem?_drop, ← ht]
  rfl

end BigEndian
