import Yasdb.Server.ForkPosition
import Yasdb.Lib.ByteOrder

/-!
# Offset tokens

The digit loop of `appendPad16` against the library parser that `parseOffset` calls.

- `padDigits_parseUint`: **what the parser read, the loop writes again**;
- `string_lt_iff`: tokens are ordered as the offsets they stand for;
- `offset_tokens_faithful`: **a text other than a sentinel is accepted exactly when it is a token**, and reading a token
  and writing an offset undo each other.
-/

namespace Yasdb

open BigEndian List Nat UInt8

variable {s : Bytes}

/-! ## One field -/

/-- Decimal digits only. -/
def Digits (s : Bytes) : Prop := ∀ b ∈ s, 48 ≤ b ∧ b ≤ 57

theorem digits_padDigits (k v : Nat) : Digits (padDigits k v) := by
  intro b hb
  rw [le_iff_toNat_le, le_iff_toNat_le]
  exact mem_padDigits hb

/-- What was read is written again, digit by digit. -/
theorem padDigits_foldlM : ∀ {v : Nat},
    s.foldlM (fun n b => (digit b).map fun d => n * 10 + d) 0 = some v → padDigits s.length v = s := by
  -- from the right: the last digit is the remainder, the digits before it are the quotient's
  induction s using List.reverseRecOn with
  | nil => exact fun _ => rfl
  | append_singleton s b ih =>
    intro v h
    rw [foldlM_append] at h
    obtain ⟨n, hn, h⟩ := Option.bind_eq_some_iff.mp h
    obtain ⟨d, hd, rfl⟩ : ∃ d, digit b = some d ∧ n * 10 + d = v := by simpa using h
    have hlt := digit_lt hd
    have hb : ofNat (48 + d) = b := by
      unfold digit at hd
      split at hd
      · rename_i hle
        rw [le_iff_toNat_le, le_iff_toNat_le] at hle
        cases hd
        rw [← UInt8.toNat_inj, digit_toNat hlt]
        exact Nat.add_sub_cancel' hle.1
      · cases hd
    have hq : (n * 10 + d) / 10 = n := by omega
    have hr : (n * 10 + d) % 10 = d := by omega
    rw [length_append, length_singleton, padDigits, hq, hr, ih hn, hb]

theorem padDigits_parseUint {v : Nat} (h : parseUint s = some v) : padDigits s.length v = s := by
  unfold parseUint at h
  split at h
  · cases h
  · exact padDigits_foldlM (Option.filter_eq_some_iff.mp h).1

/-- Digits are read as the number they stand for. -/
theorem foldlM_digits : ∀ {s : Bytes} (n : Nat), Digits s →
    s.foldlM (fun n b => (digit b).map fun d => n * 10 + d) n = some (s.foldl (fun n b => 10 * n + (b.toNat - 48)) n)
  | [], n, _ => rfl
  | b :: s, n, h => by
    have hb : digit b = some (b.toNat - 48) := if_pos (h b mem_cons_self)
    rw [foldlM_cons, hb, foldl_cons, mul_comm 10 n]
    exact foldlM_digits _ fun c hc => h c (mem_cons_of_mem b hc)

/-- Digits are those of a number. -/
theorem Digits.eq_padDigits (h : Digits s) : ∃ v, s = padDigits s.length v :=
  ⟨_, (padDigits_foldlM (foldlM_digits 0 h)).symm⟩

/-- The digits of numbers below the limit are compared as the numbers. -/
theorem padDigits_lt_iff : ∀ {k v w : Nat}, v < 10 ^ k → w < 10 ^ k → (padDigits k v < padDigits k w ↔ v < w)
  | 0, v, w, hv, hw => by
    have hz : v = w := by
      rw [pow_zero] at hv hw
      omega
    simp [hz]
  | k + 1, v, w, hv, hw => by
    rw [pow_succ] at hv hw
    have hv' : v / 10 < 10 ^ k := Nat.div_lt_of_lt_mul (by omega)
    have hw' : w / 10 < 10 ^ k := Nat.div_lt_of_lt_mul (by omega)
    have hlast : [ofNat (48 + v % 10)] < [ofNat (48 + w % 10)] ↔ v % 10 < w % 10 := by
      rw [cons_lt_cons_iff, lt_iff_toNat_lt, digit_toNat (mod_lt v (by decide)),
        digit_toNat (mod_lt w (by decide))]
      simp
    rw [padDigits, padDigits, append_lt_append (by simp), padDigits_lt_iff hv' hw', padDigits_eq_iff,
      mod_eq_of_lt hv', mod_eq_of_lt hw', hlast]
    omega

/-! ## The token -/

/-- The texts with a meaning of their own. -/
def sentinels : List Bytes := [[], ascii "-1", ascii "now"]

/-- 16 digits, an underscore, and 16 digits. -/
def IsToken (s : Bytes) : Prop := ∃ a b, s = a ++ 95 :: b ∧ a.length = 16 ∧ b.length = 16 ∧ Digits a ∧ Digits b

/-- The order of positions in a stream. -/
def Offset.Before (o o' : Offset) : Prop := o.seq < o'.seq ∨ o.seq = o'.seq ∧ o.byte < o'.byte

/-- The tokens are the texts of offsets. -/
theorem token_iff : IsToken s ↔ ∃ o : Offset, o.string = s := by
  constructor
  · rintro ⟨a, b, rfl, ha, hb, hda, hdb⟩
    obtain ⟨v, hv⟩ := hda.eq_padDigits
    obtain ⟨w, hw⟩ := hdb.eq_padDigits
    rw [ha] at hv
    rw [hb] at hw
    exact ⟨⟨v, w⟩, by rw [string_eq, hv, hw]⟩
  · rintro ⟨o, rfl⟩
    exact ⟨_, _, string_eq o, length_padDigits 16 _, length_padDigits 16 _, digits_padDigits 16 _,
      digits_padDigits 16 _⟩

theorem string_not_sentinel (o : Offset) : o.string ∉ sentinels := by
  intro hmem
  have hshort : ∀ t ∈ sentinels, t.length ≤ 3 := by decide
  have := hshort _ hmem
  rw [length_string] at this
  omega

/-- What is accepted beside the sentinels is the text of the offset it is read as. -/
theorem string_of_parseOffset {r : ParsedOffset} (hs : s ∉ sentinels) (h : parseOffset s = some r) :
    ∃ o : Offset, r = .off o ∧ o.string = s := by
  have h0 : ¬ (s = [] ∨ s = ascii "-1") := by
    rintro (rfl | rfl)
    · exact hs (by decide)
    · exact hs (by decide)
  have h1 : s ≠ ascii "now" := by
    rintro rfl
    exact hs (by decide)
  rw [parseOffset, if_neg h0, if_neg h1] at h
  split at h
  · cases h
  · rename_i hok
    have hlen : s.length = 33 := by
      by_contra hne
      exact hok (.inl hne)
    have hat : s[16]? = some 95 := by
      by_contra hne
      exact hok (.inr hne)
    split at h
    · rename_i seq byte hseq hbyte
      cases h
      have hwa := padDigits_parseUint hseq
      have hwb := padDigits_parseUint hbyte
      rw [length_take, hlen] at hwa
      rw [length_drop, hlen] at hwb
      obtain ⟨hlt, hget⟩ := List.getElem?_eq_some_iff.mp hat
      refine ⟨⟨seq, byte⟩, rfl, ?_⟩
      calc Offset.string ⟨seq, byte⟩ = s.take 16 ++ 95 :: s.drop 17 := by rw [string_eq, ← hwa, ← hwb]; rfl
        _ = s := by rw [← hget, ← drop_eq_getElem_cons hlt, take_append_drop]
    · cases h

theorem string_lt_iff {o o' : Offset} (h : o.Fits) (h' : o'.Fits) : o.string < o'.string ↔ o.Before o' := by
  have hmid : ∀ {x y : Bytes}, 95 :: x < 95 :: y ↔ x < y := by
    intro x y
    rw [cons_lt_cons_iff]
    simp
  rw [string_eq, string_eq, append_lt_append (by simp), hmid, padDigits_lt_iff h.1 h'.1, padDigits_lt_iff h.2 h'.2,
    padDigits_eq_iff, mod_eq_of_lt h.1, mod_eq_of_lt h'.1]
  rfl

/-- **Tokens are a faithful ordered encoding of offsets**, and nothing else but the sentinels is accepted. -/
theorem offset_tokens_faithful :
    (∀ o : Offset, o.Fits → parseOffset o.string = some (.off o) ∧ o.string ∉ sentinels) ∧
    (∀ o o' : Offset, o.Fits → o'.Fits → (o.string < o'.string ↔ o.Before o')) ∧
    ∀ s, s ∉ sentinels → ((∃ r, parseOffset s = some r) ↔ IsToken s) ∧
      ∀ r, parseOffset s = some r → ∃ o : Offset, r = .off o ∧ o.string = s := by
  refine ⟨fun o h => ⟨?_, string_not_sentinel o⟩, fun o o' h h' => string_lt_iff h h', fun s hs => ⟨?_, ?_⟩⟩
  · rw [parseOffset_string, Nat.mod_eq_of_lt h.1, Nat.mod_eq_of_lt h.2]
  · rw [token_iff]
    constructor
    · rintro ⟨r, hr⟩
      obtain ⟨o, -, hstr⟩ := string_of_parseOffset hs hr
      exact ⟨o, hstr⟩
    · rintro ⟨o, rfl⟩
      exact ⟨_, parseOffset_string o⟩
  · exact fun r hr => string_of_parseOffset hs hr

theorem offset_tokens_faithful_sample :
    parseOffset (Offset.string ⟨42, 7⟩) = some (.off ⟨42, 7⟩) ∧ Offset.string ⟨9, 7⟩ < Offset.string ⟨10, 0⟩ :=
  ⟨(offset_tokens_faithful.1 ⟨42, 7⟩ ⟨by decide, by decide⟩).1,
    (offset_tokens_faithful.2.1 ⟨9, 7⟩ ⟨10, 0⟩ ⟨by decide, by decide⟩ ⟨by decide, by decide⟩).mpr
      (.inl (by decide))⟩

end Yasdb
