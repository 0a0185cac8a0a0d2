import Yasdb.Live.Cache
import Mathlib.Data.List.Chain

/-!
# The bounds of the live cache

`append` and `reset` on sequence numbers as the code has them, words of 64 bits that wrap around.

- `append_eq_appendWord`: below `2^64` this is the `append` on numbers;
- `evict_spec`: eviction keeps a suffix, counts its bytes, and ends within the bounds or with one record;
- `liveCache_invariant`: **the representation invariant**, after any calls.
-/

namespace Yasdb

open List

namespace LiveCache

/-- Payloads with consecutive sequence numbers of 64 bits. -/
def wordsFrom (firstSeq : UInt64) (payloads : List Bytes) : List (Nat × Bytes) :=
  numbersMod (2 ^ 64) firstSeq.toNat payloads

/-- `append` with sequence numbers of 64 bits. -/
def appendWord (c : LiveCache) (firstSeq : UInt64) (payloads : List Bytes) : LiveCache :=
  c.appendMod (2 ^ 64) firstSeq.toNat payloads

/-- As long as no number reaches `2^64` this is `append`. -/
theorem append_eq_appendWord {c : LiveCache} {firstSeq : UInt64} {payloads : List Bytes}
    (hnew : firstSeq.toNat + payloads.length ≤ 2 ^ 64) (hlast : ∀ r ∈ c.recs.getLast?, r.1 + 1 < 2 ^ 64) :
    c.append firstSeq.toNat payloads = c.appendWord firstSeq payloads := by
  have hwords : ∀ (ps : List Bytes) (n : Nat), n + ps.length ≤ 2 ^ 64 → numbersMod (2 ^ 64) n ps =
      numbersMod 0 n ps := by
    intro ps
    induction ps with
    | nil => exact fun _ _ => rfl
    | cons p ps ih =>
      intro n hn
      rw [length_cons] at hn
      have htail := ih (n + 1) (by omega)
      rw [numbersMod] at htail ⊢
      rw [numberFrom, map_cons, htail, Nat.mod_eq_of_lt (by omega), numbersMod, numbersMod, numberFrom, map_cons,
        Nat.mod_zero]
  rw [append, appendWord, appendMod, appendMod, hwords payloads _ hnew, kept, kept]
  cases hl : c.recs.getLast? with
  | none => rfl
  | some last =>
    dsimp only
    rw [Nat.mod_eq_of_lt (hlast last hl), Nat.mod_zero]

/-- The calls that change a cache. -/
inductive Call where
  | append (firstSeq : UInt64) (payloads : List Bytes)
  | reset

def call (c : LiveCache) : Call → LiveCache
  | .append firstSeq payloads => c.appendWord firstSeq payloads
  | .reset => c.reset

/-- The record that was appended last, since the last reset. -/
def lastAppended (last : Option (Nat × Bytes)) : Call → Option (Nat × Bytes)
  | .append firstSeq payloads => (wordsFrom firstSeq payloads).getLast?.or last
  | .reset => none

/-- The second record is the next one. -/
def Next (r r' : Nat × Bytes) : Prop := r'.1 = (r.1 + 1) % 2 ^ 64

def bytesOf (recs : List (Nat × Bytes)) : Nat := (recs.map fun r => r.2.length).sum

/-- Both bounds are kept, or there is one record at most. -/
def Bounded (maxRecs maxBytes : Int) (recs : List (Nat × Bytes)) (curBytes : Nat) : Prop :=
  1 < recs.length → (recs.length : Int) ≤ maxRecs ∧ (curBytes : Int) ≤ maxBytes

/-- The representation invariant: consecutive numbers up to the last record, the count of the bytes, the bounds. -/
structure Valid (last : Option (Nat × Bytes)) (c : LiveCache) : Prop where
  consecutive : c.recs.IsChain Next
  last : c.recs.getLast? = last
  bytes : c.curBytes = bytesOf c.recs
  bounded : Bounded c.maxRecs c.maxBytes c.recs c.curBytes

theorem bytesOf_append (a b : List (Nat × Bytes)) : bytesOf (a ++ b) = bytesOf a + bytesOf b := by
  simp [bytesOf]

theorem bytesOf_wordsFrom (firstSeq : UInt64) (payloads : List Bytes) :
    bytesOf (wordsFrom firstSeq payloads) = (payloads.map List.length).sum := by
  have h : ∀ (ps : List Bytes) (n : Nat), (numberFrom n ps).map Prod.snd = ps := by
    intro ps
    induction ps with
    | nil => exact fun _ => rfl
    | cons p ps ih => exact fun n => congrArg (p :: ·) (ih (n + 1))
  conv_rhs => rw [← h payloads firstSeq.toNat]
  simp [bytesOf, wordsFrom, numbersMod, Function.comp_def]

theorem head?_wordsFrom (firstSeq : UInt64) (p : Bytes) (payloads : List Bytes) :
    (wordsFrom firstSeq (p :: payloads)).head? = some (firstSeq.toNat, p) := by
  rw [wordsFrom, numbersMod, numberFrom, map_cons, head?_cons, Nat.mod_eq_of_lt firstSeq.toNat_lt]

theorem consecutive_wordsFrom (firstSeq : UInt64) (payloads : List Bytes) :
    (wordsFrom firstSeq payloads).IsChain Next := by
  have h : ∀ (ps : List Bytes) (n : Nat), (numberFrom n ps).IsChain fun r r' => r'.1 = r.1 + 1 := by
    intro ps
    induction ps with
    | nil => exact fun _ => isChain_nil
    | cons p ps ih =>
      intro n
      cases ps with
      | nil => exact isChain_singleton _
      | cons p' ps => exact isChain_cons_cons.mpr ⟨rfl, ih (n + 1)⟩
  refine isChain_map_of_isChain _ (fun r r' hr => ?_) (h payloads firstSeq.toNat)
  rw [Next, hr, Nat.mod_add_mod]

/-- **Eviction** keeps a suffix with the last record, and ends within the bounds. -/
theorem evict_spec (maxRecs maxBytes : Int) : ∀ {recs : List (Nat × Bytes)} {curBytes : Nat}, curBytes = bytesOf recs →
    ∃ recs' cur, evict maxRecs maxBytes recs curBytes = (recs', cur) ∧ recs' <:+ recs ∧
      recs'.getLast? = recs.getLast? ∧ cur = bytesOf recs' ∧ Bounded maxRecs maxBytes recs' cur
  | [], _, h => ⟨_, _, rfl, suffix_refl _, rfl, h, by simp [Bounded]⟩
  | [_], _, h => ⟨_, _, rfl, suffix_refl _, rfl, h, by simp [Bounded]⟩
  | r :: r' :: rs, curBytes, h => by
    rw [evict]
    split
    · have hb : curBytes - r.2.length = bytesOf (r' :: rs) := by
        rw [h]
        simp [bytesOf]
      obtain ⟨recs', cur, he, hsuf, hlast, hkeeps⟩ := evict_spec maxRecs maxBytes hb
      exact ⟨recs', cur, he, hsuf.trans (suffix_cons _ _), by rw [hlast, getLast?_cons_cons], hkeeps⟩
    · rename_i hin
      exact ⟨_, _, rfl, suffix_refl _, rfl, h, fun _ => by omega⟩

variable {c : LiveCache} {last : Option (Nat × Bytes)} (h : Valid last c) (firstSeq : UInt64)
include h

theorem Valid.kept : (c.kept (2 ^ 64) firstSeq.toNat).1.IsChain Next ∧
    (∀ r ∈ (c.kept (2 ^ 64) firstSeq.toNat).1.getLast?, firstSeq.toNat = (r.1 + 1) % 2 ^ 64) ∧
    (c.kept (2 ^ 64) firstSeq.toNat).2 = bytesOf (c.kept (2 ^ 64) firstSeq.toNat).1 := by
  unfold LiveCache.kept
  cases hl : c.recs.getLast? with
  | none =>
    refine ⟨h.consecutive, fun r hr => ?_, h.bytes⟩
    rw [hl] at hr
    cases hr
  | some r =>
    dsimp only
    split
    · exact ⟨isChain_nil, by simp, rfl⟩
    · rename_i hnext
      refine ⟨h.consecutive, fun r' hr' => ?_, h.bytes⟩
      rw [hl] at hr'
      cases hr'
      exact not_not.mp hnext

theorem Valid.append (payloads : List Bytes) :
    Valid ((wordsFrom firstSeq payloads).getLast?.or last) (c.appendWord firstSeq payloads) := by
  cases payloads with
  | nil => exact h
  | cons p payloads =>
    obtain ⟨hkept, hnext, hbytes⟩ := h.kept firstSeq
    have hhead := head?_wordsFrom firstSeq p payloads
    have hchain := isChain_append.mpr ⟨hkept, consecutive_wordsFrom firstSeq (p :: payloads), fun r hr r' hr' => by
      rw [hhead] at hr'
      cases hr'
      exact hnext r hr⟩
    have hsum : (c.kept (2 ^ 64) firstSeq.toNat).2 + ((p :: payloads).map List.length).sum =
        bytesOf ((c.kept (2 ^ 64) firstSeq.toNat).1 ++ wordsFrom firstSeq (p :: payloads)) := by
      rw [bytesOf_append, bytesOf_wordsFrom, hbytes]
    obtain ⟨recs', cur, he, hsuf, hlast, hcur, hbound⟩ := evict_spec c.maxRecs c.maxBytes hsum
    rw [appendWord, appendMod, if_neg (cons_ne_nil p payloads), ← wordsFrom, he]
    refine ⟨hchain.suffix hsuf, hlast.trans ?_, hcur, hbound⟩
    have hne : wordsFrom firstSeq (p :: payloads) ≠ [] := by
      intro he
      rw [he] at hhead
      cases hhead
    rw [getLast?_append, getLast?_eq_some_getLast hne, Option.some_or, Option.some_or]

end LiveCache

/-- **The representation invariant of the live cache**, after any calls and for any bounds: the retained records have
consecutive numbers and end with the one appended last, `curBytes` is the sum of their lengths, and more than one record
keeps to both bounds. -/
theorem liveCache_invariant (maxRecs maxBytes : Int) (calls : List LiveCache.Call) :
    LiveCache.Valid (calls.foldl LiveCache.lastAppended none)
      (calls.foldl LiveCache.call { maxRecs := maxRecs, maxBytes := maxBytes }) := by
  induction calls using List.reverseRecOn with
  | nil => exact ⟨isChain_nil, rfl, rfl, by rintro ⟨⟩⟩
  | append_singleton calls e ih =>
    rw [foldl_append, foldl_append]
    cases e with
    | append firstSeq payloads => exact ih.append firstSeq payloads
    | reset => exact ⟨isChain_nil, rfl, rfl, by rintro ⟨⟩⟩

end Yasdb
