import Mathlib.Data.List.Basic

/-!
# Reading a list of records page by page

A page holds at most `limit` symbols. `fill` cuts records where the page is full, and says how many whole records it
passed and where it stands in the next one; `gather` keeps records whole and takes the first one whatever its size.
`drain` asks for page after page until one of them is the last.

- `fill_append`: a page, followed by what is left after it, is what was left before it;
- `fill_length`, `fill_progress`, `fill_inside`, `fill_whole`: its limit, its progress and its end;
- `gather_pos`, `gather_all`: the same for whole records;
- `drain_total`: a loop over pages whose remainder shrinks ends, and its pages make up the whole.
-/

namespace Paging

open List Nat Option

universe u v w

section Fill

variable {α : Type u}

/-- What is left of the records from position `skip` of the first one on. -/
def left (skip : Nat) : List (List α) → List α
  | [] => []
  | r :: rs => r.drop skip ++ rs.flatten

@[simp] theorem left_nil (skip : Nat) : left skip ([] : List (List α)) = [] := rfl

theorem left_append (skip : Nat) {xs : List (List α)} (h : xs ≠ []) (ys : List (List α)) :
    left skip (xs ++ ys) = left skip xs ++ ys.flatten := by
  cases xs with
  | nil => exact absurd rfl h
  | cons x xs => simp [left]

@[simp] theorem left_zero (rs : List (List α)) : left 0 rs = rs.flatten := by
  cases rs <;> simp [left]

/-- Fill a page, which holds `buf` so far. The result is the page, the number of records passed, and the position in
the next record. -/
def fill (limit : Nat) : List α → Nat → List (List α) → List α × Nat × Nat
  | buf, skip, [] => (buf, 0, skip)
  | buf, skip, r :: rs =>
    if buf.length < limit then
      if (r.drop skip).length ≤ limit - buf.length then
        let out := fill limit (buf ++ r.drop skip) 0 rs
        (out.1, out.2.1 + 1, out.2.2)
      else (buf ++ (r.drop skip).take (limit - buf.length), 0, skip + (limit - buf.length))
    else (buf, 0, skip)

section Cases

variable {limit : Nat} {buf : List α} (hroom : buf.length < limit) {skip : Nat} {r : List α} {rs : List (List α)}

include hroom

theorem fill_fit (hfit : (r.drop skip).length ≤ limit - buf.length) : fill limit buf skip (r :: rs) =
    ((fill limit (buf ++ r.drop skip) 0 rs).1, (fill limit (buf ++ r.drop skip) 0 rs).2.1 + 1,
      (fill limit (buf ++ r.drop skip) 0 rs).2.2) := by
  rw [fill, if_pos hroom, if_pos hfit]

theorem fill_cut (hfit : ¬(r.drop skip).length ≤ limit - buf.length) : fill limit buf skip (r :: rs) =
    (buf ++ (r.drop skip).take (limit - buf.length), 0, skip + (limit - buf.length)) := by
  rw [fill, if_pos hroom, if_neg hfit]

end Cases

theorem fill_full {limit : Nat} {buf : List α} (hroom : ¬buf.length < limit) (skip : Nat) (rs : List (List α)) :
    fill limit buf skip rs = (buf, 0, skip) := by
  cases rs with
  | nil => rfl
  | cons r rs => rw [fill, if_neg hroom]

/-- **Nothing is lost and nothing is repeated.** -/
theorem fill_append (limit : Nat) : ∀ (rs : List (List α)) (buf : List α) (skip : Nat),
    (fill limit buf skip rs).1 ++ left (fill limit buf skip rs).2.2 (rs.drop (fill limit buf skip rs).2.1) =
      buf ++ left skip rs
  | [], buf, skip => by simp [fill]
  | r :: rs, buf, skip => by
    by_cases hroom : buf.length < limit
    · by_cases hfit : (r.drop skip).length ≤ limit - buf.length
      · have ih := fill_append limit rs (buf ++ r.drop skip) 0
        rw [left_zero] at ih
        rw [fill_fit hroom hfit, drop_succ_cons, ih, append_assoc]
        rfl
      · have hcut : (r.drop skip).take (limit - buf.length) ++ r.drop (skip + (limit - buf.length)) = r.drop skip := by
          rw [← drop_drop, take_append_drop]
        rw [fill_cut hroom hfit]
        simp only [drop_zero, left, append_assoc]
        rw [← append_assoc (List.take _ _), hcut]
    · rw [fill_full hroom, drop_zero]

theorem fill_length (limit : Nat) : ∀ (rs : List (List α)) (buf : List α) (skip : Nat), buf.length ≤ limit →
    (fill limit buf skip rs).1.length ≤ limit
  | [], _, _, h => h
  | r :: rs, buf, skip, h => by
    by_cases hroom : buf.length < limit
    · by_cases hfit : (r.drop skip).length ≤ limit - buf.length
      · rw [fill_fit hroom hfit]
        exact fill_length limit rs (buf ++ r.drop skip) 0 (by rw [length_append]; omega)
      · rw [fill_cut hroom hfit, length_append, length_take]
        omega
    · rw [fill_full hroom]
      exact h

/-- A page ends within a record, or at the end of the last one. -/
theorem fill_inside (limit : Nat) : ∀ (rs : List (List α)) (buf : List α) (skip : Nat), rs ≠ [] →
    (fill limit buf skip rs).2.1 < rs.length ∨
      ((fill limit buf skip rs).2.1 = rs.length ∧ (fill limit buf skip rs).2.2 = 0)
  | [], _, _, h => absurd rfl h
  | r :: rs, buf, skip, _ => by
    by_cases hroom : buf.length < limit
    · by_cases hfit : (r.drop skip).length ≤ limit - buf.length
      · rw [fill_fit hroom hfit, length_cons]
        cases rs with
        | nil => exact Or.inr ⟨rfl, rfl⟩
        | cons r' rs =>
          rcases fill_inside limit (r' :: rs) (buf ++ r.drop skip) 0 (cons_ne_nil _ _) with h | ⟨h, h'⟩
          · exact Or.inl (succ_lt_succ h)
          · exact Or.inr ⟨congrArg (· + 1) h, h'⟩
      · rw [fill_cut hroom hfit]
        exact Or.inl (succ_pos _)
    · rw [fill_full hroom]
      exact Or.inl (succ_pos _)

theorem fill_progress {limit : Nat} {buf : List α} (hroom : buf.length < limit) (skip : Nat) (r : List α)
    (rs : List (List α)) :
    0 < (fill limit buf skip (r :: rs)).2.1 ∨ buf.length < (fill limit buf skip (r :: rs)).1.length := by
  by_cases hfit : (r.drop skip).length ≤ limit - buf.length
  · rw [fill_fit hroom hfit]
    exact Or.inl (succ_pos _)
  · right
    rw [fill_cut hroom hfit, length_append, length_take]
    omega

theorem fill_position (limit : Nat) {bound : Nat} : ∀ (rs : List (List α)) (buf : List α) (skip : Nat),
    (∀ r ∈ rs, r.length ≤ bound) → skip < bound → (fill limit buf skip rs).2.2 < bound
  | [], _, _, _, hskip => hskip
  | r :: rs, buf, skip, hrs, hskip => by
    by_cases hroom : buf.length < limit
    · by_cases hfit : (r.drop skip).length ≤ limit - buf.length
      · rw [fill_fit hroom hfit]
        exact fill_position limit rs _ 0 (fun r' h => hrs r' (mem_cons_of_mem _ h)) (by omega)
      · have hr := hrs r mem_cons_self
        rw [fill_cut hroom hfit]
        rw [length_drop] at hfit
        dsimp only
        omega
    · rw [fill_full hroom]
      exact hskip

theorem fill_whole (limit : Nat) : ∀ (rs : List (List α)) (buf : List α), (buf ++ rs.flatten).length < limit →
    fill limit buf 0 rs = (buf ++ rs.flatten, rs.length, 0)
  | [], buf, _ => by simp [fill]
  | r :: rs, buf, h => by
    simp only [flatten_cons, length_append] at h
    have hroom : buf.length < limit := by omega
    have hfit : (r.drop 0).length ≤ limit - buf.length := by rw [drop_zero]; omega
    have ih := fill_whole limit rs (buf ++ r) (by simp only [length_append]; omega)
    rw [fill_fit hroom hfit, drop_zero, ih, append_assoc, flatten_cons, length_cons]

end Fill

section Gather

variable {α : Type u}

/-- The number of whole records of a page that holds `total` symbols so far, and a record if `held`. -/
def gather (limit : Nat) : Bool → Nat → List (List α) → Nat
  | _, _, [] => 0
  | held, total, r :: rs =>
    if held ∧ limit < total + r.length then 0
    else if limit ≤ total + r.length then 1
    else gather limit true (total + r.length) rs + 1

theorem gather_le (limit : Nat) : ∀ (rs : List (List α)) (held : Bool) (total : Nat),
    gather limit held total rs ≤ rs.length
  | [], _, _ => Nat.le_refl _
  | r :: rs, held, total => by
    unfold gather
    have ih := gather_le limit rs true (total + r.length)
    split
    · exact zero_le _
    · split
      · simp
      · simpa using ih

/-- The first record is taken whatever its size. -/
theorem gather_pos (limit total : Nat) (r : List α) (rs : List (List α)) : 0 < gather limit false total (r :: rs) := by
  unfold gather
  rw [if_neg (fun h => by cases h.1)]
  split <;> exact succ_pos _

theorem gather_all (limit : Nat) : ∀ (rs : List (List α)) (held : Bool) (total : Nat),
    total + rs.flatten.length < limit → gather limit held total rs = rs.length
  | [], _, _, _ => rfl
  | r :: rs, held, total, h => by
    simp only [flatten_cons, length_append] at h
    rw [gather, if_neg (by omega), if_neg (by omega), gather_all limit rs true (total + r.length) (by omega)]
    rfl

end Gather

section Drain

variable {σ : Type u} {β : Type v} {γ : Type w}

/-- Ask for pages until one of them is the last, at most `fuel` times. -/
def drain (page : σ → Option (β × σ × Bool)) : Nat → σ → Option (List β)
  | 0, _ => none
  | fuel + 1, s =>
    match page s with
    | none => none
    | some (b, _, true) => some [b]
    | some (b, s', false) => (drain page fuel s').map (b :: ·)

theorem drain_map {δ : Type w} {page : σ → Option (β × σ × Bool)} {page' : σ → Option (δ × σ × Bool)} (f : β → δ)
    (h : ∀ s, page' s = (page s).map fun t => (f t.1, t.2)) : ∀ (fuel : Nat) (s : σ),
    drain page' fuel s = (drain page fuel s).map (List.map f)
  | 0, _ => rfl
  | fuel + 1, s => by
    rw [drain, drain, h s]
    cases page s with
    | none => rfl
    | some t =>
      obtain ⟨b, s', last⟩ := t
      cases last with
      | true => rfl
      | false =>
        simp only [map_some]
        rw [drain_map f h fuel s', Option.map_map, Option.map_map]
        rfl

/-- One page of a loop over the positions `Good`, `out` being what a page delivers and `rest` what is left. -/
structure Turn (page : σ → Option (β × σ × Bool)) (Good : σ → Prop) (Fits : β → Prop) (out : β → List γ)
    (rest : σ → List γ) (size : σ → Nat) (s : σ) (b : β) (s' : σ) (last : Bool) : Prop where
  page : page s = some (b, s', last)
  fits : Fits b
  append : out b ++ rest s' = rest s
  done : last = true → rest s' = []
  good : last = false → Good s'
  shrinks : last = false → size s' < size s

/-- **The loop ends**, and its pages make up what was left. -/
theorem drain_total {page : σ → Option (β × σ × Bool)} {Good : σ → Prop} {Fits : β → Prop} {out : β → List γ}
    {rest : σ → List γ} {size : σ → Nat}
    (turn : ∀ s, Good s → ∃ b s' last, Turn page Good Fits out rest size s b s' last) :
    ∀ (fuel : Nat) (s : σ), Good s → size s < fuel →
      ∃ bs, drain page fuel s = some bs ∧ bs.flatMap out = rest s ∧ ∀ b ∈ bs, Fits b
  | 0, _, _, h => absurd h (not_lt_zero _)
  | fuel + 1, s, hs, h => by
    obtain ⟨b, s', last, t⟩ := turn s hs
    have happ := t.append
    cases last with
    | true =>
      refine ⟨[b], by simp [drain, t.page], ?_, by simpa using t.fits⟩
      simpa [t.done rfl] using happ
    | false =>
      have hlt := t.shrinks rfl
      obtain ⟨bs, hbs, hout, hfits⟩ := drain_total turn fuel s' (t.good rfl) (by omega)
      refine ⟨b :: bs, by simp [drain, t.page, hbs], ?_, ?_⟩
      · rw [flatMap_cons, hout, happ]
      · intro x hx
        rcases mem_cons.mp hx with rfl | hx
        · exact t.fits
        · exact hfits x hx

end Drain

end Paging
