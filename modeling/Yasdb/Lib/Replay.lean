import Mathlib.Data.List.Forall2
import Mathlib.Data.List.Sort
import Yasdb.Lib.Batch

/-!
# Replaying numbered batches

A log of batches with numbers is replayed in the order of the numbers (`replay`), whatever the order in which it is
read (`replay_perm`). A batch that shares no key with any batch of a larger number may as well come last
(`replay_cons`).

Two stores whose values correspond under a relation (`MapRel`) stay so under batches that correspond (`OpRel`), or that
have corresponding effects on each key (`MapRel.applyOps`).
-/

namespace Batch

open List Option

universe u v w

variable {κ : Type u} {β : κ → Type v} {γ : κ → Type w}

/-! ## Corresponding batches -/

section Options

variable {α : Type*} {α' : Type*} {P : α → α' → Prop}

theorem rel_or {a c : Option α} {b d : Option α'} (h : Rel P a b) (h' : Rel P c d) : Rel P (a.or c) (b.or d) := by
  cases h with
  | some h => exact .some h
  | none => exact h'

theorem rel_getD {a : Option (Option α)} {b : Option (Option α')} {c : Option α} {d : Option α'}
    (h : Rel (Rel P) a b) (h' : Rel P c d) : Rel P (a.getD c) (b.getD d) := by
  cases h with
  | some h => exact h
  | none => exact h'

theorem rel_isSome {a : Option α} {b : Option α'} (h : Rel P a b) : a.isSome = b.isSome := by
  cases h <;> rfl

end Options

section Rel

variable (R : ∀ k, β k → γ k → Prop)

/-- Operations of the same kind on the same key, with corresponding values. -/
inductive OpRel : Op β → Op γ → Prop
  | put {k : κ} {v : β k} {w : γ k} (h : R k v w) : OpRel (.put k v) (.put k w)
  | del (k : κ) : OpRel (.del k) (.del k)

/-- The same keys, with corresponding values. -/
def MapRel (s : Finmap β) (t : Finmap γ) [DecidableEq κ] : Prop := ∀ k, Rel (R k) (s.lookup k) (t.lookup k)

/-- Corresponding effects on a key. -/
abbrev EffectRel (k : κ) : Option (Option (β k)) → Option (Option (γ k)) → Prop := Rel (Rel (R k))

variable {R} [DecidableEq κ]

theorem mapRel_empty : MapRel R (∅ : Finmap β) (∅ : Finmap γ) := fun k => by
  rw [Finmap.lookup_empty, Finmap.lookup_empty]
  exact .none

theorem OpRel.effect {op : Op β} {op' : Op γ} (h : OpRel R op op') (k : κ) :
    EffectRel R k (op.effect k) (op'.effect k) := by
  cases h with
  | @put k' v w h =>
    by_cases hk : k' = k
    · subst hk
      rw [Op.effect_put_self, Op.effect_put_self]
      exact .some (.some h)
    · rw [Op.effect_of_ne (show (Op.put k' v).key ≠ k from hk), Op.effect_of_ne (show (Op.put k' w).key ≠ k from hk)]
      exact .none
  | del k' =>
    by_cases hk : k' = k
    · subst hk
      rw [Op.effect_del_self, Op.effect_del_self]
      exact .some .none
    · rw [Op.effect_of_ne (show (Op.del k' : Op β).key ≠ k from hk),
        Op.effect_of_ne (show (Op.del k' : Op γ).key ≠ k from hk)]
      exact .none

theorem effectRel_of_forall₂ {ops : List (Op β)} {ops' : List (Op γ)} (h : List.Forall₂ (OpRel R) ops ops') (k : κ) :
    EffectRel R k (effect k ops) (effect k ops') := by
  induction h with
  | nil => exact .none
  | cons ho _ ih =>
    rw [effect_cons, effect_cons]
    exact rel_or ih (ho.effect k)

/-- **Corresponding stores stay so** under batches with corresponding effects. -/
theorem MapRel.applyOps {s : Finmap β} {t : Finmap γ} (h : MapRel R s t) {ops : List (Op β)} {ops' : List (Op γ)}
    (he : ∀ k, EffectRel R k (effect k ops) (effect k ops')) :
    MapRel R (Batch.applyOps s ops) (Batch.applyOps t ops') := by
  intro k
  rw [lookup_applyOps, lookup_applyOps]
  exact rel_getD (he k) (h k)

theorem MapRel.keys_eq {s : Finmap β} {t : Finmap γ} (h : MapRel R s t) : s.keys = t.keys := by
  ext k
  rw [Finmap.mem_keys, Finmap.mem_keys, ← Finmap.lookup_isSome, ← Finmap.lookup_isSome, rel_isSome (h k)]

end Rel

/-! ## Sorting by numbers -/

section Sorting

variable {α : Type*} {α' : Type*} {P : α → α' → Prop} {f : α → ℕ} {g : α' → ℕ}

theorem forall₂_orderedInsert (hP : ∀ a b, P a b → f a = g b) {a : α} {b : α'} (hab : P a b) {l : List α}
    {l' : List α'} (h : List.Forall₂ P l l') :
    List.Forall₂ P (l.orderedInsert (fun x y => f x ≤ f y) a) (l'.orderedInsert (fun x y => g x ≤ g y) b) := by
  induction h with
  | nil => exact .cons hab .nil
  | @cons x y l l' hxy hl ih =>
    simp only [orderedInsert_cons, hP a b hab, hP x y hxy]
    split
    · exact .cons hab (.cons hxy hl)
    · exact .cons hxy ih

theorem forall₂_insertionSort (hP : ∀ a b, P a b → f a = g b) {l : List α} {l' : List α'}
    (h : List.Forall₂ P l l') :
    List.Forall₂ P (l.insertionSort fun x y => f x ≤ f y) (l'.insertionSort fun x y => g x ≤ g y) := by
  induction h with
  | nil => exact .nil
  | cons hab _ ih => exact forall₂_orderedInsert hP hab ih

end Sorting

/-! ## Replay -/

/-- The batches in the order of their numbers. -/
def byNumber (recs : List (ℕ × List (Op β))) : List (ℕ × List (Op β)) := recs.insertionSort fun r r' => r.1 ≤ r'.1

theorem pairwise_byNumber (recs : List (ℕ × List (Op β))) : (byNumber recs).Pairwise fun r r' => r.1 ≤ r'.1 := by
  have : Std.Total fun r r' : ℕ × List (Op β) => r.1 ≤ r'.1 := ⟨fun r r' => Nat.le_total r.1 r'.1⟩
  have : IsTrans (ℕ × List (Op β)) fun r r' => r.1 ≤ r'.1 := ⟨fun _ _ _ => Nat.le_trans⟩
  exact pairwise_insertionSort _ recs

variable [DecidableEq κ]

/-- The store that numbered batches leave. -/
def replay (recs : List (ℕ × List (Op β))) : Finmap β := applyOps ∅ ((byNumber recs).flatMap Prod.snd)

/-- **The order of reading does not matter**, if no number occurs twice. -/
theorem replay_perm {recs recs' : List (ℕ × List (Op β))} (hnd : (recs.map Prod.fst).Nodup) (hp : recs.Perm recs') :
    replay recs = replay recs' := by
  have hsort : byNumber recs = byNumber recs' := by
    refine List.Perm.eq_of_pairwise (fun r r' hr hr' h1 h2 => ?_) (pairwise_byNumber recs) (pairwise_byNumber recs')
      ((perm_insertionSort _ recs).trans (hp.trans (perm_insertionSort _ recs').symm))
    have hr := (perm_insertionSort _ recs).mem_iff.mp hr
    have hr' := hp.mem_iff.mpr ((perm_insertionSort _ recs').mem_iff.mp hr')
    exact inj_on_of_nodup_map hnd hr hr' (Nat.le_antisymm h1 h2)
  unfold replay
  rw [hsort]

/-- **A batch that shares no key with a batch of a larger number** may as well come last. -/
theorem replay_cons {r : ℕ × List (Op β)} {recs : List (ℕ × List (Op β))}
    (h : ∀ r' ∈ recs, r.1 ≤ r'.1 → ∀ op ∈ r.2, ∀ op' ∈ r'.2, op'.key ≠ op.key) :
    replay (r :: recs) = applyOps (replay recs) r.2 := by
  have hsplit : byNumber (r :: recs) = (byNumber recs).takeWhile (fun r' => decide ¬ r.1 ≤ r'.1) ++
      r :: (byNumber recs).dropWhile (fun r' => decide ¬ r.1 ≤ r'.1) := orderedInsert_eq_take_drop _ r (byNumber recs)
  have hjoin := takeWhile_append_dropWhile (p := fun r' => decide ¬ r.1 ≤ r'.1) (l := byNumber recs)
  generalize (byNumber recs).takeWhile (fun r' => decide ¬ r.1 ≤ r'.1) = early at hsplit hjoin
  generalize hlate : (byNumber recs).dropWhile (fun r' => decide ¬ r.1 ≤ r'.1) = late at hsplit hjoin
  -- the batches sorted after `r` share no key with it
  have hlater : ∀ r' ∈ late, ∀ op ∈ r.2, ∀ op' ∈ r'.2, op'.key ≠ op.key := by
    intro r' hr'
    refine h r' ((perm_insertionSort _ recs).mem_iff.mp (hjoin ▸ mem_append_right _ hr')) ?_
    have hsorted : late.Pairwise fun r r' => r.1 ≤ r'.1 := by
      have := pairwise_byNumber recs
      rw [← hjoin] at this
      exact (pairwise_append.mp this).2.1
    cases hl : late with
    | nil => rw [hl] at hr'; cases hr'
    | cons first rest =>
      have hfirst : r.1 ≤ first.1 := by
        have hhead := head?_dropWhile_not (fun r' => decide ¬ r.1 ≤ r'.1) (byNumber recs)
        rw [hlate, hl] at hhead
        simpa using hhead
      rw [hl] at hr' hsorted
      rcases mem_cons.mp hr' with rfl | hr'
      · exact hfirst
      · exact hfirst.trans ((pairwise_cons.mp hsorted).1 r' hr')
  unfold replay
  rw [hsplit, ← hjoin, ← applyOps_append]
  refine applyOps_ext fun k => ?_
  simp only [flatMap_append, flatMap_cons, effect_append]
  cases hk : effect k r.2 with
  | none => simp
  | some e =>
    have hnone : effect k (late.flatMap Prod.snd) = none := by
      refine effect_ne fun op' hop' he => ?_
      obtain ⟨r', hr', hop'⟩ := mem_flatMap.mp hop'
      have hname : ∃ op ∈ r.2, op.key = k := by
        by_contra hno
        rw [effect_ne fun op ho hke => hno ⟨op, ho, hke⟩] at hk
        cases hk
      obtain ⟨op, ho, hke⟩ := hname
      exact hlater r' hr' op ho op' hop' (he.trans hke.symm)
    rw [hnone]
    simp

end Batch
