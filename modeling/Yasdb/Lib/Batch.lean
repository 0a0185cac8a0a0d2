import Mathlib.Data.Finmap

/-!
# Atomic write batches over a finite map

A store is a finite map `Finmap β` whose value type may depend on the key. A batch is a list of puts and deletes,
applied in order (`applyOps`).

- a batch changes only the keys it names (`lookup_applyOps_ne`);
- what a batch does to one key is the effect of its last operation there (`effect`, `lookup_applyOps`), so two ways
  of batching the same effects give the same store (`applyOps_ext`);
- the puts of an association list leave its lookup, whatever their order (`effect_entries`).
-/

namespace Batch

open List Option Finmap

universe u v

variable {κ : Type u} {β : κ → Type v}

/-- One mutation of a batch. -/
inductive Op (β : κ → Type v) where
  | put (k : κ) (v : β k)
  | del (k : κ)

open Op

/-- The key an operation writes. -/
def Op.key : Op β → κ
  | .put k _ => k
  | .del k => k

@[simp] theorem Op.key_put (k : κ) (v : β k) : (put k v).key = k := rfl

@[simp] theorem Op.key_del (k : κ) : (del k : Op β).key = k := rfl

variable [DecidableEq κ]

/-- One operation on a store. -/
def Op.apply (s : Finmap β) : Op β → Finmap β
  | .put k v => s.insert k v
  | .del k => s.erase k

/-- A batch on a store. -/
def applyOps (s : Finmap β) (ops : List (Op β)) : Finmap β := ops.foldl apply s

@[simp] theorem applyOps_nil (s : Finmap β) : applyOps s [] = s := rfl

@[simp] theorem applyOps_cons (s : Finmap β) (op : Op β) (ops : List (Op β)) :
    applyOps s (op :: ops) = applyOps (op.apply s) ops := rfl

theorem applyOps_append (s : Finmap β) (ops ops' : List (Op β)) :
    applyOps s (ops ++ ops') = applyOps (applyOps s ops) ops' := foldl_append

/-! ## The effect of a batch on one key -/

/-- What an operation leaves at `k`: `none` when it does not name `k`, `some none` when it deletes it. -/
@[simp] def Op.effect (k : κ) : Op β → Option (Option (β k))
  | .put k' v => if h : k' = k then some (some (h ▸ v)) else none
  | .del k' => if k' = k then some none else none

/-- What a batch leaves at `k`: the effect of its last operation on `k`. -/
def effect (k : κ) : List (Op β) → Option (Option (β k))
  | [] => none
  | op :: ops => (effect k ops).or (op.effect k)

@[simp] theorem effect_nil (k : κ) : effect k ([] : List (Op β)) = none := rfl

@[simp] theorem effect_cons (k : κ) (op : Op β) (ops : List (Op β)) :
    effect k (op :: ops) = (effect k ops).or (op.effect k) := rfl

@[simp] theorem Op.effect_put_self (k : κ) (v : β k) : (put k v).effect k = some (some v) := by
  simp [effect]

@[simp] theorem Op.effect_del_self (k : κ) : (del k : Op β).effect k = some none := by
  simp [effect]

theorem Op.effect_of_ne {op : Op β} {k : κ} (h : op.key ≠ k) : op.effect k = none := by
  cases op with
  | put k' v => exact dif_neg h
  | del k' => exact if_neg h

theorem effect_append (k : κ) : ∀ ops ops' : List (Op β), effect k (ops ++ ops') = (effect k ops').or (effect k ops)
  | [], ops' => by simp
  | op :: ops, ops' => by
    rw [cons_append, effect_cons, effect_append k ops ops', effect_cons, Option.or_assoc]

theorem effect_ne {k : κ} : ∀ {ops : List (Op β)}, (∀ op ∈ ops, op.key ≠ k) → effect k ops = none
  | [], _ => rfl
  | op :: ops, h => by
    rw [effect_cons, effect_ne fun o ho => h o (mem_cons_of_mem _ ho),
      effect_of_ne (h op mem_cons_self), or_none]

theorem ne_of_effect_none {k : κ} : ∀ {ops : List (Op β)}, effect k ops = none → ∀ op ∈ ops, op.key ≠ k
  | op :: ops, h, o, ho => by
    rw [effect_cons, or_eq_none_iff] at h
    rcases mem_cons.mp ho with rfl | ho
    · rintro rfl
      cases o with
      | put k v => rw [key_put, effect_put_self] at h; cases h.2
      | del k => rw [key_del, effect_del_self] at h; cases h.2
    · exact ne_of_effect_none h.1 o ho

/-- A value that a batch leaves is the value of one of its puts. -/
theorem mem_of_effect_put {k : κ} {v : β k} : ∀ {ops : List (Op β)}, effect k ops = some (some v) → put k v ∈ ops
  | op :: ops, h => by
    rw [effect_cons] at h
    cases hk : effect k ops with
    | some x => exact mem_cons_of_mem _ (mem_of_effect_put (by rw [hk] at h ⊢; exact h))
    | none =>
      rw [hk, none_or] at h
      cases op with
      | put k' w =>
        by_cases hkk : k' = k
        · subst hkk
          rw [effect_put_self, some.injEq, some.injEq] at h
          rw [h]
          exact mem_cons_self
        · rw [effect_of_ne (show (put k' w).key ≠ k from hkk)] at h
          cases h
      | del k' =>
        by_cases hkk : k' = k
        · subst hkk
          rw [effect_del_self] at h
          cases h
        · rw [effect_of_ne (show (del k' : Op β).key ≠ k from hkk)] at h
          cases h

theorem effect_of_class {γ : Type*} (f : κ → γ) {c : γ} {ops : List (Op β)} {k : κ} (h : ∀ op ∈ ops, f op.key = c)
    (hk : f k ≠ c) : effect k ops = none :=
  effect_ne fun op ho he => hk (he ▸ h op ho)

theorem lookup_apply (s : Finmap β) (op : Op β) (k : κ) : (op.apply s).lookup k = (op.effect k).getD (s.lookup k) := by
  cases op with
  | put k' v =>
    by_cases h : k' = k
    · subst h; simp [apply]
    · rw [show (put k' v).effect k = none from effect_of_ne h]
      exact lookup_insert_of_ne s (Ne.symm h)
  | del k' =>
    by_cases h : k' = k
    · subst h; simp [apply]
    · rw [show (del k' : Op β).effect k = none from effect_of_ne h]
      exact lookup_erase_ne (Ne.symm h)

/-- **A batch, read at one key.** -/
theorem lookup_applyOps (k : κ) : ∀ (s : Finmap β) (ops : List (Op β)),
    (applyOps s ops).lookup k = (effect k ops).getD (s.lookup k)
  | _, [] => rfl
  | s, op :: ops => by
    rw [applyOps_cons, lookup_applyOps k _ ops, lookup_apply, effect_cons]
    cases effect k ops <;> rfl

/-- **Frame.** A batch leaves every key it does not name as it was. -/
theorem lookup_applyOps_ne {s : Finmap β} {ops : List (Op β)} {k : κ} (h : ∀ op ∈ ops, op.key ≠ k) :
    (applyOps s ops).lookup k = s.lookup k := by
  rw [lookup_applyOps, effect_ne h]; rfl

theorem applyOps_ext {s : Finmap β} {ops ops' : List (Op β)} (h : ∀ k, effect k ops = effect k ops') :
    applyOps s ops = applyOps s ops' :=
  ext_lookup fun k => by rw [lookup_applyOps, lookup_applyOps, h]

theorem applyOps_overwrite (s : Finmap β) (pre post : List (Op β)) (k : κ) (v w : β k) :
    applyOps s (pre ++ [put k v] ++ (post ++ [put k w])) = applyOps s (pre ++ (post ++ [put k w])) := by
  refine applyOps_ext fun k' => ?_
  simp only [effect_append, effect_cons, effect_nil, none_or]
  by_cases h : k = k'
  · subst h
    simp
  · rw [@Op.effect_of_ne _ _ _ (put k v) k' h, none_or]

/-- The puts of an association list, at the keys that an injection gives: each key gets its value. -/
theorem effect_entries {α : Type*} [DecidableEq α] {δ : Type v} (f : α → κ) (hf : ∀ a, β (f a) = δ)
    (hinj : Function.Injective f) (a : α) : ∀ es : List (Sigma fun _ : α => δ), es.NodupKeys →
      effect (f a) (es.map fun e => put (f e.1) (cast (hf e.1).symm e.2)) =
        (es.dlookup a).map fun v => some (cast (hf a).symm v)
  | [], _ => rfl
  | ⟨b, v⟩ :: es, hn => by
    have hn' := nodupKeys_cons.mp hn
    rw [map_cons, effect_cons, effect_entries f hf hinj a es hn'.2]
    by_cases h : b = a
    · subst h
      rw [dlookup_eq_none.mpr hn'.1, dlookup_cons_eq]
      simp
    · have hne : (put (f b) (cast (hf b).symm v)).key ≠ f a := fun he => h (hinj he)
      rw [effect_of_ne hne, dlookup_cons_ne _ _ (Ne.symm h)]
      simp

end Batch
