import Mathlib.Logic.Relation

/-!
# Runs of a partial step function

A system is a step function `step : σ → ε → Option σ`: an event `e` is enabled in `s` when `step s e` is defined. A
condition `C : σ → ε → Prop` restricts the steps of a run; `Reach step C s s'` says that a run from `s` whose steps all
meet `C` ends in `s'`.

- `Reach.invariant`: what every step keeps holds in every state reached;
- `Reach.related`: a preorder that every step respects relates the ends of a run;
- `reach_of_run`, `reach_guarded`: evaluating a list of events yields a state that is reached.
-/

namespace Runs

open Relation

universe u v

variable {σ : Type u} {ε : Type v} (step : σ → ε → Option σ)

/-- The steps that meet a condition. -/
def guarded (C : σ → ε → Prop) [∀ s e, Decidable (C s e)] (s : σ) (e : ε) : Option σ := if C s e then step s e else none

/-- The state after a list of events, if each of them is enabled in its turn. -/
def run : σ → List ε → Option σ
  | s, [] => some s
  | s, e :: es => (step s e).bind (run · es)

/-- One step that meets the condition. -/
def Step (C : σ → ε → Prop) (s s' : σ) : Prop := ∃ e, C s e ∧ step s e = some s'

/-- `s'` is reached from `s` by steps that all meet the condition. -/
def Reach (C : σ → ε → Prop) : σ → σ → Prop := Relation.ReflTransGen (Step step C)

/-- Every step is allowed. -/
def Any : σ → ε → Prop := fun _ _ => True

variable {step} {C : σ → ε → Prop}

theorem Reach.refl (s : σ) : Reach step C s s := ReflTransGen.refl

theorem Reach.tail {s s₁ s₂ : σ} {e : ε} (h : Reach step C s s₁) (hc : C s₁ e) (he : step s₁ e = some s₂) :
    Reach step C s s₂ := ReflTransGen.tail h ⟨e, hc, he⟩

theorem Reach.trans {s s₁ s₂ : σ} (h : Reach step C s s₁) (h' : Reach step C s₁ s₂) : Reach step C s s₂ :=
  ReflTransGen.trans h h'

/-- **The invariant rule.** -/
theorem Reach.invariant {P : σ → Prop} (hstep : ∀ s e s', P s → C s e → step s e = some s' → P s') {s s' : σ}
    (h : Reach step C s s') (h0 : P s) : P s' := by
  induction h with
  | refl => exact h0
  | tail _ h ih =>
    obtain ⟨e, hc, he⟩ := h
    exact hstep _ e _ ih hc he

/-- **The rule for two states of a run**: a preorder that every step from an invariant state respects. -/
theorem Reach.related {P : σ → Prop} {R : σ → σ → Prop} (hrefl : ∀ s, R s s)
    (htrans : ∀ s₁ s₂ s₃, R s₁ s₂ → R s₂ s₃ → R s₁ s₃)
    (hstep : ∀ s e s', P s → C s e → step s e = some s' → P s' ∧ R s s') {s s' : σ} (h : Reach step C s s')
    (h0 : P s) : R s s' := by
  have : P s' ∧ R s s' := by
    induction h with
    | refl => exact ⟨h0, hrefl s⟩
    | tail _ h ih =>
      obtain ⟨e, hc, he⟩ := h
      obtain ⟨hp, hr⟩ := hstep _ e _ ih.1 hc he
      exact ⟨hp, htrans _ _ _ ih.2 hr⟩
  exact this.2

theorem Reach.mono {C' : σ → ε → Prop} (hC : ∀ s e, C s e → C' s e) {s s' : σ} (h : Reach step C s s') :
    Reach step C' s s' := by
  have hle : ∀ s₁ s₂, Step step C s₁ s₂ → Step step C' s₁ s₂ := fun s₁ _ ⟨e, hc, he⟩ => ⟨e, hC s₁ e hc, he⟩
  exact ReflTransGen.mono hle s s' h

theorem reach_of_run {es : List ε} (hC : ∀ e ∈ es, ∀ s, C s e) {s s' : σ} (h : run step s es = some s') :
    Reach step C s s' := by
  induction es generalizing s with
  | nil => cases h; exact Reach.refl _
  | cons e es ih =>
    obtain ⟨s₁, he, h⟩ := Option.bind_eq_some_iff.mp h
    have hC' : ∀ e' ∈ es, ∀ s, C s e' := fun e' he' => hC e' (List.mem_cons_of_mem _ he')
    exact ((Reach.refl s).tail (hC e List.mem_cons_self s) he).trans (ih hC' h)

theorem reach_any {es : List ε} {s s' : σ} (h : run step s es = some s') : Reach step Any s s' :=
  reach_of_run (fun _ _ _ => trivial) h

theorem reach_guarded [∀ s e, Decidable (C s e)] {es : List ε} {s s' : σ}
    (h : run (guarded step C) s es = some s') : Reach step C s s' := by
  induction es generalizing s with
  | nil => cases h; exact Reach.refl _
  | cons e es ih =>
    obtain ⟨s₁, he, h⟩ := Option.bind_eq_some_iff.mp h
    rw [guarded, Option.ite_none_right_eq_some] at he
    exact ((Reach.refl s).tail he.1 he.2).trans (ih h)

end Runs
