import Yasdb.Store

/-!
# Idempotent producers

`validateProducer` compares the `Producer-*` headers of an append with the state kept for that producer. The state
`⟨e, n⟩` stands for the appends `(e, 0), …, (e, n)` of the current epoch (`Covers`):

- validation accepts exactly the next append of the producer (`Follows`, `validateProducer_accept`);
- it answers "duplicate" exactly for the appends that the state stands for (`validateProducer_duplicate`);
- an accepted append is newer than everything the state stands for (`Follows.newer`).
-/

namespace Yasdb

/-- The parsed `Producer-*` headers of one append. -/
structure ProducerHeaders where
  id : Bytes
  epoch : Nat
  seq : Nat
deriving DecidableEq, Repr

/-- The outcome of producer validation, with the data that the outcome carries. -/
inductive ProducerAction where
  /-- new data, commit and update state -/
  | pAccept (newState : ProducerState)
  /-- seq already applied -/
  | pDuplicate
  | pStaleEpoch (currentEpoch : Nat)
  /-- a new epoch that does not start at 0 -/
  | pBadSeqStart
  | pGap (expectedSeq receivedSeq : Nat)
deriving DecidableEq, Repr

/-- The validation logic; `none` when there is no persisted state for this producer yet. -/
def validateProducer (st : Option ProducerState) (h : ProducerHeaders) : ProducerAction :=
  match st with
  | none =>
    -- a fresh producer must start a session at seq 0, under any epoch
    if h.seq ≠ 0 then .pGap 0 h.seq else .pAccept { epoch := h.epoch, lastSeq := 0 }
  | some st =>
    if h.epoch < st.epoch then .pStaleEpoch st.epoch
    else if h.epoch > st.epoch then
      if h.seq ≠ 0 then .pBadSeqStart else .pAccept { epoch := h.epoch, lastSeq := 0 }
    else if h.seq ≤ st.lastSeq then .pDuplicate
    else if h.seq = st.lastSeq + 1 then .pAccept { epoch := h.epoch, lastSeq := h.seq }
    else .pGap (st.lastSeq + 1) h.seq

/-- The appends a producer state stands for: `(epoch, 0), …, (epoch, lastSeq)`. -/
def Covers (st : Option ProducerState) (epoch seq : Nat) : Prop :=
  ∃ p, st = some p ∧ p.epoch = epoch ∧ seq ≤ p.lastSeq

/-- `(epoch, seq)` is the next append of the producer: the first one, the first one of a newer epoch, or the
successor of the last one. -/
def Follows (st : Option ProducerState) (epoch seq : Nat) : Prop :=
  match st with
  | none => seq = 0
  | some p => (p.epoch < epoch ∧ seq = 0) ∨ (p.epoch = epoch ∧ seq = p.lastSeq + 1)

instance (st : Option ProducerState) (epoch seq : Nat) : Decidable (Covers st epoch seq) :=
  match st with
  | none => isFalse fun ⟨_, h, _⟩ => by cases h
  | some p => decidable_of_iff (p.epoch = epoch ∧ seq ≤ p.lastSeq)
      ⟨fun h => ⟨p, rfl, h⟩, fun ⟨_, h, h'⟩ => by cases h; exact h'⟩

instance (st : Option ProducerState) (epoch seq : Nat) : Decidable (Follows st epoch seq) :=
  match st with
  | none => inferInstanceAs (Decidable (seq = 0))
  | some p => inferInstanceAs (Decidable ((p.epoch < epoch ∧ seq = 0) ∨ (p.epoch = epoch ∧ seq = p.lastSeq + 1)))

variable {st : Option ProducerState} {e n : Nat}

/-- Validation accepts exactly the next append, and the new state records it. -/
theorem validateProducer_accept {h : ProducerHeaders} {ns : ProducerState} :
    validateProducer st h = .pAccept ns ↔ Follows st h.epoch h.seq ∧ ns = ⟨h.epoch, h.seq, false⟩ := by
  cases st with
  | none =>
    by_cases hs : h.seq = 0
    · simp [validateProducer, Follows, hs, eq_comm]
    · simp [validateProducer, Follows, hs]
  | some p =>
    rcases Nat.lt_trichotomy h.epoch p.epoch with he | he | he
    · have h1 : ¬ p.epoch < h.epoch := by omega
      have h2 : ¬ p.epoch = h.epoch := by omega
      simp [validateProducer, Follows, he, h1, h2]
    · by_cases hs : h.seq ≤ p.lastSeq
      · have : ¬ h.seq = p.lastSeq + 1 := by omega
        simp [validateProducer, Follows, he, hs, this]
      · by_cases hs' : h.seq = p.lastSeq + 1
        · have : ¬ p.lastSeq + 1 ≤ p.lastSeq := by omega
          simp [validateProducer, Follows, he, hs', this, eq_comm]
        · simp [validateProducer, Follows, he, hs, hs']
    · have h1 : ¬ h.epoch < p.epoch := by omega
      have h2 : ¬ p.epoch = h.epoch := by omega
      by_cases hs : h.seq = 0
      · simp [validateProducer, Follows, he, h1, hs, eq_comm]
      · simp [validateProducer, Follows, he, h1, h2, hs]

theorem validateProducer_duplicate {h : ProducerHeaders} :
    validateProducer st h = .pDuplicate ↔ Covers st h.epoch h.seq := by
  cases st with
  | none => by_cases hs : h.seq = 0 <;> simp [validateProducer, Covers, hs]
  | some p =>
    rcases Nat.lt_trichotomy h.epoch p.epoch with he | he | he
    · have h2 : ¬ p.epoch = h.epoch := by omega
      simp [validateProducer, Covers, he, h2]
    · by_cases hs : h.seq ≤ p.lastSeq
      · simp [validateProducer, Covers, he, hs]
      · by_cases hs' : h.seq = p.lastSeq + 1 <;> simp [validateProducer, Covers, he, hs, hs']
    · have h1 : ¬ h.epoch < p.epoch := by omega
      have h2 : ¬ p.epoch = h.epoch := by omega
      by_cases hs : h.seq = 0 <;> simp [validateProducer, Covers, he, h1, h2, hs]

/-- `(epoch, seq)` comes after everything the state stands for, by epoch and then by sequence number. -/
def Newer (st : Option ProducerState) (epoch seq : Nat) : Prop :=
  ∀ p, st = some p → p.epoch < epoch ∨ (p.epoch = epoch ∧ p.lastSeq < seq)

theorem Newer.not_covers (h : Newer st e n) : ¬ Covers st e n := by
  rintro ⟨p, rfl, he, hn⟩
  rcases h p rfl with h1 | ⟨-, h2⟩ <;> omega

theorem Newer.trans {p : ProducerState} (h : Newer st p.epoch p.lastSeq) (h' : Newer (some p) e n) : Newer st e n := by
  intro q hq
  have h1 := h q hq
  have h2 := h' p rfl
  omega

theorem Follows.newer (h : Follows st e n) : Newer st e n := by
  rintro p rfl
  rcases h with ⟨h1, -⟩ | ⟨h1, h2⟩
  · exact .inl h1
  · exact .inr ⟨h1, by omega⟩

theorem Follows.not_covers (h : Follows st e n) : ¬ Covers st e n :=
  h.newer.not_covers

end Yasdb
