import Yasdb.Marshal
import Yasdb.Server.Create

/-!
# Metadata read back

`unmarshalMeta` with each access to its input checked: one beyond the end is a panic.

- `unmarshal_marshal`: what is read back; the content type is cut as its length was;
- `metadata_round_trip_iff`: **metadata is read back exactly if 16 bits hold the length of the content type**, and no
  input is read beyond its end.
-/

namespace Yasdb

open Batch BigEndian List StreamMeta

inductive BadMeta where
  | errBadMeta
  | panic

/-- `b[p : p+n]`, also for single bytes and numbers. -/
def bytesAt (b : Bytes) (p n : Nat) : Except BadMeta Bytes :=
  if p + n ≤ b.length then .ok (slice b p n) else .error .panic

/-- The number at `p`, and the position after it. -/
def rdU64 (b : Bytes) (p : Nat) : Except BadMeta (Nat × Nat) :=
  if p + 8 > b.length then .error .errBadMeta else do return (ofBE (← bytesAt b p 8), p + 8)

/-- The content type, after its length. -/
def rdContentType (b : Bytes) (p : Nat) : Except BadMeta Bytes :=
  if p + 2 > b.length then .error .errBadMeta
  else do
    let ctLen := ofBE (← bytesAt b p 2)
    if p + 2 + ctLen > b.length then .error .errBadMeta else bytesAt b (p + 2) ctLen

def unmarshalMeta (b : Bytes) : Except BadMeta StreamMeta :=
  if b.length < 2 then .error .errBadMeta
  else do
    let version ← bytesAt b 0 1
    if version ≠ [streamMetaVersion] then .error .errBadMeta
    else do
      let flags := (← bytesAt b 1 1).headD 0
      let (streamID, p) ← rdU64 b 2
      let (ttlSeconds, p) ← rdU64 b p
      let (expiresAt, p) ← rdU64 b p
      let (createdAtMs, p) ← rdU64 b p
      let (forkedFrom, p) ← rdU64 b p
      let (forkOffset, p) ← rdU64 b p
      let (forkByte, p) ← rdU64 b p
      let (deadline, p) ← rdU64 b p
      let contentType ← rdContentType b p
      return {
        streamID, contentType, forkedFrom, forkOffset, forkByte
        ttlSeconds := .ofNat ttlSeconds
        expiresAt := (UInt64.ofNat expiresAt).toInt64
        createdAtMs := (UInt64.ofNat createdAtMs).toInt64
        deadline := .ofNat deadline
        closed := flags &&& metaFlagClosed != 0
        isPrivate := flags &&& metaFlagPrivate != 0 }

/-- Metadata as its bytes are read back (`unmarshal_marshal`): the content type is cut as its length was. -/
def StreamMeta.readBack (m : StreamMeta) : StreamMeta :=
  { m with contentType := m.contentType.take (m.contentType.length % 2 ^ 16) }

/-- The numbers are those of 64 bits. -/
def StreamMeta.Words (m : StreamMeta) : Prop :=
  m.streamID < 2 ^ 64 ∧ m.forkedFrom < 2 ^ 64 ∧ m.forkOffset < 2 ^ 64 ∧ m.forkByte < 2 ^ 64

/-! ## No read beyond the end -/

section

variable {b v rest : Bytes} {p n : Nat}

theorem bind_ne_panic {α β : Type} {x : Except BadMeta α} {f : α → Except BadMeta β} (hx : x ≠ .error .panic)
    (hf : ∀ a, f a ≠ .error .panic) : x >>= f ≠ .error .panic := by
  cases x with
  | error e =>
    rintro ⟨⟩
    exact hx rfl
  | ok a => exact hf a

theorem bytesAt_ne_panic (h : p + n ≤ b.length) : bytesAt b p n ≠ .error .panic := by
  simp [bytesAt, h]

theorem rdU64_ne_panic : rdU64 b p ≠ .error .panic := by
  unfold rdU64
  split
  · simp
  · exact bind_ne_panic (bytesAt_ne_panic (by omega)) fun _ => by rintro ⟨⟩

theorem rdContentType_ne_panic : rdContentType b p ≠ .error .panic := by
  unfold rdContentType
  split
  · simp
  · refine bind_ne_panic (bytesAt_ne_panic (by omega)) fun ctLen => ?_
    dsimp only
    split
    · simp
    · exact bytesAt_ne_panic (by omega)

theorem unmarshalMeta_ne_panic (b : Bytes) : unmarshalMeta b ≠ .error .panic := by
  unfold unmarshalMeta
  split
  · simp
  · refine bind_ne_panic (bytesAt_ne_panic (by omega)) fun version => ?_
    split
    · simp
    · refine bind_ne_panic (bytesAt_ne_panic (by omega)) fun flags => ?_
      iterate 8 refine bind_ne_panic rdU64_ne_panic fun _ => ?_
      exact bind_ne_panic rdContentType_ne_panic fun _ => by rintro ⟨⟩

/-! ## Reading back what was written -/

/-- The rest of the input from `p` on. -/
def RestAt (b : Bytes) (p : Nat) (rest : Bytes) : Prop := p ≤ b.length ∧ b.drop p = rest

theorem RestAt.bytesAt (h : RestAt b p (v ++ rest)) : bytesAt b p v.length = .ok v ∧ RestAt b (p + v.length) rest := by
  have hle := h.1
  have hlen := congrArg length h.2
  rw [length_drop, length_append] at hlen
  refine ⟨?_, by omega, by rw [← drop_drop, h.2, drop_left]⟩
  rw [Yasdb.bytesAt, if_pos (by omega), slice, h.2, take_left]

theorem RestAt.rdU64 (h : RestAt b p (be 8 n ++ rest)) (hn : n < 2 ^ 64) :
    rdU64 b p = .ok (n, p + 8) ∧ RestAt b (p + 8) rest := by
  obtain ⟨hb, hrest⟩ := h.bytesAt
  rw [length_be] at hb hrest
  have hle := hrest.1
  refine ⟨?_, hrest⟩
  rw [Yasdb.rdU64, if_neg (by omega), hb]
  have hof : ofBE (be 8 n) = n := ofBE_be_of_lt (by omega)
  nth_rewrite 2 [← hof]
  rfl

theorem RestAt.rdContentType (h : RestAt b p (be 2 v.length ++ v)) :
    rdContentType b p = .ok (v.take (v.length % 2 ^ 16)) := by
  obtain ⟨hb, hrest⟩ := h.bytesAt
  rw [length_be] at hb hrest
  have hle := hrest.1
  have hlen := congrArg length hrest.2
  rw [length_drop] at hlen
  have hmod := Nat.mod_le v.length (2 ^ 16)
  have hof : ofBE (be 2 v.length) = v.length % 2 ^ 16 := ofBE_be 2 _
  rw [Yasdb.rdContentType, if_neg (by omega), hb]
  change (if p + 2 + ofBE (be 2 v.length) > b.length then _ else _) = _
  rw [hof, if_neg (by omega), Yasdb.bytesAt, if_pos (by omega), slice, hrest.2]

end

/-- A short content type is not cut. -/
theorem StreamMeta.readBack_eq {m : StreamMeta} (h : m.contentType.length < 2 ^ 16) : m.readBack = m := by
  rw [readBack, Nat.mod_eq_of_lt h, take_length]

/-- **What is read back** of marshalled metadata. -/
theorem unmarshal_marshal {m : StreamMeta} (h : m.Words) : unmarshalMeta m.marshal = .ok m.readBack := by
  obtain ⟨hid, hfrom, hoff, hbyte⟩ := h
  have hall : RestAt m.marshal 0 m.marshal := ⟨Nat.zero_le _, rfl⟩
  have hlen : ¬ m.marshal.length < 2 := by simp [marshal]
  nth_rewrite 2 [marshal] at hall
  simp only [append_assoc] at hall
  obtain ⟨hversion, h⟩ := RestAt.bytesAt (v := [streamMetaVersion]) hall
  obtain ⟨hflags, h⟩ := RestAt.bytesAt (v := [_]) h
  obtain ⟨h₁, h⟩ := h.rdU64 hid
  obtain ⟨h₂, h⟩ := h.rdU64 m.ttlSeconds.toNat_lt
  obtain ⟨h₃, h⟩ := h.rdU64 m.expiresAt.toUInt64.toNat_lt
  obtain ⟨h₄, h⟩ := h.rdU64 m.createdAtMs.toUInt64.toNat_lt
  obtain ⟨h₅, h⟩ := h.rdU64 hfrom
  obtain ⟨h₆, h⟩ := h.rdU64 hoff
  obtain ⟨h₇, h⟩ := h.rdU64 hbyte
  obtain ⟨h₈, h⟩ := h.rdU64 m.deadline.toNat_lt
  have hct := h.rdContentType
  simp only [length_singleton, Nat.reduceAdd] at hversion hflags h₁ h₂ h₃ h₄ h₅ h₆ h₇ h₈ hct
  rw [unmarshalMeta, if_neg hlen, hversion]
  simp [bind, Except.bind, pure, Except.pure, hflags, h₁, h₂, h₃, h₄, h₅, h₆, h₇, h₈, hct, readBack]
  cases m.closed <;> cases m.isPrivate <;> decide

theorem metadata_round_trip_iff (m : StreamMeta) (b : Bytes) :
    (m.Words → (unmarshalMeta m.marshal = .ok m ↔ m.contentType.length < 2 ^ 16)) ∧
    unmarshalMeta b ≠ .error .panic := by
  refine ⟨fun hm => ?_, unmarshalMeta_ne_panic b⟩
  rw [unmarshal_marshal hm]
  constructor
  · intro h
    have hct := congrArg length (congrArg StreamMeta.contentType (Except.ok.inj h))
    rw [readBack, length_take] at hct
    omega
  · intro h
    rw [readBack_eq h]

theorem stored_cut {ct : Bytes} (hlen : ct.length = 65536) :
    ∃ ops res m, createStream plainLib noFaults ∅ 1 0 0 { path := samplePath, contentType := ct } = .ok (ops, res) ∧
      Op.put (.metaKey samplePath) m ∈ ops ∧ unmarshalMeta m.marshal ≠ .ok m := by
  refine ⟨_, _, newMeta 1 0 0 { path := samplePath, contentType := ct }, rfl, by simp [createOps], fun h => ?_⟩
  rw [unmarshal_marshal (by simp [Words, newMeta])] at h
  have htake := congrArg (fun m => m.contentType.length) (Except.ok.inj h)
  simp [readBack, newMeta, hlen] at htake

/-- The length 65536 is written as 0: a stream created with such a content type is read back without one. -/
theorem metadata_round_trip_fails : ∃ ops res m,
    createStream plainLib noFaults ∅ 1 0 0 { path := samplePath, contentType := replicate 65536 97 } = .ok (ops, res) ∧
      Op.put (.metaKey samplePath) m ∈ ops ∧ unmarshalMeta m.marshal ≠ .ok m :=
  stored_cut length_replicate

end Yasdb
