import Yasdb.Sequence

/-!
# The log of applied appends

What the view remembers of the appends that led to it (`View.Applies`). Validation against it is validation against the
whole log:

- epochs never decrease, and the numbers of one epoch are `0, 1, …` (`Tracks.epochs`, `Tracks.seqs`), so no pair is
  applied twice (`Tracks.nodup`);
- an append that the state covers has been applied (`Tracks.mem_of_covers`).
-/

namespace Yasdb

open List View Option Function

/-- The pairs `(epoch, seq)` that a producer has applied, in order. -/
def pairsOf (pid : Bytes) (l : List (Int64 × AppendReq)) : List (Nat × Nat) :=
  l.filterMap fun a => (a.2.producer.filter (·.id = pid)).map fun h => (h.epoch, h.seq)

/-- The `Stream-Seq` values of the applied appends, in order. -/
def streamSeqsOf (l : List (Int64 × AppendReq)) : List Bytes := l.filterMap (·.2.streamSeq)

/-- The records of the applied appends, in order. -/
def recordsOf (l : List (Int64 × AppendReq)) : List Bytes := l.flatMap (·.2.records)

theorem pairsOf_append (pid : Bytes) (l l' : List (Int64 × AppendReq)) :
    pairsOf pid (l ++ l') = pairsOf pid l ++ pairsOf pid l' := filterMap_append

theorem recordsOf_append (l l' : List (Int64 × AppendReq)) :
    recordsOf (l ++ l') = recordsOf l ++ recordsOf l' := flatMap_append

theorem pairsOf_none {pid : Bytes} {req : AppendReq} (now : Int64) (h : ∀ hd, req.producer = some hd → hd.id ≠ pid) :
    pairsOf pid [(now, req)] = [] := by
  cases hp : req.producer with
  | none => simp [pairsOf, hp]
  | some hd => simp [pairsOf, hp, h hd hp]

theorem pairsOf_self {req : AppendReq} {h : ProducerHeaders} (now : Int64) (hp : req.producer = some h) :
    pairsOf h.id [(now, req)] = [(h.epoch, h.seq)] := by
  simp [pairsOf, hp]

/-! ## One producer -/

/-- The state `st` is that of a producer which has applied the pairs `ps`. -/
structure Tracks (st : Option ProducerState) (ps : List (Nat × Nat)) : Prop where
  fresh : st = none → ps = []
  epochs : ps.Pairwise (·.1 ≤ ·.1)
  bound : ∀ p, st = some p → ∀ x ∈ ps, x.1 ≤ p.epoch
  current : ∀ p, st = some p → (ps.filter (·.1 = p.epoch)).map (·.2) = List.range (p.lastSeq + 1)
  seqs : ∀ e, ∃ k, (ps.filter (·.1 = e)).map (·.2) = List.range k

theorem tracks_nil : Tracks none [] :=
  ⟨fun _ => rfl, .nil, nofun, nofun, fun _ => ⟨0, rfl⟩⟩

variable {st : Option ProducerState} {ps : List (Nat × Nat)} {e n : Nat}

section

variable (h : Tracks st ps)
include h

theorem Tracks.filter_follows (hf : Follows st e n) : (ps.filter (·.1 = e)).map (·.2) = List.range n := by
  cases st with
  | none => rw [h.fresh rfl, show n = 0 from hf]; rfl
  | some p =>
    rcases hf with ⟨he, rfl⟩ | ⟨rfl, rfl⟩
    · have : ps.filter (·.1 = e) = [] := by
        rw [filter_eq_nil_iff]
        intro x hx
        have := h.bound p rfl x hx
        simp only [decide_eq_true_eq]
        omega
      rw [this]; rfl
    · exact h.current p rfl

/-- The next append keeps track. -/
theorem Tracks.follows (hf : Follows st e n) (b : Bool) : Tracks (some ⟨e, n, b⟩) (ps ++ [(e, n)]) := by
  have hle : ∀ x ∈ ps, x.1 ≤ e := by
    intro x hx
    cases st with
    | none => rw [h.fresh rfl] at hx; cases hx
    | some p =>
      have := h.bound p rfl x hx
      rcases hf with ⟨he, -⟩ | ⟨he, -⟩ <;> omega
  have hcur : ((ps ++ [(e, n)]).filter (·.1 = e)).map (·.2) = List.range (n + 1) := by
    rw [filter_append, map_append, h.filter_follows hf, range_succ]
    simp
  refine ⟨nofun, ?_, fun p hp x hx => ?_, fun p hp => ?_, fun e' => ?_⟩
  · rw [pairwise_append]
    refine ⟨h.epochs, pairwise_singleton _ _, fun x hx y hy => ?_⟩
    rw [mem_singleton.mp hy]; exact hle x hx
  · cases hp
    rcases mem_append.mp hx with hx | hx
    · exact hle x hx
    · rw [mem_singleton.mp hx]
  · cases hp; exact hcur
  · by_cases he : e' = e
    · exact ⟨n + 1, he ▸ hcur⟩
    · obtain ⟨k, hk⟩ := h.seqs e'
      refine ⟨k, ?_⟩
      rw [filter_append, map_append, hk]
      simp [Ne.symm he]

theorem Tracks.mem_of_covers (hc : Covers st e n) : (e, n) ∈ ps := by
  obtain ⟨p, rfl, rfl, hn⟩ := hc
  have hmem : n ∈ (ps.filter (·.1 = p.epoch)).map (·.2) := by
    rw [h.current p rfl, mem_range]; omega
  obtain ⟨x, hx, rfl⟩ := List.mem_map.mp hmem
  obtain ⟨hx, he⟩ := mem_filter.mp hx
  rw [← of_decide_eq_true he]; exact hx

theorem Tracks.nodup : ps.Nodup := by
  rw [nodup_iff_count_le_one]
  intro x
  obtain ⟨k, hk⟩ := h.seqs x.1
  have hnd : (ps.filter (·.1 = x.1)).Nodup := List.Nodup.of_map (·.2) (hk ▸ nodup_range)
  have hle := nodup_iff_count_le_one.mp hnd x
  rwa [count_filter (by simp)] at hle

end

/-! ## The whole log -/

section Applies

variable {L : GoLib} {v₀ v : View} {l : List (Int64 × AppendReq)}

section

variable (h : Applies L v₀ l v)
include h

/-- **Every producer state tracks its applied pairs**, from a stream without producers on. -/
theorem View.Applies.tracks (h0 : ∀ pid, v₀.producers pid = none) (pid : Bytes) :
    Tracks (v.producers pid) (pairsOf pid l) := by
  induction h with
  | nil => rw [h0 pid]; exact tracks_nil
  | slide d _ ih => exact ih
  | @snoc v l now req _ ha ih =>
    rw [pairsOf_append]
    cases hp : req.producer with
    | none =>
      rw [pairsOf_none now (by simp [hp]), append_nil]
      simpa [apply, hp] using ih
    | some hd =>
      by_cases hid : pid = hd.id
      · subst hid
        rw [pairsOf_self now hp]
        simpa [apply, hp] using ih.follows (ha.producer hd hp) req.closeStream
      · rw [pairsOf_none now (by simpa [hp] using Ne.symm hid), append_nil]
        simpa [apply, hp, update_of_ne hid] using ih

/-- What the state of a producer covers was covered at the start or has been applied. -/
theorem View.Applies.covers {pid : Bytes} {e n : Nat} (hc : Covers (v.producers pid) e n) :
    Covers (v₀.producers pid) e n ∨ (e, n) ∈ pairsOf pid l := by
  induction h with
  | nil => exact .inl hc
  | slide d _ ih => exact ih hc
  | @snoc v l now req _ ha ih =>
    rw [pairsOf_append, mem_append]
    have hold : Covers (v.producers pid) e n → Covers (v₀.producers pid) e n ∨ (e, n) ∈ pairsOf pid l ∨
        (e, n) ∈ pairsOf pid [(now, req)] := fun h => (ih h).imp_right Or.inl
    cases hp : req.producer with
    | none => exact hold (by simpa [apply, hp] using hc)
    | some hd =>
      by_cases hid : pid = hd.id
      · subst hid
        obtain ⟨p, hv, he, hn⟩ := hc
        simp only [apply, hp, update_self, some.injEq] at hv
        subst hv
        rcases Nat.lt_or_eq_of_le hn with hlt | rfl
        · -- an earlier append of the same epoch was covered already
          refine hold ?_
          change n < hd.seq at hlt
          have hf := ha.producer hd hp
          cases hst : v.producers hd.id with
          | none =>
            rw [hst] at hf
            have : hd.seq = 0 := hf
            omega
          | some q =>
            rw [hst] at hf
            rcases hf with ⟨-, h0⟩ | ⟨h1, h2⟩
            · omega
            · exact ⟨q, rfl, h1.trans he, by omega⟩
        · right; right
          rw [pairsOf_self now hp, ← he]
          exact mem_singleton_self _
      · exact hold (by simpa [apply, hp, update_of_ne hid] using hc)

/-- **Applied `Stream-Seq` values strictly increase**, and the last one is the `Stream-Seq` of the view. -/
theorem View.Applies.streamSeqs : (streamSeqsOf l).Pairwise (· < ·) ∧ ∀ q ∈ streamSeqsOf l, q ≤ v.writerSeq := by
  induction h with
  | nil => exact ⟨.nil, nofun⟩
  | slide d _ ih => exact ih
  | @snoc v l now req _ ha ih =>
    unfold streamSeqsOf at ih ⊢
    rw [filterMap_append]
    cases hq : req.streamSeq with
    | none => simpa [apply, hq] using ih
    | some q =>
      have hlt := ha.streamSeq q hq
      have hq' : List.filterMap (·.2.streamSeq) [(now, req)] = [q] := by simp [hq]
      rw [hq', pairwise_append]
      refine ⟨⟨ih.1, pairwise_singleton _ _, fun x hx y hy => ?_⟩, fun x hx => ?_⟩
      · rw [mem_singleton.mp hy]
        exact List.lt_of_le_of_lt (ih.2 x hx) hlt
      · show x ≤ req.streamSeq.getD v.writerSeq
        rw [hq, getD_some]
        rcases mem_append.mp hx with hx | hx
        · exact List.le_of_lt (List.lt_of_le_of_lt (ih.2 x hx) hlt)
        · rw [mem_singleton.mp hx]; exact List.le_refl q

theorem View.Applies.tail : v.tail = v₀.tail + (recordsOf l).length := by
  induction h with
  | nil => rfl
  | slide d _ ih => exact ih
  | @snoc v l now req _ ha ih =>
    rw [recordsOf_append, length_append]
    have : (recordsOf [(now, req)]).length = req.records.length := by simp [recordsOf]
    rw [this, ← Nat.add_assoc, ← ih]
    rfl

end

end Applies

end Yasdb
