import Yasdb.Lifecycle.Discipline

/-!
# The history of commits

A path belongs to the stream created there most recently, unless that stream has been hard-deleted (`owners`).

- `Log`: the store holds the metadata of the owner of every path, no id is used twice, and no streamer has written for
  a deleted stream;
- `Log.create`, `Log.hardDelete`, `Log.streamer`, `Log.other`: the commits that keep this. A streamer may commit while
  its stream owns its path.
-/

namespace Yasdb.Lifecycle

open Batch Function List Entry

/-! ## Owners -/

/-- What a commit does to the owners of the paths. -/
def Entry.own (f : Bytes → Option Nat) : Entry → Bytes → Option Nat
  | .create path id => update f path (some id)
  | .hardDelete path _ => update f path none
  | _ => f

/-- The stream created most recently at a path and not hard-deleted since. -/
def owners (history : List Entry) : Bytes → Option Nat := history.foldl own fun _ => none

theorem owners_snoc (history : List Entry) (e : Entry) : owners (history ++ [e]) = e.own (owners history) := by
  rw [owners, foldl_append]
  rfl

/-- The later commit respects the earlier one: a streamer writes nothing for a stream after its hard delete. -/
def Entry.Final (e e' : Entry) : Prop :=
  ∀ path id ops, e = .hardDelete path id → e' = .streamer id ops →
    ∀ op ∈ ops, op.key ≠ .metaKey path ∧ op.key ≠ .tailKey id ∧ ∀ n, op.key ≠ .recordKey id n

/-! ## The store after a history -/

/-- The store after a history of commits that has used the ids below `nextID`. -/
structure Log (db : Store) (nextID : Nat) (history : List Entry) : Prop where
  /-- the metadata stored at a path belongs to its owner -/
  stored : ∀ p, (db.metaAt p).map (·.streamID) = owners history p
  used : ∀ p id, owners history p = some id → id < nextID
  inj : ∀ p q id, owners history p = some id → owners history q = some id → p = q
  deleted : ∀ p id, hardDelete p id ∈ history → id < nextID ∧ ∀ q, owners history q ≠ some id
  final : history.Pairwise Final

namespace Log

variable {db : Store} {nextID : Nat} {history : List Entry} {path : Bytes} {id : Nat} {ops : List Op}

theorem start : Log ∅ 1 [] :=
  ⟨fun _ => rfl, nofun, nofun, nofun, List.Pairwise.nil⟩

theorem final_snoc (h : Log db nextID history) {e : Entry}
    (he : ∀ p id ops, hardDelete p id ∈ history → e ≠ .streamer id ops) :
    (history ++ [e]).Pairwise Final := by
  refine pairwise_append.mpr ⟨h.final, pairwise_singleton _ _, fun a ha b hb p id ops h1 h2 => ?_⟩
  rw [mem_singleton.mp hb] at h2
  exact (he p id ops (h1 ▸ ha) h2).elim

theorem mem_snoc {e : Entry} {p : Bytes} (h : hardDelete p id ∈ history ++ [e]) (he : e ≠ .hardDelete p id) :
    hardDelete p id ∈ history := by
  rcases mem_append.mp h with h | h
  · exact h
  · exact (he (mem_singleton.mp h).symm).elim

theorem other (h : Log db nextID history) {e : Entry} (hown : ∀ f, e.own f = f)
    (hdel : ∀ p i, e ≠ .hardDelete p i) (he : ∀ p id ops, hardDelete p id ∈ history → e ≠ .streamer id ops)
    (hm : ∀ p, (Store.metaAt (applyOps db ops) p).map (·.streamID) = (db.metaAt p).map (·.streamID)) :
    Log (applyOps db ops) nextID (history ++ [e]) := by
  have ho : owners (history ++ [e]) = owners history := by rw [owners_snoc, hown]
  refine ⟨fun p => ?_, ?_, ?_, fun p i hi => ?_, h.final_snoc he⟩
  · rw [hm, ho]; exact h.stored p
  · rw [ho]; exact h.used
  · rw [ho]; exact h.inj
  · rw [ho]; exact h.deleted p i (mem_snoc hi (hdel p i))

/-- **A commit of a streamer** whose stream owns its path. -/
theorem streamer (h : Log db nextID history) (hw : WritesMeta path id ops) (ho : owners history path = some id) :
    Log (applyOps db ops) nextID (history ++ [.streamer id ops]) := by
  refine h.other (fun _ => rfl) (fun _ _ => nofun) (fun p i ops' hi he => ?_)
    (hw.streamAt ((h.stored path).trans ho))
  cases he
  exact (h.deleted p id hi).2 path ho

theorem create (h : Log db id history) (hc : Creates path id ops) :
    Log (applyOps db ops) (id + 1) (history ++ [.create path id]) := by
  have ho : owners (history ++ [.create path id]) = update (owners history) path (some id) := owners_snoc _ _
  have hcases : ∀ {p i}, owners (history ++ [.create path id]) p = some i →
      (p = path ∧ i = id) ∨ (p ≠ path ∧ owners history p = some i) := by
    intro p i hp
    rw [ho] at hp
    by_cases hpp : p = path
    · subst hpp
      rw [update_self] at hp
      exact .inl ⟨rfl, (Option.some.inj hp).symm⟩
    · exact .inr ⟨hpp, (update_of_ne hpp ..).symm.trans hp⟩
  refine ⟨fun p => ?_, fun p i hp => ?_, fun p q i hp hq => ?_, fun p i hi => ?_, h.final_snoc fun _ _ _ _ => nofun⟩
  · rw [hc.streamAt, ho, show (fun p => (db.metaAt p).map (·.streamID)) = owners history from funext h.stored]
  · rcases hcases hp with ⟨-, rfl⟩ | ⟨-, hp⟩
    · exact Nat.lt_succ_self i
    · exact Nat.lt_succ_of_lt (h.used p i hp)
  · rcases hcases hp with ⟨hp, hi⟩ | ⟨-, hp⟩
    · rcases hcases hq with ⟨hq, -⟩ | ⟨-, hq⟩
      · rw [hp, hq]
      · exact absurd (h.used q i hq) (hi ▸ lt_irrefl i)
    · rcases hcases hq with ⟨-, hi⟩ | ⟨-, hq⟩
      · exact absurd (h.used p i hp) (hi ▸ lt_irrefl i)
      · exact h.inj p q i hp hq
  · obtain ⟨hlt, hno⟩ := h.deleted p i (mem_snoc hi nofun)
    refine ⟨Nat.lt_succ_of_lt hlt, fun q hq => ?_⟩
    rcases hcases hq with ⟨-, rfl⟩ | ⟨-, hq⟩
    · exact lt_irrefl i hlt
    · exact hno q hq

theorem hardDelete (h : Log db nextID history) {m : StreamMeta} (hm : owners history path = some m.streamID) :
    Log (applyOps db (Server.deleteOps path m)) nextID (history ++ [.hardDelete path m.streamID]) := by
  have ho : owners (history ++ [.hardDelete path m.streamID]) = update (owners history) path none :=
    owners_snoc _ _
  have hcases : ∀ {p i}, owners (history ++ [.hardDelete path m.streamID]) p = some i →
      p ≠ path ∧ owners history p = some i := by
    intro p i hp
    rw [ho] at hp
    have hpp : p ≠ path := fun he => by subst he; rw [update_self] at hp; cases hp
    exact ⟨hpp, (update_of_ne hpp ..).symm.trans hp⟩
  refine ⟨fun p => ?_, fun p i hp => h.used p i (hcases hp).2,
    fun p q i hp hq => h.inj p q i (hcases hp).2 (hcases hq).2, fun p i hi => ?_, h.final_snoc fun _ _ _ _ => nofun⟩
  · rw [ho]
    by_cases hp : p = path
    · subst hp; rw [metaAt_deleteOps, update_self]; rfl
    · rw [update_of_ne hp, ← h.stored p]
      unfold Store.metaAt
      rw [lookup_deleteOps db path m (by simp)]
      simp [Ne.symm hp]
  · rcases mem_append.mp hi with hi | hi
    · exact ⟨(h.deleted p i hi).1, fun q hq => (h.deleted p i hi).2 q (hcases hq).2⟩
    · cases mem_singleton.mp hi
      exact ⟨h.used path _ hm, fun q hq => (hcases hq).1 (h.inj q path _ (hcases hq).2 hm)⟩

end Log

end Yasdb.Lifecycle
