import Yasdb.Store

/-!
# State messages and their materialization

The messages of the state protocol, their validation, and the materializer that folds a sequence of them into entities
with a type and a key.

- `Message.effect`: what a message does to one entity;
- `snapshot_applyAll`: an entity is what the last message with an effect on it has left;
- `snapshot_eq_some`: **an entity has the value of the last valid write**, unless a deletion or reset follows;
- `applyAll_filter`: invalid messages change nothing.
-/

namespace Yasdb.State

open Function List Option

def opInsert : Bytes := ascii "insert"

def opUpdate : Bytes := ascii "update"

def opDelete : Bytes := ascii "delete"

def controlSnapshotStart : Bytes := ascii "snapshot-start"

def controlSnapshotEnd : Bytes := ascii "snapshot-end"

def controlReset : Bytes := ascii "reset"

/-- What the materializer reads of the headers. -/
structure Headers where
  operation : Bytes := []
  control : Bytes := []
deriving DecidableEq, Repr

/-- A change message or a control message; an absent field is empty. -/
structure Message where
  type : Bytes := []
  key : Bytes := []
  /-- the text of a JSON value -/
  value : Bytes := []
  headers : Headers := {}
deriving DecidableEq, Repr

open Message

inductive Err where
  | ambiguousHeaders
  | badControl (got : Bytes)
  | missingType
  | missingKey
  | missingValue (operation : Bytes)
  | badOperation (got : Bytes)
deriving DecidableEq, Repr

namespace Message

def isControl (m : Message) : Bool := m.headers.control ≠ []

/-- The error of an invalid message. -/
def validate (m : Message) : Option Err :=
  if m.headers.operation ≠ [] ∧ m.headers.control ≠ [] then some .ambiguousHeaders
  else if m.isControl then
    if m.headers.control = controlSnapshotStart ∨ m.headers.control = controlSnapshotEnd ∨
      m.headers.control = controlReset then none
    else some (.badControl m.headers.control)
  else if m.type = [] then some .missingType
  else if m.key = [] then some .missingKey
  else if m.headers.operation = opInsert ∨ m.headers.operation = opUpdate then
    if m.value = [] then some (.missingValue m.headers.operation) else none
  else if m.headers.operation = opDelete then none
  else some (.badOperation m.headers.operation)

def valid (m : Message) : Bool := m.validate.isNone

/-- A valid insert or update of an entity. -/
def Writes (m : Message) (type key : Bytes) : Prop :=
  m.valid = true ∧ (m.headers.operation = opInsert ∨ m.headers.operation = opUpdate) ∧ m.type = type ∧ m.key = key

/-- A valid reset, or a valid deletion of an entity. -/
def Clears (m : Message) (type key : Bytes) : Prop :=
  m.valid = true ∧ (m.headers.control = controlReset ∨ m.headers.operation = opDelete ∧ m.type = type ∧ m.key = key)

instance (m : Message) (type key : Bytes) : Decidable (m.Writes type key) := inferInstanceAs (Decidable (_ ∧ _))

instance (m : Message) (type key : Bytes) : Decidable (m.Clears type key) := inferInstanceAs (Decidable (_ ∧ _))

/-- What a message leaves of an entity; `none` if it does not concern it. -/
def effect (m : Message) (type key : Bytes) : Option (Option Bytes) :=
  if m.Writes type key then some (some m.value) else if m.Clears type key then some none else none

end Message

/-- The collections by type, each with the values by key, and whether a snapshot is being delivered. -/
structure Materializer where
  types : Bytes → Option (Bytes → Option Bytes) := fun _ => none
  inSnapshot : Bool := false

namespace Materializer

/-- A control message that is valid. -/
def control (mat : Materializer) (control : Bytes) : Materializer :=
  if control = controlReset then {}
  else if control = controlSnapshotStart then { mat with inSnapshot := true }
  else if control = controlSnapshotEnd then { mat with inSnapshot := false }
  else mat

/-- The collection of a type; one that is not there yet is made. -/
def collection (mat : Materializer) (type : Bytes) : Bytes → Option Bytes := (mat.types type).getD fun _ => none

def setCollection (mat : Materializer) (type : Bytes) (coll : Bytes → Option Bytes) : Materializer :=
  { mat with types := update mat.types type (some coll) }

/-- A change message that is valid. A deletion makes the collection as well. -/
def change (mat : Materializer) (m : Message) : Materializer :=
  let coll := mat.collection m.type
  if m.headers.operation = opInsert ∨ m.headers.operation = opUpdate then
    mat.setCollection m.type (update coll m.key (some m.value))
  else if m.headers.operation = opDelete then mat.setCollection m.type (update coll m.key none)
  else mat.setCollection m.type coll

def apply (mat : Materializer) (m : Message) : Materializer × Option Err :=
  match m.validate with
  | some e => (mat, some e)
  | none => (if m.isControl then mat.control m.headers.control else mat.change m, none)

/-- Errors are collected, and do not stop the messages after them. -/
def applyAll (mat : Materializer) : List Message → Materializer × List Err
  | [] => (mat, [])
  | m :: ms =>
    let (mat', e) := mat.apply m
    let (mat'', es) := mat'.applyAll ms
    (mat'', e.toList ++ es)

/-- The value of an entity. -/
def snapshot (mat : Materializer) (type key : Bytes) : Option Bytes := (mat.types type).bind fun coll => coll key

/-! ## One message -/

/-- An invalid message changes nothing. -/
theorem apply_invalid (mat : Materializer) {m : Message} (h : m.valid = false) : (mat.apply m).1 = mat := by
  unfold apply
  cases hv : m.validate with
  | some e => rfl
  | none => simp [valid, hv] at h

theorem apply_valid (mat : Materializer) {m : Message} (h : m.valid = true) :
    (mat.apply m).1 = if m.isControl then mat.control m.headers.control else mat.change m := by
  unfold apply
  rw [isNone_iff_eq_none.mp h]

theorem operation_of_control {m : Message} (h : m.valid = true) (hc : m.isControl = true) :
    m.headers.operation = [] := by
  have hc' : m.headers.control ≠ [] := by simpa [isControl] using hc
  by_contra ho
  simp [valid, validate, ho, hc'] at h

theorem control_of_change {m : Message} (hc : m.isControl = false) : m.headers.control = [] := by
  simpa [isControl] using hc

theorem snapshot_control (mat : Materializer) (control type key : Bytes) :
    (mat.control control).snapshot type key = if control = controlReset then none else mat.snapshot type key := by
  unfold Materializer.control
  split
  · rfl
  · split
    · rfl
    · split <;> rfl

theorem snapshot_setCollection (mat : Materializer) (type' key' : Bytes) (v : Option Bytes) (type key : Bytes) :
    (mat.setCollection type' (update (mat.collection type') key' v)).snapshot type key =
      if type' = type ∧ key' = key then v else mat.snapshot type key := by
  simp only [snapshot, setCollection]
  by_cases ht : type' = type
  · subst ht
    rw [update_self, bind_some]
    by_cases hk : key' = key
    · subst hk
      rw [update_self, if_pos ⟨rfl, rfl⟩]
    · rw [update_of_ne (Ne.symm hk), if_neg fun h => hk h.2, collection]
      cases mat.types type' <;> rfl
  · rw [update_of_ne (Ne.symm ht), if_neg fun h => ht h.1]

/-- **What one message does to an entity.** -/
theorem snapshot_apply (mat : Materializer) (m : Message) (type key : Bytes) :
    (mat.apply m).1.snapshot type key = (m.effect type key).getD (mat.snapshot type key) := by
  cases hv : m.valid with
  | false =>
    have hw : ¬m.Writes type key := fun h => absurd (hv.symm.trans h.1) (by decide)
    have hc : ¬m.Clears type key := fun h => absurd (hv.symm.trans h.1) (by decide)
    rw [apply_invalid mat hv, effect, if_neg hw, if_neg hc, getD_none]
  | true =>
    rw [apply_valid mat hv]
    cases hc : m.isControl with
    | true =>
      have ho := operation_of_control hv hc
      have hw : ¬m.Writes type key := fun h => by
        rcases h.2.1 with h | h <;> exact absurd (ho.symm.trans h) (by decide)
      rw [if_pos rfl, snapshot_control, effect, if_neg hw]
      by_cases hr : m.headers.control = controlReset
      · rw [if_pos hr, if_pos ⟨hv, .inl hr⟩, getD_some]
      · rw [if_neg hr, if_neg, getD_none]
        rintro ⟨-, h | h⟩
        · exact hr h
        · exact absurd (ho.symm.trans h.1) (by decide)
    | false =>
      have hr : m.headers.control ≠ controlReset := by
        rw [control_of_change hc]
        decide
      rw [if_neg (by decide), change]
      by_cases hw : m.headers.operation = opInsert ∨ m.headers.operation = opUpdate
      · have hd : m.headers.operation ≠ opDelete := by
          rcases hw with hw | hw
          · rw [hw]; decide
          · rw [hw]; decide
        rw [if_pos hw, snapshot_setCollection, effect]
        by_cases he : m.type = type ∧ m.key = key
        · rw [if_pos he, if_pos ⟨hv, hw, he⟩, getD_some]
        · rw [if_neg he, if_neg fun h => he h.2.2, if_neg, getD_none]
          rintro ⟨-, h | h⟩
          · exact hr h
          · exact hd h.1
      · have hw' : ¬m.Writes type key := fun h => hw h.2.1
        rw [if_neg hw, effect, if_neg hw']
        by_cases hd : m.headers.operation = opDelete
        · rw [if_pos hd, snapshot_setCollection]
          by_cases he : m.type = type ∧ m.key = key
          · rw [if_pos he, if_pos ⟨hv, .inr ⟨hd, he⟩⟩, getD_some]
          · rw [if_neg he, if_neg, getD_none]
            rintro ⟨-, h | h⟩
            · exact hr h
            · exact he h.2
        · -- a valid change message has one of the three operations
          have hne : m.type ≠ [] ∧ m.key ≠ [] := by
            constructor <;> intro hnil <;>
              simp [valid, validate, hc, control_of_change hc, hnil] at hv
            split at hv <;> simp at hv
          simp [valid, validate, hc, control_of_change hc, hne.1, hne.2, hw, hd] at hv

/-! ## Many messages -/

theorem applyAll_append (mat : Materializer) : ∀ ms ms' : List Message,
    (mat.applyAll (ms ++ ms')).1 = ((mat.applyAll ms).1.applyAll ms').1
  | [], _ => rfl
  | m :: ms, ms' => applyAll_append (mat.apply m).1 ms ms'

theorem applyAll_filter : ∀ (mat : Materializer) (ms : List Message),
    (mat.applyAll (ms.filter valid)).1 = (mat.applyAll ms).1
  | _, [] => rfl
  | mat, m :: ms => by
    cases hv : m.valid with
    | true =>
      rw [filter_cons_of_pos hv]
      exact applyAll_filter (mat.apply m).1 ms
    | false =>
      rw [filter_cons_of_neg (by simp [hv]), applyAll_filter mat ms]
      show _ = ((mat.apply m).1.applyAll ms).1
      rw [apply_invalid mat hv]

theorem snapshot_applyAll (type key : Bytes) : ∀ (mat : Materializer) (ms : List Message),
    (mat.applyAll ms).1.snapshot type key =
      (ms.reverse.findSome? fun m => m.effect type key).getD (mat.snapshot type key)
  | _, [] => rfl
  | mat, m :: ms => by
    show ((mat.apply m).1.applyAll ms).1.snapshot type key = _
    rw [snapshot_applyAll type key (mat.apply m).1 ms, snapshot_apply, reverse_cons, findSome?_append,
      findSome?_singleton]
    cases ms.reverse.findSome? fun m => m.effect type key with
    | some e => rfl
    | none => rfl

end Materializer

/-- The value of the last valid insert or update of an entity, with no valid reset or deletion of it after it. -/
def LastWrite (ms : List Message) (type key value : Bytes) : Prop :=
  ∃ pre m post, ms = pre ++ m :: post ∧ m.Writes type key ∧ m.value = value ∧
    ∀ m' ∈ post, ¬m'.Writes type key ∧ ¬m'.Clears type key

theorem effect_eq_some {m : Message} {type key v : Bytes} :
    m.effect type key = some (some v) ↔ m.Writes type key ∧ m.value = v := by
  unfold effect
  split
  · rename_i hw
    simp [hw]
  · rename_i hw
    split <;> simp [hw]

theorem effect_eq_none {m : Message} {type key : Bytes} :
    m.effect type key = none ↔ ¬m.Writes type key ∧ ¬m.Clears type key := by
  unfold effect
  split
  · rename_i hw
    simp [hw]
  · rename_i hw
    split
    · rename_i hc
      simp [hc]
    · rename_i hc
      simp [hw, hc]

/-- **Materialization is a last-writer fold.** -/
theorem snapshot_eq_some {ms : List Message} {type key v : Bytes} :
    (({} : Materializer).applyAll ms).1.snapshot type key = some v ↔ LastWrite ms type key v := by
  rw [Materializer.snapshot_applyAll]
  have hlast : (ms.reverse.findSome? fun m => m.effect type key).getD (({} : Materializer).snapshot type key) = some v ↔
      (ms.reverse.findSome? fun m => m.effect type key) = some (some v) := by
    cases ms.reverse.findSome? fun m => m.effect type key with
    | none => simp [Materializer.snapshot]
    | some e => simp
  rw [hlast, findSome?_eq_some_iff]
  constructor
  · rintro ⟨post, m, pre, he, hm, hpost⟩
    obtain ⟨hw, hv⟩ := effect_eq_some.mp hm
    refine ⟨pre.reverse, m, post.reverse, ?_, hw, hv, fun m' hm' => effect_eq_none.mp (hpost m' (mem_reverse.mp hm'))⟩
    have := congrArg List.reverse he
    simpa using this
  · rintro ⟨pre, m, post, rfl, hw, hv, hpost⟩
    refine ⟨post.reverse, m, pre.reverse, by simp, effect_eq_some.mpr ⟨hw, hv⟩, fun m' hm' => ?_⟩
    exact effect_eq_none.mpr (hpost m' (mem_reverse.mp hm'))

end Yasdb.State
