import Yasdb.Lifecycle.Sparing
import Yasdb.Lifecycle.Deletion

/-!
# Readers and dormancy

A live reader gets the address of a streamer first and registers as its reader afterwards, without the mutex; a
`LiveCursor` keeps the address between calls of `Next` and is not registered in between. `tryRetire` may run in the
meantime, and it closes no channel that a reader waits on.

- `reader_parks_on_dormant`: a cursor parks on a streamer that has retired;
- `parked_reader_attached`: **no reader does** if readers register only on streamers that are not retiring
  (`registersInTime`).
-/

namespace Yasdb.Lifecycle

open Batch Objects Runs Function World Inst Finset Mode

/-! ## The condition -/

/-- Retired by dormancy: dead, and `stop` is open. -/
def Inst.dormant (x : Inst) : Bool := x.dead && !x.stop

/-- Retired by dormancy, or past the point where a reader could prevent it. -/
def Inst.leaving (x : Inst) : Bool := x.phase.counted || x.dormant

/-- The step, if it registers a reader, does so on a streamer that is not retiring. -/
def registersInTime (w : World) : Event → Bool
  | .act t _ _ =>
    match w.threads t with
    | some (.park i _) => (w.insts i).all fun x => !x.leaving
    | _ => true
  | _ => true

/-! ## The readers of a streamer -/

/-- The count of readers is right, and nobody reads from a streamer that is leaving. -/
structure Readers (w : World) : Prop where
  known : ∀ t i, w.mode t = .parked i → ∃ x, w.insts i = some x
  counted : ∀ i x, w.insts i = some x → ∃ S : Finset Nat, (∀ t, t ∈ S ↔ w.mode t = .parked i) ∧ x.readers = S.card
  clear : ∀ i x, w.insts i = some x → x.leaving = true → x.readers = 0

theorem readers_start : Readers start where
  known := fun _ _ h => (by cases h)
  counted := fun _ _ h => (by cases h)
  clear := fun _ _ h => (by cases h)

/-- The step keeps the readers of a streamer, and the streamer starts to leave only without any. -/
def Inst.Reads (x x' : Inst) : Prop :=
  x'.readers = x.readers ∧ (x'.leaving = true → x.leaving = true ∨ x.readers = 0)

theorem Inst.reads_of_eq {x x' : Inst} (hr : x'.readers = x.readers)
    (hp : x'.phase.counted = true → x.phase.counted = true)
    (hd : x'.dormant = true → x.dormant = true) : x.Reads x' :=
  ⟨hr, fun h => .inl (Bool.or_eq_true_iff.mpr ((Bool.or_eq_true_iff.mp h).imp hp hd))⟩

namespace Readers

variable {w w' : World} {t i : Nat} {x x' : Inst} {p q : Prog}

variable (h : Readers w)
include h

/-- A step on one streamer object. -/
theorem inst (hx : w.insts i = some x) (ht : w'.threads = w.threads)
    (hi : w'.insts = update w.insts i (some x')) (hr : x.Reads x') : Readers w' := by
  have hm : ∀ t, w'.mode t = w.mode t := fun t => by unfold mode; rw [ht]
  refine ⟨fun t j hp => ?_, ?_, ?_⟩
  · rw [hi]
    by_cases hj : j = i
    · subst hj; exact ⟨x', update_self ..⟩
    · rw [update_of_ne hj]
      exact h.known t j (hm t ▸ hp)
  · rw [hi]
    refine forall_update (fun j y hy => ?_) ?_
    · obtain ⟨S, hS, hc⟩ := h.counted j y hy
      exact ⟨S, fun t => by rw [hm]; exact hS t, hc⟩
    · obtain ⟨S, hS, hc⟩ := h.counted i x hx
      exact ⟨S, fun t => by rw [hm]; exact hS t, hr.1.trans hc⟩
  · rw [hi]
    refine forall_update h.clear fun hl => ?_
    rw [hr.1]
    exact (hr.2 hl).elim (h.clear i x hx) id

theorem goOn (ht : w'.threads = update w.threads t (some q)) (hi : w'.insts = w.insts)
    (hm : ∀ i, w.mode t ≠ .parked i) (hm' : ∀ i, q.mode ≠ .parked i) : Readers w' := by
  have hmode : ∀ u i, w'.mode u = .parked i ↔ w.mode u = .parked i := fun u i => by
    rw [mode_update ht]
    by_cases hu : u = t
    · subst hu
      rw [if_pos rfl]
      exact iff_of_false (hm' i) (hm i)
    · rw [if_neg hu]
  refine ⟨fun u i hp => hi ▸ h.known u i ((hmode u i).mp hp), fun i x hx => ?_, fun i x hx => h.clear i x (hi ▸ hx)⟩
  obtain ⟨S, hS, hc⟩ := h.counted i x (hi ▸ hx)
  exact ⟨S, fun u => (hS u).trans (hmode u i).symm, hc⟩

theorem spawn (hl : Locks w) (path : Bytes) (m : StreamMeta) (tailSeq : Nat) : Readers (w.spawned path m tailSeq) := by
  have hnew := hl.fresh w.nextInst le_rfl
  have hnone : ∀ t, w.mode t ≠ .parked w.nextInst := fun t hp => by
    obtain ⟨x, hx⟩ := h.known t _ hp
    rw [hnew] at hx
    cases hx
  refine ⟨fun t i hp => ?_, forall_update h.counted ?_, forall_update h.clear fun _ => rfl⟩
  · obtain ⟨x, hx⟩ := h.known t i hp
    have hne : i ≠ w.nextInst := fun he => hnone t (he ▸ hp)
    exact ⟨x, (update_of_ne hne ..).trans hx⟩
  · exact ⟨∅, fun t => iff_of_false (notMem_empty t) (hnone t), card_empty.symm⟩

/-- The readers of the streamer `i` change by the handler `t`, the readers of the others do not. -/
theorem register (hx : w.insts i = some x)
    (hm : ∀ j, w.mode t = .parked j → j = i) (hm' : ∀ j, q.mode = .parked j → j = i) (hl : x'.leaving = x.leaving)
    (hc : x.leaving = true → x'.readers = x.readers)
    (hr : ∀ S : Finset Nat, (∀ u, u ∈ S ↔ w.mode u = .parked i) → x.readers = S.card →
      ∃ S' : Finset Nat, (∀ u, u ∈ S' ↔ if u = t then q.mode = .parked i else w.mode u = .parked i) ∧
        x'.readers = S'.card) :
    Readers ((w.setInst i x').setProg t q) := by
  have hmode : ∀ u, ((w.setInst i x').setProg t q).mode u = if u = t then q.mode else w.mode u := fun u =>
    mode_update rfl
  refine ⟨fun u j hp => ?_, fun j y hy => ?_, forall_update h.clear fun hly => ?_⟩
  · by_cases hj : j = i
    · subst hj; exact ⟨x', update_self ..⟩
    · rw [hmode] at hp
      have hu : u ≠ t := fun he => by
        rw [if_pos he] at hp
        exact hj (hm' j hp)
      rw [if_neg hu] at hp
      obtain ⟨y, hy⟩ := h.known u j hp
      exact ⟨y, (update_of_ne hj ..).trans hy⟩
  · rcases update_eq_some hy with ⟨rfl, rfl⟩ | ⟨hj, hy⟩
    · obtain ⟨S, hS, hcard⟩ := h.counted j x hx
      obtain ⟨S', hS', hcard'⟩ := hr S hS hcard
      refine ⟨S', fun u => ?_, hcard'⟩
      rw [hS', hmode]
      split <;> rfl
    · obtain ⟨S, hS, hcard⟩ := h.counted j y hy
      refine ⟨S, fun u => ?_, hcard⟩
      rw [hS, hmode]
      split
      · rename_i hu
        subst hu
        exact iff_of_false (fun he => hj (hm j he)) fun he => hj (hm' j he)
      · rfl
  · rw [hl] at hly
    exact (hc hly).trans (h.clear i x hx hly)

/-- An access to a streamer object. -/
theorem touch (hp : w.threads t = some p) (hx : w.insts i = some x)
    (ht : Touched t i x p.mode q.mode x') (hc : p.mode = .registering i → x.leaving = false) :
    Readers ((w.setInst i x').setProg t q) := by
  have hmode := w.mode_eq hp
  -- the modes before and after are not those of a reader
  have other : ∀ {m m' : Mode}, p.mode = m → q.mode = m' → (∀ j, m ≠ .parked j) → (∀ j, m' ≠ .parked j) →
      x.Reads x' → Readers ((w.setInst i x').setProg t q) := fun hm hm' hne hne' hr =>
    (h.inst hx rfl rfl hr : Readers (w.setInst i x')).goOn rfl rfl
      (fun j hj => hne j (hm ▸ hmode ▸ hj)) (fun j hj => hne' j (hm' ▸ hj))
  generalize hm : p.mode = m at ht
  generalize hm' : q.mode = m' at ht
  cases ht with
  | unlockMu hl => exact other hm hm' nofun (ne_parked hl) (reads_of_eq rfl id id)
  | kill =>
    refine other hm hm' nofun nofun (reads_of_eq rfl id fun hd => ?_)
    -- `stop` stays open only if the streamer was dead
    simp only [dormant, Bool.true_and, Bool.not_or, Bool.and_eq_true, Bool.not_eq_true', Bool.not_not] at hd ⊢
    exact ⟨hd.2, hd.1⟩
  | park =>
    have hno : ∀ j, w.mode t ≠ .parked j := fun j he => by rw [hmode, hm] at he; cases he
    refine h.register hx (fun j he => (hno j he).elim) (fun j he => ?_) rfl (fun hl => ?_) fun S hS hcard => ?_
    · rw [hm'] at he; cases he; rfl
    · rw [hc hm] at hl; cases hl
    · have hnot : t ∉ S := fun ht => hno i ((hS t).mp ht)
      refine ⟨insert t S, fun u => ?_, by rw [card_insert_of_notMem hnot, ← hcard]⟩
      rw [mem_insert, hS]
      by_cases hu : u = t
      · simp [hu, hm']
      · simp [hu]
  | unpark hl =>
    have hin : w.mode t = .parked i := hmode.trans hm
    refine h.register hx (fun j he => ?_) (fun j he => (ne_parked hl j (hm' ▸ he)).elim) rfl (fun hlv => ?_)
      fun S hS hcard => ?_
    · rw [hin] at he; cases he; rfl
    · rw [h.clear i x hx hlv]
    · refine ⟨S.erase t, fun u => ?_, ?_⟩
      · rw [mem_erase, hS]
        by_cases hu : u = t
        · simp [hu, hm', ne_parked hl i]
        · simp [hu]
      · rw [card_erase_of_mem ((hS t).mpr hin), ← hcard]
  | _ => exact other hm hm' nofun nofun (reads_of_eq rfl id id)

variable {L : GoLib} {mode : Durability} {batchMax : Nat}

theorem act (hl : Locks w) {flt : Faults} {ok : Bool} (hp : w.threads t = some p)
    (hc : registersInTime w (.act t flt ok) = true) (he : w.act L t flt ok p = some w') : Readers w' := by
  have hmode := w.mode_eq hp
  have free : p.mode = .free → ∀ j, w.mode t ≠ .parked j := fun hm j he => by rw [hmode, hm] at he; cases he
  obtain ⟨q, -, ha⟩ := acted (hl.tidy t p hp) he
  cases ha with
  | quiet hm hm' hg hr hi hn ht => exact h.goOn ht hi (free hm) (ne_parked hm')
  | evict hpe hm' => exact h.goOn rfl rfl (free (by rw [hpe]; rfl)) (ne_parked hm')
  | @spawn path m tailSeq k hpe hm' =>
    exact (h.spawn hl path m tailSeq).goOn rfl rfl (free (by rw [hpe]; rfl)) (ne_parked hm')
  | touch hx ht hk hs =>
    refine h.touch hp hx ht fun hm => ?_
    obtain ⟨k, rfl⟩ := Prog.park_of_mode hm
    simpa [registersInTime, hp, hx] using hc

theorem rest (hx : w.insts i = some x) (ht : w'.threads = w.threads)
    (hi : w'.insts = update w.insts i (some x')) (hr : x'.readers = x.readers) (hp : x'.phase.counted = false)
    (hd : x'.dormant = x.dormant) : Readers w' :=
  h.inst hx ht hi (reads_of_eq hr (fun hc => by rw [hp] at hc; cases hc) fun hdx => hd ▸ hdx)

theorem move (hx : w.insts i = some x) (ht : Turn L mode batchMax w i x w') : Readers w' := by
  cases ht with
  | enqueue hm hp hw =>
    subst hw
    split <;> exact h.rest hx rfl rfl rfl rfl rfl
  | touchNone hp ht => exact h.inst hx rfl rfl (reads_of_eq rfl id id)
  | count hp hr hn => exact h.inst hx rfl rfl ⟨rfl, fun _ => .inr hn⟩
  | pass hp hn => exact h.inst hx rfl rfl (reads_of_eq rfl (fun _ => by rw [hp]; rfl) id)
  | unregister hp => exact h.inst hx rfl rfl (reads_of_eq rfl (fun _ => by rw [hp]; rfl) id)
  | retire hp => exact h.inst hx rfl rfl ⟨rfl, fun _ => .inl (by rw [leaving, hp]; rfl)⟩
  | refuse hp hr => exact h.inst hx rfl rfl (reads_of_eq rfl id id)
  | _ => exact h.rest hx rfl rfl rfl rfl rfl

theorem endJob {f : Inst → Inst} (hf : ∀ x : Inst, x.Reads (f x)) (responses : Job → List AppendResp)
    (j : Job) : Readers (w.endJob f responses j) := by
  unfold World.endJob
  cases hx : w.insts j.inst with
  | none => exact { h with }
  | some x => exact h.inst hx rfl rfl (hf { x with pending := x.pending - 1 })

theorem flush (batchMax : Nat) (ok : Bool) : Readers (w.flush batchMax ok) := by
  cases ok with
  | true => exact { h with }
  | false =>
    exact { w.flight.foldlRecOn failJob h fun _ h j _ => h.endJob (fun _ => ⟨rfl, .inl⟩) _ j with }

theorem chunk (flt : Faults) (ok scanOk : Bool) (n : Nat) (d : Deletion) : Readers (w.chunk flt ok scanOk n d) := by
  obtain ⟨db, history, deleting, he⟩ := chunk_eq w flt ok scanOk n d
  rw [he]
  exact { h with }

/-- **The step lemma.** -/
theorem step (hl : Locks w) {e : Event} (hc : registersInTime w e = true)
    (he : step L mode batchMax w e = some w') : Readers w' := by
  cases stepped he with
  | arrive t c ht _ =>
    exact h.goOn rfl rfl (fun j hm => by rw [World.mode, ht] at hm; cases hm) (ne_parked (loose_prog L c).1)
  | @act t flt ok p _ hp he => exact h.act hl hp hc he
  | move hx he => exact h.move hx (turned he)
  | flush ok => exact h.flush batchMax ok
  | callback n j _ =>
    have h₁ : Readers { w with landed := w.landed.eraseIdx n } := { h with }
    refine h₁.endJob (f := fun x => { x with st := applyReader x.st _ _ }) (fun x => ⟨rfl, .inl⟩) _ j
  | deliver n a _ hk =>
    have hm := w.mode_eq hk
    have hq := (hl.tidy _ _ hk) a.2
    exact h.goOn rfl rfl (fun j hj => by rw [hm] at hj; cases hj) fun j hj => by rw [hq.1] at hj; cases hj
  | chunk n flt ok scanOk d _ => exact h.chunk flt ok scanOk n d

omit h in
/-- **Nobody reads from a streamer that is leaving**, in every run whose readers register in time. -/
theorem reach (h : Reach (World.step L mode batchMax) (fun w e => registersInTime w e = true) World.start w) :
    Readers w := by
  have := h.invariant (P := fun w => Locks w ∧ Readers w)
    (fun _ _ _ ⟨hl, hi⟩ hc he => ⟨hl.step he, hi.step hl hc he⟩) ⟨locks_start, readers_start⟩
  exact this.2

theorem not_leaving (hm : w.mode t = .parked i) (hx : w.insts i = some x) : x.leaving = false := by
  obtain ⟨S, hS, hc⟩ := h.counted i x hx
  cases hl : x.leaving with
  | false => rfl
  | true =>
    rw [h.clear i x hx hl] at hc
    have hmem := (hS t).mpr hm
    rw [card_eq_zero.mp hc.symm] at hmem
    exact absurd hmem (notMem_empty t)

end Readers

/-! ## Parked readers -/

/-- **No reader waits on a dormant streamer** in any run whose readers register in time; if nothing is deleted, a
parked reader is attached to the streamer that serves its path. -/
theorem parked_reader_attached (L : GoLib) (mode : Durability) (batchMax : Nat) (w : World) :
    (Reach (step L mode batchMax) (fun w e => registersInTime w e = true) start w →
      ∀ t i, w.mode t = .parked i → ∃ x, w.insts i = some x ∧ ¬ (x.dead = true ∧ x.stop = false)) ∧
    (Reach (World.step L mode batchMax) (fun w e => (registersInTime w e && deletesNothing w e) = true) World.start w →
      ∀ t i, w.mode t = .parked i → ∃ x, w.insts i = some x ∧ w.registry x.st.path = some i) := by
  constructor
  · intro h t i hm
    have hr := Readers.reach h
    obtain ⟨x, hx⟩ := hr.known t i hm
    have hl := hr.not_leaving hm hx
    refine ⟨x, hx, fun ⟨hd, hs⟩ => ?_⟩
    simp [leaving, dormant, hd, hs] at hl
  · intro h t i hm
    have hr := Readers.reach (h.mono fun w e hc => ((Bool.and_eq_true _ _).mp hc).1)
    obtain ⟨hs, ks, hi⟩ := spared_reach (h.mono fun w e hc => ((Bool.and_eq_true _ _).mp hc).2)
    obtain ⟨x, hx⟩ := hr.known t i hm
    have hl := hr.not_leaving hm hx
    refine ⟨x, hx, hs.registered hi hx ?_⟩
    simp only [leaving, dormant, Bool.or_eq_false_iff, (hs.insts i x hx).1, Bool.not_false,
      Bool.and_true] at hl
    unfold gone
    rw [hl.2, Bool.false_or]
    cases hp : x.phase with
    | retireLeft => rw [hp] at hl; cases hl.1
    | _ => rfl

/-- A live reader parks on the streamer it has spawned, which then tries to retire. -/
def parkedEvents : List Event :=
  putEvents 0 ++ .arrive 1 (.handleGet samplePath true) :: acts 1 10 ++
    [.move 0 .timer, .move 0 .retireLock, .move 0 .retireCount]

/-- The retirement is called off, and the reader stays attached. -/
theorem parked_reader_stays :
    ∃ w, Reach (step plainLib .sync 1) (fun w e => (registersInTime w e && deletesNothing w e) = true)
        start w ∧ w.mode 1 = .parked 0 ∧
      (∃ x, w.insts 0 = some x ∧ ¬ (x.dead = true ∧ x.stop = false)) ∧
      ∃ x, w.insts 0 = some x ∧ w.registry x.st.path = some 0 := by
  obtain ⟨w, hrun, hm⟩ : ∃ w ∈ run (guarded (step plainLib .sync 1) fun w e => registersInTime w e &&
      deletesNothing w e)
      start parkedEvents, w.mode 1 = .parked 0 := by decide
  have hr := reach_guarded hrun
  obtain ⟨h₁, h₂⟩ := parked_reader_attached plainLib .sync 1 w
  exact ⟨w, hr, hm, h₁ (hr.mono fun w e hc => ((Bool.and_eq_true _ _).mp hc).1) 1 0 hm, h₂ hr 1 0 hm⟩

/-- `Tail` gives the address of a streamer, which retires before `Next` is called; then an append is made. -/
def cursorEvents : List Event :=
  putEvents 0 ++ .arrive 1 (.tail samplePath) :: acts 1 7 ++
    [.move 0 .timer, .move 0 .retireLock, .move 0 .retireCount, .move 0 .retirePending, .move 0 .unregister,
      .move 0 .retire] ++
    .arrive 2 (.next 0) :: acts 2 1 ++
    .arrive 3 (.handlePost samplePath (samplePost 0)) :: acts 3 14 ++
    [.move 1 .recv, .move 1 (.plan noFaults 0), .move 1 (.commit true)]

/-- **A cursor waits on a dormant streamer**: it is parked on the streamer 0, which has retired and whose `stop` is
open, while the streamer 1 has published a record at the path. -/
theorem reader_parks_on_dormant :
    ∃ w x y, Reach (step plainLib .sync 1) (fun w e => deletesNothing w e = true) start w ∧
      w.mode 2 = .parked 0 ∧ w.insts 0 = some x ∧ x.dead = true ∧ x.stop = false ∧ x.st.tail = 0 ∧
      w.registry samplePath = some 1 ∧ w.insts 1 = some y ∧ y.st.tail = 1 := by
  obtain ⟨w, hw, x, hx, y, hy, hm, hreg, hd, hs, ht, hty⟩ :
      ∃ w ∈ run (guarded (step plainLib .sync 1) fun w e => deletesNothing w e) start cursorEvents,
      ∃ x ∈ w.insts 0, ∃ y ∈ w.insts 1, w.mode 2 = .parked 0 ∧ w.registry samplePath = some 1 ∧ x.dead = true ∧
      x.stop = false ∧ x.st.tail = 0 ∧ y.st.tail = 1 := by decide
  exact ⟨w, x, y, reach_guarded hw, hm, hx, hd, hs, ht, hreg, hy, hty⟩

end Yasdb.Lifecycle
