import Yasdb.Lifecycle.Deletion

/-!
# A soft-deleted path has no streamer

A soft delete leaves the metadata of the stream in place, and `getOrSpawn` looks at nothing else. `Server.Tail` calls it
without a look at the tombstone, and the other handlers look before they have the spawn lock.

- `tail_revives_soft_deleted`: `Tail` registers a streamer for a soft-deleted path, which accepts appends;
- `soft_deleted_no_streamer`: no path with a tombstone has a streamer if a spawn lock is taken to spawn only for a path
  without one (`spawnsClean`);
- `registry_exact`: in every run the registry lists the streamers that are alive.
-/

namespace Yasdb.Lifecycle

open Batch Runs World Option Function

/-! ## Handlers that read -/

/-- The handler of a call, alone from `w` on, answers with `status`, and its steps meet the condition. -/
def Answers (L : GoLib) (mode : Durability) (batchMax : Nat) (C : World → Event → Bool) (w : World) (c : Call)
    (status : Nat) : Prop :=
  ∃ t flt n w', run (fun w e => if C w e then step L mode batchMax w e else none) w
    (.arrive t c :: List.replicate n (.act t flt true)) = some w' ∧ w'.threads t = some (.done status)

/-- What is read of a path without a tombstone. -/
def ClearRead (path : Bytes) : (key : Key) → Except String (Option key.Val) → Prop
  | .tombstoneKey p, .ok t => p = path → softDeleted t = false
  | _, _ => True

/-- A handler that only reads and spawns, and does not answer 410 while the path has no tombstone. -/
def Prog.NotGone (path : Bytes) : Prog → Prop
  | .done status => status ≠ 410
  | .get key k => ∀ r, ClearRead path key r → (k r).NotGone path
  | .lookup _ k => ∀ r, (k r).NotGone path
  | .lockSpawn _ _ k => k.NotGone path
  | .unlockSpawn _ k => k.NotGone path
  | .spawn _ _ _ k => ∀ i, (k i).NotGone path
  | _ => False

theorem notGone_getOrSpawn {path : Bytes} {k : Except String (Option Nat) → Prog} (hk : ∀ r, (k r).NotGone path) :
    (getOrSpawn path k).NotGone path := by
  rintro (_ | i)
  · rintro (_ | i)
    · rintro (e | _ | m) -
      · exact hk _
      · exact hk _
      · rintro (e | t) -
        · exact hk _
        · exact fun i => hk _
    · exact hk _
  · exact hk _

theorem notGone_tail (path : Bytes) : (tail path).NotGone path := by
  refine notGone_getOrSpawn ?_
  rintro (e | _ | i)
  · exact nofun
  · rintro (e | t) ht
    · exact nofun
    · dsimp only
      rw [ht rfl]
      exact nofun
  · exact nofun

theorem notGone_info (path : Bytes) : (info path).NotGone path := by
  rintro (e | t) ht
  · exact nofun
  · dsimp only
    rw [ht rfl]
    rintro (e | _ | m) -
    · exact nofun
    · exact nofun
    · rintro (_ | i)
      · rintro (e | _ | m) -
        · exact nofun
        · exact nofun
        · rintro (e | t) -
          · exact nofun
          · exact nofun
      · exact nofun

section NotGone

variable {L : GoLib} {mode : Durability} {batchMax : Nat} {C : World → Event → Bool} {w w' : World} {t : Nat}
  {flt : Faults} {path : Bytes} {p : Prog}

/-- One access of such a handler leaves the store. -/
theorem notGone_act (hp : p.NotGone path) (hc : w.tombstoned path = false) (he : w.act L t flt true p = some w') :
    w'.tombstoned path = false ∧ ∃ p', w'.threads t = some p' ∧ p'.NotGone path := by
  have hset : ∀ {w₁ : World} {k : Prog}, w₁.db = w.db → k.NotGone path → (w₁.setProg t k).tombstoned path = false ∧
        ∃ p', (w₁.setProg t k).threads t = some p' ∧ p'.NotGone path := fun {w₁ k} hdb hk =>
    ⟨(congrArg (fun db : Store => softDeleted (db.tombstoneAt path)) hdb).trans hc, k, update_self .., hk⟩
  cases p with
  | done status => cases he
  | get key k =>
    cases he
    refine hset rfl (hp _ ?_)
    cases key with
    | tombstoneKey q =>
      cases hr : Store.get flt w.db (.tombstoneKey q) with
      | error e => trivial
      | ok v =>
        rintro rfl
        rw [← Store.get_ok hr]
        exact hc
    | _ => trivial
  | lookup q k => cases he; exact hset rfl (hp _)
  | lockSpawn q s k =>
    simp only [act, ite_none_right_eq_some, some.injEq] at he
    obtain ⟨-, rfl⟩ := he
    exact hset rfl hp
  | unlockSpawn q k => cases he; exact hset rfl hp
  | spawn q m tailSeq k => cases he; exact hset rfl (hp _)
  | _ => exact hp.elim

/-- Such a handler, alone, does not answer 410. -/
theorem notGone_acts (n : Nat) : ∀ {w : World} {p : Prog}, w.threads t = some p → p.NotGone path →
    w.tombstoned path = false → ∀ {status : Nat},
      run (fun w e => if C w e then step L mode batchMax w e else none) w (List.replicate n (.act t flt true)) =
        some w' → w'.threads t = some (.done status) → status ≠ 410 := by
  induction n with
  | zero =>
    intro w p hp hng _ status hrun hd
    cases hrun
    rw [hp] at hd
    cases hd
    exact hng
  | succ n ih =>
    intro w p hp hng hc status hrun hd
    obtain ⟨w₁, he, hrun⟩ := bind_eq_some_iff.mp hrun
    rw [ite_none_right_eq_some] at he
    have hact : w.act L t flt true p = some w₁ := by
      obtain ⟨p', hp', he⟩ := bind_eq_some_iff.mp he.2
      rw [hp] at hp'
      cases hp'
      exact he
    obtain ⟨hc', p', hp', hng'⟩ := notGone_act hng hc hact
    exact ih hp' hng' hc' hrun hd

theorem answers_ne_gone {c : Call} (hng : (c.prog L).NotGone path) (hc : w.tombstoned path = false) {status : Nat}
    (h : Answers L mode batchMax C w c status) : status ≠ 410 := by
  obtain ⟨t, flt, n, w', hrun, hd⟩ := h
  obtain ⟨w₁, he, hrun⟩ := bind_eq_some_iff.mp hrun
  rw [ite_none_right_eq_some] at he
  obtain ⟨-, he⟩ := he
  simp only [step, ite_none_right_eq_some, some.injEq] at he
  obtain ⟨-, rfl⟩ := he
  exact notGone_acts n (w := w.setProg t (c.prog L)) (update_self ..) hng hc hrun hd

/-- A `Tail` of a path without a streamer takes the spawn lock. -/
theorem clean_of_answers_tail (hreg : w.registry path = none) {status : Nat}
    (h : Answers L mode batchMax spawnsClean w (.tail path) status) : w.tombstoned path = false := by
  obtain ⟨t, flt, n, w', hrun, hd⟩ := h
  obtain ⟨w₁, he, hrun⟩ := bind_eq_some_iff.mp hrun
  rw [ite_none_right_eq_some] at he
  obtain ⟨-, he⟩ := he
  simp only [step, ite_none_right_eq_some, some.injEq] at he
  obtain ⟨-, rfl⟩ := he
  have ht : ∀ (w : World) p, (w.setProg t p).threads t = some p := fun w p => update_self ..
  -- the lookup finds nothing, so that the second access is the one that takes the lock
  cases n with
  | zero => cases hrun; rw [ht] at hd; cases hd
  | succ n =>
    obtain ⟨w₂, he, hrun⟩ := bind_eq_some_iff.mp hrun
    rw [ite_none_right_eq_some] at he
    obtain ⟨-, he⟩ := he
    simp only [step, ht, bind_some, Call.prog, tail, getOrSpawn, act, some.injEq] at he
    rw [show (w.setProg t _).registry path = none from hreg] at he
    subst he
    cases n with
    | zero => cases hrun; rw [ht] at hd; cases hd
    | succ n =>
      obtain ⟨w₃, he, -⟩ := bind_eq_some_iff.mp hrun
      rw [ite_none_right_eq_some] at he
      obtain ⟨hclean, -⟩ := he
      simp only [spawnsClean, ht, Bool.not_eq_true'] at hclean
      exact hclean

end NotGone

/-! ## The main result -/

/-- **A soft-deleted path has no streamer** in every run that takes spawn locks to spawn only for paths without a
tombstone, under either committer; no append sent after the tombstone is buffered, planned or queued; and where `Tail`
and `Info` both answer, neither answers 410. -/
theorem soft_deleted_no_streamer (L : GoLib) (mode : Durability) (batchMax : Nat) (w : World)
    (h : Reach (step L mode batchMax) (fun w e => spawnsClean w e = true) start w) :
    (∀ path i, w.registry path = some i → w.tombstoned path = false) ∧
    (∀ i x, w.insts i = some x → ∀ r ∈ x.requests, r.late = false) ∧
    (∀ j ∈ w.queue ++ w.flight, ∀ r ∈ j.batch, r.late = false) ∧
    ∀ path s s', Answers L mode batchMax spawnsClean w (.tail path) s →
      Answers L mode batchMax spawnsClean w (.info path) s' → (s = 410 ↔ s' = 410) := by
  obtain ⟨ks, hi⟩ := inv_reach (Q := False) (R := True) False.elim (fun _ _ _ hc => hc) h
  have hreg : ∀ path i, w.registry path = some i → w.tombstoned path = false := fun path i hp => by
    obtain ⟨x, hx, rfl, hd⟩ := hi.ctl.reg path i hp
    exact hi.ctl.clean trivial i x hx hd
  refine ⟨hreg, fun i x hx => (hi.data.insts i x hx).late trivial, fun j hj => (hi.data.jobs j hj).late trivial,
    fun path s s' htail hinfo => ?_⟩
  have hc : w.tombstoned path = false := by
    cases hr : w.registry path with
    | some i => exact hreg path i hr
    | none => exact clean_of_answers_tail hr htail
  exact iff_of_false (answers_ne_gone (notGone_tail path) hc htail) (answers_ne_gone (notGone_info path) hc hinfo)

/-! ## Sample runs -/

/-- The path of the sample fork. -/
def branchPath : Bytes := [47, 98]

/-- A fork of the sample path is created. -/
def branchEvents (t : Nat) : List Event :=
  .arrive t (.createFork { path := branchPath, sourcePath := samplePath } 0 0) :: acts t 4

/-- A stream is appended to, forked and deleted. -/
def softDeleteEvents : List Event :=
  putEvents 0 ++ postEvents 1 (samplePost 0) ++ [.move 0 (.commit true)] ++ branchEvents 2 ++
    .arrive 3 (.deleteStream samplePath) :: acts 3 12

/-- The resident streamer is gone with the soft delete. -/
theorem soft_deleted_no_streamer_forked :
    ∃ w, Reach (step plainLib .sync 1) (fun w e => spawnsClean w e = true) start w ∧
      w.tombstoned samplePath = true ∧ ∀ path i, w.registry path = some i → w.tombstoned path = false := by
  obtain ⟨w, hrun, htomb⟩ : ∃ w ∈ run (guarded (step plainLib .sync 1) fun w e => spawnsClean w e) start
      softDeleteEvents, w.tombstoned samplePath = true := by decide
  have hr := reach_guarded hrun
  exact ⟨w, hr, htomb, (soft_deleted_no_streamer plainLib .sync 1 w hr).1⟩

/-- A stream is forked and deleted, without a resident streamer. -/
def forkedDelete : List Event :=
  putEvents 0 ++ branchEvents 1 ++ .arrive 2 (.deleteStream samplePath) :: acts 2 9

/-- After that, `Tail` is called and an append is sent, which the streamer plans. -/
def tailAndPost : List Event :=
  forkedDelete ++ .arrive 3 (.tail samplePath) :: acts 3 7 ++
    .arrive 4 (.handlePost samplePath (samplePost 0)) :: acts 4 6 ++ [.move 0 .recv, .move 0 (.plan noFaults 0)]

/-- The status that the handler `t` has answered with. -/
def World.answer (w : World) (t : Nat) : Option Nat :=
  match w.threads t with
  | some (.done status) => some status
  | _ => none

theorem answer_eq {w : World} {t status : Nat} (h : w.answer t = some status) : w.threads t = some (.done status) := by
  unfold answer at h
  split at h
  · cases h; assumption
  · cases h

/-- A late request has been accepted, and its burst is about to be committed. -/
def Phase.commitsLate : Phase → Bool
  | .committing c [r] => r.late && c.accepted == [true]
  | _ => false

/-- **`Tail` revives a soft-deleted stream**: it answers 200 where `Info` answers 410, and it registers a streamer for
the path, which then accepts an append sent after the tombstone. -/
theorem tail_revives_soft_deleted :
    (∃ w, Reach (step plainLib .sync 1) Any start w ∧ w.tombstoned samplePath = true ∧
      Answers plainLib .sync 1 (fun _ _ => true) w (.tail samplePath) 200 ∧
      Answers plainLib .sync 1 (fun _ _ => true) w (.info samplePath) 410) ∧
    ∃ w x c r, Reach (step plainLib .sync 1) Any start w ∧ w.tombstoned samplePath = true ∧
      w.registry samplePath = some 0 ∧ w.insts 0 = some x ∧ x.phase = .committing c [r] ∧ r.late = true ∧
      c.accepted = [true] := by
  constructor
  · obtain ⟨w, hw, ht, ⟨w₁, hw₁, h₁⟩, w₂, hw₂, h₂⟩ : ∃ w ∈ run (step plainLib .sync 1) start forkedDelete,
        w.tombstoned samplePath = true ∧
        (∃ w₁ ∈ run (step plainLib .sync 1) w (.arrive 3 (.tail samplePath) :: acts 3 7), w₁.answer 3 = some 200) ∧
        ∃ w₂ ∈ run (step plainLib .sync 1) w (.arrive 3 (.info samplePath) :: acts 3 1),
          w₂.answer 3 = some 410 := by decide
    refine ⟨w, reach_any hw, ht, ⟨3, noFaults, 7, w₁, ?_, answer_eq h₁⟩,
      ⟨3, noFaults, 1, w₂, ?_, answer_eq h₂⟩⟩
    · simp only [if_true]; exact hw₁
    · simp only [if_true]; exact hw₂
  · obtain ⟨w, hw, ht, hreg, x, hx, hphase⟩ : ∃ w ∈ run (step plainLib .sync 1) start tailAndPost,
        w.tombstoned samplePath = true ∧ w.registry samplePath = some 0 ∧
        ∃ x ∈ w.insts 0, x.phase.commitsLate = true := by decide
    unfold Phase.commitsLate at hphase
    split at hphase
    · rename_i c r hph
      simp only [Bool.and_eq_true, beq_iff_eq] at hphase
      exact ⟨w, x, c, r, reach_any hw, ht, hreg, hx, hph, hphase.1, hphase.2⟩
    · cases hphase

/-- **The registry lists the streamers that are alive**, in every run, but for one that the holder of a spawn lock has
taken out. -/
theorem registry_exact {L : GoLib} {mode : Durability} {batchMax : Nat} {w : World}
    (h : Reach (step L mode batchMax) Any start w) (path : Bytes) :
    (∀ i, w.registry path = some i → ∃ x, w.insts i = some x ∧ x.st.path = path ∧ x.gone = false) ∧
    (w.spawnLocks (lockFor path) = none →
      ∀ i x, w.insts i = some x → x.st.path = path → x.gone = false → w.registry path = some i) := by
  obtain ⟨ks, hi⟩ := inv_reach (Q := False) (R := False) False.elim False.elim h
  refine ⟨fun i hr => ?_, fun hfree i x hx hp hd => ?_⟩
  · obtain ⟨y, hy, hp⟩ := hi.ctl.reg path i hr
    obtain ⟨x, hx, rfl⟩ := map_eq_some_iff.mp hy
    exact ⟨x, hx, hp⟩
  · subst hp
    rcases hi.ctl.live i x.shape (w.ctl_insts hx) hd with hr | ⟨t, -, hs⟩
    · exact hr
    · have hlock : w.spawnLocks (lockFor x.st.path) = some t := (hi.ctl.holds t).spawn _ hs
      rw [hfree] at hlock
      cases hlock

/-- The streamer that `Tail` has spawned is the registered one. -/
theorem registry_exact_tail : ∃ w x, Reach (step plainLib .sync 1) Any start w ∧ w.insts 0 = some x ∧ x.gone = false ∧
    w.registry samplePath = some 0 := by
  obtain ⟨w, hw, hfree, x, hx, hp, hd⟩ : ∃ w ∈ run (step plainLib .sync 1) start tailAndPost,
      w.spawnLocks (lockFor samplePath) = none ∧ ∃ x ∈ w.insts 0, x.st.path = samplePath ∧ x.gone = false := by decide
  exact ⟨w, x, reach_any hw, hx, hd, (registry_exact (reach_any hw) samplePath).2 hfree 0 x hx hp hd⟩

end Yasdb.Lifecycle
