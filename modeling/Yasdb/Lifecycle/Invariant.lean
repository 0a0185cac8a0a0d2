import Yasdb.Lifecycle.History

/-!
# The invariant of a running server

In every state of a running server the handlers keep their discipline and their knowledge is right, and streamers and
queued jobs write the metadata of their own stream only (`Inv`). Two conditions on the steps of a run give more:

- `deletesQuietly`: a hard delete is committed when no streamer of the stream has work left. Then the store agrees with
  the history of commits, and a streamer with work to do belongs to the owner of its path;
- `spawnsClean`: a spawn lock is taken to spawn only for a path without a tombstone. Then no path with a tombstone has a
  live streamer, and no request is sent after the tombstone.
-/

namespace Yasdb.Lifecycle

open Batch Function List Inst Ctl Phase Option

variable {now : Int64} {s s' : Streamer}

/-! ## The two conditions -/

/-- The goroutine of the streamer has nothing to do that could lead to a commit. -/
def Inst.quiet (x : Inst) : Bool :=
  match x.phase with
  | .draining _ | .committing .. | .touching .. => false
  | .idle | .retiring | .retireLocked | .retireCounted | .retirePassed => x.reqs.isEmpty && !x.touch
  | .retireLeft | .stopping | .exited => true

/-- No streamer of the stream `id` has work left, and no job of it is queued. -/
def World.quietAbout (w : World) (id : Nat) : Bool :=
  ((List.range w.nextInst).all fun i => (w.insts i).all fun x => x.st.id != id || x.quiet) &&
    (w.queue ++ w.flight).all fun j => j.id != id

/-- The step, if it commits a hard delete, does so when the streamers of that stream are quiet. -/
def deletesQuietly (w : World) : World.Event → Bool
  | .act t _ true =>
    match w.threads t with
    | some (.commit (.hardDelete _ m) _) => w.quietAbout m.streamID
    | _ => true
  | _ => true

/-- The step, if it takes a spawn lock to spawn, does so for a path without a tombstone. -/
def spawnsClean (w : World) : World.Event → Bool
  | .act t _ _ =>
    match w.threads t with
    | some (.lockSpawn path true _) => !w.tombstoned path
    | _ => true
  | _ => true

/-! ## The control state of a world -/

/-- The streamer holds its own mutex. -/
def Phase.locked : Phase → Bool
  | .retireLocked | .retireCounted | .retirePassed | .retireLeft => true
  | _ => false

/-- The streamer has retired from the registry, and is about to be marked dead. -/
def Phase.left : Phase → Bool
  | .retireLeft => true
  | _ => false

theorem Phase.locked_of_left {p : Phase} (h : p.left = true) : p.locked = true := by
  cases p with
  | retireLeft => rfl
  | _ => cases h

/-- Dead, or as good as dead. -/
def Inst.gone (x : Inst) : Bool := x.dead || x.phase.left

def Inst.shape (x : Inst) : Shape := ⟨x.st.path, x.gone, x.mu⟩

theorem Inst.gone_of_not_left {x : Inst} (h : x.phase.left = false) : x.gone = x.dead := by
  rw [gone, h, Bool.or_false]

/-- A change that the control state does not see. -/
theorem Inst.shape_eq {x x' : Inst} (hp : x'.st.path = x.st.path) (hd : x'.dead = x.dead) (hm : x'.mu = x.mu)
    (hl : x.phase.left = false) (hl' : x'.phase.left = false) : x'.shape = x.shape := by
  unfold shape
  rw [gone_of_not_left hl, gone_of_not_left hl', hp, hd, hm]

def World.ctl (w : World) : Ctl where
  metaMu := w.metaMu
  nextID := w.nextID
  spawnLocks := w.spawnLocks
  registry := w.registry
  insts := fun i => (w.insts i).map shape
  owner := owners w.history
  tomb := w.tombstoned

section Ctl

variable {w : World} {i : Nat} {x x' : Inst}

theorem World.ctl_insts (h : w.insts i = some x) : w.ctl.insts i = some x.shape := by
  show (w.insts i).map shape = _
  rw [h]; rfl

theorem World.ctl_setInst (w : World) (i : Nat) (x : Inst) : (w.setInst i x).ctl = w.ctl.setInst i x.shape := by
  refine Ctl.ext rfl rfl rfl rfl (funext fun j => ?_) rfl rfl
  show (update w.insts i (some x) j).map shape = update w.ctl.insts i (some x.shape) j
  by_cases hj : j = i
  · subst hj; rw [update_self, update_self]; rfl
  · rw [update_of_ne hj, update_of_ne hj]; rfl

theorem World.ctl_setInst_of_shape (h : w.insts i = some x) (hs : x'.shape = x.shape) :
    (w.setInst i x').ctl = w.ctl := by
  rw [w.ctl_setInst, hs]
  refine Ctl.ext rfl rfl rfl rfl ?_ rfl rfl
  exact (congrArg _ (w.ctl_insts h).symm).trans (update_eq_self i w.ctl.insts)

/-- A commit that leaves owners and tombstones. -/
theorem World.ctl_committed (w : World) {ops : List Op} {entries : List Entry}
    (ho : owners (w.history ++ entries) = owners w.history)
    (ht : ∀ p, Store.tombstoneAt (applyOps w.db ops) p = w.db.tombstoneAt p) :
    (w.committed ops entries).ctl = w.ctl := by
  refine Ctl.ext rfl rfl rfl rfl rfl ho (funext fun p => ?_)
  show softDeleted _ = softDeleted _
  exact congrArg _ (ht p)

/-- A creation takes the path and the next id. -/
theorem World.ctl_create (w : World) {path : Bytes} {id : Nat} {ops : List Op} (hc : Creates path id ops) :
    (w.commitBy (.create path id ops)).ctl =
      { w.ctl with owner := update w.ctl.owner path (some id), nextID := id + 1 } := by
  refine Ctl.ext rfl rfl rfl rfl rfl (owners_snoc _ _) (funext fun p => ?_)
  show softDeleted _ = softDeleted _
  exact congrArg _ (hc.tombstoneAt w.db p)

/-- A hard delete frees the path. -/
theorem World.ctl_hardDelete (w : World) (path : Bytes) (m : StreamMeta) : (w.commitBy (.hardDelete path m)).ctl =
      { w.ctl with owner := update w.ctl.owner path none, tomb := update w.ctl.tomb path false } := by
  refine Ctl.ext rfl rfl rfl rfl rfl (owners_snoc _ _) (funext fun p => ?_)
  show softDeleted (Finmap.lookup (.tombstoneKey p) (applyOps w.db (Server.deleteOps path m))) =
    update w.ctl.tomb path false p
  rw [lookup_deleteOps w.db path m (by simp)]
  by_cases hp : p = path
  · subst hp
    rw [update_self]
    simp [softDeleted]
  · rw [update_of_ne hp, effect_ne fun op ho => ?_]
    · rfl
    · simp only [mem_cons, not_mem_nil, or_false] at ho
      rcases ho with rfl | rfl | rfl | rfl | rfl | rfl | rfl
      iterate 7 simp [Ne.symm hp]

/-- A soft delete only sets the tombstone. -/
theorem World.ctl_softDelete (w : World) (path : Bytes) (m : StreamMeta) :
    (w.commitBy (.softDelete path m)).ctl = { w.ctl with tomb := update w.ctl.tomb path true } := by
  refine Ctl.ext rfl rfl rfl rfl rfl (owners_snoc _ _) (funext fun p => ?_)
  show softDeleted (Finmap.lookup (.tombstoneKey p) (applyOps w.db [_])) = update w.ctl.tomb path true p
  by_cases hp : p = path
  · subst hp
    rw [update_self, lookup_applyOps]
    simp [softDeleted]
  · rw [update_of_ne hp, lookup_applyOps_ne fun op ho => ?_]
    · rfl
    · rw [mem_singleton.mp ho]
      simp [Ne.symm hp]

end Ctl

/-! ## Streamers and jobs -/

/-- The batch in hand. -/
def Phase.ops : Phase → Option (List Op)
  | .committing c _ => some c.ops
  | .touching ops _ => some ops
  | _ => none

/-- The requests in hand. -/
def Phase.batch : Phase → List Request
  | .draining batch => batch
  | .committing _ batch => batch
  | _ => []

/-- The requests sent to a streamer and not yet answered, those of queued jobs apart. -/
def Inst.requests (x : Inst) : List Request := x.reqs ++ x.phase.batch

/-- The streamer may still commit. -/
def Inst.Active (x : Inst) : Prop := x.gone = false ∨ x.quiet = false

/-- A streamer object, given the owners of the paths. -/
structure Inst.Sound (Q R : Prop) (f : Bytes → Option Nat) (x : Inst) : Prop where
  id : x.st.streamMeta.streamID = x.st.id
  mu : x.phase.locked = true → x.mu = some .self
  writes : ∀ ops, x.phase.ops = some ops → WritesMeta x.st.path x.st.id ops
  active : Q → x.Active → f x.st.path = some x.st.id
  late : R → ∀ r ∈ x.requests, r.late = false

structure Job.Sound (Q R : Prop) (f : Bytes → Option Nat) (j : Job) : Prop where
  writes : ∃ path, WritesMeta path j.id j.c.ops ∧ (Q → f path = some j.id)
  late : R → ∀ r ∈ j.batch, r.late = false

section Sound

variable {Q R : Prop} {f f' : Bytes → Option Nat} {x x' : Inst}

/-- A streamer goes on with its own stream. -/
theorem Inst.Sound.next (h : x.Sound Q R f) (hp : x'.st.path = x.st.path) (hid : x'.st.id = x.st.id)
    (hm : x'.st.streamMeta.streamID = x.st.streamMeta.streamID) (hmu : x'.phase.locked = true → x'.mu = some .self)
    (hw : ∀ ops, x'.phase.ops = some ops → WritesMeta x.st.path x.st.id ops) (ha : x'.Active → x.Active)
    (hr : ∀ r ∈ x'.requests, r ∈ x.requests) : x'.Sound Q R f :=
  ⟨by rw [hm, hid]; exact h.id, hmu, fun ops ho => by rw [hp, hid]; exact hw ops ho,
    fun hQ hx => by rw [hp, hid]; exact h.active hQ (ha hx), fun hR r hr' => h.late hR r (hr r hr')⟩

/-- A turn to a phase that neither holds `mu` nor has a batch to commit. -/
theorem Inst.Sound.turn (h : x.Sound Q R f) (hp : x'.st.path = x.st.path) (hid : x'.st.id = x.st.id)
    (hm : x'.st.streamMeta.streamID = x.st.streamMeta.streamID) (hl : x'.phase.locked = false)
    (ho : x'.phase.ops = none) (ha : x'.Active → x.Active) (hr : ∀ r ∈ x'.requests, r ∈ x.requests) :
    x'.Sound Q R f := by
  refine h.next hp hid hm (fun h' => ?_) (fun ops h' => ?_) ha hr
  · rw [hl] at h'
    cases h'
  · rw [ho] at h'
    cases h'

theorem Inst.active_of_quiet (hq : x'.quiet = x.quiet) (hd : x.gone = true → x'.gone = true) (ha : x'.Active) :
    x.Active := by
  refine ha.imp (fun hd' => ?_) fun h' => hq ▸ h'
  cases hx : x.gone with
  | false => rfl
  | true => rw [hd hx] at hd'; cases hd'

theorem Inst.Sound.idle (h : x.Sound Q R f) (hp : x'.st.path = x.st.path) (hid : x'.st.id = x.st.id)
    (hm : x'.st.streamMeta.streamID = x.st.streamMeta.streamID) (hmu : x.phase.locked = true → x'.mu = x.mu)
    (hph : x'.phase = x.phase) (hr : x'.reqs = x.reqs) (ht : x'.touch = x.touch)
    (hd : x.dead = true → x'.dead = true) : x'.Sound Q R f := by
  refine h.next hp hid hm (fun hl => ?_) (fun ops ho => h.writes ops (hph ▸ ho))
    (active_of_quiet (by unfold quiet; rw [hph, hr, ht]) fun hg => ?_) fun r hr' => ?_
  · rw [hph] at hl
    exact (hmu hl).trans (h.mu hl)
  · unfold gone at hg ⊢
    rw [hph]
    exact Bool.or_eq_true_iff.mpr ((Bool.or_eq_true_iff.mp hg).imp_left hd)
  · unfold requests at hr' ⊢
    rwa [hph, hr] at hr'

/-- At the select, or in `tryRetire` and registered. -/
def Phase.resting : Phase → Bool
  | .idle | .retiring | .retireLocked | .retireCounted | .retirePassed => true
  | _ => false

theorem Phase.of_resting {p : Phase} (h : p.resting = true) : p.ops = none ∧ p.batch = [] := by
  cases p with
  | idle => exact ⟨rfl, rfl⟩
  | retiring => exact ⟨rfl, rfl⟩
  | retireLocked => exact ⟨rfl, rfl⟩
  | retireCounted => exact ⟨rfl, rfl⟩
  | retirePassed => exact ⟨rfl, rfl⟩
  | _ => cases h

theorem Phase.left_of_resting {p : Phase} (h : p.resting = true) : p.left = false := by
  cases p with
  | retireLeft => cases h
  | _ => rfl

theorem Inst.quiet_of_resting (h : x.phase.resting = true) : x.quiet = (x.reqs.isEmpty && !x.touch) := by
  unfold quiet
  cases hp : x.phase with
  | idle => rfl
  | retiring => rfl
  | retireLocked => rfl
  | retireCounted => rfl
  | retirePassed => rfl
  | _ => rw [hp] at h; cases h

theorem Inst.requests_of_resting (hph : x'.phase.resting = true) (hr : x'.reqs = x.reqs) :
    ∀ r ∈ x'.requests, r ∈ x.requests := fun r hr' => by
  rw [requests, (of_resting hph).2, append_nil, hr] at hr'
  exact mem_append_left _ hr'

theorem Inst.Sound.rest (h : x.Sound Q R f) (hph : x.phase.resting = true) (hph' : x'.phase.resting = true)
    (hst : x'.st = x.st) (hmu : x'.phase.locked = true → x'.mu = some .self) (hr : x'.reqs = x.reqs)
    (ht : x'.touch = x.touch) (hd : x'.dead = x.dead) : x'.Sound Q R f := by
  refine h.next (by rw [hst]) (by rw [hst]) (by rw [hst]) hmu (fun ops ho => ?_)
    (active_of_quiet ?_ fun h' => ?_) (requests_of_resting hph' hr)
  · rw [(of_resting hph').1] at ho; cases ho
  · rw [quiet_of_resting hph, quiet_of_resting hph', hr, ht]
  · rw [gone_of_not_left (left_of_resting hph)] at h'
    rw [gone_of_not_left (left_of_resting hph'), hd, h']

theorem streamID_applyWriter (s : Streamer) (pend : PendingBurst) (mc : Bool) :
    (applyWriter s pend mc).streamMeta.streamID = s.streamMeta.streamID := by
  cases mc with
  | false => rfl
  | true => rfl

/-- A streamer without work needs no path. -/
theorem Inst.Sound.owners (h : x.Sound Q R f) (hf : Q → x.Active → f' x.st.path = f x.st.path) : x.Sound Q R f' :=
  ⟨h.id, h.mu, h.writes, fun hQ ha => (hf hQ ha).trans (h.active hQ ha), h.late⟩

/-- A burst writes the metadata of its stream only. -/
theorem writesMeta_burst {L : GoLib} {flt : Faults} {db : Store}
    {batch : List AppendReq} {c : CommitBurst} (h : processBurst L flt db now s batch = (s', .commit c))
    (hid : s.streamMeta.streamID = s.id) : WritesMeta s.path s.id c.ops := by
  obtain ⟨hl, -, p, -, rfl, rfl, -, hP⟩ := processBurst_commit h
  rw [← hl.path, ← hl.id]
  refine ⟨fun q e he => ?_, fun q => effect_burstOps_other hP.records _ (by simp)⟩
  change effect _ (burstOps _ _ _) = _ at he
  rw [effect_burstOps_meta hP.records] at he
  split at he
  · cases he
    refine ⟨(‹_ ∧ _›).1, _, rfl, ?_⟩
    show p.st.streamMeta.streamID = p.st.id
    rw [hl.streamMeta, hl.id, hid]
  · cases he

/-- Without a refresh nothing changes. -/
theorem ttlRefreshOps_none (h : ttlRefreshOps s now = (s', none)) : s' = s := by
  unfold ttlRefreshOps at h
  split at h
  · cases h; rfl
  · dsimp only at h
    split at h
    · cases h; rfl
    · cases h

/-- A touch writes the metadata of its own stream. -/
theorem writesMeta_touch {ops : List Op} (h : ttlRefreshOps s now = (s', some ops))
    (hid : s.streamMeta.streamID = s.id) :
    s'.path = s.path ∧ s'.id = s.id ∧ s'.streamMeta.streamID = s.streamMeta.streamID ∧
      WritesMeta s.path s.id (ops ++ [Op.put (.metaKey s'.path) s'.streamMeta]) := by
  unfold ttlRefreshOps at h
  split at h
  · cases h
  · dsimp only at h
    split at h
    · cases h
    · cases h
      refine ⟨rfl, rfl, rfl, .append (writesMeta_of_keyType (fun op ho => ?_) _ _) ⟨fun q e he => ?_, fun q => ?_⟩⟩
      · rcases mem_cons.mp ho with rfl | ho
        · simp
        · split at ho
          · rw [mem_singleton.mp ho]; simp
          · cases ho
      · by_cases hq : q = s.path
        · subst hq
          simp only [effect_cons, effect_nil, none_or, Op.effect_put_self, some.injEq] at he
          exact ⟨rfl, _, he.symm, hid⟩
        · simp [Ne.symm hq] at he
      · simp

end Sound

/-! ## The invariant -/

/-- The store, the streamers and the jobs. -/
structure Data (Q R : Prop) (w : World) : Prop where
  log : Q → Log w.db w.nextID w.history
  insts : ∀ i x, w.insts i = some x → x.Sound Q R (owners w.history)
  jobs : ∀ j ∈ w.queue ++ w.flight, j.Sound Q R (owners w.history)
  fresh : ∀ i, w.nextInst ≤ i → w.insts i = none

/-- The invariant of a running server; `ks` is what the handlers know. -/
structure Inv (Q R : Prop) (w : World) (ks : Nat → Know) : Prop where
  ctl : CtlInv Q R w.ctl ks
  good : ∀ t p, w.threads t = some p → p.Good (ks t)
  idle : ∀ t, w.threads t = none → ks t = {}
  data : Data Q R w

/-- **The invariant holds at the start.** -/
theorem inv_start (Q R : Prop) : Inv Q R World.start fun _ => {} where
  ctl := ⟨fun t => Know.Holds.none Q R _ t, fun _ _ h => (by cases h), fun _ _ h => (by cases h),
    fun _ _ _ h => (by cases h)⟩
  good := fun _ _ h => (by cases h)
  idle := fun _ _ => rfl
  data := ⟨fun _ => Log.start, fun _ _ h => (by cases h), fun _ h => (by cases h), fun _ _ => rfl⟩

namespace Data

variable {Q R : Prop} {w : World} {i : Nat} {x x' : Inst}

section

variable (h : Data Q R w)
include h

theorem lt_nextInst (hx : w.insts i = some x) : i < w.nextInst := by
  by_contra hi
  rw [h.fresh i (by omega)] at hx
  cases hx

theorem setInst (hx : w.insts i = some x) (hx' : x'.Sound Q R (owners w.history)) : Data Q R (w.setInst i x') := by
  refine ⟨h.log, fun j y hy => ?_, h.jobs, fun j hj => ?_⟩
  · change update w.insts i (some x') j = some y at hy
    by_cases hj : j = i
    · subst hj
      rw [update_self, some.injEq] at hy
      exact hy ▸ hx'
    · rw [update_of_ne hj] at hy
      exact h.insts j y hy
  · have hne : j ≠ i := by have := h.lt_nextInst hx; change w.nextInst ≤ j at hj; omega
    exact (update_of_ne hne ..).trans (h.fresh j hj)

theorem committed {ops : List Op} {entries : List Entry}
    (ho : owners (w.history ++ entries) = owners w.history)
    (hl : Q → Log (applyOps w.db ops) w.nextID (w.history ++ entries)) : Data Q R (w.committed ops entries) := by
  refine ⟨hl, fun i x hx => ?_, fun j hj => ?_, h.fresh⟩
  · show x.Sound Q R (owners (w.history ++ entries))
    rw [ho]; exact h.insts i x hx
  · show j.Sound Q R (owners (w.history ++ entries))
    rw [ho]; exact h.jobs j hj

/-- What a quiet delete finds. -/
theorem quiet_of_quietAbout {id : Nat} (hq : w.quietAbout id = true) :
    (∀ i x, w.insts i = some x → x.st.id = id → x.quiet = true) ∧ ∀ j ∈ w.queue ++ w.flight, j.id ≠ id := by
  unfold World.quietAbout at hq
  rw [Bool.and_eq_true, List.all_eq_true, List.all_eq_true] at hq
  refine ⟨fun i x hx hid => ?_, fun j hj => by simpa using hq.2 j hj⟩
  have := hq.1 i (mem_range.mpr (h.lt_nextInst hx))
  rw [hx] at this
  simpa [hid] using this

end

end Data

end Yasdb.Lifecycle
