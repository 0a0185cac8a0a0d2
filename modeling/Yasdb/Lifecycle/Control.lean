import Yasdb.Lifecycle.Model

/-!
# The control state of the server

What the handlers agree on through locks, without the data (`Ctl`): who holds which lock, which streamer object is
registered at a path and which are dead, which stream owns a path, and which paths carry a tombstone.

- `Ctl.Step`: what one agent may do to the control state, given the locks it holds;
- `Rely`: what a handler can rely on while others step (`Ctl.Step.rely`);
- `Know`: what a handler knows at a point of its execution, which is stable (`Know.Holds.rely`);
- `CtlInv`: what holds of the control state and the knowledge of all handlers, with one lemma for each kind of step.

Two parts hold only of some runs. `Q` stands for "the metadata of a path names its owner", `R` for "streamers are
spawned only for paths without a tombstone".
-/

namespace Yasdb.Lifecycle

open Function Option

variable {i : Nat} {p : Bytes}

/-! ## Control states -/

/-- A streamer object, as far as control goes; one that has retired from the registry counts as dead. -/
structure Shape where
  path : Bytes
  dead : Bool
  mu : Option Holder

@[ext] structure Ctl where
  metaMu : Option Nat
  nextID : Nat
  spawnLocks : Nat → Option Nat
  registry : Bytes → Option Nat
  insts : Nat → Option Shape
  /-- the stream created at a path and not hard-deleted since -/
  owner : Bytes → Option Nat
  tomb : Bytes → Bool

namespace Ctl

def setInst (c : Ctl) (i : Nat) (x : Shape) : Ctl := { c with insts := update c.insts i (some x) }

theorem insts_setInst (c : Ctl) (i : Nat) (x : Shape) : (c.setInst i x).insts i = some x := update_self ..

theorem insts_setInst_ne (c : Ctl) {j : Nat} (x : Shape) (h : j ≠ i) : (c.setInst i x).insts j = c.insts j :=
  update_of_ne h ..

theorem setInst_cases {c : Ctl} {j : Nat} {x y : Shape} (h : (c.setInst i x).insts j = some y) :
    (j = i ∧ y = x) ∨ (j ≠ i ∧ c.insts j = some y) := by
  by_cases hj : j = i
  · subst hj
    rw [insts_setInst, some.injEq] at h
    exact .inl ⟨rfl, h.symm⟩
  · exact .inr ⟨hj, insts_setInst_ne c x hj ▸ h⟩

/-- A step of the handler `t` (`some t`) or of another goroutine (`none`). -/
inductive Step (Q : Prop) : Option Nat → Ctl → Ctl → Prop where
  | same (a : Option Nat) (c : Ctl) : Step Q a c c
  | lockMeta {t : Nat} {c : Ctl} (h : c.metaMu = none) : Step Q (some t) c { c with metaMu := some t }
  | unlockMeta {t : Nat} {c : Ctl} (h : c.metaMu = some t) : Step Q (some t) c { c with metaMu := none }
  | lockSpawn {t : Nat} {c : Ctl} {s : Nat} (h : c.spawnLocks s = none) :
      Step Q (some t) c { c with spawnLocks := update c.spawnLocks s (some t) }
  | unlockSpawn {t : Nat} {c : Ctl} {s : Nat} (h : c.spawnLocks s = some t) :
      Step Q (some t) c { c with spawnLocks := update c.spawnLocks s none }
  | lockMu {a : Option Nat} {c : Ctl} {i : Nat} {x : Shape} (hx : c.insts i = some x) (h : x.mu = none) (o : Holder) :
      Step Q a c (c.setInst i { x with mu := some o })
  | unlockMu {t : Nat} {c : Ctl} {i : Nat} {x : Shape} (hx : c.insts i = some x) (h : x.mu = some (.thread t)) :
      Step Q (some t) c (c.setInst i { x with mu := none })
  | kill {t : Nat} {c : Ctl} {i : Nat} {x : Shape} (hx : c.insts i = some x) (h : x.mu = some (.thread t)) :
      Step Q (some t) c (c.setInst i { x with dead := true })
  | spawn {t : Nat} {c : Ctl} {p : Bytes} {i : Nat} (hl : c.spawnLocks (lockFor p) = some t) (hi : c.insts i = none) :
      Step Q (some t) c { c.setInst i ⟨p, false, none⟩ with registry := update c.registry p (some i) }
  | evict {t : Nat} {c : Ctl} (p : Bytes) : Step Q (some t) c { c with registry := update c.registry p none }
  /-- the streamer's own goroutine gives its mutex back, retired or not -/
  | release {c : Ctl} {i : Nat} {x : Shape} (hx : c.insts i = some x) (h : x.mu = some .self) :
      Step Q none c (c.setInst i { x with mu := none })
  | retire {c : Ctl} {i : Nat} {x : Shape} (hx : c.insts i = some x) (h : x.mu = some .self) :
      Step Q none c { c.setInst i { x with dead := true } with
        registry := if c.registry x.path = some i then update c.registry x.path none else c.registry }
  | create {t : Nat} {c : Ctl} {p : Bytes} (id : Nat) (hm : c.metaMu = some t) (ho : Q → c.owner p = none) :
      Step Q (some t) c { c with owner := update c.owner p (some id), nextID := id + 1 }
  | hardDelete {t : Nat} {c : Ctl} {p : Bytes} (hm : c.metaMu = some t) (hl : c.spawnLocks (lockFor p) = some t) :
      Step Q (some t) c
        { c with owner := update c.owner p none, tomb := update c.tomb p false }
  | softDelete {t : Nat} {c : Ctl} {p : Bytes} (hl : c.spawnLocks (lockFor p) = some t) :
      Step Q (some t) c { c with tomb := update c.tomb p true }

end Ctl

/-! ## What a handler can rely on -/

/-- What stays for the handler `t` from `c` to `c'`, by the locks it holds. -/
structure Rely (Q : Prop) (t : Nat) (c c' : Ctl) : Prop where
  metaMu : c.metaMu = some t → c'.metaMu = some t ∧ c'.nextID = c.nextID ∧ c'.owner = c.owner
  lock : ∀ s, c.spawnLocks s = some t → c'.spawnLocks s = some t
  vacant : ∀ p, c.spawnLocks (lockFor p) = some t → c.registry p = none → c'.registry p = none
  owner : ∀ p, c.spawnLocks (lockFor p) = some t → Q → ∀ id, c.owner p = some id → c'.owner p = some id
  clean : ∀ p, c.spawnLocks (lockFor p) = some t → c.tomb p = false → c'.tomb p = false
  old : ∀ p, c.spawnLocks (lockFor p) = some t → ∀ i x', c'.insts i = some x' → x'.path = p →
    ∃ x, c.insts i = some x ∧ x.path = p ∧ (x.dead = true → x'.dead = true)
  insts : ∀ i x, c.insts i = some x → ∃ x', c'.insts i = some x' ∧ x'.path = x.path ∧
    (x.mu = some (.thread t) → x'.mu = some (.thread t) ∧ x'.dead = x.dead)

section Rely

variable {Q : Prop} {t : Nat} {c c' : Ctl}

theorem rely_of_data (hm : c.metaMu = some t → c'.metaMu = some t)
    (hl : ∀ s, c.spawnLocks s = some t → c'.spawnLocks s = some t) (hn : c'.nextID = c.nextID)
    (hr : c'.registry = c.registry) (hi : c'.insts = c.insts) (ho : c'.owner = c.owner) (ht : c'.tomb = c.tomb) :
    Rely Q t c c' :=
  ⟨fun h => ⟨hm h, hn, ho⟩, hl, fun _ _ h => hr ▸ h, fun _ _ _ _ h => ho ▸ h, fun _ _ h => ht ▸ h,
    fun _ _ _ x' hx' hp => ⟨x', hi ▸ hx', hp, id⟩, fun _ x hx => ⟨x, hi ▸ hx, rfl, fun h => ⟨h, rfl⟩⟩⟩

/-- A step on one streamer object that leaves its path and does not revive it, nor touch it while `t` has its mutex. -/
theorem rely_setInst {x x' : Shape} (hx : c.insts i = some x) (hp : x'.path = x.path)
    (hd : x.dead = true → x'.dead = true) (hmu : x.mu ≠ some (.thread t)) : Rely Q t c (c.setInst i x') := by
  refine ⟨fun h => ⟨h, rfl, rfl⟩, fun _ h => h, fun _ _ h => h, fun _ _ _ _ h => h, fun _ _ h => h,
    fun p _ j y' hy' hpath => ?_, fun j y hy => ?_⟩
  · rcases Ctl.setInst_cases hy' with ⟨rfl, rfl⟩ | ⟨-, hy⟩
    · exact ⟨x, hx, hp ▸ hpath, hd⟩
    · exact ⟨y', hy, hpath, id⟩
  · by_cases hj : j = i
    · subst hj
      cases hx.symm.trans hy
      exact ⟨x', c.insts_setInst j x', hp, fun h => (hmu h).elim⟩
    · exact ⟨y, (c.insts_setInst_ne x' hj).trans hy, rfl, fun h => ⟨h, rfl⟩⟩

theorem Rely.setRegistry (h : Rely Q t c c') {f : Bytes → Option Nat}
    (hf : ∀ p, c.spawnLocks (lockFor p) = some t → c.registry p = none → f p = none) :
    Rely Q t c { c' with registry := f } :=
  ⟨h.metaMu, h.lock, hf, h.owner, h.clean, h.old, h.insts⟩

theorem Rely.refl (Q : Prop) (t : Nat) (c : Ctl) : Rely Q t c c := rely_of_data id (fun _ h => h) rfl rfl rfl rfl rfl

end Rely

/-- **The steps of others** leave what a handler relies on. -/
theorem Ctl.Step.rely {Q : Prop} {a : Option Nat} {c c' : Ctl} (h : Ctl.Step Q a c c') {t : Nat} (ha : a ≠ some t) :
    Rely Q t c c' := by
  have hne : ∀ {u : Nat} {o : Option Nat}, some u ≠ some t → o = some u → o ≠ some t := fun hu ho => ho ▸ hu
  cases h with
  | same => exact Rely.refl Q t c
  | lockMeta h => exact rely_of_data (fun hm => by rw [h] at hm; cases hm) (fun _ h => h) rfl rfl rfl rfl rfl
  | unlockMeta h => exact rely_of_data (fun hm => (hne ha h hm).elim) (fun _ h => h) rfl rfl rfl rfl rfl
  | @lockSpawn u _ s h =>
    refine rely_of_data id (fun s' hs => ?_) rfl rfl rfl rfl rfl
    have : s' ≠ s := fun he => by rw [he, h] at hs; cases hs
    exact (update_of_ne this ..).trans hs
  | @unlockSpawn u _ s h =>
    refine rely_of_data id (fun s' hs => ?_) rfl rfl rfl rfl rfl
    have : s' ≠ s := fun he => hne ha h (he ▸ hs)
    exact (update_of_ne this ..).trans hs
  | lockMu hx h o => exact rely_setInst hx rfl id (by rw [h]; simp)
  | unlockMu hx h => exact rely_setInst hx rfl id fun he => ha (by rw [h] at he; simpa using he)
  | kill hx h => exact rely_setInst hx rfl (fun _ => rfl) fun he => ha (by rw [h] at he; simpa using he)
  | @spawn u _ p i hl hi =>
    have hp : ∀ q, c.spawnLocks (lockFor q) = some t → q ≠ p := fun q hq he => hne ha hl (he ▸ hq)
    refine ⟨fun h => ⟨h, rfl, rfl⟩, fun _ h => h, fun q hq h => (update_of_ne (hp q hq) ..).trans h,
      fun _ _ _ _ h => h, fun _ _ h => h, fun q hq j y' hy' hpath => ?_, fun j y hy => ?_⟩
    · rcases Ctl.setInst_cases hy' with ⟨-, rfl⟩ | ⟨-, hy⟩
      · exact (hp q hq hpath.symm).elim
      · exact ⟨y', hy, hpath, id⟩
    · have hj : j ≠ i := fun he => by rw [he, hi] at hy; cases hy
      exact ⟨y, (update_of_ne hj ..).trans hy, rfl, fun h => ⟨h, rfl⟩⟩
  | evict p =>
    refine (Rely.refl Q t c).setRegistry fun q _ h => ?_
    by_cases hq : q = p
    · subst hq; exact update_self ..
    · exact (update_of_ne hq ..).trans h
  | release hx h => exact rely_setInst hx rfl id (by rw [h]; simp)
  | @retire _ i x hx h =>
    have hi : Rely Q t c (c.setInst i { x with dead := true }) :=
      rely_setInst hx rfl (fun _ => rfl) (by rw [h]; simp)
    refine hi.setRegistry fun q _ hq => ?_
    split
    · by_cases hqp : q = x.path
      · subst hqp; exact update_self ..
      · exact (update_of_ne hqp ..).trans hq
    · exact hq
  | @create u _ p id hm ho =>
    refine ⟨fun h => (hne ha hm h).elim, fun _ h => h, fun _ _ h => h, fun q _ hQ id' h => ?_, fun _ _ h => h,
      (Rely.refl Q t c).old, (Rely.refl Q t c).insts⟩
    have : q ≠ p := fun he => by rw [he, ho hQ] at h; cases h
    exact (update_of_ne this ..).trans h
  | @hardDelete u _ p hm hl =>
    have hp : ∀ q, c.spawnLocks (lockFor q) = some t → q ≠ p := fun q hq he => hne ha hl (he ▸ hq)
    exact ⟨fun h => (hne ha hm h).elim, fun _ h => h, fun _ _ h => h,
      fun q hq _ id' h => (update_of_ne (hp q hq) ..).trans h,
      fun q hq h => (update_of_ne (hp q hq) ..).trans h, (Rely.refl Q t c).old, (Rely.refl Q t c).insts⟩
  | @softDelete u _ p hl =>
    have hp : ∀ q, c.spawnLocks (lockFor q) = some t → q ≠ p := fun q hq he => hne ha hl (he ▸ hq)
    exact ⟨fun h => ⟨h, rfl, rfl⟩, fun _ h => h, fun _ _ h => h, fun _ _ _ _ h => h,
      fun q hq h => (update_of_ne (hp q hq) ..).trans h, (Rely.refl Q t c).old, (Rely.refl Q t c).insts⟩

/-! ## What a handler knows -/

/-- The knowledge of a handler at a point of its execution. -/
structure Know where
  metaMu : Bool := false
  /-- the path whose spawn lock is held -/
  spawn : Option Bytes := none
  /-- the spawn lock was taken to spawn -/
  toSpawn : Bool := false
  /-- no streamer is registered at that path -/
  vacant : Bool := false
  /-- every streamer object of that path is dead, but for the victim -/
  cleared : Bool := false
  /-- the streamer taken out of the registry and not yet killed -/
  victim : Option Nat := none
  /-- the streamer whose mutex is held -/
  mu : Option Nat := none
  /-- that streamer is not dead -/
  alive : Bool := false
  /-- who owns a path -/
  owner : Option (Bytes × Option Nat) := none
  /-- the next id -/
  fresh : Option Nat := none

/-- What a handler knows of owners and ids is used up by its commit. -/
def Know.spent (K : Know) : Know := { K with owner := none, fresh := none }

/-- The knowledge `K` of the handler `t` is right. -/
structure Know.Holds (Q R : Prop) (c : Ctl) (t : Nat) (K : Know) : Prop where
  metaMu : K.metaMu = true → c.metaMu = some t
  spawn : ∀ p, K.spawn = some p → c.spawnLocks (lockFor p) = some t
  clean : R → ∀ p, K.spawn = some p → K.toSpawn = true → c.tomb p = false
  vacant : ∀ p, K.spawn = some p → K.vacant = true → c.registry p = none
  cleared : ∀ p, K.spawn = some p → K.cleared = true →
    ∀ i x, c.insts i = some x → x.path = p → K.victim = some i ∨ x.dead = true
  victim : ∀ i, K.victim = some i → ∃ x, c.insts i = some x ∧ K.spawn = some x.path
  mu : ∀ i, K.mu = some i →
    ∃ x, c.insts i = some x ∧ x.mu = some (.thread t) ∧ (K.alive = true → x.dead = false)
  owner : ∀ p o, K.owner = some (p, o) →
    (K.metaMu = true ∨ (K.spawn = some p ∧ o ≠ none)) ∧ (Q → c.owner p = o)
  fresh : ∀ id, K.fresh = some id → K.metaMu = true ∧ c.nextID = id

namespace Know.Holds

variable {Q R : Prop} {c c' : Ctl} {t : Nat} {K : Know}

theorem none (Q R : Prop) (c : Ctl) (t : Nat) : Know.Holds Q R c t {} :=
  ⟨nofun, nofun, nofun, nofun, nofun, nofun, nofun, nofun, nofun⟩

section

variable (h : K.Holds Q R c t)
include h

/-- **Knowledge is stable.** -/
theorem rely (r : Rely Q t c c') : K.Holds Q R c' t := by
  refine ⟨fun hm => (r.metaMu (h.metaMu hm)).1, fun p hp => r.lock _ (h.spawn p hp),
    fun hR p hp hs => r.clean p (h.spawn p hp) (h.clean hR p hp hs),
    fun p hp hv => r.vacant p (h.spawn p hp) (h.vacant p hp hv), fun p hp hc i x' hx' hpath => ?_, fun i hi => ?_,
    fun i hi => ?_, fun p o ho => ⟨(h.owner p o ho).1, fun hQ => ?_⟩, fun id hid => ?_⟩
  · obtain ⟨x, hx, hxp, hd⟩ := r.old p (h.spawn p hp) i x' hx' hpath
    exact (h.cleared p hp hc i x hx hxp).imp id hd
  · obtain ⟨x, hx, hs⟩ := h.victim i hi
    obtain ⟨x', hx', hpath, -⟩ := r.insts i x hx
    exact ⟨x', hx', hpath ▸ hs⟩
  · obtain ⟨x, hx, hmu, hal⟩ := h.mu i hi
    obtain ⟨x', hx', -, hkeep⟩ := r.insts i x hx
    obtain ⟨h1, h2⟩ := hkeep hmu
    exact ⟨x', hx', h1, fun ha => h2 ▸ hal ha⟩
  · obtain ⟨hlock, hown⟩ := h.owner p o ho
    rcases hlock with hm | ⟨hs, hne⟩
    · rw [(r.metaMu (h.metaMu hm)).2.2]; exact hown hQ
    · obtain ⟨id, rfl⟩ := ne_none_iff_exists'.mp hne
      exact r.owner p (h.spawn p hs) hQ id (hown hQ)
  · obtain ⟨hm, hn⟩ := h.fresh id hid
    exact ⟨hm, ((r.metaMu (h.metaMu hm)).2.1).trans hn⟩

theorem setInst {x x' : Shape} (hx : c.insts i = some x) (hp : x'.path = x.path)
    (hd : x.dead = true → x'.dead = true) :
    ({ K with mu := Option.none, alive := false } : Know).Holds Q R (c.setInst i x') t := by
  refine ⟨h.metaMu, h.spawn, h.clean, h.vacant, fun p hs hc j y hy hpath => ?_, fun j hj => ?_, nofun, h.owner, h.fresh⟩
  · rcases Ctl.setInst_cases hy with ⟨rfl, rfl⟩ | ⟨-, hy⟩
    · exact (h.cleared p hs hc j x hx (hp ▸ hpath)).imp_right hd
    · exact h.cleared p hs hc j y hy hpath
  · obtain ⟨y, hy, hs⟩ := h.victim j hj
    by_cases hji : j = i
    · subst hji
      cases hx.symm.trans hy
      exact ⟨x', c.insts_setInst j x', hp ▸ hs⟩
    · exact ⟨y, (c.insts_setInst_ne x' hji).trans hy, hs⟩

theorem spent (hr : c'.registry = c.registry) (hi : c'.insts = c.insts)
    (hm : c'.metaMu = c.metaMu) (hl : c'.spawnLocks = c.spawnLocks)
    (ht : R → ∀ p, K.spawn = some p → K.toSpawn = true → c'.tomb p = c.tomb p) :
    K.spent.Holds Q R c' t :=
  ⟨fun h' => hm ▸ h.metaMu h', fun p hp => hl ▸ h.spawn p hp, fun hR p hp hs => ht hR p hp hs ▸ h.clean hR p hp hs,
    fun p hp hv => hr ▸ h.vacant p hp hv, fun p hp hc => hi ▸ h.cleared p hp hc, fun i hv => hi ▸ h.victim i hv,
    fun i hmu => hi ▸ h.mu i hmu, nofun, nofun⟩

end

end Know.Holds

/-! ## The invariant of the control state -/

/-- The control state and the knowledge of the handlers. -/
structure CtlInv (Q R : Prop) (c : Ctl) (ks : Nat → Know) : Prop where
  holds : ∀ t, (ks t).Holds Q R c t
  /-- a registered streamer is alive and at its path -/
  reg : ∀ p i, c.registry p = some i → ∃ x, c.insts i = some x ∧ x.path = p ∧ x.dead = false
  /-- a streamer that is not dead is registered, or about to be killed by the handler that removed it -/
  live : ∀ i x, c.insts i = some x → x.dead = false →
    c.registry x.path = some i ∨ ∃ t, (ks t).victim = some i ∧ (ks t).spawn = some x.path
  clean : R → ∀ i x, c.insts i = some x → x.dead = false → c.tomb x.path = false

namespace CtlInv

variable {Q R : Prop} {c c' : Ctl} {ks : Nat → Know} {t : Nat} {K K' : Know}

variable (h : CtlInv Q R c ks)
include h

theorem holds_step (hs : Ctl.Step Q (some t) c c') (hK : K'.Holds Q R c' t) :
    ∀ u, (update ks t K' u).Holds Q R c' u := by
  intro u
  by_cases hu : u = t
  · subst hu; rw [update_self]; exact hK
  · rw [update_of_ne hu]
    exact (h.holds u).rely (hs.rely fun he => hu (some.inj he).symm)

theorem live_update (t : Nat) (K' : Know) (hv : K'.victim = (ks t).victim)
    (hs : ∀ i, (ks t).victim = some i → K'.spawn = (ks t).spawn) {x : Shape} (hx : c.insts i = some x)
    (hd : x.dead = false) : c.registry x.path = some i ∨
      ∃ u, (update ks t K' u).victim = some i ∧ (update ks t K' u).spawn = some x.path := by
  rcases h.live i x hx hd with hr | ⟨u, h1, h2⟩
  · exact .inl hr
  · right
    by_cases hu : u = t
    · subst hu
      exact ⟨u, by rw [update_self, hv]; exact h1, by rw [update_self, hs i h1]; exact h2⟩
    · exact ⟨u, by rw [update_of_ne hu]; exact h1, by rw [update_of_ne hu]; exact h2⟩

theorem locks (hs : Ctl.Step Q (some t) c c') (hr : c'.registry = c.registry)
    (hi : c'.insts = c.insts) (ht : c'.tomb = c.tomb) (hK : K'.Holds Q R c' t) (hv : K'.victim = (ks t).victim)
    (hsp : ∀ i, (ks t).victim = some i → K'.spawn = (ks t).spawn) : CtlInv Q R c' (update ks t K') := by
  refine ⟨h.holds_step hs hK, fun p i hp => ?_, fun i x hx hd => ?_, fun hR i x hx hd => ?_⟩
  · rw [hi]; exact h.reg p i (hr ▸ hp)
  · rw [hr]; exact h.live_update t K' hv hsp (hi ▸ hx) hd
  · rw [ht]; exact h.clean hR i x (hi ▸ hx) hd

theorem victim_eq (hp : c.spawnLocks (lockFor p) = some t) {u : Nat}
    (hu : (ks u).spawn = some p) : u = t := by
  have := (h.holds u).spawn p hu
  rw [hp, some.injEq] at this
  exact this.symm

section Locks

theorem lockMeta (hm : c.metaMu = none) (hK : ks t = {}) :
    CtlInv Q R { c with metaMu := some t } (update ks t { metaMu := true }) := by
  refine h.locks (.lockMeta hm) rfl rfl rfl ?_ (by rw [hK]) (by rw [hK]; simp)
  exact { Know.Holds.none Q R _ t with
    metaMu := fun _ => rfl
    owner := nofun
    fresh := nofun }

theorem unlockMeta (hm : (ks t).metaMu = true) (hv : (ks t).victim = none) :
    CtlInv Q R { c with metaMu := none } (update ks t {}) := by
  have hc := (h.holds t).metaMu hm
  exact h.locks (.unlockMeta hc) rfl rfl rfl (Know.Holds.none Q R _ t) hv.symm (by rw [hv]; simp)

theorem lockSpawn {s : Bool} (hp : c.spawnLocks (lockFor p) = none)
    (hs : (ks t).spawn = none) (hv : (ks t).victim = none) (hR : R → s = true → c.tomb p = false) :
    CtlInv Q R { c with spawnLocks := update c.spawnLocks (lockFor p) (some t) }
      (update ks t { ks t with spawn := some p, toSpawn := s, vacant := false, cleared := false }) := by
  have hk := h.holds t
  refine h.locks (.lockSpawn hp) rfl rfl rfl ?_ rfl (by rw [hv]; simp)
  refine ⟨hk.metaMu, fun q hq => ?_, fun hR' q hq hs' => ?_, nofun, nofun,
    fun i hi => ?_, hk.mu, fun q o ho => ?_, hk.fresh⟩
  · cases hq; exact update_self ..
  · cases hq; exact hR hR' hs'
  · rw [hv] at hi; cases hi
  · obtain ⟨hl, hown⟩ := hk.owner q o ho
    exact ⟨hl.imp_right fun hl => (by rw [hs] at hl; cases hl.1), hown⟩

theorem unlockSpawn (hs : (ks t).spawn = some p) (hv : (ks t).victim = none) :
    CtlInv Q R { c with spawnLocks := update c.spawnLocks (lockFor p) none }
      (update ks t { metaMu := (ks t).metaMu }) := by
  have hk := h.holds t
  refine h.locks (.unlockSpawn (hk.spawn p hs)) rfl rfl rfl ?_ hv.symm (by rw [hv]; simp)
  exact { Know.Holds.none Q R _ t with
    metaMu := hk.metaMu
    owner := nofun
    fresh := nofun }

/-- A streamer object changes only its mutex. -/
theorem setMu {ks' : Nat → Know} {x : Shape} (hx : c.insts i = some x)
    (o : Option Holder) (hk : ∀ u, (ks' u).Holds Q R (c.setInst i { x with mu := o }) u)
    (hv : ∀ u, (ks' u).victim = (ks u).victim ∧ (ks' u).spawn = (ks u).spawn) :
    CtlInv Q R (c.setInst i { x with mu := o }) ks' := by
  have hins : ∀ j y, (c.setInst i { x with mu := o }).insts j = some y →
      ∃ y', c.insts j = some y' ∧ y'.path = y.path ∧ y'.dead = y.dead := by
    intro j y hy
    rcases Ctl.setInst_cases hy with ⟨rfl, rfl⟩ | ⟨-, hy⟩
    · exact ⟨x, hx, rfl, rfl⟩
    · exact ⟨y, hy, rfl, rfl⟩
  refine ⟨hk, fun p j hp => ?_, fun j y hy hd => ?_, fun hR j y hy hd => ?_⟩
  · obtain ⟨y, hy, hpath, hd⟩ := h.reg p j hp
    by_cases hj : j = i
    · subst hj
      cases hx.symm.trans hy
      exact ⟨_, c.insts_setInst j _, hpath, hd⟩
    · exact ⟨y, (c.insts_setInst_ne _ hj).trans hy, hpath, hd⟩
  · obtain ⟨y', hy', hpath, hdead⟩ := hins j y hy
    rcases h.live j y' hy' (hdead.trans hd) with hr | ⟨u, h1, h2⟩
    · exact .inl (hpath ▸ hr)
    · exact .inr ⟨u, (hv u).1.trans h1, (hv u).2.trans (hpath ▸ h2)⟩
  · obtain ⟨y', hy', hpath, hdead⟩ := hins j y hy
    exact hpath ▸ h.clean hR j y' hy' (hdead.trans hd)

omit h in
theorem victims_mu (ks : Nat → Know) (t : Nat) (m : Option Nat) (u : Nat) :
    (update ks t { ks t with mu := m, alive := false } u).victim = (ks u).victim ∧
      (update ks t { ks t with mu := m, alive := false } u).spawn = (ks u).spawn := by
  by_cases hu : u = t
  · subst hu; rw [update_self]; exact ⟨rfl, rfl⟩
  · rw [update_of_ne hu]; exact ⟨rfl, rfl⟩

theorem lockMu {x : Shape} (hx : c.insts i = some x) (hmu : x.mu = none) :
    CtlInv Q R (c.setInst i { x with mu := some (.thread t) })
      (update ks t { ks t with mu := some i, alive := false }) := by
  have hk := (h.holds t).setInst hx (rfl : ({ x with mu := some (.thread t) } : Shape).path = x.path) id
  refine h.setMu hx _ (h.holds_step (.lockMu hx hmu _) { hk with mu := fun j hj => ?_ }) (victims_mu ks t _)
  cases hj
  exact ⟨_, c.insts_setInst i _, rfl, nofun⟩

theorem unlockMu {x : Shape} (hx : c.insts i = some x) (hK : (ks t).mu = some i) :
    CtlInv Q R (c.setInst i { x with mu := none }) (update ks t { ks t with mu := none, alive := false }) := by
  obtain ⟨x', hx', hmu, -⟩ := (h.holds t).mu i hK
  cases hx.symm.trans hx'
  exact h.setMu hx _ (h.holds_step (.unlockMu hx hmu) ((h.holds t).setInst hx rfl id)) (victims_mu ks t _)

theorem selfMu {x : Shape} (hx : c.insts i = some x) (o : Option Holder)
    (hs : Ctl.Step Q none c (c.setInst i { x with mu := o })) : CtlInv Q R (c.setInst i { x with mu := o }) ks :=
  h.setMu hx o (fun u => (h.holds u).rely (hs.rely (by simp))) fun _ => ⟨rfl, rfl⟩

end Locks

/-! ## The registry -/

section Registry

/-- Taking the streamer of a path out of the registry: nobody else can have a victim there. -/
theorem evict (hs : (ks t).spawn = some p) (hv : (ks t).victim = none) :
    CtlInv Q R { c with registry := update c.registry p none }
      (update ks t { ks t with vacant := true, cleared := true, victim := c.registry p }) := by
  have hk := h.holds t
  have hlock := hk.spawn p hs
  have hother : ∀ {i u}, (ks u).victim = some i → u ≠ t := fun hi hu => by rw [hu, hv] at hi; cases hi
  refine ⟨h.holds_step (.evict p) ⟨hk.metaMu, hk.spawn, hk.clean, fun q hq _ => ?_, fun q hq _ i x hx hpath => ?_,
    fun i hi => ?_, hk.mu, hk.owner, hk.fresh⟩, fun q i hq => ?_, fun i x hx hd => ?_, h.clean⟩
  · rw [hs] at hq; cases hq; exact update_self ..
  · rw [hs] at hq
    cases hq
    cases hd : x.dead with
    | true => exact .inr rfl
    | false =>
      rcases h.live i x hx hd with hr | ⟨u, h1, h2⟩
      · exact .inl (hpath ▸ hr)
      · exact absurd (h.victim_eq hlock (hpath ▸ h2)) (hother h1)
  · obtain ⟨x, hx, hpath, -⟩ := h.reg p i hi
    exact ⟨x, hx, hpath ▸ hs⟩
  · change update c.registry p none q = some i at hq
    have hqp : q ≠ p := fun he => by subst he; rw [update_self] at hq; cases hq
    exact h.reg q i ((update_of_ne hqp ..).symm.trans hq)
  · rcases h.live i x hx hd with hr | ⟨u, h1, h2⟩
    · by_cases hp : x.path = p
      · exact .inr ⟨t, by rw [update_self]; exact hp ▸ hr, by rw [update_self, hp]; exact hs⟩
      · exact .inl ((update_of_ne hp ..).trans hr)
    · have hu := hother h1
      exact .inr ⟨u, by rw [update_of_ne hu]; exact h1, by rw [update_of_ne hu]; exact h2⟩

/-- Killing the streamer taken out of the registry. -/
theorem kill {x : Shape} (hx : c.insts i = some x) (hmu : (ks t).mu = some i)
    (hv : (ks t).victim = some i) (hvac : (ks t).vacant = true) :
    CtlInv Q R (c.setInst i { x with dead := true })
      (update ks t { ks t with victim := none, alive := false }) := by
  have hk := h.holds t
  obtain ⟨x₁, hx₁, hm, -⟩ := hk.mu i hmu
  obtain ⟨x₂, hx₂, hsp⟩ := hk.victim i hv
  rw [hx, some.injEq] at hx₁ hx₂
  subst hx₁ hx₂
  have hk' := hk.setInst hx (rfl : ({ x with dead := true } : Shape).path = x.path) fun _ => rfl
  have hreg : ∀ q, c.registry q ≠ some i := fun q hq => by
    obtain ⟨y, hy, hpath, -⟩ := h.reg q i hq
    cases hx.symm.trans hy
    rw [hk.vacant q (hpath ▸ hsp) hvac] at hq
    cases hq
  refine ⟨h.holds_step (.kill hx hm) { hk' with cleared := ?_, victim := nofun, mu := ?_ },
    fun q j hq => ?_, fun j y hy hd => ?_, fun hR j y hy hd => ?_⟩
  · intro p hp hc j y hy hpath
    rcases Ctl.setInst_cases hy with ⟨-, rfl⟩ | ⟨hj, hy⟩
    · exact .inr rfl
    · rcases hk.cleared p hp hc j y hy hpath with he | hd
      · rw [hv] at he; exact absurd (some.inj he).symm hj
      · exact .inr hd
  · intro j hj
    rw [show j = i from some.inj (hj.symm.trans hmu)]
    exact ⟨_, c.insts_setInst i _, hm, nofun⟩
  · obtain ⟨y, hy, hrest⟩ := h.reg q j hq
    have hj : j ≠ i := fun he => hreg q (he ▸ hq)
    exact ⟨y, (c.insts_setInst_ne _ hj).trans hy, hrest⟩
  · rcases Ctl.setInst_cases hy with ⟨-, rfl⟩ | ⟨hj, hy⟩
    · cases hd
    · refine (h.live j y hy hd).imp_right fun ⟨u, h1, h2⟩ => ?_
      have hu : u ≠ t := fun he => hj (by rw [he, hv] at h1; exact (some.inj h1).symm)
      exact ⟨u, by rw [update_of_ne hu]; exact h1, by rw [update_of_ne hu]; exact h2⟩
  · rcases Ctl.setInst_cases hy with ⟨-, rfl⟩ | ⟨-, hy⟩
    · cases hd
    · exact h.clean hR j y hy hd

/-- Registering a new streamer at a path without one. -/
theorem spawn (hi : c.insts i = none) (hs : (ks t).spawn = some p)
    (hts : (ks t).toSpawn = true) (hvac : (ks t).vacant = true) :
    CtlInv Q R { c.setInst i ⟨p, false, none⟩ with registry := update c.registry p (some i) }
      (update ks t { ks t with vacant := false, cleared := false }) := by
  have hk := h.holds t
  have hne : ∀ {j y}, c.insts j = some y → j ≠ i := fun hy he => by rw [he, hi] at hy; cases hy
  have hkeep : ∀ {j y}, c.insts j = some y → (c.setInst i ⟨p, false, none⟩).insts j = some y :=
    fun hy => (c.insts_setInst_ne _ (hne hy)).trans hy
  have hnone := hk.vacant p hs hvac
  refine ⟨h.holds_step (.spawn (hk.spawn p hs) hi) ⟨hk.metaMu, hk.spawn, hk.clean, nofun,
    nofun, fun j hj => ?_, fun j hj => ?_, hk.owner, hk.fresh⟩, fun q j hq => ?_,
    fun j y hy hd => ?_, fun hR j y hy hd => ?_⟩
  · obtain ⟨y, hy, hrest⟩ := hk.victim j hj
    exact ⟨y, hkeep hy, hrest⟩
  · obtain ⟨y, hy, hrest⟩ := hk.mu j hj
    exact ⟨y, hkeep hy, hrest⟩
  · change update c.registry p (some i) q = some j at hq
    by_cases hqp : q = p
    · subst hqp
      rw [update_self] at hq
      cases hq
      exact ⟨_, c.insts_setInst i _, rfl, rfl⟩
    · obtain ⟨y, hy, hrest⟩ := h.reg q j ((update_of_ne hqp ..).symm.trans hq)
      exact ⟨y, hkeep hy, hrest⟩
  · rcases Ctl.setInst_cases hy with ⟨rfl, rfl⟩ | ⟨-, hy⟩
    · exact .inl (update_self ..)
    · refine (h.live_update t { ks t with vacant := false, cleared := false } rfl (fun _ _ => rfl)
        hy hd).imp_left fun hr => ?_
      have hp : y.path ≠ p := fun he => by rw [he, hnone] at hr; cases hr
      exact (update_of_ne hp ..).trans hr
  · rcases Ctl.setInst_cases hy with ⟨rfl, rfl⟩ | ⟨-, hy⟩
    · exact hk.clean hR p hs hts
    · exact h.clean hR j y hy hd

/-- A streamer retires: it leaves the registry, unless another one has its place. -/
theorem retire {x : Shape} (hx : c.insts i = some x) (hmu : x.mu = some .self) :
    CtlInv Q R { c.setInst i { x with dead := true } with
      registry := if c.registry x.path = some i then update c.registry x.path none else c.registry } ks := by
  have hreg : ∀ q j, (if c.registry x.path = some i then update c.registry x.path none else c.registry) q =
      some j ↔ c.registry q = some j ∧ j ≠ i := by
    intro q j
    have hown : c.registry q = some i → q = x.path := fun hq => by
      obtain ⟨y, hy, hpath, -⟩ := h.reg q i hq
      rw [hx, some.injEq] at hy
      exact hy ▸ hpath.symm
    by_cases hc : c.registry x.path = some i
    · rw [if_pos hc]
      by_cases hq : q = x.path
      · subst hq; rw [update_self, hc]; simp [eq_comm]
      · rw [update_of_ne hq]
        exact ⟨fun hr => ⟨hr, fun he => hq (hown (he ▸ hr))⟩, And.left⟩
    · rw [if_neg hc]
      exact ⟨fun hr => ⟨hr, fun he => hc (by rw [he] at hr; exact hown hr ▸ hr)⟩, And.left⟩
  refine ⟨fun u => (h.holds u).rely ((Ctl.Step.retire hx hmu).rely (by simp)), fun q j hq => ?_, fun j y hy hd => ?_,
    fun hR j y hy hd => ?_⟩
  · obtain ⟨hr, hj⟩ := (hreg q j).mp hq
    obtain ⟨y, hy, hrest⟩ := h.reg q j hr
    exact ⟨y, (c.insts_setInst_ne _ hj).trans hy, hrest⟩
  · rcases Ctl.setInst_cases hy with ⟨-, rfl⟩ | ⟨hj, hy⟩
    · cases hd
    · exact (h.live j y hy hd).imp_left fun hr => (hreg y.path j).mpr ⟨hr, hj⟩
  · rcases Ctl.setInst_cases hy with ⟨-, rfl⟩ | ⟨-, hy⟩
    · cases hd
    · exact h.clean hR j y hy hd

end Registry

/-! ## Commits -/

section Commits

theorem create {id : Nat} (hm : (ks t).metaMu = true)
    (ho : (ks t).owner = some (p, none)) :
    CtlInv Q R { c with owner := update c.owner p (some id), nextID := id + 1 }
      (update ks t (ks t).spent) := by
  have hk := h.holds t
  exact h.locks (.create id (hk.metaMu hm) (hk.owner p none ho).2) rfl rfl rfl
    (hk.spent rfl rfl rfl rfl fun _ _ _ _ => rfl) rfl fun _ _ => rfl

theorem hardDelete (hm : (ks t).metaMu = true) (hs : (ks t).spawn = some p)
    (hts : (ks t).toSpawn = false) :
    CtlInv Q R { c with owner := update c.owner p none, tomb := update c.tomb p false }
      (update ks t (ks t).spent) := by
  have hk := h.holds t
  refine ⟨h.holds_step (.hardDelete (hk.metaMu hm) (hk.spawn p hs))
    (hk.spent rfl rfl rfl rfl fun _ _ _ hs' => (by rw [hts] at hs'; cases hs')), h.reg,
    fun _ _ hx hd => h.live_update t (ks t).spent rfl (fun _ _ => rfl) hx hd, fun hR i x hx hd => ?_⟩
  by_cases hp : x.path = p
  · subst hp; exact update_self ..
  · exact (update_of_ne hp ..).trans (h.clean hR i x hx hd)

theorem softDelete (hs : (ks t).spawn = some p) (hts : (ks t).toSpawn = false)
    (hc : (ks t).cleared = true) (hv : (ks t).victim = none) :
    CtlInv Q R { c with tomb := update c.tomb p true }
      (update ks t (ks t).spent) := by
  have hk := h.holds t
  refine ⟨h.holds_step (.softDelete (hk.spawn p hs))
    (hk.spent rfl rfl rfl rfl fun _ _ _ hs' => (by rw [hts] at hs'; cases hs')), h.reg,
    fun _ _ hx hd => h.live_update t (ks t).spent rfl (fun _ _ => rfl) hx hd, fun hR i x hx hd => ?_⟩
  have hp : x.path ≠ p := fun hp => by
    rcases hk.cleared p hs hc i x hx hp with he | he
    · rw [hv] at he; cases he
    · rw [hd] at he; cases he
  exact (update_of_ne hp ..).trans (h.clean hR i x hx hd)

end Commits

end CtlInv

end Yasdb.Lifecycle
