import Yasdb.Lifecycle.Invariant
import Yasdb.Lifecycle.Turns

/-!
# Every step keeps the invariant

One lemma for each kind of event, by cases on what the handler, the streamer or the committer does, and the step lemma
`Inv.step` that puts them together.
-/

namespace Yasdb.Lifecycle

open Batch Function List Option Inst Phase Store World

variable {mode : Durability} {batchMax : Nat} {w₁ : World} {K : Know} {now : Int64} {s : Streamer}

namespace Inv

variable {Q R : Prop} {w w' : World} {ks : Nat → Know} {t i : Nat} {x x' : Inst}

/-! ## Handlers -/

variable {k : Prog} {path : Bytes} {id : Nat} {ops : List Op} {m : StreamMeta} {c : Commit} {L : GoLib} {flt : Faults}

variable (h : Inv Q R w ks)
include h

/-- A handler goes on at `k`, knowing `K`. -/
theorem setProg (hth : w₁.threads = w.threads)
    (hc : CtlInv Q R w₁.ctl (update ks t K)) (hk : k.Good K) (hd : Data Q R w₁) :
    Inv Q R (w₁.setProg t k) (update ks t K) := by
  refine ⟨hc, fun u p hp => ?_, fun u hu => ?_, { hd with }⟩
  · change update w₁.threads t (some k) u = some p at hp
    by_cases hut : u = t
    · subst hut
      rw [update_self, some.injEq] at hp
      rw [update_self, ← hp]
      exact hk
    · rw [update_of_ne hut, hth] at hp
      rw [update_of_ne hut]
      exact h.good u p hp
  · change update w₁.threads t (some k) u = none at hu
    have hut : u ≠ t := fun he => by subst he; rw [update_self] at hu; cases hu
    rw [update_of_ne hut, hth] at hu
    rw [update_of_ne hut]
    exact h.idle u hu

theorem goOn (hth : w₁.threads = w.threads) (hc : w₁.ctl = w.ctl) (hk : k.Good (ks t))
    (hd : Data Q R w₁) : Inv Q R (w₁.setProg t k) ks := by
  have := h.setProg (t := t) (K := ks t) hth (by rw [hc, update_eq_self]; exact h.ctl) hk hd
  rwa [update_eq_self] at this

theorem learnt (hk : k.Good K) (hK : K.Holds Q R w.ctl t)
    (hv : K.victim = (ks t).victim) (hs : K.spawn = (ks t).spawn) : Inv Q R (w.setProg t k) (update ks t K) :=
  h.setProg rfl (h.ctl.locks (.same _ _) rfl rfl rfl hK hv fun _ _ => hs) hk h.data

/-- Metadata read under a lock of its path tells the owner. -/
theorem holds_learn (t : Nat) (flt : Faults) (key : Key) : ((ks t).learn key (get flt w.db key)).Holds Q R w.ctl t ∧
      ((ks t).learn key (get flt w.db key)).victim = (ks t).victim ∧
      ((ks t).learn key (get flt w.db key)).spawn = (ks t).spawn := by
  have hk := h.ctl.holds t
  cases key with
  | metaKey path =>
    cases hr : get flt w.db (.metaKey path) with
    | error e => exact ⟨hk, rfl, rfl⟩
    | ok v =>
      cases v with
      | none => exact ⟨hk, rfl, rfl⟩
      | some m =>
        simp only [Know.learn]
        split
        · rename_i hl
          refine ⟨{ hk with owner := fun p o ho => ?_, fresh := hk.fresh }, rfl, rfl⟩
          cases ho
          refine ⟨?_, fun hQ => ?_⟩
          · rw [Bool.or_eq_true, decide_eq_true_eq] at hl
            exact hl.imp_right fun hs => ⟨hs, by rintro ⟨⟩⟩
          · have hm : w.db.metaAt path = some m := get_ok hr
            have := (h.data.log hQ).stored path
            rw [hm] at this
            exact this.symm
        · exact ⟨hk, rfl, rfl⟩
  | _ => exact ⟨hk, rfl, rfl⟩

theorem alive (hmu : (ks t).mu = some i) (ha : (ks t).alive = true) (hx : w.insts i = some x) : x.gone = false := by
  obtain ⟨y, hy, -, hd⟩ := (h.ctl.holds t).mu i hmu
  rw [w.ctl_insts hx, some.injEq] at hy
  subst hy
  exact hd ha

theorem not_locked (hmu : (ks t).mu = some i) (hx : w.insts i = some x) : x.phase.locked = false := by
  obtain ⟨y, hy, hym, -⟩ := (h.ctl.holds t).mu i hmu
  rw [w.ctl_insts hx, some.injEq] at hy
  rw [← hy, show x.shape.mu = x.mu from rfl] at hym
  cases hl : x.phase.locked with
  | false => rfl
  | true => rw [(h.data.insts i x hx).mu hl] at hym; cases hym

theorem setInst_goOn (hx : w.insts i = some x) (hs : x'.shape = x.shape)
    (hx' : x'.Sound Q R (owners w.history)) (hk : k.Good (ks t)) : Inv Q R ((w.setInst i x').setProg t k) ks :=
  h.goOn rfl (ctl_setInst_of_shape hx hs) hk (h.data.setInst hx hx')

/-! ### Commits of handlers -/

/-- **A created stream** gets a path that nobody owns. -/
theorem commitCreate (ha : (Commit.create path id ops).Allowed (ks t)) (hk : k.Good (ks t).spent) :
    Inv Q R ((w.commitBy (.create path id ops)).setProg t k) (update ks t (ks t).spent) := by
  obtain ⟨hm, ho, hf, hc⟩ := ha
  have hKn := h.ctl.holds t
  have hn : w.nextID = id := (hKn.fresh id hf).2
  have hown : owners (w.history ++ [.create path id]) = update (owners w.history) path (some id) :=
    owners_snoc _ _
  have hnone : Q → owners w.history path = none := (hKn.owner path none ho).2
  have hkeep : ∀ {p i}, Q → owners w.history p = some i →
      owners (w.history ++ [.create path id]) p = owners w.history p := fun hQ hp => by
    rw [hown]
    exact update_of_ne (fun he => by rw [he, hnone hQ] at hp; cases hp) ..
  refine h.setProg rfl ?_ hk ⟨fun hQ => ?_, fun i x hx => ?_, fun j hj => ?_, h.data.fresh⟩
  · rw [w.ctl_create hc]
    exact h.ctl.create hm ho
  · exact ((hn ▸ h.data.log hQ : Log w.db id w.history)).create hc
  · have hs := h.data.insts i x hx
    exact hs.owners fun hQ hact => hkeep hQ (hs.active hQ hact)
  · obtain ⟨⟨p, hw, hp⟩, hl⟩ := h.data.jobs j hj
    exact ⟨⟨p, hw, fun hQ => (hkeep hQ (hp hQ)).trans (hp hQ)⟩, hl⟩

/-- **A hard delete** finds all streamers of the path dead, and those of the stream quiet. -/
theorem commitHardDelete (ha : (Commit.hardDelete path m).Allowed (ks t))
    (hq : Q → w.quietAbout m.streamID = true) (hk : k.Good (ks t).spent) :
    Inv Q R ((w.commitBy (.hardDelete path m)).setProg t k) (update ks t (ks t).spent) := by
  obtain ⟨hm, hs, hts, hcl, hv, ho⟩ := ha
  have hKn := h.ctl.holds t
  have hown : owners (w.history ++ [.hardDelete path m.streamID]) = update (owners w.history) path none :=
    owners_snoc _ _
  have hpath : Q → owners w.history path = some m.streamID := (hKn.owner path _ ho).2
  have hkeep : ∀ p, p ≠ path → owners (w.history ++ [.hardDelete path m.streamID]) p = owners w.history p :=
    fun p hp => by rw [hown]; exact update_of_ne hp ..
  refine h.setProg rfl ?_ hk ⟨fun hQ => ?_, fun i x hx => ?_, fun j hj => ?_, h.data.fresh⟩
  · rw [w.ctl_hardDelete]
    exact h.ctl.hardDelete hm hs hts
  · have hlog := (h.data.log hQ).hardDelete (hpath hQ)
    exact hlog
  · have hsound := h.data.insts i x hx
    refine hsound.owners fun hQ hact => hkeep _ fun hp => ?_
    -- an active streamer of the path belongs to its owner, which is quiet, and no streamer of the path is alive
    have hid : x.st.id = m.streamID := by
      have := hsound.active hQ hact
      rw [hp, hpath hQ] at this
      exact (some.inj this).symm
    rcases hact with hd | hd
    · rcases hKn.cleared path hs hcl i x.shape (w.ctl_insts hx) hp with he | he
      · rw [hv] at he; cases he
      · rw [show x.shape.dead = x.gone from rfl, hd] at he; cases he
    · rw [(h.data.quiet_of_quietAbout (hq hQ)).1 i x hx hid] at hd
      cases hd
  · obtain ⟨⟨p, hw, hp⟩, hl⟩ := h.data.jobs j hj
    refine ⟨⟨p, hw, fun hQ => (hkeep p fun he => ?_).trans (hp hQ)⟩, hl⟩
    have := hp hQ
    rw [he, hpath hQ] at this
    exact (h.data.quiet_of_quietAbout (hq hQ)).2 j hj (some.inj this).symm

theorem commitData (hown : ∀ f, c.entry.own f = f) (hdel : ∀ p i, c.entry ≠ .hardDelete p i)
    (hst : ∀ i ops, c.entry ≠ .streamer i ops) (hm : ∀ p, effect (.metaKey p) c.ops = none) :
    Data Q R (w.committed c.ops [c.entry]) := by
  refine h.data.committed (by rw [owners_snoc, hown]) fun hQ =>
    (h.data.log hQ).other hown hdel (fun _ i ops _ => hst i ops) fun p => ?_
  unfold metaAt
  rw [lookup_applyOps, hm]
  rfl

theorem commitSoftDelete (ha : (Commit.softDelete path m).Allowed (ks t))
    (hk : k.Good (ks t).spent) :
    Inv Q R ((w.commitBy (.softDelete path m)).setProg t k) (update ks t (ks t).spent) := by
  obtain ⟨hs, hts, hcl, hv⟩ := ha
  refine h.setProg rfl ?_ hk { h.commitData (c := .softDelete path m) (fun _ => rfl) (fun _ _ => nofun)
    (fun _ _ => nofun) fun p => by simp [Commit.ops] with }
  rw [w.ctl_softDelete]
  exact h.ctl.softDelete hs hts hcl hv

/-- The other commits of handlers are about neither metadata nor tombstones. -/
theorem commitOther (he : c.entry = .other) (hn : (w.commitBy c).nextID = w.nextID)
    (hops : ∀ op ∈ c.ops, op.key.keyType ≠ 1 ∧ op.key.keyType ≠ 9) (hk : k.Good (ks t).spent) :
    Inv Q R ((w.commitBy c).setProg t k) (update ks t (ks t).spent) := by
  have hw := writesMeta_of_keyType hops [] 0
  have hd : Data Q R (w.committed c.ops [c.entry]) := by
    refine h.commitData (by rw [he]; exact fun _ => rfl) (by rw [he]; exact fun _ _ => nofun)
      (by rw [he]; exact fun _ _ => nofun) fun p => effect_ne fun op ho hk => (hops op ho).1 (by rw [hk]; rfl)
  have hctl : (w.commitBy c).ctl = w.ctl := by
    refine Ctl.ext rfl hn rfl rfl rfl ?_ (funext fun p => ?_)
    · show owners (w.history ++ [c.entry]) = _
      rw [owners_snoc, he]; rfl
    · show softDeleted _ = softDeleted _
      exact congrArg _ (hw.tombstoneAt w.db p)
  refine h.setProg rfl ?_ hk { hd with log := fun hQ => hn ▸ hd.log hQ }
  rw [hctl]
  exact h.ctl.locks (.same _ _) rfl rfl rfl ((h.ctl.holds t).spent rfl rfl rfl rfl fun _ _ _ _ => rfl) rfl fun _ _ =>
    rfl

theorem commit {k : Bool → Prog} (hg : (Prog.commit c k).Good (ks t)) (ok : Bool)
    (hq : Q → ok = true → ∀ path m, c = .hardDelete path m → w.quietAbout m.streamID = true) :
    Inv Q R (if ok then (w.commitBy c).setProg t (k true) else w.setProg t (k false))
      (update ks t (ks t).spent) := by
  obtain ⟨ha, hk⟩ := hg
  cases ok with
  | false => exact h.learnt (hk false) ((h.ctl.holds t).spent rfl rfl rfl rfl fun _ _ _ _ => rfl) rfl rfl
  | true =>
    rw [if_pos rfl]
    cases c with
    | create path id ops => exact h.commitCreate ha (hk true)
    | hardDelete path m => exact h.commitHardDelete ha (fun hQ => hq hQ rfl path m rfl) (hk true)
    | softDelete path m => exact h.commitSoftDelete ha (hk true)
    | _ =>
      exact h.commitOther rfl rfl (fun op ho => by rw [mem_singleton.mp ho]; simp) (hk true)

/-! ### The accesses of a handler -/

theorem lockSpawn {s : Bool} (hg : (Prog.lockSpawn path s k).Good (ks t))
    (hfree : w.spawnLocks (lockFor path) = none) (hR : R → s = true → w.tombstoned path = false) :
    ∃ ks', Inv Q R ({ w with spawnLocks := update w.spawnLocks (lockFor path) (some t) }.setProg t k) ks' := by
  obtain ⟨hs, hv, hk⟩ := hg
  exact ⟨_, h.setProg rfl (h.ctl.lockSpawn hfree hs hv hR) hk { h.data with }⟩

/-- A creation is planned over the store at hand. -/
theorem plan {f : Faults → Store → Nat → CreatePlan}
    {k : Except CreateResult (Nat × List Op) → Prog} (hg : (Prog.plan path f k).Good (ks t)) (flt : Faults) :
    ∃ ks', Inv Q R (w.setProg t (k ((f flt w.db w.nextID).map fun r => (w.nextID, r.1)))) ks' := by
  obtain ⟨hm, hf, herr, hok⟩ := hg
  have hKn := h.ctl.holds t
  cases hr : f flt w.db w.nextID with
  | error e => exact ⟨_, h.goOn rfl rfl (herr e) h.data⟩
  | ok r =>
    obtain ⟨ops, res⟩ := r
    obtain ⟨hnone, hc⟩ := hf flt w.db w.nextID ops res hr
    refine ⟨_, h.learnt (hok _ ops hc) { hKn with owner := fun p o ho => ?_, fresh := fun id hid => ?_ } rfl rfl⟩
    · cases ho
      refine ⟨.inl hm, fun hQ => ?_⟩
      have := (h.data.log hQ).stored path
      rw [hnone] at this
      exact this.symm
    · cases hid
      exact ⟨hm, rfl⟩

/-- A handler spawns the streamer of a path, for its owner. -/
theorem spawn {tailSeq : Nat} {k : Nat → Prog} (hg : (Prog.spawn path m tailSeq k).Good (ks t)) :
    ∃ ks', Inv Q R ({ w.setInst w.nextInst { st := newStreamer path m tailSeq } with
      registry := update w.registry path (some w.nextInst)
      nextInst := w.nextInst + 1 }.setProg t (k w.nextInst)) ks' := by
  obtain ⟨hs, hts, hv, ho, hk⟩ := hg
  have hnone : w.insts w.nextInst = none := h.data.fresh _ (le_refl _)
  refine ⟨_, h.setProg rfl ?_ (hk _) ⟨h.data.log, fun j y hy => ?_, h.data.jobs, fun j hj => ?_⟩⟩
  · show CtlInv Q R { (w.setInst w.nextInst { st := newStreamer path m tailSeq }).ctl with registry := _ } _
    rw [w.ctl_setInst]
    exact h.ctl.spawn (by show (w.insts _).map _ = _; rw [hnone]; rfl) hs hts hv
  · change update w.insts w.nextInst (some _) j = some y at hy
    by_cases hj : j = w.nextInst
    · subst hj
      rw [update_self, some.injEq] at hy
      subst hy
      exact ⟨rfl, nofun, nofun, fun hQ _ => ((h.ctl.holds t).owner path _ ho).2 hQ, nofun⟩
    · rw [update_of_ne hj] at hy
      exact h.data.insts j y hy
  · change w.nextInst + 1 ≤ j at hj
    exact (update_of_ne (by omega) ..).trans (h.data.fresh j (by omega))

theorem send {req : AppendReq} (hg : (Prog.send i req k).Good (ks t)) (hx : w.insts i = some x) :
    Inv Q R
      ((w.setInst i { x with reqs := x.reqs ++ [Request.mk t req (w.tombstoned x.st.path)] }).setProg t k) ks := by
  obtain ⟨hmu, hal, hk⟩ := hg
  have hd := h.alive hmu hal hx
  have hs := h.data.insts i x hx
  refine h.setInst_goOn hx rfl ⟨hs.id, hs.mu, hs.writes, fun hQ _ => hs.active hQ (.inl hd), fun hR r hr => ?_⟩ hk
  simp only [requests, append_assoc, mem_append, mem_singleton] at hr
  rcases hr with hr | rfl | hr
  · exact hs.late hR r (mem_append_left _ hr)
  · exact h.ctl.clean hR i x.shape (w.ctl_insts hx) hd
  · exact hs.late hR r (mem_append_right _ hr)

theorem signal (hg : (Prog.signal i k).Good (ks t)) (hx : w.insts i = some x) :
    Inv Q R ((w.setInst i { x with touch := true }).setProg t k) ks := by
  obtain ⟨hmu, hal, hk⟩ := hg
  have hd := h.alive hmu hal hx
  have hs := h.data.insts i x hx
  exact h.setInst_goOn hx rfl ⟨hs.id, hs.mu, hs.writes, fun hQ _ => hs.active hQ (.inl hd), hs.late⟩ hk

/-- **An access of a handler.** -/
theorem act {ok : Bool} {p : Prog} (hp : w.threads t = some p)
    (hQ : Q → deletesQuietly w (.act t flt ok) = true) (hR : R → spawnsClean w (.act t flt ok) = true)
    (he : w.act L t flt ok p = some w') : ∃ ks', Inv Q R w' ks' := by
  have hg := h.good t p hp
  have hKn := h.ctl.holds t
  cases p with
  | done status => cases he
  | call c => cases he; exact ⟨_, h.goOn rfl rfl (hg ▸ good_prog L c) h.data⟩
  | lockMeta k =>
    simp only [World.act, ite_none_right_eq_some, some.injEq] at he
    obtain ⟨hfree, rfl⟩ := he
    exact ⟨_, h.setProg rfl (h.ctl.lockMeta hfree hg.1) hg.2 { h.data with }⟩
  | unlockMeta k =>
    cases he
    obtain ⟨hm, hv, hk⟩ := hg
    exact ⟨_, h.setProg rfl (h.ctl.unlockMeta hm hv) hk { h.data with }⟩
  | lockSpawn path s k =>
    simp only [World.act, ite_none_right_eq_some, some.injEq] at he
    obtain ⟨hfree, rfl⟩ := he
    refine h.lockSpawn hg hfree fun hR' hs => ?_
    subst hs
    simpa [spawnsClean, hp] using hR hR'
  | unlockSpawn path k =>
    cases he
    obtain ⟨hs, hv, hk⟩ := hg
    exact ⟨_, h.setProg rfl (h.ctl.unlockSpawn hs hv) hk { h.data with }⟩
  | lockMu i k =>
    simp only [World.act, bind_eq_some_iff, ite_none_right_eq_some, some.injEq] at he
    obtain ⟨x, hx, hfree, rfl⟩ := he
    have hs := h.data.insts i x hx
    have hne : x.phase.locked ≠ true := fun hph => by rw [hs.mu hph] at hfree; cases hfree
    refine ⟨_, h.setProg rfl ?_ hg (h.data.setInst hx (hs.idle rfl rfl rfl (fun hph => (hne hph).elim) rfl rfl rfl id))⟩
    rw [w.ctl_setInst]
    exact h.ctl.lockMu (w.ctl_insts hx) hfree
  | unlockMu i k =>
    obtain ⟨x, hx, rfl⟩ := map_eq_some_iff.mp he
    obtain ⟨hmu, hk⟩ := hg
    have hs := h.data.insts i x hx
    have hne : x.phase.locked ≠ true := by rw [h.not_locked hmu hx]; exact Bool.false_ne_true
    refine ⟨_, h.setProg rfl ?_ hk (h.data.setInst hx (hs.idle rfl rfl rfl (fun hph => (hne hph).elim) rfl rfl rfl id))⟩
    rw [w.ctl_setInst]
    exact h.ctl.unlockMu (w.ctl_insts hx) hmu
  | get key k =>
    cases he
    obtain ⟨hK, hv, hs⟩ := h.holds_learn t flt key
    exact ⟨_, h.learnt (hg _) hK hv hs⟩
  | plan path f k => cases he; exact h.plan hg flt
  | commit c k =>
    cases he
    refine ⟨_, h.commit hg ok fun hQ' hok path m hc => ?_⟩
    subst hok hc
    simpa [deletesQuietly, hp] using hQ hQ'
  | lookup path k =>
    cases he
    obtain ⟨hsome, hnone⟩ := hg
    cases hr : w.registry path with
    | some i => exact ⟨_, h.goOn rfl rfl (hsome i) h.data⟩
    | none =>
      split at hnone
      · rename_i hs
        refine ⟨_, h.learnt hnone { hKn with vacant := fun q hq _ => ?_ } rfl rfl⟩
        rw [hs] at hq
        cases hq
        exact hr
      · exact ⟨_, h.goOn rfl rfl hnone h.data⟩
  | spawn path m tailSeq k => cases he; exact h.spawn hg
  | evict path k =>
    cases he
    obtain ⟨hs, hv, hk⟩ := hg
    exact ⟨_, h.setProg rfl (h.ctl.evict hs hv) (hk _) { h.data with }⟩
  | look i k =>
    obtain ⟨x, hx, rfl⟩ := map_eq_some_iff.mp he
    exact ⟨_, h.goOn rfl rfl (hg _ _) h.data⟩
  | isDead i k =>
    obtain ⟨x, hx, rfl⟩ := map_eq_some_iff.mp he
    obtain ⟨hmu, htrue, hfalse⟩ := hg
    cases hd : x.dead with
    | true => exact ⟨_, h.goOn rfl rfl htrue h.data⟩
    | false =>
      refine ⟨_, h.learnt hfalse { hKn with mu := fun j hj => ?_ } rfl rfl⟩
      obtain ⟨y, hy, hym, -⟩ := hKn.mu j hj
      have hji : j = i := some.inj (hj.symm.trans hmu)
      subst hji
      rw [w.ctl_insts hx, some.injEq] at hy
      subst hy
      have hl : x.phase.left = false := by
        have := h.not_locked hmu hx
        cases hl : x.phase.left with
        | false => rfl
        | true => rw [locked_of_left hl] at this; cases this
      exact ⟨_, w.ctl_insts hx, hym, fun _ => (gone_of_not_left hl).trans hd⟩
  | kill i k =>
    obtain ⟨x, hx, rfl⟩ := map_eq_some_iff.mp he
    obtain ⟨hmu, hv, hvac, hk⟩ := hg
    refine ⟨_, h.setProg rfl ?_ hk
      (h.data.setInst hx ((h.data.insts i x hx).idle rfl rfl rfl (fun _ => rfl) rfl rfl rfl fun _ => rfl))⟩
    rw [w.ctl_setInst]
    exact h.ctl.kill (w.ctl_insts hx) hmu hv hvac
  | send i req k =>
    simp only [World.act, bind_eq_some_iff, ite_none_right_eq_some, some.injEq] at he
    obtain ⟨x, hx, -, rfl⟩ := he
    exact ⟨_, h.send hg hx⟩
  | signal i k =>
    obtain ⟨x, hx, rfl⟩ := map_eq_some_iff.mp he
    exact ⟨_, h.signal hg hx⟩
  | await k => cases he
  | park i k =>
    obtain ⟨x, hx, rfl⟩ := map_eq_some_iff.mp he
    exact ⟨_, h.setInst_goOn hx rfl ((h.data.insts i x hx).idle rfl rfl rfl (fun _ => rfl) rfl rfl rfl id) hg⟩
  | unpark i k =>
    obtain ⟨x, hx, rfl⟩ := map_eq_some_iff.mp he
    exact ⟨_, h.setInst_goOn hx rfl ((h.data.insts i x hx).idle rfl rfl rfl (fun _ => rfl) rfl rfl rfl id) hg⟩
  | startBackgroundDelete id k => cases he; exact ⟨_, h.goOn rfl rfl hg { h.data with }⟩

/-! ## Streamers -/

theorem setInst (hx : w.insts i = some x) (hs : x'.shape = x.shape)
    (hx' : x'.Sound Q R (owners w.history)) : Inv Q R (w.setInst i x') ks :=
  ⟨by rw [ctl_setInst_of_shape hx hs]; exact h.ctl, h.good, h.idle, h.data.setInst hx hx'⟩

theorem replyAll (batch : List Request) (responses : List AppendResp) : Inv Q R (w.replyAll batch responses) ks :=
  ⟨h.ctl, h.good, h.idle, { h.data with }⟩

theorem streamerCommit (hw : WritesMeta path id ops) (ho : Q → owners w.history path = some id) :
    Inv Q R (w.committed ops [.streamer id ops]) ks := by
  have hown : owners (w.history ++ [.streamer id ops]) = owners w.history := owners_snoc _ _
  refine ⟨?_, h.good, h.idle, h.data.committed hown fun hQ => (h.data.log hQ).streamer hw (ho hQ)⟩
  rw [w.ctl_committed hown (hw.tombstoneAt w.db)]
  exact h.ctl

theorem enqueue {j : Job} (hj : j.Sound Q R (owners w.history)) : Inv Q R { w with queue := w.queue ++ [j] } ks := by
  refine ⟨h.ctl, h.good, h.idle, { h.data with jobs := fun j' hj' => ?_ }⟩
  simp only [append_assoc, mem_append, mem_singleton] at hj'
  rcases hj' with hj' | rfl | hj'
  · exact h.data.jobs j' (mem_append_left _ hj')
  · exact hj
  · exact h.data.jobs j' (mem_append_right _ hj')

theorem takeBatch (n : Nat) : Inv Q R (w.takeBatch n) ks := by
  refine ⟨h.ctl, h.good, h.idle, { h.data with jobs := fun j hj => h.data.jobs j (mem_append_left _ ?_) }⟩
  rcases mem_append.mp hj with hj | hj
  · exact mem_of_mem_drop hj
  · exact mem_of_mem_take hj

section

variable (hx : w.insts i = some x)
include hx

/-- A streamer plans a burst. -/
theorem plan_move {batch : List Request}
    (hph : x.phase = .draining batch) {b : Burst}
    (hb : processBurst L flt w.db now x.st (batch.map (·.req)) = (s, b)) (he : (match (s, b) with
      | (s, .reply responses) => some ((w.setInst i { x with st := s, phase := .idle }).replyAll batch responses)
      | (s, .commit c) => some (w.setInst i { x with st := s, phase := .committing c batch })) = some w') :
    Inv Q R w' ks := by
  have hs := h.data.insts i x hx
  have hact : x.Active := .inr (by simp [quiet, hph])
  cases b with
  | reply responses =>
    cases he
    obtain ⟨hl, -⟩ := processBurst_reply hb
    refine replyAll ?_ _ _
    refine h.setInst hx ?_ (hs.turn hl.path hl.id (by rw [hl.streamMeta]) rfl rfl
      (fun _ => hact) (requests_of_resting rfl rfl))
    exact shape_eq hl.path rfl rfl (by rw [hph]; rfl) rfl
  | commit c =>
    cases he
    obtain ⟨hl, -⟩ := processBurst_commit hb
    refine h.setInst hx ?_ (hs.next hl.path hl.id (by rw [hl.streamMeta]) nofun
      (fun ops ho => ?_) (fun _ => hact) fun r hr => ?_)
    · exact shape_eq hl.path rfl rfl (by rw [hph]; rfl) rfl
    · cases ho; exact writesMeta_burst hb hs.id
    · rw [requests, hph]; exact hr

/-- A streamer takes a touch signal. -/
theorem touch_move (hph : x.phase = .idle)
    (ht : x.touch = true) {o : Option (List Op)} (hb : ttlRefreshOps x.st now = (s, o))
    (he : (match (s, o) with
      | (s, none) => some (w.setInst i { x with st := s, touch := false })
      | (s, some ops) =>
        let phase := .touching (ops ++ [Op.put (.metaKey s.path) s.streamMeta]) x.st.streamMeta.deadline
        some (w.setInst i { x with st := s, touch := false, phase := phase })) = some w') : Inv Q R w' ks := by
  have hs := h.data.insts i x hx
  have hact : x.Active := .inr (by simp [quiet, hph, ht])
  have hreqs : ∀ r, r ∈ x.reqs ++ [] → r ∈ x.requests := fun r hr => by rw [requests, hph]; exact hr
  cases o with
  | none =>
    cases he
    obtain rfl := ttlRefreshOps_none hb
    exact h.setInst hx rfl (hs.next rfl rfl rfl hs.mu hs.writes (fun _ => hact) fun r hr => hr)
  | some ops =>
    cases he
    obtain ⟨hp, hid, hm, hw⟩ := writesMeta_touch hb hs.id
    refine h.setInst hx ?_ (hs.next hp hid hm (by rintro ⟨⟩) (fun ops' ho => ?_) (fun _ => hact) hreqs)
    · exact shape_eq hp rfl rfl (by rw [hph]; rfl) rfl
    · cases ho; exact hw

theorem release (hr : x.phase.resting = true)
    (hl : x.phase.locked = true) : Inv Q R (w.setInst i { x with mu := none, phase := .idle }) ks := by
  have hs := h.data.insts i x hx
  have hshape : shape { x with mu := none, phase := .idle } = { x.shape with mu := none } := by
    unfold shape
    rw [gone_of_not_left (left_of_resting hr)]
    simp [gone, left]
  refine ⟨?_, h.good, h.idle, h.data.setInst hx (hs.rest hr rfl rfl (by rintro ⟨⟩) rfl rfl rfl)⟩
  rw [w.ctl_setInst, hshape]
  exact h.ctl.selfMu (w.ctl_insts hx) none (.release (w.ctl_insts hx) (hs.mu hl))

/-- **A move of a streamer.** -/
theorem move {m : World.Move}
    (he : w.move L mode batchMax i x m = some w') : Inv Q R w' ks := by
  have hs := h.data.insts i x hx
  -- every move stands in one phase, and is not enabled in the others
  cases m with
    (simp only [World.move] at he; split at he <;> try cases he)
  | recv =>
    rename_i r rs hph hr
    refine h.setInst hx (shape_eq rfl rfl rfl (by rw [hph]; rfl) rfl) (hs.turn rfl rfl rfl rfl
      rfl (fun _ => .inr (by simp [quiet, hph, hr])) fun r' hr' => ?_)
    simp only [requests, batch, mem_append, mem_singleton] at hr'
    refine mem_append_left _ (hr ▸ ?_)
    rcases hr' with hr' | rfl
    · exact mem_cons_of_mem _ hr'
    · exact mem_cons_self
  | drain =>
    rename_i batch r rs hph hr
    simp only [ite_none_right_eq_some, some.injEq] at he
    obtain ⟨-, rfl⟩ := he
    refine h.setInst hx (shape_eq rfl rfl rfl (by rw [hph]; rfl) rfl) (hs.turn rfl rfl rfl rfl
      rfl (fun _ => .inr (by simp [quiet, hph])) fun r' hr' => ?_)
    simp only [requests, Phase.batch, mem_append, mem_singleton] at hr'
    rw [requests, hr, hph]
    rcases hr' with hr' | hr' | rfl
    · exact mem_append_left _ (mem_cons_of_mem _ hr')
    · exact mem_append_right _ hr'
    · exact mem_append_left _ mem_cons_self
  | plan flt now =>
    rename_i batch hph
    split at he
    · exact h.plan_move hx hph (Prod.eta _) he
    · cases he
  | commit ok =>
    rename_i c batch hph
    have hact : x.Active := .inr (by simp [quiet, hph])
    have hw := hs.writes c.ops (by rw [hph]; rfl)
    have hsound : ∀ {s : Streamer}, s.path = x.st.path → s.id = x.st.id →
        s.streamMeta.streamID = x.st.streamMeta.streamID →
        Sound Q R (owners w.history) { x with st := s, phase := .idle } := fun hp hid hm =>
      hs.turn hp hid hm rfl rfl (fun _ => hact) (requests_of_resting rfl rfl)
    cases ok with
    | true =>
      refine streamerCommit (replyAll ?_ _ _) hw fun hQ => hs.active hQ hact
      exact h.setInst hx (shape_eq rfl rfl rfl (by rw [hph]; rfl) rfl)
        (hsound rfl rfl (streamID_applyWriter x.st c.pend c.metaChanged))
    | false =>
      refine replyAll ?_ _ _
      exact h.setInst hx (shape_eq rfl rfl rfl (by rw [hph]; rfl) rfl) (hsound rfl rfl rfl)
  | enqueue =>
    rename_i c batch hph
    have hact : x.Active := .inr (by simp [quiet, hph])
    have hw := hs.writes c.ops (by rw [hph]; rfl)
    have hj : (Job.mk i x.st.id c batch).Sound Q R (owners w.history) :=
      ⟨⟨x.st.path, hw, fun hQ => hs.active hQ hact⟩,
        fun hR r hr => hs.late hR r (mem_append_right _ (by rw [hph]; exact hr))⟩
    have hi : Inv Q R (w.setInst i
        { x with st := applyWriter x.st c.pend c.metaChanged, pending := x.pending + 1, phase := .idle }) ks :=
      h.setInst hx (shape_eq rfl rfl rfl (by rw [hph]; rfl) rfl) (hs.turn rfl rfl (streamID_applyWriter _ _ _) rfl
        rfl (fun _ => hact) (requests_of_resting rfl rfl))
    split
    · exact (hi.enqueue hj).takeBatch batchMax
    · exact hi.enqueue hj
  | touch now =>
    rename_i hph ht
    exact h.touch_move hx hph ht (Prod.eta _) he
  | touchCommit ok =>
    rename_i ops old hph
    have hact : x.Active := .inr (by simp [quiet, hph])
    have hw := hs.writes ops (by rw [hph]; rfl)
    have hsound : ∀ d, Sound Q R (owners w.history) { x with st := x.st.setDeadline d, phase := .idle } :=
      fun d => hs.turn rfl rfl rfl rfl rfl (fun _ => hact)
        (requests_of_resting rfl rfl)
    cases ok with
    | true =>
      refine streamerCommit ?_ hw fun hQ => hs.active hQ hact
      exact h.setInst hx (shape_eq rfl rfl rfl (by rw [hph]; rfl) rfl) (hsound x.st.streamMeta.deadline)
    | false => exact h.setInst hx (shape_eq rfl rfl rfl (by rw [hph]; rfl) rfl) (hsound old)
  | timer =>
    rename_i hph
    exact h.setInst hx (shape_eq rfl rfl rfl (by rw [hph]; rfl) rfl) (hs.rest (by rw [hph]; rfl)
      rfl rfl (by rintro ⟨⟩) rfl rfl rfl)
  | retireLock =>
    rename_i hph hmu
    refine ⟨?_, h.good, h.idle, h.data.setInst hx (hs.rest (by rw [hph]; rfl) rfl rfl (fun _ => rfl) rfl rfl rfl)⟩
    have hshape' : shape { x with mu := some .self, phase := .retireLocked } = { x.shape with mu := some .self } := by
      unfold shape gone
      rw [hph]
      rfl
    rw [w.ctl_setInst, hshape']
    exact h.ctl.selfMu (w.ctl_insts hx) (some .self) (.lockMu (w.ctl_insts hx) hmu _)
  | unregister =>
    rename_i hph
    have hmu := hs.mu (by rw [hph]; rfl)
    have hsound : Sound Q R (owners w.history) { x with phase := .retireLeft } :=
      hs.next rfl rfl rfl (fun _ => hmu) (by rintro _ ⟨⟩) (fun ha => ha.elim
        (fun hd => (by simp [gone, left] at hd)) (by rintro ⟨⟩))
        fun r hr => by rw [requests, hph]; exact hr
    have hshape' : shape { x with phase := .retireLeft } = { x.shape with dead := true } := by
      unfold shape gone
      simp [left]
    refine ⟨?_, h.good, h.idle, { h.data.setInst hx hsound with }⟩
    show CtlInv Q R { (w.setInst i { x with phase := .retireLeft }).ctl with registry := _ } ks
    rw [w.ctl_setInst, hshape']
    exact h.ctl.retire (w.ctl_insts hx) hmu
  | retire =>
    rename_i hph
    have hmu := hs.mu (by rw [hph]; rfl)
    have hsound : Sound Q R (owners w.history) { x with dead := true, mu := none, phase := .exited } :=
      hs.turn rfl rfl rfl rfl rfl (fun ha => ha.elim (by rintro ⟨⟩)
        (by rintro ⟨⟩)) fun r hr => by rw [requests, hph]; exact hr
    have hshape' : shape { x with dead := true, mu := none, phase := .exited } = { x.shape with mu := none } := by
      unfold shape gone
      rw [hph]
      simp [left]
    refine ⟨?_, h.good, h.idle, h.data.setInst hx hsound⟩
    rw [w.ctl_setInst, hshape']
    exact h.ctl.selfMu (w.ctl_insts hx) none (.release (w.ctl_insts hx) hmu)
  | stop =>
    rename_i hph hst
    refine h.setInst hx (shape_eq rfl rfl rfl (by rw [hph]; rfl) rfl) (hs.turn rfl rfl rfl rfl
      rfl (fun ha => ?_) fun r hr => ?_)
    · refine ha.imp (fun hd => ?_) (by rintro ⟨⟩)
      rw [gone_of_not_left (by rw [hph]; rfl)]
      rwa [gone_of_not_left rfl] at hd
    · rw [requests, hph]; exact hr
  | refuse =>
    rename_i r rs hph hr
    refine replyAll ?_ _ _
    refine h.setInst hx rfl (hs.next rfl rfl rfl hs.mu hs.writes (fun ha => ?_) fun r' hr' => ?_)
    · refine ha.imp_right fun hq => ?_
      simp [quiet, hph] at hq
    · rw [requests, hr]
      rcases mem_append.mp hr' with hr' | hr'
      · exact mem_append_left _ (mem_cons_of_mem _ hr')
      · exact mem_append_right _ hr'
  | exit =>
    rename_i hph hr
    refine h.setInst hx (shape_eq rfl rfl rfl (by rw [hph]; rfl) rfl) (hs.turn rfl rfl rfl rfl
      rfl (fun ha => ?_) fun r' hr' => ?_)
    · refine ha.imp (fun hd => ?_) (by rintro ⟨⟩)
      rw [gone_of_not_left (by rw [hph]; rfl)]
      rwa [gone_of_not_left rfl] at hd
    · rw [requests, hph]; exact hr'
  | _ =>
    rename_i hph
    split
    · exact h.release hx (by rw [hph]; rfl) (by rw [hph]; rfl)
    · exact h.setInst hx (shape_eq rfl rfl rfl (by rw [hph]; rfl) rfl) (hs.rest (by rw [hph]; rfl) rfl rfl
        (fun _ => hs.mu (by rw [hph]; rfl)) rfl rfl rfl)

end

/-! ## The shared committer -/

theorem endJob {f : Inst → Inst} (hf : ∀ x, (f x).shape = x.shape)
    (hs : ∀ x, x.Sound Q R (owners w.history) → (f x).Sound Q R (owners w.history)) (responses : Job → List AppendResp)
    (j : Job) : Inv Q R (w.endJob f responses j) ks := by
  refine replyAll ?_ _ _
  cases hx : w.insts j.inst with
  | none => exact h
  | some x =>
    refine h.setInst hx (hf _) (hs _ ?_)
    exact (h.data.insts _ x hx).idle rfl rfl rfl (fun _ => rfl) rfl rfl rfl id

omit h in
/-- The jobs of a flush land, one after the other. -/
theorem landJobs (js : List Job) : ∀ {w : World}, Inv Q R w ks → (∀ j ∈ js, j.Sound Q R (owners w.history)) →
    Inv Q R (w.committed (js.flatMap (·.c.ops)) (js.map fun j => .streamer j.id j.c.ops)) ks := by
  induction js with
  | nil =>
    intro w h _
    have hw : w.committed [] [] = w := by simp [committed]
    exact hw.symm ▸ h
  | cons j js ih =>
    intro w h hj
    obtain ⟨path, hw, ho⟩ := (hj j mem_cons_self).writes
    have hown : owners (w.history ++ [.streamer j.id j.c.ops]) = owners w.history := owners_snoc _ _
    have hrest := ih (h.streamerCommit hw ho) fun j' hj' => by
      show j'.Sound Q R (owners (w.history ++ [_]))
      rw [hown]
      exact hj j' (mem_cons_of_mem _ hj')
    have hsplit : w.committed ((j :: js).flatMap (·.c.ops)) ((j :: js).map fun j => .streamer j.id j.c.ops) =
        (w.committed j.c.ops [.streamer j.id j.c.ops]).committed (js.flatMap (·.c.ops))
          (js.map fun j => .streamer j.id j.c.ops) := by
      simp [committed, applyOps_append]
    exact hsplit.symm ▸ hrest

theorem flush (batchMax : Nat) (ok : Bool) : Inv Q R (w.flush batchMax ok) ks := by
  refine takeBatch ?_ batchMax
  cases ok with
  | false =>
    exact w.flight.foldlRecOn (motive := (Inv Q R · ks)) _ h fun _ h j _ =>
      h.endJob (fun _ => rfl) (fun _ hs => hs) _ j
  | true =>
    have hl := landJobs w.flight h fun j hj => h.data.jobs j (mem_append_right _ hj)
    exact ⟨hl.ctl, hl.good, hl.idle, { hl.data with }⟩

theorem callback (n : Nat) (j : Job) : Inv Q R ({ w with landed := w.landed.eraseIdx n }.callback j) ks := by
  have h' : Inv Q R { w with landed := w.landed.eraseIdx n } ks := ⟨h.ctl, h.good, h.idle, { h.data with }⟩
  refine h'.endJob (fun _ => ?_) (fun _ hs => ?_) _ j
  · rfl
  · exact hs.idle rfl rfl rfl (fun _ => rfl) rfl rfl rfl id

/-! ## Background deletions -/

omit h in
/-- A background deletion writes no metadata and no tombstone. -/
theorem backgroundDelete_keyType {scanOk : Bool} {db : Store} {phase : DeletePhase} {next : Option DeletePhase}
    (h : backgroundDelete flt scanOk db id phase = (some ops, next)) :
    ∀ op ∈ ops, op.key.keyType ≠ 1 ∧ op.key.keyType ≠ 9 := by
  intro op ho
  rcases backgroundDelete_keys h op ho with ⟨n, hk⟩ | ⟨pid, hk⟩ | hk
  all_goals
    rw [hk]
    simp

theorem setPhase (n id : Nat) (next : Option DeletePhase) : Inv Q R (w.setPhase n id next) ks := by
  cases next with
  | _ => exact ⟨h.ctl, h.good, h.idle, { h.data with }⟩

theorem chunk (flt : Faults) (ok scanOk : Bool) (n : Nat) (d : Deletion) : Inv Q R (w.chunk flt ok scanOk n d) ks := by
  unfold World.chunk
  cases hb : backgroundDelete flt scanOk w.db d.id d.phase with
  | mk ops next =>
    cases ops with
    | none => exact h.setPhase n d.id next
    | some ops =>
      cases ok with
      | false => exact h.setPhase n d.id none
      | true =>
        have hw := writesMeta_of_keyType (backgroundDelete_keyType hb) [] 0
        have hown : owners (w.history ++ [.other]) = owners w.history := owners_snoc _ _
        refine setPhase (w := w.committed ops [.other])
          ⟨?_, h.good, h.idle, h.data.committed hown fun hQ => ?_⟩ n d.id next
        · rw [w.ctl_committed hown (hw.tombstoneAt w.db)]
          exact h.ctl
        · refine (h.data.log hQ).other (fun _ => rfl) (fun _ _ => nofun) (fun _ _ _ _ => nofun) fun p => ?_
          unfold metaAt
          rw [lookup_applyOps_ne fun op ho he => (backgroundDelete_keyType hb op ho).1 (by rw [he]; rfl)]

/-! ## Steps -/

theorem arrive (L : GoLib) {c : Call} (ht : w.threads t = none) (hc : c.external = true) :
    Inv Q R (w.setProg t (c.prog L)) ks := by
  have hpre : c.pre = {} := by cases c <;> first | rfl | cases hc
  refine h.goOn rfl rfl ?_ h.data
  rw [h.idle t ht, ← hpre]
  exact good_prog L c

/-- **The step lemma.** -/
theorem step {e : Event}
    (hQ : Q → deletesQuietly w e = true) (hR : R → spawnsClean w e = true)
    (he : step L mode batchMax w e = some w') : ∃ ks', Inv Q R w' ks' := by
  cases stepped he with
  | arrive t c ht hc => exact ⟨ks, h.arrive L ht hc⟩
  | @act t flt ok p _ hp he => exact h.act hp hQ hR he
  | move hx he => exact ⟨ks, h.move hx he⟩
  | flush ok => exact ⟨ks, h.flush batchMax ok⟩
  | callback n j _ => exact ⟨ks, h.callback n j⟩
  | deliver n a _ hk => exact ⟨ks, h.goOn rfl rfl (h.good _ _ hk a.2) { h.data with }⟩
  | chunk n flt ok scanOk d _ => exact ⟨ks, h.chunk flt ok scanOk n d⟩

end Inv

/-- **The invariant holds in every state of a run** whose steps meet the conditions. -/
theorem inv_reach {Q R : Prop} {C : World → Event → Prop} (hQ : Q → ∀ w e, C w e → deletesQuietly w e = true)
    (hR : R → ∀ w e, C w e → spawnsClean w e = true) {L : GoLib} {w : World}
    (h : Runs.Reach (step L mode batchMax) C start w) : ∃ ks, Inv Q R w ks :=
  h.invariant (P := fun w => ∃ ks, Inv Q R w ks)
    (fun w e _ ⟨_, hi⟩ hc he => hi.step (fun hQ' => hQ hQ' w e hc) (fun hR' => hR hR' w e hc) he)
    ⟨_, inv_start Q R⟩

end Yasdb.Lifecycle
