import Yasdb.Lifecycle.Turns
import Yasdb.Lifecycle.Invariant
import Yasdb.Lib.Objects

/-!
# The mutex of a streamer

`submitAppend` puts a request on the queue of a streamer under the mutex of that streamer, having looked at `dead`
under the same mutex; `tryRetire` and `removeStreamer` set `dead` under it. So no request is put on the queue of a
streamer whose goroutine has ended (`Locks`, `Locks.step`), whatever the handlers and the other streamers do.
-/

namespace Yasdb.Lifecycle

open Batch Objects Runs Function Option Phase World Mode

/-- The streamer whose mutex a handler has. -/
def Mode.holds : Mode → Option Nat
  | .holding i | .checked i | .sent i => some i
  | _ => none

theorem Mode.holds_of_loose {m : Mode} (h : m.loose = true) : m.holds = none := by
  cases m with
  | free => rfl
  | registering i => rfl
  | ended => rfl
  | _ => cases h

/-- In `tryRetire`, past the look at the buffer and the readers. -/
def Phase.counted : Phase → Bool
  | .retireCounted | .retirePassed | .retireLeft => true
  | _ => false

theorem Phase.locked_of_counted {p : Phase} (h : p.counted = true) : p.locked = true := by
  cases p with
  | retireCounted => rfl
  | retirePassed => rfl
  | retireLeft => rfl
  | _ => cases h

/-- What the phase of a streamer says of its mutex, of `dead` and of its buffer. -/
structure Inst.Ordered (x : Inst) : Prop where
  mu : x.phase.locked = true → x.mu = some .self
  stop : x.stop = true → x.dead = true
  stopping : x.phase = .stopping → x.dead = true
  exited : x.phase = .exited → x.dead = true
  empty : x.phase.counted = true ∨ x.phase = .exited → x.reqs = []

structure Locks (w : World) : Prop where
  tidy : ∀ t p, w.threads t = some p → p.Tidy
  fresh : ∀ i, w.nextInst ≤ i → w.insts i = none
  /-- a handler that has a mutex is the one noted in it, and what it has seen of `dead` is still so -/
  holds : ∀ t i, (w.mode t).holds = some i →
    ∃ x, w.insts i = some x ∧ x.mu = some (.thread t) ∧ (w.mode t = .checked i → x.dead = false)
  insts : ∀ i x, w.insts i = some x → x.Ordered

theorem locks_start : Locks start where
  tidy := fun _ _ h => (by cases h)
  fresh := fun _ _ => rfl
  holds := fun _ _ h => (by cases h)
  insts := fun _ _ h => (by cases h)

namespace Inst.Ordered

variable {x x' : Inst}

theorem busy (h : x.Ordered) (hs : x'.stop = x.stop) (hd : x'.dead = x.dead) (hl : x'.phase.locked = false)
    (hst : x'.phase ≠ .stopping) (hex : x'.phase ≠ .exited) : x'.Ordered where
  mu := fun h' => by rw [hl] at h'; cases h'
  stop := by rw [hs, hd]; exact h.stop
  stopping := fun h' => (hst h').elim
  exited := fun h' => (hex h').elim
  empty := fun h' => h'.elim (fun h' => by rw [locked_of_counted h'] at hl; cases hl) fun h' => (hex h').elim

theorem same (h : x.Ordered) (hp : x'.phase = x.phase) (hm : x.phase.locked = true → x'.mu = x.mu)
    (hs : x'.stop = true → x.stop = true ∨ x'.dead = true) (hd : x.dead = true → x'.dead = true)
    (hr : x'.reqs = x.reqs) : x'.Ordered where
  mu := fun hl => by rw [hp] at hl; exact (hm hl).trans (h.mu hl)
  stop := fun h' => (hs h').elim (fun h' => hd (h.stop h')) id
  stopping := fun h' => hd (h.stopping (hp ▸ h'))
  exited := fun h' => hd (h.exited (hp ▸ h'))
  empty := fun h' => hr.trans (h.empty (hp ▸ h'))

end Inst.Ordered

namespace Locks

variable {w w' : World} {t i : Nat} {x x' : Inst} {p q : Prog}

variable (h : Locks w)
include h

theorem lt_nextInst (hx : w.insts i = some x) : i < w.nextInst := by
  by_contra hi
  rw [h.fresh i (by omega)] at hx
  cases hx

theorem not_locked (hm : (w.mode t).holds = some i) (hx : w.insts i = some x) : x.phase.locked = false := by
  obtain ⟨y, hy, hmu, -⟩ := h.holds t i hm
  cases hx.symm.trans hy
  cases hl : x.phase.locked with
  | false => rfl
  | true => rw [(h.insts i x hx).mu hl] at hmu; cases hmu

/-- A step on one streamer object. -/
theorem inst (hx : w.insts i = some x) (ht : w'.threads = w.threads) (hn : w'.nextInst = w.nextInst)
    (hi : w'.insts = update w.insts i (some x')) (ho : x'.Ordered)
    (hk : ∀ t, x.mu = some (.thread t) → x'.mu = some (.thread t) ∧ x'.dead = x.dead) : Locks w' := by
  have hmode : ∀ t, w'.mode t = w.mode t := fun t => by unfold mode; rw [ht]
  refine ⟨fun t p hp => h.tidy t p (ht ▸ hp), fun j hj => ?_, fun t j hm => ?_, ?_⟩
  · have hne : j ≠ i := fun he => by have := h.lt_nextInst hx; omega
    rw [hi, update_of_ne hne]
    exact h.fresh j (hn ▸ hj)
  · rw [hmode] at hm ⊢
    obtain ⟨y, hy, hmu, hd⟩ := h.holds t j hm
    by_cases hj : j = i
    · subst hj
      cases hx.symm.trans hy
      obtain ⟨h1, h2⟩ := hk t hmu
      exact ⟨x', by rw [hi, update_self], h1, fun hc => h2.trans (hd hc)⟩
    · exact ⟨y, by rw [hi, update_of_ne hj]; exact hy, hmu, hd⟩
  · rw [hi]
    exact forall_update h.insts ho

section

variable (ht : w'.threads = update w.threads t (some q))
include ht

theorem goOn (hi : w'.insts = w.insts)
    (hn : w'.nextInst = w.nextInst) (hq : q.Tidy)
    (hm : ∀ i, q.mode.holds = some i → ∃ x, w.insts i = some x ∧ x.mu = some (.thread t) ∧
      (q.mode = .checked i → x.dead = false)) : Locks w' := by
  refine ⟨?_, fun j hj => hi ▸ h.fresh j (hn ▸ hj), fun u j hu => ?_, fun j y hy => h.insts j y (hi ▸ hy)⟩
  · rw [ht]
    exact forall_update h.tidy hq
  · rw [mode_update ht] at hu ⊢
    rw [hi]
    by_cases hut : u = t
    · subst hut
      rw [if_pos rfl] at hu ⊢
      exact hm j hu
    · rw [if_neg hut] at hu ⊢
      exact h.holds u j hu

theorem goOn_loose (hi : w'.insts = w.insts)
    (hn : w'.nextInst = w.nextInst) (hq : q.Tidy) (hm : q.mode.holds = none) : Locks w' :=
  h.goOn ht hi hn hq fun i hi => by rw [hm] at hi; cases hi

end

theorem spawn (path : Bytes) (m : StreamMeta) (tailSeq : Nat) : Locks (w.spawned path m tailSeq) := by
  have hold : ∀ i x, w.insts i = some x → (w.spawned path m tailSeq).insts i = some x := fun i x hx =>
    (update_of_ne (Nat.ne_of_lt (h.lt_nextInst hx)) ..).trans hx
  refine ⟨h.tidy, fun i hi => ?_, fun t i hm => ?_, forall_update h.insts ?_⟩
  · change w.nextInst + 1 ≤ i at hi
    exact (update_of_ne (by omega) ..).trans (h.fresh i (by omega))
  · obtain ⟨x, hx, hrest⟩ := h.holds t i hm
    exact ⟨x, hold i x hx, hrest⟩
  · exact ⟨fun hl => (by cases hl), fun hs => (by cases hs), fun hp => (by cases hp), fun hp => (by cases hp),
      fun _ => rfl⟩

/-- The handler `t` changes a streamer object whose mutex no other handler has, and goes on. -/
theorem change (hx : w.insts i = some x) (hmu : ∀ u, u ≠ t → x.mu ≠ some (.thread u)) (ho : x'.Ordered)
    (hq : q.Tidy)
    (hm : q.mode.holds = none ∨ q.mode.holds = some i ∧ x'.mu = some (.thread t) ∧
      (q.mode = .checked i → x'.dead = false)) : Locks ((w.setInst i x').setProg t q) := by
  refine ⟨forall_update h.tidy hq, fun j hj => ?_, fun u j hu => ?_, forall_update h.insts ho⟩
  · have hne : j ≠ i := fun he => by have := h.lt_nextInst hx; change w.nextInst ≤ j at hj; omega
    exact (update_of_ne hne ..).trans (h.fresh j hj)
  · have hmode : ((w.setInst i x').setProg t q).mode u = if u = t then q.mode else w.mode u := mode_update rfl
    rw [hmode] at hu ⊢
    by_cases hut : u = t
    · rw [if_pos hut] at hu ⊢
      rcases hm with hm | ⟨hm, hmu', hd⟩
      · rw [hm] at hu; cases hu
      · rw [hm] at hu
        cases hu
        exact ⟨x', update_self .., hut ▸ hmu', hd⟩
    · rw [if_neg hut] at hu ⊢
      obtain ⟨y, hy, hmuy, hrest⟩ := h.holds u j hu
      have hne : j ≠ i := fun he => by
        subst he
        rw [hx, some.injEq] at hy
        exact hmu u hut (hy ▸ hmuy)
      exact ⟨y, (update_of_ne hne ..).trans hy, hmuy, hrest⟩

/-- An access to a streamer object. -/
theorem touch (hp : w.threads t = some p) (hx : w.insts i = some x) (hq : q.Tidy)
    (ht : Touched t i x p.mode q.mode x') : Locks ((w.setInst i x').setProg t q) := by
  have ho := h.insts i x hx
  -- what the handler that has the mutex knows
  have mine : p.mode.holds = some i → x.mu = some (.thread t) ∧ (∀ u, u ≠ t → x.mu ≠ some (.thread u)) ∧
      x.phase.locked = false ∧ (p.mode = .checked i → x.dead = false) := fun hh => by
    rw [← w.mode_eq hp] at hh ⊢
    obtain ⟨y, hy, hmu, hd⟩ := h.holds t i hh
    cases hx.symm.trans hy
    exact ⟨hmu, fun u hu he => hu (by rw [hmu] at he; cases he; rfl), h.not_locked hh hx, hd⟩
  -- an access to the count of readers
  have reads : x'.phase = x.phase → x'.mu = x.mu → x'.stop = x.stop → x'.dead = x.dead → x'.reqs = x.reqs →
      q.mode.holds = none → Locks ((w.setInst i x').setProg t q) := fun h1 h2 h3 h4 h5 hm =>
    (h.inst hx rfl rfl rfl (ho.same h1 (fun _ => h2) (fun hs => .inl (h3 ▸ hs)) (fun hd => h4 ▸ hd) h5)
      fun u hu => ⟨h2.trans hu, h4⟩ : Locks (w.setInst i x')).goOn_loose rfl rfl rfl hq hm
  generalize hm : p.mode = m at ht mine
  generalize hm' : q.mode = m' at ht
  cases ht with
  | lockMu hmu =>
    refine h.change hx (fun u _ he => by rw [hmu] at he; cases he)
      (ho.same rfl (fun hl => by rw [ho.mu hl] at hmu; cases hmu) Or.inl id rfl) hq ?_
    exact .inr ⟨by rw [hm']; rfl, rfl, fun hc => by rw [hm'] at hc; cases hc⟩
  | unlockMu hl =>
    obtain ⟨-, hothers, hlock, -⟩ := mine rfl
    refine h.change hx hothers (ho.same rfl (fun hl => by rw [hlock] at hl; cases hl) Or.inl id rfl) hq (.inl ?_)
    rw [hm']; exact holds_of_loose hl
  | unlockSent =>
    obtain ⟨-, hothers, hlock, -⟩ := mine rfl
    refine h.change hx hothers (ho.same rfl (fun hl => by rw [hlock] at hl; cases hl) Or.inl id rfl) hq (.inl ?_)
    rw [hm']; rfl
  | dead hd =>
    obtain ⟨hmu, hothers, -, -⟩ := mine rfl
    exact h.change hx hothers ho hq (.inr ⟨by rw [hm']; rfl, hmu, fun hc => by rw [hm'] at hc; cases hc⟩)
  | alive hd =>
    obtain ⟨hmu, hothers, -, -⟩ := mine rfl
    exact h.change hx hothers ho hq (.inr ⟨by rw [hm']; rfl, hmu, fun _ => hd⟩)
  | kill =>
    obtain ⟨hmu, hothers, -, -⟩ := mine rfl
    refine h.change hx hothers (ho.same rfl (fun _ => rfl) (fun _ => .inr rfl) (fun _ => rfl) rfl) hq ?_
    exact .inr ⟨by rw [hm']; rfl, hmu, fun hc => by rw [hm'] at hc; cases hc⟩
  | send req late =>
    obtain ⟨hmu, hothers, hlock, halive⟩ := mine rfl
    have hd := halive rfl
    have hst : x.phase ≠ .stopping := fun hp => by rw [ho.stopping hp] at hd; cases hd
    have hex : x.phase ≠ .exited := fun hp => by rw [ho.exited hp] at hd; cases hd
    refine h.change hx hothers (ho.busy rfl rfl hlock hst hex) hq ?_
    exact .inr ⟨by rw [hm']; rfl, hmu, fun hc => by rw [hm'] at hc; cases hc⟩
  | signal =>
    obtain ⟨hmu, hothers, -, -⟩ := mine rfl
    refine h.change hx hothers (ho.same rfl (fun _ => rfl) Or.inl id rfl) hq ?_
    exact .inr ⟨by rw [hm']; rfl, hmu, fun hc => by rw [hm'] at hc; cases hc⟩
  | park => exact reads rfl rfl rfl rfl rfl (by rw [hm']; rfl)
  | unpark hl => exact reads rfl rfl rfl rfl rfl (by rw [hm']; exact holds_of_loose hl)

variable {L : GoLib} {mode : Durability} {batchMax : Nat}

theorem act {flt : Faults} {ok : Bool} (hp : w.threads t = some p) (he : w.act L t flt ok p = some w') : Locks w' := by
  obtain ⟨q, hn, ha⟩ := acted (h.tidy t p hp) he
  have hq := (h.tidy t p hp).next hn
  cases ha with
  | quiet hm hm' hg hr hi hn ht => exact h.goOn_loose ht hi hn hq (holds_of_loose hm')
  | evict hpe hm' => exact h.goOn_loose rfl rfl rfl hq (holds_of_loose hm')
  | @spawn path m tailSeq k hpe hm' =>
    exact (h.spawn path m tailSeq).goOn_loose rfl rfl rfl hq (holds_of_loose hm')
  | touch hx ht hk hs => exact h.touch hp hx hq ht

section

variable (hx : w.insts i = some x)
include hx

theorem rest (ht : w'.threads = w.threads) (hn : w'.nextInst = w.nextInst)
    (hi : w'.insts = update w.insts i (some x')) (hmu : x'.mu = x.mu) (hs : x'.stop = x.stop)
    (hd : x'.dead = x.dead) (hl : x'.phase.locked = false) (hst : x'.phase ≠ .stopping) (hex : x'.phase ≠ .exited) :
    Locks w' :=
  h.inst hx ht hn hi ((h.insts i x hx).busy hs hd hl hst hex) fun _ hu => ⟨hmu.trans hu, hd⟩

theorem own (hmu : ∀ t, x.mu ≠ some (.thread t)) (ht : w'.threads = w.threads)
    (hn : w'.nextInst = w.nextInst) (hi : w'.insts = update w.insts i (some x')) (ho : x'.Ordered) : Locks w' :=
  h.inst hx ht hn hi ho fun t hu => (hmu t hu).elim

theorem move (ht : Turn L mode batchMax w i x w') : Locks w' := by
  have ho := h.insts i x hx
  have self : x.phase.locked = true → ∀ t, x.mu ≠ some (.thread t) := fun hl t hmu => by
    rw [ho.mu hl] at hmu; cases hmu
  -- in the second half of a retirement the streamer has its own mutex
  have held : x.phase.locked = true → ∀ {ph : Phase}, (ph.counted = true → x.reqs = []) → ph ≠ .stopping →
    ph ≠ .exited →
      Inst.Ordered { x with phase := ph } := fun hl _ hr hst hex =>
    ⟨fun _ => ho.mu hl, ho.stop, fun hp => (hst hp).elim, fun hp => (hex hp).elim,
      fun hp => hp.elim hr fun hp => (hex hp).elim⟩
  cases ht with
  | enqueue hm hp hw =>
    subst hw
    split <;> exact h.rest hx rfl rfl rfl rfl rfl rfl rfl (by simp) (by simp)
  | touchNone hp ht => exact h.inst hx rfl rfl rfl (ho.same rfl (fun _ => rfl) Or.inl id rfl) fun _ hu => ⟨hu, rfl⟩
  | retireLock hp hmu =>
    exact h.own hx (fun t he => by rw [hmu] at he; cases he) rfl rfl rfl
      ⟨fun _ => rfl, ho.stop, nofun, nofun, fun hp => by rcases hp with hp | hp <;> cases hp⟩
  | backOff hp =>
    have hl : x.phase.locked = true := by rcases hp with hp | hp <;> rw [hp] <;> rfl
    exact h.own hx (self hl) rfl rfl rfl (ho.busy rfl rfl rfl (by simp) (by simp))
  | count hp hr hn =>
    have hl : x.phase.locked = true := by rw [hp]; rfl
    exact h.own hx (self hl) rfl rfl rfl (held hl (fun _ => hr) nofun nofun)
  | pass hp hn =>
    have hc : x.phase.counted = true := by rw [hp]; rfl
    have hl := locked_of_counted hc
    exact h.own hx (self hl) rfl rfl rfl (held hl (fun _ => ho.empty (.inl hc)) nofun nofun)
  | unregister hp =>
    have hc : x.phase.counted = true := by rw [hp]; rfl
    have hl := locked_of_counted hc
    exact h.own hx (self hl) rfl rfl rfl (held hl (fun _ => ho.empty (.inl hc)) nofun nofun)
  | retire hp =>
    have hc : x.phase.counted = true := by rw [hp]; rfl
    exact h.own hx (self (locked_of_counted hc)) rfl rfl rfl
      ⟨nofun, fun _ => rfl, fun _ => rfl, fun _ => rfl, fun _ => ho.empty (.inl hc)⟩
  | stop hp hs =>
    exact h.inst hx rfl rfl rfl
      ⟨nofun, ho.stop, fun _ => ho.stop hs, nofun, fun hp => by rcases hp with hp | hp <;> cases hp⟩ fun _ hu =>
        ⟨hu, rfl⟩
  | refuse hp hr =>
    refine h.inst hx rfl rfl rfl { ho with empty := fun hc => ?_ } fun _ hu => ⟨hu, rfl⟩
    rw [hp] at hc
    rcases hc with hc | hc <;> cases hc
  | exit hp hr =>
    exact h.inst hx rfl rfl rfl ⟨nofun, ho.stop, nofun, fun _ => ho.stopping hp, fun _ => hr⟩ fun _ hu => ⟨hu, rfl⟩
  | _ => exact h.rest hx rfl rfl rfl rfl rfl rfl rfl (by simp) (by simp)

end

theorem endJob {f : Inst → Inst} (hf : ∀ x, ∃ s, f x = { x with st := s })
    (responses : Job → List AppendResp) (j : Job) : Locks (w.endJob f responses j) := by
  unfold World.endJob
  cases hx : w.insts j.inst with
  | none => exact { h with }
  | some x =>
    obtain ⟨s, hs⟩ := hf { x with pending := x.pending - 1 }
    refine h.inst hx rfl rfl rfl ?_ ?_
    · rw [hs]; exact (h.insts _ x hx).same rfl (fun _ => rfl) Or.inl id rfl
    · rw [hs]; exact fun _ hu => ⟨hu, rfl⟩

theorem failJob (j : Job) : Locks (w.failJob j) := h.endJob (fun x => ⟨x.st, rfl⟩) _ j

theorem failJobs (js : List Job) : Locks (js.foldl World.failJob w) :=
  js.foldlRecOn _ h fun _ h j _ => h.failJob j

theorem chunk (flt : Faults) (ok scanOk : Bool) (n : Nat) (d : Deletion) : Locks (w.chunk flt ok scanOk n d) := by
  obtain ⟨db, history, deleting, he⟩ := chunk_eq w flt ok scanOk n d
  rw [he]
  exact { h with }

/-- **The step lemma.** -/
theorem step {e : Event} (he : step L mode batchMax w e = some w') : Locks w' := by
  cases stepped he with
  | arrive t c _ _ =>
    have hl := loose_prog L c
    exact h.goOn_loose rfl rfl rfl hl.2 (holds_of_loose hl.1)
  | @act t flt ok p _ hp he => exact h.act hp he
  | move hx he => exact h.move hx (turned he)
  | flush ok =>
    cases ok with
    | true => exact { h with }
    | false => exact { h.failJobs w.flight with }
  | callback n j _ =>
    have h₁ : Locks { w with landed := w.landed.eraseIdx n } := { h with }
    exact h₁.endJob (fun x => ⟨_, rfl⟩) _ j
  | deliver n a _ hk =>
    have hq := (h.tidy _ _ hk) a.2
    exact h.goOn_loose rfl rfl rfl hq.2 (by rw [hq.1]; rfl)
  | chunk n flt ok scanOk d _ => exact h.chunk flt ok scanOk n d

omit h in
/-- **Every state of a run.** -/
theorem reach {C : World → World.Event → Prop} (h : Reach (World.step L mode batchMax) C World.start w) : Locks w :=
  h.invariant (fun _ _ _ hi _ he => hi.step he) locks_start

end Locks

end Yasdb.Lifecycle
