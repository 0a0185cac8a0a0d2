import Yasdb.Lifecycle.Locks
import Yasdb.Lifecycle.Steps

/-!
# Runs without deletions

A handler that serves anything but a DELETE or an expiry removes no streamer, and commits nothing but the creation of
a stream (`Prog.Spares`). In a run made of such handlers only (`deletesNothing`)

- a streamer is spawned from a tail that has just been read (`Prog.Spares.next_none`);
- every streamer that is not retired is the one registered at its path (`Spared.registered`).
-/

namespace Yasdb.Lifecycle

open Batch Objects Runs World

variable {L : GoLib} {mode : Durability} {batchMax : Nat} {path : Bytes} {r : Option (Nat × Nat)}

/-! ## Handlers that delete nothing -/

/-- The calls that delete nothing. -/
def Call.spares : Call → Bool
  | .deleteStream _ | .expireIfDue .. | .deleteStreamLocked .. | .dropForkRef _ => false
  | _ => true

/-- The step starts no deletion. -/
def deletesNothing (_ : World) : Event → Bool
  | .arrive _ c => c.spares
  | _ => true

/-- The tail that a read of a key gives, with its stream. -/
def tailRead : (key : Key) → Except String (Option key.Val) → Option (Nat × Nat)
  | .tailKey id, .ok t => some (id, t.elim 0 (·.seq))
  | _, _ => none

/-- The batch writes no tail but that of the stream `id`. -/
def OwnTail (id : Nat) (ops : List Op) : Prop := ∀ i, i ≠ id → effect (.tailKey i) ops = none

/-- The handler deletes nothing, and a streamer that it spawns starts from the tail `r` it has just read. -/
def Prog.Spares : Prog → Option (Nat × Nat) → Prop
  | .done _, _ => True
  | .call c, _ => c.spares = true
  | .get key k, _ => ∀ res, (k res).Spares (tailRead key res)
  | .plan _ f k, _ =>
    (∀ flt db id ops res, f flt db id = .ok (ops, res) → OwnTail id ops) ∧ (∀ e, (k (.error e)).Spares none) ∧
      ∀ id ops, OwnTail id ops → (k (.ok (id, ops))).Spares none
  | .commit c k, _ => (∃ path id ops, c = .create path id ops ∧ OwnTail id ops) ∧ ∀ ok, (k ok).Spares none
  | .spawn _ m tailSeq k, r => r = some (m.streamID, tailSeq) ∧ ∀ i, (k i).Spares none
  | .lookup _ k, _ => ∀ r, (k r).Spares none
  | .look _ k, _ => ∀ closed contentType, (k closed contentType).Spares none
  | .isDead _ k, _ => ∀ b, (k b).Spares none
  | .await k, _ => ∀ r, (k r).Spares none
  | .lockMeta k, _ | .unlockMeta k, _ | .lockSpawn _ _ k, _ | .unlockSpawn _ k, _ | .lockMu _ k, _ | .unlockMu _ k, _
  | .send _ _ k, _ | .signal _ k, _ | .park _ k, _ | .unpark _ k, _ => k.Spares none
  | .evict .., _ | .kill .., _ | .startBackgroundDelete .., _ => False

section Spares

theorem spares_getOrSpawn {k : Except String (Option Nat) → Prog} (hk : ∀ r, (k r).Spares none) :
    (getOrSpawn path k).Spares none := by
  intro r
  cases r with
  | some i => exact hk _
  | none =>
    intro r
    cases r with
    | some i => exact hk _
    | none =>
      intro r
      match r with
      | .error e => exact hk _
      | .ok none => exact hk _
      | .ok (some m) =>
        intro r
        cases r with
        | error e => exact hk _
        | ok t => exact ⟨rfl, fun i => hk _⟩

theorem Prog.Spares.of_none {p : Prog} (h : p.Spares none) (r : Option (Nat × Nat)) : p.Spares r := by
  cases p with
  | spawn path m tailSeq k => cases h.1
  | _ => exact h

theorem passes_spares : Passes (Prog.Spares · none) where
  done := fun _ => trivial
  get := fun hk r => (hk r).of_none _
  lookup := fun hk => hk
  look := fun hk => hk
  getOrSpawn := spares_getOrSpawn
  handOver := fun _ _ _ dead => by
    cases dead with
    | true => exact rfl
    | false => exact fun _ => trivial
  signal := fun hk dead => by
    cases dead with
    | _ => exact hk
  park := fun _ => trivial

theorem spares_create {f : Faults → Store → Nat → CreatePlan}
    (hf : ∀ flt db id ops res, f flt db id = .ok (ops, res) → OwnTail id ops) : (create path f).Spares none := by
  refine ⟨hf, fun e => trivial, fun id ops ho => ⟨⟨path, id, ops, rfl, ho⟩, fun ok => ?_⟩⟩
  cases ok with
  | true => trivial
  | false => trivial

theorem ownTail_createOps (path : Bytes) (m : StreamMeta) (start : Nat) (records : List Bytes) (now : Int64) :
    OwnTail m.streamID (createOps path m start records now) := by
  intro i hi
  rw [effect_createOps (by simp) (by simp)]
  simp [Ne.symm hi]

theorem spares_createStream (L : GoLib) (p : CreateParams) (now nowMs : Int64) :
    (create p.path fun flt db id => createStream L flt db id now nowMs p).Spares none := by
  refine spares_create fun flt db id ops res h => ?_
  obtain ⟨-, records, rfl⟩ := createStream_spec h
  exact ownTail_createOps p.path (newMeta id now nowMs p) 0 records now

theorem spares_createFork (L : GoLib) (p : ForkParams) (now nowMs : Int64) :
    (create p.path fun flt db id => createFork L flt db id now nowMs p).Spares none := by
  refine spares_create fun flt db id ops res h => ?_
  obtain ⟨-, src, m, records, n, -, rfl, -, rfl⟩ := createFork_spec h
  intro i hi
  rw [effect_append, ownTail_createOps _ m _ _ _ i hi, Option.or_none]
  exact effect_ne fun op ho => by rw [List.mem_singleton.mp ho]; simp

/-- **A call that spares** is served by a handler that does. -/
theorem spares_prog (L : GoLib) {c : Call} (h : c.spares = true) : (c.prog L).Spares none := by
  cases c with
  | createStream p now nowMs => exact spares_createStream L p now nowMs
  | createFork p now nowMs => exact spares_createFork L p now nowMs
  | handlePost path p => exact passes_spares.handlePost L path p
  | appendOrClose path records closeStream => exact passes_spares.appendOrClose path records closeStream
  | handleGet path live => exact passes_spares.handleGet path live
  | tail path => exact passes_spares.tail path
  | next i => trivial
  | info path => exact passes_spares.info path
  | submitAppend path req => exact passes_spares.submitAppend path req
  | _ => cases h

/-- A handler that has not just read a tail is not about to spawn. -/
theorem Prog.Spares.next_none {p q : Prog} (h : p.Spares r) (hq : q.Next L p)
    (hg : ∀ key k, p ≠ .get key k) : q.Spares none := by
  cases p with
  | done status => cases hq
  | call c => cases hq; exact spares_prog L h
  | get key k => exact (hg key k rfl).elim
  | plan path f k =>
    obtain ⟨flt, db, id, rfl⟩ := hq
    cases hf : f flt db id with
    | error e => exact h.2.1 e
    | ok r => exact h.2.2 id r.1 (h.1 flt db id r.1 r.2 hf)
  | commit c k => obtain ⟨ok, rfl⟩ := hq; exact h.2 ok
  | lookup path k => obtain ⟨r, rfl⟩ := hq; exact h r
  | spawn path m tailSeq k => obtain ⟨i, rfl⟩ := hq; exact h.2 i
  | evict path k => cases h
  | look i k => obtain ⟨closed, contentType, rfl⟩ := hq; exact h closed contentType
  | isDead i k => obtain ⟨b, rfl⟩ := hq; exact h b
  | kill i k => cases h
  | await k => obtain ⟨r, rfl⟩ := hq; exact h r
  | startBackgroundDelete id k => cases h
  | _ => cases hq; exact h

theorem Prog.Spares.next {p q : Prog} (h : p.Spares r) (hq : q.Next L p) : ∃ r', q.Spares r' := by
  by_cases hg : ∃ key k, p = .get key k
  · obtain ⟨key, k, rfl⟩ := hg
    obtain ⟨res, rfl⟩ := hq
    exact ⟨_, h res⟩
  · exact ⟨none, h.next_none hq fun key k he => hg ⟨key, k, he⟩⟩

theorem Know.victim_learn (K : Know) (key : Key) (e : String) : (K.learn key (.error e)).victim = K.victim := by
  cases key <;> rfl

/-- **A handler that spares has no victim**: it would have to kill it before it ends. -/
theorem Prog.Spares.victim {p : Prog} : ∀ {r : Option (Nat × Nat)} {K : Know}, p.Spares r → p.Good K →
    K.victim = none := by
  induction p with
  | done status => intro r K _ hg; rw [show K = {} from hg]
  | call c => intro r K _ hg; rw [show K = c.pre from hg]; cases c <;> rfl
  | lockMeta k => intro r K _ hg; rw [hg.1]
  | unlockMeta k => exact fun _ hg => hg.2.1
  | lockSpawn path s k => exact fun _ hg => hg.2.1
  | unlockSpawn path k => exact fun _ hg => hg.2.1
  | lockMu i k ih => intro r K hs hg; exact ih (K := { K with mu := some i, alive := false }) hs hg
  | unlockMu i k ih => intro r K hs hg; exact ih (K := { K with mu := none, alive := false }) hs hg.2
  | get key k ih => exact fun hs hg => (Know.victim_learn _ key "").symm.trans (ih (.error "") (hs _) (hg (.error "")))
  | plan path f k ih => exact fun hs hg => ih _ (hs.2.1 { status := 500 }) (hg.2.2.1 _)
  | commit c k ih => intro r K hs hg; exact ih true (K := K.spent) (hs.2 true) (hg.2 true)
  | lookup path k ih => exact fun hs hg => ih (some 0) (hs _) (hg.1 0)
  | spawn path m tailSeq k ih =>
    intro r K hs hg
    exact ih 0 (K := { K with vacant := false, cleared := false }) (hs.2 0) (hg.2.2.2.2 0)
  | evict path k => exact nofun
  | look i k ih => exact fun hs hg => ih true [] (hs true []) (hg true [])
  | isDead i k ih => exact fun hs hg => ih true (hs true) hg.2.1
  | kill i k => exact nofun
  | send i req k ih => exact fun hs hg => ih hs hg.2.2
  | signal i k ih => exact fun hs hg => ih hs hg.2.2
  | await k ih => exact fun hs hg => ih { status := 404 } (hs _) (hg _)
  | park i k ih => exact fun hs hg => ih hs hg
  | unpark i k ih => exact fun hs hg => ih hs hg
  | startBackgroundDelete id k => exact nofun

end Spares

/-! ## Runs -/

/-- Nothing has been deleted, nor will be by the handlers at work. -/
structure Spared (w : World) : Prop where
  threads : ∀ t p, w.threads t = some p → ∃ r, p.Spares r
  deleting : w.deleting = []
  /-- a streamer dies by retirement only -/
  insts : ∀ i x, w.insts i = some x → x.stop = false ∧ (x.dead = true → x.phase = .exited)

theorem spared_start : Spared start where
  threads := fun _ _ h => (by cases h)
  deleting := rfl
  insts := fun _ _ h => (by cases h)

namespace Spared

variable {w w' : World} {t i : Nat} {x x' : Inst} {p q : Prog}

variable (h : Spared w)
include h

theorem goOn (ht : w'.threads = Function.update w.threads t (some q)) (hi : w'.insts = w.insts)
    (hd : w'.deleting = w.deleting) (hq : ∃ r, q.Spares r) : Spared w' :=
  ⟨by rw [ht]; exact forall_update h.threads hq, hd.trans h.deleting, by rw [hi]; exact h.insts⟩

theorem inst (ht : w'.threads = w.threads) (hi : w'.insts = Function.update w.insts i (some x'))
    (hd : w'.deleting = w.deleting) (hx' : x'.stop = false ∧ (x'.dead = true → x'.phase = .exited)) : Spared w' :=
  ⟨by rw [ht]; exact h.threads, hd.trans h.deleting, by rw [hi]; exact forall_update h.insts hx'⟩

theorem act {flt : Faults} {ok : Bool} (hp : w.threads t = some p) (htidy : p.Tidy)
    (he : w.act L t flt ok p = some w') : Spared w' := by
  obtain ⟨r, hs⟩ := h.threads t p hp
  obtain ⟨q, hn, ha⟩ := acted htidy he
  have hq := hs.next hn
  cases ha with
  | quiet hm hm' hg hr hi hn ht ho hj hdb hdel =>
    rcases hdel with hdel | ⟨id, k, rfl⟩
    · exact h.goOn ht hi hdel hq
    · cases hs
  | evict hpe hm' => subst hpe; cases hs
  | @spawn path m tailSeq k hpe hm' =>
    have h₁ : Spared (w.spawned path m tailSeq) := h.inst rfl rfl rfl ⟨rfl, nofun⟩
    exact h₁.goOn rfl rfl rfl hq
  | @touch i x x' hx ht hk hsend =>
    rcases hk with ⟨k, rfl⟩ | ⟨hdead, hstop⟩
    · cases hs
    · have h₁ : Spared (w.setInst i x') := h.inst rfl rfl rfl (by
        rw [hdead, hstop, ht.phase]
        exact h.insts i x hx)
      exact h₁.goOn rfl rfl rfl hq

theorem move (hx : w.insts i = some x)
    (ht : Turn L mode batchMax w i x w') : Spared w' := by
  obtain ⟨hstop, hdead⟩ := h.insts i x hx
  -- a streamer that moves is not dead
  have alive : ∀ {phase phase' : Phase}, x.phase = phase → phase ≠ .exited → x.dead = true → phase' = .exited :=
    fun hp hne hd => (hne (hp ▸ hdead hd)).elim
  cases ht with
  | enqueue hm hp hw =>
    subst hw
    split <;> exact h.inst rfl rfl rfl ⟨hstop, alive hp (by simp)⟩
  | backOff hp => exact h.inst rfl rfl rfl ⟨hstop, hp.elim (alive · (by simp)) (alive · (by simp))⟩
  | touchNone hp => exact h.inst rfl rfl rfl ⟨hstop, hdead⟩
  | retire hp => exact h.inst rfl rfl rfl ⟨hstop, fun _ => rfl⟩
  | refuse hp => exact h.inst rfl rfl rfl ⟨hstop, hdead⟩
  | _ => exact h.inst rfl rfl rfl ⟨hstop, alive ‹x.phase = _› (by simp)⟩

theorem endJob {f : Inst → Inst}
    (hf : ∀ x, (f x).stop = x.stop ∧ (f x).dead = x.dead ∧ (f x).phase = x.phase) (responses : Job → List AppendResp)
    (j : Job) : Spared (w.endJob f responses j) := by
  unfold World.endJob
  cases hx : w.insts j.inst with
  | none => exact { h with }
  | some x =>
    obtain ⟨h1, h2, h3⟩ := hf { x with pending := x.pending - 1 }
    exact h.inst rfl rfl rfl (by rw [h1, h2, h3]; exact h.insts _ x hx)

theorem flush (batchMax : Nat) (ok : Bool) : Spared (w.flush batchMax ok) := by
  cases ok with
  | true => exact { h with }
  | false =>
    exact { w.flight.foldlRecOn failJob h fun _ h j _ => h.endJob (fun _ => ⟨rfl, rfl, rfl⟩) _ j with }

/-- **The step lemma.** -/
theorem step (hl : Locks w) {e : Event}
    (hc : deletesNothing w e = true) (he : step L mode batchMax w e = some w') : Spared w' := by
  cases stepped he with
  | arrive t c _ _ => exact h.goOn rfl rfl rfl ⟨_, spares_prog L hc⟩
  | @act t flt ok p _ hp he => exact h.act hp (hl.tidy t p hp) he
  | move hx he => exact h.move hx (turned he)
  | flush ok => exact h.flush batchMax ok
  | callback n j _ =>
    have h₁ : Spared { w with landed := w.landed.eraseIdx n } := { h with }
    exact h₁.endJob (f := fun x => { x with st := applyReader x.st _ _ }) (fun x => ⟨rfl, rfl, rfl⟩) _ j
  | deliver n a _ hk =>
    obtain ⟨r, hs⟩ := h.threads _ _ hk
    exact h.goOn rfl rfl rfl ⟨none, hs a.2⟩
  | chunk n flt ok scanOk d hd =>
    rw [h.deleting] at hd
    cases hd

theorem deletesQuietly (e : Event) : deletesQuietly w e = true := by
  cases e with
  | act t flt ok =>
    cases ok with
    | false => rfl
    | true =>
      simp only [Lifecycle.deletesQuietly]
      split
      · rename_i hp
        obtain ⟨r, ⟨path, id, ops, hc, -⟩, -⟩ := h.threads _ _ hp
        cases hc
      · rfl
  | _ => rfl

/-- **A streamer that is not retired is registered at its path.** -/
theorem registered {Q R : Prop} {ks : Nat → Know} (hi : Inv Q R w ks) (hx : w.insts i = some x)
    (hd : x.gone = false) : w.registry x.st.path = some i := by
  rcases hi.ctl.live i x.shape (w.ctl_insts hx) hd with hr | ⟨t, hv, -⟩
  · exact hr
  · have hnone : (ks t).victim = none := by
      cases hp : w.threads t with
      | none => rw [hi.idle t hp]
      | some p =>
        obtain ⟨r, hs⟩ := h.threads t p hp
        exact hs.victim (hi.good t p hp)
    rw [hnone] at hv
    cases hv

end Spared

theorem spared_reach {w : World}
    (h : Reach (step L mode batchMax) (fun w e => deletesNothing w e = true) start w) :
    Spared w ∧ ∃ ks, Inv True False w ks := by
  have := h.invariant (P := fun w => Locks w ∧ Spared w ∧ ∃ ks, Inv True False w ks)
    (fun _ e _ ⟨hl, hs, _, hi⟩ hc he =>
      ⟨hl.step he, hs.step hl hc he, hi.step (fun _ => hs.deletesQuietly e) False.elim he⟩)
    ⟨locks_start, spared_start, _, inv_start True False⟩
  exact this.2

end Yasdb.Lifecycle
