import Yasdb.Lifecycle.Model

/-!
# The steps of a running server, inverted

What one access of a handler and one move of a streamer can do, said once, for the invariants that follow a streamer
object or a request through a run.

- `Mode`: what a handler holds and waits for, read off the point where it stands; every handler goes through its modes
  in order (`Prog.Tidy`, `loose_prog`);
- `Touched`: what the accesses of a handler do to a streamer object, `Acted` what they do to the server (`acted`);
- `Turn`: what the moves of a streamer do (`turned`);
- `Stepped`: the steps of the server (`stepped`).
-/

namespace Yasdb.Lifecycle

open Batch Function Option World Prog

variable {batchMax : Nat}

/-! ## The modes of a handler -/

/-- What a handler holds of a streamer, or waits for. -/
inductive Mode where
  | free
  /-- it has the mutex of the streamer `i` -/
  | holding (i : Nat)
  /-- and has seen that the streamer is not dead -/
  | checked (i : Nat)
  /-- and has put its request on the queue of the streamer -/
  | sent (i : Nat)
  /-- its answer is to come -/
  | waiting
  /-- about to register as a reader, and registered -/
  | registering (i : Nat)
  | parked (i : Nat)
  | ended
deriving DecidableEq, Repr

/-- Neither holding nor waiting for anything of a streamer. -/
def Mode.loose : Mode → Bool
  | .free | .registering _ | .ended => true
  | _ => false

theorem Mode.ne_parked {m : Mode} (h : m.loose = true) (i : Nat) : m ≠ .parked i := fun he => by
  rw [he] at h; cases h

def Prog.mode : Prog → Mode
  | .done _ => .ended
  | .unlockMu i (.await _) => .sent i
  | .unlockMu i _ | .isDead i _ | .kill i _ => .holding i
  | .send i _ _ | .signal i _ => .checked i
  | .await _ => .waiting
  | .park i _ => .registering i
  | .unpark i _ => .parked i
  | _ => .free

/-- The handler goes through its modes in order. -/
def Prog.Tidy : Prog → Prop
  | .done _ | .call _ => True
  | .lockMeta k | .unlockMeta k | .lockSpawn _ _ k | .unlockSpawn _ k | .startBackgroundDelete _ k =>
    k.mode.loose = true ∧ k.Tidy
  | .get _ k => ∀ r, (k r).mode.loose = true ∧ (k r).Tidy
  | .plan _ _ k => ∀ r, (k r).mode.loose = true ∧ (k r).Tidy
  | .commit _ k => ∀ ok, (k ok).mode.loose = true ∧ (k ok).Tidy
  | .lookup _ k | .evict _ k => ∀ r, (k r).mode.loose = true ∧ (k r).Tidy
  | .spawn _ _ _ k => ∀ i, (k i).mode.loose = true ∧ (k i).Tidy
  | .lockMu i k | .kill i k | .signal i k => k.mode = .holding i ∧ k.Tidy
  | .unlockMu _ k => (k.mode.loose = true ∨ k.mode = .waiting) ∧ k.Tidy
  | .look _ k => ∀ closed contentType, (k closed contentType).mode.loose = true ∧ (k closed contentType).Tidy
  | .isDead i k => ((k true).mode = .holding i ∧ (k true).Tidy) ∧ (k false).mode = .checked i ∧ (k false).Tidy
  | .send i _ k => k.mode = .sent i ∧ k.Tidy
  | .await k => ∀ r, (k r).mode = .ended ∧ (k r).Tidy
  | .park i k => k.mode = .parked i ∧ k.Tidy
  | .unpark _ k => k.mode.loose = true ∧ k.Tidy

/-- A tidy handler that holds nothing. -/
def Prog.Loose (p : Prog) : Prop := p.mode.loose = true ∧ p.Tidy

theorem Prog.mode_unlockMu {i : Nat} {k : Prog} (h : k.mode.loose = true) : (unlockMu i k).mode = .holding i := by
  cases k with
  | await k => cases h
  | _ => rfl

theorem Prog.park_of_mode {i : Nat} {p : Prog} (h : p.mode = .registering i) : ∃ k, p = .park i k := by
  cases p with
  | park j k => cases h; exact ⟨k, rfl⟩
  | unlockMu j k => cases k <;> cases h
  | _ => cases h

section Loose

theorem loose_done (status : Nat) : (done status).Loose := ⟨rfl, trivial⟩

theorem loose_call (c : Call) : (call c).Loose := ⟨rfl, trivial⟩

theorem loose_getOrSpawn {path : Bytes} {k : Except String (Option Nat) → Prog} (hk : ∀ r, (k r).Loose) :
    (getOrSpawn path k).Loose := by
  refine ⟨rfl, fun r => ?_⟩
  cases r with
  | some i => exact hk _
  | none =>
    refine ⟨rfl, rfl, fun r => ?_⟩
    cases r with
    | some i => exact ⟨rfl, hk _⟩
    | none =>
      refine ⟨rfl, fun r => ?_⟩
      match r with
      | .error e => exact ⟨rfl, hk _⟩
      | .ok none => exact ⟨rfl, hk _⟩
      | .ok (some m) =>
        refine ⟨rfl, fun r => ?_⟩
        cases r with
        | error e => exact ⟨rfl, hk _⟩
        | ok t => exact ⟨rfl, fun i => ⟨rfl, hk _⟩⟩

theorem passes_loose : Passes Loose where
  done := loose_done
  get := fun hk => ⟨rfl, hk⟩
  lookup := fun hk => ⟨rfl, hk⟩
  look := fun hk => ⟨rfl, hk⟩
  getOrSpawn := loose_getOrSpawn
  handOver := fun _ _ _ => ⟨rfl, rfl, ⟨rfl, .inl rfl, trivial⟩, rfl, rfl, .inr rfl, fun _ => ⟨rfl, trivial⟩⟩
  signal := fun hk =>
    have hm := ⟨mode_unlockMu hk.1, .inl hk.1, hk.2⟩
    ⟨rfl, rfl, hm, rfl, hm⟩
  park := fun _ => ⟨rfl, rfl, rfl, trivial⟩

theorem loose_create (path : Bytes) (f : Faults → Store → Nat → CreatePlan) : (create path f).Loose := by
  refine ⟨rfl, rfl, fun r => ?_⟩
  cases r with
  | error e => exact ⟨rfl, loose_done _⟩
  | ok r =>
    refine ⟨rfl, fun ok => ?_⟩
    cases ok with
    | _ => exact ⟨rfl, loose_done _⟩

theorem loose_removeStreamerLocked {path : Bytes} {c : Commit} {k : Bool → Prog} (hk : ∀ ok, (k ok).Loose) :
    (removeStreamerLocked path c k).Loose := by
  refine ⟨rfl, rfl, fun r => ?_⟩
  cases r with
  | none => exact ⟨rfl, fun ok => ⟨rfl, hk ok⟩⟩
  | some i => exact ⟨rfl, rfl, rfl, .inl rfl, fun ok => ⟨rfl, hk ok⟩⟩

theorem loose_deleteStreamLocked (path : Bytes) (m : StreamMeta) (cascade : Bool) :
    (deleteStreamLocked path m cascade).Loose := by
  refine loose_removeStreamerLocked fun ok => ?_
  cases ok with
  | true =>
    refine ⟨rfl, ?_⟩
    dsimp only
    split
    · exact loose_call _
    · exact ⟨rfl, loose_done _⟩
  | false => exact ⟨rfl, loose_done _⟩

theorem loose_dropForkRef (sourceID : Nat) : (dropForkRef sourceID).Loose := by
  refine ⟨rfl, fun r => ⟨rfl, fun _ => ?_⟩⟩
  split
  · exact ⟨rfl, loose_done _⟩
  · refine ⟨rfl, fun r => ?_⟩
    match r with
    | .error e => exact ⟨rfl, loose_done _⟩
    | .ok none => exact ⟨rfl, loose_done _⟩
    | .ok (some path) =>
      refine ⟨rfl, fun r => ?_⟩
      match r with
      | .error e => exact ⟨rfl, loose_done _⟩
      | .ok none => exact ⟨rfl, loose_done _⟩
      | .ok (some m) =>
        refine ⟨rfl, fun r => ?_⟩
        match r with
        | .error e => exact ⟨rfl, loose_done _⟩
        | .ok none => exact ⟨rfl, loose_done _⟩
        | .ok (some t) => exact loose_call _

theorem loose_deleteStream (path : Bytes) : (deleteStream path).Loose := by
  refine ⟨rfl, rfl, fun r => ?_⟩
  cases r with
  | error e => exact ⟨rfl, loose_done _⟩
  | ok t =>
    dsimp only
    split
    · exact ⟨rfl, loose_done _⟩
    · refine ⟨rfl, fun r => ?_⟩
      match r with
      | .error e => exact ⟨rfl, loose_done _⟩
      | .ok none => exact ⟨rfl, loose_done _⟩
      | .ok (some m) =>
        refine ⟨rfl, fun r => ?_⟩
        dsimp only
        split
        · exact loose_removeStreamerLocked fun ok => ⟨rfl, loose_done _⟩
        · exact loose_call _

theorem loose_expireIfDue (deadline : UInt64) (id : Nat) (now : Int64) : (expireIfDue deadline id now).Loose := by
  have hdrop : (commit (.dropStaleExpiry deadline id) fun _ => .unlockMeta (.done 204)).Loose :=
    ⟨rfl, fun _ => ⟨rfl, loose_done _⟩⟩
  refine ⟨rfl, rfl, fun r => ?_⟩
  match r with
  | .error e => exact ⟨rfl, loose_done _⟩
  | .ok none => exact hdrop
  | .ok (some path) =>
    refine ⟨rfl, fun r => ?_⟩
    match r with
    | .error e => exact ⟨rfl, loose_done _⟩
    | .ok none => exact hdrop
    | .ok (some m) =>
      dsimp only
      split
      · exact hdrop
      · split
        · exact ⟨rfl, loose_done _⟩
        · exact loose_call _

/-- **Every handler goes through its modes in order.** -/
theorem loose_prog (L : GoLib) (c : Call) : (c.prog L).Loose := by
  cases c with
  | handlePost path p => exact passes_loose.handlePost L path p
  | appendOrClose path records closeStream => exact passes_loose.appendOrClose path records closeStream
  | handleGet path live => exact passes_loose.handleGet path live
  | tail path => exact passes_loose.tail path
  | next i => exact passes_loose.park i
  | info path => exact passes_loose.info path
  | deleteStream path => exact loose_deleteStream path
  | expireIfDue deadline id now => exact loose_expireIfDue deadline id now
  | submitAppend path req => exact passes_loose.submitAppend path req
  | deleteStreamLocked path m cascade => exact loose_deleteStreamLocked path m cascade
  | dropForkRef sourceID => exact loose_dropForkRef sourceID
  | _ => exact loose_create _ _

end Loose

/-! ## Handlers -/

/-- Where a handler can stand after its next access. -/
def Prog.Next (L : GoLib) (q : Prog) : Prog → Prop
  | .done _ => False
  | .call c => q = c.prog L
  | .lockMeta k | .unlockMeta k | .lockSpawn _ _ k | .unlockSpawn _ k | .lockMu _ k | .unlockMu _ k => q = k
  | .get _ k => ∃ r, q = k r
  | .plan _ f k => ∃ flt db id, q = k ((f flt db id).map fun r => (id, r.1))
  | .commit _ k => ∃ ok, q = k ok
  | .lookup _ k | .evict _ k => ∃ r, q = k r
  | .spawn _ _ _ k => ∃ i, q = k i
  | .look _ k => ∃ closed contentType, q = k closed contentType
  | .isDead _ k => ∃ b, q = k b
  | .kill _ k | .send _ _ k | .signal _ k | .park _ k | .unpark _ k | .startBackgroundDelete _ k => q = k
  | .await k => ∃ r, q = k r

/-- What an access of the handler `t` does to the streamer object at address `i`, and to its own mode. -/
inductive Touched (t i : Nat) (x : Inst) : Mode → Mode → Inst → Prop where
  | lockMu (h : x.mu = none) : Touched t i x .free (.holding i) { x with mu := some (.thread t) }
  | unlockMu {m : Mode} (hm : m.loose = true) : Touched t i x (.holding i) m { x with mu := none }
  | unlockSent : Touched t i x (.sent i) .waiting { x with mu := none }
  | dead (h : x.dead = true) : Touched t i x (.holding i) (.holding i) x
  | alive (h : x.dead = false) : Touched t i x (.holding i) (.checked i) x
  | kill : Touched t i x (.holding i) (.holding i) { x with dead := true, stop := x.stop || !x.dead }
  | send (req : AppendReq) (late : Bool) :
      Touched t i x (.checked i) (.sent i) { x with reqs := x.reqs ++ [Request.mk t req late] }
  | signal : Touched t i x (.checked i) (.holding i) { x with touch := true }
  | park : Touched t i x (.registering i) (.parked i) { x with readers := x.readers + 1 }
  | unpark {m : Mode} (hm : m.loose = true) : Touched t i x (.parked i) m { x with readers := x.readers - 1 }

theorem Touched.phase {t i : Nat} {x x' : Inst} {m m' : Mode} (h : Touched t i x m m' x') : x'.phase = x.phase := by
  cases h <;> rfl

theorem Touched.pending {t i : Nat} {x x' : Inst} {m m' : Mode} (h : Touched t i x m m' x') :
    x'.pending = x.pending := by
  cases h <;> rfl

/-- A new streamer is registered. -/
def World.spawned (w : World) (path : Bytes) (m : StreamMeta) (tailSeq : Nat) : World :=
  { w.setInst w.nextInst { st := newStreamer path m tailSeq } with
    registry := update w.registry path (some w.nextInst)
    nextInst := w.nextInst + 1 }

/-- What an access of the handler `t`, which goes on from `p` to `q`, does to the server. -/
inductive Acted (w : World) (t : Nat) (p q : Prog) : World → Prop where
  /-- it concerns neither the registry nor a streamer -/
  | quiet {w' : World} (hp : p.mode = .free) (hq : q.mode.loose = true)
      (hg : ∀ key k, p = .get key k → ∃ flt, q = k (Store.get flt w.db key)) (hr : w'.registry = w.registry)
      (hi : w'.insts = w.insts) (hn : w'.nextInst = w.nextInst) (ht : w'.threads = update w.threads t (some q))
      (ho : w'.outbox = w.outbox) (hj : w'.queue = w.queue ∧ w'.flight = w.flight ∧ w'.landed = w.landed)
      (hdb : w'.db = w.db ∧ w'.history = w.history ∨
        ∃ c k, p = .commit c k ∧ w'.db = applyOps w.db c.ops ∧ w'.history = w.history ++ [c.entry])
      (hdel : w'.deleting = w.deleting ∨ ∃ id k, p = .startBackgroundDelete id k) : Acted w t p q w'
  | evict {path : Bytes} {k : Option Nat → Prog} (hp : p = .evict path k) (hq : q.mode.loose = true) :
      Acted w t p q ({ w with registry := update w.registry path none }.setProg t q)
  | spawn {path : Bytes} {m : StreamMeta} {tailSeq : Nat} {k : Nat → Prog} (hp : p = .spawn path m tailSeq k)
      (hq : q.mode.loose = true) :
      Acted w t p q ((w.spawned path m tailSeq).setProg t q)
  | touch {i : Nat} {x x' : Inst} (hx : w.insts i = some x) (ht : Touched t i x p.mode q.mode x')
      (hk : (∃ k, p = .kill i k) ∨ x'.dead = x.dead ∧ x'.stop = x.stop)
      (hs : q.mode = .sent i ∧ (∃ req k, p = .send i req k) ∨ x'.reqs = x.reqs ∧ ∀ j req k, p ≠ .send j req k) :
      Acted w t p q ((w.setInst i x').setProg t q)

def World.mode (w : World) (t : Nat) : Mode := (w.threads t).elim .free Prog.mode

section Mode

variable {w w' : World} {t u : Nat} {p q : Prog}

theorem World.mode_eq (h : w.threads t = some p) : w.mode t = p.mode := by rw [mode, h]; rfl

theorem World.mode_update (h : w'.threads = update w.threads t (some q)) :
    w'.mode u = if u = t then q.mode else w.mode u := by
  unfold mode
  rw [h]
  by_cases hu : u = t
  · subst hu; rw [update_self, if_pos rfl]; rfl
  · rw [update_of_ne hu, if_neg hu]

end Mode

theorem World.setInst_self {w : World} {i : Nat} {x : Inst} (hx : w.insts i = some x) : w.setInst i x = w := by
  unfold setInst
  rw [← hx, update_eq_self]

theorem Prog.Tidy.next {L : GoLib} {p q : Prog} (h : p.Tidy) (hq : q.Next L p) : q.Tidy := by
  cases p with
  | done status => cases hq
  | call c => cases hq; exact (loose_prog L c).2
  | get key k => obtain ⟨r, rfl⟩ := hq; exact (h r).2
  | plan path f k => obtain ⟨flt, db, id, rfl⟩ := hq; exact (h _).2
  | commit c k => obtain ⟨ok, rfl⟩ := hq; exact (h ok).2
  | lookup path k => obtain ⟨r, rfl⟩ := hq; exact (h r).2
  | spawn path m tailSeq k => obtain ⟨i, rfl⟩ := hq; exact (h i).2
  | evict path k => obtain ⟨r, rfl⟩ := hq; exact (h r).2
  | look i k => obtain ⟨closed, contentType, rfl⟩ := hq; exact (h closed contentType).2
  | isDead i k =>
    obtain ⟨b, rfl⟩ := hq
    cases b with
    | true => exact h.1.2
    | false => exact h.2.2
  | await k => obtain ⟨r, rfl⟩ := hq; exact (h r).2
  | _ => cases hq; exact h.2

section Acted

variable {L : GoLib} {w w' : World} {t i : Nat} {flt : Faults} {ok : Bool} {p : Prog} {x x' : Inst}

theorem acted_quiet {w₁ : World} {q : Prog} (hp : p.mode = .free) (hq : q.mode.loose = true) (hn : q.Next L p)
    (hg : ∀ key k, p = .get key k → ∃ flt, q = k (Store.get flt w.db key))
    (h : w₁ = { w with metaMu := w₁.metaMu, spawnLocks := w₁.spawnLocks }) :
    ∃ q', q'.Next L p ∧ Acted w t p q' (w₁.setProg t q) := by
  rw [h]
  exact ⟨q, hn, .quiet hp hq hg rfl rfl rfl rfl rfl ⟨rfl, rfl, rfl⟩ (.inl ⟨rfl, rfl⟩) (.inl rfl)⟩

theorem acted_touch {q : Prog} (hn : q.Next L p) (hx : w.insts i = some x) (ht : Touched t i x p.mode q.mode x')
    (hk : (x'.dead = x.dead ∧ x'.stop = x.stop) ∧ x'.reqs = x.reqs) (hs : ∀ j req k, p ≠ .send j req k) :
    ∃ q', q'.Next L p ∧ Acted w t p q' ((w.setInst i x').setProg t q) :=
  ⟨q, hn, .touch hx ht (.inr hk.1) (.inr ⟨hk.2, hs⟩)⟩

/-- **The accesses of a handler.** -/
theorem acted (hp : p.Tidy) (h : w.act L t flt ok p = some w') : ∃ q, q.Next L p ∧ Acted w t p q w' := by
  cases p with
  | done status => cases h
  | call c => cases h; exact acted_quiet rfl (loose_prog L c).1 rfl nofun rfl
  | unlockMeta k => cases h; exact acted_quiet rfl hp.1 rfl nofun rfl
  | unlockSpawn path k => cases h; exact acted_quiet rfl hp.1 rfl nofun rfl
  | lockMu i k =>
    simp only [act, bind_eq_some_iff, ite_none_right_eq_some, some.injEq] at h
    obtain ⟨x, hx, hmu, rfl⟩ := h
    exact acted_touch rfl hx (hp.1 ▸ .lockMu hmu) ⟨⟨rfl, rfl⟩, rfl⟩ (by simp)
  | unlockMu i k =>
    obtain ⟨x, hx, rfl⟩ := map_eq_some_iff.mp h
    refine acted_touch rfl hx ?_ ⟨⟨rfl, rfl⟩, rfl⟩ (by simp)
    rcases hp.1 with hk | hk
    · rw [mode_unlockMu hk]
      exact .unlockMu hk
    · cases k with
      | await k => exact .unlockSent
      | unlockMu j k => cases k <;> cases hk
      | _ => cases hk
  | get key k => cases h; exact acted_quiet rfl (hp _).1 ⟨_, rfl⟩ (fun _ _ hp => by cases hp; exact ⟨flt, rfl⟩) rfl
  | plan path f k => cases h; exact acted_quiet rfl (hp _).1 ⟨_, _, _, rfl⟩ nofun rfl
  | commit c k =>
    cases h
    cases ok with
    | true =>
      exact ⟨k true, ⟨true, rfl⟩, .quiet rfl (hp true).1 nofun rfl rfl rfl rfl rfl ⟨rfl, rfl, rfl⟩
        (.inr ⟨c, k, rfl, rfl, rfl⟩) (.inl rfl)⟩
    | false => exact acted_quiet rfl (hp false).1 ⟨_, rfl⟩ nofun rfl
  | lookup path k => cases h; exact acted_quiet rfl (hp _).1 ⟨_, rfl⟩ nofun rfl
  | spawn path m tailSeq k => cases h; exact ⟨_, ⟨_, rfl⟩, .spawn rfl (hp _).1⟩
  | evict path k => cases h; exact ⟨_, ⟨_, rfl⟩, .evict rfl (hp _).1⟩
  | look i k =>
    obtain ⟨x, hx, rfl⟩ := map_eq_some_iff.mp h
    exact acted_quiet rfl (hp _ _).1 ⟨_, _, rfl⟩ nofun rfl
  | isDead i k =>
    obtain ⟨x, hx, rfl⟩ := map_eq_some_iff.mp h
    have ht : Touched t i x (.holding i) (k x.dead).mode x := by
      cases hd : x.dead with
      | true => rw [hp.1.1]; exact .dead hd
      | false => rw [hp.2.1]; exact .alive hd
    have := acted_touch (L := L) (p := .isDead i k) ⟨_, rfl⟩ hx ht ⟨⟨rfl, rfl⟩, rfl⟩ (by simp)
    rwa [setInst_self hx] at this
  | kill i k =>
    obtain ⟨x, hx, rfl⟩ := map_eq_some_iff.mp h
    exact ⟨k, rfl, .touch hx (hp.1 ▸ .kill) (.inl ⟨k, rfl⟩) (.inr ⟨rfl, by simp⟩)⟩
  | send i req k =>
    simp only [act, bind_eq_some_iff, ite_none_right_eq_some, some.injEq] at h
    obtain ⟨x, hx, -, rfl⟩ := h
    exact ⟨k, rfl, .touch hx (hp.1 ▸ .send req _) (.inr ⟨rfl, rfl⟩) (.inl ⟨hp.1, req, k, rfl⟩)⟩
  | signal i k =>
    obtain ⟨x, hx, rfl⟩ := map_eq_some_iff.mp h
    exact acted_touch rfl hx (hp.1 ▸ .signal) ⟨⟨rfl, rfl⟩, rfl⟩ (by simp)
  | await k => cases h
  | park i k =>
    obtain ⟨x, hx, rfl⟩ := map_eq_some_iff.mp h
    exact acted_touch rfl hx (hp.1 ▸ .park) ⟨⟨rfl, rfl⟩, rfl⟩ (by simp)
  | unpark i k =>
    obtain ⟨x, hx, rfl⟩ := map_eq_some_iff.mp h
    exact acted_touch rfl hx (.unpark hp.1) ⟨⟨rfl, rfl⟩, rfl⟩ (by simp)
  | startBackgroundDelete id k =>
    cases h
    exact ⟨k, rfl, .quiet rfl hp.1 nofun rfl rfl rfl rfl rfl ⟨rfl, rfl, rfl⟩ (.inl ⟨rfl, rfl⟩) (.inr ⟨id, k, rfl⟩)⟩
  | _ =>
    simp only [act, ite_none_right_eq_some, some.injEq] at h
    obtain ⟨-, rfl⟩ := h
    exact acted_quiet rfl hp.1 rfl nofun rfl

end Acted

/-! ## Streamers -/

/-- What a move does to the streamer object: it takes, plans and hands over requests, touches, retires or stops. -/
inductive Turn (L : GoLib) (mode : Durability) (batchMax : Nat) (w : World) (i : Nat) (x : Inst) : World → Prop where
  | recv {r : Request} {rs : List Request} (hp : x.phase = .idle) (hr : x.reqs = r :: rs) :
      Turn L mode batchMax w i x (w.setInst i { x with reqs := rs, phase := .draining [r] })
  | drain {batch : List Request} {r : Request} {rs : List Request} (hp : x.phase = .draining batch)
      (hr : x.reqs = r :: rs) :
      Turn L mode batchMax w i x (w.setInst i { x with reqs := rs, phase := .draining (batch ++ [r]) })
  | reply {flt : Faults} {now : Int64} {batch : List Request} {s : Streamer} {responses : List AppendResp}
      (hp : x.phase = .draining batch)
      (hb : processBurst L flt w.db now x.st (batch.map (·.req)) = (s, .reply responses)) :
      Turn L mode batchMax w i x ((w.setInst i { x with st := s, phase := .idle }).replyAll batch responses)
  | plan {flt : Faults} {now : Int64} {batch : List Request} {s : Streamer} {c : CommitBurst}
      (hp : x.phase = .draining batch)
      (hb : processBurst L flt w.db now x.st (batch.map (·.req)) = (s, .commit c)) :
      Turn L mode batchMax w i x (w.setInst i { x with st := s, phase := .committing c batch })
  | commit {c : CommitBurst} {batch : List Request} (hm : mode = .sync) (hp : x.phase = .committing c batch) :
      Turn L mode batchMax w i x (((w.setInst i { x with
        st := applyReader (applyWriter x.st c.pend c.metaChanged) c.pend.tail (c.metaChanged && c.pend.closed)
        phase := .idle }).replyAll batch c.responses).committed c.ops [.streamer x.st.id c.ops])
  | fail {c : CommitBurst} {batch : List Request} (hm : mode = .sync) (hp : x.phase = .committing c batch) :
      Turn L mode batchMax w i x ((w.setInst i { x with phase := .idle }).replyAll batch
        (failAccepted c.responses c.accepted errStoreClosed))
  | enqueue {c : CommitBurst} {batch : List Request} {w₁ : World} (hm : mode = .notifier)
      (hp : x.phase = .committing c batch)
      (hw : w₁ = { w.setInst i { x with
        st := applyWriter x.st c.pend c.metaChanged, pending := x.pending + 1, phase := .idle } with
          queue := w.queue ++ [Job.mk i x.st.id c batch] }) :
      Turn L mode batchMax w i x (if w.flight.isEmpty then w₁.takeBatch batchMax else w₁)
  | touchNone {now : Int64} {s : Streamer} (hp : x.phase = .idle) (ht : ttlRefreshOps x.st now = (s, none)) :
      Turn L mode batchMax w i x (w.setInst i { x with st := s, touch := false })
  | touch {now : Int64} {s : Streamer} {ops : List Op} (hp : x.phase = .idle)
      (ht : ttlRefreshOps x.st now = (s, some ops)) :
      Turn L mode batchMax w i x (w.setInst i { x with
        st := s, touch := false
        phase := .touching (ops ++ [Op.put (.metaKey s.path) s.streamMeta]) x.st.streamMeta.deadline })
  | touched {ops : List Op} {old : UInt64} (hp : x.phase = .touching ops old) :
      Turn L mode batchMax w i x ((w.setInst i { x with phase := .idle }).committed ops [.streamer x.st.id ops])
  | untouched {ops : List Op} {old : UInt64} (hp : x.phase = .touching ops old) :
      Turn L mode batchMax w i x (w.setInst i { x with st := x.st.setDeadline old, phase := .idle })
  | timer (hp : x.phase = .idle) : Turn L mode batchMax w i x (w.setInst i { x with phase := .retiring })
  | retireLock (hp : x.phase = .retiring) (hmu : x.mu = none) :
      Turn L mode batchMax w i x (w.setInst i { x with mu := some .self, phase := .retireLocked })
  | backOff (hp : x.phase = .retireLocked ∨ x.phase = .retireCounted) :
      Turn L mode batchMax w i x (w.setInst i { x with mu := none, phase := .idle })
  | count (hp : x.phase = .retireLocked) (hr : x.reqs = []) (hn : x.readers = 0) :
      Turn L mode batchMax w i x (w.setInst i { x with phase := .retireCounted })
  | pass (hp : x.phase = .retireCounted) (hn : x.pending = 0) :
      Turn L mode batchMax w i x (w.setInst i { x with phase := .retirePassed })
  | unregister (hp : x.phase = .retirePassed) :
      Turn L mode batchMax w i x { w.setInst i { x with phase := .retireLeft } with
        registry := if w.registry x.st.path = some i then update w.registry x.st.path none else w.registry }
  | retire (hp : x.phase = .retireLeft) :
      Turn L mode batchMax w i x (w.setInst i { x with dead := true, mu := none, phase := .exited })
  | stop (hp : x.phase = .idle) (hs : x.stop = true) :
      Turn L mode batchMax w i x (w.setInst i { x with phase := .stopping })
  | refuse {r : Request} {rs : List Request} (hp : x.phase = .stopping) (hr : x.reqs = r :: rs) :
      Turn L mode batchMax w i x ((w.setInst i { x with reqs := rs }).replyAll [r] [{ status := 404 }])
  | exit (hp : x.phase = .stopping) (hr : x.reqs = []) :
      Turn L mode batchMax w i x (w.setInst i { x with phase := .exited })

theorem Turn.threads {L : GoLib} {mode : Durability} {w w' : World} {i : Nat} {x : Inst}
    (h : Turn L mode batchMax w i x w') : w'.threads = w.threads := by
  cases h with
  | enqueue hm hp hw => subst hw; split <;> rfl
  | _ => rfl

/-- **The moves of a streamer.** -/
theorem turned {L : GoLib} {mode : Durability} {w w' : World} {i : Nat} {x : Inst} {m : Move}
    (h : w.move L mode batchMax i x m = some w') : Turn L mode batchMax w i x w' := by
  -- every move stands in one phase, and is not enabled in the others
  cases m with
    (simp only [move] at h; split at h <;> try cases h)
  | recv =>
    rename_i hp hr
    exact .recv hp hr
  | drain =>
    rename_i hp hr
    simp only [ite_none_right_eq_some, some.injEq] at h
    obtain ⟨-, rfl⟩ := h
    exact .drain hp hr
  | plan flt now =>
    rename_i batch hp
    split at h
    · cases hb : processBurst L flt w.db now x.st (batch.map (·.req)) with
      | mk s b =>
        rw [hb] at h
        cases b with
        | reply responses => cases h; exact .reply hp hb
        | commit c => cases h; exact .plan hp hb
    · cases h
  | commit ok =>
    rename_i c batch hp
    cases ok with
    | true => exact .commit rfl hp
    | false => exact .fail rfl hp
  | enqueue =>
    rename_i hp
    exact .enqueue rfl hp rfl
  | touch now =>
    rename_i hp ht
    cases hb : ttlRefreshOps x.st now with
    | mk s o =>
      rw [hb] at h
      cases o with
      | none => cases h; exact .touchNone hp hb
      | some ops => cases h; exact .touch hp hb
  | touchCommit ok =>
    rename_i ops old hp
    cases ok with
    | true => exact .touched hp
    | false => exact .untouched hp
  | timer =>
    rename_i hp
    exact .timer hp
  | retireLock =>
    rename_i hp hmu
    exact .retireLock hp hmu
  | retireCount =>
    rename_i hp
    split
    · exact .backOff (.inl hp)
    · rename_i hno
      simp only [not_or, not_not, Nat.not_lt, Nat.le_zero] at hno
      exact .count hp hno.1 hno.2
  | retirePending =>
    rename_i hp
    split
    · exact .backOff (.inr hp)
    · exact .pass hp (by omega)
  | unregister =>
    rename_i hp
    exact .unregister hp
  | retire =>
    rename_i hp
    exact .retire hp
  | stop =>
    rename_i hp hs
    exact .stop hp hs
  | refuse =>
    rename_i hp hr
    exact .refuse hp hr
  | exit =>
    rename_i hp hr
    exact .exit hp hr

/-! ## The committer and the background deletions -/

/-- The two differ in streamer objects and answers only. -/
structure Resolves (w w' : World) : Prop where
  threads : w'.threads = w.threads
  registry : w'.registry = w.registry
  nextInst : w'.nextInst = w.nextInst
  queue : w'.queue = w.queue
  flight : w'.flight = w.flight
  landed : w'.landed = w.landed
  db : w'.db = w.db
  history : w'.history = w.history

theorem resolves_endJob (w : World) (f : Inst → Inst) (responses : Job → List AppendResp) (j : Job) :
    Resolves w (w.endJob f responses j) := by
  unfold endJob
  cases w.insts j.inst with
  | _ => exact ⟨rfl, rfl, rfl, rfl, rfl, rfl, rfl, rfl⟩

theorem resolves_failJobs (js : List Job) : ∀ w : World, Resolves w (js.foldl failJob w) := by
  induction js with
  | nil => exact fun w => ⟨rfl, rfl, rfl, rfl, rfl, rfl, rfl, rfl⟩
  | cons j js ih =>
    intro w
    have h₁ : Resolves w (w.failJob j) := resolves_endJob w _ _ j
    have h₂ := ih (w.failJob j)
    exact ⟨h₂.threads.trans h₁.threads, h₂.registry.trans h₁.registry, h₂.nextInst.trans h₁.nextInst,
      h₂.queue.trans h₁.queue, h₂.flight.trans h₁.flight, h₂.landed.trans h₁.landed, h₂.db.trans h₁.db,
      h₂.history.trans h₁.history⟩

theorem chunk_eq (w : World) (flt : Faults) (ok scanOk : Bool) (n : Nat) (d : Deletion) :
    ∃ db history deleting, w.chunk flt ok scanOk n d =
      { w with db := db, history := history, deleting := deleting } := by
  have hphase : ∀ (w : World) (next : Option DeletePhase), ∃ deleting,
      w.setPhase n d.id next = { w with deleting := deleting } := fun w next => by
    cases next with
    | none => exact ⟨_, rfl⟩
    | some phase => exact ⟨_, rfl⟩
  unfold chunk
  split
  · obtain ⟨deleting, h⟩ := hphase w _
    exact ⟨w.db, w.history, deleting, h⟩
  · split
    · obtain ⟨deleting, h⟩ := hphase (w.committed _ [.other]) _
      exact ⟨_, _, deleting, h⟩
    · obtain ⟨deleting, h⟩ := hphase w none
      exact ⟨w.db, w.history, deleting, h⟩

/-! ## Steps -/

/-- The steps of a running server, with their guards. -/
inductive Stepped (L : GoLib) (mode : Durability) (batchMax : Nat) (w : World) : Event → World → Prop where
  | arrive (t : Nat) (c : Call) (ht : w.threads t = none) (hc : c.external = true) :
      Stepped L mode batchMax w (.arrive t c) (w.setProg t (c.prog L))
  | act {t : Nat} {flt : Faults} {ok : Bool} {p : Prog} {w' : World} (hp : w.threads t = some p)
      (he : w.act L t flt ok p = some w') : Stepped L mode batchMax w (.act t flt ok) w'
  | move {i : Nat} {m : Move} {x : Inst} {w' : World} (hx : w.insts i = some x)
      (he : w.move L mode batchMax i x m = some w') : Stepped L mode batchMax w (.move i m) w'
  | flush (ok : Bool) : Stepped L mode batchMax w (.flush ok) (w.flush batchMax ok)
  | callback (n : Nat) (j : Job) (hj : w.landed[n]? = some j) :
      Stepped L mode batchMax w (.callback n) ({ w with landed := w.landed.eraseIdx n }.callback j)
  | deliver (n : Nat) (a : Nat × AppendResp) {k : AppendResp → Prog} (ha : w.outbox[n]? = some a)
      (hk : w.threads a.1 = some (.await k)) :
      Stepped L mode batchMax w (.deliver n) ({ w with outbox := w.outbox.eraseIdx n }.setProg a.1 (k a.2))
  | chunk (n : Nat) (flt : Faults) (ok scanOk : Bool) (d : Deletion) (hd : w.deleting[n]? = some d) :
      Stepped L mode batchMax w (.chunk n flt ok scanOk) (w.chunk flt ok scanOk n d)

/-- **The steps of a running server.** -/
theorem stepped {L : GoLib} {mode : Durability} {w w' : World} {e : Event}
    (h : step L mode batchMax w e = some w') : Stepped L mode batchMax w e w' := by
  cases e with
  | arrive t c =>
    simp only [step, Bool.and_eq_true, isNone_iff_eq_none, ite_none_right_eq_some, some.injEq] at h
    obtain ⟨⟨ht, hc⟩, rfl⟩ := h
    exact .arrive t c ht hc
  | act t flt ok =>
    obtain ⟨p, hp, he⟩ := bind_eq_some_iff.mp h
    exact .act hp he
  | move i m =>
    obtain ⟨x, hx, he⟩ := bind_eq_some_iff.mp h
    exact .move hx he
  | flush ok =>
    simp only [step, ite_none_left_eq_some, some.injEq] at h
    obtain ⟨-, rfl⟩ := h
    exact .flush ok
  | callback n =>
    obtain ⟨j, hj, rfl⟩ := map_eq_some_iff.mp h
    exact .callback n j hj
  | deliver n =>
    obtain ⟨a, ha, he⟩ := bind_eq_some_iff.mp h
    split at he
    · rename_i k hk
      cases he
      exact .deliver n a ha hk
    · cases he
  | chunk n flt ok scanOk =>
    obtain ⟨d, hd, rfl⟩ := map_eq_some_iff.mp h
    exact .chunk n flt ok scanOk d hd

end Yasdb.Lifecycle
