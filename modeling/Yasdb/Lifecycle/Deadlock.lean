import Yasdb.Lifecycle.Deletion
import Yasdb.Lifecycle.Locks

/-!
# The mutex and the request buffer of a streamer

`submitAppend` sends on the bounded buffer of a streamer while it has its mutex, and `tryRetire` takes the same mutex on
the goroutine that empties the buffer.

- `Roomy.step`: as long as no append takes the mutex with the buffer full, no append has to wait for room;
- `no_deadlock`: **then no state with a deadlock is reached**;
- `append_deadlocks`: `maxBurst + 1` appends arrive between the idle timer and the mutex;
- `mutex_guards_buffer`: what the mutex guarantees in every run.
-/

namespace Yasdb.Lifecycle

open Batch Objects Runs Function Option World Prog Nat Mode

variable {L : GoLib} {mode : Durability} {batchMax : Nat}

/-- The goroutine of the streamer `i` waits for the mutex in `tryRetire`, and the handler that has the mutex waits for
room in the full buffer. -/
def World.Deadlocked (w : World) (i : Nat) : Prop :=
  ∃ x t req k, w.insts i = some x ∧ x.phase = .retiring ∧ x.mu = some (.thread t) ∧
    w.threads t = some (.send i req k) ∧ maxBurst ≤ x.reqs.length

/-- The handler comes to a send on the streamer `i` without giving its mutex back. -/
def Prog.submits (i : Nat) : Prog → Bool
  | .send j _ _ => j == i
  | .isDead _ k => (k true).submits i || (k false).submits i
  | .kill _ k | .signal _ k => k.submits i
  | _ => false

/-- An append takes the mutex of a streamer only if there is room in its buffer. -/
def locksWithRoom (w : World) : Event → Bool
  | .act t _ _ =>
    match w.threads t with
    | some (.lockMu i k) => !k.submits i || (w.insts i).all fun x => x.reqs.length < maxBurst
    | _ => true
  | _ => true

/-! ## Handlers on their way to a send -/

section Submits

variable {i : Nat} {p q : Prog}

/-- Such a handler has the mutex and has not sent anything yet. -/
theorem Prog.mode_of_submits (hp : p.Tidy) (h : p.submits i = true) : p.mode = .holding i ∨ p.mode = .checked i := by
  have same : ∀ {m : Mode} {j : Nat}, m = .holding j → m = .holding i ∨ m = .checked i → j = i := fun hm h => by
    rw [hm] at h
    rcases h with h | h <;> cases h
    rfl
  induction p with
  | send j req k ih => exact .inr (congrArg checked (beq_iff_eq.mp h))
  | isDead j k ih =>
    obtain ⟨⟨ht, htidy⟩, hf, hftidy⟩ := hp
    rcases (Bool.or_eq_true _ _).mp h with h | h
    · exact .inl (congrArg holding (same ht (ih true htidy h)))
    · have hm := ih false hftidy h
      rw [hf] at hm
      rcases hm with hm | hm <;> cases hm
      exact .inl rfl
  | kill j k ih => exact .inl (congrArg holding (same hp.1 (ih hp.2 h)))
  | signal j k ih => exact .inr (congrArg checked (same hp.1 (ih hp.2 h)))
  | _ => cases h

theorem Prog.holds_of_submits (hp : p.Tidy) (h : p.submits i = true) : p.mode.holds = some i := by
  rcases mode_of_submits hp h with h | h <;> rw [h] <;> rfl

theorem Prog.submits_eq_false (hp : p.Tidy) (hh : p.mode ≠ .holding i) (hc : p.mode ≠ .checked i) :
    p.submits i = false := by
  cases hs : p.submits i with
  | false => rfl
  | true => exact ((mode_of_submits hp hs).elim hh hc).elim

theorem Prog.Loose.submits (h : p.Loose) (i : Nat) : p.submits i = false := by
  refine submits_eq_false h.2 (fun he => ?_) fun he => ?_
  · have := h.1; rw [he] at this; cases this
  · have := h.1; rw [he] at this; cases this

/-- A handler gets on its way by taking the mutex. -/
theorem Prog.submits_of_next (hp : p.Tidy) (hn : q.Next L p) (h : q.submits i = true) :
    p.submits i = true ∨ p = .lockMu i q := by
  have loose : ∀ {P : Prop}, q.Loose → P := fun hq => by rw [hq.submits i] at h; cases h
  have other : ∀ {P : Prop} {m : Mode}, q.Tidy → q.mode = m → m ≠ .holding i → m ≠ .checked i → P :=
    fun ht hm hh hc => by rw [submits_eq_false ht (hm ▸ hh) (hm ▸ hc)] at h; cases h
  cases p with
  | done status => cases hn
  | call c => cases hn; exact loose (loose_prog L c)
  | lockMu j k =>
    cases hn
    have hm := mode_of_submits hp.2 h
    rw [hp.1] at hm
    rcases hm with hm | hm <;> cases hm
    exact .inr rfl
  | unlockMu j k =>
    cases hn
    rcases hp.1 with hm | hm
    · exact loose ⟨hm, hp.2⟩
    · exact other hp.2 hm (by simp) (by simp)
  | get key k => obtain ⟨r, rfl⟩ := hn; exact loose (hp r)
  | plan path f k => obtain ⟨flt, db, id, rfl⟩ := hn; exact loose (hp _)
  | commit c k => obtain ⟨ok, rfl⟩ := hn; exact loose (hp ok)
  | lookup path k => obtain ⟨r, rfl⟩ := hn; exact loose (hp r)
  | spawn path m tailSeq k => obtain ⟨j, rfl⟩ := hn; exact loose (hp j)
  | evict path k => obtain ⟨r, rfl⟩ := hn; exact loose (hp r)
  | look j k => obtain ⟨closed, contentType, rfl⟩ := hn; exact loose (hp closed contentType)
  | isDead j k =>
    obtain ⟨b, rfl⟩ := hn
    refine .inl ((Bool.or_eq_true _ _).mpr ?_)
    cases b with
    | true => exact .inl h
    | false => exact .inr h
  | kill j k => cases hn; exact .inl h
  | send j req k => cases hn; exact other hp.2 hp.1 (by simp) (by simp)
  | signal j k => cases hn; exact .inl h
  | await k => obtain ⟨r, rfl⟩ := hn; exact other (hp r).2 (hp r).1 (by simp) (by simp)
  | park j k => cases hn; exact other hp.2 hp.1 (by simp) (by simp)
  | _ => cases hn; exact loose hp

end Submits

/-! ## Room in the buffer -/

/-- There is room in the buffer for whoever is on the way to a send. -/
def Roomy (w : World) : Prop :=
  ∀ t p i x, w.threads t = some p → p.submits i = true → w.insts i = some x → x.reqs.length < maxBurst

theorem roomy_start : Roomy start := fun _ _ _ _ hp => (by cases hp)

theorem Turn.reqs {w w' : World} {i : Nat} {x : Inst}
    (h : Turn L mode batchMax w i x w') :
    ∃ x', w'.insts = update w.insts i (some x') ∧ x'.reqs.length ≤ x.reqs.length := by
  cases h with
  | recv hp hr => exact ⟨_, rfl, by rw [hr]; exact le_succ _⟩
  | drain hp hr => exact ⟨_, rfl, by rw [hr]; exact le_succ _⟩
  | refuse hp hr => exact ⟨_, rfl, by rw [hr]; exact le_succ _⟩
  | enqueue hm hp hw => subst hw; split <;> exact ⟨_, rfl, le_refl _⟩
  | _ => exact ⟨_, rfl, le_refl _⟩

namespace Roomy

variable {w w' : World} {t i : Nat} {x x' : Inst} {p q : Prog}

section

variable (h : Roomy w)
include h

theorem inst (hx : w.insts i = some x) (ht : w'.threads = w.threads)
    (hi : w'.insts = update w.insts i (some x')) (hr : x'.reqs.length ≤ x.reqs.length) : Roomy w' := by
  intro u r j y hu hs hy
  rw [ht] at hu
  rw [hi] at hy
  rcases update_eq_some hy with ⟨rfl, rfl⟩ | ⟨-, hy⟩
  · exact lt_of_le_of_lt hr (h u r j x hu hs hx)
  · exact h u r j y hu hs hy

theorem goOn (ht : w'.threads = update w.threads t (some q)) (hi : w'.insts = w.insts)
    (hq : ∀ j, q.submits j = false) : Roomy w' := by
  intro u r j y hu hs hy
  rw [ht] at hu
  rw [hi] at hy
  rcases update_eq_some hu with ⟨-, rfl⟩ | ⟨-, hu⟩
  · rw [hq j] at hs; cases hs
  · exact h u r j y hu hs hy

theorem spawn (path : Bytes) (m : StreamMeta) (tailSeq : Nat) : Roomy (w.spawned path m tailSeq) := by
  intro u r j y hu hs hy
  rcases update_eq_some hy with ⟨-, rfl⟩ | ⟨-, hy⟩
  · exact zero_lt_succ _
  · exact h u r j y hu hs hy

/-- An access to a streamer object: only who has the mutex puts something into the buffer. -/
theorem touch {flt : Faults} {ok : Bool} (hl : Locks w) (hp : w.threads t = some p)
    (hn : q.Next L p) (hc : locksWithRoom w (.act t flt ok) = true) (hx : w.insts i = some x)
    (hs : q.mode = .sent i ∧ (∃ req k, p = .send i req k) ∨ x'.reqs = x.reqs ∧ ∀ j req k, p ≠ .send j req k) :
    Roomy ((w.setInst i x').setProg t q) := by
  have htidy := hl.tidy t p hp
  have hqtidy := htidy.next hn
  intro u r j y hu hsub hy
  -- the buffer of the streamer `j` before the step
  have hroom : x'.reqs = x.reqs → (∀ y₀, w.insts j = some y₀ → y₀.reqs.length < maxBurst) →
      y.reqs.length < maxBurst := by
    intro hreqs hbefore
    rcases update_eq_some hy with ⟨rfl, rfl⟩ | ⟨-, hy⟩
    · rw [hreqs]; exact hbefore x hx
    · exact hbefore y hy
  rcases update_eq_some hu with ⟨-, rfl⟩ | ⟨hne, hu⟩
  · rcases hs with ⟨hm, -⟩ | ⟨hreqs, -⟩
    · rw [submits_eq_false hqtidy (by rw [hm]; simp) (by rw [hm]; simp)] at hsub
      cases hsub
    · refine hroom hreqs fun y₀ hy₀ => ?_
      rcases submits_of_next htidy hn hsub with hps | rfl
      · exact h t p j y₀ hp hps hy₀
      · simpa [locksWithRoom, hp, hsub, hy₀] using hc
  · rcases hs with ⟨-, req, k, rfl⟩ | ⟨hreqs, -⟩
    · rcases update_eq_some hy with ⟨rfl, -⟩ | ⟨-, hy⟩
      · -- two handlers with the same mutex
        obtain ⟨z, hz, hmu, -⟩ := hl.holds u j (by rw [w.mode_eq hu]; exact holds_of_submits (hl.tidy u r hu) hsub)
        obtain ⟨z', hz', hmu', -⟩ := hl.holds t j (by rw [w.mode_eq hp]; rfl)
        rw [hz] at hz'
        cases hz'
        rw [hmu] at hmu'
        cases hmu'
        exact (hne rfl).elim
      · exact h u r j y hu hsub hy
    · exact hroom hreqs fun y₀ hy₀ => h u r j y₀ hu hsub hy₀

theorem act (hl : Locks w) {flt : Faults} {ok : Bool} (hp : w.threads t = some p)
    (hc : locksWithRoom w (.act t flt ok) = true) (he : w.act L t flt ok p = some w') : Roomy w' := by
  obtain ⟨q, hn, ha⟩ := acted (hl.tidy t p hp) he
  have hq := (hl.tidy t p hp).next hn
  cases ha with
  | quiet hm hm' hg hr hi hn ht => exact h.goOn ht hi (Loose.submits ⟨hm', hq⟩)
  | evict hpe hm' => exact h.goOn rfl rfl (Loose.submits ⟨hm', hq⟩)
  | @spawn path m tailSeq k hpe hm' =>
    exact (h.spawn path m tailSeq).goOn rfl rfl (Loose.submits ⟨hm', hq⟩)
  | touch hx ht hk hs => exact h.touch hl hp hn hc hx hs

theorem endJob {f : Inst → Inst} (hf : ∀ x, (f x).reqs = x.reqs) (responses : Job → List AppendResp)
    (j : Job) : Roomy (w.endJob f responses j) := by
  unfold World.endJob
  cases hx : w.insts j.inst with
  | none => exact h
  | some x => exact h.inst hx rfl rfl (le_of_eq (congrArg List.length (hf { x with pending := x.pending - 1 })))

/-- **The step lemma.** -/
theorem step (hl : Locks w) {e : Event}
    (hc : locksWithRoom w e = true) (he : step L mode batchMax w e = some w') : Roomy w' := by
  cases stepped he with
  | arrive t c _ _ => exact h.goOn rfl rfl (loose_prog L c).submits
  | @act t flt ok p _ hp he => exact h.act hl hp hc he
  | move hx he =>
    obtain ⟨x', hi, hr⟩ := (turned he).reqs
    exact h.inst hx (turned he).threads hi hr
  | flush ok =>
    cases ok with
    | true => exact h
    | false => exact w.flight.foldlRecOn _ h fun _ h j _ => h.endJob (fun _ => rfl) _ j
  | callback n j _ =>
    have h₁ : Roomy { w with landed := w.landed.eraseIdx n } := h
    exact h₁.endJob (f := fun x => { x with st := applyReader x.st _ _ }) (fun _ => rfl) _ j
  | deliver n a _ hk =>
    have hq := (hl.tidy _ _ hk) a.2
    exact h.goOn rfl rfl fun j => submits_eq_false hq.2 (by rw [hq.1]; simp) (by rw [hq.1]; simp)
  | chunk n flt ok scanOk d _ =>
    obtain ⟨db, history, deleting, he⟩ := chunk_eq w flt ok scanOk n d
    rw [he]
    exact h

end

end Roomy

/-! ## Main results -/

/-- **No deadlock between an append and the retirement**, in any run in which no append takes the mutex of a streamer
while its buffer is full. -/
theorem no_deadlock (L : GoLib) (mode : Durability) (batchMax : Nat) {w : World}
    (hr : Reach (step L mode batchMax) (fun w e => locksWithRoom w e = true) start w) (i : Nat) :
    ¬ w.Deadlocked i := by
  have hinv := hr.invariant (P := fun w => Locks w ∧ Roomy w)
    (fun _ _ _ ⟨hl, h⟩ hc he => ⟨hl.step he, h.step hl hc he⟩) ⟨locks_start, roomy_start⟩
  rintro ⟨x, t, req, k, hx, -, -, ht, hfull⟩
  exact absurd (hinv.2 t _ i x ht (beq_self_eq_true i) hx) (Nat.not_lt.mpr hfull)

/-- A PUT and a call that spawns the streamer, which then takes the idle timer. -/
def timerEvents : List Event :=
  putEvents 0 ++ .arrive 1 (.tail samplePath) :: acts 1 7 ++ [.move 0 .timer]

def Phase.isRetiring : Phase → Bool
  | .retiring => true
  | _ => false

theorem Phase.isRetiring_elim {ph : Phase} (h : ph.isRetiring = true) : ph = .retiring := by
  cases ph with
  | retiring => rfl
  | _ => cases h

/-- An append finds room while the goroutine is about to take the mutex. -/
theorem no_deadlock_one_append : ∃ w x, Reach (step plainLib .sync 1) (fun w e => locksWithRoom w e = true)
      start w ∧ w.insts 0 = some x ∧ x.phase = .retiring ∧ x.reqs.length = 1 ∧ ¬ w.Deadlocked 0 := by
  obtain ⟨w, hw, x, hx, hp⟩ : ∃ w ∈ run (guarded (step plainLib .sync 1) fun w e => locksWithRoom w e)
      start (timerEvents ++ .arrive 2 (.handlePost samplePath (samplePost 0)) :: acts 2 6),
      ∃ x ∈ w.insts 0, x.phase.isRetiring = true ∧ x.reqs.length = 1 := by decide +kernel
  have hr := reach_guarded hw
  exact ⟨w, x, hr, hx, Phase.isRetiring_elim hp.1, hp.2, no_deadlock plainLib .sync 1 hr 0⟩

/-- **The mutex of a streamer guards its buffer**, in every run: one handler has it at most, a handler about to send
finds the streamer alive, and a goroutine that has ended leaves no request behind. -/
theorem mutex_guards_buffer {w : World} (hr : Reach (step L mode batchMax) Any start w) {i : Nat} {x : Inst}
    (hx : w.insts i = some x) :
    (∀ t u, (w.mode t).holds = some i → (w.mode u).holds = some i → t = u) ∧
    (∀ t req k, w.threads t = some (.send i req k) → x.dead = false ∧ x.phase ≠ .exited) ∧
    (x.phase = .exited → x.reqs = []) := by
  have hl := Locks.reach hr
  have hmu : ∀ t, (w.mode t).holds = some i → x.mu = some (.thread t) ∧ (w.mode t = .checked i → x.dead = false) := by
    intro t ht
    obtain ⟨y, hy, hmu⟩ := hl.holds t i ht
    rw [hx, some.injEq] at hy
    exact hy ▸ hmu
  have ho := hl.insts i x hx
  refine ⟨fun t u ht hu => ?_, fun t req k ht => ?_, fun he => ho.empty (.inr he)⟩
  · have := (hmu t ht).1.symm.trans (hmu u hu).1
    cases this
    rfl
  · have hm : w.mode t = .checked i := mode_eq ht
    have hd := (hmu t (by rw [hm]; rfl)).2 hm
    refine ⟨hd, fun he => ?_⟩
    rw [ho.exited he] at hd
    cases hd

/-- An append has the mutex while the goroutine is about to take it. -/
theorem mutex_guards_buffer_append : ∃ w, Reach (step plainLib .sync 1) Any start w ∧ (w.mode 2).holds = some 0 ∧
    ∀ t, (w.mode t).holds = some 0 → t = 2 := by
  obtain ⟨w, hw, hm, x, hx, -⟩ : ∃ w ∈ run (step plainLib .sync 1) start (timerEvents ++
      .arrive 2 (.handlePost samplePath (samplePost 0)) :: acts 2 5), (w.mode 2).holds = some 0 ∧
      ∃ x ∈ w.insts 0, x.dead = false := by decide +kernel
  exact ⟨w, reach_any hw, hm, fun t ht => (mutex_guards_buffer (reach_any hw) hx).1 t 2 ht hm⟩

/-! ## A deadlock -/

/-- The streamer of the sample path has taken the idle timer; `n` appends are in its buffer, and nobody has its
mutex. -/
structure Retiring (n : Nat) (w : World) : Prop where
  registered : w.registry samplePath = some 0
  inst : ∃ x, w.insts 0 = some x ∧ x.phase = .retiring ∧ x.mu = none ∧ x.dead = false ∧ x.st.closed = false ∧
    x.st.streamMeta.contentType = sampleType ∧ x.reqs.length = n
  fresh : ∀ t, n + 2 ≤ t → w.threads t = none

theorem World.setProg_setProg (w : World) (t : Nat) (p q : Prog) : (w.setProg t p).setProg t q = w.setProg t q := by
  unfold setProg
  rw [update_idem]

theorem World.threads_setProg (w : World) (t : Nat) (p : Prog) : (w.setProg t p).threads t = some p :=
  update_self ..

theorem World.insts_setInst (w : World) (i : Nat) (x : Inst) (t : Nat) (p : Prog) :
    ((w.setInst i x).setProg t p).insts i = some x := update_self ..

theorem World.setInst_setProg (w : World) (i : Nat) (x y : Inst) (t : Nat) (p q : Prog) :
    (((w.setInst i x).setProg t p).setInst i y).setProg t q = ((w.setInst i y).setProg t p).setProg t q := by
  unfold setInst setProg
  simp only [update_idem]

theorem reach_act {t : Nat} {w₀ w w' : World} {p q : Prog}
    (h : Reach (step L mode batchMax) Any w₀ (w.setProg t p))
    (he : (w.setProg t p).act L t noFaults true p = some ((w'.setProg t p).setProg t q)) :
    Reach (step L mode batchMax) Any w₀ (w'.setProg t q) := by
  refine h.tail (e := .act t noFaults true) trivial ?_
  show ((w.setProg t p).threads t).bind _ = _
  rw [threads_setProg, bind_some, he, setProg_setProg]

namespace Retiring

variable {n : Nat} {w : World}

/-- The next append takes the mutex and comes to its send. -/
theorem submit (h : Retiring n w) : ∃ x req k, w.insts 0 = some x ∧ x.phase = .retiring ∧ x.mu = none ∧
    x.dead = false ∧ x.st.closed = false ∧ x.st.streamMeta.contentType = sampleType ∧ x.reqs.length = n ∧
    Reach (step plainLib .sync 1) Any w ((w.setInst 0 { x with mu := some (.thread (n + 2)) }).setProg (n + 2)
      (.send 0 req (.unlockMu 0 (.await k)))) := by
  obtain ⟨x, hx, hph, hmu, hdead, hclosed, htype, hlen⟩ := h.inst
  refine ⟨x, (samplePost 0).request [[0]], fun resp => .done resp.status, hx, hph, hmu, hdead, hclosed, htype, hlen, ?_⟩
  have harrive : Reach (step plainLib .sync 1) Any w
      (w.setProg (n + 2) (handlePost plainLib samplePath (samplePost 0))) := by
    refine (Reach.refl w).tail (e := .arrive (n + 2) (.handlePost samplePath (samplePost 0))) trivial ?_
    show (if (w.threads (n + 2)).isNone && true then some _ else none) = _
    rw [h.fresh (n + 2) (le_refl _)]
    rfl
  have hlookup : Reach (step plainLib .sync 1) Any w
      (w.setProg (n + 2) (postTo plainLib samplePath (samplePost 0) 0)) := by
    refine reach_act harrive (congrArg some ?_)
    have hreg : (w.setProg (n + 2) (handlePost plainLib samplePath (samplePost 0))).registry samplePath = some 0 :=
      h.registered
    rw [hreg]
  have hlook : Reach (step plainLib .sync 1) Any w
      (w.setProg (n + 2) (handOver samplePath ((samplePost 0).request [[0]]) 0)) := by
    refine reach_act hlookup ?_
    show (w.insts 0).map _ = _
    rw [hx, map_some, hclosed, htype]
    rfl
  obtain ⟨k, hk, hsend⟩ : ∃ k, handOver samplePath ((samplePost 0).request [[0]]) 0 = .lockMu 0 (.isDead 0 k) ∧
      k false = .send 0 ((samplePost 0).request [[0]]) (.unlockMu 0 (.await fun resp => .done resp.status)) :=
    ⟨_, rfl, rfl⟩
  rw [hk] at hlook
  have hlock : Reach (step plainLib .sync 1) Any w
      ((w.setInst 0 { x with mu := some (.thread (n + 2)) }).setProg (n + 2) (.isDead 0 k)) := by
    refine reach_act hlook ?_
    show (w.insts 0).bind _ = _
    rw [hx, bind_some, if_pos hmu]
    rfl
  refine reach_act hlock ?_
  simp only [act, insts_setInst, map_some, hdead, hsend]

/-- With room in the buffer, it gives the mutex back. -/
theorem fill (h : Retiring n w) (hn : n < maxBurst) :
    ∃ w', Reach (step plainLib .sync 1) Any w w' ∧ Retiring (n + 1) w' := by
  obtain ⟨x, req, k, hx, hph, hmu, hdead, hclosed, htype, hlen, hr⟩ := h.submit
  obtain ⟨r, hsent⟩ : ∃ r, Reach (step plainLib .sync 1) Any w
      ((w.setInst 0 { x with mu := some (.thread (n + 2)), reqs := x.reqs ++ [r] }).setProg (n + 2)
        (.unlockMu 0 (.await k))) := by
    refine ⟨⟨n + 2, req, w.tombstoned x.st.path⟩, reach_act hr ?_⟩
    simp only [act, insts_setInst, bind_some, hlen, if_pos hn, setInst_setProg]
    rfl
  have hdone : Reach (step plainLib .sync 1) Any w
      ((w.setInst 0 { x with reqs := x.reqs ++ [r] }).setProg (n + 2) (.await k)) := by
    refine reach_act hsent ?_
    simp only [act, insts_setInst, map_some, setInst_setProg, hmu]
  refine ⟨_, hdone, h.registered, ⟨_, insts_setInst .., hph, hmu, hdead, hclosed, htype, ?_⟩, fun t ht => ?_⟩
  · rw [List.length_append, hlen, List.length_singleton]
  · exact (update_of_ne (by omega) ..).trans (h.fresh t (by omega))

theorem full (h : Retiring 0 w) : ∀ n ≤ maxBurst, ∃ w', Reach (step plainLib .sync 1) Any w w' ∧ Retiring n w'
  | 0, _ => ⟨w, Reach.refl w, h⟩
  | n + 1, hn => by
    obtain ⟨w₁, hr₁, h₁⟩ := h.full n (by omega)
    obtain ⟨w₂, hr₂, h₂⟩ := h₁.fill (by omega)
    exact ⟨w₂, hr₁.trans hr₂, h₂⟩

/-- The timer is taken with nothing in the buffer. -/
theorem after_timer : ∃ w, Reach (step plainLib .sync 1) Any start w ∧ Retiring 0 w := by
  obtain ⟨w, hw, hreg, hp⟩ : ∃ w ∈ run (step plainLib .sync 1) start timerEvents,
      w.registry samplePath = some 0 ∧ ∃ x ∈ w.insts 0, x.phase.isRetiring = true ∧ x.mu = none ∧ x.dead = false ∧
        x.st.closed = false ∧ x.st.streamMeta.contentType = sampleType ∧ x.reqs.length = 0 := by decide +kernel
  obtain ⟨x, hx, hph, hp⟩ := hp
  refine ⟨w, reach_any hw, hreg, ⟨x, hx, Phase.isRetiring_elim hph, hp⟩, fun t ht => ?_⟩
  · have hnone : ∀ n, ((run (step plainLib .sync 1) start timerEvents).all fun w =>
        (w.threads (n + 2)).isNone) = true := fun n => by rfl
    have := hnone (t - 2)
    rw [hw, Nat.sub_add_cancel ht] at this
    exact isNone_iff_eq_none.mp this

end Retiring

/-- **A deadlock**: the goroutine of a streamer has taken its idle timer; before it takes the mutex, `maxBurst` appends
fill the buffer and one more takes the mutex. -/
theorem append_deadlocks : ∃ w, Reach (step plainLib .sync 1) Any start w ∧ w.Deadlocked 0 := by
  obtain ⟨w, hr, h⟩ := Retiring.after_timer
  obtain ⟨w₁, hr₁, h₁⟩ := h.full maxBurst (Nat.le_refl _)
  obtain ⟨x, req, k, hx, hph, -, -, -, -, hlen, hr₂⟩ := h₁.submit
  refine ⟨_, (hr.trans hr₁).trans hr₂, _, maxBurst + 2, req, .unlockMu 0 (.await k), insts_setInst .., hph, rfl,
    threads_setProg .., ?_⟩
  exact Nat.le_of_eq hlen.symm

end Yasdb.Lifecycle
