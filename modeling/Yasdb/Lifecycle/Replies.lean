import Yasdb.Lifecycle.Locks
import Yasdb.Lifecycle.Shutdown
import Yasdb.Lifecycle.Deletion
import Mathlib.Data.List.Perm.Basic

/-!
# Every queued append gets one reply

A request is answered by the streamer (nothing to commit, a sync commit, a stop), by the committer (closed, a failed
flush) or by a durability callback. At any time each request that has been put on a queue is in exactly one place: with
a streamer, in a job, among the answers sent, or received (`Tally`).

- `Tally.change`: one streamer object changes, with the jobs and the answers that come of it;
- `Served.step`: every step of a server and of its shutdown keeps the tally;
- `queued_append_answered`: **no request is answered twice, and none is forgotten**.
-/

namespace Yasdb.Lifecycle

open Batch Objects Runs Function List Option Host Inst Phase

variable {flt : Faults} {responses : List AppendResp}

/-! ## Counting requests -/

/-- The requests of the handler `t`. -/
def asks (t : Nat) (rs : List Request) : Nat := rs.countP (·.thread == t)

@[simp] theorem asks_nil (t : Nat) : asks t [] = 0 := rfl

@[simp] theorem asks_append (t : Nat) (rs rs' : List Request) : asks t (rs ++ rs') = asks t rs + asks t rs' :=
  countP_append

@[simp] theorem asks_cons (t : Nat) (r : Request) (rs : List Request) :
    asks t (r :: rs) = asks t rs + if r.thread == t then 1 else 0 := countP_cons

/-- The answers to the handler `t`. -/
def tells (t : Nat) (outbox : List (Nat × AppendResp)) : Nat := outbox.countP (·.1 == t)

/-- The requests of a list of jobs. -/
def requestsOf (js : List Job) : List Request := js.flatMap (·.batch)

/-- Each request of the batch has an answer and a verdict. -/
def Fits (c : CommitBurst) (batch : List Request) : Prop :=
  c.responses.length = batch.length ∧ c.accepted.length = batch.length

variable {batch : List Request}

theorem fits_of_processBurst {L : GoLib} {db : Store} {now : Int64} {s s' : Streamer} {c : CommitBurst}
    (h : processBurst L flt db now s (batch.map (·.req)) = (s', .commit c)) : Fits c batch := by
  obtain ⟨-, -, p, hp, -, rfl, -, -⟩ := processBurst_commit h
  have ha := (planBatch_plans L flt db (batch.map (·.req)) s (newPending s now)).answered.length
  rw [← hp, length_map] at ha
  exact ha

theorem length_of_processBurst {L : GoLib} {db : Store} {now : Int64} {s s' : Streamer}
    (h : processBurst L flt db now s (batch.map (·.req)) = (s', .reply responses)) :
    responses.length = batch.length := by
  have ha := (planBatch_plans L flt db (batch.map (·.req)) s (newPending s now)).answered.length
  rw [length_map] at ha
  rcases processBurst_cases L flt db now s (batch.map (·.req)) with ⟨-, he⟩ | ⟨-, he⟩
  · rw [h] at he; cases he; exact ha.1
  · rw [h] at he; cases he

theorem Fits.failAccepted {c : CommitBurst} (h : Fits c batch) (err : String) :
    (failAccepted c.responses c.accepted err).length = batch.length := by
  unfold Yasdb.failAccepted
  rw [length_zipWith, h.1, h.2, Nat.min_self]

theorem tells_replyAll (t : Nat) (outbox : List (Nat × AppendResp))
    (h : responses.length = batch.length) :
    tells t (outbox ++ List.zip (batch.map (·.thread)) responses) = tells t outbox + asks t batch := by
  have hzip : (List.zip (batch.map (·.thread)) responses).map (·.1) = batch.map (·.thread) :=
    map_fst_zip (by rw [length_map, h])
  unfold tells asks
  rw [countP_append]
  congr 1
  have hmap := congrArg (List.countP (· == t)) hzip
  rwa [countP_map, countP_map] at hmap

theorem take_drop_perm {α : Type} (l : List α) (n : Nat) (rest : List α) :
    (l ++ rest).Perm (l.drop n ++ l.take n ++ rest) := by
  refine List.Perm.append_right rest ?_
  conv_lhs => rw [← take_append_drop n l]
  exact perm_append_comm

/-! ## The tally -/

/-- Every request that has been put on a queue is in one place, and the callback counts are right. -/
structure Tally (w : World) (jobs : List Job) (queued received : List Nat) : Prop where
  counts : ∀ t, queued.count t = census (fun x => asks t x.requests) w.nextInst w.insts + asks t (requestsOf jobs) +
    tells t w.outbox + received.count t
  pending : ∀ i x, w.insts i = some x → x.pending = jobs.countP (·.inst == i)
  known : ∀ j ∈ jobs, ∃ x, w.insts j.inst = some x
  fits : ∀ j ∈ jobs, Fits j.c j.batch
  planned : ∀ i x, w.insts i = some x → ∀ c batch, x.phase = .committing c batch → Fits c batch

namespace Tally

variable {w w' : World} {jobs : List Job} {queued received : List Nat} {i : Nat} {x x' : Inst}

theorem perm {jobs' : List Job} (h : Tally w jobs queued received) (hj : jobs.Perm jobs') :
    Tally w jobs' queued received where
  counts := fun t => by
    rw [h.counts t]
    unfold asks requestsOf
    rw [(hj.flatMap_right _).countP_eq]
  pending := fun i x hx => (h.pending i x hx).trans (hj.countP_eq _)
  known := fun j hm => h.known j (hj.mem_iff.mpr hm)
  fits := fun j hm => h.fits j (hj.mem_iff.mpr hm)
  planned := h.planned

variable {j : Job}

section

variable (old new : List Job) (out : List Request) (hx : w.insts i = some x) (hlt : i < w.nextInst)
  (hi : w'.insts = update w.insts i (some x')) (hn : w'.nextInst = w.nextInst)
include hx hlt hi hn

/-- **One streamer object changes**: its jobs `old` give way to `new`, and the requests `out` are answered. -/
theorem change (h : Tally w (old ++ jobs) queued received)
    (hout : ∀ t, tells t w'.outbox = tells t w.outbox + asks t out)
    (hreq : ∀ t, asks t x.requests + asks t (requestsOf old) =
      asks t x'.requests + asks t (requestsOf new) + asks t out)
    (hpend : x'.pending + old.length = x.pending + new.length) (hold : ∀ j ∈ old, j.inst = i)
    (hnew : ∀ j ∈ new, j.inst = i ∧ Fits j.c j.batch)
    (hplan : ∀ c batch, x'.phase = .committing c batch → Fits c batch) : Tally w' (new ++ jobs) queued received := by
  have hcount : ∀ {js : List Job} {k : Nat}, (∀ j ∈ js, j.inst = i) →
      js.countP (·.inst == k) = if k = i then js.length else 0 := fun {js k} hjs => by
    split
    · rename_i hk
      exact countP_eq_length.mpr fun j hj => beq_iff_eq.mpr ((hjs j hj).trans hk.symm)
    · rename_i hk
      exact countP_eq_zero.mpr fun j hj he => hk ((beq_iff_eq.mp he).symm.trans (hjs j hj))
  refine ⟨fun t => ?_, fun k y hy => ?_, fun j hj => ?_, fun j hj => ?_, ?_⟩
  · have hc := h.counts t
    have hcensus := census_update (m := fun x => asks t x.requests) (b := x') hlt hx
    have hr := hreq t
    unfold requestsOf at hc hr ⊢
    rw [flatMap_append, asks_append] at hc ⊢
    rw [hi, hn, hout t]
    omega
  · rw [hi] at hy
    rw [countP_append, hcount fun j hj => (hnew j hj).1]
    rcases update_eq_some hy with ⟨rfl, rfl⟩ | ⟨hk, hy⟩
    · have hp := h.pending k x hx
      rw [countP_append, hcount hold, if_pos rfl] at hp
      rw [if_pos rfl]
      omega
    · have hp := h.pending k y hy
      rw [countP_append, hcount hold, if_neg hk] at hp
      rw [if_neg hk]
      exact hp
  · rw [hi]
    by_cases hji : j.inst = i
    · exact ⟨x', by rw [hji, update_self]⟩
    · rcases mem_append.mp hj with hj | hj
      · exact (hji (hnew j hj).1).elim
      · rw [update_of_ne hji]
        exact h.known j (mem_append_right _ hj)
  · rcases mem_append.mp hj with hj | hj
    · exact (hnew j hj).2
    · exact h.fits j (mem_append_right _ hj)
  · rw [hi]
    exact forall_update h.planned hplan

variable (h : Tally w jobs queued received)
include h

theorem still (ho : w'.outbox = w.outbox) (hr : ∀ t, asks t x'.requests = asks t x.requests)
    (hp : x'.pending = x.pending)
    (hplan : ∀ c batch, x'.phase = .committing c batch → Fits c batch) : Tally w' jobs queued received :=
  change [] [] [] hx hlt hi hn h (fun t => by rw [ho]; rfl) (fun t => by rw [hr t]; rfl) (by rw [hp]) nofun nofun hplan

theorem rest (ho : w'.outbox = w.outbox) (hr : x'.reqs = x.reqs) (hb : x'.phase.batch = x.phase.batch)
    (hp : x'.pending = x.pending)
    (hplan : ∀ c batch, x'.phase = .committing c batch → Fits c batch) : Tally w' jobs queued received :=
  still hx hlt hi hn h ho (fun t => by unfold requests; rw [hr, hb]) hp hplan

theorem answer {batch : List Request}
    (ho : w'.outbox = w.outbox ++ List.zip (batch.map (·.thread)) responses)
    (hlen : responses.length = batch.length) (hr : ∀ t, asks t x.requests = asks t x'.requests + asks t batch)
    (hp : x'.pending = x.pending) (hplan : ∀ c batch, x'.phase = .committing c batch → Fits c batch) :
    Tally w' jobs queued received :=
  change [] [] batch hx hlt hi hn h (fun t => by rw [ho, tells_replyAll t _ hlen])
    (fun t => by rw [hr t]; rfl) (by rw [hp]) nofun nofun hplan

theorem hand (ho : w'.outbox = w.outbox)
    (hr : ∀ t, asks t x.requests = asks t x'.requests + asks t j.batch) (hp : x'.pending = x.pending + 1)
    (hj : j.inst = i ∧ Fits j.c j.batch) (hplan : ∀ c batch, x'.phase = .committing c batch → Fits c batch) :
    Tally w' (j :: jobs) queued received :=
  change [] [j] [] hx hlt hi hn h (fun t => by rw [ho]; rfl)
    (fun t => by rw [hr t]; simp [requestsOf]) (by rw [hp]; rfl) nofun
    (fun k hk => by rw [mem_singleton.mp hk]; exact hj) hplan

end

theorem frame (h : Tally w jobs queued received) (hi : w'.insts = w.insts) (hn : w'.nextInst = w.nextInst)
    (ho : w'.outbox = w.outbox) : Tally w' jobs queued received :=
  ⟨fun t => by rw [hi, hn, ho]; exact h.counts t, by rw [hi]; exact h.pending, by rw [hi]; exact h.known, h.fits,
    by rw [hi]; exact h.planned⟩

section

variable (h : Tally w (j :: jobs) queued received)
include h

/-- A job is resolved. -/
theorem endJob (hl : Locks w) {f : Inst → Inst}
    {responses : Job → List AppendResp} (hf : ∀ x, ∃ s, f x = { x with st := s })
    (hlen : (responses j).length = j.batch.length) : Tally (w.endJob f responses j) jobs queued received := by
  obtain ⟨x, hx⟩ := h.known j mem_cons_self
  obtain ⟨s, hs⟩ := hf { x with pending := x.pending - 1 }
  have he : w.endJob f responses j =
      (w.setInst j.inst { x with st := s, pending := x.pending - 1 }).replyAll j.batch (responses j) := by
    unfold World.endJob
    rw [hx, ← hs]
  have hp : x.pending = jobs.countP (·.inst == j.inst) + 1 := by
    rw [h.pending _ x hx]
    exact countP_cons_of_pos (beq_self_eq_true j.inst)
  rw [he]
  refine change [j] [] j.batch hx (hl.lt_nextInst hx) rfl rfl h (fun t => tells_replyAll t _ hlen) (fun t => ?_) ?_
    (fun k hk => by rw [mem_singleton.mp hk]) nofun (h.planned _ x hx)
  · simp [requestsOf, requests]
  · show x.pending - 1 + 1 = x.pending
    omega

theorem failJob (hl : Locks w) : Tally (w.failJob j) jobs queued received :=
  h.endJob hl (fun x => ⟨x.st, rfl⟩) ((h.fits j mem_cons_self).failAccepted _)

end

theorem failJobs (js : List Job) : ∀ {w : World}, Locks w → Tally w (js ++ jobs) queued received →
    Tally (js.foldl World.failJob w) jobs queued received := by
  induction js with
  | nil => exact fun _ h => h
  | cons j js ih => exact fun hl h => ih (hl.failJob j) (h.failJob hl)

section

variable (h : Tally w jobs queued received)
include h

/-- A new streamer has no requests and no jobs. -/
theorem spawn (hl : Locks w) (path : Bytes) (m : StreamMeta) (tailSeq : Nat) :
    Tally (w.spawned path m tailSeq) jobs queued received := by
  have hne : ∀ j ∈ jobs, j.inst ≠ w.nextInst := fun j hj he => by
    obtain ⟨x, hx⟩ := h.known j hj
    rw [he, hl.fresh _ le_rfl] at hx
    cases hx
  refine ⟨fun t => ?_, forall_update h.pending ?_, fun j hj => ?_, h.fits, forall_update h.planned ?_⟩
  · have hpush : census (fun x => asks t x.requests) (w.spawned path m tailSeq).nextInst
        (w.spawned path m tailSeq).insts = census (fun x => asks t x.requests) w.nextInst w.insts := census_push
    rw [hpush]
    exact h.counts t
  · exact (countP_eq_zero.mpr fun j hj he => hne j hj (beq_iff_eq.mp he)).symm
  · obtain ⟨x, hx⟩ := h.known j hj
    exact ⟨x, (update_of_ne (hne j hj) ..).trans hx⟩
  · exact nofun

/-- The handler `t` puts a request on the queue of a streamer. -/
theorem send {t : Nat} {r : Request} (hr : r.thread = t) (hx : w.insts i = some x)
    (hlt : i < w.nextInst) :
    Tally (w.setInst i { x with reqs := x.reqs ++ [r] }) jobs (queued ++ [t]) received := by
  refine ⟨fun u => ?_, forall_update h.pending (h.pending i x hx), fun j hj => ?_, h.fits,
    forall_update h.planned (h.planned i x hx)⟩
  · have hcensus := census_update (m := fun x => asks u x.requests) (b := { x with reqs := x.reqs ++ [r] }) hlt hx
    have hc := h.counts u
    have hone : asks u ({ x with reqs := x.reqs ++ [r] } : Inst).requests = asks u x.requests + [t].count u := by
      simp only [requests, asks_append, asks_cons, asks_nil, hr, count_singleton]
      omega
    rw [count_append]
    change _ = census _ _ (update _ _ _) + _ + tells u w.outbox + _
    change _ = census _ w.nextInst (update _ _ _) + _ + _ + _
    omega
  · by_cases hji : j.inst = i
    · exact ⟨_, by rw [hji]; exact update_self ..⟩
    · obtain ⟨y, hy⟩ := h.known j hj
      exact ⟨y, (update_of_ne hji ..).trans hy⟩

theorem deliver {n : Nat} {a : Nat × AppendResp} (ha : w.outbox[n]? = some a)
    {p : Prog} : Tally ({ w with outbox := w.outbox.eraseIdx n }.setProg a.1 p) jobs queued (received ++ [a.1]) := by
  refine ⟨fun t => ?_, h.pending, h.known, h.fits, h.planned⟩
  obtain ⟨hlt, rfl⟩ := List.getElem?_eq_some_iff.mp ha
  have hperm : tells t (w.outbox[n] :: w.outbox.eraseIdx n) = tells t w.outbox :=
    (getElem_cons_eraseIdx_perm hlt).countP_eq _
  have hc := h.counts t
  rw [count_append, count_singleton]
  unfold tells at hperm hc ⊢
  rw [countP_cons] at hperm
  change _ = census _ w.nextInst w.insts + _ + List.countP _ (w.outbox.eraseIdx n) + _
  omega

end

/-- **The moves of a streamer**; the jobs `failing` are with the notifier. -/
theorem move {failing : List Job} (h : Tally w (w.queue ++ w.flight ++ w.landed ++ failing) queued received)
    (hl : Locks w) {L : GoLib} {mode : Durability} {batchMax : Nat} (hx : w.insts i = some x)
    (ht : Turn L mode batchMax w i x w') :
    Tally w' (w'.queue ++ w'.flight ++ w'.landed ++ failing) queued received := by
  have hlt := hl.lt_nextInst hx
  have hp₀ := h.planned i x hx
  cases ht with
  | recv hp hr =>
    refine h.still hx hlt rfl rfl rfl (fun t => ?_) rfl (by rintro _ _ ⟨⟩)
    simp [requests, hp, hr, batch]
  | drain hp hr =>
    refine h.still hx hlt rfl rfl rfl (fun t => ?_) rfl (by rintro _ _ ⟨⟩)
    simp [requests, hp, hr, batch]
    omega
  | reply hp hb =>
    refine h.answer hx hlt rfl rfl rfl (length_of_processBurst hb) (fun t => ?_) rfl (by rintro _ _ ⟨⟩)
    simp [requests, hp, batch]
  | plan hp hb =>
    refine h.rest hx hlt rfl rfl rfl rfl (by rw [hp]; rfl) rfl fun c batch hph => ?_
    cases hph
    exact fits_of_processBurst hb
  | commit hm hp =>
    refine h.answer hx hlt rfl rfl rfl (hp₀ _ _ hp).1 (fun t => ?_) rfl (by rintro _ _ ⟨⟩)
    simp [requests, hp, batch]
  | fail hm hp =>
    refine h.answer hx hlt rfl rfl rfl ((hp₀ _ _ hp).failAccepted _) (fun t => ?_) rfl (by rintro _ _ ⟨⟩)
    simp [requests, hp, Phase.batch]
  | @enqueue c batch w₁ hm hp hw =>
    have h₁ : Tally w₁ (Job.mk i x.st.id c batch :: (w.queue ++ w.flight ++ w.landed ++ failing)) queued received := by
      rw [hw]
      refine h.hand hx hlt rfl rfl rfl (fun t => ?_) rfl ⟨rfl, hp₀ _ _ hp⟩ (by rintro _ _ ⟨⟩)
      simp [requests, hp, Phase.batch]
    have hjobs : (Job.mk i x.st.id c batch :: (w.queue ++ w.flight ++ w.landed ++ failing)).Perm
        (w₁.queue ++ w₁.flight ++ w₁.landed ++ failing) := by
      rw [hw]
      change List.Perm _ (w.queue ++ [Job.mk i x.st.id c batch] ++ w.flight ++ w.landed ++ failing)
      simpa using perm_middle.symm
    split
    · rename_i hf
      have hf₁ : w₁.flight = [] := by rw [hw]; exact List.isEmpty_iff.mp hf
      refine (h₁.perm (hjobs.trans ?_)).frame rfl rfl rfl
      rw [hf₁, append_nil, append_assoc]
      refine (take_drop_perm w₁.queue batchMax _).trans (List.Perm.of_eq ?_)
      simp [World.takeBatch]
    · exact h₁.perm hjobs
  | touchNone hp ht => exact h.rest hx hlt rfl rfl rfl rfl rfl rfl hp₀
  | backOff hp =>
    refine h.rest hx hlt rfl rfl rfl rfl ?_ rfl (by rintro _ _ ⟨⟩)
    rcases hp with hp | hp <;> rw [hp] <;> rfl
  | refuse hp hr =>
    refine h.answer hx hlt rfl rfl rfl rfl (fun t => ?_) rfl hp₀
    simp [requests, hr]
  | _ => exact h.rest hx hlt rfl rfl rfl rfl (by rw [‹x.phase = _›]; rfl) rfl (by rintro _ _ ⟨⟩)

end Tally

/-! ## The server and its shutdown -/

/-- The handler has put its request on a queue. -/
def Mode.asked : Mode → Bool
  | .sent _ | .waiting | .ended => true
  | _ => false

/-- The invariant of a server and its shutdown. -/
structure Served (h : Host) : Prop where
  locks : Locks h.w
  tally : Tally h.w h.jobs h.queued h.received
  /-- jobs wait only for a flush that is running -/
  flowing : h.w.flight = [] → h.w.queue = []
  nodup : h.queued.Nodup
  asked : ∀ t ∈ h.queued, (h.w.mode t).asked = true

theorem served_start : Served start where
  locks := locks_start
  tally := ⟨fun _ => rfl, fun _ _ h => (by cases h), fun _ h => (by cases h), fun _ h => (by cases h),
    fun _ _ h => (by cases h)⟩
  flowing := fun _ => rfl
  nodup := nodup_nil
  asked := nofun

theorem loose_closeStreamers : ∀ is : List Nat, (closeStreamers is).Loose
  | [] => loose_done 200
  | i :: is => by
    have h := loose_closeStreamers is
    exact ⟨rfl, rfl, Prog.mode_unlockMu h.1, .inl h.1, h.2⟩

namespace Served

variable {h h' : Host} {w' : World} {t i : Nat} {p : Prog}

theorem goOn (hs : Served h) {q : Prog} (ht : w'.threads = update h.w.threads t (some q))
    (hm : t ∈ h.queued → q.mode.asked = true) : ∀ u ∈ h.queued, (w'.mode u).asked = true := fun u hu => by
  rw [World.mode_update ht]
  by_cases hut : u = t
  · subst hut
    rw [if_pos rfl]
    exact hm hu
  · rw [if_neg hut]
    exact hs.asked u hu

theorem sends_eq_nil (hp : h.w.threads t = some p) (hne : ∀ i req k, p ≠ .send i req k) : h.sends t = [] := by
  unfold sends
  split
  · rename_i hth
    rw [hp, some.injEq] at hth
    exact (hne _ _ _ hth).elim
  · rfl

theorem keep (hs : Served h) (hp : h.w.threads t = some p) (hne : ∀ i req k, p ≠ .send i req k) (hl : Locks w')
    (ht : Tally w' h.jobs h.queued h.received)
    (hj : w'.queue = h.w.queue ∧ w'.flight = h.w.flight ∧ w'.landed = h.w.landed)
    (ha : ∀ u ∈ h.queued, (w'.mode u).asked = true) : Served { h with w := w', queued := h.queued ++ h.sends t } := by
  have hjobs : jobs { h with w := w', queued := h.queued ++ h.sends t } = h.jobs := by
    unfold jobs
    rw [hj.1, hj.2.1, hj.2.2]
  refine ⟨hl, ?_, ?_, ?_, ?_⟩
  · rw [hjobs, sends_eq_nil hp hne, append_nil]
    exact ht
  · rw [hj.1, hj.2.1]
    exact hs.flowing
  · rw [sends_eq_nil hp hne, append_nil]
    exact hs.nodup
  · rw [sends_eq_nil hp hne, append_nil]
    exact ha

variable {L : GoLib} {batchMax n : Nat} {mode : Durability}

theorem act (hs : Served h) {ok : Bool} (hp : h.w.threads t = some p)
    (he : h.w.act L t flt ok p = some w') : Served { h with w := w', queued := h.queued ++ h.sends t } := by
  have hl := hs.locks.act hp he
  have hmode := h.w.mode_eq hp
  -- a handler in the middle of something else has not asked
  have fresh : p.mode.asked = false → t ∉ h.queued := fun hm hq => by
    have := hs.asked t hq
    rw [hmode, hm] at this
    cases this
  have ne_send : p.mode = .free → ∀ i req k, p ≠ .send i req k := fun hm i req k he => by rw [he] at hm; cases hm
  obtain ⟨q, -, ha⟩ := acted (hs.locks.tidy t p hp) he
  cases ha with
  | quiet hm hm' hg hr hi hn ht ho hj hdb hdel =>
    exact hs.keep hp (ne_send hm) hl (hs.tally.frame hi hn ho) hj
      (hs.goOn ht fun hq => (fresh (by rw [hm]; rfl) hq).elim)
  | evict hpe hm' =>
    have hm : p.mode = .free := by rw [hpe]; rfl
    exact hs.keep hp (ne_send hm) hl (hs.tally.frame rfl rfl rfl) ⟨rfl, rfl, rfl⟩
      (hs.goOn rfl fun hq => (fresh (by rw [hm]; rfl) hq).elim)
  | @spawn path m tailSeq k hpe hm' =>
    have hm : p.mode = .free := by rw [hpe]; rfl
    exact hs.keep hp (ne_send hm) hl ((hs.tally.spawn hs.locks path m tailSeq).frame rfl rfl rfl) ⟨rfl, rfl, rfl⟩
      (hs.goOn rfl fun hq => (fresh (by rw [hm]; rfl) hq).elim)
  | @touch i x x' hx ht hk hsend =>
    have hlt := hs.locks.lt_nextInst hx
    rcases hsend with ⟨hq, req, k, rfl⟩ | ⟨hreqs, hne⟩
    · have hnew := fresh rfl
      have hsends : h.sends t = [t] := by unfold sends; rw [hp]
      rw [hq] at ht
      cases ht with
      | send req late =>
        have htally := hs.tally.send (r := Request.mk t req late) rfl hx hlt
        rw [hsends]
        refine ⟨hl, htally.frame rfl rfl rfl, hs.flowing, nodup_append.mpr ⟨hs.nodup, nodup_singleton t, ?_⟩,
          fun u hu => ?_⟩
        · exact fun a ha b hb => by rw [mem_singleton.mp hb]; exact fun he => hnew (he ▸ ha)
        · rcases mem_append.mp hu with hu | hu
          · exact hs.goOn rfl (fun hq => (hnew hq).elim) u hu
          · rw [mem_singleton.mp hu, World.mode_update rfl, if_pos rfl, hq]
            rfl
    · have htally : Tally (h.w.setInst i x') h.jobs h.queued h.received :=
        hs.tally.rest hx hlt rfl rfl rfl hreqs (by rw [ht.phase]) ht.pending
          (by rw [ht.phase]; exact hs.tally.planned i x hx)
      refine hs.keep hp hne hl (htally.frame rfl rfl rfl) ⟨rfl, rfl, rfl⟩ (hs.goOn rfl fun hq => ?_)
      have hm := hs.asked t hq
      rw [hmode] at hm
      generalize p.mode = m at ht hm
      generalize q.mode = m' at ht
      cases ht with
      | unlockSent => rfl
      | _ => cases hm

theorem flowing_takeBatch (w : World) (hb : 0 < batchMax) :
    (w.takeBatch batchMax).flight = [] → (w.takeBatch batchMax).queue = [] := fun hf => by
  have hlen := length_take (i := batchMax) (l := w.queue)
  change w.queue.take batchMax = [] at hf
  rw [hf, length_nil] at hlen
  change w.queue.drop batchMax = []
  rw [drop_eq_nil_iff]
  omega

theorem move (hs : Served h) (hb : 0 < batchMax) {x : Inst} (hx : h.w.insts i = some x)
    (ht : Turn L mode batchMax h.w i x w') : Served { h with w := w' } := by
  refine ⟨hs.locks.move hx ht, hs.tally.move hs.locks hx ht, ?_, hs.nodup, ?_⟩
  · cases ht with
    | enqueue hm hp hw =>
      split
      · exact flowing_takeBatch _ hb
      · rename_i hf
        subst hw
        exact fun hf' => (hf (List.isEmpty_iff.mpr hf')).elim
    | _ => exact hs.flowing
  · have hth : w'.threads = h.w.threads := ht.threads
    exact fun t ht => by unfold World.mode; rw [hth]; exact hs.asked t ht

theorem resolve (hs : Served h) (w₁ : World) (hr : Resolves w₁ w') (hth : w₁.threads = h.w.threads)
    (hq : w₁.queue = h.w.queue) (hf : w₁.flight = h.w.flight) (hl : Locks w') {failing : List (Job × String)}
    {rest : List Job} (ht : Tally w' rest h.queued h.received)
    (hj : rest.Perm (w₁.queue ++ w₁.flight ++ w₁.landed ++ failing.map (·.1))) :
    Served { h with w := w', failing := failing } := by
  refine ⟨hl, ht.perm ?_, ?_, hs.nodup, fun t hq => ?_⟩
  · show rest.Perm (w'.queue ++ w'.flight ++ w'.landed ++ failing.map (·.1))
    rw [hr.queue, hr.flight, hr.landed]
    exact hj
  · rw [hr.queue, hr.flight, hq, hf]
    exact hs.flowing
  · unfold World.mode
    rw [hr.threads, hth]
    exact hs.asked t hq

/-- A burst handed to a closed committer is answered at once. -/
theorem refuse (hs : Served h) (he : h.refuse mode i = some h') : Served h' := by
  obtain ⟨x, hx, hr⟩ := bind_eq_some_iff.mp he
  split at hr
  · rename_i c batch hp
    cases hr
    have hfits := hs.tally.planned i x hx c batch hp
    have hl : Locks (h.w.setInst i
        { x with st := applyWriter x.st c.pend c.metaChanged, pending := x.pending + 1, phase := .idle }) :=
      hs.locks.rest hx rfl rfl rfl rfl rfl rfl rfl (by simp) (by simp)
    have ht : Tally (h.w.setInst i
        { x with st := applyWriter x.st c.pend c.metaChanged, pending := x.pending + 1, phase := .idle })
        (Job.mk i x.st.id c batch :: h.jobs) h.queued h.received := by
      refine hs.tally.hand hx (hs.locks.lt_nextInst hx) rfl rfl rfl (fun t => ?_) rfl ⟨rfl, hfits⟩
        nofun
      simp [requests, hp, Phase.batch]
    have hw := resolves_endJob (h.w.setInst i
        { x with st := applyWriter x.st c.pend c.metaChanged, pending := x.pending + 1, phase := .idle })
      id (fun j => failAccepted j.c.responses j.c.accepted errStoreClosed) (Job.mk i x.st.id c batch)
    exact hs.resolve _ hw rfl rfl rfl (hl.failJob _) (ht.failJob hl) (List.Perm.refl _)
  · cases hr

theorem jobs_perm {α : Type} {l : List α} {a : α} (ha : l[n]? = some a) : l.Perm (a :: l.eraseIdx n) := by
  obtain ⟨hlt, rfl⟩ := List.getElem?_eq_some_iff.mp ha
  exact (getElem_cons_eraseIdx_perm hlt).symm

theorem callback (hs : Served h) {j : Job} (hj : h.w.landed[n]? = some j) :
    Served { h with w := { h.w with landed := h.w.landed.eraseIdx n }.callback j } := by
  have hperm : h.jobs.Perm (j :: (h.w.queue ++ h.w.flight ++ h.w.landed.eraseIdx n ++ h.failing.map (·.1))) := by
    refine (((jobs_perm hj).append_left (h.w.queue ++ h.w.flight)).append_right _).trans ?_
    simpa using @perm_middle _ j (h.w.queue ++ h.w.flight)
  have hl : Locks { h.w with landed := h.w.landed.eraseIdx n } := { hs.locks with }
  have ht : Tally { h.w with landed := h.w.landed.eraseIdx n } _ h.queued h.received :=
    (hs.tally.perm hperm).frame rfl rfl rfl
  exact hs.resolve { h.w with landed := h.w.landed.eraseIdx n } (resolves_endJob _ _ _ j) rfl rfl rfl
    (hl.endJob (fun x => ⟨_, rfl⟩) _ j)
    (ht.endJob hl (fun x => ⟨_, rfl⟩) (ht.fits j mem_cons_self).1) (List.Perm.refl _)

theorem fail (hs : Served h) {a : Job × String} (ha : h.failing[n]? = some a) : Served { h with
      w := h.w.endJob id (fun j => failAccepted j.c.responses j.c.accepted a.2) a.1
      failing := h.failing.eraseIdx n } := by
  have hperm : h.jobs.Perm (a.1 :: (h.w.queue ++ h.w.flight ++ h.w.landed ++ (h.failing.eraseIdx n).map (·.1))) :=
    (((jobs_perm ha).map (·.1)).append_left _).trans perm_middle
  have ht := hs.tally.perm hperm
  exact hs.resolve h.w (resolves_endJob _ _ _ a.1) rfl rfl rfl (hs.locks.endJob (fun x => ⟨x.st, rfl⟩) _ a.1)
    (ht.endJob hs.locks (fun x => ⟨x.st, rfl⟩) ((ht.fits a.1 mem_cons_self).failAccepted a.2)) (List.Perm.refl _)

theorem takeBatch_perm (w : World) (batchMax : Nat) (landed failing : List Job) : (w.queue ++ landed ++ failing).Perm
      ((w.takeBatch batchMax).queue ++ (w.takeBatch batchMax).flight ++ landed ++ failing) :=
  (take_drop_perm w.queue batchMax landed).append_right failing

section

variable (hs : Served h)
include hs

theorem nextBatch (w₁ : World) (hb : 0 < batchMax) (hth : w₁.threads = h.w.threads) (hl : Locks w₁)
    {failing : List (Job × String)} (ht : Tally w₁ (w₁.queue ++ w₁.landed ++ failing.map (·.1)) h.queued h.received) :
    Served { h with w := w₁.takeBatch batchMax, failing := failing } := by
  refine ⟨{ hl with }, (ht.perm (takeBatch_perm w₁ batchMax _ _)).frame rfl rfl rfl, flowing_takeBatch w₁ hb, hs.nodup,
    fun t hq => ?_⟩
  show ((w₁.threads t).elim Mode.free Prog.mode).asked = true
  rw [hth]
  exact hs.asked t hq

theorem flush (hb : 0 < batchMax) (ok : Bool) : Served { h with w := h.w.flush batchMax ok } := by
  cases ok with
  | true =>
    refine hs.nextBatch
      { h.w.committed (h.w.flight.flatMap (·.c.ops)) (h.w.flight.map fun j => .streamer j.id j.c.ops) with
        landed := h.w.landed ++ h.w.flight }
      hb rfl { hs.locks with } ((hs.tally.perm ?_).frame rfl rfl rfl)
    show (h.w.queue ++ h.w.flight ++ h.w.landed ++ h.failing.map (·.1)).Perm
      (h.w.queue ++ (h.w.landed ++ h.w.flight) ++ h.failing.map (·.1))
    rw [append_assoc h.w.queue]
    exact (perm_append_comm.append_left _).append_right _
  | false =>
    have hr := resolves_failJobs h.w.flight h.w
    have hperm : h.jobs.Perm (h.w.flight ++ (h.w.queue ++ h.w.landed ++ h.failing.map (·.1))) := by
      rw [← append_assoc, ← append_assoc]
      exact (perm_append_comm.append_right _).append_right _
    refine hs.nextBatch _ hb hr.threads (hs.locks.failJobs h.w.flight) ?_
    rw [hr.queue, hr.landed]
    exact Tally.failJobs h.w.flight hs.locks (hs.tally.perm hperm)

theorem flushClosed (hb : 0 < batchMax) : Served (h.flushClosed batchMax) := by
  refine hs.nextBatch
    (h.w.committed (h.w.flight.flatMap (·.c.ops)) (h.w.flight.map fun j => .streamer j.id j.c.ops))
    hb rfl { hs.locks with } ((hs.tally.perm ?_).frame rfl rfl rfl)
  show (h.w.queue ++ h.w.flight ++ h.w.landed ++ h.failing.map (·.1)).Perm
    (h.w.queue ++ h.w.landed ++ (h.failing ++ h.w.flight.map fun j => (j, errStoreClosed)).map (·.1))
  rw [map_append, List.map_map, append_assoc (h.w.queue ++ h.w.flight), append_assoc h.w.queue, append_assoc h.w.queue]
  refine (perm_append_comm.trans (List.Perm.of_eq ?_)).append_left _
  simp [comp_def]

theorem close :
    Served { h with
      w := { h.w with queue := [] }
      committerClosed := true
      failing := h.failing ++ h.w.queue.map fun j => (j, errStoreClosed) } := by
  refine ⟨{ hs.locks with }, (hs.tally.perm ?_).frame rfl rfl rfl, fun _ => rfl, hs.nodup, hs.asked⟩
  show (h.w.queue ++ h.w.flight ++ h.w.landed ++ h.failing.map (·.1)).Perm
    ([] ++ h.w.flight ++ h.w.landed ++ (h.failing ++ h.w.queue.map fun j => (j, errStoreClosed)).map (·.1))
  rw [append_assoc, append_assoc]
  refine perm_append_comm.trans (List.Perm.of_eq ?_)
  simp [comp_def]

theorem closeAll (err : String) :
    Served { h with
      w := { h.w with landed := [] }
      notifierClosed := true
      failing := h.failing ++ h.w.landed.map fun j => (j, err) } := by
  refine ⟨{ hs.locks with }, (hs.tally.perm ?_).frame rfl rfl rfl, hs.flowing, hs.nodup, hs.asked⟩
  show (h.w.queue ++ h.w.flight ++ h.w.landed ++ h.failing.map (·.1)).Perm
    (h.w.queue ++ h.w.flight ++ [] ++ (h.failing ++ h.w.landed.map fun j => (j, err)).map (·.1))
  rw [append_assoc, append_nil]
  refine (perm_append_comm.trans (List.Perm.of_eq ?_)).append_left _
  simp [comp_def]

theorem start {q : Prog} {registry : Bytes → Option Nat} (ht : h.w.threads t = none) (hq : q.Loose) :
    Served { h with w := { h.w with registry := registry }.setProg t q } := by
  refine ⟨?_, hs.tally.frame rfl rfl rfl, hs.flowing, hs.nodup, hs.goOn rfl fun hmem => ?_⟩
  · exact hs.locks.goOn_loose rfl rfl rfl hq.2 (Mode.holds_of_loose hq.1)
  · have := hs.asked t hmem
    rw [World.mode, ht] at this
    cases this

theorem deliver {a : Nat × AppendResp} {k : AppendResp → Prog} (ha : h.w.outbox[n]? = some a)
    (hk : h.w.threads a.1 = some (.await k)) : Served { h with
      w := { h.w with outbox := h.w.outbox.eraseIdx n }.setProg a.1 (k a.2)
      received := h.received ++ [a.1] } := by
  have hq := (hs.locks.tidy _ _ hk) a.2
  refine ⟨?_, hs.tally.deliver ha, hs.flowing, hs.nodup, hs.goOn rfl fun _ => by rw [hq.1]; rfl⟩
  exact hs.locks.goOn_loose rfl rfl rfl hq.2 (by rw [hq.1]; rfl)

theorem chunk (flt : Faults) (ok scanOk : Bool) (n : Nat) (d : Deletion) :
    Served { h with w := h.w.chunk flt ok scanOk n d } := by
  obtain ⟨db, history, deleting, he⟩ := chunk_eq h.w flt ok scanOk n d
  rw [he]
  exact { hs with locks := { hs.locks with }, tally := hs.tally.frame rfl rfl rfl }

section

variable (hb : 0 < batchMax)
include hb

theorem moved {m : World.Move}
    (he : World.step L mode batchMax h.w (.move i m) = some w') : Served { h with w := w' } := by
  obtain ⟨x, hx, he⟩ := bind_eq_some_iff.mp he
  exact hs.move hb hx (turned he)

theorem flushed {ok : Bool}
    (he : World.step L mode batchMax h.w (.flush ok) = some w') : Served { h with w := w' } := by
  cases stepped he
  exact hs.flush hb ok

/-- **The steps of the server.** -/
theorem run {e : World.Event}
    (he : step L mode batchMax h (.run e) = some h') : Served h' := by
  cases e with
  | arrive t c =>
    obtain ⟨w', hw, rfl⟩ := map_eq_some_iff.mp he
    cases stepped hw with | arrive _ _ ht _ => exact hs.start ht (loose_prog L c)
  | act t flt ok =>
    obtain ⟨w', hw, rfl⟩ := map_eq_some_iff.mp he
    obtain ⟨p, hp, hw⟩ := bind_eq_some_iff.mp hw
    exact hs.act hp hw
  | move i m =>
    cases m with
    | enqueue =>
      simp only [step] at he
      split at he
      · exact hs.refuse he
      · obtain ⟨w', hw, rfl⟩ := map_eq_some_iff.mp he
        exact hs.moved hb hw
    | _ =>
      obtain ⟨w', hw, rfl⟩ := map_eq_some_iff.mp he
      exact hs.moved hb hw
  | flush ok =>
    cases ok with
    | true =>
      simp only [step] at he
      split at he
      · simp only [ite_none_left_eq_some, some.injEq] at he
        obtain ⟨-, rfl⟩ := he
        exact hs.flushClosed hb
      · obtain ⟨w', hw, rfl⟩ := map_eq_some_iff.mp he
        exact hs.flushed hb hw
    | false =>
      obtain ⟨w', hw, rfl⟩ := map_eq_some_iff.mp he
      exact hs.flushed hb hw
  | callback n =>
    obtain ⟨w', hw, rfl⟩ := map_eq_some_iff.mp he
    obtain ⟨j, hj, rfl⟩ := map_eq_some_iff.mp hw
    exact hs.callback hj
  | deliver n =>
    obtain ⟨w', hw, rfl⟩ := map_eq_some_iff.mp he
    cases stepped hw with
    | deliver _ a ha hk =>
      rw [ha]
      exact hs.deliver ha hk
  | chunk n flt ok scanOk =>
    obtain ⟨w', hw, rfl⟩ := map_eq_some_iff.mp he
    obtain ⟨d, -, rfl⟩ := map_eq_some_iff.mp hw
    exact hs.chunk flt ok scanOk n d

/-- **The step lemma.** -/
theorem step {e : Event} (he : step L mode batchMax h e = some h') : Served h' := by
  cases e with
  | run e => exact hs.run hb he
  | close => cases he; exact hs.close
  | closeAll err =>
    simp only [Host.step, ite_none_left_eq_some, some.injEq] at he
    obtain ⟨-, rfl⟩ := he
    exact hs.closeAll err
  | fail n =>
    obtain ⟨a, ha, rfl⟩ := map_eq_some_iff.mp he
    exact hs.fail ha
  | drain t =>
    simp only [Host.step, isNone_iff_eq_none, ite_none_right_eq_some, some.injEq] at he
    obtain ⟨ht, rfl⟩ := he
    exact hs.start ht (loose_closeStreamers _)

end

end

/-- **Every state of a run.** -/
theorem reach (hb : 0 < batchMax) {C : Host → Event → Prop}
    (hr : Reach (Host.step L mode batchMax) C Host.start h) : Served h :=
  hr.invariant (fun _ _ _ hs _ he => hs.step hb he) served_start

theorem count_eq (hs : Served h) (t : Nat) :
    h.queued.count t = census (fun x => asks t x.requests) h.w.nextInst h.w.insts + asks t (requestsOf h.jobs) +
      (h.w.outbox.map (·.1) ++ h.received).count t := by
  have htells : tells t h.w.outbox = (h.w.outbox.map (·.1)).count t := by
    unfold tells List.count
    rw [countP_map]
    rfl
  rw [hs.tally.counts t, count_append, htells]
  omega

theorem asks_eq_zero (hs : Served h) (hi : h.Idle) (t : Nat) :
    census (fun x => asks t x.requests) h.w.nextInst h.w.insts = 0 ∧ asks t (requestsOf h.jobs) = 0 := by
  constructor
  · refine census_eq_zero fun i x hx => ?_
    have hbatch : x.reqs = [] ∧ x.phase.batch = [] := by
      rcases hi.streamers i x hx with ⟨hp, hr⟩ | hp
      · exact ⟨hr, by rw [hp]; rfl⟩
      · exact ⟨(hs.locks.insts i x hx).empty (.inr hp), by rw [hp]; rfl⟩
    rw [requests, hbatch.1, hbatch.2]
    rfl
  · have hjobs : h.jobs = [] := by
      unfold jobs
      rw [hs.flowing hi.flush, hi.flush, hi.callbacks.1, hi.callbacks.2]
      rfl
    rw [hjobs]
    rfl

end Served

/-- **Every queued append gets exactly one reply**, under either committer, whatever fails and however the server is
shut down: no handler is sent two answers, the callback counts are right, and when all goroutines are idle or have
ended, every request on a queue has been answered. -/
theorem queued_append_answered (L : GoLib) (mode : Durability) (cfg : Int) (h : Host)
    (hr : Reach (Host.step L mode (committerBatchMax cfg)) Any Host.start h) :
    (h.w.outbox.map (·.1) ++ h.received).Nodup ∧
    (∀ i x, h.w.insts i = some x → x.pending = (h.jobs.filter (·.inst == i)).length) ∧
    (h.Idle → ∀ t ∈ h.queued, t ∈ h.w.outbox.map (·.1) ++ h.received) := by
  have hs := Served.reach (committerBatchMax_pos cfg) hr
  refine ⟨nodup_iff_count_le_one.mpr fun t => ?_, fun i x hx => ?_, fun hi t ht => ?_⟩
  · have hc := hs.count_eq t
    have hone := nodup_iff_count_le_one.mp hs.nodup t
    omega
  · rw [hs.tally.pending i x hx, countP_eq_length_filter]
  · have hc := hs.count_eq t
    obtain ⟨h1, h2⟩ := hs.asks_eq_zero hi t
    have hpos := count_pos_iff.mpr ht
    exact count_pos_iff.mp (by omega)

/-- An append is committed, the durability poll fails, and the handler receives its answer. -/
def failedPoll : List Event :=
  (putEvents 0 ++ postEvents 1 (samplePost 0)).map .run ++
    [.run (.move 0 .enqueue), .run (.flush true), .closeAll "poll", .fail 0, .run (.deliver 0)]

/-- The append is answered once. -/
theorem queued_append_answered_failed_poll :
    ∃ h, Reach (step plainLib .notifier (committerBatchMax 0)) Any start h ∧ h.queued = [1] ∧
      h.received = [1] ∧ (h.w.outbox.map (·.1) ++ h.received).Nodup := by
  have hrun : ((run (step plainLib .notifier (committerBatchMax 0)) start failedPoll).map fun h =>
      (h.queued, h.received)) = some ([1], [1]) := by decide
  obtain ⟨h, hrun, he⟩ := map_eq_some_iff.mp hrun
  have hr := reach_any hrun
  rw [Prod.mk.injEq] at he
  exact ⟨h, hr, he.1, he.2, (queued_append_answered plainLib .notifier 0 h hr).1⟩

end Yasdb.Lifecycle
