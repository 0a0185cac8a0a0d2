import Yasdb.ExactlyOnce
import Yasdb.Lifecycle.Locks
import Yasdb.Lifecycle.Deletion

/-!
# The body of a POST

`handlePost` flattens the body into records if the streamer it has found looks open and of the right content type. The
append is then accepted by that streamer or, when it has died in between, by another one of the same path.

- `requested_of_step`, `next_of_step`: the requests on their way, and the handlers, after a step;
- `accepted_body_stored_iff`: when an accepted POST is stored with the records of its body;
- `accepted_body_lost`: a POST is answered 204 as a new append, and nothing is stored.
-/

namespace Yasdb

open Function List Option

variable {records : List Bytes} {path : Bytes}

/-! ## The records of a body -/

theorem flattenJSON_ne_nil {L : GoLib} {body : Bytes} (h : flattenJSON L body = .ok records) : records ≠ [] := by
  rintro rfl
  unfold flattenJSON at h
  dsimp only at h
  split at h
  · split at h
    · cases h
    · cases h
    · rename_i arr hne _
      split at h
      · rename_i out hm
        cases h
        cases arr with
        | nil => exact hne rfl
        | cons a arr =>
          rw [mapM_cons] at hm
          obtain ⟨c, -, hm⟩ := bind_eq_some_iff.mp hm
          obtain ⟨cs, -, hm⟩ := bind_eq_some_iff.mp hm
          cases hm
      · cases h
  · split at h
    · cases h
    · split at h <;> cases h

/-! ## The share of a request in its burst -/

theorem length_recordOpsFrom (id : Nat) : ∀ (start : Nat) (recs : List Bytes),
    (recordOpsFrom id start recs).length = recs.length
  | _, [] => rfl
  | start, _ :: recs => congrArg (· + 1) (length_recordOpsFrom id (start + 1) recs)

theorem picked_split {req : AppendReq} : ∀ {n : Nat} {batch : List AppendReq} {as : List Bool},
    batch[n]? = some req → as[n]? = some true →
      picked batch as = picked (batch.take n) (as.take n) ++ req :: picked (batch.drop (n + 1)) (as.drop (n + 1))
  | 0, r :: batch, a :: as, hr, ha => by
    cases hr
    cases ha
    rfl
  | n + 1, r :: batch, a :: as, hr, ha => by
    have ih := @picked_split req n batch as hr ha
    cases a with
    | true => exact congrArg (r :: ·) ih
    | false => exact ih
  | 0, [], _, hr, _ => by cases hr
  | _ + 1, [], _, hr, _ => by cases hr
  | 0, _ :: _, [], _, ha => by cases ha
  | _ + 1, _ :: _, [], _, ha => by cases ha

/-- The planned burst stores `records` for its request number `n`, between the records of the requests accepted before
it and those of the requests accepted after it. -/
def Gains (s : Streamer) (batch : List AppendReq) (p : Planned) (n : Nat) (records : List Bytes) : Prop :=
  p.pend.recordOps = recordOpsFrom s.id s.writeTail
    ((picked (batch.take n) (p.accepted.take n)).flatMap (·.records) ++
      (records ++ (picked (batch.drop (n + 1)) (p.accepted.drop (n + 1))).flatMap (·.records)))

theorem Gains.length_eq {s : Streamer} {batch : List AppendReq} {p : Planned} {n : Nat} {records' : List Bytes}
    (h : Gains s batch p n records) (h' : Gains s batch p n records') : records.length = records'.length := by
  have hlen := congrArg List.length (Eq.trans (Eq.symm h) h')
  simp only [length_recordOpsFrom, length_append] at hlen
  omega

section Planned

variable {L : GoLib} {now : Int64} {req : AppendReq} {n : Nat}

theorem View.Answered.matches {v : View} {batch : List AppendReq} {rs : List AppendResp} {as : List Bool}
    (h : View.Answered L now v batch rs as) (hb : req.hasBody = true) (hr : batch[n]? = some req)
    (ha : as[n]? = some true) : contentTypeMatches L v.contentType req.contentType = true := by
  induction h generalizing n with
  | nil => cases hr
  | accept hacc _ ih =>
    cases n with
    | zero => cases hr; exact hacc.contentType hb
    | succ n => exact ih hr ha
  | noop _ _ _ ih =>
    cases n with
    | zero => cases ha
    | succ n => exact ih hr ha
  | reject _ _ _ _ ih =>
    cases n with
    | zero => cases ha
    | succ n => exact ih hr ha

variable {flt : Faults} {db : Store} {s : Streamer} {batch : List AppendReq}

/-- **An accepted request** has the content type of the stream, which gains its records. -/
theorem gains_planBatch (hr : batch[n]? = some req)
    (ha : (planBatch L flt db s (newPending s now) batch).accepted[n]? = some true) :
    (req.hasBody = true → contentTypeMatches L s.streamMeta.contentType req.contentType = true) ∧
      Gains s batch (planBatch L flt db s (newPending s now) batch) n req.records := by
  have hplan := planBatch_plans L flt db batch s (newPending s now)
  have hans := hplan.answered
  have hrec := hplan.recordOps
  rw [pendView_newPending] at hans hrec
  refine ⟨fun hb => hans.matches hb hr ha, ?_⟩
  unfold Gains
  rw [show _ = _ from hrec, ← hans.picked, picked_split hr ha, flatMap_append, flatMap_cons]
  rfl

end Planned

namespace Lifecycle

open Batch Runs Objects

/-! ## Handlers that send -/

/-- What a handler has decided to send, if it has looked at a streamer. -/
abbrev Decision := Option (AppendReq → Prop)

def Decision.Allows (S : Decision) (req : AppendReq) : Prop := ∃ P, S = some P ∧ P req

/-- The handler sends only what it has decided to; it looks at a streamer once, and then sends a request in `K`. -/
def Prog.Sends (K : Bool → Bytes → AppendReq → Prop) : Prog → Decision → Prop
  | .done _, _ => True
  | .call c, S => ∃ path req, c = .submitAppend path req ∧ S.Allows req
  | .look _ k, S => S = none ∧ ∀ closed contentType, (k closed contentType).Sends K (some (K closed contentType))
  | .send _ req k, S => S.Allows req ∧ k.Sends K S
  | .get _ k, S => ∀ r, (k r).Sends K S
  | .plan _ _ k, S => ∀ r, (k r).Sends K S
  | .commit _ k, S => ∀ ok, (k ok).Sends K S
  | .lookup _ k, S | .evict _ k, S => ∀ r, (k r).Sends K S
  | .spawn _ _ _ k, S => ∀ i, (k i).Sends K S
  | .isDead _ k, S => ∀ b, (k b).Sends K S
  | .await k, S => ∀ r, (k r).Sends K S
  | .lockMeta k, S | .unlockMeta k, S | .lockSpawn _ _ k, S | .unlockSpawn _ k, S | .lockMu _ k, S | .unlockMu _ k, S
  | .kill _ k, S | .signal _ k, S | .park _ k, S | .unpark _ k, S | .startBackgroundDelete _ k, S => k.Sends K S

section Sends

variable {K : Bool → Bytes → AppendReq → Prop} {S : Decision}

theorem sends_getOrSpawn {k : Except String (Option Nat) → Prog} (hk : ∀ r, (k r).Sends K S) :
    (getOrSpawn path k).Sends K S := by
  intro r
  cases r with
  | some i => exact hk _
  | none =>
    intro r
    cases r with
    | some i => exact hk _
    | none =>
      intro r
      match r with
      | .error e => exact hk _
      | .ok none => exact hk _
      | .ok (some m) =>
        intro r
        cases r with
        | error e => exact hk _
        | ok t => exact fun i => hk _

theorem sends_handOver {req : AppendReq} (h : S.Allows req) (i : Nat) : (handOver path req i).Sends K S := by
  intro dead
  cases dead with
  | true => exact ⟨path, req, rfl, h⟩
  | false => exact ⟨h, fun _ => trivial⟩

theorem sends_submitAppend {req : AppendReq} (h : S.Allows req) : (submitAppend path req).Sends K S := by
  refine sends_getOrSpawn fun r => ?_
  match r with
  | .error e => trivial
  | .ok none => trivial
  | .ok (some i) => exact sends_handOver h i

/-- The requests that a POST can send, after what it has seen. -/
def Post.Decides (L : GoLib) (p : Post) (closed : Bool) (contentType : Bytes) (req : AppendReq) : Prop :=
  ∃ records, p.records L closed contentType = .ok records ∧ req = p.request records

theorem sends_handlePost (L : GoLib) (path : Bytes) (p : Post) : (handlePost L path p).Sends (p.Decides L) none := by
  have hpost : ∀ i, (postTo L path p i).Sends (p.Decides L) none := fun i => by
    refine ⟨rfl, fun closed contentType => ?_⟩
    dsimp only
    split
    · trivial
    · rename_i records hr
      exact sends_handOver ⟨_, rfl, records, hr, rfl⟩ i
  unfold handlePost
  split
  · trivial
  split
  · trivial
  intro r
  cases r with
  | some i => exact hpost i
  | none =>
    intro r
    cases r with
    | error e => trivial
    | ok t =>
      dsimp only
      split
      · trivial
      · refine sends_getOrSpawn fun r => ?_
        match r with
        | .error e => trivial
        | .ok none => trivial
        | .ok (some i) => exact hpost i

/-- A handler goes on sending the same requests. -/
theorem Prog.Sends.next {L : GoLib} {p q : Prog} (h : p.Sends K S) (hq : q.Next L p) (hl : ∀ i k, p ≠ .look i k) :
    q.Sends K S := by
  cases p with
  | done status => cases hq
  | call c =>
    obtain ⟨path, req, rfl, hs⟩ := h
    cases hq
    exact sends_submitAppend hs
  | get key k => obtain ⟨r, rfl⟩ := hq; exact h r
  | plan path f k => obtain ⟨flt, db, id, rfl⟩ := hq; exact h _
  | commit c k => obtain ⟨ok, rfl⟩ := hq; exact h ok
  | lookup path k => obtain ⟨r, rfl⟩ := hq; exact h r
  | spawn path m tailSeq k => obtain ⟨i, rfl⟩ := hq; exact h i
  | evict path k => obtain ⟨r, rfl⟩ := hq; exact h r
  | look i k => exact (hl i k rfl).elim
  | isDead i k => obtain ⟨b, rfl⟩ := hq; exact h b
  | send i req k => cases hq; exact h.2
  | await k => obtain ⟨r, rfl⟩ := hq; exact h r
  | _ => cases hq; exact h

end Sends

/-! ## Requests on their way -/

/-- The request is with a streamer, queued or in a burst. -/
def World.Requested (w : World) (r : Request) : Prop := ∃ i x, w.insts i = some x ∧ r ∈ x.requests

open World

section Requests

variable {L : GoLib} {mode : Durability} {batchMax : Nat} {w w' : World} {r : Request} {i : Nat} {x x' : Inst}

theorem World.Requested.of_update (hx : w.insts i = some x) (hi : w'.insts = update w.insts i (some x'))
    (hr : ∀ r ∈ x'.requests, r ∈ x.requests) (h : w'.Requested r) : w.Requested r := by
  obtain ⟨j, y, hy, hmem⟩ := h
  rw [hi] at hy
  rcases update_eq_some hy with ⟨rfl, rfl⟩ | ⟨-, hy⟩
  · exact ⟨j, x, hx, hr r hmem⟩
  · exact ⟨j, y, hy, hmem⟩

theorem World.Requested.of_insts (hi : w'.insts = w.insts) (h : w'.Requested r) : w.Requested r := by
  obtain ⟨j, y, hy, hmem⟩ := h
  exact ⟨j, y, hi ▸ hy, hmem⟩

theorem requested_endJob {f : Inst → Inst} (hf : ∀ x, (f x).requests = x.requests)
    {responses : Job → List AppendResp} {j : Job} (h : (w.endJob f responses j).Requested r) : w.Requested r := by
  unfold endJob at h
  cases hx : w.insts j.inst with
  | none =>
    rw [hx] at h
    exact h.of_insts rfl
  | some x =>
    rw [hx] at h
    exact h.of_update hx rfl fun r hr => by rwa [hf] at hr

theorem requested_failJobs (js : List Job) : ∀ {w : World}, (js.foldl failJob w).Requested r → w.Requested r := by
  induction js with
  | nil => exact fun h => h
  | cons j js ih => exact fun h => requested_endJob (fun _ => rfl) (ih h)

/-- A move of a streamer takes in no request. -/
theorem Turn.requests (ht : Turn L mode batchMax w i x w') :
    ∃ x', w'.insts = update w.insts i (some x') ∧ ∀ r ∈ x'.requests, r ∈ x.requests := by
  have same : ∀ {x' : Inst}, x'.reqs = x.reqs → x'.phase.batch ⊆ x.phase.batch → ∀ r ∈ x'.requests, r ∈ x.requests :=
    fun h1 h2 r hr => by
      unfold Inst.requests at hr ⊢
      rw [h1] at hr
      exact (mem_append.mp hr).elim (mem_append_left _) fun hr => mem_append_right _ (h2 hr)
  cases ht with
  | recv hp hr => exact ⟨_, rfl, by simp [Inst.requests, hp, hr, Phase.batch, or_comm]⟩
  | drain hp hr =>
    refine ⟨_, rfl, fun r h => ?_⟩
    simp only [Inst.requests, hp, hr, Phase.batch, mem_append, mem_cons, not_mem_nil] at h ⊢
    tauto
  | plan hp hb => exact ⟨_, rfl, same rfl (by rw [hp]; exact List.Subset.refl _)⟩
  | @enqueue c batch _ hm hp hw =>
    subst hw
    refine ⟨{ x with st := applyWriter x.st c.pend c.metaChanged, pending := x.pending + 1, phase := .idle }, ?_,
      same rfl (nil_subset _)⟩
    split <;> rfl
  | touchNone hp _ => exact ⟨_, rfl, same rfl (List.Subset.refl _)⟩
  | touch hp _ => exact ⟨_, rfl, same rfl (nil_subset _)⟩
  | retireLock hp _ => exact ⟨_, rfl, same rfl (nil_subset _)⟩
  | count hp _ _ => exact ⟨_, rfl, same rfl (nil_subset _)⟩
  | pass hp _ => exact ⟨_, rfl, same rfl (nil_subset _)⟩
  | stop hp _ => exact ⟨_, rfl, same rfl (nil_subset _)⟩
  | refuse hp hr =>
    refine ⟨_, rfl, fun r h => ?_⟩
    simp only [Inst.requests, hp, hr, Phase.batch, append_nil, mem_cons] at h ⊢
    exact .inr h
  | exit hp _ => exact ⟨_, rfl, same rfl (nil_subset _)⟩
  | _ => exact ⟨_, rfl, same rfl (nil_subset _)⟩

/-- **The requests after a step** were there before it, or a handler has just sent them. -/
theorem requested_of_step (hl : Locks w) {e : Event} (he : step L mode batchMax w e = some w')
    (h : w'.Requested r) :
    w.Requested r ∨ ∃ flt ok i k, e = .act r.thread flt ok ∧ w.threads r.thread = some (.send i r.req k) := by
  cases stepped he with
  | arrive t c _ _ => exact .inl (h.of_insts rfl)
  | @act t flt ok p _ hp he =>
    by_cases hsend : ∃ i req k, p = .send i req k
    · obtain ⟨i, req, k, rfl⟩ := hsend
      simp only [act, bind_eq_some_iff, ite_none_right_eq_some, some.injEq] at he
      obtain ⟨x, hx, -, rfl⟩ := he
      obtain ⟨j, y, hy, hmem⟩ := h
      rcases update_eq_some hy with ⟨rfl, rfl⟩ | ⟨-, hy⟩
      · simp only [Inst.requests, mem_append, mem_singleton] at hmem
        rcases hmem with (hmem | rfl) | hmem
        · exact .inl ⟨j, x, hx, mem_append_left _ hmem⟩
        · exact .inr ⟨flt, ok, j, k, rfl, hp⟩
        · exact .inl ⟨j, x, hx, mem_append_right _ hmem⟩
      · exact .inl ⟨j, y, hy, hmem⟩
    · left
      obtain ⟨q, -, ha⟩ := acted (hl.tidy t p hp) he
      cases ha with
      | quiet _ _ _ _ hi => exact h.of_insts hi
      | evict _ _ => exact h.of_insts rfl
      | spawn _ _ =>
        obtain ⟨j, y, hy, hmem⟩ := h
        rcases update_eq_some hy with ⟨rfl, rfl⟩ | ⟨-, hy⟩
        · cases hmem
        · exact ⟨j, y, hy, hmem⟩
      | touch hx ht hk hs =>
        rcases hs with ⟨-, req, k, rfl⟩ | ⟨hreqs, -⟩
        · exact (hsend ⟨_, _, _, rfl⟩).elim
        · refine h.of_update hx rfl fun r hr => ?_
          unfold Inst.requests at hr ⊢
          rwa [hreqs, ht.phase] at hr
  | move hx he =>
    obtain ⟨x', hi, hr⟩ := (turned he).requests
    exact .inl (h.of_update hx hi hr)
  | flush ok =>
    cases ok with
    | true => exact .inl (h.of_insts rfl)
    | false => exact .inl (requested_failJobs w.flight (h.of_insts rfl))
  | callback n j _ =>
    exact .inl ((requested_endJob (fun _ => (by exact rfl)) h).of_insts rfl)
  | deliver n a _ _ => exact .inl (h.of_insts rfl)
  | chunk n flt ok scanOk d _ =>
    obtain ⟨db, history, deleting, heq⟩ := chunk_eq w flt ok scanOk n d
    rw [heq] at h
    exact .inl (h.of_insts rfl)

/-- **A handler after a step** stands where it was, or goes on with its next access or with its answer. -/
theorem next_of_step (hl : Locks w) {e : Event} (he : step L mode batchMax w e = some w') {t : Nat}
    {p : Prog} (hp : w.threads t = some p) :
    w'.threads t = some p ∨
      ∃ q, q.Next L p ∧ w'.threads t = some q ∧ ((∃ flt ok, e = .act t flt ok) ∨ ∃ k, p = .await k) := by
  cases stepped he with
  | arrive u c hu _ =>
    have hne : t ≠ u := fun h => by rw [← h, hp] at hu; cases hu
    exact .inl ((update_of_ne hne ..).trans hp)
  | @act u flt ok p' _ hp' he =>
    obtain ⟨q, hq, ha⟩ := acted (hl.tidy u p' hp') he
    have hth : w'.threads = update w.threads u (some q) := by
      cases ha with
      | quiet _ _ _ _ _ _ ht => exact ht
      | _ => rfl
    rw [hth]
    by_cases hu : t = u
    · subst hu
      cases hp.symm.trans hp'
      exact .inr ⟨q, hq, update_self .., .inl ⟨flt, ok, rfl⟩⟩
    · exact .inl ((update_of_ne hu ..).trans hp)
  | move hx he => exact .inl ((turned he).threads ▸ hp)
  | flush ok =>
    cases ok with
    | true => exact .inl hp
    | false => exact .inl ((resolves_failJobs w.flight w).threads ▸ hp)
  | callback n j _ =>
    exact .inl ((congrFun (resolves_endJob { w with landed := w.landed.eraseIdx n } _ _ j).threads t).trans hp)
  | @deliver n a k _ hk =>
    by_cases hu : t = a.1
    · rw [← hu, hp, some.injEq] at hk
      subst hk
      exact .inr ⟨k a.2, ⟨a.2, rfl⟩, hu ▸ update_self .., .inr ⟨k, rfl⟩⟩
    · exact .inl ((update_of_ne hu ..).trans hp)
  | chunk n flt ok scanOk d _ =>
    obtain ⟨db, history, deleting, heq⟩ := chunk_eq w flt ok scanOk n d
    rw [heq]
    exact .inl hp

/-- Every request on its way is that of a handler. -/
theorem requested_known {C : World → Event → Prop} (h : Reach (step L mode batchMax) C start w)
    (hr : w.Requested r) : (w.threads r.thread).isSome := by
  have hinv : Locks w ∧ ∀ r, w.Requested r → (w.threads r.thread).isSome := by
    refine h.invariant (P := fun w => Locks w ∧ ∀ r, w.Requested r → (w.threads r.thread).isSome) ?_ ?_
    · intro w e w' ⟨hl, hk⟩ _ he
      refine ⟨hl.step he, fun r hr => ?_⟩
      have hsome : (w.threads r.thread).isSome := by
        rcases requested_of_step hl he hr with hr | ⟨flt, ok, i, k, -, hs⟩
        · exact hk r hr
        · rw [hs]; rfl
      obtain ⟨p, hp⟩ := isSome_iff_exists.mp hsome
      rcases next_of_step hl he hp with hp' | ⟨q, -, hq, -⟩
      · rw [hp']; rfl
      · rw [hq]; rfl
    · exact ⟨locks_start, fun r ⟨i, x, hx, _⟩ => by cases hx⟩
  exact hinv.2 r hr

end Requests

/-! ## A POST on its way -/

/-- The requests of the handler `t`, sent and to come, are as decided. -/
structure Traced (K : Bool → Bytes → AppendReq → Prop) (S : Decision) (t : Nat) (w : World) : Prop where
  requests : ∀ r, w.Requested r → r.thread = t → S.Allows r.req
  prog : ∃ p, w.threads t = some p ∧ p.Sends K S

section Traced

variable {L : GoLib} {mode : Durability} {batchMax : Nat} {w w' : World} {t : Nat} {e : Event}
  {K : Bool → Bytes → AppendReq → Prop} {S : Decision}

/-- The handler does not look at a streamer in this step. -/
def LooksAway (t : Nat) (w : World) (e : Event) : Prop :=
  ∀ flt ok j k, e = .act t flt ok → w.threads t ≠ some (.look j k)

theorem Traced.step (h : Traced K S t w) (hl : Locks w) (he : step L mode batchMax w e = some w')
    (hno : LooksAway t w e) : Traced K S t w' := by
  obtain ⟨p, hp, hs⟩ := h.prog
  refine ⟨fun r hr ht => ?_, ?_⟩
  · rcases requested_of_step hl he hr with hr | ⟨flt, ok, i, k, -, hsend⟩
    · exact h.requests r hr ht
    · rw [ht, hp, some.injEq] at hsend
      rw [hsend] at hs
      exact hs.1
  · rcases next_of_step hl he hp with hp' | ⟨q, hq, hp', hact⟩
    · exact ⟨p, hp', hs⟩
    · refine ⟨q, hp', hs.next hq fun j k hpk => ?_⟩
      subst hpk
      rcases hact with ⟨flt, ok, rfl⟩ | ⟨k', hk'⟩
      · exact hno flt ok j k rfl hp
      · cases hk'

theorem Traced.looksAway {P : AppendReq → Prop} (h : Traced K (some P) t w) : LooksAway t w e := by
  intro flt ok j k _ hp
  obtain ⟨p, hp', hs⟩ := h.prog
  cases hp.symm.trans hp'
  cases hs.1

theorem Traced.look (h : Traced K S t w) {flt : Faults} {ok : Bool} {j : Nat} {k : Bool → Bytes → Prog}
    (hp : w.threads t = some (.look j k)) (he : World.step L mode batchMax w (.act t flt ok) = some w') :
    ∃ y, w.insts j = some y ∧ Traced K (some (K y.st.closed y.st.streamMeta.contentType)) t w' := by
  obtain ⟨p, hp', hs⟩ := h.prog
  cases hp.symm.trans hp'
  obtain ⟨rfl, hk⟩ := hs
  have hact := he
  simp only [World.step, hp, bind_some, World.act] at hact
  obtain ⟨y, hy, rfl⟩ := map_eq_some_iff.mp hact
  refine ⟨y, hy, fun r hr ht => ?_, _, update_self .., hk _ _⟩
  obtain ⟨P, hP, -⟩ := h.requests r (hr.of_insts rfl) ht
  cases hP

variable (L mode batchMax t)

/-- Between `w₁` and `w`, the handler `t` has looked at a streamer object when it was `y`. -/
def Looked (w₁ w : World) (y : Inst) : Prop :=
  ∃ w₂ w₃ j k flt ok, Reach (step L mode batchMax) Any w₁ w₂ ∧ w₂.threads t = some (.look j k) ∧
    w₂.insts j = some y ∧ step L mode batchMax w₂ (.act t flt ok) = some w₃ ∧
    Reach (step L mode batchMax) Any w₃ w

variable {L mode batchMax t}

theorem Looked.tail {w₁ : World} {y : Inst} (h : Looked L mode batchMax t w₁ w y)
    (he : step L mode batchMax w e = some w') : Looked L mode batchMax t w₁ w' y := by
  obtain ⟨w₂, w₃, j, k, flt, ok, h₁, hp, hy, h₂, h₃⟩ := h
  exact ⟨w₂, w₃, j, k, flt, ok, h₁, hp, hy, h₂, h₃.tail trivial he⟩

/-- **A POST on its way** has not looked at a streamer and sent nothing, or sends what it has decided. -/
theorem posted {w₀ w₁ : World} {p : Post} (h₀ : Reach (step L mode batchMax) Any start w₀)
    (ha : step L mode batchMax w₀ (.arrive t (.handlePost path p)) = some w₁)
    (hr : Reach (World.step L mode batchMax) Any w₁ w) :
    Locks w ∧ (Traced (p.Decides L) none t w ∨ ∃ y, Looked L mode batchMax t w₁ w y ∧
      Traced (p.Decides L) (some (p.Decides L y.st.closed y.st.streamMeta.contentType)) t w) := by
  have hl₀ := Locks.reach h₀
  induction hr with
  | refl =>
    have hl := hl₀.step ha
    simp only [World.step, ite_none_right_eq_some, some.injEq, Bool.and_eq_true] at ha
    obtain ⟨⟨hnone, -⟩, rfl⟩ := ha
    refine ⟨hl, .inl ⟨fun r hr ht => ?_, _, update_self .., sends_handlePost L path p⟩⟩
    have := requested_known h₀ (hr.of_insts rfl)
    rw [ht, isNone_iff_eq_none.mp hnone] at this
    cases this
  | @tail w₂ w₃ hr h ih =>
    obtain ⟨e, -, he⟩ := h
    obtain ⟨hl, htr⟩ := ih
    refine ⟨hl.step he, ?_⟩
    rcases htr with htr | ⟨y, hlook, htr⟩
    · by_cases hno : LooksAway t w₂ e
      · exact .inl (htr.step hl he hno)
      · simp only [LooksAway, not_forall, not_not, exists_prop] at hno
        obtain ⟨flt, ok, j, k, rfl, hp⟩ := hno
        obtain ⟨y, hy, htr'⟩ := htr.look hp he
        exact .inr ⟨y, ⟨w₂, w₃, j, k, flt, ok, hr, hp, hy, he, Reach.refl _⟩, htr'⟩
    · exact .inr ⟨y, hlook.tail he, htr.step hl he htr.looksAway⟩

end Traced

/-! ## Main results -/

/-- The streamer that takes the POST number `n` of its burst gains the records of the body for its content type. -/
def StoresBody (L : GoLib) (p : Post) (s : Streamer) (batch : List AppendReq) (b : Planned) (n : Nat) : Prop :=
  ∃ records, p.recordsFor L s.streamMeta.contentType = .ok records ∧ records ≠ [] ∧ Gains s batch b n records

theorem recordsFor_eq {L : GoLib} {p : Post} {ct ct' : Bytes} (h : contentTypeMatches L ct p.contentType = true)
    (h' : contentTypeMatches L ct' p.contentType = true) : p.recordsFor L ct = p.recordsFor L ct' := by
  unfold Post.recordsFor isJSONStream
  rw [beq_iff_eq.mp h, beq_iff_eq.mp h']

theorem recordsFor_ne_nil {L : GoLib} {p : Post} {ct : Bytes}
    (h : p.recordsFor L ct = .ok records) : records ≠ [] := by
  unfold Post.recordsFor at h
  split at h
  · exact flattenJSON_ne_nil h
  · cases h
    exact cons_ne_nil _ _

/-- **An accepted POST is stored with its body exactly if the handler saw an open stream of a matching content type.**
It arrives at `w₁`; at `w` a streamer has it in its burst and accepts it. -/
theorem accepted_body_stored_iff (L : GoLib) (mode : Durability) (batchMax : Nat) (w₀ w₁ w : World) (t : Nat)
    (path : Bytes) (p : Post) (h₀ : Reach (step L mode batchMax) Any start w₀)
    (ha : step L mode batchMax w₀ (.arrive t (.handlePost path p)) = some w₁) (hbody : p.body ≠ [])
    (hr : Reach (step L mode batchMax) Any w₁ w) (i : Nat) (x : Inst) (batch : List Request) (n : Nat)
    (r : Request) (hx : w.insts i = some x) (hph : x.phase = .draining batch) (hn : batch[n]? = some r)
    (ht : r.thread = t) (flt : Faults) (now : Int64)
    (hacc : (planBatch L flt w.db x.st (newPending x.st now) (batch.map (·.req))).accepted[n]? = some true) :
    ∃ y, Looked L mode batchMax t w₁ w y ∧
      (StoresBody L p x.st (batch.map (·.req)) (planBatch L flt w.db x.st (newPending x.st now) (batch.map (·.req))) n ↔
        y.st.closed = false ∧ contentTypeMatches L y.st.streamMeta.contentType p.contentType = true) := by
  have hmem : w.Requested r := by
    refine ⟨i, x, hx, mem_append_right _ ?_⟩
    rw [hph]
    exact mem_of_getElem? hn
  have hreq : (batch.map (·.req))[n]? = some r.req := by rw [getElem?_map, hn]; rfl
  obtain ⟨hmatch, hgains⟩ := gains_planBatch hreq hacc
  obtain ⟨-, htr | ⟨y, hlook, htr⟩⟩ := posted h₀ ha hr
  · obtain ⟨P, hP, -⟩ := htr.requests r hmem ht
    cases hP
  · obtain ⟨P, hP, hdec⟩ := htr.requests r hmem ht
    cases hP
    obtain ⟨records, hrec, hreq'⟩ := hdec
    have hhas : p.hasBody = true := decide_eq_true hbody
    rw [hreq'] at hmatch hgains
    have hx' := hmatch hhas
    refine ⟨y, hlook, fun ⟨records', _, hne, hg⟩ => ?_, fun ⟨hopen, hy⟩ => ?_⟩
    · -- a handler that saw otherwise has sent no records
      by_contra hcond
      unfold Post.records at hrec
      rw [if_neg (by simpa [hhas] using hcond)] at hrec
      cases hrec
      exact hne (length_eq_zero_iff.mp (hg.length_eq hgains))
    · unfold Post.records at hrec
      rw [if_pos (by simp [hhas, hopen, hy]), recordsFor_eq hy hx'] at hrec
      exact ⟨records, hrec, recordsFor_ne_nil hrec, hgains⟩

/-- A POST without producer headers. -/
def plainPost : Post := { body := [0], contentType := sampleType }

/-- A stream is created, and a POST arrives and reaches a new streamer. -/
def postSeenOpen : List Event := acts 1 14 ++ [.move 0 .recv]

/-- A burst of one request that meets the condition is being drained. -/
def Phase.drainsOne (P : Request → Bool) : Phase → Bool
  | .draining [r] => P r
  | _ => false

theorem Phase.drainsOne_elim {P : Request → Bool} {ph : Phase} (h : ph.drainsOne P = true) :
    ∃ r, ph = .draining [r] ∧ P r = true := by
  unfold Phase.drainsOne at h
  split at h
  · exact ⟨_, rfl, h⟩
  · cases h

/-- The POST finds an open stream, and its body is stored. -/
theorem accepted_body_stored :
    ∃ w₀ w₁ w x r y, Reach (step plainLib .sync 1) Any start w₀ ∧
      step plainLib .sync 1 w₀ (.arrive 1 (.handlePost samplePath plainPost)) = some w₁ ∧
      Reach (step plainLib .sync 1) Any w₁ w ∧ w.insts 0 = some x ∧ x.phase = .draining [r] ∧
      Looked plainLib .sync 1 1 w₁ w y ∧
      (StoresBody plainLib plainPost x.st [r.req]
          (planBatch plainLib noFaults w.db x.st (newPending x.st 0) [r.req]) 0 ↔
        y.st.closed = false ∧ contentTypeMatches plainLib y.st.streamMeta.contentType sampleType = true) := by
  obtain ⟨w₀, hw₀, w₁, hw₁, w, hw, x, hx, h⟩ : ∃ w₀ ∈ run (step plainLib .sync 1) start (putEvents 0),
      ∃ w₁ ∈ step plainLib .sync 1 w₀ (.arrive 1 (.handlePost samplePath plainPost)),
      ∃ w ∈ run (step plainLib .sync 1) w₁ postSeenOpen, ∃ x ∈ w.insts 0,
        x.phase.drainsOne (fun r => r.thread == 1 &&
          (planBatch plainLib noFaults w.db x.st (newPending x.st 0) [r.req]).accepted == [true]) = true := by decide
  obtain ⟨r, hph, h⟩ := Phase.drainsOne_elim h
  simp only [Bool.and_eq_true, beq_iff_eq] at h
  have h₀ := reach_any hw₀
  have h₁ := reach_any hw
  obtain ⟨y, hy, hiff⟩ := accepted_body_stored_iff plainLib .sync 1 w₀ w₁ w 1 samplePath plainPost h₀ hw₁ (by decide)
    h₁ 0 x [r] 0 r hx hph rfl h.1 noFaults 0 (congrArg (·[0]?) h.2)
  exact ⟨w₀, w₁, w, x, r, y, h₀, hw₁, h₁, hx, hph, hy, hiff⟩

/-- The POST finds a closed stream, which is deleted; a stream is created at the path, and takes the POST. -/
def postSeenClosed : List Event :=
  acts 2 2 ++ deleteEvents 3 ++ putEvents 4 ++ acts 2 15 ++ [.move 1 .recv]

/-- **An acknowledged body is lost**: the POST is accepted as a new append and answered 204, and nothing is stored. -/
theorem accepted_body_lost :
    ∃ w₀ w₁ w x r, Reach (step plainLib .sync 1) Any start w₀ ∧
      step plainLib .sync 1 w₀ (.arrive 2 (.handlePost samplePath plainPost)) = some w₁ ∧
      Reach (step plainLib .sync 1) Any w₁ w ∧ w.insts 1 = some x ∧ x.phase = .draining [r] ∧ r.thread = 2 ∧
      (planBatch plainLib noFaults w.db x.st (newPending x.st 0) [r.req]).responses = [{ status := 204 }] ∧
      (planBatch plainLib noFaults w.db x.st (newPending x.st 0) [r.req]).accepted = [true] ∧
      ¬ StoresBody plainLib plainPost x.st [r.req]
        (planBatch plainLib noFaults w.db x.st (newPending x.st 0) [r.req]) 0 := by
  obtain ⟨w₀, hw₀, w₁, hw₁, w, hw, x, hx, h⟩ : ∃ w₀ ∈ run (step plainLib .sync 1) start
      (putEvents 0 ++ postEvents 1 { closeStream := true } ++ [.move 0 (.commit true)]),
      ∃ w₁ ∈ step plainLib .sync 1 w₀ (.arrive 2 (.handlePost samplePath plainPost)),
      ∃ w ∈ run (step plainLib .sync 1) w₁ postSeenClosed, ∃ x ∈ w.insts 1,
        x.phase.drainsOne (fun r => r.thread == 2 && r.req.records == [] &&
          (planBatch plainLib noFaults w.db x.st (newPending x.st 0) [r.req]).responses == [{ status := 204 }] &&
          (planBatch plainLib noFaults w.db x.st (newPending x.st 0) [r.req]).accepted == [true]) = true := by decide
  obtain ⟨r, hph, h⟩ := Phase.drainsOne_elim h
  simp only [Bool.and_eq_true, beq_iff_eq] at h
  obtain ⟨⟨⟨hr, hrec⟩, hresp⟩, hacc⟩ := h
  refine ⟨w₀, w₁, w, x, r, reach_any hw₀, hw₁, reach_any hw, hx, hph, hr, hresp, hacc, ?_⟩
  rintro ⟨records, _, hne, hg⟩
  obtain ⟨-, hg'⟩ := @gains_planBatch plainLib 0 r.req 0 noFaults w.db x.st [r.req] rfl (congrArg (·[0]?) hacc)
  rw [hrec] at hg'
  exact hne (length_eq_zero_iff.mp (hg.length_eq hg'))

end Lifecycle

end Yasdb
