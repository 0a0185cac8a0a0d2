import Yasdb.Streamer

/-!
# What planning an append does

The writer's view of a stream (`View`) is its tail, closure, deadline, producer states and `Stream-Seq`, as seen through
the pending overlay, the cache and the store (`pendView`). Planning one append

- only fills the cache (`Loads`), which leaves the view as it is (`Loads.pendView`);
- accepts exactly the appends that the view accepts (`View.Accepts`, `planAppend_cases`), and then moves the view by
  `View.apply` (`pendView_accept`);
- answers 2xx without accepting exactly the no-ops (`View.IsNoop`, `View.Noop`).
-/

namespace Yasdb

open Batch Function Option

/-! ## Loading the cache -/

section Loads

variable (flt : Faults) (db : Store)

/-- The producer state that the streamer knows or would load. -/
def producerOf (s : Streamer) (pid : Bytes) : Option ProducerState :=
  (s.producers pid).getD (if flt (.producerKey s.id pid) then none else db.producerAt s.id pid)

/-- The `Stream-Seq` that the streamer knows or would load. -/
def writerSeqOf (s : Streamer) : Bytes :=
  s.writerSeq.getD (if flt (.writerSeqKey s.id) then [] else (db.writerSeqAt s.id).getD [])

/-- `s'` is `s` with more of the store in its cache. -/
structure Loads (s s' : Streamer) : Prop where
  path : s'.path = s.path
  id : s'.id = s.id
  streamMeta : s'.streamMeta = s.streamMeta
  writeTail : s'.writeTail = s.writeTail
  tail : s'.tail = s.tail
  closed : s'.closed = s.closed
  producers : ∀ pid, s'.producers pid = s.producers pid ∨ s'.producers pid = some (producerOf flt db s pid)
  writerSeq : s'.writerSeq = s.writerSeq ∨ s'.writerSeq = some (writerSeqOf flt db s)

variable {flt db}

section

variable (s : Streamer)

theorem loadProducer_eq (pid : Bytes) :
    loadProducer flt db s pid = (s.setProducer pid (producerOf flt db s pid), producerOf flt db s pid) := by
  unfold loadProducer producerOf
  cases h : s.producers pid with
  | some st =>
    have : s.setProducer pid st = s := by
      unfold Streamer.setProducer
      rw [← h, update_eq_self]
    simp [this]
  | none =>
    by_cases hf : flt (.producerKey s.id pid) = true
    · simp [Store.get, hf]
    · simp only [Store.get, hf, getD_none]
      unfold Store.producerAt
      cases db.lookup (.producerKey s.id pid) <;> rfl

theorem loadWriterSeq_eq : loadWriterSeq flt db s = (s.setWriterSeq (writerSeqOf flt db s), writerSeqOf flt db s) := by
  unfold loadWriterSeq writerSeqOf
  cases h : s.writerSeq with
  | some v =>
    have : s.setWriterSeq v = s := by unfold Streamer.setWriterSeq; rw [← h]
    simp [this]
  | none =>
    by_cases hf : flt (.writerSeqKey s.id) = true
    · simp [Store.get, hf]
    · simp only [Store.get, hf, getD_none]
      unfold Store.writerSeqAt
      cases db.lookup (.writerSeqKey s.id) <;> rfl

theorem Loads.refl : Loads flt db s s :=
  ⟨rfl, rfl, rfl, rfl, rfl, rfl, fun _ => .inl rfl, .inl rfl⟩

theorem loads_setProducer (pid : Bytes) : Loads flt db s (s.setProducer pid (producerOf flt db s pid)) := by
  refine ⟨rfl, rfl, rfl, rfl, rfl, rfl, fun q => ?_, .inl rfl⟩
  by_cases h : q = pid
  · subst h; exact .inr (update_self ..)
  · exact .inl (update_of_ne h ..)

theorem loads_setWriterSeq : Loads flt db s (s.setWriterSeq (writerSeqOf flt db s)) :=
  ⟨rfl, rfl, rfl, rfl, rfl, rfl, fun _ => .inl rfl, .inr rfl⟩

end

theorem Loads.producerOf {s s' : Streamer} (h : Loads flt db s s') (pid : Bytes) :
    producerOf flt db s' pid = producerOf flt db s pid := by
  rcases h.producers pid with hp | hp
  · simp only [Yasdb.producerOf, hp, h.id]
  · simp only [Yasdb.producerOf, hp, getD_some]

theorem Loads.writerSeqOf {s s' : Streamer} (h : Loads flt db s s') : writerSeqOf flt db s' = writerSeqOf flt db s := by
  rcases h.writerSeq with hp | hp
  · simp only [Yasdb.writerSeqOf, hp, h.id]
  · simp only [Yasdb.writerSeqOf, hp, getD_some]

theorem Loads.trans {s s' s'' : Streamer} (h : Loads flt db s s') (h' : Loads flt db s' s'') : Loads flt db s s'' := by
  refine ⟨h'.path.trans h.path, h'.id.trans h.id, h'.streamMeta.trans h.streamMeta, h'.writeTail.trans h.writeTail,
    h'.tail.trans h.tail, h'.closed.trans h.closed, fun pid => ?_, ?_⟩
  · rcases h'.producers pid with hp | hp
    · rw [hp]; exact h.producers pid
    · right; rw [hp, h.producerOf]
  · rcases h'.writerSeq with hp | hp
    · rw [hp]; exact h.writerSeq
    · right; rw [hp, h.writerSeqOf]

theorem Loads.producers_some {s s' : Streamer} (h : Loads flt db s s') {pid : Bytes} {r : Option ProducerState}
    (hr : s.producers pid = some r) : s'.producers pid = some r := by
  rcases h.producers pid with hp | hp
  · rw [hp, hr]
  · rw [hp, Yasdb.producerOf, hr]; rfl

end Loads

/-! ## The writer's view -/

/-- A stream as its writer sees it. -/
@[ext] structure View where
  contentType : Bytes
  ttlSeconds : UInt64
  tail : Nat
  closed : Bool
  deadline : UInt64
  producers : Bytes → Option ProducerState
  writerSeq : Bytes

/-- The deadline after an accepted append. -/
def slideDeadline (now : Int64) (ttlSecs deadline : UInt64) : UInt64 :=
  if ttlSecs = 0 then deadline
  else if now.toUInt64 + ttlSecs < deadline then deadline else now.toUInt64 + ttlSecs + ttlGran ttlSecs

theorem slideTTL_eq (pend : PendingBurst) (ttlSecs : UInt64) :
    slideTTL pend ttlSecs = { pend with deadline := slideDeadline pend.now ttlSecs pend.deadline } := by
  unfold slideTTL slideDeadline
  split
  · rfl
  · dsimp only; split <;> rfl

theorem slideDeadline_eq_or (now : Int64) (ttlSecs d : UInt64) : slideDeadline now ttlSecs d = d ∨
      (ttlSecs ≠ 0 ∧ slideDeadline now ttlSecs d = now.toUInt64 + ttlSecs + ttlGran ttlSecs) := by
  unfold slideDeadline
  split
  · exact .inl rfl
  · rename_i h
    split
    · exact .inl rfl
    · exact .inr ⟨h, rfl⟩

theorem slideDeadline_idem (now : Int64) (ttlSecs d : UInt64) :
    slideDeadline now ttlSecs (slideDeadline now ttlSecs d) = slideDeadline now ttlSecs d := by
  rcases slideDeadline_eq_or now ttlSecs d with h | ⟨h0, h⟩
  · rw [h, h]
  · rw [h]
    unfold slideDeadline
    rw [if_neg h0]
    split <;> rfl

namespace View

variable (L : GoLib)

/-- The appends that the view accepts. -/
structure Accepts (v : View) (req : AppendReq) : Prop where
  opened : v.closed = false
  contentType : req.hasBody = true → contentTypeMatches L v.contentType req.contentType = true
  producer : ∀ h, req.producer = some h → Follows (v.producers h.id) h.epoch h.seq
  streamSeq : ∀ q, req.streamSeq = some q → v.writerSeq < q

/-- The producer state that an accepted append leaves. -/
def newProd (req : AppendReq) : Option ProducerState := req.producer.map fun h => ⟨h.epoch, h.seq, req.closeStream⟩

/-- The view after an accepted append. -/
def apply (now : Int64) (v : View) (req : AppendReq) : View :=
  { v with
    tail := v.tail + req.records.length
    closed := v.closed || req.closeStream
    deadline := slideDeadline now v.ttlSeconds v.deadline
    producers := match req.producer with
      | some h => update v.producers h.id (some ⟨h.epoch, h.seq, req.closeStream⟩)
      | none => v.producers
    writerSeq := req.streamSeq.getD v.writerSeq }

/-- A 2xx answer that changes nothing: a duplicate of an append that the view covers, or an append without body to a
closed stream. -/
inductive Noop (v : View) (req : AppendReq) : AppendResp → Prop
  | duplicate (h : ProducerHeaders) (p : ProducerState) (hp : req.producer = some h)
      (hv : v.producers h.id = some p) (hc : Covers (some p) h.epoch h.seq) :
      Noop v req { status := 204, nextOffset := tailOffset v.tail, closed := v.closed
                   producerEpoch := some p.epoch, producerSeq := some p.lastSeq }
  | closed (hc : v.closed = true) (hb : req.hasBody = false) :
      Noop v req { status := 204, nextOffset := tailOffset v.tail, closed := true }

/-- The appends that the view answers as no-ops. -/
def IsNoop (v : View) (req : AppendReq) : Prop :=
  (v.closed = true ∧ req.hasBody = false) ∨
    ((v.closed = false → req.hasBody = true → contentTypeMatches L v.contentType req.contentType = true) ∧
      ∃ h, req.producer = some h ∧ Covers (v.producers h.id) h.epoch h.seq)

theorem Accepts.not_isNoop {L : GoLib} {v : View} {req : AppendReq} (ha : v.Accepts L req) : ¬ v.IsNoop L req := by
  rintro (⟨hc, -⟩ | ⟨-, h, hp, hcov⟩)
  · rw [ha.opened] at hc; cases hc
  · exact (ha.producer h hp).not_covers hcov

/-- A rejection. -/
def Rejects (resp : AppendResp) : Prop := resp.status ≠ 200 ∧ resp.status ≠ 204

end View

/-- The view through the pending overlay. -/
def pendView (flt : Faults) (db : Store) (s : Streamer) (pend : PendingBurst) : View where
  contentType := s.streamMeta.contentType
  ttlSeconds := s.streamMeta.ttlSeconds
  tail := pend.tail
  closed := pend.closed
  deadline := pend.deadline
  producers := fun pid => (pend.producers.lookup pid).or (producerOf flt db s pid)
  writerSeq := pend.writerSeq.getD (writerSeqOf flt db s)

/-- The view of the committed state. -/
def viewOf (flt : Faults) (db : Store) (s : Streamer) : View where
  contentType := s.streamMeta.contentType
  ttlSeconds := s.streamMeta.ttlSeconds
  tail := s.writeTail
  closed := s.streamMeta.closed
  deadline := s.streamMeta.deadline
  producers := producerOf flt db s
  writerSeq := writerSeqOf flt db s

section Fields

variable (flt : Faults) (db : Store) (s : Streamer) (pend : PendingBurst)

@[simp] theorem pendView_contentType : (pendView flt db s pend).contentType = s.streamMeta.contentType := rfl

@[simp] theorem pendView_ttlSeconds : (pendView flt db s pend).ttlSeconds = s.streamMeta.ttlSeconds := rfl

@[simp] theorem pendView_tail : (pendView flt db s pend).tail = pend.tail := rfl

@[simp] theorem pendView_closed : (pendView flt db s pend).closed = pend.closed := rfl

@[simp] theorem pendView_deadline : (pendView flt db s pend).deadline = pend.deadline := rfl

theorem pendView_producers (pid : Bytes) :
    (pendView flt db s pend).producers pid = (pend.producers.lookup pid).or (producerOf flt db s pid) := rfl

theorem pendView_writerSeq : (pendView flt db s pend).writerSeq = pend.writerSeq.getD (writerSeqOf flt db s) := rfl

end Fields

theorem pendView_newPending (flt : Faults) (db : Store) (s : Streamer) (now : Int64) :
    pendView flt db s (newPending s now) = viewOf flt db s := by
  ext <;> simp [pendView, viewOf, newPending]

theorem Loads.pendView {flt : Faults} {db : Store} {s s' : Streamer} (h : Loads flt db s s') (pend : PendingBurst) :
    pendView flt db s' pend = pendView flt db s pend := by
  ext <;> simp [Yasdb.pendView, h.streamMeta, h.producerOf, h.writerSeqOf]

/-! ## Planning one append -/

section Plan

variable (L : GoLib) (flt : Faults) (db : Store)

section

variable (s : Streamer)

theorem effProducer_spec (pend : PendingBurst) (pid : Bytes) :
    ∃ s', Loads flt db s s' ∧ effProducer flt db s pend pid = (s', (pendView flt db s pend).producers pid) := by
  rw [pendView_producers]
  unfold effProducer
  cases pend.producers.lookup pid with
  | some ps => exact ⟨s, Loads.refl s, rfl⟩
  | none => exact ⟨_, loads_setProducer s pid, by simp [loadProducer_eq]⟩

theorem effWriterSeq_spec (pend : PendingBurst) :
    ∃ s', Loads flt db s s' ∧ effWriterSeq flt db s pend = (s', (pendView flt db s pend).writerSeq) := by
  rw [pendView_writerSeq]
  unfold effWriterSeq
  cases pend.writerSeq with
  | some v => exact ⟨s, Loads.refl s, rfl⟩
  | none => exact ⟨_, loads_setWriterSeq s, by simp [loadWriterSeq_eq]⟩

/-- Appends to a closed stream are no-ops or rejected. -/
theorem planAppendClosed_spec {pend : PendingBurst} (hc : pend.closed = true)
    (req : AppendReq) :
    ∃ s' resp, Loads flt db s s' ∧ planAppendClosed flt db s pend req = (s', resp) ∧
      (((pendView flt db s pend).Noop req resp ∧ (pendView flt db s pend).IsNoop L req) ∨
        (View.Rejects resp ∧ ¬ (pendView flt db s pend).IsNoop L req)) := by
  unfold planAppendClosed
  by_cases hb : req.hasBody = false
  · rw [if_pos hb]
    exact ⟨s, _, Loads.refl s, rfl, .inl ⟨.closed hc hb, .inl ⟨hc, hb⟩⟩⟩
  · rw [if_neg hb]
    cases hp : req.producer with
    | none =>
      refine ⟨s, _, Loads.refl s, rfl, .inr ⟨by simp [View.Rejects], ?_⟩⟩
      simp [View.IsNoop, hb, hp]
    | some h =>
      obtain ⟨s', hl, he⟩ := effProducer_spec flt db s pend h.id
      dsimp only
      rw [he]
      by_cases hd : validateProducer ((pendView flt db s pend).producers h.id) h = .pDuplicate
      · rw [if_pos hd]
        have hcov := validateProducer_duplicate.mp hd
        obtain ⟨p, hpv, hp'⟩ := hcov
        refine ⟨s', _, hl, rfl, .inl ⟨?_, .inr ⟨by simp [hc], h, hp, p, hpv, hp'⟩⟩⟩
        have hn : (pendView flt db s pend).Noop req _ := .duplicate h p hp hpv ⟨p, rfl, hp'⟩
        simpa [hpv, hc] using hn
      · rw [if_neg hd]
        refine ⟨s', _, hl, rfl, .inr ⟨by simp [View.Rejects], ?_⟩⟩
        rw [validateProducer_duplicate] at hd
        simp [View.IsNoop, hb, hp, hd]

/-- Producer validation passes exactly the appends that follow the producer state of the view, and answers as no-ops
exactly those that it covers. -/
theorem planProducer_spec (pend : PendingBurst) (req : AppendReq) : ∃ s', Loads flt db s s' ∧
      ((planProducer flt db s pend req = (s', .ok (View.newProd req)) ∧
          ∀ h, req.producer = some h → Follows ((pendView flt db s pend).producers h.id) h.epoch h.seq) ∨
        ∃ resp h, planProducer flt db s pend req = (s', .error resp) ∧ req.producer = some h ∧
          ¬ Follows ((pendView flt db s pend).producers h.id) h.epoch h.seq ∧
          (((pendView flt db s pend).Noop req resp ∧ Covers ((pendView flt db s pend).producers h.id) h.epoch h.seq) ∨
            (View.Rejects resp ∧ ¬ Covers ((pendView flt db s pend).producers h.id) h.epoch h.seq))) := by
  unfold planProducer View.newProd
  cases hp : req.producer with
  | none => exact ⟨s, Loads.refl s, .inl ⟨rfl, nofun⟩⟩
  | some h =>
    obtain ⟨s', hl, he⟩ := effProducer_spec flt db s pend h.id
    dsimp only
    rw [he]
    have hnf : (∀ ns, validateProducer ((pendView flt db s pend).producers h.id) h ≠ .pAccept ns) →
        ¬ Follows ((pendView flt db s pend).producers h.id) h.epoch h.seq :=
      fun hne hf => hne _ (validateProducer_accept.mpr ⟨hf, rfl⟩)
    have hnc : validateProducer ((pendView flt db s pend).producers h.id) h ≠ .pDuplicate →
        ¬ Covers ((pendView flt db s pend).producers h.id) h.epoch h.seq :=
      fun hne hc => hne (validateProducer_duplicate.mpr hc)
    refine ⟨s', hl, ?_⟩
    cases ha : validateProducer ((pendView flt db s pend).producers h.id) h with
    | pAccept ns =>
      obtain ⟨hf, hns⟩ := validateProducer_accept.mp ha
      refine .inl ⟨by rw [hns]; rfl, fun h' hh => ?_⟩
      cases hh; exact hf
    | pDuplicate =>
      obtain ⟨p, hpv, hcov⟩ := validateProducer_duplicate.mp ha
      refine .inr ⟨_, h, rfl, rfl, hnf (by rw [ha]; simp), .inl ⟨?_, p, hpv, hcov⟩⟩
      have hn : (pendView flt db s pend).Noop req _ := .duplicate h p hp hpv ⟨p, rfl, hcov⟩
      simpa [hpv] using hn
    | _ =>
      exact .inr ⟨_, h, rfl, rfl, hnf (by rw [ha]; simp), .inr ⟨by simp [View.Rejects], hnc (by rw [ha]; simp)⟩⟩

theorem planStreamSeq_spec (pend : PendingBurst) (req : AppendReq) : ∃ s', Loads flt db s s' ∧
      planStreamSeq flt db s pend req =
        (s', decide (∀ q, req.streamSeq = some q → (pendView flt db s pend).writerSeq < q)) := by
  unfold planStreamSeq
  cases hq : req.streamSeq with
  | none => exact ⟨s, Loads.refl s, by simp⟩
  | some v =>
    obtain ⟨s', hl, he⟩ := effWriterSeq_spec flt db s pend
    rw [he]
    refine ⟨s', hl, ?_⟩
    dsimp only
    rw [← decide_not, Prod.mk.injEq, decide_eq_decide]
    refine ⟨rfl, fun h q hq' => ?_, fun h => List.not_le.mpr (h v rfl)⟩
    cases hq'; exact List.not_le.mp h

end

/-- The outcomes of planning one append. -/
inductive PlanResult (s : Streamer) (pend : PendingBurst) (req : AppendReq) :
    Streamer × PendingBurst × AppendResp × Bool → Prop
  | accept (s' : Streamer) (hl : Loads flt db s s') (ha : (pendView flt db s pend).Accepts L req) :
      PlanResult s pend req (s', acceptPending s' pend req (View.newProd req), acceptResp pend req, true)
  | noop (s' : Streamer) (resp : AppendResp) (hl : Loads flt db s s') (hn : (pendView flt db s pend).Noop req resp)
      (hi : (pendView flt db s pend).IsNoop L req) : PlanResult s pend req (s', pend, resp, false)
  | reject (s' : Streamer) (resp : AppendResp) (hl : Loads flt db s s') (hr : View.Rejects resp)
      (ha : ¬ (pendView flt db s pend).Accepts L req) (hi : ¬ (pendView flt db s pend).IsNoop L req) :
      PlanResult s pend req (s', pend, resp, false)

/-- **Planning one append**: every outcome, with what it says about the view. -/
theorem planAppend_cases (s : Streamer) (pend : PendingBurst) (req : AppendReq) :
    PlanResult L flt db s pend req (planAppend L flt db s pend req) := by
  unfold planAppend
  by_cases hc : pend.closed = true
  · have hna : ¬ (pendView flt db s pend).Accepts L req := fun ha => by simpa [hc] using ha.opened
    obtain ⟨s', resp, hl, he, ⟨hn, hi⟩ | ⟨hr, hi⟩⟩ := planAppendClosed_spec L flt db s hc req
    · rw [if_pos hc, he]; exact .noop s' resp hl hn hi
    · rw [if_pos hc, he]; exact .reject s' resp hl hr hna hi
  rw [if_neg hc]
  have hopen : (pendView flt db s pend).closed = false := by simpa using hc
  by_cases hct : (req.hasBody && !contentTypeMatches L s.streamMeta.contentType req.contentType) = true
  · rw [if_pos hct]
    simp only [Bool.and_eq_true, Bool.not_eq_true'] at hct
    refine .reject s _ (Loads.refl s) (by simp [View.Rejects]) (fun ha => ?_) ?_
    · simpa [hct.2] using ha.contentType hct.1
    · simp [View.IsNoop, hc, hct.1, hct.2]
  rw [if_neg hct]
  have hct' : req.hasBody = true → contentTypeMatches L (pendView flt db s pend).contentType req.contentType = true :=
    fun hb => by simpa [hb] using hct
  obtain ⟨s₁, hl₁, ⟨he, hf⟩ | ⟨resp, h, he, hp, hnf, hr⟩⟩ := planProducer_spec flt db s pend req
  · rw [he]
    dsimp only
    obtain ⟨s₂, hl₂, he₂⟩ := planStreamSeq_spec flt db s₁ pend req
    rw [hl₁.pendView] at he₂
    rw [he₂]
    by_cases hq : ∀ q, req.streamSeq = some q → (pendView flt db s pend).writerSeq < q
    · rw [decide_eq_true hq]
      exact .accept s₂ (hl₁.trans hl₂) ⟨hopen, hct', hf, hq⟩
    · rw [decide_eq_false hq]
      refine .reject s₂ _ (hl₁.trans hl₂) (by simp [View.Rejects]) (fun ha => hq ha.streamSeq) ?_
      rintro (⟨hcl, -⟩ | ⟨-, h, hp, hcov⟩)
      · rw [hopen] at hcl; cases hcl
      · exact (hf h hp).not_covers hcov
  · rw [he]
    rcases hr with ⟨hn, hcov⟩ | ⟨hr, hcov⟩
    · exact .noop s₁ resp hl₁ hn (.inr ⟨fun _ => hct', h, hp, hcov⟩)
    · refine .reject s₁ resp hl₁ hr (fun ha => hnf (ha.producer h hp)) ?_
      rintro (⟨hcl, -⟩ | ⟨-, h', hp', hcov'⟩)
      · rw [hopen] at hcl; cases hcl
      · rw [hp] at hp'; cases hp'; exact hcov hcov'

theorem pendView_accept (s : Streamer) (pend : PendingBurst) (req : AppendReq) :
    pendView flt db s (acceptPending s pend req (View.newProd req)) = (pendView flt db s pend).apply pend.now req := by
  unfold acceptPending
  rw [slideTTL_eq]
  ext pid
  · rfl
  · rfl
  · rfl
  · rfl
  · rfl
  · simp only [pendView, View.apply, View.newProd]
    cases hp : req.producer with
    | none => rfl
    | some h =>
      dsimp only [map_some]
      by_cases hpid : pid = h.id
      · subst hpid; simp
      · rw [AList.lookup_insert_ne hpid, update_of_ne hpid]
  · simp only [pendView, View.apply]
    cases req.streamSeq <;> rfl

end Plan

end Yasdb
