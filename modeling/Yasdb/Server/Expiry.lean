import Yasdb.Server.Provenance

/-!
# Deadlines and the expiry index

A stream with a TTL expires at its stored deadline, which its creation sets and its accepted appends and refreshes move
forward; the expiry index has an entry for each deadline.

- `ServerInv.dates`: what a step does to the deadlines and their entries;
- `expiry_index_exact`: the index has exactly the entries of the stored deadlines;
- `never_early`: a deadline lies more than the TTL after the last use of its stream.
-/

namespace Yasdb

open Batch Runs List Option Server UInt64 Ne Nat View StreamMeta Store

variable {flt : Faults} {path : Bytes} {m : StreamMeta} {batch : List AppendReq} {ok : Bool} {extra : List Op}

/-! ## Sliding a deadline -/

theorem ttlGran_pos (ttl : UInt64) : 0 < (ttlGran ttl).toNat ∧ (ttlGran ttl).toNat ≤ 600 := by
  unfold ttlGran
  dsimp only
  split
  · decide
  · split
    · decide
    · simp only [lt_iff_toNat_lt, gt_iff_lt, reduceToNat] at *
      omega

/-- The padded deadline fits. -/
def Pads (now : Int64) (ttl : UInt64) : Prop := (now.toUInt64 + ttl).toNat + (ttlGran ttl).toNat < 2 ^ 64

section Slide

variable {now : Int64} {ttl d : UInt64} (hp : Pads now ttl)
include hp

theorem Pads.toNat : (now.toUInt64 + ttl + ttlGran ttl).toNat = (now.toUInt64 + ttl).toNat + (ttlGran ttl).toNat := by
  rw [UInt64.toNat_add, mod_eq_of_lt hp]

theorem lt_slideDeadline (h0 : ttl ≠ 0) : (now.toUInt64 + ttl).toNat < (slideDeadline now ttl d).toNat := by
  unfold slideDeadline
  rw [if_neg h0]
  split
  · rename_i h
    exact lt_iff_toNat_lt.mp h
  · have := (ttlGran_pos ttl).1
    rw [hp.toNat]
    omega

theorem le_slideDeadline : d.toNat ≤ (slideDeadline now ttl d).toNat := by
  unfold slideDeadline
  split
  · rfl
  · split
    · rfl
    · rename_i h
      rw [UInt64.not_lt, UInt64.le_iff_toNat_le] at h
      rw [hp.toNat]
      omega

theorem slideDeadline_pos (hne : slideDeadline now ttl d ≠ d) : 0 < slideDeadline now ttl d := by
  have h0 : ttl ≠ 0 := by
    rintro rfl
    exact hne rfl
  exact lt_iff_toNat_lt.mpr (zero_lt_of_lt (lt_slideDeadline hp h0))

end Slide

variable {L : GoLib} {now : Int64} {srv : Server}

theorem View.Answered.deadline {v : View} {rs : List AppendResp} {as : List Bool}
    (h : Answered L now v batch rs as) : (v.after L now batch).deadline =
      if as.any id then slideDeadline now v.ttlSeconds v.deadline else v.deadline := by
  induction h with
  | nil v => rfl
  | accept ha _ ih =>
    rw [after_cons_accept ha, ih]
    simp [apply, slideDeadline_idem]
  | noop _ hi _ ih =>
    rw [after_cons_not fun ha => ha.not_isNoop hi, ih]
    simp
  | reject _ ha _ _ ih =>
    rw [after_cons_not ha, ih]
    simp

/-! ## What a step does to the deadlines -/

/-- A use that counts for the TTL of a stream: its creation, an accepted append, a refresh. -/
structure Mark where
  id : Nat
  ttl : UInt64
  now : Int64
deriving DecidableEq, Repr

/-- The use that a step makes, if its commit succeeds. -/
def Server.mark (L : GoLib) (srv : Server) (e : Event) : Option Mark :=
  if e.ok = false then none
  else
    match e.action with
    | .createStream p now nowMs =>
      match createStream L e.flt srv.db srv.nextID now nowMs p with
      | .ok _ => some ⟨srv.nextID, if p.ttlSet then p.ttl else 0, now⟩
      | .error _ => none
    | .createFork p now nowMs =>
      match createFork L e.flt srv.db srv.nextID now nowMs p with
      | .ok _ => (srv.db.metaAt p.sourcePath).map fun src => ⟨srv.nextID, (forkTTL src p).1, now⟩
      | .error _ => none
    | .burst path now batch =>
      (srv.registry path).bind fun s =>
        if (planBatch L e.flt srv.db s (newPending s now) batch).accepted.any id then
          some ⟨s.id, s.streamMeta.ttlSeconds, now⟩
        else none
    | .touch path now => (srv.registry path).map fun s => ⟨s.id, s.streamMeta.ttlSeconds, now⟩
    | _ => none

/-- From `db` to `db'`, the deadline of a streamer's stream becomes `d`, and its entry moves along. -/
structure Slides (s : Streamer) (d : UInt64) (db db' : Store) : Prop where
  others : ∀ p, p ≠ s.path → db'.metaAt p = db.metaAt p
  own : ∃ m, db'.metaAt s.path = some m ∧ m.streamID = s.id ∧ m.ttlSeconds = s.streamMeta.ttlSeconds ∧ m.deadline = d
  entries : ∀ d' i, db'.lookup (.expiryKey d' i) =
    (if i = s.id ∧ d ≠ s.streamMeta.deadline then
      if d' = s.streamMeta.deadline ∧ s.streamMeta.deadline > 0 then some none
      else if d' = d then some (some s.streamMeta.ttlSeconds) else none
    else none).getD (db.lookup (.expiryKey d' i))

namespace Server

/-- What a step does to the deadlines. -/
inductive Dates (L : GoLib) (srv : Server) (e : Event) (srv' : Server) : Prop where
  | kept (hmark : srv.mark L e = none)
      (hk : ∀ k : Key, k.keyType = 1 ∨ k.keyType = 7 → srv'.db.lookup k = srv.db.lookup k)
  | dropped (hmark : srv.mark L e = none) {d : UInt64} {i : Nat}
      (hstale : ∀ p m, srv.db.metaAt p = some m → m.streamID = i → m.deadline ≠ d)
      (hdb : srv'.db = applyOps srv.db [Op.del (.expiryKey d i)])
  | created {path : Bytes} {m : StreamMeta} {start : Nat} {records : List Bytes} {now : Int64} {extra : List Op}
      (hmark : srv.mark L e = some ⟨m.streamID, m.ttlSeconds, now⟩) (hid : m.streamID = srv.nextID)
      (hfree : srv.db.metaAt path = none) (hx : ∀ op ∈ extra, op.key.keyType = 10)
      (hd : 0 < m.ttlSeconds → m.deadline = now.toUInt64 + m.ttlSeconds + 1)
      (hdb : srv'.db = applyOps srv.db (createOps path m start records now ++ extra))
  | slid {path : Bytes} {s : Streamer} {d : UInt64} (hs : srv.registry path = some s) (h : Slides s d srv.db srv'.db)
      (hd : (srv.mark L e = none ∧ d = s.streamMeta.deadline) ∨ ∃ now,
        srv.mark L e = some ⟨s.id, s.streamMeta.ttlSeconds, now⟩ ∧
          d = slideDeadline now s.streamMeta.ttlSeconds s.streamMeta.deadline)
  | deleted (hmark : srv.mark L e = none) {path : Bytes} {m : StreamMeta} (why : Cause srv e path m)
      (h : Deleted srv srv' e.ok path m)
  | restarted (hmark : srv.mark L e = none) {lost seen : Nat} (hcrash : e.action = .crash lost seen) {db : Store}
      (hdb : (srv.db :: srv.unsynced)[lost]? = some db) (hs : srv' = newServer db seen)

variable {srv : Server}

/-! ## Streamers -/

variable {db : Store} {s : Streamer}

section

variable (ha : Attached db s)
include ha

theorem slides_refl : Slides s s.streamMeta.deadline db db :=
  ⟨fun _ _ => rfl, ⟨_, ha.streamMeta, ha.id, rfl, rfl⟩, fun d' i => by simp⟩

theorem slides_burst {L : GoLib} {s₁ : Streamer} {now : Int64} {c : CommitBurst}
    (hb : processBurst L flt db now s batch = (s₁, .commit c)) :
    Slides s c.pend.deadline db (applyOps db c.ops) := by
  obtain ⟨hl, -, p, -, rfl, rfl, hn, hP⟩ := processBurst_commit hb
  have hw := (ha.loads hl).settled hP false
  rw [settleOps, if_neg (by simp [hn])] at hw
  refine ⟨fun q hq => ?_, ⟨burstMeta p.st p.pend, hl.path ▸ hw.streamMeta, hl.id ▸ hw.id, ?_, rfl⟩, fun d' i => ?_⟩
  · rw [← hl.path] at hq
    show (applyOps db (burstOps p.st p.pend p.metaChanged)).lookup (.metaKey q) = _
    rw [lookup_applyOps, effect_burstOps_meta hP.records, if_neg fun h => hq h.1]
    rfl
  · rw [← hl.streamMeta]
    rfl
  · show (applyOps db (burstOps p.st p.pend p.metaChanged)).lookup (.expiryKey d' i) = _
    rw [lookup_applyOps, effect_burstOps_expiry hP.records, hl.id, hl.streamMeta]
    rfl

theorem slides_touch {d : UInt64} (hd : d ≠ s.streamMeta.deadline) : Slides s d db (applyOps db (touchOps s d)) := by
  refine ⟨fun q hq => lookup_touchOps db (by simp) (by simpa using hq),
    ⟨_, metaAt_touchOps db s d, ha.id, rfl, rfl⟩, fun d' i => ?_⟩
  rw [lookup_applyOps]
  congr 1
  unfold touchOps
  by_cases hi : i = s.id
  · subst hi
    by_cases h0 : s.streamMeta.deadline > 0
    · by_cases h1 : d' = s.streamMeta.deadline
      · subst h1
        simp [hd, hd.symm, h0]
      · by_cases h2 : d' = d
        · subst h2
          simp [hd, hd.symm, h0]
        · simp [hd, hd.symm, h0, h1, h2, symm h1, symm h2]
    · by_cases h2 : d' = d
      · subst h2
        simp [hd, h0]
      · simp [h0, h2, symm h2]
  · by_cases h0 : s.streamMeta.deadline > 0 ∧ s.streamMeta.deadline ≠ d
    · simp [h0, hi, symm hi]
    · simp [h0, hi, symm hi]

end

/-- What a burst plans for the deadline goes by the use it makes. -/
theorem planned_deadline (L : GoLib) (hs : srv.registry path = some s) (flt : Faults) (now : Int64)
    (batch : List AppendReq) :
    (srv.mark L ⟨.burst path now batch, flt, true⟩ = none ∧
      (planBatch L flt srv.db s (newPending s now) batch).pend.deadline = s.streamMeta.deadline) ∨
    ∃ now', srv.mark L ⟨.burst path now batch, flt, true⟩ = some ⟨s.id, s.streamMeta.ttlSeconds, now'⟩ ∧
      (planBatch L flt srv.db s (newPending s now) batch).pend.deadline =
        slideDeadline now' s.streamMeta.ttlSeconds s.streamMeta.deadline := by
  have hplan := planBatch_plans L flt srv.db batch s (newPending s now)
  have hans := hplan.answered
  have hview := hplan.view
  rw [pendView_newPending] at hans hview
  generalize hp : planBatch L flt srv.db s (newPending s now) batch = p at hans hview
  have hdl : p.pend.deadline = _ := (congrArg View.deadline hview).trans hans.deadline
  have hmark : srv.mark L ⟨.burst path now batch, flt, true⟩ =
      if p.accepted.any id then some ⟨s.id, s.streamMeta.ttlSeconds, now⟩ else none := by
    simp [mark, hs, hp]
  rw [hmark, hdl]
  split
  · exact .inr ⟨now, rfl, rfl⟩
  · exact .inl ⟨rfl, rfl⟩

section Steps

variable (h : ServerInv srv) (L : GoLib)
include h

theorem dates_replied {s s' : Streamer} (hs : srv.registry path = some s)
    {now : Int64}
    (hn : ok = true → ∃ rs, processBurst L flt srv.db now s batch = (s', .reply rs)) :
    Dates L srv ⟨.burst path now batch, flt, ok⟩ (srv.setStreamer path s') := by
  refine .slid hs (slides_refl (h.resident path s hs).2) ?_
  cases ok with
  | false => exact .inl ⟨rfl, rfl⟩
  | true =>
    obtain ⟨rs, hb⟩ := hn rfl
    rcases processBurst_cases L flt srv.db now s batch with ⟨hnone, -⟩ | ⟨-, he⟩
    · have hsame : (planBatch L flt srv.db s (newPending s now) batch).pend.deadline = s.streamMeta.deadline :=
        (nothing_iff.mp hnone).2.2.2.2.trans
          (congrArg StreamMeta.deadline (planBatch_plans L flt srv.db batch s (newPending s now)).loads.streamMeta)
      rcases planned_deadline L hs flt now batch with ⟨hm, -⟩ | ⟨now', hm, hd⟩
      · exact .inl ⟨hm, rfl⟩
      · exact .inr ⟨now', hm, hsame.symm.trans hd⟩
    · cases hb.symm.trans he

theorem dates_touch {s : Streamer} (hs : srv.registry path = some s) {now : Int64}
    {d : UInt64} (hd : d = slideDeadline now s.streamMeta.ttlSeconds s.streamMeta.deadline)
    (hle : ¬ now.toUInt64 + s.streamMeta.ttlSeconds < s.streamMeta.deadline) (h0 : s.streamMeta.ttlSeconds ≠ 0)
    (hpad : Pads now s.streamMeta.ttlSeconds) :
    Dates L srv ⟨.touch path now, flt, true⟩
      ((srv.commit false (touchOps s d)).setStreamer path (s.setDeadline d)) := by
  refine .slid hs (slides_touch (h.resident path s hs).2 fun he => ?_) (.inr ⟨now, by simp [mark, hs], hd⟩)
  have := lt_slideDeadline (d := s.streamMeta.deadline) hpad h0
  rw [← hd, he] at this
  exact hle (lt_iff_toNat_lt.mpr this)

/-! ## Creation -/

omit h in
theorem dates_createStream (flt : Faults) (ok : Bool) (p : CreateParams) (now nowMs : Int64) : Dates L srv
    ⟨.createStream p now nowMs, flt, ok⟩ (srv.create ok (createStream L flt srv.db srv.nextID now nowMs p)) := by
  cases hplan : createStream L flt srv.db srv.nextID now nowMs p with
  | error res => exact .kept (by cases ok <;> simp [mark, hplan]) fun _ _ => rfl
  | ok plan =>
    obtain ⟨ops, res⟩ := plan
    cases ok with
    | false => exact .kept rfl fun _ _ => rfl
    | true =>
      obtain ⟨hfree, records, rfl⟩ := createStream_spec hplan
      have hx : ∀ op ∈ ([] : List Op), op.key.keyType = 10 := nofun
      refine .created (m := newMeta srv.nextID now nowMs p) (by simp [mark, hplan, newMeta]) rfl hfree hx
        (fun hpos => ?_)
        (congrArg (applyOps srv.db) (append_nil _).symm)
      simp only [newMeta] at hpos ⊢
      split at hpos
      · rw [if_pos ‹_›, if_pos ‹_›]
      · exact absurd hpos (lt_irrefl 0)

omit h in
theorem dates_createFork (flt : Faults) (ok : Bool) (p : ForkParams) (now nowMs : Int64) :
    Dates L srv ⟨.createFork p now nowMs, flt, ok⟩
      (srv.create ok (createFork L flt srv.db srv.nextID now nowMs p)) := by
  cases hplan : createFork L flt srv.db srv.nextID now nowMs p with
  | error res => exact .kept (by cases ok <;> simp [mark, hplan]) fun _ _ => rfl
  | ok plan =>
    obtain ⟨ops, res⟩ := plan
    cases ok with
    | false => exact .kept rfl fun _ _ => rfl
    | true =>
      obtain ⟨hfree, src, sourceTail, contentType, div, pre, records, hsrc, -, -, -, -, -, -, -, rfl⟩ :=
        createFork_source hplan
      refine .created (m := newForkMeta srv.nextID now nowMs src p contentType div) ?_ rfl hfree
        (fun op ho => by rw [mem_singleton.mp ho]; rfl) (fun hpos => if_pos hpos) rfl
      simp [mark, hplan, hsrc, newForkMeta]

end Steps

end Server

/-- **What a step does to the deadlines.** -/
theorem ServerInv.dates {srv' : Server} (h : ServerInv srv) {e : Event}
    (hpad : ∀ k, srv.mark L e = some k → k.ttl ≠ 0 → Pads k.now k.ttl) (he : Server.step L srv e = some srv') :
    Dates L srv e srv' := by
  cases stepped he with
  | createStream p now nowMs flt ok => exact Server.dates_createStream L flt ok p now nowMs
  | createFork p now nowMs flt ok => exact dates_createFork L flt ok p now nowMs
  | replied hs _ hn => exact dates_replied h L hs hn
  | @burst path now batch flt s s' c hs hb =>
    refine .slid hs (slides_burst (h.resident path s hs).2 hb) ?_
    obtain ⟨-, -, p, rfl, rfl, rfl, -⟩ := processBurst_commit hb
    exact planned_deadline L hs flt now batch
  | @untouched path now flt ok s hs hd =>
    refine .slid hs (slides_refl (h.resident path s hs).2) ?_
    cases ok with
    | false => exact .inl ⟨rfl, rfl⟩
    | true => exact .inr ⟨now, by simp [mark, hs], (hd rfl).symm⟩
  | @touch path now flt s d hs hd h0 hle =>
    exact dates_touch h L hs hd hle h0 (hpad ⟨s.id, s.streamMeta.ttlSeconds, now⟩ (by simp [mark, hs]) h0)
  | @softDelete path flt ok m =>
    refine .kept (by cases ok <;> rfl) fun k hk => ?_
    cases ok with
    | false => rfl
    | true => exact lookup_single (by rcases hk with hk | hk <;> rw [hk] <;> nofun)
  | @delete path flt ok m hidle hm h0 =>
    exact .deleted (by cases ok <;> rfl) (.asked hidle hm h0) (srv.deleted ok path m)
  | @dropForkRef id flt ok =>
    refine .kept (by cases ok <;> rfl) fun k hk => ?_
    cases ok with
    | false => rfl
    | true => exact lookup_single (by rcases hk with hk | hk <;> rw [hk] <;> nofun)
  | @cascade path m flt ok hheld => exact .deleted (by cases ok <;> rfl) (.next hheld) (srv.deleted ok path m)
  | stale hdue hstale =>
    refine .dropped rfl (fun p m hm hid => hstale p m ?_ hm hid) rfl
    rw [← hid]
    exact h.stored.mapping hm
  | @expire path m dues flt ok hidle hdue hm =>
    have d := deleted { srv with dues := dues } ok path m
    exact .deleted (by cases ok <;> rfl) (.expired hidle hm rfl hdue) ⟨d.db, d.unsynced, d.held⟩
  | noChunk => exact .kept (by simp [mark]) fun k _ => by rw [setPhase_db]
  | chunk _ hb =>
    refine .kept rfl fun k hk => ?_
    rw [setPhase_db]
    exact lookup_chunk hb (by rcases hk with hk | hk <;> rw [hk] <;> decide)
  | crash hdb => exact .restarted (by simp [mark]) rfl hdb rfl
  | _ => exact .kept (by simp [mark]) fun _ _ => rfl

/-! ## The index -/

/-- The expiry index has exactly the entries of the stored deadlines. -/
def Indexed (db : Store) : Prop :=
  ∀ d id, (db.lookup (.expiryKey d id)).isSome = true ↔
    ∃ path m, db.metaAt path = some m ∧ m.streamID = id ∧ m.deadline = d ∧ 0 < d

theorem indexed_empty : Indexed ∅ := fun _ _ => ⟨nofun, fun ⟨_, _, h, _⟩ => nomatch h⟩

section Indexed

variable {db db' : Store} (h : Indexed db)
include h

theorem Indexed.kept (hk : ∀ k : Key, k.keyType = 1 ∨ k.keyType = 7 → db'.lookup k = db.lookup k) : Indexed db' := by
  intro d id
  rw [hk (.expiryKey d id) (.inr rfl)]
  refine (h d id).trans (exists_congr fun path => exists_congr fun m => ?_)
  rw [show db'.metaAt path = db.metaAt path from hk (.metaKey path) (.inl rfl)]

theorem Indexed.dropped {d : UInt64} {i : Nat}
    (hstale : ∀ p m, db.metaAt p = some m → m.streamID = i → m.deadline ≠ d) :
    Indexed (applyOps db [Op.del (.expiryKey d i)]) := by
  refine h.kept fun k hk => ?_
  by_cases hki : k = .expiryKey d i
  · -- the entry was not there
    subst hki
    cases hl : db.lookup (.expiryKey d i) with
    | none => rw [lookup_applyOps]; simp
    | some v =>
      obtain ⟨p, m, hm, hid, hd, -⟩ := (h d i).mp (by rw [hl]; rfl)
      exact absurd hd (hstale p m hm hid)
  · exact lookup_applyOps_ne fun op ho he => hki (by rw [← he, mem_singleton.mp ho]; rfl)

/-- A change to one stream, whose entries are then those of its new deadline. -/
theorem Indexed.one (hc : Catalog db) {id : Nat} (hb : Holds db path id)
    (hothers : ∀ p, p ≠ path → db'.metaAt p = db.metaAt p) (hown : ∀ m, db'.metaAt path = some m → m.streamID = id)
    (hframe : ∀ d i, i ≠ id → db'.lookup (.expiryKey d i) = db.lookup (.expiryKey d i))
    (hentry : ∀ d, (db'.lookup (.expiryKey d id)).isSome = true ↔
      ∃ m, db'.metaAt path = some m ∧ m.deadline = d ∧ 0 < d) : Indexed db' := by
  intro d i
  by_cases hi : i = id
  · subst hi
    rw [hentry d]
    constructor
    · rintro ⟨m, hm, hd⟩
      exact ⟨path, m, hm, hown m hm, hd⟩
    · rintro ⟨p, m, hm, hid, hd⟩
      by_cases hp : p = path
      · subst hp
        exact ⟨m, hm, hd⟩
      · rw [hothers p hp] at hm
        exact absurd hid (hc.ne_of_holds hb hp hm)
  · rw [hframe d i hi, h d i]
    refine exists_congr fun p => exists_congr fun m => ?_
    by_cases hp : p = path
    · subst hp
      constructor
      · rintro ⟨hm, hid, -⟩
        rcases hb with ⟨m', hm', rfl⟩ | ⟨hn, -⟩
        · rw [hm, some.injEq] at hm'
          exact absurd (hid.symm.trans (by rw [hm'])) hi
        · rw [hn] at hm
          cases hm
      · rintro ⟨hm, hid, -⟩
        exact absurd (hid.symm.trans (hown m hm)) hi
    · rw [hothers p hp]

theorem Indexed.own (hc : Catalog db) (hm : db.metaAt path = some m) (d : UInt64) :
    (db.lookup (.expiryKey d m.streamID)).isSome = true ↔ m.deadline = d ∧ 0 < d := by
  rw [h]
  constructor
  · rintro ⟨p, m', hm', hid, hd⟩
    cases hc.path_eq hm' hm hid
    rw [hm, some.injEq] at hm'
    rwa [hm']
  · rintro hd
    exact ⟨path, m, hm, rfl, hd⟩

end Indexed

theorem metaAt_createOps (db : Store) (path : Bytes) (m : StreamMeta) (start : Nat) (records : List Bytes) (now : Int64)
    (hx : ∀ op ∈ extra, op.key.keyType = 10) (p : Bytes) :
    metaAt (applyOps db (createOps path m start records now ++ extra)) p =
      if p = path then some m else db.metaAt p := by
  unfold metaAt
  rw [lookup_applyOps, effect_append, effect_of_class Key.keyType hx (by simp), none_or,
    effect_createOps (by simp) (by simp)]
  by_cases hp : p = path
  · subst hp
    simp
  · simp [hp, symm hp]

theorem effect_createOps_expiry (path : Bytes) (m : StreamMeta) (start : Nat) (records : List Bytes) (now : Int64)
    (hx : ∀ op ∈ extra, op.key.keyType = 10) (d : UInt64) (i : Nat) :
    effect (.expiryKey d i) (createOps path m start records now ++ extra) =
      if i = m.streamID ∧ d = m.deadline ∧ 0 < m.deadline then some (some m.ttlSeconds) else none := by
  unfold createOps
  rw [effect_append, effect_of_class Key.keyType hx (by simp), none_or, effect_append,
    effect_append, (recordOps_recordOpsFrom _ _ _).effect (by simp)]
  by_cases h0 : 0 < m.deadline
  · by_cases hi : i = m.streamID
    · subst hi
      by_cases hd : d = m.deadline
      · subst hd
        simp [h0]
      · simp [hd, h0, symm hd]
    · simp [hi, h0, symm hi]
  · simp [h0]

theorem metaAt_deleteOps_eq (db : Store) (path : Bytes) (m : StreamMeta) (p : Bytes) :
    metaAt (applyOps db (deleteOps path m)) p = if p = path then none else db.metaAt p := by
  unfold metaAt
  rw [lookup_deleteOps db path m (by simp)]
  by_cases hp : p = path
  · subst hp
    simp
  · simp [hp, symm hp]

theorem lookup_deleteOps_expiry (db : Store) (path : Bytes) (m : StreamMeta) (d : UInt64) (i : Nat) :
    (applyOps db (deleteOps path m)).lookup (.expiryKey d i) =
      if i = m.streamID ∧ d = m.deadline ∧ 0 < m.deadline then none else db.lookup (.expiryKey d i) := by
  rw [lookup_applyOps]
  unfold deleteOps
  by_cases h0 : 0 < m.deadline
  · by_cases hi : i = m.streamID
    · subst hi
      by_cases hd : d = m.deadline
      · subst hd
        simp [h0]
      · simp [hd, h0, symm hd]
    · simp [hi, h0, symm hi]
  · simp [h0]

section Indexed

variable {db db' : Store} (h : Indexed db) (hc : Catalog db)
include h hc

theorem Indexed.created (hid : m.streamID = recoverNextID db)
    (hfree : db.metaAt path = none) (start : Nat) (records : List Bytes) (now : Int64)
    (hx : ∀ op ∈ extra, op.key.keyType = 10) : Indexed (applyOps db (createOps path m start records now ++ extra)) := by
  have hmeta := metaAt_createOps db path m start records now hx
  refine h.one hc (show Holds db path m.streamID from Or.inr ⟨hfree, hid⟩) (fun p hp => by rw [hmeta, if_neg hp])
    (fun m' hm' => ?_)
    (fun d i hi => ?_) fun d => ?_
  · rw [hmeta, if_pos rfl, some.injEq] at hm'
    rw [hm']
  · rw [lookup_applyOps, effect_createOps_expiry path m start records now hx, if_neg fun he => hi he.1]
    rfl
  · -- the new id has no entry yet
    have hnone : db.lookup (.expiryKey d m.streamID) = none := by
      rw [← not_isSome_iff_eq_none, h]
      rintro ⟨p, m', hm', hid', -⟩
      have := (hc.ids p m' hm').1
      omega
    rw [lookup_applyOps, effect_createOps_expiry path m start records now hx, hnone, hmeta, if_pos rfl]
    by_cases hd : d = m.deadline
    · subst hd
      by_cases h0 : 0 < m.deadline <;> simp [h0]
    · simp [hd, symm hd]

theorem Indexed.deleted (hm : db.metaAt path = some m) : Indexed (applyOps db (deleteOps path m)) := by
  have hgone := metaAt_deleteOps db path m
  refine h.one hc (.inl ⟨m, hm, rfl⟩) (fun p hp => (rewrites_delete hc hm rfl).frame (.metaKey p) hp)
    (fun m' hm' => ?_) (fun d i hi => ?_) fun d => ?_
  · rw [hgone] at hm'
    cases hm'
  · rw [lookup_deleteOps_expiry, if_neg fun he => hi he.1]
  · rw [lookup_deleteOps_expiry, hgone]
    simp only [reduceCtorEq, false_and, exists_false, iff_false, true_and]
    split
    · simp
    · rename_i hne
      rw [h.own hc hm]
      rintro ⟨rfl, h0⟩
      exact hne ⟨rfl, h0⟩

theorem Indexed.slid {s : Streamer} (ha : Attached db s) {d : UInt64} (hs : Slides s d db db')
    (hpos : d ≠ s.streamMeta.deadline → 0 < d) : Indexed db' := by
  obtain ⟨m', hm', hid', -, hd'⟩ := hs.own
  refine h.one hc (show Holds db s.path s.id from Or.inl ⟨_, ha.streamMeta, ha.id⟩) hs.others
    (fun m hm => ?_) (fun d' i hi => ?_) fun d' => ?_
  · rw [hm', some.injEq] at hm
    rw [← hm, hid']
  · rw [hs.entries, if_neg fun he => hi he.1]
    rfl
  · have hold := h.own hc ha.streamMeta d'
    rw [ha.id] at hold
    rw [hs.entries, hm']
    simp only [some.injEq, exists_eq_left', hd', true_and]
    by_cases hmoved : d = s.streamMeta.deadline
    · rw [if_neg (not_not.mpr hmoved), getD_none, hold, hmoved]
    · rw [if_pos hmoved]
      split
      · rename_i hd
        simp only [getD_some, isSome_none, Bool.false_eq_true, false_iff, not_and]
        exact fun he => absurd (he.trans hd.1) hmoved
      · rename_i hne
        split
        · rename_i hd
          simp [hd, hpos hmoved]
        · rename_i hd
          rw [getD_none, hold]
          constructor
          · rintro ⟨rfl, h0⟩
            exact absurd ⟨rfl, h0⟩ hne
          · rintro ⟨rfl, -⟩
            exact absurd rfl hd

end Indexed

/-! ## The index in every run -/

/-- The delete in progress goes by the stored metadata. -/
def Server.HeldCurrent (srv : Server) : Prop :=
  ∀ path m, srv.held = some (.deleteStreamLocked path m) → srv.db.metaAt path = some m

/-- The steps of a run in which a delete, with its cascade, is one operation and no refreshed deadline overflows. -/
structure Server.Unhurried (L : GoLib) (srv : Server) (e : Event) : Prop where
  whole : srv.held ≠ none → e.action = .goOn ∨ ∃ lost seen, e.action = .crash lost seen
  room : ∀ k, srv.mark L e = some k → k.now.toUInt64.toNat + k.ttl.toNat + 601 < 2 ^ 64

/-- What holds of the index in every run. -/
structure IndexInv (srv : Server) : Prop where
  server : ServerInv srv
  indexed : ∀ db ∈ srv.db :: srv.unsynced, Indexed db
  held : srv.HeldCurrent

theorem Server.Unhurried.pads {e : Event} (h : srv.Unhurried L e) {k : Mark} (hk : srv.mark L e = some k) :
    Pads k.now k.ttl := by
  have h1 := h.room k hk
  have h2 := (ttlGran_pos k.ttl).2
  unfold Pads
  rw [UInt64.toNat_add]
  omega

theorem heldCurrent_dropForkRef (srv : Server) (flt : Faults) (ok : Bool) (id : Nat) :
    (srv.dropForkRef flt ok id).HeldCurrent := by
  intro path m hh
  obtain ⟨-, _, _, hcas, -, hm⟩ := cascade_some hh
  cases hcas
  exact hm

theorem heldCurrent_of_none (h : srv.held = none) : srv.HeldCurrent := fun _ _ hh => by
  rw [h] at hh
  cases hh

theorem Server.Deleted.heldCurrent {srv' : Server}
    (d : Deleted srv srv' ok path m) : srv'.HeldCurrent := fun _ _ hh => by
  rw [d.held] at hh
  split at hh <;> cases hh

namespace IndexInv

variable {L : GoLib} {srv srv' : Server} {e : Event} (h : IndexInv srv) (hC : srv.Unhurried L e)
include h

theorem stored : Indexed srv.db := h.indexed _ mem_cons_self

include hC

theorem heldCurrent (he : step L srv e = some srv') : srv'.HeldCurrent := by
  by_cases hidle : srv.held = none
  · cases h.server.moves he with
    | calm c => exact heldCurrent_of_none (c.held.trans hidle)
    | softDeleted =>
      refine heldCurrent_of_none (Eq.trans ?_ hidle)
      cases e.ok <;> rfl
    | created _ c => exact heldCurrent_of_none (c.held.trans hidle)
    | deleted _ d => exact d.heldCurrent
    | released => exact heldCurrent_dropForkRef srv _ _ _
    | restarted => exact heldCurrent_of_none rfl
  · obtain ⟨action, flt, ok⟩ := e
    rcases hC.whole hidle with rfl | ⟨lost, seen, rfl⟩
    · cases stepped he with
      | dropForkRef => exact heldCurrent_dropForkRef srv _ _ _
      | cascade => exact (srv.deleted ok _ _).heldCurrent
    · obtain ⟨db, -, rfl⟩ := map_eq_some_iff.mp he
      exact heldCurrent_of_none rfl

/-- **Every step keeps the index exact.** -/
theorem step (he : step L srv e = some srv') : IndexInv srv' := by
  have hc := h.server.stored
  refine ⟨h.server.step he, fun db hdb => ?_, h.heldCurrent hC he⟩
  rcases mem_cons.mp hdb with rfl | hdb
  · cases h.server.dates (fun k hk _ => hC.pads hk) he with
    | kept _ hk => exact h.stored.kept hk
    | dropped _ hstale hdb => exact hdb ▸ h.stored.dropped hstale
    | created _ hid hfree hx _ hdb =>
      exact hdb ▸ h.stored.created hc (hid.trans h.server.nextID) hfree _ _ _ hx
    | slid hs hsl hd =>
      refine h.stored.slid hc (h.server.resident _ _ hs).2 hsl fun hne => ?_
      rcases hd with ⟨-, hd⟩ | ⟨now, hmark, rfl⟩
      · exact absurd hd hne
      · have hpads := hC.pads hmark
        exact slideDeadline_pos hpads hne
    | deleted _ why d =>
      rw [d.db]
      split
      · refine h.stored.deleted hc ?_
        cases why with
        | asked _ hm => exact hm
        | next hheld => exact h.held _ _ hheld
        | expired _ hm => exact hm
      · exact h.stored
    | restarted _ _ hdb hs => exact hs ▸ h.indexed _ (mem_of_getElem? hdb)
  · exact h.indexed db (unsynced_of_step h.server he db hdb)

end IndexInv

theorem indexInv_start (seen : Nat) : IndexInv (newServer ∅ seen) :=
  ⟨ServerInv.start catalog_empty seen, fun db hdb => by rw [mem_singleton.mp hdb]; exact indexed_empty,
    heldCurrent_of_none rfl⟩

/-- **The expiry index matches the metadata.** In every state that a server reaches by whole operations and restarts,
whatever fails, the index has the entry of a deadline and a stream exactly if the stream is stored with that deadline.
-/
theorem expiry_index_exact (L : GoLib) (seen : Nat) (srv : Server)
    (hr : Reach (step L) (Unhurried L) (newServer ∅ seen) srv) :
    (∀ d id, (srv.db.lookup (.expiryKey d id)).isSome = true ↔
      ∃ path m, srv.db.metaAt path = some m ∧ m.streamID = id ∧ m.deadline = d ∧ 0 < d) ∧
    ∀ path s, srv.registry path = some s → ∃ m, srv.db.metaAt path = some m ∧ s.streamMeta.deadline = m.deadline := by
  have hinv : IndexInv srv := hr.invariant (P := IndexInv) (fun _ _ _ h hC he => h.step hC he) (indexInv_start seen)
  refine ⟨hinv.stored, fun path s hs => ?_⟩
  obtain ⟨rfl, ha⟩ := hinv.server.resident path s hs
  exact ⟨_, ha.streamMeta, rfl⟩

/-- The creation of the sample stream with a TTL. -/
def createTTL (ttl : UInt64) (now : Int64) : Event where
  action := .createStream { path := samplePath, contentType := [], ttl := ttl, ttlSet := true } now 0

/-- A stream with a TTL of 10 seconds, refreshed after 5 seconds. -/
def refreshEvents : List Event :=
  [createTTL 10 1000, { action := .spawn samplePath }, { action := .touch samplePath 1005 }]

/-- The refreshed stream has the entry of its second deadline only. -/
theorem expiry_index_exact_sample : ∃ srv,
    Reach (step plainLib) (Unhurried plainLib) (newServer ∅ 0) srv ∧
    (srv.db.metaAt samplePath).map StreamMeta.deadline = some 1017 ∧
    ∀ d id, (srv.db.lookup (.expiryKey d id)).isSome = true ↔
      ∃ path m, srv.db.metaAt path = some m ∧ m.streamID = id ∧ m.deadline = d ∧ 0 < d := by
  obtain ⟨srv, hrun, hd⟩ : ∃ srv ∈ run (guarded (step plainLib) fun srv e => srv.held.isNone && (srv.mark
      plainLib e).all (fun k => k.now.toUInt64.toNat + k.ttl.toNat + 601 < 2 ^ 64))
      (newServer ∅ 0) refreshEvents, (srv.db.metaAt samplePath).map StreamMeta.deadline = some 1017 := by decide +kernel
  have hr : Reach (step plainLib) (Unhurried plainLib) (newServer ∅ 0) srv := by
    refine (reach_guarded hrun).mono fun srv e hc => ?_
    obtain ⟨hidle, hroom⟩ := Bool.and_eq_true_iff.mp hc
    refine ⟨fun hn => absurd (isNone_iff_eq_none.mp hidle) hn, fun k hk => ?_⟩
    simpa [hk] using hroom
  exact ⟨srv, hr, hd, (expiry_index_exact plainLib 0 srv hr).1⟩

/-! ## No stream expires early -/

/-- The TTL and expiry headers of a request, with `parseTime` for RFC 3339 times; `none` is answered 400. -/
def parseExpiry (parseTime : Bytes → Option Int64) (ttlRaw expiresRaw : Bytes) :
    Option (UInt64 × Bool × Int64 × Bool) := do
  let (ttl, ttlSet) ←
    if ttlRaw = [] then some (0, false) else (parseStrictUint ttlRaw).map fun n => (ofNat n, true)
  let (expires, expiresSet) ←
    if expiresRaw = [] then some (0, false) else (parseTime expiresRaw).map (·, true)
  if ttlSet && expiresSet then none else some (ttl, ttlSet, expires, expiresSet)

/-- A server with the uses of its streams so far. -/
structure Dated where
  srv : Server
  marks : List Mark := []

namespace Dated

def step (L : GoLib) (f : Dated) (e : Event) : Option Dated :=
  (Server.step L f.srv e).map fun srv => ⟨srv, (f.srv.mark L e).toList ++ f.marks⟩

/-- The steps of a run in which no deadline overflows, the sweeper's clock is not before 1970 and no commit is lost. -/
structure Timely (L : GoLib) (f : Dated) (e : Event) : Prop where
  room : ∀ k, f.srv.mark L e = some k → 0 < k.ttl →
    0 ≤ k.now.toInt + k.ttl.toNat ∧ k.now.toInt + k.ttl.toNat + (ttlGran k.ttl).toNat < 2 ^ 64
  clock : ∀ now seen, e.action = .sweep now seen → 0 ≤ now.toInt
  lost : ∀ lost seen, e.action = .crash lost seen → lost = 0

/-- The deadlines of a store lie after the uses of its streams. -/
def Late (db : Store) (marks : List Mark) : Prop :=
  ∀ path m, db.metaAt path = some m → 0 < m.ttlSeconds → ∀ k ∈ marks, k.id = m.streamID →
    k.now.toInt + m.ttlSeconds.toNat < m.deadline.toNat

/-- What holds of the deadlines in every run. -/
structure Punctual (f : Dated) : Prop where
  server : ServerInv f.srv
  settled : f.srv.Settled
  known : ∀ k ∈ f.marks, k.id < f.srv.nextID
  late : Late f.srv.db f.marks
  dues : ∀ x ∈ f.srv.dues, (x.1.toNat : Int) ≤ f.srv.sweepNow.toInt

end Dated

theorem toInt_eq_cond (now : Int64) : now.toInt = if 2 * now.toUInt64.toNat < 2 ^ 64 then (now.toUInt64.toNat : Int)
    else (now.toUInt64.toNat : Int) - 2 ^ 64 := BitVec.toInt_eq_toNat_cond _

theorem toNat_add_ttl {ttl : UInt64} (h : 0 ≤ now.toInt + ttl.toNat) (h' : now.toInt + ttl.toNat < 2 ^ 64) :
    ((now.toUInt64 + ttl).toNat : Int) = now.toInt + ttl.toNat := by
  have hnow := toInt_eq_cond now
  have hlt := ttl.toNat_lt
  have hlt' := now.toUInt64.toNat_lt
  rw [UInt64.toNat_add]
  split at hnow <;> omega

theorem lt_scanEnd (h0 : 0 ≤ now.toInt) (d : UInt64) : d < now.toUInt64 + 1 ↔ (d.toNat : Int) ≤ now.toInt := by
  have hnow := toInt_eq_cond now
  have hlt := now.toUInt64.toNat_lt
  rw [UInt64.lt_iff_toNat_lt, UInt64.toNat_add, UInt64.toNat_one]
  split at hnow <;> omega

section Timely

variable {L : GoLib} {f : Dated} {e : Event} (h : f.Timely L e) {id : Nat} {ttl : UInt64} {now : Int64}
  (hk : f.srv.mark L e = some ⟨id, ttl, now⟩)
include h hk

theorem Dated.Timely.pads (h0 : ttl ≠ 0) :
    Pads now ttl ∧ ((now.toUInt64 + ttl).toNat : Int) = now.toInt + ttl.toNat := by
  obtain ⟨h1, h2⟩ := h.room _ hk (UInt64.pos_iff_ne_zero.mpr h0)
  dsimp only at h1 h2
  have he := toNat_add_ttl h1 (by omega)
  refine ⟨?_, he⟩
  unfold Pads
  omega

theorem Dated.Timely.created (hpos : 0 < ttl) : now.toInt + ttl.toNat < (now.toUInt64 + ttl + 1).toNat := by
  obtain ⟨hp, hnow⟩ := h.pads hk (UInt64.pos_iff_ne_zero.mp hpos)
  have hgran := (ttlGran_pos ttl).1
  unfold Pads at hp
  rw [UInt64.toNat_add, UInt64.toNat_one]
  omega

theorem Dated.Timely.slid (d : UInt64) : d.toNat ≤ (slideDeadline now ttl d).toNat ∧
    (0 < ttl → now.toInt + ttl.toNat < (slideDeadline now ttl d).toNat) := by
  by_cases h0 : ttl = 0
  · subst h0
    exact ⟨le_refl _, fun hpos => absurd hpos (lt_irrefl 0)⟩
  · obtain ⟨hp, hnow⟩ := h.pads hk h0
    refine ⟨le_slideDeadline hp, fun _ => ?_⟩
    have := lt_slideDeadline (d := d) hp h0
    omega

end Timely

namespace Dated

variable {L : GoLib} {f f' : Dated} {e : Event}

variable {db db' : Store} {marks : List Mark}

section

variable (h : Late db marks)
include h

theorem Late.thin (hm : ∀ p m, db'.metaAt p = some m → db.metaAt p = some m) : Late db' marks :=
  fun p m hp => h p m (hm p m hp)

theorem Late.created (hc : Catalog db) {now : Int64}
    (hid : m.streamID = recoverNextID db) (hmeta : ∀ p, db'.metaAt p = if p = path then some m else db.metaAt p)
    (hknown : ∀ k ∈ marks, k.id < recoverNextID db)
    (hd : 0 < m.ttlSeconds → now.toInt + m.ttlSeconds.toNat < m.deadline.toNat) :
    Late db' (⟨m.streamID, m.ttlSeconds, now⟩ :: marks) := by
  intro p m' hm' hpos k hk hkid
  rw [hmeta] at hm'
  split at hm'
  · cases hm'
    rcases mem_cons.mp hk with rfl | hk
    · exact hd hpos
    · have := hknown k hk
      omega
  · rcases mem_cons.mp hk with rfl | hk
    · have := (hc.ids p m' hm').1
      have : m.streamID = m'.streamID := hkid
      omega
    · exact h p m' hm' hpos k hk hkid

theorem Late.slid (hc : Catalog db) {s : Streamer} (ha : Attached db s) {d : UInt64}
    (hs : Slides s d db db') (hle : s.streamMeta.deadline.toNat ≤ d.toNat) {new : Option Mark}
    (hnew : ∀ k, new = some k → k.id = s.id ∧
      (0 < s.streamMeta.ttlSeconds → k.now.toInt + s.streamMeta.ttlSeconds.toNat < d.toNat)) :
    Late db' (new.toList ++ marks) := by
  intro p m' hm' hpos k hk hkid
  by_cases hp : p = s.path
  · subst hp
    obtain ⟨m, hm, hid, httl, hd⟩ := hs.own
    cases hm.symm.trans hm'
    rw [httl] at hpos ⊢
    rw [hd]
    rcases mem_append.mp hk with hk | hk
    · exact (hnew k (mem_toList.mp hk)).2 hpos
    · have := h _ _ ha.streamMeta hpos k hk (hkid.trans (hid.trans ha.id.symm))
      omega
  · rw [hs.others p hp] at hm'
    rcases mem_append.mp hk with hk | hk
    · have hid := (hnew k (mem_toList.mp hk)).1
      exact absurd (hc.path_eq hm' ha.streamMeta (hkid.symm.trans (hid.trans ha.id.symm))) hp
    · exact h p m' hm' hpos k hk hkid

end

/-- **Every step keeps the deadlines after the uses.** -/
theorem Punctual.late_step (h : Punctual f) (hC : f.Timely L e) {srv' : Server}
    (he : Server.step L f.srv e = some srv') : Late srv'.db ((f.srv.mark L e).toList ++ f.marks) := by
  have hc := h.server.stored
  cases h.server.dates (fun k hk h0 => (hC.pads hk h0).1) he with
  | kept hmark hk =>
    rw [hmark]
    exact h.late.thin fun p m hm => (hk (.metaKey p) (.inl rfl)).symm.trans hm
  | dropped hmark hstale hdb =>
    rw [hmark, hdb]
    refine h.late.thin fun p m hm => Eq.trans (Eq.symm ?_) hm
    exact lookup_applyOps_ne fun op ho he => by rw [mem_singleton.mp ho] at he; cases he
  | created hmark hid hfree hx hd hdb =>
    rw [hmark, hdb]
    refine h.late.created hc (hid.trans h.server.nextID) (metaAt_createOps _ _ _ _ _ _ hx)
      (fun k hk => h.server.nextID ▸ h.known k hk) fun hpos => ?_
    rw [hd hpos]
    exact hC.created hmark hpos
  | slid hs hsl hd =>
    have ha := (h.server.resident _ _ hs).2
    rcases hd with ⟨hmark, rfl⟩ | ⟨now, hmark, rfl⟩
    · rw [hmark]
      exact h.late.slid hc ha hsl (le_refl _) nofun
    · rw [hmark]
      obtain ⟨hle, hlt⟩ := hC.slid hmark _
      exact h.late.slid hc ha hsl hle fun k hk => by cases hk; exact ⟨rfl, hlt⟩
  | deleted hmark why d =>
    rw [hmark, d.db]
    refine h.late.thin fun p m hm => ?_
    split at hm
    · rw [metaAt_deleteOps_eq] at hm
      split at hm
      · cases hm
      · exact hm
    · exact hm
  | restarted hmark hcrash hdb hs =>
    cases hC.lost _ _ hcrash
    cases hdb
    rw [hmark, hs]
    exact h.late

end Dated

/-! ## The sweeper's list -/

namespace Server

theorem mem_dueEntries {db : Store} {now : Int64} {d : UInt64} {i : Nat} :
    (d, i) ∈ dueEntries db now ↔ (db.lookup (.expiryKey d i)).isSome = true ∧ d < now.toUInt64 + 1 := by
  unfold dueEntries
  rw [List.mem_map, Finmap.lookup_isSome]
  constructor
  · rintro ⟨x, hx, he⟩
    obtain ⟨k, hk, hkx⟩ := Scan.mem_scan.mp hx
    cases k with
    | expiryKey d' i' =>
      simp only [ite_none_right_eq_some, some.injEq] at hkx
      obtain ⟨hlt, rfl⟩ := hkx
      simp only [ofLex_toLex, UInt64.ofNat_toNat, Prod.mk.injEq] at he
      obtain ⟨rfl, rfl⟩ := he
      exact ⟨hk, hlt⟩
    | _ => cases hkx
  · rintro ⟨hk, hlt⟩
    exact ⟨toLex (d.toNat, i), Scan.mem_scan.mpr ⟨_, hk, if_pos hlt⟩, by simp⟩

variable {srv srv' : Server}

/-- The list of the sweep at hand is the same or shorter. -/
def KeepsDues (srv srv' : Server) : Prop := (∀ x ∈ srv'.dues, x ∈ srv.dues) ∧ srv'.sweepNow = srv.sweepNow

theorem KeepsDues.refl (srv : Server) : KeepsDues srv srv := ⟨fun _ h => h, rfl⟩

theorem keepsDues_deleteStreamLocked (ok : Bool) (path : Bytes) (m : StreamMeta) :
    KeepsDues srv (srv.deleteStreamLocked ok path m) := by
  cases ok <;> exact .refl srv

theorem keepsDues_setPhase (srv : Server) (i id : Nat) (next : Option DeletePhase) :
    KeepsDues srv (srv.setPhase i id next) := by
  cases next <;> exact .refl srv

/-- What a step does to the sweeper's list: a sweep makes it, a restart drops it. -/
theorem dues_of_step {L : GoLib} {e : Event} (he : step L srv e = some srv') : KeepsDues srv srv' ∨ srv'.dues = [] ∨
    ∃ now seen, e.action = .sweep now seen ∧ srv'.dues = (dueEntries srv.db now).take seen ∧ srv'.sweepNow = now := by
  have hcreate : ∀ ok plan, KeepsDues srv (srv.create ok plan) := fun ok plan => by
    unfold create
    split
    · exact .refl srv
    · cases ok <;> exact .refl srv
  cases stepped he with
  | createStream => exact .inl (hcreate _ _)
  | createFork => exact .inl (hcreate _ _)
  | @softDelete _ _ ok => left; cases ok <;> exact .refl srv
  | delete => exact .inl (keepsDues_deleteStreamLocked _ _ _)
  | @dropForkRef _ _ ok => left; cases ok <;> exact .refl srv
  | cascade => exact .inl (keepsDues_deleteStreamLocked _ _ _)
  | @sweep now seen => exact .inr (.inr ⟨now, seen, rfl, rfl, rfl⟩)
  | skipped hdue => exact .inl ⟨fun x hx => hdue ▸ mem_cons_of_mem _ hx, rfl⟩
  | stale hdue => exact .inl ⟨fun x hx => hdue ▸ mem_cons_of_mem _ hx, rfl⟩
  | @expire path m dues _ ok _ hdue =>
    obtain ⟨h1, h2⟩ := @keepsDues_deleteStreamLocked { srv with dues := dues } ok path m
    exact .inl ⟨fun x hx => hdue ▸ mem_cons_of_mem _ (h1 x hx), h2⟩
  | noChunk => exact .inl (keepsDues_setPhase _ _ _ _)
  | chunk => exact .inl (keepsDues_setPhase (srv.commit true _) _ _ _)
  | crash => exact .inr (.inl rfl)
  | _ => exact .inl (.refl srv)

/-- The stream that a due entry removes has that entry. -/
theorem due_of_removed {L : GoLib}
    (he : step L srv ⟨.expire, flt, ok⟩ = some srv') (hm : srv.db.metaAt path = some m)
    (hgone : srv'.db.metaAt path = none) : (m.deadline, m.streamID) ∈ srv.dues := by
  have hsame : srv'.db.metaAt path = srv.db.metaAt path → (m.deadline, m.streamID) ∈ srv.dues := fun h => by
    rw [hgone, hm] at h
    cases h
  cases stepped he with
  | skipped => exact hsame rfl
  | stale =>
    refine hsame (lookup_applyOps_ne fun op ho he => ?_)
    rw [mem_singleton.mp ho] at he
    cases he
  | @expire path' m' dues _ _ _ hdue hm' =>
    rw [(deleted { srv with dues := dues } ok path' m').db] at hgone hsame
    cases ok with
    | false => exact hsame rfl
    | true =>
      rw [if_pos rfl, metaAt_deleteOps_eq] at hgone hsame
      by_cases hp : path = path'
      · subst hp
        cases hm.symm.trans hm'
        rw [hdue]
        exact mem_cons_self
      · rw [if_neg hp] at hsame
        exact hsame rfl

end Server

namespace Dated

variable {L : GoLib} {f f' : Dated} {e : Server.Event}

/-- The stream that a step uses is stored after it. -/
theorem Punctual.marked (h : Punctual f) (hC : f.Timely L e) {srv' : Server} (he : Server.step L f.srv e = some srv')
    {k : Mark} (hk : f.srv.mark L e = some k) : ∃ p m, srv'.db.metaAt p = some m ∧ m.streamID = k.id := by
  cases h.server.dates (fun k hk h0 => (hC.pads hk h0).1) he with
  | kept hmark => rw [hmark] at hk; cases hk
  | dropped hmark => rw [hmark] at hk; cases hk
  | created hmark _ _ hx _ hdb =>
    cases hmark.symm.trans hk
    exact ⟨_, _, by rw [hdb, metaAt_createOps _ _ _ _ _ _ hx, if_pos rfl], rfl⟩
  | slid hs hsl hd =>
    obtain ⟨m, hm, hid, -⟩ := hsl.own
    refine ⟨_, m, hm, hid.trans ?_⟩
    rcases hd with ⟨hmark, -⟩ | ⟨now, hmark, -⟩
    · rw [hmark] at hk; cases hk
    · rw [hmark] at hk; cases hk; rfl
  | deleted hmark => rw [hmark] at hk; cases hk
  | restarted hmark => rw [hmark] at hk; cases hk

theorem Punctual.step (h : Punctual f) (hC : f.Timely L e) (he : step L f e = some f') : Punctual f' := by
  obtain ⟨srv', hs, rfl⟩ := map_eq_some_iff.mp he
  obtain ⟨hset, hcont⟩ := h.server.continues h.settled hs
  have hinv := h.server.step hs
  refine ⟨hinv, hset, fun k hk => ?_, h.late_step hC hs, fun x hx => ?_⟩
  · have hle : f.srv.nextID ≤ srv'.nextID := by
      rw [h.server.nextID, hinv.nextID]
      exact hcont.counter
    rcases mem_append.mp hk with hk | hk
    · obtain ⟨p, m, hm, hid⟩ := h.marked hC hs (mem_toList.mp hk)
      rw [hinv.nextID, ← hid]
      exact (hinv.stored.ids p m hm).1
    · exact lt_of_lt_of_le (h.known k hk) hle
  · rcases dues_of_step hs with ⟨hsub, hnow⟩ | hnil | ⟨now, seen, ha, hdues, hnow⟩
    · rw [hnow]
      exact h.dues x (hsub x hx)
    · rw [show srv'.dues = [] from hnil] at hx
      cases hx
    · rw [hnow]
      rw [show srv'.dues = _ from hdues] at hx
      exact (lt_scanEnd (hC.clock now seen ha) _).mp (mem_dueEntries.mp (mem_of_mem_take hx)).2

end Dated

end Yasdb
