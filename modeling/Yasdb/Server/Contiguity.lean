import Yasdb.Server.Catalog

/-!
# The stored log is contiguous

`ServerInv` ties the server to its store: the store and every earlier state that a crash may fall back to satisfy the
catalog, the id counter is the stored one, every resident streamer works on the stored stream of its path, and every
background deletion works on an id without a stream.

- `ServerInv.step`: every step of the server keeps it, whatever fails;
- `stored_log_contiguous`: **each stream stores exactly the records from its base up to its tail**;
- `fork_chains_end`: the chain of sources of a fork is finite.
-/

namespace Yasdb

open Batch Runs Function List Option Server Store

variable {db : Store} {id : Nat} {ops : List Op} {s : Streamer}

structure ServerInv (srv : Server) : Prop where
  catalog : ∀ db ∈ srv.db :: srv.unsynced, Catalog db
  nextID : srv.nextID = recoverNextID srv.db
  resident : ∀ path s, srv.registry path = some s → s.path = path ∧ Attached srv.db s
  deleting : ∀ d ∈ srv.deleting, Dead srv.db d.id
  held : ∀ path m, srv.held = some (.deleteStreamLocked path m) →
    ∃ m', srv.db.metaAt path = some m' ∧ m'.streamID = m.streamID

theorem cascade_some {flt : Faults} {sourceID count : Nat} {t : Task}
    (h : cascade flt db sourceID count = some t) : count = 0 ∧ ∃ path m, t = .deleteStreamLocked path m ∧
      db.idMappingAt sourceID = some path ∧ db.metaAt path = some m := by
  unfold cascade at h
  split at h
  · cases h
  · rename_i hcount
    split at h
    · rename_i m path hl
      split at h
      · cases h
        exact ⟨by omega, path, m, rfl, loadMetaByID_ok hl⟩
      · cases h
    · cases h

theorem backgroundDelete_unbound {flt : Faults} {scanOk : Bool} {phase : DeletePhase} {next : Option DeletePhase}
    (hd : Dead db id)
    (h : backgroundDelete flt scanOk db id phase = (some ops, next)) : ∀ op ∈ ops, Unbound db op.key := by
  intro op ho
  rcases backgroundDelete_keys h op ho with ⟨n, hk⟩ | ⟨pid, hk⟩ | hk
  · rw [hk]; exact hd
  · rw [hk]; trivial
  · rw [hk]; exact hd

/-! ## Steps -/

namespace Server

/-- The steps of the server, with what they find in the store. -/
inductive Stepped (L : GoLib) (srv : Server) : Event → Server → Prop where
  | createStream (p : CreateParams) (now nowMs : Int64) (flt : Faults) (ok : Bool) (hidle : srv.held = none) :
      Stepped L srv ⟨.createStream p now nowMs, flt, ok⟩
        (srv.create ok (Yasdb.createStream L flt srv.db srv.nextID now nowMs p))
  | createFork (p : ForkParams) (now nowMs : Int64) (flt : Faults) (ok : Bool) (hidle : srv.held = none) :
      Stepped L srv ⟨.createFork p now nowMs, flt, ok⟩
        (srv.create ok (Yasdb.createFork L flt srv.db srv.nextID now nowMs p))
  | noSpawn {path : Bytes} {flt : Faults} {ok : Bool} : Stepped L srv ⟨.spawn path, flt, ok⟩ srv
  | spawn {path : Bytes} {flt : Faults} {ok : Bool} {m : StreamMeta} {tailSeq : Nat}
      (hm : srv.db.metaAt path = some m) (ht : loadTail flt srv.db m.streamID = .ok tailSeq) :
      Stepped L srv ⟨.spawn path, flt, ok⟩ (srv.setStreamer path (newStreamer path m tailSeq))
  | replied {path : Bytes} {now : Int64} {batch : List AppendReq} {flt : Faults} {ok : Bool} {s s' : Streamer}
      (hs : srv.registry path = some s) (hl : Loads flt srv.db s s')
      (hn : ok = true → ∃ rs, processBurst L flt srv.db now s batch = (s', .reply rs)) :
      Stepped L srv ⟨.burst path now batch, flt, ok⟩ (srv.setStreamer path s')
  | burst {path : Bytes} {now : Int64} {batch : List AppendReq} {flt : Faults} {s s' : Streamer} {c : CommitBurst}
      (hs : srv.registry path = some s) (hb : processBurst L flt srv.db now s batch = (s', .commit c)) :
      Stepped L srv ⟨.burst path now batch, flt, true⟩
        ((srv.commit true c.ops).setStreamer path (syncCommit none srv.db s' c).2.1)
  | untouched {path : Bytes} {now : Int64} {flt : Faults} {ok : Bool} {s : Streamer} (hs : srv.registry path = some s)
      (hd : ok = true → slideDeadline now s.streamMeta.ttlSeconds s.streamMeta.deadline = s.streamMeta.deadline) :
      Stepped L srv ⟨.touch path now, flt, ok⟩ ({ srv with unsynced := srv.db :: srv.unsynced }.setStreamer path s)
  | touch {path : Bytes} {now : Int64} {flt : Faults} {s : Streamer} {d : UInt64} (hs : srv.registry path = some s)
      (hd : d = slideDeadline now s.streamMeta.ttlSeconds s.streamMeta.deadline) (h0 : s.streamMeta.ttlSeconds ≠ 0)
      (hle : ¬ now.toUInt64 + s.streamMeta.ttlSeconds < s.streamMeta.deadline) :
      Stepped L srv ⟨.touch path now, flt, true⟩ ((srv.commit false (touchOps s d)).setStreamer path (s.setDeadline d))
  | retire {path : Bytes} {flt : Faults} {ok : Bool} : Stepped L srv ⟨.retire path, flt, ok⟩ (srv.removeStreamer path)
  | noDelete {path : Bytes} {flt : Faults} {ok : Bool} : Stepped L srv ⟨.deleteStream path, flt, ok⟩ srv
  | softDelete {path : Bytes} {flt : Faults} {ok : Bool} {m : StreamMeta} (hidle : srv.held = none)
      (hm : srv.db.metaAt path = some m) (hpos : 0 < loadRefCount flt srv.db m.streamID) :
      Stepped L srv ⟨.deleteStream path, flt, ok⟩ (srv.softDeleteLocked ok path m)
  | delete {path : Bytes} {flt : Faults} {ok : Bool} {m : StreamMeta} (hidle : srv.held = none)
      (hm : srv.db.metaAt path = some m) (h0 : loadRefCount flt srv.db m.streamID = 0) :
      Stepped L srv ⟨.deleteStream path, flt, ok⟩ (srv.deleteStreamLocked ok path m)
  | dropForkRef {sourceID : Nat} {flt : Faults} {ok : Bool} (hheld : srv.held = some (.dropForkRef sourceID)) :
      Stepped L srv ⟨.goOn, flt, ok⟩ (srv.dropForkRef flt ok sourceID)
  | cascade {path : Bytes} {m : StreamMeta} {flt : Faults} {ok : Bool}
      (hheld : srv.held = some (.deleteStreamLocked path m)) :
      Stepped L srv ⟨.goOn, flt, ok⟩ (srv.deleteStreamLocked ok path m)
  | sweep {now : Int64} {seen : Nat} {flt : Faults} {ok : Bool} : Stepped L srv ⟨.sweep now seen, flt, ok⟩
      { srv with dues := (dueEntries srv.db now).take seen, sweepNow := now }
  | skipped {x : UInt64 × Nat} {dues : List (UInt64 × Nat)} {flt : Faults} {ok : Bool} (hdue : srv.dues = x :: dues) :
      Stepped L srv ⟨.expire, flt, ok⟩ { srv with dues := dues }
  | stale {d : UInt64} {id : Nat} {dues : List (UInt64 × Nat)} {flt : Faults} (hdue : srv.dues = (d, id) :: dues)
      (hstale : ∀ path m, srv.db.idMappingAt id = some path → srv.db.metaAt path = some m → m.streamID = id →
        m.deadline ≠ d) :
      Stepped L srv ⟨.expire, flt, true⟩ ({ srv with dues := dues }.commit false [Op.del (.expiryKey d id)])
  | expire {path : Bytes} {m : StreamMeta} {dues : List (UInt64 × Nat)} {flt : Faults} {ok : Bool}
      (hidle : srv.held = none) (hdue : srv.dues = (m.deadline, m.streamID) :: dues)
      (hm : srv.db.metaAt path = some m) :
      Stepped L srv ⟨.expire, flt, ok⟩ ({ srv with dues := dues }.deleteStreamLocked ok path m)
  | noChunk {i : Nat} {scanOk : Bool} {flt : Faults} {ok : Bool} {d : Deletion} {next : Option DeletePhase}
      (hd : d ∈ srv.deleting) : Stepped L srv ⟨.chunk i scanOk, flt, ok⟩ (srv.setPhase i d.id next)
  | chunk {i : Nat} {scanOk : Bool} {flt : Faults} {d : Deletion} {ops : List Op} {next : Option DeletePhase}
      (hd : d ∈ srv.deleting) (hb : backgroundDelete flt scanOk srv.db d.id d.phase = (some ops, next)) :
      Stepped L srv ⟨.chunk i scanOk, flt, true⟩ ((srv.commit true ops).setPhase i d.id next)
  | crash {lost seen : Nat} {flt : Faults} {ok : Bool} {db : Store} (hdb : (srv.db :: srv.unsynced)[lost]? = some db) :
      Stepped L srv ⟨.crash lost seen, flt, ok⟩ (newServer db seen)

section Steps

variable {L : GoLib} {srv srv' : Server} {flt : Faults} {ok : Bool}

theorem stepped_spawn (path : Bytes) : Stepped L srv ⟨.spawn path, flt, ok⟩ (srv.getOrSpawn flt path) := by
  unfold getOrSpawn
  split
  · exact .noSpawn
  · split
    · rename_i hm
      split
      · exact .spawn (get_ok hm) ‹_›
      · exact .noSpawn
    · exact .noSpawn

theorem stepped_burst {path : Bytes} (hs : srv.registry path = some s) (now : Int64)
    (batch : List AppendReq) :
    Stepped L srv ⟨.burst path now batch, flt, ok⟩ (srv.burst L flt ok path s now batch) := by
  unfold burst
  split
  · rename_i hb
    exact .replied hs (processBurst_reply hb).1 fun _ => ⟨_, hb⟩
  · rename_i hb
    cases ok with
    | false => exact .replied hs (processBurst_commit hb).1 nofun
    | true => exact .burst hs hb

theorem stepped_touch {path : Bytes} (hs : srv.registry path = some s) (now : Int64) :
    Stepped L srv ⟨.touch path now, flt, ok⟩ (srv.touch ok path s now) := by
  unfold touch
  rcases refreshTTLOnRead_cases now (if ok then none else some errStoreClosed) srv.db s with
    ⟨he, hd⟩ | ⟨d, he, hok, hd, h0, hle⟩
  · rw [he]
    exact .untouched hs fun hok => hd (if_pos hok)
  · rw [he]
    cases ok with
    | false => cases hok
    | true => exact .touch hs hd h0 hle

theorem stepped_deleteStream (hidle : srv.held = none) (path : Bytes) :
    Stepped L srv ⟨.deleteStream path, flt, ok⟩ (srv.deleteStream flt ok path) := by
  unfold deleteStream
  split
  · exact .noDelete
  · split
    · exact .noDelete
    · split
      · rename_i hm
        split
        · exact .softDelete hidle (get_ok hm) ‹_›
        · exact .delete hidle (get_ok hm) (by omega)
      · exact .noDelete

theorem stepped_expire (hidle : srv.held = none) {d : UInt64} {dues : List (UInt64 × Nat)}
    (hdue : srv.dues = (d, id) :: dues) :
    Stepped L srv ⟨.expire, flt, ok⟩ ({ srv with dues := dues }.expireIfDue flt ok d id) := by
  have hdrop : (∀ path m, srv.db.idMappingAt id = some path → srv.db.metaAt path = some m → m.streamID = id →
      m.deadline ≠ d) →
      Stepped L srv ⟨.expire, flt, ok⟩ ({ srv with dues := dues }.dropStaleExpiry ok d id) := fun h => by
    cases ok with
    | false => exact .skipped hdue
    | true => exact .stale hdue h
  unfold expireIfDue
  split
  · exact .skipped hdue
  · rename_i hq
    exact hdrop fun p m hp => (nomatch (get_ok hq).symm.trans hp)
  · rename_i path hq
    have hpath : ∀ p, srv.db.idMappingAt id = some p → p = path := fun p hp =>
      some.inj (hp.symm.trans (get_ok hq))
    split
    · exact .skipped hdue
    · rename_i hm
      refine hdrop fun p m hp hpm => ?_
      rw [hpath p hp, show srv.db.metaAt path = none from get_ok hm] at hpm
      cases hpm
    · rename_i m hm
      have hm : srv.db.metaAt path = some m := get_ok hm
      split
      · rename_i hother
        refine hdrop fun p m' hp hpm hid hd => ?_
        rw [hpath p hp, hm, some.injEq] at hpm
        subst hpm
        exact hother.elim (absurd hid) (absurd hd)
      · rename_i hcur
        simp only [not_or, not_not] at hcur
        split
        · exact .skipped hdue
        · exact .expire hidle (by rw [hcur.1, hcur.2]; exact hdue) hm

theorem stepped_chunk {i : Nat} {d : Deletion} (hd : srv.deleting[i]? = some d) (scanOk : Bool) :
    Stepped L srv ⟨.chunk i scanOk, flt, ok⟩ (srv.chunk flt ok scanOk i d) := by
  have hd := mem_of_getElem? hd
  unfold chunk
  split
  · exact .noChunk hd
  · split
    · subst ok
      exact .chunk hd ‹_›
    · exact .noChunk hd

/-- **What a step of the server is.** -/
theorem stepped {e : Event} (he : step L srv e = some srv') : Stepped L srv e srv' := by
  obtain ⟨action, flt, ok⟩ := e
  cases action with
  | spawn path => cases he; exact stepped_spawn path
  | burst path now batch =>
    obtain ⟨s, hs, rfl⟩ := map_eq_some_iff.mp he
    exact stepped_burst hs now batch
  | touch path now =>
    obtain ⟨s, hs, rfl⟩ := map_eq_some_iff.mp he
    exact stepped_touch hs now
  | retire path => cases he; exact .retire
  | goOn =>
    simp only [step] at he
    split at he
    · cases he; exact .dropForkRef ‹_›
    · cases he; exact .cascade ‹_›
    · cases he
  | sweep now seen =>
    simp only [step] at he
    split at he
    · cases he; exact .sweep
    · cases he
  | expire =>
    simp only [step] at he
    split at he
    · simp only [ite_none_left_eq_some, not_isSome_iff_eq_none, some.injEq] at he
      obtain ⟨hidle, rfl⟩ := he
      exact stepped_expire hidle ‹_›
    · cases he
  | chunk i scanOk =>
    obtain ⟨d, hd, rfl⟩ := map_eq_some_iff.mp he
    exact stepped_chunk hd scanOk
  | crash lost seen =>
    obtain ⟨db, hdb, rfl⟩ := map_eq_some_iff.mp he
    exact .crash hdb
  | _ =>
    simp only [step, ite_none_left_eq_some, not_isSome_iff_eq_none, some.injEq] at he
    obtain ⟨hidle, rfl⟩ := he
    first
    | exact stepped_deleteStream hidle _
    | constructor; exact hidle

end Steps

end Server

namespace ServerInv

variable {srv : Server} {path : Bytes}

section

variable (h : ServerInv srv)
include h

theorem stored : Catalog srv.db := h.catalog _ mem_cons_self

omit h in
theorem start (hc : Catalog db) (seen : Nat) : ServerInv (newServer db seen) := by
  refine ⟨fun db' hdb => ?_, rfl, nofun, fun d hd => ?_, nofun⟩
  · rw [mem_singleton.mp hdb]; exact hc
  · obtain ⟨i, hi, rfl⟩ := List.mem_map.mp hd
    obtain ⟨k, hk, he⟩ := Scan.mem_scan.mp (mem_of_mem_take hi)
    cases k with
    | deletePendingKey j =>
      cases he
      refine hc.dead i fun hn => ?_
      exact Finmap.lookup_eq_none.mp hn hk
    | _ => cases he

/-! ## Registry and commits -/

theorem setStreamer (hp : s.path = path) (ha : Attached srv.db s) : ServerInv (srv.setStreamer path s) := by
  refine ⟨h.catalog, h.nextID, fun p s' hs => ?_, h.deleting, h.held⟩
  change update srv.registry path (some s) p = some s' at hs
  by_cases hpp : p = path
  · subst hpp
    rw [update_self, some.injEq] at hs
    exact hs ▸ ⟨hp, ha⟩
  · rw [update_of_ne hpp] at hs
    exact h.resident p s' hs

theorem removeStreamer (path : Bytes) : ServerInv (srv.removeStreamer path) := by
  refine ⟨h.catalog, h.nextID, fun p s' hs => ?_, h.deleting, h.held⟩
  change update srv.registry path none p = some s' at hs
  by_cases hpp : p = path
  · subst hpp
    rw [update_self] at hs; cases hs
  · rw [update_of_ne hpp] at hs
    exact h.resident p s' hs

theorem release : ServerInv { srv with held := none } :=
  ⟨h.catalog, h.nextID, h.resident, h.deleting, nofun⟩

/-- A commit that keeps the catalog, the streamers and the dead ids. -/
theorem committed (durable : Bool) {n : Nat} (hc : Catalog (applyOps srv.db ops))
    (hn : n = recoverNextID (applyOps srv.db ops))
    (hres : ∀ path s, srv.registry path = some s → Attached srv.db s → Attached (applyOps srv.db ops) s)
    (hdead : ∀ i, Dead srv.db i → Dead (applyOps srv.db ops) i)
    (hheld : ∀ path m, srv.held = some (.deleteStreamLocked path m) →
      ∃ m', metaAt (applyOps srv.db ops) path = some m' ∧ m'.streamID = m.streamID) :
    ServerInv { srv.commit durable ops with nextID := n } := by
  refine ⟨fun db hdb => ?_, hn, fun p s hs => ?_, fun d hd => hdead d.id (h.deleting d hd), hheld⟩
  · rcases mem_cons.mp hdb with rfl | hdb
    · exact hc
    · cases durable with
      | true => cases hdb
      | false => exact h.catalog db hdb
  · exact ⟨(h.resident p s hs).1, hres p s hs (h.resident p s hs).2⟩

theorem quiet (durable : Bool) (hq : ∀ op ∈ ops, Unbound srv.db op.key) : ServerInv (srv.commit durable ops) := by
  have q := quiet_applyOps hq
  refine h.committed durable (h.stored.quiet q) (h.nextID.trans q.counter.symm) (fun _ _ _ ha => q.attached ha)
    (fun _ hd => q.dead hd) fun p m he => ?_
  rw [q.metaAt]
  exact h.held p m he

theorem rewritten {n : Nat}
    (r : Rewrites path id srv.db (applyOps srv.db ops)) (hreg : srv.registry path = none)
    (hn : n = recoverNextID (applyOps srv.db ops))
    (hheld : ∀ p m, srv.held = some (.deleteStreamLocked p m) →
      ∃ m', metaAt (applyOps srv.db ops) p = some m' ∧ m'.streamID = m.streamID) (durable : Bool) :
    ServerInv { srv.commit durable ops with nextID := n } := by
  refine h.committed durable (h.stored.rewrites r) hn (fun p s hs ha => r.attached h.stored ha fun he => ?_)
    (fun _ hd => r.dead h.stored hd) hheld
  rw [← (h.resident p s hs).1, he, hreg] at hs
  cases hs

/-! ## Creation -/

section

variable (hheld : srv.held = none)
include hheld

theorem create (ok : Bool) {m : StreamMeta} {start : Nat}
    {records : List Bytes} {now : Int64} {extra : List Op} {res : CreateResult} (hp : srv.db.metaAt path = none)
    (hid : m.streamID = srv.nextID) (hsrc : m.forkedFrom < m.streamID) (hs : start = m.base)
    (hx : ∀ op ∈ extra, op.key.keyType = 10) :
    ServerInv (srv.create ok (.ok (createOps path m start records now ++ extra, res))) := by
  cases ok with
  | false => exact h
  | true =>
    have r := rewrites_create records now h.stored hp (hid.trans h.nextID) hsrc hs hx
    refine h.rewritten r ?_ ?_ (fun p m he => ?_) true
    · cases hreg : srv.registry path with
      | none => rfl
      | some s =>
        obtain ⟨hsp, ha⟩ := h.resident path s hreg
        have := ha.streamMeta
        rw [hsp, hp] at this; cases this
    · rw [r.counter, hid, h.nextID]; omega
    · rw [hheld] at he; cases he

theorem createStream (L : GoLib) (flt : Faults) (ok : Bool)
    (p : CreateParams) (now nowMs : Int64) :
    ServerInv (srv.create ok (Yasdb.createStream L flt srv.db srv.nextID now nowMs p)) := by
  cases hplan : Yasdb.createStream L flt srv.db srv.nextID now nowMs p with
  | error res => exact h
  | ok plan =>
    obtain ⟨ops, res⟩ := plan
    obtain ⟨hp, records, rfl⟩ := createStream_spec hplan
    have hpos : 0 < srv.nextID := h.nextID ▸ recoverNextID_pos srv.db
    rw [← append_nil (createOps _ _ _ _ _)]
    exact h.create hheld ok hp rfl hpos rfl nofun

theorem createFork (L : GoLib) (flt : Faults) (ok : Bool)
    (p : ForkParams) (now nowMs : Int64) :
    ServerInv (srv.create ok (Yasdb.createFork L flt srv.db srv.nextID now nowMs p)) := by
  cases hplan : Yasdb.createFork L flt srv.db srv.nextID now nowMs p with
  | error res => exact h
  | ok plan =>
    obtain ⟨ops, res⟩ := plan
    obtain ⟨hp, src, m, records, n, hsrc, hid, hfrom, rfl⟩ := createFork_spec hplan
    obtain ⟨hlt, hpos⟩ := h.stored.ids _ _ hsrc
    refine h.create hheld ok hp hid ?_ ?_ fun op ho => ?_
    · rw [hfrom, hid, h.nextID]; exact hlt
    · have : m.forkedFrom ≠ 0 := by rw [hfrom]; omega
      rw [StreamMeta.base, if_neg this]
    · rw [mem_singleton.mp ho]; rfl

end

/-! ## Streamers -/

theorem held_of_rewrites {db' : Store} {s' : Streamer} (ha : Attached srv.db s)
    (r : Rewrites s.path s.id srv.db db') (ha' : Attached db' s') (hp : s'.path = s.path) (hid : s'.id = s.id) :
    ∀ p m, srv.held = some (.deleteStreamLocked p m) → ∃ m', db'.metaAt p = some m' ∧ m'.streamID = m.streamID := by
  intro p m he
  obtain ⟨m', hm', hid'⟩ := h.held p m he
  by_cases hpp : p = s.path
  · subst hpp
    rw [ha.streamMeta, some.injEq] at hm'
    refine ⟨s'.streamMeta, hp ▸ ha'.streamMeta, ?_⟩
    rw [ha'.id, hid, ← ha.id, hm', hid']
  · exact ⟨m', (r.frame (.metaKey p) hpp).trans hm', hid'⟩

omit h in
theorem setStreamer_removeStreamer (srv : Server) (path : Bytes) (durable : Bool) (ops : List Op) (s : Streamer) :
    ((srv.removeStreamer path).commit durable ops).setStreamer path s =
      (srv.commit durable ops).setStreamer path s := by
  unfold Server.removeStreamer Server.commit Server.setStreamer
  simp

theorem streamerCommit {s s' : Streamer} (hs : srv.registry path = some s) {ops : List Op}
    (r : Rewrites s.path s.id srv.db (applyOps srv.db ops)) (hp : s'.path = s.path) (hid : s'.id = s.id)
    (ha' : Attached (applyOps srv.db ops) s') (durable : Bool) :
    ServerInv ((srv.commit durable ops).setStreamer path s') := by
  obtain ⟨rfl, ha⟩ := h.resident path s hs
  rw [← setStreamer_removeStreamer]
  refine setStreamer ?_ hp ha'
  have hn : srv.nextID = recoverNextID (applyOps srv.db ops) := by
    have hlt := (h.stored.ids _ _ ha.streamMeta).1
    rw [r.counter, h.nextID]
    rw [ha.id] at hlt
    omega
  exact (h.removeStreamer s.path).rewritten r (update_self ..) hn (h.held_of_rewrites ha r ha' hp hid) durable

/-! ## Deletion and expiry -/

theorem deleteStreamLocked (ok : Bool) {m m' : StreamMeta} (hm : srv.db.metaAt path = some m')
    (hid : m'.streamID = m.streamID) : ServerInv (srv.deleteStreamLocked ok path m) := by
  have h₁ := (h.removeStreamer path).release
  cases ok with
  | false => exact h₁
  | true =>
    have r := rewrites_delete h.stored hm hid
    have hn : srv.nextID = recoverNextID (applyOps srv.db (deleteOps path m)) :=
      h.nextID.trans (recoverNextID_deleteOps srv.db path m).symm
    have h₂ := h₁.rewritten r (update_self ..) hn nofun true
    refine ⟨h₂.catalog, h₂.nextID, h₂.resident, fun d hd => ?_, fun p m₁ he => ?_⟩
    · rcases mem_append.mp hd with hd | hd
      · exact h₂.deleting d hd
      · rw [mem_singleton.mp hd]
        refine ⟨?_, idMappingAt_deleteOps srv.db path m⟩
        rw [← hid]
        exact hn ▸ h.nextID ▸ (h.stored.ids _ _ hm).1
    · change (if m.forkedFrom ≠ 0 then some (Task.dropForkRef m.forkedFrom) else none) = _ at he
      split at he <;> cases he

theorem softDeleteLocked (ok : Bool) (path : Bytes) (m : StreamMeta) : ServerInv (srv.softDeleteLocked ok path m) := by
  cases ok with
  | false => exact h.removeStreamer path
  | true =>
    refine (h.removeStreamer path).quiet true fun op ho => ?_
    rw [mem_singleton.mp ho]; trivial

theorem dropForkRef (flt : Faults) (ok : Bool) (sourceID : Nat) : ServerInv (srv.dropForkRef flt ok sourceID) := by
  have h₁ : ∀ n, ServerInv (if ok then srv.commit true [Op.put (.refCountKey sourceID) n] else srv) := by
    intro n
    cases ok with
    | false => exact h
    | true =>
      refine h.quiet true fun op ho => ?_
      rw [mem_singleton.mp ho]; trivial
  have h₂ := h₁ (loadRefCount flt srv.db sourceID - 1)
  refine ⟨h₂.catalog, h₂.nextID, h₂.resident, h₂.deleting, fun p m he => ?_⟩
  obtain ⟨-, path, m', hcas, -, hm⟩ := cascade_some he
  cases hcas
  exact ⟨m, hm, rfl⟩

theorem setPhase (i : Nat) (hd : Dead srv.db id) (next : Option DeletePhase) : ServerInv (srv.setPhase i id next) := by
  cases next with
  | none =>
    exact ⟨h.catalog, h.nextID, h.resident, fun d hm => h.deleting d (mem_of_mem_eraseIdx hm), h.held⟩
  | some phase =>
    refine ⟨h.catalog, h.nextID, h.resident, fun d hm => ?_, h.held⟩
    rcases mem_or_eq_of_mem_set hm with hm | rfl
    · exact h.deleting d hm
    · exact hd

end

/-! ## Runs -/

/-- **Every step keeps the invariant**, whatever its commit and its reads do. -/
theorem step (h : ServerInv srv) {L : GoLib} {e : Event} {srv' : Server} (he : step L srv e = some srv') :
    ServerInv srv' := by
  cases stepped he with
  | createStream p now nowMs flt ok hidle => exact h.createStream hidle L flt ok p now nowMs
  | createFork p now nowMs flt ok hidle => exact h.createFork hidle L flt ok p now nowMs
  | noSpawn => exact h
  | spawn hm ht => exact h.setStreamer rfl ⟨hm, rfl, loadTail_ok ht⟩
  | replied hs hl =>
    obtain ⟨hp, ha⟩ := h.resident _ _ hs
    exact h.setStreamer (hl.path.trans hp) (ha.loads hl)
  | burst hs hb =>
    obtain ⟨r, hp, ha'⟩ := rewrites_burst h.stored (h.resident _ _ hs).2 hb
    exact h.streamerCommit hs r hp (processBurst_commit hb).1.id ha' true
  | untouched hs =>
    obtain ⟨hp, ha⟩ := h.resident _ _ hs
    refine setStreamer ?_ hp ha
    exact { h with catalog := fun db hdb => h.catalog db (by simpa using hdb) }
  | @touch _ _ _ s d hs =>
    have ha := (h.resident _ _ hs).2
    exact @streamerCommit _ _ h s (s.setDeadline d) hs _ (rewrites_touch h.stored ha d) rfl rfl (ha.touchOps d) false
  | retire => exact h.removeStreamer _
  | noDelete => exact h
  | softDelete => exact h.softDeleteLocked _ _ _
  | delete _ hm => exact h.deleteStreamLocked _ hm rfl
  | dropForkRef => exact h.dropForkRef _ _ _
  | cascade hheld =>
    obtain ⟨m', hm', hid⟩ := h.held _ _ hheld
    exact h.deleteStreamLocked _ hm' hid
  | sweep => exact { h with }
  | skipped => exact { h with }
  | @stale d id dues =>
    have h' : ServerInv { srv with dues := dues } := { h with }
    refine h'.quiet false fun op ho => ?_
    rw [mem_singleton.mp ho]; trivial
  | @expire path m dues flt ok _ _ hm =>
    have h' : ServerInv { srv with dues := dues } := { h with }
    exact h'.deleteStreamLocked ok hm rfl
  | noChunk hd => exact h.setPhase _ (h.deleting _ hd) _
  | chunk hd hb =>
    have hq := backgroundDelete_unbound (h.deleting _ hd) hb
    exact (h.quiet true hq).setPhase _ ((quiet_applyOps hq).dead (h.deleting _ hd)) _
  | crash hdb => exact ServerInv.start (h.catalog _ (mem_of_getElem? hdb)) _

theorem reach {L : GoLib} {srv srv' : Server} (hr : Reach (Server.step L) Any srv srv') (h : ServerInv srv) :
    ServerInv srv' :=
  hr.invariant (fun _ _ _ h _ he => h.step he) h

end ServerInv

/-- **The stored log is contiguous.** In every state that a server reaches, whatever fails, each stream with metadata
stores exactly the records from its base (0, or the `ForkOffset` of a fork) up to its stored tail. -/
theorem stored_log_contiguous (L : GoLib) (seen : Nat) (srv : Server)
    (hr : Reach (Server.step L) Any (newServer ∅ seen) srv) (path : Bytes) (m : StreamMeta)
    (hm : srv.db.metaAt path = some m) :
    ∃ t, srv.db.tailAt m.streamID = some t ∧
      ∀ n, (srv.db.recordAt m.streamID n).isSome ↔ (if m.forkedFrom = 0 then 0 else m.forkOffset) ≤ n ∧ n < t.seq := by
  obtain ⟨t, ht, -, hrec⟩ := (ServerInv.reach hr (ServerInv.start catalog_empty seen)).stored.log path m hm
  exact ⟨t, ht, hrec⟩

/-! ## A sample run -/

/-- The path of the sample fork. -/
def forkPath : Bytes := [47, 102]

/-- A stream is created with one record and grows by another; a fork of it is created at its tail with one record of
its own. -/
def forkEvents : List Event :=
  [{ action := .createStream { path := samplePath, contentType := [], body := [1] } 0 0 },
    { action := .spawn samplePath },
    { action := .burst samplePath 0 [{ records := [[2]], hasBody := true }] },
    { action := .createFork { path := forkPath, sourcePath := samplePath, body := [3] } 0 0 }]

def forkMeta : StreamMeta where
  streamID := 2
  contentType := []
  forkedFrom := 1
  forkOffset := 2

/-- The sample fork stores its own record 2 and nothing else. -/
theorem stored_log_contiguous_fork : ∃ srv, Reach (step plainLib) Any (newServer ∅ 0) srv ∧
    srv.db.metaAt forkPath = some forkMeta ∧
    ∃ t, srv.db.tailAt 2 = some t ∧ ∀ n, (srv.db.recordAt 2 n).isSome ↔ 2 ≤ n ∧ n < t.seq := by
  have hm : ((run (step plainLib) (newServer ∅ 0) forkEvents).bind fun srv => srv.db.metaAt forkPath) =
      some forkMeta := by decide
  obtain ⟨srv, hrun, hm⟩ := bind_eq_some_iff.mp hm
  have hr : Reach (step plainLib) Any (newServer ∅ 0) srv := reach_any hrun
  exact ⟨srv, hr, hm, stored_log_contiguous plainLib 0 srv hr forkPath forkMeta hm⟩

/-- **Fork chains end**: in every state that a server reaches, a range of a stream is resolved within as many levels of
recursion as its id, whatever reads fail and whatever the outcome without fuel would be. -/
theorem fork_chains_end {L : GoLib} {seen : Nat} {srv : Server} (hr : Reach (step L) Any (newServer ∅ seen) srv)
    (flt : Faults) (out : Except String (List Segment)) {fuel id : Nat} (a b : Nat) (h : id < fuel) :
    resolveWithin out flt srv.db fuel id a b = resolveSegmentsByID flt srv.db (id + 1) id a b := by
  have hf : ForksBelow srv.db := (ServerInv.reach hr (.start catalog_empty seen)).stored.forksBelow
  exact resolveWithin_fuel hf out _ _ _ id a b h (by omega)

theorem fork_chains_end_fork : ∃ srv, Reach (step plainLib) Any (newServer ∅ 0) srv ∧
    resolveWithin (.error "out of fuel") noFaults srv.db 9 2 0 3 = .ok [⟨1, 0, 2⟩, ⟨2, 2, 3⟩] := by
  obtain ⟨srv, hs, h⟩ : ∃ srv ∈ run (step plainLib) (newServer ∅ 0) forkEvents,
      resolveSegmentsByID noFaults srv.db 3 2 0 3 = .ok [⟨1, 0, 2⟩, ⟨2, 2, 3⟩] := by decide
  exact ⟨srv, reach_any hs, (fork_chains_end (reach_any hs) _ _ 0 3 (by decide)).trans h⟩

end Yasdb
