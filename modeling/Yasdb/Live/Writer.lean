import Yasdb.Live.Steps
import Yasdb.Server.Sources

/-!
# What a live streamer has written and published

The writer's side of a live streamer (`Written`): the store holds every record below its tail, the bursts in the hands
of the committer continue it one after the other, what is published is stored, and a closure is the last thing a stream
publishes.

- `commit_burst`: what the commit of a planned burst does to the store;
- `Written.spawn`, `Sound.step`: the invariant holds at the start and is kept by every step;
- `Follows.entry`: no step changes an entry below the stored tail.
-/

namespace Yasdb

open Batch Lifecycle List Option Nat StreamMeta

variable {m' : StreamMeta} {path : Bytes} {n : Nat} {s₀ s' : Streamer}

/-- The entries of a stream, as the store holds them. -/
def storedEntry (db : Store) (m : StreamMeta) (n : Nat) : Bytes :=
  (payloadAt db m.streamID m.streamID m.forkedFrom m.forkOffset n).getD []

variable {m : StreamMeta}

theorem streamID_of_lineage (h : m'.lineage = m.lineage) : m'.streamID = m.streamID :=
  congrArg Prod.fst h

theorem storedEntry_of_lineage (h : m'.lineage = m.lineage) (db : Store) : storedEntry db m' = storedEntry db m := by
  simp only [lineage, Prod.mk.injEq] at h
  unfold storedEntry
  rw [h.1, h.2.1, h.2.2.1]

theorem payloadAt_storedEntry {db : Store} (hc : Catalog db) (hm : db.metaAt path = some m)
    (hroot : Rooted db m) (hn : n < loadTailSeq db m.streamID) :
    payloadAt db m.streamID m.streamID m.forkedFrom m.forkOffset n = some (storedEntry db m n) := by
  obtain ⟨v, hv⟩ := hroot.payloadAt_some hc hm hn
  rw [storedEntry, hv, getD_some]

theorem Grows.storedEntry_eq {db db' : Store} (g : Grows db db') (hc : Catalog db) (hc' : Catalog db')
    (hm : db.metaAt path = some m) (hroot : Rooted db m) (hn : n < loadTailSeq db m.streamID) :
    storedEntry db' m n = storedEntry db m n := by
  obtain ⟨m', hm', hl⟩ := g.kept hm
  have hv := payloadAt_storedEntry hc hm hroot hn
  rw [← storedEntry_of_lineage hl, storedEntry, hroot.payloadAt_grows g hc hc' hm hm' hn hv, getD_some]

namespace Live

/-! ## One planned burst -/

/-- The burst was planned on the writer view `s₀`, which then became `s₁`. -/
structure Job.PlannedOn (s₀ s₁ : Streamer) (j : Job) : Prop where
  burst : ∃ L flt db now batch, processBurst L flt db now s₀ batch = (s₁, .commit j.c)
  seg : j.seg.payloads = [] ∨ j.seg = ⟨s₀.writeTail, j.c.pend.recordOps.map opPayload⟩

/-- The captured payloads are entries of the stream, below its stored tail. -/
def SegStored (db : Store) (m : StreamMeta) (seg : CacheSeg) : Prop :=
  seg.payloads = [] ∨
    (seg.payloads = entries (storedEntry db m) seg.firstSeq (seg.firstSeq + seg.payloads.length) ∧
      seg.firstSeq + seg.payloads.length ≤ loadTailSeq db m.streamID)

variable {db : Store} {s s₁ : Streamer} {j : Job} {mode : Durability}

theorem SegStored.of_lineage {m : StreamMeta} {seg : CacheSeg} (h : SegStored db m seg)
    (hl : m'.lineage = m.lineage) : SegStored db m' seg := by
  unfold SegStored at h ⊢
  rw [storedEntry_of_lineage hl, streamID_of_lineage hl]
  exact h

theorem map_opPayload_recordOpsFrom (id : Nat) : ∀ (start : Nat) (recs : List Bytes),
    (recordOpsFrom id start recs).map opPayload = recs
  | _, [] => rfl
  | start, r :: recs => by
    rw [recordOpsFrom, map_cons, map_opPayload_recordOpsFrom id (start + 1) recs]
    show recordPayload _ :: recs = r :: recs
    rw [recordPayload_marshalRecord]

theorem lineage_applyWriter (s : Streamer) (pend : PendingBurst) (mc : Bool) :
    (applyWriter s pend mc).streamMeta.lineage = s.streamMeta.lineage := by
  cases mc with
  | false => rfl
  | true => rfl

theorem Job.PlannedOn.keeps (h : j.PlannedOn s₀ s₁) :
    s₁.path = s₀.path ∧ s₁.id = s₀.id ∧ s₁.streamMeta = s₀.streamMeta ∧ s₁.tail = s₀.tail ∧ s₁.closed = s₀.closed ∧
      s₁.writeTail = s₀.writeTail ∧ s₀.streamMeta.closed = false ∧ s₀.writeTail ≤ j.tail := by
  obtain ⟨L, flt, db, now, batch, hb⟩ := h.burst
  obtain ⟨hl, hc, -⟩ := processBurst_commit hb
  obtain ⟨recs, -, ht⟩ := processBurst_records hb
  rw [hl.streamMeta] at hc
  exact ⟨hl.path, hl.id, hl.streamMeta, hl.tail, hl.closed, hl.writeTail, hc, by rw [Job.tail, ht]; omega⟩

theorem Job.closed_applyWriter (h : j.closed = true) (s : Streamer) :
    (applyWriter s j.c.pend j.c.metaChanged).streamMeta.closed = true := by
  rw [Job.closed, Bool.and_eq_true] at h
  unfold applyWriter
  rw [if_pos h.1]
  exact h.2

/-- **The commit of a planned burst**: the streams grow, the stored tail moves to the end of the burst, and the payloads
captured for the cache are stored. -/
theorem commit_burst (hc : Catalog db) (ha : Attached db s₀) (hj : j.PlannedOn s₀ s₁) :
    Catalog (applyOps db j.c.ops) ∧ Grows db (applyOps db j.c.ops) ∧
      Attached (applyOps db j.c.ops) (applyWriter s₁ j.c.pend j.c.metaChanged) ∧
      loadTailSeq (applyOps db j.c.ops) s₀.id = j.tail ∧ SegStored (applyOps db j.c.ops) s₀.streamMeta j.seg := by
  obtain ⟨⟨L, flt, db₀, now, batch, hb⟩, hseg⟩ := hj
  obtain ⟨r, -, ha'⟩ := rewrites_burst hc ha hb
  have g := grows_burst hc ha hb
  have hc' := hc.rewrites r
  have hat : Attached (applyOps db j.c.ops) (applyWriter s₁ j.c.pend j.c.metaChanged) :=
    ⟨ha'.streamMeta, ha'.id, ha'.writeTail⟩
  obtain ⟨hl, -, p, -, hst, hcommit, -, -⟩ := processBurst_commit hb
  have htail : loadTailSeq (applyOps db j.c.ops) s₀.id = j.tail := by
    rw [← hl.id]
    exact hat.writeTail.symm
  refine ⟨hc', g, hat, htail, ?_⟩
  rcases hseg with hnil | hseg
  · exact .inl hnil
  · right
    obtain ⟨recs, hrec, hend⟩ := processBurst_records hb
    rw [hseg, hrec, map_opPayload_recordOpsFrom]
    dsimp only
    rw [ha.id, htail, Job.tail, hend]
    refine ⟨?_, le_refl _⟩
    -- the entries from the old tail on are the records of the burst
    obtain ⟨t, ht, hle, -⟩ := hc.log _ _ ha.streamMeta
    have hbase : s₀.streamMeta.forkedFrom = 0 ∨ s₀.streamMeta.forkOffset ≤ s₀.writeTail := by
      rw [ha.writeTail, ← ha.id, loadTailSeq, ht]
      unfold base at hle
      split at hle
      · exact .inl ‹_›
      · exact .inr hle
    refine ext_getElem? fun i => ?_
    rw [getElem?_entries]
    by_cases hi : i < recs.length
    · rw [if_pos (by omega), storedEntry, payloadAt_own _ _ _ (hbase.imp_right fun h => by omega), ha.id]
      have hr : Store.recordAt (applyOps db j.c.ops) s₀.id (s₀.writeTail + i) =
          some (marshalRecord recFlagNone recs[i]) := by
        rw [hcommit] at hrec ⊢
        show (applyOps db (burstOps p.st p.pend p.metaChanged)).lookup (.recordKey s₀.id (s₀.writeTail + i)) = _
        rw [lookup_applyOps, effect_burstOps_record, show p.pend.recordOps = _ from hrec, effect_recordOpsFrom,
          if_pos (by omega), Nat.add_sub_cancel_left, getElem?_eq_getElem hi]
        rfl
      rw [hr, map_some, getD_some, recordPayload_marshalRecord, getElem?_eq_getElem hi]
    · rw [if_neg (by omega), getElem?_eq_none (by omega)]

/-! ## The bursts in the hands of the committer -/

/-- The bursts to be committed by the notifier committer continue the store one after the other, up to the writer view
`s`. -/
def Queued (s : Streamer) : Store → List Job → Prop
  | db, [] => Attached db s
  | db, j :: js =>
    (∃ s₀ s₁, Attached db s₀ ∧ j.PlannedOn s₀ s₁ ∧ s₀.path = s.path ∧ s₀.id = s.id) ∧ Queued s (applyOps db j.c.ops) js

theorem Queued.congr (hp : s'.path = s.path) (hid : s'.id = s.id)
    (ha : ∀ db, Attached db s → Attached db s') : ∀ {db : Store} {js : List Job}, Queued s db js → Queued s' db js
  | _, [], h => ha _ h
  | _, _ :: _, ⟨⟨s₀, s₁, hat, hj, hp', hid'⟩, h⟩ =>
    ⟨⟨s₀, s₁, hat, hj, hp'.trans hp.symm, hid'.trans hid.symm⟩, h.congr hp hid ha⟩

theorem Queued.plan (hj : j.PlannedOn s s₁) : ∀ {db : Store} {js : List Job},
    (∀ db, Attached db s → Attached (applyOps db j.c.ops) (applyWriter s₁ j.c.pend j.c.metaChanged)) → Queued s db js →
    Queued (applyWriter s₁ j.c.pend j.c.metaChanged) db (js ++ [j])
  | _, [], ha, h => ⟨⟨s, s₁, h, hj, hj.keeps.1.symm, hj.keeps.2.1.symm⟩, ha _ h⟩
  | _, _ :: _, ha, ⟨⟨s₀, s₂, hat, hk, hp, hid⟩, h⟩ =>
    ⟨⟨s₀, s₂, hat, hk, hp.trans hj.keeps.1.symm, hid.trans hj.keeps.2.1.symm⟩, h.plan hj ha⟩

/-- What the committer holds: the sync committer has at most one burst, which is not yet in the writer view. -/
def Queue (mode : Durability) (db : Store) (s : Streamer) (planned : List Job) : Prop :=
  match mode with
  | .notifier => Queued s db planned
  | .sync => Attached db s ∧ (planned = [] ∨ ∃ j s₀, planned = [j] ∧ Attached db s₀ ∧ j.PlannedOn s₀ s)

theorem Queue.head {js : List Job} (h : Queue mode db s (j :: js)) :
    ∃ s₀ s₁, Attached db s₀ ∧ j.PlannedOn s₀ s₁ ∧ s₀.path = s.path ∧ s₀.id = s.id ∧ (mode = .sync → s₁ = s ∧ js = []) ∧
      (mode = .notifier → Queued s (applyOps db j.c.ops) js) := by
  cases mode with
  | notifier =>
    obtain ⟨⟨s₀, s₁, ha, hj, hp, hid⟩, hq⟩ := h
    exact ⟨s₀, s₁, ha, hj, hp, hid, nofun, fun _ => hq⟩
  | sync =>
    obtain ⟨-, hnil | ⟨j', s₀, he, ha, hj⟩⟩ := h
    · cases hnil
    · cases he
      exact ⟨s₀, s, ha, hj, hj.keeps.1.symm, hj.keeps.2.1.symm, fun _ => ⟨rfl, rfl⟩, nofun⟩

theorem Queued.le : ∀ {db : Store} {js : List Job}, Catalog db → Queued s db js → loadTailSeq db s.id ≤ s.writeTail
  | _, [], _, h => le_of_eq h.writeTail.symm
  | _, _ :: _, hc, ⟨⟨s₀, s₁, ha, hj, _, hid⟩, h⟩ => by
    obtain ⟨hc', -, -, htail, -⟩ := commit_burst hc ha hj
    have hle := h.le hc'
    rw [← hid, htail] at hle
    have := hj.keeps.2.2.2.2.2.2.2
    rw [← hid, ← ha.writeTail]
    omega

theorem Queue.le {planned : List Job} (hc : Catalog db) (h : Queue mode db s planned) :
    loadTailSeq db s.id ≤ s.writeTail := by
  cases mode with
  | notifier => exact Queued.le hc h
  | sync => exact le_of_eq h.1.writeTail.symm

theorem Queue.published {planned : List Job} (h : Queue mode db s planned) (hsync : mode = .sync → planned = [])
    (tail : Nat) (closed : Bool) : Queue mode db { s with tail := tail, closed := closed } planned := by
  have ha : ∀ db, Attached db s → Attached db { s with tail := tail, closed := closed } :=
    fun _ ha => ⟨ha.streamMeta, ha.id, ha.writeTail⟩
  cases mode with
  | notifier =>
    refine Queued.congr ?_ ?_ ha h <;> rfl
  | sync => exact ⟨ha db h.1, .inl (hsync rfl)⟩

/-! ## The invariant -/

/-- The bursts that are committed and not yet published. -/
def outstanding (landed : List Job) (pub : Option (Job × Stage)) : List Job := pub.toList.map Prod.fst ++ landed

/-- `applyReader` has stored the tail. -/
def Stage.tailDone : Stage → Bool
  | .cache | .tail => false
  | _ => true

structure Written (mode : Durability) (db : Store) (s : Streamer) (planned landed : List Job)
    (pub : Option (Job × Stage)) : Prop where
  catalog : Catalog db
  rooted : Rooted db s.streamMeta
  placed : ∃ m, db.metaAt s.path = some m ∧ m.lineage = s.streamMeta.lineage
  id : s.streamMeta.streamID = s.id
  queue : Queue mode db s planned
  stored : ∀ j ∈ outstanding landed pub, j.tail ≤ loadTailSeq db s.id ∧ SegStored db s.streamMeta j.seg
  tail : s.tail ≤ loadTailSeq db s.id
  ordered : (s.tail :: (outstanding landed pub).map Job.tail).Pairwise (· ≤ ·)
  /-- a burst that closes the stream is the last one -/
  closing : ∀ j, j ∈ outstanding landed pub ∨ (mode = .notifier ∧ j ∈ planned) → j.closed = true →
    s.streamMeta.closed = true ∧ j.tail = s.writeTail
  final : s.closed = true → s.streamMeta.closed = true ∧ s.tail = s.writeTail
  published : ∀ j stage, pub = some (j, stage) → stage.tailDone = true → s.tail = j.tail
  /-- the sync committer finishes a burst before the next one -/
  exclusive : mode = .sync → planned ≠ [] → landed = [] ∧ pub = none

namespace Written

variable {mode : Durability} {db : Store} {s : Streamer} {planned landed : List Job} {pub : Option (Job × Stage)}

theorem spawn (mode : Durability) {m : StreamMeta} (hc : Catalog db) (hm : db.metaAt path = some m)
    (hroot : Rooted db m) :
    Written mode db (newStreamer path m (loadTailSeq db m.streamID)) [] [] none := by
  have ha : Attached db (newStreamer path m (loadTailSeq db m.streamID)) := ⟨hm, rfl, rfl⟩
  refine ⟨hc, hroot, ⟨m, hm, rfl⟩, rfl, ?_, nofun, le_refl _, pairwise_singleton _ _,
    fun _ h => ?_, fun h => ⟨h, rfl⟩, nofun, fun _ h => absurd rfl h⟩
  · cases mode with
    | sync => exact ⟨ha, .inl rfl⟩
    | notifier => exact ha
  · rcases h with h | ⟨-, h⟩ <;> cases h

section

variable (h : Written mode db s planned landed pub)
include h

theorem entry (hn : n < loadTailSeq db s.id) :
    payloadAt db s.id s.id s.streamMeta.forkedFrom s.streamMeta.forkOffset n =
      some (storedEntry db s.streamMeta n) := by
  obtain ⟨m, hm, hl⟩ := h.placed
  have he := storedEntry_of_lineage hl db
  have hroot := h.rooted.of_lineage hl
  simp only [lineage, Prod.mk.injEq] at hl
  rw [← h.id, ← hl.1] at hn ⊢
  rw [← hl.2.1, ← hl.2.2.1, ← he]
  exact payloadAt_storedEntry h.catalog hm hroot hn

/-- A closed stream that is stored as such has its final tail. -/
theorem stored_closed {m : StreamMeta} (hm : db.metaAt s.path = some m)
    (hcl : m.closed = true) : s.streamMeta.closed = true ∧ loadTailSeq db s.id = s.writeTail := by
  have key : ∀ {s₀ : Streamer}, Attached db s₀ → s₀.path = s.path → m = s₀.streamMeta := by
    intro s₀ ha hp
    have := ha.streamMeta
    rw [hp, hm, some.injEq] at this
    exact this
  have hq := h.queue
  have hclosed : planned ≠ [] → False := by
    intro hne
    obtain ⟨j, js, rfl⟩ := exists_cons_of_ne_nil hne
    obtain ⟨s₀, s₁, ha, hj, hp, -⟩ := hq.head
    have := hj.keeps.2.2.2.2.2.2.1
    rw [← key ha hp, hcl] at this
    cases this
  have ha : Attached db s := by
    cases mode with
    | sync => exact hq.1
    | notifier =>
      cases planned with
      | nil => exact hq
      | cons j js => exact (hclosed (cons_ne_nil j js)).elim
  exact ⟨key ha rfl ▸ hcl, ha.writeTail.symm⟩

/-! ## Planning -/

/-- The streamer answers a burst from its own view. -/
theorem reply {flt : Faults} {db₀ : Store}
    (hl : Loads flt db₀ s s') (hsync : mode = .sync → planned = []) : Written mode db s' planned landed pub := by
  have hq : Queue mode db s' planned := by
    cases mode with
    | sync => exact ⟨h.queue.1.loads hl, .inl (hsync rfl)⟩
    | notifier => exact Queued.congr hl.path hl.id (fun _ ha => ha.loads hl) h.queue
  obtain ⟨hc, hroot, hp, hid, -, hst, ht, ho, hcl, hf, hpub, hex⟩ := h
  refine ⟨hc, hl.streamMeta ▸ hroot, ?_, ?_, hq, ?_, ?_, ?_, ?_, ?_, ?_, hex⟩
  · rw [hl.path, hl.streamMeta]; exact hp
  · rw [hl.id, hl.streamMeta]; exact hid
  · rw [hl.id, hl.streamMeta]; exact hst
  · rw [hl.id, hl.tail]; exact ht
  · rw [hl.tail]; exact ho
  · rw [hl.streamMeta, hl.writeTail]; exact hcl
  · rw [hl.streamMeta, hl.writeTail, hl.closed, hl.tail]; exact hf
  · rw [hl.tail]; exact hpub

end

variable {s₁ : Streamer} {j : Job} {js : List Job}

theorem planSync (h : Written .sync db s [] [] none) (hj : j.PlannedOn s s₁) : Written .sync db s₁ [j] [] none := by
  obtain ⟨L, flt, db₀, now, batch, hb⟩ := hj.burst
  have h' := h.reply (processBurst_commit hb).1 (fun _ => rfl)
  exact { h' with
    queue := ⟨h'.queue.1, .inr ⟨j, s, rfl, h.queue.1, hj⟩⟩
    closing := fun k hk => h'.closing k (hk.imp_right fun hk => by cases hk.1)
    exclusive := fun _ _ => ⟨rfl, rfl⟩ }

/-- A burst is planned for the notifier committer. -/
theorem planNotifier (h : Written .notifier db s planned landed pub) (hj : j.PlannedOn s s₁) :
    Written .notifier db (applyWriter s₁ j.c.pend j.c.metaChanged) (planned ++ [j]) landed pub := by
  obtain ⟨hpath, hid, hm, ht, hcl, -, hopen, hle⟩ := hj.keeps
  have hlin := lineage_applyWriter s₁ j.c.pend j.c.metaChanged
  have hsid : (applyWriter s₁ j.c.pend j.c.metaChanged).streamMeta.streamID = s.streamMeta.streamID := by
    rw [← hm]; exact streamID_of_lineage hlin
  have hq : Queued (applyWriter s₁ j.c.pend j.c.metaChanged) db (planned ++ [j]) := by
    refine Queued.plan hj (fun db' ha => ?_) h.queue
    obtain ⟨L, flt, db₀, now, batch, hb⟩ := hj.burst
    obtain ⟨hl, -, p, -, rfl, hc, hn, hP⟩ := processBurst_commit hb
    rw [hc]
    exact (ha.loads hl).applyWriter hP hn
  -- the stream was open, so no burst before this one closes it
  have hno : s.streamMeta.closed = true → False := fun hc => by rw [hopen] at hc; cases hc
  refine ⟨h.catalog, (hm ▸ h.rooted : Rooted db s₁.streamMeta).of_lineage hlin, ?_, hsid.trans (h.id.trans hid.symm),
    hq,
    fun k hk => ?_, ?_, ?_, fun k hk hk' => ?_, fun hc => ?_, ?_, nofun⟩
  · obtain ⟨m, hmeta, hl⟩ := h.placed
    exact ⟨m, by rw [← hmeta]; exact congrArg db.metaAt hpath, by rw [hl, hlin, hm]⟩
  · obtain ⟨h1, h2⟩ := h.stored k hk
    refine ⟨?_, ?_⟩
    · show k.tail ≤ loadTailSeq db s₁.id
      rw [hid]; exact h1
    · exact h2.of_lineage (hlin.trans (congrArg _ hm))
  · show s₁.tail ≤ loadTailSeq db s₁.id
    rw [ht, hid]; exact h.tail
  · show (s₁.tail :: _).Pairwise _
    rw [ht]; exact h.ordered
  · rcases hk with hk | ⟨-, hk⟩
    · exact (hno (h.closing k (.inl hk) hk').1).elim
    · rcases mem_append.mp hk with hk | hk
      · exact (hno (h.closing k (.inr ⟨rfl, hk⟩) hk').1).elim
      · rw [mem_singleton.mp hk] at hk' ⊢
        exact ⟨Job.closed_applyWriter hk' s₁, rfl⟩
  · have hc' : s₁.closed = true := hc
    rw [hcl] at hc'
    exact (hno (h.final hc').1).elim
  · show ∀ k stage, pub = some (k, stage) → stage.tailDone = true → s₁.tail = k.tail
    rw [ht]; exact h.published

/-! ## Committing -/

/-- The commit of the first burst, whatever view the streamer has afterwards. -/
theorem land (h : Written mode db s (j :: js) landed pub) (ha : Attached db s₀)
    (hj : j.PlannedOn s₀ s₁) (hp₀ : s₀.path = s.path) (hid₀ : s₀.id = s.id) (hp : s'.path = s.path)
    (hid : s'.id = s.id) (hlin : s'.streamMeta.lineage = s.streamMeta.lineage) (ht : s'.tail = s.tail)
    (hq : Queue mode (applyOps db j.c.ops) s' js)
    (hclosing : ∀ k, k ∈ outstanding (landed ++ [j]) pub ∨ (mode = .notifier ∧ k ∈ js) → k.closed = true →
      s'.streamMeta.closed = true ∧ k.tail = s'.writeTail)
    (hfinal : s'.closed = true → s'.streamMeta.closed = true ∧ s'.tail = s'.writeTail)
    (hsync : mode = .sync → js = []) : Written mode (applyOps db j.c.ops) s' js (landed ++ [j]) pub := by
  obtain ⟨hc', g, -, htail, hseg⟩ := commit_burst h.catalog ha hj
  have hle := hj.keeps.2.2.2.2.2.2.2
  rw [hid₀] at htail
  have hgrow : loadTailSeq db s.id ≤ j.tail := by rw [← hid₀, ← ha.writeTail]; exact hle
  have hsid : s'.streamMeta.streamID = s.streamMeta.streamID := streamID_of_lineage hlin
  obtain ⟨m, hm, hml⟩ := h.placed
  have hm₀ : m = s₀.streamMeta := by
    have := ha.streamMeta
    rw [hp₀, hm, some.injEq] at this
    exact this
  have hmem : ∀ k ∈ outstanding (landed ++ [j]) pub, k ∈ outstanding landed pub ∨ k = j := by
    intro k hk
    unfold outstanding at hk ⊢
    rw [← append_assoc, mem_append, mem_singleton] at hk
    exact hk
  -- captured payloads stay what they are
  have hkeep : ∀ seg, SegStored db s.streamMeta seg → SegStored (applyOps db j.c.ops) s'.streamMeta seg := by
    rintro seg (hnil | ⟨hseg, hb⟩)
    · exact .inl hnil
    · right
      rw [hsid, h.id, htail, storedEntry_of_lineage hlin]
      rw [h.id] at hb
      refine ⟨hseg.trans (entries_congr fun n _ hn => ?_), hb.trans hgrow⟩
      rw [← storedEntry_of_lineage hml, ← storedEntry_of_lineage hml]
      refine (g.storedEntry_eq h.catalog hc' hm (h.rooted.of_lineage hml) ?_).symm
      rw [streamID_of_lineage hml, h.id]
      omega
  refine ⟨hc', g.rooted (h.rooted.of_lineage hlin), ?_, hsid.trans (h.id.trans hid.symm), hq, fun k hk => ?_, ?_, ?_,
    hclosing, hfinal, ?_, fun hs hne => absurd (hsync hs) hne⟩
  · obtain ⟨m', hm', hl'⟩ := g.kept hm
    exact ⟨m', by rw [hp]; exact hm', hl'.trans (hml.trans hlin.symm)⟩
  · rw [hid, htail]
    rcases hmem k hk with hk | rfl
    · exact ⟨(h.stored k hk).1.trans hgrow, hkeep _ (h.stored k hk).2⟩
    · refine ⟨le_refl _, ?_⟩
      exact hseg.of_lineage (hlin.trans (hml.symm.trans (congrArg _ hm₀)))
  · rw [ht, hid, htail]
    exact h.tail.trans hgrow
  · have happ : (outstanding (landed ++ [j]) pub).map Job.tail = (outstanding landed pub).map Job.tail ++ [j.tail] := by
      unfold outstanding
      rw [← append_assoc, map_append]
      rfl
    rw [ht, happ, ← cons_append, pairwise_append]
    refine ⟨h.ordered, pairwise_singleton _ _, fun a hmema b hb => ?_⟩
    rw [mem_singleton.mp hb]
    rcases mem_cons.mp hmema with rfl | hmema
    · exact h.tail.trans hgrow
    · obtain ⟨k, hk, rfl⟩ := List.mem_map.mp hmema
      exact (h.stored k hk).1.trans hgrow
  · rw [ht]; exact h.published

theorem commitSync (h : Written .sync db s (j :: js) landed pub) :
    Written .sync (applyOps db j.c.ops) (applyWriter s j.c.pend j.c.metaChanged) js (landed ++ [j]) pub := by
  obtain ⟨s₀, s₁, ha, hj, hp, hid, hsync, -⟩ := h.queue.head
  obtain ⟨rfl, rfl⟩ := hsync rfl
  obtain ⟨-, -, hm, -, -, -, hopen, -⟩ := hj.keeps
  have hno : s₁.streamMeta.closed = true → False := fun hc => by rw [hm, hopen] at hc; cases hc
  refine h.land ha hj hp hid rfl rfl (lineage_applyWriter _ _ _) rfl ?_ (fun k hk hk' => ?_) (fun hc => ?_) fun _ => rfl
  · exact ⟨(commit_burst h.catalog ha hj).2.2.1, .inl rfl⟩
  · rcases hk with hk | ⟨hk, -⟩
    · unfold outstanding at hk
      rw [← append_assoc, mem_append, mem_singleton] at hk
      rcases hk with hk | rfl
      · exact (hno (h.closing k (.inl hk) hk').1).elim
      · exact ⟨Job.closed_applyWriter hk' s₁, rfl⟩
    · cases hk
  · exact (hno (h.final hc).1).elim

theorem commitNotifier (h : Written .notifier db s (j :: js) landed pub) :
    Written .notifier (applyOps db j.c.ops) s js (landed ++ [j]) pub := by
  obtain ⟨s₀, s₁, ha, hj, hp, hid, -, hq⟩ := h.queue.head
  refine h.land ha hj hp hid rfl rfl rfl rfl (hq rfl) (fun k hk hk' => ?_) h.final nofun
  refine h.closing k ?_ hk'
  rcases hk with hk | ⟨-, hk⟩
  · unfold outstanding at hk ⊢
    rw [← append_assoc, mem_append, mem_singleton] at hk
    rcases hk with hk | rfl
    · exact .inl hk
    · exact .inr ⟨rfl, mem_cons_self⟩
  · exact .inr ⟨rfl, mem_cons_of_mem _ hk⟩

theorem drop (h : Written .sync db s (j :: js) landed pub) : Written .sync db s js landed pub := by
  obtain ⟨s₀, s₁, -, -, -, -, hsync, -⟩ := h.queue.head
  obtain ⟨-, rfl⟩ := hsync rfl
  exact { h with
    queue := ⟨h.queue.1, .inl rfl⟩
    closing := fun k hk => h.closing k (hk.imp_right fun hk => by cases hk.1)
    exclusive := fun _ hne => absurd rfl hne }

/-! ## Publishing -/

theorem publish (h : Written mode db s planned (j :: js) none) : Written mode db s planned js (some (j, .cache)) :=
  { h with
    published := fun _ _ he hd => by cases he; cases hd
    exclusive := fun hs hne => by cases (h.exclusive hs hne).1 }

section Pub

variable {j : Job} {stage stage' : Stage}

section

variable (h : Written mode db s planned landed (some (j, stage)))
include h

theorem planned_nil (hs : mode = .sync) : planned = [] := by
  by_contra hne
  cases (h.exclusive hs hne).2

theorem goOn (hd : stage'.tailDone = true → stage.tailDone = true) :
    Written mode db s planned landed (some (j, stage')) :=
  { h with
    published := fun _ _ he hd' => by cases he; exact h.published j stage rfl (hd hd')
    exclusive := fun hs hne => absurd (h.planned_nil hs) hne }

theorem done : Written mode db s planned landed none :=
  { h with
    stored := fun k hk => h.stored k (mem_cons_of_mem _ hk)
    ordered := h.ordered.sublist (List.Sublist.cons_cons _ (sublist_cons_self _ _))
    closing := fun k hk => h.closing k (hk.imp_left (mem_cons_of_mem _))
    published := nofun
    exclusive := fun hs hne => absurd (h.planned_nil hs) hne }

/-- The publisher stores the tail. -/
theorem setTail : Written mode db { s with tail := j.tail } planned landed (some (j, stage')) := by
  have hj : j ∈ outstanding landed (some (j, stage)) := mem_cons_self
  have hle : s.tail ≤ j.tail := rel_of_pairwise_cons h.ordered (List.mem_map_of_mem hj)
  refine ⟨h.catalog, h.rooted, h.placed, h.id, h.queue.published h.planned_nil _ _, h.stored, (h.stored j hj).1, ?_,
    h.closing, fun hc => ?_, fun _ _ he _ => by cases he; rfl, fun hs hne => absurd (h.planned_nil hs) hne⟩
  · have ho := (pairwise_cons.mp h.ordered).2
    refine pairwise_cons.mpr ⟨fun a ha => ?_, ho⟩
    rcases mem_cons.mp ha with rfl | ha
    · exact le_refl _
    · exact rel_of_pairwise_cons ho ha
  · obtain ⟨h1, h2⟩ := h.final hc
    refine ⟨h1, le_antisymm ((h.stored j hj).1.trans (h.queue.le h.catalog)) ?_⟩
    rw [← h2]
    exact hle

theorem setClosed (hd : stage.tailDone = true)
    (hj : j.closed = true) : Written mode db { s with closed := true } planned landed (some (j, stage)) := by
  obtain ⟨h1, h2⟩ := h.closing j (.inl mem_cons_self) hj
  exact ⟨h.catalog, h.rooted, h.placed, h.id, h.queue.published h.planned_nil _ _, h.stored, h.tail, h.ordered,
    h.closing, fun _ => ⟨h1, (h.published j stage rfl hd).trans h2⟩, h.published, h.exclusive⟩

end

end Pub

end Written

/-! ## Steps -/

/-- The invariant, for a state. -/
def State.Sound (cfg : Config) (st : State) : Prop := Written cfg.durability st.db st.s st.planned st.landed st.pub

/-- What a step keeps of the stream. -/
structure Follows (st st' : State) : Prop where
  path : st'.s.path = st.s.path
  id : st'.s.id = st.s.id
  lineage : st'.s.streamMeta.lineage = st.s.streamMeta.lineage
  contentType : st'.s.streamMeta.contentType = st.s.streamMeta.contentType
  grows : Grows st.db st'.db
  tail : st.s.tail ≤ st'.s.tail

theorem Follows.of_eq {st st' : State} (hdb : st'.db = st.db) (hs : st'.s = st.s) : Follows st st' := by
  refine ⟨?_, ?_, ?_, ?_, ?_, ?_⟩
  · rw [hs]
  · rw [hs]
  · rw [hs]
  · rw [hs]
  · rw [hdb]; exact .refl _
  · rw [hs]

section Step

variable {L : GoLib} {cfg : Config} {st st' : State}

section

variable (h : st.Sound cfg)
include h

theorem Sound.plan {flt : Faults} {now : Int64} {batch : List AppendReq}
    (he : st.plan L cfg flt now batch = some st') : st'.Sound cfg ∧ Follows st st' := by
  unfold State.Sound at h ⊢
  obtain ⟨hfree, ⟨s, responses, hb, rfl⟩ | ⟨s, c, hb, hmode⟩⟩ := plan_cases he
  · have hl := (processBurst_reply hb).1
    refine ⟨h.reply hl fun hs => (hfree hs).1, hl.path, hl.id, by rw [hl.streamMeta], by rw [hl.streamMeta], .refl _,
      ?_⟩
    exact le_of_eq hl.tail.symm
  · have hl := (processBurst_commit hb).1
    have hj : Job.PlannedOn st.s s ⟨c, st.capture st.s.writeTail c⟩ := by
      refine ⟨⟨L, flt, st.db, now, batch, hb⟩, ?_⟩
      unfold State.capture
      split
      · exact .inr rfl
      · exact .inl rfl
    rcases hmode with ⟨hm, rfl⟩ | ⟨hm, rfl⟩
    · obtain ⟨hp, hld, hpub⟩ := hfree hm
      rw [hm, hp, hld, hpub] at h
      refine ⟨?_, hl.path, hl.id, by rw [hl.streamMeta], by rw [hl.streamMeta], .refl _, le_of_eq hl.tail.symm⟩
      rw [hm]
      rw [hld, hpub]
      exact h.planSync hj
    · rw [hm] at h ⊢
      refine ⟨h.planNotifier hj, hl.path, hl.id, ?_, ?_, .refl _, le_of_eq hl.tail.symm⟩
      · rw [← hl.streamMeta]; exact lineage_applyWriter s c.pend c.metaChanged
      · rw [← hl.streamMeta]
        cases c.metaChanged <;> rfl

theorem Sound.commit {ok : Bool} (he : st.commit cfg ok = some st') : st'.Sound cfg ∧ Follows st st' := by
  unfold State.Sound at h ⊢
  obtain ⟨j, js, hp, hmode⟩ := commit_cases he
  rw [hp] at h
  obtain ⟨s₀, s₁, ha, hj, -⟩ := h.queue.head
  have g := (commit_burst h.catalog ha hj).2.1
  rcases hmode with ⟨hm, rfl⟩ | ⟨hm, rfl⟩ | ⟨hm, rfl⟩
  · rw [hm] at h ⊢
    exact ⟨h.drop, .of_eq rfl rfl⟩
  · rw [hm] at h ⊢
    refine ⟨h.commitSync, rfl, rfl, lineage_applyWriter _ _ _, ?_, g, le_refl _⟩
    cases j.c.metaChanged <;> rfl
  · rw [hm] at h ⊢
    exact ⟨h.commitNotifier, rfl, rfl, rfl, rfl, g, le_refl _⟩

theorem Sound.applyStage {now : Int} {j : Job} {stage : Stage} (hp : st.pub = some (j, stage)) :
    (st.applyStage cfg now j stage).Sound cfg ∧ Follows st (st.applyStage cfg now j stage) := by
  unfold State.Sound at h ⊢
  rw [hp] at h
  cases stage with
  | cache => exact ⟨h.goOn nofun, .of_eq rfl rfl⟩
  | tail =>
    refine ⟨h.setTail, rfl, rfl, rfl, rfl, .refl _, ?_⟩
    exact rel_of_pairwise_cons h.ordered (List.mem_map_of_mem mem_cons_self)
  | closed =>
    unfold State.applyStage
    dsimp only
    split
    · rename_i hc
      exact ⟨(h.setClosed rfl hc).goOn fun _ => rfl, rfl, rfl, rfl, rfl, .refl _, le_refl _⟩
    · exact ⟨h.goOn fun _ => rfl, .of_eq rfl rfl⟩
  | gate =>
    rcases applyStage_gate cfg st now j with ⟨-, hst⟩ | ⟨-, hst⟩
    · rw [hst]
      exact ⟨h.goOn fun _ => rfl, .of_eq rfl rfl⟩
    · rw [hst]
      exact ⟨h.done, .of_eq rfl rfl⟩
  | wake =>
    rcases applyStage_wake cfg st now j with ⟨last, hst⟩ | hst
    · rw [hst]
      exact ⟨h.goOn fun _ => rfl, .of_eq rfl rfl⟩
    · rw [hst]
      exact ⟨h.done, .of_eq rfl rfl⟩
  | cast c =>
    cases c with
    | swap => exact ⟨h.goOn fun _ => rfl, .of_eq rfl rfl⟩
    | close chan => exact ⟨h.done, .of_eq rfl rfl⟩

/-- **Every step keeps the invariant**, and leaves what is stored. -/
theorem Sound.step {e : Event} (he : st.step L cfg e = some st') : st'.Sound cfg ∧ Follows st st' := by
  rcases step_cases he with ⟨rs, total, leaving, -, rfl⟩ | ⟨flt, now, batch, hp⟩ | ⟨ok, hc⟩ | hp |
    ⟨now, j, stage, -, hp, rfl⟩ | ⟨now, hf⟩ | ⟨k, hf⟩
  · exact ⟨h, .of_eq rfl rfl⟩
  · exact Sound.plan h hp
  · exact Sound.commit h hc
  · obtain ⟨j, js, hpub, hl, rfl⟩ := publish_cases hp
    unfold State.Sound at h
    rw [hpub, hl] at h
    exact ⟨h.publish, .of_eq rfl rfl⟩
  · exact Sound.applyStage h hp
  · obtain ⟨-, rfl⟩ := fire_cases hf
    exact ⟨h, .of_eq rfl rfl⟩
  · rcases fireStep_cases hf with ⟨-, rfl⟩ | ⟨chan, -, rfl⟩ <;> exact ⟨h, .of_eq rfl rfl⟩

end

theorem Follows.entry (f : Follows st st') (h : st.Sound cfg) (h' : st'.Sound cfg)
    (hn : n < loadTailSeq st.db st.s.id) :
    storedEntry st'.db st'.s.streamMeta n = storedEntry st.db st.s.streamMeta n := by
  obtain ⟨m, hm, hl⟩ := h.placed
  rw [storedEntry_of_lineage f.lineage, ← storedEntry_of_lineage hl, ← storedEntry_of_lineage hl]
  refine f.grows.storedEntry_eq h.catalog h'.catalog hm (h.rooted.of_lineage hl) ?_
  rw [streamID_of_lineage hl, h.id]
  exact hn

theorem Follows.stored_le (f : Follows st st') (h : st.Sound cfg) :
    loadTailSeq st.db st.s.id ≤ loadTailSeq st'.db st'.s.id := by
  obtain ⟨m, hm, hl⟩ := h.placed
  have := f.grows.tails st.s.path m hm
  rw [streamID_of_lineage hl, h.id] at this
  rw [f.id]
  exact this

end Step

end Live

end Yasdb
