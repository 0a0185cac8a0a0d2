import Yasdb.Server.Sources
import Yasdb.Server.Pages

/-!
# The logical log of a fork

The logical log of a plain stream is its own records; that of a fork is the first `ForkOffset` entries of its source's
logical log at the time of the fork, followed by the fork's own records. To say what the source's log was when a fork
was made, the server is run together with an observer that notes it (`Observed`). Creations, forks and appends, with
any failures, keep the invariant `LogInv`:

- `LogInv.payloadAt`: what the store holds for an entry of a stream is the entry of its logical log;
- `fork_reads_log`: **the segments of a range hold that range of the logical log**.
-/

namespace Yasdb

open Batch Runs Function List Option StreamMeta Server Nat

variable {p : Bytes} {L : GoLib} {id n : Nat} {m' : StreamMeta} {origin' : Nat → List Bytes}

/-! ## Logical logs -/

/-- The records that a stream stores itself. -/
def ownEntries (db : Store) (m : StreamMeta) : List Bytes :=
  entries (db.payload m.streamID) m.base (loadTailSeq db m.streamID)

/-- The logical log of a stream; `origin id` is the logical log of the source of the fork `id` when it was made. -/
def logicalLog (origin : Nat → List Bytes) (db : Store) (m : StreamMeta) : List Bytes :=
  if m.forkedFrom = 0 then ownEntries db m else (origin m.streamID).take m.forkOffset ++ ownEntries db m

/-- The server and what its observer has noted. -/
structure Observed where
  srv : Server
  origin : Nat → List Bytes := fun _ => []

/-- When a fork appears, note the logical log of its source. -/
def Observed.note (o : Observed) (srv' : Server) (a : Action) : Nat → List Bytes :=
  match a with
  | .createFork p _ _ =>
    match o.srv.db.metaAt p.path, srv'.db.metaAt p.path, o.srv.db.metaAt p.sourcePath with
    | none, some m, some src => update o.origin m.streamID (logicalLog o.origin o.srv.db src)
    | _, _, _ => o.origin
  | _ => o.origin

def Observed.step (L : GoLib) (o : Observed) (e : Event) : Option Observed :=
  (Server.step L o.srv e).map fun srv' => { srv := srv', origin := o.note srv' e.action }

/-- Creations, forks, appends, and the reads and the dormancy of their streamers. -/
def Growing (_ : Observed) (e : Event) : Prop :=
  match e.action with
  | .createStream .. | .createFork .. | .spawn _ | .burst .. | .touch .. | .retire _ => True
  | _ => False

/-! ## Lists of entries -/

theorem entries_getD (l : List Bytes) {a b : Nat} (hb : b ≤ l.length) :
    entries (fun n => l.getD n []) a b = (l.drop a).take (b - a) := by
  refine ext_getElem? fun i => ?_
  rw [getElem?_entries, getElem?_take]
  by_cases h : a + i < b
  · rw [if_pos h, if_pos (by omega), getElem?_drop, getD_eq_getElem?_getD,
      getElem?_eq_getElem (by omega), getD_some]
  · rw [if_neg h, if_neg (by omega)]

/-! ## How commits change the logs -/

variable {db db' : Store} {path : Bytes} {m : StreamMeta}

theorem payload_eq {v : Bytes} (h : db.recordAt id n = some v) : db.payload id n = recordPayload v := by
  rw [Store.payload, h]
  rfl

theorem ownLog_le (hc : Catalog db) (hm : db.metaAt path = some m) : m.base ≤ loadTailSeq db m.streamID ∧
      ∀ n, m.base ≤ n → n < loadTailSeq db m.streamID → ∃ v, db.recordAt m.streamID n = some v := by
  obtain ⟨t, ht, hle, hrecs⟩ := hc.log path m hm
  rw [loadTailSeq, ht]
  exact ⟨hle, fun n h1 h2 => isSome_iff_exists.mp ((hrecs n).mpr ⟨h1, h2⟩)⟩

theorem Grows.ownEntries (g : Grows db db') (hc : Catalog db) (hm : db.metaAt path = some m)
    (hl : m'.lineage = m.lineage) : ownEntries db m <+: Yasdb.ownEntries db' m' := by
  have hid : m'.streamID = m.streamID := congrArg Prod.fst hl
  have ht := g.tails path m hm
  obtain ⟨hle, hrecs⟩ := ownLog_le hc hm
  unfold Yasdb.ownEntries
  rw [base_of_lineage hl, hid, ← entries_append _ hle ht]
  have heq : entries (db.payload m.streamID) m.base (loadTailSeq db m.streamID) =
      entries (db'.payload m.streamID) m.base (loadTailSeq db m.streamID) := by
    refine entries_congr fun n h1 h2 => ?_
    obtain ⟨v, hv⟩ := hrecs n h1 h2
    rw [payload_eq hv, payload_eq (g.records path m hm n v hv)]
  rw [heq]
  exact prefix_append _ _

theorem Grows.logicalLog (g : Grows db db') (hc : Catalog db) (origin : Nat → List Bytes)
    (hm : db.metaAt path = some m) (hl : m'.lineage = m.lineage) :
    logicalLog origin db m <+: Yasdb.logicalLog origin db' m' := by
  have hid : m'.streamID = m.streamID := congrArg Prod.fst hl
  have hfrom : m'.forkedFrom = m.forkedFrom := congrArg (·.2.1) hl
  have hoff : m'.forkOffset = m.forkOffset := congrArg (·.2.2.1) hl
  have hown := g.ownEntries hc hm hl
  unfold Yasdb.logicalLog
  rw [hid, hfrom, hoff]
  split
  · exact hown
  · exact (prefix_append_right_inj _).mpr hown

theorem Rewrites.ownEntries (r : Rewrites path id db db') (hc : Catalog db) (hp : p ≠ path)
    (hm : db.metaAt p = some m) : m.streamID ≠ id ∧ ownEntries db' m = Yasdb.ownEntries db m := by
  have hne : m.streamID ≠ id := hc.ne_of_holds r.before hp hm
  refine ⟨hne, ?_⟩
  unfold Yasdb.ownEntries loadTailSeq
  rw [show db'.tailAt m.streamID = db.tailAt m.streamID from r.frame (.tailKey _) hne]
  refine entries_congr fun n _ _ => ?_
  unfold Store.payload
  rw [show db'.recordAt m.streamID n = db.recordAt m.streamID n from r.frame (.recordKey _ n) hne]

section Adds

variable {db db' : Store} {path : Bytes} {m₀ : StreamMeta} {records : List Bytes} {count : Nat}
  (a : Adds db db' path m₀ records count) (hc : Catalog db)
include a hc

theorem Adds.ownEntries_eq {m : StreamMeta} (hm : db.metaAt p = some m) :
    m.streamID ≠ m₀.streamID ∧ ownEntries db' m = ownEntries db m :=
  a.rewrites.ownEntries hc (fun he => by rw [he, a.fresh] at hm; cases hm) hm

theorem Adds.logicalLog_eq {origin : Nat → List Bytes} (ho : ∀ id, id ≠ m₀.streamID → origin' id = origin id)
    {m : StreamMeta} (hm : db.metaAt p = some m) : logicalLog origin' db' m = logicalLog origin db m := by
  obtain ⟨hne, hown⟩ := a.ownEntries_eq hc hm
  unfold logicalLog
  rw [hown, ho _ hne]

omit hc in
theorem Adds.ownEntries_new : ownEntries db' m₀ = records := by
  unfold ownEntries
  rw [a.tail]
  refine ext_getElem? fun i => ?_
  rw [getElem?_entries]
  by_cases h : i < records.length
  · have hr := a.own i
    rw [getElem?_eq_getElem h, map_some] at hr
    rw [if_pos (by omega), payload_eq hr, getElem?_eq_getElem h, recordPayload_marshalRecord]
  · rw [if_neg (by omega), getElem?_eq_none (by omega)]

end Adds

/-! ## The invariant -/

/-- The source of every fork is stored, its logical log still starts with what the fork inherits, and a fork that
diverges within a record starts with its front. -/
structure LogInv (srv : Server) (origin : Nat → List Bytes) : Prop where
  server : ServerInv srv
  sourced : Sourced srv.db
  long : ∀ path m, srv.db.metaAt path = some m → m.forkedFrom ≠ 0 → m.forkOffset ≤ (origin m.streamID).length
  inherits : ∀ path m p src, srv.db.metaAt path = some m → m.forkedFrom ≠ 0 → srv.db.metaAt p = some src →
    src.streamID = m.forkedFrom →
    (logicalLog origin srv.db src).take m.forkOffset = (origin m.streamID).take m.forkOffset
  diverges : ∀ path m, srv.db.metaAt path = some m → m.forkedFrom ≠ 0 → 0 < m.forkByte →
    ∃ r, (origin m.streamID)[m.forkOffset]? = some r ∧ (ownEntries srv.db m).head? = some (r.take m.forkByte)

namespace LogInv

variable {srv srv' : Server} {origin : Nat → List Bytes}

theorem start (seen : Nat) : LogInv (newServer ∅ seen) fun _ => [] :=
  ⟨ServerInv.start catalog_empty seen, nofun, nofun, nofun, nofun⟩

variable {path : Bytes}

section

variable (h : LogInv srv origin)
include h

theorem length {m : StreamMeta} (hm : srv.db.metaAt path = some m) :
    (logicalLog origin srv.db m).length = loadTailSeq srv.db m.streamID := by
  obtain ⟨hle, -⟩ := ownLog_le h.server.stored hm
  unfold logicalLog ownEntries
  by_cases hf : m.forkedFrom = 0
  · rw [if_pos hf, length_entries, base, if_pos hf, Nat.sub_zero]
  · have hlong := h.long path m hm hf
    rw [base, if_neg hf] at hle
    rw [if_neg hf, length_append, length_entries, length_take, base, if_neg hf]
    omega

/-- **What the store holds for an entry is the entry of the logical log.** -/
theorem payloadAt : ∀ (id : Nat) (path : Bytes) (m : StreamMeta), srv.db.metaAt path = some m →
    m.streamID = id → ∀ n, n < loadTailSeq srv.db id →
    payloadAt srv.db id id m.forkedFrom m.forkOffset n = (logicalLog origin srv.db m)[n]? := by
  intro id
  induction id using Nat.strong_induction_on with
  | _ id ih =>
    rintro path m hm rfl n hn
    obtain ⟨hle, hrecs⟩ := ownLog_le h.server.stored hm
    by_cases hf : m.forkedFrom = 0
    · rw [base, if_pos hf] at hle hrecs
      obtain ⟨v, hv⟩ := hrecs n (zero_le _) hn
      rw [payloadAt_own _ _ _ (.inl hf), logicalLog, if_pos hf, ownEntries, base, if_pos hf,
        getElem?_entries, zero_add, if_pos hn, hv, payload_eq hv, map_some]
    · rw [base, if_neg hf] at hle hrecs
      have hlong := h.long path m hm hf
      rw [logicalLog, if_neg hf]
      by_cases hoff : m.forkOffset ≤ n
      · obtain ⟨v, hv⟩ := hrecs n hoff hn
        have hlen : ((origin m.streamID).take m.forkOffset).length = m.forkOffset := by
          rw [length_take]; omega
        rw [payloadAt_own _ _ _ (.inr hoff), getElem?_append_right (by omega), hlen, ownEntries,
          base, if_neg hf, getElem?_entries, Nat.add_sub_cancel' hoff, if_pos hn, hv, payload_eq hv, map_some]
      · -- an inherited entry is an entry of the source, where the induction hypothesis applies
        obtain ⟨p, src, hsrc, hid, hreach⟩ := h.sourced path m hm hf
        have hlt := (h.server.stored.ids path m hm).2
        obtain ⟨v, hv⟩ := payloadAt_some h.server.stored h.sourced m.streamID path m hm rfl n hn
        obtain ⟨d, q, src', hd, hmap, hq, heq⟩ := payloadAt_source hf (not_le.mp hoff) hv
        rw [← hid, h.server.stored.mapping hsrc, some.injEq] at hmap
        subst hmap
        cases hsrc.symm.trans hq
        have hsv := ih m.forkedFrom hlt p src hsrc hid n (by omega)
        obtain ⟨w, hw⟩ := payloadAt_some h.server.stored h.sourced m.forkedFrom p src hsrc hid n (by omega)
        rw [getElem?_append_left (by rw [length_take]; omega), ← h.inherits path m p src hm hf hsrc hid,
          getElem?_take, if_pos (not_le.mp hoff), ← hsv, heq n (not_le.mp hoff), hw]
        exact payloadAt_mono (by omega) hw

theorem chainRecordAt {m : StreamMeta} (hm : srv.db.metaAt path = some m)
    (hn : n < loadTailSeq srv.db m.streamID) {flt : Faults} {r : Option Bytes}
    (hr : Yasdb.chainRecordAt flt srv.db m.streamID n = .ok r) : (logicalLog origin srv.db m)[n]? = r := by
  have hp := h.payloadAt m.streamID path m hm rfl n hn
  obtain ⟨v, hv⟩ := payloadAt_some h.server.stored h.sourced m.streamID path m hm rfl n hn
  have hc := chainRecordAt_stored (h.server.stored.mapping hm) hm (le_refl _) hv
  rw [chainRecordAt_noFaults hr, Except.ok.injEq] at hc
  rw [← hp, hv, hc]

/-! ## Steps -/

theorem calm (hi : ServerInv srv') (c : srv.Calm srv') : LogInv srv' origin := by
  have g := c.grows
  have hc := h.server.stored
  refine ⟨hi, g.sourced h.sourced, fun path m hm hf => ?_, fun path m p src hm hf hp hid => ?_,
    fun path m hm hf hb => ?_⟩
  · obtain ⟨m', hm', hl⟩ := g.origin hm
    simp only [lineage, Prod.mk.injEq] at hl
    rw [hl.1, hl.2.2.1]
    exact h.long path m' hm' (hl.2.1 ▸ hf)
  · obtain ⟨m', hm', hl⟩ := g.origin hm
    obtain ⟨src', hsrc', hls⟩ := g.origin hp
    have hpre := g.logicalLog hc origin hsrc' hls
    have hls₁ : src.streamID = src'.streamID := congrArg Prod.fst hls
    simp only [lineage, Prod.mk.injEq] at hl
    have hold := h.inherits path m' p src' hm' (hl.2.1 ▸ hf) hsrc' (by rw [← hls₁, hid, hl.2.1])
    rw [hl.1, hl.2.2.1, ← hold]
    -- the source's log only grew, and it was long enough
    obtain ⟨t, ht⟩ := hpre
    have hlen := h.length hsrc'
    obtain ⟨q, src'', hq, hqid, hle⟩ := h.sourced path m' hm' (hl.2.1 ▸ hf)
    rw [← ht, take_append_of_le_length]
    rw [hlen, ← hls₁, hid, hl.2.1]
    exact hle
  · obtain ⟨m', hm', hl⟩ := g.origin hm
    obtain ⟨t, ht⟩ := g.ownEntries hc hm' hl
    simp only [lineage, Prod.mk.injEq] at hl
    obtain ⟨r, hr, hown⟩ := h.diverges path m' hm' (hl.2.1 ▸ hf) (hl.2.2.2 ▸ hb)
    refine ⟨r, by rw [hl.1, hl.2.2.1]; exact hr, ?_⟩
    rw [← ht, head?_append, hown, hl.2.2.2]
    rfl

/-- A new stream. For a fork, the observer has noted the log of its source. -/
theorem created (hi : ServerInv srv') {m₀ : StreamMeta} {records : List Bytes} {count : Nat}
    (c : srv.Created srv' path m₀ records count)
    (ho : ∀ id, id ≠ m₀.streamID → origin' id = origin id)
    (hsrc : m₀.forkedFrom ≠ 0 → ∃ p src, srv.db.metaAt p = some src ∧ src.streamID = m₀.forkedFrom ∧
      m₀.forkOffset ≤ loadTailSeq srv.db m₀.forkedFrom ∧ origin' m₀.streamID = logicalLog origin srv.db src ∧
      (0 < m₀.forkByte → ∃ r, (logicalLog origin srv.db src)[m₀.forkOffset]? = some r ∧
        records.head? = some (r.take m₀.forkByte))) : LogInv srv' origin' := by
  have hc := h.server.stored
  have a := c.adds
  have hcases : ∀ p m, srv'.db.metaAt p = some m → (p = path ∧ m = m₀) ∨ srv.db.metaAt p = some m := by
    intro p m hm
    by_cases hp : p = path
    · rw [hp, a.added, some.injEq] at hm
      exact .inl ⟨hp, hm.symm⟩
    · exact .inr ((a.metaAt_ne hp).symm.trans hm)
  refine ⟨hi, ?_, fun p m hm hf => ?_, fun p m q src hm hf hq hid => ?_, fun p m hm hf hb => ?_⟩
  · refine a.sourced hc h.sourced fun hf => ?_
    obtain ⟨p, src, hp, hid, hle, -⟩ := hsrc hf
    exact ⟨p, src, hp, hid, hle⟩
  · rcases hcases p m hm with ⟨rfl, rfl⟩ | hm
    · obtain ⟨q, src, hq, hid, hle, horig, -⟩ := hsrc hf
      rw [horig, h.length hq, hid]
      exact hle
    · rw [ho _ (a.ownEntries_eq hc hm).1]
      exact h.long p m hm hf
  · -- the source of a fork, old or new, was there before
    have hq : srv.db.metaAt q = some src := by
      rcases hcases q src hq with ⟨rfl, rfl⟩ | hq
      · exfalso
        rcases hcases p m hm with ⟨-, rfl⟩ | hm
        · have hlt := (hi.stored.ids p m hm).2
          omega
        · obtain ⟨q', src', hq', hid', -⟩ := h.sourced p m hm hf
          exact (a.ownEntries_eq hc hq').1 (hid'.trans hid.symm)
      · exact hq
    rw [a.logicalLog_eq hc ho hq]
    rcases hcases p m hm with ⟨rfl, rfl⟩ | hm
    · obtain ⟨q', src', hq', hid', -, horig, -⟩ := hsrc hf
      have hqq := hc.path_eq hq hq' (hid.trans hid'.symm)
      rw [hqq, hq', some.injEq] at hq
      rw [horig, hq]
    · rw [ho _ (a.ownEntries_eq hc hm).1]
      exact h.inherits p m q src hm hf hq hid
  · rcases hcases p m hm with ⟨rfl, rfl⟩ | hm
    · obtain ⟨q, src, hq, hid, -, horig, hdiv⟩ := hsrc hf
      obtain ⟨r, hr, hhead⟩ := hdiv hb
      exact ⟨r, by rw [horig]; exact hr, by rw [a.ownEntries_new]; exact hhead⟩
    · obtain ⟨hne, hown⟩ := a.ownEntries_eq hc hm
      rw [ho _ hne, hown]
      exact h.diverges p m hm hf hb

end

/-- **Creations, forks and appends keep the invariant**, whatever fails. -/
theorem step {o o' : Observed} (h : LogInv o.srv o.origin) {e : Server.Event} (hg : Growing o e)
    (he : Observed.step L o e = some o') : LogInv o'.srv o'.origin := by
  obtain ⟨srv', hs, rfl⟩ := map_eq_some_iff.mp he
  have hi := h.server.step hs
  cases stepped hs with
  | createStream p now nowMs flt ok =>
    rcases create_stream_cases h.server L flt ok p now nowMs with hs | ⟨records, -, c⟩
    · rw [hs]; exact h
    · exact h.created hi c (fun _ _ => rfl) (fun hn => absurd rfl hn)
  | createFork p now nowMs flt ok =>
    rcases create_fork_cases h.server L flt ok p now nowMs with
      hs | ⟨src, m, pre, records, hsrc, hfrom, -, hle, hlt, hpre, -, -, -, c⟩
    · have hnote : o.note o.srv (.createFork p now nowMs) = o.origin := by
        unfold Observed.note
        cases hp : o.srv.db.metaAt p.path with
        | none => simp only [hp]
        | some m => simp only [hp]
      rw [hs, hnote]
      exact h
    · have hnote : o.note (o.srv.create ok (createFork L flt o.srv.db o.srv.nextID now nowMs p))
          (.createFork p now nowMs) =
          update o.origin m.streamID (logicalLog o.origin o.srv.db src) := by
        unfold Observed.note
        simp only [c.adds.fresh, c.adds.added, hsrc]
      rw [hnote]
      refine h.created hi c (fun id hid => update_of_ne hid _ _) fun _ =>
        ⟨_, src, hsrc, hfrom.symm, ?_, update_self .., fun hb => ?_⟩
      · rw [hfrom]; exact hle
      · unfold forkPrefix at hpre
        rw [if_pos hb] at hpre
        split at hpre
        · rename_i payload hrec
          split at hpre
          · cases hpre
          · cases hpre
            exact ⟨payload, h.chainRecordAt hsrc (hlt hb) hrec, rfl⟩
        · cases hpre
  | noSpawn => exact h
  | spawn => exact h.calm hi (calm_setStreamer _ _)
  | replied => exact h.calm hi (calm_setStreamer _ _)
  | burst hreg hb => exact h.calm hi (calm_burst h.server hreg hb _)
  | untouched => exact h.calm hi (calm_untouched _ _)
  | touch hreg => exact h.calm hi (calm_touch h.server hreg _ _)
  | retire => exact h.calm hi (calm_removeStreamer _)
  | _ => exact absurd hg id

theorem reach {o o' : Observed} (hr : Reach (Observed.step L) Growing o o') (h : LogInv o.srv o.origin) :
    LogInv o'.srv o'.origin :=
  hr.invariant (P := fun o => LogInv o.srv o.origin) (fun _ _ _ h hg he => h.step hg he) h

end LogInv

/-! ## Reads -/

section Reads

variable {srv : Server} {origin : Nat → List Bytes} (h : LogInv srv origin) {path : Bytes} {m : StreamMeta}
  (hm : srv.db.metaAt path = some m) {a b : Nat} (hb : b ≤ loadTailSeq srv.db m.streamID)
include h hm hb

theorem LogInv.stored : ∀ n, n < b → Yasdb.payloadAt srv.db m.streamID m.streamID m.forkedFrom m.forkOffset n =
    some ((logicalLog origin srv.db m).getD n []) := by
  intro n hn
  have hlen := h.length hm
  rw [h.payloadAt m.streamID path m hm rfl n (by omega), getD_eq_getElem?_getD,
    getElem?_eq_getElem (by omega), getD_some]

/-- One read of a range that fits the limit delivers the range. -/
theorem LogInv.readRange {fuel : Nat} (hfuel : m.streamID ≤ fuel) (hab : a ≤ b) {limit : Nat}
    (hl : (((logicalLog origin srv.db m).drop a).take (b - a)).flatten.length < limit) :
    readRange {} srv.db fuel m.streamID m.forkedFrom m.forkOffset false ⟨a, 0⟩ b limit =
        .ok ⟨(((logicalLog origin srv.db m).drop a).take (b - a)).flatten, ⟨b, 0⟩, true⟩ ∧
      Yasdb.readRange {} srv.db fuel m.streamID m.forkedFrom m.forkOffset true ⟨a, 0⟩ b limit =
        .ok ⟨wrapJSONArray (((logicalLog origin srv.db m).drop a).take (b - a)), ⟨b, 0⟩, true⟩ := by
  have hlen := h.length hm
  have hent := entries_getD (logicalLog origin srv.db m) (a := a) (b := b) (by omega)
  have hk : a + (entries (fun n => (logicalLog origin srv.db m).getD n []) a b).length = b := by
    rw [length_entries]; omega
  rw [← hent] at hl ⊢
  rcases eq_or_lt_of_le hab with rfl | hlt
  · rw [entries_of_le _ (le_refl a)]
    exact ⟨if_pos (le_refl a), if_pos (le_refl a)⟩
  · have hbin := readRange_binary hfuel (h.stored hm hb) ⟨a, 0⟩ limit hlt
    have hjson := readRange_json hfuel ⟨a, 0⟩ limit hlt fun n _ => h.stored hm hb n
    rw [Paging.fill_whole limit _ _ (by rw [nil_append]; exact hl), nil_append] at hbin
    rw [Paging.gather_all limit _ _ _ (by rw [zero_add]; exact hl), take_length] at hjson
    simp only [hk, ge_iff_le, le_refl, decide_true] at hbin hjson
    exact ⟨hbin, hjson⟩

end Reads

/-- An append to another stream leaves a logical log. -/
theorem LogInv.elsewhere {o o' : Observed} (h : LogInv o.srv o.origin) {e : Event} {path' : Bytes}
    {now : Int64} {batch : List AppendReq} (ha : e.action = .burst path' now batch)
    (he : Observed.step L o e = some o') (hp : path ≠ path') (hm : o.srv.db.metaAt path = some m) :
    o'.srv.db.metaAt path = some m ∧ logicalLog o'.origin o'.srv.db m = logicalLog o.origin o.srv.db m := by
  obtain ⟨srv', hs, rfl⟩ := map_eq_some_iff.mp he
  obtain ⟨action, flt, ok⟩ := e
  cases ha
  cases Server.stepped hs with
  | replied => exact ⟨hm, rfl⟩
  | @burst _ _ _ _ s s' c hreg hb =>
    obtain ⟨rfl, hatt⟩ := h.server.resident path' s hreg
    obtain ⟨r, -, -⟩ := rewrites_burst h.server.stored hatt hb
    have hown := (r.ownEntries h.server.stored hp hm).2
    refine ⟨(r.frame (.metaKey path) hp).trans hm, ?_⟩
    show logicalLog o.origin (applyOps o.srv.db c.ops) m = _
    unfold logicalLog
    rw [hown]

/-- **Fork reads equal the logical log.** In every state reached by creations, forks of forks, and appends, a range
within the tail of a stream resolves into adjacent segments that hold that range of the logical log, and a read delivers
it; and an append to another stream does not change the log. -/
theorem fork_reads_log (L : GoLib) (seen : Nat) (o : Observed)
    (hr : Reach (Observed.step L) Growing { srv := newServer ∅ seen } o) (path : Bytes) (m : StreamMeta)
    (hm : o.srv.db.metaAt path = some m) (fuel : Nat) (hfuel : m.streamID ≤ fuel) (a b : Nat) (hab : a ≤ b)
    (hb : b ≤ loadTailSeq o.srv.db m.streamID) :
    (∃ segs, resolveSegments (resolveSegmentsByID noFaults o.srv.db fuel) m.streamID m.forkedFrom m.forkOffset a b =
        .ok segs ∧ Tiles segs a b ∧
      (segs.flatMap (segmentRecords o.srv.db)).map (·.2) = ((logicalLog o.origin o.srv.db m).drop a).take (b - a)) ∧
    (∀ limit, (((logicalLog o.origin o.srv.db m).drop a).take (b - a)).flatten.length < limit →
      readRange {} o.srv.db fuel m.streamID m.forkedFrom m.forkOffset false ⟨a, 0⟩ b limit =
          .ok ⟨(((logicalLog o.origin o.srv.db m).drop a).take (b - a)).flatten, ⟨b, 0⟩, true⟩ ∧
        readRange {} o.srv.db fuel m.streamID m.forkedFrom m.forkOffset true ⟨a, 0⟩ b limit =
          .ok ⟨wrapJSONArray (((logicalLog o.origin o.srv.db m).drop a).take (b - a)), ⟨b, 0⟩, true⟩) ∧
    (m.forkedFrom ≠ 0 → m.forkOffset ≤ (o.origin m.streamID).length ∧ (0 < m.forkByte →
      ∃ r, (o.origin m.streamID)[m.forkOffset]? = some r ∧
        (ownEntries o.srv.db m).head? = some (r.take m.forkByte))) ∧
    ∀ e path' now batch o', e.action = .burst path' now batch → path ≠ path' → Observed.step L o e = some o' →
      o'.srv.db.metaAt path = some m ∧ logicalLog o'.origin o'.srv.db m = logicalLog o.origin o.srv.db m := by
  have h : LogInv o.srv o.origin := LogInv.reach hr (LogInv.start seen)
  have hlen := h.length hm
  refine ⟨?_, fun limit hl => h.readRange hm hb hfuel hab hl,
    fun hf => ⟨h.long path m hm hf, h.diverges path m hm hf⟩,
    fun e path' now batch o' ha hp he => h.elsewhere ha he hp hm⟩
  obtain ⟨segs, hs, ht, hrecs⟩ := resolve_stored _ m.streamID fuel m.streamID m.forkedFrom m.forkOffset hfuel hab
    fun n _ hn => h.stored hm hb n hn
  refine ⟨segs, hs, ht, ?_⟩
  rw [hrecs, map_snd_numbered, entries_getD _ (by omega)]

/-- The range `[1, 3)` of the sample fork: an inherited record and one of its own. -/
theorem fork_reads_log_sample : ∃ o, Reach (Observed.step plainLib) Growing { srv := newServer ∅ 0 } o ∧
    o.srv.db.metaAt forkPath = some forkMeta ∧ logicalLog o.origin o.srv.db forkMeta = [[1], [2], [3]] ∧
    ∃ segs, resolveSegments (resolveSegmentsByID noFaults o.srv.db 2) 2 1 2 1 3 = .ok segs ∧ Tiles segs 1 3 ∧
      (segs.flatMap (segmentRecords o.srv.db)).map (·.2) =
        ((logicalLog o.origin o.srv.db forkMeta).drop 1).take 2 := by
  obtain ⟨o, ho, hm, ht, hlog⟩ : ∃ o ∈ run (Observed.step plainLib) { srv := newServer ∅ 0 } forkEvents,
      o.srv.db.metaAt forkPath = some forkMeta ∧ loadTailSeq o.srv.db 2 = 3 ∧
      logicalLog o.origin o.srv.db forkMeta = [[1], [2], [3]] := by decide
  have hc : ∀ e ∈ forkEvents, ∀ s, Growing s e := by
    intro e he s
    simp only [forkEvents, mem_cons, not_mem_nil, or_false] at he
    rcases he with rfl | rfl | rfl | rfl
    all_goals trivial
  have hr := reach_of_run hc ho
  exact ⟨o, hr, hm, hlog,
    (fork_reads_log plainLib 0 o hr forkPath forkMeta hm 2 (by decide) 1 3 (by decide) (Nat.le_of_eq ht.symm)).1⟩

end Yasdb
