import Yasdb.Lib.Replay
import Yasdb.Pwal.Files

/-!
# The index and the values

The index of the store maps each key to the place of its value in a shard file. It corresponds to a map of values when
each place holds the value (`Holds`, `Indexes`); then `Get` and `Scan` return what the map contains.

- `effectRel_indexOps`: the index operations of a commit have the effect of its batch, although each put of a key is
  given the place of the last one;
- `shard_file_read_back`: **a shard file is read back as it was written**, with the places of the values;
- `indexes_open`: **the index built at open** is that of the records in the order of their numbers.
-/

namespace Yasdb.Pwal

open Batch BigEndian List Option RecEntry

variable {ops : List Op} {crc : Bytes → UInt32} {n : Nat}
  {v data : Bytes} {m : Finmap fun _ : Bytes => Bytes} {q : Nat} {dir : Nat → Bytes}

/-- The value `v` stands in its shard file where the entry says. -/
def Holds (files : Nat → Bytes) (e : Entry) (v : Bytes) : Prop :=
  ∃ off : Nat, e.fileOff = off ∧ e.n = Int32.ofNat v.length ∧ v.length < 2 ^ 31 ∧ Stands v (files e.shardIdx) off

/-- The index and the map have the same keys, and each place of the index holds the value of the map. -/
def Indexes (files : Nat → Bytes) (tree : Finmap fun _ : Bytes => Entry) (m : Finmap fun _ : Bytes => Bytes) : Prop :=
  MapRel (fun _ => Holds files) tree m

/-- The files of a store. -/
def PwalStore.files (s : PwalStore) : Nat → Bytes := fun i => (s.shards i).file

/-! ## Reading -/

theorem readValue_of_holds {s : PwalStore} {e : Entry} (h : Holds s.files e v) : s.readValue e = some v := by
  obtain ⟨off, hoff, hn, hlen, hst⟩ := h
  have hint : e.n.toInt = v.length := by rw [hn, Int32.toInt_ofNat_of_lt hlen]
  unfold PwalStore.readValue
  rw [if_neg (by rw [hint, hoff]; omega), hint, hoff]
  have hslice : slice (s.shards e.shardIdx).file off v.length = v := hst.slice_eq
  simp only [Int.toNat_natCast, hslice, Nat.lt_irrefl, if_false]

theorem Holds.append {files files' : Nat → Bytes} (hf : ∀ i, ∃ more, files' i = files i ++ more) {e : Entry}
    (h : Holds files e v) : Holds files' e v := by
  obtain ⟨off, hoff, hn, hlen, hst⟩ := h
  obtain ⟨more, hmore⟩ := hf e.shardIdx
  exact ⟨off, hoff, hn, hlen, hmore ▸ hst.append more⟩

theorem Indexes.append {files files' : Nat → Bytes} (hf : ∀ i, ∃ more, files' i = files i ++ more)
    {tree : Finmap fun _ : Bytes => Entry} (h : Indexes files tree m) :
    Indexes files' tree m := by
  intro k
  have hk := h k
  generalize tree.lookup k = a at hk ⊢
  generalize m.lookup k = b at hk ⊢
  cases hk with
  | some hk => exact .some (hk.append hf)
  | none => exact .none

theorem Indexes.get {s : PwalStore} (h : Indexes s.files s.tree m) (k : Bytes) : s.get k = some (m.lookup k) := by
  have hk := h k
  unfold PwalStore.get
  generalize s.tree.lookup k = a at hk ⊢
  generalize m.lookup k = b at hk ⊢
  cases hk with
  | some hk =>
    dsimp only
    rw [readValue_of_holds hk]
    rfl
  | none => rfl

/-- `Scan` returns what the map contains in the range. -/
theorem Indexes.scan {s : PwalStore} (h : Indexes s.files s.tree m) (start : Bytes)
    (stop : Option Bytes) : s.scan start stop = some (ascend m start stop) := by
  have hitems : ∀ ks : List Bytes, (ks.filterMap fun k => (s.tree.lookup k).map (k, ·)).mapM
      (fun item => (s.readValue item.2).map (item.1, ·)) = some (ks.filterMap fun k => (m.lookup k).map (k, ·)) := by
    intro ks
    induction ks with
    | nil => rfl
    | cons k ks ih =>
      have hk := h k
      generalize ha : s.tree.lookup k = a at hk
      generalize hb : m.lookup k = b at hk
      cases hk with
      | some hk =>
        rw [filterMap_cons, filterMap_cons, ha, hb]
        simp only [map_some, mapM_cons, readValue_of_holds hk, ih]
        rfl
      | none =>
        rw [filterMap_cons, filterMap_cons, ha, hb]
        exact ih
  unfold PwalStore.scan ascend Scan.scan
  rw [h.keys_eq]
  exact hitems _

/-! ## The index operations of a commit -/

/-- The place of an entry of a record. -/
def RecEntry.loc (e : RecEntry) : ValueLoc := ⟨e.key, e.fileOff, e.n⟩

theorem keys_of_points {es : List RecEntry} (h : List.Forall₂ (Points data) es ops) :
    es.map (·.key) = ops.map Batch.Op.key := by
  induction h with
  | nil => rfl
  | @cons e op es ops hp _ ih =>
    have hkey : e.key = op.key := by
      cases op with
      | put k v => exact hp.1
      | del k => exact hp.1
    rw [map_cons, map_cons, ih, hkey]

/-- The places of the puts, as puts of places. -/
def placeOps (es : List RecEntry) : List (Batch.Op fun _ : Bytes => ValueLoc) :=
  (es.filter fun e => !e.del).map fun e => .put e.key e.loc

/-- If the last operation on a key is a put, the last place of the key is that of its value. -/
theorem effect_placeOps {es : List RecEntry} (h : List.Forall₂ (Points data) es ops)
    {k : Bytes} (hv : effect k ops = some (some v)) :
    ∃ e, Points data e (.put k v) ∧ effect k (placeOps es) = some (some e.loc) := by
  induction h with
  | nil => cases hv
  | @cons e op es ops hp hl ih =>
    rw [effect_cons] at hv
    cases hk : effect k ops with
    | some x =>
      rw [hk, some_or] at hv
      obtain ⟨e', hp', he'⟩ := ih (hk.trans hv)
      refine ⟨e', hp', ?_⟩
      cases hd : e.del with
      | true => simpa [placeOps, filter_cons, hd] using he'
      | false =>
        have hcons : placeOps (e :: es) = .put e.key e.loc :: placeOps es := by simp [placeOps, hd]
        rw [hcons, effect_cons, he', some_or]
    | none =>
      -- no later operation names the key, so no later place does
      have hnone : effect k (placeOps es) = none := by
        refine effect_ne fun op' hop' he => ?_
        obtain ⟨e', he', rfl⟩ := List.mem_map.mp hop'
        have hmem : e'.key ∈ ops.map Batch.Op.key := by
          rw [← keys_of_points hl]
          exact List.mem_map_of_mem (mem_filter.mp he').1
        obtain ⟨op', hop', hkey⟩ := List.mem_map.mp hmem
        exact ne_of_effect_none hk op' hop' (hkey.trans he)
      rw [hk, none_or] at hv
      have hop : op.key = k := by
        by_contra hne
        rw [Batch.Op.effect_of_ne hne] at hv
        cases hv
      cases op with
      | del k' =>
        obtain rfl : k' = k := hop
        rw [Batch.Op.effect_del_self] at hv
        cases hv
      | put k' v' =>
        obtain rfl : k' = k := hop
        rw [Batch.Op.effect_put_self, some.injEq, some.injEq] at hv
        subst hv
        have hdel : e.del = false := hp.2.1
        have hkey : e.key = k' := hp.1
        have hcons : placeOps (e :: es) = .put e.key e.loc :: placeOps es := by simp [placeOps, hdel]
        refine ⟨e, hp, ?_⟩
        rw [hcons, effect_cons, hnone, none_or, hkey, Batch.Op.effect_put_self]

theorem effect_indexOps (j : Nat) (locs : List ValueLoc) (k : Bytes) : ∀ ops : List Op,
    effect k (indexOps j locs ops) = (effect k ops).map (Option.map fun _ => entryOf j locs k)
  | [] => rfl
  | op :: ops => by
    have ih := effect_indexOps j locs k ops
    unfold indexOps at ih ⊢
    rw [map_cons, effect_cons, effect_cons, ih]
    cases effect k ops with
    | some x => rfl
    | none =>
      simp only [map_none, none_or]
      by_cases hk : op.key = k
      · subst hk
        cases op with
        | put k v => simp
        | del k => simp
      · rw [Batch.Op.effect_of_ne hk, Batch.Op.effect_of_ne]
        · rfl
        · cases op with
          | put k v => exact hk
          | del k => exact hk

/-- **The index operations of a commit** have the effect of its batch. -/
theorem effectRel_indexOps {files : Nat → Bytes} {es : List RecEntry} {j : Nat}
    (h : List.Forall₂ (Points (files j)) es ops) (hlen : ∀ k v, Batch.Op.put k v ∈ ops → v.length < 2 ^ 31)
    (k : Bytes) :
    EffectRel (fun _ => Holds files) k (effect k (indexOps j ((es.filter fun e => !e.del).map loc) ops))
      (effect k ops) := by
  rw [effect_indexOps]
  cases hk : effect k ops with
  | none => exact .none
  | some x =>
    cases x with
    | none => exact .some .none
    | some v =>
      refine .some (.some ?_)
      obtain ⟨e, ⟨-, -, hst, hn⟩, he⟩ := effect_placeOps h hk
      have hplaces : ((es.filter fun e => !e.del).map loc).map
          (fun l => (Batch.Op.put l.key l : Batch.Op fun _ : Bytes => ValueLoc)) = placeOps es := List.map_map
      have hentry : entryOf j ((es.filter fun e => !e.del).map loc) k = ⟨j, e.fileOff, e.n⟩ := by
        unfold entryOf
        rw [hplaces]
        dsimp only
        rw [lookup_applyOps, he]
        rfl
      rw [hentry]
      exact ⟨e.fileOff, rfl, hn, hlen k v (mem_of_effect_put hk), hst⟩

theorem length_lt_of_put (hlen : (recBytes crc q ops).length < 2 ^ 31)
    {k : Bytes} (hm : Batch.Op.put k v ∈ ops) : v.length < 2 ^ 31 := by
  rw [length_recBytes] at hlen
  have hle := (sublist_flatten_of_mem (List.mem_map_of_mem hm) : (opBytes (.put k v)).Sublist _).length_le
  rw [← flatMap_def] at hle
  have hop : v.length ≤ (opBytes (.put k v)).length := by simp [opBytes]; omega
  exact Nat.lt_of_le_of_lt (hop.trans hle) (by omega)

/-- **The places that a batch is given** when it is written are those that its operations have at the end of the
file, if the offsets in the record are below `2^31`. -/
theorem Shard.stage_places {sh : Shard}
    (h : ∀ p ∈ layout 20 ops, p.1 < 2 ^ 31) : (sh.stage crc ops none).2.2 =
      ((entriesAt (sh.writeOffset + 20) ops).filter fun e => !e.del).map loc := by
  have hpos : headerLen + (be 4 ops.length).length = 20 := by rw [length_be]; rfl
  rw [sh.stage_locs]
  refine (locsOf_encodeOps sh.writeOffset ops (be 4 ops.length) ?_).trans ?_
  · rw [hpos]
    exact h
  · rw [hpos]
    rfl

theorem layout_lt (hlen : (recBytes crc q ops).length < 2 ^ 31) : ∀ p ∈ layout 20 ops, p.1 < 2 ^ 31 := by
  intro p hp
  rw [length_recBytes] at hlen
  have := layout_le hp
  omega

/-! ## Reading a shard file back -/

/-- The entry has the key and the kind of the operation, and its range of the file is the value of a put. -/
def Addresses (data : Bytes) : RecEntry → Op → Prop
  | e, .put k v => e.key = k ∧ e.del = false ∧ e.n.toInt = v.length ∧ slice data e.fileOff v.length = v
  | e, .del k => e.key = k ∧ e.del = true

theorem addresses_of_points {es : List RecEntry}
    (h : List.Forall₂ (Points data) es ops) (hlen : ∀ k v, Batch.Op.put k v ∈ ops → v.length < 2 ^ 31) :
    List.Forall₂ (Addresses data) es ops := by
  induction h with
  | nil => exact .nil
  | @cons e op es ops hp _ ih =>
    refine .cons ?_ (ih fun k v hm => hlen k v (mem_cons_of_mem _ hm))
    cases op with
    | put k v =>
      obtain ⟨hkey, hdel, hst, hn⟩ := hp
      exact ⟨hkey, hdel, by rw [hn, Int32.toInt_ofNat_of_lt (hlen k v mem_cons_self)], hst.slice_eq⟩
    | del k => exact hp

theorem addresses_recordsAt : ∀ {recs : List (Nat × List Op)} {pos : Nat},
    Stands (fileBytes crc recs) data pos → (∀ r ∈ recs, Fits crc r) →
    List.Forall₂ (fun rec r => rec.seq = r.1 ∧ List.Forall₂ (Addresses data) rec.entries r.2)
      (recordsAt crc pos recs) recs
  | [], _, _, _ => .nil
  | r :: recs, pos, h, hfit => by
    rw [show fileBytes crc (r :: recs) = recBytes crc r.1 r.2 ++ fileBytes crc recs from flatMap_cons] at h
    have hops := points_entriesAt (stands_ops (h.part [] _ (fileBytes crc recs) rfl rfl))
    have hlen := (hfit r mem_cons_self).1
    exact .cons ⟨rfl, addresses_of_points hops fun _ _ => length_lt_of_put hlen⟩
      (addresses_recordsAt (h.part _ _ [] (by simp) rfl) fun r' hr' => hfit r' (mem_cons_of_mem _ hr'))

theorem getElem?_recordsAt {r : Nat × List Op} : ∀ {recs : List (Nat × List Op)} {pos l : Nat}, recs[l]? = some r →
    (recordsAt crc pos recs)[l]? = some ⟨r.1, entriesAt (pos + (fileBytes crc (recs.take l)).length + 20) r.2⟩
  | r' :: recs, pos, 0, h => by
    obtain rfl := some.inj h
    rfl
  | r' :: recs, pos, l + 1, h => by
    have hcons : fileBytes crc (r' :: recs.take l) = recBytes crc r'.1 r'.2 ++ fileBytes crc (recs.take l) :=
      flatMap_cons
    rw [recordsAt, getElem?_cons_succ, @getElem?_recordsAt r recs _ l h, take_succ_cons, hcons,
      length_append, Nat.add_assoc pos]

/-- **A shard file is read back as it was written.** The records before a part of one more are read back with their
numbers, keys and kinds; the place of each value is where it stands in the file. -/
theorem shard_file_read_back (crc : Bytes → UInt32) {recs : List (Nat × List Op)} (hfit : ∀ r ∈ recs, Fits crc r)
    {next : Nat × List Op} (hnext : (recBytes crc next.1 next.2).length < 2 ^ 32) {t : Bytes}
    (hpart : t <+: recBytes crc next.1 next.2) (hproper : t ≠ recBytes crc next.1 next.2) :
    List.Forall₂
      (fun rec r => rec.seq = r.1 ∧ List.Forall₂ (Addresses (fileBytes crc recs ++ t)) rec.entries r.2)
      (decodePWALShard crc (fileBytes crc recs ++ t)) recs ∧
    ∀ l r, recs[l]? = some r → ∀ sh : Shard, sh.writeOffset = (fileBytes crc (recs.take l)).length →
      ∃ rec, (decodePWALShard crc (fileBytes crc recs ++ t))[l]? = some rec ∧
        (rec.entries.filter fun e => !e.del).map RecEntry.loc = (sh.stage crc r.2 none).2.2 := by
  have hlt : t.length < (recBytes crc next.1 next.2).length :=
    lt_of_le_of_ne hpart.length_le fun he => hproper (hpart.eq_of_length he)
  rw [(decodePWALShard_fileBytes hfit (decodeRecord_part hnext hpart hlt _)).1]
  refine ⟨addresses_recordsAt (prefix_append _ _) hfit, fun l r hr sh hoff => ?_⟩
  refine ⟨_, getElem?_recordsAt hr, ?_⟩
  rw [sh.stage_places (layout_lt (hfit r (mem_of_getElem? hr)).1), hoff, Nat.zero_add]

/-- Two batches, the second one with an empty key, an empty value and a delete, and all but the last byte of a third. -/
theorem shard_file_read_back_sample :
    ∃ recs : List (Nat × List Op), ∃ t : Bytes, recs.length = 2 ∧ t.length = 30 ∧
      List.Forall₂
        (fun rec r => rec.seq = r.1 ∧ List.Forall₂ (Addresses (fileBytes sampleCrc recs ++ t)) rec.entries r.2)
        (decodePWALShard sampleCrc (fileBytes sampleCrc recs ++ t)) recs :=
  ⟨[(1, [.put [1] [7]]), (3, [.put [] [], .del [1], .put [2] [8, 9]])],
    (recBytes sampleCrc 5 [.put [3] [4]]).take 30, by decide, by decide +kernel,
    (@shard_file_read_back sampleCrc _ (by decide +kernel) (5, [.put [3] [4]]) (by decide +kernel) _
      ⟨_, take_append_drop _ _⟩ (by decide +kernel)).1⟩

/-! ## The index at open -/

/-- The record read back has the number and the index operations of the batch. -/
def ReadsBack (files : Nat → Bytes) (n : Nat) (rec : Record) (r : Nat × List Op) : Prop :=
  rec.seq = r.1 ∧ List.Forall₂ (OpRel fun _ => Holds files) (rec.indexOps n) r.2

theorem opRel_indexOps {files : Nat → Bytes} {es : List RecEntry}
    (h : List.Forall₂ (Points (files ((q - 1) % n))) es ops)
    (hlen : ∀ k v, Batch.Op.put k v ∈ ops → v.length < 2 ^ 31) :
    List.Forall₂ (OpRel fun _ => Holds files) (Record.indexOps n ⟨q, es⟩) ops := by
  unfold Record.indexOps
  rw [forall₂_map_left_iff]
  induction h with
  | nil => exact .nil
  | @cons e op es ops hp _ ih =>
    refine .cons ?_ (ih fun k v hm => hlen k v (mem_cons_of_mem _ hm))
    cases op with
    | put k v =>
      obtain ⟨hkey, hdel, hst, hn⟩ := hp
      rw [if_neg (by simp [hdel]), hkey]
      exact .put ⟨e.fileOff, rfl, hn, hlen k v mem_cons_self, hst⟩
    | del k =>
      obtain ⟨hkey, hdel⟩ := hp
      rw [if_pos hdel, hkey]
      exact .del k

theorem readsBack_recordsAt {files : Nat → Bytes} {i : Nat} :
    ∀ {recs : List (Nat × List Op)} {pos : Nat}, Stands (fileBytes crc recs) (files i) pos →
    (∀ r ∈ recs, Fits crc r ∧ (r.1 - 1) % n = i) → List.Forall₂ (ReadsBack files n) (recordsAt crc pos recs) recs
  | [], _, _, _ => .nil
  | r :: recs, pos, h, hr => by
    rw [show fileBytes crc (r :: recs) = recBytes crc r.1 r.2 ++ fileBytes crc recs from flatMap_cons] at h
    obtain ⟨hfit, hmod⟩ := hr r mem_cons_self
    refine .cons ⟨rfl, opRel_indexOps ?_ fun k v hm => length_lt_of_put hfit.1 hm⟩
      (readsBack_recordsAt (h.part _ _ [] (by simp) rfl) fun r' hr' => hr r' (mem_cons_of_mem _ hr'))
    rw [hmod]
    exact points_entriesAt (stands_ops (h.part [] _ (fileBytes crc recs) rfl rfl))

theorem TornLog.shardIdx {i : Nat} {recs : List (Nat × List Op)} {file : Bytes}
    (h : TornLog crc n i recs file) (hi : i < n) {r : Nat × List Op} (hr : r ∈ recs) : (r.1 - 1) % n = i := by
  have hmem : r.1 ∈ recs.map Prod.fst := List.mem_map_of_mem hr
  rw [h.seqs] at hmem
  obtain ⟨l, -, hl⟩ := List.mem_map.mp hmem
  rw [← hl, Nat.add_sub_cancel, Nat.mul_add_mod_of_lt hi]

/-- The index built at open corresponds to the map that the batches leave which the records are read back as. -/
theorem indexes_of_readsBack (hn : 0 < n)
    {recs : List (Nat × List Op)} (hall : List.Forall₂ (ReadsBack dir n) (recovered crc n dir) recs) :
    Indexes dir (openPWALStore crc n dir).tree (replay recs) := by
  have hsorted := forall₂_insertionSort (fun _ _ hr => hr.1) hall
  have htree : (openPWALStore crc n dir).tree =
      applyOps ∅ ((inOrder (recovered crc n dir)).flatMap (Record.indexOps n)) := by
    unfold openPWALStore
    simp only [if_neg (show ¬ n < 1 by omega)]
  rw [htree]
  refine mapRel_empty.applyOps fun k => effectRel_of_forall₂ ?_ k
  exact rel_flatMap hsorted fun _ _ hr => hr.2

theorem readsBack_recovered {recs : Nat → List (Nat × List Op)}
    (h : ∀ i < n, List.Forall₂ (ReadsBack dir n) (decodePWALShard crc (dir i)) (recs i)) :
    List.Forall₂ (ReadsBack dir n) (recovered crc n dir) ((List.range n).flatMap recs) := by
  have hshard : ∀ is : List Nat, (∀ i ∈ is, i < n) → List.Forall₂ (ReadsBack dir n)
      (is.flatMap fun i => decodePWALShard crc (dir i)) (is.flatMap recs) := by
    intro is his
    induction is with
    | nil => exact .nil
    | cons i is ih =>
      rw [flatMap_cons, flatMap_cons]
      exact rel_append (h i (his i mem_cons_self)) (ih fun i' hi' => his i' (mem_cons_of_mem _ hi'))
  exact hshard _ fun i hi => mem_range.mp hi

/-- **The index built at open** corresponds to the map that the records leave in the order of their numbers. -/
theorem indexes_open (hn : 0 < n)
    {recs : Nat → List (Nat × List Op)} (h : ∀ i < n, TornLog crc n i (recs i) (dir i)) :
    Indexes dir (openPWALStore crc n dir).tree (replay ((List.range n).flatMap recs)) := by
  refine indexes_of_readsBack hn (readsBack_recovered fun i hi => ?_)
  obtain ⟨rest, -, hfile⟩ := (h i hi).bytes
  rw [(h i hi).decode]
  refine readsBack_recordsAt ?_ fun r hr => ⟨(h i hi).fits r hr, (h i hi).shardIdx hi hr⟩
  rw [hfile]
  exact prefix_append _ _

end Yasdb.Pwal
