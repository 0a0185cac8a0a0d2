import Yasdb.Pwal.Session

/-!
# Shard files

A crash cuts a shard file somewhere after what is synced. What is left are whole records, numbered from the first one of
the shard on, and perhaps a proper part of the next one (`Torn`), which the decoder refuses whatever the checksum is
(`TornLog`). As long as the store is closed cleanly there is no such part (`FileLog`).

- `decodePWALShard_fileBytes`: **a file of records is read back**;
- `TornLog.decode`, `TornLog.localSeq`: the whole records are read back, and the shard goes on with the next number;
- `TornLog.cut`: **a cut leaves the records that end before it**;
- `TornLog.session`: a session adds the records that it stages.
-/

namespace Yasdb.Pwal

open Batch BigEndian List Option Prod Nat

/-! ## Torn records -/

/-- What a cut may leave behind the last whole record: a proper part of a record. -/
def Torn (crc : Bytes → UInt32) (rest : Bytes) : Prop :=
  ∃ r, Fits crc r ∧ rest <+: recBytes crc r.1 r.2 ∧ rest.length < (recBytes crc r.1 r.2).length

theorem torn_nil (crc : Bytes → UInt32) : Torn crc [] := by
  refine ⟨(0, []), ⟨?_, by decide⟩, nil_prefix, ?_⟩
  · rw [length_recBytes]
    decide
  · rw [length_recBytes]
    exact lt_of_lt_of_le (by decide : 0 < 20) (le_add_right _ _)

variable {crc : Bytes → UInt32} {r : Nat × List Op} {rest : Bytes} {recs : List (Nat × List Op)}

theorem torn_take (h : Fits crc r) {m : Nat} (hm : m < (recBytes crc r.1 r.2).length) :
    Torn crc ((recBytes crc r.1 r.2).take m) := by
  refine ⟨r, h, take_prefix _ _, ?_⟩
  rw [length_take]
  omega

theorem Torn.take (h : Torn crc rest) (m : Nat) : Torn crc (rest.take m) := by
  obtain ⟨r, hfit, hpre, hlt⟩ := h
  have hcut : rest.take m <+: rest := ⟨_, take_append_drop m rest⟩
  exact ⟨r, hfit, hcut.trans hpre, by rw [length_take]; omega⟩

/-- **A part of a record is refused**: the file ends before the length that its first bytes announce. -/
theorem decodeRecord_part (hfits : (recBytes crc r.1 r.2).length < 2 ^ 32) (hpre : rest <+: recBytes crc r.1 r.2)
    (hlt : rest.length < (recBytes crc r.1 r.2).length) (front : Bytes) :
    decodeRecord crc (front ++ rest) front.length = none := by
  have hl := length_recBytes crc r.1 r.2
  unfold Pwal.decodeRecord
  by_cases hshort : rest.length < 4
  · rw [if_pos (by rw [length_append]; omega)]
  · have hp : (payloadOf r.2).length = 4 + (r.2.flatMap opBytes).length := by simp [payloadOf]
    -- the length prefix is whole
    have hslice : slice (front ++ rest) front.length 4 = be 4 (12 + (payloadOf r.2).length) := by
      unfold slice
      rw [drop_left]
      have htake : rest.take 4 = (recBytes crc r.1 r.2).take 4 := by
        rw [prefix_iff_eq_take.mp hpre, take_take, Nat.min_eq_left (by omega)]
      rw [htake, recBytes_eq, append_assoc, append_assoc]
      exact take_left' (length_be 4 _)
    rw [if_neg (by rw [length_append]; omega), hslice, ofBE_be_of_lt (by omega),
      if_pos (by rw [length_append]; omega)]

theorem Torn.decodeRecord (h : Torn crc rest) (front : Bytes) :
    decodeRecord crc (front ++ rest) front.length = none := by
  obtain ⟨r, hfit, hpre, hlt⟩ := h
  exact decodeRecord_part (lt_trans hfit.1 (by decide)) hpre hlt front

/-- **A file of records is read back**, whatever follows them that is not a record. -/
theorem decodePWALShard_fileBytes (hfit : ∀ r ∈ recs, Fits crc r)
    (hend : decodeRecord crc (fileBytes crc recs ++ rest) (fileBytes crc recs).length = none) :
    decodePWALShard crc (fileBytes crc recs ++ rest) = recordsAt crc 0 recs ∧
      decodeEnd crc (fileBytes crc recs ++ rest) (fileBytes crc recs ++ rest).length 0 =
        (fileBytes crc recs).length := by
  have hle := length_le_fileBytes crc recs
  have hst : Stands (fileBytes crc recs) (fileBytes crc recs ++ rest) 0 := prefix_append _ _
  have hloop := @decodeLoop_recordsAt crc (fileBytes crc recs ++ rest) recs (fileBytes crc recs ++ rest).length 0 hst
    (by rw [zero_add]; exact hend) hfit (by rw [length_append]; omega)
  rw [zero_add] at hloop
  exact hloop

/-! ## Files of records -/

/-- The file of shard `i` of `n` consists of these records and perhaps a torn one. -/
structure TornLog (crc : Bytes → UInt32) (n i : Nat) (recs : List (Nat × List Op)) (file : Bytes) : Prop where
  bytes : ∃ rest, Torn crc rest ∧ file = fileBytes crc recs ++ rest
  fits : ∀ r ∈ recs, Fits crc r
  seqs : recs.map Prod.fst = (List.range recs.length).map fun l => l * n + i + 1

/-- The decoder reads the file to its end. -/
def Whole (crc : Bytes → UInt32) (file : Bytes) : Prop := decodeEnd crc file file.length 0 = file.length

instance (crc : Bytes → UInt32) (file : Bytes) : Decidable (Whole crc file) := inferInstanceAs (Decidable (_ = _))

theorem tornLog_empty (crc : Bytes → UInt32) (n i : Nat) : TornLog crc n i [] [] :=
  ⟨⟨[], torn_nil crc, rfl⟩, nofun, rfl⟩

theorem seq_recordsAt (crc : Bytes → UInt32) : ∀ (recs : List (Nat × List Op)) (pos : Nat),
    (recordsAt crc pos recs).map (·.seq) = recs.map fst
  | [], _ => rfl
  | r :: recs, pos => by rw [recordsAt, map_cons, map_cons, seq_recordsAt crc recs]

theorem length_recordsAt (crc : Bytes → UInt32) (recs : List (Nat × List Op)) (pos : Nat) :
    (recordsAt crc pos recs).length = recs.length := by
  rw [← length_map (·.seq), seq_recordsAt, length_map]

theorem recordsAt_prefix {pos : Nat} : ∀ {recs recs' : List (Nat × List Op)}, recs <+: recs' →
    recordsAt crc pos recs <+: recordsAt crc pos recs' := by
  intro recs
  induction recs generalizing pos with
  | nil => exact fun _ => nil_prefix
  | cons r recs ih =>
    intro recs' h
    cases recs' with
    | nil => exact absurd (prefix_nil.mp h) (cons_ne_nil _ _)
    | cons r' recs' =>
      obtain ⟨rfl, h'⟩ := cons_prefix_cons.mp h
      exact cons_prefix_cons.mpr ⟨rfl, ih h'⟩

theorem exists_recordsAt {data : Bytes} :
    ∀ {recs : List (Nat × List Op)} {pos : Nat}, Stands (fileBytes crc recs) data pos → r ∈ recs →
    ∃ rec ∈ recordsAt crc pos recs, rec.seq = r.1 ∧ List.Forall₂ (Points data) rec.entries r.2
  | r' :: recs, pos, h, hr => by
    rw [show fileBytes crc (r' :: recs) = recBytes crc r'.1 r'.2 ++ fileBytes crc recs from flatMap_cons] at h
    rcases mem_cons.mp hr with rfl | hr
    · have hops := points_entriesAt (stands_ops (h.part [] _ (fileBytes crc recs) rfl rfl))
      exact ⟨_, mem_cons_self, rfl, hops⟩
    · have hrest := h.part (recBytes crc r'.1 r'.2) (fileBytes crc recs) [] (by simp) rfl
      obtain ⟨rec, hrec, he⟩ := exists_recordsAt hrest hr
      exact ⟨rec, mem_cons_of_mem _ hrec, he⟩

/-- The file of shard `i` of `n` consists of these records. -/
structure FileLog (crc : Bytes → UInt32) (n i : Nat) (recs : List (Nat × List Op)) (file : Bytes) : Prop where
  bytes : file = fileBytes crc recs
  fits : ∀ r ∈ recs, Fits crc r
  seqs : recs.map Prod.fst = (List.range recs.length).map fun l => l * n + i + 1

theorem fileLog_empty (crc : Bytes → UInt32) (n i : Nat) : FileLog crc n i [] [] := ⟨rfl, nofun, rfl⟩

/-- A cut leaves the records that end before it. -/
theorem take_fileBytes (ht : Torn crc rest) :
    ∀ {recs : List (Nat × List Op)} (m : Nat), (∀ r ∈ recs, Fits crc r) → ∃ recs' rest',
      (fileBytes crc recs ++ rest).take m = fileBytes crc recs' ++ rest' ∧ Torn crc rest' ∧ recs' <+: recs ∧
      ∀ K, K <+: recs → (fileBytes crc K).length ≤ m → K <+: recs'
  | [], m, _ => ⟨[], rest.take m, rfl, ht.take m, prefix_refl _, fun K hK _ => hK⟩
  | r :: recs, m, hfit => by
    have hcons : ∀ K : List (Nat × List Op), fileBytes crc (r :: K) = recBytes crc r.1 r.2 ++ fileBytes crc K :=
      fun K => flatMap_cons
    have hr := hfit r mem_cons_self
    by_cases hm : (recBytes crc r.1 r.2).length ≤ m
    · obtain ⟨recs', rest', htake, ht', hpre, hkept⟩ := take_fileBytes ht (m - (recBytes crc r.1 r.2).length)
        fun r' hr' => hfit r' (mem_cons_of_mem _ hr')
      refine ⟨r :: recs', rest', ?_, ht', cons_prefix_cons.mpr ⟨rfl, hpre⟩, fun K hK hlen => ?_⟩
      · rw [hcons, hcons, append_assoc, append_assoc, take_append, htake, take_of_length_le hm]
      · cases K with
        | nil => exact nil_prefix
        | cons k K =>
          obtain ⟨rfl, hK'⟩ := cons_prefix_cons.mp hK
          rw [hcons, length_append] at hlen
          exact cons_prefix_cons.mpr ⟨rfl, hkept K hK' (by omega)⟩
    · refine ⟨[], (recBytes crc r.1 r.2).take m, ?_, torn_take hr (by omega), nil_prefix, fun K hK hlen => ?_⟩
      · rw [hcons, append_assoc, take_append_of_le_length (by omega)]
        rfl
      · cases K with
        | nil => exact nil_prefix
        | cons k K =>
          obtain ⟨rfl, -⟩ := cons_prefix_cons.mp hK
          rw [hcons, length_append] at hlen
          omega

theorem seqs_of_prefix {n i : Nat} {recs' : List (Nat × List Op)} (h : recs' <+: recs)
    (hs : recs.map fst = (List.range recs.length).map fun l => l * n + i + 1) :
    recs'.map fst = (List.range recs'.length).map fun l => l * n + i + 1 := by
  have hlen := h.length_le
  have htake : recs'.map fst = (recs.map fst).take recs'.length := by
    rw [← map_take, ← prefix_iff_eq_take.mp h]
  rw [htake, hs, ← map_take, take_range, min_eq_left hlen]

namespace TornLog

variable {crc : Bytes → UInt32} {n i : Nat} {recs : List (Nat × List Op)} {file : Bytes}
  (h : TornLog crc n i recs file)
include h

theorem decodeLoop_eq : decodePWALShard crc file = recordsAt crc 0 recs ∧
    decodeEnd crc file file.length 0 = (fileBytes crc recs).length := by
  obtain ⟨rest, ht, hfile⟩ := h.bytes
  rw [hfile]
  exact decodePWALShard_fileBytes h.fits (ht.decodeRecord _)

theorem decode : decodePWALShard crc file = recordsAt crc 0 recs := h.decodeLoop_eq.1

theorem localSeq (hn : 0 < n) : (openShard crc n i file).localSeq = recs.length := by
  unfold openShard
  have hlast : (decodePWALShard crc file).getLast?.map (·.seq) = (recs.map fst).getLast? := by
    rw [h.decode, ← getLast?_map, seq_recordsAt]
  rw [h.seqs, getLast?_map] at hlast
  cases hl : recs.length with
  | zero =>
    rw [hl] at hlast
    rw [map_eq_none_iff.mp hlast]
  | succ m =>
    rw [hl, getLast?_range, if_neg (by omega)] at hlast
    obtain ⟨last, he, hseq⟩ := map_eq_some_iff.mp hlast
    rw [he]
    dsimp only at hseq ⊢
    rw [hseq, Nat.add_sub_cancel, if_pos (by omega), show m * n + i + 1 - i - 1 = m * n by omega,
      Nat.mul_div_cancel m hn]

theorem whole (hw : Whole crc file) : FileLog crc n i recs file := by
  refine ⟨?_, h.fits, h.seqs⟩
  obtain ⟨rest, -, hfile⟩ := h.bytes
  have hend := h.decodeLoop_eq.2.symm.trans hw
  rw [hfile, length_append] at hend
  rw [hfile, eq_nil_of_length_eq_zero (show rest.length = 0 by omega), append_nil]

/-- **A cut** leaves the records that end before it, and perhaps a part of the next one. -/
theorem cut (m : Nat) : ∃ recs', TornLog crc n i recs' (file.take m) ∧ recs' <+: recs ∧
    ∀ K, K <+: recs → (fileBytes crc K).length ≤ m → K <+: recs' := by
  obtain ⟨rest, ht, hfile⟩ := h.bytes
  obtain ⟨recs', rest', htake, ht', hpre, hkept⟩ := take_fileBytes ht m h.fits
  exact ⟨recs', ⟨⟨rest', ht', hfile ▸ htake⟩, fun r hr => h.fits r (hpre.subset hr), seqs_of_prefix hpre h.seqs⟩, hpre,
    hkept⟩

end TornLog

namespace FileLog

variable {crc : Bytes → UInt32} {n i : Nat} {recs : List (Nat × List Op)} {file : Bytes}
  (h : FileLog crc n i recs file)
include h

theorem torn : TornLog crc n i recs file :=
  ⟨⟨[], torn_nil crc, by rw [h.bytes, append_nil]⟩, h.fits, h.seqs⟩

theorem decode : decodePWALShard crc file = recordsAt crc 0 recs := h.torn.decode

theorem isWhole : Whole crc file := by
  unfold Whole
  rw [h.torn.decodeLoop_eq.2, ← h.bytes]

theorem length_decode : (decodePWALShard crc file).length = recs.length := by
  rw [h.decode, length_recordsAt]

theorem mem_seqs {q : Nat} : (∃ r ∈ decodePWALShard crc file, r.seq = q) ↔ ∃ l < recs.length, l * n + i + 1 = q := by
  have hmap : (∃ r ∈ decodePWALShard crc file, r.seq = q) ↔ q ∈ (decodePWALShard crc file).map (·.seq) :=
    List.mem_map.symm
  rw [hmap, h.decode, seq_recordsAt, h.seqs]
  simp

theorem localSeq (hn : 0 < n) : (openShard crc n i file).localSeq = recs.length := h.torn.localSeq hn

/-- **A session** adds the records that it stages. -/
theorem session (hn : 0 < n) {staged : List Staged} {sh : Shard}
    (hs : ShardInv crc n i file (openShard crc n i file).localSeq staged sh)
    (hfit : ∀ r ∈ staged, Fits crc (r.seq, r.ops)) :
    FileLog crc n i (recs ++ staged.map fun r => (r.seq, r.ops)) sh.file := by
  refine ⟨?_, fun r hr => ?_, ?_⟩
  · rw [hs.file, h.bytes]
    simp [fileBytes, flatMap_map]
  · rcases mem_append.mp hr with hr | hr
    · exact h.fits r hr
    · obtain ⟨r', hr', rfl⟩ := List.mem_map.mp hr
      exact hfit r' hr'
  · have hseqs : staged.map (·.seq) = (List.range staged.length).map fun k => (recs.length + k) * n + i + 1 := by
      refine ext_getElem? fun k => ?_
      rw [getElem?_map, getElem?_map]
      cases hk : staged[k]? with
      | none =>
        have hlen := List.getElem?_eq_none_iff.mp hk
        rw [getElem?_eq_none (by simpa using hlen)]
        rfl
      | some r =>
        have hlt := (List.getElem?_eq_some_iff.mp hk).1
        rw [getElem?_range hlt, map_some, map_some, hs.seqs k r hk, h.localSeq hn]
    rw [map_append, h.seqs, List.map_map, length_append, length_map, range_add, map_append, List.map_map]
    congr 1

end FileLog

theorem TornLog.session {n i : Nat} {file : Bytes} (h : TornLog crc n i recs file) (hn : 0 < n) {staged : List Staged}
    {sh : Shard} (hs : ShardInv crc n i file (openShard crc n i file).localSeq staged sh)
    (hfit : ∀ r ∈ staged, Fits crc (r.seq, r.ops)) (hw : staged ≠ [] → Whole crc file) :
    TornLog crc n i (recs ++ staged.map fun r => (r.seq, r.ops)) sh.file := by
  by_cases hst : staged = []
  · rw [hs.file, hst]
    simpa using h
  · exact ((h.whole (hw hst)).session hn hs hfit).torn

end Yasdb.Pwal
