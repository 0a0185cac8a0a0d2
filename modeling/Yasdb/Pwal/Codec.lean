import Yasdb.Store
import Yasdb.Lib.BigEndian

/-!
# The records of the write-ahead log

`encodePWALRecord` writes one batch as `[len u32][seq u64][crc u32][opCount u32]{op}*` and says where in the record each
value stands; `decodePWALShard` reads a shard file back, with the place of each value in the file. The checksum is a
parameter.

- `decodeRecord_recBytes`: a record is read back from where it stands;
- `decodeLoop_recordsAt`: **the records of a file are read back**, one after the other;
- `points_entriesAt`: each put is read back with the place of its value;
- `encodeOps_layout`: the encoder computes the offsets and lengths of the values, cut to 32 bits;
- `locsOf_encodeOps`: the places found at replay are those computed when the record was written.
-/

namespace Yasdb.Pwal

open Batch BigEndian List Nat Int32

variable {data : Bytes} {crc : Bytes → UInt32}

/-- A put or a delete of raw keys and values. -/
abbrev Op := Batch.Op fun _ : Bytes => Bytes

/-! ## Encoding -/

/-- Length prefix, number and checksum. -/
def headerLen : Nat := 4 + 8 + 4

/-- The loop over the operations: the payload after them, and the offset and length of each value within the record,
both 0 for deletes. -/
def encodeOps : Bytes → List Op → Bytes × List Int32 × List Int32
  | payload, [] => (payload, [], [])
  | payload, .put k v :: ops =>
    let payload := payload ++ [0] ++ be 4 k.length ++ k ++ be 4 v.length
    match encodeOps (payload ++ v) ops with
    | (rest, relOff, relLen) =>
      (rest, Int32.ofNat (headerLen + payload.length) :: relOff, Int32.ofNat v.length :: relLen)
  | payload, .del k :: ops =>
    match encodeOps (payload ++ [1] ++ be 4 k.length ++ k) ops with
    | (rest, relOff, relLen) => (rest, 0 :: relOff, 0 :: relLen)

/-- The record of one batch, with the offsets and lengths of the values within it. -/
def encodePWALRecord (crc : Bytes → UInt32) (seq : Nat) (ops : List Op) : Bytes × List Int32 × List Int32 :=
  match encodeOps (be 4 ops.length) ops with
  | (payload, relOff, relLen) =>
    (be 4 (8 + 4 + payload.length) ++ be 8 seq ++ be 4 (crc payload).toNat ++ payload, relOff, relLen)

/-- The bytes of a record. -/
def recBytes (crc : Bytes → UInt32) (seq : Nat) (ops : List Op) : Bytes := (encodePWALRecord crc seq ops).1

/-- The place of a value in its shard file. -/
structure ValueLoc where
  key : Bytes
  fileOff : Int
  n : Int32
deriving DecidableEq

/-- The places of the values of a record that is written at `base`. -/
def locsOf (base : Nat) : List Op → List Int32 → List Int32 → List ValueLoc
  | .put k _ :: ops, off :: relOff, n :: relLen => ⟨k, base + off.toInt, n⟩ :: locsOf base ops relOff relLen
  | .del _ :: ops, _ :: relOff, _ :: relLen => locsOf base ops relOff relLen
  | _, _, _ => []

/-- The bytes of one operation. -/
def opBytes : Op → Bytes
  | .put k v => [0] ++ be 4 k.length ++ k ++ be 4 v.length ++ v
  | .del k => [1] ++ be 4 k.length ++ k

theorem encodeOps_payload : ∀ (payload : Bytes) (ops : List Op),
    (encodeOps payload ops).1 = payload ++ ops.flatMap opBytes
  | payload, [] => by simp [encodeOps]
  | payload, .put k v :: ops => by
    simp only [encodeOps, encodeOps_payload _ ops, flatMap_cons, opBytes, append_assoc]
  | payload, .del k :: ops => by
    simp only [encodeOps, encodeOps_payload _ ops, flatMap_cons, opBytes, append_assoc]

/-- The payload of a record. -/
def payloadOf (ops : List Op) : Bytes := be 4 ops.length ++ ops.flatMap opBytes

theorem recBytes_eq (crc : Bytes → UInt32) (seq : Nat) (ops : List Op) :
    recBytes crc seq ops = be 4 (12 + (payloadOf ops).length) ++ be 8 seq ++ be 4 (crc (payloadOf ops)).toNat ++
      payloadOf ops := by
  unfold recBytes encodePWALRecord
  simp only [encodeOps_payload]
  rfl

theorem length_recBytes (crc : Bytes → UInt32) (seq : Nat) (ops : List Op) :
    (recBytes crc seq ops).length = 20 + (ops.flatMap opBytes).length := by
  simp [recBytes_eq, payloadOf]
  omega

/-! ## Decoding -/

/-- One operation read back: what rebuilding the index needs. -/
structure RecEntry where
  key : Bytes
  del : Bool
  fileOff : Nat
  n : Int32
deriving DecidableEq

/-- A record read back. -/
structure Record where
  seq : Nat
  entries : List RecEntry
deriving DecidableEq

/-- One turn of the loop over the operations of a payload: the operation at `cur`, and where the next one starts. -/
def decodeOp (payload : Bytes) (payloadFileStart cur : Nat) : Option (RecEntry × Nat) :=
  if cur + 1 > payload.length then none
  else
    let del := payload.getD cur 0 == 1
    let cur := cur + 1
    if cur + 4 > payload.length then none
    else
      let keyLen := ofBE (slice payload cur 4)
      let cur := cur + 4
      if cur + keyLen > payload.length then none
      else
        let key := slice payload cur keyLen
        let cur := cur + keyLen
        if del then some (⟨key, true, 0, 0⟩, cur)
        else if cur + 4 > payload.length then none
        else
          let valLen := ofBE (slice payload cur 4)
          let cur := cur + 4
          if cur + valLen > payload.length then none
          else some (⟨key, false, payloadFileStart + cur, Int32.ofNat valLen⟩, cur + valLen)

/-- `opCount` operations from `cur` on. -/
def decodeOps (payload : Bytes) (payloadFileStart : Nat) : Nat → Nat → Option (List RecEntry)
  | 0, _ => some []
  | opCount + 1, cur =>
    match decodeOp payload payloadFileStart cur with
    | none => none
    | some (e, cur) => (decodeOps payload payloadFileStart opCount cur).map (e :: ·)

/-- The record at `filePos` and where the next one starts; `none` if it is truncated or corrupt. -/
def decodeRecord (crc : Bytes → UInt32) (data : Bytes) (filePos : Nat) : Option (Record × Nat) :=
  if filePos + 4 > data.length then none
  else
    let n := ofBE (slice data filePos 4)
    let recBodyStart := filePos + 4
    if recBodyStart + n > data.length then none
    else
      let buf := slice data recBodyStart n
      if buf.length < 12 then none
      else
        let seq := ofBE (slice buf 0 8)
        let payload := buf.drop 12
        if (crc payload).toNat ≠ ofBE (slice buf 8 4) then none
        else if payload.length < 4 then none
        else
          match decodeOps payload (recBodyStart + 12) (ofBE (slice payload 0 4)) 4 with
          | none => none
          | some entries => some (⟨seq, entries⟩, recBodyStart + n)

/-- The loop over the records of a file. Each turn consumes some bytes, so the length of the file bounds the turns. -/
def decodeLoop (crc : Bytes → UInt32) (data : Bytes) : Nat → Nat → List Record
  | 0, _ => []
  | turns + 1, filePos =>
    match decodeRecord crc data filePos with
    | none => []
    | some (r, filePos) => r :: decodeLoop crc data turns filePos

/-- The position at which the loop stops. -/
def decodeEnd (crc : Bytes → UInt32) (data : Bytes) : Nat → Nat → Nat
  | 0, filePos => filePos
  | turns + 1, filePos =>
    match decodeRecord crc data filePos with
    | none => filePos
    | some (_, filePos) => decodeEnd crc data turns filePos

/-- The records of a shard file, up to the first truncated or corrupt one. -/
def decodePWALShard (crc : Bytes → UInt32) (data : Bytes) : List Record := decodeLoop crc data data.length 0

/-! ## Reading operations back -/

/-- The entry of the operation that stands at `pos` of the file. -/
def entryAt (pos : Nat) : Op → RecEntry
  | .put k v => ⟨k, false, pos + (1 + 4 + k.length + 4), Int32.ofNat v.length⟩
  | .del k => ⟨k, true, 0, 0⟩

/-- The entries of the operations that stand at `pos` of the file. -/
def entriesAt : Nat → List Op → List RecEntry
  | _, [] => []
  | pos, op :: ops => entryAt pos op :: entriesAt (pos + (opBytes op).length) ops

/-- An operation is read back from where it stands. -/
theorem decodeOp_opBytes {payload : Bytes} {cur : Nat} (payloadFileStart : Nat) {op : Op}
    (h : Stands (opBytes op) payload cur) (hlen : (opBytes op).length < 256 ^ 4) :
    decodeOp payload payloadFileStart cur = some (entryAt (payloadFileStart + cur) op, cur + (opBytes op).length) := by
  have hne : opBytes op ≠ [] := by cases op <;> simp [opBytes]
  have hle := h.le_length hne
  cases op with
  | put k v =>
    have hl : (opBytes (.put k v)).length = 1 + 4 + k.length + 4 + v.length := by simp [opBytes]; omega
    rw [hl] at hle hlen
    have hmark : payload.getD cur 0 = 0 :=
      (h.part [] [0] (be 4 k.length ++ k ++ be 4 v.length ++ v) (by simp [opBytes]) rfl).getD_eq 0
    have hk4 : Stands (be 4 k.length) payload (cur + 1) :=
      h.part [0] _ (k ++ be 4 v.length ++ v) (by simp [opBytes]) rfl
    have hk : Stands k payload (cur + 1 + 4) :=
      h.part ([0] ++ be 4 k.length) _ (be 4 v.length ++ v) (by simp [opBytes]) (by simp)
    have hv4 : Stands (be 4 v.length) payload (cur + 1 + 4 + k.length) :=
      h.part ([0] ++ be 4 k.length ++ k) _ v (by simp [opBytes]) (by simp; omega)
    have ek := hk4.slice_eq
    have ev := hv4.slice_eq
    rw [length_be] at ek ev
    unfold decodeOp
    rw [if_neg (by omega), if_neg (by omega), ek, ofBE_be_of_lt (by omega), if_neg (by omega), hmark,
      if_neg (by decide), if_neg (by omega), ev, ofBE_be_of_lt (by omega), if_neg (by omega), hk.slice_eq, hl]
    simp only [entryAt, add_assoc]
  | del k =>
    have hl : (opBytes (.del k)).length = 1 + 4 + k.length := by simp [opBytes]; omega
    rw [hl] at hle hlen
    have hmark : payload.getD cur 0 = 1 :=
      (h.part [] [1] (be 4 k.length ++ k) (by simp [opBytes]) rfl).getD_eq 0
    have hk4 : Stands (be 4 k.length) payload (cur + 1) := h.part [1] _ k (by simp [opBytes]) rfl
    have hk : Stands k payload (cur + 1 + 4) :=
      h.part ([1] ++ be 4 k.length) _ [] (by simp [opBytes]) (by simp)
    have ek := hk4.slice_eq
    rw [length_be] at ek
    unfold decodeOp
    rw [if_neg (by omega), if_neg (by omega), ek, ofBE_be_of_lt (by omega), if_neg (by omega), hmark,
      if_pos (by decide), hk.slice_eq, hl]
    simp only [entryAt, add_assoc]

/-- The entry names the key of the operation and, for a put, the place of its value. -/
def Points (data : Bytes) : RecEntry → Op → Prop
  | e, .put k v => e.key = k ∧ e.del = false ∧ Stands v data e.fileOff ∧ e.n = Int32.ofNat v.length
  | e, .del k => e.key = k ∧ e.del = true

/-- **Each put is read back with the place of its value.** -/
theorem points_entriesAt : ∀ {ops : List Op} {pos : Nat}, Stands (ops.flatMap opBytes) data pos →
    List.Forall₂ (Points data) (entriesAt pos ops) ops
  | [], _, _ => .nil
  | op :: ops, pos, h => by
    rw [flatMap_cons] at h
    refine .cons ?_ (points_entriesAt (h.part (opBytes op) _ [] (by simp) rfl))
    cases op with
    | put k v =>
      refine ⟨rfl, rfl, ?_, rfl⟩
      refine h.part ([0] ++ be 4 k.length ++ k ++ be 4 v.length) v (ops.flatMap opBytes) (by simp [opBytes]) ?_
      simp [entryAt]
      omega
    | del k => exact ⟨rfl, rfl⟩

/-- Where the values of operations that start at `pos` of a record stand in it, and how long they are; both 0 for
deletes. -/
def layout : Nat → List Op → List (Nat × Nat)
  | _, [] => []
  | pos, .put k v :: ops => (pos + (1 + 4 + k.length + 4), v.length) :: layout (pos + (opBytes (.put k v)).length) ops
  | pos, .del k :: ops => (0, 0) :: layout (pos + (opBytes (.del k)).length) ops

theorem layout_le : ∀ {ops : List Op} {pos : Nat} {p : Nat × Nat}, p ∈ layout pos ops →
    p.1 + p.2 ≤ pos + (ops.flatMap opBytes).length
  | .put k v :: ops, pos, p, h => by
    have hl : (opBytes (.put k v)).length = 1 + 4 + k.length + 4 + v.length := by simp [opBytes]; omega
    rw [flatMap_cons, length_append]
    rcases mem_cons.mp h with rfl | h
    · omega
    · have := layout_le h
      omega
  | .del k :: ops, pos, p, h => by
    rw [flatMap_cons, length_append]
    rcases mem_cons.mp h with rfl | h
    · exact zero_le _
    · have := layout_le h
      omega

/-- **The offsets and lengths that the encoder computes** are those of the values, cut to 32 bits. -/
theorem encodeOps_layout : ∀ (payload : Bytes) (ops : List Op), (encodeOps payload ops).2 =
    ((layout (headerLen + payload.length) ops).map fun p => ofNat p.1,
      (layout (headerLen + payload.length) ops).map fun p => ofNat p.2)
  | _, [] => rfl
  | payload, .put k v :: ops => by
    have happ : payload ++ [0] ++ be 4 k.length ++ k ++ be 4 v.length ++ v = payload ++ opBytes (.put k v) := by
      simp [opBytes]
    have hoff : (payload ++ [0] ++ be 4 k.length ++ k ++ be 4 v.length).length =
        payload.length + (1 + 4 + k.length + 4) := by
      simp
      omega
    have ih := encodeOps_layout (payload ++ opBytes (.put k v)) ops
    rw [length_append, ← add_assoc] at ih
    simp only [encodeOps, happ, hoff, ih, layout, map_cons, add_assoc]
  | payload, .del k :: ops => by
    have happ : payload ++ [1] ++ be 4 k.length ++ k = payload ++ opBytes (.del k) := by simp [opBytes]
    have ih := encodeOps_layout (payload ++ opBytes (.del k)) ops
    rw [length_append, ← add_assoc] at ih
    simp only [encodeOps, happ, ih, layout, map_cons]
    rfl

theorem locsOf_layout (base : Nat) : ∀ {ops : List Op} {pos : Nat}, (∀ p ∈ layout pos ops, p.1 < 2 ^ 31) →
    locsOf base ops ((layout pos ops).map fun p => ofNat p.1) ((layout pos ops).map fun p => ofNat p.2) =
      ((entriesAt (base + pos) ops).filter fun e => !e.del).map fun e => ⟨e.key, e.fileOff, e.n⟩
  | [], _, _ => rfl
  | .put k v :: ops, pos, h => by
    have ih := locsOf_layout base fun p hp => h p (mem_cons_of_mem _ hp)
    have hoff := toInt_ofNat_of_lt (h _ mem_cons_self)
    simp only [add_assoc] at hoff
    simp only [layout, map_cons, locsOf, ih, entriesAt, entryAt, filter_cons, Bool.not_false, if_true,
      add_assoc, hoff, Int.natCast_add]
  | .del k :: ops, pos, h => by
    have ih := locsOf_layout base fun p hp => h p (mem_cons_of_mem _ hp)
    simp only [layout, map_cons, locsOf, ih, entriesAt, entryAt, filter_cons, Bool.not_true,
      Bool.false_eq_true, if_false, add_assoc]

theorem locsOf_encodeOps (base : Nat) (ops : List Op) (payload : Bytes)
    (h : ∀ p ∈ layout (headerLen + payload.length) ops, p.1 < 2 ^ 31) :
    locsOf base ops (encodeOps payload ops).2.1 (encodeOps payload ops).2.2 =
      ((entriesAt (base + (headerLen + payload.length)) ops).filter fun e => !e.del).map
        fun e => ⟨e.key, e.fileOff, e.n⟩ := by
  rw [encodeOps_layout]
  exact locsOf_layout base h

theorem decodeOps_flatMap {payload : Bytes} (payloadFileStart : Nat) : ∀ {ops : List Op} {cur : Nat},
    Stands (ops.flatMap opBytes) payload cur → (ops.flatMap opBytes).length < 256 ^ 4 →
    decodeOps payload payloadFileStart ops.length cur = some (entriesAt (payloadFileStart + cur) ops)
  | [], _, _, _ => rfl
  | op :: ops, cur, h, hlen => by
    rw [flatMap_cons] at h hlen
    rw [length_append] at hlen
    have hop : Stands (opBytes op) payload cur := h.part [] _ (ops.flatMap opBytes) rfl rfl
    have hops : Stands (ops.flatMap opBytes) payload (cur + (opBytes op).length) :=
      h.part (opBytes op) _ [] (by simp) rfl
    rw [length_cons, decodeOps, decodeOp_opBytes payloadFileStart hop (by omega)]
    dsimp only
    rw [decodeOps_flatMap payloadFileStart hops (by omega), Option.map_some, entriesAt, add_assoc]

theorem length_le_flatMap_opBytes (ops : List Op) : ops.length ≤ (ops.flatMap opBytes).length := by
  induction ops with
  | nil => exact le_refl 0
  | cons op ops ih =>
    have hop : 1 ≤ (opBytes op).length := by cases op <;> simp [opBytes]
    rw [flatMap_cons, length_append, length_cons]
    omega

/-! ## Reading records back -/

/-- **A record is read back** from where it stands, if its length and its number fit into their fields. -/
theorem decodeRecord_recBytes {filePos seq : Nat} {ops : List Op}
    (h : Stands (recBytes crc seq ops) data filePos) (hlen : (recBytes crc seq ops).length < 256 ^ 4)
    (hseq : seq < 256 ^ 8) :
    decodeRecord crc data filePos =
      some (⟨seq, entriesAt (filePos + 20) ops⟩, filePos + (recBytes crc seq ops).length) := by
  have hl := length_recBytes crc seq ops
  have hne : recBytes crc seq ops ≠ [] := by
    intro he
    rw [he, length_nil] at hl
    omega
  have hle := h.le_length hne
  have hp : (payloadOf ops).length = 4 + (ops.flatMap opBytes).length := by simp [payloadOf]
  have hcount := length_le_flatMap_opBytes ops
  -- the body after the length prefix: number, checksum and payload
  have hbody : ∃ body, body = be 8 seq ++ be 4 (crc (payloadOf ops)).toNat ++ payloadOf ops := ⟨_, rfl⟩
  obtain ⟨body, hbody⟩ := hbody
  have hrec : recBytes crc seq ops = be 4 (12 + (payloadOf ops).length) ++ body := by
    rw [recBytes_eq, hbody]
    simp
  have hbl : body.length = 12 + (payloadOf ops).length := by rw [hbody]; simp; omega
  have en := (h.part [] (be 4 (12 + (payloadOf ops).length)) body (by simp [hrec]) rfl).slice_eq
  have eb := (h.part (be 4 (12 + (payloadOf ops).length)) body [] (by simp [hrec]) rfl).slice_eq
  have hb : Stands body body 0 := prefix_refl _
  have es := (hb.part [] (be 8 seq) (be 4 (crc (payloadOf ops)).toNat ++ payloadOf ops) (by simp [hbody]) rfl).slice_eq
  have ec := (hb.part (be 8 seq) (be 4 (crc (payloadOf ops)).toNat) (payloadOf ops) (by simp [hbody]) rfl).slice_eq
  have ed : body.drop 12 = payloadOf ops := by
    rw [hbody]
    exact drop_left' (by simp)
  have hpay : Stands (payloadOf ops) (payloadOf ops) 0 := prefix_refl _
  have eo := (hpay.part [] (be 4 ops.length) (ops.flatMap opBytes) (by simp [payloadOf]) rfl).slice_eq
  have hops : Stands (ops.flatMap opBytes) (payloadOf ops) 4 :=
    hpay.part (be 4 ops.length) _ [] (by simp [payloadOf]) (by simp)
  simp only [length_be, length_nil, add_zero, zero_add, hbl] at en eb es ec eo
  have hcrc := UInt32.toNat_lt (crc (payloadOf ops))
  unfold decodeRecord
  dsimp only
  rw [if_neg (by omega), en, ofBE_be_of_lt (by omega), if_neg (by omega), eb, hbl, if_neg (by omega), es,
    ofBE_be_of_lt hseq, ed, ec, ofBE_be_of_lt (by omega), if_neg (by simp), if_neg (by omega), eo,
    ofBE_be_of_lt (by omega), decodeOps_flatMap _ hops (by omega)]
  simp only [Option.some.injEq, Prod.mk.injEq, true_and]
  omega

theorem stands_ops {q pos : Nat} {ops : List Op}
    (h : Stands (recBytes crc q ops) data pos) : Stands (ops.flatMap opBytes) data (pos + 20) := by
  refine h.part (be 4 (12 + (payloadOf ops).length) ++ be 8 q ++ be 4 (crc (payloadOf ops)).toNat ++ be 4 ops.length) _
    [] ?_ (by simp)
  rw [recBytes_eq]
  simp [payloadOf]

/-- The bytes of a file of records. -/
def fileBytes (crc : Bytes → UInt32) (recs : List (Nat × List Op)) : Bytes := recs.flatMap fun r => recBytes crc r.1 r.2

/-- The records, as they are read back from a file where they stand at `pos`. -/
def recordsAt (crc : Bytes → UInt32) : Nat → List (Nat × List Op) → List Record
  | _, [] => []
  | pos, r :: recs => ⟨r.1, entriesAt (pos + 20) r.2⟩ :: recordsAt crc (pos + (recBytes crc r.1 r.2).length) recs

/-- The length of the record and its number fit into their fields. -/
def Fits (crc : Bytes → UInt32) (r : Nat × List Op) : Prop := (recBytes crc r.1 r.2).length < 2 ^ 31 ∧ r.1 < 2 ^ 64

instance (crc : Bytes → UInt32) (r : Nat × List Op) : Decidable (Fits crc r) := inferInstanceAs (Decidable (_ ∧ _))

/-- The loop reads the records that stand at `pos` and stops behind them, if there is no record there. -/
theorem decodeLoop_recordsAt {crc : Bytes → UInt32} {data : Bytes} : ∀ {recs : List (Nat × List Op)} {turns pos : Nat},
    Stands (fileBytes crc recs) data pos → decodeRecord crc data (pos + (fileBytes crc recs).length) = none →
    (∀ r ∈ recs, Fits crc r) → recs.length ≤ turns → decodeLoop crc data turns pos = recordsAt crc pos recs ∧
      decodeEnd crc data turns pos = pos + (fileBytes crc recs).length
  | [], 0, _, _, _, _, _ => ⟨rfl, rfl⟩
  | [], turns + 1, pos, _, hend, _, _ => by
    have hnone : decodeRecord crc data pos = none := hend
    simp only [decodeLoop, decodeEnd, hnone, recordsAt]
    exact ⟨trivial, rfl⟩
  | r :: recs, turns + 1, pos, h, hend, hfit, hturns => by
    have hcons : fileBytes crc (r :: recs) = recBytes crc r.1 r.2 ++ fileBytes crc recs := flatMap_cons
    rw [hcons] at h hend ⊢
    rw [length_append, ← add_assoc] at hend ⊢
    obtain ⟨hlen, hseq⟩ := hfit r mem_cons_self
    have hr := decodeRecord_recBytes (h.part [] _ (fileBytes crc recs) rfl rfl) (by omega) (by omega)
    have ih := @decodeLoop_recordsAt crc data recs turns (pos + (recBytes crc r.1 r.2).length)
      (h.part (recBytes crc r.1 r.2) _ [] (by simp) rfl) hend
      (fun r' hr' => hfit r' (mem_cons_of_mem _ hr')) (by simpa using hturns)
    simp only [length_nil, add_zero] at hr
    simp only [decodeLoop, decodeEnd, hr, ih, recordsAt]
    exact ⟨trivial, trivial⟩

theorem length_le_fileBytes (crc : Bytes → UInt32) : ∀ recs : List (Nat × List Op),
    recs.length ≤ (fileBytes crc recs).length
  | [] => le_refl 0
  | r :: recs => by
    have ih := length_le_fileBytes crc recs
    have hl := length_recBytes crc r.1 r.2
    rw [show fileBytes crc (r :: recs) = recBytes crc r.1 r.2 ++ fileBytes crc recs from flatMap_cons,
      length_append, length_cons]
    omega

end Yasdb.Pwal
