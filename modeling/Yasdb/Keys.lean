import Yasdb.Lib.ByteOrder
import Yasdb.Server.Model
import Yasdb.Server.Read

/-!
# The bytes of the keys

Every key is a leading ordinal byte and then its fields: numbers as eight big-endian bytes, paths and producer ids as
they are. The store orders its keys by these bytes and scans ranges of them.

- `parse_bytes`: the bytes determine the key;
- `pairKey_lt`: records are ordered by stream and sequence number, deadlines by time and stream;
- `keys_partition_in_order`: **the byte ranges that the code scans** hold exactly the keys of one kind.
-/

namespace Yasdb

open BigEndian List UInt64

variable {id : UInt64} {v w a : UInt64} {kt : UInt8} {db : Store} {n : Nat} {p k rest : Bytes}

/-! ## Key constructors -/

namespace Keys

def ktStreamMeta : UInt8 := 1
def ktStreamIDMapping : UInt8 := 2
def ktStreamTail : UInt8 := 3
def ktRecordData : UInt8 := 4
def ktProducerState : UInt8 := 5
def ktWriterSeq : UInt8 := 6
def ktExpiryDeadline : UInt8 := 7
def ktDeletePending : UInt8 := 8
def ktPathTombstone : UInt8 := 9
def ktRefCount : UInt8 := 10
def ktIDCounter : UInt8 := 100

def be64 (v : UInt64) : Bytes := be 8 v.toNat

def be64Decode (b : Bytes) : UInt64 := b.foldl (fun v c => v <<< 8 ||| c.toUInt64) 0

/-- A key with one number. -/
def idKey (kt : UInt8) (id : UInt64) : Bytes := kt :: be64 id

/-- A key with two numbers. -/
def pairKey (kt : UInt8) (a b : UInt64) : Bytes := kt :: (be64 a ++ be64 b)

def metaKey (path : Bytes) : Bytes := ktStreamMeta :: path

def idMappingKey (id : UInt64) : Bytes := idKey ktStreamIDMapping id

def tailKey (id : UInt64) : Bytes := idKey ktStreamTail id

def recordKey (id seq : UInt64) : Bytes := pairKey ktRecordData id seq

def recordPrefix (id : UInt64) : Bytes := idKey ktRecordData id

/-- The exclusive end of all records of a stream. -/
def recordPrefixEnd (id : UInt64) : Option Bytes := prefixEnd (recordPrefix id)

def producerKey (id : UInt64) (producerID : Bytes) : Bytes := ktProducerState :: (be64 id ++ producerID)

def producerPrefix (id : UInt64) : Bytes := idKey ktProducerState id

def producerPrefixEnd (id : UInt64) : Option Bytes := prefixEnd (producerPrefix id)

def writerSeqKey (id : UInt64) : Bytes := idKey ktWriterSeq id

def expiryKey (deadline id : UInt64) : Bytes := pairKey ktExpiryDeadline deadline id

/-- The exclusive end of all deadlines up to `now`. -/
def expiryScanEnd (now : UInt64) : Bytes := ktExpiryDeadline :: be64 (now + 1)

def deletePendingKey (id : UInt64) : Bytes := idKey ktDeletePending id

def tombstoneKey (path : Bytes) : Bytes := ktPathTombstone :: path

def refCountKey (id : UInt64) : Bytes := idKey ktRefCount id

def idCounterKey : Bytes := [ktIDCounter]

/-! ## Numbers -/

@[simp] theorem length_be64 (v : UInt64) : (be64 v).length = 8 := length_be 8 _

theorem be64_lt : be64 v < be64 w ↔ v < w :=
  (be_lt_be v.toNat_lt w.toNat_lt).trans UInt64.lt_iff_toNat_lt.symm

theorem be64_inj (h : be64 v = be64 w) : v = w :=
  UInt64.toNat_inj.mp (be_inj v.toNat_lt w.toNat_lt h)

theorem toNat_shift_or (v : UInt64) (c : UInt8) :
    (v <<< 8 ||| c.toUInt64).toNat = (256 * v.toNat + c.toNat) % 2 ^ 64 := by
  have hc := c.toNat_lt
  have hshift : (v <<< 8).toNat = (v.toNat % 2 ^ 56) <<< 8 := by
    rw [UInt64.toNat_shiftLeft, Nat.shiftLeft_eq, Nat.shiftLeft_eq]
    have h8 : 2 ^ ((8 : UInt64).toNat % 64) = 256 := rfl
    rw [h8]
    omega
  rw [UInt64.toNat_or, hshift, UInt8.toNat_toUInt64, ← Nat.shiftLeft_add_eq_or_of_lt hc, Nat.shiftLeft_eq]
  omega

theorem toNat_be64Decode (b : Bytes) : (be64Decode b).toNat = ofBE b % 2 ^ 64 := by
  induction b using List.reverseRecOn with
  | nil => rfl
  | append_singleton b c ih =>
    have hstep : be64Decode (b ++ [c]) = be64Decode b <<< 8 ||| c.toUInt64 := by simp [be64Decode]
    rw [hstep, toNat_shift_or, ih, ofBE_concat]
    omega

@[simp] theorem be64Decode_be64 (v : UInt64) : be64Decode (be64 v) = v := by
  refine UInt64.toNat_inj.mp ?_
  rw [toNat_be64Decode, be64, ofBE_be_of_lt v.toNat_lt, Nat.mod_eq_of_lt v.toNat_lt]

/-- The first number of a key, `k[1:9]`. -/
def firstOf (k : Bytes) : UInt64 := be64Decode (slice k 1 8)

/-- The second number of a key, `k[9:17]`. -/
def secondOf (k : Bytes) : UInt64 := be64Decode (slice k 9 8)

@[simp] theorem firstOf_idKey (kt : UInt8) (id : UInt64) : firstOf (idKey kt id) = id := by
  have h : slice (idKey kt id) 1 8 = be64 id := take_of_length_le (length_be64 id).le
  rw [firstOf, h, be64Decode_be64]

@[simp] theorem firstOf_pairKey (kt : UInt8) (a b : UInt64) : firstOf (pairKey kt a b) = a := by
  have h : slice (pairKey kt a b) 1 8 = be64 a := take_left' (length_be64 a)
  rw [firstOf, h, be64Decode_be64]

@[simp] theorem secondOf_pairKey (kt : UInt8) (a b : UInt64) : secondOf (pairKey kt a b) = b := by
  have h : slice (pairKey kt a b) 9 8 = be64 b := by
    have hdrop : (be64 a ++ be64 b).drop 8 = be64 b := drop_left' (length_be64 a)
    have hcons : (pairKey kt a b).drop 9 = (be64 a ++ be64 b).drop 8 := rfl
    rw [slice, hcons, hdrop, take_of_length_le (length_be64 b).le]
  rw [secondOf, h, be64Decode_be64]

/-- **Keys with two numbers** are ordered by the first number, and then by the second. -/
theorem pairKey_lt {b c d : UInt64} : pairKey kt a b < pairKey kt c d ↔ a < c ∨ a = c ∧ b < d := by
  have hfields : be64 a ++ be64 b < be64 c ++ be64 d ↔ a < c ∨ a = c ∧ b < d := by
    rw [append_lt_append (by simp), be64_lt, be64_lt]
    exact or_congr_right (and_congr_left' ⟨be64_inj, fun h => by rw [h]⟩)
  rw [pairKey, pairKey, cons_lt_cons_iff, hfields]
  simp

end Keys

open Keys

/-! ## The keys of the model -/

/-- The bytes of a key. -/
def Key.bytes : Key → Bytes
  | .metaKey path => Keys.metaKey path
  | .idMappingKey id => Keys.idMappingKey (.ofNat id)
  | .tailKey id => Keys.tailKey (.ofNat id)
  | .recordKey id seq => Keys.recordKey (.ofNat id) (.ofNat seq)
  | .producerKey id producerID => Keys.producerKey (.ofNat id) producerID
  | .writerSeqKey id => Keys.writerSeqKey (.ofNat id)
  | .expiryKey deadline id => Keys.expiryKey deadline (.ofNat id)
  | .deletePendingKey id => Keys.deletePendingKey (.ofNat id)
  | .tombstoneKey path => Keys.tombstoneKey path
  | .refCountKey id => Keys.refCountKey (.ofNat id)
  | .idCounterKey => Keys.idCounterKey

/-- The ids and sequence numbers of a key have 64 bits. -/
def Key.Fits : Key → Prop
  | .recordKey id seq => id < 2 ^ 64 ∧ seq < 2 ^ 64
  | .idMappingKey id | .tailKey id | .producerKey id _ | .writerSeqKey id | .expiryKey _ id | .deletePendingKey id
  | .refCountKey id => id < 2 ^ 64
  | .metaKey _ | .tombstoneKey _ | .idCounterKey => True

theorem Key.fits_applyOps {ops : List Op} (hdb : ∀ k ∈ db, k.Fits) (hops : ∀ op ∈ ops, op.key.Fits) :
    ∀ k ∈ Batch.applyOps db ops, k.Fits := by
  intro k hk
  by_cases hop : ∃ op ∈ ops, op.key = k
  · obtain ⟨op, hop, rfl⟩ := hop
    exact hops op hop
  · have hlookup := Batch.lookup_applyOps_ne (s := db) fun op hmem he => hop ⟨op, hmem, he⟩
    refine hdb k (Finmap.lookup_isSome.mp ?_)
    rw [← hlookup]
    exact Finmap.lookup_isSome.mpr hk

/-- The key that has the bytes. -/
def Key.parse : Bytes → Option Key
  | [] => none
  | kt :: k =>
    let first := (firstOf (kt :: k)).toNat
    if kt = ktStreamMeta then some (.metaKey k)
    else if kt = ktStreamIDMapping then some (.idMappingKey first)
    else if kt = ktStreamTail then some (.tailKey first)
    else if kt = ktRecordData then some (.recordKey first (secondOf (kt :: k)).toNat)
    else if kt = ktProducerState then some (.producerKey first (k.drop 8))
    else if kt = ktWriterSeq then some (.writerSeqKey first)
    else if kt = ktExpiryDeadline then
      some (.expiryKey (firstOf (kt :: k)) (secondOf (kt :: k)).toNat)
    else if kt = ktDeletePending then some (.deletePendingKey first)
    else if kt = ktPathTombstone then some (.tombstoneKey k)
    else if kt = ktRefCount then some (.refCountKey first)
    else if kt = ktIDCounter then some .idCounterKey
    else none

theorem Keys.toNat_ofNat (h : n < 2 ^ 64) : (ofNat n).toNat = n := toNat_ofNat_of_lt' h

theorem Key.parse_idKey (kt : UInt8) {id : Nat} (h : id < 2 ^ 64) (f : Nat → Key) :
    some (f (Keys.firstOf (Keys.idKey kt (.ofNat id))).toNat) = some (f id) := by
  rw [Keys.firstOf_idKey, Keys.toNat_ofNat h]

theorem Key.parse_bytes : ∀ {k : Key}, k.Fits → Key.parse k.bytes = some k
  | .metaKey path, _ => rfl
  | .idMappingKey id, h => parse_idKey _ h .idMappingKey
  | .tailKey id, h => parse_idKey _ h .tailKey
  | .recordKey id seq, h => by
    change some (Key.recordKey (Keys.firstOf (Keys.pairKey _ _ _)).toNat (Keys.secondOf (Keys.pairKey _ _ _)).toNat) = _
    rw [firstOf_pairKey, secondOf_pairKey, toNat_ofNat h.1, toNat_ofNat h.2]
  | .producerKey id pid, h => by
    change some (Key.producerKey (Keys.be64Decode ((Keys.be64 _ ++ pid).take 8)).toNat
      ((Keys.be64 _ ++ pid).drop 8)) = _
    rw [take_left' (Keys.length_be64 _), drop_left' (Keys.length_be64 _), Keys.be64Decode_be64, Keys.toNat_ofNat h]
  | .writerSeqKey id, h => parse_idKey _ h .writerSeqKey
  | .expiryKey d id, h => by
    change some (Key.expiryKey (Keys.firstOf (Keys.pairKey _ _ _)) (Keys.secondOf (Keys.pairKey _ _ _)).toNat) = _
    rw [Keys.firstOf_pairKey, Keys.secondOf_pairKey, Keys.toNat_ofNat h]
  | .deletePendingKey id, h => parse_idKey _ h .deletePendingKey
  | .tombstoneKey path, _ => rfl
  | .refCountKey id, h => parse_idKey _ h .refCountKey
  | .idCounterKey, _ => rfl

theorem Key.bytes_inj {k k' : Key} (h : k.Fits) (h' : k'.Fits) : k.bytes = k'.bytes ↔ k = k' := by
  refine ⟨fun he => ?_, fun he => by rw [he]⟩
  rw [← Option.some.injEq, ← parse_bytes h, ← parse_bytes h', he]

/-! ## Ranges of keys -/

/-- The key lies in the range from `start` to `stop`, exclusive; without `stop` the range has no end. -/
def InRange (start : Bytes) (stop : Option Bytes) (k : Bytes) : Prop := ¬ k < start ∧ ∀ e ∈ stop, k < e

instance (start : Bytes) (stop : Option Bytes) : DecidablePred (InRange start stop) :=
  fun k => inferInstanceAs (Decidable (¬ k < start ∧ ∀ e ∈ stop, k < e))

/-- The keys of a store in a range, as `Scan` delivers them. -/
def byteScan (db : Store) (start : Bytes) (stop : Option Bytes) : List Bytes :=
  Scan.scan (fun k => if InRange start stop k.bytes then some k.bytes else none) db

theorem mem_byteScan {start : Bytes} {stop : Option Bytes} {b : Bytes} :
    b ∈ byteScan db start stop ↔ ∃ k ∈ db, InRange start stop k.bytes ∧ k.bytes = b := by
  unfold byteScan
  rw [Scan.mem_scan]
  refine exists_congr fun k => and_congr_right fun _ => ?_
  split <;> next h => simp [h]

theorem inRange_prefixEnd : InRange p (prefixEnd p) k ↔ p <+: k := prefix_iff.symm

theorem inRange_from {q : Bytes} (hq : p <+: q) : InRange q (prefixEnd p) k ↔ p <+: k ∧ ¬ k < q := by
  rw [← inRange_prefixEnd]
  refine ⟨fun ⟨hlo, hhi⟩ => ⟨⟨fun hlt => hlo ?_, hhi⟩, hlo⟩, fun ⟨hp, hlo⟩ => ⟨hlo, hp.2⟩⟩
  exact lt_of_lt_of_le hlt (not_lt.mp (prefix_iff.mp hq).1)

theorem Key.keyType_of_prefix {k : Key} (h : kt :: rest <+: k.bytes) : k.keyType = kt.toNat := by
  obtain ⟨t, ht⟩ := h
  have hhead : k.bytes.head?.map UInt8.toNat = some k.keyType := by cases k <;> rfl
  rw [← ht] at hhead
  exact (Option.some.inj hhead).symm

namespace Keys

theorem be64_prefix {id' : UInt64} : be64 id <+: be64 id' ++ rest ↔ id = id' := by
  constructor
  · intro h
    have htake := prefix_iff_eq_take.mp h
    rw [length_be64, take_left' (length_be64 id')] at htake
    exact be64_inj htake
  · rintro rfl
    exact prefix_append _ _

theorem ofNat_eq (hn : n < 2 ^ 64) : id = ofNat n ↔ n = id.toNat := by
  constructor
  · rintro rfl
    exact (toNat_ofNat hn).symm
  · rintro rfl
    exact UInt64.ofNat_toNat.symm

theorem recordPrefix_prefix {k : Key} (h : k.Fits) : recordPrefix id <+: k.bytes ↔ ∃ n, k = .recordKey id.toNat n := by
  constructor
  · intro hp
    have hkt : k.keyType = 4 := Key.keyType_of_prefix hp
    cases k with
    | recordKey i n =>
      have hid : id = .ofNat i := be64_prefix.mp (cons_prefix_cons.mp hp).2
      rw [ofNat_eq h.1] at hid
      exact ⟨n, by rw [hid]⟩
    | _ => cases hkt
  · rintro ⟨n, rfl⟩
    exact cons_prefix_cons.mpr ⟨rfl, be64_prefix.mpr UInt64.ofNat_toNat.symm⟩

theorem producerPrefix_prefix {k : Key} (h : k.Fits) :
    producerPrefix id <+: k.bytes ↔ ∃ pid, k = .producerKey id.toNat pid := by
  constructor
  · intro hp
    have hkt : k.keyType = 5 := Key.keyType_of_prefix hp
    cases k with
    | producerKey i pid =>
      have hid : id = .ofNat i := be64_prefix.mp (cons_prefix_cons.mp hp).2
      rw [ofNat_eq h] at hid
      exact ⟨pid, by rw [hid]⟩
    | _ => cases hkt
  · rintro ⟨pid, rfl⟩
    exact cons_prefix_cons.mpr ⟨rfl, be64_prefix.mpr UInt64.ofNat_toNat.symm⟩

theorem recordPrefix_recordKey (id a : UInt64) : recordPrefix id <+: recordKey id a :=
  cons_prefix_cons.mpr ⟨rfl, prefix_append _ _⟩

theorem inRange_record {k : Key} (h : k.Fits) :
    InRange (recordKey id a) (recordPrefixEnd id) k.bytes ↔ ∃ n, k = .recordKey id.toNat n ∧ a.toNat ≤ n := by
  rw [recordPrefixEnd, inRange_from (recordPrefix_recordKey id a), recordPrefix_prefix h]
  constructor
  · rintro ⟨⟨n, rfl⟩, hlo⟩
    refine ⟨n, rfl, not_lt.mp fun hlt => hlo (pairKey_lt.mpr (.inr ⟨UInt64.ofNat_toNat, ?_⟩))⟩
    rw [lt_iff_toNat_lt, toNat_ofNat h.2]
    exact hlt
  · rintro ⟨n, rfl, hn⟩
    refine ⟨⟨n, rfl⟩, fun hlt => ?_⟩
    rcases pairKey_lt.mp hlt with hlt | ⟨-, hlt⟩
    · rw [UInt64.ofNat_toNat] at hlt
      exact UInt64.lt_irrefl _ hlt
    · rw [lt_iff_toNat_lt, toNat_ofNat h.2] at hlt
      omega

/-- The range of the deadlines below a bound. -/
theorem inRange_expiry {k : Key} {now : UInt64} :
    InRange [ktExpiryDeadline] (some (expiryScanEnd now)) k.bytes ↔ ∃ d i, k = .expiryKey d i ∧ d < now + 1 := by
  have hfields : ∀ {d i : UInt64}, be64 d ++ be64 i < be64 (now + 1) ↔ d < now + 1 := by
    intro d i
    have h := append_lt_append (show (be64 d).length = (be64 (now + 1)).length by simp) (x := be64 i) (y := [])
    rw [append_nil, be64_lt] at h
    simpa using h
  constructor
  · rintro ⟨hlo, hhi⟩
    have hhi := hhi _ rfl
    -- the first byte is at least and at most that of the range
    obtain ⟨kt, rest, hk⟩ : ∃ kt rest, k.bytes = kt :: rest := by cases k <;> exact ⟨_, _, rfl⟩
    rw [hk] at hlo hhi
    have hkt : ktExpiryDeadline = kt := by
      rcases not_cons_lt_cons.mp hlo with hlt | ⟨heq, -⟩
      · rcases cons_lt_cons_iff.mp hhi with hgt | ⟨heq, -⟩
        · exact absurd hgt (not_lt_byte hlt)
        · exact heq.symm
      · exact heq
    have htype : k.keyType = 7 := by
      have hp : [kt] <+: k.bytes := ⟨rest, hk.symm⟩
      rw [Key.keyType_of_prefix hp, ← hkt]
      rfl
    cases k with
    | expiryKey d i =>
      obtain ⟨-, rfl⟩ : _ ∧ be64 d ++ be64 (.ofNat i) = rest := List.cons.inj hk
      rcases cons_lt_cons_iff.mp hhi with hgt | ⟨-, hlt⟩
      · exact absurd hgt (hkt ▸ lt_irrefl _)
      · exact ⟨d, i, rfl, hfields.mp hlt⟩
    | _ => cases htype
  · rintro ⟨d, i, rfl, hd⟩
    refine ⟨not_cons_lt_cons.mpr (.inr ⟨rfl, not_lt_nil _⟩), ?_⟩
    intro e he
    obtain rfl := Option.mem_some_iff.mp he
    exact cons_lt_cons_iff.mpr (.inr ⟨rfl, hfields.mpr hd⟩)

end Keys

/-! ## The scans of the code -/

section
open Keys

/-- **The keys partition the keyspace in order**: the bytes of a key determine it, records and deadlines are ordered by
their numbers, and the three ranges that the code scans hold exactly the records of a stream from a number on, its
producers, and the entries that are due. -/
theorem keys_partition_in_order :
    (∀ k k' : Key, k.Fits → k'.Fits → (k.bytes = k'.bytes ↔ k = k')) ∧
    (∀ id seq id' seq' : UInt64, recordKey id seq < recordKey id' seq' ↔ id < id' ∨ id = id' ∧ seq < seq') ∧
    (∀ d id d' id' : UInt64, expiryKey d id < expiryKey d' id' ↔ d < d' ∨ d = d' ∧ id < id') ∧
    (∀ a b : UInt64, (firstOf (recordKey a b) = a ∧ secondOf (recordKey a b) = b) ∧
      firstOf (expiryKey a b) = a ∧ secondOf (expiryKey a b) = b) ∧
    (∀ p s : Bytes, p <+: s ↔ p ≤ s ∧ (prefixEnd p = none ∨ ∃ e, prefixEnd p = some e ∧ s < e)) ∧
    ∀ db : Store, (∀ k ∈ db, k.Fits) →
      (∀ (id a : UInt64) (b : Bytes), b ∈ byteScan db (recordKey id a) (recordPrefixEnd id) ↔
        ∃ n, a ≤ n ∧ Key.recordKey id.toNat n.toNat ∈ db ∧ b = recordKey id n) ∧
      (∀ (id : UInt64) (b : Bytes), b ∈ byteScan db (producerPrefix id) (producerPrefixEnd id) ↔
        ∃ pid, Key.producerKey id.toNat pid ∈ db ∧ b = producerKey id pid) ∧
      ∀ now : UInt64, now.toNat < 2 ^ 64 - 1 → ∀ b : Bytes,
        (b ∈ byteScan db [ktExpiryDeadline] (some (expiryScanEnd now)) ↔
          ∃ d id, d ≤ now ∧ Key.expiryKey d (UInt64.toNat id) ∈ db ∧ b = expiryKey d id) := by
  refine ⟨fun k k' => Key.bytes_inj, fun _ _ _ _ => pairKey_lt, fun _ _ _ _ => pairKey_lt, fun a b => ?_, fun p s => ?_,
    fun db hdb => ⟨fun id a b => ?_, fun id b => ?_, fun now hnow b => ?_⟩⟩
  · exact ⟨⟨firstOf_pairKey _ a b, secondOf_pairKey _ a b⟩, firstOf_pairKey _ a b, secondOf_pairKey _ a b⟩
  · rw [prefix_iff, not_lt]
    refine and_congr_right fun _ => ?_
    cases prefixEnd p with
    | none => simp
    | some e => simp
  · rw [mem_byteScan]
    constructor
    · rintro ⟨k, hk, hin, rfl⟩
      have hfits := hdb k hk
      obtain ⟨n, rfl, hn⟩ := (inRange_record hfits).mp hin
      refine ⟨.ofNat n, ?_, ?_, ?_⟩
      · rw [UInt64.le_iff_toNat_le, toNat_ofNat hfits.2]
        exact hn
      · rw [toNat_ofNat hfits.2]
        exact hk
      · rw [Key.bytes, UInt64.ofNat_toNat]
    · rintro ⟨n, hn, hk, rfl⟩
      refine ⟨_, hk, (inRange_record (hdb _ hk)).mpr ⟨n.toNat, rfl, UInt64.le_iff_toNat_le.mp hn⟩, ?_⟩
      rw [Key.bytes, UInt64.ofNat_toNat, UInt64.ofNat_toNat]
  · rw [mem_byteScan]
    constructor
    · rintro ⟨k, hk, hin, rfl⟩
      obtain ⟨pid, rfl⟩ := ( producerPrefix_prefix (hdb k hk)).mp (inRange_prefixEnd.mp hin)
      exact ⟨pid, hk, by rw [Key.bytes, UInt64.ofNat_toNat]⟩
    · rintro ⟨pid, hk, rfl⟩
      refine ⟨_, hk, inRange_prefixEnd.mpr (( producerPrefix_prefix (hdb _ hk)).mpr ⟨pid, rfl⟩), ?_⟩
      rw [Key.bytes, UInt64.ofNat_toNat]
  · have hlt : ∀ d : UInt64, d < now + 1 ↔ d ≤ now := by
      intro d
      rw [UInt64.lt_iff_toNat_lt, UInt64.le_iff_toNat_le, UInt64.toNat_add]
      have h1 : (1 : UInt64).toNat = 1 := rfl
      omega
    rw [mem_byteScan]
    constructor
    · rintro ⟨k, hk, hin, rfl⟩
      obtain ⟨d, i, rfl, hd⟩ := inRange_expiry.mp hin
      have hfits : i < 2 ^ 64 := hdb _ hk
      exact ⟨d, .ofNat i, (hlt d).mp hd, by rw [toNat_ofNat hfits]; exact hk, rfl⟩
    · rintro ⟨d, id, hd, hk, rfl⟩
      exact ⟨_, hk, inRange_expiry.mpr ⟨d, id.toNat, rfl, (hlt d).mpr hd⟩, by rw [Key.bytes, UInt64.ofNat_toNat]⟩

/-- Two streams whose ids differ by a carry over `0xff`, each with a deadline. -/
def sampleKeys : Store :=
  Batch.applyOps ∅ [.put (.recordKey 255 0) [0], .put (.recordKey 255 1) [0], .put (.recordKey 256 0) [0],
    .put (.producerKey 255 [255]) ⟨0, 0, false⟩, .put (.expiryKey 5 255) 5, .put (.expiryKey 6 256) 6]

theorem fits_sampleKeys : ∀ k ∈ sampleKeys, k.Fits :=
  Key.fits_applyOps (fun k hk => absurd hk Finmap.notMem_empty) (by simp [Key.Fits])

theorem keys_partition_in_order_sample :
    ((Key.recordKey 255 1).bytes = (Key.expiryKey 255 1).bytes ↔ Key.recordKey 255 1 = .expiryKey 255 1) ∧
    (∀ b, b ∈ byteScan sampleKeys (recordKey 255 1) (recordPrefixEnd 255) ↔
      ∃ n, 1 ≤ n ∧ Key.recordKey 255 n.toNat ∈ sampleKeys ∧ b = recordKey 255 n) ∧
    ∀ b, b ∈ byteScan sampleKeys [ktExpiryDeadline] (some (expiryScanEnd 5)) ↔
      ∃ d id, d ≤ 5 ∧ Key.expiryKey d (UInt64.toNat id) ∈ sampleKeys ∧ b = expiryKey d id :=
  ⟨keys_partition_in_order.1 _ _ (by simp [Key.Fits]) (by simp [Key.Fits]),
    (keys_partition_in_order.2.2.2.2.2 sampleKeys fits_sampleKeys).1 255 1,
    (keys_partition_in_order.2.2.2.2.2 sampleKeys fits_sampleKeys).2.2 5 (by decide)⟩

end

end Yasdb
