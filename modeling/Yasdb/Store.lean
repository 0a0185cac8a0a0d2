import Yasdb.Lib.Batch
import Mathlib.Algebra.Ring.Nat
import Mathlib.Data.Finmap

/-!
# The keyspace and the storage vertical

Every entry of the store lives under a key of one of eleven kinds (`Key`), and the kind of the key fixes what is
stored there (`Key.Val`). A value is kept decoded: an entry is only ever written by the marshalling function of its
own kind (what that one cuts off a content type is in `StreamMeta.readBack`). The store is a finite map (`Store`),
written by atomic batches (`Batch.applyOps`) and read by `Store.get`, which fails on the keys that a fault set `Faults`
names.

Record sequence numbers, stream ids, epochs and producer sequence numbers are counters (`Nat`); TTLs and deadlines
are computed modulo `2^64` by the code (`UInt64`), and clock values are Unix times (`Int64`).
-/

namespace Yasdb

open Batch

/-- A Go string or byte slice. -/
abbrev Bytes := List UInt8

/-- The bytes of an ASCII literal. -/
def ascii (s : String) : Bytes := s.toList.map fun c => UInt8.ofNat c.toNat

/-! ## Library functions of the language -/

/-- The standard library functions that the code calls on request data. Nothing is assumed about them: every result
holds for whatever they compute. -/
structure GoLib where
  /-- `strings.TrimSpace` and `bytes.TrimSpace` -/
  trimSpace : Bytes → Bytes
  /-- `strings.ToLower` -/
  toLower : Bytes → Bytes
  /-- `mime.ParseMediaType`, `none` on an error -/
  parseMediaType : Bytes → Option Bytes
  /-- `json.Unmarshal` into a slice of raw messages, `none` on an error -/
  unmarshalArray : Bytes → Option (List Bytes)
  /-- `json.Valid` -/
  jsonValid : Bytes → Bool
  /-- `json.Compact`, `none` on an error -/
  jsonCompact : Bytes → Option Bytes

/-- The lowercase base media type of a content type. -/
def mediaType (L : GoLib) (ct : Bytes) : Bytes :=
  let ct := L.trimSpace ct
  if ct = [] then []
  else match L.parseMediaType ct with
    | some mt => mt
    | none => L.toLower ct

def contentTypeMatches (L : GoLib) (configured req : Bytes) : Bool := mediaType L configured == mediaType L req

/-! ## Stored values -/

/-- The metadata of a stream. -/
structure StreamMeta where
  streamID : Nat
  contentType : Bytes
  /-- `0` = none -/
  ttlSeconds : UInt64 := 0
  /-- Unix seconds; `0` = none -/
  expiresAt : Int64 := 0
  closed : Bool := false
  createdAtMs : Int64 := 0
  isPrivate : Bool := false
  /-- the current deadline in the expiry index; `0` = none -/
  deadline : UInt64 := 0
  /-- the id of the source stream; `0` = not a fork -/
  forkedFrom : Nat := 0
  forkOffset : Nat := 0
  forkByte : Nat := 0
deriving DecidableEq, Repr

/-- The state kept for one idempotent producer. -/
structure ProducerState where
  epoch : Nat
  lastSeq : Nat
  closedBy : Bool := false
deriving DecidableEq, Repr

/-- The tail entry of a stream: the next sequence number and the time of the update. -/
structure TailValue where
  seq : Nat
  updated : Int64
deriving DecidableEq, Repr

def marshalTail (seq : Nat) (updated : Int64) : TailValue := ⟨seq, updated⟩

/-- The reason of a path tombstone. -/
inductive TombReason where
  | tombHardDelete
  | tombSoftDelete
deriving DecidableEq, Repr

def recFlagNone : UInt8 := 0

def marshalRecord (flags : UInt8) (data : Bytes) : Bytes := flags :: data

def recordPayload (v : Bytes) : Bytes := v.tail

@[simp] theorem recordPayload_marshalRecord (f : UInt8) (d : Bytes) : recordPayload (marshalRecord f d) = d := rfl

/-! ## Keys -/

/-- The keys of the shared keyspace, by kind. -/
inductive Key where
  | metaKey (path : Bytes)
  | idMappingKey (id : Nat)
  | tailKey (id : Nat)
  | recordKey (id seq : Nat)
  | producerKey (id : Nat) (producerID : Bytes)
  | writerSeqKey (id : Nat)
  | expiryKey (deadline : UInt64) (id : Nat)
  | deletePendingKey (id : Nat)
  | tombstoneKey (path : Bytes)
  | refCountKey (id : Nat)
  | idCounterKey
deriving DecidableEq, Repr

/-- The leading ordinal of a key. -/
@[simp] def Key.keyType : Key → Nat
  | .metaKey _ => 1
  | .idMappingKey _ => 2
  | .tailKey _ => 3
  | .recordKey _ _ => 4
  | .producerKey _ _ => 5
  | .writerSeqKey _ => 6
  | .expiryKey _ _ => 7
  | .deletePendingKey _ => 8
  | .tombstoneKey _ => 9
  | .refCountKey _ => 10
  | .idCounterKey => 100

/-- What is stored under a key. -/
@[reducible] def Key.Val : Key → Type
  | .metaKey _ => StreamMeta
  | .idMappingKey _ => Bytes
  | .tailKey _ => TailValue
  | .recordKey _ _ => Bytes
  | .producerKey _ _ => ProducerState
  | .writerSeqKey _ => Bytes
  | .expiryKey _ _ => UInt64
  | .deletePendingKey _ => Nat
  | .tombstoneKey _ => TombReason × Nat
  | .refCountKey _ => Nat
  | .idCounterKey => Nat

/-- A mutation of the store. -/
abbrev Op := Batch.Op Key.Val

/-- The contents of the store. -/
abbrev Store := Finmap Key.Val

/-! ## Reads -/

namespace Store

variable (db : Store)

/-- The entries of the store, kind by kind. -/
def metaAt (path : Bytes) : Option StreamMeta := db.lookup (.metaKey path)

def idMappingAt (id : Nat) : Option Bytes := db.lookup (.idMappingKey id)

def tailAt (id : Nat) : Option TailValue := db.lookup (.tailKey id)

def recordAt (id seq : Nat) : Option Bytes := db.lookup (.recordKey id seq)

def producerAt (id : Nat) (pid : Bytes) : Option ProducerState := db.lookup (.producerKey id pid)

def writerSeqAt (id : Nat) : Option Bytes := db.lookup (.writerSeqKey id)

def deletePendingAt (id : Nat) : Option Nat := db.lookup (.deletePendingKey id)

def tombstoneAt (path : Bytes) : Option (TombReason × Nat) := db.lookup (.tombstoneKey path)

end Store

/-- The keys whose `Get` returns an error (or an undecodable value) during the step at hand. A step reads a key at
most once, so one set covers every pattern of failing reads. -/
abbrev Faults := Key → Bool

/-- No read fails. -/
def noFaults : Faults := fun _ => false

/-- The error of a failed read. -/
def errGet : String := "get failed"

def errStoreClosed : String := "store closed"

/-- Read a key. -/
def Store.get (flt : Faults) (db : Store) (k : Key) : Except String (Option k.Val) :=
  if flt k then .error errGet else .ok (db.lookup k)

/-! ## Offsets -/

/-- A position within a stream. -/
structure Offset where
  seq : Nat := 0
  byte : Nat := 0
deriving DecidableEq, Repr

/-- Offsets are ordered by record, then by byte. -/
instance : LE Offset := ⟨fun a b => a.seq < b.seq ∨ (a.seq = b.seq ∧ a.byte ≤ b.byte)⟩

instance (a b : Offset) : Decidable (a ≤ b) :=
  inferInstanceAs (Decidable (a.seq < b.seq ∨ (a.seq = b.seq ∧ a.byte ≤ b.byte)))

def tailOffset (nextSeq : Nat) : Offset := ⟨nextSeq, 0⟩

theorem tailOffset_le {m n : Nat} : tailOffset m ≤ tailOffset n ↔ m ≤ n := by
  show m < n ∨ (m = n ∧ 0 ≤ 0) ↔ m ≤ n
  omega

end Yasdb
