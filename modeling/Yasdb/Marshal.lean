import Yasdb.Keys
import Yasdb.Pwal.Codec

/-!
# The bytes of stored values

The engine hands its batches to the store as raw keys and values. `Key.marshal` encodes a value by the kind of its key,
and `Op.raw` an operation.
-/

namespace Yasdb

open BigEndian

def streamMetaVersion : UInt8 := 3

def metaFlagClosed : UInt8 := 1

def metaFlagPrivate : UInt8 := 2

/-- The metadata in a fixed binary format. The length of the content type is cut to 16 bits. -/
def StreamMeta.marshal (m : StreamMeta) : Bytes :=
  let flags : UInt8 := (if m.closed then metaFlagClosed else 0) ||| (if m.isPrivate then metaFlagPrivate else 0)
  [streamMetaVersion, flags] ++ be 8 m.streamID ++ be 8 m.ttlSeconds.toNat ++ be 8 m.expiresAt.toUInt64.toNat ++
    be 8 m.createdAtMs.toUInt64.toNat ++ be 8 m.forkedFrom ++ be 8 m.forkOffset ++ be 8 m.forkByte ++
    be 8 m.deadline.toNat ++ be 2 m.contentType.length ++ m.contentType

/-- `marshalTail` -/
def TailValue.marshal (t : TailValue) : Bytes := be 8 t.seq ++ be 8 t.updated.toUInt64.toNat

def marshalProducer (s : ProducerState) : Bytes :=
  be 8 s.epoch ++ be 8 s.lastSeq ++ [if s.closedBy then 1 else 0]

/-- The reason of a tombstone as a byte. -/
def TombReason.code : TombReason → UInt8
  | .tombHardDelete => 1
  | .tombSoftDelete => 2

def tombstoneValue (reason : TombReason) (id : Nat) : Bytes := reason.code :: be 8 id

def u64Value (v : Nat) : Bytes := be 8 v

/-- The bytes of a value, by the kind of its key. -/
def Key.marshal : (k : Key) → k.Val → Bytes
  | .metaKey _, m => StreamMeta.marshal m
  | .idMappingKey _, path => path
  | .tailKey _, t => TailValue.marshal t
  | .recordKey _ _, v => v
  | .producerKey _ _, s => marshalProducer s
  | .writerSeqKey _, v => v
  | .expiryKey _ _, ttl => u64Value (UInt64.toNat ttl)
  | .deletePendingKey _, cursor => u64Value cursor
  | .tombstoneKey _, t => tombstoneValue (Prod.fst t) (Prod.snd t)
  | .refCountKey _, n => u64Value n
  | .idCounterKey, n => u64Value n

/-- The operation as the store sees it. -/
def Op.raw : Op → Pwal.Op
  | .put k v => .put k.bytes (k.marshal v)
  | .del k => .del k.bytes

end Yasdb
