import Yasdb.Server.Contiguity

/-!
# Bulk provisioning

`bulkProvisionBatch` creates a run of empty streams with one commit and advances the id counter once. It does not look
at the paths before. On paths without metadata it does what as many creations do one after the other: each stream of the
batch extends the batch of those before it (`Provision.applyOps_ops_succ`), so the invariant of the server holds
(`ServerInv.bulkProvisionBatch`).
-/

namespace Yasdb

open Batch List Op

/-! ## Paths -/

/-- `fmt.Sprintf` with `%d`. -/
def formatInt (n : Nat) : Bytes := (Nat.toDigits 10 n).map fun c => UInt8.ofNat c.toNat

/-- What a decimal stands for. -/
def ofDecimal (s : Bytes) : Nat := s.foldl (fun n b => 10 * n + (b.toNat - 48)) 0

theorem toNat_digit {n : Nat} {c : Char} (hc : c ∈ Nat.toDigits 10 n) :
    (UInt8.ofNat c.toNat).toNat = c.toNat ∧ 48 ≤ c.toNat ∧ c.toNat ≤ 57 := by
  have hd := Nat.isDigit_of_mem_toDigits (by decide) (by decide) hc
  simp only [Char.isDigit, Bool.and_eq_true, decide_eq_true_eq] at hd
  have hge : 48 ≤ c.toNat := UInt32.le_iff_toNat_le.mp hd.1
  have hle : c.toNat ≤ 57 := UInt32.le_iff_toNat_le.mp hd.2
  rw [UInt8.toNat_ofNat']
  omega

theorem mem_formatInt {b : UInt8} {n : Nat} (h : b ∈ formatInt n) : 48 ≤ b.toNat ∧ b.toNat ≤ 57 := by
  obtain ⟨c, hc, rfl⟩ := List.mem_map.mp h
  obtain ⟨he, hd⟩ := toNat_digit hc
  rwa [he]

theorem ofDecimal_formatInt (n : Nat) : ofDecimal (formatInt n) = n := by
  unfold ofDecimal formatInt
  rw [foldl_map]
  refine (foldl_ext _ _ 0 fun a c hc => ?_).trans Nat.ofDigitChars_ten_toDigits
  rw [(toNat_digit hc).1]
  rfl

theorem formatInt_injective : Function.Injective formatInt := fun a b h => by
  rw [← ofDecimal_formatInt a, h, ofDecimal_formatInt]

/-- The path of the stream with a number. -/
def provisionPath (pathPrefix : Bytes) (k : Nat) : Bytes := pathPrefix ++ formatInt k

theorem provisionPath_injective (pathPrefix : Bytes) : Function.Injective (provisionPath pathPrefix) :=
  fun _ _ h => formatInt_injective (append_cancel_left h)

example : provisionPath (ascii "/s") 12 = ascii "/s12" := by decide

/-! ## The batch -/

/-- What a batch is called with, at a moment of the clock. -/
structure Provision where
  pathPrefix : Bytes
  start : Nat
  contentType : Bytes
  now : Int64 := 0
  nowMs : Int64 := 0

namespace Provision

variable (p : Provision)

def path (i : Nat) : Bytes := provisionPath p.pathPrefix (p.start + i)

def streamMeta (sid : Nat) : StreamMeta where
  streamID := sid
  contentType := p.contentType
  createdAtMs := p.nowMs

/-- The operations for the stream with number `i` of a batch that starts with `id`. -/
def streamOps (id i : Nat) : List Op :=
  [Op.put (.metaKey (p.path i)) (p.streamMeta (id + i)), Op.put (.idMappingKey (id + i)) (p.path i),
    Op.put (.tailKey (id + i)) (marshalTail 0 p.now)]

/-- The batch for `n` streams. -/
def ops (id n : Nat) : List Op :=
  (List.range n).flatMap (p.streamOps id) ++ [Op.put .idCounterKey (id + n)]

theorem path_injective : Function.Injective p.path := fun i j h => by
  have := provisionPath_injective _ h
  omega

theorem applyOps_ops_succ (db : Store) (id n : Nat) : applyOps db (p.ops id (n + 1)) =
    applyOps (applyOps db (p.ops id n)) (createOps (p.path n) (p.streamMeta (id + n)) 0 [] p.now) := by
  have hcreate : createOps (p.path n) (p.streamMeta (id + n)) 0 [] p.now =
      p.streamOps id n ++ [put .idCounterKey (id + (n + 1))] := rfl
  have hops : p.ops id (n + 1) =
      (List.range n).flatMap (p.streamOps id) ++ (p.streamOps id n ++ [put .idCounterKey (id + (n + 1))]) := by
    unfold ops
    rw [range_succ, flatMap_append, flatMap_singleton, append_assoc]
  rw [hcreate, ← applyOps_append, hops, ops, applyOps_overwrite]

theorem metaAt_ops {db : Store} {id n : Nat} {path : Bytes} (h : ∀ i < n, path ≠ p.path i) :
    Store.metaAt (applyOps db (p.ops id n)) path = db.metaAt path := by
  refine lookup_applyOps_ne fun op ho he => ?_
  rcases mem_append.mp ho with ho | ho
  · obtain ⟨i, hi, ho⟩ := mem_flatMap.mp ho
    simp only [streamOps, mem_cons, not_mem_nil, or_false] at ho
    rcases ho with rfl | rfl | rfl
    · cases he
      exact h i (mem_range.mp hi) rfl
    · cases he
    · cases he
  · rw [mem_singleton.mp ho] at he
    cases he

/-- No path of the batch has a stream. -/
def Fresh (n : Nat) (db : Store) : Prop := ∀ i < n, db.metaAt (p.path i) = none

end Provision

/-- Create a batch of streams. -/
def Server.bulkProvisionBatch (srv : Server) (ok : Bool) (p : Provision) (n : Nat) : Server :=
  if ok then { srv.commit true (p.ops srv.nextID n) with nextID := srv.nextID + n } else srv

/-! ## The invariant -/

/-- Storing the counter that is in use changes nothing. -/
theorem Catalog.storeCounter {db db' : Store} (h : Catalog db)
    (hk : ∀ k, k ≠ .idCounterKey → db'.lookup k = db.lookup k)
    (hc : recoverNextID db' = recoverNextID db) : Catalog db' := by
  have hmeta : ∀ path, db'.metaAt path = db.metaAt path := fun path => hk (.metaKey path) nofun
  have hmap : ∀ id, db'.idMappingAt id = db.idMappingAt id := fun id => hk (.idMappingKey id) nofun
  refine ⟨fun id path => ?_, fun path m hm => ?_, fun path m hm => ?_, fun id n hid => ?_, fun id hid => ?_⟩
  · rw [hmeta, hmap]
    exact h.mapped id path
  · rw [hmeta] at hm
    rw [hc]
    exact h.ids path m hm
  · rw [hmeta] at hm
    exact (h.log path m hm).congr (hk (.tailKey _) nofun) fun n => hk (.recordKey _ n) nofun
  · rw [hc] at hid
    exact (hk (.recordKey id n) nofun).trans (h.unused id n hid)
  · have hd := h.dead id fun hn => hid ((hk (.deletePendingKey id) nofun).trans hn)
    exact ⟨hc ▸ hd.1, (hmap id).trans hd.2⟩

namespace ServerInv

variable {srv : Server}

/-- The batch of no streams. -/
theorem provisionNone (h : ServerInv srv) (p : Provision) :
    ServerInv { srv.commit true (p.ops srv.nextID 0) with nextID := srv.nextID } := by
  have hk : ∀ k, k ≠ .idCounterKey → (applyOps srv.db (p.ops srv.nextID 0)).lookup k = srv.db.lookup k := by
    intro k hk
    refine lookup_applyOps_ne fun op ho he => hk ?_
    rw [← he, mem_singleton.mp ho]
    rfl
  have hpos : 1 ≤ srv.nextID := h.nextID ▸ recoverNextID_pos srv.db
  have hc : recoverNextID (applyOps srv.db (p.ops srv.nextID 0)) = srv.nextID := by
    have hl : (applyOps srv.db (p.ops srv.nextID 0)).lookup .idCounterKey = some srv.nextID := by
      rw [lookup_applyOps]
      simp [Provision.ops]
    rw [recoverNextID, hl]
    exact if_pos hpos
  have hcat := h.stored.storeCounter hk (hc.trans h.nextID)
  refine h.committed true hcat hc.symm (fun path s _ ha => ⟨?_, ha.id, ?_⟩) (fun i hd => ⟨?_, ?_⟩) fun path m he => ?_
  · exact (hk (.metaKey _) (by simp)).trans ha.streamMeta
  · rw [ha.writeTail]
    unfold loadTailSeq
    rw [show Store.tailAt (applyOps srv.db (p.ops srv.nextID 0)) s.id = srv.db.tailAt s.id from hk (.tailKey _)
      (by simp)]
  · rw [hc, h.nextID]
    exact hd.1
  · exact (hk (.idMappingKey i) (by simp)).trans hd.2
  · obtain ⟨m', hm', hid⟩ := h.held path m he
    exact ⟨m', (hk (.metaKey path) (by simp)).trans hm', hid⟩

/-- **A batch on paths without metadata keeps the invariant.** -/
theorem bulkProvisionBatch (h : ServerInv srv) (hheld : srv.held = none) (ok : Bool) (p : Provision) {n : Nat}
    (hfresh : p.Fresh n srv.db) : ServerInv (srv.bulkProvisionBatch ok p n) := by
  unfold Server.bulkProvisionBatch
  cases ok with
  | false => exact h
  | true =>
    rw [if_pos rfl]
    induction n with
    | zero => exact h.provisionNone p
    | succ n ih =>
      have hn := ih fun i hi => hfresh i (by omega)
      -- the next stream is created on top of the batch so far
      have hp : Store.metaAt (applyOps srv.db (p.ops srv.nextID n)) (p.path n) = none := by
        rw [p.metaAt_ops fun i hi he => absurd (p.path_injective he) (by omega)]
        exact hfresh n (by omega)
      have hpos : 0 < srv.nextID := h.nextID ▸ recoverNextID_pos srv.db
      have hc : ServerInv (Server.create _ true (.ok (createOps (p.path n) (p.streamMeta (srv.nextID + n)) 0 [] p.now ++
          [], { status := 201 }))) :=
        hn.create hheld true hp rfl (Nat.lt_of_lt_of_le hpos (Nat.le_add_right _ n)) rfl nofun
      rw [append_nil] at hc
      rw [show srv.commit true (p.ops srv.nextID (n + 1)) = { srv.commit true (p.ops srv.nextID n) with
        db := applyOps srv.db (p.ops srv.nextID (n + 1)) } from rfl, p.applyOps_ops_succ]
      exact hc

end ServerInv

end Yasdb
