import Yasdb.Lifecycle.Model

/-!
# A running server and its shutdown

A server as it runs (`World`), together with what `Server.Close` and a failed durability poll do to it:
`sharedCommitter.close`, `durabilityNotifier.closeAll` and the forced stop of every registered streamer. They are steps
of their own and may come at any time, in any order and more than once.

The handlers that have put a request on the queue of a streamer and those that have received their answer are
recorded (`Host.queued`, `Host.received`).
-/

namespace Yasdb.Lifecycle

open Batch

/-- A server, its shared committer and its durability notifier. -/
structure Host where
  w : World
  committerClosed : Bool := false
  notifierClosed : Bool := false
  /-- durability callbacks that are to be called with an error -/
  failing : List (Job × String) := []
  queued : List Nat := []
  received : List Nat := []

/-- `newSharedCommitter`: at most this many jobs in one commit. -/
def committerBatchMax (cfg : Int) : Nat := if cfg ≤ 0 then 512 else cfg.toNat

theorem committerBatchMax_pos (cfg : Int) : 0 < committerBatchMax cfg := by
  unfold committerBatchMax
  split <;> omega

/-- `Server.Close` stops the streamers it has taken out of the registry, one after the other. -/
def closeStreamers : List Nat → Prog
  | [] => .done 200
  | i :: is => .lockMu i <| .kill i <| .unlockMu i <| closeStreamers is

/-- `registry.drain`: the registered streamers. -/
def World.resident (w : World) : List Nat :=
  (List.range w.nextInst).filter fun i => (w.insts i).any fun x => w.registry x.st.path == some i

namespace Host

/-- A burst is handed to a committer that is closed. -/
def refuse (h : Host) (mode : Durability) (i : Nat) : Option Host :=
  (h.w.insts i).bind fun x =>
    match mode, x.phase with
    | .notifier, .committing c batch =>
      let st := applyWriter x.st c.pend c.metaChanged
      let w := h.w.setInst i { x with st := st, pending := x.pending + 1, phase := .idle }
      some { h with w := w.failJob (Job.mk i x.st.id c batch) }
    | _, _ => none

/-- A batch is committed and `subscribe` finds the notifier closed: the callbacks are called with an error. -/
def flushClosed (h : Host) (batchMax : Nat) : Host :=
  let w := h.w.committed (h.w.flight.flatMap (·.c.ops)) (h.w.flight.map fun j => .streamer j.id j.c.ops)
  { h with
    w := w.takeBatch batchMax
    failing := h.failing ++ h.w.flight.map fun j => (j, errStoreClosed) }

/-- The handlers that put a request on a queue by their next access. -/
def sends (h : Host) (t : Nat) : List Nat :=
  match h.w.threads t with
  | some (.send ..) => [t]
  | _ => []

inductive Event where
  | run (e : World.Event)
  /-- `sharedCommitter.close` -/
  | close
  /-- `closeAll`: `DurableSeq` has failed, or the notifier has been shut down -/
  | closeAll (err : String)
  /-- a durability callback is called with its error -/
  | fail (n : Nat)
  /-- `Server.Close` empties the registry and goes on to stop the streamers -/
  | drain (t : Nat)

/-- The transition function; `none` when the step is not enabled. -/
def step (L : GoLib) (mode : Durability) (batchMax : Nat) (h : Host) : Event → Option Host
  | .run e =>
    match e with
    | .move i .enqueue =>
      if h.committerClosed then h.refuse mode i
      else (World.step L mode batchMax h.w e).map fun w => { h with w := w }
    | .flush true =>
      if h.notifierClosed then if h.w.flight.isEmpty then none else some (h.flushClosed batchMax)
      else (World.step L mode batchMax h.w e).map fun w => { h with w := w }
    | .act t _ _ => (World.step L mode batchMax h.w e).map fun w => { h with w := w, queued := h.queued ++ h.sends t }
    | .deliver n =>
      (World.step L mode batchMax h.w e).map fun w =>
        { h with w := w, received := h.received ++ (h.w.outbox[n]?).toList.map (·.1) }
    | e => (World.step L mode batchMax h.w e).map fun w => { h with w := w }
  | .close =>
    some { h with
      w := { h.w with queue := [] }
      committerClosed := true
      failing := h.failing ++ h.w.queue.map fun j => (j, errStoreClosed) }
  | .closeAll err =>
    if h.notifierClosed then none
    else some { h with
      w := { h.w with landed := [] }
      notifierClosed := true
      failing := h.failing ++ h.w.landed.map fun j => (j, err) }
  | .fail n =>
    (h.failing[n]?).map fun a =>
      { h with
        w := h.w.endJob id (fun j => failAccepted j.c.responses j.c.accepted a.2) a.1
        failing := h.failing.eraseIdx n }
  | .drain t =>
    if (h.w.threads t).isNone then
      some { h with w := { h.w with registry := fun _ => none }.setProg t (closeStreamers h.w.resident) }
    else none

/-- The burst jobs that have been handed to the shared committer and are not resolved. -/
def jobs (h : Host) : List Job := h.w.queue ++ h.w.flight ++ h.w.landed ++ h.failing.map (·.1)

/-- The streamers are at their select with nothing to take, or have ended; no flush is running, and no durability
callback is outstanding. -/
structure Idle (h : Host) : Prop where
  streamers : ∀ i x, h.w.insts i = some x → (x.phase = .idle ∧ x.reqs = []) ∨ x.phase = .exited
  flush : h.w.flight = []
  callbacks : h.w.landed = [] ∧ h.failing = []

def start : Host where
  w := World.start

end Host

end Yasdb.Lifecycle
