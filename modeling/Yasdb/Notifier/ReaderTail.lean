import Yasdb.Notifier.Jobs
import Yasdb.Notifier.Pipeline
import Mathlib.Data.List.TakeWhile

/-!
# The reader-visible tail in notifier mode

With a store whose commits do not fail, the reader-visible tail never decreases, and every record below it belongs to a
commit already reported durable (`readerTail_monotone_durable`).

All jobs on their way to publication form one line, oldest first (`World.pipeline`): queueing appends to it, committing,
subscribing and firing move jobs along it, and a callback takes its head.

- `Lines`: per stream, the jobs of the line are adjacent intervals from the published tail to the write tail;
- `Seqs`: waiters ascend by target, and the next commit is later than all of them;
- `Stored`: a record of a commit has been reported durable, or its job still waits, or it lies beyond the tail.
-/

namespace Yasdb.Notifier

open Batch Runs Chains List Option World Flush

variable {sl' : Slot} {flt : Faults} {L : GoLib} {t : Nat} {w' : World}
  {db : Store} {s : Streamer} {now : Int64} {batch : List AppendReq} {ws : List DurWaiter} {e : Event}

/-! ## The line of each stream -/

/-- The jobs of slot `i` on the line are adjacent intervals from the published tail to the write tail. A closed notifier
has dropped jobs at the front, a closed committer at the end. -/
def SlotOrder (line : List CommitJob) (nc cc : Bool) (i : Nat) (sl : Slot) : Prop :=
  ∃ t t', sl.st.tail ≤ t ∧ (nc = false → t = sl.st.tail) ∧
    Chain CommitJob.baseSeq CommitJob.targetTail t (line.filter (·.st = i)) t' ∧
    (cc = false → sl.hand.elim (sl.st.writeTail = t') fun j => j.baseSeq = t' ∧ j.targetTail = sl.st.writeTail)

/-- The slots and the line of jobs; `nc` and `cc` say that the notifier and the committer are closed. -/
structure Lines (slots : Nat → Option Slot) (line : List CommitJob) (nc cc : Bool) : Prop where
  ids : ∀ i k sl sl', slots i = some sl → slots k = some sl' → sl.st.id = sl'.st.id → i = k
  jobs : ∀ j ∈ line, ∃ sl, slots j.st = some sl ∧ JobOk sl.st.id j
  hands : ∀ i sl j, slots i = some sl → sl.hand = some j → j.st = i ∧ JobOk sl.st.id j
  order : ∀ i sl, slots i = some sl → SlotOrder line nc cc i sl

namespace Lines

variable {w : World} {line : List CommitJob} {nc cc : Bool}

variable {i : Nat} {sl : Slot} {j : CommitJob}

section

variable (h : Lines w.slots line nc cc) (hs : w.slots i = some sl)
include h hs

/-- A slot whose identity stays. -/
theorem setSlot {line' : List CommitJob}
    (hid : sl'.st.id = sl.st.id) (hjobs : ∀ j ∈ line', j ∈ line ∨ (j.st = i ∧ JobOk sl.st.id j))
    (hhand : ∀ j, sl'.hand = some j → j.st = i ∧ JobOk sl.st.id j) (hord : SlotOrder line' nc cc i sl')
    (hother : ∀ k, k ≠ i → line'.filter (·.st = k) = line.filter (·.st = k)) :
    Lines (w.setSlot i sl').slots line' nc cc := by
  have hold : ∀ k sk, (w.setSlot i sl').slots k = some sk → ∃ so, w.slots k = some so ∧ sk.st.id = so.st.id := by
    intro k sk hk
    rcases setSlot_cases hk with ⟨rfl, rfl⟩ | ⟨-, hk⟩
    · exact ⟨sl, hs, hid⟩
    · exact ⟨sk, hk, rfl⟩
  refine ⟨fun k l sk sl₂ hk hl he => ?_, fun j hj => ?_, fun k sk j hk hj => ?_, fun k sk hk => ?_⟩
  · obtain ⟨so, hso, hi1⟩ := hold k sk hk
    obtain ⟨so', hso', hi2⟩ := hold l sl₂ hl
    exact h.ids k l so so' hso hso' (by rw [← hi1, ← hi2]; exact he)
  · by_cases hji : j.st = i
    · refine ⟨sl', by rw [hji]; exact setSlot_self w i sl', ?_⟩
      rw [hid]
      rcases hjobs j hj with hj | ⟨-, hok⟩
      · obtain ⟨so, hso, hok⟩ := h.jobs j hj
        rw [hji, hs, some.injEq] at hso
        rw [hso]; exact hok
      · exact hok
    · rcases hjobs j hj with hj | ⟨hj, -⟩
      · obtain ⟨so, hso, hok⟩ := h.jobs j hj
        exact ⟨so, (setSlot_of_ne w sl' hji).trans hso, hok⟩
      · exact absurd hj hji
  · rcases setSlot_cases hk with ⟨rfl, rfl⟩ | ⟨-, hk⟩
    · rw [hid]; exact hhand j hj
    · exact h.hands k sk j hk hj
  · rcases setSlot_cases hk with ⟨rfl, rfl⟩ | ⟨hki, hk⟩
    · exact hord
    · unfold SlotOrder
      rw [hother k hki]
      exact h.order k sk hk

theorem planReply (hl : Loads flt db sl.st s) : Lines (w.setSlot i { sl with st := s }).slots line nc cc := by
  obtain ⟨t, t', h1, h2, h3, h4⟩ := h.order i sl hs
  refine h.setSlot hs hl.id (fun j hj => .inl hj) (fun j hj => h.hands i sl j hs hj)
    ⟨t, t', hl.tail.trans_le h1, fun hc => (h2 hc).trans hl.tail.symm, h3, fun hc => ?_⟩ fun _ _ => rfl
  rw [hl.writeTail]
  exact h4 hc

/-- A planned burst continues the line of its stream. -/
theorem planCommit {c : CommitBurst} (hh : sl.hand = none)
    (hb : processBurst L flt db now sl.st batch = (s, .commit c)) : Lines (w.setSlot i { sl with
      st := applyWriter s c.pend c.metaChanged, hand := some (newJob i now sl.st batch c) }).slots line nc cc := by
  obtain ⟨t, t', h1, h2, h3, h4⟩ := h.order i sl hs
  obtain ⟨hl, -⟩ := processBurst_commit hb
  refine h.setSlot hs hl.id (fun j hj => .inl hj) (fun j hj => ?_)
    ⟨t, t', hl.tail.trans_le h1, fun hc => (h2 hc).trans hl.tail.symm, h3, fun hc => ?_⟩ fun _ _ => rfl
  · cases hj; exact ⟨rfl, newJob_ok hb i⟩
  · have := h4 hc
    rw [hh] at this
    exact ⟨this, rfl⟩

end

/-- A planned job joins the end of the line. -/
theorem enqueue (h : Lines w.slots line nc false) (hs : w.slots i = some sl) (hj : sl.hand = some j) :
    Lines (w.setSlot i { sl with hand := none }).slots (line ++ [j]) nc false := by
  obtain ⟨hji, hok⟩ := h.hands i sl j hs hj
  obtain ⟨t, t', h1, h2, h3, h4⟩ := h.order i sl hs
  have h4 := h4 rfl
  rw [hj] at h4
  refine h.setSlot hs rfl (fun x hx => ?_) nofun ⟨t, j.targetTail, h1, h2, ?_, fun _ => h4.2.symm⟩
    fun k hk => ?_
  · rcases mem_append.mp hx with hx | hx
    · exact .inl hx
    · rw [mem_singleton.mp hx]; exact .inr ⟨hji, hok⟩
  · rw [filter_append, filter_singleton, decide_eq_true hji, chain_append]
    exact ⟨t', h3, chain_singleton.mpr ⟨h4.1, h4.1 ▸ hok.le, rfl⟩⟩
  · have : ¬ j.st = k := fun he => hk (he ▸ hji)
    rw [filter_append, filter_singleton, decide_eq_false this]
    simp

theorem refuse (h : Lines w.slots line nc true) (hs : w.slots i = some sl) :
    Lines (w.setSlot i { sl with hand := none }).slots line nc true := by
  obtain ⟨t, t', h1, h2, h3, -⟩ := h.order i sl hs
  exact h.setSlot hs rfl (fun j hj => .inl hj) nofun ⟨t, t', h1, h2, h3, nofun⟩
    fun _ _ => rfl

theorem complete (h : Lines w.slots (j :: line) false cc) (hs : w.slots j.st = some sl) : j.baseSeq = sl.st.tail ∧
      Lines (w.setSlot j.st { sl with st := applyReader sl.st j.targetTail j.targetClosed }).slots line false cc := by
  obtain ⟨t, t', h1, h2, h3, h4⟩ := h.order j.st sl hs
  rw [filter_cons_of_pos (by simp)] at h3
  obtain ⟨hb, hle, hrest⟩ := h3
  refine ⟨hb.trans (h2 rfl), h.setSlot hs rfl (fun x hx => .inl (mem_cons_of_mem _ hx))
    (fun x hx => h.hands _ sl x hs hx) ⟨j.targetTail, t', le_refl _, fun _ => rfl, hrest, h4⟩ fun k hk => ?_⟩
  rw [filter_cons_of_neg (by simpa using Ne.symm hk)]

theorem dropFront {front : List CommitJob} (h : Lines w.slots (front ++ line) nc cc) : Lines w.slots line true cc := by
  refine ⟨h.ids, fun j hj => h.jobs j (mem_append_right _ hj), h.hands, fun i sl hs => ?_⟩
  obtain ⟨t, t', h1, -, h3, h4⟩ := h.order i sl hs
  rw [filter_append, chain_append] at h3
  obtain ⟨m, hm, h3⟩ := h3
  exact ⟨m, t', h1.trans hm.le, nofun, h3, h4⟩

theorem dropBack {back : List CommitJob} (h : Lines w.slots (line ++ back) nc cc) : Lines w.slots line nc true := by
  refine ⟨h.ids, fun j hj => h.jobs j (mem_append_left _ hj), h.hands, fun i sl hs => ?_⟩
  obtain ⟨t, t', h1, h2, h3, -⟩ := h.order i sl hs
  rw [filter_append, chain_append] at h3
  obtain ⟨m, h3, -⟩ := h3
  exact ⟨t, m, h1, h2, h3, nofun⟩

/-- The history of the slots does not matter. -/
theorem mapApplied (h : Lines w.slots line nc cc) (f : Nat → Slot → List (Int64 × AppendReq)) :
    Lines (fun i => (w.slots i).map fun sl => { sl with applied := f i sl }) line nc cc := by
  have hold : ∀ k sk, (w.slots k).map (fun sl => { sl with applied := f k sl }) = some sk →
      ∃ so, w.slots k = some so ∧ sk.st = so.st ∧ sk.hand = so.hand := by
    intro k sk hk
    obtain ⟨so, hso, rfl⟩ := map_eq_some_iff.mp hk
    exact ⟨so, hso, rfl, rfl⟩
  refine ⟨fun k l sk sl₂ hk hl he => ?_, fun j hj => ?_, fun k sk j hk hj => ?_, fun k sk hk => ?_⟩
  · obtain ⟨so, hso, h1, -⟩ := hold k sk hk
    obtain ⟨so', hso', h2, -⟩ := hold l sl₂ hl
    exact h.ids k l so so' hso hso' (by rw [← h1, ← h2]; exact he)
  · obtain ⟨so, hso, hok⟩ := h.jobs j hj
    exact ⟨{ so with applied := f j.st so }, by rw [hso]; rfl, hok⟩
  · obtain ⟨so, hso, h1, h2⟩ := hold k sk hk
    rw [h1]; exact h.hands k so j hso (h2 ▸ hj)
  · obtain ⟨so, hso, h1, h2⟩ := hold k sk hk
    unfold SlotOrder
    rw [h1, h2]; exact h.order k so hso

theorem tail_le {n : Nat} {op : Op} (h : Lines w.slots line nc cc) (hj : j ∈ line) (ho : op ∈ j.c.ops)
    (hs : w.slots i = some sl) (hk : op.key = .recordKey sl.st.id n) : sl.st.tail ≤ n := by
  obtain ⟨so, hso, hok⟩ := h.jobs j hj
  obtain ⟨hid, hb, -⟩ := hok.records op ho _ _ hk
  have hji : j.st = i := h.ids _ _ so sl hso hs hid.symm
  obtain ⟨t, t', h1, -, h3, -⟩ := h.order i sl hs
  have := (h3.mem (mem_filter.mpr ⟨hj, by simpa using hji⟩)).1
  omega

end Lines

/-! ## The records of the commits -/

/-- Where a record of a commit stands: reported durable, in a job that still waits, or dropped by a closed notifier and
beyond the published tail. -/
def RecordPlace (slots : Nat → Option Slot) (waiting : List DurWaiter) (lastDurable : Nat) (nc : Bool) (seq : Nat)
    (op : Op) (id n : Nat) : Prop :=
  seq ≤ lastDurable ∨ (∃ x ∈ waiting, x.1 = seq ∧ op ∈ x.2.c.ops) ∨
    (nc = true ∧ ∀ i sl, slots i = some sl → sl.st.id = id → sl.st.tail ≤ n)

/-- A record stored by a commit reported durable. -/
def DurableRecord (commits : List (Nat × List Op)) (lastDurable id n : Nat) : Prop :=
  ∃ c ∈ commits, c.1 ≤ lastDurable ∧ ∃ op ∈ c.2, op.key = .recordKey id n

/-- The commits, the jobs that wait for them and the published tails; `t₀` are the tails at the start. -/
structure Stored (t₀ : Nat → Nat) (slots : Nat → Option Slot) (commits : List (Nat × List Op))
    (waiting : List DurWaiter) (lastDurable : Nat) (nc : Bool) : Prop where
  records : ∀ c ∈ commits, ∀ op ∈ c.2, ∀ id n, op.key = .recordKey id n →
    RecordPlace slots waiting lastDurable nc c.1 op id n
  committed : ∀ x ∈ waiting, ∃ c ∈ commits, c.1 = x.1 ∧ x.2.c.ops ⊆ c.2
  published : ∀ i sl, slots i = some sl → ∀ n, t₀ i ≤ n → n < sl.st.tail → DurableRecord commits lastDurable sl.st.id n

namespace Stored

variable {t₀ : Nat → Nat} {slots slots' : Nat → Option Slot} {commits : List (Nat × List Op)}
  {waiting : List DurWaiter} {lastDurable : Nat} {nc : Bool}

section

variable (h : Stored t₀ slots commits waiting lastDurable nc)
include h

theorem congr
    (hold : ∀ k sk, slots' k = some sk → ∃ so, slots k = some so ∧ sk.st.id = so.st.id ∧ sk.st.tail = so.st.tail) :
    Stored t₀ slots' commits waiting lastDurable nc := by
  refine ⟨fun c hc op ho id n hk => ?_, h.committed, fun k sk hk n h1 h2 => ?_⟩
  · rcases h.records c hc op ho id n hk with hp | hp | ⟨hcl, hp⟩
    · exact .inl hp
    · exact .inr (.inl hp)
    · refine .inr (.inr ⟨hcl, fun k sk hk hik => ?_⟩)
      obtain ⟨so, hso, hi, ht⟩ := hold k sk hk
      rw [ht]; exact hp k so hso (hi ▸ hik)
  · obtain ⟨so, hso, hi, ht⟩ := hold k sk hk
    rw [hi]; exact h.published k so hso n h1 (ht ▸ h2)

/-- A commit of jobs that then wait for it. -/
theorem commit (seq : Nat) (jobs : List CommitJob) :
    Stored t₀ slots (commits ++ [(seq, jobs.flatMap (·.c.ops))]) (waiting ++ jobs.map (seq, ·)) lastDurable nc := by
  refine ⟨fun c hc op ho id n hk => ?_, fun x hx => ?_, fun i sl hs n h1 h2 => ?_⟩
  · rcases mem_append.mp hc with hc | hc
    · rcases h.records c hc op ho id n hk with hp | ⟨x, hx, hp⟩ | hp
      · exact .inl hp
      · exact .inr (.inl ⟨x, mem_append_left _ hx, hp⟩)
      · exact .inr (.inr hp)
    · rw [mem_singleton.mp hc] at ho ⊢
      obtain ⟨j, hj, ho⟩ := mem_flatMap.mp ho
      exact .inr (.inl ⟨(seq, j), mem_append_right _ (List.mem_map_of_mem hj), rfl, ho⟩)
  · rcases mem_append.mp hx with hx | hx
    · obtain ⟨c, hc, hp⟩ := h.committed x hx
      exact ⟨c, mem_append_left _ hc, hp⟩
    · obtain ⟨j, hj, rfl⟩ := List.mem_map.mp hx
      exact ⟨_, mem_append_right _ (mem_singleton_self _), rfl,
        fun op ho => mem_flatMap.mpr ⟨j, hj, ho⟩⟩
  · obtain ⟨c, hc, hp⟩ := h.published i sl hs n h1 h2
    exact ⟨c, mem_append_left _ hc, hp⟩

theorem mono {lastDurable' : Nat}
    (hle : lastDurable ≤ lastDurable') : Stored t₀ slots commits waiting lastDurable' nc := by
  refine ⟨fun c hc op ho id n hk => ?_, h.committed, fun i sl hs n h1 h2 => ?_⟩
  · rcases h.records c hc op ho id n hk with hp | hp
    · exact .inl (hp.trans hle)
    · exact .inr hp
  · obtain ⟨c, hc, hd, hp⟩ := h.published i sl hs n h1 h2
    exact ⟨c, hc, hd.trans hle, hp⟩

end

/-- The callback of a job whose commit has been reported durable publishes its records. -/
theorem complete {w : World} {j : CommitJob} {sl : Slot}
    (h : Stored t₀ w.slots commits ((t, j) :: waiting) lastDurable false) (hs : w.slots j.st = some sl)
    (ht : t ≤ lastDurable) (hok : JobOk sl.st.id j) (hb : j.baseSeq = sl.st.tail) :
    Stored t₀ (w.setSlot j.st { sl with st := applyReader sl.st j.targetTail j.targetClosed }).slots commits waiting
      lastDurable false := by
  refine ⟨fun c hc op ho id n hk => ?_, fun x hx => h.committed x (mem_cons_of_mem _ hx), fun k sk hk n h1 h2 => ?_⟩
  · rcases h.records c hc op ho id n hk with hp | ⟨x, hx, hseq, hp⟩ | ⟨hcl, -⟩
    · exact .inl hp
    · rcases mem_cons.mp hx with rfl | hx
      · exact .inl (hseq ▸ ht)
      · exact .inr (.inl ⟨x, hx, hseq, hp⟩)
    · cases hcl
  · rcases setSlot_cases hk with ⟨rfl, rfl⟩ | ⟨-, hk⟩
    · by_cases hn : n < sl.st.tail
      · exact h.published _ sl hs n h1 hn
      · obtain ⟨op, ho, hkey⟩ := hok.covers n (by omega) h2
        obtain ⟨c, hc, hseq, hsub⟩ := h.committed (t, j) mem_cons_self
        exact ⟨c, hc, hseq.trans_le ht, op, hsub ho, hkey⟩
    · exact h.published k sk hk n h1 h2

theorem dropFront {w : World} {front : List DurWaiter} {line : List CommitJob} {cc : Bool}
    (h : Stored t₀ w.slots commits (front ++ waiting) lastDurable nc)
    (hl : Lines w.slots (front.map (·.2) ++ line) nc cc) : Stored t₀ w.slots commits waiting lastDurable true := by
  refine ⟨fun c hc op ho id n hk => ?_, fun x hx => h.committed x (mem_append_right _ hx), h.published⟩
  rcases h.records c hc op ho id n hk with hp | ⟨x, hx, hp⟩ | ⟨-, hp⟩
  · exact .inl hp
  · rcases mem_append.mp hx with hx | hx
    · refine .inr (.inr ⟨rfl, fun i sl hs hid => ?_⟩)
      subst hid
      exact hl.tail_le (mem_append_left _ (List.mem_map_of_mem hx)) hp.2 hs hk
    · exact .inr (.inl ⟨x, hx, hp⟩)
  · exact .inr (.inr ⟨rfl, hp⟩)

end Stored

/-! ## Sequence numbers -/

/-- The targets of the waiters. -/
structure Seqs (w : World) : Prop where
  bounded : ∀ x ∈ w.waiters, x.1 ≤ w.lastSeq
  subs : ∀ x ∈ w.flush.subs, x.1 = w.lastSeq
  ready : ∀ x ∈ w.poller.ready, x.1 ≤ w.lastDurable
  shut : w.notifierClosed = true → w.poller.ready = [] ∧ w.waiters = []
  polled : ∀ d, w.poller = .polled d → d ≤ w.durable
  reported : w.lastDurable ≤ w.durable

/-! ## The invariant -/

/-- What holds in every state, `t₀` being the tails at the start. -/
structure TailInv (t₀ : Nat → Nat) (w : World) : Prop where
  lines : Lines w.slots w.pipeline w.notifierClosed w.committerClosed
  stored : Stored t₀ w.slots w.commits w.waiting w.lastDurable w.notifierClosed
  seqs : Seqs w

/-- The events over a store whose commits do not fail, within the life of each streamer. -/
def CommitsSucceed (_ : World) : Event → Prop
  | .commitFail _ => False
  | .respawn _ => False
  | _ => True

namespace TailInv

variable {t₀ : Nat → Nat} {w : World}

variable (h : TailInv t₀ w)
include h

theorem withSent (l : List Sent) : TailInv t₀ { w with sent := l } :=
  ⟨h.lines, h.stored, h.seqs.bounded, h.seqs.subs, h.seqs.ready, h.seqs.shut, h.seqs.polled, h.seqs.reported⟩

theorem failJob (err : String) (j : CommitJob) : TailInv t₀ (w.failJob err j) := by
  obtain ⟨l, he⟩ := failJob_eq w err j
  rw [he]; exact h.withSent l

variable {batchMax i seq : Nat} {sl : Slot} {j : CommitJob} {js : List CommitJob}

section

variable (hs : w.slots i = some sl)
include hs

theorem setSlot (hid : sl'.st.id = sl.st.id)
    (htail : sl'.st.tail = sl.st.tail)
    (hl : Lines (w.setSlot i sl').slots w.pipeline w.notifierClosed w.committerClosed) :
    TailInv t₀ (w.setSlot i sl') := by
  refine ⟨hl, h.stored.congr fun k sk hk => ?_, h.seqs.bounded, h.seqs.subs, h.seqs.ready, h.seqs.shut, h.seqs.polled,
    h.seqs.reported⟩
  rcases setSlot_cases hk with ⟨rfl, rfl⟩ | ⟨-, hk⟩
  · exact ⟨sl, hs, hid, htail⟩
  · exact ⟨sk, hk, rfl, rfl⟩

theorem plan (hh : sl.hand = none) : TailInv t₀ (planStep L w i sl now flt batch) := by
  unfold planStep
  split
  · rename_i s responses hb
    obtain ⟨hl, -⟩ := processBurst_reply hb
    obtain ⟨l, hr⟩ := reply_eq (w.setSlot i { sl with st := s }) i responses
    rw [hr]
    exact (h.setSlot hs hl.id hl.tail (h.lines.planReply hs hl)).withSent l
  · rename_i s c hb
    obtain ⟨hl, -⟩ := processBurst_commit hb
    exact h.setSlot hs hl.id hl.tail (h.lines.planCommit hs hh hb)

theorem enqueue (hj : sl.hand = some j) :
    TailInv t₀ (enqueueStep batchMax (w.setSlot i { sl with hand := none }) j) := by
  have hl := h.lines
  cases hc : w.committerClosed with
  | true =>
    rw [hc] at hl
    have h' : TailInv t₀ (w.setSlot i { sl with hand := none }) :=
      h.setSlot hs rfl rfl (by rw [hc]; exact hl.refuse hs)
    unfold enqueueStep
    rw [if_pos (show (w.setSlot i _).committerClosed = true from hc)]
    exact h'.failJob _ _
  | false =>
    rw [hc] at hl
    obtain ⟨f, p, he, hsub, -, hq⟩ := @enqueueStep_eq (w.setSlot i { sl with hand := none }) batchMax hc j
    have hw := @waiting_requeue (w.setSlot i { sl with hand := none }) f p hsub
    rw [he]
    refine ⟨?_, ?_, h.seqs.bounded, fun x hx => h.seqs.subs x (hsub ▸ hx), h.seqs.ready, h.seqs.shut, h.seqs.polled,
      h.seqs.reported⟩
    · unfold pipeline
      rw [hw, show queued { w.setSlot i { sl with hand := none } with flush := f, pending := p } = _ from hq,
        ← append_assoc]
      show Lines _ _ _ w.committerClosed
      rw [hc]
      exact hl.enqueue hs hj
    · rw [hw]
      refine h.stored.congr fun k sk hk => ?_
      rcases setSlot_cases hk with ⟨rfl, rfl⟩ | ⟨-, hk⟩
      · exact ⟨sl, hs, rfl, rfl⟩
      · exact ⟨sk, hk, rfl, rfl⟩

end

theorem loop (hj : w.flush.jobs = []) (hs : w.flush.subs = []) : TailInv t₀ (loopStep batchMax w) := by
  obtain ⟨f, p, he, hsub, -, hq⟩ := @loopStep_eq w batchMax hj hs
  have hw := @waiting_requeue w f p hsub
  rw [he]
  refine ⟨?_, by rw [hw]; exact h.stored, h.seqs.bounded, fun x hx => h.seqs.subs x (hsub ▸ hx), h.seqs.ready,
    h.seqs.shut, h.seqs.polled, h.seqs.reported⟩
  unfold pipeline
  rw [hw, show queued { w with flush := f, pending := p } = _ from hq]
  exact h.lines

theorem commitOk {jobs : List CommitJob} (hf : w.flush = .committing jobs) (hseq : w.lastSeq < seq) :
    TailInv t₀ (commitStep w seq jobs) := by
  refine ⟨?_, ?_, fun x hx => (h.seqs.bounded x hx).trans hseq.le, fun x hx => ?_, h.seqs.ready, h.seqs.shut,
    h.seqs.polled, h.seqs.reported⟩
  · rw [pipeline_commitStep hf]
    exact h.lines.mapApplied _
  · rw [waiting_commitStep hf]
    refine (h.stored.commit seq jobs).congr fun k sk hk => ?_
    obtain ⟨so, hso, rfl⟩ := map_eq_some_iff.mp hk
    exact ⟨so, hso, rfl, rfl⟩
  · obtain ⟨j, -, rfl⟩ := List.mem_map.mp hx
    rfl

section

variable (hf : w.flush = .subscribing seq (j :: js))
include hf

/-- A subscription to an open notifier moves the job to the end of the waiters. -/
theorem subscribe (ho : w.notifierClosed = false) :
    TailInv t₀ { w with flush := .subscribing seq js, waiters := insertWaiter seq j w.waiters } := by
  have hsubs : w.flush.subs = (seq, j) :: js.map (seq, ·) := by rw [hf]; rfl
  have hseq : seq = w.lastSeq := h.seqs.subs (seq, j) (by rw [hsubs]; exact mem_cons_self)
  have hins := insertWaiter_of_le (fun x hx => hseq ▸ h.seqs.bounded x hx) j
  have hw : waiting { w with flush := .subscribing seq js, waiters := insertWaiter seq j w.waiters } = w.waiting := by
    unfold waiting
    rw [hins, hsubs]
    simp [subs]
  have hp : pipeline { w with flush := .subscribing seq js, waiters := insertWaiter seq j w.waiters } = w.pipeline := by
    unfold pipeline
    rw [hw]
    simp [queued, jobs, hf]
  refine ⟨by rw [hp]; exact h.lines, by rw [hw]; exact h.stored, fun x hx => ?_, fun x hx => ?_, h.seqs.ready,
    fun hn => ?_, h.seqs.polled, h.seqs.reported⟩
  · rw [hins] at hx
    rcases mem_append.mp hx with hx | hx
    · exact h.seqs.bounded x hx
    · rw [mem_singleton.mp hx]; exact hseq.le
  · exact h.seqs.subs x (by rw [hsubs]; exact mem_cons_of_mem _ hx)
  · exact absurd (show w.notifierClosed = true from hn) (by simp [ho])

/-- A subscription to a closed notifier drops the job. -/
theorem subscribeClosed (hc : w.notifierClosed = true) : TailInv t₀ { w with flush := .subscribing seq js } := by
  have hsubs : w.flush.subs = (seq, j) :: js.map (seq, ·) := by rw [hf]; rfl
  obtain ⟨hr, hwt⟩ := h.seqs.shut hc
  have hw : w.waiting = [(seq, j)] ++ waiting { w with flush := .subscribing seq js } := by
    unfold waiting
    rw [hr, hwt, hsubs]
    rfl
  have hp : w.pipeline = [j] ++ pipeline { w with flush := .subscribing seq js } := by
    unfold pipeline
    rw [hw, map_append, append_assoc]
    simp [queued, jobs, hf]
  have hl := h.lines
  have hst := h.stored
  rw [hp] at hl
  rw [hw] at hst
  refine ⟨?_, ?_, h.seqs.bounded, fun x hx => ?_, h.seqs.ready, h.seqs.shut, h.seqs.polled, h.seqs.reported⟩
  · rw [hc]; exact hl.dropFront
  · rw [hc]; exact hst.dropFront hl
  · exact h.seqs.subs x (by rw [hsubs]; exact mem_cons_of_mem _ hx)

end

theorem fire {d : Nat} (hp : w.poller = .polled d) : TailInv t₀ (fireStep w d) := by
  have hw := waiting_fireStep hp
  refine ⟨?_, ?_, fun x hx => ?_, h.seqs.subs, fun x hx => ?_, fun hc => ?_, nofun, ?_⟩
  · unfold pipeline
    rw [hw]; exact h.lines
  · rw [hw]; exact h.stored.mono (le_max_left _ _)
  · exact h.seqs.bounded x ((dropWhile_sublist _).subset hx)
  · have hx' := mem_takeWhile_imp hx
    exact (of_decide_eq_true hx').trans (le_max_right _ _)
  · obtain ⟨-, hwt⟩ := h.seqs.shut hc
    unfold fireStep
    rw [hwt]
    exact ⟨rfl, rfl⟩
  · exact max_le h.seqs.reported (h.seqs.polled d hp)

/-- A callback takes the head of the line. -/
theorem callback (hp : w.poller = .calling none ((t, j) :: ws)) :
    TailInv t₀ (completeJob { w with poller := .calling none ws } j) := by
  have hr : w.poller.ready = (t, j) :: ws := by rw [hp]; rfl
  have ho : w.notifierClosed = false := by
    by_contra hc
    have := (h.seqs.shut (by simpa using hc)).1
    rw [hr] at this
    cases this
  have hw : w.waiting = (t, j) :: waiting { w with poller := .calling none ws } := by
    unfold waiting
    rw [hr]
    rfl
  have hpl : w.pipeline = j :: pipeline { w with poller := .calling none ws } := by
    unfold pipeline
    rw [hw]
    rfl
  have hl := h.lines
  have hst := h.stored
  rw [hpl, ho] at hl
  rw [hw, ho] at hst
  obtain ⟨sl, hs, hok⟩ := hl.jobs j mem_cons_self
  obtain ⟨hb, hl'⟩ := hl.complete hs
  have ht : t ≤ w.lastDurable := h.seqs.ready (t, j) (by rw [hr]; exact mem_cons_self)
  have hst' := hst.complete hs ht hok hb
  unfold World.completeJob
  rw [show World.slots { w with poller := .calling none ws } j.st = some sl from hs]
  obtain ⟨l, he⟩ := reply_eq (World.setSlot { w with poller := .calling none ws } j.st
    { sl with st := applyReader sl.st j.targetTail j.targetClosed }) j.st j.c.responses
  have h' : TailInv t₀ (World.setSlot { w with poller := .calling none ws } j.st
      { sl with st := applyReader sl.st j.targetTail j.targetClosed }) := by
    refine ⟨?_, ?_, h.seqs.bounded, h.seqs.subs, fun x hx => ?_, fun hc => ?_, nofun, h.seqs.reported⟩
    · rw [ho]; exact hl'
    · rw [ho]; exact hst'
    · exact h.seqs.ready x (by rw [hr]; exact mem_cons_of_mem _ hx)
    · rw [show w.notifierClosed = true from hc] at ho; cases ho
  dsimp only
  rw [he]
  exact h'.withSent l

theorem setPoller {p : Poller} (hr : w.poller.ready = []) (hr' : p.ready = [])
    (hd : ∀ d, p = .polled d → d ≤ w.durable) : TailInv t₀ { w with poller := p } := by
  have hw : waiting { w with poller := p } = w.waiting := by
    unfold waiting
    rw [hr, hr']
  refine ⟨?_, by rw [hw]; exact h.stored, h.seqs.bounded, h.seqs.subs, fun x hx => ?_, fun hc => ?_, hd,
    h.seqs.reported⟩
  · unfold pipeline
    rw [hw]; exact h.lines
  · rw [show Poller.ready _ = [] from hr'] at hx; cases hx
  · exact ⟨hr', (h.seqs.shut hc).2⟩

theorem closeNotifier (hp : w.poller = .idle) (err : String) :
    TailInv t₀ { w with notifierClosed := true, waiters := [], poller := .calling (some err) w.waiters } := by
  have hr : w.poller.ready = [] := by rw [hp]; rfl
  have hw : w.waiting = w.waiters ++
      waiting { w with notifierClosed := true, waiters := [], poller := .calling (some err) w.waiters } := by
    unfold waiting
    rw [hr]
    rfl
  have hpl : w.pipeline = w.waiters.map (·.2) ++
      pipeline { w with notifierClosed := true, waiters := [], poller := .calling (some err) w.waiters } := by
    unfold pipeline
    rw [hw, map_append, append_assoc]
    rfl
  have hl := h.lines
  have hst := h.stored
  rw [hpl] at hl
  rw [hw] at hst
  exact ⟨hl.dropFront, hst.dropFront hl, nofun, h.seqs.subs, nofun,
    fun _ => ⟨rfl, rfl⟩, nofun, h.seqs.reported⟩

theorem closeCommitter : TailInv t₀ { w with committerClosed := true, stray := w.pending, pending := [] } := by
  have hpl : w.pipeline =
      pipeline { w with committerClosed := true, stray := w.pending, pending := [] } ++ w.pending := by
    unfold pipeline queued
    simp [waiting]
  have hl := h.lines
  rw [hpl] at hl
  exact ⟨hl.dropBack, h.stored, h.seqs.bounded, h.seqs.subs, h.seqs.ready, h.seqs.shut, h.seqs.polled, h.seqs.reported⟩

theorem failNext {err : String} (hf : w.flush = .failing err (j :: js)) :
    TailInv t₀ { w with flush := .failing err js } := by
  have hs : (failing err js).subs = w.flush.subs := by rw [hf]; rfl
  have hw := @waiting_requeue w (.failing err js) w.pending hs
  have hq : queued { w with flush := .failing err js } = w.queued := by
    unfold queued
    rw [hf]
    rfl
  refine ⟨?_, by rw [hw]; exact h.stored, h.seqs.bounded, nofun, h.seqs.ready, h.seqs.shut,
    h.seqs.polled, h.seqs.reported⟩
  unfold pipeline
  rw [hw, hq]
  exact h.lines

/-- **Every step keeps the invariant.** -/
theorem step (hc : CommitsSucceed w e)
    (he : step L batchMax w e = some w') : TailInv t₀ w' := by
  cases steps_of_step he with
  | plan now flt batch hs hh => exact h.plan hs hh
  | enqueue hs hj => exact h.enqueue hs hj
  | commitOk hf hseq => exact h.commitOk hf hseq
  | commitFail => exact hc.elim
  | subscribe hf ho => exact h.subscribe hf ho
  | subscribeClosed hf hcl => exact (h.subscribeClosed hf hcl).failJob _ _
  | failNext hf => exact (h.failNext hf).failJob _ _
  | loop hj hs _ => exact h.loop hj hs
  | persist hle =>
    exact ⟨h.lines, h.stored, h.seqs.bounded, h.seqs.subs, h.seqs.ready, h.seqs.shut,
      fun d hd => (h.seqs.polled d hd).trans hle, h.seqs.reported.trans hle⟩
  | poll hp hle => exact h.setPoller (by rw [hp]; rfl) rfl fun d hd => by cases hd; exact hle
  | fire hp => exact h.fire hp
  | callback hp => exact h.callback hp
  | callbackErr hp => exact (h.setPoller (by rw [hp]; rfl) rfl fun d hd => (by cases hd)).failJob _ _
  | pollDone hr _ => exact h.setPoller hr rfl fun d hd => (by cases hd)
  | closeNotifier hp _ => exact h.closeNotifier hp _
  | closeCommitter _ => exact h.closeCommitter
  | @failStray j js hst =>
    have h' : TailInv t₀ { w with stray := js } :=
      ⟨h.lines, h.stored, h.seqs.bounded, h.seqs.subs, h.seqs.ready, h.seqs.shut, h.seqs.polled, h.seqs.reported⟩
    exact h'.failJob _ _
  | respawn => exact hc.elim

end TailInv

/-! ## Main result -/

/-- A server that has just started: nothing in flight, every streamer loaded from the store, distinct streams. -/
structure Start (w : World) : Prop where
  quiet : w = { db := w.db, slots := w.slots }
  ids : ∀ i k sl sl', w.slots i = some sl → w.slots k = some sl' → sl.st.id = sl'.st.id → i = k
  idle : ∀ i sl, w.slots i = some sl → sl.hand = none ∧ sl.st.tail = sl.st.writeTail

variable {w : World}

theorem Start.tailInv (h : Start w) : TailInv (fun i => (w.slots i).elim 0 (·.st.tail)) w := by
  obtain ⟨hq, hids, hidle⟩ := h
  have hp : w.pipeline = [] := by rw [hq]; rfl
  have hw : w.waiting = [] := by rw [hq]; rfl
  have hc : w.commits = [] := by rw [hq]
  refine ⟨⟨hids, ?_, fun i sl j hs hj => ?_, fun i sl hs => ?_⟩, ⟨?_, ?_, fun i sl hs n h1 h2 => ?_⟩, ?_⟩
  · rw [hp]; exact nofun
  · rw [(hidle i sl hs).1] at hj; cases hj
  · refine ⟨sl.st.tail, sl.st.tail, le_refl _, fun _ => rfl, by rw [hp]; rfl, fun _ => ?_⟩
    rw [(hidle i sl hs).1]
    exact (hidle i sl hs).2.symm
  · rw [hc]; exact nofun
  · rw [hw]; exact nofun
  · simp only [hs, elim_some] at h1
    omega
  · rw [hq]
    exact ⟨nofun, nofun, nofun, nofun, nofun, le_refl _⟩

/-- Every record of the stream below its published tail belongs to a commit already reported durable. -/
structure PublishedDurable (w₀ w : World) : Prop where
  reported : ∀ i sl, w.slots i = some sl → ∀ c ∈ w.commits, ∀ op ∈ c.2, ∀ n, op.key = .recordKey sl.st.id n →
    n < sl.st.tail → c.1 ≤ w.lastDurable
  stored : ∀ i sl sl₀, w.slots i = some sl → w₀.slots i = some sl₀ → ∀ n, sl₀.st.tail ≤ n → n < sl.st.tail →
    DurableRecord w.commits w.lastDurable sl.st.id n
  durable : w.lastDurable ≤ w.durable

theorem TailInv.publishedDurable {w₀ : World} (h : TailInv (fun i => (w₀.slots i).elim 0 (·.st.tail)) w) :
    PublishedDurable w₀ w := by
  refine ⟨fun i sl hs c hc op ho n hk hn => ?_, fun i sl sl₀ hs hs₀ n h1 h2 => ?_, h.seqs.reported⟩
  · rcases h.stored.records c hc op ho _ n hk with hp | ⟨x, hx, -, hop⟩ | ⟨-, hp⟩
    · exact hp
    · have := h.lines.tail_le (mem_append_left _ (List.mem_map_of_mem hx)) hop hs hk
      omega
    · have := hp i sl hs rfl
      omega
  · exact h.stored.published i sl hs n (by simpa [hs₀] using h1) h2

/-- The published tails of `w'` are at least those of `w`. -/
def TailsGrow (w w' : World) : Prop :=
  ∀ i sl, w.slots i = some sl → ∃ sl', w'.slots i = some sl' ∧ sl.st.tail ≤ sl'.st.tail

theorem tailsGrow_setSlot {i : Nat} {sl sl' : Slot} (hs : w.slots i = some sl) (ht : sl.st.tail ≤ sl'.st.tail) :
    TailsGrow w (w.setSlot i sl') := by
  intro k sk hk
  by_cases hki : k = i
  · subst hki
    rw [hs, some.injEq] at hk
    exact ⟨sl', setSlot_self w k sl', hk ▸ ht⟩
  · exact ⟨sk, (setSlot_of_ne w sl' hki).trans hk, le_refl _⟩

theorem tailsGrow_of_slots {w₁ : World} (h : TailsGrow w w₁) (hs : w'.slots = w₁.slots) : TailsGrow w w' := by
  intro i sl hi
  rw [hs]; exact h i sl hi

theorem tailsGrow_refl (w : World) : TailsGrow w w := fun _ sl hs => ⟨sl, hs, le_refl _⟩

/-- The callback at the head of the line moves the tail of its stream forward. -/
theorem TailInv.tailsGrow_callback {t₀ : Nat → Nat} {j : CommitJob} (h : TailInv t₀ w)
    (hp : w.poller = .calling none ((t, j) :: ws)) :
    TailsGrow w (completeJob { w with poller := .calling none ws } j) := by
  have hr : w.poller.ready = (t, j) :: ws := by rw [hp]; rfl
  have hj : j ∈ w.pipeline := by
    unfold pipeline waiting
    rw [hr]
    simp
  obtain ⟨sl, hs, hok⟩ := h.lines.jobs j hj
  obtain ⟨a, b, h1, -, h3, -⟩ := h.lines.order j.st sl hs
  have hle := (h3.mem (mem_filter.mpr ⟨hj, by simp⟩)).1
  unfold World.completeJob
  rw [show World.slots { w with poller := .calling none ws } j.st = some sl from hs]
  obtain ⟨l, he⟩ := reply_eq (World.setSlot { w with poller := .calling none ws } j.st
    { sl with st := applyReader sl.st j.targetTail j.targetClosed }) j.st j.c.responses
  dsimp only
  rw [he]
  have hgrow : sl.st.tail ≤ j.targetTail := h1.trans (hle.trans hok.le)
  exact tailsGrow_of_slots (@tailsGrow_setSlot w j.st sl _ hs hgrow) rfl

/-- No step moves a published tail back. -/
theorem TailInv.tailsGrow {t₀ : Nat → Nat} {batchMax : Nat} (h : TailInv t₀ w)
    (hc : CommitsSucceed w e) (he : Notifier.step L batchMax w e = some w') : TailsGrow w w' := by
  cases steps_of_step he with
  | @plan i sl now flt batch hs hh =>
    unfold planStep
    split
    · rename_i s responses hb
      obtain ⟨hl, -⟩ := processBurst_reply hb
      obtain ⟨l, hr⟩ := reply_eq (w.setSlot i { sl with st := s }) i responses
      rw [hr]
      exact tailsGrow_of_slots (tailsGrow_setSlot hs hl.tail.ge) rfl
    · rename_i s c hb
      obtain ⟨hl, -⟩ := processBurst_commit hb
      exact tailsGrow_setSlot hs hl.tail.ge
  | @enqueue i sl j hs hj =>
    exact tailsGrow_of_slots (@tailsGrow_setSlot w i sl { sl with hand := none } hs (le_refl _))
      (slots_enqueueStep _ _ _)
  | commitOk hf hseq => exact fun i sl hs => ⟨_, congrArg (Option.map _) hs, le_refl _⟩
  | commitFail => exact hc.elim
  | subscribe hf ho => exact tailsGrow_refl w
  | loop hj hs _ => exact tailsGrow_of_slots (tailsGrow_refl w) (slots_loopStep _ _)
  | persist hle => exact tailsGrow_refl w
  | poll hp hle => exact tailsGrow_refl w
  | fire hp => exact tailsGrow_refl w
  | callback hp => exact h.tailsGrow_callback hp
  | pollDone hr _ => exact tailsGrow_refl w
  | closeNotifier hp _ => exact tailsGrow_refl w
  | closeCommitter _ => exact tailsGrow_refl w
  | respawn => exact hc.elim
  | _ => exact tailsGrow_of_slots (tailsGrow_refl w) (slots_failJob _ _ _)

/-- **The reader-visible tail is monotone and durable.** Along every run whose commits do not fail, no published tail
ever decreases, and every record below one belongs to a commit already reported durable. -/
theorem readerTail_monotone_durable (L : GoLib) (batchMax : Nat) (w₀ w w' : World) (h₀ : Start w₀)
    (hr : Reach (step L batchMax) CommitsSucceed w₀ w) (hr' : Reach (step L batchMax) CommitsSucceed w w') :
    TailsGrow w w' ∧ PublishedDurable w₀ w := by
  have h := hr.invariant (fun _ _ _ hs hc he => hs.step hc he) h₀.tailInv
  refine ⟨hr'.related (P := TailInv _) tailsGrow_refl ?_ (fun s e s' hs hc he => ⟨hs.step hc he, hs.tailsGrow hc he⟩) h,
    h.publishedDurable⟩
  intro a b c hab hbc i sl hs
  obtain ⟨sl₁, hs₁, h₁⟩ := hab i sl hs
  obtain ⟨sl₂, hs₂, h₂⟩ := hbc i sl₁ hs₁
  exact ⟨sl₂, hs₂, h₁.trans h₂⟩

theorem sampleWorld_start : Start sampleWorld := by
  refine ⟨rfl, fun i k sl sl' hi hk _ => ?_, fun i sl hi => ?_⟩
  · rw [(sampleWorld_slots hi).1, (sampleWorld_slots hk).1]
  · rw [(sampleWorld_slots hi).2]
    exact ⟨rfl, rfl⟩

/-- One append moves the published tail of the sample stream from 0 to 1. -/
theorem readerTail_appendCycle :
    ∃ w, run (step plainLib 1) sampleWorld (.plan 0 0 noFaults [producerAppend 0 0] :: publishCycle) = some w ∧
      (sampleWorld.slots 0).map (·.st.tail) = some 0 ∧ (w.slots 0).map (·.st.tail) = some 1 ∧
      TailsGrow sampleWorld w ∧ PublishedDurable sampleWorld w := by
  have hc : ∀ e ∈ Event.plan 0 0 noFaults [producerAppend 0 0] :: publishCycle, ∀ w, CommitsSucceed w e := by
    simp [publishCycle, CommitsSucceed]
  have hr : ∀ w, run (step plainLib 1) sampleWorld (.plan 0 0 noFaults [producerAppend 0 0] :: publishCycle) = some w →
      Reach (step plainLib 1) CommitsSucceed sampleWorld w := fun w hw => reach_of_run hc hw
  exact ⟨_, rfl, rfl, rfl,
    (readerTail_monotone_durable plainLib 1 sampleWorld _ _ sampleWorld_start (Reach.refl _) (hr _ rfl)).1,
    (readerTail_monotone_durable plainLib 1 sampleWorld _ _ sampleWorld_start (hr _ rfl) (Reach.refl _)).2⟩

end Yasdb.Notifier
