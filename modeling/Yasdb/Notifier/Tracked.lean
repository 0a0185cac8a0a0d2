import Yasdb.Notifier.Jobs
import Yasdb.Notifier.Pipeline

/-!
# Following each stream through its outstanding jobs

The jobs of a slot that are not yet stored are those in the queue and the one in hand (`World.outstanding`). A property
`S i db out sl` of the store, these jobs and the slot is followed through a run (`Tracked`): different slots hold
different streams and a job writes the keys of its own stream only, so a commit does to the keys of a stream what the
jobs of that stream do (`effect_opsOf_filter`).
-/

namespace Yasdb.Notifier

open Batch List Option World

variable {i : Nat} {sl sl' : Slot}

/-! ## The jobs of a stream -/

/-- The operations of a list of jobs. -/
def opsOf (js : List CommitJob) : List Op := js.flatMap (·.c.ops)

/-- The appends of a list of jobs. -/
def logOf (js : List CommitJob) : List (Int64 × AppendReq) := js.flatMap (·.log)

theorem opsOf_append (js js' : List CommitJob) : opsOf (js ++ js') = opsOf js ++ opsOf js' := flatMap_append

theorem logOf_append (js js' : List CommitJob) : logOf (js ++ js') = logOf js ++ logOf js' := flatMap_append

@[simp] theorem opsOf_singleton (j : CommitJob) : opsOf [j] = j.c.ops := by simp [opsOf]

@[simp] theorem logOf_singleton (j : CommitJob) : logOf [j] = j.log := by simp [logOf]

/-- The jobs of slot `i` that are not yet stored, oldest first. -/
def World.outstanding (w : World) (i : Nat) (sl : Slot) : List CommitJob :=
  w.queued.filter (·.st = i) ++ sl.hand.toList

/-- A job writes keys of the stream of its slot only. -/
def JobOwned (slots : Nat → Option Slot) (j : CommitJob) : Prop :=
  ∃ sl, slots j.st = some sl ∧ ∀ op ∈ j.c.ops, Owns sl.st.path sl.st.id op.key

/-- Different slots hold different streams. -/
def Apart (slots : Nat → Option Slot) : Prop :=
  ∀ i k sl sl', slots i = some sl → slots k = some sl' → i ≠ k → sl.st.path ≠ sl'.st.path ∧ sl.st.id ≠ sl'.st.id

/-- On the keys of a stream, a batch of jobs does what the jobs of the stream do. -/
theorem effect_opsOf_filter {slots : Nat → Option Slot} (ha : Apart slots)
    (hs : slots i = some sl) {k : Key} (hk : Owns sl.st.path sl.st.id k) :
    ∀ {js : List CommitJob}, (∀ j ∈ js, JobOwned slots j) →
      effect k (opsOf js) = effect k (opsOf (js.filter (·.st = i)))
  | [], _ => rfl
  | j :: js, hj => by
    have ih := effect_opsOf_filter ha hs hk fun j' hj' => hj j' (mem_cons_of_mem _ hj')
    have hcons : ∀ js', effect k (opsOf (j :: js')) = (effect k (opsOf js')).or (effect k j.c.ops) := fun js' => by
      rw [show opsOf (j :: js') = j.c.ops ++ opsOf js' from rfl, effect_append]
    by_cases hi : j.st = i
    · rw [filter_cons_of_pos (by simpa using hi), hcons, hcons, ih]
    · obtain ⟨sl', hs', ho⟩ := hj j mem_cons_self
      obtain ⟨hp, hid⟩ := ha j.st i sl' sl hs' hs hi
      have hne : effect k j.c.ops = none := effect_ne fun op hop he =>
        (ho op hop).disjoint hp hid (he ▸ hk)
      rw [filter_cons_of_neg (by simpa using hi), hcons, hne, or_none, ih]

section Slots

variable {w : World}

theorem jobOwned_setSlot {i : Nat} {sl sl' : Slot} (hs : w.slots i = some sl) (hp : sl'.st.path = sl.st.path)
    (hid : sl'.st.id = sl.st.id) {j : CommitJob} (hj : JobOwned w.slots j) : JobOwned (w.setSlot i sl').slots j := by
  obtain ⟨s, hsj, ho⟩ := hj
  by_cases hi : j.st = i
  · rw [hi, hs, some.injEq] at hsj
    subst hsj
    exact ⟨sl', hi ▸ setSlot_self w j.st sl', by rw [hp, hid]; exact ho⟩
  · exact ⟨s, (setSlot_of_ne w sl' hi).trans hsj, ho⟩

theorem setSlot_apart (h : Apart w.slots) (hs : w.slots i = some sl)
    (hp : sl'.st.path = sl.st.path) (hid : sl'.st.id = sl.st.id) : Apart (w.setSlot i sl').slots := by
  have hold : ∀ {k sk}, (w.setSlot i sl').slots k = some sk →
      ∃ so, w.slots k = some so ∧ sk.st.path = so.st.path ∧ sk.st.id = so.st.id := fun hk => by
    rcases setSlot_cases hk with ⟨rfl, rfl⟩ | ⟨-, hk⟩
    · exact ⟨sl, hs, hp, hid⟩
    · exact ⟨_, hk, rfl, rfl⟩
  intro a b sa sb ha hb hab
  obtain ⟨sa', ha', hpa, hida⟩ := hold ha
  obtain ⟨sb', hb', hpb, hidb⟩ := hold hb
  rw [hpa, hpb, hida, hidb]
  exact h a b sa' sb' ha' hb' hab

end Slots

/-! ## A property of every slot -/

/-- Every slot satisfies `S`, with the store and its outstanding jobs. -/
structure Tracked (S : Nat → Store → List CommitJob → Slot → Prop) (w : World) : Prop where
  apart : Apart w.slots
  queued : ∀ j ∈ w.queued, JobOwned w.slots j
  hands : ∀ i sl j, w.slots i = some sl → sl.hand = some j → j.st = i ∧ JobOwned w.slots j
  slots : ∀ i sl, w.slots i = some sl → S i w.db (w.outstanding i sl) sl
  opened : w.committerClosed = false

namespace Tracked

variable {S : Nat → Store → List CommitJob → Slot → Prop} {w : World}

variable (h : Tracked S w)
include h

theorem congr {w' : World} (hdb : w'.db = w.db) (hs : w'.slots = w.slots) (hq : w'.queued = w.queued)
    (hc : w'.committerClosed = w.committerClosed) : Tracked S w' := by
  refine ⟨hs ▸ h.apart, by rw [hq, hs]; exact h.queued, by rw [hs]; exact h.hands, fun i sl hi => ?_,
    hc.trans h.opened⟩
  unfold outstanding
  rw [hdb, hq]
  exact h.slots i sl (hs ▸ hi)

theorem reply (i : Nat) (rs : List AppendResp) : Tracked S (w.reply i rs) := by
  obtain ⟨l, he⟩ := reply_eq w i rs
  rw [he]
  exact h.congr rfl rfl rfl rfl

theorem failJob (err : String) (j : CommitJob) : Tracked S (w.failJob err j) := h.reply _ _

section

variable (hs : w.slots i = some sl)
include hs

/-- A change of one slot that keeps its stream, and of the store as far as the other streams cannot see. -/
theorem change (hp : sl'.st.path = sl.st.path) (hid : sl'.st.id = sl.st.id)
    (hh : ∀ j, sl'.hand = some j → j.st = i ∧ JobOwned w.slots j) (db' : Store)
    (hsl : S i w.db (w.outstanding i sl) sl → S i db' (w.outstanding i sl') sl')
    (hother : ∀ k sk out, w.slots k = some sk → k ≠ i → S k w.db out sk → S k db' out sk) :
    Tracked S { w.setSlot i sl' with db := db' } := by
  refine ⟨setSlot_apart h.apart hs hp hid, fun j hj => jobOwned_setSlot hs hp hid (h.queued j hj),
    fun k sk j hk hj => ?_, fun k sk hk => ?_, h.opened⟩
  · rcases setSlot_cases hk with ⟨rfl, rfl⟩ | ⟨-, hk⟩
    · exact ⟨(hh j hj).1, jobOwned_setSlot hs hp hid (hh j hj).2⟩
    · exact ⟨(h.hands k sk j hk hj).1, jobOwned_setSlot hs hp hid (h.hands k sk j hk hj).2⟩
  · rcases setSlot_cases hk with ⟨rfl, rfl⟩ | ⟨hki, hk⟩
    · exact hsl (h.slots k sl hs)
    · exact hother k sk _ hk hki (h.slots k sk hk)

theorem setSlot (hp : sl'.st.path = sl.st.path) (hid : sl'.st.id = sl.st.id)
    (hh : ∀ j, sl'.hand = some j → j.st = i ∧ JobOwned w.slots j)
    (hsl : S i w.db (w.outstanding i sl) sl → S i w.db (w.outstanding i sl') sl') : Tracked S (w.setSlot i sl') :=
  h.change hs hp hid hh w.db hsl fun _ _ _ _ _ hk => hk

theorem plan {L : GoLib} {now : Int64} {flt : Faults} {batch : List AppendReq}
    (hh : sl.hand = none)
    (hreply : ∀ s out, Loads flt w.db sl.st s → S i w.db out sl → S i w.db out { sl with st := s })
    (hplan : ∀ s c out, processBurst L flt w.db now sl.st batch = (s, .commit c) → S i w.db out sl →
      S i w.db (out ++ [newJob i now sl.st batch c])
        { sl with st := applyWriter s c.pend c.metaChanged, hand := some (newJob i now sl.st batch c) }) :
    Tracked S (planStep L w i sl now flt batch) := by
  unfold planStep
  split
  · rename_i s responses hb
    obtain ⟨hl, -⟩ := processBurst_reply hb
    refine Tracked.reply ?_ _ _
    exact h.setSlot hs hl.path hl.id (fun j hj => (by rw [hh] at hj; cases hj)) (hreply s _ hl)
  · rename_i s c hb
    obtain ⟨hl, -, p, -, hps, rfl, -, hP⟩ := processBurst_commit hb
    refine h.setSlot hs hl.path hl.id (fun j hj => ?_) fun hinv => ?_
    · cases hj
      refine ⟨rfl, sl, hs, ?_⟩
      show ∀ op ∈ burstOps p.st p.pend p.metaChanged, Owns sl.st.path sl.st.id op.key
      rw [← hl.path, ← hl.id, hps]
      exact burstOps_owns _ hP.records
    · have hout : w.outstanding i sl = w.queued.filter (·.st = i) := by simp [World.outstanding, hh]
      rw [hout] at hinv
      exact hplan s _ _ hb hinv

/-- Queueing a job leaves the outstanding jobs of every slot. -/
theorem enqueue {batchMax : Nat} {j : CommitJob}
    (hj : sl.hand = some j) (hhand : ∀ out, S i w.db out sl → S i w.db out { sl with hand := none }) :
    Tracked S (enqueueStep batchMax (w.setSlot i { sl with hand := none }) j) := by
  obtain ⟨hji, hown⟩ := h.hands i sl j hs hj
  obtain ⟨f, p, he, -, -, hq⟩ := @enqueueStep_eq (w.setSlot i { sl with hand := none }) batchMax h.opened j
  rw [he]
  have hq' : World.queued { w.setSlot i { sl with hand := none } with flush := f, pending := p } = w.queued ++ [j] := hq
  have hown' : ∀ {j'}, JobOwned w.slots j' → JobOwned (w.setSlot i { sl with hand := none }).slots j' :=
    fun hj' => @jobOwned_setSlot w i sl { sl with hand := none } hs rfl rfl _ hj'
  refine ⟨setSlot_apart h.apart hs rfl rfl, fun j' hj' => ?_, fun k sk j' hk hj' => ?_, fun k sk hk => ?_, h.opened⟩
  · rw [hq'] at hj'
    rcases mem_append.mp hj' with hj' | hj'
    · exact hown' (h.queued j' hj')
    · rw [mem_singleton.mp hj']; exact hown' hown
  · rcases setSlot_cases hk with ⟨-, rfl⟩ | ⟨-, hk⟩
    · cases hj'
    · exact ⟨(h.hands k sk j' hk hj').1, hown' (h.hands k sk j' hk hj').2⟩
  · unfold outstanding
    rw [hq', filter_append]
    rcases setSlot_cases hk with ⟨rfl, rfl⟩ | ⟨hki, hk⟩
    · have hsl := h.slots k sl hs
      unfold outstanding at hsl
      rw [hj] at hsl
      rw [filter_cons_of_pos (by simpa using hji), filter_nil]
      show S k w.db (w.queued.filter (·.st = k) ++ [j] ++ []) { sl with hand := none }
      rw [append_nil]
      exact hhand _ hsl
    · have hne : ¬ j.st = k := fun he => hki (he.symm.trans hji)
      rw [filter_cons_of_neg (by simpa using hne), filter_nil, append_nil]
      exact h.slots k sk hk

end

/-- A commit stores the oldest jobs of every slot. -/
theorem commitOk {seq : Nat} {jobs : List CommitJob} (hf : w.flush = .committing jobs)
    (hcommit : ∀ i sl front rest, w.slots i = some sl → S i w.db (front ++ rest) sl →
      Agree sl.st.path sl.st.id (applyOps w.db (opsOf front)) (commitStep w seq jobs).db →
      S i (commitStep w seq jobs).db rest { sl with applied := sl.applied ++ logOf front }) :
    Tracked S (commitStep w seq jobs) := by
  have hq : w.queued = jobs ++ w.pending := by unfold World.queued; rw [hf]; rfl
  have hown : ∀ {j}, JobOwned w.slots j → JobOwned (commitStep w seq jobs).slots j := fun ⟨sl, hs, ho⟩ =>
    ⟨_, congrArg (Option.map _) hs, ho⟩
  refine ⟨fun a b sa sb ha hb hab => ?_, fun j hj => ?_, fun i sl j hs hj => ?_, fun i sl hs => ?_, h.opened⟩
  · obtain ⟨sa', ha', rfl⟩ := map_eq_some_iff.mp ha
    obtain ⟨sb', hb', rfl⟩ := map_eq_some_iff.mp hb
    exact h.apart a b sa' sb' ha' hb' hab
  · exact hown (h.queued j (by rw [hq]; exact mem_append_right _ hj))
  · obtain ⟨so, hso, rfl⟩ := map_eq_some_iff.mp hs
    exact ⟨(h.hands i so j hso hj).1, hown (h.hands i so j hso hj).2⟩
  · obtain ⟨so, hso, rfl⟩ := map_eq_some_iff.mp hs
    have hsl := h.slots i so hso
    unfold outstanding at hsl
    rw [hq, filter_append, append_assoc] at hsl
    refine hcommit i so _ _ hso hsl fun k hk => ?_
    have hjobs : ∀ j ∈ jobs, JobOwned w.slots j := fun j hj => h.queued j (by rw [hq]; exact mem_append_left _ hj)
    show _ = (applyOps w.db (opsOf jobs)).lookup k
    rw [lookup_applyOps, lookup_applyOps, effect_opsOf_filter h.apart hso hk hjobs]

theorem completeJob (j : CommitJob)
    (hreader : ∀ i sl out tail closed, w.slots i = some sl → S i w.db out sl →
      S i w.db out { sl with st := applyReader sl.st tail closed }) : Tracked S (w.completeJob j) := by
  unfold World.completeJob
  split
  · rename_i sl hs
    refine Tracked.reply ?_ _ _
    exact h.setSlot hs rfl rfl (fun j' hj' => h.hands j.st sl j' hs hj') (hreader _ sl _ _ _ hs)
  · exact h

/-- A streamer without outstanding jobs is spawned again from the store. -/
theorem respawn {m : StreamMeta} (hs : w.slots i = some sl)
    (hh : sl.hand = none) (hn : w.noneOutstanding i = true)
    (hspawn : S i w.db [] sl → m.streamID = sl.st.id ∧ S i w.db []
      { sl with st := newStreamer sl.st.path m (loadTailSeq w.db m.streamID), stale := false }) :
    Tracked S
      (w.setSlot i { sl with st := newStreamer sl.st.path m (loadTailSeq w.db m.streamID), stale := false }) := by
  have hout : w.outstanding i sl = [] := by
    unfold outstanding
    rw [hh, toList_none, append_nil, filter_eq_nil_iff]
    intro j hj
    have := List.all_eq_true.mp hn j (mem_append_left _ (mem_append_right _ hj))
    simpa using this
  have hsl := h.slots i sl hs
  rw [hout] at hsl
  obtain ⟨hid, hnew⟩ := hspawn hsl
  refine h.setSlot hs rfl hid (fun j hj => (by rw [show _ = none from hh] at hj; cases hj)) fun _ => ?_
  have hout' : w.outstanding i
      { sl with st := newStreamer sl.st.path m (loadTailSeq w.db m.streamID), stale := false } = [] := hout
  rw [hout']
  exact hnew

end Tracked

end Yasdb.Notifier
