import Nexus.Lib.Run
import Nexus.Broker.CoordinatorCalls

/-!
# Runs of the transaction coordinator

Every sequence of calls, from a coordinator that has just been built.

- **One transaction** (`TransactionMetadata.Sound`): its partitions are in order, those it waits
  for are some of them, and it waits for some exactly while it is prepared.
- **The ledger** (`Ledger`): the coordinator with what becomes of its transactions and of their
  markers. A transaction of a producer is known by its number, the count of the producer's
  successful `begin`s; `history` has each one as the coordinator last had it. The coordinator reads
  nothing of this.
- **Markers** (`Ledger.Recorded`): they carry the decision of their transaction and go to its
  partitions. An acknowledgement carries a producer, an epoch and a partition, and not the
  transaction, and `begin` looks at the epoch of the transaction that it replaces and at nothing
  else once the epochs differ. So a decision can be lost to a `begin`, and a transaction can be
  completed by the acknowledgements of another one.
-/

namespace Nexus

open Lib List

/-! ## Transactions -/

theorem insertPartition_sorted {q : TopicPartition} {l : List TopicPartition}
    (h : l.Pairwise (· < ·)) : (insertPartition q l).Pairwise (· < ·) := by
  induction l with
  | nil => exact pairwise_singleton _ _
  | cons r l ih =>
    obtain ⟨hr, hl⟩ := pairwise_cons.mp h
    unfold insertPartition
    split
    · rename_i hlt
      refine pairwise_cons.mpr ⟨fun x hx => ?_, ih hl⟩
      rcases mem_insertPartition.mp hx with rfl | hx
      · exact hlt
      · exact hr x hx
    split
    · exact h
    · rename_i hlt hne
      have hqr : q < r := lt_of_le_of_ne (not_lt.mp hlt) (Ne.symm hne)
      refine pairwise_cons.mpr ⟨fun x hx => ?_, h⟩
      rcases mem_cons.mp hx with rfl | hx
      · exact hqr
      · exact hqr.trans (hr x hx)

theorem erasePartition_sublist (q : TopicPartition) (l : List TopicPartition) :
    (erasePartition q l).Sublist l := by
  induction l with
  | nil => exact .slnil
  | cons r l ih =>
    unfold erasePartition
    split
    · exact ih.cons_cons r
    split
    · exact sublist_cons_self r l
    · exact List.Sublist.refl _

namespace TransactionMetadata

structure Sound (t : TransactionMetadata) : Prop where
  sorted : t.partitions.Pairwise (· < ·)
  sublist : t.unackedPartitions.Sublist t.partitions
  waits : t.unackedPartitions ≠ [] ↔ isPrepared t.state = true

variable {t : TransactionMetadata}

theorem sound_opened (p : ProducerId) (epoch coordinatorEpoch now : Int) :
    (opened p epoch coordinatorEpoch now).Sound :=
  ⟨.nil, .slnil, by simp [opened, isPrepared]⟩

theorem Sound.unacked_of_ongoing (h : t.Sound) (ho : t.state = .ongoing) :
    t.unackedPartitions = [] := by
  by_contra hne
  have hp := h.waits.mp hne
  rw [ho] at hp
  cases hp

theorem Sound.add (h : t.Sound) (ho : t.state = .ongoing) (qs : List TopicPartition) (now : Int) :
    (t.add qs now).Sound where
  sorted := by
    have hfold : ∀ l : List TopicPartition, l.Pairwise (· < ·) →
        (qs.foldl (fun l q => insertPartition q l) l).Pairwise (· < ·) := by
      induction qs with
      | nil => exact fun _ hl => hl
      | cons q qs ih => exact fun l hl => ih _ (insertPartition_sorted hl)
    exact hfold _ h.sorted
  sublist := by
    change t.unackedPartitions.Sublist _
    rw [h.unacked_of_ongoing ho]
    exact nil_sublist _
  waits := h.waits

theorem Sound.prepare (h : t.Sound) (coordinatorEpoch : Int) (d : ControlRecordType) (now : Int) :
    (t.prepare coordinatorEpoch d now).Sound := by
  refine ⟨h.sorted, List.Sublist.refl _, ?_⟩
  unfold TransactionMetadata.prepare
  by_cases hnil : t.partitions = [] <;> cases d <;>
    simp [hnil, isPrepared, prepareStateOf, completeStateOf]

theorem Sound.acknowledge (h : t.Sound) (hp : isPrepared t.state = true) (q : TopicPartition) :
    (t.acknowledge q).Sound := by
  refine ⟨h.sorted, (erasePartition_sublist q _).trans h.sublist, ?_⟩
  unfold TransactionMetadata.acknowledge
  by_cases hnil : erasePartition q t.unackedPartitions = []
  · cases decisionOf t.state <;> simp [hnil, isPrepared, completeStateOf]
  · simp [hnil, hp]

end TransactionMetadata

namespace TransactionCoordinator

open TransactionMetadata

variable {c : TransactionCoordinator} {k : Call} {p : ProducerId} {t : TransactionMetadata}
  {r : Option TransactionMetadata} {ms : List MarkerWrite} {q : TopicPartition}

/-! ## Steps -/

/-- The markers that a call puts in the queue. -/
def emitted (c : TransactionCoordinator) (k : Call) : List MarkerWrite :=
  (c.step k).pendingMarkers.drop c.pendingMarkers.length

theorem moves_step (hkey : c.Keyed) (k : Call) (p : ProducerId) : Moves c k p
    ((c.step k).txns.lookup p) ((c.emitted k).filter fun m => m.producerId = p) := by
  by_cases hk : k = .takePendingMarkers
  · subst hk
    have hnil : c.emitted .takePendingMarkers = [] := drop_nil
    rw [hnil]
    exact .stays
  · obtain ⟨new, hnew, hmoves⟩ := moved_step hkey hk
    rw [emitted, hnew, drop_left]
    exact hmoves p

/-- A `begin` that succeeds opens a transaction and sends nothing. -/
theorem began_step (hb : c.began k p = true) : c.emitted k = [] ∧ ∃ epoch now,
    (c.step k).txns.lookup p = some (opened p epoch c.coordinatorEpoch now) := by
  cases k with
  | «begin» now r epoch =>
    simp only [began, Bool.and_eq_true, decide_eq_true_eq] at hb
    obtain ⟨rfl, hok⟩ := hb
    cases h : c.begin now r epoch with
    | error e => rw [h] at hok; cases hok
    | ok c' =>
      have hstep : c.step (.begin now r epoch) = c' := by rw [step, h, orSame]
      obtain ⟨-, rfl⟩ := begin_ok h
      rw [emitted, hstep]
      exact ⟨drop_length, epoch, now, lookup_put.trans (if_pos rfl)⟩
  | _ => cases hb

/-- Every transaction is sound, and stored under its producer. -/
structure Sound (c : TransactionCoordinator) : Prop where
  keyed : c.Keyed
  txn : ∀ p t, c.txns.lookup p = some t → t.Sound

theorem Moves.sound (h : Moves c k p r ms) (hc : c.Sound) (hr : r = some t) : t.Sound := by
  cases h with
  | stays => exact hc.txn p t hr
  | begins now epoch => cases hr; exact sound_opened ..
  | adds u now qs hu ho => cases hr; exact (hc.txn p u hu).add ho qs now
  | prepares u d now hu ho => cases hr; exact (hc.txn p u hu).prepare _ d now
  | acks u q hu hk hp => cases hr; exact (hc.txn p u hu).acknowledge hp q
  | resumes u hu hp => cases hr; exact ⟨(hc.txn p u hu).1, (hc.txn p u hu).2, (hc.txn p u hu).3⟩

theorem Moves.partitions {t' : TransactionMetadata} (h : Moves c k p r ms)
    (hb : c.began k p = false) (ht : c.txns.lookup p = some t) (hr : r = some t') :
    ∀ q ∈ t.partitions, q ∈ t'.partitions := by
  intro q hq
  cases h with
  | stays => cases ht.symm.trans hr; exact hq
  | begins now epoch hk => cases hb.symm.trans hk
  | adds u now qs hu => cases ht.symm.trans hu; cases hr; exact mem_add.mpr (.inr hq)
  | prepares u d now hu | acks u q hu | resumes u hu => cases ht.symm.trans hu; cases hr; exact hq

/-- The markers that a call sends go to partitions of their transaction. -/
theorem Moves.mem_partitions {m : MarkerWrite} (h : Moves c k p r ms) (hc : c.Sound)
    (hr : r = some t) (hm : m ∈ ms) : m.partition ∈ t.partitions := by
  cases h with
  | stays | begins | adds | acks => cases hm
  | prepares u d now => cases hr; exact (mem_markers hm).2.2.2
  | resumes u hu =>
    cases hr
    exact (hc.txn p u hu).sublist.subset (mem_markers hm).2.2.2

theorem step_of_error {e : Error} (h : c.result k = some (.error e)) : c.step k = c := by
  cases k <;> simp_all [result, step, orSame]

theorem Sound.step (hc : c.Sound) (k : Call) : (c.step k).Sound where
  keyed p _ := (moves_step hc.keyed k p).keyed hc.keyed
  txn p _ := (moves_step hc.keyed k p).sound hc

/-- A coordinator that has just been built. -/
def fresh (coordinatorEpoch txnTimeout : Int) : TransactionCoordinator :=
  { coordinatorEpoch, txnTimeout }

theorem sound_fresh (epoch timeout : Int) : (fresh epoch timeout).Sound :=
  ⟨fun _ _ h => (nomatch h), fun _ _ h => nomatch h⟩

theorem sound_run (epoch timeout : Int) (ks : List Call) :
    (run step (fresh epoch timeout) ks).Sound :=
  run_invariant (P := fun _ _ => True) (fun _ k hc _ => hc.step k) (sound_fresh epoch timeout)
    (along_of_forall (fun _ _ => trivial) _ _)

/-! ## Decisions that wait -/

/-- The transaction of `p` in that epoch and state waits for partition `q`. -/
def Waits (c : TransactionCoordinator) (p : ProducerId) (epoch : Int) (s : TransactionState)
    (q : TopicPartition) : Prop :=
  ∃ t, c.txns.lookup p = some t ∧ t.producerEpoch = epoch ∧ t.state = s ∧ q ∈ t.unackedPartitions

theorem Waits.step {epoch : Int} {s : TransactionState} (h : c.Waits p epoch s q)
    (hkey : c.Keyed) (hp : isPrepared s = true) (hb : c.began k p = false)
    (hk : k ≠ .onMarkerWritten p epoch q) : (c.step k).Waits p epoch s q := by
  obtain ⟨t, ht, rfl, rfl, hq⟩ := h
  have hmove := moves_step hkey k p
  unfold Waits
  generalize (c.step k).txns.lookup p = r at hmove ⊢
  generalize (c.emitted k).filter _ = ms at hmove
  cases hmove with
  | stays => exact ⟨t, ht, rfl, rfl, hq⟩
  | begins now epoch hk => cases hb.symm.trans hk
  | adds u now qs hu ho | prepares u d now hu ho =>
    cases ht.symm.trans hu
    rw [ho] at hp
    cases hp
  | acks u q' hu hk' =>
    cases ht.symm.trans hu
    have hne : q ≠ q' := fun heq => hk (heq ▸ hk')
    have hmem := mem_erasePartition_of_ne hne hq
    exact ⟨_, rfl, rfl, acknowledge_state_of_mem hmem, hmem⟩
  | resumes u hu =>
    cases ht.symm.trans hu
    exact ⟨_, rfl, rfl, rfl, hq⟩

/-- For each partition that the prepared transaction `t` waited for, and that no call has
acknowledged since, the transaction is known with its decision, and `resume_pending` sends the
marker of the partition once more. -/
def Remembers (c : TransactionCoordinator) (p : ProducerId) (t : TransactionMetadata)
    (since : List Call) : Prop :=
  ∀ q ∈ t.unackedPartitions, .onMarkerWritten p t.producerEpoch q ∉ since →
    c.Waits p t.producerEpoch t.state q ∧
    ⟨p, t.producerEpoch, c.coordinatorEpoch, decisionOf t.state, q⟩ ∈ c.emitted .resumePending

/-- Along a run, every decision is remembered until all its markers have been acknowledged,
exactly when no `begin` succeeds for a producer whose transaction is prepared. -/
theorem decisions_remembered_iff (epoch timeout : Int) (ks : List Call) :
    (∀ as bs cs, ks = as ++ bs ++ cs → ∀ p t,
      (run step (fresh epoch timeout) as).txns.lookup p = some t → isPrepared t.state = true →
      (run step (fresh epoch timeout) (as ++ bs)).Remembers p t bs) ↔
    ∀ as k cs, ks = as ++ [k] ++ cs → ∀ p t,
      (run step (fresh epoch timeout) as).txns.lookup p = some t → isPrepared t.state = true →
      (run step (fresh epoch timeout) as).began k p = false := by
  constructor
  · intro h as k cs heq p t ht hp
    by_contra hb
    rw [Bool.not_eq_false] at hb
    have hsound := (sound_run epoch timeout as).txn p t ht
    obtain ⟨q, hq⟩ := List.exists_mem_of_ne_nil _ (hsound.waits.mpr hp)
    have hno : Call.onMarkerWritten p t.producerEpoch q ∉ [k] := by
      rw [List.mem_singleton]
      rintro rfl
      cases hb
    obtain ⟨⟨u, hu, -, hstate, -⟩, -⟩ := h as [k] cs heq p t ht hp q hq hno
    -- the transaction that `begin` opened is in the place of the one that was decided
    obtain ⟨-, e, now, hopened⟩ := began_step hb
    rw [run_append, run_cons, run_nil, hopened] at hu
    rw [← hstate, ← Option.some.inj hu] at hp
    cases hp
  · intro h as bs cs heq p t ht hp q hq hno
    have hwaits :
        (run step (fresh epoch timeout) (as ++ bs)).Waits p t.producerEpoch t.state q := by
      induction bs using List.reverseRecOn generalizing cs with
      | nil =>
        rw [List.append_nil]
        exact ⟨t, ht, rfl, rfl, hq⟩
      | append_singleton bs k ih =>
        have hw := ih (k :: cs) (by simpa using heq) fun hmem => hno (List.mem_append_left _ hmem)
        obtain ⟨u, hu, -, hstate, -⟩ := id hw
        rw [← List.append_assoc, run_append, run_cons, run_nil]
        refine hw.step (sound_run epoch timeout _).keyed hp ?_ fun hk => ?_
        · exact h (as ++ bs) k cs (by simpa using heq) p u hu (hstate ▸ hp)
        · exact hno (List.mem_append_right _ (hk ▸ .head _))
    refine ⟨hwaits, ?_⟩
    obtain ⟨u, hu, hepoch, hstate, hq'⟩ := hwaits
    rw [← hepoch, ← hstate]
    exact mem_resumePending (sound_run epoch timeout _).keyed hu (hstate ▸ hp) hq'

/-- The producer commits, and begins again in its next epoch before the marker is acknowledged. -/
def begunOverDecision : List Call :=
  [.initProducerId 0 "app", .begin 0 0 0, .addPartitions 0 0 0 [⟨"orders", 0⟩], .commit 0 0 0,
    .initProducerId 0 "app", .begin 0 0 1]

/-- The commit is lost: the coordinator has no marker to send any more. -/
theorem commit_forgotten :
    ((run step (fresh 0 60000) (begunOverDecision.take 4)).txns.lookup 0).map
        (fun t => (t.state, t.unackedPartitions)) = some (.prepareCommit, [⟨"orders", 0⟩]) ∧
      (run step (fresh 0 60000) begunOverDecision).emitted .resumePending = [] ∧
      (run step (fresh 0 60000) begunOverDecision).decision 0 = none ∧
      begunOverDecision.all (fun k => k ≠ .onMarkerWritten 0 0 ⟨"orders", 0⟩) = true := by
  decide

end TransactionCoordinator

/-! ## The ledger -/

inductive LedgerEvent
  | call (k : TransactionCoordinator.Call)
  /-- The `i`-th marker sent is written to its partition. -/
  | write (i : Nat)

structure Ledger where
  coordinator : TransactionCoordinator
  /-- How many transactions of each producer have begun; the last of them is its current one. -/
  begun : ProducerId → Nat := fun _ => 0
  /-- The transactions, by producer and number, as the coordinator last had them. -/
  history : ProducerId → Nat → Option TransactionMetadata := fun _ _ => none
  /-- The markers sent, each with the number of its transaction. -/
  sent : List (Nat × MarkerWrite) := []
  written : List (Nat × MarkerWrite) := []

namespace Ledger

open TransactionMetadata TransactionCoordinator

def start (coordinatorEpoch txnTimeout : Int) : Ledger :=
  { coordinator := fresh coordinatorEpoch txnTimeout }

variable (s : Ledger)

/-- The number of the producer's transaction after a call. -/
def number (k : Call) (p : ProducerId) : Nat :=
  if s.coordinator.began k p then s.begun p + 1 else s.begun p

def call (k : Call) : Ledger :=
  { s with
    coordinator := s.coordinator.step k
    begun := s.number k
    history := fun p n =>
      if n = s.number k p then (s.coordinator.step k).txns.lookup p else s.history p n
    sent := s.sent ++ (s.coordinator.emitted k).map fun m => (s.number k m.producerId, m) }

def step : LedgerEvent → Ledger
  | .call k => s.call k
  | .write i => { s with written := s.written ++ s.sent[i]?.toList }

/-- What the markers say is what their transactions say. -/
structure Recorded : Prop where
  sound : s.coordinator.Sound
  past : ∀ p n t, s.history p n = some t → t.Sound
  current : ∀ p, s.history p (s.begun p) = s.coordinator.txns.lookup p
  later : ∀ p n, s.begun p < n → s.history p n = none
  marker : ∀ n m, (n, m) ∈ s.sent → ∃ t, s.history m.producerId n = some t ∧
    t.state.decision = some m.decision ∧ m.partition ∈ t.partitions

variable {s} {n : Nat}

theorem recorded_start (epoch timeout : Int) : (start epoch timeout).Recorded :=
  ⟨sound_fresh epoch timeout, fun _ _ _ h => (nomatch h), fun _ => rfl, fun _ _ _ => rfl,
    fun _ _ h => nomatch h⟩

/-- A transaction in the ledger keeps its decision and its partitions. -/
theorem Recorded.history_call {p : ProducerId} {t : TransactionMetadata}
    (h : s.Recorded) (k : Call) (ht : s.history p n = some t) :
    ∃ t', (s.call k).history p n = some t' ∧
      (t.state.decision = none ∨ t'.state.decision = t.state.decision) ∧
      ∀ q ∈ t.partitions, q ∈ t'.partitions := by
  change ∃ t', (if n = s.number k p then _ else _) = some t' ∧ _
  split
  · rename_i hn
    have hb : s.coordinator.began k p = false := by
      by_contra hb
      rw [number, if_pos (Bool.not_eq_false _ ▸ hb)] at hn
      rw [h.later p n (by omega)] at ht
      cases ht
    rw [hn, number, if_neg (by rw [hb]; decide), h.current] at ht
    have hmove := moves_step h.sound.keyed k p
    obtain ⟨t', ht'⟩ := hmove.exists ht
    refine ⟨t', ht', by simpa [decision, ht, ht'] using hmove.decision_eq hb, ?_⟩
    exact hmove.partitions hb ht ht'
  · exact ⟨t, ht, .inr rfl, fun _ hq => hq⟩

theorem Recorded.call (h : s.Recorded) (k : Call) : (s.call k).Recorded where
  sound := h.sound.step k
  past p n t ht := by
    change (if n = s.number k p then _ else _) = some t at ht
    split at ht
    · exact (h.sound.step k).txn p t ht
    · exact h.past p n t ht
  current p := if_pos rfl
  later p n hn := by
    have hlt : s.number k p < n := hn
    refine (if_neg (by omega)).trans (h.later p n ?_)
    unfold number at hlt
    split at hlt <;> omega
  marker n m hm := by
    rcases mem_append.mp hm with hm | hm
    · obtain ⟨t, ht, hd, hq⟩ := h.marker n m hm
      obtain ⟨t', ht', hdec, hparts⟩ := h.history_call k ht
      exact ⟨t', ht', (hdec.resolve_left (by simp [hd])).trans hd, hparts _ hq⟩
    · obtain ⟨m, hnew, heq⟩ := mem_map.mp hm
      obtain ⟨rfl, rfl⟩ := Prod.mk.inj heq
      have hmove := moves_step h.sound.keyed k m.producerId
      have hmem : m ∈ (s.coordinator.emitted k).filter fun m' => m'.producerId = m.producerId :=
        mem_filter.mpr ⟨hnew, decide_eq_true rfl⟩
      obtain ⟨t, ht, hd⟩ := Option.bind_eq_some_iff.mp (hmove.decision hmem)
      exact ⟨t, (if_pos rfl).trans ht, hd, hmove.mem_partitions h.sound ht hmem⟩

theorem Recorded.step (h : s.Recorded) (e : LedgerEvent) : (s.step e).Recorded := by
  cases e with
  | call k => exact h.call k
  | write i => exact ⟨h.sound, h.past, h.current, h.later, h.marker⟩

theorem recorded_run (epoch timeout : Int) (es : List LedgerEvent) :
    (run step (start epoch timeout) es).Recorded :=
  run_invariant (P := fun _ _ => True) (fun _ e h _ => h.step e) (recorded_start epoch timeout)
    (along_of_forall (fun _ _ => trivial) _ _)

/-- The invariants of the coordinator, over every sequence of calls: partitions strictly in order
and those not acknowledged a sublist of them, prepared exactly while a decided transaction waits
for acknowledgements; the markers of a transaction carry its one decision and name its partitions;
and a call that answers with an error changes nothing. -/
theorem coordinator_invariants (epoch timeout : Int) (es : List LedgerEvent) :
    let s := run step (start epoch timeout) es
    (∀ p t, s.coordinator.txns.lookup p = some t →
      t.partitions.Pairwise (· < ·) ∧ t.unackedPartitions.Pairwise (· < ·) ∧
      t.unackedPartitions.Sublist t.partitions ∧
      (isPrepared t.state = true ↔
        t.state.decision.isSome = true ∧ t.unackedPartitions ≠ []) ∧
      (t.state = .completeCommit ∨ t.state = .completeAbort → t.unackedPartitions = [])) ∧
    (∀ n m, (n, m) ∈ s.sent → ∃ t, s.history m.producerId n = some t ∧
      t.state.decision = some m.decision ∧ m.partition ∈ t.partitions) ∧
    (∀ n m m', (n, m) ∈ s.sent → (n, m') ∈ s.sent → m.producerId = m'.producerId →
      m.decision = m'.decision) ∧
    ∀ k e, s.coordinator.result k = some (.error e) → s.coordinator.step k = s.coordinator := by
  intro s
  have h : s.Recorded := recorded_run epoch timeout es
  refine ⟨fun p t ht => ?_, h.marker, fun n m m' hm hm' hp => ?_, fun k e => step_of_error⟩
  · obtain ⟨hsorted, hsub, hwaits⟩ := h.sound.txn p t ht
    refine ⟨hsorted, hsorted.sublist hsub, hsub, ?_, fun hover => ?_⟩
    · rw [← hwaits]
      refine ⟨fun hne => ⟨?_, hne⟩, fun h => h.2⟩
      rw [decision_of_isPrepared (hwaits.mp hne)]
      rfl
    · by_contra hne
      have hp := hwaits.mp hne
      rcases hover with hover | hover <;> rw [hover] at hp <;> cases hp
  · obtain ⟨t, ht, hd, -⟩ := h.marker n m hm
    obtain ⟨t', ht', hd', -⟩ := h.marker n m' hm'
    rw [hp, ht'] at ht
    cases ht
    exact Option.some.inj (hd.symm.trans hd')

/-! ## Acknowledgements -/

/-- A marker of that producer, epoch and partition was written, of a transaction in `ns`. -/
def wrote (s : Ledger) (ns : Nat → Bool) (p : ProducerId) (epoch : Int) (q : TopicPartition) :
    Bool :=
  s.written.any fun (n, m) =>
    ns n && m.producerId = p && m.producerEpoch = epoch && m.partition = q

/-- Only markers that were written are acknowledged. -/
def backed (s : Ledger) : LedgerEvent → Bool
  | .call (.onMarkerWritten p epoch q) => s.wrote (fun _ => true) p epoch q
  | _ => true

/-- An acknowledgement that the coordinator takes is for a marker of the transaction at hand. -/
def timely (s : Ledger) : LedgerEvent → Bool
  | .call (.onMarkerWritten p epoch q) =>
    (s.coordinator.txns.lookup p).all fun t =>
      epoch ≠ t.producerEpoch || !isPrepared t.state || q ∉ t.unackedPartitions ||
        s.wrote (· = s.begun p) p epoch q
  | _ => true

/-- Each partition that a decided transaction no longer waits for has a marker of it. -/
def Written (s : Ledger) : Prop :=
  ∀ p n t, s.history p n = some t → t.state.decision.isSome = true → ∀ q ∈ t.partitions,
    q ∉ t.unackedPartitions → ∃ m, (n, m) ∈ s.written ∧ m.producerId = p ∧ m.partition = q

theorem mem_of_wrote {p : ProducerId} {epoch : Int} {q : TopicPartition}
    (h : s.wrote (· = n) p epoch q = true) :
    ∃ m, (n, m) ∈ s.written ∧ m.producerId = p ∧ m.partition = q := by
  obtain ⟨⟨n', m⟩, hmem, hm⟩ := any_eq_true.mp h
  simp only [Bool.and_eq_true, decide_eq_true_eq] at hm
  obtain ⟨⟨⟨rfl, hp⟩, -⟩, hq⟩ := hm
  exact ⟨m, hmem, hp, hq⟩

theorem Written.call (h : s.Written) (hr : s.Recorded) {k : Call} (hk : s.timely (.call k) = true) :
    (s.call k).Written := by
  intro p n t ht hd q hq hnq
  change (if n = s.number k p then _ else _) = some t at ht
  split at ht
  swap
  · exact h p n t ht hd q hq hnq
  rename_i hn
  have hmove := moves_step hr.sound.keyed k p
  change ∃ m, (n, m) ∈ s.written ∧ _
  cases hb : s.coordinator.began k p with
  | true =>
    obtain ⟨-, e, now, hopened⟩ := began_step hb
    cases hopened.symm.trans ht
    cases hq
  | false =>
    rw [number, hb, if_neg (by decide)] at hn
    subst hn
    rw [ht] at hmove
    generalize hms : (s.coordinator.emitted k).filter _ = ms at hmove
    generalize hrt : some t = r at hmove
    have hprior : ∀ u, s.coordinator.txns.lookup p = some u → u.state.decision.isSome = true →
        u.partitions = t.partitions → q ∉ u.unackedPartitions →
        ∃ m, (s.begun p, m) ∈ s.written ∧ m.producerId = p ∧ m.partition = q :=
      fun u hu hdu hparts => h p _ u ((hr.current p).trans hu) hdu q (hparts ▸ hq)
    cases hmove with
    | stays => exact hprior t hrt.symm hd rfl hnq
    | begins now epoch hk => cases hb.symm.trans hk
    | adds u now qs hu ho =>
      cases hrt
      rw [show (u.add qs now).state = u.state from rfl, ho] at hd
      cases hd
    | prepares u d now hu ho =>
      cases hrt
      exact absurd hq hnq
    | acks u q' hu hk' hp hq' =>
      cases hrt
      by_cases hmem : q ∈ u.unackedPartitions
      · have heq : q = q' := by
          by_contra hne
          exact hnq (mem_erasePartition_of_ne hne hmem)
        subst heq
        subst hk'
        simp only [timely, hu, Option.all_some, hp, hq'] at hk
        exact mem_of_wrote (by simpa using hk)
      · rw [decision_acknowledge hp] at hd
        exact hprior u hu hd rfl hmem
    | resumes u hu hp =>
      cases hrt
      exact hprior u hu hd rfl hnq

theorem Written.step (h : s.Written) (hr : s.Recorded) {e : LedgerEvent} (he : s.timely e = true) :
    (s.step e).Written := by
  cases e with
  | call k => exact h.call hr he
  | write i =>
    intro p n t ht hd q hq hnq
    obtain ⟨m, hm, hfacts⟩ := h p n t ht hd q hq hnq
    exact ⟨m, mem_append_left _ hm, hfacts⟩

/-- When the coordinator takes no acknowledgement of an earlier transaction, a transaction is
complete only after a marker of it was written to each of its partitions. -/
theorem completed_written (epoch timeout : Int) (es : List LedgerEvent)
    (h : Along step (fun s e => s.timely e = true) (start epoch timeout) es) :
    let s := run step (start epoch timeout) es
    ∀ p n t, s.history p n = some t → t.state = .completeCommit ∨ t.state = .completeAbort →
      ∀ q ∈ t.partitions, ∃ m, (n, m) ∈ s.written ∧ m.producerId = p ∧ m.partition = q := by
  intro s p n t ht hover q hq
  have hinv : s.Recorded ∧ s.Written :=
    run_invariant (I := fun s => s.Recorded ∧ s.Written)
      (fun s e hs he => ⟨hs.1.step e, hs.2.step hs.1 he⟩)
      ⟨recorded_start epoch timeout, fun _ _ _ h => nomatch h⟩ h
  refine hinv.2 p n t ht ?_ q hq fun hmem => ?_
  · rcases hover with hover | hover <;> rw [hover] <;> rfl
  · have hp := (hinv.1.past p n t ht).waits.mp (List.ne_nil_of_mem hmem)
    rcases hover with hover | hover <;> rw [hover] at hp <;> cases hp

/-- A transaction over one partition, the failover that sends its marker again, and the next
transaction of the same producer and epoch. -/
def lateMarker : List LedgerEvent :=
  [.call (.initProducerId 0 "app"), .call (.begin 0 0 0),
    .call (.addPartitions 0 0 0 [⟨"orders", 0⟩]), .call (.commit 0 0 0), .call .resumePending,
    .call .takePendingMarkers, .write 0, .call (.onMarkerWritten 0 0 ⟨"orders", 0⟩),
    .call (.begin 0 0 0), .call (.addPartitions 0 0 0 [⟨"orders", 0⟩]), .call (.commit 0 0 0),
    .write 1, .call (.onMarkerWritten 0 0 ⟨"orders", 0⟩)]

/-- All but the last of them are timely. -/
theorem completed_written_first :
    let s := run step (start 0 60000) (lateMarker.take 12)
    ∀ p n t, s.history p n = some t → t.state = .completeCommit ∨ t.state = .completeAbort →
      ∀ q ∈ t.partitions, ∃ m, (n, m) ∈ s.written ∧ m.producerId = p ∧ m.partition = q :=
  completed_written 0 60000 (lateMarker.take 12) (by decide)

/-- The second marker of the first transaction completes the second one: both are acknowledged
only after they were written, and no marker of the second transaction ever was. -/
theorem completed_unwritten :
    Along step (fun s e => s.backed e = true) (start 0 60000) lateMarker ∧
      ((run step (start 0 60000) lateMarker).history 0 2).map (fun t => (t.state, t.partitions)) =
        some (.completeCommit, [⟨"orders", 0⟩]) ∧
      (run step (start 0 60000) lateMarker).written.all (fun (n, _) => n = 1) = true := by
  decide

end Ledger

end Nexus
