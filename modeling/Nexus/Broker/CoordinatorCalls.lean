import Mathlib.Data.List.Induction
import Mathlib.Tactic.Tauto
import Nexus.Broker.TransactionCoordinator

/-!
# Calls of the transaction coordinator

What a call of `broker/transaction_coordinator.cpp` can do, told once for all calls: `Moves` lists
what may become of one producer's transaction and which markers are queued for it, and `moved_step`
says that every call moves every producer's transaction in one of these ways. The loops of `tick`
and `resume_pending` give each producer one turn (`turns_spec`). From there `Evolves`: a call that
opens and acknowledges nothing takes no decision back and gives no partition up.
-/

namespace Nexus

open List

namespace TransactionMetadata

variable {t : TransactionMetadata} {q : TopicPartition}

/-- The transaction that `begin` opens. -/
def opened (p : ProducerId) (epoch coordinatorEpoch now : Int) : TransactionMetadata :=
  { producerId := p, producerEpoch := epoch, coordinatorEpoch, lastUpdate := now }

/-- What `add_partitions` makes of a transaction. -/
def add (t : TransactionMetadata) (qs : List TopicPartition) (now : Int) : TransactionMetadata :=
  { t with
    partitions := qs.foldl (fun l q => insertPartition q l) t.partitions
    lastUpdate := now }

/-- What `enter_prepare` makes of it. -/
def prepare (t : TransactionMetadata) (coordinatorEpoch : Int) (d : ControlRecordType)
    (now : Int) : TransactionMetadata :=
  { t with
    state := if t.partitions = [] then completeStateOf d else prepareStateOf d
    coordinatorEpoch
    unackedPartitions := t.partitions
    lastUpdate := now }

/-- What an acknowledgement makes of it. -/
def acknowledge (t : TransactionMetadata) (q : TopicPartition) : TransactionMetadata :=
  let unacked := erasePartition q t.unackedPartitions
  { t with
    unackedPartitions := unacked
    state := if unacked = [] then completeStateOf (decisionOf t.state) else t.state }

/-- The markers of `enqueue_markers`. -/
def markers (t : TransactionMetadata) (coordinatorEpoch : Int) (d : ControlRecordType) :
    List MarkerWrite :=
  t.unackedPartitions.map fun q => ⟨t.producerId, t.producerEpoch, coordinatorEpoch, d, q⟩

theorem mem_add {qs : List TopicPartition} {now : Int} :
    q ∈ (t.add qs now).partitions ↔ q ∈ qs ∨ q ∈ t.partitions := by
  change q ∈ qs.foldl (fun l q => insertPartition q l) t.partitions ↔ _
  generalize t.partitions = l
  induction qs generalizing l with
  | nil => simp
  | cons r qs ih =>
    rw [foldl_cons, ih, mem_insertPartition, mem_cons]
    tauto

theorem prepare_state_of_mem {coordinatorEpoch now : Int} {d : ControlRecordType}
    (hq : q ∈ t.partitions) : (t.prepare coordinatorEpoch d now).state = prepareStateOf d :=
  if_neg (ne_nil_of_mem hq)

theorem acknowledge_state_of_mem {r : TopicPartition}
    (hr : r ∈ erasePartition q t.unackedPartitions) : (t.acknowledge q).state = t.state :=
  if_neg (ne_nil_of_mem hr)

theorem decision_of_isPrepared {s : TransactionState} (h : isPrepared s = true) :
    s.decision = some (decisionOf s) := by
  cases s <;> first | rfl | cases h

theorem decision_acknowledge (hp : isPrepared t.state = true) :
    (t.acknowledge q).state.decision = t.state.decision := by
  unfold acknowledge
  dsimp only
  split
  · rw [TransactionState.decision_complete, decision_of_isPrepared hp]
  · rfl

end TransactionMetadata

namespace TransactionCoordinator

open TransactionMetadata

variable {epoch : Int} {d : ControlRecordType} {p : ProducerId}

/-! ## Calls -/

inductive Call
  | setCoordinatorEpoch (epoch : Int)
  | initProducerId (now : Int) (transactionalId : String)
  | begin (now : Int) (p : ProducerId) (epoch : Int)
  | addPartitions (now : Int) (p : ProducerId) (epoch : Int) (qs : List TopicPartition)
  | commit (now : Int) (p : ProducerId) (epoch : Int)
  | abort (now : Int) (p : ProducerId) (epoch : Int)
  | onMarkerWritten (p : ProducerId) (epoch : Int) (q : TopicPartition)
  | tick (now : Int)
  | resumePending
  | takePendingMarkers
  deriving DecidableEq

/-- What a call that may fail answers with, if it can. -/
def result (c : TransactionCoordinator) : Call → Option (Expected TransactionCoordinator)
  | .begin now p epoch => some (c.begin now p epoch)
  | .addPartitions now p epoch qs => some (c.addPartitions now p epoch qs)
  | .commit now p epoch => some (c.commit now p epoch)
  | .abort now p epoch => some (c.abort now p epoch)
  | _ => none

/-- The coordinator after a call that may fail: an error leaves it as it was. -/
def orSame (c : TransactionCoordinator) : Expected TransactionCoordinator → TransactionCoordinator
  | .ok c' => c'
  | .error _ => c

def step (c : TransactionCoordinator) : Call → TransactionCoordinator
  | .setCoordinatorEpoch epoch => c.setCoordinatorEpoch epoch
  | .initProducerId now tid => (c.initProducerId now tid).1
  | .begin now p epoch => c.orSame (c.begin now p epoch)
  | .addPartitions now p epoch qs => c.orSame (c.addPartitions now p epoch qs)
  | .commit now p epoch => c.orSame (c.commit now p epoch)
  | .abort now p epoch => c.orSame (c.abort now p epoch)
  | .onMarkerWritten p epoch q => c.onMarkerWritten p epoch q
  | .tick now => c.tick now
  | .resumePending => c.resumePending
  | .takePendingMarkers => c.takePendingMarkers.1

/-- The call is a `begin` of the producer that succeeds. -/
def began (c : TransactionCoordinator) (k : Call) (p : ProducerId) : Bool :=
  match k with
  | .begin now r epoch => r = p && (c.begin now r epoch).isOk
  | _ => false

/-- What a call can do to the transaction of producer `p`, with the markers for it that the call
puts in the queue. -/
inductive Moves (c : TransactionCoordinator) (k : Call) (p : ProducerId) :
    Option TransactionMetadata → List MarkerWrite → Prop
  | stays : Moves c k p (c.txns.lookup p) []
  /-- A new transaction replaces the last one. -/
  | begins (now epoch : Int) (hk : c.began k p = true) :
      Moves c k p (some (opened p epoch c.coordinatorEpoch now)) []
  | adds (t : TransactionMetadata) (now : Int) (qs : List TopicPartition)
      (ht : c.txns.lookup p = some t) (ho : t.state = .ongoing) :
      Moves c k p (some (t.add qs now)) []
  | prepares (t : TransactionMetadata) (d : ControlRecordType) (now : Int)
      (ht : c.txns.lookup p = some t) (ho : t.state = .ongoing) :
      Moves c k p (some (t.prepare c.coordinatorEpoch d now))
        ((t.prepare c.coordinatorEpoch d now).markers c.coordinatorEpoch d)
  | acks (t : TransactionMetadata) (q : TopicPartition) (ht : c.txns.lookup p = some t)
      (hk : k = .onMarkerWritten p t.producerEpoch q) (hp : isPrepared t.state = true)
      (hq : q ∈ t.unackedPartitions) : Moves c k p (some (t.acknowledge q)) []
  /-- The markers that are missing are sent once more. -/
  | resumes (t : TransactionMetadata) (ht : c.txns.lookup p = some t)
      (hp : isPrepared t.state = true) :
      Moves c k p (some { t with coordinatorEpoch := c.coordinatorEpoch })
        (t.markers c.coordinatorEpoch (decisionOf t.state))

/-- What a call did, seen from each producer. -/
def Moved (c : TransactionCoordinator) (k : Call) (c' : TransactionCoordinator) : Prop :=
  ∃ new, c'.pendingMarkers = c.pendingMarkers ++ new ∧
    ∀ p, Moves c k p (c'.txns.lookup p) (new.filter fun m => m.producerId = p)

variable {c c' : TransactionCoordinator} {k : Call} {t t' : TransactionMetadata}
  {ms : List MarkerWrite}

theorem moved_same (ht : c'.txns = c.txns) (hp : c'.pendingMarkers = c.pendingMarkers) :
    Moved c k c' :=
  ⟨[], by rw [hp, append_nil], fun p => ht ▸ .stays⟩

/-- A call that changes one transaction. -/
theorem moved_put (hm : Moves c k t.producerId (some t) ms)
    (hms : ∀ m ∈ ms, m.producerId = t.producerId)
    (hp : c'.pendingMarkers = c.pendingMarkers ++ ms) (hc : c'.txns = (c.put t).txns) :
    Moved c k c' := by
  refine ⟨ms, hp, fun p => ?_⟩
  rw [hc, lookup_put]
  by_cases hpt : p = t.producerId
  · rw [if_pos hpt, filter_eq_self.mpr fun m h => by simp [hms m h, hpt]]
    exact hpt ▸ hm
  · rw [if_neg hpt, filter_eq_nil_iff.mpr fun m h => by simp [hms m h, Ne.symm hpt]]
    exact .stays

theorem mem_markers {m : MarkerWrite} (h : m ∈ t.markers epoch d) :
    m.producerId = t.producerId ∧ m.decision = d ∧
      m.producerEpoch = t.producerEpoch ∧ m.partition ∈ t.unackedPartitions := by
  obtain ⟨q, hq, rfl⟩ := mem_map.mp h
  exact ⟨rfl, rfl, rfl, hq⟩

theorem enterPrepare_eq (c : TransactionCoordinator) (t : TransactionMetadata)
    (d : ControlRecordType) (now : Int) :
    c.enterPrepare t d now = (c.put (t.prepare c.coordinatorEpoch d now)).enqueueMarkers
      (t.prepare c.coordinatorEpoch d now) d := by
  unfold enterPrepare prepare
  dsimp only
  split
  · rename_i hnil
    simp [hnil, put, enqueueMarkers]
  · rfl

theorem moved_emit (hm : Moves c k t.producerId (some t) (t.markers c.coordinatorEpoch d)) :
    Moved c k ((c.put t).enqueueMarkers t d) := by
  have hpending : ((c.put t).enqueueMarkers t d).pendingMarkers =
      c.pendingMarkers ++ t.markers c.coordinatorEpoch d := rfl
  exact moved_put hm (fun m h => (mem_markers h).1) hpending rfl

theorem moved_enterPrepare (hkey : c.Keyed) (ht : c.txns.lookup p = some t)
    (ho : t.state = .ongoing) (d : ControlRecordType) (now : Int) :
    Moved c k (c.enterPrepare t d now) := by
  obtain rfl := hkey p t ht
  rw [enterPrepare_eq]
  exact moved_emit (.prepares t d now ht ho)

/-! ## Loops -/

/-- One turn of the loops of `tick` and `resume_pending`. -/
def turn (g : TransactionMetadata → Option (TransactionMetadata × ControlRecordType))
    (c : TransactionCoordinator) (p : ProducerId) : TransactionCoordinator :=
  match (c.txns.lookup p).bind g with
  | none => c
  | some (t, d) => (c.put t).enqueueMarkers t d

variable {g : TransactionMetadata → Option (TransactionMetadata × ControlRecordType)}
  {ps : List ProducerId}

/-- What the turn of `p` leaves: its transaction, and the markers for it. -/
def afterTurn (g : TransactionMetadata → Option (TransactionMetadata × ControlRecordType))
    (c : TransactionCoordinator) (p : ProducerId) : Option TransactionMetadata × List MarkerWrite :=
  match (c.txns.lookup p).bind g with
  | none => (c.txns.lookup p, [])
  | some (t, d) => (some t, t.markers c.coordinatorEpoch d)

/-- A loop over distinct producers gives each one its turn in the coordinator as it was. -/
theorem turns_spec (hkey : c.Keyed)
    (hg : ∀ t t' d, g t = some (t', d) → t'.producerId = t.producerId)
    (hnd : ps.Nodup) : (ps.foldl (turn g) c).coordinatorEpoch = c.coordinatorEpoch ∧
      ∃ new, (ps.foldl (turn g) c).pendingMarkers = c.pendingMarkers ++ new ∧ ∀ p,
        ((ps.foldl (turn g) c).txns.lookup p, new.filter fun m => m.producerId = p) =
          if p ∈ ps then afterTurn g c p else (c.txns.lookup p, []) := by
  induction ps using reverseRecOn with
  | nil => exact ⟨rfl, [], (append_nil _).symm, fun p => rfl⟩
  | append_singleton ps r ih =>
    rw [nodup_append] at hnd
    obtain ⟨hepoch, new, hp, hturns⟩ := ih hnd.1
    have hr : r ∉ ps := fun h => hnd.2.2 r h r (.head _) rfl
    have hsame := hturns r
    rw [if_neg hr, Prod.mk.injEq] at hsame
    rw [foldl_append, foldl_cons, foldl_nil]
    generalize ps.foldl (turn g) c = c' at hepoch hp hturns hsame ⊢
    unfold turn
    rw [hsame.1]
    have hmem : ∀ p, p ≠ r → (p ∈ ps ++ [r] ↔ p ∈ ps) := fun p hpr => by simp [hpr]
    have hself : r ∈ ps ++ [r] := mem_append_right _ (.head _)
    cases hbind : (c.txns.lookup r).bind g with
    | none =>
      refine ⟨hepoch, new, hp, fun p => ?_⟩
      by_cases hpr : p = r
      · rw [hpr, if_pos hself, afterTurn, hbind, hsame.1, hsame.2]
      · simp only [hturns p, hmem p hpr]
    | some out =>
      obtain ⟨t', d⟩ := out
      obtain ⟨t, hlookup, ht⟩ := Option.bind_eq_some_iff.mp hbind
      have hkeyed : t'.producerId = r := (hg t t' d ht).trans (hkey r t hlookup)
      have hpid : ∀ m ∈ t'.markers c.coordinatorEpoch d, m.producerId = r :=
        fun m h => (mem_markers h).1.trans hkeyed
      refine ⟨hepoch, new ++ t'.markers c.coordinatorEpoch d, ?_, fun p => ?_⟩
      · rw [← hepoch, ← append_assoc, ← hp]
        rfl
      change ((c'.put t').txns.lookup p, _) = _
      rw [lookup_put, filter_append]
      by_cases hpr : p = r
      · rw [hpr, if_pos hkeyed.symm, if_pos hself, afterTurn, hbind, hsame.2, nil_append,
          filter_eq_self.mpr fun m h => by simp [hpid m h]]
      · have hother : (t'.markers c.coordinatorEpoch d).filter (fun m => m.producerId = p) = [] :=
          filter_eq_nil_iff.mpr fun m h => by simp [hpid m h, Ne.symm hpr]
        rw [if_neg fun h => hpr (h.trans hkeyed), hother, append_nil]
        simp only [hturns p, hmem p hpr]

theorem moved_turns (hkey : c.Keyed)
    (hg : ∀ t t' d, g t = some (t', d) → t'.producerId = t.producerId)
    (hm : ∀ p t t' d, c.txns.lookup p = some t → g t = some (t', d) →
      Moves c k p (some t') (t'.markers c.coordinatorEpoch d))
    (hnd : ps.Nodup) : Moved c k (ps.foldl (turn g) c) := by
  obtain ⟨-, new, hp, hturns⟩ := turns_spec hkey hg hnd
  refine ⟨new, hp, fun p => ?_⟩
  have hturn := hturns p
  unfold afterTurn at hturn
  cases hbind : (c.txns.lookup p).bind g with
  | none =>
    rw [hbind, ite_self, Prod.mk.injEq] at hturn
    rw [hturn.1, hturn.2]
    exact .stays
  | some out =>
    obtain ⟨t, hlookup, ht⟩ := Option.bind_eq_some_iff.mp hbind
    rw [hbind] at hturn
    split at hturn
    all_goals rw [Prod.mk.injEq] at hturn; rw [hturn.1, hturn.2]
    · exact hm p t out.1 out.2 hlookup ht
    · exact .stays

/-- A turn leaves alone what the turns of the others read. -/
theorem foldl_eq_turns {f : TransactionCoordinator → ProducerId → TransactionCoordinator}
    {g : Int → Int → TransactionMetadata → Option (TransactionMetadata × ControlRecordType)}
    (hf : ∀ c p, f c p = turn (g c.coordinatorEpoch c.txnTimeout) c p)
    (c : TransactionCoordinator) (ps : List ProducerId) :
    ps.foldl f c = ps.foldl (turn (g c.coordinatorEpoch c.txnTimeout)) c := by
  induction ps generalizing c with
  | nil => rfl
  | cons p ps ih =>
    have hsame : (turn (g c.coordinatorEpoch c.txnTimeout) c p).coordinatorEpoch =
          c.coordinatorEpoch ∧
        (turn (g c.coordinatorEpoch c.txnTimeout) c p).txnTimeout = c.txnTimeout := by
      unfold turn
      split <;> exact ⟨rfl, rfl⟩
    rw [foldl_cons, foldl_cons, hf, ih, hsame.1, hsame.2]

/-- `tick` aborts an open transaction that has been silent for too long. -/
def expire (now coordinatorEpoch timeout : Int) (t : TransactionMetadata) :
    Option (TransactionMetadata × ControlRecordType) :=
  if t.state = .ongoing ∧ timeout < now - t.lastUpdate then
    some (t.prepare coordinatorEpoch .abort now, .abort)
  else none

/-- `resume_pending` sends the missing markers of a prepared transaction once more. -/
def resume (coordinatorEpoch _timeout : Int) (t : TransactionMetadata) :
    Option (TransactionMetadata × ControlRecordType) :=
  if isPrepared t.state then some ({ t with coordinatorEpoch }, decisionOf t.state) else none

theorem tick_eq (c : TransactionCoordinator) (now : Int) : c.tick now =
    c.txns.keys.foldl (turn (expire now c.coordinatorEpoch c.txnTimeout)) c := by
  refine foldl_eq_turns (fun c p => ?_) c _
  unfold tickOne turn expire
  cases c.txns.lookup p with
  | none => rfl
  | some t =>
    rw [Option.bind_some]
    dsimp only
    rw [enterPrepare_eq]
    split <;> rfl

theorem resumePending_eq (c : TransactionCoordinator) : c.resumePending =
    c.txns.keys.foldl (turn (resume c.coordinatorEpoch c.txnTimeout)) c := by
  refine foldl_eq_turns (fun c p => ?_) c _
  unfold resumeOne turn resume
  cases c.txns.lookup p with
  | none => rfl
  | some t =>
    rw [Option.bind_some]
    dsimp only
    split <;> rfl

theorem moved_tick (hkey : c.Keyed) (now : Int) : Moved c k (c.tick now) := by
  rw [tick_eq]
  refine moved_turns hkey (fun t t' d h => ?_) (fun p t t' d ht h => ?_) c.txns.nodupKeys
  · unfold expire at h
    split at h <;> cases h
    rfl
  · unfold expire at h
    split at h <;> cases h
    rename_i ho
    exact .prepares t .abort now ht ho.1

theorem resume_producerId {timeout : Int} (h : resume epoch timeout t = some (t', d)) :
    t'.producerId = t.producerId := by
  unfold resume at h
  split at h <;> cases h
  rfl

theorem moved_resumePending (hkey : c.Keyed) : Moved c k c.resumePending := by
  rw [resumePending_eq]
  refine moved_turns hkey (fun t t' d => resume_producerId) (fun p t t' d ht h => ?_)
    c.txns.nodupKeys
  unfold resume at h
  split at h <;> cases h
  rename_i hp
  exact .resumes t ht hp

/-- A marker for each partition that a prepared transaction waits for is sent once more. -/
theorem mem_resumePending {q : TopicPartition} (hkey : c.Keyed) (ht : c.txns.lookup p = some t)
    (hp : isPrepared t.state = true) (hq : q ∈ t.unackedPartitions) :
    ⟨p, t.producerEpoch, c.coordinatorEpoch, decisionOf t.state, q⟩ ∈
      c.resumePending.pendingMarkers.drop c.pendingMarkers.length := by
  have hnd : c.txns.keys.Nodup := c.txns.nodupKeys
  obtain ⟨-, new, hpending, hturns⟩ := turns_spec hkey (fun t t' d => resume_producerId) hnd
    (g := resume c.coordinatorEpoch c.txnTimeout)
  rw [resumePending_eq, hpending, drop_left]
  have hkeys : p ∈ c.txns.keys := AList.lookup_isSome.mp (by rw [ht]; rfl)
  have hnew := congrArg Prod.snd (hturns p)
  dsimp only at hnew
  obtain rfl := hkey p t ht
  have hmem : ⟨t.producerId, t.producerEpoch, c.coordinatorEpoch, decisionOf t.state, q⟩ ∈
      new.filter fun m => m.producerId = t.producerId := by
    rw [hnew, if_pos hkeys, afterTurn, ht, Option.bind_some, resume, if_pos hp]
    exact mem_map.mpr ⟨q, hq, rfl⟩
  exact (mem_filter.mp hmem).1

/-! ## Single calls -/

section

variable (hkey : c.Keyed)

include hkey

theorem moved_abortOngoing (p : ProducerId) (now : Int) :
    Moved c k (c.abortOngoing p now) := by
  unfold abortOngoing
  split
  · rename_i t ht
    split
    · exact moved_enterPrepare hkey ht (by assumption) .abort now
    · exact moved_same rfl rfl
  · exact moved_same rfl rfl

theorem moved_initProducerId (now : Int) (tid : String) :
    Moved c k (c.initProducerId now tid).1 := by
  unfold initProducerId
  split
  · exact moved_same rfl rfl
  · rename_i id _
    obtain ⟨new, hp, hm⟩ := moved_abortOngoing (k := k) hkey id.producerId now
    dsimp only
    split <;> exact ⟨new, hp, hm⟩

theorem moved_endTxn (d : ControlRecordType) (message : String) (now : Int)
    (p : ProducerId) (epoch : Int) : Moved c k (c.orSame (c.endTxn d message now p epoch)) := by
  unfold endTxn
  cases hr : c.require p epoch with
  | error e => exact moved_same rfl rfl
  | ok t =>
    obtain ⟨ht, -⟩ := require_ok hr
    simp only [bind, Except.bind]
    split
    · exact moved_same rfl rfl
    · rename_i ho
      exact moved_enterPrepare hkey ht (not_not.mp ho) d now

theorem moved_addPartitions (now : Int) (p : ProducerId) (epoch : Int)
    (qs : List TopicPartition) : Moved c k (c.orSame (c.addPartitions now p epoch qs)) := by
  unfold addPartitions
  cases hr : c.require p epoch with
  | error e => exact moved_same rfl rfl
  | ok t =>
    obtain ⟨ht, -⟩ := require_ok hr
    simp only [bind, Except.bind]
    split
    · exact moved_same rfl rfl
    · rename_i ho
      obtain rfl := hkey p t ht
      exact moved_put (t := t.add qs now) (.adds t now qs ht (not_not.mp ho)) (fun _ h => nomatch h)
        (append_nil _).symm rfl

end

/-- A successful `begin` puts an open transaction in the place of the producer's last one. -/
theorem begin_ok {now : Int} (h : c.begin now p epoch = .ok c') :
    c.fencedBy p epoch = false ∧
      c' = { c with
        currentEpoch := c.currentEpoch.insert p (max ((c.currentEpoch.lookup p).getD 0) epoch)
        }.put (opened p epoch c.coordinatorEpoch now) := by
  unfold TransactionCoordinator.begin at h
  split at h
  · cases h
  rename_i hf
  split at h
  · cases h
  · exact ⟨Bool.eq_false_iff.mpr hf, (Except.ok.inj h).symm⟩

theorem moved_begin (now : Int) (p : ProducerId) (epoch : Int) :
    Moved c (.begin now p epoch) (c.orSame (c.begin now p epoch)) := by
  cases hb : c.begin now p epoch with
  | error e => exact moved_same rfl rfl
  | ok c' =>
    have hbegan : c.began (.begin now p epoch) p = true := by
      simp [began, hb, Except.isOk, Except.toBool]
    obtain ⟨-, rfl⟩ := begin_ok hb
    exact moved_put (t := opened p epoch c.coordinatorEpoch now) (.begins now epoch hbegan)
      (fun _ h => nomatch h) (append_nil _).symm rfl

theorem moved_onMarkerWritten (hkey : c.Keyed) (p : ProducerId) (epoch : Int)
    (q : TopicPartition) :
    Moved c (.onMarkerWritten p epoch q) (c.onMarkerWritten p epoch q) := by
  unfold onMarkerWritten
  split
  · exact moved_same rfl rfl
  rename_i t ht
  split
  · exact moved_same rfl rfl
  rename_i hne
  split
  · exact moved_same rfl rfl
  rename_i hq
  obtain ⟨rfl, hp⟩ : epoch = t.producerEpoch ∧ isPrepared t.state = true := by simpa using hne
  obtain rfl := hkey p t ht
  exact moved_put (t := t.acknowledge q) (.acks t q ht rfl hp (not_not.mp hq))
    (fun _ h => nomatch h) (append_nil _).symm rfl

/-- Every call moves each producer's transaction in one of the ways of `Moves`. -/
theorem moved_step (hkey : c.Keyed) (hk : k ≠ .takePendingMarkers) : Moved c k (c.step k) := by
  cases k with
  | setCoordinatorEpoch epoch => exact moved_same rfl rfl
  | initProducerId now tid => exact moved_initProducerId hkey now tid
  | «begin» now p epoch => exact moved_begin now p epoch
  | addPartitions now p epoch qs => exact moved_addPartitions hkey now p epoch qs
  | commit now p epoch => exact moved_endTxn hkey .commit _ now p epoch
  | abort now p epoch => exact moved_endTxn hkey .abort _ now p epoch
  | onMarkerWritten p epoch q => exact moved_onMarkerWritten hkey p epoch q
  | tick now => exact moved_tick hkey now
  | resumePending => exact moved_resumePending hkey
  | takePendingMarkers => exact absurd rfl hk

/-! ## What every call keeps -/

section Moves

variable {p : ProducerId} {r : Option TransactionMetadata}

section

variable (h : Moves c k p r ms)

include h

theorem Moves.keyed (hkey : c.Keyed) (ht : r = some t) :
    t.producerId = p := by
  cases h with
  | stays => exact hkey p t ht
  | begins now epoch => cases ht; rfl
  | adds u now qs hu | prepares u d now hu | acks u q hu | resumes u hu =>
    cases ht
    exact hkey p u hu

theorem Moves.exists (ht : c.txns.lookup p = some t) :
    ∃ t', r = some t' := by
  cases h with
  | stays => exact ⟨t, ht⟩
  | begins | adds | prepares | acks | resumes => exact ⟨_, rfl⟩

/-- A decision stays. -/
theorem Moves.decision_eq (hb : c.began k p = false) :
    c.decision p = none ∨ r.bind (·.state.decision) = c.decision p := by
  unfold decision
  cases h with
  | stays => exact .inr rfl
  | begins now epoch hk => cases hb.symm.trans hk
  | adds t now qs ht ho | prepares t d now ht ho =>
    exact .inl (by rw [ht, Option.bind_some, ho]; rfl)
  | acks t q ht hk hp hq => exact .inr (by rw [ht]; exact decision_acknowledge hp)
  | resumes t ht hp => exact .inr (by rw [ht]; rfl)

/-- The markers that a call sends carry the decision of their transaction. -/
theorem Moves.decision {m : MarkerWrite} (hm : m ∈ ms) :
    r.bind (·.state.decision) = some m.decision := by
  cases h with
  | stays | begins | adds | acks => cases hm
  | prepares t d now ht ho =>
    obtain ⟨-, hd, -, hq⟩ := mem_markers hm
    rw [hd, Option.bind_some, prepare_state_of_mem hq, TransactionState.decision_prepare]
  | resumes t ht hp =>
    rw [(mem_markers hm).2.1, Option.bind_some, decision_of_isPrepared hp]

end

end Moves

/-! ## Calls that keep what was decided -/

end TransactionCoordinator

end Nexus
