import Mathlib.Data.List.AList
import Mathlib.Data.Prod.Lex
import Mathlib.Data.String.Basic
import Nexus.Broker.PartitionTxnIndex

/-!
# The transaction coordinator

`broker/transaction_coordinator.cpp`: the state machine of the two-phase commit of transactions
over several partitions. It performs no I/O: the orders to write a marker are left in a queue,
which the carrier drains with `take_pending_markers`.

Hash maps are association lists with distinct keys. The loops over them run in the order of the
list; the source leaves the order open, and it only shows in the order of the queue.
-/

namespace Nexus

structure TopicPartition where
  topic : String
  partition : Int := 0
  deriving DecidableEq

/-- The order of `operator<=>`: by topic, then by partition. -/
instance : LinearOrder TopicPartition :=
  LinearOrder.lift' (fun t => toLex (t.topic, t.partition)) (by
    rintro ⟨a, b⟩ ⟨c, d⟩ h
    simpa using h)

/-- Insertion at `lower_bound`, unless the partition is already there. -/
def insertPartition (q : TopicPartition) : List TopicPartition → List TopicPartition
  | [] => [q]
  | r :: l =>
    if r < q then r :: insertPartition q l else if r = q then r :: l else q :: r :: l

/-- Removal at `lower_bound`, if the partition is there. -/
def erasePartition (q : TopicPartition) : List TopicPartition → List TopicPartition
  | [] => []
  | r :: l =>
    if r < q then r :: erasePartition q l else if r = q then l else r :: l

variable {l : List TopicPartition}

theorem mem_insertPartition {q r : TopicPartition} :
    r ∈ insertPartition q l ↔ r = q ∨ r ∈ l := by
  induction l with
  | nil => simp [insertPartition]
  | cons a l ih =>
    rw [insertPartition]
    split
    · simp only [List.mem_cons, ih]
      tauto
    · split
      · simp only [List.mem_cons]
        rename_i h
        subst h
        tauto
      · simp

theorem mem_erasePartition_of_ne {q r : TopicPartition} (hne : r ≠ q)
    (h : r ∈ l) : r ∈ erasePartition q l := by
  induction l with
  | nil => simp at h
  | cons a l ih =>
    rw [erasePartition]
    rcases List.mem_cons.mp h with rfl | h
    · split <;> simp
    · split
      · exact List.mem_cons_of_mem _ (ih h)
      · split
        · exact h
        · exact List.mem_cons_of_mem _ h

inductive TransactionState
  | ongoing | prepareCommit | prepareAbort | completeCommit | completeAbort
  deriving DecidableEq

structure TransactionMetadata where
  producerId : ProducerId := -1
  producerEpoch : Int := -1
  state : TransactionState := .ongoing
  partitions : List TopicPartition := []
  unackedPartitions : List TopicPartition := []
  coordinatorEpoch : Int := 0
  lastUpdate : Int := 0
  deriving DecidableEq

structure MarkerWrite where
  producerId : ProducerId := -1
  producerEpoch : Int := -1
  coordinatorEpoch : Int := 0
  decision : ControlRecordType := .abort
  partition : TopicPartition
  deriving DecidableEq

structure ProducerIdentity where
  producerId : ProducerId := -1
  producerEpoch : Int := -1
  deriving DecidableEq

def prepareStateOf : ControlRecordType → TransactionState
  | .commit => .prepareCommit
  | .abort => .prepareAbort

def completeStateOf : ControlRecordType → TransactionState
  | .commit => .completeCommit
  | .abort => .completeAbort

def isPrepared (s : TransactionState) : Bool := s = .prepareCommit ∨ s = .prepareAbort

def decisionOf (s : TransactionState) : ControlRecordType :=
  if s = .prepareCommit then .commit else .abort

/-- `std::numeric_limits<std::int16_t>::max()`. -/
def kMaxProducerEpoch : Int := 32767

structure TransactionCoordinator where
  coordinatorEpoch : Int := 0
  txnTimeout : Int := 60000
  nextProducerId : ProducerId := 0
  identities : AList (fun _ : String => ProducerIdentity) := ∅
  currentEpoch : AList (fun _ : ProducerId => Int) := ∅
  txns : AList (fun _ : ProducerId => TransactionMetadata) := ∅
  pendingMarkers : List MarkerWrite := []

namespace TransactionCoordinator

variable (c : TransactionCoordinator)

def setCoordinatorEpoch (epoch : Int) : TransactionCoordinator :=
  { c with coordinatorEpoch := epoch }

/-- A change to the metadata of a transaction, in place. -/
def put (t : TransactionMetadata) : TransactionCoordinator :=
  { c with txns := c.txns.insert t.producerId t }

def enqueueMarkers (t : TransactionMetadata) (decision : ControlRecordType) :
    TransactionCoordinator :=
  { c with
    pendingMarkers := c.pendingMarkers ++ t.unackedPartitions.map fun q =>
      ⟨t.producerId, t.producerEpoch, c.coordinatorEpoch, decision, q⟩ }

def enterPrepare (t : TransactionMetadata) (decision : ControlRecordType) (now : Int) :
    TransactionCoordinator :=
  let t := { t with
    state := prepareStateOf decision
    coordinatorEpoch := c.coordinatorEpoch
    unackedPartitions := t.partitions
    lastUpdate := now }
  if t.unackedPartitions = [] then c.put { t with state := completeStateOf decision }
  else (c.put t).enqueueMarkers t decision

/-- The fencing of the previous incarnation: its open transaction is aborted. -/
def abortOngoing (p : ProducerId) (now : Int) : TransactionCoordinator :=
  match c.txns.lookup p with
  | some t => if t.state = .ongoing then c.enterPrepare t .abort now else c
  | none => c

def initProducerId (now : Int) (transactionalId : String) :
    TransactionCoordinator × ProducerIdentity :=
  match c.identities.lookup transactionalId with
  | none =>
    let id : ProducerIdentity := ⟨c.nextProducerId, 0⟩
    ({ c with
        nextProducerId := c.nextProducerId + 1
        identities := c.identities.insert transactionalId id
        currentEpoch := c.currentEpoch.insert id.producerId id.producerEpoch }, id)
  | some id =>
    let c := c.abortOngoing id.producerId now
    if id.producerEpoch = kMaxProducerEpoch then
      let id : ProducerIdentity := ⟨c.nextProducerId, 0⟩
      ({ c with
          nextProducerId := c.nextProducerId + 1
          identities := c.identities.insert transactionalId id
          currentEpoch := c.currentEpoch.insert id.producerId id.producerEpoch }, id)
    else
      let id := { id with producerEpoch := id.producerEpoch + 1 }
      ({ c with
          identities := c.identities.insert transactionalId id
          currentEpoch := c.currentEpoch.insert id.producerId id.producerEpoch }, id)

/-- An epoch below the one in force is fenced. -/
def fencedBy (p : ProducerId) (epoch : Int) : Bool :=
  (c.currentEpoch.lookup p).any (epoch < ·)

/-- `begin` refuses to reopen a transaction of the same epoch that is not over. -/
def inProgress (p : ProducerId) (epoch : Int) : Bool :=
  (c.txns.lookup p).any fun cur =>
    epoch = cur.producerEpoch ∧ cur.state ≠ .completeCommit ∧ cur.state ≠ .completeAbort

def begin (now : Int) (p : ProducerId) (epoch : Int) : Expected TransactionCoordinator :=
  if c.fencedBy p epoch then makeError .fenced "begin: época obsoleta"
  else if c.inProgress p epoch then
    makeError .invalidArgument "begin: ya hay una transacción en curso"
  else
    -- `current_epoch_[producer_id]` reads 0 where there is no entry
    let current := max ((c.currentEpoch.lookup p).getD 0) epoch
    .ok ({ c with currentEpoch := c.currentEpoch.insert p current }.put
      { producerId := p, producerEpoch := epoch, coordinatorEpoch := c.coordinatorEpoch,
        lastUpdate := now })

def require (p : ProducerId) (epoch : Int) : Expected TransactionMetadata :=
  if c.fencedBy p epoch then makeError .fenced "época obsoleta"
  else
    match c.txns.lookup p with
    | none => makeError .notFound "transacción inexistente"
    | some t =>
      if epoch < t.producerEpoch then makeError .fenced "época obsoleta"
      else if t.producerEpoch < epoch then
        makeError .invalidArgument "época adelantada sin begin"
      else .ok t

def addPartitions (now : Int) (p : ProducerId) (epoch : Int) (partitions : List TopicPartition) :
    Expected TransactionCoordinator := do
  let t ← c.require p epoch
  if t.state ≠ .ongoing then
    makeError .invalidArgument "add_partitions: la transacción no está abierta"
  else
    .ok (c.put { t with
      partitions := partitions.foldl (fun l q => insertPartition q l) t.partitions
      lastUpdate := now })

/-- `commit` and `abort`, with the text of their error. -/
def endTxn (decision : ControlRecordType) (message : String) (now : Int) (p : ProducerId)
    (epoch : Int) : Expected TransactionCoordinator := do
  let t ← c.require p epoch
  if t.state ≠ .ongoing then makeError .invalidArgument message
  else .ok (c.enterPrepare t decision now)

def commit (now : Int) (p : ProducerId) (epoch : Int) : Expected TransactionCoordinator :=
  c.endTxn .commit "commit: la transacción no está abierta" now p epoch

def abort (now : Int) (p : ProducerId) (epoch : Int) : Expected TransactionCoordinator :=
  c.endTxn .abort "abort: la transacción no está abierta" now p epoch

def onMarkerWritten (p : ProducerId) (epoch : Int) (q : TopicPartition) :
    TransactionCoordinator :=
  match c.txns.lookup p with
  | none => c
  | some t =>
    if epoch ≠ t.producerEpoch ∨ isPrepared t.state = false then c
    else if q ∉ t.unackedPartitions then c
    else
      let unacked := erasePartition q t.unackedPartitions
      c.put { t with
        unackedPartitions := unacked
        state := if unacked = [] then completeStateOf (decisionOf t.state) else t.state }

/-- The turn of `tick` for one producer. -/
def tickOne (now : Int) (p : ProducerId) : TransactionCoordinator :=
  match c.txns.lookup p with
  | some t =>
    if t.state = .ongoing ∧ c.txnTimeout < now - t.lastUpdate then c.enterPrepare t .abort now
    else c
  | none => c

def tick (now : Int) : TransactionCoordinator :=
  c.txns.keys.foldl (fun c p => c.tickOne now p) c

/-- The turn of `resume_pending` for one producer. -/
def resumeOne (p : ProducerId) : TransactionCoordinator :=
  match c.txns.lookup p with
  | some t =>
    if isPrepared t.state then
      let t := { t with coordinatorEpoch := c.coordinatorEpoch }
      (c.put t).enqueueMarkers t (decisionOf t.state)
    else c
  | none => c

def resumePending : TransactionCoordinator :=
  c.txns.keys.foldl (fun c p => c.resumeOne p) c

def takePendingMarkers : TransactionCoordinator × List MarkerWrite :=
  ({ c with pendingMarkers := [] }, c.pendingMarkers)

end TransactionCoordinator

/-! ## Decisions -/

/-- What a state says about the outcome of the transaction. -/
def TransactionState.decision : TransactionState → Option ControlRecordType
  | .ongoing => none
  | .prepareCommit | .completeCommit => some .commit
  | .prepareAbort | .completeAbort => some .abort

/-- The decision that the state holds for the current transaction of a producer. -/
def TransactionCoordinator.decision (c : TransactionCoordinator) (p : ProducerId) :
    Option ControlRecordType :=
  (c.txns.lookup p).bind (·.state.decision)

theorem TransactionState.decision_prepare (d : ControlRecordType) :
    (prepareStateOf d).decision = some d := by
  cases d <;> rfl

theorem TransactionState.decision_complete (d : ControlRecordType) :
    (completeStateOf d).decision = some d := by
  cases d <;> rfl

namespace TransactionCoordinator

variable {c : TransactionCoordinator} {t : TransactionMetadata} {p : ProducerId}

/-- Every transaction is stored under its producer. -/
def Keyed (c : TransactionCoordinator) : Prop :=
  ∀ p t, c.txns.lookup p = some t → t.producerId = p

theorem lookup_put : (c.put t).txns.lookup p =
    if p = t.producerId then some t else c.txns.lookup p := by
  by_cases hp : p = t.producerId
  · subst hp; simp [put]
  · simp [put, hp]

theorem require_ok {epoch : Int} (h : c.require p epoch = .ok t) :
    c.txns.lookup p = some t ∧ t.producerEpoch = epoch := by
  unfold require at h
  split at h
  · cases h
  split at h
  · cases h
  split at h
  · cases h
  split at h
  · cases h
  · cases h
    exact ⟨by assumption, by omega⟩

end TransactionCoordinator

end Nexus
