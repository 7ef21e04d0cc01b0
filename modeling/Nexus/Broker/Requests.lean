import Nexus.Broker.ReplicatedPartition
import Nexus.Consensus.Safety

/-!
# Produce and fetch requests

The handlers of `broker/request_router.cpp` and `server/kafka_adapter.cpp` for a replicated
partition, from the partition that the request names (if there is one) to the answer.
-/

namespace Nexus

/-- The answers of the native protocol that these handlers give. -/
inductive WireError
  | none | leaderNotAvailable | unknownTopicOrPartition | offsetOutOfRange | corruptMessage
  | unsupportedVersion | invalidRequest | invalidProducerEpoch
  deriving DecidableEq

def WireError.fromError (e : Error) : WireError :=
  match e.code with
  | .corrupt => .corruptMessage
  | .outOfRange => .offsetOutOfRange
  | .notFound => .unknownTopicOrPartition
  | .unsupported => .unsupportedVersion
  | .invalidArgument => .invalidRequest
  | .fenced => .invalidProducerEpoch
  | .ioError | .outOfSpace | .shutdown => .leaderNotAvailable

/-- `kafka::KafkaError` and its number on the wire. -/
inductive KafkaError
  | none | unknown | offsetOutOfRange | corruptMessage | unknownTopicOrPartition | invalidRequest
  deriving DecidableEq

namespace KafkaError

def toWire : KafkaError → Int
  | none => 0
  | unknown => -1
  | offsetOutOfRange => 1
  | corruptMessage => 2
  | unknownTopicOrPartition => 3
  | invalidRequest => 42

/-- `to_kafka_error`. -/
def ofErrorCode : ErrorCode → KafkaError
  | .corrupt => .corruptMessage
  | .outOfRange => .offsetOutOfRange
  | .notFound => .unknownTopicOrPartition
  | .invalidArgument => .invalidRequest
  | .ioError | .outOfSpace | .unsupported | .shutdown | .fenced => .unknown

end KafkaError

namespace ReplicatedPartition

/-- `claim_protocol`: the first write decides whose records the partition holds. -/
def claimProtocol (p : ReplicatedPartition) (protocol : WireProtocol) :
    Expected ReplicatedPartition :=
  if p.protocol = .unset ∨ p.protocol = protocol then .ok { p with protocol }
  else makeError .invalidArgument
    "partición con records de otro protocolo de wire (cruce nativo/Kafka)"

end ReplicatedPartition

/-! ## Produce -/

inductive Acks
  | none | leader | quorum
  deriving DecidableEq

structure ProduceRequest where
  acks : Acks := .leader
  /-- What `RecordBatch::decode` makes of the bytes of the request. -/
  batch : Expected RecordBatch

structure ProduceResponse where
  baseOffset : Int := -1
  errorCode : WireError := .none
  deriving DecidableEq

/-- `handle_produce`, on the partition that `find_partition` finds. -/
def handleProduce (part : Option ReplicatedPartition) (io : LogIo) (req : ProduceRequest) :
    Option ReplicatedPartition × ProduceResponse :=
  match part with
  | none => (none, { errorCode := .unknownTopicOrPartition })
  | some p =>
    match req.batch with
    | .error e => (some p, { errorCode := .fromError e })
    | .ok batch =>
      match p.claimProtocol .native with
      | .error e => (some p, { errorCode := .fromError e })
      | .ok p =>
        let out := p.produce io batch
        match out.2 with
        | .error e => (some out.1, { errorCode := .fromError e })
        | .ok last => (some out.1, { baseOffset := last - batch.header.recordCount + 1 })

/-! ## Fetch -/

/-- `kDefaultFetchBytes`, for a request that gives no limit. -/
def kDefaultFetchBytes : Nat := 1024 * 1024

def fetchLimit (maxBytes : Int) : Nat := if maxBytes > 0 then maxBytes.toNat else kDefaultFetchBytes

structure FetchRequest where
  fetchOffset : Int := 0
  maxBytes : Int := 0

structure FetchOutcome where
  error : WireError := .none
  result : FetchResult := {}
  highWatermark : Int := 0
  logStartOffset : Int := 0

/-- `handle_fetch`. -/
def handleFetch (part : Option ReplicatedPartition) (req : FetchRequest) : FetchOutcome :=
  match part with
  | none => { error := .unknownTopicOrPartition }
  | some p =>
    if p.protocol ≠ .unset ∧ p.protocol ≠ .native then { error := .invalidRequest }
    else match p.fetch req.fetchOffset (fetchLimit req.maxBytes) with
      | .error e => { error := .fromError e }
      | .ok result =>
        { result, highWatermark := p.highWatermark, logStartOffset := p.log.logStartOffset }

/-- The records that one batch of the log wraps, with the offsets that they get back. -/
structure KafkaRecords where
  baseOffset : Int
  recordCount : Int
  blob : List UInt8
  deriving DecidableEq

def KafkaRecords.lastOffset (k : KafkaRecords) : Int := k.baseOffset + k.recordCount - 1

/-- `rebuild_kafka_records`: the wrapped records of each batch, from its base offset on. -/
def rebuildKafkaRecords (batches : List RecordBatch) : List KafkaRecords :=
  batches.map fun b =>
    { baseOffset := b.baseOffset, recordCount := b.header.recordCount, blob := b.records }

structure FetchPartitionRequest where
  fetchOffset : Int := 0
  partitionMaxBytes : Int := 0

structure FetchPartitionResponse where
  errorCode : Int := 0
  highWatermark : Int := 0
  lastStableOffset : Int := -1
  logStartOffset : Int := 0
  records : List KafkaRecords := []

/-- `fetch_partition`. -/
def fetchPartition (part : Option ReplicatedPartition) (req : FetchPartitionRequest) :
    FetchPartitionResponse :=
  match part with
  | none => { errorCode := KafkaError.unknownTopicOrPartition.toWire }
  | some p =>
    if p.protocol ≠ .unset ∧ p.protocol ≠ .kafka then
      { errorCode := (KafkaError.ofErrorCode .invalidArgument).toWire }
    else match p.fetch req.fetchOffset (fetchLimit req.partitionMaxBytes) with
      | .error e => { errorCode := (KafkaError.ofErrorCode e.code).toWire }
      | .ok result =>
        { highWatermark := p.highWatermark
          lastStableOffset := p.highWatermark
          logStartOffset := p.log.logStartOffset
          records := rebuildKafkaRecords result.batches }

end Nexus
