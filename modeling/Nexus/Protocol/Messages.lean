import Nexus.Protocol.Codec

/-!
# The messages of the native protocol

`protocol/messages.cpp`: each type with its `encode` and `decode`, the fields in the order and with
the widths of the source. The enumerations are those of `protocol/frame.hpp`,
`protocol/error_code.hpp` and `common/types.hpp`.

`MessageType.decode_encode_message` is the round trip of all of them.
-/

namespace Nexus.Wire

open Lib Decoder List

/-! ## Enumerations -/

inductive ApiKey
  | apiVersions | metadata | produce | fetch | offsetCommit | offsetFetch | joinGroup | syncGroup
  | heartbeat | leaveGroup | createTopic | deleteTopic
  deriving DecidableEq

namespace ApiKey

def toU16 : ApiKey → UInt16
  | apiVersions => 0
  | metadata => 1
  | produce => 2
  | fetch => 3
  | offsetCommit => 4
  | offsetFetch => 5
  | joinGroup => 6
  | syncGroup => 7
  | heartbeat => 8
  | leaveGroup => 9
  | createTopic => 10
  | deleteTopic => 11

def ofU16? (key : UInt16) : Option ApiKey :=
  match key.toNat with
  | 0 => some apiVersions
  | 1 => some metadata
  | 2 => some produce
  | 3 => some fetch
  | 4 => some offsetCommit
  | 5 => some offsetFetch
  | 6 => some joinGroup
  | 7 => some syncGroup
  | 8 => some heartbeat
  | 9 => some leaveGroup
  | 10 => some createTopic
  | 11 => some deleteTopic
  | _ => none

theorem ofU16?_toU16 (key : ApiKey) : ofU16? key.toU16 = some key := by cases key <;> rfl

end ApiKey

/-- A key after `DeleteTopic` is refused. -/
def getApiKey (message : String) : Decoder ApiKey := do
  let key ← getU16
  match ApiKey.ofU16? key with
  | some key => return key
  | none => throw ⟨.invalidArgument, message⟩

theorem reads_apiKey (message : String) (key : ApiKey) :
    Reads (getApiKey message) (putU16 key.toU16) key := by
  intro rest
  rw [getApiKey, StateT.run_bind, reads_u16]
  change (match ApiKey.ofU16? key.toU16 with
    | some key => pure key
    | none => throw _ : Decoder ApiKey).run rest = _
  rw [ApiKey.ofU16?_toU16]
  rfl

inductive Acks
  | none | leader | quorum
  deriving DecidableEq

namespace Acks

def toU8 : Acks → UInt8
  | none => 0
  | leader => 1
  | quorum => 2

def ofU8? (acks : UInt8) : Option Acks :=
  match acks.toNat with
  | 0 => some none
  | 1 => some leader
  | 2 => some quorum
  | _ => Option.none

theorem ofU8?_toU8 (acks : Acks) : ofU8? acks.toU8 = some acks := by cases acks <;> rfl

end Acks

def getAcks : Decoder Acks := do
  let acks ← getU8
  match Acks.ofU8? acks with
  | some acks => return acks
  | none => throw ⟨.invalidArgument, "valor de acks inválido"⟩

theorem reads_acks (acks : Acks) : Reads getAcks (putU8 acks.toU8) acks := by
  intro rest
  rw [getAcks, StateT.run_bind, reads_u8]
  change (match Acks.ofU8? acks.toU8 with
    | some acks => pure acks
    | none => throw _ : Decoder Acks).run rest = _
  rw [Acks.ofU8?_toU8]
  rfl

/-- The decoder does not check these: an `int16` that has no name is a value too. -/
inductive WireError
  | none | notLeaderForPartition | leaderNotAvailable | unknownTopicOrPartition
  | offsetOutOfRange | notEnoughReplicas | requestTimedOut | corruptMessage | messageTooLarge
  | outOfOrderSequence | duplicateSequence | throttled | rebalanceInProgress | unsupportedVersion
  | unauthorized | invalidRequest | invalidProducerEpoch
  | unnamed (code : Int16) (h : code < 0 ∨ 16 < code)
  deriving DecidableEq

namespace WireError

def toI16 : WireError → Int16
  | none => 0
  | notLeaderForPartition => 1
  | leaderNotAvailable => 2
  | unknownTopicOrPartition => 3
  | offsetOutOfRange => 4
  | notEnoughReplicas => 5
  | requestTimedOut => 6
  | corruptMessage => 7
  | messageTooLarge => 8
  | outOfOrderSequence => 9
  | duplicateSequence => 10
  | throttled => 11
  | rebalanceInProgress => 12
  | unsupportedVersion => 13
  | unauthorized => 14
  | invalidRequest => 15
  | invalidProducerEpoch => 16
  | unnamed code _ => code

def ofI16 (code : Int16) : WireError :=
  if h : code < 0 ∨ 16 < code then unnamed code h
  else
    match code.toInt with
    | 0 => none
    | 1 => notLeaderForPartition
    | 2 => leaderNotAvailable
    | 3 => unknownTopicOrPartition
    | 4 => offsetOutOfRange
    | 5 => notEnoughReplicas
    | 6 => requestTimedOut
    | 7 => corruptMessage
    | 8 => messageTooLarge
    | 9 => outOfOrderSequence
    | 10 => duplicateSequence
    | 11 => throttled
    | 12 => rebalanceInProgress
    | 13 => unsupportedVersion
    | 14 => unauthorized
    | 15 => invalidRequest
    | _ => invalidProducerEpoch

theorem ofI16_toI16 (e : WireError) : ofI16 e.toI16 = e := by
  cases e with
  | unnamed code h => exact dif_pos h
  | _ => rfl

end WireError

def putWireError (e : WireError) : Bytes := putI16 e.toI16

def getWireError : Decoder WireError := do
  let code ← getI16
  return .ofI16 code

theorem reads_wireError (e : WireError) : Reads getWireError (putWireError e) e := by
  have h : Reads getWireError (putWireError e) (.ofI16 e.toI16) := (reads_i16 _).last _
  rwa [WireError.ofI16_toI16] at h

/-! ## Messages -/

structure ApiVersionsRequest where
  clientVersion : UInt16
  deriving DecidableEq

namespace ApiVersionsRequest

def encode (m : ApiVersionsRequest) : Bytes := putU16 m.clientVersion

def decode : Decoder ApiVersionsRequest := do
  let clientVersion ← getU16
  return { clientVersion }

theorem reads (m : ApiVersionsRequest) : Reads decode m.encode m :=
  (reads_u16 _).last _

end ApiVersionsRequest

/-- An element of `ApiVersionsResponse`. -/
structure ApiVersionRange where
  key : ApiKey
  min : UInt16
  max : UInt16
  deriving DecidableEq

namespace ApiVersionRange

def encode (m : ApiVersionRange) : Bytes := putU16 m.key.toU16 ++ putU16 m.min ++ putU16 m.max

def decode : Decoder ApiVersionRange := do
  let key ← getApiKey "api_key desconocido en ApiVersions"
  let min ← getU16
  let max ← getU16
  return { key, min, max }

theorem reads (m : ApiVersionRange) : Reads decode m.encode m := by
  simp only [encode, append_assoc]
  exact (reads_apiKey _ _).bind <| (reads_u16 _).bind <| (reads_u16 _).last _

theorem encode_ne_nil (m : ApiVersionRange) : m.encode ≠ [] := by
  simp [encode, putU16_ne_nil]

end ApiVersionRange

structure ApiVersionsResponse where
  ranges : Sized ApiVersionRange
  deriving DecidableEq

namespace ApiVersionsResponse

def encode (m : ApiVersionsResponse) : Bytes := putArray ApiVersionRange.encode m.ranges

def decode : Decoder ApiVersionsResponse := do
  let ranges ← getArray ApiVersionRange.decode
  return { ranges }

theorem reads (m : ApiVersionsResponse) : Reads decode m.encode m :=
  (reads_array ApiVersionRange.reads ApiVersionRange.encode_ne_nil _).last _

end ApiVersionsResponse

structure BrokerMeta where
  nodeId : Int32
  host : Text
  port : UInt16
  deriving DecidableEq

namespace BrokerMeta

def encode (m : BrokerMeta) : Bytes := putI32 m.nodeId ++ putString m.host ++ putU16 m.port

def decode : Decoder BrokerMeta := do
  let nodeId ← getI32
  let host ← getString
  let port ← getU16
  return { nodeId, host, port }

theorem reads (m : BrokerMeta) : Reads decode m.encode m := by
  simp only [encode, append_assoc]
  exact (reads_i32 _).bind <| (reads_string _).bind <| (reads_u16 _).last _

theorem encode_ne_nil (m : BrokerMeta) : m.encode ≠ [] := by
  simp [encode, putI32_ne_nil]

end BrokerMeta

structure PartitionMeta where
  id : Int32
  leaderNodeId : Int32
  replicas : Sized Int32
  leaderEpoch : Int32
  deriving DecidableEq

namespace PartitionMeta

def encode (m : PartitionMeta) : Bytes :=
  putI32 m.id ++ putI32 m.leaderNodeId ++ putArray putI32 m.replicas ++ putI32 m.leaderEpoch

def decode : Decoder PartitionMeta := do
  let id ← getI32
  let leaderNodeId ← getI32
  let replicas ← getArray getI32
  let leaderEpoch ← getI32
  return { id, leaderNodeId, replicas, leaderEpoch }

theorem reads (m : PartitionMeta) : Reads decode m.encode m := by
  simp only [encode, append_assoc]
  exact (reads_i32 _).bind <| (reads_i32 _).bind <|
    (reads_array reads_i32 putI32_ne_nil _).bind <| (reads_i32 _).last _

theorem encode_ne_nil (m : PartitionMeta) : m.encode ≠ [] := by
  simp [encode, putI32_ne_nil]

end PartitionMeta

structure TopicMeta where
  name : Text
  error : WireError
  partitions : Sized PartitionMeta
  deriving DecidableEq

namespace TopicMeta

def encode (m : TopicMeta) : Bytes :=
  putString m.name ++ putWireError m.error ++ putArray PartitionMeta.encode m.partitions

def decode : Decoder TopicMeta := do
  let name ← getString
  let error ← getWireError
  let partitions ← getArray PartitionMeta.decode
  return { name, error, partitions }

theorem reads (m : TopicMeta) : Reads decode m.encode m := by
  simp only [encode, append_assoc]
  exact (reads_string _).bind <| (reads_wireError _).bind <|
    (reads_array PartitionMeta.reads PartitionMeta.encode_ne_nil _).last _

theorem encode_ne_nil (m : TopicMeta) : m.encode ≠ [] := by
  simp [encode, putString_ne_nil]

end TopicMeta

structure MetadataRequest where
  topics : Sized Text
  deriving DecidableEq

namespace MetadataRequest

def encode (m : MetadataRequest) : Bytes := putArray putString m.topics

def decode : Decoder MetadataRequest := do
  let topics ← getArray getString
  return { topics }

theorem reads (m : MetadataRequest) : Reads decode m.encode m :=
  (reads_array reads_string putString_ne_nil _).last _

end MetadataRequest

structure MetadataResponse where
  brokers : Sized BrokerMeta
  topics : Sized TopicMeta
  deriving DecidableEq

namespace MetadataResponse

def encode (m : MetadataResponse) : Bytes :=
  putArray BrokerMeta.encode m.brokers ++ putArray TopicMeta.encode m.topics

def decode : Decoder MetadataResponse := do
  let brokers ← getArray BrokerMeta.decode
  let topics ← getArray TopicMeta.decode
  return { brokers, topics }

theorem reads (m : MetadataResponse) : Reads decode m.encode m :=
  (reads_array BrokerMeta.reads BrokerMeta.encode_ne_nil _).bind <|
    (reads_array TopicMeta.reads TopicMeta.encode_ne_nil _).last _

end MetadataResponse

structure ProduceRequest where
  topic : Text
  partition : Int32
  acks : Acks
  batch : Sized UInt8
  deriving DecidableEq

namespace ProduceRequest

def encode (m : ProduceRequest) : Bytes :=
  putString m.topic ++ putI32 m.partition ++ putU8 m.acks.toU8 ++ putBytes m.batch

def decode : Decoder ProduceRequest := do
  let topic ← getString
  let partition ← getI32
  let acks ← getAcks
  let batch ← getBytes
  return { topic, partition, acks, batch }

theorem reads (m : ProduceRequest) : Reads decode m.encode m := by
  simp only [encode, append_assoc]
  exact (reads_string _).bind <| (reads_i32 _).bind <| (reads_acks _).bind <|
    (reads_bytes _).last _

end ProduceRequest

structure ProduceResponse where
  baseOffset : Int64
  errorCode : WireError
  throttleMs : Int32
  deriving DecidableEq

namespace ProduceResponse

def encode (m : ProduceResponse) : Bytes :=
  putI64 m.baseOffset ++ putWireError m.errorCode ++ putI32 m.throttleMs

def decode : Decoder ProduceResponse := do
  let baseOffset ← getI64
  let errorCode ← getWireError
  let throttleMs ← getI32
  return { baseOffset, errorCode, throttleMs }

theorem reads (m : ProduceResponse) : Reads decode m.encode m := by
  simp only [encode, append_assoc]
  exact (reads_i64 _).bind <| (reads_wireError _).bind <| (reads_i32 _).last _

end ProduceResponse

structure FetchRequest where
  topic : Text
  partition : Int32
  fetchOffset : Int64
  maxBytes : Int32
  minBytes : Int32
  maxWaitMs : Int32
  deriving DecidableEq

namespace FetchRequest

def encode (m : FetchRequest) : Bytes :=
  putString m.topic ++ putI32 m.partition ++ putI64 m.fetchOffset ++ putI32 m.maxBytes ++
    putI32 m.minBytes ++ putI32 m.maxWaitMs

def decode : Decoder FetchRequest := do
  let topic ← getString
  let partition ← getI32
  let fetchOffset ← getI64
  let maxBytes ← getI32
  let minBytes ← getI32
  let maxWaitMs ← getI32
  return { topic, partition, fetchOffset, maxBytes, minBytes, maxWaitMs }

theorem reads (m : FetchRequest) : Reads decode m.encode m := by
  simp only [encode, append_assoc]
  exact (reads_string _).bind <| (reads_i32 _).bind <| (reads_i64 _).bind <|
    (reads_i32 _).bind <| (reads_i32 _).bind <| (reads_i32 _).last _

end FetchRequest

structure FetchResponse where
  batches : Sized UInt8
  highWatermark : Int64
  logStartOffset : Int64
  errorCode : WireError
  deriving DecidableEq

namespace FetchResponse

def encode (m : FetchResponse) : Bytes :=
  putBytes m.batches ++ putI64 m.highWatermark ++ putI64 m.logStartOffset ++
    putWireError m.errorCode

def decode : Decoder FetchResponse := do
  let batches ← getBytes
  let highWatermark ← getI64
  let logStartOffset ← getI64
  let errorCode ← getWireError
  return { batches, highWatermark, logStartOffset, errorCode }

theorem reads (m : FetchResponse) : Reads decode m.encode m := by
  simp only [encode, append_assoc]
  exact (reads_bytes _).bind <| (reads_i64 _).bind <| (reads_i64 _).bind <|
    (reads_wireError _).last _

end FetchResponse

structure CreateTopicRequest where
  name : Text
  partitionCount : Int32
  replicationFactor : Int16
  deriving DecidableEq

namespace CreateTopicRequest

def encode (m : CreateTopicRequest) : Bytes :=
  putString m.name ++ putI32 m.partitionCount ++ putI16 m.replicationFactor

def decode : Decoder CreateTopicRequest := do
  let name ← getString
  let partitionCount ← getI32
  let replicationFactor ← getI16
  return { name, partitionCount, replicationFactor }

theorem reads (m : CreateTopicRequest) : Reads decode m.encode m := by
  simp only [encode, append_assoc]
  exact (reads_string _).bind <| (reads_i32 _).bind <| (reads_i16 _).last _

end CreateTopicRequest

structure CreateTopicResponse where
  errorCode : WireError
  deriving DecidableEq

namespace CreateTopicResponse

def encode (m : CreateTopicResponse) : Bytes := putWireError m.errorCode

def decode : Decoder CreateTopicResponse := do
  let errorCode ← getWireError
  return { errorCode }

theorem reads (m : CreateTopicResponse) : Reads decode m.encode m :=
  (reads_wireError _).last _

end CreateTopicResponse

structure DeleteTopicRequest where
  name : Text
  deriving DecidableEq

namespace DeleteTopicRequest

def encode (m : DeleteTopicRequest) : Bytes := putString m.name

def decode : Decoder DeleteTopicRequest := do
  let name ← getString
  return { name }

theorem reads (m : DeleteTopicRequest) : Reads decode m.encode m :=
  (reads_string _).last _

end DeleteTopicRequest

structure DeleteTopicResponse where
  errorCode : WireError
  deriving DecidableEq

namespace DeleteTopicResponse

def encode (m : DeleteTopicResponse) : Bytes := putWireError m.errorCode

def decode : Decoder DeleteTopicResponse := do
  let errorCode ← getWireError
  return { errorCode }

theorem reads (m : DeleteTopicResponse) : Reads decode m.encode m :=
  (reads_wireError _).last _

end DeleteTopicResponse

structure OffsetCommitRequest where
  group : Text
  topic : Text
  partition : Int32
  offset : Int64
  metadata : Text
  deriving DecidableEq

namespace OffsetCommitRequest

def encode (m : OffsetCommitRequest) : Bytes :=
  putString m.group ++ putString m.topic ++ putI32 m.partition ++ putI64 m.offset ++
    putString m.metadata

def decode : Decoder OffsetCommitRequest := do
  let group ← getString
  let topic ← getString
  let partition ← getI32
  let offset ← getI64
  let metadata ← getString
  return { group, topic, partition, offset, metadata }

theorem reads (m : OffsetCommitRequest) : Reads decode m.encode m := by
  simp only [encode, append_assoc]
  exact (reads_string _).bind <| (reads_string _).bind <| (reads_i32 _).bind <|
    (reads_i64 _).bind <| (reads_string _).last _

end OffsetCommitRequest

structure OffsetCommitResponse where
  errorCode : WireError
  deriving DecidableEq

namespace OffsetCommitResponse

def encode (m : OffsetCommitResponse) : Bytes := putWireError m.errorCode

def decode : Decoder OffsetCommitResponse := do
  let errorCode ← getWireError
  return { errorCode }

theorem reads (m : OffsetCommitResponse) : Reads decode m.encode m :=
  (reads_wireError _).last _

end OffsetCommitResponse

structure OffsetFetchRequest where
  group : Text
  topic : Text
  partition : Int32
  deriving DecidableEq

namespace OffsetFetchRequest

def encode (m : OffsetFetchRequest) : Bytes :=
  putString m.group ++ putString m.topic ++ putI32 m.partition

def decode : Decoder OffsetFetchRequest := do
  let group ← getString
  let topic ← getString
  let partition ← getI32
  return { group, topic, partition }

theorem reads (m : OffsetFetchRequest) : Reads decode m.encode m := by
  simp only [encode, append_assoc]
  exact (reads_string _).bind <| (reads_string _).bind <| (reads_i32 _).last _

end OffsetFetchRequest

structure OffsetFetchResponse where
  offset : Int64
  errorCode : WireError
  deriving DecidableEq

namespace OffsetFetchResponse

def encode (m : OffsetFetchResponse) : Bytes := putI64 m.offset ++ putWireError m.errorCode

def decode : Decoder OffsetFetchResponse := do
  let offset ← getI64
  let errorCode ← getWireError
  return { offset, errorCode }

theorem reads (m : OffsetFetchResponse) : Reads decode m.encode m :=
  (reads_i64 _).bind <| (reads_wireError _).last _

end OffsetFetchResponse

structure GroupMember where
  memberId : Text
  subscription : Sized UInt8
  deriving DecidableEq

namespace GroupMember

def encode (m : GroupMember) : Bytes := putString m.memberId ++ putBytes m.subscription

def decode : Decoder GroupMember := do
  let memberId ← getString
  let subscription ← getBytes
  return { memberId, subscription }

theorem reads (m : GroupMember) : Reads decode m.encode m :=
  (reads_string _).bind <| (reads_bytes _).last _

theorem encode_ne_nil (m : GroupMember) : m.encode ≠ [] := by
  simp [encode, putString_ne_nil]

end GroupMember

structure GroupAssignment where
  memberId : Text
  assignment : Sized UInt8
  deriving DecidableEq

namespace GroupAssignment

def encode (m : GroupAssignment) : Bytes := putString m.memberId ++ putBytes m.assignment

def decode : Decoder GroupAssignment := do
  let memberId ← getString
  let assignment ← getBytes
  return { memberId, assignment }

theorem reads (m : GroupAssignment) : Reads decode m.encode m :=
  (reads_string _).bind <| (reads_bytes _).last _

theorem encode_ne_nil (m : GroupAssignment) : m.encode ≠ [] := by
  simp [encode, putString_ne_nil]

end GroupAssignment

structure JoinGroupRequest where
  group : Text
  memberId : Text
  sessionTimeoutMs : Int32
  subscription : Sized UInt8
  deriving DecidableEq

namespace JoinGroupRequest

def encode (m : JoinGroupRequest) : Bytes :=
  putString m.group ++ putString m.memberId ++ putI32 m.sessionTimeoutMs ++
    putBytes m.subscription

def decode : Decoder JoinGroupRequest := do
  let group ← getString
  let memberId ← getString
  let sessionTimeoutMs ← getI32
  let subscription ← getBytes
  return { group, memberId, sessionTimeoutMs, subscription }

theorem reads (m : JoinGroupRequest) : Reads decode m.encode m := by
  simp only [encode, append_assoc]
  exact (reads_string _).bind <| (reads_string _).bind <| (reads_i32 _).bind <|
    (reads_bytes _).last _

end JoinGroupRequest

structure JoinGroupResponse where
  errorCode : WireError
  generation : Int32
  memberId : Text
  leaderId : Text
  isLeader : Bool
  members : Sized GroupMember
  deriving DecidableEq

namespace JoinGroupResponse

def encode (m : JoinGroupResponse) : Bytes :=
  putWireError m.errorCode ++ putI32 m.generation ++ putString m.memberId ++
    putString m.leaderId ++ putBool m.isLeader ++ putArray GroupMember.encode m.members

def decode : Decoder JoinGroupResponse := do
  let errorCode ← getWireError
  let generation ← getI32
  let memberId ← getString
  let leaderId ← getString
  let isLeader ← getBool
  let members ← getArray GroupMember.decode
  return { errorCode, generation, memberId, leaderId, isLeader, members }

theorem reads (m : JoinGroupResponse) : Reads decode m.encode m := by
  simp only [encode, append_assoc]
  exact (reads_wireError _).bind <| (reads_i32 _).bind <| (reads_string _).bind <|
    (reads_string _).bind <| (reads_bool _).bind <|
    (reads_array GroupMember.reads GroupMember.encode_ne_nil _).last _

end JoinGroupResponse

structure SyncGroupRequest where
  group : Text
  memberId : Text
  generation : Int32
  assignments : Sized GroupAssignment
  deriving DecidableEq

namespace SyncGroupRequest

def encode (m : SyncGroupRequest) : Bytes :=
  putString m.group ++ putString m.memberId ++ putI32 m.generation ++
    putArray GroupAssignment.encode m.assignments

def decode : Decoder SyncGroupRequest := do
  let group ← getString
  let memberId ← getString
  let generation ← getI32
  let assignments ← getArray GroupAssignment.decode
  return { group, memberId, generation, assignments }

theorem reads (m : SyncGroupRequest) : Reads decode m.encode m := by
  simp only [encode, append_assoc]
  exact (reads_string _).bind <| (reads_string _).bind <| (reads_i32 _).bind <|
    (reads_array GroupAssignment.reads GroupAssignment.encode_ne_nil _).last _

end SyncGroupRequest

structure SyncGroupResponse where
  errorCode : WireError
  assignment : Sized UInt8
  deriving DecidableEq

namespace SyncGroupResponse

def encode (m : SyncGroupResponse) : Bytes := putWireError m.errorCode ++ putBytes m.assignment

def decode : Decoder SyncGroupResponse := do
  let errorCode ← getWireError
  let assignment ← getBytes
  return { errorCode, assignment }

theorem reads (m : SyncGroupResponse) : Reads decode m.encode m :=
  (reads_wireError _).bind <| (reads_bytes _).last _

end SyncGroupResponse

structure HeartbeatRequest where
  group : Text
  memberId : Text
  generation : Int32
  deriving DecidableEq

namespace HeartbeatRequest

def encode (m : HeartbeatRequest) : Bytes :=
  putString m.group ++ putString m.memberId ++ putI32 m.generation

def decode : Decoder HeartbeatRequest := do
  let group ← getString
  let memberId ← getString
  let generation ← getI32
  return { group, memberId, generation }

theorem reads (m : HeartbeatRequest) : Reads decode m.encode m := by
  simp only [encode, append_assoc]
  exact (reads_string _).bind <| (reads_string _).bind <| (reads_i32 _).last _

end HeartbeatRequest

structure HeartbeatResponse where
  errorCode : WireError
  deriving DecidableEq

namespace HeartbeatResponse

def encode (m : HeartbeatResponse) : Bytes := putWireError m.errorCode

def decode : Decoder HeartbeatResponse := do
  let errorCode ← getWireError
  return { errorCode }

theorem reads (m : HeartbeatResponse) : Reads decode m.encode m :=
  (reads_wireError _).last _

end HeartbeatResponse

structure LeaveGroupRequest where
  group : Text
  memberId : Text
  deriving DecidableEq

namespace LeaveGroupRequest

def encode (m : LeaveGroupRequest) : Bytes := putString m.group ++ putString m.memberId

def decode : Decoder LeaveGroupRequest := do
  let group ← getString
  let memberId ← getString
  return { group, memberId }

theorem reads (m : LeaveGroupRequest) : Reads decode m.encode m :=
  (reads_string _).bind <| (reads_string _).last _

end LeaveGroupRequest

structure LeaveGroupResponse where
  errorCode : WireError
  deriving DecidableEq

namespace LeaveGroupResponse

def encode (m : LeaveGroupResponse) : Bytes := putWireError m.errorCode

def decode : Decoder LeaveGroupResponse := do
  let errorCode ← getWireError
  return { errorCode }

theorem reads (m : LeaveGroupResponse) : Reads decode m.encode m :=
  (reads_wireError _).last _

end LeaveGroupResponse

/-! ## Every message -/

/-- The types that have an `encode` and a `decode`. -/
inductive MessageType
  | apiVersionsRequest | apiVersionsResponse | brokerMeta | partitionMeta | topicMeta
  | metadataRequest | metadataResponse | produceRequest | produceResponse | fetchRequest
  | fetchResponse | createTopicRequest | createTopicResponse | deleteTopicRequest
  | deleteTopicResponse | offsetCommitRequest | offsetCommitResponse | offsetFetchRequest
  | offsetFetchResponse | groupMember | groupAssignment | joinGroupRequest | joinGroupResponse
  | syncGroupRequest | syncGroupResponse | heartbeatRequest | heartbeatResponse
  | leaveGroupRequest | leaveGroupResponse
  deriving DecidableEq

namespace MessageType

def Value : MessageType → Type
  | apiVersionsRequest => ApiVersionsRequest
  | apiVersionsResponse => ApiVersionsResponse
  | brokerMeta => BrokerMeta
  | partitionMeta => PartitionMeta
  | topicMeta => TopicMeta
  | metadataRequest => MetadataRequest
  | metadataResponse => MetadataResponse
  | produceRequest => ProduceRequest
  | produceResponse => ProduceResponse
  | fetchRequest => FetchRequest
  | fetchResponse => FetchResponse
  | createTopicRequest => CreateTopicRequest
  | createTopicResponse => CreateTopicResponse
  | deleteTopicRequest => DeleteTopicRequest
  | deleteTopicResponse => DeleteTopicResponse
  | offsetCommitRequest => OffsetCommitRequest
  | offsetCommitResponse => OffsetCommitResponse
  | offsetFetchRequest => OffsetFetchRequest
  | offsetFetchResponse => OffsetFetchResponse
  | groupMember => GroupMember
  | groupAssignment => GroupAssignment
  | joinGroupRequest => JoinGroupRequest
  | joinGroupResponse => JoinGroupResponse
  | syncGroupRequest => SyncGroupRequest
  | syncGroupResponse => SyncGroupResponse
  | heartbeatRequest => HeartbeatRequest
  | heartbeatResponse => HeartbeatResponse
  | leaveGroupRequest => LeaveGroupRequest
  | leaveGroupResponse => LeaveGroupResponse

def encode : (t : MessageType) → t.Value → Bytes
  | apiVersionsRequest => ApiVersionsRequest.encode
  | apiVersionsResponse => ApiVersionsResponse.encode
  | brokerMeta => BrokerMeta.encode
  | partitionMeta => PartitionMeta.encode
  | topicMeta => TopicMeta.encode
  | metadataRequest => MetadataRequest.encode
  | metadataResponse => MetadataResponse.encode
  | produceRequest => ProduceRequest.encode
  | produceResponse => ProduceResponse.encode
  | fetchRequest => FetchRequest.encode
  | fetchResponse => FetchResponse.encode
  | createTopicRequest => CreateTopicRequest.encode
  | createTopicResponse => CreateTopicResponse.encode
  | deleteTopicRequest => DeleteTopicRequest.encode
  | deleteTopicResponse => DeleteTopicResponse.encode
  | offsetCommitRequest => OffsetCommitRequest.encode
  | offsetCommitResponse => OffsetCommitResponse.encode
  | offsetFetchRequest => OffsetFetchRequest.encode
  | offsetFetchResponse => OffsetFetchResponse.encode
  | groupMember => GroupMember.encode
  | groupAssignment => GroupAssignment.encode
  | joinGroupRequest => JoinGroupRequest.encode
  | joinGroupResponse => JoinGroupResponse.encode
  | syncGroupRequest => SyncGroupRequest.encode
  | syncGroupResponse => SyncGroupResponse.encode
  | heartbeatRequest => HeartbeatRequest.encode
  | heartbeatResponse => HeartbeatResponse.encode
  | leaveGroupRequest => LeaveGroupRequest.encode
  | leaveGroupResponse => LeaveGroupResponse.encode

def decode : (t : MessageType) → Decoder t.Value
  | apiVersionsRequest => ApiVersionsRequest.decode
  | apiVersionsResponse => ApiVersionsResponse.decode
  | brokerMeta => BrokerMeta.decode
  | partitionMeta => PartitionMeta.decode
  | topicMeta => TopicMeta.decode
  | metadataRequest => MetadataRequest.decode
  | metadataResponse => MetadataResponse.decode
  | produceRequest => ProduceRequest.decode
  | produceResponse => ProduceResponse.decode
  | fetchRequest => FetchRequest.decode
  | fetchResponse => FetchResponse.decode
  | createTopicRequest => CreateTopicRequest.decode
  | createTopicResponse => CreateTopicResponse.decode
  | deleteTopicRequest => DeleteTopicRequest.decode
  | deleteTopicResponse => DeleteTopicResponse.decode
  | offsetCommitRequest => OffsetCommitRequest.decode
  | offsetCommitResponse => OffsetCommitResponse.decode
  | offsetFetchRequest => OffsetFetchRequest.decode
  | offsetFetchResponse => OffsetFetchResponse.decode
  | groupMember => GroupMember.decode
  | groupAssignment => GroupAssignment.decode
  | joinGroupRequest => JoinGroupRequest.decode
  | joinGroupResponse => JoinGroupResponse.decode
  | syncGroupRequest => SyncGroupRequest.decode
  | syncGroupResponse => SyncGroupResponse.decode
  | heartbeatRequest => HeartbeatRequest.decode
  | heartbeatResponse => HeartbeatResponse.decode
  | leaveGroupRequest => LeaveGroupRequest.decode
  | leaveGroupResponse => LeaveGroupResponse.decode

/-- A message that is followed by anything is read back as it was, and what follows stays unread. -/
theorem decode_encode_message (t : MessageType) (m : t.Value) (rest : Bytes) :
    t.decode.run (t.encode m ++ rest) = .ok (m, rest) := by
  cases t with
  | apiVersionsRequest => exact ApiVersionsRequest.reads m rest
  | apiVersionsResponse => exact ApiVersionsResponse.reads m rest
  | brokerMeta => exact BrokerMeta.reads m rest
  | partitionMeta => exact PartitionMeta.reads m rest
  | topicMeta => exact TopicMeta.reads m rest
  | metadataRequest => exact MetadataRequest.reads m rest
  | metadataResponse => exact MetadataResponse.reads m rest
  | produceRequest => exact ProduceRequest.reads m rest
  | produceResponse => exact ProduceResponse.reads m rest
  | fetchRequest => exact FetchRequest.reads m rest
  | fetchResponse => exact FetchResponse.reads m rest
  | createTopicRequest => exact CreateTopicRequest.reads m rest
  | createTopicResponse => exact CreateTopicResponse.reads m rest
  | deleteTopicRequest => exact DeleteTopicRequest.reads m rest
  | deleteTopicResponse => exact DeleteTopicResponse.reads m rest
  | offsetCommitRequest => exact OffsetCommitRequest.reads m rest
  | offsetCommitResponse => exact OffsetCommitResponse.reads m rest
  | offsetFetchRequest => exact OffsetFetchRequest.reads m rest
  | offsetFetchResponse => exact OffsetFetchResponse.reads m rest
  | groupMember => exact GroupMember.reads m rest
  | groupAssignment => exact GroupAssignment.reads m rest
  | joinGroupRequest => exact JoinGroupRequest.reads m rest
  | joinGroupResponse => exact JoinGroupResponse.reads m rest
  | syncGroupRequest => exact SyncGroupRequest.reads m rest
  | syncGroupResponse => exact SyncGroupResponse.reads m rest
  | heartbeatRequest => exact HeartbeatRequest.reads m rest
  | heartbeatResponse => exact HeartbeatResponse.reads m rest
  | leaveGroupRequest => exact LeaveGroupRequest.reads m rest
  | leaveGroupResponse => exact LeaveGroupResponse.reads m rest

end MessageType

end Nexus.Wire
