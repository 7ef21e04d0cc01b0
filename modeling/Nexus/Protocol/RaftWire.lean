import Nexus.Protocol.Codec

/-!
# Raft messages on the wire

`consensus/raft_rpc.cpp` and `consensus/raft_wire.cpp`: the RPCs with their fields as they are
encoded, and the envelope that routes one of them to a partition. `RaftEnvelope.reads` is the round
trip of the envelope.
-/

namespace Nexus.Wire

open Lib Decoder List

inductive RaftEntryType
  | data | config
  deriving DecidableEq

namespace RaftEntryType

def toU8 : RaftEntryType → UInt8
  | data => 0
  | config => 1

def ofU8? (type : UInt8) : Option RaftEntryType :=
  match type.toNat with
  | 0 => some data
  | 1 => some config
  | _ => none

theorem ofU8?_toU8 (type : RaftEntryType) : ofU8? type.toU8 = some type := by cases type <;> rfl

end RaftEntryType

def getRaftEntryType : Decoder RaftEntryType := do
  let type ← getU8
  match RaftEntryType.ofU8? type with
  | some type => return type
  | none => throw ⟨.invalidArgument, "tipo de entrada de Raft inválido"⟩

theorem reads_raftEntryType (type : RaftEntryType) :
    Reads getRaftEntryType (putU8 type.toU8) type := by
  intro rest
  rw [getRaftEntryType, StateT.run_bind, reads_u8]
  change (match RaftEntryType.ofU8? type.toU8 with
    | some type => pure type
    | none => throw _ : Decoder RaftEntryType).run rest = _
  rw [RaftEntryType.ofU8?_toU8]
  rfl

/-! ## RPCs -/

/-- `encode_entry`, `decode_entry`. -/
structure RaftLogEntry where
  term : Int64
  index : Int64
  type : RaftEntryType
  payload : Sized UInt8
  deriving DecidableEq

namespace RaftLogEntry

def encode (m : RaftLogEntry) : Bytes :=
  putI64 m.term ++ putI64 m.index ++ putU8 m.type.toU8 ++ putBytes m.payload

def decode : Decoder RaftLogEntry := do
  let term ← getI64
  let index ← getI64
  let type ← getRaftEntryType
  let payload ← getBytes
  return { term, index, type, payload }

theorem reads (m : RaftLogEntry) : Reads decode m.encode m := by
  simp only [encode, append_assoc]
  exact (reads_i64 _).bind <| (reads_i64 _).bind <| (reads_raftEntryType _).bind <|
    (reads_bytes _).last _

theorem encode_ne_nil (m : RaftLogEntry) : m.encode ≠ [] := by
  simp [encode, putI64_ne_nil]

end RaftLogEntry

/-- `encode_snapshot`, `decode_snapshot`. -/
structure Snapshot where
  lastIncludedIndex : Int64
  lastIncludedTerm : Int64
  lastIncludedOffset : Int64
  state : Sized UInt8
  deriving DecidableEq

namespace Snapshot

def encode (m : Snapshot) : Bytes :=
  putI64 m.lastIncludedIndex ++ putI64 m.lastIncludedTerm ++ putI64 m.lastIncludedOffset ++
    putBytes m.state

def decode : Decoder Snapshot := do
  let lastIncludedIndex ← getI64
  let lastIncludedTerm ← getI64
  let lastIncludedOffset ← getI64
  let state ← getBytes
  return { lastIncludedIndex, lastIncludedTerm, lastIncludedOffset, state }

theorem reads (m : Snapshot) : Reads decode m.encode m := by
  simp only [encode, append_assoc]
  exact (reads_i64 _).bind <| (reads_i64 _).bind <| (reads_i64 _).bind <| (reads_bytes _).last _

end Snapshot

structure RequestVoteArgs where
  term : Int64
  candidateId : Int32
  lastLogIndex : Int64
  lastLogTerm : Int64
  preVote : Bool
  deriving DecidableEq

namespace RequestVoteArgs

def encode (m : RequestVoteArgs) : Bytes :=
  putI64 m.term ++ putI32 m.candidateId ++ putI64 m.lastLogIndex ++ putI64 m.lastLogTerm ++
    putBool m.preVote

def decode : Decoder RequestVoteArgs := do
  let term ← getI64
  let candidateId ← getI32
  let lastLogIndex ← getI64
  let lastLogTerm ← getI64
  let preVote ← getBool
  return { term, candidateId, lastLogIndex, lastLogTerm, preVote }

theorem reads (m : RequestVoteArgs) : Reads decode m.encode m := by
  simp only [encode, append_assoc]
  exact (reads_i64 _).bind <| (reads_i32 _).bind <| (reads_i64 _).bind <| (reads_i64 _).bind <|
    (reads_bool _).last _

end RequestVoteArgs

structure RequestVoteReply where
  term : Int64
  voteGranted : Bool
  deriving DecidableEq

namespace RequestVoteReply

def encode (m : RequestVoteReply) : Bytes := putI64 m.term ++ putBool m.voteGranted

def decode : Decoder RequestVoteReply := do
  let term ← getI64
  let voteGranted ← getBool
  return { term, voteGranted }

theorem reads (m : RequestVoteReply) : Reads decode m.encode m :=
  (reads_i64 _).bind <| (reads_bool _).last _

end RequestVoteReply

structure AppendEntriesArgs where
  term : Int64
  leaderId : Int32
  prevLogIndex : Int64
  prevLogTerm : Int64
  entries : Sized RaftLogEntry
  leaderCommit : Int64
  leaderEpoch : Int32
  deriving DecidableEq

namespace AppendEntriesArgs

def encode (m : AppendEntriesArgs) : Bytes :=
  putI64 m.term ++ putI32 m.leaderId ++ putI64 m.prevLogIndex ++ putI64 m.prevLogTerm ++
    putArray RaftLogEntry.encode m.entries ++ putI64 m.leaderCommit ++ putI32 m.leaderEpoch

def decode : Decoder AppendEntriesArgs := do
  let term ← getI64
  let leaderId ← getI32
  let prevLogIndex ← getI64
  let prevLogTerm ← getI64
  let entries ← getArray RaftLogEntry.decode
  let leaderCommit ← getI64
  let leaderEpoch ← getI32
  return { term, leaderId, prevLogIndex, prevLogTerm, entries, leaderCommit, leaderEpoch }

theorem reads (m : AppendEntriesArgs) : Reads decode m.encode m := by
  simp only [encode, append_assoc]
  exact (reads_i64 _).bind <| (reads_i32 _).bind <| (reads_i64 _).bind <| (reads_i64 _).bind <|
    (reads_array RaftLogEntry.reads RaftLogEntry.encode_ne_nil _).bind <| (reads_i64 _).bind <|
    (reads_i32 _).last _

end AppendEntriesArgs

structure AppendEntriesReply where
  term : Int64
  success : Bool
  conflictIndex : Int64
  deriving DecidableEq

namespace AppendEntriesReply

def encode (m : AppendEntriesReply) : Bytes :=
  putI64 m.term ++ putBool m.success ++ putI64 m.conflictIndex

def decode : Decoder AppendEntriesReply := do
  let term ← getI64
  let success ← getBool
  let conflictIndex ← getI64
  return { term, success, conflictIndex }

theorem reads (m : AppendEntriesReply) : Reads decode m.encode m := by
  simp only [encode, append_assoc]
  exact (reads_i64 _).bind <| (reads_bool _).bind <| (reads_i64 _).last _

end AppendEntriesReply

structure TimeoutNowArgs where
  term : Int64
  leaderId : Int32
  deriving DecidableEq

namespace TimeoutNowArgs

def encode (m : TimeoutNowArgs) : Bytes := putI64 m.term ++ putI32 m.leaderId

def decode : Decoder TimeoutNowArgs := do
  let term ← getI64
  let leaderId ← getI32
  return { term, leaderId }

theorem reads (m : TimeoutNowArgs) : Reads decode m.encode m :=
  (reads_i64 _).bind <| (reads_i32 _).last _

end TimeoutNowArgs

structure InstallSnapshotArgs where
  term : Int64
  leaderId : Int32
  snapshot : Snapshot
  deriving DecidableEq

namespace InstallSnapshotArgs

def encode (m : InstallSnapshotArgs) : Bytes :=
  putI64 m.term ++ putI32 m.leaderId ++ m.snapshot.encode

def decode : Decoder InstallSnapshotArgs := do
  let term ← getI64
  let leaderId ← getI32
  let snapshot ← Snapshot.decode
  return { term, leaderId, snapshot }

theorem reads (m : InstallSnapshotArgs) : Reads decode m.encode m := by
  simp only [encode, append_assoc]
  exact (reads_i64 _).bind <| (reads_i32 _).bind <| (Snapshot.reads _).last _

end InstallSnapshotArgs

structure InstallSnapshotReply where
  term : Int64
  deriving DecidableEq

namespace InstallSnapshotReply

def encode (m : InstallSnapshotReply) : Bytes := putI64 m.term

def decode : Decoder InstallSnapshotReply := do
  let term ← getI64
  return { term }

theorem reads (m : InstallSnapshotReply) : Reads decode m.encode m :=
  (reads_i64 _).last _

end InstallSnapshotReply

/-! ## The envelope -/

/-- The variant of `RaftMessage`, in the order of its alternatives. -/
inductive RaftPayload
  | requestVoteArgs (rpc : RequestVoteArgs)
  | requestVoteReply (rpc : RequestVoteReply)
  | appendEntriesArgs (rpc : AppendEntriesArgs)
  | appendEntriesReply (rpc : AppendEntriesReply)
  | timeoutNowArgs (rpc : TimeoutNowArgs)
  | installSnapshotArgs (rpc : InstallSnapshotArgs)
  | installSnapshotReply (rpc : InstallSnapshotReply)
  deriving DecidableEq

namespace RaftPayload

def index : RaftPayload → UInt8
  | requestVoteArgs _ => 0
  | requestVoteReply _ => 1
  | appendEntriesArgs _ => 2
  | appendEntriesReply _ => 3
  | timeoutNowArgs _ => 4
  | installSnapshotArgs _ => 5
  | installSnapshotReply _ => 6

def encode : RaftPayload → Bytes
  | requestVoteArgs rpc => rpc.encode
  | requestVoteReply rpc => rpc.encode
  | appendEntriesArgs rpc => rpc.encode
  | appendEntriesReply rpc => rpc.encode
  | timeoutNowArgs rpc => rpc.encode
  | installSnapshotArgs rpc => rpc.encode
  | installSnapshotReply rpc => rpc.encode

/-- The `switch` over the type that was read. -/
def decode (type : UInt8) : Decoder RaftPayload :=
  match type.toNat with
  | 0 => do
    let rpc ← RequestVoteArgs.decode
    return requestVoteArgs rpc
  | 1 => do
    let rpc ← RequestVoteReply.decode
    return requestVoteReply rpc
  | 2 => do
    let rpc ← AppendEntriesArgs.decode
    return appendEntriesArgs rpc
  | 3 => do
    let rpc ← AppendEntriesReply.decode
    return appendEntriesReply rpc
  | 4 => do
    let rpc ← TimeoutNowArgs.decode
    return timeoutNowArgs rpc
  | 5 => do
    let rpc ← InstallSnapshotArgs.decode
    return installSnapshotArgs rpc
  | 6 => do
    let rpc ← InstallSnapshotReply.decode
    return installSnapshotReply rpc
  | _ => throw ⟨.invalidArgument, "tipo de RPC de Raft desconocido"⟩

theorem reads (m : RaftPayload) : Reads (decode m.index) m.encode m := by
  cases m with
  | requestVoteArgs rpc => exact rpc.reads.last _
  | requestVoteReply rpc => exact rpc.reads.last _
  | appendEntriesArgs rpc => exact rpc.reads.last _
  | appendEntriesReply rpc => exact rpc.reads.last _
  | timeoutNowArgs rpc => exact rpc.reads.last _
  | installSnapshotArgs rpc => exact rpc.reads.last _
  | installSnapshotReply rpc => exact rpc.reads.last _

end RaftPayload

structure RaftMessage where
  src : Int32
  dst : Int32
  payload : RaftPayload
  deriving DecidableEq

structure RaftEnvelope where
  topic : Text
  partition : Int32
  message : RaftMessage
  deriving DecidableEq

namespace RaftEnvelope

def encode (e : RaftEnvelope) : Bytes :=
  putString e.topic ++ putI32 e.partition ++ putI32 e.message.src ++ putI32 e.message.dst ++
    putU8 e.message.payload.index ++ e.message.payload.encode

def decode : Decoder RaftEnvelope := do
  let topic ← getString
  let partition ← getI32
  let src ← getI32
  let dst ← getI32
  let type ← getU8
  let payload ← RaftPayload.decode type
  return { topic, partition, message := { src, dst, payload } }

theorem reads (e : RaftEnvelope) : Reads decode e.encode e := by
  simp only [encode, append_assoc]
  exact (reads_string _).bind <| (reads_i32 _).bind <| (reads_i32 _).bind <| (reads_i32 _).bind <|
    (reads_u8 _).bind <| (RaftPayload.reads _).last _

theorem encode_ne_nil (e : RaftEnvelope) : e.encode ≠ [] := by
  simp [encode, putString_ne_nil]

/-- An envelope is decoded from its encoding, whatever follows that, and nothing more is read. -/
theorem decode_encode_append (e : RaftEnvelope) (rest : Bytes) :
    decode.run (e.encode ++ rest) = .ok (e, rest) :=
  e.reads rest

end RaftEnvelope

end Nexus.Wire
