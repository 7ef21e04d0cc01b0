import Nexus.Consensus.RaftLog

/-!
# Raft messages

The RPCs of `consensus/raft_rpc.hpp` and the `Snapshot` of `consensus/raft_state.hpp` (whose
`state` bytes the node always sends empty). The sender and the receiver are `src` and `dst`.
-/

namespace Nexus

structure RequestVoteArgs where
  term : Nat := 0
  candidateId : NodeId := 0
  lastLogIndex : Nat := 0
  lastLogTerm : Nat := 0
  preVote : Bool := false
  deriving DecidableEq

structure RequestVoteReply where
  term : Nat := 0
  voteGranted : Bool := false
  deriving DecidableEq

structure AppendEntriesArgs where
  term : Nat := 0
  leaderId : NodeId := 0
  prevLogIndex : Nat := 0
  prevLogTerm : Nat := 0
  entries : List RaftLogEntry := []
  leaderCommit : Nat := 0
  leaderEpoch : Nat := 0
  deriving DecidableEq

structure AppendEntriesReply where
  term : Nat := 0
  success : Bool := false
  conflictIndex : Nat := 0
  deriving DecidableEq

structure TimeoutNowArgs where
  term : Nat := 0
  leaderId : NodeId := 0
  deriving DecidableEq

structure Snapshot where
  lastIncludedIndex : Nat := 0
  lastIncludedTerm : Nat := 0
  lastIncludedOffset : Int := 0
  deriving DecidableEq

structure InstallSnapshotArgs where
  term : Nat := 0
  leaderId : NodeId := 0
  snapshot : Snapshot := {}
  deriving DecidableEq

structure InstallSnapshotReply where
  term : Nat := 0
  deriving DecidableEq

inductive RaftPayload
  | requestVote (args : RequestVoteArgs)
  | requestVoteReply (reply : RequestVoteReply)
  | appendEntries (args : AppendEntriesArgs)
  | appendEntriesReply (reply : AppendEntriesReply)
  | timeoutNow (args : TimeoutNowArgs)
  | installSnapshot (args : InstallSnapshotArgs)
  | installSnapshotReply (reply : InstallSnapshotReply)
  deriving DecidableEq

structure RaftMessage where
  src : NodeId
  dst : NodeId
  payload : RaftPayload
  deriving DecidableEq

/-- The term field, which every message has. -/
def RaftPayload.term : RaftPayload → Nat
  | .requestVote m => m.term
  | .requestVoteReply m => m.term
  | .appendEntries m => m.term
  | .appendEntriesReply m => m.term
  | .timeoutNow m => m.term
  | .installSnapshot m => m.term
  | .installSnapshotReply m => m.term

end Nexus
