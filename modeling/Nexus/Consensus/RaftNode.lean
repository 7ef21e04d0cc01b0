import Mathlib.Data.List.Sort
import Nexus.Consensus.RaftRpc

/-!
# The Raft node

The state machine of `consensus/raft_node.cpp`, handler by handler. A node is pure logic: time
comes in as `now`, and what it wants to send waits in `outbox`. The maps of the source are
functions whose value is 0 for an absent key, as its accessors answer. What the log's storage
answers during a call is the `LogIo` argument.
-/

namespace Nexus

inductive RaftRole
  | follower | preCandidate | candidate | leader
  deriving DecidableEq

structure RaftPersistentState where
  currentTerm : Nat := 0
  votedFor : Option NodeId := none
  deriving DecidableEq

structure RaftVolatileState where
  commitIndex : Nat := 0
  nextIndex : NodeId → Nat := fun _ => 0
  matchIndex : NodeId → Nat := fun _ => 0

structure RaftConfig where
  electionTimeoutMin : Int := 1000
  electionTimeoutMax : Int := 1500
  heartbeatInterval : Int := 150
  randomSeed : Nat := 0
  deriving DecidableEq

/-- Seeding and one step of `std::minstd_rand`. -/
def minstdSeed (seed : Nat) : Nat :=
  if seed % 2147483647 = 0 then 1 else seed % 2147483647

def minstdNext (x : Nat) : Nat := 48271 * x % 2147483647

structure RaftNode where
  self : NodeId
  peers : List NodeId
  learners : List NodeId
  log : RaftLog
  config : RaftConfig
  role : RaftRole := .follower
  persistent : RaftPersistentState := {}
  persistentDirty : Bool := false
  volatile : RaftVolatileState := {}
  leaderEpoch : Nat := 0
  leaderId : Option NodeId := none
  /-- The nodes whose grant was counted in the current round, without repetition. -/
  votesGranted : List NodeId := []
  /-- The last index sent to each peer since this node became leader. -/
  lastSent : NodeId → Nat := fun _ => 0
  transferTarget : Option NodeId := none
  electionDeadline : Int := 0
  lastLeaderContact : Int := 0
  heartbeatDeadline : Int := 0
  started : Bool := false
  rng : Nat
  outbox : List RaftMessage := []

namespace RaftNode

def create (self : NodeId) (peers : List NodeId) (log : RaftLog) (config : RaftConfig)
    (learners : List NodeId) : RaftNode :=
  { self, peers, learners, log, config,
    rng := minstdSeed (((config.randomSeed : Int) + self) % 2 ^ 64).toNat }

/-! ## Accessors -/

def currentTerm (n : RaftNode) : Nat := n.persistent.currentTerm
def votedFor (n : RaftNode) : Option NodeId := n.persistent.votedFor
def commitIndex (n : RaftNode) : Nat := n.volatile.commitIndex
def nextIndex (n : RaftNode) (peer : NodeId) : Nat := n.volatile.nextIndex peer
def matchIndex (n : RaftNode) (peer : NodeId) : Nat := n.volatile.matchIndex peer
def isLeader (n : RaftNode) : Bool := n.role == .leader

def isVoter (n : RaftNode) (node : NodeId) : Bool := !n.learners.contains node

/-- The voting members, this node first when it is one. -/
def voters (n : RaftNode) : List NodeId := (n.self :: n.peers).filter n.isVoter

def clusterSize (n : RaftNode) : Nat := n.voters.length

def hasMajority (n : RaftNode) (votes : Nat) : Bool := votes * 2 > n.clusterSize

/-! ## Small updates -/

def advanceTerm (n : RaftNode) (term : Nat) : RaftNode :=
  { n with persistent := { currentTerm := term, votedFor := none }, persistentDirty := true }

def recordVote (n : RaftNode) (candidate : NodeId) : RaftNode :=
  { n with
    persistent := { n.persistent with votedFor := some candidate }, persistentDirty := true }

/-- The node with the log that a call on its log leaves. -/
def setLog (n : RaftNode) (log : RaftLog) : RaftNode := { n with log }

def setCommitIndex (n : RaftNode) (value : Nat) : RaftNode :=
  { n with volatile := { n.volatile with commitIndex := value } }

def setNextIndex (n : RaftNode) (peer : NodeId) (value : Nat) : RaftNode :=
  { n with volatile := { n.volatile with
      nextIndex := Function.update n.volatile.nextIndex peer value } }

def setMatchIndex (n : RaftNode) (peer : NodeId) (value : Nat) : RaftNode :=
  { n with volatile := { n.volatile with
      matchIndex := Function.update n.volatile.matchIndex peer value } }

def clearLeaderProgress (n : RaftNode) : RaftNode :=
  { n with volatile := { n.volatile with nextIndex := fun _ => 0, matchIndex := fun _ => 0 } }

def resetLeaderProgress (n : RaftNode) (lastLogIndex : Nat) : RaftNode :=
  { n with volatile := { n.volatile with
      nextIndex := fun peer => if peer ∈ n.peers then lastLogIndex + 1 else 0
      matchIndex := fun _ => 0 } }

def setLastSent (n : RaftNode) (peer : NodeId) (value : Nat) : RaftNode :=
  { n with lastSent := Function.update n.lastSent peer value }

def send (n : RaftNode) (dst : NodeId) (payload : RaftPayload) : RaftNode :=
  { n with outbox := n.outbox ++ [{ src := n.self, dst, payload }] }

def resetElectionTimer (n : RaftNode) (now : Int) : RaftNode :=
  let lo := n.config.electionTimeoutMin
  let hi := n.config.electionTimeoutMax
  let span := if hi > lo then hi - lo else 0
  if span > 0 then
    let rng := minstdNext n.rng
    { n with rng, electionDeadline := now + (lo + (rng : Int) % (span + 1)) }
  else { n with electionDeadline := now + lo }

def resetHeartbeatTimer (n : RaftNode) (now : Int) : RaftNode :=
  { n with heartbeatDeadline := now + n.config.heartbeatInterval }

/-! ## Roles -/

def becomeFollower (n : RaftNode) (now : Int) (term : Nat) : RaftNode :=
  let n := if term > n.currentTerm then n.advanceTerm term else n
  ({ n with role := .follower, votesGranted := [], transferTarget := none }
    |>.clearLeaderProgress).resetElectionTimer now

/-- `broadcast_request_vote`: a pre-vote announces the prospective term without adopting it. -/
def broadcastRequestVote (n : RaftNode) (preVote : Bool) : RaftNode :=
  let args : RequestVoteArgs :=
    { term := if preVote then n.currentTerm + 1 else n.currentTerm
      candidateId := n.self
      lastLogIndex := n.log.lastIndex
      lastLogTerm := n.log.lastTerm
      preVote }
  n.peers.foldl (fun n peer => if n.isVoter peer then n.send peer (.requestVote args) else n) n

/-- `RaftNode::kMaxEntriesPerAppend`. -/
def kMaxEntriesPerAppend : Nat := 64

def sendSnapshotTo (n : RaftNode) (peer : NodeId) : RaftNode :=
  (n.setLastSent peer n.log.snapshotIndex).send peer <| .installSnapshot
    { term := n.currentTerm
      leaderId := n.self
      snapshot :=
        { lastIncludedIndex := n.log.snapshotIndex
          lastIncludedTerm := n.log.snapshotTerm
          lastIncludedOffset := n.log.snapshotLastOffset } }

/-- The entries that `replicate_to` sends: none when they cannot be read. -/
def entriesToSend (n : RaftNode) (io : LogIo) (peer : NodeId) (next : Nat) :
    List RaftLogEntry :=
  if peer ∈ io.readFails then []
  else match n.log.entriesFrom next kMaxEntriesPerAppend with
    | .ok entries => entries
    | .error _ => []

def replicateTo (n : RaftNode) (io : LogIo) (peer : NodeId) : RaftNode :=
  if n.nextIndex peer ≤ n.log.snapshotIndex then n.sendSnapshotTo peer
  else
    let next := n.nextIndex peer
    let prevIndex := next - 1
    let entries := n.entriesToSend io peer next
    let last := match entries.getLast? with
      | some entry => entry.index
      | none => prevIndex
    (n.setLastSent peer last).send peer <| .appendEntries
      { term := n.currentTerm
        leaderId := n.self
        prevLogIndex := prevIndex
        prevLogTerm := match n.log.termAt prevIndex with
          | .ok term => term
          | .error _ => 0
        entries
        leaderCommit := n.commitIndex
        leaderEpoch := n.leaderEpoch }

def replicateAll (n : RaftNode) (io : LogIo) : RaftNode :=
  n.peers.foldl (fun n peer => n.replicateTo io peer) n

/-- The state that `become_leader` sets before its first heartbeats. -/
def leaderState (n : RaftNode) (now : Int) : RaftNode :=
  ({ n with
      role := .leader
      leaderId := some n.self
      leaderEpoch := n.leaderEpoch + 1
      lastSent := fun _ => 0
      transferTarget := none }
    |>.resetLeaderProgress n.log.lastIndex).resetHeartbeatTimer now

def becomeLeader (n : RaftNode) (io : LogIo) (now : Int) : RaftNode :=
  (n.leaderState now).replicateAll io

/-- The state that `become_candidate` sets: the next term, with its own vote. -/
def candidateState (n : RaftNode) (now : Int) : RaftNode :=
  let n := (n.advanceTerm (n.currentTerm + 1)).recordVote n.self
  { n with role := .candidate, leaderId := none, votesGranted := [n.self] }
    |>.resetElectionTimer now

def becomeCandidate (n : RaftNode) (io : LogIo) (now : Int) : RaftNode :=
  let n := n.candidateState now
  if n.hasMajority n.votesGranted.length then n.becomeLeader io now
  else n.broadcastRequestVote false

/-- The state that `start_pre_election` sets: the term stays. -/
def preCandidateState (n : RaftNode) (now : Int) : RaftNode :=
  { n with role := .preCandidate, leaderId := none, votesGranted := [n.self] }
    |>.resetElectionTimer now

def startPreElection (n : RaftNode) (io : LogIo) (now : Int) : RaftNode :=
  let n := n.preCandidateState now
  if n.hasMajority n.votesGranted.length then n.becomeCandidate io now
  else n.broadcastRequestVote true

/-! ## Commit and transfer -/

/-- The match indices of the voters, this node counting with its own last index. -/
def voterMatches (n : RaftNode) : List Nat :=
  (if n.isVoter n.self then [n.log.lastIndex] else []) ++
    (n.peers.filter n.isVoter).map n.matchIndex

/-- `advance_commit_index`: the index that a majority of the voters hold, committed only when
its entry is of the current term. -/
def advanceCommitIndex (n : RaftNode) : RaftNode :=
  let sorted := n.voterMatches.insertionSort (· ≥ ·)
  let candidate := (sorted[sorted.length / 2]?).getD 0
  if candidate ≤ n.commitIndex then n
  else if n.log.termAt candidate = .ok n.currentTerm then n.setCommitIndex candidate
  else n

def maybeTransferTo (n : RaftNode) (io : LogIo) (peer : NodeId) : RaftNode :=
  if n.transferTarget ≠ some peer then n
  else if n.matchIndex peer ≥ n.log.lastIndex then
    { n.send peer (.timeoutNow { term := n.currentTerm, leaderId := n.self }) with
      transferTarget := none }
  else n.replicateTo io peer

def tick (n : RaftNode) (io : LogIo) (now : Int) : RaftNode :=
  if !n.started then { n with started := true }.resetElectionTimer now
  else if n.role = .leader then
    if now ≥ n.heartbeatDeadline then (n.resetHeartbeatTimer now).replicateAll io else n
  else if now ≥ n.electionDeadline ∧ n.isVoter n.self then n.startPreElection io now
  else n

/-! ## Votes -/

def logIsUpToDate (n : RaftNode) (lastLogIndex : Nat) (lastLogTerm : Nat) : Bool :=
  if lastLogTerm ≠ n.log.lastTerm then lastLogTerm > n.log.lastTerm
  else lastLogIndex ≥ n.log.lastIndex

/-- `make_pre_vote_reply`: answers with the voter's own term and changes nothing. -/
def makePreVoteReply (n : RaftNode) (now : Int) (args : RequestVoteArgs) :
    RequestVoteReply :=
  let denied : RequestVoteReply := { term := n.currentTerm, voteGranted := false }
  if args.term < n.currentTerm then denied
  else if n.role = .leader then denied
  else if now - n.lastLeaderContact < n.config.electionTimeoutMin then denied
  else if n.logIsUpToDate args.lastLogIndex args.lastLogTerm then
    { denied with voteGranted := true }
  else denied

def onRequestVote (n : RaftNode) (now : Int) (args : RequestVoteArgs) :
    RaftNode × RequestVoteReply :=
  if args.preVote then (n, n.makePreVoteReply now args)
  else
    let n := if args.term > n.currentTerm then n.becomeFollower now args.term else n
    if args.term < n.currentTerm then (n, { term := n.currentTerm, voteGranted := false })
    else
      let canVote := n.votedFor = none ∨ n.votedFor = some args.candidateId
      if canVote ∧ n.logIsUpToDate args.lastLogIndex args.lastLogTerm then
        ((n.recordVote args.candidateId).resetElectionTimer now,
          { term := n.currentTerm, voteGranted := true })
      else (n, { term := n.currentTerm, voteGranted := false })

def countVote (n : RaftNode) (src : NodeId) : RaftNode :=
  { n with votesGranted := n.votesGranted.insert src }

def onRequestVoteReply (n : RaftNode) (io : LogIo) (now : Int) (src : NodeId)
    (reply : RequestVoteReply) : RaftNode :=
  if reply.term > n.currentTerm then n.becomeFollower now reply.term
  else if n.role = .preCandidate then
    if reply.term = n.currentTerm ∧ reply.voteGranted ∧ n.isVoter src then
      let n := n.countVote src
      if n.hasMajority n.votesGranted.length then n.becomeCandidate io now else n
    else n
  else if n.role ≠ .candidate ∨ reply.term ≠ n.currentTerm then n
  else if reply.voteGranted ∧ n.isVoter src then
    let n := n.countVote src
    if n.hasMajority n.votesGranted.length then n.becomeLeader io now else n
  else n

/-! ## Replication -/

/-- `append_entries_from`: skips what is present, truncates at the first conflict and appends
the rest. The flag is the result of the source's function. -/
def appendEntriesFrom (log : RaftLog) (io : LogIo) : List RaftLogEntry → RaftLog × Bool
  | [] => (log, true)
  | entry :: rest =>
    if entry.index > log.lastIndex then
      let appended := log.append io.appendFails (entry :: rest)
      (appended.1, appended.2.toBool)
    else if log.termAt entry.index = .ok entry.term then appendEntriesFrom log io rest
    else if io.truncateFails then (log, false)
    else match log.truncateFrom entry.index with
      | .error _ => (log, false)
      | .ok log =>
        let appended := log.append io.appendFails (entry :: rest)
        (appended.1, appended.2.toBool)

/-- What a valid leader's message does before its contents are looked at. -/
def recogniseLeader (n : RaftNode) (now : Int) (term : Nat) (leader : NodeId) : RaftNode :=
  let n := if term > n.currentTerm ∨ n.role ≠ .follower then n.becomeFollower now term else n
  { { n with leaderId := some leader }.resetElectionTimer now with lastLeaderContact := now }

def onAppendEntries (n : RaftNode) (io : LogIo) (now : Int) (args : AppendEntriesArgs) :
    RaftNode × AppendEntriesReply :=
  if args.term < n.currentTerm then (n, { term := n.currentTerm })
  else
    let n := n.recogniseLeader now args.term args.leaderId
    let reply : AppendEntriesReply := { term := n.currentTerm }
    if args.prevLogIndex > n.log.lastIndex then
      (n, { reply with conflictIndex := n.log.lastIndex + 1 })
    else match n.log.termAt args.prevLogIndex with
      | .error _ => (n, { reply with conflictIndex := n.log.lastIndex + 1 })
      | .ok prevTerm =>
        if prevTerm ≠ args.prevLogTerm then (n, { reply with conflictIndex := args.prevLogIndex })
        else
          let appended := appendEntriesFrom n.log io args.entries
          let n := n.setLog appended.1
          if !appended.2 then (n, reply)
          else
            let n := if args.leaderCommit > n.commitIndex then
              n.setCommitIndex (min args.leaderCommit n.log.lastIndex) else n
            (n, { reply with success := true })

/-- The progress that a positive reply from `src` credits: whatever was sent to it last. -/
def creditLastSent (n : RaftNode) (src : NodeId) : RaftNode :=
  let n := n.setMatchIndex src (max (n.matchIndex src) (n.lastSent src))
  (n.setNextIndex src (n.matchIndex src + 1)).advanceCommitIndex

def onAppendEntriesReply (n : RaftNode) (io : LogIo) (now : Int) (src : NodeId)
    (reply : AppendEntriesReply) : RaftNode :=
  if reply.term > n.currentTerm then n.becomeFollower now reply.term
  else if n.role ≠ .leader ∨ reply.term ≠ n.currentTerm then n
  else if reply.success then (n.creditLastSent src).maybeTransferTo io src
  else
    let hint := if reply.conflictIndex > 0 then reply.conflictIndex else n.nextIndex src - 1
    (n.setNextIndex src (max 1 hint)).replicateTo io src

def propose (n : RaftNode) (io : LogIo) (batch : RecordBatch) : RaftNode × Expected Nat :=
  if n.role ≠ .leader then (n, makeError .unsupported "propose: el nodo no es líder")
  else
    let entry : RaftLogEntry :=
      { term := n.currentTerm, index := n.log.lastIndex + 1, type := .data, payload := batch }
    let appended := n.log.append io.appendFails [entry]
    match appended.2 with
    | .error e => (n.setLog appended.1, .error e)
    | .ok index =>
      (((n.setLog appended.1).replicateAll io).advanceCommitIndex, .ok index)

def transferLeadership (n : RaftNode) (io : LogIo) (target : NodeId) :
    RaftNode × Expected Unit :=
  if n.role ≠ .leader then
    (n, makeError .unsupported "transfer_leadership: el nodo no es líder")
  else if target ∉ n.peers then
    (n, makeError .invalidArgument "transfer_leadership: destino no es un peer")
  else if !n.isVoter target then
    (n, makeError .invalidArgument "transfer_leadership: destino es un learner")
  else (({ n with transferTarget := some target } : RaftNode).maybeTransferTo io target, .ok ())

def onTimeoutNow (n : RaftNode) (io : LogIo) (now : Int) (args : TimeoutNowArgs) : RaftNode :=
  if args.term < n.currentTerm ∨ !n.isVoter n.self then n
  else
    let n := if args.term > n.currentTerm then n.becomeFollower now args.term else n
    n.becomeCandidate io now

/-! ## Snapshots -/

def onInstallSnapshot (n : RaftNode) (io : LogIo) (now : Int) (args : InstallSnapshotArgs) :
    RaftNode × InstallSnapshotReply :=
  if args.term < n.currentTerm then (n, { term := n.currentTerm })
  else
    let n := n.recogniseLeader now args.term args.leaderId
    let reply : InstallSnapshotReply := { term := n.currentTerm }
    let installed := n.log.installSnapshot io.install args.snapshot.lastIncludedIndex
      args.snapshot.lastIncludedTerm args.snapshot.lastIncludedOffset
    let n := n.setLog installed.1
    if installed.2 ∧ args.snapshot.lastIncludedIndex > n.commitIndex then
      (n.setCommitIndex args.snapshot.lastIncludedIndex, reply)
    else (n, reply)

def onInstallSnapshotReply (n : RaftNode) (io : LogIo) (now : Int) (src : NodeId)
    (reply : InstallSnapshotReply) : RaftNode :=
  if reply.term > n.currentTerm then n.becomeFollower now reply.term
  else if n.role ≠ .leader ∨ reply.term ≠ n.currentTerm then n
  else (n.creditLastSent src).replicateTo io src

/-- `take_messages`: what the node wants to send, and the node with its outbox empty. -/
def takeMessages (n : RaftNode) : RaftNode × List RaftMessage :=
  ({ n with outbox := [] }, n.outbox)

/-- `RaftCarrier::maybe_compact`: compacts at the commit index once `threshold` entries above the
snapshot are committed; 0 disables it. -/
def maybeCompact (n : RaftNode) (threshold : Nat) : RaftNode :=
  if threshold = 0 then n
  else if n.commitIndex ≤ n.log.snapshotIndex ∨
      n.commitIndex - n.log.snapshotIndex < threshold then n
  else match n.log.compactTo n.commitIndex with
    | .error _ => n
    | .ok log => n.setLog log

end RaftNode

end Nexus
