import Nexus.Lib.Run
import Nexus.Consensus.RaftNode

/-!
# A cluster of Raft nodes

Nodes that exchange packets over a network which may lose, duplicate, delay and reorder them: a
packet is never taken off the network, and the schedule chooses which one is delivered next.
After each event the node's outbox goes to the network, as `RaftCarrier::flush_outbox` does.

A packet carries two facts about a reply that its wire format leaves out. Nothing in the nodes
reads them; they only let a property speak about the message that a reply answers.
-/

namespace Nexus

structure Packet where
  msg : RaftMessage
  /-- The reply answers a pre-vote request. -/
  preVote : Bool := false
  /-- The index up to which the answered request was adopted by the replying node. -/
  matched : Nat := 0
  deriving DecidableEq

namespace RaftNode

/-- Did the installation of the snapshot go through? -/
def installs (n : RaftNode) (io : LogIo) (args : InstallSnapshotArgs) : Bool :=
  decide (n.currentTerm ≤ args.term) &&
    (n.log.installSnapshot io.install args.snapshot.lastIncludedIndex
      args.snapshot.lastIncludedTerm args.snapshot.lastIncludedOffset).2

/-- `RaftCarrier::on_message`: the node after the message, and its immediate answer. -/
def onMessage (n : RaftNode) (io : LogIo) (now : Int) (m : RaftMessage) :
    RaftNode × List Packet :=
  let answer (payload : RaftPayload) : RaftMessage := { src := n.self, dst := m.src, payload }
  match m.payload with
  | .requestVote args =>
    let out := n.onRequestVote now args
    (out.1, [{ msg := answer (.requestVoteReply out.2), preVote := args.preVote }])
  | .appendEntries args =>
    let out := n.onAppendEntries io now args
    let matched := if out.2.success then args.prevLogIndex + args.entries.length else 0
    (out.1, [{ msg := answer (.appendEntriesReply out.2), matched }])
  | .installSnapshot args =>
    let out := n.onInstallSnapshot io now args
    let matched := if n.installs io args then args.snapshot.lastIncludedIndex else 0
    (out.1, [{ msg := answer (.installSnapshotReply out.2), matched }])
  | .timeoutNow args => (n.onTimeoutNow io now args, [])
  | .requestVoteReply reply => (n.onRequestVoteReply io now m.src reply, [])
  | .appendEntriesReply reply => (n.onAppendEntriesReply io now m.src reply, [])
  | .installSnapshotReply reply => (n.onInstallSnapshotReply io now m.src reply, [])

end RaftNode

structure Cluster where
  members : List NodeId
  nodes : NodeId → RaftNode
  /-- Every packet sent so far, oldest first. -/
  net : List Packet := []

/-- What can happen next: a node's clock ticks, a packet arrives, a client proposes a batch or
asks for a transfer, or the carrier's compaction policy runs. -/
inductive Event
  | tick (v : NodeId) (io : LogIo) (now : Int)
  | deliver (packet : Nat) (io : LogIo) (now : Int)
  | propose (v : NodeId) (io : LogIo) (batch : RecordBatch)
  | transfer (v : NodeId) (io : LogIo) (target : NodeId)
  | compact (v : NodeId) (threshold : Nat)
  deriving DecidableEq

namespace Cluster

/-- A fresh cluster: every node knows all the others and which of them are learners. -/
def init (voters learners : List NodeId) (cfg : RaftConfig) (logCfg : LogConfig) : Cluster :=
  let members := voters ++ learners
  { members
    nodes := fun v =>
      RaftNode.create v (members.erase v) (RaftLog.create logCfg) cfg learners }

/-- Installs a node after an event; its outbox and its immediate answers go to the network. -/
def update (c : Cluster) (v : NodeId) (n : RaftNode) (answers : List Packet) : Cluster :=
  let taken := n.takeMessages
  { c with
    nodes := Function.update c.nodes v taken.1
    net := c.net ++ (answers ++ taken.2.map fun msg => { msg }) }

/-- One event. Events of nodes that are not in the cluster and deliveries of packets that were
never sent do nothing. -/
def step (c : Cluster) : Event → Cluster
  | .tick v io now =>
    if v ∈ c.members then c.update v ((c.nodes v).tick io now) [] else c
  | .deliver k io now =>
    match c.net[k]? with
    | none => c
    | some p =>
      if p.msg.dst ∈ c.members then
        let out := (c.nodes p.msg.dst).onMessage io now p.msg
        c.update p.msg.dst out.1 out.2
      else c
  | .propose v io batch =>
    if v ∈ c.members then c.update v ((c.nodes v).propose io batch).1 [] else c
  | .transfer v io target =>
    if v ∈ c.members then c.update v ((c.nodes v).transferLeadership io target).1 [] else c
  | .compact v threshold =>
    if v ∈ c.members then c.update v ((c.nodes v).maybeCompact threshold) [] else c

/-- Node `v` is leader in term `t`. -/
def LeaderIn (c : Cluster) (v : NodeId) (t : Nat) : Prop :=
  v ∈ c.members ∧ (c.nodes v).role = .leader ∧ (c.nodes v).currentTerm = t

instance (c : Cluster) (v : NodeId) (t : Nat) : Decidable (c.LeaderIn v t) :=
  inferInstanceAs (Decidable (_ ∧ _ ∧ _))

end Cluster

end Nexus
