import Mathlib.Logic.Relation
import Nexus.Consensus.Cluster

/-!
# What a handler can do

Every handler of a node is a sequence of atomic actions on the part of its state that the
protocol's safety depends on, its `Core`. Timers, hints and send cursors are not part of it. The
actions are listed once, in `Act`, with what guards each of them and what a node can truthfully
send (`Truthful`); every handler is then shown to be a run of actions (`Acts`). Invariants of the
cluster are proved action by action and know nothing of the handlers.
-/

namespace Nexus

/-- The state of a node that its safety depends on. -/
structure Core where
  self : NodeId
  peers : List NodeId
  learners : List NodeId
  role : RaftRole
  term : Nat
  votedFor : Option NodeId
  /-- Term or vote have changed since they were last saved. -/
  dirty : Bool
  votesGranted : List NodeId
  log : RaftLog
  commit : Nat
  /-- `match_index` of each peer. -/
  progress : NodeId → Nat
  /-- The packets sent and not yet handed to the network. -/
  out : List Packet

/-- What makes a node act: its state when the event happens, and the packet that it handles, the
batch that it is given or the compaction policy. -/
structure Cause where
  node : RaftNode
  packet : Option Packet := none
  batch : Option RecordBatch := none
  compacts : Bool := false
  /-- The term that the node leads when the event is over: an election that is won is the last
  thing that happens in its event. -/
  leads : Option Nat := none

namespace Core

def isVoter (c : Core) (node : NodeId) : Bool := !c.learners.contains node

def voters (c : Core) : List NodeId := (c.self :: c.peers).filter c.isVoter

/-- What each voter is known to hold, this node counting with its own last index. -/
def voterMatches (c : Core) : List Nat :=
  (if c.isVoter c.self then [c.log.lastIndex] else []) ++
    (c.peers.filter c.isVoter).map c.progress

def stepDown (c : Core) : Core :=
  { c with role := .follower, votesGranted := [], progress := fun _ => 0 }

def raise (c : Core) (t : Nat) : Core :=
  { c.stepDown with term := t, votedFor := none, dirty := true }

def stand (c : Core) : Core :=
  { c with
    term := c.term + 1, votedFor := some c.self, dirty := true, role := .candidate,
    votesGranted := [c.self] }

def cast (c : Core) (w : NodeId) : Core := { c with votedFor := some w, dirty := true }

def win (c : Core) : Core := { c with role := .leader, progress := fun _ => 0 }

def insertVote (c : Core) (w : NodeId) : Core :=
  { c with votesGranted := c.votesGranted.insert w }

def credit (c : Core) (w : NodeId) (k : Nat) : Core :=
  { c with progress := Function.update c.progress w (max (c.progress w) k) }

def emit (c : Core) (p : Packet) : Core := { c with out := c.out ++ [p] }

/-- What `on_append_entries` does once the entry before those of the message is found. -/
def appendEntries (c : Core) (io : LogIo) (src : NodeId) (a : AppendEntriesArgs) : Core :=
  let appended := RaftNode.appendEntriesFrom c.log io a.entries
  let reply : AppendEntriesReply := { term := c.term, success := appended.2 }
  { c with
    log := appended.1
    commit := if appended.2 ∧ a.leaderCommit > c.commit then
      min a.leaderCommit appended.1.lastIndex else c.commit
    out := c.out ++
      [{ msg := { src := c.self, dst := src, payload := .appendEntriesReply reply }
         matched := if appended.2 then a.prevLogIndex + a.entries.length else 0 }] }

/-- What `on_install_snapshot` does once the leader is recognised. -/
def installSnapshot (c : Core) (io : InstallIo) (src : NodeId) (a : InstallSnapshotArgs) :
    Core :=
  let index := a.snapshot.lastIncludedIndex
  let installed := c.log.installSnapshot io index a.snapshot.lastIncludedTerm
    a.snapshot.lastIncludedOffset
  { c with
    log := installed.1
    commit := if installed.2 ∧ index > c.commit then index else c.commit
    out := c.out ++
      [{ msg := { src := c.self, dst := src, payload := .installSnapshotReply { term := c.term } }
         matched := if installed.2 then index else 0 }] }

end Core

def RaftNode.core (n : RaftNode) : Core where
  self := n.self
  peers := n.peers
  learners := n.learners
  role := n.role
  term := n.currentTerm
  votedFor := n.votedFor
  dirty := n.persistentDirty
  votesGranted := n.votesGranted
  log := n.log
  commit := n.commitIndex
  progress := n.matchIndex
  out := n.outbox.map fun msg => { msg }

/-- Is a log that ends in `(lastIndex, lastTerm)` at least as up to date as `r`? -/
def RaftLog.upToDate (r : RaftLog) (lastLogIndex : Nat) (lastLogTerm : Nat) : Prop :=
  r.lastTerm < lastLogTerm ∨ lastLogTerm = r.lastTerm ∧ r.lastIndex ≤ lastLogIndex

namespace Cause

/-- The message that the node handles. -/
def Handles (x : Cause) (src : NodeId) (payload : RaftPayload) : Prop :=
  ∃ p, x.packet = some p ∧ p.msg.src = src ∧ p.msg.payload = payload

end Cause

/-- What a node in state `c` can send: each kind of message says the truth about its sender, and a
granted vote about the request that it answers. The positive answers to a leader are not here:
they are sent together with what they report. -/
def Truthful (x : Cause) (c : Core) (p : Packet) : Prop :=
  p.msg.src = c.self ∧
  match p.msg.payload with
  | .requestVote a =>
    if a.preVote then a.term = c.term + 1
    else a.term = c.term ∧ a.candidateId = c.self ∧ c.role = .candidate ∧
      a.lastLogIndex = c.log.lastIndex ∧ a.lastLogTerm = c.log.lastTerm
  | .requestVoteReply r =>
    r.term = c.term ∧ (r.voteGranted → p.preVote = false → ∃ a : RequestVoteArgs,
      x.Handles p.msg.dst (.requestVote a) ∧ a.preVote = false ∧
      c.votedFor = some a.candidateId)
  | .appendEntries a =>
    a.term = c.term ∧ a.leaderId = c.self ∧ c.role = .leader ∧ a.leaderCommit = c.commit ∧
    (c.log.termAt a.prevLogIndex = .ok a.prevLogTerm ∨
      (∃ e, c.log.termAt a.prevLogIndex = .error e) ∧ a.prevLogTerm = 0) ∧
    c.log.snapshotIndex ≤ a.prevLogIndex ∧
    (a.entries = [] ∨
      c.log.entriesFrom (a.prevLogIndex + 1) RaftNode.kMaxEntriesPerAppend = .ok a.entries)
  | .appendEntriesReply r => r.term = c.term ∧ r.success = false
  | .timeoutNow a => a.term = c.term
  | .installSnapshot a =>
    a.term = c.term ∧ a.leaderId = c.self ∧ c.role = .leader ∧
    a.snapshot = { lastIncludedIndex := c.log.snapshotIndex
                   lastIncludedTerm := c.log.snapshotTerm
                   lastIncludedOffset := c.log.snapshotLastOffset }
  | .installSnapshotReply r => r.term = c.term ∧ p.matched = 0

/-- The positive replies that a leader counts as progress of their sender. -/
inductive Acknowledges (t : Nat) : RaftPayload → Prop
  | append (r : AppendEntriesReply) (ht : r.term = t) (hs : r.success) :
      Acknowledges t (.appendEntriesReply r)
  | install (r : InstallSnapshotReply) (ht : r.term = t) :
      Acknowledges t (.installSnapshotReply r)

/-- The atomic actions of a node, with their guards. -/
inductive Act (x : Cause) : Core → Core → Prop
  /-- Falls back to follower in its own term. -/
  | stepDown (c : Core) : Act x c c.stepDown
  /-- Learns of a later term. -/
  | raise (c : Core) (t : Nat) (ht : c.term < t) : Act x c (c.raise t)
  /-- Starts a pre-vote round. -/
  | probe (c : Core) (hr : c.role ≠ .leader) (hv : c.isVoter c.self) :
      Act x c { c with role := .preCandidate, votesGranted := [c.self] }
  /-- Counts a pre-vote. -/
  | poll (c : Core) (w : NodeId) (hr : c.role = .preCandidate) : Act x c (c.insertVote w)
  /-- Becomes candidate of the next term and votes for itself. -/
  | stand (c : Core) (hv : c.isVoter c.self) : Act x c c.stand
  /-- Votes for the candidate that asks. -/
  | cast (c : Core) (src : NodeId) (a : RequestVoteArgs) (hm : x.Handles src (.requestVote a))
      (hp : a.preVote = false) (ht : a.term = c.term)
      (hv : c.votedFor = none ∨ c.votedFor = some a.candidateId)
      (hu : c.log.upToDate a.lastLogIndex a.lastLogTerm) :
      Act x c (c.cast a.candidateId)
  /-- Counts a vote of the round. -/
  | count (c : Core) (src : NodeId) (r : RequestVoteReply)
      (hm : x.Handles src (.requestVoteReply r)) (hr : c.role = .candidate)
      (hrole : x.node.role = .candidate) (hterm : x.node.currentTerm = r.term)
      (ht : r.term = c.term) (hg : r.voteGranted) (hv : c.isVoter src) :
      Act x c (c.insertVote src)
  /-- Wins the election. -/
  | win (c : Core) (hr : c.role = .candidate)
      (hm : c.votesGranted.length * 2 > c.voters.length) (hl : x.leads = some c.term) :
      Act x c c.win
  /-- Appends a client's batch to its own log. -/
  | write (c : Core) (batch : RecordBatch) (fails : Option Nat) (hb : x.batch = some batch)
      (hr : c.role = .leader) :
      Act x c { c with log := (c.log.append fails
        [{ term := c.term, index := c.log.lastIndex + 1, payload := batch }]).1 }
  /-- Credits the sender of a positive reply with the last index that was sent to it. -/
  | credit (c : Core) (src : NodeId) (payload : RaftPayload) (hm : x.Handles src payload)
      (ha : Acknowledges c.term payload) (hr : c.role = .leader)
      (hrole : x.node.role = .leader) (hterm : x.node.currentTerm = c.term)
      (hmatch : c.progress src = x.node.matchIndex src) :
      Act x c (c.credit src (x.node.lastSent src))
  /-- Commits, as leader, an entry of its term that a majority of the voters hold. -/
  | commit (c : Core) (k : Nat) (hr : c.role = .leader) (hk : c.commit < k)
      (ht : c.log.termAt k = .ok c.term)
      (hm : c.voterMatches.length < 2 * c.voterMatches.countP fun m => decide (k ≤ m)) :
      Act x c { c with commit := k }
  /-- Brings its log in line with the entries of a leader. -/
  | append (c : Core) (src : NodeId) (a : AppendEntriesArgs) (io : LogIo)
      (hm : x.Handles src (.appendEntries a)) (hr : c.role = .follower) (ht : a.term = c.term)
      (hlog : c.log = x.node.log) (hcommit : c.commit = x.node.commitIndex)
      (hprev : a.prevLogIndex ≤ c.log.lastIndex)
      (hterm : c.log.termAt a.prevLogIndex = .ok a.prevLogTerm) :
      Act x c (c.appendEntries io src a)
  /-- Installs a leader's snapshot, or fails to. -/
  | install (c : Core) (src : NodeId) (a : InstallSnapshotArgs) (io : InstallIo)
      (hm : x.Handles src (.installSnapshot a)) (hr : c.role = .follower)
      (ht : a.term = c.term) : Act x c (c.installSnapshot io src a)
  /-- Compacts its log at the commit index. -/
  | compact (c : Core) (log : RaftLog) (hx : x.compacts = true)
      (hl : c.log.compactTo c.commit = .ok log) : Act x c { c with log }
  /-- Sends a packet. -/
  | send (c : Core) (p : Packet) (hp : Truthful x c p) : Act x c (c.emit p)

/-- A run of actions. -/
abbrev Acts (x : Cause) : Core → Core → Prop := Relation.ReflTransGen (Act x)

end Nexus
