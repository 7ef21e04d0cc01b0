import Nexus.Consensus.Carrier

/-!
# What a node thinks of its elections

The standing of a node is its role, its term, whom it takes for the leader and whose votes it has
counted. No handler needs the log, the clock or what was sent to decide it, except that a tick may
find the election timeout over or not.

* `RaftNode.standing_step`: every call of a node is a step of its standing.
* `Standing.Step.moves`: every such step is a sequence of moves, of which there are eight kinds.
-/

namespace Nexus

open Lib

structure Standing where
  self : NodeId
  peers : List NodeId
  learners : List NodeId
  role : RaftRole
  term : Nat
  leaderId : Option NodeId
  votesGranted : List NodeId
  deriving DecidableEq

namespace Standing

def isVoter (s : Standing) (node : NodeId) : Bool := !s.learners.contains node

def voters (s : Standing) : List NodeId := (s.self :: s.peers).filter s.isVoter

def hasMajority (s : Standing) : Bool := s.votesGranted.length * 2 > s.voters.length

def becomeFollower (s : Standing) (term : Nat) : Standing :=
  { s with term := max s.term term, role := .follower, votesGranted := [] }

def becomeLeader (s : Standing) : Standing := { s with role := .leader, leaderId := some s.self }

/-- The start of a round, in which the node counts its own vote. -/
def candidateState (s : Standing) : Standing :=
  { s with term := s.term + 1, role := .candidate, leaderId := none, votesGranted := [s.self] }

def becomeCandidate (s : Standing) : Standing :=
  if s.candidateState.hasMajority then s.candidateState.becomeLeader else s.candidateState

def preCandidateState (s : Standing) : Standing :=
  { s with role := .preCandidate, leaderId := none, votesGranted := [s.self] }

def startPreElection (s : Standing) : Standing :=
  if s.preCandidateState.hasMajority then s.preCandidateState.becomeCandidate
  else s.preCandidateState

def countVote (s : Standing) (src : NodeId) : Standing :=
  { s with votesGranted := s.votesGranted.insert src }

/-- The term of a message that does not come from a leader. -/
def adoptTerm (s : Standing) (term : Nat) : Standing :=
  if term > s.term then s.becomeFollower term else s

def onRequestVote (s : Standing) (args : RequestVoteArgs) : Standing :=
  if args.preVote then s else s.adoptTerm args.term

def onRequestVoteReply (s : Standing) (src : NodeId) (reply : RequestVoteReply) : Standing :=
  if reply.term > s.term then s.becomeFollower reply.term
  else if s.role = .preCandidate then
    if reply.term = s.term ∧ reply.voteGranted ∧ s.isVoter src then
      if (s.countVote src).hasMajority then (s.countVote src).becomeCandidate else s.countVote src
    else s
  else if s.role ≠ .candidate ∨ reply.term ≠ s.term then s
  else if reply.voteGranted ∧ s.isVoter src then
    if (s.countVote src).hasMajority then (s.countVote src).becomeLeader else s.countVote src
  else s

/-- A message of a leader, which is ignored when its term is behind. -/
def onLeaderMessage (s : Standing) (term : Nat) (leader : NodeId) : Standing :=
  if term < s.term then s
  else
    let s := if term > s.term ∨ s.role ≠ .follower then s.becomeFollower term else s
    { s with leaderId := some leader }

def onTimeoutNow (s : Standing) (args : TimeoutNowArgs) : Standing :=
  if args.term < s.term ∨ !s.isVoter s.self then s else (s.adoptTerm args.term).becomeCandidate

def onMessage (s : Standing) (m : RaftMessage) : Standing :=
  match m.payload with
  | .requestVote args => s.onRequestVote args
  | .requestVoteReply reply => s.onRequestVoteReply m.src reply
  | .appendEntries args => s.onLeaderMessage args.term args.leaderId
  | .appendEntriesReply reply => s.adoptTerm reply.term
  | .timeoutNow args => s.onTimeoutNow args
  | .installSnapshot args => s.onLeaderMessage args.term args.leaderId
  | .installSnapshotReply reply => s.adoptTerm reply.term

/-- What a call can do to the standing. -/
inductive Step (s : Standing) : Carrier.Call → Standing → Prop
  | idle (io : LogIo) (now : Int) : Step s (.tick io now) s
  | timeout (io : LogIo) (now : Int) (hr : s.role ≠ .leader) (hv : s.isVoter s.self) :
      Step s (.tick io now) s.startPreElection
  | message (io : LogIo) (now : Int) (m : RaftMessage) : Step s (.message io now m) (s.onMessage m)
  | propose (io : LogIo) (batch : RecordBatch) : Step s (.propose io batch) s
  | transfer (io : LogIo) (target : NodeId) : Step s (.transfer io target) s

end Standing

namespace RaftNode

variable {n : RaftNode} {io : LogIo} {now : Int}

/-- One call of the node. -/
def step (n : RaftNode) : Carrier.Call → RaftNode
  | .tick io now => n.tick io now
  | .message io now m => (n.onMessage io now m).1
  | .propose io batch => (n.propose io batch).1
  | .transfer io target => (n.transferLeadership io target).1

def standing (n : RaftNode) : Standing where
  self := n.self
  peers := n.peers
  learners := n.learners
  role := n.role
  term := n.currentTerm
  leaderId := n.leaderId
  votesGranted := n.votesGranted

/-! ## Updates that the standing does not see -/

@[simp] theorem standing_resetElectionTimer : (n.resetElectionTimer now).standing = n.standing := by
  unfold resetElectionTimer
  dsimp only
  split_ifs <;> rfl

@[simp] theorem standing_replicateTo (w : NodeId) :
    (n.replicateTo io w).standing = n.standing := by
  unfold replicateTo sendSnapshotTo
  split <;> rfl

theorem standing_foldl {f : RaftNode → NodeId → RaftNode}
    (hf : ∀ m w, (f m w).standing = m.standing) (ws : List NodeId) (n : RaftNode) :
    (ws.foldl f n).standing = n.standing := by
  induction ws generalizing n with
  | nil => rfl
  | cons w ws ih => exact (ih (f n w)).trans (hf n w)

@[simp] theorem standing_replicateAll : (n.replicateAll io).standing = n.standing :=
  standing_foldl (fun _ w => standing_replicateTo w) n.peers n

@[simp] theorem standing_broadcastRequestVote (preVote : Bool) :
    (n.broadcastRequestVote preVote).standing = n.standing := by
  refine standing_foldl (fun m w => ?_) n.peers n
  split <;> rfl

@[simp] theorem standing_advanceCommitIndex : n.advanceCommitIndex.standing = n.standing := by
  unfold advanceCommitIndex
  dsimp only
  split_ifs <;> rfl

@[simp] theorem standing_maybeTransferTo (w : NodeId) :
    (n.maybeTransferTo io w).standing = n.standing := by
  unfold maybeTransferTo
  split_ifs
  · rfl
  · rfl
  · exact standing_replicateTo w

/-! ## Roles -/

theorem standing_becomeFollower (t : Nat) :
    (n.becomeFollower now t).standing = n.standing.becomeFollower t := by
  unfold becomeFollower
  dsimp only
  rw [standing_resetElectionTimer]
  rw [Standing.becomeFollower]
  split
  · rename_i h
    rw [show max n.standing.term t = t from Nat.max_eq_right (Nat.le_of_lt h)]
    rfl
  · rename_i h
    rw [show max n.standing.term t = n.standing.term from Nat.max_eq_left (Nat.le_of_not_lt h)]
    rfl

theorem standing_becomeLeader :
    (n.becomeLeader io now).standing = n.standing.becomeLeader := by
  unfold becomeLeader
  rw [standing_replicateAll]
  rfl

theorem standing_candidateState : (n.candidateState now).standing = n.standing.candidateState := by
  unfold candidateState
  dsimp only
  rw [standing_resetElectionTimer]
  rfl

/-- The majority is counted in the standing. -/
theorem hasMajority_standing :
    n.hasMajority n.votesGranted.length = n.standing.hasMajority := rfl

theorem standing_becomeCandidate :
    (n.becomeCandidate io now).standing = n.standing.becomeCandidate := by
  unfold becomeCandidate Standing.becomeCandidate
  dsimp only
  rw [hasMajority_standing, standing_candidateState]
  split
  · rw [standing_becomeLeader, standing_candidateState]
  · rw [standing_broadcastRequestVote, standing_candidateState]

theorem standing_preCandidateState :
    (n.preCandidateState now).standing = n.standing.preCandidateState := by
  unfold preCandidateState
  rw [standing_resetElectionTimer]
  rfl

theorem standing_startPreElection :
    (n.startPreElection io now).standing = n.standing.startPreElection := by
  unfold startPreElection Standing.startPreElection
  dsimp only
  rw [hasMajority_standing, standing_preCandidateState]
  split
  · rw [standing_becomeCandidate, standing_preCandidateState]
  · rw [standing_broadcastRequestVote, standing_preCandidateState]

theorem standing_tick (n : RaftNode) (io : LogIo) (now : Int) :
    (n.tick io now).standing = n.standing ∨
      n.standing.role ≠ .leader ∧ n.standing.isVoter n.standing.self ∧
        (n.tick io now).standing = n.standing.startPreElection := by
  unfold tick
  split_ifs with hs hl hh he
  · exact .inl standing_resetElectionTimer
  · exact .inl standing_replicateAll
  · exact .inl rfl
  · exact .inr ⟨hl, he.2, standing_startPreElection⟩
  · exact .inl rfl

/-! ## Messages -/

theorem standing_adoptTerm (now : Int) (t : Nat) :
    (if t > n.currentTerm then n.becomeFollower now t else n).standing =
      n.standing.adoptTerm t := by
  rw [apply_ite standing, standing_becomeFollower]
  rfl

theorem standing_onRequestVote (args : RequestVoteArgs) :
    (n.onRequestVote now args).1.standing = n.standing.onRequestVote args := by
  unfold onRequestVote Standing.onRequestVote
  split
  · rfl
  rw [← standing_adoptTerm now]
  dsimp only
  generalize (if args.term > n.currentTerm then n.becomeFollower now args.term else n) = m
  split_ifs
  · rfl
  · exact standing_resetElectionTimer
  · rfl

theorem standing_onRequestVoteReply (src : NodeId) (reply : RequestVoteReply) :
    (n.onRequestVoteReply io now src reply).standing =
      n.standing.onRequestVoteReply src reply := by
  have hcount : (n.countVote src).standing = n.standing.countVote src := rfl
  unfold onRequestVoteReply Standing.onRequestVoteReply
  dsimp only
  rw [hasMajority_standing, hcount]
  simp only [apply_ite standing, standing_becomeFollower, standing_becomeCandidate,
    standing_becomeLeader, hcount]
  rfl

theorem standing_recogniseLeader (now : Int) {t : Nat} (leader : NodeId)
    (ht : ¬ t < n.currentTerm) :
    (n.recogniseLeader now t leader).standing = n.standing.onLeaderMessage t leader := by
  have hset : ∀ m : RaftNode, ({ ({ m with leaderId := some leader } : RaftNode).resetElectionTimer
      now with lastLeaderContact := now } : RaftNode).standing =
        { m.standing with leaderId := some leader } :=
    fun m => standing_resetElectionTimer (n := { m with leaderId := some leader })
  unfold recogniseLeader
  dsimp only
  rw [hset, apply_ite standing, standing_becomeFollower, Standing.onLeaderMessage,
    if_neg (show ¬ t < n.standing.term from ht)]
  rfl

theorem standing_onAppendEntries (args : AppendEntriesArgs) :
    (n.onAppendEntries io now args).1.standing =
      n.standing.onLeaderMessage args.term args.leaderId := by
  unfold onAppendEntries
  split
  · rename_i hlt
    rw [Standing.onLeaderMessage, if_pos (show args.term < n.standing.term from hlt)]
  rename_i hge
  rw [← standing_recogniseLeader now args.leaderId hge]
  generalize n.recogniseLeader now args.term args.leaderId = m
  dsimp only
  split
  · rfl
  split
  · rfl
  split
  · rfl
  split
  · rfl
  · split <;> rfl

theorem standing_onInstallSnapshot (args : InstallSnapshotArgs) :
    (n.onInstallSnapshot io now args).1.standing =
      n.standing.onLeaderMessage args.term args.leaderId := by
  unfold onInstallSnapshot
  split
  · rename_i hlt
    rw [Standing.onLeaderMessage, if_pos (show args.term < n.standing.term from hlt)]
  rename_i hge
  rw [← standing_recogniseLeader now args.leaderId hge]
  generalize n.recogniseLeader now args.term args.leaderId = m
  dsimp only
  split_ifs <;> rfl

theorem standing_creditLastSent (w : NodeId) : (n.creditLastSent w).standing = n.standing :=
  standing_advanceCommitIndex

theorem standing_onAppendEntriesReply (src : NodeId) (reply : AppendEntriesReply) :
    (n.onAppendEntriesReply io now src reply).standing = n.standing.adoptTerm reply.term := by
  unfold onAppendEntriesReply Standing.adoptTerm
  rw [apply_ite standing, standing_becomeFollower]
  refine if_congr Iff.rfl rfl ?_
  split
  · rfl
  split
  · rw [standing_maybeTransferTo, standing_creditLastSent]
  · exact standing_replicateTo (n := n.setNextIndex src _) src

theorem standing_onInstallSnapshotReply (src : NodeId) (reply : InstallSnapshotReply) :
    (n.onInstallSnapshotReply io now src reply).standing = n.standing.adoptTerm reply.term := by
  unfold onInstallSnapshotReply Standing.adoptTerm
  rw [apply_ite standing, standing_becomeFollower]
  refine if_congr Iff.rfl rfl ?_
  split_ifs
  · rfl
  · rw [standing_replicateTo, standing_creditLastSent]

theorem standing_onTimeoutNow (args : TimeoutNowArgs) :
    (n.onTimeoutNow io now args).standing = n.standing.onTimeoutNow args := by
  unfold onTimeoutNow Standing.onTimeoutNow
  dsimp only
  rw [apply_ite standing, standing_becomeCandidate, standing_adoptTerm]
  rfl

theorem standing_onMessage (m : RaftMessage) :
    (n.onMessage io now m).1.standing = n.standing.onMessage m := by
  unfold onMessage Standing.onMessage
  cases m.payload with
  | requestVote args => exact standing_onRequestVote args
  | requestVoteReply reply => exact standing_onRequestVoteReply m.src reply
  | appendEntries args => exact standing_onAppendEntries args
  | appendEntriesReply reply => exact standing_onAppendEntriesReply m.src reply
  | timeoutNow args => exact standing_onTimeoutNow args
  | installSnapshot args => exact standing_onInstallSnapshot args
  | installSnapshotReply reply => exact standing_onInstallSnapshotReply m.src reply

theorem standing_propose (batch : RecordBatch) :
    (n.propose io batch).1.standing = n.standing := by
  unfold propose
  split
  · rfl
  dsimp only
  split
  · rfl
  · rw [standing_advanceCommitIndex, standing_replicateAll]
    rfl

theorem standing_transferLeadership (target : NodeId) :
    (n.transferLeadership io target).1.standing = n.standing := by
  unfold transferLeadership
  split
  · rfl
  split
  · rfl
  split
  · rfl
  · exact standing_maybeTransferTo (n := { n with transferTarget := some target }) target

/-- Every call of the node is a step of its standing. -/
theorem standing_step (n : RaftNode) (call : Carrier.Call) :
    n.standing.Step call (n.step call).standing := by
  cases call with
  | tick io now =>
    change n.standing.Step _ (n.tick io now).standing
    rcases standing_tick n io now with hsame | ⟨hr, hv, hstart⟩
    · rw [hsame]; exact .idle io now
    · rw [hstart]; exact .timeout io now hr hv
  | message io now m =>
    change n.standing.Step _ (n.onMessage io now m).1.standing
    rw [standing_onMessage]
    exact .message io now m
  | propose io batch =>
    change n.standing.Step _ (n.propose io batch).1.standing
    rw [standing_propose]
    exact .propose io batch
  | transfer io target =>
    change n.standing.Step _ (n.transferLeadership io target).1.standing
    rw [standing_transferLeadership]
    exact .transfer io target

end RaftNode

/-! ## What a call can do to a standing -/

namespace Carrier.Call

/-- Who grants a vote, and of which term. -/
def granted : Carrier.Call → Option (NodeId × Nat)
  | .message _ _ { src, payload := .requestVoteReply reply, .. } =>
    if reply.voteGranted then some (src, reply.term) else none
  | _ => none

/-- The term of a message of a leader, and the leader that it names. -/
def heard : Carrier.Call → Option (Nat × NodeId)
  | .message _ _ { payload := .appendEntries args, .. } => some (args.term, args.leaderId)
  | .message _ _ { payload := .installSnapshot args, .. } => some (args.term, args.leaderId)
  | _ => none

/-- The term of a message after which a node of an older term just follows, with no leader. -/
def named : Carrier.Call → Option Nat
  | .message _ _ { payload := .requestVote args, .. } =>
    if args.preVote then none else some args.term
  | .message _ _ { payload := .requestVoteReply reply, .. } => some reply.term
  | .message _ _ { payload := .appendEntriesReply reply, .. } => some reply.term
  | .message _ _ { payload := .installSnapshotReply reply, .. } => some reply.term
  | _ => none

/-- Does the call ask the node to stand without a pre-vote round? -/
def isTimeoutNow : Carrier.Call → Bool
  | .message _ _ { payload := .timeoutNow _, .. } => true
  | _ => false

end Carrier.Call

namespace Standing

variable {s s' : Standing} {es fs : List Carrier.Call} {call : Carrier.Call} {t : Nat}

/-- The changes that a call makes, one after another. -/
inductive Move (call : Carrier.Call) : Standing → Standing → Prop
  | follow (s : Standing) (t : Nat) (hx : call.named = some t) (ht : s.term < t) :
      Move call s (s.becomeFollower t)
  | hear (s : Standing) (t : Nat) (w : NodeId) (hx : call.heard = some (t, w)) (ht : s.term ≤ t) :
      Move call s { s.becomeFollower t with leaderId := some w }
  | heed (s : Standing) (w : NodeId) (hx : call.heard = some (s.term, w))
      (hr : s.role = .follower) : Move call s { s with leaderId := some w }
  | probe (s : Standing) (hr : s.role ≠ .leader) (hv : s.isVoter s.self) :
      Move call s s.preCandidateState
  | count (s : Standing) (w : NodeId) (hx : call.granted = some (w, s.term)) (hv : s.isVoter w)
      (hr : s.role = .preCandidate ∨ s.role = .candidate) : Move call s (s.countVote w)
  | stand (s : Standing) (hr : s.role = .preCandidate) (hm : s.hasMajority) :
      Move call s s.candidateState
  | standAtOnce (s : Standing) (t : Nat) (hx : call.isTimeoutNow) (hv : s.isVoter s.self) :
      Move call s { s.candidateState with term := max s.term t + 1 }
  | win (s : Standing) (hr : s.role = .candidate) (hm : s.hasMajority) :
      Move call s s.becomeLeader

abbrev Moves (call : Carrier.Call) : Standing → Standing → Prop :=
  Relation.ReflTransGen (Move call)

/-- From a fresh round on: a node that is alone has won it already. -/
theorem moves_win (hr : s.role = .candidate) :
    Moves call s (if s.hasMajority then s.becomeLeader else s) := by
  split
  · rename_i hm; exact .single (.win s hr hm)
  · exact .refl

theorem moves_becomeCandidate (hr : s.role = .preCandidate) (hm : s.hasMajority) :
    Moves call s s.becomeCandidate :=
  .head (.stand s hr hm) (moves_win rfl)

theorem moves_startPreElection (hr : s.role ≠ .leader) (hv : s.isVoter s.self) :
    Moves call s s.startPreElection := by
  refine .head (.probe s hr hv) ?_
  unfold startPreElection
  split
  · rename_i hm; exact moves_becomeCandidate rfl hm
  · exact .refl

theorem moves_adoptTerm (hx : call.named = some t) : Moves call s (s.adoptTerm t) := by
  unfold adoptTerm
  split
  · rename_i ht; exact .single (.follow s t hx ht)
  · exact .refl

theorem moves_onLeaderMessage {w : NodeId} (hx : call.heard = some (t, w)) :
    Moves call s (s.onLeaderMessage t w) := by
  unfold onLeaderMessage
  dsimp only
  split
  · exact .refl
  rename_i hge
  split
  · exact .single (.hear s t w hx (Nat.le_of_not_lt hge))
  · rename_i hsame
    rw [not_or, not_not] at hsame
    have ht : t = s.term := by omega
    exact .single (.heed s w (ht ▸ hx) hsame.2)

theorem moves_onRequestVoteReply {src : NodeId} {reply : RequestVoteReply}
    (hnamed : call.named = some reply.term)
    (hgranted : reply.voteGranted → call.granted = some (src, reply.term)) :
    Moves call s (s.onRequestVoteReply src reply) := by
  unfold onRequestVoteReply
  split
  · rename_i ht; exact .single (.follow s _ hnamed ht)
  split
  · rename_i hr
    split
    · rename_i hok
      have hcount : Move call s (s.countVote src) :=
        .count s src (hok.1 ▸ hgranted hok.2.1) hok.2.2 (.inl hr)
      split
      · rename_i hm
        exact .head hcount (moves_becomeCandidate (s := s.countVote src) hr hm)
      · exact .single hcount
    · exact .refl
  split
  · exact .refl
  rename_i hskip
  rw [not_or, not_not, not_not] at hskip
  split
  · rename_i hok
    have hcount : Move call s (s.countVote src) :=
      .count s src (hskip.2 ▸ hgranted hok.1) hok.2 (.inr hskip.1)
    split
    · rename_i hm
      exact .head hcount (.single (.win (s.countVote src) hskip.1 hm))
    · exact .single hcount
  · exact .refl

theorem moves_onTimeoutNow (hx : call.isTimeoutNow) (args : TimeoutNowArgs) :
    Moves call s (s.onTimeoutNow args) := by
  unfold onTimeoutNow
  split
  · exact .refl
  rename_i hskip
  rw [not_or] at hskip
  have hv : s.isVoter s.self := by simpa using hskip.2
  have hstate : (s.adoptTerm args.term).candidateState =
      { s.candidateState with term := max s.term args.term + 1 } := by
    unfold adoptTerm
    split
    · rfl
    · rename_i hle
      rw [Nat.max_eq_left (Nat.le_of_not_lt hle)]
      rfl
  unfold becomeCandidate
  rw [hstate]
  exact .head (.standAtOnce s args.term hx hv) (moves_win rfl)

theorem Step.moves (h : s.Step call s') : Moves call s s' := by
  cases h with
  | idle | propose | transfer => exact .refl
  | timeout io now hr hv => exact moves_startPreElection hr hv
  | message io now m =>
    obtain ⟨src, dst, payload⟩ := m
    cases payload with
    | requestVote args =>
      change Moves _ s (s.onRequestVote args)
      unfold onRequestVote
      split
      · exact .refl
      · rename_i hpre
        exact moves_adoptTerm (if_neg hpre)
    | requestVoteReply reply =>
      exact moves_onRequestVoteReply rfl fun hg => if_pos hg
    | appendEntries args => exact moves_onLeaderMessage rfl
    | installSnapshot args => exact moves_onLeaderMessage rfl
    | timeoutNow args => exact moves_onTimeoutNow rfl args
    | appendEntriesReply reply => exact moves_adoptTerm rfl
    | installSnapshotReply reply => exact moves_adoptTerm rfl

/-- What every move keeps, a call keeps. -/
theorem Moves.invariant {I : Standing → Prop} (hI : ∀ s s', I s → Move call s s' → I s')
    (h : Moves call s s') (hs : I s) : I s' := by
  induction h with
  | refl => exact hs
  | tail _ hmove ih => exact hI _ _ ih hmove

/-- The group is the same. -/
structure SameGroup (s s' : Standing) : Prop where
  self : s'.self = s.self
  peers : s'.peers = s.peers
  learners : s'.learners = s.learners

theorem SameGroup.refl (s : Standing) : s.SameGroup s := ⟨rfl, rfl, rfl⟩

theorem SameGroup.trans {s₁ s₂ s₃ : Standing} (h : s₁.SameGroup s₂) (h' : s₂.SameGroup s₃) :
    s₁.SameGroup s₃ :=
  ⟨h'.self.trans h.self, h'.peers.trans h.peers, h'.learners.trans h.learners⟩

theorem Move.sameGroup (h : Move call s s') : s.SameGroup s' := by
  cases h <;> exact ⟨rfl, rfl, rfl⟩

theorem Moves.sameGroup (h : Moves call s s') : s.SameGroup s' :=
  h.invariant (I := s.SameGroup) (fun _ _ hs hmove => hs.trans hmove.sameGroup) (.refl s)

theorem SameGroup.voters (h : s.SameGroup s') : s'.voters = s.voters := by
  unfold Standing.voters Standing.isVoter
  rw [h.self, h.peers, h.learners]

end Standing

end Nexus
