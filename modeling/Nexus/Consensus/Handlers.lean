import Nexus.Lib.Quorum
import Nexus.Consensus.Actions

/-!
# Every handler is a run of actions

One lemma for each function of the node: its result is reached from the node's core by the
actions of `Act`. The last section puts them together for the events of a cluster.
-/

namespace Nexus

open List

open Relation (ReflTransGen)

namespace RaftNode

variable {x : Cause} {n m : RaftNode} {io : LogIo} {now : Int} {k t : Nat} {p : Packet}
  {preVote : Bool} {dst : NodeId} {c : Core}

/-! ## Updates that the core does not see -/

@[simp] theorem core_resetElectionTimer : (n.resetElectionTimer now).core = n.core := by
  unfold resetElectionTimer
  dsimp only
  split_ifs <;> rfl

@[simp] theorem core_resetHeartbeatTimer : (n.resetHeartbeatTimer now).core = n.core := rfl

@[simp] theorem core_setNextIndex (w : NodeId) (k : Nat) :
    (n.setNextIndex w k).core = n.core := rfl

@[simp] theorem core_setLastSent (w : NodeId) (k : Nat) :
    (n.setLastSent w k).core = n.core := rfl

@[simp] theorem core_send (dst : NodeId) (payload : RaftPayload) :
    (n.send dst payload).core = n.core.emit { msg := { src := n.self, dst, payload } } := by
  simp only [send, core, Core.emit, map_append, map_cons, map_nil]
  rfl

@[simp] theorem core_setLog (log : RaftLog) : (n.setLog log).core = { n.core with log } := rfl

@[simp] theorem core_setCommitIndex (k : Nat) :
    (n.setCommitIndex k).core = { n.core with commit := k } := rfl

@[simp] theorem commitIndex_setLog (log : RaftLog) : (n.setLog log).commitIndex = n.commitIndex :=
  rfl

@[simp] theorem core_log : n.core.log = n.log := rfl

@[simp] theorem core_commit : n.core.commit = n.commitIndex := rfl

/-! ## Roles -/

theorem core_becomeFollower (now : Int) (t : Nat) :
    (n.becomeFollower now t).core =
      if n.currentTerm < t then n.core.raise t else n.core.stepDown := by
  unfold becomeFollower
  dsimp only
  rw [core_resetElectionTimer]
  split <;> rfl

theorem acts_becomeFollower (t : Nat) : Acts x n.core (n.becomeFollower now t).core := by
  rw [core_becomeFollower]
  split
  · rename_i h; exact .single (.raise _ t h)
  · exact .single (.stepDown _)

theorem core_recogniseLeader (now : Int) (t : Nat) (leader : NodeId) :
    (n.recogniseLeader now t leader).core =
      if n.currentTerm < t ∨ n.role ≠ .follower then (n.becomeFollower now t).core
      else n.core := by
  unfold recogniseLeader
  dsimp only
  have h : ∀ m : RaftNode, ({ ({ m with leaderId := some leader } : RaftNode).resetElectionTimer
      now with lastLeaderContact := now } : RaftNode).core = m.core :=
    fun m => core_resetElectionTimer (n := { m with leaderId := some leader })
  rw [h]
  split <;> rfl

theorem acts_recogniseLeader (now : Int) (t : Nat) (leader : NodeId) :
    Acts x n.core (n.recogniseLeader now t leader).core := by
  rw [core_recogniseLeader]
  split
  · exact acts_becomeFollower t
  · exact .refl

/-- A node that recognises the leader of a term that is not behind its own follows it there. -/
theorem recogniseLeader_spec (now : Int) (leader : NodeId) (ht : n.currentTerm ≤ t) :
    let c := (n.recogniseLeader now t leader).core
    c.self = n.self ∧ c.role = .follower ∧ c.term = t ∧ c.log = n.log ∧
      c.commit = n.commitIndex := by
  dsimp only
  rw [core_recogniseLeader, core_becomeFollower]
  split
  · split
    · exact ⟨rfl, rfl, rfl, rfl, rfl⟩
    · exact ⟨rfl, rfl, by simp only [Core.stepDown, core]; omega, rfl, rfl⟩
  · rename_i h
    rw [not_or, not_not] at h
    exact ⟨rfl, h.2, by simp only [core]; omega, rfl, rfl⟩

theorem recogniseLeader_keeps (now : Int) (leader : NodeId) (ht : n.currentTerm ≤ t) :
    (n.recogniseLeader now t leader).log = n.log ∧
      (n.recogniseLeader now t leader).commitIndex = n.commitIndex :=
  (recogniseLeader_spec now leader ht).2.2.2

/-- A loop over the peers whose body is a run of actions is one, as long as the body keeps what
it needs. -/
theorem acts_foldl {I : RaftNode → Prop} {f : RaftNode → NodeId → RaftNode}
    (hf : ∀ m w, I m → Acts x m.core (f m w).core ∧ I (f m w)) (ws : List NodeId)
    (hm : I m) : Acts x m.core (ws.foldl f m).core := by
  induction ws generalizing m with
  | nil => exact .refl
  | cons w ws ih => exact (hf m w hm).1.trans (ih (hf m w hm).2)

theorem acts_broadcastRequestVote (hr : preVote = false → n.role = .candidate) :
    Acts x n.core (n.broadcastRequestVote preVote).core := by
  unfold broadcastRequestVote
  dsimp only
  -- The arguments are those of `n`; sending changes neither its term nor its log.
  apply acts_foldl (I := fun m => m.self = n.self ∧ m.currentTerm = n.currentTerm ∧
    m.log = n.log ∧ m.role = n.role) _ _ ⟨rfl, rfl, rfl, rfl⟩
  rintro m w ⟨hs, ht, hl, hrole⟩
  split
  · refine ⟨?_, hs, ht, hl, hrole⟩
    rw [core_send]
    refine .single (.send _ _ ⟨rfl, ?_⟩)
    cases preVote
    · simp only [Bool.false_eq_true, if_false]
      exact ⟨ht.symm, hs.symm, hrole.trans (hr rfl), by rw [← hl]; rfl, by rw [← hl]; rfl⟩
    · simp only [if_true]
      change n.currentTerm + 1 = m.currentTerm + 1
      rw [ht]
  · exact ⟨.refl, hs, ht, hl, hrole⟩

theorem role_replicateTo (w : NodeId) : (n.replicateTo io w).role = n.role := by
  unfold replicateTo sendSnapshotTo
  dsimp only
  split <;> rfl

theorem acts_replicateTo (w : NodeId) (hr : n.role = .leader) :
    Acts x n.core (n.replicateTo io w).core := by
  unfold replicateTo
  split
  · unfold sendSnapshotTo
    rw [core_send, core_setLastSent]
    exact .single (.send _ _ ⟨rfl, rfl, rfl, hr, rfl⟩)
  · rename_i hnext
    have hprev : n.nextIndex w - 1 + 1 = n.nextIndex w := by omega
    dsimp only
    rw [core_send, core_setLastSent]
    refine .single (.send _ _ ⟨rfl, rfl, rfl, hr, rfl, ?_, ?_, ?_⟩)
    · dsimp only [core]
      cases h : n.log.termAt (n.nextIndex w - 1) with
      | ok t => exact .inl rfl
      | error e => exact .inr ⟨⟨e, rfl⟩, rfl⟩
    · dsimp only [core]; omega
    · dsimp only [core]
      rw [hprev]
      unfold entriesToSend
      split
      · exact .inl rfl
      · cases h : n.log.entriesFrom (n.nextIndex w) kMaxEntriesPerAppend with
        | ok entries => exact .inr rfl
        | error e => exact .inl rfl

/-- Replication only sends. -/
theorem core_replicateTo (n : RaftNode) (io : LogIo) (w : NodeId) :
    ∃ p, (n.replicateTo io w).core = n.core.emit p := by
  unfold replicateTo sendSnapshotTo
  dsimp only
  split
  · exact ⟨_, by rw [core_send, core_setLastSent]⟩
  · exact ⟨_, by rw [core_send, core_setLastSent]⟩

theorem core_replicateAll (n : RaftNode) (io : LogIo) :
    ∃ out, (n.replicateAll io).core = { n.core with out } := by
  unfold replicateAll
  generalize n.peers = ws
  induction ws generalizing n with
  | nil => exact ⟨_, rfl⟩
  | cons w ws ih =>
    obtain ⟨p, hp⟩ := core_replicateTo n io w
    obtain ⟨out, hout⟩ := ih (n := n.replicateTo io w)
    exact ⟨out, hout.trans (by rw [hp]; rfl)⟩

theorem role_replicateAll : (n.replicateAll io).role = n.role := by
  unfold replicateAll
  generalize n.peers = ws
  induction ws generalizing n with
  | nil => rfl
  | cons w ws ih => exact ih.trans (role_replicateTo w)

theorem acts_replicateAll (hr : n.role = .leader) :
    Acts x n.core (n.replicateAll io).core :=
  acts_foldl (I := fun m => m.role = .leader)
    (fun _ w hm => ⟨acts_replicateTo w hm, (role_replicateTo w).trans hm⟩) _ hr

theorem core_leaderState (now : Int) : (n.leaderState now).core = n.core.win := rfl

/-- The term that a node leads, if it does. -/
def leads (n : RaftNode) : Option Nat := if n.role = .leader then some n.currentTerm else none

theorem leads_becomeLeader (io : LogIo) (now : Int) :
    (n.becomeLeader io now).leads = some n.currentTerm := by
  obtain ⟨out, hout⟩ := core_replicateAll (n.leaderState now) io
  have hrole : (n.becomeLeader io now).role = .leader := congrArg Core.role hout
  have hterm : (n.becomeLeader io now).currentTerm = n.currentTerm := congrArg Core.term hout
  rw [leads, if_pos hrole, hterm]

theorem acts_becomeLeader (hr : n.role = .candidate) (hm : n.hasMajority n.votesGranted.length)
    (hx : x.leads = (n.becomeLeader io now).leads) :
    Acts x n.core (n.becomeLeader io now).core := by
  have hwin : Act x n.core n.core.win :=
    .win _ hr (of_decide_eq_true hm) (hx.trans (leads_becomeLeader io now))
  refine .head hwin ?_
  rw [← core_leaderState now]
  exact acts_replicateAll rfl

theorem core_candidateState (now : Int) : (n.candidateState now).core = n.core.stand := by
  unfold candidateState
  rw [core_resetElectionTimer]
  rfl

theorem acts_becomeCandidate (hv : n.isVoter n.self)
    (hx : x.leads = (n.becomeCandidate io now).leads) :
    Acts x n.core (n.becomeCandidate io now).core := by
  have hrole : (n.candidateState now).role = .candidate :=
    congrArg Core.role (core_candidateState now)
  refine .head (.stand _ hv) ?_
  rw [← core_candidateState now]
  revert hx
  unfold becomeCandidate
  dsimp only
  split <;> intro hx
  · rename_i hm; exact acts_becomeLeader hrole hm hx
  · exact acts_broadcastRequestVote fun _ => hrole

theorem core_preCandidateState (now : Int) :
    (n.preCandidateState now).core =
      { n.core with role := .preCandidate, votesGranted := [n.self] } := by
  unfold preCandidateState
  rw [core_resetElectionTimer]
  rfl

theorem isVoter_of_core (h : m.core.learners = n.core.learners) :
    m.isVoter = n.isVoter := by
  funext w
  exact congrArg (fun ls : List NodeId => !ls.contains w) h

theorem acts_startPreElection (hv : n.isVoter n.self) (hr : n.role ≠ .leader)
    (hx : x.leads = (n.startPreElection io now).leads) :
    Acts x n.core (n.startPreElection io now).core := by
  refine .head (.probe _ hr hv) ?_
  change Acts x { n.core with role := .preCandidate, votesGranted := [n.self] } _
  rw [← core_preCandidateState now]
  revert hx
  unfold startPreElection
  dsimp only
  split <;> intro hx
  · refine acts_becomeCandidate ?_ hx
    have hc := core_preCandidateState (n := n) now
    rw [isVoter_of_core (n := n) (by rw [hc]), show (n.preCandidateState now).self = n.self from
      congrArg Core.self hc]
    exact hv
  · exact acts_broadcastRequestVote (by simp)

theorem acts_tick (hx : x.leads = (n.tick io now).leads) :
    Acts x n.core (n.tick io now).core := by
  unfold tick at hx ⊢
  split_ifs at hx ⊢ with hs hl hh he
  · rw [core_resetElectionTimer]; exact .refl
  · exact acts_replicateAll (n := n.resetHeartbeatTimer now) hl
  · exact .refl
  · exact acts_startPreElection he.2 hl hx
  · exact .refl

/-! ## Votes -/

theorem upToDate_of_logIsUpToDate (h : n.logIsUpToDate k t) : n.log.upToDate k t := by
  unfold logIsUpToDate at h
  split at h
  · exact .inl (of_decide_eq_true h)
  · rename_i ht
    exact .inr ⟨not_not.mp ht, of_decide_eq_true h⟩

/-- A node that hears of a term that is ahead of its own adopts it. -/
theorem acts_adoptTerm (now : Int) (t : Nat) :
    Acts x n.core (if t > n.currentTerm then n.becomeFollower now t else n).core := by
  split
  · exact acts_becomeFollower t
  · exact .refl

theorem le_currentTerm_adoptTerm (now : Int) (t : Nat) :
    t ≤ (if t > n.currentTerm then n.becomeFollower now t else n).currentTerm := by
  split
  · rename_i h
    have hc := congrArg Core.term (core_becomeFollower (n := n) now t)
    rw [if_pos h] at hc
    exact Nat.le_of_eq hc.symm
  · omega

theorem self_adoptTerm (now : Int) (t : Nat) :
    (if t > n.currentTerm then n.becomeFollower now t else n).self = n.self := by
  split
  · have hc := congrArg Core.self (core_becomeFollower (n := n) now t)
    rw [apply_ite Core.self] at hc
    exact hc.trans (ite_self _)
  · rfl

theorem term_makePreVoteReply (args : RequestVoteArgs) :
    (n.makePreVoteReply now args).term = n.currentTerm := by
  unfold makePreVoteReply
  dsimp only
  split_ifs <;> rfl

/-- A denial says nothing but the term. -/
theorem truthful_denial (ht : t = c.term) :
    Truthful x c
      { msg := { src := c.self, dst, payload := .requestVoteReply { term := t } }, preVote } :=
  ⟨rfl, ht, fun h => absurd h (by simp)⟩

/-- `on_request_vote` with its answer. -/
theorem acts_onRequestVote {args : RequestVoteArgs} (hp : x.packet = some p)
    (ha : p.msg.payload = .requestVote args) :
    Acts x n.core ((n.onRequestVote now args).1.core.emit
      { msg := { src := n.self, dst := p.msg.src,
                 payload := .requestVoteReply (n.onRequestVote now args).2 }
        preVote := args.preVote }) := by
  have hx : x.Handles p.msg.src (.requestVote args) := ⟨p, hp, rfl, ha⟩
  unfold onRequestVote
  split
  · rename_i hpre
    refine .single (.send _ _ ⟨rfl, term_makePreVoteReply args, ?_⟩)
    intro _ h
    exact absurd (hpre.symm.trans h) (by simp)
  · rename_i hpre
    have hacts := acts_adoptTerm (x := x) (n := n) now args.term
    have hle := le_currentTerm_adoptTerm (n := n) now args.term
    have hself := self_adoptTerm (n := n) now args.term
    dsimp only
    generalize (if args.term > n.currentTerm then n.becomeFollower now args.term else n) = m
      at hacts hle hself ⊢
    rw [← hself]
    split_ifs with hlt hcan
    · exact hacts.tail (.send _ _ (truthful_denial rfl))
    · have hterm : args.term = m.core.term := by
        change args.term = m.currentTerm; omega
      have hcast : Act x m.core (m.core.cast args.candidateId) :=
        .cast _ _ args hx (by simpa using hpre) hterm hcan.1 (upToDate_of_logIsUpToDate hcan.2)
      refine (hacts.tail hcast).tail ?_
      rw [core_resetElectionTimer]
      exact .send _ _ ⟨rfl, rfl, fun _ hpv => ⟨args, hx, hpv, rfl⟩⟩
    · exact hacts.tail (.send _ _ (truthful_denial rfl))

theorem acts_onRequestVoteReply {reply : RequestVoteReply} (hn : x.node = n)
    (hp : x.packet = some p) (ha : p.msg.payload = .requestVoteReply reply)
    (hv : n.role = .preCandidate → n.isVoter n.self)
    (hl : x.leads = (n.onRequestVoteReply io now p.msg.src reply).leads) :
    Acts x n.core (n.onRequestVoteReply io now p.msg.src reply).core := by
  have hx : x.Handles p.msg.src (.requestVoteReply reply) := ⟨p, hp, rfl, ha⟩
  revert hl
  unfold onRequestVoteReply
  dsimp only
  split
  · exact fun _ => acts_becomeFollower _
  split
  · rename_i hpre
    split
    · have hpoll : Act x n.core (n.countVote p.msg.src).core := .poll _ p.msg.src hpre
      split <;> intro hl <;> refine .head hpoll ?_
      · exact acts_becomeCandidate (hv hpre) hl
      · exact .refl
    · exact fun _ => .refl
  split
  · exact fun _ => .refl
  rename_i hskip
  rw [not_or, not_not, not_not] at hskip
  split
  · rename_i hok
    have hcount : Act x n.core (n.countVote p.msg.src).core :=
      .count _ _ reply hx hskip.1 (hn ▸ hskip.1) (hn ▸ hskip.2.symm) hskip.2 hok.1 hok.2
    split <;> intro hl <;> refine .head hcount ?_
    · rename_i hmaj; exact acts_becomeLeader hskip.1 hmaj hl
    · exact .refl
  · exact fun _ => .refl

/-! ## Replication -/

/-- A refusal says nothing but the term. -/
theorem truthful_refusal {r : AppendEntriesReply} (ht : r.term = c.term) (hs : r.success = false) :
    Truthful x c { msg := { src := c.self, dst, payload := .appendEntriesReply r } } :=
  ⟨rfl, ht, hs⟩

/-- `on_append_entries` with its answer. -/
theorem acts_onAppendEntries {args : AppendEntriesArgs} (hn : x.node = n) (hp : x.packet = some p)
    (ha : p.msg.payload = .appendEntries args) :
    Acts x n.core ((n.onAppendEntries io now args).1.core.emit
      { msg := { src := n.self, dst := p.msg.src,
                 payload := .appendEntriesReply (n.onAppendEntries io now args).2 }
        matched := if (n.onAppendEntries io now args).2.success then
          args.prevLogIndex + args.entries.length else 0 }) := by
  have hx : x.Handles p.msg.src (.appendEntries args) := ⟨p, hp, rfl, ha⟩
  unfold onAppendEntries
  split
  · exact .single (.send _ _ (truthful_refusal rfl rfl))
  rename_i hlt
  have hacts := acts_recogniseLeader (x := x) (n := n) now args.term args.leaderId
  have hspec := recogniseLeader_spec (n := n) now args.leaderId (Nat.le_of_not_lt hlt)
  dsimp only at hspec ⊢
  generalize n.recogniseLeader now args.term args.leaderId = m at hacts hspec ⊢
  obtain ⟨hself, hrole, hterm, hlog, hcommit⟩ := hspec
  rw [← hself]
  split
  · exact hacts.tail (.send _ _ (truthful_refusal rfl rfl))
  rename_i hprev
  split
  · exact hacts.tail (.send _ _ (truthful_refusal rfl rfl))
  rename_i t ht
  split
  · exact hacts.tail (.send _ _ (truthful_refusal rfl rfl))
  rename_i heq
  rw [not_not] at heq
  subst heq
  have happ : Act x m.core (m.core.appendEntries io p.msg.src args) :=
    .append _ _ args io hx hrole hterm.symm (hn ▸ hlog) (hn ▸ hcommit) (Nat.le_of_not_lt hprev) ht
  refine hacts.tail (Eq.subst ?_ happ)
  cases hok : (appendEntriesFrom m.log io args.entries).2 with
  | false =>
    simp only [Core.appendEntries, core_log, hok, Bool.not_false, Bool.false_eq_true, if_true,
      if_false, false_and]
    rfl
  | true =>
    simp only [Core.appendEntries, core_log, core_commit, commitIndex_setLog, hok, Bool.not_true,
      Bool.false_eq_true, if_true, if_false, true_and]
    by_cases hc : args.leaderCommit > m.commitIndex
    · simp only [hc, if_true]; rfl
    · simp only [hc, if_false]; rfl

theorem voterMatches_core : n.core.voterMatches = n.voterMatches := rfl

/-- The entry that `advance_commit_index` looks at is at or above `k` just when a majority of the
voters is. -/
theorem le_candidate_iff (hk : 0 < k) :
    k ≤ ((n.voterMatches.insertionSort (· ≥ ·))[
        (n.voterMatches.insertionSort (· ≥ ·)).length / 2]?).getD 0 ↔
      n.voterMatches.length < 2 * n.voterMatches.countP fun m => decide (k ≤ m) := by
  have hperm := perm_insertionSort (· ≥ ·) n.voterMatches
  rw [← hperm.countP_eq, ← hperm.length_eq]
  exact Lib.le_middle_iff (pairwise_insertionSort (· ≥ ·) n.voterMatches) hk

theorem acts_advanceCommitIndex (hr : n.role = .leader) :
    Acts x n.core n.advanceCommitIndex.core := by
  unfold advanceCommitIndex
  dsimp only
  split
  · exact .refl
  rename_i hlt
  split
  · rename_i ht
    refine .single (.commit _ _ hr (Nat.lt_of_not_le hlt) ht ?_)
    rw [voterMatches_core]
    exact (le_candidate_iff (Nat.zero_lt_of_lt (Nat.lt_of_not_le hlt))).mp (Nat.le_refl _)
  · exact .refl

theorem log_advanceCommitIndex : n.advanceCommitIndex.log = n.log := by
  unfold advanceCommitIndex
  dsimp only
  split_ifs <;> rfl

theorem le_commitIndex_of_le_advanceCommitIndex (h : k ≤ n.commitIndex) :
    k ≤ n.advanceCommitIndex.commitIndex := by
  unfold advanceCommitIndex
  dsimp only
  split
  · exact h
  split
  · rename_i hlt _
    exact h.trans (Nat.le_of_lt (Nat.lt_of_not_le hlt))
  · exact h

/-- When the last entry is of the node's term and not yet committed, it gets committed just when it
is the highest one that a majority of the voters is known to hold. -/
theorem le_commitIndex_advanceCommitIndex (hk : n.commitIndex < k)
    (ht : n.log.termAt k = .ok n.currentTerm)
    (hlast : ∀ j, k < j → n.log.termAt j ≠ .ok n.currentTerm) :
    k ≤ n.advanceCommitIndex.commitIndex ↔
      n.voterMatches.length < 2 * n.voterMatches.countP (fun m => decide (k ≤ m)) ∧
      ¬ n.voterMatches.length < 2 * n.voterMatches.countP (fun m => decide (k + 1 ≤ m)) := by
  rw [← le_candidate_iff (by omega : 0 < k), ← le_candidate_iff (Nat.succ_pos k)]
  unfold advanceCommitIndex
  dsimp only
  generalize ((n.voterMatches.insertionSort (· ≥ ·))[
    (n.voterMatches.insertionSort (· ≥ ·)).length / 2]?).getD 0 = candidate
  split
  · constructor <;> omega
  split
  · rename_i hterm
    have hle : candidate ≤ k := Nat.le_of_not_lt fun h => hlast _ h hterm
    change k ≤ candidate ↔ _
    omega
  · rename_i hterm
    have hne : candidate ≠ k := fun h => hterm (h ▸ ht)
    constructor <;> omega

theorem role_advanceCommitIndex : n.advanceCommitIndex.role = n.role := by
  unfold advanceCommitIndex
  dsimp only
  split_ifs <;> rfl

theorem role_creditLastSent (w : NodeId) : (n.creditLastSent w).role = n.role :=
  role_advanceCommitIndex

theorem acts_maybeTransferTo (w : NodeId) (hr : n.role = .leader) :
    Acts x n.core (n.maybeTransferTo io w).core := by
  unfold maybeTransferTo
  split
  · exact .refl
  split
  · change Acts x n.core (n.send w _).core
    rw [core_send]
    exact .single (.send _ _ ⟨rfl, rfl⟩)
  · exact acts_replicateTo w hr

theorem core_creditLastSent (w : NodeId) : ∃ m : RaftNode,
    m.core = n.core.credit w (n.lastSent w) ∧ n.creditLastSent w = m.advanceCommitIndex :=
  ⟨_, rfl, rfl⟩

theorem acts_creditLastSent (hn : x.node = n) (hp : x.packet = some p)
    (ha : Acknowledges n.currentTerm p.msg.payload) (hr : n.role = .leader) :
    Acts x n.core (n.creditLastSent p.msg.src).core := by
  obtain ⟨m, hm, heq⟩ := core_creditLastSent (n := n) p.msg.src
  have hcredit : Act x n.core (n.core.credit p.msg.src (n.lastSent p.msg.src)) := by
    have h : Act x n.core (n.core.credit p.msg.src (x.node.lastSent p.msg.src)) :=
      .credit _ _ _ ⟨p, hp, rfl, rfl⟩ ha hr (hn ▸ hr) (hn ▸ rfl) (hn ▸ rfl)
    rwa [hn] at h
  refine .head hcredit ?_
  rw [heq, ← hm]
  exact acts_advanceCommitIndex ((congrArg Core.role hm).trans hr)

theorem acts_onAppendEntriesReply {reply : AppendEntriesReply} (hn : x.node = n)
    (hp : x.packet = some p) (ha : p.msg.payload = .appendEntriesReply reply) :
    Acts x n.core (n.onAppendEntriesReply io now p.msg.src reply).core := by
  unfold onAppendEntriesReply
  split
  · exact acts_becomeFollower _
  split
  · exact .refl
  rename_i hskip
  rw [not_or, not_not, not_not] at hskip
  split
  · rename_i hs
    have hack : Acknowledges n.currentTerm p.msg.payload := by
      rw [ha]; exact .append reply hskip.2 hs
    exact (acts_creditLastSent hn hp hack hskip.1).trans
      (acts_maybeTransferTo _ ((role_creditLastSent _).trans hskip.1))
  · exact acts_replicateTo (n := n.setNextIndex p.msg.src _) _ hskip.1

theorem acts_propose {batch : RecordBatch} (hb : x.batch = some batch) :
    Acts x n.core (n.propose io batch).1.core := by
  unfold propose
  split
  · exact .refl
  rename_i hr
  rw [not_not] at hr
  dsimp only
  have hwrite : Act x n.core (n.setLog (n.log.append io.appendFails
      [{ term := n.currentTerm, index := n.log.lastIndex + 1, payload := batch }]).1).core :=
    .write _ batch io.appendFails hb hr
  generalize n.log.append io.appendFails _ = appended at hwrite ⊢
  split
  · exact .single hwrite
  · have hlead : (n.setLog appended.1).role = .leader := hr
    generalize n.setLog appended.1 = m at hwrite hlead ⊢
    exact .head hwrite ((acts_replicateAll hlead).trans
      (acts_advanceCommitIndex (role_replicateAll.trans hlead)))

theorem acts_transferLeadership (target : NodeId) :
    Acts x n.core (n.transferLeadership io target).1.core := by
  unfold transferLeadership
  split
  · exact .refl
  rename_i hr
  rw [not_not] at hr
  split
  · exact .refl
  split
  · exact .refl
  · exact acts_maybeTransferTo (n := { n with transferTarget := some target }) target hr

theorem core_static_adoptTerm (now : Int) (t : Nat) :
    (if t > n.currentTerm then n.becomeFollower now t else n).core.learners = n.learners := by
  split
  · rw [core_becomeFollower]; split <;> rfl
  · rfl

theorem acts_onTimeoutNow (args : TimeoutNowArgs)
    (hx : x.leads = (n.onTimeoutNow io now args).leads) :
    Acts x n.core (n.onTimeoutNow io now args).core := by
  revert hx
  unfold onTimeoutNow
  split <;> intro hx
  · exact .refl
  rename_i hskip
  rw [not_or] at hskip
  refine (acts_adoptTerm now args.term).trans (acts_becomeCandidate ?_ hx)
  rw [isVoter_of_core (core_static_adoptTerm now args.term), self_adoptTerm]
  simpa using hskip.2

/-! ## Snapshots -/

/-- `on_install_snapshot` with its answer. -/
theorem acts_onInstallSnapshot {args : InstallSnapshotArgs} (hp : x.packet = some p)
    (ha : p.msg.payload = .installSnapshot args) :
    Acts x n.core ((n.onInstallSnapshot io now args).1.core.emit
      { msg := { src := n.self, dst := p.msg.src,
                 payload := .installSnapshotReply (n.onInstallSnapshot io now args).2 }
        matched := if n.installs io args then args.snapshot.lastIncludedIndex else 0 }) := by
  have hx : x.Handles p.msg.src (.installSnapshot args) := ⟨p, hp, rfl, ha⟩
  unfold onInstallSnapshot installs
  split
  · rename_i hlt
    rw [decide_eq_false (Nat.not_le_of_lt hlt)]
    exact .single (.send _ _ ⟨rfl, rfl, rfl⟩)
  rename_i hlt
  rw [decide_eq_true (Nat.le_of_not_lt hlt), Bool.true_and]
  have hacts := acts_recogniseLeader (x := x) (n := n) now args.term args.leaderId
  have hspec := recogniseLeader_spec (n := n) now args.leaderId (Nat.le_of_not_lt hlt)
  dsimp only at hspec ⊢
  generalize n.recogniseLeader now args.term args.leaderId = m at hacts hspec ⊢
  obtain ⟨hself, hrole, hterm, hlog, -⟩ := hspec
  rw [← hself, ← hlog, core_log]
  refine hacts.tail (Eq.subst ?_ (.install _ _ args io.install hx hrole hterm.symm))
  unfold Core.installSnapshot
  dsimp only
  rw [core_log]
  generalize m.log.installSnapshot io.install _ _ _ = installed
  by_cases hc : installed.2 = true ∧ args.snapshot.lastIncludedIndex > m.commitIndex
  · simp only [core_commit, commitIndex_setLog, hc, if_true, and_self]; rfl
  · simp only [core_commit, commitIndex_setLog, hc, if_false]; rfl

theorem acts_onInstallSnapshotReply {reply : InstallSnapshotReply} (hn : x.node = n)
    (hp : x.packet = some p) (ha : p.msg.payload = .installSnapshotReply reply) :
    Acts x n.core (n.onInstallSnapshotReply io now p.msg.src reply).core := by
  unfold onInstallSnapshotReply
  split
  · exact acts_becomeFollower _
  split
  · exact .refl
  rename_i hskip
  rw [not_or, not_not, not_not] at hskip
  have hack : Acknowledges n.currentTerm p.msg.payload := by
    rw [ha]; exact .install reply hskip.2
  exact (acts_creditLastSent hn hp hack hskip.1).trans
    (acts_replicateTo _ ((role_creditLastSent _).trans hskip.1))

theorem acts_maybeCompact (hx : x.compacts = true) (threshold : Nat) :
    Acts x n.core (n.maybeCompact threshold).core := by
  unfold maybeCompact
  split
  · exact .refl
  split
  · exact .refl
  split
  · exact .refl
  · rename_i h; exact .single (.compact _ _ hx h)

/-! ## Messages -/

/-- `on_message`, with the immediate answers counted as sent. -/
theorem acts_onMessage (hn : x.node = n) (hp : x.packet = some p)
    (hv : n.role = .preCandidate → n.isVoter n.self)
    (hx : x.leads = (n.onMessage io now p.msg).1.leads) :
    let out := n.onMessage io now p.msg
    Acts x n.core { out.1.core with out := out.1.core.out ++ out.2 } := by
  unfold onMessage at hx ⊢
  cases ha : p.msg.payload with
  | requestVote args => exact acts_onRequestVote hp ha
  | appendEntries args => exact acts_onAppendEntries hn hp ha
  | installSnapshot args => exact acts_onInstallSnapshot hp ha
  | timeoutNow args =>
    dsimp only; rw [append_nil]; exact acts_onTimeoutNow args (by rw [hx, ha])
  | requestVoteReply reply =>
    dsimp only; rw [append_nil]; exact acts_onRequestVoteReply hn hp ha hv (by rw [hx, ha])
  | appendEntriesReply reply =>
    dsimp only; rw [append_nil]; exact acts_onAppendEntriesReply hn hp ha
  | installSnapshotReply reply =>
    dsimp only; rw [append_nil]; exact acts_onInstallSnapshotReply hn hp ha

end RaftNode

end Nexus
