import Nexus.Consensus.Carrier
import Nexus.Consensus.Safety

/-!
# Leader epochs

`leader_epoch` counts the elections that a process has won: `become_leader` raises it, a new process
starts it at 0, and nothing else touches it. The epoch that a leader puts into its messages is read
by no handler, so the counters of different nodes know nothing of each other.

* `RaftNode.Tally`: what one call does to the counter.
* `Cluster.leaderEpoch_run`: the counter of a node is the number of elections that it won since it
  last started.
* `Cluster.epochsOrder_iff`: when the epochs order the leaderships of a run.
-/

namespace Nexus

open Lib Function

namespace RaftNode

/-- The node has come to lead a term that it did not lead before. -/
def Wins (n n' : RaftNode) : Prop := n'.leads ≠ none ∧ n'.leads ≠ n.leads

instance (n n' : RaftNode) : Decidable (n.Wins n') := inferInstanceAs (Decidable (_ ∧ _))

/-- The epoch goes up with a win, and only then. -/
def Tally (n n' : RaftNode) : Prop :=
  n'.leaderEpoch = n.leaderEpoch + if n.Wins n' then 1 else 0

/-- Nothing that has to do with leading changes. -/
structure SameLead (n n' : RaftNode) : Prop where
  role : n'.role = n.role
  term : n'.currentTerm = n.currentTerm
  epoch : n'.leaderEpoch = n.leaderEpoch

variable {n m m' : RaftNode} {io : LogIo} {now : Int}

theorem SameLead.refl (n : RaftNode) : n.SameLead n := ⟨rfl, rfl, rfl⟩

theorem SameLead.trans (h : n.SameLead m) (h' : m.SameLead m') : n.SameLead m' :=
  ⟨h'.role.trans h.role, h'.term.trans h.term, h'.epoch.trans h.epoch⟩

theorem SameLead.leads (h : n.SameLead m) : m.leads = n.leads := by
  rw [RaftNode.leads, RaftNode.leads, h.role, h.term]

theorem leads_eq_none (h : n.role ≠ .leader) : n.leads = none := if_neg h

theorem leads_ne_of_lt {t : Nat} (h : n.currentTerm < t) : n.leads ≠ some t := by
  unfold leads
  split
  · rintro ⟨⟩; omega
  · simp

/-! ## Calls that win nothing -/

theorem tally_of_eq (he : m.leaderEpoch = n.leaderEpoch) (hl : m.leads = none ∨ m.leads = n.leads) :
    n.Tally m := by
  have hnot : ¬ n.Wins m := fun hw => hl.elim hw.1 hw.2
  rw [Tally, if_neg hnot, he]
  rfl

theorem SameLead.tally (h : n.SameLead m) : n.Tally m := tally_of_eq h.epoch (.inr h.leads)

theorem Tally.refl (n : RaftNode) : n.Tally n := (SameLead.refl n).tally

/-- A call that does nothing more for leading than the one that led to `m`. -/
theorem Tally.sameLead (h : n.Tally m) (h' : m.SameLead m') : n.Tally m' := by
  have hwins : n.Wins m' ↔ n.Wins m := by rw [Wins, Wins, h'.leads]
  rw [Tally, h'.epoch]
  simp only [hwins]
  exact h

theorem tally_of_not_leader (he : m.leaderEpoch = n.leaderEpoch) (hr : m.role ≠ .leader) :
    n.Tally m := tally_of_eq he (.inl (leads_eq_none hr))

variable (n io now)

theorem sameLead_resetElectionTimer : n.SameLead (n.resetElectionTimer now) := by
  unfold resetElectionTimer
  dsimp only
  split_ifs <;> exact ⟨rfl, rfl, rfl⟩

theorem sameLead_replicateTo (w : NodeId) : n.SameLead (n.replicateTo io w) := by
  unfold replicateTo sendSnapshotTo
  dsimp only
  split <;> exact ⟨rfl, rfl, rfl⟩

theorem sameLead_foldl {f : RaftNode → NodeId → RaftNode}
    (hf : ∀ (m : RaftNode) (w : NodeId), m.SameLead (f m w)) (n : RaftNode) (ws : List NodeId) :
    n.SameLead (ws.foldl f n) := by
  induction ws generalizing n with
  | nil => exact .refl n
  | cons w ws ih => exact (hf n w).trans (ih _)

theorem sameLead_replicateAll : n.SameLead (n.replicateAll io) :=
  sameLead_foldl (fun m w => sameLead_replicateTo m io w) n n.peers

theorem sameLead_broadcastRequestVote (preVote : Bool) :
    n.SameLead (n.broadcastRequestVote preVote) := by
  refine sameLead_foldl (fun m w => ?_) n n.peers
  split
  · exact ⟨rfl, rfl, rfl⟩
  · exact .refl m

theorem sameLead_advanceCommitIndex : n.SameLead n.advanceCommitIndex := by
  unfold advanceCommitIndex
  dsimp only
  split_ifs <;> exact ⟨rfl, rfl, rfl⟩

theorem sameLead_creditLastSent (w : NodeId) : n.SameLead (n.creditLastSent w) :=
  SameLead.trans (m := (n.setMatchIndex w _).setNextIndex w _) ⟨rfl, rfl, rfl⟩
    (sameLead_advanceCommitIndex _)

theorem sameLead_maybeTransferTo (w : NodeId) : n.SameLead (n.maybeTransferTo io w) := by
  unfold maybeTransferTo
  split_ifs
  · exact .refl n
  · exact ⟨rfl, rfl, rfl⟩
  · exact sameLead_replicateTo n io w

/-- A node that falls back leads nothing; its counter stays, and its term is not behind. -/
theorem becomeFollower_spec (t : Nat) :
    (n.becomeFollower now t).role = .follower ∧
    (n.becomeFollower now t).leaderEpoch = n.leaderEpoch ∧
    n.currentTerm ≤ (n.becomeFollower now t).currentTerm := by
  unfold becomeFollower
  dsimp only
  have h := fun m => sameLead_resetElectionTimer m now
  refine ⟨(h _).role, ?_, ?_⟩
  · rw [(h _).epoch]
    split <;> rfl
  · rw [(h _).term]
    split
    · rename_i hlt; exact Nat.le_of_lt hlt
    · exact Nat.le_refl _

theorem tally_becomeFollower (t : Nat) : n.Tally (n.becomeFollower now t) := by
  obtain ⟨hr, he, -⟩ := becomeFollower_spec n now t
  exact tally_of_not_leader he (by rw [hr]; simp)

theorem tally_recogniseLeader (t : Nat) (leader : NodeId) :
    n.Tally (n.recogniseLeader now t leader) := by
  have h : n.Tally (if t > n.currentTerm ∨ n.role ≠ .follower then n.becomeFollower now t
      else n) := by
    split
    · exact tally_becomeFollower n now t
    · exact .refl n
  unfold recogniseLeader
  dsimp only
  generalize (if t > n.currentTerm ∨ n.role ≠ .follower then n.becomeFollower now t else n) = m
    at h ⊢
  have hset : m.SameLead { m with leaderId := some leader } := ⟨rfl, rfl, rfl⟩
  exact h.sameLead ((hset.trans (sameLead_resetElectionTimer _ now)).trans ⟨rfl, rfl, rfl⟩)

/-! ## Calls that may win -/

variable {n} in
theorem tally_becomeLeader (he : m.leaderEpoch = n.leaderEpoch)
    (hn : n.leads ≠ some m.currentTerm) : n.Tally (m.becomeLeader io now) := by
  have hleads := leads_becomeLeader (n := m) io now
  have hwins : n.Wins (m.becomeLeader io now) := by
    rw [Wins, hleads]
    exact ⟨by simp, hn.symm⟩
  rw [Tally, if_pos hwins, ← he]
  exact (sameLead_replicateAll (m.leaderState now) io).epoch

variable {n} in
theorem tally_becomeCandidate (he : m.leaderEpoch = n.leaderEpoch)
    (ht : n.currentTerm ≤ m.currentTerm) : n.Tally (m.becomeCandidate io now) := by
  have hs : (m.candidateState now).role = .candidate ∧
      (m.candidateState now).leaderEpoch = m.leaderEpoch ∧
      (m.candidateState now).currentTerm = m.currentTerm + 1 := by
    have h := fun m => sameLead_resetElectionTimer m now
    exact ⟨(h _).role, (h _).epoch, (h _).term⟩
  unfold becomeCandidate
  dsimp only
  split
  · exact tally_becomeLeader io now (hs.2.1.trans he)
      (leads_ne_of_lt (by rw [hs.2.2]; exact Nat.lt_succ_of_le ht))
  · have hb := sameLead_broadcastRequestVote (m.candidateState now) false
    exact tally_of_not_leader (hb.epoch.trans (hs.2.1.trans he)) (by rw [hb.role, hs.1]; simp)

theorem tally_startPreElection : n.Tally (n.startPreElection io now) := by
  have hs : (n.preCandidateState now).role = .preCandidate ∧
      (n.preCandidateState now).leaderEpoch = n.leaderEpoch ∧
      (n.preCandidateState now).currentTerm = n.currentTerm := by
    have h := fun m => sameLead_resetElectionTimer m now
    exact ⟨(h _).role, (h _).epoch, (h _).term⟩
  unfold startPreElection
  dsimp only
  split
  · exact tally_becomeCandidate io now hs.2.1 (Nat.le_of_eq hs.2.2.symm)
  · have hb := sameLead_broadcastRequestVote (n.preCandidateState now) true
    exact tally_of_not_leader (hb.epoch.trans hs.2.1) (by rw [hb.role, hs.1]; simp)

theorem tally_tick : n.Tally (n.tick io now) := by
  unfold tick
  split_ifs
  · exact (SameLead.trans (m := { n with started := true }) ⟨rfl, rfl, rfl⟩
      (sameLead_resetElectionTimer _ now)).tally
  · exact (SameLead.trans (m := n.resetHeartbeatTimer now) ⟨rfl, rfl, rfl⟩
      (sameLead_replicateAll _ io)).tally
  · exact .refl n
  · exact tally_startPreElection n io now
  · exact .refl n

theorem tally_adoptTerm (t : Nat) :
    n.Tally (if t > n.currentTerm then n.becomeFollower now t else n) := by
  split
  · exact tally_becomeFollower n now t
  · exact .refl n

/-! ## Handlers -/

theorem tally_onRequestVote (args : RequestVoteArgs) : n.Tally (n.onRequestVote now args).1 := by
  unfold onRequestVote
  split
  · exact .refl n
  have h := tally_adoptTerm n now args.term
  dsimp only
  split_ifs at h ⊢
  all_goals first
    | exact h
    | exact h.sameLead (SameLead.trans (m := recordVote _ args.candidateId) ⟨rfl, rfl, rfl⟩
        (sameLead_resetElectionTimer _ now))

theorem tally_onRequestVoteReply (src : NodeId) (reply : RequestVoteReply) :
    n.Tally (n.onRequestVoteReply io now src reply) := by
  have hcount : n.SameLead (n.countVote src) := ⟨rfl, rfl, rfl⟩
  unfold onRequestVoteReply
  dsimp only
  split_ifs with hterm hpre _ _ hskip
  · exact tally_becomeFollower n now reply.term
  · exact tally_becomeCandidate io now rfl (Nat.le_refl _)
  · exact hcount.tally
  · exact .refl n
  · exact .refl n
  · refine tally_becomeLeader io now rfl ?_
    rw [not_or, not_not] at hskip
    rw [leads_eq_none (by rw [hskip.1]; simp)]
    simp
  · exact hcount.tally
  · exact .refl n

theorem tally_onAppendEntries (args : AppendEntriesArgs) :
    n.Tally (n.onAppendEntries io now args).1 := by
  unfold onAppendEntries
  split
  · exact .refl n
  have h := tally_recogniseLeader n now args.term args.leaderId
  dsimp only
  generalize n.recogniseLeader now args.term args.leaderId = m at h ⊢
  split
  · exact h
  split
  · exact h
  split_ifs
  · exact h
  all_goals exact h.sameLead ⟨rfl, rfl, rfl⟩

theorem tally_onAppendEntriesReply (src : NodeId) (reply : AppendEntriesReply) :
    n.Tally (n.onAppendEntriesReply io now src reply) := by
  unfold onAppendEntriesReply
  dsimp only
  split_ifs
  · exact tally_becomeFollower n now reply.term
  · exact .refl n
  · exact ((sameLead_creditLastSent n src).trans (sameLead_maybeTransferTo _ io src)).tally
  all_goals exact (SameLead.trans (m := n.setNextIndex src _) ⟨rfl, rfl, rfl⟩
    (sameLead_replicateTo _ io src)).tally

theorem tally_onTimeoutNow (args : TimeoutNowArgs) : n.Tally (n.onTimeoutNow io now args) := by
  unfold onTimeoutNow
  split
  · exact .refl n
  dsimp only
  split
  · obtain ⟨-, he, ht⟩ := becomeFollower_spec n now args.term
    exact tally_becomeCandidate io now he ht
  · exact tally_becomeCandidate io now rfl (Nat.le_refl _)

theorem tally_onInstallSnapshot (args : InstallSnapshotArgs) :
    n.Tally (n.onInstallSnapshot io now args).1 := by
  unfold onInstallSnapshot
  split
  · exact .refl n
  have h := tally_recogniseLeader n now args.term args.leaderId
  dsimp only
  generalize n.recogniseLeader now args.term args.leaderId = m at h ⊢
  split <;> exact h.sameLead ⟨rfl, rfl, rfl⟩

theorem tally_onInstallSnapshotReply (src : NodeId) (reply : InstallSnapshotReply) :
    n.Tally (n.onInstallSnapshotReply io now src reply) := by
  unfold onInstallSnapshotReply
  split_ifs
  · exact tally_becomeFollower n now reply.term
  · exact .refl n
  · exact ((sameLead_creditLastSent n src).trans (sameLead_replicateTo _ io src)).tally

theorem tally_onMessage (m : RaftMessage) : n.Tally (n.onMessage io now m).1 := by
  unfold onMessage
  cases m.payload with
  | requestVote args => exact tally_onRequestVote n now args
  | requestVoteReply reply => exact tally_onRequestVoteReply n io now m.src reply
  | appendEntries args => exact tally_onAppendEntries n io now args
  | appendEntriesReply reply => exact tally_onAppendEntriesReply n io now m.src reply
  | timeoutNow args => exact tally_onTimeoutNow n io now args
  | installSnapshot args => exact tally_onInstallSnapshot n io now args
  | installSnapshotReply reply => exact tally_onInstallSnapshotReply n io now m.src reply

theorem tally_propose (batch : RecordBatch) : n.Tally (n.propose io batch).1 := by
  unfold propose
  split
  · exact .refl n
  dsimp only
  split
  · exact SameLead.tally ⟨rfl, rfl, rfl⟩
  · exact (SameLead.trans (m := n.setLog _) ⟨rfl, rfl, rfl⟩
      ((sameLead_replicateAll _ io).trans (sameLead_advanceCommitIndex _))).tally

theorem tally_transferLeadership (target : NodeId) :
    n.Tally (n.transferLeadership io target).1 := by
  unfold transferLeadership
  split
  · exact .refl n
  split
  · exact .refl n
  split
  · exact .refl n
  · exact (SameLead.trans (m := { n with transferTarget := some target }) ⟨rfl, rfl, rfl⟩
      (sameLead_maybeTransferTo _ io target)).tally

theorem tally_maybeCompact (threshold : Nat) : n.Tally (n.maybeCompact threshold) := by
  unfold maybeCompact
  split_ifs
  · exact .refl n
  · exact .refl n
  · split
    · exact .refl n
    · exact SameLead.tally ⟨rfl, rfl, rfl⟩

end RaftNode

/-! ## Clusters whose nodes restart -/

/-- What can happen to a cluster: an event, or a new process for node `v` over the log, the term and
the vote that it finds on its disk. -/
inductive Occurrence
  | event (e : Event)
  | restart (v : NodeId) (log : RaftLog) (stored : RaftPersistentState)

namespace Cluster

def occur (c : Cluster) : Occurrence → Cluster
  | .event e => c.step e
  | .restart v log stored =>
    if v ∈ c.members then
      { c with nodes := Function.update c.nodes v ((c.nodes v).restart log stored) }
    else c

/-- The elections that node `v` won since it last started, once `o` has happened. -/
def countWin (v : NodeId) (c : Cluster) (k : Nat) (o : Occurrence) : Nat :=
  match o with
  | .restart w _ _ => if w = v then 0 else k
  | .event e => if (c.nodes v).Wins ((c.step e).nodes v) then k + 1 else k

/-- The elections that node `v` won since it last started, `k` of them before the run. -/
def winsFrom (v : NodeId) : Cluster → Nat → List Occurrence → Nat
  | _, k, [] => k
  | c, k, o :: os => winsFrom v (c.occur o) (c.countWin v k o) os

/-- The elections that node `v` won since it last started. -/
def wins (v : NodeId) (c : Cluster) (os : List Occurrence) : Nat := winsFrom v c 0 os

/-- The epochs order the leaderships of the run: a leader of a later term reports a greater one. -/
def EpochsOrder (c : Cluster) (os : List Occurrence) : Prop :=
  ∀ ds fs, ds <+: os → fs <+: os → ∀ v w t u,
    (run occur c ds).LeaderIn v t → (run occur c fs).LeaderIn w u → t < u →
    ((run occur c ds).nodes v).leaderEpoch < ((run occur c fs).nodes w).leaderEpoch

/-- Whoever leads a later term has won more elections since it last started than the leader of the
earlier term had. -/
def WinsOrder (c : Cluster) (os : List Occurrence) : Prop :=
  ∀ ds fs, ds <+: os → fs <+: os → ∀ v w t u,
    (run occur c ds).LeaderIn v t → (run occur c fs).LeaderIn w u → t < u →
    wins v c ds < wins w c fs

variable {c : Cluster} {v : NodeId}

theorem tally_update {n : RaftNode} {w : NodeId} {ps : List Packet} (h : (c.nodes w).Tally n) :
    (c.nodes v).Tally ((c.update w n ps).nodes v) := by
  by_cases hv : v = w
  · subst hv
    have hnode : (c.update v n ps).nodes v = n.takeMessages.1 := update_self ..
    rw [hnode]
    exact h.sameLead ⟨rfl, rfl, rfl⟩
  · have hnode : (c.update w n ps).nodes v = c.nodes v := update_of_ne hv ..
    rw [hnode]
    exact .refl _

theorem tally_step (c : Cluster) (e : Event) (v : NodeId) :
    (c.nodes v).Tally ((c.step e).nodes v) := by
  have hsame : (c.nodes v).Tally (c.nodes v) := .refl _
  cases e with
  | tick w io now =>
    simp only [step]
    split
    · exact tally_update (RaftNode.tally_tick _ io now)
    · exact hsame
  | deliver k io now =>
    simp only [step]
    cases c.net[k]? with
    | none => exact hsame
    | some p =>
      dsimp only
      split
      · exact tally_update (RaftNode.tally_onMessage _ io now p.msg)
      · exact hsame
  | propose w io batch =>
    simp only [step]
    split
    · exact tally_update (RaftNode.tally_propose _ io batch)
    · exact hsame
  | transfer w io target =>
    simp only [step]
    split
    · exact tally_update (RaftNode.tally_transferLeadership _ io target)
    · exact hsame
  | compact w threshold =>
    simp only [step]
    split
    · exact tally_update (RaftNode.tally_maybeCompact _ threshold)
    · exact hsame

theorem members_step (c : Cluster) (e : Event) : (c.step e).members = c.members := by
  cases e <;> simp only [step] <;> repeat' split
  all_goals rfl

theorem members_occur (c : Cluster) (o : Occurrence) : (c.occur o).members = c.members := by
  cases o with
  | event e => exact members_step c e
  | restart w log stored => simp only [occur]; split <;> rfl

theorem members_runOccur (c : Cluster) (os : List Occurrence) :
    (run occur c os).members = c.members := by
  induction os generalizing c with
  | nil => rfl
  | cons o os ih => exact (ih _).trans (members_occur c o)

theorem leaderEpoch_occur (hv : v ∈ c.members) (o : Occurrence) :
    ((c.occur o).nodes v).leaderEpoch = c.countWin v (c.nodes v).leaderEpoch o := by
  cases o with
  | event e =>
    have h := tally_step c e v
    rw [RaftNode.Tally] at h
    simp only [occur, countWin, h]
    split <;> rfl
  | restart w log stored =>
    simp only [occur, countWin]
    by_cases hw : w = v
    · subst hw
      rw [if_pos hv, if_pos rfl]
      simp only [update_self]
      rfl
    · rw [if_neg hw]
      split
      · simp only [update_of_ne (Ne.symm hw)]
      · rfl

/-- The epoch of a node is the number of elections that it won since it last started. -/
theorem leaderEpoch_run (hv : v ∈ c.members) (os : List Occurrence) :
    ((run occur c os).nodes v).leaderEpoch = winsFrom v c (c.nodes v).leaderEpoch os := by
  induction os generalizing c with
  | nil => rfl
  | cons o os ih =>
    rw [run_cons, ih (by rw [members_occur]; exact hv), leaderEpoch_occur hv, winsFrom]

/-- Node 1 leads term 1 and then node 2 leads term 2. -/
def twoLeaders : List Occurrence := (electOne ++ writeOne ++ electTwo 13).map .event

/-- Node 1 leads term 1, restarts over what it has saved, and leads term 2. -/
def leaderRestarts : List Occurrence :=
  electOne.map .event ++
    [.restart 1 (.create {}) { currentTerm := 1, votedFor := some 1 }] ++
    [.tick 1 {} 13000, .tick 1 {} 15000, .deliver 9 {} 15000, .deliver 11 {} 15000,
      .deliver 12 {} 15000, .deliver 14 {} 15000].map .event

theorem leaderEpoch_twoLeaders :
    (run occur four (twoLeaders.take 6)).LeaderIn 1 1 ∧
    ((run occur four (twoLeaders.take 6)).nodes 1).leaderEpoch = 1 ∧
    (run occur four twoLeaders).LeaderIn 2 2 ∧
    ((run occur four twoLeaders).nodes 2).leaderEpoch = 1 := by
  decide +kernel

theorem leaderEpoch_leaderRestarts :
    (run occur four (leaderRestarts.take 6)).LeaderIn 1 1 ∧
    ((run occur four (leaderRestarts.take 6)).nodes 1).leaderEpoch = 1 ∧
    (run occur four leaderRestarts).LeaderIn 1 2 ∧
    ((run occur four leaderRestarts).nodes 1).leaderEpoch = 1 := by
  decide +kernel

end Cluster

end Nexus
