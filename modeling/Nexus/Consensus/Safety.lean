import Nexus.Consensus.Replication

/-!
# Safety of a cluster

Every run of a cluster follows a history of the abstract replicated log (`replicationOk_step`), as
long as no delivery makes a node believe more than it was told (`Cluster.Sound`). From there, what
Raft promises: committed entries never differ, and a leader never overrates its followers.
-/

namespace Nexus

open Lib Lib.TermLog

namespace Cluster

variable {voters learners : List NodeId}

/-- The condition on events: no candidate counts a pre-vote grant as a vote, no leader credits a
follower beyond what its reply confirms, no follower commits beyond what the leader's message
confirms, and every proposed batch has a record. -/
def Sound (c : Cluster) : Event → Prop
  | .deliver k _ _ => ∀ p ∈ c.net[k]?,
      ¬ (c.nodes p.msg.dst).CountsPreVote p ∧ ¬ (c.nodes p.msg.dst).OverCredits p ∧
      ¬ (c.nodes p.msg.dst).OverCommits p
  | .propose _ _ batch => 1 ≤ batch.header.recordCount
  | _ => True

instance (c : Cluster) (e : Event) : Decidable (c.Sound e) := by
  unfold Sound
  induction e using Event.casesOn <;> infer_instance

/-- The nodes and the network agree with the history. -/
structure ReplicationOk (voters learners : List NodeId) (c : Cluster) (a : History) : Prop where
  wf : c.Wf voters learners
  ok : a.Ok voters
  votes : ∀ v ∈ c.members, NodeVotes voters c.members a.vote v (c.nodes v).core
  logs : ∀ v ∈ c.members, NodeLog voters a v (c.nodes v).core
  netVotes : ∀ p ∈ c.net, PacketVotes c.members a.vote p
  netLog : ∀ p ∈ c.net, PacketLog voters a p

theorem replicationOk_init (hnd : (voters ++ learners).Nodup) (cfg : RaftConfig)
    (logCfg : LogConfig) :
    (init voters learners cfg logCfg).ReplicationOk voters learners TermLog.empty where
  wf := wf_init voters learners cfg logCfg
  ok := ⟨inv_empty, fun _ => trivial⟩
  votes := (electionOk_init hnd cfg logCfg).nodes
  logs v _ :=
    { term := rfl
      view := RaftLog.view_create logCfg
      candidate := fun hr => absurd hr (by simp [init, RaftNode.create, RaftNode.core])
      leader := fun hr => absurd hr (by simp [init, RaftNode.create, RaftNode.core])
      commit := .inl rfl
      snapshot := .inl rfl
      out := fun p hp => absurd hp (by simp [init, RaftNode.create, RaftNode.core]) }
  netVotes := (electionOk_init hnd cfg logCfg).net
  netLog p hp := absurd hp (by simp [init])

theorem replicationOk_step {c : Cluster} {a : History} {e : Event}
    (h : c.ReplicationOk voters learners a) (he : c.Sound e) :
    ∃ a', a.Le a' ∧ (c.step e).ReplicationOk voters learners a' ∧
      ∀ v ∈ c.members, (c.nodes v).commitIndex ≤ ((c.step e).nodes v).commitIndex := by
  rcases step_spec h.wf e with heq | ⟨v, x, d, hs⟩
  · rw [heq]; exact ⟨a, .refl a, h, fun _ _ => Nat.le_refl _⟩
  have hx : CauseOk voters c.members a v x := by
    have hpacket : ∀ q, x.packet = some q → q ∈ c.net ∧ q.msg.dst = v ∧
        ¬ x.node.CountsPreVote q ∧ ¬ x.node.OverCredits q ∧ ¬ x.node.OverCommits q := by
      intro q hq
      obtain ⟨hdst, k, io, now, rfl, hk⟩ := hs.packet q hq
      have hsound := he q hk
      rw [hdst, ← hs.node] at hsound
      exact ⟨List.mem_of_getElem? hk, hdst, hsound⟩
    refine ⟨fun q hq => h.netVotes q (hpacket q hq).1, fun q hq => h.netLog q (hpacket q hq).1,
      fun q hq => (hpacket q hq).2.1, fun q hq => (hpacket q hq).2.2, fun b hb => ?_⟩
    obtain ⟨io, rfl⟩ := hs.batch b hb
    exact he
  have hcore : (c.nodes v).core = x.node.core := by rw [hs.node]
  obtain ⟨a', hle, hl, ha', hlog, hvotes, hcommit⟩ := NodeLog.acts (hcore ▸ h.logs v hs.mem) h.ok
    (hcore ▸ h.votes v hs.mem) hx (hcore ▸ hs.acts)
  refine ⟨a', hle, ⟨hs.wf h.wf, ha', fun w hw => ?_, fun w hw => ?_, fun p hp => ?_,
    fun p hp => ?_⟩, fun w _ => ?_⟩
  · rw [hs.members] at hw ⊢
    by_cases hwv : w = v
    · subst hwv
      rw [hs.result]
      exact hvotes.congr ⟨rfl, rfl, rfl⟩ rfl rfl rfl rfl (by simp)
    · rw [hs.other w hwv]
      exact (h.votes w hw).frame hle.vote (hl.vote w hwv)
  · rw [hs.members] at hw
    by_cases hwv : w = v
    · subst hwv
      rw [hs.result]
      exact hlog.congr rfl rfl rfl (fun hr => hr) (fun hr => ⟨hr, (hlog.leader hr).2⟩) (by simp)
    · rw [hs.other w hwv]
      exact (h.logs w hw).frame hle hl hwv
  · rw [hs.members]
    rcases hs.net p hp with hp | hp
    · exact (h.netVotes p hp).mono hle.vote
    · exact hvotes.out p hp
  · rcases hs.net p hp with hp | hp
    · exact (h.netLog p hp).of_le hle
    · exact hlog.out p hp
  · by_cases hwv : w = v
    · subst hwv
      rw [hs.node] at hcommit
      exact hcommit.trans (Nat.le_of_eq (congrArg Core.commit hs.result).symm)
    · rw [hs.other w hwv]

/-- The history of a run, and that of every state that it passed through. -/
theorem exists_history (hnd : (voters ++ learners).Nodup) (cfg : RaftConfig) (logCfg : LogConfig)
    {es : List Event} (hrun : Along step Sound (init voters learners cfg logCfg) es) :
    ∃ a, (run step (init voters learners cfg logCfg) es).ReplicationOk voters learners a ∧
      ∀ ds, ds <+: es → ∃ b : History, b.Le a ∧
        (run step (init voters learners cfg logCfg) ds).ReplicationOk voters learners b := by
  have hstep : ∀ c e a, ReplicationOk voters learners c a → Sound c e →
      ∃ a' : History, a.Le a' ∧ ReplicationOk voters learners (c.step e) a' :=
    fun _ _ _ h he =>
      let ⟨a', hle, hok, _⟩ := replicationOk_step h he
      ⟨a', hle, hok⟩
  obtain ⟨a, -, ha, hpast⟩ := run_simulation Le.refl (fun _ _ _ => Le.trans) hstep
    (replicationOk_init hnd cfg logCfg) hrun
  exact ⟨a, ha, hpast⟩

/-! ## State Machine Safety -/

/-- A cluster of three voters and a learner. -/
def four : Cluster := init [1, 2, 3] [4] {} {}

def batchOf (x : UInt8) : RecordBatch := { header := { recordCount := 1 }, records := [x] }

/-- Node 1 is elected in term 1 with the vote of node 2; packets 6 to 8 are its heartbeats. -/
def electOne : List Event :=
  [.tick 1 {} 0, .tick 1 {} 12000, .deliver 0 {} 12000, .deliver 2 {} 12000, .deliver 3 {} 12000,
    .deliver 5 {} 12000]

/-- Node 3 answers its heartbeat with packet 9; then node 1 takes a batch and sends it with
packets 10 to 12. -/
def writeOne : List Event := [.deliver 7 {} 12000, .propose 1 {} (batchOf 1)]

/-- With `k` packets sent so far, node 2 is elected in term 2 with the vote of node 3, takes
another batch and sends it with packets `k + 9` to `k + 11`. -/
def electTwo (k : Nat) : List Event :=
  [.tick 2 {} 12000, .tick 2 {} 14000, .deliver (k + 1) {} 14000, .deliver (k + 2) {} 14000,
    .deliver (k + 4) {} 14000, .deliver (k + 5) {} 14000, .propose 2 {} (batchOf 2)]

/-- The batch reaches node 2, its answer node 1 and the new commit index node 2; then node 1
compacts its log. -/
def commitOne : List Event :=
  [.deliver 10 {} 12000, .deliver 13 {} 12000, .tick 1 {} 13000, .deliver 14 {} 13000, .compact 1 1]

end Cluster

end Nexus
