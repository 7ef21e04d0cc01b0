import Nexus.Lib.Quorum
import Nexus.Consensus.Steps

/-!
# Elections

The ballots that were ever cast, `NodeId → Nat → Option NodeId` by voter and term, are what
connects the nodes and the packets: a candidate counts only ballots that were cast for it, a
leader has a majority of them, and a ballot is never changed. A ballot box is not part of the
cluster; `record` reads it off the nodes as they change.
-/

namespace Nexus

open Lib RaftNode List

/-- For each voter and term, the candidate that it voted for. -/
abbrev Ballots := NodeId → Nat → Option NodeId

namespace Ballots

variable {b : Ballots} {v w : NodeId} {c : Core} {V : List NodeId} {t : Nat}

/-- Ballots are only added. -/
def Le (b b' : Ballots) : Prop := ∀ v t w, b v t = some w → b' v t = some w

theorem Le.refl (b : Ballots) : b.Le b := fun _ _ _ h => h

theorem Le.trans {a c : Ballots} (h : a.Le b) (h' : b.Le c) : a.Le c :=
  fun v t w hw => h' v t w (h v t w hw)

/-- The ballots once node `v` is in state `c`. -/
def record (b : Ballots) (v : NodeId) (c : Core) : Ballots := fun w t =>
  if w = v ∧ t = c.term then c.votedFor else b w t

theorem record_other (hw : w ≠ v) (t : Nat) :
    b.record v c w t = b w t := if_neg fun h => hw h.1

theorem record_eq_self (h : b v c.term = c.votedFor) : b.record v c = b := by
  funext w t
  unfold record
  split
  · rename_i hw; rw [hw.1, hw.2, h]
  · rfl

/-- A ballot for a node that had none in that term adds to the ballots. -/
theorem le_record (h : b v c.term = none ∨ b v c.term = c.votedFor) :
    b.Le (b.record v c) := by
  intro w t u hu
  unfold record
  split
  · rename_i hw
    rw [hw.1, hw.2] at hu
    rcases h with h | h
    · exact absurd (h.symm.trans hu) (by simp)
    · rw [← h, hu]
  · exact hu

/-- Node `v` has a majority of the voters' ballots of term `t`. -/
def Won (V : List NodeId) (b : Ballots) (v : NodeId) (t : Nat) : Prop :=
  (majority V).Quorum fun w => b w t = some v

theorem Won.mono {b' : Ballots} (h : b.Le b') (hw : b.Won V v t) :
    b'.Won V v t :=
  (majority V).mono (fun w hb => h w t v hb) hw

/-- A voter has one ballot for each term, so two majorities are for the same node. -/
theorem Won.unique (hv : b.Won V v t) (hw : b.Won V w t) :
    v = w := by
  obtain ⟨u, huv, huw⟩ := (majority V).meet hv hw
  exact Option.some.inj (huv.symm.trans huw)

end Ballots

/-! ## The invariant -/

/-- The membership as a node knows it: `V` are the voters and `M` all the members. -/
structure Site (V M : List NodeId) (v : NodeId) (c : Core) : Prop where
  self : c.self = v
  mem : v ∈ M
  voters : c.voters.Perm V
  isVoter : ∀ w ∈ M, c.isVoter w → w ∈ V

theorem Site.of_sameSite {V M : List NodeId} {v : NodeId} {c c' : Core} (h : Site V M v c)
    (hs : c.SameSite c') : Site V M v c' := by
  have hvoter : c'.isVoter = c.isVoter := by unfold Core.isVoter; rw [hs.learners]
  exact ⟨hs.self.trans h.self, h.mem, by unfold Core.voters; rw [hvoter, hs.self, hs.peers]; exact
    h.voters, by rw [hvoter]; exact h.isVoter⟩

/-- What a packet says about ballots. -/
structure PacketVotes (M : List NodeId) (b : Ballots) (p : Packet) : Prop where
  src : p.msg.src ∈ M
  /-- A candidate asks for itself and has voted for itself. -/
  request : ∀ a, p.msg.payload = .requestVote a → a.preVote = false →
    a.candidateId = p.msg.src ∧ b p.msg.src a.term = some p.msg.src
  /-- A grant that does not answer a pre-vote is a ballot for its addressee. -/
  grant : ∀ r, p.msg.payload = .requestVoteReply r → r.voteGranted → p.preVote = false →
    b p.msg.src r.term = some p.msg.dst

/-- What the state of node `v` says about ballots. -/
structure NodeVotes (V M : List NodeId) (b : Ballots) (v : NodeId) (c : Core) : Prop where
  site : Site V M v c
  current : b v c.term = c.votedFor
  future : ∀ t, c.term < t → b v t = none
  candidate : c.role = .candidate → c.votedFor = some v ∧ c.votesGranted.Nodup ∧
    ∀ w ∈ c.votesGranted, w ∈ V ∧ b w c.term = some v
  leader : c.role = .leader → b.Won V v c.term
  out : ∀ p ∈ c.out, PacketVotes M b p

theorem PacketVotes.mono {M : List NodeId} {b b' : Ballots} {p : Packet} (h : b.Le b')
    (hp : PacketVotes M b p) : PacketVotes M b' p where
  src := hp.src
  request a ha hpre := ⟨(hp.request a ha hpre).1, h _ _ _ (hp.request a ha hpre).2⟩
  grant r hr hg hpre := h _ _ _ (hp.grant r hr hg hpre)

/-- The condition on deliveries: a candidate does not count, as a vote of its term, a grant that
answers a pre-vote request. -/
def RaftNode.CountsPreVote (n : RaftNode) (p : Packet) : Prop :=
  p.preVote = true ∧ n.role = .candidate ∧ n.isVoter p.msg.src ∧
  match p.msg.payload with
  | .requestVoteReply r => r.voteGranted = true ∧ r.term = n.currentTerm
  | _ => False

instance (n : RaftNode) (p : Packet) : Decidable (n.CountsPreVote p) := by
  unfold RaftNode.CountsPreVote
  cases p.msg.payload <;> infer_instance

section Actions

variable {V M : List NodeId} {b : Ballots} {v : NodeId} {x : Cause} {c c' : Core}

theorem PacketVotes.of_src {p : Packet} (hsrc : p.msg.src ∈ M)
    (hreq : ∀ a, p.msg.payload ≠ .requestVote a)
    (hrep : ∀ r, p.msg.payload ≠ .requestVoteReply r) : PacketVotes M b p :=
  ⟨hsrc, fun a ha => absurd ha (hreq a), fun r hr => absurd hr (hrep r)⟩

section

variable (h : NodeVotes V M b v c)

include h

/-- A node whose ballot is the recorded one adds none. -/
theorem NodeVotes.keep :
    b.Le (b.record v c) ∧ NodeVotes V M (b.record v c) v c := by
  rw [Ballots.record_eq_self h.current]
  exact ⟨.refl b, h⟩

/-- Progress, log and commit index say nothing about ballots. -/
theorem NodeVotes.congr (hs : c.SameSite c') (ht : c'.term = c.term)
    (hv : c'.votedFor = c.votedFor) (hr : c'.role = c.role)
    (hg : c'.votesGranted = c.votesGranted) (ho : ∀ p ∈ c'.out, PacketVotes M b p) :
    NodeVotes V M b v c' where
  site := h.site.of_sameSite hs
  current := by rw [ht, hv]; exact h.current
  future := by rw [ht]; exact h.future
  candidate := by rw [hr, hv, hg, ht]; exact h.candidate
  leader := by rw [hr, ht]; exact h.leader
  out := ho

/-- A node that is neither candidate nor leader has no claim on ballots. -/
theorem NodeVotes.resign (hs : c.SameSite c')
    (ht : c'.term = c.term ∧ c'.votedFor = c.votedFor ∨ c.term < c'.term ∧ c'.votedFor = none)
    (hc : c'.role ≠ .candidate) (hl : c'.role ≠ .leader) (ho : c'.out = c.out) :
    NodeVotes V M b v c' where
  site := h.site.of_sameSite hs
  current := by
    rcases ht with ⟨ht, hv⟩ | ⟨ht, hv⟩
    · rw [ht, hv]; exact h.current
    · rw [hv]; exact h.future _ ht
  future t hlt := h.future t (by omega)
  candidate hr := absurd hr hc
  leader hr := absurd hr hl
  out := by rw [ho]; exact h.out

theorem NodeVotes.stand (hv : c.isVoter c.self) :
    b.Le (b.record v c.stand) ∧ NodeVotes V M (b.record v c.stand) v c.stand := by
  have hself : b.record v c.stand v c.stand.term = some v := by
    unfold Ballots.record
    rw [if_pos ⟨rfl, rfl⟩]
    exact congrArg some h.site.self
  have hle : b.Le (b.record v c.stand) :=
    Ballots.le_record (.inl (h.future _ (Nat.lt_succ_self _)))
  refine ⟨hle, h.site.of_sameSite ⟨rfl, rfl, rfl⟩, ?_, ?_, ?_, ?_,
    fun p hp => (h.out p hp).mono hle⟩
  · exact hself.trans (congrArg some h.site.self).symm
  · intro t ht
    unfold Ballots.record
    rw [if_neg fun hw => absurd hw.2 (by omega)]
    exact h.future t (Nat.lt_of_succ_lt ht)
  · refine fun _ => ⟨congrArg some h.site.self, nodup_singleton _, ?_⟩
    intro w hw
    rw [mem_singleton.mp hw, h.site.self]
    rw [h.site.self] at hv
    exact ⟨h.site.isVoter v h.site.mem hv, hself⟩
  · exact fun hr => absurd hr (by simp [Core.stand])

theorem NodeVotes.cast {w : NodeId} (hv : c.votedFor = none ∨ c.votedFor = some w) :
    b.Le (b.record v (c.cast w)) ∧ NodeVotes V M (b.record v (c.cast w)) v (c.cast w) := by
  have hle : b.Le (b.record v (c.cast w)) := by
    refine Ballots.le_record ?_
    change b v c.term = none ∨ b v c.term = some w
    rwa [h.current]
  refine ⟨hle, h.site.of_sameSite ⟨rfl, rfl, rfl⟩, if_pos ⟨rfl, rfl⟩, ?_, ?_, ?_, ?_⟩
  · intro t ht
    unfold Ballots.record
    rw [if_neg fun hw => absurd hw.2 (by omega)]
    exact h.future t ht
  · intro hr
    obtain ⟨hself, hnodup, hvotes⟩ := h.candidate hr
    refine ⟨?_, hnodup, fun u hu => ⟨(hvotes u hu).1, hle _ _ _ (hvotes u hu).2⟩⟩
    rw [hself] at hv
    have hvw : v = w := by simpa using hv
    exact congrArg some hvw.symm
  · exact fun hr => (h.leader hr).mono hle
  · exact fun p hp => (h.out p hp).mono hle

theorem NodeVotes.count {w : NodeId} (hw : w ∈ V)
    (hb : b w c.term = some v) (hr : c.role = .candidate) :
    NodeVotes V M b v (c.insertVote w) where
  site := h.site.of_sameSite ⟨rfl, rfl, rfl⟩
  current := h.current
  future := h.future
  candidate _ := by
    obtain ⟨hself, hnodup, hvotes⟩ := h.candidate hr
    refine ⟨hself, hnodup.insert, fun u hu => ?_⟩
    rcases mem_insert_iff.mp hu with rfl | hu
    · exact ⟨hw, hb⟩
    · exact hvotes u hu
  leader hl := absurd (hr.symm.trans hl) (by simp)
  out := h.out

theorem NodeVotes.win (hr : c.role = .candidate)
    (hm : c.votesGranted.length * 2 > c.voters.length) : NodeVotes V M b v c.win where
  site := h.site.of_sameSite ⟨rfl, rfl, rfl⟩
  current := h.current
  future := h.future
  candidate hc := absurd hc (by simp [Core.win])
  leader _ := by
    obtain ⟨-, hnodup, hvotes⟩ := h.candidate hr
    rw [h.site.voters.length_eq] at hm
    exact majority_of_nodup hnodup hvotes hm
  out := h.out

/-- What a node sends about ballots is true. -/
theorem NodeVotes.truthful
    (hx : ∀ q, x.packet = some q → PacketVotes M b q) {p : Packet} (hp : Truthful x c p) :
    PacketVotes M b p := by
  obtain ⟨hsrc, hp⟩ := hp
  rw [h.site.self] at hsrc
  refine ⟨hsrc ▸ h.site.mem, fun a ha hpre => ?_, fun r hr hg hpre => ?_⟩
  · rw [ha] at hp
    simp only [hpre, Bool.false_eq_true, if_false] at hp
    obtain ⟨hterm, hcand, hrole, -⟩ := hp
    refine ⟨hcand.trans (h.site.self.trans hsrc.symm), ?_⟩
    rw [hterm, hsrc, h.current]
    exact (h.candidate hrole).1
  · rw [hr] at hp
    obtain ⟨hterm, hgrant⟩ := hp
    obtain ⟨a, ⟨q, hq, hqsrc, hqa⟩, hapre, hvoted⟩ := hgrant hg hpre
    rw [hterm, hsrc, h.current, hvoted, ((hx q hq).request a hqa hapre).1, hqsrc]

/-- Each action keeps what a node says about ballots, with its own ballot recorded. -/
theorem NodeVotes.act
    (hx : ∀ q, x.packet = some q →
      PacketVotes M b q ∧ q.msg.dst = v ∧ ¬ x.node.CountsPreVote q)
    (hvoter : x.node.core.learners = c.learners) (ha : Act x c c') :
    b.Le (b.record v c') ∧ NodeVotes V M (b.record v c') v c' := by
  have hsite := ha.sameSite
  cases ha with
  | stepDown => exact (h.resign hsite (.inl ⟨rfl, rfl⟩) (by simp [Core.stepDown])
      (by simp [Core.stepDown]) rfl).keep
  | raise t ht => exact (h.resign hsite (.inr ⟨ht, rfl⟩) (by simp [Core.raise, Core.stepDown])
      (by simp [Core.raise, Core.stepDown]) rfl).keep
  | probe hr hv => exact (h.resign hsite (.inl ⟨rfl, rfl⟩) (by simp) (by simp) rfl).keep
  | poll w hr =>
    refine (h.resign hsite (.inl ⟨rfl, rfl⟩) ?_ ?_ rfl).keep
    · change c.role ≠ _; simp [hr]
    · change c.role ≠ _; simp [hr]
  | stand hv => exact h.stand hv
  | cast src a hm hp ht hv hu => exact h.cast hv
  | count src r hm hr hrole hterm ht hg hv =>
    obtain ⟨q, hq, rfl, hqr⟩ := hm
    obtain ⟨hvotes, hdst, hpre⟩ := hx q hq
    have hreal : q.preVote = false := by
      by_contra hne
      refine hpre ⟨by simpa using hne, hrole, ?_, ?_⟩
      · rw [isVoter, show x.node.learners = c.learners from hvoter]; exact hv
      · rw [hqr]; exact ⟨hg, hterm.symm⟩
    have hb := hvotes.grant r hqr hg hreal
    rw [ht, hdst] at hb
    exact (h.count (h.site.isVoter _ hvotes.src hv) hb hr).keep
  | win hr hm => exact (h.win hr hm).keep
  | write | credit | commit | compact => exact (h.congr hsite rfl rfl rfl rfl h.out).keep
  | append src a io | install src a io =>
    refine (h.congr hsite rfl rfl rfl rfl fun p hp => ?_).keep
    rcases mem_append.mp hp with hp | hp
    · exact h.out p hp
    · rw [mem_singleton.mp hp]
      exact .of_src (h.site.self ▸ h.site.mem) (by simp) (by simp)
  | send p hp =>
    refine (h.congr hsite rfl rfl rfl rfl fun q hq => ?_).keep
    rcases mem_append.mp hq with hq | hq
    · exact h.out q hq
    · rw [mem_singleton.mp hq]
      exact h.truthful (fun q hq => (hx q hq).1) hp

theorem NodeVotes.acts
    (hx : ∀ q, x.packet = some q →
      PacketVotes M b q ∧ q.msg.dst = v ∧ ¬ x.node.CountsPreVote q)
    (hvoter : x.node.core.learners = c.learners) (ha : Acts x c c') :
    ∃ b', b.Le b' ∧ NodeVotes V M b' v c' ∧ ∀ w, w ≠ v → b' w = b w := by
  induction ha with
  | refl => exact ⟨b, .refl b, h, fun _ _ => rfl⟩
  | tail hacts hact ih =>
    obtain ⟨b', hle, hb', hother⟩ := ih
    have hstep := hb'.act (fun q hq => ⟨(hx q hq).1.mono hle, (hx q hq).2⟩)
      (hvoter.trans (Acts.sameSite hacts).learners.symm) hact
    refine ⟨_, hle.trans hstep.1, hstep.2, fun w hw => ?_⟩
    rw [← hother w hw]
    exact funext (Ballots.record_other hw)

/-- Ballots of other nodes do not touch what node `v` says, as long as its own stay. -/
theorem NodeVotes.frame {b' : Ballots} (hle : b.Le b')
    (hv : b' v = b v) : NodeVotes V M b' v c where
  site := h.site
  current := by rw [hv]; exact h.current
  future := by rw [hv]; exact h.future
  candidate hr := by
    obtain ⟨hself, hnodup, hvotes⟩ := h.candidate hr
    exact ⟨hself, hnodup, fun u hu => ⟨(hvotes u hu).1, hle _ _ _ (hvotes u hu).2⟩⟩
  leader hr := (h.leader hr).mono hle
  out p hp := (h.out p hp).mono hle

end

end Actions

/-! ## The cluster -/

namespace Cluster

variable {voters learners : List NodeId} {c : Cluster}

/-- The nodes and the network agree on the ballots. -/
structure ElectionOk (voters learners : List NodeId) (c : Cluster) (b : Ballots) : Prop where
  wf : c.Wf voters learners
  nodes : ∀ v ∈ c.members, NodeVotes voters c.members b v (c.nodes v).core
  net : ∀ p ∈ c.net, PacketVotes c.members b p

/-- What holds of a delivered packet and the node that it reaches. -/
def OnDelivery (P : RaftNode → Packet → Prop) (c : Cluster) : Event → Prop
  | .deliver k _ _ => ∀ p ∈ c.net[k]?, P (c.nodes p.msg.dst) p
  | _ => True

/-- No candidate counts a pre-vote grant as a vote. -/
def NoPreVoteCounted : Cluster → Event → Prop :=
  OnDelivery fun n p => ¬ n.CountsPreVote p

instance (P : RaftNode → Packet → Prop) [∀ n p, Decidable (P n p)] (c : Cluster) (e : Event) :
    Decidable (c.OnDelivery P e) := by
  unfold OnDelivery
  cases e <;> infer_instance

instance (c : Cluster) (e : Event) : Decidable (c.NoPreVoteCounted e) :=
  inferInstanceAs (Decidable (c.OnDelivery _ e))

theorem Wf.site (h : c.Wf voters learners) (hnd : (voters ++ learners).Nodup) {v : NodeId}
    (hv : v ∈ c.members) : Site voters c.members v (c.nodes v).core := by
  have hvoter : ∀ w, (c.nodes v).core.isVoter w = !learners.contains w := fun w => by
    rw [← h.learners v hv]; rfl
  refine ⟨h.self v hv, hv, ?_, fun w hw hvw => ?_⟩
  · have hperm : (v :: c.members.erase v).Perm (voters ++ learners) := by
      rw [← h.members]
      exact (perm_cons_erase hv).symm
    have hfilter : (voters ++ learners).filter (fun w => !learners.contains w) = voters := by
      rw [filter_append, filter_eq_self.mpr, filter_eq_nil_iff.mpr, append_nil]
      · intro w hw; simpa using hw
      · intro w hw
        simpa using fun hl => (nodup_append.mp hnd).2.2 w hw w hl rfl
    have hsite : (c.nodes v).core.voters =
        (v :: c.members.erase v).filter (fun w => !learners.contains w) := by
      rw [← h.peers v hv, ← funext hvoter]
      change (filter _ ((c.nodes v).self :: _)) = _
      rw [h.self v hv]
      rfl
    rw [hsite, ← hfilter]
    exact (hperm.filter _).trans (by rw [hfilter])
  · rw [h.members, mem_append] at hw
    rw [hvoter] at hvw
    exact hw.resolve_right (by simpa using hvw)

theorem electionOk_init (hnd : (voters ++ learners).Nodup) (cfg : RaftConfig)
    (logCfg : LogConfig) :
    (init voters learners cfg logCfg).ElectionOk voters learners fun _ _ => none where
  wf := wf_init voters learners cfg logCfg
  nodes v hv :=
    { site := (wf_init voters learners cfg logCfg).site hnd hv
      current := rfl
      future _ _ := rfl
      candidate hr := absurd hr (by simp [init, create, core])
      leader hr := absurd hr (by simp [init, create, core])
      out p hp := absurd hp (by simp [init, create, core]) }
  net p hp := absurd hp (by simp [init])

theorem electionOk_step {b : Ballots} {e : Event} (h : c.ElectionOk voters learners b)
    (he : c.NoPreVoteCounted e) : ∃ b', b.Le b' ∧ (c.step e).ElectionOk voters learners b' := by
  rcases step_spec h.wf e with heq | ⟨v, x, d, hs⟩
  · rw [heq]; exact ⟨b, .refl b, h⟩
  have hx : ∀ q, x.packet = some q →
      PacketVotes c.members b q ∧ q.msg.dst = v ∧ ¬ x.node.CountsPreVote q := by
    intro q hq
    obtain ⟨hdst, k, io, now, rfl, hk⟩ := hs.packet q hq
    have hcount := he q hk
    rw [hdst, ← hs.node] at hcount
    exact ⟨h.net q (mem_of_getElem? hk), hdst, hcount⟩
  obtain ⟨b', hle, hd, hother⟩ := (h.nodes v hs.mem).acts hx (by rw [hs.node]) hs.acts
  refine ⟨b', hle, hs.wf h.wf, fun w hw => ?_, fun p hp => ?_⟩
  · rw [hs.members] at hw ⊢
    by_cases hwv : w = v
    · subst hwv
      rw [hs.result]
      exact hd.congr ⟨rfl, rfl, rfl⟩ rfl rfl rfl rfl (by simp)
    · rw [hs.other w hwv]
      exact (h.nodes w hw).frame hle (hother w hwv)
  · rw [hs.members]
    rcases hs.net p hp with hp | hp
    · exact (h.net p hp).mono hle
    · exact hd.out p hp

/-- A leader has a majority of the ballots of its term. -/
theorem ElectionOk.won {b : Ballots} (h : c.ElectionOk voters learners b) {v : NodeId} {t : Nat}
    (hv : c.LeaderIn v t) : b.Won voters v t := by
  obtain ⟨hmem, hrole, rfl⟩ := hv
  exact (h.nodes v hmem).leader hrole

/-- Election Safety. In every run in which no candidate counts a pre-vote grant as a vote, two
nodes that are ever leader of the same term, at the same time or not, are the same node. -/
theorem election_safety {voters learners : List NodeId} (hnd : (voters ++ learners).Nodup)
    (cfg : RaftConfig) (logCfg : LogConfig) {es fs : List Event}
    (hrun : Along step NoPreVoteCounted (init voters learners cfg logCfg) (es ++ fs))
    {v w : NodeId} {t : Nat}
    (hv : (run step (init voters learners cfg logCfg) es).LeaderIn v t)
    (hw : (run step (init voters learners cfg logCfg) (es ++ fs)).LeaderIn w t) : v = w := by
  have hstep : ∀ c e b, ElectionOk voters learners c b → NoPreVoteCounted c e →
      ∃ b', b.Le b' ∧ ElectionOk voters learners (c.step e) b' :=
    fun _ _ _ => electionOk_step
  obtain ⟨b', -, hb', hpast⟩ := run_simulation Ballots.Le.refl (fun _ _ _ => .trans) hstep
    (electionOk_init hnd cfg logCfg) hrun
  obtain ⟨b, hle, hb⟩ := hpast es (List.prefix_append es fs)
  exact ((hb.won hv).mono hle).unique (hb'.won hw)

/-- Node 3 probes, then node 1 does and is elected in term 1 with the vote of node 2. -/
def electFirst : List Event :=
  [.tick 3 {} 10000, .tick 1 {} 10000, .tick 3 {} 12000, .deliver 1 {} 12000,
    .tick 1 {} 12000, .deliver 3 {} 12000, .deliver 5 {} 12000, .deliver 6 {} 12000,
    .deliver 8 {} 12000]

/-- The pre-vote request of node 3 reaches node 2 a second time, now in term 1, and node 2 answers
with that term. The first answer makes node 3 a candidate of term 1; the second one its leader. -/
def electSecond : List Event := [.deliver 1 {} 12000, .deliver 2 {} 12000, .deliver 11 {} 12000]

theorem election_safety_electFirst :
    Along step NoPreVoteCounted (init [1, 2, 3] [] {} {}) (electFirst ++ [.deliver 9 {} 12001]) ∧
    (run step (init [1, 2, 3] [] {} {}) electFirst).LeaderIn 1 1 ∧
    (run step (init [1, 2, 3] [] {} {}) (electFirst ++ [.deliver 9 {} 12001])).LeaderIn 1 1 ∧
    (1 : NodeId) = 1 := by
  have hrun : Along step NoPreVoteCounted (init [1, 2, 3] [] {} {})
      (electFirst ++ [.deliver 9 {} 12001]) := by decide +kernel
  have hbefore : (run step (init [1, 2, 3] [] {} {}) electFirst).LeaderIn 1 1 := by
    decide +kernel
  have hafter : (run step (init [1, 2, 3] [] {} {})
      (electFirst ++ [.deliver 9 {} 12001])).LeaderIn 1 1 := by decide +kernel
  exact ⟨hrun, hbefore, hafter, election_safety (by decide) {} {} hrun hbefore hafter⟩

/-- A pre-vote grant counted as a vote elects a second leader of term 1. -/
theorem two_leaders_of_preVote :
    (run step (init [1, 2, 3] [] {} {}) (electFirst ++ electSecond)).LeaderIn 1 1 ∧
    (run step (init [1, 2, 3] [] {} {}) (electFirst ++ electSecond)).LeaderIn 3 1 := by
  decide +kernel

end Cluster

end Nexus
