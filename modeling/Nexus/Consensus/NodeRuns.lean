import Mathlib.Data.List.Induction
import Nexus.Consensus.Standing

/-!
# Elections and leader hints in the runs of one node

A run is any sequence of ticks, messages from whatever sender, proposals and transfers. What holds
in all of them is shown for the moves of a standing first, then for a call, then for a run.

* `Standing.Polled`: the counted votes are those of voters whose granting replies were received.
* `Standing.Hinted`: the leader hint is the node's own id or that of a leader of the term.
-/

namespace Nexus

open Lib List

namespace Standing

variable {s s' : Standing} {es fs : List Carrier.Call} {call : Carrier.Call} {w : NodeId} {t : Nat}

/-! ## Votes -/

/-- Only voters stand for election. -/
def StandsAsVoter (s : Standing) : Prop := s.role ≠ .follower → s.isVoter s.self

theorem Move.standsAsVoter (h : s.StandsAsVoter) (hmove : Move call s s') : s'.StandsAsVoter := by
  cases hmove with
  | follow | hear => exact fun hr => absurd rfl hr
  | heed => exact h
  | probe _ hv | standAtOnce _ _ hv => exact fun _ => hv
  | count => exact h
  | stand hr | win hr => exact fun _ => h (by rw [hr]; simp)

/-- A vote of term `t` was granted by `w` in one of the calls. -/
def Granted (es : List Carrier.Call) (t : Nat) (w : NodeId) : Prop :=
  ∃ call ∈ es, call.granted = some (w, t)

theorem Granted.mono (h : Granted es t w) (hsub : es ⊆ fs) :
    Granted fs t w := by
  obtain ⟨call, hmem, hg⟩ := h
  exact ⟨call, hsub hmem, hg⟩

/-- This node and the voters that granted it their vote of term `t` are a majority of the voters. -/
def Backed (es : List Carrier.Call) (s : Standing) (t : Nat) : Prop :=
  (majority s.voters).Quorum fun w => w = s.self ∨ Granted es t w

/-- The counted votes are those of voters that granted them, each counted once. -/
structure Polled (es : List Carrier.Call) (s : Standing) : Prop where
  nodup : s.votesGranted.Nodup
  votes : ∀ w ∈ s.votesGranted, w ∈ s.voters ∧ (w = s.self ∨ Granted es s.term w)

theorem Polled.backed (h : s.Polled es) (hm : s.hasMajority) : s.Backed es s.term :=
  majority_of_nodup h.nodup h.votes (of_decide_eq_true hm)

theorem Polled.mono (h : s.Polled es) (hsub : es ⊆ fs) : s.Polled fs where
  nodup := h.nodup
  votes w hw := (h.votes w hw).imp_right fun hor => hor.imp_right fun hg => hg.mono hsub

/-- At the start of a round the node has counted its own vote only. -/
theorem polled_of_self (hv : s.isVoter s.self) (h : s.votesGranted = [s.self]) : s.Polled es where
  nodup := by rw [h]; exact nodup_singleton _
  votes w hw := by
    rw [h, mem_singleton] at hw
    subst hw
    exact ⟨mem_filter.mpr ⟨mem_cons_self, hv⟩, .inl rfl⟩

theorem polled_of_nil (h : s.votesGranted = []) : s.Polled es where
  nodup := by rw [h]; exact nodup_nil
  votes w hw := by rw [h] at hw; cases hw

theorem Polled.countVote (h : s.Polled es) (hw : w ∈ s.voters)
    (hg : Granted es s.term w) : (s.countVote w).Polled es where
  nodup := h.nodup.insert
  votes v hv := by
    rcases mem_insert_iff.mp hv with rfl | hv
    · exact ⟨hw, .inr hg⟩
    · exact h.votes v hv

/-- A vote that would be counted comes from a voter of the group. -/
def FromVoter (s : Standing) (call : Carrier.Call) : Prop :=
  ∀ w t, call.granted = some (w, t) → s.isVoter w → w ∈ s.voters

theorem Move.polled (h : s.Polled es) (hv : s.StandsAsVoter) (hfrom : s.FromVoter call)
    (hcall : call ∈ es) (hmove : Move call s s') : s'.Polled es := by
  cases hmove with
  | follow | hear => exact polled_of_nil rfl
  | heed => exact ⟨h.nodup, h.votes⟩
  | probe _ hv | standAtOnce _ _ hv => exact polled_of_self hv rfl
  | count w hx hw => exact h.countVote (hfrom w _ hx hw) ⟨call, hcall, hx⟩
  | stand hr => exact polled_of_self (hv (by rw [hr]; simp)) rfl
  | win => exact ⟨h.nodup, h.votes⟩

theorem SameGroup.fromVoter (h : s.SameGroup s') (hfrom : s.FromVoter call) :
    s'.FromVoter call := by
  intro w t hx hw
  rw [h.voters]
  refine hfrom w t hx ?_
  rw [isVoter, ← h.learners]
  exact hw

/-- What is known of elections when a call has taken the standing from `s` to `s'`. -/
structure Elects (es : List Carrier.Call) (call : Carrier.Call) (s s' : Standing) : Prop where
  group : s.SameGroup s'
  voter : s'.StandsAsVoter
  polled : s'.Polled es
  /-- Who stands for the next term, and was not told to, has won a round of pre-votes. -/
  stands : s'.role = .candidate ∨ s'.role = .leader → call.isTimeoutNow = false →
    s'.term = s.term + 1 → s.Backed es s.term
  leads : s'.role = .leader → s.role = .leader ∨ s.Backed es s'.term

theorem SameGroup.backed_iff (h : s.SameGroup s') : s'.Backed es t ↔ s.Backed es t := by
  unfold Backed
  rw [h.voters, h.self]

theorem Elects.move {s₁ s₂ : Standing} (h : Elects es call s s₁) (hfrom : s.FromVoter call)
    (hcall : call ∈ es) (hmove : Move call s₁ s₂) : Elects es call s s₂ := by
  have hpolled := hmove.polled h.polled h.voter (h.group.fromVoter hfrom) hcall
  have hgroup := h.group.trans hmove.sameGroup
  have hvoter := hmove.standsAsVoter h.voter
  have hbacked : s₁.hasMajority → s.Backed es s₁.term := fun hm =>
    h.group.backed_iff.mp (h.polled.backed hm)
  cases hmove with
  | follow | hear | probe =>
    exact ⟨hgroup, hvoter, hpolled, nofun, nofun⟩
  | heed _ _ hr =>
    refine ⟨hgroup, hvoter, hpolled, fun hr' => ?_, fun hr' => ?_⟩
    · rw [show _ = s₁.role from rfl, hr] at hr'
      simp at hr'
    · exact absurd (hr.symm.trans hr') (by simp)
  | count w _ _ hr =>
    refine ⟨hgroup, hvoter, hpolled, h.stands, h.leads⟩
  | stand hr hm =>
    refine ⟨hgroup, hvoter, hpolled, fun _ _ ht => ?_, nofun⟩
    have : s₁.term = s.term := Nat.succ.inj ht
    rw [← this]
    exact hbacked hm
  | standAtOnce t hx =>
    exact ⟨hgroup, hvoter, hpolled, fun _ hn => absurd hx (by simp [hn]), nofun⟩
  | win hr hm =>
    exact ⟨hgroup, hvoter, hpolled, fun _ => h.stands (.inl hr), fun _ => .inr (hbacked hm)⟩

theorem Moves.elects (h : Moves call s s') (hv : s.StandsAsVoter) (hp : s.Polled es)
    (hfrom : s.FromVoter call) : Elects (es ++ [call]) call s s' := by
  refine h.invariant (I := Elects (es ++ [call]) call s)
    (fun _ _ hs hmove => hs.move hfrom (by simp) hmove)
    ⟨.refl s, hv, hp.mono (subset_append_left _ _), fun _ _ ht => ?_, .inl⟩
  exact absurd ht (Nat.succ_ne_self s.term).symm

end Standing

namespace RaftNode

open Standing

section Runs

variable {n₀ : RaftNode} {es : List Carrier.Call}

theorem moves_step (n : RaftNode) (call : Carrier.Call) :
    Moves call n.standing (n.step call).standing := (n.standing_step call).moves

theorem run_concat (n₀ : RaftNode) (es : List Carrier.Call) (call : Carrier.Call) :
    run step n₀ (es ++ [call]) = (run step n₀ es).step call := by
  rw [run_append]
  rfl

theorem sameGroup_run (n₀ : RaftNode) (es : List Carrier.Call) :
    n₀.standing.SameGroup (run step n₀ es).standing := by
  induction es using reverseRecOn with
  | nil => exact .refl _
  | append_singleton es call ih =>
    rw [run_concat]
    exact ih.trans (moves_step _ call).sameGroup

theorem standsAsVoter_run (h : n₀.standing.StandsAsVoter) (es : List Carrier.Call) :
    (run step n₀ es).standing.StandsAsVoter := by
  induction es using reverseRecOn with
  | nil => exact h
  | append_singleton es call ih =>
    rw [run_concat]
    exact (moves_step _ call).invariant (fun _ _ hs hmove => hmove.standsAsVoter hs) ih

theorem polled_run (hv : n₀.standing.StandsAsVoter) (hp : n₀.standing.Polled [])
    (hfrom : ∀ call ∈ es, n₀.standing.FromVoter call) : (run step n₀ es).standing.Polled es := by
  induction es using reverseRecOn with
  | nil => exact hp
  | append_singleton es call ih =>
    rw [forall_mem_append] at hfrom
    rw [run_concat]
    exact ((moves_step _ call).elects (standsAsVoter_run hv es) (ih hfrom.1)
      ((sameGroup_run n₀ es).fromVoter (hfrom.2 call (by simp)))).polled

end Runs

/-- A node as its carrier makes it, with the term and the vote of its last life. -/
def recovered (self : NodeId) (peers learners : List NodeId) (log : RaftLog) (cfg : RaftConfig)
    (stored : RaftPersistentState) : RaftNode :=
  { create self peers log cfg learners with persistent := stored }

section Recovered

variable (self : NodeId) (peers learners : List NodeId) (log : RaftLog) (cfg : RaftConfig)
  (stored : RaftPersistentState)

theorem standsAsVoter_recovered :
    (recovered self peers learners log cfg stored).standing.StandsAsVoter :=
  fun hr => absurd rfl hr

/-- In every run of a node a learner stays a follower. If the only nodes that grant it votes are
learners and members of its group, then whenever it stands after a round of pre-votes or becomes
leader, it and those that granted it their votes are a majority of the voters. -/
theorem elected_by_voters (ds : List Carrier.Call) (call : Carrier.Call) :
    let n := run step (recovered self peers learners log cfg stored) ds
    let voters := (self :: peers).filter fun w => !learners.contains w
    (self ∈ learners → n.role = .follower) ∧
    ((∀ c ∈ ds ++ [call], ∀ w t, c.granted = some (w, t) → w ∈ learners ∨ w ∈ self :: peers) →
      (call.isTimeoutNow = false → (n.step call).role = .candidate ∨ (n.step call).role = .leader →
        (n.step call).currentTerm = n.currentTerm + 1 →
        (majority voters).Quorum fun w => w = self ∨ Granted (ds ++ [call]) n.currentTerm w) ∧
      (n.role ≠ .leader → (n.step call).role = .leader →
        (majority voters).Quorum fun w =>
          w = self ∨ Granted (ds ++ [call]) (n.step call).currentTerm w)) := by
  intro n voters
  have hvoter := standsAsVoter_recovered self peers learners log cfg stored
  have hgroup : (recovered self peers learners log cfg stored).standing.SameGroup n.standing :=
    sameGroup_run _ ds
  constructor
  · intro hlearner
    by_contra hr
    have := standsAsVoter_run hvoter ds hr
    rw [Standing.isVoter, hgroup.learners, hgroup.self] at this
    simp [recovered, create, standing, hlearner] at this
  intro hmembers
  have hfrom : ∀ c ∈ ds ++ [call],
      (recovered self peers learners log cfg stored).standing.FromVoter c := by
    intro c hc w t hg hw
    refine List.mem_filter.mpr ⟨(hmembers c hc w t hg).resolve_left fun hl => ?_, hw⟩
    simp [Standing.isVoter, recovered, create, standing, hl] at hw
  rw [List.forall_mem_append] at hfrom
  have hpolled : n.standing.Polled ds := polled_run hvoter (polled_of_nil rfl) hfrom.1
  have helects := (moves_step n call).elects (standsAsVoter_run hvoter ds) hpolled
    (hgroup.fromVoter (hfrom.2 call (by simp)))
  exact ⟨fun hn hr ht => hgroup.backed_iff.mp (helects.stands hr hn ht),
    fun hnot hr => hgroup.backed_iff.mp ((helects.leads hr).resolve_left hnot)⟩

end Recovered

/-- A vote of term `t`, granted by `w` to node 1. -/
def grant (w : NodeId) (t : Nat) : Carrier.Call :=
  .message {} 5000
    { src := w, dst := 1, payload := .requestVoteReply { term := t, voteGranted := true } }

/-- Node 1 of three starts, times out and is granted a pre-vote by `w`. -/
def preVotedBy (w : NodeId) : List Carrier.Call := [.tick {} 0, .tick {} 5000, grant w 0]

/-- Node 1 of three. -/
def ofThree : RaftNode := recovered 1 [2, 3] [] (.create {}) {} {}

/-- Node 2 grants the pre-vote and the vote. -/
theorem elected_by_voters_two :
    (run step ofThree (preVotedBy 2 ++ [grant 2 1])).role = .leader ∧
    (majority [1, 2, 3]).Quorum fun w => w = 1 ∨ Granted (preVotedBy 2 ++ [grant 2 1]) 1 w := by
  have hleads : (run step ofThree (preVotedBy 2 ++ [grant 2 1])).role = .leader := by
    decide +kernel
  refine ⟨hleads, ((elected_by_voters 1 [2, 3] [] (.create {}) {} {} (preVotedBy 2) (grant 2 1)).2
    ?_).2 (by decide +kernel) (by decide +kernel)⟩
  intro c hc w t hg
  simp only [preVotedBy, List.cons_append, List.nil_append, List.mem_cons, List.not_mem_nil,
    or_false] at hc
  rcases hc with rfl | rfl | rfl | rfl
  · cases hg
  · cases hg
  · cases hg; exact .inr (by decide)
  · cases hg; exact .inr (by decide)

/-- Replies of a node that is in no list of the group make node 1 candidate and then leader, while
no other voter has granted anything. -/
theorem elected_by_stranger :
    (run step ofThree (preVotedBy 99)).role = .candidate ∧
    (run step ofThree (preVotedBy 99 ++ [grant 99 1])).role = .leader ∧
    ∀ t, ¬ (majority [1, 2, 3]).Quorum
      fun w => w = 1 ∨ Granted (preVotedBy 99 ++ [grant 99 1]) t w := by
  refine ⟨by decide +kernel, by decide +kernel, fun t hq => ?_⟩
  have hnone : ∀ w, Granted (preVotedBy 99 ++ [grant 99 1]) t w → w = 99 := by
    rintro w ⟨c, hc, hg⟩
    simp only [preVotedBy, List.cons_append, List.nil_append, List.mem_cons, List.not_mem_nil,
      or_false] at hc
    rcases hc with rfl | rfl | rfl | rfl <;> cases hg <;> rfl
  have hself := (majority [1, 2, 3]).mono (fun w h => h.imp_right (hnone w)) hq
  rw [majority_quorum] at hself
  simp at hself

end RaftNode

/-! ## The leader hint -/

namespace Standing

variable {s s' : Standing} {es : List Carrier.Call} {call : Carrier.Call} {t : Nat}

/-- A message of term `t` that names `w` as the leader was among the calls. -/
def LedBy (es : List Carrier.Call) (t : Nat) (w : NodeId) : Prop :=
  ∃ call ∈ es, call.heard = some (t, w)

/-- The node takes itself for the leader just when it is, and another node only when that one was
heard as the leader of the current term. -/
structure Hinted (es : List Carrier.Call) (s : Standing) : Prop where
  own : s.leaderId = some s.self ↔ s.role = .leader
  other : ∀ w, s.leaderId = some w → w ≠ s.self → LedBy es s.term w

/-- No leader of a later term was heard. -/
def Abreast (es : List Carrier.Call) (s : Standing) : Prop := ∀ t w, LedBy es t w → t ≤ s.term

/-- A leader's message names another node, and a later term that comes in any other message finds
the node without a hint. -/
structure KeepsHint (s : Standing) (call : Carrier.Call) : Prop where
  heard : ∀ t w, call.heard = some (t, w) → s.term ≤ t → w ≠ s.self
  named : ∀ t, call.named = some t → s.term < t → s.leaderId = none

theorem ledBy_concat {w : NodeId} :
    LedBy (es ++ [call]) t w ↔ LedBy es t w ∨ call.heard = some (t, w) := by
  constructor
  · rintro ⟨c, hc, hh⟩
    rcases mem_append.mp hc with hc | hc
    · exact .inl ⟨c, hc, hh⟩
    · rw [mem_singleton.mp hc] at hh
      exact .inr hh
  · rintro (⟨c, hc, hh⟩ | hh)
    · exact ⟨c, mem_append_left _ hc, hh⟩
    · exact ⟨call, by simp, hh⟩

theorem Move.term_le (h : Move call s s') : s.term ≤ s'.term := by
  cases h with
  | follow | hear => exact Nat.le_max_left _ _
  | heed | probe | count | win => exact Nat.le_refl _
  | stand => exact Nat.le_succ _
  | standAtOnce => exact Nat.le_succ_of_le (Nat.le_max_left _ _)

theorem Moves.term_le (h : Moves call s s') : s.term ≤ s'.term :=
  h.invariant (I := fun s₁ => s.term ≤ s₁.term)
    (fun _ _ hs hmove => Nat.le_trans hs hmove.term_le) (Nat.le_refl _)

/-- A later term, without a leader. -/
theorem Step.eq_of_named (h : s.Step call s') (hx : call.named = some t) (ht : s.term < t) :
    s' = s.becomeFollower t ∧ call.heard = none := by
  cases h with
  | idle | timeout | propose | transfer => cases hx
  | message io now m =>
    obtain ⟨src, dst, payload⟩ := m
    cases payload with
    | requestVote args =>
      change s.onRequestVote args = _ ∧ _
      change (if args.preVote then none else some args.term) = some t at hx
      by_cases hpre : args.preVote
      · rw [if_pos hpre] at hx
        cases hx
      · rw [if_neg hpre] at hx
        cases hx
        rw [onRequestVote, if_neg hpre]
        exact ⟨if_pos ht, rfl⟩
    | requestVoteReply reply => cases hx; exact ⟨if_pos ht, rfl⟩
    | appendEntriesReply reply => cases hx; exact ⟨if_pos ht, rfl⟩
    | installSnapshotReply reply => cases hx; exact ⟨if_pos ht, rfl⟩
    | appendEntries | installSnapshot | timeoutNow => cases hx

theorem onLeaderMessage_of_le (w : NodeId) (ht : s.term ≤ t) :
    (s.onLeaderMessage t w).role = .follower ∧ (s.onLeaderMessage t w).leaderId = some w ∧
      (s.onLeaderMessage t w).term = t := by
  unfold onLeaderMessage
  rw [if_neg (Nat.not_lt_of_le ht)]
  dsimp only
  split
  · exact ⟨rfl, rfl, Nat.max_eq_right ht⟩
  · rename_i hsame
    rw [not_or, not_not] at hsame
    exact ⟨hsame.2, rfl, by omega⟩

/-- A message of a leader that is not behind. -/
theorem Step.eq_of_heard (h : s.Step call s') {w : NodeId} (hx : call.heard = some (t, w))
    (ht : s.term ≤ t) : s'.role = .follower ∧ s'.leaderId = some w ∧ s'.term = t := by
  cases h with
  | idle | timeout | propose | transfer => cases hx
  | message io now m =>
    obtain ⟨src, dst, payload⟩ := m
    cases payload with
    | appendEntries args => cases hx; exact onLeaderMessage_of_le args.leaderId ht
    | installSnapshot args => cases hx; exact onLeaderMessage_of_le args.leaderId ht
    | requestVote | requestVoteReply | appendEntriesReply | installSnapshotReply | timeoutNow =>
      cases hx

theorem Step.abreast (h : s.Step call s') (ha : s.Abreast es) : s'.Abreast (es ++ [call]) := by
  intro t w hled
  have hle := h.moves.term_le
  rcases ledBy_concat.mp hled with hled | hx
  · exact Nat.le_trans (ha t w hled) hle
  · rcases Nat.lt_or_ge t s.term with hlt | hge
    · omega
    · rw [(h.eq_of_heard hx hge).2.2]

/-- A node without a hint, that does not lead. -/
theorem hinted_of_none (hr : s.role ≠ .leader) (h : s.leaderId = none) : s.Hinted es where
  own := ⟨fun hl => absurd (h.symm.trans hl) nofun, fun hl => absurd hl hr⟩
  other w hw := by rw [h] at hw; cases hw

/-- The moves that neither a leader nor a later term has caused. -/
theorem Move.hinted {s₀ : Standing} (hle : s₀.term ≤ s.term) (h : s.Hinted es)
    (hheard : ∀ t w, call.heard = some (t, w) → t < s₀.term)
    (hnamed : ∀ t, call.named = some t → t ≤ s₀.term) (hmove : Move call s s') :
    s'.Hinted es := by
  cases hmove with
  | follow t hx ht =>
    have := hnamed t hx
    omega
  | hear t w hx ht =>
    have := hheard t w hx
    omega
  | heed w hx =>
    have := hheard _ w hx
    omega
  | probe | stand | standAtOnce => exact hinted_of_none nofun rfl
  | count => exact ⟨h.own, h.other⟩
  | win =>
    exact ⟨⟨fun _ => rfl, fun _ => rfl⟩, fun w hw hne => absurd (Option.some.inj hw).symm hne⟩

/-- One call keeps the hint right just when it meets the condition. -/
theorem Step.hinted_iff (h : s.Step call s') (hh : s.Hinted es) (ha : s.Abreast es) :
    s'.Hinted (es ++ [call]) ↔ s.KeepsHint call := by
  have hself : s'.self = s.self := h.moves.sameGroup.self
  by_cases hnamed : ∃ t, call.named = some t ∧ s.term < t
  · obtain ⟨t, hx, ht⟩ := hnamed
    obtain ⟨rfl, hnone⟩ := h.eq_of_named hx ht
    have hterm : (s.becomeFollower t).term = t := Nat.max_eq_right (Nat.le_of_lt ht)
    constructor
    · intro hh'
      refine ⟨fun u w hu => absurd (hnone.symm.trans hu) nofun, fun _ _ _ => ?_⟩
      -- A hint that is left would be of the node itself, or of a leader of the new term.
      by_contra hsome
      obtain ⟨w, hw⟩ := Option.ne_none_iff_exists'.mp hsome
      by_cases hws : w = s.self
      · subst hws
        exact absurd (hh'.own.mp hw) nofun
      · rcases ledBy_concat.mp (hh'.other w hw hws) with hled | hx'
        · have := ha _ w hled
          omega
        · rw [hnone] at hx'
          cases hx'
    · exact fun hk => hinted_of_none nofun (hk.named t hx ht)
  by_cases hheard : ∃ t w, call.heard = some (t, w) ∧ s.term ≤ t
  · obtain ⟨t, w, hx, ht⟩ := hheard
    obtain ⟨hrole, hleader, hterm⟩ := h.eq_of_heard hx ht
    constructor
    · intro hh'
      refine ⟨fun u v hu _ => ?_, fun u hu hlt => absurd ⟨u, hu, hlt⟩ hnamed⟩
      rw [hx] at hu
      cases hu
      rintro rfl
      have := hh'.own.mp (by rw [hleader, hself])
      rw [hrole] at this
      cases this
    · intro hk
      have hne := hk.heard t w hx ht
      refine ⟨⟨fun hl => ?_, fun hl => ?_⟩, fun v hv _ => ?_⟩
      · rw [hleader, hself] at hl
        exact absurd (Option.some.inj hl) hne
      · rw [hrole] at hl
        cases hl
      · rw [hleader] at hv
        cases hv
        rw [hterm]
        exact ledBy_concat.mpr (.inr hx)
  · have hnamed' : ∀ t, call.named = some t → t ≤ s.term := fun t hx =>
      Nat.le_of_not_lt fun ht => hnamed ⟨t, hx, ht⟩
    have hheard' : ∀ t w, call.heard = some (t, w) → t < s.term := fun t w hx =>
      Nat.lt_of_not_le fun ht => hheard ⟨t, w, hx, ht⟩
    have hlater : s.Hinted (es ++ [call]) :=
      ⟨hh.own, fun w hw hne => ledBy_concat.mpr (.inl (hh.other w hw hne))⟩
    refine ⟨fun _ => ⟨fun t w hx ht => ?_, fun t hx ht => ?_⟩, fun _ => ?_⟩
    · exact absurd (hheard' t w hx) (by omega)
    · exact absurd (hnamed' t hx) (by omega)
    · exact (h.moves.invariant (I := fun s₁ => s.term ≤ s₁.term ∧ s₁.Hinted (es ++ [call]))
        (fun _ _ hs hmove => ⟨Nat.le_trans hs.1 hmove.term_le,
          hmove.hinted hs.1 hs.2 hheard' hnamed'⟩) ⟨Nat.le_refl _, hlater⟩).2

end Standing

namespace RaftNode

open Standing

def leaderHint (n : RaftNode) : Option NodeId := n.leaderId

theorem abreast_run {n₀ : RaftNode} (es : List Carrier.Call) :
    (run step n₀ es).standing.Abreast es := by
  induction es using reverseRecOn with
  | nil => exact fun t w ⟨c, hc, _⟩ => absurd hc not_mem_nil
  | append_singleton es call ih =>
    rw [run_concat]
    exact (standing_step _ call).abreast ih

/-- The hint is right at the end of every part of a run just when each call keeps it right. -/
theorem hinted_run_iff (n₀ : RaftNode) (h : n₀.standing.Hinted []) (es : List Carrier.Call) :
    (∀ ds, ds <+: es → (run step n₀ ds).standing.Hinted ds) ↔
      Along step (fun n call => n.standing.KeepsHint call) n₀ es := by
  induction es using reverseRecOn with
  | nil =>
    refine ⟨fun _ => trivial, fun _ ds hds => ?_⟩
    rw [prefix_nil.mp hds]
    exact h
  | append_singleton es call ih =>
    have hstep := fun hes : (run step n₀ es).standing.Hinted es =>
      (standing_step (run step n₀ es) call).hinted_iff hes (abreast_run es)
    rw [along_append, ← ih]
    constructor
    · intro hall
      have hes := hall es (prefix_append es [call])
      refine ⟨fun ds hds => hall ds (hds.trans (prefix_append es [call])),
        (hstep hes).mp ?_, trivial⟩
      rw [← run_concat]
      exact hall _ (prefix_refl _)
    · rintro ⟨hall, hkeeps, -⟩ ds hds
      rcases prefix_concat_iff.mp hds with rfl | hds
      · rw [run_concat, hstep (hall es (prefix_refl es))]
        exact hkeeps
      · exact hall ds hds

/-- In every run of a node: `leader_hint` is its own id exactly while it leads, and that of another
node only after a message of the current term from that node as leader, as long as leaders'
messages name other nodes and no other message brings a later term to a node that has a hint. The
first call that does otherwise breaks it. -/
theorem leaderHint_run_iff (self : NodeId) (peers learners : List NodeId) (log : RaftLog)
    (cfg : RaftConfig) (stored : RaftPersistentState) (es : List Carrier.Call) :
    (∀ ds, ds <+: es →
      let n := run step (recovered self peers learners log cfg stored) ds
      (n.leaderHint = some n.self ↔ n.role = .leader) ∧
      ∀ w, n.leaderHint = some w → w ≠ n.self → LedBy ds n.currentTerm w) ↔
    Along step (fun n call =>
        (∀ t w, call.heard = some (t, w) → n.currentTerm ≤ t → w ≠ n.self) ∧
        ∀ t, call.named = some t → n.currentTerm < t → n.leaderHint = none)
      (recovered self peers learners log cfg stored) es := by
  have hkeeps : ∀ (n : RaftNode) (call : Carrier.Call), n.standing.KeepsHint call ↔
      (∀ t w, call.heard = some (t, w) → n.currentTerm ≤ t → w ≠ n.self) ∧
        ∀ t, call.named = some t → n.currentTerm < t → n.leaderHint = none :=
    fun n call => ⟨fun h => ⟨h.heard, h.named⟩, fun h => ⟨h.1, h.2⟩⟩
  have hiff := hinted_run_iff (recovered self peers learners log cfg stored)
    (hinted_of_none nofun rfl) es
  simp only [hkeeps] at hiff
  rw [← hiff]
  exact forall₂_congr fun ds _ => ⟨fun h => ⟨h.1, h.2⟩, fun h => ⟨h.own, h.other⟩⟩

/-- Node 1 leads term 1 and hears of term 5 from a candidate: it follows, and still names itself.
As follower of node 2 in term 1 it goes on naming it in term 5. And it follows itself when a message
says so. -/
theorem leaderHint_stale :
    (let n := run step ofThree (preVotedBy 2 ++ [grant 2 1, .message {} 5001
        { src := 3, dst := 1, payload := .requestVote { term := 5, candidateId := 3 } }])
     n.leaderHint = some 1 ∧ n.role = .follower) ∧
    (let es : List Carrier.Call := [.message {} 0
        { src := 2, dst := 1, payload := .appendEntries { term := 1, leaderId := 2 } },
      .message {} 1 { src := 3, dst := 1, payload := .requestVote { term := 5, candidateId := 3 } }]
     (run step ofThree es).leaderHint = some 2 ∧ (run step ofThree es).currentTerm = 5 ∧
       ∀ call ∈ es, call.heard ≠ some (5, 2)) ∧
    (let n := run step ofThree [.message {} 0
        { src := 2, dst := 1, payload := .appendEntries { term := 1, leaderId := 1 } }]
     n.leaderHint = some 1 ∧ n.role = .follower) := by
  decide +kernel

end RaftNode

end Nexus
