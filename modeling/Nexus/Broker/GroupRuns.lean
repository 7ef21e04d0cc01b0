import Mathlib.Data.List.Induction
import Nexus.Lib.Run
import Nexus.Broker.ConsumerGroup

/-!
# Runs of a consumer group

What one call can do to a group (`Moves`), and from it what holds after any calls: one leader's
distribution for each generation (`ConsumerGroup.oneDistribution`), and when a stable group
has everybody assigned (`Watched.allAssigned_iff_fresh`).
-/

namespace Nexus

open Lib ConsumerGroup Function

namespace ConsumerGroup

/-! ## The map of the members -/

section

variable (ms : List (MemberId × Member)) (id : MemberId) (f : Member → Member)

@[simp] theorem map_fst_modifyMember : (modifyMember ms id f).map (·.1) = ms.map (·.1) := by
  rw [modifyMember, List.map_map]
  refine List.map_congr_left fun p _ => ?_
  simp only [comp_apply]
  split <;> rfl

theorem modifyMember_eq :
    modifyMember ms id f = ms.map fun p => (p.1, if p.1 = id then f p.2 else p.2) :=
  List.map_congr_left fun p _ => by split <;> rfl

theorem mem_upsertMember : id ∈ (upsertMember ms id f).map (·.1) := by
  rw [upsertMember]
  split
  case isTrue h => rwa [map_fst_modifyMember]
  case isFalse => simp

theorem subset_upsertMember : ms.map (·.1) ⊆ (upsertMember ms id f).map (·.1) := by
  rw [upsertMember]
  split
  · rw [map_fst_modifyMember]
    exact List.Subset.refl _
  · simp

variable {f}

/-- A change of an entry that leaves the assignments alone. -/
theorem holdings_modifyMember (hf : ∀ m, (f m).assignment = m.assignment) :
    (modifyMember ms id f).map (fun p => (p.1, p.2.assignment)) =
      ms.map fun p => (p.1, p.2.assignment) := by
  rw [modifyMember, List.map_map]
  refine List.map_congr_left fun p _ => ?_
  simp only [comp_apply]
  split
  · rw [hf]
  · rfl

theorem holdings_upsertMember (hf : ∀ m, (f m).assignment = m.assignment) :
    (upsertMember ms id f).map (fun p => (p.1, p.2.assignment)) =
      if id ∈ ms.map (·.1) then ms.map fun p => (p.1, p.2.assignment)
      else ms.map (fun p => (p.1, p.2.assignment)) ++ [(id, [])] := by
  rw [upsertMember]
  split
  · exact holdings_modifyMember ms id hf
  · simp [hf]

end

variable {id : MemberId} {g g' : ConsumerGroup} {f : Member → Member} {c : Call}
  {assignments as : List MemberAssignment} {groupId : String} {before calls : List Call}

/-- The assignment that the leader's list holds for the member, the last one if there are several,
nothing if there is none. -/
def assignmentOf (assignments : List MemberAssignment) (id : MemberId) : List UInt8 :=
  assignments.foldl (fun a e => if e.memberId = id then e.assignment else a) []

theorem assign_eq (as : List MemberAssignment) (ms : List (MemberId × Member)) :
    assign ms as = ms.map fun p => (p.1, { p.2 with
      assignment := as.foldl (fun a e => if e.memberId = p.1 then e.assignment else a)
        p.2.assignment }) := by
  induction as generalizing ms with
  | nil => simp [assign]
  | cons e as ih =>
    rw [assign, List.foldl_cons, ← assign, ih, modifyMember_eq, List.map_map]
    refine List.map_congr_left fun p _ => ?_
    by_cases he : e.memberId = p.1
    · simp [he]
    · simp [he, Ne.symm he]

/-- With one entry for a member, that is its assignment. -/
theorem assignmentOf_of_filter {e : MemberAssignment}
    (h : as.filter (fun e => e.memberId = id) = [e]) : assignmentOf as id = e.assignment := by
  have hfold : ∀ (as : List MemberAssignment) (a : List UInt8),
      as.foldl (fun a e => if e.memberId = id then e.assignment else a) a =
        (as.filter fun e => e.memberId = id).foldl (fun _ e => e.assignment) a := by
    intro as a
    rw [List.foldl_filter]
    simp
  rw [assignmentOf, hfold, h]
  rfl

/-! ## What a call can do -/

/-- Who is in the group, each with its assignment. -/
def holdings (g : ConsumerGroup) : List (MemberId × List UInt8) :=
  g.members.map fun p => (p.1, p.2.assignment)

theorem ids_eq (g : ConsumerGroup) : g.ids = g.holdings.map (·.1) := by
  simp [ids, holdings, comp_def]

/-- The id that `join` works with. -/
def joinId (g : ConsumerGroup) (memberId : MemberId) : MemberId :=
  if memberId = "" then g.nextMemberId.1 else memberId

/-- What a call can do to a group. Only the parts that the protocol is about are named: the timers,
the subscriptions and who rejoined the round are free. -/
inductive Moves (g : ConsumerGroup) : Call → ConsumerGroup → Prop
  /-- Nothing changes. -/
  | stays {c : Call} {g' : ConsumerGroup} (hnot : ¬ g.Distributes c) (hstate : g'.state = g.state)
      (hgen : g'.generation = g.generation) (hleader : g'.leaderId = g.leaderId)
      (hheld : g'.holdings = g.holdings) : Moves g c g'
  /-- A round is open, or goes on. -/
  | gathers {c : Call} {g' : ConsumerGroup} (hnot : ¬ g.Distributes c)
      (hstate : g'.state = .preparingRebalance) (hgen : g'.generation = g.generation)
      (hne : g'.holdings ≠ [])
      (hleader : g'.leaderId = "" ∨ g'.leaderId ∈ g'.ids ∨
        g.state = .preparingRebalance ∧ g'.leaderId = g.leaderId ∧ g.ids ⊆ g'.ids) : Moves g c g'
  /-- The last member goes. -/
  | empties {c : Call} {g' : ConsumerGroup} (hnot : ¬ g.Distributes c) (hstate : g'.state = .empty)
      (hgen : g'.generation = g.generation) (hheld : g'.holdings = []) : Moves g c g'
  /-- The last member that was missing joins: the next generation. -/
  | completes {c : Call} {g' : ConsumerGroup} (hnot : ¬ g.Distributes c)
      (hstate : g'.state = .completingRebalance) (hgen : g'.generation = g.generation + 1)
      (hne : g'.holdings ≠ [])
      (hleader : g'.leaderId ∈ g'.ids ∨
        g.state = .preparingRebalance ∧ g'.leaderId = g.leaderId ∧ g.leaderId ≠ "" ∧
          g.ids ⊆ g'.ids)
      (hheld : ∀ h ∈ g'.holdings, h.2 = []) : Moves g c g'
  /-- A join while the group waits for the leader's list. -/
  | enters {now timeout : Int} {memberId : MemberId} {subscription : List UInt8}
      {g' : ConsumerGroup} (hfrom : g.state = .completingRebalance) (hstate : g'.state = g.state)
      (hgen : g'.generation = g.generation)
      (hleader : g'.leaderId = g.leaderId ∨ g'.leaderId = g.joinId memberId)
      (hheld : g'.holdings = if g.joinId memberId ∈ g.ids then g.holdings
        else g.holdings ++ [(g.joinId memberId, [])]) :
      Moves g (.join now memberId subscription timeout) g'
  /-- The leader's list. -/
  | distributes {now : Int} {memberId : MemberId} {generation : Int}
      {assignments : List MemberAssignment} {g' : ConsumerGroup}
      (hdist : g.Distributes (.sync now memberId generation assignments))
      (hstate : g'.state = .stable) (hgen : g'.generation = g.generation)
      (hleader : g'.leaderId = g.leaderId)
      (hheld : g'.holdings = g.holdings.map fun p => (p.1,
        assignments.foldl (fun a e => if e.memberId = p.1 then e.assignment else a) p.2)) :
      Moves g (.sync now memberId generation assignments) g'

theorem find_eq_none : g.find id = none ↔ id ∉ g.ids := by
  simp only [find, List.lookup_eq_none_iff, ids, List.mem_map, not_exists, not_and, bne_iff_ne,
    ne_comm, ne_eq]

theorem mem_of_find {m : Member} (h : g.find id = some m) : (id, m) ∈ g.members := by
  obtain ⟨front, back, heq, -⟩ := List.lookup_eq_some_iff.mp h
  rw [heq]
  simp

theorem holdings_beginRebalance (g : ConsumerGroup) : g.beginRebalance.holdings = g.holdings := by
  simp [holdings, beginRebalance, comp_def]

/-- `complete_if_ready` does nothing, or closes the round. -/
theorem completeIfReady_cases (g : ConsumerGroup) :
    g.completeIfReady = g ∨ (g.completeIfReady.state = .completingRebalance ∧
      g.completeIfReady.generation = g.generation + 1 ∧
      g.completeIfReady.leaderId = g.leaderId ∧ g.completeIfReady.ids = g.ids ∧
      ∀ h ∈ g.completeIfReady.holdings, h.2 = []) := by
  unfold completeIfReady
  split
  · exact .inl rfl
  split
  · exact .inl rfl
  · refine .inr ⟨rfl, rfl, rfl, ?_, ?_⟩
    · simp [ids, comp_def]
    · simp only [holdings, List.map_map, List.mem_map, comp_apply]
      rintro h ⟨p, -, rfl⟩
      rfl

/-- A join on a group that gathers. -/
theorem moves_gathering {g₁ : ConsumerGroup} (hnot : ¬ g.Distributes c)
    (hstate : g₁.state = .preparingRebalance) (hgen : g₁.generation = g.generation)
    (hne : g₁.ids ≠ []) (hleader : g₁.leaderId ∈ g₁.ids ∨
      g.state = .preparingRebalance ∧ g₁.leaderId = g.leaderId ∧ g.leaderId ≠ "" ∧
        g.ids ⊆ g₁.ids) : Moves g c g₁.completeIfReady := by
  have hheld : ∀ {g' : ConsumerGroup}, g'.ids = g₁.ids → g'.holdings ≠ [] := by
    intro g' hids hnil
    rw [ids_eq, hnil] at hids
    exact hne hids.symm
  rcases g₁.completeIfReady_cases with heq | ⟨hs, hg, hl, hi, hh⟩
  · rw [heq]
    refine .gathers hnot hstate hgen (hheld rfl) ?_
    rcases hleader with hl | ⟨hs, hl, -, hsub⟩
    · exact .inr (.inl hl)
    · exact .inr (.inr ⟨hs, hl, hsub⟩)
  · refine .completes hnot hs (by rw [hg, hgen]) (hheld hi) ?_ hh
    rw [hl, hi]
    exact hleader

/-- The part of `join` before `complete_if_ready`. -/
theorem enroll_eq (g : ConsumerGroup) (now : Int) (id : MemberId) (subscription : List UInt8)
    (timeout : Int) :
    ∃ f : Member → Member, (∀ m, (f m).assignment = m.assignment) ∧
      g.enroll now id subscription timeout =
        if g.state = .stable ∨ g.state = .empty then
          ({ g.beginRebalance with
            members := upsertMember g.beginRebalance.members id f
            leaderId := id } : ConsumerGroup).completeIfReady
        else
          ({ g with
            members := upsertMember g.members id f
            leaderId := if g.leaderId = "" then id else g.leaderId } :
              ConsumerGroup).completeIfReady := by
  refine ⟨fun m => { m with
    subscription := subscription
    sessionTimeout := timeout
    lastSeen := now
    joinedRound := true }, fun _ => rfl, ?_⟩
  unfold enroll
  split <;> simp [beginRebalance]

theorem moves_enroll (hdead : g.state ≠ .dead) (seq : Nat) (now : Int) (memberId : MemberId)
    (subscription : List UInt8) (timeout : Int) :
    Moves g (.join now memberId subscription timeout)
      (({ g with memberSeq := seq } : ConsumerGroup).enroll now (g.joinId memberId) subscription
        timeout) := by
  obtain ⟨f, hf, heq⟩ := enroll_eq { g with memberSeq := seq } now (g.joinId memberId)
    subscription timeout
  rw [heq]
  have hmem := mem_upsertMember g.members (g.joinId memberId) f
  split
  case isTrue hs =>
    have hmem := mem_upsertMember g.beginRebalance.members (g.joinId memberId) f
    exact moves_gathering id rfl rfl (List.ne_nil_of_mem hmem) (.inl hmem)
  case isFalse hs =>
    rw [not_or] at hs
    by_cases hcomp : g.state = .completingRebalance
    · -- the round is closed already: nobody is asked to join again
      rw [completeIfReady, if_pos (.inl (by simp [hcomp]))]
      refine .enters hcomp rfl rfl ?_ (holdings_upsertMember g.members _ hf)
      by_cases hl : g.leaderId = "" <;> simp [hl]
    · have hprep : g.state = .preparingRebalance := by
        cases hst : g.state <;> simp_all
      refine moves_gathering id hprep rfl (List.ne_nil_of_mem hmem) ?_
      by_cases hl : g.leaderId = ""
      · refine .inl ?_
        rw [if_pos hl]
        exact hmem
      · exact .inr ⟨hprep, by simp [hl], hl, subset_upsertMember g.members _ f⟩

/-- `join` enrols the member under its id and answers from the group that this gives. -/
theorem join_eq (hdead : g.state ≠ .dead) (now : Int) (memberId : MemberId)
    (subscription : List UInt8) (timeout : Int) :
    ∃ seq, ∃ g' : ConsumerGroup, g' = ({ g with memberSeq := seq } : ConsumerGroup).enroll now
        (g.joinId memberId) subscription timeout ∧
      g.join now memberId subscription timeout = (.ok
        { memberId := g.joinId memberId
          generation := g'.generation
          leaderId := g'.leaderId
          isLeader := g.joinId memberId = g'.leaderId
          members := if g.joinId memberId = g'.leaderId ∧ g'.state = .completingRebalance
            then g'.sortedMembers else [] }, g') := by
  unfold join joinId
  rw [if_neg hdead]
  by_cases hid : memberId = ""
  · exact ⟨g.memberSeq + 1, _, rfl, by simp only [hid, if_true, nextMemberId]⟩
  · exact ⟨g.memberSeq, _, rfl, by simp only [hid, if_false]⟩

theorem mem_ids_enroll (g : ConsumerGroup) (now : Int) (id : MemberId) (subscription : List UInt8)
    (timeout : Int) : id ∈ (g.enroll now id subscription timeout).ids := by
  have key : ∀ g₁ : ConsumerGroup, id ∈ g₁.ids → id ∈ g₁.completeIfReady.ids := by
    intro g₁ h
    rcases g₁.completeIfReady_cases with heq | ⟨-, -, -, hids, -⟩
    · rwa [heq]
    · rwa [hids]
  obtain ⟨f, -, heq⟩ := enroll_eq g now id subscription timeout
  rw [heq]
  split <;> exact key _ (mem_upsertMember _ _ _)

theorem map_memberId_sortedMembers (g : ConsumerGroup) :
    (g.sortedMembers.map (·.memberId)).Perm g.ids := by
  refine ((List.perm_insertionSort _ _).map _).trans ?_
  simp [ids, comp_def]

theorem moves_afterRemoval (hnot : ¬ g.Distributes c) (ms : List (MemberId × Member)) :
    Moves g c (afterRemoval { g with members := ms }) := by
  unfold afterRemoval
  split
  case isTrue hnil =>
    exact .empties hnot rfl rfl (by simpa [holdings] using hnil)
  case isFalse hne =>
    refine .gathers hnot rfl rfl ?_ (.inl rfl)
    rw [holdings_beginRebalance]
    simpa [holdings] using hne

/-- A change of one member that leaves its assignment alone. -/
theorem moves_touch (hnot : ¬ g.Distributes c) (id : MemberId)
    (hf : ∀ m, (f m).assignment = m.assignment) :
    Moves g c { g with members := modifyMember g.members id f } :=
  .stays hnot rfl rfl rfl (holdings_modifyMember g.members id hf)

theorem moves_sync (g : ConsumerGroup) (now : Int) (memberId : MemberId) (generation : Int)
    (assignments : List MemberAssignment) :
    Moves g (.sync now memberId generation assignments)
      (g.sync now memberId generation assignments).2 := by
  unfold sync
  split
  case isTrue hdead => exact .stays (by simp [Distributes, hdead]) rfl rfl rfl rfl
  split
  case h_1 hnone =>
    exact .stays (by simp [Distributes, find_eq_none.mp hnone]) rfl rfl rfl rfl
  case h_2 member hsome =>
    split
    case isTrue hgen => exact .stays (by simp [Distributes, hgen]) rfl rfl rfl rfl
    case isFalse hgen =>
      simp only
      split
      case isTrue hs => exact moves_touch (by simp [Distributes, hs]) memberId fun _ => rfl
      split
      case isTrue hs => exact moves_touch (by simp [Distributes, hs]) memberId fun _ => rfl
      case isFalse hs =>
        rw [not_not] at hs hgen
        split
        case isFalse hl => exact moves_touch (by simp [Distributes, hl]) memberId fun _ => rfl
        case isTrue hl =>
          have hid : memberId ∈ g.ids := by
            by_contra hno
            rw [find_eq_none.mpr hno] at hsome
            exact absurd hsome (by simp)
          refine .distributes ⟨hs, hl, hid, hgen⟩ rfl rfl rfl ?_
          simp only [holdings, assign_eq, modifyMember_eq, List.map_map]
          refine List.map_congr_left fun p _ => ?_
          simp only [comp_apply]
          split <;> rfl

theorem moves_step (g : ConsumerGroup) (c : Call) : Moves g c (g.step c) := by
  cases c with
  | join now memberId subscription timeout =>
    by_cases hdead : g.state = .dead
    · rw [step, join, if_pos hdead]
      exact .stays id rfl rfl rfl rfl
    · obtain ⟨seq, g', rfl, heq⟩ := join_eq hdead now memberId subscription timeout
      rw [step, heq]
      exact moves_enroll hdead seq now memberId subscription timeout
  | sync now id generation assignments => exact moves_sync g now id generation assignments
  | heartbeat now memberId generation =>
    rw [step, heartbeat]
    split
    · exact .stays id rfl rfl rfl rfl
    split
    · exact .stays id rfl rfl rfl rfl
    · have htouch : Moves g (.heartbeat now memberId generation)
          { g with members := modifyMember g.members memberId fun m =>
            { m with lastSeen := now } } :=
        moves_touch id memberId fun _ => rfl
      simp only
      split
      · exact htouch
      split <;> exact htouch
  | leave memberId =>
    rw [step, leave]
    split
    · exact .stays id rfl rfl rfl rfl
    split
    · exact .stays id rfl rfl rfl rfl
    · exact moves_afterRemoval id _
  | tick now =>
    rw [step, tick]
    split
    · exact .stays id rfl rfl rfl rfl
    simp only
    split
    · exact .stays id rfl rfl rfl rfl
    · exact moves_afterRemoval id _

/-- An assignment that `sync` hands out is the one that the member holds in the stable group that
the call leaves behind. -/
theorem sync_assigned {now : Int} {generation : Int} {r : SyncResult}
    (h : g.sync now id generation assignments = (.ok r, g')) (hassigned : r.assigned = true) :
    g'.state = .stable ∧ r.generation = g'.generation ∧ (id, r.assignment) ∈ g'.holdings := by
  unfold sync at h
  split at h
  · cases h
  split at h
  · cases h
  case h_2 member hsome =>
    simp only at h
    split at h
    · cases h
    split at h
    case isTrue hs =>
      cases h
      refine ⟨hs, rfl, ?_⟩
      rw [holdings, holdings_modifyMember g.members id (f := fun m => { m with lastSeen := now })
        fun _ => rfl]
      exact List.mem_map.mpr ⟨_, mem_of_find hsome, rfl⟩
    split at h
    · cases h
      cases hassigned
    split at h
    · cases h
      refine ⟨rfl, rfl, ?_⟩
      -- the leader is still found once its list is stored
      cases hfind : find { g with
          members := assign (modifyMember g.members id fun m => { m with lastSeen := now })
            assignments
          state := .stable } id with
      | none =>
        refine absurd (find_eq_none.mp hfind) (not_not.mpr ?_)
        simp only [ids, assign_eq, List.map_map, comp_def, map_fst_modifyMember]
        exact List.mem_map.mpr ⟨_, mem_of_find hsome, rfl⟩
      | some m => exact List.mem_map.mpr ⟨_, mem_of_find hfind, rfl⟩
    · cases h
      cases hassigned

theorem Moves.generation_le (h : Moves g c g') : g.generation ≤ g'.generation := by
  cases h <;> omega

theorem ids_of_holdings (h : g'.holdings = g.holdings) : g'.ids = g.ids := by
  rw [ids_eq, h, ← ids_eq]

theorem ids_of_enters
    (h : g'.holdings = if id ∈ g.ids then g.holdings else g.holdings ++ [(id, [])]) :
    g'.ids = if id ∈ g.ids then g.ids else g.ids ++ [id] := by
  rw [ids_eq, h, ids_eq]
  split <;> simp

/-- Within a generation whose round is closed, a call that is not the leader's list leaves the
members and their assignments alone, or lets somebody in. -/
theorem Moves.closed (h : Moves g c g') (hnot : ¬ g.Distributes c)
    (hstate : g'.state = .completingRebalance ∨ g'.state = .stable)
    (hgen : g'.generation = g.generation) :
    g'.state = g.state ∧ (g'.holdings = g.holdings ∨
      ∃ now memberId subscription timeout, c = .join now memberId subscription timeout ∧
        g.state = .completingRebalance ∧ g'.ids = if g.joinId memberId ∈ g.ids then g.ids
          else g.ids ++ [g.joinId memberId]) := by
  cases h with
  | stays _ hs _ _ hheld => exact ⟨hs, .inl hheld⟩
  | gathers _ hs => simp [hs] at hstate
  | empties _ hs => simp [hs] at hstate
  | completes _ _ hg => omega
  | enters hfrom hs _ _ hheld =>
    exact ⟨hs, .inr ⟨_, _, _, _, rfl, hfrom, ids_of_enters hheld⟩⟩
  | distributes hdist => exact absurd hdist hnot

/-! ## What holds in every state -/

/-- The shape of a group in each state of the machine. -/
structure Sound (g : ConsumerGroup) : Prop where
  alive : g.state ≠ .dead
  empty : g.holdings = [] ↔ g.state = .empty
  candidate : g.state = .preparingRebalance → g.leaderId = "" ∨ g.leaderId ∈ g.ids
  leader : g.state = .completingRebalance ∨ g.state = .stable → g.leaderId ∈ g.ids
  unassigned : g.state = .completingRebalance → ∀ h ∈ g.holdings, h.2 = []

theorem sound_new (groupId : String) : Sound { groupId } where
  alive := nofun
  empty := by simp [holdings]
  candidate := nofun
  leader := by simp
  unassigned := nofun

theorem Sound.moves (hg : Sound g) (h : Moves g c g') : Sound g' := by
  cases h with
  | stays hnot hstate hgen hleader hheld =>
    have hids := ids_of_holdings hheld
    constructor <;> rw [hstate] <;> try rw [hleader, hids]
    · exact hg.alive
    · rw [hheld]; exact hg.empty
    · exact hg.candidate
    · exact hg.leader
    · rw [hheld]; exact hg.unassigned
  | gathers hnot hstate hgen hne hleader =>
    refine ⟨by simp [hstate], by simp [hstate, hne], fun _ => ?_, by simp [hstate],
      by simp [hstate]⟩
    rcases hleader with hl | hl | ⟨hs, hl, hsub⟩
    · exact .inl hl
    · exact .inr hl
    · rw [hl]
      exact (hg.candidate hs).imp_right (@hsub _)
  | empties hnot hstate hgen hheld =>
    refine ⟨by simp [hstate], by simp [hstate, hheld], by simp [hstate], by simp [hstate],
      by simp [hstate]⟩
  | completes hnot hstate hgen hne hleader hheld =>
    refine ⟨by simp [hstate], by simp [hstate, hne], by simp [hstate], fun _ => ?_, fun _ => hheld⟩
    rcases hleader with hl | ⟨hs, hl, hnonempty, hsub⟩
    · exact hl
    · rw [hl]
      exact hsub ((hg.candidate hs).resolve_left hnonempty)
  | @enters now timeout memberId subscription _ hfrom hstate hgen hleader hheld =>
    rw [hfrom] at hstate
    have hne : g'.holdings ≠ [] := by
      have hne := mt hg.empty.mp (by simp [hfrom])
      rw [hheld]
      split
      · exact hne
      · simp
    have hids := ids_of_enters hheld
    refine ⟨by simp [hstate], by simp [hstate, hne], by simp [hstate], fun _ => ?_, fun _ => ?_⟩
    · have hold := hg.leader (.inl hfrom)
      rw [hids]
      rcases hleader with hl | hl <;> rw [hl] <;> split <;> simp [*]
    · rw [hheld]
      have hold := hg.unassigned hfrom
      split
      · exact hold
      · intro h hmem
        rcases List.mem_append.mp hmem with hmem | hmem
        · exact hold h hmem
        · rw [List.mem_singleton.mp hmem]
  | distributes hdist hstate hgen hleader hheld =>
    have hids : g'.ids = g.ids := by
      rw [ids_eq, hheld, ids_eq, List.map_map]
      rfl
    refine ⟨by simp [hstate], ?_, by simp [hstate], fun _ => ?_, by simp [hstate]⟩
    · have hne := mt hg.empty.mp (by simp [hdist.1])
      simp [hheld, hstate, hne]
    · rw [hleader, hids]
      exact hg.leader (.inl hdist.1)

/-- The group after the calls. -/
def after (groupId : String) (calls : List Call) : ConsumerGroup := run step { groupId } calls

theorem after_append (groupId : String) (calls : List Call) (c : Call) :
    after groupId (calls ++ [c]) = (after groupId calls).step c := by
  rw [after, run_append]
  rfl

theorem sound_after (groupId : String) (calls : List Call) : Sound (after groupId calls) :=
  run_invariant (P := fun _ _ => True) (fun g c hg _ => hg.moves (moves_step g c))
    (sound_new groupId) (along_of_forall (fun _ _ => trivial) _ _)

theorem generation_le_after (h : before <+: calls) :
    (after groupId before).generation ≤ (after groupId calls).generation := by
  obtain ⟨rest, rfl⟩ := h
  induction rest using List.reverseRecOn with
  | nil => simp
  | append_singleton rest c ih =>
    rw [← List.append_assoc, after_append]
    exact ih.trans (moves_step _ c).generation_le

/-! ## One distribution for each generation -/

/-- After `before`, the next of the calls is the leader's distribution of `assignments`. -/
def DistributedAt (groupId : String) (calls before : List Call)
    (assignments : List MemberAssignment) : Prop :=
  ∃ c : Call, before ++ [c] <+: calls ∧ (after groupId before).Distributes c ∧
    ∃ now id generation, c = .sync now id generation assignments

/-- The distributions of a run: those before are of earlier generations as long as the leader's
list is waited for, and the assignments of a stable group are those of a distribution of its
generation. -/
structure Rounds (groupId : String) (calls : List Call) : Prop where
  past : ∀ before assignments, DistributedAt groupId calls before assignments →
    (after groupId calls).state = .completingRebalance →
    (after groupId before).generation < (after groupId calls).generation
  given : (after groupId calls).state = .stable → ∃ before assignments,
    DistributedAt groupId calls before assignments ∧
      (after groupId before).generation = (after groupId calls).generation ∧
      ∀ h ∈ (after groupId calls).holdings, h.2 = assignmentOf assignments h.1

theorem DistributedAt.append (h : DistributedAt groupId calls before assignments)
    (rest : List Call) : DistributedAt groupId (calls ++ rest) before assignments := by
  obtain ⟨c, hc, hdist⟩ := h
  exact ⟨c, hc.trans (List.prefix_append calls rest), hdist⟩

theorem DistributedAt.cases (h : DistributedAt groupId (calls ++ [c]) before assignments) :
    DistributedAt groupId calls before assignments ∨
      (before = calls ∧ (after groupId calls).Distributes c) := by
  obtain ⟨d, hd, hdist, hsync⟩ := h
  rcases List.prefix_concat_iff.mp hd with heq | hd
  · obtain ⟨rfl, hcd⟩ := List.append_inj' heq rfl
    cases hcd
    exact .inr ⟨rfl, hdist⟩
  · exact .inl ⟨d, hd, hdist, hsync⟩

theorem rounds (groupId : String) (calls : List Call) : Rounds groupId calls := by
  induction calls using List.reverseRecOn with
  | nil => exact ⟨nofun, nofun⟩
  | append_singleton calls c ih =>
    have hmoves := moves_step (after groupId calls) c
    have hgen : ∀ before assignments, DistributedAt groupId calls before assignments →
        (after groupId before).generation ≤ (after groupId calls).generation :=
      fun before assignments h => by
        obtain ⟨d, hd, -⟩ := h
        exact generation_le_after ((List.prefix_append before [d]).trans hd)
    rw [← after_append] at hmoves
    constructor
    · intro before assignments hat hstate
      rcases hat.cases with hold | ⟨-, hdist⟩
      · have hle := hgen before assignments hold
        cases hmoves with
        | stays hnot hs hg =>
          rw [hg]
          exact ih.past before assignments hold (hs.symm.trans hstate)
        | gathers hnot hs => simp [hs] at hstate
        | empties hnot hs => simp [hs] at hstate
        | completes hnot hs hg => omega
        | enters hfrom hs hg =>
          rw [hg]
          exact ih.past before assignments hold hfrom
        | distributes hdist hs => simp [hs] at hstate
      · cases hmoves with
        | stays hnot => exact absurd hdist hnot
        | gathers hnot => exact absurd hdist hnot
        | empties hnot => exact absurd hdist hnot
        | completes hnot => exact absurd hdist hnot
        | enters => exact hdist.elim
        | distributes hdist hs => simp [hs] at hstate
    · intro hstate
      cases hmoves with
      | stays hnot hs hg hl hheld =>
        obtain ⟨before, assignments, hat, heq, hgiven⟩ := ih.given (hs.symm.trans hstate)
        exact ⟨before, assignments, hat.append [c], by rw [hg, heq], by rwa [hheld]⟩
      | gathers hnot hs => simp [hs] at hstate
      | empties hnot hs => simp [hs] at hstate
      | completes hnot hs => simp [hs] at hstate
      | enters hfrom hs => simp [hs, hfrom] at hstate
      | @distributes now id generation assignments _ hdist hs hg hl hheld =>
        refine ⟨calls, assignments, ⟨_, List.prefix_refl _, hdist, now, id, generation, rfl⟩,
          hg.symm, ?_⟩
        rw [hheld]
        intro h hmem
        obtain ⟨p, hp, rfl⟩ := List.mem_map.mp hmem
        -- before the leader's list everybody holds nothing
        rw [(sound_after groupId calls).unassigned hdist.1 p hp]
        rfl

/-- Two distributions of one generation are one call. -/
theorem DistributedAt.unique {before' : List Call} {as' : List MemberAssignment}
    (h : DistributedAt groupId calls before as) (h' : DistributedAt groupId calls before' as')
    (hgen : (after groupId before).generation = (after groupId before').generation) :
    before = before' ∧ as = as' := by
  have key : ∀ {before before' as as'}, DistributedAt groupId calls before as →
      DistributedAt groupId calls before' as' → before.length < before'.length →
      (after groupId before).generation < (after groupId before').generation := by
    intro before before' as as' h h' hlen
    obtain ⟨c, hc, hdist⟩ := h
    obtain ⟨c', hc', hdist', now, id, generation, rfl⟩ := h'
    have hpre : before ++ [c] <+: before' :=
      List.prefix_of_prefix_length_le hc ((List.prefix_append _ _).trans hc')
        (by simpa using Nat.succ_le_of_lt hlen)
    exact (rounds groupId before').past before as ⟨c, hpre, hdist⟩ hdist'.1
  rcases Nat.lt_trichotomy before.length before'.length with hlt | heq | hgt
  · have := key h h' hlt
    omega
  · obtain ⟨c, hc, -, now, id, generation, rfl⟩ := h
    obtain ⟨c', hc', -, now', id', generation', rfl⟩ := h'
    have hpair := (List.prefix_of_prefix_length_le hc hc' (by simp [heq])).eq_of_length
      (by simp [heq])
    obtain ⟨rfl, hcall⟩ := List.append_inj' hpair rfl
    cases hcall
    exact ⟨rfl, rfl⟩
  · have := key h' h hgt
    omega

end ConsumerGroup

/-! ## Who of a stable group is assigned -/

/-- A group with what its leaders saw: the newest list that a join returned, with its generation,
who came to the group since, and the newest distribution. -/
structure Watched where
  group : ConsumerGroup
  list : Option (Int × List MemberInfo) := none
  late : List MemberId := []
  given : List MemberAssignment := []
  deriving DecidableEq

namespace Watched

open ConsumerGroup (Call Moves assignmentOf)

variable {w : Watched}

def step (w : Watched) (c : Call) : Watched :=
  match c with
  | .join now memberId subscription timeout =>
    match w.group.join now memberId subscription timeout with
    | (.ok r, g) =>
      if r.members ≠ [] then
        { w with group := g, list := some (r.generation, r.members), late := [] }
      else
        { w with
          group := g
          late := if w.group.contains r.memberId then w.late else w.late ++ [r.memberId] }
    | (.error _, g) => { w with group := g }
  | .sync _ _ _ assignments =>
    { w with
      group := w.group.step c
      given := if w.group.Distributes c then assignments else w.given }
  | _ => { w with group := w.group.step c }

/-- The leader's list carries one assignment for each member of the list that its join returned
for the generation. -/
def Covers (w : Watched) : Call → Prop
  | .sync now memberId generation assignments =>
    w.group.Distributes (.sync now memberId generation assignments) → ∀ l ∈ w.list,
      l.1 = w.group.generation →
      ∀ i ∈ l.2, (assignments.filter fun e => e.memberId = i.memberId).length = 1
  | _ => True

instance (w : Watched) (c : Call) : Decidable (w.Covers c) := by
  induction c using Call.casesOn <;> dsimp only [Covers] <;> infer_instance

/-- Every member was in the list that the leader had, and holds the assignment it was given. -/
def AllAssigned (w : Watched) : Prop :=
  ∃ l ∈ w.list, l.1 = w.group.generation ∧
    ∀ p ∈ w.group.members, (∃ i ∈ l.2, i.memberId = p.1) ∧ ⟨p.1, p.2.assignment⟩ ∈ w.given

instance (w : Watched) : Decidable w.AllAssigned := by
  unfold AllAssigned
  infer_instance

/-- What the watcher knows: the members of a generation that has a list are those of the list and
those that came later, and a stable group was given assignments for the list. -/
structure Seen (w : Watched) : Prop where
  sound : w.group.Sound
  old : ∀ generation infos, w.list = some (generation, infos) → generation ≤ w.group.generation
  members : w.group.state = .completingRebalance ∨ w.group.state = .stable → ∀ infos,
    w.list = some (w.group.generation, infos) →
    (∀ id, id ∈ w.group.ids ↔ id ∈ infos.map (·.memberId) ∨ id ∈ w.late) ∧
      ∀ id ∈ w.late, id ∉ infos.map (·.memberId)
  given : w.group.state = .stable →
    (∀ infos, w.list = some (w.group.generation, infos) →
      ∀ i ∈ infos, (w.given.filter fun e => e.memberId = i.memberId).length = 1) ∧
    ∀ h ∈ w.group.holdings, h.2 = assignmentOf w.given h.1

theorem seen_new (groupId : String) : Seen { group := { groupId } } :=
  ⟨sound_new groupId, nofun, by simp, nofun⟩

/-- A call that returns no list and gives no assignments; `late` is who is late after it. -/
theorem Seen.moves {c : Call} {g' : ConsumerGroup} {late : List MemberId} (hw : Seen w)
    (hmoves : Moves w.group c g') (hnot : ¬ w.group.Distributes c) (hsub : w.late ⊆ late)
    (hlate : ∀ id ∈ late, id ∈ w.late ∨ id ∉ w.group.ids)
    (hids : g'.generation = w.group.generation →
      g'.state = .completingRebalance ∨ g'.state = .stable → w.late ⊆ w.group.ids →
      ∀ id, id ∈ g'.ids ↔ id ∈ w.group.ids ∨ id ∈ late) :
    Seen { w with group := g', late := late } := by
  have hgen : ∀ infos, w.list = some (g'.generation, infos) →
      g'.generation = w.group.generation := fun infos hlist =>
    (hw.old _ _ hlist).antisymm hmoves.generation_le
  refine ⟨hw.sound.moves hmoves, fun n infos hlist => (hw.old n infos hlist).trans
    hmoves.generation_le, fun hstate infos hlist => ?_, fun hstate => ?_⟩
  · have hsame := hgen infos hlist
    obtain ⟨hs, -⟩ := hmoves.closed hnot hstate hsame
    obtain ⟨hmem, hdisj⟩ := hw.members (by rwa [← hs]) infos (hsame ▸ hlist)
    have hmem' := hids hsame hstate fun id hid => (hmem id).mpr (.inr hid)
    refine ⟨fun id => ?_, fun id hid => ?_⟩
    · rw [hmem', hmem]
      have := @hsub id
      tauto
    · rcases hlate id hid with hid | hid
      · exact hdisj id hid
      · exact fun hin => hid ((hmem id).mpr (.inl hin))
  · cases hmoves with
    | stays _ hs hg _ hheld =>
      obtain ⟨hone, hgiven⟩ := hw.given (hs.symm.trans hstate)
      exact ⟨fun infos hlist => hone infos (hg ▸ hlist), by rwa [hheld]⟩
    | gathers _ hs => simp [hs] at hstate
    | empties _ hs => simp [hs] at hstate
    | completes _ hs => simp [hs] at hstate
    | enters hfrom hs => simp [hs, hfrom] at hstate
    | distributes hdist => exact absurd hdist hnot

theorem Seen.step_join (hw : Seen w) (now : Int) (memberId : MemberId) (subscription : List UInt8)
    (timeout : Int) : Seen (w.step (.join now memberId subscription timeout)) := by
  obtain ⟨seq, g', hg', heq⟩ :=
    join_eq hw.sound.alive now memberId subscription timeout
  have hmoves : Moves w.group (.join now memberId subscription timeout) g' := by
    rw [hg']
    exact moves_enroll hw.sound.alive seq now memberId subscription timeout
  have hin : w.group.joinId memberId ∈ g'.ids := by
    rw [hg']
    exact mem_ids_enroll _ now _ subscription timeout
  simp only [step, heq]
  by_cases hleads : w.group.joinId memberId = g'.leaderId ∧ g'.state = .completingRebalance
  · -- the leader's list is who is in the group now
    have hne : g'.sortedMembers ≠ [] := fun hnil => by
      have hmem := g'.map_memberId_sortedMembers.mem_iff.mpr hin
      simp [hnil] at hmem
    simp only [if_pos hleads, if_pos hne]
    refine ⟨hw.sound.moves hmoves, ?_, fun _ infos hlist => ?_, fun hstate => ?_⟩
    · rintro _ _ ⟨⟩
      exact le_rfl
    · cases hlist
      refine ⟨fun id => ?_, nofun⟩
      rw [g'.map_memberId_sortedMembers.mem_iff]
      simp
    · simp [hleads.2] at hstate
  · simp only [if_neg hleads, ne_eq, not_true_eq_false, if_false]
    refine hw.moves hmoves id ?_ ?_ fun hg hstate hsub id => ?_
    · split
      · exact List.Subset.refl _
      · exact List.subset_append_left _ _
    · intro id hid
      split at hid
      case isTrue => exact .inl hid
      case isFalse hnew =>
        rcases List.mem_append.mp hid with hid | hid
        · exact .inl hid
        · rw [List.mem_singleton.mp hid]
          exact .inr (by simpa [contains] using hnew)
    · have hids : g'.ids = if w.group.joinId memberId ∈ w.group.ids then w.group.ids
          else w.group.ids ++ [w.group.joinId memberId] := by
        obtain ⟨-, hheld | ⟨_, _, _, _, hcall, -, hids⟩⟩ := hmoves.closed (fun h => h) hstate hg
        · have hsame := ids_of_holdings hheld
          rw [if_pos (hsame ▸ hin), hsame]
        · cases hcall
          exact hids
      by_cases hold : w.group.joinId memberId ∈ w.group.ids
      · simpa [hids, hold, contains] using @hsub id
      · simp only [hids, hold, contains, if_false, List.mem_append,
          List.mem_singleton, decide_false, Bool.false_eq_true]
        have := @hsub id
        tauto

/-- The leader's list. -/
theorem Seen.distribute {now : Int} {memberId : MemberId} {generation : Int}
    {assignments : List MemberAssignment} (hw : Seen w)
    (hdist : w.group.Distributes (.sync now memberId generation assignments))
    (hcovers : w.Covers (.sync now memberId generation assignments)) :
    Seen (w.step (.sync now memberId generation assignments)) := by
  have hmoves := moves_step w.group (.sync now memberId generation assignments)
  have hsound := hw.sound.moves hmoves
  cases hmoves with
  | stays hnot => exact absurd hdist hnot
  | gathers hnot => exact absurd hdist hnot
  | empties hnot => exact absurd hdist hnot
  | completes hnot => exact absurd hdist hnot
  | distributes _ hstate hgen hleader hheld =>
    have hids : (w.group.step (.sync now memberId generation assignments)).ids = w.group.ids := by
      rw [ids_eq, hheld, ids_eq, List.map_map]
      rfl
    simp only [step, if_pos hdist]
    refine ⟨hsound, fun n infos h => hgen ▸ hw.old n infos h, fun _ infos h => ?_,
      fun _ => ⟨fun infos h => ?_, ?_⟩⟩
    · rw [hids]
      exact hw.members (.inl hdist.1) infos (hgen ▸ h)
    · exact hcovers hdist _ h hgen
    · rw [hheld]
      intro h hmem
      obtain ⟨p, hp, rfl⟩ := List.mem_map.mp hmem
      rw [hw.sound.unassigned hdist.1 p hp]
      rfl

theorem Seen.step {c : Call} (hw : Seen w) (hcovers : w.Covers c) : Seen (w.step c) := by
  have hquiet : ¬ w.group.Distributes c → (∀ now memberId subscription timeout,
      c ≠ .join now memberId subscription timeout) → Seen { w with group := w.group.step c } := by
    intro hnot hjoin
    have hmoves := moves_step w.group c
    refine hw.moves hmoves hnot (List.Subset.refl _) (fun _ => .inl) fun hg hstate hsub id => ?_
    obtain ⟨-, hheld | ⟨_, _, _, _, hcall, -⟩⟩ := hmoves.closed hnot hstate hg
    · rw [ids_of_holdings hheld]
      exact ⟨.inl, fun h => h.elim (fun h => h) (@hsub id)⟩
    · exact absurd hcall (hjoin _ _ _ _)
  cases c with
  | join now memberId subscription timeout => exact hw.step_join now memberId subscription timeout
  | sync now memberId generation assignments =>
    by_cases hdist : w.group.Distributes (.sync now memberId generation assignments)
    · exact hw.distribute hdist hcovers
    · simp only [Watched.step, if_neg hdist]
      exact hquiet hdist nofun
  | heartbeat => exact hquiet (fun h => h) nofun
  | leave => exact hquiet (fun h => h) nofun
  | tick => exact hquiet (fun h => h) nofun

/-- The leader's join returned a list for the generation, and nobody came to the group since. -/
def Fresh (w : Watched) : Prop :=
  (∃ l ∈ w.list, l.1 = w.group.generation) ∧ w.late = []

instance (w : Watched) : Decidable w.Fresh := by
  unfold Fresh
  infer_instance

/-- When the leaders' assignments cover the lists of their joins, a stable group has everybody in
the list and assigned exactly when the leader had a list and nobody came between it and the
assignments. -/
theorem allAssigned_iff_fresh (groupId : String) (calls : List Call)
    (hcovers : Along step Covers { group := { groupId } } calls)
    (hstable : (run step { group := { groupId } } calls).group.state = .stable) :
    (run step { group := { groupId } } calls).AllAssigned ↔
      (run step { group := { groupId } } calls).Fresh := by
  have hseen : Seen (run step { group := { groupId } } calls) :=
    run_invariant (fun w c hw h => hw.step h) (seen_new groupId) hcovers
  generalize run step { group := { groupId } } calls = w at hseen hstable ⊢
  obtain ⟨hone, hgiven⟩ := hseen.given hstable
  constructor
  · rintro ⟨⟨_, infos⟩, hlist, rfl, hall⟩
    obtain ⟨hmem, hdisj⟩ := hseen.members (.inr hstable) infos hlist
    refine ⟨⟨_, hlist, rfl⟩, List.eq_nil_iff_forall_not_mem.mpr fun id hlate => ?_⟩
    obtain ⟨p, hp, rfl⟩ := List.mem_map.mp ((hmem id).mpr (.inr hlate))
    obtain ⟨i, hi, hid⟩ := (hall p hp).1
    exact hdisj _ hlate (List.mem_map.mpr ⟨i, hi, hid⟩)
  · rintro ⟨⟨⟨_, infos⟩, hlist, rfl⟩, hnil⟩
    obtain ⟨hmem, -⟩ := hseen.members (.inr hstable) infos hlist
    refine ⟨_, hlist, rfl, fun p hp => ?_⟩
    have hin : p.1 ∈ infos.map (·.memberId) := by
      have := (hmem p.1).mp (List.mem_map_of_mem hp)
      simpa [hnil] using this
    obtain ⟨i, hi, hid⟩ := List.mem_map.mp hin
    obtain ⟨e, he⟩ := List.length_eq_one_iff.mp (hone infos hlist i hi)
    rw [hid] at he
    have hmem : e ∈ w.given.filter fun e => e.memberId = p.1 := by simp [he]
    obtain ⟨hmem, heid⟩ := List.mem_filter.mp hmem
    have hassign : p.2.assignment = e.assignment := by
      rw [← ConsumerGroup.assignmentOf_of_filter he]
      exact hgiven (p.1, p.2.assignment) (List.mem_map_of_mem hp)
    refine ⟨⟨i, hi, hid⟩, ?_⟩
    rw [hassign, ← of_decide_eq_true heid]
    exact hmem

/-- A second member comes after the leader has its list and before the leader's assignments: the
group becomes stable with a member that was in no list and holds nothing. -/
def lateMember : List Call :=
  [.join 0 "a" [] 10, .join 1 "b" [] 10, .sync 2 "a" 1 [⟨"a", [7]⟩]]

/-- The first to rejoin leads, and others close the round: its join returned no list. -/
def noList : List Call :=
  [.join 0 "a" [] 10, .sync 0 "a" 1 [⟨"a", [7]⟩], .join 1 "b" [] 10, .join 2 "a" [] 10,
    .sync 3 "b" 2 []]

/-- The leader joins again once the second member is in, and hands out both assignments. -/
def rejoined : List Call :=
  [.join 0 "a" [] 10, .join 1 "b" [] 10, .join 2 "a" [] 10,
    .sync 3 "a" 1 [⟨"a", [7]⟩, ⟨"b", [8]⟩]]

theorem not_allAssigned_lateMember :
    (Along step Covers { group := { groupId := "g" } } lateMember ∧
      (run step { group := { groupId := "g" } } lateMember).group.state = .stable ∧
      ¬ (run step { group := { groupId := "g" } } lateMember).AllAssigned) ∧
    (Along step Covers { group := { groupId := "g" } } noList ∧
      (run step { group := { groupId := "g" } } noList).group.state = .stable ∧
      ¬ (run step { group := { groupId := "g" } } noList).AllAssigned) := by
  decide

theorem allAssigned_iff_fresh_rejoined :
    ((run step { group := { groupId := "g" } } rejoined).AllAssigned ↔
      (run step { group := { groupId := "g" } } rejoined).Fresh) ∧
    (run step { group := { groupId := "g" } } rejoined).Fresh ∧
    (run step { group := { groupId := "g" } } rejoined).group.ids = ["a", "b"] :=
  ⟨allAssigned_iff_fresh "g" rejoined (by decide) (by decide), by decide, by decide⟩

end Watched

end Nexus
