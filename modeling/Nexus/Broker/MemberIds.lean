import Nexus.Broker.GroupRuns

/-!
# Generated member ids

`next_member_id` renders a counter after the name of the group, while a client may join under any
string. `Named` says where the ids of a group come from: a client chose the id, or the counter has
passed it.
-/

namespace Nexus.ConsumerGroup

open Lib List

/-- The id for the number `n`. -/
def memberIdOf (groupId : String) (n : Nat) : MemberId := groupId ++ "-" ++ toString n

theorem memberIdOf_inj {groupId : String} {m n : Nat} :
    memberIdOf groupId m = memberIdOf groupId n ↔ m = n := by
  refine ⟨fun h => ?_, fun h => by rw [h]⟩
  have hdigits := (String.append_right_inj _).mp h
  rw [Nat.toString_eq_ofList_toDigits, Nat.toString_eq_ofList_toDigits,
    String.ofList_inj] at hdigits
  rw [← Nat.ofDigitChars_ten_toDigits (n := m), hdigits, Nat.ofDigitChars_ten_toDigits]

/-- A client joined under `id` by its own choice. -/
def ChosenIn (id : MemberId) (calls : List Call) : Prop :=
  id ≠ "" ∧ ∃ now subscription timeout, Call.join now id subscription timeout ∈ calls

/-- Every id in the group was chosen by a client or is one of the counter's so far. -/
structure Named (groupId : String) (calls : List Call) (g : ConsumerGroup) : Prop where
  group : g.groupId = groupId
  ids : ∀ id ∈ g.ids, ChosenIn id calls ∨ ∃ n ≤ g.memberSeq, id = memberIdOf groupId n

section

variable {groupId : String} {calls : List Call} {g g' : ConsumerGroup} {c : Call}

theorem ChosenIn.append {id : MemberId} (h : ChosenIn id calls) (c : Call) :
    ChosenIn id (calls ++ [c]) := by
  obtain ⟨hne, now, subscription, timeout, hmem⟩ := h
  exact ⟨hne, now, subscription, timeout, mem_append_left _ hmem⟩

/-- Nobody is added, and the counter stays. -/
structure Keeps (g g' : ConsumerGroup) : Prop where
  group : g'.groupId = g.groupId
  seq : g'.memberSeq = g.memberSeq
  ids : g'.ids ⊆ g.ids

theorem Keeps.refl (g : ConsumerGroup) : Keeps g g := ⟨rfl, rfl, List.Subset.refl _⟩

theorem Keeps.modify (g : ConsumerGroup) (id : MemberId) (f : Member → Member) :
    Keeps g { g with members := modifyMember g.members id f } :=
  ⟨rfl, rfl, fun x hx => by rwa [ConsumerGroup.ids, map_fst_modifyMember] at hx⟩

theorem Keeps.named (h : Named groupId calls g) (c : Call) (hk : Keeps g g') :
    Named groupId (calls ++ [c]) g' where
  group := hk.group.trans h.group
  ids id hid := (h.ids id (hk.ids hid)).imp (·.append c) (hk.seq ▸ ·)

theorem keeps_sync (g : ConsumerGroup) (now : Int) (memberId : MemberId) (generation : Int)
    (assignments : List MemberAssignment) :
    Keeps g (g.sync now memberId generation assignments).2 := by
  have htouch := Keeps.modify g memberId fun m => { m with lastSeen := now }
  unfold sync
  split
  · exact .refl g
  split
  · exact .refl g
  split
  · exact .refl g
  dsimp only
  split
  · exact htouch
  split
  · exact htouch
  split
  · refine ⟨rfl, rfl, fun x hx => htouch.ids ?_⟩
    rw [ConsumerGroup.ids, assign_eq, map_map] at hx
    exact hx
  · exact htouch

theorem keeps_heartbeat (g : ConsumerGroup) (now : Int) (memberId : MemberId) (generation : Int) :
    Keeps g (g.heartbeat now memberId generation).2 := by
  have htouch := Keeps.modify g memberId fun m => { m with lastSeen := now }
  unfold heartbeat
  split
  · exact .refl g
  split
  · exact .refl g
  dsimp only
  split
  · exact htouch
  split <;> exact htouch

/-- `leave` and `tick` keep some of the members. -/
theorem keeps_afterRemoval (g : ConsumerGroup) (p : MemberId × Member → Bool) :
    Keeps g (afterRemoval { g with members := g.members.filter p }) := by
  have hsub : (g.members.filter p).map (·.1) ⊆ g.ids :=
    map_subset _ (filter_subset_self _)
  unfold afterRemoval
  split
  · exact ⟨rfl, rfl, hsub⟩
  · refine ⟨rfl, rfl, fun x hx => hsub ?_⟩
    simpa [ConsumerGroup.ids, beginRebalance, Function.comp_def] using hx

theorem completeIfReady_ids (g : ConsumerGroup) :
    g.completeIfReady.groupId = g.groupId ∧ g.completeIfReady.memberSeq = g.memberSeq ∧
      g.completeIfReady.ids = g.ids := by
  unfold completeIfReady
  split
  · exact ⟨rfl, rfl, rfl⟩
  split
  · exact ⟨rfl, rfl, rfl⟩
  · exact ⟨rfl, rfl, by simp [ids, Function.comp_def]⟩

theorem mem_ids_upsertMember {ms : List (MemberId × Member)} {id x : MemberId}
    {f : Member → Member} (h : x ∈ (upsertMember ms id f).map (·.1)) :
    x = id ∨ x ∈ ms.map (·.1) := by
  rw [upsertMember] at h
  split at h
  · rw [map_fst_modifyMember] at h
    exact .inr h
  · rw [map_append, mem_append, map_singleton, mem_singleton] at h
    exact h.symm

/-- `join` adds nobody but the member that joins. -/
theorem enroll_ids (g : ConsumerGroup) (now : Int) (id : MemberId) (subscription : List UInt8)
    (timeout : Int) :
    (g.enroll now id subscription timeout).groupId = g.groupId ∧
      (g.enroll now id subscription timeout).memberSeq = g.memberSeq ∧
      ∀ x ∈ (g.enroll now id subscription timeout).ids, x = id ∨ x ∈ g.ids := by
  obtain ⟨f, -, heq⟩ := enroll_eq g now id subscription timeout
  rw [heq]
  split
  · obtain ⟨hgroup, hseq, hids⟩ := completeIfReady_ids { g.beginRebalance with
      members := upsertMember g.beginRebalance.members id f, leaderId := id }
    refine ⟨hgroup, hseq, fun x hx => ?_⟩
    rw [hids] at hx
    refine (mem_ids_upsertMember hx).imp_right fun hx => ?_
    simpa [ids, beginRebalance, Function.comp_def] using hx
  · obtain ⟨hgroup, hseq, hids⟩ := completeIfReady_ids { g with
      members := upsertMember g.members id f
      leaderId := if g.leaderId = "" then id else g.leaderId }
    refine ⟨hgroup, hseq, fun x hx => ?_⟩
    rw [hids] at hx
    exact mem_ids_upsertMember hx

theorem Named.join (h : Named groupId calls g) (now : Int) (memberId : MemberId)
    (subscription : List UInt8) (timeout : Int) :
    Named groupId (calls ++ [.join now memberId subscription timeout])
      (g.join now memberId subscription timeout).2 := by
  unfold ConsumerGroup.join
  split
  · exact (Keeps.refl g).named h _
  dsimp only
  split
  · obtain ⟨hgroup, hseq, hids⟩ :=
      enroll_ids g.nextMemberId.2 now g.nextMemberId.1 subscription timeout
    refine ⟨hgroup.trans h.group, fun x hx => ?_⟩
    rw [hseq]
    rcases hids x hx with rfl | hx
    · exact .inr ⟨_, Nat.le_refl _, by rw [← h.group]; rfl⟩
    · exact (h.ids x hx).imp (·.append _) fun ⟨n, hn, heq⟩ => ⟨n, Nat.le_succ_of_le hn, heq⟩
  · rename_i hid
    obtain ⟨hgroup, hseq, hids⟩ := enroll_ids g now memberId subscription timeout
    refine ⟨hgroup.trans h.group, fun x hx => ?_⟩
    rw [hseq]
    rcases hids x hx with rfl | hx
    · exact .inl ⟨hid, now, subscription, timeout, mem_append_right _ (.head _)⟩
    · exact (h.ids x hx).imp_left (·.append _)

theorem Named.step (h : Named groupId calls g) (c : Call) :
    Named groupId (calls ++ [c]) (g.step c) := by
  cases c with
  | join now memberId subscription timeout => exact h.join ..
  | sync now memberId generation assignments => exact (keeps_sync ..).named h _
  | heartbeat now memberId generation => exact (keeps_heartbeat ..).named h _
  | leave memberId =>
    refine Keeps.named h _ ?_
    change Keeps g (g.leave memberId).2
    unfold leave
    split
    · exact .refl g
    split
    · exact .refl g
    · exact keeps_afterRemoval g _
  | tick now =>
    refine Keeps.named h _ ?_
    change Keeps g (g.tick now)
    unfold tick
    split
    · exact .refl g
    dsimp only
    split
    · exact .refl g
    · exact keeps_afterRemoval g _

theorem named_after (groupId : String) (calls : List Call) :
    Named groupId calls (after groupId calls) := by
  induction calls using reverseRecOn with
  | nil => exact ⟨rfl, nofun⟩
  | append_singleton calls c ih =>
    rw [after_append]
    exact ih.step c

end

/-- A join without an id gets a new one, unless the id that the counter comes to is that of a member
who chose it. -/
theorem join_generates_fresh_iff (groupId : String) (calls : List Call) (now : Int)
    (subscription : List UInt8) (timeout : Int) :
    let g := after groupId calls
    (∀ r, (g.join now "" subscription timeout).1 = .ok r → r.memberId ∉ g.ids) ↔
      g.state = .dead ∨
      ¬ (memberIdOf groupId (g.memberSeq + 1) ∈ g.ids ∧
        ChosenIn (memberIdOf groupId (g.memberSeq + 1)) calls) := by
  intro g
  have hnamed : Named groupId calls g := named_after groupId calls
  have hnext : g.nextMemberId.1 = memberIdOf groupId (g.memberSeq + 1) := by
    rw [← hnamed.group]
    rfl
  by_cases hdead : g.state = .dead
  · refine iff_of_true (fun r hr => ?_) (.inl hdead)
    rw [join, if_pos hdead] at hr
    cases hr
  rw [or_iff_right hdead]
  obtain ⟨seq, g', -, hjoin⟩ := join_eq hdead now "" subscription timeout
  rw [hjoin, joinId, if_pos rfl, hnext]
  constructor
  · exact fun h hchosen => h _ rfl hchosen.1
  · intro h r hr hmem
    cases hr
    refine h ⟨hmem, (hnamed.ids _ hmem).resolve_right fun hgen => ?_⟩
    obtain ⟨n, hn, heq⟩ := hgen
    have := memberIdOf_inj.mp heq
    omega

/-- A client joins group `g` under the id that the counter comes to first; the next one, who leaves
it to the group, gets the same id, and the group has one member. -/
theorem generated_id_taken :
    let g := after "g" [.join 0 "g-1" [] 10000]
    g.ids = ["g-1"] ∧
    ((g.join 1 "" [] 10000).1.map (·.memberId)) = .ok "g-1" ∧
    (g.join 1 "" [] 10000).2.ids = ["g-1"] := by
  decide +kernel

end Nexus.ConsumerGroup
