import Nexus.Consensus.Handlers

/-!
# One event of a cluster

An event changes one node, by a run of actions, and adds to the network what that run sent
(`Cluster.step_spec`). Here too is what never changes: who the members are and what each knows of
the others (`Cluster.Wf`).
-/

namespace Nexus

open RaftNode

variable {c c' : Core}

/-! ## What actions leave alone -/

namespace Core

/-- Same node, same view of the membership. -/
structure SameSite (c c' : Core) : Prop where
  self : c'.self = c.self
  peers : c'.peers = c.peers
  learners : c'.learners = c.learners

theorem SameSite.refl (c : Core) : SameSite c c := ⟨rfl, rfl, rfl⟩

theorem SameSite.trans {a b : Core} (h : SameSite a b) (h' : SameSite b c) : SameSite a c :=
  ⟨h'.self.trans h.self, h'.peers.trans h.peers, h'.learners.trans h.learners⟩

end Core

variable {x : Cause}

theorem Act.sameSite (h : Act x c c') : c.SameSite c' := by
  cases h <;> exact ⟨rfl, rfl, rfl⟩

/-- An invariant that each action keeps is kept by a run of them. -/
theorem Acts.invariant {I : Core → Prop} (hI : ∀ c c', I c → Act x c c' → I c') (h : Acts x c c')
    (hc : I c) : I c' := by
  induction h with
  | refl => exact hc
  | tail _ hact ih => exact hI _ _ ih hact

theorem Acts.sameSite (h : Acts x c c') : c.SameSite c' :=
  h.invariant (I := c.SameSite) (fun _ _ hc hact => hc.trans hact.sameSite) (.refl c)

/-- Only voters probe for an election. -/
def Core.ProbesAsVoter (c : Core) : Prop := c.role = .preCandidate → c.isVoter c.self

theorem Act.probesAsVoter (hc : c.ProbesAsVoter) (h : Act x c c') : c'.ProbesAsVoter := by
  cases h with
  | probe hr hv => exact fun _ => hv
  | poll w hr => exact fun _ => hc hr
  | count _ _ _ hr => exact fun h => absurd (hr.symm.trans h) (by simp)
  | stepDown | raise | stand | win => exact fun h => absurd h (by simp [Core.stepDown, Core.raise,
      Core.stand, Core.win])
  | _ => exact hc

theorem Acts.probesAsVoter (hc : c.ProbesAsVoter) (h : Acts x c c') :
    c'.ProbesAsVoter := h.invariant (fun _ _ => Act.probesAsVoter) hc

/-! ## Members -/

/-- Every member is where it should be, knows all the others and has nothing left to send. -/
structure Cluster.Wf (voters learners : List NodeId) (c : Cluster) : Prop where
  members : c.members = voters ++ learners
  self : ∀ v ∈ c.members, (c.nodes v).self = v
  peers : ∀ v ∈ c.members, (c.nodes v).peers = c.members.erase v
  learners : ∀ v ∈ c.members, (c.nodes v).learners = learners
  flushed : ∀ v ∈ c.members, (c.nodes v).outbox = []
  probes : ∀ v ∈ c.members, (c.nodes v).core.ProbesAsVoter

theorem Cluster.wf_init (voters learners : List NodeId) (cfg : RaftConfig) (logCfg : LogConfig) :
    (Cluster.init voters learners cfg logCfg).Wf voters learners where
  members := rfl
  self _ _ := rfl
  peers _ _ := rfl
  learners _ _ := rfl
  flushed _ _ := rfl
  probes _ _ h := absurd h (by simp [init, create, core])

/-! ## The step -/

/-- Event `e` takes `c` to `c'` by the actions of node `v`, which end in `d`. -/
structure Cluster.StepBy (c : Cluster) (e : Event) (c' : Cluster) (v : NodeId) (x : Cause)
    (d : Core) : Prop where
  mem : v ∈ c.members
  node : x.node = c.nodes v
  packet : ∀ p, x.packet = some p → p.msg.dst = v ∧
    ∃ k io now, e = .deliver k io now ∧ c.net[k]? = some p
  batch : ∀ b, x.batch = some b → ∃ io, e = .propose v io b
  compacts : x.compacts = true → ∃ threshold, e = .compact v threshold
  leads : x.leads = (c'.nodes v).leads
  acts : Acts x (c.nodes v).core d
  members : c'.members = c.members
  other : ∀ w, w ≠ v → c'.nodes w = c.nodes w
  result : (c'.nodes v).core = { d with out := [] }
  net : ∀ p ∈ c'.net, p ∈ c.net ∨ p ∈ d.out

namespace Cluster

variable {c : Cluster} {e : Event} {v : NodeId} {n : RaftNode} {d : Core}

theorem core_takeMessages : n.takeMessages.1.core = { n.core with out := [] } := rfl

/-- The actions of a node and its immediate answer `ps`, once in the network, are a step. -/
theorem stepBy_update {ps : List Packet} (hmem : v ∈ c.members) (hnode : x.node = c.nodes v)
    (hpacket : ∀ p, x.packet = some p → p.msg.dst = v ∧
      ∃ k io now, e = .deliver k io now ∧ c.net[k]? = some p)
    (hbatch : ∀ b, x.batch = some b → ∃ io, e = .propose v io b)
    (hcompacts : x.compacts = true → ∃ threshold, e = .compact v threshold)
    (hleads : x.leads = n.leads)
    (hacts : Acts x (c.nodes v).core { n.core with out := n.core.out ++ ps }) :
    c.StepBy e (c.update v n ps) v x { n.core with out := n.core.out ++ ps } where
  mem := hmem
  node := hnode
  packet := hpacket
  batch := hbatch
  compacts := hcompacts
  leads := by
    rw [hleads, update]
    simp only [Function.update_self]
    rfl
  acts := hacts
  members := rfl
  other w hw := by simp [update, hw]
  result := by simp [update, core_takeMessages]
  net p hp := by
    simp only [update, takeMessages, List.mem_append] at hp
    simp only [core, List.mem_append]
    tauto

/-- The node's own events: no packet comes in. -/
theorem stepBy_update_nil (hmem : v ∈ c.members) (hnode : x.node = c.nodes v)
    (hpacket : x.packet = none) (hbatch : ∀ b, x.batch = some b → ∃ io, e = .propose v io b)
    (hcompacts : x.compacts = true → ∃ threshold, e = .compact v threshold)
    (hleads : x.leads = n.leads) (hacts : Acts x (c.nodes v).core n.core) :
    c.StepBy e (c.update v n []) v x { n.core with out := n.core.out ++ [] } :=
  stepBy_update hmem hnode (by simp [hpacket]) hbatch hcompacts hleads
    (by rw [List.append_nil]; exact hacts)

/-- An event does nothing, or it is a step of one member. -/
theorem step_spec {voters learners : List NodeId} (h : c.Wf voters learners) (e : Event) :
    c.step e = c ∨ ∃ v x d, c.StepBy e (c.step e) v x d := by
  cases e with
  | tick v io now =>
    simp only [step]
    split
    · rename_i hv
      exact .inr ⟨v, { node := c.nodes v, leads := ((c.nodes v).tick io now).leads }, _,
        stepBy_update_nil hv rfl rfl (by simp) (by simp) rfl (acts_tick rfl)⟩
    · exact .inl rfl
  | propose v io batch =>
    simp only [step]
    split
    · rename_i hv
      exact .inr ⟨v, { node := c.nodes v, batch := some batch, leads := _ }, _,
        stepBy_update_nil hv rfl rfl (by rintro b ⟨⟩; exact ⟨io, rfl⟩) (by simp) rfl
          (acts_propose rfl)⟩
    · exact .inl rfl
  | transfer v io target =>
    simp only [step]
    split
    · rename_i hv
      exact .inr ⟨v, { node := c.nodes v, leads := _ }, _,
        stepBy_update_nil hv rfl rfl (by simp) (by simp) rfl
          (acts_transferLeadership target)⟩
    · exact .inl rfl
  | compact v threshold =>
    simp only [step]
    split
    · rename_i hv
      exact .inr ⟨v, { node := c.nodes v, compacts := true, leads := _ }, _,
        stepBy_update_nil hv rfl rfl (by simp) (fun _ => ⟨threshold, rfl⟩) rfl
          (acts_maybeCompact rfl threshold)⟩
    · exact .inl rfl
  | deliver k io now =>
    simp only [step]
    cases hk : c.net[k]? with
    | none => exact .inl rfl
    | some p =>
      dsimp only
      split
      · rename_i hv
        refine .inr ⟨p.msg.dst, { node := c.nodes p.msg.dst, packet := some p, leads := _ }, _,
          stepBy_update hv rfl ?_ (by simp) (by simp) rfl ?_⟩
        · rintro q ⟨⟩; exact ⟨rfl, k, io, now, rfl, hk⟩
        · exact acts_onMessage rfl rfl (h.probes _ hv) rfl
      · exact .inl rfl

/-- A step keeps what a node knows of the membership. -/
theorem StepBy.sameSite {c' : Cluster} (h : c.StepBy e c' v x d) (w : NodeId) :
    (c.nodes w).core.SameSite (c'.nodes w).core := by
  by_cases hw : w = v
  · subst hw
    rw [h.result]
    exact ⟨h.acts.sameSite.self, h.acts.sameSite.peers, h.acts.sameSite.learners⟩
  · rw [h.other w hw]; exact .refl _

theorem StepBy.wf {c' : Cluster} {voters learners : List NodeId} (hs : c.StepBy e c' v x d)
    (h : c.Wf voters learners) : c'.Wf voters learners where
  members := hs.members.trans h.members
  self w hw := by
    rw [hs.members] at hw
    exact (hs.sameSite w).self.trans (h.self w hw)
  peers w hw := by
    rw [hs.members] at hw
    rw [hs.members]
    exact (hs.sameSite w).peers.trans (h.peers w hw)
  learners w hw := by
    rw [hs.members] at hw
    exact (hs.sameSite w).learners.trans (h.learners w hw)
  flushed w hw := by
    rw [hs.members] at hw
    by_cases hwv : w = v
    · subst hwv
      have hout := congrArg Core.out hs.result
      simpa [core] using hout
    · rw [hs.other w hwv]; exact h.flushed w hw
  probes w hw := by
    rw [hs.members] at hw
    by_cases hwv : w = v
    · subst hwv
      have hd := Acts.probesAsVoter (h.probes w hw) hs.acts
      rw [hs.result]
      exact hd
    · rw [hs.other w hwv]; exact h.probes w hw

end Cluster

end Nexus
