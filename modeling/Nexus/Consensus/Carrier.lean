import Nexus.Consensus.Steps

/-!
# The carrier and its state store

`consensus/raft_carrier.cpp` drives a node: it feeds it ticks and messages, answers requests and
transports what the node wants to send, and it keeps the node's term and vote in a
`RaftStateStore`. What a handler does to the outside world is a list of effects, in order; a crash
leaves a prefix of them, and the node starts again from what the store holds.

* `Carrier.step`: one call of the carrier, which may end in a crash.
* `Carrier.Ok`: the node is never behind the store, and what it transports is not ahead of it.
* `Carrier.VotesOk`: the node remembers every vote that it granted, unless it crashes before the
  vote is saved.
-/

namespace Nexus

open Lib RaftNode List

variable {st : RaftPersistentState} {n : RaftNode}

/-- A message that was sent, and what the store held then. -/
structure Sent where
  packet : Packet
  /-- The request that it answers; none for a message of the outbox. -/
  answers : Option RaftPayload := none
  /-- The node's term or vote was not saved. -/
  unsaved : Bool
  /-- The term that the store held. -/
  stored : Nat
  deriving DecidableEq

inductive Effect
  | emit (packet : Packet) (answers : Option RaftPayload) (unsaved : Bool)
  | save (state : RaftPersistentState)
  deriving DecidableEq

structure Carrier where
  node : RaftNode
  /-- `CompactionPolicy::applied_entries_threshold`. -/
  threshold : Nat := 0
  /-- What was last saved. -/
  store : RaftPersistentState := {}
  sent : List Sent := []

namespace RaftNode

/-- `flush_outbox`: saves the term and the vote if they changed, then empties the outbox. When the
save fails nothing is transported. -/
def flushOutbox (n : RaftNode) (saves : Bool) : RaftNode × List Effect :=
  if n.persistentDirty ∧ !saves then (n, [])
  else
    let saved := if n.persistentDirty then [Effect.save n.persistent] else []
    let taken := { n with persistentDirty := false }.takeMessages
    (taken.1, saved ++ taken.2.map fun msg => .emit { msg } none false)

/-- A fresh process over the recovered log: `recover` takes term and vote from the store. -/
def restart (n : RaftNode) (log : RaftLog) (stored : RaftPersistentState) : RaftNode :=
  { create n.self n.peers log n.config n.learners with persistent := stored }

end RaftNode

namespace Carrier

/-- What the carrier is called for, or its node by the broker. -/
inductive Call
  | tick (io : LogIo) (now : Int)
  | message (io : LogIo) (now : Int) (m : RaftMessage)
  | propose (io : LogIo) (batch : RecordBatch)
  | transfer (io : LogIo) (target : NodeId)
  deriving DecidableEq

/-- A call, whether its save goes through, and the crash that ends it: the number of effects that
still happen, and the log that the next process finds. -/
structure Event where
  call : Call
  saves : Bool := true
  crash : Option (Nat × RaftLog) := none

/-- `on_message`: the answer leaves before the flush. -/
def onMessage (n : RaftNode) (threshold : Nat) (saves : Bool) (io : LogIo) (now : Int)
    (m : RaftMessage) : RaftNode × List Effect :=
  let out := n.onMessage io now m
  let flushed := out.1.flushOutbox saves
  (flushed.1.maybeCompact threshold,
    (out.2.map fun p => .emit p (some m.payload) out.1.persistentDirty) ++ flushed.2)

def onTick (n : RaftNode) (threshold : Nat) (saves : Bool) (io : LogIo) (now : Int) :
    RaftNode × List Effect :=
  let flushed := (n.tick io now).flushOutbox saves
  (flushed.1.maybeCompact threshold, flushed.2)

/-- The node after a call, and the effects of the call. -/
def handle (n : RaftNode) (threshold : Nat) (saves : Bool) : Call → RaftNode × List Effect
  | .tick io now => onTick n threshold saves io now
  | .message io now m => onMessage n threshold saves io now m
  | .propose io batch => ((n.propose io batch).1, [])
  | .transfer io target => ((n.transferLeadership io target).1, [])

def perform (c : Carrier) : Effect → Carrier
  | .emit packet answers unsaved =>
    { c with sent := c.sent ++ [{ packet, answers, unsaved, stored := c.store.currentTerm }] }
  | .save state => { c with store := state }

def performAll (c : Carrier) (es : List Effect) : Carrier := es.foldl perform c

/-- The carrier right before the crash. -/
def atCrash (c : Carrier) (e : Event) (k : Nat) : Carrier :=
  c.performAll ((handle c.node c.threshold e.saves e.call).2.take k)

def step (c : Carrier) (e : Event) : Carrier :=
  match e.crash with
  | none =>
    let out := handle c.node c.threshold e.saves e.call
    { c.performAll out.2 with node := out.1 }
  | some (k, log) =>
    { c.atCrash e k with node := c.node.restart log (c.atCrash e k).store }

/-- A new process, over whatever store and log it finds. -/
def start (self : NodeId) (peers learners : List NodeId) (cfg : RaftConfig) (log : RaftLog)
    (store : RaftPersistentState) (threshold : Nat) : Carrier :=
  { node := (RaftNode.create self peers log cfg learners).restart log store, threshold, store }

end Carrier

/-! ## The node is never behind the store -/

/-- By how much the term of a message may exceed its sender's: a pre-vote request announces the
term of an election that has not started. -/
def RaftPayload.lead : RaftPayload → Nat
  | .requestVote a => if a.preVote then 1 else 0
  | _ => 0

/-- The node has moved on from the state `st`, and it knows if it has. -/
structure Core.Ahead (st : RaftPersistentState) (c : Core) : Prop where
  term : st.currentTerm ≤ c.term
  vote : c.term = st.currentTerm → ∀ w, st.votedFor = some w → c.votedFor = some w
  clean : c.dirty = false → c.term = st.currentTerm ∧ c.votedFor = st.votedFor
  out : ∀ p ∈ c.out, p.msg.payload.term ≤ c.term + p.msg.payload.lead

section Ahead

variable {st : RaftPersistentState} {x : Cause} {c c' : Core}

section

variable (h : c.Ahead st)

include h

/-- Actions that leave term, vote and flag alone. -/
theorem Core.Ahead.congr (ht : c'.term = c.term) (hv : c'.votedFor = c.votedFor)
    (hd : c'.dirty = c.dirty)
    (ho : ∀ p ∈ c'.out, p.msg.payload.term ≤ c.term + p.msg.payload.lead) : c'.Ahead st where
  term := by rw [ht]; exact h.term
  vote := by rw [ht, hv]; exact h.vote
  clean := by rw [ht, hv, hd]; exact h.clean
  out := by rw [ht]; exact ho

theorem Core.Ahead.raise {t : Nat} (ht : c.term < t) : (c.raise t).Ahead st where
  term := Nat.le_trans h.term (Nat.le_of_lt ht)
  vote heq := by
    have := h.term
    change t = _ at heq
    omega
  clean hd := by cases hd
  out p hp := Nat.le_trans (h.out p hp) (Nat.add_le_add_right (Nat.le_of_lt ht) _)

theorem Core.Ahead.stand : c.stand.Ahead st where
  term := Nat.le_trans h.term (Nat.le_succ _)
  vote heq := by
    have := h.term
    change c.term + 1 = _ at heq
    omega
  clean hd := by cases hd
  out p hp := Nat.le_trans (h.out p hp) (Nat.add_le_add_right (Nat.le_succ _) _)

theorem Core.Ahead.cast {w : NodeId}
    (hv : c.votedFor = none ∨ c.votedFor = some w) : (c.cast w).Ahead st where
  term := h.term
  vote heq u hu := by
    have hcur := h.vote heq u hu
    rw [hcur] at hv
    have huw : u = w := by simpa using hv
    exact congrArg some huw.symm
  clean hd := by cases hd
  out := h.out

end

theorem Truthful.term_le {p : Packet} (hp : Truthful x c p) :
    p.msg.payload.term ≤ c.term + p.msg.payload.lead := by
  obtain ⟨-, hp⟩ := hp
  generalize p.msg.payload = payload at hp ⊢
  cases payload with
  | requestVote a =>
    simp only [RaftPayload.term, RaftPayload.lead]
    dsimp only at hp
    by_cases hpre : a.preVote
    · rw [if_pos hpre] at hp ⊢
      exact Nat.le_of_eq hp
    · rw [if_neg hpre] at hp
      exact Nat.le_trans (Nat.le_of_eq hp.1) (Nat.le_add_right _ _)
  | timeoutNow a => exact Nat.le_of_eq hp
  | _ => exact Nat.le_of_eq hp.1

theorem Act.ahead (h : c.Ahead st) (ha : Act x c c') : c'.Ahead st := by
  cases ha with
  | raise t ht => exact h.raise ht
  | stand hv => exact h.stand
  | cast src a hm hp ht hv hu => exact h.cast hv
  | append src a io | install src a io =>
    refine h.congr rfl rfl rfl fun p hp => ?_
    rcases mem_append.mp hp with hp | hp
    · exact h.out p hp
    · rw [mem_singleton.mp hp]; exact Nat.le_refl _
  | send p hp =>
    refine h.congr rfl rfl rfl fun q hq => ?_
    rcases mem_append.mp hq with hq | hq
    · exact h.out q hq
    · rw [mem_singleton.mp hq]; exact hp.term_le
  | _ => exact h.congr rfl rfl rfl h.out

theorem Acts.ahead (h : c.Ahead st) (ha : Acts x c c') : c'.Ahead st :=
  ha.invariant (fun _ _ => Act.ahead) h

end Ahead

namespace RaftNode

/-- What a node is ahead of does not depend on how it is compacted. -/
theorem ahead_maybeCompact (h : n.core.Ahead st) (threshold : Nat) :
    (n.maybeCompact threshold).core.Ahead st :=
  Acts.ahead (x := { node := n, compacts := true }) h (acts_maybeCompact rfl threshold)

theorem ahead_restart (log : RaftLog) (st : RaftPersistentState) :
    (n.restart log st).core.Ahead st where
  term := Nat.le_refl _
  vote _ _ h := h
  clean _ := ⟨rfl, rfl⟩
  out p hp := absurd hp (by simp [restart, create, core])

theorem persistent_maybeCompact (threshold : Nat) :
    (n.maybeCompact threshold).persistent = n.persistent := by
  unfold maybeCompact
  split
  · rfl
  split
  · rfl
  split <;> rfl

theorem persistent_flushOutbox (saves : Bool) :
    (n.flushOutbox saves).1.persistent = n.persistent := by
  unfold flushOutbox
  split <;> rfl

end RaftNode

/-! ## Effects -/

/-- What is said of a message that is sent while the store holds term `stored`: its term is not
above it, unless the message is an answer and the node has not saved its own. -/
def TermStored (p : Packet) (answers : Option RaftPayload) (unsaved : Bool) (stored : Nat) : Prop :=
  answers = none ∨ unsaved = false → p.msg.payload.term ≤ stored + p.msg.payload.lead

/-- The effects, begun with `st` in the store, send what `TermStored` says. -/
def EffectsOk : RaftPersistentState → List Effect → Prop
  | _, [] => True
  | st, .emit p answers unsaved :: es =>
    TermStored p answers unsaved st.currentTerm ∧ EffectsOk st es
  | _, .save st' :: es => EffectsOk st' es

theorem EffectsOk.take {es : List Effect} (h : EffectsOk st es) (k : Nat) :
    EffectsOk st (es.take k) := by
  induction es generalizing st k with
  | nil => simp [EffectsOk]
  | cons e es ih =>
    cases k with
    | zero => trivial
    | succ k =>
      cases e with
      | emit p answers unsaved => exact ⟨h.1, ih h.2 k⟩
      | save st' => exact @ih st' h k

theorem effectsOk_emits {ps : List Packet} (answers : Option RaftPayload) (unsaved : Bool)
    (h : ∀ p ∈ ps, TermStored p answers unsaved st.currentTerm) {es : List Effect}
    (hes : EffectsOk st es) : EffectsOk st ((ps.map fun p => .emit p answers unsaved) ++ es) := by
  induction ps with
  | nil => exact hes
  | cons p ps ih =>
    exact ⟨h p mem_cons_self, ih fun q hq => h q (mem_cons_of_mem _ hq)⟩

/-- `flush_outbox` saves before it sends. -/
theorem RaftNode.effectsOk_flushOutbox (h : n.core.Ahead st) (saves : Bool) :
    EffectsOk st (n.flushOutbox saves).2 := by
  have hout : ∀ st' : RaftPersistentState, st'.currentTerm = n.currentTerm →
      EffectsOk st' ((n.outbox.map fun msg => Effect.emit { msg } none false)) := by
    intro st' hst'
    have hterm : ∀ p ∈ n.core.out, TermStored p none false st'.currentTerm :=
      fun p hp _ => by rw [hst']; exact h.out p hp
    have hnil : EffectsOk st' [] := trivial
    have hall := effectsOk_emits none false hterm hnil
    rwa [append_nil, show n.core.out = n.outbox.map fun msg => { msg } from rfl,
      map_map] at hall
  unfold flushOutbox
  split
  · trivial
  · dsimp only
    by_cases hd : n.persistentDirty
    · rw [if_pos hd]
      exact hout n.persistent rfl
    · rw [if_neg hd]
      exact hout st (h.clean (Bool.eq_false_iff.mpr hd)).1.symm

/-- What the store holds after the effects. -/
def storeAfter : RaftPersistentState → List Effect → RaftPersistentState
  | st, [] => st
  | st, .emit _ _ _ :: es => storeAfter st es
  | _, .save st' :: es => storeAfter st' es

theorem storeAfter_emits {α : Type} (st : RaftPersistentState) (f : α → Packet)
    (answers : Option RaftPayload) (unsaved : Bool) (xs : List α) (es : List Effect) :
    storeAfter st ((xs.map fun y => .emit (f y) answers unsaved) ++ es) = storeAfter st es := by
  induction xs with
  | nil => rfl
  | cons y xs ih => exact ih

theorem Carrier.store_performAll (c : Carrier) (es : List Effect) :
    (c.performAll es).store = storeAfter c.store es := by
  induction es generalizing c with
  | nil => rfl
  | cons e es ih => cases e <;> exact ih _

/-- The flush leaves the node ahead of what the store then holds. -/
theorem RaftNode.ahead_flushOutbox (h : n.core.Ahead st) (saves : Bool) :
    (n.flushOutbox saves).1.core.Ahead (storeAfter st (n.flushOutbox saves).2) := by
  have hstored : ∀ st', storeAfter st'
      (n.outbox.map fun msg => Effect.emit { msg } none false) = st' := by
    intro st'
    have hall := storeAfter_emits st' (fun msg => { msg }) none false n.outbox []
    rwa [append_nil] at hall
  unfold flushOutbox
  split
  · exact h
  · dsimp only
    by_cases hd : n.persistentDirty
    · rw [if_pos hd]
      change Core.Ahead (storeAfter n.persistent
        (n.outbox.map fun msg => Effect.emit { msg } none false)) _
      rw [hstored]
      exact ⟨Nat.le_refl _, fun _ _ hw => hw, fun _ => ⟨rfl, rfl⟩, fun p hp => by cases hp⟩
    · rw [if_neg hd]
      change Core.Ahead (storeAfter st
        (n.outbox.map fun msg => Effect.emit { msg } none false)) _
      rw [hstored]
      have hclean := h.clean (Bool.eq_false_iff.mpr hd)
      exact ⟨h.term, h.vote, fun _ => hclean, fun p hp => by cases hp⟩

namespace Carrier

variable {c : Carrier}

/-! ## What is sent is not ahead of the store -/

/-- The node is ahead of the store and probes only as a voter, and what was sent is as
`TermStored` says. -/
structure Ok (c : Carrier) : Prop where
  ahead : c.node.core.Ahead c.store
  probes : c.node.core.ProbesAsVoter
  sent : ∀ s ∈ c.sent, TermStored s.packet s.answers s.unsaved s.stored

theorem probesAsVoter_restart (n : RaftNode) (log : RaftLog) (st : RaftPersistentState) :
    (n.restart log st).core.ProbesAsVoter := fun h =>
  absurd h (by simp [restart, create, core])

theorem ok_start (self : NodeId) (peers learners : List NodeId) (cfg : RaftConfig) (log : RaftLog)
    (store : RaftPersistentState) (threshold : Nat) :
    (start self peers learners cfg log store threshold).Ok where
  ahead := ahead_restart log store
  probes := probesAsVoter_restart _ log store
  sent s hs := absurd hs (by simp [start])

theorem sent_performAll {es : List Effect} (h : EffectsOk c.store es)
    (hc : ∀ s ∈ c.sent, TermStored s.packet s.answers s.unsaved s.stored) :
    ∀ s ∈ (c.performAll es).sent, TermStored s.packet s.answers s.unsaved s.stored := by
  induction es generalizing c with
  | nil => exact hc
  | cons e es ih =>
    cases e with
    | emit p answers unsaved =>
      refine ih (c := c.perform (.emit p answers unsaved)) h.2 fun s hs => ?_
      rcases mem_append.mp hs with hs | hs
      · exact hc s hs
      · rw [mem_singleton.mp hs]; exact h.1
    | save st => exact ih (c := c.perform (.save st)) h hc

/-- What every call does: it moves the node on by actions (`m`, with the answers still to be
sent), and then flushes and compacts, or does neither. -/
theorem handle_spec (hv : n.core.ProbesAsVoter) (threshold : Nat) (saves : Bool) (call : Call) :
    ∃ (x : Cause) (m : RaftNode) (answers : List Packet) (request : Option RaftPayload),
      Acts x n.core { m.core with out := m.core.out ++ answers } ∧
      (request = none → answers = []) ∧
      (handle n threshold saves call = (m, []) ∨
        handle n threshold saves call = ((m.flushOutbox saves).1.maybeCompact threshold,
          (answers.map fun p => .emit p request m.persistentDirty) ++
            (m.flushOutbox saves).2)) := by
  cases call with
  | tick io now =>
    refine ⟨{ node := n, leads := (n.tick io now).leads }, n.tick io now, [], none, ?_,
      fun _ => rfl, .inr rfl⟩
    rw [append_nil]
    exact acts_tick rfl
  | message io now m =>
    exact ⟨{ node := n, packet := some { msg := m }, leads := _ }, _, _, some m.payload,
      acts_onMessage (p := { msg := m }) rfl rfl hv rfl, by simp, .inr rfl⟩
  | propose io batch =>
    refine ⟨{ node := n, batch := some batch }, (n.propose io batch).1, [], none, ?_,
      fun _ => rfl, .inl rfl⟩
    rw [append_nil]
    exact acts_propose rfl
  | transfer io target =>
    refine ⟨{ node := n }, (n.transferLeadership io target).1, [], none, ?_, fun _ => rfl,
      .inl rfl⟩
    rw [append_nil]
    exact acts_transferLeadership target

/-- The effects of a call respect the store, and the node is ahead of what they leave in it. -/
theorem Ok.handle (h : c.Ok) (saves : Bool) (call : Call) :
    EffectsOk c.store (handle c.node c.threshold saves call).2 ∧
    (Carrier.handle c.node c.threshold saves call).1.core.Ahead
      (storeAfter c.store (Carrier.handle c.node c.threshold saves call).2) ∧
    (Carrier.handle c.node c.threshold saves call).1.core.ProbesAsVoter := by
  obtain ⟨x, m, answers, request, hacts, hnone, heq⟩ := handle_spec h.probes c.threshold saves call
  have hall := Acts.ahead h.ahead hacts
  have hm : m.core.Ahead c.store :=
    hall.congr rfl rfl rfl fun p hp => hall.out p (mem_append_left _ hp)
  have hprobes := Acts.probesAsVoter h.probes hacts
  rcases heq with heq | heq
  · rw [heq]
    exact ⟨trivial, hm, hprobes⟩
  · rw [heq]
    refine ⟨effectsOk_emits request _ (fun p hp hsaved => ?_) (m.effectsOk_flushOutbox hm saves),
      ?_, ?_⟩
    · rcases hsaved with hnil | hclean
      · rw [hnone hnil] at hp; cases hp
      · rw [← (hm.clean hclean).1]
        exact hall.out p (mem_append_right _ hp)
    · dsimp only
      rw [storeAfter_emits]
      exact ahead_maybeCompact (m.ahead_flushOutbox hm saves) c.threshold
    · have hflush : (m.flushOutbox saves).1.core.ProbesAsVoter := by
        unfold flushOutbox
        split <;> exact hprobes
      exact Acts.probesAsVoter (x := { node := m, compacts := true }) hflush
        (acts_maybeCompact rfl _)

theorem ok_step (h : c.Ok) (e : Event) : (c.step e).Ok := by
  obtain ⟨heffects, hahead, hprobes⟩ := h.handle e.saves e.call
  unfold step
  cases e.crash with
  | none =>
    refine ⟨?_, hprobes, sent_performAll heffects h.sent⟩
    dsimp only
    rw [store_performAll]
    exact hahead
  | some crash =>
    exact ⟨ahead_restart _ _, probesAsVoter_restart _ _ _,
      sent_performAll (heffects.take crash.1) h.sent⟩

end Carrier

/-! ## Votes -/

/-- The state remembers a vote for `w` in term `t`, or that the term is over. -/
def RaftPersistentState.Records (st : RaftPersistentState) (t : Nat) (w : NodeId) : Prop :=
  t < st.currentTerm ∨ t = st.currentTerm ∧ st.votedFor = some w

instance (st : RaftPersistentState) (t : Nat) (w : NodeId) : Decidable (st.Records t w) :=
  inferInstanceAs (Decidable (_ ∨ _ ∧ _))

/-- The term and the candidate of a real vote: a positive answer to a request that is no
pre-vote. -/
def grantOf (p : Packet) (answers : Option RaftPayload) : Option (Nat × NodeId) :=
  match p.msg.payload, answers with
  | .requestVoteReply r, some (.requestVote a) =>
    if r.voteGranted ∧ a.preVote = false then some (r.term, a.candidateId) else none
  | _, _ => none

def Sent.grant (s : Sent) : Option (Nat × NodeId) := grantOf s.packet s.answers

namespace Carrier

/-- No crash comes between a granted vote and its save. -/
def CrashesSaved (c : Carrier) (e : Event) : Prop :=
  ∀ crash ∈ e.crash, ∀ s ∈ (c.atCrash e crash.1).sent, ∀ g ∈ s.grant,
    (c.atCrash e crash.1).store.Records g.1 g.2

instance (c : Carrier) (e : Event) : Decidable (c.CrashesSaved e) := by
  unfold CrashesSaved
  infer_instance

/-- The node remembers the votes that it granted, one for each term. -/
structure VotesOk (c : Carrier) : Prop where
  recorded : ∀ s ∈ c.sent, ∀ g ∈ s.grant, c.node.persistent.Records g.1 g.2
  unique : ∀ s ∈ c.sent, ∀ s' ∈ c.sent, ∀ t w w', s.grant = some (t, w) →
    s'.grant = some (t, w') → w = w'

theorem mem_sent_performAll {c : Carrier} {es : List Effect} {s : Sent}
    (hs : s ∈ (c.performAll es).sent) :
    s ∈ c.sent ∨ ∃ unsaved, .emit s.packet s.answers unsaved ∈ es := by
  induction es generalizing c with
  | nil => exact .inl hs
  | cons e es ih =>
    rcases ih (c := c.perform e) hs with h | ⟨u, hu⟩
    · cases e with
      | emit p answers unsaved =>
        rcases mem_append.mp h with h | h
        · exact .inl h
        · rw [mem_singleton.mp h]
          exact .inr ⟨unsaved, mem_cons_self⟩
      | save st => exact .inl h
    · exact .inr ⟨u, mem_cons_of_mem _ hu⟩

/-- A call never forgets a vote. -/
theorem Ok.records {c : Carrier} (h : c.Ok) (saves : Bool) (call : Call) {t : Nat} {w : NodeId}
    (hr : c.node.persistent.Records t w) :
    (Carrier.handle c.node c.threshold saves call).1.persistent.Records t w := by
  obtain ⟨x, m, answers, request, hacts, -, heq⟩ := handle_spec h.probes c.threshold saves call
  have hself : c.node.core.Ahead c.node.persistent :=
    ⟨Nat.le_refl _, fun _ _ hw => hw, fun _ => ⟨rfl, rfl⟩, h.ahead.out⟩
  have hahead := Acts.ahead hself hacts
  have hm : m.persistent.Records t w := by
    have hterm : c.node.persistent.currentTerm ≤ m.persistent.currentTerm := hahead.term
    rcases hr with hlt | ⟨rfl, hvote⟩
    · exact .inl (by omega)
    · rcases Nat.lt_or_eq_of_le hterm with hlt | heq
      · exact .inl hlt
      · exact .inr ⟨heq, hahead.vote heq.symm w hvote⟩
  rcases heq with heq | heq
  · rw [heq]; exact hm
  · rw [heq]
    dsimp only
    rw [persistent_maybeCompact, persistent_flushOutbox]
    exact hm

end Carrier

/-- A real vote is for the candidate that the node then has on record, in its term. -/
theorem RaftNode.onRequestVote_granted {now : Int} {args : RequestVoteArgs}
    (hp : args.preVote = false) (hg : (n.onRequestVote now args).2.voteGranted = true) :
    (n.onRequestVote now args).2.term = (n.onRequestVote now args).1.currentTerm ∧
    (n.onRequestVote now args).1.votedFor = some args.candidateId := by
  unfold onRequestVote at hg ⊢
  rw [if_neg (by simp [hp])] at hg ⊢
  dsimp only at hg ⊢
  generalize (if args.term > n.currentTerm then n.becomeFollower now args.term else n) = m
    at hg ⊢
  split at hg
  · simp at hg
  rename_i hlt
  rw [if_neg hlt]
  split at hg
  · rename_i hcan
    rw [if_pos hcan]
    have hcore : ((m.recordVote args.candidateId).resetElectionTimer now).core =
        (m.recordVote args.candidateId).core := core_resetElectionTimer
    exact ⟨(congrArg Core.term hcore).symm, congrArg Core.votedFor hcore⟩
  · simp at hg

namespace Carrier

/-- A vote that a call grants is on record after it. -/
theorem handle_grant {threshold : Nat} {saves : Bool} {call : Call} {p : Packet}
    {answers : Option RaftPayload} {unsaved : Bool} {t : Nat} {w : NodeId}
    (hmem : .emit p answers unsaved ∈ (handle n threshold saves call).2)
    (hg : grantOf p answers = some (t, w)) :
    (handle n threshold saves call).1.persistent.currentTerm = t ∧
    (handle n threshold saves call).1.persistent.votedFor = some w := by
  have hnone : answers ≠ none := by
    rintro rfl
    unfold grantOf at hg
    split at hg <;> simp_all
  have hflush : ∀ m : RaftNode, .emit p answers unsaved ∉ (m.flushOutbox saves).2 := by
    intro m hm
    unfold flushOutbox at hm
    split at hm
    · cases hm
    · simp only [mem_append, mem_map] at hm
      rcases hm with hm | ⟨msg, -, hm⟩
      · split at hm
        · simp at hm
        · cases hm
      · cases hm
        exact hnone rfl
  cases call with
  | tick io now => exact absurd hmem (hflush _)
  | propose io batch => cases hmem
  | transfer io target => cases hmem
  | message io now m =>
    simp only [handle, onMessage] at hmem ⊢
    rw [persistent_maybeCompact, persistent_flushOutbox]
    rcases mem_append.mp hmem with hmem | hmem
    · obtain ⟨q, hq, heq⟩ := mem_map.mp hmem
      cases heq
      unfold grantOf at hg
      split at hg
      · rename_i r a hr ha
        split at hg
        · rename_i hgrant
          cases hg
          simp only [RaftNode.onMessage, Option.some.inj ha, mem_singleton] at hq ⊢
          subst hq
          cases hr
          exact (onRequestVote_granted hgrant.2 hgrant.1).imp_left Eq.symm
        · cases hg
      · cases hg
    · exact absurd hmem (hflush _)

theorem votesOk_start (self : NodeId) (peers learners : List NodeId) (cfg : RaftConfig)
    (log : RaftLog) (store : RaftPersistentState) (threshold : Nat) :
    (start self peers learners cfg log store threshold).VotesOk where
  recorded s hs := absurd hs (by simp [start])
  unique s hs := absurd hs (by simp [start])

theorem votesOk_step {c : Carrier} {e : Event} (hok : c.Ok) (h : c.VotesOk)
    (he : c.CrashesSaved e) : (c.step e).VotesOk := by
  -- What was sent before or by any of the effects: on record, and one vote for each term.
  have hnew : ∀ {es} (s : Sent), es <+: (handle c.node c.threshold e.saves e.call).2 →
      s ∈ (c.performAll es).sent → s ∈ c.sent ∨ ∃ unsaved,
        .emit s.packet s.answers unsaved ∈ (handle c.node c.threshold e.saves e.call).2 := by
    intro es s hes hs
    exact (mem_sent_performAll hs).imp_right fun ⟨u, hu⟩ => ⟨u, hes.subset hu⟩
  generalize hn : (handle c.node c.threshold e.saves e.call).1 = n
  have hrecorded : ∀ {es} (s : Sent), es <+: (handle c.node c.threshold e.saves e.call).2 →
      s ∈ (c.performAll es).sent → ∀ g ∈ s.grant, n.persistent.Records g.1 g.2 := by
    intro es s hes hs g hg
    rcases hnew s hes hs with hold | ⟨u, hu⟩
    · exact hn ▸ hok.records e.saves e.call (h.recorded s hold g hg)
    · exact .inr (hn ▸ (handle_grant hu hg).imp_left Eq.symm)
  have hunique : ∀ {es}, es <+: (handle c.node c.threshold e.saves e.call).2 →
      ∀ s ∈ (c.performAll es).sent, ∀ s' ∈ (c.performAll es).sent, ∀ t w w',
        s.grant = some (t, w) → s'.grant = some (t, w') → w = w' := by
    intro es hes s hs s' hs' t w w' hg hg'
    -- A vote of the node's term is the one on record.
    have hvoted : t = n.persistent.currentTerm → w = w' := by
      intro ht
      have hw := (hrecorded s hes hs _ hg).resolve_left (by dsimp only; omega)
      have hw' := (hrecorded s' hes hs' _ hg').resolve_left (by dsimp only; omega)
      exact Option.some.inj (hw.2.symm.trans hw'.2)
    rcases hnew s hes hs with hold | ⟨u, hu⟩
    · rcases hnew s' hes hs' with hold' | ⟨u', hu'⟩
      · exact h.unique s hold s' hold' t w w' hg hg'
      · exact hvoted (hn ▸ (handle_grant hu' hg').1.symm)
    · exact hvoted (hn ▸ (handle_grant hu hg).1.symm)
  unfold step
  cases hc : e.crash with
  | none =>
    refine ⟨fun s hs g hg => ?_, hunique (prefix_refl _)⟩
    dsimp only
    rw [hn]
    exact hrecorded s (prefix_refl _) hs g hg
  | some crash => exact ⟨he crash hc, hunique ( take_prefix _ _)⟩

/-- Persist before answering. Over any life of a carrier, with crashes anywhere: what it sends is
never of a term above the stored one, an announced pre-vote apart, unless it is an answer that
leaves before the save; and if no crash comes between a granted vote and its save, two votes
granted in one term are for the same candidate. -/
theorem persist_before_answering (self : NodeId) (peers learners : List NodeId)
    (cfg : RaftConfig) (log : RaftLog) (store : RaftPersistentState) (threshold : Nat)
    (es : List Event) :
    (∀ s ∈ (run step (start self peers learners cfg log store threshold) es).sent,
      s.answers = none ∨ s.unsaved = false →
      s.packet.msg.payload.term ≤ s.stored + s.packet.msg.payload.lead) ∧
    (Along step CrashesSaved (start self peers learners cfg log store threshold) es →
      ∀ s ∈ (run step (start self peers learners cfg log store threshold) es).sent,
      ∀ s' ∈ (run step (start self peers learners cfg log store threshold) es).sent,
      ∀ t w w', s.grant = some (t, w) → s'.grant = some (t, w') → w = w') := by
  have hstart := ok_start self peers learners cfg log store threshold
  refine ⟨?_, fun hrun => ?_⟩
  · have hall : Along step (fun _ _ => True)
        (start self peers learners cfg log store threshold) es :=
      along_of_forall (fun _ _ => trivial) _ _
    exact (run_invariant (I := Ok) (fun c e h _ => ok_step h e) hstart hall).sent
  · have hstep : ∀ c e, c.Ok ∧ c.VotesOk → CrashesSaved c e → (step c e).Ok ∧ (step c e).VotesOk :=
      fun c e h he => ⟨ok_step h.1 e, votesOk_step h.1 h.2 he⟩
    exact (run_invariant hstep
      ⟨hstart, votesOk_start self peers learners cfg log store threshold⟩ hrun).2.unique

/-- A node with two peers and an empty store. -/
def fresh : Carrier := start 1 [2, 3] [] {} (RaftLog.create {}) {} 0

/-- The request of node `w` for the votes of term 1. -/
def askedBy (w : NodeId) : Call :=
  .message {} 0 { src := w, dst := 1, payload := .requestVote { term := 1, candidateId := w } }

/-- The vote for node 2 is saved, then the process crashes; node 3 asks and is refused. -/
theorem persist_before_answering_crash :
    let es : List Event :=
      [{ call := askedBy 2, crash := some (2, .create {}) }, { call := askedBy 3 }]
    Along step CrashesSaved fresh es ∧
    ((run step fresh es).sent.map Sent.grant = [some (1, 2), none]) ∧
    (∀ s ∈ (run step fresh es).sent, s.answers = none ∨ s.unsaved = false →
      s.packet.msg.payload.term ≤ s.stored + s.packet.msg.payload.lead) ∧
    (∀ s ∈ (run step fresh es).sent, ∀ s' ∈ (run step fresh es).sent, ∀ t w w',
      s.grant = some (t, w) → s'.grant = some (t, w') → w = w') := by
  intro es
  have hrun : Along step CrashesSaved fresh es := by decide +kernel
  have hall := persist_before_answering 1 [2, 3] [] {} (RaftLog.create {}) {} 0 es
  exact ⟨hrun, by decide +kernel, hall.1, hall.2 hrun⟩

/-- The answer leaves before the save: a crash in between and the node votes twice in term 1, each
time with a message above the stored term. And a tick sends the pre-vote of the term after the
stored one. -/
theorem answers_before_saving :
    (let es : List Event :=
      [{ call := askedBy 2, crash := some (1, .create {}) }, { call := askedBy 3 }]
     (run step fresh es).sent.map Sent.grant = [some (1, 2), some (1, 3)] ∧
     (run step fresh es).sent.map (fun s => (s.packet.msg.payload.term, s.stored)) =
       [(1, 0), (1, 0)]) ∧
    (let es : List Event := [{ call := .tick {} 0 }, { call := .tick {} 10000 }]
     (run step fresh es).sent.map (fun s => (s.packet.msg.payload.term, s.stored)) =
       [(1, 0), (1, 0)] ∧ (run step fresh es).store.currentTerm = 0) := by
  decide +kernel

end Carrier

end Nexus
