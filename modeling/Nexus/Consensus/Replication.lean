import Mathlib.Data.List.Infix
import Nexus.Lib.Commit
import Nexus.Consensus.Election
import Nexus.Consensus.Follow

/-!
# Replication

The cluster follows the abstract replicated log of `Lib.TermLog`, whose state is the history of
the cluster: each node's whole log, the log of each leader while it led, the votes, and how much
each node acknowledged of each leader's log. Each action of a node is a step of the history or
leaves it alone (`NodeLog.act`).

* `PacketLog`: what a packet says about the history; it stays true as the history grows.
* `NodeLog`: how a node's state and the history are related.
* `OverCredits`, `OverCommits`: the two deliveries after which a node's state says more than the
  history does.
-/

namespace Nexus

open Lib Lib.TermLog Nexus.Core Ballots List

variable {log : RaftLog} {full : List LogEntry} {args : AppendEntriesArgs}

abbrev History := TermLog NodeId LogEntry

/-- The first `k` entries of `xs` are covered by an entry committed in a term up to `t`. -/
abbrev History.SafeTo (V : List NodeId) (a : History) (t : Nat) (xs : List LogEntry) (k : Nat) :
    Prop := a.Safe (majority V) LogEntry.term t xs k

structure History.Ok (V : List NodeId) (a : History) : Prop where
  inv : a.Inv (majority V) LogEntry.term
  chain : ∀ t, Chain 0 (batches (a.book t))

/-! ## Packets -/

/-- The entries of the message, and the entry before them, are from the book. The other case is a
message without entries to a follower that is further than the leader thinks possible: the
leader cannot read the term there and sends 0, which no entry has. -/
def Quotes (book : List LogEntry) (args : AppendEntriesArgs) : Prop :=
  (0 < args.prevLogIndex ∧ args.prevLogTerm = 0) ∨
  (args.prevLogIndex = 0 ∨
    ∃ e, book[args.prevLogIndex - 1]? = some e ∧ e.term = args.prevLogTerm) ∧
  ∃ es, es <+: book.drop args.prevLogIndex ∧ args.entries = wire (args.prevLogIndex + 1) es

/-- The snapshot is of the first entries of the book. -/
def Snapshot.Of (s : Snapshot) (book : List LogEntry) : Prop :=
  0 < s.lastIncludedIndex → ∃ e, book[s.lastIncludedIndex - 1]? = some e ∧
    e.term = s.lastIncludedTerm ∧ e.batch.lastOffset = s.lastIncludedOffset

section

variable (h : log.View full)

include h

/-- What a log sends of itself is from the list that it stands for. -/
theorem RaftLog.View.quotes
    (hprev : log.termAt args.prevLogIndex = .ok args.prevLogTerm ∨
      (∃ e, log.termAt args.prevLogIndex = .error e) ∧ args.prevLogTerm = 0)
    (hsnap : log.snapshotIndex ≤ args.prevLogIndex)
    (hentries : args.entries = [] ∨ log.entriesFrom (args.prevLogIndex + 1)
      RaftNode.kMaxEntriesPerAppend = .ok args.entries) : Quotes full args := by
  rcases hprev with hterm | ⟨⟨e, herr⟩, hzero⟩
  · refine .inr ⟨?_, ?_⟩
    · rcases h.termAt_iff.mp hterm with ⟨h0, -⟩ | ⟨-, -, hx⟩
      · exact .inl h0
      · exact .inr hx
    · rcases hentries with hnil | hread
      · exact ⟨[], nil_prefix, hnil⟩
      · rw [h.entriesFrom hsnap] at hread
        exact ⟨_, take_prefix _ _, (Except.ok.inj hread).symm⟩
  · refine .inl ⟨Nat.pos_of_ne_zero fun h0 => ?_, hzero⟩
    rw [h0, RaftLog.termAt, if_pos rfl] at herr
    cases herr

theorem RaftLog.View.snapshotOf :
    ({ lastIncludedIndex := log.snapshotIndex
       lastIncludedTerm := log.snapshotTerm
       lastIncludedOffset := log.snapshotLastOffset } : Snapshot).Of full := by
  intro hpos
  dsimp only at hpos ⊢
  obtain ⟨e, he⟩ : ∃ e, full[log.snapshotIndex - 1]? = some e :=
    ⟨_, getElem?_eq_getElem (by have := h.covered; omega)⟩
  obtain ⟨hst, hso⟩ := h.snapshot e hpos he
  exact ⟨e, he, hst.symm, hso.symm⟩

/-- The entry before those of the message is where the leader has it. -/
theorem RaftLog.View.agree_prev {book : List LogEntry} (hmatch : Matching full book)
    (hpos : ∀ (i : Nat) (x : LogEntry), full[i]? = some x → 0 < x.term)
    (hq : Quotes book args) (hterm : log.termAt args.prevLogIndex = .ok args.prevLogTerm) :
    AgreeTo args.prevLogIndex full book ∧
    ∃ es, es <+: book.drop args.prevLogIndex ∧
      args.entries = wire (args.prevLogIndex + 1) es := by
  rcases hq with ⟨hprev, hzero⟩ | ⟨hprev, hes⟩
  · rcases h.termAt_iff.mp hterm with ⟨h0, -⟩ | ⟨-, -, x, hx, hxt⟩
    · omega
    · have := hpos _ x hx
      omega
  · refine ⟨?_, hes⟩
    rcases h.termAt_iff.mp hterm with ⟨h0, -⟩ | ⟨hindex, -, x, hx, hxt⟩
    · rw [h0]; exact .zero _ _
    rcases hprev with h0 | ⟨e, he, het⟩
    · rw [h0]; exact .zero _ _
    · have := hmatch _ x e hx he (hxt.trans het.symm)
      rwa [Nat.sub_add_cancel hindex] at this

/-- Two logs hold the same entries as far as the lists that they stand for agree. -/
theorem RaftLog.View.exists_holdsAt {log' : RaftLog} {full' : List LogEntry}
    (h' : log'.View full') {i j : Nat} (hag : AgreeTo i full full') (hlen : i ≤ full.length)
    (hj : 0 < j) (hji : j ≤ i) : ∃ entry, log.HoldsAt j entry ∧ log'.HoldsAt j entry := by
  obtain ⟨j, rfl⟩ := Nat.exists_eq_succ_of_ne_zero (Nat.ne_of_gt hj)
  obtain ⟨entry, hentry⟩ : ∃ entry, full[j]? = some entry :=
    ⟨_, getElem?_eq_getElem (by omega)⟩
  exact ⟨entry, h.holdsAt hentry, h'.holdsAt ((hag j (by omega)).symm.trans hentry)⟩

/-- The entry is appended, or nothing is. -/
theorem RaftLog.View.appendOne {batch : RecordBatch}
    (hb : 1 ≤ batch.header.recordCount) (fails : Option Nat) (term index : Nat) :
    (log.append fails [{ term, index, payload := batch }]).1.snapshotIndex = log.snapshotIndex ∧
      ((log.append fails [{ term, index, payload := batch }]).1.View full ∨
        ∃ e : LogEntry, e.term = term ∧
          (log.append fails [{ term, index, payload := batch }]).1.View (full ++ [e])) := by
  obtain ⟨j, hj, hview, hsnap, -⟩ := h.append fails
    (show ∀ e ∈ [({ term, index, payload := batch } : RaftLogEntry)], _ by simpa using hb)
  refine ⟨hsnap, ?_⟩
  obtain rfl | rfl : j = 0 ∨ j = 1 := by simp only [length_singleton] at hj; omega
  · rw [take_zero, place, append_nil] at hview
    exact .inl hview
  · rw [take_of_length_le (by simp), place, place] at hview
    exact .inr ⟨_, rfl, hview⟩

end

/-- What a packet says about the history. -/
structure PacketLog (V : List NodeId) (a : History) (p : Packet) : Prop where
  request : ∀ args, p.msg.payload = .requestVote args → args.preVote = false →
    ∃ ys, a.bid p.msg.src args.term = some ys ∧ args.lastLogIndex = ys.length ∧
      args.lastLogTerm = lastTm LogEntry.term ys
  append : ∀ args, p.msg.payload = .appendEntries args →
    a.owner args.term = some p.msg.src ∧
    a.SafeTo V args.term (a.book args.term) args.leaderCommit ∧ Quotes (a.book args.term) args
  install : ∀ args, p.msg.payload = .installSnapshot args →
    a.owner args.term = some p.msg.src ∧
    a.SafeTo V args.term (a.book args.term) args.snapshot.lastIncludedIndex ∧
    args.snapshot.Of (a.book args.term)
  acks : ∀ t, Acknowledges t p.msg.payload → p.matched ≤ a.ack p.msg.src t

section Growth

variable {V : List NodeId} {a a' : History} {book book' : List LogEntry}

theorem getElem?_of_isPrefix (h : book <+: book') {i : Nat} {e : LogEntry}
    (he : book[i]? = some e) : book'[i]? = some e := by
  rw [← AgreeTo.of_isPrefix h (lt_length_of_getElem? he) i (Nat.lt_succ_self i)]
  exact he

theorem Quotes.mono (h : Quotes book args) (hb : book <+: book') :
    Quotes book' args := by
  rcases h with h | ⟨hprev, es, hes, heq⟩
  · exact .inl h
  · refine .inr ⟨hprev.imp_right fun ⟨e, he, ht⟩ => ⟨e, getElem?_of_isPrefix hb he, ht⟩, es, ?_,
      heq⟩
    exact hes.trans (hb.drop _)

theorem Snapshot.Of.mono {s : Snapshot} (h : s.Of book) (hb : book <+: book') :
    s.Of book' := fun hpos =>
  let ⟨e, he, ht⟩ := h hpos
  ⟨e, getElem?_of_isPrefix hb he, ht⟩

/-- What is safe in a book stays so as the book grows. -/
theorem SafeTo.book_of_le {t u k : Nat} (h : a.SafeTo V t (a.book u) k) (hle : a.Le a') :
    a'.SafeTo V t (a'.book u) k :=
  (h.of_le hle (Nat.le_refl t)).trans (AgreeTo.of_isPrefix (hle.book u) h.le_length)

theorem PacketLog.of_le {p : Packet} (h : PacketLog V a p) (hle : a.Le a') : PacketLog V a' p where
  request args ha hp := by
    obtain ⟨ys, hys, hlen⟩ := h.request args ha hp
    exact ⟨ys, hle.bid _ _ _ hys, hlen⟩
  append args ha := by
    obtain ⟨ho, hs, hq⟩ := h.append args ha
    exact ⟨hle.owner _ _ ho, SafeTo.book_of_le hs hle, hq.mono (hle.book _)⟩
  install args ha := by
    obtain ⟨ho, hs, hq⟩ := h.install args ha
    exact ⟨hle.owner _ _ ho, SafeTo.book_of_le hs hle, hq.mono (hle.book _)⟩
  acks t ht := Nat.le_trans (h.acks t ht) (hle.ack _ t)

end Growth

/-! ## Nodes -/

/-- What the state of node `v` says about the history. -/
structure NodeLog (V : List NodeId) (a : History) (v : NodeId) (c : Core) : Prop where
  term : a.term v = c.term
  view : c.log.View (a.log v)
  candidate : c.role = .candidate → a.bid v c.term = some (a.log v) ∧ a.owner c.term ≠ some v
  leader : c.role = .leader → a.owner c.term = some v ∧ ∀ w, c.progress w ≤ a.ack w c.term
  commit : a.SafeTo V c.term (a.log v) c.commit
  snapshot : a.SafeTo V c.term (a.log v) c.log.snapshotIndex
  out : ∀ p ∈ c.out, PacketLog V a p

/-- Steps of other nodes leave it true. -/
theorem NodeLog.frame {V : List NodeId} {a a' : History} {v w : NodeId} {c : Core}
    (h : NodeLog V a v c) (hle : a.Le a') (hl : Local w a a') (hv : v ≠ w) :
    NodeLog V a' v c where
  term := (hl.term v hv).trans h.term
  view := by rw [hl.log v hv]; exact h.view
  candidate hr := by
    rw [hl.log v hv]
    exact ⟨hle.bid _ _ _ (h.candidate hr).1, fun ho => (h.candidate hr).2 (hl.owner v _ hv ho)⟩
  leader hr := ⟨hle.owner _ _ (h.leader hr).1,
    fun u => Nat.le_trans ((h.leader hr).2 u) (hle.ack u _)⟩
  commit := by rw [hl.log v hv]; exact h.commit.of_le hle (Nat.le_refl _)
  snapshot := by rw [hl.log v hv]; exact h.snapshot.of_le hle (Nat.le_refl _)
  out p hp := (h.out p hp).of_le hle

/-- A leader counts a positive reply to a message that went less far than what it sent last: the
credit goes beyond what the sender is known to hold. -/
def RaftNode.OverCredits (n : RaftNode) (p : Packet) : Prop :=
  n.role = .leader ∧ max (n.matchIndex p.msg.src) p.matched < n.lastSent p.msg.src ∧
  match p.msg.payload with
  | .appendEntriesReply r => r.term = n.currentTerm ∧ r.success = true
  | .installSnapshotReply r => r.term = n.currentTerm
  | _ => False

/-- A node has all the entries of a message already, and both its log and the leader's commit
index go further: it commits entries of its own that the message says nothing about. -/
def RaftNode.OverCommits (n : RaftNode) (p : Packet) : Prop :=
  match p.msg.payload with
  | .appendEntries args =>
    n.currentTerm ≤ args.term ∧ n.log.termAt args.prevLogIndex = .ok args.prevLogTerm ∧
    (∀ e ∈ args.entries, n.log.termAt e.index = .ok e.term) ∧
    n.commitIndex < args.leaderCommit ∧
    args.prevLogIndex + args.entries.length < min args.leaderCommit n.log.lastIndex
  | _ => False

instance (n : RaftNode) (p : Packet) : Decidable (n.OverCredits p) := by
  unfold RaftNode.OverCredits
  induction p.msg.payload using RaftPayload.casesOn <;> infer_instance

instance (n : RaftNode) (p : Packet) : Decidable (n.OverCommits p) := by
  unfold RaftNode.OverCommits
  induction p.msg.payload using RaftPayload.casesOn <;> infer_instance

/-! ## Actions on terms and votes -/

/-- What makes node `v` act is true of the history, and none of the deliveries above. -/
structure CauseOk (V M : List NodeId) (a : History) (v : NodeId) (x : Cause) : Prop where
  votes : ∀ q, x.packet = some q → PacketVotes M a.vote q
  log : ∀ q, x.packet = some q → PacketLog V a q
  dst : ∀ q, x.packet = some q → q.msg.dst = v
  sound : ∀ q, x.packet = some q →
    ¬ x.node.CountsPreVote q ∧ ¬ x.node.OverCredits q ∧ ¬ x.node.OverCommits q
  batch : ∀ b, x.batch = some b → 1 ≤ b.header.recordCount

theorem CauseOk.of_le {V M : List NodeId} {a a' : History} {v : NodeId} {x : Cause}
    (h : CauseOk V M a v x) (hle : a.Le a') : CauseOk V M a' v x :=
  { h with
    votes := fun q hq => (h.votes q hq).mono hle.vote
    log := fun q hq => (h.log q hq).of_le hle }

/-- The history goes on to one that node `v` in state `c` is true of. -/
def Advance (V : List NodeId) (a : History) (v : NodeId) (c : Core) : Prop :=
  ∃ a' : History, a.Le a' ∧ Local v a a' ∧ a'.Ok V ∧ NodeLog V a' v c ∧
    a'.vote = Ballots.record a.vote v c

section Actions

variable {V M : List NodeId} {a a' : History} {v src o : NodeId} {x : Cause} {c c' : Core}
  {e : LogEntry}

/-- The history stays. -/
theorem NodeLog.keep (h : NodeLog V a v c) (ha : a.Ok V) (hv : a.vote v c.term = c.votedFor) :
    Advance V a v c :=
  ⟨a, .refl a, .refl v a, ha, h, (record_eq_self hv).symm⟩

theorem advance_of_step (ha : a.Ok V) (hs : Step (majority V) LogEntry.term v a a')
    (hchain : ∀ t, Chain 0 (batches (a'.book t))) (h : NodeLog V a' v c)
    (hv : a'.vote = record a.vote v c) : Advance V a v c :=
  ⟨a', hs.le ha.inv.toBasic, hs.isLocal, ⟨hs.inv ha.inv, hchain⟩, h, hv⟩

/-- An action that leaves term, log and commit index alone and gains no role. -/
theorem NodeLog.congr (h : NodeLog V a v c) (ht : c'.term = c.term) (hl : c'.log = c.log)
    (hk : c'.commit = c.commit) (hc : c'.role = .candidate → c.role = .candidate)
    (hp : c'.role = .leader → c.role = .leader ∧ ∀ w, c'.progress w ≤ a.ack w c.term)
    (ho : ∀ p ∈ c'.out, PacketLog V a p) : NodeLog V a v c' where
  term := h.term.trans ht.symm
  view := by rw [hl]; exact h.view
  candidate hr := by rw [ht]; exact h.candidate (hc hr)
  leader hr := by rw [ht]; exact ⟨(h.leader (hp hr).1).1, (hp hr).2⟩
  commit := by rw [ht, hk]; exact h.commit
  snapshot := by rw [ht, hl]; exact h.snapshot
  out := ho

theorem chain_elect (h : ∀ t, Chain 0 (batches (a.book t))) (hlog : Chain 0 (batches (a.log v)))
    (t : Nat) : Chain 0 (batches ((a.elect v).book t)) := by
  by_cases ht : t = a.term v
  · rw [ht, book_elect_self]; exact hlog
  · rw [book_elect_of_ne ht]; exact h t

theorem chain_write (h : ∀ t, Chain 0 (batches (a.book t)))
    (hlog : Chain 0 (batches (a.log v ++ [e]))) (t : Nat) :
    Chain 0 (batches ((a.write v e).book t)) := by
  by_cases ht : t = a.term v
  · rw [ht, book_write_self]; exact hlog
  · rw [book_write_of_ne ht]; exact h t

section

variable (h : NodeLog V a v c)

include h

theorem NodeLog.raise (ha : a.Ok V) {t : Nat} (ht : c.term < t) :
    Advance V a v (c.raise t) := by
  rw [← h.term] at ht
  have hs : Step (majority V) LogEntry.term v a (a.bump v t) := .bump a t ht
  have hle := hs.le ha.inv.toBasic
  have hterm : c.term ≤ t := by rw [← h.term]; omega
  refine advance_of_step ha hs ha.chain ⟨term_bump_self t, h.view, ?_, ?_, ?_, ?_, ?_⟩ ?_
  · exact fun hr => absurd hr (by simp [Core.raise, Core.stepDown])
  · exact fun hr => absurd hr (by simp [Core.raise, Core.stepDown])
  · exact h.commit.of_le hle hterm
  · exact h.snapshot.of_le hle hterm
  · exact fun p hp => (h.out p hp).of_le hle
  · exact (record_eq_self (ha.inv.vote_none ht)).symm

theorem NodeLog.stand (ha : a.Ok V) (hself : c.self = v) :
    Advance V a v c.stand := by
  have ht : a.term v < c.term + 1 := by rw [h.term]; omega
  have hs : Step (majority V) LogEntry.term v a (a.stand v (c.term + 1)) := .stand a _ ht
  have hle := hs.le ha.inv.toBasic
  refine advance_of_step ha hs ha.chain
    ⟨term_bump_self _, h.view, fun _ => ⟨?_, ?_⟩, ?_, ?_, ?_, ?_⟩ ?_
  · exact set_same ..
  · intro ho
    have := ha.inv.owner_le _ v ho
    change c.term + 1 ≤ _ at this
    omega
  · exact fun hr => absurd hr (by simp [Core.stand])
  · exact h.commit.of_le hle (Nat.le_succ _)
  · exact h.snapshot.of_le hle (Nat.le_succ _)
  · exact fun p hp => (h.out p hp).of_le hle
  · funext w t
    simp only [TermLog.stand, TermLog.set, record, Core.stand, hself]

theorem NodeLog.upToDate {ys : List LogEntry} {k t : Nat}
    (hk : k = ys.length) (ht : t = lastTm LogEntry.term ys) (hu : c.log.upToDate k t) :
    UpToDate LogEntry.term ys (a.log v) := by
  subst hk ht
  rw [RaftLog.upToDate, h.view.lastTerm, h.view.lastIndex] at hu
  exact hu

theorem NodeLog.cast (ha : a.Ok V) (hx : CauseOk V M a v x)
    {args : RequestVoteArgs} (hm : x.Handles src (.requestVote args)) (hp : args.preVote = false)
    (ht : args.term = c.term) (hvoted : a.vote v c.term = c.votedFor)
    (hv : c.votedFor = none ∨ c.votedFor = some args.candidateId)
    (hu : c.log.upToDate args.lastLogIndex args.lastLogTerm) :
    Advance V a v (c.cast args.candidateId) := by
  obtain ⟨q, hq, rfl, hqa⟩ := hm
  obtain ⟨ys, hys, hlen, hlast⟩ := (hx.log q hq).request args hqa hp
  rw [← ((hx.votes q hq).request args hqa hp).1, ht, ← h.term] at hys
  rw [← hvoted, ← h.term] at hv
  have hs : Step (majority V) LogEntry.term v a (a.grant v args.candidateId) :=
    .grant a _ ys hv hys (h.upToDate hlen hlast hu)
  have hle := hs.le ha.inv.toBasic
  refine advance_of_step ha hs ha.chain ?_ ?_
  · exact ⟨h.term, h.view, h.candidate, h.leader, h.commit.of_le hle (Nat.le_refl _),
      h.snapshot.of_le hle (Nat.le_refl _), fun p hp => (h.out p hp).of_le hle⟩
  · funext w t
    simp only [TermLog.grant, TermLog.set, record, Core.cast, h.term]
    rfl

theorem NodeLog.win (ha : a.Ok V) (hr : c.role = .candidate)
    (hvoted : a.vote v c.term = c.votedFor) (hwon : Ballots.Won V a.vote v c.term) :
    Advance V a v c.win := by
  obtain ⟨hbid, hnot⟩ := h.candidate hr
  rw [← h.term] at hbid hnot hwon
  have hnone : a.owner (a.term v) = none := by
    cases ho : a.owner (a.term v) with
    | none => rfl
    | some u =>
      have huv : u = v := Ballots.Won.unique (ha.inv.won _ u ho) hwon
      exact absurd (huv ▸ ho) hnot
  have hs : Step (majority V) LogEntry.term v a (a.elect v) := .elect a hnone hbid hwon
  have hle := hs.le ha.inv.toBasic
  refine advance_of_step ha hs (chain_elect ha.chain h.view.chain)
    ⟨h.term, h.view, ?_, fun _ => ⟨?_, ?_⟩, ?_, ?_, ?_⟩ ?_
  · exact fun hc => absurd hc (by simp [Core.win])
  · rw [show c.win.term = a.term v from h.term.symm]
    exact owner_elect_self
  · exact fun w => Nat.zero_le _
  · exact h.commit.of_le hle (Nat.le_refl _)
  · exact h.snapshot.of_le hle (Nat.le_refl _)
  · exact fun p hp => (h.out p hp).of_le hle
  · exact (record_eq_self hvoted).symm

end

/-! ## Actions of a leader -/

section

variable (h : NodeLog V a v c) {k : Nat}

include h

/-- An operation of the log that leaves what it stands for. -/
theorem NodeLog.setLog (hview : log.View (a.log v))
    (hsnap : a.SafeTo V c.term (a.log v) log.snapshotIndex) : NodeLog V a v { c with log } :=
  { h with view := hview, snapshot := hsnap }

theorem NodeLog.write (ha : a.Ok V)
    (hvoted : a.vote v c.term = c.votedFor) (hr : c.role = .leader) {batch : RecordBatch}
    (hb : 1 ≤ batch.header.recordCount) (fails : Option Nat) :
    Advance V a v { c with log := (c.log.append fails
      [{ term := c.term, index := c.log.lastIndex + 1, payload := batch }]).1 } := by
  obtain ⟨hsnap, hview⟩ := h.view.appendOne hb fails c.term (c.log.lastIndex + 1)
  generalize (c.log.append fails _).1 = log at hview hsnap ⊢
  have hcover : a.SafeTo V c.term (a.log v) log.snapshotIndex := by
    rw [hsnap]; exact h.snapshot
  rcases hview with hview | ⟨e, he, hview⟩
  · exact (h.setLog hview hcover).keep ha hvoted
  · have hleads := (h.leader hr).1
    rw [← h.term] at hleads he
    have hs : Step (majority V) LogEntry.term v a (a.write v e) := .write a e hleads he
    have hle := hs.le ha.inv.toBasic
    have hgrow : ∀ {k}, a.SafeTo V c.term (a.log v) k →
        History.SafeTo V (a.write v e) c.term ((a.write v e).log v) k := fun {k} hk => by
      rw [log_write_self]
      exact (hk.of_le hle (Nat.le_refl _)).trans
        (AgreeTo.of_isPrefix (prefix_append _ _) hk.le_length)
    refine advance_of_step ha hs (chain_write ha.chain hview.chain)
      ⟨h.term, ?_, ?_, fun _ => ⟨(h.leader hr).1, ?_⟩, hgrow h.commit, hgrow hcover, ?_⟩
      (record_eq_self hvoted).symm
    · rw [log_write_self]; exact hview
    · exact fun hc => absurd (hr.symm.trans hc) (by simp)
    · exact fun w => Nat.le_trans ((h.leader hr).2 w) (hle.ack w _)
    · exact fun p hp => (h.out p hp).of_le hle

/-- The credit goes no further than what the sender acknowledged. -/
theorem NodeLog.credit (hx : CauseOk V M a v x) {payload : RaftPayload}
    (hm : x.Handles src payload) (hack : Acknowledges c.term payload) (hr : c.role = .leader)
    (hrole : x.node.role = .leader) (hterm : x.node.currentTerm = c.term)
    (hmatch : c.progress src = x.node.matchIndex src) :
    NodeLog V a v (c.credit src (x.node.lastSent src)) := by
  obtain ⟨q, hq, rfl, hqp⟩ := hm
  have hsent : x.node.lastSent q.msg.src ≤ max (x.node.matchIndex q.msg.src) q.matched := by
    by_contra hlt
    refine (hx.sound q hq).2.1 ⟨hrole, by omega, ?_⟩
    rw [hqp]
    cases hack with
    | append r ht hs => exact ⟨ht.trans hterm.symm, hs⟩
    | install r ht => exact ht.trans hterm.symm
  have hmatched : q.matched ≤ a.ack q.msg.src c.term := (hx.log q hq).acks _ (hqp ▸ hack)
  have hprogress := (h.leader hr).2
  refine h.congr rfl rfl rfl (fun hc => hc) (fun _ => ⟨hr, fun w => ?_⟩) h.out
  by_cases hw : w = q.msg.src
  · subst hw
    have := hprogress q.msg.src
    simp only [credit, Function.update_self]
    omega
  · simp only [credit, Function.update_of_ne hw]
    exact hprogress w

/-- The voters that the leader counts did acknowledge the entry. -/
theorem NodeLog.quorum (ha : a.Ok V) (hsite : Site V M v c) (hr : c.role = .leader)
    (hm : c.voterMatches.length < 2 * c.voterMatches.countP fun m => decide (k ≤ m)) :
    (majority V).Quorum fun w => k ≤ a.ack w c.term := by
  obtain ⟨howner, hprogress⟩ := h.leader hr
  have hlead := ha.inv.leading v (by rw [h.term]; exact howner)
  have hself : c.log.lastIndex = a.ack v c.term := by
    rw [h.view.lastIndex, ← h.term, hlead.2, hlead.1]
  have hlen : c.voterMatches.length = V.length := by
    rw [← hsite.voters.length_eq, voterMatches, voters, filter_cons]
    split <;> simp [Nat.add_comm]
  have hpeers : ((c.peers.filter c.isVoter).map c.progress).countP (fun m => decide (k ≤ m)) ≤
      (c.peers.filter c.isVoter).countP fun w => decide (k ≤ a.ack w c.term) := by
    rw [countP_map]
    refine countP_mono_left fun w _ hw => ?_
    have := hprogress w
    simp only [Function.comp, decide_eq_true_eq] at hw ⊢
    omega
  have hcount : c.voterMatches.countP (fun m => decide (k ≤ m)) ≤
      V.countP fun w => decide (k ≤ a.ack w c.term) := by
    rw [← hsite.voters.countP_eq, voterMatches, voters, filter_cons,
      countP_append, hsite.self]
    split
    · rw [countP_cons, countP_cons, countP_nil, hself]
      omega
    · rw [countP_nil]
      omega
  exact majority_of_countP (p := fun w => decide (k ≤ a.ack w c.term)) (by omega)
    fun w hw => of_decide_eq_true hw

theorem NodeLog.advanceCommit (ha : a.Ok V) (hsite : Site V M v c)
    (hr : c.role = .leader) (hk : c.commit < k) (ht : c.log.termAt k = .ok c.term)
    (hm : c.voterMatches.length < 2 * c.voterMatches.countP fun m => decide (k ≤ m)) :
    NodeLog V a v { c with commit := k } := by
  obtain ⟨howner, -⟩ := h.leader hr
  have hlog : a.log v = a.book c.term := by
    rw [← h.term] at howner ⊢
    exact (ha.inv.leading v howner).1
  rcases h.view.termAt_iff.mp ht with ⟨h0, -⟩ | ⟨hpos, -, e, he, het⟩
  · omega
  rw [hlog] at he
  refine { h with commit := .inr ⟨c.term, k - 1, ⟨⟨e, he, het⟩, ?_⟩, Nat.le_refl _, ?_, ?_⟩ }
  · exact (majority V).mono (fun w hw => by omega) (h.quorum ha hsite hr hm)
  · dsimp only; omega
  · rw [hlog]; exact .refl _ _

end

/-! ## Actions of a follower -/

/-- Term 0 has no owner. -/
theorem History.Ok.owner_pos (ha : a.Ok V) {t : Nat} (ho : a.owner t = some o) : 0 < t := by
  have hq := ha.inv.won t o ho
  obtain ⟨w, hw, -⟩ := (majority V).meet hq hq
  obtain ⟨ys, hys, -⟩ := ha.inv.pledge w t o hw
  obtain ⟨u, hu, -⟩ := ha.inv.bid_wf o t ys hys
  omega

theorem History.Ok.matching (ha : a.Ok V) (v : NodeId) (t : Nat) :
    Matching (a.log v) (a.book t) := fun _ _ _ hx hy hxy =>
  (ha.inv.log v).matching (ha.inv.book t) hx hy hxy

/-- The log changes as `Follows` says: a step of the history, or none. Safe prefixes stay. -/
theorem NodeLog.follow (h : NodeLog V a v c) (ha : a.Ok V) (ho : a.owner c.term = some o)
    (hf : Follows (a.log v) (a.book c.term) full) :
    ∃ a' : History, (a' = a ∨ Step (majority V) LogEntry.term v a a') ∧ a'.term = a.term ∧
      a'.vote = a.vote ∧ a'.book = a.book ∧ a'.log v = full ∧
      ∀ k, a.SafeTo V c.term (a.log v) k → a'.SafeTo V c.term full k := by
  have hsame : full = a.log v → ∃ a' : History,
      (a' = a ∨ Step (majority V) LogEntry.term v a a') ∧ a'.term = a.term ∧
      a'.vote = a.vote ∧ a'.book = a.book ∧ a'.log v = full ∧
      ∀ k, a.SafeTo V c.term (a.log v) k → a'.SafeTo V c.term full k := by
    rintro rfl
    exact ⟨a, .inl rfl, rfl, rfl, rfl, rfl, fun _ hk => hk⟩
  by_cases hov : o = v
  · subst hov
    have hlog := (ha.inv.leading o (by rw [h.term]; exact ho)).1
    rw [h.term] at hlog
    rw [← hlog] at hf
    exact hsame hf.eq_self
  rcases hf with hf | ⟨m, rfl, hm⟩
  · exact hsame hf
  · have hs : Step (majority V) LogEntry.term v a (a.adopt v m) := by
      rw [← h.term] at ho hm
      exact .adopt a o m ho hov hm
    refine ⟨a.adopt v m, .inr hs, rfl, rfl, rfl, ?_, fun k hk => ?_⟩
    · rw [log_adopt_self, h.term]
    · have hbook := ha.inv.safe_book hk (Nat.le_refl _) (by rw [ho]; simp)
      exact (hk.of_le (hs.le ha.inv.toBasic) (Nat.le_refl _)).trans
        (hbook.trans (AgreeTo.take _ (hm k hk.le_length hbook)).symm)

/-- The history after a node has taken over a book up to `n`, or tried to. -/
theorem NodeLog.takeOver (h : NodeLog V a v c) (ha : a.Ok V) (ho : a.owner c.term = some o)
    {n : Nat} {out : RaftLog × Bool} (ht : TakesOver (a.log v) (a.book c.term) n out full) :
    ∃ a' : History, a.Le a' ∧ Local v a a' ∧ a'.Ok V ∧ a'.vote = a.vote ∧ a'.book = a.book ∧
      a'.term v = c.term ∧ a'.log v = full ∧ (out.2 = true → n ≤ a'.ack v c.term) ∧
      ∀ k, a.SafeTo V c.term (a.log v) k → a'.SafeTo V c.term full k := by
  obtain ⟨b, hstep, hterm, hvote, hbook, hlog, hsafe⟩ := h.follow ha ho ht.follows
  have hle : a.Le b := by
    rcases hstep with rfl | hs
    · exact .refl _
    · exact hs.le ha.inv.toBasic
  have hl : Local v a b := by
    rcases hstep with rfl | hs
    · exact .refl v _
    · exact hs.isLocal
  have hb : b.Ok V := by
    refine ⟨?_, by rw [hbook]; exact ha.chain⟩
    rcases hstep with rfl | hs
    · exact ha.inv
    · exact hs.inv ha.inv
  have htv : b.term v = c.term := (congrFun hterm v).trans h.term
  by_cases hdone : out.2 = true
  · obtain ⟨hag, hlen⟩ := ht.done hdone
    rw [← hbook, ← htv] at hag
    have hs : Step (majority V) LogEntry.term v b (b.confirm v n) :=
      .confirm b n (hag.le_length hlen) (by rw [hlog]; exact hag.symm)
    have hle' := hs.le hb.inv.toBasic
    refine ⟨b.confirm v n, hle.trans hle', hl.trans hs.isLocal, ⟨hs.inv hb.inv, hb.chain⟩, hvote,
      hbook, htv, hlog, fun _ => ?_, fun k hk => (hsafe k hk).of_le hle' (Nat.le_refl _)⟩
    rw [← htv]
    change n ≤ TermLog.set _ _ _ _ _ _
    rw [set_same]
    exact Nat.le_max_right _ _
  · exact ⟨b, hle, hl, hb, hvote, hbook, htv, hlog, fun hd => absurd hd hdone, hsafe⟩

theorem History.Ok.term_pos (ha : a.Ok V) {i : Nat} (he : (a.log v)[i]? = some e) : 0 < e.term := by
  obtain ⟨o, ho⟩ := Option.ne_none_iff_exists'.mp (ha.inv.log v i e he).2.1
  exact ha.owner_pos ho

theorem NodeLog.append (h : NodeLog V a v c) (ha : a.Ok V) (hx : CauseOk V M a v x)
    (hsite : Site V M v c) (hvoted : a.vote v c.term = c.votedFor)
    (io : LogIo) (hm : x.Handles src (.appendEntries args)) (hr : c.role = .follower)
    (hargs : args.term = c.term) (hlog : c.log = x.node.log)
    (hcommit : c.commit = x.node.commitIndex) (hnode : x.node.currentTerm ≤ args.term)
    (hprev : args.prevLogIndex ≤ c.log.lastIndex)
    (hterm : c.log.termAt args.prevLogIndex = .ok args.prevLogTerm) :
    Advance V a v (c.appendEntries io src args) ∧
      c.commit ≤ (c.appendEntries io src args).commit := by
  obtain ⟨q, hq, rfl, hqp⟩ := hm
  obtain ⟨howner, hsafe, hquotes⟩ := (hx.log q hq).append args hqp
  rw [hargs] at howner hsafe hquotes
  obtain ⟨hag, es, hes, hentries⟩ := h.view.agree_prev (ha.matching v c.term)
    (fun _ _ he => ha.term_pos he) hquotes hterm
  rw [h.view.lastIndex] at hprev
  obtain ⟨full, htakes, hsnap, hlen⟩ := appendEntriesFrom_spec h.view (ha.chain c.term)
    (ha.matching v c.term) io hes hprev hag
  obtain ⟨a', hle, hl, ha', hvote, hbook, htv, hfull, hack, hkeep⟩ := h.takeOver ha howner htakes
  rw [← hentries] at htakes hsnap hlen hack
  have hn : args.entries.length = es.length := by rw [hentries, length_wire]
  -- What the node commits beyond its own commit index is within the message.
  have hwithin : (RaftNode.appendEntriesFrom c.log io args.entries).2 = true →
      args.leaderCommit > c.commit → min args.leaderCommit full.length ≤
        args.prevLogIndex + es.length := by
    intro hb hgt
    rcases hlen hb with heq | ⟨rfl, hall⟩
    · omega
    by_contra hover
    refine (hx.sound q hq).2.2 ?_
    unfold RaftNode.OverCommits
    rw [hqp]
    dsimp only
    rw [← hlog, ← hcommit, h.view.lastIndex, hn]
    exact ⟨hnode, hterm, hall, hgt, by omega⟩
  have hlast : (RaftNode.appendEntriesFrom c.log io args.entries).1.lastIndex = full.length :=
    htakes.view.lastIndex
  refine ⟨⟨a', hle, hl, ha', ⟨htv, ?_, ?_, ?_, ?_, ?_, ?_⟩, ?_⟩, ?_⟩
  · rw [hfull]; exact htakes.view
  · exact fun hc => absurd (hr.symm.trans hc) (by simp)
  · exact fun hc => absurd (hr.symm.trans hc) (by simp)
  · rw [hfull]
    simp only [appendEntries]
    split
    · rename_i hcond
      have hbound := hwithin hcond.1 hcond.2
      rw [hlast]
      refine ((hsafe.mono (Nat.min_le_left _ full.length)).of_le hle (Nat.le_refl _)).trans ?_
      exact ((htakes.done hcond.1).1.mono hbound).symm
    · exact hkeep _ h.commit
  · rw [hfull]
    simp only [appendEntries, hsnap]
    exact hkeep _ h.snapshot
  · intro p hp
    rcases mem_append.mp hp with hp | hp
    · exact (h.out p hp).of_le hle
    · rw [mem_singleton.mp hp]
      refine ⟨by simp, by simp, by simp, fun t hacks => ?_⟩
      cases hacks with
      | append r ht hs =>
        dsimp only at ht hs ⊢
        rw [if_pos hs, hsite.self, ← ht, hn]
        exact hack hs
  · rw [hvote]
    exact (record_eq_self hvoted).symm
  · -- The log still has what was committed.
    have hkept := (hkeep _ h.commit).le_length
    simp only [appendEntries]
    split <;> omega

theorem NodeLog.install (h : NodeLog V a v c) (ha : a.Ok V) (hx : CauseOk V M a v x)
    (hsite : Site V M v c) (hvoted : a.vote v c.term = c.votedFor) {args : InstallSnapshotArgs}
    (io : InstallIo) (hm : x.Handles src (.installSnapshot args)) (hr : c.role = .follower)
    (hargs : args.term = c.term) : Advance V a v (c.installSnapshot io src args) := by
  obtain ⟨q, hq, rfl, hqp⟩ := hm
  obtain ⟨howner, hsafe, hof⟩ := (hx.log q hq).install args hqp
  rw [hargs] at howner hsafe hof
  have hcover := ha.inv.safe_book h.snapshot (Nat.le_refl _) (by rw [howner]; simp)
  obtain ⟨full, htakes, hsnap⟩ := installSnapshot_spec h.view (ha.chain c.term)
    (ha.matching v c.term) hcover io hof
  obtain ⟨a', hle, hl, ha', hvote, hbook, htv, hfull, hack, hkeep⟩ := h.takeOver ha howner htakes
  have hindex : AgreeTo args.snapshot.lastIncludedIndex full (a.book c.term) →
      a'.SafeTo V c.term full args.snapshot.lastIncludedIndex := fun hag =>
    (hsafe.of_le hle (Nat.le_refl _)).trans hag.symm
  refine ⟨a', hle, hl, ha', ⟨htv, ?_, ?_, ?_, ?_, ?_, ?_⟩, ?_⟩
  · rw [hfull]; exact htakes.view
  · exact fun hc => absurd (hr.symm.trans hc) (by simp)
  · exact fun hc => absurd (hr.symm.trans hc) (by simp)
  · rw [hfull]
    simp only [installSnapshot]
    split
    · rename_i hcond
      exact hindex (htakes.done hcond.1).1
    · exact hkeep _ h.commit
  · rw [hfull]
    simp only [installSnapshot]
    rcases hsnap with hsame | ⟨hnew, hag⟩
    · rw [hsame]; exact hkeep _ h.snapshot
    · rw [hnew]; exact hindex hag
  · intro p hp
    rcases mem_append.mp hp with hp | hp
    · exact (h.out p hp).of_le hle
    · rw [mem_singleton.mp hp]
      refine ⟨by simp, by simp, by simp, fun t hacks => ?_⟩
      cases hacks with
      | install r ht =>
        dsimp only at ht ⊢
        split
        · rename_i hdone
          rw [hsite.self, ← ht]
          exact hack hdone
        · exact Nat.zero_le _
  · rw [hvote]
    exact (record_eq_self hvoted).symm

theorem NodeLog.compact (h : NodeLog V a v c) (hl : c.log.compactTo c.commit = .ok log) :
    NodeLog V a v { c with log } := by
  obtain ⟨r, hr, hview, hsnap⟩ := h.view.compactTo h.commit.le_length
  obtain rfl : r = log := Except.ok.inj (hr.symm.trans hl)
  refine h.setLog hview ?_
  rw [hsnap]
  rcases Nat.le_total c.log.snapshotIndex c.commit with hle | hle
  · rw [Nat.max_eq_right hle]; exact h.commit
  · rw [Nat.max_eq_left hle]; exact h.snapshot

/-! ## Sending -/

theorem NodeLog.truthful (h : NodeLog V a v c) (ha : a.Ok V) (hself : c.self = v) {p : Packet}
    (hp : Truthful x c p) : PacketLog V a p := by
  obtain ⟨hsrc, hp⟩ := hp
  rw [hself] at hsrc
  have hlead : c.role = .leader → a.owner c.term = some v ∧ a.log v = a.book c.term := by
    intro hr
    have howner := (h.leader hr).1
    refine ⟨howner, ?_⟩
    rw [← h.term] at howner ⊢
    exact (ha.inv.leading v howner).1
  refine ⟨fun args hargs hpre => ?_, fun args hargs => ?_, fun args hargs => ?_, fun t hacks => ?_⟩
  · rw [hargs] at hp
    simp only [hpre, Bool.false_eq_true, if_false] at hp
    obtain ⟨hterm, -, hrole, hlen, hlast⟩ := hp
    refine ⟨a.log v, ?_, hlen.trans h.view.lastIndex, hlast.trans h.view.lastTerm⟩
    rw [hsrc, hterm]
    exact (h.candidate hrole).1
  · rw [hargs] at hp
    obtain ⟨hterm, -, hrole, hcommit, hprev, hsnap, hentries⟩ := hp
    obtain ⟨howner, hlog⟩ := hlead hrole
    rw [hterm, hsrc, hcommit]
    exact ⟨howner, hlog ▸ h.commit, hlog ▸ h.view.quotes hprev hsnap hentries⟩
  · rw [hargs] at hp
    obtain ⟨hterm, -, hrole, hsnap⟩ := hp
    obtain ⟨howner, hlog⟩ := hlead hrole
    rw [hterm, hsrc, hsnap, ← hlog]
    exact ⟨howner, h.snapshot, h.view.snapshotOf⟩
  · generalize p.msg.payload = payload at hp hacks
    cases hacks with
    | append r ht hs => exact absurd (hs.symm.trans hp.2) (by simp)
    | install r ht => rw [hp.2]; exact Nat.zero_le _

/-! ## Runs of actions -/

theorem Act.term_le (h : Act x c c') : c.term ≤ c'.term := by
  cases h with
  | raise t ht => exact Nat.le_of_lt ht
  | stand hv => exact Nat.le_succ _
  | _ => exact Nat.le_refl _

/-- Each action is a step of the history or leaves it alone, and none takes back a commit. -/
theorem NodeLog.act (h : NodeLog V a v c) (ha : a.Ok V) (hv : NodeVotes V M a.vote v c)
    (hx : CauseOk V M a v x) (hterm : x.node.currentTerm ≤ c.term) (hact : Act x c c') :
    Advance V a v c' ∧ c.commit ≤ c'.commit := by
  have hcur := hv.current
  cases hact with
  | stepDown =>
    have hlog : NodeLog V a v c.stepDown :=
      h.congr rfl rfl rfl (fun hr => absurd hr (by simp [stepDown]))
        (fun hr => absurd hr (by simp [stepDown])) h.out
    exact ⟨hlog.keep ha hcur, Nat.le_refl _⟩
  | raise t ht => exact ⟨h.raise ha ht, Nat.le_refl _⟩
  | probe hr hv' =>
    have hlog : NodeLog V a v { c with role := .preCandidate, votesGranted := [c.self] } :=
      h.congr rfl rfl rfl (fun hr => absurd hr (by simp)) (fun hr => absurd hr (by simp)) h.out
    exact ⟨hlog.keep ha hcur, Nat.le_refl _⟩
  | poll w hr | count w r hm hr =>
    have hlog : NodeLog V a v (c.insertVote w) :=
      h.congr rfl rfl rfl (fun hc => hc) (fun hl => absurd (hr.symm.trans hl) (by simp)) h.out
    exact ⟨hlog.keep ha hcur, Nat.le_refl _⟩
  | stand hv' => exact ⟨h.stand ha hv.site.self, Nat.le_refl _⟩
  | cast src args hm hp ht hvf hu => exact ⟨h.cast ha hx hm hp ht hcur hvf hu, Nat.le_refl _⟩
  | win hr hm => exact ⟨h.win ha hr hcur ((hv.win hr hm).leader rfl), Nat.le_refl _⟩
  | write batch fails hb hr =>
    exact ⟨h.write ha hcur hr (hx.batch batch hb) fails, Nat.le_refl _⟩
  | credit src payload hm hack hr hrole hnode hmatch =>
    exact ⟨(h.credit hx hm hack hr hrole hnode hmatch).keep ha hcur, Nat.le_refl _⟩
  | commit k hr hk ht hm =>
    exact ⟨(h.advanceCommit ha hv.site hr hk ht hm).keep ha hcur, Nat.le_of_lt hk⟩
  | append src args io hm hr ht hlog hcommit hprev hprevTerm =>
    exact h.append ha hx hv.site hcur io hm hr ht hlog hcommit (ht ▸ hterm) hprev hprevTerm
  | install src args io hm hr ht =>
    refine ⟨h.install ha hx hv.site hcur io hm hr ht, ?_⟩
    simp only [installSnapshot]
    split <;> omega
  | compact log hx hl => exact ⟨(h.compact hl).keep ha hcur, Nat.le_refl _⟩
  | send p hp =>
    have hout : ∀ q ∈ (c.emit p).out, PacketLog V a q := by
      intro q hq
      rcases mem_append.mp hq with hq | hq
      · exact h.out q hq
      · rw [mem_singleton.mp hq]; exact h.truthful ha hv.site.self hp
    have hlog : NodeLog V a v (c.emit p) :=
      h.congr rfl rfl rfl (fun hc => hc) (fun hl => ⟨hl, (h.leader hl).2⟩) hout
    exact ⟨hlog.keep ha hcur, Nat.le_refl _⟩

/-- A run of actions takes the history along. -/
theorem NodeLog.acts (h : NodeLog V a v x.node.core) (ha : a.Ok V)
    (hv : NodeVotes V M a.vote v x.node.core) (hx : CauseOk V M a v x)
    (hacts : Acts x x.node.core c) :
    ∃ a' : History, a.Le a' ∧ Local v a a' ∧ a'.Ok V ∧ NodeLog V a' v c ∧
      NodeVotes V M a'.vote v c ∧ x.node.commitIndex ≤ c.commit := by
  suffices ∃ a' : History, a.Le a' ∧ Local v a a' ∧ a'.Ok V ∧ NodeLog V a' v c ∧
      NodeVotes V M a'.vote v c ∧ x.node.commitIndex ≤ c.commit ∧
      x.node.currentTerm ≤ c.term by
    obtain ⟨a', hle, hl, ha', hlog, hvotes, hcommit, -⟩ := this
    exact ⟨a', hle, hl, ha', hlog, hvotes, hcommit⟩
  induction hacts with
  | refl => exact ⟨a, .refl a, .refl v a, ha, h, hv, Nat.le_refl _, Nat.le_refl _⟩
  | tail hacts hact ih =>
    obtain ⟨b, hle, hl, hb, hlog, hvotes, hcommit, hterm⟩ := ih
    have hxb := hx.of_le hle
    obtain ⟨⟨a', hle', hl', ha', hlog', hvote⟩, hcommit'⟩ := hlog.act hb hvotes hxb hterm hact
    have hvotes' := (hvotes.act
      (fun q hq => ⟨hxb.votes q hq, hxb.dst q hq, (hxb.sound q hq).1⟩)
      (Acts.sameSite hacts).learners.symm hact).2
    exact ⟨a', hle.trans hle', hl.trans hl', ha', hlog', hvote ▸ hvotes',
      Nat.le_trans hcommit hcommit', Nat.le_trans hterm hact.term_le⟩

end Actions

end Nexus
