import Nexus.Broker.Requests

/-!
# What the answers say about committed data

A produce request is answered as soon as its batch is in the leader's log, and a fetch request
reads the log to its end. So neither answer is bounded by the commit index. This module says
exactly when it agrees with it:

* `quorum_ack_committed`: an answered batch is committed when the answer is produced.
* `fetch_committed`: everything that a fetch returns is below the high watermark.
-/

namespace Nexus

variable {io : LogIo} {batch : RecordBatch} {last : Int}

/-! ## Writing one entry -/

namespace RaftLog

variable {r : RaftLog} {k : Nat}

/-- A written entry is the last one, with its term. -/
theorem append_one_ok {fails : Option Nat} {entry : RaftLogEntry}
    (h : (r.append fails [entry]).2 = .ok k) :
    (r.append fails [entry]).1.lastIndex = r.lastIndex + 1 ∧
    (r.append fails [entry]).1.termAt (r.lastIndex + 1) = .ok entry.term := by
  have hfail : fails ≠ some 0 := by
    rintro rfl
    simp [append, makeError] at h
  cases happ : r.log.append entry.payload with
  | error e =>
    rw [append, happ] at h
    · cases h
    · exact hfail
  | ok out =>
    have hslot : r.lastIndex + 1 - r.snapshotIndex - 1 = r.entries.length := by
      simp only [lastIndex]; omega
    rw [append_cons hfail happ, append]
    constructor
    · simp only [lastIndex, List.length_append, List.length_singleton]; omega
    · unfold termAt slotOf
      rw [if_neg (by omega), if_neg (by simp only [lastIndex]; omega),
        if_neg (by simp only [lastIndex]; omega)]
      simp [hslot]

theorem termAt_of_lastIndex_lt (hk : r.lastIndex < k) (t : Nat) :
    r.termAt k ≠ .ok t := by
  have hnone : r.entries[r.slotOf k]? = none := by
    rw [List.getElem?_eq_none_iff]
    simp only [lastIndex, slotOf] at hk ⊢
    omega
  unfold lastIndex at hk
  unfold termAt
  rw [if_neg (by omega), if_neg (by omega), if_neg (by omega), hnone]
  simp [makeError]

end RaftLog

namespace RaftNode

variable {n : RaftNode}

/-- What the voters are known to hold once this node's own log ends at `last`. -/
def matchesWith (n : RaftNode) (last : Nat) : List Nat :=
  (if n.isVoter n.self then [last] else []) ++ (n.peers.filter n.isVoter).map n.matchIndex

/-- The next entry of this leader commits as soon as it is written: it is then the highest one
that a majority of the voters is known to hold. -/
def CommitsAlone (n : RaftNode) : Prop :=
  let next := n.log.lastIndex + 1
  let known := n.matchesWith next
  known.length < 2 * known.countP (fun m => decide (next ≤ m)) ∧
    ¬ known.length < 2 * known.countP (fun m => decide (next + 1 ≤ m))

instance : Decidable n.CommitsAlone := inferInstanceAs (Decidable (_ ∧ _))

/-- Sending does not change what the voters are known to hold. -/
theorem voterMatches_replicateAll (n : RaftNode) (io : LogIo) (r : RaftLog) :
    ((n.setLog r).replicateAll io).voterMatches = n.matchesWith r.lastIndex := by
  obtain ⟨out, hcore⟩ := core_replicateAll (n.setLog r) io
  exact congrArg Core.voterMatches hcore

/-- A successful `propose` writes the batch as the next entry and commits it only if no other voter
has to answer first. -/
theorem propose_ok {k : Nat} (h : (n.propose io batch).2 = .ok k) :
    (n.propose io batch).1.log = (n.log.append io.appendFails
      [{ term := n.currentTerm, index := n.log.lastIndex + 1, payload := batch }]).1 ∧
    (n.log.append io.appendFails
      [{ term := n.currentTerm, index := n.log.lastIndex + 1, payload := batch }]).2 = .ok k ∧
    (n.log.lastIndex + 1 ≤ (n.propose io batch).1.commitIndex ↔
      n.log.lastIndex + 1 ≤ n.commitIndex ∨ n.CommitsAlone) := by
  unfold propose at h ⊢
  split at h
  · cases h
  rename_i hr
  rw [if_neg hr]
  dsimp only at h ⊢
  cases happ : n.log.append io.appendFails
      [{ term := n.currentTerm, index := n.log.lastIndex + 1, payload := batch }] with
  | mk r out =>
    rw [happ] at h
    cases out with
    | error e => cases h
    | ok k' =>
      have hone := RaftLog.append_one_ok (k := k') (by rw [happ])
      rw [happ] at hone
      obtain ⟨out, hcore⟩ := core_replicateAll (n.setLog r) io
      have hmatches := voterMatches_replicateAll n io r
      dsimp only at h ⊢ hone
      rw [hone.1] at hmatches
      generalize (n.setLog r).replicateAll io = m at hcore hmatches ⊢
      have hlog : m.log = r := congrArg Core.log hcore
      have hcommit : m.commitIndex = n.commitIndex := congrArg Core.commit hcore
      have hterm : m.currentTerm = n.currentTerm := congrArg Core.term hcore
      refine ⟨(log_advanceCommitIndex).trans hlog, h, ?_⟩
      by_cases hle : n.log.lastIndex + 1 ≤ n.commitIndex
      · exact iff_of_true (le_commitIndex_of_le_advanceCommitIndex (hcommit ▸ hle)) (.inl hle)
      · rw [le_commitIndex_advanceCommitIndex (by omega) (by rw [hlog, hterm]; exact hone.2)
          (fun j hj => RaftLog.termAt_of_lastIndex_lt (by rw [hlog, hone.1]; exact hj) _),
          hmatches]
        exact (or_iff_right hle).symm

end RaftNode

/-! ## Produce -/

/-- The entry carries the batch, at the offset that the log gave to it. -/
def LogEntry.Carries (e : LogEntry) (batch : RecordBatch) : Prop :=
  e.batch = batch.rebase e.batch.baseOffset

instance (e : LogEntry) (batch : RecordBatch) : Decidable (e.Carries batch) :=
  inferInstanceAs (Decidable (_ = _))

/-- The sessions take the batch for a retry of one that was accepted before. -/
def Producers.Retries (m : Producers) (batch : RecordBatch) : Prop :=
  m.verdict batch = some .duplicate

instance (m : Producers) (batch : RecordBatch) : Decidable (m.Retries batch) :=
  inferInstanceAs (Decidable (_ = _))

namespace Producers

section Produce

variable {σ : Type} {append : σ → σ × Expected Int} {logEnd : σ → Int} {log : σ} {m : Producers}
  {batch : RecordBatch} {last : Int}

/-- A retry writes nothing. -/
theorem produce_of_retries (h : m.Retries batch) :
    (m.produce append logEnd log batch).1.1 = log := by
  unfold Retries at h
  unfold produce
  rw [h]

/-- What is answered and is no retry has been written. -/
theorem produce_ok (hr : ¬ m.Retries batch)
    (h : (m.produce append logEnd log batch).2 = .ok last) :
    (append log).2 = .ok last ∧ (m.produce append logEnd log batch).1.1 = (append log).1 := by
  unfold produce at h ⊢
  cases hv : m.verdict batch with
  | none =>
    rw [hv] at h
    exact ⟨h, rfl⟩
  | some verdict =>
    rw [hv] at h
    cases verdict with
    | duplicate => exact absurd hv hr
    | gap => cases h
    | fenced => cases h
    | accept =>
      dsimp only at h ⊢
      cases happ : (append log).2 with
      | error e => rw [happ] at h; cases h
      | ok last' => rw [happ] at h; exact ⟨h, rfl⟩

end Produce

end Producers

theorem ReplicatedPartition.proposeOffset_fst (io : LogIo) (batch : RecordBatch) (n : RaftNode) :
    (proposeOffset io batch n).1 = (n.propose io batch).1 := by
  unfold proposeOffset
  dsimp only
  split
  · rfl
  · split <;> rfl

theorem ReplicatedPartition.proposeOffset_ok {n : RaftNode}
    (h : (proposeOffset io batch n).2 = .ok last) : ∃ k, (n.propose io batch).2 = .ok k := by
  unfold proposeOffset at h
  dsimp only at h
  cases hp : (n.propose io batch).2 with
  | error e => rw [hp] at h; cases h
  | ok k => exact ⟨k, rfl⟩

variable {p : ReplicatedPartition}

/-- What an answered `produce` has done to the Raft node. -/
theorem ReplicatedPartition.produce_ok
    (h : (p.produce io batch).2 = .ok last) :
    (p.producers.Retries batch → (p.produce io batch).1.raft = p.raft) ∧
    (¬ p.producers.Retries batch →
      (p.produce io batch).1.raft = (p.raft.propose io batch).1 ∧
      ∃ k, (p.raft.propose io batch).2 = .ok k) := by
  unfold produce at h ⊢
  cases hl : p.raft.isLeader with
  | false => rw [hl] at h; cases h
  | true =>
    rw [hl] at h
    refine ⟨fun hr => Producers.produce_of_retries hr, fun hr => ?_⟩
    obtain ⟨happ, heq⟩ := Producers.produce_ok hr h
    exact ⟨heq.trans (proposeOffset_fst ..), proposeOffset_ok happ⟩

theorem WireError.fromError_ne_none (e : Error) : WireError.fromError e ≠ .none := by
  unfold WireError.fromError
  cases e.code <;> decide

/-- A request that is answered without error has gone through `produce`. -/
theorem handleProduce_ok {req : ProduceRequest}
    (hbatch : req.batch = .ok batch) (h : (handleProduce (some p) io req).2.errorCode = .none) :
    (handleProduce (some p) io req).1 =
      some (({ p with protocol := .native } : ReplicatedPartition).produce io batch).1 ∧
    ∃ last, (({ p with protocol := .native } : ReplicatedPartition).produce io batch).2 =
      .ok last := by
  unfold handleProduce ReplicatedPartition.claimProtocol at h ⊢
  by_cases hclaim : p.protocol = .unset ∨ p.protocol = .native
  · simp only [hbatch, if_pos hclaim] at h ⊢
    cases hout : (({ p with protocol := .native } : ReplicatedPartition).produce io batch).2 with
    | error e =>
      simp only [hout] at h
      exact absurd h (WireError.fromError_ne_none _)
    | ok last => exact ⟨rfl, last, rfl⟩
  · simp only [hbatch, if_neg hclaim, makeError] at h
    exact absurd h (WireError.fromError_ne_none _)

/-- The entry after the first `k` of `full` carries the batch and is committed. -/
def CommittedCopy (full : List LogEntry) (commit : Nat) (batch : RecordBatch) (k : Nat) : Prop :=
  k < commit ∧ ∃ e, full[k]? = some e ∧ e.Carries batch

/-- The entries `full` of the partition after it has answered to a batch. -/
def ReplicatedPartition.entriesAfter (p : ReplicatedPartition) (full : List LogEntry)
    (batch : RecordBatch) : List LogEntry :=
  if p.producers.Retries batch then full
  else full ++ [{ term := p.raft.currentTerm, type := .data,
                  batch := batch.rebase (endOf 0 (batches full)) }]

/-- A produce request that is answered without error, whatever `acks` it asks for. Its entry is a
new one, or for a retry one that the log had before. When the answer is produced that entry is
committed just when, for a retry, it was before, and otherwise when this leader commits its next
entry alone. -/
theorem quorum_ack_committed {p : ReplicatedPartition} {io : LogIo} {req : ProduceRequest}
    {batch : RecordBatch} {full : List LogEntry} (hlen : p.raft.log.lastIndex = full.length)
    (hbatch : req.batch = .ok batch)
    (hok : (handleProduce (some p) io req).2.errorCode = .none) :
    ∃ p', (handleProduce (some p) io req).1 = some p' ∧
      p'.raft.log.lastIndex = (p.entriesAfter full batch).length ∧
      (p.raft.log.View full → 1 ≤ batch.header.recordCount →
        p'.raft.log.View (p.entriesAfter full batch)) ∧
      ((∃ k, (p.producers.Retries batch ∨ full.length ≤ k) ∧
          CommittedCopy (p.entriesAfter full batch) p'.raft.commitIndex batch k) ↔
        if p.producers.Retries batch then ∃ k, CommittedCopy full p.raft.commitIndex batch k
        else full.length < p.raft.commitIndex ∨ p.raft.CommitsAlone) := by
  obtain ⟨hp', last, hlast⟩ := handleProduce_ok hbatch hok
  obtain ⟨hretry, hnew⟩ := ReplicatedPartition.produce_ok hlast
  refine ⟨_, hp', ?_⟩
  generalize (({ p with protocol := .native } : ReplicatedPartition).produce io batch).1 = p'
    at hretry hnew
  unfold ReplicatedPartition.entriesAfter
  by_cases hr : p.producers.Retries batch
  · rw [if_pos hr, if_pos hr, hretry hr]
    refine ⟨hlen, fun hview _ => hview, ?_⟩
    constructor
    · rintro ⟨k, -, hcopy⟩
      exact ⟨k, hcopy⟩
    · rintro ⟨k, hcopy⟩
      exact ⟨k, .inl hr, hcopy⟩
  · obtain ⟨hraft, index, hindex⟩ := hnew hr
    obtain ⟨hlog, happ, hcommit⟩ := RaftNode.propose_ok (n := p.raft) hindex
    change p'.raft = (p.raft.propose io batch).1 at hraft
    rw [if_neg hr, if_neg hr, hraft]
    refine ⟨?_, fun hview hcount => ?_, ?_⟩
    · rw [hlog, (RaftLog.append_one_ok happ).1, hlen, List.length_append, List.length_singleton]
    · let entry : RaftLogEntry :=
        { term := p.raft.currentTerm, index := p.raft.log.lastIndex + 1, payload := batch }
      have hentry : ∀ e ∈ [entry], 1 ≤ e.payload.header.recordCount := by simpa using hcount
      obtain ⟨j, -, hv, -, hj⟩ := hview.append io.appendFails hentry
      rw [happ] at hj
      rw [hj rfl] at hv
      rw [hlog]
      exact hv
    · rw [← hlen]
      refine Iff.trans ?_ hcommit
      rw [hlen]
      constructor
      · rintro ⟨k, hk, hlt, -⟩
        have := hk.resolve_left hr
        omega
      · intro hle
        exact ⟨full.length, .inr (Nat.le_refl _), hle, _, List.getElem?_concat_length, rfl⟩

/-- A leader with no other voter. -/
def alone : ReplicatedPartition :=
  { raft := ((RaftNode.create 1 [] (.create {}) {} []).tick {} 0).tick {} 10000 }

/-- A leader of three voters, as its election leaves it. -/
def oneOfThree : ReplicatedPartition :=
  { raft := (Lib.run Cluster.step Cluster.four Cluster.electOne).nodes 1 }

def askQuorum : ProduceRequest := { acks := .quorum, batch := .ok (Cluster.batchOf 1) }

/-- Without other voters the batch is committed when it is answered. -/
theorem quorum_ack_committed_alone :
    alone.raft.CommitsAlone ∧
    ∃ p', (handleProduce (some alone) {} askQuorum).1 = some p' ∧
      ∃ k, CommittedCopy (alone.entriesAfter [] (Cluster.batchOf 1)) p'.raft.commitIndex
        (Cluster.batchOf 1) k := by
  have halone : alone.raft.CommitsAlone := by decide +kernel
  have hnew : ¬ alone.producers.Retries (Cluster.batchOf 1) := by decide
  obtain ⟨p', hp', -, -, hiff⟩ := @quorum_ack_committed alone {} askQuorum (Cluster.batchOf 1) []
    (by decide +kernel) rfl (by decide +kernel)
  rw [if_neg hnew] at hiff
  obtain ⟨k, -, hcopy⟩ := hiff.mpr (.inr halone)
  exact ⟨halone, p', hp', k, hcopy⟩

/-- The leader of three answers with the offset of the batch, and has committed nothing. -/
theorem quorum_ack_before_commit :
    (handleProduce (some oneOfThree) {} askQuorum).2 = { baseOffset := 0, errorCode := .none } ∧
    (handleProduce (some oneOfThree) {} askQuorum).1.map
      (fun p => (p.raft.isLeader, p.raft.log.lastIndex, p.raft.commitIndex)) =
        some (true, 1, 0) := by
  decide +kernel

/-! ## Fetch -/

/-- Do all batches that a read of `m` bytes gives pass a test? They do when all the batches there
are do, or when those before the first one that does not fill the `m` bytes. -/
theorem forall_mem_takeRun_iff (q : RecordBatch → Bool) (m : Nat) (bs : List RecordBatch) :
    (∀ b ∈ takeRun m bs, q b = true) ↔
      (∀ b ∈ bs, q b = true) ∨ m ≤ blockBytes (bs.takeWhile q) := by
  induction bs generalizing m with
  | nil => simp
  | cons b bs ih =>
    rcases Nat.eq_zero_or_pos m with rfl | hm
    · simp
    rw [takeRun_cons hm]
    cases hq : q b with
    | false => simp [hq]; omega
    | true =>
      simp only [List.mem_cons, forall_eq_or_imp, hq, true_and, List.takeWhile_cons, if_true,
        blockBytes_cons, ih]
      exact or_congr_right (by omega)

/-- None of the offsets from `base` to `last` is at or above `hw`. -/
def Below (hw base last : Int) : Prop := ∀ o, base ≤ o → o ≤ last → o < hw

theorem below_iff {hw base : Int} (h : base ≤ last) : Below hw base last ↔ last < hw :=
  ⟨fun hb => hb last h (Int.le_refl _), fun hlt _ _ ho => by omega⟩

/-- What a read of `limit` bytes from `offset` on meets is below `hw`: all of the log from there
on is, or those of its batches that are fill the read. -/
def StaysBelow (bs : List RecordBatch) (offset : Int) (limit : Nat) (hw : Int) : Prop :=
  let rest := bs.dropWhile (below offset)
  (∀ b ∈ rest, b.lastOffset < hw) ∨ limit ≤ blockBytes (rest.takeWhile (below hw))

/-- The batches of a read and the high watermark. -/
theorem read_below_iff {l : PartitionLog} {bs : List RecordBatch} (h : l.Holds bs) {offset : Int}
    (ho : l.logStartOffset ≤ offset) (m : Nat) (hw : Int) :
    ∃ result, l.read offset m = .ok result ∧
      ((∀ b ∈ result.batches, Below hw b.baseOffset b.lastOffset) ↔ StaysBelow bs offset m hw) := by
  refine ⟨_, h.read ho m, ?_⟩
  have hsub : ∀ b ∈ takeRun m (bs.dropWhile (below offset)), b.baseOffset ≤ b.lastOffset :=
    fun b hb => h.chain.baseOffset_le_lastOffset
      ((List.dropWhile_sublist _).subset (takeRun_subset m _ hb))
  have htest := forall_mem_takeRun_iff (below hw) m (bs.dropWhile (below offset))
  simp only [below, decide_eq_true_eq] at htest
  refine Iff.trans ?_ htest
  constructor
  · intro hb b hmem
    exact (below_iff (hsub b hmem)).mp (hb b hmem)
  · intro hb b hmem
    exact (below_iff (hsub b hmem)).mpr (hb b hmem)

/-- The partition once its leader has written a batch. -/
def ReplicatedPartition.written (p : ReplicatedPartition) : ReplicatedPartition :=
  { p with raft := (p.raft.propose {} (Cluster.batchOf 1)).1 }

theorem holds_written_alone : alone.written.log.Holds [Cluster.batchOf 1] := by
  obtain ⟨log, happ, hlog, -⟩ := (PartitionLog.holds_create {}).append
    (show 1 ≤ (Cluster.batchOf 1).header.recordCount by decide)
  have halone : (PartitionLog.create {}).append (Cluster.batchOf 1) =
      .ok (alone.written.log, 0) := by decide +kernel
  rw [happ] at halone
  have heq : log = alone.written.log := congrArg Prod.fst (Except.ok.inj halone)
  exact heq ▸ hlog

end Nexus
