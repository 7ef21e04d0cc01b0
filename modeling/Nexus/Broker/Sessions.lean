import Nexus.Lib.Run
import Nexus.Broker.ReplicatedPartition
import Nexus.Storage.Contents

/-!
# Producer sessions and the log

The sessions of a partition against the log that it wrote while it had them (`Producers.Knows`):
each session knows the newest epoch of its producer and how far the batches of that epoch go. A
batch that is accepted goes on where they end, so the batches of one producer and epoch carry
consecutive sequence numbers from 0 on (`Partition.produce_exactlyOnce`).
-/

namespace Nexus

open Lib Function List

/-! ## Sequence numbers -/

/-- The batches of a producer with an epoch. -/
def batchesOf (id epoch : Int) (bs : List RecordBatch) : List RecordBatch :=
  bs.filter fun b => b.header.producerId = id ∧ b.header.producerEpoch = epoch

/-- The batches carry consecutive sequence numbers, from `n` on. -/
def Sequenced (n : Int) : List RecordBatch → Prop
  | [] => True
  | b :: bs => b.header.baseSequence = n ∧ 1 ≤ b.header.recordCount ∧
    Sequenced (n + b.header.recordCount) bs

/-- The sequence number after those of the batches. -/
def seqEnd (n : Int) : List RecordBatch → Int
  | [] => n
  | b :: bs => seqEnd (n + b.header.recordCount) bs

@[simp] theorem sequenced_nil (n : Int) : Sequenced n [] := trivial

@[simp] theorem sequenced_cons (n : Int) (b : RecordBatch) (bs : List RecordBatch) :
    Sequenced n (b :: bs) ↔ b.header.baseSequence = n ∧ 1 ≤ b.header.recordCount ∧
      Sequenced (n + b.header.recordCount) bs := Iff.rfl

@[simp] theorem seqEnd_nil (n : Int) : seqEnd n [] = n := rfl

@[simp] theorem seqEnd_cons (n : Int) (b : RecordBatch) (bs : List RecordBatch) :
    seqEnd n (b :: bs) = seqEnd (n + b.header.recordCount) bs := rfl

/-- The sequence number is one of the batch. -/
def RecordBatch.HasSeq (b : RecordBatch) (n : Int) : Prop :=
  b.header.baseSequence ≤ n ∧ n < b.header.baseSequence + b.header.recordCount

theorem seqEnd_append (n : Int) (bs cs : List RecordBatch) :
    seqEnd n (bs ++ cs) = seqEnd (seqEnd n bs) cs := by
  induction bs generalizing n with
  | nil => rfl
  | cons b bs ih => exact ih _

theorem sequenced_append (n : Int) (bs cs : List RecordBatch) :
    Sequenced n (bs ++ cs) ↔ Sequenced n bs ∧ Sequenced (seqEnd n bs) cs := by
  induction bs generalizing n with
  | nil => simp
  | cons b bs ih => simp [ih, and_assoc]

variable {bs : List RecordBatch}

/-- Every number up to the end is one of a batch. -/
theorem Sequenced.exists_hasSeq {n k : Int} (h : Sequenced n bs)
    (hlo : n ≤ k) (hhi : k < seqEnd n bs) : ∃ b ∈ bs, b.HasSeq k := by
  induction bs generalizing n with
  | nil =>
    change k < n at hhi
    omega
  | cons b bs ih =>
    obtain ⟨hbase, hcount, hrest⟩ := h
    by_cases hk : k < n + b.header.recordCount
    · exact ⟨b, mem_cons_self, by rw [hbase]; exact hlo, by rw [hbase]; exact hk⟩
    · obtain ⟨c, hc, hseq⟩ := ih hrest (by omega) hhi
      exact ⟨c, .tail _ hc, hseq⟩

/-- No number is one of two batches. -/
theorem Sequenced.disjoint {n : Int} (h : Sequenced n bs) :
    bs.Pairwise fun a b => ∀ n, ¬ (a.HasSeq n ∧ b.HasSeq n) := by
  have hle : ∀ (n : Int) (bs : List RecordBatch), Sequenced n bs →
      ∀ b ∈ bs, n ≤ b.header.baseSequence := by
    intro n bs
    induction bs generalizing n with
    | nil => simp
    | cons c bs ih =>
      rintro ⟨hbase, hcount, hrest⟩ b hb
      rcases mem_cons.mp hb with rfl | hb
      · omega
      · have := ih _ hrest b hb
        omega
  induction bs generalizing n with
  | nil => exact .nil
  | cons b bs ih =>
    obtain ⟨hbase, hcount, hrest⟩ := h
    refine pairwise_cons.mpr ⟨fun c hc k ⟨hb, hc'⟩ => ?_, ih hrest⟩
    have hlast := hb.2
    have hfirst := hc'.1
    have := hle _ _ hrest c hc
    omega

section BatchesOf

variable {id epoch : Int} {bs : List RecordBatch} {b : RecordBatch}

theorem batchesOf_append (id epoch : Int) (bs cs : List RecordBatch) :
    batchesOf id epoch (bs ++ cs) = batchesOf id epoch bs ++ batchesOf id epoch cs :=
  filter_append ..

theorem batchesOf_singleton (id epoch : Int) (b : RecordBatch) :
    batchesOf id epoch [b] =
      if b.header.producerId = id ∧ b.header.producerEpoch = epoch then [b] else [] := by
  unfold batchesOf
  rw [filter_cons, filter_nil]
  simp only [decide_eq_true_iff]

theorem batchesOf_eq_nil (h : ∀ b ∈ bs, b.header.producerId = id →
    b.header.producerEpoch ≠ epoch) : batchesOf id epoch bs = [] :=
  filter_eq_nil_iff.mpr fun b hb => by
    simp only [decide_eq_true_iff]
    exact fun hid => h b hb hid.1 hid.2

theorem mem_batchesOf : b ∈ batchesOf id epoch bs ↔
    b ∈ bs ∧ b.header.producerId = id ∧ b.header.producerEpoch = epoch := by
  unfold batchesOf
  rw [mem_filter, decide_eq_true_iff]

end BatchesOf

namespace Producers

/-- What the sessions know of a log. -/
structure Knows (m : Producers) (bs : List RecordBatch) : Prop where
  absent : ∀ id, m id = none → ∀ b ∈ bs, b.header.producerId ≠ id
  newest : ∀ id s, m id = some s → ∀ b ∈ bs, b.header.producerId = id →
    b.header.producerEpoch ≤ s.epoch
  seqEnd : ∀ id s, m id = some s → seqEnd 0 (batchesOf id s.epoch bs) = s.lastSequence + 1
  sequenced : ∀ id epoch, Sequenced 0 (batchesOf id epoch bs)
  epochs : bs.Pairwise fun a b => a.header.producerId = b.header.producerId →
    a.header.producerEpoch ≤ b.header.producerEpoch

variable {m : Producers} {bs : List RecordBatch} {batch : RecordBatch}

@[simp] theorem put_put (m : Producers) (s t : ProducerSession) (id : Int) :
    (m.put s id).put t id = m.put t id := update_idem ..

theorem knows_nil : Knows (fun _ => none) [] :=
  ⟨fun _ _ => by simp, fun _ _ h => (by cases h), fun _ _ h => (by cases h), fun _ _ => trivial,
    .nil⟩

theorem put_session_of_some {header : RecordBatchHeader} {s : ProducerSession}
    (hs : m header.producerId = some s) : m.put (m.session header) header.producerId = m := by
  rw [put, session, hs, Option.getD_some, ← hs, update_eq_self]

section

variable (h : m.Knows bs)

include h

/-- A session that a call starts knows nothing yet. -/
theorem Knows.put_session (header : RecordBatchHeader) :
    (m.put (m.session header) header.producerId).Knows bs := by
  cases hm : m header.producerId with
  | some s =>
    rw [put_session_of_some hm]
    exact h
  | none =>
    have hnone := h.absent header.producerId hm
    have hfilter : ∀ epoch, batchesOf header.producerId epoch bs = [] := fun epoch =>
      batchesOf_eq_nil fun b hb hid => absurd hid (hnone b hb)
    refine ⟨fun id hid => ?_, fun id s hid => ?_, fun id s hid => ?_, h.sequenced, h.epochs⟩
    · by_cases heq : id = header.producerId
      · rw [heq, put, update_self] at hid
        cases hid
      · rw [put, update_of_ne heq] at hid
        exact h.absent id hid
    · by_cases heq : id = header.producerId
      · subst heq
        exact fun b hb hb' => absurd hb' (hnone b hb)
      · rw [put, update_of_ne heq] at hid
        exact h.newest id s hid
    · by_cases heq : id = header.producerId
      · subst heq
        rw [put, update_self, session, hm] at hid
        cases hid
        rw [hfilter]
        rfl
      · rw [put, update_of_ne heq] at hid
        exact h.seqEnd id s hid

/-- An accepted batch has the epoch of the session or a newer one, and goes on where the batches of
its epoch end. -/
theorem Knows.seqEnd_of_accept (header : RecordBatchHeader)
    (haccept : (m.session header).check header.producerEpoch header.baseSequence
      header.recordCount = .accept) :
    (∀ b ∈ bs, b.header.producerId = header.producerId →
      b.header.producerEpoch ≤ header.producerEpoch) ∧
    Nexus.seqEnd 0 (batchesOf header.producerId header.producerEpoch bs) =
      header.baseSequence := by
  have hput := h.put_session header
  have hlook : m.put (m.session header) header.producerId header.producerId =
      some (m.session header) := update_self ..
  have hnewest := hput.newest _ _ hlook
  have hend := hput.seqEnd _ _ hlook
  generalize m.session header = s at haccept hnewest hend
  unfold ProducerSession.check at haccept
  split at haccept
  · cases haccept
  split at haccept
  · -- a newer epoch: no batch of it yet
    rename_i hnew
    split at haccept
    · rename_i hzero
      refine ⟨fun b hb hid => Int.le_of_lt (Int.lt_of_le_of_lt (hnewest b hb hid) hnew), ?_⟩
      rw [batchesOf_eq_nil fun b hb hid => ?_, hzero]
      · rfl
      · have := hnewest b hb hid
        omega
    · cases haccept
  · rename_i hlow hhigh
    have hepoch : header.producerEpoch = s.epoch := by omega
    dsimp only at haccept
    split at haccept
    · rename_i hnext
      rw [hepoch, hend, hnext]
      exact ⟨hnewest, rfl⟩
    split at haccept
    · cases haccept
    split at haccept
    · cases haccept
    · cases haccept

/-- What is appended and accepted is known. -/
theorem Knows.accept
    (haccept : (m.session batch.header).check batch.header.producerEpoch batch.header.baseSequence
      batch.header.recordCount = .accept)
    (hseq : 0 ≤ batch.header.baseSequence) (hcount : 1 ≤ batch.header.recordCount)
    (hlast : batch.header.baseSequence + batch.header.recordCount - 1 < 2 ^ 31) (o base : Int) :
    (m.put ((m.session batch.header).accept batch.header.producerEpoch batch.header.baseSequence
      batch.header.recordCount base) batch.header.producerId).Knows (bs ++ [batch.rebase o]) := by
  obtain ⟨hnewest, hend⟩ := h.seqEnd_of_accept batch.header haccept
  have hof : ∀ id epoch, batchesOf id epoch (bs ++ [batch.rebase o]) = batchesOf id epoch bs ++
      if batch.header.producerId = id ∧ batch.header.producerEpoch = epoch then [batch.rebase o]
      else [] := fun id epoch => by
    rw [batchesOf_append, batchesOf_singleton]
    rfl
  refine ⟨fun id hid => ?_, fun id s hid => ?_, fun id s hid => ?_, fun id epoch => ?_, ?_⟩
  · by_cases heq : id = batch.header.producerId
    · rw [heq, put, update_self] at hid
      cases hid
    · rw [put, update_of_ne heq] at hid
      intro b hb
      rcases mem_append.mp hb with hb | hb
      · exact h.absent id hid b hb
      · rw [mem_singleton.mp hb]
        exact Ne.symm heq
  · intro b hb hid'
    by_cases heq : id = batch.header.producerId
    · subst heq
      rw [put, update_self] at hid
      cases hid
      rcases mem_append.mp hb with hb | hb
      · exact hnewest b hb hid'
      · rw [mem_singleton.mp hb]
        exact Int.le_refl _
    · rw [put, update_of_ne heq] at hid
      rcases mem_append.mp hb with hb | hb
      · exact h.newest id s hid b hb hid'
      · rw [mem_singleton.mp hb] at hid'
        exact absurd hid'.symm heq
  · rw [hof]
    by_cases heq : id = batch.header.producerId
    · subst heq
      rw [put, update_self] at hid
      cases hid
      rw [if_pos ⟨rfl, rfl⟩, seqEnd_append]
      change Nexus.seqEnd (Nexus.seqEnd 0 (batchesOf batch.header.producerId
        batch.header.producerEpoch bs)) _ = _
      rw [hend]
      change batch.header.baseSequence + batch.header.recordCount =
        Int.bmod (batch.header.baseSequence + batch.header.recordCount - 1) (2 ^ 32) + 1
      rw [Int.bmod_eq_of_le_mul_two (by omega) (by omega)]
      omega
    · rw [put, update_of_ne heq] at hid
      rw [if_neg fun hand => heq hand.1.symm, append_nil]
      exact h.seqEnd id s hid
  · rw [hof, sequenced_append]
    refine ⟨h.sequenced id epoch, ?_⟩
    split
    · rename_i hand
      obtain ⟨rfl, rfl⟩ := hand
      exact ⟨hend.symm, hcount, trivial⟩
    · trivial
  · refine pairwise_append.mpr ⟨h.epochs, pairwise_singleton _ _, fun b hb c hc => ?_⟩
    rw [mem_singleton.mp hc]
    exact hnewest b hb

/-- What the sessions take for a retry is in the log. -/
theorem Knows.exists_of_duplicate (hseq : 0 ≤ batch.header.baseSequence)
    (hdup : (m.session batch.header).check batch.header.producerEpoch batch.header.baseSequence
      batch.header.recordCount = .duplicate) {n : Int} (hn : batch.HasSeq n) :
    ∃ b ∈ batchesOf batch.header.producerId batch.header.producerEpoch bs, b.HasSeq n := by
  have hput := h.put_session batch.header
  have hend := hput.seqEnd _ _ (show m.put (m.session batch.header) batch.header.producerId
    batch.header.producerId = some (m.session batch.header) from update_self ..)
  obtain ⟨hlo, hhi⟩ := hn
  generalize m.session batch.header = s at hdup hend
  unfold ProducerSession.check at hdup
  split at hdup
  · cases hdup
  split at hdup
  · split at hdup <;> cases hdup
  · rename_i hlow hhigh
    have hepoch : batch.header.producerEpoch = s.epoch := by omega
    dsimp only at hdup
    split at hdup
    · cases hdup
    split at hdup
    · cases hdup
    split at hdup
    · rename_i hle
      rw [hepoch]
      exact (h.sequenced _ _).exists_hasSeq (by omega) (by omega)
    · cases hdup

end

end Producers

/-! ## Calls -/

/-- A batch of an idempotent producer, whose sequence numbers are in the range of their type. -/
def RecordBatch.Numbered (b : RecordBatch) : Prop :=
  0 ≤ b.header.producerId ∧ 0 ≤ b.header.baseSequence ∧ 1 ≤ b.header.recordCount ∧
    b.header.baseSequence + b.header.recordCount - 1 < 2 ^ 31

instance : DecidablePred RecordBatch.Numbered := fun b =>
  inferInstanceAs (Decidable (0 ≤ b.header.producerId ∧ 0 ≤ b.header.baseSequence ∧
    1 ≤ b.header.recordCount ∧ b.header.baseSequence + b.header.recordCount - 1 < 2 ^ 31))

namespace Partition

def batches (p : Partition) : List RecordBatch := flat p.log.segments

/-- The log holds batches that the sessions know. -/
structure Known (p : Partition) : Prop where
  log : p.log.Holds p.batches
  sessions : p.producers.Knows p.batches

variable {p : Partition} {batch : RecordBatch}

/-- What a call does: it appends the batch, or finds it in the log, or refuses it. -/
theorem Known.produce (h : p.Known) (hb : batch.Numbered) :
    (p.produce batch).1.Known ∧
    ((p.produce batch).1.batches = p.batches ∨
      (p.produce batch).1.batches = p.batches ++ [batch.rebase p.log.logEndOffset]) ∧
    ∀ last, (p.produce batch).2 = .ok last → ∀ n, batch.HasSeq n →
      ∃ b ∈ batchesOf batch.header.producerId batch.header.producerEpoch
        (p.produce batch).1.batches, b.HasSeq n := by
  obtain ⟨hid, hseq, hcount, hlast⟩ := hb
  have hput := h.sessions.put_session batch.header
  have hverdict : p.producers.verdict batch = some ((p.producers.session batch.header).check
      batch.header.producerEpoch batch.header.baseSequence batch.header.recordCount) :=
    if_neg (by omega)
  unfold Partition.produce Producers.produce
  rw [hverdict]
  cases hcheck : (p.producers.session batch.header).check batch.header.producerEpoch
    batch.header.baseSequence batch.header.recordCount with
  | fenced => exact ⟨⟨h.log, hput⟩, .inl rfl, fun last hok => by cases hok⟩
  | gap => exact ⟨⟨h.log, hput⟩, .inl rfl, fun last hok => by cases hok⟩
  | duplicate =>
    exact ⟨⟨h.log, hput⟩, .inl rfl, fun last _ n hn =>
      h.sessions.exists_of_duplicate hseq hcheck hn⟩
  | accept =>
    obtain ⟨l', happend, hholds, -⟩ := h.log.append hcount
    have hok : append batch p.log = (l', .ok (batch.rebase p.log.logEndOffset).lastOffset) := by
      unfold append
      rw [happend]
    have hflat : flat l'.segments = p.batches ++ [batch.rebase p.log.logEndOffset] :=
      hholds.blocks
    dsimp only
    rw [hok]
    refine ⟨⟨?_, ?_⟩, .inr hflat, fun last _ n hn => ?_⟩
    · change l'.Holds (flat l'.segments)
      rw [hflat]
      exact hholds
    · change ((p.producers.put _ _).put _ _).Knows (flat l'.segments)
      rw [hflat, Producers.put_put]
      exact h.sessions.accept hcheck hseq hcount hlast _ _
    · refine ⟨batch.rebase p.log.logEndOffset, mem_batchesOf.mpr ⟨?_, rfl, rfl⟩, hn⟩
      change _ ∈ flat l'.segments
      rw [hflat]
      exact mem_append_right _ mem_cons_self

/-- The partition after the calls. -/
def afterCalls (p : Partition) (calls : List RecordBatch) : Partition :=
  run (fun p batch => (p.produce batch).1) p calls

theorem Known.afterCalls (h : p.Known) {calls : List RecordBatch}
    (hcalls : ∀ batch ∈ calls, batch.Numbered) : (p.afterCalls calls).Known := by
  induction calls generalizing p with
  | nil => exact h
  | cons batch calls ih =>
    exact ih (h.produce (hcalls batch mem_cons_self)).1 fun b hb => hcalls b (.tail _ hb)

/-- Whatever producers call with whatever batches, those of one producer and epoch are in the log
once and in order, the epochs of a producer do not go back, and what was answered is in the log. -/
theorem produce_exactlyOnce (hlog : p.log.Holds []) (hnew : p.producers = fun _ => none)
    {calls : List RecordBatch} (hcalls : ∀ batch ∈ calls, batch.Numbered) :
    let q := p.afterCalls calls
    (∀ id epoch, Sequenced 0 (batchesOf id epoch q.batches) ∧
      (batchesOf id epoch q.batches).Pairwise fun a b => ∀ n, ¬ (a.HasSeq n ∧ b.HasSeq n)) ∧
    (q.batches.Pairwise fun a b => a.header.producerId = b.header.producerId →
      a.header.producerEpoch ≤ b.header.producerEpoch) ∧
    ∀ batch : RecordBatch, batch.Numbered →
      ((q.produce batch).1.batches = q.batches ∨
        (q.produce batch).1.batches = q.batches ++ [batch.rebase q.log.logEndOffset]) ∧
      ∀ last, (q.produce batch).2 = .ok last → ∀ n, batch.HasSeq n →
        ∃ b ∈ batchesOf batch.header.producerId batch.header.producerEpoch
          (q.produce batch).1.batches, b.HasSeq n := by
  have hempty : p.batches = [] := hlog.blocks
  have hknown : p.Known := by
    refine ⟨by rw [hempty]; exact hlog, ?_⟩
    rw [hempty, hnew]
    exact Producers.knows_nil
  have hq := hknown.afterCalls hcalls
  refine ⟨fun id epoch => ?_, hq.sessions.epochs, fun batch hb => (hq.produce hb).2⟩
  have hseq := hq.sessions.sequenced id epoch
  exact ⟨hseq, hseq.disjoint⟩

/-- Two batches of producer 7, the first one twice and one after a gap; then a newer epoch, and one
more batch of the older one. -/
def retriedCalls : List RecordBatch :=
  [⟨⟨0, 0, 7, 0, 0, 2⟩, []⟩, ⟨⟨0, 0, 7, 0, 0, 2⟩, []⟩, ⟨⟨0, 0, 7, 0, 3, 1⟩, []⟩,
    ⟨⟨0, 0, 7, 0, 2, 1⟩, []⟩, ⟨⟨0, 0, 7, 1, 0, 1⟩, []⟩, ⟨⟨0, 0, 7, 0, 3, 1⟩, []⟩]

theorem produce_exactlyOnce_retriedCalls :
    let q := afterCalls { log := PartitionLog.create {} } retriedCalls
    q.batches.length = 3 ∧ Sequenced 0 (batchesOf 7 0 q.batches) ∧
      Sequenced 0 (batchesOf 7 1 q.batches) := by
  obtain ⟨hseq, -⟩ := @produce_exactlyOnce { log := PartitionLog.create {} }
    (PartitionLog.holds_create {}) rfl retriedCalls (by decide)
  exact ⟨by decide, (hseq 7 0).1, (hseq 7 1).1⟩

end Partition

end Nexus
