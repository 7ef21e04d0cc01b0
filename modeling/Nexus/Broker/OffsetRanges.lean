import Mathlib.Data.List.Chain
import Nexus.Broker.PartitionBase

/-!
# The offsets of what is produced

The batches that Produce requests append, as `handle_produce` decodes them from the bytes of the
client, and the offsets that the log gives them. The log assigns the base offset of a batch, but
`last_offset` and with it the end of the log come from `record_count`, which the client chooses: its
CRC is the client's too.

Offsets are 64 bits wide in the code, and those of the model are not bounded. `int64` is what the
code has for an offset of the model: its sums wrap around.
-/

namespace Nexus

open Lib RecordBatch List

/-- The value in two's complement of 64 bits. -/
@[irreducible] def int64 (n : Int) : Int := Int.bmod n (2 ^ 64)

theorem int64_of_lt {n : Int} (hlo : -2 ^ 63 ≤ n) (hhi : n < 2 ^ 63) : int64 n = n := by
  unfold int64
  exact Int.bmod_eq_of_le_mul_two (by norm_num at hlo ⊢; omega) (by norm_num at hhi ⊢; omega)

/-- A sum that is too large for its type comes out negative. -/
theorem int64_neg {n : Int} (hlo : 2 ^ 63 ≤ n) (hhi : n < 2 ^ 64) : int64 n < 0 := by
  unfold int64
  rw [Int.bmod_eq_emod, if_pos (by norm_num at hlo hhi ⊢; omega)]
  norm_num at hlo hhi ⊢
  omega

namespace RecordBatch

/-- The offset is in the range of the batch. -/
def HasOffset (b : RecordBatch) (n : Int) : Prop :=
  int64 b.baseOffset ≤ n ∧ n ≤ int64 b.lastOffset

/-- The batch has a record, and the log can end after it. -/
def Countable (b : RecordBatch) : Prop :=
  1 ≤ b.header.recordCount ∧ b.baseOffset + b.header.recordCount < 2 ^ 63

instance : DecidablePred Countable := fun b =>
  inferInstanceAs (Decidable (1 ≤ b.header.recordCount ∧ _))

/-- What `decode` reads is an `int32`. -/
theorem recordCount_decode {data : Bytes} {b : RecordBatch} (h : decode data = .ok b) :
    -2 ^ 31 ≤ b.header.recordCount ∧ b.header.recordCount < 2 ^ 31 := by
  unfold decode at h
  split at h
  · cases h
  dsimp only at h
  split at h
  · cases h
  split at h
  · cases h
  split at h
  · cases h
  · have hcount : b.header.recordCount = loadS 4 data 32 := by rw [← Except.ok.inj h]
    have hlo := @Int.le_bmod (loadU 4 data 32) (256 ^ 4) (by decide)
    have hhi := @Int.bmod_lt (loadU 4 data 32) (256 ^ 4) (by decide)
    rw [hcount, loadS]
    norm_num at hlo hhi ⊢
    omega

end RecordBatch

section Chain

variable {o : Int} {bs : List RecordBatch}

theorem Chain.consecutive (h : Chain o bs) :
    bs.IsChain fun a b => b.baseOffset = a.lastOffset + 1 := by
  induction bs generalizing o with
  | nil => exact .nil
  | cons b bs ih =>
    refine isChain_cons.mpr ⟨fun c hc => ?_, ih h.2.2⟩
    cases bs with
    | nil => cases hc
    | cons c' bs =>
      cases hc
      exact h.2.2.1

theorem Chain.separate (h : Chain o bs) : bs.Pairwise fun a b => a.lastOffset < b.baseOffset := by
  induction bs generalizing o with
  | nil => exact .nil
  | cons b bs ih =>
    refine pairwise_cons.mpr ⟨fun c hc => ?_, ih h.2.2⟩
    exact Int.lt_of_add_one_le (h.2.2.le_baseOffset c hc)

end Chain

namespace PartitionBase

open Lawful

/-- A Produce request, and what the disk does meanwhile. -/
structure ProduceCall (ι : Type) where
  io : ι
  acks : Acks := .leader
  bytes : Bytes

section Calls

variable {σ ι : Type} [PartitionBase σ ι] [Lawful σ]

def ProduceCall.request (c : ProduceCall ι) : ProduceRequest :=
  { acks := c.acks, batch := RecordBatch.decode c.bytes }

/-- The partition after the call. -/
def called (p : σ) (c : ProduceCall ι) : σ := serve p (.produce c.io c.request)

def answered (p : σ) (c : ProduceCall ι) : ProduceResponse :=
  (handleProduce (some p) c.io c.request).2

/-- The batches that the calls append. -/
def appended (p : σ) : List (ProduceCall ι) → List RecordBatch
  | [] => []
  | c :: cs => (contents (called p c)).drop (contents p).length ++ appended (called p c) cs

/-- A call that is answered without error and appends moves the end of the log up. -/
def Advances (p : σ) (c : ProduceCall ι) : Prop :=
  (answered p c).errorCode = .none → contents (called p c) ≠ contents p →
    int64 (logEndOffset p) < int64 (logEndOffset (called p c))

/-- No offset is given twice. -/
structure OffsetsFresh (p : σ) (cs : List (ProduceCall ι)) : Prop where
  advances : Along called Advances p cs
  nonempty : ∀ b ∈ appended p cs, int64 b.baseOffset ≤ int64 b.lastOffset
  disjoint : (appended p cs).Pairwise fun a b => ∀ n, ¬ (a.HasOffset n ∧ b.HasOffset n)
  contiguous : (appended p cs).IsChain fun a b => int64 b.baseOffset = int64 a.lastOffset + 1

/-- A produce keeps the log, or appends the batch where the log ends. -/
class Appending (σ : Type) {ι : outParam Type} [PartitionBase σ ι] [Lawful σ] : Prop where
  logEndOffset_setProtocol (p : σ) (proto : WireProtocol) :
    logEndOffset (setProtocol p proto) = logEndOffset p
  produce_cases (p : σ) (io : ι) (batch : RecordBatch) :
    contents (produce p io batch).1 = contents p ∧
        logEndOffset (produce p io batch).1 = logEndOffset p ∨
      contents (produce p io batch).1 = contents p ++ [batch.rebase (logEndOffset p)] ∧
        logEndOffset (produce p io batch).1 = logEndOffset p + batch.header.recordCount ∧
        (produce p io batch).2 = .ok (logEndOffset p + batch.header.recordCount - 1)

end Calls

instance : Appending Partition where
  logEndOffset_setProtocol _ _ := rfl
  produce_cases p fails batch := by
    rcases p.takes_produceIo fails batch with h | h
    · exact .inl ⟨congrArg (fun l => flat l.segments) h, congrArg PartitionLog.logEndOffset h⟩
    · exact .inr h

instance : Appending ReplicatedPartition where
  logEndOffset_setProtocol _ _ := rfl
  produce_cases p io batch := by
    rcases p.takes_produce io batch with h | h
    · exact .inl ⟨congrArg (fun l => flat l.segments) h, congrArg PartitionLog.logEndOffset h⟩
    · exact .inr h

section Ranges

variable {σ ι : Type} [PartitionBase σ ι] [Lawful σ] [Appending σ] {p : σ}

open Appending

variable {cs : List (ProduceCall ι)} {b : RecordBatch}

/-- What a call does: nothing to the log, or it appends the batch of its bytes where the log ends
and is answered with that offset. -/
theorem called_cases (p : σ) (c : ProduceCall ι) :
    contents (called p c) = contents p ∧ logEndOffset (called p c) = logEndOffset p ∨
      ∃ batch, decode c.bytes = .ok batch ∧
        contents (called p c) = contents p ++ [batch.rebase (logEndOffset p)] ∧
        logEndOffset (called p c) = logEndOffset p + batch.header.recordCount ∧
        answered p c = { baseOffset := logEndOffset p } := by
  unfold called answered serve handleProduce ProduceCall.request
  dsimp only
  cases hdecode : decode c.bytes with
  | error e => exact .inl ⟨rfl, rfl⟩
  | ok batch =>
    dsimp only
    cases hclaim : claimProtocol p .native with
    | error e => exact .inl ⟨rfl, rfl⟩
    | ok claimed =>
      obtain ⟨hcontents, hend⟩ : contents claimed = contents p ∧
          logEndOffset claimed = logEndOffset p := by
        unfold claimProtocol at hclaim
        split at hclaim
        · rw [← Except.ok.inj hclaim]
          exact ⟨contents_setProtocol .., logEndOffset_setProtocol ..⟩
        · cases hclaim
      dsimp only
      rcases produce_cases claimed c.io batch with ⟨hsame, hkeep⟩ | ⟨hadd, hmove, hok⟩
      · refine .inl ?_
        split <;> exact ⟨hsame.trans hcontents, hkeep.trans hend⟩
      · rw [hcontents, hend] at hadd
        rw [hend] at hmove hok
        have hbase : logEndOffset p + batch.header.recordCount - 1 - batch.header.recordCount + 1 =
            logEndOffset p := by omega
        refine .inr ⟨batch, rfl, ?_⟩
        rw [hok]
        dsimp only
        rw [hbase]
        exact ⟨hadd, hmove, rfl⟩

/-- The batches start one after another from the end of the log on. -/
theorem chain_appended (h : ∀ b ∈ appended p cs, 1 ≤ b.header.recordCount) :
    Chain (logEndOffset p) (appended p cs) := by
  induction cs generalizing p with
  | nil => trivial
  | cons c cs ih =>
    rw [appended] at h ⊢
    have hrest := ih fun b hb => h b (mem_append_right _ hb)
    rcases called_cases p c with ⟨hsame, hend⟩ | ⟨batch, -, hadd, hend, -⟩
    · rw [hsame, drop_length, nil_append]
      exact hend ▸ hrest
    · rw [hadd, drop_left] at h ⊢
      refine ⟨rfl, h _ mem_cons_self, ?_⟩
      rw [hend] at hrest
      rw [lastOffset_rebase, Int.sub_add_cancel]
      exact hrest

/-- The offsets that a countable batch gets are numbers of 64 bits. -/
theorem int64_offsets (hlo : 0 ≤ b.baseOffset) (h : b.Countable) :
    int64 b.baseOffset = b.baseOffset ∧ int64 b.lastOffset = b.lastOffset := by
  obtain ⟨hcount, hhi⟩ := h
  unfold baseOffset at hlo hhi ⊢
  unfold lastOffset
  norm_num at hhi
  exact ⟨int64_of_lt (by norm_num; omega) (by norm_num; omega),
    int64_of_lt (by norm_num; omega) (by norm_num; omega)⟩

theorem along_advances (hlo : 0 ≤ logEndOffset p) (hhi : logEndOffset p < 2 ^ 63)
    (h : ∀ b ∈ appended p cs, b.Countable) : Along called Advances p cs := by
  induction cs generalizing p with
  | nil => trivial
  | cons c cs ih =>
    rw [appended] at h
    have hrest : ∀ b ∈ appended (called p c) cs, b.Countable := fun b hb =>
      h b (mem_append_right _ hb)
    rcases called_cases p c with ⟨hsame, hend⟩ | ⟨batch, -, hadd, hend, -⟩
    · exact ⟨fun _ hne => absurd hsame hne, ih (hend ▸ hlo) (hend ▸ hhi) hrest⟩
    · rw [hadd, drop_left] at h
      obtain ⟨hcount, hsum⟩ : 1 ≤ batch.header.recordCount ∧
          logEndOffset p + batch.header.recordCount < 2 ^ 63 := h _ mem_cons_self
      refine ⟨fun _ _ => ?_, ih ?_ ?_ hrest⟩
      · rw [hend, int64_of_lt (Int.le_trans (by decide) hlo) hhi,
          int64_of_lt (by norm_num; omega) hsum]
        omega
      · rw [hend]
        omega
      · rw [hend]
        exact hsum

/-- The end of the log only moves up over a batch with a record, within its 64 bits. -/
theorem countable_of_advances {o : Int} (hlo : 0 ≤ o) (hhi : o < 2 ^ 63)
    (hcount : -2 ^ 31 ≤ b.header.recordCount ∧ b.header.recordCount < 2 ^ 31)
    (hend : int64 o < int64 (o + b.header.recordCount)) : (b.rebase o).Countable := by
  obtain ⟨hcmin, hcmax⟩ := hcount
  rw [int64_of_lt (Int.le_trans (by decide) hlo) hhi] at hend
  have hsum : o + b.header.recordCount < 2 ^ 63 := by
    by_contra hge
    have := int64_neg (Int.not_lt.mp hge) (by norm_num at hhi hcmax ⊢; omega)
    omega
  rw [int64_of_lt (by norm_num at hcmin ⊢; omega) hsum] at hend
  refine ⟨?_, hsum⟩
  change 1 ≤ b.header.recordCount
  omega

theorem countable_appended (hlo : 0 ≤ logEndOffset p) (hhi : logEndOffset p < 2 ^ 63)
    (hadv : Along called Advances p cs) : ∀ b ∈ appended p cs, b.Countable := by
  induction cs generalizing p with
  | nil => exact nofun
  | cons c cs ih =>
    rw [appended]
    obtain ⟨hfirst, hnext⟩ := hadv
    rcases called_cases p c with ⟨hsame, hend⟩ | ⟨batch, hdecode, hadd, hend, hok⟩
    · rw [hsame, drop_length, nil_append]
      exact ih (hend ▸ hlo) (hend ▸ hhi) hnext
    · rw [hadd, drop_left]
      have hmoved := hfirst (by rw [hok]) (by rw [hadd]; simp)
      rw [hend] at hmoved
      have hbatch := countable_of_advances hlo hhi (recordCount_decode hdecode) hmoved
      intro b hb
      rcases mem_cons.mp hb with rfl | hb
      · exact hbatch
      · obtain ⟨hpos, hsum⟩ : 1 ≤ batch.header.recordCount ∧
          logEndOffset p + batch.header.recordCount < 2 ^ 63 := hbatch
        exact ih (by rw [hend]; omega) (by rw [hend]; exact hsum) hnext b hb

/-- No offset is given twice if and only if every batch that is appended has a record and the log
can end after it. -/
theorem offsetsFresh_iff (hlo : 0 ≤ logEndOffset p) (hhi : logEndOffset p < 2 ^ 63)
    (cs : List (ProduceCall ι)) :
    OffsetsFresh p cs ↔ ∀ b ∈ appended p cs, b.Countable := by
  refine ⟨fun h => countable_appended hlo hhi h.advances, fun h => ?_⟩
  have hchain := chain_appended fun b hb => (h b hb).1
  have hint : ∀ b ∈ appended p cs,
      int64 b.baseOffset = b.baseOffset ∧ int64 b.lastOffset = b.lastOffset := fun b hb =>
    int64_offsets (Int.le_trans hlo (hchain.le_baseOffset b hb)) (h b hb)
  refine ⟨along_advances hlo hhi h, fun b hb => ?_, ?_, ?_⟩
  · rw [(hint b hb).1, (hint b hb).2]
    exact hchain.baseOffset_le_lastOffset hb
  · refine hchain.separate.imp_of_mem fun ha hb hlt n => ?_
    rintro ⟨hn, hn'⟩
    have hlast := hn.2
    have hbase := hn'.1
    rw [(hint _ ha).2] at hlast
    rw [(hint _ hb).1] at hbase
    omega
  · refine hchain.consecutive.imp_of_mem_imp fun a b ha hb hnext => ?_
    rw [(hint a ha).2, (hint b hb).1]
    exact hnext

end Ranges

/-- A batch with a number of records of the client's choice, in a request to a local partition. -/
def claiming (count : Int) : ProduceCall Bool :=
  { io := false, bytes := (RecordBatch.mk { recordCount := count } [7]).encode }

/-- A batch of two records, one of one, and bytes that are no batch. -/
theorem offsetsFresh_claiming :
    OffsetsFresh ({ log := .create {} } : Partition)
      [claiming 2, claiming 1, { io := false, bytes := [1, 2, 3] }] := by
  rw [offsetsFresh_iff (by decide) (by decide)]
  decide +kernel

/-- After a batch that claims to have `-1` records the log ends one offset earlier, and the next
batch gets an offset of the first one. -/
theorem offset_given_twice :
    let p : Partition := { log := .create {} }
    let calls := [claiming 2, claiming (-1), claiming 1]
    (appended p calls).map (fun b => (b.baseOffset, b.lastOffset)) = [(0, 1), (2, 0), (1, 1)] ∧
      ¬ OffsetsFresh p calls := by
  have hranges : (appended ({ log := .create {} } : Partition)
      [claiming 2, claiming (-1), claiming 1]).map (fun b => (b.baseOffset, b.lastOffset)) =
      [(0, 1), (2, 0), (1, 1)] := by decide +kernel
  refine ⟨hranges, fun h => ?_⟩
  have hmem : (2, 0) ∈ (appended ({ log := .create {} } : Partition)
      [claiming 2, claiming (-1), claiming 1]).map (fun b => (b.baseOffset, b.lastOffset)) := by
    rw [hranges]
    decide
  obtain ⟨b, hb, heq⟩ := List.mem_map.mp hmem
  obtain ⟨hbase, hlast⟩ := Prod.mk.inj heq
  have hle := h.nonempty b hb
  rw [hbase, hlast, int64_of_lt (by decide) (by decide), int64_of_lt (by decide) (by decide)] at hle
  exact absurd hle (by decide)

end PartitionBase

end Nexus
