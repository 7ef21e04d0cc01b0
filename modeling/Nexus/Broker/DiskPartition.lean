import Nexus.Broker.PartitionBase
import Nexus.Broker.Sessions
import Nexus.Consensus.FailedCalls

/-!
# Produces over files that may fail

A partition of a single node, where each file operation of an append can fail. The produce path
touches its state in turns, and returns as soon as one of them fails: the protocol is claimed, a
session is started, the block is written, the log end moves, the file is synced, and the session
takes the batch.

- **Append** (`PartitionLog.attemptAppend_cases`): a failed append leaves a log that goes on as
  before, with one exception. When the sync fails the batch is in the log.
- **Failed requests** (`DiskPartition.Spared`): the claim and the session stay as well.
- **Answered requests** (`Producers.Covered`): the sessions know that the sequence numbers from 0 to
  their last one were appended, and nothing about negative ones.
-/

namespace Nexus

open Lib PartitionBase ProducerSession List

/-! ## Append -/

/-- The log with this memory. -/
def LogState.log (s : LogState) (cfg : LogConfig) : PartitionLog where
  cfg := cfg
  older := s.segments.dropLast
  active := s.segments.getLastD (.create s.logEndOffset)
  logStartOffset := s.logStartOffset
  logEndOffset := s.logEndOffset
  recoveryPoint := s.recoveryPoint
  bytesSinceSync := s.bytesSinceSync

namespace PartitionLog

variable {l l' : PartitionLog} {batch : RecordBatch} {fault : FileFault} {e : Error}

theorem log_state (h : l'.cfg = l.cfg) : l'.state.log l.cfg = l' := by
  cases l'
  cases h
  simp [LogState.log, state, segments]

theorem rolled_rolled (l : PartitionLog) : l.rolled.rolled = l.rolled := by
  by_cases h : l.mustRoll = true
  · have hroll : l.rolled = l.rollSegment := if_pos h
    rw [hroll]
    exact if_neg (by simp [mustRoll, rollSegment, Segment.create, Segment.isEmpty,
      Segment.sizeBytes, blockBytes])
  · have hsame : l.rolled = l := if_neg h
    rw [hsame, hsame]

theorem rolled_spec (l : PartitionLog) : l.rolled.cfg = l.cfg ∧
    l.rolled.logEndOffset = l.logEndOffset ∧ flat l.rolled.segments = flat l.segments := by
  unfold rolled
  split
  · exact ⟨rfl, rfl, by simp [rollSegment, segments, Segment.create, Segment.sealSegment]⟩
  · exact ⟨rfl, rfl, rfl⟩

theorem attemptRoll_cases (l : PartitionLog) (fault : FileFault) :
    l.attemptRoll fault = .ok l.rolled ∨ ∃ f, ∃ l' : PartitionLog, l.attemptRoll fault = .error f ∧
      f.left = l'.state ∧ f.stage ≠ some .sync ∧ l'.cfg = l.cfg ∧ l'.rolled = l.rolled := by
  cases hroll : l.attemptRoll fault with
  | ok l' =>
    unfold attemptRoll at hroll
    split at hroll
    · rename_i hmust
      rw [← Except.ok.inj (perform_eq_ok (perform_eq_ok hroll)), rolled, if_pos hmust]
      exact .inl rfl
    · rename_i hmust
      rw [← Except.ok.inj hroll, rolled, if_neg hmust]
      exact .inl rfl
  | error f =>
    unfold attemptRoll at hroll
    split at hroll
    · rename_i hmust
      rcases perform_eq_error hroll with ⟨hs, hl⟩ | hroll
      · exact .inr ⟨f, l, rfl, hl, by rw [hs]; nofun, rfl, rfl⟩
      rcases perform_eq_error hroll with ⟨hs, hl⟩ | hroll
      · refine .inr ⟨f, _, rfl, hl, by rw [hs]; nofun, rfl, ?_⟩
        have hrolled : l.rolled = l.rollSegment := if_pos hmust
        rw [hrolled]
        exact if_pos hmust
      · cases hroll
    · cases hroll

/-- What an append does: it succeeds like one whose file operations all succeed, or its sync fails
with the batch in the log, or it leaves a log that goes on as before. -/
theorem attemptAppend_cases (l : PartitionLog) (batch : RecordBatch) (fault : FileFault) :
    (∃ l' last, l.attemptAppend batch fault = .ok (l', last) ∧ l.append batch = .ok (l', last)) ∨
    ∃ f, ∃ l' : PartitionLog, l.attemptAppend batch fault = .error f ∧ f.left = l'.state ∧
      l'.cfg = l.cfg ∧
      if f.stage = some .sync then
        flat l'.segments = flat l.segments ++ [batch.rebase l.logEndOffset]
      else l'.rolled = l.rolled := by
  obtain ⟨hcfg, hend, hflat⟩ := l.rolled_spec
  unfold attemptAppend
  rcases l.attemptRoll_cases fault with hroll | ⟨f, l', hroll, hleft, hstage, hcfg', hrolled⟩
  swap
  · rw [hroll]
    exact .inr ⟨f, l', rfl, hleft, hcfg', by rw [if_neg hstage]; exact hrolled⟩
  rw [hroll]
  dsimp only
  have hsame : l.rolled.rolled = l.rolled := l.rolled_rolled
  cases happ : l.rolled.active.append (batch.rebase l.rolled.logEndOffset) with
  | error e => exact .inr ⟨_, l.rolled, rfl, rfl, hcfg, hsame⟩
  | ok out =>
    obtain ⟨active, last⟩ := out
    have hblocks : active.blocks = l.rolled.active.blocks ++ [batch.rebase l.logEndOffset] := by
      unfold Segment.append at happ
      split at happ
      · cases happ
      · cases happ
        rw [hend]
    dsimp only
    generalize hattempt : perform _ _ _ _ = attempt
    cases attempt with
    | ok out =>
      have hok := perform_eq_ok (perform_eq_ok hattempt)
      rw [← Except.ok.inj hok]
      refine .inl ⟨_, _, rfl, ?_⟩
      unfold append
      dsimp only
      rw [happ]
    | error f =>
      rcases perform_eq_error hattempt with ⟨hs, hl⟩ | hattempt
      · exact .inr ⟨f, l.rolled, rfl, hl, hcfg, by rw [hs]; exact hsame⟩
      rcases perform_eq_error hattempt with ⟨hs, hl⟩ | hattempt
      · refine .inr ⟨f, _, rfl, hl, ?_, ?_⟩
        · unfold counted
          split <;> exact hcfg
        · rw [hs, if_pos rfl, ← hflat]
          unfold counted
          split <;> simp [segments, hblocks]
      · cases hattempt

/-- `append` over files that may fail. -/
def tryAppend (fault : FileFault) (batch : RecordBatch) (l : PartitionLog) :
    PartitionLog × Expected Int :=
  match l.attemptAppend batch fault with
  | .ok (l', last) => (l', .ok last)
  | .error f => (f.left.log l.cfg, .error f.error)

/-- The block is written, and the sync after it fails. -/
def syncFails (l : PartitionLog) (batch : RecordBatch) (fault : FileFault) : Bool :=
  match l.attemptAppend batch fault with
  | .ok _ => false
  | .error f => f.stage = some .sync

theorem tryAppend_ok {last : Int} (h : (tryAppend fault batch l).2 = .ok last) :
    flat (tryAppend fault batch l).1.segments =
      flat l.segments ++ [batch.rebase l.logEndOffset] := by
  unfold tryAppend at *
  rcases l.attemptAppend_cases batch fault with ⟨l', last', hattempt, happ⟩ | ⟨f, l', hattempt, -⟩
  · rw [hattempt]
    exact (append_spec happ).1
  · rw [hattempt] at h
    cases h

theorem tryAppend_error (h : (tryAppend fault batch l).2 = .error e) :
    if l.syncFails batch fault then
      flat (tryAppend fault batch l).1.segments =
        flat l.segments ++ [batch.rebase l.logEndOffset]
    else (tryAppend fault batch l).1.rolled = l.rolled := by
  unfold tryAppend syncFails at *
  rcases l.attemptAppend_cases batch fault with ⟨l', last', hattempt, -⟩ |
    ⟨f, l', hattempt, hleft, hcfg, hcase⟩
  · rw [hattempt] at h
    cases h
  · rw [hattempt]
    dsimp only
    rw [hleft, log_state hcfg]
    simpa using hcase

/-- Only the log that it writes to matters to an append whose file operations succeed. -/
theorem tryAppend_congr (h : l.rolled = l'.rolled) (batch : RecordBatch) :
    tryAppend none batch l = tryAppend none batch l' := by
  have hroll : ∀ l : PartitionLog, l.attemptRoll none = .ok l.rolled := fun l => by
    unfold attemptRoll rolled
    split <;> rfl
  have hattempt : l.attemptAppend batch none = l'.attemptAppend batch none := by
    unfold attemptAppend
    rw [hroll, hroll, h]
  have hcfg : l.cfg = l'.cfg := by rw [← l.rolled_spec.1, h, l'.rolled_spec.1]
  unfold tryAppend
  rw [hattempt, hcfg]

theorem tryAppend_none_error (h : (tryAppend none batch l).2 = .error e) :
    e.code = .invalidArgument := by
  have hnone := l.attemptAppend_none batch
  unfold tryAppend at h
  cases hattempt : l.attemptAppend batch none with
  | ok out => rw [hattempt] at h; cases h
  | error f =>
    rw [hattempt] at h hnone
    cases h
    unfold append Segment.append at hnone
    dsimp only at hnone
    split at hnone
    · rename_i hclosed
      split at hclosed
      · cases hclosed
        rw [Except.mapError, Except.error.injEq] at hnone
        rw [hnone]
      · cases hclosed
    · cases hnone

end PartitionLog

/-! ## Requests -/

/-- A partition of a single node, over files that may fail. -/
structure DiskPartition where
  log : PartitionLog
  producers : Producers := fun _ => none
  protocol : WireProtocol := .unset

namespace DiskPartition

def batches (p : DiskPartition) : List RecordBatch := flat p.log.segments

def produce (p : DiskPartition) (fault : FileFault) (batch : RecordBatch) :
    DiskPartition × Expected Int :=
  let out := p.producers.produce (PartitionLog.tryAppend fault batch) (·.logEndOffset) p.log batch
  ({ p with log := out.1.1, producers := out.1.2 }, out.2)

instance : PartitionBase DiskPartition FileFault where
  protocol := DiskPartition.protocol
  setProtocol p proto := { p with protocol := proto }
  produce := DiskPartition.produce
  fetch p offset maxBytes := (p.log.read offset maxBytes).map FetchResult.encoded
  highWatermark p := p.log.logEndOffset
  logStartOffset p := p.log.logStartOffset
  logEndOffset p := p.log.logEndOffset

inductive ProduceCall
  | native (req : ProduceRequest)
  | kafka (blob : Bytes)

namespace ProduceCall

def protocol : ProduceCall → WireProtocol
  | native _ => .native
  | kafka _ => .kafka

/-- The batch that the request brings to the partition, if there is one in it. -/
def batch : ProduceCall → Option RecordBatch
  | native req => req.batch.toOption
  | kafka blob => (Kafka.countRecords blob 0).toOption.bind fun total =>
    if total = 0 then none else some (envelope blob total)

end ProduceCall

/-- The answer to a request of either protocol. -/
inductive Answer
  | native (resp : ProduceResponse)
  | kafka (resp : ProducePartitionResponse)
  deriving DecidableEq

def Answer.failed : Answer → Bool
  | native resp => resp.errorCode ≠ .none
  | kafka resp => resp.errorCode ≠ 0

def serveCall (p : DiskPartition) (fault : FileFault) : ProduceCall → DiskPartition × Answer
  | .native req =>
    let out := PartitionBase.handleProduce (some p) fault req
    (out.1.getD p, .native out.2)
  | .kafka blob =>
    let out := producePartition (some p) fault blob
    (out.1.getD p, .kafka out.2)

/-- The answers to requests that come one after another, when no file operation fails. -/
def answers (p : DiskPartition) : List ProduceCall → List Answer
  | [] => []
  | c :: cs => (p.serveCall none c).2 :: answers (p.serveCall none c).1 cs

/-- The answer that the partition's verdict on the batch of a request becomes. -/
def ProduceCall.render : ProduceCall → RecordBatch → Expected Int → Answer
  | native _, batch, .ok last => .native { baseOffset := last - batch.header.recordCount + 1 }
  | native _, _, .error e => .native { errorCode := .fromError e }
  | kafka _, batch, .ok last => .kafka { baseOffset := last - batch.header.recordCount + 1 }
  | kafka _, _, .error e => .kafka { errorCode := (KafkaError.ofErrorCode e.code).toWire }

/-- The answer to a request that brings no batch. -/
def ProduceCall.idle : ProduceCall → Int → Answer
  | native req, _ => .native
    (match req.batch with
    | .ok _ => {}
    | .error e => { errorCode := .fromError e })
  | kafka blob, logEndOffset => .kafka
    (match Kafka.countRecords blob 0 with
    | .ok _ => { baseOffset := logEndOffset }
    | .error e => { errorCode := (KafkaError.ofErrorCode e.code).toWire })

variable {p q : DiskPartition} {c : ProduceCall} {fault : FileFault} {batch : RecordBatch}

theorem failed_render {r : Expected Int} :
    (c.render batch r).failed = true ↔ ∃ e, r = .error e := by
  cases c <;> cases r <;> simp [ProduceCall.render, Answer.failed]
  · rename_i e
    unfold WireError.fromError
    split <;> decide
  · rename_i e
    cases e.code <;> decide

/-- Both handlers: a batch, a claim, and what the partition says of the batch. -/
theorem serveCall_eq (p : DiskPartition) (fault : FileFault) (c : ProduceCall) :
    p.serveCall fault c =
      match c.batch with
      | none => (p, c.idle p.log.logEndOffset)
      | some batch =>
        match claimProtocol p c.protocol with
        | .error e => (p, c.render batch (.error e))
        | .ok q => ((q.produce fault batch).1, c.render batch (q.produce fault batch).2) := by
  have hproduce : ∀ (q : DiskPartition) batch,
      PartitionBase.produce q fault batch = q.produce fault batch := fun _ _ => rfl
  cases c with
  | native req =>
    obtain ⟨acks, batch⟩ := req
    cases batch with
    | error e => rfl
    | ok batch =>
      simp only [serveCall, PartitionBase.handleProduce, ProduceCall.batch, Except.toOption,
        ProduceCall.protocol, hproduce]
      rcases claimProtocol p .native with e | q
      · rfl
      · dsimp only
        rcases q.produce fault batch with ⟨q', e | last⟩ <;> rfl
  | kafka blob =>
    simp only [serveCall, producePartition, ProduceCall.batch, ProduceCall.idle,
      ProduceCall.protocol, hproduce]
    rcases Kafka.countRecords blob 0 with e | total
    · rfl
    · simp only [Except.toOption, Option.bind_some]
      by_cases hzero : total = 0
      · rw [if_pos hzero, if_pos hzero]
        rfl
      · rw [if_neg hzero, if_neg hzero]
        dsimp only
        rcases claimProtocol p .kafka with e | q
        · rfl
        · dsimp only
          rcases q.produce fault (envelope blob total) with ⟨q', e | last⟩ <;> rfl

/-! ## Failed requests -/

/-- The same, but that one of the logs may have rolled already, or have begun to. -/
structure Alike (p q : DiskPartition) : Prop where
  protocol : p.protocol = q.protocol
  producers : p.producers = q.producers
  rolled : p.log.rolled = q.log.rolled

section

variable (h : Alike p q)

include h

theorem Alike.logEndOffset : p.log.logEndOffset = q.log.logEndOffset := by
  rw [← p.log.rolled_spec.2.1, h.rolled, q.log.rolled_spec.2.1]

theorem Alike.batches : p.batches = q.batches := by
  unfold DiskPartition.batches
  rw [← p.log.rolled_spec.2.2, h.rolled, q.log.rolled_spec.2.2]

theorem Alike.produce (batch : RecordBatch) :
    (p.produce none batch).2 = (q.produce none batch).2 ∧
      Alike (p.produce none batch).1 (q.produce none batch).1 := by
  have hend := h.logEndOffset
  obtain ⟨l, m, proto⟩ := p
  obtain ⟨l', m', proto'⟩ := q
  obtain ⟨rfl, rfl, hrolled⟩ := h
  dsimp only at hend hrolled
  unfold DiskPartition.produce Producers.produce
  dsimp only
  rw [PartitionLog.tryAppend_congr hrolled batch, hend]
  split
  · exact ⟨rfl, rfl, rfl, rfl⟩
  · split
    · exact ⟨rfl, rfl, rfl, hrolled⟩
    · exact ⟨rfl, rfl, rfl, hrolled⟩
    · exact ⟨rfl, rfl, rfl, hrolled⟩
    · split <;> exact ⟨rfl, rfl, rfl, rfl⟩

theorem Alike.serveCall (c : ProduceCall) :
    (p.serveCall none c).2 = (q.serveCall none c).2 ∧
      Alike (p.serveCall none c).1 (q.serveCall none c).1 := by
  rw [serveCall_eq, serveCall_eq, h.logEndOffset]
  cases c.batch with
  | none => exact ⟨rfl, h⟩
  | some batch =>
    have hproto : PartitionBase.protocol p = PartitionBase.protocol q := h.protocol
    dsimp only
    unfold claimProtocol
    rw [hproto]
    by_cases hclaim : PartitionBase.protocol q = .unset ∨ PartitionBase.protocol q = c.protocol
    · rw [if_pos hclaim, if_pos hclaim]
      have hclaimed : Alike (setProtocol p c.protocol) (setProtocol q c.protocol) :=
        ⟨rfl, h.producers, h.rolled⟩
      exact ⟨congrArg (c.render batch) (hclaimed.produce batch).1, (hclaimed.produce batch).2⟩
    · rw [if_neg hclaim, if_neg hclaim]
      exact ⟨rfl, h⟩

theorem Alike.answers (cs : List ProduceCall) : p.answers cs = q.answers cs := by
  induction cs generalizing p q with
  | nil => rfl
  | cons c cs ih =>
    obtain ⟨hanswer, hnext⟩ := h.serveCall c
    rw [DiskPartition.answers, DiskPartition.answers, hanswer, ih hnext]

end

/-- The partition `q` is as `p` was: what is in the log and where it ends, who owns the partition,
and what every later sequence of requests is answered. -/
structure Unchanged (p q : DiskPartition) : Prop where
  batches : q.batches = p.batches
  logEndOffset : q.log.logEndOffset = p.log.logEndOffset
  protocol : q.protocol = p.protocol
  answers : ∀ cs, q.answers cs = p.answers cs

theorem Alike.unchanged (h : Alike q p) : Unchanged p q :=
  ⟨h.batches, h.logEndOffset, h.protocol, h.answers⟩

/-- The sessions let the batch through to the log. -/
def Admits (m : Producers) (batch : RecordBatch) : Prop :=
  m.verdict batch = none ∨ m.verdict batch = some .accept

/-- Nothing that the request has done stays: the protocol was the owner before, the producer had a
session before, and no sync failed. -/
def Spared (p : DiskPartition) (fault : FileFault) (c : ProduceCall) : Prop :=
  ∀ batch, c.batch = some batch → p.protocol = .unset ∨ p.protocol = c.protocol →
    p.protocol = c.protocol ∧
    (0 ≤ batch.header.producerId → ∃ s, p.producers batch.header.producerId = some s) ∧
    ¬ (Admits p.producers batch ∧ p.log.syncFails batch fault = true)

/-- What a produce that fails leaves of the sessions and of the log. -/
theorem produce_error {e : Error} (h : (p.produce fault batch).2 = .error e) :
    (p.produce fault batch).1.producers = (if batch.header.producerId < 0 then p.producers else
      p.producers.put (p.producers.session batch.header) batch.header.producerId) ∧
    (Admits p.producers batch ∧ (PartitionLog.tryAppend fault batch p.log).2 = .error e ∧
        (p.produce fault batch).1.log = (PartitionLog.tryAppend fault batch p.log).1 ∨
      ¬ Admits p.producers batch ∧ (p.produce fault batch).1.log = p.log) := by
  unfold Admits
  unfold DiskPartition.produce Producers.produce at *
  by_cases hid : batch.header.producerId < 0
  · have hverdict : p.producers.verdict batch = none := if_pos hid
    rw [hverdict] at h ⊢
    exact ⟨(if_pos hid).symm, .inl ⟨.inl rfl, h, rfl⟩⟩
  · have hverdict : p.producers.verdict batch = some _ := if_neg hid
    rw [if_neg hid]
    rw [hverdict] at h ⊢
    generalize check _ _ _ _ = verdict at h ⊢
    cases verdict with
    | fenced | gap => exact ⟨rfl, .inr ⟨by simp, rfl⟩⟩
    | duplicate => cases h
    | accept =>
      dsimp only at h ⊢
      cases hout : (PartitionLog.tryAppend fault batch p.log).2 with
      | ok last => rw [hout] at h; cases h
      | error e' =>
        rw [hout] at h
        exact ⟨rfl, .inl ⟨.inr rfl, h, rfl⟩⟩

/-- A session that the failed request has started fences a producer with an older epoch. -/
theorem answers_ne_of_session (hp : p.protocol = .native) (hq : q.protocol = .native)
    (hid : 0 ≤ batch.header.producerId) (hnone : p.producers batch.header.producerId = none)
    (hsome : q.producers batch.header.producerId = some (p.producers.session batch.header)) :
    ∃ cs, q.answers cs ≠ p.answers cs := by
  let older : RecordBatch :=
    ⟨⟨0, 0, batch.header.producerId, batch.header.producerEpoch - 1, 0, 1⟩, []⟩
  let c : ProduceCall := .native { batch := .ok older }
  have hserve : ∀ r : DiskPartition, r.protocol = .native →
      (r.serveCall none c).2 = c.render older ((setProtocol r .native).produce none older).2 := by
    intro r hr
    have hclaimed : claimProtocol r c.protocol = .ok (setProtocol r .native) := if_pos (.inr hr)
    rw [serveCall_eq, show c.batch = some older from rfl]
    dsimp only
    rw [hclaimed]
  refine ⟨[c], fun h => ?_⟩
  have hanswer := (cons.inj h).1
  rw [hserve p hp, hserve q hq] at hanswer
  have hverdict : ∀ m : Producers, m.verdict older = some ((m.session older.header).check
      older.header.producerEpoch 0 1) := fun m => if_neg (Int.not_lt.mpr hid)
  have hfenced : q.producers.verdict older = some .fenced := by
    rw [hverdict, Producers.session,
      show older.header.producerId = batch.header.producerId from rfl, hsome, Option.getD_some,
      Producers.session, hnone, Option.getD_none]
    simp [check, older]
  have haccept : p.producers.verdict older = some .accept := by
    rw [hverdict, Producers.session,
      show older.header.producerId = batch.header.producerId from rfl, hnone, Option.getD_none]
    simp [check]
  unfold DiskPartition.produce Producers.produce at hanswer
  rw [show (setProtocol q .native : DiskPartition).producers = q.producers from rfl, hfenced,
    show (setProtocol p .native : DiskPartition).producers = p.producers from rfl,
    haccept] at hanswer
  dsimp only at hanswer
  cases hout : (PartitionLog.tryAppend none older p.log).2 with
  | ok last =>
    rw [show (setProtocol p .native : DiskPartition).log = p.log from rfl, hout] at hanswer
    simp [c, ProduceCall.render, WireError.fromError, makeError] at hanswer
  | error e =>
    rw [show (setProtocol p .native : DiskPartition).log = p.log from rfl, hout] at hanswer
    have hcode := PartitionLog.tryAppend_none_error hout
    simp [c, ProduceCall.render, WireError.fromError, hcode, makeError] at hanswer

/-- A request that is answered with an error leaves the partition as it was, exactly when nothing
that it has done stays. -/
theorem failed_unchanged_iff (p : DiskPartition) (fault : FileFault) (c : ProduceCall)
    (hfail : (p.serveCall fault c).2.failed = true) :
    Unchanged p (p.serveCall fault c).1 ↔ p.Spared fault c := by
  unfold Spared
  cases hbatch : c.batch with
  | none =>
    rw [serveCall_eq, hbatch]
    exact ⟨fun _ _ h => (nomatch h), fun _ => Alike.unchanged ⟨rfl, rfl, rfl⟩⟩
  | some batch =>
    by_cases hclaim : p.protocol = .unset ∨ p.protocol = c.protocol
    swap
    · have hrefused : claimProtocol p c.protocol = makeError .invalidArgument _ := if_neg hclaim
      rw [serveCall_eq, hbatch]
      dsimp only
      rw [hrefused]
      exact ⟨fun _ _ _ h => absurd h hclaim, fun _ => Alike.unchanged ⟨rfl, rfl, rfl⟩⟩
    have hclaimed : claimProtocol p c.protocol = .ok (setProtocol p c.protocol) := if_pos hclaim
    rw [serveCall_eq, hbatch] at hfail ⊢
    dsimp only at hfail ⊢
    rw [hclaimed] at hfail ⊢
    dsimp only at hfail ⊢
    obtain ⟨e, herror⟩ := failed_render.mp hfail
    obtain ⟨hproducers, hlog⟩ := produce_error herror
    generalize hq : ((setProtocol p c.protocol : DiskPartition).produce fault batch).1 = q at *
    have hproto : q.protocol = c.protocol := by rw [← hq]; rfl
    change q.producers = (if _ then p.producers else p.producers.put (p.producers.session _) _)
      at hproducers
    change Admits p.producers batch ∧ (PartitionLog.tryAppend fault batch p.log).2 = .error e ∧
      q.log = (PartitionLog.tryAppend fault batch p.log).1 ∨
      ¬ Admits p.producers batch ∧ q.log = p.log at hlog
    constructor
    · intro hun b hb _
      cases hb
      have howner : p.protocol = c.protocol := hun.protocol.symm.trans hproto
      refine ⟨howner, fun hid => ?_, fun ⟨hadmits, hsync⟩ => ?_⟩
      · by_contra hno
        have hnone : p.producers batch.header.producerId = none :=
          Option.eq_none_iff_forall_not_mem.mpr fun s hs => hno ⟨s, hs⟩
        -- a Kafka batch has no producer
        have hnative : c.protocol = .native := by
          cases c with
          | native req => rfl
          | kafka blob =>
            simp only [ProduceCall.batch, Option.bind_eq_some_iff] at hbatch
            obtain ⟨total, -, htotal⟩ := hbatch
            split at htotal
            · cases htotal
            · cases htotal
              exact absurd hid (by simp [envelope])
        rw [if_neg (Int.not_lt.mpr hid)] at hproducers
        have hsome : q.producers batch.header.producerId =
            some (p.producers.session batch.header) := by
          rw [hproducers]
          exact Function.update_self ..
        obtain ⟨cs, hne⟩ := answers_ne_of_session (howner.trans hnative) (hproto.trans hnative)
          hid hnone hsome
        exact hne (hun.answers cs)
      · obtain ⟨-, happend, heq⟩ := hlog.resolve_right fun h => h.1 hadmits
        have hflat := PartitionLog.tryAppend_error happend
        rw [hsync, if_pos rfl, ← heq] at hflat
        have hsame := hun.batches
        unfold DiskPartition.batches at hsame
        rw [hflat] at hsame
        simpa using congrArg List.length hsame
    · intro hspared
      obtain ⟨howner, hsession, hsync⟩ := hspared batch rfl hclaim
      refine Alike.unchanged ⟨hproto.trans howner.symm, ?_, ?_⟩
      · rw [hproducers]
        split
        · rfl
        · rename_i hid
          obtain ⟨s, hs⟩ := hsession (Int.not_lt.mp hid)
          exact Producers.put_session_of_some hs
      · rcases hlog with ⟨hadmits, happend, heq⟩ | ⟨-, heq⟩
        · have hrolled := PartitionLog.tryAppend_error happend
          rw [if_neg fun h => hsync ⟨hadmits, h⟩] at hrolled
          rw [heq, hrolled]
        · rw [heq]

/-- One record of producer 7, as a native request. -/
def recordOf (epoch seq : Int) : ProduceCall :=
  .native { batch := .ok ⟨⟨0, 0, 7, epoch, seq, 1⟩, []⟩ }

/-- A partition that syncs each batch. -/
def syncing : DiskPartition := { log := PartitionLog.create { fsyncPolicy := .commit } }

/-- With the producer known, a failed write leaves nothing. -/
theorem failed_write_unchanged :
    Unchanged (syncing.serveCall none (recordOf 0 0)).1
      ((syncing.serveCall none (recordOf 0 0)).1.serveCall (some (.write, ⟨.ioError, "pwrite"⟩))
        (recordOf 0 1)).1 :=
  (failed_unchanged_iff _ _ _ (by decide)).mpr fun _ hb _ => by
    cases hb
    exact ⟨rfl, fun _ => ⟨_, rfl⟩, fun h => absurd h.2 (by decide)⟩

/-- A gap leaves the protocol claimed and a session that fences an older epoch; a failed sync
leaves the batch in the log. -/
theorem failed_request_stays :
    ((syncing.serveCall none (recordOf 5 3)).2.failed = true ∧
      (syncing.serveCall none (recordOf 5 3)).1.protocol = .native ∧
      syncing.answers [recordOf 4 0] = [.native { baseOffset := 0 }] ∧
      (syncing.serveCall none (recordOf 5 3)).1.answers [recordOf 4 0] =
        [.native { errorCode := .invalidProducerEpoch }]) ∧
    (syncing.serveCall (some (.sync, ⟨.ioError, "fsync"⟩)) (recordOf 0 0)).2.failed = true ∧
      (syncing.serveCall (some (.sync, ⟨.ioError, "fsync"⟩)) (recordOf 0 0)).1.batches ≠
        syncing.batches := by
  decide

end DiskPartition

/-! ## Answered requests -/

/-- What a client may send in one batch: an `int32` of either sign, and some records. -/
def RecordBatch.Sent (b : RecordBatch) : Prop :=
  -2 ^ 31 ≤ b.header.baseSequence ∧ b.header.baseSequence < 2 ^ 31 ∧
    1 ≤ b.header.recordCount ∧ b.header.recordCount < 2 ^ 31

instance : DecidablePred RecordBatch.Sent := fun b =>
  inferInstanceAs (Decidable (-2 ^ 31 ≤ b.header.baseSequence ∧ b.header.baseSequence < 2 ^ 31 ∧
    1 ≤ b.header.recordCount ∧ b.header.recordCount < 2 ^ 31))

abbrev SentBatch := { b : RecordBatch // b.Sent }

namespace Producers

variable {m : Producers} {bs cs : List RecordBatch} {batch : RecordBatch} {s : ProducerSession}

/-- Each number from 0 to the last one of a session is one of a batch. -/
def Covered (m : Producers) (bs : List RecordBatch) : Prop :=
  ∀ id s, m id = some s → ∀ n, 0 ≤ n → n ≤ s.lastSequence →
    ∃ b ∈ batchesOf id s.epoch bs, b.HasSeq n

theorem Covered.mono (h : m.Covered bs) (hsub : bs ⊆ cs) : m.Covered cs := fun id s hs n h0 hn =>
  have ⟨b, hb, hseq⟩ := h id s hs n h0 hn
  ⟨b, mem_batchesOf.mpr ⟨hsub (mem_batchesOf.mp hb).1, (mem_batchesOf.mp hb).2⟩, hseq⟩

theorem Covered.session (h : m.Covered bs) (header : RecordBatchHeader) {n : Int} (h0 : 0 ≤ n)
    (hn : n ≤ (m.session header).lastSequence) :
    ∃ b ∈ batchesOf header.producerId (m.session header).epoch bs, b.HasSeq n := by
  unfold Producers.session at hn ⊢
  cases hs : m header.producerId with
  | none =>
    rw [hs, Option.getD_none] at hn
    dsimp only at hn
    omega
  | some s =>
    rw [hs, Option.getD_some] at hn
    exact h _ s hs n h0 hn

theorem Covered.put {id : Int} (h : m.Covered bs)
    (hs : ∀ n, 0 ≤ n → n ≤ s.lastSequence → ∃ b ∈ batchesOf id s.epoch bs, b.HasSeq n) :
    (m.put s id).Covered bs := by
  intro id' s' hs'
  by_cases heq : id' = id
  · rw [heq, Producers.put, Function.update_self] at hs'
    cases hs'
    exact heq ▸ hs
  · rw [Producers.put, Function.update_of_ne heq] at hs'
    exact h id' s' hs'

/-- A retry has the epoch of the session and no number after its last one. -/
theorem retry_of_duplicate {epoch base count : Int} (h : s.check epoch base count = .duplicate) :
    epoch = s.epoch ∧ base + count ≤ s.lastSequence + 1 := by
  unfold check at h
  split at h
  · cases h
  split at h
  · split at h <;> cases h
  dsimp only at h
  split at h
  · cases h
  split at h
  · cases h
  split at h
  · omega
  · cases h

/-- The numbers of an accepted batch go on where those of the session end, or start at 0. When
their sum overflows, the last one is negative and nothing is said. -/
theorem Covered.accept (h : m.Covered bs) (hsent : batch.Sent)
    (haccept : (m.session batch.header).check batch.header.producerEpoch batch.header.baseSequence
      batch.header.recordCount = .accept) (o base : Int) :
    (m.put ((m.session batch.header).accept batch.header.producerEpoch batch.header.baseSequence
      batch.header.recordCount base) batch.header.producerId).Covered (bs ++ [batch.rebase o]) := by
  refine (h.mono (subset_append_left _ _)).put fun n h0 hn => ?_
  obtain ⟨hlo, hhi, hcount, hmax⟩ := hsent
  change n ≤ Int.bmod (batch.header.baseSequence + batch.header.recordCount - 1) (2 ^ 32) at hn
  have hle : n ≤ batch.header.baseSequence + batch.header.recordCount - 1 := by
    rw [Int.bmod_def] at hn
    omega
  have hself : batch.rebase o ∈ batchesOf batch.header.producerId batch.header.producerEpoch
      (bs ++ [batch.rebase o]) :=
    mem_batchesOf.mpr ⟨mem_append_right _ (.head _), rfl, rfl⟩
  by_cases hnew : batch.header.baseSequence ≤ n
  · exact ⟨batch.rebase o, hself, hnew, by
      change n < batch.header.baseSequence + batch.header.recordCount
      omega⟩
  · -- an older number of the same epoch
    have hsession : batch.header.producerEpoch = (m.session batch.header).epoch ∧
        n ≤ (m.session batch.header).lastSequence := by
      unfold check at haccept
      split at haccept
      · cases haccept
      split at haccept
      · split at haccept
        · omega
        · cases haccept
      · dsimp only at haccept
        split at haccept
        · omega
        split at haccept
        · cases haccept
        split at haccept <;> cases haccept
    obtain ⟨b, hb, hseq⟩ := h.session batch.header h0 hsession.2
    change ∃ b ∈ batchesOf _ batch.header.producerEpoch _, _
    rw [hsession.1, batchesOf_append]
    exact ⟨b, mem_append_left _ hb, hseq⟩

end Producers

namespace DiskPartition

inductive Event
  | produce (fault : FileFault) (batch : SentBatch)
  /-- `enforce_retention` removes the oldest closed segments. -/
  | reclaim (segments : Nat)

/-- A partition with the batches that retention has removed from it. -/
structure Lifetime where
  part : DiskPartition
  removed : List RecordBatch := []

namespace Lifetime

variable (s : Lifetime)

def step : Event → Lifetime
  | .produce fault batch => { s with part := (s.part.produce fault batch).1 }
  | .reclaim k =>
    let older := s.part.log.older.drop k
    { part := { s.part with log := { s.part.log with
        older, logStartOffset := (older.headD s.part.log.active).baseOffset } }
      removed := s.removed ++ flat (s.part.log.older.take k) }

end Lifetime

variable {p : DiskPartition} {fault : FileFault} {batch : RecordBatch}

/-- The log has the batch, or batches of its producer and epoch with its numbers. -/
def Stored (bs : List RecordBatch) (batch : RecordBatch) : Prop :=
  if batch.header.producerId < 0 then ∃ o, batch.rebase o ∈ bs
  else ∀ n, batch.HasSeq n →
    ∃ b ∈ batchesOf batch.header.producerId batch.header.producerEpoch bs, b.HasSeq n

theorem batches_subset (p : DiskPartition) (fault : FileFault) (batch : RecordBatch) :
    p.batches ⊆ flat (PartitionLog.tryAppend fault batch p.log).1.segments := by
  unfold DiskPartition.batches
  cases hout : (PartitionLog.tryAppend fault batch p.log).2 with
  | ok last =>
    rw [PartitionLog.tryAppend_ok hout]
    exact subset_append_left _ _
  | error e =>
    have hcase := PartitionLog.tryAppend_error hout
    split at hcase
    · rw [hcase]
      exact subset_append_left _ _
    · rw [← (PartitionLog.rolled_spec (PartitionLog.tryAppend _ _ _).1).2.2, hcase,
        (PartitionLog.rolled_spec _).2.2]
      exact List.Subset.refl _

/-- A produce keeps the numbers of the sessions covered. -/
theorem covered_produce {removed : List RecordBatch}
    (h : p.producers.Covered (removed ++ p.batches)) (hsent : batch.Sent) :
    (p.produce fault batch).1.producers.Covered
      (removed ++ (p.produce fault batch).1.batches) := by
  have hsub : removed ++ p.batches ⊆
      removed ++ flat (PartitionLog.tryAppend fault batch p.log).1.segments :=
    append_subset.mpr ⟨subset_append_left _ _,
      List.Subset.trans (p.batches_subset fault batch) (subset_append_right _ _)⟩
  have hput : (p.producers.put (p.producers.session batch.header)
      batch.header.producerId).Covered (removed ++ p.batches) := h.put fun n => h.session _
  unfold DiskPartition.produce Producers.produce
  by_cases hid : batch.header.producerId < 0
  · rw [show p.producers.verdict batch = none from if_pos hid]
    exact h.mono hsub
  rw [show p.producers.verdict batch = some _ from if_neg hid]
  dsimp only
  cases hcheck : (p.producers.session batch.header).check batch.header.producerEpoch
    batch.header.baseSequence batch.header.recordCount with
  | fenced | gap | duplicate => exact hput
  | accept =>
    dsimp only
    cases hout : (PartitionLog.tryAppend fault batch p.log).2 with
    | error e => exact hput.mono hsub
    | ok last =>
      change ((p.producers.put _ _).put _ _).Covered
        (removed ++ flat (PartitionLog.tryAppend fault batch p.log).1.segments)
      rw [PartitionLog.tryAppend_ok hout, Producers.put_put, ← append_assoc]
      exact h.accept hsent hcheck _ _

theorem covered_run (log : PartitionLog) (es : List Event) :
    let s := run Lifetime.step { part := { log } } es
    s.part.producers.Covered (s.removed ++ s.part.batches) := by
  refine run_invariant
    (I := fun s : Lifetime => s.part.producers.Covered (s.removed ++ s.part.batches))
    (P := fun _ _ => True) (fun s e h _ => ?_) (fun _ _ h => by cases h)
    (along_of_forall (fun _ _ => trivial) _ _)
  cases e with
  | produce fault batch => exact covered_produce h batch.2
  | reclaim k =>
    have hsplit : flat s.part.log.segments = flat (s.part.log.older.take k) ++
        flat (s.part.log.older.drop k ++ [s.part.log.active]) := by
      rw [← flat_append, ← append_assoc, take_append_drop]
      rfl
    change Producers.Covered _ (s.removed ++ _ ++ flat _)
    rw [append_assoc]
    unfold DiskPartition.batches at h
    rw [hsplit] at h
    exact h

end DiskPartition

end Nexus
