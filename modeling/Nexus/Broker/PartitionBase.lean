import Nexus.Broker.Answers
import Nexus.Kafka.RecordBatch

/-!
# The handlers over both kinds of partition

`broker/partition_base.hpp` is what the handlers of `broker/request_router.cpp` and of
`server/kafka_adapter.cpp` know of a partition. The handlers are here as the source has them, over
the bytes of the requests. A partition is claimed by the first protocol that writes to it.

* `Lawful`: a produce keeps the log or adds one batch to it. Both kinds of partition are lawful.
* `Owned`: the invariant of a partition between two requests.
* `one_protocol`: whatever is requested, one protocol wrote the whole log, and the other one reads
  nothing from it.
-/

namespace Nexus

open Lib PartitionLog List

/-- `ι` is what the disk does during a call. -/
class PartitionBase (σ : Type) (ι : outParam Type) where
  protocol : σ → WireProtocol
  setProtocol : σ → WireProtocol → σ
  produce : σ → ι → RecordBatch → σ × Expected Int
  fetch : σ → Int → Nat → Expected Raw.FetchResult
  highWatermark : σ → Int
  logStartOffset : σ → Int
  logEndOffset : σ → Int

namespace PartitionBase

section Handlers

variable {σ ι : Type} [PartitionBase σ ι]

def claimProtocol (p : σ) (proto : WireProtocol) : Expected σ :=
  if protocol p = .unset ∨ protocol p = proto then .ok (setProtocol p proto)
  else makeError .invalidArgument
    "partición con records de otro protocolo de wire (cruce nativo/Kafka)"

/-! ## The native protocol -/

def handleProduce (part : Option σ) (io : ι) (req : ProduceRequest) : Option σ × ProduceResponse :=
  match part with
  | none => (none, { errorCode := .unknownTopicOrPartition })
  | some p =>
    match req.batch with
    | .error e => (some p, { errorCode := .fromError e })
    | .ok batch =>
      match claimProtocol p .native with
      | .error e => (some p, { errorCode := .fromError e })
      | .ok p =>
        let out := produce p io batch
        match out.2 with
        | .error e => (some out.1, { errorCode := .fromError e })
        | .ok last => (some out.1, { baseOffset := last - batch.header.recordCount + 1 })

structure FetchOutcome where
  error : WireError := .none
  result : Raw.FetchResult := {}
  highWatermark : Int := 0
  logStartOffset : Int := 0
  deriving DecidableEq

def handleFetch (part : Option σ) (req : FetchRequest) : FetchOutcome :=
  match part with
  | none => { error := .unknownTopicOrPartition }
  | some p =>
    if protocol p ≠ .unset ∧ protocol p ≠ .native then { error := .invalidRequest }
    else match fetch p req.fetchOffset (fetchLimit req.maxBytes) with
      | .error e => { error := .fromError e }
      | .ok result =>
        { result, highWatermark := highWatermark p, logStartOffset := logStartOffset p }

/-! ## The Kafka protocol -/

structure ProducePartitionResponse where
  errorCode : Int := 0
  baseOffset : Int := 0
  deriving DecidableEq

/-- The batch of the broker that carries a blob: only its count matters to the log. -/
def envelope (blob : Bytes) (total : Int) : RecordBatch :=
  { header := { recordCount := total }, records := blob }

def producePartition (part : Option σ) (io : ι) (blob : Bytes) :
    Option σ × ProducePartitionResponse :=
  match part with
  | none => (none, { errorCode := KafkaError.unknownTopicOrPartition.toWire })
  | some p =>
    match Kafka.countRecords blob 0 with
    | .error e => (some p, { errorCode := (KafkaError.ofErrorCode e.code).toWire })
    | .ok total =>
      if total = 0 then (some p, { baseOffset := logEndOffset p })
      else match claimProtocol p .kafka with
        | .error e => (some p, { errorCode := (KafkaError.ofErrorCode e.code).toWire })
        | .ok p =>
          let out := produce p io (envelope blob total)
          match out.2 with
          | .error e => (some out.1, { errorCode := (KafkaError.ofErrorCode e.code).toWire })
          | .ok last => (some out.1, { baseOffset := last - total + 1 })

structure FetchPartitionResponse where
  errorCode : Int := 0
  highWatermark : Int := 0
  lastStableOffset : Int := -1
  logStartOffset : Int := 0
  records : Bytes := []
  deriving DecidableEq

def fetchPartition (part : Option σ) (req : FetchPartitionRequest) : FetchPartitionResponse :=
  match part with
  | none => { errorCode := KafkaError.unknownTopicOrPartition.toWire }
  | some p =>
    if protocol p ≠ .unset ∧ protocol p ≠ .kafka then
      { errorCode := (KafkaError.ofErrorCode .invalidArgument).toWire }
    else match fetch p req.fetchOffset (fetchLimit req.partitionMaxBytes) with
      | .error e => { errorCode := (KafkaError.ofErrorCode e.code).toWire }
      | .ok result =>
        { highWatermark := highWatermark p
          lastStableOffset := highWatermark p
          logStartOffset := logStartOffset p
          records := Kafka.rebuildKafkaRecords result.batches }

/-! ## Requests -/

inductive Request (ι : Type) where
  | produce (io : ι) (req : ProduceRequest)
  | fetch (req : FetchRequest)
  | kafkaProduce (io : ι) (blob : Bytes)
  | kafkaFetch (req : FetchPartitionRequest)

def Request.protocol : Request ι → WireProtocol
  | .produce _ _ | .fetch _ => .native
  | .kafkaProduce _ _ | .kafkaFetch _ => .kafka

/-- The partition after a request that finds it. -/
def serve (p : σ) : Request ι → σ
  | .produce io req => ((handleProduce (some p) io req).1).getD p
  | .kafkaProduce io blob => ((producePartition (some p) io blob).1).getD p
  | .fetch _ | .kafkaFetch _ => p

/-- The bytes of batches that the answer carries. -/
def bytesOf (p : σ) : Request ι → Bytes
  | .fetch req => (handleFetch (some p) req).result.batches
  | .kafkaFetch req => (fetchPartition (some p) req).records
  | .produce _ _ | .kafkaProduce _ _ => []

/-- A partition gives bytes only to the protocol that has it. -/
theorem protocol_of_bytesOf {p : σ} {r : Request ι} (h : bytesOf p r ≠ []) :
    protocol p = .unset ∨ protocol p = r.protocol := by
  by_contra hno
  obtain ⟨hset, hother⟩ := not_or.mp hno
  refine h ?_
  cases r with
  | produce io req => rfl
  | kafkaProduce io blob => rfl
  | fetch req =>
    unfold bytesOf handleFetch
    dsimp only
    rw [if_pos ⟨hset, hother⟩]
  | kafkaFetch req =>
    unfold bytesOf fetchPartition
    dsimp only
    rw [if_pos ⟨hset, hother⟩]

end Handlers

end PartitionBase

/-! ## Both kinds of partition -/

/-- The bytes of what a log of batches gives. -/
def FetchResult.encoded (r : FetchResult) : Raw.FetchResult :=
  ⟨r.batches.flatMap RecordBatch.encode, r.nextOffset⟩

namespace Partition

/-- `append` on a disk that may refuse the write. -/
def appendIo (fails : Bool) (batch : RecordBatch) (log : PartitionLog) :
    PartitionLog × Expected Int :=
  if fails then (log, makeError .ioError "pwrite") else append batch log

def produceIo (p : Partition) (fails : Bool) (batch : RecordBatch) : Partition × Expected Int :=
  let out := p.producers.produce (appendIo fails batch) (·.logEndOffset) p.log batch
  ({ p with log := out.1.1, producers := out.1.2 }, out.2)

end Partition

instance : PartitionBase Partition Bool where
  protocol := Partition.protocol
  setProtocol p proto := { p with protocol := proto }
  produce := Partition.produceIo
  fetch p offset maxBytes := (p.log.read offset maxBytes).map FetchResult.encoded
  highWatermark p := p.log.logEndOffset
  logStartOffset p := p.log.logStartOffset
  logEndOffset p := p.log.logEndOffset

instance : PartitionBase ReplicatedPartition LogIo where
  protocol := ReplicatedPartition.protocol
  setProtocol p proto := { p with protocol := proto }
  produce := ReplicatedPartition.produce
  fetch p offset maxBytes := (p.fetch offset maxBytes).map FetchResult.encoded
  highWatermark := ReplicatedPartition.highWatermark
  logStartOffset p := p.log.logStartOffset
  logEndOffset p := p.log.logEndOffset

theorem handleProduce_eq (part : Option ReplicatedPartition) (io : LogIo) (req : ProduceRequest) :
    PartitionBase.handleProduce part io req = handleProduce part io req := by
  cases part with
  | none => rfl
  | some p =>
    unfold PartitionBase.handleProduce handleProduce
    cases req.batch with
    | error e => rfl
    | ok batch =>
      dsimp only
      have hclaim : PartitionBase.claimProtocol p .native = p.claimProtocol .native := rfl
      rw [hclaim]
      cases p.claimProtocol .native with
      | error e => rfl
      | ok p =>
        dsimp only
        have hproduce : PartitionBase.produce p io batch = p.produce io batch := rfl
        cases (p.produce io batch).2 <;> simp only [hproduce]

theorem handleFetch_eq (part : Option ReplicatedPartition) (req : FetchRequest) :
    PartitionBase.handleFetch part req =
      { error := (handleFetch part req).error
        result := (handleFetch part req).result.encoded
        highWatermark := (handleFetch part req).highWatermark
        logStartOffset := (handleFetch part req).logStartOffset } := by
  cases part with
  | none => rfl
  | some p =>
    unfold PartitionBase.handleFetch handleFetch
    dsimp only
    have hprotocol : PartitionBase.protocol p = p.protocol := rfl
    rw [hprotocol]
    by_cases hproto : p.protocol ≠ .unset ∧ p.protocol ≠ .native
    · rw [if_pos hproto, if_pos hproto]
      rfl
    · have hfetch : PartitionBase.fetch p req.fetchOffset (fetchLimit req.maxBytes) =
          (p.fetch req.fetchOffset (fetchLimit req.maxBytes)).map FetchResult.encoded := rfl
      rw [if_neg hproto, if_neg hproto, hfetch]
      cases p.fetch req.fetchOffset (fetchLimit req.maxBytes) <;> rfl

namespace PartitionBase

/-- `contents` are the batches of the log: a produce keeps them, or adds its own. -/
class Lawful (σ : Type) {ι : outParam Type} [PartitionBase σ ι] where
  contents : σ → List RecordBatch
  protocol_setProtocol (p : σ) (proto : WireProtocol) : protocol (setProtocol p proto) = proto
  contents_setProtocol (p : σ) (proto : WireProtocol) : contents (setProtocol p proto) = contents p
  protocol_produce (p : σ) (io : ι) (batch : RecordBatch) :
    protocol (produce p io batch).1 = protocol p
  contents_produce (p : σ) (io : ι) (batch : RecordBatch) :
    contents (produce p io batch).1 = contents p ∨
      ∃ base, contents (produce p io batch).1 = contents p ++ [batch.rebase base]

end PartitionBase

section Laws

variable {l l' : PartitionLog} {batch : RecordBatch} {last : Int}

theorem Producers.produce_log {σ : Type} (append : σ → σ × Expected Int) (logEndOffset : σ → Int)
    (log : σ) (m : Producers) (batch : RecordBatch) :
    (m.produce append logEndOffset log batch).1.1 = log ∨
      (m.produce append logEndOffset log batch).1.1 = (append log).1 ∧
        (m.produce append logEndOffset log batch).2 = (append log).2 := by
  unfold Producers.produce
  split
  · exact .inr ⟨rfl, rfl⟩
  · dsimp only
    split
    · exact .inl rfl
    · exact .inl rfl
    · exact .inl rfl
    · split
      · rename_i herror
        exact .inr ⟨rfl, herror.symm⟩
      · rename_i hok
        exact .inr ⟨rfl, hok.symm⟩

/-- What a produce does to the log: nothing, or it puts the batch after the others, at the offset
where the log ended, and answers with its last offset. -/
def PartitionLog.Takes (l l' : PartitionLog) (batch : RecordBatch) (answer : Expected Int) : Prop :=
  l' = l ∨
    flat l'.segments = flat l.segments ++ [batch.rebase l.logEndOffset] ∧
      l'.logEndOffset = l.logEndOffset + batch.header.recordCount ∧
      answer = .ok (l.logEndOffset + batch.header.recordCount - 1)

theorem PartitionLog.Takes.flat {answer : Expected Int} (h : l.Takes l' batch answer) :
    Nexus.flat l'.segments = Nexus.flat l.segments ∨
      ∃ base, Nexus.flat l'.segments = Nexus.flat l.segments ++ [batch.rebase base] :=
  h.imp (fun heq => by rw [heq]) fun hadd => ⟨_, hadd.1⟩

theorem PartitionLog.append_spec (h : l.append batch = .ok (l', last)) :
    flat l'.segments = flat l.segments ++ [batch.rebase l.logEndOffset] ∧
      l'.logEndOffset = l.logEndOffset + batch.header.recordCount ∧
      last = l.logEndOffset + batch.header.recordCount - 1 := by
  have hrolled : flat l.rolled.segments = flat l.segments ∧
      l.rolled.logEndOffset = l.logEndOffset := by
    unfold rolled
    split
    · simp [rollSegment, segments, Segment.create, Segment.sealSegment]
    · exact ⟨rfl, rfl⟩
  have hsync : ∀ (l : PartitionLog) (k : Nat), (l.maybeSync k).segments = l.segments ∧
      (l.maybeSync k).logEndOffset = l.logEndOffset := by
    intro l k
    unfold maybeSync
    split
    · exact ⟨rfl, rfl⟩
    · exact ⟨rfl, rfl⟩
    · dsimp only
      split <;> exact ⟨rfl, rfl⟩
  unfold append at h
  dsimp only at h
  split at h
  · cases h
  · rename_i active last' happend
    obtain ⟨hl, rfl⟩ := Prod.mk.inj (Except.ok.inj h)
    unfold Segment.append at happend
    split at happend
    · cases happend
    · obtain ⟨hactive, hlast⟩ := Prod.mk.inj (Except.ok.inj happend)
      rw [RecordBatch.lastOffset_rebase, hrolled.2] at hlast
      refine ⟨?_, ?_, hlast.symm⟩
      · rw [← hl, (hsync _ _).1, ← hactive, ← hrolled.1, ← hrolled.2]
        simp [segments]
      · rw [← hl, (hsync _ _).2]
        change last' + 1 = _
        omega

theorem PartitionLog.takes_append (h : l.append batch = .ok (l', last)) :
    l.Takes l' batch (.ok last) := by
  obtain ⟨hflat, hend, rfl⟩ := append_spec h
  exact .inr ⟨hflat, hend, rfl⟩

theorem RaftLog.append_one (r : RaftLog) (fails : Option Nat) (entry : RaftLogEntry) :
    (∃ e, r.append fails [entry] = (r, .error e)) ∨
      ∃ log last, r.log.append entry.payload = .ok (log, last) ∧
        r.append fails [entry] =
          ({ r with
              log
              entries := r.entries ++ [⟨entry.term, r.log.logEndOffset, last, entry.type⟩] },
            .ok (r.lastIndex + 1)) := by
  unfold RaftLog.append
  split
  · contradiction
  · exact .inl ⟨_, rfl⟩
  · rename_i heq
    obtain ⟨rfl, rfl⟩ := cons.inj heq
    split
    · exact .inl ⟨_, rfl⟩
    · rename_i log last happend
      refine .inr ⟨log, last, happend, ?_⟩
      simp [RaftLog.append, RaftLog.lastIndex, Nat.add_assoc]

/-- The entry that is appended is found at the last index. -/
theorem RaftLog.takes_append_one (r : RaftLog) (fails : Option Nat) (entry : RaftLogEntry) :
    (∃ e, r.append fails [entry] = (r, .error e)) ∨
      ∃ index base last, r.log.Takes (r.append fails [entry]).1.log entry.payload (.ok last) ∧
        (r.append fails [entry]).2 = .ok index ∧
        (r.append fails [entry]).1.offsetsAt index = .ok (base, last) := by
  refine (r.append_one fails entry).imp id ?_
  rintro ⟨log, last, happend, heq⟩
  refine ⟨r.lastIndex + 1, r.log.logEndOffset, last, ?_⟩
  rw [heq]
  refine ⟨takes_append happend, rfl, ?_⟩
  unfold RaftLog.offsetsAt
  rw [if_neg (by simp only [RaftLog.lastIndex]; omega)]
  have hslot : r.lastIndex + 1 - r.snapshotIndex - 1 = r.entries.length := by
    unfold RaftLog.lastIndex
    omega
  simp [RaftLog.slotOf, hslot]

theorem RaftNode.log_propose (n : RaftNode) (io : LogIo) (batch : RecordBatch) :
    (n.propose io batch).1.log = n.log ∨
      ∃ entry : RaftLogEntry, entry.payload = batch ∧
        (n.propose io batch).1.log = (n.log.append io.appendFails [entry]).1 ∧
        (n.propose io batch).2 = (n.log.append io.appendFails [entry]).2 := by
  unfold RaftNode.propose
  split
  · exact .inl rfl
  · refine .inr ⟨{ term := n.currentTerm, index := n.log.lastIndex + 1, payload := batch }, rfl, ?_⟩
    dsimp only
    split
    · rename_i herror
      exact ⟨rfl, herror.symm⟩
    · rename_i hok
      rw [RaftNode.log_advanceCommitIndex]
      obtain ⟨out, hcore⟩ := RaftNode.core_replicateAll (n.setLog _) io
      exact ⟨congrArg Core.log hcore, hok.symm⟩

theorem Partition.takes_produceIo (p : Partition) (fails : Bool) (batch : RecordBatch) :
    p.log.Takes (p.produceIo fails batch).1.log batch (p.produceIo fails batch).2 := by
  have happend : p.log.Takes (Partition.appendIo fails batch p.log).1 batch
      (Partition.appendIo fails batch p.log).2 := by
    unfold Partition.appendIo Partition.append
    split
    · exact .inl rfl
    · split
      · exact .inl rfl
      · rename_i hok
        exact takes_append hok
  unfold Partition.produceIo
  dsimp only
  rcases p.producers.produce_log (Partition.appendIo fails batch) (·.logEndOffset) p.log batch with
    h | ⟨hlog, hanswer⟩
  · exact .inl h
  · rw [hlog, hanswer]
    exact happend

theorem ReplicatedPartition.takes_produce (p : ReplicatedPartition) (io : LogIo)
    (batch : RecordBatch) :
    p.log.Takes (p.produce io batch).1.log batch (p.produce io batch).2 := by
  have hpropose : p.raft.log.log.Takes (proposeOffset io batch p.raft).1.log.log batch
      (proposeOffset io batch p.raft).2 := by
    rw [proposeOffset_fst]
    rcases p.raft.log_propose io batch with hlog | ⟨entry, rfl, hlog, hindex⟩
    · exact .inl (by rw [hlog])
    rcases p.raft.log.takes_append_one io.appendFails entry with ⟨e, hsame⟩ |
      ⟨index, base, last, htakes, hok, hoffsets⟩
    · exact .inl (by rw [hlog, hsame])
    · have hanswer : (proposeOffset io entry.payload p.raft).2 = .ok last := by
        unfold proposeOffset
        simp only [hindex, hok, hlog, hoffsets]
      rw [hlog, hanswer]
      exact htakes
  unfold ReplicatedPartition.produce
  split
  · exact .inl rfl
  · unfold ReplicatedPartition.log
    dsimp only
    rcases p.producers.produce_log (proposeOffset io batch) (·.log.log.logEndOffset) p.raft batch
      with h | ⟨hlog, hanswer⟩
    · exact .inl (by rw [h])
    · rw [hlog, hanswer]
      exact hpropose

instance : PartitionBase.Lawful Partition where
  contents p := flat p.log.segments
  protocol_setProtocol _ _ := rfl
  contents_setProtocol _ _ := rfl
  protocol_produce _ _ _ := rfl
  contents_produce p fails batch := (p.takes_produceIo fails batch).flat

instance : PartitionBase.Lawful ReplicatedPartition where
  contents p := flat p.log.segments
  protocol_setProtocol _ _ := rfl
  contents_setProtocol _ _ := rfl
  protocol_produce p io batch := by
    change (p.produce io batch).1.protocol = p.protocol
    unfold ReplicatedPartition.produce
    split <;> rfl
  contents_produce p io batch := (p.takes_produce io batch).flat

end Laws

/-! ## One protocol -/

namespace PartitionBase

open Lawful

variable {σ ι : Type} [PartitionBase σ ι] [Lawful σ] {writers : List (RecordBatch × WireProtocol)}
  {p : σ}

/-- What a request through `c` may do: claim a partition that no one has, and then write to it. -/
structure Claims (c : WireProtocol) (p q : σ) : Prop where
  owner : protocol q = protocol p ∨ protocol p = .unset ∧ protocol q = c
  log : contents q = contents p ∨ protocol q = c ∧ ∃ b, contents q = contents p ++ [b]

theorem Claims.refl (c : WireProtocol) (p : σ) : Claims c p p := ⟨.inl rfl, .inl rfl⟩

/-- Both produce handlers claim the partition and then produce. -/
theorem claims_produce {claimed : σ} {c : WireProtocol} (h : claimProtocol p c = .ok claimed)
    (io : ι) (batch : RecordBatch) : Claims c p (produce claimed io batch).1 := by
  unfold claimProtocol at h
  split at h
  · rename_i hproto
    rw [← Except.ok.inj h]
    have hc : protocol (produce (setProtocol p c) io batch).1 = c := by
      rw [protocol_produce, protocol_setProtocol]
    refine ⟨?_, ?_⟩
    · rcases hproto with hunset | hsame
      · exact .inr ⟨hunset, hc⟩
      · exact .inl (hc.trans hsame.symm)
    · rw [hc, ← contents_setProtocol p c]
      rcases contents_produce (setProtocol p c) io batch with hkeep | ⟨base, hadd⟩
      · exact .inl hkeep
      · exact .inr ⟨rfl, _, hadd⟩
  · cases h

theorem claims_handleProduce (p : σ) (io : ι) (req : ProduceRequest) :
    Claims .native p ((handleProduce (some p) io req).1.getD p) := by
  unfold handleProduce
  cases req.batch with
  | error e => exact .refl _ p
  | ok batch =>
    cases hclaim : claimProtocol p .native with
    | error e =>
      dsimp only
      rw [hclaim]
      exact .refl _ p
    | ok claimed =>
      have h := claims_produce hclaim io batch
      dsimp only
      rw [hclaim]
      dsimp only
      split <;> exact h

theorem claims_producePartition (p : σ) (io : ι) (blob : Bytes) :
    Claims .kafka p ((producePartition (some p) io blob).1.getD p) := by
  unfold producePartition
  dsimp only
  split
  · exact .refl _ p
  split
  · exact .refl _ p
  cases hclaim : claimProtocol p .kafka with
  | error e => exact .refl _ p
  | ok claimed =>
    rename_i total _ _
    have h := claims_produce hclaim io (envelope blob total)
    dsimp only
    split <;> exact h

theorem claims_serve (p : σ) (r : Request ι) : Claims r.protocol p (serve p r) := by
  cases r with
  | produce io req => exact claims_handleProduce p io req
  | kafkaProduce io blob => exact claims_producePartition p io blob
  | fetch req => exact .refl _ p
  | kafkaFetch req => exact .refl _ p

/-- The batches that the requests add to the log, each with the protocol of its request. -/
def writersOf (p : σ) : List (Request ι) → List (RecordBatch × WireProtocol)
  | [] => []
  | r :: rs =>
    let q := serve p r
    ((contents q).drop (contents p).length).map (·, r.protocol) ++ writersOf q rs

/-- The log and who wrote it: the protocol of the partition, if it has one. -/
structure Owned (p : σ) (writers : List (RecordBatch × WireProtocol)) : Prop where
  log : contents p = writers.map Prod.fst
  owner : ∀ x ∈ writers, x.2 = protocol p
  claimed : protocol p = .unset → writers = []

theorem Request.protocol_ne_unset (r : Request ι) : r.protocol ≠ .unset := by
  cases r <;> exact WireProtocol.noConfusion

theorem Owned.serve (h : Owned p writers) (r : Request ι) :
    Owned (PartitionBase.serve p r) (writers ++
      ((contents (PartitionBase.serve p r)).drop (contents p).length).map (·, r.protocol)) := by
  obtain ⟨hproto, hbatches⟩ := claims_serve p r
  generalize PartitionBase.serve p r = q at hproto hbatches ⊢
  -- a partition that is claimed only now was empty
  have howner : ∀ x ∈ writers, x.2 = protocol q := by
    intro x hx
    rcases hproto with hsame | ⟨hunset, -⟩
    · rw [hsame, h.owner x hx]
    · rw [h.claimed hunset] at hx
      cases hx
  have hkept : protocol q = .unset → writers = [] := by
    intro hunset
    rcases hproto with hsame | ⟨-, hnew⟩
    · exact h.claimed (hsame ▸ hunset)
    · exact absurd (hnew.symm.trans hunset) r.protocol_ne_unset
  rcases hbatches with hkeep | ⟨hmine, b, hadd⟩
  · rw [hkeep, drop_length, map_nil, append_nil]
    exact ⟨hkeep.trans h.log, howner, hkept⟩
  · rw [hadd, drop_left, map_singleton]
    refine ⟨?_, ?_, fun hunset => absurd (hmine.symm.trans hunset) r.protocol_ne_unset⟩
    · rw [hadd, h.log, map_append, map_singleton]
    · intro x hx
      rcases mem_append.mp hx with hx | hx
      · exact howner x hx
      · rw [mem_singleton.mp hx, hmine]

theorem Owned.run (h : Owned p writers) (rs : List (Request ι)) :
    Owned (Lib.run PartitionBase.serve p rs) (writers ++ writersOf p rs) := by
  induction rs generalizing p writers with
  | nil =>
    rw [writersOf, append_nil]
    exact h
  | cons r rs ih =>
    rw [writersOf, ← append_assoc]
    exact ih (h.serve r)

/-- The log after the requests is what they wrote, all of it through one protocol; a request that
gets bytes of it came through that protocol too. -/
structure OneProtocol (p : σ) (rs : List (Request ι)) : Prop where
  log : contents (Lib.run serve p rs) = (writersOf p rs).map Prod.fst
  same : ∃ proto, ∀ x ∈ writersOf p rs, x.2 = proto
  read : ∀ r : Request ι, bytesOf (Lib.run serve p rs) r ≠ [] →
    ∀ x ∈ writersOf p rs, x.2 = r.protocol

theorem oneProtocol_of_empty (hempty : contents p = []) (rs : List (Request ι)) :
    OneProtocol p rs := by
  have hnew : Owned p [] := ⟨hempty, nofun, fun _ => rfl⟩
  have h := hnew.run rs
  rw [nil_append] at h
  refine ⟨h.log, ⟨_, h.owner⟩, fun r hr x hx => ?_⟩
  rcases protocol_of_bytesOf hr with hnone | hsame
  · rw [h.claimed hnone] at hx
    cases hx
  · rw [h.owner x hx, hsame]

end PartitionBase

/-- On a partition that starts with an empty log, local or replicated, whatever the requests are and
whichever of them fail. -/
theorem one_protocol :
    (∀ cfg rs, PartitionBase.OneProtocol ({ log := .create cfg } : Partition) rs) ∧
    ∀ (raft : RaftNode) (cfg : LogConfig) (rs), PartitionBase.OneProtocol
      ({ raft := { raft with log := .create cfg } } : ReplicatedPartition) rs :=
  ⟨fun _ rs => PartitionBase.oneProtocol_of_empty rfl rs,
    fun _ _ rs => PartitionBase.oneProtocol_of_empty rfl rs⟩

-- a native write is read by the native protocol, and refused to the other one
example :
    let written := PartitionBase.serve ({ log := .create {} } : Partition)
      (.produce false { batch := .ok { header := { recordCount := 1 }, records := [1] } })
    (PartitionBase.bytesOf written (.fetch {})).length = 37 ∧
      (PartitionBase.fetchPartition (some written) {}).errorCode = 42 := by
  decide +kernel

end Nexus
