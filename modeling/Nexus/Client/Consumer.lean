import Nexus.Broker.StoredPartition
import Nexus.Protocol.Records

/-!
# The consumer

`client/consumer.cpp`: a consumer polls one partition from its position on, decodes the batches that
the broker answers with, and moves its position past them. The answer of the broker is that of
`handle_fetch`; how it travels is left out.

* `poll_eq`: what a poll returns, in terms of the batches of the log.
* `ReadsExactly`: the polls after a `seek` return the records from there on, each one once.
* `readsExactly_iff`: they do if the position is where a batch starts and the batches from there on
  can be read.
-/

namespace Nexus.Wire

open Lib BuiltBatch List

structure ConsumedRecord where
  offset : Int := 0
  key : Option (Counted UInt8)
  value : Option (Counted UInt8)
  headers : Counted RecordHeader
  deriving DecidableEq

def Record.consumed (rec : Record) : ConsumedRecord :=
  { offset := rec.offset, key := rec.key, value := rec.value, headers := rec.headers }

/-- `to_error`, for the answers of `handle_fetch`. -/
def toError : Nexus.WireError → Error
  | .unknownTopicOrPartition => ⟨.notFound, "topic o partición desconocidos"⟩
  | .offsetOutOfRange => ⟨.outOfRange, "offset fuera de rango"⟩
  | .corruptMessage => ⟨.corrupt, "mensaje corrupto"⟩
  | .unsupportedVersion => ⟨.unsupported, "versión no soportada"⟩
  | .invalidRequest => ⟨.invalidArgument, "petición inválida"⟩
  | .invalidProducerEpoch => ⟨.fenced, "época de productor obsoleta (fenced)"⟩
  | .leaderNotAvailable => ⟨.ioError, "líder no disponible"⟩
  | .none => ⟨.invalidArgument, "sin error (None)"⟩

/-- The loop of `poll`: the records so far and the position. It stops before what is not whole, or
cannot be decoded. -/
def pollLoop (lib : Compressor) (remaining : Bytes) (out : List ConsumedRecord) (position : Int) :
    List ConsumedRecord × Int :=
  if _hne : remaining = [] then (out, position)
  else
    match _h : RecordBatch.peek remaining with
    | .error _ => (out, position)
    | .ok view =>
      if view.encodedSize > remaining.length then (out, position)
      else
        match RecordBatch.decode (remaining.take view.encodedSize) with
        | .error _ => (out, position)
        | .ok batch =>
          match decodeRecords lib batch kMaxRecordBytes with
          | .error _ => (out, position)
          | .ok records =>
            pollLoop lib (remaining.drop view.encodedSize) (out ++ records.map Record.consumed)
              (batch.lastOffset + 1)
termination_by remaining.length
decreasing_by
  have hlen := List.length_pos_iff.mpr _hne
  rw [List.length_drop]
  exact Nat.sub_lt hlen (lt_encodedSize _h)

structure Consumer where
  position : Int := 0
  deriving DecidableEq

namespace Consumer

def seek (_ : Consumer) (offset : Int) : Consumer := { position := offset }

def poll {σ ι : Type} [PartitionBase σ ι] (lib : Compressor) (part : σ) (c : Consumer)
    (maxBytes : Int) : Expected (List ConsumedRecord) × Consumer :=
  let resp := PartitionBase.handleFetch (some part) { fetchOffset := c.position, maxBytes }
  if resp.error ≠ .none then (.error (toError resp.error), c)
  else
    let out := pollLoop lib resp.result.batches [] c.position
    (.ok out.1, { position := out.2 })

/-- Polls with these limits, one after another: what they return together. -/
def polls {σ ι : Type} [PartitionBase σ ι] (lib : Compressor) (part : σ) :
    Consumer → List Int → Expected (List ConsumedRecord) × Consumer
  | c, [] => (.ok [], c)
  | c, maxBytes :: rest =>
    match poll lib part c maxBytes with
    | (.error e, c) => (.error e, c)
    | (.ok out, c) =>
      match polls lib part c rest with
      | (.error e, c) => (.error e, c)
      | (.ok outs, c) => (.ok (out ++ outs), c)

end Consumer

/-! ## What a poll returns -/

namespace BuiltBatch

variable {lib : Compressor} {r : ConsumedRecord} {bs : List (BuiltBatch lib)}
  {records : List Record} {base : Int}

/-- The records of the batch, as a consumer gets them. -/
def consumed (b : BuiltBatch lib) : List ConsumedRecord :=
  (numbered b.batch.header.baseOffset b.records).map Record.consumed

def readable (b : BuiltBatch lib) : Bool := decide b.Readable

/-- Where the batches end, the first of them at `o`. -/
def endOfAll (o : Int) (bs : List (BuiltBatch lib)) : Int := endOf o (bs.map BuiltBatch.batch)

theorem pollLoop_encodeAll (hfits : ∀ b ∈ bs, b.batch.Fits)
    (out : List ConsumedRecord) (position : Int) :
    pollLoop lib (Raw.encodeAll (bs.map batch)) out position =
      (out ++ (bs.takeWhile readable).flatMap consumed,
        endOfAll position (bs.takeWhile readable)) := by
  induction bs generalizing out position with
  | nil =>
    rw [map_nil, Raw.encodeAll_nil, pollLoop, dif_pos rfl]
    exact Prod.ext (append_nil out).symm rfl
  | cons b bs ih =>
    have hb := hfits b mem_cons_self
    have hne : Raw.encodeAll ((b :: bs).map batch) ≠ [] :=
      Raw.encodeAll_cons_ne_nil _ _
    have hpeek := RecordBatch.peek_whole (Raw.encodeAll (bs.map batch)) hb
    have hlen : (Raw.encodeAll ((b :: bs).map batch)).length =
        b.batch.encodedSize + (Raw.encodeAll (bs.map batch)).length := by
      rw [map_cons, Raw.encodeAll_cons, length_append, RecordBatch.length_encode]
    have hdecode := RecordBatch.decode_encode [] hb
    rw [append_nil] at hdecode
    rw [pollLoop, dif_neg hne]
    split
    · rename_i e he
      rw [map_cons, Raw.encodeAll_cons, hpeek] at he
      exact nomatch he
    · rename_i view hview
      rw [map_cons, Raw.encodeAll_cons, hpeek] at hview
      rw [← Except.ok.inj hview]
      dsimp only
      rw [if_neg (by omega), map_cons, Raw.encodeAll_cons,
        take_left' (RecordBatch.length_encode _), hdecode,
        drop_left' (RecordBatch.length_encode _)]
      dsimp only
      by_cases hread : b.Readable
      · have hpos : b.readable = true := decide_eq_true hread
        rw [(decodeRecords_built hb).1 hread, takeWhile_cons_of_pos hpos]
        dsimp only
        rw [ih fun c hc => hfits c (mem_cons_of_mem _ hc), flatMap_cons,
          append_assoc]
        rfl
      · obtain ⟨e, he⟩ := (decodeRecords_built hb).2 hread
        have hneg : ¬ b.readable = true := fun h => hread (of_decide_eq_true h)
        rw [he, takeWhile_cons_of_neg hneg]
        exact Prod.ext (append_nil out).symm rfl

/-! ### Offsets -/

theorem mem_numbered {r : Record}
    (h : r ∈ numbered base records) : base ≤ r.offset ∧ r.offset < base + records.length := by
  induction records generalizing base with
  | nil => exact nomatch h
  | cons rec recs ih =>
    rw [length_cons]
    rcases mem_cons.mp h with rfl | h
    · dsimp only
      omega
    · have := ih h
      omega

theorem getLast_numbered {r : Record}
    (h : (numbered base records).getLast? = some r) : r.offset + 1 = base + records.length := by
  induction records generalizing base with
  | nil => exact nomatch h
  | cons rec recs ih =>
    cases recs with
    | nil =>
      rw [← Option.some.inj h]
      rfl
    | cons next recs =>
      rw [numbered, numbered, getLast?_cons_cons, ← numbered] at h
      have := ih h
      simp only [length_cons] at this ⊢
      omega

variable {b : BuiltBatch lib}

section

variable (hfits : b.batch.Fits)

include hfits

theorem lastOffset_eq :
    b.batch.lastOffset + 1 = b.batch.header.baseOffset + b.records.length := by
  have hcount := recordCount_eq hfits
  rw [RecordBatch.lastOffset, hcount]
  omega

theorem offset_of_mem_consumed (h : r ∈ b.consumed) :
    b.batch.baseOffset ≤ r.offset ∧ r.offset ≤ b.batch.lastOffset := by
  obtain ⟨rec, hrec, rfl⟩ := mem_map.mp h
  have hmem := mem_numbered hrec
  have hlast := lastOffset_eq hfits
  exact ⟨hmem.1, by change rec.offset ≤ _; omega⟩

theorem offset_of_getLast_consumed (h : b.consumed.getLast? = some r) :
    r.offset = b.batch.lastOffset := by
  rw [consumed, getLast?_map, Option.map_eq_some_iff] at h
  obtain ⟨rec, hrec, rfl⟩ := h
  have hnumbered := getLast_numbered hrec
  have hlast := lastOffset_eq hfits
  change rec.offset = _
  omega

theorem consumed_ne_nil (hcount : 1 ≤ b.batch.header.recordCount) :
    b.consumed ≠ [] := by
  have hrecords := recordCount_eq hfits
  rw [← length_pos_iff, consumed, length_map, length_numbered]
  omega

end

/-- The first record of a batch is at its base. -/
theorem offset_of_head_consumed (h : b.consumed.head? = some r) :
    r.offset = b.batch.baseOffset := by
  rw [consumed, head?_map, Option.map_eq_some_iff] at h
  obtain ⟨rec, hrec, rfl⟩ := h
  cases hrecords : b.records with
  | nil =>
    rw [hrecords] at hrec
    exact nomatch hrec
  | cons first rest =>
    rw [hrecords] at hrec
    rw [← Option.some.inj hrec]
    rfl

/-- The records of the log from an offset on. -/
def recordsFrom (o : Int) (bs : List (BuiltBatch lib)) : List ConsumedRecord :=
  (bs.flatMap consumed).filter (o ≤ ·.offset)

theorem endOfAll_append (o : Int) (bs cs : List (BuiltBatch lib)) :
    endOfAll o (bs ++ cs) = endOfAll (endOfAll o bs) cs := by
  rw [endOfAll, map_append, endOf_append]
  rfl

/-- At the start of a batch, they are the records of the batches from that one on. -/
theorem recordsFrom_endOfAll {start : Int} {pre ds : List (BuiltBatch lib)}
    (hchain : Chain start ((pre ++ ds).map batch)) (hfits : ∀ b ∈ pre ++ ds, b.batch.Fits) :
    recordsFrom (endOfAll start pre) (pre ++ ds) = ds.flatMap consumed := by
  rw [map_append, chain_append] at hchain
  have hbefore : (pre.flatMap consumed).filter (endOfAll start pre ≤ ·.offset) = [] := by
    rw [filter_eq_nil_iff]
    intro r hr hle
    obtain ⟨b, hb, hr⟩ := mem_flatMap.mp hr
    have hoffset := offset_of_mem_consumed (hfits b (mem_append_left _ hb)) hr
    have hbelow := of_decide_eq_true (hchain.1.below_endOf _ (mem_map_of_mem hb))
    have hge := of_decide_eq_true hle
    unfold endOfAll at hge
    omega
  have hafter : (ds.flatMap consumed).filter (endOfAll start pre ≤ ·.offset) =
      ds.flatMap consumed := by
    rw [filter_eq_self]
    intro r hr
    obtain ⟨b, hb, hr⟩ := mem_flatMap.mp hr
    have hoffset := offset_of_mem_consumed (hfits b (mem_append_right _ hb)) hr
    have hbase := hchain.2.le_baseOffset _ (mem_map_of_mem hb)
    exact decide_eq_true (Int.le_trans hbase hoffset.1)
  rw [recordsFrom, flatMap_append, filter_append, hbefore, hafter, nil_append]

/-- The last record of batches is just before where they end. -/
theorem endOfAll_of_getLast {start o : Int}
    (hchain : Chain start (bs.map batch)) (hfits : ∀ b ∈ bs, b.batch.Fits)
    (h : (bs.flatMap consumed).getLast? = some r) : endOfAll o bs = r.offset + 1 := by
  rcases eq_nil_or_concat bs with rfl | ⟨init, b, rfl⟩
  · exact nomatch h
  · rw [concat_eq_append] at *
    have hb := hfits b (mem_append_right _ mem_cons_self)
    rw [map_append, chain_append] at hchain
    have hne := consumed_ne_nil hb hchain.2.2.1
    rw [flatMap_append, flatMap_singleton,
      getLast?_append_of_ne_nil _ hne] at h
    rw [endOfAll_append, offset_of_getLast_consumed hb h]
    rfl

end BuiltBatch

/-! ## Polls -/

open BuiltBatch

/-- A partition with a log of built batches that native clients may read. -/
structure Serves {lib : Compressor} (p : Raw.Partition) (c : Raw.BatchList)
    (bs : List (BuiltBatch lib)) : Prop where
  log : p.log.Refines c
  batches : c.batches = bs.map BuiltBatch.batch
  fits : ∀ b ∈ bs, b.batch.Fits
  protocol : p.protocol ≠ .kafka

/-- The batches that a read from the offset on looks at. -/
def pending {lib : Compressor} (o : Int) (bs : List (BuiltBatch lib)) : List (BuiltBatch lib) :=
  bs.dropWhile fun b => below o b.batch

theorem pending_endOfAll {lib : Compressor} {start : Int} {pre ds : List (BuiltBatch lib)}
    (hchain : Chain start ((pre ++ ds).map batch)) :
    pending (endOfAll start pre) (pre ++ ds) = ds := by
  rw [map_append, chain_append] at hchain
  have hbelow : ∀ b ∈ pre, below (endOfAll start pre) b.batch = true := fun b hb =>
    hchain.1.below_endOf _ (mem_map_of_mem hb)
  rw [pending, dropWhile_append_of_pos hbelow]
  cases ds with
  | nil => rfl
  | cons d ds =>
    have hd := hchain.2.le_lastOffset (Int.le_refl _) d.batch mem_cons_self
    exact dropWhile_cons_of_neg fun hlt => Int.not_le.mpr (of_decide_eq_true hlt) hd

theorem takeRun_eq_take {m : Nat} (hm : 0 < m) (bs : List RecordBatch) :
    ∃ k, takeRun m bs = bs.take k ∧ (bs ≠ [] → 0 < k) := by
  by_cases hne : bs = []
  · exact ⟨0, by rw [hne]; rfl, fun h => absurd hne h⟩
  · obtain ⟨htaken, -, rest, hsplit, -⟩ := Raw.takeRun_spec hm hne
    refine ⟨(takeRun m bs).length, ?_, fun _ => length_pos_iff.mpr htaken⟩
    have htake := @take_left _ (takeRun m bs) rest
    rw [← hsplit] at htake
    exact htake.symm

namespace Serves

variable {lib : Compressor} {p : Raw.Partition} {c : Raw.BatchList} {bs : List (BuiltBatch lib)}
  {o : Int}

section

variable (h : Serves p c bs)

include h

theorem chain : Chain c.start (bs.map batch) :=
  h.batches ▸ h.log.chain

/-- A poll returns the first pending batches, at least one if there are any, but none from the first
one on that cannot be read. -/
theorem poll_eq {m : Int} (hlo : p.log.logStartOffset ≤ o) (hm : 0 < m) :
    ∃ k, (pending o bs ≠ [] → 0 < k) ∧ Consumer.poll lib p ⟨o⟩ m =
      (.ok ((((pending o bs).take k).takeWhile readable).flatMap consumed),
        ⟨endOfAll o (((pending o bs).take k).takeWhile readable)⟩) := by
  have hlimit : fetchLimit m = m.toNat := if_pos hm
  have hpending : c.batches.dropWhile (below o) = (pending o bs).map batch := by
    rw [h.batches, dropWhile_map]
    rfl
  obtain ⟨k, htake, hk⟩ := takeRun_eq_take (show 0 < m.toNat by omega)
    ((pending o bs).map batch)
  have hread := h.log.read hlo m.toNat
  rw [hpending, htake, ← map_take] at hread
  have hfetch : PartitionBase.fetch p o (fetchLimit m) = _ := (hlimit ▸ hread :)
  have hproto : ¬ (PartitionBase.protocol p ≠ .unset ∧ PartitionBase.protocol p ≠ .native) := by
    have hkafka : PartitionBase.protocol p ≠ .kafka := h.protocol
    cases hp : PartitionBase.protocol p with
    | unset => exact fun hboth => hboth.1 rfl
    | native => exact fun hboth => hboth.2 rfl
    | kafka => exact absurd hp hkafka
  have hfits : ∀ b ∈ (pending o bs).take k, b.batch.Fits := fun b hb =>
    h.fits b ((dropWhile_sublist _).subset (mem_of_mem_take hb))
  refine ⟨k, fun hne => hk (by rwa [ne_eq, map_eq_nil_iff]), ?_⟩
  unfold Consumer.poll PartitionBase.handleFetch
  dsimp only
  rw [if_neg hproto, hfetch]
  dsimp only
  rw [if_neg (fun hne => hne rfl), pollLoop_encodeAll hfits, nil_append]

/-- From the start of a batch on, if all batches can be read. -/
theorem polls_readable {pre ds : List (BuiltBatch lib)}
    (hsplit : bs = pre ++ ds) (hlo : p.log.logStartOffset ≤ endOfAll c.start pre)
    (hds : ∀ d ∈ ds, d.Readable)
    {limits : List Int} (hlimits : ∀ m ∈ limits, 0 < m) :
    ∃ j, (limits.length ≤ j ∨ ds.length ≤ j) ∧
      Consumer.polls lib p ⟨endOfAll c.start pre⟩ limits =
        (.ok ((ds.take j).flatMap consumed), ⟨endOfAll c.start (pre ++ ds.take j)⟩) := by
  induction limits generalizing pre ds with
  | nil => exact ⟨0, .inl (Nat.le_refl 0), by simp [Consumer.polls]⟩
  | cons m rest ih =>
    have hchain := h.chain
    rw [hsplit, map_append] at hchain
    have hpending : pending (endOfAll c.start pre) bs = ds :=
      hsplit ▸ pending_endOfAll (map_append ▸ hchain)
    obtain ⟨k, hk, hpoll⟩ := h.poll_eq hlo (hlimits m mem_cons_self)
    have hall : (ds.take k).takeWhile readable = ds.take k :=
      takeWhile_eq_self_iff.mpr fun d hd => decide_eq_true (hds d (mem_of_mem_take hd))
    rw [hpending, hall, ← endOfAll_append] at hpoll
    rw [hpending] at hk
    have hmono : endOfAll c.start pre ≤ endOfAll c.start (pre ++ ds.take k) := by
      rw [endOfAll_append]
      rw [← take_append_drop k ds, map_append, chain_append, chain_append] at hchain
      exact hchain.2.1.le_endOf
    obtain ⟨j, hj, hpolls⟩ := ih
      (show bs = (pre ++ ds.take k) ++ ds.drop k by
        rw [append_assoc, take_append_drop, hsplit])
      (Int.le_trans hlo hmono) (fun d hd => hds d (mem_of_mem_drop hd))
      (fun m hm => hlimits m (mem_cons_of_mem _ hm))
    refine ⟨k + j, ?_, ?_⟩
    · rw [length_cons]
      rw [length_drop] at hj
      by_cases hne : ds = []
      · exact .inr (by rw [hne]; exact Nat.zero_le _)
      · have := hk hne
        omega
    · rw [Consumer.polls, hpoll]
      dsimp only
      rw [hpolls, take_add, flatMap_append, append_assoc]

theorem le_lastOffset_of_mem_pending {x : BuiltBatch lib}
    (hx : x ∈ pending o bs) : o ≤ x.batch.lastOffset := by
  refine h.chain.le_lastOffset_of_mem_dropWhile x.batch ?_
  rw [dropWhile_map]
  exact mem_map_of_mem hx

end

/-- A poll does not get past a batch that cannot be read. -/
theorem mem_of_mem_polled {xs ys : List (BuiltBatch lib)} {b x : BuiltBatch lib}
    (hb : ¬ b.Readable) (hob : o ≤ b.batch.lastOffset) {k : Nat}
    (hx : x ∈ ((pending o (xs ++ b :: ys)).take k).takeWhile readable) : x ∈ xs := by
  have hkept : ∃ zs, zs ⊆ xs ∧ pending o (xs ++ b :: ys) = zs ++ b :: ys := by
    have hb : (b :: ys).dropWhile (fun b => below o b.batch) = b :: ys :=
      dropWhile_cons_of_neg fun hlt => Int.not_le.mpr (of_decide_eq_true hlt) hob
    refine ⟨pending o xs, (dropWhile_sublist _).subset, ?_⟩
    unfold pending
    rw [List.dropWhile_append, hb]
    split
    · rename_i hnil
      rw [isEmpty_iff.mp hnil, nil_append]
    · rfl
  obtain ⟨zs, hzs, heq⟩ := hkept
  rw [heq] at hx
  have hpre : ((zs ++ b :: ys).take k).takeWhile readable <+: zs ++ b :: ys :=
    ( takeWhile_prefix _).trans ( take_prefix _ _)
  rcases prefix_append_cases hpre with hpre | ⟨gs, hne, hgs, hsplit⟩
  · exact hzs (hpre.subset hx)
  · obtain ⟨gs', rfl⟩ : ∃ gs', gs = b :: gs' := by
      rcases prefix_cons_iff.mp hgs with rfl | ⟨gs', rfl, -⟩
      · exact absurd rfl hne
      · exact ⟨gs', rfl⟩
    have hmem : b ∈ ((zs ++ b :: ys).take k).takeWhile readable := by
      rw [hsplit]
      exact mem_append_right _ mem_cons_self
    have hread : b.readable = true := mem_takeWhile_imp hmem
    exact absurd (of_decide_eq_true hread) hb

/-- Nothing is returned from a batch on that cannot be read. -/
theorem polls_unreadable (h : Serves p c bs) {xs ys : List (BuiltBatch lib)} {b : BuiltBatch lib}
    (hsplit : bs = xs ++ b :: ys) (hb : ¬ b.Readable) (hlo : p.log.logStartOffset ≤ o)
    (hob : o ≤ b.batch.lastOffset) {limits : List Int} (hlimits : ∀ m ∈ limits, 0 < m) :
    ∃ out c', Consumer.polls lib p ⟨o⟩ limits = (.ok out, c') ∧
      ∀ r ∈ out, r.offset < b.batch.baseOffset := by
  induction limits generalizing o with
  | nil => exact ⟨[], ⟨o⟩, rfl, nofun⟩
  | cons m rest ih =>
    obtain ⟨k, -, hpoll⟩ := h.poll_eq hlo (hlimits m mem_cons_self)
    have hmem : ∀ x ∈ ((pending o bs).take k).takeWhile readable,
        x ∈ bs ∧ o ≤ x.batch.lastOffset ∧ x.batch.lastOffset < b.batch.baseOffset := by
      intro x hx
      have hchain := h.chain
      rw [hsplit, map_append, chain_append] at hchain
      have hxs : x ∈ xs := mem_of_mem_polled hb hob (hsplit ▸ hx)
      have hpending : x ∈ pending o bs :=
        mem_of_mem_take ((takeWhile_sublist _).subset hx)
      refine ⟨hsplit ▸ mem_append_left _ hxs, h.le_lastOffset_of_mem_pending hpending, ?_⟩
      rw [hchain.2.1]
      exact of_decide_eq_true (hchain.1.below_endOf _ (mem_map_of_mem hxs))
    generalize ((pending o bs).take k).takeWhile readable = ps at hpoll hmem
    -- the next position is before the batch too
    have hend : p.log.logStartOffset ≤ endOfAll o ps ∧ endOfAll o ps ≤ b.batch.lastOffset := by
      rcases eq_nil_or_concat ps with rfl | ⟨init, q, rfl⟩
      · exact ⟨hlo, hob⟩
      · rw [concat_eq_append] at *
        obtain ⟨-, hge, hlt⟩ := hmem q (mem_append_right _ mem_cons_self)
        have hbase := h.chain.baseOffset_le_lastOffset
          (mem_map_of_mem (hsplit ▸ mem_append_right xs mem_cons_self))
        rw [endOfAll_append]
        change _ ≤ q.batch.lastOffset + 1 ∧ q.batch.lastOffset + 1 ≤ _
        omega
    obtain ⟨out, c', hpolls, hout⟩ := ih hend.1 hend.2
      (fun m hm => hlimits m (mem_cons_of_mem _ hm))
    refine ⟨ps.flatMap consumed ++ out, c', ?_, ?_⟩
    · rw [Consumer.polls, hpoll]
      dsimp only
      rw [hpolls]
    · intro r hr
      rcases mem_append.mp hr with hr | hr
      · obtain ⟨x, hx, hr⟩ := mem_flatMap.mp hr
        obtain ⟨hxb, -, hlt⟩ := hmem x hx
        exact Int.lt_of_le_of_lt (offset_of_mem_consumed (h.fits x hxb) hr).2 hlt
      · exact hout r hr

end Serves

/-! ## Reading the log exactly -/

/-- Polls after a `seek` to `o`, with any limits, return the records in order, and all of them in
the end; the position is then one past the last record that was returned. -/
structure ReadsExactly (lib : Compressor) (p : Raw.Partition) (o : Int)
    (records : List ConsumedRecord) : Prop where
  order : ∀ limits : List Int, (∀ m ∈ limits, 0 < m) →
    ∃ out c, Consumer.polls lib p (Consumer.seek {} o) limits = (.ok out, c) ∧ out <+: records ∧
      ∀ last, out.getLast? = some last → c.position = last.offset + 1
  complete : ∃ n, ∀ limits : List Int, (∀ m ∈ limits, 0 < m) → n ≤ limits.length →
    ∃ c, Consumer.polls lib p (Consumer.seek {} o) limits = (.ok records, c)

namespace Serves

variable {lib : Compressor} {p : Raw.Partition} {c : Raw.BatchList} {bs : List (BuiltBatch lib)}
  {o : Int}

theorem readsExactly (h : Serves p c bs) (hlo : p.log.logStartOffset ≤ o) (hb : c.IsBoundary o)
    (hread : ∀ b ∈ bs, o ≤ b.batch.lastOffset → b.Readable) :
    ReadsExactly lib p o (recordsFrom o bs) := by
  obtain ⟨k, -, ho, -⟩ := Raw.BatchList.exists_take_of_isBoundary h.log.chain hb
  rw [h.batches, ← map_take] at ho
  change o = endOfAll c.start (bs.take k) at ho
  have hchain := h.chain
  have hfits := h.fits
  rw [← take_append_drop k bs] at hchain hfits
  have hrecords : recordsFrom o bs = (bs.drop k).flatMap consumed := by
    have hsplit := recordsFrom_endOfAll hchain hfits
    rwa [take_append_drop, ← ho] at hsplit
  have hdrop : ∀ d ∈ bs.drop k, d.Readable := by
    intro d hd
    rw [map_append, chain_append] at hchain
    exact hread d (mem_of_mem_drop hd)
      (hchain.2.le_lastOffset (Int.le_of_eq ho) _ (mem_map_of_mem hd))
  rw [hrecords]
  refine ⟨fun limits hlimits => ?_, ⟨(bs.drop k).length, fun limits hlimits hlen => ?_⟩⟩
  · obtain ⟨j, -, hpolls⟩ := h.polls_readable (take_append_drop k bs).symm (ho ▸ hlo) hdrop
      hlimits
    rw [← ho] at hpolls
    refine ⟨_, _, hpolls, ?_, fun last hlast => ?_⟩
    · conv => rhs; rw [← take_append_drop j (bs.drop k), flatMap_append]
      exact prefix_append _ _
    · rw [map_append, chain_append] at hchain
      have htaken := hchain.2.take j
      rw [← map_take] at htaken
      rw [endOfAll_append]
      exact endOfAll_of_getLast htaken
        (fun b hb => h.fits b (mem_of_mem_drop (mem_of_mem_take hb))) hlast
  · obtain ⟨j, hj, hpolls⟩ := h.polls_readable (take_append_drop k bs).symm (ho ▸ hlo) hdrop
      hlimits
    rw [← ho, take_of_length_le (by omega)] at hpolls
    exact ⟨_, hpolls⟩

/-- Batches from the position on that cannot be read are never returned. -/
theorem readable_of_readsExactly (h : Serves p c bs) (hlo : p.log.logStartOffset ≤ o)
    (hexact : ReadsExactly lib p o (recordsFrom o bs)) {b : BuiltBatch lib} (hb : b ∈ bs)
    (hob : o ≤ b.batch.lastOffset) : b.Readable := by
  by_contra hread
  obtain ⟨xs, ys, hsplit⟩ := append_of_mem hb
  obtain ⟨n, hn⟩ := hexact.complete
  have hlimits : ∀ m ∈ replicate n (1 : Int), 0 < m := fun m hm => by
    rw [eq_of_mem_replicate hm]
    exact Int.one_pos
  obtain ⟨c', hall⟩ := hn _ hlimits (Nat.le_of_eq (length_replicate ..).symm)
  obtain ⟨out, c'', hpolls, hout⟩ := h.polls_unreadable hsplit hread hlo hob hlimits
  obtain ⟨hrecords, -⟩ := Prod.mk.inj (hall.symm.trans hpolls)
  -- the last record of the batch is among those to be returned
  have hchain := h.chain
  have hcount : 1 ≤ b.batch.header.recordCount := by
    rw [hsplit, map_append, chain_append] at hchain
    exact hchain.2.2.1
  have hfits := h.fits b hb
  obtain ⟨r, hr⟩ := Option.isSome_iff_exists.mp
    (getLast?_isSome.mpr (consumed_ne_nil hfits hcount))
  have hoffset := offset_of_getLast_consumed hfits hr
  have hmem : r ∈ recordsFrom o bs := mem_filter.mpr
    ⟨mem_flatMap.mpr ⟨b, hb, mem_of_getLast? hr⟩,
      decide_eq_true (hoffset ▸ hob)⟩
  rw [Except.ok.inj hrecords] at hmem
  have hlt := hout r hmem
  have hle := h.chain.baseOffset_le_lastOffset (mem_map_of_mem hb)
  omega

/-- The first poll returns the whole batch that has the position. -/
theorem isBoundary_of_readsExactly (h : Serves p c bs) (hlo : p.log.logStartOffset ≤ o)
    (hhi : o ≤ p.log.logEndOffset) (hexact : ReadsExactly lib p o (recordsFrom o bs)) :
    c.IsBoundary o := by
  by_cases hend : o = c.endOffset
  · exact .inl hend
  have hlt : o < c.endOffset := by
    rw [h.log.logEnd] at hhi
    omega
  obtain ⟨b, cs, hdrop, hbase, hlast⟩ :=
    h.log.chain.dropWhile_eq_cons (Int.le_trans h.log.start_le hlo) hlt
  rw [h.batches, dropWhile_map] at hdrop
  obtain ⟨d, ds, hpending, rfl, -⟩ := map_eq_cons_iff.mp hdrop
  change pending o bs = d :: ds at hpending
  have hd : d ∈ bs := (dropWhile_sublist _).subset
    (show d ∈ pending o bs from hpending ▸ mem_cons_self)
  have hread : d.readable = true :=
    decide_eq_true (h.readable_of_readsExactly hlo hexact hd hlast)
  obtain ⟨k, hk, hpoll⟩ := h.poll_eq hlo Int.one_pos
  obtain ⟨k', rfl⟩ := Nat.exists_eq_succ_of_ne_zero
    (Nat.ne_of_gt (hk (by rw [hpending]; exact cons_ne_nil _ _)))
  rw [hpending, take_succ_cons, takeWhile_cons_of_pos hread, flatMap_cons] at hpoll
  obtain ⟨out, c', hpolls, hout, -⟩ := hexact.order [1] (fun m hm => by
    rw [mem_singleton.mp hm]
    exact Int.one_pos)
  -- so the first record of the batch is one of those to be returned
  have hcount : 1 ≤ d.batch.header.recordCount := by
    obtain ⟨xs, ys, rfl⟩ := append_of_mem hd
    have hchain := h.chain
    rw [map_append, chain_append] at hchain
    exact hchain.2.2.1
  obtain ⟨r, hr⟩ := Option.isSome_iff_exists.mp
    (isSome_head?.mpr (consumed_ne_nil (h.fits d hd) hcount))
  have hmem : r ∈ out := by
    rw [Consumer.polls, Consumer.seek, hpoll] at hpolls
    obtain ⟨heq, -⟩ := Prod.mk.inj hpolls
    rw [← Except.ok.inj heq]
    exact mem_append_left _ (mem_append_left _ (mem_of_head? hr))
  have hge := of_decide_eq_true (mem_filter.mp (hout.subset hmem)).2
  rw [offset_of_head_consumed hr] at hge
  exact .inr ⟨d.batch, h.batches ▸ mem_map_of_mem hd, Int.le_antisymm hbase hge⟩

end Serves

/-- A consumer that seeks into a log of built batches reads it exactly from there on if its position
is where a batch starts (or the log ends) and all batches from there on can be read. -/
theorem readsExactly_iff {lib : Compressor} {p : Raw.Partition} {steps : List Raw.Step}
    (hrun : Raw.PartitionLog.Run steps p.log) (hproto : p.protocol ≠ .kafka)
    {bs : List (BuiltBatch lib)}
    (hbs : (Raw.BatchList.after steps).batches = bs.map BuiltBatch.batch) {o : Int}
    (hlo : p.log.logStartOffset ≤ o) (hhi : o ≤ p.log.logEndOffset) :
    ReadsExactly lib p o (recordsFrom o bs) ↔
      (Raw.BatchList.after steps).IsBoundary o ∧
        ∀ b ∈ bs, o ≤ b.batch.lastOffset → b.Readable := by
  have h : Serves p (.after steps) bs := ⟨hrun.refines, hbs, fun b hb =>
    hrun.fits b.batch (hbs ▸ List.mem_map_of_mem hb), hproto⟩
  exact ⟨fun hexact => ⟨h.isBoundary_of_readsExactly hlo hhi hexact,
      fun b hb hob => h.readable_of_readsExactly hlo hexact hb hob⟩,
    fun ⟨hb, hread⟩ => h.readsExactly hlo hb hread⟩

/-! ### Two records in one batch -/

def pairs : List (BuiltBatch noCompression) :=
  [⟨pairBatch.rebase 0, pair, _, _, rfl⟩, ⟨pairBatch.rebase 2, pair, _, _, rfl⟩]

def pairSteps : List Raw.Step := [.append pairBatch, .append pairBatch]

theorem exists_pairs_log : ∃ log, Raw.PartitionLog.Run pairSteps log ∧
    log.logStartOffset = 0 ∧ log.logEndOffset = 4 ∧
    (Consumer.poll noCompression ({ log } : Raw.Partition) (Consumer.seek {} 1) 100).1.toOption.map
      (·.map ConsumedRecord.offset) = some [0, 1, 2, 3] := by
  have hlog : (Raw.PartitionLog.logAfter {} Raw.noRandom pairSteps).map (fun log =>
      decide (log.logStartOffset = 0 ∧ log.logEndOffset = 4 ∧
        (Consumer.poll noCompression ({ log } : Raw.Partition)
          (Consumer.seek {} 1) 100).1.toOption.map (·.map ConsumedRecord.offset) =
            some [0, 1, 2, 3])) = some true := by
    decide +kernel
  obtain ⟨log, hlog, hfacts⟩ := Option.map_eq_some_iff.mp hlog
  exact ⟨log, Raw.PartitionLog.run_of_logAfter hlog, of_decide_eq_true hfacts⟩

theorem batches_pairSteps :
    (Raw.BatchList.after pairSteps).batches = pairs.map batch := by
  decide +kernel

/-- From the start of the second batch on. -/
theorem readsExactly_second_batch : ∃ p : Raw.Partition, Raw.PartitionLog.Run pairSteps p.log ∧
    ReadsExactly noCompression p 2 (recordsFrom 2 pairs) := by
  obtain ⟨log, hrun, hstart, hend, -⟩ := exists_pairs_log
  refine ⟨{ log }, hrun, (readsExactly_iff hrun WireProtocol.noConfusion batches_pairSteps
    (by rw [hstart]; decide) (by rw [hend]; decide)).mpr ?_⟩
  decide +kernel

/-- From the second record of the first batch on, the first one is returned again. -/
theorem poll_inside_batch : ∃ p : Raw.Partition, Raw.PartitionLog.Run pairSteps p.log ∧
    (Raw.BatchList.after pairSteps).batches = pairs.map BuiltBatch.batch ∧
    p.log.logStartOffset ≤ 1 ∧ 1 < p.log.logEndOffset ∧
    (Consumer.poll noCompression p (Consumer.seek {} 1) 100).1.toOption.map
      (·.map ConsumedRecord.offset) = some [0, 1, 2, 3] ∧
    (recordsFrom 1 pairs).map ConsumedRecord.offset = [1, 2, 3] := by
  obtain ⟨log, hrun, hstart, hend, hpoll⟩ := exists_pairs_log
  exact ⟨{ log }, hrun, batches_pairSteps, by rw [hstart]; decide, by rw [hend]; decide, hpoll,
    by decide +kernel⟩

end Nexus.Wire
