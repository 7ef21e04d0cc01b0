import Nexus.Protocol.Records
import Nexus.Storage.LogRuns

/-!
# Compaction by key

`storage/log_compactor.cpp`. `compact_log` asks nothing of the log but its ends and `read`, so it is
modelled over a `read` of any kind (`Serves`), and a log on the disk has one
(`Raw.PartitionLog.Contains.serves`).

* `survivors`: the records that compaction is to keep, with no index and no map.
* `compact_eq_survivors`: the two passes keep them, and the counters add up.
* `collect_eq`: neither of the early exits of the loop is taken, so that it decodes all batches.
-/

namespace Nexus.LogCompactor

open Lib Wire List

def kReadChunkBytes : Nat := 4 * 1024 * 1024

structure CompactionStats where
  recordsIn : Nat := 0
  recordsKept : Nat := 0
  recordsSuperseded : Nat := 0
  tombstonesDropped : Nat := 0
  deriving DecidableEq

/-- The bytes of a key. -/
abbrev Key := Counted UInt8

/-- A turn of the first pass. -/
def mark (last : Key → Nat) (entry : Record × Nat) : Key → Nat :=
  match entry.1.key with
  | some key => fun k => if k = key then entry.2 else last k
  | none => last

/-- The first pass: where each key is last. -/
def lastIndex (records : List Record) : Key → Nat := records.zipIdx.foldl mark fun _ => 0

/-- A turn of the second pass. -/
def emit (retainTombstones : Bool) (last : Key → Nat) (acc : List Record × CompactionStats)
    (entry : Record × Nat) : List Record × CompactionStats :=
  let (out, counters) := acc
  let (rec, i) := entry
  let push := (out ++ [rec], { counters with recordsKept := counters.recordsKept + 1 })
  match rec.key with
  | none => push
  | some key =>
    if last key ≠ i then
      (out, { counters with recordsSuperseded := counters.recordsSuperseded + 1 })
    else if rec.value = none ∧ ¬ retainTombstones then
      (out, { counters with tombstonesDropped := counters.tombstonesDropped + 1 })
    else push

def compact (retainTombstones : Bool) (records : List Record) : List Record × CompactionStats :=
  records.zipIdx.foldl (emit retainTombstones (lastIndex records))
    ([], { recordsIn := records.length })

/-- The inner loop of `compact_log`: the batches of one read. -/
def decodeLoop (lib : Compressor) (remaining : Bytes) (all : List Record) :
    Expected (List Record) :=
  if _hne : remaining = [] then .ok all
  else
    match _h : RecordBatch.peek remaining with
    | .error _ => .ok all
    | .ok view =>
      if view.encodedSize > remaining.length then .ok all
      else
        match RecordBatch.decode (remaining.take view.encodedSize) with
        | .error e => .error e
        | .ok batch =>
          match decodeRecords lib batch kMaxRecordBytes with
          | .error e => .error e
          | .ok records => decodeLoop lib (remaining.drop view.encodedSize) (all ++ records)
termination_by remaining.length
decreasing_by
  have hlen := List.length_pos_iff.mpr _hne
  rw [List.length_drop]
  exact Nat.sub_lt hlen (lt_encodedSize _h)

/-- The outer loop of `compact_log`. -/
def collect (lib : Compressor) (read : Int → Nat → Expected Raw.FetchResult) (stop pos : Int)
    (all : List Record) : Expected (List Record) :=
  if _hlt : pos < stop then
    match read pos kReadChunkBytes with
    | .error e => .error e
    | .ok fetched =>
      if fetched.batches = [] then .ok all
      else
        match decodeLoop lib fetched.batches all with
        | .error e => .error e
        | .ok all =>
          if _hle : fetched.nextOffset ≤ pos then .ok all
          else collect lib read stop fetched.nextOffset all
  else .ok all
termination_by (stop - pos).toNat

def compactLog (lib : Compressor) (retainTombstones : Bool)
    (read : Int → Nat → Expected Raw.FetchResult) (logStartOffset logEndOffset : Int) :
    Expected (List Record × CompactionStats) :=
  (collect lib read logEndOffset logStartOffset []).map (compact retainTombstones)

/-! ## The two passes -/

/-- The records without a key, and the last one of each key, unless it is a tombstone that is not
retained. -/
def survivors (retainTombstones : Bool) : List Record → List Record
  | [] => []
  | rec :: later =>
    if rec.key = none ∨
        rec.key ∉ later.map Record.key ∧ (rec.value ≠ none ∨ retainTombstones) then
      rec :: survivors retainTombstones later
    else survivors retainTombstones later

/-- The last record with the key. -/
def latest (key : Key) : List Record → Option Record
  | [] => none
  | rec :: later => (latest key later).or (if rec.key = some key then some rec else none)

/-- The value of the last record with the key; a tombstone has none. -/
def latestValue (key : Key) (records : List Record) : Option (Counted UInt8) :=
  (latest key records).bind Record.value

variable {retain : Bool} {records : List Record} {key : Key}

theorem survivors_sublist : (survivors retain records).Sublist records := by
  induction records with
  | nil => exact .slnil
  | cons rec later ih =>
    unfold survivors
    split
    · exact ih.cons_cons _
    · exact ih.cons _

theorem latest_eq_none_iff : latest key records = none ↔ some key ∉ records.map Record.key := by
  induction records with
  | nil => simp [latest]
  | cons rec later ih =>
    by_cases hkey : rec.key = some key
    · simp [latest, hkey]
    · have hkey' : some key ≠ rec.key := Ne.symm hkey
      simp only [latest, hkey, if_false, Option.or_none, ih, map_cons, mem_cons, hkey',
        false_or]

theorem latestValue_survivors :
    latestValue key (survivors retain records) = latestValue key records := by
  induction records with
  | nil => rfl
  | cons rec later ih =>
    simp only [latestValue, survivors] at ih ⊢
    by_cases hkey : rec.key = some key
    · cases hlater : latest key later with
      | some last =>
        -- A later record has the key, so `rec` does not stay.
        have hmem : some key ∈ later.map Record.key := by
          by_contra hnot
          simp [latest_eq_none_iff.mpr hnot] at hlater
        rw [if_neg (by simp [hkey, hmem])]
        simp [latest, hlater, ih]
      | none =>
        have hnot := latest_eq_none_iff.mp hlater
        have hnone : latest key (survivors retain later) = none :=
          latest_eq_none_iff.mpr fun hmem => hnot ((survivors_sublist.map _).subset hmem)
        split
        · simp [latest, hlater, hnone, hkey]
        · rename_i hdrop
          simp_all [latest]
    · split <;> simp [latest, hkey, ih]

theorem survivors_survivors :
    survivors retain (survivors retain records) = survivors retain records := by
  induction records with
  | nil => rfl
  | cons rec later ih =>
    have hsub : (survivors retain later).map Record.key ⊆ later.map Record.key :=
      (survivors_sublist.map _).subset
    rw [survivors]
    split
    · rename_i hkeep
      have hkeep' : rec.key = none ∨ rec.key ∉ (survivors retain later).map Record.key ∧
          (rec.value ≠ none ∨ retain) :=
        hkeep.imp_right fun h => ⟨fun hmem => h.1 (hsub hmem), h.2⟩
      rw [survivors, if_pos hkeep', ih]
    · exact ih

theorem foldl_mark_of_notMem {n : Nat} {last : Key → Nat}
    (h : some key ∉ records.map Record.key) :
    (records.zipIdx n).foldl mark last key = last key := by
  induction records generalizing n last with
  | nil => rfl
  | cons rec later ih =>
    simp only [map_cons, mem_cons, not_or] at h
    rw [zipIdx_cons, foldl_cons, ih h.2]
    cases hk : rec.key with
    | none => simp [mark, hk]
    | some k =>
      rw [hk, Option.some.injEq] at h
      simp [mark, hk, h.1]

theorem le_foldl_mark (n : Nat) (last : Key → Nat) (h : some key ∈ records.map Record.key) :
    n ≤ (records.zipIdx n).foldl mark last key := by
  induction records generalizing n last with
  | nil => cases h
  | cons rec later ih =>
    rw [zipIdx_cons, foldl_cons]
    by_cases hlater : some key ∈ later.map Record.key
    · exact Nat.le_of_succ_le (ih _ _ hlater)
    · have hkey : rec.key = some key := by simpa [hlater, eq_comm] using h
      rw [foldl_mark_of_notMem hlater]
      simp [mark, hkey]

/-- The map of the first pass gives the place of a record if no later one has its key. -/
theorem lastIndex_eq_iff (before later : List Record) {rec : Record} (hkey : rec.key = some key) :
    lastIndex (before ++ rec :: later) key = before.length ↔ some key ∉ later.map Record.key := by
  simp only [lastIndex, zipIdx_append, zipIdx_cons, foldl_append, foldl_cons,
    Nat.zero_add]
  constructor
  · intro heq hmem
    have hle := le_foldl_mark (before.length + 1)
      (mark ((before.zipIdx 0).foldl mark fun _ => 0) (rec, before.length)) hmem
    omega
  · intro hnot
    rw [foldl_mark_of_notMem hnot]
    simp [mark, hkey]

/-- The records that the counters have been told of. -/
def CompactionStats.seen (stats : CompactionStats) : Nat :=
  stats.recordsKept + stats.recordsSuperseded + stats.tombstonesDropped

/-- One turn of the second pass, at the place of `rec`. -/
theorem emit_turn (retain : Bool) (before later : List Record) (rec : Record) (out : List Record)
    (stats : CompactionStats) :
    let res := emit retain (lastIndex (before ++ rec :: later)) (out, stats) (rec, before.length)
    res.1 ++ survivors retain later = out ++ survivors retain (rec :: later) ∧
      res.2.recordsIn = stats.recordsIn ∧ res.2.seen = stats.seen + 1 := by
  cases hkey : rec.key with
  | none => simp [emit, survivors, hkey, CompactionStats.seen, Nat.add_right_comm]
  | some key =>
    have hlast := lastIndex_eq_iff before later hkey
    by_cases hlater : some key ∈ later.map Record.key
    · have hne : lastIndex (before ++ rec :: later) key ≠ before.length := fun h =>
        hlast.mp h hlater
      rw [survivors, if_neg (by simp [hkey, hlater])]
      refine ⟨by simp [emit, hkey, hne], by simp [emit, hkey, hne], ?_⟩
      simp only [emit, hkey, hne, ne_eq, not_false_eq_true, if_true, CompactionStats.seen]
      omega
    by_cases htomb : rec.value = none ∧ retain = false
    · rw [survivors, if_neg (by simp [hkey, hlater, htomb])]
      simp [emit, hkey, hlast.mpr hlater, htomb, CompactionStats.seen, Nat.add_assoc]
    · have hstay : rec.value ≠ none ∨ retain := by
        cases retain <;> simp_all
      rw [survivors, if_pos (by simp [hkey, hlater, hstay])]
      simp [emit, hkey, hlast.mpr hlater, htomb, CompactionStats.seen, Nat.add_right_comm]

theorem foldl_emit (retain : Bool) (records before : List Record) (out : List Record)
    (stats : CompactionStats) :
    let res := (records.zipIdx before.length).foldl
      (emit retain (lastIndex (before ++ records))) (out, stats)
    res.1 = out ++ survivors retain records ∧ res.2.recordsIn = stats.recordsIn ∧
      res.2.seen = stats.seen + records.length := by
  induction records generalizing before out stats with
  | nil => simp [survivors]
  | cons rec later ih =>
    obtain ⟨hout, hin, hseen⟩ := emit_turn retain before later rec out stats
    dsimp only
    rw [zipIdx_cons, foldl_cons]
    generalize emit retain (lastIndex (before ++ rec :: later)) (out, stats) (rec, before.length)
      = res at hout hin hseen
    obtain ⟨hout', hin', hseen'⟩ := ih (before ++ [rec]) res.1 res.2
    simp only [length_append, length_singleton, append_assoc,
      singleton_append] at hout' hin' hseen'
    refine ⟨hout'.trans hout, hin'.trans hin, hseen'.trans ?_⟩
    rw [hseen, length_cons]
    omega

/-- The two passes keep the survivors, and each record is counted once. -/
theorem compact_eq_survivors (retain : Bool) (records : List Record) :
    (compact retain records).1 = survivors retain records ∧
      (compact retain records).2.recordsIn = records.length ∧
      (compact retain records).2.seen = records.length := by
  simpa [CompactionStats.seen, compact] using
    foldl_emit retain records [] [] { recordsIn := records.length }

/-! ## The loop over the log -/

variable {lib : Compressor} {bs : List RecordBatch}

/-- The records of the batches, in order. -/
def recordsOf (lib : Compressor) (bs : List RecordBatch) : List Record :=
  bs.flatMap fun b => (decodeRecords lib b kMaxRecordBytes).toOption.getD []

/-- The batch has its encoding, and its records can be decoded. -/
structure Decodable (lib : Compressor) (b : RecordBatch) : Prop where
  fits : b.Fits
  records : ∃ records, decodeRecords lib b kMaxRecordBytes = .ok records

theorem decodeLoop_encodeAll (h : ∀ b ∈ bs, Decodable lib b) (all : List Record) :
    decodeLoop lib (Raw.encodeAll bs) all = .ok (all ++ recordsOf lib bs) := by
  induction bs generalizing all with
  | nil =>
    rw [Raw.encodeAll_nil, decodeLoop, dif_pos rfl]
    simp [recordsOf]
  | cons b bs ih =>
    obtain ⟨hfits, records, hrecords⟩ := h b mem_cons_self
    have hpeek := RecordBatch.peek_whole (Raw.encodeAll bs) hfits
    have hdecode := RecordBatch.decode_encode [] hfits
    rw [append_nil] at hdecode
    have hlen := b.length_encode
    rw [decodeLoop, dif_neg (Raw.encodeAll_cons_ne_nil b bs)]
    split
    · rename_i he
      rw [Raw.encodeAll_cons, hpeek] at he
      cases he
    · rename_i view hview
      rw [Raw.encodeAll_cons, hpeek] at hview
      rw [← Except.ok.inj hview, Raw.encodeAll_cons, take_left' hlen, drop_left' hlen,
        hdecode, if_neg (by simp [hlen])]
      dsimp only
      rw [hrecords]
      dsimp only
      rw [ih fun c hc => h c (mem_cons_of_mem _ hc)]
      simp [recordsOf, hrecords, Except.toOption]

/-- What `compact_log` asks of a log: a read gives whole batches, from the one that has the offset
on. -/
def Serves (read : Int → Nat → Expected Raw.FetchResult) (start : Int) (bs : List RecordBatch) :
    Prop :=
  ∀ offset m, start ≤ offset → read offset m =
    .ok { batches := Raw.encodeAll (takeRun m (bs.dropWhile (below offset)))
          nextOffset := endOf offset (takeRun m (bs.dropWhile (below offset))) }

/-- From the start of a batch on, the loop decodes all batches. -/
theorem collect_eq {read : Int → Nat → Expected Raw.FetchResult} {start : Int}
    (before : List RecordBatch) {rest : List RecordBatch}
    (hread : Serves read start (before ++ rest)) (hchain : Chain start (before ++ rest))
    (hdec : ∀ b ∈ rest, Decodable lib b) (all : List Record) :
    collect lib read (endOf start (before ++ rest)) (endOf start before) all =
      .ok (all ++ recordsOf lib rest) := by
  induction hn : rest.length using Nat.strongRecOn generalizing before rest all with
  | _ n ih =>
    obtain ⟨hbefore, hrest⟩ := (chain_append ..).mp hchain
    cases rest with
    | nil => rw [append_nil, collect, dif_neg (Int.lt_irrefl _)]; simp [recordsOf]
    | cons b rest =>
      have hlt : endOf start before < endOf start (before ++ b :: rest) := by
        rw [endOf_append]
        exact hrest.lt_endOf (cons_ne_nil _ _)
      have hfetch := hread (endOf start before) kReadChunkBytes hbefore.le_endOf
      rw [hchain.dropWhile_below] at hfetch
      obtain ⟨htaken, -, rest', hsplit, -⟩ := Raw.takeRun_spec
        (show 0 < kReadChunkBytes by decide) (cons_ne_nil b rest)
      generalize takeRun kReadChunkBytes (b :: rest) = taken at htaken hsplit hfetch
      have hmore : endOf start before < endOf (endOf start before) taken := by
        rw [hsplit] at hrest
        exact ((chain_append ..).mp hrest).1.lt_endOf htaken
      have hbytes : Raw.encodeAll taken ≠ [] := by
        obtain ⟨c, cs, rfl⟩ := exists_cons_of_ne_nil htaken
        exact Raw.encodeAll_cons_ne_nil c cs
      rw [collect, dif_pos hlt, hfetch]
      dsimp only
      rw [if_neg hbytes, decodeLoop_encodeAll fun c hc => hdec c (by simp [hsplit, hc])]
      dsimp only
      rw [dif_neg (by omega), ← endOf_append]
      -- The rest of the batches is what the next turn reads.
      rw [hsplit, ← append_assoc] at hread hchain ⊢
      rw [hsplit] at hdec hn
      have hlen := length_pos_iff.mpr htaken
      rw [ih rest'.length (by simp at hn; omega) (before ++ taken) hread hchain
        (fun c hc => hdec c (mem_append_right _ hc)) _ rfl]
      simp [recordsOf]

end Nexus.LogCompactor

namespace Nexus.Raw.PartitionLog

open LogCompactor

variable {l : PartitionLog} {bs : List RecordBatch}

theorem Contains.fits (h : l.Contains bs) : ∀ b ∈ bs, b.Fits := by
  obtain ⟨g, hm, hg⟩ := h.models
  have holder : ∀ t ∈ g.older, ∃ s, Represents l.cfg.encryptionKey s t := by
    have hall := hm.older
    generalize l.older = ss at hall
    generalize g.older = ts at hall
    induction hall with
    | nil => simp
    | cons hst _ ih => grind
  intro b hb
  obtain ⟨t, ht, hbt⟩ := List.mem_flatMap.mp (hg.blocks ▸ hb)
  obtain ⟨s, hs⟩ : ∃ s, Represents l.cfg.encryptionKey s t := by
    rcases List.mem_append.mp ht with ht | ht
    · exact holder t ht
    · exact ⟨_, List.mem_singleton.mp ht ▸ hm.active⟩
  exact hs.stores.fits b hbt

theorem Contains.serves (h : l.Contains bs) : Serves l.read l.logStartOffset bs :=
  fun _ m ho => h.read ho m

/-- A log whose batches can all be decoded is compacted to the survivors of its records, which give
each key its last value and which compaction leaves as they are; each record is counted once. -/
theorem compactLog_survivors (lib : Wire.Compressor) (retain : Bool) (h : l.Contains bs)
    (hdec : ∀ b ∈ bs, ∃ records, Wire.decodeRecords lib b Wire.kMaxRecordBytes = .ok records) :
    ∃ stats, compactLog lib retain l.read l.logStartOffset l.logEndOffset =
        .ok (survivors retain (recordsOf lib bs), stats) ∧
      (∀ key, latestValue key (survivors retain (recordsOf lib bs)) =
        latestValue key (recordsOf lib bs)) ∧
      (compact retain (survivors retain (recordsOf lib bs))).1 =
        survivors retain (recordsOf lib bs) ∧
      stats.recordsIn = (recordsOf lib bs).length ∧
      stats.recordsKept + stats.recordsSuperseded + stats.tombstonesDropped =
        (recordsOf lib bs).length := by
  have hcollect := collect_eq [] h.serves h.chain (fun b hb => ⟨h.fits b hb, hdec b hb⟩) []
  rw [List.nil_append, endOf_nil, ← h.logEnd, List.nil_append] at hcollect
  obtain ⟨hout, hin, hseen⟩ := compact_eq_survivors retain (recordsOf lib bs)
  refine ⟨(compact retain (recordsOf lib bs)).2, ?_, fun _ => latestValue_survivors, ?_, hin, hseen⟩
  · rw [compactLog, hcollect, ← hout]
    rfl
  · rw [(compact_eq_survivors retain _).1, survivors_survivors]

/-- A key twice, and a tombstone. -/
def keyed : RecordBatch :=
  Wire.build Wire.noCompression
    [{ key := Wire.oneByte 1, value := Wire.oneByte 1 }, { key := Wire.oneByte 2 },
      { key := Wire.oneByte 1, value := Wire.oneByte 3 }] {} .none

/-- Of the three records the last one is left. -/
theorem compactLog_survivors_keyed :
    ∃ l stats, PartitionLog.Run [.append keyed] l ∧
      compactLog Wire.noCompression false l.read l.logStartOffset l.logEndOffset =
        .ok (survivors false (recordsOf Wire.noCompression [keyed]), stats) ∧
      (survivors false (recordsOf Wire.noCompression [keyed])).map Wire.Record.offset = [2] := by
  have hlog : (PartitionLog.logAfter narrow noRandom [.append keyed]).map
      (fun l => l.logStartOffset) = some 0 := by
    decide +kernel
  obtain ⟨l, hl, hstart⟩ := Option.map_eq_some_iff.mp hlog
  have hrun := PartitionLog.run_of_logAfter hl
  have hbatches : (BatchList.after [.append keyed]).batches = [keyed] := by decide +kernel
  obtain ⟨k, -, hcontains, hoffset⟩ := hrun.refines.kept
  rw [hbatches] at hcontains hoffset
  obtain rfl : k = 0 := by
    rcases Nat.eq_zero_or_pos k with rfl | hk
    · rfl
    · rw [List.take_of_length_le hk, hstart] at hoffset
      exact absurd hoffset (by decide +kernel)
  have hdec : ∀ b ∈ [keyed], ∃ records,
      Wire.decodeRecords Wire.noCompression b Wire.kMaxRecordBytes = .ok records := by
    rintro b hb
    rw [List.mem_singleton.mp hb]
    exact ⟨_, (by decide +kernel : Wire.decodeRecords _ keyed _ = .ok
      (recordsOf Wire.noCompression [keyed]))⟩
  obtain ⟨stats, hcompact, -⟩ := compactLog_survivors Wire.noCompression false hcontains hdec
  exact ⟨l, stats, hrun, hcompact, by decide +kernel⟩

end Nexus.Raw.PartitionLog
