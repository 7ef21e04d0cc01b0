import Mathlib.Data.List.Sort
import Nexus.Storage.SegmentBlocks

/-!
# Partition logs as directories

`storage/partition_log.cpp` over segment files, without tiered storage. A directory has `.log` and
`.index` files, named by the base offsets of their segments (`Directory`); `files` are those of a
log, and `openDirectory` is `PartitionLog::open`.

An `.index` without its `.log` is not seen by `open`, but a segment that is created later with that
base takes it over: such files are part of the state (`PartitionLog.orphans`).
-/

namespace Nexus.Raw

open Lib

structure LogConfig extends Nexus.LogConfig where
  indexIntervalBytes : Nat := 4096
  encryptionKey : Option EncryptionKey := none

/-- Files by the base offset in their names. -/
structure Directory where
  logs : List (Int × Bytes) := []
  indexes : List (Int × List IndexEntry) := []

/-- The entries of an `.index`; a file that is not there is created empty when it is opened. -/
def indexOf (indexes : List (Int × List IndexEntry)) (base : Int) : List IndexEntry :=
  ((indexes.find? (·.1 == base)).map Prod.snd).getD []

/-- What the random generator gives to one call. -/
structure Random where
  salt : Salt
  nonce : Nonce

structure PartitionLog where
  cfg : LogConfig
  /-- The closed segments, oldest first. -/
  older : List Segment
  active : Segment
  logStartOffset : Int
  logEndOffset : Int
  recoveryPoint : Int
  bytesSinceSync : Nat := 0
  /-- The `.index` files of the directory that belong to no segment. -/
  orphans : List (Int × List IndexEntry) := []

namespace PartitionLog

def segments (l : PartitionLog) : List Segment := l.older ++ [l.active]

/-- The files of the directory. -/
def files (l : PartitionLog) : Directory where
  logs := l.segments.map fun s => (s.baseOffset, s.log)
  indexes := l.segments.map (fun s => (s.baseOffset, s.index.file)) ++ l.orphans

/-- `PartitionLog::open`. -/
def openDirectory (cfg : LogConfig) (dir : Directory) (salt : Salt) : Expected PartitionLog :=
  let opened := (dir.logs.insertionSort (·.1 ≤ ·.1)).mapM fun file =>
    Segment.openFiles file.2 (indexOf dir.indexes file.1) file.1 cfg.indexIntervalBytes
      cfg.encryptionKey
  match opened with
  | .error e => .error e
  | .ok segments =>
    match segments.getLast? with
    | none =>
      (Segment.create [] (indexOf dir.indexes 0) 0 cfg.indexIntervalBytes cfg.encryptionKey
        salt).map fun active =>
          { cfg, older := [], active, logStartOffset := 0, logEndOffset := 0, recoveryPoint := 0,
            orphans := dir.indexes.filter (·.1 ≠ 0) }
    | some last =>
      let recovered := last.recover
      .ok { cfg
            older := segments.dropLast
            active := recovered.1
            logStartOffset := (segments.dropLast.headD recovered.1).baseOffset
            logEndOffset := recovered.2 + 1
            recoveryPoint := recovered.2 + 1
            orphans := dir.indexes.filter fun file => dir.logs.all (·.1 ≠ file.1) }

/-! ## Append -/

/-- `Segment::create` in the directory of the log; an `.index` that is there is taken over. -/
def createSegment (l : PartitionLog) (base : Int) (salt : Salt) : Expected Segment :=
  Segment.create [] (indexOf l.orphans base) base l.cfg.indexIntervalBytes l.cfg.encryptionKey salt

def sync (l : PartitionLog) : PartitionLog :=
  { l with active := l.active.sync, recoveryPoint := l.logEndOffset, bytesSinceSync := 0 }

def maybeSync (l : PartitionLog) (appendedBytes : Nat) : PartitionLog :=
  match l.cfg.fsyncPolicy with
  | .none => l
  | .commit => l.sync
  | .interval =>
    let l := { l with bytesSinceSync := l.bytesSinceSync + appendedBytes }
    if l.bytesSinceSync ≥ l.cfg.fsyncIntervalBytes then l.sync else l

def rollSegment (l : PartitionLog) (salt : Salt) : Expected PartitionLog :=
  (l.createSegment l.logEndOffset salt).map fun segment =>
    { l with
      older := l.older ++ [l.active.sealSegment]
      active := segment
      recoveryPoint := l.logEndOffset
      bytesSinceSync := 0
      orphans := l.orphans.filter (·.1 ≠ l.logEndOffset) }

/-- Does the next `append` start a new segment? -/
def mustRoll (l : PartitionLog) : Bool := !l.active.isEmpty && l.active.isFull l.cfg.segmentBytes

def rolled (l : PartitionLog) (salt : Salt) : Expected PartitionLog :=
  if l.mustRoll then l.rollSegment salt else .ok l

/-- The rest of `append`, once there is room in the active segment: the log assigns the base offset,
whatever the batch carries. -/
def write (l : PartitionLog) (batch : RecordBatch) (nonce : Nonce) :
    Expected (PartitionLog × Int) :=
  let rebased := batch.rebase l.logEndOffset
  match l.active.append rebased nonce with
  | .error e => .error e
  | .ok (active, last) =>
    .ok (({ l with active, logEndOffset := last + 1 } : PartitionLog).maybeSync
      rebased.encodedSize, last)

/-- `PartitionLog::append`. -/
def append (l : PartitionLog) (batch : RecordBatch) (random : Random) :
    Expected (PartitionLog × Int) :=
  match l.rolled random.salt with
  | .error e => .error e
  | .ok l => l.write batch random.nonce

/-! ## Truncation -/

/-- The walk of `std::ranges::upper_bound` over the base offsets: the segments before the last
one that starts at or below `offset`, and that one. -/
def seek (offset : Int) : List Segment → Segment → List Segment × Segment
  | [], active => ([], active)
  | s :: rest, active =>
    if (rest.headD active).baseOffset ≤ offset then
      let found := seek offset rest active
      (s :: found.1, found.2)
    else ([], s)

def truncateTo (l : PartitionLog) (offset : Int) : Expected PartitionLog :=
  if offset = l.logEndOffset then .ok l
  else if offset > l.logEndOffset then
    makeError .outOfRange "truncate_to por encima de log_end_offset"
  else if offset < l.logStartOffset then
    makeError .outOfRange "truncate_to por debajo de log_start_offset"
  else
    let found := seek offset l.older l.active
    match found.2.truncateTo offset with
    | .error e => .error e
    | .ok target =>
      .ok { l with
        older := found.1
        active := target
        logEndOffset := offset
        recoveryPoint := min l.recoveryPoint offset
        bytesSinceSync := 0 }

/-- The loop of `truncate_prefix_to`: drops the oldest segment while its successor starts at or
below `offset`. The active segment is never dropped. -/
def dropPrefix (offset : Int) : List Segment → Segment → List Segment
  | [], _ => []
  | s :: rest, active =>
    if (rest.headD active).baseOffset ≤ offset then dropPrefix offset rest active else s :: rest

def truncatePrefixTo (l : PartitionLog) (offset : Int) : Expected PartitionLog :=
  if offset ≤ l.logStartOffset then .ok l
  else if offset > l.logEndOffset then
    makeError .outOfRange "truncate_prefix_to por encima de log_end_offset"
  else
    let older := dropPrefix offset l.older l.active
    .ok { l with older, logStartOffset := (older.headD l.active).baseOffset }

def resetTo (l : PartitionLog) (offset : Int) (salt : Salt) : Expected PartitionLog :=
  if offset < 0 then makeError .invalidArgument "reset_to: offset negativo"
  else
    (l.createSegment offset salt).map fun segment =>
      { l with
        older := []
        active := segment
        logStartOffset := offset
        logEndOffset := offset
        recoveryPoint := offset
        bytesSinceSync := 0
        orphans := l.orphans.filter (·.1 ≠ offset) }

/-! ## Read -/

/-- `segment_for`: the segment whose range holds `offset`, if it is not below all of them. -/
def segmentFor (l : PartitionLog) (offset : Int) : Option Segment :=
  if (l.older.headD l.active).baseOffset ≤ offset then some (seek offset l.older l.active).2
  else none

def readLocal (l : PartitionLog) (offset : Int) (maxBytes : Nat) : Expected FetchResult :=
  match l.segmentFor offset with
  | none => .ok {}
  | some s => s.read offset maxBytes

/-- The loop of `PartitionLog::read`. Every turn that continues moves the cursor up, so the
distance to the end of the log bounds the number of turns. -/
def readLoop (l : PartitionLog) (maxBytes : Nat) :
    Nat → Int → FetchResult → Expected FetchResult
  | 0, _, result => .ok result
  | fuel + 1, cursor, result =>
    if cursor < l.logEndOffset ∧ result.batches.length < maxBytes then
      match l.readLocal cursor (maxBytes - result.batches.length) with
      | .error e => .error e
      | .ok fragment =>
        if fragment.batches = [] then .ok result
        else l.readLoop maxBytes fuel fragment.nextOffset
          { batches := result.batches ++ fragment.batches, nextOffset := fragment.nextOffset }
    else .ok result

def read (l : PartitionLog) (offset : Int) (maxBytes : Nat) : Expected FetchResult :=
  if offset < l.logStartOffset then
    makeError .outOfRange "offset por debajo de log_start_offset"
  else l.readLoop maxBytes (l.logEndOffset - offset).toNat offset { nextOffset := offset }

end PartitionLog

/-! ## Segments of blocks -/

/-- The segment file stores the blocks of the other segment. -/
structure Represents (key : Option EncryptionKey) (s : Segment) (t : Nexus.Segment) : Prop where
  baseOffset : s.baseOffset = t.baseOffset
  stores : s.Stores key t.blocks

variable {key : Option EncryptionKey} {t : Nexus.Segment} {s : Segment}

theorem Represents.flush (h : Represents key s t) :
    Represents key { s with index := s.index.flush } t :=
  ⟨h.baseOffset, h.stores.flush s.state⟩

theorem Represents.reopened
    (h : Represents key s t) (interval : Nat) : Represents key (s.reopened interval) t :=
  ⟨h.baseOffset, h.stores.reopened interval⟩

namespace PartitionLog

variable {older : List Segment} {older' : List Nexus.Segment} {active : Segment}
  {active' : Nexus.Segment}

/-- The log is, segment by segment, a log of blocks. -/
structure Models (l : PartitionLog) (g : Nexus.PartitionLog) : Prop where
  older : List.Forall₂ (Represents l.cfg.encryptionKey) l.older g.older
  active : Represents l.cfg.encryptionKey l.active g.active
  state : l.active.state = .active
  logStart : l.logStartOffset = g.logStartOffset
  logEnd : l.logEndOffset = g.logEndOffset

/-- The log contains the batches `bs`, and its directory has no other file. -/
structure Contains (l : PartitionLog) (bs : List RecordBatch) : Prop where
  models : ∃ g, l.Models g ∧ g.Holds bs
  orphans : l.orphans = []
  nonneg : 0 ≤ l.logStartOffset

/-- So it does, and its offsets are so low that no plain segment looks like an encrypted one. -/
structure Holds (l : PartitionLog) (bs : List RecordBatch) : Prop extends Contains l bs where
  bound : l.logEndOffset < 2 ^ 45

variable {l : PartitionLog} {g : Nexus.PartitionLog} {bs : List RecordBatch}
  {key : Option EncryptionKey} {cursor : Int}

theorem Contains.logEnd (h : l.Contains bs) : l.logEndOffset = endOf l.logStartOffset bs := by
  obtain ⟨g, hm, hg⟩ := h.models
  rw [hm.logEnd, hm.logStart, hg.logEnd]

theorem Contains.chain (h : l.Contains bs) : Chain l.logStartOffset bs := by
  obtain ⟨g, hm, hg⟩ := h.models
  rw [hm.logStart]
  exact hg.chain

theorem baseOffset_headD (h : List.Forall₂ (Represents key) older older')
    (ha : active.baseOffset = active'.baseOffset) :
    (older.headD active).baseOffset = (older'.headD active').baseOffset := by
  cases h with
  | nil => exact ha
  | cons hs _ => exact hs.baseOffset

theorem seek_represents (offset : Int) (h : List.Forall₂ (Represents key) older older')
    (ha : Represents key active active') :
    List.Forall₂ (Represents key) (seek offset older active).1
      (Nexus.PartitionLog.seek offset older' active').1 ∧
    Represents key (seek offset older active).2
      (Nexus.PartitionLog.seek offset older' active').2 := by
  induction h with
  | nil => exact ⟨.nil, ha⟩
  | @cons s t ss ts hs hss ih =>
    unfold seek Nexus.PartitionLog.seek
    rw [baseOffset_headD hss ha.baseOffset]
    split
    · exact ⟨.cons hs ih.1, ih.2⟩
    · exact ⟨.nil, hs⟩

theorem dropPrefix_represents (offset : Int) (h : List.Forall₂ (Represents key) older older')
    (ha : Represents key active active') :
    List.Forall₂ (Represents key) (dropPrefix offset older active)
      (Nexus.PartitionLog.dropPrefix offset older' active') := by
  induction h with
  | nil => exact .nil
  | @cons s t ss ts hs hss ih =>
    unfold dropPrefix Nexus.PartitionLog.dropPrefix
    rw [baseOffset_headD hss ha.baseOffset]
    split
    · exact ih
    · exact .cons hs hss

/-! ## Reading -/

theorem Models.segmentFor (h : l.Models g) {t : Nexus.Segment} (ht : g.segmentFor cursor = some t) :
    ∃ s, l.segmentFor cursor = some s ∧ Represents l.cfg.encryptionKey s t := by
  unfold Nexus.PartitionLog.segmentFor at ht
  unfold PartitionLog.segmentFor
  rw [baseOffset_headD h.older h.active.baseOffset]
  split at ht
  · rename_i hle
    cases ht
    rw [if_pos hle]
    exact ⟨_, rfl, (seek_represents cursor h.older h.active).2⟩
  · cases ht

/-- A loop that reads, from a cursor on, what the segment of the cursor has, with enough turns
left. -/
theorem readLoop_spec {readAt : Int → Nat → Expected FetchResult} {m : Nat}
    (loop : Nat → Int → FetchResult → Expected FetchResult) (hg : g.Holds bs)
    (hzero : ∀ cursor r, loop 0 cursor r = .ok r)
    (hsucc : ∀ fuel cursor r, loop (fuel + 1) cursor r =
      if cursor < g.logEndOffset ∧ r.batches.length < m then
        match readAt cursor (m - r.batches.length) with
        | .error e => .error e
        | .ok fragment =>
          if fragment.batches = [] then .ok r
          else loop fuel fragment.nextOffset
            { batches := r.batches ++ fragment.batches, nextOffset := fragment.nextOffset }
      else .ok r)
    (hat : ∀ cursor t, g.logStartOffset ≤ cursor → g.segmentFor cursor = some t →
      ∃ s, (∀ k, readAt cursor k = s.read cursor k) ∧ Represents key s t)
    {fuel : Nat} {r : FetchResult} (hlo : g.logStartOffset ≤ cursor)
    (hfuel : (g.logEndOffset - cursor).toNat ≤ fuel) :
    let taken := takeRun (m - r.batches.length) (bs.dropWhile (below cursor))
    loop fuel cursor r =
      .ok { batches := r.batches ++ encodeAll taken, nextOffset := endOf r.nextOffset taken } := by
  induction fuel generalizing cursor r with
  | zero =>
    rw [hg.dropWhile_end (by omega), hzero]
    simp
  | succ fuel ih =>
    rw [hsucc]
    split
    · rename_i hc
      obtain ⟨t, b, cs, hseg, hbase, hd, hle, hsplit⟩ := hg.segmentFor hlo hc.1
      obtain ⟨s, hs, hrep⟩ := hat cursor t hlo hseg
      obtain ⟨p, rest, hcs, hp, hread⟩ := hrep.stores.read (hrep.baseOffset ▸ hbase) hd hle
        (m - r.batches.length)
      obtain ⟨hmove, hrest⟩ := hsplit p rest hcs
      rw [hs, hread]
      dsimp only
      rw [if_neg (encodeAll_cons_ne_nil b p), ih (by omega) (by omega)]
      dsimp only
      rw [hrest, takeRun_append (by omega) hp, List.length_append, length_encodeAll, Nat.sub_sub]
      simp only [encodeAll_append, List.append_assoc, endOf_append, endOf_cons]
    · rename_i hc
      by_cases hend : cursor < g.logEndOffset
      · have : m - r.batches.length = 0 := by
          have : ¬ r.batches.length < m := fun hlt => hc ⟨hend, hlt⟩
          omega
        simp [this]
      · rw [hg.dropWhile_end (by omega)]
        simp

theorem Contains.read (h : l.Contains bs) {offset : Int} (ho : l.logStartOffset ≤ offset)
    (m : Nat) :
    let taken := takeRun m (bs.dropWhile (below offset))
    l.read offset m =
      .ok { batches := encodeAll taken, nextOffset := endOf offset taken } := by
  obtain ⟨g, hm, hg⟩ := h.models
  rw [hm.logStart] at ho
  have hloop := readLoop_spec (l.readLoop m) (r := { nextOffset := offset }) hg
    (fun _ _ => rfl) (fun _ _ _ => by rw [PartitionLog.readLoop, hm.logEnd])
    (fun cursor t _ ht => by
      obtain ⟨s, hs, hrep⟩ := hm.segmentFor ht
      exact ⟨s, fun k => by rw [readLocal, hs], hrep⟩) ho (Nat.le_refl _)
  unfold PartitionLog.read
  rw [if_neg (by rw [hm.logStart]; omega), hm.logEnd, hloop]
  simp

end PartitionLog

end Nexus.Raw
