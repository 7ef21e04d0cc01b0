import Nexus.Storage.Segment

/-!
# Partition logs

The segmented log of `storage/partition_log.cpp`, without tiered storage and without encryption.
A log has its closed segments, oldest first, and the active one, so that it never is without a
segment. Raft truncates both ends: the tail on a conflict (`truncateTo`), the head on a
compaction (`truncatePrefixTo`), and everything on a snapshot (`resetTo`).
-/

namespace Nexus

inductive FsyncPolicy
  | none | interval | commit
  deriving DecidableEq

structure LogConfig where
  segmentBytes : Nat := 64 * 1024 * 1024
  fsyncPolicy : FsyncPolicy := .interval
  fsyncIntervalBytes : Nat := 1024 * 1024
  deriving DecidableEq

structure PartitionLog where
  cfg : LogConfig
  /-- The closed segments, oldest first. -/
  older : List Segment
  active : Segment
  logStartOffset : Int
  logEndOffset : Int
  recoveryPoint : Int
  bytesSinceSync : Nat := 0
  deriving DecidableEq

namespace PartitionLog

/-- `PartitionLog::open` on an empty directory. -/
def create (cfg : LogConfig) : PartitionLog :=
  { cfg, older := [], active := .create 0, logStartOffset := 0, logEndOffset := 0,
    recoveryPoint := 0 }

def segments (l : PartitionLog) : List Segment := l.older ++ [l.active]

/-! ## Append -/

def sync (l : PartitionLog) : PartitionLog :=
  { l with recoveryPoint := l.logEndOffset, bytesSinceSync := 0 }

def maybeSync (l : PartitionLog) (appendedBytes : Nat) : PartitionLog :=
  match l.cfg.fsyncPolicy with
  | .none => l
  | .commit => l.sync
  | .interval =>
    let l := { l with bytesSinceSync := l.bytesSinceSync + appendedBytes }
    if l.bytesSinceSync ≥ l.cfg.fsyncIntervalBytes then l.sync else l

def rollSegment (l : PartitionLog) : PartitionLog :=
  { l with
    older := l.older ++ [l.active.sealSegment]
    active := .create l.logEndOffset
    recoveryPoint := l.logEndOffset
    bytesSinceSync := 0 }

/-- Does the next `append` start a new segment? -/
def mustRoll (l : PartitionLog) : Bool := !l.active.isEmpty && l.active.isFull l.cfg.segmentBytes

/-- The log that `append` writes to, a new segment included when the active one is full. -/
def rolled (l : PartitionLog) : PartitionLog := if l.mustRoll then l.rollSegment else l

/-- `PartitionLog::append`: the log assigns the base offset, whatever the batch carries. -/
def append (l : PartitionLog) (batch : RecordBatch) : Expected (PartitionLog × Int) :=
  let l := l.rolled
  let rebased := batch.rebase l.logEndOffset
  match l.active.append rebased with
  | .error e => .error e
  | .ok (active, last) =>
    .ok (({ l with active, logEndOffset := last + 1 } : PartitionLog).maybeSync
      rebased.encodedSize, last)

/-! ## Truncation -/

/-- The walk of `std::ranges::upper_bound` over the base offsets: the segments before the last
one that starts at or below `offset`, and that one. -/
def seek (offset : Int) : List Segment → Segment → List Segment × Segment
  | [], active => ([], active)
  | s :: rest, active =>
    if (rest.headD active).baseOffset ≤ offset then
      let found := seek offset rest active
      (s :: found.1, found.2)
    else ([], s)

def truncateTo (l : PartitionLog) (offset : Int) : Expected PartitionLog :=
  if offset = l.logEndOffset then .ok l
  else if offset > l.logEndOffset then
    makeError .outOfRange "truncate_to por encima de log_end_offset"
  else if offset < l.logStartOffset then
    makeError .outOfRange "truncate_to por debajo de log_start_offset"
  else
    let found := seek offset l.older l.active
    match found.2.truncateTo offset with
    | .error e => .error e
    | .ok target =>
      .ok { l with
        older := found.1
        active := target
        logEndOffset := offset
        recoveryPoint := min l.recoveryPoint offset
        bytesSinceSync := 0 }

/-- The loop of `truncate_prefix_to`: drops the oldest segment while its successor starts at or
below `offset`. The active segment is never dropped. -/
def dropPrefix (offset : Int) : List Segment → Segment → List Segment
  | [], _ => []
  | s :: rest, active =>
    if (rest.headD active).baseOffset ≤ offset then dropPrefix offset rest active else s :: rest

def truncatePrefixTo (l : PartitionLog) (offset : Int) : Expected PartitionLog :=
  if offset ≤ l.logStartOffset then .ok l
  else if offset > l.logEndOffset then
    makeError .outOfRange "truncate_prefix_to por encima de log_end_offset"
  else
    let older := dropPrefix offset l.older l.active
    .ok { l with older, logStartOffset := (older.headD l.active).baseOffset }

def resetTo (l : PartitionLog) (offset : Int) : Expected PartitionLog :=
  if offset < 0 then makeError .invalidArgument "reset_to: offset negativo"
  else .ok { l with
    older := []
    active := .create offset
    logStartOffset := offset
    logEndOffset := offset
    recoveryPoint := offset
    bytesSinceSync := 0 }

/-! ## Read -/

/-- `segment_for`: the segment whose range holds `offset`, if it is not below all of them. -/
def segmentFor (l : PartitionLog) (offset : Int) : Option Segment :=
  if (l.older.headD l.active).baseOffset ≤ offset then some (seek offset l.older l.active).2
  else none

def readLocal (l : PartitionLog) (offset : Int) (maxBytes : Nat) : FetchResult :=
  match l.segmentFor offset with
  | none => {}
  | some s => s.read offset maxBytes

/-- The loop of `PartitionLog::read`. Every turn that continues moves the cursor up, so the
distance to the end of the log bounds the number of turns. -/
def readLoop (l : PartitionLog) (maxBytes : Nat) : Nat → Int → FetchResult → FetchResult
  | 0, _, result => result
  | fuel + 1, cursor, result =>
    if cursor < l.logEndOffset ∧ blockBytes result.batches < maxBytes then
      let fragment := l.readLocal cursor (maxBytes - blockBytes result.batches)
      if fragment.batches = [] then result
      else l.readLoop maxBytes fuel fragment.nextOffset
        { batches := result.batches ++ fragment.batches, nextOffset := fragment.nextOffset }
    else result

def read (l : PartitionLog) (offset : Int) (maxBytes : Nat) : Expected FetchResult :=
  if offset < l.logStartOffset then
    makeError .outOfRange "offset por debajo de log_start_offset"
  else .ok (l.readLoop maxBytes (l.logEndOffset - offset).toNat offset { nextOffset := offset })

end PartitionLog

end Nexus
