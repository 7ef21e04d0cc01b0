import Nexus.Storage.RawContents

/-!
# Tiered storage

`storage/partition_log.cpp` with a storage tier (`storage/storage_tier.hpp`): closed segments are
moved, oldest first, to an object store, and are read from there. The objects of a partition have
the shape of a directory, a `.log` and an `.index` for each base offset; `put` and `remove` are
atomic, and a call of the tier can fail without an effect (`Fault`).

The in-memory state of a log with a tier is that of a log of local segments and the bases of the
segments that are only in the tier.
-/

namespace Nexus.Raw

open Lib

namespace Directory

/-- The bytes of a `.log`. -/
def log? (d : Directory) (base : Int) : Option Bytes := d.logs.lookup base

/-- The entries of an `.index`. -/
def index? (d : Directory) (base : Int) : Option (List IndexEntry) := d.indexes.lookup base

def setLog (d : Directory) (base : Int) (log : Bytes) : Directory :=
  { d with logs := d.logs.filter (·.1 ≠ base) ++ [(base, log)] }

def setIndex (d : Directory) (base : Int) (index : List IndexEntry) : Directory :=
  { d with indexes := d.indexes.filter (·.1 ≠ base) ++ [(base, index)] }

def removeLog (d : Directory) (base : Int) : Directory :=
  { d with logs := d.logs.filter (·.1 ≠ base) }

def removeIndex (d : Directory) (base : Int) : Directory :=
  { d with indexes := d.indexes.filter (·.1 ≠ base) }

end Directory

/-- Which call of the tier fails, counted from the next one on, and how. -/
abbrev Fault := Option (Nat × Error)

/-- The fault, some calls later. -/
def Fault.after (fault : Fault) (calls : Nat) : Fault := fault.map fun f => (f.1 - calls, f.2)

/-- A partition log with the objects of the partition in the tier; `hasTier` says whether one is
configured. -/
structure TieredLog where
  log : PartitionLog
  hasTier : Bool := true
  /-- `tiered_bases_`. -/
  tieredBases : List Int := []
  tier : Directory := {}

/-- Base of the oldest local segment. -/
def PartitionLog.firstBase (l : PartitionLog) : Int := (l.older.headD l.active).baseOffset

namespace TieredLog

/-! ## Open -/

/-- `list_cold_prefix`: the segments that only the tier has. -/
def listColdPrefix (hasTier : Bool) (tier : Directory) (segments : List Segment) : List Int :=
  if hasTier = false ∨ segments = [] then []
  else ((tier.logs.map Prod.fst).filter fun base =>
    segments.all (·.baseOffset ≠ base)).insertionSort (· ≤ ·)

/-- `PartitionLog::open`. The segment that is created in an empty directory counts as a local
one. -/
def openTiered (cfg : LogConfig) (hasTier : Bool) (dir tier : Directory) (salt : Salt) :
    Expected TieredLog :=
  match PartitionLog.openDirectory cfg dir salt with
  | .error e => .error e
  | .ok l =>
    let tieredBases := listColdPrefix hasTier tier l.segments
    .ok { log := { l with logStartOffset := match tieredBases with
            | [] => l.logStartOffset
            | base :: _ => min l.logStartOffset base }
          hasTier, tieredBases, tier }

/-! ## Offload -/

def recomputeLogStart (t : TieredLog) : TieredLog :=
  { t with log := { t.log with logStartOffset := t.tieredBases.headD t.log.firstBase } }

/-- The loop of `offload_sealed_to_tier` over the closed segments: what stays local, the bases and
the tier after it, and how many were moved. -/
def offloadLoop : List Segment → Fault → List Int → Directory → Nat →
    List Segment × List Int × Directory × Expected Nat
  | [], _, bases, tier, moved => ([], bases, tier, .ok moved)
  | s :: rest, fault, bases, tier, moved =>
    match fault with
    | some (0, e) => (s :: rest, bases, tier, .error e)
    | some (1, e) => (s :: rest, bases, tier.setLog s.baseOffset s.log, .error e)
    | _ => offloadLoop rest (fault.after 2) (bases ++ [s.baseOffset])
      ((tier.setLog s.baseOffset s.log).setIndex s.baseOffset s.index.file) (moved + 1)

def offloadSealedToTier (t : TieredLog) (fault : Fault) : Expected Nat × TieredLog :=
  if t.hasTier = false then (.ok 0, t)
  else
    match offloadLoop t.log.older fault t.tieredBases t.tier 0 with
    | (older, tieredBases, tier, r) =>
      let t := { t with log := { t.log with older }, tieredBases, tier }
      match r with
      | .error e => (.error e, t)
      | .ok moved => (.ok moved, t.recomputeLogStart)

/-! ## Append -/

/-- `roll_segment`: an error of the tier is ignored. -/
def rollSegment (t : TieredLog) (salt : Salt) (fault : Fault) : Expected TieredLog :=
  (t.log.rollSegment salt).map fun l => ({ t with log := l }.offloadSealedToTier fault).2

def rolled (t : TieredLog) (salt : Salt) (fault : Fault) : Expected TieredLog :=
  if t.log.mustRoll then t.rollSegment salt fault else .ok t

def append (t : TieredLog) (batch : RecordBatch) (random : Random) (fault : Fault) :
    Expected (TieredLog × Int) :=
  match t.rolled random.salt fault with
  | .error e => .error e
  | .ok t => (t.log.write batch random.nonce).map fun written =>
    ({ t with log := written.1 }, written.2)

/-! ## Truncation -/

/-- The loops over `remove_tiered`: the oldest segments of the tier are removed as long as the start
of their successor is `below` the new start; the last successor is the first local segment. -/
def removeWhile (below : Int → Bool) (first : Int) : List Int → Fault → Directory →
    List Int × Directory × Option Error
  | [], _, tier => ([], tier, none)
  | base :: rest, fault, tier =>
    if below (rest.headD first) then
      match fault with
      | some (0, e) => (base :: rest, tier, some e)
      | some (1, e) => (base :: rest, tier.removeLog base, some e)
      | _ => removeWhile below first rest (fault.after 2) ((tier.removeLog base).removeIndex base)
    else (base :: rest, tier, none)

/-- `truncate_prefix_to`. When a removal fails, `log_start_offset_` is left as it was. -/
def truncatePrefixTo (t : TieredLog) (offset : Int) (fault : Fault) : Expected Unit × TieredLog :=
  if offset ≤ t.log.logStartOffset then (.ok (), t)
  else if offset > t.log.logEndOffset then
    (makeError .outOfRange "truncate_prefix_to por encima de log_end_offset", t)
  else
    match removeWhile (· ≤ offset) t.log.firstBase t.tieredBases fault t.tier with
    | (tieredBases, tier, some e) => (.error e, { t with tieredBases, tier })
    | (tieredBases, tier, none) =>
      let older := PartitionLog.dropPrefix offset t.log.older t.log.active
      (.ok (), { t with log := { t.log with older }, tieredBases, tier }.recomputeLogStart)

/-! ## Retention -/

structure RetentionPolicy where
  retentionBytes : Int := -1
  retentionMs : Int := -1

/-- Is the oldest segment to go, for the bytes of the log or for its own age? The age is that of the
`.log`, in milliseconds, if it can be told. -/
def RetentionPolicy.eligible (policy : RetentionPolicy) (total : Int) (age : Option Int) : Bool :=
  (0 ≤ policy.retentionBytes && policy.retentionBytes < total) ||
    (0 ≤ policy.retentionMs && age.any (policy.retentionMs < ·))

/-- The loop of `enforce_retention`: what stays of the closed segments, and where the log starts. -/
def retentionLoop (policy : RetentionPolicy) (age : Int → Option Int) (active : Segment) :
    List Segment → Int → Int → List Segment × Int
  | [], _, start => ([], start)
  | s :: rest, total, start =>
    if policy.eligible total (age s.baseOffset) then
      retentionLoop policy age active rest (total - s.sizeBytes) (rest.headD active).baseOffset
    else (s :: rest, start)

/-- `enforce_retention`: only when there is nothing in the tier. -/
def enforceRetention (t : TieredLog) (policy : RetentionPolicy) (age : Int → Option Int) :
    TieredLog :=
  if t.tieredBases ≠ [] then t
  else
    let total : Int := (t.log.segments.map fun s => (s.sizeBytes : Int)).sum
    let kept := retentionLoop policy age t.log.active t.log.older total t.log.logStartOffset
    { t with log := { t.log with older := kept.1, logStartOffset := kept.2 } }

/-! ## Read -/

/-- `read_tiered`: the segment is fetched to a temporary directory and opened there. -/
def readTiered (t : TieredLog) (offset : Int) (maxBytes : Nat) : Expected FetchResult :=
  match (t.tieredBases.takeWhile (· ≤ offset)).getLast? with
  | none => .ok {}
  | some base =>
    match t.tier.log? base, t.tier.index? base with
    | none, _ => makeError .notFound "fetch_file: objeto inexistente"
    | _, none => makeError .notFound "fetch_file: objeto inexistente"
    | some log, some index =>
      match Segment.openFiles log index base t.log.cfg.indexIntervalBytes
        t.log.cfg.encryptionKey with
      | .error e => .error e
      | .ok s => s.read offset maxBytes

/-- One turn of the loop of `read`. -/
def readAt (t : TieredLog) (cursor : Int) (maxBytes : Nat) : Expected FetchResult :=
  if t.tieredBases ≠ [] ∧ cursor < t.log.firstBase then t.readTiered cursor maxBytes
  else t.log.readLocal cursor maxBytes

/-- The loop of `PartitionLog::read`. -/
def readLoop (t : TieredLog) (maxBytes : Nat) : Nat → Int → FetchResult → Expected FetchResult
  | 0, _, result => .ok result
  | fuel + 1, cursor, result =>
    if cursor < t.log.logEndOffset ∧ result.batches.length < maxBytes then
      match t.readAt cursor (maxBytes - result.batches.length) with
      | .error e => .error e
      | .ok fragment =>
        if fragment.batches = [] then .ok result
        else t.readLoop maxBytes fuel fragment.nextOffset
          { batches := result.batches ++ fragment.batches, nextOffset := fragment.nextOffset }
    else .ok result

def read (t : TieredLog) (offset : Int) (maxBytes : Nat) : Expected FetchResult :=
  if offset < t.log.logStartOffset then
    makeError .outOfRange "offset por debajo de log_start_offset"
  else t.readLoop maxBytes (t.log.logEndOffset - offset).toNat offset { nextOffset := offset }

end TieredLog

end Nexus.Raw
