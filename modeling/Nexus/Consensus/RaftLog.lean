import Nexus.Storage.PartitionLog

/-!
# The Raft log

`consensus/raft_log.cpp`: a `(term, index)` view over a partition log. One entry is one batch.
The live entries have their metadata in memory; those at or below the snapshot keep only the
term and the last offset of the last one. A slot is an index relative to the snapshot.
-/

namespace Nexus

inductive RaftEntryType
  | data | config
  deriving DecidableEq, Inhabited

/-- An entry as it travels; its payload is the batch that the bytes encode. -/
structure RaftLogEntry where
  term : Nat := 0
  index : Nat := 0
  type : RaftEntryType := .data
  payload : RecordBatch
  deriving DecidableEq

structure EntryMeta where
  term : Nat := 0
  baseOffset : Int := 0
  lastOffset : Int := 0
  type : RaftEntryType := .data
  deriving DecidableEq

structure RaftLog where
  log : PartitionLog
  /-- Metadata of the live entries, those above the snapshot. -/
  entries : List EntryMeta := []
  snapshotIndex : Nat := 0
  snapshotTerm : Nat := 0
  snapshotLastOffset : Int := 0
  deriving DecidableEq

/-- How a snapshot installation ends: it goes through, the partition log cannot be reset and
stays as it was, or the log is reset and the sidecars cannot be written. -/
inductive InstallIo
  | done | resetFails | persistFails
  deriving DecidableEq

/-- The answers of the storage device during one call. -/
structure LogIo where
  /-- Number of entries written before a write of `append` fails. -/
  appendFails : Option Nat := none
  truncateFails : Bool := false
  install : InstallIo := .done
  /-- Peers for which the entries to send cannot be read. -/
  readFails : List NodeId := []
  deriving DecidableEq

namespace RaftLog

/-- A log with no entry, over an empty partition log. -/
def create (cfg : LogConfig) : RaftLog := { log := .create cfg }

def lastIndex (r : RaftLog) : Nat := r.snapshotIndex + r.entries.length

def lastTerm (r : RaftLog) : Nat :=
  match r.entries.getLast? with
  | some entry => entry.term
  | none => if r.snapshotIndex > 0 then r.snapshotTerm else 0

def slotOf (r : RaftLog) (index : Nat) : Nat := index - r.snapshotIndex - 1

/-- `RaftLog::append`: one entry after another; a failure keeps those already written. -/
def append : RaftLog → Option Nat → List RaftLogEntry → RaftLog × Expected Nat
  | r, _, [] => (r, .ok r.lastIndex)
  | r, some 0, _ :: _ => (r, makeError .ioError "pwrite")
  | r, fails, entry :: rest =>
    match r.log.append entry.payload with
    | .error e => (r, .error e)
    | .ok (log, last) =>
      let entryMeta : EntryMeta :=
        { term := entry.term, baseOffset := r.log.logEndOffset, lastOffset := last,
          type := entry.type }
      append { r with log, entries := r.entries ++ [entryMeta] } (fails.map (· - 1)) rest

def truncateFrom (r : RaftLog) (index : Nat) : Expected RaftLog :=
  if index < 1 then makeError .invalidArgument "truncate_from: índice < 1"
  else if index ≤ r.snapshotIndex then
    makeError .invalidArgument "truncate_from: índice ya compactado"
  else if index > r.lastIndex then .ok r
  else match r.entries[r.slotOf index]? with
    | none => .ok r
    | some entry =>
      match r.log.truncateTo entry.baseOffset with
      | .error e => .error e
      | .ok log => .ok { r with log, entries := r.entries.take (r.slotOf index) }

def termAt (r : RaftLog) (index : Nat) : Expected Nat :=
  if index = 0 then .ok 0
  else if index = r.snapshotIndex then .ok r.snapshotTerm
  else if index < r.snapshotIndex then makeError .outOfRange "term_at: índice compactado"
  else match r.entries[r.slotOf index]? with
    | none => makeError .outOfRange "term_at: índice fuera de rango"
    | some entry => .ok entry.term

def offsetsAt (r : RaftLog) (index : Nat) : Expected (Int × Int) :=
  if index ≤ r.snapshotIndex then makeError .outOfRange "offsets_at: índice fuera de rango"
  else match r.entries[r.slotOf index]? with
    | none => makeError .outOfRange "offsets_at: índice fuera de rango"
    | some entry => .ok (entry.baseOffset, entry.lastOffset)

/-- `read_payload`: a read of one byte gives exactly the batch that holds the base offset. -/
def readPayload (r : RaftLog) (entry : EntryMeta) : Expected RecordBatch :=
  match r.log.read entry.baseOffset 1 with
  | .error e => .error e
  | .ok fragment =>
    match fragment.batches with
    | [] => makeError .corrupt "RaftLog: entrada ausente en el PartitionLog"
    | batch :: _ => .ok batch

/-- The loop of `entries_from` over the metadata from index `i` on. -/
def readEntries (r : RaftLog) : Nat → List EntryMeta → Expected (List RaftLogEntry)
  | _, [] => .ok []
  | i, entry :: rest =>
    match r.readPayload entry with
    | .error e => .error e
    | .ok payload =>
      match r.readEntries (i + 1) rest with
      | .error e => .error e
      | .ok tail => .ok ({ term := entry.term, index := i, type := entry.type, payload } :: tail)

def entriesFrom (r : RaftLog) (index : Nat) (max : Nat) : Expected (List RaftLogEntry) :=
  if index < 1 then makeError .invalidArgument "entries_from: índice < 1"
  else if index ≤ r.snapshotIndex then
    makeError .outOfRange "entries_from: índice compactado (requiere snapshot)"
  else r.readEntries index ((r.entries.drop (r.slotOf index)).take max)

def compactTo (r : RaftLog) (upToIndex : Nat) : Expected RaftLog :=
  if upToIndex ≤ r.snapshotIndex then .ok r
  else match r.entries[r.slotOf upToIndex]? with
    | none => makeError .invalidArgument "compact_to: índice más allá del log"
    | some boundary =>
      match r.log.truncatePrefixTo (boundary.lastOffset + 1) with
      | .error e => .error e
      | .ok log =>
        .ok { log
              entries := r.entries.drop (r.slotOf upToIndex + 1)
              snapshotIndex := upToIndex
              snapshotTerm := boundary.term
              snapshotLastOffset := boundary.lastOffset }

/-- Is the entry `(index, term)` among the live ones? -/
def holds (r : RaftLog) (index : Nat) (term : Nat) : Bool :=
  index ≤ r.lastIndex && r.termAt index == .ok term

/-- The reset branch of `install_snapshot`: the whole log is dropped and the partition log starts
again, empty, right after the snapshot. -/
def resetTo (r : RaftLog) (index : Nat) (term : Nat) (lastOffset : Int) :
    Expected RaftLog :=
  match r.log.resetTo (lastOffset + 1) with
  | .error e => .error e
  | .ok log =>
    .ok { log, entries := [], snapshotIndex := index, snapshotTerm := term,
          snapshotLastOffset := lastOffset }

/-- `RaftLog::install_snapshot`: the log after the call, and whether the call succeeded. -/
def installSnapshot (r : RaftLog) (io : InstallIo) (index : Nat) (term : Nat)
    (lastOffset : Int) : RaftLog × Bool :=
  if index ≤ r.snapshotIndex then (r, true)
  else
    let installed :=
      if r.holds index term then r.compactTo index
      else if io = .resetFails then makeError .ioError "reset_to"
      else r.resetTo index term lastOffset
    match installed with
    | .error _ => (r, false)
    | .ok r' => (r', io ≠ .persistFails)

end RaftLog

end Nexus
