import Nexus.Common

/-!
# Segments

A segment is one stretch of the append-only log, the `.log` file of `storage/segment.cpp`. The
file is modelled block by block: each block is one batch, written whole. The sparse `.index`
only chooses where a scan starts and is left out; every scan here starts at the first block.
-/

namespace Nexus

/-- Life cycle of a segment: only an active one admits `append`. -/
inductive SegmentState
  | active | closed
  deriving DecidableEq

structure Segment where
  baseOffset : Int
  /-- The blocks of the `.log`, in file order. -/
  blocks : List RecordBatch := []
  state : SegmentState := .active
  deriving DecidableEq

/-- Batches read from the log, and the offset to continue from. -/
structure FetchResult where
  batches : List RecordBatch := []
  nextOffset : Int := 0
  deriving DecidableEq

/-- Bytes of a run of blocks. -/
def blockBytes (bs : List RecordBatch) : Nat := (bs.map RecordBatch.encodedSize).sum

namespace Segment

def create (baseOffset : Int) : Segment := { baseOffset }

def sizeBytes (s : Segment) : Nat := blockBytes s.blocks

def isFull (s : Segment) (segmentBytes : Nat) : Bool := segmentBytes ≤ s.sizeBytes

def isEmpty (s : Segment) : Bool := s.sizeBytes == 0

/-- `Segment::append`: the segment with the batch at its end, and the batch's last offset. -/
def append (s : Segment) (batch : RecordBatch) : Expected (Segment × Int) :=
  if s.state = .closed then makeError .invalidArgument "append sobre un segmento sellado"
  else .ok ({ s with blocks := s.blocks ++ [batch] }, batch.lastOffset)

/-- The scan of `Segment::read`: blocks wholly below `offset` are skipped, and the scan stops
before the first block that would pass `maxBytes`, unless it is the first one taken. -/
def readFrom (offset : Int) (maxBytes : Nat) : List RecordBatch → FetchResult → FetchResult
  | [], result => result
  | block :: rest, result =>
    if block.lastOffset < offset then readFrom offset maxBytes rest result
    else if result.batches ≠ [] ∧ blockBytes result.batches + block.encodedSize > maxBytes then
      result
    else readFrom offset maxBytes rest
      { batches := result.batches ++ [block], nextOffset := block.lastOffset + 1 }

def read (s : Segment) (offset : Int) (maxBytes : Nat) : FetchResult :=
  readFrom offset maxBytes s.blocks { nextOffset := offset }

/-- `Segment::recover`: the last offset of the segment, `base - 1` when it has no block. The
blocks of the model are whole and their CRC holds, so nothing is cut. -/
def recover (s : Segment) : Int :=
  match s.blocks.getLast? with
  | some block => block.lastOffset
  | none => s.baseOffset - 1

/-- The scan of `Segment::position_of`: how many blocks stand before the one that starts at
`target`. -/
def positionIn (target : Int) : List RecordBatch → Expected Nat
  | [] => makeError .invalidArgument "truncate_to: el offset no es frontera de batch"
  | block :: rest =>
    if block.baseOffset = target then .ok 0
    else if block.baseOffset > target then
      makeError .invalidArgument "truncate_to: el offset no es frontera de batch"
    else (positionIn target rest).map (· + 1)

def positionOf (s : Segment) (target : Int) : Expected Nat :=
  if target = s.baseOffset then .ok 0 else positionIn target s.blocks

/-- `Segment::truncate_to`: drops the block that starts at `target` and all after it; the
segment is active again. -/
def truncateTo (s : Segment) (target : Int) : Expected Segment :=
  (s.positionOf target).map fun k => { s with blocks := s.blocks.take k, state := .active }

/-- `Segment::seal`. -/
def sealSegment (s : Segment) : Segment := { s with state := .closed }

end Segment

end Nexus
