import Nexus.Storage.SegmentCrypto
import Nexus.Storage.SparseIndex

/-!
# Segments as files

`storage/segment.cpp` down to the bytes of the `.log` and the entries of the `.index`. The four
loops of the source that walk the blocks of a segment (`read`, `recover`, `position_of` and
`rebuild_index`) are one loop, `scanBlocks`, with what each does at a block.

A batch is written as one block, its frame (`Framed`): the encoded batch itself, or a header and the
ciphertext.
-/

namespace Nexus.Raw

open Lib

structure BlockHeader where
  baseOffset : Int
  recordCount : Int
  onDiskSize : Nat
  deriving DecidableEq

def BlockHeader.lastOffset (h : BlockHeader) : Int := h.baseOffset + h.recordCount - 1

/-- Encoded batches, and the offset to continue from. -/
structure FetchResult where
  batches : Bytes := []
  nextOffset : Int := 0
  deriving DecidableEq

structure Segment where
  baseOffset : Int
  /-- The bytes of the `.log` file. -/
  log : Bytes
  index : SparseIndex
  sizeBytes : Nat
  cipher : Option SegmentCipher := none
  dataStart : Nat := 0
  state : SegmentState := .active

/-- `pwrite`: a gap before the data reads as zeros. -/
def writeAt (file : Bytes) (pos : Nat) (data : Bytes) : Bytes :=
  file.take pos ++ (List.replicate (pos - file.length) 0 ++ (data ++ file.drop (pos + data.length)))

/-! ## Blocks -/

def blockHeaderSize (cipher : Option SegmentCipher) : Nat :=
  if cipher.isSome then kEncBlockHeaderSize else RecordBatch.kHeaderSize

/-- The header of a block, from its first bytes. -/
def parseBlockHeader (cipher : Option SegmentCipher) (header : Bytes) : Option BlockHeader :=
  match cipher with
  | some _ =>
    match SegmentCipher.peekBlock header with
    | .error _ => none
    | .ok view => some ⟨view.baseOffset, view.recordCount, view.onDiskSize⟩
  | none =>
    match RecordBatch.peek header with
    | .error _ => none
    | .ok view => some ⟨view.baseOffset, view.recordCount, view.encodedSize⟩

/-- The encoded batch of a block: the block itself, or its plaintext. -/
def openFrame (cipher : Option SegmentCipher) (block : Bytes) : Expected Bytes :=
  match cipher with
  | some c => c.openBlock block
  | none => .ok block

/-- The block that `append` writes for a batch. -/
def frameFor (cipher : Option SegmentCipher) (batch : RecordBatch) (nonce : Nonce) :
    Expected Bytes :=
  match cipher with
  | some c => c.sealBlock batch.encode batch.header.baseOffset batch.header.recordCount nonce
  | none => .ok batch.encode

namespace Segment

/-- `Segment::create`, with what the two files have if they are there: they are opened without
truncating them. -/
def create (log : Bytes) (index : List IndexEntry) (baseOffset : Int) (interval : Nat)
    (key : Option EncryptionKey) (salt : Salt) : Expected Segment :=
  match SparseIndex.openFile index baseOffset interval with
  | .error e => .error e
  | .ok index =>
    match key with
    | none => .ok { baseOffset, log, index, sizeBytes := 0 }
    | some key =>
      .ok { baseOffset
            log := writeAt log 0 (encodeSegmentHeader salt)
            index
            sizeBytes := kEncSegmentHeaderSize
            cipher := some (key salt.bytes)
            dataStart := kEncSegmentHeaderSize }

/-- Is the segment encrypted, by the first bytes of its `.log`? -/
def detect (log : Bytes) (key : Option EncryptionKey) :
    Expected (Option SegmentCipher × Nat) :=
  let header := slice log 0 kEncSegmentHeaderSize
  if log.length ≥ kEncSegmentHeaderSize ∧ isEncryptedSegmentHeader header then
    match key with
    | none =>
      makeError .unsupported "segmento cifrado, pero no se configuró clave de cifrado"
    | some key =>
      match parseSegmentHeader header with
      | .error e => .error e
      | .ok salt => .ok (some (key salt), kEncSegmentHeaderSize)
  else .ok (none, 0)

/-- `Segment::open`. -/
def openFiles (log : Bytes) (index : List IndexEntry) (baseOffset : Int) (interval : Nat)
    (key : Option EncryptionKey) : Expected Segment :=
  match detect log key with
  | .error e => .error e
  | .ok (cipher, dataStart) =>
    match SparseIndex.openFile index baseOffset interval with
    | .error e => .error e
    | .ok index => .ok { baseOffset, log, index, sizeBytes := log.length, cipher, dataStart }

def isFull (s : Segment) (segmentBytes : Nat) : Bool := segmentBytes ≤ s.sizeBytes

def isEmpty (s : Segment) : Bool := s.sizeBytes == s.dataStart

def peekBlock (s : Segment) (position : Nat) : Option BlockHeader :=
  let headerSize := blockHeaderSize s.cipher
  if position + headerSize > s.sizeBytes then none
  else
    let header := slice s.log position headerSize
    if header.length < headerSize then none else parseBlockHeader s.cipher header

def loadBlock (s : Segment) (position onDiskSize : Nat) : Expected Bytes :=
  let block := slice s.log position onDiskSize
  if block.length < onDiskSize then makeError .corrupt "bloque truncado en disco"
  else openFrame s.cipher block

/-- `while (position < size_bytes_)`: every loop over the blocks. Each turn passes at least a
header, so the size of the file bounds the turns. -/
def scanBlocks {σ : Type} (s : Segment) (visit : σ → Nat → BlockHeader → σ × Bool)
    (position : Nat) (acc : σ) : σ × Nat :=
  scan s.peekBlock BlockHeader.onDiskSize s.sizeBytes visit s.sizeBytes position acc

def append (s : Segment) (batch : RecordBatch) (nonce : Nonce) : Expected (Segment × Int) :=
  if s.state = .closed then makeError .invalidArgument "append sobre un segmento sellado"
  else
    match frameFor s.cipher batch nonce with
    | .error e => .error e
    | .ok frame =>
      .ok ({ s with
              log := writeAt s.log s.sizeBytes frame
              index := s.index.maybeAppend batch.header.baseOffset s.sizeBytes frame.length
              sizeBytes := s.sizeBytes + frame.length }, batch.lastOffset)

/-- One turn of the loop of `read`: blocks wholly below `offset` are skipped, and the loop stops
before the first block that would pass `maxBytes`, unless it is the first one taken. -/
def readVisit (s : Segment) (offset : Int) (maxBytes : Nat) :
    Expected FetchResult → Nat → BlockHeader → Expected FetchResult × Bool
  | .error e, _, _ => (.error e, false)
  | .ok result, position, info =>
    if position + info.onDiskSize > s.sizeBytes then (.ok result, false)
    else if info.lastOffset < offset then (.ok result, true)
    else if result.batches ≠ [] ∧ result.batches.length + info.onDiskSize > maxBytes then
      (.ok result, false)
    else
      match s.loadBlock position info.onDiskSize with
      | .error e => (.error e, false)
      | .ok batch =>
        (.ok { batches := result.batches ++ batch, nextOffset := info.lastOffset + 1 }, true)

def read (s : Segment) (offset : Int) (maxBytes : Nat) : Expected FetchResult :=
  (s.scanBlocks (s.readVisit offset maxBytes) (max (s.index.floor offset).filePosition s.dataStart)
    (.ok { nextOffset := offset })).1

/-- One turn of the loop of `recover`: the index and the last valid offset so far. -/
def recoverVisit (s : Segment) (acc : SparseIndex × Int) (position : Nat) (info : BlockHeader) :
    (SparseIndex × Int) × Bool :=
  if position + info.onDiskSize > s.sizeBytes then (acc, false)
  else
    match s.loadBlock position info.onDiskSize with
    | .error _ => (acc, false)
    | .ok plaintext =>
      match RecordBatch.decode plaintext with
      | .error _ => (acc, false)
      | .ok batch =>
        ((acc.1.maybeAppend info.baseOffset position info.onDiskSize, batch.lastOffset), true)

/-- The file is cut at `position`, if it is longer. -/
def cutAt (s : Segment) (position : Nat) : Segment :=
  if position < s.sizeBytes then { s with log := s.log.take position, sizeBytes := position } else s

/-- `Segment::recover`: the segment without its torn tail, and its last valid offset. -/
def recover (s : Segment) : Segment × Int :=
  let scanned := s.scanBlocks s.recoverVisit s.dataStart (s.index.reset, s.baseOffset - 1)
  ({ s.cutAt scanned.2 with index := scanned.1.1.flush }, scanned.1.2)

def positionVisit (target : Int) (found : Option Nat) (position : Nat) (info : BlockHeader) :
    Option Nat × Bool :=
  if info.baseOffset = target then (some position, false)
  else if info.baseOffset > target then (found, false)
  else (found, true)

def positionOf (s : Segment) (target : Int) : Expected Nat :=
  if target = s.baseOffset then .ok s.dataStart
  else
    match (s.scanBlocks (positionVisit target) s.dataStart none).1 with
    | some position => .ok position
    | none => makeError .invalidArgument "truncate_to: el offset no es frontera de batch"

def rebuildIndex (s : Segment) : Segment :=
  let visit (ix : SparseIndex) (position : Nat) (info : BlockHeader) : SparseIndex × Bool :=
    (ix.maybeAppend info.baseOffset position info.onDiskSize, true)
  { s with index := (s.scanBlocks visit s.dataStart s.index.reset).1.flush }

def truncateTo (s : Segment) (target : Int) : Expected Segment :=
  match s.positionOf target with
  | .error e => .error e
  | .ok position => .ok { (s.cutAt position).rebuildIndex with state := .active }

def sync (s : Segment) : Segment := { s with index := s.index.flush }

/-- `Segment::seal`. -/
def sealSegment (s : Segment) : Segment := { s.sync with state := .closed }

end Segment

/-! ## Frames -/

/-- Bytes of the block of a batch. -/
def onDiskSize (cipher : Option SegmentCipher) (b : RecordBatch) : Nat :=
  if cipher.isSome then kEncBlockHeaderSize + b.encodedSize else b.encodedSize

/-- The header of the block of a batch. -/
def headerOf (cipher : Option SegmentCipher) (b : RecordBatch) : BlockHeader :=
  ⟨b.baseOffset, b.header.recordCount, onDiskSize cipher b⟩

/-- A block that a segment writes for a batch, with some nonce. -/
def Framed (cipher : Option SegmentCipher) (b : RecordBatch) (frame : Bytes) : Prop :=
  ∃ nonce, frameFor cipher b nonce = .ok frame

section Frames

variable {cipher : Option SegmentCipher} {b : RecordBatch} {frame header : Bytes}

theorem onDiskSize_pos (cipher : Option SegmentCipher) (b : RecordBatch) :
    0 < onDiskSize cipher b := by
  have := b.encodedSize_pos
  unfold onDiskSize
  split <;> omega

theorem encodedSize_le_onDiskSize (cipher : Option SegmentCipher) (b : RecordBatch) :
    b.encodedSize ≤ onDiskSize cipher b := by
  unfold onDiskSize
  split <;> omega

theorem blockHeaderSize_le (cipher : Option SegmentCipher) (b : RecordBatch) :
    blockHeaderSize cipher ≤ onDiskSize cipher b := by
  unfold blockHeaderSize onDiskSize RecordBatch.encodedSize
  split <;> omega

theorem Framed.eq_encode (h : Framed none b frame) : frame = b.encode := by
  obtain ⟨nonce, hframe⟩ := h
  cases hframe
  rfl

theorem Framed.length (h : Framed cipher b frame) : frame.length = onDiskSize cipher b := by
  cases cipher with
  | none =>
    rw [h.eq_encode]
    exact b.length_encode
  | some c =>
    obtain ⟨nonce, hseal⟩ := h
    rw [SegmentCipher.length_sealBlock hseal, b.length_encode]
    rfl

theorem parseBlockHeader_of_peek {view : RecordBatchView}
    (h : RecordBatch.peek header = .ok view) : parseBlockHeader none header =
      some ⟨view.baseOffset, view.recordCount, view.encodedSize⟩ := by
  unfold parseBlockHeader
  rw [h]

theorem parseBlockHeader_of_peekBlock {c : SegmentCipher}
    {view : EncryptedBlockView} (h : SegmentCipher.peekBlock header = .ok view) :
    parseBlockHeader (some c) header =
      some ⟨view.baseOffset, view.recordCount, view.onDiskSize⟩ := by
  unfold parseBlockHeader
  rw [h]

/-- The first bytes of a block tell its header, also when the block goes no further. -/
theorem Framed.parse (h : Framed cipher b frame) (hb : b.Fits) (rest : Bytes) :
    parseBlockHeader cipher ((frame ++ rest).take (blockHeaderSize cipher)) =
      some (headerOf cipher b) := by
  cases cipher with
  | none =>
    rw [h.eq_encode]
    exact parseBlockHeader_of_peek (RecordBatch.peek_encode rest hb)
  | some c =>
    obtain ⟨nonce, hseal⟩ := h
    have hsize : b.encode.length = b.encodedSize := b.length_encode
    have hpeek := parseBlockHeader_of_peekBlock (c := c) (SegmentCipher.peekBlock_seal hseal
      hb.baseOffset hb.recordCount rest (Nat.le_refl _))
    rw [EncryptedBlockView.onDiskSize, hsize] at hpeek
    exact hpeek

theorem Framed.openFrame (h : Framed cipher b frame) (hb : b.Fits) :
    openFrame cipher frame = .ok b.encode := by
  cases cipher with
  | none =>
    rw [h.eq_encode]
    rfl
  | some c =>
    obtain ⟨nonce, hseal⟩ := h
    exact SegmentCipher.openBlock_seal hseal hb.baseOffset hb.recordCount

end Frames

end Nexus.Raw
