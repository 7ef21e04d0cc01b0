import Nexus.Storage.RawSegment

/-!
# The blocks of a segment file

A segment file *stores* a list of batches when it is the header of the segment followed by one frame
for each of them (`Segment.Stores`), and it is *torn* when what is left of one more frame follows
(`Segment.Torn`). The loops over the file are then loops over the batches
(`Torn.scanBlocks`), and the operations are those of the segment of blocks of `Storage.Segment`:

* `Stores.push`, `Stores.truncateTo`, `Stores.flush`.
* `Stores.read`: a first batch from the offset on, and some that fit after it.
* `Torn.recover`: the whole frames stay, and the rest of the file goes.
* `Torn.openFiles`: the files open as the segment that wrote them.

A segment has fewer than `2 ^ 32` bytes and offsets, what an index entry can hold.
-/

namespace Nexus.Raw

open Lib SparseIndex Raw.Segment List

variable {cipher : Option SegmentCipher} {key : Option EncryptionKey}

/-- The encoded batches, one after another. -/
def encodeAll (bs : List RecordBatch) : Bytes := bs.flatMap RecordBatch.encode

@[simp] theorem encodeAll_nil : encodeAll [] = [] := rfl

@[simp] theorem encodeAll_cons (b : RecordBatch) (bs : List RecordBatch) :
    encodeAll (b :: bs) = b.encode ++ encodeAll bs := rfl

@[simp] theorem encodeAll_append (bs cs : List RecordBatch) :
    encodeAll (bs ++ cs) = encodeAll bs ++ encodeAll cs := flatMap_append

theorem length_encodeAll (bs : List RecordBatch) : (encodeAll bs).length = blockBytes bs := by
  induction bs with
  | nil => rfl
  | cons b bs ih => rw [encodeAll_cons, length_append, ih, b.length_encode, blockBytes_cons]

theorem encodeAll_cons_ne_nil (b : RecordBatch) (bs : List RecordBatch) :
    encodeAll (b :: bs) ≠ [] := by
  rw [encodeAll_cons]
  exact append_ne_nil_of_left_ne_nil b.encode_ne_nil _

/-- What a segment file starts with: nothing, or the header with the salt of its key. -/
def HeaderOf (key : Option EncryptionKey) (cipher : Option SegmentCipher) (header : Bytes) : Prop :=
  match cipher with
  | none => header = []
  | some c => ∃ k, ∃ salt : Salt, key = some k ∧ c = k salt.bytes ∧
    header = encodeSegmentHeader salt

/-- The first bytes, and not all, of the frame of a batch at offset `o`, or nothing. -/
def TornTail (cipher : Option SegmentCipher) (o : Int) (tail : Bytes) : Prop :=
  tail = [] ∨ ∃ b frame, b.Fits ∧ b.baseOffset = o ∧ Framed cipher b frame ∧ tail <+: frame ∧
    tail.length < frame.length

namespace Segment

variable {position : Nat} {frame : Bytes} {b : RecordBatch} {offset target : Int}
  {bs : List RecordBatch} {σ : Type} {visit : σ → Nat → BlockHeader → σ × Bool}

structure Torn (key : Option EncryptionKey) (s : Segment) (blocks : List RecordBatch)
    (tail : Bytes) : Prop where
  file : ∃ header frames, HeaderOf key s.cipher header ∧ header.length = s.dataStart ∧
    List.Forall₂ (Framed s.cipher) blocks frames ∧ s.log = header ++ (frames.flatten ++ tail)
  tail : TornTail s.cipher (endOf s.baseOffset blocks) tail
  size : s.sizeBytes = s.log.length
  fits : ∀ b ∈ blocks, b.Fits
  chain : Chain s.baseOffset blocks
  bytes : s.sizeBytes < 2 ^ 32
  span : endOf s.baseOffset blocks - s.baseOffset < 2 ^ 32
  indexBase : s.index.baseOffset = s.baseOffset

/-- The frames alone, however many there are. -/
structure Bare (key : Option EncryptionKey) (s : Segment) (blocks : List RecordBatch)
    (tail : Bytes) : Prop where
  file : ∃ header frames, HeaderOf key s.cipher header ∧ header.length = s.dataStart ∧
    List.Forall₂ (Framed s.cipher) blocks frames ∧ s.log = header ++ (frames.flatten ++ tail)
  size : s.sizeBytes = s.log.length
  fits : ∀ b ∈ blocks, b.Fits
  chain : Chain s.baseOffset blocks

theorem Torn.bare {s : Segment} {blocks : List RecordBatch} {tail : Bytes}
    (h : s.Torn key blocks tail) : s.Bare key blocks tail :=
  ⟨h.file, h.size, h.fits, h.chain⟩

structure Stores (key : Option EncryptionKey) (s : Segment) (blocks : List RecordBatch) : Prop
    extends Torn key s blocks [] where
  anchored : s.index.Anchored (onDiskSize s.cipher) s.dataStart blocks

/-! ## Walks over the blocks -/

/-- What a visit keeps holds where a loop over the blocks stops. -/
theorem scanBlocks_invariant (s : Segment) {P : Nat → σ → Prop}
    (hstep : ∀ position acc info, s.peekBlock position = some info → P position acc →
      P (if (visit acc position info).2 then position + info.onDiskSize else position)
        (visit acc position info).1) {acc : σ} (h : P position acc) :
    P (s.scanBlocks visit position acc).2 (s.scanBlocks visit position acc).1 :=
  scan_invariant hstep _ h

/-- The block of a batch is in the file at `position`. -/
structure IsAt (s : Segment) (position : Nat) (b : RecordBatch) : Prop where
  within : position + onDiskSize s.cipher b ≤ s.sizeBytes
  peek : s.peekBlock position = some (headerOf s.cipher b)
  load : s.loadBlock position (onDiskSize s.cipher b) = .ok b.encode
  fits : b.Fits

variable {s : Segment} {blocks : List RecordBatch} {tail pre : Bytes} {size : RecordBatch → Nat}
  {frames : List Bytes} {info : BlockHeader} {t : Nexus.Segment} {ix : SparseIndex} {j : Nat}

theorem isAt_of_framed (hsize : s.sizeBytes = s.log.length) {rest : Bytes}
    (hlog : s.log = pre ++ (frame ++ rest)) (hf : Framed s.cipher b frame) (hb : b.Fits) :
    s.IsAt pre.length b := by
  have hlen := hf.length
  have hheader := blockHeaderSize_le s.cipher b
  have htotal : s.sizeBytes = pre.length + (frame.length + rest.length) := by
    rw [hsize, hlog, length_append, length_append]
  have hslice : slice s.log pre.length (blockHeaderSize s.cipher) =
      (frame ++ rest).take (blockHeaderSize s.cipher) := by
    rw [hlog, slice_append_left _ _ _ _ rfl]
  refine ⟨by omega, ?_, ?_, hb⟩
  · unfold peekBlock
    rw [if_neg (by omega)]
    dsimp only
    rw [hslice, if_neg (by rw [length_take, length_append]; omega), hf.parse hb]
  · have hblock : slice s.log pre.length (onDiskSize s.cipher b) = frame := by
      rw [hlog]
      exact slice_field rfl hlen
    unfold loadBlock
    dsimp only
    rw [hblock, if_neg (by omega), hf.openFrame hb]

theorem framesAt_of_forall₂ (hsize : s.sizeBytes = s.log.length)
    (hlog : s.log = pre ++ (frames.flatten ++ tail))
    (hframes : List.Forall₂ (Framed s.cipher) blocks frames) (hfits : ∀ b ∈ blocks, b.Fits) :
    FramesAt s.IsAt (onDiskSize s.cipher) pre.length blocks := by
  induction hframes generalizing pre with
  | nil => trivial
  | @cons b frame bs fs hf hfs ih =>
    rw [flatten_cons, append_assoc] at hlog
    refine ⟨isAt_of_framed hsize hlog hf (hfits b mem_cons_self), ?_⟩
    have hnext := ih (show s.log = (pre ++ frame) ++ (fs.flatten ++ tail) by
      rw [hlog, append_assoc]) (fun x hx => hfits x (.tail _ hx))
    rwa [length_append, hf.length] at hnext

theorem totalSize_eq_length (h : List.Forall₂ (Framed cipher) blocks frames) :
    frames.flatten.length = totalSize (onDiskSize cipher) blocks := by
  induction h with
  | nil => rfl
  | cons hf _ ih => rw [flatten_cons, length_append, ih, hf.length, totalSize_cons]

theorem Bare.framesAt (h : s.Bare key blocks tail) :
    FramesAt s.IsAt (onDiskSize s.cipher) s.dataStart blocks := by
  obtain ⟨header, frames, -, hlen, hframes, hlog⟩ := h.file
  rw [← hlen]
  exact framesAt_of_forall₂ h.size hlog hframes h.fits

theorem Bare.sizeBytes_eq (h : s.Bare key blocks tail) :
    s.sizeBytes = s.dataStart + totalSize (onDiskSize s.cipher) blocks + tail.length := by
  obtain ⟨header, frames, -, hlen, hframes, hlog⟩ := h.file
  rw [h.size, hlog, length_append, length_append, totalSize_eq_length hframes, hlen]
  omega

theorem Torn.sizeBytes_eq (h : s.Torn key blocks tail) :
    s.sizeBytes = s.dataStart + totalSize (onDiskSize s.cipher) blocks + tail.length :=
  h.bare.sizeBytes_eq

/-- The header of the torn frame, if it is whole, tells that the frame is not. -/
theorem Torn.stops (h : s.Torn key blocks tail)
    (hinfo : s.peekBlock (s.dataStart + totalSize (onDiskSize s.cipher) blocks) = some info) :
    s.sizeBytes < s.dataStart + totalSize (onDiskSize s.cipher) blocks + info.onDiskSize := by
  have hsize := h.sizeBytes_eq
  obtain ⟨header, frames, -, hlen, hframes, hlog⟩ := h.file
  unfold peekBlock at hinfo
  by_cases hshort : s.dataStart + totalSize (onDiskSize s.cipher) blocks +
      blockHeaderSize s.cipher > s.sizeBytes
  · rw [if_pos hshort] at hinfo
    cases hinfo
  rw [if_neg hshort] at hinfo
  dsimp only at hinfo
  have hslice : slice s.log (s.dataStart + totalSize (onDiskSize s.cipher) blocks)
      (blockHeaderSize s.cipher) = tail.take (blockHeaderSize s.cipher) := by
    rw [hlog, ← append_assoc]
    exact slice_append_left _ _ _ _ (by
      rw [length_append, hlen, totalSize_eq_length hframes])
  rw [hslice] at hinfo
  rcases h.tail with hnil | ⟨b, frame, hb, -, hf, hpre, hlt⟩
  · have hpos : 0 < blockHeaderSize s.cipher := by
      unfold blockHeaderSize
      split <;> decide
    rw [hnil] at hsize
    simp only [length_nil] at hsize
    omega
  · obtain ⟨rest, rfl⟩ := hpre
    have hheader := blockHeaderSize_le s.cipher b
    rw [if_neg (by rw [length_take]; omega)] at hinfo
    have hparse := hf.parse hb []
    rw [append_nil, take_append_of_le_length (by omega), hinfo] at hparse
    cases hparse
    have := hf.length
    change s.sizeBytes < _ + onDiskSize s.cipher b
    omega

/-- A loop over the file from a block on is a loop over the batches, if it agrees with it at each of
them and stops at what follows. -/
theorem Bare.scanBlocks (h : s.Bare key blocks tail) {visitFrame : σ → Nat → RecordBatch → σ × Bool}
    (hvisit : ∀ position b, s.IsAt position b → ∀ acc,
      visit acc position (headerOf s.cipher b) = visitFrame acc position b)
    (hstop : tail = [] ∨ ∀ info,
      s.peekBlock (s.dataStart + totalSize (onDiskSize s.cipher) blocks) = some info → ∀ acc,
        visit acc (s.dataStart + totalSize (onDiskSize s.cipher) blocks) info = (acc, false))
    (k : Nat) (acc : σ) :
    s.scanBlocks visit (s.dataStart + totalSize (onDiskSize s.cipher) (blocks.take k)) acc =
      walk (onDiskSize s.cipher) visitFrame (blocks.drop k)
        (s.dataStart + totalSize (onDiskSize s.cipher) (blocks.take k)) acc := by
  have hsize := h.sizeBytes_eq
  have hend : s.dataStart + totalSize (onDiskSize s.cipher) (blocks.take k) +
      totalSize (onDiskSize s.cipher) (blocks.drop k) =
      s.dataStart + totalSize (onDiskSize s.cipher) blocks := by
    rw [Nat.add_assoc, ← totalSize_append, take_append_drop]
  refine scan_eq_walk (h.framesAt.drop k) (fun position b hat => ⟨?_, _, hat.peek, rfl,
    hvisit position b hat⟩) (fun fuel acc => ?_) ?_ acc
  · have := hat.within
    have := onDiskSize_pos s.cipher b
    omega
  · rw [hend]
    rcases hstop with rfl | hstop
    · exact scan_of_le (by rw [hsize, length_nil]; omega) fuel acc
    · exact scan_of_torn hstop fuel acc
  · have := length_le_totalSize (onDiskSize_pos s.cipher) (blocks.drop k)
    omega

/-- A loop over the whole file. -/
theorem Torn.scanBlocks_all (h : s.Torn key blocks tail)
    (visitFrame : σ → Nat → RecordBatch → σ × Bool)
    (hvisit : ∀ position b, s.IsAt position b → ∀ acc,
      visit acc position (headerOf s.cipher b) = visitFrame acc position b)
    (hstop : tail = [] ∨ ∀ acc position info, s.sizeBytes < position + info.onDiskSize →
      visit acc position info = (acc, false)) (acc : σ) :
    s.scanBlocks visit s.dataStart acc =
      walk (onDiskSize s.cipher) visitFrame blocks s.dataStart acc :=
  h.bare.scanBlocks hvisit (hstop.imp_right fun hstop info hinfo acc =>
    hstop acc _ info (h.stops hinfo)) 0 acc

/-! ## Read -/

/-- The loop of `read` over batches. -/
def readBlocks (cipher : Option SegmentCipher) (offset : Int) (maxBytes : Nat) :
    List RecordBatch → FetchResult → FetchResult
  | [], result => result
  | b :: rest, result =>
    if b.lastOffset < offset then readBlocks cipher offset maxBytes rest result
    else if result.batches ≠ [] ∧ result.batches.length + onDiskSize cipher b > maxBytes then result
    else readBlocks cipher offset maxBytes rest
      { batches := result.batches ++ b.encode, nextOffset := b.lastOffset + 1 }

/-- One turn of that loop. -/
def readFrame (cipher : Option SegmentCipher) (offset : Int) (maxBytes : Nat) :
    Expected FetchResult → Nat → RecordBatch → Expected FetchResult × Bool
  | .error e, _, _ => (.error e, false)
  | .ok result, _, b =>
    if b.lastOffset < offset then (.ok result, true)
    else if result.batches ≠ [] ∧ result.batches.length + onDiskSize cipher b > maxBytes then
      (.ok result, false)
    else (.ok { batches := result.batches ++ b.encode, nextOffset := b.lastOffset + 1 }, true)

theorem readVisit_eq {maxBytes : Nat} (h : s.IsAt position b) (acc : Expected FetchResult) :
    s.readVisit offset maxBytes acc position (headerOf s.cipher b) =
      readFrame s.cipher offset maxBytes acc position b := by
  have hwithin := h.within
  have hlast : (headerOf s.cipher b).lastOffset = b.lastOffset := rfl
  have hsize : (headerOf s.cipher b).onDiskSize = onDiskSize s.cipher b := rfl
  cases acc with
  | error e => rfl
  | ok result =>
    unfold readVisit readFrame
    dsimp only
    rw [hlast, hsize, if_neg (by omega), h.load]

theorem walk_readFrame (size : RecordBatch → Nat) (cipher : Option SegmentCipher) (offset : Int)
    (maxBytes : Nat) (bs : List RecordBatch) (position : Nat) (result : FetchResult) :
    (walk size (readFrame cipher offset maxBytes) bs position (.ok result)).1 =
      .ok (readBlocks cipher offset maxBytes bs result) := by
  induction bs generalizing position result with
  | nil => rfl
  | cons b bs ih =>
    rw [walk, readBlocks, readFrame]
    split
    · exact ih _ _
    split
    · rfl
    · exact ih _ _

theorem readBlocks_dropWhile (offset : Int) (m : Nat) (bs : List RecordBatch) (r : FetchResult) :
    readBlocks cipher offset m bs r =
      readBlocks cipher offset m (bs.dropWhile (below offset)) r := by
  induction bs with
  | nil => rfl
  | cons b bs ih =>
    by_cases hb : b.lastOffset < offset
    · rw [dropWhile_cons_of_pos (by simpa [below] using hb), ← ih, readBlocks, if_pos hb]
    · rw [dropWhile_cons_of_neg (by simpa [below] using hb)]

/-- Once a batch is taken, the loop takes batches that still fit. The limit is compared with the
size of the block in the file, which is not smaller than that of the batch. -/
theorem readBlocks_spec {m : Nat} (hbs : ∀ b ∈ bs, offset ≤ b.lastOffset) {r : FetchResult}
    (hr : r.batches ≠ []) :
    ∃ p rest, bs = p ++ rest ∧ (p = [] ∨ r.batches.length + blockBytes p ≤ m) ∧
      readBlocks cipher offset m bs r =
        { batches := r.batches ++ encodeAll p, nextOffset := endOf r.nextOffset p } := by
  induction bs generalizing r with
  | nil => exact ⟨[], [], rfl, .inl rfl, by simp [readBlocks]⟩
  | cons b bs ih =>
    have hb := hbs b mem_cons_self
    unfold readBlocks
    rw [if_neg (by omega)]
    split
    · exact ⟨[], b :: bs, rfl, .inl rfl, by simp⟩
    · rename_i hfit
      have hle := encodedSize_le_onDiskSize cipher b
      have hfit' : ¬ r.batches.length + onDiskSize cipher b > m := fun h => hfit ⟨hr, h⟩
      obtain ⟨p, rest, hsplit, hp, heq⟩ := ih (fun c hc => hbs c (mem_cons_of_mem _ hc))
        (r := { batches := r.batches ++ b.encode, nextOffset := b.lastOffset + 1 })
        (append_ne_nil_of_left_ne_nil hr _)
      refine ⟨b :: p, rest, by rw [hsplit]; rfl, .inr ?_, ?_⟩
      · rw [blockBytes_cons]
        rcases hp with rfl | hp
        · rw [blockBytes_nil]
          omega
        · rw [length_append, b.length_encode] at hp
          omega
      · rw [heq]
        simp

/-- The loop of `read` from a block on. -/
theorem Bare.scan_read (h : s.Bare key blocks []) (offset : Int) (m k : Nat) (r : FetchResult) :
    (s.scanBlocks (s.readVisit offset m)
      (s.dataStart + totalSize (onDiskSize s.cipher) (blocks.take k)) (.ok r)).1 =
      .ok (readBlocks s.cipher offset m (blocks.drop k) r) := by
  rw [h.scanBlocks (fun position b hat acc => readVisit_eq hat acc) (.inl rfl), walk_readFrame]

/-- The blocks before the one at which the scan starts are below the offset. -/
theorem dropWhile_of_floor {base : Int} {k : Nat} (hchain : Chain base blocks)
    (hk : endOf base (blocks.take k) ≤ offset) :
    (blocks.drop k).dropWhile (below offset) = blocks.dropWhile (below offset) := by
  conv => rhs; rw [← take_append_drop k blocks]
  refine (dropWhile_append_of_pos fun x hx => ?_).symm
  exact decide_eq_true (Int.lt_of_lt_of_le ((hchain.take k).bounds hx).2.2 hk)

/-- A read takes the batches from the offset on: a first one, and some after it that fit. -/
theorem Stores.read (h : s.Stores key blocks) (ho : s.baseOffset ≤ offset)
    (hd : blocks.dropWhile (below offset) = b :: bs) (hbs : ∀ c ∈ b :: bs, offset ≤ c.lastOffset)
    (m : Nat) :
    ∃ p rest, bs = p ++ rest ∧ (p = [] ∨ blockBytes (b :: p) ≤ m) ∧
      s.read offset m = .ok { batches := encodeAll (b :: p),
                              nextOffset := endOf (b.lastOffset + 1) p } := by
  obtain ⟨k, hk, hpos, hfloor⟩ := h.anchored.floor
    (show s.index.baseOffset ≤ offset by rw [h.indexBase]; exact ho)
  rw [h.indexBase] at hfloor
  have hb := hbs b mem_cons_self
  obtain ⟨p, rest, hsplit, hp, heq⟩ := @readBlocks_spec s.cipher offset bs m
    (fun c hc => hbs c (mem_cons_of_mem _ hc))
    { batches := b.encode, nextOffset := b.lastOffset + 1 } b.encode_ne_nil
  refine ⟨p, rest, hsplit, ?_, ?_⟩
  · rw [b.length_encode] at hp
    exact hp
  · unfold Segment.read
    rw [hpos, h.bare.scan_read, readBlocks_dropWhile, dropWhile_of_floor h.chain hfloor, hd,
      readBlocks, if_neg (by omega), if_neg (by simp)]
    dsimp only
    rw [nil_append, heq]
    rfl

/-! ## The index of the blocks -/

/-- The index that a loop over the blocks builds. -/
def indexBlocks (size : RecordBatch → Nat) (ix : SparseIndex) (position : Nat) :
    List RecordBatch → SparseIndex
  | [] => ix
  | b :: bs =>
    indexBlocks size (ix.maybeAppend b.baseOffset position (size b)) (position + size b) bs

theorem baseOffset_indexBlocks (size : RecordBatch → Nat) (ix : SparseIndex) (position : Nat)
    (bs : List RecordBatch) : (indexBlocks size ix position bs).baseOffset = ix.baseOffset := by
  induction bs generalizing ix position with
  | nil => rfl
  | cons b bs ih => rw [indexBlocks, ih, baseOffset_maybeAppend]

theorem anchored_indexBlocks {start : Nat}
    {done : List RecordBatch} (h : ix.Anchored size start done)
    (hchain : Chain ix.baseOffset (done ++ bs))
    (hspan : endOf ix.baseOffset (done ++ bs) - ix.baseOffset < 2 ^ 32)
    (hpos : start + totalSize size (done ++ bs) < 2 ^ 32) :
    (indexBlocks size ix (start + totalSize size done) bs).Anchored size start (done ++ bs) := by
  induction bs generalizing ix done with
  | nil =>
    rw [append_nil]
    exact h
  | cons b bs ih =>
    have hdone := (chain_append _ _ _).mp hchain
    have hle := hdone.2.le_endOf
    rw [← endOf_append] at hle
    have hstep := h.maybeAppend hdone.1 (b := b) hdone.2.1 (by omega)
      (by rw [totalSize_append] at hpos; omega) (size b)
    rw [append_cons] at hchain hspan hpos ⊢
    have hrest := ih hstep (by rw [baseOffset_maybeAppend]; exact hchain)
      (by rw [baseOffset_maybeAppend]; exact hspan) hpos
    rw [totalSize_append, totalSize_cons, totalSize_nil, Nat.add_zero, ← Nat.add_assoc] at hrest
    exact hrest

/-- The index of a segment, rebuilt from its blocks. -/
theorem Torn.anchored_rebuilt (h : s.Torn key blocks tail) :
    (indexBlocks (onDiskSize s.cipher) s.index.reset s.dataStart blocks).Anchored
      (onDiskSize s.cipher) s.dataStart blocks := by
  have hsize := h.sizeBytes_eq
  have hbytes := h.bytes
  have hspan := h.span
  have hchain := h.chain
  rw [← h.indexBase] at hspan hchain
  exact anchored_indexBlocks
    (show s.index.reset.Anchored (onDiskSize s.cipher) s.dataStart [] from
      anchored_reset s.index) hchain hspan (by rw [nil_append]; omega)

/-! ## Recovery -/

theorem recoverVisit_of_decode {plaintext : Bytes} {batch : RecordBatch}
    (hwithin : position + info.onDiskSize ≤ s.sizeBytes)
    (hload : s.loadBlock position info.onDiskSize = .ok plaintext)
    (hdecode : RecordBatch.decode plaintext = .ok batch) (acc : SparseIndex × Int) :
    s.recoverVisit acc position info =
      ((acc.1.maybeAppend info.baseOffset position info.onDiskSize, batch.lastOffset), true) := by
  unfold recoverVisit
  rw [if_neg (by omega), hload]
  dsimp only
  rw [hdecode]

theorem recoverVisit_eq (h : s.IsAt position b) (acc : SparseIndex × Int) :
    s.recoverVisit acc position (headerOf s.cipher b) =
      ((acc.1.maybeAppend b.baseOffset position (onDiskSize s.cipher b), b.lastOffset), true) := by
  have hdecode := RecordBatch.decode_encode [] h.fits
  rw [append_nil] at hdecode
  exact recoverVisit_of_decode h.within h.load hdecode acc

theorem walk_recover (size : RecordBatch → Nat) (bs : List RecordBatch) (position : Nat)
    (ix : SparseIndex) (last : Int) :
    walk size (fun acc position b =>
      ((acc.1.maybeAppend b.baseOffset position (size b), b.lastOffset), true)) bs position
      (ix, last) =
      ((indexBlocks size ix position bs, endOf (last + 1) bs - 1),
        position + totalSize size bs) := by
  induction bs generalizing position ix last with
  | nil => simp [walk, indexBlocks]
  | cons b bs ih =>
    rw [walk]
    dsimp only
    rw [if_pos rfl, ih, indexBlocks, totalSize_cons, Nat.add_assoc]
    rfl

/-- Recovery keeps the whole frames and builds their index anew. -/
theorem Torn.recover_eq (h : s.Torn key blocks tail) :
    s.recover =
      ({ s.cutAt (s.dataStart + totalSize (onDiskSize s.cipher) blocks) with
          index := (indexBlocks (onDiskSize s.cipher) s.index.reset s.dataStart blocks).flush },
        endOf s.baseOffset blocks - 1) := by
  have hscan := h.scanBlocks_all _ (fun position b hat acc => recoverVisit_eq hat acc)
    (.inr fun acc position info hlt => by unfold recoverVisit; rw [if_pos hlt])
    (s.index.reset, s.baseOffset - 1)
  rw [walk_recover, Int.sub_add_cancel] at hscan
  unfold recover
  rw [hscan]

theorem cutAt_eq (h : s.sizeBytes = s.log.length) (hp : position ≤ s.sizeBytes) :
    s.cutAt position = { s with log := s.log.take position, sizeBytes := position } := by
  unfold cutAt
  split
  · rfl
  · rw [take_of_length_le (by omega), show position = s.sizeBytes by omega]

@[simp] theorem cutAt_fields (s : Segment) (position : Nat) :
    (s.cutAt position).baseOffset = s.baseOffset ∧ (s.cutAt position).index = s.index ∧
    (s.cutAt position).cipher = s.cipher ∧ (s.cutAt position).dataStart = s.dataStart ∧
    (s.cutAt position).state = s.state := by
  unfold cutAt
  split <;> exact ⟨rfl, rfl, rfl, rfl, rfl⟩

/-- The file cut after some whole frames. -/
theorem Torn.cutAt (h : s.Torn key blocks tail) (hj : j ≤ blocks.length) :
    (s.cutAt (s.dataStart + totalSize (onDiskSize s.cipher) (blocks.take j))).Torn key
      (blocks.take j) [] := by
  have hle : totalSize (onDiskSize s.cipher) (blocks.take j) ≤
      totalSize (onDiskSize s.cipher) blocks := totalSize_take_le blocks j
  have hsize := h.sizeBytes_eq
  have hbytes := h.bytes
  have hspan := h.span
  obtain ⟨header, frames, hheader, hlen, hframes, hlog⟩ := h.file
  have htake : List.Forall₂ (Framed s.cipher) (blocks.take j) (frames.take j) :=
    forall₂_take j hframes
  have hcut : s.log.take (s.dataStart + totalSize (onDiskSize s.cipher) (blocks.take j)) =
      header ++ ((frames.take j).flatten ++ []) := by
    have hsplit : s.log =
        (header ++ (frames.take j).flatten) ++ ((frames.drop j).flatten ++ tail) := by
      rw [hlog, append_assoc, ← append_assoc (frames.take j).flatten,
        ← flatten_append, take_append_drop]
    rw [hsplit, take_left' (by rw [length_append, hlen, totalSize_eq_length htake]),
      append_nil]
  have hend := h.chain.endOf_take_le (j := j) (k := blocks.length) hj
  rw [take_length] at hend
  rw [cutAt_eq h.size (by omega)]
  refine ⟨⟨header, frames.take j, hheader, hlen, htake, hcut⟩, .inl rfl, ?_,
    fun b hb => h.fits b (mem_of_mem_take hb), h.chain.take j, ?_, ?_, h.indexBase⟩
  · dsimp only
    rw [length_take, ← h.size]
    omega
  · dsimp only
    omega
  · dsimp only
    omega

/-- The blocks do not depend on the index, nor on the state. -/
theorem Torn.withIndex (h : s.Torn key blocks tail)
    (hix : ix.baseOffset = s.baseOffset) (state : SegmentState) :
    Torn key { s with index := ix, state } blocks tail :=
  ⟨h.file, h.tail, h.size, h.fits, h.chain, h.bytes, h.span, hix⟩

/-- A segment whose index is rebuilt from its blocks. -/
theorem Torn.rebuilt (h : s.Torn key blocks []) (state : SegmentState) :
    Stores key { s with
      index := (indexBlocks (onDiskSize s.cipher) s.index.reset s.dataStart blocks).flush
      state } blocks := by
  obtain ⟨hanchored, hbase, -⟩ := h.anchored_rebuilt.flush
  refine ⟨h.withIndex ?_ state, hanchored⟩
  rw [hbase, baseOffset_indexBlocks]
  exact h.indexBase

/-- What recovery leaves. -/
theorem Torn.recover (h : s.Torn key blocks tail) : s.recover.1.Stores key blocks ∧
    s.recover.2 = endOf s.baseOffset blocks - 1 := by
  have hcut := h.cutAt (Nat.le_refl blocks.length)
  rw [take_length] at hcut
  obtain ⟨-, hindex, hcipher, hstart, -⟩ :=
    cutAt_fields s (s.dataStart + totalSize (onDiskSize s.cipher) blocks)
  have hstores := hcut.rebuilt
    (s.cutAt (s.dataStart + totalSize (onDiskSize s.cipher) blocks)).state
  rw [hindex, hcipher, hstart] at hstores
  rw [h.recover_eq]
  refine ⟨?_, rfl⟩
  dsimp only
  rw [hcipher, hstart]
  exact hstores

/-- Recovery of a file that is whole builds its index again. -/
theorem Torn.recover_whole (h : s.Torn key blocks []) :
    s.recover =
      ({ s with
          index := (indexBlocks (onDiskSize s.cipher) s.index.reset s.dataStart blocks).flush },
        endOf s.baseOffset blocks - 1) := by
  have hsize := h.sizeBytes_eq
  rw [length_nil, Nat.add_zero] at hsize
  have hlog := h.size
  rw [h.recover_eq, ← hsize, cutAt_eq hlog (Nat.le_refl _), take_of_length_le (by omega)]

theorem Torn.recover_fields (h : s.Torn key blocks tail) :
    s.recover.1.baseOffset = s.baseOffset ∧ s.recover.1.cipher = s.cipher ∧
    s.recover.1.dataStart = s.dataStart ∧ s.recover.1.state = s.state ∧
    s.recover.1.index =
      (indexBlocks (onDiskSize s.cipher) s.index.reset s.dataStart blocks).flush := by
  obtain ⟨hbase, -, hcipher, hstart, hstate⟩ :=
    cutAt_fields s (s.dataStart + totalSize (onDiskSize s.cipher) blocks)
  rw [h.recover_eq]
  exact ⟨hbase, hcipher, hstart, hstate, rfl⟩

/-! ## Truncation -/

theorem walk_position (bs : List RecordBatch) (position : Nat) :
    (walk size (fun found position b => positionVisit target found position (headerOf cipher b)) bs
      position none).1 =
      ((Nexus.Segment.positionIn target bs).map
        fun j => position + totalSize size (bs.take j)).toOption := by
  induction bs generalizing position with
  | nil => rfl
  | cons b bs ih =>
    rw [walk, Nexus.Segment.positionIn]
    dsimp only [positionVisit, headerOf]
    by_cases heq : b.baseOffset = target
    · simp only [if_pos heq]
      rfl
    by_cases hgt : b.baseOffset > target
    · simp only [if_neg heq, if_pos hgt]
      rfl
    · simp only [if_neg heq, if_neg hgt, if_true]
      refine (ih _).trans ?_
      cases Nexus.Segment.positionIn target bs with
      | error e => rfl
      | ok j =>
        change some _ = some _
        dsimp only
        rw [take_succ_cons, totalSize_cons, Nat.add_assoc]

/-- Where the block that starts at the target stands. -/
theorem Stores.positionOf_iff (h : s.Stores key blocks) {p : Nat}
    (hbase : t.baseOffset = s.baseOffset) (hblocks : t.blocks = blocks) :
    s.positionOf target = .ok p ↔ ∃ j, t.positionOf target = .ok j ∧
      s.dataStart + totalSize (onDiskSize s.cipher) (blocks.take j) = p := by
  unfold Nexus.Segment.positionOf positionOf
  rw [hbase, hblocks]
  by_cases heq : target = s.baseOffset
  · simp [heq]
  · rw [if_neg heq, if_neg heq, h.toTorn.scanBlocks_all
      (fun found position b => positionVisit target found position (headerOf s.cipher b))
      (fun _ _ _ _ => rfl) (.inl rfl), walk_position]
    cases Nexus.Segment.positionIn target blocks <;> simp [Except.map, Except.toOption, makeError]

theorem walk_rebuild (size : RecordBatch → Nat) (bs : List RecordBatch) (position : Nat)
    (ix : SparseIndex) :
    (walk size (fun ix position b =>
      (maybeAppend ix b.baseOffset position (size b), true)) bs position ix).1 =
      indexBlocks size ix position bs := by
  induction bs generalizing position ix with
  | nil => rfl
  | cons b bs ih => exact ih _ _

theorem Torn.rebuildIndex_eq (h : s.Torn key blocks []) :
    s.rebuildIndex = { s with
      index := (indexBlocks (onDiskSize s.cipher) s.index.reset s.dataStart blocks).flush } := by
  unfold rebuildIndex
  dsimp only
  rw [h.scanBlocks_all (fun ix position b =>
    (maybeAppend ix b.baseOffset position (onDiskSize s.cipher b), true))
    (fun _ _ _ _ => rfl) (.inl rfl), walk_rebuild]

theorem Stores.truncateTo (h : s.Stores key blocks)
    (hbase : t.baseOffset = s.baseOffset) (hblocks : t.blocks = blocks)
    (ht : t.positionOf target = .ok j) :
    ∃ s', s.truncateTo target = .ok s' ∧ s'.Stores key (blocks.take j) ∧
      s'.baseOffset = s.baseOffset ∧ s'.state = .active := by
  have hj := (Nexus.Segment.positionOf_eq_ok (by rw [hbase, hblocks]; exact h.chain) ht).1
  have hcut := h.toTorn.cutAt (hblocks ▸ hj)
  unfold Segment.truncateTo
  rw [(h.positionOf_iff hbase hblocks).mpr ⟨j, ht, rfl⟩]
  dsimp only
  rw [hcut.rebuildIndex_eq]
  exact ⟨_, rfl, hcut.rebuilt .active, (cutAt_fields s _).1, rfl⟩

/-! ## Append -/

theorem writeAt_end {file : Bytes} (h : position = file.length) (data : Bytes) :
    writeAt file position data = file ++ data := by
  unfold writeAt
  rw [h, take_length, Nat.sub_self, drop_of_length_le (Nat.le_add_right _ _),
    append_nil]
  rfl

/-- A batch in range can be framed. -/
theorem exists_frameFor (cipher : Option SegmentCipher) (hb : b.Fits) (nonce : Nonce) :
    ∃ frame, frameFor cipher b nonce = .ok frame := by
  cases cipher with
  | none => exact ⟨_, rfl⟩
  | some c =>
    have hlen := hb.length
    rw [b.lengthField_eq] at hlen
    refine c.sealBlock_isOk b.header.baseOffset b.header.recordCount nonce ?_
    rw [b.length_encode, RecordBatch.encodedSize, RecordBatch.kHeaderSize]
    norm_num at hlen ⊢
    omega

/-- The segment with one more frame at its end. -/
def push (s : Segment) (b : RecordBatch) (frame : Bytes) : Segment :=
  { s with
    log := writeAt s.log s.sizeBytes frame
    index := s.index.maybeAppend b.header.baseOffset s.sizeBytes frame.length
    sizeBytes := s.sizeBytes + frame.length }

theorem append_eq (hactive : s.state = .active) {nonce : Nonce}
    (hframe : frameFor s.cipher b nonce = .ok frame) :
    s.append b nonce = .ok (s.push b frame, b.lastOffset) := by
  unfold append
  rw [if_neg (by rw [hactive]; simp), hframe]
  rfl

theorem Bare.push (h : s.Bare key blocks []) (hframed : Framed s.cipher b frame) (hb : b.Fits)
    (hbase : b.baseOffset = endOf s.baseOffset blocks) (hc : 1 ≤ b.header.recordCount) :
    (s.push b frame).Bare key (blocks ++ [b]) [] := by
  obtain ⟨header, frames, hheader, hlen, hframes, hlog⟩ := h.file
  refine ⟨⟨header, frames ++ [frame], hheader, hlen, ?_, ?_⟩, ?_, ?_, ?_⟩
  · exact rel_append hframes (.cons hframed .nil)
  · dsimp only [Segment.push]
    rw [writeAt_end h.size, hlog]
    simp
  · dsimp only [Segment.push]
    rw [writeAt_end h.size, length_append, ← h.size]
  · intro x hx
    rcases mem_append.mp hx with hx | hx
    · exact h.fits x hx
    · rw [mem_singleton.mp hx]
      exact hb
  · exact (chain_append _ _ _).mpr ⟨h.chain, hbase, hc, trivial⟩

theorem Stores.push (h : s.Stores key blocks) (hframed : Framed s.cipher b frame) (hb : b.Fits)
    (hbase : b.baseOffset = endOf s.baseOffset blocks) (hc : 1 ≤ b.header.recordCount)
    (hbytes : (s.push b frame).sizeBytes < 2 ^ 32)
    (hspan : b.lastOffset + 1 - s.baseOffset < 2 ^ 32) :
    (s.push b frame).Stores key (blocks ++ [b]) := by
  have hsize := h.sizeBytes_eq
  rw [length_nil, Nat.add_zero] at hsize
  obtain ⟨hfile, hlog, hfits, hchain⟩ := h.bare.push hframed hb hbase hc
  refine ⟨⟨hfile, .inl rfl, hlog, hfits, hchain, hbytes, ?_, ?_⟩, ?_⟩
  · dsimp only [Segment.push]
    rw [endOf_append]
    exact hspan
  · dsimp only [Segment.push]
    rw [baseOffset_maybeAppend]
    exact h.indexBase
  · have hspan' := h.span
    have hchain := h.chain
    have hbytes' := h.bytes
    rw [← h.indexBase] at hspan' hchain
    have hstep := h.anchored.maybeAppend hchain (b := b) (by rw [h.indexBase]; exact hbase) hspan'
      (by omega) frame.length
    rw [← hsize] at hstep
    exact hstep

theorem Stores.flush (h : s.Stores key blocks) (state : SegmentState) :
    Stores key { s with index := s.index.flush, state } blocks :=
  ⟨h.toTorn.withIndex (h.anchored.flush.2.1.trans h.indexBase) state, h.anchored.flush.1⟩

/-! ## Files -/

/-- A segment that is created where there are no files. -/
theorem bare_create (baseOffset : Int) (interval : Nat) (key : Option EncryptionKey)
    (salt : Salt) : ∃ s, create [] [] baseOffset interval key salt = .ok s ∧
      s.Bare key [] [] ∧ s.baseOffset = baseOffset ∧ s.state = .active ∧
      s.index = ⟨[], baseOffset, interval, [], 0, 0⟩ ∧ s.sizeBytes < 2 ^ 32 ∧
      (s.cipher = none → key = none) := by
  unfold create openFile
  rw [if_pos (show strictlyIncreasing [] = true from rfl)]
  cases key with
  | none =>
    exact ⟨_, rfl, ⟨⟨[], [], rfl, rfl, .nil, rfl⟩, rfl, nofun, trivial⟩, rfl, rfl, rfl,
      (by decide : 0 < 2 ^ 32), fun _ => rfl⟩
  | some k =>
    have hlen := length_encodeSegmentHeader salt
    have hwrite : writeAt [] 0 (encodeSegmentHeader salt) = encodeSegmentHeader salt :=
      writeAt_end rfl _
    refine ⟨_, rfl, ⟨⟨encodeSegmentHeader salt, [], ⟨k, salt, rfl, rfl, rfl⟩, hlen, .nil, ?_⟩, ?_,
      nofun, trivial⟩, rfl, rfl, rfl, (by decide : kEncSegmentHeaderSize < 2 ^ 32), nofun⟩
    · simp [hwrite]
    · simp [hwrite, hlen]

theorem stores_create (baseOffset : Int) (interval : Nat) (key : Option EncryptionKey)
    (salt : Salt) : ∃ s, create [] [] baseOffset interval key salt = .ok s ∧
      s.Stores key [] ∧ s.baseOffset = baseOffset ∧ s.state = .active := by
  obtain ⟨s, hs, ⟨hfile, hsize, hfits, hchain⟩, hbase, hstate, hindex, hbytes, -⟩ :=
    bare_create baseOffset interval key salt
  refine ⟨s, hs, ⟨⟨hfile, .inl rfl, hsize, hfits, hchain, hbytes, ?_, ?_⟩, ?_⟩, hbase, hstate⟩
  · simp
  · rw [hindex, hbase]
  · rw [hindex]
    exact anchored_reset ⟨[], baseOffset, interval, [], 0, 0⟩

/-- The file of a plain segment does not look like an encrypted one. -/
def Recognisable (s : Segment) : Prop := s.cipher = none → ¬ kEncSegmentMagic <+: s.log

instance : DecidablePred Recognisable := fun s =>
  decidable_of_iff (s.cipher.isNone → ¬ kEncSegmentMagic <+: s.log)
    (by rw [Option.isNone_iff_eq_none]; rfl)

/-- The first bytes of a frame in the clear are an offset. -/
theorem Torn.recognisable (h : s.Torn key blocks tail) (h₀ : 0 ≤ s.baseOffset)
    (hlt : endOf s.baseOffset blocks < 2 ^ 45) : s.Recognisable := by
  intro hcipher hmagic
  obtain ⟨header, frames, hheader, -, hframes, hlog⟩ := h.file
  rw [hcipher] at hheader hframes
  have hnil : header = [] := hheader
  rw [hnil, nil_append] at hlog
  have hplain : ∃ b : RecordBatch, 0 ≤ b.header.baseOffset ∧ b.header.baseOffset < 2 ^ 45 ∧
      ∃ rest, s.log <+: b.encode ++ rest := by
    cases hframes with
    | nil =>
      rcases h.tail with hnil | ⟨b, frame, -, hbase, hf, hpre, -⟩
      · rw [hlog, hnil] at hmagic
        exact absurd hmagic (by decide)
      · rw [hcipher] at hf
        have hframe : frame = b.encode := hf.eq_encode
        change b.header.baseOffset = s.baseOffset at hbase
        refine ⟨b, by rw [hbase]; exact h₀, by rw [hbase]; exact hlt, [], ?_⟩
        rw [hlog, append_nil, ← hframe]
        exact hpre
    | @cons b frame bs fs hf hfs =>
      have hframe : frame = b.encode := hf.eq_encode
      have hbase : b.header.baseOffset = s.baseOffset := h.chain.1
      have hle := h.chain.le_endOf
      have hwhole : s.log = b.encode ++ (fs.flatten ++ tail) := by
        rw [hlog, flatten_cons, append_assoc, hframe]
      exact ⟨b, by omega, by omega, _, [], by rw [append_nil, hwhole]⟩
  obtain ⟨b, hb₀, hb, rest, hpre⟩ := hplain
  obtain ⟨fields, hfields⟩ : ∃ fields, b.encode = storeLe 8 b.header.baseOffset ++ fields :=
    ⟨_, rfl⟩
  rw [hfields, append_assoc] at hpre
  exact not_isPrefix_storeLe hb₀ hb _ (hmagic.trans hpre)

/-- A segment file tells how it was written. -/
theorem Bare.detect (h : s.Bare key blocks tail) (hs : s.Recognisable) :
    detect s.log key = .ok (s.cipher, s.dataStart) := by
  obtain ⟨header, frames, hheader, hlen, -, hlog⟩ := h.file
  unfold Segment.detect
  cases hcipher : s.cipher with
  | none =>
    rw [hcipher] at hheader
    have hnil : header = [] := hheader
    rw [← hlen, hnil]
    exact if_neg fun henc => hs hcipher (isPrefix_of_isEncryptedSegmentHeader henc.2)
  | some c =>
    rw [hcipher] at hheader
    obtain ⟨k, salt, rfl, rfl, rfl⟩ := hheader
    have hsize := length_encodeSegmentHeader salt
    have hslice : slice s.log 0 kEncSegmentHeaderSize = encodeSegmentHeader salt := by
      rw [hlog]
      exact @slice_field [] _ _ _ _ rfl hsize
    dsimp only
    rw [hslice, if_pos ⟨by rw [hlog, length_append]; omega,
      isEncryptedSegmentHeader_encode salt⟩, parseSegmentHeader_encode]
    dsimp only
    rw [← hlen, hsize]

/-- The segment that the files of a segment open as. -/
def reopened (s : Segment) (interval : Nat) : Segment :=
  { s with index := s.index.reopened interval, state := .active }

/-- The files open, whatever the `.index` says, as long as its offsets go up. -/
theorem Torn.openFiles (h : s.Torn key blocks tail) (hs : s.Recognisable) {interval : Nat}
    (hix : openFile s.index.file s.index.baseOffset interval =
      .ok (s.index.reopened interval)) :
    openFiles s.log s.index.file s.baseOffset interval key =
      .ok (s.reopened interval) := by
  unfold Segment.openFiles
  rw [h.bare.detect hs]
  rw [h.indexBase] at hix
  dsimp only
  rw [hix, reopened, h.size]

theorem Torn.reopened (h : s.Torn key blocks tail) (interval : Nat) :
    (s.reopened interval).Torn key blocks tail :=
  h.withIndex (show (s.index.reopened interval).baseOffset = s.baseOffset from h.indexBase) .active

theorem Stores.reopened (h : s.Stores key blocks) (interval : Nat) :
    (s.reopened interval).Stores key blocks :=
  ⟨h.toTorn.reopened interval, h.anchored.reopened interval⟩

/-- Recovery of a recovered file changes nothing. -/
theorem Torn.recover_reopened (h : s.Torn key blocks tail) (interval : Nat) :
    ((s.reopened interval).recover.1.reopened interval).recover =
      (s.reopened interval).recover := by
  have hs := h.reopened interval
  obtain ⟨hstores, hend⟩ := hs.recover
  obtain ⟨hbase, hcipher, hstart, hstate, hindex⟩ := hs.recover_fields
  generalize (s.reopened interval).recover = r at hstores hend hbase hcipher hstart hstate hindex ⊢
  have hreset : (r.1.reopened interval).index.reset = (s.reopened interval).index.reset :=
    reset_reopened (by rw [hstores.indexBase, hbase]; exact h.indexBase.symm) interval
  rw [(hstores.toTorn.reopened interval).recover_whole, hreset]
  rw [← hcipher, ← hstart] at hindex
  refine Prod.ext ?_ ?_
  · change { r.1 with
      index := (indexBlocks (onDiskSize r.1.cipher) (s.reopened interval).index.reset
        r.1.dataStart blocks).flush
      state := (s.reopened interval).state } = r.1
    rw [← hindex, ← hstate]
  · rw [hend, ← hbase]
    rfl

end Segment

end Nexus.Raw
