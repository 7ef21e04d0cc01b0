import Mathlib.Data.List.Induction
import Nexus.Storage.SegmentBlocks

/-!
# The width of an index entry

An index entry has 32 bits for an offset and 32 for a position, and both are cut down to them
(`static_cast<std::uint32_t>`), while a segment may have more offsets and more bytes than that: a
batch has up to `2 ^ 31 - 1` records, and `segment_bytes` is any 64-bit number.

`Anchors` are the entries without the cut, and a segment is followed here through any appends and
syncs, however wide it gets (`Segment.Filled`). As long as no entry is cut, a read through the index
is a scan of the whole segment, and the files of the closed segment open again. An entry whose
offset is cut breaks one or the other.
-/

namespace Nexus.Raw

open Lib SparseIndex Raw.Segment List

/-! ## Entries without a bound -/

/-- The blocks with an entry, by their offsets and positions. -/
structure Anchors where
  entries : List (Int × Nat) := []
  /-- Bytes of log since the last entry. -/
  bytesSince : Nat := 0

def Anchors.add (interval : Nat) (a : Anchors) (offset : Int) (position len : Nat) : Anchors :=
  if a.bytesSince ≥ interval then
    { entries := a.entries ++ [(offset, position)], bytesSince := len }
  else { a with bytesSince := a.bytesSince + len }

/-- The entries for some blocks, the first of which stands at `start`, and where they end. -/
def anchorsOf (interval : Nat) (size : RecordBatch → Nat) (start : Nat)
    (blocks : List RecordBatch) : Anchors × Nat :=
  blocks.foldl (fun a b => (a.1.add interval b.baseOffset a.2 (size b), a.2 + size b)) ({}, start)

/-- The entry of the index for a block: offset and position modulo `2 ^ 32`. -/
def entryOf (base : Int) (anchor : Int × Nat) : IndexEntry where
  relativeOffset := ((anchor.1 - base) % 2 ^ 32).toNat
  filePosition := anchor.2 % 2 ^ 32

section Anchors

variable {interval : Nat} {size : RecordBatch → Nat} {start : Nat} {blocks : List RecordBatch}
  {base : Int}

theorem anchorsOf_concat (b : RecordBatch) :
    anchorsOf interval size start (blocks ++ [b]) =
      ((anchorsOf interval size start blocks).1.add interval b.baseOffset
        (anchorsOf interval size start blocks).2 (size b),
        (anchorsOf interval size start blocks).2 + size b) := by
  unfold anchorsOf
  rw [foldl_append]
  rfl

theorem anchorsOf_snd :
    (anchorsOf interval size start blocks).2 = start + totalSize size blocks := by
  induction blocks using reverseRecOn with
  | nil => rfl
  | append_singleton blocks b ih =>
    rw [anchorsOf_concat, ih, totalSize_append, totalSize_cons, totalSize_nil]
    omega

/-- Every anchor is one of the blocks. -/
def IsBlock (base : Int) (size : RecordBatch → Nat) (start : Nat) (blocks : List RecordBatch)
    (a : Int × Nat) : Prop :=
  ∃ k < blocks.length, a = (endOf base (blocks.take k), start + totalSize size (blocks.take k))

theorem anchorsOf_isBlock (hchain : Chain base blocks) :
    (∀ a ∈ (anchorsOf interval size start blocks).1.entries, IsBlock base size start blocks a) ∧
      (anchorsOf interval size start blocks).1.entries.Pairwise (·.1 < ·.1) := by
  induction blocks using reverseRecOn with
  | nil => exact ⟨nofun, .nil⟩
  | append_singleton blocks b ih =>
    obtain ⟨hdone, hbase, -⟩ := (chain_append _ _ _).mp hchain
    obtain ⟨hblock, hpair⟩ := ih hdone
    have hold : ∀ a ∈ (anchorsOf interval size start blocks).1.entries,
        IsBlock base size start (blocks ++ [b]) a := by
      intro a ha
      obtain ⟨k, hk, rfl⟩ := hblock a ha
      refine ⟨k, by rw [length_append]; omega, ?_⟩
      rw [take_append_of_le_length (Nat.le_of_lt hk)]
    rw [anchorsOf_concat, Anchors.add]
    split
    · refine ⟨fun a ha => ?_, pairwise_append.mpr ⟨hpair, pairwise_singleton _ _, ?_⟩⟩
      · rcases mem_append.mp ha with ha | ha
        · exact hold a ha
        · rw [mem_singleton.mp ha]
          refine ⟨blocks.length, by simp, ?_⟩
          rw [take_left, anchorsOf_snd, hbase]
      · intro a ha a' ha'
        obtain ⟨k, hk, rfl⟩ := hblock a ha
        rw [mem_singleton.mp ha', hbase]
        have hlt := hdone.endOf_take_lt hk (Nat.le_refl _)
        rwa [take_length] at hlt
    · exact ⟨hold, hpair⟩

end Anchors

/-- The index has the anchors, cut to 32 bits; its file has the first ones. -/
structure Wraps (ix : SparseIndex) (base : Int) (interval : Nat) (a : Anchors) : Prop where
  baseOffset : ix.baseOffset = base
  every : ix.interval = interval
  entries : ix.entries = a.entries.map (entryOf base)
  bytesSince : ix.bytesSince = a.bytesSince
  flushed : ix.flushed ≤ ix.entries.length
  file : ix.file = ix.entries.take ix.flushed

section Wraps

variable {ix : SparseIndex} {base : Int} {interval : Nat} {a : Anchors}

theorem Wraps.maybeAppend (h : Wraps ix base interval a) (offset : Int) (position len : Nat) :
    Wraps (ix.maybeAppend offset position len) base interval
      (a.add interval offset position len) := by
  obtain rfl := h.every
  unfold maybeAppend Anchors.add
  rw [h.bytesSince]
  dsimp only
  split
  · refine ⟨h.baseOffset, rfl, ?_, Nat.zero_add _, ?_, ?_⟩
    · dsimp only
      rw [map_append, ← h.entries, h.baseOffset]
      rfl
    · dsimp only
      rw [length_append]
      exact Nat.le_trans h.flushed (Nat.le_add_right _ _)
    · dsimp only
      rw [take_append_of_le_length h.flushed]
      exact h.file
  · exact ⟨h.baseOffset, rfl, h.entries, by dsimp only; rw [h.bytesSince], h.flushed, h.file⟩

theorem Wraps.flush (h : Wraps ix base interval a) :
    Wraps ix.flush base interval a ∧ ix.flush.file = a.entries.map (entryOf base) := by
  have hle := h.flushed
  unfold SparseIndex.flush
  split
  · have hfile : ix.file.take ix.flushed ++ ix.entries.drop ix.flushed = ix.entries := by
      rw [h.file, take_take, Nat.min_self, take_append_drop]
    refine ⟨⟨h.baseOffset, h.every, h.entries, h.bytesSince, Nat.le_refl _, ?_⟩, ?_⟩
    · dsimp only
      rw [hfile, take_length]
    · dsimp only
      rw [hfile, h.entries]
  · refine ⟨h, ?_⟩
    rw [h.file, take_of_length_le (by omega), h.entries]

end Wraps

namespace Segment

variable {key : Option EncryptionKey} {interval : Nat} {s : Segment} {blocks : List RecordBatch}
  {b : RecordBatch}

/-- The entries that the index of the segment would have, without a bound. -/
def anchors (s : Segment) (interval : Nat) (blocks : List RecordBatch) : Anchors :=
  (anchorsOf interval (onDiskSize s.cipher) s.dataStart blocks).1

/-- The segment has the frames of the batches and the entries of their index, cut to 32 bits. -/
structure Filled (key : Option EncryptionKey) (interval : Nat) (s : Segment)
    (blocks : List RecordBatch) : Prop where
  file : ∃ header frames, HeaderOf key s.cipher header ∧ header.length = s.dataStart ∧
    List.Forall₂ (Framed s.cipher) blocks frames ∧ s.log = header ++ (frames.flatten ++ [])
  plain : s.cipher = none → key = none
  size : s.sizeBytes = s.log.length
  fits : ∀ b ∈ blocks, b.Fits
  chain : Chain s.baseOffset blocks
  active : s.state = .active
  index : Wraps s.index s.baseOffset interval (s.anchors interval blocks)

theorem Filled.bare (h : s.Filled key interval blocks) : s.Bare key blocks [] :=
  ⟨h.file, h.size, h.fits, h.chain⟩

/-! ## Appends -/

/-- One more batch. -/
theorem Filled.push (h : s.Filled key interval blocks) {frame : Bytes}
    (hframed : Framed s.cipher b frame) (hb : b.Fits)
    (hbase : b.baseOffset = endOf s.baseOffset blocks) (hc : 1 ≤ b.header.recordCount) :
    (s.push b frame).Filled key interval (blocks ++ [b]) := by
  have hsize := h.bare.sizeBytes_eq
  rw [length_nil, Nat.add_zero] at hsize
  obtain ⟨hfile, hlog, hfits, hchain⟩ := h.bare.push hframed hb hbase hc
  refine ⟨hfile, h.plain, hlog, hfits, hchain, h.active, ?_⟩
  dsimp only [Segment.push, anchors]
  rw [anchorsOf_concat, anchorsOf_snd, ← hsize, ← hframed.length]
  exact h.index.maybeAppend _ _ _

theorem Filled.sync (h : s.Filled key interval blocks) : s.sync.Filled key interval blocks :=
  ⟨h.file, h.plain, h.size, h.fits, h.chain, h.active, h.index.flush.1⟩

theorem filled_create (base : Int) (interval : Nat) (key : Option EncryptionKey) (salt : Salt) :
    ∃ s, create [] [] base interval key salt = .ok s ∧ s.Filled key interval [] ∧
      s.baseOffset = base := by
  obtain ⟨s, hs, hbare, hbase, hstate, hindex, -, hplain⟩ := bare_create base interval key salt
  refine ⟨s, hs, ⟨hbare.file, hplain, hbare.size, hbare.fits, hbare.chain, hstate, ?_⟩, hbase⟩
  rw [hindex, hbase]
  exact ⟨rfl, rfl, rfl, rfl, Nat.le_refl _, rfl⟩

/-- What is done to an active segment. -/
inductive WriteStep where
  | append (batch : RecordBatch) (nonce : Nonce)
  | sync

def WriteStep.batch? : WriteStep → Option RecordBatch
  | .append batch _ => some batch
  | .sync => none

def writeStep (s : Segment) : WriteStep → Expected Segment
  | .append batch nonce => (s.append batch nonce).map Prod.fst
  | .sync => .ok s.sync

/-- A new segment after some steps. -/
def writeAll (base : Int) (interval : Nat) (key : Option EncryptionKey) (salt : Salt)
    (steps : List WriteStep) : Expected Segment :=
  match Segment.create [] [] base interval key salt with
  | .error e => .error e
  | .ok s => steps.foldlM writeStep s

theorem Filled.writeSteps (h : s.Filled key interval blocks) {steps : List WriteStep}
    (hchain : Chain s.baseOffset (blocks ++ steps.filterMap WriteStep.batch?))
    (hfits : ∀ b ∈ steps.filterMap WriteStep.batch?, b.Fits) :
    ∃ s', steps.foldlM writeStep s = .ok s' ∧
      s'.Filled key interval (blocks ++ steps.filterMap WriteStep.batch?) ∧
      s'.baseOffset = s.baseOffset := by
  induction steps generalizing s blocks with
  | nil => exact ⟨s, rfl, by simpa using h, rfl⟩
  | cons step steps ih =>
    cases step with
    | sync => exact ih (s := s.sync) h.sync hchain hfits
    | append b nonce =>
      have hcons : (WriteStep.append b nonce :: steps).filterMap WriteStep.batch? =
          b :: steps.filterMap WriteStep.batch? := rfl
      rw [hcons] at hchain hfits ⊢
      have hb := hfits b mem_cons_self
      obtain ⟨frame, hframe⟩ := exists_frameFor s.cipher hb nonce
      obtain ⟨-, hbase, hcount, -⟩ := (chain_append _ _ _).mp hchain
      have hpush := h.push ⟨nonce, hframe⟩ hb hbase hcount
      rw [append_cons] at hchain ⊢
      obtain ⟨s', hs', hfilled, hbase'⟩ := ih hpush hchain fun x hx => hfits x (.tail _ hx)
      refine ⟨s', ?_, hfilled, hbase'⟩
      rw [foldlM_cons, writeStep, append_eq h.active hframe]
      exact hs'

/-! ## Reads -/

/-- `Segment::read` without the index: a scan from the first block on. -/
def scanRead (s : Segment) (offset : Int) (maxBytes : Nat) : Expected FetchResult :=
  (s.scanBlocks (s.readVisit offset maxBytes) s.dataStart (.ok { nextOffset := offset })).1

section

variable (h : s.Filled key interval blocks)

include h

theorem Filled.scanRead_eq (offset : Int) (m : Nat) :
    s.scanRead offset m =
      .ok (readBlocks s.cipher offset m blocks { nextOffset := offset }) :=
  h.bare.scan_read offset m 0 { nextOffset := offset }

/-- No entry is cut. -/
theorem Filled.anchored
    (hoff : ∀ a ∈ (s.anchors interval blocks).entries, a.1 - s.baseOffset < 2 ^ 32)
    (hpos : ∀ a ∈ (s.anchors interval blocks).entries, a.2 < 2 ^ 32) :
    s.index.Anchored (onDiskSize s.cipher) s.dataStart blocks := by
  have ⟨hblock, hpair⟩ :
      (∀ a ∈ (s.anchors interval blocks).entries,
        IsBlock s.baseOffset (onDiskSize s.cipher) s.dataStart blocks a) ∧
      (s.anchors interval blocks).entries.Pairwise (·.1 < ·.1) := anchorsOf_isBlock h.chain
  have hrel : ∀ a ∈ (s.anchors interval blocks).entries,
      ((entryOf s.baseOffset a).relativeOffset : Int) = a.1 - s.baseOffset := by
    intro a ha
    have hlt := hoff a ha
    obtain ⟨k, -, rfl⟩ := hblock a ha
    have hle := (h.chain.take k).le_endOf
    dsimp only [entryOf] at hlt ⊢
    rw [Int.emod_eq_of_lt (by omega) hlt]
    omega
  refine ⟨fun e he => ?_, ?_, h.index.flushed, h.index.file⟩
  · rw [h.index.entries] at he
    obtain ⟨a, ha, rfl⟩ := mem_map.mp he
    have hlt := hpos a ha
    have hoffset := hrel a ha
    obtain ⟨k, hk, rfl⟩ := hblock a ha
    refine ⟨k, hk, ?_, ?_⟩
    · rw [hoffset, h.index.baseOffset]
    · dsimp only [entryOf] at hlt ⊢
      exact Nat.mod_eq_of_lt hlt
  · rw [h.index.entries]
    refine pairwise_map.mpr (hpair.imp_of_mem fun {a a'} ha ha' hlt => ?_)
    have := hrel a ha
    have := hrel a' ha'
    omega

theorem Filled.read_eq_scanRead
    (hanchored : s.index.Anchored (onDiskSize s.cipher) s.dataStart blocks) (offset : Int)
    (m : Nat) : s.read offset m = s.scanRead offset m := by
  by_cases hlo : offset < s.baseOffset
  · have hfloor : s.index.floor offset = {} := by
      unfold floor
      rw [if_pos (.inl (h.index.baseOffset ▸ hlo))]
    unfold read scanRead
    rw [hfloor]
    dsimp only
    rw [Nat.zero_max]
  · obtain ⟨k, hk, hpos, hle⟩ := hanchored.floor
      (show s.index.baseOffset ≤ offset by rw [h.index.baseOffset]; omega)
    rw [h.index.baseOffset] at hle
    unfold read
    rw [hpos, h.bare.scan_read, h.scanRead_eq, readBlocks_dropWhile,
      dropWhile_of_floor h.chain hle, ← readBlocks_dropWhile]

end

/-! ## Reopening -/

theorem pairwise_of_strictlyIncreasing {entries : List IndexEntry}
    (h : strictlyIncreasing entries) :
    entries.Pairwise (·.relativeOffset < ·.relativeOffset) := by
  induction entries with
  | nil => exact .nil
  | cons e rest ih =>
    obtain ⟨hhead, hrest⟩ := Bool.and_eq_true_iff.mp h
    have hpair := ih hrest
    refine pairwise_cons.mpr ⟨fun e' he' => ?_, hpair⟩
    cases rest with
    | nil => cases he'
    | cons next rest =>
      have hlt := of_decide_eq_true hhead
      rcases mem_cons.mp he' with rfl | he'
      · exact hlt
      · exact Nat.lt_trans hlt ((pairwise_cons.mp hpair).1 e' he')

theorem magic_of_not_recognisable (hlen : kEncSegmentHeaderSize ≤ s.log.length)
    (hmagic : kEncSegmentMagic <+: s.log) :
    isEncryptedSegmentHeader (slice s.log 0 kEncSegmentHeaderSize) := by
  obtain ⟨rest, hrest⟩ := hmagic
  unfold isEncryptedSegmentHeader slice
  rw [drop_zero, length_take, Nat.min_eq_left hlen, if_neg (by decide), drop_zero,
    take_take, beq_iff_eq, ← hrest]
  rfl

/-- The kind of a segment is recognised if and only if it is not a plain one whose first offset is
written like the header of an encrypted one. -/
theorem Filled.detect_iff (h : s.Filled key interval blocks) :
    (∃ r, detect s.log key = .ok r) ↔ s.Recognisable := by
  refine ⟨fun hok hcipher hmagic => ?_, fun hrec => ⟨_, h.bare.detect hrec⟩⟩
  obtain rfl := h.plain hcipher
  have hlong : kEncSegmentHeaderSize ≤ s.log.length := by
    obtain ⟨header, frames, hheader, -, hframes, hlog⟩ := h.file
    rw [hcipher] at hheader hframes
    have hnil : header = [] := hheader
    cases hframes with
    | nil =>
      rw [hlog, hnil] at hmagic
      exact absurd hmagic (by decide)
    | @cons b frame bs fs hf hfs =>
      have hsize := encodedSize_le_onDiskSize none b
      rw [hlog, length_append, length_append, flatten_cons, length_append,
        hf.length]
      unfold RecordBatch.encodedSize RecordBatch.kHeaderSize at hsize
      unfold kEncSegmentHeaderSize
      omega
  obtain ⟨r, hr⟩ := hok
  unfold detect at hr
  dsimp only at hr
  rw [if_pos ⟨hlong, magic_of_not_recognisable hlong hmagic⟩] at hr
  cases hr

/-- The files of the closed segment open again. -/
def Reopens (s : Segment) (key : Option EncryptionKey) : Prop :=
  ∀ interval, ∃ s', Segment.openFiles s.sealSegment.log s.sealSegment.index.file s.baseOffset
    interval key = .ok s'

theorem Filled.reopens_iff (h : s.Filled key interval blocks) :
    s.Reopens key ↔ s.Recognisable ∧
      s.index.entries.Pairwise (·.relativeOffset < ·.relativeOffset) := by
  have hfile : s.sealSegment.index.file = s.index.entries := by
    rw [h.index.entries]
    exact h.index.flush.2
  unfold Reopens openFiles
  rw [hfile, show s.sealSegment.log = s.log from rfl, ← h.detect_iff]
  constructor
  · intro hopen
    obtain ⟨s', hs'⟩ := hopen 0
    cases hdetect : detect s.log key with
    | error e =>
      rw [hdetect] at hs'
      cases hs'
    | ok r =>
      refine ⟨⟨r, rfl⟩, ?_⟩
      rw [hdetect] at hs'
      dsimp only [openFile] at hs'
      by_cases hinc : strictlyIncreasing s.index.entries
      · exact pairwise_of_strictlyIncreasing hinc
      · rw [if_neg hinc] at hs'
        cases hs'
  · rintro ⟨⟨r, hr⟩, hpair⟩ interval
    rw [hr]
    dsimp only [openFile]
    rw [if_pos (strictlyIncreasing_of_pairwise hpair)]
    exact ⟨_, rfl⟩

/-! ## Entries that are cut -/

/-- The entries go up: at the offset of one of them, a scan starts there. -/
theorem floor_eq_of_mem {ix : SparseIndex}
    (hpair : ix.entries.Pairwise (·.relativeOffset < ·.relativeOffset)) {e : IndexEntry}
    (he : e ∈ ix.entries) (hlt : e.relativeOffset < 2 ^ 32) :
    ix.floor (ix.baseOffset + e.relativeOffset) = e := by
  obtain ⟨pre, post, hentries⟩ := append_of_mem he
  rw [hentries] at hpair
  obtain ⟨-, hpost, hbefore⟩ := pairwise_append.mp hpair
  have hrel : (min (ix.baseOffset + e.relativeOffset - ix.baseOffset) (2 ^ 32 - 1)).toNat =
      e.relativeOffset := by omega
  have htake : ix.entries.takeWhile (·.relativeOffset ≤ e.relativeOffset) = pre ++ [e] := by
    rw [hentries, takeWhile_append_of_pos fun x hx =>
      decide_eq_true (Nat.le_of_lt (hbefore x hx e mem_cons_self)),
      takeWhile_cons_of_pos (by simp)]
    cases post with
    | nil => rfl
    | cons next post =>
      have hnext := (pairwise_cons.mp hpost).1 next mem_cons_self
      rw [takeWhile_cons_of_neg (by simpa using hnext)]
  unfold floor
  rw [if_neg (by
    rintro (hlo | hnil)
    · omega
    · rw [hnil] at he
      cases he)]
  dsimp only
  rw [hrel, htake, getLast?_concat]
  rfl

/-- A scan that may give one batch gives the first one that is not below the offset. -/
theorem readBlocks_zero {cipher : Option SegmentCipher} {offset : Int} {bs rest : List RecordBatch}
    (hbs : bs.dropWhile (below offset) = b :: rest) (hle : ∀ x ∈ b :: rest, offset ≤ x.lastOffset) :
    (readBlocks cipher offset 0 bs { nextOffset := offset }).nextOffset = b.lastOffset + 1 := by
  have hb := hle b mem_cons_self
  obtain ⟨p, later, -, hp, heq⟩ := @readBlocks_spec cipher offset rest 0
    (fun x hx => hle x (.tail _ hx)) { batches := b.encode, nextOffset := b.lastOffset + 1 }
    b.encode_ne_nil
  rw [readBlocks_dropWhile, hbs, readBlocks, if_neg (by omega), if_neg (by simp)]
  dsimp only
  rw [nil_append, heq]
  rcases hp with rfl | hp
  · rfl
  · have := length_pos_iff.mpr b.encode_ne_nil
    dsimp only at hp
    omega

/-- An entry whose offset is cut stands for an earlier batch, and a read there misses it. -/
theorem Filled.read_ne_scanRead (h : s.Filled key interval blocks)
    (hpair : s.index.entries.Pairwise (·.relativeOffset < ·.relativeOffset)) {a : Int × Nat}
    (ha : a ∈ (s.anchors interval blocks).entries) (hpos : a.2 < 2 ^ 32)
    (hwide : 2 ^ 32 ≤ a.1 - s.baseOffset) : ∃ offset, s.read offset 0 ≠ s.scanRead offset 0 := by
  obtain ⟨k, hk, rfl⟩ := (anchorsOf_isBlock h.chain).1 a ha
  dsimp only at hpos hwide
  have hmem : entryOf s.baseOffset (endOf s.baseOffset (blocks.take k),
      s.dataStart + totalSize (onDiskSize s.cipher) (blocks.take k)) ∈ s.index.entries := by
    rw [h.index.entries]
    exact mem_map_of_mem ha
  generalize hentry : entryOf s.baseOffset _ = e at hmem
  have hposition : e.filePosition =
      s.dataStart + totalSize (onDiskSize s.cipher) (blocks.take k) := by
    rw [← hentry]
    exact Nat.mod_eq_of_lt hpos
  have hrel : (e.relativeOffset : Int) =
      (endOf s.baseOffset (blocks.take k) - s.baseOffset) % 2 ^ 32 := by
    rw [← hentry]
    dsimp only [entryOf]
    omega
  have hfloor := floor_eq_of_mem hpair hmem (by omega)
  rw [h.index.baseOffset] at hfloor
  have hbelow : s.baseOffset + e.relativeOffset < endOf s.baseOffset (blocks.take k) := by omega
  refine ⟨s.baseOffset + e.relativeOffset, fun heq => ?_⟩
  -- the read starts at block `k`, which is above the offset
  unfold read at heq
  rw [hfloor, hposition, Nat.max_eq_left (Nat.le_add_right _ _), h.bare.scan_read,
    h.scanRead_eq] at heq
  have hnext := congrArg FetchResult.nextOffset (Except.ok.inj heq)
  have hdrop := drop_eq_getElem_cons hk
  have hbase := h.chain.baseOffset_getElem (List.getElem?_eq_some_iff.mpr ⟨hk, rfl⟩)
  have hall : ∀ x ∈ blocks[k] :: blocks.drop (k + 1),
      s.baseOffset + e.relativeOffset ≤ x.lastOffset := by
    intro x hx
    rw [← hdrop] at hx
    exact (h.chain.drop k).le_lastOffset (Int.le_of_lt hbelow) x hx
  have hfirst : (blocks.drop k).dropWhile (below (s.baseOffset + e.relativeOffset)) =
      blocks[k] :: blocks.drop (k + 1) := by
    rw [hdrop, dropWhile_cons_of_neg]
    have := hall blocks[k] mem_cons_self
    simpa [below] using this
  rw [readBlocks_zero hfirst hall] at hnext
  -- the scan finds a batch before it
  have hend : s.baseOffset + e.relativeOffset < endOf s.baseOffset blocks := by
    have := h.chain.endOf_take_le (j := k) (k := blocks.length) (Nat.le_of_lt hk)
    rw [take_length] at this
    omega
  obtain ⟨c, cs, hc, hcbase, hclast⟩ := h.chain.dropWhile_eq_cons (by omega) hend
  rw [readBlocks_zero hc fun x hx =>
    h.chain.le_lastOffset_of_mem_dropWhile x (hc ▸ hx)] at hnext
  have hcmem : c ∈ blocks.take k ++ blocks.drop k := by
    rw [take_append_drop]
    exact (dropWhile_sublist _).subset (hc ▸ mem_cons_self)
  have hsplit := h.chain
  rw [← take_append_drop k blocks, chain_append] at hsplit
  rcases mem_append.mp hcmem with hmem' | hmem'
  · have hlt := (hsplit.1.bounds hmem').2.2
    have := (h.chain.bounds (getElem_mem hk)).2.1
    omega
  · have := (hsplit.2.bounds hmem').1
    omega

/-- As long as no position is cut, a read through the index is a scan and the closed segment opens
again if and only if no offset is cut and the segment is not taken for an encrypted one. -/
theorem read_eq_scan_iff (base : Int) (interval : Nat) (key : Option EncryptionKey) (salt : Salt)
    {steps : List WriteStep} (hchain : Chain base (steps.filterMap WriteStep.batch?))
    (hfits : ∀ b ∈ steps.filterMap WriteStep.batch?, b.Fits) :
    ∃ s, writeAll base interval key salt steps = .ok s ∧
      ((∀ a ∈ (s.anchors interval (steps.filterMap WriteStep.batch?)).entries, a.2 < 2 ^ 32) →
        (((∀ offset m, s.read offset m = s.scanRead offset m) ∧ s.Reopens key) ↔
          (∀ a ∈ (s.anchors interval (steps.filterMap WriteStep.batch?)).entries,
            a.1 - base < 2 ^ 32) ∧ s.Recognisable)) := by
  obtain ⟨s₀, hcreate, hempty, rfl⟩ := filled_create base interval key salt
  obtain ⟨s, hs, hfilled, hbase⟩ := hempty.writeSteps hchain hfits
  rw [List.nil_append] at hfilled
  refine ⟨s, ?_, fun hpos => ?_⟩
  · unfold writeAll
    rw [hcreate]
    exact hs
  rw [← hbase, hfilled.reopens_iff]
  constructor
  · rintro ⟨hread, hrec, hpair⟩
    refine ⟨fun a ha => Int.not_le.mp fun hwide => ?_, hrec⟩
    obtain ⟨offset, hne⟩ := hfilled.read_ne_scanRead hpair ha (hpos a ha) hwide
    exact hne (hread offset 0)
  · rintro ⟨hoff, hrec⟩
    have hanchored := hfilled.anchored hoff hpos
    exact ⟨hfilled.read_eq_scanRead hanchored, hrec, hanchored.increasing⟩

/-- Two batches, with a sync between them. -/
def twoAppends : List WriteStep :=
  [.append ⟨{ recordCount := 2 }, [7]⟩ zeroNonce, .sync,
    .append ⟨{ baseOffset := 2, recordCount := 1 }, [8]⟩ zeroNonce]

theorem read_eq_scan_twoAppends :
    ∃ s, writeAll 0 1 none zeroSalt twoAppends = .ok s ∧
      (∀ offset m, s.read offset m = s.scanRead offset m) ∧ s.Reopens none := by
  have hchain : Chain 0 (twoAppends.filterMap WriteStep.batch?) :=
    ⟨rfl, by decide, rfl, by decide, trivial⟩
  obtain ⟨s, hs, hiff⟩ := read_eq_scan_iff 0 1 none zeroSalt hchain (by decide)
  have hsample : (writeAll 0 1 none zeroSalt twoAppends).map (fun s =>
      ((s.anchors 1 (twoAppends.filterMap WriteStep.batch?)).entries, decide s.Recognisable)) =
      .ok ([(2, 37)], true) := by decide +kernel
  rw [hs] at hsample
  obtain ⟨hentries, hrec⟩ := Prod.mk.inj (Except.ok.inj hsample)
  rw [hentries] at hiff
  exact ⟨s, hs, (hiff (by decide)).mpr ⟨by decide, of_decide_eq_true hrec⟩⟩

/-- Batch `k` of a run of batches of as many records as a batch can count. -/
def fullBatch (k : Nat) : RecordBatch :=
  { header := { baseOffset := k * (2 ^ 31 - 1), recordCount := 2 ^ 31 - 1 }, records := [7] }

def fullAppends : List WriteStep :=
  (List.range 4).map fun k => .append (fullBatch k) zeroNonce

/-- Four batches of `2 ^ 31 - 1` records. With an entry for each but the first, the offsets of the
entries do not go up and the closed segment does not open. With an entry for the last one only, that
entry falls inside the first batch, and a read at the end of the first batch gives the last one. -/
theorem offsets_cut :
    (writeAll 0 1 none zeroSalt fullAppends).bind (fun s =>
      (Segment.openFiles s.sealSegment.log s.sealSegment.index.file 0 1 none).map fun _ => ()) =
      makeError .corrupt "índice .index no estrictamente creciente" ∧
    (writeAll 0 111 none zeroSalt fullAppends).bind (fun s =>
      (s.read (2 ^ 31 - 2) 1).map FetchResult.nextOffset) = .ok (4 * (2 ^ 31 - 1)) ∧
    (writeAll 0 111 none zeroSalt fullAppends).bind (fun s =>
      (s.scanRead (2 ^ 31 - 2) 1).map FetchResult.nextOffset) = .ok (2 ^ 31 - 1) := by
  decide +kernel

end Segment

end Nexus.Raw
