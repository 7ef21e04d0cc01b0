import Nexus.Storage.LogRuns

/-!
# Encrypted segments whose files were changed

Each block of an encrypted segment has a tag of its own, over its offset, its number of records and
its ciphertext. Nothing ties a block to its neighbours. Of a file that someone without the key has
changed, `read` gives whole batches of the original segment and nothing else
(`Segment.Tampered.read`), since it opens every block that it returns. But which blocks it opens
depends on headers that it does not check and on how many there are: a missing, repeated or
misplaced block goes unnoticed.
-/

namespace Nexus

open Lib List

/-! ## Batches in sequence -/

section Sequence

variable {o : Int} {b c : RecordBatch} {bs run : List RecordBatch}

theorem Chain.eq_head (h : Chain o (c :: bs)) (hb : b ∈ c :: bs) (hbase : b.baseOffset = o) :
    b = c := by
  rcases mem_cons.mp hb with rfl | hb
  · rfl
  · have hlater := h.2.2.le_baseOffset b hb
    have := lt_lastOffset_succ h.1 h.2.1
    omega

theorem Chain.mem_tail (h : Chain o (c :: bs)) (hb : b ∈ c :: bs) (hlt : o < b.baseOffset) :
    b ∈ bs := by
  rcases mem_cons.mp hb with rfl | hb
  · exact absurd h.1 (Int.ne_of_gt hlt)
  · exact hb

/-- Batches of a chain that follow each other from its start on are its first ones. -/
theorem Chain.isPrefix_of_subset (h : Chain o bs) (hrun : Chain o run) (hmem : run ⊆ bs) :
    run <+: bs := by
  induction run generalizing o bs with
  | nil => exact nil_prefix
  | cons b run ih =>
    obtain ⟨hbase, hcount, hrest⟩ := hrun
    have hb := hmem mem_cons_self
    cases bs with
    | nil => cases hb
    | cons c bs =>
      obtain rfl := h.eq_head hb hbase
      have hlt := lt_lastOffset_succ hbase hcount
      refine cons_prefix_cons.mpr ⟨rfl, ih h.2.2 hrest fun x hx => ?_⟩
      have := hrest.le_baseOffset x hx
      exact h.mem_tail (hmem (mem_cons_of_mem _ hx)) (by omega)

/-- Batches of a chain that follow each other stand together in it. -/
theorem Chain.isInfix_of_subset (h : Chain o bs) (hrun : Chain b.baseOffset (b :: run))
    (hmem : b :: run ⊆ bs) : b :: run <:+: bs := by
  induction bs generalizing o with
  | nil => exact absurd (hmem mem_cons_self) not_mem_nil
  | cons c bs ih =>
    by_cases hbase : b.baseOffset = o
    · exact (h.isPrefix_of_subset (hbase ▸ hrun) hmem).isInfix
    · have hle := h.le_baseOffset b (hmem mem_cons_self)
      refine (ih h.2.2 fun x hx => ?_).trans (suffix_cons _ _).isInfix
      have := hrun.le_baseOffset x hx
      exact h.mem_tail (hmem hx) (by omega)

end Sequence

namespace Raw

/-- Batches are read back from their encodings. -/
theorem encodeAll_injective {bs cs : List RecordBatch} (hbs : ∀ b ∈ bs, b.Fits)
    (hcs : ∀ c ∈ cs, c.Fits) (h : encodeAll bs = encodeAll cs) : bs = cs := by
  induction bs generalizing cs with
  | nil =>
    cases cs with
    | nil => rfl
    | cons c cs => exact absurd h.symm (encodeAll_cons_ne_nil c cs)
  | cons b bs ih =>
    cases cs with
    | nil => exact absurd h (encodeAll_cons_ne_nil b bs)
    | cons c cs =>
      have hdecode := RecordBatch.decode_encode (encodeAll bs) (hbs b mem_cons_self)
      rw [← encodeAll_cons, h, encodeAll_cons,
        RecordBatch.decode_encode (encodeAll cs) (hcs c mem_cons_self)] at hdecode
      obtain rfl := Except.ok.inj hdecode
      rw [encodeAll_cons, encodeAll_cons] at h
      rw [ih (fun x hx => hbs x (.tail _ hx)) (fun x hx => hcs x (.tail _ hx))
        (append_cancel_left h)]

namespace Segment

/-- The batches that were appended to an encrypted segment. -/
structure Written (s : Segment) (blocks : List RecordBatch) : Prop where
  encrypted : s.cipher.isSome
  file : ∃ header frames, List.Forall₂ (Framed s.cipher) blocks frames ∧
    s.log = header ++ frames.flatten
  fits : ∀ b ∈ blocks, b.Fits
  chain : Chain s.baseOffset blocks

/-- The segment after someone without the key has changed its file. No tag is forged: wherever a
block is looked for, it opens only if it was sealed for one of the batches. -/
structure Tampered (s s' : Segment) (blocks : List RecordBatch) : Prop where
  cipher : s'.cipher = s.cipher
  unforged : ∀ (position : Nat) (info : BlockHeader) (plaintext : Bytes),
    s'.peekBlock position = some info → s'.loadBlock position info.onDiskSize = .ok plaintext →
    ∃ b ∈ blocks, Framed s.cipher b (slice s'.log position info.onDiskSize)

/-- A read fails, or gives consecutive batches from the one that has the offset on. -/
def Genuine (blocks : List RecordBatch) (offset : Int) (res : Expected FetchResult) : Prop :=
  ∀ r, res = .ok r → ∃ b run, r.batches = encodeAll (b :: run) ∧ b :: run <:+: blocks ∧
    b.baseOffset ≤ offset ∧ offset ≤ b.lastOffset

/-- A read fails, or its batches are in sequence by their own offsets, and the first one does not
start after the offset that was asked for. -/
def InSequence (offset : Int) (res : Expected FetchResult) : Prop :=
  ∀ r, res = .ok r → ∃ b run, r.batches = encodeAll (b :: run) ∧ (∀ x ∈ b :: run, x.Fits) ∧
    Chain b.baseOffset (b :: run) ∧ b.baseOffset ≤ offset

variable {s s' : Segment} {blocks : List RecordBatch} {offset : Int} {info : BlockHeader}
  {position : Nat}

/-- A block that opens is the block of a batch. -/
theorem Tampered.isBlock (h : Tampered s s' blocks) (hfits : ∀ b ∈ blocks, b.Fits)
    {plaintext : Bytes} (hpeek : s'.peekBlock position = some info)
    (hload : s'.loadBlock position info.onDiskSize = .ok plaintext) :
    ∃ b ∈ blocks, info = headerOf s.cipher b ∧ plaintext = b.encode := by
  obtain ⟨b, hb, hframed⟩ := h.unforged position info plaintext hpeek hload
  have hlen := hframed.length
  have hle := blockHeaderSize_le s.cipher b
  have hsize : onDiskSize s.cipher b ≤ info.onDiskSize := by
    rw [← hlen, slice, length_take]
    exact Nat.min_le_left _ _
  refine ⟨b, hb, ?_, ?_⟩
  · have hparse := hframed.parse (hfits b hb) []
    rw [append_nil, slice, take_take, Nat.min_eq_left (Nat.le_trans hle hsize)] at hparse
    unfold peekBlock at hpeek
    rw [h.cipher] at hpeek
    dsimp only at hpeek
    split at hpeek
    · cases hpeek
    · split at hpeek
      · cases hpeek
      · exact Option.some.inj (hpeek.symm.trans hparse)
  · have hopen := hframed.openFrame (hfits b hb)
    unfold loadBlock at hload
    rw [h.cipher] at hload
    dsimp only at hload
    split at hload
    · cases hload
    · exact Except.ok.inj (hload.symm.trans hopen)

/-- What is read are batches of the segment that end at or after the offset. -/
theorem Tampered.read (h : Tampered s s' blocks) (hfits : ∀ b ∈ blocks, b.Fits) {maxBytes : Nat}
    {r : FetchResult} (hr : s'.read offset maxBytes = .ok r) :
    ∃ run, r.batches = encodeAll run ∧ ∀ b ∈ run, b ∈ blocks ∧ offset ≤ b.lastOffset := by
  refine s'.scanBlocks_invariant (P := fun _ (acc : Expected FetchResult) => ∀ r, acc = .ok r →
    ∃ run, r.batches = encodeAll run ∧ ∀ b ∈ run, b ∈ blocks ∧ offset ≤ b.lastOffset)
    (fun position acc info hpeek ih => ?_) ?_ r hr
  · cases acc with
    | error e => exact ih
    | ok result =>
      rw [readVisit]
      split
      · exact ih
      · split
        · exact ih
        · rename_i hreaches
          split
          · exact ih
          · cases hload : s'.loadBlock position info.onDiskSize with
            | error e => exact nofun
            | ok plaintext =>
              rintro r ⟨⟩
              obtain ⟨b, hb, rfl, rfl⟩ := h.isBlock hfits hpeek hload
              obtain ⟨run, hrun, hmem⟩ := ih result rfl
              refine ⟨run ++ [b], ?_, fun x hx => ?_⟩
              · rw [encodeAll_append, ← hrun, encodeAll_cons, encodeAll_nil, append_nil]
              · rcases mem_append.mp hx with hx | hx
                · exact hmem x hx
                · rw [mem_singleton.mp hx]
                  exact ⟨hb, Int.not_lt.mp hreaches⟩
  · rintro r ⟨⟩
    exact ⟨[], rfl, nofun⟩

/-- The block of a batch at the offset. -/
def sealedFrame (o : Int) : Bytes :=
  ((frameFor (some .xorCipher) (twoRecords.rebase o) noRandom.nonce).toOption).getD []

def sealedSegment (offsets : List Int) : Segment where
  baseOffset := 0
  log := encodeSegmentHeader noRandom.salt ++ (offsets.map sealedFrame).flatten
  index := { file := [], baseOffset := 0, interval := 4096, entries := [], flushed := 0 }
  sizeBytes := (encodeSegmentHeader noRandom.salt ++ (offsets.map sealedFrame).flatten).length
  cipher := some .xorCipher
  dataStart := kEncSegmentHeaderSize

def batchesAt (offsets : List Int) : List RecordBatch := offsets.map twoRecords.rebase

theorem framed_sealedFrame (o : Int) :
    Framed (some .xorCipher) (twoRecords.rebase o) (sealedFrame o) := by
  have hlen : (twoRecords.rebase o).encode.length < 2 ^ 32 := by
    rw [RecordBatch.length_encode]
    exact (by decide : 37 < 2 ^ 32)
  obtain ⟨frame, hframe⟩ := SegmentCipher.sealBlock_isOk .xorCipher o 2 noRandom.nonce hlen
  have heq : frameFor (some .xorCipher) (twoRecords.rebase o) noRandom.nonce = .ok frame := hframe
  refine ⟨noRandom.nonce, ?_⟩
  rw [sealedFrame, heq]
  rfl

theorem written_sealedSegment : (sealedSegment [0, 2, 4]).Written (batchesAt [0, 2, 4]) := by
  refine ⟨rfl, ⟨_, [0, 2, 4].map sealedFrame, ?_, rfl⟩, by decide +kernel, ?_⟩
  · exact forall₂_map_left_iff.mpr (forall₂_map_right_iff.mpr
      (forall₂_same.mpr fun o _ => framed_sealedFrame o))
  · exact ⟨rfl, by decide, rfl, by decide, rfl, by decide, trivial⟩

theorem lt_of_peekBlock (h : s.peekBlock position = some info) : position < s.sizeBytes := by
  have hpos : 0 < blockHeaderSize s.cipher := by
    unfold blockHeaderSize
    split <;> decide
  unfold peekBlock at h
  dsimp only at h
  split at h
  · cases h
  · omega

/-- Does the file open at the position only if one of the blocks is there? -/
def opensOnly (s : Segment) (frames : List Bytes) (position : Nat) : Bool :=
  match s.peekBlock position with
  | none => true
  | some info =>
    match s.loadBlock position info.onDiskSize with
    | .error _ => true
    | .ok _ => slice s.log position info.onDiskSize ∈ frames

theorem tampered_sealedSegment :
    Tampered (sealedSegment [0, 2, 4]) (sealedSegment [0, 4]) (batchesAt [0, 2, 4]) := by
  have hopens : ∀ position < (sealedSegment [0, 4]).sizeBytes,
      (sealedSegment [0, 4]).opensOnly ([0, 2, 4].map sealedFrame) position = true := by
    decide +kernel
  refine ⟨rfl, fun position info plaintext hpeek hload => ?_⟩
  have hlt := lt_of_peekBlock hpeek
  have hmem := hopens position hlt
  unfold opensOnly at hmem
  rw [hpeek] at hmem
  dsimp only at hmem
  rw [hload] at hmem
  obtain ⟨o, ho, hslice⟩ := mem_map.mp (of_decide_eq_true hmem)
  exact ⟨_, mem_map_of_mem ho, hslice ▸ framed_sealedFrame o⟩

end Segment

end Raw

end Nexus
