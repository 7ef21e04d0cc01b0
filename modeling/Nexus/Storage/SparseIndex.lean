import Mathlib.Data.List.TakeWhile
import Nexus.Lib.Frames
import Nexus.Storage.Contents

/-!
# The sparse index of a segment

`storage/index.cpp`. An entry ties the offset of a batch, relative to the base of the segment, to
the position of its block in the `.log`; both are `uint32`. An entry is added after every `interval`
bytes of log. A scan starts at the last entry at or below the offset that it looks for.

The `.index` file is a sequence of whole entries: they are written eight bytes at a time, after the
ones that are already there.

`SparseIndex.Anchored`: the entries are the starts of blocks of the segment, in order. It is kept by
`maybeAppend` while offsets and positions fit in 32 bits, and then a scan may start where `floor`
says: the blocks before that one are below the offset (`Anchored.floor`).
-/

namespace Nexus

open Lib List

structure IndexEntry where
  relativeOffset : Nat := 0
  filePosition : Nat := 0
  deriving DecidableEq

structure SparseIndex where
  /-- The entries of the `.index` file. -/
  file : List IndexEntry
  baseOffset : Int
  interval : Nat
  entries : List IndexEntry
  /-- Bytes of log since the last entry. -/
  bytesSince : Nat := 0
  /-- How many entries are in the file. -/
  flushed : Nat
  deriving DecidableEq

namespace SparseIndex

def strictlyIncreasing : List IndexEntry → Bool
  | [] => true
  | e :: rest =>
    (match rest with
      | [] => true
      | next :: _ => e.relativeOffset < next.relativeOffset) && strictlyIncreasing rest

/-- `SparseIndex::open`, with the entries of the file. -/
def openFile (file : List IndexEntry) (baseOffset : Int) (interval : Nat) : Expected SparseIndex :=
  if strictlyIncreasing file then
    .ok { file, baseOffset, interval, entries := file, flushed := file.length }
  else makeError .corrupt "índice .index no estrictamente creciente"

def maybeAppend (ix : SparseIndex) (offset : Int) (filePosition batchLen : Nat) : SparseIndex :=
  let ix :=
    if ix.bytesSince ≥ ix.interval then
      let entry : IndexEntry :=
        { relativeOffset := ((offset - ix.baseOffset) % 2 ^ 32).toNat
          filePosition := filePosition % 2 ^ 32 }
      { ix with entries := ix.entries ++ [entry], bytesSince := 0 }
    else ix
  { ix with bytesSince := ix.bytesSince + batchLen }

/-- The last entry at or below the target. The entries go up, so that `std::ranges::upper_bound`
ends where the first one above it stands. -/
def floor (ix : SparseIndex) (target : Int) : IndexEntry :=
  if target < ix.baseOffset ∨ ix.entries = [] then {}
  else
    let rel := (min (target - ix.baseOffset) (2 ^ 32 - 1)).toNat
    ((ix.entries.takeWhile (·.relativeOffset ≤ rel)).getLast?).getD {}

def flush (ix : SparseIndex) : SparseIndex :=
  if ix.flushed < ix.entries.length then
    { ix with
      file := ix.file.take ix.flushed ++ ix.entries.drop ix.flushed
      flushed := ix.entries.length }
  else ix

def reset (ix : SparseIndex) : SparseIndex :=
  { ix with file := [], entries := [], bytesSince := 0, flushed := 0 }

/-! ## Entries are the starts of blocks -/

/-- The entry is the start of one of the blocks, the first of which stands at `start`. -/
def IsAnchor (base : Int) (size : RecordBatch → Nat) (start : Nat) (blocks : List RecordBatch)
    (e : IndexEntry) : Prop :=
  ∃ k < blocks.length, (e.relativeOffset : Int) = endOf base (blocks.take k) - base ∧
    e.filePosition = start + totalSize size (blocks.take k)

variable {base : Int} {size : RecordBatch → Nat} {start : Nat} {blocks : List RecordBatch}

theorem IsAnchor.append {e : IndexEntry} (h : IsAnchor base size start blocks e)
    (more : List RecordBatch) : IsAnchor base size start (blocks ++ more) e := by
  obtain ⟨k, hk, hrel, hpos⟩ := h
  refine ⟨k, by rw [length_append]; omega, ?_, ?_⟩
  · rw [take_append_of_le_length (Nat.le_of_lt hk)]
    exact hrel
  · rw [take_append_of_le_length (Nat.le_of_lt hk)]
    exact hpos

/-- The entries, each the start of a block, go up; the file has the first ones. -/
structure Anchored (ix : SparseIndex) (size : RecordBatch → Nat) (start : Nat)
    (blocks : List RecordBatch) : Prop where
  anchor : ∀ e ∈ ix.entries, IsAnchor ix.baseOffset size start blocks e
  increasing : ix.entries.Pairwise (·.relativeOffset < ·.relativeOffset)
  flushed : ix.flushed ≤ ix.entries.length
  file : ix.file = ix.entries.take ix.flushed

variable {ix : SparseIndex}

theorem anchored_reset (ix : SparseIndex) : ix.reset.Anchored size start blocks where
  anchor _ h := absurd h not_mem_nil
  increasing := List.Pairwise.nil
  flushed := Nat.le_refl _
  file := rfl

theorem strictlyIncreasing_of_pairwise {entries : List IndexEntry}
    (h : entries.Pairwise (·.relativeOffset < ·.relativeOffset)) : strictlyIncreasing entries := by
  induction entries with
  | nil => rfl
  | cons e rest ih =>
    obtain ⟨hhead, htail⟩ := pairwise_cons.mp h
    cases rest with
    | nil => rfl
    | cons next rest =>
      exact Bool.and_eq_true_iff.mpr
        ⟨decide_eq_true (hhead next mem_cons_self), ih htail⟩

/-- The index that an `.index` file opens as. -/
def reopened (ix : SparseIndex) (interval : Nat) : SparseIndex :=
  { ix with interval, entries := ix.file, bytesSince := 0, flushed := ix.file.length }

theorem reset_reopened {ix' : SparseIndex} (h : ix.baseOffset = ix'.baseOffset) (interval : Nat) :
    (ix.reopened interval).reset = (ix'.reopened interval).reset := by
  simp only [reopened, reset, h]

section

variable (h : ix.Anchored size start blocks)

include h

/-- The file of an index opens as an index of the same blocks. -/
theorem Anchored.openFile (interval : Nat) :
    openFile ix.file ix.baseOffset interval = .ok (ix.reopened interval) := by
  have hinc : ix.file.Pairwise (·.relativeOffset < ·.relativeOffset) := by
    rw [h.file]
    exact h.increasing.sublist (take_sublist _ _)
  unfold SparseIndex.openFile
  rw [if_pos (strictlyIncreasing_of_pairwise hinc)]
  rfl

theorem Anchored.reopened (interval : Nat) :
    (ix.reopened interval).Anchored size start blocks := by
  refine ⟨fun e he => h.anchor e ?_, ?_, Nat.le_refl _, (take_length).symm⟩
  · change e ∈ ix.file at he
    rw [h.file] at he
    exact mem_of_mem_take he
  · change ix.file.Pairwise _
    rw [h.file]
    exact h.increasing.sublist (take_sublist _ _)

theorem Anchored.flush :
    ix.flush.Anchored size start blocks ∧ ix.flush.baseOffset = ix.baseOffset ∧
      ix.flush.file = ix.flush.entries := by
  have hle := h.flushed
  unfold SparseIndex.flush
  split
  · refine ⟨⟨h.anchor, h.increasing, Nat.le_refl _, ?_⟩, rfl, ?_⟩
    · dsimp only
      rw [h.file, take_take, Nat.min_self, take_append_drop, take_length]
    · dsimp only
      rw [h.file, take_take, Nat.min_self, take_append_drop]
  · refine ⟨h, rfl, ?_⟩
    rw [h.file, take_of_length_le (by omega)]

end

@[simp] theorem baseOffset_maybeAppend (ix : SparseIndex) (offset : Int) (pos len : Nat) :
    (ix.maybeAppend offset pos len).baseOffset = ix.baseOffset := by
  unfold maybeAppend
  dsimp only
  split <;> rfl

/-- The block at the end may become an entry. -/
theorem Anchored.maybeAppend (h : ix.Anchored size start blocks)
    (hchain : Chain ix.baseOffset blocks) {b : RecordBatch}
    (hb : b.baseOffset = endOf ix.baseOffset blocks)
    (hoff : endOf ix.baseOffset blocks - ix.baseOffset < 2 ^ 32)
    (hpos : start + totalSize size blocks < 2 ^ 32) (len : Nat) :
    (ix.maybeAppend b.baseOffset (start + totalSize size blocks) len).Anchored size start
      (blocks ++ [b]) := by
  have hge := hchain.le_endOf
  unfold SparseIndex.maybeAppend
  dsimp only
  split
  · refine ⟨fun e he => ?_, ?_, ?_, ?_⟩
    · rcases mem_append.mp he with he | he
      · exact (h.anchor e he).append [b]
      · rw [mem_singleton.mp he]
        refine ⟨blocks.length, by simp, ?_, ?_⟩
        · dsimp only
          rw [take_left, hb, Int.emod_eq_of_lt (by omega) hoff]
          omega
        · dsimp only
          rw [take_left, Nat.mod_eq_of_lt hpos]
    · refine pairwise_append.mpr ⟨h.increasing, pairwise_singleton _ _, ?_⟩
      intro e he e' he'
      rw [mem_singleton.mp he']
      obtain ⟨k, hk, hrel, -⟩ := h.anchor e he
      have hlt := hchain.endOf_take_lt hk (Nat.le_refl _)
      rw [take_length] at hlt
      dsimp only
      rw [hb, Int.emod_eq_of_lt (by omega) hoff]
      omega
    · dsimp only
      rw [length_append]
      exact Nat.le_trans h.flushed (Nat.le_add_right _ _)
    · dsimp only
      rw [take_append_of_le_length h.flushed]
      exact h.file
  · exact ⟨fun e he => (h.anchor e he).append [b], h.increasing, h.flushed, h.file⟩

/-- The blocks before the one at which the scan starts are below the target. -/
theorem Anchored.floor (h : ix.Anchored size start blocks) {target : Int}
    (ht : ix.baseOffset ≤ target) :
    ∃ k ≤ blocks.length,
      max (ix.floor target).filePosition start = start + totalSize size (blocks.take k) ∧
      endOf ix.baseOffset (blocks.take k) ≤ target := by
  have hdefault : ∃ k ≤ blocks.length,
      max ({} : IndexEntry).filePosition start = start + totalSize size (blocks.take k) ∧
      endOf ix.baseOffset (blocks.take k) ≤ target :=
    ⟨0, Nat.zero_le _, by simp, ht⟩
  unfold SparseIndex.floor
  split
  · exact hdefault
  generalize hrel : (min (target - ix.baseOffset) (2 ^ 32 - 1)).toNat = rel
  dsimp only
  cases hlast : (ix.entries.takeWhile (·.relativeOffset ≤ rel)).getLast? with
  | none => exact hdefault
  | some e =>
    have hmem := mem_of_getLast? hlast
    have hle : e.relativeOffset ≤ rel := by simpa using mem_takeWhile_imp hmem
    obtain ⟨k, hk, hoff, hpos⟩ := h.anchor e (takeWhile_subset _ hmem)
    refine ⟨k, Nat.le_of_lt hk, ?_, ?_⟩
    · rw [Option.getD_some, hpos]
      omega
    · omega

end SparseIndex

end Nexus
