import Nexus.Storage.RawLog

/-!
# What a directory holds

The operations of a partition log of files, as operations on the batches that it holds
(`PartitionLog.Holds`), as long as segments and offsets are small (`PartitionLog.Small`). The log of
blocks that a log of files stands for follows along: it has the same segments, but when a new one is
started is decided here, by the bytes of the file.
-/

namespace Nexus.Raw.PartitionLog

open Lib Raw.PartitionLog Raw.Segment List

variable {l l' : PartitionLog} {g : Nexus.PartitionLog} {bs : List RecordBatch}
  {key : Option EncryptionKey} {s : Segment} {b : RecordBatch} {offset : Int} {cfg : LogConfig}

/-- Where each segment ends: where the next one starts, or where the log ends. -/
def segmentEnds (l : PartitionLog) : List Int :=
  l.segments.tail.map Segment.baseOffset ++ [l.logEndOffset]

/-- Every segment spans fewer than `2 ^ 32` bytes and offsets, and offsets are below `2 ^ 45`. -/
def Small (l : PartitionLog) : Prop :=
  (∀ s ∈ l.segments, s.sizeBytes < 2 ^ 32) ∧
  (∀ p ∈ l.segments.zip l.segmentEnds, p.2 - p.1.baseOffset < 2 ^ 32) ∧ l.logEndOffset < 2 ^ 45

instance : DecidablePred Small := fun l =>
  inferInstanceAs (Decidable ((∀ s ∈ l.segments, s.sizeBytes < 2 ^ 32) ∧
    (∀ p ∈ l.segments.zip l.segmentEnds, p.2 - p.1.baseOffset < 2 ^ 32) ∧
    l.logEndOffset < 2 ^ 45))

/-- Every segment spans fewer than `2 ^ 32` bytes and offsets. -/
def Narrow (l : PartitionLog) : Prop :=
  (∀ s ∈ l.segments, s.sizeBytes < 2 ^ 32) ∧
  ∀ p ∈ l.segments.zip l.segmentEnds, p.2 - p.1.baseOffset < 2 ^ 32

instance : DecidablePred Narrow := fun l =>
  inferInstanceAs (Decidable ((∀ s ∈ l.segments, s.sizeBytes < 2 ^ 32) ∧
    ∀ p ∈ l.segments.zip l.segmentEnds, p.2 - p.1.baseOffset < 2 ^ 32))

theorem Small.narrow (h : l.Small) : l.Narrow := ⟨h.1, h.2.1⟩

theorem Narrow.active (h : l.Narrow) : l.active.sizeBytes < 2 ^ 32 ∧
    l.logEndOffset - l.active.baseOffset < 2 ^ 32 := by
  refine ⟨h.1 _ (by simp [segments]), ?_⟩
  have hmem : (l.active, l.logEndOffset) ∈ l.segments.zip l.segmentEnds := by
    unfold segmentEnds
    rw [show l.segments.zip _ = _ from zip_append (by simp [segments])]
    exact mem_append_right _ mem_cons_self
  exact h.2 _ hmem

/-! ## Append -/

/-- A sync changes only the file of an index and where recovery starts. -/
theorem maybeSync_eq (l : PartitionLog) (k : Nat) : ∃ ix p b,
    l.maybeSync k = { l with
      active := { l.active with index := ix }, recoveryPoint := p, bytesSinceSync := b } ∧
      (ix = l.active.index ∨ ix = l.active.index.flush) := by
  unfold maybeSync
  split
  · exact ⟨_, _, _, rfl, .inl rfl⟩
  · exact ⟨_, _, _, rfl, .inr rfl⟩
  · dsimp only
    split
    · exact ⟨_, _, _, rfl, .inr rfl⟩
    · exact ⟨_, _, _, rfl, .inl rfl⟩

theorem Models.maybeSync (h : l.Models g) (k : Nat) : (l.maybeSync k).Models g := by
  obtain ⟨ix, p, b, heq, rfl | rfl⟩ := maybeSync_eq l k
  · rw [heq]
    exact ⟨h.older, h.active, h.state, h.logStart, h.logEnd⟩
  · rw [heq]
    exact ⟨h.older, h.active.flush, h.state, h.logStart, h.logEnd⟩

theorem maybeSync_fields (l : PartitionLog) (k : Nat) :
    (l.maybeSync k).cfg = l.cfg ∧ (l.maybeSync k).logStartOffset = l.logStartOffset ∧
      (l.maybeSync k).logEndOffset = l.logEndOffset ∧
      (l.maybeSync k).orphans = l.orphans ∧
      (l.maybeSync k).active.baseOffset = l.active.baseOffset ∧
      (l.maybeSync k).active.sizeBytes = l.active.sizeBytes := by
  obtain ⟨ix, p, b, heq, -⟩ := maybeSync_eq l k
  rw [heq]
  exact ⟨rfl, rfl, rfl, rfl, rfl, rfl⟩

/-- A new segment, where no `.index` is left over. -/
theorem createSegment_eq {base : Int} (h : indexOf l.orphans base = []) (salt : Salt) :
    ∃ s, l.createSegment base salt = .ok s ∧
      Represents l.cfg.encryptionKey s (Nexus.Segment.create base) ∧ s.state = .active := by
  obtain ⟨s, hs, hstores, hbase, hstate⟩ := stores_create base l.cfg.indexIntervalBytes
    l.cfg.encryptionKey salt
  refine ⟨s, ?_, ⟨hbase, hstores⟩, hstate⟩
  unfold createSegment
  rw [h]
  exact hs

theorem blocks_ne_nil_of_not_isEmpty {blocks : List RecordBatch} (h : s.Stores key blocks)
    (hne : ¬ s.isEmpty) : blocks ≠ [] := by
  rintro rfl
  have hsize := h.sizeBytes_eq
  rw [totalSize_nil, length_nil] at hsize
  exact hne (beq_iff_eq.mpr hsize)

/-- A new segment, if the active one is full. -/
theorem Models.rolled (h : l.Models g) (hg : g.Holds bs)
    (hindex : indexOf l.orphans l.logEndOffset = []) (salt : Salt) :
    ∃ l₁ g₁, l.rolled salt = .ok l₁ ∧ l₁.Models g₁ ∧ g₁.Holds bs ∧
      l₁.logStartOffset = l.logStartOffset ∧ l₁.logEndOffset = l.logEndOffset ∧ l₁.cfg = l.cfg ∧
      l₁.orphans ⊆ l.orphans := by
  unfold PartitionLog.rolled
  by_cases hroll : l.mustRoll
  · rw [if_pos hroll]
    obtain ⟨s, hs, hrep, hstate⟩ := createSegment_eq hindex salt
    have hempty : ¬ l.active.isEmpty := by
      unfold mustRoll at hroll
      rw [Bool.and_eq_true, Bool.not_eq_true'] at hroll
      rw [hroll.1]
      simp
    have hrolled : l.rollSegment salt = .ok { l with
        older := l.older ++ [l.active.sealSegment]
        active := s
        recoveryPoint := l.logEndOffset
        bytesSinceSync := 0
        orphans := l.orphans.filter (·.1 ≠ l.logEndOffset) } := by
      rw [rollSegment, hs]
      rfl
    refine ⟨_, g.rollSegment, hrolled, ⟨?_, ?_, hstate, h.logStart, h.logEnd⟩,
      hg.rollSegment (blocks_ne_nil_of_not_isEmpty h.active.stores hempty), rfl, rfl, rfl,
      filter_subset_self _⟩
    · exact rel_append h.older
        (.cons ⟨h.active.baseOffset, h.active.stores.flush .closed⟩ .nil)
    · rw [Nexus.PartitionLog.rollSegment, ← h.logEnd]
      exact hrep
  · rw [if_neg hroll]
    exact ⟨l, g, rfl, h, hg, rfl, rfl, rfl, List.Subset.refl _⟩

/-- One more batch at the end of the active segment. -/
theorem Models.push (h : l.Models g) (hg : g.Holds bs) {frame : Bytes}
    (hframed : Framed l.active.cipher (b.rebase l.logEndOffset) frame)
    (hfits : (b.rebase l.logEndOffset).Fits) (hc : 1 ≤ b.header.recordCount)
    (hbytes : (l.active.push (b.rebase l.logEndOffset) frame).sizeBytes < 2 ^ 32)
    (hspan : (b.rebase l.logEndOffset).lastOffset + 1 - l.active.baseOffset < 2 ^ 32) :
    ∃ g', Models { l with
        active := l.active.push (b.rebase l.logEndOffset) frame
        logEndOffset := (b.rebase l.logEndOffset).lastOffset + 1 } g' ∧
      g'.Holds (bs ++ [b.rebase l.logEndOffset]) := by
  have hstores := h.active.stores.push hframed hfits (by
    rw [h.active.baseOffset, hg.endOf_active, ← h.logEnd]
    rfl) hc hbytes
    hspan
  refine ⟨{ g with
    active := { g.active with blocks := g.active.blocks ++ [b.rebase g.logEndOffset] }
    logEndOffset := (b.rebase g.logEndOffset).lastOffset + 1 }, ⟨h.older,
    ⟨h.active.baseOffset, ?_⟩, h.state, h.logStart, by rw [h.logEnd]⟩, ?_⟩
  · rw [← h.logEnd]
    exact hstores
  · rw [h.logEnd]
    exact hg.push hc

/-- The active segment spans fewer than `2 ^ 32` bytes and offsets, and offsets are below
`2 ^ 45`. -/
def SmallEnd (l : PartitionLog) : Prop :=
  l.active.sizeBytes < 2 ^ 32 ∧ l.logEndOffset - l.active.baseOffset < 2 ^ 32 ∧
    l.logEndOffset < 2 ^ 45

theorem Small.smallEnd (h : l.Small) : l.SmallEnd :=
  ⟨h.narrow.active.1, h.narrow.active.2, h.2.2⟩

theorem Models.nonneg_logEnd (h : l.Models g) (hg : g.Holds bs) (hnonneg : 0 ≤ l.logStartOffset) :
    0 ≤ l.logEndOffset := by
  rw [h.logStart] at hnonneg
  rw [h.logEnd, hg.logEnd]
  exact Int.le_trans hnonneg hg.chain.le_endOf

/-- A batch is written to the active segment. -/
theorem Models.write (h : l.Models g) (hg : g.Holds bs) (hnonneg : 0 ≤ l.logStartOffset)
    (hbound : l.logEndOffset < 2 ^ 63) (hb : b.Fits) (hc : 1 ≤ b.header.recordCount)
    (nonce : Nonce) :
    ∃ l', l.write b nonce = .ok (l', (b.rebase l.logEndOffset).lastOffset) ∧
      l'.logStartOffset = l.logStartOffset ∧ l'.cfg = l.cfg ∧ l'.orphans = l.orphans ∧
      (l'.active.sizeBytes < 2 ^ 32 → l'.logEndOffset - l'.active.baseOffset < 2 ^ 32 →
        ∃ g', l'.Models g' ∧ g'.Holds (bs ++ [b.rebase l.logEndOffset])) := by
  have hle := h.nonneg_logEnd hg hnonneg
  have hfits : (b.rebase l.logEndOffset).Fits := hb.rebase (by
    norm_num at hbound ⊢
    omega)
  obtain ⟨frame, hframe⟩ := exists_frameFor l.active.cipher hfits nonce
  obtain ⟨hcfg, hstart, hend, horphans, hbase, hsize⟩ := maybeSync_fields { l with
    active := l.active.push (b.rebase l.logEndOffset) frame
    logEndOffset := (b.rebase l.logEndOffset).lastOffset + 1 }
    (b.rebase l.logEndOffset).encodedSize
  unfold PartitionLog.write
  dsimp only
  rw [append_eq h.state hframe]
  refine ⟨_, rfl, hstart, hcfg, horphans, fun hbytes hspan => ?_⟩
  rw [hsize] at hbytes
  rw [hend, hbase] at hspan
  obtain ⟨g', hm', hg'⟩ := h.push hg ⟨nonce, hframe⟩ hfits hc hbytes hspan
  exact ⟨g', hm'.maybeSync _, hg'⟩

theorem Contains.append (h : l.Contains bs) (hbound : l.logEndOffset < 2 ^ 63) (hb : b.Fits)
    (hc : 1 ≤ b.header.recordCount) (random : Random) :
    ∃ l', l.append b random = .ok (l', (b.rebase l.logEndOffset).lastOffset) ∧
      l'.logStartOffset = l.logStartOffset ∧ l'.cfg = l.cfg ∧
      (l'.Narrow → l'.Contains (bs ++ [b.rebase l.logEndOffset])) := by
  obtain ⟨g, hm, hg⟩ := h.models
  have hindex : indexOf l.orphans l.logEndOffset = [] := by
    rw [h.orphans]
    rfl
  obtain ⟨l₁, g₁, hroll, hm₁, hg₁, hstart, hend, hcfg, horphans⟩ := hm.rolled hg hindex random.salt
  obtain ⟨l', hl', hstart', hcfg', horphans', hholds⟩ := hm₁.write hg₁
    (by rw [hstart]; exact h.nonneg) (by rw [hend]; exact hbound) hb hc random.nonce
  unfold PartitionLog.append
  rw [hroll, ← hend]
  refine ⟨l', hl', hstart'.trans hstart, hcfg'.trans hcfg,
    fun hnarrow => ⟨hholds hnarrow.active.1 hnarrow.active.2, ?_, ?_⟩⟩
  · rw [horphans']
    exact subset_nil.mp (h.orphans ▸ horphans)
  · rw [hstart', hstart]
    exact h.nonneg

/-! ## Truncation -/

theorem Models.truncateTo (h : l.Models g) (hg : g.Holds bs) {k : Nat} (hk : k ≤ bs.length) :
    ∃ l' g', l.truncateTo (endOf l.logStartOffset (bs.take k)) = .ok l' ∧ l'.Models g' ∧
      g'.Holds (bs.take k) ∧ l'.logStartOffset = l.logStartOffset ∧ l'.cfg = l.cfg ∧
      l'.orphans = l.orphans := by
  obtain ⟨g', hg', hholds, hstart⟩ := hg.truncateTo hk
  rw [h.logStart]
  unfold PartitionLog.truncateTo
  unfold Nexus.PartitionLog.truncateTo at hg'
  simp only [h.logEnd]
  split
  · rename_i heq
    rw [if_pos heq] at hg'
    cases hg'
    exact ⟨l, g, rfl, h, hholds, h.logStart, rfl, rfl⟩
  rename_i hne
  rw [if_neg hne] at hg'
  split at hg'
  · cases hg'
  rename_i hhi
  split at hg'
  · cases hg'
  rename_i hlo
  rw [if_neg hhi, if_neg (by rw [h.logStart]; exact hlo)]
  dsimp only at hg' ⊢
  obtain ⟨hbefore, htarget⟩ :=
    seek_represents (endOf g.logStartOffset (bs.take k)) h.older h.active
  generalize seek _ l.older l.active = found at hbefore htarget ⊢
  generalize Nexus.PartitionLog.seek _ g.older g.active = found' at hbefore htarget hg'
  unfold Nexus.Segment.truncateTo at hg'
  cases hpos : found'.2.positionOf (endOf g.logStartOffset (bs.take k)) with
  | error e => rw [hpos] at hg'; cases hg'
  | ok j =>
    rw [hpos] at hg'
    cases hg'
    obtain ⟨s, hs, hstores, hbase, hstate⟩ := htarget.stores.truncateTo htarget.baseOffset.symm rfl
      hpos
    rw [hs]
    refine ⟨_, _, rfl, ?_, hholds, h.logStart, rfl, rfl⟩
    exact ⟨hbefore, ⟨hbase.trans htarget.baseOffset, hstores⟩, hstate, h.logStart, rfl⟩

theorem Contains.truncateTo (h : l.Contains bs) {k : Nat} (hk : k ≤ bs.length) :
    ∃ l', l.truncateTo (endOf l.logStartOffset (bs.take k)) = .ok l' ∧ l'.Contains (bs.take k) ∧
      l'.logStartOffset = l.logStartOffset ∧ l'.cfg = l.cfg := by
  obtain ⟨g, hm, hg⟩ := h.models
  obtain ⟨l', g', hl', hm', hg', hstart, hcfg, horphans⟩ := hm.truncateTo hg hk
  exact ⟨l', hl', ⟨⟨g', hm', hg'⟩, horphans.trans h.orphans, by rw [hstart]; exact h.nonneg⟩,
    hstart, hcfg⟩

theorem Contains.le_of_truncateTo (h : l.Contains bs) (hl : l.truncateTo offset = .ok l') :
    l.logStartOffset ≤ offset := by
  unfold PartitionLog.truncateTo at hl
  split at hl
  · rename_i heq
    rw [heq, h.logEnd]
    exact h.chain.le_endOf
  split at hl
  · cases hl
  split at hl
  · cases hl
  · omega

theorem Contains.le_of_truncatePrefixTo (h : l.Contains bs)
    (hl : l.truncatePrefixTo offset = .ok l') : offset ≤ l.logEndOffset := by
  unfold truncatePrefixTo at hl
  split at hl
  · have hle := h.chain.le_endOf
    rw [← h.logEnd] at hle
    omega
  split at hl
  · cases hl
  · omega

theorem nonneg_of_resetTo {salt : Salt} (hl : l.resetTo offset salt = .ok l') : 0 ≤ offset := by
  unfold resetTo at hl
  split at hl
  · cases hl
  · omega

/-- The log keeps every batch from the offset on, and may keep some before it. -/
theorem Contains.truncatePrefixTo (h : l.Contains bs) (ho : offset ≤ l.logEndOffset) :
    ∃ l' j, l.truncatePrefixTo offset = .ok l' ∧ j ≤ bs.length ∧ l'.Contains (bs.drop j) ∧
      l'.logStartOffset = endOf l.logStartOffset (bs.take j) ∧
      l'.logStartOffset ≤ max l.logStartOffset offset ∧ l'.cfg = l.cfg := by
  obtain ⟨g, hm, hg⟩ := h.models
  unfold PartitionLog.truncatePrefixTo
  split
  · exact ⟨l, 0, rfl, Nat.zero_le _, h, rfl, by omega, rfl⟩
  rename_i hgt
  rw [if_neg (by omega)]
  obtain ⟨g', j, hg', hholds, hstart, hj, hle⟩ := hg.dropPrefix
    (show g.logStartOffset ≤ offset by rw [← hm.logStart]; omega)
  have holder := dropPrefix_represents offset hm.older hm.active
  have hhead := baseOffset_headD holder hm.active.baseOffset
  rw [← hm.logStart] at hstart
  subst hg'
  dsimp only at hstart hle ⊢
  rw [← hhead] at hstart hle
  refine ⟨_, j, rfl, hj, ⟨⟨_, ?_, hholds⟩, h.orphans, ?_⟩, hstart, ?_, rfl⟩
  · exact ⟨holder, hm.active, hm.state, hhead, hm.logEnd⟩
  · dsimp only
    rw [hstart]
    exact Int.le_trans h.nonneg (h.chain.take j).le_endOf
  · dsimp only
    omega

theorem Contains.resetTo (h : l.Contains bs) (ho : 0 ≤ offset) (salt : Salt) :
    ∃ l', l.resetTo offset salt = .ok l' ∧ l'.logStartOffset = offset ∧ l'.cfg = l.cfg ∧
      l'.Contains [] := by
  obtain ⟨g, hm, hg⟩ := h.models
  have hindex : indexOf l.orphans offset = [] := by
    rw [h.orphans]
    rfl
  obtain ⟨s, hs, hrep, hstate⟩ := createSegment_eq hindex salt
  obtain ⟨g', hg', hholds, -⟩ := Nexus.PartitionLog.holds_resetTo g ho
  unfold Nexus.PartitionLog.resetTo at hg'
  rw [if_neg (by omega)] at hg'
  cases hg'
  unfold PartitionLog.resetTo
  rw [if_neg (by omega), hs]
  refine ⟨_, rfl, rfl, rfl, ⟨⟨_, ⟨.nil, hrep, hstate, rfl, rfl⟩, hholds⟩, ?_, ho⟩⟩
  dsimp only
  rw [h.orphans]
  rfl

/-! ## Opening -/

/-- Every step of a loop over files succeeds. -/
theorem mapM_ok {α β : Type} {f : α → Expected β} {xs : List α} {ys : List β}
    (h : List.Forall₂ (fun x y => f x = .ok y) xs ys) : xs.mapM f = .ok ys := by
  induction h with
  | nil => rfl
  | cons hx _ ih =>
    rw [mapM_cons, hx, ih]
    rfl

/-- What a loop over files gives comes from the files one by one. -/
theorem exists_of_mem_mapM {α β : Type} {f : α → Expected β} {xs : List α} {ys : List β}
    (h : xs.mapM f = .ok ys) {y : β} (hy : y ∈ ys) : ∃ x ∈ xs, f x = .ok y := by
  induction xs generalizing ys with
  | nil =>
    cases h
    cases hy
  | cons x xs ih =>
    rw [mapM_cons] at h
    cases hx : f x with
    | error e => rw [hx] at h; cases h
    | ok z =>
      rw [hx] at h
      cases hxs : xs.mapM f with
      | error e => rw [hxs] at h; cases h
      | ok zs =>
        rw [hxs] at h
        cases h
        rcases mem_cons.mp hy with rfl | hy
        · exact ⟨x, mem_cons_self, hx⟩
        · obtain ⟨x', hx', hfx'⟩ := ih hxs hy
          exact ⟨x', mem_cons_of_mem _ hx', hfx'⟩

/-- The `.index` of a segment is found by its name. -/
theorem indexOf_segments {segs : List Segment}
    (hasc : segs.Pairwise (·.baseOffset < ·.baseOffset)) (hs : s ∈ segs)
    (rest : List (Int × List IndexEntry)) :
    indexOf (segs.map (fun s => (s.baseOffset, s.index.file)) ++ rest) s.baseOffset =
      s.index.file := by
  induction segs with
  | nil => cases hs
  | cons t segs ih =>
    rw [pairwise_cons] at hasc
    unfold indexOf
    rw [map_cons, cons_append]
    rcases mem_cons.mp hs with rfl | hs
    · rw [find?_cons_of_pos (by simp)]
      rfl
    · have hlt := hasc.1 s hs
      rw [find?_cons_of_neg (by simp; omega)]
      exact ih hasc.2 hs

/-- The log that the files of a log open as. -/
def reopened (cfg : LogConfig) (l : PartitionLog) : PartitionLog where
  cfg
  older := l.older.map (·.reopened cfg.indexIntervalBytes)
  active := (l.active.reopened cfg.indexIntervalBytes).recover.1
  logStartOffset := (l.older.headD l.active).baseOffset
  logEndOffset := (l.active.reopened cfg.indexIntervalBytes).recover.2 + 1
  recoveryPoint := (l.active.reopened cfg.indexIntervalBytes).recover.2 + 1

/-- The `.index` files of a directory that belong to no segment. -/
def leftover (dir : Directory) : List (Int × List IndexEntry) :=
  dir.indexes.filter fun file => dir.logs.all (·.1 ≠ file.1)

/-- The directory has the files of the segments, and perhaps other `.index` files. -/
structure FilesOf (dir : Directory) (segs : List Segment) : Prop where
  logs : dir.logs = segs.map fun s => (s.baseOffset, s.log)
  indexes : ∀ s ∈ segs, indexOf dir.indexes s.baseOffset = s.index.file

theorem filesOf_files (hasc : l.segments.Pairwise (·.baseOffset < ·.baseOffset)) :
    FilesOf l.files l.segments :=
  ⟨rfl, fun _ hs => indexOf_segments hasc hs l.orphans⟩

theorem leftover_files (horphans : l.orphans = []) : leftover l.files = [] := by
  refine filter_eq_nil_iff.mpr fun file hfile => ?_
  rw [files, horphans, append_nil] at hfile
  obtain ⟨s, hs, rfl⟩ := mem_map.mp hfile
  intro hall
  have := all_eq_true.mp hall _ (mem_map_of_mem hs)
  simp at this

/-- A directory opens segment by segment, the last one with a recovery. -/
theorem FilesOf.openDirectory {dir : Directory} (h : FilesOf dir l.segments) (cfg : LogConfig)
    (salt : Salt)
    (hasc : l.segments.Pairwise (·.baseOffset < ·.baseOffset))
    (hopen : ∀ s ∈ l.segments, openFiles s.log s.index.file s.baseOffset
      cfg.indexIntervalBytes cfg.encryptionKey = .ok (s.reopened cfg.indexIntervalBytes)) :
    openDirectory cfg dir salt = .ok { l.reopened cfg with orphans := leftover dir } := by
  have hsorted : dir.logs.insertionSort (·.1 ≤ ·.1) = dir.logs := by
    rw [h.logs]
    refine List.Pairwise.insertionSort_eq (pairwise_map.mpr ?_)
    exact hasc.imp fun hlt => Int.le_of_lt hlt
  have hmap : dir.logs.mapM (fun file => openFiles file.2
      (indexOf dir.indexes file.1) file.1 cfg.indexIntervalBytes cfg.encryptionKey) =
      .ok (l.segments.map (·.reopened cfg.indexIntervalBytes)) := by
    rw [h.logs]
    refine mapM_ok (forall₂_map_left_iff.mpr (forall₂_map_right_iff.mpr ?_))
    refine forall₂_same.mpr fun s hs => ?_
    dsimp only
    rw [h.indexes s hs]
    exact hopen s hs
  have hhead : ((l.older.map (·.reopened cfg.indexIntervalBytes)).headD
      (l.active.reopened cfg.indexIntervalBytes).recover.1).baseOffset =
      (l.older.headD l.active).baseOffset := by
    cases l.older with
    | nil => exact (cutAt_fields _ _).1
    | cons s older => rfl
  unfold PartitionLog.openDirectory
  rw [hsorted]
  dsimp only
  rw [hmap]
  dsimp only
  rw [segments, map_append, map_singleton, getLast?_concat]
  dsimp only
  rw [dropLast_concat, hhead]
  rfl

/-- No segment of the log is taken for one of the other kind. -/
def Recognisable (l : PartitionLog) : Prop := ∀ s ∈ l.segments, s.Recognisable

instance : DecidablePred Recognisable := fun l =>
  inferInstanceAs (Decidable (∀ s ∈ l.segments, s.Recognisable))

/-- The files of a log whose active segment may have been cut in the middle of a frame. -/
structure Laid (l : PartitionLog) (g : Nexus.PartitionLog) (bs : List RecordBatch) (tail : Bytes) :
    Prop where
  holds : g.Holds bs
  older : List.Forall₂ (Represents l.cfg.encryptionKey) l.older g.older
  base : l.active.baseOffset = g.active.baseOffset
  active : l.active.Torn l.cfg.encryptionKey g.active.blocks tail
  anchored : ∃ size start blocks, l.active.index.Anchored size start blocks
  nonneg : 0 ≤ g.logStartOffset

/-- The same, with offsets so low that the segments are recognisable. -/
structure Cut (l : PartitionLog) (g : Nexus.PartitionLog) (bs : List RecordBatch) (tail : Bytes) :
    Prop extends Laid l g bs tail where
  bound : g.logEndOffset < 2 ^ 45

variable {tail : Bytes}

theorem Models.toLaid (h : l.Models g) (hg : g.Holds bs) (hnonneg : 0 ≤ l.logStartOffset) :
    l.Laid g bs [] :=
  ⟨hg, h.older, h.active.baseOffset, h.active.stores.toTorn, ⟨_, _, _, h.active.stores.anchored⟩,
    by rwa [← h.logStart]⟩

theorem Models.toCut (h : l.Models g) (hg : g.Holds bs) (hnonneg : 0 ≤ l.logStartOffset)
    (hbound : l.logEndOffset < 2 ^ 45) : l.Cut g bs [] :=
  ⟨h.toLaid hg hnonneg, by rwa [← h.logEnd]⟩

theorem Holds.cut (h : l.Holds bs) : ∃ g, l.Cut g bs [] ∧ l.logStartOffset = g.logStartOffset := by
  obtain ⟨g, hm, hg⟩ := h.models
  exact ⟨g, hm.toCut hg h.nonneg h.bound, hm.logStart⟩

theorem Laid.map_baseOffset (h : l.Laid g bs tail) :
    l.segments.map baseOffset = g.segments.map Nexus.Segment.baseOffset := by
  have holder : l.older.map baseOffset = g.older.map Nexus.Segment.baseOffset :=
    forall₂_eq_eq_eq ▸ forall₂_map_left_iff.mpr
      (forall₂_map_right_iff.mpr (h.older.imp fun _ _ hrep => hrep.baseOffset))
  rw [segments, Nexus.PartitionLog.segments, map_append, map_append, holder,
    map_singleton, map_singleton, h.base]

theorem Laid.ascending (h : l.Laid g bs tail) :
    l.segments.Pairwise (·.baseOffset < ·.baseOffset) := by
  have hasc : (g.segments.map Nexus.Segment.baseOffset).Pairwise (· < ·) :=
    pairwise_map.mpr h.holds.ascending
  rw [← h.map_baseOffset] at hasc
  exact pairwise_map.mp hasc

/-- Every segment file has its segment of blocks. -/
theorem exists_represents {ss : List Segment} {ts : List Nexus.Segment}
    (h : List.Forall₂ (Represents key) ss ts) : ∀ s ∈ ss, ∃ t ∈ ts, Represents key s t := by
  induction h with
  | nil => simp
  | cons hs _ ih =>
    intro s hmem
    rcases mem_cons.mp hmem with rfl | hmem
    · exact ⟨_, mem_cons_self, hs⟩
    · obtain ⟨t, ht, hrep⟩ := ih s hmem
      exact ⟨t, .tail _ ht, hrep⟩

/-- Every segment file stands for a segment of blocks, whole or torn. -/
theorem Laid.exists_torn (h : l.Laid g bs tail) (hs : s ∈ l.segments) :
    (∃ t ∈ g.segments, s.baseOffset = t.baseOffset ∧
      ∃ tail, s.Torn l.cfg.encryptionKey t.blocks tail) ∧
      ∃ size start blocks, s.index.Anchored size start blocks := by
  rcases mem_append.mp hs with hs | hs
  · obtain ⟨t, ht, hrep⟩ := exists_represents h.older s hs
    exact ⟨⟨t, mem_append_left _ ht, hrep.baseOffset, [], hrep.stores.toTorn⟩, _, _, _,
      hrep.stores.anchored⟩
  · obtain rfl := mem_singleton.mp hs
    exact ⟨⟨g.active, mem_append_right _ mem_cons_self, h.base, tail, h.active⟩,
      h.anchored⟩

theorem Cut.recognisable (h : l.Cut g bs tail) : l.Recognisable := by
  intro s hs
  obtain ⟨⟨t, ht, hbase, tail, htorn⟩, -⟩ := h.toLaid.exists_torn hs
  have hle := h.holds.layout.endOf_le t ht
  rw [h.holds.blocks, ← h.holds.logEnd] at hle
  refine htorn.recognisable ?_ ?_
  · rw [hbase]
    exact Int.le_trans h.nonneg (h.holds.layout.le_baseOffset t ht)
  · rw [hbase]
    exact Int.lt_of_le_of_lt hle h.bound

theorem Laid.openFiles (h : l.Laid g bs tail) (hrec : l.Recognisable) (hs : s ∈ l.segments)
    (interval : Nat) :
    openFiles s.log s.index.file s.baseOffset interval l.cfg.encryptionKey =
      .ok (s.reopened interval) := by
  obtain ⟨⟨t, -, -, tail, htorn⟩, size, start, blocks, hanchored⟩ := h.exists_torn hs
  exact htorn.openFiles (hrec s hs) (hanchored.openFile interval)

theorem Cut.openFiles (h : l.Cut g bs tail) (hs : s ∈ l.segments) (interval : Nat) :
    openFiles s.log s.index.file s.baseOffset interval l.cfg.encryptionKey =
      .ok (s.reopened interval) :=
  h.toLaid.openFiles h.recognisable hs interval

/-- The files of a log, with nothing left over, open as the log up to the cut. -/
theorem Laid.openDirectory_files (h : l.Laid g bs tail) (hrec : l.Recognisable)
    (hkey : cfg.encryptionKey = l.cfg.encryptionKey) (horphans : l.orphans = []) (salt : Salt) :
    openDirectory cfg l.files salt = .ok (l.reopened cfg) := by
  rw [(filesOf_files h.ascending).openDirectory cfg salt h.ascending fun s hs => by
    rw [hkey]
    exact h.openFiles hrec hs cfg.indexIntervalBytes, leftover_files horphans]
  rfl

theorem Cut.openDirectory_files (h : l.Cut g bs tail)
    (hkey : cfg.encryptionKey = l.cfg.encryptionKey) (horphans : l.orphans = []) (salt : Salt) :
    openDirectory cfg l.files salt = .ok (l.reopened cfg) :=
  h.toLaid.openDirectory_files h.recognisable hkey horphans salt

/-- What is opened is the log up to the cut. -/
theorem Laid.reopened (h : l.Laid g bs tail) (hkey : cfg.encryptionKey = l.cfg.encryptionKey) :
    (l.reopened cfg).Contains bs ∧ (l.reopened cfg).logStartOffset = g.logStartOffset ∧
      (l.reopened cfg).logEndOffset = g.logEndOffset := by
  have htorn := h.active.reopened cfg.indexIntervalBytes
  obtain ⟨hstores, hend⟩ := htorn.recover
  obtain ⟨hbase, -, -, hstate, -⟩ := htorn.recover_fields
  have hlayout := h.holds.layout
  have hflat := h.holds.blocks
  have hstart : (l.reopened cfg).logStartOffset = g.logStartOffset := by
    change (l.older.headD l.active).baseOffset = _
    rw [baseOffset_headD h.older h.base]
    exact hlayout.baseOffset_headD
  have hlast : (l.reopened cfg).logEndOffset = g.logEndOffset := by
    change (l.active.reopened cfg.indexIntervalBytes).recover.2 + 1 = _
    rw [hend, Int.sub_add_cancel]
    change endOf l.active.baseOffset _ = _
    rw [h.base, h.holds.endOf_active]
  refine ⟨⟨⟨g, ⟨?_, ⟨hbase.trans h.base, ?_⟩, hstate, hstart, hlast⟩, h.holds⟩, rfl, ?_⟩,
    hstart, hlast⟩
  · change List.Forall₂ (Represents cfg.encryptionKey) (l.older.map _) g.older
    rw [hkey]
    exact forall₂_map_left_iff.mpr (h.older.imp fun _ _ hrep => hrep.reopened _)
  · change Segment.Stores cfg.encryptionKey _ _
    rw [hkey]
    exact hstores
  · rw [hstart]
    exact h.nonneg

theorem Cut.reopened (h : l.Cut g bs tail) (hkey : cfg.encryptionKey = l.cfg.encryptionKey) :
    (l.reopened cfg).Holds bs ∧ (l.reopened cfg).logStartOffset = g.logStartOffset := by
  obtain ⟨hcontains, hstart, hend⟩ := h.toLaid.reopened hkey
  exact ⟨⟨hcontains, hend ▸ h.bound⟩, hstart⟩

/-- Opening once more changes nothing. -/
theorem Laid.reopened_reopened (h : l.Laid g bs tail) (cfg : LogConfig) :
    (l.reopened cfg).reopened cfg = l.reopened cfg := by
  have hrec := h.active.recover_reopened cfg.indexIntervalBytes
  obtain ⟨hbase, -⟩ := (h.active.reopened cfg.indexIntervalBytes).recover_fields
  have hmap : (l.older.map (·.reopened cfg.indexIntervalBytes)).map
      (·.reopened cfg.indexIntervalBytes) = l.older.map (·.reopened cfg.indexIntervalBytes) := by
    rw [map_map]
    rfl
  have hhead : ((l.reopened cfg).older.headD (l.reopened cfg).active).baseOffset =
      (l.older.headD l.active).baseOffset := by
    dsimp only [PartitionLog.reopened]
    cases l.older with
    | nil => exact hbase
    | cons s older => rfl
  unfold PartitionLog.reopened at hhead ⊢
  dsimp only at hhead ⊢
  rw [hmap, hhead, hrec]

theorem Holds.recognisable (h : l.Holds bs) : l.Recognisable := by
  obtain ⟨g, hcut, -⟩ := h.cut
  exact hcut.recognisable

theorem Contains.reopen (h : l.Contains bs) (hrec : l.Recognisable)
    (hkey : cfg.encryptionKey = l.cfg.encryptionKey) (salt : Salt) :
    ∃ l', openDirectory cfg l.files salt = .ok l' ∧ l'.Contains bs ∧
      l'.logStartOffset = l.logStartOffset ∧ l'.cfg = cfg := by
  obtain ⟨g, hm, hg⟩ := h.models
  have hlaid := hm.toLaid hg h.nonneg
  obtain ⟨hcontains, hstart, -⟩ := hlaid.reopened hkey
  exact ⟨_, hlaid.openDirectory_files hrec hkey h.orphans salt, hcontains,
    hstart.trans hm.logStart.symm, rfl⟩

theorem Holds.reopen (h : l.Holds bs) (hkey : cfg.encryptionKey = l.cfg.encryptionKey)
    (salt : Salt) :
    ∃ l', openDirectory cfg l.files salt = .ok l' ∧ l'.Holds bs ∧
      l'.logStartOffset = l.logStartOffset ∧ l'.cfg = cfg := by
  obtain ⟨l', hl', hcontains, hstart, hcfg⟩ := h.toContains.reopen h.recognisable hkey salt
  have hend : l'.logEndOffset = l.logEndOffset := by
    rw [hcontains.logEnd, hstart, h.logEnd]
  exact ⟨l', hl', ⟨hcontains, hend ▸ h.bound⟩, hstart, hcfg⟩

/-- A directory without files opens as an empty log. -/
theorem holds_openDirectory_nil (cfg : LogConfig) (salt : Salt) :
    ∃ l, openDirectory cfg {} salt = .ok l ∧ l.Holds [] ∧ l.logStartOffset = 0 ∧ l.cfg = cfg := by
  obtain ⟨s, hs, hstores, hbase, hstate⟩ := stores_create 0 cfg.indexIntervalBytes
    cfg.encryptionKey salt
  have hopen : openDirectory cfg {} salt = .ok
      { cfg, older := [], active := s, logStartOffset := 0, logEndOffset := 0,
        recoveryPoint := 0 } := by
    change (create [] [] 0 cfg.indexIntervalBytes cfg.encryptionKey salt).map _ = _
    rw [hs]
    rfl
  refine ⟨_, hopen, ⟨⟨⟨.create {}, ⟨.nil, ⟨hbase, hstores⟩, hstate, rfl, rfl⟩,
    Nexus.PartitionLog.holds_create _⟩, rfl, Int.le_refl 0⟩,
    (by decide : (0 : Int) < 2 ^ 45)⟩, rfl, rfl⟩

end Nexus.Raw.PartitionLog
