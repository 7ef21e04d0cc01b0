import Mathlib.Data.List.Sort
import Nexus.Lib.Run
import Nexus.Consensus.LogView

/-!
# The files of a Raft log

A Raft log lives in three kinds of files: a `.log` for each segment, the sidecar `raft-meta` with a
record for each live entry, and `raft-meta.snap` with the base of the snapshot. Each call on the
log is a list of operations on these files, in the order of the source (`Call.ops`), and a crash
between two of them leaves what the first ones did. `RaftLog.openFiles` is `PartitionLog::open`
followed by `RaftLog::open`.

The sparse `.index` of a segment is derived from its `.log`: what is left of one never changes what
is recovered, and its operations are left out.
-/

namespace Nexus

open Lib Segment List

/-- A `.log` file; its name is the base offset. -/
structure LogFile where
  baseOffset : Int
  blocks : List RecordBatch := []
  deriving DecidableEq

/-- The contents of `raft-meta.snap`; an empty file reads as no snapshot. -/
structure SnapshotBase where
  index : Nat := 0
  term : Nat := 0
  lastOffset : Int := 0
  deriving DecidableEq

structure Disk where
  /-- The `.log` files of the directory. -/
  logs : List LogFile := []
  /-- The records of `raft-meta`. -/
  metas : List EntryMeta := []
  snap : SnapshotBase := {}
  deriving DecidableEq

inductive FileOp
  | createLog (base : Int)
  | writeLog (base : Int) (block : RecordBatch)
  | truncateLog (base : Int) (blocks : Nat)
  | removeLog (base : Int)
  | syncLog (base : Int)
  | writeMeta (slot : Nat) (entry : EntryMeta)
  | truncateMeta (count : Nat)
  | syncMeta
  | writeSnap (snapshot : SnapshotBase)
  | syncSnap
  deriving DecidableEq

namespace FileOp

def savesSnapshot : FileOp → Bool
  | writeSnap _ => true
  | _ => false

def cutsRecords : FileOp → Bool
  | truncateMeta _ => true
  | _ => false

end FileOp

/-- A positional write of one record; a gap before it reads as records of zero bytes. -/
def writeRecord (metas : List EntryMeta) (slot : Nat) (entry : EntryMeta) : List EntryMeta :=
  metas.take slot ++ List.replicate (slot - metas.length) ({} : EntryMeta) ++
    entry :: metas.drop (slot + 1)

namespace Disk

/-- Changes the `.log` with the given name. -/
def modifyLog (d : Disk) (base : Int) (f : List RecordBatch → List RecordBatch) : Disk :=
  { d with logs := d.logs.map fun file =>
      if file.baseOffset = base then { file with blocks := f file.blocks } else file }

def apply (d : Disk) : FileOp → Disk
  | .createLog base =>
    if d.logs.any (·.baseOffset == base) then d
    else { d with logs := d.logs ++ [{ baseOffset := base }] }
  | .writeLog base block => d.modifyLog base (· ++ [block])
  | .truncateLog base blocks => d.modifyLog base (·.take blocks)
  | .removeLog base => { d with logs := d.logs.filter (·.baseOffset ≠ base) }
  | .writeMeta slot entry => { d with metas := writeRecord d.metas slot entry }
  | .truncateMeta count => { d with metas := d.metas.take count }
  | .writeSnap snapshot => { d with snap := snapshot }
  | .syncLog _ | .syncMeta | .syncSnap => d

end Disk

/-! ## The operations of each call -/

namespace PartitionLog

def rollOps (l : PartitionLog) : List FileOp :=
  if l.mustRoll then [.syncLog l.active.baseOffset, .createLog l.logEndOffset] else []

/-- The `fsync` of `maybe_sync`, for a log that has just written to `base`. -/
def syncOps (l : PartitionLog) (base : Int) (appendedBytes : Nat) : List FileOp :=
  match l.cfg.fsyncPolicy with
  | .none => []
  | .commit => [.syncLog base]
  | .interval =>
    if l.bytesSinceSync + appendedBytes ≥ l.cfg.fsyncIntervalBytes then [.syncLog base] else []

def appendOps (l : PartitionLog) (batch : RecordBatch) : List FileOp :=
  let rebased := batch.rebase l.logEndOffset
  let base := l.rolled.active.baseOffset
  l.rollOps ++ .writeLog base rebased :: l.rolled.syncOps base rebased.encodedSize

/-- The segments after the one that holds the offset. -/
def laterThan (l : PartitionLog) (offset : Int) : List Segment :=
  l.segments.drop ((seek offset l.older l.active).1.length + 1)

def removeOps (segs : List Segment) : List FileOp := segs.map fun s => .removeLog s.baseOffset

def truncateToOps (l : PartitionLog) (offset : Int) : List FileOp :=
  if offset ≥ l.logEndOffset ∨ offset < l.logStartOffset then []
  else
    let target := (seek offset l.older l.active).2
    removeOps (l.laterThan offset) ++
      match target.positionOf offset with
      | .error _ => []
      | .ok k => if k < target.blocks.length then [.truncateLog target.baseOffset k] else []

/-- The segments that `truncate_prefix_to` drops. -/
def droppedBy (l : PartitionLog) (offset : Int) : List Segment :=
  if offset ≤ l.logStartOffset ∨ offset > l.logEndOffset then []
  else l.older.take (l.older.length - (dropPrefix offset l.older l.active).length)

def truncatePrefixToOps (l : PartitionLog) (offset : Int) : List FileOp :=
  removeOps (l.droppedBy offset)

def resetToOps (l : PartitionLog) (offset : Int) : List FileOp :=
  if offset < 0 then [] else removeOps l.segments ++ [.createLog offset]

end PartitionLog

namespace RaftLog

def appendOps : RaftLog → List RaftLogEntry → List FileOp
  | _, [] => []
  | r, entry :: rest =>
    match r.log.append entry.payload with
    | .error _ => []
    | .ok (log, last) =>
      let entryMeta : EntryMeta :=
        { term := entry.term, baseOffset := r.log.logEndOffset, lastOffset := last,
          type := entry.type }
      r.log.appendOps entry.payload ++ .writeMeta r.entries.length entryMeta ::
        appendOps { r with log, entries := r.entries ++ [entryMeta] } rest

def truncateFromOps (r : RaftLog) (index : Nat) : List FileOp :=
  if index < 1 ∨ index ≤ r.snapshotIndex ∨ index > r.lastIndex then []
  else match r.entries[r.slotOf index]? with
    | none => []
    | some entry =>
      r.log.truncateToOps entry.baseOffset ++
        match r.log.truncateTo entry.baseOffset with
        | .error _ => []
        | .ok _ => [.truncateMeta (r.slotOf index)]

def persistSnapshotOps (snapshot : SnapshotBase) : List FileOp := [.writeSnap snapshot, .syncSnap]

/-- The records written from `slot` on. -/
def writeMetas : Nat → List EntryMeta → List FileOp
  | _, [] => []
  | slot, entry :: rest => .writeMeta slot entry :: writeMetas (slot + 1) rest

def rewriteMetaOps (entries : List EntryMeta) : List FileOp :=
  writeMetas 0 entries ++ [.truncateMeta entries.length, .syncMeta]

def compactToOps (r : RaftLog) (upToIndex : Nat) : List FileOp :=
  if upToIndex ≤ r.snapshotIndex then []
  else match r.entries[r.slotOf upToIndex]? with
    | none => []
    | some boundary =>
      match r.log.truncatePrefixTo (boundary.lastOffset + 1) with
      | .error _ => []
      | .ok _ =>
        r.log.truncatePrefixToOps (boundary.lastOffset + 1) ++
          persistSnapshotOps
            { index := upToIndex, term := boundary.term, lastOffset := boundary.lastOffset } ++
          rewriteMetaOps (r.entries.drop (r.slotOf upToIndex + 1))

def resetToOps (r : RaftLog) (index : Nat) (term : Nat) (lastOffset : Int) : List FileOp :=
  if lastOffset + 1 < 0 then []
  else r.log.resetToOps (lastOffset + 1) ++ persistSnapshotOps { index, term, lastOffset } ++
    rewriteMetaOps []

def installSnapshotOps (r : RaftLog) (index : Nat) (term : Nat) (lastOffset : Int) :
    List FileOp :=
  if index ≤ r.snapshotIndex then []
  else if r.holds index term then r.compactToOps index
  else r.resetToOps index term lastOffset

end RaftLog

/-- A call on a Raft log. -/
inductive Call
  | append (entries : List RaftLogEntry)
  | truncateFrom (index : Nat)
  | compactTo (index : Nat)
  | installSnapshot (index : Nat) (term : Nat) (lastOffset : Int)
  deriving DecidableEq

namespace Call

/-- The log after the call, when no file operation fails. A refused call leaves it alone. -/
def result (r : RaftLog) : Call → RaftLog
  | .append entries => (r.append none entries).1
  | .truncateFrom index => (r.truncateFrom index).toOption.getD r
  | .compactTo index => (r.compactTo index).toOption.getD r
  | .installSnapshot index term lastOffset =>
    (r.installSnapshot .done index term lastOffset).1

def ops (r : RaftLog) : Call → List FileOp
  | .append entries => r.appendOps entries
  | .truncateFrom index => r.truncateFromOps index
  | .compactTo index => r.compactToOps index
  | .installSnapshot index term lastOffset => r.installSnapshotOps index term lastOffset

end Call

/-! ## Opening -/

def LogFile.segment (file : LogFile) : Segment :=
  { baseOffset := file.baseOffset, blocks := file.blocks }

/-- `PartitionLog::open`: the `.log` files in the order of their names. The last one is the active
segment, and tells where the log ends. -/
def PartitionLog.openFiles (cfg : LogConfig) (files : List LogFile) : PartitionLog :=
  let segments := (files.insertionSort (·.baseOffset ≤ ·.baseOffset)).map LogFile.segment
  match segments.getLast? with
  | none => .create cfg
  | some active =>
    { cfg
      older := segments.dropLast
      active
      logStartOffset := (segments.dropLast.headD active).baseOffset
      logEndOffset := active.recover + 1
      recoveryPoint := active.recover + 1 }

/-- Where the partition log should end, by the sidecars, if it starts at `start`. -/
def Disk.expectedEnd (d : Disk) (start : Int) : Int :=
  match d.metas.getLast? with
  | some last => last.lastOffset + 1
  | none => if 0 < d.snap.index then d.snap.lastOffset + 1 else start

/-- `RaftLog::open` on a partition log that is open. -/
def RaftLog.openSidecars (log : PartitionLog) (d : Disk) : Expected RaftLog :=
  if 0 < d.snap.index ∧
      ∃ first ∈ d.metas.head?, first.baseOffset ≠ d.snap.lastOffset + 1 then
    makeError .corrupt "RaftLog: primera entrada incoherente con el snapshot"
  else if d.expectedEnd log.logStartOffset ≠ log.logEndOffset then
    makeError .corrupt "RaftLog: sidecar incoherente con el PartitionLog"
  else .ok { log, entries := d.metas, snapshotIndex := d.snap.index,
             snapshotTerm := d.snap.term, snapshotLastOffset := d.snap.lastOffset }

def RaftLog.openFiles (cfg : LogConfig) (d : Disk) : Expected RaftLog :=
  openSidecars (.openFiles cfg d.logs) d

/-- What the users of a log see of it: the base of its snapshot and its live entries. -/
structure RaftLog.Shown where
  snapshot : SnapshotBase
  entries : Expected (List RaftLogEntry)
  deriving DecidableEq

def RaftLog.snapshotBase (r : RaftLog) : SnapshotBase :=
  { index := r.snapshotIndex, term := r.snapshotTerm, lastOffset := r.snapshotLastOffset }

def RaftLog.shown (r : RaftLog) : RaftLog.Shown :=
  { snapshot := r.snapshotBase
    entries := r.entriesFrom (r.snapshotIndex + 1) r.entries.length }

/-! ## Files and segments -/

def Segment.file (s : Segment) : LogFile := { baseOffset := s.baseOffset, blocks := s.blocks }

/-- Removing files leaves those of the other segments. -/
theorem run_removeOps {xs ys zs : List Segment} (h : Ascending (xs ++ (ys ++ zs))) {d : Disk}
    (hd : d.logs = (xs ++ (ys ++ zs)).map file) :
    run Disk.apply d (PartitionLog.removeOps ys) =
      { d with logs := (xs ++ zs).map file } := by
  induction ys generalizing d with
  | nil => rw [nil_append] at hd; rw [← hd]; rfl
  | cons y ys ih =>
    have hne : ∀ s ∈ xs ++ (ys ++ zs), s.baseOffset ≠ y.baseOffset := by
      intro s hs
      rcases mem_append.mp hs with hs | hs
      · exact Int.ne_of_lt ((pairwise_append.mp h).2.2 s hs y mem_cons_self)
      · have := (pairwise_cons.mp (pairwise_append.mp h).2.1).1 s hs
        omega
    have hrest : Ascending (xs ++ (ys ++ zs)) :=
      List.Pairwise.sublist ((sublist_cons_self _ _).append_left _) h
    have hlogs : (d.apply (.removeLog y.baseOffset)).logs =
        (xs ++ (ys ++ zs)).map file := by
      simp only [Disk.apply, hd, map_append, cons_append, map_cons,
        filter_append]
      rw [filter_cons_of_neg (by simp [file]), ← filter_append,
        ← map_append, ← map_append]
      refine filter_eq_self.mpr fun f hf => ?_
      obtain ⟨s, hs, rfl⟩ := mem_map.mp hf
      exact decide_eq_true (hne s hs)
    change run Disk.apply (d.apply (.removeLog y.baseOffset)) (PartitionLog.removeOps ys) = _
    rw [ih hrest hlogs]
    rfl

theorem run_removeOps_front {ys zs : List Segment} (h : Ascending (ys ++ zs)) {d : Disk}
    (hd : d.logs = (ys ++ zs).map file) :
    run Disk.apply d (PartitionLog.removeOps ys) = { d with logs := zs.map file } :=
  @run_removeOps [] ys zs h d hd

/-! ## What is recovered -/

variable {o : Int}

theorem Segment.recover_eq {s : Segment} (hbase : s.baseOffset = o) :
    s.recover + 1 = endOf o s.blocks := by
  unfold recover
  rcases eq_nil_or_concat s.blocks with hnil | ⟨bs, b, hb⟩
  · rw [hnil, getLast?_nil]
    simp [hbase]
  · rw [hb, concat_eq_append, getLast?_append, endOf_append]
    rfl

variable {older : List Segment} {active : Segment}

/-- Files whose names go up open as their segments. -/
theorem PartitionLog.openFiles_eq (cfg : LogConfig) (h : Ascending (older ++ [active])) :
    openFiles cfg ((older ++ [active]).map file) =
      { cfg
        older := older.map fun s => s.file.segment
        active := active.file.segment
        logStartOffset := (older.headD active).baseOffset
        logEndOffset := active.recover + 1
        recoveryPoint := active.recover + 1 } := by
  have hsorted : ((older ++ [active]).map file).insertionSort
      (·.baseOffset ≤ ·.baseOffset) = (older ++ [active]).map file := by
    refine List.Pairwise.insertionSort_eq (pairwise_map.mpr ?_)
    exact List.Pairwise.imp (fun hlt => Int.le_of_lt hlt) h
  unfold openFiles
  rw [hsorted]
  have hhead : ((older.map fun s => s.file.segment).headD active.file.segment).baseOffset =
      (older.headD active).baseOffset := by
    cases older <;> rfl
  simp only [map_append, map_cons, map_nil, map_map, getLast?_append,
    getLast?_singleton, Option.some_or, dropLast_concat]
  change PartitionLog.mk cfg (older.map fun s => s.file.segment) _ _ _ _ _ = _
  rw [← hhead]
  rfl

theorem layout_map_file {segs : List Segment} :
    Layout o (segs.map fun s => s.file.segment) ↔ Layout o segs := by
  induction segs generalizing o with
  | nil => exact Iff.rfl
  | cons s segs ih =>
    rw [map_cons, layout_cons, layout_cons]
    exact and_congr_right fun _ => and_congr_right fun _ => ih

theorem flat_map_file (segs : List Segment) :
    flat (segs.map fun s => s.file.segment) = flat segs := by
  induction segs with
  | nil => rfl
  | cons s segs ih =>
    rw [map_cons, flat_cons, flat_cons, ih]
    rfl

/-- Segments that follow one another are recovered with all their batches. -/
theorem PartitionLog.openFiles_holds (cfg : LogConfig)
    (h : Layout o (older ++ [active])) (hne : ∀ s ∈ older, s.blocks ≠ []) :
    (openFiles cfg ((older ++ [active]).map file)).Holds (flat (older ++ [active])) ∧
    (openFiles cfg ((older ++ [active]).map file)).logStartOffset = o := by
  have hstart := h.baseOffset_headD
  have hactive : active.baseOffset = endOf o (flat older) := by
    rw [layout_append] at h
    exact h.2.1
  rw [openFiles_eq cfg (h.ascending hne), hstart]
  refine ⟨⟨?_, ?_, ?_, rfl, ?_⟩, rfl⟩
  · have := (layout_map_file (o := o)).mpr h
    rw [map_append] at this
    exact this
  · have := flat_map_file (older ++ [active])
    rw [map_append] at this
    exact this
  · dsimp only
    rw [recover_eq hactive, flat_append, endOf_append, flat_cons, flat_nil,
      append_nil]
  · intro s hs
    obtain ⟨t, ht, rfl⟩ := mem_map.mp hs
    exact hne t ht

namespace RaftLog

variable {r : RaftLog} {full : List LogEntry}

section

variable (h : r.View full) {d : Disk} {log : PartitionLog} {k : Nat}

include h

theorem View.shown :
    r.shown = { snapshot := r.snapshotBase
                entries := .ok (wire (r.snapshotIndex + 1) (full.drop r.snapshotIndex)) } := by
  unfold RaftLog.shown
  rw [h.entriesFrom (Nat.le_refl _), take_of_length_le]
  rw [h.entries, length_map]

/-- Where the log of a view ends, by its sidecars. -/
theorem View.expectedEnd (hmetas : d.metas = r.entries)
    (hsnap : d.snap = r.snapshotBase) {start : Int} (hstart : full = [] → start = 0) :
    d.expectedEnd start = endOf 0 (batches full) := by
  have hend : ∀ e, full.getLast? = some e → endOf 0 (batches full) = e.batch.lastOffset + 1 := by
    intro e he
    rw [getLast?_eq_getElem?] at he
    have hpos := (List.getElem?_eq_some_iff.mp he).1
    have := endOf_take_succ (o := 0) (batches_getElem? he)
    rwa [Nat.sub_add_cancel (by omega), take_of_length_le (by simp)] at this
  unfold Disk.expectedEnd
  rw [hmetas, hsnap, h.entries, getLast?_map]
  by_cases hlive : r.snapshotIndex < full.length
  · rw [getLast?_drop, if_neg (by omega)]
    cases hl : full.getLast? with
    | none => rw [getLast?_eq_none_iff] at hl; simp [hl] at hlive
    | some e => exact (hend e hl).symm
  · have heq : r.snapshotIndex = full.length := Nat.le_antisymm h.covered (by omega)
    rw [drop_of_length_le (by omega)]
    change (if 0 < r.snapshotIndex then r.snapshotLastOffset + 1 else start) = _
    by_cases hpos : 0 < r.snapshotIndex
    · obtain ⟨e, he⟩ : ∃ e, full[r.snapshotIndex - 1]? = some e :=
        ⟨_, getElem?_eq_getElem (by omega)⟩
      rw [if_pos hpos, (h.snapshot e hpos he).2, hend e]
      rw [getLast?_eq_getElem?, ← heq]
      exact he
    · have hnil : full = [] := eq_nil_of_length_eq_zero (by omega)
      rw [if_neg hpos, hstart hnil, hnil]
      rfl

/-- The first live entry follows the snapshot. -/
theorem View.first_baseOffset {first : EntryMeta} (hpos : 0 < r.snapshotIndex)
    (hf : r.entries.head? = some first) : first.baseOffset = r.snapshotLastOffset + 1 := by
  rw [h.entries, List.head?_map, List.head?_drop] at hf
  obtain ⟨e, he, rfl⟩ := Option.map_eq_some_iff.mp hf
  have hlen := (List.getElem?_eq_some_iff.mp he).1
  obtain ⟨last, hlast⟩ : ∃ last, full[r.snapshotIndex - 1]? = some last :=
    ⟨_, List.getElem?_eq_getElem (by omega)⟩
  have hbase := h.chain.baseOffset_getElem (batches_getElem? he)
  have hend := endOf_take_succ (o := 0) (batches_getElem? hlast)
  rw [Nat.sub_add_cancel hpos] at hend
  rw [(h.snapshot last hpos hlast).2, ← hend]
  exact hbase

/-- The sidecars of a view, over a partition log that still has its live entries, open as it. -/
theorem View.openSidecars_eq (hmetas : d.metas = r.entries) (hsnap : d.snap = r.snapshotBase)
    (hk : k ≤ r.snapshotIndex) (hlog : log.Holds ((batches full).drop k))
    (hstart : log.logStartOffset = endOf 0 ((batches full).take k)) :
    RaftLog.openSidecars log d = .ok { r with log } ∧ ({ r with log } : RaftLog).View full := by
  have hfirst : ¬ (0 < d.snap.index ∧
      ∃ first ∈ d.metas.head?, first.baseOffset ≠ d.snap.lastOffset + 1) := by
    rw [hmetas, hsnap]
    rintro ⟨hpos, first, hf, hne⟩
    exact hne (h.first_baseOffset hpos hf)
  have hend : log.logEndOffset = endOf 0 (batches full) := by
    rw [hlog.logEnd, hstart, ← endOf_append, take_append_drop]
  have hexpected : d.expectedEnd log.logStartOffset = endOf 0 (batches full) := by
    refine h.expectedEnd hmetas hsnap ?_
    rintro rfl
    rw [hstart]
    simp
  refine ⟨?_, h.chain, h.covered, h.entries, h.snapshot, k, hk, hlog, hstart⟩
  unfold RaftLog.openSidecars
  rw [if_neg hfirst, hexpected, hend, if_neg (by simp), hmetas, hsnap]
  rfl

theorem View.openSidecars (hmetas : d.metas = r.entries) (hsnap : d.snap = r.snapshotBase)
    (hk : k ≤ r.snapshotIndex) (hlog : log.Holds ((batches full).drop k))
    (hstart : log.logStartOffset = endOf 0 ((batches full).take k)) :
    ∃ r', RaftLog.openSidecars log d = .ok r' ∧ r'.shown = r.shown := by
  obtain ⟨hopen, hview⟩ := h.openSidecars_eq hmetas hsnap hk hlog hstart
  refine ⟨_, hopen, ?_⟩
  rw [hview.shown, h.shown]
  rfl

end

end RaftLog

end Nexus
