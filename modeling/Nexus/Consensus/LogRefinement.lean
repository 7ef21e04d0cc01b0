import Nexus.Consensus.Persist

/-!
# The Raft log is a snapshot base and a list of entries

`AbstractLog` is a Raft log as a value: the base of its snapshot and the entries above it. The log
of the source splits that value between the records in memory, the sidecar files and the segments
of a partition log. `RaftLog.Refines` relates the two, and each step keeps them related:

* `Refines.append`, `Refines.truncateFrom`, `Refines.compactTo`, `Refines.installSnapshot`: the log
  after the call, and the files after all its operations.
* `Refines.reopen`: what `RaftLog::open` finds in the files.
* `raftLog_refines`: whole runs.

A snapshot is installed with whatever index, term and offset the caller passes: nothing is known
here of the entries that it covers.
-/

namespace Nexus

open Lib List

/-! ## The abstract log -/

structure AbstractLog where
  snapshot : SnapshotBase := {}
  /-- The entries above the snapshot. -/
  entries : List LogEntry := []
  deriving DecidableEq

namespace AbstractLog

def lastIndex (a : AbstractLog) : Nat := a.snapshot.index + a.entries.length

def lastTerm (a : AbstractLog) : Nat := (a.entries.getLast?.map LogEntry.term).getD a.snapshot.term

def entryAt (a : AbstractLog) (index : Nat) : Option LogEntry :=
  if index ≤ a.snapshot.index then none else a.entries[index - a.snapshot.index - 1]?

/-- Index 0 is the sentinel before the first entry, with term 0. -/
def termAt (a : AbstractLog) (index : Nat) : Option Nat :=
  if index = 0 then some 0
  else if index = a.snapshot.index then some a.snapshot.term
  else (a.entryAt index).map LogEntry.term

def offsetsAt (a : AbstractLog) (index : Nat) : Option (Int × Int) :=
  (a.entryAt index).map fun e => (e.batch.baseOffset, e.batch.lastOffset)

/-- At most `max` entries from `index` on; those that the snapshot covers are gone. -/
def entriesFrom (a : AbstractLog) (index max : Nat) : Option (List RaftLogEntry) :=
  if index ≤ a.snapshot.index then none
  else some (wire index ((a.entries.drop (index - a.snapshot.index - 1)).take max))

/-- Where the entries start: right after the snapshot, or at 0 when there is none. -/
def startOffset (a : AbstractLog) : Int :=
  if a.snapshot.index = 0 then 0 else a.snapshot.lastOffset + 1

def endOffset (a : AbstractLog) : Int := endOf a.startOffset (batches a.entries)

/-- The snapshot moves up to the entry at `index`. -/
def compactTo (a : AbstractLog) (index : Nat) : AbstractLog :=
  match a.entryAt index with
  | none => a
  | some e =>
    { snapshot := { index, term := e.term, lastOffset := e.batch.lastOffset }
      entries := a.entries.drop (index - a.snapshot.index) }

def step (a : AbstractLog) : Call → AbstractLog
  | .append entries => { a with entries := a.entries ++ place a.endOffset entries }
  | .truncateFrom index => { a with entries := a.entries.take (index - a.snapshot.index - 1) }
  | .compactTo index => a.compactTo index
  | .installSnapshot index term lastOffset =>
    if index ≤ a.snapshot.index then a
    else if a.termAt index = some term then a.compactTo index
    else { snapshot := { index, term, lastOffset } }

end AbstractLog

/-! ## The steps of the log -/

/-- The log after a call that succeeds. -/
def Call.outcome (r : RaftLog) : Call → Option RaftLog
  | .append entries =>
    if (r.append none entries).2.toBool then some (r.append none entries).1 else none
  | .truncateFrom index => (r.truncateFrom index).toOption
  | .compactTo index => (r.compactTo index).toOption
  | .installSnapshot index term lastOffset =>
    let installed := r.installSnapshot .done index term lastOffset
    if installed.2 then some installed.1 else none

/-- A call on an open log, or a close followed by an open with some configuration. -/
inductive LogStep
  | call (c : Call)
  | reopen (cfg : LogConfig)
  deriving DecidableEq

namespace LogStep

/-- One step of the log and its files, if it succeeds. -/
def apply : RaftLog × Disk → LogStep → Option (RaftLog × Disk)
  | (r, d), .call c => (c.outcome r).map (·, run Disk.apply d (c.ops r))
  | (_, d), .reopen cfg => (RaftLog.openFiles cfg d).toOption.map (·, d)

def onAbstract (a : AbstractLog) : LogStep → AbstractLog
  | .call c => a.step c
  | .reopen _ => a

/-- The batches that are appended have records. -/
def Counted : LogStep → Prop
  | .call (.append entries) => ∀ e ∈ entries, 1 ≤ e.payload.header.recordCount
  | _ => True

instance : DecidablePred Counted
  | .call (.append entries) =>
    inferInstanceAs (Decidable (∀ e ∈ entries, 1 ≤ e.payload.header.recordCount))
  | .call (.truncateFrom _) | .call (.compactTo _) | .call (.installSnapshot ..) | .reopen _ =>
    isTrue trivial

end LogStep

theorem ok_of_toOption {α : Type} {x : Expected α} {v : α} (h : x.toOption = some v) :
    x = .ok v := by
  cases x with
  | error e => cases h
  | ok w => cases h; rfl

/-- The log after a successful call is the one that the call leaves. -/
theorem Call.result_of_outcome {r r' : RaftLog} {c : Call} (h : c.outcome r = some r') :
    c.result r = r' := by
  cases c with
  | append entries =>
    change (if _ then some (r.append none entries).1 else none) = some r' at h
    split at h
    · exact Option.some.inj h
    · cases h
  | truncateFrom index =>
    change (r.truncateFrom index).toOption.getD r = r'
    rw [show (r.truncateFrom index).toOption = some r' from h]
    rfl
  | compactTo index =>
    change (r.compactTo index).toOption.getD r = r'
    rw [show (r.compactTo index).toOption = some r' from h]
    rfl
  | installSnapshot index term lastOffset =>
    change (if _ then some (r.installSnapshot .done index term lastOffset).1 else none) =
      some r' at h
    split at h
    · exact Option.some.inj h
    · cases h

namespace RaftLog

variable {r r' : RaftLog} {a : AbstractLog} {d : Disk} {index term : Nat}

/-! ## The relation -/

structure Refines (r : RaftLog) (a : AbstractLog) : Prop where
  snapshot : r.snapshotBase = a.snapshot
  /-- Before the first snapshot nothing is known of one, and the log starts at 0. -/
  fresh : a.snapshot.index = 0 → a.snapshot = {} ∧ r.log.logStartOffset = 0
  live : ∃ pre, r.Live pre a.entries ∧ endOf r.log.logStartOffset pre = a.startOffset

theorem refines_create (cfg : LogConfig) : (RaftLog.create cfg).Refines {} where
  snapshot := rfl
  fresh _ := ⟨rfl, rfl⟩
  live := ⟨[], ⟨rfl, PartitionLog.holds_create cfg⟩, rfl⟩

section

variable (h : r.Refines a)

include h

theorem Refines.snapshotIndex : r.snapshotIndex = a.snapshot.index :=
  congrArg SnapshotBase.index h.snapshot

theorem Refines.snapshotTerm : r.snapshotTerm = a.snapshot.term :=
  congrArg SnapshotBase.term h.snapshot

theorem Refines.lastIndex : r.lastIndex = a.lastIndex := by
  obtain ⟨pre, hlive, -⟩ := h.live
  rw [RaftLog.lastIndex, hlive.entries, length_map, h.snapshotIndex, AbstractLog.lastIndex]

theorem Refines.chain : Chain a.startOffset (batches a.entries) := by
  obtain ⟨pre, hlive, hstart⟩ := h.live
  rw [← hstart]
  exact ((chain_append _ _ _).mp hlive.log.chain).2

theorem Refines.logEndOffset : r.log.logEndOffset = a.endOffset := by
  obtain ⟨pre, hlive, hstart⟩ := h.live
  rw [hlive.log.logEnd, endOf_append, hstart, AbstractLog.endOffset]

end

/-! ## The answers -/

section

variable (h : r.Refines a)

include h

theorem Refines.lastTerm : r.lastTerm = a.lastTerm := by
  obtain ⟨pre, hlive, -⟩ := h.live
  unfold RaftLog.lastTerm AbstractLog.lastTerm
  rw [hlive.entries, getLast?_map]
  cases a.entries.getLast? with
  | some e => rfl
  | none =>
    change (if r.snapshotIndex > 0 then r.snapshotTerm else 0) = a.snapshot.term
    rw [h.snapshotIndex, h.snapshotTerm]
    split
    · rfl
    · rw [(h.fresh (by omega)).1]

/-- The record of a live entry. -/
theorem Refines.getElem?_slotOf (hi : r.snapshotIndex < index) :
    r.entries[r.slotOf index]? = (a.entryAt index).map LogEntry.toMeta := by
  obtain ⟨pre, hlive, -⟩ := h.live
  rw [hlive.getElem?_slotOf, AbstractLog.entryAt, h.snapshotIndex,
    if_neg (by rw [← h.snapshotIndex]; omega)]

theorem Refines.termAt (index : Nat) :
    (r.termAt index).toOption = a.termAt index := by
  unfold RaftLog.termAt AbstractLog.termAt
  split
  · rfl
  rw [h.snapshotIndex, h.snapshotTerm]
  split
  · rfl
  split
  · rename_i hlt
    rw [AbstractLog.entryAt, if_pos (by omega)]
    rfl
  · rename_i hne hge
    rw [h.getElem?_slotOf (by rw [h.snapshotIndex]; omega)]
    cases a.entryAt index <;> rfl

theorem Refines.offsetsAt (index : Nat) :
    (r.offsetsAt index).toOption = a.offsetsAt index := by
  unfold RaftLog.offsetsAt AbstractLog.offsetsAt
  split
  · rename_i hle
    rw [AbstractLog.entryAt, if_pos (by rw [← h.snapshotIndex]; exact hle)]
    rfl
  · rename_i hgt
    rw [h.getElem?_slotOf (by omega)]
    cases a.entryAt index <;> rfl

theorem Refines.entriesFrom (index max : Nat) :
    (r.entriesFrom index max).toOption = a.entriesFrom index max := by
  unfold AbstractLog.entriesFrom
  split
  · rename_i hle
    rw [← h.snapshotIndex] at hle
    unfold RaftLog.entriesFrom
    by_cases hpos : index < 1
    · rw [if_pos hpos]; rfl
    · rw [if_neg hpos, if_pos hle]; rfl
  · rename_i hgt
    obtain ⟨pre, hlive, -⟩ := h.live
    rw [hlive.entriesFrom (by rw [h.snapshotIndex]; omega), h.snapshotIndex]
    rfl

end

/-- The log answers as the abstract one does. -/
structure Answers (r : RaftLog) (a : AbstractLog) : Prop where
  lastIndex : r.lastIndex = a.lastIndex
  lastTerm : r.lastTerm = a.lastTerm
  termAt : ∀ index, (r.termAt index).toOption = a.termAt index
  offsetsAt : ∀ index, (r.offsetsAt index).toOption = a.offsetsAt index
  entriesFrom : ∀ index max, (r.entriesFrom index max).toOption = a.entriesFrom index max

theorem Refines.answers (h : r.Refines a) : r.Answers a :=
  ⟨h.lastIndex, h.lastTerm, h.termAt, h.offsetsAt, h.entriesFrom⟩

/-! ## The steps -/

theorem Refines.append (h : r.Refines a) (hd : d.Stores r) {es : List RaftLogEntry}
    (hc : ∀ e ∈ es, 1 ≤ e.payload.header.recordCount) :
    (r.append none es).1.Refines (a.step (.append es)) ∧
    (run Disk.apply d (r.appendOps es)).Stores (r.append none es).1 := by
  obtain ⟨pre, hlive, hstart⟩ := h.live
  obtain ⟨-, hlive', hbase, hstart', hstores⟩ := hlive.append hd hc
  rw [h.logEndOffset] at hlive'
  refine ⟨⟨hbase.trans h.snapshot, fun h0 => ?_, pre, hlive', ?_⟩, hstores⟩
  · rw [hstart']
    exact h.fresh h0
  · rw [hstart']
    exact hstart

theorem Refines.truncateFrom (h : r.Refines a) (hr : r.truncateFrom index = .ok r') :
    r'.Refines (a.step (.truncateFrom index)) := by
  have hlen : r.lastIndex = a.snapshot.index + a.entries.length := h.lastIndex
  have hsnap := h.snapshotIndex
  obtain ⟨pre, hlive, hstart⟩ := h.live
  by_cases hlo : index ≤ r.snapshotIndex
  · unfold RaftLog.truncateFrom at hr
    by_cases hpos : index < 1
    · rw [if_pos hpos] at hr
      cases hr
    · rw [if_neg hpos, if_pos hlo] at hr
      cases hr
  by_cases hhi : index ≤ r.lastIndex
  · obtain ⟨k, rfl⟩ : ∃ k, index = r.snapshotIndex + k + 1 :=
      ⟨index - r.snapshotIndex - 1, by omega⟩
    obtain ⟨-, -, -, -, r'', -, -, -, -, hr'', -, -, hbase, hlive', hstart'⟩ :=
      hlive.truncateFromOps_eq (k := k) (by omega)
    rw [hr] at hr''
    cases hr''
    have hk : r.snapshotIndex + k + 1 - a.snapshot.index - 1 = k := by omega
    refine ⟨hbase.trans h.snapshot, fun h0 => ?_, pre, ?_, ?_⟩
    · rw [hstart']
      exact h.fresh h0
    · change r'.Live pre (a.entries.take _)
      rw [hk]
      exact hlive'
    · rw [hstart']
      exact hstart
  · unfold RaftLog.truncateFrom at hr
    rw [if_neg (by omega), if_neg hlo, if_pos (by omega)] at hr
    cases hr
    have hsame : a.step (.truncateFrom index) = a := by
      change { a with entries := a.entries.take _ } = a
      rw [take_of_length_le (by omega)]
    rw [hsame]
    exact h

theorem Refines.compactTo (h : r.Refines a) (hr : r.compactTo index = .ok r') :
    r'.Refines (a.compactTo index) := by
  have hsnap := h.snapshotIndex
  obtain ⟨pre, hlive, -⟩ := h.live
  by_cases hlo : index ≤ r.snapshotIndex
  · unfold RaftLog.compactTo at hr
    rw [if_pos hlo] at hr
    cases hr
    rw [AbstractLog.compactTo, AbstractLog.entryAt, if_pos (by omega)]
    exact h
  obtain ⟨k, rfl⟩ : ∃ k, index = r.snapshotIndex + k + 1 :=
    ⟨index - r.snapshotIndex - 1, by omega⟩
  cases he : a.entryAt (r.snapshotIndex + k + 1) with
  | none =>
    unfold RaftLog.compactTo at hr
    rw [if_neg hlo, h.getElem?_slotOf (by omega), he] at hr
    cases hr
  | some e =>
    have he' : a.entries[k]? = some e := by
      rw [AbstractLog.entryAt, if_neg (by omega)] at he
      rw [← he]
      congr 1
      omega
    obtain ⟨-, r'', pre', -, -, hr'', -, hbase, hlive', hend⟩ := hlive.compactToOps_eq he'
    rw [hr] at hr''
    cases hr''
    have hk : r.snapshotIndex + k + 1 - a.snapshot.index = k + 1 := by omega
    rw [AbstractLog.compactTo, he]
    refine ⟨hbase, fun h0 => absurd h0 (Nat.succ_ne_zero _), pre', ?_, ?_⟩
    · change r'.Live pre' (a.entries.drop _)
      rw [hk]
      exact hlive'
    · rw [hend, AbstractLog.startOffset, if_neg (Nat.succ_ne_zero _)]

theorem refines_resetTo {lastOffset : Int} (hpos : index ≠ 0)
    (hr : r.resetTo index term lastOffset = .ok r') :
    r'.Refines { snapshot := { index, term, lastOffset } } ∧ 0 ≤ lastOffset + 1 := by
  unfold RaftLog.resetTo at hr
  by_cases hneg : lastOffset + 1 < 0
  · rw [PartitionLog.resetTo, if_pos hneg] at hr
    cases hr
  obtain ⟨log, hlog, hholds, hstart⟩ := PartitionLog.holds_resetTo r.log (o := lastOffset + 1)
    (by omega)
  rw [hlog] at hr
  cases hr
  refine ⟨⟨rfl, fun h0 => absurd h0 hpos, [], ⟨rfl, hholds⟩, ?_⟩, by omega⟩
  change log.logStartOffset = if index = 0 then 0 else lastOffset + 1
  rw [hstart, if_neg hpos]

theorem Refines.holds_iff (h : r.Refines a) (hi : r.snapshotIndex < index) :
    r.holds index term ↔ a.termAt index = some term := by
  have hterm := h.termAt index
  have hlast : r.lastIndex = a.snapshot.index + a.entries.length := h.lastIndex
  have hsnap := h.snapshotIndex
  rw [holds, Bool.and_eq_true, decide_eq_true_eq, beq_iff_eq]
  constructor
  · rintro ⟨-, ht⟩
    rw [← hterm, ht]
    rfl
  · intro ht
    refine ⟨?_, ?_⟩
    · rw [AbstractLog.termAt, if_neg (by omega), if_neg (by omega), AbstractLog.entryAt,
        if_neg (by omega)] at ht
      obtain ⟨e, he, -⟩ := Option.map_eq_some_iff.mp ht
      have := (List.getElem?_eq_some_iff.mp he).1
      omega
    · rw [ht] at hterm
      exact ok_of_toOption hterm

theorem Refines.installSnapshot (h : r.Refines a) (hd : d.Stores r) {lastOffset : Int}
    (hr : (r.installSnapshot .done index term lastOffset) = (r', true)) :
    r'.Refines (a.step (.installSnapshot index term lastOffset)) ∧
    (run Disk.apply d (r.installSnapshotOps index term lastOffset)).Stores
      ((Call.installSnapshot index term lastOffset).result r) := by
  have hsnap := h.snapshotIndex
  obtain ⟨pre, hlive, -⟩ := h.live
  unfold RaftLog.installSnapshot at hr
  by_cases hlo : index ≤ r.snapshotIndex
  · refine ⟨?_, hlive.stores_installSnapshot hd fun hgt => absurd hgt (by omega)⟩
    rw [if_pos hlo] at hr
    cases hr
    rw [AbstractLog.step, if_pos (by omega)]
    exact h
  rw [if_neg hlo] at hr
  have hholds : r.holds index term ↔ a.termAt index = some term :=
    h.holds_iff (Nat.lt_of_not_le hlo)
  by_cases hh : r.holds index term
  · refine ⟨?_, hlive.stores_installSnapshot hd fun _ hn => absurd hh hn⟩
    dsimp only at hr
    rw [if_pos hh] at hr
    rw [AbstractLog.step, if_neg (by omega), if_pos (hholds.mp hh)]
    cases hc : r.compactTo index with
    | error e => rw [hc] at hr; cases hr
    | ok r'' =>
      rw [hc] at hr
      cases hr
      exact h.compactTo hc
  · dsimp only at hr
    rw [if_neg hh, if_neg (by simp)] at hr
    cases hc : r.resetTo index term lastOffset with
    | error e => rw [hc] at hr; cases hr
    | ok r'' =>
      rw [hc] at hr
      cases hr
      obtain ⟨hrefines, hoff⟩ := refines_resetTo (by omega) hc
      refine ⟨?_, hlive.stores_installSnapshot hd fun _ _ => hoff⟩
      rw [AbstractLog.step, if_neg (by omega), if_neg (fun ht => hh (hholds.mpr ht))]
      exact hrefines

/-- A successful call keeps the log, its files and the abstract log together. -/
theorem Refines.call (h : r.Refines a) (hd : d.Stores r) {c : Call}
    (hc : (LogStep.call c).Counted) (hr : c.outcome r = some r') :
    r'.Refines (a.step c) ∧ (run Disk.apply d (c.ops r)).Stores r' := by
  have hresult := Call.result_of_outcome hr
  cases c with
  | append es =>
    rw [← hresult]
    exact h.append hd hc
  | truncateFrom index =>
    obtain ⟨pre, hlive, -⟩ := h.live
    refine ⟨h.truncateFrom (ok_of_toOption hr), ?_⟩
    rw [← hresult]
    exact hlive.stores_truncateFrom hd index
  | compactTo index =>
    obtain ⟨pre, hlive, -⟩ := h.live
    refine ⟨h.compactTo (ok_of_toOption hr), ?_⟩
    rw [← hresult]
    exact hlive.stores_compactTo hd index
  | installSnapshot index term lastOffset =>
    have hok : r.installSnapshot .done index term lastOffset = (r', true) := by
      change (if (r.installSnapshot .done index term lastOffset).2 then
        some (r.installSnapshot .done index term lastOffset).1 else none) = some r' at hr
      split at hr
      · rename_i ht
        cases hr
        rw [← ht]
      · cases hr
    obtain ⟨hrefines, hstores⟩ := h.installSnapshot hd hok
    refine ⟨hrefines, ?_⟩
    rw [← hresult]
    exact hstores

/-! ## Opening -/

theorem file_segment_file (segs : List Segment) :
    (segs.map fun s => s.file.segment).map Segment.file = segs.map Segment.file := by
  rw [map_map]
  rfl

theorem Refines.expectedEnd (h : r.Refines a) (hd : d.Stores r) {start : Int}
    (hstart : start = r.log.logStartOffset) : d.expectedEnd start = a.endOffset := by
  obtain ⟨pre, hlive, hpre⟩ := h.live
  unfold Disk.expectedEnd AbstractLog.endOffset
  rw [hd.metas, hlive.entries, hd.snap, h.snapshot, getLast?_map]
  rcases eq_nil_or_concat a.entries with hnil | ⟨es, e, hes⟩
  · rw [hnil]
    change (if 0 < a.snapshot.index then a.snapshot.lastOffset + 1 else start) = a.startOffset
    unfold AbstractLog.startOffset
    by_cases h0 : a.snapshot.index = 0
    · rw [if_pos h0, if_neg (by omega), hstart, (h.fresh h0).2]
    · rw [if_neg h0, if_pos (by omega)]
  · rw [hes, concat_eq_append, getLast?_append, batches_append, endOf_append]
    rfl

/-- The files of the log open as a log that stands for the same entries. -/
theorem Refines.reopen (h : r.Refines a) (hd : d.Stores r) (cfg : LogConfig) :
    ∃ r', openFiles cfg d = .ok r' ∧ r'.Refines a ∧ d.Stores r' := by
  obtain ⟨pre, hlive, hpre⟩ := h.live
  obtain ⟨hholds, hstart⟩ :=
    PartitionLog.openFiles_holds cfg hlive.log.layout hlive.log.older
  have hlogs : (PartitionLog.openFiles cfg d.logs).segments.map Segment.file = d.logs := by
    have hopen := PartitionLog.openFiles_eq cfg hlive.log.ascending
    change PartitionLog.openFiles cfg (r.log.segments.map Segment.file) = _ at hopen
    rw [hd.logs, hopen]
    have hmap := file_segment_file r.log.segments
    rw [PartitionLog.segments, map_append] at hmap
    exact hmap
  change (PartitionLog.openFiles cfg (r.log.segments.map Segment.file)).Holds
    (flat r.log.segments) at hholds
  rw [← hd.logs, hlive.log.blocks] at hholds
  change (PartitionLog.openFiles cfg (r.log.segments.map Segment.file)).logStartOffset = _ at hstart
  rw [← hd.logs] at hstart
  unfold openFiles
  generalize PartitionLog.openFiles cfg d.logs = log at hholds hstart hlogs ⊢
  have hfirst : ¬ (0 < d.snap.index ∧
      ∃ first ∈ d.metas.head?, first.baseOffset ≠ d.snap.lastOffset + 1) := by
    rintro ⟨hpos, first, hf, hne⟩
    rw [hd.metas, hlive.entries, head?_map] at hf
    obtain ⟨e, he, rfl⟩ := Option.map_eq_some_iff.mp hf
    rw [head?_eq_getElem?] at he
    rw [hd.snap, h.snapshot] at hpos hne
    apply hne
    rw [hlive.baseOffset_eq he, Nat.add_zero, take_left, hpre, AbstractLog.startOffset,
      if_neg (by omega)]
  have hend : log.logEndOffset = a.endOffset := by
    rw [hholds.logEnd, hstart, endOf_append, hpre, AbstractLog.endOffset]
  refine ⟨{ r with log }, ?_, ⟨h.snapshot, fun h0 => ?_, pre, ⟨hlive.entries, hholds⟩, ?_⟩,
    ⟨hlogs.symm, hd.metas, hd.snap⟩⟩
  · unfold openSidecars
    rw [if_neg hfirst, h.expectedEnd hd hstart, hend, if_neg (by simp), hd.metas, hd.snap]
    rfl
  · dsimp only
    rw [hstart]
    exact h.fresh h0
  · dsimp only
    rw [hstart]
    exact hpre

end RaftLog

/-! ## Runs -/

theorem LogStep.apply_refines {s s' : RaftLog × Disk} {a : AbstractLog} (h : s.1.Refines a)
    (hd : s.2.Stores s.1) {step : LogStep} (hc : step.Counted)
    (hs : LogStep.apply s step = some s') :
    s'.1.Refines (step.onAbstract a) ∧ s'.2.Stores s'.1 := by
  obtain ⟨r, d⟩ := s
  cases step with
  | call c =>
    obtain ⟨r', hr', rfl⟩ := Option.map_eq_some_iff.mp hs
    exact h.call hd hc hr'
  | reopen cfg =>
    obtain ⟨r', hr', hrefines, hstores⟩ := h.reopen hd cfg
    rw [LogStep.apply, hr'] at hs
    cases hs
    exact ⟨hrefines, hstores⟩

theorem LogStep.run_refines {steps : List LogStep} (hc : ∀ step ∈ steps, step.Counted)
    {s s' : RaftLog × Disk} {a : AbstractLog} (h : s.1.Refines a) (hd : s.2.Stores s.1)
    (hs : steps.foldlM LogStep.apply s = some s') :
    s'.1.Refines (steps.foldl LogStep.onAbstract a) ∧ s'.2.Stores s'.1 := by
  induction steps generalizing s a with
  | nil =>
    cases hs
    exact ⟨h, hd⟩
  | cons step steps ih =>
    rw [foldlM_cons] at hs
    obtain ⟨s₁, hs₁, hrest⟩ := Option.bind_eq_some_iff.mp hs
    obtain ⟨h₁, hd₁⟩ := LogStep.apply_refines h hd (hc step mem_cons_self) hs₁
    exact ih (fun x hx => hc x (.tail _ hx)) h₁ hd₁ hrest

/-- Whatever steps a log has gone through, it answers as the abstract log that went through the
same steps; the offsets of its entries follow one another from the snapshot to the end of the
partition log; and its files can be opened again. -/
theorem raftLog_refines (cfg : LogConfig) {steps : List LogStep}
    (hc : ∀ step ∈ steps, step.Counted) {r : RaftLog} {d : Disk}
    (h : steps.foldlM LogStep.apply (RaftLog.create cfg, Disk.fresh) = some (r, d)) :
    let a := steps.foldl LogStep.onAbstract {}
    r.Answers a ∧ Chain a.startOffset (batches a.entries) ∧ r.log.logEndOffset = a.endOffset ∧
      ∀ cfg', ∃ r', RaftLog.openFiles cfg' d = .ok r' := by
  intro a
  obtain ⟨hrefines, hstores⟩ := LogStep.run_refines hc (RaftLog.refines_create cfg)
    (Disk.fresh_stores cfg) h
  refine ⟨hrefines.answers, hrefines.chain, hrefines.logEndOffset, fun cfg' => ?_⟩
  obtain ⟨r', hr', -⟩ := hrefines.reopen hstores cfg'
  exact ⟨r', hr'⟩

/-- Two entries, the second one replaced; a compaction, a restart, a snapshot from elsewhere and an
entry after it. -/
def everyStep : List LogStep :=
  let entry (term : Nat) : RaftLogEntry := { term, payload := { header := { recordCount := 2 } } }
  [.call (.append [entry 1, entry 1]), .call (.truncateFrom 2), .call (.append [entry 2]),
    .call (.compactTo 1), .reopen {}, .call (.installSnapshot 7 3 4), .call (.append [entry 3])]

theorem raftLog_refines_everyStep :
    ∃ r d, everyStep.foldlM LogStep.apply (RaftLog.create {}, Disk.fresh) = some (r, d) ∧
      r.lastIndex = 8 ∧ r.Answers (everyStep.foldl LogStep.onAbstract {}) := by
  cases h : everyStep.foldlM LogStep.apply (RaftLog.create {}, Disk.fresh) with
  | none => exact absurd h (by decide)
  | some s =>
    obtain ⟨hanswers, -⟩ := raftLog_refines {} (by decide) h
    refine ⟨s.1, s.2, rfl, ?_, hanswers⟩
    rw [hanswers.lastIndex]
    decide

end Nexus
