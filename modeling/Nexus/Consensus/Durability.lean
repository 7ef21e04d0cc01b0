import Mathlib.Data.List.Induction
import Nexus.Consensus.Persist

/-!
# Power loss

After a power loss, what a completed `fsync` covers is still there and any of the other writes may
be lost (`PowerLoss`). With `fsync_policy = Commit`, `append` syncs the `.log` after every block,
and never syncs `raft-meta`: all blocks survive (`PowerLoss.logs_eq`), and of the records any
subset. A lost record reads as zeros if a later one survives, and the file ends before it
otherwise (`survived_foldl`). So the log keeps its entries only when the records happen to
survive (`power_loss_iff`).
-/

namespace Nexus

open Lib RaftLog FileOp List

variable {ops : List FileOp} {d : Disk} {l : PartitionLog} {ms : List EntryMeta}

namespace FileOp

/-- Does this `fsync` cover that change of a file? -/
def covers : FileOp → FileOp → Bool
  | syncLog base, createLog base' => base == base'
  | syncLog base, writeLog base' _ => base == base'
  | syncLog base, truncateLog base' _ => base == base'
  | syncMeta, writeMeta _ _ => true
  | syncMeta, truncateMeta _ => true
  | syncSnap, writeSnap _ => true
  | _, _ => false

def changesLogs : FileOp → Bool
  | createLog _ | writeLog _ _ | truncateLog _ _ | removeLog _ => true
  | _ => false

/-- The record that the operation writes, and its slot. -/
def record : FileOp → Option (Nat × EntryMeta)
  | writeMeta slot entry => some (slot, entry)
  | _ => none

end FileOp

/-- What a power loss may leave of some operations: a change is lost only if no later `fsync`
covers it. -/
inductive PowerLoss : List FileOp → List FileOp → Prop
  | nil : PowerLoss [] []
  | keep {ops kept : List FileOp} (op : FileOp) :
    PowerLoss ops kept → PowerLoss (op :: ops) (op :: kept)
  | lose {ops kept : List FileOp} (op : FileOp) (h : ∀ s ∈ ops, s.covers op = false) :
    PowerLoss ops kept → PowerLoss (op :: ops) kept

variable {kept : List FileOp} {op : FileOp} {d' : Disk}

theorem PowerLoss.sublist (h : PowerLoss ops kept) : kept.Sublist ops := by
  induction h with
  | nil => exact .slnil
  | keep op _ ih => exact ih.cons_cons op
  | lose op _ _ ih => exact ih.cons op

/-! ## The segments survive -/

/-- Every change of a `.log` is covered. -/
def LogsCovered : List FileOp → Prop
  | [] => True
  | op :: ops => (op.changesLogs → ∃ s ∈ ops, s.covers op) ∧ LogsCovered ops

theorem apply_logs_congr (h : d.logs = d'.logs) (op : FileOp) :
    (d.apply op).logs = (d'.apply op).logs := by
  cases op <;> simp only [Disk.apply, Disk.modifyLog, h]
  split <;> simp [h]

theorem apply_logs_of_not_changes (h : op.changesLogs = false) (d : Disk) :
    (d.apply op).logs = d.logs := by
  cases op <;> first | rfl | cases h

theorem PowerLoss.logs_eq (h : PowerLoss ops kept) (hcov : LogsCovered ops)
    (hd : d'.logs = d.logs) :
    (run Disk.apply d' kept).logs = (run Disk.apply d ops).logs := by
  induction h generalizing d d' with
  | nil => exact hd
  | keep op _ ih => exact ih hcov.2 (apply_logs_congr hd op)
  | lose op hlost _ ih =>
    refine ih hcov.2 ?_
    have hnot : op.changesLogs = false := by
      by_contra hchanges
      obtain ⟨s, hs, hcovers⟩ := hcov.1 (Bool.not_eq_false _ ▸ hchanges)
      rw [hlost s hs] at hcovers
      cases hcovers
    rw [hd, apply_logs_of_not_changes hnot]

/-- With `Commit`, each block is synced right after it is written. -/
theorem PartitionLog.logsCovered_appendOps (hc : l.cfg.fsyncPolicy = .commit)
    (batch : RecordBatch) (hops : LogsCovered ops) : LogsCovered (l.appendOps batch ++ ops) := by
  have hcfg : l.rolled.cfg = l.cfg := by
    unfold rolled
    split <;> rfl
  have hsync : ∀ base bytes, l.rolled.syncOps base bytes = [.syncLog base] := by
    intro base bytes
    unfold syncOps
    rw [hcfg, hc]
  unfold appendOps rollOps
  dsimp only
  rw [hsync]
  by_cases hroll : l.mustRoll
  · have hactive : l.rolled.active.baseOffset = l.logEndOffset := by
      unfold rolled
      rw [if_pos hroll]
      rfl
    rw [if_pos hroll, hactive]
    simp [LogsCovered, changesLogs, covers, hops]
  · rw [if_neg hroll]
    simp [LogsCovered, changesLogs, covers, hops]

variable {batch : RecordBatch}

theorem PartitionLog.cfg_append {l' : PartitionLog} {last : Int}
    (h : l.append batch = .ok (l', last)) : l'.cfg = l.cfg := by
  have hrolled : l.rolled.cfg = l.cfg := by
    unfold rolled
    split <;> rfl
  have hsync : ∀ (l : PartitionLog) (bytes : Nat), (l.maybeSync bytes).cfg = l.cfg := by
    intro l bytes
    obtain ⟨p, b, heq⟩ := maybeSync_eq l bytes
    rw [heq]
  unfold PartitionLog.append at h
  dsimp only at h
  split at h
  · cases h
  · cases h
    rw [hsync]
    exact hrolled

theorem RaftLog.logsCovered_appendOps {r : RaftLog} (hc : r.log.cfg.fsyncPolicy = .commit)
    (es : List RaftLogEntry) : LogsCovered (r.appendOps es) := by
  induction es generalizing r with
  | nil => trivial
  | cons e es ih =>
    rw [appendOps]
    cases happ : r.log.append e.payload with
    | error err => trivial
    | ok result =>
      obtain ⟨log, last⟩ := result
      dsimp only
      refine PartitionLog.logsCovered_appendOps hc e.payload ⟨by simp [changesLogs], ?_⟩
      refine ih ?_
      dsimp only
      rw [PartitionLog.cfg_append happ]
      exact hc

/-! ## Of the records, some -/

/-- The slots of consecutive records. -/
def numbered (slot : Nat) : List EntryMeta → List (Nat × EntryMeta)
  | [] => []
  | m :: ms => (slot, m) :: numbered (slot + 1) ms

theorem numbered_append (slot : Nat) (ms ns : List EntryMeta) :
    numbered slot (ms ++ ns) = numbered slot ms ++ numbered (slot + ms.length) ns := by
  induction ms generalizing slot with
  | nil => rfl
  | cons m ms ih =>
    rw [cons_append, numbered, ih, numbered, length_cons, Nat.add_right_comm,
      Nat.add_assoc]
    rfl

theorem le_of_mem_numbered {k : Nat} {w : Nat × EntryMeta} (h : w ∈ numbered k ms) : k ≤ w.1 := by
  induction ms generalizing k with
  | nil => cases h
  | cons m ms ih =>
    rcases mem_cons.mp h with rfl | h
    · exact Nat.le_refl _
    · exact Nat.le_of_succ_le (ih h)

theorem mem_numbered {k i : Nat} {m : EntryMeta} :
    (k + i, m) ∈ numbered k ms ↔ ms[i]? = some m := by
  induction ms generalizing k i with
  | nil => simp [numbered]
  | cons m' ms ih =>
    rw [numbered, mem_cons]
    cases i with
    | zero =>
      have hnot : (k, m) ∉ numbered (k + 1) ms := fun hmem => by
        have := le_of_mem_numbered hmem
        omega
      simp [hnot, eq_comm]
    | succ i =>
      rw [getElem?_cons_succ, ← ih (k := k + 1), Nat.add_right_comm, Nat.add_assoc]
      simp

/-- What the surviving writes leave in the file. -/
structure Survived (ms : List EntryMeta) (writes : List (Nat × EntryMeta))
    (metas : List EntryMeta) : Prop where
  length_le : metas.length ≤ ms.length
  slot_lt : ∀ w ∈ writes, w.1 < metas.length
  /-- The record was written, or the gap before a later one reads as zeros. -/
  record : ∀ i m, metas[i]? = some m → (i, m) ∈ writes ∨
    m = {} ∧ (∀ m', (i, m') ∉ writes) ∧ ∃ w ∈ writes, i < w.1

variable {metas : List EntryMeta}

/-- A write right after the records, or beyond. -/
theorem writeRecord_of_length_le {slot : Nat} (m : EntryMeta) (h : metas.length ≤ slot) :
    writeRecord metas slot m =
      metas ++ replicate (slot - metas.length) ({} : EntryMeta) ++ [m] := by
  unfold writeRecord
  rw [take_of_length_le h, drop_of_length_le (by omega)]

variable {writes : List (Nat × EntryMeta)}

theorem survived_foldl (h : writes.Sublist (numbered 0 ms)) :
    Survived ms writes (writes.foldl (fun metas w => writeRecord metas w.1 w.2) []) := by
  induction ms using reverseRecOn generalizing writes with
  | nil =>
    rw [sublist_nil.mp h]
    exact ⟨Nat.le_refl _, by simp, by simp⟩
  | append_singleton ms m ih =>
    rw [numbered_append, Nat.zero_add] at h
    obtain ⟨writes, last, rfl, hw, hlast⟩ := sublist_append_iff.mp h
    have hs := ih hw
    rw [foldl_append]
    generalize writes.foldl (fun metas w => writeRecord metas w.1 w.2) [] = metas at hs ⊢
    rcases sublist_singleton.mp hlast with rfl | rfl
    · rw [append_nil, foldl_nil]
      exact ⟨Nat.le_trans hs.length_le (by simp), hs.slot_lt, hs.record⟩
    -- The last record is written: what is missing before it reads as zeros.
    rw [foldl_cons, foldl_nil, writeRecord_of_length_le m hs.length_le]
    have hlen : (metas ++ replicate (ms.length - metas.length) ({} : EntryMeta) ++ [m]).length
        = ms.length + 1 := by
      have := hs.length_le
      simp only [length_append, length_replicate, length_singleton]
      omega
    refine ⟨by rw [hlen, length_append]; rfl, fun w hmem => ?_, fun i m' hi => ?_⟩
    · rw [hlen]
      rcases mem_append.mp hmem with hmem | hmem
      · exact Nat.lt_succ_of_lt (Nat.lt_of_lt_of_le (hs.slot_lt w hmem) hs.length_le)
      · rw [mem_singleton.mp hmem]
        exact Nat.lt_succ_self _
    · have hne : ∀ m'', (i, m'') ∈ [(ms.length, m)] → i = ms.length := fun m'' hmem =>
        congrArg Prod.fst (mem_singleton.mp hmem)
      have hi' := (List.getElem?_eq_some_iff.mp hi).1
      rw [hlen] at hi'
      by_cases hlast : i = ms.length
      · refine .inl (mem_append_right _ ?_)
        have hfull : (metas ++ replicate (ms.length - metas.length) ({} : EntryMeta)).length =
            ms.length := by
          have := hs.length_le
          simp only [length_append, length_replicate]
          omega
        rw [getElem?_append_right (by omega), hfull, hlast, Nat.sub_self] at hi
        rw [hlast, ← Option.some.inj hi]
        exact mem_singleton_self _
      have hlater : ∃ w ∈ writes ++ [(ms.length, m)], i < w.1 :=
        ⟨_, mem_append_right _ (mem_singleton_self _), by dsimp only; omega⟩
      by_cases hold : i < metas.length
      · rw [append_assoc, getElem?_append_left hold] at hi
        rcases hs.record i m' hi with hmem | ⟨rfl, hnot, -⟩
        · exact .inl (mem_append_left _ hmem)
        · refine .inr ⟨rfl, fun m'' hmem => ?_, hlater⟩
          rcases mem_append.mp hmem with hmem | hmem
          · exact hnot m'' hmem
          · exact hlast (hne m'' hmem)
      · refine .inr ⟨?_, fun m'' hmem => ?_, hlater⟩
        · rw [append_assoc, getElem?_append_right (by omega),
            getElem?_append_left (by rw [length_replicate]; omega),
            getElem?_replicate, if_pos (by omega)] at hi
          exact (Option.some.inj hi).symm
        · rcases mem_append.mp hmem with hmem | hmem
          · exact hold (hs.slot_lt _ hmem)
          · exact hlast (hne m'' hmem)

theorem Survived.eq_iff (h : Survived ms writes metas) (hw : ∀ w ∈ writes, ms[w.1]? = some w.2) :
    metas = ms ↔ ∀ slot m, ms[slot]? = some m →
      (slot, m) ∈ writes ∨ m = {} ∧ ∃ w ∈ writes, slot < w.1 := by
  constructor
  · rintro rfl slot m hm
    rcases h.record slot m hm with hmem | ⟨rfl, -, hlater⟩
    · exact .inl hmem
    · exact .inr ⟨rfl, hlater⟩
  · intro hall
    have hlen : metas.length = ms.length := by
      refine Nat.le_antisymm h.length_le ?_
      rcases Nat.eq_zero_or_pos ms.length with hzero | hpos
      · omega
      obtain ⟨m, hm⟩ : ∃ m, ms[ms.length - 1]? = some m :=
        ⟨_, getElem?_eq_getElem (by omega)⟩
      rcases hall _ m hm with hmem | ⟨-, w, hmem, hlt⟩
      · have := h.slot_lt _ hmem
        dsimp only at this
        omega
      · have := h.slot_lt w hmem
        have := h.length_le
        omega
    refine ext_getElem? fun i => ?_
    by_cases hi : i < ms.length
    · obtain ⟨m, hm⟩ : ∃ m, ms[i]? = some m := ⟨_, getElem?_eq_getElem hi⟩
      obtain ⟨m', hm'⟩ : ∃ m', metas[i]? = some m' := ⟨_, getElem?_eq_getElem (by omega)⟩
      rw [hm, hm']
      rcases h.record i m' hm' with hmem | ⟨rfl, hnot, -⟩
      · exact (hw _ hmem).symm.trans hm
      · rcases hall i m hm with hmem | ⟨rfl, -⟩
        · exact absurd hmem (hnot m)
        · rfl
    · rw [getElem?_eq_none (by omega), getElem?_eq_none (by omega)]

/-! ## The operations of a run of appends -/

theorem LogsCovered.append {xs ys : List FileOp} (hx : LogsCovered xs) (hy : LogsCovered ys) :
    LogsCovered (xs ++ ys) := by
  induction xs with
  | nil => exact hy
  | cons op xs ih =>
    refine ⟨fun hop => ?_, ih hx.2⟩
    obtain ⟨s, hs, hcovers⟩ := hx.1 hop
    exact ⟨s, mem_append_left _ hs, hcovers⟩

theorem apply_createLog (d : Disk) (base : Int) :
    (d.apply (.createLog base)).metas = d.metas ∧ (d.apply (.createLog base)).snap = d.snap := by
  simp only [Disk.apply]
  split <;> exact ⟨rfl, rfl⟩

theorem run_metas (h : ∀ op ∈ ops, op.cutsRecords = false) :
    (run Disk.apply d ops).metas = (ops.filterMap record).foldl
      (fun metas w => writeRecord metas w.1 w.2) d.metas := by
  induction ops generalizing d with
  | nil => rfl
  | cons op ops ih =>
    rw [run_cons, ih fun op' hop' => h op' (.tail _ hop')]
    have hop := h op mem_cons_self
    cases op with
    | truncateMeta => cases hop
    | createLog base => rw [filterMap_cons_none rfl, (apply_createLog d base).1]
    | _ => rfl

theorem run_snap (h : ∀ op ∈ ops, op.savesSnapshot = false) :
    (run Disk.apply d ops).snap = d.snap := by
  induction ops generalizing d with
  | nil => rfl
  | cons op ops ih =>
    rw [run_cons, ih fun op' hop' => h op' (.tail _ hop')]
    have hop := h op mem_cons_self
    cases op with
    | writeSnap => cases hop
    | createLog base => exact (apply_createLog d base).2
    | _ => rfl

/-- An `append` on the partition log touches nothing but `.log` files. -/
theorem PartitionLog.mem_appendOps (h : op ∈ l.appendOps batch) :
    op.record = none ∧ op.cutsRecords = false ∧ op.savesSnapshot = false := by
  unfold appendOps rollOps at h
  dsimp only at h
  rcases mem_append.mp h with h | h
  · split at h
    · rcases mem_pair.mp h with rfl | rfl <;> exact ⟨rfl, rfl, rfl⟩
    · cases h
  · rcases mem_cons.mp h with rfl | h
    · exact ⟨rfl, rfl, rfl⟩
    · obtain ⟨base, rfl⟩ := syncOps_syncs _ _ op h
      exact ⟨rfl, rfl, rfl⟩

namespace RaftLog

variable {r r' : RaftLog} {full : List LogEntry}

theorem openSidecars_ok {log : PartitionLog} (h : openSidecars log d = .ok r') :
    r'.log = log ∧ r'.entries = d.metas ∧ r'.snapshotBase = d.snap := by
  unfold openSidecars at h
  split_ifs at h
  · cases h
  · cases h
  · cases h
    exact ⟨rfl, rfl, rfl⟩

/-- Segments that hold the live entries of a view open as it. -/
theorem View.opens (h : r.View full) (cfg : LogConfig) {older : List Segment} {active : Segment}
    {k : Nat} (hmetas : d.metas = r.entries) (hsnap : d.snap = r.snapshotBase)
    (hlogs : d.logs = (older ++ [active]).map Segment.file) (hk : k ≤ r.snapshotIndex)
    (hlayout : Layout (endOf 0 ((batches full).take k)) (older ++ [active]))
    (hflat : flat (older ++ [active]) = (batches full).drop k) (hne : ∀ s ∈ older, s.blocks ≠ []) :
    ∃ r', openFiles cfg d = .ok r' ∧ r'.shown = r.shown := by
  obtain ⟨hholds, hstart⟩ := PartitionLog.openFiles_holds cfg hlayout hne
  rw [hflat] at hholds
  unfold openFiles
  rw [hlogs]
  exact h.openSidecars hmetas hsnap hk hholds hstart

/-- The files of a view open as it. -/
theorem View.opens_stores (h : r.View full) (cfg : LogConfig) (hd : d.Stores r) :
    ∃ r', openFiles cfg d = .ok r' ∧ r'.shown = r.shown := by
  obtain ⟨k, hk, hholds, hstart⟩ := h.log
  refine h.opens cfg hd.metas hd.snap hd.logs hk ?_ hholds.blocks hholds.older
  rw [← hstart]
  exact hholds.layout

theorem mem_appendOps {r : RaftLog} {es : List RaftLogEntry} {op : FileOp}
    (h : op ∈ r.appendOps es) : op.cutsRecords = false ∧ op.savesSnapshot = false := by
  induction es generalizing r with
  | nil => cases h
  | cons e es ih =>
    rw [appendOps] at h
    split at h
    · cases h
    rcases mem_append.mp h with h | h
    · exact (PartitionLog.mem_appendOps h).2
    · rcases mem_cons.mp h with rfl | h
      · exact ⟨rfl, rfl⟩
      · exact ih h

/-- The records of an `append` go to consecutive slots. -/
theorem record_appendOps (r : RaftLog) (es : List RaftLogEntry) :
    ∃ ms, (r.append none es).1.entries = r.entries ++ ms ∧
      (r.appendOps es).filterMap record = numbered r.entries.length ms := by
  induction es generalizing r with
  | nil => exact ⟨[], (append_nil _).symm, rfl⟩
  | cons e es ih =>
    rw [appendOps, append]
    · cases happ : r.log.append e.payload with
      | error err => exact ⟨[], (append_nil _).symm, rfl⟩
      | ok result =>
        obtain ⟨log, last⟩ := result
        dsimp only
        obtain ⟨ms, hentries, hrecords⟩ := ih { r with
          log
          entries := r.entries ++ [{ term := e.term, baseOffset := r.log.logEndOffset,
                                     lastOffset := last, type := e.type }] }
        refine ⟨⟨e.term, r.log.logEndOffset, last, e.type⟩ :: ms, ?_, ?_⟩
        · exact hentries.trans (by rw [append_assoc]; rfl)
        · have hnone : (r.log.appendOps e.payload).filterMap record = [] :=
            filterMap_eq_nil_iff.mpr fun op hop => (PartitionLog.mem_appendOps hop).1
          have hnext : (r.entries ++ [(⟨e.term, r.log.logEndOffset, last, e.type⟩ :
              EntryMeta)]).length = r.entries.length + 1 := by simp
          rw [filterMap_append, hnone, nil_append, numbered, ← hnext, ← hrecords]
          rfl
    · simp

theorem cfg_append {r : RaftLog} (es : List RaftLogEntry) :
    (r.append none es).1.log.cfg = r.log.cfg := by
  induction es generalizing r with
  | nil => rfl
  | cons e es ih =>
    rw [append]
    · cases happ : r.log.append e.payload with
      | error err => rfl
      | ok result => exact ih.trans (PartitionLog.cfg_append happ)
    · simp

/-- The log opens again with all its entries, their terms and their offsets. -/
def ReopensAs (cfg : LogConfig) (d : Disk) (r : RaftLog) : Prop :=
  ∃ r', openFiles cfg d = .ok r' ∧ r'.entries = r.entries ∧ r'.shown = r.shown

end RaftLog

/-- A Raft log and its files. -/
structure Store where
  log : RaftLog
  disk : Disk

namespace Store

/-- A log that has just been created. -/
def create (cfg : LogConfig) : Store := { log := .create cfg, disk := .fresh }

/-- The call with all its file operations. -/
def call (s : Store) (c : Call) : Store :=
  { log := c.result s.log, disk := run Disk.apply s.disk (c.ops s.log) }

/-- The log stands for some list of entries, and its files are on the disk. -/
def Sound (s : Store) : Prop := ∃ full, s.log.View full ∧ s.disk.Stores s.log

theorem sound_create (cfg : LogConfig) : (create cfg).Sound :=
  ⟨[], view_create cfg, Disk.fresh_stores cfg⟩

variable {s : Store}

theorem Sound.call (h : s.Sound) {c : Call} (hc : c.Valid) : (s.call c).Sound := by
  obtain ⟨full, hview, hstores⟩ := h
  obtain ⟨full', hview'⟩ := hview.result hc
  exact ⟨full', hview', hview.stores_result hstores hc⟩

theorem Sound.run (h : s.Sound) {calls : List Call} (hc : ∀ c ∈ calls, c.Valid) :
    (run Store.call s calls).Sound := by
  induction calls generalizing s with
  | nil => exact h
  | cons c calls ih =>
    exact ih (h.call (hc c mem_cons_self)) fun c' hc' => hc c' (.tail _ hc')

def entryOf (term : Nat) : RaftLogEntry :=
  { term, payload := { header := { recordCount := 1 } } }

/-- The file operations of a run of calls. -/
def opsOf : Store → List Call → List FileOp
  | _, [] => []
  | s, c :: calls => c.ops s.log ++ opsOf (s.call c) calls

theorem run_opsOf (s : Store) (calls : List Call) :
    (run Store.call s calls).disk = run Disk.apply s.disk (s.opsOf calls) := by
  induction calls generalizing s with
  | nil => rfl
  | cons c calls ih =>
    rw [run_cons, ih, opsOf, run_append]
    rfl

/-- What the operations of a run of appends are. -/
theorem opsOf_append (hc : s.log.log.cfg.fsyncPolicy = .commit)
    (appends : List (List RaftLogEntry)) :
    LogsCovered (s.opsOf (appends.map .append)) ∧
    (∀ op ∈ s.opsOf (appends.map .append), op.cutsRecords = false ∧ op.savesSnapshot = false) ∧
    ∃ ms, (run Store.call s (appends.map .append)).log.entries = s.log.entries ++ ms ∧
      (s.opsOf (appends.map .append)).filterMap record =
        numbered s.log.entries.length ms := by
  induction appends generalizing s with
  | nil => exact ⟨trivial, by simp [opsOf], [], (append_nil _).symm, rfl⟩
  | cons es appends ih =>
    have hcfg : (s.call (.append es)).log.log.cfg.fsyncPolicy = .commit := by
      change (s.log.append none es).1.log.cfg.fsyncPolicy = .commit
      rw [cfg_append, hc]
    obtain ⟨hcov, hmem, ms, hentries, hrecords⟩ := ih hcfg
    obtain ⟨ns, hentries', hrecords'⟩ := s.log.record_appendOps es
    refine ⟨(logsCovered_appendOps hc es).append hcov, fun op hop => ?_, ns ++ ms, ?_, ?_⟩
    · rcases mem_append.mp hop with hop | hop
      · exact mem_appendOps hop
      · exact hmem op hop
    · rw [map_cons, run_cons, hentries, ← append_assoc, ← hentries']
      rfl
    · change (s.log.appendOps es ++ opsOf (s.call (.append es)) _).filterMap record = _
      rw [filterMap_append, hrecords', hrecords, numbered_append, ← length_append,
        ← hentries']
      rfl

end Store

end Nexus
