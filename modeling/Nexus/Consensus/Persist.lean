import Nexus.Consensus.RaftFiles

/-!
# The files follow the log

`Disk.Stores`: the files are those of the log. When every operation of a call is done, they are
those of the log after the call; the lemmas here are about one group of operations each, in the
order in which a call issues them, so that they also describe the files when only the first
groups are done.
-/

namespace Nexus

open Lib Segment RaftLog PartitionLog Disk List

/-- The files of the log, and nothing else, are on the disk. -/
structure Disk.Stores (d : Disk) (r : RaftLog) : Prop where
  logs : d.logs = r.log.segments.map Segment.file
  metas : d.metas = r.entries
  snap : d.snap = r.snapshotBase

/-- The files of a directory where a log has just been created. -/
def Disk.fresh : Disk := { logs := [{ baseOffset := 0 }] }

theorem Disk.fresh_stores (cfg : LogConfig) : fresh.Stores (create cfg) :=
  ⟨rfl, rfl, rfl⟩

/-! ## Groups of operations -/

/-- The segment with other blocks in its file. -/
def Segment.withBlocks (s : Segment) (blocks : List RecordBatch) : Segment := { s with blocks }

/-- A change of one file leaves the others alone. -/
theorem modifyLog_map_file {xs zs : List Segment} {s : Segment} (h : Ascending (xs ++ s :: zs))
    {d : Disk} (hd : d.logs = (xs ++ s :: zs).map file) (f : List RecordBatch → List RecordBatch) :
    d.modifyLog s.baseOffset f =
      { d with logs := (xs ++ s.withBlocks (f s.blocks) :: zs).map file } := by
  have hother : ∀ ts : List Segment, (∀ t ∈ ts, t.baseOffset ≠ s.baseOffset) →
      (ts.map file).map (fun file => if file.baseOffset = s.baseOffset then
        { file with blocks := f file.blocks } else file) = ts.map file := by
    intro ts hts
    rw [map_map]
    refine map_congr_left fun t ht => ?_
    exact if_neg (hts t ht)
  obtain ⟨-, hzs, hxs⟩ := pairwise_append.mp h
  unfold modifyLog
  rw [hd, map_append, map_append, map_cons, map_cons, map_append,
    map_cons, hother xs fun t ht => Int.ne_of_lt (hxs t ht s mem_cons_self),
    hother zs fun t ht => (Int.ne_of_lt ((pairwise_cons.mp hzs).1 t ht)).symm]
  congr 3
  exact if_pos rfl

theorem run_syncs {d : Disk} {ops : List FileOp} (h : ∀ op ∈ ops, ∃ base, op = .syncLog base) :
    run apply d ops = d := by
  induction ops with
  | nil => rfl
  | cons op ops ih =>
    obtain ⟨base, rfl⟩ := h op mem_cons_self
    exact ih fun op' hop' => h op' (.tail _ hop')

namespace PartitionLog

variable {l l' : PartitionLog} {bs : List RecordBatch} {d : Disk} {batch : RecordBatch} {last : Int}

theorem syncOps_syncs (base : Int) (bytes : Nat) :
    ∀ op ∈ l.syncOps base bytes, ∃ base, op = .syncLog base := by
  unfold syncOps
  split
  · simp
  · simp
  · split <;> simp

theorem Holds.run_rollOps (h : l.Holds bs) (hd : d.logs = l.segments.map Segment.file) :
    run apply d l.rollOps = { d with logs := l.rolled.segments.map Segment.file } := by
  unfold rollOps PartitionLog.rolled
  by_cases hroll : l.mustRoll
  · rw [if_pos hroll, if_pos hroll]
    have hsegs : l.rollSegment.segments =
        l.older ++ [l.active.sealSegment] ++ [Segment.create l.logEndOffset] := rfl
    have hasc := (h.rollSegment (blocks_ne_nil_of_mustRoll hroll)).ascending
    rw [hsegs] at hasc ⊢
    have hfiles : (l.older ++ [l.active.sealSegment]).map Segment.file =
        l.segments.map Segment.file := by
      rw [segments, map_append, map_append]
      rfl
    have hnew : d.logs.any (·.baseOffset == l.logEndOffset) = false := by
      rw [hd, ← hfiles, any_map, any_eq_false]
      intro s hs
      have := (pairwise_append.mp hasc).2.2 s hs _ (mem_singleton_self _)
      have hne : s.baseOffset ≠ l.logEndOffset := Int.ne_of_lt this
      simpa [Segment.file] using hne
    simp only [run_cons, run_nil, apply, hnew]
    rw [map_append, hfiles, ← hd]
    rfl
  · rw [if_neg hroll, if_neg hroll, ← hd]
    rfl

/-- The files when the block is written. -/
theorem Holds.writeLog_active (h : l.Holds bs) (hd : d.logs = l.segments.map file)
    (block : RecordBatch) :
    d.apply (.writeLog l.active.baseOffset block) =
      { d with logs := (l.older ++
          [l.active.withBlocks (l.active.blocks ++ [block])]).map file } :=
  modifyLog_map_file h.ascending hd (· ++ [block])

theorem maybeSync_segments (l : PartitionLog) (bytes : Nat) :
    (l.maybeSync bytes).older = l.older ∧ (l.maybeSync bytes).active = l.active := by
  obtain ⟨p, b, heq⟩ := maybeSync_eq l bytes
  rw [heq]
  exact ⟨rfl, rfl⟩

theorem append_segments (h : l.append batch = .ok (l', last)) :
    l'.segments = l.rolled.older ++ [l.rolled.active.withBlocks
      (l.rolled.active.blocks ++ [batch.rebase l.rolled.logEndOffset])] := by
  unfold append Segment.append at h
  dsimp only at h
  by_cases hclosed : l.rolled.active.state = .closed
  · rw [if_pos hclosed] at h
    cases h
  · rw [if_neg hclosed] at h
    cases h
    rw [segments, (maybeSync_segments _ _).1, (maybeSync_segments _ _).2]
    rfl

section

variable (h : l.Holds bs)

include h

/-- The files once the block is written, whatever is synced after it. -/
theorem Holds.run_written (hd : d.logs = l.segments.map file)
    (happ : l.append batch = .ok (l', last)) {syncs : List FileOp}
    (hs : ∀ op ∈ syncs, ∃ base, op = .syncLog base) :
    run apply d (l.rollOps ++ .writeLog l.rolled.active.baseOffset
      (batch.rebase l.logEndOffset) :: syncs) =
      { d with logs := l'.segments.map file } := by
  obtain ⟨hrolled, -, hend⟩ := h.rolled
  rw [run_append, h.run_rollOps hd, run_cons, hrolled.writeLog_active rfl, run_syncs hs,
    append_segments happ, hend]

/-- All the operations of an `append` on the partition log. -/
theorem Holds.run_appendOps (hd : d.logs = l.segments.map file)
    (happ : l.append batch = .ok (l', last)) :
    run apply d (l.appendOps batch) =
      { d with logs := l'.segments.map file } :=
  h.run_written hd happ (syncOps_syncs _ _)

/-- What `truncate_to` does to the files: the later segments go, then the target is cut. -/
theorem Holds.truncateToOps_eq {k : Nat} (hk : k < bs.length) :
    ∃ before target later j l', l.segments = before ++ target :: later ∧
      j < target.blocks.length ∧ bs.take k = flat before ++ target.blocks.take j ∧
      l.truncateToOps (endOf l.logStartOffset (bs.take k)) =
        removeOps later ++ [.truncateLog target.baseOffset j] ∧
      l.truncateTo (endOf l.logStartOffset (bs.take k)) = .ok l' ∧
      l'.segments.map file =
        (before ++ [target.withBlocks (target.blocks.take j)]).map file := by
  obtain ⟨hge, hlt⟩ := h.endOf_take_lt hk
  rcases hseek : seek (endOf l.logStartOffset (bs.take k)) l.older l.active with ⟨before, target⟩
  obtain ⟨later, j, hsegs, hj, hcut, hoff, -⟩ := h.seek_cut hk hseek
  have hchain : Chain target.baseOffset target.blocks := by
    have hlayout := h.layout
    rw [hsegs, layout_append, layout_cons] at hlayout
    rw [hlayout.2.1]
    exact hlayout.2.2.1
  have hlater : l.segments.drop (before.length + 1) = later := by
    rw [hsegs, ← drop_drop, drop_left]
    rfl
  unfold truncateToOps laterThan PartitionLog.truncateTo
  rw [if_neg (by omega), if_neg (by omega), if_neg (by omega), if_neg (by omega), hseek]
  dsimp only
  rw [hlater, hoff, positionOf_spec hchain hj, truncateTo_spec hchain hj]
  dsimp only
  rw [if_pos hj]
  refine ⟨before, target, later, j, _, hsegs, hj, hcut, rfl, rfl, ?_⟩
  rw [segments, map_append, map_append]
  rfl

/-- The files when `truncate_to` is done. -/
theorem Holds.run_truncateLog (hd : d.logs = l.segments.map file)
    {before later : List Segment} {target : Segment} {j : Nat}
    (hsegs : l.segments = before ++ target :: later) :
    run apply d (removeOps later ++ [.truncateLog target.baseOffset j]) =
      { d with
        logs := (before ++ [target.withBlocks (target.blocks.take j)]).map file } := by
  have hsegs' : l.segments = (before ++ [target]) ++ (later ++ []) := by rw [hsegs]; simp
  have hasc := h.ascending
  rw [hsegs'] at hasc
  have hremoved := run_removeOps hasc (by rw [hd, hsegs'])
  rw [append_nil] at hremoved
  rw [run_append, hremoved]
  exact modifyLog_map_file (hasc.sublist (sublist_append_left _ _)) rfl (·.take j)

end

theorem dropPrefix_suffix (offset : Int) (older : List Segment) (active : Segment) :
    dropPrefix offset older active <:+ older := by
  induction older with
  | nil => exact suffix_refl _
  | cons s rest ih =>
    unfold dropPrefix
    split
    · exact ih.trans (suffix_cons s rest)
    · exact suffix_refl _

/-- `truncate_prefix_to` drops the first segments and keeps the others. -/
theorem segments_droppedBy {offset : Int} (h : l.truncatePrefixTo offset = .ok l') :
    l.segments = l.droppedBy offset ++ l'.segments := by
  unfold truncatePrefixTo at h
  unfold droppedBy
  by_cases hlo : offset ≤ l.logStartOffset
  · rw [if_pos hlo] at h
    cases h
    rw [if_pos (.inl hlo)]
    rfl
  rw [if_neg hlo] at h
  by_cases hhi : offset > l.logEndOffset
  · rw [if_pos hhi] at h
    cases h
  rw [if_neg hhi] at h
  cases h
  obtain ⟨dropped, hdropped⟩ := dropPrefix_suffix offset l.older l.active
  have hlen : l.older.length - (dropPrefix offset l.older l.active).length = dropped.length := by
    have := congrArg length hdropped
    rw [length_append] at this
    omega
  have htake : l.older.take dropped.length = dropped :=
    (prefix_iff_eq_take.mp ⟨_, hdropped⟩).symm
  rw [if_neg (by omega), hlen, htake, segments, segments, ← append_assoc, hdropped]

end PartitionLog

namespace RaftLog

variable {d : Disk} {es : List EntryMeta} {k : Nat} {done : List FileOp}

/-- The records from a slot on are overwritten. -/
theorem run_writeMetas {xs ys : List EntryMeta} (hd : d.metas = xs ++ ys)
    (hle : es.length ≤ ys.length) :
    run apply d (writeMetas xs.length es) =
      { d with metas := xs ++ (es ++ ys.drop es.length) } := by
  induction es generalizing d xs ys with
  | nil => rw [nil_append, length_nil, drop_zero, ← hd]; rfl
  | cons e es ih =>
    cases ys with
    | nil => simp at hle
    | cons y ys =>
      have hwrite : d.apply (.writeMeta xs.length e) = { d with metas := (xs ++ [e]) ++ ys } := by
        simp [apply, writeRecord, hd]
      have hlen : xs.length + 1 = (xs ++ [e]).length := by simp
      rw [writeMetas, run_cons, hwrite, hlen, ih rfl (by simpa using hle)]
      simp

theorem run_writeMetas_zero (hle : es.length ≤ d.metas.length) :
    run apply d (writeMetas 0 es) = { d with metas := es ++ d.metas.drop es.length } :=
  run_writeMetas (nil_append _).symm hle

theorem prefix_writeMetas {slot : Nat} (h : done <+: writeMetas slot es) :
    ∃ es', es' <+: es ∧ done = writeMetas slot es' := by
  induction es generalizing slot done with
  | nil => exact ⟨[], nil_prefix, prefix_nil.mp h⟩
  | cons e es ih =>
    rcases prefix_cons_iff.mp h with rfl | ⟨done', rfl, h'⟩
    · exact ⟨[], nil_prefix, rfl⟩
    · obtain ⟨es', hes', rfl⟩ := ih h'
      exact ⟨e :: es', (prefix_cons_inj e).mpr hes', rfl⟩

theorem any_writeMetas {p : FileOp → Bool} (hp : ∀ slot e, p (.writeMeta slot e) = false)
    (slot : Nat) (es : List EntryMeta) : (writeMetas slot es).any p = false := by
  induction es generalizing slot with
  | nil => rfl
  | cons e es ih => rw [writeMetas, any_cons, hp, ih]; rfl

/-- The files when the new snapshot is saved and perhaps the records too: there are as many
records as before until the file is cut. -/
theorem run_sidecars {base : SnapshotBase} (hle : es.length ≤ d.metas.length)
    (hdone : done <+: persistSnapshotOps base ++ rewriteMetaOps es) (hne : done ≠ []) :
    ∃ metas, run apply d done = { d with metas, snap := base } ∧
      if done.any FileOp.cutsRecords then metas = es else metas.length = d.metas.length := by
  rcases prefix_append_cases hdone with hsnap | ⟨rest, -, hrest, rfl⟩
  · rcases prefix_pair hsnap hne with rfl | rfl
    · exact ⟨d.metas, rfl, rfl⟩
    · exact ⟨d.metas, rfl, rfl⟩
  rw [run_append, any_append]
  change ∃ metas, run apply { d with snap := base } rest = _ ∧
    if (false || rest.any FileOp.cutsRecords) then _ else _
  rw [Bool.false_or]
  rcases prefix_append_cases hrest with hwrites | ⟨cut, hcut, hprefix, rfl⟩
  · obtain ⟨es', hes', rfl⟩ := prefix_writeMetas hwrites
    have hle' := Nat.le_trans hes'.length_le hle
    rw [any_writeMetas (fun _ _ => rfl)]
    refine ⟨_, run_writeMetas_zero hle', ?_⟩
    rw [if_neg Bool.false_ne_true, length_append, length_drop]
    exact Nat.add_sub_of_le hle'
  · have hcuts := prefix_pair hprefix hcut
    refine ⟨es, ?_, ?_⟩
    · rw [run_append, run_writeMetas_zero (d := { d with snap := base }) hle]
      have htrunc : ∀ d' : Disk, d'.apply (.truncateMeta es.length) =
          { d' with metas := d'.metas.take es.length } := fun _ => rfl
      rcases hcuts with rfl | rfl
      · rw [run_cons, htrunc, take_left]
        rfl
      · rw [run_cons, htrunc, take_left]
        rfl
    · rw [any_append]
      rcases hcuts with rfl | rfl
      · simp [FileOp.cutsRecords]
      · simp [FileOp.cutsRecords]

/-! ## Whole calls -/

variable {r : RaftLog} {pre : List RecordBatch} {live full : List LogEntry} {lastOffset : Int}
  {e : LogEntry}

theorem writeRecord_end (metas : List EntryMeta) (e : EntryMeta) :
    writeRecord metas metas.length e = metas ++ [e] := by
  unfold writeRecord
  rw [take_length, Nat.sub_self, drop_of_length_le (Nat.le_succ _)]
  simp

/-- One entry: the block, then its record. -/
theorem Live.stores_push (h : r.Live pre live) (hd : d.Stores r) {batch : RecordBatch}
    {log : PartitionLog} {last : Int} (happ : r.log.append batch = .ok (log, last))
    (m : EntryMeta) :
    (run apply d (r.log.appendOps batch ++ [.writeMeta r.entries.length m])).Stores
      { r with log, entries := r.entries ++ [m] } := by
  rw [run_append, h.log.run_appendOps hd.logs happ]
  refine ⟨rfl, ?_, hd.snap⟩
  change writeRecord d.metas r.entries.length m = r.entries ++ [m]
  rw [hd.metas, writeRecord_end]

theorem slotOf_add (r : RaftLog) (k : Nat) : r.slotOf (r.snapshotIndex + k + 1) = k := by
  unfold slotOf
  omega

theorem Live.getElem?_entries (h : r.Live pre live) (he : live[k]? = some e) :
    r.entries[k]? = some e.toMeta := by
  rw [h.entries, getElem?_map, he]
  rfl

/-- The operations of an effective `truncate_from`, and the log after it. -/
theorem Live.truncateFromOps_eq (h : r.Live pre live) (hk : k < live.length) :
    ∃ before target later j r', r.log.segments = before ++ target :: later ∧
      j < target.blocks.length ∧
      target.blocks.drop j ++ flat later = batches (live.drop k) ∧
      r.truncateFromOps (r.snapshotIndex + k + 1) = removeOps later ++
        [.truncateLog target.baseOffset j, .truncateMeta k] ∧
      r.truncateFrom (r.snapshotIndex + k + 1) = .ok r' ∧
      r'.log.segments.map file =
        (before ++ [target.withBlocks (target.blocks.take j)]).map file ∧
      r'.entries = r.entries.take k ∧ r'.snapshotBase = r.snapshotBase ∧
      r'.Live pre (live.take k) ∧ r'.log.logStartOffset = r.log.logStartOffset := by
  obtain ⟨e, he⟩ : ∃ e, live[k]? = some e := ⟨_, getElem?_eq_getElem hk⟩
  have hbase := h.baseOffset_eq he
  have hlast : r.snapshotIndex + k + 1 ≤ r.lastIndex := by
    rw [lastIndex, h.entries, length_map]
    omega
  have hlen : pre.length + k < (pre ++ batches live).length := by
    rw [length_append, length_batches]
    omega
  obtain ⟨before, target, later, j, log, hsegs, hj, hcut, hops, htrunc, hfiles⟩ :=
    h.log.truncateToOps_eq hlen
  obtain ⟨log', htrunc', hholds, hstart⟩ := h.log.truncateTo (Nat.le_of_lt hlen)
  rw [htrunc] at htrunc'
  cases htrunc'
  have hflat : (pre ++ batches live).take (pre.length + k) ++ (target.blocks.drop j ++ flat later) =
      (pre ++ batches live).take (pre.length + k) ++ batches (live.drop k) := by
    have hdrop : (pre ++ batches live).drop (pre.length + k) = batches (live.drop k) :=
      drop_append_batches live k
    conv => rhs; rw [← hdrop, take_append_drop]
    rw [hcut, append_assoc, ← append_assoc (target.blocks.take j),
      take_append_drop, ← flat_cons, ← flat_append, ← hsegs, h.log.blocks]
  refine ⟨before, target, later, j, { r with log, entries := r.entries.take k }, hsegs, hj,
    append_cancel_left hflat, ?_, ?_, hfiles, rfl, rfl, ⟨?_, ?_⟩, hstart⟩
  · unfold truncateFromOps
    rw [if_neg (by omega), slotOf_add, h.getElem?_entries he]
    dsimp only
    rw [hbase, hops, htrunc, append_assoc]
    rfl
  · unfold truncateFrom
    rw [if_neg (by omega), if_neg (by omega), if_neg (by omega), slotOf_add, h.getElem?_entries he]
    dsimp only
    rw [hbase, htrunc]
  · dsimp only
    rw [h.entries, map_take]
  · dsimp only
    rw [← take_append_batches]
    exact hholds

/-- The operations of an effective `compact_to`, and the log after it. -/
theorem Live.compactToOps_eq (h : r.Live pre live) (he : live[k]? = some e) :
    ∃ dropped r' pre', r.log.segments = dropped ++ r'.log.segments ∧
      r.compactToOps (r.snapshotIndex + k + 1) = removeOps dropped ++
        (persistSnapshotOps r'.snapshotBase ++ rewriteMetaOps r'.entries) ∧
      r.compactTo (r.snapshotIndex + k + 1) = .ok r' ∧ r'.entries = r.entries.drop (k + 1) ∧
      r'.snapshotBase = ⟨r.snapshotIndex + k + 1, e.term, e.batch.lastOffset⟩ ∧
      r'.Live pre' (live.drop (k + 1)) ∧
      endOf r'.log.logStartOffset pre' = e.batch.lastOffset + 1 := by
  have hlast : e.toMeta.lastOffset + 1 =
      endOf r.log.logStartOffset ((pre ++ batches live).take (pre.length + (k + 1))) :=
    Live.lastOffset_eq r he
  obtain ⟨log, j, htrunc, hj, hholds, hstart⟩ := h.log.truncatePrefixTo (pre.length + (k + 1))
  rw [← hlast] at htrunc
  have hsplit : (pre ++ batches live).drop j =
      ((pre ++ batches live).drop j).take (pre.length + (k + 1) - j) ++
        batches (live.drop (k + 1)) := by
    conv => lhs; rw [← take_append_drop (pre.length + (k + 1) - j)
      ((pre ++ batches live).drop j)]
    rw [drop_drop, Nat.add_sub_of_le hj, drop_append_batches]
  refine ⟨r.log.droppedBy (e.toMeta.lastOffset + 1),
    { log, entries := r.entries.drop (k + 1), snapshotIndex := r.snapshotIndex + k + 1,
      snapshotTerm := e.toMeta.term, snapshotLastOffset := e.toMeta.lastOffset },
    ((pre ++ batches live).drop j).take (pre.length + (k + 1) - j),
    segments_droppedBy htrunc, ?_, ?_, rfl, rfl, ⟨?_, ?_⟩, ?_⟩
  · unfold compactToOps
    rw [if_neg (by omega), slotOf_add, h.getElem?_entries he]
    dsimp only
    rw [htrunc, append_assoc]
    rfl
  · unfold compactTo
    rw [if_neg (by omega), slotOf_add, h.getElem?_entries he]
    dsimp only
    rw [htrunc]
  · dsimp only
    rw [h.entries, map_drop]
  · dsimp only
    rw [← hsplit]
    exact hholds
  · dsimp only
    rw [hstart, ← endOf_append, ← take_add, Nat.add_sub_of_le hj, ← hlast]
    rfl

/-- The operations of `reset_to`, and the log after it. -/
theorem resetToOps_eq (r : RaftLog) (index term : Nat) (h : 0 ≤ lastOffset + 1) :
    ∃ r', r.resetTo index term lastOffset = .ok r' ∧
      r.resetToOps index term lastOffset = removeOps r.log.segments ++
        .createLog (lastOffset + 1) ::
          (persistSnapshotOps { index, term, lastOffset } ++ rewriteMetaOps []) ∧
      r'.log.segments = [.create (lastOffset + 1)] ∧ r'.entries = [] ∧
      r'.snapshotBase = { index, term, lastOffset } := by
  unfold resetTo resetToOps PartitionLog.resetToOps PartitionLog.resetTo
  rw [if_neg (by omega), if_neg (by omega), if_neg (by omega)]
  exact ⟨_, rfl, by simp, rfl, rfl, rfl⟩

/-- Entries that end at a given offset, if there is room for them. -/
theorem exists_chain (n : Nat) : ∃ xs : List LogEntry, xs.length = n ∧ Chain 0 (batches xs) ∧
    endOf 0 (batches xs) = n := by
  induction n with
  | zero => exact ⟨[], rfl, trivial, rfl⟩
  | succ n ih =>
    obtain ⟨xs, hlen, hchain, hend⟩ := ih
    refine ⟨xs ++ [⟨0, .data, { header := { baseOffset := n, recordCount := 1 } }⟩],
      by rw [length_append, hlen]; rfl, ?_, ?_⟩
    · rw [batches_append, chain_append, hend]
      exact ⟨hchain, rfl, Int.le_refl _, trivial⟩
    · rw [batches_append, endOf_append]
      change (n : Int) + 1 - 1 + 1 = _
      omega

/-- An installed snapshot stands for some list of entries, if it has room for them. -/
theorem view_resetTo_of_le (r : RaftLog) {index : Nat} (term : Nat) (hpos : 0 < index)
    (hle : (index : Int) ≤ lastOffset + 1) :
    ∃ r' ys, r.resetTo index term lastOffset = .ok r' ∧ r'.View ys := by
  obtain ⟨xs, hlen, hchain, hend⟩ := exists_chain (index - 1)
  have hlast : lastOffset =
      ((index - 1 : Nat) : Int) + (lastOffset - (index - 1 : Nat) + 1) - 1 := by omega
  let last : LogEntry := ⟨term, .data, { header := {
    baseOffset := (index - 1 : Nat), recordCount := lastOffset - (index - 1 : Nat) + 1 } }⟩
  have hchain' : Chain 0 (batches (xs ++ [last])) := by
    rw [batches_append, chain_append, hend]
    exact ⟨hchain, rfl, by dsimp only [last, batches]; omega, trivial⟩
  obtain ⟨r', hr', hview, -⟩ := view_resetTo r hchain' (e := last) (by simp) rfl hlast
  rw [length_append, hlen, length_singleton, Nat.sub_add_cancel hpos] at hr'
  exact ⟨r', _, hr', hview⟩

end RaftLog

/-- The batches have records, and a snapshot does not cover more entries than offsets. -/
def Call.Valid : Call → Prop
  | .append entries => ∀ e ∈ entries, 1 ≤ e.payload.header.recordCount
  | .truncateFrom _ | .compactTo _ => True
  | .installSnapshot index _ lastOffset => (index : Int) ≤ lastOffset + 1

namespace RaftLog

variable {r r' : RaftLog} {pre : List RecordBatch} {live full : List LogEntry} {d : Disk}
  {index term : Nat} {lastOffset : Int}

section

variable (hi : ¬ (r.snapshotIndex < index ∧ index ≤ r.lastIndex))

include hi

/-- A refused or empty `truncate_from` does nothing. -/
theorem truncateFrom_none :
    r.truncateFromOps index = [] ∧ (Call.truncateFrom index).result r = r := by
  constructor
  · unfold truncateFromOps
    rw [if_pos (by omega)]
  · unfold Call.result truncateFrom
    dsimp only
    by_cases h1 : index < 1
    · rw [if_pos h1]; rfl
    by_cases h2 : index ≤ r.snapshotIndex
    · rw [if_neg h1, if_pos h2]; rfl
    · rw [if_neg h1, if_neg h2, if_pos (by omega)]; rfl

/-- A refused or empty `compact_to` does nothing. -/
theorem compactTo_none :
    r.compactToOps index = [] ∧ (Call.compactTo index).result r = r := by
  unfold compactToOps Call.result compactTo
  dsimp only
  by_cases h1 : index ≤ r.snapshotIndex
  · rw [if_pos h1, if_pos h1]
    exact ⟨rfl, rfl⟩
  · have hnone : r.entries[r.slotOf index]? = none := by
      refine getElem?_eq_none ?_
      unfold lastIndex at hi
      unfold slotOf
      omega
    rw [if_neg h1, if_neg h1, hnone]
    exact ⟨rfl, rfl⟩

end

/-- When the entry is held, `install_snapshot` is a compaction. -/
theorem installSnapshot_holds (lastOffset : Int) (hi : r.snapshotIndex < index)
    (hh : r.holds index term) :
    r.installSnapshotOps index term lastOffset = r.compactToOps index ∧
    (Call.installSnapshot index term lastOffset).result r = (Call.compactTo index).result r := by
  unfold installSnapshotOps Call.result installSnapshot
  rw [if_neg (by omega), if_pos hh]
  dsimp only
  rw [if_neg (by omega), if_pos hh]
  refine ⟨rfl, ?_⟩
  cases r.compactTo index <;> rfl

/-- When the entry is not held, `install_snapshot` is a reset. -/
theorem installSnapshot_reset (hi : r.snapshotIndex < index) (hh : ¬ r.holds index term)
    (hr : r.resetTo index term lastOffset = .ok r') :
    r.installSnapshotOps index term lastOffset = r.resetToOps index term lastOffset ∧
    (Call.installSnapshot index term lastOffset).result r = r' := by
  unfold installSnapshotOps Call.result installSnapshot
  rw [if_neg (by omega), if_neg hh]
  dsimp only
  rw [if_neg (by omega), if_neg hh, if_neg (by simp), hr]
  exact ⟨rfl, rfl⟩

/-- The log after a valid call stands for some list of entries. -/
theorem View.result (h : r.View full) {call : Call} (hc : call.Valid) :
    ∃ full', (call.result r).View full' := by
  have hcompact : ∀ index, ∃ full', ((Call.compactTo index).result r).View full' := by
    intro index
    by_cases hi : r.snapshotIndex < index ∧ index ≤ r.lastIndex
    · obtain ⟨r', hr', hview, -⟩ := h.compactTo (k := index) (by rw [← h.lastIndex]; exact hi.2)
      refine ⟨full, ?_⟩
      change ((r.compactTo index).toOption.getD r).View full
      rw [hr']
      exact hview
    · rw [(compactTo_none hi).2]
      exact ⟨full, h⟩
  cases call with
  | append entries =>
    obtain ⟨j, -, hview, -⟩ := h.append none hc
    exact ⟨_, hview⟩
  | truncateFrom index =>
    by_cases hi : r.snapshotIndex < index ∧ index ≤ r.lastIndex
    · obtain ⟨r', hr', hview, -⟩ := h.truncateFrom (k := index - 1) (by omega)
        (by rw [← h.lastIndex]; omega)
      rw [Nat.sub_add_cancel (by omega)] at hr'
      refine ⟨full.take (index - 1), ?_⟩
      change ((r.truncateFrom index).toOption.getD r).View _
      rw [hr']
      exact hview
    · rw [(truncateFrom_none hi).2]
      exact ⟨full, h⟩
  | compactTo index => exact hcompact index
  | installSnapshot index term lastOffset =>
    by_cases hi : index ≤ r.snapshotIndex
    · refine ⟨full, ?_⟩
      change ((r.installSnapshot .done index term lastOffset).1).View full
      unfold installSnapshot
      rw [if_pos hi]
      exact h
    by_cases hh : r.holds index term
    · rw [(installSnapshot_holds lastOffset (by omega) hh).2]
      exact hcompact index
    · obtain ⟨r', ys, hr', hview⟩ := view_resetTo_of_le r term (by omega) hc
      rw [(installSnapshot_reset (by omega) hh hr').2]
      exact ⟨ys, hview⟩

/-- One more entry at the end. -/
theorem Live.push (h : r.Live pre live) {e : RaftLogEntry}
    (hc : 1 ≤ e.payload.header.recordCount) :
    ∃ log, r.log.append e.payload =
        .ok (log, (e.payload.rebase r.log.logEndOffset).lastOffset) ∧
      RaftLog.Live
        { r with
          log
          entries := r.entries ++ [⟨e.term, r.log.logEndOffset,
            (e.payload.rebase r.log.logEndOffset).lastOffset, e.type⟩] } pre
        (live ++ [⟨e.term, e.type, e.payload.rebase r.log.logEndOffset⟩]) ∧
      log.logStartOffset = r.log.logStartOffset := by
  obtain ⟨log, happ, hholds, hstart⟩ := h.log.append hc
  refine ⟨log, happ, ⟨?_, ?_⟩, hstart⟩
  · dsimp only
    rw [h.entries, map_append]
    rfl
  · dsimp only
    rw [batches_append, ← append_assoc]
    exact hholds

/-- `append` writes the entries one after another, each to the partition log and to its record. -/
theorem Live.append (h : r.Live pre live) (hd : d.Stores r) {es : List RaftLogEntry}
    (hc : ∀ e ∈ es, 1 ≤ e.payload.header.recordCount) :
    (r.append none es).2.toBool ∧
    (r.append none es).1.Live pre (live ++ place r.log.logEndOffset es) ∧
    (r.append none es).1.snapshotBase = r.snapshotBase ∧
    (r.append none es).1.log.logStartOffset = r.log.logStartOffset ∧
    (run apply d (r.appendOps es)).Stores (r.append none es).1 := by
  induction es generalizing r live d with
  | nil => exact ⟨rfl, by simpa [append, place] using h, rfl, rfl, hd⟩
  | cons e es ih =>
    obtain ⟨log, happ, hlive, hstart⟩ := h.push (hc e mem_cons_self)
    have hend : log.logEndOffset = (e.payload.rebase r.log.logEndOffset).lastOffset + 1 := by
      rw [hlive.log.logEnd, batches_append, ← append_assoc, endOf_append]
      rfl
    obtain ⟨hok, hlive', hbase', hstart', hstores'⟩ := ih hlive
      (h.stores_push hd happ ⟨e.term, r.log.logEndOffset,
        (e.payload.rebase r.log.logEndOffset).lastOffset, e.type⟩)
      (fun x hx => hc x (.tail _ hx))
    rw [append_cons (by simp) happ, appendOps, happ]
    dsimp only at hlive' hstart' ⊢
    rw [hend, append_assoc] at hlive'
    rw [hstart] at hstart'
    rw [List.append_cons (r.log.appendOps e.payload), run_append]
    exact ⟨hok, hlive', hbase', hstart', hstores'⟩

theorem Live.stores_truncateFrom (h : r.Live pre live) (hd : d.Stores r) (index : Nat) :
    (run apply d (r.truncateFromOps index)).Stores
      ((Call.truncateFrom index).result r) := by
  by_cases hi : r.snapshotIndex < index ∧ index ≤ r.lastIndex
  · obtain ⟨k, rfl⟩ : ∃ k, index = r.snapshotIndex + k + 1 :=
      ⟨index - r.snapshotIndex - 1, by omega⟩
    have hk : k < live.length := by
      rw [lastIndex, h.entries, length_map] at hi
      omega
    obtain ⟨before, target, later, j, r', hsegs, -, -, hops, hr', hfiles, hentries, hbase, -⟩ :=
      h.truncateFromOps_eq hk
    have hresult : (Call.truncateFrom (r.snapshotIndex + k + 1)).result r = r' := by
      change (r.truncateFrom (r.snapshotIndex + k + 1)).toOption.getD r = r'
      rw [hr']
      rfl
    rw [hresult, hops, List.append_cons, run_append, h.log.run_truncateLog hd.logs hsegs,
      ← hfiles]
    refine ⟨rfl, ?_, ?_⟩
    · change d.metas.take k = r'.entries
      rw [hd.metas, hentries]
    · change d.snap = r'.snapshotBase
      rw [hd.snap, hbase]
  · obtain ⟨hops, hresult⟩ := truncateFrom_none hi
    rw [hops, hresult]
    exact hd

/-- When the records are cut, the sidecars are the new ones. -/
theorem stores_sidecars (hlogs : d.logs = r'.log.segments.map file)
    (hle : r'.entries.length ≤ d.metas.length) {done : List FileOp}
    (hdone : done <+: persistSnapshotOps r'.snapshotBase ++ rewriteMetaOps r'.entries)
    (hcut : done.any FileOp.cutsRecords) : (run apply d done).Stores r' := by
  have hne : done ≠ [] := by
    rintro rfl
    cases hcut
  obtain ⟨metas, hrun, hmetas⟩ := run_sidecars hle hdone hne
  rw [if_pos hcut] at hmetas
  rw [hrun, hmetas]
  exact ⟨hlogs, rfl, rfl⟩

theorem any_sidecars (base : SnapshotBase) (es : List EntryMeta) :
    (persistSnapshotOps base ++ rewriteMetaOps es).any FileOp.cutsRecords := by
  unfold rewriteMetaOps
  simp [FileOp.cutsRecords]

theorem Live.stores_compactTo (h : r.Live pre live) (hd : d.Stores r) (index : Nat) :
    (run apply d (r.compactToOps index)).Stores ((Call.compactTo index).result r) := by
  by_cases hi : r.snapshotIndex < index ∧ index ≤ r.lastIndex
  · obtain ⟨k, rfl⟩ : ∃ k, index = r.snapshotIndex + k + 1 :=
      ⟨index - r.snapshotIndex - 1, by omega⟩
    obtain ⟨e, he⟩ : ∃ e, live[k]? = some e := by
      rw [lastIndex, h.entries, length_map] at hi
      exact ⟨_, getElem?_eq_getElem (by omega)⟩
    obtain ⟨dropped, r', -, hsegs, hops, hr', hentries, -⟩ := h.compactToOps_eq he
    have hresult : (Call.compactTo (r.snapshotIndex + k + 1)).result r = r' := by
      change (r.compactTo (r.snapshotIndex + k + 1)).toOption.getD r = r'
      rw [hr']
      rfl
    have hasc := h.log.ascending
    rw [hsegs] at hasc
    rw [hresult, hops, run_append, run_removeOps_front hasc (by rw [hd.logs, hsegs])]
    refine stores_sidecars rfl ?_ (prefix_refl _) (any_sidecars _ _)
    dsimp only
    rw [hd.metas, hentries, length_drop]
    omega
  · obtain ⟨hops, hresult⟩ := compactTo_none hi
    rw [hops, hresult]
    exact hd

/-- The files after the reset of `install_snapshot`. -/
theorem Live.stores_resetTo (h : r.Live pre live) (hd : d.Stores r)
    (hr' : r.resetTo index term lastOffset = .ok r') :
    (run apply d (r.resetToOps index term lastOffset)).Stores r' := by
  by_cases hneg : 0 ≤ lastOffset + 1
  · obtain ⟨r'', hr'', hops, hsegs, hentries, hbase⟩ := resetToOps_eq r index term hneg
    rw [hr'] at hr''
    cases hr''
    have hasc := h.log.ascending
    rw [← append_nil r.log.segments] at hasc
    rw [hops, run_append, run_removeOps_front hasc (by rw [hd.logs, append_nil]), run_cons,
      ← hbase, ← hentries]
    refine stores_sidecars ?_ ?_ (prefix_refl _) (any_sidecars _ _)
    · rw [hsegs]
      rfl
    · rw [hentries]
      exact Nat.zero_le _
  · unfold resetTo PartitionLog.resetTo at hr'
    rw [if_pos (by omega)] at hr'
    cases hr'

theorem Live.stores_installSnapshot (h : r.Live pre live) (hd : d.Stores r)
    (hoff : r.snapshotIndex < index → ¬ r.holds index term → 0 ≤ lastOffset + 1) :
    (run apply d (r.installSnapshotOps index term lastOffset)).Stores
      ((Call.installSnapshot index term lastOffset).result r) := by
  by_cases hi : index ≤ r.snapshotIndex
  · change Disk.Stores _ (r.installSnapshot .done index term lastOffset).1
    unfold installSnapshotOps installSnapshot
    rw [if_pos hi, if_pos hi]
    exact hd
  by_cases hh : r.holds index term
  · obtain ⟨hops, hresult⟩ := installSnapshot_holds lastOffset (by omega) hh
    rw [hops, hresult]
    exact h.stores_compactTo hd index
  · obtain ⟨r', hr', -⟩ := resetToOps_eq r index term (hoff (by omega) hh)
    obtain ⟨hops, hresult⟩ := installSnapshot_reset (by omega) hh hr'
    rw [hops, hresult]
    exact h.stores_resetTo hd hr'

/-- When all the operations of a call are done, the files are those of the log after it. -/
theorem View.stores_result (h : r.View full) (hd : d.Stores r) {call : Call} (hc : call.Valid) :
    (run apply d (call.ops r)).Stores (call.result r) := by
  obtain ⟨pre, hlive⟩ := h.live
  cases call with
  | append entries => exact (hlive.append hd hc).2.2.2.2
  | truncateFrom index => exact hlive.stores_truncateFrom hd index
  | compactTo index => exact hlive.stores_compactTo hd index
  | installSnapshot index term lastOffset =>
    have hle : (index : Int) ≤ lastOffset + 1 := hc
    exact hlive.stores_installSnapshot hd fun _ _ => by omega

end RaftLog

end Nexus
