import Mathlib.Data.List.Chain
import Nexus.Consensus.RaftFiles

/-!
# Calls on a Raft log that fail

`RaftLog` and the partition log below it change their files and their memory in turns, and return as
soon as a file operation fails. Here each call says what the memory is then (`Failure.left`). The
file operations are grouped into stages (`Stage`): those of one stage find and leave the same
offsets and entries in memory.

After a failed call the memory is still coherent (`RaftState.Coherent`), with these exceptions
(`Call.Harms`): `append` fails after the batch is in the partition log and before its entry is
there, and `truncate_from` fails when the partition log is cut and the entries are not. A
`compact_to` that fails once the prefix is gone has dropped the entries too.
-/

namespace Nexus

open PartitionLog

/-- Where a file operation fails. -/
inductive Stage
  /-- `append`, `Segment::seal`: the index and the `.log` of the full segment are synced. -/
  | seal
  /-- `append` and `install_snapshot`, `Segment::create`: the files of a segment are opened and its
  header is written. -/
  | create
  /-- `append`: the block is written to the `.log`. -/
  | write
  /-- `append`, `maybe_sync`. -/
  | sync
  /-- `append`: the record of the entry is written to `raft-meta`. -/
  | record
  /-- `truncate_from`, `position_of`: the headers of the blocks are read. -/
  | locate
  /-- `truncate_from`: the `.log` is cut. -/
  | cut
  /-- `truncate_from`, `rebuild_index`. -/
  | reindex
  /-- `truncate_from`: `raft-meta` is cut. -/
  | trimRecords
  /-- `compact_to` and `install_snapshot`: a segment is removed from the tier. -/
  | untier
  /-- `compact_to` and `install_snapshot`: `raft-meta.snap` is written and synced. -/
  | snapshot
  /-- `compact_to` and `install_snapshot`: `raft-meta` is rewritten. -/
  | rewrite
  deriving DecidableEq

/-- The stage at which a file operation fails, if one does, and its error. -/
abbrev FileFault := Option (Stage × Error)

/-- How a call fails, and what it leaves in memory. There is no stage when the call is refused
without a failed file operation. -/
structure Failure (σ : Type) where
  error : Error
  stage : Option Stage
  left : σ

abbrev Attempt (σ α : Type) := Except (Failure σ) α

section Attempt

variable {σ α : Type} {fault : FileFault} {stage : Stage} {left : σ} {next : Attempt σ α}
  {f : Failure σ}

/-- One stage of a call, and the rest of it. -/
def perform (fault : FileFault) (stage : Stage) (left : σ) (next : Attempt σ α) : Attempt σ α :=
  match fault with
  | some (s, e) => if s = stage then .error ⟨e, some stage, left⟩ else next
  | none => next

def refuse (e : Error) (left : σ) : Attempt σ α := .error ⟨e, none, left⟩

@[simp] theorem perform_none : perform none stage left next = next := rfl

theorem perform_eq_error (h : perform fault stage left next = .error f) :
    (f.stage = some stage ∧ f.left = left) ∨ next = .error f := by
  unfold perform at h
  split at h
  · split at h
    · cases h
      exact .inl ⟨rfl, rfl⟩
    · exact .inr h
  · exact .inr h

theorem perform_eq_ok {a : α} (h : perform fault stage left next = .ok a) : next = .ok a := by
  unfold perform at h
  split at h
  · split at h
    · cases h
    · exact h
  · exact h

theorem refuse_eq_error {e : Error} (h : (refuse e left : Attempt σ α) = .error f) :
    f.stage = none ∧ f.left = left := by
  cases h
  exact ⟨rfl, rfl⟩

end Attempt

/-! ## The partition log -/

/-- The memory of a partition log. Its segments are a list, the last one the active one: a reset
that fails leaves none. -/
structure LogState where
  segments : List Segment
  logStartOffset : Int
  logEndOffset : Int
  recoveryPoint : Int
  bytesSinceSync : Nat
  deriving DecidableEq

namespace PartitionLog

variable {l l' : PartitionLog} {fault : FileFault} {f : Failure LogState} {offset : Int}
  {batch : RecordBatch}

def state (l : PartitionLog) : LogState where
  segments := l.segments
  logStartOffset := l.logStartOffset
  logEndOffset := l.logEndOffset
  recoveryPoint := l.recoveryPoint
  bytesSinceSync := l.bytesSinceSync

def attemptRoll (l : PartitionLog) (fault : FileFault) : Attempt LogState PartitionLog :=
  if l.mustRoll then
    perform fault .seal l.state <|
    perform fault .create
      ({ l with
        active := l.active.sealSegment
        recoveryPoint := l.logEndOffset
        bytesSinceSync := 0 } : PartitionLog).state <|
    .ok l.rollSegment
  else .ok l

/-- The bytes that `maybe_sync` counts before it syncs. -/
def counted (l : PartitionLog) (appendedBytes : Nat) : PartitionLog :=
  if l.cfg.fsyncPolicy = .interval then
    { l with bytesSinceSync := l.bytesSinceSync + appendedBytes }
  else l

/-- Does `maybe_sync` sync? -/
def syncDue (l : PartitionLog) (appendedBytes : Nat) : Bool :=
  match l.cfg.fsyncPolicy with
  | .none => false
  | .commit => true
  | .interval => l.bytesSinceSync + appendedBytes ≥ l.cfg.fsyncIntervalBytes

def attemptAppend (l : PartitionLog) (batch : RecordBatch) (fault : FileFault) :
    Attempt LogState (PartitionLog × Int) :=
  match l.attemptRoll fault with
  | .error f => .error f
  | .ok l =>
    let rebased := batch.rebase l.logEndOffset
    match l.active.append rebased with
    | .error e => refuse e l.state
    | .ok (active, last) =>
      perform fault .write l.state <|
      let l : PartitionLog := { l with active, logEndOffset := last + 1 }
      perform (if l.syncDue rebased.encodedSize then fault else none) .sync
        (l.counted rebased.encodedSize).state <|
      .ok (l.maybeSync rebased.encodedSize, last)

def attemptTruncateTo (l : PartitionLog) (offset : Int) (fault : FileFault) :
    Attempt LogState PartitionLog :=
  if offset = l.logEndOffset then .ok l
  else if offset > l.logEndOffset then
    refuse ⟨.outOfRange, "truncate_to por encima de log_end_offset"⟩ l.state
  else if offset < l.logStartOffset then
    refuse ⟨.outOfRange, "truncate_to por debajo de log_start_offset"⟩ l.state
  else
    let found := seek offset l.older l.active
    -- the later segments are gone from here on
    let left : PartitionLog := { l with older := found.1, active := found.2 }
    perform (if offset ≠ found.2.baseOffset then fault else none) .locate left.state <|
    match found.2.positionOf offset with
    | .error e => refuse e left.state
    | .ok k =>
      let target := { found.2 with blocks := found.2.blocks.take k }
      perform (if k < found.2.blocks.length then fault else none) .cut left.state <|
      perform fault .reindex ({ left with active := target } : PartitionLog).state <|
      .ok { l with
        older := found.1
        active := { target with state := .active }
        logEndOffset := offset
        recoveryPoint := min l.recoveryPoint offset
        bytesSinceSync := 0 }

def attemptTruncatePrefixTo (l : PartitionLog) (offset : Int) (fault : FileFault) :
    Attempt LogState PartitionLog :=
  if offset ≤ l.logStartOffset then .ok l
  else if offset > l.logEndOffset then
    refuse ⟨.outOfRange, "truncate_prefix_to por encima de log_end_offset"⟩ l.state
  else
    perform fault .untier l.state <|
    let older := dropPrefix offset l.older l.active
    .ok { l with older, logStartOffset := (older.headD l.active).baseOffset }

def attemptResetTo (l : PartitionLog) (offset : Int) (fault : FileFault) :
    Attempt LogState PartitionLog :=
  if offset < 0 then refuse ⟨.invalidArgument, "reset_to: offset negativo"⟩ l.state
  else
    perform fault .untier l.state <|
    perform fault .create { l.state with segments := [] } <|
    .ok { l with
      older := []
      active := .create offset
      logStartOffset := offset
      logEndOffset := offset
      recoveryPoint := offset
      bytesSinceSync := 0 }

/-! ### Without a failure -/

theorem attemptAppend_none (l : PartitionLog) (batch : RecordBatch) :
    (l.attemptAppend batch none).mapError Failure.error = l.append batch := by
  have hroll : l.attemptRoll none = .ok l.rolled := by
    unfold attemptRoll rolled
    split <;> rfl
  unfold attemptAppend append
  rw [hroll]
  dsimp only
  cases l.rolled.active.append (batch.rebase l.rolled.logEndOffset) with
  | error e => rfl
  | ok p =>
    simp only [perform_none, ite_self]
    rfl

theorem attemptTruncateTo_none (l : PartitionLog) (offset : Int) :
    (l.attemptTruncateTo offset none).mapError Failure.error = l.truncateTo offset := by
  unfold attemptTruncateTo truncateTo Segment.truncateTo
  split
  · rfl
  split
  · rfl
  split
  · rfl
  dsimp only
  rw [ite_self, perform_none]
  cases (seek offset l.older l.active).2.positionOf offset with
  | error e => rfl
  | ok k =>
    dsimp only
    rw [ite_self]
    rfl

theorem attemptTruncatePrefixTo_none (l : PartitionLog) (offset : Int) :
    (l.attemptTruncatePrefixTo offset none).mapError Failure.error =
      l.truncatePrefixTo offset := by
  unfold attemptTruncatePrefixTo truncatePrefixTo
  split
  · rfl
  split <;> rfl

theorem attemptResetTo_none (l : PartitionLog) (offset : Int) :
    (l.attemptResetTo offset none).mapError Failure.error = l.resetTo offset := by
  unfold attemptResetTo resetTo
  split <;> rfl

/-! ### What a failure leaves -/

theorem attemptRoll_ok (h : l.attemptRoll fault = .ok l') :
    l'.logStartOffset = l.logStartOffset ∧ l'.logEndOffset = l.logEndOffset := by
  unfold attemptRoll at h
  split at h
  · cases perform_eq_ok (perform_eq_ok h)
    exact ⟨rfl, rfl⟩
  · cases h
    exact ⟨rfl, rfl⟩

theorem attemptRoll_error (h : l.attemptRoll fault = .error f) :
    (f.stage = some .seal ∨ f.stage = some .create) ∧
      f.left.logStartOffset = l.logStartOffset ∧ f.left.logEndOffset = l.logEndOffset := by
  unfold attemptRoll at h
  split at h
  · rcases perform_eq_error h with ⟨hs, hl⟩ | h
    · exact ⟨.inl hs, by rw [hl]; rfl, by rw [hl]; rfl⟩
    rcases perform_eq_error h with ⟨hs, hl⟩ | h
    · exact ⟨.inr hs, by rw [hl]; rfl, by rw [hl]; rfl⟩
    · cases h
  · cases h

/-- A failed `append` leaves the log where it ended, unless the batch was written. -/
theorem attemptAppend_error (h : l.attemptAppend batch fault = .error f) :
    f.left.logStartOffset = l.logStartOffset ∧ f.stage ≠ some .record ∧
      f.left.logEndOffset =
        if f.stage = some .sync then l.logEndOffset + batch.header.recordCount
        else l.logEndOffset := by
  unfold attemptAppend at h
  cases hroll : l.attemptRoll fault with
  | error f' =>
    rw [hroll] at h
    cases h
    obtain ⟨hstage, hstart, hend⟩ := attemptRoll_error hroll
    rcases hstage with hs | hs <;> exact ⟨hstart, by rw [hs]; nofun, by rw [hs]; exact hend⟩
  | ok l₁ =>
    obtain ⟨hstart, hend⟩ := attemptRoll_ok hroll
    rw [hroll] at h
    dsimp only at h
    cases happ : l₁.active.append (batch.rebase l₁.logEndOffset) with
    | error e =>
      rw [happ] at h
      obtain ⟨hs, hl⟩ := refuse_eq_error h
      exact ⟨by rw [hl]; exact hstart, by rw [hs]; nofun, by rw [hs, hl]; exact hend⟩
    | ok p =>
      obtain ⟨active, last⟩ := p
      rw [happ] at h
      rcases perform_eq_error h with ⟨hs, hl⟩ | h
      · exact ⟨by rw [hl]; exact hstart, by rw [hs]; nofun, by rw [hs, hl]; exact hend⟩
      rcases perform_eq_error h with ⟨hs, hl⟩ | h
      · have hlast : last = (batch.rebase l₁.logEndOffset).lastOffset := by
          unfold Segment.append at happ
          split at happ
          · cases happ
          · cases happ
            rfl
        have hfields : f.left.logStartOffset = l₁.logStartOffset ∧
            f.left.logEndOffset = last + 1 := by
          rw [hl]
          unfold counted
          split <;> exact ⟨rfl, rfl⟩
        refine ⟨hfields.1.trans hstart, by rw [hs]; nofun, ?_⟩
        rw [hs, if_pos rfl, hfields.2, hlast, ← hend]
        change l₁.logEndOffset + batch.header.recordCount - 1 + 1 = _
        omega
      · cases h

theorem attemptAppend_ok {last : Int} (h : l.attemptAppend batch fault = .ok (l', last)) :
    l'.logStartOffset = l.logStartOffset ∧ l'.logEndOffset = last + 1 ∧
      last = l.logEndOffset + batch.header.recordCount - 1 := by
  unfold attemptAppend at h
  cases hroll : l.attemptRoll fault with
  | error f' =>
    rw [hroll] at h
    cases h
  | ok l₁ =>
    obtain ⟨hstart, hend⟩ := attemptRoll_ok hroll
    rw [hroll] at h
    dsimp only at h
    unfold Segment.append at h
    split at h
    · cases h
    rename_i active last' happ
    split at happ
    · cases happ
    cases happ
    cases perform_eq_ok (perform_eq_ok h)
    obtain ⟨p, b, hsync⟩ := maybeSync_eq { l₁ with
      active := { l₁.active with blocks := l₁.active.blocks ++ [batch.rebase l₁.logEndOffset] }
      logEndOffset := (batch.rebase l₁.logEndOffset).lastOffset + 1 }
      (batch.rebase l₁.logEndOffset).encodedSize
    refine ⟨?_, ?_, ?_⟩
    · rw [hsync]
      exact hstart
    · rw [hsync]
    · rw [← hend]
      rfl

theorem attemptTruncateTo_error (h : l.attemptTruncateTo offset fault = .error f) :
    f.left.logStartOffset = l.logStartOffset ∧ f.left.logEndOffset = l.logEndOffset ∧
      f.stage ≠ some .trimRecords := by
  unfold attemptTruncateTo at h
  split at h
  · cases h
  split at h
  · cases h
    exact ⟨rfl, rfl, nofun⟩
  split at h
  · cases h
    exact ⟨rfl, rfl, nofun⟩
  dsimp only at h
  rcases perform_eq_error h with ⟨hs, hl⟩ | h
  · exact ⟨by rw [hl]; rfl, by rw [hl]; rfl, by rw [hs]; nofun⟩
  cases hpos : (seek offset l.older l.active).2.positionOf offset with
  | error e =>
    rw [hpos] at h
    cases h
    exact ⟨rfl, rfl, nofun⟩
  | ok k =>
    rw [hpos] at h
    rcases perform_eq_error h with ⟨hs, hl⟩ | h
    · exact ⟨by rw [hl]; rfl, by rw [hl]; rfl, by rw [hs]; nofun⟩
    rcases perform_eq_error h with ⟨hs, hl⟩ | h
    · exact ⟨by rw [hl]; rfl, by rw [hl]; rfl, by rw [hs]; nofun⟩
    · cases h

theorem attemptTruncateTo_ok (h : l.attemptTruncateTo offset fault = .ok l') :
    l'.logStartOffset = l.logStartOffset ∧ l'.logEndOffset = offset := by
  unfold attemptTruncateTo at h
  split at h
  · rename_i heq
    cases h
    exact ⟨rfl, heq.symm⟩
  split at h
  · cases h
  split at h
  · cases h
  dsimp only at h
  have h := perform_eq_ok h
  cases hpos : (seek offset l.older l.active).2.positionOf offset with
  | error e =>
    rw [hpos] at h
    cases h
  | ok k =>
    rw [hpos] at h
    cases perform_eq_ok (perform_eq_ok h)
    exact ⟨rfl, rfl⟩

theorem attemptTruncatePrefixTo_error (h : l.attemptTruncatePrefixTo offset fault = .error f) :
    f.left = l.state ∧ (f.stage = none ∨ f.stage = some .untier) := by
  unfold attemptTruncatePrefixTo at h
  split at h
  · cases h
  split at h
  · cases h
    exact ⟨rfl, .inl rfl⟩
  rcases perform_eq_error h with ⟨hs, hl⟩ | h
  · exact ⟨hl, .inr hs⟩
  · cases h

theorem attemptTruncatePrefixTo_ok (h : l.attemptTruncatePrefixTo offset fault = .ok l') :
    l'.logEndOffset = l.logEndOffset := by
  unfold attemptTruncatePrefixTo at h
  split at h
  · cases h
    rfl
  split at h
  · cases h
  · cases perform_eq_ok h
    rfl

theorem attemptResetTo_error (h : l.attemptResetTo offset fault = .error f) :
    f.left.logStartOffset = l.logStartOffset ∧ f.left.logEndOffset = l.logEndOffset := by
  unfold attemptResetTo at h
  split at h
  · cases h
    exact ⟨rfl, rfl⟩
  rcases perform_eq_error h with ⟨-, hl⟩ | h
  · exact ⟨by rw [hl]; rfl, by rw [hl]; rfl⟩
  rcases perform_eq_error h with ⟨-, hl⟩ | h
  · exact ⟨by rw [hl]; rfl, by rw [hl]; rfl⟩
  · cases h

theorem attemptResetTo_ok (h : l.attemptResetTo offset fault = .ok l') :
    l'.logEndOffset = offset := by
  unfold attemptResetTo at h
  split at h
  · cases h
  · cases perform_eq_ok (perform_eq_ok h)
    rfl

end PartitionLog

/-! ## The Raft log -/

/-- The memory of a Raft log. -/
structure RaftState where
  log : LogState
  entries : List EntryMeta
  snapshotIndex : Nat
  snapshotTerm : Nat
  snapshotLastOffset : Int
  deriving DecidableEq

/-- Where the partition log should end, as `RaftLog::open` has it. -/
def RaftState.expectedEnd (s : RaftState) : Int :=
  match s.entries.getLast? with
  | some last => last.lastOffset + 1
  | none => if 0 < s.snapshotIndex then s.snapshotLastOffset + 1 else s.log.logStartOffset

/-- The offsets of the entries are consecutive, the first one comes right after the snapshot and the
partition log ends after the last one. -/
structure RaftState.Coherent (s : RaftState) : Prop where
  consecutive : s.entries.IsChain fun a b => b.baseOffset = a.lastOffset + 1
  first : 0 < s.snapshotIndex → ∀ e ∈ s.entries.head?, e.baseOffset = s.snapshotLastOffset + 1
  ends : s.expectedEnd = s.log.logEndOffset

/-- Which entry of an `append` a file operation fails for (any number, for the other calls), and
where. -/
abbrev CallFault := Option (Nat × Stage × Error)

/-- The fault, for the entry at hand. -/
def CallFault.here : CallFault → FileFault
  | some (0, f) => some f
  | _ => none

/-- The fault, for the entries that follow. -/
def CallFault.later : CallFault → CallFault
  | some (n + 1, f) => some (n, f)
  | _ => none

namespace RaftLog

variable {r : RaftLog} {f : Failure RaftState}

def state (r : RaftLog) : RaftState where
  log := r.log.state
  entries := r.entries
  snapshotIndex := r.snapshotIndex
  snapshotTerm := r.snapshotTerm
  snapshotLastOffset := r.snapshotLastOffset

/-- A call on the partition log, and the rest of the call on the Raft log. -/
def attemptLog {α : Type} (r : RaftLog) (attempt : Attempt LogState α)
    (next : α → Attempt RaftState RaftLog) : Attempt RaftState RaftLog :=
  match attempt with
  | .error f => .error ⟨f.error, f.stage, { r.state with log := f.left }⟩
  | .ok a => next a

def attemptAppend : RaftLog → CallFault → List RaftLogEntry → Attempt RaftState RaftLog
  | r, _, [] => .ok r
  | r, fault, entry :: rest =>
    r.attemptLog (r.log.attemptAppend entry.payload fault.here) fun (log, last) =>
    perform fault.here .record { r.state with log := log.state } <|
    let entryMeta : EntryMeta :=
      { term := entry.term, baseOffset := r.log.logEndOffset, lastOffset := last,
        type := entry.type }
    attemptAppend { r with log, entries := r.entries ++ [entryMeta] } fault.later rest

def attemptTruncateFrom (r : RaftLog) (index : Nat) (fault : FileFault) :
    Attempt RaftState RaftLog :=
  if index < 1 then refuse ⟨.invalidArgument, "truncate_from: índice < 1"⟩ r.state
  else if index ≤ r.snapshotIndex then
    refuse ⟨.invalidArgument, "truncate_from: índice ya compactado"⟩ r.state
  else if index > r.lastIndex then .ok r
  else match r.entries[r.slotOf index]? with
    | none => .ok r
    | some entry =>
      r.attemptLog (r.log.attemptTruncateTo entry.baseOffset fault) fun log =>
      perform fault .trimRecords { r.state with log := log.state } <|
      .ok { r with log, entries := r.entries.take (r.slotOf index) }

/-- The end of `compact_to` and of `install_snapshot`: the memory is set, the sidecars follow. -/
def attemptPersist (r : RaftLog) (fault : FileFault) : Attempt RaftState RaftLog :=
  perform fault .snapshot r.state <|
  perform fault .rewrite r.state <|
  .ok r

def attemptCompactTo (r : RaftLog) (upToIndex : Nat) (fault : FileFault) :
    Attempt RaftState RaftLog :=
  if upToIndex ≤ r.snapshotIndex then .ok r
  else match r.entries[r.slotOf upToIndex]? with
    | none => refuse ⟨.invalidArgument, "compact_to: índice más allá del log"⟩ r.state
    | some boundary =>
      r.attemptLog (r.log.attemptTruncatePrefixTo (boundary.lastOffset + 1) fault) fun log =>
      attemptPersist
        { log
          entries := r.entries.drop (r.slotOf upToIndex + 1)
          snapshotIndex := upToIndex
          snapshotTerm := boundary.term
          snapshotLastOffset := boundary.lastOffset } fault

def attemptInstallSnapshot (r : RaftLog) (index : Nat) (term : Nat) (lastOffset : Int)
    (fault : FileFault) : Attempt RaftState RaftLog :=
  if index ≤ r.snapshotIndex then .ok r
  else if r.holds index term then r.attemptCompactTo index fault
  else
    r.attemptLog (r.log.attemptResetTo (lastOffset + 1) fault) fun log =>
    attemptPersist
      { log, entries := [], snapshotIndex := index, snapshotTerm := term,
        snapshotLastOffset := lastOffset } fault

/-! ### Without a failure -/

theorem attemptLog_none {α : Type} {attempt : Attempt LogState α} {result : Expected α}
    (h : attempt.mapError Failure.error = result) (next : α → Attempt RaftState RaftLog) :
    (r.attemptLog attempt next).mapError Failure.error =
      result.bind fun a => (next a).mapError Failure.error := by
  subst h
  cases attempt <;> rfl

theorem attemptAppend_none (r : RaftLog) (entries : List RaftLogEntry) :
    ((r.attemptAppend none entries).mapError Failure.error).map RaftLog.lastIndex =
      (r.append none entries).2 ∧
    ∀ r', r.attemptAppend none entries = .ok r' → r' = (r.append none entries).1 := by
  induction entries generalizing r with
  | nil => exact ⟨rfl, fun r' h => by cases h; rfl⟩
  | cons entry rest ih =>
    have hlog := r.log.attemptAppend_none entry.payload
    unfold attemptAppend
    rw [RaftLog.append]
    · change ((r.attemptLog (r.log.attemptAppend entry.payload none) _).mapError _).map _ = _ ∧
        ∀ r', r.attemptLog (r.log.attemptAppend entry.payload none) _ = .ok r' → _
      cases happ : r.log.attemptAppend entry.payload none with
      | error f =>
        rw [happ] at hlog
        rw [← hlog]
        exact ⟨rfl, fun _ h => by cases h⟩
      | ok p =>
        rw [happ] at hlog
        rw [← hlog]
        exact ih _
    · exact fun h => by cases h

theorem attemptTruncateFrom_none (r : RaftLog) (index : Nat) :
    (r.attemptTruncateFrom index none).mapError Failure.error = r.truncateFrom index := by
  unfold attemptTruncateFrom RaftLog.truncateFrom
  split
  · rfl
  split
  · rfl
  split
  · rfl
  cases r.entries[r.slotOf index]? with
  | none => rfl
  | some entry =>
    simp only [attemptLog_none (r.log.attemptTruncateTo_none entry.baseOffset)]
    cases r.log.truncateTo entry.baseOffset <;> rfl

theorem attemptCompactTo_none (r : RaftLog) (index : Nat) :
    (r.attemptCompactTo index none).mapError Failure.error = r.compactTo index := by
  unfold attemptCompactTo RaftLog.compactTo
  split
  · rfl
  cases r.entries[r.slotOf index]? with
  | none => rfl
  | some boundary =>
    simp only [attemptLog_none (r.log.attemptTruncatePrefixTo_none (boundary.lastOffset + 1))]
    cases r.log.truncatePrefixTo (boundary.lastOffset + 1) <;> rfl

theorem attemptInstallSnapshot_none (r : RaftLog) (index term : Nat) (lastOffset : Int)
    (r' : RaftLog) (h : r.attemptInstallSnapshot index term lastOffset none = .ok r') :
    r' = (r.installSnapshot .done index term lastOffset).1 := by
  unfold attemptInstallSnapshot at h
  unfold RaftLog.installSnapshot
  split at h
  · rename_i hold
    rw [if_pos hold]
    cases h
    rfl
  rename_i hold
  rw [if_neg hold]
  split at h
  · rename_i hholds
    have hcompact := r.attemptCompactTo_none index
    rw [h] at hcompact
    rw [if_pos hholds, ← hcompact]
    rfl
  · rename_i hholds
    have hreset := r.log.attemptResetTo_none (lastOffset + 1)
    rw [if_neg hholds, if_neg nofun]
    unfold RaftLog.resetTo
    cases hlog : r.log.attemptResetTo (lastOffset + 1) none with
    | error f =>
      rw [hlog] at h
      cases h
    | ok log =>
      rw [hlog] at hreset h
      rw [← hreset]
      cases h
      rfl

/-! ### What a failure leaves -/

theorem attemptLog_eq_error {α : Type} {attempt : Attempt LogState α}
    {next : α → Attempt RaftState RaftLog} (h : r.attemptLog attempt next = .error f) :
    (∃ g, attempt = .error g ∧ f.stage = g.stage ∧ f.left = { r.state with log := g.left }) ∨
      ∃ a, attempt = .ok a ∧ next a = .error f := by
  unfold attemptLog at h
  split at h
  · cases h
    exact .inl ⟨_, rfl, rfl, rfl⟩
  · exact .inr ⟨_, rfl, h⟩

theorem attemptPersist_error {fault : FileFault} (h : r.attemptPersist fault = .error f) :
    (f.stage = some .snapshot ∨ f.stage = some .rewrite) ∧ f.left = r.state := by
  rcases perform_eq_error h with ⟨hs, hl⟩ | h
  · exact ⟨.inl hs, hl⟩
  rcases perform_eq_error h with ⟨hs, hl⟩ | h
  · exact ⟨.inr hs, hl⟩
  · cases h

end RaftLog

namespace RaftState

variable {s : RaftState} {log : LogState}

/-- The entries and the base of the snapshot are the same. -/
structure SameEntries (s t : RaftState) : Prop where
  entries : s.entries = t.entries
  snapshotIndex : s.snapshotIndex = t.snapshotIndex
  snapshotTerm : s.snapshotTerm = t.snapshotTerm
  snapshotLastOffset : s.snapshotLastOffset = t.snapshotLastOffset

theorem expectedEnd_of_log (h : log.logStartOffset = s.log.logStartOffset) :
    ({ s with log } : RaftState).expectedEnd = s.expectedEnd := by
  unfold expectedEnd
  rw [h]

section

variable (hs : s.Coherent) {entry : EntryMeta}

include hs

section

variable (hstart : log.logStartOffset = s.log.logStartOffset)

include hstart

/-- The partition log may change below the entries as long as it keeps its bounds. -/
theorem Coherent.of_log
    (hend : log.logEndOffset = s.log.logEndOffset) : ({ s with log } : RaftState).Coherent where
  consecutive := hs.consecutive
  first := hs.first
  ends := (expectedEnd_of_log hstart).trans (hs.ends.trans hend.symm)

/-- The entries do not account for a partition log that ends elsewhere. -/
theorem Coherent.not_of_log
    (hend : log.logEndOffset ≠ s.log.logEndOffset) : ¬ ({ s with log } : RaftState).Coherent :=
  fun h => hend (h.ends.symm.trans ((expectedEnd_of_log hstart).trans hs.ends))

end

/-- An entry that starts where the partition log ended, and after which it ends. -/
theorem Coherent.push (hbase : entry.baseOffset = s.log.logEndOffset)
    (hend : log.logEndOffset = entry.lastOffset + 1) :
    ({ s with log, entries := s.entries ++ [entry] } : RaftState).Coherent where
  consecutive := by
    refine List.isChain_append.2 ⟨hs.consecutive, .singleton _, fun a ha b hb => ?_⟩
    have hlast : s.expectedEnd = a.lastOffset + 1 := by
      unfold expectedEnd
      rw [Option.mem_def.1 ha]
    cases Option.mem_def.1 hb
    rw [hbase, ← hs.ends, hlast]
  first := by
    intro hpos e he
    cases hentries : s.entries with
    | nil =>
      have hempty : s.expectedEnd = s.snapshotLastOffset + 1 := by
        unfold expectedEnd
        rw [hentries]
        exact if_pos hpos
      rw [hentries] at he
      cases Option.mem_def.1 he
      rw [hbase, ← hs.ends, hempty]
    | cons a rest =>
      rw [hentries] at he
      exact hs.first hpos e (by rw [hentries]; exact he)
  ends := by
    unfold expectedEnd
    rw [List.getLast?_concat]
    exact hend.symm

/-- The entries behind the new boundary of the snapshot. -/
theorem Coherent.drop {k index term : Nat} {boundary : EntryMeta}
    (hk : s.entries[k]? = some boundary) (hpos : 0 < index)
    (hend : log.logEndOffset = s.log.logEndOffset) :
    (RaftState.mk log (s.entries.drop (k + 1)) index term boundary.lastOffset).Coherent where
  consecutive := hs.consecutive.drop _
  first := by
    intro _ e he
    rw [List.head?_drop] at he
    obtain ⟨hk₁, rfl⟩ := List.getElem?_eq_some_iff.1 hk
    obtain ⟨hk₂, rfl⟩ := List.getElem?_eq_some_iff.1 he
    exact List.isChain_iff_getElem.1 hs.consecutive k hk₂
  ends := by
    have hlt := (List.getElem?_eq_some_iff.1 hk).1
    rw [hend, ← hs.ends]
    unfold expectedEnd
    dsimp only
    rw [List.getLast?_drop]
    by_cases hlast : s.entries.length ≤ k + 1
    · have hk' : s.entries.length - 1 = k := by omega
      rw [if_pos hlast, List.getLast?_eq_getElem?, hk', hk]
      exact if_pos hpos
    · have hne : s.entries ≠ [] := List.ne_nil_of_length_pos (by omega)
      rw [if_neg hlast, List.getLast?_eq_some_getLast hne]

/-- No entry that holds an offset starts where the partition log ends. -/
theorem Coherent.base_lt (hheld : ∀ e ∈ s.entries, e.baseOffset ≤ e.lastOffset)
    {k : Nat} (hk : s.entries[k]? = some entry) :
    entry.baseOffset < s.log.logEndOffset := by
  have hlt := (List.getElem?_eq_some_iff.1 hk).1
  have hheld' := hheld entry (List.mem_of_getElem? hk)
  -- from the last entry down
  induction hn : s.entries.length - (k + 1) generalizing k entry with
  | zero =>
    have hk' : s.entries.length - 1 = k := by omega
    have hends := hs.ends
    unfold expectedEnd at hends
    rw [List.getLast?_eq_getElem?, hk', hk] at hends
    dsimp only at hends
    omega
  | succ n ih =>
    have hlt' : k + 1 < s.entries.length := by omega
    have hnext : s.entries[k + 1]? = some s.entries[k + 1] := List.getElem?_eq_getElem hlt'
    have hheld'' := hheld _ (List.mem_of_getElem? hnext)
    have hrest := ih hnext hlt' hheld'' (by omega)
    have hchain := List.isChain_iff_getElem.1 hs.consecutive k hlt'
    rw [(List.getElem?_eq_some_iff.1 hk).2] at hchain
    omega

end

end RaftState

namespace Call

variable {r : RaftLog} {f : Failure RaftState}

def attempt (r : RaftLog) (fault : CallFault) : Call → Attempt RaftState RaftLog
  | .append entries => r.attemptAppend fault entries
  | .truncateFrom index => r.attemptTruncateFrom index (fault.map Prod.snd)
  | .compactTo index => r.attemptCompactTo index (fault.map Prod.snd)
  | .installSnapshot index term lastOffset =>
    r.attemptInstallSnapshot index term lastOffset (fault.map Prod.snd)

/-- Without a failing file operation the call ends as it does in the model of the log. -/
theorem result_of_attempt {r' : RaftLog} {c : Call} (h : c.attempt r none = .ok r') :
    r' = c.result r := by
  cases c with
  | append entries => exact (r.attemptAppend_none entries).2 r' h
  | truncateFrom index =>
    have hnone := r.attemptTruncateFrom_none index
    rw [show r.attemptTruncateFrom index none = .ok r' from h] at hnone
    rw [result, ← hnone]
    rfl
  | compactTo index =>
    have hnone := r.attemptCompactTo_none index
    rw [show r.attemptCompactTo index none = .ok r' from h] at hnone
    rw [result, ← hnone]
    rfl
  | installSnapshot index term lastOffset =>
    exact r.attemptInstallSnapshot_none index term lastOffset r' h

/-- Does the call compact the log? `install_snapshot` does when it holds the entry. -/
def compacts (r : RaftLog) : Call → Bool
  | .compactTo _ => true
  | .installSnapshot index term _ => r.holds index term
  | _ => false

/-- The stages at which a failure leaves the memory in disorder. -/
def Harms (r : RaftLog) (stage : Option Stage) (c : Call) : Prop :=
  match c with
  | .append _ => stage = some .sync ∨ stage = some .record
  | .truncateFrom _ => stage = some .trimRecords
  | _ => c.compacts r = true ∧ (stage = some .snapshot ∨ stage = some .rewrite)

instance (r : RaftLog) (stage : Option Stage) (c : Call) : Decidable (c.Harms r stage) := by
  cases c <;> unfold Harms <;> infer_instance

/-- What a failed call should leave: a coherent memory, and the entries and the base of the snapshot
as they were if it compacts. -/
def Spares (r : RaftLog) (c : Call) (left : RaftState) : Prop :=
  left.Coherent ∧ (c.compacts r = true → left.SameEntries r.state)

/-- The entries that the call appends hold at least one record. -/
def Occupied : Call → Prop
  | .append entries => ∀ entry ∈ entries, 1 ≤ entry.payload.header.recordCount
  | _ => True

instance (c : Call) : Decidable c.Occupied := by
  cases c <;> unfold Occupied <;> infer_instance

end Call

namespace RaftLog

variable {r : RaftLog} {f : Failure RaftState} {fault : FileFault} {index : Nat}

section

variable (hr : r.state.Coherent)

include hr

theorem coherent_attemptAppend {fault : CallFault}
    {entries : List RaftLogEntry} (h : r.attemptAppend fault entries = .error f) :
    (¬ (f.stage = some .sync ∨ f.stage = some .record) → f.left.Coherent) ∧
      ((∀ entry ∈ entries, 1 ≤ entry.payload.header.recordCount) →
        f.stage = some .sync ∨ f.stage = some .record → ¬ f.left.Coherent) := by
  induction entries generalizing r fault with
  | nil => cases h
  | cons entry rest ih =>
    rw [attemptAppend] at h
    rcases attemptLog_eq_error h with ⟨g, hg, hstage, hleft⟩ | ⟨⟨log, last⟩, hlog, hnext⟩
    · obtain ⟨hstart, hrecord, hend⟩ := attemptAppend_error hg
      rw [hleft, hstage]
      refine ⟨fun hs => hr.of_log hstart ?_, fun hcount hs => hr.not_of_log hstart ?_⟩
      · rw [hend, if_neg fun h => hs (.inl h)]
        rfl
      · have := hcount entry (List.mem_cons_self ..)
        rw [hend, if_pos (hs.resolve_right hrecord)]
        change r.log.logEndOffset + _ ≠ r.log.logEndOffset
        omega
    · obtain ⟨hstart, hend, hlast⟩ := attemptAppend_ok hlog
      rcases perform_eq_error hnext with ⟨hstage, hleft⟩ | hnext
      · rw [hleft, hstage]
        refine ⟨fun hs => absurd (.inr rfl) hs, fun hcount _ => hr.not_of_log hstart ?_⟩
        have := hcount entry (List.mem_cons_self ..)
        change log.logEndOffset ≠ r.log.logEndOffset
        omega
      · obtain ⟨hgood, hbad⟩ := ih (hr.push rfl hend) hnext
        exact ⟨hgood, fun hcount => hbad fun e he => hcount e (List.mem_cons_of_mem _ he)⟩

theorem coherent_attemptTruncateFrom (h : r.attemptTruncateFrom index fault = .error f) :
    (f.stage ≠ some .trimRecords → f.left.Coherent) ∧
      ((∀ e ∈ r.entries, e.baseOffset ≤ e.lastOffset) →
        f.stage = some .trimRecords → ¬ f.left.Coherent) := by
  unfold attemptTruncateFrom at h
  split at h
  · cases h
    exact ⟨fun _ => hr, fun _ => nofun⟩
  split at h
  · cases h
    exact ⟨fun _ => hr, fun _ => nofun⟩
  split at h
  · cases h
  split at h
  · cases h
  · rename_i entry hentry
    rcases attemptLog_eq_error h with ⟨g, hg, hstage, hleft⟩ | ⟨log, hlog, hnext⟩
    · obtain ⟨hstart, hend, htrim⟩ := attemptTruncateTo_error hg
      rw [hleft, hstage]
      exact ⟨fun _ => hr.of_log hstart hend, fun _ hs => absurd hs htrim⟩
    · obtain ⟨hstart, hend⟩ := attemptTruncateTo_ok hlog
      rcases perform_eq_error hnext with ⟨hstage, hleft⟩ | hnext
      · rw [hleft, hstage]
        refine ⟨fun hs => absurd rfl hs, fun hheld _ => hr.not_of_log hstart ?_⟩
        have := hr.base_lt hheld hentry
        exact hend.trans_lt this |>.ne
      · cases hnext

theorem coherent_attemptCompactTo (h : r.attemptCompactTo index fault = .error f) :
    f.left.Coherent ∧
      (f.left.SameEntries r.state ↔ ¬ (f.stage = some .snapshot ∨ f.stage = some .rewrite)) := by
  unfold attemptCompactTo at h
  split at h
  · cases h
  rename_i hindex
  split at h
  · cases h
    exact ⟨hr, fun _ => nofun, fun _ => ⟨rfl, rfl, rfl, rfl⟩⟩
  · rename_i boundary hboundary
    rcases attemptLog_eq_error h with ⟨g, hg, hstage, hleft⟩ | ⟨log, hlog, hnext⟩
    · obtain ⟨hlog, hstage'⟩ := attemptTruncatePrefixTo_error hg
      rw [hleft, hstage, hlog]
      refine ⟨hr, fun _ => ?_, fun _ => ⟨rfl, rfl, rfl, rfl⟩⟩
      rcases hstage' with hs | hs <;> rw [hs] <;> nofun
    · have hend := attemptTruncatePrefixTo_ok hlog
      obtain ⟨hstage, hleft⟩ := attemptPersist_error hnext
      have hpos : 0 < index := by omega
      rw [hleft]
      refine ⟨hr.drop hboundary hpos hend, fun hsame => ?_, fun hs => absurd hstage hs⟩
      have : index = r.snapshotIndex := hsame.snapshotIndex
      omega

theorem coherent_attemptInstallSnapshot {term : Nat} {lastOffset : Int}
    (h : r.attemptInstallSnapshot index term lastOffset fault = .error f) :
    f.left.Coherent ∧ (r.holds index term = true →
      (f.left.SameEntries r.state ↔
        ¬ (f.stage = some .snapshot ∨ f.stage = some .rewrite))) := by
  unfold attemptInstallSnapshot at h
  split at h
  · cases h
  rename_i hindex
  split at h
  · obtain ⟨hgood, hsame⟩ := coherent_attemptCompactTo hr h
    exact ⟨hgood, fun _ => hsame⟩
  · rename_i hholds
    refine ⟨?_, fun hh => absurd hh hholds⟩
    rcases attemptLog_eq_error h with ⟨g, hg, -, hleft⟩ | ⟨log, hlog, hnext⟩
    · obtain ⟨hstart, hend⟩ := attemptResetTo_error hg
      rw [hleft]
      exact hr.of_log hstart hend
    · have hend := attemptResetTo_ok hlog
      obtain ⟨-, hleft⟩ := attemptPersist_error hnext
      have hpos : 0 < index := by omega
      rw [hleft]
      exact
        { consecutive := .nil
          first := fun _ _ => nofun
          ends := (if_pos hpos).trans hend.symm }

end

end RaftLog

namespace Call

variable {r : RaftLog} {f : Failure RaftState}

/-- A failed call spares the memory unless it fails at one of the harmful stages. -/
theorem spares_of_failed (hr : r.state.Coherent) {c : Call} {fault : CallFault}
    (h : c.attempt r fault = .error f) :
    (¬ c.Harms r f.stage → c.Spares r f.left) ∧
      ((∀ e ∈ r.entries, e.baseOffset ≤ e.lastOffset) → c.Occupied → c.Harms r f.stage →
        ¬ c.Spares r f.left) := by
  cases c with
  | append entries =>
    obtain ⟨hgood, hbad⟩ := RaftLog.coherent_attemptAppend hr h
    exact ⟨fun hs => ⟨hgood hs, nofun⟩, fun _ hcount hs hspares => hbad hcount hs hspares.1⟩
  | truncateFrom index =>
    obtain ⟨hgood, hbad⟩ := RaftLog.coherent_attemptTruncateFrom hr h
    exact ⟨fun hs => ⟨hgood hs, nofun⟩, fun hheld _ hs hspares => hbad hheld hs hspares.1⟩
  | compactTo index =>
    obtain ⟨hgood, hsame⟩ := RaftLog.coherent_attemptCompactTo hr h
    exact ⟨fun hs => ⟨hgood, fun hc => hsame.2 fun hstage => hs ⟨hc, hstage⟩⟩,
      fun _ _ hs hspares => hsame.1 (hspares.2 hs.1) hs.2⟩
  | installSnapshot index term lastOffset =>
    obtain ⟨hgood, hsame⟩ := RaftLog.coherent_attemptInstallSnapshot hr h
    exact ⟨fun hs => ⟨hgood, fun hc => (hsame hc).2 fun hstage => hs ⟨hc, hstage⟩⟩,
      fun _ _ hs hspares => (hsame hs.1).1 (hspares.2 hs.1) hs.2⟩

/-- An entry of one record. -/
def oneRecord : RaftLogEntry :=
  { term := 1, payload := { header := { recordCount := 1 }, records := [7] } }

/-- A log with two of them, synced at each append. -/
def twoEntries : RaftLog :=
  ((RaftLog.create { fsyncPolicy := .commit }).append none [oneRecord, oneRecord]).1

def diskFull : Error := ⟨.ioError, "write_at"⟩

theorem coherent_twoEntries : twoEntries.state.Coherent where
  consecutive := by decide +kernel
  first := by decide +kernel
  ends := by decide +kernel

/-- A third entry whose batch cannot be written, and one whose record cannot. -/
theorem spares_of_failed_twoEntries :
    (∃ f, (append [oneRecord]).attempt twoEntries (some (0, .write, diskFull)) = .error f ∧
      (append [oneRecord]).Spares twoEntries f.left) ∧
    ∃ f, (append [oneRecord]).attempt twoEntries (some (0, .record, diskFull)) = .error f ∧
      ¬ (append [oneRecord]).Spares twoEntries f.left :=
  have hwrite : (append [oneRecord]).attempt twoEntries (some (0, .write, diskFull)) = .error _ :=
    rfl
  have hrecord : (append [oneRecord]).attempt twoEntries (some (0, .record, diskFull)) = .error _ :=
    rfl
  ⟨⟨_, hwrite, (spares_of_failed coherent_twoEntries hwrite).1 (by decide +kernel)⟩,
    ⟨_, hrecord, (spares_of_failed coherent_twoEntries hrecord).2 (by decide +kernel)
      (by decide +kernel) (.inr rfl)⟩⟩

/-- The sync and the record of an `append`, the cut of the records in `truncate_from` and the
snapshot of `compact_to`. -/
theorem failed_calls_harm :
    twoEntries.state.Coherent ∧
    (∃ f, (append [oneRecord]).attempt twoEntries (some (0, .record, diskFull)) = .error f ∧
      ¬ f.left.Coherent) ∧
    (∃ f, (append [oneRecord]).attempt twoEntries (some (0, .sync, diskFull)) = .error f ∧
      ¬ f.left.Coherent) ∧
    (∃ f, (truncateFrom 2).attempt twoEntries (some (0, .trimRecords, diskFull)) = .error f ∧
      ¬ f.left.Coherent) ∧
    ∃ f, (compactTo 1).attempt twoEntries (some (0, .snapshot, diskFull)) = .error f ∧
      ¬ f.left.SameEntries twoEntries.state := by
  refine ⟨coherent_twoEntries, ⟨_, rfl, fun h => ?_⟩, ⟨_, rfl, fun h => ?_⟩, ⟨_, rfl, fun h => ?_⟩,
    ⟨_, rfl, fun h => ?_⟩⟩
  · exact absurd h.ends (by decide +kernel)
  · exact absurd h.ends (by decide +kernel)
  · exact absurd h.ends (by decide +kernel)
  · exact absurd h.snapshotIndex (by decide +kernel)

end Call

end Nexus
