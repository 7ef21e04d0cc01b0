import Nexus.Lib.TermLog
import Nexus.Storage.Contents
import Nexus.Consensus.RaftLog

/-!
# What a Raft log stands for

A Raft log stands for one list of entries, from index 1 on, those that its snapshot covers
included, although it keeps nothing of them but the term and the last offset of the last one
(`RaftLog.View`). The operations of the log are operations on that list:

* `View.append`, `View.truncateFrom`: the list grows or loses its end.
* `View.compactTo`: the list stays, the snapshot moves.
* `View.resetTo`: the list is replaced by the one that the snapshot stands for.
* `View.termAt_iff`, `View.entriesFrom`: what can be read of the list.
-/

namespace Nexus

open List

open Lib (AgreeTo)

/-- An entry of the Raft log; the batch has the offset that the log gave to it. -/
structure LogEntry where
  term : Nat
  type : RaftEntryType
  batch : RecordBatch
  deriving DecidableEq, Inhabited

namespace LogEntry

def toMeta (e : LogEntry) : EntryMeta :=
  { term := e.term, baseOffset := e.batch.baseOffset, lastOffset := e.batch.lastOffset,
    type := e.type }

/-- The entry at `index` as it travels. -/
def toWire (e : LogEntry) (index : Nat) : RaftLogEntry :=
  { term := e.term, index, type := e.type, payload := e.batch }

end LogEntry

/-- The entries from `index` on as they travel. -/
def wire (index : Nat) : List LogEntry → List RaftLogEntry
  | [] => []
  | e :: es => e.toWire index :: wire (index + 1) es

/-- The entries of a message once they are written from offset `o` on. -/
def place (o : Int) : List RaftLogEntry → List LogEntry
  | [] => []
  | e :: es =>
    { term := e.term, type := e.type, batch := e.payload.rebase o } ::
      place ((e.payload.rebase o).lastOffset + 1) es

/-- The batches of the entries. -/
def batches (es : List LogEntry) : List RecordBatch := es.map LogEntry.batch

@[simp] theorem batches_nil : batches [] = [] := rfl

@[simp] theorem batches_cons (e : LogEntry) (es : List LogEntry) :
    batches (e :: es) = e.batch :: batches es := rfl

@[simp] theorem batches_append (es fs : List LogEntry) :
    batches (es ++ fs) = batches es ++ batches fs := map_append

@[simp] theorem length_batches (es : List LogEntry) : (batches es).length = es.length :=
  length_map ..

theorem batches_take (es : List LogEntry) (k : Nat) :
    batches (es.take k) = (batches es).take k := map_take

theorem batches_drop (es : List LogEntry) (k : Nat) :
    batches (es.drop k) = (batches es).drop k := map_drop

variable {es : List LogEntry}

theorem batches_getElem? {k : Nat} {e : LogEntry} (h : es[k]? = some e) :
    (batches es)[k]? = some e.batch := by
  rw [batches, getElem?_map, h]; rfl

@[simp] theorem length_wire (index : Nat) (es : List LogEntry) :
    (wire index es).length = es.length := by
  induction es generalizing index with
  | nil => rfl
  | cons e es ih => simp [wire, ih]

/-- Entries that were written at consecutive offsets are written there again. -/
theorem place_wire {o : Int} {index : Nat} (h : Chain o (batches es)) :
    place o (wire index es) = es := by
  induction es generalizing o index with
  | nil => rfl
  | cons e es ih =>
    have hb : e.batch.rebase o = e.batch := RecordBatch.rebase_of_baseOffset h.1
    simp only [wire, place, LogEntry.toWire, hb]
    rw [ih h.2.2]

/-! ## The live entries -/

namespace RaftLog

variable {r : RaftLog} {pre : List RecordBatch} {live : List LogEntry} {k : Nat} {e : LogEntry}

/-- The records in memory are those of the live entries, whose batches the partition log has after
those of `pre`, which the snapshot covers. -/
structure Live (r : RaftLog) (pre : List RecordBatch) (live : List LogEntry) : Prop where
  entries : r.entries = live.map LogEntry.toMeta
  log : r.log.Holds (pre ++ batches live)

theorem getElem?_append_batches (he : live[k]? = some e) :
    (pre ++ batches live)[pre.length + k]? = some e.batch := by
  rw [getElem?_append_right (Nat.le_add_right _ _), Nat.add_sub_cancel_left]
  exact batches_getElem? he

theorem take_append_batches (live : List LogEntry) (k : Nat) :
    (pre ++ batches live).take (pre.length + k) = pre ++ batches (live.take k) := by
  rw [take_length_add_append, batches_take]

theorem drop_append_batches (live : List LogEntry) (k : Nat) :
    (pre ++ batches live).drop (pre.length + k) = batches (live.drop k) := by
  rw [drop_length_add_append, batches_drop]

/-- The metadata of a live entry. -/
theorem Live.getElem?_slotOf (h : r.Live pre live) (index : Nat) :
    r.entries[r.slotOf index]? = (live[index - r.snapshotIndex - 1]?).map LogEntry.toMeta := by
  rw [h.entries, getElem?_map]
  rfl

/-- Where the entry after `k` live ones starts. -/
theorem Live.baseOffset_eq (h : r.Live pre live) (he : live[k]? = some e) : e.toMeta.baseOffset =
      endOf r.log.logStartOffset ((pre ++ batches live).take (pre.length + k)) :=
  h.log.chain.baseOffset_getElem (getElem?_append_batches he)

/-- Where the first `k + 1` live entries end. -/
theorem Live.lastOffset_eq (r : RaftLog) (he : live[k]? = some e) :
    e.toMeta.lastOffset + 1 =
      endOf r.log.logStartOffset ((pre ++ batches live).take (pre.length + (k + 1))) :=
  (endOf_take_succ (getElem?_append_batches he)).symm

theorem Live.readPayload (h : r.Live pre live) (he : live[k]? = some e) :
    r.readPayload e.toMeta = .ok e.batch := by
  unfold RaftLog.readPayload
  rw [show r.log.read e.toMeta.baseOffset 1 = _ from
    h.log.read_one (getElem?_append_batches he)]

theorem Live.readEntries (h : r.Live pre live) (i : Nat) {es rest : List LogEntry}
    (hes : live.drop k = es ++ rest) :
    r.readEntries i (es.map LogEntry.toMeta) = .ok (wire i es) := by
  induction es generalizing i k with
  | nil => rfl
  | cons e es ih =>
    have he : live[k]? = some e := by
      have h0 : (live.drop k)[0]? = some e := by rw [hes]; rfl
      rwa [getElem?_drop, Nat.add_zero] at h0
    have htail : live.drop (k + 1) = es ++ rest := by
      rw [← drop_drop, hes]; rfl
    rw [map_cons, RaftLog.readEntries, h.readPayload he, ih (i + 1) htail]
    rfl

/-- The live entries from an index on can all be read. -/
theorem Live.entriesFrom (h : r.Live pre live) {index : Nat} (hi : r.snapshotIndex < index)
    (max : Nat) : r.entriesFrom index max =
      .ok (wire index ((live.drop (index - r.snapshotIndex - 1)).take max)) := by
  unfold RaftLog.entriesFrom
  rw [if_neg (by omega), if_neg (by omega), h.entries, ← map_drop, ← map_take]
  exact h.readEntries index (take_append_drop max _).symm

end RaftLog

/-- What the log stands for. -/
structure RaftLog.View (r : RaftLog) (full : List LogEntry) : Prop where
  chain : Chain 0 (batches full)
  covered : r.snapshotIndex ≤ full.length
  entries : r.entries = (full.drop r.snapshotIndex).map LogEntry.toMeta
  snapshot : ∀ e, 0 < r.snapshotIndex → full[r.snapshotIndex - 1]? = some e →
    r.snapshotTerm = e.term ∧ r.snapshotLastOffset = e.batch.lastOffset
  /-- The partition log still has every live entry. -/
  log : ∃ d ≤ r.snapshotIndex, r.log.Holds ((batches full).drop d) ∧
    r.log.logStartOffset = endOf 0 ((batches full).take d)

namespace RaftLog

variable {r : RaftLog} {full : List LogEntry} {k : Nat} {e : LogEntry}

theorem view_create (cfg : LogConfig) : (RaftLog.create cfg).View [] where
  chain := trivial
  covered := Nat.le_refl _
  entries := rfl
  snapshot _ h := absurd h (Nat.lt_irrefl 0)
  log := ⟨0, Nat.le_refl _, PartitionLog.holds_create cfg, rfl⟩

/-! ## Reading -/

section

variable (h : r.View full)

include h

theorem View.lastIndex : r.lastIndex = full.length := by
  have := h.covered
  rw [RaftLog.lastIndex, h.entries, length_map, length_drop]
  omega

theorem View.live : ∃ pre, r.Live pre (full.drop r.snapshotIndex) := by
  obtain ⟨d, hd, hlog, -⟩ := h.log
  refine ⟨((batches full).drop d).take (r.snapshotIndex - d), h.entries, ?_⟩
  have hdrop : batches (full.drop r.snapshotIndex) =
      ((batches full).drop d).drop (r.snapshotIndex - d) := by
    rw [batches_drop, drop_drop, Nat.add_sub_of_le hd]
  rw [hdrop, take_append_drop]
  exact hlog

theorem View.logEndOffset : r.log.logEndOffset = endOf 0 (batches full) := by
  obtain ⟨d, -, hlog, hstart⟩ := h.log
  rw [hlog.logEnd, hstart, ← endOf_append, take_append_drop]

theorem View.lastTerm : r.lastTerm = Lib.TermLog.lastTm LogEntry.term full := by
  unfold RaftLog.lastTerm Lib.TermLog.lastTm
  rw [h.entries, getLast?_map]
  rcases Nat.lt_or_eq_of_le h.covered with hlt | heq
  · rw [getLast?_drop, if_neg (by omega)]
    cases hl : full.getLast? with
    | none => rw [getLast?_eq_none_iff] at hl; simp [hl] at hlt
    | some e => rfl
  · rw [heq, drop_length]
    simp only [getLast?_nil, Option.map_none]
    cases hl : full.getLast? with
    | none =>
      rw [getLast?_eq_none_iff] at hl
      simp [hl]
    | some e =>
      have hpos : 0 < full.length := by
        cases full with
        | nil => simp at hl
        | cons => simp
      rw [getLast?_eq_getElem?, ← heq] at hl
      rw [if_pos hpos]
      exact (h.snapshot e (by omega) hl).1

/-- The metadata of a live entry. -/
theorem View.getElem?_slotOf (hk : r.snapshotIndex < k) :
    r.entries[r.slotOf k]? = (full[k - 1]?).map LogEntry.toMeta := by
  rw [h.entries, getElem?_map, getElem?_drop, slotOf]
  congr 2
  omega

/-- The terms that can be read: those of the sentinel, of the snapshot's last entry and of the
live entries. -/
theorem View.termAt_iff {t : Nat} :
    r.termAt k = .ok t ↔
      k = 0 ∧ t = 0 ∨
      0 < k ∧ r.snapshotIndex ≤ k ∧ ∃ e, full[k - 1]? = some e ∧ e.term = t := by
  unfold termAt
  split
  · rename_i hk
    subst hk
    simp [eq_comm]
  rename_i hk
  split
  · rename_i heq
    subst heq
    have hpos : 0 < r.snapshotIndex := Nat.pos_of_ne_zero hk
    constructor
    · rintro ⟨⟩
      obtain ⟨e, he⟩ : ∃ e, full[r.snapshotIndex - 1]? = some e :=
        ⟨_, getElem?_eq_getElem (by have := h.covered; omega)⟩
      exact .inr ⟨hpos, Nat.le_refl _, e, he, (h.snapshot e hpos he).1.symm⟩
    · rintro (⟨h0, -⟩ | ⟨-, -, e, he, rfl⟩)
      · omega
      · rw [(h.snapshot e hpos he).1]
  rename_i hne
  split
  · rename_i hlt
    simp [makeError, hk, Nat.not_le_of_lt hlt]
  rename_i hge
  rw [h.getElem?_slotOf (by omega)]
  cases he : full[k - 1]? with
  | none => simp [makeError, hk]
  | some e =>
    simp [hk, LogEntry.toMeta]
    omega

theorem View.termAt_of_getElem? (hk : r.snapshotIndex ≤ k + 1)
    (he : full[k]? = some e) : r.termAt (k + 1) = .ok e.term :=
  h.termAt_iff.mpr (.inr ⟨Nat.succ_pos k, hk, e, he, rfl⟩)

/-- The live entries from an index on can all be read. -/
theorem View.entriesFrom (hk : r.snapshotIndex ≤ k) (max : Nat) :
    r.entriesFrom (k + 1) max = .ok (wire (k + 1) ((full.drop k).take max)) := by
  obtain ⟨pre, hlive⟩ := h.live
  rw [hlive.entriesFrom (by omega), drop_drop,
    show r.snapshotIndex + (k + 1 - r.snapshotIndex - 1) = k by omega]

end

/-- The log has entry `e` at `index`. Of the entries that its snapshot covers it still knows the
term and the last offset of the last one. -/
structure HoldsAt (r : RaftLog) (index : Nat) (e : LogEntry) : Prop where
  within : index ≤ r.lastIndex
  live : r.snapshotIndex < index → r.entriesFrom index 1 = .ok [e.toWire index]
  last : r.snapshotIndex = index →
    r.snapshotTerm = e.term ∧ r.snapshotLastOffset = e.batch.lastOffset

theorem View.holdsAt (h : r.View full) (he : full[k]? = some e) :
    r.HoldsAt (k + 1) e where
  within := by
    have := (List.getElem?_eq_some_iff.mp he).1
    rw [h.lastIndex]
    exact this
  live hlive := by
    rw [h.entriesFrom (by omega), List.take_one, List.head?_drop, he]
    rfl
  last hlast := h.snapshot e (by omega) (by rw [hlast]; exact he)

/-! ## Writing -/

variable {log : PartitionLog} {d : Nat} {last : Int}

/-- One entry at the end, at the next offset. -/
theorem View.push (h : r.View full)
    (hbase : e.batch.baseOffset = endOf 0 (batches full)) (hc : 1 ≤ e.batch.header.recordCount)
    (hlog : ∀ bs, r.log.Holds bs → log.Holds (bs ++ [e.batch]))
    (hstart : log.logStartOffset = r.log.logStartOffset) :
    ({ r with log, entries := r.entries ++ [e.toMeta] } : RaftLog).View (full ++ [e]) where
  chain := by
    rw [batches_append, chain_append]
    exact ⟨h.chain, hbase, hc, trivial⟩
  covered := by
    have := h.covered
    rw [length_append]
    exact Nat.le_trans this (Nat.le_add_right _ _)
  entries := by
    dsimp only
    rw [h.entries, drop_append_of_le_length h.covered, map_append]
    rfl
  snapshot x hpos hx := by
    dsimp only at hpos hx
    have := h.covered
    rw [getElem?_append_left (by omega)] at hx
    exact h.snapshot x hpos hx
  log := by
    obtain ⟨d, hd, hholds, hs⟩ := h.log
    have hlen : d ≤ (batches full).length := by
      have := h.covered
      rw [length_batches]
      exact Nat.le_trans hd this
    refine ⟨d, hd, ?_, ?_⟩
    · rw [batches_append, drop_append_of_le_length hlen]
      exact hlog _ hholds
    · rw [hstart, hs, batches_append, take_append_of_le_length hlen]

theorem append_cons {fails : Option Nat} {entry : RaftLogEntry} {rest : List RaftLogEntry}
    (hfail : fails ≠ some 0) (happ : r.log.append entry.payload = .ok (log, last)) :
    r.append fails (entry :: rest) =
      RaftLog.append { r with
        log
        entries := r.entries ++ [{ term := entry.term, baseOffset := r.log.logEndOffset,
                                   lastOffset := last, type := entry.type }] }
        (fails.map (· - 1)) rest := by
  rw [RaftLog.append, happ]
  exact hfail

/-- `append` writes the entries one after another; what fails is a suffix of them. -/
theorem View.append (h : r.View full) (fails : Option Nat) {es : List RaftLogEntry}
    (hc : ∀ e ∈ es, 1 ≤ e.payload.header.recordCount) :
    ∃ j ≤ es.length,
      (r.append fails es).1.View (full ++ place (endOf 0 (batches full)) (es.take j)) ∧
      (r.append fails es).1.snapshotIndex = r.snapshotIndex ∧
      ((r.append fails es).2.toBool → j = es.length) := by
  induction es generalizing r full fails with
  | nil =>
    refine ⟨0, Nat.le_refl _, ?_, ?_, fun _ => rfl⟩
    · simpa [RaftLog.append, place] using h
    · simp [RaftLog.append]
  | cons e es ih =>
    by_cases hfail : fails = some 0
    · subst hfail
      refine ⟨0, Nat.zero_le _, by simpa [RaftLog.append, place] using h, rfl, ?_⟩
      simp [RaftLog.append, makeError, Except.toBool]
    have hce := hc e mem_cons_self
    obtain ⟨d, -, hholds, -⟩ := h.log
    obtain ⟨log, happ, -, hstart⟩ := hholds.append hce
    rw [append_cons hfail happ]
    have hview := h.push (e := ⟨e.term, e.type, e.payload.rebase r.log.logEndOffset⟩)
      (by rw [← h.logEndOffset]; rfl) hce
      (fun bs hbs => by
        obtain ⟨log', happ', hbs', -⟩ := hbs.append hce
        rw [happ] at happ'
        cases happ'
        exact hbs') hstart
    obtain ⟨j, hj, hv, hsnap, hok⟩ := ih hview (fails.map (· - 1))
      (fun x hx => hc x (mem_cons_of_mem _ hx))
    refine ⟨j + 1, Nat.succ_le_succ hj, ?_, hsnap, fun hb => congrArg (· + 1) (hok hb)⟩
    rw [batches_append, endOf_append, append_assoc] at hv
    rw [take_succ_cons, place, ← h.logEndOffset]
    exact hv

/-- Where the cut after `k` entries lies in the part that the partition log still has. -/
theorem endOf_drop_take {bs : List RecordBatch} (hd : d ≤ k) :
    endOf (endOf 0 (bs.take d)) ((bs.drop d).take (k - d)) = endOf 0 (bs.take k) := by
  rw [← endOf_append, ← take_add, Nat.add_sub_of_le hd]

/-- Where the entry after `k` others starts, in the part that the partition log still has. -/
theorem View.baseOffset_eq (h : r.View full) (hd : d ≤ k)
    (hstart : r.log.logStartOffset = endOf 0 ((batches full).take d)) (he : full[k]? = some e) :
    e.toMeta.baseOffset = endOf r.log.logStartOffset (((batches full).drop d).take (k - d)) := by
  rw [hstart, endOf_drop_take hd]
  exact h.chain.baseOffset_getElem (batches_getElem? he)

theorem View.truncateFrom (h : r.View full) (hk : r.snapshotIndex ≤ k) (hlen : k < full.length) :
    ∃ r', r.truncateFrom (k + 1) = .ok r' ∧
      r'.View (full.take k) ∧ r'.snapshotIndex = r.snapshotIndex := by
  obtain ⟨e, he⟩ : ∃ e, full[k]? = some e := ⟨_, getElem?_eq_getElem hlen⟩
  obtain ⟨d, hd, hholds, hstart⟩ := h.log
  have hbase := h.baseOffset_eq (Nat.le_trans hd hk) hstart he
  obtain ⟨log, hlog, hholds', hstart'⟩ := hholds.truncateTo (k := k - d)
    (by rw [length_drop, length_batches]; omega)
  have hslot : r.slotOf (k + 1) = k - r.snapshotIndex := by unfold slotOf; omega
  unfold RaftLog.truncateFrom
  rw [if_neg (by omega), if_neg (by omega), if_neg (by rw [h.lastIndex]; omega),
    h.getElem?_slotOf (by omega), Nat.add_sub_cancel, he]
  dsimp only [Option.map_some]
  rw [hbase, hlog]
  refine ⟨_, rfl, ⟨?_, ?_, ?_, ?_, d, hd, ?_, ?_⟩, rfl⟩
  · rw [batches_take]; exact h.chain.take k
  · dsimp only; rw [length_take]; omega
  · dsimp only
    rw [h.entries, hslot, ← map_take, take_drop, Nat.add_sub_of_le hk]
  · intro x hpos hx
    dsimp only at hpos hx
    rw [getElem?_take_of_lt (by omega)] at hx
    exact h.snapshot x hpos hx
  · dsimp only
    rw [batches_take, drop_take]; exact hholds'
  · dsimp only
    rw [hstart', hstart, batches_take, take_take, Nat.min_eq_left (by omega)]

/-- Where the first `k` entries end, in the part that the partition log still has. -/
theorem lastOffset_eq (hd : d ≤ k) (hpos : 0 < k)
    (hstart : r.log.logStartOffset = endOf 0 ((batches full).take d)) (he : full[k - 1]? = some e) :
    e.toMeta.lastOffset + 1 =
      endOf r.log.logStartOffset (((batches full).drop d).take (k - d)) := by
  have hend := endOf_take_succ (o := 0) (batches_getElem? he)
  rw [Nat.sub_add_cancel hpos] at hend
  rw [hstart, endOf_drop_take hd, hend]
  rfl

theorem View.compactTo (h : r.View full) (hlen : k ≤ full.length) :
    ∃ r', r.compactTo k = .ok r' ∧ r'.View full ∧ r'.snapshotIndex = max r.snapshotIndex k := by
  unfold RaftLog.compactTo
  split
  · rename_i hle
    exact ⟨r, rfl, h, by omega⟩
  rename_i hgt
  obtain ⟨e, he⟩ : ∃ e, full[k - 1]? = some e := ⟨_, getElem?_eq_getElem (by omega)⟩
  obtain ⟨d, hd, hholds, hstart⟩ := h.log
  have hlast := lastOffset_eq (by omega) (by omega) hstart he
  obtain ⟨log, j, hlog, hj, hholds', hstart'⟩ := hholds.truncatePrefixTo (k - d)
  rw [h.getElem?_slotOf (by omega), he]
  dsimp only [Option.map_some]
  rw [hlast, hlog]
  refine ⟨_, rfl, ⟨h.chain, hlen, ?_, ?_, d + j, ?_, ?_, ?_⟩, ?_⟩
  · dsimp only
    rw [h.entries, ← map_drop, drop_drop]
    congr 2
    unfold slotOf
    omega
  · intro x _ hx
    dsimp only at hx ⊢
    rw [he] at hx
    cases hx
    exact ⟨rfl, rfl⟩
  · dsimp only; omega
  · dsimp only
    rw [← drop_drop]; exact hholds'
  · dsimp only
    rw [hstart', hstart, ← endOf_append, ← take_add]
  · dsimp only; omega

/-- A snapshot of the list `ys`, put in the place of whatever the log had. -/
theorem view_resetTo (r : RaftLog) {ys : List LogEntry} (hchain : Chain 0 (batches ys))
    {term : Nat} (he : ys.getLast? = some e) (hterm : term = e.term)
    (hlast : last = e.batch.lastOffset) :
    ∃ r', r.resetTo ys.length term last = .ok r' ∧ r'.View ys ∧ r'.snapshotIndex = ys.length := by
  rw [getLast?_eq_getElem?] at he
  have hpos : 0 < ys.length := by
    have := (List.getElem?_eq_some_iff.mp he).1
    omega
  have hend : last + 1 = endOf 0 (batches ys) := by
    have := endOf_take_succ (o := 0) (batches_getElem? he)
    rw [Nat.sub_add_cancel hpos, take_of_length_le (by simp)] at this
    rw [this, hlast]
  obtain ⟨log, hlog, hholds, hstart⟩ := PartitionLog.holds_resetTo r.log (o := last + 1)
    (by rw [hend]; exact hchain.le_endOf)
  unfold RaftLog.resetTo
  rw [hlog]
  refine ⟨_, rfl, ⟨hchain, Nat.le_refl _, ?_, ?_, ys.length, Nat.le_refl _, ?_, ?_⟩, rfl⟩
  · simp
  · intro x _ hx
    dsimp only at hx ⊢
    rw [he] at hx
    cases hx
    exact ⟨hterm, hlast⟩
  · dsimp only
    rw [drop_of_length_le (by simp)]; exact hholds
  · dsimp only
    rw [hstart, hend, take_of_length_le (by simp)]

end RaftLog

end Nexus
