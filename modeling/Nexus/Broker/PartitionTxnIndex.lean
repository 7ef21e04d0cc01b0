import Mathlib.Data.List.AList
import Mathlib.Data.List.Sort
import Mathlib.Data.Finset.Basic
import Nexus.Common

/-!
# The transaction index of a partition

`common/control_record.hpp` (the flags of a batch) and `broker/partition_txn_index.cpp`: the index
that a partition keeps of its open and aborted transactions, and the last stable offset.

The hash maps of the source are association lists with distinct keys. The index never looks at the
payload of a marker, so a logged batch carries the decision of its marker beside it.
-/

namespace Nexus

abbrev ProducerId := Int

/-! ## Flags of a batch -/

def kTransactionalAttr : UInt16 := 0x0010
def kControlAttr : UInt16 := 0x0020

def isTransactional (attrs : UInt16) : Bool := (attrs &&& kTransactionalAttr) != 0

def isControl (attrs : UInt16) : Bool := (attrs &&& kControlAttr) != 0

inductive ControlRecordType
  | abort | commit
  deriving DecidableEq

/-! ## The index -/

structure AbortedRange where
  producerId : ProducerId := -1
  firstOffset : Int := 0
  markerOffset : Int := 0
  deriving DecidableEq

structure PartitionTxnIndex where
  /-- `open_`: the first offset of each producer's open transaction. -/
  opened : AList (fun _ : ProducerId => Int) := ∅
  aborted : List AbortedRange := []

namespace PartitionTxnIndex

/-- `on_data`; `try_emplace` keeps the offset of the first batch. -/
def onData (i : PartitionTxnIndex) (p : ProducerId) (base : Int) : PartitionTxnIndex :=
  match i.opened.lookup p with
  | some _ => i
  | none => { i with opened := i.opened.insert p base }

def onMarker (i : PartitionTxnIndex) (p : ProducerId) (decision : ControlRecordType)
    (marker : Int) : PartitionTxnIndex :=
  match i.opened.lookup p with
  | none => i
  | some first =>
    { opened := i.opened.erase p
      aborted :=
        if decision = .abort then i.aborted ++ [⟨p, first, marker⟩] else i.aborted }

def lastStableOffset (i : PartitionTxnIndex) (highWatermark : Int) : Int :=
  i.opened.entries.foldl (fun lso e => min lso e.2) highWatermark

def evictBelow (i : PartitionTxnIndex) (logStart : Int) : PartitionTxnIndex :=
  { i with aborted := i.aborted.filter (fun r => !(r.markerOffset < logStart)) }

end PartitionTxnIndex

/-! ## A log that feeds the index -/

structure LoggedBatch where
  batch : RecordBatch
  /-- What the marker decides, when the batch is one. -/
  decision : ControlRecordType := .abort
  deriving DecidableEq

namespace LoggedBatch

def offset (x : LoggedBatch) : Int := x.batch.header.baseOffset

def producer (x : LoggedBatch) : ProducerId := x.batch.header.producerId

def control (x : LoggedBatch) : Bool := isControl x.batch.header.attrs

/-- A marker of producer `p`. -/
def marks (p : ProducerId) (x : LoggedBatch) : Bool := x.control && x.producer == p

/-- A transactional batch of producer `p`. -/
def writes (p : ProducerId) (x : LoggedBatch) : Bool :=
  !x.control && isTransactional x.batch.header.attrs && x.producer == p

end LoggedBatch

/-- The append of one batch, as the partition tells it to its index. -/
def PartitionTxnIndex.feed (i : PartitionTxnIndex) (x : LoggedBatch) : PartitionTxnIndex :=
  if x.control then i.onMarker x.producer x.decision x.offset
  else if isTransactional x.batch.header.attrs then i.onData x.producer x.offset
  else i

/-! ## What the log itself says about its transactions -/

/-- First offset of the open transaction of `p` after one more batch. -/
def stepOpen (p : ProducerId) (o : Option Int) (x : LoggedBatch) : Option Int :=
  if x.marks p then none else if x.writes p then some (o.getD x.offset) else o

/-- The decision of the first marker of `p`, which ends its open transaction. -/
def outcome (p : ProducerId) (rest : List LoggedBatch) : Option ControlRecordType :=
  (rest.find? (·.marks p)).map (·.decision)

variable {p q : ProducerId} {x : LoggedBatch} {rest log : List LoggedBatch} {o : Option Int}

/-! ## Steps of the log -/

namespace LoggedBatch

theorem not_marks_of_writes (h : x.writes p = true) : x.marks p = false := by
  simp_all [marks, writes]

theorem producer_of_marks (h : x.marks p = true) : x.producer = p := by
  simp_all [marks]

theorem producer_of_writes (h : x.writes p = true) : x.producer = p := by
  simp_all [writes]

theorem marks_producer (h : x.control = true) : x.marks x.producer = true := by
  simp [marks, h]

theorem writes_producer (hc : x.control = false)
    (ht : isTransactional x.batch.header.attrs = true) : x.writes x.producer = true := by
  simp [writes, hc, ht]

/-- A batch that neither writes to a transaction of `p` nor ends one. -/
def passes (p : ProducerId) (x : LoggedBatch) : Prop := x.marks p = false ∧ x.writes p = false

theorem passes_of_ne (h : p ≠ x.producer) : x.passes p := by
  simp [passes, marks, writes, Ne.symm h]

theorem passes_of_plain (hc : x.control = false)
    (ht : isTransactional x.batch.header.attrs = false) : x.passes p := by
  simp [passes, marks, writes, hc, ht]

end LoggedBatch

@[simp] theorem stepOpen_marks (h : x.marks p = true) : stepOpen p o x = none := by
  simp [stepOpen, h]

theorem stepOpen_writes (h : x.writes p = true) : stepOpen p o x = some (o.getD x.offset) := by
  simp [stepOpen, h, LoggedBatch.not_marks_of_writes h]

@[simp] theorem stepOpen_passes (h : x.passes p) : stepOpen p o x = o := by
  simp [stepOpen, h.1, h.2]

theorem outcome_marks (h : x.marks p = true) : outcome p (x :: rest) = some x.decision := by
  simp [outcome, h]

theorem outcome_skip (h : x.marks p = false) : outcome p (x :: rest) = outcome p rest := by
  simp [outcome, h]

/-- A transaction with no marker to come stays open. -/
theorem foldl_stepOpen_of_undecided {v : Int} (h : outcome p rest = none) :
    rest.foldl (stepOpen p) (some v) = some v := by
  induction rest with
  | nil => rfl
  | cons x rest ih =>
    have hm : x.marks p = false := by
      by_contra hm
      simp [outcome_marks (by simpa using hm : x.marks p = true)] at h
    rw [outcome_skip hm] at h
    rw [List.foldl_cons]
    cases hw : x.writes p with
    | true => rw [stepOpen_writes hw]; exact ih h
    | false => rw [stepOpen_passes ⟨hm, hw⟩]; exact ih h

/-! ## The index of a log -/

namespace PartitionTxnIndex

variable (i : PartitionTxnIndex)

theorem lookup_feed : (i.feed x).opened.lookup p = stepOpen p (i.opened.lookup p) x := by
  cases hc : x.control with
  | true =>
    simp only [feed, hc, if_true, onMarker]
    by_cases hp : p = x.producer
    · subst hp
      rw [stepOpen_marks (LoggedBatch.marks_producer hc)]
      split <;> simp_all
    · rw [stepOpen_passes (LoggedBatch.passes_of_ne hp)]
      split <;> simp [AList.lookup_erase_ne hp]
  | false =>
    simp only [feed, hc, Bool.false_eq_true, if_false]
    cases ht : isTransactional x.batch.header.attrs with
    | false => simp [stepOpen_passes (LoggedBatch.passes_of_plain hc ht)]
    | true =>
      simp only [if_true, onData]
      by_cases hp : p = x.producer
      · subst hp
        rw [stepOpen_writes (LoggedBatch.writes_producer hc ht)]
        split <;> simp_all
      · rw [stepOpen_passes (LoggedBatch.passes_of_ne hp)]
        split <;> simp [AList.lookup_insert_ne hp]

theorem foldl_min_le {α : Type} (g : α → Int) (l : List α) (a : Int) :
    l.foldl (fun m e => min m (g e)) a ≤ a ∧ ∀ e ∈ l, l.foldl (fun m e => min m (g e)) a ≤ g e := by
  induction l generalizing a with
  | nil => simp
  | cons b l ih =>
    obtain ⟨h₁, h₂⟩ := ih (min a (g b))
    refine ⟨h₁.trans (min_le_left _ _), fun e he => ?_⟩
    rcases List.mem_cons.mp he with rfl | he
    · exact h₁.trans (min_le_right _ _)
    · exact h₂ e he

theorem lastStableOffset_le_highWatermark (hw : Int) : i.lastStableOffset hw ≤ hw :=
  (foldl_min_le _ _ _).1

theorem lastStableOffset_le {v : Int} (hw : Int) (h : i.opened.lookup p = some v) :
    i.lastStableOffset hw ≤ v :=
  (foldl_min_le (fun e : Sigma fun _ : ProducerId => Int => e.2) _ hw).2 ⟨p, v⟩
    (AList.mem_lookup_iff.mp h)

end PartitionTxnIndex

end Nexus
