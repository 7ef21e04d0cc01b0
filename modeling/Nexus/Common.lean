import Mathlib.Algebra.Group.Int.Defs
import Mathlib.Algebra.GroupWithZero.Nat

/-!
# Common vocabulary: identifiers, errors and record batches

The types of `common/types.hpp`, `common/error.hpp` and `common/record.hpp` that the storage
and consensus layers share. Terms and Raft indices are counters that start at 0, natural numbers
here; index 0 is the sentinel before the first entry. Offsets are integers, since the last offset
of an empty log is `base - 1`, and so is the monotonic clock, in milliseconds.
-/

namespace Nexus

abbrev NodeId := Int

inductive ErrorCode
  | corrupt | ioError | outOfSpace | invalidArgument | notFound | outOfRange | unsupported
  | shutdown | fenced
  deriving DecidableEq

structure Error where
  code : ErrorCode
  message : String
  deriving DecidableEq

/-- `nexus::expected<T>`. -/
abbrev Expected (α : Type) := Except Error α

def makeError {α : Type} (code : ErrorCode) (message : String) : Expected α :=
  .error ⟨code, message⟩

instance decEqExcept {ε α : Type} [DecidableEq ε] [DecidableEq α] : DecidableEq (Except ε α)
  | .error a, .error b => if h : a = b then isTrue (by rw [h]) else isFalse (by simpa using h)
  | .ok a, .ok b => if h : a = b then isTrue (by rw [h]) else isFalse (by simpa using h)
  | .error _, .ok _ => isFalse (by simp)
  | .ok _, .error _ => isFalse (by simp)

theorem exists_of_map_eq_ok {ε α β : Type} {f : α → β} {x : Except ε α} {b : β}
    (h : x.map f = .ok b) : ∃ a, x = .ok a ∧ f a = b := by
  cases x with
  | error e => cases h
  | ok a => exact ⟨a, rfl, Except.ok.inj h⟩

theorem exists_of_bind_eq_ok {ε α β : Type} {x : Except ε α} {f : α → Except ε β} {b : β}
    (h : x.bind f = .ok b) : ∃ a, x = .ok a ∧ f a = .ok b := by
  cases x with
  | error e => cases h
  | ok a => exact ⟨a, rfl, h⟩

/-! ## Record batches -/

structure RecordBatchHeader where
  baseOffset : Int := 0
  attrs : UInt16 := 0
  /-- Idempotent producer, `-1` for none. -/
  producerId : Int := -1
  producerEpoch : Int := -1
  baseSequence : Int := -1
  recordCount : Int := 0
  deriving DecidableEq, Inhabited

structure RecordBatch where
  header : RecordBatchHeader
  records : List UInt8 := []
  deriving DecidableEq, Inhabited

namespace RecordBatch

/-- `RecordBatch::kHeaderSize`. -/
def kHeaderSize : Nat := 36

/-- Bytes of the batch once serialised. -/
def encodedSize (b : RecordBatch) : Nat := kHeaderSize + b.records.length

def baseOffset (b : RecordBatch) : Int := b.header.baseOffset

/-- Highest offset of the batch. -/
def lastOffset (b : RecordBatch) : Int := b.header.baseOffset + b.header.recordCount - 1

/-- The batch with the base offset that the log assigns to it. -/
def rebase (b : RecordBatch) (o : Int) : RecordBatch :=
  { b with header := { b.header with baseOffset := o } }

@[simp] theorem baseOffset_rebase (b : RecordBatch) (o : Int) : (b.rebase o).baseOffset = o :=
  rfl

@[simp] theorem recordCount_rebase (b : RecordBatch) (o : Int) :
    (b.rebase o).header.recordCount = b.header.recordCount := rfl

theorem lastOffset_rebase (b : RecordBatch) (o : Int) :
    (b.rebase o).lastOffset = o + b.header.recordCount - 1 := rfl

/-- A batch that already sits at `o` is not changed by the rebase. -/
theorem rebase_of_baseOffset {b : RecordBatch} {o : Int} (h : b.baseOffset = o) :
    b.rebase o = b := by
  subst h; rfl

theorem encodedSize_pos (b : RecordBatch) : 0 < b.encodedSize := by
  simp only [encodedSize, kHeaderSize]; omega

end RecordBatch

end Nexus
