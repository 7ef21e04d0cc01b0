import Nexus.Common
import Nexus.Lib.LittleEndian

/-!
# Record batches as bytes

`common/record.cpp` and `common/crc32c.cpp`. The header of a batch has 36 bytes: base offset, length
of what follows, CRC32C of what follows the CRC, and the fields that the CRC covers together with
the records. `decode` checks the length and the CRC; `peek` reads the header alone, to walk a log.

A batch whose fields are in the ranges of their C++ types and whose length fits in an `int32`
(`RecordBatch.Fits`) is read back as it was written: `decode_encode`, `peek_encode`.
-/

namespace Nexus

open Lib List

/-! ## CRC32C -/

def kCrcPoly : UInt32 := 0x82F63B78

/-- One entry of the table: eight steps of the reflected polynomial. -/
def crcTable (index : UInt32) : UInt32 :=
  (List.range 8).foldl (fun crc _ => (crc >>> 1) ^^^ (if crc &&& 1 ≠ 0 then kCrcPoly else 0)) index

def crcStep (crc : UInt32) (b : UInt8) : UInt32 :=
  crcTable ((crc ^^^ b.toUInt32) &&& 0xFF) ^^^ (crc >>> 8)

def crc32c (data : Bytes) (seed : UInt32 := 0) : UInt32 :=
  data.foldl crcStep (~~~seed) ^^^ 0xFFFFFFFF

theorem not_xor_ones (crc : UInt32) : ~~~(crc ^^^ 0xFFFFFFFF) = crc := by
  apply UInt32.toBitVec_inj.mp
  have hones : (0xFFFFFFFF : UInt32).toBitVec = BitVec.allOnes 32 := by decide
  rw [UInt32.toBitVec_not, UInt32.toBitVec_xor, hones, BitVec.xor_allOnes, BitVec.not_not]

/-- The CRC of one string continues that of another. -/
theorem crc32c_append (xs ys : Bytes) (seed : UInt32) :
    crc32c (xs ++ ys) seed = crc32c ys (crc32c xs seed) := by
  unfold crc32c
  rw [foldl_append, not_xor_ones]

-- The check value of the Castagnoli polynomial, the CRC of the digits 1 to 9.
example : crc32c [0x31, 0x32, 0x33, 0x34, 0x35, 0x36, 0x37, 0x38, 0x39] = 0xE3069283 := by
  decide +kernel

namespace RecordBatch

/-! ## The codec -/

/-- The fields of the header that the CRC covers. -/
def encodeCovered (h : RecordBatchHeader) : Bytes :=
  storeLe 2 h.attrs.toNat ++ (storeLe 8 h.producerId ++ (storeLe 2 h.producerEpoch ++
    (storeLe 4 h.baseSequence ++ storeLe 4 h.recordCount)))

/-- Bytes after the field `length`. -/
def lengthField (b : RecordBatch) : Int := (kHeaderSize - 12 : Nat) + b.records.length

def encode (b : RecordBatch) : Bytes :=
  let crc := crc32c b.records (crc32c (encodeCovered b.header))
  storeLe 8 b.header.baseOffset ++ (storeLe 4 b.lengthField ++ (storeLe 4 crc.toNat ++
    (encodeCovered b.header ++ b.records)))

def decode (data : Bytes) : Expected RecordBatch :=
  if data.length < kHeaderSize then makeError .corrupt "batch truncado: cabecera incompleta"
  else
    let length := loadS 4 data 8
    if length < 0 then makeError .corrupt "length negativo"
    else
      let total := 12 + length.toNat
      if total < kHeaderSize ∨ total > data.length then
        makeError .corrupt "batch truncado: length inconsistente"
      else if (crc32c (slice data 16 (total - 16))).toNat ≠ loadU 4 data 12 then
        makeError .corrupt "CRC32C no coincide"
      else
        .ok { header :=
                { baseOffset := loadS 8 data 0
                  attrs := UInt16.ofNat (loadU 2 data 16)
                  producerId := loadS 8 data 18
                  producerEpoch := loadS 2 data 26
                  baseSequence := loadS 4 data 28
                  recordCount := loadS 4 data 32 }
              records := slice data kHeaderSize (total - kHeaderSize) }

end RecordBatch

/-- What `peek` reads of a batch. -/
structure RecordBatchView where
  baseOffset : Int
  recordCount : Int
  encodedSize : Nat
  deriving DecidableEq

namespace RecordBatch

def peek (data : Bytes) : Expected RecordBatchView :=
  if data.length < kHeaderSize then makeError .corrupt "batch truncado: cabecera incompleta"
  else
    let length := loadS 4 data 8
    if length < 0 then makeError .corrupt "length negativo"
    else
      let total := 12 + length.toNat
      if total < kHeaderSize then makeError .corrupt "length inconsistente"
      else .ok { baseOffset := loadS 8 data 0, recordCount := loadS 4 data 32,
                 encodedSize := total }

/-! ## Round trips -/

/-- The fields are in the ranges of their types, and the length fits in its field. -/
structure Fits (b : RecordBatch) : Prop where
  baseOffset : -2 ^ 63 ≤ b.header.baseOffset ∧ b.header.baseOffset < 2 ^ 63
  producerId : -2 ^ 63 ≤ b.header.producerId ∧ b.header.producerId < 2 ^ 63
  producerEpoch : -2 ^ 15 ≤ b.header.producerEpoch ∧ b.header.producerEpoch < 2 ^ 15
  baseSequence : -2 ^ 31 ≤ b.header.baseSequence ∧ b.header.baseSequence < 2 ^ 31
  recordCount : -2 ^ 31 ≤ b.header.recordCount ∧ b.header.recordCount < 2 ^ 31
  length : b.lengthField < 2 ^ 31

instance : DecidablePred Fits := fun b =>
  decidable_of_iff
    ((-2 ^ 63 ≤ b.header.baseOffset ∧ b.header.baseOffset < 2 ^ 63) ∧
      (-2 ^ 63 ≤ b.header.producerId ∧ b.header.producerId < 2 ^ 63) ∧
      (-2 ^ 15 ≤ b.header.producerEpoch ∧ b.header.producerEpoch < 2 ^ 15) ∧
      (-2 ^ 31 ≤ b.header.baseSequence ∧ b.header.baseSequence < 2 ^ 31) ∧
      (-2 ^ 31 ≤ b.header.recordCount ∧ b.header.recordCount < 2 ^ 31) ∧ b.lengthField < 2 ^ 31)
    ⟨fun h => ⟨h.1, h.2.1, h.2.2.1, h.2.2.2.1, h.2.2.2.2.1, h.2.2.2.2.2⟩,
      fun h => ⟨h.1, h.2, h.3, h.4, h.5, h.6⟩⟩

/-- The log may give the batch another offset. -/
theorem Fits.rebase {b : RecordBatch} (h : b.Fits) {o : Int} (ho : -2 ^ 63 ≤ o ∧ o < 2 ^ 63) :
    (b.rebase o).Fits :=
  ⟨ho, h.producerId, h.producerEpoch, h.baseSequence, h.recordCount, h.length⟩

theorem length_encodeCovered (h : RecordBatchHeader) : (encodeCovered h).length = 20 := by
  simp [encodeCovered]

theorem length_encode (b : RecordBatch) : b.encode.length = b.encodedSize := by
  simp [encode, length_encodeCovered, encodedSize, kHeaderSize]
  omega

theorem encode_ne_nil (b : RecordBatch) : b.encode ≠ [] := by
  intro h
  have := congrArg length h
  rw [length_encode] at this
  exact absurd this (Nat.ne_of_gt b.encodedSize_pos)

theorem lengthField_eq (b : RecordBatch) :
    b.lengthField = ((24 + b.records.length : Nat) : Int) := by
  simp [lengthField, kHeaderSize]

theorem total_eq (b : RecordBatch) : 12 + b.lengthField.toNat = b.encodedSize := by
  rw [lengthField_eq, encodedSize, kHeaderSize]
  omega

variable {b : RecordBatch} (rest : Bytes) {data : Bytes}

/-- The field `length` of an encoded batch. -/
theorem load_length (h : b.Fits) : loadS 4 (b.encode ++ rest) 8 = b.lengthField := by
  have hlen := h.length
  have heq := b.lengthField_eq
  rw [encode]
  simp only [append_assoc]
  exact loadS_storeLe (length_storeLe _ _) (by norm_num; omega) (by norm_num; omega)

theorem load_baseOffset (h : b.Fits) : loadS 8 (b.encode ++ rest) 0 = b.header.baseOffset := by
  obtain ⟨hlo, hhi⟩ := h.baseOffset
  rw [encode]
  simp only [append_assoc]
  exact @loadS_storeLe [] _ _ _ _ rfl (by norm_num at hlo ⊢; omega) (by norm_num at hhi ⊢; omega)

/-- The string after its first fields. -/
theorem encode_eq (b : RecordBatch) : ∃ front : Bytes, front.length = 12 ∧
    b.encode ++ rest = front ++
      (storeLe 4 (crc32c b.records (crc32c (encodeCovered b.header))).toNat ++
        (encodeCovered b.header ++ (b.records ++ rest))) := by
  refine ⟨storeLe 8 b.header.baseOffset ++ storeLe 4 b.lengthField, by simp, ?_⟩
  rw [encode]
  simp only [append_assoc]

/-- The CRC of an encoded batch is the one in its header. -/
theorem load_crc (b : RecordBatch) :
    (crc32c (slice (b.encode ++ rest) 16 (b.encodedSize - 16))).toNat =
      loadU 4 (b.encode ++ rest) 12 := by
  obtain ⟨front, hfront, heq⟩ := encode_eq rest b
  have hcrc : loadU 4 (b.encode ++ rest) 12 =
      (crc32c b.records (crc32c (encodeCovered b.header))).toNat := by
    rw [heq]
    exact loadU_storeLe hfront (by have := UInt32.toNat_lt (crc32c b.records
      (crc32c (encodeCovered b.header))); norm_num at this ⊢; exact this)
  have hcovered : slice (b.encode ++ rest) 16 (b.encodedSize - 16) =
      encodeCovered b.header ++ b.records := by
    rw [heq, ← append_assoc, ← append_assoc (encodeCovered b.header)]
    refine slice_field (by simp [hfront]) ?_
    rw [length_append, length_encodeCovered, encodedSize, kHeaderSize]
    omega
  rw [hcovered, hcrc, crc32c_append]

/-- The fields that the CRC covers, at their place in the string. -/
theorem encode_covered (b : RecordBatch) : ∃ front : Bytes, front.length = 16 ∧
    b.encode ++ rest = front ++ (storeLe 2 b.header.attrs.toNat ++ (storeLe 8 b.header.producerId ++
      (storeLe 2 b.header.producerEpoch ++ (storeLe 4 b.header.baseSequence ++
        (storeLe 4 b.header.recordCount ++ (b.records ++ rest)))))) := by
  obtain ⟨front, hfront, heq⟩ := encode_eq rest b
  refine ⟨front ++ storeLe 4 (crc32c b.records (crc32c (encodeCovered b.header))).toNat,
    by simp [hfront], ?_⟩
  rw [heq, encodeCovered]
  simp only [append_assoc]

theorem load_recordCount (h : b.Fits) :
    loadS 4 (b.encode ++ rest) 32 = b.header.recordCount := by
  obtain ⟨hlo, hhi⟩ := h.recordCount
  obtain ⟨front, hfront, heq⟩ := encode_covered rest b
  rw [heq]
  simp only [← append_assoc]
  rw [append_assoc, append_assoc]
  exact loadS_storeLe (by simp [hfront]) (by norm_num at hlo ⊢; omega) (by norm_num at hhi ⊢; omega)

/-- The whole header of an encoded batch. -/
theorem load_header (h : b.Fits) :
    ({ baseOffset := loadS 8 (b.encode ++ rest) 0
       attrs := UInt16.ofNat (loadU 2 (b.encode ++ rest) 16)
       producerId := loadS 8 (b.encode ++ rest) 18
       producerEpoch := loadS 2 (b.encode ++ rest) 26
       baseSequence := loadS 4 (b.encode ++ rest) 28
       recordCount := loadS 4 (b.encode ++ rest) 32 } : RecordBatchHeader) = b.header := by
  obtain ⟨hpid₁, hpid₂⟩ := h.producerId
  obtain ⟨hepoch₁, hepoch₂⟩ := h.producerEpoch
  obtain ⟨hseq₁, hseq₂⟩ := h.baseSequence
  rw [load_baseOffset rest h, load_recordCount rest h]
  obtain ⟨front, hfront, heq⟩ := encode_covered rest b
  have hattrs : loadU 2 (b.encode ++ rest) 16 = b.header.attrs.toNat := by
    rw [heq]
    exact loadU_storeLe hfront (by have := b.header.attrs.toNat_lt; norm_num at this ⊢; exact this)
  have hpid : loadS 8 (b.encode ++ rest) 18 = b.header.producerId := by
    rw [heq, ← append_assoc]
    exact loadS_storeLe (by simp [hfront]) (by norm_num at hpid₁ ⊢; omega)
      (by norm_num at hpid₂ ⊢; omega)
  have hepoch : loadS 2 (b.encode ++ rest) 26 = b.header.producerEpoch := by
    rw [heq, ← append_assoc, ← append_assoc]
    exact loadS_storeLe (by simp [hfront]) (by norm_num at hepoch₁ ⊢; omega)
      (by norm_num at hepoch₂ ⊢; omega)
  have hseq : loadS 4 (b.encode ++ rest) 28 = b.header.baseSequence := by
    rw [heq, ← append_assoc, ← append_assoc, ← append_assoc]
    exact loadS_storeLe (by simp [hfront]) (by norm_num at hseq₁ ⊢; omega)
      (by norm_num at hseq₂ ⊢; omega)
  rw [hattrs, hpid, hepoch, hseq, UInt16.ofNat_toNat]

theorem slice_records (b : RecordBatch) :
    slice (b.encode ++ rest) kHeaderSize (b.encodedSize - kHeaderSize) = b.records := by
  obtain ⟨front, hfront, heq⟩ := encode_covered rest b
  rw [heq]
  simp only [← append_assoc]
  rw [append_assoc]
  refine slice_field (by simp [hfront, kHeaderSize]) ?_
  rw [encodedSize]
  omega

/-- A batch is read back from its bytes, whatever follows them. -/
theorem decode_encode (h : b.Fits) : decode (b.encode ++ rest) = .ok b := by
  have hlen : (b.encode ++ rest).length = b.encodedSize + rest.length := by
    rw [length_append, length_encode]
  have hfield := b.lengthField_eq
  have hsize : b.encodedSize = kHeaderSize + b.records.length := rfl
  unfold decode
  simp only [load_length rest h]
  rw [if_neg (by omega), if_neg (by omega), b.total_eq, if_neg (by omega), load_crc rest b,
    if_neg (by simp), load_header rest h, slice_records rest b]

theorem peek_whole (h : b.Fits) : peek (b.encode ++ rest) =
    .ok { baseOffset := b.baseOffset, recordCount := b.header.recordCount,
          encodedSize := b.encodedSize } := by
  have hlen : (b.encode ++ rest).length = b.encodedSize + rest.length := by
    rw [length_append, length_encode]
  have hfield := b.lengthField_eq
  have hsize : b.encodedSize = kHeaderSize + b.records.length := rfl
  unfold peek
  rw [load_length rest h, load_baseOffset rest h, load_recordCount rest h, hlen]
  dsimp only
  rw [if_neg (by omega), if_neg (by omega), b.total_eq, if_neg (by omega)]
  rfl

/-- The header is all that `peek` looks at. -/
theorem peek_take (h : kHeaderSize ≤ data.length) :
    peek (data.take kHeaderSize) = peek data := by
  unfold peek
  rw [loadS_take (by decide), loadS_take (by decide), loadS_take (by decide), length_take,
    Nat.min_eq_left h, if_neg (Nat.lt_irrefl _), if_neg (Nat.not_lt_of_le h)]

theorem peek_encode (h : b.Fits) : peek ((b.encode ++ rest).take kHeaderSize) =
    .ok { baseOffset := b.baseOffset, recordCount := b.header.recordCount,
          encodedSize := b.encodedSize } := by
  rw [peek_take, peek_whole rest h]
  rw [length_append, length_encode, encodedSize]
  omega

/-! ## What is accepted -/

/-- The batch that the bytes hold, if its field `length` is `n`. -/
def load (data : Bytes) (n : Nat) : RecordBatch where
  header :=
    { baseOffset := loadS 8 data 0
      attrs := UInt16.ofNat (loadU 2 data 16)
      producerId := loadS 8 data 18
      producerEpoch := loadS 2 data 26
      baseSequence := loadS 4 data 28
      recordCount := loadS 4 data 32 }
  records := slice data 36 (n - 24)

variable {n : Nat}

theorem decode_eq_load (h : decode data = .ok b) :
    ∃ n : Nat, loadS 4 data 8 = n ∧ 24 ≤ n ∧ 12 + n ≤ data.length ∧
      (crc32c (slice data 16 (n - 4))).toNat = loadU 4 data 12 ∧ b = load data n := by
  unfold decode at h
  split at h
  · cases h
  dsimp only at h
  split at h
  · cases h
  split at h
  · cases h
  split at h
  · cases h
  rename_i hneg htotal hcrc
  obtain ⟨n, hn⟩ := Int.eq_ofNat_of_zero_le (Int.not_lt.mp hneg)
  rw [hn, Int.toNat_natCast] at htotal hcrc h
  rw [kHeaderSize] at htotal
  refine ⟨n, hn, by omega, by omega, ?_, ?_⟩
  · rw [show n - 4 = 12 + n - 16 by omega]
    exact not_not.mp hcrc
  · rw [load, show n - 24 = 12 + n - kHeaderSize by rw [kHeaderSize]; omega]
    exact (Except.ok.inj h).symm

section
variable (hn : loadS 4 data 8 = n) (hlo : 24 ≤ n) (hhi : 12 + n ≤ data.length)
include hn hlo hhi

theorem lengthField_load : (load data n).lengthField = loadS 4 data 8 := by
  have hrecords : (load data n).records.length = n - 24 := length_slice (by omega)
  rw [lengthField_eq, hrecords, hn]
  omega

theorem fits_load : (load data n).Fits := by
  have hlength : (load data n).lengthField < 2 ^ 31 := by
    rw [lengthField_load hn hlo hhi]
    exact (loadS_bounds rfl data 8).2
  refine ⟨?_, ?_, ?_, ?_, ?_, hlength⟩ <;> dsimp only [load]
  exacts [loadS_bounds rfl data 0, loadS_bounds rfl data 18, loadS_bounds rfl data 26,
    loadS_bounds rfl data 28, loadS_bounds rfl data 32]

/-- Written back, the fields are the bytes that they were read from. -/
theorem encode_load (hcrc : (crc32c (slice data 16 (n - 4))).toNat = loadU 4 data 12) :
    (load data n).encode = slice data 0 (12 + n) := by
  have hattrs : (UInt16.ofNat (loadU 2 data 16)).toNat = loadU 2 data 16 := by
    have hlt := leValue_lt (slice data 16 2)
    rw [length_slice (by omega)] at hlt
    exact UInt16.toNat_ofNat_of_lt' hlt
  have hcovered : encodeCovered (load data n).header = slice data 16 20 := by
    rw [encodeCovered, load, hattrs, storeLe_loadU (by omega), storeLe_loadS (by omega),
      storeLe_loadS (by omega), storeLe_loadS (by omega), storeLe_loadS (by omega),
      ← slice_add, ← slice_add, ← slice_add, ← slice_add]
  rw [encode, hcovered, lengthField_load hn hlo hhi, load, ← crc32c_append, ← slice_add,
    show 20 + (n - 24) = n - 4 by omega, hcrc, storeLe_loadS (by omega), storeLe_loadS (by omega),
    storeLe_loadU (by omega), ← slice_add, ← slice_add, ← slice_add,
    show 8 + (4 + (4 + (n - 4))) = 12 + n by omega]

end

/-- `decode` accepts exactly the encodings, with anything after them. -/
theorem decode_eq_ok_iff :
    decode data = .ok b ↔ b.Fits ∧ ∃ rest, data = b.encode ++ rest := by
  constructor
  · intro h
    obtain ⟨n, hn, hlo, hhi, hcrc, rfl⟩ := decode_eq_load h
    refine ⟨fits_load hn hlo hhi, data.drop (12 + n), ?_⟩
    rw [encode_load hn hlo hhi hcrc]
    exact (take_append_drop (12 + n) data).symm
  · rintro ⟨hfits, rest, rfl⟩
    exact decode_encode rest hfits

end RecordBatch

end Nexus
