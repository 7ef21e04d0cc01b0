import Nexus.Protocol.Codec
import Nexus.Storage.RecordCodec

/-!
# The records of a batch

`common/record_codec.cpp`, with the zigzag numbers of `common/varint.hpp` and the compression of
`common/compression.cpp`: how a client writes records into a batch (`RecordBatchBuilder::build`) and
reads them back (`decode_records`). What LZ4 and Zstd do is not modelled, only that they undo what
they did (`Compressor`).

* `reads_record`: a record is read back from what was written, whatever follows.
* `decodeRecords_built`: so are all records of a batch, with their offsets, if none has more headers
  than a reader admits and the batch is not too long without its compression; else none is.
-/

namespace Nexus.Wire

open Lib Decoder RecordBatch List

/-! ## Zigzag -/

def zigzagEncode (value : Int64) : UInt64 := (value.toUInt64 <<< 1) ^^^ (value >>> 63).toUInt64

def zigzagDecode (value : UInt64) : Int64 := (value >>> 1).toInt64 ^^^ -(value &&& 1).toInt64

/-- The sign, in all bits. -/
theorem sshiftRight_sign (x : BitVec 64) :
    x.sshiftRight 63 = if x.msb then BitVec.allOnes 64 else 0#64 := by
  ext i hi
  rw [BitVec.getElem_sshiftRight]
  split
  · obtain rfl : i = 0 := by omega
    have hmsb : x[63] = x.msb := by
      rw [BitVec.msb_eq_getLsbD_last]
      rfl
    refine hmsb.trans ?_
    cases x.msb <;> simp
  · cases x.msb <;> simp [-BitVec.reduceAllOnes]

/-- The sign of an encoded number is its lowest bit, and the others are turned around if it is
set. -/
theorem zigzag_bits (x : BitVec 64) :
    ((x <<< 1 ^^^ x.sshiftRight 63) >>> 1) ^^^ -((x <<< 1 ^^^ x.sshiftRight 63) &&& 1#64) = x := by
  have hlow : (x <<< 1 ^^^ x.sshiftRight 63) &&& 1#64 = if x.msb then 1#64 else 0#64 := by
    rw [sshiftRight_sign]
    ext i hi
    cases hx : x.msb <;> cases i <;> simp
  have hneg : -1#64 = BitVec.allOnes 64 := by decide
  have hmsb : x[63] = x.msb := by
    rw [BitVec.msb_eq_getLsbD_last]
    rfl
  rw [hlow, sshiftRight_sign]
  ext i hi
  -- the bit that the shifts lose is the sign
  by_cases hlast : i = 63
  · subst hlast
    cases hx : x.msb <;> rw [hx] at hmsb <;> simp [hmsb, hneg]
  · have hlt : 1 + i < 64 := by omega
    cases hx : x.msb <;> simp [hneg, hlt, -BitVec.reduceAllOnes]

theorem zigzagDecode_zigzagEncode (value : Int64) : zigzagDecode (zigzagEncode value) = value := by
  apply Int64.toBitVec_inj.mp
  simpa [zigzagDecode, zigzagEncode] using zigzag_bits value.toBitVec

/-! ## Records -/

/-- A container, whose size fits in an `int64`. -/
abbrev Counted (α : Type) := { xs : List α // xs.length < 2 ^ 63 }

structure RecordHeader where
  key : Counted UInt8
  value : Option (Counted UInt8)
  deriving DecidableEq

def noHeaders : Counted RecordHeader := ⟨[], by decide⟩

structure Record where
  key : Option (Counted UInt8) := none
  value : Option (Counted UInt8) := none
  headers : Counted RecordHeader := noHeaders
  timestampDelta : Int64 := 0
  offset : Int := 0
  deriving DecidableEq

variable {n : Nat} {rec : Record}

def kMaxHeadersPerRecord : Int64 := 10000

def putZig (value : Int64) : Bytes := putVarint (zigzagEncode value)

/-- A field with its size before it. -/
def putCounted (field : Counted UInt8) : Bytes := putZig (Int64.ofNat field.1.length) ++ field.1

def putNullable : Option (Counted UInt8) → Bytes
  | none => putZig (-1)
  | some field => putCounted field

def encodeHeader (header : RecordHeader) : Bytes :=
  putCounted header.key ++ putNullable header.value

def encodeBody (rec : Record) (offsetDelta : Int64) : Bytes :=
  [0] ++ (putZig rec.timestampDelta ++ (putZig offsetDelta ++ (putNullable rec.key ++
    (putNullable rec.value ++ (putZig (Int64.ofNat rec.headers.1.length) ++
      rec.headers.1.flatMap encodeHeader)))))

def encodeRecord (rec : Record) (offsetDelta : Int64) : Bytes :=
  let body := encodeBody rec offsetDelta
  putZig (Int64.ofNat body.length) ++ body

namespace Decoder

def getZig : Decoder Int64 := do
  let raw ← getVarint
  return zigzagDecode raw

/-- `take`, with the error of the record codec. -/
def takeRecord (n : Nat) : Decoder { span : Bytes // span.length = n } :=
  takeExactly ⟨.corrupt, "record truncado"⟩ n

theorem toNat_toInt_lt (value : Int64) : value.toInt.toNat < 2 ^ 63 := by
  have := value.toInt_lt
  omega

def getNullable : Decoder (Option (Counted UInt8)) := do
  let length ← getZig
  if length < 0 then return none
  let bytes ← takeRecord length.toInt.toNat
  return some ⟨bytes.1, bytes.2.trans_lt (toNat_toInt_lt length)⟩

/-- The size of the key of a header; here a bad varint is an error of the header. -/
def getKeyLength : Decoder Int64 := fun input =>
  match getZig.run input with
  | .error _ => .error ⟨.corrupt, "longitud de clave de header inválida"⟩
  | .ok (length, rest) =>
    if length < 0 then .error ⟨.corrupt, "longitud de clave de header inválida"⟩
    else .ok (length, rest)

def decodeHeader : Decoder RecordHeader := do
  let length ← getKeyLength
  let key ← takeRecord length.toInt.toNat
  let value ← getNullable
  return { key := ⟨key.1, key.2.trans_lt (toNat_toInt_lt length)⟩, value }

def decodeBody (baseOffset : Int) : Decoder Record := do
  let _ ← takeRecord 1
  let timestampDelta ← getZig
  let offsetDelta ← getZig
  let key ← getNullable
  let value ← getNullable
  let count ← getZig
  if count < 0 ∨ kMaxHeadersPerRecord < count then throw ⟨.corrupt, "nº de headers inválido"⟩
  let headers ← readMany decodeHeader count.toInt.toNat
  return { key, value, headers := ⟨headers.1, headers.2.trans_lt (toNat_toInt_lt count)⟩,
           timestampDelta, offset := baseOffset + offsetDelta.toInt }

def decodeRecord (baseOffset : Int) : Decoder Record := do
  let length ← getZig
  if length < 0 then throw ⟨.corrupt, "longitud de record negativa"⟩
  let body ← takeRecord length.toInt.toNat
  let rec ← StateT.lift ((decodeBody baseOffset).run body.1)
  return rec.1

end Decoder

/-! ### Round trips -/

theorem reads_zig (value : Int64) : Reads getZig (putZig value) value := by
  have h := (reads_varint (zigzagEncode value)).last zigzagDecode
  rw [zigzagDecode_zigzagEncode] at h
  exact h

/-- A size goes through its number. -/
theorem toInt_size (h : n < 2 ^ 63) : (Int64.ofNat n).toInt = n :=
  Int64.toInt_ofNat_of_lt h

theorem size_nonneg (h : n < 2 ^ 63) : ¬ Int64.ofNat n < 0 := by
  rw [Int64.lt_iff_toInt_lt, toInt_size h]
  exact Int.not_lt.mpr (Int.natCast_nonneg n)

theorem toNat_toInt_size (h : n < 2 ^ 63) : (Int64.ofNat n).toInt.toNat = n := by
  rw [toInt_size h, Int.toNat_natCast]

theorem reads_counted (field : Counted UInt8) (e : Error) :
    Reads (takeExactly e (Int64.ofNat field.1.length).toInt.toNat) field.1
      ⟨field.1, (toNat_toInt_size field.2).symm⟩ :=
  Reads.takeExactly e (toNat_toInt_size field.2).symm

theorem reads_nullable (field : Option (Counted UInt8)) :
    Reads getNullable (putNullable field) field := by
  unfold getNullable
  cases field with
  | none =>
    refine (reads_zig (-1)).bind_nil ?_
    rw [if_pos (by decide)]
    exact Reads.pure none
  | some field =>
    refine (reads_zig _).bind ?_
    rw [if_neg (size_nonneg field.2)]
    exact (reads_counted field _).last _

theorem reads_keyLength (h : n < 2 ^ 63) :
    Reads getKeyLength (putZig (Int64.ofNat n)) (Int64.ofNat n) := by
  intro rest
  simp only [getKeyLength, StateT.run]
  have hzig := reads_zig (Int64.ofNat n) rest
  simp only [StateT.run] at hzig
  rw [hzig]
  exact if_neg (size_nonneg h)

theorem reads_header (header : RecordHeader) : Reads decodeHeader (encodeHeader header) header := by
  unfold encodeHeader putCounted
  rw [append_assoc]
  exact (reads_keyLength header.key.2).bind
    ((reads_counted header.key _).bind ((reads_nullable header.value).last _))

/-- A reader admits only so many headers. -/
def Record.Readable (rec : Record) : Prop := rec.headers.1.length ≤ 10000

instance : DecidablePred Record.Readable := fun rec =>
  inferInstanceAs (Decidable (rec.headers.1.length ≤ 10000))

theorem readable_iff (rec : Record) : rec.Readable ↔
    ¬ (Int64.ofNat rec.headers.1.length < 0 ∨
      kMaxHeadersPerRecord < Int64.ofNat rec.headers.1.length) := by
  have hmax : kMaxHeadersPerRecord.toInt = 10000 := by decide
  rw [or_iff_right (size_nonneg rec.headers.2), Int64.lt_iff_toInt_lt, toInt_size rec.headers.2,
    hmax, Record.Readable]
  omega

theorem reads_body (h : rec.Readable) (baseOffset : Int) (offsetDelta : Int64) :
    Reads (decodeBody baseOffset) (encodeBody rec offsetDelta)
      { rec with offset := baseOffset + offsetDelta.toInt } := by
  have hheaders := Reads.many (d := decodeHeader) (fun header _ => reads_header header)
    (toNat_toInt_size rec.headers.2).symm
  unfold decodeBody encodeBody
  refine (Reads.takeExactly _ (length_singleton (a := 0))).bind ?_
  refine (reads_zig _).bind ((reads_zig _).bind ?_)
  refine (reads_nullable rec.key).bind ((reads_nullable rec.value).bind ?_)
  refine (reads_zig _).bind ?_
  rw [if_neg ((readable_iff rec).mp h)]
  exact hheaders.last _

theorem refuses_body (h : ¬ rec.Readable) (baseOffset : Int) (offsetDelta : Int64) :
    Refuses (decodeBody baseOffset) (encodeBody rec offsetDelta)
      ⟨.corrupt, "nº de headers inválido"⟩ := by
  unfold decodeBody encodeBody
  refine (Reads.takeExactly _ (length_singleton (a := 0))).refuses ?_
  refine (reads_zig _).refuses ((reads_zig _).refuses ?_)
  refine (reads_nullable rec.key).refuses ((reads_nullable rec.value).refuses ?_)
  refine (reads_zig _).refuses ?_
  rw [if_pos (not_not.mp fun hno => h ((readable_iff rec).mpr hno))]
  exact fun _ => rfl

variable {offsetDelta : Int64}

theorem reads_record (h : rec.Readable) (baseOffset : Int)
    (hsize : (encodeBody rec offsetDelta).length < 2 ^ 63) :
    Reads (decodeRecord baseOffset) (encodeRecord rec offsetDelta)
      { rec with offset := baseOffset + offsetDelta.toInt } := by
  have hbody := reads_body h baseOffset offsetDelta []
  rw [append_nil] at hbody
  unfold decodeRecord encodeRecord
  refine (reads_zig _).bind ?_
  rw [if_neg (size_nonneg hsize)]
  refine (Reads.takeExactly _ (toNat_toInt_size hsize).symm).bind_nil ?_
  rw [hbody]
  exact Reads.pure _

theorem refuses_record (h : ¬ rec.Readable) (baseOffset : Int)
    (hsize : (encodeBody rec offsetDelta).length < 2 ^ 63) :
    Refuses (decodeRecord baseOffset) (encodeRecord rec offsetDelta)
      ⟨.corrupt, "nº de headers inválido"⟩ := by
  have hbody := refuses_body h baseOffset offsetDelta []
  rw [append_nil] at hbody
  unfold decodeRecord encodeRecord
  refine (reads_zig _).refuses ?_
  rw [if_neg (size_nonneg hsize)]
  refine (Reads.takeExactly _ (toNat_toInt_size hsize).symm).refuses_nil ?_
  rw [hbody]
  exact fun _ => rfl

/-! ## Compression -/

inductive Codec
  | none | lz4 | zstd
  /-- The value that no codec has. -/
  | unknown
  deriving DecidableEq

namespace Codec

def bits : Codec → UInt16
  | none => 0
  | lz4 => 1
  | zstd => 2
  | unknown => 3

def name : Codec → String
  | none => "None"
  | lz4 => "LZ4"
  | zstd => "Zstd"
  | unknown => ""

end Codec

def kCodecMask : UInt16 := 3

def codecFromAttrs (attrs : UInt16) : Codec :=
  let bits := attrs &&& kCodecMask
  if bits = 0 then .none else if bits = 1 then .lz4 else if bits = 2 then .zstd else .unknown

def attrsWithCodec (attrs : UInt16) (codec : Codec) : UInt16 :=
  (attrs &&& ~~~kCodecMask) ||| (codec.bits &&& kCodecMask)

theorem codecFromAttrs_attrsWithCodec (attrs : UInt16) (codec : Codec) :
    codecFromAttrs (attrsWithCodec attrs codec) = codec := by
  have hbits : attrsWithCodec attrs codec &&& kCodecMask = codec.bits &&& kCodecMask := by
    have hmask : kCodecMask.toBitVec = 3#16 := rfl
    apply UInt16.toBitVec_inj.mp
    simp only [attrsWithCodec, UInt16.toBitVec_and, UInt16.toBitVec_or, UInt16.toBitVec_not, hmask]
    ext i hi
    simp only [BitVec.getElem_and, BitVec.getElem_or, BitVec.getElem_not]
    cases (3#16)[i] <;> simp
  unfold codecFromAttrs
  rw [hbits]
  cases codec <;> rfl

/-- The libraries, as far as the broker uses them: what was packed is unpacked into a buffer of its
size. -/
structure Compressor where
  available : Codec → Bool
  pack : Codec → Bytes → Option Bytes
  unpack : Codec → Bytes → Nat → Option Bytes
  unpack_pack : ∀ {c input packed}, pack c input = some packed →
    unpack c packed input.length = some input

namespace Compressor

variable (lib : Compressor)

def kSizePrefix : Nat := 4

def codecAvailable : Codec → Bool
  | .none => true
  | .lz4 => lib.available .lz4
  | .zstd => lib.available .zstd
  | .unknown => false

def compress (codec : Codec) (input : Bytes) : Expected Bytes :=
  if codec = .none then .ok input
  else if input.length > 2 ^ 32 - 1 then
    makeError .invalidArgument "entrada demasiado grande para comprimir"
  else if codec = .unknown then makeError .unsupported "códec de compresión desconocido"
  else if !lib.available codec then makeError .unsupported (codec.name ++ " no compilado")
  else match lib.pack codec input with
    | none => makeError .ioError ("fallo de compresión " ++ codec.name)
    | some packed => .ok (storeLe kSizePrefix input.length ++ packed)

def decompress (codec : Codec) (input : Bytes) (maxOutput : Nat) : Expected Bytes :=
  if codec = .none then .ok input
  else if input.length < kSizePrefix then makeError .corrupt "bloque comprimido truncado"
  else
    let originalSize := loadU 4 input 0
    if originalSize > maxOutput then
      makeError .corrupt "tamaño descomprimido excede el límite"
    else if codec = .unknown then makeError .unsupported "códec de compresión desconocido"
    else if !lib.available codec then makeError .unsupported (codec.name ++ " no compilado")
    else match lib.unpack codec (input.drop kSizePrefix) originalSize with
      | none => makeError .corrupt ("bloque " ++ codec.name ++ " inválido")
      | some output => .ok output

variable {lib}

/-- What was compressed comes back if it is not too long for the reader. -/
theorem decompress_compress {codec : Codec} {input packed : Bytes} (hne : codec ≠ .none)
    (h : lib.compress codec input = .ok packed) (maxOutput : Nat) :
    input.length < 2 ^ 32 ∧ lib.decompress codec packed maxOutput =
      if input.length ≤ maxOutput then .ok input
      else makeError .corrupt "tamaño descomprimido excede el límite" := by
  unfold compress at h
  rw [if_neg hne] at h
  split at h
  · cases h
  split at h
  · cases h
  split at h
  · cases h
  split at h
  · cases h
  rename_i hlen hknown havailable _ packed' hpack
  obtain rfl := Except.ok.inj h
  have hlt : input.length < 2 ^ 32 := by omega
  have hsize : loadU 4 (storeLe kSizePrefix input.length ++ packed') 0 = input.length := by
    refine loadU_storeLe (rfl : ([] : Bytes).length = 0) ?_
    norm_num at hlt ⊢
    exact hlt
  refine ⟨hlt, ?_⟩
  unfold decompress
  rw [if_neg hne, if_neg (by simp [kSizePrefix])]
  dsimp only
  rw [hsize, drop_left' (length_storeLe _ _), lib.unpack_pack hpack, if_neg hknown,
    if_neg havailable]
  by_cases hmax : input.length ≤ maxOutput
  · rw [if_neg (Nat.not_lt.mpr hmax), if_pos hmax]
  · rw [if_pos (Nat.lt_of_not_le hmax), if_neg hmax]

end Compressor

/-! ## Batches -/

theorem lt_encodedSize {data : Bytes} {view : RecordBatchView}
    (h : peek data = .ok view) : 0 < view.encodedSize := by
  unfold peek at h
  generalize loadS = load at h
  dsimp only at h
  repeat' split at h
  all_goals cases h
  dsimp only
  omega

def kMaxRecordBytes : Nat := 64 * 1024 * 1024

/-- The records one after another, the first of them with the delta `delta`. -/
def encodeRecords (delta : Nat) : List Record → Bytes
  | [] => []
  | rec :: recs => encodeRecord rec (Int64.ofNat delta) ++ encodeRecords (delta + 1) recs

/-- `RecordBatchBuilder::build`. -/
def build (lib : Compressor) (records : List Record) (header : RecordBatchHeader) (codec : Codec) :
    RecordBatch :=
  let span := encodeRecords 0 records
  let header := { header with recordCount := Int.bmod records.length (2 ^ 32) }
  let plain : RecordBatch :=
    { header := { header with attrs := attrsWithCodec header.attrs .none }, records := span }
  if codec ≠ .none ∧ lib.codecAvailable codec then
    match lib.compress codec span with
    | .ok compressed =>
      { header := { header with attrs := attrsWithCodec header.attrs codec }
        records := compressed }
    | .error _ => plain
  else plain

/-- The loop of `decode_records`: bytes after the last record are not looked at. -/
def readRecords (baseOffset : Int) (count : Nat) (blob : Bytes) : Expected (List Record) :=
  ((readMany (decodeRecord baseOffset) count).run blob).map fun out => out.1.1

def decodeRecords (lib : Compressor) (batch : RecordBatch) (maxDecompressed : Nat) :
    Expected (List Record) :=
  let count := batch.header.recordCount
  if count < 0 then makeError .corrupt "record_count negativo"
  else
    let codec := codecFromAttrs batch.header.attrs
    let blob :=
      if codec ≠ .none then lib.decompress codec batch.records maxDecompressed
      else .ok batch.records
    match blob with
    | .error e => .error e
    | .ok blob => readRecords batch.header.baseOffset count.toNat blob

/-- The records with their offsets, the first of them at `base`. -/
def numbered (base : Int) : List Record → List Record
  | [] => []
  | rec :: recs => { rec with offset := base } :: numbered (base + 1) recs

theorem putZig_ne_nil (value : Int64) : putZig value ≠ [] := putVarint_ne_nil _

theorem length_le_encodeRecords (delta : Nat) (records : List Record) :
    2 * records.length ≤ (encodeRecords delta records).length := by
  induction records generalizing delta with
  | nil => exact Nat.le_refl 0
  | cons rec recs ih =>
    have hlen := length_pos_iff.mpr
      (putZig_ne_nil (Int64.ofNat (encodeBody rec (Int64.ofNat delta)).length))
    have hrest := ih (delta + 1)
    have hbody : 0 < (encodeBody rec (Int64.ofNat delta)).length := by simp [encodeBody]
    simp only [encodeRecords, encodeRecord, length_cons, length_append]
    omega

@[simp] theorem length_numbered (base : Int) (records : List Record) :
    (numbered base records).length = records.length := by
  induction records generalizing base with
  | nil => rfl
  | cons rec recs ih => rw [numbered, length_cons, ih, length_cons]

section Records

variable {rec : Record} {records : List Record} {delta : Nat}

theorem length_encodeBody_lt (hsize : (encodeRecords delta (rec :: records)).length < 2 ^ 32) :
    (encodeBody rec (Int64.ofNat delta)).length < 2 ^ 63 := by
  simp only [encodeRecords, encodeRecord, length_append] at hsize
  omega

theorem reads_records (h : ∀ rec ∈ records, rec.Readable) (base : Int)
    (hsize : (encodeRecords delta records).length < 2 ^ 32)
    (hdelta : delta + records.length < 2 ^ 32) :
    Reads (readMany (decodeRecord base) records.length) (encodeRecords delta records)
      ⟨numbered (base + delta) records, length_numbered _ _⟩ := by
  induction records generalizing delta with
  | nil => exact fun _ => rfl
  | cons rec recs ih =>
    have hrec := reads_record (h rec mem_cons_self) base (length_encodeBody_lt hsize)
    rw [toInt_size (by omega)] at hrec
    rw [length_cons] at hdelta
    rw [encodeRecords, length_append] at hsize
    have hrest : Reads _ (encodeRecords (delta + 1) recs) _ :=
      ih (fun r hr => h r (mem_cons_of_mem _ hr)) (by omega) (by omega)
    have hnext : base + ((delta + 1 : Nat) : Int) = base + delta + 1 := by omega
    rw [hnext] at hrest
    exact hrec.bind (hrest.last _)

theorem refuses_records (h : ¬ ∀ rec ∈ records, rec.Readable) (base : Int)
    (hsize : (encodeRecords delta records).length < 2 ^ 32) :
    Refuses (readMany (decodeRecord base) records.length) (encodeRecords delta records)
      ⟨.corrupt, "nº de headers inválido"⟩ := by
  induction records generalizing delta with
  | nil => exact absurd (fun _ hmem => nomatch hmem) h
  | cons rec recs ih =>
    have hbody := length_encodeBody_lt hsize
    rw [encodeRecords, length_append] at hsize
    by_cases hrec : rec.Readable
    · have hrecs : ¬ ∀ r ∈ recs, r.Readable := fun hall => h (forall_mem_cons.mpr ⟨hrec, hall⟩)
      have hrest : Refuses _ (encodeRecords (delta + 1) recs) _ := ih hrecs (by omega)
      exact (reads_record hrec base hbody).refuses
        (by rw [← append_nil (encodeRecords _ recs)]; exact hrest.bind _ [])
    · exact (refuses_record hrec base hbody).bind _ _

end Records

/-! ### What was built -/

/-- A batch of the log that a client has built from records. -/
structure BuiltBatch (lib : Compressor) where
  batch : RecordBatch
  records : List Record
  built : ∃ header codec, batch = (build lib records header codec).rebase batch.header.baseOffset

namespace BuiltBatch

variable {lib : Compressor} {b : BuiltBatch lib}

/-- None of the records has too many headers, and they are not too many bytes for a reader that has
to decompress them. -/
def Readable (b : BuiltBatch lib) : Prop :=
  (∀ rec ∈ b.records, rec.Readable) ∧ (codecFromAttrs b.batch.header.attrs ≠ .none →
    (encodeRecords 0 b.records).length ≤ kMaxRecordBytes)

instance (b : BuiltBatch lib) : Decidable b.Readable :=
  inferInstanceAs (Decidable ((∀ rec ∈ b.records, rec.Readable) ∧ (_ → _)))

/-- The bytes of the batch, with or without compression. -/
theorem cases_built (b : BuiltBatch lib) :
    b.batch.header.recordCount = Int.bmod b.records.length (2 ^ 32) ∧
    (codecFromAttrs b.batch.header.attrs = .none ∧
        b.batch.records = encodeRecords 0 b.records ∨
      codecFromAttrs b.batch.header.attrs ≠ .none ∧
        lib.compress (codecFromAttrs b.batch.header.attrs) (encodeRecords 0 b.records) =
          .ok b.batch.records) := by
  obtain ⟨header, codec, hbatch⟩ := b.built
  rw [hbatch]
  unfold build
  dsimp only
  split
  · rename_i hcodec
    split
    · rename_i compressed hok
      refine ⟨by simp only [rebase], .inr ?_⟩
      simp only [rebase, codecFromAttrs_attrsWithCodec]
      exact ⟨hcodec.1, hok⟩
    · refine ⟨by simp only [rebase], .inl ?_⟩
      simp only [rebase, codecFromAttrs_attrsWithCodec, and_self]
  · refine ⟨by simp only [rebase], .inl ?_⟩
    simp only [rebase, codecFromAttrs_attrsWithCodec, and_self]

theorem length_lt (hfits : b.batch.Fits) : (encodeRecords 0 b.records).length < 2 ^ 32 := by
  have hfield := hfits.length
  rw [lengthField_eq] at hfield
  rcases b.cases_built.2 with ⟨-, hplain⟩ | ⟨hne, hpacked⟩
  · rw [← hplain]
    norm_num at hfield ⊢
    omega
  · exact (Compressor.decompress_compress hne hpacked 0).1

/-- As many records as the header says. -/
theorem recordCount_eq (hfits : b.batch.Fits) : b.batch.header.recordCount = b.records.length := by
  have hlen := length_le_encodeRecords 0 b.records
  have hlt := length_lt hfits
  rw [b.cases_built.1]
  norm_num at hlt
  exact Int.bmod_eq_of_le_mul_two (by norm_num; omega) (by norm_num; omega)

/-- The bytes that a reader goes through: those of the records, unless they are too many. -/
theorem blob_built (b : BuiltBatch lib) (maxDecompressed : Nat) :
    (if codecFromAttrs b.batch.header.attrs ≠ .none then
      lib.decompress (codecFromAttrs b.batch.header.attrs) b.batch.records maxDecompressed
      else .ok b.batch.records) =
    if codecFromAttrs b.batch.header.attrs ≠ .none →
      (encodeRecords 0 b.records).length ≤ maxDecompressed then .ok (encodeRecords 0 b.records)
    else makeError .corrupt "tamaño descomprimido excede el límite" := by
  rcases b.cases_built.2 with ⟨hnone, hplain⟩ | ⟨hne, hpacked⟩
  · rw [if_neg (not_not.mpr hnone), if_pos (fun hne => absurd hnone hne), hplain]
  · rw [if_pos hne, (Compressor.decompress_compress hne hpacked maxDecompressed).2]
    by_cases hmax : (encodeRecords 0 b.records).length ≤ maxDecompressed
    · rw [if_pos hmax, if_pos (fun _ => hmax)]
    · rw [if_neg hmax, if_neg (fun hall => hmax (hall hne))]

theorem decodeRecords_readable {maxDecompressed : Nat} (hfits : b.batch.Fits)
    (hrec : ∀ rec ∈ b.records, rec.Readable) (hmax : codecFromAttrs b.batch.header.attrs ≠ .none →
      (encodeRecords 0 b.records).length ≤ maxDecompressed) :
    decodeRecords lib b.batch maxDecompressed =
      .ok (numbered b.batch.header.baseOffset b.records) := by
  have hlt := length_lt hfits
  have hlen := length_le_encodeRecords 0 b.records
  have hread := reads_records hrec b.batch.header.baseOffset hlt (by omega) []
  rw [append_nil, Int.natCast_zero, Int.add_zero] at hread
  unfold decodeRecords
  dsimp only
  rw [blob_built, recordCount_eq hfits, if_neg (Int.not_lt.mpr (Int.natCast_nonneg _)),
    Int.toNat_natCast, if_pos hmax]
  dsimp only
  rw [readRecords, hread]
  rfl

/-- A reader gets all records, or none. -/
theorem decodeRecords_built (hfits : b.batch.Fits) :
    (b.Readable → decodeRecords lib b.batch kMaxRecordBytes =
      .ok (numbered b.batch.header.baseOffset b.records)) ∧
    (¬ b.Readable → ∃ e, decodeRecords lib b.batch kMaxRecordBytes = .error e) := by
  refine ⟨fun h => decodeRecords_readable hfits h.1 h.2, fun h => ?_⟩
  unfold decodeRecords
  dsimp only
  rw [blob_built, recordCount_eq hfits, if_neg (Int.not_lt.mpr (Int.natCast_nonneg _)),
    Int.toNat_natCast]
  by_cases hmax : codecFromAttrs b.batch.header.attrs ≠ .none →
    (encodeRecords 0 b.records).length ≤ kMaxRecordBytes
  · have hread := refuses_records (fun hall => h ⟨hall, hmax⟩) b.batch.header.baseOffset
      (length_lt hfits) []
    rw [append_nil] at hread
    rw [if_pos hmax]
    dsimp only
    rw [readRecords, hread]
    exact ⟨_, rfl⟩
  · rw [if_neg hmax]
    exact ⟨_, rfl⟩

end BuiltBatch

theorem baseOffset_build (lib : Compressor) (records : List Record) (header : RecordBatchHeader)
    (codec : Codec) : (build lib records header codec).header.baseOffset = header.baseOffset := by
  unfold build
  dsimp only
  split
  · split <;> rfl
  · rfl

/-- What was built, encoded and decoded again has the same records, numbered from the base offset
of the header; what follows the batch does not matter. -/
theorem decodeRecords_decode_encode_build {lib : Compressor} {records : List Record}
    {header : RecordBatchHeader} {codec : Codec} {maxDecompressed : Nat}
    (hfits : (build lib records header codec).Fits)
    (hheaders : ∀ rec ∈ records, rec.headers.1.length ≤ 10000)
    (hmax : (encodeRecords 0 records).length ≤ maxDecompressed) (rest : Bytes) :
    (RecordBatch.decode ((build lib records header codec).encode ++ rest)).bind
        (decodeRecords lib · maxDecompressed) =
      .ok (numbered header.baseOffset records) := by
  let b : BuiltBatch lib := ⟨build lib records header codec, records, header, codec, rfl⟩
  have hb : decodeRecords lib b.batch maxDecompressed = _ :=
    BuiltBatch.decodeRecords_readable hfits hheaders fun _ => hmax
  rw [RecordBatch.decode_encode rest hfits, Except.bind]
  exact hb.trans (by rw [baseOffset_build])

/-- A broker without compression. -/
def noCompression : Compressor where
  available _ := false
  pack _ _ := none
  unpack _ _ _ := none
  unpack_pack h := nomatch h

def oneByte (b : UInt8) : Counted UInt8 := ⟨[b], (by decide : 1 < 2 ^ 63)⟩

def pair : List Record := [{ value := oneByte 1 }, { value := oneByte 2 }]

def pairBatch : RecordBatch := build noCompression pair {} .none

theorem decodeRecords_decode_encode_pair :
    (RecordBatch.decode (pairBatch.encode ++ [])).bind (decodeRecords noCompression · 100) =
      .ok (numbered 0 pair) :=
  decodeRecords_decode_encode_build (by decide +kernel) (by decide +kernel) (by decide +kernel) []

end Nexus.Wire
