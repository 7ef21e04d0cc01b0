import Nexus.Storage.RecordCodec

/-!
# Encrypted segments

`storage/segment_crypto.cpp`. An encrypted `.log` starts with a header of 32 bytes that holds the
salt of its key; each block is a header of 46 bytes and the ciphertext of an encoded batch. The
offsets stay in the clear, so that a log can be walked without decrypting it, and are authenticated
with the rest of the header.

AES-256-GCM is known here only by its contract, the fields of `SegmentCipher`. Salts and nonces come
from a random generator and are arguments.
-/

namespace Nexus

open Lib List

/-- AES-256-GCM under the key of one segment. -/
structure SegmentCipher where
  /-- Nonce, authenticated data and plaintext to ciphertext and tag. -/
  encrypt : Bytes → Bytes → Bytes → Bytes × Bytes
  /-- Nonce, authenticated data, ciphertext and tag to plaintext, unless the tag is wrong. -/
  decrypt : Bytes → Bytes → Bytes → Bytes → Option Bytes
  length_ciphertext : ∀ nonce aad plaintext,
    (encrypt nonce aad plaintext).1.length = plaintext.length
  length_tag : ∀ nonce aad plaintext, (encrypt nonce aad plaintext).2.length = 16
  decrypt_encrypt : ∀ nonce aad plaintext,
    decrypt nonce aad (encrypt nonce aad plaintext).1 (encrypt nonce aad plaintext).2 =
      some plaintext

/-- The salt of a segment. -/
structure Salt where
  bytes : Bytes
  length : bytes.length = 16

structure Nonce where
  bytes : Bytes
  length : bytes.length = 12

def zeroSalt : Salt := ⟨List.replicate 16 0, rfl⟩
def zeroNonce : Nonce := ⟨List.replicate 12 0, rfl⟩

/-- The master key: each salt gives the key of a segment. -/
abbrev EncryptionKey := Bytes → SegmentCipher

def kEncSegmentHeaderSize : Nat := 32
def kEncBlockHeaderSize : Nat := 46

/-- What the header of an encrypted block tells. -/
structure EncryptedBlockView where
  baseOffset : Int
  recordCount : Int
  ciphertextLen : Nat
  deriving DecidableEq

def EncryptedBlockView.onDiskSize (v : EncryptedBlockView) : Nat :=
  kEncBlockHeaderSize + v.ciphertextLen

namespace SegmentCipher

/-- The header of a block without its tag: format version 1, reserved flags, offsets, size and
nonce. It is the authenticated data. -/
def blockAad (baseOffset recordCount : Int) (ctLen : Nat) (nonce : Nonce) : Bytes :=
  [1, 0] ++ (storeLe 8 baseOffset ++ (storeLe 4 recordCount ++ (storeLe 4 ctLen ++ nonce.bytes)))

def sealBlock (c : SegmentCipher) (plaintext : Bytes) (baseOffset recordCount : Int)
    (nonce : Nonce) : Expected Bytes :=
  if plaintext.length > 2 ^ 32 - 1 then
    makeError .invalidArgument "batch demasiado grande para cifrar"
  else
    let aad := blockAad baseOffset recordCount plaintext.length nonce
    let sealed := c.encrypt nonce.bytes aad plaintext
    .ok (aad ++ (sealed.2 ++ sealed.1))

def peekBlock (frame : Bytes) : Expected EncryptedBlockView :=
  if frame.length < kEncBlockHeaderSize then
    makeError .corrupt "bloque cifrado: cabecera incompleta"
  else if loadU 1 frame 0 ≠ 1 then
    makeError .corrupt "bloque cifrado: versión de formato desconocida"
  else .ok { baseOffset := loadS 8 frame 2, recordCount := loadS 4 frame 10,
             ciphertextLen := loadU 4 frame 14 }

def openBlock (c : SegmentCipher) (frame : Bytes) : Expected Bytes :=
  match peekBlock frame with
  | .error e => .error e
  | .ok view =>
    if frame.length < view.onDiskSize then
      makeError .corrupt "bloque cifrado: ciphertext truncado"
    else
      match c.decrypt (slice frame 18 12) (slice frame 0 30)
        (slice frame kEncBlockHeaderSize view.ciphertextLen) (slice frame 30 16) with
      | none => makeError .corrupt 
        "autenticación GCM falló (datos manipulados o clave/nonce incorrectos)"
      | some plaintext => .ok plaintext

end SegmentCipher

/-- "NXSEG1" and two zeros. -/
def kEncSegmentMagic : Bytes := [0x4E, 0x58, 0x53, 0x45, 0x47, 0x31, 0, 0]

/-- Magic, version, key derivation, cipher, flags, salt, and four bytes that stay zero. -/
def encodeSegmentHeader (salt : Salt) : Bytes :=
  kEncSegmentMagic ++ ([1, 1, 1, 0] ++ (salt.bytes ++ [0, 0, 0, 0]))

def isEncryptedSegmentHeader (header : Bytes) : Bool :=
  if header.length < kEncSegmentMagic.length then false
  else slice header 0 kEncSegmentMagic.length == kEncSegmentMagic

def parseSegmentHeader (header : Bytes) : Expected Bytes :=
  if header.length < kEncSegmentHeaderSize then
    makeError .corrupt "cabecera de segmento cifrado incompleta"
  else if !isEncryptedSegmentHeader header then
    makeError .corrupt "cabecera de segmento: magic no reconocido"
  else if loadU 1 header 8 ≠ 1 then
    makeError .unsupported "cabecera de segmento: versión desconocida"
  else .ok (slice header 12 16)

/-! ## Round trips -/

namespace SegmentCipher

theorem length_blockAad (baseOffset recordCount : Int) (ctLen : Nat) (nonce : Nonce) :
    (blockAad baseOffset recordCount ctLen nonce).length = 30 := by
  simp [blockAad, nonce.length]

variable {c : SegmentCipher} {plaintext frame : Bytes} {baseOffset recordCount : Int}
  {nonce : Nonce}

section

variable (h : c.sealBlock plaintext baseOffset recordCount nonce = .ok frame)

include h

/-- The parts of a sealed block. -/
theorem sealBlock_eq :
    plaintext.length < 2 ^ 32 ∧ ∃ tag ciphertext, tag.length = 16 ∧
      ciphertext.length = plaintext.length ∧
      c.decrypt nonce.bytes (blockAad baseOffset recordCount plaintext.length nonce) ciphertext
        tag = some plaintext ∧
      frame = blockAad baseOffset recordCount plaintext.length nonce ++ (tag ++ ciphertext) := by
  unfold sealBlock at h
  by_cases hlen : plaintext.length > 2 ^ 32 - 1
  · rw [if_pos hlen] at h
    cases h
  · rw [if_neg hlen] at h
    cases h
    exact ⟨by omega, _, _, c.length_tag _ _ _, c.length_ciphertext _ _ _,
      c.decrypt_encrypt _ _ _, rfl⟩

theorem length_sealBlock :
    frame.length = kEncBlockHeaderSize + plaintext.length := by
  obtain ⟨-, tag, ciphertext, htag, hct, -, rfl⟩ := sealBlock_eq h
  simp only [length_append, length_blockAad, htag, hct, kEncBlockHeaderSize]
  omega

end

theorem sealBlock_isOk (c : SegmentCipher) (baseOffset recordCount : Int) (nonce : Nonce)
    (h : plaintext.length < 2 ^ 32) :
    ∃ frame, c.sealBlock plaintext baseOffset recordCount nonce = .ok frame := by
  unfold sealBlock
  rw [if_neg (by omega)]
  exact ⟨_, rfl⟩

section

variable (h : c.sealBlock plaintext baseOffset recordCount nonce = .ok frame)

include h

section

variable (hbase : -2 ^ 63 ≤ baseOffset ∧ baseOffset < 2 ^ 63)

include hbase

section

variable (hcount : -2 ^ 31 ≤ recordCount ∧ recordCount < 2 ^ 31)

include hcount

/-- The header of a sealed block, whatever follows it. -/
theorem peekBlock_seal
    
    (rest : Bytes) {n : Nat} (hn : kEncBlockHeaderSize ≤ n) :
    peekBlock ((frame ++ rest).take n) = .ok ⟨baseOffset, recordCount, plaintext.length⟩ := by
  have hflen := length_sealBlock h
  obtain ⟨hlen, tag, ciphertext, htag, hct, -, rfl⟩ := sealBlock_eq h
  obtain ⟨hbase₁, hbase₂⟩ := hbase
  obtain ⟨hcount₁, hcount₂⟩ := hcount
  simp only [kEncBlockHeaderSize] at hn hflen
  generalize hdata : (blockAad baseOffset recordCount plaintext.length nonce ++
    (tag ++ ciphertext)) ++ rest = data
  rw [blockAad] at hdata
  simp only [append_assoc] at hdata
  have hdlen : 46 ≤ data.length := by
    rw [← hdata]
    simp [nonce.length, htag]
    omega
  have hver : loadU 1 data 0 = 1 := by
    rw [← hdata]
    rfl
  have hb : loadS 8 data 2 = baseOffset := by
    rw [← hdata]
    exact loadS_storeLe rfl (by norm_num at hbase₁ ⊢; omega) (by norm_num at hbase₂ ⊢; omega)
  have hc : loadS 4 data 10 = recordCount := by
    rw [← hdata, ← append_assoc]
    exact loadS_storeLe (by simp) (by norm_num at hcount₁ ⊢; omega)
      (by norm_num at hcount₂ ⊢; omega)
  have hl : loadU 4 data 14 = plaintext.length := by
    rw [← hdata, ← append_assoc, ← append_assoc]
    exact loadU_storeLe (by simp) (by norm_num at hlen ⊢; exact hlen)
  unfold peekBlock
  rw [if_neg (by rw [length_take, kEncBlockHeaderSize]; omega), loadU_take (by omega), hver,
    if_neg (by simp), loadS_take (by omega), loadS_take (by omega), loadU_take (by omega), hb, hc,
    hl]

/-- A sealed block opens as its plaintext. -/
theorem openBlock_seal
    
    :
    c.openBlock frame = .ok plaintext := by
  have hflen := length_sealBlock h
  have hpeek := peekBlock_seal h hbase hcount [] (n := frame.length)
    (by rw [hflen]; exact Nat.le_add_right _ _)
  rw [append_nil, take_length] at hpeek
  obtain ⟨-, tag, ciphertext, htag, hct, hdec, rfl⟩ := sealBlock_eq h
  generalize haad : blockAad baseOffset recordCount plaintext.length nonce = aad at *
  have hlaad : aad.length = 30 := haad ▸ length_blockAad _ _ _ _
  have hnonce : slice (aad ++ (tag ++ ciphertext)) 18 12 = nonce.bytes := by
    have hsplit : aad ++ (tag ++ ciphertext) =
        ([1, 0] ++ (storeLe 8 baseOffset ++
          (storeLe 4 recordCount ++ storeLe 4 plaintext.length))) ++
            (nonce.bytes ++ (tag ++ ciphertext)) := by
      rw [← haad, blockAad]
      simp only [append_assoc]
    rw [hsplit]
    exact slice_field (by simp) nonce.length
  have hhead : slice (aad ++ (tag ++ ciphertext)) 0 30 = aad :=
    @slice_field [] _ _ _ _ rfl hlaad
  have htag' : slice (aad ++ (tag ++ ciphertext)) 30 16 = tag := slice_field hlaad htag
  have hct' : slice (aad ++ (tag ++ ciphertext)) kEncBlockHeaderSize plaintext.length =
      ciphertext := by
    have h46 : (aad ++ tag).length = kEncBlockHeaderSize := by
      rw [length_append, hlaad, htag]
      rfl
    have hfield := @slice_field _ [] _ _ _ h46 hct
    rwa [append_nil, append_assoc] at hfield
  unfold openBlock
  rw [hpeek]
  dsimp only
  rw [if_neg (by rw [hflen, EncryptedBlockView.onDiskSize]; exact Nat.lt_irrefl _), hnonce, hhead,
    hct', htag', hdec]

end

end

end

/-- The tag of `xorCipher`. -/
def xorTag (nonce aad ciphertext : Bytes) : Bytes :=
  List.replicate 16 ((nonce ++ aad ++ ciphertext).foldl (· + ·) 0)

/-- A toy cipher that meets the contract, for logs that are run in full. -/
def xorCipher : SegmentCipher where
  encrypt nonce aad plaintext :=
    (plaintext.map (· ^^^ 0x5A), xorTag nonce aad (plaintext.map (· ^^^ 0x5A)))
  decrypt nonce aad ciphertext tag :=
    if tag = xorTag nonce aad ciphertext then some (ciphertext.map (· ^^^ 0x5A)) else none
  length_ciphertext _ _ _ := List.length_map _
  length_tag _ _ _ := List.length_replicate
  decrypt_encrypt nonce aad plaintext := by
    rw [if_pos rfl, List.map_map]
    simp [Function.comp_def, UInt8.xor_assoc]

end SegmentCipher

theorem length_encodeSegmentHeader (salt : Salt) :
    (encodeSegmentHeader salt).length = kEncSegmentHeaderSize := by
  simp [encodeSegmentHeader, kEncSegmentMagic, salt.length, kEncSegmentHeaderSize]

theorem isEncryptedSegmentHeader_encode (salt : Salt) :
    isEncryptedSegmentHeader (encodeSegmentHeader salt) := by
  unfold isEncryptedSegmentHeader
  rw [if_neg (by rw [length_encodeSegmentHeader]; decide), beq_iff_eq]
  exact @slice_field [] _ _ _ _ rfl rfl

theorem parseSegmentHeader_encode (salt : Salt) :
    parseSegmentHeader (encodeSegmentHeader salt) = .ok salt.bytes := by
  have hversion : loadU 1 (encodeSegmentHeader salt) 8 = 1 := rfl
  have hsalt : slice (encodeSegmentHeader salt) 12 16 = salt.bytes := by
    rw [encodeSegmentHeader, ← append_assoc]
    exact slice_field rfl salt.length
  unfold parseSegmentHeader
  rw [if_neg (by rw [length_encodeSegmentHeader]; exact Nat.lt_irrefl _),
    isEncryptedSegmentHeader_encode, if_neg (by simp), hversion, if_neg (by simp), hsalt]

/-- A file is taken for an encrypted one by its first bytes. -/
theorem isPrefix_of_isEncryptedSegmentHeader {log : Bytes}
    (h : isEncryptedSegmentHeader (slice log 0 kEncSegmentHeaderSize)) :
    kEncSegmentMagic <+: log := by
  unfold isEncryptedSegmentHeader at h
  split at h
  · cases h
  · rw [beq_iff_eq, slice, slice, drop_zero, drop_zero, take_take] at h
    rw [← h]
    exact take_prefix _ _

/-- The first bytes of a plain segment are the offset of its first batch, and the magic read as an
offset is above `2 ^ 45`. -/
theorem not_isPrefix_storeLe {baseOffset : Int} (h₀ : 0 ≤ baseOffset)
    (h : baseOffset < 2 ^ 45) (rest : Bytes) :
    ¬ kEncSegmentMagic <+: storeLe 8 baseOffset ++ rest := by
  have hmagic : leValue kEncSegmentMagic = 54182175529038 := by decide
  intro hpre
  have hlen : kEncSegmentMagic.length = (storeLe 8 baseOffset).length := by
    rw [length_storeLe]
    rfl
  have heq : kEncSegmentMagic = storeLe 8 baseOffset :=
    (prefix_of_prefix_length_le hpre (prefix_append _ _)
      (Nat.le_of_eq hlen)).eq_of_length hlen
  have hval := leValue_storeLe 8 baseOffset
  rw [← heq, hmagic, Int.emod_eq_of_lt h₀ (by norm_num; omega)] at hval
  norm_num at h
  omega

end Nexus
