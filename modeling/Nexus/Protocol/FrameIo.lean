import Nexus.Lib.Framing
import Nexus.Protocol.Messages
import Nexus.Protocol.RaftWire

/-!
# Frames and envelopes on a stream

`FrameHeader` of `protocol/frame.cpp`, `FrameReader` and `FrameWriter` of `wire/frame_io.hpp`, and
`RaftEnvelopeReader` and `RaftEnvelopeWriter` of `cluster/raft_link.cpp`. Both readers clear their
buffer, read a prefix of four bytes, check the length in it and read the rest; they differ in the
checks and in what they decode.

* `FrameReader.frames`, `RaftEnvelopeReader.frames`: what the writer sends is one message of the
  reader's format.
* `readAll_writeAll`: whatever pieces the transport makes of them, and wherever the stream ends, the
  messages that are whole are read in order, and then nothing but the end of the stream.
-/

namespace Nexus.Wire

open Lib Decoder List

variable {maxFrame : Nat} {length : UInt32}

/-! ## The header of a frame -/

structure FrameHeader where
  length : UInt32 := 0
  apiKey : ApiKey := .apiVersions
  apiVersion : UInt16 := 0
  correlationId : UInt32 := 0
  flags : UInt16 := 0
  deriving DecidableEq

namespace FrameHeader

def kEncodedSize : Nat := 14

def encode (h : FrameHeader) : Bytes :=
  putU32 h.length ++ putU16 h.apiKey.toU16 ++ putU16 h.apiVersion ++ putU32 h.correlationId ++
    putU16 h.flags

def decode : Decoder FrameHeader := do
  let length ← getU32
  let apiKey ← getApiKey "api_key desconocido"
  let apiVersion ← getU16
  let correlationId ← getU32
  let flags ← getU16
  return { length, apiKey, apiVersion, correlationId, flags }

/-- `length_for`: the bytes after the field `length`. -/
def lengthFor (payloadSize : Nat) : UInt32 := UInt32.ofNat (kEncodedSize - 4 + payloadSize)

theorem reads (h : FrameHeader) : Reads decode h.encode h := by
  simp only [encode, append_assoc]
  exact (reads_u32 _).bind <| (reads_apiKey _ _).bind <| (reads_u16 _).bind <|
    (reads_u32 _).bind <| (reads_u16 _).last _

theorem length_encode (h : FrameHeader) : h.encode.length = kEncodedSize := by
  simp [encode, putU32, putU16, kEncodedSize]

end FrameHeader

structure Frame where
  header : FrameHeader
  payload : Bytes
  deriving DecidableEq

namespace Frame

/-- The frame with the length that the writer computes. -/
def withLength (f : Frame) : Frame :=
  { f with header := { f.header with length := FrameHeader.lengthFor f.payload.length } }

/-- The bytes of the frame on the wire. -/
def encode (f : Frame) : Bytes := f.withLength.header.encode ++ f.payload

theorem length_encode (f : Frame) :
    f.encode.length = FrameHeader.kEncodedSize + f.payload.length := by
  rw [encode, length_append, FrameHeader.length_encode]

/-- The field `length` comes first. -/
theorem encode_eq (f : Frame) :
    ∃ rest, f.encode = putU32 (FrameHeader.lengthFor f.payload.length) ++ rest := by
  refine ⟨putU16 f.header.apiKey.toU16 ++ (putU16 f.header.apiVersion ++
    (putU32 f.header.correlationId ++ (putU16 f.header.flags ++ f.payload))), ?_⟩
  simp only [encode, FrameHeader.encode, withLength, append_assoc]

end Frame

def eofError : Error := ⟨.ioError, "conexión cerrada por el par (EOF) a media trama"⟩

def sendClosed : Error := ⟨.ioError, "send devolvió 0 (conexión cerrada)"⟩

/-! ## Readers -/

/-- `kHeaderRest`. -/
def kHeaderRest : Nat := FrameHeader.kEncodedSize - 4

/-- The checks of `read_frame`. -/
def FrameReader.totalOf (maxFrame : Nat) (buf : Bytes) : Except Error Nat := do
  let (length, _) ← getU32.run buf
  if length.toNat < kHeaderRest then
    throw ⟨.invalidArgument, "trama truncada: length < resto de cabecera"⟩
  let total := 4 + length.toNat
  if maxFrame < total then throw ⟨.invalidArgument, "trama excede max_frame"⟩
  return total

def FrameReader.decode (buf : Bytes) : Except Error Frame := do
  let (header, _) ← FrameHeader.decode.run buf
  return { header, payload := buf.drop FrameHeader.kEncodedSize }

/-- `read_frame`, whose buffer is empty at the start. -/
def FrameReader.format (maxFrame : Nat) : Format UInt8 Error Frame where
  prefixLen := 4
  totalOf := FrameReader.totalOf maxFrame
  decode := FrameReader.decode

/-- The checks of `RaftEnvelopeReader::read`. -/
def RaftEnvelopeReader.totalOf (maxMessage : Nat) (buf : Bytes) : Except Error Nat := do
  let (length, _) ← getU32.run buf
  if length = 0 then throw ⟨.invalidArgument, "sobre de Raft con longitud cero"⟩
  let total := 4 + length.toNat
  if maxMessage < total then throw ⟨.invalidArgument, "sobre de Raft excede max_message"⟩
  return total

def RaftEnvelopeReader.decode (buf : Bytes) : Except Error RaftEnvelope := do
  let (envelope, _) ← RaftEnvelope.decode.run (buf.drop 4)
  return envelope

def RaftEnvelopeReader.format (maxMessage : Nat) : Format UInt8 Error RaftEnvelope where
  prefixLen := 4
  totalOf := RaftEnvelopeReader.totalOf maxMessage
  decode := RaftEnvelopeReader.decode

/-! ## Writers -/

def FrameWriter.writeFrame (f : Frame) (s : Sink UInt8) : Except Error Unit × Sink UInt8 :=
  match sendAll sendClosed f.withLength.header.encode s with
  | (.error e, s) => (.error e, s)
  | (.ok (), s) => if f.payload = [] then (.ok (), s) else sendAll sendClosed f.payload s

/-- The length of the envelope, in front of it. -/
def RaftEnvelope.lengthBytes (e : RaftEnvelope) : Bytes := putU32 (UInt32.ofNat e.encode.length)

def RaftEnvelopeWriter.write (e : RaftEnvelope) (s : Sink UInt8) :
    Except Error Unit × Sink UInt8 :=
  match sendAll sendClosed e.lengthBytes s with
  | (.error e, s) => (.error e, s)
  | (.ok (), s) => sendAll sendClosed e.encode s

/-- The messages, written one after another. -/
def writeAll {α : Type} (write : α → Sink UInt8 → Except Error Unit × Sink UInt8) :
    List α → Sink UInt8 → Except Error Unit × Sink UInt8
  | [], s => (.ok (), s)
  | m :: ms, s =>
    match write m s with
    | (.error e, s) => (.error e, s)
    | (.ok (), s) => writeAll write ms s

theorem FrameWriter.writeFrame_eq (f : Frame) (s : Sink UInt8) :
    ∃ pieces, writeFrame f s = (.ok (), ⟨s.sent ++ f.encode, pieces⟩) := by
  obtain ⟨pieces, hheader⟩ := sendAll_eq sendClosed f.withLength.header.encode s
  rw [writeFrame, hheader, Frame.encode, ← append_assoc]
  simp only
  by_cases hempty : f.payload = []
  · rw [if_pos hempty, hempty, append_nil]
    exact ⟨pieces, rfl⟩
  · rw [if_neg hempty]
    exact sendAll_eq sendClosed f.payload _

theorem RaftEnvelopeWriter.write_eq (e : RaftEnvelope) (s : Sink UInt8) :
    ∃ pieces, write e s = (.ok (), ⟨s.sent ++ (e.lengthBytes ++ e.encode), pieces⟩) := by
  obtain ⟨pieces, hlength⟩ := sendAll_eq sendClosed e.lengthBytes s
  rw [write, hlength, ← append_assoc]
  exact sendAll_eq sendClosed e.encode _

theorem writeAll_eq {α : Type} {write : α → Sink UInt8 → Except Error Unit × Sink UInt8}
    {encode : α → Bytes}
    (hwrite : ∀ m s, ∃ pieces, write m s = (.ok (), ⟨s.sent ++ encode m, pieces⟩)) (ms : List α)
    (s : Sink UInt8) :
    ∃ pieces, writeAll write ms s = (.ok (), ⟨s.sent ++ ms.flatMap encode, pieces⟩) := by
  induction ms generalizing s with
  | nil =>
    rw [flatMap_nil, append_nil]
    exact ⟨s.pieces, rfl⟩
  | cons m ms ih =>
    obtain ⟨pieces, hm⟩ := hwrite m s
    rw [writeAll, hm, flatMap_cons, ← append_assoc]
    exact ih _

/-! ## What is written is what is read -/

/-- The size is below `2 ^ 32` and the reader accepts it. -/
structure Frame.Fits (maxFrame : Nat) (f : Frame) : Prop where
  le : FrameHeader.kEncodedSize + f.payload.length ≤ maxFrame
  lt : FrameHeader.kEncodedSize + f.payload.length < 2 ^ 32

structure RaftEnvelope.Fits (maxMessage : Nat) (e : RaftEnvelope) : Prop where
  le : 4 + e.encode.length ≤ maxMessage
  lt : 4 + e.encode.length < 2 ^ 32

theorem getU32_prefix (value : UInt32) (rest : Bytes) :
    getU32.run ((putU32 value ++ rest).take 4) = .ok (value, []) := by
  have hlen : (putU32 value).length = 4 := length_storeLe 4 _
  have hreads := reads_u32 value []
  rw [append_nil] at hreads
  rw [take_left' hlen, hreads]

theorem FrameReader.totalOf_eq (rest : Bytes) (hrest : kHeaderRest ≤ length.toNat)
    (hmax : 4 + length.toNat ≤ maxFrame) :
    totalOf maxFrame ((putU32 length ++ rest).take 4) = .ok (4 + length.toNat) := by
  rw [totalOf, getU32_prefix]
  simp [bind, Except.bind, Nat.not_lt.mpr hrest, Nat.not_lt.mpr hmax]
  rfl

theorem RaftEnvelopeReader.totalOf_eq {maxMessage : Nat} (rest : Bytes) (hzero : length ≠ 0)
    (hmax : 4 + length.toNat ≤ maxMessage) :
    totalOf maxMessage ((putU32 length ++ rest).take 4) = .ok (4 + length.toNat) := by
  rw [totalOf, getU32_prefix]
  simp [bind, Except.bind, hzero, Nat.not_lt.mpr hmax]
  rfl

/-- The length that the writer computes, if the frame is no larger than its field can tell. -/
theorem FrameHeader.toNat_lengthFor {size : Nat} (h : kEncodedSize + size < 2 ^ 32) :
    (lengthFor size).toNat = 10 + size := by
  have hsmall : 10 + size < 2 ^ 32 := by
    simp only [kEncodedSize] at h
    omega
  exact UInt32.toNat_ofNat_of_lt' hsmall

theorem FrameReader.frames {f : Frame} (h : f.Fits maxFrame) :
    (FrameReader.format maxFrame).Frames f.encode f.withLength := by
  have hlength := FrameHeader.toNat_lengthFor h.lt
  obtain ⟨hle, hlt⟩ := h
  have hlen := f.length_encode
  simp only [FrameHeader.kEncodedSize] at hle hlt hlen
  refine ⟨Nat.succ_pos 3, ?_, ?_, ?_⟩
  · change 4 ≤ _
    omega
  · obtain ⟨rest, hrest⟩ := f.encode_eq
    have hmin : kHeaderRest ≤ (FrameHeader.lengthFor f.payload.length).toNat := by
      rw [hlength]
      exact Nat.le_add_right 10 _
    change FrameReader.totalOf maxFrame (f.encode.take 4) = .ok f.encode.length
    rw [hlen, hrest, FrameReader.totalOf_eq rest hmin (by omega), hlength]
    congr 1
    omega
  · change FrameReader.decode f.encode = _
    rw [FrameReader.decode, Frame.encode, FrameHeader.reads]
    change Except.ok (Frame.mk f.withLength.header (drop _ _)) = _
    rw [drop_left' (FrameHeader.length_encode _)]
    rfl

theorem RaftEnvelopeReader.frames {maxMessage : Nat} {e : RaftEnvelope} (h : e.Fits maxMessage) :
    (RaftEnvelopeReader.format maxMessage).Frames (e.lengthBytes ++ e.encode) e := by
  obtain ⟨hle, hlt⟩ := h
  have hlen : e.lengthBytes.length = 4 := length_storeLe 4 _
  have hpos := length_pos_iff.mpr e.encode_ne_nil
  have hlength : (UInt32.ofNat e.encode.length).toNat = e.encode.length := by
    have hsmall : e.encode.length < 2 ^ 32 := by omega
    exact UInt32.toNat_ofNat_of_lt' hsmall
  refine ⟨Nat.succ_pos 3, ?_, ?_, ?_⟩
  · change 4 ≤ _
    rw [length_append]
    omega
  · have hzero : UInt32.ofNat e.encode.length ≠ 0 := by
      intro h0
      rw [h0] at hlength
      exact Nat.ne_of_gt hpos hlength.symm
    change RaftEnvelopeReader.totalOf maxMessage ((putU32 _ ++ e.encode).take 4) = _
    rw [RaftEnvelopeReader.totalOf_eq e.encode hzero (by omega), hlength, length_append, hlen]
  · have hreads := RaftEnvelope.reads e []
    rw [append_nil] at hreads
    change RaftEnvelopeReader.decode _ = _
    rw [RaftEnvelopeReader.decode, drop_left' hlen, hreads]
    rfl

/-- Whatever pieces the transport makes of what is sent and received, and wherever the stream ends
(after `k` bytes): all of the frames are written, and the `i`-th `read_frame` gives the `i`-th frame
with its length if all of it is there, and the end of the stream otherwise. The same holds for the
envelopes of Raft. -/
theorem readAll_writeAll (sends recvs : Nat → Nat) (limit k n : Nat) :
    (∀ frames : List Frame, (∀ f ∈ frames, f.Fits limit) →
      let written := writeAll FrameWriter.writeFrame frames ⟨[], sends⟩
      written.1 = .ok () ∧
        (FrameReader.format limit).readAll eofError n ⟨written.2.sent.take k, recvs⟩ =
          (List.range n).map (Format.resultAt eofError Frame.encode Frame.withLength frames k)) ∧
    (∀ envelopes : List RaftEnvelope, (∀ e ∈ envelopes, e.Fits limit) →
      let written := writeAll RaftEnvelopeWriter.write envelopes ⟨[], sends⟩
      written.1 = .ok () ∧
        (RaftEnvelopeReader.format limit).readAll eofError n ⟨written.2.sent.take k, recvs⟩ =
          (List.range n).map
            (Format.resultAt eofError (fun e => e.lengthBytes ++ e.encode) id envelopes k)) := by
  refine ⟨fun frames h => ?_, fun envelopes h => ?_⟩
  · obtain ⟨pieces, hwritten⟩ := writeAll_eq FrameWriter.writeFrame_eq frames ⟨[], sends⟩
    rw [hwritten]
    exact ⟨rfl, Format.readAll_cut eofError (fun f hf => FrameReader.frames (h f hf)) k n recvs⟩
  · obtain ⟨pieces, hwritten⟩ := writeAll_eq RaftEnvelopeWriter.write_eq envelopes ⟨[], sends⟩
    rw [hwritten]
    exact ⟨rfl,
      Format.readAll_cut eofError (fun e he => RaftEnvelopeReader.frames (h e he)) k n recvs⟩

/-- Two frames of 17 bytes on a stream that ends after 20, byte by byte: the first is read, and then
the end; and an envelope that is all there. -/
theorem readAll_two_frames :
    (let f : Frame := { header := { apiKey := .fetch, correlationId := 7 }, payload := [1, 2, 3] }
     let written := writeAll FrameWriter.writeFrame [f, f] ⟨[], fun _ => 0⟩
     (FrameReader.format 64).readAll eofError 2 ⟨written.2.sent.take 20, fun _ => 0⟩ =
       [.ok { f with header := { f.header with length := 13 } }, .error eofError]) ∧
    (let e : RaftEnvelope :=
       { topic := ⟨[116], by decide⟩
         partition := 0
         message := ⟨1, 2, .installSnapshotReply ⟨5⟩⟩ }
     let written := writeAll RaftEnvelopeWriter.write [e] ⟨[], fun _ => 0⟩
     (RaftEnvelopeReader.format 64).readAll eofError 2 ⟨written.2.sent.take 64, fun _ => 0⟩ =
       [.ok e, .error eofError]) := by
  refine ⟨?_, ?_⟩
  · refine (((readAll_writeAll (fun _ => 0) (fun _ => 0) 64 20 2).1 [_, _] fun f hf => ?_).2).trans
      (by decide +kernel)
    simp only [List.mem_cons, List.not_mem_nil, or_false, or_self] at hf
    subst hf
    exact ⟨by decide, by decide⟩
  · refine (((readAll_writeAll (fun _ => 0) (fun _ => 0) 64 64 2).2 [_] fun e he => ?_).2).trans
      (by decide +kernel)
    simp only [List.mem_cons, List.not_mem_nil, or_false] at he
    subst he
    exact ⟨by decide +kernel, by decide +kernel⟩

end Nexus.Wire
