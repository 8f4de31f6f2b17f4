import Ethlambda.Base.Bytes
import Ethlambda.Network.Encoding

namespace Ethlambda.Network

open Ethlambda.Base Ethlambda.Types

variable {H : Type} (wire : Wire H)

def unexpectedEof : IoError := ⟨.unexpectedEof, "unexpected end of file"⟩

def unknownProtocol (protocol : StreamProtocol) : IoError :=
  .invalidData ("unknown protocol: " ++ protocol)

/-- The result of an SSZ decoder, whose error is reported under the given text. -/
def fromSsz {α : Type} (text : String) : Except String α → Exec IoError α
  | .ok a => .ok a
  | .error e => Exec.fail (.invalidData (text ++ e))

namespace Codec

def readRequest (protocol : StreamProtocol) (io : List UInt8) : Exec IoError (Request H) := do
  let (payload, _) ← decodePayload wire io
  if protocol = statusProtocolV1 then
    let status ← fromSsz "" (wire.statusFromSsz payload)
    pure (.status status)
  else if protocol = blocksByRootProtocolV1 then
    let request ← fromSsz "" (wire.requestFromSsz payload)
    pure (.blocksByRoot request)
  else Exec.fail (unknownProtocol protocol)

def writeRequest (_ : StreamProtocol) : Request H → List UInt8
  | .status status => writePayload wire (wire.statusToSsz status)
  | .blocksByRoot request => writePayload wire (wire.requestToSsz request)

def decodeStatusResponse : List UInt8 → Exec IoError (Response H)
  | [] => Exec.fail unexpectedEof
  | code :: io => do
    let (payload, _) ← decodePayload wire io
    if code ≠ ResponseCode.success then
      let message ← fromSsz "Invalid error message: " (wire.messageFromSsz payload)
      pure (.error code message)
    else
      let status ← fromSsz "" (wire.statusFromSsz payload)
      pure (.success (.status status))

/-- Read chunks until the stream ends. A chunk takes at least one byte of it. -/
def decodeBlocks : ℕ → List UInt8 → List (SignedBlockWithAttestation H) →
    Exec IoError (List (SignedBlockWithAttestation H))
  | 0, _, _ => Exec.panic .diverge
  | _ + 1, [], blocks => pure blocks
  | n + 1, code :: io, blocks => do
    let (payload, io) ← decodePayload wire io
    if code ≠ ResponseCode.success then decodeBlocks n io blocks
    else
      let block ← fromSsz "" (wire.blockFromSsz payload)
      decodeBlocks n io (blocks ++ [block])

def decodeBlocksByRootResponse (io : List UInt8) : Exec IoError (Response H) := do
  let blocks ← decodeBlocks wire (io.length + 1) io []
  pure (.success (.blocksByRoot blocks))

def readResponse (protocol : StreamProtocol) (io : List UInt8) : Exec IoError (Response H) :=
  if protocol = statusProtocolV1 then decodeStatusResponse wire io
  else if protocol = blocksByRootProtocolV1 then decodeBlocksByRootResponse wire io
  else Exec.fail (unknownProtocol protocol)

def writeChunk (encoded : List UInt8) : List UInt8 :=
  ResponseCode.success :: writePayload wire encoded

def writeResponse (_ : StreamProtocol) : Response H → List UInt8
  | .success (.status status) => writeChunk wire (wire.statusToSsz status)
  | .success (.blocksByRoot blocks) => blocks.flatMap fun block ↦ writeChunk wire (wire.blockToSsz block)
  | .error code message => code :: writePayload wire (wire.messageToSsz message)

variable {wire}

/-- The containers of a response survive SSZ, and are of the size the codec allows. -/
def Encodes (wire : Wire H) : ResponsePayload H → Prop
  | .status status => wire.statusFromSsz (wire.statusToSsz status) = .ok status ∧
      (wire.statusToSsz status).length = 80
  | .blocksByRoot blocks => ∀ block ∈ blocks,
      wire.blockFromSsz (wire.blockToSsz block) = .ok block ∧ wire.blockToSsz block ≠ [] ∧
        (wire.blockToSsz block).length ≤ maxPayloadSize

def AtMostOneBlock : ResponsePayload H → Prop
  | .status _ => True
  | .blocksByRoot blocks => blocks.length ≤ 1

theorem statusToSsz_ne_nil {status : Status H} (h : (wire.statusToSsz status).length = 80) :
    wire.statusToSsz status ≠ [] := by
  intro hnil
  rw [hnil] at h
  exact nomatch h

theorem length_statusToSsz_le {status : Status H} (h : (wire.statusToSsz status).length = 80) :
    (wire.statusToSsz status).length ≤ maxPayloadSize := by
  rw [h]
  decide

theorem status_round_trip (hwire : wire.Framing) {status : Status H}
    (h : Encodes wire (.status status)) :
    decodeStatusResponse wire (writeChunk wire (wire.statusToSsz status)) =
      .ok (.success (.status status)) := by
  obtain ⟨hssz, hlength⟩ := h
  rw [writeChunk, decodeStatusResponse, decodePayload_writePayload hwire
    (statusToSsz_ne_nil hlength) (length_statusToSsz_le hlength)]
  simp [fromSsz, hssz]

theorem block_round_trip (hwire : wire.Framing) {block : SignedBlockWithAttestation H}
    (h : Encodes wire (.blocksByRoot [block])) :
    decodeBlocksByRootResponse wire (writeChunk wire (wire.blockToSsz block)) =
      .ok (.success (.blocksByRoot [block])) := by
  obtain ⟨hssz, hne, hlength⟩ := h block List.mem_cons_self
  have htwo := two_le_length_writePayload hwire hne
  obtain ⟨n, hn⟩ : ∃ n, (writeChunk wire (wire.blockToSsz block)).length = n + 1 :=
    ⟨_, List.length_cons⟩
  rw [decodeBlocksByRootResponse, hn, writeChunk, decodeBlocks,
    decodePayload_writePayload hwire hne hlength]
  simp [fromSsz, hssz, decodeBlocks]

/-- The payload of the first of several chunks runs on into the second. -/
theorem blocks_fail (hwire : wire.Framing) {first second : SignedBlockWithAttestation H}
    {blocks : List (SignedBlockWithAttestation H)}
    (h : Encodes wire (.blocksByRoot (first :: second :: blocks))) :
    ∃ e, decodeBlocksByRootResponse wire
      ((first :: second :: blocks).flatMap fun block ↦ writeChunk wire (wire.blockToSsz block)) =
        Exec.fail e := by
  obtain ⟨-, hne, hlength⟩ := h first List.mem_cons_self
  obtain ⟨-, hne', -⟩ := h second (List.mem_cons_of_mem _ List.mem_cons_self)
  obtain ⟨e, he⟩ := decodePayload_followed hwire hne hlength hne'
    (blocks.flatMap fun block ↦ writeChunk wire (wire.blockToSsz block))
  refine ⟨e, ?_⟩
  rw [List.flatMap_cons, List.flatMap_cons, decodeBlocksByRootResponse, writeChunk, List.cons_append,
    List.length_cons, decodeBlocks, writeChunk, he]
  rfl

/-- A response is read back as it was written exactly if it has at most one chunk. -/
theorem response_round_trip_iff (hwire : wire.Framing) {payload : ResponsePayload H}
    (h : Encodes wire payload) :
    readResponse wire (Response.success payload).protocol
        (writeResponse wire (Response.success payload).protocol (.success payload)) =
      .ok (.success payload) ↔ AtMostOneBlock payload := by
  cases payload with
  | status status =>
    rw [Response.protocol, readResponse, if_pos rfl]
    exact iff_of_true (status_round_trip hwire h) trivial
  | blocksByRoot blocks =>
    rw [Response.protocol, readResponse, if_neg statusProtocolV1_ne_blocksByRoot.symm, if_pos rfl,
      writeResponse]
    cases blocks with
    | nil => exact iff_of_true rfl (Nat.zero_le 1)
    | cons first blocks =>
      cases blocks with
      | nil =>
        rw [List.flatMap_cons, List.flatMap_nil, List.append_nil]
        exact iff_of_true (block_round_trip hwire h) le_rfl
      | cons second blocks =>
        obtain ⟨e, he⟩ := blocks_fail hwire h
        refine iff_of_false ?_ fun hlength ↦ ?_
        · rw [he]
          exact Exec.fail_ne_ok
        · exact absurd (Nat.le_of_succ_le_succ hlength) (Nat.not_succ_le_zero _)

/-- A request is a single payload, and is always read back. -/
theorem request_round_trip (hwire : wire.Framing) {request : Request H}
    (h : match request with
      | .status status => Encodes wire (.status status)
      | .blocksByRoot request => wire.requestFromSsz (wire.requestToSsz request) = .ok request ∧
        wire.requestToSsz request ≠ [] ∧ (wire.requestToSsz request).length ≤ maxPayloadSize) :
    readRequest wire request.protocol (writeRequest wire request.protocol request) =
      .ok request := by
  cases request with
  | status status =>
    obtain ⟨hssz, hlength⟩ := h
    rw [readRequest, writeRequest, decodePayload_writePayload hwire (statusToSsz_ne_nil hlength)
      (length_statusToSsz_le hlength)]
    simp [Request.protocol, fromSsz, hssz]
  | blocksByRoot request =>
    obtain ⟨hssz, hne, hlength⟩ := h
    rw [readRequest, writeRequest, decodePayload_writePayload hwire hne hlength]
    simp [Request.protocol, fromSsz, hssz, statusProtocolV1_ne_blocksByRoot.symm]

section Samples

def crc32c (data : List UInt8) : UInt32 :=
  let crc := data.foldl (fun (crc : UInt32) byte ↦ (List.range 8).foldl
    (fun c _ ↦ if c &&& 1 = 1 then (c >>> 1) ^^^ 0x82F63B78 else c >>> 1)
    (crc ^^^ byte.toUInt32)) 0xFFFFFFFF
  crc ^^^ 0xFFFFFFFF

def maskedChecksum (data : List UInt8) : List UInt8 :=
  let crc := crc32c data
  littleEndian 4 (((crc >>> 15) ||| (crc <<< 17)) + 0xa282ead8).toNat

theorem length_maskedChecksum (data : List UInt8) : (maskedChecksum data).length = 4 := by
  simp [maskedChecksum]

def streamIdentifier : List UInt8 := [0xff, 6, 0, 0, 0x73, 0x4e, 0x61, 0x50, 0x70, 0x59]

/-- The frame of data that does not compress and fits one chunk. Longer data has a form of its
own, which is not the library's. -/
def plainFrame (x : List UInt8) : List UInt8 :=
  if x = [] then []
  else if x.length ≤ 65536 then
    streamIdentifier ++ 1 :: (littleEndian 3 (x.length + 4) ++ (maskedChecksum x ++ x))
  else streamIdentifier ++ 2 :: x

def readPlainFrame : List UInt8 → Except IoError (List UInt8)
  | [] => .ok []
  | first :: bytes =>
    if (first :: bytes).take 10 ≠ streamIdentifier then .error ⟨.other, "no stream identifier"⟩
    else match (first :: bytes).drop 10 with
      | 1 :: chunk =>
        let data := chunk.drop 7
        if data.length + 4 ≠ fromLittleEndian (chunk.take 3) then .error ⟨.other, "chunk length"⟩
        else if maskedChecksum data ≠ (chunk.drop 3).take 4 then .error ⟨.other, "checksum"⟩
        else .ok data
      | 2 :: data => .ok data
      | _ => .error ⟨.other, "chunk type"⟩

theorem readPlainFrame_identified (bytes : List UInt8) :
    readPlainFrame (streamIdentifier ++ bytes) = match bytes with
      | 1 :: chunk =>
        let data := chunk.drop 7
        if data.length + 4 ≠ fromLittleEndian (chunk.take 3) then .error ⟨.other, "chunk length"⟩
        else if maskedChecksum data ≠ (chunk.drop 3).take 4 then .error ⟨.other, "checksum"⟩
        else .ok data
      | 2 :: data => .ok data
      | _ => .error ⟨.other, "chunk type"⟩ := by
  simp [readPlainFrame, streamIdentifier]

/-- A chunk that is read to its end. -/
theorem readPlainFrame_plainFrame_append {x : List UInt8} (hne : x ≠ []) (more : List UInt8) :
    readPlainFrame (plainFrame x ++ more) =
      if x.length ≤ 65536 ∧ more ≠ [] then .error ⟨.other, "chunk length"⟩
      else .ok (x ++ more) := by
  have hchecksum := length_maskedChecksum x
  rw [plainFrame, if_neg hne]
  by_cases hlength : x.length ≤ 65536
  · have hle := length_littleEndian 3 (x.length + 4)
    have hsize : fromLittleEndian (littleEndian 3 (x.length + 4)) = x.length + 4 :=
      fromLittleEndian_littleEndian (by omega)
    rw [if_pos hlength, List.append_assoc, readPlainFrame_identified]
    simp only [List.cons_append, List.append_assoc]
    generalize littleEndian 3 (x.length + 4) = size at hle hsize ⊢
    have htake : (size ++ (maskedChecksum x ++ (x ++ more))).take 3 = size := by
      rw [List.take_append_of_le_length hle.ge, List.take_of_length_le hle.le]
    have hdrop : (size ++ (maskedChecksum x ++ (x ++ more))).drop 3 =
        maskedChecksum x ++ (x ++ more) := by
      rw [← hle, List.drop_left]
    have hdata : (size ++ (maskedChecksum x ++ (x ++ more))).drop 7 = x ++ more := by
      rw [← List.append_assoc, show 7 = (size ++ maskedChecksum x).length by simp [hle, hchecksum],
        List.drop_left]
    rw [htake, hdrop, hdata, hsize, List.take_append_of_le_length hchecksum.ge,
      List.take_of_length_le hchecksum.le]
    by_cases hmore : more = []
    · simp [hmore]
    · have hpos := List.length_pos_iff.mpr hmore
      rw [if_pos (by rw [List.length_append]; omega), if_pos ⟨hlength, hmore⟩]
  · rw [if_neg hlength, List.append_assoc, readPlainFrame_identified, if_neg fun h ↦ hlength h.1]
    rfl

def plainStatusToSsz (s : Status (Vector UInt8 32)) : List UInt8 :=
  s.finalized.root.toList ++ (littleEndian 8 s.finalized.slot.toNat ++
    (s.head.root.toList ++ littleEndian 8 s.head.slot.toNat))

def plainStatusFromSsz (bytes : List UInt8) : Except String (Status (Vector UInt8 32)) :=
  let slotAt (i : ℕ) : UInt64 := UInt64.ofNat (fromLittleEndian ((bytes.drop i).take 8))
  if h : bytes.length = 80 then
    .ok ⟨⟨⟨(bytes.take 32).toArray, by simp [h]⟩, slotAt 32⟩,
      ⟨⟨((bytes.drop 40).take 32).toArray, by simp [h]⟩, slotAt 72⟩⟩
  else .error "InvalidByteLength"

theorem length_plainStatusToSsz (s : Status (Vector UInt8 32)) :
    (plainStatusToSsz s).length = 80 := by
  simp [plainStatusToSsz]

theorem plainStatusFromSsz_toSsz (s : Status (Vector UInt8 32)) :
    plainStatusFromSsz (plainStatusToSsz s) = .ok s := by
  obtain ⟨⟨root, slot⟩, root', slot'⟩ := s
  have hslot (slot : UInt64) : UInt64.ofNat (fromLittleEndian (littleEndian 8 slot.toNat)) = slot := by
    rw [fromLittleEndian_littleEndian (by simpa using slot.toNat_lt)]
    simp
  rw [plainStatusFromSsz, dif_pos (length_plainStatusToSsz _)]
  have h₁ : root.toList.drop 40 = [] := List.drop_eq_nil_of_le (by simp)
  have h₂ : root.toList.drop 72 = [] := List.drop_eq_nil_of_le (by simp)
  have h₃ : (littleEndian 8 slot.toNat).drop 40 = [] := List.drop_eq_nil_of_le (by simp)
  have h₄ : (littleEndian 8 slot'.toNat).take 8 = littleEndian 8 slot'.toNat :=
    List.take_of_length_le (by simp)
  have hroot (root : Vector UInt8 32) : root.toList.toArray = root.toArray :=
    Array.toArray_toList
  simp [plainStatusToSsz, List.drop_append, hslot, hroot, h₁, h₂, h₃, h₄]

/-- Plain frames, the SSZ form of a status and of an error message, and a short form for the
blocks that only carry a slot. -/
def plainWire : Wire (Vector UInt8 32) where
  statusToSsz := plainStatusToSsz
  statusFromSsz := plainStatusFromSsz
  requestToSsz request := request.roots.toList.flatMap Vector.toList
  requestFromSsz _ := .ok ⟨.empty⟩
  blockToSsz block := [block.message.block.slot.toUInt8]
  blockFromSsz bytes := .ok (slotBlock (Vector.replicate 32 0) (bytes.headD 0).toUInt64)
  messageToSsz message := message.toList
  messageFromSsz bytes := match VariableList.new maxErrorMessageLength bytes with
    | some message => .ok message
    | none => .error "BytesInvalid"
  frameEncode := plainFrame
  frameDecode := readPlainFrame

theorem plainWire_framing : plainWire.Framing where
  decode_encode x := by
    by_cases hne : x = []
    · rw [hne]
      rfl
    · have h := readPlainFrame_plainFrame_append hne []
      rw [List.append_nil, List.append_nil, if_neg (by simp)] at h
      exact h
  length_le x := by
    have hchecksum := length_maskedChecksum x
    change (plainFrame x).length ≤ _
    rw [plainFrame]
    split
    · simp
    · split
      · simp only [List.length_append, List.length_cons, streamIdentifier, length_littleEndian,
          hchecksum, List.length_nil]
        omega
      · simp only [List.length_append, List.length_cons, streamIdentifier, List.length_nil]
        omega
  encode_ne_nil x hne := by
    change plainFrame x ≠ []
    rw [plainFrame, if_neg hne]
    split
    · simp
    · simp
  in_order x more y h := by
    by_cases hne : x = []
    · rw [hne]
      exact List.nil_prefix
    · change readPlainFrame (plainFrame x ++ more) = .ok y at h
      rw [readPlainFrame_plainFrame_append hne] at h
      split at h
      · exact nomatch h
      · rw [← Except.ok.inj h]
        exact List.prefix_append x more
  followed x z more tail _ hmore hprefix := by
    change readPlainFrame (plainFrame x ++ more) ≠ .ok x
    by_cases hne : x = []
    · obtain ⟨byte, more, rfl⟩ := List.exists_cons_of_ne_nil hmore
      obtain ⟨rfl, -⟩ := List.cons_prefix_cons.mp hprefix
      rw [hne]
      simp [plainFrame, readPlainFrame, streamIdentifier, ResponseCode.success]
    · rw [readPlainFrame_plainFrame_append hne]
      split
      · exact nofun
      · intro heq
        exact hmore (by simpa using Except.ok.inj heq)

/-- A status without a pattern that the frame format could compress. -/
def plainStatus : Status (Vector UInt8 32) where
  finalized := ⟨Vector.ofFn fun i ↦ UInt8.ofNat (i + 1), 0x2827262524232221⟩
  head := ⟨Vector.ofFn fun i ↦ UInt8.ofNat (i + 65), 0x6867666564636261⟩

theorem response_round_trip_iff_sample :
    plainWire.Framing ∧ Encodes plainWire (.status plainStatus) ∧
      (readResponse plainWire (Response.success (.status plainStatus)).protocol
          (writeResponse plainWire (Response.success (.status plainStatus)).protocol
            (.success (.status plainStatus))) =
        .ok (.success (.status plainStatus)) ↔ AtMostOneBlock (.status plainStatus)) := by
  have hencodes : Encodes plainWire (.status plainStatus) :=
    ⟨plainStatusFromSsz_toSsz plainStatus, length_plainStatusToSsz plainStatus⟩
  exact ⟨plainWire_framing, hencodes, response_round_trip_iff plainWire_framing hencodes⟩

def plainBlocks : List (SignedBlockWithAttestation (Vector UInt8 32)) :=
  [slotBlock (Vector.replicate 32 0) 1, slotBlock (Vector.replicate 32 0) 2]

theorem two_blocks_lost :
    plainWire.Framing ∧ Encodes plainWire (.blocksByRoot plainBlocks) ∧
      readResponse plainWire blocksByRootProtocolV1
          (writeResponse plainWire blocksByRootProtocolV1 (.success (.blocksByRoot plainBlocks))) ≠
        .ok (.success (.blocksByRoot plainBlocks)) := by
  have hencodes : Encodes plainWire (.blocksByRoot plainBlocks) := by
    intro block hmem
    simp only [plainBlocks, List.mem_cons, List.not_mem_nil, or_false] at hmem
    rcases hmem with rfl | rfl
    · exact ⟨rfl, nofun, by decide⟩
    · exact ⟨rfl, nofun, by decide⟩
  refine ⟨plainWire_framing, hencodes, ?_⟩
  obtain ⟨e, he⟩ := blocks_fail plainWire_framing hencodes
  rw [readResponse, if_neg statusProtocolV1_ne_blocksByRoot.symm, if_pos rfl, writeResponse,
    plainBlocks, he]
  exact Exec.fail_ne_ok

end Samples

end Codec

end Ethlambda.Network
