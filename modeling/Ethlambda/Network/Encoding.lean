import Ethlambda.Network.Messages

namespace Ethlambda.Network

open Ethlambda.Base Ethlambda.Types

inductive ErrorKind
  | invalidData
  | unexpectedEof
  | other
deriving DecidableEq

structure IoError where
  kind : ErrorKind
  message : String
deriving DecidableEq

def IoError.invalidData (message : String) : IoError := ⟨.invalidData, message⟩

def maxPayloadSize : ℕ := 10 * 1024 * 1024

def maxCompressedPayloadSize : ℕ := 32 + maxPayloadSize + maxPayloadSize / 6 + 1024

/-- What the codec takes from outside: the SSZ form of each container, with the text of a decoding
error, and the snappy frame format. -/
structure Wire (H : Type) where
  statusToSsz : Status H → List UInt8
  statusFromSsz : List UInt8 → Except String (Status H)
  requestToSsz : BlocksByRootRequest H → List UInt8
  requestFromSsz : List UInt8 → Except String (BlocksByRootRequest H)
  blockToSsz : SignedBlockWithAttestation H → List UInt8
  blockFromSsz : List UInt8 → Except String (SignedBlockWithAttestation H)
  messageToSsz : ErrorMessage → List UInt8
  messageFromSsz : List UInt8 → Except String ErrorMessage
  frameEncode : List UInt8 → List UInt8
  frameDecode : List UInt8 → Except IoError (List UInt8)

/-- The bytes that are written for a value, as long as there is room for `n` more of them. -/
def encodeVarintBytes : ℕ → UInt32 → List UInt8
  | 0, _ => []
  | n + 1, value =>
    let byte := (value &&& 0x7F).toUInt8
    if value >>> 7 ≠ 0 then (byte ||| 0x80) :: encodeVarintBytes n (value >>> 7) else [byte]

def encodeVarint (value : UInt32) : List UInt8 := encodeVarintBytes 5 value

/-- The loop over the buffer, from its byte `i` on. A shift by the width of the result or more
overflows. -/
def decodeVarintFrom (i : ℕ) (result : UInt32) : List UInt8 → Exec IoError (UInt32 × List UInt8)
  | [] => Exec.fail (.invalidData "message size is bigger than 28 bits")
  | byte :: rest =>
    if 32 ≤ 7 * i then Exec.panic .overflow
    else
      let result := result ||| ((byte &&& 0x7F).toUInt32 <<< UInt32.ofNat (7 * i))
      if byte &&& 0x80 = 0 then .ok (result, rest) else decodeVarintFrom (i + 1) result rest

def decodeVarint (buf : List UInt8) : Exec IoError (UInt32 × List UInt8) := decodeVarintFrom 0 0 buf

variable {H : Type} (wire : Wire H)

/-- The payload at the front of a stream, with what is left of the stream. -/
def decodePayload (io : List UInt8) : Exec IoError (List UInt8 × List UInt8) := do
  let buf := io.take maxCompressedPayloadSize
  if buf.length < 2 then Exec.fail (.invalidData "message too short")
  else
    let (size, rest) ← decodeVarint buf
    if maxPayloadSize < size.toNat then
      Exec.fail (.invalidData "message size exceeds maximum allowed")
    else
      let uncompressed ← (wire.frameDecode rest).mapError .error
      if uncompressed.length ≠ size.toNat then
        Exec.fail (.invalidData "uncompressed size does not match received size")
      else pure (uncompressed, io.drop maxCompressedPayloadSize)

def writePayload (encoded : List UInt8) : List UInt8 :=
  encodeVarint (UInt32.ofNat encoded.length) ++ wire.frameEncode encoded

section Varint

theorem toNat_shiftRight_seven (value : UInt32) : (value >>> 7).toNat = value.toNat / 128 := by
  simp [UInt32.toNat_shiftRight, Nat.shiftRight_eq_div_pow]

theorem toNat_low_bits (value : UInt32) : ((value &&& 0x7F).toUInt8).toNat = value.toNat % 128 := by
  have hmask : value.toNat &&& 127 = value.toNat % 128 := Nat.and_two_pow_sub_one_eq_mod _ 7
  rw [UInt32.toNat_toUInt8, UInt32.toNat_and]
  change (value.toNat &&& 127) % 256 = _
  rw [hmask]
  omega

/-- A byte below 128 is a last byte, with the top bit set it is not, and both carry its bits. -/
theorem byte_marks {byte : UInt8} (h : byte.toNat < 128) :
    byte &&& 0x80 = 0 ∧ byte &&& 0x7F = byte ∧ (byte ||| 0x80) &&& 0x80 ≠ 0 ∧
      (byte ||| 0x80) &&& 0x7F = byte := by
  have hbits : ∀ n < 128, n &&& 128 = 0 ∧ n &&& 127 = n ∧ (n ||| 128) &&& 128 ≠ 0 ∧
      (n ||| 128) &&& 127 = n := by decide +kernel
  obtain ⟨h₁, h₂, h₃, h₄⟩ := hbits byte.toNat h
  refine ⟨UInt8.toNat_inj.mp h₁, UInt8.toNat_inj.mp h₂, fun heq ↦ h₃ ?_, UInt8.toNat_inj.mp h₄⟩
  exact congrArg UInt8.toNat heq

/-- New bits above those that are there are added to them. -/
theorem or_shiftLeft {result : UInt32} {byte : UInt8} {k : ℕ} (hk : k < 32)
    (hresult : result.toNat < 2 ^ k) (hfits : byte.toNat * 2 ^ k < 2 ^ 32) :
    result ||| (byte.toUInt32 <<< UInt32.ofNat k) =
      UInt32.ofNat (result.toNat + byte.toNat * 2 ^ k) := by
  have hshift : (byte.toUInt32 <<< UInt32.ofNat k).toNat = byte.toNat * 2 ^ k := by
    have hk' : k % 2 ^ 32 % 32 = k := by omega
    rw [UInt32.toNat_shiftLeft, UInt32.toNat_ofNat', Nat.shiftLeft_eq, hk', UInt8.toNat_toUInt32]
    exact Nat.mod_eq_of_lt hfits
  have hor : result.toNat ||| byte.toNat * 2 ^ k = result.toNat + byte.toNat * 2 ^ k := by
    rw [Nat.or_comm, Nat.mul_comm, ← Nat.two_pow_add_eq_or_of_lt hresult, Nat.add_comm]
  apply UInt32.toNat_inj.mp
  rw [UInt32.toNat_ofNat', ← hor, Nat.mod_eq_of_lt (Nat.or_lt_two_pow (UInt32.toNat_lt _) hfits),
    UInt32.toNat_or, hshift]

section Reader

variable {i : ℕ} {result : UInt32} {byte : UInt8} (rest : List UInt8) (hi : 7 * i < 32)
  (hbyte : byte.toNat < 128) (hresult : result.toNat < 2 ^ (7 * i))
  (hfits : byte.toNat * 2 ^ (7 * i) < 2 ^ 32)

include hi hbyte hresult hfits

theorem decodeVarintFrom_last : decodeVarintFrom i result (byte :: rest) =
    .ok (UInt32.ofNat (result.toNat + byte.toNat * 2 ^ (7 * i)), rest) := by
  obtain ⟨hlast, hsame, -, -⟩ := byte_marks hbyte
  rw [decodeVarintFrom, if_neg (by omega), if_pos hlast, hsame, or_shiftLeft hi hresult hfits]

theorem decodeVarintFrom_more : decodeVarintFrom i result ((byte ||| 0x80) :: rest) =
    decodeVarintFrom (i + 1) (UInt32.ofNat (result.toNat + byte.toNat * 2 ^ (7 * i))) rest := by
  obtain ⟨-, -, hmore, hbits⟩ := byte_marks hbyte
  rw [decodeVarintFrom, if_neg (by omega), if_neg hmore, hbits, or_shiftLeft hi hresult hfits]

end Reader

/-- The value that is read is what was there already plus the value that was written, shifted to
the place of its first byte. -/
theorem decodeVarintFrom_encodeVarintBytes {n i : ℕ} {result value : UInt32} (rest : List UInt8)
    (hi : 7 * i < 32) (hvalue : value.toNat < 128 ^ n) (hresult : result.toNat < 2 ^ (7 * i))
    (hfits : result.toNat + value.toNat * 2 ^ (7 * i) < 2 ^ 32) (hn : 0 < n) :
    decodeVarintFrom i result (encodeVarintBytes n value ++ rest) =
      .ok (UInt32.ofNat (result.toNat + value.toNat * 2 ^ (7 * i)), rest) := by
  induction n generalizing i result value with
  | zero => exact absurd hn (lt_irrefl 0)
  | succ n ih =>
    have hlow := toNat_low_bits value
    have hhigh := toNat_shiftRight_seven value
    have hbyte : ((value &&& 0x7F).toUInt8).toNat < 128 := by omega
    have hpart : ((value &&& 0x7F).toUInt8).toNat * 2 ^ (7 * i) ≤ value.toNat * 2 ^ (7 * i) :=
      Nat.mul_le_mul_right _ (by omega)
    have hsplit : value.toNat =
        ((value &&& 0x7F).toUInt8).toNat + 128 * (value >>> 7).toNat := by omega
    rw [encodeVarintBytes]
    by_cases hshift : value >>> 7 = 0
    · rw [if_neg (not_not.mpr hshift), List.singleton_append,
        decodeVarintFrom_last rest hi hbyte hresult (by omega)]
      rw [hshift] at hsplit
      rw [hsplit]
      rfl
    · rw [if_pos hshift, List.cons_append,
        decodeVarintFrom_more _ hi hbyte hresult (by omega)]
      have hpos : 0 < (value >>> 7).toNat := by
        refine Nat.pos_of_ne_zero fun hzero ↦ hshift ?_
        exact UInt32.toNat_inj.mp hzero
      generalize ((value &&& 0x7F).toUInt8).toNat = low at *
      generalize value >>> 7 = high at *
      have hpow : 2 ^ (7 * (i + 1)) = 128 * 2 ^ (7 * i) := by
        rw [Nat.mul_add, Nat.pow_add]
        omega
      have hsum : result.toNat + low * 2 ^ (7 * i) + high.toNat * 2 ^ (7 * (i + 1)) =
          result.toNat + value.toNat * 2 ^ (7 * i) := by
        rw [hsplit, hpow]
        ring
      have hfits' : low * 2 ^ (7 * i) ≤ 127 * 2 ^ (7 * i) := Nat.mul_le_mul_right _ (by omega)
      have hnew : (UInt32.ofNat (result.toNat + low * 2 ^ (7 * i))).toNat =
          result.toNat + low * 2 ^ (7 * i) := by
        rw [UInt32.toNat_ofNat']
        exact Nat.mod_eq_of_lt (by omega)
      have hi' : 7 * (i + 1) < 32 := by
        refine (Nat.pow_lt_pow_iff_right (by decide : 1 < 2)).mp (lt_of_le_of_lt ?_ hfits)
        rw [← hsum]
        have := Nat.mul_le_mul_right (2 ^ (7 * (i + 1))) hpos
        omega
      have hn' : 0 < n := by
        refine Nat.pos_of_ne_zero fun hzero ↦ ?_
        rw [hzero, Nat.pow_one] at hvalue
        omega
      rw [ih hi' (by rw [Nat.pow_succ] at hvalue; omega) (by rw [hnew, hpow]; omega)
        (by rw [hnew, hsum]; exact hfits) hn', hnew, hsum]

theorem decodeVarint_encodeVarint (value : UInt32) (rest : List UInt8) :
    decodeVarint (encodeVarint value ++ rest) = .ok (value, rest) := by
  have hlt := value.toNat_lt
  rw [decodeVarint, encodeVarint, decodeVarintFrom_encodeVarintBytes rest (by decide)
    (by norm_num; omega) (by decide) (by simpa using hlt) (by decide)]
  simp

theorem length_encodeVarintBytes_le (n : ℕ) (value : UInt32) :
    (encodeVarintBytes n value).length ≤ n := by
  induction n generalizing value with
  | zero => exact le_rfl
  | succ n ih =>
    rw [encodeVarintBytes]
    split
    · simpa using ih (value >>> 7)
    · simp

theorem length_encodeVarint_pos (value : UInt32) : 0 < (encodeVarint value).length := by
  rw [encodeVarint, encodeVarintBytes]
  split
  · simp
  · simp

end Varint

section Payload

variable {wire}

/-- How the frame format behaves. A frame holds its content and at most the room that the snappy
format allows on top; the reader hands out content in order; and where the frames of one chunk are
followed by the next chunk of a response, the reader does not stop at the end of the first. -/
structure Wire.Framing (wire : Wire H) : Prop where
  decode_encode : ∀ x, wire.frameDecode (wire.frameEncode x) = .ok x
  length_le : ∀ x, (wire.frameEncode x).length ≤ 32 + x.length + x.length / 6
  encode_ne_nil : ∀ x, x ≠ [] → wire.frameEncode x ≠ []
  in_order : ∀ x more y, wire.frameDecode (wire.frameEncode x ++ more) = .ok y → x <+: y
  followed : ∀ x z more tail, z ≠ [] → more ≠ [] →
    more <+: ResponseCode.success :: writePayload wire z ++ tail →
      wire.frameDecode (wire.frameEncode x ++ more) ≠ .ok x

variable {x : List UInt8}

theorem length_writePayload_lt (hwire : wire.Framing) (hx : x.length ≤ maxPayloadSize) :
    (writePayload wire x).length < maxCompressedPayloadSize := by
  have hvarint := length_encodeVarintBytes_le 5 (UInt32.ofNat x.length)
  have hframe := hwire.length_le x
  have hdiv : x.length / 6 ≤ maxPayloadSize / 6 := Nat.div_le_div_right hx
  have hmax : maxCompressedPayloadSize = 32 + maxPayloadSize + maxPayloadSize / 6 + 1024 := rfl
  rw [writePayload, List.length_append, encodeVarint]
  omega

theorem two_le_length_writePayload (hwire : wire.Framing) (hx : x ≠ []) :
    2 ≤ (writePayload wire x).length := by
  have hvarint := length_encodeVarint_pos (UInt32.ofNat x.length)
  have hframe := List.length_pos_iff.mpr (hwire.encode_ne_nil x hx)
  rw [writePayload, List.length_append]
  omega

theorem toNat_ofNat_length (hx : x.length ≤ maxPayloadSize) :
    (UInt32.ofNat x.length).toNat = x.length := by
  have hmax : maxPayloadSize < 2 ^ 32 := by decide
  rw [UInt32.toNat_ofNat']
  exact Nat.mod_eq_of_lt (hx.trans_lt hmax)

/-- What is decoded once the size has been read. -/
theorem decodePayload_append (hwire : wire.Framing) (hne : x ≠ []) (hx : x.length ≤ maxPayloadSize)
    (more : List UInt8) :
    decodePayload wire (writePayload wire x ++ more) =
      (wire.frameDecode (wire.frameEncode x ++
        more.take (maxCompressedPayloadSize - (writePayload wire x).length))).mapError .error >>=
      fun uncompressed ↦ if uncompressed.length ≠ x.length then
          Exec.fail (.invalidData "uncompressed size does not match received size")
        else pure (uncompressed, (writePayload wire x ++ more).drop maxCompressedPayloadSize) := by
  have hroom := length_writePayload_lt hwire hx
  have htwo := two_le_length_writePayload hwire hne
  have htake : (writePayload wire x ++ more).take maxCompressedPayloadSize = writePayload wire x ++
      more.take (maxCompressedPayloadSize - (writePayload wire x).length) := by
    rw [List.take_append, List.take_of_length_le (by omega)]
  rw [decodePayload, htake]
  dsimp only
  rw [if_neg (by rw [List.length_append]; omega)]
  generalize more.take (maxCompressedPayloadSize - (writePayload wire x).length) = extra
  rw [writePayload, List.append_assoc, decodeVarint_encodeVarint]
  simp only [Exec.ok_bind, toNat_ofNat_length hx]
  rw [if_neg (by omega)]

/-- A payload that ends the stream is read back. -/
theorem decodePayload_writePayload (hwire : wire.Framing) (hne : x ≠ [])
    (hx : x.length ≤ maxPayloadSize) :
    decodePayload wire (writePayload wire x) = .ok (x, []) := by
  have hroom := length_writePayload_lt hwire hx
  have h := decodePayload_append hwire hne hx []
  rw [List.append_nil, List.take_nil, List.append_nil, hwire.decode_encode] at h
  rw [h, List.drop_eq_nil_of_le (by omega)]
  simp [Except.mapError]

/-- The reader takes all that follows, so a payload with a chunk after it is lost. -/
theorem decodePayload_followed (hwire : wire.Framing) (hne : x ≠ [])
    (hx : x.length ≤ maxPayloadSize) {z : List UInt8} (hz : z ≠ []) (tail : List UInt8) :
    ∃ e, decodePayload wire (writePayload wire x ++
      (ResponseCode.success :: writePayload wire z ++ tail)) = Exec.fail e := by
  have hroom := length_writePayload_lt hwire hx
  rw [decodePayload_append hwire hne hx]
  generalize hextra : (ResponseCode.success :: writePayload wire z ++ tail).take
    (maxCompressedPayloadSize - (writePayload wire x).length) = extra
  have hprefix : extra <+: ResponseCode.success :: writePayload wire z ++ tail :=
    hextra ▸ List.take_prefix _ _
  have hextra_ne : extra ≠ [] := by
    rw [← hextra, Ne, List.take_eq_nil_iff]
    simp only [List.cons_append, reduceCtorEq, or_false]
    omega
  cases hdecode : wire.frameDecode (wire.frameEncode x ++ extra) with
  | error e => exact ⟨e, rfl⟩
  | ok y =>
    obtain ⟨more, rfl⟩ := hwire.in_order x extra y hdecode
    have hmore : more ≠ [] := by
      rintro rfl
      refine hwire.followed x z extra tail hz hextra_ne hprefix ?_
      rw [hdecode, List.append_nil]
    refine ⟨.invalidData "uncompressed size does not match received size", ?_⟩
    have hpos := List.length_pos_iff.mpr hmore
    simp only [Except.mapError, Exec.ok_bind]
    rw [if_pos (by rw [List.length_append]; omega)]

end Payload

end Ethlambda.Network
