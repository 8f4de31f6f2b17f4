import Ethlambda.Network.Encoding
import Mathlib.Data.Nat.Digits.Defs

namespace Ethlambda.Network

open Ethlambda.Base Ethlambda.Types

/-- Another byte follows this one. -/
abbrev Continues (byte : UInt8) : Prop := byte &&& 0x80 ≠ 0

/-- The number that is spelled out in groups of seven bits, lowest first. -/
def varintValue (enc : List UInt8) : ℕ := Nat.ofDigits 128 (enc.map fun byte ↦ byte.toNat % 128)

/-- At most five bytes, of which the last and no other ends the encoding, and no bits past the 32. -/
structure IsVarint (enc : List UInt8) (value : UInt32) : Prop where
  short : enc.length ≤ 5
  continued : ∀ byte ∈ enc.dropLast, Continues byte
  ended : ∃ byte, enc.getLast? = some byte ∧ ¬Continues byte
  value_eq : value.toNat = varintValue enc

theorem byte_parts (byte : UInt8) :
    (¬Continues byte ↔ byte.toNat < 128) ∧ (byte &&& 0x7F).toNat = byte.toNat % 128 := by
  have hbits : ∀ n < 256, (n &&& 128 = 0 ↔ n < 128) ∧ n &&& 127 = n % 128 := by decide +kernel
  obtain ⟨hlast, hlow⟩ := hbits byte.toNat byte.toNat_lt
  refine ⟨?_, ?_⟩
  · rw [not_not, ← UInt8.toNat_inj, UInt8.toNat_and]
    exact hlast
  · rw [UInt8.toNat_and]
    exact hlow

theorem varintValue_concat (enc : List UInt8) (byte : UInt8) :
    varintValue (enc ++ [byte]) = varintValue enc + byte.toNat % 128 * 128 ^ enc.length := by
  rw [varintValue, List.map_append, List.map_singleton, Nat.ofDigits_append, Nat.ofDigits_singleton,
    List.length_map, Nat.mul_comm (128 ^ enc.length)]
  rfl

theorem varintValue_lt (enc : List UInt8) : varintValue enc < 128 ^ enc.length := by
  have hgroups : ∀ n ∈ enc.map fun byte ↦ byte.toNat % 128, n < 128 := by
    intro n hn
    obtain ⟨byte, -, rfl⟩ := List.mem_map.mp hn
    exact Nat.mod_lt _ (by decide)
  simpa [varintValue] using Nat.ofDigits_lt_base_pow_length (by decide) hgroups

theorem toNat_varintValue {enc : List UInt8} (h : varintValue enc < 2 ^ 32) :
    (UInt32.ofNat (varintValue enc)).toNat = varintValue enc := by
  rw [UInt32.toNat_ofNat']
  exact Nat.mod_eq_of_lt h

section Shape

variable {buf init rest : List UInt8} {last : UInt8}

theorem exists_ended (buf : List UInt8) :
    (∀ byte ∈ buf, Continues byte) ∨ ∃ init last rest, buf = init ++ last :: rest ∧
      (∀ byte ∈ init, Continues byte) ∧ ¬Continues last := by
  induction buf with
  | nil => exact .inl nofun
  | cons byte buf ih =>
    by_cases hbyte : Continues byte
    · cases ih with
      | inl hall => exact .inl (List.forall_mem_cons.mpr ⟨hbyte, hall⟩)
      | inr hended =>
        obtain ⟨init, last, rest, rfl, hinit, hlast⟩ := hended
        exact .inr ⟨byte :: init, last, rest, rfl, List.forall_mem_cons.mpr ⟨hbyte, hinit⟩, hlast⟩
    · exact .inr ⟨[], byte, buf, rfl, nofun, hbyte⟩

theorem IsVarint.exists_concat {enc : List UInt8} {value : UInt32} (h : IsVarint enc value) :
    ∃ init last, enc = init ++ [last] ∧ (∀ byte ∈ init, Continues byte) ∧ ¬Continues last := by
  obtain ⟨last, hlast, hends⟩ := h.ended
  obtain ⟨init, rfl⟩ := List.getLast?_eq_some_iff.mp hlast
  exact ⟨init, last, rfl, by simpa using h.continued, hends⟩

theorem isVarint_concat (hinit : ∀ byte ∈ init, Continues byte) (hlast : ¬Continues last)
    (hlen : init.length ≤ 4) (hfits : varintValue (init ++ [last]) < 2 ^ 32) :
    IsVarint (init ++ [last]) (UInt32.ofNat (varintValue (init ++ [last]))) where
  short := by simpa using Nat.succ_le_succ hlen
  continued := by simpa using hinit
  ended := ⟨last, by simp, hlast⟩
  value_eq := toNat_varintValue hfits

theorem takeWhile_continued (hinit : ∀ byte ∈ init, Continues byte) (hlast : ¬Continues last)
    (rest : List UInt8) :
    (init ++ last :: rest).takeWhile (fun byte ↦ decide (Continues byte)) = init := by
  rw [List.takeWhile_append_of_pos (by simpa using hinit), List.takeWhile_cons_of_neg (by simpa using hlast),
    List.append_nil]

/-- The encoding ends with the first byte that does not continue it. -/
theorem IsVarint.eq_concat {enc rest' : List UInt8} {value : UInt32} (h : IsVarint enc value)
    (hinit : ∀ byte ∈ init, Continues byte) (hlast : ¬Continues last)
    (hbuf : init ++ last :: rest = enc ++ rest') : enc = init ++ [last] ∧ rest' = rest := by
  obtain ⟨init', last', rfl, hinit', hlast'⟩ := h.exists_concat
  rw [List.append_assoc, List.singleton_append] at hbuf
  have hsame : init = init' := by
    rw [← takeWhile_continued hinit hlast rest, hbuf, takeWhile_continued hinit' hlast']
  subst hsame
  obtain ⟨rfl, rfl⟩ := List.cons.inj (List.append_cancel_left hbuf)
  exact ⟨rfl, rfl⟩

theorem not_isVarint_of_continued {enc : List UInt8} {value : UInt32}
    (hall : ∀ byte ∈ buf, Continues byte) (hbuf : buf = enc ++ rest) : ¬IsVarint enc value := by
  intro h
  obtain ⟨init, last, rfl, -, hlast⟩ := h.exists_concat
  exact hlast (hall last (by simp [hbuf]))

end Shape

section Decoder

variable {buf init rest : List UInt8} {last : UInt8}

theorem decodeVarintFrom_cons {i : ℕ} {result : UInt32} {byte : UInt8} (hi : 7 * i < 32)
    (hresult : result.toNat < 2 ^ (7 * i)) (hfits : byte.toNat % 128 * 2 ^ (7 * i) < 2 ^ 32) :
    decodeVarintFrom i result (byte :: rest) =
      if Continues byte then decodeVarintFrom (i + 1)
        (UInt32.ofNat (result.toNat + byte.toNat % 128 * 2 ^ (7 * i))) rest
      else .ok (UInt32.ofNat (result.toNat + byte.toNat % 128 * 2 ^ (7 * i)), rest) := by
  have hlow := (byte_parts byte).2
  rw [decodeVarintFrom, if_neg (by omega), or_shiftLeft hi hresult (by rw [hlow]; exact hfits), hlow]
  by_cases hbyte : byte &&& 0x80 = 0
  · rw [if_pos hbyte, if_neg (not_not.mpr hbyte)]
  · rw [if_neg hbyte, if_pos hbyte]

/-- One more byte after those that have been read, while the result has room for it. -/
theorem decodeVarintFrom_next {byte : UInt8} (hlen : init.length ≤ 4)
    (hfits : varintValue (init ++ [byte]) < 2 ^ 32) :
    decodeVarintFrom init.length (UInt32.ofNat (varintValue init)) (byte :: rest) =
      if Continues byte then decodeVarintFrom (init.length + 1)
        (UInt32.ofNat (varintValue (init ++ [byte]))) rest
      else .ok (UInt32.ofNat (varintValue (init ++ [byte])), rest) := by
  have hlt := varintValue_lt init
  have hpow : 2 ^ (7 * init.length) = 128 ^ init.length := by rw [Nat.pow_mul]
  rw [varintValue_concat] at hfits ⊢
  have hread : (UInt32.ofNat (varintValue init)).toNat = varintValue init :=
    toNat_varintValue (by omega)
  rw [decodeVarintFrom_cons (by omega) (by rw [hread, hpow]; exact hlt) (by rw [hpow]; omega), hread,
    hpow]

theorem decodeVarint_continued (hinit : ∀ byte ∈ init, Continues byte) (hlen : init.length ≤ 4)
    (rest : List UInt8) :
    decodeVarint (init ++ rest) =
      decodeVarintFrom init.length (UInt32.ofNat (varintValue init)) rest := by
  induction init using List.reverseRecOn generalizing rest with
  | nil => rfl
  | append_singleton init byte ih =>
    obtain ⟨hinit, hbyte⟩ := List.forall_mem_append.mp hinit
    rw [List.length_append, List.length_singleton] at hlen ⊢
    have hroom : varintValue (init ++ [byte]) < 2 ^ 32 := by
      have hlt := varintValue_lt (init ++ [byte])
      have hpow : 128 ^ (init ++ [byte]).length ≤ 128 ^ 4 :=
        Nat.pow_le_pow_right (by decide) (by simpa using hlen)
      omega
    rw [List.append_assoc, List.singleton_append, ih hinit (by omega),
      decodeVarintFrom_next (by omega) hroom, if_pos (hbyte byte (List.mem_singleton_self byte))]

/-- What the reader owes at one buffer. It hands out what a varint of 32 bits at the front says and
nothing else, refuses a buffer without one, and never shifts by the width of the result. -/
structure DecodesVarint (buf : List UInt8) : Prop where
  decoded : ∀ value rest, decodeVarint buf = .ok (value, rest) ↔
    ∃ enc, buf = enc ++ rest ∧ IsVarint enc value
  refused : (¬∃ enc value rest, buf = enc ++ rest ∧ IsVarint enc value) →
    ∃ e, decodeVarint buf = Exec.fail e
  narrow : decodeVarint buf ≠ Exec.panic .overflow

/-- The fifth byte has bits for which the result has no room, or a sixth byte is read. -/
def Overruns (buf : List UInt8) : Prop :=
  (∀ byte ∈ buf.take 4, Continues byte) ∧ ∃ byte, buf[4]? = some byte ∧
    if Continues byte then 5 < buf.length else 16 ≤ byte.toNat

theorem decodeVarint_unended (hall : ∀ byte ∈ buf, Continues byte) (hlen : buf.length ≤ 5) :
    ∃ e, decodeVarint buf = Exec.fail e := by
  rcases Nat.lt_or_ge buf.length 5 with hshort | hfull
  · have h := decodeVarint_continued hall (show buf.length ≤ 4 by omega) []
    rw [List.append_nil] at h
    exact ⟨_, h⟩
  · obtain ⟨init, last, rfl⟩ := List.eq_nil_or_concat' buf |>.resolve_left (by
      intro hnil
      simp [hnil] at hfull)
    rw [List.length_append, List.length_singleton] at hlen hfull
    obtain ⟨hinit, hlast⟩ := List.forall_mem_append.mp hall
    have hfour : init.length = 4 := by omega
    rw [decodeVarint_continued hinit (by omega), decodeVarintFrom, hfour]
    dsimp only
    rw [if_neg (by decide), if_neg (hlast last (List.mem_singleton_self last))]
    exact ⟨_, rfl⟩

theorem decodesVarint_of_unended (hall : ∀ byte ∈ buf, Continues byte) (hlen : buf.length ≤ 5) :
    DecodesVarint buf := by
  obtain ⟨e, he⟩ := decodeVarint_unended hall hlen
  constructor
  · intro value rest
    rw [he]
    refine iff_of_false Exec.fail_ne_ok ?_
    rintro ⟨enc, hbuf, henc⟩
    exact not_isVarint_of_continued hall hbuf henc
  · exact fun _ ↦ ⟨e, he⟩
  · rw [he]
    exact nofun

theorem decodeVarint_ended (hinit : ∀ byte ∈ init, Continues byte) (hlast : ¬Continues last)
    (hlen : init.length ≤ 4) (hfits : varintValue (init ++ [last]) < 2 ^ 32) (rest : List UInt8) :
    decodeVarint (init ++ last :: rest) =
      .ok (UInt32.ofNat (varintValue (init ++ [last])), rest) := by
  rw [decodeVarint_continued hinit hlen, decodeVarintFrom_next hlen hfits, if_neg hlast]

theorem decodesVarint_of_ended (hinit : ∀ byte ∈ init, Continues byte) (hlast : ¬Continues last)
    (hlen : init.length ≤ 4) (hfits : varintValue (init ++ [last]) < 2 ^ 32) :
    DecodesVarint (init ++ last :: rest) := by
  have hread := decodeVarint_ended hinit hlast hlen hfits rest
  have henc := isVarint_concat hinit hlast hlen hfits
  have hsplit : init ++ last :: rest = (init ++ [last]) ++ rest := by simp
  constructor
  · intro value rest'
    rw [hread]
    constructor
    · intro h
      obtain ⟨rfl, rfl⟩ := Prod.mk.inj (Except.ok.inj h)
      exact ⟨_, hsplit, henc⟩
    · rintro ⟨enc, hbuf, hvalue⟩
      obtain ⟨rfl, rfl⟩ := hvalue.eq_concat hinit hlast hbuf
      rw [← hvalue.value_eq, UInt32.ofNat_toNat]
  · exact fun hnone ↦ absurd ⟨_, _, _, hsplit, henc⟩ hnone
  · rw [hread]
    exact nofun

/-- Bits of the fifth byte are lost. -/
theorem not_decodesVarint_of_wide (hinit : ∀ byte ∈ init, Continues byte) (hlast : ¬Continues last)
    (hlen : init.length = 4) (hwide : 16 ≤ last.toNat) : ¬DecodesVarint (init ++ last :: rest) := by
  intro h
  obtain ⟨value, hread⟩ : ∃ value, decodeVarint (init ++ last :: rest) = .ok (value, rest) := by
    rw [decodeVarint_continued hinit (by omega), decodeVarintFrom, hlen]
    dsimp only
    rw [if_neg (by decide), if_pos (not_not.mp hlast)]
    exact ⟨_, rfl⟩
  obtain ⟨enc, hbuf, hvalue⟩ := (h.decoded value rest).mp hread
  obtain ⟨rfl, -⟩ := hvalue.eq_concat hinit hlast hbuf
  have hsmall := value.toNat_lt
  have hsum := hvalue.value_eq
  have hlow := (byte_parts last).1.mp hlast
  rw [varintValue_concat, hlen, Nat.mod_eq_of_lt hlow] at hsum
  omega

/-- The sixth byte is shifted by 35 bits. -/
theorem decodeVarint_overflow {fifth sixth : UInt8} (hinit : ∀ byte ∈ init, Continues byte)
    (hlen : init.length = 4) (hfifth : Continues fifth) :
    decodeVarint (init ++ fifth :: sixth :: rest) = Exec.panic .overflow := by
  rw [decodeVarint_continued hinit (by omega), decodeVarintFrom, hlen]
  dsimp only
  rw [if_neg (by decide), if_neg hfifth, decodeVarintFrom, if_pos (by decide)]

theorem Overruns.not_decodesVarint (h : Overruns buf) : ¬DecodesVarint buf := by
  obtain ⟨hinit, fifth, hfifth, hrest⟩ := h
  obtain ⟨hlong, hget⟩ := List.getElem?_eq_some_iff.mp hfifth
  have hlen : (buf.take 4).length = 4 := by
    rw [List.length_take]
    omega
  have hbuf : buf = buf.take 4 ++ fifth :: buf.drop 5 := by
    rw [← hget, ← List.drop_eq_getElem_cons hlong, List.take_append_drop]
  rw [hbuf]
  by_cases hcont : Continues fifth
  · rw [if_pos hcont] at hrest
    cases hdrop : buf.drop 5 with
    | nil =>
      rw [List.drop_eq_nil_iff] at hdrop
      omega
    | cons sixth rest => exact fun h ↦ h.narrow (decodeVarint_overflow hinit hlen hcont)
  · rw [if_neg hcont] at hrest
    exact not_decodesVarint_of_wide hinit hcont hlen hrest

theorem varintValue_lt_of_fits (hlen : init.length ≤ 4) (hfits : init.length = 4 → last.toNat < 16) :
    varintValue (init ++ [last]) < 2 ^ 32 := by
  have hlt := varintValue_lt init
  rw [varintValue_concat]
  rcases Nat.lt_or_ge init.length 4 with hshort | hfull
  · have hbyte : last.toNat % 128 < 128 := Nat.mod_lt _ (by decide)
    have hpow : 128 ^ init.length ≤ 128 ^ 3 := Nat.pow_le_pow_right (by decide) (by omega)
    have hgroup : last.toNat % 128 * 128 ^ init.length ≤ 127 * 128 ^ 3 :=
      Nat.mul_le_mul (by omega) hpow
    omega
  · have hfour : init.length = 4 := by omega
    have hlast := hfits hfour
    rw [hfour] at hlt ⊢
    omega

/-- The reader takes a varint of 32 bits and nothing else, exactly at the buffers where four
continued bytes do not lead to a fifth byte past the width of the result or to a sixth byte. -/
theorem decodesVarint_iff (buf : List UInt8) : DecodesVarint buf ↔ ¬Overruns buf := by
  refine ⟨fun h hover ↦ hover.not_decodesVarint h, fun hover ↦ ?_⟩
  cases exists_ended buf with
  | inl hall =>
    refine decodesVarint_of_unended hall (Nat.not_lt.mp fun hlong ↦ hover ?_)
    refine ⟨fun byte hbyte ↦ hall byte (List.mem_of_mem_take hbyte), buf[4], ?_, ?_⟩
    · exact List.getElem?_eq_getElem (by omega)
    · rw [if_pos (hall _ (List.getElem_mem _))]
      exact hlong
  | inr hended =>
    obtain ⟨init, last, rest, rfl, hinit, hlast⟩ := hended
    have hshort : init.length ≤ 4 := by
      refine Nat.not_lt.mp fun hlong ↦ hover ⟨fun byte hbyte ↦ ?_, init[4], ?_, ?_⟩
      · rw [List.take_append_of_le_length (by omega)] at hbyte
        exact hinit byte (List.mem_of_mem_take hbyte)
      · rw [List.getElem?_append_left hlong, List.getElem?_eq_getElem hlong]
      · rw [if_pos (hinit _ (List.getElem_mem _)), List.length_append, List.length_cons]
        omega
    refine decodesVarint_of_ended hinit hlast hshort (varintValue_lt_of_fits hshort fun hfour ↦ ?_)
    refine Nat.not_le.mp fun hwide ↦ hover ⟨?_, last, ?_, ?_⟩
    · rw [← hfour, List.take_left]
      exact hinit
    · rw [List.getElem?_append_right hfour.le, hfour]
      rfl
    · rw [if_neg hlast]
      exact hwide

/-- Five bytes that spell `2 ^ 32` are read as zero. -/
theorem fifth_byte_truncated :
    decodeVarint [0x80, 0x80, 0x80, 0x80, 0x10] = .ok (0, []) ∧
      ¬DecodesVarint [0x80, 0x80, 0x80, 0x80, 0x10] := by
  have hcont : ∀ byte ∈ List.replicate 4 (0x80 : UInt8), Continues byte := by
    intro byte hbyte
    obtain rfl := List.eq_of_mem_replicate hbyte
    decide
  have hlast : ¬Continues 0x10 := by decide
  have hwide : 16 ≤ (0x10 : UInt8).toNat := by decide
  exact ⟨by decide +kernel, not_decodesVarint_of_wide hcont hlast rfl hwide⟩

end Decoder

/-- Every number of 32 bits takes one to five bytes and is read back from the front of any buffer. -/
theorem varint_roundtrip (value : UInt32) (rest : List UInt8) :
    1 ≤ (encodeVarint value).length ∧ (encodeVarint value).length ≤ 5 ∧
      decodeVarint (encodeVarint value ++ rest) = .ok (value, rest) :=
  ⟨length_encodeVarint_pos value, length_encodeVarintBytes_le 5 value,
    decodeVarint_encodeVarint value rest⟩

end Ethlambda.Network
