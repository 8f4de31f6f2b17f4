import Mathlib.Data.List.Basic
import Mathlib.Tactic

namespace Ethlambda.Base

/-- The `n` lowest bytes of a number, lowest first. -/
def littleEndian (n value : ℕ) : List UInt8 :=
  (List.range n).map fun i ↦ UInt8.ofNat (value / 256 ^ i)

def fromLittleEndian (bytes : List UInt8) : ℕ :=
  bytes.foldr (fun byte value ↦ byte.toNat + 256 * value) 0

def bigEndian (n value : ℕ) : List UInt8 := (littleEndian n value).reverse

theorem littleEndian_succ (n value : ℕ) :
    littleEndian (n + 1) value = UInt8.ofNat value :: littleEndian n (value / 256) := by
  rw [littleEndian, List.range_succ_eq_map, List.map_cons, List.map_map, littleEndian]
  refine congrArg₂ List.cons (by simp) (List.map_congr_left fun i _ ↦ ?_)
  simp [Nat.pow_succ', Nat.div_div_eq_div_mul]

@[simp] theorem length_littleEndian (n value : ℕ) : (littleEndian n value).length = n := by
  simp [littleEndian]

theorem fromLittleEndian_littleEndian {n value : ℕ} (h : value < 256 ^ n) :
    fromLittleEndian (littleEndian n value) = value := by
  induction n generalizing value with
  | zero =>
    obtain rfl : value = 0 := by simpa using h
    rfl
  | succ n ih =>
    rw [Nat.pow_succ] at h
    have htail : fromLittleEndian (littleEndian n (value / 256)) = value / 256 := ih (by omega)
    rw [littleEndian_succ]
    change (UInt8.ofNat value).toNat + 256 * fromLittleEndian (littleEndian n (value / 256)) = value
    rw [htail, UInt8.toNat_ofNat']
    omega

theorem littleEndian_fromLittleEndian (bytes : List UInt8) :
    littleEndian bytes.length (fromLittleEndian bytes) = bytes := by
  induction bytes with
  | nil => rfl
  | cons byte bytes ih =>
    have hbyte := byte.toNat_lt
    have hvalue : fromLittleEndian (byte :: bytes) = byte.toNat + 256 * fromLittleEndian bytes := rfl
    rw [List.length_cons, littleEndian_succ, hvalue,
      show (byte.toNat + 256 * fromLittleEndian bytes) / 256 = fromLittleEndian bytes by omega, ih]
    refine congrArg (· :: bytes) (UInt8.toNat_inj.mp ?_)
    rw [UInt8.toNat_ofNat']
    omega

/-- Byte strings of one length are told apart by their numbers. -/
theorem fromLittleEndian_inj {x y : List UInt8} (hlength : x.length = y.length)
    (h : fromLittleEndian x = fromLittleEndian y) : x = y := by
  rw [← littleEndian_fromLittleEndian x, h, hlength, littleEndian_fromLittleEndian]

theorem bigEndian_succ (n value : ℕ) :
    bigEndian (n + 1) value = UInt8.ofNat (value / 256 ^ n) :: bigEndian n value := by
  simp [bigEndian, littleEndian, List.range_succ]

def fromBigEndian (bytes : List UInt8) : ℕ := fromLittleEndian bytes.reverse

@[simp] theorem length_bigEndian (n value : ℕ) : (bigEndian n value).length = n := by
  simp [bigEndian]

theorem fromBigEndian_bigEndian {n value : ℕ} (h : value < 256 ^ n) :
    fromBigEndian (bigEndian n value) = value := by
  rw [fromBigEndian, bigEndian, List.reverse_reverse, fromLittleEndian_littleEndian h]

/-- Equal beginnings do not count. -/
theorem append_lt_append_left_iff (r : List UInt8) {x y : List UInt8} :
    r ++ x < r ++ y ↔ x < y := by
  induction r with
  | nil => rfl
  | cons a r ih =>
    rw [List.cons_append, List.cons_append, List.cons_lt_cons_iff, ih]
    simp

/-- Numbers of which the bytes above the last `n` agree compare as these do. -/
theorem bigEndian_append_lt {n a b : ℕ} (hhigh : a / 256 ^ n = b / 256 ^ n) (h : a < b)
    (x y : List UInt8) : bigEndian n a ++ x < bigEndian n b ++ y := by
  induction n with
  | zero =>
    rw [Nat.pow_zero, Nat.div_one, Nat.div_one] at hhigh
    exact absurd hhigh h.ne
  | succ n ih =>
    rw [Nat.pow_succ, ← Nat.div_div_eq_div_mul, ← Nat.div_div_eq_div_mul] at hhigh
    have hle : a / 256 ^ n ≤ b / 256 ^ n := Nat.div_le_div_right h.le
    rw [bigEndian_succ, bigEndian_succ, List.cons_append, List.cons_append, List.cons_lt_cons_iff]
    by_cases heq : a / 256 ^ n = b / 256 ^ n
    · exact .inr ⟨by rw [heq], ih heq⟩
    · refine .inl (UInt8.lt_iff_toNat_lt.mpr ?_)
      rw [UInt8.toNat_ofNat', UInt8.toNat_ofNat']
      omega

/-- Byte strings that start with a number of the same width are in the order of the numbers. -/
theorem le_of_bigEndian_append_le {n a b : ℕ} (ha : a < 256 ^ n) (hb : b < 256 ^ n)
    {x y : List UInt8} (h : bigEndian n a ++ x ≤ bigEndian n b ++ y) : a ≤ b := by
  by_contra hlt
  refine h (bigEndian_append_lt ?_ (not_le.mp hlt) y x)
  rw [Nat.div_eq_of_lt ha, Nat.div_eq_of_lt hb]

/-- Byte strings that start with a number of the same width compare by the number first and by
the rest where the numbers agree. -/
theorem bigEndian_append_lt_iff {n a b : ℕ} (ha : a < 256 ^ n) (hb : b < 256 ^ n)
    {x y : List UInt8} : bigEndian n a ++ x < bigEndian n b ++ y ↔ a < b ∨ a = b ∧ x < y := by
  have hhigh : a / 256 ^ n = b / 256 ^ n := by rw [Nat.div_eq_of_lt ha, Nat.div_eq_of_lt hb]
  rcases lt_trichotomy a b with h | rfl | h
  · exact iff_of_true (bigEndian_append_lt hhigh h x y) (.inl h)
  · simp only [lt_irrefl, true_and, false_or]
    exact append_lt_append_left_iff (bigEndian n a)
  · refine iff_of_false ?_ (by omega)
    exact List.lt_asymm (bigEndian_append_lt hhigh.symm h y x)

/-- Behind parts of one length, equal ends do not count. -/
theorem append_lt_append_iff {x y r : List UInt8} (hlength : x.length = y.length) :
    x ++ r < y ++ r ↔ x < y := by
  induction x generalizing y with
  | nil =>
    obtain rfl : y = [] := List.length_eq_zero_iff.mp hlength.symm
    simp
  | cons a x ih =>
    cases y with
    | nil => exact nomatch hlength
    | cons b y =>
      rw [List.cons_append, List.cons_append, List.cons_lt_cons_iff, List.cons_lt_cons_iff,
        ih (Nat.succ.inj hlength)]

end Ethlambda.Base
