import Ethlambda.StateTransition.JustifiedSlots

namespace Ethlambda.StateTransition

open Ethlambda.Base

/-- The distances at which a slot can be justified. Pronic ones are recognised below `2 ^ 62`. -/
def JustifiableDistance (d : ℕ) : Prop :=
  d ≤ 5 ∨ (∃ n, d = n * n) ∨ d < 2 ^ 62 ∧ ∃ n, d = n * (n + 1)

theorem sqrt_sq_eq_iff (d : ℕ) : d.sqrt ^ 2 = d ↔ ∃ n, d = n * n := by
  constructor
  · intro h
    exact ⟨d.sqrt, by rw [← Nat.pow_two, h]⟩
  · rintro ⟨n, rfl⟩
    rw [Nat.sqrt_eq, Nat.pow_two]

/-- Four times a pronic number is one less than an odd square. -/
theorem four_mul_add_one_square_iff (d : ℕ) :
    (∃ m, 4 * d + 1 = m * m) ↔ ∃ n, d = n * (n + 1) := by
  constructor
  · rintro ⟨m, hm⟩
    have hodd : m % 2 = 1 := by
      rcases Nat.mod_two_eq_zero_or_one m with h | h
      · have hmod := Nat.mul_mod m m 2
        rw [h, ← hm] at hmod
        omega
      · exact h
    obtain ⟨n, rfl⟩ : ∃ n, m = 2 * n + 1 := ⟨m / 2, by omega⟩
    refine ⟨n, ?_⟩
    nlinarith
  · rintro ⟨n, rfl⟩
    exact ⟨2 * n + 1, by ring⟩

theorem slotIsJustifiableAfter_iff (slot finalizedSlot : ℕ) :
    slotIsJustifiableAfter slot finalizedSlot = true ↔
      finalizedSlot ≤ slot ∧ JustifiableDistance (slot - finalizedSlot) := by
  rw [slotIsJustifiableAfter]
  split
  · rename_i h
    exact iff_of_false (by simp) fun h' ↦ absurd h'.1 (Nat.not_le.mpr h)
  · rename_i h
    rw [and_iff_right (Nat.not_lt.mp h)]
    generalize slot - finalizedSlot = d
    simp only [Bool.or_eq_true, Bool.and_eq_true, decide_eq_true_eq, sqrt_sq_eq_iff,
      four_mul_add_one_square_iff, JustifiableDistance]
    have hfits : (4 * d < 2 ^ 64 ∧ 4 * d + 1 < 2 ^ 64) ↔ d < 2 ^ 62 := by omega
    have hodd : (4 * d + 1) % 2 = 1 := by omega
    rw [hfits, and_iff_left hodd, or_assoc]

section Checked

variable {ε : Type}

/-- `u64::checked_mul` and `u64::checked_add`: no value where the result does not fit. -/
def checkedMul (a b : ℕ) : Option ℕ := if a * b < 2 ^ 64 then some (a * b) else none

def checkedAdd (a b : ℕ) : Option ℕ := if a + b < 2 ^ 64 then some (a + b) else none

/-- `n.isqrt().pow(2) == n`, in which the power overflows if its result does not fit. -/
def squareTest (n : ℕ) : Exec ε Bool := do
  let square ← Exec.mul64 n.sqrt n.sqrt
  pure (decide (square = n))

/-- The test with the 64-bit arithmetic of the code, one alternative after the other. -/
def slotIsJustifiableAfterU64 (slot finalizedSlot : UInt64) : Exec ε Bool :=
  if slot < finalizedSlot then .ok false
  else do
    let delta := slot.toNat - finalizedSlot.toNat
    if delta ≤ 5 then pure true
    else
      let square ← squareTest delta
      if square then pure true
      else match (checkedMul delta 4).bind fun v ↦ checkedAdd v 1 with
        | none => pure false
        | some val =>
          let square ← squareTest val
          pure (square && decide (val % 2 = 1))

/-- A root squared is never more than the number, so the power fits where the number does. -/
theorem squareTest_eq_ok {n : ℕ} (h : n < 2 ^ 64) :
    (squareTest n : Exec ε Bool) = .ok (decide (n.sqrt ^ 2 = n)) := by
  have hle : n.sqrt * n.sqrt ≤ n := Nat.sqrt_le n
  rw [squareTest, Exec.mul64, if_pos (by omega), Exec.ok_bind, Nat.pow_two]
  rfl

theorem checked_four_mul_add_one (d : ℕ) :
    ((checkedMul d 4).bind fun v ↦ checkedAdd v 1) =
      if 4 * d + 1 < 2 ^ 64 then some (4 * d + 1) else none := by
  unfold checkedMul checkedAdd
  rw [Nat.mul_comm d 4]
  by_cases hmul : 4 * d < 2 ^ 64
  · rw [if_pos hmul, Option.bind_some]
  · rw [if_neg hmul, Option.bind_none, if_neg (by omega)]

/-- Nothing overflows, and the result is that of the test on natural numbers. -/
theorem slotIsJustifiableAfterU64_eq_ok (slot finalizedSlot : UInt64) :
    (slotIsJustifiableAfterU64 slot finalizedSlot : Exec ε Bool) =
      .ok (slotIsJustifiableAfter slot.toNat finalizedSlot.toNat) := by
  have hslot := slot.toNat_lt
  rw [slotIsJustifiableAfterU64, slotIsJustifiableAfter]
  by_cases hbefore : slot < finalizedSlot
  · rw [if_pos hbefore, if_pos (UInt64.lt_iff_toNat_lt.mp hbefore)]
  rw [if_neg hbefore, if_neg (fun h ↦ hbefore (UInt64.lt_iff_toNat_lt.mpr h))]
  have hdelta : slot.toNat - finalizedSlot.toNat < 2 ^ 64 := by omega
  generalize slot.toNat - finalizedSlot.toNat = delta at hdelta
  by_cases hnear : delta ≤ 5
  · simp [hnear]
  by_cases hsquare : delta.sqrt ^ 2 = delta
  · simp [hnear, squareTest_eq_ok hdelta, hsquare]
  simp only [hnear, if_false, squareTest_eq_ok hdelta, Exec.ok_bind, hsquare, decide_false,
    Bool.false_eq_true, Bool.false_or]
  by_cases hfits : 4 * delta + 1 < 2 ^ 64
  · have hmul : 4 * delta < 2 ^ 64 := by omega
    rw [checked_four_mul_add_one, if_pos hfits]
    simp only [squareTest_eq_ok hfits, Exec.ok_bind, Exec.pure_eq_ok, hfits, hmul, decide_true,
      Bool.true_and]
  · rw [checked_four_mul_add_one, if_neg hfits]
    simp only [hfits, Exec.pure_eq_ok, decide_false, Bool.and_false, Bool.false_and]

/-- The test never overflows, whatever the slots. It accepts the slots from the finalized one on
whose distance is at most five, a square, or a pronic number below `2 ^ 62`. -/
theorem justifiable_test_exact (slot finalizedSlot : UInt64) :
    ∃ b, (slotIsJustifiableAfterU64 slot finalizedSlot : Exec ε Bool) = .ok b ∧
      slotIsJustifiableAfter slot.toNat finalizedSlot.toNat = b ∧
      (b = true ↔ finalizedSlot ≤ slot ∧
        let d := slot.toNat - finalizedSlot.toNat
        d ≤ 5 ∨ (∃ n, d = n * n) ∨ d < 2 ^ 62 ∧ ∃ n, d = n * (n + 1)) := by
  refine ⟨_, slotIsJustifiableAfterU64_eq_ok slot finalizedSlot, rfl, ?_⟩
  rw [slotIsJustifiableAfter_iff, UInt64.le_iff_toNat_le]
  rfl

/-- The first pronic number of which four times does not fit is refused. -/
example : (slotIsJustifiableAfterU64 (2 ^ 62 + 2 ^ 31) 0 : Exec Empty Bool) = .ok false := by
  decide +kernel

end Checked

namespace JustifiableDistance

theorem square (n : ℕ) : JustifiableDistance (n * n) := .inr (.inl ⟨n, rfl⟩)

theorem pronic {n : ℕ} (h : n * (n + 1) < 2 ^ 62) : JustifiableDistance (n * (n + 1)) :=
  .inr (.inr ⟨h, n, rfl⟩)

/-- Past any distance there is another one, no farther away than the next square. -/
theorem exists_next {d : ℕ} (h : d + d.sqrt + 1 < 2 ^ 62) :
    ∃ d', d < d' ∧ d' ≤ d + d.sqrt + 1 ∧ JustifiableDistance d' := by
  have hlow : d.sqrt * d.sqrt ≤ d := Nat.sqrt_le d
  have hhigh : d < (d.sqrt + 1) * (d.sqrt + 1) := Nat.lt_succ_sqrt d
  generalize d.sqrt = n at *
  by_cases hpronic : d < n * (n + 1)
  · have hsmall : n * (n + 1) < 2 ^ 62 := by nlinarith
    exact ⟨n * (n + 1), hpronic, by nlinarith, pronic hsmall⟩
  · exact ⟨(n + 1) * (n + 1), hhigh, by nlinarith, square (n + 1)⟩

/-- What lies behind a square is at least as far as the last pronic number before it. -/
theorem add_le_of_square_lt {n c : ℕ} (hn : 3 ≤ n) (hc : JustifiableDistance c) (h : n * n < c) :
    n * n + n ≤ c ∧ (2 ^ 62 ≤ n * n → n * n + 2 * n + 1 ≤ c) := by
  have hnine : 9 ≤ n * n := Nat.mul_le_mul hn hn
  rcases hc with hc | ⟨m, rfl⟩ | ⟨hc, m, rfl⟩
  · omega
  · have hm : n < m := Nat.mul_self_lt_mul_self_iff.mp h
    have hsquare : (n + 1) * (n + 1) ≤ m * m := Nat.mul_le_mul hm hm
    constructor
    · nlinarith
    · intro _
      nlinarith
  · have hm : n ≤ m := by
      by_contra hlt
      have hle : m * (m + 1) ≤ n * n := Nat.mul_le_mul (by omega) (by omega)
      omega
    have hpronic : n * (n + 1) ≤ m * (m + 1) := Nat.mul_le_mul hm (by omega)
    constructor
    · nlinarith
    · omega

theorem add_lt_of_pronic_lt {n c : ℕ} (hn : 2 ≤ n) (hc : JustifiableDistance c)
    (h : n * (n + 1) < c) : n * (n + 1) + n < c := by
  have hsix : 6 ≤ n * (n + 1) := Nat.mul_le_mul hn (Nat.succ_le_succ hn)
  rcases hc with hc | ⟨m, rfl⟩ | ⟨-, m, rfl⟩
  · omega
  · have hm : n < m := by
      by_contra hle
      have hsquare : m * m ≤ n * (n + 1) := Nat.mul_le_mul (by omega) (by omega)
      omega
    have hsquare : (n + 1) * (n + 1) ≤ m * m := Nat.mul_le_mul hm hm
    nlinarith
  · have hm : n < m := by
      by_contra hle
      have hpronic : m * (m + 1) ≤ n * (n + 1) := Nat.mul_le_mul (by omega) (by omega)
      omega
    have hpronic : (n + 1) * (n + 2) ≤ m * (m + 1) := Nat.mul_le_mul hm (by omega)
    nlinarith

/-- Between what comes before a distance and what comes after it there is a bound on both gaps. -/
theorem exists_gap {b : ℕ} (hb : JustifiableDistance b) (hpos : 0 < b) :
    ∃ gap, (∃ a, JustifiableDistance a ∧ a < b ∧ b ≤ a + gap) ∧
      ∀ c, JustifiableDistance c → b < c → b + gap ≤ c := by
  by_cases hsmall : b ≤ 6
  · exact ⟨1, ⟨b - 1, .inl (by omega), by omega, by omega⟩, fun c _ hc ↦ hc⟩
  rcases hb with hb | ⟨n, rfl⟩ | ⟨hfits, n, rfl⟩
  · omega
  · have hn : 3 ≤ n := by
      by_contra hlt
      have hle : n * n ≤ 2 * 2 := Nat.mul_le_mul (by omega) (by omega)
      omega
    obtain ⟨k, rfl⟩ : ∃ k, n = k + 1 := ⟨n - 1, by omega⟩
    by_cases hfits : k * (k + 1) < 2 ^ 62
    · refine ⟨k + 1, ⟨k * (k + 1), pronic hfits, by nlinarith, by nlinarith⟩, fun c hc hlt ↦ ?_⟩
      exact (add_le_of_square_lt hn hc hlt).1
    · -- too far for pronic numbers: only squares are left
      have hfar : 2 ^ 62 ≤ (k + 1) * (k + 1) := by nlinarith
      refine ⟨2 * (k + 1) + 1, ⟨k * k, square k, by nlinarith, by nlinarith⟩, fun c hc hlt ↦ ?_⟩
      exact (add_le_of_square_lt hn hc hlt).2 hfar
  · have hn : 2 ≤ n := by
      by_contra hlt
      have hle : n * (n + 1) ≤ 1 * 2 := Nat.mul_le_mul (by omega) (by omega)
      omega
    refine ⟨n, ⟨n * n, square n, by nlinarith, by nlinarith⟩, fun c hc hlt ↦ ?_⟩
    exact (add_lt_of_pronic_lt hn hc hlt).le

end JustifiableDistance

/-- Two justifiable slots with none in between. -/
structure Consecutive (finalizedSlot a b : ℕ) : Prop where
  first : slotIsJustifiableAfter a finalizedSlot = true
  second : slotIsJustifiableAfter b finalizedSlot = true
  lt : a < b
  between : ∀ t, a < t → t < b → slotIsJustifiableAfter t finalizedSlot = false

namespace Consecutive

variable {f a b c a' b' : ℕ}

/-- Of two gaps side by side the second is no smaller. -/
theorem gap_le (hab : Consecutive f a b) (hbc : Consecutive f b c) : b - a ≤ c - b := by
  obtain ⟨hfa, -⟩ := (slotIsJustifiableAfter_iff a f).mp hab.first
  obtain ⟨-, hb⟩ := (slotIsJustifiableAfter_iff b f).mp hab.second
  obtain ⟨-, hc⟩ := (slotIsJustifiableAfter_iff c f).mp hbc.second
  have hlt := hab.lt
  have hlt' := hbc.lt
  obtain ⟨gap, ⟨d, hd, hdb, hgap⟩, hnext⟩ := hb.exists_gap (by omega)
  have hbefore : f + d ≤ a := by
    by_contra hlater
    have hno := hab.between (f + d) (by omega) (by omega)
    have hyes : slotIsJustifiableAfter (f + d) f = true := by
      rw [slotIsJustifiableAfter_iff, Nat.add_sub_cancel_left]
      exact ⟨by omega, hd⟩
    exact absurd hyes (by rw [hno]; exact Bool.false_ne_true)
  have hafter := hnext (c - f) hc (by omega)
  omega

/-- The justifiable slot before a later one. -/
theorem exists_before (ha : slotIsJustifiableAfter a f = true)
    (hb : slotIsJustifiableAfter b f = true) (hlt : a < b) :
    ∃ p, a ≤ p ∧ Consecutive f p b := by
  have hbound : a ≤ b - 1 := by omega
  have hle : a ≤ Nat.findGreatest (fun t ↦ slotIsJustifiableAfter t f = true) (b - 1) :=
    Nat.le_findGreatest hbound ha
  have hlast : Nat.findGreatest (fun t ↦ slotIsJustifiableAfter t f = true) (b - 1) ≤ b - 1 :=
    Nat.findGreatest_le (b - 1)
  refine ⟨_, hle, Nat.findGreatest_spec (P := fun t ↦ slotIsJustifiableAfter t f = true) hbound ha,
    hb, by omega, fun t ht htb ↦ ?_⟩
  exact Bool.not_eq_true _ ▸ Nat.findGreatest_is_greatest ht (by omega)

/-- Gaps do not shrink on the way out. -/
theorem gap_mono (hab : Consecutive f a b) (hab' : Consecutive f a' b') (h : a ≤ a') :
    b - a ≤ b' - a' := by
  -- by induction on where the later gap starts: the gap before it is in between
  induction a' using Nat.strong_induction_on generalizing b' with
  | _ a' ih =>
    rcases Nat.eq_or_lt_of_le h with rfl | hlt
    · have hsame : b = b' := by
        rcases Nat.lt_trichotomy b b' with hb | hb | hb
        · exact absurd hab.second (by rw [hab'.between b hab.lt hb]; exact Bool.false_ne_true)
        · exact hb
        · exact absurd hab'.second (by rw [hab.between b' hab'.lt hb]; exact Bool.false_ne_true)
      rw [hsame]
    · obtain ⟨p, hp, hbefore⟩ := exists_before hab.first hab'.first hlt
      exact (ih p hbefore.lt hbefore hp).trans (hbefore.gap_le hab')

end Consecutive

theorem justifiable_slots_thin_out (f : UInt64) :
    (∀ s : UInt64, f ≤ s →
      let d := s.toNat - f.toNat
      d + d.sqrt + 1 < 2 ^ 62 → s.toNat + d.sqrt + 1 < 2 ^ 64 →
        ∃ t : UInt64, s < t ∧ t.toNat ≤ s.toNat + d.sqrt + 1 ∧
          slotIsJustifiableAfter t.toNat f.toNat = true) ∧
      ∀ a b a' b' : UInt64, Consecutive f.toNat a.toNat b.toNat →
        Consecutive f.toNat a'.toNat b'.toNat → a ≤ a' →
          b.toNat - a.toNat ≤ b'.toNat - a'.toNat := by
  refine ⟨fun s hs hd hfits ↦ ?_, fun a b a' b' hab hab' h ↦ ?_⟩
  · obtain ⟨d', hlt, hle, hd'⟩ := JustifiableDistance.exists_next hd
    have hfs : f.toNat ≤ s.toNat := UInt64.le_iff_toNat_le.mp hs
    have ht : (UInt64.ofNat (f.toNat + d')).toNat = f.toNat + d' := by
      rw [UInt64.toNat_ofNat']
      exact Nat.mod_eq_of_lt (by omega)
    refine ⟨UInt64.ofNat (f.toNat + d'), UInt64.lt_iff_toNat_lt.mpr (by omega), by omega, ?_⟩
    rw [ht, slotIsJustifiableAfter_iff, Nat.add_sub_cancel_left]
    exact ⟨Nat.le_add_right _ _, hd'⟩
  · exact hab.gap_mono hab' (UInt64.le_iff_toNat_le.mp h)

/-- Six slots past the finalized one: the next candidate is three slots on, and a gap of four
comes after the gap of three. -/
theorem justifiable_slots_thin_out_sample :
    (∃ t : UInt64, 13 < t ∧ t.toNat ≤ 16 ∧ slotIsJustifiableAfter t.toNat 7 = true) ∧
      Consecutive 7 13 16 ∧ Consecutive 7 19 23 ∧
      (16 : UInt64).toNat - (13 : UInt64).toNat ≤ (23 : UInt64).toNat - (19 : UInt64).toNat := by
  have hnear : Consecutive 7 13 16 := by
    refine ⟨by decide +kernel, by decide +kernel, by decide, fun t ht htb ↦ ?_⟩
    interval_cases t <;> decide +kernel
  have hfar : Consecutive 7 19 23 := by
    refine ⟨by decide +kernel, by decide +kernel, by decide, fun t ht htb ↦ ?_⟩
    interval_cases t <;> decide +kernel
  obtain ⟨hnext, hgaps⟩ := justifiable_slots_thin_out 7
  have hroot : Nat.sqrt 6 = 2 := by decide +kernel
  refine ⟨?_, hnear, hfar, hgaps 13 16 19 23 hnear hfar (by decide)⟩
  obtain ⟨t, hlt, hle, ht⟩ := hnext 13 (by decide) (by decide +kernel) (by decide +kernel)
  have hbound : (13 : UInt64).toNat + Nat.sqrt 6 + 1 = 16 := by rw [hroot]; rfl
  exact ⟨t, hlt, hle.trans hbound.le, ht⟩

end Ethlambda.StateTransition
