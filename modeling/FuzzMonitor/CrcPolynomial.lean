import FuzzMonitor.ReflectedCrc

namespace FuzzMonitor.ReflectedCrc
open Polynomial

variable {w : ℕ}

def coeffOf (b : Bool) : ZMod 2 := if b then 1 else 0

theorem coeffOf_xor (a b : Bool) : coeffOf (a ^^ b) = coeffOf a + coeffOf b := by
  cases a <;> cases b <;> decide

theorem coeffOf_injective : Function.Injective coeffOf := by decide

/-- The polynomial of a reflected word: its highest bit is the coefficient of degree 0. -/
noncomputable def toPoly (x : BitVec w) : (ZMod 2)[X] :=
  Polynomial.ofFn w fun i => coeffOf (x.getMsbD i)

theorem toPoly_coeff (x : BitVec w) (i : ℕ) : (toPoly x).coeff i = coeffOf (x.getMsbD i) := by
  unfold toPoly
  by_cases hi : i < w
  · rw [Polynomial.ofFn_coeff_eq_val_of_lt _ hi]
  · rw [Polynomial.ofFn_coeff_eq_zero_of_ge _ (by omega), BitVec.getMsbD_of_ge x i (by omega)]
    rfl

theorem toPoly_degree (x : BitVec w) : (toPoly x).degree < w := Polynomial.ofFn_degree_lt _

theorem toPoly_xor (x y : BitVec w) : toPoly (x ^^^ y) = toPoly x + toPoly y := by
  ext i
  rw [coeff_add, toPoly_coeff, toPoly_coeff, toPoly_coeff, BitVec.getMsbD_xor, coeffOf_xor]

theorem toPoly_zero : toPoly (0#w) = 0 := by
  ext i
  rw [toPoly_coeff, BitVec.getMsbD_zero, coeff_zero]
  rfl

theorem toPoly_injective : Function.Injective (toPoly (w := w)) := by
  intro x y h
  apply BitVec.eq_of_getMsbD_eq
  intro i _
  apply coeffOf_injective
  rw [← toPoly_coeff, ← toPoly_coeff, h]

/-- Moving a reflected word down multiplies its polynomial by x; the bit that is shifted out would
be the coefficient of degree w. -/
theorem X_mul_toPoly (x : BitVec w) :
    X * toPoly x = toPoly (x >>> 1) + C (coeffOf (x.getLsbD 0)) * X ^ w := by
  ext i
  rw [coeff_add, coeff_C_mul, coeff_X_pow, toPoly_coeff, BitVec.getMsbD_ushiftRight]
  cases i with
  | zero =>
    rw [coeff_X_mul_zero]
    cases w with
    | zero =>
      rw [BitVec.getLsbD_of_ge x 0 le_rfl]
      rfl
    | succ w => simp [coeffOf]
  | succ i =>
    rw [coeff_X_mul, toPoly_coeff]
    -- the coefficient of degree w is the bit that is shifted out
    by_cases hlast : i + 1 = w
    · have hlow : x.getMsbD i = x.getLsbD 0 := by
        rw [BitVec.getMsbD_eq_getLsbD, decide_eq_true (by omega), Bool.true_and]
        congr 1
        omega
      rw [if_pos hlast, mul_one, hlow, decide_eq_false (by omega), Bool.false_and]
      exact (zero_add _).symm
    · rw [if_neg hlast, mul_zero, add_zero]
      by_cases hi : i + 1 < w
      · rw [decide_eq_true hi, Bool.true_and, decide_eq_false (by omega), Bool.not_false,
          Bool.true_and, Nat.add_sub_cancel]
      · rw [BitVec.getMsbD_of_ge x i (by omega), decide_eq_false hi, Bool.false_and]

theorem X_pow_mul_toPoly (b : BitVec 8) (hw : 8 ≤ w) :
    X ^ 8 * toPoly (b.setWidth w) = X ^ w * toPoly b := by
  ext i
  rw [coeff_X_pow_mul', coeff_X_pow_mul', toPoly_coeff, toPoly_coeff, BitVec.getMsbD_setWidth]
  by_cases hi : w ≤ i
  · have hsame : i - 8 + 8 - w = i - w := by omega
    rw [if_pos hi, if_pos (by omega), decide_eq_true (by omega), Bool.true_and, hsame]
  · rw [if_neg hi]
    split_ifs
    · rw [decide_eq_false (by omega), Bool.false_and]
      rfl
    · rfl

/-- The polynomial that a CRC divides by; its coefficient of degree w is not in the word. -/
noncomputable def modulus (poly : BitVec w) : (ZMod 2)[X] := X ^ w + toPoly poly

variable (poly : BitVec w)

theorem modulus_monic : (modulus poly).Monic := monic_X_pow_add (toPoly_degree poly)

theorem modulus_degree : (modulus poly).degree = w := by
  unfold modulus
  rw [degree_add_eq_left_of_degree_lt (by rw [degree_X_pow]; exact toPoly_degree poly),
    degree_X_pow]

noncomputable def residue : (ZMod 2)[X] →+* AdjoinRoot (modulus poly) :=
  AdjoinRoot.mk (modulus poly)

theorem residue_eq_iff {p q : (ZMod 2)[X]} :
    residue poly p = residue poly q ↔ modulus poly ∣ p - q := AdjoinRoot.mk_eq_mk

theorem residue_X_pow : residue poly (X ^ w) = residue poly (toPoly poly) := by
  rw [residue_eq_iff, CharTwo.sub_eq_add]
  rfl

/-- A bit step multiplies by x, modulo the polynomial. -/
theorem residue_bitStep (x : BitVec w) :
    residue poly (toPoly (bitStep poly x)) = residue poly (X * toPoly x) := by
  rw [X_mul_toPoly, map_add, map_mul, residue_X_pow]
  unfold bitStep
  -- the exclusive or with the polynomial stands for the bit of degree w
  cases x.getLsbD 0 with
  | false => simp [coeffOf]
  | true => simp [coeffOf, toPoly_xor]

theorem residue_bitSteps (n : ℕ) (x : BitVec w) :
    residue poly (toPoly ((bitStep poly)^[n] x)) = residue poly (X ^ n * toPoly x) := by
  induction n generalizing x with
  | zero => rw [pow_zero, one_mul]; rfl
  | succ n ih =>
    rw [Function.iterate_succ_apply, ih, map_mul, residue_bitStep, ← map_mul, ← mul_assoc,
      ← pow_succ]

theorem residue_feed (hw : 8 ≤ w) (x : BitVec w) (b : BitVec 8) :
    residue poly (toPoly (feed poly x b)) =
      residue poly (X ^ 8 * toPoly x + X ^ w * toPoly b) := by
  unfold feed
  rw [residue_bitSteps, toPoly_xor, mul_add, X_pow_mul_toPoly b hw]

/-- The polynomial of a message: its first byte has the highest degrees. -/
noncomputable def message : List (BitVec 8) → (ZMod 2)[X]
  | [] => 0
  | b :: bytes => X ^ (8 * bytes.length) * toPoly b + message bytes

theorem message_cons (b : BitVec 8) (bytes : List (BitVec 8)) :
    message (b :: bytes) = X ^ (8 * bytes.length) * toPoly b + message bytes := rfl

/-- What a CRC computes, from any state. -/
theorem residue_crc (hw : 8 ≤ w) (x : BitVec w) (bytes : List (BitVec 8)) :
    residue poly (toPoly (crc poly x bytes)) =
      residue poly (X ^ (8 * bytes.length) * toPoly x + X ^ w * message bytes) := by
  induction bytes generalizing x with
  | nil => simp [crc, message]
  | cons b bytes ih =>
    have hstep : residue poly (toPoly (crc poly x (b :: bytes))) = residue poly
        (X ^ (8 * bytes.length) * toPoly (feed poly x b) + X ^ w * message bytes) :=
      ih (feed poly x b)
    rw [hstep, map_add, map_mul, residue_feed poly hw, ← map_mul, ← map_add]
    congr 1
    rw [message_cons, List.length_cons]
    ring

/-- A CRC from the state 0 is the remainder of the message, shifted up by its width. -/
theorem crc_eq_remainder (hw : 8 ≤ w) (bytes : List (BitVec 8)) :
    toPoly (crc poly 0#w bytes) = (X ^ w * message bytes) %ₘ modulus poly := by
  have hres := residue_crc poly hw 0#w bytes
  rw [toPoly_zero, mul_zero, zero_add, residue_eq_iff] at hres
  have hsame := modByMonic_eq_of_dvd_sub (modulus_monic poly) hres
  rw [← hsame, eq_comm, modByMonic_eq_self_iff (modulus_monic poly), modulus_degree]
  exact toPoly_degree _

theorem modulus_coprime (hpoly : poly.msb = true) : IsCoprime X (modulus poly) := by
  have hwidth : 0 ≠ w := by
    rintro rfl
    rw [BitVec.eq_nil poly] at hpoly
    exact absurd hpoly (by decide)
  have htop : poly.getMsbD 0 = true := hpoly
  rw [irreducible_X.coprime_iff_not_dvd, X_dvd_iff]
  unfold modulus
  rw [coeff_add, coeff_X_pow, if_neg hwidth, toPoly_coeff, htop]
  decide

/-- Two messages have the same CRC if their polynomials differ by a multiple of the modulus. -/
theorem crc_eq_iff (hw : 8 ≤ w) (hpoly : poly.msb = true) (us vs : List (BitVec 8)) :
    crc poly 0#w us = crc poly 0#w vs ↔ modulus poly ∣ message us - message vs := by
  rw [← toPoly_injective.eq_iff, crc_eq_remainder poly hw, crc_eq_remainder poly hw,
    ← sub_eq_zero, ← sub_modByMonic, modByMonic_eq_zero_iff_dvd (modulus_monic poly), ← mul_sub]
  exact ⟨(modulus_coprime poly hpoly).symm.pow_right.dvd_of_dvd_mul_left,
    fun h => h.mul_left _⟩

end FuzzMonitor.ReflectedCrc
