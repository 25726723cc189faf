import Mathlib

namespace FuzzMonitor.ReflectedCrc

variable {w : ℕ}

/-- One bit of a reflected CRC: the low bit is shifted out, and takes the polynomial in. -/
def bitStep (poly x : BitVec w) : BitVec w :=
  if x.getLsbD 0 then (x >>> 1) ^^^ poly else x >>> 1

def feed (poly x : BitVec w) (b : BitVec 8) : BitVec w := (bitStep poly)^[8] (x ^^^ b.setWidth w)

def crc (poly x : BitVec w) (bytes : List (BitVec 8)) : BitVec w := bytes.foldl (feed poly) x

variable (poly : BitVec w)

theorem bitStep_xor (x y : BitVec w) :
    bitStep poly (x ^^^ y) = bitStep poly x ^^^ bitStep poly y := by
  unfold bitStep
  rw [BitVec.getLsbD_xor, BitVec.ushiftRight_xor_distrib]
  cases x.getLsbD 0 <;> cases y.getLsbD 0
  · simp
  · simp [BitVec.xor_assoc]
  · simp [BitVec.xor_assoc, BitVec.xor_comm poly]
  · have hpoly : poly ^^^ (y >>> 1 ^^^ poly) = y >>> 1 := by
      rw [BitVec.xor_comm, BitVec.xor_assoc, BitVec.xor_self, BitVec.xor_zero]
    simp [BitVec.xor_assoc, hpoly]

theorem bitSteps_xor (n : ℕ) (x y : BitVec w) :
    (bitStep poly)^[n] (x ^^^ y) = (bitStep poly)^[n] x ^^^ (bitStep poly)^[n] y := by
  induction n generalizing x y with
  | zero => rfl
  | succ n ih =>
    rw [Function.iterate_succ_apply, Function.iterate_succ_apply, Function.iterate_succ_apply,
      bitStep_xor, ih]

theorem bitSteps_of_low_zero (n : ℕ) {x : BitVec w} (h : ∀ i < n, x.getLsbD i = false) :
    (bitStep poly)^[n] x = x >>> n := by
  induction n generalizing x with
  | zero => exact (BitVec.ushiftRight_zero x).symm
  | succ n ih =>
    have hlow : x.getLsbD 0 = false := h 0 (Nat.succ_pos n)
    have hstep : bitStep poly x = x >>> 1 := by
      unfold bitStep
      rw [hlow, if_neg Bool.false_ne_true]
    have hrest : ∀ i < n, (x >>> 1).getLsbD i = false := by
      intro i hi
      rw [BitVec.getLsbD_ushiftRight]
      exact h (1 + i) (by omega)
    rw [Function.iterate_succ_apply, hstep, ih hrest, ← BitVec.shiftRight_add, Nat.add_comm]

theorem bitSteps_split (n : ℕ) (x : BitVec w) :
    (bitStep poly)^[n] x = (bitStep poly)^[n] ((x.setWidth n).setWidth w) ^^^ (x >>> n) := by
  have hlow : ∀ i, ((x.setWidth n).setWidth w).getLsbD i = (decide (i < n) && x.getLsbD i) := by
    intro i
    rw [BitVec.getLsbD_setWidth, BitVec.getLsbD_setWidth]
    by_cases hi : i < w
    · simp [hi]
    · simp [BitVec.getLsbD_of_ge x i (by omega)]
  have hzero : ∀ i < n, (x ^^^ (x.setWidth n).setWidth w).getLsbD i = false := by
    intro i hi
    rw [BitVec.getLsbD_xor, hlow, decide_eq_true hi, Bool.true_and, Bool.xor_self]
  have hhigh : (x ^^^ (x.setWidth n).setWidth w) >>> n = x >>> n := by
    apply BitVec.eq_of_getLsbD_eq
    intro i _
    rw [BitVec.getLsbD_ushiftRight, BitVec.getLsbD_xor, hlow, BitVec.getLsbD_ushiftRight]
    simp
  have hx : x = (x.setWidth n).setWidth w ^^^ (x ^^^ (x.setWidth n).setWidth w) := by
    rw [BitVec.xor_comm x, ← BitVec.xor_assoc, BitVec.xor_self, BitVec.zero_xor]
  conv_lhs => rw [hx]
  rw [bitSteps_xor, bitSteps_of_low_zero poly n hzero, hhigh]

section TopBit

variable {poly}

theorem bitStep_eq_zero (hpoly : poly.msb = true) {x : BitVec w} (h : bitStep poly x = 0#w) :
    x = 0#w := by
  unfold bitStep at h
  cases hlow : x.getLsbD 0 with
  | true =>
    rw [hlow, if_pos rfl, BitVec.xor_eq_zero_iff] at h
    rw [← h, BitVec.msb_ushiftRight] at hpoly
    simp at hpoly
  | false =>
    rw [hlow, if_neg Bool.false_ne_true] at h
    apply BitVec.eq_of_getLsbD_eq
    intro i _
    rw [BitVec.getLsbD_zero]
    cases i with
    | zero => exact hlow
    | succ i =>
      have hbit := congrArg (fun y => y.getLsbD i) h
      rw [Nat.add_comm]
      simpa using hbit

theorem bitStep_injective (hpoly : poly.msb = true) : Function.Injective (bitStep poly) := by
  intro x y h
  rw [← BitVec.xor_eq_zero_iff, ← bitStep_xor] at h
  exact BitVec.xor_eq_zero_iff.mp (bitStep_eq_zero hpoly h)

theorem feed_injective (hpoly : poly.msb = true) (b : BitVec 8) :
    Function.Injective fun x => feed poly x b := by
  intro x y h
  exact (BitVec.xor_left_inj _).mp ((bitStep_injective hpoly).iterate 8 h)

/-- A message behind two states keeps them apart. -/
theorem crc_injective (hpoly : poly.msb = true) (bytes : List (BitVec 8)) :
    Function.Injective fun x => crc poly x bytes := by
  induction bytes with
  | nil => exact Function.injective_id
  | cons b bytes ih => exact ih.comp (feed_injective hpoly b)

end TopBit

/-- The bytes of a short message side by side in a word, the first one lowest. -/
def pack : List (BitVec 8) → BitVec w
  | [] => 0#w
  | b :: bytes => b.setWidth w ^^^ (pack bytes <<< 8)

theorem pack_cons (b : BitVec 8) (bytes : List (BitVec 8)) :
    (pack (b :: bytes) : BitVec w) = b.setWidth w ^^^ (pack bytes <<< 8) := rfl

theorem pack_getLsbD_of_le {bytes : List (BitVec 8)} {i : ℕ} (h : 8 * bytes.length ≤ i) :
    (pack bytes : BitVec w).getLsbD i = false := by
  induction bytes generalizing i with
  | nil => exact BitVec.getLsbD_zero
  | cons b bytes ih =>
    rw [List.length_cons] at h
    have hrest : (pack bytes : BitVec w).getLsbD (i - 8) = false := ih (by omega)
    rw [pack_cons, BitVec.getLsbD_xor, BitVec.getLsbD_setWidth, BitVec.getLsbD_shiftLeft, hrest,
      BitVec.getLsbD_of_ge b i (by omega)]
    simp

theorem pack_shift_back {bytes : List (BitVec 8)} (h : 8 * (bytes.length + 1) ≤ w) :
    ((pack bytes : BitVec w) <<< 8) >>> 8 = pack bytes := by
  apply BitVec.eq_of_getLsbD_eq
  intro i hi
  rw [BitVec.getLsbD_ushiftRight, BitVec.getLsbD_shiftLeft]
  by_cases hfit : 8 + i < w
  · simp [hfit]
  · have hzero : (pack bytes : BitVec w).getLsbD i = false := pack_getLsbD_of_le (by omega)
    rw [hzero]
    simp [hfit]

theorem byte_ushiftRight (b : BitVec 8) : b.setWidth w >>> 8 = 0#w := by
  apply BitVec.eq_of_getLsbD_eq
  intro i _
  rw [BitVec.getLsbD_ushiftRight, BitVec.getLsbD_setWidth,
    BitVec.getLsbD_of_ge b (8 + i) (by omega)]
  simp

theorem pack_cons_ushiftRight {b : BitVec 8} {bytes : List (BitVec 8)}
    (h : 8 * (bytes.length + 1) ≤ w) : (pack (b :: bytes) : BitVec w) >>> 8 = pack bytes := by
  rw [pack_cons, BitVec.ushiftRight_xor_distrib, byte_ushiftRight, pack_shift_back h,
    BitVec.zero_xor]

theorem pack_cons_setWidth {b : BitVec 8} {bytes : List (BitVec 8)} (h : 8 ≤ w) :
    (pack (b :: bytes) : BitVec w).setWidth 8 = b := by
  apply BitVec.eq_of_getLsbD_eq
  intro i hi
  rw [pack_cons, BitVec.getLsbD_setWidth, BitVec.getLsbD_xor, BitVec.getLsbD_setWidth,
    BitVec.getLsbD_shiftLeft]
  simp [hi, show i < w by omega]

theorem pack_injective {us vs : List (BitVec 8)} (hlen : us.length = vs.length)
    (hfit : 8 * us.length ≤ w) (h : (pack us : BitVec w) = pack vs) : us = vs := by
  induction us generalizing vs with
  | nil => exact (List.length_eq_zero_iff.mp hlen.symm).symm
  | cons u us ih =>
    cases vs with
    | nil => simp at hlen
    | cons v vs =>
      rw [List.length_cons] at hfit
      rw [List.length_cons, List.length_cons] at hlen
      have hhead := congrArg (BitVec.setWidth 8) h
      have htail : (pack (u :: us) : BitVec w) >>> 8 = pack (v :: vs) >>> 8 := by rw [h]
      rw [pack_cons_setWidth (by omega), pack_cons_setWidth (by omega)] at hhead
      rw [pack_cons_ushiftRight hfit, pack_cons_ushiftRight (by omega)] at htail
      rw [hhead, ih (Nat.succ.inj hlen) (by omega) htail]

/-- A short message acts as one word on the state. -/
theorem crc_eq_pack (x : BitVec w) (bytes : List (BitVec 8)) (h : 8 * bytes.length ≤ w) :
    crc poly x bytes = (bitStep poly)^[8 * bytes.length] (x ^^^ pack bytes) := by
  induction bytes generalizing x with
  | nil => exact BitVec.xor_zero.symm
  | cons b bytes ih =>
    rw [List.length_cons] at h
    have hlow : ∀ i < 8, (pack bytes <<< 8 : BitVec w).getLsbD i = false := by
      intro i hi
      rw [BitVec.getLsbD_shiftLeft, decide_eq_true hi]
      simp
    have hmoved : (bitStep poly)^[8] (pack bytes <<< 8) = pack bytes := by
      rw [bitSteps_of_low_zero poly 8 hlow, pack_shift_back h]
    have hfirst : feed poly x b ^^^ pack bytes = (bitStep poly)^[8] (x ^^^ pack (b :: bytes)) := by
      rw [pack_cons, ← BitVec.xor_assoc, bitSteps_xor, hmoved]
      rfl
    calc crc poly x (b :: bytes)
        = (bitStep poly)^[8 * bytes.length] (feed poly x b ^^^ pack bytes) :=
          ih (feed poly x b) (by omega)
      _ = (bitStep poly)^[8 * bytes.length] ((bitStep poly)^[8] (x ^^^ pack (b :: bytes))) := by
          rw [hfirst]
      _ = (bitStep poly)^[8 * (b :: bytes).length] (x ^^^ pack (b :: bytes)) := by
          rw [← Function.iterate_add_apply, List.length_cons, Nat.mul_succ]

/-- Two messages of one length that fit the word lead to different states. -/
theorem crc_ne {poly : BitVec w} (hpoly : poly.msb = true) (x : BitVec w)
    {us vs : List (BitVec 8)} (hlen : us.length = vs.length) (hfit : 8 * us.length ≤ w)
    (hne : us ≠ vs) : crc poly x us ≠ crc poly x vs := by
  intro h
  rw [crc_eq_pack poly x us hfit, crc_eq_pack poly x vs (hlen ▸ hfit), hlen] at h
  have hword := (bitStep_injective hpoly).iterate _ h
  exact hne (pack_injective hlen hfit ((BitVec.xor_right_inj x).mp hword))

theorem bitStep_zero : bitStep poly (0#w) = 0#w := by
  unfold bitStep
  rw [BitVec.getLsbD_zero, if_neg Bool.false_ne_true]
  exact BitVec.zero_ushiftRight

theorem crc_zeros (n : ℕ) : crc poly 0#w (List.replicate n 0#8) = 0#w := by
  induction n with
  | zero => rfl
  | succ n ih =>
    have hfeed : feed poly (0#w) 0#8 = 0#w := by
      unfold feed
      rw [BitVec.setWidth_zero, BitVec.xor_zero]
      exact Function.iterate_fixed (bitStep_zero poly) 8
    rw [List.replicate_succ]
    exact (congrArg (fun x => crc poly x (List.replicate n 0#8)) hfeed).trans ih

/-- Of the messages that fit the word, exactly the zeros lead back to the zero state. -/
theorem crc_eq_zero_iff {poly : BitVec w} (hpoly : poly.msb = true) {bytes : List (BitVec 8)}
    (hfit : 8 * bytes.length ≤ w) : crc poly 0#w bytes = 0#w ↔ ∀ b ∈ bytes, b = 0#8 := by
  rw [← List.eq_replicate_length]
  constructor
  · intro h
    by_contra hne
    apply crc_ne hpoly 0#w List.length_replicate.symm hfit hne
    rw [h, crc_zeros]
  · intro h
    rw [h]
    exact crc_zeros poly _

end FuzzMonitor.ReflectedCrc
