import Mathlib

namespace FuzzMonitor.Elapsed

structure Timespec where
  tvSec : ℤ
  tvNsec : ℤ
  nsec_nonneg : 0 ≤ tvNsec
  nsec_lt : tvNsec < 10 ^ 9
  deriving DecidableEq

/-- get_time_ms of the monitor and of the preload, the division taken exactly. The argument of
round is not negative, where a tie goes up. -/
def getTimeMs (spec : Timespec) : ℤ := round ((spec.tvNsec : ℚ) / 1000000)

def elapsedMs (start finish : Timespec) : ℤ := getTimeMs finish - getTimeMs start

def Timespec.ns (spec : Timespec) : ℤ := spec.tvSec * 10 ^ 9 + spec.tvNsec

/-- The elapsed time is not negative, and at most one millisecond off. -/
def Sound (start finish : Timespec) : Prop :=
  0 ≤ elapsedMs start finish ∧
    |(elapsedMs start finish : ℚ) - ((finish.ns - start.ns : ℤ) : ℚ) / 1000000| ≤ 1

theorem round_le_round {x y : ℚ} (h : x ≤ y) : round x ≤ round y := by
  rw [round_eq, round_eq]
  exact Int.floor_mono (add_le_add_left h _)

theorem abs_round_sub_round (x y : ℚ) : |((round y - round x : ℤ) : ℚ) - (y - x)| ≤ 1 := by
  have hx := abs_le.mp (abs_sub_round x)
  have hy := abs_le.mp (abs_sub_round y)
  rw [Int.cast_sub, abs_le]
  constructor <;> linarith

/-- Against the true difference, the seconds are missing. -/
theorem elapsedMs_error (start finish : Timespec) :
    |(elapsedMs start finish : ℚ) - ((finish.ns - start.ns : ℤ) : ℚ) / 1000000 +
      1000 * (finish.tvSec - start.tvSec : ℤ)| ≤ 1 := by
  have hround := abs_round_sub_round ((start.tvNsec : ℚ) / 1000000) (finish.tvNsec / 1000000)
  have hns : ((finish.ns - start.ns : ℤ) : ℚ) / 1000000 =
      (finish.tvNsec : ℚ) / 1000000 - start.tvNsec / 1000000 +
        1000 * (finish.tvSec - start.tvSec : ℤ) := by
    unfold Timespec.ns
    push_cast
    ring
  rw [hns, sub_add_eq_sub_sub, sub_add_cancel]
  exact hround

/-- get_time_ms leaves out tv_sec: the elapsed time is sound exactly for two readings within one
second of the clock. -/
theorem elapsed_sound_iff {start finish : Timespec} (h : start.ns ≤ finish.ns) :
    Sound start finish ↔ start.tvSec = finish.tvSec := by
  have herror := elapsedMs_error start finish
  constructor
  · rintro ⟨-, hclose⟩
    by_contra hne
    have hsec : 1 ≤ finish.tvSec - start.tvSec := by
      unfold Timespec.ns at h
      have hnsec := finish.nsec_lt
      have hnsec' := start.nsec_nonneg
      omega
    have hsec' : (1 : ℚ) ≤ (finish.tvSec - start.tvSec : ℤ) := by exact_mod_cast hsec
    have hlow := (abs_le.mp hclose).1
    have hhigh := (abs_le.mp herror).2
    linarith
  · intro hsec
    refine ⟨sub_nonneg.mpr (round_le_round ?_), ?_⟩
    · unfold Timespec.ns at h
      rw [hsec] at h
      have hnsec : (start.tvNsec : ℚ) ≤ finish.tvNsec := by exact_mod_cast le_of_add_le_add_left h
      linarith
    · rw [hsec, sub_self, Int.cast_zero, mul_zero, add_zero] at herror
      exact herror

theorem elapsed_sound_sample :
    Sound ⟨7, 400000, by decide, by decide⟩ ⟨7, 1600000, by decide, by decide⟩ :=
  (elapsed_sound_iff (by decide)).mpr rfl

/-- One nanosecond passes, and the clock's second ends. -/
theorem elapsed_unsound :
    elapsedMs ⟨0, 999999999, by decide, by decide⟩ ⟨1, 0, by decide, by decide⟩ = -1000 ∧
      ¬Sound ⟨0, 999999999, by decide, by decide⟩ ⟨1, 0, by decide, by decide⟩ := by
  have hfirst : round (((999999999 : ℤ) : ℚ) / 1000000) = 1000 := by
    rw [round_eq_iff]
    norm_num
  have hsecond : round (((0 : ℤ) : ℚ) / 1000000) = 0 := by norm_num
  have helapsed :
      elapsedMs ⟨0, 999999999, by decide, by decide⟩ ⟨1, 0, by decide, by decide⟩ = -1000 := by
    unfold elapsedMs getTimeMs
    rw [hfirst, hsecond]
    rfl
  refine ⟨helapsed, fun h => ?_⟩
  have hneg := h.1
  rw [helapsed] at hneg
  contradiction

end FuzzMonitor.Elapsed
