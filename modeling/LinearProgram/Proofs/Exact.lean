import Mathlib
import LinearProgram.StandardForm

namespace LinearProgram

theorem eps_pos : (0 : ℚ) < eps := by
  unfold eps
  norm_num

theorem eps_nonneg : (0 : ℚ) ≤ eps := eps_pos.le

@[simp] theorem isFinite_rat (x : ℚ) : Scalar.isFinite x = true := rfl

theorem total_eq_sum (xs : List ℚ) : total xs = xs.sum := by
  unfold total
  rw [List.sum_eq_foldl]
  rfl

@[simp] theorem magnitude_eq_abs (x : ℚ) : magnitude x = |x| := by
  unfold magnitude
  split_ifs with h
  · exact (abs_of_neg h).symm
  · exact (abs_of_nonneg (not_lt.mp h)).symm

@[simp] theorem clip_eq_max (x : ℚ) : clip x = max x 0 := by
  unfold clip
  split_ifs with h
  · exact (max_eq_left h.le).symm
  · exact (max_eq_right (not_lt.mp h)).symm

@[simp] theorem lesser_eq_min (x y : ℚ) : lesser x y = min x y := by
  unfold lesser
  split_ifs with h
  · exact (min_eq_right h.le).symm
  · exact (min_eq_left (not_lt.mp h)).symm

@[simp] theorem greater_eq_max (x y : ℚ) : greater x y = max x y := by
  unfold greater
  split_ifs with h
  · exact (max_eq_right h.le).symm
  · exact (max_eq_left (not_lt.mp h)).symm

theorem scalar_floor (x : ℚ) : Scalar.floor x = (⌊x⌋ : ℚ) := rfl

theorem scalar_ceil (x : ℚ) : Scalar.ceil x = (⌈x⌉ : ℚ) := by
  change ((x.ceil : ℤ) : ℚ) = ((-⌊-x⌋ : ℤ) : ℚ)
  rw [Rat.ceil_eq_neg_floor_neg]
  rfl

theorem scalar_round (x : ℚ) :
    Scalar.round x = if x < 0 then -(round (-x) : ℚ) else (round x : ℚ) := by
  have hceil : -round (-x) = (x - 1 / 2).ceil := by
    rw [Rat.ceil_eq_neg_floor_neg, round_eq, neg_sub', sub_neg_eq_add]
    rfl
  have hfloor : round x = (x + 1 / 2).floor := round_eq x
  rw [← Int.cast_neg, hceil, hfloor]
  rfl

-- Rounding goes to the nearest integer.
theorem abs_sub_round_le (x : ℚ) (z : ℤ) : |x - Scalar.round x| ≤ |x - z| := by
  rw [scalar_round]
  split_ifs
  · have hneg := round_le (-x) (-z)
    rwa [Int.cast_neg, ← neg_sub', abs_neg, ← abs_neg, neg_sub', neg_neg] at hneg
  · exact round_le x z

theorem dot_eq_sum {n : ℕ} (x y : Vector ℚ n) : dot x y = ∑ j, x.get j * y.get j := by
  unfold dot
  rw [total_eq_sum, List.sum_ofFn]

-- The tolerance takes the number for zero only if it is zero.
def Clear (x : ℚ) : Prop :=
  x = 0 ∨ eps < |x|

instance (x : ℚ) : Decidable (Clear x) :=
  inferInstanceAs (Decidable (_ ∨ _))

theorem Clear.nonpos {x : ℚ} (h : Clear x) (hle : x ≤ eps) : x ≤ 0 := by
  rcases h with rfl | hlarge
  · exact le_rfl
  · by_contra hpos
    rw [abs_of_pos (not_le.mp hpos)] at hlarge
    exact absurd hle (not_le.mpr hlarge)

theorem Clear.lt {x : ℚ} (h : Clear x) (hpos : 0 < x) : eps < x := by
  by_contra hle
  exact absurd (h.nonpos (not_lt.mp hle)) (not_le.mpr hpos)

theorem Clear.neg {x : ℚ} (h : Clear x) : Clear (-x) := by
  unfold Clear at h ⊢
  rwa [neg_eq_zero, abs_neg]

end LinearProgram
