import Mathlib.Algebra.BigOperators.Group.List.Basic
import Mathlib.Algebra.Order.BigOperators.Group.List
import Mathlib.Algebra.Order.Field.Basic
import Mathlib.Tactic.FieldSimp
import Mathlib.Tactic.Linarith
import Mathlib.Tactic.Ring

/-!
# The spread of a sample

Mean and variance of a finite list over an ordered field, against the range of its
values.

* `variance_le_of_range`: values between `a` and `b` have a variance of at most the
  square of half their distance;
* `sq_sub_le_variance`: two values at a distance `d` give `n` values a variance of at
  least `d ^ 2 / (2 * n)`.
-/

namespace Spread

variable {K : Type} [Field K]

def mean (xs : List K) : K := xs.sum / xs.length

def variance (xs : List K) : K := (xs.map fun x => (x - mean xs) ^ 2).sum / xs.length

/-! ## Deviations -/

/-- The squared deviations from one point in terms of those from another. -/
theorem sum_sq_shift (xs : List K) (m c : K) :
    (xs.map fun x => (x - c) ^ 2).sum =
      (xs.map fun x => (x - m) ^ 2).sum + 2 * (m - c) * (xs.sum - xs.length * m) +
        xs.length * (m - c) ^ 2 := by
  induction xs with
  | nil => simp
  | cons x xs ih =>
    simp only [List.map_cons, List.sum_cons, List.length_cons, ih]
    push_cast
    ring

variable [LinearOrder K] [IsStrictOrderedRing K]

theorem length_pos_of_ne_nil {xs : List K} (h : xs ≠ []) : (0 : K) < xs.length :=
  Nat.cast_pos.mpr (List.length_pos_of_ne_nil h)

theorem length_mul_mean {xs : List K} (h : xs ≠ []) : xs.length * mean xs = xs.sum :=
  mul_div_cancel₀ _ (length_pos_of_ne_nil h).ne'

/-- The mean is where the squared deviations are least. -/
theorem sum_sq_mean_le {xs : List K} (h : xs ≠ []) (c : K) :
    (xs.map fun x => (x - mean xs) ^ 2).sum ≤ (xs.map fun x => (x - c) ^ 2).sum := by
  rw [sum_sq_shift xs (mean xs) c, length_mul_mean h, sub_self, mul_zero, add_zero]
  exact le_add_of_nonneg_right (mul_nonneg (Nat.cast_nonneg _) (sq_nonneg _))

theorem mean_le {xs : List K} (hne : xs ≠ []) {b : K} (h : ∀ x ∈ xs, x ≤ b) : mean xs ≤ b := by
  rw [mean, div_le_iff₀' (length_pos_of_ne_nil hne), ← nsmul_eq_mul]
  exact List.sum_le_card_nsmul xs b h

theorem le_mean {xs : List K} (hne : xs ≠ []) {a : K} (h : ∀ x ∈ xs, a ≤ x) : a ≤ mean xs := by
  rw [mean, le_div_iff₀' (length_pos_of_ne_nil hne), ← nsmul_eq_mul]
  exact List.card_nsmul_le_sum xs a h

/-! ## Bounds -/

theorem variance_le_of_range {xs : List K} (hne : xs ≠ []) {a b : K}
    (h : ∀ x ∈ xs, a ≤ x ∧ x ≤ b) : variance xs ≤ ((b - a) / 2) ^ 2 := by
  rw [variance, div_le_iff₀' (length_pos_of_ne_nil hne)]
  refine (sum_sq_mean_le hne ((a + b) / 2)).trans ?_
  rw [← nsmul_eq_mul, ← List.length_map fun x => (x - (a + b) / 2) ^ 2]
  refine List.sum_le_card_nsmul _ _ fun y hy => ?_
  obtain ⟨x, hx, rfl⟩ := List.mem_map.mp hy
  obtain ⟨hlo, hhi⟩ := h x hx
  exact sq_le_sq' (by linarith) (by linarith)

theorem sum_sq_nonneg (xs : List K) (m : K) : 0 ≤ (xs.map fun x => (x - m) ^ 2).sum := by
  refine List.sum_nonneg fun y hy => ?_
  obtain ⟨x, -, rfl⟩ := List.mem_map.mp hy
  exact sq_nonneg _

theorem variance_nonneg (xs : List K) : 0 ≤ variance xs :=
  div_nonneg (sum_sq_nonneg xs _) (Nat.cast_nonneg _)

theorem sq_sub_le_variance {xs : List K} {x y : K} (hx : x ∈ xs) (hy : y ∈ xs) :
    (x - y) ^ 2 ≤ 2 * xs.length * variance xs := by
  have hne : xs ≠ [] := List.ne_nil_of_mem hx
  have hpos := length_pos_of_ne_nil hne
  rw [variance, mul_assoc, mul_div_cancel₀ _ hpos.ne']
  rcases eq_or_ne y x with rfl | hxy
  · rw [sub_self, zero_pow two_ne_zero]
    exact mul_nonneg zero_le_two (sum_sq_nonneg xs _)
  · -- the two values stand at different places of the list
    generalize mean xs = m
    classical
    have hy' : y ∈ xs.erase x := (List.mem_erase_of_ne hxy).mpr hy
    have hperm : xs.Perm (x :: y :: (xs.erase x).erase y) :=
      (List.perm_cons_erase hx).trans ((List.perm_cons_erase hy').cons x)
    rw [(hperm.map _).sum_eq, List.map_cons, List.map_cons, List.sum_cons, List.sum_cons]
    have hrest := sum_sq_nonneg ((xs.erase x).erase y) m
    nlinarith [sq_nonneg ((x - m) + (y - m))]

end Spread
