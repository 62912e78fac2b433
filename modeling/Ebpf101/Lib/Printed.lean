import Mathlib.Algebra.Order.Field.Rat
import Mathlib.Data.Rat.Floor
import Mathlib.Tactic.Linarith
import Mathlib.Tactic.Positivity
import Ebpf101.Lib.Text

/-!
# Numbers in print

`printf` with `%.0f`, `%.1f` and so on of a number that is not negative: the exact value is
rounded to the nearest decimal with that many places, ties to even.

* `nearestEven_error`, `nearestEven_mono`: rounding is off by half at most and keeps the order;
* `readFixed_fixed`: what is printed reads back as the rounded value;
* `words_leftpad`, `words_rightpad`: blanks that fill a column are no part of its word.
-/

namespace Printed

/-! ## Definitions -/

/-- The nearest integer, ties to even. -/
def nearestEven (x : ℚ) : Nat :=
  if x - ⌊x⌋₊ < 1 / 2 then ⌊x⌋₊
  else if 1 / 2 < x - ⌊x⌋₊ then ⌊x⌋₊ + 1
  else ⌊x⌋₊ + ⌊x⌋₊ % 2

/-- `%u`. -/
def decimal (n : Nat) : List Char := Nat.toDigits 10 n

/-- `%.nf`. -/
def fixed (places : Nat) (x : ℚ) : List Char :=
  let m := nearestEven (x * 10 ^ places)
  if places = 0 then decimal m
  else decimal (m / 10 ^ places) ++ '.' :: (decimal (m % 10 ^ places)).leftpad places '0'

/-- Digits, with or without a point. -/
def readFixed (s : List Char) : Option ℚ :=
  let whole := s.takeWhile (· ≠ '.')
  let places := (s.dropWhile (· ≠ '.')).tail
  if whole ≠ [] ∧ (whole ++ places).all Char.isDigit then
    some (Nat.ofDigitChars 10 (whole ++ places) 0 / 10 ^ places.length)
  else none

/-- Digits only. -/
def readDecimal (s : List Char) : Option Nat :=
  if s ≠ [] ∧ s.all Char.isDigit then some (Nat.ofDigitChars 10 s 0) else none

/-! ## Rounding -/

theorem nearestEven_error {x : ℚ} (hx : 0 ≤ x) : |(nearestEven x : ℚ) - x| ≤ 1 / 2 := by
  have hlow := Nat.floor_le hx
  have hhigh := Nat.lt_floor_add_one x
  rw [nearestEven, abs_le]
  split
  · exact ⟨by linarith, by linarith⟩
  · split
    · push_cast
      exact ⟨by linarith, by linarith⟩
    · have hmod : ((⌊x⌋₊ % 2 : Nat) : ℚ) ≤ 1 := by
        exact_mod_cast Nat.le_of_lt_succ (Nat.mod_lt _ Nat.two_pos)
      have hnonneg : (0 : ℚ) ≤ (⌊x⌋₊ % 2 : Nat) := Nat.cast_nonneg _
      push_cast [Nat.cast_add]
      exact ⟨by linarith, by linarith⟩

theorem nearestEven_natCast (n : Nat) : nearestEven n = n := by
  rw [nearestEven, Nat.floor_natCast, sub_self, if_pos (by norm_num)]

/-- An integer is not passed. -/
theorem nearestEven_le {x : ℚ} (hx : 0 ≤ x) {n : Nat} (h : x ≤ n) : nearestEven x ≤ n := by
  have herror := abs_le.mp (nearestEven_error hx)
  by_contra hlt
  have hnext : (n : ℚ) + 1 ≤ nearestEven x := by exact_mod_cast Nat.not_le.mp hlt
  linarith [herror.2]

theorem le_nearestEven {x : ℚ} {n : Nat} (h : (n : ℚ) ≤ x) : n ≤ nearestEven x := by
  have hx : 0 ≤ x := (Nat.cast_nonneg n).trans h
  have herror := abs_le.mp (nearestEven_error hx)
  by_contra hlt
  have hnext : (nearestEven x : ℚ) + 1 ≤ n := by exact_mod_cast Nat.not_le.mp hlt
  linarith [herror.1]

theorem nearestEven_mono {x y : ℚ} (hx : 0 ≤ x) (h : x ≤ y) : nearestEven x ≤ nearestEven y := by
  rcases (Nat.floor_mono h).lt_or_eq with hlt | heq
  · -- An integer lies between them.
    have hceil : x ≤ (⌊x⌋₊ + 1 : Nat) := by exact_mod_cast (Nat.lt_floor_add_one x).le
    have hfloor : ((⌊x⌋₊ + 1 : Nat) : ℚ) ≤ y :=
      (Nat.cast_le.mpr hlt).trans (Nat.floor_le (hx.trans h))
    exact (nearestEven_le hx hceil).trans (le_nearestEven hfloor)
  · have hmod := Nat.le_of_lt_succ (Nat.mod_lt ⌊y⌋₊ Nat.two_pos)
    rw [nearestEven, nearestEven, heq]
    split_ifs <;> first | omega | (exfalso; linarith)

/-! ## Reading -/

theorem isDigit_decimal {n : Nat} {c : Char} (h : c ∈ decimal n) : c.isDigit = true :=
  Nat.isDigit_of_mem_toDigits (by decide) (by decide) h

theorem decimal_ne_nil (n : Nat) : decimal n ≠ [] := Nat.toDigits_ne_nil

theorem ofDigitChars_decimal (n : Nat) : Nat.ofDigitChars 10 (decimal n) 0 = n :=
  Nat.ofDigitChars_toDigits (by decide) (by decide)

theorem readDecimal_decimal (n : Nat) : readDecimal (decimal n) = some n := by
  rw [readDecimal, if_pos ⟨decimal_ne_nil n, List.all_eq_true.mpr fun c hc => isDigit_decimal hc⟩,
    ofDigitChars_decimal]

/-- A character that is no digit is not printed for a number. -/
theorem notMem_decimal {c : Char} (hc : c.isDigit = false) (n : Nat) : c ∉ decimal n := by
  intro h
  rw [isDigit_decimal h] at hc
  cases hc

theorem isDigit_leftpad {n k : Nat} {c : Char} (h : c ∈ (decimal n).leftpad k '0') :
    c.isDigit = true := by
  rw [List.leftpad, List.mem_append, List.mem_replicate] at h
  rcases h with ⟨-, rfl⟩ | h
  · decide
  · exact isDigit_decimal h

theorem length_leftpad_decimal {n k : Nat} (hk : 0 < k) (h : n < 10 ^ k) :
    ((decimal n).leftpad k '0').length = k := by
  rw [List.length_leftpad]
  exact Nat.max_eq_left ((Nat.length_toDigits_le_iff (by decide) hk).mpr h)

theorem ofDigitChars_leftpad (n k : Nat) :
    Nat.ofDigitChars 10 ((decimal n).leftpad k '0') 0 = n := by
  rw [List.leftpad, Nat.ofDigitChars_append, Nat.ofDigitChars_replicate_zero, Nat.mul_zero,
    ofDigitChars_decimal]

theorem readFixed_fixed (places : Nat) (x : ℚ) :
    readFixed (fixed places x) = some ((nearestEven (x * 10 ^ places) : ℚ) / 10 ^ places) := by
  have hdot : ∀ n, ∀ c ∈ decimal n, decide (c ≠ '.') = true := fun n c hc =>
    decide_eq_true fun he => notMem_decimal (by decide) n (he ▸ hc)
  unfold fixed readFixed
  generalize nearestEven (x * 10 ^ places) = m
  dsimp only
  split
  · next hzero =>
    subst hzero
    rw [List.takeWhile_eq_self_iff.mpr (hdot m), List.dropWhile_eq_nil_iff.mpr (hdot m),
      List.tail_nil, List.append_nil,
      if_pos ⟨decimal_ne_nil m, List.all_eq_true.mpr fun c hc => isDigit_decimal hc⟩,
      ofDigitChars_decimal]
    rfl
  · next hpos =>
    have hmod : m % 10 ^ places < 10 ^ places := Nat.mod_lt _ (by positivity)
    have hlen := length_leftpad_decimal (Nat.pos_of_ne_zero hpos) hmod
    have hdigits : ∀ c ∈ decimal (m / 10 ^ places) ++
        (decimal (m % 10 ^ places)).leftpad places '0',
        c.isDigit = true := by
      intro c hc
      rcases List.mem_append.mp hc with h | h
      · exact isDigit_decimal h
      · exact isDigit_leftpad h
    have hnumber : Nat.ofDigitChars 10
        (decimal (m / 10 ^ places) ++ (decimal (m % 10 ^ places)).leftpad places '0') 0 = m := by
      rw [Nat.ofDigitChars_append, Nat.ofDigitChars_eq_ofDigitChars_zero, ofDigitChars_decimal,
        ofDigitChars_leftpad, hlen]
      exact Nat.div_add_mod m (10 ^ places)
    rw [List.takeWhile_append_of_pos (hdot _), List.dropWhile_append_of_pos (hdot _),
      List.takeWhile_cons_of_neg (by simp), List.dropWhile_cons_of_neg (by simp), List.tail_cons,
      List.append_nil, if_pos ⟨decimal_ne_nil _, List.all_eq_true.mpr hdigits⟩, hnumber, hlen]

/-- What stands in the text of a number. -/
theorem mem_fixed {places : Nat} {x : ℚ} {c : Char} (h : c ∈ fixed places x) :
    c.isDigit = true ∨ c = '.' := by
  unfold fixed at h
  dsimp only at h
  split at h
  · exact .inl (isDigit_decimal h)
  · rcases List.mem_append.mp h with hw | hp
    · exact .inl (isDigit_decimal hw)
    · rcases List.mem_cons.mp hp with rfl | hp
      · exact .inr rfl
      · exact .inl (isDigit_leftpad hp)

/-- How much room the text needs. -/
theorem length_fixed_le (places : Nat) {x : ℚ} (hx : 0 ≤ x) {k : Nat} (hk : 0 < k)
    (h : x + 1 ≤ 10 ^ k) :
    (fixed places x).length ≤ k + 1 + places := by
  have hround : nearestEven (x * 10 ^ places) < 10 ^ (k + places) := by
    have hscale : (0 : ℚ) < 10 ^ places := by positivity
    have hone : (1 : ℚ) ≤ 10 ^ places := one_le_pow₀ (by norm_num)
    have hupper : x * 10 ^ places ≤ ((10 ^ (k + places) - 1 : Nat) : ℚ) := by
      rw [Nat.cast_sub (Nat.one_le_pow _ _ (by decide))]
      push_cast
      rw [pow_add]
      nlinarith
    have hle := nearestEven_le (by positivity) hupper
    have hpos : 0 < 10 ^ (k + places) := by positivity
    omega
  unfold fixed
  dsimp only
  split
  · next hzero =>
    subst hzero
    have := (Nat.length_toDigits_le_iff (by decide) hk).mpr hround
    rw [decimal]
    omega
  · next hpos =>
    have hdiv : nearestEven (x * 10 ^ places) / 10 ^ places < 10 ^ k := by
      rw [Nat.div_lt_iff_lt_mul (by positivity), ← pow_add]
      exact hround
    have hmod : nearestEven (x * 10 ^ places) % 10 ^ places < 10 ^ places :=
      Nat.mod_lt _ (by positivity)
    have hlen := length_leftpad_decimal (Nat.pos_of_ne_zero hpos) hmod
    have hwhole := (Nat.length_toDigits_le_iff (by decide) hk).mpr hdiv
    rw [List.length_append, List.length_cons, hlen, decimal]
    omega

/-! ## Columns -/

theorem words_leftpad (n : Nat) (s : List Char) :
    Text.words (· == ' ') (s.leftpad n ' ') = Text.words (· == ' ') s := by
  rw [List.leftpad]
  exact Text.words_seps_append (fun c hc => by rw [(List.mem_replicate.mp hc).2]; rfl) s

theorem words_rightpad (n : Nat) (s : List Char) :
    Text.words (· == ' ') (s.rightpad n ' ') = Text.words (· == ' ') s := by
  rw [List.rightpad]
  induction n - s.length with
  | zero => rw [List.replicate_zero, List.append_nil]
  | succ k ih =>
    rw [List.replicate_succ', ← List.append_assoc, Text.words_append_sep rfl, Text.words_nil,
      List.append_nil, ih]

end Printed
