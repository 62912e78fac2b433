import Mathlib.Analysis.Real.Sqrt
import Mathlib.Tactic.Linarith
import Mathlib.Tactic.Positivity
import Ebpf101.Lib.Spread
import Ebpf101.Ids.FlowTable

/-!
# Beacons

Rule 1 of the detector keeps, for each flow, a ring of the last eight gaps and a
flag. The reference detector here keeps the flow's whole history of timestamps.

Results:
1. `beacon_refines_reference`: packet by packet, the rule raises what the
   reference raises for the packet's own flow, if that is among the first
   `MAX_FLOWS`, and nothing otherwise; so a flow is reported at most once.
-/

namespace Ebpf101.Ids

open Runs SlotTable
open Spread (mean variance)

/-! ## The reference detector -/

/-- The gaps between consecutive timestamps, in seconds. -/
def gapsOf : List UInt64 → List ℚ
  | a :: b :: ts => ((b.toNat : ℚ) - a.toNat) / 1000000000 :: gapsOf (b :: ts)
  | _ => []

/-- The last eight gaps, or all of them if there are fewer. -/
def recent (ts : List UInt64) : List ℚ := (gapsOf ts).drop ((gapsOf ts).length - 8)

noncomputable def stddev (xs : List ℚ) : ℝ := √((variance xs : ℚ) : ℝ)

/-- At least five gaps, between one second and five minutes on average, with a
standard deviation of at most a tenth of their mean. -/
def Regular (ts : List UInt64) : Prop :=
  5 ≤ (recent ts).length ∧ 1 ≤ mean (recent ts) ∧ mean (recent ts) ≤ 300 ∧
  stddev (recent ts) / ((mean (recent ts) : ℚ) : ℝ) ≤ 1 / 10

/-- The history is regular for the first time. -/
def FirstRegular (ts : List UInt64) : Prop :=
  Regular ts ∧ ∀ n < ts.length, ¬ Regular (ts.take n)

open Classical in
/-- What the reference raises at packet `p`, the last of a flow whose packets
came at the times `ts`. -/
noncomputable def reference (p : FlowPkt) (ts : List UInt64) : List Alert :=
  if FirstRegular ts then
    [.beacon p.saddr p.daddr (ntohs p.dport) (mean (recent ts)) (variance (recent ts))
      ((recent ts).length + 1)]
  else []

/-! ## Statements -/

/-- The times of a flow's packets. -/
def stamps (k : FlowKey) (ps : List FlowPkt) : List UInt64 := (ofFlow k ps).map FlowPkt.tsNs

def Alert.isBeacon : Alert → Bool
  | .beacon .. => true
  | _ => false

/-- The beacon alerts of a packet. -/
def beacons (as : List Alert) : List Alert := as.filter Alert.isBeacon

/-- The beacon alerts raised at the packets of a flow. -/
def beaconsOf (k : FlowKey) (ps : List FlowPkt) : List Alert :=
  ((ps.zip (outs handleEvent State.init ps)).filter fun x => x.1.key = k).flatMap
    fun x => beacons x.2

namespace BeaconLemmas

open FlowTableLemmas

/-! ## Gaps and their statistics -/

theorem gapsOf_snoc (ts : List UInt64) (l t : UInt64) :
    gapsOf (ts ++ [l] ++ [t]) =
      gapsOf (ts ++ [l]) ++ [((t.toNat : ℚ) - l.toNat) / 1000000000] := by
  induction ts with
  | nil => rfl
  | cons a ts ih =>
    cases ts with
    | nil => rfl
    | cons b ts => simpa [gapsOf] using ih

theorem length_gapsOf (ts : List UInt64) : (gapsOf ts).length = ts.length - 1 := by
  induction ts with
  | nil => rfl
  | cons a ts ih =>
    cases ts with
    | nil => rfl
    | cons b ts => simpa [gapsOf] using ih

/-- Comparing squares compares the coefficient of variation. -/
theorem cvExceeds_eq_false_iff {m v : ℚ} (hm : 0 < m) (hv : 0 ≤ v) :
    cvExceeds m v = false ↔ √(v : ℝ) / (m : ℝ) ≤ 1 / 10 := by
  have hm' : (0 : ℝ) < m := by exact_mod_cast hm
  have hv' : (0 : ℝ) ≤ v := by exact_mod_cast hv
  rw [div_le_iff₀ hm', Real.sqrt_le_left (by positivity)]
  rw [cvExceeds, if_pos hm, decide_eq_false_iff_not, not_lt, BEACON_CV_MAX]
  rw [show (1 / 10 * (m : ℝ)) ^ 2 = (((1 / 10) ^ 2 * m ^ 2 : ℚ) : ℝ) by push_cast; ring]
  exact Rat.cast_le.symm

/-- The test of the reference in the terms of the rule. -/
theorem regular_iff (ts : List UInt64) :
    Regular ts ↔ 5 ≤ (recent ts).length ∧ 1 ≤ mean (recent ts) ∧ mean (recent ts) ≤ 300 ∧
      cvExceeds (mean (recent ts)) (variance (recent ts)) = false := by
  refine and_congr_right fun _ => and_congr_right fun hm => and_congr_right fun _ => ?_
  exact (cvExceeds_eq_false_iff (by linarith) (Spread.variance_nonneg _)).symm

theorem length_recent (ts : List UInt64) :
    (recent ts).length = min (gapsOf ts).length MAX_GAPS := by
  rw [recent, List.length_drop, MAX_GAPS]
  omega

/-! ## One flow -/

/-- The flow remembers the last of the timestamps `ts` and their last gaps. -/
structure Tracks (ts : List UInt64) (f : Flow) : Prop where
  lastTs : f.lastTs = ts.getLast?.getD 0
  ngaps : f.ngaps = (gapsOf ts).length
  window : InPlace.Window (gapsOf ts) f.gaps

theorem tracks_fresh : Tracks [] Flow.fresh :=
  ⟨rfl, rfl, InPlace.window_nil _⟩

/-- Storing the next gap of a flow that has seen fewer than 2^31 packets. -/
theorem storeGap_eq {f : Flow} {n : Nat} (hn : f.ngaps = n) (hlt : n + 1 < 2 ^ 31) (gap : ℚ) :
    (f.storeGap gap).gaps = f.gaps.set (n % f.gaps.length) gap ∧
    (f.storeGap gap).ngaps = (n + 1 : Nat) := by
  have hidx : f.ngaps.tmod MAX_GAPS = ((n % MAX_GAPS : Nat) : Int) := by
    rw [hn, Int.tmod_eq_emod_of_nonneg (Int.natCast_nonneg n), Int.natCast_emod]
  constructor
  · simp only [Flow.storeGap, hidx, Int.natCast_nonneg, if_true, Int.toNat_natCast, f.gaps_length]
  · rw [← int32_of_lt hlt]
    simp only [Flow.storeGap, hn, Nat.cast_add, Nat.cast_one]

/-- A packet extends the history by its timestamp. -/
theorem Tracks.observe {ts : List UInt64} {f : Flow} (h : Tracks ts f) {p : FlowPkt}
    (hin : InOrder (ts ++ [p.tsNs])) (hlen : (ts ++ [p.tsNs]).length < 2 ^ 31) :
    Tracks (ts ++ [p.tsNs]) (f.observe p) := by
  rcases List.eq_nil_or_concat ts with rfl | ⟨ts', l, rfl⟩
  · have h0 : f.lastTs = 0 := h.lastTs
    have hobs : f.observe p = { f with lastTs := p.tsNs } := by simp [Flow.observe, h0]
    rw [hobs]
    exact ⟨rfl, h.ngaps, InPlace.window_nil _⟩
  · rw [List.concat_eq_append] at *
    have hl : f.lastTs = l := by rw [h.lastTs]; simp
    have hle : l ≤ p.tsNs :=
      (List.pairwise_append.mp hin.sorted).2.2 l (by simp) _ (List.mem_singleton_self _)
    have hne : f.lastTs ≠ 0 := by
      rw [hl]
      exact Ne.symm (UInt64.ne_of_lt (hin.pos l (by simp)))
    have hcount : (gapsOf (ts' ++ [l])).length + 1 < 2 ^ 31 := by
      rw [length_gapsOf]
      simp at hlen ⊢
      omega
    obtain ⟨hgaps, hngaps⟩ := storeGap_eq h.ngaps hcount (gapSecs f.lastTs p.tsNs)
    have hobs : f.observe p =
        { f.storeGap (gapSecs f.lastTs p.tsNs) with lastTs := p.tsNs } := by
      simp [Flow.observe, hne]
    rw [hl, gapSecs_eq hle] at hgaps hngaps hobs
    rw [hobs]
    refine ⟨by simp, ?_, ?_⟩
    · rw [gapsOf_snoc, List.length_append]
      exact hngaps
    · rw [gapsOf_snoc]
      show InPlace.Window _ (f.storeGap _).gaps
      rw [hgaps]
      exact h.window.push (by rw [f.gaps_length]; decide) _

@[simp] theorem beaconAlerted_observe (f : Flow) (p : FlowPkt) :
    (f.observe p).beaconAlerted = f.beaconAlerted := by
  unfold Flow.observe Flow.storeGap
  split <;> rfl

/-- The rule judges what the reference judges: the ring holds the same gaps, in
some order. -/
theorem Tracks.judged {ts : List UInt64} {f : Flow} (h : Tracks ts f) :
    f.samples = ((recent ts).length : Int) ∧ f.meanGap = mean (recent ts) ∧
    f.varGap = variance (recent ts) := by
  have hn : f.samples = ((recent ts).length : Int) := by
    rw [Flow.samples, h.ngaps, length_recent]
    split <;> omega
  have hperm : (f.gaps.take f.samples.toNat).Perm (recent ts) := by
    have hp := h.window.perm
    rw [f.gaps_length, ← length_recent] at hp
    rw [hn, Int.toNat_natCast]
    exact hp
  have hmean : f.meanGap = mean (recent ts) := by
    rw [Flow.meanGap, hperm.sum_eq, hn, Int.cast_natCast, mean]
  refine ⟨hn, hmean, ?_⟩
  rw [Flow.varGap, hmean, (hperm.map _).sum_eq, hn, Int.cast_natCast, variance]
  simp only [sq]

/-- The alert of the rule for a regular history. -/
def beaconAlert (p : FlowPkt) (ts : List UInt64) : Alert :=
  .beacon p.saddr p.daddr (ntohs p.dport) (mean (recent ts)) (variance (recent ts))
    ((recent ts).length + 1)

open Classical in
/-- The rule alerts when the history is regular and the flag is not set. -/
theorem ruleBeacon_eq {ts : List UInt64} {f : Flow} {p : FlowPkt} (h : Tracks ts (f.observe p)) :
    ruleBeacon f p =
      if f.beaconAlerted = false ∧ Regular ts then
        ({ f.observe p with beaconAlerted := true }, some (beaconAlert p ts))
      else (f.observe p, none) := by
  obtain ⟨hn, hmean, hvar⟩ := h.judged
  have hfew : ((f.observe p).beaconAlerted || (f.observe p).samples < BEACON_MIN_SAMPLES) = true ↔
      f.beaconAlerted = true ∨ (recent ts).length < 5 := by
    rw [hn, beaconAlerted_observe]
    simp [BEACON_MIN_SAMPLES]
  have hrange : ((f.observe p).meanGap < BEACON_MIN_INTERVAL ||
      BEACON_MAX_INTERVAL < (f.observe p).meanGap) = true ↔
      mean (recent ts) < 1 ∨ 300 < mean (recent ts) := by
    rw [hmean, Bool.or_eq_true, decide_eq_true_eq, decide_eq_true_eq]
    exact Iff.rfl
  rw [regular_iff]
  simp only [ruleBeacon]
  -- the tests of the rule one after the other against those of the reference
  split
  · next h1 => rw [if_neg (fun hc => by omega)]
  · split
    · next h2 =>
      rw [hfew] at h2
      rw [if_neg]
      rintro ⟨hal, h5, -⟩
      rcases h2 with h2 | h2
      · simp [hal] at h2
      · omega
    · next h2 =>
      rw [hfew, not_or, Bool.not_eq_true, Nat.not_lt] at h2
      split
      · next h3 =>
        rw [hrange] at h3
        rw [if_neg]
        rintro ⟨-, -, hlo, hhi, -⟩
        rcases h3 with h3 | h3 <;> linarith
      · next h3 =>
        rw [hrange, not_or, not_lt, not_lt] at h3
        rw [hn, hmean, hvar]
        cases hcv : cvExceeds (mean (recent ts)) (variance (recent ts)) with
        | true => simp
        | false =>
          rw [if_neg Bool.false_ne_true, if_pos ⟨h2.1, h2.2, h3.1, h3.2, rfl⟩]
          rfl

/-- The flag is set once some prefix of the history was regular. -/
structure FlowInv (ts : List UInt64) (f : Flow) : Prop extends Tracks ts f where
  alerted : f.beaconAlerted = true ↔ ∃ n, Regular (ts.take n)

theorem ruleSuspiciousPort_frame (f : Flow) (p : FlowPkt) :
    (ruleSuspiciousPort f p).1.lastTs = f.lastTs ∧ (ruleSuspiciousPort f p).1.gaps = f.gaps ∧
    (ruleSuspiciousPort f p).1.ngaps = f.ngaps ∧
    (ruleSuspiciousPort f p).1.beaconAlerted = f.beaconAlerted ∧
    ∀ a ∈ (ruleSuspiciousPort f p).2, a.isBeacon = false := by
  rcases ruleSuspiciousPort_cases f p with h | ⟨s, h⟩
  · simp [h]
  · simp [h, Alert.isBeacon]

theorem not_regular_nil : ¬ Regular [] := fun h => absurd h.1 (by simp [recent, gapsOf])

/-- A prefix of a history is one of any longer history. -/
theorem take_snoc (ts : List UInt64) (t : UInt64) (n : Nat) :
    (ts ++ [t]).take (min n ts.length) = ts.take n := by
  rw [List.take_append_of_le_length (Nat.min_le_right _ _), ← List.take_take, List.take_length]

/-- The prefixes of a history that is one longer. -/
theorem exists_regular_snoc (ts : List UInt64) (t : UInt64) :
    (∃ n, Regular ((ts ++ [t]).take n)) ↔ (∃ n, Regular (ts.take n)) ∨ Regular (ts ++ [t]) := by
  constructor
  · rintro ⟨n, hn⟩
    rcases Nat.lt_or_ge n (ts.length + 1) with hlt | hge
    · rw [List.take_append_of_le_length (Nat.le_of_lt_succ hlt)] at hn
      exact Or.inl ⟨n, hn⟩
    · rw [List.take_of_length_le (by simpa using hge)] at hn
      exact Or.inr hn
  · rintro (⟨n, hn⟩ | h)
    · exact ⟨min n ts.length, by rwa [take_snoc]⟩
    · exact ⟨(ts ++ [t]).length, by rwa [List.take_length]⟩

theorem firstRegular_snoc (ts : List UInt64) (t : UInt64) :
    FirstRegular (ts ++ [t]) ↔ Regular (ts ++ [t]) ∧ ¬ ∃ n, Regular (ts.take n) := by
  refine and_congr_right fun _ => ?_
  constructor
  · rintro h ⟨n, hn⟩
    exact h (min n ts.length) (by simp) (by rwa [take_snoc])
  · intro h n hn hreg
    rw [List.length_append, List.length_singleton] at hn
    rw [List.take_append_of_le_length (Nat.le_of_lt_succ hn)] at hreg
    exact h ⟨n, hreg⟩

/-- One packet of a flow. -/
theorem FlowInv.step {ts : List UInt64} {f : Flow} (h : FlowInv ts f) {p : FlowPkt}
    (hin : InOrder (ts ++ [p.tsNs])) (hlen : (ts ++ [p.tsNs]).length < 2 ^ 31) :
    FlowInv (ts ++ [p.tsNs]) (flowRules f p).1 ∧
    beacons (flowRules f p).2 = reference p (ts ++ [p.tsNs]) := by
  classical
  have hobs := h.toTracks.observe hin hlen
  have hrule := ruleBeacon_eq hobs
  obtain ⟨hl, hg, hn, ha, hout⟩ := ruleSuspiciousPort_frame (ruleBeacon f p).1 p
  have hsusp : beacons (ruleSuspiciousPort (ruleBeacon f p).1 p).2.toList = [] := by
    rw [beacons, List.filter_eq_nil_iff]
    intro a hmem
    simp [hout a (by simpa using hmem)]
  have hfirst : (f.beaconAlerted = false ∧ Regular (ts ++ [p.tsNs])) ↔
      FirstRegular (ts ++ [p.tsNs]) := by
    rw [firstRegular_snoc, ← h.alerted, Bool.not_eq_true, and_comm]
  have hflag : (ruleBeacon f p).1.beaconAlerted = true ↔
      f.beaconAlerted = true ∨ Regular (ts ++ [p.tsNs]) := by
    rw [hrule]
    split
    · next hc => simp [hc.2]
    · next hc =>
      rw [beaconAlerted_observe]
      cases hal : f.beaconAlerted <;> simp_all
  constructor
  · have htr : Tracks (ts ++ [p.tsNs]) (ruleBeacon f p).1 := by
      rw [hrule]
      split
      · exact ⟨hobs.lastTs, hobs.ngaps, hobs.window⟩
      · exact hobs
    refine ⟨⟨hl.trans htr.lastTs, hn.trans htr.ngaps, ?_⟩, ?_⟩
    · show InPlace.Window _ (ruleSuspiciousPort (ruleBeacon f p).1 p).1.gaps
      rw [hg]
      exact htr.window
    · show (ruleSuspiciousPort (ruleBeacon f p).1 p).1.beaconAlerted = true ↔ _
      rw [ha, hflag, exists_regular_snoc, h.alerted]
  · show beacons ((ruleBeacon f p).2.toList ++ _) = _
    rw [beacons, List.filter_append]
    rw [beacons] at hsusp
    rw [hsusp, List.append_nil, hrule, reference]
    simp only [hfirst]
    split <;> rfl

/-! ## Whole runs -/

theorem ofFlow_sublist (k : FlowKey) (ps : List FlowPkt) : (ofFlow k ps).Sublist ps :=
  List.filter_sublist

theorem stamps_snoc (k : FlowKey) (ps : List FlowPkt) (p : FlowPkt) :
    stamps k (ps ++ [p]) = if p.key = k then stamps k ps ++ [p.tsNs] else stamps k ps := by
  unfold stamps ofFlow
  rw [own_snoc]
  split
  · rw [List.map_append, List.map_singleton]
  · rfl

/-- A flow that is alone with its packets. -/
theorem flowInv_flowAfter {ps : List FlowPkt} (hin : InOrder (ps.map FlowPkt.tsNs))
    (hlen : ps.length < 2 ^ 31) : FlowInv (ps.map FlowPkt.tsNs) (flowAfter ps) := by
  induction ps using List.reverseRecOn with
  | nil => exact ⟨tracks_fresh, by simpa [flowAfter, Flow.fresh] using not_regular_nil⟩
  | append_singleton ps p ih =>
    rw [List.map_append, List.map_singleton] at hin ⊢
    rw [List.length_append, List.length_singleton] at hlen
    have hpre := ih (hin.sublist (List.sublist_append_left _ _)) (by omega)
    rw [flowAfter, exec_snoc]
    exact (hpre.step hin (by simpa using hlen)).1

theorem scanSource_not_beacon (sc : ScanSrc) (p : FlowPkt) :
    beacons (scanSource sc p).2.toList = [] := by
  unfold scanSource ScanSrc.judge
  split <;> simp [beacons, Alert.isBeacon]

/-- The hypotheses of a run, for the packets of one flow up to a packet. -/
theorem flow_hyps {ps pre post : List FlowPkt} {p : FlowPkt}
    (hin : InOrder (ps.map FlowPkt.tsNs)) (hlen : ∀ k, (ofFlow k ps).length < 2 ^ 31)
    (he : ps = pre ++ p :: post) (k : FlowKey) :
    InOrder (stamps k (pre ++ [p])) ∧ (stamps k (pre ++ [p])).length < 2 ^ 31 := by
  have hsub := sublist_of_split he
  have hown : (ofFlow k (pre ++ [p])).Sublist (ofFlow k ps) := hsub.filter _
  refine ⟨hin.sublist (((ofFlow_sublist k _).trans hsub).map _), ?_⟩
  rw [stamps, List.length_map]
  exact Nat.lt_of_le_of_lt hown.length_le (hlen k)

/-- One packet of a run. -/
theorem beacons_at {ps pre post : List FlowPkt} {p : FlowPkt}
    (hin : InOrder (ps.map FlowPkt.tsNs)) (hlen : ∀ k, (ofFlow k ps).length < 2 ^ 31)
    (he : ps = pre ++ p :: post) :
    beacons (handleEvent (after pre) p).2 =
      if FlowTracked p.key (pre ++ [p]) then reference p (stamps p.key (pre ++ [p])) else [] := by
  obtain ⟨hin', hlen'⟩ := flow_hyps hin hlen he p.key
  rw [stamps_snoc, if_pos rfl] at hin' hlen' ⊢
  have hinv : FlowInv (stamps p.key pre) (flowAfter (ofFlow p.key pre)) := by
    refine flowInv_flowAfter (hin'.sublist (List.sublist_append_left _ _)) ?_
    simp [stamps] at hlen'
    omega
  have hstep := (hinv.step hin' hlen').2
  have hfit : GapsFit (pre ++ [p]) := gapsFit_at (gapsFit_of_flows hlen) he
  rw [handleEvent_alerts (within_of_gapsFit hfit), beacons, List.filter_append]
  have hscan : List.filter Alert.isBeacon (if SourceTracked p.saddr (pre ++ [p]) then
      (scanSource (sourceAfter (ofSource p.saddr pre)) p).2.toList else []) = [] := by
    split
    · exact scanSource_not_beacon _ _
    · rfl
  rw [hscan, List.append_nil, ← hstep]
  exact apply_ite (List.filter Alert.isBeacon) _ _ _

theorem beaconsOf_snoc (k : FlowKey) (ps : List FlowPkt) (p : FlowPkt) :
    beaconsOf k (ps ++ [p]) =
      beaconsOf k ps ++ if p.key = k then beacons (handleEvent (after ps) p).2 else [] := by
  unfold beaconsOf
  rw [outs_snoc, List.zip_append (length_outs ps).symm, List.filter_append, List.flatMap_append]
  congr 1
  split <;> simp_all [after]

theorem flowTracked_snoc_of_ne {k : FlowKey} {ps : List FlowPkt} {p : FlowPkt} (h : p.key ≠ k) :
    FlowTracked k (ps ++ [p]) ↔ FlowTracked k ps := by
  unfold FlowTracked
  rw [List.map_append, List.map_singleton, mem_admitted_snoc_of_ne (Ne.symm h)]

/-- A flow that has packets already is tracked or not for good. -/
theorem flowTracked_snoc_of_mem {k : FlowKey} {ps : List FlowPkt} (p : FlowPkt)
    (h : stamps k ps ≠ []) : FlowTracked k (ps ++ [p]) ↔ FlowTracked k ps := by
  have hmem : k ∈ ps.map FlowPkt.key := by
    by_contra hno
    exact h (by rw [stamps, ofFlow, own_eq_nil hno]; rfl)
  unfold FlowTracked
  rw [List.map_append, List.map_singleton, mem_admitted_snoc_of_mem hmem]

/-- No more than one alert, and that at the first regular history. -/
theorem reference_length (p : FlowPkt) (ts : List UInt64) :
    (reference p ts).length ≤ 1 ∧ (reference p ts ≠ [] ↔ FirstRegular ts) := by
  unfold reference
  split
  · next h => exact ⟨Nat.le_refl 1, by simp [h]⟩
  · next h => exact ⟨Nat.zero_le 1, by simp [h]⟩

/-- A flow whose packets raise what the reference raises is reported once, if it
is tracked and its history becomes regular. -/
theorem reported_once {ps : List FlowPkt}
    (hat : Along (fun pre p => beacons (handleEvent (after pre) p).2 =
      if FlowTracked p.key (pre ++ [p]) then reference p (stamps p.key (pre ++ [p])) else []) ps)
    (k : FlowKey) : (beaconsOf k ps).length ≤ 1 ∧
      (beaconsOf k ps ≠ [] ↔ FlowTracked k ps ∧ ∃ n, Regular ((stamps k ps).take n)) := by
  induction ps using List.reverseRecOn with
  | nil => simpa [beaconsOf, stamps, ofFlow, own] using fun _ => not_regular_nil
  | append_singleton ps p ih =>
    obtain ⟨hone, hiff⟩ := ih hat.left
    have hp := hat.last
    rw [beaconsOf_snoc]
    by_cases hk : p.key = k
    · have hmem : (∃ n, Regular ((stamps k ps).take n)) →
          (FlowTracked k (ps ++ [p]) ↔ FlowTracked k ps) := by
        rintro ⟨n, hn⟩
        refine flowTracked_snoc_of_mem p fun hnil => ?_
        rw [hnil, List.take_nil] at hn
        exact not_regular_nil hn
      rw [if_pos hk, hp, hk, stamps_snoc, if_pos hk, exists_regular_snoc]
      obtain ⟨hle, hne⟩ := reference_length p (stamps k ps ++ [p.tsNs])
      rw [firstRegular_snoc] at hne
      by_cases hr : ∃ n, Regular ((stamps k ps).take n)
      · -- reported before: the history is not regular for the first time
        have hnil : reference p (stamps k ps ++ [p.tsNs]) = [] := by
          by_contra h
          exact (hne.mp h).2 hr
        rw [hnil, ite_self, List.append_nil, hmem hr]
        exact ⟨hone, by simpa [hr] using hiff⟩
      · have hnil : beaconsOf k ps = [] := by
          by_contra h
          exact hr (hiff.mp h).2
        rw [hnil, List.nil_append]
        split
        · next ht =>
          refine ⟨hle, hne.trans ?_⟩
          simp [hr, ht]
        · next ht => exact ⟨Nat.zero_le 1, by simp [ht]⟩
    · rw [if_neg hk, List.append_nil, flowTracked_snoc_of_ne hk, stamps_snoc, if_neg hk]
      exact ⟨hone, hiff⟩

end BeaconLemmas

open BeaconLemmas

/-! ## 1. The rule refines the reference -/

/-- For packets with positive, nondecreasing timestamps, fewer than 2^31 to a
flow: every packet raises exactly what the reference raises for the history of
its own flow, if the flow is among the first `MAX_FLOWS` distinct ones, and
nothing otherwise. Hence a flow is reported once if it is one of those and its
history becomes regular at some packet, and never if not. -/
theorem beacon_refines_reference {ps : List FlowPkt} (hin : InOrder (ps.map FlowPkt.tsNs))
    (hlen : ∀ k, (ofFlow k ps).length < 2 ^ 31) :
    Along (fun pre p => beacons (handleEvent (after pre) p).2 =
      if FlowTracked p.key (pre ++ [p]) then reference p (stamps p.key (pre ++ [p])) else []) ps ∧
    ∀ k, (beaconsOf k ps).length ≤ 1 ∧
      (beaconsOf k ps ≠ [] ↔ FlowTracked k ps ∧ ∃ n, Regular ((stamps k ps).take n)) := by
  have hat : ∀ pre p post, ps = pre ++ p :: post → _ := fun pre p post he =>
    beacons_at hin hlen he
  exact ⟨hat, reported_once hat⟩

/-- Six datagrams from one host to port 9999 of another, three seconds apart. -/
def exBeacon : List FlowPkt :=
  [1, 4, 7, 10, 13, 16].map fun s =>
    ⟨s * 1000000000, 0x0100007f, 0x0200007f, 40000, 0x0f27, 60, 17⟩

/-- The sixth one raises the alert, so the history of the flow is regular there. -/
theorem exBeacon_reported :
    (beaconsOf ⟨0x0100007f, 0x0200007f, 0x0f27, 17⟩ exBeacon).length = 1 ∧
    ∃ n, Regular ((stamps ⟨0x0100007f, 0x0200007f, 0x0f27, 17⟩ exBeacon).take n) := by
  have hin : InOrder (exBeacon.map FlowPkt.tsNs) := by decide +kernel
  have hlen : ∀ k, (ofFlow k exBeacon).length < 2 ^ 31 := fun k =>
    Nat.lt_of_le_of_lt (List.length_filter_le _ _) (by decide)
  have hone : (beaconsOf ⟨0x0100007f, 0x0200007f, 0x0f27, 17⟩ exBeacon).length = 1 := by
    decide +kernel
  refine ⟨hone, (((beacon_refines_reference hin hlen).2 _).2.mp fun hnil => ?_).2⟩
  rw [hnil] at hone
  cases hone

end Ebpf101.Ids
