import Ebpf101.Lib.SlotRuns
import Ebpf101.Ids.Beacon
import Ebpf101.Ids.Portscan
import Ebpf101.Ids.Signature

/-!
# Flows and sources do not interfere

The detector keeps every flow and every source in a slot of two static arrays that
never give a slot back. Whatever the packets are, in whatever order and with whatever
timestamps, as long as no flow records 2^31 gaps a flow that has a slot is judged as if
it were alone on the wire, and so is a source; one that has none is not judged at all.

Results:
1. `alerts_of_lone_detectors`: the alerts of each flow and of each source over a whole
   run are those of a detector of its own.
2. `alert_volume`: with ordered timestamps, the number of alerts of a run is bounded by
   the two tables and the length of the run, however many packets there are.
-/

namespace Ebpf101.Ids

open Runs SlotTable PortscanLemmas

/-! ## Statements -/

/-- What rules 1 and 3 raise at the packets of a flow. -/
def flowAlerts (k : FlowKey) (ps : List FlowPkt) : List Alert :=
  (outsOf FlowPkt.key k ps (outs handleEvent State.init ps)).flatMap
    fun as => as.filter fun a => !a.isPortscan

/-- What rule 2 raises at the packets of a source. -/
def sourceAlerts (a : UInt32) (ps : List FlowPkt) : List Alert :=
  (outsOf FlowPkt.saddr a ps (outs handleEvent State.init ps)).flatMap portscans

/-- A flow that has the detector to itself. -/
def loneFlow (ps : List FlowPkt) : List Alert := (outs flowRules Flow.fresh ps).flatten

/-- A source that has the detector to itself. -/
def loneSource (ps : List FlowPkt) : List Alert :=
  (outs scanSource ScanSrc.fresh ps).flatMap Option.toList

/-- The number of alerts of a run. -/
def alertCount (ps : List FlowPkt) : Nat := (outs handleEvent State.init ps).flatten.length

namespace IsolationLemmas

open FlowTableLemmas

/-! ## The two tables side by side -/

theorem filter_flowRules (f : Flow) (p : FlowPkt) :
    (flowRules f p).2.filter (fun a => !a.isPortscan) = (flowRules f p).2 := by
  rw [List.filter_eq_self]
  intro a ha
  have hnone := flowRules_not_portscan f p
  rw [portscans, List.filter_eq_nil_iff] at hnone
  simpa using hnone a ha

theorem filter_scanSource (sc : ScanSrc) (p : FlowPkt) :
    (scanSource sc p).2.toList.filter (fun a => !a.isPortscan) = [] := by
  rw [(scanSource_eq sc p).1]
  split <;> rfl

/-- The alerts of the flow table, packet by packet. -/
theorem flow_part {ps : List FlowPkt} (hfit : GapsFit ps) :
    (outs handleEvent State.init ps).map (fun as => as.filter fun a => !a.isPortscan) =
      (outs (visitStep FlowPkt.key Flow.fresh flowRules) (empty _ _ MAX_FLOWS) ps).map
        (Option.getD · []) := by
  refine map_outs_congr fun pre p post he => ?_
  have hpre : GapsFit (pre ++ [p]) := gapsFit_at hfit he
  show (handleEvent (after pre) p).2.filter _ = _
  rw [visits_out, handleEvent_alerts (within_of_gapsFit hpre), List.filter_append]
  have hscan : (if SourceTracked p.saddr (pre ++ [p]) then
      (scanSource (sourceAfter (ofSource p.saddr pre)) p).2.toList else []).filter
      (fun a => !a.isPortscan) = [] := by
    split
    · exact filter_scanSource _ p
    · rfl
  rw [hscan, List.append_nil]
  by_cases h : FlowTracked p.key (pre ++ [p])
  · rw [if_pos h, if_pos (show p.key ∈ admitted _ _ from h), filter_flowRules]
    rfl
  · rw [if_neg h, if_neg (show p.key ∉ admitted _ _ from h)]
    rfl

/-- The alerts of the table of sources, packet by packet. -/
theorem source_part (ps : List FlowPkt) :
    (outs handleEvent State.init ps).map portscans =
      (outs (visitStep FlowPkt.saddr ScanSrc.fresh scanSource) (empty _ _ MAX_SCAN_SRC) ps).map
        (·.join.toList) := by
  refine map_outs_congr fun pre p _ _ => ?_
  show portscans (handleEvent (after pre) p).2 = _
  rw [visits_out, portscans_eq]
  by_cases h : SourceTracked p.saddr (pre ++ [p])
  · rw [if_pos h, if_pos (show p.saddr ∈ admitted _ _ from h)]
    rfl
  · rw [if_neg h, if_neg (show p.saddr ∉ admitted _ _ from h)]
    rfl

theorem flowAlerts_eq {ps : List FlowPkt} (hfit : GapsFit ps) (k : FlowKey) :
    flowAlerts k ps = if FlowTracked k ps then loneFlow (ofFlow k ps) else [] := by
  rw [flowAlerts, List.flatMap_def, ← outsOf_map, flow_part hfit, outsOf_map, outsOf_visits]
  by_cases h : FlowTracked k ps
  · rw [if_pos h, if_pos (show k ∈ admitted _ _ from h), List.map_map]
    exact congrArg List.flatten (List.map_id' _)
  · rw [if_neg h, if_neg (show k ∉ admitted _ _ from h)]
    simp

theorem sourceAlerts_eq (a : UInt32) (ps : List FlowPkt) :
    sourceAlerts a ps = if SourceTracked a ps then loneSource (ofSource a ps) else [] := by
  rw [sourceAlerts, List.flatMap_def, ← outsOf_map, source_part, outsOf_map, outsOf_visits]
  by_cases h : SourceTracked a ps
  · rw [if_pos h, if_pos (show a ∈ admitted _ _ from h), List.map_map]
    rfl
  · rw [if_neg h, if_neg (show a ∉ admitted _ _ from h)]
    simp

/-! ## How often one flow, or one source, alerts -/

/-- The alerts that a flow has not raised yet. -/
def unraised (f : Flow) : Nat :=
  (if f.beaconAlerted then 0 else 1) + if f.suspAlerted then 0 else 1

/-- Rule 1 alerts only while its flag is not set, and sets it. -/
theorem ruleBeacon_flag (f : Flow) (p : FlowPkt) :
    (ruleBeacon f p).2.toList.length + (if (ruleBeacon f p).1.beaconAlerted then 0 else 1) =
      if f.beaconAlerted then 0 else 1 := by
  cases hf : f.beaconAlerted with
  | true =>
    have hquiet : ruleBeacon f p = (f.observe p, none) := by simp [ruleBeacon, hf]
    simp [hquiet, hf]
  | false =>
    rcases ruleBeacon_cases f p with h | ⟨_, _, _, h⟩
    · simp [h, hf]
    · simp [h]

theorem ruleSuspiciousPort_flag (f : Flow) (p : FlowPkt) :
    (ruleSuspiciousPort f p).2.toList.length +
      (if (ruleSuspiciousPort f p).1.suspAlerted then 0 else 1) =
      if f.suspAlerted then 0 else 1 := by
  obtain ⟨hflag, hout⟩ := SignatureLemmas.ruleSuspiciousPort_eq f p
  rw [hflag, hout]
  cases f.suspAlerted <;> cases signature p.key <;> rfl

theorem unraised_flowRules (f : Flow) (p : FlowPkt) :
    (flowRules f p).2.length + unraised (flowRules f p).1 = unraised f := by
  have hb := ruleBeacon_flag f p
  have hs := ruleSuspiciousPort_flag (ruleBeacon f p).1 p
  have hkeep : (ruleSuspiciousPort (ruleBeacon f p).1 p).1.beaconAlerted =
      (ruleBeacon f p).1.beaconAlerted := by
    rcases ruleSuspiciousPort_cases (ruleBeacon f p).1 p with h | ⟨s, h⟩ <;> rw [h]
  rw [SignatureLemmas.suspAlerted_ruleBeacon] at hs
  show ((ruleBeacon f p).2.toList ++ (ruleSuspiciousPort (ruleBeacon f p).1 p).2.toList).length +
    unraised (ruleSuspiciousPort (ruleBeacon f p).1 p).1 = unraised f
  rw [List.length_append, unraised, unraised, hkeep]
  omega

/-- A flow raises at most two alerts in its life. -/
theorem loneFlow_le (qs : List FlowPkt) :
    ((outs flowRules Flow.fresh qs).map List.length).sum ≤ 2 :=
  sum_outs_le unraised (fun f p => Nat.le_of_eq (unraised_flowRules f p)) qs

/-- The number of alerts of a source. -/
def scanCount (qs : List FlowPkt) : Nat :=
  ((outs scanSource ScanSrc.fresh qs).map fun o => o.toList.length).sum

theorem scanCount_snoc (qs : List FlowPkt) (p : FlowPkt) :
    scanCount (qs ++ [p]) = scanCount qs + (scanSource (sourceAfter qs) p).2.toList.length := by
  rw [scanCount, outs_snoc, List.map_append, List.sum_append]
  rfl

/-- `n` alerts, the last one at `last`, none before `t0` and all more than ten seconds
apart. -/
structure Spaced (t0 n : Nat) (last : UInt64) : Prop where
  none : n = 0 → last = 0
  some : n ≠ 0 → last ≠ 0 ∧ t0 + (n - 1) * 10000000000 ≤ last.toNat

theorem Spaced.next {t0 n : Nat} {last now : UInt64} (h : Spaced t0 n last) (ht0 : t0 ≤ now.toNat)
    (hnow : 0 < now) (hle : last ≤ now)
    (hcool : last = 0 ∨ SCAN_COOLDOWN_NS < now - last) : Spaced t0 (n + 1) now := by
  refine ⟨fun h0 => absurd h0 (Nat.succ_ne_zero n), fun _ => ⟨(UInt64.ne_of_lt hnow).symm, ?_⟩⟩
  rcases Nat.eq_zero_or_pos n with rfl | hn
  · simpa using ht0
  · obtain ⟨hlast, hspan⟩ := h.some (Nat.ne_of_gt hn)
    have hlt := hcool.resolve_left hlast
    rw [UInt64.lt_iff_toNat_lt, UInt64.toNat_sub_of_le now last hle,
      show SCAN_COOLDOWN_NS.toNat = 10000000000 from by decide] at hlt
    have hmul : (n + 1 - 1) * 10000000000 = (n - 1) * 10000000000 + 10000000000 := by
      rw [← Nat.succ_mul]
      exact congrArg (· * _) (Nat.succ_pred_eq_of_pos hn).symm
    rw [hmul, ← Nat.add_assoc]
    exact Nat.le_trans (Nat.add_le_add_right hspan _) (Nat.le_of_lt (Nat.add_lt_of_lt_sub' hlt))

/-- The alerts of a source over its packets. -/
theorem spaced_sourceAfter {qs : List FlowPkt} (hin : InOrder (qs.map FlowPkt.tsNs)) {t0 : Nat}
    (ht0 : ∀ q ∈ qs, t0 ≤ q.tsNs.toNat) :
    Spaced t0 (scanCount qs) (sourceAfter qs).lastAlertTs ∧
    (sourceAfter qs).lastAlertTs ≤ lastTime qs := by
  induction qs using List.reverseRecOn with
  | nil => exact ⟨⟨fun _ => rfl, fun h => absurd rfl h⟩, UInt64.le_refl _⟩
  | append_singleton qs p ih =>
    obtain ⟨hpre, hle, hpos⟩ := inOrder_snoc hin
    obtain ⟨hsp, hlast⟩ := ih hpre fun q hq => ht0 q (List.mem_append_left _ hq)
    have hbefore := UInt64.le_trans hlast (lastTime_le hle)
    obtain ⟨hout, hts⟩ := scanSource_eq (sourceAfter qs) p
    have hafter : sourceAfter (qs ++ [p]) = (scanSource (sourceAfter qs) p).1 := exec_snoc qs p
    rw [scanCount_snoc, lastTime_snoc, hafter, hts, hout]
    split
    · next hc =>
      exact ⟨hsp.next (ht0 p (by simp)) hpos hbefore hc.2, UInt64.le_refl _⟩
    · exact ⟨hsp, hbefore⟩

theorem scanCount_le {qs : List FlowPkt} (hin : InOrder (qs.map FlowPkt.tsNs)) {t0 t1 : Nat}
    (ht : ∀ q ∈ qs, t0 ≤ q.tsNs.toNat ∧ q.tsNs.toNat ≤ t1) :
    scanCount qs ≤ 1 + (t1 - t0) / 10000000000 := by
  obtain ⟨hsp, hlast⟩ := spaced_sourceAfter hin fun q hq => (ht q hq).1
  rcases Nat.eq_zero_or_pos (scanCount qs) with h0 | hn
  · omega
  · obtain ⟨-, hspan⟩ := hsp.some (Nat.ne_of_gt hn)
    have hlt1 : (lastTime qs).toNat ≤ t1 := by
      rcases List.eq_nil_or_concat qs with rfl | ⟨qs', q, rfl⟩
      · exact absurd hn (Nat.lt_irrefl 0)
      · rw [List.concat_eq_append, lastTime_snoc]
        exact (ht q (by simp)).2
    have hle := UInt64.le_iff_toNat_le.mp hlast
    have hdiv : scanCount qs - 1 ≤ (t1 - t0) / 10000000000 := by
      rw [Nat.le_div_iff_mul_le (by decide)]
      omega
    omega

/-- An alert comes from one of the two tables. -/
theorem alertCount_eq {ps : List FlowPkt} (hfit : GapsFit ps) :
    alertCount ps =
      ((outs (visitStep FlowPkt.key Flow.fresh flowRules) (empty _ _ MAX_FLOWS) ps).map
        fun o => o.elim 0 List.length).sum +
      ((outs (visitStep FlowPkt.saddr ScanSrc.fresh scanSource) (empty _ _ MAX_SCAN_SRC) ps).map
        fun o => o.elim 0 fun q => q.toList.length).sum := by
  have hflow := congrArg (fun l => (l.map List.length).sum) (flow_part hfit)
  have hscan := congrArg (fun l => (l.map List.length).sum) (source_part ps)
  simp only [List.map_map] at hflow hscan
  have hf : List.length ∘ (Option.getD · []) =
      fun o : Option (List Alert) => o.elim 0 List.length := by
    funext o
    cases o <;> rfl
  have hs : List.length ∘ (fun o : Option (Option Alert) => o.join.toList) =
      fun o => o.elim 0 fun q => q.toList.length := by
    funext o
    cases o <;> rfl
  rw [hf] at hflow
  rw [hs] at hscan
  rw [← hflow, ← hscan, alertCount, List.length_flatten, ← List.sum_map_add]
  refine congrArg List.sum (List.map_congr_left fun as _ => ?_)
  have hsplit := List.length_eq_length_filter_add (l := as) Alert.isPortscan
  simp only [Function.comp, portscans]
  omega

end IsolationLemmas

open IsolationLemmas FlowTableLemmas

/-! ## 1. One detector for each flow and each source -/

/-- For every sequence of packets in which no flow records 2^31 gaps: a flow among the
first `MAX_FLOWS` raises what it would raise alone, and any other flow nothing; the same
for the sources. -/
theorem alerts_of_lone_detectors {ps : List FlowPkt} (hfit : GapsFit ps) :
    (∀ k, flowAlerts k ps = if FlowTracked k ps then loneFlow (ofFlow k ps) else []) ∧
    (∀ a, sourceAlerts a ps = if SourceTracked a ps then loneSource (ofSource a ps) else []) :=
  ⟨fun k => flowAlerts_eq hfit k, fun a => sourceAlerts_eq a ps⟩

/-- Between the probes of a scan a flow is judged as if it were alone. -/
theorem exSession_alone :
    flowAlerts exMeter.key (exSession 2 ++ (List.range 21).map exProbe ++ [exMeter]) =
      [.suspPort 0x0100007f 0x0200007f 4444 "Metasploit/Meterpreter default"] := by
  have hfit : GapsFit (exSession 2 ++ (List.range 21).map exProbe ++ [exMeter]) :=
    gapsFit_of_length (by decide)
  exact ((alerts_of_lone_detectors hfit).1 exMeter.key).trans (by decide +kernel)

/-! ## 2. The volume of alerts -/

/-- A run between the times `t0` and `t1` in which no flow records 2^31 gaps raises at most
two alerts for each slot of the flow table, and for each slot of the other one an alert
and one more for every ten seconds. -/
theorem alert_volume {ps : List FlowPkt} (t0 t1 : Nat) (hfit : GapsFit ps)
    (hin : InOrder (ps.map FlowPkt.tsNs))
    (ht : ∀ p ∈ ps, t0 ≤ p.tsNs.toNat ∧ p.tsNs.toNat ≤ t1) :
    alertCount ps ≤ MAX_FLOWS * 2 + MAX_SCAN_SRC * (1 + (t1 - t0) / 10000000000) := by
  rw [alertCount_eq hfit]
  refine Nat.add_le_add (sum_visits_le _ _ ps fun k => loneFlow_le _)
    (sum_visits_le _ _ ps fun a => ?_)
  have hsub : (ofSource a ps).Sublist ps := List.filter_sublist
  exact scanCount_le (hin.sublist (hsub.map _)) fun q hq => ht q (hsub.subset hq)

/-- Twenty-one probes in twenty milliseconds raise one alert; that is within the bound. -/
theorem exProbe_volume :
    alertCount ((List.range 21).map exProbe) = 1 ∧
    alertCount ((List.range 21).map exProbe) ≤ MAX_FLOWS * 2 + MAX_SCAN_SRC * 1 :=
  ⟨by decide +kernel, alert_volume 1 20000001 (gapsFit_of_length (by decide)) (by decide +kernel)
    (by decide +kernel)⟩

end Ebpf101.Ids
