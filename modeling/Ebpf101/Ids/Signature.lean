import Ebpf101.Ids.FlowTable

/-!
# The flow table and the signature rule

`flow_get` looks a flow up and claims a slot for it in one scan. Rule 3 alerts once
for each flow to a port of the signature list; the flag that says so is part of the
slot.

Results:
1. `signature_once_per_flow`: as long as no flow records 2^31 gaps, the used slots have
   distinct keys, and a key that is stored is found in the same slot from then on, by
   every packet of its flow. So the alerts of rule 3 over a whole run are one for each of
   the first `MAX_FLOWS` flows whose port is on the list, each at the flow's first packet.
   `stray_store_frees_slot`: on a flow of 2^31 + 7 packets rule 1 stores a gap over the
   `used` of the flow's own slot, and the next packet raises the alert again.
-/

namespace Ebpf101.Ids

open Runs SlotTable

/-! ## Statements -/

/-- The flow of `k` is stored in slot `i`. -/
def StoredAt (flows : FlowTable) (i : Nat) (k : FlowKey) : Prop :=
  ∃ f, flows.entries[i]? = some (some (k, f))

/-- The alert that the port of a flow deserves. -/
def signature (k : FlowKey) : Option Alert :=
  (suspicious.find? fun s => s.1 = ntohs k.dport).map fun s => .suspPort k.saddr k.daddr s.1 s.2

def Alert.isSuspPort : Alert → Bool
  | .suspPort .. => true
  | _ => false

/-- The alerts of rule 3. -/
def suspPorts (as : List Alert) : List Alert := as.filter Alert.isSuspPort

/-- What rule 3 owes a packet: the alert of its flow, at the first packet of a flow that
is among those the table has room for. -/
def SignatureAt (pre : List FlowPkt) (p : FlowPkt) : Prop :=
  suspPorts (handleEvent (after pre) p).2 =
    if FlowTracked p.key (pre ++ [p]) ∧ p.key ∉ pre.map FlowPkt.key then (signature p.key).toList
    else []

namespace SignatureLemmas

open FlowTableLemmas

/-! ## One packet -/

theorem suspAlerted_ruleBeacon (f : Flow) (p : FlowPkt) :
    (ruleBeacon f p).1.suspAlerted = f.suspAlerted := by
  have hobs : (f.observe p).suspAlerted = f.suspAlerted := by
    unfold Flow.observe Flow.storeGap
    split <;> rfl
  rcases ruleBeacon_cases f p with h | ⟨_, _, _, h⟩
  · rw [h, hobs]
  · rw [h]
    exact hobs

theorem suspPorts_ruleBeacon (f : Flow) (p : FlowPkt) :
    suspPorts (ruleBeacon f p).2.toList = [] := by
  rcases ruleBeacon_cases f p with h | ⟨_, _, _, h⟩ <;> rw [h] <;> rfl

theorem suspPorts_scanSource (sc : ScanSrc) (p : FlowPkt) :
    suspPorts (scanSource sc p).2.toList = [] := by
  unfold scanSource ScanSrc.judge
  split <;> rfl

theorem isSuspPort_signature {k : FlowKey} {a : Alert} (h : signature k = some a) :
    a.isSuspPort = true := by
  obtain ⟨s, -, rfl⟩ := Option.map_eq_some_iff.mp h
  rfl

/-- Rule 3 on a flow: the alert of the flow, unless it was raised. -/
theorem ruleSuspiciousPort_eq (f : Flow) (p : FlowPkt) :
    (ruleSuspiciousPort f p).1.suspAlerted = (f.suspAlerted || (signature p.key).isSome) ∧
    (ruleSuspiciousPort f p).2 = if f.suspAlerted then none else signature p.key := by
  unfold ruleSuspiciousPort signature
  cases hf : f.suspAlerted with
  | true => simp [hf]
  | false =>
    simp only [Bool.false_eq_true, if_false]
    rw [show p.key.dport = p.dport from rfl]
    cases suspicious.find? fun s => s.1 = ntohs p.dport with
    | none => simp [hf]
    | some s => exact ⟨rfl, rfl⟩

/-- Both rules on a flow. -/
theorem flowRules_eq (f : Flow) (p : FlowPkt) :
    (flowRules f p).1.suspAlerted = (f.suspAlerted || (signature p.key).isSome) ∧
    suspPorts (flowRules f p).2 = if f.suspAlerted then [] else (signature p.key).toList := by
  obtain ⟨hflag, hout⟩ := ruleSuspiciousPort_eq (ruleBeacon f p).1 p
  rw [suspAlerted_ruleBeacon] at hflag hout
  refine ⟨hflag, ?_⟩
  show suspPorts ((ruleBeacon f p).2.toList ++
    (ruleSuspiciousPort (ruleBeacon f p).1 p).2.toList) = _
  rw [suspPorts, List.filter_append]
  have hbeacon := suspPorts_ruleBeacon f p
  rw [suspPorts] at hbeacon
  rw [hbeacon, List.nil_append, hout]
  cases f.suspAlerted with
  | true => rfl
  | false =>
    cases hs : signature p.key with
    | none => rfl
    | some a => simp [isSuspPort_signature hs]

/-! ## Whole runs -/

/-- The flag of a flow that has packets says whether its port is on the list. -/
theorem suspAlerted_flowAfter {k : FlowKey} {qs : List FlowPkt} (hk : ∀ q ∈ qs, q.key = k) :
    (flowAfter qs).suspAlerted = (!qs.isEmpty && (signature k).isSome) := by
  induction qs using List.reverseRecOn with
  | nil => rfl
  | append_singleton qs q ih =>
    rw [flowAfter, exec_snoc, (flowRules_eq _ q).1, hk q (by simp)]
    rw [show exec flowRules Flow.fresh qs = flowAfter qs from rfl,
      ih fun r hr => hk r (List.mem_append_left _ hr)]
    cases (signature k).isSome <;> simp

theorem key_of_mem_ofFlow {k : FlowKey} {ps : List FlowPkt} {q : FlowPkt} (h : q ∈ ofFlow k ps) :
    q.key = k := by
  simpa using (List.mem_filter.mp h).2

/-- A flow has packets exactly when its key occurred. -/
theorem ofFlow_isEmpty (k : FlowKey) (ps : List FlowPkt) :
    (ofFlow k ps).isEmpty = true ↔ k ∉ ps.map FlowPkt.key := by
  rw [List.isEmpty_iff]
  constructor
  · intro h hmem
    obtain ⟨q, hq, rfl⟩ := List.mem_map.mp hmem
    exact List.filter_eq_nil_iff.mp h q hq (by simp)
  · exact own_eq_nil

theorem signatureAt {pre : List FlowPkt} {p : FlowPkt} (hfit : GapsFit (pre ++ [p])) :
    SignatureAt pre p := by
  have hscan : List.filter Alert.isSuspPort (if SourceTracked p.saddr (pre ++ [p]) then
      (scanSource (sourceAfter (ofSource p.saddr pre)) p).2.toList else []) = [] := by
    split
    · exact suspPorts_scanSource _ _
    · rfl
  have hflag : (flowAfter (ofFlow p.key pre)).suspAlerted = _ :=
    suspAlerted_flowAfter fun q hq => key_of_mem_ofFlow hq
  rw [SignatureAt, handleEvent_alerts (within_of_gapsFit hfit), suspPorts, List.filter_append,
    hscan, List.append_nil]
  rcases Classical.em (FlowTracked p.key (pre ++ [p])) with htracked | hturned
  · have hrules := (flowRules_eq (flowAfter (ofFlow p.key pre)) p).2
    rw [if_pos htracked, ← suspPorts, hrules, hflag]
    cases hempty : (ofFlow p.key pre).isEmpty with
    | true =>
      rw [if_pos (And.intro htracked ((ofFlow_isEmpty _ _).mp hempty))]
      rfl
    | false =>
      have hseen : ¬ p.key ∉ pre.map FlowPkt.key := fun h => by
        rw [(ofFlow_isEmpty _ _).mpr h] at hempty
        cases hempty
      have hlater : ¬ (FlowTracked p.key (pre ++ [p]) ∧ p.key ∉ pre.map FlowPkt.key) :=
        fun h => hseen h.2
      rw [if_neg hlater]
      -- an earlier packet of the flow raised the alert, if there is one to raise
      cases signature p.key <;> rfl
  · rw [if_neg hturned, if_neg fun h => hturned h.1]
    rfl

/-- A packet adds its flow to the tracked ones exactly when it is the flow's first. -/
theorem admitted_step (pre : List FlowPkt) (p : FlowPkt) :
    admitted MAX_FLOWS ((pre ++ [p]).map FlowPkt.key) =
      admitted MAX_FLOWS (pre.map FlowPkt.key) ++
        if FlowTracked p.key (pre ++ [p]) ∧ p.key ∉ pre.map FlowPkt.key then [p.key] else [] := by
  have hkeys : (pre ++ [p]).map FlowPkt.key = pre.map FlowPkt.key ++ [p.key] := by simp
  have htracked : FlowTracked p.key (pre ++ [p]) ↔
      p.key ∈ admitted MAX_FLOWS (pre.map FlowPkt.key ++ [p.key]) := by rw [FlowTracked, hkeys]
  rw [hkeys]
  rcases Classical.em (p.key ∈ pre.map FlowPkt.key) with hmem | hnew
  · rw [if_neg fun h => h.2 hmem, List.append_nil, admitted, eraseDups_snoc, if_pos hmem, admitted]
  · have hout : p.key ∉ admitted MAX_FLOWS (pre.map FlowPkt.key) := fun h =>
      hnew (List.mem_eraseDups.mp (List.mem_of_mem_take h))
    rw [admitted_snoc] at htracked ⊢
    split
    · next hfull =>
      rw [if_pos hfull] at htracked
      rw [if_neg fun h => hout (htracked.mp h.1), List.append_nil]
    · next hroom =>
      rw [if_neg hroom] at htracked
      rw [if_pos ⟨htracked.mpr (by simp), hnew⟩]

theorem suspPorts_run {ps : List FlowPkt} (hfit : GapsFit ps) :
    suspPorts (outs handleEvent State.init ps).flatten =
      (admitted MAX_FLOWS (ps.map FlowPkt.key)).filterMap signature := by
  induction ps using List.reverseRecOn with
  | nil => rfl
  | append_singleton ps p ih =>
    have hstep := signatureAt hfit
    rw [SignatureAt, suspPorts] at hstep
    rw [outs_snoc, List.flatten_append, suspPorts, List.filter_append, ← suspPorts,
      ih (gapsFit_left hfit), admitted_step,
      List.filterMap_append, List.flatten_singleton]
    rw [show exec handleEvent State.init ps = after ps from rfl, hstep]
    congr 1
    split
    · cases hs : signature p.key <;> simp [hs]
    · rfl

theorem visited_append (ps qs : List FlowPkt) :
    visited (ps ++ qs) = exec (visitStep FlowPkt.key Flow.fresh flowRules) (visited ps) qs :=
  List.foldl_append

theorem storedAt_iff {ps : List FlowPkt} (hfit : GapsFit ps) (i : Nat) (k : FlowKey) :
    StoredAt (after ps).flows i k ↔ ∃ f, (visited ps).slots[i]? = some (some (k, f)) := by
  rw [StoredAt, (refines_after (within_of_gapsFit hfit)).entries]

end SignatureLemmas

open SignatureLemmas FlowTableLemmas

/-! ## 1. Flows, slots and signatures -/

/-- For every run in which each flow records fewer than 2^31 gaps. No key has two slots;
once `k` is stored in slot `i` it is there after any further packets, and `flow_get` hands
that slot to every packet of the flow. The alerts of rule 3 are raised at the first packets
of the flows that the table has room for, one for each whose port is on the list and none
else. -/
theorem signature_once_per_flow {ps : List FlowPkt} (hfit : GapsFit ps) :
    (∀ i j k, StoredAt (after ps).flows i k → StoredAt (after ps).flows j k → i = j) ∧
    (∀ i k pre post, ps = pre ++ post → StoredAt (after pre).flows i k →
      StoredAt (after ps).flows i k ∧
      ∀ p, p.key = k → flowGet (after ps).flows p = ((after ps).flows, some i)) ∧
    Along SignatureAt ps ∧
    suspPorts (outs handleEvent State.init ps).flatten =
      (admitted MAX_FLOWS (ps.map FlowPkt.key)).filterMap signature := by
  refine ⟨?_, ?_, ?_, suspPorts_run hfit⟩
  · intro i j k hi hj
    obtain ⟨f, hf⟩ := (storedAt_iff hfit i k).mp hi
    obtain ⟨g, hg⟩ := (storedAt_iff hfit j k).mp hj
    exact (visited ps).distinct i j k f g hf hg
  · rintro i k pre post rfl hi
    obtain ⟨f, hf⟩ := (storedAt_iff (gapsFit_left hfit) i k).mp hi
    obtain ⟨g, hg⟩ := visits_keep_slot hf post
    rw [← visited_append] at hg
    refine ⟨(storedAt_iff hfit i k).mpr ⟨g, hg⟩, fun p hp => ?_⟩
    rw [flowGet, (refines_after (within_of_gapsFit hfit)).entries, hp, search_of_slot hg]
  · intro pre p post he
    exact signatureAt (gapsFit_at hfit he)

/-- A datagram to port 9999, and a segment to port 4444. -/
def exNeighbour : FlowPkt := ⟨1000000000, 0x0100007f, 0x0200007f, 40000, 0x0f27, 60, 17⟩
def exMeter : FlowPkt := ⟨1000000000, 0x0100007f, 0x0200007f, 40000, 0x5c11, 60, 6⟩

/-- The datagram, then the segment over and over. -/
def exSession (n : Nat) : List FlowPkt := exNeighbour :: List.replicate n exMeter

/-- Three segments raise one alert. -/
theorem exSession_once :
    suspPorts (outs handleEvent State.init (exSession 3)).flatten =
      [.suspPort 0x0100007f 0x0200007f 4444 "Metasploit/Meterpreter default"] := by
  have hfit : GapsFit (exSession 3) := gapsFit_of_length (by decide)
  exact ((signature_once_per_flow hfit).2.2.2).trans (by decide +kernel)

/-- The slot of the segment's flow, with its counter at `ngaps`. The gaps are all zero, as
the timestamps are all equal. -/
def exMeterSlot (ngaps : Int) : FlowSlot :=
  ⟨true, exMeter.key, { Flow.fresh with lastTs := 1000000000, ngaps := ngaps, suspAlerted := true }⟩

def exTable (ngaps : Int) : FlowTable where
  slots := ⟨true, exNeighbour.key, { Flow.fresh with lastTs := 1000000000 }⟩ ::
    exMeterSlot ngaps :: List.replicate 1022 FlowSlot.zero
  length_eq := by rw [List.length_cons, List.length_cons, List.length_replicate]; rfl

/-- Rule 1 on the flow of the segment stores a zero and counts it. -/
theorem exMeterSlot_observe (ngaps : Int) :
    (exMeterSlot ngaps).flow.observe exMeter = (exMeterSlot (int32 (ngaps + 1))).flow := by
  have hset : ∀ i, (List.replicate MAX_GAPS (0 : ℚ)).set i 0 = List.replicate MAX_GAPS 0 :=
    fun i => List.set_replicate_self
  have hgap : gapSecs (exMeterSlot ngaps).flow.lastTs exMeter.tsNs = 0 :=
    show gapSecs 1000000000 1000000000 = 0 by decide +kernel
  have hseen : (exMeterSlot ngaps).flow.lastTs ≠ 0 := show (1000000000 : UInt64) ≠ 0 by decide
  rw [Flow.observe, if_pos hseen, hgap]
  simp [Flow.storeGap, exMeterSlot, Flow.fresh, hset, exMeter]

/-- Both rules raise nothing: the mean of the gaps is zero, and the port was reported. -/
theorem exMeterSlot_rules (ngaps : Int) :
    flowRules (exMeterSlot ngaps).flow exMeter = ((exMeterSlot (int32 (ngaps + 1))).flow, []) := by
  have hmean : (exMeterSlot (int32 (ngaps + 1))).flow.meanGap = 0 := by
    simp [Flow.meanGap, exMeterSlot, Flow.fresh, List.take_replicate]
  have hbeacon : ruleBeacon (exMeterSlot ngaps).flow exMeter =
      ((exMeterSlot (int32 (ngaps + 1))).flow, none) := by
    rw [ruleBeacon]
    simp only [exMeterSlot_observe, hmean]
    split
    · rfl
    · split
      · rfl
      · rfl
  rw [flowRules, hbeacon]
  rfl

/-- A further segment, as long as the gap is stored within the ring. -/
theorem exTable_step {ngaps : Int} (h : 0 ≤ ngaps.tmod MAX_GAPS) :
    flowStep (exTable ngaps) exMeter = (exTable (int32 (ngaps + 1)), []) := by
  have hget : flowGet (exTable ngaps) exMeter = (exTable ngaps, some 1) := rfl
  have hslot : (exTable ngaps).slots[1]? = some (exMeterSlot ngaps) := rfl
  obtain ⟨hslots, hout⟩ := runRules_eq hslot exMeter (.inr h)
  rw [exMeterSlot_rules] at hslots hout
  rw [flowStep, hget]
  exact Prod.ext (FlowTable.ext hslots) hout

theorem exSession_snoc (n : Nat) : exSession (n + 1) = exSession n ++ [exMeter] := by
  rw [exSession, List.replicate_succ', exSession]
  rfl

theorem exSession_flows (n : Nat) :
    (after (exSession (n + 1))).flows = (flowStep (after (exSession n)).flows exMeter).1 := by
  rw [exSession_snoc, after, exec_snoc]
  rfl

/-- The table up to the last gap that is stored within the ring. -/
theorem exSession_table {n : Nat} (h : n ≤ 2 ^ 31 + 1) :
    (after (exSession (n + 1))).flows = exTable (int32 n) := by
  induction n with
  | zero => exact FlowTable.ext (by decide +kernel)
  | succ n ih =>
    rw [exSession_flows, ih (Nat.le_of_succ_le h),
      exTable_step (tmod_int32_nonneg (Nat.le_of_succ_le_succ h)), int32_succ]

/-- The table after `n` more segments. -/
theorem exSession_stray (n : Nat) :
    (after (exSession (2 ^ 31 + 2 + n))).flows =
      exec flowStep (exTable (-2147483647)) (List.replicate n exMeter) := by
  induction n with
  | zero => exact exSession_table (Nat.le_refl _)
  | succ n ih =>
    rw [← Nat.add_assoc, exSession_flows, ih, List.replicate_succ', exec_snoc]

theorem exSession_mem (n : Nat) : exMeter.key ∈ (exSession (n + 1)).map FlowPkt.key :=
  List.mem_map_of_mem (List.mem_cons_of_mem _ (List.mem_replicate.mpr ⟨Nat.succ_ne_zero n, rfl⟩))

/-- The gaps of segments 2^31 + 3 to 2^31 + 6 go to the slot of the neighbour; that of
segment 2^31 + 7 goes to `used` and `saddr` of the flow's own slot. The flow is no longer
found, and its next segment is reported like a first one. -/
theorem stray_store_frees_slot :
    StoredAt (after (exSession (2 ^ 31 + 6))).flows 1 exMeter.key ∧
    (∀ i, ¬ StoredAt (after (exSession (2 ^ 31 + 7))).flows i exMeter.key) ∧
    ¬ Along SignatureAt (exSession (2 ^ 31 + 8)) := by
  have hfreed : (after (exSession (2 ^ 31 + 7))).flows =
      exec flowStep (exTable (-2147483647)) (List.replicate 5 exMeter) := by
    rw [show 2 ^ 31 + 7 = 2 ^ 31 + 2 + 5 by norm_num, exSession_stray]
  refine ⟨?_, fun i hi => ?_, fun h => ?_⟩
  · have hkey : (exec flowStep (exTable (-2147483647)) (List.replicate 4 exMeter)).entries[1]?.map
        (Option.map Prod.fst) = some (some exMeter.key) := by decide +kernel
    obtain ⟨e, he, hk⟩ := Option.map_eq_some_iff.mp hkey
    obtain ⟨⟨k, f⟩, rfl, rfl⟩ := Option.map_eq_some_iff.mp hk
    refine ⟨f, ?_⟩
    rw [show 2 ^ 31 + 6 = 2 ^ 31 + 2 + 4 by norm_num, exSession_stray]
    exact he
  · obtain ⟨f, hf⟩ := hi
    rw [hfreed] at hf
    have hnone : ∀ e ∈ (exec flowStep (exTable (-2147483647)) (List.replicate 5 exMeter)).entries,
        e.map Prod.fst ≠ some exMeter.key := by decide +kernel
    exact hnone _ (List.mem_of_getElem? hf) rfl
  · rw [exSession_snoc] at h
    have hat := h.last
    have hagain : suspPorts
        (flowStep (exec flowStep (exTable (-2147483647)) (List.replicate 5 exMeter)) exMeter).2 =
          [.suspPort 0x0100007f 0x0200007f 4444 "Metasploit/Meterpreter default"] := by
      decide +kernel
    rw [SignatureAt, if_neg fun hc => hc.2 (exSession_mem _), handleEvent_scan, suspPorts,
      List.filter_append, ← suspPorts, hfreed, hagain, List.singleton_append] at hat
    exact List.cons_ne_nil _ _ hat

end Ebpf101.Ids
