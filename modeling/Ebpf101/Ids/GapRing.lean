import Ebpf101.Ids.Beacon

/-!
# The ring of gaps

Each flow keeps its last eight gaps in a ring, at `ngaps % MAX_GAPS`, and counts them in
`ngaps`, a 32-bit `int` that nothing resets. On a flow that lives long enough the
counter becomes negative: the sample count is then negative too, so rule 1 stops
judging the flow, and the remainder is a negative index.

Results:
1. `gap_ring_sound_iff`: the index stays within the ring and the sample count is the
   number of gaps recorded, eight at most, if and only if fewer than 2^31 gaps are
   recorded on every flow of the table.
   `counter_wraps`: a flow of 2^31 + 2 packets.
-/

namespace Ebpf101.Ids

open Runs SlotTable

/-! ## Statements -/

/-- The flow of a packet as `flow_get` hands it to the rules. -/
def found (pre : List FlowPkt) (p : FlowPkt) : Flow :=
  ((after pre).flows.lookup p.key).getD Flow.fresh

/-- Rule 1 stores the gap of `p` within the ring, and judges the gaps recorded so far,
eight at most. -/
structure RingSound (pre : List FlowPkt) (p : FlowPkt) : Prop where
  index : (found pre p).lastTs ≠ 0 →
    0 ≤ (found pre p).ngaps.tmod MAX_GAPS ∧ (found pre p).ngaps.tmod MAX_GAPS ≤ 7
  samples : ((found pre p).observe p).samples =
    (min 8 (recorded (ofFlow p.key (pre ++ [p]))) : Nat)

/-- Every packet of a flow that has a slot. -/
def GapRingAt (pre : List FlowPkt) (p : FlowPkt) : Prop :=
  FlowTracked p.key (pre ++ [p]) → RingSound pre p

namespace GapRingLemmas

open BeaconLemmas FlowTableLemmas

/-! ## The counter -/

theorem ngaps_observe_flowAfter (qs : List FlowPkt) (q : FlowPkt) :
    ((flowAfter qs).observe q).ngaps = int32 (recorded (qs ++ [q])) := by
  rw [← (flowRules_observe (flowAfter qs) q).2, ← (flowAfter_counts (qs ++ [q])).2]
  exact congrArg Flow.ngaps (exec_snoc qs q).symm

/-! ## One packet of a run -/

/-- The rules find the flow as its own packets left it. -/
theorem found_eq {pre : List FlowPkt} {p : FlowPkt} (hwithin : Within pre)
    (h : FlowTracked p.key (pre ++ [p])) : found pre p = flowAfter (ofFlow p.key pre) := by
  rw [found, FlowTable.lookup, (refines_after hwithin).entries]
  exact (demuxed_visits pre).value h

theorem samples_eq {f : Flow} {n : Nat} (hn : f.ngaps = int32 n) (hlt : n < 2 ^ 31) :
    f.samples = (min 8 n : Nat) := by
  rw [Flow.samples, hn, int32_of_lt hlt, MAX_GAPS]
  split <;> omega

/-- Before the counter wraps, all is well. -/
theorem ringSound_of_fit {pre : List FlowPkt} {p : FlowPkt} (hfit : GapsFit (pre ++ [p]))
    (htracked : FlowTracked p.key (pre ++ [p])) : RingSound pre p := by
  have hlt := hfit p.key htracked
  have hfound := found_eq (within_of_gapsFit (gapsFit_left hfit)) htracked
  have hsnoc : ofFlow p.key (pre ++ [p]) = ofFlow p.key pre ++ [p] := by
    rw [ofFlow_snoc, if_pos rfl]
  have hbefore : recorded (ofFlow p.key pre) < 2 ^ 31 := by
    rw [hsnoc] at hlt
    exact Nat.lt_of_le_of_lt (recorded_snoc_le _ p).1 hlt
  refine ⟨fun _ => ?_, ?_⟩
  · rw [hfound, (flowAfter_counts _).2, int32_of_lt hbefore,
      Int.tmod_eq_emod_of_nonneg (Int.natCast_nonneg _), MAX_GAPS]
    constructor <;> omega
  · rw [hfound]
    refine samples_eq ?_ hlt
    rw [hsnoc]
    exact ngaps_observe_flowAfter _ p

/-- The gap that makes the counter wrap also makes the sample count negative. -/
theorem not_ringSound_of_eq {pre : List FlowPkt} {p : FlowPkt} (hfit : GapsFit pre)
    (htracked : FlowTracked p.key (pre ++ [p]))
    (heq : recorded (ofFlow p.key (pre ++ [p])) = 2 ^ 31) : ¬ RingSound pre p := by
  intro h
  have hsamples := h.samples
  have hngaps := ngaps_observe_flowAfter (ofFlow p.key pre) p
  rw [ofFlow_snoc, if_pos rfl] at heq hsamples
  rw [heq] at hngaps hsamples
  rw [found_eq (within_of_gapsFit hfit) htracked, Flow.samples, hngaps] at hsamples
  exact absurd hsamples (by decide)

/-! ## Whole runs -/

/-- A run in which all is well has not wrapped a counter. -/
theorem gapsFit_of_along {ps : List FlowPkt} (h : Along GapRingAt ps) : GapsFit ps := by
  induction ps using List.reverseRecOn with
  | nil => exact fun k hk => absurd hk List.not_mem_nil
  | append_singleton ps p ih =>
    have hfit := ih h.left
    intro k hk
    rcases eq_or_ne p.key k with rfl | hne
    · have hbefore : recorded (ofFlow p.key ps) < 2 ^ 31 := by
        rcases Classical.em (FlowTracked p.key ps) with hold | hnew
        · exact hfit p.key hold
        · have hfirst : p.key ∉ ps.map FlowPkt.key := fun hmem => by
            rw [FlowTracked, List.map_append, List.map_singleton,
              mem_admitted_snoc_of_mem hmem] at hk
            exact hnew hk
          rw [show ofFlow p.key ps = [] from own_eq_nil hfirst]
          decide
      have hle : recorded (ofFlow p.key (ps ++ [p])) ≤ 2 ^ 31 := by
        rw [ofFlow_snoc, if_pos rfl]
        exact Nat.le_trans (recorded_snoc_le _ p).2 hbefore
      exact Nat.lt_of_le_of_ne hle fun heq => not_ringSound_of_eq hfit hk heq (h.last hk)
    · rw [ofFlow_snoc, if_neg hne]
      exact hfit k ((flowTracked_snoc_of_ne hne).mp hk)

theorem along_of_gapsFit {ps : List FlowPkt} (h : GapsFit ps) : Along GapRingAt ps := by
  intro pre p post he htracked
  exact ringSound_of_fit (gapsFit_at h he) htracked

end GapRingLemmas

open GapRingLemmas FlowTableLemmas

/-! ## 1. The counter of a flow -/

/-- For every run, of any length. -/
theorem gap_ring_sound_iff (ps : List FlowPkt) :
    Along GapRingAt ps ↔ ∀ k, FlowTracked k ps → recorded (ofFlow k ps) < 2 ^ 31 :=
  ⟨gapsFit_of_along, along_of_gapsFit⟩

/-- A datagram from one host to port 9999 of another. -/
def exPkt : FlowPkt := ⟨1000000000, 0x0100007f, 0x0200007f, 40000, 0x0f27, 60, 17⟩

/-- The same datagram over and over. -/
def exFlood (n : Nat) : List FlowPkt := List.replicate n exPkt

theorem exFlood_flow (n : Nat) : ofFlow exPkt.key (exFlood n) = exFlood n := by
  refine List.filter_eq_self.mpr fun q hq => ?_
  rw [List.eq_of_mem_replicate hq]
  exact decide_eq_true rfl

theorem exFlood_recorded (n : Nat) : recorded (exFlood (n + 1)) = n := by
  have hall : (exFlood n).filter (fun q => q.tsNs ≠ 0) = exFlood n := by
    refine List.filter_eq_self.mpr fun q hq => ?_
    rw [List.eq_of_mem_replicate hq]
    decide
  rw [recorded, exFlood, List.replicate_succ', List.dropLast_concat, ← exFlood, hall, exFlood,
    List.length_replicate]

theorem exFlood_tracked (n : Nat) : FlowTracked exPkt.key (exFlood (n + 1)) := by
  have hone : FlowTracked exPkt.key [exPkt] := by decide
  rw [FlowTracked, exFlood, List.replicate_succ, List.map_cons, ← List.singleton_append]
  exact mem_admitted_append hone _

/-- A flood of up to 2^31 + 2 packets stores every gap within the ring. -/
theorem exFlood_within {n : Nat} (h : n ≤ 2 ^ 31 + 1) : Within (exFlood (n + 1)) := by
  intro k hk
  rcases eq_or_ne exPkt.key k with rfl | hne
  · rw [exFlood_flow, exFlood_recorded]
    exact h
  · refine absurd (List.mem_eraseDups.mp (List.mem_of_mem_take hk)) ?_
    rw [exFlood, List.map_replicate]
    exact fun hmem => hne (List.eq_of_mem_replicate hmem).symm

/-- At packet 2^31 + 1 the sample count is no longer eight. One packet later it is
negative and the next gap goes to index -7. -/
theorem counter_wraps :
    ¬ Along GapRingAt (exFlood (2 ^ 31 + 1)) ∧
    ∃ f, (after (exFlood (2 ^ 31 + 2))).flows.lookup exPkt.key = some f ∧
      f.lastTs ≠ 0 ∧ f.samples < 0 ∧ f.ngaps.tmod MAX_GAPS = -7 := by
  constructor
  · intro h
    have hlt := gapsFit_of_along h _ (exFlood_tracked _)
    rw [exFlood_flow, exFlood_recorded] at hlt
    exact absurd hlt (Nat.lt_irrefl _)
  · obtain ⟨hlast, hngaps⟩ := flowAfter_counts (exFlood (2 ^ 31 + 2))
    rw [exFlood_recorded] at hngaps
    have hstamp : (flowAfter (exFlood (2 ^ 31 + 2))).lastTs = 1000000000 := by
      rw [hlast, exFlood, List.replicate_succ', List.getLast?_concat]
      rfl
    refine ⟨flowAfter (exFlood (2 ^ 31 + 2)), ?_, ?_, ?_, ?_⟩
    · rw [lookup_flows (exFlood_within (Nat.le_refl _)), if_pos (exFlood_tracked _), exFlood_flow]
    · rw [hstamp]
      decide
    · rw [Flow.samples, hngaps]
      decide
    · rw [hngaps]
      decide

end Ebpf101.Ids
