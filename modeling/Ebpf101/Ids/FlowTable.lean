import Ebpf101.Ids.Rules

/-!
# The table of flows

As long as no flow counts more gaps than an `int` holds, the table keeps the flows apart: each
flow among the first `MAX_FLOWS` is a machine of its own, which sees its own packets only. The
array of slots then refines a `SlotTable`. The counter of a flow is the number of its gaps, cut
to 32 bits, so two gaps after it has wrapped rule 1 stores a gap outside the ring.
-/

namespace Ebpf101.Ids

open Runs SlotTable

/-- The number of gaps that the packets `qs` of a flow record: one for each packet after
one with a timestamp. -/
def recorded (qs : List FlowPkt) : Nat := (qs.dropLast.filter fun q => q.tsNs ≠ 0).length

/-- Every flow that has a slot records fewer than 2^31 gaps. -/
def GapsFit (ps : List FlowPkt) : Prop :=
  ∀ k, FlowTracked k ps → recorded (ofFlow k ps) < 2 ^ 31

namespace FlowTableLemmas

/-! ## The counter -/

theorem recorded_snoc (qs : List FlowPkt) (q : FlowPkt) :
    recorded (qs ++ [q]) =
      recorded qs + if (qs.getLast?.map FlowPkt.tsNs).getD 0 ≠ 0 then 1 else 0 := by
  unfold recorded
  rw [List.dropLast_concat]
  rcases List.eq_nil_or_concat qs with rfl | ⟨rs, l, rfl⟩
  · rfl
  · rw [List.concat_eq_append, List.dropLast_concat, List.getLast?_concat, List.filter_append,
      List.length_append]
    congr 1
    rcases eq_or_ne l.tsNs 0 with h | h
    · simp [h]
    · simp [h]

theorem recorded_snoc_le (qs : List FlowPkt) (q : FlowPkt) :
    recorded qs ≤ recorded (qs ++ [q]) ∧ recorded (qs ++ [q]) ≤ recorded qs + 1 := by
  rw [recorded_snoc]
  split
  · exact ⟨Nat.le_succ _, Nat.le_refl _⟩
  · exact ⟨Nat.le_refl _, Nat.le_succ _⟩

theorem recorded_append_le (qs rs : List FlowPkt) : recorded qs ≤ recorded (qs ++ rs) := by
  induction rs using List.reverseRecOn with
  | nil => rw [List.append_nil]
  | append_singleton rs r ih =>
    rw [← List.append_assoc]
    exact Nat.le_trans ih (recorded_snoc_le _ r).1

theorem recorded_le_length (qs : List FlowPkt) : recorded qs ≤ qs.length :=
  (List.length_filter_le _ _).trans ((List.dropLast_sublist qs).length_le)

/-- Counting on after a wrap is counting and wrapping. -/
theorem int32_succ (n : Nat) : int32 (int32 n + 1) = int32 ((n + 1 : Nat) : Int) := by
  unfold int32
  rw [Int.bmod_add_bmod, Nat.cast_succ]

theorem int32_of_lt {n : Nat} (h : n < 2 ^ 31) : int32 n = n := by
  unfold int32
  exact Int.bmod_eq_of_le (by omega) (by omega)

/-- The index of the ring is not negative up to the gap that makes the counter wrap. -/
theorem tmod_int32_nonneg {n : Nat} (h : n ≤ 2 ^ 31) : 0 ≤ (int32 n).tmod MAX_GAPS := by
  rcases Nat.lt_or_ge n (2 ^ 31) with hlt | hge
  · rw [int32_of_lt hlt]
    exact Int.tmod_nonneg _ (Int.natCast_nonneg _)
  · -- the counter has just become negative: its remainder is 0
    rw [Nat.le_antisymm h hge]
    decide

/-- What one packet does to the counter and the timestamp of a flow. -/
theorem ngaps_observe (f : Flow) (p : FlowPkt) :
    (f.observe p).ngaps = if f.lastTs ≠ 0 then int32 (f.ngaps + 1) else f.ngaps := by
  unfold Flow.observe
  split <;> rfl

theorem flowRules_observe (f : Flow) (p : FlowPkt) :
    (flowRules f p).1.lastTs = p.tsNs ∧ (flowRules f p).1.ngaps = (f.observe p).ngaps := by
  have hbeacon : (ruleBeacon f p).1.lastTs = p.tsNs ∧
      (ruleBeacon f p).1.ngaps = (f.observe p).ngaps := by
    rcases ruleBeacon_cases f p with h | ⟨_, _, _, h⟩ <;> rw [h] <;> exact ⟨rfl, rfl⟩
  show (ruleSuspiciousPort (ruleBeacon f p).1 p).1.lastTs = _ ∧
    (ruleSuspiciousPort (ruleBeacon f p).1 p).1.ngaps = _
  rcases ruleSuspiciousPort_cases (ruleBeacon f p).1 p with h | ⟨_, h⟩ <;> rw [h] <;> exact hbeacon

/-- A flow that is alone with its packets: the counter is the number of gaps, cut to 32
bits. -/
theorem flowAfter_counts (qs : List FlowPkt) :
    (flowAfter qs).lastTs = (qs.getLast?.map FlowPkt.tsNs).getD 0 ∧
    (flowAfter qs).ngaps = int32 (recorded qs) := by
  induction qs using List.reverseRecOn with
  | nil => exact ⟨rfl, rfl⟩
  | append_singleton qs q ih =>
    obtain ⟨hlast, hngaps⟩ := flowRules_observe (flowAfter qs) q
    rw [show flowAfter (qs ++ [q]) = (flowRules (flowAfter qs) q).1 from exec_snoc qs q, hlast,
      hngaps, ngaps_observe, ih.1, ih.2, recorded_snoc, List.getLast?_concat]
    refine ⟨rfl, ?_⟩
    split
    · exact int32_succ _
    · rfl

/-! ## The packets of a flow -/

theorem ofFlow_snoc (k : FlowKey) (ps : List FlowPkt) (p : FlowPkt) :
    ofFlow k (ps ++ [p]) = if p.key = k then ofFlow k ps ++ [p] else ofFlow k ps :=
  own_snoc FlowPkt.key k ps p

theorem ofFlow_append (k : FlowKey) (ps qs : List FlowPkt) :
    ofFlow k (ps ++ qs) = ofFlow k ps ++ ofFlow k qs :=
  List.filter_append ..

theorem flowTracked_append {k : FlowKey} {ps : List FlowPkt} (h : FlowTracked k ps)
    (qs : List FlowPkt) : FlowTracked k (ps ++ qs) := by
  rw [FlowTracked, List.map_append]
  exact mem_admitted_append h _

/-! ## The array refines a table of slots -/

/-- The used slots are those of the table, and the others are as they were at the start. -/
structure Refines (flows : FlowTable) (t : SlotTable FlowKey Flow MAX_FLOWS) : Prop where
  entries : flows.entries = t.slots
  blank : ∀ s ∈ flows.slots, s.used = false → s.flow.gaps = List.replicate MAX_GAPS 0

theorem refines_zero : Refines FlowTable.zero (empty _ _ _) where
  entries := List.map_replicate
  blank s hs _ := by rw [List.eq_of_mem_replicate hs]; rfl

/-- The slot at a place of which a scan sees the entry. -/
theorem Refines.slot {flows : FlowTable} {t : SlotTable FlowKey Flow MAX_FLOWS}
    (h : Refines flows t) {i : Nat} {e : Option (FlowKey × Flow)} (hi : t.slots[i]? = some e) :
    ∃ s, flows.slots[i]? = some s ∧ s.entry = e := by
  rw [← h.entries, FlowTable.entries, List.getElem?_map] at hi
  exact Option.map_eq_some_iff.mp hi

theorem Refines.used_slot {flows : FlowTable} {t : SlotTable FlowKey Flow MAX_FLOWS}
    (h : Refines flows t) {i : Nat} {k : FlowKey} {f : Flow}
    (hi : t.slots[i]? = some (some (k, f))) :
    ∃ s, flows.slots[i]? = some s ∧ s.used = true ∧ s.key = k ∧ s.flow = f := by
  obtain ⟨s, hs, he⟩ := h.slot hi
  unfold FlowSlot.entry at he
  split at he
  · next hused =>
    obtain ⟨hkey, hflow⟩ := Prod.mk.inj (Option.some.inj he)
    exact ⟨s, hs, hused, hkey, hflow⟩
  · cases he

/-- A free slot has a fresh flow once it is taken. -/
theorem Refines.free_slot {flows : FlowTable} {t : SlotTable FlowKey Flow MAX_FLOWS}
    (h : Refines flows t) {i : Nat} (hi : t.slots[i]? = some none) (p : FlowPkt) :
    ∃ s, flows.slots[i]? = some s ∧ (s.take p).flow = Flow.fresh := by
  obtain ⟨s, hs, he⟩ := h.slot hi
  have hunused : s.used = false := by
    unfold FlowSlot.entry at he
    split at he
    · cases he
    · next hused => simpa using hused
  have hgaps := h.blank s (List.mem_of_getElem? hs) hunused
  refine ⟨s, hs, ?_⟩
  simp only [FlowSlot.take, Flow.fresh, Flow.mk.injEq, true_and, and_true]
  exact hgaps

theorem modify_eq_set {α : Type} {l : List α} {i : Nat} {a : α} (h : l[i]? = some a) (g : α → α) :
    l.modify i g = l.set i (g a) := by
  simp [List.modify_eq_set_getElem?, h]

/-- A used slot is written. -/
theorem Refines.set {flows flows' : FlowTable} {t t' : SlotTable FlowKey Flow MAX_FLOWS}
    (h : Refines flows t) {i : Nat} {s : FlowSlot} (hs : s.used = true)
    (hflows : flows'.slots = flows.slots.set i s) (ht : t'.slots = t.slots.set i s.entry) :
    Refines flows' t' where
  entries := by rw [ht, FlowTable.entries, hflows, List.map_set, ← h.entries]; rfl
  blank s' hs' hused := by
    rw [hflows] at hs'
    rcases List.mem_or_eq_of_mem_set hs' with hold | rfl
    · exact h.blank s' hold hused
    · rw [hs] at hused
      cases hused

/-- The rules on a slot, when the gap is stored within the ring. -/
theorem runRules_eq {flows : FlowTable} {i : Nat} {s : FlowSlot} (hs : flows.slots[i]? = some s)
    (p : FlowPkt) (hstore : s.flow.lastTs = 0 ∨ 0 ≤ s.flow.ngaps.tmod MAX_GAPS) :
    (flows.runRules i p).1.slots = flows.slots.set i { s with flow := (flowRules s.flow p).1 } ∧
    (flows.runRules i p).2 = (flowRules s.flow p).2 := by
  have hin : ¬ (s.flow.lastTs ≠ 0 ∧ s.flow.ngaps.tmod MAX_GAPS < 0) := by
    rintro ⟨hne, hneg⟩
    rcases hstore with h | h
    · exact hne h
    · exact absurd hneg (not_lt.mpr h)
  rw [FlowTable.runRules, hs]
  dsimp only
  rw [if_neg hin]
  exact ⟨modify_eq_set hs _, rfl⟩

section Step

variable {flows : FlowTable} {t t' : SlotTable FlowKey Flow MAX_FLOWS} {p : FlowPkt} {i : Nat}

/-- A free slot is taken. -/
theorem Refines.take (h : Refines flows t) (hi : t.slots[i]? = some none)
    (ht' : t'.slots = t.slots.set i (some (p.key, Flow.fresh))) :
    Refines (flows.modify i fun s => s.take p) t' := by
  obtain ⟨s, hs, hfresh⟩ := h.free_slot hi p
  have hentry : (s.take p).entry = some (p.key, (s.take p).flow) := rfl
  refine h.set (s := s.take p) rfl (modify_eq_set hs _) ?_
  rw [ht', hentry, hfresh]

/-- The rules on the slot of the flow. -/
theorem Refines.run (h : Refines flows t) {f : Flow} (hf : t.slots[i]? = some (some (p.key, f)))
    (hstore : f.lastTs = 0 ∨ 0 ≤ f.ngaps.tmod MAX_GAPS) :
    Refines (flows.runRules i p).1 (access (t, some i) fun f => flowRules f p).1 ∧
    (flows.runRules i p).2 = (access (t, some i) fun f => flowRules f p).2.getD [] := by
  obtain ⟨s, hs, hused, hkey, rfl⟩ := h.used_slot hf
  obtain ⟨hslots, hout⟩ := runRules_eq hs p hstore
  obtain ⟨hslots', hout'⟩ := access_eq hf fun f => flowRules f p
  refine ⟨h.set (s := { s with flow := (flowRules s.flow p).1 }) hused hslots ?_, ?_⟩
  · rw [hslots', FlowSlot.entry, if_pos hused, hkey]
  · rw [hout, hout']
    rfl

/-- One packet, if the gap of its flow is stored within the ring. -/
theorem Refines.step (h : Refines flows t)
    (hstore : ∀ f, t.lookup p.key = some f → f.lastTs = 0 ∨ 0 ≤ f.ngaps.tmod MAX_GAPS) :
    Refines (flowStep flows p).1 (visitStep FlowPkt.key Flow.fresh flowRules t p).1 ∧
    (flowStep flows p).2 = (visitStep FlowPkt.key Flow.fresh flowRules t p).2.getD [] := by
  obtain ⟨hfound, hfree, hfull⟩ := claim_of_search t p.key Flow.fresh
  rw [flowStep, flowGet, h.entries, visitStep, visit]
  cases hsearch : search p.key t.slots 0 none with
  | found i =>
    obtain ⟨f, hf⟩ : ∃ f, t.slots[i]? = some (some (p.key, f)) := by
      simpa using (SearchLemmas.search_found hsearch).2
    rw [hfound i hsearch]
    exact h.run hf (hstore f (lookup_eq_some_iff.mpr ⟨i, hf⟩))
  | free i =>
    obtain ⟨t', hclaim, ht'⟩ := hfree i hsearch
    have hi : t.slots[i]? = some none := by
      rcases SearchLemmas.search_free hsearch with hno | ⟨-, hs⟩
      · cases hno
      · simpa using hs
    have hnew : t'.slots[i]? = some (some (p.key, Flow.fresh)) := by
      rw [ht', List.getElem?_set_self (List.getElem?_eq_some_iff.mp hi).1]
    rw [hclaim]
    exact (h.take hi ht').run hnew (.inl rfl)
  | full =>
    rw [hfull hsearch]
    exact ⟨h, rfl⟩

end Step

/-! ## Whole runs -/

/-- No flow has recorded so many gaps that one was stored outside the ring. -/
def Within (ps : List FlowPkt) : Prop :=
  ∀ k, FlowTracked k ps → recorded (ofFlow k ps) ≤ 2 ^ 31 + 1

theorem within_of_gapsFit {ps : List FlowPkt} (h : GapsFit ps) : Within ps := fun k hk =>
  (Nat.le_of_lt (h k hk)).trans (Nat.le_succ _)

theorem gapsFit_left {ps qs : List FlowPkt} (h : GapsFit (ps ++ qs)) : GapsFit ps := fun k hk =>
  (recorded_append_le _ _).trans_lt (ofFlow_append k ps qs ▸ h k (flowTracked_append hk qs))

theorem gapsFit_at {ps pre post : List FlowPkt} {p : FlowPkt} (h : GapsFit ps)
    (he : ps = pre ++ p :: post) : GapsFit (pre ++ [p]) := by
  have hall : GapsFit ((pre ++ [p]) ++ post) := by
    rwa [List.append_assoc, List.singleton_append, ← he]
  exact gapsFit_left hall

theorem Within.left {ps qs : List FlowPkt} (h : Within (ps ++ qs)) : Within ps := fun k hk =>
  (recorded_append_le _ _).trans (ofFlow_append k ps qs ▸ h k (flowTracked_append hk qs))

theorem gapsFit_of_flows {ps : List FlowPkt} (h : ∀ k, (ofFlow k ps).length < 2 ^ 31) :
    GapsFit ps :=
  fun k _ => (recorded_le_length _).trans_lt (h k)

theorem gapsFit_of_length {ps : List FlowPkt} (h : ps.length < 2 ^ 31) : GapsFit ps :=
  gapsFit_of_flows fun _ => (List.length_filter_le _ _).trans_lt h

/-- Such a flow stores its next gap within the ring. -/
theorem store_within {qs : List FlowPkt} {q : FlowPkt} (h : recorded (qs ++ [q]) ≤ 2 ^ 31 + 1) :
    (flowAfter qs).lastTs = 0 ∨ 0 ≤ (flowAfter qs).ngaps.tmod MAX_GAPS := by
  obtain ⟨hlast, hngaps⟩ := flowAfter_counts qs
  rw [recorded_snoc, ← hlast] at h
  rcases eq_or_ne (flowAfter qs).lastTs 0 with hzero | hne
  · exact .inl hzero
  · right
    rw [if_pos hne] at h
    rw [hngaps]
    exact tmod_int32_nonneg (Nat.le_of_succ_le_succ h)

/-- The table of slots after the packets `ps`. -/
def visited (ps : List FlowPkt) : SlotTable FlowKey Flow MAX_FLOWS :=
  exec (visitStep FlowPkt.key Flow.fresh flowRules) (empty _ _ _) ps

theorem lookup_visited (ps : List FlowPkt) (k : FlowKey) :
    (visited ps).lookup k = if FlowTracked k ps then some (flowAfter (ofFlow k ps)) else none :=
  (demuxed_visits ps).1 k

theorem stores_within {ps : List FlowPkt} {p : FlowPkt} (h : Within (ps ++ [p])) {f : Flow}
    (hf : (visited ps).lookup p.key = some f) : f.lastTs = 0 ∨ 0 ≤ f.ngaps.tmod MAX_GAPS := by
  rw [lookup_visited] at hf
  split at hf
  · next htracked =>
    cases hf
    have hle := h p.key (flowTracked_append htracked [p])
    rw [ofFlow_snoc, if_pos rfl] at hle
    exact store_within hle
  · cases hf

theorem refines_after {ps : List FlowPkt} (h : Within ps) :
    Refines (after ps).flows (visited ps) := by
  induction ps using List.reverseRecOn with
  | nil => exact refines_zero
  | append_singleton ps p ih =>
    rw [after, visited, exec_snoc, exec_snoc]
    exact ((ih h.left).step fun f hf => stores_within h hf).1

end FlowTableLemmas

open FlowTableLemmas

/-- What the table of flows holds. -/
theorem lookup_flows {ps : List FlowPkt} (h : Within ps) (k : FlowKey) :
    (after ps).flows.lookup k =
      if FlowTracked k ps then some (flowAfter (ofFlow k ps)) else none := by
  rw [FlowTable.lookup, (refines_after h).entries]
  exact lookup_visited ps k

/-- The alerts of a packet's flow. -/
theorem flowStep_out {pre : List FlowPkt} {p : FlowPkt} (h : Within (pre ++ [p])) :
    (flowStep (after pre).flows p).2 =
      if FlowTracked p.key (pre ++ [p]) then (flowRules (flowAfter (ofFlow p.key pre)) p).2
      else [] := by
  rw [((refines_after h.left).step fun f hf => stores_within h hf).2]
  have hout := @visits_out _ _ _ MAX_FLOWS _ _ FlowPkt.key Flow.fresh flowRules pre p
  rw [visited, hout]
  exact apply_ite (fun o : Option (List Alert) => o.getD []) _ _ _

/-- The alerts of a packet: those of its own flow and of its own source. -/
theorem handleEvent_alerts {pre : List FlowPkt} {p : FlowPkt} (h : Within (pre ++ [p])) :
    (handleEvent (after pre) p).2 =
      (if FlowTracked p.key (pre ++ [p]) then (flowRules (flowAfter (ofFlow p.key pre)) p).2
        else []) ++
      (if SourceTracked p.saddr (pre ++ [p]) then
        (scanSource (sourceAfter (ofSource p.saddr pre)) p).2.toList else []) := by
  rw [handleEvent_scan, flowStep_out h]

end Ebpf101.Ids
