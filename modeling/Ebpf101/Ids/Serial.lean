import Ebpf101.Ids.Tap

/-!
# From the wire to the alerts

`ids.bpf.c` and `ids.c` together: runs of the tap on any number of CPUs, the ring buffer
between them and user space, and the rules. A record can be consumed only when its own
run and every run that reserved before it have submitted.

Results:
1. `alerts_linearise`: for every interleaving, the alerts printed so far are those of the
   rules on a sequence of packets: the frames that got a slot, in the order of the
   reservations, each once, as far as user space has come. Once every run has
   submitted, polling brings user space to the end of that sequence.
2. `scan_reported`: if the runs of each source read the clock in the order of their
   reservations, a packet of a source among the first `MAX_SCAN_SRC` raises a port-scan
   alert exactly when the source hit more than twenty ports in the five seconds before it
   and was not reported in the last ten.
-/

namespace Ebpf101.Ids.Tap

open Runs SlotTable

/-! ## Statements -/

/-- The alerts printed during the actions. -/
def alerts (boot : UInt64) (acts : List Action) : List Alert :=
  (outs step ⟨boot, [], 0, State.init⟩ acts).flatten

/-- What the rules print for packets that come one by one. -/
def serialAlerts (ps : List FlowPkt) : List Alert := (outs handleEvent State.init ps).flatten

/-- What a frame adds to the ring. -/
def Action.tapped : Action → Option Tapped
  | .reserve frame true => parse frame
  | _ => none

/-- The packet of a record. -/
def ofRecord (p : FlowPkt) : Tapped := ⟨p.saddr, p.daddr, p.sport, p.dport, p.len, p.proto⟩

/-- Every run of the tap has submitted its slot. -/
def AllSubmitted (m : Machine) : Prop := ∀ s ∈ m.ring, s.record ≠ none

namespace SerialLemmas

open PortscanLemmas TapLemmas

/-! ## The ring -/

theorem map_pkt_modify {f : Slot → Slot} (hf : ∀ s, (f s).pkt = s.pkt)
    (ring : List Slot) (i : Nat) :
    (ring.modify i f).map Slot.pkt = ring.map Slot.pkt := by
  refine List.ext_getElem? fun j => ?_
  rw [List.getElem?_map, List.getElem?_map, List.getElem?_modify]
  cases ring[j]? with
  | none => rfl
  | some s =>
    split
    · exact congrArg some (hf s)
    · rfl

theorem ofRecord_record {s : Slot} {p : FlowPkt} (h : s.record = some p) : ofRecord p = s.pkt := by
  unfold Slot.record at h
  split at h
  · obtain ⟨t, -, rfl⟩ := Option.map_eq_some_iff.mp h
    rfl
  · cases h

/-- The ring holds the frames that got a slot. -/
theorem ring_eq (boot : UInt64) (acts : List Action) :
    (run boot acts).ring.map Slot.pkt = acts.filterMap Action.tapped := by
  induction acts using List.reverseRecOn with
  | nil => rfl
  | append_singleton acts act ih =>
    have hrun : run boot (acts ++ [act]) = (step (run boot acts) act).1 := exec_snoc acts act
    rw [hrun, List.filterMap_append, ← ih]
    cases act with
    | tick now => exact (List.append_nil _).symm
    | stamp i =>
      exact (map_pkt_modify (f := Slot.readClock _) (fun _ => rfl) _ i).trans
        (List.append_nil _).symm
    | submit i =>
      exact (map_pkt_modify (f := Slot.submit) (fun _ => rfl) _ i).trans (List.append_nil _).symm
    | consume =>
      simp only [step]
      split <;> exact (List.append_nil _).symm
    | reserve frame room =>
      cases hp : parse frame with
      | none => cases room <;> simp [step, Action.tapped, hp]
      | some pkt => cases room <;> simp [step, Action.tapped, hp]

/-! ## Alerts -/

/-- An action prints what the rules print for the record it consumes. -/
theorem step_alerts (m : Machine) (act : Action) :
    (step m act).2 =
      if act = .consume then m.next.elim [] fun p => (handleEvent m.ids p).2 else [] := by
  cases act with
  | tick now => rfl
  | reserve frame room =>
    simp only [step]
    split
    · rfl
    · split <;> rfl
  | stamp i => rfl
  | submit i => rfl
  | consume =>
    simp only [step, if_true]
    split
    · next h => rw [h]; rfl
    · next p h => rw [h]; rfl

theorem serialAlerts_append (ps : List FlowPkt) (o : Option FlowPkt) :
    serialAlerts (ps ++ o.toList) =
      serialAlerts ps ++ o.elim [] fun p => (handleEvent (Ids.after ps) p).2 := by
  cases o with
  | none => exact (congrArg serialAlerts (List.append_nil ps)).trans (List.append_nil _).symm
  | some p =>
    unfold serialAlerts
    rw [Option.toList_some, outs_snoc, List.flatten_append]
    exact congrArg _ (List.append_nil _)

theorem alerts_eq (boot : UInt64) (acts : List Action) :
    alerts boot acts = serialAlerts (run boot acts).records := by
  induction acts using List.reverseRecOn with
  | nil => rfl
  | append_singleton acts act ih =>
    have hserved := served_run boot acts
    have hrun : run boot (acts ++ [act]) = (step (run boot acts) act).1 := exec_snoc acts act
    have halerts : alerts boot (acts ++ [act]) =
        alerts boot acts ++ (step (run boot acts) act).2 := by
      unfold alerts
      rw [outs_snoc, List.flatten_append]
      exact congrArg _ (List.append_nil _)
    rw [hrun, (hserved.step act).2, halerts, ih, step_alerts]
    split
    · rw [serialAlerts_append, hserved.ids]
    · rw [List.append_nil, List.append_nil]

/-- The records are the frames that got a slot, as far as they are consumed. -/
theorem records_eq (boot : UInt64) (acts : List Action) :
    (run boot acts).records.map ofRecord =
      (acts.filterMap Action.tapped).take (run boot acts).consumed := by
  have hmap : ∀ ss : List Slot, (∀ s ∈ ss, s.record ≠ none) →
      (ss.filterMap Slot.record).map ofRecord = ss.map Slot.pkt := by
    intro ss
    induction ss with
    | nil => exact fun _ => rfl
    | cons s ss ih =>
      intro hall
      obtain ⟨p, hp⟩ := Option.ne_none_iff_exists'.mp (hall s List.mem_cons_self)
      rw [List.filterMap_cons, hp, List.map_cons, List.map_cons, ofRecord_record hp,
        ih fun s' hs' => hall s' (List.mem_cons_of_mem s hs')]
  rw [← ring_eq boot acts, ← List.map_take]
  exact hmap _ (served_run boot acts).submitted

/-! ## Draining the ring -/

/-- A poll that finds a submitted record consumes it; the ring stays as it is. -/
theorem consume_submitted {m : Machine} (h : AllSubmitted m) (hlt : m.consumed < m.ring.length) :
    (step m .consume).1.consumed = m.consumed + 1 ∧ (step m .consume).1.ring = m.ring := by
  have hs : m.ring[m.consumed]? = some m.ring[m.consumed] := List.getElem?_eq_getElem hlt
  obtain ⟨p, hp⟩ := Option.ne_none_iff_exists'.mp (h _ (List.getElem_mem hlt))
  have hnext : m.next = some p := by
    rw [Machine.next, hs]
    exact hp
  simp only [step, hnext, and_self]

theorem consume_ring (m : Machine) : (step m .consume).1.ring = m.ring := by
  simp only [step]
  split <;> rfl

theorem drain {boot : UInt64} {acts : List Action} (h : AllSubmitted (run boot acts)) (n : Nat) :
    (run boot (acts ++ List.replicate n .consume)).ring = (run boot acts).ring ∧
    min ((run boot acts).consumed + n) (run boot acts).ring.length ≤
      (run boot (acts ++ List.replicate n .consume)).consumed := by
  induction n with
  | zero =>
    rw [List.replicate_zero, List.append_nil]
    exact ⟨rfl, Nat.min_le_left _ _⟩
  | succ n ih =>
    obtain ⟨hring, hcons⟩ := ih
    have hrun : run boot (acts ++ List.replicate (n + 1) .consume) =
        (step (run boot (acts ++ List.replicate n .consume)) .consume).1 := by
      rw [List.replicate_succ', ← List.append_assoc, run, exec_snoc]
      rfl
    have hall : AllSubmitted (run boot (acts ++ List.replicate n .consume)) := by
      intro s hs
      rw [hring] at hs
      exact h s hs
    rw [hrun]
    rcases Nat.lt_or_ge (run boot (acts ++ List.replicate n .consume)).consumed
      (run boot acts).ring.length with hlt | hge
    · obtain ⟨hnext, hkeep⟩ := consume_submitted hall (hring ▸ hlt)
      rw [hnext, hkeep]
      exact ⟨hring, by omega⟩
    · have hnone : (run boot (acts ++ List.replicate n .consume)).next = none := by
        rw [Machine.next, List.getElem?_eq_none (hring ▸ hge)]
        rfl
      rw [consume_ring, hring]
      refine ⟨rfl, ?_⟩
      simp only [step, hnone]
      omega

/-! ## Scans -/

/-- The packets of a source, up to the one that is consumed next. -/
theorem inOrder_next {boot : UInt64} {m : Machine} (h : TapInv boot m) (hboot : 0 < boot)
    {p : FlowPkt} (hp : m.next = some p) :
    InOrder ((ofSource p.saddr m.records ++ [p]).map FlowPkt.tsNs) := by
  have hf := h.follows hboot hp
  have hown : ∀ q ∈ ofSource p.saddr m.records, q ∈ m.records ∧ q.saddr = p.saddr := fun q hq =>
    ⟨(List.mem_filter.mp hq).1, of_decide_eq_true (List.mem_filter.mp hq).2⟩
  obtain ⟨s, hs, hrec⟩ := next_eq_some hp
  obtain ⟨-, hst, -⟩ := record_eq_some hrec
  have hpos : 0 < p.tsNs :=
    UInt64.lt_of_lt_of_le hboot (h.bounds s (List.mem_of_getElem? hs) p.tsNs hst).1
  rw [List.map_append, List.map_singleton]
  refine ⟨fun t ht => ?_, List.pairwise_append.mpr ⟨hf.sorted, List.pairwise_singleton _ _, ?_⟩⟩
  · rcases List.mem_append.mp ht with hold | hnew
    · obtain ⟨q, hq, rfl⟩ := List.mem_map.mp hold
      exact hf.pos q (hown q hq).1
    · rw [List.mem_singleton.mp hnew]
      exact hpos
  · intro t ht t' ht'
    obtain ⟨q, hq, rfl⟩ := List.mem_map.mp ht
    rw [List.mem_singleton.mp ht']
    exact hf.last q (hown q hq).1 (hown q hq).2

/-- The test of the cooldown, at the record that is consumed next. -/
theorem cooldown_next {boot : UInt64} {m : Machine} (h : TapInv boot m) (hboot : 0 < boot)
    {p : FlowPkt} (hp : m.next = some p) :
    ((alertTimes p.saddr m.records).getLast?.getD 0 = 0 ∨
        SCAN_COOLDOWN_NS < p.tsNs - (alertTimes p.saddr m.records).getLast?.getD 0) ↔
      ∀ t ∈ (alertTimes p.saddr m.records).getLast?, t.toNat + 10 * 10 ^ 9 < p.tsNs.toNat := by
  have hf := h.follows hboot hp
  have htime : ∀ t ∈ (alertTimes p.saddr m.records).getLast?,
      ∃ q ∈ m.records, q.saddr = p.saddr ∧ q.tsNs = t := by
    intro t ht
    obtain ⟨q, hq, rfl⟩ := List.mem_map.mp
      ((alertTimes_sublist _ _).subset (List.mem_of_getLast? ht))
    exact ⟨q, (List.mem_filter.mp hq).1, of_decide_eq_true (List.mem_filter.mp hq).2, rfl⟩
  refine cooldown_iff (fun t ht => ?_) fun t ht => ?_
  · obtain ⟨q, hq, -, rfl⟩ := htime t ht
    exact hf.pos q hq
  · obtain ⟨q, hq, hs, rfl⟩ := htime t ht
    exact hf.last q hq hs

end SerialLemmas

open SerialLemmas

/-! ## 1. Every interleaving is a serial run -/

/-- For every interleaving of the CPUs and user space. -/
theorem alerts_linearise (boot : UInt64) (acts : List Action) :
    alerts boot acts = serialAlerts (run boot acts).records ∧
    (run boot acts).records.map ofRecord =
      (acts.filterMap Action.tapped).take (run boot acts).consumed ∧
    (AllSubmitted (run boot acts) → ∀ n, (run boot acts).ring.length ≤ n →
      (run boot (acts ++ List.replicate n .consume)).records.map ofRecord =
        acts.filterMap Action.tapped) := by
  refine ⟨alerts_eq boot acts, records_eq boot acts, fun h n hn => ?_⟩
  obtain ⟨-, hcons⟩ := drain h n
  have htaps : (acts ++ List.replicate n Action.consume).filterMap Action.tapped =
      acts.filterMap Action.tapped := by
    rw [List.filterMap_append, List.filterMap_replicate]
    exact List.append_nil _
  rw [records_eq, htaps, List.take_of_length_le]
  rw [← ring_eq boot acts, List.length_map]
  exact Nat.le_trans (Nat.le_min.mpr ⟨by omega, Nat.le_refl _⟩) hcons

/-! ## 2. Scans are reported -/

open PortscanLemmas TapLemmas

/-- For every interleaving in which the runs of each source read the clock in order, and
a source that hits at most 256 ports in any five seconds. -/
theorem scan_reported {boot : UInt64} (hboot : 0 < boot) {acts : List Action}
    (h : Along (StampsInOrderAt boot) acts) {p : FlowPkt} (hp : (run boot acts).next = some p)
    (ht : SourceTracked p.saddr ((run boot acts).records ++ [p]))
    (hports : ∀ t, (portsIn t (ofSource p.saddr ((run boot acts).records ++ [p]))).card ≤ 256) :
    portscans (step (run boot acts) .consume).2 =
      if ScanDue p.saddr (run boot acts).records p then
        [.portscan p.saddr
          (portsIn p.tsNs (ofSource p.saddr ((run boot acts).records ++ [p]))).card 5]
      else [] := by
  have hinv := tapInv_run h
  have hin := inOrder_next hinv hboot hp
  rw [ofSource_snoc] at hports
  have hwin := holdsWindow_beforeJudge hin hports
  have hn := holdsWindow_card hwin hin (le_snoc (inOrder_snoc hin).2.1)
  have hout : (step (run boot acts) .consume).2 =
      (handleEvent (Ids.after (run boot acts).records) p).2 := by
    rw [step_alerts, if_pos rfl, hp, (served_run boot acts).ids]
    rfl
  rw [hout, portscans_eq, if_pos ht, (scanSource_eq _ p).1, lastAlertTs_before ht lastAlertTs_eq]
  simp only [cooldown_next hinv hboot hp, hn, ScanDue, ofSource_snoc, SCAN_PORT_THRESH]
  split <;> rfl

/-- A datagram to port `9000 + i`. -/
def exScanFrame (i : Nat) : List UInt8 :=
  exFrame.set 36 0x23 |>.set 37 (0x28 + UInt8.ofNat i)

/-- One CPU taps twenty-one of them, a millisecond apart; user space has seen all but the
last. -/
def exScan : List Action :=
  (List.range 21).flatMap (fun i =>
    [.tick (1000 + 1000000 * UInt64.ofNat i), .reserve (exScanFrame i) true, .stamp i,
      .submit i]) ++
  List.replicate 20 .consume

/-- The record of the last one. -/
def exScanLast : FlowPkt := ⟨20001000, 0x0100007f, 0x0200007f, 0x409c, 0x3c23, 43, 17⟩

/-- It raises the alert. -/
theorem exScan_reported :
    portscans (step (run 1000 exScan) .consume).2 = [.portscan 0x0100007f 21 5] := by
  have hnext : (run 1000 exScan).next = some exScanLast := by decide +kernel
  have hports : ∀ t, (portsIn t (ofSource exScanLast.saddr
      ((run 1000 exScan).records ++ [exScanLast]))).card ≤ 256 := by
    intro t
    refine Nat.le_trans (List.toFinset_card_le _) ?_
    rw [List.length_map]
    refine Nat.le_trans (List.length_filter_le _ _) (Nat.le_trans (List.length_filter_le _ _) ?_)
    decide +kernel
  have hnone : (alertTimes exScanLast.saddr (run 1000 exScan).records).getLast? = none := by
    decide +kernel
  have hdue : ScanDue exScanLast.saddr (run 1000 exScan).records exScanLast :=
    ⟨by decide +kernel, fun t ht => (nomatch hnone ▸ ht)⟩
  rw [scan_reported (by decide) (by decide +kernel) hnext (by decide +kernel) hports, if_pos hdue]
  decide +kernel

end Ebpf101.Ids.Tap
