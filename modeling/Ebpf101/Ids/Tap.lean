import Mathlib.Tactic.NormNum
import Ebpf101.Ids.FlowTable
import Ebpf101.Ids.Portscan

/-!
# The tap

`23-ids/ids.bpf.c` runs on every CPU that receives a packet. A run parses the
frame, reserves a slot of the ring buffer, reads the clock, fills the slot and
submits it. User space consumes the slots in the order of their reservations and
hands each record to the rules.

Results:
1. `timestamps_sound`: if, for each source address, the runs read the clock in
   the order of their reservations, and no flow records 2^31 gaps, then no
   subtraction of the rules wraps, no gap is longer than the run, no port leaves
   the window early, and two port-scan alerts of a source are more than ten
   seconds apart.
   `inversion_wraps`: two CPUs that read the clock in the other order make the
   subtraction in `rule_beacon` wrap.
-/

namespace Ebpf101.Ids.Tap

open Runs SlotTable

/-! ## Parsing a frame -/

/-- What a run of the tap copies out of a packet, in network order. -/
structure Tapped where
  saddr : UInt32
  daddr : UInt32
  sport : UInt16
  dport : UInt16
  len : UInt16
  proto : UInt8
deriving DecidableEq, Repr

/-- `bpf_skb_load_bytes`: all `n` bytes at `off`, or an error. -/
def skbLoadBytes (frame : List UInt8) (off n : Nat) : Option (List UInt8) :=
  if off + n ≤ frame.length then some ((frame.drop off).take n) else none

/-- The part of `ids_tap` before the reservation. The IPv4 header is taken to
have 20 bytes; `len` is cut to 16 bits. -/
def parse (frame : List UInt8) : Option Tapped :=
  match skbLoadBytes frame 0 14 with
  | none => none
  | some eth =>
    if load16 eth 12 ≠ ntohs ETH_P_IP then none
    else
      match skbLoadBytes frame 14 20 with
      | none => none
      | some ip =>
        if ip.getD 9 0 ≠ IPPROTO_TCP ∧ ip.getD 9 0 ≠ IPPROTO_UDP then none
        else
          match skbLoadBytes frame 34 4 with
          | none => none
          | some l4 =>
            some ⟨load32 ip 12, load32 ip 16, load16 l4 0, load16 l4 2, UInt16.ofNat frame.length,
              ip.getD 9 0⟩

/-! ## The ring buffer and the CPUs -/

/-- A reserved slot of the ring. -/
structure Slot where
  pkt : Tapped
  stamp : Option UInt64
  submitted : Bool
deriving DecidableEq, Repr

/-- The record that a submitted slot carries. -/
def Slot.record (s : Slot) : Option FlowPkt :=
  if s.submitted then
    s.stamp.map fun ts =>
      ⟨ts, s.pkt.saddr, s.pkt.daddr, s.pkt.sport, s.pkt.dport, s.pkt.len, s.pkt.proto⟩
  else none

/-- The clock, every slot reserved so far in the order of the reservations, how
many of them user space has consumed, and the state of the rules. -/
structure Machine where
  clock : UInt64
  ring : List Slot
  consumed : Nat
  ids : State

/-- One step of some CPU, or of user space. A run of the tap is known by its
slot: it reserves, reads the clock and submits, each in a step of its own. -/
inductive Action where
  | tick (now : UInt64)
  | reserve (frame : List UInt8) (room : Bool)
  | stamp (i : Nat)
  | submit (i : Nat)
  | consume
deriving DecidableEq

/-- The record that user space sees next, if its slot is submitted. -/
def Machine.next (m : Machine) : Option FlowPkt := (m.ring[m.consumed]?).bind Slot.record

/-- `e->ts_ns = bpf_ktime_get_ns()`: a run reads the clock once. -/
def Slot.readClock (clock : UInt64) (s : Slot) : Slot :=
  { s with stamp := s.stamp.or (some clock) }

/-- `bpf_ringbuf_submit`, after the clock was read. -/
def Slot.submit (s : Slot) : Slot := { s with submitted := s.stamp.isSome }

def step (m : Machine) : Action → Machine × List Alert
  | .tick now => ({ m with clock := if m.clock ≤ now then now else m.clock }, [])
  | .reserve frame room =>
    match parse frame with
    | none => (m, [])
    | some pkt => if room then ({ m with ring := m.ring ++ [⟨pkt, none, false⟩] }, []) else (m, [])
  | .stamp i => ({ m with ring := m.ring.modify i (Slot.readClock m.clock) }, [])
  | .submit i => ({ m with ring := m.ring.modify i Slot.submit }, [])
  | .consume =>
    match m.next with
    | none => (m, [])
    | some p =>
      ({ m with consumed := m.consumed + 1, ids := (handleEvent m.ids p).1 },
        (handleEvent m.ids p).2)

/-- The machine after the actions `acts`, the clock having started at `boot`. -/
def run (boot : UInt64) (acts : List Action) : Machine := exec step ⟨boot, [], 0, State.init⟩ acts

/-- A whole run of `ids_tap`, with room in the ring. -/
def idsTap (m : Machine) (frame : List UInt8) : Machine :=
  exec step m [.reserve frame true, .stamp m.ring.length, .submit m.ring.length]

/-- The records of the run. -/
def emitted (m : Machine) (frame : List UInt8) : List FlowPkt :=
  ((idsTap m frame).ring.drop m.ring.length).filterMap Slot.record

/-- The records consumed so far. -/
def Machine.records (m : Machine) : List FlowPkt := (m.ring.take m.consumed).filterMap Slot.record

/-! ## Statements -/

/-- No subtraction in the rules wraps when the record `p` is handled; the gap
that is stored is not longer than the run, compaction keeps every port that is
not older than the window, and an alert is more than ten seconds after every
earlier one of the same source. -/
structure Sound (boot : UInt64) (m : Machine) (p : FlowPkt) : Prop where
  gap : ∀ f, m.ids.flows.lookup p.key = some f → f.lastTs ≤ p.tsNs ∧
    (f.lastTs ≠ 0 →
      gapSecs f.lastTs p.tsNs ≤ ((m.clock.toNat : ℚ) - boot.toNat) / 1000000000)
  age : ∀ sc, m.ids.scans.lookup p.saddr = some sc →
    (∀ e ∈ sc.live, e.ts ≤ p.tsNs) ∧ sc.lastAlertTs ≤ p.tsNs ∧
    ∀ e ∈ sc.live, p.tsNs.toNat < e.ts.toNat + 5 * 10 ^ 9 → e ∈ (sc.expire p.tsNs).live
  cooldown : portscans (handleEvent m.ids p).2 ≠ [] →
    ∀ t ∈ alertTimes p.saddr m.records, t.toNat + 10 * 10 ^ 9 < p.tsNs.toNat

/-- Every record that is consumed is handled soundly. -/
def SoundAt (boot : UInt64) (pre : List Action) : Action → Prop
  | .consume => ∀ p, (run boot pre).next = some p → Sound boot (run boot pre) p
  | _ => True

/-- A run reads the clock only when every run that reserved before it, for a
packet of the same source, has read it. -/
def StampsInOrderAt (boot : UInt64) (pre : List Action) : Action → Prop
  | .stamp i => ∀ b ∈ (run boot pre).ring[i]?, b.stamp = none →
      ∀ a ∈ (run boot pre).ring.take i, a.pkt.saddr = b.pkt.saddr → a.stamp ≠ none
  | _ => True

instance (boot : UInt64) (pre : List Action) (act : Action) :
    Decidable (StampsInOrderAt boot pre act) :=
  match act with
  | .stamp _ => inferInstanceAs (Decidable (∀ _ ∈ _, _ → ∀ _ ∈ _, _ → _))
  | .tick _ | .reserve _ _ | .submit _ | .consume => isTrue trivial

namespace TapLemmas

open PortscanLemmas FlowTableLemmas

/-! ## The tables hold times of their own packets -/

/-- `t` is the time of one of the packets of the source. -/
def TimeOf (a : UInt32) (qs : List FlowPkt) (t : UInt64) : Prop :=
  ∃ q ∈ qs, q.saddr = a ∧ q.tsNs = t

theorem TimeOf.snoc {a : UInt32} {qs : List FlowPkt} {t : UInt64} (h : TimeOf a qs t)
    (p : FlowPkt) : TimeOf a (qs ++ [p]) t := by
  obtain ⟨q, hq, hs⟩ := h
  exact ⟨q, List.mem_append_left _ hq, hs⟩

theorem lastTs_flowRules (f : Flow) (p : FlowPkt) : (flowRules f p).1.lastTs = p.tsNs := by
  have hb : (ruleBeacon f p).1.lastTs = p.tsNs := by
    rcases ruleBeacon_cases f p with h | ⟨_, _, _, h⟩ <;> rw [h] <;> rfl
  have hs : ∀ g, (ruleSuspiciousPort g p).1.lastTs = g.lastTs := by
    intro g
    rcases ruleSuspiciousPort_cases g p with h | ⟨_, h⟩ <;> rw [h]
  exact (hs _).trans hb

/-- The last timestamp of a flow is that of one of its packets. -/
theorem flow_lastTs {qs : List FlowPkt} (hfit : GapsFit qs) {k : FlowKey} {f : Flow}
    (h : (Ids.after qs).flows.lookup k = some f) (hne : f.lastTs ≠ 0) :
    TimeOf k.saddr qs f.lastTs := by
  rw [lookup_flows (within_of_gapsFit hfit)] at h
  split at h
  · cases h
    rcases List.eq_nil_or_concat (ofFlow k qs) with hnil | ⟨rs, q, hsnoc⟩
    · rw [hnil] at hne
      exact absurd rfl hne
    · have hq : q ∈ ofFlow k qs := by simp [hsnoc]
      obtain ⟨hmem, hk⟩ := List.mem_filter.mp hq
      refine ⟨q, hmem, ?_, ?_⟩
      · rw [← of_decide_eq_true hk]
        rfl
      · rw [hsnoc, List.concat_eq_append, flowAfter, exec_snoc, lastTs_flowRules]
  · cases h

/-- Recording a port brings in no time but the present one. -/
theorem ts_record {sc : ScanSrc} {port : UInt16} {now : UInt64} {e : Seen}
    (h : e ∈ (sc.record port now).live) : e.ts = now ∨ ∃ e' ∈ sc.live, e'.ts = e.ts := by
  cases hi : (sc.seen.take sc.n).findIdx? (fun e => e.port = port) with
  | some i =>
    rw [live_record_known now hi] at h
    obtain ⟨j, hj⟩ := List.mem_iff_getElem?.mp h
    rw [List.getElem?_modify] at hj
    obtain ⟨e', he', heq⟩ := Option.map_eq_some_iff.mp hj
    split at heq
    · left
      rw [← heq]
    · right
      exact ⟨e', List.mem_of_getElem? he', by rw [heq]⟩
  | none =>
    rcases Nat.lt_or_ge sc.n MAX_SCAN_PORTS with hlt | hfull
    · rw [live_record_new now hi hlt] at h
      rcases List.mem_append.mp h with hmem | hmem
      · exact Or.inr ⟨e, hmem, rfl⟩
      · left
        rw [List.mem_singleton.mp hmem]
    · -- the table is full, and stays as it is
      have hsame : sc.record port now = sc := by
        simp only [ScanSrc.record, hi, dif_neg (Nat.not_lt.mpr hfull)]
      exact Or.inr ⟨e, hsame ▸ h, rfl⟩

/-- The times in the table of a source, and that of its last alert, are those
of its packets. -/
def OwnTimes (a : UInt32) (qs : List FlowPkt) (sc : ScanSrc) : Prop :=
  (∀ e ∈ sc.live, TimeOf a qs e.ts) ∧ (sc.lastAlertTs ≠ 0 → TimeOf a qs sc.lastAlertTs)

theorem ownTimes_step {a : UInt32} {qs : List FlowPkt} {sc : ScanSrc} (h : OwnTimes a qs sc)
    {p : FlowPkt} (hp : p.saddr = a) : OwnTimes a (qs ++ [p]) (scanSource sc p).1 := by
  have hnow : TimeOf a (qs ++ [p]) p.tsNs := ⟨p, by simp, hp, rfl⟩
  constructor
  · intro e he
    have hrec : e ∈ (beforeJudge sc p).live := by
      rw [← live_judge (beforeJudge sc p) p]
      exact he
    rcases ts_record hrec with ht | ⟨e', he', ht⟩
    · exact ht ▸ hnow
    · rw [live_expire] at he'
      exact ht ▸ (h.1 e' (List.mem_filter.mp he').1).snoc p
  · rw [(scanSource_eq sc p).2]
    split
    · exact fun _ => hnow
    · exact fun hne => (h.2 hne).snoc p

theorem ownTimes_sourceAfter (a : UInt32) (qs : List FlowPkt) :
    OwnTimes a qs (sourceAfter (ofSource a qs)) := by
  induction qs using List.reverseRecOn with
  | nil =>
    refine ⟨fun e he => ?_, fun hne => absurd rfl hne⟩
    exact absurd he (by simp [ofSource, own, sourceAfter, ScanSrc.fresh, ScanSrc.live])
  | append_singleton qs p ih =>
    rw [ofSource, own_snoc]
    split
    · next hp =>
      rw [sourceAfter, exec_snoc]
      exact ownTimes_step ih hp
    · exact ⟨fun e he => (ih.1 e he).snoc p, fun hne => (ih.2 hne).snoc p⟩

theorem alertTimes_sublist (a : UInt32) (qs : List FlowPkt) :
    (alertTimes a qs).Sublist ((ofSource a qs).map FlowPkt.tsNs) := by
  induction qs using List.reverseRecOn with
  | nil => exact List.Sublist.refl _
  | append_singleton qs p ih =>
    rw [alertTimes_snoc, ofSource, own_snoc]
    split
    · next hc =>
      rw [if_pos hc.1, List.map_append]
      exact ih.append (List.Sublist.refl _)
    · rw [List.append_nil]
      split
      · rw [List.map_append]
        exact ih.trans (List.sublist_append_left _ _)
      · exact ih

/-! ## One record -/

/-- The records of a source come in the order of their times, and `p` last. -/
structure Follows (qs : List FlowPkt) (p : FlowPkt) : Prop where
  pos : ∀ q ∈ qs, 0 < q.tsNs
  sorted : ((ofSource p.saddr qs).map FlowPkt.tsNs).Pairwise (· ≤ ·)
  last : ∀ q ∈ qs, q.saddr = p.saddr → q.tsNs ≤ p.tsNs

theorem Follows.le {qs : List FlowPkt} {p : FlowPkt} (h : Follows qs p) {t : UInt64}
    (ht : TimeOf p.saddr qs t) : t ≤ p.tsNs := by
  obtain ⟨q, hq, hs, rfl⟩ := ht
  exact h.last q hq hs

theorem zero_le_ts (t : UInt64) : 0 ≤ t := UInt64.le_iff_toNat_le.mpr (Nat.zero_le _)

theorem Follows.gap {qs : List FlowPkt} {p : FlowPkt} (h : Follows qs p) (hfit : GapsFit qs)
    {f : Flow} (hf : (Ids.after qs).flows.lookup p.key = some f) : f.lastTs ≤ p.tsNs := by
  by_cases hne : f.lastTs = 0
  · rw [hne]
    exact zero_le_ts _
  · exact h.le (flow_lastTs hfit hf hne)

theorem Follows.age {qs : List FlowPkt} {p : FlowPkt} (h : Follows qs p) {sc : ScanSrc}
    (hsc : (Ids.after qs).scans.lookup p.saddr = some sc) :
    (∀ e ∈ sc.live, e.ts ≤ p.tsNs) ∧ sc.lastAlertTs ≤ p.tsNs := by
  rw [lookup_scans] at hsc
  split at hsc
  · cases hsc
    obtain ⟨hlive, halert⟩ := ownTimes_sourceAfter p.saddr qs
    refine ⟨fun e he => h.le (hlive e he), ?_⟩
    by_cases hne : (sourceAfter (ofSource p.saddr qs)).lastAlertTs = 0
    · rw [hne]
      exact zero_le_ts _
    · exact h.le (halert hne)
  · cases hsc

/-- The last of a sorted list is its largest element. -/
theorem le_getLast {ts : List UInt64} (h : ts.Pairwise (· ≤ ·)) {t : UInt64} (ht : t ∈ ts) :
    ∃ l, ts.getLast? = some l ∧ t ≤ l ∧ l ∈ ts := by
  rcases List.eq_nil_or_concat ts with rfl | ⟨us, l, rfl⟩
  · exact absurd ht List.not_mem_nil
  · rw [List.concat_eq_append] at *
    refine ⟨l, by simp, ?_, by simp⟩
    rcases List.mem_append.mp ht with hu | hu
    · exact (List.pairwise_append.mp h).2.2 t hu l (by simp)
    · rw [List.mem_singleton.mp hu]
      exact UInt64.le_refl _

theorem Follows.cooldown {qs : List FlowPkt} {p : FlowPkt} (h : Follows qs p)
    (hal : portscans (handleEvent (Ids.after qs) p).2 ≠ []) :
    ∀ t ∈ alertTimes p.saddr qs, t.toNat + 10 * 10 ^ 9 < p.tsNs.toNat := by
  intro t ht
  obtain ⟨l, hl, htl, hmem⟩ := le_getLast (h.sorted.sublist (alertTimes_sublist _ _)) ht
  have hcool := @cooldown_iff p.tsNs (alertTimes p.saddr qs).getLast?
    (fun t' ht' => by
      obtain ⟨q, hq, rfl⟩ := List.mem_map.mp (mem_alertTimes (List.mem_of_getLast? ht'))
      exact h.pos q hq)
    (fun t' ht' => by
      have hown := (alertTimes_sublist p.saddr qs).subset (List.mem_of_getLast? ht')
      obtain ⟨q, hq, rfl⟩ := List.mem_map.mp hown
      obtain ⟨hq', hs⟩ := List.mem_filter.mp hq
      exact h.last q hq' (of_decide_eq_true hs))
  rw [portscans_eq] at hal
  split at hal
  · next htr =>
    rw [(scanSource_eq _ p).1, lastAlertTs_before htr lastAlertTs_eq] at hal
    split at hal
    · next hc =>
      have hlast := hcool.mp hc.2 l hl
      have := UInt64.le_iff_toNat_le.mp htl
      omega
    · exact absurd rfl hal
  · exact absurd rfl hal

/-! ## One run -/

theorem modify_last (ring : List Slot) (slot : Slot) (f : Slot → Slot) :
    (ring ++ [slot]).modify ring.length f = ring ++ [f slot] := by
  induction ring with
  | nil => rfl
  | cons s ring ih => simp [ih]

/-- A whole run of the tap: one submitted slot for a frame it parses, nothing for any
other. -/
theorem idsTap_eq (m : Machine) (frame : List UInt8) :
    idsTap m frame =
      match parse frame with
      | some pkt => { m with ring := m.ring ++ [⟨pkt, some m.clock, true⟩] }
      | none => m := by
  unfold idsTap
  cases hp : parse frame with
  | none =>
    have hsame : ∀ f : Slot → Slot, m.ring.modify m.ring.length f = m.ring :=
      fun f => List.modify_eq_self (Nat.le_refl _)
    simp [step, hp, hsame]
  | some pkt => simp [step, hp, modify_last, Slot.readClock, Slot.submit]

/-! ## The ring -/

/-- `a` was reserved before `b`: if they are of one source and `b` has read the
clock, so has `a`, and not later. -/
def Before (a b : Slot) : Prop :=
  a.pkt.saddr = b.pkt.saddr → ∀ t ∈ b.stamp, ∃ u ∈ a.stamp, u ≤ t

/-- What holds of the ring while the runs read the clock in order. -/
structure TapInv (boot : UInt64) (m : Machine) : Prop where
  boot_le : boot ≤ m.clock
  bounds : ∀ s ∈ m.ring, ∀ t ∈ s.stamp, boot ≤ t ∧ t ≤ m.clock
  ordered : m.ring.Pairwise Before

/-- What holds of every run: user space has consumed a part of the ring that is submitted, which is
what the rules have seen. -/
structure Served (m : Machine) : Prop where
  consumed_le : m.consumed ≤ m.ring.length
  submitted : ∀ s ∈ m.ring.take m.consumed, s.record ≠ none
  ids : m.ids = Ids.after m.records

theorem record_eq_some {s : Slot} {p : FlowPkt} (h : s.record = some p) :
    s.submitted = true ∧ s.stamp = some p.tsNs ∧ p.saddr = s.pkt.saddr := by
  unfold Slot.record at h
  split at h
  · next hs =>
    obtain ⟨t, ht, rfl⟩ := Option.map_eq_some_iff.mp h
    exact ⟨hs, ht, rfl⟩
  · cases h

/-- A run that has read the clock has read it before or reads it now. -/
theorem stamp_readClock {clock t : UInt64} {s : Slot} (h : t ∈ (s.readClock clock).stamp) :
    s.stamp = none ∧ t = clock ∨ s.stamp = some t := by
  cases hst : s.stamp with
  | none =>
    simp [Slot.readClock, hst] at h
    exact Or.inl ⟨rfl, h.symm⟩
  | some u =>
    simp [Slot.readClock, hst] at h
    exact Or.inr (by rw [h])

/-- The slots up to the next one that user space looks at. -/
theorem take_next {m : Machine} {s : Slot} (h : m.ring[m.consumed]? = some s) :
    m.ring.take (m.consumed + 1) = m.ring.take m.consumed ++ [s] := by
  rw [List.take_add_one, h]
  rfl

/-- No record is older than the start of the clock. -/
theorem TapInv.boot_le_record {boot : UInt64} {m : Machine} (h : TapInv boot m) {q : FlowPkt}
    (hq : q ∈ m.records) : boot ≤ q.tsNs := by
  obtain ⟨a, ha, hrec⟩ := List.mem_filterMap.mp hq
  obtain ⟨-, hst, -⟩ := record_eq_some hrec
  exact (h.bounds a (List.mem_of_mem_take ha) q.tsNs hst).1

theorem modify_fixed {α : Type} {xs : List α} {f : α → α} {n : Nat} (i : Nat)
    (h : ∀ x ∈ xs.take n, f x = x) : (xs.modify i f).take n = xs.take n := by
  rw [take_modify]
  refine List.ext_getElem? fun j => ?_
  rw [List.getElem?_modify]
  cases hj : (xs.take n)[j]? with
  | none => simp
  | some x =>
    have hx := h x (List.mem_of_getElem? hj)
    split <;> simp [hx]

theorem readClock_record {s : Slot} (h : s.record ≠ none) (clock : UInt64) :
    s.readClock clock = s := by
  obtain ⟨p, hp⟩ := Option.ne_none_iff_exists'.mp h
  obtain ⟨-, hst, -⟩ := record_eq_some hp
  cases s
  cases hst
  rfl

theorem submit_record {s : Slot} (h : s.record ≠ none) : s.submit = s := by
  obtain ⟨p, hp⟩ := Option.ne_none_iff_exists'.mp h
  obtain ⟨hsub, hst, -⟩ := record_eq_some hp
  cases s
  cases hsub
  cases hst
  rfl

/-- A step that rewrites one slot and leaves submitted ones alone. -/
theorem Served.modify {m : Machine} (h : Served m) (i : Nat) {f : Slot → Slot}
    (hfix : ∀ s, s.record ≠ none → f s = s) :
    Served { m with ring := m.ring.modify i f } ∧
    Machine.records { m with ring := m.ring.modify i f } = m.records := by
  have htake : (m.ring.modify i f).take m.consumed = m.ring.take m.consumed :=
    modify_fixed i fun s hs => hfix s (h.submitted s hs)
  have hrec : Machine.records { m with ring := m.ring.modify i f } = m.records :=
    congrArg (List.filterMap Slot.record) htake
  refine ⟨⟨?_, ?_, ?_⟩, hrec⟩
  · rw [List.length_modify]
    exact h.consumed_le
  · rw [htake]
    exact h.submitted
  · rw [hrec]
    exact h.ids

theorem Served.reserve {m : Machine} (h : Served m) (frame : List UInt8) (room : Bool) :
    Served (step m (.reserve frame room)).1 ∧
    (step m (.reserve frame room)).1.records = m.records := by
  simp only [step]
  split
  · exact ⟨h, rfl⟩
  · split
    · next pkt _ _ =>
      have htake : (m.ring ++ [(⟨pkt, none, false⟩ : Slot)]).take m.consumed =
          m.ring.take m.consumed := List.take_append_of_le_length h.consumed_le
      have hrec : Machine.records { m with ring := m.ring ++ [⟨pkt, none, false⟩] } = m.records :=
        congrArg (List.filterMap Slot.record) htake
      refine ⟨⟨?_, ?_, ?_⟩, hrec⟩
      · rw [List.length_append]
        exact Nat.le_add_right_of_le h.consumed_le
      · rw [htake]
        exact h.submitted
      · rw [hrec]
        exact h.ids
    · exact ⟨h, rfl⟩

/-- The slot that is consumed. -/
theorem next_eq_some {m : Machine} {p : FlowPkt} (h : m.next = some p) :
    ∃ s, m.ring[m.consumed]? = some s ∧ s.record = some p :=
  Option.bind_eq_some_iff.mp h

/-- User space sees the next record, or nothing. -/
theorem Served.consume {m : Machine} (h : Served m) :
    Served (step m .consume).1 ∧ (step m .consume).1.records = m.records ++ m.next.toList := by
  cases hn : m.next with
  | none =>
    have hstep : (step m .consume).1 = m := by simp [step, hn]
    rw [hstep]
    exact ⟨h, (List.append_nil _).symm⟩
  | some p =>
    have hstep : (step m .consume).1 =
        { m with consumed := m.consumed + 1, ids := (handleEvent m.ids p).1 } := by simp [step, hn]
    rw [hstep]
    obtain ⟨s, hs, hrec⟩ := next_eq_some hn
    obtain ⟨hlt, -⟩ := List.getElem?_eq_some_iff.mp hs
    have hrecords : Machine.records
        { m with consumed := m.consumed + 1, ids := (handleEvent m.ids p).1 } =
        m.records ++ [p] := by
      show (m.ring.take (m.consumed + 1)).filterMap Slot.record = _
      rw [take_next hs, List.filterMap_append, List.filterMap_cons, hrec]
      rfl
    refine ⟨⟨hlt, ?_, ?_⟩, hrecords⟩
    · rw [take_next hs]
      intro s' hs'
      rcases List.mem_append.mp hs' with hold | hnew
      · exact h.submitted s' hold
      · rw [List.mem_singleton.mp hnew, hrec]
        exact Option.some_ne_none p
    · rw [hrecords, Ids.after, exec_snoc]
      show (handleEvent m.ids p).1 = _
      rw [h.ids]
      rfl

/-- What each action does: only `consume` adds a record. -/
theorem Served.step {m : Machine} (h : Served m) (act : Action) :
    Served (Tap.step m act).1 ∧
    (Tap.step m act).1.records =
      m.records ++ if act = .consume then m.next.toList else [] := by
  cases act with
  | tick now => exact ⟨⟨h.consumed_le, h.submitted, h.ids⟩, (List.append_nil _).symm⟩
  | reserve frame room =>
    rw [if_neg (by simp), List.append_nil]
    exact h.reserve frame room
  | stamp i =>
    rw [if_neg (by simp), List.append_nil]
    exact h.modify i fun s hs => readClock_record hs _
  | submit i =>
    rw [if_neg (by simp), List.append_nil]
    exact h.modify i fun s hs => submit_record hs
  | consume =>
    rw [if_pos rfl]
    exact h.consume

theorem served_run (boot : UInt64) (acts : List Action) : Served (run boot acts) := by
  induction acts using List.reverseRecOn with
  | nil => exact ⟨Nat.le_refl 0, fun s hs => absurd hs (by simp [run]), rfl⟩
  | append_singleton acts act ih =>
    rw [run, exec_snoc]
    exact (ih.step act).1

/-- What has been consumed stays consumed. -/
theorem records_append (boot : UInt64) (pre post : List Action) :
    ∃ qs, (run boot (pre ++ post)).records = (run boot pre).records ++ qs := by
  induction post using List.reverseRecOn with
  | nil => exact ⟨[], by rw [List.append_nil, List.append_nil]⟩
  | append_singleton post act ih =>
    obtain ⟨qs, hqs⟩ := ih
    have hrun : run boot (pre ++ (post ++ [act])) = (Tap.step (run boot (pre ++ post)) act).1 := by
      rw [← List.append_assoc]
      exact exec_snoc _ act
    rw [hrun, ((served_run boot (pre ++ post)).step act).2, hqs, List.append_assoc]
    exact ⟨_, rfl⟩

/-- A step that rewrites one slot keeps the invariant, if it keeps the bounds and the
order. -/
theorem TapInv.modify {boot : UInt64} {m : Machine} (h : TapInv boot m) (i : Nat) (f : Slot → Slot)
    (hbounds : ∀ s ∈ m.ring, ∀ t ∈ (f s).stamp, boot ≤ t ∧ t ≤ m.clock)
    (hordered : (m.ring.modify i f).Pairwise Before) :
    TapInv boot { m with ring := m.ring.modify i f } := by
  refine ⟨h.boot_le, fun s hs => ?_, hordered⟩
  obtain ⟨j, hj⟩ := List.mem_iff_getElem?.mp hs
  rw [List.getElem?_modify] at hj
  obtain ⟨s', hs', heq⟩ := Option.map_eq_some_iff.mp hj
  have hmem := List.mem_of_getElem? hs'
  split at heq
  · rw [← heq]
    exact hbounds s' hmem
  · rw [← heq]
    exact h.bounds s' hmem

/-- The order of a ring in which slot `i` was rewritten. -/
theorem pairwise_modify {ring : List Slot} {i : Nat} {f : Slot → Slot}
    (h : ring.Pairwise Before)
    (hleft : ∀ j a b, j < i → ring[j]? = some a → ring[i]? = some b → Before a b → Before a (f b))
    (hright : ∀ a b, Before a b → Before (f a) b) :
    (ring.modify i f).Pairwise Before := by
  rw [List.pairwise_iff_getElem] at h ⊢
  intro j k hj hk hjk
  rw [List.length_modify] at hj hk
  rw [List.getElem_modify, List.getElem_modify]
  have hold := h j k hj hk hjk
  split
  · next hij =>
    rw [if_neg (by omega)]
    exact hright _ _ hold
  · split
    · next hik =>
      subst hik
      exact hleft j _ _ hjk (List.getElem?_eq_getElem hj) (List.getElem?_eq_getElem hk) hold
    · exact hold

theorem TapInv.stamp {boot : UInt64} {m : Machine} (h : TapInv boot m) (i : Nat)
    (hin : ∀ b ∈ m.ring[i]?, b.stamp = none →
      ∀ a ∈ m.ring.take i, a.pkt.saddr = b.pkt.saddr → a.stamp ≠ none) :
    TapInv boot (step m (.stamp i)).1 := by
  refine h.modify i _ ?_ ?_
  · intro s hs t ht
    rcases stamp_readClock ht with ⟨-, rfl⟩ | hst
    · exact ⟨h.boot_le, UInt64.le_refl _⟩
    · exact h.bounds s hs t hst
  · refine pairwise_modify h.ordered ?_ ?_
    · intro j a b hj ha hb hab hs t ht
      rcases stamp_readClock ht with ⟨hst, rfl⟩ | hst
      · -- the clock is read now: every earlier run of the source has read it
        have hmem : a ∈ m.ring.take i :=
          List.mem_of_getElem? (by rw [List.getElem?_take, if_pos hj, ha])
        obtain ⟨u, hu⟩ := Option.ne_none_iff_exists'.mp (hin b hb hst a hmem hs)
        exact ⟨u, hu, (h.bounds a (List.mem_of_getElem? ha) u hu).2⟩
      · exact hab hs t hst
    · intro a b hab hs t ht
      obtain ⟨u, hu, hle⟩ := hab hs t ht
      rw [Option.mem_def] at hu
      exact ⟨u, by simp [Slot.readClock, hu], hle⟩

theorem TapInv.submit {boot : UInt64} {m : Machine} (h : TapInv boot m) (i : Nat) :
    TapInv boot (step m (.submit i)).1 :=
  h.modify i _ h.bounds
    (pairwise_modify h.ordered (fun _ _ _ _ _ _ hab => hab) fun _ _ hab => hab)

theorem TapInv.reserve {boot : UInt64} {m : Machine} (h : TapInv boot m) (frame : List UInt8)
    (room : Bool) : TapInv boot (step m (.reserve frame room)).1 := by
  simp only [step]
  split
  · exact h
  · split
    · refine ⟨h.boot_le, ?_, ?_⟩
      · intro s hs t ht
        rcases List.mem_append.mp hs with hs | hs
        · exact h.bounds s hs t ht
        · rw [List.mem_singleton.mp hs] at ht
          cases ht
      · refine List.pairwise_append.mpr ⟨h.ordered, List.pairwise_singleton _ _, ?_⟩
        intro a _ b hb _ t ht
        rw [List.mem_singleton.mp hb] at ht
        cases ht
    · exact h

theorem TapInv.tick {boot : UInt64} {m : Machine} (h : TapInv boot m) (now : UInt64) :
    TapInv boot (step m (.tick now)).1 := by
  have hle : m.clock ≤ if m.clock ≤ now then now else m.clock := by
    split
    · assumption
    · exact UInt64.le_refl _
  refine ⟨UInt64.le_trans h.boot_le hle, fun s hs t ht => ?_, h.ordered⟩
  obtain ⟨hlo, hhi⟩ := h.bounds s hs t ht
  exact ⟨hlo, UInt64.le_trans hhi hle⟩

theorem TapInv.consume {boot : UInt64} {m : Machine} (h : TapInv boot m) :
    TapInv boot (step m .consume).1 := by
  simp only [step]
  split
  · exact h
  · exact ⟨h.boot_le, h.bounds, h.ordered⟩

theorem tapInv_run {boot : UInt64} {acts : List Action} (h : Along (StampsInOrderAt boot) acts) :
    TapInv boot (run boot acts) := by
  refine exec_history (Q := StampsInOrderAt boot) (fun _ => TapInv boot) ?_ ?_ acts h
  · exact ⟨UInt64.le_refl _, fun s hs => absurd hs List.not_mem_nil, List.Pairwise.nil⟩
  · intro pre act _ hin ih
    cases act with
    | tick now => exact ih.tick now
    | reserve frame room => exact ih.reserve frame room
    | stamp i => exact ih.stamp i hin
    | submit i => exact ih.submit i
    | consume => exact ih.consume

/-- The records of a source are consumed in the order of their times. -/
theorem TapInv.follows {boot : UInt64} {m : Machine} (h : TapInv boot m) (hboot : 0 < boot)
    {p : FlowPkt} (hp : m.next = some p) : Follows m.records p := by
  obtain ⟨s, hs, hrec⟩ := next_eq_some hp
  obtain ⟨-, hstamp, hsaddr⟩ := record_eq_some hrec
  have hpre : (m.ring.take m.consumed ++ [s]).Pairwise Before := by
    rw [← take_next hs]
    exact h.ordered.sublist (List.take_sublist _ _)
  obtain ⟨hall, -, hlast⟩ := List.pairwise_append.mp hpre
  refine ⟨fun q hq => ?_, ?_, fun q hq hqs => ?_⟩
  · rw [UInt64.lt_iff_toNat_lt] at hboot ⊢
    exact Nat.lt_of_lt_of_le hboot (UInt64.le_iff_toNat_le.mp (h.boot_le_record hq))
  · rw [ofSource, own, List.pairwise_map, List.pairwise_filter, Machine.records,
      List.pairwise_filterMap]
    refine hall.imp fun {a b} hab q hq r hr hqs hrs => ?_
    obtain ⟨-, hqst, hqa⟩ := record_eq_some hq
    obtain ⟨-, hrst, hrb⟩ := record_eq_some hr
    rw [decide_eq_true_eq] at hqs hrs
    obtain ⟨u, hu, hle⟩ := hab (by rw [← hqa, ← hrb, hqs, hrs]) r.tsNs hrst
    rw [Option.mem_def, hqst] at hu
    cases hu
    exact hle
  · obtain ⟨a, ha, hq⟩ := List.mem_filterMap.mp hq
    obtain ⟨-, hqst, hqa⟩ := record_eq_some hq
    obtain ⟨u, hu, hle⟩ := hlast a ha s (by simp) (by rw [← hqa, ← hsaddr, hqs]) p.tsNs hstamp
    rw [Option.mem_def, hqst] at hu
    cases hu
    exact hle

end TapLemmas

open TapLemmas FlowTableLemmas

/-! ## 1. Timestamps in order -/

/-- For any interleaving of runs of the tap and of user space, with any ring-full
failures: if the runs of each source read the clock in the order of their
reservations, and no flow of the records consumed has 2^31 gaps, every record is handled
soundly. -/
theorem timestamps_sound {boot : UInt64} (hboot : 0 < boot) {acts : List Action}
    (h : Along (StampsInOrderAt boot) acts) (hfit : GapsFit (run boot acts).records) :
    Along (SoundAt boot) acts := by
  intro pre act post he
  have hinv : TapInv boot (run boot pre) := tapInv_run (he ▸ h).left
  have hserved := served_run boot pre
  have hpre : GapsFit (run boot pre).records := by
    obtain ⟨qs, hqs⟩ := records_append boot pre (act :: post)
    rw [← he] at hqs
    exact gapsFit_left (hqs ▸ hfit)
  cases act with
  | consume =>
    intro p hp
    have hf := hinv.follows hboot hp
    obtain ⟨s, hs, hrec⟩ := next_eq_some hp
    obtain ⟨-, hstamp, -⟩ := record_eq_some hrec
    have hclock := (hinv.bounds s (List.mem_of_getElem? hs) p.tsNs hstamp).2
    refine ⟨fun f hlook => ?_, fun sc hlook => ?_, ?_⟩
    · rw [hserved.ids] at hlook
      refine ⟨hf.gap hpre hlook, fun hne => ?_⟩
      obtain ⟨q, hq, -, hqt⟩ := flow_lastTs hpre hlook hne
      have hlo := hinv.boot_le_record hq
      rw [hqt, UInt64.le_iff_toNat_le] at hlo
      rw [gapSecs_eq (hf.gap hpre hlook)]
      have hhi := UInt64.le_iff_toNat_le.mp hclock
      refine div_le_div_of_nonneg_right (sub_le_sub ?_ ?_) (by norm_num)
      · exact_mod_cast hhi
      · exact_mod_cast hlo
    · rw [hserved.ids] at hlook
      obtain ⟨hlive, halert⟩ := hf.age hlook
      refine ⟨hlive, halert, fun e he' hage => ?_⟩
      rw [PortscanLemmas.live_expire, List.mem_filter]
      exact ⟨he', (PortscanLemmas.inWindow_iff (hlive e he') e.port).mpr ⟨hlive e he', hage⟩⟩
    · intro hal
      rw [hserved.ids] at hal
      exact hf.cooldown hal
  | tick now => trivial
  | reserve frame room => trivial
  | stamp i => trivial
  | submit i => trivial

/-- A UDP datagram of 127.0.0.1 to port 9999 of 127.0.0.2. -/
def exFrame : List UInt8 :=
  [0, 0, 0, 0, 0, 0, 0, 0, 0, 0, 0, 0, 0x08, 0x00] ++
  [0x45, 0, 0, 29, 0, 0, 0, 0, 64, 17, 0, 0, 127, 0, 0, 1, 127, 0, 0, 2] ++
  [0x9c, 0x40, 0x27, 0x0f, 0, 9, 0, 0, 120]

/-- Two CPUs tap one datagram each; the clocks are read as the slots were reserved. -/
def exInOrder : List Action :=
  [.reserve exFrame true, .reserve exFrame true, .stamp 0, .tick 1001, .stamp 1,
   .submit 1, .submit 0, .consume, .consume]

/-- The same, but the second CPU reads the clock before the first does. -/
def exInversion : List Action :=
  [.reserve exFrame true, .reserve exFrame true, .stamp 1, .tick 1001, .stamp 0,
   .submit 1, .submit 0, .consume, .consume]

theorem exInOrder_sound : Along (SoundAt 1000) exInOrder :=
  timestamps_sound (by decide) (by decide +kernel) (gapsFit_of_length (by decide +kernel))

/-- The second record is one nanosecond older than the first: the gap that
`rule_beacon` stores is 2^64 - 1 nanoseconds. -/
theorem inversion_wraps :
    ¬ Along (SoundAt 1000) exInversion ∧
    ((run 1000 exInversion).ids.flows.lookup ⟨0x0100007f, 0x0200007f, 0x0f27, 17⟩).map
      (fun f => f.gaps.head?) = some (some ((2 ^ 64 - 1) / 10 ^ 9)) := by
  refine ⟨fun h => ?_, by decide +kernel⟩
  have hnext : (run 1000 (exInversion.take 8)).next =
      some ⟨1000, 0x0100007f, 0x0200007f, 0x409c, 0x0f27, 43, 17⟩ := by decide +kernel
  have hlast : ((run 1000 (exInversion.take 8)).ids.flows.lookup
      ⟨0x0100007f, 0x0200007f, 0x0f27, 17⟩).map Flow.lastTs = some 1001 := by decide +kernel
  obtain ⟨f, hf, hts⟩ := Option.map_eq_some_iff.mp hlast
  have hle := ((h (exInversion.take 8) .consume [] rfl _ hnext).gap f hf).1
  rw [hts] at hle
  exact absurd hle (by decide)

end Ebpf101.Ids.Tap
