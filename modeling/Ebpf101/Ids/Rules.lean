import Mathlib.Algebra.Order.Field.Rat
import Mathlib.Data.Int.Log
import Ebpf101.Basic
import Ebpf101.Lib.InPlace
import Ebpf101.Lib.Printed
import Ebpf101.Lib.SlotTable

/-!
# The intrusion detector

`23-ids/ids.c`: one call of `handle_event` for each record of the ring buffer.
Rules 1 and 3 share a table of flows, rule 2 has a table of source addresses;
both are static arrays searched by a linear scan.

Timestamps are 64-bit words and their differences wrap. Gaps, means and
variances, `double` in the source, are exact rationals here; the coefficient of
variation is compared through its square (`Ids.Beacon` gives it as a real).

The counter of the gaps is a signed `int` that wraps, so on a long flow the ring
is written at a negative index. `struct flow` is laid out as on x86-64, and such
a store changes the fields that lie there. What lies in front of the first slot
of the table is not modelled.
-/

namespace Ebpf101.Ids

/-! ## Tunables -/

def MAX_FLOWS : Nat := 1024
def MAX_GAPS : Nat := 8
def BEACON_MIN_SAMPLES : Int := 5
def BEACON_CV_MAX : ℚ := 1 / 10
def BEACON_MIN_INTERVAL : ℚ := 1
def BEACON_MAX_INTERVAL : ℚ := 300
def MAX_SCAN_SRC : Nat := 64
def MAX_SCAN_PORTS : Nat := 256
def SCAN_WINDOW_NS : UInt64 := 5 * 1000000000
def SCAN_PORT_THRESH : Nat := 20
def SCAN_COOLDOWN_NS : UInt64 := 10 * 1000000000

/-- The signature list: ports associated with C2 frameworks and backdoors. -/
def suspicious : List (UInt16 × String) :=
  [(1337, "leet — common backdoor"),
   (4444, "Metasploit/Meterpreter default"),
   (5555, "ADB / common Android RAT"),
   (6667, "IRC (classic botnet C2)"),
   (12345, "NetBus backdoor"),
   (31337, "Back Orifice backdoor"),
   (50050, "Cobalt Strike team server default")]

/-! ## Packets, alerts and tables -/

/-- `struct flow_pkt`; addresses and ports are in network order. -/
structure FlowPkt where
  tsNs : UInt64
  saddr : UInt32
  daddr : UInt32
  sport : UInt16
  dport : UInt16
  len : UInt16
  proto : UInt8
deriving DecidableEq, Repr

/-- What a rule prints: rule 1 the flow, the mean gap, the variance of the gaps
and the number of callbacks; rule 3 the flow and the name of the port; rule 2
the source, its distinct ports and the window in seconds. -/
inductive Alert where
  | beacon (saddr daddr : UInt32) (dport : UInt16) (mean variance : ℚ) (callbacks : Int)
  | suspPort (saddr daddr : UInt32) (dport : UInt16) (name : String)
  | portscan (saddr : UInt32) (ports : Nat) (windowS : UInt64)
deriving DecidableEq

/-- The key of a flow; the source port is left out on purpose. -/
structure FlowKey where
  saddr : UInt32
  daddr : UInt32
  dport : UInt16
  proto : UInt8
deriving DecidableEq, Repr

def FlowPkt.key (p : FlowPkt) : FlowKey := ⟨p.saddr, p.daddr, p.dport, p.proto⟩

/-- `struct flow`, without `used` and the key. -/
structure Flow where
  lastTs : UInt64
  gaps : List ℚ
  ngaps : Int
  beaconAlerted : Bool
  suspAlerted : Bool
  gaps_length : gaps.length = MAX_GAPS
deriving DecidableEq

/-- A slot that `flow_get` hands out for the first time. -/
def Flow.fresh : Flow where
  lastTs := 0
  gaps := List.replicate MAX_GAPS 0
  ngaps := 0
  beaconAlerted := false
  suspAlerted := false
  gaps_length := List.length_replicate

/-- A slot of `flows`. `used` is an `int` that is only tested. -/
structure FlowSlot where
  used : Bool
  key : FlowKey
  flow : Flow
deriving DecidableEq

/-- `flows`. -/
@[ext]
structure FlowTable where
  slots : List FlowSlot
  length_eq : slots.length = MAX_FLOWS

/-- A slot of the zeroed array. -/
def FlowSlot.zero : FlowSlot := ⟨false, ⟨0, 0, 0, 0⟩, Flow.fresh⟩

def FlowTable.zero : FlowTable := ⟨List.replicate MAX_FLOWS FlowSlot.zero, List.length_replicate⟩

/-- What a scan of the table sees of a slot. -/
def FlowSlot.entry (s : FlowSlot) : Option (FlowKey × Flow) :=
  if s.used then some (s.key, s.flow) else none

def FlowTable.entries (flows : FlowTable) : List (Option (FlowKey × Flow)) :=
  flows.slots.map FlowSlot.entry

/-- The flow of a key. -/
def FlowTable.lookup (flows : FlowTable) (k : FlowKey) : Option Flow :=
  SlotTable.valueIn k flows.entries

def FlowTable.modify (flows : FlowTable) (i : Nat) (g : FlowSlot → FlowSlot) : FlowTable :=
  ⟨flows.slots.modify i g, by rw [List.length_modify, flows.length_eq]⟩

/-- An entry of `seen`. -/
structure Seen where
  port : UInt16
  ts : UInt64
deriving DecidableEq, Repr

/-- `struct scan_src`, without `used` and the source address. Only the first
`n` entries of the array are in use. -/
structure ScanSrc where
  seen : List Seen
  n : Nat
  lastAlertTs : UInt64
  seen_length : seen.length = MAX_SCAN_PORTS
  n_le : n ≤ MAX_SCAN_PORTS

def ScanSrc.fresh : ScanSrc where
  seen := List.replicate MAX_SCAN_PORTS ⟨0, 0⟩
  n := 0
  lastAlertTs := 0
  seen_length := List.length_replicate
  n_le := Nat.zero_le _

/-- The static state of the program: `flows` and `scans`. -/
structure State where
  flows : FlowTable
  scans : SlotTable UInt32 ScanSrc MAX_SCAN_SRC

def State.init : State := ⟨FlowTable.zero, SlotTable.empty _ _ _⟩

/-! ## Rule 1: beacons -/

/-- A free slot becomes the packet's flow; the gaps in it stay. -/
def FlowSlot.take (s : FlowSlot) (p : FlowPkt) : FlowSlot where
  used := true
  key := p.key
  flow := { s.flow with lastTs := 0, ngaps := 0, beaconAlerted := false, suspAlerted := false }

/-- Rules 1 and 3 share the flow table. -/
def flowGet (flows : FlowTable) (p : FlowPkt) : FlowTable × Option Nat :=
  match SlotTable.search p.key flows.entries 0 none with
  | .found i => (flows, some i)
  | .free i => (flows.modify i fun s => s.take p, some i)
  | .full => (flows, none)

/-- `(double)(p->ts_ns - last_ts) / 1e9`. -/
def gapSecs (last now : UInt64) : ℚ := ((now - last).toNat : ℚ) / 1000000000

/-- In order, the difference does not wrap. -/
theorem gapSecs_eq {l t : UInt64} (h : l ≤ t) :
    gapSecs l t = ((t.toNat : ℚ) - l.toNat) / 1000000000 := by
  rw [gapSecs, UInt64.toNat_sub_of_le t l h, Nat.cast_sub (UInt64.le_iff_toNat_le.mp h)]

/-- A 32-bit `int`. -/
def int32 (i : Int) : Int := i.bmod (2 ^ 32)

/-- Stores a gap at `ngaps % MAX_GAPS` and counts it. The remainder is C's, so
a negative counter gives a negative index, which is none of the ring; what is
written then is said by `FlowTable.strayGap`. -/
def Flow.storeGap (f : Flow) (gap : ℚ) : Flow :=
  let i := f.ngaps.tmod MAX_GAPS
  { f with
    gaps := if 0 ≤ i then f.gaps.set i.toNat gap else f.gaps
    ngaps := int32 (f.ngaps + 1)
    gaps_length := by split <;> simp [f.gaps_length] }

/-- The first part of `rule_beacon`: a flow seen before gets a new gap. -/
def Flow.observe (f : Flow) (p : FlowPkt) : Flow :=
  let g := if f.lastTs ≠ 0 then f.storeGap (gapSecs f.lastTs p.tsNs) else f
  { g with lastTs := p.tsNs }

/-- `n`, the number of gaps that are judged. -/
def Flow.samples (f : Flow) : Int := if f.ngaps < MAX_GAPS then f.ngaps else MAX_GAPS

/-- The mean of the judged gaps. -/
def Flow.meanGap (f : Flow) : ℚ := (f.gaps.take f.samples.toNat).sum / f.samples

/-- `var / n`, their variance. -/
def Flow.varGap (f : Flow) : ℚ :=
  ((f.gaps.take f.samples.toNat).map fun g => (g - f.meanGap) * (g - f.meanGap)).sum / f.samples

/-- `cv > BEACON_CV_MAX`, where `cv` is `sqrt(variance) / mean`, and 1 when the
mean is not positive. -/
def cvExceeds (mean variance : ℚ) : Bool :=
  if 0 < mean then BEACON_CV_MAX ^ 2 * mean ^ 2 < variance else BEACON_CV_MAX < 1

def ruleBeacon (f : Flow) (p : FlowPkt) : Flow × Option Alert :=
  let f := f.observe p
  if f.samples < 1 then (f, none)
  else if f.beaconAlerted || f.samples < BEACON_MIN_SAMPLES then (f, none)
  else if f.meanGap < BEACON_MIN_INTERVAL || BEACON_MAX_INTERVAL < f.meanGap then (f, none)
  else if cvExceeds f.meanGap f.varGap then (f, none)
  else
    ({ f with beaconAlerted := true },
      some (.beacon p.saddr p.daddr (ntohs p.dport) f.meanGap f.varGap (f.samples + 1)))

/-! ## Stores outside the ring -/

/-- The exponent of the last place of the `double` nearest to `q`. -/
def ulpExp (q : ℚ) : Int := Int.log 2 q - 52

/-- The nearest `double`, for a number that is not negative and in the normal range. -/
def toDouble (q : ℚ) : ℚ :=
  if q = 0 then 0 else Printed.nearestEven (q / 2 ^ ulpExp q) * 2 ^ ulpExp q

/-- Its bits. -/
def doubleBits (q : ℚ) : UInt64 :=
  if q = 0 then 0
  else UInt64.ofNat
    (((ulpExp q + 1074) * 2 ^ 52).toNat + Printed.nearestEven (q / 2 ^ ulpExp q))

/-- The bits of `gap`: a conversion, then a division. -/
def gapBits (last now : UInt64) : UInt64 :=
  doubleBits (toDouble (now - last).toNat / 1000000000)

example : gapBits 1 1700000001 = 0x3ffb333333333333 := by decide +kernel

def lowHalf (bits : UInt64) : UInt32 := bits.toUInt32
def highHalf (bits : UInt64) : UInt32 := (bits >>> 32).toUInt32

/-- A store at `gaps[j]` that hits the slot's own fields in front of `gaps`: `used` and
`saddr` at -3, the rest of the key at -2, and `last_ts`, which the next statement
sets, at -1. -/
def FlowSlot.strayFront (s : FlowSlot) (j : Int) (bits : UInt64) : FlowSlot :=
  if j = -3 then
    { s with used := lowHalf bits ≠ 0, key := { s.key with saddr := highHalf bits } }
  else if j = -2 then
    { s with
      key :=
        { s.key with
          daddr := lowHalf bits
          dport := (highHalf bits).toUInt16
          proto := (highHalf bits >>> 16).toUInt8 } }
  else s

/-- A store at `gaps[j]` of the next slot: `susp_alerted` at -4, `ngaps` and
`beacon_alerted` at -5, the last two gaps at -6 and -7. -/
def FlowSlot.strayBack (s : FlowSlot) (j : Int) (gap : ℚ) (bits : UInt64) : FlowSlot :=
  if j = -4 then { s with flow := { s.flow with suspAlerted := lowHalf bits ≠ 0 } }
  else if j = -5 then
    { s with
      flow :=
        { s.flow with
          ngaps := int32 (lowHalf bits).toNat
          beaconAlerted := highHalf bits ≠ 0 } }
  else
    { s with
      flow :=
        { s.flow with
          gaps := s.flow.gaps.set (j + 13).toNat gap
          gaps_length := by rw [List.length_set, s.flow.gaps_length] } }

/-- A gap stored at the negative index `j` of slot `i`. -/
def FlowTable.strayGap (flows : FlowTable) (i : Nat) (j : Int) (last now : UInt64) : FlowTable :=
  if -3 ≤ j then flows.modify i fun s => s.strayFront j (gapBits last now)
  else
    match i with
    | 0 => flows
    | i + 1 => flows.modify i fun s => s.strayBack j (gapSecs last now) (gapBits last now)

/-! ## Rule 3: known ports -/

def ruleSuspiciousPort (f : Flow) (p : FlowPkt) : Flow × Option Alert :=
  if f.suspAlerted then (f, none)
  else
    match suspicious.find? fun s => s.1 = ntohs p.dport with
    | none => (f, none)
    | some s => ({ f with suspAlerted := true }, some (.suspPort p.saddr p.daddr s.1 s.2))

/-! ## Rule 2: port scans -/

/-- The entry is not older than the window. -/
def inWindow (now : UInt64) (e : Seen) : Bool := now - e.ts < SCAN_WINDOW_NS

/-- Drops the entries older than the window. -/
def ScanSrc.expire (sc : ScanSrc) (now : UInt64) : ScanSrc :=
  have h := InPlace.compact_spec (inWindow now) (n := sc.n) (sc.seen_length ▸ sc.n_le)
  { sc with
    seen := (InPlace.compact (inWindow now) sc.seen sc.n).1
    n := (InPlace.compact (inWindow now) sc.seen sc.n).2
    seen_length := h.2.2.trans sc.seen_length
    n_le := Nat.le_trans h.2.1 sc.n_le }

/-- Records a port: refreshes its timestamp, or appends it if there is room. -/
def ScanSrc.record (sc : ScanSrc) (port : UInt16) (now : UInt64) : ScanSrc :=
  match (sc.seen.take sc.n).findIdx? fun e => e.port = port with
  | some i =>
    { sc with
      seen := sc.seen.modify i fun e => { e with ts := now }
      seen_length := by rw [List.length_modify, sc.seen_length] }
  | none =>
    if h : sc.n < MAX_SCAN_PORTS then
      { sc with
        seen := sc.seen.set sc.n ⟨port, now⟩
        n := sc.n + 1
        seen_length := by rw [List.length_set, sc.seen_length]
        n_le := h }
    else sc

/-- The test at the end of `rule_portscan`. -/
def ScanSrc.judge (sc : ScanSrc) (p : FlowPkt) : ScanSrc × Option Alert :=
  if SCAN_PORT_THRESH < sc.n &&
      (sc.lastAlertTs = 0 || SCAN_COOLDOWN_NS < p.tsNs - sc.lastAlertTs) then
    ({ sc with lastAlertTs := p.tsNs },
      some (.portscan p.saddr sc.n (SCAN_WINDOW_NS / 1000000000)))
  else (sc, none)

/-- `rule_portscan` once the slot of the source is found. -/
def scanSource (sc : ScanSrc) (p : FlowPkt) : ScanSrc × Option Alert :=
  ((sc.expire p.tsNs).record p.dport p.tsNs).judge p

def rulePortscan (scans : SlotTable UInt32 ScanSrc MAX_SCAN_SRC) (p : FlowPkt) :
    SlotTable UInt32 ScanSrc MAX_SCAN_SRC × Option Alert :=
  let r := SlotTable.access (scans.claim p.saddr ScanSrc.fresh) fun sc => scanSource sc p
  (r.1, r.2.join)

/-! ## One record -/

/-- The two rules that run on a flow. -/
def flowRules (f : Flow) (p : FlowPkt) : Flow × List Alert :=
  let r := ruleBeacon f p
  let q := ruleSuspiciousPort r.1 p
  (q.1, r.2.toList ++ q.2.toList)

/-- The rules on slot `i`. A store outside the ring reaches no field that they go on to
read, so it comes last here. -/
def FlowTable.runRules (flows : FlowTable) (i : Nat) (p : FlowPkt) : FlowTable × List Alert :=
  match flows.slots[i]? with
  | none => (flows, [])
  | some s =>
    let r := flowRules s.flow p
    let written := flows.modify i fun s => { s with flow := r.1 }
    let j := s.flow.ngaps.tmod MAX_GAPS
    if s.flow.lastTs ≠ 0 ∧ j < 0 then (written.strayGap i j s.flow.lastTs p.tsNs, r.2)
    else (written, r.2)

/-- The flow of a packet is looked up and judged. -/
def flowStep (flows : FlowTable) (p : FlowPkt) : FlowTable × List Alert :=
  match flowGet flows p with
  | (flows, none) => (flows, [])
  | (flows, some i) => flows.runRules i p

def handleEvent (s : State) (p : FlowPkt) : State × List Alert :=
  let r := flowStep s.flows p
  let q := rulePortscan s.scans p
  (⟨r.1, q.1⟩, r.2 ++ q.2.toList)

/-- What rule 1 can do: observe the packet, and perhaps alert. -/
theorem ruleBeacon_cases (f : Flow) (p : FlowPkt) :
    ruleBeacon f p = (f.observe p, none) ∨
    ∃ mean variance callbacks, ruleBeacon f p =
      ({ f.observe p with beaconAlerted := true },
        some (.beacon p.saddr p.daddr (ntohs p.dport) mean variance callbacks)) := by
  simp only [ruleBeacon]
  split
  · exact Or.inl rfl
  · split
    · exact Or.inl rfl
    · split
      · exact Or.inl rfl
      · split
        · exact Or.inl rfl
        · exact Or.inr ⟨_, _, _, rfl⟩

/-- What rule 3 can do: nothing, or alert. -/
theorem ruleSuspiciousPort_cases (f : Flow) (p : FlowPkt) :
    ruleSuspiciousPort f p = (f, none) ∨
    ∃ s : UInt16 × String, ruleSuspiciousPort f p =
      ({ f with suspAlerted := true }, some (.suspPort p.saddr p.daddr s.1 s.2)) := by
  unfold ruleSuspiciousPort
  split
  · exact Or.inl rfl
  · split
    · exact Or.inl rfl
    · next s _ => exact Or.inr ⟨s, rfl⟩

/-- The alerts of a packet's flow, if it has one, are those of the two rules. -/
theorem flowStep_alerts (flows : FlowTable) (p : FlowPkt) :
    (flowStep flows p).2 = [] ∨ ∃ f, (flowStep flows p).2 = (flowRules f p).2 := by
  unfold flowStep
  split
  · exact .inl rfl
  · unfold FlowTable.runRules
    split
    · exact .inl rfl
    · next s _ =>
      refine .inr ⟨s.flow, ?_⟩
      dsimp only
      split <;> rfl

/-! ## Runs

The table of sources keeps them apart: each source among the first `MAX_SCAN_SRC` is a
machine of its own, which sees its own packets only. (`Ids.FlowTable` has the flows.) -/

open SlotTable Runs

/-- Positive, nondecreasing timestamps. -/
structure InOrder (ts : List UInt64) : Prop where
  pos : ∀ t ∈ ts, 0 < t
  sorted : ts.Pairwise (· ≤ ·)

-- `pos` is checked along the list: its variable ranges over a finite type, which
-- the instance of the quantifier would go through.
instance (ts : List UInt64) : Decidable (InOrder ts) :=
  decidable_of_iff (ts.all (fun t => decide (0 < t)) = true ∧ ts.Pairwise (· ≤ ·))
    ⟨fun h => ⟨fun t ht => of_decide_eq_true (List.all_eq_true.mp h.1 t ht), h.2⟩,
      fun h => ⟨List.all_eq_true.mpr fun t ht => decide_eq_true (h.pos t ht), h.sorted⟩⟩

theorem InOrder.sublist {ts us : List UInt64} (h : InOrder us) (hs : ts.Sublist us) : InOrder ts :=
  ⟨fun t ht => h.pos t (hs.subset ht), h.sorted.sublist hs⟩

/-- The packets up to one of a run. -/
theorem sublist_of_split {ps pre post : List FlowPkt} {p : FlowPkt} (h : ps = pre ++ p :: post) :
    (pre ++ [p]).Sublist ps := by
  rw [h, List.append_cons pre p post]
  exact List.sublist_append_left _ _

/-- The state after the packets `ps`. -/
def after (ps : List FlowPkt) : State := exec handleEvent State.init ps

/-- The packets of a flow, and of a source. -/
def ofFlow (k : FlowKey) (ps : List FlowPkt) : List FlowPkt := own FlowPkt.key k ps
def ofSource (a : UInt32) (ps : List FlowPkt) : List FlowPkt := own FlowPkt.saddr a ps

/-- The flow, and the source, among the first that the tables have room for. -/
def FlowTracked (k : FlowKey) (ps : List FlowPkt) : Prop :=
  k ∈ admitted MAX_FLOWS (ps.map FlowPkt.key)
def SourceTracked (a : UInt32) (ps : List FlowPkt) : Prop :=
  a ∈ admitted MAX_SCAN_SRC (ps.map FlowPkt.saddr)

instance (k : FlowKey) (ps : List FlowPkt) : Decidable (FlowTracked k ps) :=
  inferInstanceAs (Decidable (k ∈ admitted _ _))
instance (a : UInt32) (ps : List FlowPkt) : Decidable (SourceTracked a ps) :=
  inferInstanceAs (Decidable (a ∈ admitted _ _))

/-- A flow, and a source, that is alone with its packets. -/
def flowAfter (ps : List FlowPkt) : Flow := exec flowRules Flow.fresh ps
def sourceAfter (ps : List FlowPkt) : ScanSrc := exec scanSource ScanSrc.fresh ps

theorem scans_after (ps : List FlowPkt) :
    (after ps).scans = exec (visitStep FlowPkt.saddr ScanSrc.fresh scanSource)
      (empty _ _ _) ps := by
  induction ps using List.reverseRecOn with
  | nil => rfl
  | append_singleton ps p ih =>
    rw [after, exec_snoc, exec_snoc, ← ih]
    rfl

/-- What the table of sources holds. -/
theorem lookup_scans (ps : List FlowPkt) (a : UInt32) :
    (after ps).scans.lookup a =
      if SourceTracked a ps then some (sourceAfter (ofSource a ps)) else none := by
  rw [scans_after]
  exact (demuxed_visits ps).1 a

/-- The alerts of a packet: those of its flow, and those of its own source. -/
theorem handleEvent_scan (pre : List FlowPkt) (p : FlowPkt) :
    (handleEvent (after pre) p).2 =
      (flowStep (after pre).flows p).2 ++
      (if SourceTracked p.saddr (pre ++ [p]) then
        (scanSource (sourceAfter (ofSource p.saddr pre)) p).2.toList else []) := by
  have hs := @visits_out _ _ _ MAX_SCAN_SRC _ _ FlowPkt.saddr ScanSrc.fresh scanSource pre p
  rw [← scans_after] at hs
  have he : (handleEvent (after pre) p).2 = (flowStep (after pre).flows p).2 ++
      (visitStep FlowPkt.saddr ScanSrc.fresh scanSource (after pre).scans p).2.join.toList := rfl
  rw [he, hs]
  exact congrArg _ (apply_ite (fun o : Option (Option Alert) => o.join.toList) _ _ _)

end Ebpf101.Ids
