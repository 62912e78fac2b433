import Ebpf101.Ids.Tap
import Ebpf101.Xdp.Firewall

/-!
# Three parsers of one frame

`xdp_fw` of chapter 21 and `xdp_count` of chapter 17 read packets through checked
pointers, `ids_tap` of chapter 23 through `bpf_skb_load_bytes`. They check different
lengths: the firewall wants a whole transport header, the tap the four bytes of the
ports, and the counter no transport byte at all.

Results:
1. `parsers_agree`: on every frame, what the firewall drops the tap reports and the
   counter files under the same protocol; what the tap reports the counter files so;
   and what the tap reports to a blocked port the firewall drops, if a whole header
   is there. Over any frames on any CPUs the counters of the blocklist are the drops.
-/

namespace Ebpf101.Xdp

open Ids.Tap (emitted)

/-! ## xdp_count -/

def ETH_P_ARP : UInt16 := 0x0806

def ETH_P_IPV6 : UInt16 := 0x86DD

def IPPROTO_ICMP : UInt8 := 1

def IPPROTO_ICMPV6 : UInt8 := 58

/-- `enum pkt_cat`. -/
inductive PktCat where
  | other
  | tcp
  | udp
  | icmp
  | ipv4Other
  | ipv6Other
  | arp
deriving DecidableEq, Repr

/-- The category of a frame. -/
def category (frame : List UInt8) : PktCat :=
  if !within frame 0 14 then .other
  else
    let hProto := ntohs (load16 frame 12)
    if hProto = ETH_P_ARP then .arp
    else if hProto = ETH_P_IP then
      if !within frame 14 20 then .other
      else if frame.getD 23 0 = IPPROTO_TCP then .tcp
      else if frame.getD 23 0 = IPPROTO_UDP then .udp
      else if frame.getD 23 0 = IPPROTO_ICMP then .icmp
      else .ipv4Other
    else if hProto = ETH_P_IPV6 then
      if !within frame 14 40 then .ipv6Other
      else if frame.getD 20 0 = IPPROTO_TCP then .tcp
      else if frame.getD 20 0 = IPPROTO_UDP then .udp
      else if frame.getD 20 0 = IPPROTO_ICMPV6 then .icmp
      else .ipv6Other
    else .other

/-- `counts`: every CPU has its own slot for each category. -/
abbrev Counts := Nat → PktCat → Nat

/-- One more in the slot of the CPU and the category. -/
def Counts.bump (counts : Counts) (cpu : Nat) (cat : PktCat) : Counts := fun c k =>
  if c = cpu ∧ k = cat then u64Add (counts c k) 1 else counts c k

/-- `xdp_count`, on a CPU. -/
def xdpCount (counts : Counts) (cpu : Nat) (frame : List UInt8) : Counts × XdpAction :=
  (counts.bump cpu (category frame), .pass)

/-! ## Statements -/

/-- The category of a transport protocol. -/
def transportCat (proto : UInt8) : PktCat := if proto = IPPROTO_TCP then .tcp else .udp

/-- The three programs on one frame. -/
structure Agree (blocklist : BpfMap UInt16 Nat) (m : Ids.Tap.Machine) (counts : Counts) (cpu : Nat)
    (frame : List UInt8) : Prop where
  dropped : ∀ p, (xdpFw blocklist frame).2 = .drop → fwPort frame = some p →
    IsTransport frame ∧
      (∃ r, emitted m frame = [r] ∧ ntohs r.dport = p ∧ r.proto = protocol frame) ∧
      (xdpCount counts cpu frame).1 = counts.bump cpu (transportCat (protocol frame))
  filed : ∀ r ∈ emitted m frame, IsTransport frame ∧ category frame = transportCat r.proto
  blocked : ∀ r ∈ emitted m frame, ntohs r.dport ∈ blocklist.keys →
    (r.proto = IPPROTO_TCP → 54 ≤ frame.length) → (r.proto = IPPROTO_UDP → 42 ≤ frame.length) →
      (xdpFw blocklist frame).2 = .drop

namespace ParsersLemmas

open FirewallLemmas

/-! ## What the tap reads -/

theorem getD_slice (frame : List UInt8) {off n i : Nat} (hi : i < n) :
    ((frame.drop off).take n).getD i 0 = frame.getD (off + i) 0 := by
  simp [List.getD_eq_getElem?_getD, List.getElem?_take_of_lt hi]

theorem load16_slice (frame : List UInt8) {off n i : Nat} (hi : i + 1 < n) :
    load16 ((frame.drop off).take n) i = load16 frame (off + i) := by
  rw [load16, load16, getD_slice frame (Nat.lt_of_succ_lt hi), getD_slice frame hi, Nat.add_assoc]

theorem load32_slice (frame : List UInt8) {off n i : Nat} (hi : i + 3 < n) :
    load32 ((frame.drop off).take n) i = load32 frame (off + i) := by
  rw [load32, load32,
    load16_slice frame (Nat.lt_of_le_of_lt (Nat.add_le_add_left (by decide) i) hi),
    load16_slice frame (i := i + 2) hi, Nat.add_assoc]

/-- What the tap copies out of a frame. -/
def tapped (frame : List UInt8) : Ids.Tap.Tapped :=
  ⟨load32 frame 26, load32 frame 30, load16 frame 34, load16 frame 36, UInt16.ofNat frame.length,
    protocol frame⟩

/-- The tap parses the IPv4 frames of TCP and UDP that have their ports. -/
theorem parse_eq_some_iff {frame : List UInt8} {pkt : Ids.Tap.Tapped} :
    Ids.Tap.parse frame = some pkt ↔ load16 frame 12 = ntohs ETH_P_IP ∧ IsTransport frame ∧
      38 ≤ frame.length ∧ tapped frame = pkt := by
  rcases Nat.lt_or_ge frame.length 38 with hshort | hlong
  · have hl4 : Ids.Tap.skbLoadBytes frame 34 4 = none := if_neg (Nat.not_le_of_lt hshort)
    have hnone : Ids.Tap.parse frame = none := by
      unfold Ids.Tap.parse
      rw [hl4]
      split
      · rfl
      · split
        · rfl
        · split
          · rfl
          · split <;> rfl
    rw [hnone]
    exact iff_of_false (by simp) fun h => absurd h.2.2.1 (Nat.not_le_of_lt hshort)
  · have heth : Ids.Tap.skbLoadBytes frame 0 14 = some ((frame.drop 0).take 14) :=
      if_pos (Nat.le_trans (by decide) hlong)
    have hip : Ids.Tap.skbLoadBytes frame 14 20 = some ((frame.drop 14).take 20) :=
      if_pos (Nat.le_trans (by decide) hlong)
    have hl4 : Ids.Tap.skbLoadBytes frame 34 4 = some ((frame.drop 34).take 4) := if_pos hlong
    unfold Ids.Tap.parse
    simp only [heth, hip, hl4, load16_slice frame (show 12 + 1 < 14 by decide),
      getD_slice frame (show 9 < 20 by decide), load32_slice frame (show 12 + 3 < 20 by decide),
      load32_slice frame (show 16 + 3 < 20 by decide),
      load16_slice frame (show 0 + 1 < 4 by decide), load16_slice frame (show 2 + 1 < 4 by decide)]
    rcases eq_or_ne (load16 frame (0 + 12)) (ntohs ETH_P_IP) with htype | htype
    · rw [if_neg (not_not_intro htype)]
      split
      · next hother =>
        refine iff_of_false (by simp) fun h => ?_
        rcases h.2.1 with htcp | hudp
        · exact hother.1 htcp
        · exact hother.2 hudp
      · next htrans =>
        rw [not_and_or, not_not, not_not] at htrans
        constructor
        · intro h
          exact ⟨htype, htrans, hlong, Option.some.inj h⟩
        · rintro ⟨-, -, -, rfl⟩
          rfl
    · rw [if_pos htype]
      exact iff_of_false (by simp) fun h => htype h.1

/-! ## What the tap emits -/

/-- The record of a packet, stamped. -/
def recordOf (clock : UInt64) (pkt : Ids.Tap.Tapped) : Ids.FlowPkt :=
  ⟨clock, pkt.saddr, pkt.daddr, pkt.sport, pkt.dport, pkt.len, pkt.proto⟩

/-- One record for a frame it parses, none for any other. -/
theorem emitted_eq (m : Ids.Tap.Machine) (frame : List UInt8) :
    emitted m frame = ((Ids.Tap.parse frame).map (recordOf m.clock)).toList := by
  rw [emitted, Ids.Tap.TapLemmas.idsTap_eq]
  cases Ids.Tap.parse frame with
  | none => simp
  | some pkt => simp [Ids.Tap.Slot.record, recordOf]

/-- The records of a frame say what the frame says. -/
theorem mem_emitted {m : Ids.Tap.Machine} {frame : List UInt8} {r : Ids.FlowPkt}
    (h : r ∈ emitted m frame) :
    load16 frame 12 = ntohs ETH_P_IP ∧ IsTransport frame ∧ 38 ≤ frame.length ∧
      r.dport = load16 frame 36 ∧ r.proto = protocol frame := by
  rw [emitted_eq, Option.mem_toList, Option.map_eq_some_iff] at h
  obtain ⟨pkt, hparse, rfl⟩ := h
  obtain ⟨htype, htrans, hlen, rfl⟩ := parse_eq_some_iff.mp hparse
  exact ⟨htype, htrans, hlen, rfl, rfl⟩

/-- The counter goes by the protocol field. -/
theorem category_of_transport {frame : List UInt8} (htype : load16 frame 12 = ntohs ETH_P_IP)
    (htrans : IsTransport frame) (hlen : 34 ≤ frame.length) :
    category frame = transportCat (protocol frame) := by
  have heth : within frame 0 14 = true := decide_eq_true (Nat.le_trans (by decide) hlen)
  have hip : within frame 14 20 = true := decide_eq_true hlen
  have hproto : ntohs (load16 frame 12) = ETH_P_IP := ntohs_eq_iff.mpr htype
  have hnotArp : ETH_P_IP ≠ ETH_P_ARP := by decide
  simp only [category, heth, hip, hproto, if_neg hnotArp, if_pos, Bool.not_true, Bool.false_eq_true,
    if_false]
  rw [transportCat, show frame.getD 23 0 = protocol frame from rfl]
  rcases htrans with htcp | hudp
  · rw [if_pos htcp, if_pos htcp]
  · have hne : protocol frame ≠ IPPROTO_TCP := fun htcp => by
      rw [hudp] at htcp
      exact absurd htcp (by decide)
    rw [if_neg hne, if_neg hne, if_pos hudp]

theorem agree (blocklist : BpfMap UInt16 Nat) (m : Ids.Tap.Machine) (counts : Counts) (cpu : Nat)
    (frame : List UInt8) : Agree blocklist m counts cpu frame := by
  refine ⟨fun p _ hp => ?_, fun r hr => ?_, fun r hr hkey htcp hudp => ?_⟩
  · obtain ⟨htype, htrans, hlen, rfl⟩ := fwPort_eq_some_iff.mp hp
    have hports : 38 ≤ frame.length := by
      refine Nat.le_trans ?_ hlen
      unfold headerSize
      split <;> decide
    have hparse : Ids.Tap.parse frame = some (tapped frame) :=
      parse_eq_some_iff.mpr ⟨htype, htrans, hports, rfl⟩
    refine ⟨htrans, ⟨recordOf m.clock (tapped frame), ?_, rfl, rfl⟩, ?_⟩
    · rw [emitted_eq, hparse]
      rfl
    · rw [xdpCount, category_of_transport htype htrans (Nat.le_trans (by decide) hports)]
  · obtain ⟨htype, htrans, hlen, -, hproto⟩ := mem_emitted hr
    rw [hproto]
    exact ⟨htrans, category_of_transport htype htrans (Nat.le_trans (by decide) hlen)⟩
  · obtain ⟨htype, htrans, -, hdport, hproto⟩ := mem_emitted hr
    rw [hproto] at htcp hudp
    have hheader : 34 + headerSize (protocol frame) ≤ frame.length := by
      rcases htrans with h | h
      · rw [h]
        exact htcp h
      · rw [h]
        exact hudp h
    rw [hdport] at hkey
    exact drop_iff.mpr ⟨_, fwPort_eq_some_iff.mpr ⟨htype, htrans, hheader, rfl⟩, hkey⟩

end ParsersLemmas

open ParsersLemmas

/-! ## 1. The parsers agree -/

/-- For every blocklist, on every frame and whatever the tap and the counter have seen
before; and over any frames, each judged by a run on some CPU, in any interleaving. -/
theorem parsers_agree {blocklist : BpfMap UInt16 Nat}
    (hbits : ∀ p c, blocklist.lookupElem p = some c → c < 2 ^ 64) :
    (∀ m counts cpu frame, Agree blocklist m counts cpu frame) ∧
    ∀ (n : Nat) (frames : Fin n → List UInt8) (sched : List (Fin n)),
      (fwAfter blocklist frames sched).shared.keys = blocklist.keys ∧
      ∀ p, (fwAfter blocklist frames sched).shared.lookupElem p =
        (blocklist.lookupElem p).map fun c => u64Add c (drops blocklist frames sched p) :=
  ⟨agree blocklist, fun _ frames sched => blocklist_after hbits frames sched⟩

/-- Two CPUs drop a datagram to the blocked port each, with their steps interleaved. -/
theorem exDatagrams_counted :
    ((fwAfter exBlocklist (fun _ : Fin 2 => exDatagram) [0, 1, 0, 1]).shared.lookupElem 11111) =
      some 2 ∧
    drops exBlocklist (fun _ : Fin 2 => exDatagram) [0, 1, 0, 1] 11111 = 2 ∧
    (fwAfter exBlocklist (fun _ : Fin 2 => exDatagram) [0, 1, 0, 1]).shared.keys =
      exBlocklist.keys := by
  have hbits : ∀ p c, exBlocklist.lookupElem p = some c → c < 2 ^ 64 := by
    intro p c hc
    have hmem := BpfMap.mem_of_lookupElem hc
    have hentries : exBlocklist.entries = [(11111, 0)] := by decide +kernel
    rw [hentries, List.mem_singleton] at hmem
    cases hmem
    decide
  refine ⟨by decide +kernel, by decide +kernel, ?_⟩
  exact ((parsers_agree hbits).2 2 (fun _ => exDatagram) [0, 1, 0, 1]).1

end Ebpf101.Xdp
