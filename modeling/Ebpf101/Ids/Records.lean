import Ebpf101.Xdp.Parsers

/-!
# The records of the tap

`ids.h` documents `len` as the length of the frame, `skb->len`. The field has 16 bits
and `skb->len` has 32: on loopback, and with segmentation offload on any interface, a
frame may be longer than 65535 bytes.

Results:
1. `tap_faithful_iff`: for a frame with an IPv4 header of 20 bytes, a TCP or UDP packet
   and its ports, one record is submitted that says what the headers say, and the length
   is right if and only if it is below 2^16. For every frame that is shorter, not IPv4 or
   of another protocol, the ring is left as it was.
   `jumbo_len_zero`: a frame of 65536 bytes is reported with length 0.
-/

namespace Ebpf101.Ids.Tap

open Xdp Xdp.ParsersLemmas TapLemmas

/-! ## Statements -/

/-- A frame that carries an IPv4 packet with a header of 20 bytes, of TCP or UDP, as far
as its ports. -/
structure HasFlow (frame : List UInt8) : Prop where
  inScope : InScope frame
  transport : IsTransport frame
  ports : 38 ≤ frame.length

/-- The tap adds one slot to the ring, which is submitted, and its record holds the header
fields, as they stand in the frame, and the length of the frame. -/
def Faithful (m : Machine) (frame : List UInt8) : Prop :=
  ∃ slot r, idsTap m frame = { m with ring := m.ring ++ [slot] } ∧ slot.record = some r ∧
    r.saddr = load32 frame 26 ∧ r.daddr = load32 frame 30 ∧ r.sport = load16 frame 34 ∧
    r.dport = load16 frame 36 ∧ r.proto = protocol frame ∧ r.len.toNat = frame.length

/-- A frame that the tap passes over. -/
def Passed (frame : List UInt8) : Prop :=
  frame.length < 38 ∨ ntohs (load16 frame 12) ≠ ETH_P_IP ∨ ¬ IsTransport frame

namespace RecordsLemmas

theorem parse_of_hasFlow {frame : List UInt8} (h : HasFlow frame) :
    parse frame = some (tapped frame) :=
  parse_eq_some_iff.mpr ⟨ntohs_eq_iff.mp h.inScope.1, h.transport, h.ports, rfl⟩

theorem parse_of_passed {frame : List UInt8} (h : Passed frame) : parse frame = none := by
  rw [Option.eq_none_iff_forall_ne_some]
  intro pkt hp
  obtain ⟨htype, htrans, hlen, -⟩ := parse_eq_some_iff.mp hp
  rcases h with hshort | hother | hproto
  · exact absurd hlen (Nat.not_le_of_lt hshort)
  · exact hother (ntohs_eq_iff.mpr htype)
  · exact hproto htrans

/-- A length survives 16 bits exactly when it fits. -/
theorem len_iff (frame : List UInt8) :
    (tapped frame).len.toNat = frame.length ↔ frame.length < 2 ^ 16 := by
  show (UInt16.ofNat frame.length).toNat = frame.length ↔ _
  rw [UInt16.toNat_ofNat', Nat.mod_eq_iff_lt (by decide)]

theorem faithful_iff (m : Machine) {frame : List UInt8} (h : HasFlow frame) :
    Faithful m frame ↔ frame.length < 2 ^ 16 := by
  rw [← len_iff, Faithful, idsTap_eq, parse_of_hasFlow h]
  constructor
  · rintro ⟨slot, r, hring, hrec, -, -, -, -, -, hlen⟩
    have hslot : slot = ⟨tapped frame, some m.clock, true⟩ := by
      have hlists := List.append_cancel_left (congrArg Machine.ring hring)
      exact (List.singleton_injective hlists).symm
    rw [hslot] at hrec
    cases hrec
    exact hlen
  · intro hlen
    exact ⟨_, recordOf m.clock (tapped frame), rfl, rfl, rfl, rfl, rfl, rfl, rfl, hlen⟩

end RecordsLemmas

open RecordsLemmas

/-! ## 1. What the tap records -/

/-- For every frame, whatever the ring holds, with room in it. -/
theorem tap_faithful_iff (m : Machine) (frame : List UInt8) :
    (HasFlow frame → (Faithful m frame ↔ frame.length < 2 ^ 16)) ∧
    (Passed frame → idsTap m frame = m) := by
  refine ⟨faithful_iff m, fun h => ?_⟩
  rw [idsTap_eq, parse_of_passed h]

/-- A TCP segment of 65536 bytes in all. -/
def exJumbo : List UInt8 :=
  (exHeaders [0, 0] IPPROTO_TCP ++ [0x30, 0x39, 0x2b, 0x67]) ++ List.replicate 65498 0

/-- Its record has length 0. -/
theorem jumbo_len_zero :
    HasFlow exJumbo ∧ ¬ Faithful (run 0 []) exJumbo ∧ exJumbo.length = 65536 ∧
    (emitted (run 0 []) exJumbo).map FlowPkt.len = [0] := by
  have hlen : exJumbo.length = 65536 := by
    rw [exJumbo, List.length_append, List.length_replicate]
    rfl
  have hflow : HasFlow exJumbo := ⟨⟨rfl, rfl⟩, Or.inl rfl, by rw [hlen]; decide⟩
  refine ⟨hflow, ?_, hlen, ?_⟩
  · rw [faithful_iff _ hflow, hlen]
    decide
  · rw [emitted_eq, parse_of_hasFlow hflow]
    show [UInt16.ofNat exJumbo.length] = [0]
    rw [hlen]
    rfl

end Ebpf101.Ids.Tap
