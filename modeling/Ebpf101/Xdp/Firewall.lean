import Ebpf101.Basic
import Ebpf101.Lib.BpfMap
import Ebpf101.Lib.Threads

/-!
# The firewall

Chapter 21, `21-firewall/xdpfw.bpf.c`: `xdp_fw` drops IPv4 TCP and UDP packets
whose destination port is a key of the map `blocklist`, and counts the drops in
the map's values. A frame is the list of its bytes, from `data` to `data_end`.

Results:
1. `verdict_law_iff`: a frame with a 20-byte IPv4 header is judged by its fragment
   offset, its protocol and its port, as a port filter should, if and only if it is
   not a later fragment that is long enough to be taken for a segment, nor a first
   one that ends inside its TCP or UDP header. `fragments_and_short_misjudged`: one
   frame of each kind.
2. `blocklist_after`: runs of `xdp_fw` on any CPUs leave the keys of the map alone,
   and every counter grows by the number of the frames dropped on its port.
-/

namespace Ebpf101.Xdp

/-! ## The program -/

/-- The two actions that the programs of this project return. -/
inductive XdpAction where
  | pass
  | drop
deriving DecidableEq, Repr

/-- Whether `n` bytes at `off` lie within the frame: `(void *)(hdr + 1) > data_end`
fails. -/
def within (frame : List UInt8) (off n : Nat) : Bool := off + n ≤ frame.length

/-- The destination port that `xdp_fw` looks up, in host order, if it gets there.
The IPv4 header is taken to have 20 bytes. -/
def fwPort (frame : List UInt8) : Option UInt16 :=
  if !within frame 0 14 then none
  else if load16 frame 12 ≠ ntohs ETH_P_IP then none
  else if !within frame 14 20 then none
  else
    let protocol := frame.getD 23 0
    if protocol = IPPROTO_UDP then
      if !within frame 34 8 then none else some (ntohs (load16 frame 36))
    else if protocol = IPPROTO_TCP then
      if !within frame 34 20 then none else some (ntohs (load16 frame 36))
    else none

/-- `xdp_fw`. -/
def xdpFw (blocklist : BpfMap UInt16 Nat) (frame : List UInt8) : BpfMap UInt16 Nat × XdpAction :=
  match fwPort frame with
  | none => (blocklist, .pass)
  | some dport =>
    match blocklist.lookupElem dport with
    | some _ => (blocklist.modify dport fun dropped => u64Add dropped 1, .drop)
    | none => (blocklist, .pass)

/-! ## What a frame carries -/

/-- An Ethernet frame with an IPv4 packet whose header has 20 bytes. -/
def InScope (frame : List UInt8) : Prop :=
  ntohs (load16 frame 12) = ETH_P_IP ∧ frame.getD 14 0 = 0x45

/-- Where the transport header begins: behind the IPv4 header of `ihl * 4` bytes. -/
def l4Offset (frame : List UInt8) : Nat := 14 + (frame.getD 14 0 &&& 0x0f).toNat * 4

/-- The protocol field of the IPv4 header. -/
def protocol (frame : List UInt8) : UInt8 := frame.getD 23 0

/-- The fragment offset: 13 bits of the IPv4 header. -/
def fragOffset (frame : List UInt8) : UInt16 := ntohs (load16 frame 20) &&& 0x1fff

/-- The source and destination ports are in the frame. -/
def HasPorts (frame : List UInt8) : Prop := l4Offset frame + 4 ≤ frame.length

/-- The destination port, in host order. -/
def destPort (frame : List UInt8) : UInt16 := ntohs (load16 frame (l4Offset frame + 2))

/-- The packet is TCP or UDP. -/
def IsTransport (frame : List UInt8) : Prop :=
  protocol frame = IPPROTO_TCP ∨ protocol frame = IPPROTO_UDP

/-- The verdict that a filter of destination ports is to give. -/
def ToDrop (blocklist : BpfMap UInt16 Nat) (frame : List UInt8) : Prop :=
  IsTransport frame ∧ fragOffset frame = 0 ∧ HasPorts frame ∧ destPort frame ∈ blocklist.keys

/-- The size of the transport header that `xdp_fw` asks for. -/
def headerSize (protocol : UInt8) : Nat := if protocol = IPPROTO_TCP then 20 else 8

/-- The frame holds a whole transport header. -/
def HasHeader (frame : List UInt8) : Prop :=
  l4Offset frame + headerSize (protocol frame) ≤ frame.length

/-- The bytes at the place of the destination port are a blocked port, in a later
fragment with room for a header or in a first one without. -/
def Misread (blocklist : BpfMap UInt16 Nat) (frame : List UInt8) : Prop :=
  IsTransport frame ∧ HasPorts frame ∧ destPort frame ∈ blocklist.keys ∧
    (fragOffset frame = 0 ↔ ¬ HasHeader frame)

instance (frame : List UInt8) : Decidable (InScope frame) := inferInstanceAs (Decidable (_ ∧ _))

instance (blocklist : BpfMap UInt16 Nat) (frame : List UInt8) :
    Decidable (ToDrop blocklist frame) :=
  inferInstanceAs (Decidable ((_ = _ ∨ _ = _) ∧ _ = _ ∧ _ ≤ _ ∧ _ ∈ _))

namespace FirewallLemmas

/-! ## What xdp_fw reads -/

/-- The frames that `xdp_fw` finds a port in: IPv4 with a whole TCP or UDP header
behind 20 bytes. -/
theorem fwPort_eq_some_iff {frame : List UInt8} {p : UInt16} :
    fwPort frame = some p ↔ load16 frame 12 = ntohs ETH_P_IP ∧ IsTransport frame ∧
      34 + headerSize (protocol frame) ≤ frame.length ∧ ntohs (load16 frame 36) = p := by
  rcases Nat.lt_or_ge frame.length 34 with hshort | hlong
  · have hip : within frame 14 20 = false := decide_eq_false (Nat.not_le_of_lt hshort)
    have hnone : fwPort frame = none := by
      unfold fwPort
      rw [hip]
      split
      · rfl
      · split <;> rfl
    rw [hnone]
    refine iff_of_false (by simp) fun h => ?_
    exact absurd (Nat.le_trans (Nat.le_add_right 34 _) h.2.2.1) (Nat.not_le_of_lt hshort)
  · have heth : within frame 0 14 = true := decide_eq_true (Nat.le_trans (by decide) hlong)
    have hip : within frame 14 20 = true := decide_eq_true hlong
    unfold fwPort
    simp only [heth, hip, Bool.not_true, Bool.false_eq_true, if_false, IsTransport, protocol]
    generalize frame.getD 23 0 = proto
    rcases eq_or_ne (load16 frame 12) (ntohs ETH_P_IP) with htype | htype
    · rcases eq_or_ne proto IPPROTO_UDP with rfl | hudp
      · simp [htype, headerSize, within, show IPPROTO_UDP ≠ IPPROTO_TCP by decide]
      · rcases eq_or_ne proto IPPROTO_TCP with rfl | htcp
        · simp [htype, headerSize, within, show IPPROTO_TCP ≠ IPPROTO_UDP by decide]
        · simp [htype, hudp, htcp]
    · simp [htype]

theorem drop_iff {blocklist : BpfMap UInt16 Nat} {frame : List UInt8} :
    (xdpFw blocklist frame).2 = .drop ↔ ∃ p, fwPort frame = some p ∧ p ∈ blocklist.keys := by
  unfold xdpFw
  cases hp : fwPort frame with
  | none => simp
  | some p =>
    simp only [Option.some.injEq, exists_eq_left', BpfMap.mem_keys_iff]
    cases blocklist.lookupElem p <;> simp

theorem l4Offset_eq {frame : List UInt8} (h : InScope frame) : l4Offset frame = 34 := by
  rw [l4Offset, h.2]
  rfl

/-- In scope, the ports are where `xdp_fw` reads them. -/
theorem drop_iff_of_inScope {blocklist : BpfMap UInt16 Nat} {frame : List UInt8}
    (h : InScope frame) :
    (xdpFw blocklist frame).2 = .drop ↔
      IsTransport frame ∧ HasHeader frame ∧ destPort frame ∈ blocklist.keys := by
  rw [drop_iff, HasHeader, destPort, l4Offset_eq h]
  simp only [fwPort_eq_some_iff, ntohs_eq_iff.mp h.1, true_and]
  constructor
  · rintro ⟨p, ⟨ht, hlen, rfl⟩, hkey⟩
    exact ⟨ht, hlen, hkey⟩
  · rintro ⟨ht, hlen, hkey⟩
    exact ⟨_, ⟨ht, hlen, rfl⟩, hkey⟩

/-- A header has ports. -/
theorem hasPorts_of_hasHeader {frame : List UInt8} (h : HasHeader frame) : HasPorts frame := by
  have hsize : 4 ≤ headerSize (protocol frame) := by
    unfold headerSize
    split <;> decide
  exact Nat.le_trans (Nat.add_le_add_left hsize _) h

end FirewallLemmas

open FirewallLemmas

/-! ## 1. The verdict -/

/-- For every blocklist and every frame with an IPv4 header of 20 bytes: the verdict is the
one that is due unless a blocked port is read out of a later fragment, or one is left
unread in a packet without a whole transport header. -/
theorem verdict_law_iff (blocklist : BpfMap UInt16 Nat) {frame : List UInt8} (h : InScope frame) :
    ((xdpFw blocklist frame).2 = .drop ↔ ToDrop blocklist frame) ↔ ¬ Misread blocklist frame := by
  rw [drop_iff_of_inScope h, ToDrop, Misread]
  have hports : HasHeader frame → HasPorts frame := hasPorts_of_hasHeader
  tauto

/-- The port 11111 is blocked. -/
def exBlocklist : BpfMap UInt16 Nat := BpfMap.empty.insertAt 0 11111 0

/-- An Ethernet header, and an IPv4 header with the given fragment field and
protocol. -/
def exHeaders (frag : List UInt8) (protocol : UInt8) : List UInt8 :=
  List.replicate 12 0 ++ [0x08, 0x00] ++
    [0x45, 0, 0, 0, 0, 0] ++ frag ++ [64, protocol, 0, 0, 127, 0, 0, 1, 127, 0, 0, 1]

/-- A later fragment of a UDP datagram, whose payload happens to hold the port. -/
def exFragment : List UInt8 := exHeaders [0x00, 0xb9] IPPROTO_UDP ++ [1, 2, 0x2b, 0x67, 5, 6, 7, 8]

/-- A TCP segment to the port that ends behind the ports. -/
def exShort : List UInt8 := exHeaders [0, 0] IPPROTO_TCP ++ [0x30, 0x39, 0x2b, 0x67]

/-- The one is dropped and the other is not. -/
theorem fragments_and_short_misjudged :
    (InScope exFragment ∧ ¬ ToDrop exBlocklist exFragment ∧
      (xdpFw exBlocklist exFragment).2 = .drop) ∧
    (InScope exShort ∧ ToDrop exBlocklist exShort ∧ (xdpFw exBlocklist exShort).2 = .pass) := by
  decide +kernel

/-- A whole UDP header to the port. -/
def exDatagram : List UInt8 := exHeaders [0, 0] IPPROTO_UDP ++ [0x30, 0x39, 0x2b, 0x67, 0, 8, 0, 0]

theorem exDatagram_judged :
    InScope exDatagram ∧
      ((xdpFw exBlocklist exDatagram).2 = .drop ↔ ToDrop exBlocklist exDatagram) := by
  have hscope : InScope exDatagram := by decide +kernel
  refine ⟨hscope, (verdict_law_iff exBlocklist hscope).mpr fun hmis => ?_⟩
  have hheader : HasHeader exDatagram := by unfold HasHeader; decide +kernel
  exact hmis.2.2.2.mp (by decide +kernel) hheader

/-! ## 2. The counters -/

section Counters

variable {n : Nat}

/-- The next step of a run of `xdp_fw`. -/
inductive FwPc where
  | lookup
  | add (dport : UInt16)
  | returned (action : XdpAction)
deriving DecidableEq, Repr

/-- `xdp_fw` as the steps that other CPUs may come between: the lookup and the
atomic add. -/
def fwStep (frame : List UInt8) (blocklist : BpfMap UInt16 Nat) : FwPc → BpfMap UInt16 Nat × FwPc
  | .lookup =>
    match fwPort frame with
    | none => (blocklist, .returned .pass)
    | some dport =>
      match blocklist.lookupElem dport with
      | some _ => (blocklist, .add dport)
      | none => (blocklist, .returned .pass)
  | .add dport => (blocklist.modify dport fun dropped => u64Add dropped 1, .returned .drop)
  | .returned action => (blocklist, .returned action)

/-- The map and the runs, one for each frame, after a schedule. -/
def fwAfter (blocklist : BpfMap UInt16 Nat) (frames : Fin n → List UInt8) (sched : List (Fin n)) :
    Threads.Sys (Fin n) (BpfMap UInt16 Nat) FwPc :=
  Threads.after (fun i => fwStep (frames i)) ⟨blocklist, fun _ => .lookup⟩ sched

/-- The frame was dropped on the port. -/
def droppedOn (p : UInt16) (frame : List UInt8) (pc : FwPc) : Nat :=
  if pc = .returned .drop ∧ fwPort frame = some p then 1 else 0

/-- The number of frames dropped on the port. -/
def drops (blocklist : BpfMap UInt16 Nat) (frames : Fin n → List UInt8) (sched : List (Fin n))
    (p : UInt16) :
    Nat :=
  ∑ i, droppedOn p (frames i) ((fwAfter blocklist frames sched).locals i)

/-- A run without others in between is `xdp_fw`. -/
theorem fwStep_alone (blocklist : BpfMap UInt16 Nat) (frame : List UInt8) :
    fwStep frame (fwStep frame blocklist .lookup).1 (fwStep frame blocklist .lookup).2 =
      ((xdpFw blocklist frame).1, .returned (xdpFw blocklist frame).2) := by
  unfold xdpFw
  cases hp : fwPort frame with
  | none => simp [fwStep, hp]
  | some p => cases hrow : blocklist.lookupElem p <;> simp [fwStep, hp, hrow]

namespace FirewallLemmas

/-- What a run knows: the keys are those of the start, and the port it is about to
count is one of them. -/
structure Knows (ks : List UInt16) (frame : List UInt8)
    (blocklist : BpfMap UInt16 Nat) (pc : FwPc) :
    Prop where
  keys : blocklist.keys = ks
  add : ∀ p, pc = .add p → fwPort frame = some p ∧ p ∈ ks

variable {ks : List UInt16} {frame : List UInt8} {m : BpfMap UInt16 Nat} {pc : FwPc}

theorem keys_fwStep (frame : List UInt8) (m : BpfMap UInt16 Nat) (pc : FwPc) :
    (fwStep frame m pc).1.keys = m.keys := by
  cases pc with
  | lookup =>
    simp only [fwStep]
    split
    · rfl
    · split <;> rfl
  | add p => exact BpfMap.keys_modify m p _
  | returned a => rfl

theorem knows_fwStep (h : Knows ks frame m pc) :
    Knows ks frame (fwStep frame m pc).1 (fwStep frame m pc).2 := by
  refine ⟨(keys_fwStep frame m pc).trans h.keys, fun p hpc => ?_⟩
  cases pc with
  | lookup =>
    cases hp : fwPort frame with
    | none => simp [fwStep, hp] at hpc
    | some q =>
      cases hrow : m.lookupElem q with
      | none => simp [fwStep, hp, hrow] at hpc
      | some c =>
        have hq : q = p := by simpa [fwStep, hp, hrow] using hpc
        subst hq
        exact ⟨rfl, h.keys ▸ BpfMap.mem_keys_iff.mpr (by rw [hrow]; rfl)⟩
  | add q => cases hpc
  | returned a => cases hpc

theorem keys_after (blocklist : BpfMap UInt16 Nat) (frames : Fin n → List UInt8)
    (sched : List (Fin n)) :
    (fwAfter blocklist frames sched).shared.keys = blocklist.keys := by
  induction sched using List.reverseRecOn with
  | nil => rfl
  | append_singleton sched i ih =>
    rw [fwAfter, Threads.shared_snoc, keys_fwStep]
    exact ih

theorem knows_after (blocklist : BpfMap UInt16 Nat) (frames : Fin n → List UInt8)
    (sched : List (Fin n))
    (i : Fin n) : Knows blocklist.keys (frames i) (fwAfter blocklist frames sched).shared
      ((fwAfter blocklist frames sched).locals i) :=
  Threads.after_local (J := fun i m pc => Knows blocklist.keys (frames i) m pc)
    (R := fun m m' => m'.keys = m.keys) (fun i m pc h => knows_fwStep h)
    (fun i m pc _ => keys_fwStep (frames i) m pc)
    (fun i m m' pc hkeys h => ⟨hkeys.trans h.keys, h.add⟩)
    (fun i => ⟨rfl, fun p hpc => by cases hpc⟩) sched i

/-- What the next step of a run adds to the counter of the port. -/
def adds (p : UInt16) : FwPc → Nat
  | .add q => if q = p then 1 else 0
  | _ => 0

theorem counter_fwStep (h : Knows ks frame m pc) {p : UInt16} (hlt : m.counter p < 2 ^ 64) :
    (fwStep frame m pc).1.counter p = (m.counter p + adds p pc) % 2 ^ 64 := by
  have hsame : m.counter p = (m.counter p + 0) % 2 ^ 64 := (Nat.mod_eq_of_lt hlt).symm
  cases pc with
  | lookup =>
    simp only [fwStep]
    split
    · exact hsame
    · split <;> exact hsame
  | add q =>
    have hmem : q ∈ m.keys := h.keys ▸ (h.add q rfl).2
    obtain ⟨c, hc⟩ := Option.isSome_iff_exists.mp (BpfMap.mem_keys_iff.mp hmem)
    rcases eq_or_ne q p with rfl | hne
    · simp [fwStep, BpfMap.counter, adds, BpfMap.lookupElem_modify, hc, u64Add]
    · rw [adds, if_neg hne, ← hsame]
      simp [fwStep, BpfMap.counter, BpfMap.lookupElem_modify, hne.symm]
  | returned a => exact hsame

theorem droppedOn_fwStep (h : Knows ks frame m pc) (p : UInt16) :
    droppedOn p frame (fwStep frame m pc).2 = droppedOn p frame pc + adds p pc := by
  cases pc with
  | lookup =>
    simp only [fwStep]
    split
    · rfl
    · split <;> rfl
  | add q => simp [fwStep, droppedOn, adds, (h.add q rfl).1]
  | returned a => rfl

theorem counter_after {blocklist : BpfMap UInt16 Nat} {p : UInt16}
    (hlt : blocklist.counter p < 2 ^ 64) (frames : Fin n → List UInt8) (sched : List (Fin n)) :
    (fwAfter blocklist frames sched).shared.counter p =
      (blocklist.counter p + drops blocklist frames sched p) % 2 ^ 64 := by
  refine Threads.after_sum (f := fun d => (blocklist.counter p + d) % 2 ^ 64)
    (S := fun i => droppedOn p (frames i))
      (V := fun sched => (fwAfter blocklist frames sched).shared.counter p)
    ?_ fun pre i post _ =>
      ⟨_, droppedOn_fwStep (knows_after blocklist frames pre i) p, fun hval => ?_⟩
  · have hnone : ∀ i : Fin n, droppedOn p (frames i) .lookup = 0 := fun i => by simp [droppedOn]
    simp only [hnone, Finset.sum_const_zero, Nat.add_zero]
    exact (Nat.mod_eq_of_lt hlt).symm
  · have hpre : (fwAfter blocklist frames pre).shared.counter p < 2 ^ 64 := by
      rw [hval]
      exact Nat.mod_lt _ (by decide)
    have hstep := counter_fwStep (knows_after blocklist frames pre i) hpre
    rw [hval, Nat.mod_add_mod, Nat.add_assoc] at hstep
    rw [fwAfter, Threads.shared_snoc]
    exact hstep

end FirewallLemmas

/-- For any frames, on any CPUs, and any interleaving of the runs: the keys stay, and
every counter is what it was and the number of the frames dropped on its port, in
64 bits. -/
theorem blocklist_after {blocklist : BpfMap UInt16 Nat}
    (hbits : ∀ p c, blocklist.lookupElem p = some c → c < 2 ^ 64) (frames : Fin n → List UInt8)
    (sched : List (Fin n)) :
    (fwAfter blocklist frames sched).shared.keys = blocklist.keys ∧
    ∀ p, (fwAfter blocklist frames sched).shared.lookupElem p =
      (blocklist.lookupElem p).map fun c => u64Add c (drops blocklist frames sched p) := by
  have hkeys := keys_after blocklist frames sched
  refine ⟨hkeys, fun p => ?_⟩
  cases hrow : blocklist.lookupElem p with
  | none =>
    rw [BpfMap.lookupElem_eq_none_iff, ← hkeys, ← BpfMap.lookupElem_eq_none_iff] at hrow
    exact hrow
  | some c =>
    have hmem : p ∈ (fwAfter blocklist frames sched).shared.keys := by
      rw [hkeys, BpfMap.mem_keys_iff, hrow]
      rfl
    obtain ⟨c', hc'⟩ := Option.isSome_iff_exists.mp (BpfMap.mem_keys_iff.mp hmem)
    have hcount : blocklist.counter p = c := by rw [BpfMap.counter, hrow]; rfl
    have hafter := counter_after (hcount ▸ hbits p c hrow) frames sched
    rw [hcount, BpfMap.counter, hc'] at hafter
    rw [hc', Option.map_some]
    exact congrArg some hafter

end Counters

end Ebpf101.Xdp
