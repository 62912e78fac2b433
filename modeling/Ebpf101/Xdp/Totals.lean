import Mathlib.Algebra.BigOperators.Group.List.Basic
import Mathlib.Algebra.GroupWithZero.Nat
import Ebpf101.Lib.Runs
import Ebpf101.Xdp.Parsers

/-!
# The totals of xdpcount

Chapter 17, `17-xdp/xdpcount.c`: once a second the loader reads the per-CPU array
`counts` and prints, for each category, the sum over the possible CPUs.

Results:
1. `totals_match_iff`: the printed sums are the numbers of frames of each category, by
   the definition of the categories, if and only if no frame is an IPv4 frame that ends
   inside its IPv4 header and no category has `2 ^ 64` frames. `shortIpv4_counted_other`:
   one frame with a cut IPv4 header.
-/

namespace Ebpf101.Xdp

open Runs

/-! ## The table of xdpcount -/

/-- The categories below `CAT_MAX`, in the order of the enumeration. -/
def PktCat.all : List PktCat := [.other, .tcp, .udp, .icmp, .ipv4Other, .ipv6Other, .arp]

/-- `labels`. -/
def PktCat.label : PktCat → String
  | .other => "other"
  | .tcp => "TCP"
  | .udp => "UDP"
  | .icmp => "ICMP"
  | .ipv4Other => "IPv4-other"
  | .ipv6Other => "IPv6-other"
  | .arp => "ARP"

/-- `sum`, over the slots of a category. -/
def sumOverCpus (ncpu : Nat) (counts : Counts) (cat : PktCat) : Nat :=
  (List.range ncpu).foldl (fun sum i => u64Add sum (counts i cat)) 0

/-- The rows that are printed. A lookup in the array does not fail: every category is
below the number of its entries. -/
def table (ncpu : Nat) (counts : Counts) : List (String × Nat) :=
  PktCat.all.map fun cat => (cat.label, sumOverCpus ncpu counts cat)

/-- The array after frames, each with the CPU it came in on. -/
def countsAfter {ncpu : Nat} (frames : List (Fin ncpu × List UInt8)) : Counts :=
  exec (fun counts f => xdpCount counts f.1 f.2) (fun _ _ => 0) frames

/-! ## What the categories are -/

/-- What the categories are by their definition: the two IP families alike, a frame that
ends inside its IP header being of its family and of no known protocol. -/
def referenceCategory (frame : List UInt8) : PktCat :=
  if frame.length < 14 then .other
  else if ntohs (load16 frame 12) = ETH_P_ARP then .arp
  else if ntohs (load16 frame 12) = ETH_P_IP then
    if frame.length < 34 then .ipv4Other
    else if frame.getD 23 0 = IPPROTO_TCP then .tcp
    else if frame.getD 23 0 = IPPROTO_UDP then .udp
    else if frame.getD 23 0 = IPPROTO_ICMP then .icmp
    else .ipv4Other
  else if ntohs (load16 frame 12) = ETH_P_IPV6 then
    if frame.length < 54 then .ipv6Other
    else if frame.getD 20 0 = IPPROTO_TCP then .tcp
    else if frame.getD 20 0 = IPPROTO_UDP then .udp
    else if frame.getD 20 0 = IPPROTO_ICMPV6 then .icmp
    else .ipv6Other
  else .other

/-- The number of frames of a category. -/
def numOf {ncpu : Nat} (frames : List (Fin ncpu × List UInt8)) (cat : PktCat) : Nat :=
  frames.countP fun f => referenceCategory f.2 = cat

/-- The table says how many frames of each category there were, and in all. -/
structure TotalsMatch {ncpu : Nat} (frames : List (Fin ncpu × List UInt8)) : Prop where
  rows : table ncpu (countsAfter frames) = PktCat.all.map fun cat => (cat.label, numOf frames cat)
  sum : ((table ncpu (countsAfter frames)).map Prod.snd).sum = frames.length

/-- An IPv4 frame that ends inside its IPv4 header. -/
def ShortIpv4 (frame : List UInt8) : Prop :=
  14 ≤ frame.length ∧ frame.length < 34 ∧ ntohs (load16 frame 12) = ETH_P_IP

instance (frame : List UInt8) : Decidable (ShortIpv4 frame) :=
  inferInstanceAs (Decidable (_ ∧ _ ∧ _))

namespace TotalsLemmas

/-! ## The category of a frame -/

theorem category_of_short {frame : List UInt8} (h : ShortIpv4 frame) :
    category frame = .other ∧ referenceCategory frame = .ipv4Other := by
  obtain ⟨heth, hip, hproto⟩ := h
  have hin : within frame 0 14 = true := decide_eq_true heth
  have hout : within frame 14 20 = false := decide_eq_false (Nat.not_le_of_lt hip)
  have hne : ETH_P_IP ≠ ETH_P_ARP := by decide
  constructor
  · rw [category, hin, hout, hproto, if_neg (by decide), if_neg hne, if_pos rfl,
      if_pos Bool.not_false]
  · rw [referenceCategory, if_neg (Nat.not_lt_of_le heth), hproto, if_neg hne, if_pos rfl,
      if_pos hip]

theorem category_of_not_short {frame : List UInt8} (h : ¬ ShortIpv4 frame) :
    category frame = referenceCategory frame := by
  have hwithin : ∀ off n, ((!within frame off n) = true) = (frame.length < off + n) := by
    intro off n
    rw [within, Bool.not_eq_true', decide_eq_false_iff_not, Nat.not_le]
  unfold category referenceCategory
  refine ite_congr (hwithin 0 14) (fun _ => rfl) fun heth =>
    ite_congr rfl (fun _ => rfl) fun _ => ?_
  refine ite_congr rfl (fun hproto => ?_) fun _ => ?_
  · have hlong : ¬ frame.length < 14 + 20 := fun hip => h ⟨Nat.not_lt.mp heth, hip, hproto⟩
    rw [if_neg hlong, if_neg ((hwithin 14 20).symm ▸ hlong)]
  · exact ite_congr rfl
      (fun _ => ite_congr (hwithin 14 40) (fun _ => rfl) fun _ => rfl) fun _ => rfl

/-! ## The sums -/

/-- One more in the slot of a possible CPU is one more in the sum of its category. -/
theorem sumOverCpus_bump (counts : Counts) (cpu : Nat) (k cat : PktCat) (ncpu : Nat) :
    sumOverCpus ncpu (counts.bump cpu k) cat =
      if cpu < ncpu ∧ cat = k then u64Add (sumOverCpus ncpu counts cat) 1
      else sumOverCpus ncpu counts cat := by
  have hsucc : ∀ (c : Counts) (n : Nat),
      sumOverCpus (n + 1) c cat = u64Add (sumOverCpus n c cat) (c n cat) := by
    intro c n
    rw [sumOverCpus, List.range_succ, List.foldl_append]
    rfl
  induction ncpu with
  | zero => rw [if_neg fun h => Nat.not_lt_zero _ h.1]; rfl
  | succ n ih =>
    rw [hsucc, hsucc, ih]
    rcases eq_or_ne cat k with rfl | hk
    · simp only [Counts.bump, and_true]
      rcases Nat.lt_trichotomy cpu n with hlt | rfl | hgt
      · rw [if_pos hlt, if_pos (Nat.lt_succ_of_lt hlt), if_neg (Nat.ne_of_gt hlt)]
        unfold u64Add
        omega
      · rw [if_neg (Nat.lt_irrefl _), if_pos (Nat.lt_succ_self _), if_pos rfl]
        unfold u64Add
        omega
      · rw [if_neg (Nat.lt_asymm hgt), if_neg (Nat.not_lt_of_le hgt), if_neg (Nat.ne_of_lt hgt)]
    · rw [if_neg fun h => hk h.2, if_neg fun h => hk h.2, Counts.bump, if_neg fun h => hk h.2]

/-- The sum of a category, after any frames on any CPUs. -/
theorem sumOverCpus_after {ncpu : Nat} (frames : List (Fin ncpu × List UInt8)) (cat : PktCat) :
    sumOverCpus ncpu (countsAfter frames) cat =
      (frames.countP fun f => category f.2 = cat) % 2 ^ 64 := by
  induction frames using List.reverseRecOn with
  | nil =>
    rw [countsAfter, exec_nil, sumOverCpus]
    exact List.foldl_fixed' (fun _ => rfl) _
  | append_singleton frames f ih =>
    rw [countsAfter, exec_snoc, ← countsAfter, xdpCount, sumOverCpus_bump, ih, List.countP_append,
      List.countP_singleton]
    simp only [f.1.isLt, true_and, decide_eq_true_eq, eq_comm (a := cat)]
    split
    · rw [u64Add, Nat.mod_add_mod]
    · rfl

/-- Every frame has one category. -/
theorem sum_countP {ncpu : Nat} (frames : List (Fin ncpu × List UInt8)) :
    (PktCat.all.map fun cat => numOf frames cat).sum = frames.length := by
  induction frames with
  | nil => rfl
  | cons f frames ih =>
    have hone : (PktCat.all.map fun cat =>
        if decide (referenceCategory f.2 = cat) = true then 1 else 0).sum = 1 := by
      cases referenceCategory f.2 <;> rfl
    simp only [numOf, List.countP_cons] at ih ⊢
    rw [List.sum_map_add, ih, hone, List.length_cons]

theorem mem_all (cat : PktCat) : cat ∈ PktCat.all := by
  cases cat <;> decide

/-- The rows, category by category. -/
theorem rows_iff {f g : PktCat → Nat} :
    (PktCat.all.map fun cat => (cat.label, f cat)) =
      (PktCat.all.map fun cat => (cat.label, g cat)) ↔
      ∀ cat, f cat = g cat := by
  rw [List.map_inj_left]
  exact ⟨fun h cat => (Prod.ext_iff.mp (h cat (mem_all cat))).2, fun h cat _ => by rw [h]⟩

/-- A frame with a cut header is missing among the IPv4 frames of other protocols. -/
theorem countP_lt_of_short {ncpu : Nat} {frames : List (Fin ncpu × List UInt8)}
    (h : ∃ f ∈ frames, ShortIpv4 f.2) :
    (frames.countP fun f => category f.2 = .ipv4Other) < numOf frames .ipv4Other := by
  have hle : ∀ f ∈ frames, decide (category f.2 = .ipv4Other) = true →
      decide (referenceCategory f.2 = .ipv4Other) = true := by
    intro f _ hf
    rw [decide_eq_true_eq] at hf ⊢
    rcases Classical.em (ShortIpv4 f.2) with hs | hs
    · exact (category_of_short hs).2
    · rw [← category_of_not_short hs, hf]
  obtain ⟨f, hf, hs⟩ := h
  obtain ⟨pre, post, rfl⟩ := List.append_of_mem hf
  have hpre := List.countP_mono_left fun g hg => hle g (List.mem_append_left _ hg)
  have hpost := List.countP_mono_left fun g hg =>
    hle g (List.mem_append_right _ (List.mem_cons_of_mem _ hg))
  obtain ⟨hother, href⟩ := category_of_short hs
  rw [numOf, List.countP_append, List.countP_append, List.countP_cons_of_neg (by simp [hother]),
    List.countP_cons_of_pos (by simp [href])]
  exact Nat.lt_of_le_of_lt (Nat.add_le_add hpre hpost) (Nat.lt_succ_self _)

theorem countP_category {ncpu : Nat} {frames : List (Fin ncpu × List UInt8)}
    (h : ∀ f ∈ frames, ¬ ShortIpv4 f.2) (cat : PktCat) :
    (frames.countP fun f => category f.2 = cat) = numOf frames cat :=
  List.countP_congr fun f hf => by rw [category_of_not_short (h f hf)]

end TotalsLemmas

open TotalsLemmas

/-! ## 1. The totals -/

/-- For every number of CPUs, over every sequence of frames on any of them. -/
theorem totals_match_iff {ncpu : Nat} (frames : List (Fin ncpu × List UInt8)) :
    TotalsMatch frames ↔
      (∀ f ∈ frames, ¬ ShortIpv4 f.2) ∧ ∀ cat, numOf frames cat < 2 ^ 64 := by
  have hsums : ∀ cat, sumOverCpus ncpu (countsAfter frames) cat = _ := sumOverCpus_after frames
  constructor
  · intro h
    have hrows := rows_iff.mp h.rows
    have hnone : ∀ f ∈ frames, ¬ ShortIpv4 f.2 := by
      intro f hf hs
      have hlt := countP_lt_of_short ⟨f, hf, hs⟩
      rw [← hrows, hsums] at hlt
      exact Nat.not_lt_of_le (Nat.mod_le _ _) hlt
    refine ⟨hnone, fun cat => ?_⟩
    rw [← hrows, hsums]
    exact Nat.mod_lt _ (Nat.two_pow_pos 64)
  · rintro ⟨hnone, hfew⟩
    have hcount : ∀ cat, sumOverCpus ncpu (countsAfter frames) cat = numOf frames cat := by
      intro cat
      rw [hsums, countP_category hnone, Nat.mod_eq_of_lt (hfew cat)]
    have hrows := rows_iff.mpr hcount
    refine ⟨hrows, ?_⟩
    rw [table, hrows, List.map_map]
    exact sum_countP frames

/-- A frame of 20 bytes with the ethertype of IPv4. -/
def exCutHeader : List UInt8 := List.replicate 12 0 ++ [0x08, 0x00] ++ List.replicate 6 0

/-- The frame of a cut IPv4 header is counted as of no IP family. -/
theorem shortIpv4_counted_other :
    referenceCategory exCutHeader = .ipv4Other ∧
    table 1 (countsAfter [((0 : Fin 1), exCutHeader)]) =
      [("other", 1), ("TCP", 0), ("UDP", 0), ("ICMP", 0), ("IPv4-other", 0),
        ("IPv6-other", 0), ("ARP", 0)] ∧
    ¬ TotalsMatch [((0 : Fin 1), exCutHeader)] := by
  have htable : table 1 (countsAfter [((0 : Fin 1), exCutHeader)]) =
      [("other", 1), ("TCP", 0), ("UDP", 0), ("ICMP", 0), ("IPv4-other", 0), ("IPv6-other", 0),
        ("ARP", 0)] := by
    decide +kernel
  refine ⟨by decide, htable, fun h => ?_⟩
  have hrows := rows_iff.mp h.rows .ipv4Other
  exact absurd hrows (by decide +kernel)

end Ebpf101.Xdp
