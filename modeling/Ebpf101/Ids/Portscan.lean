import Mathlib.Data.Finset.Card
import Mathlib.Data.List.Nodup
import Ebpf101.Ids.Rules

/-!
# Port scans

Rule 2 of the detector keeps, for each source, a bounded table of the ports it
hit in the last five seconds, compacted in place, and the time of its last
alert. The reference looks at all packets of the source.

Results:
1. `portscan_refines_window`: as long as no source hits more than 256 ports in
   five seconds, the table of a source is exactly its sliding window, and an
   alert is raised exactly when that window has more than 20 ports and the
   source's previous alert is more than ten seconds old.
-/

namespace Ebpf101.Ids

open Runs SlotTable

/-! ## The sliding window -/

/-- The entries of the table that are in use. -/
def ScanSrc.live (sc : ScanSrc) : List Seen := sc.seen.take sc.n

/-- `ts` is in the five seconds that end at `t`, the left end excluded. -/
def InSpan (t ts : UInt64) : Prop := ts ≤ t ∧ t.toNat < ts.toNat + 5 * 10 ^ 9

instance (t ts : UInt64) : Decidable (InSpan t ts) := inferInstanceAs (Decidable (_ ∧ _))

/-- The ports hit by the packets `qs` in the five seconds that end at `t`. -/
def portsIn (t : UInt64) (qs : List FlowPkt) : Finset UInt16 :=
  ((qs.filter fun q => InSpan t q.tsNs).map FlowPkt.dport).toFinset

/-- The latest time at which one of the packets `qs` hit the port. -/
def IsLatest (qs : List FlowPkt) (port : UInt16) (ts : UInt64) : Prop :=
  (∃ q ∈ qs, q.dport = port ∧ q.tsNs = ts) ∧ ∀ q ∈ qs, q.dport = port → q.tsNs ≤ ts

/-- The table is the window of the packets `qs` at time `t`: each port once,
with its latest time. -/
structure HoldsWindow (qs : List FlowPkt) (t : UInt64) (sc : ScanSrc) : Prop where
  once : (sc.live.map Seen.port).Nodup
  mem_iff : ∀ e, e ∈ sc.live ↔ IsLatest qs e.port e.ts ∧ InSpan t e.ts

/-! ## Statements -/

def Alert.isPortscan : Alert → Bool
  | .portscan .. => true
  | _ => false

/-- The port-scan alerts of a packet. -/
def portscans (as : List Alert) : List Alert := as.filter Alert.isPortscan

/-- The times of a source's port-scan alerts. -/
def alertTimes (a : UInt32) (ps : List FlowPkt) : List UInt64 :=
  ((ps.zip (outs handleEvent State.init ps)).filter fun x =>
    x.1.saddr = a ∧ portscans x.2 ≠ []).map fun x => x.1.tsNs

/-- An alert at `t` is due: the window is large enough, and the source's
previous alert, if there is one, more than ten seconds old. -/
def ScanDue (a : UInt32) (pre : List FlowPkt) (p : FlowPkt) : Prop :=
  20 < (portsIn p.tsNs (ofSource a (pre ++ [p]))).card ∧
  ∀ t ∈ (alertTimes a pre).getLast?, t.toNat + 10 * 10 ^ 9 < p.tsNs.toNat

instance (a : UInt32) (pre : List FlowPkt) (p : FlowPkt) : Decidable (ScanDue a pre p) :=
  inferInstanceAs (Decidable (_ ∧ _))

namespace PortscanLemmas

/-! ## The operations on a table -/

theorem length_live (sc : ScanSrc) : sc.live.length = sc.n := by
  rw [ScanSrc.live, List.length_take, sc.seen_length, Nat.min_eq_left sc.n_le]

theorem live_expire (sc : ScanSrc) (now : UInt64) :
    (sc.expire now).live = sc.live.filter (inWindow now) :=
  (InPlace.compact_spec (inWindow now) (sc.seen_length ▸ sc.n_le)).1

theorem take_modify {α : Type} (xs : List α) (n i : Nat) (f : α → α) :
    (xs.modify i f).take n = (xs.take n).modify i f := by
  refine List.ext_getElem? fun j => ?_
  simp only [List.getElem?_take, List.getElem?_modify]
  split <;> simp

/-- Refreshing the entry of a port, found by a scan, refreshes every entry of
it: there is only one. -/
theorem modify_eq_map {xs : List Seen} {port : UInt16} {i : Nat} {f : Seen → Seen}
    (hnd : (xs.map Seen.port).Nodup) (hi : xs.findIdx? (fun e => e.port = port) = some i) :
    xs.modify i f = xs.map fun e => if e.port = port then f e else e := by
  obtain ⟨hlt, hport, -⟩ := List.findIdx?_eq_some_iff_getElem.mp hi
  refine List.ext_getElem? fun j => ?_
  rw [List.getElem?_modify, List.getElem?_map]
  cases hj : xs[j]? with
  | none => simp
  | some e =>
    obtain ⟨hjlt, rfl⟩ := List.getElem?_eq_some_iff.mp hj
    by_cases hij : i = j
    · subst hij
      simp [of_decide_eq_true hport]
    · have hne : xs[j].port ≠ port := by
        intro he
        refine hij ((List.getElem?_inj (by simpa using hlt) hnd).mp ?_)
        simp [hlt, hjlt, he, of_decide_eq_true hport]
      simp [hij, hne]

/-- Refreshing a port that is in the table. -/
theorem mem_refresh {xs : List Seen} {port : UInt16} (now : UInt64)
    (hport : port ∈ xs.map Seen.port) (e : Seen) :
    e ∈ xs.map (fun e => if e.port = port then { e with ts := now } else e) ↔
      e = ⟨port, now⟩ ∨ e.port ≠ port ∧ e ∈ xs := by
  rw [List.mem_map]
  constructor
  · rintro ⟨e', he', rfl⟩
    split
    · next hp => exact Or.inl (by rw [hp])
    · next hp => exact Or.inr ⟨hp, he'⟩
  · rintro (rfl | ⟨hp, he⟩)
    · obtain ⟨e₀, he₀, hp₀⟩ := List.mem_map.mp hport
      exact ⟨e₀, he₀, by rw [if_pos hp₀, hp₀]⟩
    · exact ⟨e, he, if_neg hp⟩

/-- Appending a port that is not. -/
theorem mem_append_new {xs : List Seen} {port : UInt16} (now : UInt64)
    (hport : port ∉ xs.map Seen.port) (e : Seen) :
    e ∈ xs ++ [⟨port, now⟩] ↔ e = ⟨port, now⟩ ∨ e.port ≠ port ∧ e ∈ xs := by
  rw [List.mem_append, List.mem_singleton]
  constructor
  · rintro (he | rfl)
    · exact Or.inr ⟨fun hp => hport (hp ▸ List.mem_map_of_mem he), he⟩
    · exact Or.inl rfl
  · rintro (rfl | ⟨-, he⟩)
    · exact Or.inr rfl
    · exact Or.inl he

theorem live_record_known {sc : ScanSrc} {port : UInt16} (now : UInt64) {i : Nat}
    (hi : (sc.seen.take sc.n).findIdx? (fun e => e.port = port) = some i) :
    (sc.record port now).live = sc.live.modify i fun e => { e with ts := now } := by
  have hlive : (sc.record port now).live =
      (sc.seen.modify i fun e => { e with ts := now }).take sc.n := by
    unfold ScanSrc.record
    rw [hi]
    rfl
  rw [hlive, take_modify]
  rfl

theorem live_record_new {sc : ScanSrc} {port : UInt16} (now : UInt64)
    (hnone : (sc.seen.take sc.n).findIdx? (fun e => e.port = port) = none)
    (hlt : sc.n < MAX_SCAN_PORTS) :
    (sc.record port now).live = sc.live ++ [⟨port, now⟩] := by
  have hlive : (sc.record port now).live = (sc.seen.set sc.n ⟨port, now⟩).take (sc.n + 1) := by
    unfold ScanSrc.record
    rw [hnone]
    simp only [dif_pos hlt]
    rfl
  rw [hlive]
  exact InPlace.take_succ_set (by rw [sc.seen_length]; exact hlt) _

/-- Recording a port: its entry is refreshed or appended, the others stay. -/
theorem live_record {sc : ScanSrc} (hnd : (sc.live.map Seen.port).Nodup) (port : UInt16)
    (now : UInt64) (hroom : port ∈ sc.live.map Seen.port ∨ sc.n < MAX_SCAN_PORTS) :
    ((sc.record port now).live.map Seen.port).Nodup ∧
    ∀ e, e ∈ (sc.record port now).live ↔ e = ⟨port, now⟩ ∨ e.port ≠ port ∧ e ∈ sc.live := by
  cases hi : (sc.seen.take sc.n).findIdx? (fun e => e.port = port) with
  | some i =>
    have hport : port ∈ sc.live.map Seen.port := by
      obtain ⟨hlt, hp, -⟩ := List.findIdx?_eq_some_iff_getElem.mp hi
      exact List.mem_map.mpr ⟨_, List.getElem_mem hlt, of_decide_eq_true hp⟩
    have hports : (Seen.port ∘ fun e : Seen => if e.port = port then { e with ts := now } else e) =
        Seen.port := by
      funext e
      simp only [Function.comp]
      split <;> rfl
    rw [live_record_known now hi, modify_eq_map hnd hi, List.map_map, hports]
    exact ⟨hnd, mem_refresh now hport⟩
  | none =>
    have hport : port ∉ sc.live.map Seen.port := by
      intro hmem
      obtain ⟨e, he, hp⟩ := List.mem_map.mp hmem
      have hne := List.findIdx?_eq_none_iff.mp hi e he
      simp [hp] at hne
    rw [live_record_new now hi (hroom.resolve_left hport), List.map_append, List.map_singleton]
    refine ⟨List.nodup_append.mpr ⟨hnd, List.nodup_singleton _, fun a ha b hb hab => ?_⟩,
      mem_append_new now hport⟩
    have hap : a = port := hab.trans (List.mem_singleton.mp hb)
    exact hport (hap ▸ ha)

/-! ## The window moves with the packets -/

theorem inWindow_iff {t ts : UInt64} (h : ts ≤ t) (port : UInt16) :
    inWindow t ⟨port, ts⟩ = true ↔ InSpan t ts := by
  have hsub := UInt64.toNat_sub_of_le t ts h
  have hle := UInt64.le_iff_toNat_le.mp h
  rw [inWindow, decide_eq_true_eq, UInt64.lt_iff_toNat_lt, hsub, InSpan,
    show SCAN_WINDOW_NS.toNat = 5 * 10 ^ 9 from by decide]
  exact ⟨fun hlt => ⟨h, by omega⟩, fun hlt => by omega⟩

/-- A packet that is not older than those before it. -/
theorem le_snoc {qs : List FlowPkt} {p : FlowPkt} (hle : ∀ q ∈ qs, q.tsNs ≤ p.tsNs) :
    ∀ q ∈ qs ++ [p], q.tsNs ≤ p.tsNs := by
  intro q hq
  rcases List.mem_append.mp hq with hq | hq
  · exact hle q hq
  · rw [List.mem_singleton.mp hq]
    exact UInt64.le_refl _

theorem isLatest_snoc {qs : List FlowPkt} {p : FlowPkt} (hle : ∀ q ∈ qs, q.tsNs ≤ p.tsNs)
    (port : UInt16) (ts : UInt64) :
    IsLatest (qs ++ [p]) port ts ↔
      if port = p.dport then ts = p.tsNs else IsLatest qs port ts := by
  unfold IsLatest
  split
  · next hp =>
    subst hp
    constructor
    · rintro ⟨⟨q, hq, -, rfl⟩, hmax⟩
      exact UInt64.le_antisymm (le_snoc hle q hq) (hmax p (by simp) rfl)
    · rintro rfl
      exact ⟨⟨p, by simp, rfl, rfl⟩, fun q hq _ => le_snoc hle q hq⟩
  · next hp =>
    have hne : ∀ q ∈ qs ++ [p], q.dport = port → q ∈ qs := by
      intro q hq hd
      rcases List.mem_append.mp hq with hq | hq
      · exact hq
      · rw [List.mem_singleton.mp hq] at hd
        exact absurd hd.symm hp
    constructor
    · rintro ⟨⟨q, hq, hd, ht⟩, hmax⟩
      exact ⟨⟨q, hne q hq hd, hd, ht⟩, fun q' hq' => hmax q' (List.mem_append_left _ hq')⟩
    · rintro ⟨⟨q, hq, hd, ht⟩, hmax⟩
      exact ⟨⟨q, List.mem_append_left _ hq, hd, ht⟩, fun q' hq' hd' => hmax q' (hne q' hq' hd') hd'⟩

theorem inOrder_snoc {qs : List FlowPkt} {p : FlowPkt}
    (h : InOrder ((qs ++ [p]).map FlowPkt.tsNs)) :
    InOrder (qs.map FlowPkt.tsNs) ∧ (∀ q ∈ qs, q.tsNs ≤ p.tsNs) ∧ 0 < p.tsNs := by
  rw [List.map_append, List.map_singleton] at h
  refine ⟨h.sublist (List.sublist_append_left _ _), fun q hq => ?_, h.pos _ (by simp)⟩
  exact (List.pairwise_append.mp h.sorted).2.2 _ (List.mem_map_of_mem hq) _ (by simp)

/-- Every port that was hit was hit a last time. -/
theorem exists_latest {qs : List FlowPkt} (hin : InOrder (qs.map FlowPkt.tsNs)) {q : FlowPkt}
    (h : q ∈ qs) : ∃ ts, IsLatest qs q.dport ts ∧ q.tsNs ≤ ts := by
  induction qs using List.reverseRecOn with
  | nil => exact absurd h List.not_mem_nil
  | append_singleton qs p ih =>
    obtain ⟨hpre, hle, -⟩ := inOrder_snoc hin
    simp only [isLatest_snoc hle]
    split
    · exact ⟨p.tsNs, rfl, le_snoc hle q h⟩
    · next hd =>
      rcases List.mem_append.mp h with h | h
      · exact ih hpre h
      · rw [List.mem_singleton.mp h] at hd
        exact absurd rfl hd

/-- The table has as many entries as the window has ports. -/
theorem holdsWindow_ports {qs : List FlowPkt} {t : UInt64} {sc : ScanSrc}
    (h : HoldsWindow qs t sc) (hin : InOrder (qs.map FlowPkt.tsNs)) (hle : ∀ q ∈ qs, q.tsNs ≤ t) :
    (sc.live.map Seen.port).toFinset = portsIn t qs := by
  ext port
  simp only [portsIn, List.mem_toFinset, List.mem_map, List.mem_filter, decide_eq_true_eq,
    h.mem_iff]
  constructor
  · rintro ⟨e, ⟨⟨⟨q, hq, hd, ht⟩, -⟩, hspan⟩, rfl⟩
    exact ⟨q, ⟨hq, ht ▸ hspan⟩, hd⟩
  · rintro ⟨q, ⟨hq, hspan⟩, rfl⟩
    obtain ⟨ts, hlat, hts⟩ := exists_latest hin hq
    refine ⟨⟨q.dport, ts⟩, ⟨hlat, ?_⟩, rfl⟩
    obtain ⟨⟨q', hq', -, rfl⟩, -⟩ := hlat
    have hq'q := UInt64.le_iff_toNat_le.mp hts
    exact ⟨hle q' hq', Nat.lt_of_lt_of_le hspan.2 (Nat.add_le_add_right hq'q _)⟩

theorem holdsWindow_card {qs : List FlowPkt} {t : UInt64} {sc : ScanSrc}
    (h : HoldsWindow qs t sc) (hin : InOrder (qs.map FlowPkt.tsNs)) (hle : ∀ q ∈ qs, q.tsNs ≤ t) :
    sc.n = (portsIn t qs).card := by
  rw [← holdsWindow_ports h hin hle, List.toFinset_card_of_nodup h.once, List.length_map,
    length_live]

/-- Time passes: the entries older than the window are dropped. -/
theorem holdsWindow_expire {qs : List FlowPkt} {t now : UInt64} {sc : ScanSrc}
    (h : HoldsWindow qs t sc) (hle : ∀ q ∈ qs, q.tsNs ≤ t) (htn : t ≤ now) :
    HoldsWindow qs now (sc.expire now) := by
  refine ⟨?_, fun e => ?_⟩
  · rw [live_expire]
    exact h.once.sublist (List.filter_sublist.map _)
  · rw [live_expire, List.mem_filter, h.mem_iff]
    constructor
    · rintro ⟨⟨hlat, hspan⟩, hw⟩
      exact ⟨hlat, (inWindow_iff (UInt64.le_trans hspan.1 htn) e.port).mp hw⟩
    · rintro ⟨hlat, hspan⟩
      have het : e.ts ≤ t := by
        obtain ⟨⟨q, hq, -, hqe⟩, -⟩ := hlat
        exact hqe ▸ hle q hq
      have hlt := Nat.lt_of_le_of_lt (UInt64.le_iff_toNat_le.mp htn) hspan.2
      exact ⟨⟨hlat, het, hlt⟩, (inWindow_iff hspan.1 e.port).mpr hspan⟩

/-- A packet is recorded: the table is the window that ends at the packet. -/
theorem holdsWindow_record {qs : List FlowPkt} {p : FlowPkt} {sc : ScanSrc}
    (h : HoldsWindow qs p.tsNs sc) (hle : ∀ q ∈ qs, q.tsNs ≤ p.tsNs)
    (hroom : p.dport ∈ sc.live.map Seen.port ∨ sc.n < MAX_SCAN_PORTS) :
    HoldsWindow (qs ++ [p]) p.tsNs (sc.record p.dport p.tsNs) := by
  obtain ⟨hnd, hmem⟩ := live_record h.once p.dport p.tsNs hroom
  refine ⟨hnd, fun e => ?_⟩
  rw [hmem, isLatest_snoc hle, h.mem_iff]
  split
  · next hp =>
    constructor
    · rintro (rfl | ⟨hne, -⟩)
      · exact ⟨rfl, UInt64.le_refl _, by simp⟩
      · exact absurd hp hne
    · rintro ⟨hts, -⟩
      left
      cases e
      cases hp
      cases hts
      rfl
  · next hp =>
    constructor
    · rintro (rfl | ⟨-, hlat⟩)
      · exact absurd rfl hp
      · exact hlat
    · exact fun hlat => Or.inr ⟨hp, hlat⟩

/-! ## One source -/

/-- The time of the last of the packets. -/
def lastTime (qs : List FlowPkt) : UInt64 := (qs.getLast?.map FlowPkt.tsNs).getD 0

theorem lastTime_snoc (qs : List FlowPkt) (p : FlowPkt) : lastTime (qs ++ [p]) = p.tsNs := by
  simp [lastTime]

theorem le_lastTime {qs : List FlowPkt} (hin : InOrder (qs.map FlowPkt.tsNs)) :
    ∀ q ∈ qs, q.tsNs ≤ lastTime qs := by
  induction qs using List.reverseRecOn with
  | nil => exact fun q hq => absurd hq List.not_mem_nil
  | append_singleton qs p _ =>
    obtain ⟨-, hle, -⟩ := inOrder_snoc hin
    rw [lastTime_snoc]
    exact le_snoc hle

theorem lastTime_le {qs : List FlowPkt} {p : FlowPkt} (hle : ∀ q ∈ qs, q.tsNs ≤ p.tsNs) :
    lastTime qs ≤ p.tsNs := by
  rcases List.eq_nil_or_concat qs with rfl | ⟨qs', q, rfl⟩
  · exact UInt64.le_iff_toNat_le.mpr (Nat.zero_le _)
  · rw [List.concat_eq_append, lastTime_snoc]
    exact hle q (by simp)

@[simp] theorem live_judge (sc : ScanSrc) (p : FlowPkt) : (sc.judge p).1.live = sc.live := by
  unfold ScanSrc.judge
  split <;> rfl

theorem holdsWindow_judge {qs : List FlowPkt} {t : UInt64} {sc : ScanSrc} (h : HoldsWindow qs t sc)
    (p : FlowPkt) : HoldsWindow qs t (sc.judge p).1 :=
  ⟨by rw [live_judge]; exact h.once, fun e => by rw [live_judge]; exact h.mem_iff e⟩

/-- The table just before the final test. -/
def beforeJudge (sc : ScanSrc) (p : FlowPkt) : ScanSrc := (sc.expire p.tsNs).record p.dport p.tsNs

/-- One packet of a source, as long as the window is not larger than the table. -/
theorem holdsWindow_step {qs : List FlowPkt} {p : FlowPkt} {sc : ScanSrc}
    (h : HoldsWindow qs (lastTime qs) sc) (hin : InOrder ((qs ++ [p]).map FlowPkt.tsNs))
    (hcard : (portsIn p.tsNs (qs ++ [p])).card ≤ MAX_SCAN_PORTS) :
    HoldsWindow (qs ++ [p]) p.tsNs (beforeJudge sc p) := by
  obtain ⟨hpre, hle, -⟩ := inOrder_snoc hin
  have hexp := holdsWindow_expire h (le_lastTime hpre) (lastTime_le hle)
  refine holdsWindow_record hexp hle ?_
  -- a port that is not in the table is new in the window, so there is room for it
  by_cases hmem : p.dport ∈ (sc.expire p.tsNs).live.map Seen.port
  · exact Or.inl hmem
  · right
    have hports := holdsWindow_ports hexp hpre hle
    rw [holdsWindow_card hexp hpre hle]
    have hnew : p.dport ∉ portsIn p.tsNs qs := by
      rw [← hports, List.mem_toFinset]
      exact hmem
    have hins : insert p.dport (portsIn p.tsNs qs) ⊆ portsIn p.tsNs (qs ++ [p]) := by
      intro port hport
      rcases Finset.mem_insert.mp hport with rfl | hport
      · simp [portsIn, InSpan]
      · rw [portsIn, List.mem_toFinset, List.filter_append, List.map_append, List.mem_append]
        exact Or.inl (List.mem_toFinset.mp hport)
    have := Finset.card_le_card hins
    rw [Finset.card_insert_of_notMem hnew] at this
    omega

theorem portsIn_subset {t : UInt64} {qs rs : List FlowPkt} (h : qs.Sublist rs) :
    (portsIn t qs).card ≤ (portsIn t rs).card := by
  refine Finset.card_le_card fun port hport => ?_
  rw [portsIn, List.mem_toFinset] at hport ⊢
  exact ((h.filter _).map _).subset hport

/-- A source that is alone with its packets. -/
theorem holdsWindow_sourceAfter {qs : List FlowPkt} (hin : InOrder (qs.map FlowPkt.tsNs))
    (hcard : ∀ t, (portsIn t qs).card ≤ MAX_SCAN_PORTS) :
    HoldsWindow qs (lastTime qs) (sourceAfter qs) := by
  induction qs using List.reverseRecOn with
  | nil =>
    refine ⟨List.nodup_nil, fun e => ?_⟩
    simp [sourceAfter, ScanSrc.fresh, ScanSrc.live, IsLatest]
  | append_singleton qs p ih =>
    have hpre := ih (inOrder_snoc hin).1 fun t =>
      Nat.le_trans (portsIn_subset (List.sublist_append_left _ _)) (hcard t)
    rw [sourceAfter, exec_snoc, lastTime_snoc]
    exact holdsWindow_judge (holdsWindow_step hpre hin (hcard _)) p

/-- Its table when a further packet is about to be judged. -/
theorem holdsWindow_beforeJudge {qs : List FlowPkt} {p : FlowPkt}
    (hin : InOrder ((qs ++ [p]).map FlowPkt.tsNs))
    (hcard : ∀ t, (portsIn t (qs ++ [p])).card ≤ MAX_SCAN_PORTS) :
    HoldsWindow (qs ++ [p]) p.tsNs (beforeJudge (sourceAfter qs) p) := by
  refine holdsWindow_step (holdsWindow_sourceAfter (inOrder_snoc hin).1 fun t => ?_) hin (hcard _)
  exact Nat.le_trans (portsIn_subset (List.sublist_append_left _ _)) (hcard t)

/-! ## Alerts -/

@[simp] theorem lastAlertTs_beforeJudge (sc : ScanSrc) (p : FlowPkt) :
    (beforeJudge sc p).lastAlertTs = sc.lastAlertTs := by
  unfold beforeJudge ScanSrc.record
  split
  · rfl
  · split <;> rfl

/-- The final test and what it leaves. -/
theorem scanSource_eq (sc : ScanSrc) (p : FlowPkt) :
    (scanSource sc p).2 =
      (if SCAN_PORT_THRESH < (beforeJudge sc p).n ∧
          (sc.lastAlertTs = 0 ∨ SCAN_COOLDOWN_NS < p.tsNs - sc.lastAlertTs) then
        some (.portscan p.saddr (beforeJudge sc p).n 5) else none) ∧
    (scanSource sc p).1.lastAlertTs =
      if (scanSource sc p).2 ≠ none then p.tsNs else sc.lastAlertTs := by
  have hj : scanSource sc p = (beforeJudge sc p).judge p := rfl
  rw [hj, ScanSrc.judge, lastAlertTs_beforeJudge]
  simp only [Bool.and_eq_true, Bool.or_eq_true, decide_eq_true_eq]
  split
  · exact ⟨rfl, by simp⟩
  · exact ⟨rfl, by simp⟩

theorem flowRules_not_portscan (f : Flow) (p : FlowPkt) : portscans (flowRules f p).2 = [] := by
  have hb : ∀ a ∈ (ruleBeacon f p).2, a.isPortscan = false := by
    rcases ruleBeacon_cases f p with h | ⟨_, _, _, h⟩ <;> simp [h, Alert.isPortscan]
  have hs : ∀ g, ∀ a ∈ (ruleSuspiciousPort g p).2, a.isPortscan = false := by
    intro g
    rcases ruleSuspiciousPort_cases g p with h | ⟨_, h⟩ <;> simp [h, Alert.isPortscan]
  rw [portscans, List.filter_eq_nil_iff]
  intro a ha
  rw [Bool.not_eq_true]
  rcases List.mem_append.mp ha with ha | ha
  · exact hb a (by simpa using ha)
  · exact hs _ a (by simpa using ha)

/-- The port-scan alerts of a packet are those of its own source. -/
theorem portscans_eq (pre : List FlowPkt) (p : FlowPkt) :
    portscans (handleEvent (after pre) p).2 =
      if SourceTracked p.saddr (pre ++ [p]) then
        (scanSource (sourceAfter (ofSource p.saddr pre)) p).2.toList else [] := by
  rw [handleEvent_scan, portscans, List.filter_append]
  have hflow : List.filter Alert.isPortscan (flowStep (after pre).flows p).2 = [] := by
    rcases flowStep_alerts (after pre).flows p with h | ⟨f, h⟩
    · rw [h]
      rfl
    · rw [h]
      exact flowRules_not_portscan f p
  rw [hflow, List.nil_append]
  split
  · rw [(scanSource_eq _ p).1]
    split <;> rfl
  · rfl

theorem alertTimes_snoc (a : UInt32) (ps : List FlowPkt) (p : FlowPkt) :
    alertTimes a (ps ++ [p]) = alertTimes a ps ++
      if p.saddr = a ∧ portscans (handleEvent (after ps) p).2 ≠ [] then [p.tsNs] else [] := by
  unfold alertTimes
  rw [outs_snoc, List.zip_append (length_outs ps).symm, List.filter_append, List.map_append]
  refine congrArg _ ?_
  rw [List.zip_cons_cons, List.zip_nil_left, List.filter_cons, List.filter_nil]
  simp only [decide_eq_true_eq]
  exact apply_ite _ _ _ _

theorem alertTimes_eq_nil {a : UInt32} {ps : List FlowPkt} (h : a ∉ ps.map FlowPkt.saddr) :
    alertTimes a ps = [] := by
  unfold alertTimes
  rw [List.map_eq_nil_iff, List.filter_eq_nil_iff]
  rintro ⟨q, as⟩ hq hc
  have hqa := (of_decide_eq_true hc).1
  exact h (List.mem_map.mpr ⟨q, (List.of_mem_zip hq).1, hqa⟩)

theorem mem_alertTimes {a : UInt32} {ps : List FlowPkt} {t : UInt64} (h : t ∈ alertTimes a ps) :
    t ∈ ps.map FlowPkt.tsNs := by
  unfold alertTimes at h
  obtain ⟨⟨q, as⟩, hq, rfl⟩ := List.mem_map.mp h
  exact List.mem_map_of_mem (List.of_mem_zip (List.mem_filter.mp hq).1).1

/-- A source that is new at a packet has no packets and no alerts before it. -/
theorem lastAlertTs_before {a : UInt32} {ps : List FlowPkt} {p : FlowPkt}
    (h : SourceTracked a (ps ++ [p]))
    (hold : SourceTracked a ps →
      (sourceAfter (ofSource a ps)).lastAlertTs = (alertTimes a ps).getLast?.getD 0) :
    (sourceAfter (ofSource a ps)).lastAlertTs = (alertTimes a ps).getLast?.getD 0 := by
  by_cases hmem : a ∈ ps.map FlowPkt.saddr
  · unfold SourceTracked at h
    rw [List.map_append, List.map_singleton, mem_admitted_snoc_of_mem hmem] at h
    exact hold h
  · rw [ofSource, own_eq_nil hmem, alertTimes_eq_nil hmem]
    rfl

/-- The slot of a source remembers its last alert. -/
theorem lastAlertTs_eq {a : UInt32} {ps : List FlowPkt} (h : SourceTracked a ps) :
    (sourceAfter (ofSource a ps)).lastAlertTs = (alertTimes a ps).getLast?.getD 0 := by
  induction ps using List.reverseRecOn with
  | nil => simp [SourceTracked, admitted] at h
  | append_singleton ps p ih =>
    have hold := lastAlertTs_before h ih
    rw [alertTimes_snoc, ofSource, own_snoc]
    split
    · next ha =>
      subst ha
      rw [portscans_eq, if_pos h, sourceAfter, exec_snoc]
      have hlast := (scanSource_eq (sourceAfter (ofSource p.saddr ps)) p).2
      show (scanSource (sourceAfter (ofSource p.saddr ps)) p).1.lastAlertTs = _
      cases hout : (scanSource (sourceAfter (ofSource p.saddr ps)) p).2 with
      | none => simpa [hout, hold] using hlast
      | some al => simpa [hout] using hlast
    · next ha =>
      rw [if_neg (fun hc => ha hc.1), List.append_nil]
      exact hold

/-- The test of the cooldown against the time of the previous alert. -/
theorem cooldown_iff {now : UInt64} {last : Option UInt64} (hpos : ∀ t ∈ last, 0 < t)
    (hle : ∀ t ∈ last, t ≤ now) :
    (last.getD 0 = 0 ∨ SCAN_COOLDOWN_NS < now - last.getD 0) ↔
      ∀ t ∈ last, t.toNat + 10 * 10 ^ 9 < now.toNat := by
  cases last with
  | none => simp
  | some t =>
    have hne : t ≠ 0 := Ne.symm (UInt64.ne_of_lt (hpos t rfl))
    have hsub := UInt64.toNat_sub_of_le now t (hle t rfl)
    have hcool : SCAN_COOLDOWN_NS.toNat = 10 * 10 ^ 9 := by decide
    simp only [Option.getD_some, hne, false_or, UInt64.lt_iff_toNat_lt, hsub, hcool,
      Option.mem_def, Option.some.injEq, forall_eq']
    omega

/-- The same at a packet of a run. -/
theorem cooldown_at {pre : List FlowPkt} {p : FlowPkt} {a : UInt32}
    (hin : InOrder ((pre ++ [p]).map FlowPkt.tsNs)) :
    ((alertTimes a pre).getLast?.getD 0 = 0 ∨
        SCAN_COOLDOWN_NS < p.tsNs - (alertTimes a pre).getLast?.getD 0) ↔
      ∀ t ∈ (alertTimes a pre).getLast?, t.toNat + 10 * 10 ^ 9 < p.tsNs.toNat := by
  obtain ⟨hpre, hle, -⟩ := inOrder_snoc hin
  have hmem : ∀ t ∈ (alertTimes a pre).getLast?, t ∈ pre.map FlowPkt.tsNs := fun t ht =>
    mem_alertTimes (List.mem_of_getLast? ht)
  refine cooldown_iff (fun t ht => hpre.pos t (hmem t ht)) fun t ht => ?_
  obtain ⟨q, hq, rfl⟩ := List.mem_map.mp (hmem t ht)
  exact hle q hq

theorem ofSource_snoc (pre : List FlowPkt) (p : FlowPkt) :
    ofSource p.saddr (pre ++ [p]) = ofSource p.saddr pre ++ [p] := by
  rw [ofSource, own_snoc, if_pos rfl]
  rfl

/-- The hypotheses of a run, for the packets of one source up to a packet. -/
theorem source_hyps {ps pre post : List FlowPkt} {p : FlowPkt}
    (hin : InOrder (ps.map FlowPkt.tsNs)) (hports : ∀ a t, (portsIn t (ofSource a ps)).card ≤ 256)
    (he : ps = pre ++ p :: post) :
    InOrder ((ofSource p.saddr pre ++ [p]).map FlowPkt.tsNs) ∧
    ∀ t, (portsIn t (ofSource p.saddr pre ++ [p])).card ≤ MAX_SCAN_PORTS := by
  have hsub := sublist_of_split he
  rw [← ofSource_snoc]
  exact ⟨hin.sublist ((List.filter_sublist.trans hsub).map _), fun t =>
    Nat.le_trans (portsIn_subset (hsub.filter _)) (hports p.saddr t)⟩

end PortscanLemmas

open PortscanLemmas

/-! ## 1. The rule refines the sliding window -/

/-- For packets with positive, nondecreasing timestamps in which no source hits
more than 256 ports in any five seconds: after each packet of a source among the
first `MAX_SCAN_SRC`, its table is its sliding window, and the packet raises a
port-scan alert if and only if one is due. Other sources raise none. -/
theorem portscan_refines_window {ps : List FlowPkt} (hin : InOrder (ps.map FlowPkt.tsNs))
    (hports : ∀ a t, (portsIn t (ofSource a ps)).card ≤ 256) :
    Along (fun pre p =>
      (SourceTracked p.saddr (pre ++ [p]) →
        ∃ sc, (after (pre ++ [p])).scans.lookup p.saddr = some sc ∧
          HoldsWindow (ofSource p.saddr (pre ++ [p])) p.tsNs sc) ∧
      portscans (handleEvent (after pre) p).2 =
        if SourceTracked p.saddr (pre ++ [p]) ∧ ScanDue p.saddr pre p then
          [.portscan p.saddr (portsIn p.tsNs (ofSource p.saddr (pre ++ [p]))).card 5]
        else []) ps := by
  intro pre p post he
  have hinAll := hin.sublist ((sublist_of_split he).map FlowPkt.tsNs)
  obtain ⟨hinOwn, hcard⟩ := source_hyps hin hports he
  have hwin := holdsWindow_beforeJudge hinOwn hcard
  rw [ofSource_snoc]
  refine ⟨fun ht => ⟨_, by rw [lookup_scans, if_pos ht], ?_⟩, ?_⟩
  · rw [ofSource_snoc, sourceAfter, exec_snoc]
    exact holdsWindow_judge hwin p
  · have hn := holdsWindow_card hwin hinOwn (le_snoc (inOrder_snoc hinOwn).2.1)
    rw [portscans_eq]
    by_cases ht : SourceTracked p.saddr (pre ++ [p])
    · rw [if_pos ht, (scanSource_eq _ p).1, lastAlertTs_before ht lastAlertTs_eq]
      simp only [cooldown_at hinAll, hn, ScanDue, ht, true_and, ofSource_snoc, SCAN_PORT_THRESH]
      split <;> rfl
    · rw [if_neg ht, if_neg (fun hc => ht hc.1)]

/-- A probe of one port, `i` milliseconds after the first. -/
def exProbe (i : Nat) : FlowPkt :=
  ⟨1 + 1000000 * UInt64.ofNat i, 0x0100007f, 0x0200007f, 40000, 9000 + UInt16.ofNat i, 60, 6⟩

/-- Twenty-one ports in twenty milliseconds: the last probe raises the alert,
and the table is the window. -/
theorem exProbe_alerts :
    portscans (handleEvent (after ((List.range 20).map exProbe)) (exProbe 20)).2 =
      [.portscan 0x0100007f 21 5] ∧
    ∃ sc, (after ((List.range 20).map exProbe ++ [exProbe 20])).scans.lookup 0x0100007f = some sc ∧
      HoldsWindow (ofSource 0x0100007f ((List.range 20).map exProbe ++ [exProbe 20]))
        (exProbe 20).tsNs sc := by
  have hin : InOrder (((List.range 20).map exProbe ++ [exProbe 20]).map FlowPkt.tsNs) := by
    decide +kernel
  have hports : ∀ a t, (portsIn t (ofSource a ((List.range 20).map exProbe ++ [exProbe 20]))).card
      ≤ 256 := by
    intro a t
    refine Nat.le_trans (List.toFinset_card_le _) ?_
    rw [List.length_map]
    refine Nat.le_trans (List.length_filter_le _ _) (Nat.le_trans (List.length_filter_le _ _) ?_)
    decide
  have h := portscan_refines_window hin hports _ (exProbe 20) [] rfl
  exact ⟨by decide +kernel, h.1 (by decide +kernel)⟩

end Ebpf101.Ids
