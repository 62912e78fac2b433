import Ebpf101.Nettop.Attribution
import Ebpf101.Lib.Lru
import Mathlib.Data.List.ReduceOption

/-!
# nettop: who takes the slots of `sock_owner`

`sock_owner` is an `LRU_HASH` of `MAX_SOCKS` entries, read by `handle_tcp_retransmit` only.
`account` returns before the update for sockets of other families, lest they burn slots
"on sockets that can never retransmit, evicting the TCP sockets that can". The UDP hooks call
the same `account`, and UDP sockets are of the families it lets through.

`Slots` is the kernel side with the order in which the entries were used; what is evicted, and
when, follows from that order. `run_firings` says that a run of it is one of `Kernel.fire` in
which the evictions are spelled out.

Results:
1. `owner_slots_iff`: only TCP sockets have an entry, and the UDP hooks make no difference to
   the owners and the retransmits attributed, if and only if every UDP hook returns before
   the update.
2. `evicted_by_others`: traffic on `MAX_SOCKS` other sockets, of either kind, evicts an owner.
   `udp_evicts_owner`: a retransmit that is lost that way.
-/

namespace Ebpf101.Nettop.OwnerSlots

open Runs

/-- `MAX_SOCKS`, the size of `sock_owner`. -/
def MAX_SOCKS : Nat := 10240

/-! ## Hooks -/

/-- A hook fires. The map evicts of its own accord, so there is no event for that. -/
inductive Hook where
  | probe (p : Probe) (cur : Task) (sk : Sock) (env : HookEnv)
  | retransmit (sk : SkAddr)
  | close (sk : SkAddr)
deriving DecidableEq

def Hook.firing : Hook → Firing
  | .probe p cur sk env => .probe p cur sk env
  | .retransmit sk => .retransmit sk
  | .close sk => .close sk

/-- The probe comes to the update of `sock_owner`. -/
def registers (p : Probe) (cur : Task) (sk : Sock) : Bool :=
  p.amount.isSome && cur.pid ≠ 0 && (sk.family = AF_INET || sk.family = AF_INET6)

/-- The address that the hook registers. -/
def Hook.registered : Hook → Option SkAddr
  | .probe p cur sk _ => if registers p cur sk then some sk.addr else none
  | _ => none

def Probe.isUdp : Probe → Bool
  | .udpSendmsg _ | .udpv6Sendmsg _ | .skbConsumeUdp _ => true
  | .tcpSendmsg _ | .tcpCleanupRbuf _ => false

def Hook.isUdp : Hook → Bool
  | .probe p _ _ _ => Probe.isUdp p
  | _ => false

/-! ## The kernel side with an LRU map -/

def evictAll (k : Kernel) (sks : List SkAddr) : Kernel :=
  sks.foldl (fun k sk => k.fire (.evict sk)) k

namespace OwnerSlotsLemmas

open Sockets.AttributionLemmas PollerLemmas

theorem registers_eq_false_iff {p : Probe} {cur : Task} {sk : Sock} :
    registers p cur sk = false ↔
      p.amount = none ∨ cur.pid = 0 ∨ sk.family ≠ AF_INET ∧ sk.family ≠ AF_INET6 := by
  simp only [registers, Bool.and_eq_false_iff, Bool.or_eq_false_iff, decide_eq_false_iff_not,
    not_not, Option.isSome_eq_false_iff, Option.isNone_iff_eq_none, or_assoc]

theorem owner_evictAll (k : Kernel) (sks : List SkAddr) (sk : SkAddr) :
    (evictAll k sks).sockOwner.lookupElem sk =
      if sk ∈ sks then none else k.sockOwner.lookupElem sk := by
  induction sks using List.reverseRecOn with
  | nil => rfl
  | append_singleton sks a ih =>
    rw [evictAll, List.foldl_concat]
    show ((evictAll k sks).sockOwner.deleteElem a).lookupElem sk = _
    rw [BpfMap.lookupElem_deleteElem, ih]
    rcases eq_or_ne sk a with rfl | hne
    · simp
    · simp [hne]

theorem owner_probe (k : Kernel) (p : Probe) (cur : Task) (s : Sock) (env : HookEnv) (sk : SkAddr) :
    (k.fire (.probe p cur s env)).sockOwner.lookupElem sk =
      if registers p cur s = true ∧ sk = s.addr then some cur.pid
      else k.sockOwner.lookupElem sk := by
  have hacc : Sockets.SockEvent.accounts sk (.run (.fire (.probe p cur s env))) =
      if registers p cur s = true ∧ sk = s.addr then some cur.pid else none := by
    refine if_congr ?_ rfl rfl
    simp only [registers, Bool.and_eq_true, Bool.or_eq_true, decide_eq_true_eq]
    tauto
  rw [owner_fire, hacc]
  simp only [Sockets.SockEvent.closes, Bool.false_eq_true, reduceCtorEq, or_self, if_false]
  split <;> rfl

/-- A probe that does not come to the update changes nothing at all. -/
theorem fire_of_not_registers {p : Probe} {cur : Task} {sk : Sock}
    (h : registers p cur sk = false) (k : Kernel) (env : HookEnv) :
    k.fire (.probe p cur sk env) = k := by
  simp only [Kernel.fire, runProbe_eq]
  rcases registers_eq_false_iff.mp h with hnone | hz | hfam
  · rw [hnone]
  · cases p.amount with
    | none => rfl
    | some a => exact if_pos hz
  · cases p.amount with
    | none => rfl
    | some a =>
      simp only [account]
      rw [if_pos hfam, ite_self]

section Held

variable {k : Kernel} {recent : Lru SkAddr MAX_SOCKS}
  (held : ∀ sk, sk ∈ k.sockOwner.keys ↔ sk ∈ recent.keys)

include held

theorem held_probe {p : Probe} {cur : Task} {s : Sock} (h : registers p cur s = true)
    (env : HookEnv) (sk : SkAddr) :
    sk ∈ ((evictAll k (recent.evicted s.addr)).fire (.probe p cur s env)).sockOwner.keys ↔
      sk ∈ (recent.use s.addr).keys := by
  rw [recent.mem_use_iff (by decide), BpfMap.mem_keys_iff, owner_probe, owner_evictAll]
  rcases eq_or_ne sk s.addr with rfl | hne
  · simp [h]
  · simp only [hne, and_false, if_false, false_or]
    rw [← held, BpfMap.mem_keys_iff]
    split
    · next hout => simp [hout]
    · next hout => simp [hout]

theorem held_retransmit (sk x : SkAddr) :
    x ∈ (k.fire (.retransmit sk)).sockOwner.keys ↔
      x ∈ (if sk ∈ recent.keys then recent.use sk else recent).keys := by
  have hsame : (k.fire (.retransmit sk)).sockOwner = k.sockOwner := by
    simp only [Kernel.fire, handleTcpRetransmit]
    split <;> rfl
  rw [hsame, held]
  split
  · next hin => exact (Lru.mem_use_of_mem hin x).symm
  · exact Iff.rfl

theorem held_close (sk x : SkAddr) :
    x ∈ (k.fire (.close sk)).sockOwner.keys ↔ x ∈ (recent.drop sk).keys := by
  rw [Lru.mem_drop_iff, ← held, BpfMap.mem_keys_iff, BpfMap.mem_keys_iff]
  show ((k.sockOwner.deleteElem sk).lookupElem x).isSome = true ↔ _
  rw [BpfMap.lookupElem_deleteElem]
  split
  · next hx => simp [hx]
  · next hx => simp [hx]

end Held

end OwnerSlotsLemmas

open OwnerSlotsLemmas

/-- The maps, and the keys of `sock_owner` in the order of their last use. -/
structure Slots where
  kernel : Kernel
  recent : Lru SkAddr MAX_SOCKS
  held : ∀ sk, sk ∈ kernel.sockOwner.keys ↔ sk ∈ recent.keys

def Slots.init : Slots := ⟨Kernel.empty, Lru.empty, fun _ => Iff.rfl⟩

/-- An update uses its entry, and makes room for it first. -/
def Slots.probe (s : Slots) (p : Probe) (cur : Task) (sk : Sock) (env : HookEnv) : Slots :=
  if h : registers p cur sk = true then
    { kernel := (evictAll s.kernel (s.recent.evicted sk.addr)).fire (.probe p cur sk env)
      recent := s.recent.use sk.addr
      held := held_probe s.held h env }
  else
    { kernel := s.kernel.fire (.probe p cur sk env)
      recent := s.recent
      held := by rw [fire_of_not_registers (Bool.not_eq_true _ ▸ h)]; exact s.held }

/-- A lookup that finds an entry uses it. -/
def Slots.retransmit (s : Slots) (sk : SkAddr) : Slots where
  kernel := s.kernel.fire (.retransmit sk)
  recent := if sk ∈ s.recent.keys then s.recent.use sk else s.recent
  held := held_retransmit s.held sk

def Slots.close (s : Slots) (sk : SkAddr) : Slots where
  kernel := s.kernel.fire (.close sk)
  recent := s.recent.drop sk
  held := held_close s.held sk

/-- A retransmit yields the pid it is attributed to, if there is one. -/
def step (s : Slots) : Hook → Slots × Option Pid
  | .probe p cur sk env => (s.probe p cur sk env, none)
  | .retransmit sk => (s.retransmit sk, (charge s.kernel (.retransmit sk)).map Prod.fst)
  | .close sk => (s.close sk, none)

def after (hooks : List Hook) : Slots := exec step Slots.init hooks

/-- The pids to which the retransmits of a run are attributed, in order. -/
def attributed (hooks : List Hook) : List Pid := (outs step Slots.init hooks).reduceOption

/-- The owner on record for a socket. -/
def owner (hooks : List Hook) (sk : SkAddr) : Option Pid :=
  (after hooks).kernel.sockOwner.lookupElem sk

/-! ## Statements -/

/-- The same run without UDP traffic. -/
def withoutUdp (hooks : List Hook) : List Hook := hooks.filter fun h => !h.isUdp

/-- The TCP hooks fire on TCP sockets and the UDP hooks on others. -/
def Hook.On (tcp : SkAddr → Bool) : Hook → Prop
  | .probe p _ sk _ => tcp sk.addr = !Probe.isUdp p
  | _ => True

/-- After the step every entry is of a TCP socket, and the owners of TCP sockets and the
retransmits attributed are what they are without UDP traffic. -/
def TcpOnlyAt (tcp : SkAddr → Bool) (pre : List Hook) (h : Hook) : Prop :=
  (∀ sk ∈ (after (pre ++ [h])).kernel.sockOwner.keys, tcp sk = true) ∧
  (∀ sk, tcp sk = true → owner (pre ++ [h]) sk = owner (withoutUdp (pre ++ [h])) sk) ∧
  attributed (pre ++ [h]) = attributed (withoutUdp (pre ++ [h]))

/-- A UDP hook returns before the update: on a receive of no bytes, for pid 0, or for another
family. -/
def Hook.UdpReturns : Hook → Prop
  | .probe p cur sk _ => Probe.isUdp p = true →
      p.amount = none ∨ cur.pid = 0 ∨ sk.family ≠ AF_INET ∧ sk.family ≠ AF_INET6
  | _ => True

def isEvict : Firing → Bool
  | .evict _ => true
  | _ => false

namespace OwnerSlotsLemmas

theorem after_snoc (hooks : List Hook) (h : Hook) :
    after (hooks ++ [h]) = (step (after hooks) h).1 := by
  simp [after]

theorem attributed_snoc (hooks : List Hook) (h : Hook) :
    attributed (hooks ++ [h]) = attributed hooks ++ (step (after hooks) h).2.toList := by
  rw [attributed, outs_snoc, List.reduceOption_append]
  rfl

/-! ## Evictions as firings -/

theorem kernel_step (s : Slots) (h : Hook) :
    ∃ sks : List SkAddr,
      (step s h).1.kernel = (sks.map Firing.evict ++ [h.firing]).foldl Kernel.fire s.kernel := by
  cases h with
  | probe p cur sk env =>
    cases hreg : registers p cur sk with
    | true =>
      refine ⟨s.recent.evicted sk.addr, ?_⟩
      rw [step, Slots.probe, dif_pos hreg, List.foldl_concat, List.foldl_map]
      rfl
    | false =>
      refine ⟨[], ?_⟩
      rw [step, Slots.probe, dif_neg (by simp [hreg])]
      rfl
  | retransmit sk => exact ⟨[], rfl⟩
  | close sk => exact ⟨[], rfl⟩

theorem filter_evict (sks : List SkAddr) :
    (sks.map Firing.evict).filter (fun f => !isEvict f) = [] := by
  rw [List.filter_eq_nil_iff]
  intro f hf
  obtain ⟨sk, -, rfl⟩ := List.mem_map.mp hf
  simp [isEvict]

/-! ## A run without UDP traffic -/

theorem probe_of_not_registers {p : Probe} {cur : Task} {sk : Sock}
    (h : registers p cur sk = false) (s : Slots) (env : HookEnv) : s.probe p cur sk env = s := by
  have hneg : ¬ registers p cur sk = true := by simp [h]
  rw [Slots.probe, dif_neg hneg]
  cases s
  simp only [fire_of_not_registers h]

theorem step_of_udpReturns {h : Hook} (hudp : h.isUdp = true) (hret : h.UdpReturns) (s : Slots) :
    step s h = (s, none) := by
  cases h with
  | probe p cur sk env =>
    rw [step, probe_of_not_registers (registers_eq_false_iff.mpr (hret hudp))]
  | retransmit sk => cases hudp
  | close sk => cases hudp

/-- If the UDP hooks return early, the run without them is the same. -/
theorem withoutUdp_same {hooks : List Hook} (hret : ∀ h ∈ hooks, h.UdpReturns) :
    after (withoutUdp hooks) = after hooks ∧ attributed (withoutUdp hooks) = attributed hooks := by
  induction hooks using List.reverseRecOn with
  | nil => exact ⟨rfl, rfl⟩
  | append_singleton hooks h ih =>
    obtain ⟨hst, hatt⟩ := ih fun h' hm => hret h' (List.mem_append_left _ hm)
    rw [after_snoc, attributed_snoc, withoutUdp, List.filter_append]
    cases hudp : h.isUdp with
    | true =>
      rw [List.filter_cons_of_neg (by simp [hudp]), List.filter_nil, List.append_nil,
        step_of_udpReturns hudp (hret h (by simp))]
      exact ⟨hst, hatt.trans (List.append_nil _).symm⟩
    | false =>
      rw [List.filter_cons_of_pos (by simp [hudp]), List.filter_nil, ← withoutUdp, after_snoc,
        attributed_snoc, hst, hatt]
      exact ⟨rfl, rfl⟩

/-! ## The keys -/

theorem registered_eq_some_iff {h : Hook} {sk : SkAddr} :
    h.registered = some sk ↔
      ∃ p cur a env, h = .probe p cur a env ∧ registers p cur a = true ∧ a.addr = sk := by
  cases h with
  | probe p cur a env => simp [Hook.registered]
  | retransmit a => simp [Hook.registered]
  | close a => simp [Hook.registered]

/-- A hook that registers a socket uses its entry, and attributes nothing. -/
theorem step_registered {h : Hook} {sk : SkAddr} (hreg : h.registered = some sk) (s : Slots) :
    (step s h).1.recent = s.recent.use sk ∧ (step s h).2 = none := by
  obtain ⟨p, cur, a, env, rfl, hr, rfl⟩ := registered_eq_some_iff.mp hreg
  rw [step, Slots.probe, dif_pos hr]
  exact ⟨rfl, rfl⟩

/-- A step adds no key but the one it registers. -/
theorem mem_keys_step {s : Slots} {h : Hook} {sk : SkAddr}
    (hk : sk ∈ (step s h).1.kernel.sockOwner.keys) :
    sk ∈ s.kernel.sockOwner.keys ∨ h.registered = some sk := by
  rw [Slots.held] at hk
  rw [s.held]
  cases h with
  | probe p cur a env =>
    cases hreg : registers p cur a with
    | true =>
      have hown : (Hook.probe p cur a env).registered = some a.addr := by
        simp [Hook.registered, hreg]
      rw [(step_registered hown s).1] at hk
      rcases Lru.mem_of_mem_use hk with rfl | hold
      · exact Or.inr hown
      · exact Or.inl hold
    | false =>
      rw [step, probe_of_not_registers hreg] at hk
      exact Or.inl hk
  | retransmit a =>
    simp only [step, Slots.retransmit] at hk
    split at hk
    · next hin => exact Or.inl ((Lru.mem_use_of_mem hin sk).mp hk)
    · exact Or.inl hk
  | close a => exact Or.inl ((Lru.mem_drop_iff _ _ _).mp hk).2

/-- A registered key is there after the step. -/
theorem mem_keys_of_registered {s : Slots} {h : Hook} {sk : SkAddr}
    (hreg : h.registered = some sk) :
    sk ∈ (step s h).1.kernel.sockOwner.keys := by
  rw [Slots.held, (step_registered hreg s).1]
  exact Lru.mem_use _ (by decide) _

/-- A hook that fires where it should and, if it is a UDP hook, returns early registers TCP
sockets only. -/
theorem tcp_of_registered {tcp : SkAddr → Bool} {h : Hook} (hon : h.On tcp) (hret : h.UdpReturns)
    {sk : SkAddr} (hreg : h.registered = some sk) : tcp sk = true := by
  obtain ⟨p, cur, a, env, rfl, hr, rfl⟩ := registered_eq_some_iff.mp hreg
  cases hudp : Probe.isUdp p with
  | true =>
    rw [registers_eq_false_iff.mpr (hret hudp)] at hr
    cases hr
  | false => exact Eq.trans hon (by rw [hudp]; rfl)

theorem keys_tcp {tcp : SkAddr → Bool} {hooks : List Hook} (hon : ∀ h ∈ hooks, h.On tcp)
    (hret : ∀ h ∈ hooks, h.UdpReturns) :
    ∀ sk ∈ (after hooks).kernel.sockOwner.keys, tcp sk = true := by
  induction hooks using List.reverseRecOn with
  | nil => exact fun _ hsk => nomatch hsk
  | append_singleton hooks h ih =>
    intro sk hsk
    rw [after_snoc] at hsk
    rcases mem_keys_step hsk with hold | hreg
    · exact ih (fun h' hm => hon h' (List.mem_append_left _ hm))
        (fun h' hm => hret h' (List.mem_append_left _ hm)) sk hold
    · exact tcp_of_registered (hon h (by simp)) (hret h (by simp)) hreg

end OwnerSlotsLemmas

/-- A run is one of `Kernel.fire` in which entries are evicted now and then. -/
theorem run_firings (hooks : List Hook) :
    ∃ fs : List Firing, fs.filter (fun f => !isEvict f) = hooks.map Hook.firing ∧
      (after hooks).kernel = fs.foldl Kernel.fire Kernel.empty := by
  induction hooks using List.reverseRecOn with
  | nil => exact ⟨[], rfl, rfl⟩
  | append_singleton hooks h ih =>
    obtain ⟨fs, hfs, hk⟩ := ih
    obtain ⟨sks, hstep⟩ := kernel_step (after hooks) h
    refine ⟨fs ++ (sks.map Firing.evict ++ [h.firing]), ?_, ?_⟩
    · rw [List.filter_append, List.filter_append, filter_evict, hfs, List.map_append,
        List.nil_append]
      cases h <;> rfl
    · rw [after_snoc, hstep, hk]
      exact List.foldl_append.symm

/-! ## 1. When only TCP sockets have a slot -/

/-- For every run, over any sockets and pids, in which the hooks fire on sockets of their own
protocol. -/
theorem owner_slots_iff {tcp : SkAddr → Bool} {hooks : List Hook} (hon : ∀ h ∈ hooks, h.On tcp) :
    Along (TcpOnlyAt tcp) hooks ↔ ∀ h ∈ hooks, h.UdpReturns := by
  constructor
  · intro hall h hh
    obtain ⟨pre, post, rfl⟩ := List.append_of_mem hh
    have hkeys := (hall pre h post rfl).1
    cases h with
    | probe p cur sk env =>
      intro hudp
      rw [← registers_eq_false_iff]
      by_contra hreg
      have hmem : sk.addr ∈ (after (pre ++ [.probe p cur sk env])).kernel.sockOwner.keys := by
        rw [after_snoc]
        exact mem_keys_of_registered (by simp [Hook.registered, hreg])
      have htcp : tcp sk.addr = !Probe.isUdp p := hon _ hh
      rw [hkeys _ hmem, hudp] at htcp
      cases htcp
    | retransmit sk => trivial
    | close sk => trivial
  · intro hret pre h post he
    have hsub : ∀ h' ∈ pre ++ [h], h' ∈ hooks := by
      intro h' hm
      rw [he, List.append_cons]
      exact List.mem_append_left _ hm
    have hret' : ∀ h' ∈ pre ++ [h], h'.UdpReturns := fun h' hm => hret h' (hsub h' hm)
    obtain ⟨hst, hatt⟩ := withoutUdp_same hret'
    refine ⟨keys_tcp (fun h' hm => hon h' (hsub h' hm)) hret', fun sk _ => ?_, hatt.symm⟩
    rw [owner, owner, hst]

def exSender : Task := ⟨7, Comm.ofBytes [110, 99]⟩

/-- The TCP socket of the examples is at address 0. -/
def exIsTcp (sk : SkAddr) : Bool := sk = 0

def exTcp : Hook := .probe (.tcpSendmsg 100) exSender ⟨0, AF_INET⟩ ⟨1, 0, 0⟩

/-- A datagram sent from a socket at address `sk`. -/
def exUdp (sk : SkAddr) : Hook := .probe (.udpSendmsg 1) exSender ⟨sk, AF_INET⟩ ⟨1, 0, 0⟩

/-- A kernel thread sends a datagram. -/
def exKernelUdp : Hook := .probe (.udpSendmsg 1) ⟨0, Comm.ofBytes [107]⟩ ⟨1, AF_INET⟩ ⟨1, 0, 0⟩

theorem exKernelUdp_no_slot :
    attributed [exTcp, exKernelUdp, .retransmit 0] = [7] ∧
    Along (TcpOnlyAt exIsTcp) [exTcp, exKernelUdp, .retransmit 0] :=
  ⟨by decide +kernel,
    (owner_slots_iff (by simp [exTcp, exKernelUdp, Hook.On, Probe.isUdp, exIsTcp])).mpr
      (by simp [exTcp, exKernelUdp, Hook.UdpReturns, Probe.isUdp])⟩

/-! ## 2. Eviction -/

namespace OwnerSlotsLemmas

/-- Hooks that register the sockets `sks`: each uses its entry, and nothing is attributed. -/
theorem run_registered (pre : List Hook) {hooks : List Hook} {sks : List SkAddr}
    (h : hooks.map Hook.registered = sks.map some) :
    (after (pre ++ hooks)).recent = (after pre).recent.uses sks ∧
    attributed (pre ++ hooks) = attributed pre := by
  induction hooks using List.reverseRecOn generalizing sks with
  | nil =>
    cases List.map_eq_nil_iff.mp h.symm
    rw [List.append_nil]
    exact ⟨rfl, rfl⟩
  | append_singleton hooks a ih =>
    rcases List.eq_nil_or_concat sks with rfl | ⟨sks, sk, rfl⟩
    · simp at h
    · rw [List.concat_eq_append, List.map_append, List.map_append] at h
      obtain ⟨hinit, hlast⟩ := List.append_inj' h rfl
      obtain ⟨hrec, hatt⟩ := ih hinit
      obtain ⟨huse, hout⟩ := step_registered (List.cons.inj hlast).1 (after (pre ++ hooks))
      rw [← List.append_assoc, after_snoc, attributed_snoc, huse, hout, hrec, hatt,
        List.concat_eq_append, Lru.uses, Lru.uses, List.foldl_concat]
      exact ⟨rfl, List.append_nil _⟩

theorem owner_eq_none_iff {hooks : List Hook} {sk : SkAddr} :
    owner hooks sk = none ↔ sk ∉ (after hooks).recent.keys := by
  rw [owner, BpfMap.lookupElem_eq_none_iff, Slots.held]

end OwnerSlotsLemmas

/-- After hooks on `MAX_SOCKS` other sockets a socket has no owner on record, whatever
happened before. -/
theorem evicted_by_others (pre : List Hook) {hooks : List Hook} {sks : List SkAddr}
    (h : hooks.map Hook.registered = sks.map some) (hnd : sks.Nodup) (hlen : MAX_SOCKS ≤ sks.length)
    {sk : SkAddr} (hsk : sk ∉ sks) : owner (pre ++ hooks) sk = none := by
  rw [owner_eq_none_iff, (run_registered pre h).1]
  exact Lru.notMem_uses _ hnd hlen hsk

/-- A TCP socket sends, others have their turn, and the TCP socket retransmits. -/
def exRun (others : List Hook) : List Hook := [exTcp] ++ others ++ [.retransmit 0]

namespace OwnerSlotsLemmas

theorem exRun_lost {others : List Hook} {sks : List SkAddr}
    (h : others.map Hook.registered = sks.map some) (hnd : sks.Nodup)
    (hlen : MAX_SOCKS ≤ sks.length) (hsk : 0 ∉ sks) : attributed (exRun others) = [] := by
  have hnone : (after ([exTcp] ++ others)).kernel.sockOwner.lookupElem 0 = none :=
    evicted_by_others [exTcp] h hnd hlen hsk
  rw [exRun, attributed_snoc, (run_registered [exTcp] h).2]
  simp only [step, charge, hnone]
  decide +kernel

theorem exRun_kept {others : List Hook} (h : ∀ a ∈ others, a.isUdp = true) :
    attributed (withoutUdp (exRun others)) = [7] := by
  have hnil : others.filter (fun h => !h.isUdp) = [] :=
    List.filter_eq_nil_iff.mpr fun a ha => by simp [h a ha]
  rw [withoutUdp, exRun, List.filter_append, List.filter_append, hnil]
  decide +kernel

end OwnerSlotsLemmas

/-- The addresses of `MAX_SOCKS` other sockets. -/
def exOthers : List SkAddr := List.range' 1 MAX_SOCKS

theorem udp_evicts_owner :
    (after [exUdp 1]).kernel.sockOwner.keys = [1] ∧
    (∀ h ∈ exRun (exOthers.map exUdp), h.On exIsTcp) ∧
    attributed (withoutUdp (exRun (exOthers.map exUdp))) = [7] ∧
    attributed (exRun (exOthers.map exUdp)) = [] ∧
    ¬ Along (TcpOnlyAt exIsTcp) (exRun (exOthers.map exUdp)) := by
  have hother : 0 ∉ exOthers := by simp [exOthers]
  have hreg : (exOthers.map exUdp).map Hook.registered = exOthers.map some := by
    rw [List.map_map]
    exact List.map_congr_left fun sk _ => rfl
  have hlost := exRun_lost hreg List.nodup_range' (by simp [exOthers]) hother
  have hkept : attributed (withoutUdp (exRun (exOthers.map exUdp))) = [7] := by
    refine exRun_kept fun a ha => ?_
    obtain ⟨sk, -, rfl⟩ := List.mem_map.mp ha
    rfl
  refine ⟨by decide +kernel, ?_, hkept, hlost, fun hall => ?_⟩
  · intro h hh
    simp only [exRun, List.mem_append, List.mem_singleton, List.mem_map] at hh
    rcases hh with (rfl | ⟨sk, hsk, rfl⟩) | rfl
    · rfl
    · exact decide_eq_false fun hzero => hother (hzero ▸ hsk)
    · trivial
  · have hlast := hall.last.2.2
    rw [← exRun, hkept, hlost] at hlast
    cases hlast

end Ebpf101.Nettop.OwnerSlots
