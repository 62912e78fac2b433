import Ebpf101.Tcp.Tcpstates

/-!
# Spans and lifetimes of tcpstates

`timestamps` is one LRU map for all sockets, keyed by an address that the kernel
uses again after `TCP_CLOSE`, and the map may drop an entry at any time. A stamp
is written or deleted before the record is reserved, so a full ring loses the
event and nothing else.

Results:
1. `spans_within_lifetime`: a span always runs from the transition just before in
   the same lifetime, and an event without a span is the first of its lifetime
   unless the stamp was evicted.
-/

namespace Ebpf101.Tcp.Tcpstates

open Runs

/-! ## Runs with evictions -/

/-- A transition, or `timestamps` dropping an entry. -/
inductive Input where
  | transition (t : Transition)
  | evict (sk : SkAddr)
deriving DecidableEq

def step (m : BpfMap SkAddr Nat) : Input → BpfMap SkAddr Nat × Option Event
  | .transition t => handleSetState m t
  | .evict sk => (m.deleteElem sk, none)

/-- `timestamps` after a run that starts when the tool is attached. -/
def stamps (is : List Input) : BpfMap SkAddr Nat := exec step BpfMap.empty is

/-- The transitions of a run. -/
def transitions (is : List Input) : List Transition :=
  is.filterMap fun
    | .transition t => some t
    | .evict _ => none

/-- What a transition makes of the present lifetime of `sk`. -/
def observe (sk : SkAddr) (life : List Transition) (t : Transition) : List Transition :=
  if t.sk = sk ∧ isInet t.sock.family = true then
    if t.state = .close then [] else life ++ [t]
  else life

/-- The present lifetime of the socket at `sk`: its transitions since its last close,
whether or not their events were dropped. -/
def lifetime (sk : SkAddr) (is : List Input) : List Transition :=
  (transitions is).foldl (observe sk) []

/-! ## Statements -/

/-- An event with a span has a transition before it in its lifetime, and measures
the time since the last one. -/
def SpanAt (pre : List Input) : Input → Prop
  | .transition t => ∀ e, (step (stamps pre) (.transition t)).2 = some e → e.hasSpan = true →
      ∃ u, (lifetime t.sk pre).getLast? = some u ∧ e.spanUs = (t.now - u.now) / 1000
  | .evict _ => True

/-- If the stamp of the socket was never evicted, the event without a span is the
first of its lifetime. -/
def FirstAt (pre : List Input) : Input → Prop
  | .transition t => .evict t.sk ∉ pre → ∀ e, (step (stamps pre) (.transition t)).2 = some e →
      (e.hasSpan = false ↔ lifetime t.sk pre = [])
  | .evict _ => True

namespace SpansLemmas

open TcpstatesLemmas

theorem transitions_snoc (is : List Input) (i : Input) :
    transitions (is ++ [i]) =
      match i with
      | .transition t => transitions is ++ [t]
      | .evict _ => transitions is := by
  unfold transitions
  rw [List.filterMap_append]
  cases i with
  | transition t => rfl
  | evict sk => exact List.append_nil _

theorem lifetime_snoc (sk : SkAddr) (is : List Input) (i : Input) :
    lifetime sk (is ++ [i]) =
      match i with
      | .transition t => observe sk (lifetime sk is) t
      | .evict _ => lifetime sk is := by
  unfold lifetime
  rw [transitions_snoc]
  cases i with
  | transition t => exact List.foldl_concat ..
  | evict _ => rfl

/-- A lifetime is made of transitions of the run. -/
theorem mem_transitions_of_lifetime {sk : SkAddr} {is : List Input} {u : Transition}
    (h : u ∈ lifetime sk is) : u ∈ transitions is := by
  induction is using List.reverseRecOn with
  | nil => exact h
  | append_singleton is i ih =>
    rw [lifetime_snoc] at h
    rw [transitions_snoc]
    cases i with
    | evict s => exact ih h
    | transition t =>
      simp only [observe] at h
      split at h
      · split at h
        · exact absurd h List.not_mem_nil
        · rcases List.mem_append.mp h with h | h
          · exact List.mem_append_left _ (ih h)
          · exact List.mem_append_right _ h
      · exact List.mem_append_left _ (ih h)

/-- The time of the last transition of the present lifetime. -/
def lastStamp (sk : SkAddr) (is : List Input) : Option Nat :=
  (lifetime sk is).getLast?.map Transition.now

theorem lastStamp_transition (sk : SkAddr) (is : List Input) (t : Transition) :
    lastStamp sk (is ++ [.transition t]) =
      if t.sk = sk ∧ isInet t.sock.family = true then
        if t.state = .close then none else some t.now
      else lastStamp sk is := by
  unfold lastStamp
  rw [lifetime_snoc]
  simp only [observe]
  split
  · split
    · rfl
    · rw [List.getLast?_concat]
      rfl
  · rfl

/-- The map holds, of each socket, the time of the last transition of its lifetime or,
if an entry of it was evicted, possibly nothing. -/
def Stamped (is : List Input) (m : BpfMap SkAddr Nat) : Prop :=
  ∀ sk, m.lookupElem sk = lastStamp sk is ∨ (m.lookupElem sk = none ∧ .evict sk ∈ is)

theorem stamped_step {pre : List Input} {m : BpfMap SkAddr Nat} (h : Stamped pre m) (i : Input) :
    Stamped (pre ++ [i]) (step m i).1 := by
  intro sk
  have hmem : .evict sk ∈ pre → .evict sk ∈ pre ++ [i] := List.mem_append_left _
  cases i with
  | evict s =>
    have hsame : lastStamp sk (pre ++ [.evict s]) = lastStamp sk pre := by
      rw [lastStamp, lifetime_snoc, lastStamp]
    rw [hsame]
    simp only [step, BpfMap.lookupElem_deleteElem]
    split
    · next hsk => exact Or.inr ⟨rfl, by simp [hsk]⟩
    · exact (h sk).imp_right fun hn => ⟨hn.1, hmem hn.2⟩
  | transition t =>
    rw [lastStamp_transition]
    simp only [step, stamp_transition]
    split
    · exact Or.inl rfl
    · exact (h sk).imp_right fun hn => ⟨hn.1, hmem hn.2⟩

theorem stamped_run (is : List Input) : Stamped is (stamps is) := by
  induction is using List.reverseRecOn with
  | nil => exact fun _ => Or.inl rfl
  | append_singleton is i ih =>
    rw [stamps, exec_snoc]
    exact stamped_step ih i

/-- An event is that of its transition, with the stamp the map holds. -/
theorem event_emitted {m : BpfMap SkAddr Nat} {t : Transition} {e : Event}
    (h : (handleSetState m t).2 = some e) : e = event t (m.lookupElem t.sk) := by
  unfold handleSetState at h
  cases hf : isInet t.sock.family with
  | false => simp [hf] at h
  | true =>
    cases hr : t.room with
    | false => simp [hf, hr] at h
    | true => simpa [hf, hr] using h.symm

end SpansLemmas

open SpansLemmas

/-! ## 1. No span crosses a connection -/

/-- For every run, with any evictions and full rings and timestamps that do not
decrease. -/
theorem spans_within_lifetime {is : List Input}
    (hclock : (transitions is).Pairwise fun t u => t.now ≤ u.now)
    (hbits : ∀ t ∈ transitions is, t.now < 2 ^ 64) :
    Along (fun pre i => SpanAt pre i ∧ FirstAt pre i) is := by
  rintro pre i post rfl
  cases i with
  | evict sk => exact ⟨trivial, trivial⟩
  | transition t =>
    have htrans : transitions (pre ++ .transition t :: post) =
        transitions pre ++ t :: transitions post := by
      simp [transitions, List.filterMap_append]
    rw [htrans] at hclock hbits
    constructor
    · intro e he hspan
      rw [event_emitted he] at hspan ⊢
      rcases stamped_run pre t.sk with hm | ⟨hm, -⟩
      · rw [hm, lastStamp] at hspan ⊢
        cases hlast : (lifetime t.sk pre).getLast? with
        | none => rw [hlast] at hspan; cases hspan
        | some u =>
          have hu : u ∈ transitions pre :=
            mem_transitions_of_lifetime (List.mem_of_getLast? hlast)
          have hle : u.now ≤ t.now := (List.pairwise_append.mp hclock).2.2 u hu t (by simp)
          refine ⟨u, rfl, ?_⟩
          show u64Sub t.now u.now / 1000 = (t.now - u.now) / 1000
          rw [u64Sub_eq hle (hbits t (by simp))]
      · rw [hm] at hspan
        cases hspan
    · intro hkept e he
      rw [event_emitted he]
      rcases stamped_run pre t.sk with hm | ⟨-, hev⟩
      · show (((stamps pre).lookupElem t.sk).isSome = false) ↔ _
        rw [hm, lastStamp, Option.isSome_map, Option.isSome_eq_false_iff, Option.isNone_iff_eq_none,
          List.getLast?_eq_none_iff]
      · exact absurd hev hkept

/-- Two connections at one address: of the first, the event of ESTABLISHED is lost to a
full ring; the stamp of the second is evicted before its last transition. -/
def exRecycled : List Input :=
  [.transition ⟨1, Tcplife.exSock, .synSent, 1000, ⟨10, Comm.ofBytes [111]⟩, true⟩,
   .transition ⟨1, Tcplife.exSock, .established, 4000, ⟨0, Comm.ofBytes [110]⟩, false⟩,
   .transition ⟨1, Tcplife.exSock, .close, 9999, ⟨10, Comm.ofBytes [111]⟩, true⟩,
   .transition ⟨1, Tcplife.exSock, .synSent, 20000, ⟨12, Comm.ofBytes [111]⟩, true⟩,
   .evict 1,
   .transition ⟨1, Tcplife.exSock, .close, 30000, ⟨12, Comm.ofBytes [111]⟩, true⟩]

theorem exRecycled_spans :
    (outs step BpfMap.empty exRecycled).map (fun o => o.map fun e => (e.hasSpan, e.spanUs)) =
      [some (false, 0), none, some (true, 5), some (false, 0), none, some (false, 0)] ∧
    Along (fun pre i => SpanAt pre i ∧ FirstAt pre i) exRecycled :=
  ⟨by decide +kernel, spans_within_lifetime (by decide +kernel) (by decide +kernel)⟩

end Ebpf101.Tcp.Tcpstates
