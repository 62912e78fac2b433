import Mathlib.Algebra.GroupWithZero.Nat
import Mathlib.Data.List.ReduceOption
import Ebpf101.Tcp.Tcplife

/-!
# tcpstates, and the lifetimes of chapter 13

`12-tcpstates/tcpstates.bpf.c` emits one event at every transition, with the time
the socket spent in the state it leaves. It restarts its stamp at every transition
and truncates every span to microseconds; tcplife stamps once and truncates once.

Results:
1. `lifetimes_agree`: over the life of one connection, with any other sockets in
   between, every event but the first has a span, and the one summary of tcplife
   exceeds the sum of the `k` spans by at most `k - 1` microseconds.
-/

namespace Ebpf101.Tcp.Tcpstates

open Runs

/-! ## The probe -/

/-- `struct event`: one transition. -/
structure Event where
  skaddr : SkAddr
  spanUs : Nat
  pid : Pid
  oldstate : TcpState
  newstate : TcpState
  family : Nat
  sport : UInt16
  dport : UInt16
  hasSpan : Bool
  saddr : List UInt8
  daddr : List UInt8
  comm : Comm
deriving DecidableEq

/-- The record of a transition, given the stamp of the one before it. -/
def event (t : Transition) (prev : Option Nat) : Event where
  skaddr := t.sk
  spanUs := match prev with
    | some stamp => u64Sub t.now stamp / 1000
    | none => 0
  pid := t.cur.pid
  -- `tcp_set_state` has not written the new state yet
  oldstate := t.sock.state
  newstate := t.state
  family := t.sock.family
  sport := t.sock.num
  dport := ntohs t.sock.dport
  hasSpan := prev.isSome
  saddr := if t.sock.family = AF_INET then t.sock.rcvSaddr else t.sock.v6RcvSaddr
  daddr := if t.sock.family = AF_INET then t.sock.daddr else t.sock.v6Daddr
  comm := t.cur.comm

/-- `handle_set_state` of chapter 12, over the map `timestamps`. -/
def handleSetState (timestamps : BpfMap SkAddr Nat) (t : Transition) :
    BpfMap SkAddr Nat × Option Event :=
  if !isInet t.sock.family then (timestamps, none)
  else
    let prev := timestamps.lookupElem t.sk
    let stamped :=
      if t.state = .close then timestamps.deleteElem t.sk else timestamps.setElem 0 t.sk t.now
    (stamped, if t.room then some (event t prev) else none)

/-! ## Runs of the two probes -/

/-- The map after transitions, from the start of the tool. -/
def after (ts : List Transition) : BpfMap SkAddr Nat := exec handleSetState BpfMap.empty ts

/-- The events of the socket at `sk` during `ts`, which follow `pre`. -/
def eventsOf (sk : SkAddr) (pre ts : List Transition) : List Event :=
  (outs handleSetState (after pre) ts).reduceOption.filter (·.skaddr = sk)

/-- The maps of tcplife after transitions without evictions. -/
def lifeAfter (ts : List Transition) : Tcplife.Maps :=
  exec Tcplife.handleSetState Tcplife.Maps.empty ts

/-- The summaries of the socket at `sk` during `ts`, which follow `pre`. -/
def summariesOf (sk : SkAddr) (pre ts : List Transition) : List Tcplife.Summary :=
  (outs Tcplife.handleSetState (lifeAfter pre) ts).reduceOption.filter (·.skaddr = sk)

/-! ## Statements -/

/-- The transitions at `sk` that the probes do not ignore. -/
def own (sk : SkAddr) (ts : List Transition) : List Transition :=
  ts.filter fun t => t.sk = sk && isInet t.sock.family

/-- No connection at `sk` is open after `pre`: none was seen there, or the last one
was closed. -/
def Vacant (sk : SkAddr) (pre : List Transition) : Prop :=
  ∀ t, (own sk pre).getLast? = some t → t.state = .close

/-- `ts` are the transitions of one connection, from one that opens it to its close,
with room in the rings and timestamps that do not decrease. -/
structure Lifetime (first : Transition) (mid : List Transition) (last : Transition)
    (ts : List Transition) : Prop where
  eq : ts = first :: (mid ++ [last])
  opens : Tcplife.opens first.state = true
  mid : ∀ t ∈ mid, t.state ≠ .close
  closes : last.state = .close
  room : ∀ t ∈ ts, t.room = true
  clock : ts.Pairwise fun t u => t.now ≤ u.now
  bits : ∀ t ∈ ts, t.now < 2 ^ 64

namespace TcpstatesLemmas

open Tcplife.TcplifeLemmas

theorem own_cons (sk : SkAddr) (t : Transition) (ts : List Transition) :
    own sk (t :: ts) =
      if t.sk = sk ∧ isInet t.sock.family = true then t :: own sk ts else own sk ts := by
  simp [own, List.filter_cons]

theorem own_snoc (sk : SkAddr) (ts : List Transition) (t : Transition) :
    own sk (ts ++ [t]) =
      if t.sk = sk ∧ isInet t.sock.family = true then own sk ts ++ [t] else own sk ts := by
  simp only [own, List.filter_append]
  split
  · next h => simp [h]
  · next h => simp [h]

/-! ## What a probe keeps of one socket -/

/-- The stamp of a socket after a transition. -/
theorem stamp_transition (m : BpfMap SkAddr Nat) (t : Transition) (sk : SkAddr) :
    (handleSetState m t).1.lookupElem sk =
      if t.sk = sk ∧ isInet t.sock.family = true then
        if t.state = .close then none else some t.now
      else m.lookupElem sk := by
  unfold handleSetState
  cases isInet t.sock.family with
  | false => simp
  | true =>
    simp only [Bool.not_true, Bool.false_eq_true, if_false, and_true]
    split
    · rw [BpfMap.lookupElem_deleteElem]
      simp only [eq_comm]
    · rw [BpfMap.lookupElem_setElem]
      simp only [eq_comm]

/-- The birth of a socket after a transition. -/
theorem birth_transition (m : Tcplife.Maps) (t : Transition) (sk : SkAddr) :
    (Tcplife.handleSetState m t).1.births.lookupElem sk =
      if t.sk = sk ∧ isInet t.sock.family = true then
        if t.state = .close then none
        else if Tcplife.opens t.state then some ((m.births.lookupElem sk).getD t.now)
        else m.births.lookupElem sk
      else m.births.lookupElem sk := by
  rw [births_transition]
  rcases eq_or_ne t.sk sk with rfl | hne
  · cases isInet t.sock.family with
    | false => simp
    | true =>
      rcases eq_or_ne t.state .close with hc | hc
      · simp [hc, show Tcplife.opens .close = false by decide]
      · simp [hc]
  · simp [hne, hne.symm]

/-- The probes hold nothing of a socket whose connection is closed. -/
theorem vacant_after {sk : SkAddr} {pre : List Transition} (h : Vacant sk pre) :
    (after pre).lookupElem sk = none ∧ (lifeAfter pre).births.lookupElem sk = none := by
  induction pre using List.reverseRecOn with
  | nil => exact ⟨rfl, rfl⟩
  | append_singleton pre t ih =>
    rw [after, lifeAfter, exec_snoc, exec_snoc, stamp_transition, birth_transition]
    rw [Vacant, own_snoc] at h
    split
    · next hown =>
      rw [if_pos hown] at h
      have hc : t.state = .close := h t (by simp)
      rw [if_pos hc, if_pos hc]
      exact ⟨rfl, rfl⟩
    · next hown =>
      rw [if_neg hown] at h
      exact ih h

/-! ## What a probe emits for one socket -/

/-- The events of a socket, from the stamp of the transition before. -/
def trace (prev : Option Nat) : List Transition → List Event
  | [] => []
  | t :: ts => (if t.room then [event t prev] else []) ++
      trace (if t.state = .close then none else some t.now) ts

/-- The spans of the summaries of a socket, from its birth. -/
def lives (birth : Option Nat) : List Transition → List Nat
  | [] => []
  | t :: ts =>
    if t.state = .close then
      (if t.room then birth.toList.map fun b => u64Sub t.now b / 1000 else []) ++ lives none ts
    else lives (if Tcplife.opens t.state then some (birth.getD t.now) else birth) ts

/-- The outputs of a run that `p` keeps, first step first. -/
theorem filter_reduceOption_cons {ω : Type} (p : ω → Bool) (o : Option ω) (os : List (Option ω)) :
    (o :: os).reduceOption.filter p = o.toList.filter p ++ os.reduceOption.filter p := by
  cases o with
  | none => rw [List.reduceOption_cons_of_none]; rfl
  | some e => rw [List.reduceOption_cons_of_some, ← List.singleton_append, List.filter_append]; rfl

theorem event_transition (m : BpfMap SkAddr Nat) (t : Transition) (sk : SkAddr) :
    (handleSetState m t).2.toList.filter (·.skaddr = sk) =
      if t.sk = sk ∧ isInet t.sock.family = true then
        if t.room then [event t (m.lookupElem sk)] else []
      else [] := by
  unfold handleSetState
  cases isInet t.sock.family with
  | false => simp
  | true =>
    rcases eq_or_ne t.sk sk with rfl | hne
    · cases t.room <;> simp [event]
    · cases t.room <;> simp [event, hne]

theorem summary_transition (m : Tcplife.Maps) (t : Transition) (sk : SkAddr) :
    ((Tcplife.handleSetState m t).2.toList.filter (·.skaddr = sk)).map Tcplife.Summary.spanUs =
      if t.sk = sk ∧ isInet t.sock.family = true then
        if t.state = .close then
          if t.room then (m.births.lookupElem sk).toList.map fun b => u64Sub t.now b / 1000 else []
        else []
      else [] := by
  unfold Tcplife.handleSetState
  cases isInet t.sock.family with
  | false => simp
  | true =>
    rcases eq_or_ne t.state .close with hc | hc
    · simp only [hc, show Tcplife.opens .close = false by decide]
      cases hb : m.births.lookupElem t.sk with
      | none =>
        rcases eq_or_ne t.sk sk with rfl | hne
        · simp [hb]
        · simp [hb, hne]
      | some b =>
        rcases eq_or_ne t.sk sk with rfl | hne
        · cases t.room <;> simp [hb, Tcplife.summary]
        · cases t.room <;> simp [hb, Tcplife.summary, hne]
    · simp [hc]

/-- The other sockets do not matter to the events of one. -/
theorem events_eq_trace (sk : SkAddr) (m : BpfMap SkAddr Nat) (ts : List Transition) :
    (outs handleSetState m ts).reduceOption.filter (·.skaddr = sk) =
      trace (m.lookupElem sk) (own sk ts) := by
  induction ts generalizing m with
  | nil => rfl
  | cons t ts ih =>
    rw [outs, filter_reduceOption_cons, ih, event_transition, stamp_transition, own_cons]
    split
    · rfl
    · rfl

theorem summaries_eq_lives (sk : SkAddr) (m : Tcplife.Maps) (ts : List Transition) :
    ((outs Tcplife.handleSetState m ts).reduceOption.filter (·.skaddr = sk)).map
        Tcplife.Summary.spanUs =
      lives (m.births.lookupElem sk) (own sk ts) := by
  induction ts generalizing m with
  | nil => rfl
  | cons t ts ih =>
    rw [outs, filter_reduceOption_cons, List.map_append, ih, summary_transition, birth_transition,
      own_cons]
    split
    · rw [lives]
      split
      · rfl
      · rfl
    · rfl

/-! ## One connection -/

/-- From a transition at `prev` on: the spans, and the time from `prev` to the close. -/
theorem trace_spans {prev : Nat} {mid : List Transition} {last : Transition}
    (hmid : ∀ t ∈ mid, t.state ≠ .close) (hroom : ∀ t ∈ mid ++ [last], t.room = true)
    (hclock : (mid ++ [last]).Pairwise fun t u => t.now ≤ u.now)
    (hprev : ∀ t ∈ mid ++ [last], prev ≤ t.now) (hbits : ∀ t ∈ mid ++ [last], t.now < 2 ^ 64) :
    (∀ e ∈ trace (some prev) (mid ++ [last]), e.hasSpan = true) ∧
    (trace (some prev) (mid ++ [last])).length = mid.length + 1 ∧
    ((trace (some prev) (mid ++ [last])).map Event.spanUs).sum ≤ (last.now - prev) / 1000 ∧
    (last.now - prev) / 1000 ≤
      ((trace (some prev) (mid ++ [last])).map Event.spanUs).sum + mid.length := by
  induction mid generalizing prev with
  | nil =>
    have hsub : u64Sub last.now prev = last.now - prev :=
      u64Sub_eq (hprev last (by simp)) (hbits last (by simp))
    simp [trace, event, hroom, hsub]
  | cons t mid ih =>
    simp only [List.cons_append, List.forall_mem_cons, List.pairwise_cons]
      at hmid hroom hclock hprev hbits
    obtain ⟨hspan, hlen, hlow, hhigh⟩ := ih hmid.2 hroom.2 hclock.2 hclock.1 hbits.2
    have hsub : u64Sub t.now prev = t.now - prev := u64Sub_eq hprev.1 hbits.1
    have hlast : t.now ≤ last.now := hclock.1 last (by simp)
    rw [List.cons_append, trace, if_neg hmid.1, if_pos hroom.1, List.singleton_append]
    have hsplit : last.now - prev = (t.now - prev) + (last.now - t.now) := by
      rw [Nat.add_comm, Nat.sub_add_sub_cancel hlast hprev.1]
    have hsum : ((event t (some prev) :: trace (some t.now) (mid ++ [last])).map Event.spanUs).sum =
        (t.now - prev) / 1000 + ((trace (some t.now) (mid ++ [last])).map Event.spanUs).sum := by
      rw [List.map_cons, List.sum_cons, ← hsub]
      rfl
    rw [hsum, hsplit, List.length_cons, List.length_cons, hlen]
    -- each split of a span loses at most a microsecond to truncation
    refine ⟨List.forall_mem_cons.mpr ⟨rfl, hspan⟩, rfl, ?_, ?_⟩
    · omega
    · omega

/-- tcplife sees one life, from its birth. -/
theorem lives_close {birth : Nat} {mid : List Transition} {last : Transition}
    (hmid : ∀ t ∈ mid, t.state ≠ .close) (hlast : last.state = .close) (hroom : last.room = true) :
    lives (some birth) (mid ++ [last]) = [u64Sub last.now birth / 1000] := by
  induction mid with
  | nil => simp [lives, hlast, hroom]
  | cons t mid ih =>
    obtain ⟨ht, hrest⟩ := List.forall_mem_cons.mp hmid
    rw [List.cons_append, lives, if_neg ht, Option.getD_some, ite_self]
    exact ih hrest

end TcpstatesLemmas

open TcpstatesLemmas

/-! ## 1. The two tools agree -/

/-- For every run in which the transitions at `sk` that follow `pre` are one connection
with `mid.length + 1` transitions after its first, and any other sockets. -/
theorem lifetimes_agree {sk : SkAddr} {pre ts mid : List Transition} {first last : Transition}
    (hvacant : Vacant sk pre) (hlife : Lifetime first mid last (own sk ts)) :
    ∃ e evs s, eventsOf sk pre ts = e :: evs ∧ summariesOf sk pre ts = [s] ∧
      e.hasSpan = false ∧ evs.length = mid.length + 1 ∧ (∀ e ∈ evs, e.hasSpan = true) ∧
      (evs.map Event.spanUs).sum ≤ s.spanUs ∧
        s.spanUs ≤ (evs.map Event.spanUs).sum + mid.length := by
  obtain ⟨heq, hopens, hmid, hcloses, hroom, hclock, hbits⟩ := hlife
  obtain ⟨hstamp, hbirth⟩ := vacant_after hvacant
  rw [heq] at hroom hclock hbits
  obtain ⟨hroom0, hroom⟩ := List.forall_mem_cons.mp hroom
  obtain ⟨hprev, hclock⟩ := List.pairwise_cons.mp hclock
  obtain ⟨-, hbits⟩ := List.forall_mem_cons.mp hbits
  have hfirst : first.state ≠ .close := fun hc => by
    rw [hc] at hopens
    cases hopens
  have hevents : eventsOf sk pre ts = event first none ::
      trace (some first.now) (mid ++ [last]) := by
    rw [eventsOf, events_eq_trace, hstamp, heq, trace, if_pos hroom0, if_neg hfirst]
    rfl
  have hspans : (summariesOf sk pre ts).map Tcplife.Summary.spanUs =
      [(last.now - first.now) / 1000] := by
    rw [summariesOf, summaries_eq_lives, hbirth, heq, lives, if_neg hfirst, if_pos hopens]
    rw [Option.getD_none, lives_close hmid hcloses (hroom last (by simp)),
      u64Sub_eq (hprev last (by simp)) (hbits last (by simp))]
  obtain ⟨s, hs, hspan⟩ := List.map_eq_singleton_iff.mp hspans
  obtain ⟨hall, hlen, hlow, hhigh⟩ := trace_spans hmid hroom hclock hprev hbits
  refine ⟨_, _, s, hevents, hs, rfl, hlen, hall, ?_, ?_⟩
  · rw [hspan]
    exact hlow
  · rw [hspan]
    exact hhigh

/-- A connection at address 1, and one at address 2 in between. -/
def exLife : List Transition :=
  [⟨1, Tcplife.exSock, .synSent, 1000, ⟨10, Comm.ofBytes [111]⟩, true⟩,
   ⟨1, Tcplife.exSock, .established, 2500, ⟨0, Comm.ofBytes [110]⟩, true⟩,
   ⟨2, Tcplife.exSock, .established, 2600, ⟨0, Comm.ofBytes [110]⟩, true⟩,
   ⟨1, Tcplife.exSock, .finWait1, 4100, ⟨10, Comm.ofBytes [111]⟩, true⟩,
   ⟨1, Tcplife.exSock, .close, 5999, ⟨0, Comm.ofBytes [110]⟩, true⟩]

/-- Three spans of one microsecond each, in a life of four. -/
theorem exLife_agree :
    (eventsOf 1 [] exLife).map Event.spanUs = [0, 1, 1, 1] ∧
    (summariesOf 1 [] exLife).map Tcplife.Summary.spanUs = [4] ∧
    ∃ e evs s, eventsOf 1 [] exLife = e :: evs ∧ summariesOf 1 [] exLife = [s] ∧
      e.hasSpan = false ∧ evs.length = 3 ∧ (∀ e ∈ evs, e.hasSpan = true) ∧
      (evs.map Event.spanUs).sum ≤ s.spanUs ∧ s.spanUs ≤ (evs.map Event.spanUs).sum + 2 := by
  refine ⟨by decide +kernel, by decide +kernel, ?_⟩
  have hvacant : Vacant 1 [] := fun t ht => by cases ht
  have hlife : Lifetime ⟨1, Tcplife.exSock, .synSent, 1000, ⟨10, Comm.ofBytes [111]⟩, true⟩
      [⟨1, Tcplife.exSock, .established, 2500, ⟨0, Comm.ofBytes [110]⟩, true⟩,
        ⟨1, Tcplife.exSock, .finWait1, 4100, ⟨10, Comm.ofBytes [111]⟩, true⟩]
      ⟨1, Tcplife.exSock, .close, 5999, ⟨0, Comm.ofBytes [110]⟩, true⟩ (own 1 exLife) :=
    ⟨by decide +kernel, by decide, by decide +kernel, rfl, by decide +kernel, by decide +kernel,
      by decide +kernel⟩
  exact lifetimes_agree hvacant hlife

end Ebpf101.Tcp.Tcpstates
