import Ebpf101.Exec.Execsnoop
import Ebpf101.Lib.Interleave

/-!
# execsnoop: the round trip

The records of several `execve` calls reach user space interleaved, each call's
own in order.

Results:
1. `round_trip`: while the ring has room, and calls that are in flight at the
   same time do not share a slot, user space prints exactly one line for each
   call, with its first `MAXARGS` arguments, and nothing else.
-/

namespace Ebpf101.Exec

open Runs Interleave

variable {n : Nat}

/-- The records of call `i`, the ring never being full. -/
def streams (calls : Fin n → Call) (stale : Fin n → Nat → List UInt8) (i : Fin n) : List Event :=
  traceExecve (calls i) fun r => some (stale i r)

/-- A record of a call arrives while no other call in flight uses its slot. In
particular no other call of its process is in flight. -/
def NoCollisionAt (calls : Fin n → Call) (recs : Fin n → List Event)
    (pre : List (Fin n × Event)) (x : Fin n × Event) : Prop :=
  ∀ j, j ≠ x.1 → InFlight recs pre j →
    (calls j).pid % TABLE_SIZE ≠ (calls x.1).pid % TABLE_SIZE

instance (calls : Fin n → Call) (recs : Fin n → List Event) (pre : List (Fin n × Event))
    (x : Fin n × Event) : Decidable (NoCollisionAt calls recs pre x) :=
  inferInstanceAs (Decidable (∀ _, _ → _ → _))

namespace RoundTripLemmas

open ExecsnoopLemmas

/-- The table and the lines after the records `pre`. -/
structure TripInv (calls : Fin n → Call) (recs : Fin n → List Event)
    (pre : List (Fin n × Event)) : Prop where
  flying : ∀ i, InFlight recs pre i →
    Holds (calls i) (own i pre).length (after (pre.map Prod.snd) (getSlot (calls i).pid))
  free : ∀ k, (∀ i, InFlight recs pre i → getSlot (calls i).pid ≠ k) →
    (after (pre.map Prod.snd) k).active = false
  lines : (printed (pre.map Prod.snd)).Perm
    (((List.finRange n).filter fun i => own i pre = recs i).map fun i => lineOf (calls i))

/-- What is to be known of the streams: each has its arguments and its marker. -/
structure Complete (c : Call) (es : List Event) : Prop where
  args : c.argv ≠ []
  length : es.length = min MAXARGS c.argv.length + 1
  record : ∀ {j e}, es[j]? = some e →
    (j < min MAXARGS c.argv.length ∧ IsArg c j e) ∨ (j = min MAXARGS c.argv.length ∧ IsRet c e)

theorem complete_traceExecve {c : Call} (hargs : c.argv ≠ []) {reserve : Nat → Option (List UInt8)}
    (hroom : ∀ i, reserve i ≠ none) : Complete c (traceExecve c reserve) :=
  ⟨hargs, length_traceExecve hroom, record_cases⟩

section Step

variable {calls : Fin n → Call} {recs : Fin n → List Event} {pre : List (Fin n × Event)}
  {x : Fin n × Event}

/-- The calls in flight after a record of call `x.1`. -/
theorem inFlight_snoc_ne {i : Fin n} (h : i ≠ x.1) :
    InFlight recs (pre ++ [x]) i ↔ InFlight recs pre i := by
  unfold InFlight
  rw [own_snoc_ne h]

/-- A record of call `x.1` that leaves its slot as it should keeps the invariant. -/
theorem TripInv.step (h : TripInv calls recs pre) (hpid : x.2.pid = (calls x.1).pid)
    (hcol : NoCollisionAt calls recs pre x)
    (hfly : own x.1 (pre ++ [x]) ≠ recs x.1 →
      Holds (calls x.1) (own x.1 (pre ++ [x])).length
        (handleSlot (after (pre.map Prod.snd) (getSlot x.2.pid)) x.2).1)
    (hend : own x.1 (pre ++ [x]) = recs x.1 →
      (handleSlot (after (pre.map Prod.snd) (getSlot x.2.pid)) x.2).1.active = false)
    (hout : (handleSlot (after (pre.map Prod.snd) (getSlot x.2.pid)) x.2).2 =
      if own x.1 (pre ++ [x]) = recs x.1 then some (lineOf (calls x.1)) else none)
    (hnot : own x.1 pre ≠ recs x.1) : TripInv calls recs (pre ++ [x]) := by
  rw [hpid] at hfly hend hout
  have hself := after_snoc_self (pre.map Prod.snd) x.2
  rw [hpid] at hself
  have hmap : (pre ++ [x]).map Prod.snd = pre.map Prod.snd ++ [x.2] := by simp
  refine ⟨fun i hi => ?_, fun k hk => ?_, ?_⟩
  · rw [hmap]
    by_cases hix : i = x.1
    · subst hix
      rw [hself]
      exact hfly hi.2
    · rw [inFlight_snoc_ne hix] at hi
      have hne := getSlot_ne (hcol i hix hi)
      rw [own_snoc_ne hix, after_snoc_ne (by rw [hpid]; exact hne)]
      exact h.flying i hi
  · rw [hmap]
    by_cases hkx : k = getSlot (calls x.1).pid
    · subst hkx
      rw [hself]
      refine hend ?_
      by_contra hne
      refine hk x.1 ⟨?_, hne⟩ rfl
      rw [own_snoc_self]
      simp
    · rw [after_snoc_ne (by rw [hpid]; exact hkx)]
      refine h.free k fun i hi => ?_
      by_cases hix : i = x.1
      · rw [hix]
        exact Ne.symm hkx
      · exact hk i ((inFlight_snoc_ne hix).mpr hi)
  · rw [hmap, printed_snoc, hpid, hout]
    have hperm := (ended_snoc hnot).map fun i => lineOf (calls i)
    refine List.Perm.trans ?_ hperm.symm
    split
    · exact (h.lines.append_right _).trans (List.perm_append_singleton _ _)
    · simpa using h.lines

/-- The three kinds of records. -/
theorem tripInv_step {post : List (Fin n × Event)} (h : TripInv calls recs pre)
    (hrecs : ∀ i, Complete (calls i) (recs i)) (hmerge : Merges recs (pre ++ x :: post))
    (hcol : NoCollisionAt calls recs pre x) : TripInv calls recs (pre ++ [x]) := by
  have hx := hmerge.next
  have hnot := hmerge.not_ended
  have hlen := length_own_snoc x pre
  have hpos : 0 < min MAXARGS (calls x.1).argv.length := by
    have := List.length_pos_iff.mpr (hrecs x.1).args
    have : 0 < MAXARGS := by decide
    omega
  have hended : own x.1 (pre ++ [x]) = recs x.1 ↔
      (own x.1 pre).length = min MAXARGS (calls x.1).argv.length := by
    rw [hmerge.ended_iff, (hrecs x.1).length, Nat.add_right_cancel_iff]
  rcases (hrecs x.1).record hx with ⟨hlt, harg⟩ | ⟨heq, hret⟩
  · have hne : own x.1 (pre ++ [x]) ≠ recs x.1 := fun he => by
      rw [hended] at he
      omega
    have hslot : Holds (calls x.1) ((own x.1 pre).length + 1)
          (handleSlot (after (pre.map Prod.snd) (getSlot x.2.pid)) x.2).1 ∧
        (handleSlot (after (pre.map Prod.snd) (getSlot x.2.pid)) x.2).2 = none := by
      by_cases hfirst : own x.1 pre = []
      · -- the first argument: no call in flight has the slot
        have hfree : (after (pre.map Prod.snd) (getSlot x.2.pid)).active = false := by
          refine h.free _ fun i hi => ?_
          have hix : i ≠ x.1 := fun he => hi.1 (he ▸ hfirst)
          rw [harg.pid]
          exact getSlot_ne (hcol i hix hi)
        rw [hfirst] at harg ⊢
        exact handleSlot_first (by simp [Pending.isFor, hfree]) harg
      · have hfly := h.flying x.1 ⟨hfirst, hnot⟩
        rw [← harg.pid] at hfly
        exact handleSlot_next hfly (by omega) harg
    exact h.step harg.pid hcol (fun _ => hlen ▸ hslot.1) (fun he => absurd he hne)
      (by rw [if_neg hne]; exact hslot.2) hnot
  · have hfirst : own x.1 pre ≠ [] := fun he => by
      rw [he] at heq
      simp at heq
      omega
    have hfly := h.flying x.1 ⟨hfirst, hnot⟩
    rw [← hret.pid] at hfly
    obtain ⟨hfree, hline⟩ := handleSlot_ret hfly hret.pid hret.type
    refine h.step hret.pid hcol (fun hne => absurd (hended.mpr heq) hne) (fun _ => hfree) ?_ hnot
    rw [if_pos (hended.mpr heq), hline, heq, lineOf, ← List.take_take, List.take_length]

end Step

/-- Before the first record nothing is in flight and nothing has ended. -/
theorem tripInv_nil {calls : Fin n → Call} {recs : Fin n → List Event}
    (hrecs : ∀ i, Complete (calls i) (recs i)) : TripInv calls recs [] := by
  refine ⟨fun i hi => absurd rfl hi.1, fun k _ => rfl, ?_⟩
  have hnone : ((List.finRange n).filter fun i =>
      own i ([] : List (Fin n × Event)) = recs i) = [] := by
    rw [List.filter_eq_nil_iff]
    intro i _ hi
    have hlen := (hrecs i).length
    rw [← of_decide_eq_true hi] at hlen
    cases hlen
  rw [hnone]
  exact List.Perm.refl _

end RoundTripLemmas

open RoundTripLemmas ExecsnoopLemmas

/-! ## 1. Every call is printed once -/

/-- For any calls with at least one argument, any stale contents of the reserved
records, and any interleaving of their records in which calls in flight at the
same time have pids distinct modulo `TABLE_SIZE`: the lines printed are those of
the calls, one each. -/
theorem round_trip (calls : Fin n → Call) (stale : Fin n → Nat → List UInt8)
    (hargs : ∀ i, (calls i).argv ≠ []) {es : List (Fin n × Event)}
    (hmerge : Merges (streams calls stale) es)
    (hcol : Along (NoCollisionAt calls (streams calls stale)) es) :
    (printed (es.map Prod.snd)).Perm ((List.finRange n).map fun i => lineOf (calls i)) := by
  have hrecs : ∀ i, Complete (calls i) (streams calls stale i) := fun i =>
    complete_traceExecve (hargs i) fun _ => Option.some_ne_none _
  have hinv : TripInv calls (streams calls stale) es :=
    prefix_history (tripInv_nil hrecs) fun pre x post he hpre =>
      tripInv_step hpre hrecs (he ▸ hmerge) (hcol pre x post he)
  have hend := hinv.lines
  rwa [List.filter_eq_self.mpr (fun i _ => by simpa using hmerge i)] at hend

/-- Two calls, `ls` by pid 10 and `cp a` by pid 11. -/
def exCalls : Fin 2 → Call
  | 0 => ⟨10, 0, Comm.ofBytes [98], [some (CString.ofBytes [108, 115])]⟩
  | 1 => ⟨11, 0, Comm.ofBytes [98], [some (CString.ofBytes [99, 112]), some (CString.ofBytes [97])]⟩

/-- The records of the two calls, in turn, those of the second call first. -/
def exMixed : List (Fin 2 × Event) :=
  (List.range 3).flatMap fun j => (List.finRange 2).reverse.filterMap fun i =>
    ((streams exCalls (fun _ _ => []) i)[j]?).map (Prod.mk i)

theorem exMixed_printed :
    (printed (exMixed.map Prod.snd)).Perm ((List.finRange 2).map fun i => lineOf (exCalls i)) := by
  refine round_trip exCalls (fun _ _ => []) (by decide) (fun i => ?_) (by decide +kernel)
  match i with
  | 0 => decide +kernel
  | 1 => decide +kernel

end Ebpf101.Exec
